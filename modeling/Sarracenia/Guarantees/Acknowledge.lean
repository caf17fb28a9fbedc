import Sarracenia.Source.Acknowledge

/-!
# Where a message is acknowledged

Messages are routed back to their consumers by the text of the broker alone. A message
whose connection stands should be acknowledged over it, once, and over no other.

* one consumer's turn: which messages it takes from the list, and what it sends
  (`ackList_untouched`, `ackList_own`);
* a whole call (`ackConsumers_spec`);
* the runs of a flow in which no consumer comes before another with the same broker
  (`Apart`), and what holds in every state they reach (`reachable_routed`).

Of two consumers on one broker, the first throws away what the second received.
-/
namespace Sarracenia.Guarantees.Acknowledge
open Library Library.Text Library.Dynamic Source Source.Acknowledge

section Claim

/-- Where a message came from: the consumer, which of its connections, and the tag. -/
structure Origin where
  consumer : Nat
  connection : Nat
  tag : Nat
  deriving DecidableEq, Repr

/-- The state of a flow, with the origin of each message, the messages that reached `ack`
while their connection stood, and the acknowledgements that went out. -/
structure State where
  consumers : List (Option Consumer)
  messages : Messages
  next : Nat
  connections : Nat
  origin : Nat → Origin
  reached : List Nat
  log : List Ack

/-- The connection a message came over is still the one its consumer has. -/
def stands (consumers : List (Option Consumer)) (origin : Origin) : Bool :=
  match consumers[origin.consumer]? with
  | some (some c) => c.connection_id = some origin.connection
  | _ => false

/-- A consumer to which a message of the broker can come: every consumer before it with
that broker lost its connection in this call. -/
def Offered (s : State) (breaks : Nat → Nat → Bool) (mlist : List Nat) (broker : Str) (j : Nat) :
    Prop :=
  ∀ j' < j, ∀ c, s.consumers[j']? = some (some c) → c.broker = some broker →
    ∃ i ∈ mlist, breaks j' i = true

/-- The consumer has what it reads of itself and of a message to acknowledge it. -/
def Reads (c : Consumer) (m : Received) (ack_id : AckId) : Prop :=
  c.channel.isSome ∧ (c.kind = .amqp → ack_id.connection_id.isSome) ∧
    (c.kind = .mqtt → m.qos.isSome)

/-- The condition on a call: a message whose connection stands meets no other consumer
with its broker first, and no message meets a consumer that cannot read it. -/
structure Apart (s : State) (mlist : List Nat) (breaks : Nat → Nat → Bool) : Prop where
  ownFirst : ∀ i ∈ mlist, ∀ ack_id, (s.messages i).ack_id = some ack_id →
    stands s.consumers (s.origin i) = true → ∀ j < (s.origin i).consumer, ∀ c,
      s.consumers[j]? = some (some c) → c.broker ≠ some ack_id.broker
  readable : ∀ i ∈ mlist, ∀ ack_id, (s.messages i).ack_id = some ack_id → ∀ j,
    Offered s breaks mlist ack_id.broker j →
      s.consumers[j]? ≠ some none ∧
        ∀ c, s.consumers[j]? = some (some c) → c.broker = some ack_id.broker →
          Reads c (s.messages i) ack_id

/-- The state after a call of `ack`. -/
def State.acked (s : State) (mlist : List Nat) (breaks : Nat → Nat → Bool) : State :=
  let turn := Acknowledge.ack breaks mlist s.consumers s.messages
  { s with
    consumers := turn.consumer
    messages := turn.messages
    log := s.log ++ turn.log
    reached := s.reached ++ mlist.filter fun i =>
      i < s.next && stands s.consumers (s.origin i) && stands turn.consumer (s.origin i) }

/-- What happens in a flow. A gather is some of the first five, consumer after consumer;
`ok` is what is asked of a call of `ack`. -/
inductive Step (ok : State → List Nat → (Nat → Nat → Bool) → Prop) : State → State → Prop where
  /-- `subFactory` finds a driver. -/
  | create (s : State) (k : Nat) (kind : Kind) (missing : s.consumers[k]? = some none) :
      Step ok s { s with consumers := s.consumers.set k (some (.new kind)) }
  /-- A connection is made: it has a name of its own. -/
  | connect (s : State) (k : Nat) (c : Consumer) (here : s.consumers[k]? = some (some c))
      (broker : Str) (channel : Nat) :
      Step ok s { s with
        consumers := s.consumers.set k (some
          ⟨c.kind, true, some broker, some s.connections, some channel⟩)
        connections := s.connections + 1 }
  /-- A connection fails halfway: the channel stays as it was. -/
  | attempt (s : State) (k : Nat) (c : Consumer) (here : s.consumers[k]? = some (some c))
      (broker : Str) :
      Step ok s { s with
        consumers := s.consumers.set k (some
          ⟨c.kind, false, some broker, some s.connections, c.channel⟩)
        connections := s.connections + 1 }
  | close (s : State) (k : Nat) (c : Consumer) (here : s.consumers[k]? = some (some c)) :
      Step ok s { s with consumers := s.consumers.set k (some c.close) }
  /-- A delivery is decoded. MQTT may have had it from an earlier connection. -/
  | receive (s : State) (k : Nat) (c : Consumer) (here : s.consumers[k]? = some (some c))
      (connected : c.connected = true) (broker : Str) (named : c.broker = some broker)
      (connection tag qos : Nat) (given : connection < s.connections)
      (carries : c.kind = .amqp → c.connection_id = some connection) :
      Step ok s { s with
        messages := Function.update s.messages s.next (c.receive broker tag qos)
        origin := Function.update s.origin s.next ⟨k, connection, tag⟩
        next := s.next + 1 }
  | ack (s : State) (mlist : List Nat) (breaks : Nat → Nat → Bool) (called : ok s mlist breaks) :
      Step ok s (s.acked mlist breaks)

def initial (kinds : List (Option Kind)) : State where
  consumers := kinds.map (Option.map Consumer.new)
  messages := fun _ => ⟨none, none⟩
  next := 0
  connections := 0
  origin := fun _ => ⟨0, 0, 0⟩
  reached := []
  log := []

inductive Reachable (ok : State → List Nat → (Nat → Nat → Bool) → Prop) : State → Prop where
  | initial (kinds : List (Option Kind)) : Reachable ok (initial kinds)
  | step {s s' : State} (before : Reachable ok s) (step : Step ok s s') : Reachable ok s'

/-- The acknowledgements about a message. -/
def about (i : Nat) (log : List Ack) : List Ack := log.filter (·.message = i)

/-- The one acknowledgement a message should have. -/
def Origin.ack (origin : Origin) (i : Nat) : Ack :=
  ⟨origin.consumer, some origin.connection, i, origin.tag⟩

/-- A message that reached `ack` was acknowledged over its own connection, exactly once and
nowhere else; one whose connection stands and that did not is not acknowledged at all. -/
structure Routed (s : State) : Prop where
  once : ∀ i ∈ s.reached, about i s.log = [(s.origin i).ack i]
  unasked : ∀ i < s.next, i ∉ s.reached → stands s.consumers (s.origin i) = true →
    about i s.log = []

end Claim

section Turn
variable (k : Nat) (breaks : Nat → Bool) (c : Consumer)

theorem about_append (i : Nat) (log log' : List Ack) :
    about i (log ++ log') = about i log ++ about i log' := List.filter_append ..

theorem forget_self (i : Nat) (messages : Messages) : (forget i messages i).ack_id = none := by
  simp [forget]

theorem forget_other {i j : Nat} (other : j ≠ i) (messages : Messages) :
    forget i messages j = messages j := by
  simp [forget, other]

theorem named_iff (m : Received) :
    c.named m = true ↔ ∃ ack_id, m.ack_id = some ack_id ∧ c.broker = some ack_id.broker := by
  unfold Consumer.named
  cases m.ack_id <;> simp [eq_comm]

/-- What is left of a message: itself, or the message without its `ack_id`. -/
def Left (before after : Received) : Prop := after = before ∨ after.ack_id = none

/-- What one acknowledgement does: nothing to other messages; the consumer stays as it is,
or closes because the connection broke. -/
structure Acked (i : Nat) (messages : Messages) (turn : Turn Consumer) : Prop where
  others : ∀ j ≠ i, turn.messages j = messages j ∧ about j turn.log = []
  here : Left (messages i) (turn.messages i)
  consumer : turn.consumer = c ∨ c.kind = .amqp ∧ turn.consumer = c.close ∧ breaks i = true

theorem ack_spec (i : Nat) (messages : Messages) :
    Acked breaks c i messages (c.ack k breaks i messages) := by
  have keeps (f : Option Fault) : Acked breaks c i messages ⟨c, messages, [], f⟩ :=
    ⟨fun _ _ => ⟨rfl, rfl⟩, .inl rfl, .inl rfl⟩
  have forgets : Acked breaks c i messages ⟨c, forget i messages, [], none⟩ :=
    ⟨fun j other => ⟨forget_other other messages, rfl⟩, .inr (forget_self i messages), .inl rfl⟩
  have sends (tag : Nat) :
      Acked breaks c i messages ⟨c, forget i messages, [⟨k, c.connection_id, i, tag⟩], none⟩ :=
    ⟨fun j other => ⟨forget_other other messages, by simp [about, Ne.symm other]⟩,
      .inr (forget_self i messages), .inl rfl⟩
  unfold Consumer.ack
  cases kind : c.kind with
  | amqp =>
    simp only [AMQP.ack]
    split
    · exact keeps none
    · split
      · exact keeps _
      · split
        · exact keeps _
        · split
          · exact forgets
          · split
            · next broken =>
              exact ⟨fun j other => ⟨forget_other other messages, rfl⟩,
                .inr (forget_self i messages), .inr ⟨kind, rfl, broken⟩⟩
            · exact sends _
  | mqtt =>
    simp only [MQTT.ack]
    split
    · exact keeps none
    · split
      · exact forgets
      · split
        · exact keeps _
        · split
          · exact keeps _
          · exact sends _

/-- A consumer that can read the message takes it off the list. -/
theorem ack_reads {i : Nat} {messages : Messages} {ack_id : AckId}
    (marked : (messages i).ack_id = some ack_id) (reads : Reads c (messages i) ack_id) :
    (c.ack k breaks i messages).fault = none ∧
      ((c.ack k breaks i messages).messages i).ack_id = none := by
  obtain ⟨channel, connection, qos⟩ := reads
  obtain ⟨ch, channel⟩ := Option.isSome_iff_exists.mp channel
  unfold Consumer.ack
  cases kind : c.kind with
  | amqp =>
    obtain ⟨connection_id, connection⟩ := Option.isSome_iff_exists.mp (connection kind)
    simp only [AMQP.ack, marked, connection, channel, reduceCtorEq, if_false]
    split
    · exact ⟨rfl, forget_self i messages⟩
    · split
      · exact ⟨rfl, forget_self i messages⟩
      · exact ⟨rfl, forget_self i messages⟩
  | mqtt =>
    obtain ⟨q, qos⟩ := Option.isSome_iff_exists.mp (qos kind)
    simp only [MQTT.ack, marked, channel, qos, reduceCtorEq, if_false]
    split
    · exact ⟨rfl, forget_self i messages⟩
    · exact ⟨rfl, forget_self i messages⟩

/-- The message came over the connection that the consumer has. -/
structure Fits (m : Received) (ack_id : AckId) (connection : Nat) : Prop where
  marked : m.ack_id = some ack_id
  broker : c.broker = some ack_id.broker
  channel : c.channel.isSome
  amqp : c.kind = .amqp → ack_id.connection_id = some connection ∧ ack_id.channel_id = c.channel
  mqtt : c.kind = .mqtt → m.qos.isSome

theorem Fits.reads {m : Received} {ack_id : AckId} {connection : Nat} {c : Consumer}
    (fits : Fits c m ack_id connection) : Reads c m ack_id :=
  ⟨fits.channel, fun kind => by simp [(fits.amqp kind).1], fits.mqtt⟩

/-- A message that came over the connection is acknowledged over it. -/
theorem ack_own {i : Nat} {messages : Messages} {ack_id : AckId} {connection : Nat}
    (fits : Fits c (messages i) ack_id connection) (stands : c.connection_id = some connection)
    (kept : (c.ack k breaks i messages).consumer = c) :
    (c.ack k breaks i messages).log = [⟨k, some connection, i, ack_id.delivery_tag⟩] := by
  obtain ⟨ch, channel⟩ := Option.isSome_iff_exists.mp fits.channel
  unfold Consumer.ack at kept ⊢
  cases kind : c.kind with
  | amqp =>
    obtain ⟨came, carries⟩ := fits.amqp kind
    have same : ¬ (some connection ≠ c.connection_id ∨ ack_id.channel_id ≠ some ch ∨
        some ack_id.broker ≠ c.broker) := by
      simp [stands, carries, channel, fits.broker]
    simp only [kind, AMQP.ack, fits.marked, came, channel, same, reduceCtorEq, if_false] at kept ⊢
    split at kept
    · have lost := congrArg Consumer.connection_id kept
      simp [Consumer.close, kind, stands] at lost
    · next unbroken => simp [unbroken, stands]
  | mqtt =>
    obtain ⟨q, qos⟩ := Option.isSome_iff_exists.mp (fits.mqtt kind)
    simp [MQTT.ack, fits.marked, fits.broker, channel, qos, stands]

theorem close_named {m : Received} (amqp : c.kind = .amqp) : c.close.named m = false := by
  unfold Consumer.named
  cases m.ack_id <;> simp [Consumer.close, amqp]

theorem ackList_cons (i : Nat) (mlist : List Nat) (messages : Messages)
    (named : c.named (messages i) = true) (sound : (c.ack k breaks i messages).fault = none) :
    ackList k breaks c (i :: mlist) messages =
      { ackList k breaks (c.ack k breaks i messages).consumer mlist
          (c.ack k breaks i messages).messages with
        log := (c.ack k breaks i messages).log ++
          (ackList k breaks (c.ack k breaks i messages).consumer mlist
            (c.ack k breaks i messages).messages).log } := by
  simp [ackList, named, sound]

theorem ackList_skip (i : Nat) (mlist : List Nat) (messages : Messages)
    (unnamed : c.named (messages i) = false) :
    ackList k breaks c (i :: mlist) messages = ackList k breaks c mlist messages := by
  simp [ackList, unnamed]

/-- A consumer that closed takes nothing more. -/
theorem ackList_closed (amqp : c.kind = .amqp) (mlist : List Nat) (messages : Messages) :
    ackList k breaks c.close mlist messages = ⟨c.close, messages, [], none⟩ := by
  induction mlist with
  | nil => rfl
  | cons i mlist ih => rw [ackList_skip k breaks _ _ _ _ (close_named c amqp), ih]

/-- A message that is not on the list, or is not for this consumer, is left alone. -/
theorem ackList_untouched (i : Nat) (mlist : List Nat) (messages : Messages)
    (apart : i ∉ mlist ∨ c.named (messages i) = false) :
    (ackList k breaks c mlist messages).messages i = messages i ∧
      about i (ackList k breaks c mlist messages).log = [] := by
  induction mlist generalizing messages with
  | nil => exact ⟨rfl, rfl⟩
  | cons j mlist ih =>
    have later : i ∉ mlist ∨ c.named (messages i) = false :=
      apart.imp_left fun out found => out (List.mem_cons_of_mem j found)
    cases named : c.named (messages j) with
    | false =>
      rw [ackList_skip k breaks c j mlist messages named]
      exact ih messages later
    | true =>
      have other : i ≠ j := by
        intro same
        subst same
        obtain out | unnamed := apart
        · exact out List.mem_cons_self
        · rw [named] at unnamed
          cases unnamed
      have acked := ack_spec k breaks c j messages
      obtain ⟨same, quiet⟩ := acked.others i other
      cases fault : (c.ack k breaks j messages).fault with
      | some f =>
        have stops : ackList k breaks c (j :: mlist) messages = c.ack k breaks j messages := by
          simp [ackList, named, fault]
        rw [stops]
        exact ⟨same, quiet⟩
      | none =>
        rw [ackList_cons k breaks c j mlist messages named fault]
        simp only [about_append, quiet, List.nil_append]
        obtain stays | ⟨amqp, closes, -⟩ := acked.consumer
        · rw [stays, ← same]
          exact ih _ (by rw [same]; exact later)
        · rw [closes, ackList_closed k breaks c amqp]
          exact ⟨same, rfl⟩

/-- A consumer that can read every message for it takes them all, unless its connection
breaks. -/
structure Taken (mlist : List Nat) (messages : Messages) (turn : Turn Consumer) : Prop where
  sound : turn.fault = none
  left : ∀ i, Left (messages i) (turn.messages i)
  consumer : turn.consumer = c ∧ (∀ i ∈ mlist, c.named (turn.messages i) = false) ∨
    c.kind = .amqp ∧ turn.consumer = c.close ∧ ∃ i ∈ mlist, breaks i = true

theorem unnamed_of_left {before after : Received} (left : Left before after)
    (unnamed : c.named before = false) : c.named after = false := by
  obtain rfl | gone := left
  · exact unnamed
  · simp [Consumer.named, gone]

theorem Left.trans {a b d : Received} (first : Left a b) (second : Left b d) : Left a d := by
  obtain rfl | gone := second
  · exact first
  · exact .inr gone

theorem ackList_taken (mlist : List Nat) (messages : Messages)
    (readable : ∀ i ∈ mlist, ∀ ack_id, (messages i).ack_id = some ack_id →
      c.broker = some ack_id.broker → Reads c (messages i) ack_id) :
    Taken breaks c mlist messages (ackList k breaks c mlist messages) := by
  induction mlist generalizing messages with
  | nil => exact ⟨rfl, fun _ => .inl rfl, .inl ⟨rfl, fun _ found => by cases found⟩⟩
  | cons j mlist ih =>
    have later := fun i found => readable i (List.mem_cons_of_mem j found)
    cases named : c.named (messages j) with
    | false =>
      rw [ackList_skip k breaks c j mlist messages named]
      obtain ⟨sound, left, consumer⟩ := ih messages later
      refine ⟨sound, left, consumer.imp (fun stays => ⟨stays.1, ?_⟩) (fun closes => ?_)⟩
      · intro i found
        obtain rfl | found := List.mem_cons.mp found
        · exact unnamed_of_left c (left i) named
        · exact stays.2 i found
      · obtain ⟨amqp, closes, i, found, broken⟩ := closes
        exact ⟨amqp, closes, i, List.mem_cons_of_mem j found, broken⟩
    | true =>
      obtain ⟨ack_id, marked, broker⟩ := (named_iff c (messages j)).mp named
      obtain ⟨sound, gone⟩ := ack_reads k breaks c marked
        (readable j List.mem_cons_self ack_id marked broker)
      have acked := ack_spec k breaks c j messages
      rw [ackList_cons k breaks c j mlist messages named sound]
      have left (i : Nat) : Left (messages i) ((c.ack k breaks j messages).messages i) := by
        by_cases same : i = j
        · rw [same]
          exact acked.here
        · exact .inl (acked.others i same).1
      obtain stays | ⟨amqp, closes, broken⟩ := acked.consumer
      · rw [stays]
        obtain ⟨sound', left', consumer⟩ := ih (c.ack k breaks j messages).messages (by
          intro i found ack_id' marked' broker'
          obtain same | gone' := left i
          · rw [same] at marked' ⊢
            exact later i found ack_id' marked' broker'
          · rw [gone'] at marked'
            cases marked')
        refine ⟨sound', fun i => (left i).trans (left' i), consumer.imp (fun stays => ⟨stays.1, ?_⟩)
          (fun closes => ?_)⟩
        · intro i found
          obtain rfl | found := List.mem_cons.mp found
          · exact unnamed_of_left c (left' i) (by simp [Consumer.named, gone])
          · exact stays.2 i found
        · obtain ⟨amqp, closes, i, found, broken⟩ := closes
          exact ⟨amqp, closes, i, List.mem_cons_of_mem j found, broken⟩
      · rw [closes, ackList_closed k breaks c amqp]
        exact ⟨rfl, left, .inr ⟨amqp, rfl, j, List.mem_cons_self, broken⟩⟩

/-- A message that came over the connection the consumer keeps is acknowledged over it, once. -/
theorem ackList_own {i : Nat} {mlist : List Nat} {messages : Messages} {ack_id : AckId}
    {connection : Nat} (onList : i ∈ mlist) (fits : Fits c (messages i) ack_id connection)
    (stands : c.connection_id = some connection)
    (readable : ∀ i ∈ mlist, ∀ ack_id, (messages i).ack_id = some ack_id →
      c.broker = some ack_id.broker → Reads c (messages i) ack_id)
    (kept : (ackList k breaks c mlist messages).consumer.connection_id = some connection) :
    ((ackList k breaks c mlist messages).messages i).ack_id = none ∧
      about i (ackList k breaks c mlist messages).log =
        [⟨k, some connection, i, ack_id.delivery_tag⟩] := by
  induction mlist generalizing messages with
  | nil => cases onList
  | cons j mlist ih =>
    have later := fun i found => readable i (List.mem_cons_of_mem j found)
    cases named : c.named (messages j) with
    | false =>
      rw [ackList_skip k breaks c j mlist messages named] at kept ⊢
      have other : i ≠ j := by
        intro same
        subst same
        rw [(named_iff c (messages i)).mpr ⟨ack_id, fits.marked, fits.broker⟩] at named
        cases named
      exact ih ((List.mem_cons.mp onList).resolve_left other) fits later kept
    | true =>
      obtain ⟨ack_id', marked, broker⟩ := (named_iff c (messages j)).mp named
      obtain ⟨sound, gone⟩ := ack_reads k breaks c marked
        (readable j List.mem_cons_self ack_id' marked broker)
      have acked := ack_spec k breaks c j messages
      rw [ackList_cons k breaks c j mlist messages named sound] at kept ⊢
      have stays : (c.ack k breaks j messages).consumer = c := by
        obtain stays | ⟨amqp, closes, -⟩ := acked.consumer
        · exact stays
        · rw [closes, ackList_closed k breaks c amqp] at kept
          simp [Consumer.close, amqp] at kept
      simp only [stays, about_append] at kept ⊢
      by_cases same : i = j
      · subst same
        rw [ack_own k breaks c fits stands stays]
        obtain ⟨same, quiet⟩ := ackList_untouched k breaks c i mlist
          (c.ack k breaks i messages).messages (.inr (by simp [Consumer.named, gone]))
        rw [same, quiet]
        exact ⟨gone, by simp [about]⟩
      · obtain ⟨same', quiet⟩ := acked.others i same
        rw [quiet, List.nil_append]
        refine ih ((List.mem_cons.mp onList).resolve_left same) (by rw [same']; exact fits) ?_ kept
        intro l found ack_id'' marked' broker'
        by_cases there : l = j
        · rw [there, gone] at marked'
          cases marked'
        · rw [(acked.others l there).1] at marked' ⊢
          exact later l found ack_id'' marked' broker'

end Turn

section Call
variable (breaks : Nat → Nat → Bool) (mlist : List Nat)

/-- No message meets a consumer that cannot read it, from the `k`-th consumer on. -/
def Readable (k : Nat) (consumers : List (Option Consumer)) (messages : Messages) : Prop :=
  ∀ i ∈ mlist, ∀ ack_id, (messages i).ack_id = some ack_id → ∀ j,
    (∀ j' < j, ∀ c, consumers[j']? = some (some c) → c.broker = some ack_id.broker →
      ∃ i ∈ mlist, breaks (k + j') i = true) →
    consumers[j]? ≠ some none ∧
      ∀ c, consumers[j]? = some (some c) → c.broker = some ack_id.broker →
        Reads c (messages i) ack_id

variable {breaks mlist} {k : Nat} {consumers : List (Option Consumer)} {messages : Messages}

/-- Where there is no consumer, no message is left to be read. -/
theorem Readable.missing (readable : Readable breaks mlist k (none :: consumers) messages) :
    (mlist.any fun i => (messages i).ack_id.isSome) = false := by
  rw [List.any_eq_false]
  intro i found marked
  obtain ⟨ack_id, marked⟩ := Option.isSome_iff_exists.mp marked
  exact (readable i found ack_id marked 0 fun j' early => absurd early (Nat.not_lt_zero j')).1 rfl

theorem Readable.tail_missing (readable : Readable breaks mlist k (none :: consumers) messages) :
    Readable breaks mlist (k + 1) consumers messages := by
  intro i found ack_id marked
  have none := List.any_eq_false.mp readable.missing i found
  rw [marked] at none
  exact absurd rfl none

theorem Readable.head {c : Consumer}
    (readable : Readable breaks mlist k (some c :: consumers) messages) :
    ∀ i ∈ mlist, ∀ ack_id, (messages i).ack_id = some ack_id → c.broker = some ack_id.broker →
      Reads c (messages i) ack_id := by
  intro i found ack_id marked broker
  exact (readable i found ack_id marked 0
    fun j' early => absurd early (Nat.not_lt_zero j')).2 c rfl broker

theorem Readable.tail {c : Consumer}
    (readable : Readable breaks mlist k (some c :: consumers) messages) :
    Readable breaks mlist (k + 1) consumers (ackList k (breaks k) c mlist messages).messages := by
  obtain ⟨-, left, consumer⟩ := ackList_taken k (breaks k) c mlist messages readable.head
  intro i found ack_id marked j offered
  have same : (ackList k (breaks k) c mlist messages).messages i = messages i := by
    refine (left i).resolve_right fun gone => ?_
    rw [gone] at marked
    cases marked
  have marked' := marked
  rw [same] at marked' ⊢
  refine readable i found ack_id marked' (j + 1) fun j' early c' here broker => ?_
  cases j' with
  | zero =>
    obtain rfl : c = c' := Option.some.inj (Option.some.inj here)
    obtain ⟨-, unnamed⟩ | ⟨-, -, broken⟩ := consumer
    · have named := (named_iff c _).mpr ⟨ack_id, marked, broker⟩
      rw [unnamed i found] at named
      cases named
    · exact broken
  | succ j' =>
    have broken := offered j' (by omega) c' here broker
    rwa [Nat.add_right_comm, Nat.add_assoc] at broken

theorem ackConsumers_missing (readable : Readable breaks mlist k (none :: consumers) messages) :
    ackConsumers breaks mlist k (none :: consumers) messages =
      { ackConsumers breaks mlist (k + 1) consumers messages with
        consumer := none :: (ackConsumers breaks mlist (k + 1) consumers messages).consumer } := by
  simp [ackConsumers, readable.missing]

theorem ackConsumers_cons {c : Consumer}
    (readable : Readable breaks mlist k (some c :: consumers) messages) :
    ackConsumers breaks mlist k (some c :: consumers) messages =
      { ackConsumers breaks mlist (k + 1) consumers
          (ackList k (breaks k) c mlist messages).messages with
        consumer := some (ackList k (breaks k) c mlist messages).consumer ::
          (ackConsumers breaks mlist (k + 1) consumers
            (ackList k (breaks k) c mlist messages).messages).consumer
        log := (ackList k (breaks k) c mlist messages).log ++
          (ackConsumers breaks mlist (k + 1) consumers
            (ackList k (breaks k) c mlist messages).messages).log } := by
  have sound := (ackList_taken k (breaks k) c mlist messages readable.head).sound
  simp [ackConsumers, sound]

/-- A consumer after the call: as it was, or closed. -/
def Kept : Option Consumer → Option Consumer → Prop
  | none, after => after = none
  | some c, after => after = some c ∨ c.kind = .amqp ∧ after = some c.close

theorem ackConsumers_consumers (readable : Readable breaks mlist k consumers messages) (j : Nat) :
    Option.Rel Kept consumers[j]? (ackConsumers breaks mlist k consumers messages).consumer[j]? := by
  induction consumers generalizing k messages j with
  | nil => exact .none
  | cons entry consumers ih =>
    cases entry with
    | none =>
      rw [ackConsumers_missing readable]
      cases j with
      | zero => exact .some rfl
      | succ j => exact ih readable.tail_missing j
    | some c =>
      rw [ackConsumers_cons readable]
      cases j with
      | zero =>
        refine .some ?_
        obtain ⟨stays, -⟩ | ⟨amqp, closes, -⟩ :=
          (ackList_taken k (breaks k) c mlist messages readable.head).consumer
        · exact .inl (congrArg some stays)
        · exact .inr ⟨amqp, congrArg some closes⟩
      | succ j => exact ih readable.tail j

/-- A message that is not on the list, or was acknowledged before, is left alone. -/
theorem ackConsumers_untouched (readable : Readable breaks mlist k consumers messages) {i : Nat}
    (apart : i ∉ mlist ∨ (messages i).ack_id = none) :
    (ackConsumers breaks mlist k consumers messages).messages i = messages i ∧
      about i (ackConsumers breaks mlist k consumers messages).log = [] := by
  induction consumers generalizing k messages with
  | nil => exact ⟨rfl, rfl⟩
  | cons entry consumers ih =>
    cases entry with
    | none =>
      rw [ackConsumers_missing readable]
      exact ih readable.tail_missing apart
    | some c =>
      obtain ⟨same, quiet⟩ := ackList_untouched k (breaks k) c i mlist messages
        (apart.imp_right fun gone => by simp [Consumer.named, gone])
      obtain ⟨same', quiet'⟩ := ih readable.tail (by rw [same]; exact apart)
      rw [ackConsumers_cons readable]
      simp only [about_append, quiet, quiet', same', same, List.append_nil, and_self]

/-- A message whose consumer is the first with its broker and keeps the connection it came
over is acknowledged there, and nowhere else. -/
theorem ackConsumers_own (readable : Readable breaks mlist k consumers messages) {i j : Nat}
    (onList : i ∈ mlist) {c c' : Consumer} (here : consumers[j]? = some (some c)) {ack_id : AckId}
    {connection : Nat} (fits : Fits c (messages i) ack_id connection)
    (stands : c.connection_id = some connection)
    (first : ∀ j' < j, ∀ c', consumers[j']? = some (some c') → c'.broker ≠ some ack_id.broker)
    (after : (ackConsumers breaks mlist k consumers messages).consumer[j]? = some (some c'))
    (kept : c'.connection_id = some connection) :
    ((ackConsumers breaks mlist k consumers messages).messages i).ack_id = none ∧
      about i (ackConsumers breaks mlist k consumers messages).log =
        [⟨k + j, some connection, i, ack_id.delivery_tag⟩] := by
  induction consumers generalizing k messages j with
  | nil => cases here
  | cons entry consumers ih =>
    cases entry with
    | none =>
      have marked := List.any_eq_false.mp readable.missing i onList
      rw [fits.marked] at marked
      exact absurd rfl marked
    | some d =>
      have call := ackConsumers_cons readable
      rw [call] at after ⊢
      simp only [about_append]
      cases j with
      | zero =>
        obtain rfl : d = c := Option.some.inj (Option.some.inj here)
        have final := Option.some.inj (Option.some.inj after)
        obtain ⟨gone, sent⟩ := ackList_own k (breaks k) d onList fits stands readable.head
          (by rw [final]; exact kept)
        obtain ⟨same, quiet⟩ := ackConsumers_untouched readable.tail (.inr gone)
        rw [sent, quiet, same]
        exact ⟨gone, by simp⟩
      | succ j =>
        have unnamed : d.named (messages i) = false := by
          rw [← Bool.not_eq_true, named_iff]
          intro named
          obtain ⟨ack_id', marked, broker⟩ := named
          obtain rfl : ack_id = ack_id' := Option.some.inj (fits.marked.symm.trans marked)
          exact first 0 (Nat.succ_pos j) d rfl broker
        obtain ⟨same, quiet⟩ := ackList_untouched k (breaks k) d i mlist messages (.inr unnamed)
        obtain ⟨gone, sent⟩ := ih readable.tail here (by rw [same]; exact fits)
          (fun j' early c' here' => first (j' + 1) (by omega) c' here') after
        rw [quiet, List.nil_append, sent]
        refine ⟨gone, ?_⟩
        rw [Nat.add_right_comm, Nat.add_assoc]

end Call

section Run

theorem stands_iff (consumers : List (Option Consumer)) (origin : Origin) :
    stands consumers origin = true ↔ ∃ c, consumers[origin.consumer]? = some (some c) ∧
      c.connection_id = some origin.connection := by
  unfold stands
  cases here : consumers[origin.consumer]? with
  | none => simp
  | some entry => cases entry <;> simp

/-- What holds in every state of a run. -/
structure Sound (s : State) : Prop where
  given : ∀ i < s.next, (s.origin i).connection < s.connections
  later : ∀ i, s.next ≤ i → i ∉ s.reached ∧ (s.messages i).ack_id = none ∧ about i s.log = []
  wired : ∀ (k : Nat) (c : Consumer), s.consumers[k]? = some (some c) → c.connected = true →
    c.channel.isSome
  reached : ∀ i ∈ s.reached, (s.messages i).ack_id = none ∧
    about i s.log = [(s.origin i).ack i]
  waiting : ∀ i < s.next, i ∉ s.reached → ∀ c,
    s.consumers[(s.origin i).consumer]? = some (some c) →
    c.connection_id = some (s.origin i).connection → about i s.log = [] ∧
      ∃ ack_id, ack_id.delivery_tag = (s.origin i).tag ∧
        Fits c (s.messages i) ack_id (s.origin i).connection

theorem Sound.routed {s : State} (sound : Sound s) : Routed s where
  once i found := (sound.reached i found).2
  unasked i early unreached stands := by
    obtain ⟨c, here, kept⟩ := (stands_iff _ _).mp stands
    exact (sound.waiting i early unreached c here kept).1

theorem initial_sound (kinds : List (Option Kind)) : Sound (initial kinds) where
  given i early := absurd early (Nat.not_lt_zero i)
  later i _ := ⟨List.not_mem_nil, rfl, rfl⟩
  wired k c here connected := by
    simp only [initial, List.getElem?_map, Option.map_eq_some_iff] at here
    obtain ⟨-, -, kind, -, new⟩ := here
    rw [← new] at connected
    cases connected
  reached i found := by cases found
  waiting i early := absurd early (Nat.not_lt_zero i)

/-- The consumer at one place is replaced by one that has a new connection, or none, or
differs from the one before only in being connected. -/
theorem sound_set {s : State} (sound : Sound s) {k : Nat} {before : Option Consumer}
    (here : s.consumers[k]? = some before) (c : Consumer) {connections : Nat}
    (grows : s.connections ≤ connections) (wired : c.connected = true → c.channel.isSome)
    (same : ∀ n < s.connections, c.connection_id = some n → ∃ b, before = some b ∧
      b.connection_id = some n ∧ b.kind = c.kind ∧ b.broker = c.broker ∧ b.channel = c.channel) :
    Sound { s with consumers := s.consumers.set k (some c), connections := connections } where
  given i early := Nat.lt_of_lt_of_le (sound.given i early) grows
  later := sound.later
  wired j c' here' connected := by
    rw [List.getElem?_set] at here'
    split at here'
    · split at here'
      · obtain rfl := Option.some.inj (Option.some.inj here')
        exact wired connected
      · cases here'
    · exact sound.wired j c' here' connected
  reached := sound.reached
  waiting i early unreached c' here' kept := by
    rw [List.getElem?_set] at here'
    split at here'
    · next there =>
      split at here'
      · obtain rfl := Option.some.inj (Option.some.inj here')
        obtain ⟨b, rfl, kept', kind, broker, channel⟩ := same _ (sound.given i early) kept
        obtain ⟨quiet, ack_id, tag, fits⟩ :=
          sound.waiting i early unreached b (by rw [← there]; exact here) kept'
        refine ⟨quiet, ack_id, tag, fits.marked, broker ▸ fits.broker, channel ▸ fits.channel, ?_, ?_⟩
        · rw [← kind, ← channel]
          exact fits.amqp
        · rw [← kind]
          exact fits.mqtt
      · cases here'
    · exact sound.waiting i early unreached c' here' kept

theorem sound_receive {s : State} (sound : Sound s) {k : Nat} {c : Consumer}
    (here : s.consumers[k]? = some (some c)) (connected : c.connected = true) {broker : Str}
    (named : c.broker = some broker) {connection tag qos : Nat} (given : connection < s.connections)
    (carries : c.kind = .amqp → c.connection_id = some connection) :
    Sound { s with
      messages := Function.update s.messages s.next (c.receive broker tag qos)
      origin := Function.update s.origin s.next ⟨k, connection, tag⟩
      next := s.next + 1 } where
  given i early := by
    by_cases new : i = s.next
    · simpa [new] using given
    · simpa [new] using sound.given i (by simp only at early; omega)
  later i late := by
    have old : i ≠ s.next := by simp only at late; omega
    simpa [old] using sound.later i (by simp only at late; omega)
  wired := sound.wired
  reached i found := by
    have old : i ≠ s.next := by
      intro new
      exact (sound.later i (Nat.le_of_eq new.symm)).1 found
    simpa [old] using sound.reached i found
  waiting i early unreached c' here' kept := by
    by_cases new : i = s.next
    · subst new
      simp only [Function.update_self] at here' kept ⊢
      obtain rfl : c = c' := by
        rw [here] at here'
        exact Option.some.inj (Option.some.inj here')
      have channel := sound.wired k c here connected
      refine ⟨(sound.later _ (Nat.le_refl _)).2.2, ?_⟩
      unfold Consumer.receive
      cases kind : c.kind with
      | amqp =>
        exact ⟨_, rfl, rfl, named, channel, fun _ => ⟨carries kind, rfl⟩, fun mqtt => by simp [kind] at mqtt⟩
      | mqtt =>
        exact ⟨_, rfl, rfl, named, channel, fun amqp => by simp [kind] at amqp, fun _ => rfl⟩
    · simp only [Function.update_of_ne new] at here' kept ⊢
      exact sound.waiting i (by simp only at early; omega) unreached c' here' kept

/-- A call of `ack` under the condition. -/
theorem sound_acked {s : State} (sound : Sound s) {mlist : List Nat} {breaks : Nat → Nat → Bool}
    (apart : Apart s mlist breaks) : Sound (s.acked mlist breaks) := by
  have readable : Readable breaks mlist 0 s.consumers s.messages := by
    intro i found ack_id marked j offered
    refine apart.readable i found ack_id marked j fun j' early c here broker => ?_
    simpa using offered j' early c here broker
  have consumers := ackConsumers_consumers readable
  have untouched {i : Nat} := ackConsumers_untouched (i := i) readable
  have before (k : Nat) (c : Consumer)
      (here : (s.acked mlist breaks).consumers[k]? = some (some c)) :
      ∃ b, s.consumers[k]? = some (some b) ∧ (c = b ∨ b.kind = .amqp ∧ c = b.close) := by
    have rel := consumers k
    simp only [State.acked, Acknowledge.ack] at here
    rw [here] at rel
    generalize s.consumers[k]? = was at rel ⊢
    cases rel with
    | some kept =>
      next entry =>
      cases entry with
      | none => cases kept
      | some b =>
        obtain stays | ⟨amqp, closes⟩ := kept
        · exact ⟨b, rfl, .inl (Option.some.inj stays)⟩
        · exact ⟨b, rfl, .inr ⟨amqp, Option.some.inj closes⟩⟩
  -- a consumer that has a connection after the call is the one before it
  have same (k : Nat) (c : Consumer) (n : Nat)
      (here : (s.acked mlist breaks).consumers[k]? = some (some c))
      (kept : c.connection_id = some n) : s.consumers[k]? = some (some c) := by
    obtain ⟨b, was, rfl | ⟨amqp, rfl⟩⟩ := before k c here
    · exact was
    · simp [Consumer.close, amqp] at kept
  have reached (i : Nat) : i ∈ (s.acked mlist breaks).reached ↔ i ∈ s.reached ∨
      i ∈ mlist ∧ i < s.next ∧ stands s.consumers (s.origin i) = true ∧
        stands (s.acked mlist breaks).consumers (s.origin i) = true := by
    simp [State.acked, and_assoc]
  have log (i : Nat) : about i (s.acked mlist breaks).log =
      about i s.log ++ about i (ackConsumers breaks mlist 0 s.consumers s.messages).log :=
    about_append i _ _
  refine ⟨sound.given, fun i late => ?_, fun k c here connected => ?_, fun i found => ?_,
    fun i early unreached c here kept => ?_⟩
  · obtain ⟨unreached, gone, quiet⟩ := sound.later i late
    obtain ⟨stays, silent⟩ := untouched (i := i) (.inr gone)
    refine ⟨fun found => ?_, ?_, ?_⟩
    · obtain found | ⟨-, early, -⟩ := (reached i).mp found
      · exact unreached found
      · exact absurd early (Nat.not_lt.mpr late)
    · exact (congrArg Received.ack_id stays).trans gone
    · rw [log, quiet, silent, List.append_nil]
  · obtain ⟨b, was, rfl | ⟨amqp, rfl⟩⟩ := before k c here
    · exact sound.wired k c was connected
    · simp [Consumer.close, amqp] at connected
  · rw [log]
    by_cases was : i ∈ s.reached
    · obtain ⟨gone, sent⟩ := sound.reached i was
      obtain ⟨stays, silent⟩ := untouched (i := i) (.inr gone)
      refine ⟨(congrArg Received.ack_id stays).trans gone, ?_⟩
      rw [sent, silent, List.append_nil]
      rfl
    · obtain ⟨onList, early, stood, stand⟩ := ((reached i).mp found).resolve_left was
      obtain ⟨c, here, kept⟩ := (stands_iff _ _).mp stand
      have here' := same _ c _ here kept
      obtain ⟨quiet, ack_id, tag, fits⟩ := sound.waiting i early was c here' kept
      obtain ⟨gone, sent⟩ := ackConsumers_own readable onList here' fits kept
        (apart.ownFirst i onList ack_id fits.marked stood) here kept
      refine ⟨gone, ?_⟩
      rw [quiet, sent, tag, Nat.zero_add]
      rfl
  · have was := same _ c _ here kept
    have off : i ∉ mlist := by
      intro onList
      exact unreached ((reached i).mpr (.inr ⟨onList, early, (stands_iff _ _).mpr ⟨c, was, kept⟩,
        (stands_iff _ _).mpr ⟨c, here, kept⟩⟩))
    obtain ⟨quiet, ack_id, tag, fits⟩ :=
      sound.waiting i early (fun found => unreached ((reached i).mpr (.inl found))) c was kept
    obtain ⟨stays, silent⟩ := untouched (i := i) (.inl off)
    refine ⟨by rw [log, quiet, silent, List.append_nil], ack_id, tag, ?_⟩
    have left : (s.acked mlist breaks).messages i = s.messages i := stays
    rw [left]
    exact fits

theorem step_sound {s s' : State} (sound : Sound s) (step : Step Apart s s') : Sound s' := by
  cases step with
  | create k kind missing =>
    exact sound_set sound missing (.new kind) (Nat.le_refl _) (fun connected => by cases connected)
      fun n _ kept => by cases kept
  | connect k c here broker channel =>
    refine sound_set sound here _ (Nat.le_succ _) (fun _ => rfl) fun n early kept => ?_
    obtain rfl : s.connections = n := Option.some.inj kept
    exact absurd early (Nat.lt_irrefl _)
  | attempt k c here broker =>
    refine sound_set sound here _ (Nat.le_succ _) (fun connected => by cases connected)
      fun n early kept => ?_
    obtain rfl : s.connections = n := Option.some.inj kept
    exact absurd early (Nat.lt_irrefl _)
  | close k c here =>
    refine sound_set sound here c.close (Nat.le_refl _) (fun connected => ?_) fun n _ kept => ?_
    · unfold Consumer.close at connected
      cases kind : c.kind <;> simp [kind] at connected
    · unfold Consumer.close at kept ⊢
      cases kind : c.kind with
      | amqp => simp [kind] at kept
      | mqtt =>
        simp only [kind] at kept ⊢
        exact ⟨c, rfl, kept, kind, rfl, rfl⟩
  | receive k c here connected broker named connection tag qos given carries =>
    exact sound_receive sound here connected named given carries
  | ack mlist breaks apart => exact sound_acked sound apart

end Run

section Runs

/-- A consumer that received one message. -/
def received : State where
  consumers := [some ⟨.amqp, true, some "h/v".toList, some 0, some 2⟩]
  messages := Function.update (fun _ => ⟨none, none⟩) 0
    ⟨some ⟨7, "h/v".toList, some 2, some 0⟩, none⟩
  next := 1
  connections := 1
  origin := Function.update (fun _ => ⟨0, 0, 0⟩) 0 ⟨0, 0, 7⟩
  reached := []
  log := []

theorem received_reachable (ok : State → List Nat → (Nat → Nat → Bool) → Prop) :
    Reachable ok received :=
  ((Reachable.initial [some .amqp]).step
    (.connect _ 0 (.new .amqp) rfl "h/v".toList 2)).step
    (.receive _ 0 ⟨.amqp, true, some "h/v".toList, some 0, some 2⟩ rfl rfl "h/v".toList rfl
      0 7 0 Nat.one_pos fun _ => rfl)

theorem received_apart : Apart received [0] fun _ _ => false where
  ownFirst i found ack_id marked stood j early := by
    obtain rfl := List.mem_singleton.mp found
    exact absurd early (Nat.not_lt_zero j)
  readable i found ack_id marked j offered := by
    obtain rfl := List.mem_singleton.mp found
    obtain rfl : (⟨7, "h/v".toList, some 2, some 0⟩ : AckId) = ack_id := Option.some.inj marked
    cases j with
    | zero =>
      refine ⟨by simp [received], fun c here _ => ?_⟩
      obtain rfl := Option.some.inj (Option.some.inj here)
      exact ⟨rfl, fun _ => rfl, fun mqtt => by cases mqtt⟩
    | succ j => exact ⟨by simp [received], fun c here => by simp [received] at here⟩

end Runs

end Sarracenia.Guarantees.Acknowledge
