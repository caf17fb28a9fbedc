import Sarracenia.Guarantees.Amq1.Window
import Mathlib.Tactic.Tauto

/-!
# What is accepted over AMQP 1.0

* a delivery of the current connection is at exactly one stage (`one_stage`);
* one is accepted once at most, and if the flow acknowledged its message or could not read it
  (`accepted_asked`).

Both are for runs in which no message is acknowledged over another connection than its own: tags
begin again with each connection, and a tag says nothing of its connection.
-/
namespace Sarracenia.Guarantees.Amq1
open Library Source.Amq1

section Stages

/-- Where a delivery is: its raw message is queued, its message is with the flow, its tag is with
the reactor, or its settlement was done or raised. -/
inductive Stage where
  | queued | held | asked | accepted | raised
  deriving DecidableEq, Repr

def Stands (s : State) (n : Nat) : Stage → Prop
  | .queued => (n, (s.origin n).2) ∈ s._raw_msg_q
  | .held => s.ack_id n ≠ none
  | .asked => (s.origin n).2 ∈ s._ack_q
  | .accepted => n ∈ s.accepted
  | .raised => n ∈ s.raised.map (·.number)

/-- The flow acknowledged the message, or it could not be read. -/
def Asked (taken : List Action) (s : State) (n : Nat) : Prop := .ack n ∈ taken ∨ n ∈ s.undecoded

/-- What holds of the deliveries of all connections. -/
structure Placed (taken : List Action) (s : State) : Prop where
  before : ∀ n < s.sent, (s.origin n).1 ≤ s.connections
  distinct : ∀ n < s.sent, ∀ m < s.sent, s.origin n = s.origin m → n = m
  held : ∀ n tag, s.ack_id n = some tag → n < s.sent ∧ tag = (s.origin n).2
  once : s.accepted.Nodup
  accepted : ∀ n ∈ s.accepted, n < s.sent ∧ Asked taken s n

/-- What holds of those of the current connection, of which these are pending. -/
structure Live (pending : Table Nat Delivery) (counter : Nat) (taken : List Action) (s : State) :
    Prop where
  counted : ∀ n < s.sent, (s.origin n).1 = s.connections → (s.origin n).2 < counter
  below : ∀ tag d, pending.get tag = some d → tag < counter
  own : ∀ tag d, pending.get tag = some d →
    d.number < s.sent ∧ s.origin d.number = (s.connections, tag)
  unsettled : ∀ tag d, pending.get tag = some d →
    d.number ∉ s.accepted ∧ d.number ∉ s.raised.map (·.number)
  queued : ∀ n tag, (n, tag) ∈ s._raw_msg_q →
    (∃ d, pending.get tag = some d ∧ d.number = n) ∧ s.ack_id n = none ∧ tag ∉ s._ack_q
  held : ∀ n tag, s.ack_id n = some tag → (s.origin n).1 = s.connections →
    (∃ d, pending.get tag = some d ∧ d.number = n) ∧ tag ∉ s._ack_q
  asked : ∀ tag ∈ s._ack_q, ∃ d, pending.get tag = some d ∧ Asked taken s d.number
  queue_once : s._raw_msg_q.Nodup
  asked_once : s._ack_q.Nodup
  covered : ∀ tag d, pending.get tag = some d →
    (d.number, tag) ∈ s._raw_msg_q ∨ s.ack_id d.number = some tag ∨ tag ∈ s._ack_q
  settled : ∀ n < s.sent, (s.origin n).1 = s.connections →
    (∃ d, pending.get (s.origin n).2 = some d ∧ d.number = n) ∨ n ∈ s.accepted ∨
      n ∈ s.raised.map (·.number)
  raised : ∀ n ∈ s.raised.map (·.number), n < s.sent ∧ n ∉ s.accepted

/-- Of a client both hold. -/
structure Staged (taken : List Action) (s : State) : Prop where
  placed : Placed taken s
  live : ∀ r, s.client = some r → Live r.pending_deliveries r.ack_id_counter taken s

variable {prefetch : Nat} {s : State} {r : Amqp1Receiver} {taken : List Action}

theorem Asked.later {n : Nat} (asked : Asked taken s n) (more : List Action) :
    Asked (taken ++ more) s n :=
  asked.imp_left (List.mem_append_left _)

theorem Placed.later (placed : Placed taken s) (more : List Action) : Placed (taken ++ more) s :=
  ⟨placed.before, placed.distinct, placed.held, placed.once, fun n mem =>
    ⟨(placed.accepted n mem).1, (placed.accepted n mem).2.later more⟩⟩

theorem Live.later {pending : Table Nat Delivery} {counter : Nat}
    (live : Live pending counter taken s)
    (more : List Action) : Live pending counter (taken ++ more) s := by
  refine { live with asked := ?_ }
  intro tag mem
  obtain ⟨d, there, asked⟩ := live.asked tag mem
  exact ⟨d, there, asked.later more⟩

theorem Staged.connect (staged : Staged taken s) (fine : Bool) : Staged taken (s.connect fine) := by
  have placed := staged.placed
  refine ⟨⟨fun n sent => Nat.le_succ_of_le (placed.before n sent), placed.distinct, placed.held,
    placed.once,
    placed.accepted⟩, fun r made => ?_⟩
  rw [connect_client made]
  have early (n : Nat) (sent : n < s.sent) : (s.origin n).1 ≠ s.connections + 1 := by
    have := placed.before n sent
    omega
  have empty (tag : Nat) (d : Delivery) : (Table.empty : Table Nat Delivery).get tag ≠ some d := by
    simp [Table.get, Table.empty]
  constructor
  · exact fun n sent current => absurd current (early n sent)
  · exact fun tag d there => absurd there (empty tag d)
  · exact fun tag d there => absurd there (empty tag d)
  · exact fun tag d there => absurd there (empty tag d)
  · exact fun n tag mem => absurd mem List.not_mem_nil
  · exact fun n tag here current => absurd current (early n (placed.held n tag here).1)
  · exact fun tag mem => absurd mem List.not_mem_nil
  · exact List.nodup_nil
  · exact List.nodup_nil
  · exact fun tag d there => absurd there (empty tag d)
  · exact fun n sent current => absurd current (early n sent)
  · exact fun n mem => absurd mem List.not_mem_nil

/-- The next delivery has the next tag of the connection, and is the last in the queue. -/
theorem Staged.on_message (staged : Staged taken s) (here : s.client = some r) (receiver : Nat) :
    Staged taken (s.on_message r receiver) := by
  have placed := staged.placed
  have live := staged.live r here
  have older {n : Nat} (sent : n < s.sent) : (s.on_message r receiver).origin n = s.origin n :=
    Function.update_of_ne (Nat.ne_of_lt sent) _ _
  have newest : (s.on_message r receiver).origin s.sent = (s.connections, r.ack_id_counter) :=
    Function.update_self ..
  have older_or {n : Nat} (sent : n < (s.on_message r receiver).sent) : n < s.sent ∨ n = s.sent :=
    Nat.lt_succ_iff_lt_or_eq.mp sent
  have free : r.pending_deliveries.get r.ack_id_counter = none := by
    cases found : r.pending_deliveries.get r.ack_id_counter with
    | none => rfl
    | some d => exact absurd (live.below _ d found) (Nat.lt_irrefl _)
  have unheld : s.ack_id s.sent = none := by
    cases found : s.ack_id s.sent with
    | none => rfl
    | some tag => exact absurd (placed.held _ tag found).1 (Nat.lt_irrefl _)
  have unused (n : Nat) (sent : n < s.sent) : s.origin n ≠ (s.connections, r.ack_id_counter) := by
    intro same
    have counted := live.counted n sent (by rw [same])
    rw [same] at counted
    exact Nat.lt_irrefl _ counted
  have get (tag : Nat) (d : Delivery) :
      (r.on_message ⟨s.sent, receiver⟩).pending_deliveries.get tag = some d ↔
        tag = r.ack_id_counter ∧ d = ⟨s.sent, receiver⟩ ∨
          r.pending_deliveries.get tag = some d := by
    rw [Amqp1Receiver.on_message, Table.get_set]
    split
    · next same =>
      subst same
      simp [free, eq_comm]
    · next other => simp [other]
  refine ⟨⟨?_, ?_, ?_, placed.once, ?_⟩, ?_⟩
  · intro n sent
    rcases older_or sent with sent | rfl
    · rw [older sent]
      exact placed.before n sent
    · rw [newest]
      exact Nat.le_refl _
  · intro n sent m sent' same
    rcases older_or sent with sent | rfl
    · rcases older_or sent' with sent' | rfl
      · rw [older sent, older sent'] at same
        exact placed.distinct n sent m sent' same
      · rw [older sent, newest] at same
        exact absurd same (unused n sent)
    · rcases older_or sent' with sent' | rfl
      · rw [older sent', newest] at same
        exact absurd same.symm (unused m sent')
      · rfl
  · intro n tag held
    have before := placed.held n tag held
    rw [older before.1]
    exact ⟨Nat.lt_succ_of_lt before.1, before.2⟩
  · intro n mem
    have before := placed.accepted n mem
    exact ⟨Nat.lt_succ_of_lt before.1, before.2⟩
  · intro r' made
    obtain rfl := Option.some.inj made
    constructor
    · intro n sent current
      rcases older_or sent with sent | rfl
      · rw [older sent] at current ⊢
        exact Nat.lt_succ_of_lt (live.counted n sent current)
      · rw [newest]
        exact Nat.lt_succ_self _
    · intro tag d there
      rcases (get tag d).mp there with ⟨rfl, -⟩ | there
      · exact Nat.lt_succ_self _
      · exact Nat.lt_succ_of_lt (live.below tag d there)
    · intro tag d there
      rcases (get tag d).mp there with ⟨rfl, rfl⟩ | there
      · exact ⟨Nat.lt_succ_self _, newest⟩
      · have before := live.own tag d there
        rw [older before.1]
        exact ⟨Nat.lt_succ_of_lt before.1, before.2⟩
    · intro tag d there
      rcases (get tag d).mp there with ⟨rfl, rfl⟩ | there
      · exact ⟨fun mem => Nat.lt_irrefl _ (placed.accepted _ mem).1,
          fun mem => Nat.lt_irrefl _ (live.raised _ mem).1⟩
      · exact live.unsettled tag d there
    · intro n tag mem
      rcases List.mem_append.mp mem with mem | mem
      · obtain ⟨⟨d, there, number⟩, unheld, unasked⟩ := live.queued n tag mem
        exact ⟨⟨d, (get tag d).mpr (.inr there), number⟩, unheld, unasked⟩
      · cases List.mem_singleton.mp mem
        refine ⟨⟨_, (get _ _).mpr (.inl ⟨rfl, rfl⟩), rfl⟩, unheld, fun asked => ?_⟩
        obtain ⟨d, there, -⟩ := live.asked _ asked
        cases free.symm.trans there
    · intro n tag held current
      rw [older (placed.held n tag held).1] at current
      obtain ⟨⟨d, there, number⟩, unasked⟩ := live.held n tag held current
      exact ⟨⟨d, (get tag d).mpr (.inr there), number⟩, unasked⟩
    · intro tag asked
      obtain ⟨d, there, for_⟩ := live.asked tag asked
      exact ⟨d, (get tag d).mpr (.inr there), for_⟩
    · refine List.nodup_append.mpr ⟨live.queue_once, List.nodup_singleton _, ?_⟩
      rintro ⟨n, tag⟩ mem _ last rfl
      cases List.mem_singleton.mp last
      obtain ⟨⟨d, there, -⟩, -, -⟩ := live.queued _ _ mem
      cases free.symm.trans there
    · exact live.asked_once
    · intro tag d there
      rcases (get tag d).mp there with ⟨rfl, rfl⟩ | there
      · exact .inl (List.mem_append_right _ List.mem_cons_self)
      · exact (live.covered tag d there).imp_left (List.mem_append_left _)
    · intro n sent current
      rcases older_or sent with sent | rfl
      · rw [older sent] at current ⊢
        refine (live.settled n sent current).imp_left fun settled => ?_
        obtain ⟨d, there, number⟩ := settled
        exact ⟨d, (get _ _).mpr (.inr there), number⟩
      · rw [newest]
        exact .inl ⟨⟨s.sent, receiver⟩, (get _ _).mpr (.inl ⟨rfl, rfl⟩), rfl⟩
    · intro n mem
      have before := live.raised n mem
      exact ⟨Nat.lt_succ_of_lt before.1, before.2⟩

/-- The first tag is taken off, and its delivery is accepted or its settlement raises. -/
theorem Staged.popped (staged : Staged taken s) (here : s.client = some r) {tag : Nat}
    {queue : List Nat}
    (first : s._ack_q = tag :: queue) {d : Delivery} (there : r.pending_deliveries.get tag = some d)
    (r' : Amqp1Receiver) (pending : r'.pending_deliveries = r.pending_deliveries.erase tag)
    (counter : r'.ack_id_counter = r.ack_id_counter) {accepted : List Nat} {raised : List Delivery}
    (outcome : accepted = s.accepted ++ [d.number] ∧ raised = s.raised ∨
      accepted = s.accepted ∧ raised = s.raised ++ [d]) :
    Staged taken { s with client := some r', _ack_q := queue, accepted, raised } := by
  have placed := staged.placed
  have live := staged.live r here
  have asked : Asked taken s d.number := by
    obtain ⟨e, found, asked⟩ := live.asked tag (first ▸ List.mem_cons_self)
    cases there.symm.trans found
    exact asked
  have unsettled := live.unsettled tag d there
  have own := live.own tag d there
  have get (t : Nat) (e : Delivery) : r'.pending_deliveries.get t = some e ↔
      t ≠ tag ∧ r.pending_deliveries.get t = some e := by
    rw [pending, Table.get_erase]
    split <;> simp_all
  have other {t : Nat} {e : Delivery} (found : r.pending_deliveries.get t = some e) 
      (different : t ≠ tag) :
      e.number ≠ d.number := by
    intro same
    have found := (live.own t e found).2
    rw [same, own.2] at found
    exact different (congrArg Prod.snd found).symm
  have asked_once := live.asked_once
  rw [first, List.nodup_cons] at asked_once
  have accepted_or (n : Nat) (mem : n ∈ accepted) : n ∈ s.accepted ∨ n = d.number := by
    rcases outcome with ⟨rfl, -⟩ | ⟨rfl, -⟩
    · simpa using mem
    · exact .inl mem
  have raised_or (n : Nat) (mem : n ∈ raised.map (·.number)) : n ∈ s.raised.map (·.number) ∨
    n = d.number := by
    rcases outcome with ⟨-, rfl⟩ | ⟨-, rfl⟩
    · exact .inl mem
    · simpa using mem
  have done (n : Nat) (was : n ∈ s.accepted ∨ n ∈ s.raised.map (·.number) ∨ n = d.number) :
      n ∈ accepted ∨ n ∈ raised.map (·.number) := by
    rcases outcome with ⟨rfl, rfl⟩ | ⟨rfl, rfl⟩
    · simp only [List.mem_append, List.mem_singleton]
      tauto
    · simp only [List.map_append, List.mem_append, List.map_cons, List.map_nil, List.mem_singleton]
      tauto
  refine ⟨⟨placed.before, placed.distinct, placed.held, ?_, fun n mem => ?_⟩, ?_⟩
  · show accepted.Nodup
    rcases outcome with ⟨rfl, -⟩ | ⟨rfl, -⟩
    · refine List.nodup_append.mpr ⟨placed.once, List.nodup_singleton _, ?_⟩
      rintro n mem _ last rfl
      exact unsettled.1 (List.mem_singleton.mp last ▸ mem)
    · exact placed.once
  · rcases accepted_or n mem with mem | rfl
    · exact placed.accepted n mem
    · exact ⟨own.1, asked⟩
  · intro _ made
    obtain rfl := Option.some.inj made
    constructor
    · rw [counter]
      exact live.counted
    · intro t e found
      rw [counter]
      exact live.below t e ((get t e).mp found).2
    · exact fun t e found => live.own t e ((get t e).mp found).2
    · intro t e found
      obtain ⟨different, found⟩ := (get t e).mp found
      have before := live.unsettled t e found
      exact ⟨fun mem => (accepted_or _ mem).elim before.1 (other found different),
        fun mem => (raised_or _ mem).elim before.2 (other found different)⟩
    · intro n t mem
      obtain ⟨⟨e, found, number⟩, unheld, unasked⟩ := live.queued n t mem
      rw [first, List.mem_cons, not_or] at unasked
      exact ⟨⟨e, (get t e).mpr ⟨unasked.1, found⟩, number⟩, unheld, unasked.2⟩
    · intro n t held current
      obtain ⟨⟨e, found, number⟩, unasked⟩ := live.held n t held current
      rw [first, List.mem_cons, not_or] at unasked
      exact ⟨⟨e, (get t e).mpr ⟨unasked.1, found⟩, number⟩, unasked.2⟩
    · intro t mem
      obtain ⟨e, found, for_⟩ := live.asked t (first ▸ List.mem_cons_of_mem _ mem)
      have different : t ≠ tag := fun same => asked_once.1 (same ▸ mem)
      exact ⟨e, (get t e).mpr ⟨different, found⟩, for_⟩
    · exact live.queue_once
    · exact asked_once.2
    · intro t e found
      obtain ⟨different, found⟩ := (get t e).mp found
      refine (live.covered t e found).imp_right (Or.imp_right fun mem => ?_)
      rw [first] at mem
      exact (List.mem_cons.mp mem).resolve_left different
    · intro n sent current
      show (∃ e, r'.pending_deliveries.get (s.origin n).2 = some e ∧ e.number = n) ∨ n ∈ accepted ∨
        n ∈ raised.map (·.number)
      rcases live.settled n sent current with ⟨e, found, number⟩ | mem | mem
      · by_cases same : (s.origin n).2 = tag
        · rw [same, there] at found
          cases found
          exact .inr (done n (.inr (.inr number.symm)))
        · exact .inl ⟨e, (get _ e).mpr ⟨same, found⟩, number⟩
      · exact .inr (done n (.inl mem))
      · exact .inr (done n (.inr (.inl mem)))
    · intro n mem
      rcases outcome with ⟨rfl, rfl⟩ | ⟨rfl, rfl⟩
      · have before := live.raised n mem
        refine ⟨before.1, fun mem' => ?_⟩
        rcases accepted_or n mem' with mem' | rfl
        · exact before.2 mem'
        · exact unsettled.2 mem
      · rcases raised_or n mem with mem | rfl
        · exact live.raised n mem
        · exact ⟨own.1, unsettled.1⟩

/-- A turn of the reactor's loop. -/
theorem Staged.acked (staged : Staged taken s) (here : s.client = some r) {tag : Nat}
    {queue : List Nat}
    (first : s._ack_q = tag :: queue) (raises : Bool) : Staged taken
      ({ s with client := (r.ack prefetch tag raises).1, _ack_q := queue }.settled
        (r.ack prefetch tag raises).2) := by
  obtain ⟨d, there, -⟩ := (staged.live r here).asked tag (first ▸ List.mem_cons_self)
  have popped := staged.popped here first there
  unfold Amqp1Receiver.ack
  rw [there]
  cases raises with
  | true => exact popped { r with pending_deliveries := _ } rfl rfl (.inr ⟨rfl, rfl⟩)
  | false =>
    simp only [Bool.false_eq_true, if_false]
    split
    · exact popped (Amqp1Receiver.flow { r with pending_deliveries := _ } d.receiver 1) rfl rfl
        (.inl ⟨rfl, rfl⟩)
    · exact popped { r with pending_deliveries := _ } rfl rfl (.inl ⟨rfl, rfl⟩)

/-- A raw message is told by its number. -/
theorem Live.queued_once {pending : Table Nat Delivery} {counter : Nat}
    (live : Live pending counter taken s)
    {n tag tag' : Nat} (mem : (n, tag) ∈ s._raw_msg_q) (mem' : (n, tag') ∈ s._raw_msg_q) :
    tag = tag' := by
  obtain ⟨⟨d, there, number⟩, -, -⟩ := live.queued n tag mem
  obtain ⟨⟨e, found, number'⟩, -, -⟩ := live.queued n tag' mem'
  have own := (live.own tag d there).2
  have own' := (live.own tag' e found).2
  rw [number] at own
  rw [number', own] at own'
  exact congrArg Prod.snd own'

/-- The first raw message is read, and its message is with the flow. -/
theorem Staged.read (staged : Staged taken s) (here : s.client = some r) {n tag : Nat}
    {queue : List (Nat × Nat)}
    (first : s._raw_msg_q = (n, tag) :: queue) :
    Staged taken
      { s with _raw_msg_q := queue, ack_id := Function.update s.ack_id n (some tag) } := by
  have placed := staged.placed
  have live := staged.live r here
  have head : (n, tag) ∈ s._raw_msg_q := first ▸ List.mem_cons_self
  obtain ⟨⟨d, there, rfl⟩, -, unasked⟩ := live.queued n tag head
  have own := live.own tag d there
  have queue_once := live.queue_once
  rw [first, List.nodup_cons] at queue_once
  have held_or {m t : Nat} (held : Function.update s.ack_id d.number (some tag) m = some t) :
      m = d.number ∧ t = tag ∨ m ≠ d.number ∧ s.ack_id m = some t := by
    by_cases same : m = d.number
    · subst same
      rw [Function.update_self] at held
      exact .inl ⟨rfl, (Option.some.inj held).symm⟩
    · rw [Function.update_of_ne same] at held
      exact .inr ⟨same, held⟩
  refine ⟨⟨placed.before, placed.distinct, fun m t held => ?_, placed.once, placed.accepted⟩,
    fun r' made => ?_⟩
  · rcases held_or held with ⟨rfl, rfl⟩ | ⟨-, held⟩
    · exact ⟨own.1, by rw [own.2]⟩
    · exact placed.held m t held
  · cases here.symm.trans made
    refine { live with queued := ?_, held := ?_, queue_once := queue_once.2, covered := ?_ }
    · intro m t mem
      have later : (m, t) ∈ s._raw_msg_q := first ▸ List.mem_cons_of_mem _ mem
      have different : m ≠ d.number := by
        rintro rfl
        cases live.queued_once head later
        exact queue_once.1 mem
      obtain ⟨found, unheld, unasked⟩ := live.queued m t later
      refine ⟨found, ?_, unasked⟩
      show Function.update s.ack_id d.number (some tag) m = none
      rw [Function.update_of_ne different]
      exact unheld
    · intro m t held current
      rcases held_or held with ⟨rfl, rfl⟩ | ⟨-, held⟩
      · exact ⟨⟨d, there, rfl⟩, unasked⟩
      · exact live.held m t held current
    · intro t e found
      show (e.number, t) ∈ queue ∨
        Function.update s.ack_id d.number (some tag) e.number = some t ∨ t ∈ s._ack_q
      by_cases same : e.number = d.number
      · have found := (live.own t e found).2
        rw [same, own.2] at found
        cases found
        exact .inr (.inl (by rw [same, Function.update_self]))
      · rw [Function.update_of_ne same]
        refine (live.covered t e found).imp_left fun mem => ?_
        rw [first] at mem
        exact (List.mem_cons.mp mem).resolve_left fun equal => same (congrArg Prod.fst equal)

/-- What is put on the queue of tags: that of a raw message that cannot be read, or of a message
that is with the flow. -/
theorem Live.ask {pending : Table Nat Delivery} {counter : Nat}
    (live : Live pending counter taken s)
    {d : Delivery} {tag : Nat} (there : pending.get tag = some d) (unasked : tag ∉ s._ack_q)
    {queue : List (Nat × Nat)} {ack_id : Nat → Option Nat} {undecoded : List Nat}
    {taken' : List Action}
    (fewer : queue.Sublist s._raw_msg_q) (gone : (d.number, tag) ∉ queue)
    (unheld : ack_id d.number = none) (others : ∀ m, m ≠ d.number → ack_id m = s.ack_id m)
    (rest : ∀ m t, (m, t) ∈ s._raw_msg_q → (m, t) ∈ queue ∨ m = d.number)
    (later : ∀ m, Asked taken s m → Asked taken' { s with undecoded } m)
    (asked : Asked taken' { s with undecoded } d.number) :
    Live pending counter taken'
      { s with _raw_msg_q := queue, _ack_q := s._ack_q ++ [tag], ack_id, undecoded } := by
  have own := live.own tag d there
  have only {t : Nat} {e : Delivery} (found : pending.get t = some e)
      (same : e.number = d.number) : t = tag := by
    have found := (live.own t e found).2
    rw [same, own.2] at found
    exact (congrArg Prod.snd found).symm
  refine ⟨live.counted, live.below, live.own, live.unsettled, ?_, ?_, ?_,
    fewer.nodup live.queue_once, ?_, ?_,
    live.settled, live.raised⟩
  · intro m t mem
    obtain ⟨⟨e, found, number⟩, free, unasked⟩ := live.queued m t (fewer.mem mem)
    have different : m ≠ d.number := by
      intro same
      have := only found (number.trans same)
      subst this
      exact gone (same ▸ mem)
    refine ⟨⟨e, found, number⟩, ?_, ?_⟩
    · show ack_id m = none
      rw [others m different]
      exact free
    · rw [List.mem_append, List.mem_singleton, not_or]
      refine ⟨unasked, ?_⟩
      rintro rfl
      cases there.symm.trans found
      exact different number.symm
  · intro m t held current
    replace held : ack_id m = some t := held
    have different : m ≠ d.number := by
      rintro rfl
      cases unheld.symm.trans held
    rw [others m different] at held
    obtain ⟨⟨e, found, number⟩, unasked⟩ := live.held m t held current
    refine ⟨⟨e, found, number⟩, ?_⟩
    rw [List.mem_append, List.mem_singleton, not_or]
    refine ⟨unasked, ?_⟩
    rintro rfl
    cases there.symm.trans found
    exact different number.symm
  · intro t mem
    rcases List.mem_append.mp mem with mem | mem
    · obtain ⟨e, found, for_⟩ := live.asked t mem
      exact ⟨e, found, later _ for_⟩
    · cases List.mem_singleton.mp mem
      exact ⟨d, there, asked⟩
  · refine List.nodup_append.mpr ⟨live.asked_once, List.nodup_singleton _, ?_⟩
    rintro t mem _ last rfl
    exact unasked (List.mem_singleton.mp last ▸ mem)
  · intro t e found
    show (e.number, t) ∈ queue ∨ ack_id e.number = some t ∨ t ∈ s._ack_q ++ [tag]
    by_cases same : e.number = d.number
    · exact .inr (.inr (by simp [only found same]))
    · rcases live.covered t e found with mem | held | mem
      · exact .inl ((rest _ _ mem).resolve_right same)
      · exact .inr (.inl (by rw [others _ same]; exact held))
      · exact .inr (.inr (List.mem_append_left _ mem))

/-- The first raw message cannot be read, and its tag goes to the reactor. -/
theorem Staged.refuse (staged : Staged taken s) (here : s.client = some r) {n tag : Nat}
    {queue : List (Nat × Nat)} (first : s._raw_msg_q = (n, tag) :: queue) :
    Staged taken { s with
      _raw_msg_q := queue, _ack_q := s._ack_q ++ [tag], undecoded := s.undecoded ++ [n] } := by
  have placed := staged.placed
  have live := staged.live r here
  have later (m : Nat) :
      Asked taken s m → Asked taken { s with undecoded := s.undecoded ++ [n] } m :=
    Or.imp_right (List.mem_append_left _)
  obtain ⟨⟨d, there, rfl⟩, unheld, unasked⟩ := live.queued n tag (first ▸ List.mem_cons_self)
  have queue_once := live.queue_once
  rw [first, List.nodup_cons] at queue_once
  refine ⟨⟨placed.before, placed.distinct, placed.held, placed.once, fun m mem => ?_⟩,
    fun r' made => ?_⟩
  · exact ⟨(placed.accepted m mem).1, later m (placed.accepted m mem).2⟩
  · cases here.symm.trans made
    refine live.ask there unasked (first ▸ List.sublist_cons_self _ _) queue_once.1 unheld
      (fun _ _ => rfl)
      (fun m t mem => ?_) later (.inr (by simp))
    rw [first, List.mem_cons] at mem
    exact mem.symm.imp_right (congrArg Prod.fst)

/-- A message is acknowledged over its own connection. -/
theorem Staged.ack (staged : Staged taken s) (message : Nat)
    (own : OwnConnection s (.ack message)) :
    Staged (taken ++ [.ack message]) (s.ack message) := by
  have placed := staged.placed.later [.ack message]
  unfold State.ack
  cases held : s.ack_id message with
  | none => exact ⟨placed, fun r here => (staged.live r here).later _⟩
  | some tag =>
    dsimp only
    split
    · refine ⟨⟨placed.before, placed.distinct, fun m t there => ?_, placed.once, placed.accepted⟩,
        fun r here => ?_⟩
      · replace there : Function.update s.ack_id message none m = some t := there
        by_cases same : m = message
        · subst same
          rw [Function.update_self] at there
          cases there
        · rw [Function.update_of_ne same] at there
          exact placed.held m t there
      · have live := staged.live r here
        obtain ⟨⟨d, there, rfl⟩, unasked⟩ := live.held message tag held (own (by rw [held]; nofun))
        refine live.ask there unasked (List.Sublist.refl _) (fun mem => ?_)
          (Function.update_self ..)
          (fun m different => Function.update_of_ne different _ _) (fun m t mem => .inl mem)
          (fun m asked => asked.later _) (.inl (by simp))
        cases held.symm.trans (live.queued _ _ mem).2.1
    · next gone =>
      refine ⟨⟨placed.before, placed.distinct, placed.held, placed.once, placed.accepted⟩,
        fun r here => ?_⟩
      exact absurd (Option.isSome_iff_exists.mpr ⟨r, here⟩) gone

theorem Staged.later (staged : Staged taken s) (more : List Action) : Staged (taken ++ more) s :=
  ⟨staged.placed.later more, fun r here => (staged.live r here).later more⟩

/-- A client that has the same deliveries, or none. -/
theorem Staged.client (staged : Staged taken s) {client : Option Amqp1Receiver} {connected : Bool}
    {opened : List Nat} (same : ∀ r, client = some r → ∃ r', s.client = some r' ∧
      r'.pending_deliveries = r.pending_deliveries ∧ r'.ack_id_counter = r.ack_id_counter) :
    Staged taken { s with client, connected, opened } := by
  have placed := staged.placed
  refine ⟨⟨placed.before, placed.distinct, placed.held, placed.once, placed.accepted⟩,
    fun r made => ?_⟩
  obtain ⟨r', here, pending, counter⟩ := same r made
  have live := staged.live r' here
  rw [pending, counter] at live
  exact { live with }

theorem Staged.step (staged : Staged taken s) {a : Action} (own : OwnConnection s a) {s' : State}
    (next : Source.Amq1.step prefetch s a = some s') : Staged (taken ++ [a]) s' := by
  cases a with
  | connect fine =>
    simp only [Source.Amq1.step] at next
    split at next
    · cases next
    · cases next
      exact (staged.connect fine).later _
  | on_link_opened receiver =>
    simp only [Source.Amq1.step] at next
    split at next
    · next r here =>
      split at next
      · cases next
        refine (staged.client fun r' made => ⟨r, here, ?_⟩).later _
        obtain rfl := Option.some.inj made
        unfold Amqp1Receiver.on_link_opened
        split <;> exact ⟨rfl, rfl⟩
      · cases next
    · cases next
  | on_message receiver =>
    simp only [Source.Amq1.step] at next
    split at next
    · next r here =>
      split at next
      · cases next
        exact (staged.on_message here receiver).later _
      · cases next
    · cases next
  | on_timer_task raises =>
    simp only [Source.Amq1.step] at next
    split at next
    · next r tag queue here first =>
      cases next
      exact (staged.acked here first _).later _
    · cases next
  | lost =>
    cases next
    exact (staged.client fun r here => ⟨r, here, rfl, rfl⟩).later _
  | getNewMessage decodes =>
    simp only [Source.Amq1.step] at next
    split at next
    · next r n tag queue here first =>
      split at next
      · cases next
        exact (staged.read here first).later _
      · cases next
        exact (staged.refuse here first).later _
    · cases next
  | ack message =>
    cases next
    exact staged.ack message own
  | close =>
    cases next
    exact (staged.client fun r made => absurd made (by simp)).later _

theorem staged_run (run : Runs (Source.Amq1.step prefetch) OwnConnection initial taken s) :
    Staged taken s := by
  refine run.keeps_with ⟨⟨?_, ?_, ?_, List.nodup_nil, ?_⟩, nofun⟩ fun _ _ _ _ staged own next =>
    staged.step own next
  · exact fun n none => absurd none (Nat.not_lt_zero n)
  · exact fun n none => absurd none (Nat.not_lt_zero n)
  · intro n tag none
    cases none
  · intro n none
    cases none

/-- What is pending is at one of the first three stages, and these exclude each other. -/
theorem stages_apart {stands : Stage → Prop} {pending : Prop}
    (queued : stands .queued → pending ∧ ¬ stands .held ∧ ¬ stands .asked)
    (held : stands .held → pending ∧ ¬ stands .asked) (asked : stands .asked → pending)
    (unsettled : pending → ¬ stands .accepted ∧ ¬ stands .raised) 
    (raised : stands .raised → ¬ stands .accepted)
    {stage other : Stage} (here : stands stage) (there : stands other) : other = stage := by
  cases stage <;> cases other <;> grind

/-- The connection is lost before the message is acknowledged, and another is made. -/
def reconnection : List Action :=
  [.connect true, .on_link_opened 0, .on_message 0, .getNewMessage true, .lost, .connect true,
    .on_link_opened 0, .on_message 0, .ack 0, .on_timer_task false]

/-- Then the tag is that of another delivery, which is accepted although its message was never
read. -/
example :
    (reconnection.foldlM (Source.Amq1.step 1) initial).map (fun s => (s.accepted, s._raw_msg_q)) =
    some ([1], [(1, 0)]) := by decide

end Stages
end Sarracenia.Guarantees.Amq1
