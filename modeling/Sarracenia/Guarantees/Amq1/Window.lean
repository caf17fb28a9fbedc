import Sarracenia.Library.Runs
import Sarracenia.Source.Amq1

/-!
# The credit window of AMQP 1.0

The credit of a link and the deliveries of it that are not settled make up its prefetch, whatever
turns the threads and the broker take (`window`).
-/
namespace Sarracenia.Guarantees.Amq1
open Library Source.Amq1

section Condition

/-- A message is acknowledged over the connection that it came over. -/
def OwnConnection (s : State) : Action → Prop
  | .ack message => s.ack_id message ≠ none → (s.origin message).1 = s.connections
  | _ => True

instance (s : State) (a : Action) : Decidable (OwnConnection s a) := by
  cases a <;> unfold OwnConnection <;> infer_instance

/-- One link is opened, and a message comes, is read and is acknowledged. -/
def exchange : List Action :=
  [.connect true, .on_link_opened 0, .on_message 0, .getNewMessage true, .ack 0,
    .on_timer_task false]

def exchanged : State := (after (Source.Amq1.step 1) OwnConnection initial exchange).get (by decide)

end Condition

section Window
variable {prefetch : Nat} {s : State} {r : Amqp1Receiver}

/-- The deliveries of a link that are held for it. -/
def pendingOn (pending : Table Nat Delivery) (receiver : Nat) : Nat :=
  pending.entries.countP fun entry => entry.2.receiver = receiver

def raisedOn (s : State) (receiver : Nat) : Nat := s.raised.countP (·.receiver = receiver)

theorem pendingOn_set {pending : Table Nat Delivery} {delivery : Delivery} {tag : Nat}
    (new : pending.get tag = none) (receiver : Nat) :
    pendingOn (pending.set tag delivery) receiver =
      pendingOn pending receiver + if delivery.receiver = receiver then 1 else 0 := by
  have entries : (pending.set tag delivery).entries = pending.entries ++ [(tag, delivery)] :=
    Table.setEntries_new new
  rw [pendingOn, entries, List.countP_append, pendingOn]
  simp [List.countP_cons]

theorem pendingOn_erase {pending : Table Nat Delivery} {delivery : Delivery} {tag : Nat}
    (there : pending.get tag = some delivery) (receiver : Nat) :
    pendingOn pending receiver =
      pendingOn (pending.erase tag) receiver + if delivery.receiver = receiver then 1 else 0 := by
  rw [pendingOn, (Table.erase_perm there).countP_eq, List.countP_cons, pendingOn]
  simp

/-- Of the links of the current connection, those that were opened have their whole prefetch, the
others have nothing. The tags that are held are below the counter. -/
structure Windows (prefetch : Nat) (s : State) : Prop where
  below : ∀ r, s.client = some r → ∀ tag delivery, r.pending_deliveries.get tag = some delivery →
    tag < r.ack_id_counter ∧ delivery.receiver ∈ s.opened
  opened : ∀ r, s.client = some r → ∀ receiver ∈ s.opened,
    r.credit receiver + pendingOn r.pending_deliveries receiver + raisedOn s receiver = prefetch
  closed : ∀ r, s.client = some r → ∀ receiver ∉ s.opened,
    r.credit receiver = 0 ∧ pendingOn r.pending_deliveries receiver = 0 ∧ raisedOn s receiver = 0

theorem connect_client {fine : Bool} (made : (s.connect fine).client = some r) : r = .new := by
  cases fine with
  | false => cases made
  | true => exact (Option.some.inj made).symm

theorem Windows.connect (fine : Bool) : Windows prefetch (s.connect fine) := by
  refine ⟨fun r made => ?_, fun r made => ?_, fun r made => ?_⟩
  all_goals rw [connect_client made]
  · intro tag delivery there
    cases there
  · intro receiver none
    cases none
  · intro receiver closed
    exact ⟨rfl, rfl, rfl⟩

theorem Windows.on_link_opened (windows : Windows prefetch s) (here : s.client = some r)
    {receiver : Nat}
    (new : receiver ∉ s.opened) :
    Windows prefetch { s with
      client := r.on_link_opened prefetch receiver, opened := receiver :: s.opened } := by
  have fresh := windows.closed r here receiver new
  have credit : ∀ link, (r.on_link_opened prefetch receiver).credit link =
      if link = receiver then prefetch else r.credit link := by
    intro link
    unfold Amqp1Receiver.on_link_opened Amqp1Receiver.flow
    by_cases same : link = receiver
    · subst same
      split <;> simp <;> omega
    · split <;> simp [same]
  have pending : (r.on_link_opened prefetch receiver).pending_deliveries = r.pending_deliveries ∧
      (r.on_link_opened prefetch receiver).ack_id_counter = r.ack_id_counter := by
    unfold Amqp1Receiver.on_link_opened
    split <;> exact ⟨rfl, rfl⟩
  refine ⟨fun r' made tag delivery there => ?_, fun r' made link mem => ?_,
    fun r' made link mem => ?_⟩
  all_goals obtain rfl := Option.some.inj made
  · rw [pending.1] at there
    rw [pending.2]
    have before := windows.below r here tag delivery there
    exact ⟨before.1, List.mem_cons_of_mem _ before.2⟩
  · rw [credit, pending.1]
    by_cases same : link = receiver
    · subst same
      simp only [if_pos]
      have := fresh.2.1
      have := fresh.2.2
      simp only [raisedOn] at *
      omega
    · rw [if_neg same]
      exact windows.opened r here link ((List.mem_cons.mp mem).resolve_left same)
  · rw [List.mem_cons, not_or] at mem
    rw [credit, if_neg mem.1, pending.1]
    exact windows.closed r here link mem.2

theorem Windows.on_message (windows : Windows prefetch s) (here : s.client = some r)
    {receiver : Nat}
    (credit : 0 < r.credit receiver) : Windows prefetch (s.on_message r receiver) := by
  have opened : receiver ∈ s.opened := by
    by_contra closed
    have := (windows.closed r here receiver closed).1
    omega
  have new : r.pending_deliveries.get r.ack_id_counter = none := by
    cases found : r.pending_deliveries.get r.ack_id_counter with
    | none => rfl
    | some delivery => exact absurd (windows.below r here _ _ found).1 (Nat.lt_irrefl _)
  have pending (link : Nat) : pendingOn (r.on_message ⟨s.sent, receiver⟩).pending_deliveries link =
      pendingOn r.pending_deliveries link + if receiver = link then 1 else 0 :=
        pendingOn_set new link
  refine ⟨fun r' made tag delivery there => ?_, fun r' made link mem => ?_,
    fun r' made link mem => ?_⟩
  all_goals obtain rfl := Option.some.inj made
  · rw [Amqp1Receiver.on_message, Table.get_set] at there
    split at there
    · next same =>
      cases there
      rw [same]
      exact ⟨Nat.lt_succ_self _, opened⟩
    · have before := windows.below r here tag delivery there
      exact ⟨Nat.lt_succ_of_lt before.1, before.2⟩
  · have before := windows.opened r here link mem
    rw [pending]
    show Function.update r.credit receiver _ link + _ + raisedOn s link = prefetch
    by_cases same : link = receiver
    · subst same
      simp only [Function.update_self, if_true]
      omega
    · rw [Function.update_of_ne same, if_neg (Ne.symm same)]
      omega
  · have other : link ≠ receiver := fun same => mem (same ▸ opened)
    have before := windows.closed r here link mem
    rw [pending, if_neg (Ne.symm other)]
    show Function.update r.credit receiver _ link = 0 ∧ _ ∧ raisedOn s link = 0
    rw [Function.update_of_ne other]
    exact ⟨before.1, by omega, before.2.2⟩

/-- What a turn of the reactor's loop makes of the window: a delivery goes, and its credit comes
back or its settlement raised. -/
theorem Windows.acked (windows : Windows prefetch s) (here : s.client = some r) (tag : Nat)
    (raises : Bool)
    (queue : List Nat) : Windows prefetch
      ({ s with client := (r.ack prefetch tag raises).1, _ack_q := queue }.settled
        (r.ack prefetch tag raises).2) := by
  unfold Amqp1Receiver.ack
  cases found : r.pending_deliveries.get tag with
  | none =>
    refine ⟨fun r' made => ?_, fun r' made => ?_, fun r' made => ?_⟩
    all_goals obtain rfl := Option.some.inj made
    · exact windows.below r here
    · exact windows.opened r here
    · exact windows.closed r here
  | some delivery =>
    have opened : delivery.receiver ∈ s.opened := (windows.below r here tag delivery found).2
    have erased (link : Nat) := pendingOn_erase found link
    have below : ∀ t d, (r.pending_deliveries.erase tag).get t = some d →
        t < r.ack_id_counter ∧ d.receiver ∈ s.opened := by
      intro t d there
      rw [Table.get_erase] at there
      split at there
      · cases there
      · exact windows.below r here t d there
    have room : r.credit delivery.receiver < prefetch := by
      have := windows.opened r here _ opened
      have := erased delivery.receiver
      simp only [if_true] at this
      omega
    cases raises with
    | true =>
      refine ⟨fun r' made => ?_, fun r' made link mem => ?_, fun r' made link mem => ?_⟩
      all_goals obtain rfl := Option.some.inj made
      · exact below
      · have before := windows.opened r here link mem
        replace before : r.credit link + _ + raisedOn s link = prefetch := before
        rw [erased] at before
        show r.credit link + pendingOn (r.pending_deliveries.erase tag) link +
          (s.raised ++ [delivery]).countP _ = prefetch
        rw [List.countP_append, List.countP_singleton]
        simp only [raisedOn, decide_eq_true_eq] at *
        omega
      · have other : delivery.receiver ≠ link := fun same => mem (same ▸ opened)
        have before := windows.closed r here link mem
        rw [erased, if_neg other] at before
        refine ⟨before.1, before.2.1, ?_⟩
        show (s.raised ++ [delivery]).countP _ = 0
        rw [List.countP_append, List.countP_singleton]
        simp only [decide_eq_true_eq, if_neg other]
        exact before.2.2
    | false =>
      simp only [Bool.false_eq_true, if_false, if_pos room]
      refine ⟨fun r' made => ?_, fun r' made link mem => ?_, fun r' made link mem => ?_⟩
      all_goals obtain rfl := Option.some.inj made
      · exact below
      · have before := windows.opened r here link mem
        rw [erased] at before
        show Function.update r.credit delivery.receiver _ link +
          pendingOn (r.pending_deliveries.erase tag) link + raisedOn s link = prefetch
        by_cases same : link = delivery.receiver
        · subst same
          simp only [Function.update_self, if_true] at before ⊢
          omega
        · rw [Function.update_of_ne same]
          rw [if_neg (Ne.symm same)] at before
          exact before
      · have other : delivery.receiver ≠ link := fun same => mem (same ▸ opened)
        have before := windows.closed r here link mem
        rw [erased, if_neg other] at before
        show Function.update r.credit delivery.receiver _ link = 0 ∧ _ ∧ raisedOn s link = 0
        rw [Function.update_of_ne (Ne.symm other)]
        exact before

/-- Only the two ends of the window and what is held are looked at. -/
theorem Windows.same (windows : Windows prefetch s) {s' : State} (client : s'.client = s.client)
    (opened : s'.opened = s.opened) (raised : s'.raised = s.raised) : Windows prefetch s' := by
  have count (receiver : Nat) : raisedOn s' receiver = raisedOn s receiver := by
    rw [raisedOn, raised, raisedOn]
  refine ⟨fun r here => ?_, fun r here => ?_, fun r here => ?_⟩
  all_goals rw [client] at here
  all_goals rw [opened]
  · exact windows.below r here
  · intro receiver mem
    rw [count]
    exact windows.opened r here receiver mem
  · intro receiver mem
    rw [count]
    exact windows.closed r here receiver mem

theorem Windows.gone {s' : State} (gone : s'.client = none) : Windows prefetch s' := by
  refine ⟨fun r here => ?_, fun r here => ?_, fun r here => ?_⟩
  all_goals cases gone.symm.trans here

theorem ack_frame (s : State) (message : Nat) : (s.ack message).client = s.client ∧
    (s.ack message).opened = s.opened ∧ (s.ack message).raised = s.raised := by
  unfold State.ack
  split
  · exact ⟨rfl, rfl, rfl⟩
  · dsimp only
    split <;> exact ⟨rfl, rfl, rfl⟩

theorem Windows.step (windows : Windows prefetch s) {a : Action} {s' : State}
    (next : Source.Amq1.step prefetch s a = some s') : Windows prefetch s' := by
  cases a with
  | connect fine =>
    simp only [Source.Amq1.step] at next
    split at next
    · cases next
    · cases next
      exact .connect fine
  | on_link_opened receiver =>
    simp only [Source.Amq1.step] at next
    split at next
    · next r here =>
      split at next
      · next allowed =>
        cases next
        exact windows.on_link_opened here allowed.2
      · cases next
    · cases next
  | on_message receiver =>
    simp only [Source.Amq1.step] at next
    split at next
    · next r here =>
      split at next
      · next allowed =>
        cases next
        exact windows.on_message here allowed.2
      · cases next
    · cases next
  | on_timer_task raises =>
    simp only [Source.Amq1.step] at next
    split at next
    · next r tag queue here _ =>
      cases next
      exact windows.acked here tag _ queue
    · cases next
  | lost =>
    cases next
    exact windows.same rfl rfl rfl
  | getNewMessage decodes =>
    simp only [Source.Amq1.step] at next
    split at next
    · split at next
      · cases next
        exact windows.same rfl rfl rfl
      · cases next
        exact windows.same rfl rfl rfl
    · cases next
  | ack message =>
    cases next
    obtain ⟨client, opened, raised⟩ := ack_frame s message
    exact windows.same client opened raised
  | close =>
    cases next
    exact .gone rfl

end Window

end Sarracenia.Guarantees.Amq1
