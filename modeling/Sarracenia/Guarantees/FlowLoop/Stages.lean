import Sarracenia.Source.FlowLoop
import Mathlib.Tactic.Tauto

/-!
# What a pass of the flow loop keeps

Every message received is in the ledger, queued or disposed of, or with the messages that the pass
is yet to work on or to post.

* what effects leave of the queues (`queue_kept`, `queue_put`, `queue_from`);
* a stage keeps every message if it keeps those that it starts with, takes or receives
  (`Keeps.stage`), and each of the four does (`gather_keeps`, `filter_keeps`, `work_keeps`,
  `post_keeps`).
-/
namespace Sarracenia.Guarantees.FlowLoop
open Source.FlowLoop

section Accounts

/-- The message of that number is among them. -/
def Has (messages : List Msg) (t : Nat) : Prop := ∃ m ∈ messages, m.tag = some t

/-- The message of that number for that publisher is among them. -/
def HasFor (messages : List Msg) (t i : Nat) : Prop :=
  ∃ m ∈ messages, m.tag = some t ∧ m.publisher_index = some i

variable (o : Options) (l : Ledger)

/-- An effect of that kind was on the message of that number. -/
def Did (kind : Msg → Effect) (t : Nat) : Prop := ∃ m, m.tag = some t ∧ kind m ∈ l.history

/-- An effect of that kind was on the message of that number for that publisher. -/
def DidFor (kind : Msg → Effect) (t i : Nat) : Prop :=
  ∃ m, m.tag = some t ∧ m.publisher_index = some i ∧ kind m ∈ l.history

/-- The post of a worked message is done with, or queued, or among those yet to be made. -/
def Posted (posts : List Msg) (t i : Nat) : Prop :=
  HasFor (l.queues .post_retry ++ posts) t i ∨ DidFor l .publish t i ∨
    DidFor l (.giveUp .post_retry) t i ∨ DidFor l .skip t i

/-- The message is queued or disposed of, or among those yet to be worked on. -/
def Kept (work posts : List Msg) (t : Nat) : Prop :=
  Has (l.queues .download_retry ++ work) t ∨ Did l .reject t ∨ Did l (.giveUp .download_retry) t ∨
    Did l .work t ∧ ∀ i < o.publishers, Posted l posts t i

/-- What is left of the message where the process dies: it is redelivered, queued for another try, or
finally disposed of. -/
def Accounted (t : Nat) : Prop := ¬ Did l .ack t ∨ Kept o l [] [] t

/-- Every message received is accounted for. -/
def AtLeastOnce : Prop := ∀ t < l.received, Accounted o l t

/-- The pass that made these effects acknowledged the message, or took it from a queue. -/
def Held (effects : List Effect) (t : Nat) : Prop :=
  ∃ m, m.tag = some t ∧ (Effect.ack m ∈ effects ∨ ∃ q, Effect.get q m ∈ effects)

end Accounts

section Effects
variable {l : Ledger} {effects : List Effect}

theorem after_append (l : Ledger) (first second : List Effect) :
    l.after (first ++ second) = (l.after first).after second := List.foldl_append ..

theorem after_cons (l : Ledger) (e : Effect) (effects : List Effect) :
    l.after (e :: effects) = (l.apply e).after effects := rfl

@[simp] theorem after_history (l : Ledger) (effects : List Effect) :
    (l.after effects).history = l.history ++ effects := by
  induction effects generalizing l with
  | nil => simp [Ledger.after]
  | cons e effects ih =>
    rw [after_cons, ih, Ledger.apply, List.append_assoc, List.singleton_append]

/-- A message stays on a queue that it is not taken from. -/
theorem queue_kept {q : Queue} {m : Msg} (there : m ∈ l.queues q) (untaken : .get q m ∉ effects) :
    m ∈ (l.after effects).queues q := by
  induction effects generalizing l with
  | nil => exact there
  | cons e effects ih =>
    rw [List.mem_cons, not_or] at untaken
    refine ih ?_ untaken.2
    cases e with
    | get q' m' =>
      by_cases same : q = q'
      · subst same
        have other : m ≠ m' := fun equal => untaken.1 (by rw [equal])
        simpa [Ledger.apply, Ledger.change, List.mem_erase_of_ne other] using there
      · simpa [Ledger.apply, Ledger.change, Function.update_of_ne same] using there
    | put q' m' =>
      by_cases same : q = q'
      · subst same
        simp [Ledger.apply, Ledger.change, there]
      · simpa [Ledger.apply, Ledger.change, Function.update_of_ne same] using there
    | _ => exact there

/-- A message that is put on a queue and not taken from it is there. -/
theorem queue_put {q : Queue} {m : Msg} (put : .put q m ∈ effects) (untaken : .get q m ∉ effects) :
    m ∈ (l.after effects).queues q := by
  induction effects generalizing l with
  | nil => cases put
  | cons e effects ih =>
    rw [List.mem_cons, not_or] at untaken
    rw [after_cons]
    rcases List.mem_cons.mp put with rfl | put
    · exact queue_kept (by simp [Ledger.apply, Ledger.change]) untaken.2
    · exact ih put untaken.2

/-- A message on a queue was there, or was put on it. -/
theorem queue_from {q : Queue} {m : Msg} (there : m ∈ (l.after effects).queues q) :
    m ∈ l.queues q ∨ .put q m ∈ effects := by
  induction effects generalizing l with
  | nil => exact .inl there
  | cons e effects ih =>
    rcases ih there with before | put
    · cases e with
      | get q' m' =>
        by_cases same : q = q'
        · subst same
          exact .inl (List.mem_of_mem_erase (by simpa [Ledger.apply, Ledger.change] using before))
        · exact .inl (by simpa [Ledger.apply, Ledger.change, Function.update_of_ne same] using before)
      | put q' m' =>
        by_cases same : q = q'
        · subst same
          have : m ∈ l.queues q ∨ m = m' := by simpa [Ledger.apply, Ledger.change] using before
          exact this.imp_right fun equal => by rw [equal]; exact List.mem_cons_self
        · exact .inl (by simpa [Ledger.apply, Ledger.change, Function.update_of_ne same] using before)
      | _ => exact .inl before
    · exact .inr (List.mem_cons_of_mem _ put)

theorem received_same (none : ∀ m, .receive m ∉ effects) :
    (l.after effects).received = l.received := by
  induction effects generalizing l with
  | nil => rfl
  | cons e effects ih =>
    rw [after_cons, ih fun m mem => none m (List.mem_cons_of_mem _ mem)]
    cases e with
    | receive m => exact absurd List.mem_cons_self (none m)
    | _ => rfl

theorem received_all (messages : List Msg) :
    (l.after (messages.map .receive)).received = l.received + messages.length := by
  induction messages generalizing l with
  | nil => rfl
  | cons m messages ih =>
    rw [List.map_cons, after_cons, ih, List.length_cons]
    show l.received + 1 + _ = _
    omega

end Effects

section Stages
variable {o : Options} {w : Outcomes} {l : Ledger}

/-- A pass under way keeps every message, and knows of none that was not received. -/
structure Keeps (o : Options) (l : Ledger) (work posts : List Msg) : Prop where
  kept : ∀ t < l.received, Kept o l work posts t
  known : ∀ m t, m.tag = some t →
    (.ack m ∈ l.history ∨ (∃ q, m ∈ l.queues q) ∨ m ∈ work ∨ m ∈ posts) → t < l.received

theorem received_le (l : Ledger) (effects : List Effect) :
    l.received ≤ (l.after effects).received := by
  induction effects generalizing l with
  | nil => exact Nat.le_refl _
  | cons e effects ih =>
    refine Nat.le_trans ?_ (ih (l.apply e))
    cases e with
    | receive m => exact Nat.le_succ _
    | _ => exact Nat.le_refl _

theorem Did.after {kind : Msg → Effect} {t : Nat} (did : Did l kind t) (effects : List Effect) :
    Did (l.after effects) kind t := by
  obtain ⟨m, tag, there⟩ := did
  exact ⟨m, tag, by simp [there]⟩

theorem DidFor.after {kind : Msg → Effect} {t i : Nat} (did : DidFor l kind t i)
    (effects : List Effect) : DidFor (l.after effects) kind t i := by
  obtain ⟨m, tag, publisher, there⟩ := did
  exact ⟨m, tag, publisher, by simp [there]⟩

/-- A message is kept if it is where it was, or wherever it was taken to. -/
theorem Kept.stage {work posts work' posts' : List Msg} {effects : List Effect} {t : Nat}
    (kept : Kept o l work posts t)
    (worked : ∀ m, m.tag = some t → (m ∈ work ∨ .get .download_retry m ∈ effects) →
      Kept o (l.after effects) work' posts' t)
    (posted : ∀ m i, i < o.publishers → m.tag = some t → m.publisher_index = some i →
      (m ∈ posts ∨ .get .post_retry m ∈ effects) → Posted (l.after effects) posts' t i) :
    Kept o (l.after effects) work' posts' t := by
  rcases kept with ⟨m, there, tag⟩ | rejected | givenUp | ⟨done, posts⟩
  · rcases List.mem_append.mp there with queued | mine
    · by_cases taken : .get .download_retry m ∈ effects
      · exact worked m tag (.inr taken)
      · exact .inl ⟨m, List.mem_append_left _ (queue_kept queued taken), tag⟩
    · exact worked m tag (.inl mine)
  · exact .inr (.inl (rejected.after effects))
  · exact .inr (.inr (.inl (givenUp.after effects)))
  · refine .inr (.inr (.inr ⟨done.after effects, fun i bound => ?_⟩))
    rcases posts i bound with ⟨m, there, tag, publisher⟩ | published | givenUp | skipped
    · rcases List.mem_append.mp there with queued | mine
      · by_cases taken : .get .post_retry m ∈ effects
        · exact posted m i bound tag publisher (.inr taken)
        · exact .inl ⟨m, List.mem_append_left _ (queue_kept queued taken), tag, publisher⟩
      · exact posted m i bound tag publisher (.inl mine)
    · exact .inr (.inl (published.after effects))
    · exact .inr (.inr (.inl (givenUp.after effects)))
    · exact .inr (.inr (.inr (skipped.after effects)))

/-- A stage keeps every message if it keeps those that it starts with, takes or receives. -/
theorem Keeps.stage {work posts work' posts' : List Msg} {effects : List Effect}
    (before : Keeps o l work posts)
    (worked : ∀ m t, m.tag = some t → (m ∈ work ∨ .get .download_retry m ∈ effects) →
      Kept o (l.after effects) work' posts' t)
    (posted : ∀ m t i, i < o.publishers → m.tag = some t → m.publisher_index = some i →
      (m ∈ posts ∨ .get .post_retry m ∈ effects) → Posted (l.after effects) posts' t i)
    (received : ∀ t, l.received ≤ t → t < (l.after effects).received →
      Kept o (l.after effects) work' posts' t)
    (known : ∀ m t, m.tag = some t →
      (.ack m ∈ effects ∨ (∃ q, .put q m ∈ effects) ∨ m ∈ work' ∨ m ∈ posts') →
      t < (l.after effects).received) :
    Keeps o (l.after effects) work' posts' := by
  refine ⟨fun t now => ?_, fun m t tag there => ?_⟩
  · by_cases early : t < l.received
    · exact (before.kept t early).stage (fun m tag => worked m t tag) fun m => posted m t
    · exact received t (by omega) now
  · rw [after_history, List.mem_append] at there
    rcases there with (acked | acked) | ⟨q, queued⟩ | mine
    · exact Nat.lt_of_lt_of_le (before.known m t tag (.inl acked)) (received_le l effects)
    · exact known m t tag (.inl acked)
    · rcases queue_from queued with queued | put
      · exact Nat.lt_of_lt_of_le (before.known m t tag (.inr (.inl ⟨q, queued⟩)))
          (received_le l effects)
      · exact known m t tag (.inr (.inl ⟨q, put⟩))
    · exact known m t tag (.inr (.inr mine))

/-- What the retry plugin takes from the download queue it gives up or hands on, with its tag. -/
structure Takes (l : Ledger) (taken : List Effect × List Msg) : Prop where
  only : ∀ e ∈ taken.1, ∃ m, e = .get .download_retry m ∨ e = .giveUp .download_retry m
  kept : ∀ m, .get .download_retry m ∈ taken.1 → ∃ m', m'.tag = m.tag ∧
    (m' ∈ taken.2 ∨ .giveUp .download_retry m' ∈ taken.1)
  queued : ∀ m ∈ taken.2, ∃ m' ∈ l.queues .download_retry, m'.tag = m.tag

theorem takes_nothing : Takes l ([], []) := ⟨by simp, by simp, by simp⟩

theorem takes_retries {again : Msg → Msg} (same : ∀ m, (again m).tag = m.tag) :
    Takes l (retries o w l again) := by
  refine ⟨fun e there => ?_, fun m taken => ?_, fun m there => ?_⟩
  · simp only [retries, giveUp, List.mem_append, List.mem_map] at there
    rcases there with ⟨m, -, equal⟩ | ⟨m, -, equal⟩
    · exact ⟨m, .inl equal.symm⟩
    · exact ⟨m, .inr equal.symm⟩
  · have there : m ∈ (l.queues .download_retry).take w.retries := by
      simp only [retries, giveUp, List.mem_append, List.mem_map] at taken
      rcases taken with ⟨m', there, equal⟩ | ⟨m', -, equal⟩
      · cases equal
        exact there
      · cases equal
    refine ⟨again m, same m, ?_⟩
    simp only [retries, giveUp, keep, List.mem_append, List.mem_filter, List.mem_map]
    cases spent : exceeded o (again m) with
    | false => exact .inl ⟨⟨m, there, rfl⟩, by simp⟩
    | true => exact .inr (.inr ⟨_, ⟨⟨m, there, rfl⟩, spent⟩, rfl⟩)
  · simp only [retries, keep, List.mem_filter, List.mem_map] at there
    obtain ⟨⟨m', taken, rfl⟩, -⟩ := there
    exact ⟨m', List.mem_of_mem_take taken, (same m').symm⟩

theorem takes_gather : Takes l (gatherRetries o w l) := by
  unfold gatherRetries
  split
  · exact takes_retries fun _ => rfl
  · exact takes_nothing

theorem takes_after_accept : Takes l (after_accept o w l) := by
  unfold after_accept
  split
  · exact takes_nothing
  · exact takes_retries fun _ => rfl

/-- A message that is taken stays with the pass, or is given up. -/
theorem Takes.keeps {taken : List Effect × List Msg} (takes : Takes l taken) {l' : Ledger}
    {work posts : List Msg} (happened : taken.1 ⊆ l'.history) (handed : taken.2 ⊆ work) {m : Msg}
    {t : Nat} (tag : m.tag = some t) (there : .get .download_retry m ∈ taken.1) :
    Kept o l' work posts t := by
  obtain ⟨m', same, on | givenUp⟩ := takes.kept m there
  · exact .inl ⟨m', List.mem_append_right _ (handed on), same.trans tag⟩
  · exact .inr (.inr (.inl ⟨m', same.trans tag, happened givenUp⟩))

theorem Takes.untouched {taken : List Effect × List Msg} (takes : Takes l taken) {e : Effect}
    (get : ∀ m, e ≠ .get .download_retry m) (giveUp : ∀ m, e ≠ .giveUp .download_retry m) :
    e ∉ taken.1 := by
  intro there
  obtain ⟨m, same | same⟩ := takes.only e there
  · exact get m same
  · exact giveUp m same

/-- A message that failed is given up, or put on its queue. -/
theorem mem_requeue {q : Queue} {failed : List Msg} {e : Effect} : e ∈ requeue o q failed ↔
    (∃ m ∈ failed, exceeded o (set_isRetry m) = true ∧ .giveUp q (set_isRetry m) = e) ∨
      ∃ m ∈ failed, exceeded o (set_isRetry m) = false ∧ .put q (set_isRetry m) = e := by
  simp [requeue, giveUp, keep, and_assoc]

theorem mem_arrivals {m : Msg} : m ∈ arrivals w l ↔
    ∃ i < w.arrivals, m = ⟨some (l.received + i), 0, none⟩ := by
  simp [arrivals, eq_comm]

theorem received_gather : (l.after (gather o w l).1).received = l.received + w.arrivals := by
  have received := received_all (l := l) (arrivals w l)
  rw [gather, after_append, received_same, received]
  · simp [arrivals]
  · intro m there
    obtain ⟨m', get | giveUp⟩ := takes_gather.only _ there
    · cases get
    · cases giveUp

theorem gather_keeps (before : Keeps o l [] []) :
    Keeps o (l.after (gather o w l).1) (gather o w l).2 [] := by
  have takes : Takes l (gatherRetries o w l) := takes_gather
  refine before.stage ?_ ?_ ?_ ?_
  · rintro m t tag (none | there)
    · cases none
    · have taken : .get .download_retry m ∈ (gatherRetries o w l).1 := by simpa [gather] using there
      exact takes.keeps (by simp [gather]) (by simp [gather]) tag taken
  · rintro m t i bound tag publisher (none | there)
    · cases none
    · exact absurd (by simpa [gather] using there)
        (takes.untouched (e := .get .post_retry m) (by simp) (by simp))
  · intro t low high
    rw [received_gather] at high
    refine .inl ⟨⟨some t, 0, none⟩, List.mem_append_right _ (List.mem_append_left _ ?_), rfl⟩
    exact mem_arrivals.mpr ⟨t - l.received, by omega, by rw [Nat.add_sub_cancel' low]⟩
  · rintro m t tag (acked | ⟨q, put⟩ | there | none)
    · exact absurd (by simpa [gather] using acked) (takes.untouched (e := .ack m) (by simp) (by simp))
    · exact absurd (by simpa [gather] using put) (takes.untouched (e := .put q m) (by simp) (by simp))
    · rw [received_gather]
      rcases List.mem_append.mp there with arrived | taken
      · obtain ⟨i, bound, rfl⟩ := mem_arrivals.mp arrived
        simp only [Option.some.injEq] at tag
        omega
      · obtain ⟨m', queued, same⟩ := takes.queued m taken
        have := before.known m' t (same.trans tag) (.inr (.inl ⟨_, queued⟩))
        omega
    · cases none

theorem filter_keeps {incoming : List Msg} (before : Keeps o l incoming []) :
    Keeps o (l.after (filter o w l incoming).1)
      ((filter o w l incoming).2.1 ++ (filter o w l incoming).2.2) [] := by
  have takes : Takes l (after_accept o w l) := takes_after_accept
  have same : (l.after (filter o w l incoming).1).received = l.received := by
    refine received_same fun m there => takes.untouched (e := .receive m) (by simp) (by simp) ?_
    simpa [filter] using there
  refine before.stage ?_ ?_ (fun t low high => by omega) ?_
  · rintro m t tag (there | there)
    · cases fate : w.accepts m with
      | ok => exact .inl ⟨m, by simp [filter, there, fate], tag⟩
      | rejected => exact .inr (.inl ⟨m, tag, by simp [filter, there, fate]⟩)
      | failed => exact .inl ⟨m, by simp [filter, there, fate], tag⟩
    · have taken : .get .download_retry m ∈ (after_accept o w l).1 := by simpa [filter] using there
      refine takes.keeps ?_ ?_ tag taken
      · intro e there
        simp [filter, there]
      · intro e there
        simp [filter, there]
  · rintro m t i bound tag publisher (none | there)
    · cases none
    · exact absurd (by simpa [filter] using there)
        (takes.untouched (e := .get .post_retry m) (by simp) (by simp))
  · rintro m t tag (acked | ⟨q, put⟩ | there | none)
    · rw [same]
      refine before.known m t tag (.inr (.inr (.inl ?_)))
      have acked : .ack m ∈ (after_accept o w l).1 ∨ m ∈ incoming := by
        have listed : .ack m ∈ (after_accept o w l).1 ∨ (m ∈ incoming ∧ w.accepts m = .rejected) ∨
          m ∈ incoming ∧ w.accepts m = .failed := by simpa [filter, or_assoc] using acked
        exact listed.imp_right fun there => there.elim And.left And.left
      exact acked.resolve_left (takes.untouched (by simp) (by simp))
    · exact absurd (by simpa [filter] using put) (takes.untouched (e := .put q m) (by simp) (by simp))
    · rw [same]
      have listed : (m ∈ incoming ∧ w.accepts m = .ok) ∨ m ∈ (after_accept o w l).2 ∨
        (m ∈ incoming ∧ w.accepts m = .failed) := by simpa [filter, or_assoc] using there
      rcases listed with ⟨mine, -⟩ | taken | ⟨mine, -⟩
      · exact before.known m t tag (.inr (.inr (.inl mine)))
      · obtain ⟨m', queued, same⟩ := takes.queued m taken
        exact before.known m' t (same.trans tag) (.inr (.inl ⟨_, queued⟩))
      · exact before.known m t tag (.inr (.inr (.inl mine)))
    · cases none

/-- A message is copied for each publisher, or addressed to the one there may be. -/
theorem mem_address {m m' : Msg} : m' ∈ address o m ↔
    ∃ i, (i < o.publishers ∨ i = 0 ∧ o.publishers = 0) ∧ m' = { m with publisher_index := some i } := by
  unfold address
  split
  · next few =>
    rw [List.mem_singleton]
    constructor
    · intro same
      exact ⟨0, by omega, same⟩
    · rintro ⟨i, bound, same⟩
      obtain rfl : i = 0 := by omega
      exact same
  · next many =>
    simp only [List.mem_map, List.mem_range]
    constructor
    · rintro ⟨i, bound, rfl⟩
      exact ⟨i, .inl bound, rfl⟩
    · rintro ⟨i, bound, rfl⟩
      exact ⟨i, by omega, rfl⟩

/-- A message that failed goes to its queue, or is given up. -/
theorem requeue_keeps {q : Queue} {failed : List Msg} {effects : List Effect}
    (happened : requeue o q failed ⊆ effects) (untaken : ∀ m, .get q m ∉ effects) {m : Msg}
    (there : m ∈ failed) : set_isRetry m ∈ (l.after effects).queues q ∨
      .giveUp q (set_isRetry m) ∈ (l.after effects).history := by
  cases spent : exceeded o (set_isRetry m) with
  | true =>
    right
    rw [after_history]
    exact List.mem_append_right _ (happened (mem_requeue.mpr (.inl ⟨m, there, spent, rfl⟩)))
  | false =>
    exact .inl (queue_put (happened (mem_requeue.mpr (.inr ⟨m, there, spent, rfl⟩))) (untaken _))

theorem work_keeps {incoming failed : List Msg} (before : Keeps o l (incoming ++ failed) []) :
    Keeps o (l.after (work o w l incoming failed).1) [] (work o w l incoming failed).2 := by
  have same : (l.after (work o w l incoming failed).1).received = l.received :=
    received_same fun m there => by simp [work, mem_requeue, -List.map_take] at there
  have untaken (m : Msg) : .get .download_retry m ∉ (work o w l incoming failed).1 := by
    simp [work, mem_requeue, -List.map_take]
  have requeued (m : Msg) (t : Nat) (tag : m.tag = some t)
      (there : m ∈ failed ∨ m ∈ incoming ∧ w.works m = .failed) :
      Kept o (l.after (work o w l incoming failed).1) [] (work o w l incoming failed).2 t := by
    have happened : requeue o .download_retry (failed ++ incoming.filter (w.works · = .failed)) ⊆
        (work o w l incoming failed).1 := fun e there => by simp [work, there]
    rcases requeue_keeps (l := l) happened untaken (m := m) (by simpa using there) with queued | givenUp
    · exact .inl ⟨_, List.mem_append_left _ queued, tag⟩
    · exact .inr (.inr (.inl ⟨set_isRetry m, tag, givenUp⟩))
  refine before.stage ?_ ?_ (fun t low high => by omega) ?_
  · rintro m t tag (there | taken)
    · rcases List.mem_append.mp there with mine | failed
      · cases fate : w.works m with
        | ok =>
          refine .inr (.inr (.inr ⟨⟨m, tag, by simp [work, mine, fate]⟩, fun i bound => .inl ?_⟩))
          refine ⟨{ m with publisher_index := some i }, List.mem_append_right _ ?_, tag, rfl⟩
          have done : m ∈ incoming.filter (w.works · = .ok) := by simp [mine, fate]
          have addressed : { m with publisher_index := some i } ∈ address o m :=
            mem_address.mpr ⟨i, .inl bound, rfl⟩
          exact List.mem_append_left _ (List.mem_flatMap.mpr ⟨m, done, addressed⟩)
        | rejected => exact .inr (.inl ⟨m, tag, by simp [work, mine, fate]⟩)
        | failed => exact requeued m t tag (.inr ⟨mine, fate⟩)
      · exact requeued m t tag (.inl failed)
    · exact absurd taken (untaken m)
  · rintro m t i bound tag publisher (none | there)
    · cases none
    · have taken : m ∈ (l.queues .post_retry).take w.reposts := by
        simpa [work, mem_requeue, -List.map_take] using there
      exact .inl ⟨m, List.mem_append_right _ (List.mem_append_right _ taken), tag, publisher⟩
  · rintro m t tag (acked | ⟨q, put⟩ | none | there)
    · rw [same]
      refine before.known m t tag (.inr (.inr (.inl ?_)))
      simp only [work, List.mem_append, List.mem_map, List.mem_filter, mem_requeue, reduceCtorEq,
        and_false, exists_false, Effect.ack.injEq, exists_eq_right, false_or, or_false] at acked
      rw [List.mem_append]
      tauto
    · rw [same]
      simp only [work, List.mem_append, List.mem_map, List.mem_filter, mem_requeue, reduceCtorEq,
        and_false, exists_false, false_or, or_false] at put
      obtain ⟨m', there, -, equal⟩ := put
      cases equal
      refine before.known m' t tag (.inr (.inr (.inl ?_)))
      rw [List.mem_append]
      tauto
    · cases none
    · rw [same]
      rcases List.mem_append.mp there with addressed | taken
      · obtain ⟨m', done, copied⟩ := List.mem_flatMap.mp addressed
        obtain ⟨i, -, rfl⟩ := mem_address.mp copied
        have mine := (List.mem_filter.mp done).1
        exact before.known m' t tag (.inr (.inr (.inl (List.mem_append_left _ mine))))
      · exact before.known m t tag (.inr (.inl ⟨_, List.mem_of_mem_take taken⟩))

theorem skipped_or_posted {ok : List Msg} {m : Msg} (there : m ∈ ok) :
    m ∈ skips o w ok ∨ m ∈ posts o w ok := by
  unfold skips posts
  split
  · simp only [List.mem_filter, there, true_and, decide_eq_true_eq]
    omega
  · exact .inr there

theorem posts_subset (ok : List Msg) : posts o w ok ⊆ ok := by
  unfold posts
  split
  · exact List.filter_subset_self ok
  · exact List.Subset.refl _

theorem post_keeps {ok : List Msg} (before : Keeps o l [] ok) :
    Keeps o (l.after (post o w ok)) [] [] := by
  by_cases standalone : o.publishers = 0
  · have nothing : post o w ok = [] := if_pos standalone
    rw [nothing]
    refine before.stage ?_ ?_ (fun t low high => absurd high (Nat.not_lt.mpr low)) ?_
    · simp
    · intro m t i bound
      omega
    · simp
  · have effects : post o w ok = _ := if_neg standalone
    have same : (l.after (post o w ok)).received = l.received :=
      received_same fun m there => by simp [effects, mem_requeue] at there
    have untaken (q : Queue) (m : Msg) : .get q m ∉ post o w ok := by
      simp [effects, mem_requeue]
    refine before.stage ?_ ?_ (fun t low high => by omega) ?_
    · rintro m t tag (none | taken)
      · cases none
      · exact absurd taken (untaken _ m)
    · rintro m t i bound tag publisher (there | taken)
      · rcases skipped_or_posted (o := o) (w := w) there with skipped | posted
        · exact .inr (.inr (.inr ⟨m, tag, publisher, by simp [effects, skipped]⟩))
        · cases published : w.publishes m with
          | true => exact .inr (.inl ⟨m, tag, publisher, by simp [effects, posted, published]⟩)
          | false =>
            have happened : requeue o .post_retry ((posts o w ok).filter fun m => !w.publishes m) ⊆
                post o w ok := fun e there => by simp [effects, there]
            rcases requeue_keeps (l := l) happened (untaken _) (m := m) (by simp [posted, published])
              with queued | givenUp
            · exact .inl ⟨_, List.mem_append_left _ queued, tag, publisher⟩
            · exact .inr (.inr (.inl ⟨set_isRetry m, tag, publisher, givenUp⟩))
      · exact absurd taken (untaken _ m)
    · rintro m t tag (acked | ⟨q, put⟩ | none | none)
      · simp [effects, mem_requeue] at acked
      · rw [same]
        simp only [effects, List.mem_append, List.mem_map, List.mem_filter, mem_requeue, reduceCtorEq,
          and_false, exists_false, false_or, or_false] at put
        obtain ⟨m', there, -, equal⟩ := put
        cases equal
        exact before.known m' t tag (.inr (.inr (.inr (posts_subset ok there.1))))
      · cases none
      · cases none

end Stages

end Sarracenia.Guarantees.FlowLoop
