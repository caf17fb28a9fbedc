import Sarracenia.Guarantees.FlowRun.Turns
import Mathlib.Data.List.Chain

/-!
# How often a flow keeps house

Housekeeping runs are more than the interval apart until the flow stops, and after each turn the
last one is not longer ago than that (`spaced`). A flow that waits for its retries is left out: it
has its housekeeping done ahead of time.
-/
namespace Sarracenia.Guarantees.FlowRun
open Library Source.FlowRun
variable {μ : Type} {o : Options} {s s' : State μ} {t : Turn μ}

def housekeepingOf : Call μ → Option ℚ
  | .on_housekeeping now => some now
  | _ => none

/-- When housekeeping was done. -/
def housekeepings (calls : List (Call μ)) : List ℚ := calls.filterMap housekeepingOf

@[simp] theorem housekeepings_append (calls more : List (Call μ)) :
    housekeepings (calls ++ more) = housekeepings calls ++ housekeepings more := by
  simp [housekeepings]

/-- The runs of housekeeping are apart, and the next one is due an interval after the last one. -/
structure House (o : Options) (s : State μ) : Prop where
  apart : (housekeepings s.calls).IsChain fun a b => a + o.housekeeping < b
  due : ∀ last ∈ (housekeepings s.calls).getLast?, s.next_housekeeping = last + o.housekeeping

theorem House.same (house : House o s) (calls : housekeepings s'.calls = housekeepings s.calls)
    (next : s'.next_housekeeping = s.next_housekeeping) : House o s' :=
  ⟨calls ▸ house.apart, by rw [calls, next]; exact house.due⟩

theorem House.housekeeping (house : House o s) {now : ℚ} (due : s.next_housekeeping < now) :
    House o (s._runHousekeeping o now) := by
  have calls : housekeepings (s._runHousekeeping o now).calls = housekeepings s.calls ++ [now] := by
    simp [State._runHousekeeping, State.call, housekeepings, housekeepingOf]
  refine ⟨?_, ?_⟩
  · rw [calls]
    refine house.apart.append (by simp) fun last there now' is => ?_
    obtain rfl : now = now' := by simpa using is
    rwa [← house.due last there]
  · rw [calls]
    simp [State._runHousekeeping]

section Parts

theorem House.opens (house : House o s) (going : s.stopping = false) : House o (s.opens o) := by
  unfold State.opens
  rw [going, Bool.or_false]
  split
  · next due => exact house.housekeeping (by simpa using due)
  · split
    · exact house.same (by simp [State.call, housekeepings, housekeepingOf]) rfl
    · exact house

theorem House.works (house : House o s) (works : s.works o t = some s') : House o s' := by
  unfold State.works at works
  split at works
  · obtain ⟨⟨s₁, incoming⟩, gathers, rfl⟩ := Option.map_eq_some_iff.mp works
    have gathered : House o s₁ := by
      unfold State.gathers at gathers
      split at gathers
      · cases gathers
        exact house
      · obtain ⟨_, _, gathered⟩ := Option.map_eq_some_iff.mp gathers
        cases gathered
        exact house.same (by simp [State.call, housekeepings, housekeepingOf]) rfl
    exact gathered.same
      (by simp [State.processes, State.call, housekeepings, housekeepingOf]) rfl
  · cases works
    exact house

theorem House.please_stop (house : House o s) : House o s.please_stop :=
  house.same (by simp [State.please_stop, State.call, housekeepings, housekeepingOf]) rfl

theorem House.counts (house : House o s) : House o ((s.reads t).counts o) := by
  have reads : House o (s.reads t) := house.same rfl rfl
  unfold State.counts
  split
  · exact reads.please_stop
  · exact reads

theorem House.idles (house : House o s) (patient : 0 ≤ o.sleep ∨ o.retryEmptyBeforeExit = false) :
    House o (s.idles o) := by
  unfold State.idles
  split
  · next idle =>
    have waits : o.retryEmptyBeforeExit = false := patient.resolve_left (not_le.mpr idle.2)
    rw [waits]
    exact house.please_stop
  · exact house

/-- When the turn comes to its end, no housekeeping is due. -/
theorem House.keeps_house (house : House o s) (going : s.stopping = false) :
    House o (s.keeps_house o) ∧
      (0 ≤ o.housekeeping → (s.keeps_house o).now ≤ (s.keeps_house o).next_housekeeping) := by
  unfold State.keeps_house
  rw [going, Bool.or_false]
  split
  · next due =>
    refine ⟨house.housekeeping (by simpa using due), fun interval => ?_⟩
    show s.now ≤ s.now + o.housekeeping
    linarith
  · next early => exact ⟨house, fun _ => not_lt.mp (by simpa using early)⟩

/-- Housekeeping in a nap makes the next one due later. -/
theorem House.naps {naps : Nat → Nap} (house : House o s) (n k : Nat) (stime : ℚ) :
    House o (s.naps o naps n k stime) ∧ (s.naps o naps n k stime).now = s.now ∧
      (0 ≤ o.housekeeping → s.next_housekeeping ≤ (s.naps o naps n k stime).next_housekeeping) := by
  induction n generalizing s k stime with
  | zero => exact ⟨house, rfl, fun _ => le_rfl⟩
  | succ n ih =>
    have nap : House o (s.nap (min 5 stime) (naps k)) :=
      house.same (by simp [State.nap, State.call, housekeepings, housekeepingOf]) rfl
    unfold State.naps
    split
    · exact ⟨house, rfl, fun _ => le_rfl⟩
    · split
      · exact ⟨nap, rfl, fun _ => le_rfl⟩
      · unfold State.looks
        split
        · next due =>
          obtain ⟨rest, now, later⟩ := ih (nap.housekeeping due) (k + 1) (stime - min 5 stime)
          refine ⟨rest, now, fun interval => le_trans ?_ (later interval)⟩
          show s.next_housekeeping ≤ (naps k).now + o.housekeeping
          have : s.next_housekeeping < (naps k).now := due
          linarith
        · exact ih nap (k + 1) (stime - min 5 stime)

theorem House.sleeps {throttled : ℚ} (house : House o s) :
    House o (s.sleeps o t throttled) ∧ (s.sleeps o t throttled).now = s.now ∧
      (0 ≤ o.housekeeping →
        s.next_housekeeping ≤ (s.sleeps o t throttled).next_housekeeping) := by
  unfold State.sleeps
  split
  · exact ⟨house.same rfl rfl, rfl, fun _ => le_rfl⟩
  · next stime _ =>
    split
    · exact ⟨house.same rfl rfl, rfl, fun _ => le_rfl⟩
    · split
      · exact ⟨house, rfl, fun _ => le_rfl⟩
      · obtain ⟨naps, now, later⟩ := house.naps ⌈stime / 5⌉₊ 0 stime
        exact ⟨naps.same rfl rfl, now, later⟩

end Parts

section Runs

/-- The house of a flow that is not stopping, and when the next housekeeping is due after a turn. -/
def Kept (o : Options) (turns : List (Turn μ)) (s : State μ) : Prop :=
  s.stopping = false → s.ended = false → House o s ∧
    (0 ≤ o.housekeeping → turns ≠ [] → s.now ≤ s.next_housekeeping)

theorem kept_step {turns : List (Turn μ)} (patient : 0 ≤ o.sleep ∨ o.retryEmptyBeforeExit = false)
    (kept : Kept o turns s) (shape : Shape s) (next : step o s t = some s') :
    Kept o (turns ++ [t]) s' := by
  intro going running
  obtain ⟨before, ⟨-, -, rfl⟩ | ⟨-, worked, works, rfl⟩⟩ := step_cases next
  · exact absurd running nofun
  · have adds := turn_adds works
    have begun : (s.begins t).stopping = false := adds.stopping.symm.trans going
    have still : s.stopping = false := by
      by_contra stopping
      have asked := shape.asked (by simpa using stopping)
      simp [State.begins, asked] at begun
    have vip : House o ((s.begins t)._run_vip_update o t.has_vip) := by
      unfold State._run_vip_update
      split <;> exact (kept still before).1.same rfl rfl
    have vipGoing : ((s.begins t)._run_vip_update o t.has_vip).stopping = false :=
      (vip_adds t.has_vip).stopping.trans begun
    have idles : House o (((worked.reads t).counts o).idles o) :=
      ((vip.opens vipGoing).works works).counts.idles patient
    have slowed : House o ((((worked.reads t).counts o).idles o).slows o) := idles.same rfl rfl
    have slowedGoing : ((((worked.reads t).counts o).idles o).slows o).stopping = false :=
      ((reads_adds.trans counts_adds).trans (idles_adds.trans slows_adds)).stopping.trans
        ((works_adds works).stopping.trans (opens_adds.stopping.trans vipGoing))
    obtain ⟨house, early⟩ := slowed.keeps_house slowedGoing
    obtain ⟨rests, now, later⟩ := house.sleeps (t := t)
    refine ⟨rests, fun interval _ => ?_⟩
    rw [State.rests, now]
    exact (early interval).trans (later interval)

structure Spaced (o : Options) (turns : List (Turn μ)) (s : State μ) : Prop where
  shape : Shape s
  kept : Kept o turns s

/-- In every run, until the flow stops. -/
theorem spaced {before now : ℚ} {novip : Bool} {turns : List (Turn μ)}
    (patient : 0 ≤ o.sleep ∨ o.retryEmptyBeforeExit = false)
    (run : Runs (step o) (fun _ _ => True) (State.start o before now novip) turns s) :
    Spaced o turns s := by
  have start : Spaced o ([] : List (Turn μ)) (State.start o before now novip) :=
    ⟨⟨nofun, nofun, [], [], rfl, nofun, rfl⟩,
      fun _ _ => ⟨⟨by simp [State.start, housekeepings],
        by simp [State.start, housekeepings]⟩, fun _ some_ => absurd rfl some_⟩⟩
  refine run.keeps_with start fun taken s t s' spaced _ next => ?_
  exact ⟨shape_step spaced.shape next, kept_step patient spaced.kept spaced.shape next⟩

/-- Two turns that are long apart. -/
def late : List (Turn Nat) := [quiet false 301 305, quiet false 700 705]

theorem late_runs : (after (step quietOptions) (fun _ _ => True)
    (State.start quietOptions 0 0 false) late).isSome := by
  decide +kernel

theorem spaced_late :
    ∃ s : State Nat, housekeepings s.calls = [301, 700] ∧ Spaced quietOptions late s :=
  ⟨_, by decide +kernel, spaced (.inl (by decide +kernel)) (.of_isSome late_runs)⟩

end Runs
end Sarracenia.Guarantees.FlowRun

/-!
## How often a flow takes its turns

* what a turn leaves of the clock and of the sleep it has to keep (`Clock`, `clock_step`);
* the naps of a turn add up, unless a stop is requested (`slept_naps`);
* a flow that sleeps takes no more turns than the sleep allows (`paced`).
-/
namespace Sarracenia.Guarantees.FlowRun
open Library Source.FlowRun
variable {μ : Type} {o : Options} {s s' : State μ} {t : Turn μ}

section Naps

def napOf : Call μ → ℚ
  | .sleep increment => increment
  | _ => 0

/-- How long was slept. -/
def slept (calls : List (Call μ)) : ℚ := (calls.map napOf).sum

@[simp] theorem slept_append (calls more : List (Call μ)) :
    slept (calls ++ more) = slept calls + slept more := by simp [slept]

theorem slept_looks (now : ℚ) : slept (s.looks o now).calls = slept s.calls := by
  unfold State.looks
  split <;> simp [State._runHousekeeping, State.call, slept, napOf]

/-- The naps add up to what was to be slept, if no stop is requested in one of them. -/
theorem slept_naps {naps : Nat → Nap} {n k : Nat} {stime : ℚ} (enough : stime ≤ 5 * n)
    (some_ : 0 ≤ stime) (free : (s.naps o naps n k stime).stop_requested = false) :
    slept (s.naps o naps n k stime).calls = slept s.calls + stime := by
  induction n generalizing s k stime with
  | zero =>
    have : stime = 0 := by
      push_cast at enough
      linarith
    simp [State.naps, this]
  | succ n ih =>
    unfold State.naps at free ⊢
    split
    · next done =>
      have : stime = 0 := by linarith
      simp [this]
    · next more =>
      rw [if_neg more] at free
      split
      · next asked =>
        rw [if_pos asked] at free
        exact absurd asked (by simp [free])
      · next going =>
        rw [if_neg going] at free
        have left : stime - min 5 stime ≤ 5 * n := by
          push_cast at enough
          rcases le_total 5 stime with long | short
          · rw [min_eq_left long]
            linarith
          · rw [min_eq_right short]
            simp
        rw [ih left (sub_nonneg.mpr (min_le_right _ _)) free, slept_looks]
        simp [State.nap, State.call, slept, napOf]

theorem slept_adds (adds : Adds Awake s s') : slept s'.calls = slept s.calls := by
  obtain ⟨more, calls, awake⟩ := adds.calls
  have none_ : slept more = 0 := by
    refine List.sum_eq_zero fun q there => ?_
    obtain ⟨c, member, rfl⟩ := List.mem_map.mp there
    cases c with
    | sleep increment => exact absurd rfl ((awake _ member).2 increment)
    | _ => rfl
  rw [calls, slept_append, none_, add_zero]

end Naps

section Clock

/-- The times that a part of a turn leaves as they were. -/
structure SameClock (s s' : State μ) : Prop where
  last_time : s'.last_time = s.last_time
  current_sleep : s'.current_sleep = s.current_sleep

theorem SameClock.trans {s'' : State μ} (first : SameClock s s') (second : SameClock s' s'') :
    SameClock s s'' :=
  ⟨second.last_time.trans first.last_time, second.current_sleep.trans first.current_sleep⟩

theorem begins_clock (has_vip : Bool) :
    SameClock s (((s.begins t)._run_vip_update o has_vip).opens o) := by
  unfold State.opens State._run_vip_update
  split <;> split <;> (try split) <;> exact ⟨rfl, rfl⟩

theorem works_clock (works : s.works o t = some s') :
    s'.last_time = s.last_time ∧
      (s'.current_sleep = s.current_sleep ∨ s'.current_sleep = o.sleep) := by
  unfold State.works at works
  split at works
  · obtain ⟨⟨s₁, incoming⟩, gathers, rfl⟩ := Option.map_eq_some_iff.mp works
    have same : SameClock s s₁ := by
      unfold State.gathers at gathers
      split at gathers
      · cases gathers
        exact ⟨rfl, rfl⟩
      · obtain ⟨_, _, gathered⟩ := Option.map_eq_some_iff.mp gathers
        cases gathered
        exact ⟨rfl, rfl⟩
    refine ⟨same.last_time, ?_⟩
    simp only [State.processes]
    split
    · exact .inl same.current_sleep
    · exact .inr rfl
  · cases works
    exact ⟨rfl, .inl rfl⟩

theorem counts_clock : SameClock s ((s.reads t).counts o) := by
  unfold State.counts
  split <;> exact ⟨rfl, rfl⟩

/-- A flow that sleeps does not stop because there is nothing to do. -/
theorem idles_of_sleep (sleep : 0 < o.sleep) : s.idles o = s := by
  unfold State.idles
  rw [if_neg fun idle => lt_asymm sleep idle.2]

theorem keeps_house_clock : SameClock s (s.keeps_house o) := by
  unfold State.keeps_house
  split <;> exact ⟨rfl, rfl⟩

theorem slows_current_sleep : (s.slows o).current_sleep =
    min o.sleepMax (if s.spamming then 2 * s.current_sleep else s.current_sleep) := by
  simp only [State.slows]
  generalize (if s.spamming then 2 * s.current_sleep else s.current_sleep) = doubled
  split
  · next more => exact (min_eq_left more.le).symm
  · next less => exact (min_eq_right (not_lt.mp less)).symm

theorem naps_clock {naps : Nat → Nap} (n k : Nat) (stime : ℚ) :
    (s.naps o naps n k stime).current_sleep = s.current_sleep := by
  induction n generalizing s k stime with
  | zero => rfl
  | succ n ih =>
    unfold State.naps
    split
    · rfl
    · split
      · rfl
      · rw [ih]
        unfold State.looks
        split <;> rfl

theorem throttle_nonneg (rate : ℚ) : 0 ≤ throttle o rate := by
  unfold throttle
  split
  · next limited =>
    have := div_nonneg (sub_nonneg.mpr limited.2) limited.1.le
    linarith
  · exact le_rfl

end Clock

section Paced

/-- After its naps the clock shows at least as much more as they were to take. -/
def Timely (t : Turn μ) (s s' : State μ) : Prop :=
  t.now + (slept s'.calls - slept s.calls) ≤ t.woken

theorem sleeps_clock {throttled : ℚ} (now : s.now = t.now) (sleeping : 0 < s.current_sleep)
    (some_ : 0 ≤ throttled) (free : (s.sleeps o t throttled).stop_requested = false)
    (timely : Timely t s (s.sleeps o t throttled)) :
    (s.sleeps o t throttled).current_sleep = s.current_sleep ∧
      s.last_time + s.current_sleep ≤ (s.sleeps o t throttled).last_time := by
  by_cases short : s.now - s.last_time < s.current_sleep
  · have whole : s.stime throttled =
        some (throttled + (s.current_sleep - (s.now - s.last_time))) := by
      simp [State.stime, sleeping, short]
    generalize stime : throttled + (s.current_sleep - (s.now - s.last_time)) = sleep at whole
    have positive : 0 < sleep := by linarith
    simp only [State.sleeps, whole] at free timely ⊢
    split at free
    · exact absurd free nofun
    · next going =>
      rw [if_neg going, if_neg (not_le.mpr positive)] at timely ⊢
      rw [if_neg (not_le.mpr positive)] at free
      have all := slept_naps (by
        have := Nat.le_ceil (sleep / 5)
        linarith) positive.le free
      refine ⟨naps_clock _ _ _, ?_⟩
      simp only [Timely, all] at timely
      show s.last_time + s.current_sleep ≤ t.woken
      linarith
  · have none_ : s.stime throttled = none := by simp [State.stime, sleeping, short]
    simp only [State.sleeps, none_, true_and]
    linarith

/-- The least sleep that a flow keeps between two turns. -/
def leastSleep (o : Options) : ℚ := min o.sleep o.sleepMax

/-- Between two turns there is what the second one has left of the sleep to keep. -/
theorem paced_step (sleep : 0 < o.sleep) (sleepMax : 0 < o.sleepMax)
    (kept : leastSleep o ≤ s.current_sleep) (next : step o s t = some s')
    (free : s'.stop_requested = false) (timely : Timely t s s') :
    leastSleep o ≤ s'.current_sleep ∧ s'.current_sleep ≤ o.sleepMax ∧
      s.last_time + s'.current_sleep ≤ s'.last_time := by
  obtain ⟨-, ⟨-, -, rfl⟩ | ⟨-, worked, works, rfl⟩⟩ := step_cases next
  · exact absurd free nofun
  · have begins := begins_clock (s := s) (t := t) (o := o) t.has_vip
    obtain ⟨last_time, current_sleep⟩ := works_clock works
    have counts : SameClock worked ((worked.reads t).counts o) := counts_clock
    have awake := slept_adds (turn_awake works)
    have now : ((((worked.reads t).counts o).slows o).keeps_house o).now = t.now := by
      unfold State.keeps_house State.counts
      split <;> split <;> rfl
    have before : leastSleep o ≤ ((worked.reads t).counts o).current_sleep := by
      rw [counts.current_sleep]
      rcases current_sleep with is | is <;> rw [is]
      · rwa [begins.current_sleep]
      · exact min_le_left _ _
    have least : 0 < leastSleep o := lt_min sleep sleepMax
    have slowed := slows_current_sleep (s := (worked.reads t).counts o) (o := o)
    have bounds : leastSleep o ≤ (((worked.reads t).counts o).slows o).current_sleep ∧
        (((worked.reads t).counts o).slows o).current_sleep ≤ o.sleepMax := by
      rw [slowed]
      refine ⟨le_min (min_le_right _ _) ?_, min_le_left _ _⟩
      split <;> linarith
    have house : SameClock (((worked.reads t).counts o).slows o)
        ((((worked.reads t).counts o).slows o).keeps_house o) := keeps_house_clock
    have start : (((worked.reads t).counts o).slows o).last_time = s.last_time :=
      (counts.last_time.trans last_time).trans begins.last_time
    rw [← house.current_sleep] at bounds
    rw [← house.last_time] at start
    have rate := throttle_nonneg (o := o) (((worked.reads t).counts o).total_messages /
      (((worked.reads t).counts o).now - ((worked.reads t).counts o).start_time))
    rw [State.rests, idles_of_sleep sleep] at free timely ⊢
    rw [idles_of_sleep sleep] at awake
    generalize throttle o _ = throttled at *
    generalize (((worked.reads t).counts o).slows o).keeps_house o = k at *
    rw [Timely, ← show slept k.calls = slept s.calls from awake] at timely
    obtain ⟨same, later⟩ := sleeps_clock now (least.trans_le bounds.1) rate free timely
    rw [same, ← start]
    exact ⟨bounds.1, bounds.2, later⟩

/-- How far a flow is after some turns, in which no stop was requested: the sleep to keep is between
the least one and `sleepMax`, and the turns took the least one each. -/
def Pace (o : Options) (now : ℚ) (turns : List (Turn μ)) (s : State μ) : Prop :=
  s.stop_requested = false → leastSleep o ≤ s.current_sleep ∧
    (turns ≠ [] → s.current_sleep ≤ o.sleepMax) ∧ now + turns.length * leastSleep o ≤ s.last_time

/-- After a turn of one second, in which the flow sleeps for another one. -/
def rested : State Nat :=
  (step quietOptions (State.start quietOptions 0 0 false) (quiet false 1 3)).get (by decide +kernel)

end Paced
end Sarracenia.Guarantees.FlowRun
