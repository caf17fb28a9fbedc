import Sarracenia.Library.Runs
import Sarracenia.Source.FlowRun
import Mathlib.Tactic.Linarith

/-!
# Turns of the loop, and how it ends

* what each part of a turn may call (`opens_adds` to `sleeps_adds`), and what a turn can do
  (`step_cases`);
* a run calls `on_stop` once, at its end, after a last turn without `gather`, and no third turn
  begins once a stop is requested (`shutdown`).
-/
namespace Sarracenia.Guarantees.FlowRun
open Library Source.FlowRun
variable {μ : Type} {o : Options} {s s' s'' : State μ} {t : Turn μ}

section Adds
variable {P : Call μ → Prop}

/-- Some calls are added. Whether the flow is stopping or has ended is as before, and a request to
stop is never taken back. -/
structure Adds (P : Call μ → Prop) (s s' : State μ) : Prop where
  calls : ∃ more, s'.calls = s.calls ++ more ∧ ∀ c ∈ more, P c
  stopping : s'.stopping = s.stopping
  ended : s'.ended = s.ended
  asked : s.stop_requested = true → s'.stop_requested = true

theorem Adds.refl (P : Call μ → Prop) (s : State μ) : Adds P s s :=
  ⟨⟨[], (List.append_nil _).symm, by simp⟩, rfl, rfl, id⟩

theorem Adds.trans (first : Adds P s s') (second : Adds P s' s'') : Adds P s s'' := by
  obtain ⟨more, calls, all⟩ := first.calls
  obtain ⟨more', calls', all'⟩ := second.calls
  refine ⟨⟨more ++ more', by rw [calls', calls, List.append_assoc], ?_⟩,
    second.stopping.trans first.stopping, second.ended.trans first.ended,
    fun asked => second.asked (first.asked asked)⟩
  simpa [or_imp, forall_and] using ⟨all, all'⟩

theorem Adds.mono {Q : Call μ → Prop} (adds : Adds P s s') (implied : ∀ c, P c → Q c) :
    Adds Q s s' := by
  obtain ⟨more, calls, all⟩ := adds.calls
  exact ⟨⟨more, calls, fun c there => implied c (all c there)⟩, adds.stopping, adds.ended,
    adds.asked⟩

/-- Nothing is called, and nothing that counts here changes. -/
theorem Adds.of_eq (calls : s'.calls = s.calls) (stopping : s'.stopping = s.stopping)
    (ended : s'.ended = s.ended) (asked : s.stop_requested = true → s'.stop_requested = true) :
    Adds P s s' := ⟨⟨[], by simp [calls], by simp⟩, stopping, ended, asked⟩

theorem Adds.call {c : Call μ} (holds : P c) : Adds P s (s.call c) :=
  ⟨⟨[c], rfl, by simpa using holds⟩, rfl, rfl, id⟩

end Adds

section Parts

/-- What a flow that winds up still calls between the two housekeepings. -/
inductive Winding : Call μ → Prop where
  | filter : Winding (.filter [])
  | work : Winding .work
  | post (retriesOnly : Bool) : Winding (.post retriesOnly)
  | please_stop : Winding .please_stop

def NotStop (c : Call μ) : Prop := c ≠ .on_stop

/-- Neither the end nor a nap. -/
def Awake (c : Call μ) : Prop := c ≠ .on_stop ∧ ∀ increment, c ≠ .sleep increment

theorem Awake.notStop {c : Call μ} (awake : Awake c) : NotStop c := awake.1

theorem Winding.awake {c : Call μ} (winding : Winding c) : Awake c := by
  cases winding <;> simp [Awake]

theorem housekeeping_adds (now : ℚ) : Adds Awake s (s._runHousekeeping o now) :=
  ⟨⟨[.on_housekeeping now], rfl, by simp [Awake]⟩, rfl, rfl, id⟩

theorem vip_adds (has_vip : Bool) : Adds Winding s (s._run_vip_update o has_vip) := by
  unfold State._run_vip_update
  split <;> exact .of_eq rfl rfl rfl id

theorem vip_calls (has_vip : Bool) : (s._run_vip_update o has_vip).calls = s.calls := by
  unfold State._run_vip_update
  split <;> rfl

theorem opens_adds : Adds Awake s (s.opens o) := by
  unfold State.opens
  split
  · exact housekeeping_adds _
  · split
    · exact .call ⟨nofun, nofun⟩
    · exact .refl _ s

theorem opens_stopping (stopping : s.stopping = true) : s.opens o = s._runHousekeeping o s.now := by
  simp [State.opens, stopping]

theorem reads_adds : Adds Winding s (s.reads t) := .of_eq rfl rfl rfl id

theorem counts_adds : Adds Winding s (s.counts o) := by
  unfold State.counts
  split
  · exact ⟨⟨[.please_stop], rfl, by simpa using Winding.please_stop⟩, rfl, rfl, fun _ => rfl⟩
  · exact .refl _ s

theorem idles_adds : Adds Winding s (s.idles o) := by
  unfold State.idles
  split
  · split
    · exact .of_eq rfl rfl rfl id
    · exact ⟨⟨[.please_stop], rfl, by simpa using Winding.please_stop⟩, rfl, rfl, fun _ => rfl⟩
  · exact .refl _ s

theorem slows_adds : Adds Winding s (s.slows o) := .of_eq rfl rfl rfl id

theorem keeps_house_adds : Adds Awake s (s.keeps_house o) := by
  unfold State.keeps_house
  split
  · exact housekeeping_adds _
  · exact .refl _ s

theorem keeps_house_stopping (stopping : s.stopping = true) :
    s.keeps_house o = s._runHousekeeping o s.now := by simp [State.keeps_house, stopping]

theorem naps_adds {naps : Nat → Nap} (n k : Nat) (stime : ℚ) :
    Adds NotStop s (s.naps o naps n k stime) := by
  induction n generalizing s k stime with
  | zero => exact .refl _ s
  | succ n ih =>
    have nap : Adds NotStop s (s.nap (min 5 stime) (naps k)) :=
      ⟨⟨[.sleep (min 5 stime)], rfl, by simp [NotStop]⟩, rfl, rfl, by simp +contextual [State.nap]⟩
    have looks (s : State μ) (now : ℚ) : Adds NotStop s (s.looks o now) := by
      unfold State.looks
      split
      · exact (housekeeping_adds now).mono fun _ => Awake.notStop
      · exact .refl _ s
    unfold State.naps
    split
    · exact .refl _ s
    · split
      · exact nap
      · exact (nap.trans (looks _ _)).trans (ih _ _)

theorem sleeps_adds (throttled : ℚ) : Adds NotStop s (s.sleeps o t throttled) := by
  unfold State.sleeps
  split
  · exact .of_eq rfl rfl rfl (by simp +contextual)
  · next stime _ =>
    split
    · exact .of_eq rfl rfl rfl fun _ => rfl
    · split
      · exact .refl _ s
      · exact (naps_adds ⌈stime / 5⌉₊ 0 stime).trans (.of_eq rfl rfl rfl id)

/-- A flow that is to stop does not sleep. -/
theorem sleeps_asked (asked : s.stop_requested = true) (throttled : ℚ) :
    (s.sleeps o t throttled).calls = s.calls := by
  unfold State.sleeps
  split
  · rfl
  · rw [asked, Bool.true_or, if_pos rfl]

theorem processes_adds (incoming : List μ) : Adds Awake s (s.processes o t incoming) :=
  ⟨⟨[.filter incoming, .work, .post (o.poll && s.last_poll_gather_len = 0)],
    by simp [State.processes, State.call], by simp [Awake]⟩, rfl, rfl, id⟩

theorem works_adds (works : s.works o t = some s') : Adds Awake s s' := by
  unfold State.works at works
  split at works
  · obtain ⟨⟨s₁, incoming⟩, gathers, rfl⟩ := Option.map_eq_some_iff.mp works
    refine .trans ?_ (processes_adds incoming)
    unfold State.gathers at gathers
    split at gathers
    · cases gathers
      exact .refl _ s
    · obtain ⟨_, _, gathered⟩ := Option.map_eq_some_iff.mp gathers
      cases gathered
      exact .trans (.call (c := .gather) ⟨nofun, nofun⟩) (.of_eq rfl rfl rfl id)
  · cases works
    exact .refl _ s

theorem works_stopping (works : s.works o t = some s') (stopping : s.stopping = true) :
    Adds Winding s s' := by
  unfold State.works State.gathers at works
  rw [if_pos stopping] at works
  split at works
  · cases works
    refine ⟨⟨[.filter [], .work, .post (o.poll && s.last_poll_gather_len = 0)],
      by simp [State.processes, State.call], ?_⟩, rfl, rfl, id⟩
    simpa using ⟨Winding.filter, Winding.work, Winding.post _⟩
  · cases works
    exact .refl _ s

end Parts

section Steps

/-- A turn is the end, or one that begins and goes on. -/
theorem step_cases (next : step o s t = some s') :
    s.ended = false ∧
      (((s.stop_requested || t.stop) = true ∧ s.stopping = true ∧
          s' = { s.close with stop_requested := true }) ∨
        ((s.stop_requested || t.stop) = true → s.stopping = false) ∧ ∃ worked,
          (((s.begins t)._run_vip_update o t.has_vip).opens o).works o t = some worked ∧
            s' = ((worked.reads t).counts o).rests o t) := by
  unfold step at next
  split at next
  · cases next
  · next ended =>
    refine ⟨by simpa using ended, ?_⟩
    split at next
    · next both =>
      rw [Bool.and_eq_true] at both
      exact .inl ⟨both.1, both.2, (Option.some.inj next).symm⟩
    · next both =>
      obtain ⟨worked, works, next⟩ := Option.bind_eq_some_iff.mp next
      split at next
      · cases next
      · exact .inr ⟨fun asked => by simpa [asked] using both, worked, works,
          (Option.some.inj next).symm⟩

/-- The calls of a turn before its naps. -/
theorem turn_awake {worked : State μ}
    (works : (((s.begins t)._run_vip_update o t.has_vip).opens o).works o t = some worked) :
    Adds Awake (s.begins t) (((((worked.reads t).counts o).idles o).slows o).keeps_house o) :=
  (((vip_adds t.has_vip).mono fun _ => Winding.awake).trans opens_adds).trans <|
    (works_adds works).trans <|
      ((reads_adds.trans counts_adds).trans (idles_adds.trans slows_adds) |>.mono
        fun _ => Winding.awake).trans keeps_house_adds

theorem turn_adds {worked : State μ}
    (works : (((s.begins t)._run_vip_update o t.has_vip).opens o).works o t = some worked) :
    Adds NotStop (s.begins t) (((worked.reads t).counts o).rests o t) :=
  ((turn_awake works).mono fun _ => Awake.notStop).trans (sleeps_adds _)

/-- A request to stop is never taken back. -/
theorem asked_step (next : step o s t = some s') (asked : s.stop_requested = true) :
    s'.stop_requested = true := by
  obtain ⟨-, ⟨-, -, rfl⟩ | ⟨-, worked, works, rfl⟩⟩ := step_cases next
  · rfl
  · exact (turn_adds works).asked (by simp [State.begins, asked])

/-- The calls of the last turn. -/
def LastTurn (last : List (Call μ)) : Prop :=
  ∃ before middle now, last = .on_housekeeping before :: middle ++ [.on_housekeeping now] ∧
    ∀ c ∈ middle, Winding c

theorem last_turn {worked : State μ} (asked : (s.stop_requested || t.stop) = true)
    (works : (((s.begins t)._run_vip_update o t.has_vip).opens o).works o t = some worked) :
    ∃ last, (((worked.reads t).counts o).rests o t).calls = s.calls ++ last ∧ LastTurn last := by
  have stopping : (s.begins t).stopping = true := asked
  have vip : Adds Winding (s.begins t) ((s.begins t)._run_vip_update o t.has_vip) := vip_adds _
  rw [opens_stopping (vip.stopping.trans stopping)] at works
  generalize stamp : ((s.begins t)._run_vip_update o t.has_vip).now = before at works
  have winds : Adds Winding _ ((((worked.reads t).counts o).idles o).slows o) :=
    ((works_stopping works (vip.stopping.trans stopping)).trans reads_adds).trans
      (counts_adds.trans (idles_adds.trans slows_adds))
  rw [State.rests]
  generalize throttle o _ = throttled
  generalize (((worked.reads t).counts o).idles o).slows o = slowed at winds ⊢
  obtain ⟨middle, calls, winding⟩ := winds.calls
  have requested : (slowed._runHousekeeping o slowed.now).stop_requested = true :=
    winds.asked (vip.asked asked)
  refine ⟨.on_housekeeping before :: middle ++ [.on_housekeeping slowed.now], ?_, before, middle, _,
    rfl, winding⟩
  rw [keeps_house_stopping (winds.stopping.trans (vip.stopping.trans stopping)),
    sleeps_asked requested]
  simp only [State._runHousekeeping, State.call, calls, vip_calls]
  simp [State.begins]

end Steps

section Runs

/-- A flow that is stopping was asked to. It has had its last turn, and ends with `on_stop`. -/
structure Shape (s : State μ) : Prop where
  asked : s.stopping = true → s.stop_requested = true
  ended : s.ended = true → s.stopping = true
  calls : ∃ turns last, s.calls = turns ++ last ++ (if s.ended then [.on_stop] else []) ∧
    (∀ c ∈ turns, NotStop c) ∧ if s.stopping then LastTurn last else last = []

theorem shape_step (shape : Shape s) (next : step o s t = some s') : Shape s' := by
  obtain ⟨turns, last, calls, noStop, shaped⟩ := shape.calls
  obtain ⟨running, ⟨-, stopping, rfl⟩ | ⟨first, worked, works, rfl⟩⟩ := step_cases next
  · refine ⟨fun _ => rfl, fun _ => stopping, turns, last, ?_, noStop, shaped⟩
    simp [State.close, State.call, calls, running]
  · have adds := turn_adds works
    have ended := adds.ended.trans running
    refine ⟨fun stopping => adds.asked (adds.stopping.symm.trans stopping), fun is => ?_, ?_⟩
    · exact absurd (is.symm.trans ended) nofun
    · rw [ended]
      cases asked : s.stop_requested || t.stop with
      | true =>
        obtain ⟨last', more, winds⟩ := last_turn asked works
        rw [first asked, if_neg Bool.false_ne_true] at shaped
        refine ⟨turns, last', by simp [more, calls, running, shaped], noStop, ?_⟩
        rwa [if_pos (adds.stopping.trans asked)]
      | false =>
        obtain ⟨more, called, noStop'⟩ := adds.calls
        have before : s.stopping = false := by
          by_contra stopping
          have := shape.asked (by simpa using stopping)
          simp [this] at asked
        rw [before, if_neg Bool.false_ne_true] at shaped
        refine ⟨turns ++ more, [], ?_, ?_, ?_⟩
        · simp [called, State.begins, calls, running, shaped]
        · simpa [or_imp, forall_and] using ⟨noStop, noStop'⟩
        · rw [adds.stopping, State.begins, asked, if_neg Bool.false_ne_true]

/-- In every run: what is called before the end, that nothing is called after it, and that no third
turn begins once a stop is requested. -/
theorem shutdown {before now : ℚ} {novip : Bool} {turns : List (Turn μ)}
    (run : Runs (step o) (fun _ _ => True) (State.start o before now novip) turns s) :
    Shape s ∧ (s.ended = true → ∀ t, step o s t = none) ∧
      ∀ t t' s₁ s₂, s.stop_requested = true → step o s t = some s₁ → step o s₁ t' = some s₂ →
        s₂.ended = true := by
  have shape : Shape s := run.keeps ⟨nofun, nofun, [], [], rfl, nofun, rfl⟩
    fun _ _ _ shape _ next => shape_step shape next
  refine ⟨shape, fun ended t => by simp [step, ended], fun t t' s₁ s₂ asked first second => ?_⟩
  obtain ⟨-, ⟨-, -, rfl⟩ | ⟨-, worked, works, rfl⟩⟩ := step_cases first
  · simp [step, State.close] at second
  · have adds := turn_adds works
    have asked' : (s.begins t).stopping = true := by simp [State.begins, asked]
    have stopping := adds.stopping.trans asked'
    have requested := adds.asked asked'
    obtain ⟨-, ⟨-, -, rfl⟩ | ⟨running, -⟩⟩ := step_cases second
    · rfl
    · exact absurd (running (by simp [requested])) (by simp [stopping])

/-! ### A quiet flow -/

def quietOptions : Options where
  poll := false
  batch := 100
  housekeeping := 300
  sleep := 1
  sleepMax := 10
  messageCountMax := 0
  messageRateMax := 0
  retryEmptyBeforeExit := false

def quiet (stop : Bool) (now woken : ℚ) : Turn Nat where
  stop := stop
  has_vip := true
  gathers := [.list []]
  polls := []
  kept := 0
  retry := none
  now := now
  stopLate := false
  naps _ := ⟨false, woken⟩
  woken := woken

/-- A stop is requested after the first turn. -/
def stopped : List (Turn Nat) := [quiet false 1 3, quiet true 4 4, quiet false 5 5]

theorem stopped_runs : (after (step quietOptions) (fun _ _ => True)
    (State.start quietOptions 0 0 false) stopped).isSome := by
  decide +kernel

theorem shutdown_stopped :
    ∃ s : State Nat, s.ended = true ∧
      (Shape s ∧ (s.ended = true → ∀ t, step quietOptions s t = none) ∧
        ∀ t t' s₁ s₂, s.stop_requested = true → step quietOptions s t = some s₁ →
          step quietOptions s₁ t' = some s₂ → s₂.ended = true) :=
  ⟨_, by decide +kernel, shutdown (.of_isSome stopped_runs)⟩

end Runs
end Sarracenia.Guarantees.FlowRun
