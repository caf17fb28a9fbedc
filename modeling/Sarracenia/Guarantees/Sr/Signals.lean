import Sarracenia.Source.SrActions

/-!
# The signals of `stop`

In the attempts `stop` signals only old processes that nobody claims. Its first signals and its last ones go
to every stray, however young, and a flow passes for one in the background if the process of its first pid
file runs there.
-/
namespace Sarracenia.Guarantees.Sr.Signals
open Library Library.Text Source.Sr

variable {μ : Type} (accumulate : ℚ → Nat → List μ → Metrics) (configs : Configs) (cmd : Command)

/-! ## What may be signalled -/

section Allowed
variable (g : Global)

/-- The pid file of some instance of the flow names the process. -/
def Names (f : Flow) (pid : Nat) : Prop := ∃ i, (g.seen f).instance_pids.get i = some pid

/-- A process of the flow runs in the foreground. -/
def Foreground (f : Flow) : Prop := ∃ pid, Names g f pid ∧ pid_running_foreground g.procs pid = true

/-- A selected flow names the process, and does not run in the foreground or may be stopped there. -/
def Claimable (pid : Nat) : Prop :=
  ∃ f ∈ filtered_configurations configs cmd, Names g f pid ∧ (cmd.dangerWillRobinson ≠ 0 ∨ ¬ Foreground g f)

/-- No pid file names the process, and it is more than 50 seconds old. -/
def Forgotten (pid : Nat) : Prop :=
  (∀ f ∈ candidates configs, ¬ Names g f pid) ∧ ∃ p, g.procs.get pid = some p ∧ 50 < g.now - p.create_time

def Allowed (pid : Nat) : Prop := Claimable configs cmd g pid ∨ Forgotten configs g pid

/-- Each signal goes to a process that may have it, by what was read last. -/
def Lawful (acts : List Act) : Prop :=
  ∀ act ∈ acts, ∀ pid sig, act.effect = .signal pid sig → Allowed configs cmd act.state pid

theorem lawful_append (a b : List Act) :
    Lawful configs cmd (a ++ b) ↔ Lawful configs cmd a ∧ Lawful configs cmd b := List.forall_mem_append

theorem lawful_acts (effects : List Effect) : Lawful configs cmd (effects.map (⟨·, g⟩)) ↔
    ∀ pid sig, .signal pid sig ∈ effects → Allowed configs cmd g pid := by
  unfold Lawful
  constructor
  · intro lawful pid sig sent
    exact lawful ⟨.signal pid sig, g⟩ (List.mem_map_of_mem sent) pid sig rfl
  · intro allowed act member pid sig is
    obtain ⟨effect, sent, rfl⟩ := List.mem_map.mp member
    cases is
    exact allowed pid sig sent

theorem lawful_signals (pids : List Nat) (sig : Sig) : Lawful configs cmd (pids.map (⟨.signal · sig, g⟩)) ↔
    ∀ pid ∈ pids, Allowed configs cmd g pid := by
  have mapped : pids.map (⟨.signal · sig, g⟩ : Nat → Act) = (pids.map (.signal · sig)).map (⟨·, g⟩) := by
    rw [List.map_map]
    rfl
  rw [mapped, lawful_acts]
  constructor
  · intro allowed pid member
    exact allowed pid sig (List.mem_map_of_mem member)
  · intro allowed pid sig' sent
    obtain ⟨pid', member, same⟩ := List.mem_map.mp sent
    cases same
    exact allowed pid member

end Allowed

/-! ## What `_resolve` claims -/

section Claims

theorem named_iff (seen : Flow → Seen) (pid : Nat) : named configs seen pid = true ↔
    ∃ f ∈ candidates configs, ∃ i, (seen f).instance_pids.get i = some pid := by
  unfold named
  rw [List.any_eq_true]
  refine exists_congr fun f => and_congr_right fun _ => ?_
  rw [List.any_eq_true]
  constructor
  · intro ⟨e, member, is⟩
    obtain rfl := of_decide_eq_true is
    exact ⟨e.1, (Table.get_eq_some_iff _).mpr member⟩
  · intro ⟨i, there⟩
    exact ⟨(i, pid), (Table.get_eq_some_iff _).mp there, decide_eq_true rfl⟩

theorem mem_strays {procs : Procs} {pid : Nat} :
    pid ∈ strays procs ↔ ∃ p, procs.get pid = some p ∧ p.claimed = false := by
  unfold strays
  rw [List.mem_map]
  constructor
  · rintro ⟨⟨pid', p⟩, member, rfl⟩
    obtain ⟨there, unclaimed⟩ := List.mem_filter.mp member
    exact ⟨p, (Table.get_eq_some_iff _).mpr there, by simpa using unclaimed⟩
  · rintro ⟨p, there, unclaimed⟩
    exact ⟨(pid, p), List.mem_filter.mpr ⟨(Table.get_eq_some_iff _).mp there, by simp [unclaimed]⟩, rfl⟩

/-- The strays are named in no pid file that was read. -/
def Resolved (g : Global) : Prop := ∀ pid ∈ strays g.procs, ∀ f ∈ candidates configs, ¬ Names g f pid

theorem strays_claim (seen : Flow → Seen) (procs : Procs) {pid : Nat}
    (stray : pid ∈ strays (claim configs seen procs)) : named configs seen pid = false := by
  obtain ⟨p, there, unclaimed⟩ := mem_strays.mp stray
  rw [claim, Table.get_keep, Option.bind_eq_some_iff] at there
  obtain ⟨q, _, same⟩ := there
  cases same
  exact (Bool.or_eq_false_iff.mp unclaimed).2

theorem resolved_claim {now : ℚ} {seen : Flow → Seen} {procs : Procs} {missing : List (Flow × Nat)}
    {flux : List (Flow × Marker)} : Resolved configs ⟨now, claim configs seen procs, seen, missing, flux⟩ := by
  intro pid stray f candidate names
  have free := strays_claim configs seen procs stray
  rw [(named_iff configs seen pid).mpr ⟨f, candidate, names⟩] at free
  cases free

theorem resolved_construct (w : World μ) : Resolved configs (construct accumulate configs w) := resolved_claim configs

theorem resolved_reread (dry_run : Bool) (g : Global) (w : World μ) :
    Resolved configs (reread accumulate configs dry_run g w) := resolved_claim configs

theorem filtered_candidate {f : Flow} (selected : f ∈ filtered_configurations configs cmd) : f ∈ candidates configs := by
  obtain ⟨f', member, repeated⟩ := List.mem_flatMap.mp selected
  rw [List.eq_of_mem_replicate repeated]
  exact member

end Claims

/-! ## Strays, and flows in the foreground -/

section Careful
variable (g : Global)

/-- Every stray is more than 50 seconds old. -/
def StraysOld : Prop := ∀ pid ∈ strays g.procs, ∃ p, g.procs.get pid = some p ∧ 50 < g.now - p.create_time

/-- The flow has a process in the foreground, and its first pid file does not tell. -/
def Hidden (f : Flow) : Prop := cmd.dangerWillRobinson = 0 ∧ Foreground g f ∧ cfg_running_foreground g f = false

/-- Where an active flow hides that it runs in the foreground, its processes are those of another selected
flow. -/
def NoneHidden : Prop := ∀ e ∈ selection configs cmd, (g.seen e.1).status ∈ status_active → Hidden cmd g e.1 →
  ∀ pid ∈ livePids g e.1, Claimable configs cmd g pid

theorem strays_allowed_iff (resolved : Resolved configs g) :
    (∀ pid ∈ strays g.procs, Allowed configs cmd g pid) ↔ StraysOld g := by
  refine forall₂_congr fun pid stray => ?_
  constructor
  · intro allowed
    rcases allowed with ⟨f, selected, names, _⟩ | ⟨_, old⟩
    · exact absurd names (resolved pid stray f (filtered_candidate configs cmd selected))
    · exact old
  · intro old
    exact Or.inr ⟨resolved pid stray, old⟩

theorem mem_selection {e : Flow × Options} (member : e ∈ selection configs cmd) :
    e.1 ∈ filtered_configurations configs cmd := by
  obtain ⟨f, selected, there⟩ := List.mem_filterMap.mp member
  obtain ⟨o, _, rfl⟩ := Option.map_eq_some_iff.mp there
  exact selected

theorem names_live {f : Flow} {pid : Nat} (member : pid ∈ livePids g f) : Names g f pid := by
  obtain ⟨e, live, rfl⟩ := List.mem_map.mp member
  exact ⟨e.1, (Table.get_eq_some_iff _).mpr (List.mem_filter.mp live).1⟩

theorem named_allowed_iff {f : Flow} {pid : Nat} (candidate : f ∈ candidates configs) (names : Names g f pid) :
    Allowed configs cmd g pid ↔ Claimable configs cmd g pid :=
  or_iff_left fun forgotten => forgotten.1 f candidate names

/-- The processes of the flows to stop may be signalled exactly where no flow hides. -/
theorem stops_allowed_iff :
    (∀ e ∈ selection configs cmd, toStop cmd g e.1 = true → ∀ pid ∈ livePids g e.1, Allowed configs cmd g pid) ↔
      NoneHidden configs cmd g := by
  refine forall₂_congr fun e member => ?_
  have selected := mem_selection configs cmd member
  have candidate := filtered_candidate configs cmd selected
  constructor
  · intro allowed active hidden pid live
    have stops : toStop cmd g e.1 = true := by simp [toStop, spared, hidden.2.2, active]
    exact (named_allowed_iff configs cmd g candidate (names_live g live)).mp (allowed stops pid live)
  · intro claimable stops pid live
    apply (named_allowed_iff configs cmd g candidate (names_live g live)).mpr
    simp only [toStop, spared, Bool.and_eq_true, Bool.not_eq_true', Bool.and_eq_false_iff, decide_eq_true_eq,
      decide_eq_false_iff_not] at stops
    by_cases hidden : Hidden cmd g e.1
    · exact claimable stops.2 hidden pid live
    · refine ⟨e.1, selected, names_live g live, ?_⟩
      by_contra neither
      rw [not_or, not_not, not_not] at neither
      exact hidden ⟨neither.1, neither.2, stops.1.resolve_left fun given => given neither.1⟩

/-- A state in which all signals may be sent. -/
def Careful : Prop := StraysOld g ∧ NoneHidden configs cmd g

end Careful

/-! ## What is done beside the signals -/

section Effects

theorem signal_mem_append {pid : Nat} {sig : Sig} {a b : List Effect} (none_ : ∀ e ∈ b, ∀ p s, e ≠ .signal p s) :
    .signal pid sig ∈ a ++ b ↔ Effect.signal pid sig ∈ a := by
  rw [List.mem_append]
  exact or_iff_left fun sent => none_ _ sent pid sig rfl

theorem signal_tag_progress (f : Flow) (o : Options) (m : Marker) (ending : Bool) (h : Doing) {pid : Nat} {sig : Sig} :
    .signal pid sig ∈ (tag_progress f o m ending h).effects ↔ Effect.signal pid sig ∈ h.effects := by
  unfold tag_progress
  split <;> split <;> first | rfl | exact signal_mem_append (by simp)

theorem signal_clean (dry_run : Bool) (procs : Procs) (missing : List (Flow × Nat)) (disk : Disk) {pid : Nat} {sig : Sig} :
    Effect.signal pid sig ∉ (clean_missing_proc_state dry_run procs missing ⟨disk, []⟩).effects := by
  unfold clean_missing_proc_state
  split
  · exact List.not_mem_nil
  · rw [List.nil_append, List.mem_map]
    rintro ⟨_, _, same⟩
    cases same

theorem signal_untag (g : Global) (h : Doing) {pid : Nat} {sig : Sig} :
    .signal pid sig ∈ (untag configs cmd g h).effects ↔ Effect.signal pid sig ∈ h.effects := by
  unfold untag
  induction selection configs cmd generalizing h with
  | nil => rfl
  | cons e es ih =>
    rw [List.foldl_cons, ih]
    split
    · rfl
    · exact signal_tag_progress _ _ _ _ _

theorem signal_stopOne (g : Global) (h : Doing) (e : Flow × Options) {pid : Nat} {sig : Sig} :
    .signal pid sig ∈ (stopOne cmd g h e).effects ↔ Effect.signal pid sig ∈ h.effects ∨
      (sig = .TERM ∧ cmd.dry_run = false ∧ toStop cmd g e.1 = true ∧ pid ∈ livePids g e.1) := by
  unfold stopOne
  split
  · next skipped =>
    have none_ : ¬ (cmd.dry_run = false ∧ toStop cmd g e.1 = true) := by
      intro both
      simp [both] at skipped
    exact (or_iff_left fun signalled => none_ ⟨signalled.2.1, signalled.2.2.1⟩).symm
  · next stops =>
    have goes : toStop cmd g e.1 = true ∧ cmd.dry_run = false := by simpa using stops
    rw [Doing.then_, List.mem_append, signal_tag_progress, signal_tag_progress]
    apply or_congr_right
    simp [goes, and_comm, eq_comm]

theorem signal_stops (g : Global) (es : List (Flow × Options)) (h : Doing) {pid : Nat} {sig : Sig} :
    .signal pid sig ∈ (es.foldl (stopOne cmd g) h).effects ↔ Effect.signal pid sig ∈ h.effects ∨
      (sig = .TERM ∧ cmd.dry_run = false ∧ ∃ e ∈ es, toStop cmd g e.1 = true ∧ pid ∈ livePids g e.1) := by
  induction es generalizing h with
  | nil => simp
  | cons e es ih =>
    rw [List.foldl_cons, ih, signal_stopOne, or_assoc]
    apply or_congr_right
    rw [List.exists_mem_cons_iff]
    tauto

end Effects

/-! ## The phases -/

section Phases
variable (g : Global)

theorem kills_lawful_iff (resolved : Resolved configs g) :
    Lawful configs cmd ((kills configs cmd g).map (⟨·, g⟩)) ↔ Careful configs cmd g := by
  unfold kills Careful
  rw [List.map_map]
  change Lawful configs cmd (List.map (⟨.signal · .KILL, g⟩) _) ↔ _
  rw [lawful_signals, List.forall_mem_append, strays_allowed_iff configs cmd g resolved, ← stops_allowed_iff, and_comm]
  apply and_congr_right
  intro _
  constructor
  · intro allowed e member stops pid live
    exact allowed pid (List.mem_flatMap.mpr ⟨e, member, by rwa [if_pos stops]⟩)
  · intro allowed pid live
    obtain ⟨e, member, live⟩ := List.mem_flatMap.mp live
    split at live
    · next stops => exact allowed e member stops pid live
    · cases live

theorem terms_lawful_iff (resolved : Resolved configs g) {h : Doing}
    (fresh : ∀ pid sig, Effect.signal pid sig ∉ h.effects) :
    Lawful configs cmd ((terms configs cmd g h).acts g) ↔
      StraysOld g ∧ (cmd.dry_run = false → NoneHidden configs cmd g) := by
  rw [Doing.acts, lawful_acts, ← strays_allowed_iff configs cmd g resolved, ← stops_allowed_iff]
  have sent (pid : Nat) (sig : Sig) : .signal pid sig ∈ (terms configs cmd g h).effects ↔
      (sig = .TERM ∧ pid ∈ strays g.procs) ∨ (sig = .TERM ∧ cmd.dry_run = false ∧
        ∃ e ∈ selection configs cmd, toStop cmd g e.1 = true ∧ pid ∈ livePids g e.1) := by
    rw [terms, signal_stops, Doing.then_, List.mem_append, or_iff_right (fresh pid sig)]
    apply or_congr_left
    simp [and_comm, eq_comm]
  simp only [sent]
  constructor
  · intro allowed
    refine ⟨fun pid stray => allowed pid .TERM (Or.inl ⟨rfl, stray⟩), fun wet e member stops pid live => ?_⟩
    exact allowed pid .TERM (Or.inr ⟨rfl, wet, e, member, stops, live⟩)
  · intro ⟨strays_, stops_⟩ pid sig either
    rcases either with ⟨_, stray⟩ | ⟨_, wet, e, member, stops, live⟩
    · exact strays_ pid stray
    · exact stops_ wet e member stops pid live

variable (ev : Evolution μ)

/-- The state that the SIGKILLs are sent in, if it comes to them. -/
def killState : Nat → Nat → Global → Option Global
  | 0, _, g => some g
  | n + 1, k, g =>
    let g' := reread accumulate configs cmd.dry_run g (ev.worlds k)
    if allStopped configs cmd g' then none else killState n (k + 1) g'

/-- The attempts signal forgotten processes only, since a process they find is no younger than the clock says. -/
theorem oldStrays_allowed (resolved : Resolved configs g) {signalled : List Nat}
    (later : ev.now ≤ g.now ∨ ∀ pid ∈ strays g.procs, pid ∈ signalled) :
    ∀ pid ∈ oldStrays ev.now signalled g, Allowed configs cmd g pid := by
  intro pid member
  obtain ⟨⟨pid', p⟩, found, rfl⟩ := List.mem_map.mp member
  obtain ⟨there, tests⟩ := List.mem_filter.mp found
  simp only [Bool.and_eq_true, Bool.not_eq_true', decide_eq_true_eq] at tests
  have known := (Table.get_eq_some_iff _).mpr there
  have stray : pid' ∈ strays g.procs := mem_strays.mpr ⟨p, known, tests.1.1⟩
  rcases later with later | all
  · refine Or.inr ⟨resolved pid' stray, p, known, tests.1.2.trans_le ?_⟩
    exact sub_le_sub_right later _
  · exact absurd (all pid' stray) tests.2

theorem acts_lawful {h : Doing} (fresh : ∀ pid sig, Effect.signal pid sig ∉ h.effects) :
    Lawful configs cmd (h.acts g) := by
  rw [Doing.acts, lawful_acts]
  intro pid sig sent
  exact absurd sent (fresh pid sig)

theorem rereadDisk_fresh (w : World μ) (pid : Nat) (sig : Sig) :
    Effect.signal pid sig ∉ (rereadDisk configs cmd g w).effects := signal_clean _ _ _ _

theorem untag_fresh (g' : Global) (w : World μ) (pid : Nat) (sig : Sig) :
    Effect.signal pid sig ∉ (untag configs cmd g' (rereadDisk configs cmd g w)).effects := by
  rw [signal_untag]
  exact rereadDisk_fresh configs cmd g w pid sig

theorem attempts_lawful_iff (n k : Nat) {signalled : List Nat} (resolved : Resolved configs g)
    (later : ev.now ≤ g.now ∨ ∀ pid ∈ strays g.procs, pid ∈ signalled) :
    Lawful configs cmd (attempts accumulate configs cmd ev n k signalled g) ↔
      ∀ g', killState accumulate configs cmd ev n k g = some g' → Careful configs cmd g' := by
  induction n generalizing k signalled g with
  | zero =>
    rw [attempts, killState, lawful_append, kills_lawful_iff configs cmd g resolved, and_iff_left]
    · constructor
      · intro careful g' same
        cases same
        exact careful
      · intro careful
        exact careful g rfl
    · exact acts_lawful configs cmd _ (untag_fresh configs cmd g _ _)
  | succ n ih =>
    rw [attempts, killState, lawful_append, lawful_signals]
    rw [and_iff_right (oldStrays_allowed configs cmd g ev resolved later)]
    by_cases stopped : allStopped configs cmd (reread accumulate configs cmd.dry_run g (ev.worlds k)) = true
    · rw [if_pos stopped, if_pos stopped]
      refine iff_of_true (acts_lawful configs cmd _ (untag_fresh configs cmd g _ _)) ?_
      intro g' none_
      cases none_
    · rw [if_neg stopped, if_neg stopped, lawful_append,
        and_iff_right (acts_lawful configs cmd _ (rereadDisk_fresh configs cmd g _))]
      exact ih (reread accumulate configs cmd.dry_run g (ev.worlds k)) (k + 1)
        (resolved_reread accumulate configs cmd.dry_run g _) (Or.inl (ev.later k))

end Phases

/-! ## The run -/

/-- The states that `stop` sends its first signals in, and its last ones, are careful. -/
def Prudent (ev : Evolution μ) (g : Global) : Prop :=
  StraysOld g ∧ (cmd.dry_run = false → g.procs.entries ≠ [] → NoneHidden configs cmd g ∧
    ∀ g', killState accumulate configs cmd ev 5 0 g = some g' → Careful configs cmd g')

theorem stopping_lawful_iff (ev : Evolution μ) (g : Global) (resolved : Resolved configs g) {h : Doing}
    (fresh : ∀ pid sig, Effect.signal pid sig ∉ h.effects) :
    Lawful configs cmd (stopping accumulate configs cmd ev g h) ↔ Prudent accumulate configs cmd ev g := by
  unfold stopping Prudent
  by_cases nobody : g.procs.entries = []
  · have none_ : strays g.procs = [] := by rw [strays, nobody]; rfl
    have old : StraysOld g := by
      intro pid stray
      rw [none_] at stray
      cases stray
    rw [if_pos (List.isEmpty_iff.mpr nobody)]
    exact iff_of_true (acts_lawful configs cmd g fresh) ⟨old, fun _ some_ => absurd nobody some_⟩
  · rw [if_neg (mt List.isEmpty_iff.mp nobody), lawful_append, terms_lawful_iff configs cmd g resolved fresh]
    cases dry : cmd.dry_run with
    | true => simp [Lawful]
    | false =>
      have all : ∀ pid ∈ strays g.procs, pid ∈ termPids configs cmd g := fun pid stray => List.mem_append_left _ stray
      rw [if_neg Bool.false_ne_true, attempts_lawful_iff accumulate configs cmd g ev 5 0 resolved (Or.inr all)]
      simp [nobody, and_assoc]

/-- Every signal goes to a process that may have it exactly where `stop` is refused or the states are prudent. -/
theorem stop_lawful_iff (clear : Bool) (ev : Evolution μ) (w : World μ) (disk : Disk) :
    Lawful configs cmd (stop accumulate configs cmd clear ev (construct accumulate configs w) disk) ↔
      notFound configs cmd = true ∨ clear = false ∨ Prudent accumulate configs cmd ev (construct accumulate configs w) := by
  have nothing : Lawful configs cmd [] := fun _ member => nomatch member
  unfold stop
  split
  · next missing => exact iff_of_true nothing (Or.inl missing)
  · next found =>
    rw [or_iff_right found]
    split
    · next blocked => exact iff_of_true nothing (Or.inl (by simpa using blocked))
    · next free =>
      rw [or_iff_right (by simpa using free)]
      apply stopping_lawful_iff
      · exact resolved_construct accumulate configs w
      · intro pid sig
        exact signal_clean _ _ _ _

/-! ## An instance that has just been launched -/

/-- It has not written its pid file yet. -/
def launched : Psutil :=
  ⟨4711, ["/usr/bin/python3".toList, "/usr/lib/sarracenia/instance.py".toList, "--no".toList, "1".toList,
    "start".toList, "subscribe/bulletins".toList], "python3".toList, "sarra".toList, 99⟩

def launching : World Metrics :=
  ⟨100, "sarra".toList, [launched], ⟨fun _ => Table.empty, fun _ => false, []⟩, fun _ => ⟨none, Table.empty⟩⟩

theorem young_instance_signalled : ¬ ∀ (configs : Configs) (cmd : Command) (clear : Bool) (ev : Evolution Metrics)
    (w : World Metrics) (disk : Disk), Lawful configs cmd
      (stop (fun _ _ _ => empty_metrics) configs cmd clear ev (construct (fun _ _ _ => empty_metrics) configs w) disk) := by
  intro lawful
  have sent := lawful Table.empty ⟨true, 0, []⟩ true ⟨0, fun _ => launching, fun _ => by decide +kernel⟩ launching launching.disk
    ⟨.signal 4711 .TERM, construct (fun _ _ _ => empty_metrics) Table.empty launching⟩ (by exact List.mem_singleton_self _) 4711 .TERM rfl
  rcases sent with ⟨f, selected, _⟩ | ⟨_, p, there, old⟩
  · cases selected
  · cases there
    exact absurd old (by decide +kernel)

end Sarracenia.Guarantees.Sr.Signals
