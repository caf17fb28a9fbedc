import Sarracenia.Guarantees.Sr.Status

/-!
# Dry runs

`cleanup` and `remove` do nothing in a dry run. `stop` sends its first signal to the strays all the same,
`sanity` makes and unlinks its markers, and `start` makes and unlinks those of the flows.
-/
namespace Sarracenia.Guarantees.Sr
open Library Library.Text Source.Sr

/-! ## Markers -/

section Markers
variable (f : Flow) (o : Options) (m : Marker) (h : Doing)

theorem tag_progress_idle {ending : Bool} (same : hasMarker h.disk f o m = !ending) :
    tag_progress f o m ending h = h := by
  cases ending <;> simp_all [tag_progress]

theorem tag_progress_effects {ending : Bool} (other : hasMarker h.disk f o m = ending) :
    (tag_progress f o m ending h).effects =
      h.effects ++ [if ending then .unlink (.marker f m) else .create (.marker f m)] := by
  cases ending <;> simp_all [tag_progress]

theorem tag_progress_eq_iff (ending : Bool) :
    (tag_progress f o m ending h).effects = h.effects ↔ hasMarker h.disk f o m = !ending := by
  constructor
  · intro same
    by_contra other
    rw [Bool.not_eq_not] at other
    rw [tag_progress_effects f o m h other] at same
    simp at same
  · intro there
    rw [tag_progress_idle f o m h there]

theorem tag_progress_prefixed (ending : Bool) : h.effects <+: (tag_progress f o m ending h).effects := by
  by_cases there : hasMarker h.disk f o m = !ending
  · rw [tag_progress_idle f o m h there]
  · rw [Bool.not_eq_not] at there
    rw [tag_progress_effects f o m h there]
    exact List.prefix_append _ _

end Markers

/-- What is done stays done: no effects at the end are no effects before. -/
theorem same_effects {a b c : List Effect} (first : a <+: b) (second : b <+: c) : c = a ↔ b = a ∧ c = b := by
  constructor
  · rintro rfl
    have same : c = b := first.eq_of_length (Nat.le_antisymm first.length_le second.length_le)
    exact ⟨same.symm, same⟩
  · rintro ⟨rfl, rfl⟩
    rfl

section DryRun
variable {μ : Type} (accumulate : ℚ → Nat → List μ → Metrics) (configs : Configs) (cmd : Command)
  (scripts : Str → Bool) (g : Global)

/-- The command, in a dry run. -/
def dryRun : Command := { cmd with dry_run := true }

/-! ## `start` -/

section Start

theorem startOne_dry (h : Doing) (e : Flow × Options) : startOne (dryRun cmd) scripts g h e =
    if toStart scripts g e then tag_progress e.1 e.2 .starting false h else h := by
  unfold startOne launches dryRun Doing.then_
  simp

theorem startOne_prefixed (h : Doing) (e : Flow × Options) : h.effects <+: (startOne (dryRun cmd) scripts g h e).effects := by
  rw [startOne_dry]
  split
  · exact tag_progress_prefixed e.1 e.2 .starting h false
  · exact List.prefix_rfl

theorem foldl_prefixed {step : Doing → Flow × Options → Doing} (grows : ∀ h e, h.effects <+: (step h e).effects)
    (es : List (Flow × Options)) (h : Doing) : h.effects <+: (es.foldl step h).effects := by
  induction es generalizing h with
  | nil => exact List.prefix_rfl
  | cons e es ih => exact (grows h e).trans (ih _)

/-- Every flow that would be launched has its marker already. -/
def Tagged (disk : Disk) : Prop :=
  ∀ e ∈ selection configs cmd, toStart scripts g e = true → hasMarker disk e.1 e.2 .starting = true

theorem startOne_idle {h : Doing} {e : Flow × Options} :
    (startOne (dryRun cmd) scripts g h e).effects = h.effects ↔
      (toStart scripts g e = true → hasMarker h.disk e.1 e.2 .starting = true) := by
  rw [startOne_dry]
  split
  · next starts => rw [tag_progress_eq_iff, forall_prop_of_true starts, Bool.not_false]
  · next skipped => exact iff_of_true rfl fun starts => absurd starts skipped

theorem startOne_same {h : Doing} {e : Flow × Options}
    (there : toStart scripts g e = true → hasMarker h.disk e.1 e.2 .starting = true) :
    startOne (dryRun cmd) scripts g h e = h := by
  rw [startOne_dry]
  split
  · next starts => exact tag_progress_idle _ _ _ _ (there starts)
  · rfl

theorem foldl_startOne_same (es : List (Flow × Options)) (h : Doing)
    (there : ∀ e ∈ es, toStart scripts g e = true → hasMarker h.disk e.1 e.2 .starting = true) :
    es.foldl (startOne (dryRun cmd) scripts g) h = h := by
  induction es with
  | nil => rfl
  | cons e es ih =>
    rw [List.forall_mem_cons] at there
    rw [List.foldl_cons, startOne_same cmd scripts g there.1, ih there.2]

theorem foldl_startOne_idle (es : List (Flow × Options)) (h : Doing) :
    (es.foldl (startOne (dryRun cmd) scripts g) h).effects = h.effects ↔
      ∀ e ∈ es, toStart scripts g e = true → hasMarker h.disk e.1 e.2 .starting = true := by
  induction es with
  | nil => simp
  | cons e es ih =>
    rw [List.foldl_cons, same_effects (startOne_prefixed cmd scripts g h e)
      (foldl_prefixed (startOne_prefixed cmd scripts g) es _), startOne_idle, List.forall_mem_cons]
    apply and_congr_right
    intro here
    rw [startOne_same cmd scripts g here]
    exact ih

/-- The flows that the second pass comes to, with the disk it finds then. -/
def comesTo (waits : Flow → Disk → Option Disk) : List (Flow × Options) → Disk → List ((Flow × Options) × Disk)
  | [], _ => []
  | e :: es, disk =>
    if passedOver g e then comesTo waits es disk
    else match ready waits e disk with
      | none => []
      | some disk => (e, disk) :: comesTo waits es disk

/-- A flow that is marked as running, and not as starting. -/
def Marked (x : (Flow × Options) × Disk) : Prop :=
  find_component_path scripts x.1.1.c = true →
    hasMarker x.2 x.1.1 x.1.2 .starting = false ∧ hasMarker x.2 x.1.1 x.1.2 .running = true

theorem startEnd_prefixed (h : Doing) (e : Flow × Options) : h.effects <+: (startEnd scripts h e).effects := by
  unfold startEnd
  split
  · exact (tag_progress_prefixed _ _ _ h _).trans (tag_progress_prefixed _ _ _ _ _)
  · exact List.prefix_rfl

theorem startEnd_idle {h : Doing} {e : Flow × Options} (there : Marked scripts (e, h.disk)) : startEnd scripts h e = h := by
  unfold startEnd
  split
  · next path =>
    rw [tag_progress_idle _ _ _ h (there path).1, tag_progress_idle _ _ _ h (there path).2]
  · rfl

theorem startEnd_eq_iff (h : Doing) (e : Flow × Options) :
    (startEnd scripts h e).effects = h.effects ↔ Marked scripts (e, h.disk) := by
  constructor
  · intro same path
    rw [startEnd, if_pos path, same_effects (tag_progress_prefixed _ _ _ h _) (tag_progress_prefixed _ _ _ _ _)] at same
    have first := (tag_progress_eq_iff _ _ _ h true).mp same.1
    rw [tag_progress_idle _ _ _ h first] at same
    exact ⟨first, (tag_progress_eq_iff _ _ _ h false).mp same.2⟩
  · intro there
    rw [startEnd_idle scripts there]

variable (waits : Flow → Disk → Option Disk)

theorem startEnds_prefixed (es : List (Flow × Options)) (h : Doing) :
    h.effects <+: (startEnds scripts g waits es h).effects := by
  induction es generalizing h with
  | nil => exact List.prefix_rfl
  | cons e es ih =>
    unfold startEnds
    split
    · exact ih h
    · cases ready waits e h.disk with
      | none => exact List.prefix_rfl
      | some disk => exact (startEnd_prefixed scripts ⟨disk, h.effects⟩ e).trans (ih _)

theorem startEnds_idle (es : List (Flow × Options)) (h : Doing) :
    (startEnds scripts g waits es h).effects = h.effects ↔ ∀ x ∈ comesTo g waits es h.disk, Marked scripts x := by
  induction es generalizing h with
  | nil => simp [startEnds, comesTo]
  | cons e es ih =>
    unfold startEnds comesTo
    split
    · exact ih h
    · cases ready waits e h.disk with
      | none => simp
      | some disk =>
        dsimp only
        rw [List.forall_mem_cons, same_effects (startEnd_prefixed scripts ⟨disk, h.effects⟩ e)
          (startEnds_prefixed scripts g waits es _), startEnd_eq_iff]
        apply and_congr_right
        intro here
        rw [startEnd_idle scripts here]
        exact ih ⟨disk, h.effects⟩

end Start
theorem refused_effects {p : Prop} [Decidable p] (disk : Disk) (h : Doing) :
    (if p then (⟨disk, []⟩ : Doing) else h).effects = [] ↔ p ∨ h.effects = [] := by
  by_cases holds : p <;> simp [holds]

theorem start_dry (clear : Bool) (waits : Flow → Disk → Option Disk) (disk : Disk) :
    (start configs (dryRun cmd) scripts clear waits g disk).effects = [] ↔
      notFound configs cmd = true ∨ clear = false ∨ has_disabled_config configs cmd g disk = true ∨
        Tagged configs cmd scripts g disk ∧ ∀ x ∈ comesTo g waits (selection configs cmd) disk, Marked scripts x := by
  unfold start
  rw [refused_effects, refused_effects, refused_effects, Bool.not_eq_true']
  refine or_congr_right (or_congr_right (or_congr_right ?_))
  change (startEnds scripts g waits (selection configs cmd) ((selection configs cmd).foldl
    (startOne (dryRun cmd) scripts g) ⟨disk, []⟩)).effects = (⟨disk, []⟩ : Doing).effects ↔ _
  rw [same_effects (foldl_prefixed (startOne_prefixed cmd scripts g) _ _) (startEnds_prefixed scripts g waits _ _),
    foldl_startOne_idle]
  apply and_congr_right
  intro tagged
  rw [foldl_startOne_same cmd scripts g _ _ tagged]
  exact startEnds_idle scripts g waits _ _

/-! ## The other actions -/

theorem clean_dry (procs : Procs) (missing : List (Flow × Nat)) (h : Doing) :
    clean_missing_proc_state true procs missing h = h := by
  rw [clean_missing_proc_state, if_pos rfl]

theorem terms_dry (h : Doing) :
    terms configs (dryRun cmd) g h = h.then_ ((strays g.procs).map (.signal · .TERM)) := by
  have still (es : List (Flow × Options)) (h : Doing) : es.foldl (stopOne (dryRun cmd) g) h = h := by
    induction es with
    | nil => rfl
    | cons e es ih =>
      have here : stopOne (dryRun cmd) g h e = h := by simp [stopOne, dryRun]
      rw [List.foldl_cons, here, ih]
  exact still _ _

theorem stopping_dry (ev : Evolution μ) (disk : Disk) :
    stopping accumulate configs (dryRun cmd) ev g ⟨disk, []⟩ = [] ↔ strays g.procs = [] := by
  unfold stopping
  by_cases none_ : g.procs.entries = []
  · have nobody : strays g.procs = [] := by rw [strays, none_]; rfl
    simp [none_, nobody, Doing.acts]
  · rw [terms_dry]
    simp [none_, Doing.acts, Doing.then_, dryRun]

theorem stop_dry (clear : Bool) (ev : Evolution μ) (disk : Disk) :
    stop accumulate configs (dryRun cmd) clear ev g disk = [] ↔
      notFound configs cmd = true ∨ clear = false ∨ strays g.procs = [] := by
  unfold stop
  have clean : clean_missing_proc_state (dryRun cmd).dry_run g.procs g.missing ⟨disk, []⟩ = ⟨disk, []⟩ :=
    clean_dry g.procs g.missing ⟨disk, []⟩
  rw [clean]
  split
  · next missing => exact iff_of_true rfl (Or.inl missing)
  · next found =>
    split
    · next blocked => exact iff_of_true rfl (Or.inr (Or.inl (by simpa using blocked)))
    · next free =>
      have here : clear = true := by simpa using free
      have known : ¬ notFound configs cmd = true := found
      rw [stopping_dry]
      simp [here, known]

theorem restore_dry (fresh : World μ) (procs : Procs) (h : Doing) :
    (restore accumulate configs (dryRun cmd) scripts fresh g procs h).1 = h := by
  unfold restore
  split
  · exact clean_dry procs (find_missing_instances configs procs g.seen h.disk) h
  · rfl

theorem sanity_dry (fresh : World μ) (disk : Disk) :
    (sanity accumulate configs (dryRun cmd) scripts fresh g disk).effects = [] ↔
      notFound configs cmd = true ∨ g.flux ≠ [] := by
  unfold sanity
  rw [refused_effects, refused_effects]
  refine or_congr_right (or_iff_left ?_)
  have dry : (dryRun cmd).dry_run = true := rfl
  simp only [dry, if_true, restore_dry]
  simp [tag_sanity]

theorem cleanup_dry (disk : Disk) : (cleanup configs (dryRun cmd) g disk).2 = ⟨disk, []⟩ := by
  have still (es : List (Flow × Options)) (h : Doing) : es.foldl (emptyOne (dryRun cmd)) h = h := by
    induction es with
    | nil => rfl
    | cons e es ih =>
      have here : emptyOne (dryRun cmd) h e = h := by
        unfold emptyOne
        cases dirOf h.disk e.1 e.2 <;> rfl
      rw [List.foldl_cons, here, ih]
  unfold cleanup
  split
  · rfl
  · split
    · rfl
    · split
      · rfl
      · exact still _ _

theorem remove_dry (disk : Disk) : remove configs (dryRun cmd) g disk = ⟨disk, []⟩ := by
  have still (es : List (Flow × Options)) (h : Doing) : es.foldl (removeOne (dryRun cmd) g) h = h := by
    induction es with
    | nil => rfl
    | cons e es ih =>
      have here : removeOne (dryRun cmd) g h e = h := by
        unfold removeOne
        split <;> rfl
      rw [List.foldl_cons, here, ih]
  unfold remove
  dsimp only
  rw [cleanup_dry, still, ite_self]

/-! ## The actions in a dry run -/

inductive Action where
  | start | stop | sanity | cleanup | remove

/-- What an action does: the signals, the launches, and the files that are made or unlinked. -/
def does (clear : Bool) (waits : Flow → Disk → Option Disk) (ev : Evolution μ) (fresh : World μ) (disk : Disk) :
    Action → List Effect
  | .start => (start configs cmd scripts clear waits g disk).effects
  | .stop => (stop accumulate configs cmd clear ev g disk).map (·.effect)
  | .sanity => (sanity accumulate configs cmd scripts fresh g disk).effects
  | .cleanup => (cleanup configs cmd g disk).2.effects
  | .remove => (remove configs cmd g disk).effects

/-- A state in which an action does nothing, if it is only to look. -/
def Harmless (clear : Bool) (waits : Flow → Disk → Option Disk) (disk : Disk) : Action → Prop
  | .start => notFound configs cmd = true ∨ clear = false ∨ has_disabled_config configs cmd g disk = true ∨
      Tagged configs cmd scripts g disk ∧ ∀ x ∈ comesTo g waits (selection configs cmd) disk, Marked scripts x
  | .stop => notFound configs cmd = true ∨ clear = false ∨ strays g.procs = []
  | .sanity => notFound configs cmd = true ∨ g.flux ≠ []
  | .cleanup => True
  | .remove => True

theorem does_nothing_iff (clear : Bool) (waits : Flow → Disk → Option Disk) (ev : Evolution μ) (fresh : World μ)
    (disk : Disk) (a : Action) :
    does accumulate configs (dryRun cmd) scripts g clear waits ev fresh disk a = [] ↔
      Harmless configs cmd scripts g clear waits disk a := by
  cases a with
  | start => exact start_dry configs cmd scripts g clear waits disk
  | stop =>
    rw [does, List.map_eq_nil_iff]
    exact stop_dry accumulate configs cmd g clear ev disk
  | sanity => exact sanity_dry accumulate configs cmd scripts g fresh disk
  | cleanup =>
    rw [does, cleanup_dry]
    exact iff_of_true rfl trivial
  | remove =>
    rw [does, remove_dry]
    exact iff_of_true rfl trivial

end DryRun

/-! ## A dry start that leaves a marker -/

/-- One flow that has not run yet, and nothing else. -/
def newFlow : Configs := ⟨[(⟨.subscribe, "amis".toList⟩, oneInstance)], by decide⟩

def emptyWorld : World Metrics :=
  ⟨0, "sarra".toList, [], ⟨fun _ => Table.empty, fun _ => false, []⟩, fun _ => ⟨none, Table.empty⟩⟩

theorem dry_start_marks : ¬ ∀ (configs : Configs) (cmd : Command) (clear : Bool) (waits : Flow → Disk → Option Disk)
    (ev : Evolution Metrics) (fresh w : World Metrics) (a : Action),
    does (fun _ _ _ => empty_metrics) configs (dryRun cmd) (fun _ => true)
      (construct (fun _ _ _ => empty_metrics) configs w) clear waits ev fresh w.disk a = [] := by
  intro nothing
  have start := nothing newFlow ⟨true, 0, []⟩ true (fun _ _ => none) ⟨0, fun _ => emptyWorld, fun _ => le_rfl⟩
    emptyWorld emptyWorld .start
  have made : does (fun _ _ _ => empty_metrics) newFlow (dryRun ⟨true, 0, []⟩) (fun _ => true)
      (construct (fun _ _ _ => empty_metrics) newFlow emptyWorld) true (fun _ _ => none)
      ⟨0, fun _ => emptyWorld, fun _ => le_rfl⟩ emptyWorld emptyWorld.disk .start =
      [.create (.marker ⟨.subscribe, "amis".toList⟩ .starting)] := by decide +kernel
  rw [made] at start
  cases start

end Sarracenia.Guarantees.Sr
