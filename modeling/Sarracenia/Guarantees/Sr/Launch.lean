import Mathlib.Data.List.Count
import Sarracenia.Guarantees.Sr.Status

/-!
# The launch law

`start` launches the instances of a selected flow once for every pattern that matches it. `sanity` launches
each missing instance once, and with them those of old pid files above the number of instances, and those of
flows in other states that have lost an instance.
-/
namespace Sarracenia.Guarantees.Sr.Launch
open Library Library.Text Source.Sr

/-- One where it is to be, else none. -/
def OneIf (n : Nat) (p : Prop) : Prop := (p → n = 1) ∧ (¬ p → n = 0)

/-- What is due is launched once, and nothing else is. -/
def Exactly (effects : List Effect) (due : Flow → Nat → Prop) : Prop :=
  ∀ f i, OneIf (effects.count (.launch f i)) (due f i)

theorem OneIf.iff {n : Nat} {p q : Prop} (one : OneIf n p) : OneIf n q ↔ (p ↔ q) := by
  unfold OneIf at *
  by_cases here : p <;> by_cases there : q <;> simp_all

theorem oneIf_count {α : Type} [DecidableEq α] {xs : List α} (distinct : xs.Nodup) (a : α) : OneIf (xs.count a) (a ∈ xs) :=
  ⟨List.count_eq_one_of_mem distinct, List.count_eq_zero.mpr⟩

variable (configs : Configs) (cmd : Command) (scripts : Str → Bool)

/-! ## Counting launches -/

section Counting
variable {f : Flow} {i : Nat}

theorem count_unlaunched {effects : List Effect} (other : ∀ e ∈ effects, ∀ f i, e ≠ .launch f i) :
    effects.count (.launch f i) = 0 := List.count_eq_zero.mpr fun member => other _ member f i rfl

theorem count_map_unlaunched {α : Type} {step : α → Effect} (other : ∀ a f i, step a ≠ .launch f i) (xs : List α) :
    (xs.map step).count (.launch f i) = 0 := by
  apply count_unlaunched
  intro e member
  obtain ⟨a, _, rfl⟩ := List.mem_map.mp member
  exact other a

theorem count_launches (g : Flow) (xs : List Nat) (distinct : xs.Nodup) :
    (xs.map (Effect.launch g)).count (.launch f i) = if g = f ∧ i ∈ xs then 1 else 0 := by
  by_cases same : g = f
  · subst same
    rw [List.count_map_of_injective xs (Effect.launch g) (fun _ _ is => (Effect.launch.inj is).2), distinct.count]
    simp
  · rw [if_neg fun both => same both.1]
    apply List.count_eq_zero.mpr
    intro member
    obtain ⟨_, _, is⟩ := List.mem_map.mp member
    exact same (Effect.launch.inj is).1

theorem count_tag (e : Flow) (o : Options) (m : Marker) (ending : Bool) (h : Doing) :
    (tag_progress e o m ending h).effects.count (.launch f i) = h.effects.count (.launch f i) := by
  unfold tag_progress
  split <;> split <;> simp

theorem mem_range {n : Nat} : i ∈ List.range' 1 n ↔ 1 ≤ i ∧ i ≤ n := by
  rw [List.mem_range'_1]
  omega

/-- A flow comes in the selection as often as the patterns hit it. -/
theorem selection_eq : selection configs cmd = configs.entries.flatMap fun e => List.replicate (hits cmd e.1) (e.1, e.2) := by
  unfold selection filtered_configurations candidates
  rw [List.flatMap_map, List.filterMap_flatMap]
  apply List.flatMap_congr
  intro e member
  have there : configs.get e.1 = some e.2 := (Table.get_eq_some_iff configs).mpr member
  generalize hits cmd e.1 = n
  induction n with
  | zero => rfl
  | succ n ih => rw [List.replicate_succ, List.filterMap_cons, there, List.replicate_succ, ih]; rfl

theorem mem_filtered : f ∈ filtered_configurations configs cmd ↔ (configs.get f).isSome ∧ 0 < hits cmd f := by
  unfold filtered_configurations candidates
  rw [List.mem_flatMap]
  constructor
  · intro ⟨f', member, repeated⟩
    obtain ⟨positive, rfl⟩ := List.mem_replicate.mp repeated
    obtain ⟨e, there, rfl⟩ := List.mem_map.mp member
    exact ⟨by rw [(Table.get_eq_some_iff configs).mpr there]; rfl, Nat.pos_of_ne_zero positive⟩
  · intro ⟨some_, positive⟩
    obtain ⟨o, there⟩ := Option.isSome_iff_exists.mp some_
    refine ⟨f, ?_, List.mem_replicate.mpr ⟨Nat.ne_of_gt positive, rfl⟩⟩
    exact List.mem_map_of_mem ((Table.get_eq_some_iff configs).mp there)

end Counting

/-! ## `start` -/

section Start
variable (g : Global) (disk : Disk) (clear : Bool) (waits : Flow → Disk → Option Disk)

/-- A selected flow that is to be started. -/
def Startable (f : Flow) (o : Options) : Prop :=
  f ∈ filtered_configurations configs cmd ∧ configs.get f = some o ∧
    (g.seen f).status ∈ [.missing, .interactive, .new, .stopped] ∧ interactive f o = false

def StartDue (f : Flow) (i : Nat) : Prop := ∃ o, Startable configs cmd g f o ∧ 1 ≤ i ∧ i ≤ instances f o

/-- `start` goes to work. -/
def StartOpen : Prop :=
  notFound configs cmd = false ∧ clear = true ∧ has_disabled_config configs cmd g disk = false ∧ cmd.dry_run = false

/-- Where a flow is to be started, `start` goes to work, its script is there, and one pattern hits it. -/
def StartSound : Prop := ∀ f o, Startable configs cmd g f o → 0 < instances f o →
  StartOpen configs cmd g disk clear ∧ find_component_path scripts f.c = true ∧ hits cmd f = 1

/-- The launches of one flow of the selection. -/
def launched (e : Flow × Options) : List Effect := if toStart scripts g e then launches cmd e.1 e.2 else []

variable {f : Flow} {i : Nat}

theorem count_startOne (h : Doing) (e : Flow × Options) : (startOne cmd scripts g h e).effects.count (.launch f i) =
    h.effects.count (.launch f i) + (launched cmd scripts g e).count (.launch f i) := by
  unfold startOne launched
  split
  · rw [Doing.then_, List.count_append, count_tag]
  · rfl

theorem count_foldl_startOne (es : List (Flow × Options)) (h : Doing) :
    (es.foldl (startOne cmd scripts g) h).effects.count (.launch f i) =
      h.effects.count (.launch f i) + (es.flatMap (launched cmd scripts g)).count (.launch f i) := by
  induction es generalizing h with
  | nil => rfl
  | cons e es ih => rw [List.foldl_cons, ih, count_startOne, List.flatMap_cons, List.count_append, Nat.add_assoc]

theorem count_startEnds (es : List (Flow × Options)) (h : Doing) :
    (startEnds scripts g waits es h).effects.count (.launch f i) = h.effects.count (.launch f i) := by
  have one (h : Doing) (e : Flow × Options) :
      (startEnd scripts h e).effects.count (.launch f i) = h.effects.count (.launch f i) := by
    unfold startEnd
    split
    · rw [count_tag, count_tag]
    · rfl
  induction es generalizing h with
  | nil => rfl
  | cons e es ih =>
    unfold startEnds
    split
    · exact ih h
    · cases ready waits e h.disk with
      | none => rfl
      | some disk => exact (ih _).trans (one ⟨disk, h.effects⟩ e)

theorem count_launched (o : Options) : (launched cmd scripts g (f, o)).count (.launch f i) =
    if toStart scripts g (f, o) = true ∧ cmd.dry_run = false ∧ 1 ≤ i ∧ i ≤ instances f o then 1 else 0 := by
  unfold launched launches
  by_cases starts : toStart scripts g (f, o) = true
  · rw [if_pos starts]
    cases dry : cmd.dry_run with
    | true => simp
    | false =>
      rw [if_neg Bool.false_ne_true, count_launches f _ List.nodup_range']
      simp only [mem_range, starts, true_and]
  · rw [if_neg starts, if_neg fun both => starts both.1]
    rfl

/-- What the selection launches is counted flow by flow. -/
theorem count_selection : ((selection configs cmd).flatMap (launched cmd scripts g)).count (.launch f i) =
    ((configs.get f).map fun o => hits cmd f * (launched cmd scripts g (f, o)).count (.launch f i)).getD 0 := by
  rw [selection_eq, List.flatMap_assoc]
  have keyed : ∀ j o, .launch f i ∈ (List.replicate (hits cmd j) (j, o)).flatMap (launched cmd scripts g) → j = f := by
    intro j o member
    obtain ⟨e, repeated, member⟩ := List.mem_flatMap.mp member
    rw [List.eq_of_mem_replicate repeated, launched] at member
    split at member
    · unfold launches at member
      split at member
      · cases member
      · obtain ⟨_, _, is⟩ := List.mem_map.mp member
        exact (Effect.launch.inj is).1
    · cases member
  rw [Table.count_flatMap configs (fun j o => (List.replicate (hits cmd j) (j, o)).flatMap (launched cmd scripts g)) keyed]
  have times (n : Nat) (e : Flow × Options) : ((List.replicate n e).flatMap (launched cmd scripts g)).count (.launch f i) =
      n * (launched cmd scripts g e).count (.launch f i) := by
    rw [List.count_flatMap, List.map_replicate, List.sum_replicate_nat]
    rfl
  simp only [times]

theorem count_start_open (goes : StartOpen configs cmd g disk clear) :
    (start configs cmd scripts clear waits g disk).effects.count (.launch f i) =
      ((configs.get f).map fun o => hits cmd f * (launched cmd scripts g (f, o)).count (.launch f i)).getD 0 := by
  obtain ⟨found, free, enabled, _⟩ := goes
  subst free
  unfold start
  rw [if_neg (by simp [found]), if_neg (by decide), if_neg (by simp [enabled]), count_startEnds, count_foldl_startOne,
    List.count_nil, Nat.zero_add, count_selection]

theorem count_start_closed (shut : ¬ StartOpen configs cmd g disk clear) :
    (start configs cmd scripts clear waits g disk).effects.count (.launch f i) = 0 := by
  unfold start
  split
  · rfl
  · next found =>
    split
    · rfl
    · next free =>
      split
      · rfl
      · next enabled =>
        have dry : cmd.dry_run = true := by
          by_contra wet
          exact shut ⟨by simpa using found, by simpa using free, by simpa using enabled, by simpa using wet⟩
        rw [count_startEnds, count_foldl_startOne, List.count_nil, Nat.zero_add]
        apply List.count_eq_zero.mpr
        intro member
        obtain ⟨e, _, member⟩ := List.mem_flatMap.mp member
        rw [launched, launches, if_pos dry, ite_self] at member
        cases member

/-- `start` launches exactly what is due where it is sound to do so. -/
theorem start_exactly_iff : Exactly (start configs cmd scripts clear waits g disk).effects (StartDue configs cmd g) ↔
    StartSound configs cmd scripts g disk clear := by
  constructor
  · intro exactly_ f o startable positive
    have once := (exactly_ f 1).1 ⟨o, startable, le_rfl, positive⟩
    by_cases goes : StartOpen configs cmd g disk clear
    · rw [count_start_open configs cmd scripts g disk clear waits goes, startable.2.1, Option.map_some, Option.getD_some,
        count_launched] at once
      have one := Nat.eq_one_of_mul_eq_one_right once
      have starts := Nat.eq_one_of_mul_eq_one_left once
      split at starts
      · next launches_ =>
        refine ⟨goes, ?_, one⟩
        have tests := launches_.1
        simp only [toStart, Bool.and_eq_true] at tests
        exact tests.1.2
      · cases starts
    · rw [count_start_closed configs cmd scripts g disk clear waits goes] at once
      cases once
  · intro sound f i
    constructor
    · intro ⟨o, startable, low, high⟩
      obtain ⟨goes, path, one⟩ := sound f o startable (low.trans high)
      have starts : toStart scripts g (f, o) = true := by
        obtain ⟨_, _, status, daemon⟩ := startable
        simp only [toStart, daemon, path, status, decide_true, Bool.and_true, Bool.not_false, Bool.true_and,
          decide_eq_true_eq]
        rintro disabled
        rw [disabled] at status
        exact absurd status (by decide)
      rw [count_start_open configs cmd scripts g disk clear waits goes, startable.2.1, Option.map_some, Option.getD_some,
        count_launched, if_pos ⟨starts, goes.2.2.2, low, high⟩, one]
    · intro idle
      by_cases goes : StartOpen configs cmd g disk clear
      · rw [count_start_open configs cmd scripts g disk clear waits goes]
        cases there : configs.get f with
        | none => rfl
        | some o =>
          rw [Option.map_some, Option.getD_some, count_launched]
          split
          · next launches_ =>
            obtain ⟨starts, _, low, high⟩ := launches_
            have unhit : hits cmd f = 0 := by
              by_contra hit
              simp only [toStart, Bool.and_eq_true, Bool.not_eq_true', decide_eq_true_eq] at starts
              refine idle ⟨o, ⟨(mem_filtered configs cmd).mpr ⟨by rw [there]; rfl, Nat.pos_of_ne_zero hit⟩, there,
                starts.2, starts.1.1.1⟩, low, high⟩
            rw [unhit, Nat.zero_mul]
          · rfl
      · exact count_start_closed configs cmd scripts g disk clear waits goes

end Start
/-! ## Missing instances -/

section Missing
variable (procs : Procs) (seen : Flow → Seen) (disk : Disk) {f : Flow} {i : Nat}

/-- A pid file without a process, or an instance without a pid file. -/
def Wanting (f : Flow) (o : Options) (d : StateDir) (i : Nat) : Prop :=
  (i ≠ 0 ∧ ∃ text, d.pids.get i = some text ∧ text.any (alive procs) = false) ∨
    (1 ≤ i ∧ i ≤ instances f o ∧ d.pids.get i = none)

/-- The instances that `_find_missing_instances_dir` finds in one directory. -/
def found (f : Flow) (o : Options) (d : StateDir) : List Nat :=
  ((d.pids.entries.filter fun file => file.1 ≠ 0 && !file.2.any (alive procs)).map (·.1)) ++
    (List.range' 1 (instances f o)).filter fun i => (d.pids.get i).isNone

theorem mem_found {o : Options} {d : StateDir} : i ∈ found procs f o d ↔ Wanting procs f o d i := by
  unfold found Wanting
  rw [List.mem_append]
  apply or_congr
  · rw [List.mem_map]
    constructor
    · rintro ⟨⟨j, text⟩, member, rfl⟩
      obtain ⟨there, tests⟩ := List.mem_filter.mp member
      simp only [Bool.and_eq_true, decide_eq_true_eq, Bool.not_eq_true'] at tests
      exact ⟨tests.1, text, (Table.get_eq_some_iff _).mpr there, tests.2⟩
    · rintro ⟨nonzero, text, there, dead⟩
      refine ⟨(i, text), List.mem_filter.mpr ⟨(Table.get_eq_some_iff _).mp there, ?_⟩, rfl⟩
      simp [nonzero, dead]
  · rw [List.mem_filter, mem_range, Option.isNone_iff_eq_none, and_assoc]

theorem found_nodup (o : Options) (d : StateDir) : (found procs f o d).Nodup := by
  apply List.Nodup.append
  · exact (List.filter_sublist.map _).nodup d.pids.distinct
  · exact List.Nodup.filter _ List.nodup_range'
  · intro j stale absent
    obtain ⟨file, member, rfl⟩ := List.mem_map.mp stale
    have there := (Table.get_eq_some_iff _).mpr (List.mem_filter.mp member).1
    have none_ := (List.mem_filter.mp absent).2
    rw [there] at none_
    cases none_

theorem missingOf_found {status : Status} {o : Options} {d : StateDir} (on : d.markers .disabled = false)
    (looked : status ∉ notMissed) : missingOf procs status f o d = (found procs f o d).map (Prod.mk f) := by
  unfold missingOf found
  rw [if_neg (by simp [on]), if_neg looked, List.map_append, List.map_map]
  rfl

/-- A directory that is looked into. -/
def Looked (status : Status) (d : StateDir) : Prop := d.markers .disabled = false ∧ status ∉ notMissed

theorem oneIf_missingOf (status : Status) (o : Options) (d : StateDir) :
    OneIf ((missingOf procs status f o d).count (f, i)) (Looked status d ∧ Wanting procs f o d i) := by
  by_cases looked : Looked status d
  · have pairs := List.count_map_of_injective (found procs f o d) (Prod.mk f) (fun _ _ is => (Prod.mk.inj is).2) i
    rw [missingOf_found procs looked.1 looked.2, pairs]
    exact (oneIf_count (found_nodup procs o d) i).iff.mpr ((mem_found procs).trans (and_iff_right looked).symm)
  · have none_ : missingOf procs status f o d = [] := by
      unfold missingOf
      split
      · rfl
      · next on => rw [if_pos (by_contra fun out => looked ⟨by simpa using on, out⟩)]
    rw [none_]
    exact ⟨fun both => absurd both.1 looked, fun _ => rfl⟩

theorem missingOf_flow {status : Status} {g : Flow} {o : Options} {d : StateDir}
    (member : (f, i) ∈ missingOf procs status g o d) : g = f := by
  unfold missingOf at member
  split at member
  · cases member
  · split at member
    · cases member
    · rcases List.mem_append.mp member with stale | absent
      · obtain ⟨_, _, is⟩ := List.mem_map.mp stale
        exact (Prod.mk.inj is).1
      · obtain ⟨_, _, is⟩ := List.mem_map.mp absent
        exact (Prod.mk.inj is).1

theorem missingIn_flow {host : Bool} {g : Flow} {d : StateDir} (member : (f, i) ∈ missingIn configs procs seen host g d) :
    g = f := by
  unfold missingIn at member
  cases known : configs.get g with
  | none =>
    rw [known] at member
    cases member
  | some o =>
    rw [known] at member
    dsimp only at member
    split at member
    · cases member
    · exact missingOf_flow procs member

/-- An instance of a known flow is found missing in its own state directory only. -/
theorem count_missing {o : Options} (known : configs.get f = some o) :
    (find_missing_instances configs procs seen disk).count (f, i) =
      ((dirOf disk f o).map fun d => (missingOf procs (seen f).status f o d).count (f, i)).getD 0 := by
  have one (host : Bool) : (find_missing_instances_dir configs procs seen disk host).count (f, i) =
      if host ≠ o.statehost then 0
      else (((disk.dirs host).get f).map fun d => (missingOf procs (seen f).status f o d).count (f, i)).getD 0 := by
    unfold find_missing_instances_dir
    rw [Table.count_flatMap (disk.dirs host) (missingIn configs procs seen host)
      fun g d member => missingIn_flow configs procs seen member]
    unfold missingIn
    rw [known]
    dsimp only
    split
    · cases (disk.dirs host).get f <;> rfl
    · rfl
  rw [find_missing_instances, List.count_append, one, one, dirOf]
  cases o.statehost <;> simp

end Missing

/-! ## `sanity` -/

section Sanity
variable {μ : Type} (accumulate : ℚ → Nat → List μ → Metrics) (fresh : World μ) (g : Global) (disk : Disk)
  {f : Flow} {i : Nat}

/-- `sanity` goes to work. -/
def SanityOpen : Prop := notFound configs cmd = false ∧ g.flux = [] ∧ cmd.dry_run = false

theorem count_then {h : Doing} {effects : List Effect} : (h.then_ effects).effects.count (.launch f i) =
    h.effects.count (.launch f i) + effects.count (.launch f i) := List.count_append

theorem count_clean (dry_run : Bool) (procs : Procs) (missing : List (Flow × Nat)) (h : Doing) :
    (clean_missing_proc_state dry_run procs missing h).effects.count (.launch f i) = h.effects.count (.launch f i) := by
  unfold clean_missing_proc_state
  split
  · rfl
  · rw [List.count_append, count_map_unlaunched (fun _ _ _ => Effect.noConfusion), Nat.add_zero]

theorem count_tag_sanity (ending : Bool) (h : Doing) :
    (tag_sanity ending h).effects.count (.launch f i) = h.effects.count (.launch f i) := by
  unfold tag_sanity
  split <;> rw [List.count_append, count_map_unlaunched (fun _ _ _ => Effect.noConfusion), Nat.add_zero]

theorem count_start_missing (missing : List (Flow × Nat)) : (start_missing configs cmd scripts missing).count (.launch f i) =
    if f ∈ filtered_configurations configs cmd ∧ find_component_path scripts f.c = true then missing.count (f, i) else 0 := by
  unfold start_missing
  rw [List.count_map_of_injective _ (fun m : Flow × Nat => Effect.launch m.1 m.2)
    (fun _ _ is => Prod.ext (Effect.launch.inj is).1 (Effect.launch.inj is).2) (f, i)]
  by_cases chosen : f ∈ filtered_configurations configs cmd ∧ find_component_path scripts f.c = true
  · rw [if_pos chosen, List.count_filter (by simpa using chosen)]
  · rw [if_neg chosen]
    apply List.count_eq_zero.mpr
    intro member
    exact chosen (by simpa using (List.mem_filter.mp member).2)

theorem count_restore (procs : Procs) (h : Doing) (wet : cmd.dry_run = false) (fresh_ : h.effects.count (.launch f i) = 0) :
    (restore accumulate configs cmd scripts fresh g procs h).1.effects.count (.launch f i) =
      if somethingMissing configs cmd scripts g = true ∧ f ∈ filtered_configurations configs cmd ∧
          find_component_path scripts f.c = true then
        (find_missing_instances configs procs g.seen h.disk).count (f, i)
      else 0 := by
  unfold restore
  by_cases something : somethingMissing configs cmd scripts g = true
  · simp only [something, wet, if_true, true_and, Bool.false_eq_true, if_false]
    rw [count_then, count_clean, fresh_, Nat.zero_add, count_start_missing]
  · simp only [something, if_false, false_and, Bool.false_eq_true]
    exact fresh_

theorem count_sanity_open (goes : SanityOpen configs cmd g) :
    (sanity accumulate configs cmd scripts fresh g disk).effects.count (.launch f i) =
      if somethingMissing configs cmd scripts g = true ∧ f ∈ filtered_configurations configs cmd ∧
          find_component_path scripts f.c = true then
        (find_missing_instances configs (afterKills configs cmd scripts g fresh) g.seen disk).count (f, i)
      else 0 := by
  obtain ⟨found, calm, wet⟩ := goes
  unfold sanity
  simp only [found, calm, wet, Bool.false_eq_true, if_false, ne_eq, not_true_eq_false]
  rw [count_tag_sanity, count_then, count_map_unlaunched (fun _ _ _ => Effect.noConfusion), Nat.add_zero, count_restore]
  · rfl
  · exact wet
  · rw [count_then, count_tag_sanity, count_map_unlaunched (fun _ _ _ => Effect.noConfusion)]
    rfl

theorem count_sanity_closed (shut : ¬ SanityOpen configs cmd g) :
    (sanity accumulate configs cmd scripts fresh g disk).effects.count (.launch f i) = 0 := by
  unfold sanity
  split
  · rfl
  · next found =>
    split
    · rfl
    · next calm =>
      have dry : cmd.dry_run = true := by
        by_contra wet
        exact shut ⟨by simpa using found, by simpa using calm, by simpa using wet⟩
      have still (procs : Procs) (h : Doing) : (restore accumulate configs cmd scripts fresh g procs h).1 = h := by
        unfold restore
        split
        · simp [dry, clean_missing_proc_state]
        · rfl
      simp only [dry, if_true, still]
      rw [count_tag_sanity, count_tag_sanity]
      rfl

/-- What `sanity` launches. -/
def Launches (f : Flow) (i : Nat) : Prop :=
  SanityOpen configs cmd g ∧ somethingMissing configs cmd scripts g = true ∧ f ∈ filtered_configurations configs cmd ∧
    find_component_path scripts f.c = true ∧ ∃ o d, configs.get f = some o ∧ dirOf disk f o = some d ∧
      Looked (g.seen f).status d ∧ Wanting (afterKills configs cmd scripts g fresh) f o d i

theorem oneIf_sanity : OneIf ((sanity accumulate configs cmd scripts fresh g disk).effects.count (.launch f i))
    (Launches configs cmd scripts fresh g disk f i) := by
  by_cases goes : SanityOpen configs cmd g
  · rw [count_sanity_open configs cmd scripts accumulate fresh g disk goes]
    by_cases chosen : somethingMissing configs cmd scripts g = true ∧ f ∈ filtered_configurations configs cmd ∧
        find_component_path scripts f.c = true
    · obtain ⟨o, known⟩ := Option.isSome_iff_exists.mp ((mem_filtered configs cmd).mp chosen.2.1).1
      rw [if_pos chosen, count_missing configs _ _ _ known]
      cases there : dirOf disk f o with
      | none =>
        refine ⟨fun ⟨_, _, _, _, o', d, known', there', _⟩ => ?_, fun _ => rfl⟩
        cases known.symm.trans known'
        cases there.symm.trans there'
      | some d =>
        apply (oneIf_missingOf _ _ o d).iff.mpr
        constructor
        · intro both
          exact ⟨goes, chosen.1, chosen.2.1, chosen.2.2, o, d, known, there, both⟩
        · intro ⟨_, _, _, _, o', d', known', there', both⟩
          cases known.symm.trans known'
          cases there.symm.trans there'
          exact both
    · rw [if_neg chosen]
      exact ⟨fun launches_ => absurd ⟨launches_.2.1, launches_.2.2.1, launches_.2.2.2.1⟩ chosen, fun _ => rfl⟩
  · rw [count_sanity_closed configs cmd scripts accumulate fresh g disk goes]
    exact ⟨fun launches_ => absurd launches_.1 goes, fun _ => rfl⟩

/-- No pid file of the instance names a living process. -/
def NoLive (procs : Procs) (dir : Option StateDir) (i : Nat) : Prop :=
  ∀ d, dir = some d → ∀ pid, d.pids.get i = some (some pid) → alive procs pid = false

/-- The states of a flow that has lost instances, or has some that hang. -/
def lost : List Status := [.missing, .partial_, .hung]

def SanityDue (f : Flow) (i : Nat) : Prop :=
  ∃ o, f ∈ filtered_configurations configs cmd ∧ configs.get f = some o ∧ (g.seen f).status ∈ lost ∧
    1 ≤ i ∧ i ≤ instances f o ∧ NoLive (afterKills configs cmd scripts g fresh) (dirOf disk f o) i

/-- Where an instance is due, `sanity` goes to work, the script is there, and no marker disables the flow. -/
def Acts : Prop := ∀ f i, SanityDue configs cmd scripts fresh g disk f i →
  SanityOpen configs cmd g ∧ find_component_path scripts f.c = true ∧
    ∀ o, configs.get f = some o → hasMarker disk f o .disabled = false

/-- Where `sanity` looks for instances, a flow that has lost some has no old pid file above their number, and
one in another state has lost none. -/
def Spares : Prop := SanityOpen configs cmd g → somethingMissing configs cmd scripts g = true →
  ∀ f o d, f ∈ filtered_configurations configs cmd → find_component_path scripts f.c = true →
    configs.get f = some o → dirOf disk f o = some d → Looked (g.seen f).status d →
      ((g.seen f).status ∈ lost → ∀ i text, d.pids.get i = some text → instances f o < i →
        text.any (alive (afterKills configs cmd scripts g fresh)) = true) ∧
      ((g.seen f).status ∉ lost → ∀ i, ¬ Wanting (afterKills configs cmd scripts g fresh) f o d i)

def SanitySound : Prop := Acts configs cmd scripts fresh g disk ∧ Spares configs cmd scripts fresh g disk

theorem wanting_iff_noLive (procs : Procs) {o : Options} {d : StateDir} (low : 1 ≤ i) (high : i ≤ instances f o) :
    Wanting procs f o d i ↔ NoLive procs (some d) i := by
  have nonzero : i ≠ 0 := Nat.ne_of_gt low
  unfold Wanting NoLive
  simp only [nonzero, low, high, ne_eq, not_false_eq_true, true_and, Option.some.injEq, forall_eq']
  cases d.pids.get i with
  | none => simp
  | some text => cases text <;> simp

theorem lost_dir (w : World μ) {o : Options} (known : configs.get f = some o)
    (lost_ : ((construct accumulate configs w).seen f).status ∈ lost) : ∃ d, dirOf w.disk f o = some d := by
  rw [seen_construct accumulate _ _ configs w known] at lost_
  cases there : dirOf w.disk f o with
  | some d => exact ⟨d, rfl⟩
  | none =>
    have idle : read_status f o none ∉ lost := by
      unfold read_status
      cases interactive f o <;> decide
    rw [there, look] at lost_
    exact absurd lost_ idle

theorem hung_something (w : World μ) {o : Options} (known : configs.get f = some o)
    (hangs : ((construct accumulate configs w).seen f).status = .hung) :
    ((construct accumulate configs w).seen f).hung_instances ≠ [] := by
  rw [seen_construct accumulate _ _ configs w known] at hangs ⊢
  cases there : dirOf w.disk f o with
  | none =>
    rw [there, look, read_status] at hangs
    cases idle : interactive f o <;> simp [idle] at hangs
  | some d =>
    rw [there, look_status] at hangs
    exact List.length_pos_iff.mp (settle_hung f o _ _ _ hangs)

theorem mem_selection_iff {o : Options} (known : configs.get f = some o)
    (selected : f ∈ filtered_configurations configs cmd) : (f, o) ∈ selection configs cmd :=
  List.mem_filterMap.mpr ⟨f, selected, by rw [known]; rfl⟩

theorem due_something (w : World μ) {o : Options} (known : configs.get f = some o)
    (selected : f ∈ filtered_configurations configs cmd) (path : find_component_path scripts f.c = true)
    (lost_ : ((construct accumulate configs w).seen f).status ∈ lost) (some_ : 0 < instances f o) :
    somethingMissing configs cmd scripts (construct accumulate configs w) = true := by
  unfold somethingMissing
  rw [List.any_eq_true]
  refine ⟨(f, o), mem_selection_iff configs cmd known selected, ?_⟩
  have either : ((construct accumulate configs w).seen f).status ∈ [Status.missing, .partial_] ∨
      ((construct accumulate configs w).seen f).status = .hung := by
    simpa [lost, or_assoc] using lost_
  rcases either with gone | hangs
  · simp [path, gone, some_]
  · have hung := hung_something configs accumulate w known hangs
    simp [path, hung]

/-- `sanity` launches exactly what is due where it is sound to do so. -/
theorem sanity_exactly_iff (w : World μ) :
    Exactly (sanity accumulate configs cmd scripts fresh (construct accumulate configs w) w.disk).effects
      (SanityDue configs cmd scripts fresh (construct accumulate configs w) w.disk) ↔
      SanitySound configs cmd scripts fresh (construct accumulate configs w) w.disk := by
  have law : Exactly (sanity accumulate configs cmd scripts fresh (construct accumulate configs w) w.disk).effects
      (SanityDue configs cmd scripts fresh (construct accumulate configs w) w.disk) ↔
      ∀ f i, (Launches configs cmd scripts fresh (construct accumulate configs w) w.disk f i ↔
        SanityDue configs cmd scripts fresh (construct accumulate configs w) w.disk f i) :=
    forall₂_congr fun f i => (oneIf_sanity configs cmd scripts accumulate fresh _ w.disk).iff
  rw [law]
  generalize same : construct accumulate configs w = g
  constructor
  · intro agree
    constructor
    · intro f i due
      obtain ⟨goes, _, _, path, o, d, known, there, looked, _⟩ := (agree f i).mpr due
      refine ⟨goes, path, fun o' known' => ?_⟩
      cases known.symm.trans known'
      rw [hasMarker, there]
      exact looked.1
    · intro goes something f o d selected path known there looked
      have due (i : Nat) (wanting : Wanting (afterKills configs cmd scripts g fresh) f o d i) :
          SanityDue configs cmd scripts fresh g w.disk f i :=
        (agree f i).mp ⟨goes, something, selected, path, o, d, known, there, looked, wanting⟩
      constructor
      · intro _ i text file above
        by_contra dead
        have wanting : Wanting (afterKills configs cmd scripts g fresh) f o d i :=
          Or.inl ⟨Nat.ne_zero_of_lt above, text, file, by simpa using dead⟩
        obtain ⟨o', _, known', _, _, high, _⟩ := due i wanting
        cases known.symm.trans known'
        omega
      · intro other i wanting
        obtain ⟨_, _, _, lost_, _⟩ := due i wanting
        exact other lost_
  · intro ⟨acts, spares⟩ f i
    constructor
    · intro ⟨goes, something, selected, path, o, d, known, there, looked, wanting⟩
      obtain ⟨low_, whole⟩ := spares goes something f o d selected path known there looked
      by_cases lost_ : (g.seen f).status ∈ lost
      · have bounds : 1 ≤ i ∧ i ≤ instances f o := by
          rcases wanting with ⟨nonzero, text, file, dead⟩ | ⟨low, high, _⟩
          · refine ⟨Nat.one_le_iff_ne_zero.mpr nonzero, ?_⟩
            by_contra above
            rw [low_ lost_ i text file (Nat.lt_of_not_le above)] at dead
            cases dead
          · exact ⟨low, high⟩
        refine ⟨o, selected, known, lost_, bounds.1, bounds.2, ?_⟩
        rw [there]
        exact (wanting_iff_noLive _ bounds.1 bounds.2).mp wanting
      · exact absurd wanting (whole lost_ i)
    · intro due
      obtain ⟨goes, path, on⟩ := acts f i due
      obtain ⟨o, selected, known, lost_, low, high, dead⟩ := due
      subst same
      obtain ⟨d, there⟩ := lost_dir configs accumulate w known lost_
      refine ⟨goes, due_something configs cmd scripts accumulate w known selected path lost_ (low.trans high), selected,
        path, o, d, known, there, ⟨?_, ?_⟩, ?_⟩
      · have off := on o known
        rwa [hasMarker, there] at off
      · intro unlooked
        simp only [lost, List.mem_cons, List.not_mem_nil, or_false] at lost_
        rcases lost_ with is | is | is <;> rw [is] at unlooked <;> exact absurd unlooked (by decide)
      · rw [there] at dead
        exact (wanting_iff_noLive _ low high).mpr dead

end Sanity

/-! ## The law -/

/-- Both actions launch exactly what is due where both are sound. -/
theorem launch_law_iff {μ : Type} (accumulate : ℚ → Nat → List μ → Metrics) (w fresh : World μ) (disk : Disk)
    (clear : Bool) (waits : Flow → Disk → Option Disk) :
    (Exactly (start configs cmd scripts clear waits (construct accumulate configs w) disk).effects
        (StartDue configs cmd (construct accumulate configs w)) ∧
      Exactly (sanity accumulate configs cmd scripts fresh (construct accumulate configs w) w.disk).effects
        (SanityDue configs cmd scripts fresh (construct accumulate configs w) w.disk)) ↔
      StartSound configs cmd scripts (construct accumulate configs w) disk clear ∧
        SanitySound configs cmd scripts fresh (construct accumulate configs w) w.disk :=
  and_congr (start_exactly_iff configs cmd scripts _ disk clear waits)
    (sanity_exactly_iff configs cmd scripts accumulate fresh w)

/-- Without a pattern every flow is hit once. -/
theorem hits_all (f : Flow) (all : cmd.configurations = []) : hits cmd f = 1 := by
  have everything : patterns cmd = ["*/*".toList] := by
    rw [patterns, if_pos all]
    decide
  have fits : Glob.fnmatch (fcc f) "*/*".toList = true := by
    have read : Glob.tokens "*/*".toList = [.star, .literal '/', .star] := by decide
    rw [Glob.fnmatch, read]
    exact Glob.fits_around (List.mem_append_right _ List.mem_cons_self)
  have other (n : Nat) : butLast n (fcc f) ≠ "*/*".toList := by
    intro same
    have starts : "*/*".toList <+: fcc f := by
      rw [← same]
      exact List.take_prefix _ _
    obtain ⟨rest, is⟩ := starts
    have component (c : Component) : ∃ letter name, c.name = letter :: name ∧ letter ≠ '*' := by
      cases c <;> exact ⟨_, _, rfl, by decide⟩
    obtain ⟨letter, name, named, apart⟩ := component f.c
    rw [fcc, named] at is
    exact apart (List.cons.inj is).1.symm
  have plain : "*/*".toList ∉ notPatterns := by decide
  have ended : lastChars 5 "*/*".toList ≠ ".conf".toList := by decide
  rw [hits, everything, List.map_singleton, List.sum_singleton, matched, if_neg plain, if_pos fits,
    if_neg fun both => other 5 both.2, if_neg fun both => other 4 both.2, if_neg fun both => ended both.1]

/-! ## A flow that is selected twice -/

def oneFlow : Configs := ⟨[(⟨.subscribe, "amis".toList⟩, oneInstance)], List.nodup_singleton _⟩

def freshWorld : World Metrics :=
  ⟨0, "sarra".toList, [], ⟨fun _ => Table.empty, fun _ => false, []⟩, fun _ => ⟨none, Table.empty⟩⟩

theorem launched_twice : ¬ ∀ (configs : Configs) (cmd : Command) (scripts : Str → Bool) (w : World Metrics) (disk : Disk)
    (clear : Bool) (waits : Flow → Disk → Option Disk), Exactly
      (start configs cmd scripts clear waits (construct (fun _ _ _ => empty_metrics) configs w) disk).effects
      (StartDue configs cmd (construct (fun _ _ _ => empty_metrics) configs w)) := by
  intro law
  have once := law oneFlow ⟨false, 0, ["subscribe/*".toList, "*/amis".toList]⟩ (fun _ => true) freshWorld freshWorld.disk true
    (fun _ _ => none) ⟨.subscribe, "amis".toList⟩ 1
  have due : StartDue oneFlow ⟨false, 0, ["subscribe/*".toList, "*/amis".toList]⟩
      (construct (fun _ _ _ => empty_metrics) oneFlow freshWorld) ⟨.subscribe, "amis".toList⟩ 1 :=
    ⟨oneInstance, ⟨by decide, rfl, by decide, by decide⟩, by decide, by decide⟩
  exact absurd (once.1 due) (by decide)

end Sarracenia.Guarantees.Sr.Launch
