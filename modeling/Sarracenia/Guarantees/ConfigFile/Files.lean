import Sarracenia.Guarantees.ConfigFile.Lines
import Sarracenia.Guarantees.Filter.Conservation

/-!
# Files

What a line does is carried from line to line, and from a file to the one that includes it. An exception ends a file, and is not
passed on where the file is included.
-/
namespace Sarracenia.Guarantees.ConfigFile
open Library Library.Text Library.Decimal Library.Dynamic
open Source Source.ConfigFile

section Accounts
variable {L : Type} {w : World L} {m : Met L} {items : List Item} {inner : Conf L → Str → Parsed L} {file : Str} {s s' : Conf L}
  {met met' : List (Met L)} {r : Parsed L}

/-- What was added to the masks can be used exactly if each line that was begun adds nothing else. -/
def Masked (w : World L) (items : List Item) (s : Conf L) (met : List (Met L)) : Prop :=
  ∃ added, s.attr "masks".toList = some (.list (items ++ added)) ∧
    ((∀ item ∈ added, (maskOf w item).isSome) ↔ ∀ m ∈ met, Keeps w m)

/-- Each line of a file that was opened was processed. -/
def Whole (w : World L) (e : Str × Nat) : Prop := ∀ lines, w.files e.1 = some lines → e.2 = lines.length

/-- Of a line, or of the lines of a file. -/
structure Accounted (w : World L) (items : List Item) (met : List (Met L)) (r : Parsed L) : Prop where
  masks : Masked w items r.conf met
  whole : (r.raised = none ∧ ∀ e ∈ r.opened, Whole w e) ↔ ∀ m ∈ met, Runs w m

/-- Of a file, which may have ended with an exception. -/
structure Kept (w : World L) (items : List Item) (r : Parsed L) : Prop where
  masks : Masked w items r.conf r.met
  whole : (∀ e ∈ r.opened, Whole w e) ↔ ∀ m ∈ r.met, Runs w m

theorem masked_none (are : s.attr "masks".toList = some (.list items)) (keeps : ∀ m ∈ met, Keeps w m) : Masked w items s met :=
  ⟨[], are.trans (by rw [List.append_nil]), iff_of_true nofun keeps⟩

theorem masked_one {item : Item} (are : s.attr "masks".toList = some (.list (items ++ [item])))
    (usable : (maskOf w item).isSome ↔ Keeps w m) : Masked w items s [m] :=
  ⟨[item], are, by rw [List.forall_mem_singleton, List.forall_mem_singleton, usable]⟩

/-- What comes after goes on from the masks that are there. -/
theorem Masked.append (masked : Masked w items s met)
    (later : ∀ items, s.attr "masks".toList = some (.list items) → Masked w items s' met') : Masked w items s' (met ++ met') := by
  obtain ⟨added, are, usable⟩ := masked
  obtain ⟨added', are', usable'⟩ := later _ are
  refine ⟨added ++ added', are'.trans (by rw [List.append_assoc]), ?_⟩
  rw [List.forall_mem_append, List.forall_mem_append, usable, usable']

theorem perform_masked {b : Branch} {k v : Str} {more : List Str} (is : m.command w = .perform s b k v more)
    (are : s.attr "masks".toList = some (.list items)) : Masked w items (perform w s b m.cfname m.lineno k v more).1 [m] := by
  obtain ⟨branch, -⟩ := met_perform is
  have keeps := keeps_perform is
  by_cases mask : b = .mask
  · subst mask
    refine masked_one (perform_mask are) ?_
    rw [keeps, usable_iff]
    simp
  · by_cases text : b = .other ∧ k = "masks".toList
    · obtain ⟨rfl, rfl⟩ := text
      refine masked_one (perform_text are) (iff_of_false nofun fun kept => ?_)
      exact (keeps.mp kept).2 rfl rfl
    · refine masked_none ((perform_same mask ?_).masks are) ?_
      · by_cases named : k = "masks".toList
        · subst named
          rcases branch_masks (s := s) with port | entry | other
          · exact .inl (branch.trans port)
          · exact .inr (.inl (branch.trans entry))
          · exact absurd ⟨branch.trans other, rfl⟩ text
        · exact .inr (.inr named)
      · rw [List.forall_mem_singleton, keeps]
        exact ⟨fun is => absurd is mask, fun is same => text ⟨is, same⟩⟩

theorem line_accounted
    (kept : ∀ s v items, s.attr "masks".toList = some (.list items) → (inner s v).cut = false → Kept w items (inner s v))
    (are : m.conf.attr "masks".toList = some (.list items)) (ends : (parse_line w inner file m).cut = false) :
    Accounted w items (m :: (parse_line w inner file m).met) (parse_line w inner file m) := by
  have same := met_same (w := w) (m := m)
  unfold parse_line at ends ⊢
  cases is : m.command w with
  | done s =>
    rw [is] at same
    dsimp only [Parsed.of]
    have keeps : Keeps w m := keeps_of fun s' b k v more also => by cases is.symm.trans also
    have runs : Runs w m := runs_iff.mpr ⟨by rw [is]; rfl, fun s' b k v more also => by cases is.symm.trans also⟩
    exact ⟨masked_none (same.masks are) (by rwa [List.forall_mem_singleton]),
      iff_of_true ⟨rfl, nofun⟩ (by rwa [List.forall_mem_singleton])⟩
  | raised s fault =>
    rw [is] at same
    dsimp only [Parsed.of]
    have keeps : Keeps w m := keeps_of fun s' b k v more also => by cases is.symm.trans also
    refine ⟨masked_none (same.masks are) (by rwa [List.forall_mem_singleton]), iff_of_false (fun both => nomatch both.1) fun runs => ?_⟩
    have raises := (runs_iff.mp (runs m List.mem_cons_self)).1
    rw [is] at raises
    cases raises
  | perform s b k v more =>
    rw [is] at same
    dsimp only [Parsed.of]
    refine ⟨perform_masked is (same.masks are), ?_⟩
    rw [List.forall_mem_singleton, runs_perform is, ← perform_raised m.cfname m.lineno]
    exact ⟨fun both => both.1, fun raised => ⟨raised, nofun⟩⟩
  | include_ s v =>
    rw [is] at same ends
    dsimp only
    have keeps : Keeps w m := keeps_of fun s' b k v more also => by cases is.symm.trans also
    have runs : Runs w m := runs_iff.mpr ⟨by rw [is]; rfl, fun s' b k v more also => by cases is.symm.trans also⟩
    have cut : (inner s v).cut = false := ends
    obtain ⟨⟨added, added_are, usable⟩, whole⟩ := kept s v items (same.masks are) cut
    constructor
    · refine ⟨added, added_are, ?_⟩
      rw [List.forall_mem_cons, and_iff_right keeps]
      exact usable
    · rw [List.forall_mem_cons, and_iff_right runs]
      rw [cut, if_neg Bool.false_ne_true, and_iff_right rfl]
      exact whole

variable {component : Option Str} {cfname : Str}

/-- The lines of a file, from one on. -/
theorem lines_accounted
    (kept : ∀ s v items, s.attr "masks".toList = some (.list items) → (inner s v).cut = false → Kept w items (inner s v)) {n : Nat}
    {lines : List (List Str)} {saved : Attr} (are : s.attr "masks".toList = some (.list items))
    (ends : (parse_lines w inner file component cfname n lines saved s).cut = false) :
    Accounted w items (parse_lines w inner file component cfname n lines saved s).met
      (parse_lines w inner file component cfname n lines saved s) ∧
      ((parse_lines w inner file component cfname n lines saved s).processed = lines.length ↔
        (parse_lines w inner file component cfname n lines saved s).raised = none) := by
  induction lines generalizing n saved s items with
  | nil =>
    have same : Same s ((s.setattr "files".toList (.list (s.listOf "files").dropLast)).setattr "lineno".toList saved) :=
      (named_same (by decide : "files" ≠ "masks")).trans (named_same (by decide))
    exact ⟨⟨masked_none (same.masks are) nofun, iff_of_true ⟨rfl, nofun⟩ nofun⟩, iff_of_true rfl rfl⟩
  | cons line lines ih =>
    have line_ : (parse_line w inner file ⟨s, component, cfname, n, line⟩).cut = false → Accounted w items _ _ :=
      line_accounted kept are
    rw [parse_lines] at ends ⊢
    dsimp only at ends ⊢
    generalize parse_line w inner file ⟨s, component, cfname, n, line⟩ = r at line_ ends ⊢
    by_cases stops : r.cut = true ∨ r.raised.isSome = true
    · rw [if_pos stops] at ends ⊢
      obtain ⟨masks, whole⟩ := line_ ends
      have raised : r.raised ≠ none := Option.isSome_iff_ne_none.mp (stops.resolve_left (ne_true_of_eq_false ends))
      exact ⟨⟨masks, whole⟩, iff_of_false nofun raised⟩
    · rw [if_neg stops] at ends ⊢
      rw [not_or, Bool.not_eq_true, Bool.not_eq_true, Option.isSome_eq_false_iff, Option.isNone_iff_eq_none] at stops
      obtain ⟨masks, whole⟩ := line_ stops.1
      rw [and_iff_right stops.2] at whole
      have later {items : List Item} (are : r.conf.attr "masks".toList = some (.list items)) := ih are ends
      constructor
      · constructor
        · exact masks.append fun items are => (later are).1.masks
        · obtain ⟨added, are', -⟩ := masks
          have rest := (later are').1.whole
          rw [List.forall_mem_append, List.forall_mem_append, ← whole, ← rest]
          exact and_left_comm
      · obtain ⟨added, are', -⟩ := masks
        rw [← (later are').2, List.length_cons]
        exact Nat.add_right_cancel_iff

theorem file_kept {n : Nat} {cfg : Str} (are : s.attr "masks".toList = some (.list items))
    (ends : (parse_file w n s cfg component).cut = false) : Kept w items (parse_file w n s cfg component) := by
  induction n generalizing s cfg component items with
  | zero => cases ends
  | succ n ih =>
    rw [parse_file] at ends ⊢
    dsimp only at ends ⊢
    split
    · exact ⟨masked_none are nofun, iff_of_true nofun nofun⟩
    · next named =>
      rw [if_neg named] at ends
      cases found : search w s (w.expanduser cfg) with
      | none => exact ⟨masked_none are nofun, iff_of_true nofun nofun⟩
      | some path =>
        have opened : Same s (s.append "files" (.text path)) := append_same (by decide)
        have seen := opened.trans (named_same (a := .bool false) (by decide : "subtopic_seen" ≠ "masks"))
        rw [found] at ends
        dsimp only at ends ⊢
        cases there : w.files path with
        | none => exact ⟨masked_none (seen.masks are) nofun, iff_of_true nofun nofun⟩
        | some lines =>
          rw [there] at ends
          obtain ⟨⟨masks, whole⟩, processed⟩ := lines_accounted (fun s v items are ends => ih are ends) (seen.masks are) ends
          refine ⟨masks, Iff.trans ?_ whole⟩
          rw [List.forall_mem_cons, ← processed]
          refine and_congr_left fun _ => ⟨fun all => all lines there, fun all lines' also => ?_⟩
          cases there.symm.trans also
          exact all

end Accounts

/-! ## Includes -/

section Includes
variable {L : Type} {w : World L} {m : Met L} {inner inner' : Conf L → Str → Parsed L} {file path cfg cfname : Str} {s : Conf L}
  {component : Option Str} {rank : Str → Nat} {n : Nat} {lines : List (List Str)} {saved : Attr}

/-- An included file has a smaller rank than the one that includes it. -/
def Falls (rank : Str → Nat) (included : List (Str × Str)) : Prop := ∀ e ∈ included, rank e.2 < rank e.1

/-- A file that is included from here, if it can be read. -/
def Below (w : World L) (rank : Str → Nat) (bound : Nat) (s : Conf L) (cfg : Str) : Prop :=
  ∀ path, search w s (w.expanduser cfg) = some path → (w.files path).isSome → rank path < bound

theorem line_ends (ends : ∀ s v, Below w rank (rank file) s v → Falls rank (inner s v).included → (inner s v).cut = false)
    (falls : Falls rank (parse_line w inner file m).included) : (parse_line w inner file m).cut = false := by
  unfold parse_line at falls ⊢
  cases is : m.command w with
  | done s => rfl
  | raised s fault => rfl
  | perform s b k v more => rfl
  | include_ s v =>
    rw [is] at falls
    dsimp only at falls ⊢
    obtain ⟨edge, later⟩ := List.forall_mem_append.mp falls
    refine ends s v (fun path found there => ?_) later
    rw [found] at edge
    exact edge (file, path) (by simp [Option.filter, there])

theorem lines_end (ends : ∀ s v, Below w rank (rank file) s v → Falls rank (inner s v).included → (inner s v).cut = false)
    (falls : Falls rank (parse_lines w inner file component cfname n lines saved s).included) :
    (parse_lines w inner file component cfname n lines saved s).cut = false := by
  induction lines generalizing n saved s with
  | nil => rfl
  | cons line lines ih =>
    rw [parse_lines] at falls ⊢
    dsimp only at falls ⊢
    have here := line_ends (m := ⟨s, component, cfname, n, line⟩) ends
    generalize parse_line w inner file ⟨s, component, cfname, n, line⟩ = r at here falls ⊢
    split
    · next stops =>
      rw [if_pos stops] at falls
      exact here falls
    · next goes =>
      rw [if_neg goes] at falls
      exact ih (List.forall_mem_append.mp falls).2

/-- Includes that fall in rank are followed to the end. -/
theorem file_ends (some_ : 0 < n) (below : Below w rank (n - 1) s cfg) (falls : Falls rank (parse_file w n s cfg component).included) :
    (parse_file w n s cfg component).cut = false := by
  induction n generalizing s cfg component with
  | zero => cases some_
  | succ n ih =>
    rw [parse_file] at falls ⊢
    dsimp only at falls ⊢
    split
    · rfl
    · next named =>
      rw [if_neg named] at falls
      cases found : search w s (w.expanduser cfg) with
      | none => rfl
      | some path =>
        rw [found] at falls
        dsimp only at falls ⊢
        cases there : w.files path with
        | none => rfl
        | some lines =>
          rw [there] at falls
          refine lines_end (fun s v lower falls => ?_) falls
          have here : rank path < n := below path found (by rw [there]; rfl)
          exact ih (by omega) (fun path' found there => by have := lower path' found there; omega) falls

theorem line_more (more : ∀ s v, (inner s v).cut = false → inner' s v = inner s v) (ends : (parse_line w inner file m).cut = false) :
    parse_line w inner' file m = parse_line w inner file m := by
  unfold parse_line at ends ⊢
  cases is : m.command w with
  | done s => rfl
  | raised s fault => rfl
  | perform s b k v more => rfl
  | include_ s v =>
    rw [is] at ends
    dsimp only at ends ⊢
    rw [more s v ends]

theorem lines_more (more : ∀ s v, (inner s v).cut = false → inner' s v = inner s v)
    (ends : (parse_lines w inner file component cfname n lines saved s).cut = false) :
    parse_lines w inner' file component cfname n lines saved s = parse_lines w inner file component cfname n lines saved s := by
  induction lines generalizing n saved s with
  | nil => rfl
  | cons line lines ih =>
    rw [parse_lines] at ends
    dsimp only at ends
    by_cases stops : (parse_line w inner file ⟨s, component, cfname, n, line⟩).cut = true ∨
        (parse_line w inner file ⟨s, component, cfname, n, line⟩).raised.isSome = true
    · rw [if_pos stops] at ends
      rw [parse_lines, parse_lines, line_more more ends]
      dsimp only
      rw [if_pos stops, if_pos stops]
    · rw [if_neg stops] at ends
      have here : (parse_line w inner file ⟨s, component, cfname, n, line⟩).cut = false := by
        simpa using not_or.mp stops |>.1
      rw [parse_lines, parse_lines, line_more more here]
      dsimp only
      rw [if_neg stops, if_neg stops, ih ends]

/-- Following includes further changes nothing once all have been followed. -/
theorem file_more (ends : (parse_file w n s cfg component).cut = false) :
    parse_file w (n + 1) s cfg component = parse_file w n s cfg component := by
  induction n generalizing s cfg component with
  | zero => cases ends
  | succ n ih =>
    rw [parse_file] at ends
    rw [parse_file, parse_file]
    dsimp only at ends ⊢
    split
    · rfl
    · next named =>
      rw [if_neg named] at ends
      cases found : search w s (w.expanduser cfg) with
      | none => rfl
      | some path =>
        rw [found] at ends
        dsimp only at ends ⊢
        cases there : w.files path with
        | none => rfl
        | some lines =>
          rw [there] at ends
          dsimp only at ends ⊢
          rw [lines_more (fun s v ends => ih ends) ends]

end Includes

/-! ## Bad lines -/

section Good
variable {L : Type} {w : World L} {s : Conf L} {cfg path : Str} {component : Option Str} {items : List Item} {rank : Str → Nat} {n : Nat}

/-- Nothing was raised, each line of each file that was opened was processed, each mask can be used, and a line with an invalid
expression added none. -/
structure Good (w : World L) (r : Parsed L) : Prop where
  ends : r.cut = false
  raised : r.raised = none
  whole : ∀ e ∈ r.opened, Whole w e
  masks : ∃ items, r.conf.attr "masks".toList = some (.list items) ∧ ∀ item ∈ items, (maskOf w item).isSome
  invalid : ∀ m ∈ r.met, ∀ s k v more, m.command w = .perform s .mask k v more → w.compile v = none →
    (perform w s .mask m.cfname m.lineno k v more).1.attr "masks".toList = s.attr "masks".toList

/-- A file that can be read is its lines, with nothing done to the masks before. -/
theorem file_opens {lines : List (List Str)} (n : Nat) (component : Option Str) (named : w.expanduser cfg ≠ [])
    (found : search w s (w.expanduser cfg) = some path) (there : w.files path = some lines) :
    ∃ s' cfname r, Same s s' ∧ r = parse_lines w (fun s v => parse_file w n s v none) path component cfname 1 lines (.int 0) s' ∧
      parse_file w (n + 1) s cfg component = { r with opened := (path, r.processed) :: r.opened } := by
  have opened : Same s (s.append "files" (.text path)) := append_same (by decide)
  have seen := opened.trans (named_same (a := .bool false) (by decide : "subtopic_seen" ≠ "masks"))
  refine ⟨_, component.elim cfg fun component => component ++ '/' :: cfg, _, seen, rfl, ?_⟩
  rw [parse_file]
  dsimp only
  rw [if_neg named, found]
  dsimp only
  rw [there]

/-- It raises exactly where not all of it is processed. -/
theorem file_raised (named : w.expanduser cfg ≠ []) (found : search w s (w.expanduser cfg) = some path)
    (there : (w.files path).isSome) (are : s.attr "masks".toList = some (.list items))
    (ends : (parse_file w n s cfg component).cut = false) (whole : ∀ e ∈ (parse_file w n s cfg component).opened, Whole w e) :
    (parse_file w n s cfg component).raised = none := by
  cases n with
  | zero => cases ends
  | succ n =>
    obtain ⟨lines, there⟩ := Option.isSome_iff_exists.mp there
    obtain ⟨s', cfname, r, same, rfl, is⟩ := file_opens n component named found there
    rw [is] at ends whole ⊢
    obtain ⟨-, processed⟩ := lines_accounted (fun s v items are ends => file_kept are ends) (same.masks are) ends
    exact processed.mp ((List.forall_mem_cons.mp whole).1 lines there)

theorem kept_good (named : w.expanduser cfg ≠ []) (found : search w s (w.expanduser cfg) = some path) (there : (w.files path).isSome)
    (are : s.attr "masks".toList = some (.list items)) (usable : ∀ item ∈ items, (maskOf w item).isSome)
    (ends : (parse_file w n s cfg component).cut = false) :
    Good w (parse_file w n s cfg component) ↔ ∀ m ∈ (parse_file w n s cfg component).met, Runs w m ∧ Keeps w m := by
  have raised := file_raised named found there are ends
  obtain ⟨⟨added, added_are, kept⟩, whole⟩ := file_kept are ends
  generalize parse_file w n s cfg component = r at *
  constructor
  · intro good m member
    obtain ⟨all, all_are, all_usable⟩ := good.masks
    cases all_are.symm.trans added_are
    exact ⟨whole.mp good.whole m member, kept.mp (List.forall_mem_append.mp all_usable).2 m member⟩
  · intro fine
    have opened := whole.mpr fun m member => (fine m member).1
    have added_usable := kept.mpr fun m member => (fine m member).2
    refine ⟨ends, raised opened, opened, ⟨_, added_are, List.forall_mem_append.mpr ⟨usable, added_usable⟩⟩, ?_⟩
    intro m member s k v more is invalid
    have compiles := ((fine m member).2.mask s k v more is).1
    rw [invalid] at compiles
    cases compiles

end Good

/-! ## Files of masks -/

section Masks
variable {L : Type} {w : World L} {s : Conf L} {cfg cfname path file : Str} {component : Option Str}
  {inner : Conf L → Str → Parsed L} {n : Nat} {lines : List (List Str)} {saved : Attr}

/-- A line for a mask, without variables. -/
def MaskLine (line : List Str) : Prop :=
  ∃ verb ∈ ["accept", "reject"], ∃ v more, line = verb.toList :: v :: more ∧ ∀ word ∈ v :: more, '$' ∉ word

theorem masks_include_none (masks : ∀ line ∈ lines, MaskLine line) :
    (parse_lines w inner file component cfname n lines saved s).included = [] := by
  induction lines generalizing n saved s with
  | nil => rfl
  | cons line lines ih =>
    obtain ⟨⟨verb, verbs, v, more, is, plain⟩, later⟩ := List.forall_mem_cons.mp masks
    have here : (parse_line w inner file ⟨s, component, cfname, n, line⟩).included = [] := by
      unfold parse_line
      rw [met_mask (m := ⟨s, component, cfname, n, line⟩) verbs is plain]
      rfl
    rw [parse_lines]
    dsimp only
    split
    · exact here
    · dsimp only
      rw [here, ih later]
      rfl

theorem file_of_masks (there : ∀ path lines, w.files path = some lines → ∀ line ∈ lines, MaskLine line) :
    (parse_file w n s cfg component).included = [] := by
  cases n with
  | zero => rfl
  | succ n =>
    rw [parse_file]
    dsimp only
    split
    · rfl
    · split
      · rfl
      · split
        · rfl
        · next lines is => exact masks_include_none (there _ lines is)

/-- The first line is begun. -/
theorem first_met {line : List Str} :
    (⟨s, component, cfname, n, line⟩ : Met L) ∈ (parse_lines w inner file component cfname n (line :: lines) saved s).met := by
  rw [parse_lines]
  dsimp only
  split
  · exact List.mem_cons_self
  · exact List.mem_cons_self

/-- An expression that is not one adds an entry that is no mask. -/
theorem invalid_first {items : List Item} {verb : String} {v : Str} {more : List Str} (verbs : verb ∈ ["accept", "reject"])
    (plain : ∀ word ∈ v :: more, '$' ∉ word) (invalid : w.compile v = none) (named : w.expanduser cfg ≠ [])
    (found : search w s (w.expanduser cfg) = some path) (there : w.files path = some ((verb.toList :: v :: more) :: lines))
    (are : s.attr "masks".toList = some (.list items)) (usable : ∀ item ∈ items, (maskOf w item).isSome) :
    ¬ Good w (parse_file w (n + 1) s cfg component) := by
  intro good
  have fine := (kept_good named found (Option.isSome_of_mem there) are usable good.ends).mp good
  obtain ⟨s', cfname, r, -, rfl, opens⟩ := file_opens n component named found there
  rw [opens] at fine
  have compiles := ((fine _ first_met).2.mask _ _ _ _ (met_mask verbs rfl plain)).1
  rw [invalid] at compiles
  cases compiles

end Masks

/-! ## A host whose expressions are plain texts -/

section Host

/-- An expression is a text without brackets, and is found where that text is. -/
def literal (s : Str) : Option Regex :=
  if '[' ∈ s then none
  else some ⟨fun url => if s.isPrefixOf url then some [some s] else none, fun url => (split s url).tail.map fun _ => .whole s⟩

def literalWorld (files : Str → Option (List (List Str))) : World Unit where
  base := Filter.quietWorld
  files := files
  expanduser := id
  compile := literal
  sub _ := none
  shown _ := []
  username _ := .error .valueError
  parse_size _ _ := none
  parse_float _ := .inl 0
  digit := Char.isDigit
  numeric := Char.isDigit
  decimal c := if c.isDigit then some (c.toNat - '0'.toNat) else none
  str _ := []
  user _ _ := none
  assign _ _ _ links := (links, none)
  bind _ _ _ links := ⟨none, none, links, none⟩

/-- No masks yet, and a separator. -/
def noMasks : Conf Unit where
  attr n := if n = "masks".toList then some (.list []) else if n = "flatten".toList then some (.text ['/']) else none
  env _ := none
  fixed_headers _ := none
  settings _ _ := none
  declared_users _ := none
  v2plugins _ := []
  links := ()

/-- A file by itself. -/
def fileOf (line : List Str) : Str → Option (List (List Str)) := fun path => if path = "/f".toList then some [line] else none

section Alone
variable (line : List Str)

theorem alone_named : (literalWorld (fileOf line)).expanduser "/f".toList ≠ [] := names_apart (b := "") (by decide)

theorem alone_found :
    search (literalWorld (fileOf line)) noMasks ((literalWorld (fileOf line)).expanduser "/f".toList) = some "/f".toList := rfl

theorem file_of : fileOf line "/f".toList = some [line] := if_pos rfl

theorem alone_there : (literalWorld (fileOf line)).files "/f".toList = some [line] := file_of line

theorem no_masks : noMasks.attr "masks".toList = some (.list []) := by
  unfold noMasks
  dsimp only
  rw [if_pos rfl]

theorem alone_falls {line : List Str} (mask : MaskLine line) (n : Nat) :
    Falls (fun _ => 0) (parse_file (literalWorld (fileOf line)) n noMasks "/f".toList none).included := by
  rw [file_of_masks fun path lines there => ?_]
  · nofun
  · have there : (if path = "/f".toList then some [line] else none) = some lines := there
    split at there
    · cases there
      rwa [List.forall_mem_singleton]
    · cases there

end Alone

end Host

end Sarracenia.Guarantees.ConfigFile
