import Sarracenia.Guarantees.Message
import Sarracenia.Library.Paths
import Sarracenia.Library.Replace
import Sarracenia.Source.Placement

/-!
# The stages of placing a message

What `updateFieldsAccepted` has done when it has placed a message, without a strip pattern, a flattening or a file
name option: the path is cut, the base directory is removed, the rest is put below the directory, and variables are
expanded. Only `fileOp` is rewritten on the way.
-/
namespace Sarracenia.Guarantees.Placement
open Library Library.Text Library.Dynamic Library.Paths
open Source Source.Config Source.Placement Guarantees.Message

section Messages

/-- Every field but the one is as it was. -/
def Elsewhere (field : String) (m m' : Message) : Prop := ∀ key, key ≠ field → m'.get key = m.get key

variable {m m' m'' : Message} {field : String}

theorem Elsewhere.refl (m : Message) : Elsewhere field m m := fun _ _ => rfl

theorem Elsewhere.set (same : Elsewhere field m m') (v : Value) : Elsewhere field m (m'.set field v) :=
  fun key other => (Dict.get_set_ne m' other v).trans (same key other)

theorem editLinks_elsewhere {σ : Type} {change : σ → Str → Except Fault (σ × Option Str)} {fields : List String} {s : σ}
    (done : editLinks change fields s m = .ok m') : Elsewhere "fileOp" m m' := by
  induction fields generalizing s m with
  | nil =>
    obtain rfl := Except.ok.inj done
    exact Elsewhere.refl m
  | cons f fields ih =>
    rw [editLinks] at done
    obtain ⟨fileOp, -, done⟩ := bind_ok_iff.mp done
    obtain ⟨has, -, done⟩ := bind_ok_iff.mp done
    cases has with
    | false => exact ih done
    | true =>
      obtain ⟨item, -, done⟩ := bind_ok_iff.mp done
      obtain ⟨text, -, done⟩ := bind_ok_iff.mp done
      obtain ⟨⟨s', changed⟩, -, done⟩ := bind_ok_iff.mp done
      cases changed with
      | none => exact ih done
      | some x =>
        obtain ⟨edited, -, done⟩ := bind_ok_iff.mp done
        intro key other
        exact (ih done key other).trans (Dict.get_set_ne m other _)

theorem rewriteLinks_elsewhere {change : Str → Except Fault Str} (done : rewriteLinks change m = .ok m') :
    Elsewhere "fileOp" m m' := by
  unfold rewriteLinks at done
  split at done
  · obtain rfl := Except.ok.inj done
    exact Elsewhere.refl m
  · exact editLinks_elsewhere done

end Messages

section Parts

/-- The parts of a path that are its directories. -/
def dirsOf (path : Str) : List Str := (split ['/'] path).dropLast

def nameOf (path : Str) : Str := (split ['/'] path).getLast?.getD []

/-- The parts that are left after the first so many, unless that is all of them. -/
def cut (strip : Nat) (token : List Str) : List Str :=
  if 0 < strip ∧ strip < token.length then token.drop strip else token

/-- The parts of a base directory, of which the one before the first slash is left out. -/
def baseParts (old : Option Str) : List Str := (given old).elim [] fun old => (split ['/'] old).drop 1

/-- The parts without those of a base that they begin with. -/
def unbased (base token : List Str) : List Str :=
  if base.length < token.length ∧ base <+: token then token.drop base.length else token

/-- The directory of the file, before variables are expanded. -/
def below (mirror : Bool) (top : Str) (dirs : List Str) : Str :=
  if mirror ∧ dirs ≠ [] then top ++ '/' :: join ['/'] dirs else top

theorem parts_eq (path : Str) : split ['/'] path = dirsOf path ++ [nameOf path] := by
  unfold dirsOf nameOf
  have some_ : split ['/'] path ≠ [] := splitFrom_ne_nil _ _ _
  rw [List.getLast?_eq_some_getLast some_, Option.getD_some, List.dropLast_concat_getLast some_]

theorem cut_concat (strip : Nat) (dirs : List Str) (name : Str) :
    cut strip (dirs ++ [name]) = (if strip ≤ dirs.length then dirs.drop strip else dirs) ++ [name] := by
  unfold cut
  rw [List.length_append, List.length_singleton]
  by_cases fits : strip ≤ dirs.length
  · rw [if_pos fits, ← List.drop_append_of_le_length fits]
    split
    · rfl
    · next not =>
      have zero : strip = 0 := by omega
      rw [zero, List.drop_zero]
  · rw [if_neg fits, if_neg (by omega)]

theorem unbased_concat (base dirs : List Str) (name : Str) :
    unbased base (dirs ++ [name]) = (if base <+: dirs then dirs.drop base.length else dirs) ++ [name] := by
  unfold unbased
  rw [List.length_append, List.length_singleton]
  by_cases starts : base <+: dirs
  · rw [if_pos starts, if_pos ⟨Nat.lt_succ_of_le starts.length_le, starts.trans (List.prefix_append _ _)⟩,
      List.drop_append_of_le_length starts.length_le]
  · rw [if_neg starts, if_neg]
    rintro ⟨short, begins⟩
    exact starts (List.prefix_of_prefix_length_le begins (List.prefix_append _ _) (Nat.le_of_lt_succ short))

end Parts

section Stages
variable {w : World} {o : Options} {steps : Nat} {r : Rule} {relPath urlstr : Str} {m m' : Message} {notRetry : Bool}

theorem stripPath_spec {token : List Str} {filename : Str} (noPattern : r.pstrip = none) (noFlatten : r.flatten = ['/'])
    (done : stripPath r relPath notRetry m = .ok (token, filename, m')) :
    token = cut r.strip (split ['/'] relPath) ∧ filename = nameOf relPath ∧
      if 0 < r.strip ∧ (m.get "fileOp").isSome ∧ notRetry then editLinks (stripLink token) linkFields r.strip m = .ok m' else m' = m := by
  unfold stripPath at done
  dsimp only at done
  simp only [noPattern, if_pos noFlatten] at done
  unfold cut
  by_cases some_ : 0 < r.strip
  · rw [if_pos some_] at done
    simp only [some_, true_and]
    split at done
    · next edits =>
      rw [if_pos edits]
      obtain ⟨pair, mapped, done⟩ := bind_ok_iff.mp done
      obtain ⟨edited, edits, rfl⟩ := map_ok_iff.mp mapped
      cases Except.ok.inj done
      exact ⟨rfl, rfl, edits⟩
    · next none_ =>
      rw [if_neg none_]
      cases Except.ok.inj done
      exact ⟨rfl, rfl, rfl⟩
  · rw [if_neg some_] at done
    rw [if_neg fun both => some_ both.1, if_neg fun both => some_ both.1]
    cases Except.ok.inj done
    exact ⟨rfl, rfl, rfl⟩

theorem dropBase_spec {old d : Option Str} {new_dir : Str} {token token' : List Str}
    (done : dropBase w old d new_dir token m = .ok (token', m')) :
    token' = unbased (baseParts old) token ∧ Elsewhere "fileOp" m m' := by
  have rewritten {change : Str → Except Fault Str} {tokens : List Str}
      (done : (rewriteLinks change m).map (fun m => (tokens, m)) = .ok (token', m')) : token' = tokens ∧ Elsewhere "fileOp" m m' := by
    obtain ⟨edited, edits, same⟩ := map_ok_iff.mp done
    cases same
    exact ⟨rfl, rewriteLinks_elsewhere edits⟩
  have kept {tokens : List Str} (done : (.ok (tokens, m) : Except Fault _) = .ok (token', m')) :
      token' = tokens ∧ Elsewhere "fileOp" m m' := by
    cases Except.ok.inj done
    exact ⟨rfl, Elsewhere.refl m⟩
  unfold dropBase at done
  unfold baseParts
  split at done
  · next base is =>
    rw [is, Option.elim_some]
    have cut : (if ((split ['/'] base).drop 1).length < token.length ∧ ((split ['/'] base).drop 1).isPrefixOf token = true then
        token.drop ((split ['/'] base).drop 1).length else token) = unbased ((split ['/'] base).drop 1) token := by
      unfold unbased
      simp only [List.isPrefixOf_iff_prefix]
    dsimp only at done
    rw [cut] at done
    split at done
    · split at done
      · exact rewritten done
      · exact kept done
    · exact kept done
  · next none_ =>
    have same : unbased [] token = token := by
      unfold unbased
      split <;> rfl
    rw [none_, Option.elim_none, same]
    split at done
    · exact kept done
    · split at done
      · exact kept done
      · obtain ⟨url, -, done⟩ := bind_ok_iff.mp done
        obtain ⟨text, -, done⟩ := bind_ok_iff.mp done
        obtain ⟨path, -, done⟩ := bind_ok_iff.mp done
        split at done
        · exact rewritten done
        · obtain ⟨has, -, same⟩ := map_ok_iff.mp done
          cases same
          exact ⟨rfl, Elsewhere.refl m⟩

theorem announce_place (baseUrl_str : Value) (path post_baseDir : Str) {field : String} (there : (m.get field).isSome)
    (other : field ∉ ["new_baseUrl", "new_relPath", "new_subtopic"]) :
    (announce baseUrl_str path post_baseDir m).get field = m.get field := by
  have fill {m' : Message} (same : m'.get field = m.get field) (key : String) (value : Value) :
      (if (m'.get key).isNone then m'.set key value else m').get field = m.get field := by
    split
    · next missing =>
      have apart : field ≠ key := by
        intro same'
        rw [← same', same, Option.isNone_iff_eq_none] at missing
        rw [missing] at there
        cases there
      exact (Dict.get_set_ne m' apart value).trans same
    · exact same
  have apart {key : String} (member : key ∈ ["new_baseUrl", "new_relPath", "new_subtopic"]) : field ≠ key := by
    intro same
    exact other (same ▸ member)
  unfold announce
  refine fill (fill (fill ?_ _ _) _ _) _ _
  refine (Dict.get_set_ne _ (apart (by decide)) _).trans ?_
  refine (Dict.get_set_ne _ (apart (by decide)) _).trans ?_
  refine (Dict.get_set_ne _ (apart (by decide)) _).trans ?_
  split
  · next missing =>
    refine Dict.get_set_ne _ (fun same => ?_) _
    rw [← same, Option.isNone_iff_eq_none] at missing
    rw [missing.1] at there
    cases there
  · rfl

/-- The place that `updatePaths` gives a message; a directory without a text is not set. -/
theorem updatePaths_place {new_dir new_file : Str} {i : Nat} (done : updatePaths w o steps new_dir new_file i m = (m', .ok ())) :
    m'.get "new_file" = some (.str new_file) ∧ (new_dir ≠ [] → m'.get "new_dir" = some (.str new_dir)) := by
  unfold updatePaths at done
  dsimp only at done
  split at done
  · cases (Prod.mk.inj done).2
  · next m₁ marked =>
    have named : ((if new_dir ≠ [] then m₁.set "new_dir" (.str new_dir) else m₁).set "new_file"
        (.str new_file)).get "new_file" = some (.str new_file) := Dict.get_set_self _ _ _
    have placed (some_ : new_dir ≠ []) : ((if new_dir ≠ [] then m₁.set "new_dir" (.str new_dir) else m₁).set "new_file"
        (.str new_file)).get "new_dir" = some (.str new_dir) := by
      rw [Dict.get_set_ne _ (by decide), if_pos some_, Dict.get_set_self]
    have announced (baseUrl_str : Value) (path post_baseDir : Str) (is : announce baseUrl_str path post_baseDir
        ((if new_dir ≠ [] then m₁.set "new_dir" (.str new_dir) else m₁).set "new_file" (.str new_file)) = m') :
        m'.get "new_file" = some (.str new_file) ∧ (new_dir ≠ [] → m'.get "new_dir" = some (.str new_dir)) := by
      rw [← is]
      constructor
      · rw [announce_place _ _ _ (by rw [named]; rfl) (by decide), named]
      · intro some_
        rw [announce_place _ _ _ (by rw [placed some_]; rfl) (by decide), placed some_]
    split at done
    · cases (Prod.mk.inj done).2
    · split at done
      · cases (Prod.mk.inj done).2
      · obtain ⟨rfl, -⟩ := Prod.mk.inj done
        exact ⟨named, placed⟩
      · split at done
        · split at done
          · cases (Prod.mk.inj done).2
          · exact announced _ _ _ (Prod.mk.inj done).1
        · exact announced _ _ _ (Prod.mk.inj done).1

/-- The fields that `updatePaths` may write, besides those of fixed headers. -/
def pathFields : List String :=
  ["_deleteOnPost", "new_dir", "new_file", "new_baseUrl", "new_relPath", "new_subtopic", "baseUrl", "subtopic", "relPath"]

theorem foldl_set_get {headers : List (String × Value)} {key : String} (unfixed : ∀ header ∈ headers, header.1 ≠ key) :
    (headers.foldl (fun m header => Dict.set m header.1 header.2) m).get key = m.get key := by
  induction headers generalizing m with
  | nil => rfl
  | cons header headers ih =>
    obtain ⟨here, rest⟩ := List.forall_mem_cons.mp unfixed
    rw [List.foldl_cons, ih rest, Dict.get_set_ne m (Ne.symm here)]

theorem updatePaths_elsewhere {new_dir new_file : Str} {i : Nat} {answer : Except Fault Unit} {key : String} (other : key ∉ pathFields)
    (unfixed : ∀ header ∈ o.fixed_headers, header.1 ≠ key) (done : updatePaths w o steps new_dir new_file i m = (m', answer)) :
    m'.get key = m.get key := by
  have apart {field : String} (member : field ∈ pathFields) : key ≠ field := fun same => other (same ▸ member)
  have headers := foldl_set_get (m := m) unfixed
  unfold updatePaths at done
  dsimp only at done
  split at done
  · obtain ⟨rfl, -⟩ := Prod.mk.inj done
    exact headers
  · next m₁ marked =>
    have kept : m₁.get key = m.get key := (deleteOnPost_get (apart (by decide)) marked).trans headers
    have named : ((if new_dir ≠ [] then m₁.set "new_dir" (.str new_dir) else m₁).set "new_file"
        (.str new_file)).get key = m.get key := by
      rw [Dict.get_set_ne _ (apart (by decide))]
      split
      · rw [Dict.get_set_ne _ (apart (by decide)), kept]
      · exact kept
    have announced (baseUrl_str : Value) (path post_baseDir : Str) (is : announce baseUrl_str path post_baseDir
        ((if new_dir ≠ [] then m₁.set "new_dir" (.str new_dir) else m₁).set "new_file" (.str new_file)) = m') :
        m'.get key = m.get key := by
      rw [← is, ← named]
      generalize (if new_dir ≠ [] then m₁.set "new_dir" (.str new_dir) else m₁).set "new_file" (.str new_file) = m₂
      have fill {m₃ : Message} (same : m₃.get key = m₂.get key) {field : String} (member : field ∈ pathFields) (value : Value) :
          (if (m₃.get field).isNone then m₃.set field value else m₃).get key = m₂.get key := by
        split
        · exact (Dict.get_set_ne m₃ (apart member) value).trans same
        · exact same
      unfold announce
      refine fill (fill (fill ?_ (by decide) _) (by decide) _) (by decide) _
      refine (Dict.get_set_ne _ (apart (by decide)) _).trans ?_
      refine (Dict.get_set_ne _ (apart (by decide)) _).trans ?_
      refine (Dict.get_set_ne _ (apart (by decide)) _).trans ?_
      split
      · exact Dict.get_set_ne _ (apart (by decide)) _
      · rfl
    split at done
    · obtain ⟨rfl, -⟩ := Prod.mk.inj done
      exact named
    · split at done
      · obtain ⟨rfl, -⟩ := Prod.mk.inj done
        exact named
      · obtain ⟨rfl, -⟩ := Prod.mk.inj done
        exact named
      · split at done
        · split at done
          · obtain ⟨rfl, -⟩ := Prod.mk.inj done
            exact named
          · exact announced _ _ _ (Prod.mk.inj done).1
        · exact announced _ _ _ (Prod.mk.inj done).1

/-- The directories that the file keeps. -/
def carried (strip : Nat) (base dirs : List Str) : List Str :=
  let rest := if strip ≤ dirs.length then dirs.drop strip else dirs
  if base <+: rest then rest.drop base.length else rest

/-- Whether the file operations of the message are to be rewritten. -/
def firstTime (o : Options) (m : Message) : Bool := o.retry_refilter || !m.isRetry

/-- What has been done when a message has been placed: the operations are copied, the path is cut, the base is removed,
variables are expanded, and the paths are updated. -/
structure Placing (w : World) (o : Options) (steps : Nat) (r : Rule) (urlstr relPath top : Str) (old : Option Str)
    (m copied stripped placed m' : Message) (dir : Str) : Prop where
  copy : ∀ key, key ≠ "post_fileOp" → key ≠ "_deleteOnPost" → copied.get key = m.get key
  strip : stripPath r relPath (firstTime o m) copied = .ok (cut r.strip (split ['/'] relPath), nameOf relPath, stripped)
  base : ∃ d, (given old ≠ none → top ≠ [] → d = some top) ∧ dropBase w old d top (cut r.strip (split ['/'] relPath)) stripped =
    .ok (carried r.strip (baseParts old) (dirsOf relPath) ++ [nameOf relPath], placed)
  expand : ∃ text, variableExpansion w o steps (below r.mirror top (carried r.strip (baseParts old) (dirsOf relPath))) placed = .ok text ∧
    sundew_dirPattern w r.findall urlstr (nameOf relPath) text = .ok dir
  update : updatePaths w o steps dir (nameOf relPath) 0 placed = (m', .ok ())

/-- A rule of a count, without a pattern, a flattening or a file name option. -/
structure Counting (r : Rule) : Prop where
  pattern : r.pstrip = none
  flatten : r.flatten = ['/']
  name : given r.maskFileOption = none

theorem below_eq (mirror : Bool) (top : Str) (dirs : List Str) (name : Str) :
    (if mirror = true ∧ 1 < (dirs ++ [name]).length then top ++ '/' :: join ['/'] (dirs ++ [name]).dropLast else top) =
      below mirror top dirs := by
  unfold below
  rw [List.dropLast_concat, List.length_append, List.length_singleton]
  have same : 1 < dirs.length + 1 ↔ dirs ≠ [] := by
    rw [← List.length_pos_iff]
    omega
  simp only [same]

theorem updateFieldsAccepted_placing {msg : Message} {top : Str} {old : Option Str} (counting : Counting r)
    (goes : pathOf w o msg = .ok (relPath, m)) (root : expandGiven w o steps ((given r.maskDir).orElse fun _ => o.post_baseDir) m = .ok top)
    (base : oldBaseDir o m = .ok old) (done : updateFieldsAccepted w o steps r urlstr msg = .ok (m', true)) :
    ∃ copied stripped placed dir, Placing w o steps r urlstr relPath top old m copied stripped placed m' dir := by
  unfold updateFieldsAccepted at done
  obtain ⟨⟨relPath', m₁⟩, first, done⟩ := bind_ok_iff.mp done
  cases goes.symm.trans first
  obtain ⟨top', second, done⟩ := bind_ok_iff.mp done
  cases root.symm.trans second
  obtain ⟨old', third, done⟩ := bind_ok_iff.mp done
  cases base.symm.trans third
  dsimp only at done
  rw [bind_ite, bind_ite] at done
  obtain ⟨d, fourth, done⟩ := bind_ok_iff.mp done
  have toTop (some_ : given old ≠ none) (more : top ≠ []) : d = some top := by
    rw [if_neg (by simpa using some_), if_pos more] at fourth
    exact (Except.ok.inj fourth).symm
  split at done <;> obtain ⟨copied, copy, done⟩ := bind_ok_iff.mp done
  case' h_1 =>
    have others : ∀ key, key ≠ "post_fileOp" → key ≠ "_deleteOnPost" → copied.get key = m.get key := fun key other unmarked =>
      (deleteOnPost_get unmarked copy).trans (Dict.get_set_ne m other _)
  case' h_2 =>
    have others : ∀ key, key ≠ "post_fileOp" → key ≠ "_deleteOnPost" → copied.get key = m.get key := fun key _ _ =>
      congrArg (Dict.get · key) (Except.ok.inj copy).symm
  -- what follows does not depend on whether the operation was copied
  all_goals
    obtain ⟨⟨token, filename, stripped⟩, strip, done⟩ := bind_ok_iff.mp done
    obtain ⟨⟨token', placed⟩, unbase, done⟩ := bind_ok_iff.mp done
    obtain ⟨text, expand, done⟩ := bind_ok_iff.mp done
    obtain ⟨rfl, rfl, -⟩ := stripPath_spec counting.pattern counting.flatten strip
    have parts : token' = carried r.strip (baseParts old) (dirsOf relPath) ++ [nameOf relPath] := by
      rw [(dropBase_spec unbase).1, parts_eq, cut_concat, unbased_concat]
      rfl
    subst parts
    dsimp only at done expand
    rw [below_eq] at expand
    split at done
    · cases (Prod.mk.inj (Except.ok.inj done)).2
    · next dir pattern =>
      split at done
      · cases (Prod.mk.inj (Except.ok.inj done)).2
      · next update =>
        rw [counting.name] at done
        obtain ⟨rfl, -⟩ := Prod.mk.inj (Except.ok.inj done)
        exact ⟨copied, stripped, placed, dir, others, strip, ⟨d, toTop, unbase⟩, ⟨text, expand, pattern⟩, update⟩

theorem Placing.kept {top : Str} {old : Option Str} {copied stripped placed : Message} {dir : Str} (counting : Counting r)
    (placing : Placing w o steps r urlstr relPath top old m copied stripped placed m' dir) :
    ∀ key ∉ ["fileOp", "post_fileOp", "_deleteOnPost"], placed.get key = m.get key := by
  intro key other
  simp only [List.mem_cons, List.not_mem_nil, or_false, not_or] at other
  obtain ⟨d, -, unbase⟩ := placing.base
  have one : stripped.get key = copied.get key := by
    have strip := (stripPath_spec counting.pattern counting.flatten placing.strip).2.2
    split at strip
    · exact editLinks_elsewhere strip key other.1
    · rw [strip]
  rw [(dropBase_spec unbase).2 key other.1, one, placing.copy key other.2.1 other.2.2]

end Stages
end Sarracenia.Guarantees.Placement
