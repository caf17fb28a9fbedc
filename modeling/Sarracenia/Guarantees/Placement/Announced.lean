import Sarracenia.Library.Rewriting
import Sarracenia.Guarantees.Filter.Conservation

/-!
# The path that is announced

The base directory and the path of the URL are to be taken away by whole components. `updatePaths` tests them as
texts, the directory on another value than the one it is cut from, so that a name that only begins alike is mangled.
-/
namespace Sarracenia.Guarantees.Placement
open Library Library.Text Library.Dynamic
open Source Source.Config Source.Placement

section Paths

/-- The components of the one are the first of the other: the text is a beginning, and a component ends with it. -/
def component (base path : Str) : Bool :=
  base.isPrefixOf path &&
    ((path.drop base.length).isEmpty || base.getLast? == some '/' || (path.drop base.length).head? == some '/')

/-- The path without a base that is a component-wise beginning of it. -/
def without (base path : Str) : Str := if component base path then path.drop base.length else path

/-- The path without the path of the URL, which is left out of account where it is the root. -/
def withoutUrl (urlPath path : Str) : Str := if 1 < urlPath.length then without urlPath path else path

/-- What is to be announced. -/
def relative (base urlPath new_dir new_file : Str) : Str :=
  (withoutUrl urlPath (without base (newFullPath new_dir new_file))).dropWhile (· = '/')

def oneSlashLess (path : Str) : Str := if path.head? = some '/' then path.drop 1 else path

/-- The base is a beginning of the directory where it is one of the path by components, the path of the URL is a
beginning of what is left only by components, and what is left then does not begin with two slashes. Or the base is
a beginning of the path only, and the path of the URL takes the same away, but for slashes. -/
def Distinct (base urlPath new_dir new_file : Str) : Prop :=
  let full := newFullPath new_dir new_file
  let path := without base full
  (base.isPrefixOf new_dir = component base full ∧ (1 < urlPath.length → urlPath <+: path → component urlPath path = true) ∧
      ¬ ['/', '/'] <+: withoutUrl urlPath path) ∨
    (component base full = true ∧ ¬ base <+: new_dir ∧ 1 < urlPath.length ∧ urlPath <+: full ∧ component urlPath path = false ∧
      oneSlashLess (full.drop urlPath.length) = path.dropWhile (· = '/'))

variable {base urlPath new_dir new_file path s t : Str}

theorem component_iff : component base path = true ↔
    base <+: path ∧ (path.drop base.length = [] ∨ base.getLast? = some '/' ∨ (path.drop base.length).head? = some '/') := by
  unfold component
  rw [Bool.and_eq_true, Bool.or_eq_true, Bool.or_eq_true, List.isPrefixOf_iff_prefix, List.isEmpty_iff, beq_iff_eq, beq_iff_eq, or_assoc]

theorem replaceFirst_start (starts : base <+: path) : replaceFirst base [] path = path.drop base.length := by
  obtain ⟨rest, rfl⟩ := starts
  rw [List.drop_left]
  cases whole : base ++ rest with
  | nil =>
    obtain ⟨rfl, rfl⟩ := List.append_eq_nil_iff.mp whole
    rfl
  | cons c s =>
    rw [replaceFirst, if_pos (List.isPrefixOf_iff_prefix.mpr ⟨rest, whole⟩), ← whole, List.drop_left]
    rfl

theorem replaceFirst_longer (longer : path.length < base.length) : replaceFirst base [] path = path := by
  induction path with
  | nil =>
    cases base with
    | nil => cases longer
    | cons c base => rfl
  | cons c path ih =>
    have other : ¬ base.isPrefixOf (c :: path) = true := fun starts =>
      absurd (List.isPrefixOf_iff_prefix.mp starts).length_le (by omega)
    rw [List.length_cons] at longer
    rw [replaceFirst, if_neg other, ih (by omega)]

/-- A beginning of the path that is none of the directory is longer than it. -/
theorem longer_of_not_start (starts : base <+: newFullPath new_dir new_file) (other : ¬ base <+: new_dir) :
    new_dir.length < base.length := by
  by_contra short
  exact other (List.prefix_of_prefix_length_le starts (List.prefix_append _ _) (Nat.le_of_not_lt short))

theorem start_full (starts : base <+: new_dir) : base <+: newFullPath new_dir new_file := starts.trans (List.prefix_append _ _)

/-- The path without the path of the URL where it begins so, by components or not. -/
def cutUrl (urlPath path : Str) : Str := if 1 < urlPath.length ∧ urlPath <+: path then path.drop urlPath.length else path

/-- The code cuts the base where it is a beginning of the directory, and the path of the URL where it is one of what is left. -/
theorem announcedPath_eq : announcedPath base urlPath new_dir new_file = cutUrl urlPath
    (if base <+: new_dir then (newFullPath new_dir new_file).drop base.length else newFullPath new_dir new_file) := by
  have first : (if base.isPrefixOf (newFullPath new_dir new_file) then newFullPath (replaceFirst base [] new_dir) new_file
      else newFullPath new_dir new_file) =
      if base <+: new_dir then (newFullPath new_dir new_file).drop base.length else newFullPath new_dir new_file := by
    by_cases starts : base <+: new_dir
    · rw [if_pos starts, if_pos (List.isPrefixOf_iff_prefix.mpr (start_full starts)), replaceFirst_start starts]
      unfold newFullPath
      rw [List.drop_append_of_le_length starts.length_le]
    · rw [if_neg starts]
      split
      · next begins =>
        rw [replaceFirst_longer (longer_of_not_start (List.isPrefixOf_iff_prefix.mp begins) starts)]
      · rfl
  unfold announcedPath
  dsimp only
  rw [first]
  generalize (if base <+: new_dir then (newFullPath new_dir new_file).drop base.length
    else newFullPath new_dir new_file) = path
  unfold cutUrl
  by_cases both : 1 < urlPath.length ∧ urlPath <+: path
  · rw [if_pos both, if_pos ⟨both.1, List.isPrefixOf_iff_prefix.mpr both.2⟩, replaceFirst_start both.2]
  · rw [if_neg both, if_neg fun holds => both ⟨holds.1, List.isPrefixOf_iff_prefix.mp holds.2⟩]

/-- The characters that no slash is. -/
def letters (s : Str) : Nat := s.countP (· ≠ '/')

theorem letters_drop (starts : s <+: t) : letters s + letters (t.drop s.length) = letters t := by
  obtain ⟨rest, rfl⟩ := starts
  rw [List.drop_left]
  unfold letters
  rw [List.countP_append]

theorem letters_dropWhile (s : Str) : letters (s.dropWhile (· = '/')) = letters s := by
  unfold letters
  induction s with
  | nil => rfl
  | cons c s ih =>
    by_cases slash : c = '/'
    · rw [List.dropWhile_cons_of_pos (by simp [slash]), ih, List.countP_cons_of_neg (by simp [slash])]
    · rw [List.dropWhile_cons_of_neg (by simp [slash])]

theorem letters_oneSlashLess (s : Str) : letters (oneSlashLess s) = letters s := by
  unfold oneSlashLess letters
  split
  · next slash =>
    cases s with
    | nil => rfl
    | cons c s =>
      cases Option.some.inj slash
      simp
  · rfl

theorem letters_append : letters (s ++ t) = letters s + letters t := List.countP_append

theorem letters_pos_of_last (some_ : s ≠ []) (last : s.getLast? ≠ some '/') : 0 < letters s := by
  rw [List.getLast?_eq_some_getLast some_] at last
  apply List.countP_pos_iff.mpr
  exact ⟨s.getLast some_, List.getLast_mem some_, by simpa using last⟩

/-- A beginning that is not by components ends within a name. -/
theorem last_within (starts : s <+: t) (within : component s t = false) : s.getLast? ≠ some '/' := by
  intro last
  rw [component_iff.mpr ⟨starts, .inr (.inl last)⟩] at within
  cases within

theorem letters_pos (some_ : s ≠ []) (starts : s <+: t) (within : component s t = false) : 0 < letters s :=
  letters_pos_of_last some_ (last_within starts within)

theorem head_within (starts : s <+: t) (within : component s t = false) : ∃ c rest, t.drop s.length = c :: rest ∧ c ≠ '/' := by
  cases rest : t.drop s.length with
  | nil =>
    rw [component_iff.mpr ⟨starts, .inl rest⟩] at within
    cases within
  | cons c rest' =>
    refine ⟨c, rest', rfl, fun slash => ?_⟩
    rw [component_iff.mpr ⟨starts, .inr (.inr (by rw [rest, slash, List.head?_cons]))⟩] at within
    cases within

theorem oneSlashLess_eq_iff : oneSlashLess path = path.dropWhile (· = '/') ↔ ¬ ['/', '/'] <+: path := by
  unfold oneSlashLess
  match path with
  | [] => simp
  | [c] => by_cases slash : c = '/' <;> simp [slash]
  | c :: d :: rest =>
    by_cases first : c = '/'
    · by_cases second : d = '/'
      · have shorter := List.length_dropWhile_le (· = '/') rest
        constructor
        · intro same
          have lengths := congrArg List.length same
          simp [first, second] at lengths
          omega
        · intro none_
          exact absurd ⟨rest, by rw [first, second]; rfl⟩ none_
      · simp [first, second, List.cons_prefix_cons, Ne.symm second]
    · simp [first, List.cons_prefix_cons, Ne.symm first]

theorem oneSlashLess_length (s : Str) : s.length ≤ (oneSlashLess s).length + 1 ∧ (oneSlashLess s).length ≤ s.length := by
  unfold oneSlashLess
  split
  · rw [List.length_drop]
    omega
  · omega

/-- Where the same is left of the base, the two differ by the path of the URL and by slashes at the beginning. -/
theorem cutUrl_iff : oneSlashLess (cutUrl urlPath path) = (withoutUrl urlPath path).dropWhile (· = '/') ↔
    (1 < urlPath.length → urlPath <+: path → component urlPath path = true) ∧ ¬ ['/', '/'] <+: withoutUrl urlPath path := by
  unfold cutUrl withoutUrl without
  by_cases long : 1 < urlPath.length
  · rw [if_pos long]
    by_cases starts : urlPath <+: path
    · rw [if_pos ⟨long, starts⟩]
      by_cases whole : component urlPath path = true
      · rw [if_pos whole, oneSlashLess_eq_iff]
        simp [whole]
      · rw [if_neg whole]
        have within : component urlPath path = false := Bool.eq_false_iff.mpr whole
        have some_ : urlPath ≠ [] := List.ne_nil_of_length_pos (by omega)
        have more := letters_pos some_ starts within
        have total := letters_drop starts
        constructor
        · intro same
          have count := congrArg letters same
          rw [letters_oneSlashLess, letters_dropWhile] at count
          omega
        · intro holds
          exact absurd (holds.1 long starts) whole
    · have whole : ¬ component urlPath path = true := fun whole => starts (component_iff.mp whole).1
      rw [if_neg fun both => starts both.2, if_neg whole, oneSlashLess_eq_iff]
      simp [starts]
  · rw [if_neg long, if_neg fun both => long both.1, oneSlashLess_eq_iff]
    simp [long]

/-- A base that ends within a name of the path is cut all the same, and the name is never right again. -/
theorem cut_within (long : 1 < base.length) (starts : base <+: path) (within : component base path = false) :
    oneSlashLess (cutUrl urlPath (path.drop base.length)) ≠ (withoutUrl urlPath path).dropWhile (· = '/') := by
  intro same
  have some_ : base ≠ [] := List.ne_nil_of_length_pos (by omega)
  have more := letters_pos some_ starts within
  have total := letters_drop starts
  have count := congrArg letters same
  rw [letters_oneSlashLess, letters_dropWhile] at count
  have left : letters (cutUrl urlPath (path.drop base.length)) ≤ letters (path.drop base.length) := by
    unfold cutUrl
    split
    · next both => have := letters_drop both.2; omega
    · exact Nat.le_refl _
  by_cases whole : 1 < urlPath.length ∧ component urlPath path = true
  · have begins := (component_iff.mp whole.2).1
    have right : withoutUrl urlPath path = path.drop urlPath.length := by
      unfold withoutUrl without
      rw [if_pos whole.1, if_pos whole.2]
    have rest := letters_drop begins
    rw [right] at count
    by_cases cut : urlPath <+: path.drop base.length
    · -- both are without the path of the URL, and the one without the base as well
      have both : cutUrl urlPath (path.drop base.length) = (path.drop base.length).drop urlPath.length := if_pos ⟨whole.1, cut⟩
      have parts := letters_drop cut
      rw [both] at count
      omega
    · have one : cutUrl urlPath (path.drop base.length) = path.drop base.length := if_neg fun both => cut both.2
      rw [one] at count
      obtain ⟨c, tail, next_, other⟩ := head_within starts within
      rcases Nat.lt_trichotomy urlPath.length base.length with shorter | equal | longer
      · -- what the base has more than the path of the URL ends with a letter
        obtain ⟨between, rfl⟩ := List.prefix_of_prefix_length_le begins starts shorter.le
        have most : between ≠ [] := by rintro rfl; simp at shorter
        have last : (urlPath ++ between).getLast? = between.getLast? := List.getLast?_append_of_ne_nil _ most
        have ends_ := letters_pos_of_last most (last ▸ last_within starts within)
        rw [letters_append] at total
        omega
      · rw [List.prefix_iff_eq_take.mp begins, equal, ← List.prefix_iff_eq_take.mp starts, within] at whole
        cases whole.2
      · obtain ⟨between, rfl⟩ := List.prefix_of_prefix_length_le starts begins longer.le
        obtain ⟨after, rfl⟩ := begins
        rw [List.append_assoc, List.drop_left] at next_
        cases between with
        | nil => simp at longer
        | cons d between =>
          rw [List.cons_append] at next_
          cases (List.cons.inj next_).1
          have first : 0 < letters (c :: between) :=
            List.countP_pos_iff.mpr ⟨c, List.mem_cons_self, by simpa using other⟩
          have parts : letters (base ++ c :: between) = letters base + letters (c :: between) := letters_append
          omega
  · have right : withoutUrl urlPath path = path := by
      unfold withoutUrl without
      split
      · next long => rw [if_neg fun holds => whole ⟨long, holds⟩]
      · rfl
    rw [right] at count
    omega

/-- A base that is longer than the directory is not cut; only the path of the URL can then take as much away. -/
theorem cut_missed (long : 1 < base.length) (whole : component base path = true) :
    oneSlashLess (cutUrl urlPath path) = (withoutUrl urlPath (path.drop base.length)).dropWhile (· = '/') ↔
      1 < urlPath.length ∧ urlPath <+: path ∧ component urlPath (path.drop base.length) = false ∧
        oneSlashLess (path.drop urlPath.length) = (path.drop base.length).dropWhile (· = '/') := by
  have fits := (component_iff.mp whole).1.length_le
  have dropped (s : Str) := (List.dropWhile_sublist (· = '/') (l := s)).length_le
  by_cases cut : 1 < urlPath.length ∧ urlPath <+: path
  · have left : cutUrl urlPath path = path.drop urlPath.length := if_pos cut
    have short := cut.2.length_le
    rw [left]
    unfold withoutUrl without
    rw [if_pos cut.1]
    by_cases again : component urlPath (path.drop base.length) = true
    · rw [if_pos again]
      constructor
      · intro same
        have lengths := congrArg List.length same
        have one := oneSlashLess_length (path.drop urlPath.length)
        have other := dropped ((path.drop base.length).drop urlPath.length)
        have inside := (component_iff.mp again).1.length_le
        simp only [List.length_drop] at lengths one other inside
        omega
      · rintro ⟨-, -, within, -⟩
        rw [again] at within
        cases within
    · rw [if_neg again]
      have within : component urlPath (path.drop base.length) = false := Bool.eq_false_iff.mpr again
      exact ⟨fun same => ⟨cut.1, cut.2, within, same⟩, fun holds => holds.2.2.2⟩
  · have left : cutUrl urlPath path = path := if_neg cut
    rw [left]
    constructor
    · intro same
      have lengths := congrArg List.length same
      have one := oneSlashLess_length path
      have other := dropped (withoutUrl urlPath (path.drop base.length))
      have less : (withoutUrl urlPath (path.drop base.length)).length ≤ path.length - base.length := by
        unfold withoutUrl without
        split_ifs <;> simp only [List.length_drop] <;> omega
      omega
    · rintro ⟨urlLong, starts, -⟩
      exact absurd ⟨urlLong, starts⟩ cut

/-- What is announced is right if and only if the base and the path of the URL are told apart from names that begin alike. -/
theorem announced_right_iff (long : 1 < base.length) :
    oneSlashLess (announcedPath base urlPath new_dir new_file) = relative base urlPath new_dir new_file ↔
      Distinct base urlPath new_dir new_file := by
  rw [announcedPath_eq]
  unfold relative Distinct
  dsimp only
  by_cases whole : component base (newFullPath new_dir new_file) = true
  · have path : without base (newFullPath new_dir new_file) = (newFullPath new_dir new_file).drop base.length := if_pos whole
    rw [path]
    by_cases starts : base <+: new_dir
    · have same : base.isPrefixOf new_dir = component base (newFullPath new_dir new_file) := by
        rw [whole, List.isPrefixOf_iff_prefix.mpr starts]
      rw [if_pos starts, cutUrl_iff]
      exact ⟨fun holds => .inl ⟨same, holds⟩, fun holds => (holds.resolve_right fun other => other.2.1 starts).2⟩
    · have differ : ¬ base.isPrefixOf new_dir = component base (newFullPath new_dir new_file) := by
        rw [whole, List.isPrefixOf_iff_prefix]
        exact starts
      rw [if_neg starts, cut_missed long whole]
      exact ⟨fun holds => .inr ⟨whole, starts, holds⟩, fun holds => (holds.resolve_left fun other => differ other.1).2.2⟩
  · have path : without base (newFullPath new_dir new_file) = newFullPath new_dir new_file := if_neg whole
    have within : component base (newFullPath new_dir new_file) = false := Bool.eq_false_iff.mpr whole
    rw [path]
    by_cases starts : base <+: new_dir
    · have differ : ¬ base.isPrefixOf new_dir = component base (newFullPath new_dir new_file) := by
        rw [within, List.isPrefixOf_iff_prefix.mpr starts]
        exact Bool.noConfusion
      rw [if_pos starts]
      constructor
      · intro same
        exact absurd same (cut_within long (start_full starts) within)
      · rintro (⟨same, -⟩ | ⟨all, -⟩)
        · exact absurd same differ
        · exact absurd all whole
    · have same : base.isPrefixOf new_dir = component base (newFullPath new_dir new_file) := by
        rw [within, Bool.eq_false_iff, ne_eq, List.isPrefixOf_iff_prefix]
        exact starts
      rw [if_neg starts, cutUrl_iff]
      exact ⟨fun holds => .inl ⟨same, holds⟩, fun holds => (holds.resolve_right fun other => whole other.1).2⟩

end Paths

section Updated
variable (w : World) (o : Options) (steps : Nat) (new_dir new_file : Str) (publisher_index : Nat) (msg : Message)

/-- The message as the path is worked out for it: the headers that are fixed, what is not posted, and the place. -/
def prepared : Except Fault Message :=
  (Message.deleteOnPost (o.fixed_headers.foldl (fun msg header => msg.set header.1 header.2) msg) ["new_dir", "new_file", "new_relPath",
    "new_baseUrl", "new_subtopic", "subtopic", "post_format"]).map fun msg =>
      (if new_dir ≠ [] then msg.set "new_dir" (.str new_dir) else msg).set "new_file" (.str new_file)

/-- The publisher has the base directory `base`, longer than one character, and a base URL with the path `urlPath`; the
directory to go by is `dir`. -/
structure Layout (base urlPath dir : Str) : Prop where
  publisher : ∃ setting url m p,
    prepared o new_dir new_file msg = .ok m ∧ dirOf new_dir m = .ok dir ∧
    o.publishers[publisher_index]? = some p ∧ p.baseDir = some setting ∧ 1 < setting.length ∧
    announcedUrl w o steps (some p) m = .ok (some url) ∧ announcedBase w o steps setting url m = .ok (base, urlPath)
  long : 1 < base.length

variable {w o steps new_dir new_file publisher_index msg} {base urlPath dir path : Str}

theorem announce_new_relPath (baseUrl_str : Value) (post_baseDir : Str) (m : Message) :
    (announce baseUrl_str path post_baseDir m).get "new_relPath" = some (.str (oneSlashLess path)) := by
  have fill (field : String) (value : Value) (m : Message) (other : field ≠ "new_relPath") :
      (if (m.get field).isNone then m.set field value else m).get "new_relPath" = m.get "new_relPath" := by
    split
    · exact Dict.get_set_ne _ (Ne.symm other) _
    · rfl
  unfold announce
  dsimp only
  rw [fill "baseUrl" _ _ (by decide), fill "subtopic" _ _ (by decide), fill "relPath" _ _ (by decide),
    Dict.get_set_ne _ (show "new_relPath" ≠ "new_subtopic" by decide), Dict.get_set_self]
  rfl

theorem Layout.updated (layout : Layout w o steps new_dir new_file publisher_index msg base urlPath dir) :
    ∃ m, updatePaths w o steps new_dir new_file publisher_index msg = (m, .ok ()) ∧
      m.get "new_relPath" = some (.str (oneSlashLess (announcedPath base urlPath dir new_file))) := by
  obtain ⟨⟨setting, url, m, p, ready, place, at_, named, long, asked, parts⟩, -⟩ := layout
  refine ⟨_, ?_, announce_new_relPath url setting m⟩
  unfold prepared at ready
  unfold updatePaths
  cases marks : Message.deleteOnPost (o.fixed_headers.foldl (fun msg header => msg.set header.1 header.2) msg) ["new_dir", "new_file",
      "new_relPath", "new_baseUrl", "new_subtopic", "subtopic", "post_format"] with
  | error e =>
    rw [marks] at ready
    cases ready
  | ok marked =>
    rw [marks] at ready
    cases ready
    simp only [marks, place, at_, asked, Option.bind_some, named, Option.getD_some, if_pos long, parts]

/-- The path that is announced is the one to be announced if and only if the base and the path of the URL are told apart
from names that begin alike. -/
theorem new_relPath_right_iff (layout : Layout w o steps new_dir new_file publisher_index msg base urlPath dir) :
    (∃ m, updatePaths w o steps new_dir new_file publisher_index msg = (m, .ok ()) ∧
      m.get "new_relPath" = some (.str (relative base urlPath dir new_file))) ↔ Distinct base urlPath dir new_file := by
  obtain ⟨m, done, path⟩ := layout.updated
  rw [← announced_right_iff layout.long, done]
  constructor
  · rintro ⟨other, same, right⟩
    cases same
    rw [path] at right
    exact Value.str.inj (Option.some.inj right)
  · intro right
    exact ⟨m, rfl, by rw [path, right]⟩

section Samples
open Guarantees.Filter

/-- One publisher announces the tree under `/data/a`, at a URL with a path of its own. -/
def oneTree : Options := { noOptions with publishers := [⟨some "http://h/pub".toList, some "/data/a".toList⟩] }

def pubWorld : World := { quietWorld with urlparse := fun _ => .ok ("http".toList, "/pub".toList) }

def blank : Message := [("_deleteOnPost", .set [])]

theorem oneTree_layout (new_dir new_file : Str) (some_ : new_dir ≠ []) :
    Layout pubWorld oneTree 0 new_dir new_file 0 blank "/data/a".toList "/pub".toList new_dir where
  publisher := by
    refine ⟨"/data/a".toList, .str "http://h/pub".toList, _, ⟨some "http://h/pub".toList, some "/data/a".toList⟩, rfl, if_pos some_,
      rfl, rfl, by decide, ?_, rfl⟩
    dsimp only
    rw [if_pos some_]
    rfl
  long := by decide

theorem tree_announced :
    (∃ m, updatePaths pubWorld oneTree 0 "/data/a/pub/d".toList "f".toList 0 blank = (m, .ok ()) ∧
      m.get "new_relPath" = some (.str (relative "/data/a".toList "/pub".toList "/data/a/pub/d".toList "f".toList))) ↔
        Distinct "/data/a".toList "/pub".toList "/data/a/pub/d".toList "f".toList :=
  new_relPath_right_iff (oneTree_layout _ _ (by decide))

/-- A file of the directory `/data/ab` is announced as `b/f`. -/
theorem neighbour_mangled : ¬ ∀ (w : World) (o : Options) (steps : Nat) (new_dir new_file : Str) (publisher_index : Nat) (msg : Message)
    (base urlPath dir : Str), Layout w o steps new_dir new_file publisher_index msg base urlPath dir →
      ∃ m, updatePaths w o steps new_dir new_file publisher_index msg = (m, .ok ()) ∧
        m.get "new_relPath" = some (.str (relative base urlPath dir new_file)) := by
  intro always
  have layout := oneTree_layout "/data/ab".toList "f".toList (by decide)
  obtain ⟨m, done, right⟩ := always _ _ _ _ _ _ _ _ _ _ layout
  obtain ⟨m', done', path⟩ := layout.updated
  rw [done] at done'
  cases done'
  rw [path] at right
  exact absurd (Value.str.inj (Option.some.inj right)) (by decide)

end Samples
end Updated
end Sarracenia.Guarantees.Placement
