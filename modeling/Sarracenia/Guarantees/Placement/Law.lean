import Sarracenia.Guarantees.Placement.Stages
import Sarracenia.Library.Collect
import Sarracenia.Guarantees.Filter.Conservation
import Sarracenia.Source.FileInfo

/-!
# Where a file is placed

A file is to be placed under its own name, below the directory of the mask, in what is left of its directories
without the first so many and without those of the base. `updateFieldsAccepted` strips nothing from a path that has
too few directories, and goes by the base directory of the options whatever subscription the message came by;
`fromFileInfo` leaves out the name of a file that has too few.
-/
namespace Sarracenia.Guarantees.Placement
open Library Library.Text Library.Dynamic Library.Paths
open Source Source.Config Source.Placement Source.FileInfo Guarantees.Message

section Directories

/-- The directories without the first so many, and then without those of the base that they begin with. -/
def remaining (strip : Nat) (base dirs : List Str) : List Str :=
  if base <+: dirs.drop strip then (dirs.drop strip).drop base.length else dirs.drop strip

/-- No base that has a name is a beginning of what remains, unless both are the same; or there are too few directories
to strip, and none or exactly those of the base that is gone by. -/
def SameRest (strip : Nat) (used base dirs : List Str) : Prop :=
  (strip ≤ dirs.length ∧ ∀ b ∈ [used, base], b ≠ [] → b <+: dirs.drop strip → used = base) ∨
    (dirs.length < strip ∧ (dirs = [] ∨ dirs = used))

variable {strip : Nat} {used base dirs rest : List Str}

theorem drop_base_length (b : List Str) (rest : List Str) :
    (if b <+: rest then rest.drop b.length else rest).length = rest.length - if b <+: rest then b.length else 0 := by
  split <;> simp

theorem drop_base_eq_iff : (if used <+: rest then rest.drop used.length else rest) = (if base <+: rest then rest.drop base.length else rest) ↔
    ∀ b ∈ [used, base], b ≠ [] → b <+: rest → used = base := by
  constructor
  · intro same b member some_ starts
    have lengths := congrArg List.length same
    rw [drop_base_length, drop_base_length] at lengths
    have pos := List.length_pos_iff.mpr some_
    have fits := starts.length_le
    simp only [List.mem_cons, List.not_mem_nil, or_false] at member
    obtain rfl | rfl := member
    · rw [if_pos starts] at lengths
      split at lengths
      · next other =>
        have short := other.length_le
        exact List.IsPrefix.eq_of_length (List.prefix_of_prefix_length_le starts other (by omega)) (by omega)
      · omega
    · rw [if_pos starts] at lengths
      split at lengths
      · next other =>
        have short := other.length_le
        exact List.IsPrefix.eq_of_length (List.prefix_of_prefix_length_le other starts (by omega)) (by omega)
      · omega
  · intro agree
    have nothing {b : List Str} (not : ¬ (b ≠ [] ∧ b <+: rest)) : (if b <+: rest then rest.drop b.length else rest) = rest := by
      split
      · next starts =>
        have none_ : b = [] := by
          by_contra some_
          exact not ⟨some_, starts⟩
        rw [none_, List.length_nil, List.drop_zero]
      · rfl
    by_cases one : used ≠ [] ∧ used <+: rest
    · rw [agree used (by simp) one.1 one.2]
    · by_cases other : base ≠ [] ∧ base <+: rest
      · rw [agree base (by simp) other.1 other.2]
      · rw [nothing one, nothing other]

theorem carried_eq_iff : carried strip used dirs = remaining strip base dirs ↔ SameRest strip used base dirs := by
  unfold carried remaining SameRest
  dsimp only
  by_cases fits : strip ≤ dirs.length
  · rw [if_pos fits, drop_base_eq_iff]
    exact ⟨fun agree => .inl ⟨fits, agree⟩, fun holds => (holds.resolve_right fun short => absurd short.1 (by omega)).2⟩
  · have none_ : dirs.drop strip = [] := List.drop_eq_nil_iff.mpr (by omega)
    have nothing : (if base <+: ([] : List Str) then ([] : List Str).drop base.length else []) = [] := by
      rw [List.drop_nil, ite_self]
    rw [if_neg fits, none_, nothing]
    constructor
    · intro same
      refine .inr ⟨by omega, ?_⟩
      split at same
      · next starts => exact .inr (starts.eq_of_length_le (List.drop_eq_nil_iff.mp same)).symm
      · exact .inl same
    · intro holds
      obtain ⟨-, rfl | rfl⟩ := holds.resolve_left fun enough => fits enough.1
      · rw [List.drop_nil, ite_self]
      · rw [if_pos List.prefix_rfl, List.drop_length]

end Directories
section Expansion
variable {w : World} {o : Options} {steps : Nat} {r : Rule} {urlstr name text dir : Str} {m m' : Message}

/-- The directory that a text stands for, once its variables are expanded. -/
def StandsFor (w : World) (o : Options) (steps : Nat) (r : Rule) (urlstr name : Str) (m : Message) (text dir : Str) : Prop :=
  ∃ t, variableExpansion w o steps text m = .ok t ∧ sundew_dirPattern w r.findall urlstr name t = .ok dir

/-- A name without a variable: no part of it is a pattern of the product name. -/
def Literal (w : World) (r : Rule) (urlstr name word : Str) : Prop :=
  '$' ∉ word ∧ sundew_matchPattern w (split [':'] name) (split ['_'] ((split [':'] name).headD []))
    (_sundew_basename_parts r.findall urlstr) word = .ok word

theorem variableExpansion_congr (same : ∀ key ∈ ["baseUrl", "source", "_matches"], m'.get key = m.get key) (s : Str) :
    variableExpansion w o steps s m' = variableExpansion w o steps s m := by
  have url (name : String) (part : Str → Str) (s : Str) : substituteUrl w steps name part m' s = substituteUrl w steps name part m s := by
    unfold substituteUrl
    rw [same "baseUrl" (by decide)]
  have source : m'.item "source" = m.item "source" := by
    unfold Dict.item
    rw [same "source" (by decide)]
  have fields (s : Str) : expandFields o m' s = expandFields o m s := by
    unfold expandFields
    rw [same "_matches" (by decide)]
  unfold variableExpansion
  simp only [url, source, fields]

theorem below_congr (top : Str) {mirror : Bool} {one other : List Str} (same : mirror = true → one = other) :
    below mirror top one = below mirror top other := by
  cases mirror with
  | false => rfl
  | true => rw [same rfl]

/-- Names without variables are kept as they are. -/
theorem names_of_standsFor (literal : ∀ word ∈ names text, Literal w r urlstr name word)
    (stands : StandsFor w o steps r urlstr name m text dir) :
    names dir = names text ∧ (names text ≠ [] ∨ text = ['/'] → dir ≠ []) := by
  obtain ⟨t, expand, pattern⟩ := stands
  have plain : '$' ∉ text := by
    intro member
    obtain ⟨word, there, inside⟩ := mem_name (by decide) member
    exact (literal word there).1 inside
  rw [variableExpansion_plain w o steps plain] at expand
  obtain rfl := Except.ok.inj expand
  have each : (names text).mapM (fun ddword => do
      let nddword := (← (split ['$'] ddword).mapM (sundew_matchPattern w (split [':'] name)
        (split ['_'] ((split [':'] name).headD [])) (_sundew_basename_parts r.findall urlstr))).flatten
      return '/' :: nddword) = (.ok ((names text).map fun word => '/' :: word) : Except Fault (List Str)) := by
    refine mapM_ok_of fun word member => ?_
    obtain ⟨dollar, keep⟩ := literal word member
    rw [split_plain _ dollar, List.mapM_cons, keep]
    exact congrArg (fun s => (.ok ('/' :: s) : Except Fault Str)) (List.append_nil word)
  have words : names (((names text).map fun word => '/' :: word).flatten) = names text :=
    names_rooted fun word member => ⟨not_mem_name text word member, names_proper text word member⟩
  unfold sundew_dirPattern at pattern
  have split_ : (split ['/'] text).filter (· ≠ []) = names text := rfl
  dsimp only at pattern
  by_cases root : text = ['/']
  · rw [if_pos root] at pattern
    obtain rfl := Except.ok.inj pattern
    exact ⟨rfl, fun _ none_ => by rw [root] at none_; cases none_⟩
  · rw [if_neg root, split_, each] at pattern
    have absolute (is : dir = ((names text).map fun word => '/' :: word).flatten) :
        names dir = names text ∧ (names text ≠ [] ∨ text = ['/'] → dir ≠ []) := by
      refine ⟨is ▸ words, fun some_ none_ => ?_⟩
      rw [← is, none_] at words
      exact (some_.resolve_right root) words.symm
    cases text with
    | nil => exact absolute (Except.ok.inj pattern).symm
    | cons c rest =>
      change (if c ≠ '$' ∧ c ≠ '/' then _ else _) = _ at pattern
      split at pattern
      · -- the slash before a relative path is taken away again
        split at pattern
        · cases pattern
        · next d ds written =>
          cases word : names (c :: rest) with
          | nil =>
            rw [word] at written
            cases written
          | cons first later =>
            rw [word, List.map_cons, List.flatten_cons, List.cons_append] at written
            obtain ⟨rfl, rfl⟩ := List.cons.inj written
            rw [if_pos rfl] at pattern
            obtain rfl := Except.ok.inj pattern
            rw [word, List.map_cons, List.flatten_cons, List.cons_append, names_root] at words
            refine ⟨words, fun _ none_ => ?_⟩
            rw [none_] at words
            cases words
      · exact absolute (Except.ok.inj pattern).symm

end Expansion

section Placed

/-- The file has its own name, and its directory is the one of the mask followed by what is to be left of the
directories, with the variables expanded. -/
structure Placed (w : World) (o : Options) (steps : Nat) (r : Rule) (urlstr relPath top : Str) (base : Option Str)
    (m m' : Message) : Prop where
  name : m'.get "new_file" = some (.str (nameOf relPath))
  dir : ∃ dir, StandsFor w o steps r urlstr (nameOf relPath) m
      (below r.mirror top (remaining r.strip (names (base.getD [])) (dirsOf relPath))) dir ∧
    m'.get "new_dir" = some (.str dir)

/-- Nothing is mirrored, or the same is left of the directories. -/
def Fits (r : Rule) (relPath : Str) (old base : Option Str) : Prop :=
  r.mirror = true → SameRest r.strip (baseParts old) (names (base.getD [])) (dirsOf relPath)

/-- The directory of the mask is the root or has a name, and neither it nor the path has a variable or an empty name. -/
structure Plain (w : World) (r : Rule) (urlstr relPath top : Str) : Prop where
  rooted : top = ['/'] ∨ names top ≠ []
  literal : ∀ word ∈ names top ++ dirsOf relPath, Literal w r urlstr (nameOf relPath) word
  proper : ∀ word ∈ dirsOf relPath, word ≠ []

variable {w : World} {o : Options} {steps : Nat} {r : Rule} {urlstr relPath top dir : Str} {old base : Option Str}
variable {m copied stripped placed m' : Message}

theorem below_names (top : Str) (mirror : Bool) {dirs : List Str} (proper : ∀ word ∈ dirs, '/' ∉ word ∧ word ≠ []) :
    names (below mirror top dirs) = names top ++ if mirror then dirs else [] := by
  unfold below
  cases mirror with
  | false => simp
  | true =>
    by_cases none_ : dirs = []
    · simp [none_]
    · rw [if_pos ⟨rfl, none_⟩, if_pos rfl, names_slash, names_join fun word member => (proper word member).1,
        List.filter_eq_self.mpr fun word member => by simpa using (proper word member).2]

theorem drop_base_subset {used rest : List Str} : (if used <+: rest then rest.drop used.length else rest) ⊆ rest := by
  split
  · exact List.drop_subset _ _
  · exact List.Subset.refl _

theorem carried_subset {strip : Nat} {used dirs : List Str} : carried strip used dirs ⊆ dirs := by
  unfold carried
  dsimp only
  refine List.Subset.trans drop_base_subset ?_
  split
  · exact List.drop_subset _ _
  · exact List.Subset.refl _

theorem remaining_subset {strip : Nat} {used dirs : List Str} : remaining strip used dirs ⊆ dirs :=
  List.Subset.trans drop_base_subset (List.drop_subset _ _)

theorem dirsOf_plain (path : Str) : ∀ word ∈ dirsOf path, '/' ∉ word := fun word member =>
  not_mem_piece path word (List.dropLast_subset _ member)

/-- The place of the message is what its directory stands for. -/
theorem Placing.standsFor (counting : Counting r) (placing : Placing w o steps r urlstr relPath top old m copied stripped placed m' dir) :
    StandsFor w o steps r urlstr (nameOf relPath) m (below r.mirror top (carried r.strip (baseParts old) (dirsOf relPath))) dir := by
  obtain ⟨text, expand, pattern⟩ := placing.expand
  refine ⟨text, ?_, pattern⟩
  rw [← expand]
  refine (variableExpansion_congr (fun key member => placing.kept counting key ?_) _).symm
  have other : ∀ key ∈ ["baseUrl", "source", "_matches"], key ∉ ["fileOp", "post_fileOp", "_deleteOnPost"] := by decide
  exact other key member

theorem Placing.placed_of_fits (counting : Counting r) (placing : Placing w o steps r urlstr relPath top old m copied stripped placed m' dir)
    (fits : Fits r relPath old base) (some_ : dir ≠ []) : Placed w o steps r urlstr relPath top base m m' := by
  obtain ⟨name, place⟩ := updatePaths_place placing.update
  refine ⟨name, dir, ?_, place some_⟩
  rw [below_congr top fun mirror => (carried_eq_iff.mpr (fits mirror)).symm]
  exact placing.standsFor counting

theorem Plain.names_dir (plain : Plain w r urlstr relPath top) {dirs : List Str} (inside : dirs ⊆ dirsOf relPath)
    (stands : StandsFor w o steps r urlstr (nameOf relPath) m (below r.mirror top dirs) dir) :
    names dir = names top ++ (if r.mirror then dirs else []) ∧ dir ≠ [] := by
  have proper : ∀ word ∈ dirs, '/' ∉ word ∧ word ≠ [] := fun word member =>
    ⟨dirsOf_plain relPath word (inside member), plain.proper word (inside member)⟩
  have text := below_names top r.mirror proper
  have kept := names_of_standsFor (fun word member => by
    rw [text] at member
    refine plain.literal word ?_
    cases List.mem_append.mp member with
    | inl there => exact List.mem_append_left _ there
    | inr there =>
      split_ifs at there
      · exact List.mem_append_right _ (inside there)
      · cases there) stands
  rw [text] at kept
  refine ⟨kept.1, kept.2 ?_⟩
  by_cases none_ : names top ++ (if r.mirror then dirs else []) = []
  · right
    obtain ⟨noTop, noDirs⟩ := List.append_eq_nil_iff.mp none_
    rw [plain.rooted.resolve_right fun some_ => some_ noTop]
    unfold below
    rw [if_neg]
    rintro ⟨mirror, some_⟩
    rw [mirror] at noDirs
    exact some_ noDirs
  · exact .inl none_

theorem Placing.fits_of_placed (counting : Counting r) (plain : Plain w r urlstr relPath top)
    (placing : Placing w o steps r urlstr relPath top old m copied stripped placed m' dir)
    (right : Placed w o steps r urlstr relPath top base m m') : Fits r relPath old base := by
  intro mirror
  obtain ⟨wanted, stands, there⟩ := right.dir
  obtain ⟨has, some_⟩ := plain.names_dir carried_subset (placing.standsFor counting)
  obtain ⟨wants, -⟩ := plain.names_dir remaining_subset stands
  have same : dir = wanted := Value.str.inj (Option.some.inj (((updatePaths_place placing.update).2 some_).symm.trans there))
  rw [same, wants, mirror] at has
  exact carried_eq_iff.mp (List.append_cancel_left has).symm

end Placed

section Announced
variable {w : World} {o : Options} {i : InfoOptions} {steps : Nat} {path relPath : Str} {lstat : Option Lstat} {m m' sent : Message}

/-- The path that a message goes by: the one under another name, or its own. -/
def announcement (sent : Message) : Option Value :=
  (sent.get "rename").orElse fun _ => (sent.get "new_relPath").orElse fun _ => sent.get "relPath"

/-- The message announces what is left of the directories, and the name; where nothing is stripped, no other name. -/
def Announces (strip : Nat) (relPath : Str) (sent : Message) : Prop :=
  if strip = 0 then sent.get "rename" = none
  else announcement sent = some (.str ('/' :: join ['/'] ((dirsOf relPath).drop strip ++ [nameOf relPath])))

/-- The fields that are set after the name. -/
def infoFields : List String :=
  ["to_clusters", "from_cluster", "source", "identity", "mode", "_deleteOnPost", "fileOp", "size", "atime", "mtime"]

theorem setGiven_get {key field : String} (other : key ≠ field) (value : Option Value) (m : Message) :
    (setGiven field value m).get key = m.get key := by
  cases value with
  | none => rfl
  | some v => exact Dict.get_set_ne m other v

theorem identityField_get {key : String} {post : Value} (other : key ∉ infoFields) (done : identityField i post m = .ok m') :
    m'.get key = m.get key := by
  have apart : key ≠ "identity" := fun same => other (same ▸ by decide)
  unfold identityField at done
  split at done
  · obtain rfl := Except.ok.inj done
    exact Dict.get_del_ne m apart
  · split at done
    · obtain rfl := Except.ok.inj done
      exact Dict.get_set_ne m apart _
    · split at done
      · obtain ⟨text, -, rfl⟩ := map_ok_iff.mp done
        exact Dict.get_set_ne m apart _
      · obtain rfl := Except.ok.inj done
        rfl

theorem modeField_get {key : String} {record : Lstat} (other : key ∉ infoFields) (done : modeField i record m = .ok m') :
    m'.get key = m.get key := by
  have apart {field : String} (member : field ∈ infoFields) : key ≠ field := fun same => other (same ▸ member)
  unfold modeField at done
  cases mode : record.st_mode with
  | none =>
    rw [mode] at done
    obtain rfl := Except.ok.inj done
    rfl
  | some mode' =>
    rw [mode, Option.elim_some] at done
    dsimp only at done
    split at done
    · obtain rfl := Except.ok.inj done
      exact Dict.get_set_ne m (apart (by decide)) _
    · exact (deleteOnPost_get (apart (by decide)) done).trans (Dict.get_set_ne m (apart (by decide)) _)

theorem sizeFields_get {key : String} {record : Lstat} (other : key ∉ infoFields) (done : sizeFields i record m = .ok m') :
    m'.get key = m.get key := by
  have apart {field : String} (member : field ∈ infoFields) : key ≠ field := fun same => other (same ▸ member)
  unfold sizeFields at done
  dsimp only at done
  split at done
  · obtain rfl := Except.ok.inj done
    rw [setGiven_get (apart (by decide)), setGiven_get (apart (by decide)), setGiven_get (apart (by decide))]
  · rw [deleteOnPost_get (apart (by decide)) done, setGiven_get (apart (by decide)), setGiven_get (apart (by decide)),
      setGiven_get (apart (by decide))]

theorem lstatFields_get {key : String} {record : Lstat} (other : key ∉ infoFields) (done : lstatFields i record m = .ok m') :
    m'.get key = m.get key := by
  obtain ⟨m₁, mode, done⟩ := bind_ok_iff.mp done
  have kept := modeField_get other mode
  split at done
  · obtain rfl := Except.ok.inj done
    have apart : key ≠ "fileOp" := fun same => other (same ▸ by decide)
    exact (Dict.get_set_ne m₁ apart _).trans kept
  · exact (sizeFields_get other done).trans kept

/-- The name under another one, where only a count of directories is stripped. -/
theorem newname_counted (unnamed : given i.rename = none) (relPath : Str) :
    newname o i ('/' :: relPath) = .ok (if o.strip = 0 then none else
      some ('/' :: join ['/'] ((dirsOf relPath ++ [nameOf relPath]).drop o.strip))) := by
  unfold newname
  rw [unnamed]
  by_cases none_ : o.strip = 0
  · rw [if_pos none_]
    simp [none_, bind, Except.bind, pure, Except.pure]
  · rw [if_neg none_]
    simp [none_, bind, Except.bind, pure, Except.pure, split_cons_self, parts_eq]

theorem blankInfo_rename (blocks : Bool) : (blankInfo w i blocks).get "rename" = none := by
  unfold blankInfo
  dsimp only
  rw [Dict.get_set_ne _ (by decide), Dict.get_set_ne _ (by decide), Dict.get_set_ne _ (by decide)]
  split
  · rw [Dict.get_set_ne _ (by decide), setGiven_get (by decide)]
    rfl
  · rw [setGiven_get (by decide)]
    rfl

/-- The path as the message has it, `None` where it has none. -/
def postRelPath (m : Message) : Value := ((m.get "new_relPath").orElse fun _ => m.get "relPath").getD .none

/-- The name that is set if it is another one than the path, and the paths that were worked out. -/
theorem fromFileInfo_ends {path : Str} (posted : fromFileInfo w o i steps path lstat = .ok sent) :
    ∃ blocks m₁ name, updatePaths w o steps (dirname path) (basename path) 0 (blankInfo w i blocks) = (m₁, .ok ()) ∧
      newname o i path = .ok name ∧ ∀ key ∉ infoFields, sent.get key =
        ((name.filter fun name => !(postRelPath m₁).equals name).elim m₁ fun name => m₁.set "rename" (.str name)).get key := by
  obtain ⟨blocks, -, posted⟩ := bind_ok_iff.mp posted
  split at posted
  · cases posted
  · next m₁ updated =>
    obtain ⟨name, named, posted⟩ := bind_ok_iff.mp posted
    obtain ⟨m₃, identity, posted⟩ := bind_ok_iff.mp posted
    refine ⟨blocks, m₁, name, updated, named, fun key other => ?_⟩
    have apart {field : String} (member : field ∈ infoFields) : key ≠ field := fun same => other (same ▸ member)
    have kept := identityField_get other identity
    rw [setGiven_get (apart (by decide)), setGiven_get (apart (by decide)), setGiven_get (apart (by decide))] at kept
    refine Eq.trans ?_ kept
    cases lstat with
    | none =>
      obtain rfl := Except.ok.inj posted
      rfl
    | some record => exact lstatFields_get other posted

theorem fromFileInfo_announces (unnamed : given i.rename = none) (unfixed : ∀ header ∈ o.fixed_headers, header.1 ≠ "rename")
    (posted : fromFileInfo w o i steps ('/' :: relPath) lstat = .ok sent) :
    if o.strip = 0 then sent.get "rename" = none
    else announcement sent = some (.str ('/' :: join ['/'] ((dirsOf relPath ++ [nameOf relPath]).drop o.strip))) := by
  obtain ⟨blocks, m₁, name, updated, named, ends⟩ := fromFileInfo_ends posted
  have fresh : m₁.get "rename" = none := by
    rw [updatePaths_elsewhere (by decide) unfixed updated, blankInfo_rename]
  rw [newname_counted unnamed] at named
  obtain rfl := Except.ok.inj named
  by_cases none_ : o.strip = 0
  · rw [if_pos none_]
    rw [if_pos none_] at ends
    rw [ends "rename" (by decide)]
    exact fresh
  · rw [if_neg none_]
    rw [if_neg none_] at ends
    generalize '/' :: join ['/'] ((dirsOf relPath ++ [nameOf relPath]).drop o.strip) = name at ends
    unfold announcement
    rw [ends "rename" (by decide), ends "new_relPath" (by decide), ends "relPath" (by decide)]
    by_cases same : (postRelPath m₁).equals name = true
    · -- the path is the name already
      have nothing : (some name).filter (fun name => !(postRelPath m₁).equals name) = none := by
        simp [Option.filter, same]
      rw [nothing, Option.elim_none, fresh]
      unfold postRelPath at same
      cases own : (m₁.get "new_relPath").orElse fun _ => m₁.get "relPath" with
      | none =>
        rw [own] at same
        cases same
      | some v =>
        rw [own] at same
        cases v with
        | str s => exact congrArg (fun s => some (Value.str s)) (of_decide_eq_true same)
        | _ => cases same
    · have some_ : (some name).filter (fun name => !(postRelPath m₁).equals name) = some name := by
        simp [Option.filter, same]
      rw [some_, Option.elim_some, Dict.get_set_self]
      rfl

theorem announces_iff (unnamed : given i.rename = none) (unfixed : ∀ header ∈ o.fixed_headers, header.1 ≠ "rename")
    (posted : fromFileInfo w o i steps ('/' :: relPath) lstat = .ok sent) :
    Announces o.strip relPath sent ↔ o.strip ≤ (dirsOf relPath).length ∨ nameOf relPath = [] := by
  have is := fromFileInfo_announces unnamed unfixed posted
  unfold Announces
  by_cases none_ : o.strip = 0
  · rw [if_pos none_] at is ⊢
    exact iff_of_true is (.inl (by omega))
  · rw [if_neg none_] at is ⊢
    rw [is]
    by_cases fits : o.strip ≤ (dirsOf relPath).length
    · exact iff_of_true (by rw [List.drop_append_of_le_length fits]) (.inl fits)
    · have nothing : (dirsOf relPath ++ [nameOf relPath]).drop o.strip = [] := by
        rw [List.drop_eq_nil_iff, List.length_append, List.length_singleton]
        omega
      have noDirs : (dirsOf relPath).drop o.strip = [] := List.drop_eq_nil_iff.mpr (by omega)
      rw [nothing, noDirs, List.nil_append, join_singleton]
      constructor
      · intro same
        exact .inr (List.cons.inj (Value.str.inj (Option.some.inj same))).2.symm
      · intro holds
        rw [holds.resolve_left fits]
        rfl

end Announced

section Law
variable {w : World} {o p : Options} {i : InfoOptions} {steps : Nat} {r : Rule} {urlstr relPath top : Str} {old : Option Str}
variable {msg m m' sent : Message} {lstat : Option Lstat}

/-- The base directory of a subscription. -/
def subscribedBase (o : Options) (subscription : Nat) : Option Str := (o.subscriptions[subscription]?).join

/-- A file whose directories fit is placed by the law, one without variables only if they fit; and what is announced of
the path is the same rest of it if and only if there are enough directories to strip. -/
theorem placement_iff (counting : Counting r) (goes : pathOf w o msg = .ok (relPath, m))
    (root : expandGiven w o steps ((given r.maskDir).orElse fun _ => o.post_baseDir) m = .ok top) (base : oldBaseDir o m = .ok old)
    (done : updateFieldsAccepted w o steps r urlstr msg = .ok (m', true)) (subscription : Nat)
    (unnamed : given i.rename = none) (unfixed : ∀ header ∈ p.fixed_headers, header.1 ≠ "rename") (same : p.strip = r.strip)
    (posted : fromFileInfo w p i steps ('/' :: relPath) lstat = .ok sent) :
    (Fits r relPath old (subscribedBase o subscription) →
      (∀ dir, StandsFor w o steps r urlstr (nameOf relPath) m (below r.mirror top
        (remaining r.strip (names ((subscribedBase o subscription).getD [])) (dirsOf relPath))) dir → dir ≠ []) →
      Placed w o steps r urlstr relPath top (subscribedBase o subscription) m m') ∧
    (Plain w r urlstr relPath top →
      (Placed w o steps r urlstr relPath top (subscribedBase o subscription) m m' ↔ Fits r relPath old (subscribedBase o subscription))) ∧
    (Announces r.strip relPath sent ↔ r.strip ≤ (dirsOf relPath).length ∨ nameOf relPath = []) := by
  obtain ⟨copied, stripped, placed, dir, placing⟩ := updateFieldsAccepted_placing counting goes root base done
  refine ⟨fun fits some_ => placing.placed_of_fits counting fits (some_ dir ?_), fun plain => ⟨placing.fits_of_placed counting plain,
    fun fits => placing.placed_of_fits counting fits (plain.names_dir carried_subset (placing.standsFor counting)).2⟩,
    same ▸ announces_iff unnamed unfixed posted⟩
  rw [below_congr top fun mirror => (carried_eq_iff.mpr (fits mirror)).symm]
  exact placing.standsFor counting

section Samples
open Guarantees.Filter

/-- A mask on `/d`, with a mirror. -/
def mirrored (strip : Nat) : Rule := ⟨none, some "/d".toList, none, true, strip, none, ['/']⟩

def plainInfo : InfoOptions := ⟨none, none, none, .ok [], none, none, none, none, id, true, true⟩

/-- A message about the file `a/f`. -/
def shallow : Message := [("_deleteOnPost", .set []), ("baseUrl", .str "http://h".toList), ("relPath", .str "a/f".toList)]

theorem shallow_goes : pathOf quietWorld noOptions shallow = .ok ("a/f".toList, shallow) := rfl

/-- The message once it has been placed in a directory. -/
def shallowIn (dir path : Str) (subtopic : List Value) : Message :=
  [("_deleteOnPost", .set ["new_dir", "new_file", "new_relPath", "new_baseUrl", "new_subtopic", "subtopic", "post_format"]),
    ("baseUrl", .str "http://h".toList), ("relPath", .str "a/f".toList), ("new_dir", .str dir), ("new_file", .str ['f']),
    ("new_baseUrl", .str "http://h".toList), ("new_relPath", .str path), ("new_subtopic", .list subtopic), ("subtopic", .list subtopic)]

theorem shallow_stripped : updateFieldsAccepted quietWorld noOptions 0 (mirrored 1) [] shallow =
    .ok (shallowIn "/d".toList "d/f".toList [.str ['d']], true) := rfl

theorem shallow_overstripped : updateFieldsAccepted quietWorld noOptions 0 (mirrored 5) [] shallow =
    .ok (shallowIn "/d/a".toList "d/a/f".toList [.str ['d'], .str ['a']], true) := rfl

def stripping (strip : Nat) : Options := { noOptions with strip := strip }

/-- The message about a file, known by another name. -/
def postedAs (rename : Str) : Message :=
  [("_format", .str "v03".toList), ("_deleteOnPost", .set ["exchange", "local_offset", "subtopic", "_format", "new_dir", "new_file",
    "new_relPath", "new_baseUrl", "new_subtopic", "post_format"]), ("local_offset", .int 0), ("pubTime", .str []),
    ("new_dir", .str "/a".toList), ("new_file", .str ['f']), ("rename", .str rename)]

theorem posted_stripped : fromFileInfo quietWorld (stripping 1) plainInfo 0 "/a/f".toList none = .ok (postedAs "/f".toList) := rfl

theorem posted_overstripped : fromFileInfo quietWorld (stripping 5) plainInfo 0 "/a/f".toList none = .ok (postedAs "/".toList) := rfl

theorem shallow_placement :
    (Fits (mirrored 1) "a/f".toList none (subscribedBase noOptions 0) →
      (∀ dir, StandsFor quietWorld noOptions 0 (mirrored 1) [] (nameOf "a/f".toList) shallow (below true "/d".toList
        (remaining 1 (names ((subscribedBase noOptions 0).getD [])) (dirsOf "a/f".toList))) dir → dir ≠ []) →
      Placed quietWorld noOptions 0 (mirrored 1) [] "a/f".toList "/d".toList (subscribedBase noOptions 0) shallow
        (shallowIn "/d".toList "d/f".toList [.str ['d']])) ∧
    (Plain quietWorld (mirrored 1) [] "a/f".toList "/d".toList →
      (Placed quietWorld noOptions 0 (mirrored 1) [] "a/f".toList "/d".toList (subscribedBase noOptions 0) shallow
        (shallowIn "/d".toList "d/f".toList [.str ['d']]) ↔ Fits (mirrored 1) "a/f".toList none (subscribedBase noOptions 0))) ∧
    (Announces 1 "a/f".toList (postedAs "/f".toList) ↔ 1 ≤ (dirsOf "a/f".toList).length ∨ nameOf "a/f".toList = []) :=
  placement_iff (r := mirrored 1) (p := stripping 1) ⟨rfl, rfl, rfl⟩ shallow_goes rfl rfl shallow_stripped 0 rfl
    (fun _ member => nomatch member) rfl posted_stripped

/-- With five directories to strip, the file `a/f` is placed in `/d/a`, and is announced as `/`. -/
theorem overstripped : ¬ ∀ (w : World) (o p : Options) (i : InfoOptions) (steps : Nat) (r : Rule) (urlstr relPath top : Str) (old : Option Str)
    (msg m m' sent : Message) (lstat : Option Lstat), Counting r → pathOf w o msg = .ok (relPath, m) →
      expandGiven w o steps ((given r.maskDir).orElse fun _ => o.post_baseDir) m = .ok top → oldBaseDir o m = .ok old →
      updateFieldsAccepted w o steps r urlstr msg = .ok (m', true) → ∀ subscription, given i.rename = none →
      (∀ header ∈ p.fixed_headers, header.1 ≠ "rename") → p.strip = r.strip →
      fromFileInfo w p i steps ('/' :: relPath) lstat = .ok sent →
      Placed w o steps r urlstr relPath top (subscribedBase o subscription) m m' ∧ Announces r.strip relPath sent := by
  intro always
  obtain ⟨⟨-, wanted, ⟨t, expand, pattern⟩, there⟩, -⟩ := always quietWorld noOptions (stripping 5) plainInfo 0 (mirrored 5) [] _ _ _ _ _ _ _
    none ⟨rfl, rfl, rfl⟩ shallow_goes rfl rfl shallow_overstripped 0 rfl (fun _ member => nomatch member) rfl posted_overstripped
  have expanded : t = "/d".toList := by
    refine (Except.ok.inj (Eq.trans ?_ expand)).symm
    rfl
  subst expanded
  have kept : wanted = "/d".toList := (Except.ok.inj pattern).symm
  subst kept
  exact absurd (Value.str.inj (Option.some.inj there)) (by decide)

end Samples
end Law

end Sarracenia.Guarantees.Placement
