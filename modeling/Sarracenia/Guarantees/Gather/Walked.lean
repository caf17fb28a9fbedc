import Sarracenia.Library.Collect
import Sarracenia.Guarantees.Gather.Tree

/-!
# A walk over a tree

One message is due for each entry. `walk` asks whether a path is a directory, or is there, with links followed, so that it
goes on below a link to a directory and passes over a link that leads nowhere.
-/
namespace Sarracenia.Guarantees.Gather
open Library Library.Text Library.Dynamic
open Source Source.Walk

def under (path name : Str) : Str := path ++ '/' :: name

/-- The parts of a path that go anywhere. -/
def components (path : Str) : List Str := (split ['/'] path).filter (· ≠ ['.'])

/-- `/./` on a path makes no difference, and a directory lists names, each once. -/
structure Posix (os : Os) : Prop where
  same : ∀ path, os.readlink (tidy path) = os.readlink path ∧ os.found (tidy path) = os.found path
  names : ∀ path, ∀ name ∈ os.names path, name ≠ ['.'] ∧ '/' ∉ name
  distinct : ∀ path, (os.names path).Nodup

section Due
variable (os : Os) (o : Options)

/-- The message of each entry: of a link with what it says, whatever it leads to. -/
def expected : Listing → Str → List (Str × Dict Str)
  | .nil, _ => []
  | .file name rest, path => (tidy (under path name), []) :: expected rest path
  | .link name rest, path =>
    (tidy (under path name), [("link", (os.readlink (tidy (under path name))).getD [])]) :: expected rest path
  | .dir name below rest, path =>
    ((tidy (under path name), [("directory", [])]) :: expected below (under path name)) ++ expected rest path

/-- One message for the root, unless it is the base directory, and one for each entry. -/
def Visited (l : Listing) (src : Str) (messages : List Posted) : Prop :=
  (messages.map label).Perm ((if some src = o.post_baseDir then [] else [(tidy src, [("directory", [])])]) ++ expected os l src)

/-- No file is split in blocks. -/
def Unsplit : Listing → Str → Prop
  | .nil, _ => True
  | .file name rest, path =>
    (∀ lstat, os.found (tidy (under path name)) = some lstat → inBlocks os o (tidy (under path name)) lstat = false) ∧
      Unsplit rest path
  | .link _ rest, path => Unsplit rest path
  | .dir name below rest, path => Unsplit below (under path name) ∧ Unsplit rest path

/-- Nothing is posted at a path or below it: nothing is there, or it is a file that is refused or of another kind, or
it is the base directory with nothing to post below it. -/
inductive Quiet : Str → Prop
  | absent {path : Str} (none_ : os.found path = none) : Quiet path
  | refused {path : Str} {lstat : Stat} (there : os.found path = some lstat) (dir : os.isdir path = false)
      (link : os.islink path = false) (nothing : os.isfile path = true → post_file os o (tidy path) lstat none = []) : Quiet path
  | base {path : Str} (dir : os.isdir path = true) (base : some path = o.post_baseDir)
      (below : ∀ name ∈ os.names path, Quiet (under path name)) : Quiet path

/-- Each file can be posted, no directory below the root is the base directory, and a link leads to a file, or to
a directory that is not the base directory and has nothing to post below it. -/
def Plain : Listing → Str → Prop
  | .nil, _ => True
  | .file name rest, path => Whole os o (tidy (under path name)) ∧ Plain rest path
  | .link name rest, path =>
    (os.exists_ (under path name) = true ∧ (os.isdir (under path name) = true →
      some (under path name) ≠ o.post_baseDir ∧ ∀ x ∈ os.names (under path name), Quiet os o (under (under path name) x))) ∧
      Plain rest path
  | .dir name below rest, path => some (under path name) ≠ o.post_baseDir ∧ Plain below (under path name) ∧ Plain rest path

end Due

/-! ## Paths -/

section Paths
variable {path name s : Str}

/-- The first piece is the same, and of the others those that are no dot. -/
theorem tidy_pieces (s : Str) : ∃ first a b, split ['/'] (tidy s) = first :: a ∧ split ['/'] s = first :: b ∧
    a.filter (· ≠ ['.']) = b.filter (· ≠ ['.']) := by
  have some_ : "/./".toList ≠ [] := List.cons_ne_nil _ _
  induction s using separator_induction some_ with
  | nil => exact ⟨[], [], [], rfl, rfl, rfl⟩
  | starts s ih =>
    obtain ⟨first, a, b, tidied, whole, same⟩ := ih
    unfold tidy at tidied ⊢
    refine ⟨[], first :: a, ['.'] :: first :: b, ?_, ?_, ?_⟩
    · rw [replaceAll_starts some_, List.singleton_append, split_cons_self, tidied]
    · have dotted : split ['/'] ('.' :: '/' :: s) = ['.'] :: split ['/'] s := split_concat '/' ['.'] s
      change split ['/'] ('/' :: '.' :: '/' :: s) = _
      rw [split_cons_self, dotted, whole]
    · have dot : (['.'] :: first :: b).filter (· ≠ ['.']) = (first :: b).filter (· ≠ ['.']) := rfl
      rw [dot, List.filter_cons, List.filter_cons, same]
  | cons c s other ih =>
    obtain ⟨first, a, b, tidied, whole, same⟩ := ih
    unfold tidy at tidied ⊢
    rw [replaceAll_cons other]
    by_cases slash : c = '/'
    · subst slash
      refine ⟨[], first :: a, first :: b, by rw [split_cons_self, tidied], by rw [split_cons_self, whole], ?_⟩
      rw [List.filter_cons, List.filter_cons, same]
    · obtain ⟨piece, rest, pieces, longer⟩ := split_cons_ne '/' slash (replaceAll "/./".toList ['/'] s)
      obtain ⟨piece', rest', pieces', longer'⟩ := split_cons_ne '/' slash s
      rw [tidied] at pieces
      rw [whole] at pieces'
      cases pieces
      cases pieces'
      exact ⟨c :: first, a, b, longer, longer', same⟩

theorem components_tidy (path : Str) : components (tidy path) = components path := by
  obtain ⟨first, a, b, tidied, whole, same⟩ := tidy_pieces path
  unfold components
  rw [tidied, whole, List.filter_cons, List.filter_cons, same]

theorem components_under (path name : Str) : components (under path name) = components path ++ components name := by
  unfold components under
  rw [split_concat, List.filter_append]

theorem components_name (proper : name ≠ ['.'] ∧ '/' ∉ name) : components name = [name] := by
  unfold components
  rw [split_plain '/' proper.2, List.filter_cons_of_pos (by simpa using proper.1), List.filter_nil]

/-- What is at a path or below it. -/
def Within (path : Str) (m : Str × Dict Str) : Prop := components path <+: components m.1

theorem within_under (name : Str) {m : Str × Dict Str} (within : Within (under path name) m) : Within path m := by
  unfold Within at within
  rw [components_under] at within
  exact (List.prefix_append _ _).trans within

/-- Nothing is below two names. -/
theorem within_names {a b : Str} (properA : a ≠ ['.'] ∧ '/' ∉ a) (properB : b ≠ ['.'] ∧ '/' ∉ b) {m : Str × Dict Str}
    (one : Within (under path a) m) (other : Within (under path b) m) : a = b := by
  unfold Within at one other
  rw [components_under, components_name properA] at one
  rw [components_under, components_name properB] at other
  have same := List.prefix_of_prefix_length_le one other (by simp)
  have equal := same.eq_of_length (by simp)
  exact List.singleton_inj.mp (List.append_cancel_left equal)

/-- A path is not below itself. -/
theorem not_within_self (proper : name ≠ ['.'] ∧ '/' ∉ name) {m : Str × Dict Str} (here : components m.1 = components path) :
    ¬ Within (under path name) m := by
  unfold Within
  rw [here, components_under, components_name proper]
  intro longer
  have lengths := longer.length_le
  rw [List.length_append, List.length_singleton] at lengths
  omega

end Paths

/-! ## Visiting one path -/

section Visit
variable (os : Os) (o : Options)

/-- What the loop does at one entry. -/
def visit (steps : Nat) (path : Str) : Except Fault (List Posted) :=
  if os.isdir path then walk os o steps path
  else match os.found path with
    | none => .ok []
    | some lstat => post1file os o (steps + 1) path (some lstat) false

/-- What is posted at a path itself, with links not followed. -/
def atPath (path : Str) (lstat : Stat) : List Posted :=
  if os.islink (tidy path) then post_link os (tidy path) none
  else if os.isfile (tidy path) ∨ os.isdir (tidy path) then post_file os o (tidy path) lstat none else []

/-- A walk over trees, with links posted as links. -/
structure Walks (o : Options) : Prop where
  recursive : o.recursive = true
  realpathPost : o.realpathPost = false
  follow_symlinks : o.follow_symlinks = false

variable {os o} {path : Str} {lstat : Stat} {steps : Nat} {messages : List Posted}

theorem post1file_eq (walks : Walks o) (is_directory : Bool) :
    post1file os o (steps + 1) path (some lstat) is_directory = .ok (atPath os o path lstat) := by
  unfold post1file atPath
  dsimp only
  rw [walks.follow_symlinks]
  split
  · rfl
  · split <;> rfl

theorem walkLoop_eq (src : Str) (xs : List Str) : walkLoop os o (steps + 1) (walk os o steps) src xs messages =
    (xs.mapM fun x => visit os o steps (under src x)).map fun parts => messages ++ parts.flatten := by
  induction xs generalizing messages with
  | nil =>
    rw [walkLoop, List.mapM_nil]
    exact congrArg Except.ok (List.append_nil _).symm
  | cons x xs ih =>
    have peel (step : Except Fault (List Posted)) : (do walkLoop os o (steps + 1) (walk os o steps) src xs (messages ++ (← step))) =
        (do let v ← step; let vs ← xs.mapM fun x => visit os o steps (under src x); return v :: vs : Except Fault (List (List Posted))).map
          fun parts => messages ++ parts.flatten := by
      cases step with
      | error e => rfl
      | ok v =>
        change walkLoop _ _ _ _ _ xs (messages ++ v) = _
        rw [ih]
        cases xs.mapM fun x => visit os o steps (under src x) with
        | error e => rfl
        | ok vs => exact congrArg Except.ok (List.append_assoc messages v vs.flatten)
    rw [walkLoop, List.mapM_cons]
    by_cases dir : os.isdir (under src x) = true
    · have here : visit os o steps (under src x) = walk os o steps (under src x) := if_pos dir
      rw [here]
      exact (if_pos dir).trans (peel _)
    · cases found : os.found (under src x) with
      | none =>
        have here : visit os o steps (under src x) = .ok [] := by
          unfold visit
          rw [if_neg dir, found]
        have absent : ¬ os.exists_ (under src x) = true := by
          unfold Os.exists_
          rw [found]
          exact Bool.noConfusion
        have nothing := peel (.ok [])
        rw [here]
        refine (if_neg dir).trans ((if_neg absent).trans (Eq.trans ?_ nothing))
        exact congrArg (walkLoop os o (steps + 1) (walk os o steps) src xs) (List.append_nil messages).symm
      | some lstat =>
        have here : visit os o steps (under src x) = post1file os o (steps + 1) (under src x) (some lstat) false := by
          unfold visit
          rw [if_neg dir, found]
        have there : os.exists_ (under src x) = true := by
          unfold Os.exists_
          rw [found]
          rfl
        have stat : os.stat (under src x) = .ok lstat := by
          unfold Os.stat
          rw [found]
          rfl
        rw [here]
        refine (if_neg dir).trans ((if_pos there).trans ?_)
        change (os.stat (under src x) >>= _) = _
        rw [stat]
        exact peel _

/-- The message of the root, and then those of the entries. -/
theorem walk_dir (walks : Walks o) {src : Str} (dir : os.isdir src = true) (there : os.found src = some lstat) :
    walk os o (steps + 1) src = ((os.names src).mapM fun x => visit os o steps (under src x)).map fun parts =>
      (if some src = o.post_baseDir then [] else atPath os o src lstat) ++ parts.flatten := by
  have stat : os.stat src = .ok lstat := by
    unfold Os.stat
    rw [there]
    rfl
  have real : postedPath os o src = src := by
    unfold postedPath
    rw [walks.realpathPost, Bool.and_false]
    rfl
  unfold walk
  dsimp only
  rw [real, walks.recursive, listdir_dir dir, stat]
  by_cases base : some src = o.post_baseDir
  · rw [if_pos base, if_pos base]
    exact walkLoop_eq src _
  · rw [if_neg base, if_neg base]
    change (post1file os o (steps + 1) src (some lstat) true >>= _) = _
    rw [post1file_eq walks]
    exact walkLoop_eq src _

/-! ### What is at the path itself -/

theorem post_file_path {op : Option (String × Str)} : ∀ m ∈ post_file os o path lstat op, m.path = path := by
  have marked : ((fromFileInfo path (some lstat)).mark op).path = path := by cases op <;> rfl
  unfold post_file
  split
  · unfold post_file_in_parts
    dsimp only
    generalize os.blocks _ = blocks
    intro m member
    split at member
    · obtain ⟨b, -, rfl⟩ := List.mem_map.mp member
      rfl
    · cases member
  · unfold fromFileData
    split
    · nofun
    · next msg made =>
      split at made
      · cases made
      · cases made
        dsimp only
        split_ifs <;> simp [marked]

theorem atPath_path : ∀ m ∈ atPath os o path lstat, m.path = tidy path := by
  unfold atPath
  split_ifs
  · intro m member
    cases List.mem_singleton.mp member
    rfl
  · exact post_file_path
  · nofun

theorem atPath_link (o : Options) (lstat : Stat) (posix : Posix os) (link : os.islink path = true) :
    (atPath os o path lstat).map label = [(tidy path, [("link", (os.readlink (tidy path)).getD [])])] := by
  have tidied : os.islink (tidy path) = true := by
    unfold Os.islink at link ⊢
    rwa [(posix.same path).1]
  unfold atPath
  rw [if_pos tidied]
  rfl

theorem tidy_isfile (posix : Posix os) : os.isfile (tidy path) = os.isfile path := by
  unfold Os.isfile
  rw [(posix.same path).2]

theorem tidy_isdir (posix : Posix os) : os.isdir (tidy path) = os.isdir path := by
  unfold Os.isdir
  rw [(posix.same path).2]

theorem tidy_islink (posix : Posix os) : os.islink (tidy path) = os.islink path := by
  unfold Os.islink
  rw [(posix.same path).1]

theorem atPath_file (posix : Posix os) (link : os.islink path = false) (file : os.isfile path = true) :
    atPath os o path lstat = post_file os o (tidy path) lstat none := by
  unfold atPath
  rw [tidy_islink posix, link, if_neg Bool.noConfusion, tidy_isfile posix, if_pos (.inl file)]

theorem atPath_dir (posix : Posix os) (link : os.islink path = false) (dir : os.isdir path = true)
    (mode : lstat.st_mode = .directory) : (atPath os o path lstat).map label = [(tidy path, [("directory", [])])] := by
  have unsplit : inBlocks os o (tidy path) lstat = false := by
    unfold inBlocks
    rw [tidy_isfile posix, not_file_of_dir dir, Bool.and_false]
  have data : fromFileData os (tidy path) (some lstat) = some (fromFileInfo (tidy path) (some lstat)) := by
    unfold fromFileData
    exact if_neg fun failed => by simp [mode] at failed
  unfold atPath post_file
  rw [tidy_islink posix, link, if_neg Bool.noConfusion, tidy_isdir posix, if_pos (.inr dir), unsplit, data, mode]
  simp [label, fromFileInfo, mode, Posted.mark]

/-- What is posted from a path is there or below. -/
theorem visit_within (walks : Walks o) (done : visit os o steps path = .ok messages) : ∀ m ∈ messages, Within path (label m) := by
  have here {lstat : Stat} {path : Str} : ∀ m ∈ atPath os o path lstat, Within path (label m) := by
    intro m member
    have tidied := components_tidy path
    rw [← atPath_path m member] at tidied
    exact (congrArg (components path <+: ·) tidied).mpr List.prefix_rfl
  induction steps generalizing path messages with
  | zero =>
    unfold visit at done
    split at done
    · cases done
    · split at done
      · cases done
        nofun
      · rw [post1file_eq walks] at done
        cases done
        exact here
  | succ steps ih =>
    unfold visit at done
    split at done
    · next dir =>
      obtain ⟨lstat, there, -, -⟩ := found_dir dir
      rw [walk_dir walks dir there] at done
      obtain ⟨parts, all, same⟩ := map_ok_iff.mp done
      obtain ⟨fine, rfl⟩ := (mapM_ok_iff []).mp all
      subst same
      intro m member
      rcases List.mem_append.mp member with root | inner
      · split at root
        · cases root
        · exact here m root
      · obtain ⟨part, belongs, inside⟩ := List.mem_flatten.mp inner
        obtain ⟨x, name, rfl⟩ := List.mem_map.mp belongs
        obtain ⟨v, visited⟩ := fine x name
        rw [visited] at inside
        exact within_under x (ih visited m inside)
    · split at done
      · cases done
        nofun
      · rw [post1file_eq walks] at done
        cases done
        exact here

/-! ### Where nothing is posted -/

theorem some_atPath (posix : Posix os) (dir : os.isdir path = true) (mode : lstat.st_mode = .directory) :
    ∃ m, (atPath os o path lstat).map label = [m] := by
  cases link : os.islink path with
  | true => exact ⟨_, atPath_link o lstat posix link⟩
  | false => exact ⟨_, atPath_dir posix link dir mode⟩

/-- The message of the root, unless it is the base directory, and then those of the entries. -/
theorem visit_dir (posix : Posix os) (walks : Walks o) (dir : os.isdir path = true) (done : visit os o (steps + 1) path = .ok messages) :
    ∃ root, messages.map label = (if some path = o.post_baseDir then [] else [root]) ++
        ((os.names path).flatMap fun x => (valueOr [] (visit os o steps (under path x))).map label) ∧
      (∀ x ∈ os.names path, ∃ v, visit os o steps (under path x) = .ok v) ∧
      ∀ lstat, os.found path = some lstat → (atPath os o path lstat).map label = [root] := by
  obtain ⟨lstat, there, mode, -⟩ := found_dir dir
  obtain ⟨root, at_⟩ := some_atPath (o := o) posix dir mode
  unfold visit at done
  rw [if_pos dir, walk_dir walks dir there] at done
  obtain ⟨parts, all, rfl⟩ := map_ok_iff.mp done
  obtain ⟨fine, rfl⟩ := (mapM_ok_iff []).mp all
  refine ⟨root, ?_, fine, fun lstat' there' => ?_⟩
  · rw [List.map_append, ← List.flatMap_def, List.map_flatMap]
    split
    · rfl
    · rw [at_]
  · cases there.symm.trans there'
    exact at_

theorem visit_absent (none_ : os.found path = none) : visit os o steps path = .ok [] := by
  have dir : ¬ os.isdir path = true := by
    unfold Os.isdir
    rw [none_]
    exact Bool.noConfusion
  unfold visit
  rw [if_neg dir, none_]

theorem visit_other (walks : Walks o) (dir : os.isdir path = false) (there : os.found path = some lstat) :
    visit os o steps path = .ok (atPath os o path lstat) := by
  unfold visit
  rw [dir, if_neg Bool.noConfusion, there]
  exact post1file_eq walks false

theorem quiet_of_other (posix : Posix os) (walks : Walks o) (dir : os.isdir path = false) (done : visit os o steps path = .ok []) :
    Quiet os o path := by
  cases there : os.found path with
  | none => exact .absent there
  | some lstat =>
    rw [visit_other walks dir there] at done
    have nothing : atPath os o path lstat = [] := Except.ok.inj done
    cases link : os.islink path with
    | true =>
      have one := atPath_link o lstat posix link
      rw [nothing] at one
      cases one
    | false => exact .refused there dir link fun file => (atPath_file posix link file).symm.trans nothing

theorem quiet_of_visit (posix : Posix os) (walks : Walks o) (done : visit os o steps path = .ok []) : Quiet os o path := by
  induction steps generalizing path with
  | zero =>
    cases dir : os.isdir path with
    | true =>
      unfold visit at done
      rw [if_pos dir] at done
      cases done
    | false => exact quiet_of_other posix walks dir done
  | succ steps ih =>
    cases dir : os.isdir path with
    | true =>
      obtain ⟨root, parts, fine, -⟩ := visit_dir posix walks dir done
      obtain ⟨none_, inner⟩ := List.append_eq_nil_iff.mp parts.symm
      refine .base dir ?_ fun x name => ?_
      · by_contra other
        rw [if_neg other] at none_
        cases none_
      · obtain ⟨v, visited⟩ := fine x name
        have silent := List.flatMap_eq_nil_iff.mp inner x name
        rw [visited] at silent
        have empty : v = [] := List.map_eq_nil_iff.mp silent
        rw [empty] at visited
        exact ih visited
    | false => exact quiet_of_other posix walks dir done
/-- Steps that do for each do for all. -/
theorem enough_for_all {α : Type} {P : α → Nat → Prop} {l : List α} (each : ∀ x ∈ l, ∃ enough, ∀ steps, enough ≤ steps → P x steps) :
    ∃ enough, ∀ steps, enough ≤ steps → ∀ x ∈ l, P x steps := by
  induction l with
  | nil => exact ⟨0, fun _ _ => nofun⟩
  | cons x l ih =>
    obtain ⟨here, later⟩ := List.forall_mem_cons.mp each
    obtain ⟨enough, one⟩ := here
    obtain ⟨enough', others⟩ := ih later
    exact ⟨enough + enough', fun steps more => List.forall_mem_cons.mpr ⟨one steps (by omega), others steps (by omega)⟩⟩

theorem visit_of_quiet (posix : Posix os) (walks : Walks o) (quiet : Quiet os o path) :
    ∃ enough, ∀ steps, enough ≤ steps → visit os o steps path = .ok [] := by
  induction quiet with
  | absent none_ => exact ⟨0, fun steps _ => visit_absent none_⟩
  | refused there dir link nothing =>
    rename_i path lstat
    refine ⟨0, fun steps _ => ?_⟩
    rw [visit_other walks dir there]
    unfold atPath
    rw [tidy_islink posix, link, if_neg Bool.noConfusion, tidy_isfile posix, tidy_isdir posix, dir]
    split
    · next file => rw [nothing (file.resolve_right Bool.noConfusion)]
    · rfl
  | base dir base below ih =>
    rename_i path
    obtain ⟨enough, all⟩ := enough_for_all ih
    obtain ⟨lstat, there, -, -⟩ := found_dir dir
    refine ⟨enough + 1, fun steps more => ?_⟩
    cases steps with
    | zero => cases more
    | succ steps =>
      have silent : ((os.names path).mapM fun x => visit os o steps (under path x)) =
          .ok ((os.names path).map fun x => valueOr [] (visit os o steps (under path x))) :=
        (mapM_ok_iff []).mpr ⟨fun x name => ⟨[], all steps (by omega) x name⟩, rfl⟩
      unfold visit
      rw [if_pos dir, walk_dir walks dir there, silent, if_pos base]
      refine congrArg Except.ok ?_
      change List.flatten _ = []
      rw [← List.flatMap_def, List.flatMap_eq_nil_iff]
      intro x name
      rw [all steps (by omega) x name]
      rfl

end Visit
/-! ## All entries -/

section Entries
variable {os : Os} {o : Options} {path name : Str} {l rest : Listing} {steps : Nat}

/-- What is posted for an entry. -/
def got (os : Os) (o : Options) (steps : Nat) (path name : Str) : List (Str × Dict Str) :=
  (valueOr [] (visit os o steps (under path name))).map label

theorem got_of {v : List Posted} (visited : visit os o steps (under path name) = .ok v) : got os o steps path name = v.map label := by
  unfold got
  rw [visited]
  rfl

theorem got_within (walks : Walks o) (fine : ∃ v, visit os o steps (under path name) = .ok v) :
    ∀ m ∈ got os o steps path name, Within (under path name) m := by
  obtain ⟨v, visited⟩ := fine
  rw [got_of visited]
  intro m member
  obtain ⟨x, belongs, rfl⟩ := List.mem_map.mp member
  exact visit_within walks visited x belongs

theorem within_tidy (op : Dict Str) : Within path (tidy path, op) :=
  (congrArg (components path <+: ·) (components_tidy path)).mpr List.prefix_rfl

theorem expected_within : ∀ m ∈ expected os l path, ∃ n ∈ l.names, Within (under path n) m := by
  induction l generalizing path with
  | nil => nofun
  | file name rest ih =>
    refine List.forall_mem_cons.mpr ⟨⟨name, List.mem_cons_self, within_tidy _⟩, fun m member => ?_⟩
    obtain ⟨n, inside, within⟩ := ih m member
    exact ⟨n, List.mem_cons_of_mem _ inside, within⟩
  | link name rest ih =>
    refine List.forall_mem_cons.mpr ⟨⟨name, List.mem_cons_self, within_tidy _⟩, fun m member => ?_⟩
    obtain ⟨n, inside, within⟩ := ih m member
    exact ⟨n, List.mem_cons_of_mem _ inside, within⟩
  | dir name below rest first later =>
    refine List.forall_mem_append.mpr ⟨List.forall_mem_cons.mpr ⟨⟨name, List.mem_cons_self, within_tidy _⟩, fun m member => ?_⟩,
      fun m member => ?_⟩
    · obtain ⟨n, -, within⟩ := first m member
      exact ⟨name, List.mem_cons_self, within_under n within⟩
    · obtain ⟨n, inside, within⟩ := later m member
      exact ⟨n, List.mem_cons_of_mem _ inside, within⟩

/-- The messages for an entry are told from those for the others by their paths. -/
theorem entry_apart (walks : Walks o) (own : List (Str × Dict Str)) (proper : ∀ n ∈ name :: rest.names, n ≠ ['.'] ∧ '/' ∉ n)
    (distinct : (name :: rest.names).Nodup) (fine : ∀ n ∈ name :: rest.names, ∃ v, visit os o steps (under path n) = .ok v)
    (within : ∀ m ∈ own, Within (under path name) m)
    (same : ((name :: rest.names).flatMap (got os o steps path)).Perm (own ++ expected os rest path)) :
    (got os o steps path name).Perm own ∧ (rest.names.flatMap (got os o steps path)).Perm (expected os rest path) := by
  obtain ⟨new, -⟩ := List.nodup_cons.mp distinct
  obtain ⟨properName, properRest⟩ := List.forall_mem_cons.mp proper
  have outside {n : Str} (member : n ∈ rest.names) {m : Str × Dict Str} (there : Within (under path n) m) : ¬ Within (under path name) m :=
    fun here => new (within_names properName (properRest n member) here there ▸ member)
  rw [List.flatMap_cons] at same
  refine perm_apart (got_within walks (fine name List.mem_cons_self)) within (fun m member => ?_) (fun m member => ?_) same
  · obtain ⟨n, inside, belongs⟩ := List.mem_flatMap.mp member
    exact outside inside (got_within walks (fine n (List.mem_cons_of_mem _ inside)) m belongs)
  · obtain ⟨n, inside, there⟩ := expected_within m member
    exact outside inside there

theorem file_whole (posix : Posix os) (walks : Walks o) (none_ : os.readlink path = none) (file : os.isfile path = true)
    (unsplit : ∀ lstat, os.found (tidy path) = some lstat → inBlocks os o (tidy path) lstat = false) {v : List Posted}
    (visited : visit os o steps path = .ok v) (some_ : v ≠ []) : Whole os o (tidy path) := by
  obtain ⟨lstat, there, regular, -⟩ := found_file file
  have tidied : os.found (tidy path) = some lstat := (posix.same path).2.trans there
  by_contra refused
  rw [visit_other walks (not_dir_of_file file) there, atPath_file posix (not_link none_) file,
    post_file_refused regular tidied (unsplit lstat tidied) refused] at visited
  exact some_ (Except.ok.inj visited).symm

/-- The message of a directory, or of a link, is none of those below it. -/
theorem not_below_self (posix : Posix os) (walks : Walks o) (fine : ∀ x ∈ os.names path, ∃ v, visit os o steps (under path x) = .ok v)
    {m : Str × Dict Str} (here : components m.1 = components path) : m ∉ (os.names path).flatMap (got os o steps path) := by
  intro member
  obtain ⟨x, name, inside⟩ := List.mem_flatMap.mp member
  exact not_within_self (posix.names path x name) here (got_within walks (fine x name) m inside)

/-- A link that has one message, its own, leads somewhere, and to nothing to post. -/
theorem link_quiet (posix : Posix os) (walks : Walks o) {v : List Posted} {m : Str × Dict Str} (visited : visit os o steps path = .ok v)
    (here : components m.1 = components path) (one : (v.map label).Perm [m]) :
    os.exists_ path = true ∧ (os.isdir path = true → some path ≠ o.post_baseDir ∧ ∀ x ∈ os.names path, Quiet os o (under path x)) := by
  have single := List.perm_singleton.mp one
  cases there : os.found path with
  | none =>
    rw [visit_absent there] at visited
    cases visited
    cases single
  | some lstat =>
    refine ⟨by unfold Os.exists_; rw [there]; rfl, fun dir => ?_⟩
    cases steps with
    | zero =>
      unfold visit at visited
      rw [if_pos dir] at visited
      cases visited
    | succ steps =>
      obtain ⟨root, parts, fine, -⟩ := visit_dir posix walks dir visited
      rw [single] at parts
      by_cases base : some path = o.post_baseDir
      · -- the only message is from below, and cannot be that of the link
        rw [if_pos base, List.nil_append] at parts
        exact absurd (parts ▸ List.mem_cons_self) (not_below_self posix walks fine here)
      · rw [if_neg base] at parts
        have inner := (List.cons.inj parts).2
        refine ⟨base, fun x name => ?_⟩
        obtain ⟨v, below⟩ := fine x name
        have silent : v.map label = [] := by
          rw [← got_of below]
          exact List.flatMap_eq_nil_iff.mp inner.symm x name
        rw [List.map_eq_nil_iff.mp silent] at below
        exact quiet_of_visit posix walks below

/-- What is left below a directory, once its own message is taken away. -/
theorem dir_below (posix : Posix os) (walks : Walks o) {below : Listing} {v : List Posted} (none_ : os.readlink path = none)
    (dir : os.isdir path = true) (names : os.names path = below.names) (visited : visit os o (steps + 1) path = .ok v)
    (same : (v.map label).Perm ((if some path = o.post_baseDir then [] else [(tidy path, [("directory", [])])]) ++ expected os below path)) :
    (∀ x ∈ below.names, ∃ v, visit os o steps (under path x) = .ok v) ∧
      (below.names.flatMap (got os o steps path)).Perm (expected os below path) := by
  obtain ⟨root, parts, fine, at_⟩ := visit_dir posix walks dir visited
  obtain ⟨lstat, there, mode, -⟩ := found_dir dir
  have own : root = (tidy path, [("directory", [])]) :=
    List.singleton_inj.mp ((at_ lstat there).symm.trans (atPath_dir posix (not_link none_) dir mode))
  rw [names] at parts fine
  rw [parts, own] at same
  exact ⟨fine, (List.perm_append_left_iff _).mp same⟩

/-- A directory that has its own message is not the base directory. -/
theorem dir_announced (posix : Posix os) (walks : Walks o) {v : List Posted} {m : Str × Dict Str} (dir : os.isdir path = true)
    (visited : visit os o (steps + 1) path = .ok v) (here : components m.1 = components path) (own : m ∈ v.map label) :
    some path ≠ o.post_baseDir := by
  intro base
  obtain ⟨root, parts, fine, -⟩ := visit_dir posix walks dir visited
  rw [parts, if_pos base, List.nil_append] at own
  exact not_below_self posix walks fine here own

/-- Where the messages are those that are due, every file, link and directory is such as it should be. -/
theorem plain_of_perm (posix : Posix os) (walks : Walks o) (shown : Shows os under l path) (unsplit : Unsplit os o l path)
    (proper : ∀ n ∈ l.names, n ≠ ['.'] ∧ '/' ∉ n) (distinct : l.names.Nodup)
    (fine : ∀ x ∈ l.names, ∃ v, visit os o steps (under path x) = .ok v)
    (same : (l.names.flatMap (got os o steps path)).Perm (expected os l path)) : Plain os o l path := by
  induction l generalizing path steps with
  | nil => trivial
  | file name rest ih =>
    obtain ⟨none_, file, others⟩ := shown
    obtain ⟨first, later⟩ := entry_apart walks [(tidy (under path name), [])] proper distinct fine
      (List.forall_mem_cons.mpr ⟨within_tidy _, nofun⟩) same
    obtain ⟨v, visited⟩ := fine name List.mem_cons_self
    rw [got_of visited] at first
    have some_ : v ≠ [] := by
      rintro rfl
      cases first.length_eq
    exact ⟨file_whole posix walks none_ file unsplit.1 visited some_, ih others unsplit.2 (List.forall_mem_cons.mp proper).2
      (List.nodup_cons.mp distinct).2 (List.forall_mem_cons.mp fine).2 later⟩
  | link name rest ih =>
    obtain ⟨first, later⟩ := entry_apart walks [(tidy (under path name), [("link", (os.readlink (tidy (under path name))).getD [])])]
      proper distinct fine (List.forall_mem_cons.mpr ⟨within_tidy _, nofun⟩) same
    obtain ⟨v, visited⟩ := fine name List.mem_cons_self
    rw [got_of visited] at first
    exact ⟨link_quiet posix walks visited (components_tidy _) first, ih shown.2 unsplit (List.forall_mem_cons.mp proper).2
      (List.nodup_cons.mp distinct).2 (List.forall_mem_cons.mp fine).2 later⟩
  | dir name below rest ihBelow ihRest =>
    obtain ⟨⟨none_, dir, names, inside⟩, others⟩ := shown
    have within : ∀ m ∈ (tidy (under path name), [("directory", [])]) :: expected os below (under path name), Within (under path name) m :=
      List.forall_mem_cons.mpr ⟨within_tidy _, fun m deeper => by
        obtain ⟨n, -, there⟩ := expected_within m deeper
        exact within_under n there⟩
    obtain ⟨first, later⟩ := entry_apart walks _ proper distinct fine within same
    obtain ⟨v, visited⟩ := fine name List.mem_cons_self
    rw [got_of visited] at first
    cases steps with
    | zero =>
      unfold visit at visited
      rw [if_pos dir] at visited
      cases visited
    | succ steps =>
      have other := dir_announced posix walks dir visited (components_tidy _) (first.mem_iff.mpr List.mem_cons_self)
      have own : (v.map label).Perm ((if some (under path name) = o.post_baseDir then [] else
          [(tidy (under path name), [("directory", [])])]) ++ expected os below (under path name)) := by
        rw [if_neg other]
        exact first
      obtain ⟨fineBelow, sameBelow⟩ := dir_below posix walks none_ dir names visited own
      have properBelow : ∀ n ∈ below.names, n ≠ ['.'] ∧ '/' ∉ n := names ▸ posix.names (under path name)
      exact ⟨other, ihBelow inside unsplit.1 properBelow (names ▸ posix.distinct (under path name)) fineBelow sameBelow,
        ihRest others unsplit.2 (List.forall_mem_cons.mp proper).2 (List.nodup_cons.mp distinct).2 (List.forall_mem_cons.mp fine).2 later⟩

/-! ## Where all is as it should be -/

theorem dir_visited (walks : Walks o) {lstat : Stat} (dir : os.isdir path = true) (there : os.found path = some lstat)
    (fine : ∀ x ∈ os.names path, ∃ v, visit os o steps (under path x) = .ok v) : ∃ v, visit os o (steps + 1) path = .ok v ∧
      v.map label = (if some path = o.post_baseDir then [] else (atPath os o path lstat).map label) ++
        (os.names path).flatMap (got os o steps path) := by
  have all := (mapM_ok_iff []).mpr ⟨fine, rfl⟩
  unfold visit
  rw [if_pos dir, walk_dir walks dir there, all]
  refine ⟨_, rfl, ?_⟩
  rw [List.map_append, ← List.flatMap_def, List.map_flatMap]
  split <;> rfl

theorem link_visited (posix : Posix os) (walks : Walks o) (link : os.islink path = true) (there : os.exists_ path = true)
    (quiet : os.isdir path = true → some path ≠ o.post_baseDir ∧ ∀ x ∈ os.names path, Quiet os o (under path x)) :
    ∃ enough, ∀ steps, enough ≤ steps → ∃ v, visit os o steps path = .ok v ∧
      v.map label = [(tidy path, [("link", (os.readlink (tidy path)).getD [])])] := by
  obtain ⟨lstat, found⟩ := Option.isSome_iff_exists.mp there
  cases dir : os.isdir path with
  | false => exact ⟨0, fun steps _ => ⟨_, visit_other walks dir found, atPath_link o lstat posix link⟩⟩
  | true =>
    obtain ⟨other, below⟩ := quiet dir
    obtain ⟨enough, all⟩ := enough_for_all fun x name => visit_of_quiet posix walks (below x name)
    refine ⟨enough + 1, fun steps more => ?_⟩
    cases steps with
    | zero => cases more
    | succ steps =>
      obtain ⟨v, visited, labels⟩ := dir_visited walks dir found fun x name => ⟨[], all steps (by omega) x name⟩
      have silent : (os.names path).flatMap (got os o steps path) = [] :=
        List.flatMap_eq_nil_iff.mpr fun x name => got_of (all steps (by omega) x name)
      rw [if_neg other, atPath_link o lstat posix link, silent] at labels
      exact ⟨v, visited, labels⟩

theorem file_visited (steps : Nat) (posix : Posix os) (walks : Walks o) (none_ : os.readlink path = none) (file : os.isfile path = true)
    (whole : Whole os o (tidy path)) : ∃ v, visit os o steps path = .ok v ∧ v.map label = [(tidy path, [])] := by
  obtain ⟨lstat, there, regular, -⟩ := found_file file
  refine ⟨_, visit_other walks (not_dir_of_file file) there, ?_⟩
  rw [atPath_file posix (not_link none_) file, post_file_whole regular ((posix.same path).2.trans there) whole]
  exact congrArg (fun op => [(tidy path, op)]) (fromFileInfo_regular regular)

/-- With steps enough, a tree that is as it should be has a message for each entry, in order. -/
theorem expected_of_plain (posix : Posix os) (walks : Walks o) (shown : Shows os under l path) (plain : Plain os o l path) :
    ∃ enough, ∀ steps, enough ≤ steps → (∀ x ∈ l.names, ∃ v, visit os o steps (under path x) = .ok v) ∧
      l.names.flatMap (got os o steps path) = expected os l path := by
  induction l generalizing path with
  | nil => exact ⟨0, fun steps _ => ⟨nofun, rfl⟩⟩
  | file name rest ih =>
    obtain ⟨enough, all⟩ := ih shown.2.2 plain.2
    refine ⟨enough, fun steps more => ?_⟩
    obtain ⟨v, visited, labels⟩ := file_visited steps posix walks shown.1 shown.2.1 plain.1
    obtain ⟨fine, later⟩ := all steps more
    refine ⟨List.forall_mem_cons.mpr ⟨⟨v, visited⟩, fine⟩, ?_⟩
    rw [Listing.names, List.flatMap_cons, got_of visited, labels, later]
    rfl
  | link name rest ih =>
    obtain ⟨enough, all⟩ := ih shown.2 plain.2
    obtain ⟨enough', here⟩ := link_visited posix walks shown.1 plain.1.1 plain.1.2
    refine ⟨enough + enough', fun steps more => ?_⟩
    obtain ⟨v, visited, labels⟩ := here steps (by omega)
    obtain ⟨fine, later⟩ := all steps (by omega)
    refine ⟨List.forall_mem_cons.mpr ⟨⟨v, visited⟩, fine⟩, ?_⟩
    rw [Listing.names, List.flatMap_cons, got_of visited, labels, later]
    rfl
  | dir name below rest ihBelow ihRest =>
    obtain ⟨⟨none_, dir, names, inside⟩, others⟩ := shown
    obtain ⟨other, plainBelow, plainRest⟩ := plain
    obtain ⟨enough, all⟩ := ihBelow inside plainBelow
    obtain ⟨enough', all'⟩ := ihRest others plainRest
    obtain ⟨lstat, there, mode, -⟩ := found_dir dir
    refine ⟨enough + enough' + 1, fun steps more => ?_⟩
    cases steps with
    | zero => cases more
    | succ steps =>
      obtain ⟨fineBelow, deeper⟩ := all steps (by omega)
      obtain ⟨fine, later⟩ := all' (steps + 1) (by omega)
      obtain ⟨v, visited, labels⟩ := dir_visited walks dir there (names ▸ fineBelow)
      rw [if_neg other, atPath_dir posix (not_link none_) dir mode, names, deeper] at labels
      refine ⟨List.forall_mem_cons.mpr ⟨⟨v, visited⟩, fine⟩, ?_⟩
      rw [Listing.names, List.flatMap_cons, got_of visited, labels, later]
      rfl

theorem plain_of_visited (posix : Posix os) (walks : Walks o) (shown : ShowsRoot os under l path) (unsplit : Unsplit os o l path)
    {v : List Posted} (done : walk os o steps path = .ok v) (visited : Visited os o l path v) : Plain os o l path := by
  obtain ⟨none_, dir, names, inside⟩ := shown
  have root : visit os o steps path = .ok v := (if_pos dir).trans done
  cases steps with
  | zero => cases done
  | succ steps =>
    obtain ⟨fine, same⟩ := dir_below posix walks none_ dir names root visited
    exact plain_of_perm posix walks inside unsplit (names ▸ posix.names path) (names ▸ posix.distinct path) fine same

theorem visited_of_plain (posix : Posix os) (walks : Walks o) (shown : ShowsRoot os under l path) (plain : Plain os o l path) :
    ∃ steps v, walk os o steps path = .ok v ∧ Visited os o l path v := by
  obtain ⟨none_, dir, names, inside⟩ := shown
  obtain ⟨enough, all⟩ := expected_of_plain posix walks inside plain
  obtain ⟨fine, labels⟩ := all enough (Nat.le_refl _)
  obtain ⟨lstat, there, mode, -⟩ := found_dir dir
  obtain ⟨v, visited, whole⟩ := dir_visited walks dir there (names ▸ fine)
  refine ⟨enough + 1, v, (if_pos dir).symm.trans visited, List.Perm.of_eq ?_⟩
  rw [whole, atPath_dir posix (not_link none_) dir mode, names, labels]

end Entries
section Samples

/-- The directory `/d` with one entry, a link or a file. -/
def oneEntry (name : Str) (target : Option Str) (lstat : Option Stat) : Os where
  readlink path := if components path = [[], ['d'], name] then target else none
  found path :=
    if components path = [[], ['d']] then some ⟨.directory, 0⟩ else if components path = [[], ['d'], name] then lstat else none
  names path := if components path = [[], ['d']] then [name] else []
  realpath path := path
  identified _ _ := true
  blocks := List.range
  content _ := .none

theorem oneEntry_posix {name : Str} (target : Option Str) (lstat : Option Stat) (proper : name ≠ ['.'] ∧ '/' ∉ name) :
    Posix (oneEntry name target lstat) where
  same path := by
    unfold oneEntry
    dsimp only
    rw [components_tidy]
    exact ⟨rfl, rfl⟩
  names path x member := by
    unfold oneEntry at member
    dsimp only at member
    split at member
    · exact List.mem_singleton.mp member ▸ proper
    · cases member
  distinct path := by
    unfold oneEntry
    dsimp only
    split
    · exact List.nodup_singleton name
    · exact List.nodup_nil

end Samples
end Sarracenia.Guarantees.Gather
