import Sarracenia.Guarantees.Gather.Tree

/-!
# A directory that was moved

One rename is due for each file and each link of it, and one removal for each directory. In the loop of `post_move` the
messages of an entry take the place of those before it.
-/
namespace Sarracenia.Guarantees.Gather
open Library Library.Text Library.Dynamic
open Source Source.Walk

/-- From a directory to one of its entries, in a move. -/
def entryOf (path name : Str) : Str := tidy (path ++ '/' :: name)

/-- The files and links of a directory: where they were, and where they are. -/
def leaves : Listing → Str → Str → List (Str × Str)
  | .nil, _, _ => []
  | .file name rest, src, dst => (entryOf src name, entryOf dst name) :: leaves rest src dst
  | .link name rest, src, dst => (entryOf src name, entryOf dst name) :: leaves rest src dst
  | .dir name below rest, src, dst => leaves below (entryOf src name) (entryOf dst name) ++ leaves rest src dst

/-- The directories in it. -/
def dirs : Listing → Str → Str → List (Str × Str)
  | .nil, _, _ => []
  | .file _ rest, src, dst => dirs rest src dst
  | .link _ rest, src, dst => dirs rest src dst
  | .dir name below rest, src, dst =>
    dirs below (entryOf src name) (entryOf dst name) ++ (entryOf src name, entryOf dst name) :: dirs rest src dst

def Leafless : Listing → Prop
  | .nil => True
  | .file _ _ => False
  | .link _ _ => False
  | .dir _ below rest => Leafless below ∧ Leafless rest

/-- In each directory, only the last entry is a file or a link, or has some. -/
def LastOnly : Listing → Prop
  | .nil => True
  | .file _ rest => rest = .nil
  | .link _ rest => rest = .nil
  | .dir _ below rest => (rest = .nil ∧ LastOnly below) ∨ (Leafless below ∧ LastOnly rest)

section Due
variable (os : Os) (o : Options)

/-- A rename for each file and link, under its old name, and then a removal for each directory. -/
def Moved (l : Listing) (src dst : Str) (messages : List Posted) : Prop :=
  ∃ renames removals, messages = renames ++ removals ∧
    (renames.map label).Perm ((leaves l src dst).map fun x => (postedPath os o x.2, [("rename", x.1)])) ∧
      (removals.map label).Perm ((dirs l src dst ++ [(src, dst)]).map fun x => (x.1, [("remove", [])]))

/-- A file or a link can be posted as renamed, and is so once. -/
def Renamed (dst : Str) : Prop :=
  let path := postedPath os o dst
  o.v2compatRenameDoublePost = false ∧
    ((os.isfile path = true ∧ Whole os o path) ∨ (os.isfile path = false ∧ os.islink path = true))

/-- The real path of a link leads on, to a directory. -/
def Descends (dst : Str) : Prop :=
  let path := postedPath os o dst
  os.isfile path = false ∧ os.islink path = false ∧ os.isdir path = true

/-- What is posted for a file or a link. -/
def posted (src dst : Str) : List Posted :=
  let path := postedPath os o dst
  if os.isfile path then
    doublePost o src path ++ (match os.found path with
      | none => []
      | some lstat => post_file os o path lstat (some ("rename", src)))
  else if os.islink path then doublePost o src path ++ post_link os path (some ("rename", src))
  else []

/-- What the loop ends with, from the messages of the entry before. -/
def brought : Listing → Str → Str → List Posted → List Posted
  | .nil, _, _, messages => messages
  | .file name rest, src, dst, _ => brought rest src dst (posted os o (entryOf src name) (entryOf dst name))
  | .link name rest, src, dst, _ => brought rest src dst (posted os o (entryOf src name) (entryOf dst name))
  | .dir name below rest, src, dst, _ =>
    brought rest src dst (brought below (entryOf src name) (entryOf dst name) [])

end Due

section Runs
variable {os : Os} {o : Options} {l : Listing} {src dst : Str} {messages : List Posted} {lst : List (Str × Str)}
  {r : List Posted × List (Str × Str)} {steps : Nat}

/-- One entry that is neither a directory nor leads to one. -/
theorem post_move_leaf (straight : ¬ Descends os o (tidy dst)) :
    post_move os o (steps + 1) src dst lst = .ok (posted os o (tidy src) (tidy dst), lst) := by
  unfold post_move posted
  dsimp only
  by_cases file : os.isfile (postedPath os o (tidy dst)) = true
  · obtain ⟨lstat, there, -, stat⟩ := found_file file
    rw [if_pos file, if_pos file, stat, there]
    rfl
  · rw [if_neg file, if_neg file]
    by_cases link : os.islink (postedPath os o (tidy dst)) = true
    · rw [if_pos link, if_pos link]
      rfl
    · have none_ : ¬ os.isdir (postedPath os o (tidy dst)) = true := fun dir =>
        straight ⟨Bool.eq_false_iff.mpr file, Bool.eq_false_iff.mpr link, dir⟩
      rw [if_neg link, if_neg link, if_neg none_]
      rfl

theorem postedPath_plain (none_ : os.readlink dst = none) : postedPath os o dst = dst := by
  unfold postedPath
  rw [not_link none_]
  rfl

/-- A directory: its entries, and then itself. -/
theorem post_move_dir (none_ : os.readlink (tidy dst) = none) (dir : os.isdir (tidy dst) = true) :
    post_move os o (steps + 1) src dst lst =
      (moveLoop (post_move os o steps) (tidy src) (tidy dst) (os.names (tidy dst)) [] lst).map
        fun r => (r.1, r.2 ++ [(tidy src, tidy dst)]) := by
  rw [post_move]
  dsimp only
  rw [postedPath_plain none_, not_file_of_dir dir, not_link none_, dir, listdir_dir dir]
  rfl

/-- No link of it leads on to a directory. -/
def Straight (os : Os) (o : Options) (l : Listing) (src dst : Str) : Prop := ∀ x ∈ leaves l src dst, ¬ Descends os o x.2

theorem straight_cons {x : Str × Str} {xs : List (Str × Str)} (straight : ∀ y ∈ x :: xs, ¬ Descends os o y.2) :
    ¬ Descends os o x.2 ∧ ∀ y ∈ xs, ¬ Descends os o y.2 := List.forall_mem_cons.mp straight

/-- With steps enough, the loop ends with what the last entry brings and with all directories. -/
theorem moveLoop_straight (shown : Shows os entryOf l dst) (straight : Straight os o l src dst) :
    ∃ enough, ∀ steps, enough ≤ steps → ∀ messages lst, moveLoop (post_move os o steps) src dst l.names messages lst =
      .ok (brought os o l src dst messages, lst ++ dirs l src dst) := by
  induction l generalizing src dst with
  | nil => exact ⟨0, fun steps _ messages lst => by rw [dirs, List.append_nil]; rfl⟩
  | file name rest ih =>
    obtain ⟨here, later⟩ := straight_cons straight
    obtain ⟨enough, all⟩ := ih shown.2.2 later
    refine ⟨enough + 1, fun steps more messages lst => ?_⟩
    cases steps with
    | zero => cases more
    | succ steps =>
      rw [Listing.names, moveLoop, post_move_leaf here]
      exact all (steps + 1) (by omega) _ lst
  | link name rest ih =>
    obtain ⟨here, later⟩ := straight_cons straight
    obtain ⟨enough, all⟩ := ih shown.2 later
    refine ⟨enough + 1, fun steps more messages lst => ?_⟩
    cases steps with
    | zero => cases more
    | succ steps =>
      rw [Listing.names, moveLoop, post_move_leaf here]
      exact all (steps + 1) (by omega) _ lst
  | dir name below rest first later =>
    obtain ⟨⟨none_, dir, names, inside⟩, others⟩ := shown
    obtain ⟨straightBelow, straightRest⟩ := List.forall_mem_append.mp straight
    obtain ⟨enough, all⟩ := first inside straightBelow
    obtain ⟨enough', all'⟩ := later others straightRest
    refine ⟨enough + enough' + 1, fun steps more messages lst => ?_⟩
    cases steps with
    | zero => cases more
    | succ steps =>
      have entry : post_move os o (steps + 1) (src ++ '/' :: name) (dst ++ '/' :: name) lst =
          .ok (brought os o below (entryOf src name) (entryOf dst name) [],
            lst ++ dirs below (entryOf src name) (entryOf dst name) ++ [(entryOf src name, entryOf dst name)]) := by
        rw [post_move_dir none_ dir]
        change Except.map _ (moveLoop _ (entryOf src name) (entryOf dst name) (os.names (entryOf dst name)) [] lst) = _
        rw [names, all steps (by omega)]
        rfl
      rw [Listing.names, moveLoop, entry]
      refine (all' (steps + 1) (by omega) _ _).trans ?_
      rw [brought, dirs, List.append_assoc, List.append_assoc, List.singleton_append]

/-- More steps make no difference to what has an answer. -/
theorem post_move_more (done : post_move os o steps src dst lst = .ok r) (more : Nat) :
    post_move os o (steps + more) src dst lst = .ok r := by
  induction steps generalizing src dst lst r with
  | zero => cases done
  | succ steps ih =>
    have loop (src dst : Str) (xs : List Str) : ∀ (messages : List Posted) (lst : List (Str × Str)) (r : List Posted × List (Str × Str)),
        moveLoop (post_move os o steps) src dst xs messages lst = .ok r →
          moveLoop (post_move os o (steps + more)) src dst xs messages lst = .ok r := by
      induction xs with
      | nil => exact fun _ _ _ done => done
      | cons x xs ihs =>
        intro messages lst r done
        rw [moveLoop] at done ⊢
        obtain ⟨first, one, rest⟩ := bind_ok_iff.mp done
        rw [ih one]
        exact ihs _ _ _ rest
    rw [Nat.succ_add, post_move] at *
    dsimp only at done ⊢
    split_ifs at done ⊢ with file link dir
    · exact done
    · exact done
    · obtain ⟨xs, listed, rest⟩ := bind_ok_iff.mp done
      obtain ⟨all, looped, last⟩ := bind_ok_iff.mp rest
      rw [listed]
      change (moveLoop _ _ _ xs [] lst >>= _) = _
      rw [loop _ _ _ _ _ _ looped]
      exact last
    · exact done

theorem moveLoop_grows {move : Str → Str → List (Str × Str) → Except Fault (List Posted × List (Str × Str))}
    (grows : ∀ src dst lst r, move src dst lst = .ok r → lst.length ≤ r.2.length) {xs : List Str}
    (done : moveLoop move src dst xs messages lst = .ok r) : lst.length ≤ r.2.length := by
  induction xs generalizing messages lst with
  | nil =>
    cases done
    exact Nat.le_refl _
  | cons x xs ih =>
    obtain ⟨first, one, rest⟩ := bind_ok_iff.mp done
    exact (grows _ _ _ _ one).trans (ih rest)

/-- The directories to remove are never forgotten. -/
theorem post_move_grows (done : post_move os o steps src dst lst = .ok r) : lst.length ≤ r.2.length := by
  induction steps generalizing src dst lst r with
  | zero => cases done
  | succ steps ih =>
    rw [post_move] at done
    dsimp only at done
    split_ifs at done with file link dir
    · obtain ⟨lstat, -, last⟩ := bind_ok_iff.mp done
      cases last
      exact Nat.le_refl _
    · cases done
      exact Nat.le_refl _
    · obtain ⟨xs, -, rest⟩ := bind_ok_iff.mp done
      obtain ⟨all, looped, last⟩ := bind_ok_iff.mp rest
      cases last
      rw [List.length_append]
      exact Nat.le_add_right_of_le (moveLoop_grows (fun _ _ _ _ => ih) looped)
    · cases done
      exact Nat.le_refl _

/-- Where a link leads on to a directory, this is taken for one that was moved. -/
theorem post_move_descends (descends : Descends os o (tidy dst)) (done : post_move os o steps src dst lst = .ok r) :
    lst.length < r.2.length := by
  cases steps with
  | zero => cases done
  | succ steps =>
    obtain ⟨file, link, dir⟩ := descends
    rw [post_move] at done
    dsimp only at done
    rw [file, link, dir, listdir_dir dir] at done
    obtain ⟨xs, -, rest⟩ := bind_ok_iff.mp done
    obtain ⟨all, looped, last⟩ := bind_ok_iff.mp rest
    cases last
    have grown := moveLoop_grows (fun _ _ _ _ => post_move_grows) looped
    rw [List.length_append]
    exact Nat.lt_succ_of_le grown

/-- There are at least as many directories to remove as there are, and more where a link leads on to one. -/
theorem moveLoop_dirs (shown : Shows os entryOf l dst)
    (done : moveLoop (post_move os o steps) src dst l.names messages lst = .ok r) :
    lst.length + (dirs l src dst).length ≤ r.2.length ∧
      (¬ Straight os o l src dst → lst.length + (dirs l src dst).length < r.2.length) := by
  induction l generalizing src dst messages lst r steps with
  | nil =>
    cases done
    exact ⟨Nat.le_refl _, fun crooked => absurd nofun crooked⟩
  | file name rest ih =>
    obtain ⟨first, one, later⟩ := bind_ok_iff.mp done
    obtain ⟨enough, more⟩ := ih shown.2.2 later
    have grown := post_move_grows one
    rw [dirs]
    refine ⟨by omega, fun crooked => ?_⟩
    by_cases here : Descends os o (entryOf dst name)
    · have longer := post_move_descends here one
      omega
    · have strict := more fun straight => crooked (List.forall_mem_cons.mpr ⟨here, straight⟩)
      omega
  | link name rest ih =>
    obtain ⟨first, one, later⟩ := bind_ok_iff.mp done
    obtain ⟨enough, more⟩ := ih shown.2 later
    have grown := post_move_grows one
    rw [dirs]
    refine ⟨by omega, fun crooked => ?_⟩
    by_cases here : Descends os o (entryOf dst name)
    · have longer := post_move_descends here one
      omega
    · have strict := more fun straight => crooked (List.forall_mem_cons.mpr ⟨here, straight⟩)
      omega
  | dir name below rest ihBelow ihRest =>
    obtain ⟨⟨none_, dir, names, inside⟩, others⟩ := shown
    obtain ⟨first, one, later⟩ := bind_ok_iff.mp done
    obtain ⟨enough, more⟩ := ihRest others later
    cases steps with
    | zero => cases one
    | succ steps =>
      rw [post_move_dir none_ dir] at one
      obtain ⟨inner, looped, last⟩ := map_ok_iff.mp one
      cases last
      change moveLoop _ (entryOf src name) (entryOf dst name) (os.names (entryOf dst name)) [] lst = _ at looped
      rw [names] at looped
      obtain ⟨enoughBelow, moreBelow⟩ := ihBelow inside looped
      simp only [dirs, List.length_append, List.length_cons, List.length_nil] at enough more ⊢
      refine ⟨by omega, fun crooked => ?_⟩
      by_cases straight : Straight os o below (entryOf src name) (entryOf dst name)
      · have strict := more fun later => crooked (List.forall_mem_append.mpr ⟨straight, later⟩)
        omega
      · have strict := moreBelow straight
        omega

end Runs

section Counts
variable {os : Os} {o : Options} {l : Listing} {src dst : Str} {path : Str} {lstat : Stat} {messages : List Posted}

/-- How many of the messages have an operation. -/
def count (op : String) (messages : List Posted) : Nat := messages.countP fun m => (m.fileOp.get op).isSome

theorem count_append (op : String) (a b : List Posted) : count op (a ++ b) = count op a + count op b := List.countP_append

/-- The count of messages is that of their labels. -/
theorem count_label (op : String) (messages : List Posted) :
    count op messages = (messages.map label).countP fun x => (x.2.get op).isSome := by
  rw [List.countP_map]
  rfl

/-- A file that is split, not identified or too large is not renamed. -/
theorem post_file_counts (o : Options) (src : Str) (regular : lstat.st_mode = .regular) (there : os.found path = some lstat) :
    count "remove" (post_file os o path lstat (some ("rename", src))) = 0 ∧
      count "rename" (post_file os o path lstat (some ("rename", src))) ≤ 1 ∧
        (¬ Whole os o path → count "rename" (post_file os o path lstat (some ("rename", src))) = 0) := by
  by_cases whole : Whole os o path
  · rw [count_label, count_label, post_file_whole regular there whole]
    unfold label Posted.mark
    rw [fromFileInfo_regular regular]
    exact ⟨rfl, Nat.le_refl 1, absurd whole⟩
  · suffices none_ : count "remove" (post_file os o path lstat (some ("rename", src))) = 0 ∧
        count "rename" (post_file os o path lstat (some ("rename", src))) = 0 from ⟨none_.1, by omega, fun _ => none_.2⟩
    by_cases parts : inBlocks os o path lstat = true
    · have plain : ∀ m ∈ post_file os o path lstat (some ("rename", src)), m.fileOp = [] := by
        unfold post_file
        rw [if_pos parts]
        intro m member
        unfold post_file_in_parts at member
        dsimp only at member
        generalize os.blocks _ = blocks at member
        split at member
        · obtain ⟨b, -, rfl⟩ := List.mem_map.mp member
          exact (fromFileInfo_regular regular : (fromFileInfo path (some lstat)).fileOp = [])
        · cases member
      exact ⟨List.countP_eq_zero.mpr fun m member => by simp [plain m member],
        List.countP_eq_zero.mpr fun m member => by simp [plain m member]⟩
    · rw [post_file_refused regular there (Bool.eq_false_iff.mpr parts) whole]
      exact ⟨rfl, rfl⟩

theorem post_delete_label (newname : Option Str) : (post_delete o src newname false).map label = [(src, [("remove", [])])] := by
  unfold post_delete
  dsimp only
  cases newname with
  | none => rfl
  | some value =>
    cases o.post_baseDir.filter (· ≠ []) with
    | none => rfl
    | some post_baseDir => rfl

theorem doublePost_counts (o : Options) (src dst : Str) : count "rename" (doublePost o src dst) = 0 ∧
    (o.v2compatRenameDoublePost = true → count "remove" (doublePost o src dst) = 1) := by
  unfold doublePost
  split
  · rw [count_label, count_label, post_delete_label]
    exact ⟨rfl, fun _ => rfl⟩
  · next off => exact ⟨rfl, fun on => absurd on off⟩

theorem posted_file (file : os.isfile (postedPath os o path) = true) (there : os.found (postedPath os o path) = some lstat) :
    posted os o src path = doublePost o src (postedPath os o path) ++ post_file os o (postedPath os o path) lstat (some ("rename", src)) := by
  unfold posted
  rw [if_pos file, there]

theorem posted_link (file : os.isfile (postedPath os o path) = false) (link : os.islink (postedPath os o path) = true) :
    posted os o src path = doublePost o src (postedPath os o path) ++
      [(fromFileInfo (postedPath os o path) none).mark (some ("rename", src))] := by
  unfold posted
  dsimp only
  rw [file, if_neg Bool.noConfusion, if_pos link]
  rfl

theorem posted_renamed (renamed : Renamed os o path) : (posted os o src path).map label = [(postedPath os o path, [("rename", src)])] := by
  obtain ⟨single, ⟨file, whole⟩ | ⟨file, link⟩⟩ := renamed
  · obtain ⟨lstat, there, regular, -⟩ := found_file file
    have nothing : doublePost o src (postedPath os o path) = [] := if_neg (by rw [single]; exact Bool.noConfusion)
    rw [posted_file file there, nothing, List.nil_append, post_file_whole regular there whole]
    unfold label Posted.mark
    rw [fromFileInfo_regular regular]
    rfl
  · have nothing : doublePost o src (postedPath os o path) = [] := if_neg (by rw [single]; exact Bool.noConfusion)
    rw [posted_link file link, nothing]
    rfl

/-- A file or a link has one rename at most, and one with no removal only as it should. -/
theorem posted_counts (os : Os) (o : Options) (src path : Str) : count "rename" (posted os o src path) ≤ 1 ∧
    (count "rename" (posted os o src path) = 1 → count "remove" (posted os o src path) = 0 → Renamed os o path) := by
  have double := doublePost_counts o src (postedPath os o path)
  have single (none_ : count "remove" (doublePost o src (postedPath os o path)) = 0) : o.v2compatRenameDoublePost = false := by
    by_contra on
    rw [Bool.not_eq_false] at on
    have one := double.2 on
    omega
  cases file : os.isfile (postedPath os o path) with
  | true =>
    obtain ⟨lstat, there, regular, -⟩ := found_file file
    obtain ⟨-, less, none_⟩ := post_file_counts o src regular there
    rw [posted_file file there, count_append, count_append]
    refine ⟨by omega, fun one removed => ⟨single (by omega), .inl ⟨file, ?_⟩⟩⟩
    by_contra partial_
    have zero := none_ partial_
    omega
  | false =>
    cases link : os.islink (postedPath os o path) with
    | true =>
      have one : count "rename" [(fromFileInfo (postedPath os o path) none).mark (some ("rename", src))] = 1 := rfl
      rw [posted_link file link, count_append, count_append]
      exact ⟨by omega, fun _ removed => ⟨single (by omega), .inr ⟨file, link⟩⟩⟩
    | false =>
      have nothing : posted os o src path = [] := by
        unfold posted
        dsimp only
        rw [file, link]
        rfl
      rw [nothing]
      exact ⟨by decide, fun one => absurd one (by decide)⟩

theorem leafless_iff : Leafless l ↔ leaves l src dst = [] := by
  induction l generalizing src dst with
  | nil => exact iff_of_true trivial rfl
  | file name rest ih => exact iff_of_false not_false (List.cons_ne_nil _ _)
  | link name rest ih => exact iff_of_false not_false (List.cons_ne_nil _ _)
  | dir name below rest first later =>
    rw [Leafless, leaves, List.append_eq_nil_iff, first, later]

theorem Leafless.lastOnly (empty : Leafless l) : LastOnly l := by
  induction l with
  | nil => trivial
  | file name rest ih => cases empty
  | link name rest ih => cases empty
  | dir name below rest first later => exact .inr ⟨empty.1, later empty.2⟩

/-- What comes before the last entry is lost. -/
theorem brought_some (some_ : l ≠ .nil) : brought os o l src dst messages = brought os o l src dst [] := by
  cases l with
  | nil => exact absurd rfl some_
  | file name rest => rfl
  | link name rest => rfl
  | dir name below rest => rfl

theorem brought_kept (last : LastOnly l) (kept : ∀ x ∈ leaves l src dst, Renamed os o x.2) :
    (brought os o l src dst []).map label = (leaves l src dst).map fun x => (postedPath os o x.2, [("rename", x.1)]) := by
  induction l generalizing src dst with
  | nil => rfl
  | file name rest ih =>
    cases last
    exact posted_renamed (List.forall_mem_cons.mp kept).1
  | link name rest ih =>
    cases last
    exact posted_renamed (List.forall_mem_cons.mp kept).1
  | dir name below rest first later =>
    obtain ⟨keptBelow, keptRest⟩ := List.forall_mem_append.mp kept
    rw [brought, leaves, List.map_append]
    by_cases none_ : rest = .nil
    · subst none_
      have lastBelow : LastOnly below := last.elim And.right fun both => both.1.lastOnly
      rw [leaves, List.map_nil, List.append_nil]
      exact first lastBelow keptBelow
    · obtain ⟨nil, -⟩ | ⟨empty, lastRest⟩ := last
      · exact absurd nil none_
      · rw [brought_some none_, later lastRest keptRest, leafless_iff.mp empty]
        rfl

/-- There are no more renames than files and links, and as many only where none is lost. -/
theorem brought_counts : count "rename" (brought os o l src dst []) ≤ (leaves l src dst).length ∧
    (count "rename" (brought os o l src dst []) = (leaves l src dst).length → count "remove" (brought os o l src dst []) = 0 →
      LastOnly l ∧ ∀ x ∈ leaves l src dst, Renamed os o x.2) := by
  have leaf (name : Str) (rest : Listing)
      (ih : ∀ {src dst : Str}, count "rename" (brought os o rest src dst []) ≤ (leaves rest src dst).length ∧
        (count "rename" (brought os o rest src dst []) = (leaves rest src dst).length →
          count "remove" (brought os o rest src dst []) = 0 → LastOnly rest ∧ ∀ x ∈ leaves rest src dst, Renamed os o x.2))
      (src dst : Str) : let now := brought os o rest src dst (posted os o (entryOf src name) (entryOf dst name))
      count "rename" now ≤ (leaves rest src dst).length + 1 ∧ (count "rename" now = (leaves rest src dst).length + 1 →
        count "remove" now = 0 → rest = .nil ∧ Renamed os o (entryOf dst name) ∧ ∀ x ∈ leaves rest src dst, Renamed os o x.2) := by
    by_cases none_ : rest = .nil
    · subst none_
      obtain ⟨less, one⟩ := posted_counts os o (entryOf src name) (entryOf dst name)
      exact ⟨less, fun full removed => ⟨rfl, one full removed, nofun⟩⟩
    · dsimp only
      rw [brought_some none_]
      have less := (@ih src dst).1
      exact ⟨by omega, fun full => by omega⟩
  induction l generalizing src dst with
  | nil => exact ⟨Nat.le_refl _, fun _ _ => ⟨trivial, nofun⟩⟩
  | file name rest ih =>
    obtain ⟨less, full⟩ := leaf name rest ih src dst
    refine ⟨less, fun all removed => ?_⟩
    obtain ⟨last, here, later⟩ := full all removed
    exact ⟨last, List.forall_mem_cons.mpr ⟨here, later⟩⟩
  | link name rest ih =>
    obtain ⟨less, full⟩ := leaf name rest ih src dst
    refine ⟨less, fun all removed => ?_⟩
    obtain ⟨last, here, later⟩ := full all removed
    exact ⟨last, List.forall_mem_cons.mpr ⟨here, later⟩⟩
  | dir name below rest first later =>
    obtain ⟨lessBelow, fullBelow⟩ := @first (entryOf src name) (entryOf dst name)
    obtain ⟨lessRest, fullRest⟩ := @later src dst
    rw [brought, leaves, List.length_append]
    by_cases none_ : rest = .nil
    · subst none_
      refine ⟨Nat.le_add_right_of_le lessBelow, fun all removed => ?_⟩
      obtain ⟨last, kept⟩ := fullBelow all removed
      exact ⟨.inl ⟨rfl, last⟩, List.forall_mem_append.mpr ⟨kept, nofun⟩⟩
    · rw [brought_some none_]
      refine ⟨by omega, fun all removed => ?_⟩
      have empty : leaves below (entryOf src name) (entryOf dst name) = [] := List.eq_nil_of_length_eq_zero (by omega)
      obtain ⟨last, kept⟩ := fullRest (by omega) removed
      refine ⟨.inr ⟨leafless_iff.mpr empty, last⟩, List.forall_mem_append.mpr ⟨?_, kept⟩⟩
      rw [empty]
      nofun

theorem removals_label (o : Options) (tups : List (Str × Str)) :
    (tups.flatMap fun tup => post_delete o tup.1 (some tup.2) false).map label = tups.map fun x => (x.1, [("remove", [])]) := by
  rw [List.map_flatMap]
  simp only [post_delete_label]
  exact List.map_eq_flatMap.symm

theorem count_perm {op : String} {expected : List (Str × Dict Str)} (same : (messages.map label).Perm expected) :
    count op messages = expected.countP fun x => (x.2.get op).isSome := by
  rw [count_label]
  exact same.countP_eq _

theorem renames_count {xs : List (Str × Str)} {place : Str → Str}
    (same : (messages.map label).Perm (xs.map fun x => (place x.2, [("rename", x.1)]))) :
    count "rename" messages = xs.length ∧ count "remove" messages = 0 := by
  rw [count_perm same, count_perm same, List.countP_map, List.countP_map]
  exact ⟨List.countP_eq_length.mpr fun x _ => rfl, List.countP_eq_zero.mpr fun x _ => Bool.noConfusion⟩

theorem removals_count {xs : List (Str × Str)} (same : (messages.map label).Perm (xs.map fun x => (x.1, [("remove", [])]))) :
    count "rename" messages = 0 ∧ count "remove" messages = xs.length := by
  rw [count_perm same, count_perm same, List.countP_map, List.countP_map]
  exact ⟨List.countP_eq_zero.mpr fun x _ => Bool.noConfusion, List.countP_eq_length.mpr fun x _ => rfl⟩

/-- A directory with a link that leads on to another has more to remove than there are directories in it. -/
theorem post_move_crooked {r : List Posted × List (Str × Str)} {steps : Nat} (shown : ShowsRoot os entryOf l (tidy dst))
    (crooked : ¬ Straight os o l (tidy src) (tidy dst)) (done : post_move os o steps src dst [] = .ok r) :
    (dirs l (tidy src) (tidy dst)).length + 1 < r.2.length := by
  obtain ⟨none_, dir, names, inside⟩ := shown
  cases steps with
  | zero => cases done
  | succ steps =>
    rw [post_move_dir none_ dir, names] at done
    obtain ⟨inner, looped, last⟩ := map_ok_iff.mp done
    cases last
    have strict := (moveLoop_dirs inside looped).2 crooked
    rw [List.length_nil] at strict
    rw [List.length_append, List.length_singleton]
    omega

/-- With steps enough, a directory without links to directories brings what its last entries do, and all directories. -/
theorem post_move_straight (shown : ShowsRoot os entryOf l (tidy dst)) (straight : Straight os o l (tidy src) (tidy dst)) :
    ∃ enough, ∀ steps, enough ≤ steps → post_move os o steps src dst [] =
      .ok (brought os o l (tidy src) (tidy dst) [], dirs l (tidy src) (tidy dst) ++ [(tidy src, tidy dst)]) := by
  obtain ⟨none_, dir, names, inside⟩ := shown
  obtain ⟨enough, all⟩ := moveLoop_straight inside straight
  refine ⟨enough + 1, fun steps more => ?_⟩
  cases steps with
  | zero => cases more
  | succ steps =>
    rw [post_move_dir none_ dir, names, all steps (by omega)]
    rfl

theorem moved_kept {steps : Nat} (shown : ShowsRoot os entryOf l (tidy dst)) (done : post1move os o steps src dst = .ok messages)
    (moved : Moved os o l (tidy src) (tidy dst) messages) :
    LastOnly l ∧ ∀ x ∈ leaves l (tidy src) (tidy dst), Renamed os o x.2 := by
  obtain ⟨renames, removals, rfl, renamed, removed⟩ := moved
  obtain ⟨r, moved, same⟩ := bind_ok_iff.mp done
  have whole : r.1 ++ (r.2.flatMap fun tup => post_delete o tup.1 (some tup.2) false) = renames ++ removals := Except.ok.inj same
  have countOf (op : String) := congrArg (count op) whole
  simp only [count_append] at countOf
  have due := renames_count renamed
  have gone := removals_count removed
  have swept := removals_count (List.Perm.of_eq (removals_label o r.2))
  have renameCount := countOf "rename"
  have removeCount := countOf "remove"
  rw [List.length_append, List.length_singleton] at gone
  have straight : Straight os o l (tidy src) (tidy dst) := by
    by_contra crooked
    have more := post_move_crooked shown crooked moved
    omega
  obtain ⟨enough, all⟩ := post_move_straight shown straight
  have more := post_move_more moved enough
  rw [all (steps + enough) (by omega)] at more
  cases more
  rw [List.length_append, List.length_singleton] at swept
  dsimp only at renameCount removeCount swept
  exact brought_counts.2 (by omega) (by omega)

theorem kept_moved (shown : ShowsRoot os entryOf l (tidy dst)) (last : LastOnly l)
    (kept : ∀ x ∈ leaves l (tidy src) (tidy dst), Renamed os o x.2) :
    ∃ steps messages, post1move os o steps src dst = .ok messages ∧ Moved os o l (tidy src) (tidy dst) messages := by
  have straight : Straight os o l (tidy src) (tidy dst) := by
    intro x member descends
    obtain ⟨-, ⟨file, -⟩ | ⟨-, link⟩⟩ := kept x member
    · exact absurd (file.symm.trans descends.1) Bool.noConfusion
    · exact absurd (link.symm.trans descends.2.1) Bool.noConfusion
  obtain ⟨enough, all⟩ := post_move_straight shown straight
  refine ⟨enough, _, ?_, _, _, rfl, List.Perm.of_eq (brought_kept last kept), List.Perm.of_eq (removals_label o _)⟩
  unfold post1move
  rw [all enough (Nat.le_refl _)]
  rfl

end Counts

section Samples

/-- A directory with these files, and no link. -/
def flatDisk (directory : Str) (files : List Str) : Os where
  readlink _ := none
  found path := if path = directory then some ⟨.directory, 0⟩
    else if path ∈ files.map fun name => directory ++ '/' :: name then some ⟨.regular, 1⟩ else none
  names _ := files
  realpath path := path
  identified _ _ := true
  blocks := List.range
  content _ := .none

end Samples
end Sarracenia.Guarantees.Gather
