import Mathlib.Data.Finset.Image
import Mathlib.Data.List.Infix
import Mathlib.Logic.Function.Basic

/-!
# File trees

A tree has a directory at its root, and all that is in it is in a directory. The calls of a host
that change a tree either do that or fail and leave it. Every file has one name.

* what each call changes, and when it fails (`mkdir_eq_some` to `rename_eq_some`);
* a tree is what it has at its paths (`ext_look`).
-/
namespace Sarracenia.Library

/-- What is at a path. -/
inductive Node (κ τ : Type) where
  | directory
  | file (content : κ)
  | link (target : τ)
  deriving DecidableEq

structure Tree (ν κ τ : Type) where
  look : List ν → Option (Node κ τ)
  support : Finset (List ν)
  mem_support : ∀ p, p ∈ support ↔ look p ≠ none
  root : look [] = some .directory
  closed : ∀ p name, look (p ++ [name]) ≠ none → look p = some .directory

namespace Tree
variable {ν κ τ : Type} {t t' : Tree ν κ τ} {p q old new : List ν}

/-- A tree is what it has at its paths. -/
theorem ext_look (same : t.look = t'.look) : t = t' := by
  obtain ⟨look, support, mem_support, root, closed⟩ := t
  obtain ⟨look', support', mem_support', root', closed'⟩ := t'
  dsimp only at same
  subst same
  have : support = support' := by
    ext p
    rw [mem_support, mem_support']
  subst this
  rfl

theorem some_eq_iff {u : Tree ν κ τ} : some u = some t' ↔ t'.look = u.look :=
  ⟨fun same => by rw [Option.some.inj same], fun same => congrArg some (ext_look same.symm)⟩

/-- What leads to something is a directory. -/
theorem above (t : Tree ν κ τ) (p : List ν) {s : List ν} (some_ : s ≠ [])
    (there : t.look (p ++ s) ≠ none) : t.look p = some .directory := by
  induction s using List.reverseRecOn with
  | nil => exact absurd rfl some_
  | append_singleton s name ih =>
    rw [← List.append_assoc] at there
    have parent := t.closed _ _ there
    by_cases empty : s = []
    · simpa [empty] using parent
    · exact ih empty (by simp [parent])

/-- Nothing is below what is no directory. -/
theorem none_below (t : Tree ν κ τ) (leaf : t.look p ≠ some .directory) (s : List ν)
    (some_ : s ≠ []) : t.look (p ++ s) = none :=
  by_contra fun there => leaf (t.above p some_ there)

theorem ne_nil_of_leaf (leaf : t.look p ≠ some .directory) : p ≠ [] := by
  rintro rfl
  exact leaf t.root

/-- Where there is nothing, there is nothing below. -/
theorem look_below (t : Tree ν κ τ) (free : t.look p = none) (s : List ν) :
    t.look (p ++ s) = none := by
  by_contra there
  by_cases empty : s = []
  · simp [empty, free] at there
  · simp [t.above p empty there] at free

def isDir (t : Tree ν κ τ) (p : List ν) : Bool :=
  match t.look p with
  | some .directory => true
  | _ => false

theorem isDir_iff : t.isDir p = true ↔ t.look p = some .directory := by
  unfold isDir
  split <;> simp_all

/-- Nothing but the root. -/
def bare : Tree ν κ τ where
  look p := if p.isEmpty then some .directory else none
  support := {[]}
  mem_support := by simp
  root := rfl
  closed := by simp

variable [DecidableEq ν]

/-- Nothing is below the path. -/
def isEmpty (t : Tree ν κ τ) (p : List ν) : Bool := decide (∀ q ∈ t.support, p <+: q → q = p)

theorem isEmpty_iff : t.isEmpty p = true ↔ ∀ s ≠ [], t.look (p ++ s) = none := by
  simp only [isEmpty, decide_eq_true_iff, t.mem_support]
  constructor
  · intro only s some_
    by_contra there
    have := only _ there (List.prefix_append p s)
    simp_all
  · rintro none_ q there ⟨s, rfl⟩
    by_contra other
    exact there (none_ s (by simpa using other))

section Changes

/-- Something new at a path, below which there is nothing. -/
def put (t : Tree ν κ τ) (p : List ν) (n : Node κ τ) : Option (Tree ν κ τ) :=
  if fits : p ≠ [] ∧ t.isDir p.dropLast = true ∧ t.isEmpty p = true then
    some {
      look := Function.update t.look p (some n)
      support := insert p t.support
      mem_support := by
        intro q
        by_cases here : q = p
        · simp [here]
        · simp [here, t.mem_support]
      root := by simpa [Function.update_of_ne fits.1.symm] using t.root
      closed := by
        intro q name there
        by_cases here : q ++ [name] = p
        · have parent := isDir_iff.mp fits.2.1
          rw [← here, List.dropLast_concat] at parent
          rwa [Function.update_of_ne (by simp [← here])]
        · rw [Function.update_of_ne here] at there
          rw [Function.update_of_ne, t.closed q name there]
          rintro rfl
          exact there (isEmpty_iff.mp fits.2.2 _ (by simp)) }
  else none

/-- Nothing more at a path, below which there is nothing. -/
def drop (t : Tree ν κ τ) (p : List ν) : Option (Tree ν κ τ) :=
  if fits : p ≠ [] ∧ t.isEmpty p = true then
    some {
      look := Function.update t.look p none
      support := t.support.erase p
      mem_support := by
        intro q
        by_cases here : q = p
        · simp [here]
        · simp [here, t.mem_support]
      root := by simpa [Function.update_of_ne fits.1.symm] using t.root
      closed := by
        intro q name there
        by_cases here : q ++ [name] = p
        · simp [here] at there
        · rw [Function.update_of_ne here] at there
          rw [Function.update_of_ne, t.closed q name there]
          rintro rfl
          exact there (isEmpty_iff.mp fits.2 _ (by simp)) }
  else none

/-- What is at a path once `old` has gone to `new`. -/
def moved (look : List ν → Option (Node κ τ)) (old new q : List ν) : Option (Node κ τ) :=
  if new <+: q then look (old ++ q.drop new.length) else if old <+: q then none else look q

theorem moved_below (look : List ν → Option (Node κ τ)) (old new s : List ν) :
    moved look old new (new ++ s) = look (old ++ s) := by simp [moved]

theorem moved_apart {look : List ν → Option (Node κ τ)} (apart : ¬ new <+: q) :
    moved look old new q = if old <+: q then none else look q := by simp [moved, apart]

/-- All that is at and below `old` goes to `new`, where there is nothing. -/
def move (t : Tree ν κ τ) (old new : List ν) : Option (Tree ν κ τ) :=
  if fits : old ≠ [] ∧ new ≠ [] ∧ ¬ old <+: new ∧ t.isDir new.dropLast = true ∧
      t.look new = none then
    some {
      look := moved t.look old new
      support := (t.support.filter fun q => ¬ old <+: q) ∪
        (t.support.filter fun q => old <+: q).image fun q => new ++ q.drop old.length
      mem_support := by
        obtain ⟨-, -, -, -, free⟩ := fits
        intro q
        simp only [Finset.mem_union, Finset.mem_filter, Finset.mem_image, t.mem_support]
        by_cases below : new <+: q
        · obtain ⟨s, rfl⟩ := below
          rw [moved_below, t.look_below free]
          constructor
          · rintro (⟨there, -⟩ | ⟨r, ⟨there, s', rfl⟩, same⟩)
            · exact absurd rfl there
            · simp_all
          · intro there
            exact .inr ⟨old ++ s, ⟨there, List.prefix_append _ _⟩, by simp⟩
        · rw [moved_apart below]
          constructor
          · rintro (⟨there, other⟩ | ⟨r, -, rfl⟩)
            · rwa [if_neg other]
            · exact absurd (List.prefix_append _ _) below
          · intro there
            split at there
            · exact absurd rfl there
            · next other => exact .inl ⟨there, other⟩
      root := by
        simp [moved, fits.1, fits.2.1, t.root]
      closed := by
        obtain ⟨-, some_, apart, parent, free⟩ := fits
        intro q name there
        by_cases inside : new <+: q
        · obtain ⟨s, rfl⟩ := inside
          rw [List.append_assoc, moved_below, ← List.append_assoc] at there
          rw [moved_below, t.closed _ _ there]
        · rw [moved_apart inside]
          by_cases here : new <+: q ++ [name]
          · obtain same | below := List.prefix_concat_iff.mp here
            · have there := isDir_iff.mp parent
              rw [same, List.dropLast_concat] at there
              rw [if_neg fun below => apart (same ▸ below.trans (List.prefix_append _ _)), there]
            · exact absurd below inside
          · rw [moved_apart here] at there
            split at there
            · exact absurd rfl there
            · next other =>
              rw [if_neg fun below => other (below.trans (List.prefix_append _ _)),
                t.closed q name there] }
  else none

theorem put_eq_some {n : Node κ τ} : t.put p n = some t' ↔
    p ≠ [] ∧ t.look p.dropLast = some .directory ∧ (∀ s ≠ [], t.look (p ++ s) = none) ∧
      t'.look = Function.update t.look p (some n) := by
  unfold put
  rw [← isDir_iff, ← isEmpty_iff]
  split
  · next fits =>
    simp only [fits, ne_eq, not_false_eq_true, true_and]
    exact some_eq_iff
  · next fits =>
    exact ⟨nofun, fun ⟨some_, parent, empty, _⟩ => absurd ⟨some_, parent, empty⟩ fits⟩

theorem drop_eq_some : t.drop p = some t' ↔
    p ≠ [] ∧ (∀ s ≠ [], t.look (p ++ s) = none) ∧ t'.look = Function.update t.look p none := by
  unfold drop
  rw [← isEmpty_iff]
  split
  · next fits =>
    simp only [fits, ne_eq, not_false_eq_true, true_and]
    exact some_eq_iff
  · next fits => exact ⟨nofun, fun ⟨some_, empty, _⟩ => absurd ⟨some_, empty⟩ fits⟩

theorem put_of_leaf {n : Node κ τ} (leaf : t.look p ≠ some .directory) : t.put p n = some t' ↔
    t.look p.dropLast = some .directory ∧ t'.look = Function.update t.look p (some n) := by
  rw [put_eq_some]
  exact ⟨fun ⟨_, parent, _, same⟩ => ⟨parent, same⟩,
    fun ⟨parent, same⟩ => ⟨ne_nil_of_leaf leaf, parent, t.none_below leaf, same⟩⟩

theorem drop_of_leaf (leaf : t.look p ≠ some .directory) :
    t.drop p = some t' ↔ t'.look = Function.update t.look p none := by
  rw [drop_eq_some]
  exact ⟨fun ⟨_, _, same⟩ => same, fun same => ⟨ne_nil_of_leaf leaf, t.none_below leaf, same⟩⟩

theorem exists_drop (leaf : t.look p ≠ some .directory) : ∃ u, t.drop p = some u := by
  unfold drop
  rw [dif_pos ⟨ne_nil_of_leaf leaf, isEmpty_iff.mpr (t.none_below leaf)⟩]
  exact ⟨_, rfl⟩

theorem move_eq_some : t.move old new = some t' ↔
    old ≠ [] ∧ new ≠ [] ∧ ¬ old <+: new ∧ t.look new.dropLast = some .directory ∧
      t.look new = none ∧ t'.look = moved t.look old new := by
  unfold move
  rw [← isDir_iff]
  split
  · next fits =>
    simp only [fits, ne_eq, not_false_eq_true, true_and]
    exact some_eq_iff
  · next fits =>
    exact ⟨nofun, fun ⟨from_, to_, apart, parent, free, _⟩ =>
      absurd ⟨from_, to_, apart, parent, free⟩ fits⟩

end Changes

section Calls

def mkdir (t : Tree ν κ τ) (p : List ν) : Option (Tree ν κ τ) :=
  if (t.look p).isSome then none else t.put p .directory

def symlink (t : Tree ν κ τ) (target : τ) (p : List ν) : Option (Tree ν κ τ) :=
  if (t.look p).isSome then none else t.put p (.link target)

/-- A file that is there, or a link, is replaced. -/
def write (t : Tree ν κ τ) (content : κ) (p : List ν) : Option (Tree ν κ τ) :=
  if t.isDir p then none else t.put p (.file content)

def unlink (t : Tree ν κ τ) (p : List ν) : Option (Tree ν κ τ) :=
  if (t.look p).isNone || t.isDir p then none else t.drop p

def rmdir (t : Tree ν κ τ) (p : List ν) : Option (Tree ν κ τ) :=
  if t.isDir p then t.drop p else none

/-- A file may be replaced by what is not a directory, an empty directory by a directory. -/
def rename (t : Tree ν κ τ) (old new : List ν) : Option (Tree ν κ τ) :=
  if (t.look old).isNone then none
  else if old = new then some t
  else if (t.look new).isNone then t.move old new
  else if t.isDir old = t.isDir new then (t.drop new).bind fun t => t.move old new
  else none

/-- The directories on the way to a path below a directory, each if it is not there yet. -/
def makedirs (t : Tree ν κ τ) (dir : List ν) : List ν → Option (Tree ν κ τ)
  | [] => some t
  | name :: rest =>
    (if t.isDir (dir ++ [name]) then some t else t.mkdir (dir ++ [name])).bind fun t =>
      t.makedirs (dir ++ [name]) rest

theorem mkdir_eq_some : t.mkdir p = some t' ↔
    t.look p = none ∧ t.look p.dropLast = some .directory ∧
      t'.look = Function.update t.look p (some .directory) := by
  unfold mkdir
  split
  · next there => simp_all [Option.isSome_iff_ne_none]
  · next free =>
    rw [Bool.not_eq_true, Option.isSome_eq_false_iff, Option.isNone_iff_eq_none] at free
    simp [put_of_leaf, free]

theorem symlink_eq_some {target : τ} : t.symlink target p = some t' ↔
    t.look p = none ∧ t.look p.dropLast = some .directory ∧
      t'.look = Function.update t.look p (some (.link target)) := by
  unfold symlink
  split
  · next there => simp_all [Option.isSome_iff_ne_none]
  · next free =>
    rw [Bool.not_eq_true, Option.isSome_eq_false_iff, Option.isNone_iff_eq_none] at free
    simp [put_of_leaf, free]

theorem write_eq_some {content : κ} : t.write content p = some t' ↔
    t.look p ≠ some .directory ∧ t.look p.dropLast = some .directory ∧
      t'.look = Function.update t.look p (some (.file content)) := by
  unfold write
  split
  · next there => simp [isDir_iff.mp there]
  · next leaf =>
    rw [isDir_iff] at leaf
    simp [put_of_leaf, leaf]

theorem unlink_eq_some : t.unlink p = some t' ↔
    t.look p ≠ none ∧ t.look p ≠ some .directory ∧ t'.look = Function.update t.look p none := by
  unfold unlink
  split
  · next there =>
    rw [Bool.or_eq_true, Option.isNone_iff_eq_none, isDir_iff] at there
    rcases there with there | there <;> simp [there]
  · next leaf =>
    rw [Bool.or_eq_true, Option.isNone_iff_eq_none, isDir_iff, not_or] at leaf
    simp [drop_of_leaf, leaf]

theorem exists_unlink (there : t.look p ≠ none) (leaf : t.look p ≠ some .directory) :
    ∃ u, t.unlink p = some u := by
  obtain ⟨u, drops⟩ := exists_drop leaf
  exact ⟨u, unlink_eq_some.mpr ⟨there, leaf, (drop_of_leaf leaf).mp drops⟩⟩

theorem rmdir_eq_some : t.rmdir p = some t' ↔
    t.look p = some .directory ∧ p ≠ [] ∧ (∀ s ≠ [], t.look (p ++ s) = none) ∧
      t'.look = Function.update t.look p none := by
  unfold rmdir
  split
  · next there => simp [drop_eq_some, isDir_iff.mp there]
  · next other =>
    rw [isDir_iff] at other
    simp [other]

/-- What is renamed to a path where there is nothing. -/
theorem rename_eq_some (free : t.look new = none) : t.rename old new = some t' ↔
    t.look old ≠ none ∧ old ≠ [] ∧ ¬ old <+: new ∧ t.look new.dropLast = some .directory ∧
      t'.look = moved t.look old new := by
  unfold rename
  split
  · next gone => simp [Option.isNone_iff_eq_none.mp gone]
  · next there =>
    rw [Option.isNone_iff_eq_none] at there
    have other : old ≠ new := by
      rintro rfl
      exact there free
    have some_ : new ≠ [] := by
      rintro rfl
      simp [t.root] at free
    simp [other, free, move_eq_some, there, some_]

theorem rename_gone (gone : t.look old = none) : t.rename old new = none := by
  simp [rename, gone]

/-- What replaces another thing comes to the same as if that had been taken away first. -/
theorem rename_replaces (other : old ≠ new) (there : t.look new ≠ none)
    (renames : t.rename old new = some t') : ∃ u, t.drop new = some u ∧ u.rename old new = some t' ∧
      (t.look old = some .directory ↔ t.look new = some .directory) := by
  unfold rename at renames
  split at renames
  · cases renames
  · next found =>
    rw [if_neg (by simpa using there)] at renames
    split at renames
    · next alike =>
      obtain ⟨u, drops, moves⟩ := Option.bind_eq_some_iff.mp renames
      refine ⟨u, drops, ?_, by rw [← isDir_iff, ← isDir_iff, alike]⟩
      have look := (drop_eq_some.mp drops).2.2
      have kept : u.look old = t.look old := by rw [look, Function.update_of_ne other]
      have free : u.look new = none := by rw [look, Function.update_self]
      unfold rename
      rw [kept, if_neg found, if_neg other, free]
      exact moves
    · cases renames

theorem makedirs_eq_some {dir rest : List ν} (makes : t.makedirs dir rest = some t') :
    ∀ q, t'.look q = t.look q ∨
      (t.look q = none ∧ t'.look q = some .directory ∧ dir <+: q ∧ q <+: dir ++ rest) := by
  induction rest generalizing t dir with
  | nil =>
    cases makes
    exact fun q => .inl rfl
  | cons name rest ih =>
    obtain ⟨u, first, makes⟩ := Option.bind_eq_some_iff.mp makes
    intro q
    have step : u.look q = t.look q ∨
        (t.look q = none ∧ u.look q = some .directory ∧ q = dir ++ [name]) := by
      split at first
      · cases first
        exact .inl rfl
      · obtain ⟨free, -, look⟩ := mkdir_eq_some.mp first
        by_cases here : q = dir ++ [name]
        · exact .inr ⟨here ▸ free, by rw [look, here, Function.update_self], here⟩
        · exact .inl (by rw [look, Function.update_of_ne here])
    rcases ih makes q with same | ⟨free, made, below, within⟩
    · rcases step with before | ⟨free, made, rfl⟩
      · exact .inl (same.trans before)
      · exact .inr ⟨free, same.trans made, by simp, by simp⟩
    · rcases step with before | ⟨-, there, -⟩
      · exact .inr ⟨before ▸ free, made, (List.prefix_append _ _).trans below,
          by simpa using within⟩
      · simp [there] at free

end Calls
end Tree
end Sarracenia.Library
