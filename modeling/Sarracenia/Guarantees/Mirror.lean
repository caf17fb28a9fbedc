import Sarracenia.Guarantees.FileTree
import Sarracenia.Library.Runs

/-!
# A tree that is mirrored

The changes of a tree are announced, in the form that the reference of messages gives them, and
handled in their order by `do_download`; the message that was handled last may be handled again.
The download is a parameter that writes what was announced.

* a turn for what was announced of a change does that change (`follows`), and a second turn nothing
  (`follows_again`);
* the mirror is always behind by the messages in flight (`behind_step`), so that to handle them
  leads it to the tree that it mirrors (`mirrored`).
-/
namespace Sarracenia.Guarantees.Mirror
open Library Source.FileTree
open Source.DoDownload (Slot)
open Guarantees.FileTree (removeOneFile_cases unlinked_cases look_drop)
variable {ν κ τ : Type} [DecidableEq ν]

section Spec

/-- A change of the tree that is mirrored, at a name in a directory. -/
inductive Change (ν κ τ : Type) where
  | mkdir (dir : List ν) (name : ν)
  | symlink (target : τ) (dir : List ν) (name : ν)
  | write (content : κ) (dir : List ν) (name : ν)
  | unlink (dir : List ν) (name : ν)
  | rmdir (dir : List ν) (name : ν)
  | rename (old : List ν) (dir : List ν) (name : ν)

/-- The tree after a change that the host permits. -/
def Change.apply (t : Tree ν κ τ) : Change ν κ τ → Option (Tree ν κ τ)
  | .mkdir dir name => t.mkdir (dir ++ [name])
  | .symlink target dir name => t.symlink target (dir ++ [name])
  | .write content dir name => t.write content (dir ++ [name])
  | .unlink dir name => t.unlink (dir ++ [name])
  | .rmdir dir name => t.rmdir (dir ++ [name])
  | .rename old dir name => if old = dir ++ [name] then none else t.rename old (dir ++ [name])

def message (dir : List ν) (name : ν) (fileOp : Option (FileOp ν τ)) (content : Option κ) :
    Message ν κ τ := ⟨dir, name, fileOp, false, content⟩

/-- The message of a rename has what was renamed in it. -/
def renamed (old dir : List ν) (name : ν) : Option (Node κ τ) → Message ν κ τ
  | some (.link target) => message dir name (some ⟨some old, some target, false, false⟩) none
  | some (.file content) => message dir name (some ⟨some old, none, false, false⟩) (some content)
  | _ => message dir name (some ⟨some old, none, true, false⟩) none

/-- What is announced of a change that led to the tree, as the reference of messages has it. -/
def Change.message (t' : Tree ν κ τ) : Change ν κ τ → Message ν κ τ
  | .mkdir dir name => Mirror.message dir name (some ⟨none, none, true, false⟩) none
  | .symlink target dir name =>
    Mirror.message dir name (some ⟨none, some target, false, false⟩) none
  | .write content dir name => Mirror.message dir name none (some content)
  | .unlink dir name => Mirror.message dir name (some ⟨none, none, false, true⟩) none
  | .rmdir dir name => Mirror.message dir name (some ⟨none, none, true, true⟩) none
  | .rename old dir name => renamed old dir name (t'.look (dir ++ [name]))

end Spec

section Turns
variable {leads : Tree ν κ τ → List ν → Led} {o : Options}
  {download : Tree ν κ τ → Message ν κ τ → Tree ν κ τ × Slot} {t t' u : Tree ν κ τ}

/-- All operations are to be done, and at least once each. -/
structure Mirroring (o : Options) : Prop where
  events : ∀ event ∈ ["mkdir", "rmdir", "delete", "link"], event ∈ o.fileEvents
  attempts : 0 < o.attempts

/-- A download leaves what was announced at the path, where that can be written. -/
def Downloads (download : Tree ν κ τ → Message ν κ τ → Tree ν κ τ × Slot) : Prop :=
  ∀ t m content u, m.content = some content → t.write content m.new_path = some u →
    (download t m).1 = u

variable {m : Message ν κ τ}

/-- A turn for a message whose directory is there. -/
theorem turn_of_dir (parent : t.look m.new_dir = some .directory) :
    turn leads o m download t = fallen m download (do_fileOp leads o m t) := by
  have isdir : isdir leads t m.new_dir = true := by simp [isdir, parent]
  simp [turn, isdir, directory, provided]

/-- The first attempt is the last one if it comes to something. -/
theorem do_fileOp_of_attempt {op : FileOp ν τ} {fate : Fate} (mirroring : Mirroring o)
    (given : m.fileOp = some op) (first : attempt leads o m op t = (t', some fate)) :
    do_fileOp leads o m t = (t', fate) := by
  obtain ⟨n, attempts⟩ : ∃ n, o.attempts.toNat = n + 1 :=
    ⟨o.attempts.toNat - 1, by have := mirroring.attempts; omega⟩
  simp [do_fileOp, given, attempts, fileOpLoop, first]

/-- Attempts that come to nothing leave the tree. -/
theorem do_fileOp_of_none {op : FileOp ν τ} (given : m.fileOp = some op)
    (each : attempt leads o m op t = (t, none)) : do_fileOp leads o m t = (t, .ended .failed) := by
  simp only [do_fileOp, given]
  induction o.attempts.toNat with
  | zero => rfl
  | succ n ih => simp [fileOpLoop, each, ih]

theorem directory_of_dir (parent : t.look m.new_dir = some .directory) :
    directory leads m t = (t, true) := by simp [directory, provided, isdir, parent]

variable {dir : List ν} {name : ν}

theorem mkdir_turn (mirroring : Mirroring o) (parent : t.look dir = some .directory)
    (makes : t.mkdir (dir ++ [name]) = some u ∨
      (t.look (dir ++ [name]) = some .directory ∧ u = t)) :
    turn leads o (message dir name (some ⟨none, none, true, false⟩) none) download t =
      (u, [.ok]) := by
  have made : mkdir leads (message dir name (some ⟨none, none, true, false⟩) none) t =
      (u, true) := by
    unfold mkdir
    rw [directory_of_dir parent]
    rcases makes with makes | ⟨there, rfl⟩
    · have free := (Tree.mkdir_eq_some.mp makes).1
      simp [next, provided, isdir, message, Message.new_path, free, makes, tried]
    · simp [next, provided, isdir, message, Message.new_path, there]
  have attempted : attempt leads o (message dir name (some ⟨none, none, true, false⟩) none)
      ⟨none, none, true, false⟩ t = (u, some (.ended .ok)) := by
    simp [attempt, create, mirroring.events, made]
  rw [turn_of_dir parent, do_fileOp_of_attempt mirroring rfl attempted, fallen]

theorem symlink_turn {target : τ} (mirroring : Mirroring o) (parent : t.look dir = some .directory)
    (links : t.symlink target (dir ++ [name]) = some u ∨
      (t.look (dir ++ [name]) = some (.link target) ∧ u = t)) :
    turn leads o (message dir name (some ⟨none, some target, false, false⟩) none) download t =
      (u, [.ok]) := by
  have made : link1file leads (message dir name (some ⟨none, some target, false, false⟩) none)
      target t = (u, true) := by
    unfold link1file
    rw [directory_of_dir parent]
    rcases unlinked_cases leads t (dir ++ [name]) with
      ⟨free, same⟩ | ⟨⟨there, leaf⟩, v, drops, same⟩
    · rcases links with links | ⟨there, -⟩
      · simp [next, message, Message.new_path, same, links, tried]
      · simp [there] at free
    · rcases links with links | ⟨link, rfl⟩
      · exact absurd (Tree.symlink_eq_some.mp links).1 there
      · have look := (Tree.drop_eq_some.mp drops).2.2
        have again : v.symlink target (dir ++ [name]) = some u := by
          refine Tree.symlink_eq_some.mpr ⟨look_drop drops, ?_, ?_⟩
          · rw [List.dropLast_concat, look, Function.update_of_ne (by simp), parent]
          · rw [look, Function.update_idem, ← link, Function.update_eq_self]
        simp [next, message, Message.new_path, same, again, tried]
  have attempted : attempt leads o (message dir name (some ⟨none, some target, false, false⟩) none)
      ⟨none, some target, false, false⟩ t = (u, some (.ended .ok)) := by
    simp [attempt, create, mirroring.events, made]
  rw [turn_of_dir parent, do_fileOp_of_attempt mirroring rfl attempted, fallen]

theorem remove_turn {directory : Bool} (mirroring : Mirroring o)
    (parent : t.look dir = some .directory)
    (removes : t.drop (dir ++ [name]) = some u ∧ t.look (dir ++ [name]) ≠ none ∨
      (t.look (dir ++ [name]) = none ∧ u = t)) :
    turn leads o (message dir name (some ⟨none, none, directory, true⟩) none) download t =
      (u, [.ok]) := by
  have removed : removeOneFile leads t (dir ++ [name]) = (u, true) := by
    rcases removeOneFile_cases leads t (dir ++ [name]) with
      ⟨none_, same⟩ | ⟨there, v, drops, same⟩ | ⟨there, fails, -⟩
    · rcases removes with ⟨-, there⟩ | ⟨-, rfl⟩
      · exact absurd none_ there
      · exact same
    · rcases removes with ⟨drops', -⟩ | ⟨none_, -⟩
      · rw [same, Option.some.inj (drops.symm.trans drops')]
      · exact absurd none_ there
    · rcases removes with ⟨drops, -⟩ | ⟨none_, -⟩
      · simp [fails] at drops
      · simp [there] at none_
  have attempted : attempt leads o (message dir name (some ⟨none, none, directory, true⟩) none)
      ⟨none, none, directory, true⟩ t = (u, some (.ended .ok)) := by
    cases directory <;> simp [attempt, mirroring.events, message, Message.new_path, removed]
  rw [turn_of_dir parent, do_fileOp_of_attempt mirroring rfl attempted, fallen]

theorem write_turn {content : κ} (downloads : Downloads download)
    (parent : t.look dir = some .directory) (writes : t.write content (dir ++ [name]) = some u) :
    (turn leads o (message dir name none (some content)) download t).1 = u := by
  rw [turn_of_dir parent]
  exact downloads t _ content u rfl writes

/-- Where a rename leads from, by way of a tree that has nothing at the new name. -/
theorem rename_by {old new : List ν} (other : old ≠ new) (renames : t.rename old new = some u) :
    ∃ v, ((t.look new = none ∧ v = t) ∨ (t.look new ≠ none ∧ t.drop new = some v)) ∧
      v.look new = none ∧ v.rename old new = some u := by
  by_cases free : t.look new = none
  · exact ⟨t, .inl ⟨free, rfl⟩, free, renames⟩
  · obtain ⟨v, drops, renames', -⟩ := Tree.rename_replaces other free renames
    exact ⟨v, .inr ⟨free, drops⟩, look_drop drops, renames'⟩

/-- What was renamed is at the new name, and nothing is left at the old one. -/
theorem rename_look {old new : List ν} (other : old ≠ new) (renames : t.rename old new = some u) :
    u.look old = none ∧ u.look new ≠ none := by
  obtain ⟨v, -, free, renames'⟩ := rename_by other renames
  obtain ⟨there, -, -, -, look⟩ := (Tree.rename_eq_some free).mp renames'
  have apart : ¬ new <+: old := by
    rintro ⟨s, rfl⟩
    exact there (v.look_below free s)
  have here : u.look new = v.look old := by simpa [look] using Tree.moved_below v.look old new []
  refine ⟨?_, by rw [here]; exact there⟩
  rw [look, Tree.moved_apart apart, if_pos List.prefix_rfl]

theorem renameOneItem_renames {old new : List ν} (other : old ≠ new)
    (renames : t.rename old new = some u) : renameOneItem leads t old new = (u, true) := by
  have there : (t.look old).isNone = false := by
    cases none_ : t.look old with
    | none => simp [Tree.rename_gone none_] at renames
    | some n => rfl
  obtain ⟨v, from_, -, renames'⟩ := rename_by other renames
  rw [renameOneItem, there, if_neg Bool.false_ne_true]
  rcases removeOneFile_cases leads t new with
    ⟨none_, same⟩ | ⟨here, w, drops, same⟩ | ⟨here, fails, -⟩
  · rcases from_ with ⟨-, rfl⟩ | ⟨here, -⟩
    · simp [same, next, tried, renames']
    · exact absurd none_ here
  · rcases from_ with ⟨none_, -⟩ | ⟨-, drops'⟩
    · exact absurd none_ here
    · obtain rfl := Option.some.inj (drops.symm.trans drops')
      simp [same, next, tried, renames']
  · rcases from_ with ⟨none_, -⟩ | ⟨-, drops⟩
    · simp [here] at none_
    · simp [fails] at drops

theorem write_same {content : κ} {p : List ν} (there : t.look p = some (.file content))
    (parent : t.look p.dropLast = some .directory) : t.write content p = some t :=
  Tree.write_eq_some.mpr ⟨by simp [there], parent, by rw [← there, Function.update_eq_self]⟩

theorem rename_turn {old : List ν} {n : Node κ τ} (mirroring : Mirroring o)
    (downloads : Downloads download) (parent : t.look dir = some .directory)
    (there : u.look (dir ++ [name]) = some n)
    (renames : renameOneItem leads t old (dir ++ [name]) = (u, true) ∨
      (renameOneItem leads t old (dir ++ [name]) = (t, false) ∧ u = t)) :
    (turn leads o (renamed old dir name (some n)) download t).1 = u := by
  have parent' : u.look dir = some .directory := u.closed dir name (by simp [there])
  have same {content : κ} (file : n = .file content) :
      u.write content (dir ++ [name]) = some u :=
    write_same (file ▸ there) (by rwa [List.dropLast_concat])
  cases n with
  | directory =>
    have attempted : attempt leads o (renamed old dir name (some .directory))
        ⟨some old, none, true, false⟩ t = (u, some (.ended .ok)) := by
      rcases renames with done | ⟨fails, rfl⟩
      · simp [attempt, renamed, message, Message.new_path, done]
      · simp [attempt, renamed, message, Message.new_path, fails, create, mirroring.events, mkdir,
          directory, provided, next, isdir, parent, there]
    rw [turn_of_dir parent, do_fileOp_of_attempt mirroring rfl attempted, fallen]
  | link target =>
    rw [turn_of_dir parent]
    rcases renames with done | ⟨fails, rfl⟩
    · have attempted : attempt leads o (renamed old dir name (some (.link target)))
          ⟨some old, some target, false, false⟩ t = (u, some (.ended .ok)) := by
        simp [attempt, renamed, message, Message.new_path, done]
      rw [do_fileOp_of_attempt mirroring rfl attempted, fallen]
    · have attempted : attempt leads o (renamed old dir name (some (.link target)))
          ⟨some old, some target, false, false⟩ u = (u, none) := by
        simp [attempt, renamed, message, Message.new_path, fails, create]
      rw [do_fileOp_of_none rfl attempted, fallen]
  | file content =>
    rw [turn_of_dir parent]
    have attempted : ∃ ok, attempt leads o (renamed old dir name (some (.file content)))
        ⟨some old, none, false, false⟩ t = (u, some (.falls ok)) := by
      rcases renames with done | ⟨fails, rfl⟩
      · exact ⟨true, by simp [attempt, renamed, message, Message.new_path, done]⟩
      · exact ⟨false, by simp [attempt, renamed, message, Message.new_path, fails]⟩
    obtain ⟨ok, attempted⟩ := attempted
    rw [do_fileOp_of_attempt mirroring rfl attempted]
    exact downloads u _ content u rfl (same rfl)

variable {c : Change ν κ τ}

/-- From the same tree, a turn for what was announced of a change does that change. -/
theorem follows (mirroring : Mirroring o) (downloads : Downloads download)
    (changes : c.apply t = some t') : (turn leads o (c.message t') download t).1 = t' := by
  cases c with
  | mkdir dir name =>
    have parent : t.look dir = some .directory := by
      simpa using (Tree.mkdir_eq_some.mp changes).2.1
    exact congrArg Prod.fst (mkdir_turn mirroring parent (.inl changes))
  | symlink target dir name =>
    have parent : t.look dir = some .directory := by
      simpa using (Tree.symlink_eq_some.mp changes).2.1
    exact congrArg Prod.fst (symlink_turn mirroring parent (.inl changes))
  | write content dir name =>
    have parent : t.look dir = some .directory := by
      simpa using (Tree.write_eq_some.mp changes).2.1
    exact write_turn downloads parent changes
  | unlink dir name =>
    obtain ⟨there, leaf, look⟩ := Tree.unlink_eq_some.mp changes
    exact congrArg Prod.fst (remove_turn mirroring (t.closed dir name there)
      (.inl ⟨(Tree.drop_of_leaf leaf).mpr look, there⟩))
  | rmdir dir name =>
    obtain ⟨there, some_, empty, look⟩ := Tree.rmdir_eq_some.mp changes
    have there' : t.look (dir ++ [name]) ≠ none := by simp [there]
    exact congrArg Prod.fst (remove_turn mirroring (t.closed dir name there')
      (.inl ⟨Tree.drop_eq_some.mpr ⟨some_, empty, look⟩, there'⟩))
  | rename old dir name =>
    rw [Change.apply] at changes
    split at changes
    · cases changes
    · next other =>
      obtain ⟨-, there⟩ := rename_look other changes
      obtain ⟨n, here⟩ := Option.ne_none_iff_exists'.mp there
      obtain ⟨v, from_, free, renames⟩ := rename_by other changes
      have parent : t.look dir = some .directory := by
        have := ((Tree.rename_eq_some free).mp renames).2.2.2.1
        rw [List.dropLast_concat] at this
        rcases from_ with ⟨-, rfl⟩ | ⟨-, drops⟩
        · exact this
        · rwa [(Tree.drop_eq_some.mp drops).2.2, Function.update_of_ne (by simp)] at this
      rw [Change.message, here]
      exact rename_turn mirroring downloads parent here
        (.inl (renameOneItem_renames other changes))

/-- Another turn for what was announced of the last change leaves the tree. -/
theorem follows_again (mirroring : Mirroring o) (downloads : Downloads download)
    (changes : c.apply t = some t') : (turn leads o (c.message t') download t').1 = t' := by
  cases c with
  | mkdir dir name =>
    have look := (Tree.mkdir_eq_some.mp changes).2.2
    have there : t'.look (dir ++ [name]) = some .directory := by rw [look, Function.update_self]
    exact congrArg Prod.fst (mkdir_turn mirroring (t'.closed dir name (by simp [there]))
      (.inr ⟨there, rfl⟩))
  | symlink target dir name =>
    have look := (Tree.symlink_eq_some.mp changes).2.2
    have there : t'.look (dir ++ [name]) = some (.link target) := by
      rw [look, Function.update_self]
    exact congrArg Prod.fst (symlink_turn mirroring (t'.closed dir name (by simp [there]))
      (.inr ⟨there, rfl⟩))
  | write content dir name =>
    have look := (Tree.write_eq_some.mp changes).2.2
    have there : t'.look (dir ++ [name]) = some (.file content) := by
      rw [look, Function.update_self]
    have parent := t'.closed dir name (by simp [there])
    exact write_turn downloads parent (write_same there (by rwa [List.dropLast_concat]))
  | unlink dir name =>
    obtain ⟨there, -, look⟩ := Tree.unlink_eq_some.mp changes
    have parent := t.closed dir name there
    refine congrArg Prod.fst (remove_turn mirroring ?_ (.inr ⟨?_, rfl⟩))
    · rw [look, Function.update_of_ne (by simp), parent]
    · rw [look, Function.update_self]
  | rmdir dir name =>
    obtain ⟨there, -, -, look⟩ := Tree.rmdir_eq_some.mp changes
    have parent := t.closed dir name (by simp [there])
    refine congrArg Prod.fst (remove_turn mirroring ?_ (.inr ⟨?_, rfl⟩))
    · rw [look, Function.update_of_ne (by simp), parent]
    · rw [look, Function.update_self]
  | rename old dir name =>
    rw [Change.apply] at changes
    split at changes
    · cases changes
    · next other =>
      obtain ⟨gone, there⟩ := rename_look other changes
      obtain ⟨n, here⟩ := Option.ne_none_iff_exists'.mp there
      rw [Change.message, here]
      exact rename_turn mirroring downloads (t'.closed dir name there) here
        (.inr ⟨by simp [renameOneItem, gone], rfl⟩)

end Turns

section Runs
variable (leads : Tree ν κ τ → List ν → Led) (o : Options)
  (download : Tree ν κ τ → Message ν κ τ → Tree ν κ τ × Slot)

/-- The tree that is changed, what was announced of it and not handled yet, the tree that mirrors it
and the message that was handled last. -/
structure System (ν κ τ : Type) where
  up : Tree ν κ τ
  flight : List (Message ν κ τ)
  down : Tree ν κ τ
  last : Option (Message ν κ τ)

/-- The tree is changed, the next message is handled, or the last one comes again. -/
inductive Action (ν κ τ : Type) where
  | change (c : Change ν κ τ)
  | deliver
  | redeliver

def System.step (s : System ν κ τ) : Action ν κ τ → Option (System ν κ τ)
  | .change c => (c.apply s.up).map fun up =>
      { s with up := up, flight := s.flight ++ [c.message up] }
  | .deliver =>
    match s.flight with
    | [] => none
    | m :: flight =>
      some { s with flight := flight, down := (turn leads o m download s.down).1, last := some m }
  | .redeliver => s.last.map fun m => { s with down := (turn leads o m download s.down).1 }

variable {leads o download} {t t' u : Tree ν κ τ}

/-- The changes that messages announce lead from one tree to another. -/
inductive Leads : Tree ν κ τ → List (Message ν κ τ) → Tree ν κ τ → Prop where
  | done (t : Tree ν κ τ) : Leads t [] t
  | next {t t' u : Tree ν κ τ} {c : Change ν κ τ} {ms : List (Message ν κ τ)}
      (changes : c.apply t = some t') (rest : Leads t' ms u) : Leads t (c.message t' :: ms) u

theorem Leads.append {ms : List (Message ν κ τ)} {c : Change ν κ τ} (leads : Leads t ms t')
    (changes : c.apply t' = some u) : Leads t (ms ++ [c.message u]) u := by
  induction leads with
  | done t => exact .next changes (.done u)
  | next first _ ih => exact .next first (ih changes)

variable (leads) in
/-- To handle the messages in their order is to do the changes. -/
theorem Leads.handled {ms : List (Message ν κ τ)} (mirroring : Mirroring o)
    (downloads : Downloads download) (way : Leads t ms u) :
    ms.foldl (fun t m => (turn leads o m download t).1) t = u := by
  induction way with
  | done t => rfl
  | next changes _ ih => rw [List.foldl_cons, follows mirroring downloads changes, ih]

/-- The mirror is behind by the messages in flight, and was led to by the last one. -/
structure Behind (s : System ν κ τ) : Prop where
  way : Leads s.down s.flight s.up
  last : ∀ m, s.last = some m → ∃ c t, Change.apply t c = some s.down ∧ m = c.message s.down

theorem behind_step (mirroring : Mirroring o) (downloads : Downloads download)
    {s s' : System ν κ τ} {a : Action ν κ τ} (behind : Behind s)
    (next : s.step leads o download a = some s') : Behind s' := by
  cases a with
  | change c =>
    obtain ⟨up, changes, rfl⟩ := Option.map_eq_some_iff.mp next
    exact ⟨behind.way.append changes, behind.last⟩
  | deliver =>
    obtain ⟨up, flight, down, last⟩ := s
    cases flight with
    | nil => cases next
    | cons m flight =>
      cases next
      have way : Leads down (m :: flight) up := behind.way
      cases way with
      | next changes rest =>
        dsimp only
        rw [follows mirroring downloads changes]
        refine ⟨rest, fun m is => ?_⟩
        cases is
        exact ⟨_, _, changes, rfl⟩
  | redeliver =>
    obtain ⟨m, is, rfl⟩ := Option.map_eq_some_iff.mp next
    obtain ⟨c, t, changes, rfl⟩ := behind.last m is
    rw [follows_again mirroring downloads changes]
    exact behind

/-- However changes, deliveries and deliveries once more take turns, to handle what is in flight
leads the mirror to the tree that it mirrors, which it is when nothing is. -/
theorem mirrored {s : System ν κ τ} {actions : List (Action ν κ τ)} (mirroring : Mirroring o)
    (downloads : Downloads download)
    (run : Runs (System.step leads o download) (fun _ _ => True) ⟨t, [], t, none⟩ actions s) :
    s.flight.foldl (fun t m => (turn leads o m download t).1) s.down = s.up ∧
      (s.flight = [] → s.down = s.up) := by
  have start : Behind (⟨t, [], t, none⟩ : System ν κ τ) := ⟨.done t, nofun⟩
  have behind : Behind s :=
    run.keeps start fun _ _ _ behind _ next => behind_step mirroring downloads behind next
  have handled := behind.way.handled leads mirroring downloads
  exact ⟨handled, fun none_ => by simpa [none_] using handled⟩

/-- A download that writes what was announced. -/
def written (t : Tree ν κ τ) (m : Message ν κ τ) : Tree ν κ τ × Slot :=
  match m.content with
  | some content => ((t.write content m.new_path).getD t, .ok)
  | none => (t, .failed)

theorem downloads_written :
    Downloads (written : Tree ν κ τ → Message ν κ τ → Tree ν κ τ × Slot) := by
  intro t m content u announced writes
  simp [written, announced, writes]

/-- A directory that is renamed with a file in it, with the last messages handled twice. -/
theorem mirrored_renamed :
    ∃ s : System Nat Nat Nat, Runs
        (System.step (fun _ _ => .other) ⟨["mkdir", "rmdir", "delete", "link"], 3⟩ written)
        (fun _ _ => True) ⟨Tree.bare, [], Tree.bare, none⟩
        [.change (.mkdir [] 1), .change (.write 5 [1] 2), .deliver, .change (.rename [1] [] 3),
          .deliver, .redeliver, .deliver, .redeliver] s ∧
      s.down = s.up ∧ s.up.look [1, 2] = none ∧ s.up.look [3, 2] = some (.file 5) := by
  refine ⟨_, Runs.of_isSome (by decide +kernel), ?_, ?_, ?_⟩
  · exact (mirrored ⟨by simp, by decide⟩ downloads_written (Runs.of_isSome (by decide +kernel))).2
      (List.isEmpty_iff.mp (by decide +kernel))
  · decide +kernel
  · decide +kernel

end Runs
end Sarracenia.Guarantees.Mirror
