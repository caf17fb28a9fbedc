import Sarracenia.Library.Replace
import Sarracenia.Source.Walk

/-!
# A tree on disk

What stands below a directory, and what the answers of the disk have to do with it.
-/
namespace Sarracenia.Guarantees.Gather
open Library Library.Text Library.Dynamic
open Source Source.Walk

/-- The entries of a directory, in the order they are listed; a link is one whatever it leads to. -/
inductive Listing where
  | nil
  | file (name : Str) (rest : Listing)
  | link (name : Str) (rest : Listing)
  | dir (name : Str) (below rest : Listing)

def Listing.names : Listing → List Str
  | .nil => []
  | .file name rest => name :: rest.names
  | .link name rest => name :: rest.names
  | .dir name _ rest => name :: rest.names

section Shown
variable (os : Os) (step : Str → Str → Str)

/-- Whether the disk has these entries below a path; `step` goes from a directory to an entry. -/
def Shows : Listing → Str → Prop
  | .nil, _ => True
  | .file name rest, path => os.readlink (step path name) = none ∧ os.isfile (step path name) = true ∧ Shows rest path
  | .link name rest, path => os.islink (step path name) = true ∧ Shows rest path
  | .dir name below rest, path =>
    (os.readlink (step path name) = none ∧ os.isdir (step path name) = true ∧ os.names (step path name) = below.names ∧
      Shows below (step path name)) ∧ Shows rest path

/-- A directory with these entries. -/
def ShowsRoot (l : Listing) (path : Str) : Prop :=
  os.readlink path = none ∧ os.isdir path = true ∧ os.names path = l.names ∧ Shows os step l path

end Shown

section Kinds
variable {os : Os} {path : Str}

theorem not_dir_of_file (file : os.isfile path = true) : os.isdir path = false := by
  unfold Os.isfile at file
  unfold Os.isdir
  cases there : os.found path with
  | none => rfl
  | some lstat =>
    rw [there] at file
    have regular : lstat.st_mode = .regular := of_decide_eq_true file
    simp [regular]

theorem not_file_of_dir (dir : os.isdir path = true) : os.isfile path = false := by
  cases file : os.isfile path with
  | false => rfl
  | true =>
    rw [not_dir_of_file file] at dir
    cases dir

theorem not_link (none_ : os.readlink path = none) : os.islink path = false := by
  unfold Os.islink
  rw [none_]
  rfl

theorem listdir_dir (dir : os.isdir path = true) : os.listdir path = .ok (os.names path) := if_pos dir

/-- What is told of a file, and that it is one. -/
theorem found_file (file : os.isfile path = true) : ∃ lstat, os.found path = some lstat ∧ lstat.st_mode = .regular ∧
    os.stat path = .ok lstat := by
  unfold Os.isfile at file
  unfold Os.stat
  cases there : os.found path with
  | none =>
    rw [there] at file
    cases file
  | some lstat =>
    rw [there] at file
    exact ⟨lstat, rfl, of_decide_eq_true file, rfl⟩

theorem found_dir (dir : os.isdir path = true) : ∃ lstat, os.found path = some lstat ∧ lstat.st_mode = .directory ∧
    os.stat path = .ok lstat := by
  unfold Os.isdir at dir
  unfold Os.stat
  cases there : os.found path with
  | none =>
    rw [there] at dir
    cases dir
  | some lstat =>
    rw [there] at dir
    exact ⟨lstat, rfl, of_decide_eq_true dir, rfl⟩

end Kinds

/-! ## The message of a file -/

def label (m : Posted) : Str × Dict Str := (m.path, m.fileOp)

section File
variable (os : Os) (o : Options)

/-- The file is not split, it can be identified, and it is not too large where only what is inlined is posted. -/
def Whole (path : Str) : Prop :=
  ∃ lstat, os.found path = some lstat ∧ inBlocks os o path lstat = false ∧ os.identified path 0 = true ∧
    ¬ (o.post_format = "v03".toList ∧ o.inline = true ∧ o.inlineByteMax ≤ lstat.st_size ∧ o.inlineOnly = true)

variable {os o} {path : Str} {lstat : Stat} {op : Option (String × Str)}

theorem fromFileInfo_regular (regular : lstat.st_mode = .regular) : (fromFileInfo path (some lstat)).fileOp = [] := by
  simp [fromFileInfo, regular]

theorem post_file_whole (regular : lstat.st_mode = .regular) (there : os.found path = some lstat) (whole : Whole os o path) :
    (post_file os o path lstat op).map label = [label ((fromFileInfo path (some lstat)).mark op)] := by
  obtain ⟨found, same, unsplit, identified, small⟩ := whole
  cases there.symm.trans same
  have data : fromFileData os path (some lstat) = some (fromFileInfo path (some lstat)) := by
    unfold fromFileData
    rw [identified]
    exact if_neg fun failed => failed.2 rfl
  unfold post_file
  rw [unsplit, data, regular]
  dsimp only
  rw [if_neg Bool.noConfusion, if_neg Mode.noConfusion]
  split_ifs with inlined below only
  · rfl
  · exact absurd ⟨inlined.1, inlined.2, Nat.le_of_not_lt below, only⟩ small
  · rfl
  · rfl

/-- A file that is not identified or too large is not posted. -/
theorem post_file_refused (regular : lstat.st_mode = .regular) (there : os.found path = some lstat)
    (unsplit : inBlocks os o path lstat = false) (refused : ¬ Whole os o path) : post_file os o path lstat op = [] := by
  unfold post_file fromFileData
  rw [unsplit, if_neg Bool.noConfusion]
  by_cases identified : os.identified path 0 = true
  · rw [if_neg fun failed => failed.2 identified, regular]
    dsimp only
    rw [if_neg Mode.noConfusion]
    -- only what is too large is left
    by_cases large : o.post_format = "v03".toList ∧ o.inline = true ∧ o.inlineByteMax ≤ lstat.st_size ∧ o.inlineOnly = true
    · rw [if_pos ⟨large.1, large.2.1⟩, if_neg (Nat.not_lt.mpr large.2.2.1), if_pos large.2.2.2]
    · exact absurd ⟨lstat, there, unsplit, identified, large⟩ refused
  · rw [if_pos ⟨by simp [regular], identified⟩]

end File

def plainOptions : Options where
  post_baseDir := none
  recursive := true
  realpathPost := false
  follow_symlinks := false
  v2compatRenameDoublePost := false
  blockSize := 1
  post_format := "v03".toList
  inline := false
  inlineOnly := false
  inlineByteMax := 4096

end Sarracenia.Guarantees.Gather
