import Sarracenia.Library.Tree
import Sarracenia.Source.DoDownload

/-!
# File operations on a tree (`sarracenia/flow/__init__.py`)

`do_fileOp` with the operations it attempts, and `do_download` around it, by what they do to the
files. A path has a name for each directory on the way, none of which is reached through a link;
what a link leads to is given from outside, and so is what a download comes to. The host permits
all that its tree permits. Modes and hard links are left out.
-/
namespace Sarracenia.Source.FileTree
open Library
open Source.DoDownload (Slot)

/-- What a link leads to. -/
inductive Led where
  | file | directory | other
  deriving DecidableEq

structure Options where
  fileEvents : List String
  attempts : Int

/-- The keys of a `fileOp`, and what they have. -/
structure FileOp (ν τ : Type) where
  rename : Option (List ν)
  link : Option τ
  directory : Bool
  remove : Bool

/-- What a message says, and what is downloaded for it if anything is. -/
structure Message (ν κ τ : Type) where
  new_dir : List ν
  new_file : ν
  fileOp : Option (FileOp ν τ)
  renameUnlink : Bool
  content : Option κ

variable {ν κ τ : Type} [DecidableEq ν]

def Message.new_path (m : Message ν κ τ) : List ν := m.new_dir ++ [m.new_file]

section Calls
variable (leads : Tree ν κ τ → List ν → Led)

def isfile (t : Tree ν κ τ) (path : List ν) : Bool :=
  match t.look path with
  | some (.file _) => true
  | some (.link _) => leads t path = .file
  | _ => false

def islink (t : Tree ν κ τ) (path : List ν) : Bool :=
  match t.look path with
  | some (.link _) => true
  | _ => false

def isdir (t : Tree ν κ τ) (path : List ν) : Bool :=
  match t.look path with
  | some .directory => true
  | some (.link _) => leads t path = .directory
  | _ => false

/-- The tree that a call leaves, and whether it raised nothing. -/
def tried (t : Tree ν κ τ) : Option (Tree ν κ τ) → Tree ν κ τ × Bool
  | some t' => (t', true)
  | none => (t, false)

/-- `if c: call`. -/
def provided (c : Bool) (t : Tree ν κ τ) (call : Option (Tree ν κ τ)) : Tree ν κ τ × Bool :=
  if c then tried t call else (t, true)

/-- What follows where nothing was raised. -/
def next (r : Tree ν κ τ × Bool) (rest : Tree ν κ τ → Tree ν κ τ × Bool) : Tree ν κ τ × Bool :=
  if r.2 then rest r.1 else r

/-- The removal of a file or a link. -/
def unlinked (t : Tree ν κ τ) (path : List ν) : Tree ν κ τ × Bool :=
  next (provided (isfile leads t path) t (t.unlink path)) fun t =>
    provided (islink t path) t (t.unlink path)

def removeOneFile (t : Tree ν κ τ) (path : List ν) : Tree ν κ τ × Bool :=
  next (unlinked leads t path) fun t => provided (isdir leads t path) t (t.rmdir path)

/-- What is at the new name is removed as `removeOneFile` does. -/
def renameOneItem (t : Tree ν κ τ) (old path : List ν) : Tree ν κ τ × Bool :=
  if (t.look old).isNone then (t, false)
  else next (removeOneFile leads t path) fun t => tried t (t.rename old path)

variable (m : Message ν κ τ)

/-- The directory of the new name. -/
def directory (t : Tree ν κ τ) : Tree ν κ τ × Bool :=
  provided (!isdir leads t m.new_dir) t (t.makedirs [] m.new_dir)

def mkdir (t : Tree ν κ τ) : Tree ν κ τ × Bool :=
  next (directory leads m t) fun t =>
    provided (!isdir leads t m.new_path) t (t.mkdir m.new_path)

def link1file (target : τ) (t : Tree ν κ τ) : Tree ν κ τ × Bool :=
  next (directory leads m t) fun t =>
    next (unlinked leads t m.new_path) fun t => tried t (t.symlink target m.new_path)

end Calls

section Operation
variable (leads : Tree ν κ τ → List ν → Led) (o : Options) (m : Message ν κ τ)

/-- How `do_fileOp` ends: with the message on a list, or falling through to the download, with the
message on `ok` or not. -/
inductive Fate where
  | ended (slot : Slot)
  | falls (ok : Bool)
  deriving DecidableEq

/-- The making of a directory or a link; `none` is to try again. -/
def create (op : FileOp ν τ) (t : Tree ν κ τ) : Tree ν κ τ × Option Fate :=
  if op.directory && !op.remove then
    if "mkdir" ∉ o.fileEvents then (t, some (.ended .rejected))
    else ((mkdir leads m t).1, if (mkdir leads m t).2 then some (.ended .ok) else none)
  else match op.link, op.rename with
    | some target, none =>
      if "link" ∉ o.fileEvents then (t, some (.ended .rejected))
      else ((link1file leads m target t).1,
        some (.ended (if (link1file leads m target t).2 then .ok else .rejected)))
    | _, _ => (t, none)

/-- The body of the loop. -/
def attempt (op : FileOp ν τ) (t : Tree ν κ τ) : Tree ν κ τ × Option Fate :=
  match op.rename with
  | some old =>
    if m.renameUnlink then ((removeOneFile leads t old).1, some (.falls true))
    else if (renameOneItem leads t old m.new_path).2 then
      ((renameOneItem leads t old m.new_path).1,
        some (if op.link.isSome || op.directory then .ended .ok else .falls true))
    else if op.link.isNone && !op.directory then
      ((renameOneItem leads t old m.new_path).1, some (.falls false))
    else create leads o m op (renameOneItem leads t old m.new_path).1
  | none =>
    if op.directory && op.remove then
      if "rmdir" ∉ o.fileEvents then (t, some (.ended .rejected))
      else if (removeOneFile leads t m.new_path).2 then
        ((removeOneFile leads t m.new_path).1, some (.ended .ok))
      else create leads o m op (removeOneFile leads t m.new_path).1
    else if op.remove then
      if "delete" ∉ o.fileEvents then (t, some (.ended .rejected))
      else ((removeOneFile leads t m.new_path).1,
        some (.ended (if (removeOneFile leads t m.new_path).2 then .ok else .rejected)))
    else create leads o m op t

def fileOpLoop (op : FileOp ν τ) : Nat → Tree ν κ τ → Tree ν κ τ × Fate
  | 0, t => (t, .ended .failed)
  | n + 1, t =>
    match attempt leads o m op t with
    | (t, some fate) => (t, fate)
    | (t, none) => fileOpLoop op n t

def do_fileOp (t : Tree ν κ τ) : Tree ν κ τ × Fate :=
  match m.fileOp with
  | none => (t, .falls false)
  | some op => fileOpLoop leads o m op o.attempts.toNat t

/-- What falls through is downloaded. -/
def fallen (download : Tree ν κ τ → Message ν κ τ → Tree ν κ τ × Slot) :
    Tree ν κ τ × Fate → Tree ν κ τ × List Slot
  | (t, .ended slot) => (t, [slot])
  | (t, .falls ok) => ((download t m).1, (if ok then [.ok] else []) ++ [(download t m).2])

/-- A turn of `do_download`: the tree, and the lists the message was put on. The directory of a file
that is to be removed is not made anew. -/
def turn (download : Tree ν κ τ → Message ν κ τ → Tree ν κ τ × Slot) (t : Tree ν κ τ) :
    Tree ν κ τ × List Slot :=
  if !isdir leads t m.new_dir && m.fileOp.any FileOp.remove then (t, [.rejected])
  else if (directory leads m t).2 then
    fallen m download (do_fileOp leads o m (directory leads m t).1)
  else ((directory leads m t).1, [.rejected])

end Operation
end Sarracenia.Source.FileTree
