import Sarracenia.Source.Config
import Sarracenia.Source.Reception

/-!
# Messages for what is on disk (`sarracenia/flowcb/gather/file.py`)

From a path to the messages for it, from a tree to those of all its files, and from a move to those of the files moved.
Of a message there is the path it is made for, the operation, the block, the content, and what a removal adds. What
`os.path` answers follows from what there is at a path: a link by itself, and what is found when links are followed. The
recursion over directories is granted a number of steps and `diverges` if they do not do.
-/
namespace Sarracenia.Source.Walk
open Library Library.Text Library.Dynamic

structure Options where
  post_baseDir : Option Str
  recursive : Bool
  realpathPost : Bool
  follow_symlinks : Bool
  v2compatRenameDoublePost : Bool
  blockSize : Nat
  post_format : Str
  inline : Bool
  inlineOnly : Bool
  inlineByteMax : Nat

inductive Mode where
  | regular | directory | other
  deriving DecidableEq, Repr

structure Stat where
  st_mode : Mode
  st_size : Nat
  deriving DecidableEq, Repr

/-- What there is on disk. -/
structure Os where
  /-- What `os.readlink` gives, of a link. -/
  readlink : Str → Option Str
  /-- What `os.stat` tells, where there is something; links are followed. -/
  found : Str → Option Stat
  /-- What `os.listdir` gives, of a directory. -/
  names : Str → List Str
  realpath : Str → Str
  /-- Whether the identity of the data from an offset on can be computed. -/
  identified : Str → Nat → Bool
  /-- The blocks in the order they are sent. -/
  blocks : Nat → List Nat
  /-- The encoding and the value of the data that are put in the message. -/
  content : Str → Value

section Disk
variable (os : Os)

def Os.islink (path : Str) : Bool := (os.readlink path).isSome
def Os.exists_ (path : Str) : Bool := (os.found path).isSome
def Os.isfile (path : Str) : Bool := (os.found path).any (·.st_mode = .regular)
def Os.isdir (path : Str) : Bool := (os.found path).any (·.st_mode = .directory)

def Os.stat (path : Str) : Except Fault Stat := (os.found path).elim (.error .osError) .ok

def Os.listdir (path : Str) : Except Fault (List Str) := if os.isdir path then .ok (os.names path) else .error .osError

end Disk

structure Posted where
  path : Str
  fileOp : Dict Str
  block : Option Nat
  content : Option Value
  headers : Dict Str
  deriving Repr

/-- `path.replace('/./', '/')`. -/
def tidy (path : Str) : Str := replaceAll "/./".toList ['/'] path

section Messages
variable (os : Os) (o : Options)

def fromFileInfo (path : Str) (lstat : Option Stat) : Posted where
  path := path
  fileOp := if lstat.any (·.st_mode = .directory) then [("directory", [])] else []
  block := none
  content := none
  headers := []

def fromFileData (path : Str) (lstat : Option Stat) : Option Posted :=
  if lstat.any (·.st_mode = .regular) ∧ ¬ os.identified path 0 then none else some (fromFileInfo path lstat)

def set_blockSize (bssetting fsiz : Nat) : Nat :=
  if bssetting = 0 then 50 * 1024 * 1024 else if bssetting = 1 then fsiz else bssetting

/-- Each block has its message, unless one of them cannot be identified. -/
def post_file_in_parts (path : Str) (lstat : Stat) : List Posted :=
  let chunksize := set_blockSize o.blockSize lstat.st_size
  let block_count := lstat.st_size / chunksize + if 0 < lstat.st_size % chunksize then 1 else 0
  let blocks := os.blocks block_count
  if blocks.all fun current_block => os.identified path (current_block * chunksize) then
    blocks.map fun current_block => { fromFileInfo path (some lstat) with block := some current_block }
  else []

/-- Whether the file is sent in blocks. -/
def inBlocks (path : Str) (lstat : Stat) : Bool :=
  let blksz := set_blockSize o.blockSize lstat.st_size
  0 < blksz && blksz < lstat.st_size && os.isfile path

/-- The operation of a moved file: its key and its value. -/
def Posted.mark (m : Posted) : Option (String × Str) → Posted
  | none => m
  | some (key, value) => { m with fileOp := m.fileOp.set key value }

def post_file (path : Str) (lstat : Stat) (op : Option (String × Str)) : List Posted :=
  if inBlocks os o path lstat then post_file_in_parts os o path lstat
  else match fromFileData os path (some lstat) with
    | none => []
    | some msg =>
      let msg := msg.mark op
      if lstat.st_mode = .directory then [msg]
      else if o.post_format = "v03".toList ∧ o.inline then
        if lstat.st_size < o.inlineByteMax then [{ msg with content := some (os.content path) }]
        else if o.inlineOnly then [] else [msg]
      else [msg]

/-- `post_link`, with `key='link'`, or with the key and the value that are given. -/
def post_link (path : Str) (op : Option (String × Str)) : List Posted :=
  let op := op.getD ("link", (os.readlink path).getD [])
  [(fromFileInfo path none).mark (some op)]

def post_delete (path : Str) (newname : Option Str) (is_directory : Bool) : List Posted :=
  let msg := { fromFileInfo path none with fileOp := if is_directory then [("remove", []), ("directory", [])] else [("remove", [])] }
  match newname, o.post_baseDir.filter (· ≠ []) with
  | none, _ => [msg]
  | some value, none => [{ msg with headers := [("newname", value)] }]
  | some value, some post_baseDir => [{ msg with headers :=
      [("newname", replaceAll post_baseDir [] value), ("new_dir", Reception.dirname value), ("new_file", Config.basename value)] }]

end Messages

section Moving
variable (os : Os) (o : Options)

/-- The loop over the entries of a directory that was moved: the messages are those of the last, the directories all. -/
def moveLoop (move : Str → Str → List (Str × Str) → Except Fault (List Posted × List (Str × Str))) (src dst : Str) :
    List Str → List Posted → List (Str × Str) → Except Fault (List Posted × List (Str × Str))
  | [], messages, move_dir_lst => .ok (messages, move_dir_lst)
  | x :: xs, _, move_dir_lst => do
    let (messages, move_dir_lst) ← move (src ++ '/' :: x) (dst ++ '/' :: x) move_dir_lst
    moveLoop move src dst xs messages move_dir_lst

/-- The path that is posted for one that was moved. -/
def postedPath (dst : Str) : Str := if os.islink dst && o.realpathPost then os.realpath dst else dst

/-- The removal that goes before a rename, for older subscribers. -/
def doublePost (src dst : Str) : List Posted := if o.v2compatRenameDoublePost then post_delete o src (some dst) false else []

def post_move : Nat → Str → Str → List (Str × Str) → Except Fault (List Posted × List (Str × Str))
  | 0, _, _, _ => .error .diverges
  | steps + 1, src, dst, move_dir_lst => do
    let src := tidy src
    let dst := postedPath os o (tidy dst)
    if os.isfile dst then
      return (doublePost o src dst ++ post_file os o dst (← os.stat dst) (some ("rename", src)), move_dir_lst)
    else if os.islink dst then
      return (doublePost o src dst ++ post_link os dst (some ("rename", src)), move_dir_lst)
    else if os.isdir dst then
      let (messages, move_dir_lst) ← moveLoop (post_move steps) src dst (← os.listdir dst) [] move_dir_lst
      return (messages, move_dir_lst ++ [(src, dst)])
    else return ([], move_dir_lst)

def post1move (steps : Nat) (src dst : Str) : Except Fault (List Posted) := do
  let (messages, move_dir_lst) ← post_move os o steps src dst []
  return messages ++ move_dir_lst.flatMap fun tup => post_delete o tup.1 (some tup.2) false

end Moving

section Walking
variable (os : Os) (o : Options)

def post1file : Nat → Str → Option Stat → Bool → Except Fault (List Posted)
  | 0, _, _, _ => .error .diverges
  | steps + 1, path, lstat, is_directory =>
    let path := tidy path
    if os.islink path then
      let messages := post_link os path none
      if o.follow_symlinks then do
        let rpath := os.realpath ((os.readlink path).getD [])
        return messages ++ (← post1file steps rpath (os.found rpath) false)
      else .ok messages
    else match lstat with
      | none => .ok (post_delete o path none is_directory)
      | some lstat => .ok (if os.isfile path ∨ os.isdir path then post_file os o path lstat none else [])

/-- The loop over the entries of a directory. -/
def walkLoop (steps : Nat) (walk : Str → Except Fault (List Posted)) (src : Str) :
    List Str → List Posted → Except Fault (List Posted)
  | [], messages => .ok messages
  | x :: xs, messages => do
    let path := src ++ '/' :: x
    if os.isdir path then
      walkLoop steps walk src xs (messages ++ (← walk path))
    else if os.exists_ path then
      walkLoop steps walk src xs (messages ++ (← post1file os o steps path (some (← os.stat path)) false))
    else walkLoop steps walk src xs messages

def walk : Nat → Str → Except Fault (List Posted)
  | 0, _ => .error .diverges
  | steps + 1, src => do
    let src := postedPath os o src
    let messages ← if some src = o.post_baseDir then .ok []
      else post1file os o (steps + 1) src (some (← os.stat src)) true
    if o.recursive then walkLoop os o (steps + 1) (walk steps) src (← os.listdir src) messages
    else return messages

end Walking
end Sarracenia.Source.Walk
