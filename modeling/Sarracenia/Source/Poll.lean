import Mathlib.Data.List.Lex
import Mathlib.Data.List.Sort
import Sarracenia.Library.Decimal
import Sarracenia.Source.Message

/-!
# Polling (`sarracenia/flowcb/poll/__init__.py`)

The listings of a remote tree, read line by line, and the messages that are posted for them. What
`fromFileInfo`, the date parser, the local files and `readlink` answer is given from outside; a
page of HTML is a listing once it is parsed.
-/
namespace Sarracenia.Source.Poll
open Library Library.Text Library.Decimal Library.Dynamic

structure Options where
  permDefault : Nat
  recursive : Bool
  fileEvents : List String
  follow_symlinks : Bool
  identity_method : Str
  post_baseUrl : Str

/-- `paramiko.SFTPAttributes`: of the long name, whether it was set. -/
structure Attributes where
  st_mode : Option Nat
  st_size : Option Int
  st_mtime : Option ℚ
  st_atime : Option ℚ
  longname : Bool

inductive Line where
  | attributes (a : Attributes)
  | text (line : Str)

/-- What the rest answers. -/
structure Moment where
  isalpha : Char → Bool
  isnumeric : Str → Bool
  ftppoll : Bool
  /-- The time in the first words of a line, from `dateparser.parse`. -/
  windowsDate : Str → Option ℚ
  /-- What `filedate` makes of the words of a date. -/
  unixDate : Str → Except Fault ℚ
  fromFileInfo : Str → Attributes → Except Fault Message
  /-- `fromFileInfo` of a local file and what `stat` tells of it. -/
  localInfo : Str → Except Fault Message
  isfile : Str → Bool
  islink : Str → Bool
  /-- The target of a link of the server. -/
  readlink : Str → Option Str

/-! ## One line -/

section Lines
variable (now : Moment)

def unit (c : Char) : Option Nat :=
  if c ∈ ['b', 'B'] then some 1
  else if c ∈ ['k', 'K'] then some 1024
  else if c ∈ ['m', 'M'] then some (1024 * 1024)
  else if c ∈ ['g', 'G'] then some (1024 * 1024 * 1024)
  else if c ∈ ['t', 'T'] then some (1024 * 1024 * 1024 * 1024)
  else none

/-- The number itself, without a last letter. -/
def sizeOf (factor : Nat) (s : Str) : Int :=
  match s.getLast? with
  | none => -1
  | some c =>
    match readFloat (if now.isalpha c then s.dropLast else s) with
    | none => -1
    | some q => (q * factor).num.tdiv (q * factor).den

/-- `-1` for what is not a size. -/
def file_size_fix (s : Str) : Int :=
  match s.getLast? with
  | none => -1
  | some c => sizeOf now ((unit c).getD 1) (if c ∈ ['b', 'B'] then s.dropLast else s)

def file_type_dict (c : Char) : Except Fault Nat :=
  match c with
  | 'l' => .ok 0o120000
  | 's' => .ok 0o140000
  | '-' => .ok 0o100000
  | 'b' => .ok 0o060000
  | 'd' => .ok 0o040000
  | 'c' => .ok 0o020000
  | 'p' => .ok 0o010000
  | _ => .error .keyError

def modstr2num : Str → Except Fault Nat
  | r :: w :: x :: _ => .ok ((if r = 'r' then 4 else 0) + (if w = 'w' then 2 else 0) + (if x = 'x' then 1 else 0))
  | _ => .error .indexError

def filemode (modstr : Str) : Except Fault Nat := do
  let kind ← (modstr.head?.elim (.error .indexError) file_type_dict)
  let user ← modstr2num (slice modstr 1 4)
  let group ← modstr2num (slice modstr 4 7)
  let other ← modstr2num (slice modstr 7 10)
  return kind + user * 64 + group * 8 + other

def fileid (id : Str) : Except Fault (Option Int) :=
  if now.isnumeric id then (readInt id).elim (.error .valueError) fun i => .ok (some i) else .ok none

def filedate (line : Str) : Except Fault ℚ :=
  if now.ftppoll then
    match (words line).drop 5 with
    | a :: b :: c :: _ =>
      now.unixDate (if '-' ∈ a ++ ' ' :: b ++ ' ' :: c then a ++ ' ' :: b else a ++ ' ' :: b ++ ' ' :: c)
    | _ => .error .indexError
  else .ok 0

/-- A line of less than seven words. -/
def windowsLine (parts : List Str) : Except Fault Attributes := do
  let ldate ← (now.windowsDate (join [' '] (parts.take 2))).elim (.error .attributeError) .ok
  let size ← (parts[2]?).elim (.error .indexError) fun part => .ok (file_size_fix now part)
  return ⟨some 0o644, some size, some ldate, none, true⟩

/-- A line of more than seven words. -/
def unixLine (line : Str) (parts : List Str) : Except Fault Attributes := do
  let mode ← filemode (parts.getD 0 [])
  let _ ← fileid now (parts.getD 2 [])
  let _ ← fileid now (parts.getD 3 [])
  if file_size_fix now (parts.getD 4 []) ≥ 0 then
    let mtime ← filedate now line
    return ⟨some mode, some (file_size_fix now (parts.getD 4 [])), some mtime, none, true⟩
  else
    let mtime ← filedate now (line.drop 1)
    return ⟨some mode, some (file_size_fix now (parts.getD 5 [])), some mtime, none, true⟩

/-- Only what has the permissions is kept. The long name is read for the log. -/
def permitted (o : Options) (a : Attributes) : Except Fault (Option Attributes) :=
  match a.st_mode with
  | none => .error .typeError
  | some mode =>
    if mode &&& o.permDefault = o.permDefault then .ok (some a)
    else if a.longname then .ok none
    else .error .attributeError

/-- A line of seven words is none that is known. -/
def on_line (o : Options) : Line → Except Fault (Option Attributes)
  | .attributes a => permitted o a
  | .text line =>
    if (words line).length < 7 then windowsLine now (words line) >>= permitted o
    else if (words line).length > 7 then unixLine now line (words line) >>= permitted o
    else .ok none

end Lines

/-! ## Directories -/

/-- What is in a directory: names with a line each, whether one can change to it and list it, and
what is below. -/
inductive Listing where
  | nil
  | entry (name : Str) (line : Line) (opened : Bool) (below : Listing) (rest : Listing)

def Listing.lines : Listing → List (Str × Line)
  | .nil => []
  | .entry name line _ _ rest => (name, line) :: rest.lines

def fileType (a : Attributes) : Nat := a.st_mode.getD 0 &&& 0o170000

def S_ISDIR (a : Attributes) : Bool := fileType a = 0o040000
def S_ISLNK (a : Attributes) : Bool := fileType a = 0o120000

/-- What stands in a list that is returned: a message, or the key of one. -/
inductive Item where
  | message (m : Message)
  | key (k : String)

/-- What `poll_file_post` returns. -/
inductive Returned where
  | nothing
  | message (m : Message)
  | list (msgs : List Message)

/-- `if new_msgs: msgs.extend(new_msgs)`: of a dictionary, the keys. -/
def Returned.items : Returned → List Item
  | .nothing => []
  | .message m => m.map fun field => .key field.1
  | .list msgs => msgs.map .message

def pathOf (destDir remote_file : Str) : Str := destDir ++ '/' :: remote_file

section Polling
variable (now : Moment) (o : Options)

/-- The entries that are kept, or nothing where any line raises an exception. -/
def lsdir (lines : List (Str × Line)) : Except Fault (List (Str × Attributes)) := do
  let found ← lines.mapM fun f => (on_line now o f.2).map fun line => line.map fun a => (f.1, a)
  return found.reduceOption

/-- A local file. A link raises an exception: `msg` is not set yet. -/
def localPost (path : Str) : Except Fault Returned := do
  let ok ← now.localInfo path
  if now.islink path then .error .nameError else return .message ok

/-- What is done of a file, once its message is there. -/
def fileOp (path : Str) (desc : Attributes) (msg : Message) : Option Message :=
  if S_ISDIR desc then
    if "mkdir" ∈ o.fileEvents then some (msg.set "fileOp" (.dict [("directory", .str [])])) else none
  else if S_ISLNK desc then
    if "link" ∈ o.fileEvents then
      if o.follow_symlinks then some msg
      else (now.readlink path).map fun target => msg.set "fileOp" (.dict [("link", .str target)])
    else none
  else some msg

/-- `m, v = identity_method.split(',')` -/
def identity (msg : Message) : Except Fault Message :=
  if ',' ∈ o.identity_method then
    match split [','] o.identity_method with
    | [m, v] => .ok (msg.set "identity" (.dict [("method", .str m), ("value", .str v)]))
    | _ => .error .valueError
  else .ok msg

/-- Some fields are irrelevant where something else than contents is posted. -/
def irrelevant (msg : Message) : Except Fault Message :=
  match msg.get "fileOp" with
  | none => .ok msg
  | some op => (op.has "rename").map fun rename => if rename then msg else (msg.del "identity").del "size"

def remotePost (path : Str) (desc : Attributes) : Except Fault Returned := do
  let msg ← now.fromFileInfo path desc
  match fileOp now o path desc msg with
  | none => return .nothing
  | some msg =>
    if "create" ∉ o.fileEvents ∧ "modify" ∉ o.fileEvents then return .nothing
    else
      let msg ← identity o msg
      let msg ← irrelevant msg
      return .list [msg]

/-- Whether a path is taken for a file of this machine. -/
def isLocal (path : Str) : Bool :=
  "file:".toList.isPrefixOf o.post_baseUrl && (now.isfile path || now.islink path)

def poll_file_post (desc : Attributes) (destDir remote_file : Str) : Except Fault Returned :=
  if isLocal now o (pathOf destDir remote_file) then localPost now (pathOf destDir remote_file)
  else remotePost now o (pathOf destDir remote_file) desc

def poll_list_post (destDir : Str) (filelst : List (Str × Attributes)) : Except Fault (List Item) := do
  let returned ← filelst.mapM fun f => poll_file_post now o f.2 destDir f.1
  return returned.flatMap Returned.items

/-- The directories that are polled in turn. -/
def children (dirs : List (Str × Attributes)) : List Str :=
  ((dirs.map Prod.fst).insertionSort (· ≤ ·)).filter fun d => d ≠ ['.'] ∧ d ≠ ['.', '.']

def ifRecursive {α : Type} (step : Except Fault (List α)) : Except Fault (List α) := if o.recursive then step else .ok []

/-- One directory, given what polling each directory below it comes to. -/
def directory (pdir : Str) (lines : List (Str × Line)) (below : List (Str × Except Fault (List Item))) :
    Except Fault (List Item) :=
  match lsdir now o lines with
  | .error _ => .ok []
  | .ok found => do
    let dir_dict := found.filter fun f => S_ISDIR f.2
    let posted ← ifRecursive o (poll_list_post now o pdir dir_dict)
    let new ← poll_list_post now o pdir (found.filter fun f => !S_ISDIR f.2)
    let deeper ← ifRecursive o ((children dir_dict).mapM fun d => (below.lookup d).getD (.ok []))
    return posted ++ new ++ deeper.flatten

/-- What polling comes to below each entry. -/
def polled : Listing → Str → List (Str × Except Fault (List Item))
  | .nil, _ => []
  | .entry name _ opened below rest, pdir =>
    (name, if opened then directory now o (pathOf pdir name) below.lines (polled below (pathOf pdir name)) else .ok []) ::
      polled rest pdir

/-- `Poll.poll_directory`, where one can change to the directory and list it. -/
def poll_directory (pdir : Str) (listing : Listing) : Except Fault (List Item) :=
  directory now o pdir listing.lines (polled now o listing pdir)

end Polling
end Sarracenia.Source.Poll
