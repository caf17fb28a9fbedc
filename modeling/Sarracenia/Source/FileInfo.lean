import Sarracenia.Source.Placement

/-!
# The message about a file (`Message.fromFileInfo` of `sarracenia/__init__.py`)

Paths are those of POSIX. What the option `rename` expands to without a message, and the value of a random
identity, are given from outside.
-/
namespace Sarracenia.Source.FileInfo
open Library Library.Text Library.Dynamic Source.Config Source.Placement

/-- The record of `lstat`. -/
structure Lstat where
  st_mode : Option Nat
  st_size : Option Nat
  st_mtime : Option TimeNotation.Instant
  st_atime : Option TimeNotation.Instant
  deriving DecidableEq, Repr

/-- The options that only concern this message; what an option without an attribute gives is `none`. -/
structure InfoOptions where
  exchange : Option Value
  blockSize : Option Nat
  rename : Option Str
  renamed : Except Fault Str
  to_clusters : Option Value
  cluster : Option Value
  source : Option Value
  identity_method : Option Str
  random : Str → Str
  permCopy : Bool
  timeCopy : Bool

/-- `os.path.dirname`. -/
def dirname (path : Str) : Str :=
  let head := (path.reverse.dropWhile (· ≠ '/')).reverse
  if head.all (· = '/') then head else rstripBy (· = '/') head

def S_IFMT (mode : Nat) : Nat := mode &&& 0o170000
def S_IFREG : Nat := 0o100000
def S_IFDIR : Nat := 0o040000

section Info
variable (w : World) (o : Config.Options) (i : InfoOptions) (steps : Nat)

/-- Whether a regular file is longer than a block. -/
def inBlocks (blockSize : Nat) (lstat : Option Lstat) : Except Fault Bool :=
  match lstat with
  | none => .ok false
  | some lstat =>
    if blockSize ≤ 1 then .ok false
    else match lstat.st_mode, lstat.st_size with
      | none, _ => .error .typeError
      | some mode, size =>
        if S_IFMT mode ≠ S_IFREG then .ok false else size.elim (.error .typeError) fun size => .ok (blockSize < size)

/-- The name under another one: by the option `rename`, then by the option `strip`. -/
def newname (path : Str) : Except Fault (Option Str) := do
  let name ← match given i.rename with
    | none => .ok none
    | some rename => do
      let name ← i.renamed
      .ok (some (if rename.getLast? = some '/' then name ++ basename path else name))
  if o.strip = 0 then return name
  else match path.head? with
    | none => .error .indexError
    | some c =>
      let strip := if c = '/' then o.strip + 1 else o.strip
      -- a slice of a list raises nothing, whatever the number
      let token := (split ['/'] path).drop strip
      return some ('/' :: join ['/'] token)

def setGiven (key : String) (value : Option Value) (msg : Message) : Message :=
  value.elim msg fun v => msg.set key v

def identityField (post_relPath : Value) (msg : Message) : Except Fault Message :=
  match given i.identity_method with
  | none => .ok (msg.del "identity")
  | some method =>
    if "cod,".toList.isPrefixOf method then
      .ok (msg.set "identity" (.dict [("method", .str "cod".toList), ("value", .str (method.drop 4))]))
    else if method = "random".toList then
      post_relPath.asStr.map fun path =>
        msg.set "identity" (.dict [("method", .str method), ("value", .str (i.random path))])
    else .ok msg

def modeField (lstat : Lstat) (msg : Message) : Except Fault Message :=
  lstat.st_mode.elim (.ok msg) fun mode =>
    let msg := msg.set "mode" (.str (Nat.toDigits 8 (mode &&& 4095)))
    if i.permCopy then .ok msg else Message.deleteOnPost msg ["mode"]

def sizeFields (lstat : Lstat) (msg : Message) : Except Fault Message :=
  let time (t : TimeNotation.Instant) : Value := .str (TimeNotation.timeflt2str t)
  let msg := setGiven "size" (lstat.st_size.map fun size : Nat => .int size) msg
  let msg := setGiven "atime" (lstat.st_atime.map time) (setGiven "mtime" (lstat.st_mtime.map time) msg)
  if i.timeCopy then .ok msg else Message.deleteOnPost msg ["atime", "mtime"]

/-- The fields that are read off the record of `lstat`. -/
def lstatFields (lstat : Lstat) (msg : Message) : Except Fault Message := do
  let msg ← modeField i lstat msg
  if lstat.st_mode.any (S_IFMT · = S_IFDIR) then return msg.set "fileOp" (.dict [("directory", .str [])])
  else sizeFields i lstat msg

/-- The message as the paths are worked out for it. -/
def blankInfo (inBlocks : Bool) : Message :=
  let msg := setGiven "exchange" i.exchange (Message.new "v03")
  let blocks : Value := .dict [("method", .str "inplace".toList), ("number", .int (-1)),
    ("size", .int (i.blockSize.getD 0)), ("manifest", .dict [])]
  let msg := if inBlocks then msg.set "blocks" blocks else msg
  ((msg.set "local_offset" (.int 0)).set "_deleteOnPost" (.set ["exchange", "local_offset", "subtopic", "_format"])).set
    "pubTime" (.str w.nowstr)

def fromFileInfo (path : Str) (lstat : Option Lstat) : Except Fault Message := do
  let blocks ← inBlocks (i.blockSize.getD 0) lstat
  match updatePaths w o steps (dirname path) (basename path) 0 (blankInfo w i blocks) with
  | (_, .error e) => .error e
  | (msg, .ok ()) =>
    let post_relPath := ((msg.get "new_relPath").orElse fun _ => msg.get "relPath").getD .none
    let name ← newname o i path
    let msg := (name.filter fun name => !post_relPath.equals name).elim msg fun name => msg.set "rename" (.str name)
    let msg := setGiven "source" i.source (setGiven "from_cluster" i.cluster (setGiven "to_clusters" i.to_clusters msg))
    let msg ← identityField i post_relPath msg
    lstat.elim (.ok msg) fun lstat => lstatFields i lstat msg

end Info
end Sarracenia.Source.FileInfo
