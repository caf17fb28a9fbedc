import Mathlib.Data.List.Lex
import Mathlib.Data.Char
import Sarracenia.Source.Parts
import Sarracenia.Source.Transfer
import Sarracenia.Library.Table

/-!
# Identities and where they are remembered

`Message.computeIdentity` (`sarracenia/__init__.py`), the extended attributes it keeps
(`filemetadata.py`), and the users of both: `post_file_in_parts` of `flowcb/gather/file.py`,
`set_local_file_attributes` and `compute_local_checksum` of `flow/__init__.py`. Attributes
come back as they were written, and whatever was set is written even where an exception
follows. The modes of the file and the manifest beside it are left out.
-/
namespace Sarracenia.Source.Identity
open Library Library.Text Library.Dynamic Source.TimeNotation
open Source.Transfer (Bytes)

structure Options where
  identity_method : Option Str
  identity_arbitrary_value : Value
  randomize : Bool
  bufSize : Nat
  timeCopy : Bool

/-- The checksum of a method, what `random.choice` picks and the value of `Random`, and the
text of a modification time. -/
structure World where
  digest : Str → Bytes → Str
  choice : Str
  random : Str
  mtimeText : ℚ → Str

/-- A file: its bytes, the text of its modification time, and its extended attributes. -/
structure File where
  content : Bytes
  mtime : Str
  x : Dict Value

/-- The methods that read the file. -/
def Binary (method : Str) : Prop := method = "md5".toList ∨ method = "sha512".toList

instance (method : Str) : Decidable (Binary method) := by
  unfold Binary
  infer_instance

/-- `{'method': ..., 'value': ...}`. -/
def identity (method value : Value) : Value := .dict [("method", method), ("value", value)]

section Compute
variable (w : World) (o : Options)

/-- `remembered >= mtime`. -/
def atLeast : Value → Value → Except Fault Bool
  | .str remembered, .str mtime => .ok (decide (mtime ≤ remembered))
  | _, _ => .error .typeError

/-- Where the identity comes from: the attributes, or a calculation. -/
inductive Origin where
  | remembered (identity : Value)
  | calculated (method : Option Str)

def origin (x : Dict Value) (msg : Message) : Except Fault Origin :=
  if (msg.get "blocks").isSome then .ok (.calculated o.identity_method)
  else if o.randomize then .ok (.calculated (some w.choice))
  else match x.get "identity", x.get "mtime", msg.get "mtime" with
    | some fxainteg, some remembered, some mtime => do
      if ← atLeast remembered mtime then
        let method ← fxainteg.item "method"
        if o.identity_method.any fun calc_method => method.equals calc_method then
          return .remembered fxainteg
      return .calculated o.identity_method
    | _, _, _ => .ok (.calculated o.identity_method)

/-- What the read loop feeds the checksum with. It counts from zero, not from the offset. -/
def readLoop (bufSize : Nat) (limit : ℚ) : Nat → Nat → Bytes → Bytes
  | 0, _, _ => []
  | steps + 1, i, rest =>
    if limit ≤ i then []
    else if (rest.take bufSize).isEmpty then []
    else rest.take bufSize ++
      readLoop bufSize limit steps (i + (rest.take bufSize).length) (rest.drop bufSize)

/-- The bytes that are read from the offset on, for a message with that size. -/
def readFrom (bufSize offset : Nat) (size : ℚ) (content : Bytes) : Bytes :=
  readLoop bufSize (offset + size) (content.length + 1) 0 (content.drop offset)

/-- The checksum of a method, and the message with its size; data that is given stands for
the content of the file. -/
def checksum (method : Str) (offset : Nat) (data : Bytes) (content : Bytes) (msg : Message) :
    Except Fault (Str × Message) := do
  let msg := if (msg.get "size").isSome then msg else msg.set "size" (.int content.length)
  if Binary method then
    if !data.isEmpty then return (w.digest method data, msg)
    let size ← (← msg.item "size").asNumber
    return (w.digest method (readFrom o.bufSize offset size content), msg)
  else if method = "random".toList then return (w.random, msg)
  else .error .attributeError

/-- The identity that the method calculates, `none` for a method without one. -/
def calculate (method : Str) (offset : Nat) (data : Bytes) (content : Bytes) (msg : Message) :
    Except Fault (Option Value × Message) :=
  if method.take 4 = "cod,".toList then
    .ok (some (identity (.str "cod".toList) (.str (method.drop 4))), msg)
  else if method = "md5name".toList ∨ method = "invalid".toList then .ok (none, msg)
  else if method = "arbitrary".toList then
    .ok (some (identity (.str method) o.identity_arbitrary_value), msg)
  else do
    let (value, msg) ← checksum w o method offset data content msg
    return (some (identity (.str method) (.str value)), msg)

/-- The time of the message is remembered. -/
def rememberMtime (msg : Message) (x : Dict Value) : Dict Value :=
  (msg.get "mtime").elim x (x.set "mtime")

/-- The attributes that the call leaves, and the message. -/
def computeIdentity (offset : Nat) (data : Bytes) (f : File) (msg : Message) :
    Dict Value × Except Fault Message :=
  match origin w o f.x msg with
  | .error fault => (f.x, .error fault)
  | .ok (.remembered identity) => (f.x, .ok (msg.set "identity" identity))
  | .ok (.calculated none) => (f.x, .ok msg)
  | .ok (.calculated (some method)) =>
    let x := rememberMtime msg f.x
    match calculate w o method offset data f.content msg with
    | .error fault => (x, .error fault)
    | .ok (none, msg) => (x, .ok msg)
    | .ok (some identity, msg) => (x.set "identity" identity, .ok (msg.set "identity" identity))

end Compute

section Users
variable (w : World) (o : Options)

/-- The attributes and the time of a file that was just written. -/
def set_local_file_attributes (f : File) (msg : Message) : File × Except Fault Unit :=
  let x := match msg.get "onfly_checksum", msg.get "identity" with
    | some onfly_checksum, _ => f.x.set "identity" onfly_checksum
    | none, some identity => f.x.set "identity" identity
    | none, none => f.x
  match if o.timeCopy then (msg.get "mtime").filter Value.truthy else none with
  | none => ({ f with x := x.set "mtime" (.str f.mtime) }, .ok ())
  | some mtime =>
    let f := { f with x := x.set "mtime" mtime }
    let times : Except Fault ℚ := do
      let time ← timestr2flt (← mtime.asStr)
      match (msg.get "atime").filter Value.truthy with
      | none => pure ()
      | some atime => let _ ← timestr2flt (← atime.asStr)
      return time
    match times with
    | .error fault => (f, .error fault)
    | .ok time => ({ f with mtime := w.mtimeText time }, .ok ())

/-- `msg['identity']['method'] == s['method']`, where the message has a method. -/
def sameMethod (msg : Message) (s : Value) : Except Fault Bool := do
  match msg.get "identity" with
  | none => return false
  | some identity => do
    if ← identity.has "method" then
      match ← identity.item "method" with
      | .str method => return (← s.item "method").equals method
      | _ => return false
    else return false

/-- The identity in the attributes, where it is taken for the one of the file. -/
def cachedIdentity (f : File) (lstat_mtime : Str) (msg : Message) : Except Fault (Option Value) := do
  match f.x.get "identity" with
  | none => return none
  | some s =>
    if !s.truthy then return none
    if ← atLeast ((f.x.get "mtime").getD .none) (.str lstat_mtime) then
      let same ← sameMethod msg s
      let method ← s.item "method"
      if same || o.identity_method.any fun identity_method => method.equals identity_method then
        return some s
    return none

/-- The identity calculated from the file. -/
def recalculate (f : File) (msg : Message) : Except Fault Message := do
  let method ← (← msg.item "identity").item "method"
  if method.equals "arbitrary".toList then return msg
  let method ← method.asStr
  if Binary method then
    let s := identity (.str method) (.str (w.digest method f.content))
    Message.deleteOnPost (msg.set "local_identity" s) ["local_identity"]
  else if method = "random".toList then
    let s := identity (.str method) (.str w.random)
    Message.deleteOnPost (msg.set "local_identity" s) ["local_identity"]
  else .error .attributeError

/-- An exception on the way to the attributes is passed over. -/
def compute_local_checksum (f : File) (lstat_mtime : Str) (msg : Message) : Except Fault Message :=
  match cachedIdentity o f lstat_mtime msg with
  | .ok (some s) =>
    let msg := msg.set "local_identity" s
    let noted : Except Fault Message := do
      let msg ← Message.deleteOnPost msg ["local_identity"]
      Message.deleteOnPost (msg.set "local_blocks" ((f.x.get "blocks").getD .none)) ["local_blocks"]
    match noted with
    | .ok msg => .ok msg
    | .error _ => recalculate w f msg
  | _ => recalculate w f msg

/-- A block of a manifest: its size and the value of its identity. -/
structure Block where
  size : Nat
  identity : Value

/-- The first loop of `post_file_in_parts`: every block in turn is identified, with the
message that carries the size and the attributes on, until one could not be identified. -/
def identifyBlocks (chunksize : Nat) : List Nat → File → Message → Table Nat Block →
    Dict Value × Except Fault (Option (Message × Table Nat Block))
  | [], f, msg, manifest => (f.x, .ok (some (msg, manifest)))
  | current_block :: blocks, f, msg, manifest =>
    let length := Parts.blockLength f.content.length chunksize current_block
    match computeIdentity w o (current_block * chunksize) [] f (msg.set "size" (.int length)) with
    | (x, .error _) => (x, .ok none)
    | (x, .ok msg) =>
      match (msg.item "identity").bind (Value.item "value") with
      | .error fault => (x, .error fault)
      | .ok value =>
        identifyBlocks chunksize blocks { f with x := x } msg
          (manifest.set current_block ⟨length, value⟩)

/-- A message for a block, and the manifest in its `blocks`. -/
structure Posted where
  fields : Message
  manifest : Table Nat Block

def blocksField (chunksize : Nat) (number : Int) : Value :=
  .dict [("method", .str "inplace".toList), ("size", .int chunksize), ("number", .int number)]

/-- The message for one block. -/
def postBlock (chunksize : Nat) (msg : Message) (manifest : Table Nat Block) (current_block : Nat) :
    Except Fault Posted := do
  let block ← (manifest.get current_block).elim (.error .keyError) .ok
  let msg := msg.set "blocks" (blocksField chunksize current_block)
  let msg := Dict.set msg "size" (.int block.size)
  let identity ← (← msg.item "identity").setItem "value" block.identity
  return ⟨Dict.set msg "identity" identity, manifest⟩

/-- `post_file_in_parts`, for a size of blocks that is not zero: the attributes it leaves,
and the messages, none where a block could not be identified. -/
def post_file_in_parts (bssetting : Nat) (info : Parts.FileInfo) (blocks : List Nat) (f : File) :
    Dict Value × Except Fault (List Posted) :=
  let chunksize := Parts.set_blockSize bssetting f.content.length
  let msg := info.fields.set "blocks" (blocksField chunksize (-1))
  match identifyBlocks w o chunksize blocks f msg Table.empty with
  | (x, .error fault) => (x, .error fault)
  | (x, .ok none) => (x, .ok [])
  | (x, .ok (some (msg, manifest))) => (x, blocks.mapM (postBlock chunksize msg manifest))

end Users
end Sarracenia.Source.Identity
