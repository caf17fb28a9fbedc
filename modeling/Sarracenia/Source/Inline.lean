import Sarracenia.Library.Percent
import Sarracenia.Source.Identity
import Sarracenia.Source.V2Wrapper

/-!
# Content that comes with the message (`Flow.write_inline_file` of `sarracenia/flow/__init__.py`, `Identity.factory`)

The destination is a file or none. Whether it can be opened is given from outside, and so are the codecs other than base64;
what is written is written. A message is left as it was where an exception is raised: nothing reads it then.
-/
namespace Sarracenia.Source.Inline
open Library Library.Text Library.Dynamic
open Source.Transfer (Bytes)
open Source.Identity (File)

structure Options extends Identity.Options where
  acceptSizeWrong : Bool

structure World extends Identity.World where
  isdir : Bool
  /-- Whether a directory that is missing can be made. -/
  makedirs : Bool
  /-- Whether the file can be opened, or created. -/
  opens : Bool
  /-- The text of the time now. -/
  now : Str
  /-- `s.encode(encoding)`, by the encoding. -/
  encode : Str → Str → Except Fault Bytes
  /-- The value of a second `Random`. -/
  again : Str

section Content

/-- `b64decode` of a text: only ASCII is read. -/
def b64decode (value : Str) : Except Fault Bytes :=
  if value.all fun c => c.toNat < 128 then
    match V2Wrapper.a2b_base64 0 0 0 value with
    | some bytes => .ok (bytes.map UInt8.ofNat)
    | none => .error .valueError
  else .error .valueError

/-- The data of the content. -/
def decoded (w : World) (msg : Message) : Except Fault Bytes := do
  let content ← msg.item "content"
  let encoding ← content.item "encoding"
  let value ← content.item "value"
  if encoding.equals "base64".toList then b64decode (← value.asStr)
  else
    match value, encoding with
    | .str value, .str encoding => w.encode encoding value
    | .str _, _ => .error .typeError
    | _, _ => .error .attributeError

end Content

section Checksums

/-- The classes of identities. -/
inductive Class where
  | arbitrary | md5 | random | sha512
  deriving DecidableEq, Repr

def Class.name : Class → Str
  | .arbitrary => "arbitrary".toList
  | .md5 => "md5".toList
  | .random => "random".toList
  | .sha512 => "sha512".toList

/-- `Identity.factory`. -/
def factory (method : Value) : Option Class :=
  [Class.arbitrary, .md5, .random, .sha512].find? fun sc => method.equals sc.name

def algo_method (o : Options) (msg : Message) : Except Fault Value :=
  match o.identity_method with
  | none => .error .attributeError
  | some identity_method =>
    if identity_method.take 4 = "cod,".toList then .ok (.str (identity_method.drop 4))
    else match msg.get "identity" with
      | none => .ok (.str identity_method)
      | some identity => do
        let method ← identity.item "method"
        if method.equals "cod".toList then identity.item "value" else return method

/-- What a checksum of the class comes to; for one that is arbitrary it is in the message. -/
def valueOf (digest : Str → Bytes → Str) (random : Str) (data : Bytes) (msg : Message) : Class → Except Fault Value
  | .arbitrary => msg.item "identity" >>= Value.item "value"
  | .random => .ok (.str random)
  | .md5 => .ok (.str (digest "md5".toList data))
  | .sha512 => .ok (.str (digest "sha512".toList data))

end Checksums

section Writing
variable (w : World) (o : Options)

/-- The message with the size of the data, or nothing where another one was announced and is not to be put up with. -/
def checkSize (data : Bytes) (msg : Message) : Except Fault (Option Message) := do
  let right := msg.set "size" (.int data.length)
  match msg.get "size" with
  | none => return some right
  | some size =>
    let size ← size.asNumber
    if 0 < size ∧ (data.length : ℚ) ≠ size then return if o.acceptSizeWrong then some right else none
    else return some right

/-- The checksums of the data, and between them its size: nothing is left to write where that is wrong. -/
def identify (method : Value) (sc : Class) (data : Bytes) (msg : Message) : Except Fault (Message × Option Bytes) := do
  let onfly ← valueOf w.digest w.random data msg sc
  let stored ← valueOf w.digest w.again data msg sc
  let msg := msg.set "onfly_checksum" (Identity.identity method onfly)
  match ← checkSize o data msg with
  | none => return (msg, none)
  | some msg =>
    let msg := msg.set "data_checksum" (Identity.identity method stored)
    let msg ← Message.deleteOnPost msg ["onfly_checksum"]
    let msg ← Message.deleteOnPost msg ["data_checksum"]
    return (msg, some data)

/-- From the decoding to the checksums: the message, and the data unless the size is wrong. -/
def prepare (msg : Message) : Except Fault (Message × Option Bytes) := do
  let data ← decoded w msg
  let method ← algo_method o msg
  (factory method).elim (.error .attributeError) fun sc => identify w o method sc data msg

/-- From the open file on: what was prepared is written, with the attributes of the file. -/
def write (opened : File) (msg : Message) : Except Fault (Message × Option Bytes) → Option File × Message × Except Fault Bool
  | .error e => (some opened, msg, .error e)
  | .ok (msg, none) => (some opened, msg, .ok false)
  | .ok (msg, some data) =>
    match Identity.set_local_file_attributes w.toWorld o.toOptions { opened with content := data, mtime := w.now } msg with
    | (f, .error _) => (some f, msg, .ok false)
    | (f, .ok ()) => (some f, msg, .ok true)

/-- `write_inline_file`: the destination, the message, and the answer. The file is there once it is opened, whatever happens. -/
def write_inline_file (msg : Message) (file : Option File) : Option File × Message × Except Fault Bool :=
  match msg.item "new_dir" >>= Value.asStr with
  | .error e => (file, msg, .error e)
  | .ok _ =>
    if !w.isdir && !w.makedirs then (file, msg, .ok false)
    else match msg.item "new_file" >>= Value.asStr with
      | .error e => (file, msg, .error e)
      | .ok _ =>
        if !w.opens then (file, msg, .ok false)
        else write w o (file.getD ⟨[], w.now, []⟩) msg (prepare w o msg)

end Writing
end Sarracenia.Source.Inline
