import Sarracenia.Library.Decimal
import Sarracenia.Source.PostFormat
import Sarracenia.Source.Transfer

/-!
# Bulletins from a socket (`sarracenia/flowcb/gather/am.py`)

The frames of the AM protocol, as `recv` brings them. The codec of `inputCharset`, and what the
bulletin handler and the message answer for the frames in turn, are given from outside.
-/
namespace Sarracenia.Source.Am
open Library Library.Text Library.Dynamic
open Source.Transfer (Bytes)
open Source.PostFormat (base64)

structure Options where
  directory : Str
  inputCharset : Str
  binaryInitialCharacters : List Bytes
  identity_method : Str

/-- What the rest answers for one frame: a random number, the station, the corrected contents
and whether they are a problem, and the parts of the message. -/
structure Moment where
  randint : Fin 100000
  getStation : Str → Except Fault Str
  correctContents : Bytes → Str → Str → Except Fault (Bytes × Bool)
  fromFileInfo : Str → Except Fault Message
  updatePaths : Str → Str → Message → Except Fault Message
  ident : Bytes → Except Fault Value

structure State where
  inBuffer : Bytes
  /-- How many frames were taken out of the buffer. -/
  taken : Nat

/-- What `conn.recv` does. -/
inductive Recv where
  | data (tmp : Bytes)
  | timeout
  | failed

/-! ## Frames -/

/-- `struct.calcsize('80sII4siIII20s')`. -/
def sizeAM : Nat := 128

/-- The first field. -/
def headerOf (frame : Bytes) : Bytes := frame.take 80

/-- `socket.ntohl` of the length: its first byte is the most significant. -/
def lengthOf (frame : Bytes) : Nat := ((frame.drop 96).take 4).foldl (fun n b => 256 * n + b.toNat) 0

/-- What is in the buffer then, unless the process exits. -/
def addBuffer (inBuffer : Bytes) : Recv → Option Bytes
  | .data [] => none
  | .data tmp => some (inBuffer ++ tmp)
  | .timeout => some inBuffer
  | .failed => none

/-- Whether the status is `OK`. -/
def checkNextMsgStatus (inBuffer : Bytes) : Bool :=
  if sizeAM ≤ inBuffer.length then decide (sizeAM + lengthOf inBuffer ≤ inBuffer.length) else false

/-- `bytes.splitlines()`. -/
def splitlines : Bytes → List Bytes
  | [] => []
  | 13 :: 10 :: s => [] :: splitlines s
  | 13 :: s => [] :: splitlines s
  | 10 :: s => [] :: splitlines s
  | b :: s =>
    match splitlines s with
    | [] => [[b]]
    | line :: rest => (b :: line) :: rest

/-! ## One frame -/

section Frame
variable (decode : Bytes → Except Fault Str) (o : Options) (now : Moment)

/-- The contents to be posted, whether they are binary, and whether there is a problem. -/
structure Treated where
  bulletin : Bytes
  binary : Bool
  isProblem : Bool

/-- `lines[1][:4] in self.o.binaryInitialCharacters`, where there is a second line. -/
def isBinary (bulletin : Bytes) : Bool :=
  (splitlines bulletin)[1]?.elim false fun line => decide (line.take 4 ∈ o.binaryInitialCharacters)

def corrected (bulletin : Bytes) (firstchars : Str) : Except Fault (Bytes × Bool) := do
  let station ← now.getStation (← decode bulletin)
  now.correctContents bulletin firstchars station

/-- With an exception the contents stay as they are. -/
def treat (bulletin : Bytes) (firstchars : Str) : Treated :=
  if (splitlines bulletin).length ≤ 1 then ⟨bulletin, false, false⟩
  else if isBinary o bulletin then ⟨bulletin, true, false⟩
  else
    match corrected decode now bulletin firstchars with
    | .error _ => ⟨bulletin, false, false⟩
    | .ok (new_bulletin, isProblem) => ⟨if new_bulletin = [] then bulletin else new_bulletin, false, isProblem⟩

def content (t : Treated) : Except Fault Value :=
  if t.binary then
    .ok (.dict [("encoding", .str "base64".toList), ("value", .str (base64 (t.bulletin.map UInt8.toNat)))])
  else do
    return .dict [("encoding", .str o.inputCharset), ("value", .str (← decode t.bulletin))]

/-- The header, the double underscore and the number. -/
def filename (bulletinHeader : Str) : Str := bulletinHeader ++ "__".toList ++ Decimal.pad 5 now.randint

/-- The fields that are set before the paths are. -/
def described (t : Treated) (content : Value) (filename : Str) (msg : Message) : Message :=
  ((((msg.set "content" content).set "isProblem" (.bool t.isProblem)).set "size" (.int t.bulletin.length)).set
    "new_file" (.str filename)).set "new_dir" (.str o.directory)

def message (bulletinHeader : Str) (t : Treated) : Except Fault Message := do
  let filename := filename now bulletinHeader
  let msg ← now.fromFileInfo (o.directory ++ '/' :: filename)
  let content ← content decode o t
  let msg ← now.updatePaths o.directory filename (described o t content filename msg)
  let value ← now.ident t.bulletin
  return msg.set "identity" (.dict [("method", .str o.identity_method), ("value", value)])

/-- `parse[0].decode(charset).replace(' ', '_')`. -/
def bulletinHeader (header : Bytes) : Except Fault Str := do
  return replaceAll [' '] ['_'] (← decode (header.takeWhile (· ≠ 0)))

/-- A message, or none where an exception is logged; the one of the header is not caught. -/
def ingest (header bulletin : Bytes) : Except Fault (Option Message) := do
  let bulletinHeader ← bulletinHeader decode header
  return (message decode o now bulletinHeader (treat decode o now bulletin (bulletinHeader.take 2))).toOption

end Frame

/-! ## Gathering -/

section Gather
variable (decode : Bytes → Except Fault Str) (o : Options) (moments : Nat → Moment)

/-- The loop, for as many turns as there are bytes at most. -/
def gatherLoop : Nat → State → List Message → State × Except Fault (List Message)
  | 0, s, newmsg => (s, .ok newmsg)
  | fuel + 1, s, newmsg =>
    if checkNextMsgStatus s.inBuffer then
      let longlen := sizeAM + lengthOf s.inBuffer
      let bulletin := (s.inBuffer.drop sizeAM).take (lengthOf s.inBuffer)
      let next : State := ⟨s.inBuffer.drop longlen, s.taken + 1⟩
      match ingest decode o (moments s.taken) (headerOf s.inBuffer) bulletin with
      | .error fault => (next, .error fault)
      | .ok msg => gatherLoop fuel next (newmsg ++ msg.toList)
    else (s, .ok newmsg)

/-- `none` where the process exits. -/
def gather (r : Recv) (s : State) : Option (State × Except Fault (List Message)) :=
  (addBuffer s.inBuffer r).map fun inBuffer =>
    gatherLoop decode o moments inBuffer.length { s with inBuffer } []

end Gather
end Sarracenia.Source.Am
