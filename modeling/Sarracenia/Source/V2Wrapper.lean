import Sarracenia.Source.PostFormat

/-!
# Messages as version 2 has them (`sarracenia/flowcb/v2wrapper.py`)

What is made of a message for a notice in version 2: the notice, and the message with the
headers put in. The digests, and the reading of a URL, come from outside. The numbers that key a
manifest are written as texts.
-/
namespace Sarracenia.Source.V2Wrapper
open Library Library.Text Library.Dynamic Source.TimeNotation Source.PostFormat

/-- The hexadecimal digests of a text. -/
structure Digests where
  md5 : Str → Str
  sha512 : Str → Str

section Codecs

def hexChar (n : Nat) : Char := Char.ofNat (if n < 10 then '0'.toNat + n else 'a'.toNat + (n - 10))

/-- `encode(bytes, 'hex')`. -/
def hex (bytes : List Nat) : Str := bytes.flatMap fun b => [hexChar (b / 16), hexChar (b % 16)]

def base64Value (c : Char) : Option Nat :=
  if 'A' ≤ c ∧ c ≤ 'Z' then some (c.toNat - 'A'.toNat)
  else if 'a' ≤ c ∧ c ≤ 'z' then some (c.toNat - 'a'.toNat + 26)
  else if '0' ≤ c ∧ c ≤ '9' then some (c.toNat - '0'.toNat + 52)
  else if c = '+' then some 62
  else if c = '/' then some 63
  else none

/-- `decode(text, 'base64')`, with `quad_pos` digits of a group of four read, `leftchar` left of
them and `pads` padding since. What is no digit is passed over; a full padding ends the text. -/
def a2b_base64 (quad_pos leftchar pads : Nat) : Str → Option (List Nat)
  | [] => if quad_pos = 0 then some [] else none
  | c :: s =>
    if c = '=' then
      if 2 ≤ quad_pos then
        if 4 ≤ quad_pos + (pads + 1) then some [] else a2b_base64 quad_pos leftchar (pads + 1) s
      else a2b_base64 quad_pos leftchar pads s
    else
      match base64Value c, quad_pos with
      | none, _ => a2b_base64 quad_pos leftchar pads s
      | some v, 0 => a2b_base64 1 v 0 s
      | some v, 1 => (a2b_base64 2 (v % 16) 0 s).map ((leftchar * 4 + v / 16) :: ·)
      | some v, 2 => (a2b_base64 3 (v % 4) 0 s).map ((leftchar * 16 + v / 4) :: ·)
      | some v, _ => (a2b_base64 0 0 0 s).map ((leftchar * 64 + v) :: ·)

end Codecs

section Values

/-- A method of texts that takes the letter `T` out. -/
def withoutT (v : Value) : Except Fault Str := do return replaceAll ['T'] [] (← text v)

/-- `'%d' % v`. -/
def decimal : Value → Except Fault Str
  | .int i => .ok (numberKey i).toList
  | .bool b => .ok (numberKey b.toNat).toList
  | .float q => .ok (numberKey (q.num.tdiv q.den)).toList
  | _ => .error .typeError

def length : Value → Except Fault Nat
  | .str s => .ok s.length
  | .list vs => .ok vs.length
  | .dict entries => .ok entries.length
  | .set members => .ok members.length
  | _ => .error .typeError

/-- `manifest[number]`. -/
def entryAt : Value → Value → Except Fault Value
  | .dict entries, .int i => Dict.item entries (numberKey i)
  | .dict entries, .bool b => Dict.item entries (numberKey b.toNat)
  | .dict entries, .float q => if q.den = 1 then Dict.item entries (numberKey q.num) else .error .keyError
  | .dict _, .none => .error .keyError
  | .dict _, .str _ => .error .keyError
  | .dict _, .matched _ => .error .keyError
  | .list vs, number => index vs number
  | _, _ => .error .typeError

end Values

/-! ## The sum -/

section Sum
variable (digests : Digests)

def sum_algo_v3tov2 : List (Str × Char) :=
  [("arbitrary".toList, 'a'), ("md5".toList, 'd'), ("sha512".toList, 's'), ("md5name".toList, 'n'),
    ("random".toList, '0'), ("link".toList, 'L'), ("remove".toList, 'R'), ("cod".toList, 'z')]

/-- A look in the table; what cannot be hashed raises. -/
def algorithm : Value → Except Fault (Option Char)
  | .str name => .ok (sum_algo_v3tov2.lookup name)
  | .list _ => .error .typeError
  | .dict _ => .error .typeError
  | .set _ => .error .typeError
  | _ => .ok none

/-- `os.path.basename(msg['relPath'])`. -/
def basename (msg : Message) : Except Fault Str := do
  return lastPiece ['/'] (← (← msg.item "relPath").asStr)

/-- The sum of an identity. For a method that is not known the digest of the name is taken, but
the value overwrites it. -/
def identitySum (msg : Message) (identity : Value) : Except Fault Str := do
  let sa ← match ← algorithm (← identity.item "method") with
    | some sa => .ok sa
    | none => (basename msg).map fun _ => 'n'
  let value ← identity.item "value"
  if sa = '0' ∨ sa = 'a' then return sa :: ',' :: (← value.asStr)
  else if sa = 'z' then
    match ← algorithm value with
    | some sv => return [sa, ',', sv]
    | none => .error .keyError
  else
    match a2b_base64 0 0 0 (← text value) with
    | some bytes => return sa :: ',' :: hex bytes
    | none => .error .valueError

/-- The sum without a file operation. -/
def plainSum (msg : Message) : Except Fault Str :=
  match msg.get "identity" with
  | some identity => identitySum msg identity
  | none => do return 'n' :: ',' :: digests.md5 (← basename msg)

/-- The letter and the digest of a file operation; nothing where it is a renaming only. -/
def fileOpSum (msg : Message) (fileOp : Value) : Except Fault (Option Str) := do
  if ← fileOp.has "link" then
    return some ('L' :: ',' :: digests.sha512 (← (← fileOp.item "link").asStr))
  else if ← fileOp.has "remove" then return some ('R' :: ',' :: digests.sha512 (← basename msg))
  else if ← fileOp.has "directory" then
    if ← fileOp.has "remove" then return some ('r' :: ',' :: digests.sha512 (← basename msg))
    else return some ('m' :: ',' :: digests.sha512 (← basename msg))
  else return none

/-- The old name is put in the message. -/
def rename (msg : Message) (fileOp : Value) : Except Fault Message := do
  if ← fileOp.has "rename" then return msg.set "oldname" (← fileOp.item "rename") else return msg

def sumstrFromMessage (msg : Message) : Except Fault (Message × Str) := do
  let sumstr ← plainSum digests msg
  match msg.get "fileOp" with
  | none => return (msg, sumstr)
  | some fileOp => do
    let msg ← rename msg fileOp
    return (msg, (← fileOpSum digests msg fileOp).getD sumstr)

end Sum

/-! ## The message -/

section Wrapper
variable (lib : Standard) (digests : Digests)

def v2Time (field : String) (msg : Message) : Except Fault Message :=
  match msg.get field with
  | none => .ok msg
  | some t => do return msg.set field (.str (← withoutT t))

/-- A size that is a text becomes a number, and the parts are one. -/
def v2Size (msg : Message) : Except Fault Message :=
  match msg.get "size" with
  | none => .ok msg
  | some (.str s) => do
    let size ← int s
    return Dict.set (msg.set "size" (.int size)) "parts" (.str ("1,".toList ++ (numberKey size).toList ++ ",1,0,0".toList))
  | some size => do
    return msg.set "parts" (.str ("1,".toList ++ (← decimal size) ++ ",1,0,0".toList))

/-- The remainder and the number: of the block that is meant, or the size of the last one. -/
def numbered (p : Value) : Except Fault (Value × Value) := do
  if ← p.has "number" then
    let number ← p.item "number"
    return (← (← entryAt (← p.item "manifest") number).item "size", number)
  else if ← p.has "manifest" then
    let manifest ← p.item "manifest"
    return (← (← entryAt manifest (.int ((← length manifest) - 1))).item "size", .int 0)
  else return (.int 0, .int 0)

/-- `'%s,%d,%d,%d,%d' % (m, p['size'], len(p['manifest']), remainder, number)`. -/
def blocksParts (p : Value) : Except Fault Str := do
  let method ← p.item "method"
  let m := if method.equals "inplace".toList then 'i' else 'p'
  let (remainder, number) ← numbered p
  let size ← p.item "size"
  let count ← length (← p.item "manifest")
  return join [','] [[m], ← decimal size, (numberKey count).toList, ← decimal remainder, ← decimal number]

def v2Blocks (msg : Message) : Except Fault Message :=
  match msg.get "blocks" with
  | none => .ok msg
  | some p => do return msg.set "parts" (.str (← blocksParts p))

/-- `relPath.replace(' ', '%20').replace('#', '%23')`. -/
def escape (relPath : Str) : Str := replaceAll ['#'] "%23".toList (replaceAll [' '] "%20".toList relPath)

/-- The notice. -/
def notice (pubTime baseUrl relPath : Str) : Str :=
  replaceAll ['T'] [] pubTime ++ ' ' :: baseUrl ++ ' ' :: escape relPath

/-- `[ 'v02', 'post' ] + relpath.split('/')[0:-1]`. -/
def v2Topic (relPath : Str) : Value :=
  .list (.str "v02".toList :: .str "post".toList :: (split ['/'] relPath).dropLast.map .str)

/-- The headers, in the message itself; `oldname` is set once more in the end. -/
def v2Headers (relPath : Str) (msg : Message) : Except Fault Message := do
  let msg ← v2Time "atime" (← v2Time "mtime" msg)
  let msg ← v2Blocks (← v2Size msg)
  let (msg, sumstr) ← sumstrFromMessage digests (Dict.set msg "topic" (v2Topic relPath))
  return Dict.set msg "sum" (.str sumstr)

/-- Where there is a `new_dir`, the `new_file` is read. -/
def newFile (msg : Message) : Except Fault Unit :=
  if (msg.get "new_dir").isSome then (msg.item "new_file").map fun _ => () else .ok ()

/-- `Message(h)`: the notice, and the message it is then. -/
def v2Message (msg : Message) : Except Fault (Str × Message) := do
  let pubTime ← text (← msg.item "pubTime")
  let baseUrl ← (← msg.item "baseUrl").asStr
  let relPath ← (← msg.item "relPath").asStr
  newFile msg
  let _ ← lib.urlparse (baseUrl ++ relPath)
  return (notice pubTime baseUrl relPath, ← v2Headers digests relPath msg)

end Wrapper
end Sarracenia.Source.V2Wrapper
