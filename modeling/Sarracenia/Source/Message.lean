import Sarracenia.Source.TimeNotation

/-!
# Messages (`class Message` of `sarracenia/__init__.py`)

A message is a dictionary. The texts of the log and the wall clock are left out:
`now` is what `nowstr()` gives.
-/
namespace Sarracenia.Source
open Library Library.Text Library.Dynamic Source.TimeNotation

/-- A message: a dictionary of notice fields. -/
abbrev Message := Dict Value

namespace Message

/-- `msg['_deleteOnPost'] |= set([...])`. -/
def deleteOnPost (msg : Message) (fields : List String) : Except Fault Message := do
  match ← msg.item "_deleteOnPost" with
  | .set members =>
    return msg.set "_deleteOnPost" (.set (members ++ fields.filter fun f => f ∉ members))
  | _ => .error .typeError

/-- An earlier report is read for the log before it is replaced. -/
def setReport (now : Str) (msg : Message) (code : Int) (text : Str) : Except Fault Message := do
  match msg.get "report" with
  | none => pure ()
  | some report => do
    let _ ← report.item "code"
    let _ ← report.item "message"
  let report : Dict Value :=
    [("code", .int code), ("timeCompleted", .str now), ("message", .str text)]
  deleteOnPost (msg.set "report" (.dict report)) ["report"]

def isRetry (msg : Message) : Bool := (msg.get "_isRetry").elim false Value.truthy

/-- The text a message is known by in reports. -/
def getIDStr (msg : Message) : Except Fault Str := do
  let s ← match msg.get "baseUrl" with
    | none => .ok "baseUrl missing ".toList
    | some baseUrl => baseUrl.asStr.map (· ++ [' '])
  let path (field : String) : Except Fault Str := (msg.get field).elim (.ok []) Value.asStr
  let relPath ← path "relPath"
  let path ← if relPath ≠ [] then .ok relPath else path "retrievePath"
  match path with
  | [] => return s ++ "badMessage".toList
  | c :: _ => return (if c ≠ '/' ∧ s.getLast? ≠ some '/' then s ++ ['/'] else s) ++ path

/-- `timeValidate` of whatever stands for a time: a list or a dictionary is measured too. -/
def timeValidate (letters : Char → Bool) : Value → Except Fault Bool
  | .str s => .ok (TimeNotation.timeValidate letters s)
  | .list vs =>
    let is_ (i : Nat) (s : String) : Bool := vs[i]?.elim false (Value.equals s.toList)
    if vs.length < 14 then .ok false
    else if vs.length > 14 && !is_ 8 "T" && !is_ 14 "." then .ok false
    else if vs.length > 15 && is_ 8 "T" && !is_ 15 "." then .ok false
    else .error .attributeError
  | .dict entries => if entries.length < 14 then .ok false else .error .keyError
  | .set members => if members.length < 14 then .ok false else .error .typeError
  | _ => .error .typeError

/-- Whether the message looks right: `pubTime` is read even when it is missing. -/
def validate (letters : Char → Bool) (msg : Message) : Except Fault Bool := do
  let present := ["pubTime", "baseUrl", "relPath"].all fun key => (msg.get key).isSome
  let valid ← timeValidate letters (← msg.item "pubTime")
  return present && valid

/-- `Message()`, in a format. -/
def new (format : String) : Message :=
  [("_format", .str format.toList), ("_deleteOnPost", .set ["_format"])]

end Message
end Sarracenia.Source
