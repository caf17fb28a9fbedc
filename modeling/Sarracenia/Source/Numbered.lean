import Sarracenia.Library.Table
import Sarracenia.Source.Export

/-!
# Notices of version 3, with the numbers of their blocks (`sarracenia/postformat/v03.py`)

A manifest is keyed by numbers in a message, and by texts in a notice: here the two are told
apart. What is posted is the message without the fields that are marked; the choice of an exchange,
the connection and the other formats to post in are left out. The writing of a JSON text comes from
outside.
-/
namespace Sarracenia.Source.Numbered
open Library Library.Text Library.Dynamic Source.TimeNotation Source.PostFormat Source.Export

/-- A field: a value whose keys are texts, or blocks with their manifest among other entries. -/
inductive Field where
  | value (v : Value)
  | numbered (before : Dict Value) (manifest : Table Int Value) (after : Dict Value)

/-- The numbers of a manifest as texts. -/
def texts (manifest : Table Int Value) : Dict Value := manifest.entries.map fun block => (numberKey block.1, block.2)

/-- What a notice has of a field: a number is written as a text. -/
def Field.written : Field → Value
  | value v => v
  | numbered before manifest after => .dict (before ++ ("manifest", .dict (texts manifest)) :: after)

def written (msg : Dict Field) : Message := msg.map fun field => (field.1, field.2.written)

/-- A message without numbers. -/
def unnumbered (msg : Message) : Dict Field := msg.map fun field => (field.1, .value field.2)

/-! ## Posting -/

section Post
variable (dumps : Dict Field → Except Fault Str) (p : Publisher)

/-- A member that is looked for among the fields: what cannot be hashed raises. -/
def member : Value → Except Fault (Option String)
  | .str s => .ok (some (String.ofList s))
  | .list _ => .error .typeError
  | .dict _ => .error .typeError
  | .set _ => .error .typeError
  | _ => .ok none

/-- `for k in body['_deleteOnPost']`. -/
def marked : Value → Except Fault (List String)
  | .set members => .ok members
  | .list vs => do return (← vs.mapM member).filterMap id
  | .dict entries => .ok (entries.map (·.1))
  | .str s => .ok (s.map fun c => String.ofList [c])
  | _ => .error .typeError

/-- The copy that is posted. A mark that is marked itself is deleted twice. -/
def posted (msg : Dict Field) : Except Fault (Dict Field) :=
  match msg.get "_deleteOnPost" with
  | none => .ok msg
  | some marks => do
    let body := (← marked marks.written).foldl Dict.del msg
    if (body.get "_deleteOnPost").isSome then return body.del "_deleteOnPost" else .error .keyError

def V03.content_type : Str := "application/json".toList

def V03.exportMine (body : Dict Field) : Except Fault (Str × Dict Value) := do
  let raw_body ← dumps body
  return (raw_body, [("topic", .list (← topicDerive p (written body)))])

/-- The body, the headers and the content type of the notice: the topic is none of the headers. -/
def putNewMessage (message : Dict Field) : Except Fault (Str × Dict Value × Str) := do
  let body ← posted message
  let (raw_body, headers) ← V03.exportMine dumps p body
  match ← headers.item "topic" with
  | .list topic => do
    let _ ← topic.mapM Value.asStr
    return (raw_body, headers.del "topic", V03.content_type)
  | _ => .error .typeError

end Post

/-! ## Reading -/

section Read
variable (lib : Standard)

/-- `new_manifest[int(b)] = manifest[b]`, for each `b`. -/
def V03.numbers : Value → Except Fault (Table Int Value)
  | .dict entries =>
    entries.foldlM (fun new_manifest entry => do
      return new_manifest.set (← int entry.1.toList) entry.2) Table.empty
  | .list vs =>
    vs.foldlM (fun new_manifest b => do
      let v ← index vs b
      match b with
      | .int i => return new_manifest.set i v
      | .bool b => return new_manifest.set b.toNat v
      | _ => .error .typeError) Table.empty
  | .str s => if s.isEmpty then .ok Table.empty else .error .typeError
  | _ => .error .typeError

/-- The manifest of the blocks is keyed by numbers again. -/
def V03.renumber (msg : Message) : Except Fault (Dict Field) :=
  match msg.get "blocks" with
  | none => .ok (unnumbered msg)
  | some blocks => do
    if ← blocks.has "manifest" then
      let new_manifest ← V03.numbers (← blocks.item "manifest")
      match blocks with
      | .dict entries =>
        let (before, rest) := entries.span (·.1 ≠ "manifest")
        return Dict.set (unnumbered msg) "blocks" (.numbered before new_manifest rest.tail)
      | _ => .error .typeError
    else return unnumbered msg

/-- `V03.importMine`. -/
def V03.importMine (body : Str) : Except Fault (Option (Dict Field)) :=
  let copied : Except Fault Message :=
    match lib.loads body with
    | none => .error .valueError
    | some .none => .ok (Message.new "v03")
    | some json => copyInto [] json (Message.new "v03")
  match copied with
  | .error _ => .ok none
  | .ok msg => do
    let msg := renamed "integrity" "identity" (renamed "retPath" "retrievePath" msg)
    return some (← V03.renumber (← V03.parts msg))

/-- `PostFormat.importAny`. -/
def importAny (payload : Str) (headers : Headers) (content_type : Option Str) : Except Fault (Option (Dict Field)) := do
  if ← Wis.mine lib payload then return (← Wis.importMine lib payload headers).map unnumbered
  else if ← Swim.mine headers then return (← Swim.importMine lib payload (headers.getD [])).map unnumbered
  else if V03.mine content_type then V03.importMine lib payload
  else if ← V02.mine payload headers content_type then return (← V02.importMine payload headers).map unnumbered
  else return none

end Read
end Sarracenia.Source.Numbered
