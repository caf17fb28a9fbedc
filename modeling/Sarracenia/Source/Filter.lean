import Sarracenia.Source.Placement
import Sarracenia.Source.TimeNotation

/-!
# The mask loop of `Flow.filter` (`sarracenia/flow/__init__.py`)

Messages are objects: `Held` keeps which one it is apart from the fields, which change on
the way. What follows the loop, the callbacks and the acknowledgements, is left out.
-/
namespace Sarracenia.Source.Filter
open Library Library.Text Library.Dynamic Source.TimeNotation Source.Config Source.Placement

/-- A message object: which one it is, and its fields. -/
structure Held where
  tag : Nat
  fields : Message

structure Worklist where
  incoming : List Held
  ok : List Held
  rejected : List Held
  failed : List Held

/-- What becomes of one message: put on a worklist, or on none. -/
inductive Fate where
  | accepted | rejected | failed | dropped
  deriving DecidableEq, Repr

section Step
variable (w : World) (o : Options) (steps : Nat)

/-- `reject`: the report is written once the message is on the list. -/
def reject (msg : Message) (code : Int) (reason : Str) : Except Fault (Message × Fate) :=
  (msg.setReport w.nowstr code reason).map fun msg => (msg, .rejected)

inductive Age where
  | messageTooOld (lag : ℚ)
  | fileTooOld (age : ℚ)
  | fileTooYoung
  | inTime
  deriving DecidableEq, Repr

def timeOf (msg : Message) (field : String) : Except Fault ℚ := do
  timestr2flt (← (← msg.item field).asStr)

def ageOf (msg : Message) : Except Fault Age := do
  let lag := w.now - (← timeOf msg "pubTime")
  if o.messageAgeMax ≠ 0 ∧ o.messageAgeMax < lag then return .messageTooOld lag
  if (msg.get "mtime").isNone then return .inTime
  let age := w.now - (← timeOf msg "mtime")
  if 0 < o.fileAgeMax ∧ o.fileAgeMax < age then return .fileTooOld age
  if o.component ≠ "poll".toList ∧ 0 < o.fileAgeMin ∧ age < o.fileAgeMin then
    return .fileTooYoung
  return .inTime

/-- `'fileOp' in m and 'rename' in m['fileOp']`. -/
def isRename (msg : Message) : Except Fault Bool :=
  match msg.get "fileOp" with
  | none => .ok false
  | some fileOp => fileOp.has "rename"

/-- The URL with the extension of the product name, unless it seems to have one. -/
def urlToMatch (msg : Message) (url : Str) : Except Fault Str :=
  match msg.get "sundew_extension" with
  | none => .ok url
  | some extension =>
    if url.count ':' < 3 then extension.asStr.map fun extension => url ++ ':' :: extension
    else .ok url

/-- A mask that matches everything, or one whose pattern matches: what it found, if it was
asked. -/
def finds (mask : Mask) (url : Str) : Option (Option (List (Option Str))) :=
  if mask.pattern = ".*".toList then some none else (mask.regexp url).map some

/-- `m['_matches'] = matches`. -/
def recordMatch (found : Option (List (Option Str))) (msg : Message) : Except Fault Message :=
  match found with
  | none => .ok msg
  | some groups => Message.deleteOnPost (msg.set "_matches" (.matched groups)) ["_matches"]

def recordIndex (mask_index : Nat) (msg : Message) : Except Fault Message :=
  Message.deleteOnPost (msg.set "_mask_index" (.int mask_index)) ["_mask_index"]

/-- The loop over the masks for the old name of a rename: it ends with the first mask. -/
def matchOldName (url : Str) (msg : Message) : Except Fault (Bool × Message) :=
  match o.masks with
  | [] => .ok (false, msg)
  | none :: _ => .error .typeError
  | some mask :: _ =>
    match finds mask url with
    | none => .ok (false, msg)
    | some found => do
      let msg ← recordMatch found msg
      return (mask.accepting, ← recordIndex 0 msg)

/-- Whether the old name is accepted, and the message with what the match left in it. -/
def oldName (msg : Message) : Except Fault (Bool × Message) := do
  if ← isRename msg then
    let base ← variableExpansion w o steps (← (← msg.item "baseUrl").asStr) msg
    let old ← (← (← msg.item "fileOp").item "rename").asStr
    let url ← urlToMatch msg (base ++ '/' :: old)
    matchOldName o url msg
  else return (false, msg)

/-- The URL of the message, one slash between its parts. -/
def urlOf (msg : Message) : Except Fault Str := do
  let baseUrl ← (← msg.item "baseUrl").asStr
  let relPath ← (← msg.item "relPath").asStr
  let url ← variableExpansion w o steps baseUrl msg
  match baseUrl.getLast? with
  | none => .error .indexError
  | some last =>
    if last = '/' ∧ relPath.head? = some '/' then return url ++ relPath.drop 1
    else if last = '/' ∨ relPath.head? = some '/' then return url ++ relPath
    else return url ++ '/' :: relPath

/-- The first mask that matches, its index, and what it found. -/
def firstMatch (url : Str) :
    List (Option Mask) → Nat → Except Fault (Option (Mask × Nat × Option (List (Option Str))))
  | [], _ => .ok none
  | none :: _, _ => .error .typeError
  | some mask :: masks, i =>
    match finds mask url with
    | some found => .ok (some (mask, i, found))
    | none => firstMatch url masks (i + 1)

def ruleOf (mask : Mask) : Rule :=
  ⟨some mask.findall, mask.maskDir, mask.maskFileOption, mask.mirror, mask.strip, mask.pstrip,
    mask.flatten⟩

/-- The rule for a message that no mask matches. -/
def defaultRule : Rule :=
  ⟨none, o.directory, o.filename, o.mirror, o.strip, o.pstrip, o.flatten⟩

/-- `updateFieldsAccepted`, and the worklist its answer stands for. -/
def place (r : Rule) (url : Str) (msg : Message) : Except Fault (Message × Fate) := do
  let (msg, placed) ← updateFieldsAccepted w o steps r url msg
  if placed then return (msg, .accepted)
  else reject w msg 404 ("unable to update fields ".toList ++ url)

/-- The rename takes the file out of what is accepted: it is to be removed. -/
def renameUnlink (msg : Message) : Except Fault Message :=
  if (msg.get "renameUnlink").isSome then .ok msg
  else Message.deleteOnPost (msg.set "renameUnlink" (.bool true)) ["renameUnlink"]

/-- The masks for the new name. -/
def select (oldname_matched : Bool) (msg : Message) : Except Fault (Message × Fate) := do
  let url ← urlOf w o steps msg
  let toMatch ← urlToMatch msg url
  match ← firstMatch toMatch o.masks 0 with
  | some (mask, mask_index, found) =>
    let msg ← recordMatch found msg
    if !mask.accepting then
      if (← isRename msg) && oldname_matched then
        -- the loop over the masks is left, and the message is on no list
        return (← renameUnlink msg, .dropped)
      else reject w msg 404 ("mask=".toList ++ mask.text ++ " strip=".toList ++
        Nat.toDigits 10 mask.strip ++ " url=".toList ++ toMatch)
    else place w o steps (ruleOf mask) url (← recordIndex mask_index msg)
  | none =>
    if (← isRename msg) && oldname_matched then
      place w o steps (defaultRule o) url (← renameUnlink msg)
    else if o.acceptUnmatched then place w o steps (defaultRule o) url msg
    else reject w msg 404 ("unmatched pattern ".toList ++ url)

/-- The body of the loop, for one message. -/
def classify (msg : Message) : Except Fault (Message × Fate) := do
  match ← ageOf w o msg with
  | .messageTooOld lag => reject w msg 504 ("message too old (high lag): ".toList ++
      w.general lag ++ " sec. skipping: ".toList ++ (← msg.getIDStr) ++ ", ".toList)
  | .fileTooOld age => reject w msg 410 ("file too old: ".toList ++ w.general age ++
      " sec. skipping: ".toList ++ (← msg.getIDStr) ++ ", ".toList)
  | .fileTooYoung => return (msg, .failed)
  | .inTime =>
    let (oldname_matched, msg) ← oldName w o steps msg
    select w o steps oldname_matched msg

end Step

section Loop
variable (w : World) (o : Options) (steps : Nat)

/-- What the loop has put on each list so far. -/
structure Sorted where
  filtered : List Held
  rejected : List Held
  failed : List Held

def Sorted.add (fate : Fate) (h : Held) (s : Sorted) : Sorted :=
  match fate with
  | .accepted => { s with filtered := s.filtered ++ [h] }
  | .rejected => { s with rejected := s.rejected ++ [h] }
  | .failed => { s with failed := s.failed ++ [h] }
  | .dropped => s

def filterLoop : List Held → Sorted → Except Fault Sorted
  | [], s => .ok s
  | h :: hs, s => do
    let (fields, fate) ← classify w o steps h.fields
    filterLoop hs (s.add fate ⟨h.tag, fields⟩)

/-- The mask loop, from the worklist it starts with to the one it leaves. -/
def filter (worklist : Worklist) : Except Fault Worklist := do
  let s ← filterLoop w o steps worklist.incoming ⟨[], worklist.rejected, worklist.failed⟩
  return { worklist with incoming := s.filtered, rejected := s.rejected, failed := s.failed }

end Loop

end Sarracenia.Source.Filter
