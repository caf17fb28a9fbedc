import Sarracenia.Source.Filter

/-!
# The loop of `Flow.do_send` (`sarracenia/flow/__init__.py`)

`send` is a parameter: from the state of the connection and the fields of a message, what
one attempt leaves of both, and its answer. The variable of the last answer belongs to the
whole loop, so it is part of what one message hands on to the next.
-/
namespace Sarracenia.Source.DoSend
open Library Library.Text Library.Dynamic Source.Filter

structure Options where
  download : Bool
  fileSizeMax : Int
  fileEvents : List String
  attempts : Int

/-- The code and the text of a rejection. -/
abbrev Report := Int × Str

section Refusal
variable (o : Options) (msg : Message)

/-- `not field in msg or not msg[field]`. -/
def isMissing (field : String) : Bool := !(msg.get field).elim false Value.truthy

def tooLarge : Except Fault Bool :=
  match msg.get "size" with
  | none => .ok false
  | some size => if 0 < o.fileSizeMax then size.asNumber.map ((o.fileSizeMax : ℚ) < ·) else .ok false

/-- The file operations that are configured not to be done. -/
def weedOut (fileOp : Value) : Except Fault (Option Report) := do
  let directory ← fileOp.has "directory"
  let remove ← fileOp.has "remove"
  if directory && remove && "rmdir" ∉ o.fileEvents then
    return some (202, "skipping rmdir here.".toList)
  if remove && "delete" ∉ o.fileEvents then return some (202, "skipping delete here.".toList)
  if directory && "mkdir" ∉ o.fileEvents then return some (202, "skipping mkdir here.".toList)
  if (← fileOp.has "hlink") && "link" ∉ o.fileEvents then
    return some (202, "skipping hlink here.".toList)
  if (← fileOp.has "link") && "link" ∉ o.fileEvents then
    return some (202, "skipping link here.".toList)
  return none

/-- Why a message is not sent at all, if it is not. -/
def refusal : Except Fault (Option Report) := do
  if isMissing msg "new_dir" then
    return some (422, ("new_dir message field missing, do not know which directory to put file " ++
      "in. skipping.").toList)
  if isMissing msg "new_file" then
    return some (422,
      "new_file message field missing, do not know name of file to write. skipping.".toList)
  if ← tooLarge o msg then return some (413, "Payload Too Large ".toList ++ (← msg.getIDStr))
  match msg.get "fileOp" with
  | none => return none
  | some fileOp => weedOut o fileOp

end Refusal

section Loop
variable {σ : Type} (send : σ → Message → σ × Message × Int) (now : Str) (o : Options)

/-- Where the loop stands: the connection, the last answer, and the lists so far. -/
structure Progress (σ : Type) where
  connection : σ
  retval : Option Int
  ok : List Held
  rejected : List Held
  failed : List Held

/-- The attempts at one message, and the message they leave. -/
def attemptLoop : Nat → Held → Progress σ → Held × Progress σ
  | 0, h, p => (h, p)
  | n + 1, h, p =>
    let (connection, fields, retval) := send p.connection h.fields
    let h : Held := ⟨h.tag, fields⟩
    let p := { p with connection, retval := some retval }
    if 0 < retval then (h, { p with ok := p.ok ++ [h] })
    else if retval < 0 then (h, { p with rejected := p.rejected ++ [h] })
    else attemptLoop n h p

/-- The body of the loop; the answer may be missing when it is tested. -/
def sendOne (h : Held) (p : Progress σ) : Except Fault (Progress σ) := do
  match ← refusal o h.fields with
  | some (code, reason) =>
    let fields ← h.fields.setReport now code reason
    return { p with rejected := p.rejected ++ [⟨h.tag, fields⟩] }
  | none =>
    let (h, p) := attemptLoop send o.attempts.toNat h p
    match p.retval with
    | none => .error .nameError
    | some retval => return if retval = 0 then { p with failed := p.failed ++ [h] } else p

def sendLoop : List Held → Progress σ → Except Fault (Progress σ)
  | [], p => .ok p
  | h :: hs, p => do sendLoop hs (← sendOne send now o h p)

def do_send (connection : σ) (worklist : Worklist) : Except Fault (σ × Worklist) :=
  if !o.download then .ok (connection, { worklist with ok := worklist.incoming, incoming := [] })
  else do
    let p ← sendLoop send now o worklist.incoming
      ⟨connection, none, worklist.ok, worklist.rejected, worklist.failed⟩
    return (p.connection, ⟨[], p.ok, p.rejected, p.failed⟩)

end Loop
end Sarracenia.Source.DoSend
