import Sarracenia.Source.Message

/-!
# The retry plugin (`sarracenia/flowcb/retry.py`)

A message object is its fields together with a note that no function of the plugin looks
at. A queue is asked with `get`, which gives the messages it hands out for a quantity, and
`waiting` is its length; what is put on a queue is part of the answer. The messages that are
given up leave only a line in the log, which is kept here as the list of them.
-/
namespace Sarracenia.Source.Retry
open Library Library.Text Library.Dynamic

/-- A flow handles its messages in batches of at least one. -/
structure Options where
  retry_refilter : Bool
  retryCountMax : Int
  batch : Nat
  batch_pos : 0 < batch

abbrev Object (τ : Type) := τ × Message

section Count

/-- A retry counter that is no integer starts again at one. -/
def countRetry (msg : Message) : Message :=
  match msg.get "_isRetry" with
  | some (.int count) => msg.set "_isRetry" (.int (count + 1))
  | _ => msg.set "_isRetry" (.int 1)

/-- `__set_isRetry`. -/
def set_isRetry (msg : Message) : Except Fault Message :=
  let msg := countRetry msg
  match msg.get "_deleteOnPost" with
  | none => .ok (msg.set "_deleteOnPost" (.set ["_isRetry"]))
  | some (.set members) => .ok <| msg.set "_deleteOnPost" <| .set <|
      if "_isRetry" ∈ members then members else members ++ ["_isRetry"]
  | some _ => .error .attributeError

/-- Whether the message has used up its retries. -/
def exceeded (o : Options) (msg : Message) : Except Fault Bool :=
  if o.retryCountMax ≤ 0 then .ok false
  else do
    let count ← (msg.get "_isRetry").elim (.ok 0) Value.asNumber
    return decide ((o.retryCountMax : ℚ) < count)

/-- The calculated values are forgotten, so that the message is filtered from scratch. -/
def forgetCalculated : List String → Message → Except Fault Message
  | [], msg => .ok msg
  | k :: ks, msg =>
    if k = "local_offset" ∨ (msg.get k).isNone then forgetCalculated ks msg
    else do
      let calculated ← (← msg.item "_deleteOnPost").has k
      if calculated || k.toList.take 4 = "new_".toList then forgetCalculated ks (msg.del k)
      else forgetCalculated ks msg

end Count

section Plugin
variable {τ : Type} (o : Options)

/-- One change to every message of a list. -/
def eachMessage (change : Message → Except Fault Message) (messages : List (Object τ)) :
    Except Fault (List (Object τ)) :=
  messages.mapM fun (note, msg) => (change msg).map fun msg => (note, msg)

/-- The messages kept, and the ones given up. -/
def filter_by_retry_count :
    List (Object τ) → Except Fault (List (Object τ) × List (Object τ))
  | [] => .ok ([], [])
  | m :: messages => do
    let spent ← exceeded o m.2
    let (kept, gaveUp) ← filter_by_retry_count messages
    return if spent then (kept, m :: gaveUp) else (m :: kept, gaveUp)

def gather (qty : Int) (get : Int → List (Object τ)) :
    Except Fault (List (Object τ) × List (Object τ)) :=
  if !o.retry_refilter || qty ≤ 0 then .ok ([], [])
  else do
    let message_list ← eachMessage (fun msg => do
      set_isRetry (← forgetCalculated (msg.map (·.1)) msg)) (get qty)
    filter_by_retry_count o message_list

/-- The messages that join `worklist.incoming`, of which there are `incoming`. -/
def after_accept (incoming waiting : Int) (get : ℚ → List (Object τ)) :
    Except Fault (List (Object τ) × List (Object τ)) :=
  if o.retry_refilter || waiting < 1 then .ok ([], [])
  else
    let qty := (o.batch : ℚ) / 2 - incoming
    if qty ≤ 0 then .ok ([], [])
    else do
      let mlist ← eachMessage set_isRetry (get qty)
      filter_by_retry_count o mlist

/-- What is put on the retry queue out of `worklist.failed`, and what is given up. -/
def requeue (failed : List (Object τ)) : Except Fault (List (Object τ) × List (Object τ)) := do
  filter_by_retry_count o (← eachMessage set_isRetry failed)

/-- How many failed posts `after_work` asks for, with `ok` messages to post already. -/
def room (ok : Int) : Int :=
  if 2 < o.batch then o.batch / 2 - ok else if ok < o.batch then o.batch - ok else 0

/-- What `after_work` puts on the download retry queue, what it gives up, and what it takes
from the post retry queue for `worklist.ok`. -/
def after_work (failed : List (Object τ)) (ok waiting : Int) (get : Int → List (Object τ)) :
    Except Fault (List (Object τ) × List (Object τ) × List (Object τ)) := do
  let (to_retry, gaveUp) ← requeue o failed
  return (to_retry, gaveUp, if waiting < 1 ∨ room o ok ≤ 0 then [] else get (room o ok))

def after_post (failed : List (Object τ)) : Except Fault (List (Object τ) × List (Object τ)) :=
  requeue o failed

end Plugin
end Sarracenia.Source.Retry
