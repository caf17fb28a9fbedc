import Sarracenia.Source.Retry

/-!
# Posting (`Message.post` of `sarracenia/flowcb/post/message.py`)

A poster is known by whether it has a `putNewMessage`: one that could not be created has
none. A call of it is a parameter: what it does to the brokers, its answer, and what it
records in the message. What was done for each message is kept beside the worklists.
-/
namespace Sarracenia.Source.Post
open Library Library.Text Library.Dynamic Source.Retry

inductive Answer where
  | published | refused | crashed
  deriving DecidableEq, Repr

/-- What a call comes to, and the value of `posts` it leaves in the message, listed for
deletion or not. -/
structure Delivery where
  answer : Answer
  posts : Option Value
  listed : Bool

def Delivery.record (d : Delivery) (msg : Message) : Message :=
  match d.posts with
  | none => msg
  | some posts =>
    let msg := msg.set "posts" posts
    if d.listed then
      match Message.deleteOnPost msg ["posts"] with
      | .ok msg => msg
      | .error _ => msg
    else msg

/-- A call of `putNewMessage`: which poster, and its answer. -/
structure Call where
  poster : Nat
  answer : Answer
  deriving DecidableEq, Repr

/-- The posting of one message: the brokers, the message, the calls and the failures. -/
structure Posting (σ : Type) where
  brokers : σ
  msg : Message
  calls : List Call
  failures : List Value

section One
variable {σ : Type} (putNewMessage : Nat → σ → Message → σ × Delivery)

def Posting.call (i : Nat) (failure : Value) (p : Posting σ) : Posting σ :=
  let (brokers, d) := putNewMessage i p.brokers p.msg
  { brokers
    msg := d.record p.msg
    calls := p.calls ++ [⟨i, d.answer⟩]
    failures := if d.answer = .published then p.failures else p.failures ++ [failure] }

def Posting.fail (i : Nat) (p : Posting σ) : Posting σ :=
  { p with failures := p.failures ++ [.int i] }

/-- `i in m['post_failures']`. -/
def inFailures (i : Nat) : Value → Except Fault Bool
  | .list vs => .ok <| vs.any fun v =>
      match v.asNumber with
      | .ok n => n = i
      | .error _ => false
  | .dict _ | .set _ => .ok false
  | _ => .error .typeError

/-- Whether a poster is to be tried: all are at first, then those that failed. -/
def isDue (i : Nat) (msg : Message) : Except Fault Bool :=
  match msg.get "post_failures" with
  | none => .ok true
  | some failures => inFailures i failures

/-- One poster in its turn, for a message that names no publisher. -/
def Posting.turn (present : Bool) (i : Nat) (p : Posting σ) : Posting σ :=
  if present then
    match isDue i p.msg with
    | .ok true => p.call putNewMessage i (.int i)
    | .ok false => p
    | .error _ => p.fail i
  else p.fail i

def postersLoop : List Bool → Nat → Posting σ → Posting σ
  | [], _, p => p
  | present :: posters, i, p => postersLoop posters (i + 1) (p.turn putNewMessage present i)

/-- A message that names its publisher goes to that one; where its poster could not be
created, nothing is recorded as a failure. -/
def postMessage (posters : List Bool) (brokers : σ) (msg : Message) :
    Except Fault (Posting σ) :=
  match msg.get "publisher_index" with
  | some publisher => do
    let (present, i) ← index posters.zipIdx publisher
    return if present then Posting.call putNewMessage i publisher ⟨brokers, msg, [], []⟩
      else ⟨brokers, msg, [], []⟩
  | none => .ok (postersLoop putNewMessage posters 0 ⟨brokers, msg, [], []⟩)

/-- The message as it is put on `worklist.ok`, or else on `worklist.failed`. -/
def Posting.settle (p : Posting σ) : Except Fault (Message × Bool) :=
  if p.failures.isEmpty then .ok (p.msg.del "post_failures", true)
  else (Message.deleteOnPost (p.msg.set "post_failures" (.list p.failures))
    ["post_failures"]).map fun msg => (msg, false)

end One

section Batch
variable {σ τ : Type} (putNewMessage : Nat → σ → Message → σ × Delivery) (posters : List Bool)

/-- The posting of one message: as it was, the calls, the list it is on, and as it is. -/
structure Entry (τ : Type) where
  before : Object τ
  calls : List Call
  placed : Bool
  after : Message

def Entry.object (e : Entry τ) : Object τ := (e.before.1, e.after)

structure Posted (σ τ : Type) where
  brokers : σ
  ok : List (Object τ)
  failed : List (Object τ)
  log : List (Entry τ)

def postLoop : List (Object τ) → Posted σ τ → Except Fault (Posted σ τ)
  | [], out => .ok out
  | m :: old_ok, out => do
    let p ← postMessage putNewMessage posters out.brokers m.2
    let (after, placed) ← p.settle
    let e : Entry τ := ⟨m, p.calls, placed, after⟩
    postLoop old_ok
      { brokers := p.brokers
        ok := if placed then out.ok ++ [e.object] else out.ok
        failed := if placed then out.failed else out.failed ++ [e.object]
        log := out.log ++ [e] }

def post (brokers : σ) (ok failed : List (Object τ)) : Except Fault (Posted σ τ) :=
  postLoop putNewMessage posters ok ⟨brokers, [], failed, []⟩

end Batch
end Sarracenia.Source.Post
