import Sarracenia.Library.Dynamic
import Sarracenia.Library.Table

/-!
# Subscriptions (`sarracenia/config/subscription.py`)

Values of dictionaries are taken up to `==`, and so are brokers: a broker is a `Credential`,
which is equal to itself only, or the text of one that was not found.
-/
namespace Sarracenia.Library.Table
variable {κ ν : Type} [DecidableEq κ] [DecidableEq ν]

/-- `t == u` for dictionaries: the order of the keys is no part of it. -/
def same (t u : Table κ ν) : Bool :=
  t.entries.length = u.entries.length && t.entries.all fun entry => u.get entry.1 = some entry.2

theorem same_self (t : Table κ ν) : t.same t = true := by
  unfold same
  rw [decide_eq_true rfl, Bool.true_and, List.all_eq_true]
  intro entry member
  exact decide_eq_true (t.get_eq_some_iff.mpr member)

end Sarracenia.Library.Table

namespace Sarracenia.Source.Subscriptions
open Library Library.Dynamic

abbrev Binding (ν : Type) := Table String ν

structure Queue (ν : Type) where
  name : ν
  mismatch : Option (List String)
  fields : Table String ν

structure Subscription (β ν : Type) where
  broker : β
  queue : Queue ν
  bindings : List (Binding ν)
  bindings_to_remove : List (Binding ν)
  fields : Table String ν

variable {β ν : Type} [DecidableEq β] [DecidableEq ν]

/-! ## `==` -/

def sameList {α : Type} (same : α → α → Bool) : List α → List α → Bool
  | [], [] => true
  | a :: as, b :: bs => same a b && sameList same as bs
  | _, _ => false

def Queue.same (p q : Queue ν) : Bool :=
  p.name = q.name && p.mismatch = q.mismatch && p.fields.same q.fields

def Subscription.same (s t : Subscription β ν) : Bool :=
  s.broker = t.broker && s.queue.same t.queue && sameList Table.same s.bindings t.bindings &&
    sameList Table.same s.bindings_to_remove t.bindings_to_remove && s.fields.same t.fields

/-! ## `finalize` -/

def item (b : Binding ν) (key : String) : Except Fault ν := (b.get key).elim (.error .keyError) .ok

/-- Whether the two bindings are for one exchange and one topic. -/
def alike (b ob : Binding ν) : Except Fault Bool :=
  if (b.get "exchange").isSome ≠ (ob.get "exchange").isSome then .ok false
  else if b.get "exchange" ≠ ob.get "exchange" then .ok false
  else do return decide ((← item b "topic") = (← item ob "topic"))

/-- The loop over the bindings of the previous subscription: the binding is recorded each time
one is alike. -/
def recordBinding (b : Binding ν) : List (Binding ν) → Except Fault (List (Binding ν))
  | [] => .ok []
  | ob :: obs => do
    if ← alike b ob then return b :: (← recordBinding b obs) else recordBinding b obs

def recordBindings (obs : List (Binding ν)) : List (Binding ν) → Except Fault (List (Binding ν))
  | [] => .ok []
  | b :: bs => do return (← recordBinding b obs) ++ (← recordBindings obs bs)

/-- The parameters that cannot change without the queue being made again. -/
def queueBad (q oq : Queue ν) : List String :=
  ["auto_delete", "durable", "expire"].filter fun x =>
    (q.fields.get x).isSome && (oq.fields.get x).isSome && q.fields.get x ≠ oq.fields.get x

/-- `ob in bindings_in_both`. -/
def isIn (bindings_in_both : List (Binding ν)) (ob : Binding ν) : Bool := bindings_in_both.any ob.same

/-- One previous subscription and one new one. The bindings in both are those of this pair and
of all the pairs before it. -/
def finalizePair (os s : Subscription β ν) (bindings_in_both : List (Binding ν)) :
    Except Fault (Subscription β ν × List (Binding ν)) :=
  if s.broker ≠ os.broker then .ok (s, bindings_in_both)
  else if s.queue.name ≠ os.queue.name then .ok (s, bindings_in_both)
  else do
    let bindings_in_both := bindings_in_both ++ (← recordBindings os.bindings s.bindings)
    let queue := { s.queue with mismatch := some (queueBad s.queue os.queue) }
    let bindings_to_remove := os.bindings.filter fun ob => !isIn bindings_in_both ob
    return ({ s with queue, bindings_to_remove }, bindings_in_both)

def finalizeEach (os : Subscription β ν) : List (Subscription β ν) → List (Binding ν) →
    Except Fault (List (Subscription β ν) × List (Binding ν))
  | [], bindings_in_both => .ok ([], bindings_in_both)
  | s :: ss, bindings_in_both => do
    let (s, bindings_in_both) ← finalizePair os s bindings_in_both
    let (ss, bindings_in_both) ← finalizeEach os ss bindings_in_both
    return (s :: ss, bindings_in_both)

def finalizeAll : List (Subscription β ν) → List (Subscription β ν) → List (Binding ν) →
    Except Fault (List (Subscription β ν))
  | [], new, _ => .ok new
  | os :: old, new, bindings_in_both => do
    let (new, bindings_in_both) ← finalizeEach os new bindings_in_both
    finalizeAll old new bindings_in_both

/-- `new.finalize(old)`. -/
def finalize (new old : List (Subscription β ν)) : Except Fault (List (Subscription β ν)) :=
  if sameList Subscription.same new old then .ok new else finalizeAll old new []

end Sarracenia.Source.Subscriptions
