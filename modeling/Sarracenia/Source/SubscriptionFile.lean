import Sarracenia.Source.Credentials
import Sarracenia.Source.Subscriptions

/-!
# The file of subscriptions (`sarracenia/config/subscription.py`)

A file holds what `json` writes and reads back. A `Credential` is an object, equal to itself only;
each call of `get` makes one object at most, with the number that is next.
-/
namespace Sarracenia.Source.SubscriptionFile
open Library Library.Text Library.Dynamic Library.Urls Source.Credentials
open Source.Subscriptions (Binding Queue Subscription)

structure Object where
  ident : Nat
  credential : Credential
  deriving DecidableEq

/-- `s['broker']`. -/
inductive Broker where
  | object (o : Object)
  | text (s : Str)
  deriving DecidableEq

/-- The database, and the number of the next object. -/
structure Store where
  db : Table Str Object
  next : Nat

/-- The defaults, and what the topic of a binding is made of that has none yet: whether the broker is an
MQTT one, the name of the queue, the prefix and the subtopic. -/
structure Options (ν : Type) where
  tlsRigour : ν
  auto_delete : ν
  joined : Bool → ν → Option ν → ν → Except Fault ν

section Subscriptions
variable {ν : Type} (w : World) (o : Options ν)

def withBroker {β γ : Type} (s : Subscription β ν) (broker : γ) : Subscription γ ν :=
  ⟨broker, s.queue, s.bindings, s.bindings_to_remove, s.fields⟩

/-! ## `write` -/

/-- `str(s['broker'])`. -/
def Broker.str : Broker → Except Fault Str
  | .object o => Credentials.str w o.credential
  | .text s => .ok s

def mismatched (q : Queue ν) : Bool := q.mismatch.any (! ·.isEmpty)

def written : List (Subscription Broker ν) → Except Fault (List (Subscription Str ν))
  | [] => .ok []
  | s :: ss => do
    let broker ← s.broker.str w
    return withBroker s broker :: (← written ss)

/-- Nothing is written if a queue is inconsistent. -/
def write (subscriptions : List (Subscription Broker ν)) : Except Fault (Option (List (Subscription Str ν))) := do
  let jl ← written w subscriptions
  return if subscriptions.any fun s => mismatched s.queue then none else some jl

/-! ## `read` -/

/-- `_broker_proto(broker) == 'mqtt'`; a scheme is in small letters, a text is lowered. -/
def Broker.mqtt : Broker → Bool
  | .object o => occurs "mqtt".toList (w.lower o.credential.url.scheme)
  | .text s => occurs "mqtt".toList (w.lower s)

/-- One binding in the form of the later releases. -/
def normalizeBinding (mqtt : Bool) (name : ν) (b : Binding ν) : Except Fault (Binding ν) :=
  if (b.get "topic").isSome then .ok ((b.erase "sub").erase "prefix")
  else match b.get "sub" with
    | none => .ok b
    | some sub => do
      let topic ← o.joined mqtt name (b.get "prefix") sub
      return ((b.set "topic" topic).erase "sub").erase "prefix"

def normalizeBindings (mqtt : Bool) (name : ν) : List (Binding ν) → Except Fault (List (Binding ν))
  | [] => .ok []
  | b :: bs => do
    let b ← normalizeBinding o mqtt name b
    return b :: (← normalizeBindings mqtt name bs)

/-- `validate_urlstr`; what is not found stays a text. -/
def readBroker (store : Store) (text : Str) : Store × Except Fault Broker :=
  let (db, found) := validate_urlstrOf w Object.credential (fun url => ⟨store.next, .of url⟩) store.db text
  (⟨db, store.next + 1⟩, found.map fun found => found.elim (.text text) .object)

/-- `if not key in fields: fields[key] = default`. -/
def filledIn (fields : Table String ν) (key : String) (default : ν) : Table String ν :=
  if (fields.get key).isSome then fields else fields.set key default

/-- What is filled in besides the broker. -/
def readRest (s : Subscription Str ν) (broker : Broker) : Except Fault (Subscription Broker ν) := do
  let bindings ← normalizeBindings o (broker.mqtt w) s.queue.name s.bindings
  return ⟨broker, { s.queue with fields := filledIn s.queue.fields "tlsRigour" o.tlsRigour }, bindings, s.bindings_to_remove,
    filledIn s.fields "auto_delete" o.auto_delete⟩

def readEach (store : Store) : List (Subscription Str ν) → Store × Except Fault (List (Subscription Broker ν))
  | [] => (store, .ok [])
  | s :: data =>
    match readBroker w store s.broker with
    | (store, .error fault) => (store, .error fault)
    | (store, .ok broker) =>
      match readRest w o s broker with
      | .error fault => (store, .error fault)
      | .ok s =>
        let (store, rest) := readEach store data
        (store, rest.map (s :: ·))

/-- What raises leaves nothing. -/
def read (store : Store) (data : List (Subscription Str ν)) : Store × List (Subscription Broker ν) :=
  match readEach w o store data with
  | (store, .ok subscriptions) => (store, subscriptions)
  | (store, .error _) => (store, [])

end Subscriptions
end Sarracenia.Source.SubscriptionFile
