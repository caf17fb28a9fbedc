import Sarracenia.Source.SubscriptionFile

/-!
# Bindings of queues (`AMQP.getSetup` of `sarracenia/moth/amqp.py`, `Config.finalize` of
`sarracenia/config/__init__.py`, `Subscription` and `Subscriptions.add` of `config/subscription.py`)

A configuration is parsed, once by `declare` and at least twice by an instance that starts, and then
its queues are set up. Each parse reads the file of subscriptions and writes it again. Brokers are
of AMQP and recognised when they are read back, and no queue goes away. How many requests a broker
carries out before the connection fails is given from outside.
-/
namespace Sarracenia.Source.Bindings
open Library Library.Dynamic Source.Subscriptions Source.SubscriptionFile

inductive Request (ν : Type) where
  | queue_bind (exchange topic : ν)
  | queue_unbind (exchange topic : ν)
  deriving DecidableEq

section GetSetup
variable {β ν : Type} (truthy : ν → Bool)

def ask (request : ν → ν → Request ν) (exchange : Option ν) (topic : ν) : List (Request ν) :=
  (exchange.filter truthy).toList.map fun exchange => request exchange topic

/-- The loop over the bindings: the requests, and the last exchange unless a topic is missing. -/
def bindEach (exchange : Option (Option ν)) : List (Binding ν) →
    List (Request ν) × Option (Option (Option ν))
  | [] => ([], some exchange)
  | b :: bs =>
    match b.get "topic" with
    | none => ([], none)
    | some topic =>
      let (requests, last) := bindEach (some (b.get "exchange")) bs
      (ask truthy .queue_bind (b.get "exchange") topic ++ requests, last)

/-- The loop over the bindings to remove: one that has no exchange is taken to have the exchange
before it, if there is any. -/
def unbindEach (exchange : Option (Option ν)) : List (Binding ν) → List (Request ν) × Bool
  | [] => ([], true)
  | b :: bs =>
    let exchange := if (b.get "exchange").isSome then some (b.get "exchange") else exchange
    match b.get "topic", exchange with
    | some topic, some exchange =>
      let (requests, ends) := unbindEach (some exchange) bs
      (ask truthy .queue_unbind exchange topic ++ requests, ends)
    | _, _ => ([], false)

/-- What `getSetup` of the first instance asks of the broker once the queue is declared, and whether
it comes to its end. -/
def getSetup (dry_run : Bool) (s : Subscription β ν) : List (Request ν) × Bool :=
  if mismatched s.queue then ([], false)
  else match s.queue.fields.get "bind" with
    | none => ([], false)
    | some bind =>
      if truthy bind && truthy s.queue.name then
        match bindEach truthy none s.bindings with
        | (binds, none) => (if dry_run then [] else binds, false)
        | (binds, some exchange) =>
          let (unbinds, ends) := unbindEach truthy exchange s.bindings_to_remove
          (if dry_run then [] else binds ++ unbinds, ends)
      else ([], true)

end GetSetup

/-- A binding at a broker. -/
structure Bound (β ν : Type) where
  broker : β
  queue : ν
  exchange : ν
  topic : ν
  deriving DecidableEq

section Brokers
variable {β ν : Type} [DecidableEq β] [DecidableEq ν]

def bound (s : Subscription β ν) (exchange topic : ν) : Bound β ν :=
  ⟨s.broker, s.queue.name, exchange, topic⟩

/-- What a broker does, to bind again or to unbind what is not bound is no error. -/
def carryOut (s : Subscription β ν) (there : List (Bound β ν)) : Request ν → List (Bound β ν)
  | .queue_bind exchange topic => there.insert (bound s exchange topic)
  | .queue_unbind exchange topic => there.filter (· ≠ bound s exchange topic)

end Brokers

/-- What `Subscription` and `add` make of the options for one broker and one queue. -/
structure Entry (β ν : Type) where
  broker : β
  name : ν
  bindings : List (ν × ν)
  queue : Table String ν
  fields : Table String ν

/-- There is a subscription, and no two are for one broker and one queue. -/
structure Configuration (β ν : Type) where
  entries : List (Entry β ν)
  nonempty : entries ≠ []
  apart : entries.Pairwise fun e f => ¬ (e.broker = f.broker ∧ e.name = f.name)

section Parses
variable {β ν : Type} [DecidableEq β] [DecidableEq ν] (o : Options ν)

def binding (exchange topic : ν) : Binding ν :=
  (Table.empty.set "exchange" exchange).set "topic" topic

def Entry.subscription (e : Entry β ν) : Subscription β ν where
  broker := e.broker
  queue := ⟨e.name, some [], e.queue⟩
  bindings := e.bindings.map fun b => binding b.1 b.2
  bindings_to_remove := []
  fields := e.fields

def Configuration.subscriptions (c : Configuration β ν) : List (Subscription β ν) :=
  c.entries.map Entry.subscription

/-- What `read` fills in of a subscription whose broker is recognised. -/
def readBack (s : Subscription β ν) : Subscription β ν :=
  { s with
    queue := { s.queue with fields := filledIn s.queue.fields "tlsRigour" o.tlsRigour }
    fields := filledIn s.fields "auto_delete" o.auto_delete }

/-- The subscriptions of a parse, and the file that it leaves. -/
def parse (c : Configuration β ν) (file : List (Subscription β ν)) :
    Except Fault (List (Subscription β ν) × List (Subscription β ν)) := do
  let subscriptions ← finalize c.subscriptions (file.map (readBack o))
  let badness := subscriptions.any fun s => mismatched s.queue
  return (subscriptions, if subscriptions.isEmpty || badness then file else subscriptions)

/-- The subscriptions of the last of some parses, each of which finds the file of the one before. -/
def parses (c : Configuration β ν) : Nat → List (Subscription β ν) →
    Except Fault (List (Subscription β ν) × List (Subscription β ν))
  | 0, file => .ok ([], file)
  | 1, file => parse o c file
  | n + 2, file => do
    let (_, file) ← parse o c file
    parses c (n + 1) file

end Parses

/-- A configuration is parsed some times and then set up: in each attempt the queue of a
subscription, up to some request. -/
structure Operation (β ν : Type) where
  configuration : Configuration β ν
  parses : Nat
  dry_run : Bool
  attempts : List (Nat × Nat)

structure State (β ν : Type) where
  file : List (Subscription β ν)
  there : List (Bound β ν)

section Operations
variable {β ν : Type} [DecidableEq β] [DecidableEq ν] (truthy : ν → Bool) (o : Options ν)

/-- One attempt. -/
def attempt (dry_run : Bool) (subscriptions : List (Subscription β ν)) (there : List (Bound β ν))
    (a : Nat × Nat) : List (Bound β ν) :=
  match subscriptions[a.1]? with
  | none => there
  | some s => ((getSetup truthy dry_run s).1.take a.2).foldl (carryOut s) there

def State.run (st : State β ν) (op : Operation β ν) : State β ν :=
  match parses o op.configuration op.parses st.file with
  | .error _ => st
  | .ok (subscriptions, file) =>
    ⟨file, op.attempts.foldl (attempt truthy op.dry_run subscriptions) st.there⟩

end Operations
end Sarracenia.Source.Bindings
