import Sarracenia.Library.Text
import Sarracenia.Library.Decimal

/-!
# Queue names at start-up (`Config._resolveQueueName`, the end of `Config.finalize` and `_writeQueueFile` of
`sarracenia/config/__init__.py`, `Subscriptions.read`, `write` and `add`, `instance.start`)

The instances of one configuration take their steps in any order, on the files they share. Brokers are the texts
they are shown as, each subscription has a template, and no queue has a mismatch. What `_varsub` makes of a text
is drawn at each call.
-/
namespace Sarracenia.Source.QueueNames
open Library.Text Library.Decimal

/-- A broker, and `queueName` as it stands in the configuration. -/
structure Pair where
  broker : Str
  template : Str
  deriving DecidableEq, Repr

/-- A subscription, as it is kept and as it is written. -/
structure Entry where
  pair : Pair
  name : Str
  bindings : List Str
  deriving DecidableEq, Repr

/-- `subscriptions.json`. -/
inductive File where
  | missing
  | truncated
  | whole (entries : List Entry)
  deriving DecidableEq, Repr

/-- The subtopics in their order, each with what was set by then and the binding that is made of the queue's name;
the broker and the template that are set at the end, and the binding of a subscription without a subtopic. -/
structure Conf where
  subtopics : List (Pair × (Str → Str))
  last : Pair
  binding : Str → Str
  username : Str → Str
  exchangeSplit : Bool
  queueShare : Str
  builtin : Str → Str → Str

/-- What the queue file of a broker is named after; an instance has one of its own if the exchange is split. -/
def Conf.queue_filename (conf : Conf) (no : Nat) (p : Pair) : Str :=
  conf.username p.broker ++ if conf.exchangeSplit ∧ 0 < no then pad (max 2 (Nat.toDigits 10 no).length) no else []

/-- What `_varsub` makes of a text at its n-th call: of an instance, and of its first parse or its second. -/
abbrev Draws := Nat → Bool → Nat → Str → Str

section Parsing

/-- What a parse has by now: the subscriptions it read, those it made, the subtopics that are left, the number of
calls of `_varsub`, and each subscription with the name that it was made with. -/
structure Parse where
  old_subscriptions : List Entry
  subscriptions : List Entry
  subtopics : List (Pair × (Str → Str))
  calls : Nat
  named : List (Pair × Str)

/-- `Subscriptions.read`: a file that is no JSON yet leaves nothing. -/
def read : File → List Entry
  | .whole entries => entries
  | _ => []

/-- The name of the first subscription for the broker and the template. -/
def lookFor (p : Pair) (entries : List Entry) : Option Str := (entries.find? fun s => s.pair = p).map (·.name)

/-- `Subscriptions.add` of a subscription with one binding; `found` is the flag of the loop. -/
def add (p : Pair) (name binding : Str) : Bool → List Entry → List Entry
  | found, [] => if found then [] else [⟨p, name, [binding]⟩]
  | found, s :: entries =>
    if s.pair.broker = p.broker ∧ s.name = name then
      let bindings := if found ∨ binding ∈ s.bindings then s.bindings else s.bindings ++ [binding]
      { s with bindings } :: add p name binding true entries
    else s :: add p name binding found entries

variable (conf : Conf) (varsub : Nat → Str → Str) (qname : Str → Option Str)

def expand (calls : Nat) (p : Pair) : Str :=
  let queueName := varsub calls p.template
  if queueName = [] then conf.builtin (conf.username p.broker) (varsub (calls + 1) conf.queueShare) else queueName

/-- `_resolveQueueName`, once the old subscriptions have been read; `none` is `sys.exit(2)`. -/
def _resolveQueueName (no : Nat) (p : Pair) (s : Parse) : Option Str :=
  match lookFor p s.old_subscriptions with
  | some name => some name
  | none =>
    match lookFor p s.subscriptions with
    | some name => some name
    | none =>
      let first := s.subscriptions = [] ∧ s.old_subscriptions = []
      let queueName := if first then (qname (conf.queue_filename no p)).getD [] else []
      if queueName ≠ [] then some queueName
      else if first ∧ 1 < no then none
      else some (expand conf varsub s.calls p)

/-- A subscription is made for a subtopic. -/
def Parse.subscribe (s : Parse) (p : Pair) (name binding : Str) : Parse :=
  { s with subscriptions := add p name binding false s.subscriptions, calls := s.calls + 2, named := s.named ++ [(p, name)] }

/-- Without a subtopic there is one subscription in the end. -/
def Parse.close (s : Parse) (name : Str) : Parse :=
  if s.subscriptions = [] then
    { s with subscriptions := [⟨conf.last, name, [conf.binding name]⟩], named := s.named ++ [(conf.last, name)] }
  else s

end Parsing

/-- Where an instance is: in its first parse of the configuration or in its second, before it reads the old subscriptions, before it
reads them again if there are none, before it resolves a name, before it opens the file for writing, before it has
written it, before it writes the queue file, after the parse; then it waits, and writes its own pid file. -/
inductive At where
  | begun (second : Bool)
  | parsing (second : Bool) (s : Parse)
  | resolving (second : Bool) (s : Parse)
  | finalized (second : Bool) (s : Parse)
  | writing (second : Bool) (s : Parse)
  | written (second : Bool) (s : Parse)
  | parsed (second : Bool) (s : Parse)
  | waiting
  | marking
  | ended (named : List (Pair × Str))
  | exited

/-- The files: `subscriptions.json`, the queue files by what they are named after and those that were left
half-made, the pid file of the lead instance; and where each instance is. -/
structure State where
  file : File
  qname : Str → Option Str
  tmp : Str → Bool
  pid : Bool
  at_ : Nat → At

def State.go (σ : State) (i : Nat) (place : At) : State := { σ with at_ := fun j => if j = i then place else σ.at_ j }

section Steps
variable (conf : Conf) (draws : Draws)

/-- `_writeQueueFile`, with the name of the first subscription. -/
def State._writeQueueFile (σ : State) (no : Nat) (s : Parse) : State :=
  let queue_filename := conf.queue_filename no conf.last
  match σ.qname queue_filename, σ.tmp queue_filename with
  | none, false => { σ with qname := fun file => if file = queue_filename then s.subscriptions.head?.map (·.name) else σ.qname file }
  | _, _ => σ

/-- The next step of an instance, if it can take one; 1 is the lead. -/
def step (i : Nat) (σ : State) : Option State :=
  match σ.at_ i with
  | .begun second => some (σ.go i (.parsing second ⟨read σ.file, [], conf.subtopics, 0, []⟩))
  | .parsing second s =>
    some (σ.go i (.resolving second
      { s with old_subscriptions := if s.old_subscriptions = [] then read σ.file else s.old_subscriptions }))
  | .resolving second s =>
    match s.subtopics with
    | (p, binding) :: subtopics =>
      -- the number of the instance is not known before the arguments are parsed
      match _resolveQueueName conf (draws i second) σ.qname 0 p s with
      | none => some (σ.go i .exited)
      | some name => some (σ.go i (.parsing second { s.subscribe p name (binding name) with subtopics }))
    | [] =>
      match _resolveQueueName conf (draws i second) σ.qname i conf.last s with
      | none => some (σ.go i .exited)
      | some name => some (σ.go i (.finalized second (s.close conf name)))
  | .finalized second s =>
    if i < 2 ∧ s.subscriptions ≠ [] then some ({ σ with file := .truncated }.go i (.writing second s))
    else some (σ.go i (.parsed second s))
  | .writing second s => some ({ σ with file := .whole s.subscriptions }.go i (.written second s))
  | .written second s => some ((σ._writeQueueFile conf i s).go i (.parsed second s))
  | .parsed second s => some (σ.go i (if second then .ended s.named else if 1 < i then .waiting else .marking))
  | .waiting => if σ.pid then some (σ.go i .marking) else none
  | .marking => some ({ σ with pid := σ.pid || i = 1 }.go i (.begun true))
  | .ended _ => none
  | .exited => none

/-- A run, each step of which meets a condition on the state before it; the instances are numbered from 1. -/
inductive Runs (meets : Nat → State → Prop) (σ : State) : State → Prop where
  | refl : Runs meets σ σ
  | step {σ' σ'' : State} {i : Nat} : Runs meets σ σ' → 1 ≤ i → meets i σ' → step conf draws i σ' = some σ'' → Runs meets σ σ''

/-- No instance has begun. -/
def Fresh (σ : State) : Prop := ∀ i, 1 ≤ i → σ.at_ i = .begun false

end Steps
end Sarracenia.Source.QueueNames
