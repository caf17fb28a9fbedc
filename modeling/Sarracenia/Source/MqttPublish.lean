import Mathlib.Data.List.Basic

/-!
# Confirmations of what is published over MQTT (`sarracenia/moth/mqtt.py`)

`putNewMessage` hands a message over to the client and then looks for its number among the
unexpected confirmations; the callback of the network's thread looks for it among the pending ones.
Each then changes one of the two deques, and the other may come in between. The client numbers what
it is handed, and no number comes twice here. Whether a message is taken, and when it is confirmed,
is given from outside.
-/
namespace Sarracenia.Source.MqttPublish

/-- How far a thread is with a number: it has looked for it, and found it or not. -/
inductive Place where
  | idle
  | given (mid : Nat)
  | looked (mid : Nat) (found : Bool)
  deriving DecidableEq, Repr

/-- The deques, where the two threads are, what was handed over and what was confirmed. -/
structure State where
  pending_publishes : List Nat
  unexpected_publishes : List Nat
  put : Place
  callback : Place
  next : Nat
  taken : List Nat
  confirmed : List Nat
  deriving DecidableEq, Repr

def initial : State := ⟨[], [], .idle, .idle, 0, [], []⟩

inductive Action where
  | putSetup
  | publish (success : Bool)
  | put
  | __pub_on_publish (mid : Nat)
  | callback
  deriving DecidableEq, Repr

/-- The second half of `putNewMessage`. -/
def State.putNext (s : State) : Option State :=
  match s.put with
  | .idle => none
  | .given mid => some { s with put := .looked mid (mid ∈ s.unexpected_publishes) }
  | .looked mid true =>
    some { s with unexpected_publishes := s.unexpected_publishes.erase mid, put := .idle }
  | .looked mid false =>
    some { s with pending_publishes := s.pending_publishes ++ [mid], put := .idle }

/-- The rest of `__pub_on_publish`. -/
def State.callbackNext (s : State) : Option State :=
  match s.callback with
  | .looked mid true =>
    some { s with pending_publishes := s.pending_publishes.erase mid, callback := .idle }
  | .looked mid false =>
    some { s with unexpected_publishes := s.unexpected_publishes ++ [mid], callback := .idle }
  | _ => none

def step (s : State) : Action → Option State
  -- the client that is left is stopped first
  | .putSetup =>
    if s.put = .idle ∧ s.callback = .idle then
      some { s with
        pending_publishes := [], unexpected_publishes := []
        next := 0, taken := [], confirmed := [] }
    else none
  | .publish success =>
    if s.put ≠ .idle then none
    else if success then
      some { s with put := .given s.next, next := s.next + 1, taken := s.taken ++ [s.next] }
    else some { s with next := s.next + 1 }
  | .put => s.putNext
  | .__pub_on_publish mid =>
    if s.callback = .idle ∧ mid < s.next ∧ mid ∉ s.confirmed then
      some { s with
        callback := .looked mid (mid ∈ s.pending_publishes), confirmed := s.confirmed ++ [mid] }
    else none
  | .callback => s.callbackNext

/-- The loop of `close` waits until nothing is pending. -/
def State.closes (s : State) : Bool := s.pending_publishes.isEmpty

end Sarracenia.Source.MqttPublish
