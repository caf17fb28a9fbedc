import Sarracenia.Library.Table
import Mathlib.Logic.Function.Basic

/-!
# Receiving over AMQP 1.0 (`sarracenia/moth/amq1.py`)

The thread of the flow takes raw messages from one queue and puts the tags to be acknowledged on
another; the thread of the reactor does the other end of both, and holds the deliveries of its
connection. What one does in a step is whole for the other. A delivery goes by a number, and so
does the message made of it. When the broker sends and when the connection is lost is given from
outside, and so is what cannot be decoded or settled. Proton makes no lost connection anew by
itself here.
-/
namespace Sarracenia.Source.Amq1
open Library

/-- A delivery, and the receiver it came to: there is one for each address. -/
structure Delivery where
  number : Nat
  receiver : Nat
  deriving DecidableEq, Repr

section Receiver

/-- `Amqp1Receiver`, with the link credit of its receivers. -/
structure Amqp1Receiver where
  ack_id_counter : Nat
  pending_deliveries : Table Nat Delivery
  credit : Nat → Nat

namespace Amqp1Receiver

def new : Amqp1Receiver := ⟨0, .empty, fun _ => 0⟩

/-- `receiver.flow(n)`. -/
def flow (r : Amqp1Receiver) (receiver n : Nat) : Amqp1Receiver :=
  { r with credit := Function.update r.credit receiver (r.credit receiver + n) }

def on_link_opened (prefetch : Nat) (r : Amqp1Receiver) (receiver : Nat) : Amqp1Receiver :=
  if r.credit receiver < prefetch then r.flow receiver prefetch else r

/-- A delivery uses one credit. -/
def on_message (r : Amqp1Receiver) (delivery : Delivery) : Amqp1Receiver where
  ack_id_counter := r.ack_id_counter + 1
  pending_deliveries := r.pending_deliveries.set r.ack_id_counter delivery
  credit := Function.update r.credit delivery.receiver (r.credit delivery.receiver - 1)

/-- A turn of the loop of `__ack`: with the delivery of the tag, and whether it is settled. -/
def ack (prefetch : Nat) (r : Amqp1Receiver) (tag : Nat) (raises : Bool) :
    Amqp1Receiver × Option (Delivery × Bool) :=
  match r.pending_deliveries.get tag with
  | none => (r, none)
  | some delivery =>
    let popped := { r with pending_deliveries := r.pending_deliveries.erase tag }
    if raises then (popped, some (delivery, false))
    else if r.credit delivery.receiver < prefetch then
      (popped.flow delivery.receiver 1, some (delivery, true))
    else (popped, some (delivery, true))

end Amqp1Receiver
end Receiver

section Threads

/-- A consumer: `ack_id` is that of each message it handed out. Of the rest, `opened` and `raised`
are the links that were opened over this connection and the deliveries whose settlement raised;
the broker was told what is `accepted`. -/
structure State where
  client : Option Amqp1Receiver
  connected : Bool
  _raw_msg_q : List (Nat × Nat)
  _ack_q : List Nat
  ack_id : Nat → Option Nat
  connections : Nat
  opened : List Nat
  sent : Nat
  origin : Nat → Nat × Nat
  undecoded : List Nat
  raised : List Delivery
  accepted : List Nat

def initial : State where
  client := none
  connected := false
  _raw_msg_q := []
  _ack_q := []
  ack_id := fun _ => none
  connections := 0
  opened := []
  sent := 0
  origin := fun _ => (0, 0)
  undecoded := []
  raised := []
  accepted := []

inductive Action where
  | connect (fine : Bool)
  | on_link_opened (receiver : Nat)
  | on_message (receiver : Nat)
  | on_timer_task (raises : Bool)
  | lost
  | getNewMessage (decodes : Bool)
  | ack (message : Nat)
  | close
  deriving DecidableEq, Repr

/-- `connect`, which has nothing to do where there is a connection; one that fails is closed. -/
def State.connect (s : State) (fine : Bool) : State :=
  { s with
    client := if fine then some .new else none
    connected := fine
    _raw_msg_q := []
    _ack_q := []
    connections := s.connections + 1
    opened := []
    raised := [] }

/-- The broker sends the next delivery over the current connection. -/
def State.on_message (s : State) (r : Amqp1Receiver) (receiver : Nat) : State :=
  { s with
    client := some (r.on_message ⟨s.sent, receiver⟩)
    _raw_msg_q := s._raw_msg_q ++ [(s.sent, r.ack_id_counter)]
    sent := s.sent + 1
    origin := Function.update s.origin s.sent (s.connections, r.ack_id_counter) }

/-- What becomes of a delivery that was to be settled. -/
def State.settled (s : State) : Option (Delivery × Bool) → State
  | none => s
  | some (delivery, true) => { s with accepted := s.accepted ++ [delivery.number] }
  | some (delivery, false) => { s with raised := s.raised ++ [delivery] }

/-- `ack`: without a reactor the tag is on the queue all the same, but the message keeps it. -/
def State.ack (s : State) (message : Nat) : State :=
  match s.ack_id message with
  | none => s
  | some tag =>
    let s := { s with _ack_q := s._ack_q ++ [tag] }
    if s.client.isSome then { s with ack_id := Function.update s.ack_id message none } else s

def step (prefetch : Nat) (s : State) : Action → Option State
  | .connect fine => if s.connected then none else some (s.connect fine)
  | .on_link_opened receiver =>
    match s.client with
    | some r =>
      if s.connected ∧ receiver ∉ s.opened then
        some { s with client := r.on_link_opened prefetch receiver, opened := receiver :: s.opened }
      else none
    | none => none
  | .on_message receiver =>
    match s.client with
    | some r =>
      if s.connected ∧ 0 < r.credit receiver then some (s.on_message r receiver) else none
    | none => none
  | .on_timer_task raises =>
    match s.client, s._ack_q with
    | some r, tag :: _ack_q =>
      let (r, settled) := r.ack prefetch tag (raises || !s.connected)
      some ({ s with client := r, _ack_q }.settled settled)
    | _, _ => none
  | .lost => some { s with connected := false }
  | .getNewMessage decodes =>
    match s.client, s._raw_msg_q with
    -- the connection may be lost after it was looked at
    | some _, (message, tag) :: _raw_msg_q =>
      if decodes then
        some { s with _raw_msg_q, ack_id := Function.update s.ack_id message (some tag) }
      else
        some { s with
          _raw_msg_q, _ack_q := s._ack_q ++ [tag], undecoded := s.undecoded ++ [message] }
    | _, _ => none
  | .ack message => some (s.ack message)
  | .close => some { s with client := none, connected := false }

end Threads
end Sarracenia.Source.Amq1
