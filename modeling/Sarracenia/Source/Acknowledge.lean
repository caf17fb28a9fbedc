import Sarracenia.Library.Dynamic
import Mathlib.Logic.Function.Basic

/-!
# Acknowledging what was received (`flowcb/gather/message.py`, `moth/amqp.py`, `moth/mqtt.py`)

The consumers of a flow and the messages they received. A message is an object that the
worklists share, so it goes by a number. Of a message there is the `ack_id`, whose mark in
`_deleteOnPost` comes and goes with it, and the `qos`. Whether an acknowledgement breaks
the connection is given from outside.
-/
namespace Sarracenia.Source.Acknowledge
open Library Library.Text Library.Dynamic

inductive Kind where
  | amqp | mqtt
  deriving DecidableEq, Repr

/-- `m['ack_id']`. Only AMQP puts a channel and a connection in it. -/
structure AckId where
  delivery_tag : Nat
  broker : Str
  channel_id : Option Nat
  connection_id : Option Nat
  deriving DecidableEq, Repr

structure Received where
  ack_id : Option AckId
  qos : Option Nat
  deriving DecidableEq, Repr

abbrev Messages := Nat → Received

/-- A consumer. For MQTT `channel` and `connection_id` tell which client it has. -/
structure Consumer where
  kind : Kind
  connected : Bool
  broker : Option Str
  connection_id : Option Nat
  channel : Option Nat
  deriving DecidableEq, Repr

/-- A consumer that was never connected. -/
def Consumer.new (kind : Kind) : Consumer := ⟨kind, false, none, none, none⟩

/-- `AMQP.close` forgets the broker and the connection, and keeps the channel. -/
def Consumer.close (c : Consumer) : Consumer :=
  match c.kind with
  | .amqp => { c with connected := false, broker := none, connection_id := none }
  | .mqtt => { c with connected := false }

/-- What `_msgRawToDict` and `_msgDecode` put in a message of a delivery. -/
def Consumer.receive (c : Consumer) (broker : Str) (delivery_tag qos : Nat) : Received :=
  match c.kind with
  | .amqp => ⟨some ⟨delivery_tag, broker, c.channel, c.connection_id⟩, none⟩
  | .mqtt => ⟨some ⟨delivery_tag, broker, none, none⟩, some qos⟩

/-- An acknowledgement that went out: over which consumer's connection, and for what. -/
structure Ack where
  consumer : Nat
  connection_id : Option Nat
  message : Nat
  delivery_tag : Nat
  deriving DecidableEq, Repr

/-- `del m['ack_id']`. -/
def forget (i : Nat) (messages : Messages) : Messages :=
  Function.update messages i { messages i with ack_id := none }

/-- What a consumer, or some of them, made of the messages. -/
structure Turn (κ : Type) where
  consumer : κ
  messages : Messages
  log : List Ack
  fault : Option Fault

section Consumer
variable (k : Nat) (breaks : Nat → Bool)

def AMQP.ack (c : Consumer) (i : Nat) (messages : Messages) : Turn Consumer :=
  match (messages i).ack_id with
  | none => ⟨c, messages, [], none⟩
  | some ack_id =>
    if ack_id.connection_id = none then ⟨c, messages, [], some .keyError⟩
    else match c.channel with
      -- the channel is named in the warning as well
      | none => ⟨c, messages, [], some .attributeError⟩
      | some channel =>
        if ack_id.connection_id ≠ c.connection_id ∨ ack_id.channel_id ≠ some channel ∨
            some ack_id.broker ≠ c.broker then
          ⟨c, forget i messages, [], none⟩
        else if breaks i then ⟨c.close, forget i messages, [], none⟩
        else ⟨c, forget i messages, [⟨k, c.connection_id, i, ack_id.delivery_tag⟩], none⟩

def MQTT.ack (c : Consumer) (i : Nat) (messages : Messages) : Turn Consumer :=
  match (messages i).ack_id with
  | none => ⟨c, messages, [], none⟩
  | some ack_id =>
    if some ack_id.broker ≠ c.broker then ⟨c, forget i messages, [], none⟩
    else if c.channel = none then ⟨c, messages, [], some .attributeError⟩
    else if (messages i).qos = none then ⟨c, messages, [], some .keyError⟩
    else ⟨c, forget i messages, [⟨k, c.connection_id, i, ack_id.delivery_tag⟩], none⟩

def Consumer.ack (c : Consumer) (i : Nat) (messages : Messages) : Turn Consumer :=
  match c.kind with
  | .amqp => AMQP.ack k breaks c i messages
  | .mqtt => MQTT.ack k c i messages

/-- `'ack_id' in m and m['ack_id']['broker'] == c.broker`. -/
def Consumer.named (c : Consumer) (m : Received) : Bool :=
  m.ack_id.elim false fun ack_id => some ack_id.broker = c.broker

def ackList : Consumer → List Nat → Messages → Turn Consumer
  | c, [], messages => ⟨c, messages, [], none⟩
  | c, i :: mlist, messages =>
    if c.named (messages i) then
      let turn := c.ack k breaks i messages
      if turn.fault.isSome then turn
      else
        let rest := ackList turn.consumer mlist turn.messages
        { rest with log := turn.log ++ rest.log }
    else ackList c mlist messages

end Consumer

section Consumers
variable (breaks : Nat → Nat → Bool) (mlist : List Nat)

/-- The consumers in their order. Where no driver was found there is none, and its
`broker` is read all the same. -/
def ackConsumers : Nat → List (Option Consumer) → Messages → Turn (List (Option Consumer))
  | _, [], messages => ⟨[], messages, [], none⟩
  | k, none :: consumers, messages =>
    if mlist.any fun i => (messages i).ack_id.isSome then
      ⟨none :: consumers, messages, [], some .attributeError⟩
    else
      let rest := ackConsumers (k + 1) consumers messages
      { rest with consumer := none :: rest.consumer }
  | k, some c :: consumers, messages =>
    let turn := ackList k (breaks k) c mlist messages
    if turn.fault.isSome then ⟨some turn.consumer :: consumers, turn.messages, turn.log, turn.fault⟩
    else
      let rest := ackConsumers (k + 1) consumers turn.messages
      { rest with consumer := some turn.consumer :: rest.consumer, log := turn.log ++ rest.log }

/-- `Message.ack` of the plugin. -/
def ack (consumers : List (Option Consumer)) (messages : Messages) :
    Turn (List (Option Consumer)) :=
  ackConsumers breaks mlist 0 consumers messages

end Consumers

end Sarracenia.Source.Acknowledge
