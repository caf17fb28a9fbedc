import Sarracenia.Source.PostFormat

/-!
# Receiving a notice (`moth/amqp.py`, `moth/amqpconsumer.py`, `moth/mqtt.py`)

From a message of the broker's library to one of the flow. Every function tells what it
acknowledged beside what it returned; an acknowledgement goes through. The connection, the
debug dump, the counts and the log are left out.
-/
namespace Sarracenia.Source.Reception
open Library Library.Text Library.Dynamic Source.PostFormat

/-- The options a consumer reads of `self.o`; `source` is inner `none` where it is set to nothing. -/
structure Options where
  source : Option (Option Str)
  sourceFromExchange : Bool
  sourceFromMessage : Bool
  topicCopy : Bool
  topicPrefix : List Str
  exchange : Bool
  subscription_index : Int
  batch : Nat

/-- `[^_]+` after `xs_`, with or without more: the greedy run is the same. -/
def sourceOf (exchange : Str) : Option Str :=
  if "xs_".toList.isPrefixOf exchange then
    let source := (exchange.drop 3).takeWhile (· ≠ '_')
    if source = [] then none else some source
  else none

/-- The source that the options or the exchange give. -/
def sourceFound (o : Options) (msg : Message) : Except Fault (Option Str) :=
  match o.source, o.sourceFromExchange, msg.get "exchange" with
  | some source, _, _ => .ok source
  | none, true, some exchange => exchange.asStr.map sourceOf
  | none, _, _ => .ok none

def deriveSource (o : Options) (msg : Message) : Except Fault Message := do
  let source ← sourceFound o msg
  if (msg.get "source").isSome && o.sourceFromMessage then return msg
  else match source with
    | some (c :: source) => return msg.set "source" (.str (c :: source))
    | _ => return if (msg.get "source").isSome then msg.del "source" else msg

/-- `os.path.dirname`. -/
def dirname (path : Str) : Str :=
  let head := path.take (path.length - (lastPiece ['/'] path).length)
  if head.all (· = '/') then head else rstripBy (· = '/') head

/-- `msg_topic != path_topic`. -/
def moved (o : Options) (msg_topic : List Str) (msg : Message) : Except Fault Bool :=
  match msg.get "relPath" with
  | none => .ok false
  | some relPath => do
    return msg_topic ≠ o.topicPrefix ++ split ['/'] (dirname (← relPath.asStr))

def topicOverride (topic : Str) (msg : Message) : Except Fault Message :=
  Message.deleteOnPost (msg.set "topic" (.str topic)) ["topic"]

def deriveTopics (o : Options) (topic separator : Str) (msg : Message) : Except Fault Message := do
  let msg_topic := split separator topic
  if o.topicCopy then topicOverride topic msg
  else
    let moved ← moved o msg_topic msg
    if o.topicPrefix.isPrefixOf msg_topic then
      let msg := msg.set "subtopic" (.list ((msg_topic.drop o.topicPrefix.length).map .str))
      if moved then topicOverride topic msg else return msg
    else topicOverride topic msg

section AMQP

inductive Body where
  | bytes (bytes : List UInt8)
  | text (s : Str)

/-- `decode('utf8')`. -/
def utf8 (bytes : List UInt8) : Option Str :=
  (String.fromUTF8? ⟨bytes.toArray⟩).map String.toList

def Body.decode : Body → Option Str
  | .bytes raw => utf8 raw
  | .text s => some s

namespace AMQP

/-- A message of the AMQP library. -/
structure Raw where
  body : Body
  headers : Headers
  content_type : Option Str
  routing_key : Str
  exchange : Str
  delivery_tag : Nat
  channel_id : Nat

/-- The connection of a consumer. -/
structure Connection where
  connection_id : Str
  broker : Str

/-- The tags acknowledged, and what came of the message. -/
abbrev Outcome (α : Type) := List Nat × α

variable (lib : Standard) (o : Options) (c : Connection) (raw : Raw)

def topic : Str :=
  replaceAll "%22".toList ['*'] (replaceAll "%23".toList ['#'] raw.routing_key)

def ack_id : Value :=
  .dict [("delivery_tag", .int raw.delivery_tag), ("channel_id", .int raw.channel_id),
    ("connection_id", .str c.connection_id), ("broker", .str c.broker)]

/-- The fields that come from the delivery. -/
def fill (msg : Message) : Except Fault Message := do
  let msg ← deriveSource o (msg.set "exchange" (.str raw.exchange))
  let msg ← deriveTopics o (topic raw) ['.'] msg
  let msg := Dict.set (Dict.set msg "ack_id" (ack_id c raw)) "local_offset" (.int 0)
  Message.deleteOnPost msg ["ack_id", "exchange", "local_offset", "subtopic"]

def _msgRawToDict : Outcome (Except Fault (Option Message)) :=
  match raw.body.decode with
  | none => ([raw.delivery_tag], .ok none)
  | some body =>
    match importAny lib body raw.headers raw.content_type with
    | .error f => ([], .error f)
    | .ok none => ([raw.delivery_tag], .ok none)
    | .ok (some msg) =>
      match fill o c raw msg with
      | .error f => ([], .error f)
      | .ok msg =>
        match msg.validate lib.letters with
        | .error f => ([], .error f)
        | .ok true => ([], .ok (some msg))
        | .ok false => ([raw.delivery_tag], .ok none)

def subscribed (msg : Message) : Except Fault Message :=
  Message.deleteOnPost (msg.set "subscription_index" (.int o.subscription_index))
    ["subscription_index"]

/-- What becomes of a message that was fetched: an exception is logged. -/
def getNewMessage : Outcome (Option Message) :=
  match _msgRawToDict lib o c raw with
  | (acked, .ok (some msg)) => (acked, (subscribed o msg).toOption)
  | (acked, _) => (acked, none)

/-- `AMQPConsumer.getNewMessage`. -/
def consumerGetNewMessage : Outcome (Option Message) :=
  match _msgRawToDict lib o c raw with
  | (acked, .ok msg) => (acked, msg)
  | (acked, .error _) => (acked, none)

end AMQP
end AMQP

section MQTT
namespace MQTT

/-- A message of the MQTT library. Its `number` tells it from others of the same id. -/
structure Raw where
  number : Nat
  topic : Str
  payload : List UInt8
  ContentType : Option Str
  UserProperty : List (String × Str)
  mid : Nat
  qos : Nat

/-- `self.client.ack`, and the message it was for. -/
structure Ack where
  number : Nat
  mid : Nat
  qos : Nat
  deriving DecidableEq, Repr

variable (lib : Standard) (o : Options) (broker : Str)

def Raw.ack (raw : Raw) : Ack := ⟨raw.number, raw.mid, raw.qos⟩

def Raw.headers (raw : Raw) : Dict Value :=
  let headers : Dict Value := [("topic", .str raw.topic)]
  let headers := raw.ContentType.elim headers fun c => headers.set "content-type" (.str c)
  raw.UserProperty.foldl (fun headers h => Dict.set headers h.1 (.str h.2)) headers

/-- The fields that come from the delivery. -/
def fill (raw : Raw) (msg : Message) : Except Fault Message := do
  let msg ← if o.exchange then
      Message.deleteOnPost (msg.set "exchange" (.str ((split ['/'] raw.topic).headD []))) ["exchange"]
    else .ok msg
  let msg ← deriveTopics o raw.topic ['/'] (← deriveSource o msg)
  let msg := Dict.set msg "ack_id"
    (.dict [("delivery_tag", .int raw.mid), ("broker", .str broker)])
  let msg := Dict.set (Dict.set msg "qos" (.int raw.qos)) "local_offset" (.int 0)
  Message.deleteOnPost msg ["local_offset", "ack_id", "qos"]

/-- A payload that does not decode is ignored; what follows the decoding may raise. A
message that is not valid is acknowledged here. -/
def _msgDecode (raw : Raw) : List Ack × Except Fault (Option Message) :=
  match utf8 raw.payload with
  | none => ([], .ok none)
  | some payload =>
    match importAny lib payload (some raw.headers) raw.ContentType with
    | .error _ => ([], .ok none)
    | .ok none => ([], .error (if o.exchange then .typeError else .attributeError))
    | .ok (some msg) =>
      match fill o broker raw msg with
      | .error f => ([], .error f)
      | .ok msg =>
        match msg.validate lib.letters with
        | .error f => ([], .error f)
        | .ok true => ([], .ok (some msg))
        | .ok false => ([raw.ack], .ok none)

/-- What a call did: the payloads it took and left, the acknowledgements, and the messages,
each with its payload, or an exception. -/
structure Turn where
  taken : List Raw
  left : List Raw
  acks : List Ack
  result : Except Fault (List (Raw × Message))

/-- The loop of `newMessages`: an exception loses what was decoded before it. -/
def drain : Nat → List Raw → Turn
  | 0, rx_msg_q => ⟨[], rx_msg_q, [], .ok []⟩
  | _ + 1, [] => ⟨[], [], [], .ok []⟩
  | batch + 1, raw :: rx_msg_q =>
    match _msgDecode lib o broker raw with
    | (acks, .error f) => ⟨[raw], rx_msg_q, acks, .error f⟩
    | (acks, .ok m) =>
      let rest := drain batch rx_msg_q
      match m with
      | some m =>
        { rest with taken := raw :: rest.taken, acks := acks ++ rest.acks,
                    result := rest.result.map ((raw, m) :: ·) }
      | none =>
        { rest with taken := raw :: rest.taken, acks := acks ++ raw.ack :: rest.acks }

def newMessages (rx_msg_q : List Raw) : Turn := drain lib o broker o.batch rx_msg_q

def getNewMessage : List Raw → Turn
  | [] => ⟨[], [], [], .ok []⟩
  | raw :: rx_msg_q =>
    match _msgDecode lib o broker raw with
    | (acks, .error f) => ⟨[raw], rx_msg_q, acks, .error f⟩
    | (acks, .ok none) => ⟨[raw], rx_msg_q, acks ++ [raw.ack], .ok []⟩
    | (acks, .ok (some m)) =>
      ⟨[raw], rx_msg_q, acks, (AMQP.subscribed o m).map fun m => [(raw, m)]⟩

end MQTT
end MQTT

end Sarracenia.Source.Reception
