import Sarracenia.Source.V2Wrapper

/-!
# Writing a notice (`sarracenia/postformat`, `AMQP.putNewMessage`)

The topic, and the body and headers in the two formats of the pump itself. The writing of a JSON
text comes from outside. The headers are those of the message itself, which stay as
they are: the copy that is taken of them is left out.
-/
namespace Sarracenia.Source.Export
open Library Library.Text Library.Dynamic Source.PostFormat Source.V2Wrapper

/-- The publisher that is posted to: the scheme of its broker, and its options. Without an
exchange the list is empty, and `topic` is the option where it is a text. -/
structure Publisher where
  scheme : Str
  exchange : List Str
  exchangeSplit : Int
  topicPrefix : Option (List Str)
  topic : Option Str

section Topic
variable (p : Publisher)

/-- `sum(bytearray(msg['identity']['value'], 'ascii')) % len(p['exchange'])`. -/
def splitIndex (msg : Message) : Except Fault Nat := do
  let value ← (← (← msg.item "identity").item "value").asStr
  if value.all (·.toNat < 128) then return (value.map Char.toNat).sum % p.exchange.length
  else .error .valueError

def Publisher.mqtt : Bool := "mqtt".toList.isPrefixOf p.scheme && !p.exchange.isEmpty

/-- An exchange that is read without a prefix has never been set. -/
def topicPrefix (msg : Message) : Except Fault (List Str) :=
  match p.topicPrefix with
  | none => .error (if p.mqtt then .nameError else .keyError)
  | some prefix_ =>
    if p.mqtt then do
      let idx ← if 1 < p.exchangeSplit then splitIndex p msg else .ok 0
      let exchange ← (p.exchange[idx]?).elim (.error .indexError) .ok
      return if exchange ≠ [] then exchange :: prefix_ else prefix_
    else .ok prefix_

def topicDerive (msg : Message) : Except Fault (List Value) := do
  let topic_prefix ← topicPrefix p msg
  let topic_separator : Str := if p.mqtt then ['/'] else ['.']
  match msg.get "topic" with
  | some (.list topic) => return topic
  | some topic => return (split topic_separator (← text topic)).map .str
  | none =>
    match p.topic with
    | some topic => return (split topic_separator topic).map .str
    | none =>
      match msg.get "relPath", msg.get "subtopic" with
      | some relPath, _ => return topic_prefix.map .str ++ (split ['/'] (← text relPath)).dropLast.map .str
      | none, some (.list subtopic) => return topic_prefix.map .str ++ subtopic
      | none, some _ => .error .typeError
      | none, none => return topic_prefix.map .str

end Topic

section V02
variable (lib : Standard) (digests : Digests) (p : Publisher)

/-- What is told by the notice, the sum and the parts. -/
def V02.told : List String :=
  ["pubTime", "baseUrl", "fileOp", "relPath", "size", "blocks", "content", "identity", "publisher_index"]

def V02.exportMine (msg : Message) : Except Fault (Str × Dict Value) := do
  let (notice, body) ← v2Message lib digests msg
  return (notice, Dict.set (V02.told.foldl Dict.del body) "topic" (.list (← topicDerive p body)))

end V02
end Sarracenia.Source.Export
