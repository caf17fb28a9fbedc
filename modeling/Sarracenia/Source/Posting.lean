import Sarracenia.Library.Utf8
import Sarracenia.Source.Export

/-!
# Where a notice is posted (`Moth.splitPick` of `sarracenia/moth/__init__.py`,
`AMQP.putNewMessage` of `sarracenia/moth/amqp.py`)

The exchange that is picked among several, and the routing key that the topic becomes. The
connection and the warnings are left out.
-/
namespace Sarracenia.Source.Posting
open Library Library.Text Library.Dynamic Library.Percent Source.Export

section Exchange

/-- `int(v)`. -/
def int : Value → Except Fault Int
  | .int i => .ok i
  | .bool b => .ok b.toNat
  | .float q => .ok (q.num.tdiv q.den)
  | .str s => TimeNotation.int s
  | _ => .error .typeError

/-- `sum(bytearray(v, 'ascii'))`. -/
def asciiSum (v : Value) : Except Fault Nat := do
  let s ← v.asStr
  if s.all (·.toNat < 128) then return (s.map Char.toNat).sum else .error .valueError

/-- `splitPick`, which is asked only where there are several exchanges. -/
def splitPick (exchange : List Str) (message : Message) : Except Fault Nat :=
  match message.get "exchangeSplitOverride", message.get "relPath", message.get "retrievePath" with
  | some override_, _, _ => (int override_).map fun i : Int => (i % exchange.length).toNat
  | none, some path, _ | none, none, some path => (asciiSum path).map (· % exchange.length)
  | none, none, none => .ok 0

end Exchange

section RoutingKey

def amqp_ss_maxlen : Nat := 255

/-- `'.'.join(headers['topic'])`, without the wildcards of a binding. -/
def joined (topic : List Str) : Str :=
  replaceAll ['*'] "%22".toList (replaceAll ['#'] "%23".toList (join ['.'] topic))

/-- `while byte & 0xc0 == 0xc0: mxlen -= 1`, for the byte before `mxlen`; the one before the first is the
last, which starts no character. -/
def moveBack (bytes : List UInt8) : Nat → Except Fault Nat
  | 0 => .ok 0
  | mxlen + 1 =>
    match bytes[mxlen]? with
    | none => .error .indexError
    | some byte => if startsLong byte then moveBack bytes mxlen else .ok (mxlen + 1)

def truncated (topic : Str) : Except Fault Str := do
  if 255 ≤ topic.length then
    let mxlen ← moveBack (utf8Bytes topic) amqp_ss_maxlen
    (decodeUtf8 ((utf8Bytes topic).take mxlen)).elim (.error .valueError) .ok
  else return topic

/-- What the notice is published under. -/
def routingKey (topic : List Str) : Except Fault Str := truncated (joined topic)

end RoutingKey
end Sarracenia.Source.Posting
