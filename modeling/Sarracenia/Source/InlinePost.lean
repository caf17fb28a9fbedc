import Mathlib.Data.List.Infix
import Sarracenia.Library.Utf8
import Sarracenia.Source.Inline

/-!
# Putting the content in the message (`File.post_file` of `flowcb/gather/file.py`,
`Message.putContentInline` and `Message.getContent` of `sarracenia/__init__.py`)

What the type of a file is guessed to be, what is read of it and what is fetched for a message are
given from outside. The size of a file and its bytes are two readings, and may differ.
-/
namespace Sarracenia.Source.InlinePost
open Library Library.Text Library.Dynamic Library.Percent
open Source.Transfer (Bytes)

structure Options where
  post_format : Str
  inline : Bool
  inlineByteMax : Int
  inlineOnly : Bool
  inlineEncoding : Str

def b64encode (d : Bytes) : Str := PostFormat.base64 (d.map UInt8.toNat)

section Posting
variable (o : Options)

/-- Whether the content is taken for binary: not where its type has a `text` in it, or else where
the option is `text`. -/
def binary (guess_type : Option Str) : Bool :=
  if o.inlineEncoding = "guess".toList then !guess_type.any fun e => "text".toList <:+: e
  else o.inlineEncoding = "text".toList

/-- What is not taken for binary may still be. -/
def content (binary : Bool) (d : Bytes) : Value :=
  match if binary then none else decodeUtf8 d with
  | some text => .dict [("encoding", .str "utf-8".toList), ("value", .str text)]
  | none => .dict [("encoding", .str "base64".toList), ("value", .str (b64encode d))]

/-- The end of `post_file` for a file. -/
def post_file (guess_type : Option Str) (st_size : Nat) (d : Bytes) (msg : Message) :
    Option Message :=
  if o.post_format = "v03".toList ∧ o.inline then
    if st_size < o.inlineByteMax then some (msg.set "content" (content (binary o guess_type) d))
    else if o.inlineOnly then none else some msg
  else some msg

end Posting

section Embedding

/-- `getContent` of a message with a content. -/
def getContent (encode : Str → Str → Except Fault Bytes) (inputCharset : Option Str)
    (msg : Message) : Except Fault Bytes := do
  let content ← msg.item "content"
  if (← content.item "encoding").equals "base64".toList then
    Inline.b64decode (← (← content.item "value").asStr)
  else match ← content.item "value" with
    | .str value => encode (inputCharset.getD "utf-8".toList) value
    | _ => .error .attributeError

/-- Whether the message has that size by now. -/
def hasSize (sz : Nat) (msg : Message) : Bool :=
  (msg.get "size").any fun size => match size.asNumber with
    | .ok q => q = sz
    | .error _ => false

/-- `putContentInline`, from what `getContent` fetches for a message without a content. -/
def putContentInline (inlineByteMax : Int) (fetched : Except Fault Bytes) (msg : Message) :
    Message :=
  if (msg.get "content").isSome then msg
  else match fetched with
    | .error _ => msg
    | .ok content =>
      let msg := if hasSize content.length msg then msg else msg.set "size" (.int content.length)
      if inlineByteMax ≤ content.length then msg
      else match decodeUtf8 content with
        | some text =>
          msg.set "content" (.dict [("value", .str text), ("encoding", .str "utf-8".toList)])
        | none =>
          msg.set "content"
            (.dict [("value", .str (b64encode content)), ("encoding", .str "base64".toList)])

end Embedding
end Sarracenia.Source.InlinePost
