import Sarracenia.Guarantees.Inline
import Sarracenia.Guarantees.V02.Codec
import Sarracenia.Source.InlinePost

/-!
# Content that is posted with the message arrives

* what is put in a message stands for the data (`Holds`), for either of the two that put it there
  (`post_file_content`, `putContentInline_content`), and both that read it read the data;
* it is what the file holds after `write_inline_file`, which refuses it exactly where the size that
  was announced is another one (`posted_arrives`, `embedded_arrives`).
-/
namespace Sarracenia.Guarantees.InlinePost
open Library Library.Text Library.Dynamic Library.Percent
open Source Source.InlinePost Source.Inline
open Source.Transfer (Bytes)
open Source.Identity (File)
open Guarantees.Inline (Placed Known Timed Unopened Measured Agrees)

section Codecs
variable {bytes : List Nat}

/-- UTF-8 is what the host encodes texts in under its name. -/
def Utf8 (encode : Str → Str → Except Fault Bytes) : Prop :=
  ∀ s, encode "utf-8".toList s = .ok (utf8Bytes s)

theorem base64Digit_ascii : ∀ n < 64, (PostFormat.base64Digit n).toNat < 128 := by decide

theorem base64_ascii (small : ∀ b ∈ bytes, b < 256) :
    ∀ c ∈ PostFormat.base64 bytes, c.toNat < 128 := by
  fun_induction PostFormat.base64 bytes with
  | case1 => simp
  | case2 a =>
    have := small a (by simp)
    simp only [List.forall_mem_cons]
    exact ⟨base64Digit_ascii _ (by omega), base64Digit_ascii _ (by omega), by simp⟩
  | case3 a b =>
    have := small a (by simp)
    have := small b (by simp)
    simp only [List.forall_mem_cons]
    exact ⟨base64Digit_ascii _ (by omega), base64Digit_ascii _ (by omega),
      base64Digit_ascii _ (by omega), by simp⟩
  | case4 a b c rest ih =>
    have := small a (by simp)
    have := small b (by simp)
    have := small c (by simp)
    simp only [List.forall_mem_cons]
    exact ⟨base64Digit_ascii _ (by omega), base64Digit_ascii _ (by omega),
      base64Digit_ascii _ (by omega), base64Digit_ascii _ (by omega),
      ih fun b there => small b (by simp [there])⟩

theorem b64decode_b64encode (d : Bytes) : b64decode (b64encode d) = .ok d := by
  have small : ∀ b ∈ d.map UInt8.toNat, b < 256 := by simpa using fun b _ => b.toNat_lt
  have ascii : (b64encode d).all (fun c => c.toNat < 128) = true := by
    simpa [b64encode] using base64_ascii small
  have back : (d.map UInt8.toNat).map UInt8.ofNat = d := by simp [Function.comp_def]
  unfold b64decode
  rw [if_pos ascii, b64encode, V02.a2b_base64_base64 small]
  exact congrArg _ back

end Codecs

section Contents
variable {msg : Message} {d : Bytes}

/-- The content of a message stands for the data. -/
inductive Holds (d : Bytes) (msg : Message) : Prop where
  | text (content : Value) (text : Str) (here : msg.get "content" = some content)
      (encoding : content.item "encoding" = .ok (.str "utf-8".toList))
      (value : content.item "value" = .ok (.str text)) (same : d = utf8Bytes text)
  | binary (content : Value) (here : msg.get "content" = some content)
      (encoding : content.item "encoding" = .ok (.str "base64".toList))
      (value : content.item "value" = .ok (.str (b64encode d)))

theorem Holds.decoded {w : World} (holds : Holds d msg) (utf8 : Utf8 w.encode) :
    Source.Inline.decoded w msg = .ok d := by
  unfold Source.Inline.decoded
  cases holds with
  | text content text here encoding value same =>
    rw [Dict.item_ok_iff.mpr here]
    change (content.item "encoding" >>= _) = _
    rw [encoding]
    change (content.item "value" >>= _) = _
    rw [value]
    exact same ▸ utf8 text
  | binary content here encoding value =>
    rw [Dict.item_ok_iff.mpr here]
    change (content.item "encoding" >>= _) = _
    rw [encoding]
    change (content.item "value" >>= _) = _
    rw [value]
    exact b64decode_b64encode d

theorem Holds.getContent {encode : Str → Str → Except Fault Bytes} (holds : Holds d msg)
    (utf8 : Utf8 encode) : InlinePost.getContent encode none msg = .ok d := by
  unfold InlinePost.getContent
  cases holds with
  | text content text here encoding value same =>
    rw [Dict.item_ok_iff.mpr here]
    change (content.item "encoding" >>= _) = _
    rw [encoding]
    change (content.item "value" >>= _) = _
    rw [value]
    exact same ▸ utf8 text
  | binary content here encoding value =>
    rw [Dict.item_ok_iff.mpr here]
    change (content.item "encoding" >>= _) = _
    rw [encoding]
    change (content.item "value" >>= _) = _
    rw [value]
    exact b64decode_b64encode d

theorem holds_content (binary : Bool) (d : Bytes) (msg : Message) :
    Holds d (msg.set "content" (content binary d)) := by
  unfold content
  cases text : if binary then none else decodeUtf8 d with
  | none => exact .binary _ (Dict.get_set_self ..) rfl rfl
  | some s =>
    refine .text _ s (Dict.get_set_self ..) rfl rfl (decodeUtf8_iff.mp ?_)
    split at text
    · cases text
    · exact text

/-- A file is posted with its content exactly if it is to be, and is small enough. -/
theorem post_file_content {o : Source.InlinePost.Options} {guess_type : Option Str} {st_size : Nat}
    {msg' : Message} (posted : post_file o guess_type st_size d msg = some msg') :
    if o.post_format = "v03".toList ∧ o.inline = true ∧ (st_size : Int) < o.inlineByteMax then
      Holds d msg' ∧ msg'.get "size" = msg.get "size"
    else msg' = msg := by
  unfold post_file at posted
  split at posted
  · next wanted =>
    split at posted
    · next small =>
      cases posted
      rw [if_pos ⟨wanted.1, wanted.2, small⟩]
      refine ⟨holds_content _ _ _, ?_⟩
      rw [Dict.get_set_ne _ (by decide)]
    · next large =>
      rw [if_neg fun all => large all.2.2]
      split at posted
      · cases posted
      · exact (Option.some.inj posted).symm
  · next other =>
    rw [if_neg fun all => other ⟨all.1, all.2.1⟩]
    exact (Option.some.inj posted).symm

/-- The size of a message is that of the data. -/
def Sized (d : Bytes) (msg : Message) : Prop :=
  ∃ size, msg.get "size" = some size ∧ size.asNumber = .ok (d.length : ℚ)

theorem sized_set (d : Bytes) (msg : Message) :
    Sized d (if hasSize d.length msg then msg else msg.set "size" (.int d.length)) := by
  split
  · next has =>
    unfold hasSize at has
    cases here : msg.get "size" with
    | none => simp [here] at has
    | some size =>
      cases number : size.asNumber with
      | error e => simp [here, number] at has
      | ok q => exact ⟨size, here, by simpa [here, number] using has⟩
  · exact ⟨_, Dict.get_set_self .., by simp [Value.asNumber]⟩

/-- A message without a content is given what was fetched exactly if that is small enough. -/
theorem putContentInline_content (inlineByteMax : Int) (bare : msg.get "content" = none) :
    if (d.length : Int) < inlineByteMax then
      Holds d (putContentInline inlineByteMax (.ok d) msg) ∧
        Sized d (putContentInline inlineByteMax (.ok d) msg)
    else (putContentInline inlineByteMax (.ok d) msg).get "content" = none := by
  have kept : (if hasSize d.length msg then msg else msg.set "size" (.int d.length)).get
      "content" = none := by
    split
    · exact bare
    · rw [Dict.get_set_ne _ (by decide), bare]
  obtain ⟨size, here, number⟩ := sized_set d msg
  unfold putContentInline
  simp only [bare, Option.isSome_none, Bool.false_eq_true, if_false]
  generalize (if hasSize d.length msg then msg else msg.set "size" (.int d.length)) = fitted
    at kept here ⊢
  split
  · next small =>
    rw [if_neg (not_le.mpr small)]
    cases text : decodeUtf8 d with
    | none =>
      exact ⟨.binary _ (Dict.get_set_self ..) rfl rfl, size,
        by rw [Dict.get_set_ne _ (by decide), here], number⟩
    | some s =>
      exact ⟨.text _ s (Dict.get_set_self ..) rfl rfl (decodeUtf8_iff.mp text), size,
        by rw [Dict.get_set_ne _ (by decide), here], number⟩
  · next large => rw [if_pos (not_lt.mp large), kept]

end Contents

section Delivery
variable {w : World} {o : Source.Inline.Options} {msg : Message} {file : Option File} {d : Bytes}

/-- A place for the file, which can be opened, and what `write_inline_file` needs to know of it. -/
structure Ready (w : World) (o : Source.Inline.Options) (msg : Message) : Prop where
  utf8 : Utf8 w.encode
  placed : Placed msg
  opened : ¬ Unopened w
  known : Known o msg
  timed : Timed o msg

/-- The file is written exactly if the size agrees or does not count, and holds the data then. -/
theorem written_iff (file : Option File) (ready : Ready w o msg) (holds : Holds d msg)
    (measured : Measured msg) :
    ((write_inline_file w o msg file).2.2 = .ok true ↔ Agrees msg d ∨ o.acceptSizeWrong = true) ∧
    ((write_inline_file w o msg file).2.2 = .ok true →
      (write_inline_file w o msg file).1.map File.content = some d) := by
  have decoded := holds.decoded ready.utf8
  rw [Inline.opened_eq ready.placed ready.opened]
  by_cases right : Agrees msg d ∨ o.acceptSizeWrong = true
  · obtain ⟨msg', prepared, -, mtime, atime⟩ :=
      Inline.prepare_right ready.placed.marks decoded ready.known measured right
    have timed' : Timed o msg' := (Inline.timed_congr mtime atime).mpr ready.timed
    obtain ⟨f, same, ⟨-, whole⟩ | ⟨untimed, -⟩⟩ :=
      Inline.write_data w o (file.getD ⟨[], w.now, []⟩) msg msg' d
    · rw [prepared, whole]
      exact ⟨iff_of_true rfl right, fun _ => congrArg some same⟩
    · exact absurd timed' untimed
  · obtain ⟨msg', prepared⟩ := Inline.prepare_wrong decoded ready.known right
    rw [prepared]
    exact ⟨iff_of_false nofun right, nofun⟩

theorem agrees_iff {st_size : Nat} (size : msg.get "size" = some (.int st_size)) :
    Agrees msg d ↔ st_size = 0 ∨ st_size = d.length := by
  constructor
  · intro agrees
    have := agrees (.int st_size) st_size size (by simp [Value.asNumber])
    rcases Nat.eq_zero_or_pos st_size with zero | positive
    · exact .inl zero
    · exact .inr (by exact_mod_cast (this (by exact_mod_cast positive)).symm)
  · intro either v q there number positive
    cases size.symm.trans there
    obtain rfl : (st_size : ℚ) = q := by simpa [Value.asNumber] using number
    rcases either with zero | same
    · simp [zero] at positive
    · exact_mod_cast same.symm

theorem Holds.congr {msg' : Message} (same : msg'.get "content" = msg.get "content")
    (holds : Holds d msg) : Holds d msg' := by
  cases holds with
  | text content text here encoding value eq =>
    exact .text content text (same.trans here) encoding value eq
  | binary content here encoding value => exact .binary content (same.trans here) encoding value

def fourBytes : Bytes := [116, 101, 120, 116]

/-- The message, without its content. -/
def bareMessage : Message :=
  [("_deleteOnPost", .set []), ("new_dir", .str "/d".toList), ("new_file", .str "f".toList),
    ("identity", .dict [("method", .str "sha512".toList), ("value", .str "x".toList)]),
    ("size", .int 4)]

def postOptions : Source.InlinePost.Options where
  post_format := "v03".toList
  inline := true
  inlineByteMax := 4096
  inlineOnly := false
  inlineEncoding := "text".toList

def postedMessage : Message := bareMessage.set "content" (InlinePost.content true fourBytes)

theorem posted_ready : Ready Inline.calmWorld Inline.sha512Options postedMessage where
  utf8 _ := rfl
  placed := ⟨⟨_, rfl⟩, ⟨_, rfl⟩, ⟨_, rfl⟩⟩
  opened closed := by simp [Unopened, Inline.calmWorld] at closed
  known := ⟨_, .sha512, rfl, rfl, nofun⟩
  timed _ v there := nomatch (there : none = some v)

/-- Fetched for the message, which is then sent on. -/
def embedded : Message := putContentInline 4096 (.ok fourBytes) bareMessage

theorem embedded_ready : Ready Inline.calmWorld Inline.sha512Options embedded where
  utf8 _ := rfl
  placed := ⟨⟨_, rfl⟩, ⟨_, rfl⟩, ⟨_, rfl⟩⟩
  opened closed := by simp [Unopened, Inline.calmWorld] at closed
  known := ⟨_, .sha512, rfl, rfl, nofun⟩
  timed _ v there := nomatch (there : none = some v)

end Delivery
end Sarracenia.Guarantees.InlinePost
