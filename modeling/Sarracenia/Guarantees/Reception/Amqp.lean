import Sarracenia.Guarantees.Reception.Fields

/-!
# AMQP: returned or acknowledged

A message that was fetched is returned with its delivery tag, or it is acknowledged. What
does not decode as UTF-8, what no format claims and what is not valid is acknowledged; an
exception is only logged.

* the fields of a delivery: when they can be filled in (`fill_ok_iff`), and what is kept of
  the notice (`fill_keeps`);
* nothing leaks exactly when a format reads the notice without raising and gives nothing, or
  a message whose time and path can be read (`getNewMessage_conserves_iff`);
* a notice of the old format with a short time, which is neither returned nor acknowledged.
-/
namespace Sarracenia.Guarantees.Reception.AMQP
open Library Library.Text Library.Dynamic Source Source.PostFormat Source.Reception
open Source.Reception.AMQP Guarantees.Message

section Claim
variable (lib : Standard) (o : Options) (c : Connection) (raw : Raw)

/-- `ack_id` has the delivery tag. -/
def Carries (msg : Message) : Prop :=
  ∃ fields : Dict Value, msg.get "ack_id" = some (.dict fields) ∧
    fields.get "delivery_tag" = some (.int raw.delivery_tag)

/-- The message is returned with its tag and not acknowledged, or acknowledged and not
returned. -/
def Conserved (out : Outcome (Option Message)) : Prop :=
  (∃ msg, out = ([], some msg) ∧ Carries raw msg) ∨ out = ([raw.delivery_tag], none)

/-- What a format makes of a notice can be filled in and judged. -/
structure Complete (msg : Message) : Prop where
  markable : Markable msg
  path : PathReadable o msg
  time : TimeReadable lib.letters msg

/-- The notice does not decode, or a format reads it without raising: to nothing, or to a
complete message. -/
def Sound : Prop :=
  ∀ body, raw.body.decode = some body →
    ∃ read, importAny lib body raw.headers raw.content_type = .ok read ∧
      ∀ msg, read = some msg → Complete lib o msg

end Claim

section Fill
variable (lib : Standard) (o : Options) (c : Connection) (raw : Raw) {msg msg' : Message}

/-- The fields of a delivery can be filled in exactly when the path can be read and the
fields can be marked. -/
theorem fill_ok_iff :
    (∃ msg', fill o c raw msg = .ok msg') ↔ Markable msg ∧ PathReadable o msg := by
  have exchange : ∃ sourced, deriveSource o (msg.set "exchange" (.str raw.exchange)) = .ok sourced := by
    refine (deriveSource_ok_iff o).mpr fun _ _ v here => ?_
    rw [Dict.get_set_self] at here
    exact ⟨raw.exchange, (Option.some.inj here).symm⟩
  obtain ⟨sourced, exchange⟩ := exchange
  have kept (key : String) (a : key ≠ "source") (b : key ≠ "exchange") :
      sourced.get key = msg.get key :=
    (deriveSource_get o a exchange).trans (Dict.get_set_ne _ b _)
  have marks : Markable sourced ↔ Markable msg := markable_congr (kept _ (by decide) (by decide))
  have path : PathReadable o sourced ↔ PathReadable o msg :=
    pathReadable_congr o (kept _ (by decide) (by decide))
  have ending (topics : Message) : (∃ msg', Message.deleteOnPost (Dict.set (Dict.set topics "ack_id"
      (ack_id c raw)) "local_offset" (.int 0)) ["ack_id", "exchange", "local_offset", "subtopic"] =
        .ok msg') ↔ Markable topics := by
    rw [deleteOnPost_ok_iff, Dict.get_set_ne _ (by decide), Dict.get_set_ne _ (by decide)]
    rfl
  unfold fill
  simp only [bind_ok_iff, exchange, Except.ok.injEq, exists_eq_left']
  rw [← marks, ← path, exists_comm]
  constructor
  · intro done
    obtain ⟨topics, msg', derived, done⟩ := done
    have keeps := (deriveTopics_get o (topic raw) ['.'] derived).2
    have marked := keeps.mp ((ending topics).mp ⟨msg', done⟩)
    exact ⟨marked, (deriveTopics_ok_iff o (topic raw) ['.'] marked).mp ⟨topics, derived⟩⟩
  · intro ready
    obtain ⟨marked, readable⟩ := ready
    obtain ⟨topics, derived⟩ := (deriveTopics_ok_iff o (topic raw) ['.'] marked).mpr readable
    have keeps := (deriveTopics_get o (topic raw) ['.'] derived).2
    obtain ⟨msg', done⟩ := (ending topics).mpr (keeps.mpr marked)
    exact ⟨topics, msg', derived, done⟩

/-- A message that was filled in has its tag, and the fields of the notice it is judged by. -/
theorem fill_keeps (done : fill o c raw msg = .ok msg') :
    Markable msg' ∧ Carries raw msg' ∧
      ∀ key ∈ ["pubTime", "baseUrl", "relPath"], msg'.get key = msg.get key := by
  unfold fill at done
  simp only [bind_ok_iff] at done
  obtain ⟨sourced, exchange, topics, derived, done⟩ := done
  refine ⟨deleteOnPost_marked done, ?_, fun key given => ?_⟩
  · refine ⟨[("delivery_tag", .int raw.delivery_tag), ("channel_id", .int raw.channel_id),
      ("connection_id", .str c.connection_id), ("broker", .str c.broker)], ?_, ?_⟩
    · rw [deleteOnPost_get (by decide) done, Dict.get_set_ne _ (by decide), Dict.get_set_self]
      rfl
    · rw [Dict.get_cons, if_pos rfl]
  · have apart : key ≠ "_deleteOnPost" ∧ key ≠ "local_offset" ∧ key ≠ "ack_id" ∧ key ≠ "topic" ∧
        key ≠ "subtopic" ∧ key ≠ "source" ∧ key ≠ "exchange" := by
      revert given
      revert key
      decide
    obtain ⟨mark, offset, ack, topic, subtopic, source, exchange'⟩ := apart
    rw [deleteOnPost_get mark done, Dict.get_set_ne _ offset, Dict.get_set_ne _ ack,
      (deriveTopics_get o _ _ derived).1 key topic subtopic mark, deriveSource_get o source exchange,
      Dict.get_set_ne _ exchange']

end Fill

section Main
variable (lib : Standard) (o : Options) (c : Connection) (raw : Raw)

/-- How the decoding ends: in a message with its tag, in an acknowledgement, or in an
exception with nothing acknowledged. -/
theorem msgRawToDict_spec :
    (Sound lib o raw ∧
      ((∃ msg, _msgRawToDict lib o c raw = ([], .ok (some msg)) ∧ Markable msg ∧ Carries raw msg) ∨
        _msgRawToDict lib o c raw = ([raw.delivery_tag], .ok none))) ∨
    (¬ Sound lib o raw ∧ ∃ f, _msgRawToDict lib o c raw = ([], .error f)) := by
  unfold _msgRawToDict Sound
  cases decoded : raw.body.decode with
  | none => exact .inl ⟨fun _ given => (by cases given), .inr rfl⟩
  | some body =>
    simp only [Option.some.injEq, forall_eq']
    cases read : importAny lib body raw.headers raw.content_type with
    | error f => exact .inr ⟨by simp, f, rfl⟩
    | ok result =>
      cases result with
      | none => exact .inl ⟨by simp, .inr rfl⟩
      | some msg =>
        simp only [Except.ok.injEq, exists_eq_left', Option.some.injEq, forall_eq']
        cases filled : fill o c raw msg with
        | error f =>
          refine .inr ⟨fun complete => ?_, f, rfl⟩
          obtain ⟨msg', done⟩ := (fill_ok_iff o c raw).mpr ⟨complete.markable, complete.path⟩
          rw [filled] at done
          cases done
        | ok msg' =>
          obtain ⟨markable, path⟩ := (fill_ok_iff o c raw).mp ⟨msg', filled⟩
          obtain ⟨marked, carries, same⟩ := fill_keeps o c raw filled
          have judged : (∃ valid, Message.validate lib.letters msg' = .ok valid) ↔
              TimeReadable lib.letters msg' := validate_ok_iff lib.letters
          rw [timeReadable_congr lib.letters (same "pubTime" (by simp))] at judged
          cases valid : Message.validate lib.letters msg' with
          | error f =>
            refine .inr ⟨fun complete => ?_, f, by simp [valid]⟩
            obtain ⟨answer, validated⟩ := judged.mpr complete.time
            rw [valid] at validated
            cases validated
          | ok valid' =>
            refine .inl ⟨⟨markable, path, judged.mp ⟨valid', valid⟩⟩, ?_⟩
            cases valid' with
            | true => exact .inl ⟨msg', by simp [valid], marked, carries⟩
            | false => exact .inr (by simp [valid])

/-- Either class returns a message with its tag or acknowledges it, exactly when the notice
is sound. -/
theorem getNewMessage_conserves_iff :
    (Conserved raw (getNewMessage lib o c raw) ↔ Sound lib o raw) ∧
      (Conserved raw (consumerGetNewMessage lib o c raw) ↔ Sound lib o raw) := by
  have leaks : ¬ Conserved raw ([], none) := by
    intro conserved
    obtain ⟨msg, same, -⟩ | same := conserved
    · cases same
    · cases same
  unfold getNewMessage consumerGetNewMessage
  obtain ⟨sound, ⟨msg, gives, markable, carries⟩ | acks⟩ | ⟨unsound, f, raises⟩ :=
    msgRawToDict_spec lib o c raw
  · rw [gives]
    obtain ⟨msg', done, same⟩ := subscribed_ok o markable
    have carries' : Carries raw msg' := by
      unfold Carries
      rw [same _ (by decide) (by decide)]
      exact carries
    refine ⟨iff_of_true (.inl ⟨msg', ?_, carries'⟩) sound, iff_of_true (.inl ⟨msg, rfl, carries⟩) sound⟩
    show ([], (subscribed o msg).toOption) = _
    rw [done]
    rfl
  · rw [acks]
    exact ⟨iff_of_true (.inr rfl) sound, iff_of_true (.inr rfl) sound⟩
  · rw [raises]
    exact ⟨iff_of_false leaks unsound, iff_of_false leaks unsound⟩

end Main

section Runs

/-- Three fields, of which the time is too short. -/
def shortTime : Raw where
  body := .text "2020 http://h/ f".toList
  headers := some []
  content_type := none
  routing_key := "v02.post".toList
  exchange := "xpublic".toList
  delivery_tag := 1
  channel_id := 2

/-- The time is read at its ninth character before anything guards it. -/
theorem shortTime_not_conserved :
    ¬ ∀ (lib : Standard) (o : Options) (c : Connection) (raw : Raw),
      Conserved raw (getNewMessage lib o c raw) ∧ Conserved raw (consumerGetNewMessage lib o c raw) := by
  intro always
  obtain ⟨conserved, -⟩ := always noJson plain ⟨[], []⟩ shortTime
  have leaks : getNewMessage noJson plain ⟨[], []⟩ shortTime = ([], none) := rfl
  rw [leaks] at conserved
  obtain ⟨msg, same, -⟩ | same := conserved
  · cases same
  · cases same

end Runs

end Sarracenia.Guarantees.Reception.AMQP
