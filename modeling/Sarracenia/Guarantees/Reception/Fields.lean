import Sarracenia.Guarantees.Message
import Sarracenia.Source.Reception

/-!
# What a notice must hold to be filled in

Every consumer derives the source and the topics of a notice and then marks the fields it
added. None of that touches the time, and it raises exactly where the path is not a text,
the exchange is not one and is read, or the fields cannot be marked.
-/
namespace Sarracenia.Guarantees.Reception
open Library Library.Text Library.Dynamic Source Source.PostFormat Source.Reception
open Guarantees.Message

section Source
variable (o : Options) {msg msg' : Message}

/-- The fields to leave out of a post can be marked. -/
def Markable (msg : Message) : Prop := ∃ members, msg.get "_deleteOnPost" = some (.set members)

theorem markable_congr (same : msg'.get "_deleteOnPost" = msg.get "_deleteOnPost") :
    Markable msg' ↔ Markable msg := by
  unfold Markable
  rw [same]

/-- The exchange is a text, where the source is looked for in it. -/
def ExchangeReadable (msg : Message) : Prop :=
  o.source = none → o.sourceFromExchange = true →
    ∀ v, msg.get "exchange" = some v → ∃ s, v = .str s

theorem deriveSource_get {key : String} (other : key ≠ "source")
    (done : deriveSource o msg = .ok msg') : msg'.get key = msg.get key := by
  unfold deriveSource at done
  obtain ⟨source, -, done⟩ := bind_ok_iff.mp done
  split at done
  · obtain rfl := Except.ok.inj done
    rfl
  · split at done
    · obtain rfl := Except.ok.inj done
      exact Dict.get_set_ne _ other _
    · obtain rfl := Except.ok.inj done
      split
      · exact Dict.get_del_ne _ other
      · rfl

theorem sourceFound_ok_iff :
    (∃ source, sourceFound o msg = .ok source) ↔ ExchangeReadable o msg := by
  unfold sourceFound ExchangeReadable
  constructor
  · intro found unset fromExchange v here
    obtain ⟨source, found⟩ := found
    rw [unset, fromExchange, here] at found
    cases v with
    | str s => exact ⟨s, rfl⟩
    | _ => cases found
  · intro readable
    split
    · exact ⟨_, rfl⟩
    · next exchange unset fromExchange here =>
      obtain ⟨s, rfl⟩ := readable unset fromExchange exchange here
      exact ⟨_, rfl⟩
    · exact ⟨_, rfl⟩

theorem deriveSource_ok_iff :
    (∃ msg', deriveSource o msg = .ok msg') ↔ ExchangeReadable o msg := by
  rw [← sourceFound_ok_iff]
  unfold deriveSource
  constructor
  · intro done
    obtain ⟨msg', done⟩ := done
    obtain ⟨source, found, -⟩ := bind_ok_iff.mp done
    exact ⟨source, found⟩
  · intro found
    obtain ⟨source, found⟩ := found
    simp only [bind_ok_iff]
    split
    · exact ⟨msg, source, found, rfl⟩
    · cases source with
      | none => exact ⟨_, none, found, rfl⟩
      | some source => cases source <;> exact ⟨_, _, found, rfl⟩

end Source

section Topics
variable (o : Options) (topic separator : Str) {msg msg' : Message}

/-- The path is a text, where the topic is compared with it. -/
def PathReadable (msg : Message) : Prop :=
  o.topicCopy = true ∨ ∀ v, msg.get "relPath" = some v → ∃ s, v = .str s

theorem moved_ok_iff (copies : o.topicCopy = false) (msg_topic : List Str) :
    (∃ is, moved o msg_topic msg = .ok is) ↔ PathReadable o msg := by
  unfold moved PathReadable
  rw [copies]
  cases here : msg.get "relPath" with
  | none => simp
  | some v => cases v <;> simp [Value.asStr, bind, Except.bind, pure, Except.pure, em]

theorem topicOverride_get {key : String} (other : key ≠ "topic") (mark : key ≠ "_deleteOnPost")
    (done : topicOverride topic msg = .ok msg') : msg'.get key = msg.get key := by
  rw [deleteOnPost_get mark done, Dict.get_set_ne _ other]

theorem topicOverride_ok_iff :
    (∃ msg', topicOverride topic msg = .ok msg') ↔ Markable msg := by
  unfold topicOverride
  rw [deleteOnPost_ok_iff, Dict.get_set_ne _ (by decide)]
  rfl

/-- The topics touch three fields, and leave the fields markable as they were. -/
theorem deriveTopics_get (done : deriveTopics o topic separator msg = .ok msg') :
    (∀ key, key ≠ "topic" → key ≠ "subtopic" → key ≠ "_deleteOnPost" →
      msg'.get key = msg.get key) ∧ (Markable msg' ↔ Markable msg) := by
  have overrides {m : Message} (same : ∀ key, key ≠ "subtopic" → m.get key = msg.get key)
      (done : topicOverride topic m = .ok msg') :
      (∀ key, key ≠ "topic" → key ≠ "subtopic" → key ≠ "_deleteOnPost" →
        msg'.get key = msg.get key) ∧ (Markable msg' ↔ Markable msg) := by
    constructor
    · intro key other sub mark
      exact (topicOverride_get topic other mark done).trans (same key sub)
    · have marked := (topicOverride_ok_iff topic).mp ⟨_, done⟩
      exact iff_of_true (deleteOnPost_marked done) ((markable_congr (same _ (by decide))).mp marked)
  unfold deriveTopics at done
  dsimp only at done
  split at done
  · exact overrides (fun _ _ => rfl) done
  · obtain ⟨moved, -, done⟩ := bind_ok_iff.mp done
    split at done
    · have subtopic (key : String) (other : key ≠ "subtopic") :=
        Dict.get_set_ne msg other
          (.list (((split separator topic).drop o.topicPrefix.length).map .str))
      split at done
      · exact overrides subtopic done
      · obtain rfl := Except.ok.inj done
        exact ⟨fun key _ other _ => subtopic key other, markable_congr (subtopic _ (by decide))⟩
    · exact overrides (fun _ _ => rfl) done

/-- The topics of a message whose fields can be marked are derived exactly when its path
can be read. -/
theorem deriveTopics_ok_iff (markable : Markable msg) :
    (∃ msg', deriveTopics o topic separator msg = .ok msg') ↔ PathReadable o msg := by
  have overrides {m : Message} (same : m.get "_deleteOnPost" = msg.get "_deleteOnPost") :
      ∃ msg', topicOverride topic m = .ok msg' :=
    (topicOverride_ok_iff topic).mpr ((markable_congr same).mpr markable)
  unfold deriveTopics
  dsimp only
  cases copies : o.topicCopy with
  | true => exact iff_of_true (overrides rfl) (.inl copies)
  | false =>
    rw [← moved_ok_iff o copies (split separator topic)]
    constructor
    · intro done
      obtain ⟨msg', done⟩ := done
      obtain ⟨is, read, -⟩ := bind_ok_iff.mp done
      exact ⟨is, read⟩
    · intro read
      obtain ⟨is, read⟩ := read
      simp only [Bool.false_eq_true, if_false, bind_ok_iff]
      rw [exists_comm]
      refine ⟨is, ?_⟩
      simp only [read, true_and]
      split
      · split
        · exact overrides (Dict.get_set_ne msg (by decide) _)
        · exact ⟨_, rfl⟩
      · exact overrides rfl

theorem pathReadable_congr (same : msg'.get "relPath" = msg.get "relPath") :
    PathReadable o msg' ↔ PathReadable o msg := by
  unfold PathReadable
  rw [same]

end Topics

section Time
variable (letters : Char → Bool) {msg msg' : Message}

/-- The time is there, and can be measured. -/
def TimeReadable (msg : Message) : Prop :=
  ∃ v, msg.get "pubTime" = some v ∧ ∃ valid, Message.timeValidate letters v = .ok valid

theorem timeReadable_congr (same : msg'.get "pubTime" = msg.get "pubTime") :
    TimeReadable letters msg' ↔ TimeReadable letters msg := by
  unfold TimeReadable
  rw [same]

/-- Validating answers exactly when the time can be read. -/
theorem validate_ok_iff :
    (∃ valid, Message.validate letters msg = .ok valid) ↔ TimeReadable letters msg := by
  unfold Message.validate TimeReadable Dict.item
  dsimp only
  cases here : Dict.get msg "pubTime" with
  | none => simp [bind, Except.bind]
  | some v =>
    simp only [Option.some.injEq, exists_eq_left', bind_ok_iff, Except.ok.injEq]
    constructor
    · intro answered
      obtain ⟨_, valid, measured, -⟩ := answered
      exact ⟨valid, measured⟩
    · intro measured
      obtain ⟨valid, measured⟩ := measured
      exact ⟨_, valid, measured, rfl⟩

theorem validate_congr (same : ∀ key ∈ ["pubTime", "baseUrl", "relPath"], msg'.get key = msg.get key) :
    Message.validate letters msg' = Message.validate letters msg := by
  unfold Message.validate Dict.item
  simp only [List.all_cons, List.all_nil, same "pubTime" (by simp), same "baseUrl" (by simp),
    same "relPath" (by simp)]

end Time

section Subscription
variable (o : Options) {msg : Message}

/-- Which subscription a message came by can be noted, and touches no other field. -/
theorem subscribed_ok (markable : Markable msg) : ∃ msg', AMQP.subscribed o msg = .ok msg' ∧
    ∀ key, key ≠ "_deleteOnPost" → key ≠ "subscription_index" → msg'.get key = msg.get key := by
  have marked : Markable (msg.set "subscription_index" (.int o.subscription_index)) := by
    unfold Markable
    rw [Dict.get_set_ne _ (by decide)]
    exact markable
  obtain ⟨msg', done⟩ := (deleteOnPost_ok_iff _ ["subscription_index"]).mpr marked
  refine ⟨msg', done, fun key mark index => ?_⟩
  rw [deleteOnPost_get mark done, Dict.get_set_ne _ index]

end Subscription

/-! ## What the examples run with -/

/-- A library that reads no JSON text, as is right for notices in other formats. -/
def noJson : Standard := ⟨fun _ => none, fun _ => .error .valueError, fun _ => [], fun _ => false⟩

def plain : Options := ⟨none, false, false, false, ["v02".toList], true, 0, 25⟩

end Sarracenia.Guarantees.Reception
