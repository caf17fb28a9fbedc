import Sarracenia.Guarantees.Reception.Fields
import Mathlib.Data.List.Nodup

/-!
# MQTT: returned or acknowledged, once

Payloads are taken from a queue, one or a batch of them in a call. What does not decode is
acknowledged by the caller; a message that is not valid is acknowledged by the decoder and
then by the caller; and what follows the decoding is not guarded.

* one payload: the four ends its decoding can come to (`msgDecode_spec`);
* what one call does to the queue, the acknowledgements and the messages (`drain_ledger`,
  `getNewMessage_ledger`), and what holds after any calls (`run_ledger`);
* every payload is returned or acknowledged, once, and no call raises, exactly when every
  payload that was taken fails to decode or is a valid notice (`run_conserves_iff`).
-/
namespace Sarracenia.Guarantees.Reception.MQTT
open Library Library.Text Library.Dynamic Source Source.PostFormat Source.Reception
open Source.Reception.MQTT Guarantees.Message

section Claim
variable (lib : Standard) (o : Options) (broker : Str)

/-- What a format makes of a notice can be filled in, and is valid. -/
structure Valid (msg : Message) : Prop where
  markable : Markable msg
  path : PathReadable o msg
  exchange : o.exchange = true ∨ ExchangeReadable o msg
  valid : Message.validate lib.letters msg = .ok true

/-- The payload does not decode, or it is a valid notice. -/
def Sound (raw : Raw) : Prop :=
  ∀ payload, utf8 raw.payload = some payload →
    ∀ read, importAny lib payload (some raw.headers) raw.ContentType = .ok read →
      ∃ msg, read = some msg ∧ Valid lib o msg

/-- A consumer: the payloads that wait, and all that happened so far. -/
structure State where
  rx_msg_q : List Raw
  next : Nat
  taken : List Raw
  acks : List Ack
  returned : List (Raw × Message)
  raised : Bool

inductive Call where
  | arrive (raw : Raw)
  | newMessages
  | getNewMessage

def State.after (s : State) (turn : Turn) : State where
  rx_msg_q := turn.left
  next := s.next
  taken := s.taken ++ turn.taken
  acks := s.acks ++ turn.acks
  returned := s.returned ++ turn.result.toOption.getD []
  raised := s.raised || !turn.result.isOk

/-- A payload gets its number when it arrives. -/
def call (s : State) : Call → State
  | .arrive raw =>
    { s with rx_msg_q := s.rx_msg_q ++ [{ raw with number := s.next }], next := s.next + 1 }
  | .newMessages => s.after (newMessages lib o broker s.rx_msg_q)
  | .getNewMessage => s.after (getNewMessage lib o broker s.rx_msg_q)

def run (calls : List Call) : State := calls.foldl (call lib o broker) ⟨[], 0, [], [], [], false⟩

/-- `ack_id` has the id of the payload. -/
def Carries (raw : Raw) (msg : Message) : Prop :=
  ∃ fields : Dict Value, msg.get "ack_id" = some (.dict fields) ∧
    fields.get "delivery_tag" = some (.int raw.mid)

/-- No call raised, and every payload that was taken was returned with its id, once, and not
acknowledged, or acknowledged, once, and not returned. -/
structure Conserved (s : State) : Prop where
  quiet : s.raised = false
  accounted : ∀ raw ∈ s.taken,
    (∃ msg, s.returned.filter (·.1.number = raw.number) = [(raw, msg)] ∧ Carries raw msg ∧
      s.acks.filter (·.number = raw.number) = []) ∨
    s.returned.filter (·.1.number = raw.number) = [] ∧
      s.acks.filter (·.number = raw.number) = [raw.ack]

end Claim

section Decode
variable (lib : Standard) (o : Options) (broker : Str) (raw : Raw) {msg msg' : Message}

/-- The exchange is taken from the topic, where one is asked for. -/
def exchanged (msg : Message) : Except Fault Message :=
  if o.exchange then
    Message.deleteOnPost (msg.set "exchange" (.str ((split ['/'] raw.topic).headD []))) ["exchange"]
  else .ok msg

theorem fill_eq : fill o broker raw msg = (exchanged o raw msg >>= fun msg =>
    deriveSource o msg >>= fun msg => deriveTopics o raw.topic ['/'] msg >>= fun msg =>
      Message.deleteOnPost (Dict.set (Dict.set (Dict.set msg "ack_id"
        (.dict [("delivery_tag", .int raw.mid), ("broker", .str broker)])) "qos" (.int raw.qos))
          "local_offset" (.int 0)) ["local_offset", "ack_id", "qos"]) := by
  unfold fill exchanged
  cases o.exchange <;> rfl

theorem exchanged_get {key : String} (other : key ≠ "exchange") (mark : key ≠ "_deleteOnPost")
    (done : exchanged o raw msg = .ok msg') : msg'.get key = msg.get key := by
  unfold exchanged at done
  split at done
  · rw [deleteOnPost_get mark done, Dict.get_set_ne _ other]
  · obtain rfl := Except.ok.inj done
    rfl

theorem exchanged_markable (done : exchanged o raw msg = .ok msg') :
    Markable msg' ↔ Markable msg := by
  unfold exchanged at done
  split at done
  · have marked := (deleteOnPost_ok_iff _ _).mp ⟨_, done⟩
    rw [Dict.get_set_ne _ (by decide)] at marked
    exact iff_of_true (deleteOnPost_marked done) marked
  · obtain rfl := Except.ok.inj done
    rfl

theorem exchanged_readable (done : exchanged o raw msg = .ok msg') :
    ExchangeReadable o msg' ↔ o.exchange = true ∨ ExchangeReadable o msg := by
  unfold exchanged at done
  split at done
  · next asked =>
    refine iff_of_true (fun _ _ v here => ?_) (.inl asked)
    rw [deleteOnPost_get (by decide) done, Dict.get_set_self] at here
    exact ⟨_, (Option.some.inj here).symm⟩
  · next unasked =>
    obtain rfl := Except.ok.inj done
    simp [unasked]

theorem exchanged_ok (markable : Markable msg) : ∃ msg', exchanged o raw msg = .ok msg' := by
  unfold exchanged
  split
  · refine (deleteOnPost_ok_iff _ _).mpr ?_
    rw [Dict.get_set_ne _ (by decide)]
    exact markable
  · exact ⟨msg, rfl⟩

theorem fill_ok_iff : (∃ msg', fill o broker raw msg = .ok msg') ↔
    Markable msg ∧ PathReadable o msg ∧ (o.exchange = true ∨ ExchangeReadable o msg) := by
  have ending (topics : Message) : (∃ msg', Message.deleteOnPost (Dict.set (Dict.set (Dict.set topics
      "ack_id" (.dict [("delivery_tag", .int raw.mid), ("broker", .str broker)])) "qos"
        (.int raw.qos)) "local_offset" (.int 0)) ["local_offset", "ack_id", "qos"] = .ok msg') ↔
      Markable topics := by
    rw [deleteOnPost_ok_iff, Dict.get_set_ne _ (by decide), Dict.get_set_ne _ (by decide),
      Dict.get_set_ne _ (by decide)]
    rfl
  rw [fill_eq]
  constructor
  · intro filled
    obtain ⟨msg', filled⟩ := filled
    simp only [bind_ok_iff] at filled
    obtain ⟨named, exchange, sourced, source, topics, derived, done⟩ := filled
    have marked := (deriveTopics_get o raw.topic ['/'] derived).2.mp ((ending topics).mp ⟨msg', done⟩)
    have path := (deriveTopics_ok_iff o raw.topic ['/'] marked).mp ⟨topics, derived⟩
    have same (key : String) (a : key ≠ "source") := deriveSource_get o a source
    rw [markable_congr (same _ (by decide)), exchanged_markable o raw exchange] at marked
    rw [pathReadable_congr o (same _ (by decide)),
      pathReadable_congr o (exchanged_get o raw (by decide) (by decide) exchange)] at path
    exact ⟨marked, path, (exchanged_readable o raw exchange).mp ((deriveSource_ok_iff o).mp ⟨_, source⟩)⟩
  · intro ready
    obtain ⟨marked, path, readable⟩ := ready
    obtain ⟨named, exchange⟩ := exchanged_ok o raw marked
    obtain ⟨sourced, source⟩ :=
      (deriveSource_ok_iff o).mpr ((exchanged_readable o raw exchange).mpr readable)
    have same (key : String) (a : key ≠ "source") := deriveSource_get o a source
    rw [← exchanged_markable o raw exchange, ← markable_congr (same _ (by decide))] at marked
    rw [← pathReadable_congr o (exchanged_get o raw (by decide) (by decide) exchange),
      ← pathReadable_congr o (same _ (by decide))] at path
    obtain ⟨topics, derived⟩ := (deriveTopics_ok_iff o raw.topic ['/'] marked).mpr path
    obtain ⟨msg', done⟩ :=
      (ending topics).mpr ((deriveTopics_get o raw.topic ['/'] derived).2.mpr marked)
    simp only [bind_ok_iff]
    exact ⟨msg', named, exchange, sourced, source, topics, derived, done⟩

theorem fill_keeps (filled : fill o broker raw msg = .ok msg') :
    Markable msg' ∧ Carries raw msg' ∧
      ∀ key ∈ ["pubTime", "baseUrl", "relPath"], msg'.get key = msg.get key := by
  rw [fill_eq] at filled
  simp only [bind_ok_iff] at filled
  obtain ⟨named, exchange, sourced, source, topics, derived, done⟩ := filled
  refine ⟨deleteOnPost_marked done, ?_, fun key given => ?_⟩
  · refine ⟨[("delivery_tag", .int raw.mid), ("broker", .str broker)], ?_, ?_⟩
    · rw [deleteOnPost_get (by decide) done, Dict.get_set_ne _ (by decide),
        Dict.get_set_ne _ (by decide), Dict.get_set_self]
    · rw [Dict.get_cons, if_pos rfl]
  · have apart : key ≠ "_deleteOnPost" ∧ key ≠ "local_offset" ∧ key ≠ "qos" ∧ key ≠ "ack_id" ∧
        key ≠ "topic" ∧ key ≠ "subtopic" ∧ key ≠ "source" ∧ key ≠ "exchange" := by
      revert given
      revert key
      decide
    obtain ⟨mark, offset, qos, ack, topic, subtopic, source', exchange'⟩ := apart
    rw [deleteOnPost_get mark done, Dict.get_set_ne _ offset, Dict.get_set_ne _ qos,
      Dict.get_set_ne _ ack, (deriveTopics_get o _ _ derived).1 key topic subtopic mark,
      deriveSource_get o source' source, exchanged_get o raw exchange' mark exchange]

/-- The ends of a decoding: a message; nothing; nothing and an acknowledgement; an exception. -/
inductive Ends (raw : Raw) : List Ack × Except Fault (Option Message) → Prop where
  | message (msg : Message) (markable : Markable msg) (carries : Carries raw msg) :
      Ends raw ([], .ok (some msg))
  | ignored : Ends raw ([], .ok none)
  | invalid : Ends raw ([raw.ack], .ok none)
  | raised (f : Fault) : Ends raw ([], .error f)

/-- Of which two are as they should be. -/
def Right : List Ack × Except Fault (Option Message) → Prop
  | ([], .ok _) => True
  | _ => False

theorem msgDecode_spec : Ends raw (_msgDecode lib o broker raw) ∧
    (Right (_msgDecode lib o broker raw) ↔ Sound lib o raw) := by
  unfold _msgDecode Sound
  cases decoded : utf8 raw.payload with
  | none => exact ⟨.ignored, by simp [Right]⟩
  | some payload =>
    simp only [Option.some.injEq, forall_eq']
    cases read : importAny lib payload (some raw.headers) raw.ContentType with
    | error f => exact ⟨.ignored, by simp [Right]⟩
    | ok result =>
      simp only [Except.ok.injEq, forall_eq']
      cases result with
      | none => exact ⟨.raised _, by simp [Right]⟩
      | some msg =>
        simp only [Option.some.injEq, exists_eq_left']
        cases filled : fill o broker raw msg with
        | error f =>
          refine ⟨.raised f, iff_of_false (by simp [Right]) fun valid => ?_⟩
          obtain ⟨msg', done⟩ :=
            (fill_ok_iff o broker raw).mpr ⟨valid.markable, valid.path, valid.exchange⟩
          rw [filled] at done
          cases done
        | ok msg' =>
          obtain ⟨markable, path, exchange⟩ := (fill_ok_iff o broker raw).mp ⟨msg', filled⟩
          obtain ⟨marked, carries, same⟩ := fill_keeps o broker raw filled
          have judged := validate_congr lib.letters same
          cases valid : Message.validate lib.letters msg' with
          | error f =>
            refine ⟨by simpa [valid] using Ends.raised f, iff_of_false (by simp [valid, Right]) ?_⟩
            intro sound
            rw [judged, sound.valid] at valid
            cases valid
          | ok valid' =>
            cases valid' with
            | true =>
              refine ⟨by simpa [valid] using Ends.message msg' marked carries,
                iff_of_true (by simp [valid, Right]) ⟨markable, path, exchange, ?_⟩⟩
              rw [← judged, valid]
            | false =>
              refine ⟨by simpa [valid] using Ends.invalid, iff_of_false (by simp [valid, Right]) ?_⟩
              intro sound
              rw [judged, sound.valid] at valid
              cases valid

end Decode

section Turns
variable (lib : Standard) (o : Options) (broker : Str)

/-- The acknowledgements that a payload gets: the caller adds one when there is no message. -/
def acksOf (raw : Raw) : List Ack :=
  match _msgDecode lib o broker raw with
  | (acks, .ok none) => acks ++ [raw.ack]
  | (acks, _) => acks

def gives (raw : Raw) : Bool :=
  match (_msgDecode lib o broker raw).2 with
  | .ok (some _) => true
  | _ => false

def raises (raw : Raw) : Bool := !(_msgDecode lib o broker raw).2.isOk

/-- What a call did, payload by payload. -/
structure Ledger (rx_msg_q : List Raw) (turn : Turn) : Prop where
  split : turn.taken ++ turn.left = rx_msg_q
  acks : turn.acks = turn.taken.flatMap (acksOf lib o broker)
  raised : turn.result.isOk = false ↔ ∃ raw ∈ turn.taken, raises lib o broker raw = true
  messages : ∀ ms, turn.result = .ok ms →
    ms.map Prod.fst = turn.taken.filter (gives lib o broker) ∧ ∀ m ∈ ms, Carries m.1 m.2

theorem drain_ledger (batch : Nat) (rx_msg_q : List Raw) :
    Ledger lib o broker rx_msg_q (drain lib o broker batch rx_msg_q) := by
  have nothing (q : List Raw) : Ledger lib o broker q ⟨[], q, [], .ok []⟩ :=
    ⟨rfl, rfl, by simp [Except.isOk, Except.toBool], fun ms given => by
      obtain rfl := Except.ok.inj given
      exact ⟨rfl, fun _ found => by cases found⟩⟩
  induction batch generalizing rx_msg_q with
  | zero =>
    rw [drain]
    exact nothing rx_msg_q
  | succ batch ih =>
    cases rx_msg_q with
    | nil => exact nothing []
    | cons raw rx_msg_q =>
      have ends := (msgDecode_spec lib o broker raw).1
      obtain ⟨split, acks, raised, messages⟩ := ih rx_msg_q
      generalize decoded : _msgDecode lib o broker raw = out at ends
      -- a payload that gives no message leaves the rest of the batch as it is
      have quiet (acks' : List Ack) (same : acks' ++ [raw.ack] = acksOf lib o broker raw)
          (out : _msgDecode lib o broker raw = (acks', .ok none)) :
          Ledger lib o broker (raw :: rx_msg_q) (drain lib o broker (batch + 1) (raw :: rx_msg_q)) := by
        simp only [drain, out]
        refine ⟨by simp [split], ?_, ?_, fun ms given => ?_⟩
        · rw [List.flatMap_cons, ← same, ← acks, List.append_assoc, List.singleton_append]
        · have calm : raises lib o broker raw = false := by
            simp [raises, out, Except.isOk, Except.toBool]
          rw [List.exists_mem_cons_iff, ← raised]
          simp [calm]
        · rw [List.filter_cons_of_neg (by simp [gives, out])]
          exact messages ms given
      cases ends with
      | message msg markable carries =>
        simp only [drain, decoded]
        refine ⟨by simp [split], by simp [acksOf, decoded, acks], ?_, fun ms given => ?_⟩
        · rw [List.exists_mem_cons_iff, ← raised]
          cases (drain lib o broker batch rx_msg_q).result <;>
            simp [raises, decoded, Except.map, Except.isOk, Except.toBool]
        · cases rest : (drain lib o broker batch rx_msg_q).result with
          | error f =>
            rw [rest] at given
            cases given
          | ok ms' =>
            rw [rest] at given
            obtain rfl := Except.ok.inj given
            obtain ⟨same, all⟩ := messages ms' rest
            rw [List.filter_cons_of_pos (by simp [gives, decoded]), List.map_cons, same]
            refine ⟨rfl, fun m' found => ?_⟩
            obtain rfl | found := List.mem_cons.mp found
            · exact carries
            · exact all m' found
      | ignored => exact quiet [] (by simp [acksOf, decoded]) decoded
      | invalid => exact quiet [raw.ack] (by simp [acksOf, decoded]) decoded
      | raised f =>
        simp only [drain, decoded]
        refine ⟨rfl, by simp [acksOf, decoded], ?_, fun ms given => by cases given⟩
        simp [raises, decoded, Except.isOk, Except.toBool]

/-- A message that carries its id carries it with the subscription, too. -/
theorem getNewMessage_ledger (rx_msg_q : List Raw) :
    Ledger lib o broker rx_msg_q (getNewMessage lib o broker rx_msg_q) := by
  cases rx_msg_q with
  | nil =>
    exact ⟨rfl, rfl, by simp [getNewMessage, Except.isOk, Except.toBool], fun ms given => by
      obtain rfl := Except.ok.inj given
      exact ⟨rfl, fun _ found => by cases found⟩⟩
  | cons raw rx_msg_q =>
    have ends := (msgDecode_spec lib o broker raw).1
    generalize decoded : _msgDecode lib o broker raw = out at ends
    have one (acks : List Ack) (result : Except Fault (List (Raw × Message)))
        (same : acks = acksOf lib o broker raw)
        (raised : result.isOk = false ↔ raises lib o broker raw = true)
        (messages : ∀ ms, result = .ok ms →
          ms.map Prod.fst = [raw].filter (gives lib o broker) ∧ ∀ m ∈ ms, Carries m.1 m.2) :
        Ledger lib o broker (raw :: rx_msg_q) ⟨[raw], rx_msg_q, acks, result⟩ :=
      ⟨rfl, by simp [same], by simp [raised], messages⟩
    have quiet {acks : List Ack} (decoded : _msgDecode lib o broker raw = (acks, .ok none)) :
        ∀ ms : List (Raw × Message), Except.ok (ε := Fault) [] = .ok ms →
          ms.map Prod.fst = [raw].filter (gives lib o broker) ∧ ∀ m ∈ ms, Carries m.1 m.2 := by
      intro ms given
      obtain rfl := Except.ok.inj given
      exact ⟨by simp [gives, decoded], fun _ found => by cases found⟩
    unfold getNewMessage
    cases ends with
    | message msg markable carries =>
      obtain ⟨msg', done, same⟩ := subscribed_ok o markable
      have carries' : Carries raw msg' := by
        unfold Carries
        rw [same _ (by decide) (by decide)]
        exact carries
      simp only [decoded, done]
      refine one _ _ (by simp [acksOf, decoded])
        (by simp [raises, decoded, Except.map, Except.isOk, Except.toBool]) fun ms given => ?_
      obtain rfl := Except.ok.inj given
      refine ⟨by simp [gives, decoded], fun m found => ?_⟩
      obtain rfl := List.mem_singleton.mp found
      exact carries'
    | ignored =>
      simp only [decoded]
      exact one _ _ (by simp [acksOf, decoded])
        (by simp [raises, decoded, Except.isOk, Except.toBool]) (quiet decoded)
    | invalid =>
      simp only [decoded]
      exact one _ _ (by simp [acksOf, decoded])
        (by simp [raises, decoded, Except.isOk, Except.toBool]) (quiet decoded)
    | raised f =>
      simp only [decoded]
      exact one _ _ (by simp [acksOf, decoded])
        (by simp [raises, decoded, Except.isOk, Except.toBool]) fun ms given => by cases given

end Turns

section Run
variable (lib : Standard) (o : Options) (broker : Str)

/-- What holds after any calls: the payloads that were taken tell what was acknowledged, what
was returned and whether a call raised. -/
structure Account (s : State) : Prop where
  acks : s.acks = s.taken.flatMap (acksOf lib o broker)
  raised : s.raised = true ↔ ∃ raw ∈ s.taken, raises lib o broker raw = true
  returned : s.raised = false → s.returned.map Prod.fst = s.taken.filter (gives lib o broker)
  carried : ∀ m ∈ s.returned, Carries m.1 m.2
  distinct : ((s.taken ++ s.rx_msg_q).map Raw.number).Nodup
  numbered : ∀ raw ∈ s.taken ++ s.rx_msg_q, raw.number < s.next

theorem after_account {s : State} (account : Account lib o broker s) {turn : Turn}
    (ledger : Ledger lib o broker s.rx_msg_q turn) : Account lib o broker (s.after turn) where
  acks := by
    show s.acks ++ turn.acks = (s.taken ++ turn.taken).flatMap _
    rw [account.acks, ledger.acks, List.flatMap_append]
  raised := by
    show (s.raised || !turn.result.isOk) = true ↔ ∃ raw ∈ s.taken ++ turn.taken, _
    rw [Bool.or_eq_true, account.raised, Bool.not_eq_true', ledger.raised]
    simp only [List.mem_append, or_and_right, exists_or]
  returned calm := by
    obtain ⟨before, now⟩ := Bool.or_eq_false_iff.mp (show (s.raised || !turn.result.isOk) = false from calm)
    cases given : turn.result with
    | error f =>
      rw [given] at now
      cases now
    | ok ms =>
      show (s.returned ++ turn.result.toOption.getD []).map Prod.fst = (s.taken ++ turn.taken).filter _
      rw [given, List.map_append, account.returned before, List.filter_append,
        ← (ledger.messages ms given).1]
      rfl
  carried m found := by
    obtain old | new := List.mem_append.mp
      (show m ∈ s.returned ++ turn.result.toOption.getD [] from found)
    · exact account.carried m old
    · cases given : turn.result with
      | error f =>
        rw [given] at new
        cases new
      | ok ms =>
        rw [given] at new
        exact (ledger.messages ms given).2 m new
  distinct := by
    show (((s.taken ++ turn.taken) ++ turn.left).map Raw.number).Nodup
    rw [List.append_assoc, ledger.split]
    exact account.distinct
  numbered := by
    show ∀ raw ∈ (s.taken ++ turn.taken) ++ turn.left, _
    rw [List.append_assoc, ledger.split]
    exact account.numbered

theorem call_account {s : State} (account : Account lib o broker s) (c : Call) :
    Account lib o broker (call lib o broker s c) := by
  cases c with
  | newMessages => exact after_account lib o broker account (drain_ledger lib o broker o.batch _)
  | getNewMessage => exact after_account lib o broker account (getNewMessage_ledger lib o broker _)
  | arrive raw =>
    refine ⟨account.acks, account.raised, account.returned, account.carried, ?_, ?_⟩
    · show ((s.taken ++ (s.rx_msg_q ++ [{ raw with number := s.next }])).map Raw.number).Nodup
      rw [← List.append_assoc, List.map_append, List.nodup_append]
      refine ⟨account.distinct, List.nodup_singleton _, fun a found b last => ?_⟩
      obtain rfl := List.mem_singleton.mp last
      obtain ⟨older, mem, rfl⟩ := List.mem_map.mp found
      exact Nat.ne_of_lt (account.numbered older mem)
    · show ∀ r ∈ s.taken ++ (s.rx_msg_q ++ [{ raw with number := s.next }]), r.number < s.next + 1
      intro r found
      rw [← List.append_assoc] at found
      obtain old | new := List.mem_append.mp found
      · exact Nat.lt_succ_of_lt (account.numbered r old)
      · obtain rfl := List.mem_singleton.mp new
        exact Nat.lt_succ_self _

theorem run_account (calls : List Call) : Account lib o broker (run lib o broker calls) := by
  unfold run
  have start : Account lib o broker ⟨[], 0, [], [], [], false⟩ :=
    ⟨rfl, by simp, fun _ => rfl, fun _ found => (by cases found), List.nodup_nil,
      fun _ found => by cases found⟩
  generalize (⟨[], 0, [], [], [], false⟩ : State) = s at start
  induction calls generalizing s with
  | nil => exact start
  | cons c calls ih => exact ih _ (call_account lib o broker start c)

/-- Of payloads with numbers of their own, one accounts for the acknowledgements of its number. -/
theorem acks_about {taken : List Raw} (distinct : (taken.map Raw.number).Nodup) {raw : Raw}
    (found : raw ∈ taken) :
    (taken.flatMap (acksOf lib o broker)).filter (·.number = raw.number) =
      acksOf lib o broker raw := by
  have own (r : Raw) : ∀ ack ∈ acksOf lib o broker r, ack.number = r.number := by
    have ends := (msgDecode_spec lib o broker r).1
    generalize decoded : _msgDecode lib o broker r = out at ends
    intro ack given
    cases ends <;> simp [acksOf, decoded] at given <;> rw [given] <;> rfl
  induction taken with
  | nil => cases found
  | cons r taken ih =>
    rw [List.map_cons, List.nodup_cons] at distinct
    rw [List.flatMap_cons, List.filter_append]
    obtain rfl | later := List.mem_cons.mp found
    · rw [List.filter_eq_self.mpr fun ack given => by simpa using own raw ack given,
        List.filter_eq_nil_iff.mpr, List.append_nil]
      intro ack given same
      obtain ⟨other, mem, given⟩ := List.mem_flatMap.mp given
      apply distinct.1
      rw [← of_decide_eq_true same, own other ack given]
      exact List.mem_map_of_mem mem
    · rw [ih distinct.2 later, List.filter_eq_nil_iff.mpr, List.nil_append]
      intro ack given same
      apply distinct.1
      rw [← own r ack given, of_decide_eq_true same]
      exact List.mem_map_of_mem later

theorem taken_about {taken : List Raw} (distinct : (taken.map Raw.number).Nodup) {raw : Raw}
    (found : raw ∈ taken) : taken.filter (·.number = raw.number) = [raw] := by
  induction taken with
  | nil => cases found
  | cons r taken ih =>
    rw [List.map_cons, List.nodup_cons] at distinct
    obtain rfl | later := List.mem_cons.mp found
    · rw [List.filter_cons_of_pos (by simp), List.filter_eq_nil_iff.mpr]
      intro other mem same
      apply distinct.1
      rw [← of_decide_eq_true same]
      exact List.mem_map_of_mem mem
    · rw [List.filter_cons_of_neg, ih distinct.2 later]
      intro same
      apply distinct.1
      rw [of_decide_eq_true same]
      exact List.mem_map_of_mem later

/-- The messages returned for a payload are those of its number. -/
theorem returned_about {s : State} (account : Account lib o broker s) (calm : s.raised = false)
    {raw : Raw} (found : raw ∈ s.taken) :
    (s.returned.filter (·.1.number = raw.number)).map Prod.fst =
      if gives lib o broker raw then [raw] else [] := by
  have distinct : (s.taken.map Raw.number).Nodup := by
    have both := account.distinct
    rw [List.map_append, List.nodup_append] at both
    exact both.1
  have filtered : (s.returned.filter (·.1.number = raw.number)).map Prod.fst =
      (s.returned.map Prod.fst).filter (·.number = raw.number) := by
    rw [List.filter_map]
    rfl
  rw [filtered, account.returned calm, List.filter_filter]
  have swap : (fun r : Raw => decide (r.number = raw.number) && gives lib o broker r) =
      fun r => gives lib o broker r && decide (r.number = raw.number) := by
    funext r
    exact Bool.and_comm _ _
  rw [swap, ← List.filter_filter, taken_about distinct found]
  cases gave : gives lib o broker raw <;> simp [gave]

/-- Every payload taken is returned or acknowledged, once, and no call raises, exactly when
every payload taken fails to decode or is a valid notice. -/
theorem run_conserves_iff (calls : List Call) :
    Conserved (run lib o broker calls) ↔
      ∀ raw ∈ (run lib o broker calls).taken, Sound lib o raw := by
  have account := run_account lib o broker calls
  generalize run lib o broker calls = s at account
  have distinct : (s.taken.map Raw.number).Nodup := by
    have both := account.distinct
    rw [List.map_append, List.nodup_append] at both
    exact both.1
  constructor
  · intro conserved raw found
    obtain ⟨ends, right⟩ := msgDecode_spec lib o broker raw
    rw [← right]
    have acks := acks_about lib o broker distinct found
    rw [← account.acks] at acks
    have calm : raises lib o broker raw = false := by
      rw [← Bool.not_eq_true]
      intro raised
      have loud := account.raised.mpr ⟨raw, found, raised⟩
      rw [conserved.quiet] at loud
      cases loud
    generalize decoded : _msgDecode lib o broker raw = out at ends
    cases ends with
    | message => trivial
    | ignored => trivial
    | raised f => simp [raises, decoded, Except.isOk, Except.toBool] at calm
    | invalid =>
      have two : acksOf lib o broker raw = [raw.ack, raw.ack] := by simp [acksOf, decoded]
      obtain ⟨msg, -, -, none⟩ | ⟨-, one⟩ := conserved.accounted raw found
      · rw [acks, two] at none
        cases none
      · rw [acks, two] at one
        cases one
  · intro sound
    have calm : s.raised = false := by
      rw [← Bool.not_eq_true]
      intro raised
      obtain ⟨raw, found, raised⟩ := account.raised.mp raised
      obtain ⟨ends, right⟩ := msgDecode_spec lib o broker raw
      have right := right.mpr (sound raw found)
      generalize decoded : _msgDecode lib o broker raw = out at ends right
      cases ends <;> simp [raises, decoded, Except.isOk, Except.toBool, Right] at raised right
    refine ⟨calm, fun raw found => ?_⟩
    obtain ⟨ends, right⟩ := msgDecode_spec lib o broker raw
    have right := right.mpr (sound raw found)
    have acks := acks_about lib o broker distinct found
    rw [← account.acks] at acks
    have returned := returned_about lib o broker account calm found
    generalize decoded : _msgDecode lib o broker raw = out at ends right
    cases ends with
    | message msg markable carries =>
      rw [show gives lib o broker raw = true by simp [gives, decoded], if_pos rfl] at returned
      obtain ⟨m, only, rfl⟩ := List.map_eq_singleton_iff.mp returned
      have mem : m ∈ s.returned := by
        have mem : m ∈ s.returned.filter (·.1.number = m.1.number) := by
          rw [only]
          exact List.mem_singleton_self m
        exact (List.mem_filter.mp mem).1
      exact .inl ⟨m.2, only, account.carried m mem, by rw [acks]; simp [acksOf, decoded]⟩
    | ignored =>
      rw [show gives lib o broker raw = false by simp [gives, decoded], if_neg (by simp),
        List.map_eq_nil_iff] at returned
      exact .inr ⟨returned, by rw [acks]; simp [acksOf, decoded]⟩
    | invalid => exact right.elim
    | raised f => exact right.elim

end Run

section Runs

/-- Three fields, of which the time has no seconds: `202001010000 u f`. -/
def noSeconds : Raw where
  number := 0
  topic := "x/v02/post".toList
  payload := [50, 48, 50, 48, 48, 49, 48, 49, 48, 48, 48, 48, 32, 117, 32, 102]
  ContentType := none
  UserProperty := []
  mid := 7
  qos := 1

/-- A notice that is not valid is acknowledged twice. -/
theorem noSeconds_not_conserved :
    ¬ ∀ (lib : Standard) (o : Options) (broker : Str) (calls : List Call),
      Conserved (run lib o broker calls) := by
  intro always
  have conserved := always noJson plain [] [.arrive noSeconds, .newMessages]
  have after : run noJson plain [] [.arrive noSeconds, .newMessages] =
      ⟨[], 1, [noSeconds], [⟨0, 7, 1⟩, ⟨0, 7, 1⟩], [], false⟩ := rfl
  rw [after] at conserved
  obtain ⟨msg, -, -, none⟩ | ⟨-, one⟩ := conserved.accounted noSeconds (List.mem_singleton_self _)
  · revert none
    decide
  · revert one
    decide

end Runs

end Sarracenia.Guarantees.Reception.MQTT
