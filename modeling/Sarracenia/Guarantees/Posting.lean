import Sarracenia.Source.Posting

/-!
# The length of a routing key

A topic of fewer than 255 characters is published as it is, however many bytes it has, and a longer one is
cut where its 255th byte may be inside a character. A key is what it should be where the topic fits, or is
longer in characters too and has one that ends with the 254th or the 255th byte.
-/
namespace Sarracenia.Guarantees.Posting
open Library Library.Text Library.Dynamic Library.Percent
open Source.Posting

section Truncated
variable {topic : Str}

/-- The key exists, and is the longest part of the topic that fits. -/
def Right (topic : Str) : Prop := ∃ key, truncated topic = .ok key ∧ Longest amqp_ss_maxlen topic key

/-- The topic fits, or is cut where a character ends. -/
def Cuttable (topic : Str) : Prop :=
  (utf8Bytes topic).length ≤ 255 ∨ 255 ≤ topic.length ∧ (Boundary topic 254 ∨ Boundary topic 255)

theorem truncated_short (short : topic.length < 255) : truncated topic = .ok topic := by
  unfold truncated
  rw [if_neg (Nat.not_le.mpr short)]
  rfl

theorem truncated_long (long : 255 ≤ topic.length) {mxlen : Nat} (moved : moveBack (utf8Bytes topic) 255 = .ok mxlen) :
    truncated topic = (decodeUtf8 ((utf8Bytes topic).take mxlen)).elim (.error .valueError) .ok := by
  unfold truncated amqp_ss_maxlen
  rw [if_pos long, moved]
  rfl

theorem truncated_at (long : 255 ≤ topic.length) {mxlen : Nat} (moved : moveBack (utf8Bytes topic) 255 = .ok mxlen)
    (within : mxlen ≤ (utf8Bytes topic).length) {key : Str} :
    truncated topic = .ok key ↔ key <+: topic ∧ (utf8Bytes key).length = mxlen := by
  rw [truncated_long long moved, ← decode_take_iff within]
  cases decodeUtf8 ((utf8Bytes topic).take mxlen) with
  | none => simp
  | some s => simp

/-- The byte before the limit starts a character: one byte less is taken. -/
theorem right_starting (long : 255 ≤ topic.length) {byte : UInt8} (there : (utf8Bytes topic)[254]? = some byte)
    (starts : startsLong byte = true) : Right topic := by
  obtain ⟨⟨a, b, cut, count⟩, ends⟩ := long_boundary there starts
  have bytes := length_le_bytes topic
  obtain ⟨before, is⟩ : ∃ before, (utf8Bytes topic)[253]? = some before :=
    ⟨_, List.getElem?_eq_getElem (by omega)⟩
  have plain : startsLong before = false := by
    by_contra other
    have apart := (long_boundary is (Bool.not_eq_false _ ▸ other)).2
    exact apart ⟨a, b, cut, count⟩
  have moved : moveBack (utf8Bytes topic) 255 = .ok 254 := by
    rw [moveBack, there]
    dsimp only
    rw [if_pos starts, moveBack, is]
    dsimp only
    rw [if_neg (by rw [plain]; exact Bool.false_ne_true)]
  have key : a <+: topic := ⟨b, cut.symm⟩
  refine ⟨a, (truncated_at long moved (by omega)).mpr ⟨key, count⟩, longest_of_boundary key ?_ fun n more within => ?_⟩
  · rw [count]
    decide
  · rw [count] at more
    obtain rfl : n = 255 := Nat.le_antisymm within more
    exact ends

/-- The byte before the limit starts none: it must end one. -/
theorem right_ending (long : 255 ≤ topic.length) {byte : UInt8} (there : (utf8Bytes topic)[254]? = some byte)
    (other : startsLong byte = false) : Right topic ↔ Boundary topic 255 := by
  have bytes := length_le_bytes topic
  have moved : moveBack (utf8Bytes topic) 255 = .ok 255 := by
    rw [moveBack, there]
    dsimp only
    rw [if_neg (by rw [other]; exact Bool.false_ne_true)]
  constructor
  · intro ⟨key, done, _⟩
    obtain ⟨⟨rest, cut⟩, count⟩ := (truncated_at long moved (by omega)).mp done
    exact ⟨key, rest, cut.symm, count⟩
  · intro ⟨a, b, cut, count⟩
    have key : a <+: topic := ⟨b, cut.symm⟩
    refine ⟨a, (truncated_at long moved (by omega)).mpr ⟨key, count⟩, longest_of_boundary key count.le fun n more within => ?_⟩
    exact absurd within (by rw [count] at more; exact Nat.not_le.mpr more)

theorem right_short (short : topic.length < 255) : Right topic ↔ (utf8Bytes topic).length ≤ 255 := by
  constructor
  · intro ⟨key, done, longest⟩
    obtain rfl := Except.ok.inj ((truncated_short short).symm.trans done)
    exact longest.fits
  · intro small
    exact ⟨topic, truncated_short short, longest_self small⟩

/-- As many bytes as characters: each is one byte. -/
theorem boundary_narrow (long : 255 ≤ topic.length) (small : (utf8Bytes topic).length ≤ 255) : Boundary topic 255 := by
  have bytes := length_le_bytes topic
  exact ⟨topic, [], (List.append_nil topic).symm, by omega⟩

theorem right_iff_cuttable (topic : Str) : Right topic ↔ Cuttable topic := by
  by_cases long : 255 ≤ topic.length
  · have bytes := length_le_bytes topic
    obtain ⟨byte, there⟩ : ∃ byte, (utf8Bytes topic)[254]? = some byte := ⟨_, List.getElem?_eq_getElem (by omega)⟩
    cases starts : startsLong byte with
    | true => exact iff_of_true (right_starting long there starts) (Or.inr ⟨long, Or.inl (long_boundary there starts).1⟩)
    | false =>
      rw [right_ending long there starts]
      constructor
      · intro ends
        exact Or.inr ⟨long, Or.inr ends⟩
      · rintro (small | ⟨-, before | ends⟩)
        · exact boundary_narrow long small
        · exact short_boundary there starts before
        · exact ends
  · have short := Nat.lt_of_not_le long
    rw [right_short short]
    constructor
    · exact Or.inl
    · rintro (small | ⟨more, -⟩)
      · exact small
      · exact absurd more long

end Truncated

section RoutingKey

/-- The key is published, and is the longest part of the escaped topic within the limit: all of it where it fits. -/
def Keyed (topic : List Str) : Prop :=
  ∃ key, routingKey topic = .ok key ∧ Longest amqp_ss_maxlen (joined topic) key ∧
    ((utf8Bytes (joined topic)).length ≤ amqp_ss_maxlen → key = joined topic)

theorem routing_key_iff (topic : List Str) : Keyed topic ↔ Cuttable (joined topic) := by
  rw [← right_iff_cuttable]
  constructor
  · intro ⟨key, done, longest, _⟩
    exact ⟨key, done, longest⟩
  · intro ⟨key, done, longest⟩
    exact ⟨key, done, longest, longest.whole⟩

/-- Two hundred characters of two bytes each are published whole. -/
theorem wide_topic_whole : ¬ ∀ topic, Keyed topic := by
  intro all
  obtain ⟨key, done, longest, _⟩ := all [List.replicate 200 'é']
  have short : (joined [List.replicate 200 'é']).length < 255 := by decide +kernel
  obtain rfl := Except.ok.inj ((truncated_short short).symm.trans done)
  exact absurd longest.fits (by decide +kernel)

end RoutingKey
end Sarracenia.Guarantees.Posting

/-!
## One exchange for one file

`splitPick` goes by the path, as documented, and raises for one that is not ASCII; `topicDerive` goes by the
value of the identity, which a removal does not have. The two agree where the sums of both pick one exchange.
-/
namespace Sarracenia.Guarantees.Posting
open Library Library.Text Library.Dynamic
open Source Source.Export Source.Posting

section Sums
variable {v : Value} {n : Nat}

def Ascii (s : Str) : Prop := ∀ c ∈ s, c.toNat < 128

instance (s : Str) : Decidable (Ascii s) := List.decidableBAll (Char.toNat · < 128) s

def total (s : Str) : Nat := (s.map Char.toNat).sum

theorem all_ascii_iff (s : Str) : s.all (·.toNat < 128) = true ↔ Ascii s := by
  simp [Ascii]

theorem asciiSum_ok_iff : asciiSum v = .ok n ↔ ∃ s, v = .str s ∧ Ascii s ∧ n = total s := by
  unfold asciiSum
  rw [bind_ok_iff]
  constructor
  · rintro ⟨s, text, summed⟩
    split at summed
    · next ascii =>
      cases v with
      | str t =>
        obtain rfl := Except.ok.inj text
        exact ⟨t, rfl, (all_ascii_iff t).mp ascii, (Except.ok.inj summed).symm⟩
      | _ => cases text
    · cases summed
  · rintro ⟨s, rfl, ascii, rfl⟩
    refine ⟨s, rfl, ?_⟩
    rw [if_pos ((all_ascii_iff s).mpr ascii)]
    rfl

end Sums

section Split
variable (p : Publisher) (msg : Message) (path : Str)

/-- The place in the list that the documented sum comes to. -/
def hashed : Nat := total path % p.exchange.length

/-- Both ways lead to the exchange: it is in the list, and the topic begins with it. -/
structure Goes (exchange : Str) : Prop where
  picked : ∃ idx, splitPick p.exchange msg = .ok idx ∧ p.exchange[idx]? = some exchange
  told : ∃ prefix_, p.topicPrefix = some prefix_ ∧ topicPrefix p msg = .ok (exchange :: prefix_)

/-- The message goes to the exchange of its path. -/
def GoesByPath : Prop := ∃ exchange, p.exchange[hashed p path]? = some exchange ∧ Goes p msg exchange

/-- The value is a text whose sum picks the exchange of the path. -/
def Alike (value : Value) : Prop :=
  ∃ s, value = .str s ∧ Ascii s ∧ p.exchange[total s % p.exchange.length]? = p.exchange[hashed p path]?

structure Meets : Prop where
  plain : msg.get "exchangeSplitOverride" = none → Ascii path
  overriding : ∀ v, msg.get "exchangeSplitOverride" = some v →
    ∃ i : Int, Posting.int v = .ok i ∧ p.exchange[(i % p.exchange.length).toNat]? = p.exchange[hashed p path]?
  identified : ∃ identity value, msg.get "identity" = some identity ∧ identity.item "value" = .ok value ∧ Alike p path value
  named : p.exchange[hashed p path]? ≠ some []
  prefixed : p.topicPrefix.isSome = true

variable {p msg path} {exchange : Str}

theorem picked_iff (there : msg.get "relPath" = some (.str path)) (is : p.exchange[hashed p path]? = some exchange) :
    (∃ idx, splitPick p.exchange msg = .ok idx ∧ p.exchange[idx]? = some exchange) ↔
      (msg.get "exchangeSplitOverride" = none → Ascii path) ∧
      ∀ v, msg.get "exchangeSplitOverride" = some v →
        ∃ i : Int, Posting.int v = .ok i ∧ p.exchange[(i % p.exchange.length).toNat]? = p.exchange[hashed p path]? := by
  unfold splitPick
  rw [there]
  cases overridden : msg.get "exchangeSplitOverride" with
  | none =>
    dsimp only
    constructor
    · rintro ⟨idx, done, -⟩
      obtain ⟨n, summed, -⟩ := map_ok_iff.mp done
      obtain ⟨s, same, ascii, -⟩ := asciiSum_ok_iff.mp summed
      cases same
      exact ⟨fun _ => ascii, nofun⟩
    · intro ⟨ascii, _⟩
      refine ⟨hashed p path, ?_, is⟩
      rw [asciiSum_ok_iff.mpr ⟨path, rfl, ascii rfl, rfl⟩]
      rfl
  | some v =>
    dsimp only
    rw [is]
    constructor
    · rintro ⟨idx, done, at_⟩
      obtain ⟨i, read, rfl⟩ := map_ok_iff.mp done
      exact ⟨nofun, fun w same => ⟨i, by cases same; exact read, at_⟩⟩
    · intro ⟨_, read⟩
      obtain ⟨i, done, at_⟩ := read v rfl
      exact ⟨_, by rw [done]; rfl, at_⟩

theorem splitIndex_ok_iff {idx : Nat} : splitIndex p msg = .ok idx ↔ ∃ identity value, msg.get "identity" = some identity ∧
    identity.item "value" = .ok value ∧ ∃ s, value = .str s ∧ Ascii s ∧ idx = total s % p.exchange.length := by
  unfold splitIndex
  constructor
  · intro done
    obtain ⟨identity, here, done⟩ := bind_ok_iff.mp done
    obtain ⟨value, inside, done⟩ := bind_ok_iff.mp done
    obtain ⟨s, text, done⟩ := bind_ok_iff.mp done
    have found := Dict.item_ok_iff.mp here
    split at done
    · next ascii =>
      cases value with
      | str t =>
        obtain rfl := Except.ok.inj text
        exact ⟨identity, _, found, inside, t, rfl, (all_ascii_iff t).mp ascii, (Except.ok.inj done).symm⟩
      | _ => cases text
    · cases done
  · rintro ⟨identity, value, found, inside, s, rfl, ascii, rfl⟩
    rw [Dict.item_ok_iff.mpr found]
    change (identity.item "value" >>= _) = _
    rw [inside]
    change (if _ then _ else _) = _
    rw [if_pos ((all_ascii_iff s).mpr ascii)]
    rfl

theorem told_iff (mqtt : p.mqtt = true) (split : 1 < p.exchangeSplit) (is : p.exchange[hashed p path]? = some exchange) :
    (∃ prefix_, p.topicPrefix = some prefix_ ∧ topicPrefix p msg = .ok (exchange :: prefix_)) ↔
      (∃ identity value, msg.get "identity" = some identity ∧ identity.item "value" = .ok value ∧ Alike p path value) ∧
      exchange ≠ [] ∧ p.topicPrefix.isSome = true := by
  unfold topicPrefix
  cases p.topicPrefix with
  | none => simp
  | some prefix_ =>
    dsimp only
    rw [if_pos mqtt, if_pos split]
    constructor
    · rintro ⟨_, same, done⟩
      obtain rfl := Option.some.inj same
      obtain ⟨idx, index, done⟩ := bind_ok_iff.mp done
      obtain ⟨name, at_, done⟩ := bind_ok_iff.mp done
      obtain ⟨identity, value, found, inside, s, text, ascii, rfl⟩ := splitIndex_ok_iff.mp index
      cases chosen : p.exchange[total s % p.exchange.length]? with
      | none =>
        rw [chosen] at at_
        cases at_
      | some other =>
        rw [chosen] at at_
        obtain rfl := Except.ok.inj at_
        have same := Except.ok.inj done
        split at same
        · next some_ =>
          obtain ⟨rfl, -⟩ := List.cons.inj same
          exact ⟨⟨identity, value, found, inside, s, text, ascii, chosen.trans is.symm⟩, some_, rfl⟩
        · exact absurd same.symm (List.cons_ne_self _ _)
    · rintro ⟨⟨identity, value, found, inside, s, text, ascii, same⟩, some_, -⟩
      have index : splitIndex p msg = .ok (total s % p.exchange.length) := splitIndex_ok_iff.mpr ⟨identity, value, found, inside, s, text, ascii, rfl⟩
      have at_ := same.trans is
      refine ⟨prefix_, rfl, ?_⟩
      simp [index, at_, some_, bind, Except.bind, pure, Except.pure]

/-- The message goes by its path exactly when the path, and what overrides it, and the identity pick the same
exchange, and this one has a name. -/
theorem goes_by_path_iff (several : 2 ≤ p.exchange.length) (split : 1 < p.exchangeSplit) (mqtt : p.mqtt = true)
    (there : msg.get "relPath" = some (.str path)) : GoesByPath p msg path ↔ Meets p msg path := by
  have inside : hashed p path < p.exchange.length := Nat.mod_lt _ (by omega)
  have is := List.getElem?_eq_getElem inside
  constructor
  · intro ⟨exchange, at_, goes⟩
    obtain ⟨plain, overriding⟩ := (picked_iff there at_).mp goes.picked
    obtain ⟨identified, named, prefixed⟩ := (told_iff mqtt split at_).mp goes.told
    exact ⟨plain, overriding, identified, by rw [at_]; exact fun none_ => named (Option.some.inj none_), prefixed⟩
  · intro meets
    have named : p.exchange[hashed p path] ≠ [] := fun none_ => meets.named (by rw [is, none_])
    exact ⟨_, is, (picked_iff there is).mpr ⟨meets.plain, meets.overriding⟩,
      (told_iff mqtt split is).mpr ⟨meets.identified, named, meets.prefixed⟩⟩

/-- The topic that is derived begins with the exchange, where none is given. -/
theorem goes_topic {exchange : Str} (goes : Goes p msg exchange) (there : msg.get "relPath" = some (.str path))
    (own : msg.get "topic" = none) (none_ : p.topic = none) :
    ∃ rest, topicDerive p msg = .ok (.str exchange :: rest) := by
  obtain ⟨prefix_, -, told⟩ := goes.told
  refine ⟨prefix_.map .str ++ (Text.split ['/'] path).dropLast.map .str, ?_⟩
  unfold topicDerive
  rw [told, own, none_, there]
  rfl

end Split

section Sample

def twoExchanges : Publisher := ⟨"mqtt".toList, ["xw00".toList, "xw01".toList], 2, some ["v03".toList], none⟩

/-- A file `a`, of which an identity is known. -/
def created : Message :=
  [("relPath", .str "a".toList), ("identity", .dict [("method", .str "md5".toList), ("value", .str "c".toList)])]

theorem created_goes_by_path : GoesByPath twoExchanges created "a".toList := by
  refine (goes_by_path_iff (by decide) (by decide) (by decide) rfl).mpr ⟨fun _ => by decide, nofun, ?_, by decide, rfl⟩
  exact ⟨_, _, rfl, rfl, "c".toList, rfl, by decide, by decide⟩

/-- A removal has no identity: no exchange is found for it. -/
theorem removal_without_exchange : ¬ ∀ p : Publisher, 2 ≤ p.exchange.length → 1 < p.exchangeSplit → p.mqtt = true →
    ∃ choose : Str → Str, ∀ (msg : Message) (path : Str), msg.get "relPath" = some (.str path) → Goes p msg (choose path) := by
  intro law
  obtain ⟨choose, goes⟩ := law twoExchanges (by decide) (by decide) (by decide)
  obtain ⟨prefix_, -, told⟩ := (goes [("relPath", .str "a".toList), ("fileOp", .dict [("remove", .str [])])] "a".toList rfl).told
  cases told

end Sample
end Sarracenia.Guarantees.Posting
