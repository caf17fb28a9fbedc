import Mathlib.Data.Rat.Floor
import Sarracenia.Guarantees.Identity.Blocks

/-!
# The identity that a file remembers

The attributes of a file hold an identity and a time. Posting and downloading trust the
identity as long as the time is not older than the one of the file. Everything that writes
either of the two is one event here, and so is every change of the file. What each event has
to respect is stated beside it; a run that respects it never trusts a wrong identity.
-/
namespace Sarracenia.Guarantees.Identity
open Library Library.Text Library.Dynamic Source Source.Identity
open Source.Transfer (Bytes)

section Trust
variable (w : World)

/-- The value is the digest of the content, if the identity is of a method that reads it. -/
def Matches (content : Bytes) (identity : Value) : Prop :=
  ∀ method, Binary method → identity.item "method" = .ok (.str method) →
    identity.item "value" = .ok (.str (w.digest method content))

/-- What is stored, if anything, is the identity of the content. -/
def Current (content : Bytes) (x : Dict Value) : Prop :=
  ∀ identity, x.get "identity" = some identity → Matches w content identity

/-- The time that is stored is not older than that of the file. -/
def Trusted (f : File) : Prop := ∃ remembered, f.x.get "mtime" = some (.str remembered) ∧ f.mtime ≤ remembered

/-- What is trusted is the identity of the content. -/
def Sound (f : File) : Prop := Trusted f → Current w f.content f.x

end Trust

/-! ## Events -/

/-- What happens to a file. Each call of `computeIdentity` and each user of the attributes
has options and a message of its own; what `random.choice` picks differs from call to call. -/
inductive Event where
  | identify (o : Identity.Options) (choice random : Str) (offset : Nat) (data : Bytes) (msg : Message)
  | receive (o : Identity.Options) (inPlace : Bool) (content : Bytes) (mtime : Str) (msg : Message)
  | check (o : Identity.Options) (lstat_mtime : Str) (msg : Message)
  | modify (content : Bytes) (mtime : Str)

section Events
variable (w : World)

def picking (choice random : Str) : World := { w with choice := choice, random := random }

/-- The file as it was written: over the old one, which keeps its attributes, or beside it
and then in its place. -/
def written (f : File) (inPlace : Bool) (content : Bytes) (mtime : Str) : File :=
  ⟨content, mtime, if inPlace then f.x else []⟩

/-- A check only reads the file and its attributes. -/
def Event.next : Event → File → File
  | identify o choice random offset data msg, f =>
    { f with x := (computeIdentity (picking w choice random) o offset data f msg).1 }
  | receive o inPlace content mtime msg, f =>
    (set_local_file_attributes w o (written f inPlace content mtime) msg).1
  | check _ _ _, f => f
  | modify content mtime, f => { f with content := content, mtime := mtime }

/-- The size in the message, or that of the file. -/
def sizeOf (content : Bytes) (msg : Message) : Except Fault ℚ :=
  ((msg.get "size").getD (.int content.length)).asNumber

/-- The checksum gets all of the file: data that is the content, or a read that starts at
the start and reaches the end. -/
def Whole (o : Identity.Options) (offset : Nat) (data content : Bytes) (msg : Message) : Prop :=
  if data.isEmpty then
    (offset = 0 ∨ content = []) ∧
      ∃ size, sizeOf content msg = .ok size ∧ content.length ≤ roundUp o.bufSize ⌈size⌉₊
  else data = content

/-- The methods that store an identity without reading the file. -/
def Unread (method : Str) : Prop :=
  method.take 4 = "cod,".toList ∨ method = "arbitrary".toList ∨ method = "random".toList

instance (method : Str) : Decidable (Unread method) := by
  unfold Unread
  infer_instance

/-- When a call of `computeIdentity` leaves nothing wrong to be trusted. -/
inductive Identifies (o : Identity.Options) (offset : Nat) (data : Bytes) (msg : Message) (f : File) :
    Prop
  /-- The attributes stay as they are. -/
  | untouched : (∀ method, origin w o f.x msg ≠ .ok (.calculated (some method))) → Identifies ..
  /-- The time of the message is no text, or one before that of the file. -/
  | older (mtime : Value) : msg.get "mtime" = some mtime →
      (∀ text, mtime = .str text → ¬ f.mtime ≤ text) → Identifies ..
  | unread (method : Str) : origin w o f.x msg = .ok (.calculated (some method)) → Unread method →
      Identifies ..
  | whole (method : Str) : origin w o f.x msg = .ok (.calculated (some method)) → Binary method →
      Whole o offset data f.content msg → Identifies ..
  /-- A time alone is stored, or nothing, and the identity that is there is not out of date. -/
  | kept (method : Str) : origin w o f.x msg = .ok (.calculated (some method)) → ¬ Unread method →
      (Binary method → data = [] ∧ ∀ size, sizeOf f.content msg ≠ .ok size) →
      (msg.get "mtime" = none ∨ Current w f.content f.x) → Identifies ..

/-- The identity that a download stores. -/
def carried (msg : Message) (x : Dict Value) : Option Value :=
  (msg.get "onfly_checksum").or ((msg.get "identity").or (x.get "identity"))

def Event.Careful : Event → File → Prop
  | identify o choice random offset data msg, f =>
    Identifies (picking w choice random) o offset data msg f
  | receive _ inPlace content mtime msg, f =>
    ∀ identity, carried msg (written f inPlace content mtime).x = some identity → Matches w content identity
  | check _ _ _, _ => True
  | modify content mtime, f =>
    Current w content f.x ∨ ∀ remembered, f.x.get "mtime" = some (.str remembered) → ¬ mtime ≤ remembered

/-- The files that careful events lead to, from one without attributes. -/
inductive Careful : File → Prop
  | bare (content : Bytes) (mtime : Str) : Careful ⟨content, mtime, []⟩
  | next {f : File} (e : Event) : Careful f → e.Careful w f → Careful (e.next w f)

end Events

/-! ## What a call of `computeIdentity` leaves -/

section Compute
variable {w : World} {o : Identity.Options} {offset : Nat} {data : Bytes} {msg : Message} {f : File}

theorem readLoop_ceil (bufSize : Nat) (limit : ℚ) (steps i : Nat) (rest : Bytes) :
    readLoop bufSize limit steps i rest = readLoop bufSize (⌈limit⌉₊ : ℚ) steps i rest := by
  induction steps generalizing i rest with
  | zero => rfl
  | succ steps ih =>
    have limits : (limit ≤ i) = ((⌈limit⌉₊ : ℚ) ≤ i) := by
      rw [Nat.cast_le, Nat.ceil_le]
    rw [readLoop, readLoop, ih]
    simp only [limits]

theorem readFrom_whole {bufSize : Nat} {size : ℚ} {content : Bytes}
    (from_ : offset = 0 ∨ content = []) (reaches : content.length ≤ roundUp bufSize ⌈size⌉₊) :
    readFrom bufSize offset size content = content := by
  by_cases nothing : content = []
  · subst nothing
    rw [readFrom, List.drop_nil]
    rw [readLoop, List.take_nil, List.isEmpty_nil, if_pos rfl, ite_self]
  · have start := from_.resolve_right nothing
    subst start
    have buffer : 0 < bufSize := by
      by_contra none_
      have zero : bufSize = 0 := by omega
      subst zero
      rw [roundUp, Nat.mul_zero] at reaches
      exact nothing (List.eq_nil_of_length_eq_zero (Nat.le_zero.mp reaches))
    rw [readFrom, Nat.cast_zero, zero_add, List.drop_zero, readLoop_ceil,
      readLoop_eq buffer _ _ _ _ (Nat.lt_succ_self _), Nat.sub_zero, List.take_of_length_le reaches]

theorem plain_of_binary {method : Str} (binary : Binary method) : ¬ Unread method := by
  rcases binary with rfl | rfl <;> decide

/-- The message has its size when it comes to the checksum. -/
def sized (content : Bytes) (msg : Message) : Message :=
  if (msg.get "size").isSome then msg else msg.set "size" (.int content.length)

theorem item_sized (content : Bytes) (msg : Message) :
    (sized content msg).item "size" = .ok ((msg.get "size").getD (.int content.length)) := by
  unfold sized Dict.item
  cases had : msg.get "size" with
  | none => rw [Option.isSome_none, if_neg Bool.false_ne_true, Dict.get_set_self]; rfl
  | some size => rw [Option.isSome_some, if_pos rfl, had]; rfl

theorem checksum_binary {method : Str} (binary : Binary method) (content : Bytes) :
    checksum w o method offset data content msg =
      if data.isEmpty then (sizeOf content msg).map fun size =>
        (w.digest method (readFrom o.bufSize offset size content), sized content msg)
      else .ok (w.digest method data, sized content msg) := by
  have size := item_sized content msg
  unfold sized at size ⊢
  unfold checksum
  cases data with
  | cons b data =>
    rw [if_pos binary, List.isEmpty_cons, if_neg Bool.false_ne_true]
    rfl
  | nil =>
    rw [if_pos binary, List.isEmpty_nil, if_pos rfl]
    rw [size, sizeOf]
    change (((msg.get "size").getD (.int content.length)).asNumber >>= _) = _
    cases ((msg.get "size").getD (.int content.length)).asNumber <;> rfl

theorem checksum_whole {method : Str} (binary : Binary method) {content : Bytes}
    (whole : Whole o offset data content msg) :
    checksum w o method offset data content msg = .ok (w.digest method content, sized content msg) := by
  rw [checksum_binary binary]
  unfold Whole at whole
  cases data with
  | cons b data =>
    rw [List.isEmpty_cons, if_neg Bool.false_ne_true] at whole ⊢
    rw [whole]
  | nil =>
    rw [List.isEmpty_nil, if_pos rfl] at whole ⊢
    obtain ⟨from_, size, is, reaches⟩ := whole
    rw [is, Except.map, readFrom_whole from_ reaches]

/-- No identity is calculated by a method that has none, or without a size to read up to. -/
theorem calculate_none {method : Str} (other : ¬ Unread method) {content : Bytes}
    (stuck : Binary method → data = [] ∧ ∀ size, sizeOf content msg ≠ .ok size)
    (identity : Value) (msg' : Message) :
    calculate w o method offset data content msg ≠ .ok (some identity, msg') := by
  have cod : ¬ method.take 4 = "cod,".toList := fun h => other (Or.inl h)
  have arbitrary : ¬ method = "arbitrary".toList := fun h => other (Or.inr (Or.inl h))
  have random : ¬ method = "random".toList := fun h => other (Or.inr (Or.inr h))
  intro made
  by_cases named : method = "md5name".toList ∨ method = "invalid".toList
  · rw [calculate, if_neg cod, if_pos named] at made
    cases made
  · rw [calculate_checksum cod named arbitrary] at made
    by_cases binary : Binary method
    · obtain ⟨rfl, unsized⟩ := stuck binary
      rw [checksum_binary binary, List.isEmpty_nil, if_pos rfl] at made
      cases size : sizeOf content msg with
      | error fault =>
        rw [size] at made
        cases made
      | ok size' => exact unsized size' size
    · have fails : checksum w o method offset data content msg = .error .attributeError := by
        unfold checksum
        rw [if_neg binary, if_neg random]
      rw [fails] at made
      cases made

/-- A method that does not read the file stores no identity that is trusted to be of it. -/
theorem calculate_unread {method : Str} (unread : Unread method) {content : Bytes} {identity : Value}
    {msg' : Message} (made : calculate w o method offset data content msg = .ok (some identity, msg')) :
    Matches w content identity := by
  have names {named : Str} {value : Value} (apart : ¬ Binary named)
      (is : Identity.identity (.str named) value = identity) : Matches w content identity := by
    intro method binary method_is
    rw [← is] at method_is
    have same : named = method := Value.str.inj (Except.ok.inj method_is)
    exact absurd (same ▸ binary) apart
  have apart : ¬ Binary method := fun binary => plain_of_binary binary unread
  by_cases cod : method.take 4 = "cod,".toList
  · rw [calculate, if_pos cod] at made
    exact names (by decide) (Option.some.inj (Prod.mk.inj (Except.ok.inj made)).1)
  · by_cases named : method = "md5name".toList ∨ method = "invalid".toList
    · rw [calculate, if_neg cod, if_pos named] at made
      cases made
    · by_cases arbitrary : method = "arbitrary".toList
      · rw [calculate, if_neg cod, if_neg named, if_pos arbitrary] at made
        exact names apart (Option.some.inj (Prod.mk.inj (Except.ok.inj made)).1)
      · rw [calculate_checksum cod named arbitrary] at made
        cases read : checksum w o method offset data content msg with
        | error fault =>
          rw [read] at made
          cases made
        | ok found =>
          rw [read] at made
          exact names apart (Option.some.inj (Prod.mk.inj (Except.ok.inj made)).1)

theorem calculate_unread_some {method : Str} (unread : Unread method) (content : Bytes) :
    ∃ identity msg', calculate w o method offset data content msg = .ok (some identity, msg') := by
  by_cases cod : method.take 4 = "cod,".toList
  · rw [calculate, if_pos cod]
    exact ⟨_, _, rfl⟩
  · rcases unread with is | rfl | rfl
    · exact absurd is cod
    · exact ⟨_, _, rfl⟩
    · exact ⟨_, _, rfl⟩

theorem calculate_whole {method : Str} (binary : Binary method) {content : Bytes}
    (whole : Whole o offset data content msg) :
    calculate w o method offset data content msg =
      .ok (some (identity (.str method) (.str (w.digest method content))), sized content msg) := by
  rw [calculate_binary binary, checksum_whole binary whole]
  rfl

theorem matches_digest (content : Bytes) (method : Str) :
    Matches w content (identity (.str method) (.str (w.digest method content))) := by
  intro method' _ is
  have same : method = method' := Value.str.inj (Except.ok.inj is)
  rw [← same]
  rfl

theorem computeIdentity_stores {method : Str} {identity : Value} {msg' : Message}
    (from_ : origin w o f.x msg = .ok (.calculated (some method)))
    (made : calculate w o method offset data f.content msg = .ok (some identity, msg')) :
    computeIdentity w o offset data f msg =
      ((rememberMtime msg f.x).set "identity" identity, .ok (msg'.set "identity" identity)) := by
  unfold computeIdentity
  rw [from_]
  dsimp only
  rw [made]

variable (w o offset data msg f) in
/-- What a call leaves: nothing new, the time of the message, or that and an identity. -/
theorem computeIdentity_x :
    (computeIdentity w o offset data f msg).1 = f.x ∧
        (∀ method, origin w o f.x msg ≠ .ok (.calculated (some method))) ∨
      ∃ method, origin w o f.x msg = .ok (.calculated (some method)) ∧
        ((computeIdentity w o offset data f msg).1 = rememberMtime msg f.x ∧
            (∀ identity msg', calculate w o method offset data f.content msg ≠ .ok (some identity, msg')) ∨
          ∃ identity msg', calculate w o method offset data f.content msg = .ok (some identity, msg') ∧
            (computeIdentity w o offset data f msg).1 = (rememberMtime msg f.x).set "identity" identity) := by
  unfold computeIdentity
  cases from_ : origin w o f.x msg with
  | error fault => exact Or.inl ⟨rfl, nofun⟩
  | ok source =>
    cases source with
    | remembered identity => exact Or.inl ⟨rfl, nofun⟩
    | calculated method =>
      cases method with
      | none => exact Or.inl ⟨rfl, nofun⟩
      | some method =>
        refine Or.inr ⟨method, rfl, ?_⟩
        dsimp only
        cases made : calculate w o method offset data f.content msg with
        | error fault => exact Or.inl ⟨rfl, nofun⟩
        | ok found =>
          obtain ⟨identity, msg'⟩ := found
          cases identity with
          | none => exact Or.inl ⟨rfl, nofun⟩
          | some identity => exact Or.inr ⟨identity, msg', rfl, rfl⟩

end Compute

/-! ## What careful events keep -/

section Keep
variable {w : World} {o : Identity.Options} {f : File}

theorem rememberMtime_identity (msg : Message) (x : Dict Value) :
    (rememberMtime msg x).get "identity" = x.get "identity" := by
  unfold rememberMtime
  cases msg.get "mtime" with
  | none => rfl
  | some mtime => exact Dict.get_set_ne _ (by decide) _

theorem Current.of_set {content : Bytes} {x : Dict Value} {identity : Value}
    (right : Matches w content identity) : Current w content (x.set "identity" identity) := by
  intro stored has
  rw [Dict.get_set_self] at has
  exact Option.some.inj has ▸ right

/-- Where the message has no time that the file has reached, nothing is trusted after. -/
theorem not_trusted_of_older {msg : Message} {mtime : Value} (time : msg.get "mtime" = some mtime)
    (older : ∀ text, mtime = .str text → ¬ f.mtime ≤ text) {x : Dict Value}
    (same : x.get "mtime" = (rememberMtime msg f.x).get "mtime") : ¬ Trusted { f with x := x } := by
  intro ⟨remembered, stored, reached⟩
  rw [rememberMtime, time, Option.elim_some, Dict.get_set_self] at same
  exact older remembered (Option.some.inj (same.symm.trans stored)) reached

theorem identify_sound {offset : Nat} {data : Bytes} {msg : Message} (sound : Sound w f)
    (careful : Identifies w o offset data msg f) :
    Sound w { f with x := (computeIdentity w o offset data f msg).1 } := by
  rcases computeIdentity_x w o offset data msg f with
    ⟨same, -⟩ | ⟨method, from_, left⟩
  · rw [same]
    exact sound
  · have agree {method' : Str} (from' : origin w o f.x msg = .ok (.calculated (some method'))) :
        method' = method := Option.some.inj (Origin.calculated.inj (Except.ok.inj (from'.symm.trans from_)))
    cases careful with
    | untouched never => exact absurd from_ (never method)
    | older mtime time older =>
      intro trusted
      refine absurd trusted (not_trusted_of_older time older ?_)
      rcases left with ⟨same, -⟩ | ⟨identity, msg', -, same⟩
      · rw [same]
      · rw [same, Dict.get_set_ne _ (by decide)]
    | unread method' from' unread =>
      obtain rfl := agree from'
      rcases left with ⟨-, nothing⟩ | ⟨identity, msg', made, same⟩
      · obtain ⟨identity, msg', made⟩ := calculate_unread_some unread f.content
        exact absurd made (nothing identity msg')
      · rw [same]
        exact fun _ => Current.of_set (calculate_unread unread made)
    | whole method' from' binary whole =>
      obtain rfl := agree from'
      have found := calculate_whole (w := w) binary whole
      rcases left with ⟨-, nothing⟩ | ⟨identity, msg', made, same⟩
      · exact absurd found (nothing _ _)
      · rw [same]
        obtain rfl := Option.some.inj (Prod.mk.inj (Except.ok.inj (found.symm.trans made))).1
        exact fun _ => Current.of_set (matches_digest f.content method')
    | kept method' from' other stuck fresh =>
      obtain rfl := agree from'
      rcases left with ⟨same, -⟩ | ⟨identity, msg', made, -⟩
      · rw [same]
        rcases fresh with timeless | current
        · rw [rememberMtime, timeless, Option.elim_none]
          exact sound
        · intro _ stored has
          rw [rememberMtime_identity] at has
          exact current stored has
      · exact absurd made (calculate_none other stuck identity msg')

/-- What a download leaves of the file: its bytes, and the identity it stores. -/
theorem set_local_file_attributes_kept (msg : Message) :
    (set_local_file_attributes w o f msg).1.content = f.content ∧
      (set_local_file_attributes w o f msg).1.x.get "identity" = carried msg f.x := by
  have timed (x : Dict Value) (mtime : Value) : (x.set "mtime" mtime).get "identity" = x.get "identity" :=
    Dict.get_set_ne x (by decide) mtime
  unfold set_local_file_attributes carried
  -- whatever the time becomes, the identity is the one that was stored before it
  cases msg.get "onfly_checksum" with
  | some onfly_checksum =>
    have stored := Dict.get_set_self f.x "identity" onfly_checksum
    dsimp only
    split
    · exact ⟨rfl, (timed ..).trans stored⟩
    · split <;> exact ⟨rfl, (timed ..).trans stored⟩
  | none =>
    cases msg.get "identity" with
    | some identity =>
      have stored := Dict.get_set_self f.x "identity" identity
      dsimp only
      split
      · exact ⟨rfl, (timed ..).trans stored⟩
      · split <;> exact ⟨rfl, (timed ..).trans stored⟩
    | none =>
      dsimp only
      split
      · exact ⟨rfl, timed ..⟩
      · split <;> exact ⟨rfl, timed ..⟩

theorem set_local_file_attributes_current {msg : Message}
    (right : ∀ identity, carried msg f.x = some identity → Matches w f.content identity) :
    Current w (set_local_file_attributes w o f msg).1.content
      (set_local_file_attributes w o f msg).1.x := by
  have kept := set_local_file_attributes_kept (w := w) (o := o) (f := f) msg
  rw [kept.1]
  intro identity has
  exact right identity (kept.2.symm.trans has)

theorem Event.next_sound (e : Event) (sound : Sound w f) (careful : e.Careful w f) :
    Sound w (e.next w f) := by
  cases e with
  | identify o choice random offset data msg =>
    exact identify_sound (w := picking w choice random) sound careful
  | receive o inPlace content mtime msg =>
    exact fun _ => set_local_file_attributes_current careful
  | check o lstat_mtime msg => exact sound
  | modify content mtime =>
    intro trusted
    obtain ⟨remembered, stored, reached⟩ := trusted
    rcases careful with current | later
    · exact current
    · exact absurd reached (later remembered stored)

theorem Careful.sound (careful : Careful w f) : Sound w f := by
  induction careful with
  | bare content mtime => exact fun _ => nofun
  | next e _ careful ih => exact e.next_sound ih careful

theorem atLeast_ok {remembered mtime : Value} {newer : Bool}
    (compared : atLeast remembered mtime = .ok newer) :
    ∃ text text', remembered = .str text ∧ mtime = .str text' ∧ newer = decide (text' ≤ text) := by
  unfold atLeast at compared
  split at compared
  · next text text' => exact ⟨text, text', rfl, rfl, (Except.ok.inj compared).symm⟩
  · cases compared

theorem origin_remembered {msg : Message} {identity : Value}
    (remembered : origin w o f.x msg = .ok (.remembered identity)) :
    f.x.get "identity" = some identity ∧ ∃ stored mtime, f.x.get "mtime" = some (.str stored) ∧
      msg.get "mtime" = some (.str mtime) ∧ mtime ≤ stored := by
  unfold origin at remembered
  split at remembered
  · cases remembered
  split at remembered
  · cases remembered
  split at remembered
  · next fxainteg stored mtime has holds is =>
    obtain ⟨newer, compared, remembered⟩ := bind_ok_iff.mp remembered
    obtain ⟨text, text', rfl, rfl, rfl⟩ := atLeast_ok compared
    split at remembered
    · next reached =>
      obtain ⟨method, -, remembered⟩ := bind_ok_iff.mp remembered
      split at remembered
      · obtain rfl := Origin.remembered.inj (Except.ok.inj remembered)
        exact ⟨has, text, text', holds, is, of_decide_eq_true reached⟩
      · cases remembered
    · cases remembered
  · cases remembered

theorem cachedIdentity_some {msg : Message} {identity : Value} {lstat_mtime : Str}
    (cached : cachedIdentity o f lstat_mtime msg = .ok (some identity)) :
    f.x.get "identity" = some identity ∧ ∃ stored, f.x.get "mtime" = some (.str stored) ∧
      lstat_mtime ≤ stored := by
  unfold cachedIdentity at cached
  split at cached
  · cases cached
  · next s has =>
    split at cached
    · cases cached
    obtain ⟨newer, compared, cached⟩ := bind_ok_iff.mp cached
    obtain ⟨text, text', stored, same, rfl⟩ := atLeast_ok compared
    obtain rfl := Value.str.inj same
    split at cached
    · next reached =>
      obtain ⟨same, -, cached⟩ := bind_ok_iff.mp cached
      obtain ⟨method, -, cached⟩ := bind_ok_iff.mp cached
      split at cached
      · obtain rfl := Option.some.inj (Except.ok.inj cached)
        refine ⟨has, text, ?_, of_decide_eq_true reached⟩
        cases time : f.x.get "mtime" with
        | none =>
          rw [time] at stored
          cases stored
        | some value =>
          rw [time] at stored
          exact congrArg some stored
      · cases cached
    · cases cached

def first_day : Str := "20200101T000000".toList

def second_day : Str := "20200102T000000".toList

def timed (mtime : Str) : Message := [("mtime", .str mtime)]

/-- The whole of a file is posted. -/
def post (mtime : Str) : Event := .identify bytewise [] [] 0 [] (timed mtime)

theorem post_careful (content : Bytes) (mtime : Str) (x : Dict Value)
    (from_ : origin (picking spelledWorld [] []) bytewise x (timed mtime) =
      .ok (.calculated (some "sha512".toList))) :
    (post mtime).Careful spelledWorld ⟨content, mtime, x⟩ := by
  refine Identifies.whole "sha512".toList from_ (Or.inr rfl) ?_
  refine ⟨Or.inl rfl, content.length, rfl, ?_⟩
  rw [Nat.ceil_natCast]
  exact le_roundUp (by decide) _

def posted : File := (post first_day).next spelledWorld ⟨[7, 8, 9], first_day, []⟩

def changed : File := (Event.modify [7, 8] second_day).next spelledWorld posted

def again : File := (post second_day).next spelledWorld changed

theorem again_careful : Careful spelledWorld again := by
  have start : Careful spelledWorld posted := .next _ (.bare ..) (post_careful _ _ _ rfl)
  have later : Careful spelledWorld changed := by
    refine .next _ start (Or.inr fun remembered stored => ?_)
    have same : first_day = remembered := Value.str.inj (Option.some.inj stored)
    rw [← same]
    decide
  exact .next _ later (post_careful _ _ _ rfl)

theorem again_remembers : origin spelledWorld bytewise again.x (timed second_day) =
    .ok (.remembered (identity (.str "sha512".toList) (.str (spelled "sha512".toList [7, 8])))) := by
  have whole : Whole bytewise 0 [] [7, 8] (timed second_day) := ⟨Or.inl rfl, 2, rfl, by decide⟩
  have found := calculate_whole (w := picking spelledWorld [] []) (Or.inr rfl) whole
  have left : again.x = (rememberMtime (timed second_day) changed.x).set "identity"
      (identity (.str "sha512".toList) (.str (spelled "sha512".toList [7, 8]))) :=
    congrArg Prod.fst (computeIdentity_stores (f := changed) rfl found)
  rw [left]
  rfl

end Keep
end Sarracenia.Guarantees.Identity
