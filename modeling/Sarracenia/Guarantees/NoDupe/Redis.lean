import Sarracenia.Guarantees.NoDupe.Law
import Sarracenia.Source.NoDupe
import Mathlib.Algebra.Order.Ring.Rat
import Mathlib.Data.List.Basic

/-!
# The two drivers agree

While every key the Redis driver derives is a text, and the key of its hash has no more
than 64 bytes, it keeps the same law as the disk driver.
-/
namespace Sarracenia.Guarantees.NoDupe
open Library Library.Text Library.Dynamic Library.Expiry Source Source.NoDupe
open Source.Retry (Object)

section Redis
variable {τ : Type} (w : World τ) (o : NoDupe.Options) (h : Blake2b) (keybase : Str)

/-- The message can be hashed: the key of the hash is short enough, and where the path is a
text, so is the key. -/
def CanBeHashed (msg : Message) : Prop :=
  ∀ key path msg', identify w msg = .ok (key, path, msg') →
    (Percent.utf8Bytes keybase).length ≤ 64 ∧ ∀ p, path = .str p → ∃ s, key = .str s

def digest (text : Str) : Str :=
  h.hexdigest (Percent.utf8Bytes keybase) (Percent.utf8Bytes text)

def serverKey (key path : Str) : Str :=
  Redis.redis_key keybase (digest h keybase key) (digest h keybase path)

/-- Until when the server has the pair. -/
def onServer (r : Redis) : Memory (Key × Str) ℚ := fun pair =>
  match pair.1 with
  | .text key => r.keys.get (serverKey h keybase key pair.2)
  | .number _ => none

variable {h} in
theorem serverKey_inj
    (injective : ∀ hashKey, Function.Injective (h.hexdigest hashKey)) {key path key' path' : Str}
    (same : serverKey h keybase key path = serverKey h keybase key' path') :
    key = key' ∧ path = path' := by
  have bytes {s t : Str} (same : digest h keybase s = digest h keybase t) : s = t := by
    have encoded := injective _ same
    have decoded := congrArg Percent.decodeUtf8 encoded
    rw [Percent.decodeUtf8_utf8Bytes, Percent.decodeUtf8_utf8Bytes] at decoded
    exact Option.some.inj decoded
  have parts := (List.cons.inj (List.append_cancel_left same)).2
  have both := (List.append_cons_inj_of_notMem (h.hex _ _) (h.hex _ _)).mp parts
  exact ⟨bytes both.1, bytes both.2.2⟩

theorem ex_of_natCast {ttl : Nat} (integer : o.nodupe_ttl = ttl) : Redis.ex o = ttl := by
  have positive : (0 : ℚ) ≤ ttl := Nat.cast_nonneg ttl
  rw [Redis.ex, integer, if_pos positive]
  exact Rat.floor_intCast ttl

variable {o h}

theorem get_eq_holds (r : Redis) (now : ℚ) (key path : Str) :
    r.get now (serverKey h keybase key path) =
      decide (Holds (onServer h keybase r) now (.text key, path)) := by
  have holds : Holds (onServer h keybase r) now (.text key, path) ↔
      r.get now (serverKey h keybase key path) = true := by
    change (∃ until_, r.keys.get (serverKey h keybase key path) = some until_ ∧ now ≤ until_) ↔ _
    unfold Redis.get
    cases r.keys.get (serverKey h keybase key path) <;> simp
  rw [Bool.eq_iff_iff, decide_eq_true_iff, holds]

theorem set_onServer (injective : ∀ hashKey, Function.Injective (h.hexdigest hashKey)) (r : Redis)
    (key path : Str) (until_ : ℚ) :
    onServer h keybase ⟨r.keys.set (serverKey h keybase key path) until_⟩ =
      Function.update (onServer h keybase r) (.text key, path) (some until_) := by
  funext pair
  obtain ⟨k, p⟩ := pair
  cases k with
  | number q =>
    have other : ((Key.number q, p) : Key × Str) ≠ (.text key, path) := fun same => by
      cases (Prod.mk.inj same).1
    rw [Function.update_of_ne other]
    rfl
  | text k =>
    change (r.keys.set (serverKey h keybase key path) until_).get (serverKey h keybase k p) = _
    rw [Table.get_set]
    by_cases same : k = key ∧ p = path
    · obtain ⟨rfl, rfl⟩ := same
      rw [if_pos rfl, Function.update_self]
    · have apart : serverKey h keybase k p ≠ serverKey h keybase key path := fun eq =>
        same (serverKey_inj keybase injective eq)
      have other : ((Key.text k, p) : Key × Str) ≠ (.text key, path) := fun eq =>
        same ⟨Key.text.inj (Prod.mk.inj eq).1, (Prod.mk.inj eq).2⟩
      rw [if_neg apart, Function.update_of_ne other]
      rfl

variable {w}

/-- A check of a message whose key and path are texts. -/
theorem is_new_texts {msg msg' : Message} {key path : Str}
    (identified : identify w msg = .ok (.str key, .str path, msg'))
    (short : (Percent.utf8Bytes keybase).length ≤ 64) (positive : 0 < Redis.ex o) (now : ℚ)
    (r : Redis) :
    Redis.is_new w o h keybase now r msg =
      .ok (⟨r.keys.set (serverKey h keybase key path) (now + Redis.ex o)⟩, msg',
        !r.get now (serverKey h keybase key path)) := by
  have hashed (text : Str) : Redis.hash h keybase (.str text) = .ok (digest h keybase text) := by
    rw [Redis.hash, if_neg (Nat.not_lt.mpr short)]
    rfl
  have asked : Redis.keyOf w h keybase msg = .ok (serverKey h keybase key path, msg') := by
    refine bind_ok_iff.mpr ⟨_, identified, ?_⟩
    refine bind_ok_iff.mpr ⟨_, hashed key, ?_⟩
    refine bind_ok_iff.mpr ⟨path, rfl, ?_⟩
    exact bind_ok_iff.mpr ⟨_, hashed path, rfl⟩
  refine bind_ok_iff.mpr ⟨_, asked, ?_⟩
  refine bind_ok_iff.mpr ⟨_, if_neg (not_le.mpr positive), rfl⟩

/-- A path that is no text raises the same in both drivers. -/
theorem is_new_noPath {msg msg' : Message} {key path : Value}
    (identified : identify w msg = .ok (key, path, msg'))
    (short : (Percent.utf8Bytes keybase).length ≤ 64) (noText : path.asStr = .error .typeError)
    (now : ℚ) (r : Redis) :
    Redis.is_new w o h keybase now r msg = .error .typeError := by
  unfold Redis.is_new Redis.keyOf
  rw [identified]
  change (Redis.hash h keybase key >>= fun _ => path.asStr >>= _) >>= _ = _
  rw [Redis.hash, if_neg (Nat.not_lt.mpr short), noText]
  cases key <;> rfl

variable (w)

theorem redis_tied {ttl : Nat} (integer : o.nodupe_ttl = ttl) (positive : 1 ≤ ttl)
    (injective : ∀ hashKey, Function.Injective (h.hexdigest hashKey)) :
    Tied (Redis.driver w o h keybase) (law w o) (CanBeHashed w keybase)
      (fun clock r history => Kept o clock (onServer h keybase r) history) where
  later kept le := kept.later le
  check_message := by
    intro now r history msg kept fits
    change Same _ (Redis.is_new w o h keybase now r msg) (lawCheck w o now history msg)
    cases identified : identify w msg with
    | error fault =>
      unfold Redis.is_new Redis.keyOf lawCheck
      rw [identified]
      rfl
    | ok found =>
      obtain ⟨key, path, msg'⟩ := found
      obtain ⟨short, texts⟩ := fits key path msg' identified
      have whole := ex_of_natCast o integer
      by_cases text : ∃ p, path = .str p
      · obtain ⟨p, rfl⟩ := text
        obtain ⟨s, rfl⟩ := texts p rfl
        have lawful : lawCheck w o now history msg =
            .ok (history ++ [⟨now, .text s, p⟩], msg',
              !decide (Seen o.nodupe_ttl history now (.text s) p)) :=
          bind_ok_iff.mpr ⟨_, identified, rfl⟩
        rw [is_new_texts keybase identified short (by omega), lawful]
        refine ⟨?_, ?_⟩
        · have lasts : ((Redis.ex o : ℤ) : ℚ) = o.nodupe_ttl := by
            rw [whole, integer]
            rfl
          change Kept o now (onServer h keybase ⟨_⟩) _
          rw [set_onServer keybase injective, lasts]
          exact kept.see (.text s) p
        · rw [get_eq_holds, decide_eq_decide.mpr (kept.verdict (.text s) p)]
      · have noText : path.asStr = .error .typeError := by
          cases path with
          | str p => exact absurd ⟨p, rfl⟩ text
          | _ => rfl
        have lawful : lawCheck w o now history msg = .error .typeError := by
          unfold lawCheck
          rw [identified]
          change (path.asStr >>= _) = _
          rw [noText]
          rfl
        rw [is_new_noPath keybase identified short noText, lawful]
        rfl
  on_housekeeping kept := kept

/-- In every run whose checked messages can all be hashed, the two drivers do the same to
every batch. -/
theorem drivers_agree {ttl : Nat} (integer : o.nodupe_ttl = ttl) (positive : 1 ≤ ttl)
    (injective : ∀ hashKey, Function.Injective (h.hexdigest hashKey)) (clock : ℚ)
    (events : List (Event τ)) (ordered : Ordered clock events)
    (hashable : Fits w o (CanBeHashed w keybase) events) :
    run w o (Redis.driver w o h keybase) Redis.empty events =
      run w o (Disk.driver w o) Disk.empty events := by
  have nothing : ∀ seen ∈ ([] : List Sighting), seen.time ≤ clock := fun seen member =>
    absurd member List.not_mem_nil
  have server : Kept o clock (onServer h keybase Redis.empty) [] := by
    refine ⟨?_, nothing⟩
    have empty : onServer h keybase Redis.empty = fun _ => none := by
      funext pair
      obtain ⟨key, path⟩ := pair
      cases key <;> rfl
    rw [empty]
    exact recalls_nothing clock
  rw [(redis_tied w keybase integer positive injective).run_eq server ordered hashable]
  refine ((disk_tied w).run_eq ⟨recalls_nothing clock, nothing⟩ ordered ?_).symm
  exact fun _ _ _ _ _ _ => trivial

end Redis

/-! ## A short key base, and a long one -/

/-- A hash for the runs below: the bytes in hexadecimal. -/
def hexadecimal : Blake2b where
  hexdigest _ text := text.flatMap fun b =>
    [Percent.hexDigit (b.toNat / 16), Percent.hexDigit (b.toNat % 16)]
  hex := by
    intro key text member
    have digits : ∀ n < 16, '.' ≠ Percent.hexDigit n := by decide
    obtain ⟨b, -, member⟩ := List.mem_flatMap.mp member
    have small : b.toNat < 256 := b.toNat_lt
    simp only [List.mem_cons, List.not_mem_nil, or_false] at member
    rcases member with high | low
    · exact digits _ (by omega) high
    · exact digits _ (by omega) low

theorem hexadecimal_injective (hashKey : List UInt8) :
    Function.Injective (hexadecimal.hexdigest hashKey) := by
  have digits {m n : Nat} (hm : m < 16) (hn : n < 16)
      (same : Percent.hexDigit m = Percent.hexDigit n) : m = n := by
    have values := congrArg Percent.hexValue same
    rw [Percent.hexValue_hexDigit m hm, Percent.hexValue_hexDigit n hn] at values
    exact Option.some.inj values
  intro a b same
  change List.flatMap _ a = List.flatMap _ b at same
  induction a generalizing b with
  | nil =>
    cases b with
    | nil => rfl
    | cons y b => cases same
  | cons x a ih =>
    cases b with
    | nil => cases same
    | cons y b =>
      rw [List.flatMap_cons, List.flatMap_cons] at same
      have parts := List.cons.inj same
      have rest := List.cons.inj parts.2
      have hx : x.toNat < 256 := x.toNat_lt
      have hy : y.toNat < 256 := y.toNat_lt
      have high := digits (by omega) (by omega) parts.1
      have low := digits (by omega) (by omega) rest.1
      have byte : x = y := UInt8.toNat_inj.mp (by omega)
      rw [byte, ih rest.2]

def shortBase : Str := "sr3.nodupe.subscribe.foobar_conf".toList

/-- The key base of a configuration with a long name. -/
def longBase : Str := "sr3.nodupe.subscribe.".toList ++ List.replicate 50 'a'

theorem drivers_disagree_longBase :
    Ordered 0 comesAgain ∧ (∀ hashKey, Function.Injective (hexadecimal.hexdigest hashKey)) ∧
      (run plainWorld fiveMinutes (Redis.driver plainWorld fiveMinutes hexadecimal longBase)
          Redis.empty comesAgain).map (fun batch => (batch.new_incoming.length, batch.rejected.length)) ≠
        (run plainWorld fiveMinutes (Disk.driver plainWorld fiveMinutes) Disk.empty
          comesAgain).map (fun batch => (batch.new_incoming.length, batch.rejected.length)) := by
  refine ⟨?_, hexadecimal_injective, by decide +kernel⟩
  refine ⟨?_, ?_, ?_, ?_, ?_, trivial⟩ <;> norm_num [Event.now]

theorem drivers_agree_shortBase :
    run plainWorld fiveMinutes (Redis.driver plainWorld fiveMinutes hexadecimal shortBase)
        Redis.empty comesAgain =
      run plainWorld fiveMinutes (Disk.driver plainWorld fiveMinutes) Disk.empty comesAgain := by
  refine drivers_agree plainWorld shortBase (show fiveMinutes.nodupe_ttl = (300 : ℕ) from rfl) (by decide) hexadecimal_injective 0
    comesAgain ?_ ?_
  · refine ⟨?_, ?_, ?_, ?_, ?_, trivial⟩ <;> norm_num [Event.now]
  · intro now worklist member m inside _
    have only : worklist = oneMessage := by
      simp only [comesAgain, List.mem_cons, Event.after_accept.injEq, reduceCtorEq, false_or,
        List.not_mem_nil, or_false] at member
      rcases member with same | same | same <;> exact same.2
    subst only
    rw [List.mem_singleton.mp inside]
    intro key path msg' identified
    cases identified
    exact ⟨by decide +kernel, fun _ _ => ⟨_, rfl⟩⟩

end Sarracenia.Guarantees.NoDupe

/-!
## Instances that share the duplicate cache

An instance that finds no entry has not made one yet: until its `SET`, another instance
finds none either, and both are told that the message is new. Where no instance asks for a
key while another one holds such an answer, at most one is told so for as long as the entry
lives.
-/
namespace Sarracenia.Guarantees.NoDupe
open Library Library.Text Library.Dynamic Source Source.NoDupe Source.NoDupe.Shared

section Sharing
variable {ι : Type} [DecidableEq ι] {o : NoDupe.Options}

/-- The instance has found no entry, and has not made it yet. -/
def Missed (s : System ι) (i : ι) (key : Str) : Prop := s.asked i = some ⟨key, false⟩

/-- A `GET` that finds nothing comes while no other instance has found nothing. -/
def Alone (s : System ι) : Command ι → Prop
  | .get i key => ¬ s.Alive key → ∀ j, j ≠ i → ¬ Missed s j key
  | _ => True

/-- At most one instance at a time has found no entry of a key. -/
def Exclusive (s : System ι) : Prop := ∀ i j key, Missed s i key → Missed s j key → i = j

/-- Finding no entry is the answer to a `GET` while there is none. -/
theorem missed_of_step {s s' : System ι} {c : Command ι} (step : Step o s c s') {j : ι} {key : Str}
    (missed : Missed s' j key) : Missed s j key ∨ c = .get j key ∧ ¬ s.Alive key := by
  have other {i : ι} {a : Option Asked} (apart : j ≠ i)
      (missed : Function.update s.asked i a j = some ⟨key, false⟩) : Missed s j key := by
    rwa [Function.update_of_ne apart] at missed
  have self {i : ι} {a : Option Asked} (here : j = i)
      (missed : Function.update s.asked i a j = some ⟨key, false⟩) : a = some ⟨key, false⟩ := by
    rwa [here, Function.update_self] at missed
  cases step with
  | wait later => exact Or.inl missed
  | @get i asked idle =>
    by_cases here : j = i
    · have answer := Asked.mk.inj (Option.some.inj (self here missed))
      rw [here, answer.1]
      refine Or.inr ⟨rfl, fun alive => ?_⟩
      rw [← answer.1] at alive
      cases alive.symm.trans answer.2
    · exact Or.inl (other here missed)
  | @set i a redis asked done =>
    by_cases here : j = i
    · cases self here missed
    · exact Or.inl (other here missed)
  | @refused i a fault asked raised =>
    by_cases here : j = i
    · cases self here missed
    · exact Or.inl (other here missed)

theorem exclusive_step {s s' : System ι} {c : Command ι} (exclusive : Exclusive s)
    (alone : Alone s c) (step : Step o s c s') : Exclusive s' := by
  intro i j key left right
  rcases missed_of_step step left with left | ⟨asks, none_⟩
  · rcases missed_of_step step right with right | ⟨asks, none_⟩
    · exact exclusive i j key left right
    · subst asks
      by_contra apart
      exact alone none_ i apart left
  · subst asks
    rcases missed_of_step step right with right | ⟨same, -⟩
    · by_contra apart
      exact alone none_ j (Ne.symm apart) right
    · exact (Command.get.inj same).1

theorem exclusive_run {s s' : System ι} (idle : s.Idle) (run : Run o Alone s s') :
    Exclusive s' := by
  induction run with
  | here =>
    intro i j key left right
    cases (idle i).symm.trans left
  | step run alone step ih => exact exclusive_step ih alone step

/-- With its `SET` an instance gives the answer it had. -/
theorem set_asked {s s' : System ι} {i : ι} {key : Str} {new : Bool}
    (step : Step o s (.set i key new) s') : s.asked i = some ⟨key, !new⟩ ∧ s'.asked i = none := by
  cases step with
  | @set i a redis asked done =>
    rw [Bool.not_not]
    have answered : Function.update s.asked i none i = none := Function.update_self ..
    exact ⟨asked, answered⟩

/-- While the entry lives, nobody comes to find none. -/
theorem not_missed_run {s s' : System ι} {key : Str} (none_ : ∀ i, ¬ Missed s i key)
    (run : Run o (fun s _ => s.Alive key) s s') : ∀ i, ¬ Missed s' i key := by
  induction run with
  | here => exact none_
  | step run alive step ih =>
    intro i missed
    rcases missed_of_step step missed with before | ⟨-, dead⟩
    · exact ih i before
    · exact dead alive

/-- In a run where every `GET` that finds nothing comes while no other instance has found
nothing, once an instance was told that a key is new, every instance is told that it is not
for as long as the entry lives. -/
theorem told_new_once {start s s' later after_ : System ι} {i j : ι} {key : Str} {new : Bool}
    (idle : start.Idle) (before : Run o Alone start s) (first : Step o s (.set i key true) s')
    (meanwhile : Run o (fun s _ => s.Alive key) s' later)
    (second : Step o later (.set j key new) after_) : new = false := by
  have exclusive := exclusive_run idle before
  obtain ⟨missed, answered⟩ := set_asked first
  have nobody : ∀ k, ¬ Missed s' k key := by
    intro k stillMissed
    rcases missed_of_step first stillMissed with before | ⟨asks, -⟩
    · have same := exclusive k i key before missed
      rw [same] at stillMissed
      cases answered.symm.trans stillMissed
    · cases asks
  have none_ := not_missed_run nobody meanwhile j
  cases new with
  | false => rfl
  | true => exact absurd (set_asked second).1 none_

end Sharing

/-! ## One instance alone, and two at once -/

section Alone_
variable {τ ι : Type} [DecidableEq ι] {w : World τ} {o : NoDupe.Options} {h : Blake2b} {keybase : Str}

/-- A check is the two commands, with nothing between them. -/
theorem is_new_run {s : System ι} {i : ι} (idle : s.asked i = none) {msg msg' : Message}
    {key : Str} {new : Bool} {r : Redis} (asked : Redis.keyOf w h keybase msg = .ok (key, msg'))
    (checked : Redis.is_new w o h keybase s.clock s.redis msg = .ok (r, msg', new)) :
    ∃ s' s'', Step o s (.get i key) s' ∧ Step o s' (.set i key new) s'' ∧ s''.redis = r ∧
      s''.asked i = none := by
  obtain ⟨found, asked', checked⟩ := bind_ok_iff.mp checked
  obtain rfl := Except.ok.inj (asked'.symm.trans asked)
  obtain ⟨r', set, checked⟩ := bind_ok_iff.mp checked
  obtain ⟨rfl, rest⟩ := Prod.mk.inj (Except.ok.inj checked)
  obtain ⟨-, rfl⟩ := Prod.mk.inj rest
  have holds : (s.tell i (some ⟨key, s.redis.get s.clock key⟩)).asked i =
      some ⟨key, s.redis.get s.clock key⟩ := Function.update_self ..
  have answered : Function.update (s.tell i (some ⟨key, s.redis.get s.clock key⟩)).asked i none i =
      none := Function.update_self ..
  exact ⟨_, _, Step.get idle, Step.set holds set, rfl, answered⟩

end Alone_

/-- Two instances that nobody has told anything, and no entry. -/
def twoInstances : System Bool := ⟨0, Redis.empty, fun _ => none⟩

theorem set_ok {r : Redis} {now : ℚ} {key : Str} {ex : Int} (positive : 0 < ex) :
    r.set now key ex = .ok ⟨r.keys.set key (now + ex)⟩ := if_neg (not_le.mpr positive)

theorem fiveMinutes_ex : Redis.ex fiveMinutes = 300 := by decide +kernel

/-- The entry of a key, made at time zero. -/
def entryAtZero : Redis := ⟨Redis.empty.keys.set ['k'] (0 + ((300 : ℤ) : ℚ))⟩

theorem entryAtZero_set : (Redis.empty).set 0 ['k'] (Redis.ex fiveMinutes) = .ok entryAtZero := by
  rw [fiveMinutes_ex]
  exact set_ok (by decide)

theorem entryAtZero_get : entryAtZero.get 0 ['k'] = true := by decide +kernel

/-- The two ask one after the other and then make the entry one after the other, all at one
time: both are told that it is new, and the entry lives in between. -/
theorem both_told_new : ∃ s s' after_ : System Bool, twoInstances.Idle ∧
    Run fiveMinutes (fun _ _ => True) twoInstances s ∧
    Step fiveMinutes s (.set false ['k'] true) s' ∧ s'.Alive ['k'] ∧
    Step fiveMinutes s' (.set true ['k'] true) after_ := by
  let both := (twoInstances.tell false (some ⟨['k'], false⟩)).tell true (some ⟨['k'], false⟩)
  have asks : Run fiveMinutes (fun _ _ => True) twoInstances both :=
    .step (.step .here trivial (@Step.get _ _ _ _ false ['k'] rfl)) trivial
      (@Step.get _ _ _ _ true ['k'] rfl)
  let entered := { both.tell false none with redis := entryAtZero }
  have first : Step fiveMinutes both (.set false ['k'] true) entered :=
    Step.set (a := ⟨['k'], false⟩) rfl entryAtZero_set
  have second : Step fiveMinutes entered (.set true ['k'] true) _ :=
    Step.set (a := ⟨['k'], false⟩) rfl (set_ok (by decide +kernel))
  exact ⟨both, entered, _, fun _ => rfl, asks, first, entryAtZero_get, second⟩

/-- One instance after the other. -/
theorem told_new_once_inTurn : ∃ (s s' later after_ : System Bool) (new : Bool),
    Run fiveMinutes Alone twoInstances s ∧ Step fiveMinutes s (.set false ['k'] true) s' ∧
    Run fiveMinutes (fun s _ => s.Alive ['k']) s' later ∧
    Step fiveMinutes later (.set true ['k'] new) after_ ∧ new = false := by
  let asked := twoInstances.tell false (some ⟨['k'], false⟩)
  have alone : Alone twoInstances (.get false ['k']) := fun _ j _ missed => by cases missed
  have asks : Run fiveMinutes Alone twoInstances asked :=
    .step .here alone (@Step.get _ _ _ _ false ['k'] rfl)
  let entered := { asked.tell false none with redis := entryAtZero }
  have enters : Step fiveMinutes asked (.set false ['k'] true) entered :=
    Step.set (a := ⟨['k'], false⟩) rfl entryAtZero_set
  let answer : Asked := ⟨['k'], entered.redis.get entered.clock ['k']⟩
  have found : Run fiveMinutes (fun s _ => s.Alive ['k']) entered
      (entered.tell true (some answer)) :=
    .step .here entryAtZero_get (@Step.get _ _ _ _ true ['k'] rfl)
  have again : Step fiveMinutes (entered.tell true (some answer))
      (.set true ['k'] (!answer.got)) _ :=
    Step.set (a := answer) rfl (set_ok (by decide +kernel))
  exact ⟨_, _, _, _, _, asks, enters, found, again,
    told_new_once (fun _ => rfl) asks enters found again⟩

end Sarracenia.Guarantees.NoDupe
