import Sarracenia.Guarantees.Credentials.Lookups
import Sarracenia.Guarantees.Subscriptions.Finalize
import Sarracenia.Source.SubscriptionFile

/-!
# Subscriptions written and read back

A broker is written as what is shown of its credential, and is itself again only if the lookup of that
text ends at the very object.
-/
namespace Sarracenia.Guarantees.Subscriptions
open Library Library.Text Library.Dynamic Library.Urls Source.Credentials Source.Subscriptions Source.SubscriptionFile
open Guarantees.Credentials (Userless firstForOf_cons firstForOf_none firstForOf_behind)

/-! ## The object a lookup ends at -/

section Lookup
variable {ρ : Type} (w : World) (cred : ρ → Credential)

/-- The first object for the URL. -/
def First (url : Url) (entries : List (Str × ρ)) (o : ρ) : Prop :=
  ∃ before key after, entries = before ++ (key, o) :: after ∧
    (∀ entry ∈ before, resolves w url (cred entry.2).url = .ok false) ∧ resolves w url (cred o).url = .ok true

/-- No object is for the URL, and where the one that is made for it is looked for there is another. -/
structure Instead (db : Table Str ρ) (built : Str) (url : Url) (key : Str) (o : ρ) : Prop where
  valid : isValid w url none = true
  other : addKey built url ≠ key
  there : db.get key = some o

inductive Finds (db : Table Str ρ) (urlstr : Str) (o : ρ) : Prop where
  | key (there : db.get urlstr = some o)
  | first (url : Url) (new : db.get urlstr = none) (parses : _urlparse w urlstr = .ok url) (named : ¬ Userless w url)
      (first : First w cred url db.entries o)
  | instead (url : Url) (new : db.get urlstr = none) (parses : _urlparse w urlstr = .ok url) (named : ¬ Userless w url)
      (nobody : ∀ entry ∈ db.entries, resolves w url (cred entry.2).url = .ok false)
      (instead : Instead w db urlstr url (getKey w urlstr url) o)
  | default_first (given url : Url) (built : Str) (new : db.get urlstr = none) (parses : _urlparse w urlstr = .ok given)
      (userless : Userless w given) (made : anonymous given = .ok built) (parses' : _urlparse w built = .ok url)
      (invalid : isValid w url none = false) (first : First w cred url db.entries o)
  | default_instead (given url : Url) (built : Str) (new : db.get urlstr = none) (parses : _urlparse w urlstr = .ok given)
      (userless : Userless w given) (made : anonymous given = .ok built) (parses' : _urlparse w built = .ok url)
      (instead : Instead w db built url (replaceAll ":anonymous@".toList "@".toList built) o)

variable {w cred} {make : Url → ρ} {db : Table Str ρ} {urlstr : Str} {url : Url} {o : ρ} {entries : List (Str × ρ)}

theorem firstForOf_iff : firstForOf w cred url entries = .ok (some o) ↔ First w cred url entries o := by
  constructor
  · intro found
    induction entries with
    | nil => cases found
    | cons entry entries ih =>
      rw [firstForOf_cons] at found
      obtain ⟨answer, is, found⟩ := bind_ok_iff.mp found
      cases answer with
      | true =>
        cases found
        exact ⟨[], entry.1, entries, rfl, (fun _ member => nomatch member), is⟩
      | false =>
        obtain ⟨before, key, after, rfl, no, yes⟩ := ih found
        exact ⟨entry :: before, key, after, rfl, List.forall_mem_cons.mpr ⟨is, no⟩, yes⟩
  · rintro ⟨before, key, after, rfl, no, yes⟩
    rw [firstForOf_behind no, firstForOf_cons, yes]
    rfl

theorem firstForOf_nobody : firstForOf w cred url entries = .ok none ↔ ∀ entry ∈ entries, resolves w url (cred entry.2).url = .ok false := by
  refine ⟨firstForOf_none, fun nobody => ?_⟩
  have all : firstForOf w cred url (entries ++ []) = firstForOf w cred url [] := firstForOf_behind nobody
  rwa [List.append_nil] at all

variable (old : ∀ url, make url ≠ o)
include old

/-- Where a new object is added, an old one is found only in its place. -/
theorem added_iff {built key : Str} (valid : isValid w url none = true) :
    ((db.set (addKey built url) (make url)).get key = some o) ↔ Instead w db built url key o := by
  rw [Table.get_set]
  split
  · next same =>
    refine iff_of_false (fun is => old url (Option.some.inj is)) fun instead => instead.other same.symm
  · next other => exact ⟨fun there => ⟨valid, Ne.symm other, there⟩, fun instead => instead.there⟩

theorem resolvedOf_iff (parses : _urlparse w urlstr = .ok url) :
    (∃ cached, (resolvedOf w cred make db urlstr url).2 = .ok (cached, some o)) ↔
      First w cred url db.entries o ∨ (∀ entry ∈ db.entries, resolves w url (cred entry.2).url = .ok false) ∧
        Instead w db urlstr url (getKey w urlstr url) o := by
  unfold resolvedOf
  cases found : firstForOf w cred url db.entries with
  | error fault =>
    refine iff_of_false (fun ⟨_, is⟩ => by cases is) ?_
    rintro (first | ⟨nobody, -⟩)
    · cases found.symm.trans (firstForOf_iff.mpr first)
    · cases found.symm.trans (firstForOf_nobody.mpr nobody)
  | ok answer =>
    cases answer with
    | some p =>
      have first := firstForOf_iff.mp found
      constructor
      · rintro ⟨cached, is⟩
        cases is
        exact .inl first
      · rintro (first' | ⟨nobody, -⟩)
        · cases found.symm.trans (firstForOf_iff.mpr first')
          exact ⟨_, rfl⟩
        · cases found.symm.trans (firstForOf_nobody.mpr nobody)
    | none =>
      have nobody := firstForOf_nobody.mp found
      have noFirst : ¬ First w cred url db.entries o := fun first => by cases found.symm.trans (firstForOf_iff.mpr first)
      rw [or_iff_right noFirst, and_iff_right nobody]
      by_cases valid : isValid w url none = true
      · have added : addOf w make db urlstr = .ok (db.set (addKey urlstr url) (make url)) := by
          unfold addOf
          rw [parses]
          rfl
        dsimp only
        rw [if_pos valid, added, ← added_iff old valid]
        dsimp only
        cases (db.set (addKey urlstr url) (make url)).get (getKey w urlstr url) with
        | none => exact iff_of_false (fun ⟨_, is⟩ => by cases is) (fun is => by cases is)
        | some p =>
          constructor
          · rintro ⟨cached, is⟩
            cases is
            rfl
          · intro is
            cases is
            exact ⟨_, rfl⟩
      · dsimp only
        rw [if_neg valid]
        exact iff_of_false (fun ⟨_, is⟩ => by cases is) (fun instead => valid instead.valid)

/-- The branch of the anonymous default. -/
theorem default_iff {given : Url} (new : db.get urlstr = none) (parses : _urlparse w urlstr = .ok given) (userless : Userless w given) :
    (∃ cached, (anonymousOf w cred make db given).2 = .ok (cached, some o)) ↔ Finds w cred db urlstr o := by
  have only (finds : Finds w cred db urlstr o) : ∃ built url, anonymous given = .ok built ∧ _urlparse w built = .ok url ∧
      (isValid w url none = false ∧ First w cred url db.entries o ∨
        Instead w db built url (replaceAll ":anonymous@".toList "@".toList built) o) := by
    cases finds with
    | key there => cases new.symm.trans there
    | first _ _ parses' named =>
      cases parses.symm.trans parses'
      exact absurd userless named
    | instead _ _ parses' named =>
      cases parses.symm.trans parses'
      exact absurd userless named
    | default_first _ url built _ parses' _ made parsed invalid first =>
      cases parses.symm.trans parses'
      exact ⟨built, url, made, parsed, .inl ⟨invalid, first⟩⟩
    | default_instead _ url built _ parses' _ made parsed instead =>
      cases parses.symm.trans parses'
      exact ⟨built, url, made, parsed, .inr instead⟩
  unfold anonymousOf
  cases made : anonymous given with
  | error fault =>
    refine iff_of_false (fun ⟨_, is⟩ => by cases is) fun finds => ?_
    obtain ⟨built, _, made', _⟩ := only finds
    cases made.symm.trans made'
  | ok built =>
    dsimp only
    cases parsed : _urlparse w built with
    | error fault =>
      refine iff_of_false (fun ⟨_, is⟩ => by cases is) fun finds => ?_
      obtain ⟨_, _, made', parsed', _⟩ := only finds
      cases made.symm.trans made'
      cases parsed.symm.trans parsed'
    | ok url =>
      have split_ : Finds w cred db urlstr o ↔ isValid w url none = false ∧ First w cred url db.entries o ∨
          Instead w db built url (replaceAll ":anonymous@".toList "@".toList built) o := by
        constructor
        · intro finds
          obtain ⟨_, _, made', parsed', either⟩ := only finds
          cases made.symm.trans made'
          cases parsed.symm.trans parsed'
          exact either
        · rintro (⟨invalid, first⟩ | instead)
          · exact .default_first given url built new parses userless made parsed invalid first
          · exact .default_instead given url built new parses userless made parsed instead
      rw [split_]
      dsimp only
      by_cases valid : isValid w url none = true
      · have added : addOf w make db built = .ok (db.set (addKey built url) (make url)) := by
          unfold addOf
          rw [parsed]
          rfl
        have noFirst : ¬ (isValid w url none = false ∧ First w cred url db.entries o) := fun both => by
          cases valid.symm.trans both.1
        rw [if_pos valid, added, or_iff_right noFirst, ← added_iff old valid]
        dsimp only
        cases (db.set (addKey built url) (make url)).get (replaceAll ":anonymous@".toList "@".toList built) with
        | none => exact iff_of_false (fun ⟨_, is⟩ => by cases is) (fun is => by cases is)
        | some p =>
          constructor
          · rintro ⟨cached, is⟩
            cases is
            rfl
          · intro is
            cases is
            exact ⟨_, rfl⟩
      · rw [if_neg valid, resolvedOf_iff old parsed]
        constructor
        · rintro (first | ⟨-, instead⟩)
          · exact .inl ⟨Bool.eq_false_iff.mpr valid, first⟩
          · exact absurd instead.valid valid
        · rintro (⟨-, first⟩ | instead)
          · exact .inl first
          · exact absurd instead.valid valid

theorem getOf_iff : (∃ cached, (getOf w cred make db urlstr).2 = .ok (cached, some o)) ↔ Finds w cred db urlstr o := by
  unfold getOf
  cases known : db.get urlstr with
  | some p =>
    constructor
    · rintro ⟨cached, is⟩
      cases is
      exact .key known
    · intro finds
      cases finds with
      | key there =>
        cases known.symm.trans there
        exact ⟨_, rfl⟩
      | first _ new => cases known.symm.trans new
      | instead _ new => cases known.symm.trans new
      | default_first _ _ _ new => cases known.symm.trans new
      | default_instead _ _ _ new => cases known.symm.trans new
  | none =>
    cases parses : _urlparse w urlstr with
    | error fault =>
      refine iff_of_false (fun ⟨_, is⟩ => by cases is) fun finds => ?_
      cases finds with
      | key there => cases known.symm.trans there
      | first _ _ parses' => cases parses.symm.trans parses'
      | instead _ _ parses' => cases parses.symm.trans parses'
      | default_first _ _ _ _ parses' => cases parses.symm.trans parses'
      | default_instead _ _ _ _ parses' => cases parses.symm.trans parses'
    | ok url =>
      dsimp only
      by_cases userless : (amqp url && blank (username w url)) = true
      · rw [if_pos userless]
        exact default_iff old known parses userless
      · rw [if_neg userless, resolvedOf_iff old parses]
        constructor
        · rintro (first | ⟨nobody, instead⟩)
          · exact .first url known parses userless first
          · exact .instead url known parses userless nobody instead
        · intro finds
          cases finds with
          | key there => cases known.symm.trans there
          | first _ _ parses' _ first =>
            cases parses.symm.trans parses'
            exact .inl first
          | instead _ _ parses' _ nobody instead =>
            cases parses.symm.trans parses'
            exact .inr ⟨nobody, instead⟩
          | default_first _ _ _ _ parses' is =>
            cases parses.symm.trans parses'
            exact absurd is userless
          | default_instead _ _ _ _ parses' is =>
            cases parses.symm.trans parses'
            exact absurd is userless

end Lookup

/-! ## One subscription -/

section Entry
variable {ν : Type} {w : World} {o : Options ν} {store : Store} {b : Binding ν} {bs : List (Binding ν)}

/-- A binding in the form of the later releases. -/
structure Normal (b : Binding ν) : Prop where
  sub : b.get "sub" = none
  prefix_ : (b.get "topic").isSome → b.get "prefix" = none

theorem erase_of_none {key : String} (none_ : b.get key = none) : b.erase key = b := by
  refine Table.ext_entries (Table.keepEntries_all fun entry member => if_neg fun same => ?_)
  have there := b.get_eq_some_iff.mpr member
  rw [same, none_] at there
  cases there

theorem normalizeBinding_iff {mqtt : Bool} {name : ν} : normalizeBinding o mqtt name b = .ok b ↔ Normal b := by
  unfold normalizeBinding
  by_cases topic : (b.get "topic").isSome = true
  · rw [if_pos topic, Except.ok.injEq]
    constructor
    · intro same
      have sub : b.get "sub" = none := by
        rw [← same, Table.get_erase, Table.get_erase]
        rfl
      have prefix_ : b.get "prefix" = none := by
        rw [← same, Table.get_erase]
        rfl
      exact ⟨sub, fun _ => prefix_⟩
    · intro normal
      rw [erase_of_none normal.sub, erase_of_none (normal.prefix_ topic)]
  · rw [if_neg topic]
    cases sub : b.get "sub" with
    | none => exact iff_of_true rfl ⟨sub, fun is => absurd is topic⟩
    | some text =>
      refine iff_of_false (fun same => ?_) fun normal => by cases sub.symm.trans normal.sub
      obtain ⟨joined, -, same⟩ := bind_ok_iff.mp same
      have gone : b.get "sub" = none := by
        rw [← Except.ok.inj same, Table.get_erase, Table.get_erase]
        rfl
      cases sub.symm.trans gone

theorem normalizeBindings_iff {mqtt : Bool} {name : ν} : normalizeBindings o mqtt name bs = .ok bs ↔ ∀ b ∈ bs, Normal b := by
  induction bs with
  | nil => exact iff_of_true rfl fun _ member => nomatch member
  | cons b bs ih =>
    have here : normalizeBinding o mqtt name b = .ok b ↔ Normal b := normalizeBinding_iff
    rw [normalizeBindings, List.forall_mem_cons, ← ih, ← here]
    constructor
    · intro ok
      obtain ⟨b', one, ok⟩ := bind_ok_iff.mp ok
      obtain ⟨bs', rest, ok⟩ := bind_ok_iff.mp ok
      obtain ⟨rfl, rfl⟩ := List.cons.inj (Except.ok.inj ok)
      exact ⟨one, rest⟩
    · rintro ⟨one, rest⟩
      rw [one]
      change (normalizeBindings o mqtt name bs >>= fun bs => Except.ok (b :: bs)) = _
      rw [rest]
      rfl

/-- The broker, the queue and the bindings are what they were. -/
structure Same (s : Subscription Object ν) (t : Subscription Broker ν) : Prop where
  broker : t.broker = .object s.broker
  queue : t.queue = s.queue
  bindings : t.bindings = s.bindings

/-- Nothing is filled in when the subscription is read. -/
structure Filled (s : Subscription Object ν) : Prop where
  tlsRigour : (s.queue.fields.get "tlsRigour").isSome
  bindings : ∀ b ∈ s.bindings, Normal b

theorem filledIn_iff {fields : Table String ν} {key : String} {default : ν} :
    filledIn fields key default = fields ↔ (fields.get key).isSome := by
  unfold filledIn
  constructor
  · intro same
    split at same
    · assumption
    · rw [← same, Table.get_set_self]
      rfl
  · exact fun there => if_pos there

theorem readRest_iff {s : Subscription Object ν} {text : Str} {broker : Broker} :
    (∃ t, readRest w o (withBroker s text) broker = .ok t ∧ Same s t) ↔ broker = .object s.broker ∧ Filled s := by
  constructor
  · rintro ⟨t, ok, same⟩
    obtain ⟨bindings, normal, ok⟩ := bind_ok_iff.mp ok
    obtain rfl := Except.ok.inj ok
    have bindings_ : bindings = s.bindings := same.bindings
    rw [bindings_] at normal
    have fields : filledIn s.queue.fields "tlsRigour" o.tlsRigour = s.queue.fields := congrArg Queue.fields same.queue
    exact ⟨same.broker, filledIn_iff.mp fields, normalizeBindings_iff.mp normal⟩
  · rintro ⟨rfl, filled⟩
    refine ⟨⟨.object s.broker, s.queue, s.bindings, s.bindings_to_remove, filledIn s.fields "auto_delete" o.auto_delete⟩, ?_,
      rfl, rfl, rfl⟩
    unfold readRest
    dsimp only [withBroker]
    rw [normalizeBindings_iff.mpr filled.bindings, filledIn_iff.mpr filled.tlsRigour]
    rfl

/-- A broker that is shown as the text is read back as itself. -/
theorem readBroker_iff {text : Str} {p : Object} (fresh : p.ident < store.next) :
    (readBroker w store text).2 = .ok (.object p) ↔ Finds w Object.credential store.db text p := by
  have old (url : Url) : (⟨store.next, .of url⟩ : Object) ≠ p := fun same => by
    rw [← same] at fresh
    exact absurd fresh (Nat.lt_irrefl _)
  rw [← getOf_iff old]
  unfold readBroker validate_urlstrOf
  generalize getOf w Object.credential (fun url => ⟨store.next, .of url⟩) store.db text = answer
  obtain ⟨db, fault | ⟨cached, found⟩⟩ := answer
  · exact iff_of_false (fun is => by cases is) fun ⟨_, is⟩ => by cases is
  · cases found with
    | none =>
      refine iff_of_false (fun is => ?_) fun ⟨_, is⟩ => by cases is
      dsimp only at is
      cases parses : _urlparse w text with
      | error fault =>
        rw [parses] at is
        cases is
      | ok url =>
        rw [parses] at is
        cases is
    | some q =>
      constructor
      · intro is
        cases is
        exact ⟨cached, rfl⟩
      · rintro ⟨_, is⟩
        cases is
        rfl

theorem readBroker_next (store : Store) (text : Str) : (readBroker w store text).1.next = store.next + 1 := rfl

end Entry

/-! ## The whole list -/

section List
variable {ν : Type} (w : World) (o : Options ν)

/-- Each broker is shown as a text the lookup of which ends at it, in the store the lookups before have left, and
nothing is filled in. -/
def Recognised : Store → List (Subscription Object ν) → Prop
  | _, [] => True
  | store, s :: ss => Filled s ∧ ∃ text, Source.Credentials.str w s.broker.credential = .ok text ∧
      Finds w Object.credential store.db text s.broker ∧ Recognised (readBroker w store text).1 ss

/-- `s['broker']` is an object. -/
def resolvedBroker (s : Subscription Object ν) : Subscription Broker ν := withBroker s (.object s.broker)

/-- What was written is there when it is read. -/
def Recovered (store : Store) (ss : List (Subscription Object ν)) (back : List (Subscription Broker ν)) : Prop :=
  ∃ data, write w (ss.map resolvedBroker) = .ok (some data) ∧ (read w o store data).2 = back ∧ List.Forall₂ Same ss back

variable {w o} {store : Store} {s : Subscription Object ν} {ss : List (Subscription Object ν)}

theorem readEach_cons {d : Subscription Str ν} {data : List (Subscription Str ν)} {back : List (Subscription Broker ν)} :
    (readEach w o store (d :: data)).2 = .ok back ↔ ∃ broker t rest, (readBroker w store d.broker).2 = .ok broker ∧
      readRest w o d broker = .ok t ∧ (readEach w o (readBroker w store d.broker).1 data).2 = .ok rest ∧ back = t :: rest := by
  rw [readEach]
  obtain ⟨store', fault | broker⟩ := readBroker w store d.broker
  · exact iff_of_false (fun is => by cases is) fun ⟨_, _, _, is, _⟩ => by cases is
  · dsimp only
    cases filled : readRest w o d broker with
    | error fault =>
      refine iff_of_false (fun is => by cases is) fun ⟨_, _, _, same, is, _⟩ => ?_
      cases same
      cases filled.symm.trans is
    | ok t =>
      dsimp only
      obtain ⟨store'', fault | rest⟩ := readEach w o store' data
      · exact iff_of_false (fun is => by cases is) fun ⟨_, _, _, _, _, is, _⟩ => by cases is
      · constructor
        · intro is
          cases is
          exact ⟨broker, t, rest, rfl, filled, rfl, rfl⟩
        · rintro ⟨_, _, _, same, is, more, rfl⟩
          cases same
          cases more
          cases filled.symm.trans is
          rfl

theorem readEach_iff (fresh : ∀ s ∈ ss, s.broker.ident < store.next) :
    (∃ data back, written w (ss.map resolvedBroker) = .ok data ∧ (readEach w o store data).2 = .ok back ∧ List.Forall₂ Same ss back) ↔
      Recognised w store ss := by
  induction ss generalizing store with
  | nil => exact iff_of_true ⟨[], [], rfl, rfl, .nil⟩ trivial
  | cons s ss ih =>
    obtain ⟨here, later⟩ := List.forall_mem_cons.mp fresh
    have rest (text : Str) := @ih (readBroker w store text).1 fun s member => by
      rw [readBroker_next]
      exact Nat.lt_succ_of_lt (later s member)
    rw [List.map_cons, Recognised]
    constructor
    · rintro ⟨data, back, ok, read_, all⟩
      obtain ⟨text, shown, ok⟩ := bind_ok_iff.mp ok
      obtain ⟨data, more, ok⟩ := bind_ok_iff.mp ok
      obtain rfl := Except.ok.inj ok
      obtain ⟨broker, t, back, found, whole, others, rfl⟩ := readEach_cons.mp read_
      obtain ⟨same, all⟩ := List.forall₂_cons.mp all
      obtain ⟨rfl, filled⟩ := readRest_iff.mp ⟨t, whole, same⟩
      exact ⟨filled, text, shown, (readBroker_iff here).mp found, (rest text).mp ⟨data, back, more, others, all⟩⟩
    · rintro ⟨filled, text, shown, finds, recognised⟩
      obtain ⟨data, back, more, others, all⟩ := (rest text).mpr recognised
      obtain ⟨t, read_, same⟩ := readRest_iff.mpr ⟨rfl, filled⟩
      refine ⟨withBroker (resolvedBroker s) text :: data, t :: back, ?_, ?_, .cons same all⟩
      · rw [written]
        change (Source.Credentials.str w s.broker.credential >>= _) = _
        rw [shown]
        change (written w (ss.map resolvedBroker) >>= _) = _
        rw [more]
        rfl
      · exact readEach_cons.mpr ⟨_, t, back, (readBroker_iff here).mpr finds, read_, others, rfl⟩

theorem recovered_iff_recognised (fresh : ∀ s ∈ ss, s.broker.ident < store.next) (matched : ∀ s ∈ ss, mismatched s.queue = false) :
    (∃ back, Recovered w o store ss back) ↔ Recognised w store ss := by
  rw [← readEach_iff (o := o) fresh]
  have none_ : ((ss.map resolvedBroker).any fun s => mismatched s.queue) = false := by
    rw [List.any_map, List.any_eq_false]
    intro s member
    rw [Function.comp_apply, resolvedBroker, withBroker, matched s member]
    exact Bool.false_ne_true
  have write_ : write w (ss.map resolvedBroker) = (written w (ss.map resolvedBroker)).map some := by
    unfold write
    rw [none_]
    cases written w (ss.map resolvedBroker) <;> rfl
  constructor
  · rintro ⟨back, data, is, read_, all⟩
    rw [write_] at is
    cases made : written w (ss.map resolvedBroker) with
    | error fault =>
      rw [made] at is
      cases is
    | ok data' =>
      rw [made] at is
      cases is
      unfold Source.SubscriptionFile.read at read_
      generalize answer : readEach w o store data = r at read_
      obtain ⟨store', fault | subscriptions⟩ := r
      · -- what raises leaves nothing, which is right only of nothing
        obtain rfl : [] = back := read_
        cases all
        obtain rfl := Except.ok.inj (made.symm.trans rfl)
        cases answer
      · obtain rfl : subscriptions = back := read_
        exact ⟨data, subscriptions, rfl, congrArg Prod.snd answer, all⟩
  · rintro ⟨data, back, made, read_, all⟩
    refine ⟨back, data, by rw [write_, made]; rfl, ?_, all⟩
    unfold Source.SubscriptionFile.read
    generalize readEach w o store data = r at read_
    obtain ⟨store', fault | subscriptions⟩ := r
    · cases read_
    · exact Except.ok.inj read_

/-- One subscription for each broker and queue, as `add` keeps them, each binding with a topic and none to be removed. -/
structure Orderly (ss : List (Subscription Object ν)) : Prop where
  apart : ss.Pairwise fun s t => ¬ (s.broker = t.broker ∧ s.queue.name = t.queue.name)
  topics : ∀ s ∈ ss, ∀ b ∈ s.bindings, (b.get "topic").isSome
  clean : ∀ s ∈ ss, s.bindings_to_remove = []

theorem Orderly.unique (orderly : Orderly ss) {i j : Nat} {s t : Subscription Object ν} (one : ss[i]? = some s) (two : ss[j]? = some t)
    (broker : s.broker = t.broker) (name : s.queue.name = t.queue.name) : s = t := by
  obtain ⟨ltOne, rfl⟩ := List.getElem?_eq_some_iff.mp one
  obtain ⟨ltTwo, rfl⟩ := List.getElem?_eq_some_iff.mp two
  have apart := List.pairwise_iff_getElem.mp orderly.apart
  rcases Nat.lt_trichotomy i j with less | rfl | more
  · exact absurd ⟨broker, name⟩ (apart i j ltOne ltTwo less)
  · rfl
  · exact absurd ⟨broker.symm, name.symm⟩ (apart j i ltTwo ltOne more)

variable [DecidableEq ν] {back : List (Subscription Broker ν)}

/-- The previous self of a subscription is the only one it matches, and has its bindings. -/
theorem finalize_recovered (orderly : Orderly ss) (all : List.Forall₂ Same ss back) :
    List.Forall₂ (fun s t => Matches t (resolvedBroker s)) ss back ∧
      ∃ done, finalize (ss.map resolvedBroker) back = .ok done ∧ ∀ t ∈ done, t.bindings_to_remove = [] := by
  have clean : ∀ t ∈ ss.map resolvedBroker, t.bindings_to_remove = [] := by
    intro t member
    obtain ⟨s, there, rfl⟩ := List.mem_map.mp member
    exact orderly.clean s there
  refine ⟨all.imp fun s t same => ⟨same.broker.symm, (congrArg Queue.name same.queue).symm⟩, ?_⟩
  unfold finalize
  split
  · exact ⟨_, rfl, clean⟩
  · have comparable : ∀ os ∈ back, ∀ t ∈ ss.map resolvedBroker, Matches os t → ComparableAll os t := by
      intro os member t there _ b inside ob insideOld
      obtain ⟨s, place, same⟩ := forall₂_mem all member
      obtain ⟨s', place', rfl⟩ := List.mem_map.mp there
      rw [same.bindings] at insideOld
      exact .inr ⟨orderly.topics s' place' b inside, orderly.topics s place ob insideOld⟩
    obtain ⟨done, is⟩ := finalizeAll_ok [] (List.forall₂_same.mpr fun _ _ => ⟨rfl, rfl, rfl⟩) comparable
    obtain ⟨both, inv⟩ := finalizeAll_spec inv_start is
    rw [List.nil_append] at inv
    refine ⟨done, is, fun t member => ?_⟩
    obtain ⟨j, place⟩ := List.getElem?_of_mem member
    have bound : j < (ss.map resolvedBroker).length := by
      rw [inv.frames.length_eq]
      exact (List.getElem?_eq_some_iff.mp place).1
    have before := List.getElem?_eq_getElem bound
    rcases inv.each j _ t before place with ⟨-, kept⟩ | ⟨olds, os, last, removed⟩
    · exact kept.trans (clean _ (List.getElem_mem bound))
    · -- the bindings of the only previous subscription it matches are its own
      rw [List.getElem?_map, Option.map_eq_some_iff] at before
      obtain ⟨s, self, isSelf⟩ := before
      rw [← isSelf] at last
      obtain ⟨i, previous⟩ := List.getElem?_of_mem last.mem
      obtain ⟨s', place', same⟩ := forall₂_getElem? all.flip previous
      have broker : s.broker = s'.broker := Broker.object.inj (last.1.1.trans same.broker)
      have name : s.queue.name = s'.queue.name := last.1.2.trans (congrArg Queue.name same.queue)
      obtain rfl := orderly.unique self place' broker name
      rw [List.eq_nil_iff_forall_not_mem]
      intro ob inside
      obtain ⟨old, unrecorded⟩ := (removed ob).mp inside
      have here : resolvedBroker s ∈ (ss.map resolvedBroker).take (j + 1) := by
        refine List.mem_of_getElem? (i := j) ?_
        rw [List.getElem?_take, if_pos (Nat.lt_succ_self j), List.getElem?_map, self]
        rfl
      have kept : Kept os (resolvedBroker s) ob := ⟨same.bindings ▸ old, ob, old, rfl, rfl⟩
      exact unrecorded ⟨ob, .inr ⟨_, here, last.1, kept⟩, Table.same_self ob⟩

/-! ## A file and its use -/

/-- What is read back is what was written, and nothing is to be removed. -/
theorem persisted_iff_recognised (fresh : ∀ s ∈ ss, s.broker.ident < store.next) (matched : ∀ s ∈ ss, mismatched s.queue = false) :
    ((∃ back, Recovered w o store ss back) ↔ Recognised w store ss) ∧
      ∀ back, Orderly ss → Recovered w o store ss back → List.Forall₂ (fun s t => Matches t (resolvedBroker s)) ss back ∧
        ∃ done, finalize (ss.map resolvedBroker) back = .ok done ∧ ∀ t ∈ done, t.bindings_to_remove = [] :=
  ⟨recovered_iff_recognised fresh matched, fun _ orderly ⟨_, _, _, all⟩ => finalize_recovered orderly all⟩

end List

/-! ## A broker with and one without an option -/

section Example
open Guarantees.Credentials (asciiWorld)

def exampleOptions : Options String := ⟨"normal", "True", fun _ _ _ sub => .ok sub⟩

/-- The database after one line and a lookup without the password. -/
def lookedUp (c : Credential) : Store := ⟨(Table.empty.set "amqp://u:p@h/".toList ⟨0, c⟩).set "amqp://u@h/".toList ⟨0, c⟩, 1⟩

def subscribed (c : Credential) : Subscription Object String where
  broker := ⟨0, c⟩
  queue := ⟨"q_one", some [], Table.empty.set "tlsRigour" "normal"⟩
  bindings := [binding "v03.a"]
  bindings_to_remove := []
  fields := Table.empty

def plainBroker : Credential := .of ⟨"amqp".toList, "u:p@h".toList, "/".toList, [], [], []⟩

def optionBroker : Credential := { plainBroker with login_method := some "PLAIN".toList }

/-- The option is shown behind the path, and is read as part of it: the broker of a line, looked up with its user and host,
is not found again. -/
theorem login_method_not_recovered :
    parsed asciiWorld "amqp://u:p@h/ login_method=PLAIN".toList = .ok (some ("amqp://u:p@h/".toList, optionBroker)) ∧
      getOf asciiWorld Object.credential (fun url => ⟨1, .of url⟩) (Table.empty.set "amqp://u:p@h/".toList ⟨0, optionBroker⟩)
        "amqp://u@h/".toList = ((lookedUp optionBroker).db, .ok (true, some ⟨0, optionBroker⟩)) ∧
      ¬ ∃ back, Recovered asciiWorld exampleOptions (lookedUp optionBroker) [subscribed optionBroker] back := by
  refine ⟨by decide, rfl, ?_⟩
  rintro ⟨back, data, is, read_, all⟩
  cases is
  subst read_
  cases all with
  | cons same =>
    have broker := same.broker
    exact absurd broker (by decide)

theorem plain_recovered : ∃ back, Recovered asciiWorld exampleOptions (lookedUp plainBroker) [subscribed plainBroker] back := by
  have fresh : ∀ s ∈ [subscribed plainBroker], s.broker.ident < (lookedUp plainBroker).next := by
    intro s member
    cases List.mem_singleton.mp member
    exact Nat.zero_lt_one
  refine (persisted_iff_recognised fresh fun s member => ?_).1.mpr ⟨⟨rfl, fun b member => ?_⟩, "amqp://u@h/".toList, ?_, .key ?_, trivial⟩
  · cases List.mem_singleton.mp member
    rfl
  · cases List.mem_singleton.mp member
    exact ⟨rfl, fun _ => rfl⟩
  · decide
  · decide

end Example
end Sarracenia.Guarantees.Subscriptions
