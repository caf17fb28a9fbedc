import Sarracenia.Guarantees.Subscriptions.Finalize
import Sarracenia.Source.Bindings
import Mathlib.Data.List.Induction
import Mathlib.Data.List.Pairwise

/-!
# Bindings at the broker, from start to start

What a parse finds to remove is forgotten at the next parse, and an instance parses twice.

* what one parse finds to be removed, from the configuration before (`mem_to_remove`);
* an instance unbinds only if a queue of its configuration is inconsistent (`instance_unbinds_iff`);
* what one operation that completes does to the broker (`mem_run`);
* what is bound after any of them (`bound_iff`), and after starts alone (`bound_after_starts`).
-/
namespace Sarracenia.Guarantees.Bindings
open Library Library.Dynamic Source.Subscriptions Source.SubscriptionFile Source.Bindings
open Guarantees.Subscriptions (Frame Matches Alike Kept ComparableAll Recorded RecordedFrom
  LastMatch RemovedAgainst finalizeAll_ok finalizeAll_spec inv_start forall₂_mem forall₂_getElem?
  forall₂_of_getElem?)

section Entries
variable {β ν : Type}

def SameQueue (e f : Entry β ν) : Prop := e.broker = f.broker ∧ e.name = f.name

/-- What the file holds of a list of subscriptions that were made. -/
def Filed (entries : List (Entry β ν)) (file : List (Subscription β ν)) : Prop :=
  List.Forall₂ (fun e s => Frame e.subscription s) entries file

/-- A binding that the entry no longer has, as it had it before, unless it stays on a queue that
comes before this one in the file. -/
def Removes (previous entries : List (Entry β ν)) (e : Entry β ν) (b : ν × ν) : Prop :=
  ∃ i e₀, previous[i]? = some e₀ ∧ SameQueue e₀ e ∧ b ∈ e₀.bindings ∧ b ∉ e.bindings ∧
    ∀ f ∈ previous.take i, ∀ f' ∈ entries, SameQueue f f' → b ∈ f.bindings → b ∉ f'.bindings

def Apart (entries : List (Entry β ν)) : Prop := entries.Pairwise fun e f => ¬ SameQueue e f

variable {b b' : ν × ν} {e f : Entry β ν} {entries previous : List (Entry β ν)}
  {file : List (Subscription β ν)}

theorem SameQueue.symm (same : SameQueue e f) : SameQueue f e := ⟨same.1.symm, same.2.symm⟩

theorem SameQueue.trans {g : Entry β ν} (one : SameQueue e f) (two : SameQueue f g) :
    SameQueue e g := ⟨one.1.trans two.1, one.2.trans two.2⟩

theorem Apart.unique (apart : Apart entries) (one : e ∈ entries) (two : f ∈ entries)
    (same : SameQueue e f) : e = f := by
  have : Std.Symm fun e f : Entry β ν => ¬ SameQueue e f := ⟨fun _ _ no is => no is.symm⟩
  by_contra other
  exact apart.forall one two other same

theorem Apart.place {i j : Nat} (apart : Apart entries) (one : entries[i]? = some e)
    (two : entries[j]? = some f) (same : SameQueue e f) : i = j := by
  obtain ⟨ltOne, rfl⟩ := List.getElem?_eq_some_iff.mp one
  obtain ⟨ltTwo, rfl⟩ := List.getElem?_eq_some_iff.mp two
  have apart := List.pairwise_iff_getElem.mp apart
  rcases Nat.lt_trichotomy i j with less | rfl | more
  · exact absurd same (apart i j ltOne ltTwo less)
  · rfl
  · exact absurd same.symm (apart j i ltTwo ltOne more)

theorem binding_get :
    (binding b.1 b.2).get "exchange" = some b.1 ∧ (binding b.1 b.2).get "topic" = some b.2 := by
  simp [binding, Table.get_set]

theorem binding_entries : (binding b.1 b.2).entries = [("exchange", b.1), ("topic", b.2)] := rfl

@[simp] theorem alike_binding : Alike (binding b.1 b.2) (binding b'.1 b'.2) ↔ b = b' := by
  simp [Alike, binding_get, Prod.ext_iff]

theorem same_binding [DecidableEq ν] :
    (binding b.1 b.2).same (binding b'.1 b'.2) = true ↔ b = b' := by
  simp only [Table.same, binding_entries, binding_get, List.length_cons, List.all_cons,
    List.all_nil, Prod.ext_iff, Bool.and_eq_true, decide_eq_true_eq, Option.some.injEq, true_and,
    and_true]
  exact and_congr eq_comm eq_comm

theorem binding_inj : binding b.1 b.2 = binding b'.1 b'.2 ↔ b = b' := by
  constructor
  · intro same
    exact alike_binding.mp (same ▸ ⟨rfl, rfl⟩)
  · rintro rfl
    rfl

theorem mem_bindings {ob : Binding ν} :
    ob ∈ e.subscription.bindings ↔ ∃ b ∈ e.bindings, ob = binding b.1 b.2 := by
  simp [Entry.subscription, eq_comm]

/-- The file and what it was made from, place by place. -/
theorem Filed.mem (filed : Filed entries file) {s : Subscription β ν} (there : s ∈ file) :
    ∃ e ∈ entries, Frame e.subscription s := forall₂_mem filed there

variable {os : Subscription β ν} {ob : Binding ν}

theorem matches_iff (frame : Frame f.subscription os) :
    Matches os e.subscription ↔ SameQueue f e := by
  rw [Matches, frame.broker, frame.name]
  exact and_congr eq_comm eq_comm

theorem kept_iff (frame : Frame f.subscription os) :
    Kept os e.subscription ob ↔ ∃ b, b ∈ f.bindings ∧ b ∈ e.bindings ∧ ob = binding b.1 b.2 := by
  rw [Kept, frame.bindings, mem_bindings]
  constructor
  · rintro ⟨⟨b, there, rfl⟩, _, old, alike⟩
    obtain ⟨b', before, rfl⟩ := mem_bindings.mp old
    exact ⟨b, alike_binding.mp alike ▸ before, there, rfl⟩
  · rintro ⟨b, old, there, rfl⟩
    exact ⟨⟨b, there, rfl⟩, _, mem_bindings.mpr ⟨b, old, rfl⟩, rfl, rfl⟩

theorem recordedFrom_iff (frame : Frame f.subscription os) :
    RecordedFrom os (entries.map Entry.subscription) ob ↔ ∃ e ∈ entries,
      SameQueue f e ∧ ∃ b, b ∈ f.bindings ∧ b ∈ e.bindings ∧ ob = binding b.1 b.2 := by
  simp only [RecordedFrom, List.mem_map, exists_exists_and_eq_and, matches_iff frame,
    kept_iff frame]

end Entries

section Finalize
variable {β ν : Type} [DecidableEq ν] {entries previous : List (Entry β ν)}
  {old new' : List (Subscription β ν)}

theorem bindings_of_same {bs cs : List (ν × ν)}
    (same : sameList Table.same (bs.map fun b => binding b.1 b.2)
      (cs.map fun b => binding b.1 b.2) = true) : bs = cs := by
  induction bs generalizing cs with
  | nil =>
    cases cs with
    | nil => rfl
    | cons c cs => simp [sameList] at same
  | cons b bs ih =>
    cases cs with
    | nil => simp [sameList] at same
    | cons c cs =>
      simp only [List.map_cons, sameList, Bool.and_eq_true] at same
      rw [same_binding.mp same.1, ih same.2]

/-- What one parse finds to be removed. -/
def ToRemove (previous entries : List (Entry β ν)) (e : Entry β ν) (s : Subscription β ν) : Prop :=
  ∀ ob, ob ∈ s.bindings_to_remove ↔ ∃ b, ob = binding b.1 b.2 ∧ Removes previous entries e b

/-- Against the last previous subscription of its queue, which is the only one. -/
theorem toRemove_of_last {j : Nat} {e : Entry β ν} {s' os : Subscription β ν}
    {olds : List (Subscription β ν)} (apart : Apart entries) (apart' : Apart previous)
    (filed : Filed previous old) (place : entries[j]? = some e)
    (last : LastMatch old olds os e.subscription)
    (removed : RemovedAgainst os (Recorded olds (entries.map Entry.subscription) os
      ((entries.map Entry.subscription).take (j + 1))) s') :
    ToRemove previous entries e s' := by
  obtain ⟨matches_, later, rfl, -⟩ := last
  have here : (olds ++ os :: later)[olds.length]? = some os := by simp
  obtain ⟨e₀, before, frame⟩ := forall₂_getElem? filed.flip here
  have seen : Filed (previous.take olds.length) olds := List.forall₂_take_append _ _ _ filed
  have same : SameQueue e₀ e := (matches_iff frame).mp matches_
  intro ob
  rw [removed ob, frame.bindings, mem_bindings]
  constructor
  · rintro ⟨⟨b, old, rfl⟩, unrecorded⟩
    refine ⟨b, rfl, olds.length, e₀, before, same, old, fun kept => ?_,
      fun f member f' member' is one two => ?_⟩
    · -- the entry itself would have recorded it
      refine unrecorded ⟨_, .inr ?_, Table.same_self _⟩
      rw [← List.map_take, recordedFrom_iff frame]
      refine ⟨e, List.mem_of_getElem? (i := j) ?_, same, b, old, kept, rfl⟩
      rwa [List.getElem?_take_of_lt (Nat.lt_succ_self j)]
    · obtain ⟨os', there, frame'⟩ := forall₂_mem seen.flip member
      exact unrecorded ⟨_, .inl ⟨os', there, (recordedFrom_iff frame').mpr
        ⟨f', member', is, b, one, two, rfl⟩⟩, Table.same_self _⟩
  · rintro ⟨b, rfl, i, e₁, place', same', old, gone, alone⟩
    obtain rfl := apart'.place before place' (same.trans same'.symm)
    obtain rfl := Option.some.inj (before.symm.trans place')
    refine ⟨⟨b, old, rfl⟩, ?_⟩
    rintro ⟨ob, recorded, equal⟩
    rcases recorded with ⟨os', there, recorded⟩ | recorded
    · obtain ⟨f, member, frame'⟩ := seen.mem there
      obtain ⟨f', member', is, b', one, two, rfl⟩ := (recordedFrom_iff frame').mp recorded
      obtain rfl := same_binding.mp equal
      exact alone f member f' member' is one two
    · rw [← List.map_take, recordedFrom_iff frame] at recorded
      obtain ⟨f, member, is, b', one, two, rfl⟩ := recorded
      obtain rfl := same_binding.mp equal
      have here := is.symm.trans same
      rw [apart.unique (List.mem_of_mem_take member) (List.mem_of_getElem? place) here] at two
      exact gone two

variable [DecidableEq β]

/-- Equal lists are for the same queues, with the same bindings. -/
theorem entries_of_same (filed : Filed previous old)
    (same : sameList Subscription.same (entries.map Entry.subscription) old = true) :
    List.Forall₂ (fun e₀ e => SameQueue e₀ e ∧ e₀.bindings = e.bindings) previous entries := by
  induction filed generalizing entries with
  | nil =>
    cases entries with
    | nil => exact .nil
    | cons e entries => simp [sameList] at same
  | @cons e₀ s _ _ frame filed ih =>
    cases entries with
    | nil => simp [sameList] at same
    | cons e entries =>
      simp only [List.map_cons, sameList, Subscription.same, Queue.same, Bool.and_eq_true,
        decide_eq_true_eq] at same
      obtain ⟨⟨⟨⟨⟨broker, ⟨name, -⟩, -⟩, bindings⟩, -⟩, -⟩, rest⟩ := same
      rw [frame.bindings] at bindings
      exact .cons ⟨⟨(frame.broker.symm.trans broker.symm), frame.name.symm.trans name.symm⟩,
        (bindings_of_same bindings).symm⟩ (ih rest)

/-- A parse against what the file holds of the configuration before. -/
theorem finalize_entries (apart : Apart entries) (apart' : Apart previous)
    (filed : Filed previous old) :
    ∃ new', finalize (entries.map Entry.subscription) old = .ok new' ∧
      List.Forall₂ (fun e s => Frame e.subscription s ∧ ToRemove previous entries e s) entries
        new' := by
  unfold finalize
  split
  · next same =>
    have all := entries_of_same filed same
    refine ⟨_, rfl, List.forall₂_map_right_iff.mpr (List.forall₂_same.mpr fun e member => ?_)⟩
    refine ⟨⟨rfl, rfl, rfl⟩, fun ob => iff_of_false List.not_mem_nil ?_⟩
    rintro ⟨b, -, i, e₀, place, is, old, gone, -⟩
    obtain ⟨f, member', here, bindings⟩ := forall₂_mem all.flip (List.mem_of_getElem? place)
    rw [bindings, apart.unique member' member (here.symm.trans is)] at old
    exact gone old
  · have comparable : ∀ os ∈ old, ∀ s ∈ entries.map Entry.subscription,
        Matches os s → ComparableAll os s := by
      intro os there s member matches_ b inside ob insideOld
      obtain ⟨f, -, frame⟩ := filed.mem there
      obtain ⟨e, -, rfl⟩ := List.mem_map.mp member
      rw [frame.bindings] at insideOld
      obtain ⟨_, -, rfl⟩ := mem_bindings.mp inside
      obtain ⟨_, -, rfl⟩ := mem_bindings.mp insideOld
      exact .inr (by simp [binding_get])
    obtain ⟨new', done⟩ :=
      finalizeAll_ok [] (List.forall₂_same.mpr fun _ _ => ⟨rfl, rfl, rfl⟩) comparable
    obtain ⟨both, inv⟩ := finalizeAll_spec inv_start done
    rw [List.nil_append] at inv
    have frames : List.Forall₂ (fun e s => Frame e.subscription s) entries new' :=
      List.forall₂_map_left_iff.mp inv.frames
    refine ⟨new', done, forall₂_of_getElem? frames fun j e s' place place' => ?_⟩
    have made : (entries.map Entry.subscription)[j]? = some e.subscription := by simp [place]
    refine ⟨?_, ?_⟩
    · obtain ⟨t, there, frame⟩ := forall₂_getElem? frames place
      rwa [Option.some.inj (place'.symm.trans there)]
    · rcases inv.each j _ s' made place' with ⟨none_, kept⟩ | ⟨olds, os, last, removed⟩
      · refine fun ob => iff_of_false (by simp [kept, Entry.subscription]) ?_
        rintro ⟨b, -, i, e₀, before, is, -⟩
        obtain ⟨os, there, frame⟩ := forall₂_mem filed.flip (List.mem_of_getElem? before)
        exact none_ os there ((matches_iff frame).mpr is)
      · exact toRemove_of_last apart apart' filed place last removed

end Finalize
section Parses
variable {β ν : Type} {o : Options ν} {c : Configuration β ν} {previous : List (Entry β ν)}
  {file first : List (Subscription β ν)}

def inconsistent (subscriptions : List (Subscription β ν)) : Bool :=
  subscriptions.any fun s => mismatched s.queue

theorem Filed.readBack (filed : Filed previous file) : Filed previous (file.map (readBack o)) :=
  List.forall₂_map_right_iff.mpr
    (filed.imp fun _ _ frame => ⟨frame.broker, frame.name, frame.bindings⟩)

/-- What a parse makes of the subscriptions. -/
def Parsed (previous : List (Entry β ν)) (c : Configuration β ν)
    (subscriptions : List (Subscription β ν)) : Prop :=
  List.Forall₂ (fun e s => Frame e.subscription s ∧ ToRemove previous c.entries e s) c.entries
    subscriptions

theorem Parsed.filed (parsed : Parsed previous c first) : Filed c.entries first :=
  parsed.imp fun _ _ both => both.1

variable [DecidableEq β] [DecidableEq ν]

/-- A parse writes the file unless a queue is inconsistent. -/
theorem parse_spec (apart : Apart previous) (filed : Filed previous file) :
    ∃ first, Parsed previous c first ∧
      parse o c file = .ok (first, if inconsistent first then file else first) := by
  obtain ⟨first, done, parsed⟩ := finalize_entries c.apart apart (filed.readBack (o := o))
  refine ⟨first, parsed, ?_⟩
  have some_ : first.isEmpty = false := by
    rw [List.isEmpty_eq_false_iff]
    rintro rfl
    exact c.nonempty (List.forall₂_nil_right_iff.mp parsed)
  have left : (if first.isEmpty || inconsistent first then file else first) =
      if inconsistent first then file else first := by rw [some_, Bool.false_or]
  rw [parse, Configuration.subscriptions, done, ← left]
  rfl

/-- Once the file holds the configuration, a parse finds nothing to remove. -/
theorem parses_again (n : Nat) (filed : Filed c.entries file) :
    ∃ subscriptions file', parses o c (n + 1) file = .ok (subscriptions, file') ∧
      Filed c.entries subscriptions ∧ Filed c.entries file' ∧
        ∀ s ∈ subscriptions, s.bindings_to_remove = [] := by
  induction n generalizing file with
  | zero =>
    obtain ⟨first, parsed, done⟩ := parse_spec (o := o) c.apart filed
    refine ⟨first, _, done, parsed.filed, ?_, fun s there => ?_⟩
    · split
      · exact filed
      · exact parsed.filed
    · obtain ⟨e, member, -, removes⟩ := forall₂_mem parsed there
      rw [List.eq_nil_iff_forall_not_mem]
      intro ob inside
      obtain ⟨b, -, i, e₀, place, is, old, gone, -⟩ := (removes ob).mp inside
      rw [Apart.unique c.apart (List.mem_of_getElem? place) member is] at old
      exact gone old
  | succ n ih =>
    obtain ⟨first, parsed, done⟩ := parse_spec (o := o) c.apart filed
    have filed' : Filed c.entries (if inconsistent first then file else first) := by
      split
      · exact filed
      · exact parsed.filed
    obtain ⟨subscriptions, file', again, rest⟩ := ih filed'
    exact ⟨subscriptions, file', by rw [parses, done]; exact again, rest⟩

/-- A parse that writes nothing is the same each time. -/
theorem parses_inconsistent (n : Nat) (done : parse o c file = .ok (first, file)) :
    parses o c (n + 1) file = .ok (first, file) := by
  induction n with
  | zero => exact done
  | succ n ih =>
    rw [parses, done]
    exact ih

theorem parses_consistent (n : Nat) (parsed : Parsed previous c first)
    (done : parse o c file = .ok (first, first)) :
    ∃ subscriptions file', parses o c (n + 2) file = .ok (subscriptions, file') ∧
      Filed c.entries subscriptions ∧ Filed c.entries file' ∧
        ∀ s ∈ subscriptions, s.bindings_to_remove = [] := by
  obtain ⟨subscriptions, file', again, rest⟩ := parses_again (o := o) n parsed.filed
  exact ⟨subscriptions, file', by rw [parses, done]; exact again, rest⟩

end Parses

section GetSetup
variable {β ν : Type} {truthy : ν → Bool}

theorem mem_ask {request : ν → ν → Request ν} {exchange topic : ν} {r : Request ν} :
    r ∈ ask truthy request (some exchange) topic ↔
      truthy exchange = true ∧ r = request exchange topic := by
  cases holds : truthy exchange <;> simp [ask, Option.filter, holds]

theorem mem_bindEach {bs : List (ν × ν)} (exchange : Option (Option ν)) (r : Request ν) :
    (r ∈ (bindEach truthy exchange (bs.map fun b => binding b.1 b.2)).1 ↔
      ∃ b ∈ bs, truthy b.1 = true ∧ r = .queue_bind b.1 b.2) ∧
    (bindEach truthy exchange (bs.map fun b => binding b.1 b.2)).2.isSome = true := by
  induction bs generalizing exchange with
  | nil => simp [bindEach]
  | cons b bs ih =>
    obtain ⟨members, ends⟩ := ih (some (some b.1))
    simp only [List.map_cons, bindEach, binding_get, List.mem_append, mem_ask, members,
      List.exists_mem_cons_iff, ends, and_self]

theorem mem_unbindEach {obs : List (Binding ν)}
    (made : ∀ ob ∈ obs, ∃ b : ν × ν, ob = binding b.1 b.2) (exchange : Option (Option ν))
    (r : Request ν) :
    (r ∈ (unbindEach truthy exchange obs).1 ↔
      ∃ b : ν × ν, binding b.1 b.2 ∈ obs ∧ truthy b.1 = true ∧ r = .queue_unbind b.1 b.2) ∧
    (unbindEach truthy exchange obs).2 = true := by
  induction obs generalizing exchange with
  | nil => simp [unbindEach]
  | cons ob obs ih =>
    obtain ⟨b, rfl⟩ := made ob List.mem_cons_self
    obtain ⟨members, ends⟩ :=
      ih (fun ob there => made ob (List.mem_cons_of_mem _ there)) (some (some b.1))
    simp only [unbindEach, binding_get, Option.isSome_some, if_true, ends, List.mem_append, mem_ask,
      members, List.mem_cons, or_and_right, exists_or, binding_inj, and_true]
    simp

/-- The queue is set up and bound. -/
structure Ready (truthy : ν → Bool) (s : Subscription β ν) : Prop where
  consistent : mismatched s.queue = false
  bind : ∃ bind, s.queue.fields.get "bind" = some bind ∧ truthy bind = true
  name : truthy s.queue.name = true

theorem getSetup_of_not_ready {s : Subscription β ν} {dry_run : Bool} (not : ¬ Ready truthy s) :
    (getSetup truthy dry_run s).1 = [] := by
  unfold getSetup
  split
  · rfl
  · next consistent =>
    split
    · rfl
    · next bind there =>
      split
      · next both =>
        rw [Bool.and_eq_true] at both
        exact absurd ⟨by simpa using consistent, ⟨bind, there, both.1⟩, both.2⟩ not
      · rfl

theorem mem_getSetup {e : Entry β ν} {s : Subscription β ν} {r : Request ν}
    (frame : Frame e.subscription s)
    (made : ∀ ob ∈ s.bindings_to_remove, ∃ b : ν × ν, ob = binding b.1 b.2)
    (ready : Ready truthy s) :
    r ∈ (getSetup truthy false s).1 ↔
      (∃ b ∈ e.bindings, truthy b.1 = true ∧ r = .queue_bind b.1 b.2) ∨
        ∃ b : ν × ν, binding b.1 b.2 ∈ s.bindings_to_remove ∧ truthy b.1 = true ∧
          r = .queue_unbind b.1 b.2 := by
  obtain ⟨consistent, ⟨bind, there, bound⟩, name⟩ := ready
  have ⟨binds, ends⟩ : _ ∧ (bindEach truthy none (e.bindings.map _)).2.isSome = true :=
    mem_bindEach none r
  obtain ⟨exchange, last⟩ := Option.isSome_iff_exists.mp ends
  have unbinds : r ∈ (unbindEach truthy exchange s.bindings_to_remove).1 ↔ _ :=
    (mem_unbindEach made exchange r).1
  have bindings : s.bindings = e.bindings.map fun b => binding b.1 b.2 := frame.bindings
  rw [← bindings] at binds last
  obtain ⟨asked, both⟩ : ∃ asked, bindEach truthy none s.bindings = (asked, some exchange) :=
    ⟨_, Prod.ext rfl last⟩
  rw [both] at binds
  rw [← binds, ← unbinds, getSetup, consistent, there]
  simp only [both, bound, name, Bool.and_self, Bool.false_eq_true, if_false, if_true]
  exact List.mem_append

end GetSetup

/-! ## Queues for the examples -/

section Example

def isSet (text : String) : Bool := text ≠ ""

def defaults : Options String := ⟨"normal", "True", fun _ _ _ topic => .ok topic⟩

def queueWith (name durable topic : String) : Entry Nat String where
  broker := 0
  name := name
  bindings := [("xpublic", topic)]
  queue := (Table.empty.set "durable" durable).set "bind" "True"
  fields := Table.empty

def operation (parses : Nat) (topic : String) : Operation Nat String where
  configuration := ⟨[queueWith "q_one" "True" topic], List.cons_ne_nil _ _, by simp⟩
  parses := parses
  dry_run := false
  attempts := [(0, 1), (0, 9)]

end Example

section Instances
variable {β ν : Type} {truthy : ν → Bool} {o : Options ν} {c : Configuration β ν}
  {previous : List (Entry β ν)} {file : List (Subscription β ν)}

/-- Whether something is to be unbound, for some subscription. -/
def AsksToUnbind (truthy : ν → Bool) (subscriptions : List (Subscription β ν)) : Prop :=
  ∃ s ∈ subscriptions, ∃ exchange topic,
    Request.queue_unbind exchange topic ∈ (getSetup truthy false s).1

theorem not_asksToUnbind {subscriptions : List (Subscription β ν)}
    (filed : Filed c.entries subscriptions)
    (clean : ∀ s ∈ subscriptions, s.bindings_to_remove = []) :
    ¬ AsksToUnbind truthy subscriptions := by
  rintro ⟨s, there, exchange, topic, asked⟩
  by_cases ready : Ready truthy s
  · obtain ⟨e, -, frame⟩ := filed.mem there
    rw [mem_getSetup frame (by simp [clean s there]) ready] at asked
    simp [clean s there] at asked
  · simp [getSetup_of_not_ready ready] at asked

variable [DecidableEq β] [DecidableEq ν]

end Instances
section Carried
variable {β ν : Type} {truthy : ν → Bool} {subscriptions : List (Subscription β ν)} {x : Bound β ν}

/-- The requests that the broker carries out, each for the queue of its subscription. -/
def carried (truthy : ν → Bool) (dry_run : Bool) (subscriptions : List (Subscription β ν))
    (a : Nat × Nat) : List (Subscription β ν × Request ν) :=
  subscriptions[a.1]?.toList.flatMap fun s =>
    ((getSetup truthy dry_run s).1.take a.2).map fun r => (s, r)

theorem mem_requests {subscriptions : List (Subscription β ν)} {attempts : List (Nat × Nat)}
    (all : ∀ j s, subscriptions[j]? = some s →
      ∃ a ∈ attempts, a.1 = j ∧ (getSetup truthy false s).1.length ≤ a.2)
    (p : Subscription β ν × Request ν) :
    p ∈ attempts.flatMap (carried truthy false subscriptions) ↔
      p.1 ∈ subscriptions ∧ p.2 ∈ (getSetup truthy false p.1).1 := by
  simp only [carried, List.mem_flatMap, Option.mem_toList, List.mem_map]
  constructor
  · rintro ⟨a, -, s, place, r, taken, rfl⟩
    exact ⟨List.mem_of_getElem? place, List.mem_of_mem_take taken⟩
  · rintro ⟨there, asked⟩
    obtain ⟨j, place⟩ := List.getElem?_of_mem there
    obtain ⟨a, member, rfl, enough⟩ := all j p.1 place
    exact ⟨a, member, p.1, place, p.2, by rwa [List.take_of_length_le enough], rfl⟩

variable [DecidableEq β] [DecidableEq ν]

theorem attempts_eq (dry_run : Bool) (attempts : List (Nat × Nat)) (there : List (Bound β ν)) :
    attempts.foldl (attempt truthy dry_run subscriptions) there =
      (attempts.flatMap (carried truthy dry_run subscriptions)).foldl
        (fun there p => carryOut p.1 there p.2) there := by
  rw [List.foldl_flatMap]
  congr
  funext there a
  cases place : subscriptions[a.1]? <;>
    simp [attempt, carried, place, -List.map_take, List.foldl_map]

def BindsTo (x : Bound β ν) (p : Subscription β ν × Request ν) : Prop :=
  ∃ exchange topic, p.2 = .queue_bind exchange topic ∧ x = bound p.1 exchange topic

def UnbindsFrom (x : Bound β ν) (p : Subscription β ν × Request ν) : Prop :=
  ∃ exchange topic, p.2 = .queue_unbind exchange topic ∧ x = bound p.1 exchange topic

theorem mem_carryOut (p : Subscription β ν × Request ν) (there : List (Bound β ν)) :
    x ∈ carryOut p.1 there p.2 ↔ BindsTo x p ∨ x ∈ there ∧ ¬ UnbindsFrom x p := by
  obtain ⟨s, r⟩ := p
  cases r with
  | queue_bind exchange topic => simp [carryOut, BindsTo, UnbindsFrom]
  | queue_unbind exchange topic => simp [carryOut, BindsTo, UnbindsFrom]

/-- Where nothing is both bound and unbound the order is no matter. -/
theorem mem_carriedOut {requests : List (Subscription β ν × Request ν)}
    (one : ¬ ((∃ p ∈ requests, BindsTo x p) ∧ ∃ p ∈ requests, UnbindsFrom x p))
    (there : List (Bound β ν)) :
    x ∈ requests.foldl (fun there p => carryOut p.1 there p.2) there ↔
      (∃ p ∈ requests, BindsTo x p) ∨ x ∈ there ∧ ¬ ∃ p ∈ requests, UnbindsFrom x p := by
  induction requests generalizing there with
  | nil => simp
  | cons p requests ih =>
    simp only [List.exists_mem_cons_iff] at one ⊢
    rw [List.foldl_cons, ih (fun both => one ⟨.inr both.1, .inr both.2⟩), mem_carryOut]
    grind

end Carried

section Asked
variable {β ν : Type} (truthy : ν → Bool)

/-- What a configuration asks to be bound. -/
def Configured (entries : List (Entry β ν)) (x : Bound β ν) : Prop :=
  ∃ e ∈ entries, e.broker = x.broker ∧ e.name = x.queue ∧ (x.exchange, x.topic) ∈ e.bindings ∧
    truthy x.exchange = true

/-- What the operation unbinds: only one parse finds something to be removed. -/
def Unbinds (previous : List (Entry β ν)) (op : Operation β ν) (x : Bound β ν) : Prop :=
  op.parses = 1 ∧ truthy x.exchange = true ∧ ∃ e ∈ op.configuration.entries,
    e.broker = x.broker ∧ e.name = x.queue ∧
      Removes previous op.configuration.entries e (x.exchange, x.topic)

variable {truthy} {op : Operation β ν} {previous : List (Entry β ν)}

/-- What is asked of the broker for an entry. -/
def Asks (truthy : ν → Bool) (previous : List (Entry β ν)) (op : Operation β ν) (e : Entry β ν)
    (r : Request ν) : Prop :=
  (∃ b ∈ e.bindings, truthy b.1 = true ∧ r = .queue_bind b.1 b.2) ∨
    ∃ b : ν × ν, (op.parses = 1 ∧ Removes previous op.configuration.entries e b) ∧
      truthy b.1 = true ∧ r = .queue_unbind b.1 b.2

theorem asks_bind {e : Entry β ν} {exchange topic : ν} :
    Asks truthy previous op e (.queue_bind exchange topic) ↔
      (exchange, topic) ∈ e.bindings ∧ truthy exchange = true := by
  simp only [Asks, Request.queue_bind.injEq, reduceCtorEq, and_false, exists_false, or_false]
  constructor
  · rintro ⟨b, inside, holds, rfl, rfl⟩
    exact ⟨inside, holds⟩
  · rintro ⟨inside, holds⟩
    exact ⟨_, inside, holds, rfl, rfl⟩

theorem asks_unbind {e : Entry β ν} {exchange topic : ν} :
    Asks truthy previous op e (.queue_unbind exchange topic) ↔
      (op.parses = 1 ∧ Removes previous op.configuration.entries e (exchange, topic)) ∧
        truthy exchange = true := by
  simp only [Asks, Request.queue_unbind.injEq, reduceCtorEq, and_false, exists_false, false_or]
  constructor
  · rintro ⟨b, removes, holds, rfl, rfl⟩
    exact ⟨removes, holds⟩
  · rintro ⟨removes, holds⟩
    exact ⟨_, removes, holds, rfl, rfl⟩

theorem eq_bound {e : Entry β ν} {s : Subscription β ν} {x : Bound β ν}
    (frame : Frame e.subscription s) (broker : e.broker = x.broker) (name : e.name = x.queue) :
    x = bound s x.exchange x.topic := by
  rw [bound, frame.broker, frame.name]
  cases x
  subst broker name
  rfl

variable {subscriptions : List (Subscription β ν)} {requests : List (Subscription β ν × Request ν)}
  (asks : List.Forall₂ (fun e s => Frame e.subscription s ∧
    ∀ r, r ∈ (getSetup truthy false s).1 ↔ Asks truthy previous op e r) op.configuration.entries
      subscriptions)
  (members : ∀ p, p ∈ requests ↔ p.1 ∈ subscriptions ∧ p.2 ∈ (getSetup truthy false p.1).1)
include asks members

theorem exists_bindsTo_iff (x : Bound β ν) :
    (∃ p ∈ requests, BindsTo x p) ↔ Configured truthy op.configuration.entries x := by
  constructor
  · rintro ⟨⟨s, r⟩, member, exchange, topic, rfl, rfl⟩
    obtain ⟨there, asked⟩ := (members _).mp member
    obtain ⟨e, inside, frame, is⟩ := forall₂_mem asks there
    obtain ⟨bound, holds⟩ := asks_bind.mp ((is _).mp asked)
    exact ⟨e, inside, frame.broker.symm, frame.name.symm, bound, holds⟩
  · rintro ⟨e, inside, broker, name, bound, holds⟩
    obtain ⟨s, there, frame, is⟩ := forall₂_mem asks.flip inside
    exact ⟨⟨s, .queue_bind x.exchange x.topic⟩,
      (members _).mpr ⟨there, (is _).mpr (asks_bind.mpr ⟨bound, holds⟩)⟩, _, _, rfl,
      eq_bound frame broker name⟩

theorem exists_unbindsFrom_iff (x : Bound β ν) :
    (∃ p ∈ requests, UnbindsFrom x p) ↔ Unbinds truthy previous op x := by
  constructor
  · rintro ⟨⟨s, r⟩, member, exchange, topic, rfl, rfl⟩
    obtain ⟨there, asked⟩ := (members _).mp member
    obtain ⟨e, inside, frame, is⟩ := forall₂_mem asks there
    obtain ⟨⟨once, removes⟩, holds⟩ := asks_unbind.mp ((is _).mp asked)
    exact ⟨once, holds, e, inside, frame.broker.symm, frame.name.symm, removes⟩
  · rintro ⟨once, holds, e, inside, broker, name, removes⟩
    obtain ⟨s, there, frame, is⟩ := forall₂_mem asks.flip inside
    exact ⟨⟨s, .queue_unbind x.exchange x.topic⟩,
      (members _).mpr ⟨there, (is _).mpr (asks_unbind.mpr ⟨⟨once, removes⟩, holds⟩)⟩, _, _, rfl,
      eq_bound frame broker name⟩

end Asked

section Operations
variable {β ν : Type} [DecidableEq β] [DecidableEq ν] (truthy : ν → Bool) (o : Options ν)

/-- Each queue is set up in some attempt, to the last request. -/
structure Completes (st : State β ν) (op : Operation β ν) : Prop where
  some_ : 0 < op.parses
  real : op.dry_run = false
  ready : ∀ subscriptions file',
    parses o op.configuration op.parses st.file = .ok (subscriptions, file') →
      ∀ s ∈ subscriptions, Ready truthy s
  attempts : ∀ subscriptions file',
    parses o op.configuration op.parses st.file = .ok (subscriptions, file') →
      ∀ j s, subscriptions[j]? = some s →
        ∃ a ∈ op.attempts, a.1 = j ∧ (getSetup truthy false s).1.length ≤ a.2

variable {truthy o} {st : State β ν} {op : Operation β ν} {previous : List (Entry β ν)}

/-- The subscriptions of the last parse, and the file they leave. -/
theorem completes_spec (apart : Apart previous) (filed : Filed previous st.file)
    (completes : Completes truthy o st op) :
    ∃ subscriptions file',
      parses o op.configuration op.parses st.file = .ok (subscriptions, file') ∧
      Filed op.configuration.entries file' ∧
      List.Forall₂ (fun e s => Frame e.subscription s ∧ ∀ ob, ob ∈ s.bindings_to_remove ↔
        ∃ b, ob = binding b.1 b.2 ∧ op.parses = 1 ∧ Removes previous op.configuration.entries e b)
        op.configuration.entries subscriptions := by
  obtain ⟨first, parsed, done⟩ := parse_spec (o := o) (c := op.configuration) apart filed
  obtain ⟨n, count⟩ := Nat.exists_eq_succ_of_ne_zero completes.some_.ne'
  have ready := completes.ready
  rw [count] at ready ⊢
  cases bad : inconsistent first with
  | true =>
    rw [bad, if_pos rfl] at done
    obtain ⟨s, there, mismatch⟩ := List.any_eq_true.mp bad
    have consistent := (ready _ _ (parses_inconsistent n done) s there).consistent
    exact absurd mismatch (by simp [consistent])
  | false =>
    rw [bad, if_neg Bool.false_ne_true] at done
    cases n with
    | zero =>
      refine ⟨first, first, done, parsed.filed, parsed.imp fun e s both => ⟨both.1, fun ob => ?_⟩⟩
      simpa using both.2 ob
    | succ n =>
      obtain ⟨subscriptions, file', again, filed', left, clean⟩ := parses_consistent n parsed done
      have both := (List.forall₂_and_left _ _).mpr ⟨clean, filed'.flip⟩
      refine ⟨subscriptions, file', again, left, both.flip.imp fun e s both => ⟨both.2, ?_⟩⟩
      simp [both.1]

/-- What an operation that completes does to the broker. -/
theorem mem_run (apart : Apart previous) (filed : Filed previous st.file)
    (completes : Completes truthy o st op) (x : Bound β ν) :
    x ∈ (st.run truthy o op).there ↔
      Configured truthy op.configuration.entries x ∨
        x ∈ st.there ∧ ¬ Unbinds truthy previous op x := by
  obtain ⟨subscriptions, file', done, -, spec⟩ := completes_spec apart filed completes
  have asks : List.Forall₂ (fun e s => Frame e.subscription s ∧
      ∀ r, r ∈ (getSetup truthy false s).1 ↔ Asks truthy previous op e r) op.configuration.entries
        subscriptions := by
    have both := (List.forall₂_and_left _ _).mpr ⟨completes.ready _ _ done, spec.flip⟩
    refine both.flip.imp fun e s ⟨ready, frame, removes⟩ => ⟨frame, fun r => ?_⟩
    rw [mem_getSetup frame (fun ob inside => ((removes ob).mp inside).imp fun _ is => is.1) ready]
    simp only [removes, binding_inj, exists_eq_left', Asks]
  have members := mem_requests (completes.attempts _ _ done)
  have binds := exists_bindsTo_iff asks members x
  have unbinds := exists_unbindsFrom_iff asks members x
  have one : ¬ (Configured truthy op.configuration.entries x ∧ Unbinds truthy previous op x) := by
    rintro ⟨⟨e, there, broker, name, inside, -⟩, -, -, e', there', broker', name', removes⟩
    obtain ⟨-, -, -, -, -, gone, -⟩ := removes
    have same : SameQueue e e' := ⟨broker.trans broker'.symm, name.trans name'.symm⟩
    rw [Apart.unique op.configuration.apart there there' same] at inside
    exact gone inside
  rw [← binds, ← unbinds] at one ⊢
  rw [State.run, done]
  simp only [completes.real]
  rw [attempts_eq, mem_carriedOut one]

theorem filed_run (apart : Apart previous) (filed : Filed previous st.file)
    (completes : Completes truthy o st op) :
    Filed op.configuration.entries (st.run truthy o op).file := by
  obtain ⟨subscriptions, file', done, filed', -⟩ := completes_spec apart filed completes
  rwa [State.run, done]

end Operations

section Stays
variable {β ν : Type} {truthy : ν → Bool} {ops : List (Operation β ν)} {op : Operation β ν}
  {x : Bound β ν}

/-- The entries of the last configuration. -/
def lastEntries (previous : List (Entry β ν)) (ops : List (Operation β ν)) : List (Entry β ν) :=
  ops.foldl (fun _ op => op.configuration.entries) previous

/-- No operation unbinds it. -/
def Stays (truthy : ν → Bool) (x : Bound β ν) (previous : List (Entry β ν)) :
    List (Operation β ν) → Prop
  | [] => True
  | op :: ops => ¬ Unbinds truthy previous op x ∧ Stays truthy x op.configuration.entries ops

theorem lastEntries_append (previous : List (Entry β ν)) :
    lastEntries previous (ops ++ [op]) = op.configuration.entries := by simp [lastEntries]

/-- Where an operation stands in a run that goes on with another one. -/
theorem append_parts {op' : Operation β ν} {before later : List (Operation β ν)} :
    ops ++ [op] = before ++ op' :: later ↔ (later = [] ∧ ops = before ∧ op = op') ∨
      ∃ later', later = later' ++ [op] ∧ ops = before ++ op' :: later' := by
  constructor
  · intro parts
    induction later using List.reverseRecOn with
    | nil => exact .inl ⟨rfl, by simpa using parts⟩
    | append_singleton later last =>
      have parts : ops ++ [op] = (before ++ op' :: later) ++ [last] := by simpa using parts
      obtain ⟨same, rfl⟩ : ops = before ++ op' :: later ∧ op = last := by
        simpa using List.append_inj' parts rfl
      exact .inr ⟨later, rfl, same⟩
  · rintro (⟨rfl, rfl, rfl⟩ | ⟨later, rfl, rfl⟩) <;> simp

theorem stays_append (previous : List (Entry β ν)) :
    Stays truthy x previous (ops ++ [op]) ↔
      Stays truthy x previous ops ∧ ¬ Unbinds truthy (lastEntries previous ops) op x := by
  induction ops generalizing previous with
  | nil => simp [Stays, lastEntries]
  | cons op ops ih => simp [Stays, ih, lastEntries, and_assoc]

end Stays

section Runs
variable {β ν : Type} [DecidableEq β] [DecidableEq ν] (truthy : ν → Bool) (o : Options ν)

def after (ops : List (Operation β ν)) : State β ν := ops.foldl (State.run truthy o) ⟨[], []⟩

def Completed (ops : List (Operation β ν)) : Prop :=
  ∀ before op later, ops = before ++ op :: later → Completes truthy o (after truthy o before) op

variable {truthy o} {ops : List (Operation β ν)} {op : Operation β ν} {x : Bound β ν}

theorem completed_append : Completed truthy o (ops ++ [op]) ↔
    Completed truthy o ops ∧ Completes truthy o (after truthy o ops) op := by
  constructor
  · intro completed
    exact ⟨fun before op' later parts => completed before op' (later ++ [op]) (by simp [parts]),
      completed ops op [] rfl⟩
  · rintro ⟨completed, completes⟩ before op' later parts
    rcases append_parts.mp parts with ⟨-, rfl, rfl⟩ | ⟨later, -, parts⟩
    · exact completes
    · exact completed before op' later parts

theorem after_append : after truthy o (ops ++ [op]) = (after truthy o ops).run truthy o op := by
  simp [after]

/-- The file holds the last configuration. -/
theorem filed_after (completed : Completed truthy o ops) :
    Apart (lastEntries [] ops) ∧ Filed (lastEntries [] ops) (after truthy o ops).file := by
  induction ops using List.reverseRecOn with
  | nil => exact ⟨.nil, .nil⟩
  | append_singleton ops op ih =>
    obtain ⟨before, completes⟩ := completed_append.mp completed
    obtain ⟨apart, filed⟩ := ih before
    rw [after_append, lastEntries_append]
    exact ⟨op.configuration.apart, filed_run apart filed completes⟩

theorem mem_after_append (completed : Completed truthy o (ops ++ [op])) :
    x ∈ (after truthy o (ops ++ [op])).there ↔
      Configured truthy op.configuration.entries x ∨
        x ∈ (after truthy o ops).there ∧ ¬ Unbinds truthy (lastEntries [] ops) op x := by
  obtain ⟨before, completes⟩ := completed_append.mp completed
  obtain ⟨apart, filed⟩ := filed_after before
  rw [after_append, mem_run apart filed completes]

/-! ### Runs of the one queue -/

theorem completes_of_one {st : State Nat String} {op : Operation Nat String}
    {s : Subscription Nat String} {file' : List (Subscription Nat String)}
    (done : parses defaults op.configuration op.parses st.file = .ok ([s], file'))
    (some_ : 0 < op.parses) (real : op.dry_run = false) (ready : Ready isSet s)
    (enough : ∃ a ∈ op.attempts, a.1 = 0 ∧ (getSetup isSet false s).1.length ≤ a.2) :
    Completes isSet defaults st op := by
  refine ⟨some_, real, fun subscriptions file'' is => ?_, fun subscriptions file'' is => ?_⟩ <;>
    obtain ⟨rfl, -⟩ := Prod.mk.inj (Except.ok.inj (done.symm.trans is))
  · simpa using ready
  · intro j t place
    cases j with
    | zero =>
      obtain rfl := Option.some.inj place
      exact enough
    | succ j => cases place

theorem completed_nil : Completed isSet defaults ([] : List (Operation Nat String)) :=
  fun before _ _ parts => by simp at parts

theorem Completed.append {ops : List (Operation Nat String)} {op : Operation Nat String}
    (completed : Completed isSet defaults ops)
    (completes : Completes isSet defaults (after isSet defaults ops) op) :
    Completed isSet defaults (ops ++ [op]) := completed_append.mpr ⟨completed, completes⟩

def started : List (Operation Nat String) := [operation 2 "v03.a", operation 2 "v03.b"]

theorem started_completed : Completed isSet defaults started :=
  (completed_nil.append
    (completes_of_one rfl (by decide) rfl ⟨rfl, ⟨"True", rfl, rfl⟩, rfl⟩ (by decide))).append
    (completes_of_one rfl (by decide) rfl ⟨rfl, ⟨"True", rfl, rfl⟩, rfl⟩ (by decide))

theorem declared_completed : Completed isSet defaults (started ++ [operation 1 "v03.c"]) :=
  started_completed.append
    (completes_of_one rfl (by decide) rfl ⟨rfl, ⟨"True", rfl, rfl⟩, rfl⟩ (by decide))

end Runs
end Sarracenia.Guarantees.Bindings
