import Sarracenia.Guarantees.Message
import Sarracenia.Source.Post
import Mathlib.Data.List.Nodup

/-!
# Published, or failed

A message has to go to the publishers that are due: the one it names, or all of them, or
those that its earlier posts failed at. One that names a publisher whose poster could not be
created is put on `worklist.ok` without having been published.

* the calls and the failures of the loop over the posters (`postersLoop_spec`);
* one message: what a postable one gets (`attempt_right`), and why no other does
  (`postable_of_right`);
* a whole life of a message, posted again until no publisher is left (`life_delivered`);
* `post` publishes a batch, or records the failures, exactly when its messages are postable
  (`post_publishes_iff`).
-/
namespace Sarracenia.Guarantees.Post
open Library Library.Text Library.Dynamic Source Source.Retry Source.Post
open Guarantees.Message

section Due
variable (posters : List Bool) (msg : Message)

def dueAt (x : Bool × Nat) : Bool :=
  match isDue x.2 msg with
  | .ok due => due
  | .error _ => false

/-- The publishers a message has to go to. -/
def due : List Nat :=
  match msg.get "publisher_index" with
  | some publisher =>
    match index posters.zipIdx publisher with
    | .ok (_, i) => [i]
    | .error _ => []
  | none => (posters.zipIdx.filter (dueAt msg)).map (·.2)

def publishedBy (calls : List Call) (i : Nat) : Bool := decide (⟨i, .published⟩ ∈ calls)

/-- A publisher in `post_failures`: by the name the message gave it, or by its place. -/
def entryFor (i : Nat) : Value := (msg.get "publisher_index").getD (.int i)

/-- What posting one message comes to: each publisher that is due is tried once and no
other is, and the message is done if all of them took it, and otherwise keeps the list of
those that did not. -/
structure Right (calls : List Call) (placed : Bool) (after : Message) : Prop where
  only : ∀ c ∈ calls, c.poster ∈ due posters msg ∧ posters[c.poster]? = some true
  once : (calls.map (·.poster)).Nodup
  all : ∀ i ∈ due posters msg, posters[i]? = some true → i ∈ calls.map (·.poster)
  ok : placed = true ↔ ∀ i ∈ due posters msg, publishedBy calls i
  cleared : placed = true → after.get "post_failures" = none
  failures : placed = false → after.get "post_failures" = some (.list
    (((due posters msg).filter (!publishedBy calls ·)).map (entryFor msg)))

/-- `_deleteOnPost` is a set, so that a field can be listed there. -/
def Listable : Prop := ∃ members, msg.get "_deleteOnPost" = some (.set members)

/-- A message that names a publisher names one whose poster was created; one that does not
has failures that can be looked up, all the posters that are missing among them; and the
failures can be recorded. -/
def Postable : Prop :=
  (due posters msg ≠ [] → Listable msg) ∧
    match msg.get "publisher_index" with
    | some publisher => ∃ i, index posters.zipIdx publisher = .ok (true, i)
    | none => ∀ x ∈ posters.zipIdx, ∃ again, isDue x.2 msg = .ok again ∧ (x.1 = false → again)

end Due

section Record

theorem listable_congr {msg msg' : Message}
    (same : msg'.get "_deleteOnPost" = msg.get "_deleteOnPost") : Listable msg' ↔ Listable msg := by
  unfold Listable
  rw [same]

/-- All that posting touches in a message is `posts` and the list of what to delete. -/
structure Same (before after : Message) : Prop where
  fields : ∀ key, key ≠ "posts" → key ≠ "_deleteOnPost" → after.get key = before.get key
  listable : Listable after ↔ Listable before

theorem Same.refl (msg : Message) : Same msg msg := ⟨fun _ _ _ => rfl, Iff.rfl⟩

theorem Same.trans {a b c : Message} (ab : Same a b) (bc : Same b c) : Same a c :=
  ⟨fun key posts listed => (bc.fields key posts listed).trans (ab.fields key posts listed),
    bc.listable.trans ab.listable⟩

theorem Same.isDue {a b : Message} (same : Same a b) (i : Nat) : isDue i b = isDue i a := by
  unfold Source.Post.isDue
  rw [same.fields _ (by decide) (by decide)]

variable (d : Delivery) (msg : Message)

theorem record_get {key : String} (posts : key ≠ "posts") (listed : key ≠ "_deleteOnPost") :
    (d.record msg).get key = msg.get key := by
  unfold Delivery.record
  split
  · rfl
  · dsimp only
    split
    · split
      · next done => rw [deleteOnPost_get listed done, Dict.get_set_ne _ posts]
      · exact Dict.get_set_ne _ posts _
    · exact Dict.get_set_ne _ posts _

theorem record_listable : Listable (d.record msg) ↔ Listable msg := by
  unfold Delivery.record
  split
  · rfl
  · next posts _ =>
    have same : Listable (msg.set "posts" posts) ↔ Listable msg :=
      listable_congr (Dict.get_set_ne _ (by decide) _)
    dsimp only
    split
    · split
      · next done =>
        rw [← same]
        exact iff_of_true (deleteOnPost_marked done) ((deleteOnPost_ok_iff _ _).mp ⟨_, done⟩)
      · exact same
    · exact same

theorem record_same : Same msg (d.record msg) :=
  ⟨fun _ posts listed => record_get d msg posts listed, record_listable d msg⟩

end Record

section Loop
variable {σ : Type} (putNewMessage : Nat → σ → Message → σ × Delivery)

/-- What is still owed after the calls, at one place of the list of posters. -/
def owed (msg : Message) (calls : List Call) (x : Bool × Nat) : Bool :=
  match isDue x.2 msg with
  | .ok true => !x.1 || !publishedBy calls x.2
  | .ok false => !x.1
  | .error _ => true

theorem publishedBy_append (calls calls' : List Call) (i : Nat) :
    publishedBy (calls ++ calls') i = (publishedBy calls i || publishedBy calls' i) := by
  simp [publishedBy]

theorem publishedBy_absent {calls : List Call} {i : Nat} (absent : i ∉ calls.map (·.poster)) :
    publishedBy calls i = false := by
  rw [publishedBy, decide_eq_false_iff_not]
  exact fun mem => absent (List.mem_map_of_mem (f := (·.poster)) mem)

theorem owed_congr {msg msg' : Message} {calls calls' : List Call} {x : Bool × Nat}
    (due : isDue x.2 msg' = isDue x.2 msg)
    (same : publishedBy calls' x.2 = publishedBy calls x.2) :
    owed msg' calls' x = owed msg calls x := by
  unfold owed
  rw [due, same]

theorem owed_missing (msg : Message) (calls : List Call) (i : Nat) :
    owed msg calls (false, i) = true := by
  unfold owed
  split <;> rfl

/-- One turn: a call if the poster is there and due, and a failure if it is still owed. -/
theorem turn_spec (present : Bool) (i : Nat) (p : Posting σ) :
    ∃ made, (p.turn putNewMessage present i).calls = p.calls ++ made ∧
      made.map (·.poster) = (if present && dueAt p.msg (present, i) then [i] else []) ∧
      (p.turn putNewMessage present i).failures = p.failures ++
        (if owed p.msg made (present, i) then [.int i] else []) ∧
      Same p.msg (p.turn putNewMessage present i).msg := by
  unfold Posting.turn
  cases present with
  | false =>
    refine ⟨[], by simp [Posting.fail], by simp, ?_, Same.refl _⟩
    rw [owed_missing, if_neg Bool.false_ne_true, if_pos rfl]
    rfl
  | true =>
    rw [if_pos rfl]
    cases asked : isDue i p.msg with
    | error e =>
      exact ⟨[], by simp [Posting.fail], by simp [dueAt, asked], by simp [owed, asked, Posting.fail],
        Same.refl _⟩
    | ok again =>
      cases again with
      | false =>
        exact ⟨[], by simp, by simp [dueAt, asked], by simp [owed, asked], Same.refl _⟩
      | true =>
        dsimp only
        unfold Posting.call
        rcases putNewMessage i p.brokers p.msg with ⟨brokers, d⟩
        refine ⟨[⟨i, d.answer⟩], rfl, by simp [dueAt, asked], ?_, record_same d p.msg⟩
        by_cases took : d.answer = .published
        · simp [owed, asked, publishedBy, took]
        · have other : Answer.published ≠ d.answer := fun same => took same.symm
          simp [owed, asked, publishedBy, took, other]

/-- The loop over the posters calls each one that is due, and owes what none of them took. -/
theorem postersLoop_spec (posters : List Bool) (i : Nat) (p : Posting σ) :
    ∃ calls, (postersLoop putNewMessage posters i p).calls = p.calls ++ calls ∧
      calls.map (·.poster) =
        ((posters.zipIdx i).filter fun x => x.1 && dueAt p.msg x).map (·.2) ∧
      (postersLoop putNewMessage posters i p).failures = p.failures ++
        ((posters.zipIdx i).filter (owed p.msg calls)).map (fun x => .int x.2) ∧
      Same p.msg (postersLoop putNewMessage posters i p).msg := by
  induction posters generalizing i p with
  | nil => exact ⟨[], by simp [postersLoop], rfl, by simp [postersLoop], Same.refl _⟩
  | cons present posters ih =>
    obtain ⟨made, called, who, failed, same⟩ := turn_spec putNewMessage present i p
    obtain ⟨calls, called', who', failed', same'⟩ :=
      ih (i + 1) (p.turn putNewMessage present i)
    have dueSame : dueAt (p.turn putNewMessage present i).msg = dueAt p.msg := by
      funext x
      unfold dueAt
      rw [same.isDue]
    rw [dueSame] at who'
    have later : ∀ x ∈ posters.zipIdx (i + 1), x.2 ≠ i := by
      intro x mem here
      have bound := List.le_snd_of_mem_zipIdx mem
      omega
    -- the calls of this turn and of the later ones are to different posters
    have madeHere : ∀ j, j ≠ i → publishedBy made j = false := by
      intro j other
      apply publishedBy_absent
      rw [who]
      split <;> simp [other]
    have madeLater : publishedBy calls i = false := by
      apply publishedBy_absent
      rw [who', List.mem_map]
      intro ⟨x, mem, here⟩
      exact later x (List.mem_filter.mp mem).1 here
    refine ⟨made ++ calls, ?_, ?_, ?_, ?_⟩
    · rw [postersLoop, called', called, List.append_assoc]
    · rw [List.map_append, who, who', List.zipIdx_cons, List.filter_cons]
      split <;> rfl
    · have first : owed p.msg (made ++ calls) (present, i) = owed p.msg made (present, i) :=
        owed_congr rfl (by simp [publishedBy_append, madeLater])
      have rest : (posters.zipIdx (i + 1)).filter (owed p.msg (made ++ calls)) =
          (posters.zipIdx (i + 1)).filter (owed (p.turn putNewMessage present i).msg calls) := by
        apply List.filter_congr
        intro x mem
        exact owed_congr (same.isDue x.2).symm
          (by simp [publishedBy_append, madeHere x.2 (later x mem)])
      rw [postersLoop, failed', failed, List.zipIdx_cons, List.filter_cons, first, rest]
      split <;> simp
    · exact same.trans same'

end Loop

section One
variable (posters : List Bool)

theorem index_mem {α : Type} {vs : List α} {v : Value} {a : α} (found : index vs v = .ok a) :
    a ∈ vs := by
  have here (k : Int) (found : (if k < 0 then Except.error Fault.indexError
      else (vs[k.toNat]?).elim (Except.error Fault.indexError) Except.ok) = Except.ok a) :
      a ∈ vs := by
    split at found
    · cases found
    · cases there : vs[k.toNat]? with
      | none => simp [there] at found
      | some b =>
        rw [there] at found
        obtain rfl := Except.ok.inj found
        exact List.mem_of_getElem? there
  cases v with
  | int i => exact here _ found
  | bool b => exact here (if (b.toNat : Int) < 0 then b.toNat + vs.length else b.toNat) found
  | _ => cases found

theorem nodup_zipIdx_map (keep : Bool × Nat → Bool) :
    ((posters.zipIdx.filter keep).map (·.2)).Nodup := by
  have all : (posters.zipIdx.map (·.2)).Nodup := by
    rw [List.zipIdx_map_snd]
    exact List.nodup_range'
  exact all.sublist (List.filter_sublist.map _)

theorem Posting.settle_spec {σ : Type} {p : Posting σ} {after : Message} {placed : Bool}
    (done : p.settle = .ok (after, placed)) :
    (placed = true ∧ p.failures = [] ∧ after.get "post_failures" = none) ∨
      (placed = false ∧ p.failures ≠ [] ∧ Listable p.msg ∧ Listable after ∧
        after.get "post_failures" = some (.list p.failures) ∧
        after.get "publisher_index" = p.msg.get "publisher_index") := by
  unfold Posting.settle at done
  split at done
  · next none =>
    obtain ⟨rfl, rfl⟩ := Prod.mk.inj (Except.ok.inj done)
    exact .inl ⟨rfl, List.isEmpty_iff.mp none, Dict.get_del_self _ _⟩
  · next some =>
    cases recorded : Message.deleteOnPost (p.msg.set "post_failures" (.list p.failures))
        ["post_failures"] with
    | error e => simp [recorded, Except.map] at done
    | ok msg =>
      rw [recorded] at done
      obtain ⟨rfl, rfl⟩ := Prod.mk.inj (Except.ok.inj done)
      refine .inr ⟨rfl, fun none => some (by simp [none]), ?_, deleteOnPost_marked recorded, ?_, ?_⟩
      · exact (listable_congr (Dict.get_set_ne p.msg (by decide) (.list p.failures))).mp
          ((deleteOnPost_ok_iff _ _).mp ⟨_, recorded⟩)
      · rw [deleteOnPost_get (by decide) recorded, Dict.get_set_self]
      · rw [deleteOnPost_get (by decide) recorded, Dict.get_set_ne _ (by decide)]

theorem Posting.settles {σ : Type} {p : Posting σ} (listable : p.failures ≠ [] → Listable p.msg) :
    ∃ after placed, p.settle = .ok (after, placed) := by
  unfold Posting.settle
  cases none : p.failures with
  | nil => exact ⟨_, _, rfl⟩
  | cons v vs =>
    have here : Listable (p.msg.set "post_failures" (.list (v :: vs))) :=
      (listable_congr (Dict.get_set_ne p.msg (by decide) _)).mpr (listable (by simp [none]))
    obtain ⟨msg, done⟩ := (deleteOnPost_ok_iff _ ["post_failures"]).mpr here
    exact ⟨msg, false, by simp [done, Except.map]⟩

/-- What the posters are asked, and what is left owed, for a postable message. -/
theorem postMessage_spec {σ : Type} (putNewMessage : Nat → σ → Message → σ × Delivery)
    (brokers : σ) {msg : Message} (postable : Postable posters msg) :
    ∃ p, postMessage putNewMessage posters brokers msg = .ok p ∧
      (∀ c ∈ p.calls, c.poster ∈ due posters msg ∧ posters[c.poster]? = some true) ∧
      (p.calls.map (·.poster)).Nodup ∧
      (∀ i ∈ due posters msg, posters[i]? = some true → i ∈ p.calls.map (·.poster)) ∧
      p.failures = ((due posters msg).filter (!publishedBy p.calls ·)).map (entryFor msg) ∧
      Same msg p.msg := by
  obtain ⟨-, shape⟩ := postable
  unfold postMessage due entryFor
  cases named : msg.get "publisher_index" with
  | some publisher =>
    simp only [named] at shape ⊢
    obtain ⟨i, found⟩ := shape
    simp only [found, bind, Except.bind, if_true]
    refine ⟨_, rfl, ?_⟩
    unfold Posting.call
    rcases putNewMessage i brokers msg with ⟨brokers, d⟩
    have there := List.mem_zipIdx_iff_getElem?.mp (index_mem found)
    refine ⟨by simp [there], by simp, by simp, ?_, record_same d msg⟩
    by_cases took : d.answer = .published
    · simp [took, publishedBy]
    · have other : Answer.published ≠ d.answer := fun same => took same.symm
      simp only [took, if_false, List.nil_append, publishedBy, List.mem_singleton,
        Call.mk.injEq, true_and, other, decide_false, Bool.not_false, List.filter_cons_of_pos,
        List.filter_nil]
      rfl
  | none =>
    simp only [named] at shape ⊢
    refine ⟨_, rfl, ?_⟩
    obtain ⟨calls, called, who, failed, same⟩ :=
      postersLoop_spec putNewMessage posters 0 ⟨brokers, msg, [], []⟩
    rw [List.nil_append] at called failed
    rw [called, failed]
    have calledTo : ∀ c ∈ calls, ∃ x ∈ posters.zipIdx, x.1 = true ∧ dueAt msg x = true ∧
        x.2 = c.poster := by
      intro c mem
      have here : c.poster ∈ calls.map (·.poster) := List.mem_map_of_mem (f := (·.poster)) mem
      rw [who, List.mem_map] at here
      obtain ⟨x, mem, same⟩ := here
      obtain ⟨mem, keep⟩ := List.mem_filter.mp mem
      rw [Bool.and_eq_true] at keep
      exact ⟨x, mem, keep.1, keep.2, same⟩
    refine ⟨?_, ?_, ?_, ?_, same⟩
    · intro c mem
      obtain ⟨x, here, present, due, same⟩ := calledTo c mem
      refine ⟨List.mem_map.mpr ⟨x, List.mem_filter.mpr ⟨here, due⟩, same⟩, ?_⟩
      rw [← same, ← present]
      exact List.mem_zipIdx_iff_getElem?.mp here
    · rw [who]
      exact nodup_zipIdx_map posters _
    · intro i mem present
      obtain ⟨x, kept, rfl⟩ := List.mem_map.mp mem
      obtain ⟨here, due⟩ := List.mem_filter.mp kept
      have there : x.1 = true := by
        have same := List.mem_zipIdx_iff_getElem?.mp here
        rw [present, Option.some.injEq] at same
        exact same.symm
      rw [who, List.mem_map]
      exact ⟨x, List.mem_filter.mpr ⟨here, by rw [there]; exact due⟩, rfl⟩
    · -- what is owed is what is due and was not taken
      have owedIs : posters.zipIdx.filter (owed msg calls) =
          posters.zipIdx.filter fun x => !publishedBy calls x.2 && dueAt msg x := by
        apply List.filter_congr
        intro x mem
        obtain ⟨again, asked, missing⟩ := shape x mem
        unfold owed dueAt
        rw [asked]
        cases there : x.1 with
        | true => cases again <;> simp
        | false =>
          rw [missing there]
          have absent : publishedBy calls x.2 = false := by
            apply publishedBy_absent
            rw [who, List.mem_map]
            intro ⟨y, here, same⟩
            obtain ⟨here, keep⟩ := List.mem_filter.mp here
            have first := List.mem_zipIdx_iff_getElem?.mp mem
            have second := List.mem_zipIdx_iff_getElem?.mp here
            rw [same, first, Option.some.injEq, there] at second
            simp [← second] at keep
          simp [absent]
      have dueIs : ((posters.zipIdx.filter (dueAt msg)).map (·.2)).filter
            (!publishedBy calls ·) =
          (posters.zipIdx.filter fun x => !publishedBy calls x.2 && dueAt msg x).map (·.2) := by
        rw [List.filter_map, List.filter_filter]
        rfl
      rw [owedIs, dueIs, List.map_map]
      rfl

/-- One posting of a message, whatever the posters answer. -/
def Attempt (msg : Message) (calls : List Call) (placed : Bool) (after : Message) : Prop :=
  ∃ (σ : Type) (putNewMessage : Nat → σ → Message → σ × Delivery) (brokers : σ) (p : Posting σ),
    postMessage putNewMessage posters brokers msg = .ok p ∧ p.calls = calls ∧
      p.settle = .ok (after, placed)

theorem attempt_right {msg after : Message} {calls : List Call} {placed : Bool}
    (postable : Postable posters msg) (attempt : Attempt posters msg calls placed after) :
    Right posters msg calls placed after := by
  obtain ⟨σ, putNewMessage, brokers, p, posted, rfl, settled⟩ := attempt
  obtain ⟨p', posted', only, once, all, failures, -⟩ :=
    postMessage_spec posters putNewMessage brokers postable
  obtain rfl := Except.ok.inj (posted.symm.trans posted')
  have none_iff : p.failures = [] ↔ ∀ i ∈ due posters msg, publishedBy p.calls i = true := by
    rw [failures, List.map_eq_nil_iff, List.filter_eq_nil_iff]
    simp
  refine ⟨only, once, all, ?_, ?_, ?_⟩
  · rw [← none_iff]
    rcases Posting.settle_spec settled with ⟨rfl, none, -⟩ | ⟨rfl, some, -⟩
    · simp [none]
    · simp [some]
  · rintro rfl
    rcases Posting.settle_spec settled with ⟨-, -, cleared⟩ | ⟨other, -⟩
    · exact cleared
    · cases other
  · rintro rfl
    rcases Posting.settle_spec settled with ⟨other, -⟩ | ⟨-, -, -, -, recorded, -⟩
    · cases other
    · rw [recorded, failures]

/-- What may happen to a message between a failed post and the next: anything but a change
of where it has to go. -/
structure Requeued (before after : Message) : Prop where
  publisher : after.get "publisher_index" = before.get "publisher_index"
  failures : after.get "post_failures" = before.get "post_failures"
  listable : Listable before → Listable after

/-- The retry plugin counts the retry, and leaves the rest as it is. -/
theorem set_isRetry_requeued {msg msg' : Message} (done : set_isRetry msg = .ok msg') :
    Requeued msg msg' := by
  have plain (key : String) (other : key ≠ "_isRetry") :
      (countRetry msg).get key = msg.get key := by
    unfold countRetry
    split <;> exact Dict.get_set_ne _ other _
  unfold set_isRetry at done
  dsimp only at done
  split at done
  · obtain rfl := Except.ok.inj done
    refine ⟨?_, ?_, fun _ => ⟨_, Dict.get_set_self _ _ _⟩⟩
    · rw [Dict.get_set_ne _ (by decide), plain _ (by decide)]
    · rw [Dict.get_set_ne _ (by decide), plain _ (by decide)]
  · obtain rfl := Except.ok.inj done
    refine ⟨?_, ?_, fun _ => ⟨_, Dict.get_set_self _ _ _⟩⟩
    · rw [Dict.get_set_ne _ (by decide), plain _ (by decide)]
    · rw [Dict.get_set_ne _ (by decide), plain _ (by decide)]
  · cases done

/-- After a failed post the message is due where it was due and not taken, and nowhere else. -/
theorem due_again {msg after again : Message} {calls : List Call}
    (postable : Postable posters msg) (attempt : Attempt posters msg calls false after)
    (requeued : Requeued after again) :
    due posters again = (due posters msg).filter (!publishedBy calls ·) ∧
      Postable posters again := by
  have right := attempt_right posters postable attempt
  obtain ⟨σ, putNewMessage, brokers, p, posted, rfl, settled⟩ := attempt
  obtain ⟨p', posted', -, -, -, -, same⟩ :=
    postMessage_spec posters putNewMessage brokers postable
  obtain rfl := Except.ok.inj (posted.symm.trans posted')
  obtain ⟨other, -⟩ | ⟨-, -, -, listable, -, publisher⟩ := Posting.settle_spec settled
  · cases other
  have recorded := requeued.failures.trans (right.failures rfl)
  have publisher : again.get "publisher_index" = msg.get "publisher_index" :=
    requeued.publisher.trans (publisher.trans (same.fields _ (by decide) (by decide)))
  have listable := requeued.listable listable
  cases named : msg.get "publisher_index" with
  | some name =>
    rw [named] at publisher
    obtain ⟨-, shape⟩ := postable
    rw [named] at shape
    obtain ⟨i, found⟩ := shape
    have dueMsg : due posters msg = [i] := by simp [due, named, found]
    have dueAgain : due posters again = [i] := by simp [due, publisher, found]
    have owed : publishedBy p.calls i = false := by
      have ok := right.ok
      rw [dueMsg] at ok
      simpa using ok
    refine ⟨by simp [dueAgain, dueMsg, owed], fun _ => listable, ?_⟩
    rw [publisher]
    exact ⟨i, found⟩
  | none =>
    rw [named] at publisher
    have isDueAgain (j : Nat) : isDue j again =
        .ok (decide (j ∈ (due posters msg).filter (!publishedBy p.calls ·))) := by
      have entry : entryFor msg = fun i : Nat => Value.int i := by
        funext i
        simp [entryFor, named]
      unfold isDue
      rw [recorded, entry]
      simp only [inFailures, List.any_map]
      congr 1
      rw [Bool.eq_iff_iff, List.any_eq_true, decide_eq_true_eq]
      constructor
      · intro ⟨i, mem, same⟩
        have same : i = j := by simpa [Value.asNumber] using same
        exact same ▸ mem
      · exact fun mem => ⟨j, mem, by simp [Value.asNumber]⟩
    have dueMsg : due posters msg = (posters.zipIdx.filter (dueAt msg)).map (·.2) := by
      simp [due, named]
    -- a place is owed when it was due and not taken
    have owed_iff : ∀ x ∈ posters.zipIdx, x.2 ∈ (due posters msg).filter (!publishedBy p.calls ·) ↔
        dueAt msg x = true ∧ publishedBy p.calls x.2 = false := by
      intro x mem
      rw [List.mem_filter, dueMsg, List.mem_map, Bool.not_eq_true']
      constructor
      · intro ⟨⟨y, kept, same⟩, untaken⟩
        refine ⟨?_, untaken⟩
        have due := (List.mem_filter.mp kept).2
        unfold dueAt at due ⊢
        rw [← same]
        exact due
      · exact fun ⟨due, untaken⟩ => ⟨⟨x, List.mem_filter.mpr ⟨mem, due⟩, rfl⟩, untaken⟩
    refine ⟨?_, fun _ => listable, ?_⟩
    · have dueAgain : due posters again = (posters.zipIdx.filter (dueAt again)).map (·.2) := by
        simp [due, publisher]
      rw [dueAgain, dueMsg, List.filter_map, List.filter_filter]
      congr 1
      apply List.filter_congr
      intro x mem
      rw [Bool.eq_iff_iff]
      simp only [dueAt, isDueAgain, decide_eq_true_eq, owed_iff x mem, Function.comp_apply,
        Bool.and_eq_true, Bool.not_eq_true']
      exact and_comm
    · rw [publisher]
      obtain ⟨-, shape⟩ := postable
      rw [named] at shape
      intro x mem
      refine ⟨_, isDueAgain x.2, fun missing => ?_⟩
      obtain ⟨due, asked, always⟩ := shape x mem
      rw [decide_eq_true_eq, owed_iff x mem]
      refine ⟨by simp [dueAt, asked, always missing], publishedBy_absent ?_⟩
      intro called
      obtain ⟨c, here, same⟩ := List.mem_map.mp called
      have there := (right.only c here).2
      rw [same, List.mem_zipIdx_iff_getElem?.mp mem, missing] at there
      cases there

end One

section Life
variable (posters : List Bool)

/-- A message that is posted, and posted again after each post that fails: the calls of each
time, how the last one ended, and the message it left. -/
inductive Life (msg : Message) : List (List Call) → Bool → Message → Prop where
  | first {calls : List Call} {placed : Bool} {after : Message} :
      Attempt posters msg calls placed after → Life msg [calls] placed after
  | again {rounds : List (List Call)} {calls : List Call} {placed : Bool}
      {failed requeued after : Message} : Life msg rounds false failed →
      Requeued failed requeued → Attempt posters requeued calls placed after →
      Life msg (rounds ++ [calls]) placed after

/-- Over a whole life only the publishers that were due are tried, none once it has taken the
message, and the message is done when all of them have. -/
structure Delivered (msg : Message) (rounds : List (List Call)) (placed : Bool) : Prop where
  only : ∀ calls ∈ rounds, ∀ c ∈ calls, c.poster ∈ due posters msg
  once : ((rounds.flatten.filter (·.answer = .published)).map (·.poster)).Nodup
  until_ : rounds.Pairwise fun earlier later => ∀ c ∈ later, publishedBy earlier c.poster = false
  done : placed = true ↔ ∀ i ∈ due posters msg, publishedBy rounds.flatten i = true

theorem nodup_published {calls : List Call} (once : (calls.map (·.poster)).Nodup) :
    ((calls.filter (·.answer = .published)).map (·.poster)).Nodup :=
  once.sublist (List.filter_sublist.map _)

/-- The calls of one more round join a life, for what its earlier rounds still owe. -/
theorem life_spec {msg after : Message} {rounds : List (List Call)} {placed : Bool}
    (postable : Postable posters msg) (life : Life posters msg rounds placed after) :
    Delivered posters msg rounds placed ∧ (placed = false → ∀ again, Requeued after again →
      due posters again = (due posters msg).filter (!publishedBy rounds.flatten ·) ∧
        Postable posters again) := by
  induction life with
  | first attempt =>
    have right := attempt_right posters postable attempt
    refine ⟨⟨?_, ?_, List.pairwise_singleton _ _, ?_⟩, ?_⟩
    · simpa using fun c mem => (right.only c mem).1
    · simpa using nodup_published right.once
    · simpa using right.ok
    · rintro rfl again requeued
      simpa using due_again posters postable attempt requeued
  | @again rounds calls placed failed requeued after _ back attempt ih =>
    obtain ⟨delivered, next⟩ := ih
    obtain ⟨dueNow, postableNow⟩ := next rfl requeued back
    have right := attempt_right posters postableNow attempt
    have owed : ∀ c ∈ calls, c.poster ∈ due posters msg ∧
        publishedBy rounds.flatten c.poster = false := by
      intro c mem
      have here := (right.only c mem).1
      rw [dueNow, List.mem_filter, Bool.not_eq_true'] at here
      exact here
    have flat : (rounds ++ [calls]).flatten = rounds.flatten ++ calls := by simp
    refine ⟨⟨?_, ?_, ?_, ?_⟩, ?_⟩
    · intro round mem c here
      rcases List.mem_append.mp mem with mem | mem
      · exact delivered.only round mem c here
      · rw [List.mem_singleton.mp mem] at here
        exact (owed c here).1
    · rw [flat, List.filter_append, List.map_append, List.nodup_append]
      refine ⟨delivered.once, nodup_published right.once, ?_⟩
      intro i earlier j later same
      subst same
      obtain ⟨c, here, rfl⟩ := List.mem_map.mp later
      obtain ⟨d, there, same⟩ := List.mem_map.mp earlier
      obtain ⟨there, took⟩ := List.mem_filter.mp there
      have untaken := (owed c (List.mem_filter.mp here).1).2
      rw [publishedBy, decide_eq_false_iff_not, ← same, ← of_decide_eq_true took] at untaken
      exact untaken there
    · rw [List.pairwise_append]
      refine ⟨delivered.until_, List.pairwise_singleton _ _, ?_⟩
      intro earlier mem later here c call
      rw [List.mem_singleton.mp here] at call
      have untaken := (owed c call).2
      rw [publishedBy, decide_eq_false_iff_not] at untaken ⊢
      exact fun there => untaken (List.mem_flatten.mpr ⟨earlier, mem, there⟩)
    · rw [right.ok, dueNow, flat]
      constructor
      · intro all i mem
        rw [publishedBy_append, Bool.or_eq_true]
        by_cases taken : publishedBy rounds.flatten i = true
        · exact .inl taken
        · exact .inr (all i (List.mem_filter.mpr ⟨mem, by simpa using taken⟩))
      · intro all i mem
        obtain ⟨mem, untaken⟩ := List.mem_filter.mp mem
        have here := all i mem
        rw [publishedBy_append, Bool.or_eq_true] at here
        exact here.resolve_left (by simpa using untaken)
    · rintro rfl again back'
      obtain ⟨dueThen, postableThen⟩ := due_again posters postableNow attempt back'
      refine ⟨?_, postableThen⟩
      rw [dueThen, dueNow, List.filter_filter, flat]
      apply List.filter_congr
      intro i _
      rw [publishedBy_append, Bool.not_or, Bool.and_comm]

end Life

section Batch
variable {τ : Type} (posters : List Bool)

/-- The lists after `post`: each message of the batch is on one of them, once, by what its
own posting came to. -/
structure Settled {σ : Type} (ok failed : List (Object τ)) (out : Posted σ τ) : Prop where
  batch : out.log.map (·.before) = ok
  ok : out.ok = (out.log.filter (·.placed)).map Entry.object
  failed : out.failed = failed ++ (out.log.filter (!·.placed)).map Entry.object

theorem postLoop_settled {σ : Type} {putNewMessage : Nat → σ → Message → σ × Delivery}
    {old_ok : List (Object τ)} {start out : Posted σ τ}
    (done : postLoop putNewMessage posters old_ok start = .ok out) :
    ∃ log : List (Entry τ), out.log = start.log ++ log ∧ log.map (·.before) = old_ok ∧
      out.ok = start.ok ++ (log.filter (·.placed)).map Entry.object ∧
      out.failed = start.failed ++ (log.filter (!·.placed)).map Entry.object ∧
      ∀ e ∈ log, ∃ brokers p, postMessage putNewMessage posters brokers e.before.2 = .ok p ∧
        p.calls = e.calls ∧ p.settle = .ok (e.after, e.placed) := by
  induction old_ok generalizing start with
  | nil =>
    obtain rfl := Except.ok.inj done
    exact ⟨[], by simp⟩
  | cons m old_ok ih =>
    simp only [postLoop, bind_ok_iff] at done
    obtain ⟨p, posted, ⟨after, placed⟩, settled, rest⟩ := done
    obtain ⟨log, logged, batch, ok, failed, each⟩ := ih rest
    refine ⟨⟨m, p.calls, placed, after⟩ :: log, by simp [logged], by simp [batch], ?_, ?_, ?_⟩
    · rw [ok]
      cases placed <;> simp
    · rw [failed]
      cases placed <;> simp
    · intro e mem
      rcases List.mem_cons.mp mem with rfl | mem
      · exact ⟨_, p, posted, rfl, settled⟩
      · exact each e mem

/-- What `post` leaves, from the batch and the failures before it. -/
theorem post_settled {σ : Type} {putNewMessage : Nat → σ → Message → σ × Delivery} {brokers : σ}
    {ok failed : List (Object τ)} {out : Posted σ τ}
    (done : post putNewMessage posters brokers ok failed = .ok out) :
    Settled ok failed out ∧
      ∀ e ∈ out.log, ∃ brokers p,
        postMessage putNewMessage posters brokers e.before.2 = .ok p ∧ p.calls = e.calls ∧
          p.settle = .ok (e.after, e.placed) := by
  obtain ⟨log, logged, batch, ok, failed, each⟩ := postLoop_settled posters done
  rw [List.nil_append] at logged ok
  subst logged
  exact ⟨⟨batch, ok, failed⟩, each⟩

theorem postLoop_ends {σ : Type} (putNewMessage : Nat → σ → Message → σ × Delivery)
    {old_ok : List (Object τ)} (start : Posted σ τ)
    (postable : ∀ m ∈ old_ok, Postable posters m.2) :
    ∃ out, postLoop putNewMessage posters old_ok start = .ok out := by
  induction old_ok generalizing start with
  | nil => exact ⟨start, rfl⟩
  | cons m old_ok ih =>
    have here := postable m List.mem_cons_self
    obtain ⟨p, posted, -, -, -, failures, same⟩ :=
      postMessage_spec posters putNewMessage start.brokers here
    have listable : p.failures ≠ [] → Listable p.msg := by
      intro some
      rw [same.listable]
      apply here.1
      intro none
      rw [failures, none] at some
      exact some rfl
    obtain ⟨after, placed, settled⟩ := Posting.settles listable
    simp only [postLoop, posted, settled, bind, Except.bind]
    exact ih _ fun m mem => postable m (List.mem_cons_of_mem _ mem)

/-- For any answers `post` ends, every message of the batch is published by all that were
due, or failed with the list of those that did not take it; and over its later posts no
publisher is tried once it has taken the message. -/
def Publishes (ok : List (Object τ)) : Prop :=
  (∀ (σ : Type) (putNewMessage : Nat → σ → Message → σ × Delivery) (brokers : σ)
      (failed : List (Object τ)), ∃ out, post putNewMessage posters brokers ok failed = .ok out ∧
        Settled ok failed out ∧
        ∀ e ∈ out.log, Right posters e.before.2 e.calls e.placed e.after) ∧
    ∀ m ∈ ok, ∀ rounds placed after, Life posters m.2 rounds placed after →
      Delivered posters m.2 rounds placed

/-- Posters that refuse every message. -/
def refuseAll (_ : Nat) (_ : Unit) (_ : Message) : Unit × Delivery :=
  ((), ⟨.refused, none, false⟩)

theorem refuseAll_turn (present : Bool) (i : Nat) {p : Posting Unit}
    (refused : ∀ c ∈ p.calls, c.answer = .refused) :
    ∀ c ∈ (p.turn refuseAll present i).calls, c.answer = .refused := by
  unfold Posting.turn
  split
  · split
    · intro c mem
      rcases List.mem_append.mp mem with mem | mem
      · exact refused c mem
      · rw [List.mem_singleton.mp mem]
    · exact refused
    · exact refused
  · exact refused

theorem refuseAll_loop (i : Nat) {p : Posting Unit}
    (refused : ∀ c ∈ p.calls, c.answer = .refused) :
    ∀ c ∈ (postersLoop refuseAll posters i p).calls, c.answer = .refused := by
  induction posters generalizing i p with
  | nil => exact refused
  | cons present posters ih => exact ih (i + 1) (refuseAll_turn present i refused)

/-- A message whose posting is right even when every poster refuses it is postable. -/
theorem postable_of_right {msg : Message} {p : Posting Unit} {after : Message} {placed : Bool}
    (posted : postMessage refuseAll posters () msg = .ok p)
    (settled : p.settle = .ok (after, placed))
    (right : Right posters msg p.calls placed after) : Postable posters msg := by
  have ended := Posting.settle_spec settled
  have untaken (refused : ∀ c ∈ p.calls, c.answer = .refused) (i : Nat) :
      publishedBy p.calls i = false := by
    rw [publishedBy, decide_eq_false_iff_not]
    intro mem
    cases refused _ mem
  -- with a publisher due and none taking it, the failure has to be recorded
  have recorded (refused : ∀ c ∈ p.calls, c.answer = .refused) (some : due posters msg ≠ []) :
      Listable p.msg := by
    obtain ⟨i, mem⟩ := List.exists_mem_of_ne_nil _ some
    rcases ended with ⟨rfl, -⟩ | ⟨-, -, listable, -⟩
    · have took := right.ok.mp rfl i mem
      rw [untaken refused] at took
      cases took
    · exact listable
  unfold postMessage at posted
  cases named : msg.get "publisher_index" with
  | some publisher =>
    simp only [named] at posted
    obtain ⟨⟨present, i⟩, found, posted⟩ := bind_ok_iff.mp posted
    obtain rfl := Except.ok.inj posted
    cases present with
    | true =>
      refine ⟨recorded (by simp [Posting.call, refuseAll]), ?_⟩
      rw [named]
      exact ⟨i, found⟩
    | false =>
      rcases ended with ⟨rfl, -⟩ | ⟨-, some, -⟩
      · have took := right.ok.mp rfl i (by simp [due, named, found])
        cases took
      · exact absurd rfl some
  | none =>
    simp only [named] at posted
    obtain rfl := Except.ok.inj posted
    obtain ⟨calls, called, -, failed, same⟩ :=
      postersLoop_spec refuseAll posters 0 ⟨(), msg, [], []⟩
    rw [List.nil_append] at called failed
    have dueMsg : due posters msg = (posters.zipIdx.filter (dueAt msg)).map (·.2) := by
      simp [due, named]
    refine ⟨fun some => same.listable.mp
      (recorded (refuseAll_loop posters 0 (by simp)) some), ?_⟩
    rw [named]
    intro x mem
    have owed_due (owes : owed msg calls x = true) : isDue x.2 msg = .ok true := by
      have listed : Value.int x.2 ∈
          (postersLoop refuseAll posters 0 ⟨(), msg, [], []⟩).failures := by
        rw [failed]
        exact List.mem_map.mpr ⟨x, List.mem_filter.mpr ⟨mem, owes⟩, rfl⟩
      rcases ended with ⟨-, none, -⟩ | ⟨rfl, -, -, -, failures, -⟩
      · rw [none] at listed
        cases listed
      · have kept := right.failures rfl
        rw [failures, Option.some.injEq, Value.list.injEq] at kept
        rw [kept, List.mem_map] at listed
        obtain ⟨i, here, same⟩ := listed
        have same : i = x.2 := by simpa [entryFor, named] using same
        have here := (List.mem_filter.mp here).1
        rw [dueMsg, List.mem_map] at here
        obtain ⟨y, here, there⟩ := here
        have due := (List.mem_filter.mp here).2
        rw [dueAt, there, same] at due
        split at due
        · next again asked => rw [asked, due]
        · cases due
    cases asked : isDue x.2 msg with
    | error e =>
      have due := owed_due (by simp [owed, asked])
      rw [asked] at due
      cases due
    | ok again =>
      refine ⟨again, rfl, fun missing => ?_⟩
      have due := owed_due (by
        obtain ⟨present, i⟩ := x
        obtain rfl : present = false := missing
        exact owed_missing msg calls i)
      rw [asked] at due
      exact Except.ok.inj due

theorem publishes_postable {ok : List (Object τ)} (publishes : Publishes posters ok) :
    ∀ m ∈ ok, Postable posters m.2 := by
  intro m mem
  obtain ⟨out, done, settled, right⟩ := publishes.1 Unit refuseAll () []
  obtain ⟨-, each⟩ := post_settled posters done
  rw [← settled.batch] at mem
  obtain ⟨e, here, rfl⟩ := List.mem_map.mp mem
  obtain ⟨brokers, p, posted, called, settled⟩ := each e here
  have right := right e here
  rw [← called] at right
  exact postable_of_right posters posted settled right

theorem postable_publishes {ok : List (Object τ)} (postable : ∀ m ∈ ok, Postable posters m.2) :
    Publishes posters ok := by
  refine ⟨?_, fun m mem rounds placed after life =>
    (life_spec posters (postable m mem) life).1⟩
  intro σ putNewMessage brokers failed
  obtain ⟨out, done⟩ := postLoop_ends posters putNewMessage ⟨brokers, [], failed, []⟩ postable
  obtain ⟨settled, each⟩ := post_settled posters done
  refine ⟨out, done, settled, ?_⟩
  intro e mem
  obtain ⟨brokers, p, posted, called, settles⟩ := each e mem
  have here : e.before ∈ ok := by
    rw [← settled.batch]
    exact List.mem_map_of_mem (f := (·.before)) mem
  exact attempt_right posters (postable _ here)
    ⟨σ, putNewMessage, brokers, p, posted, called, settles⟩

theorem post_publishes_iff (ok : List (Object τ)) :
    Publishes posters ok ↔ ∀ m ∈ ok, Postable posters m.2 :=
  ⟨publishes_postable posters, postable_publishes posters⟩

/-- A message for the one publisher of the flow, as `Flow.work` leaves it. -/
def forFirst : Message := [("publisher_index", .int 0), ("_deleteOnPost", .set [])]

/-- A poster that could not be created publishes nothing, and its messages are not failed. -/
theorem missingPoster_not_publishes : ¬ Publishes [false] [((), forFirst)] := by
  intro publishes
  obtain ⟨-, i, found⟩ := publishes_postable [false] publishes ((), forFirst) List.mem_cons_self
  cases found

end Batch
end Sarracenia.Guarantees.Post
