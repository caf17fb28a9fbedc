import Sarracenia.Source.QueueNames

/-!
# The steps of an instance at start-up

What one step can do, and what `_resolveQueueName` and `Subscriptions.add` leave of names.
-/
namespace Sarracenia.Guarantees.QueueNames
open Library.Text Source.QueueNames

section Names
variable {conf : Conf} {varsub : Nat → Str → Str} {qname : Str → Option Str} {no : Nat} {p q : Pair} {s : Parse}
variable {name binding n : Str} {found : Bool} {entries : List Entry} {e : Entry}

theorem lookFor_some (is : lookFor p entries = some n) : ∃ e ∈ entries, e.pair = p ∧ e.name = n := by
  unfold lookFor at is
  obtain ⟨e, there, rfl⟩ := Option.map_eq_some_iff.mp is
  exact ⟨e, List.mem_of_find?_eq_some there, by simpa using List.find?_some there, rfl⟩

theorem ne_nil_of_lookFor (is : lookFor p entries = some n) : entries ≠ [] := by
  rintro rfl
  cases is

/-- A subscription keeps its pair and its name; one more is for the pair and the name that are added. -/
theorem mem_add (member : e ∈ add p name binding found entries) :
    (∃ e' ∈ entries, e'.pair = e.pair ∧ e'.name = e.name) ∨ (e.pair = p ∧ e.name = name) := by
  induction entries generalizing found with
  | nil =>
    unfold add at member
    split at member
    · cases member
    · obtain rfl := List.mem_singleton.mp member
      exact .inr ⟨rfl, rfl⟩
  | cons s entries ih =>
    have later {found : Bool} (member : e ∈ add p name binding found entries) :
        (∃ e' ∈ s :: entries, e'.pair = e.pair ∧ e'.name = e.name) ∨ (e.pair = p ∧ e.name = name) :=
      (ih member).imp_left fun ⟨e', there, same⟩ => ⟨e', List.mem_cons_of_mem _ there, same⟩
    unfold add at member
    split at member
    · cases List.mem_cons.mp member with
      | inl first => exact .inl ⟨s, List.mem_cons_self, by rw [first], by rw [first]⟩
      | inr rest => exact later rest
    · cases List.mem_cons.mp member with
      | inl first => exact .inl ⟨s, List.mem_cons_self, by rw [first], by rw [first]⟩
      | inr rest => exact later rest

/-- The name of the first subscription stays. -/
theorem head_add (p : Pair) (name binding : Str) (entries : List Entry) : ((add p name binding false entries).head?).map (·.name) =
    some ((entries.head?.map (·.name)).getD name) := by
  cases entries with
  | nil => rfl
  | cons s entries =>
    unfold add
    split
    · rfl
    · rfl

theorem add_ne_nil (p : Pair) (name binding : Str) (entries : List Entry) : add p name binding false entries ≠ [] := by
  intro none_
  have head := head_add p name binding entries
  rw [none_] at head
  cases head

/-- What was read decides. -/
theorem resolve_old (is : lookFor p s.old_subscriptions = some n) : _resolveQueueName conf varsub qname no p s = some n := by
  unfold _resolveQueueName
  rw [is]

/-- A name comes from a subscription, from the queue file where there is none, or from the template. -/
theorem resolve_cases (is : _resolveQueueName conf varsub qname no p s = some n) :
    lookFor p s.old_subscriptions = some n ∨ lookFor p s.subscriptions = some n ∨
      (s.subscriptions = [] ∧ s.old_subscriptions = [] ∧ (qname (conf.queue_filename no p)).getD [] = n ∧ n ≠ []) ∨
      expand conf varsub s.calls p = n := by
  unfold _resolveQueueName at is
  split at is
  · next old => exact .inl (old.trans is)
  · split at is
    · next new => exact .inr (.inl (new.trans is))
    · dsimp only at is
      by_cases first : s.subscriptions = [] ∧ s.old_subscriptions = []
      · rw [if_pos first] at is
        split at is
        · next some_ =>
          obtain rfl := Option.some.inj is
          exact .inr (.inr (.inl ⟨first.1, first.2, rfl, some_⟩))
        · split at is
          · cases is
          · exact .inr (.inr (.inr (Option.some.inj is)))
      · rw [if_neg first, if_neg (not_not.mpr rfl), if_neg fun both => first both.1] at is
        exact .inr (.inr (.inr (Option.some.inj is)))

/-- An instance gives up only if it is not the lead, and has nothing to go by. -/
theorem resolve_none (is : _resolveQueueName conf varsub qname no p s = none) :
    s.subscriptions = [] ∧ s.old_subscriptions = [] ∧ 1 < no ∧ (qname (conf.queue_filename no p)).getD [] = [] := by
  unfold _resolveQueueName at is
  split at is
  · cases is
  · split at is
    · cases is
    · dsimp only at is
      by_cases first : s.subscriptions = [] ∧ s.old_subscriptions = []
      · rw [if_pos first] at is
        split at is
        · cases is
        · next none_ =>
          split at is
          · next both => exact ⟨first.1, first.2, both.2, not_not.mp none_⟩
          · cases is
      · rw [if_neg first, if_neg (not_not.mpr rfl), if_neg fun both => first both.1] at is
        cases is

end Names

section Moves
variable (conf : Conf) (draws : Draws) (i : Nat) (σ : State)

/-- What an instance can do. -/
inductive Move : State → Prop where
  | begins (second : Bool) : σ.at_ i = .begun second →
      Move (σ.go i (.parsing second ⟨read σ.file, [], conf.subtopics, 0, []⟩))
  | rereads (second : Bool) (s : Parse) : σ.at_ i = .parsing second s →
      Move (σ.go i (.resolving second { s with old_subscriptions := if s.old_subscriptions = [] then read σ.file else s.old_subscriptions }))
  | subscribes (second : Bool) (s : Parse) (p : Pair) (binding : Str → Str) (subtopics : List (Pair × (Str → Str))) (name : Str) :
      σ.at_ i = .resolving second s → s.subtopics = (p, binding) :: subtopics →
      _resolveQueueName conf (draws i second) σ.qname 0 p s = some name →
      Move (σ.go i (.parsing second { s.subscribe p name (binding name) with subtopics }))
  | finalizes (second : Bool) (s : Parse) (name : Str) : σ.at_ i = .resolving second s → s.subtopics = [] →
      _resolveQueueName conf (draws i second) σ.qname i conf.last s = some name →
      Move (σ.go i (.finalized second (s.close conf name)))
  | exits (second : Bool) (s : Parse) : σ.at_ i = .resolving second s → s.subtopics = [] →
      _resolveQueueName conf (draws i second) σ.qname i conf.last s = none → Move (σ.go i .exited)
  | opens (second : Bool) (s : Parse) : σ.at_ i = .finalized second s → i < 2 → s.subscriptions ≠ [] →
      Move ({ σ with file := .truncated }.go i (.writing second s))
  | skips (second : Bool) (s : Parse) : σ.at_ i = .finalized second s → Move (σ.go i (.parsed second s))
  | writes (second : Bool) (s : Parse) : σ.at_ i = .writing second s →
      Move ({ σ with file := .whole s.subscriptions }.go i (.written second s))
  | records (second : Bool) (s : Parse) : σ.at_ i = .written second s → Move ((σ._writeQueueFile conf i s).go i (.parsed second s))
  | waits (s : Parse) : σ.at_ i = .parsed false s → Move (σ.go i .waiting)
  | passes : (∃ s, σ.at_ i = .parsed false s) ∨ σ.at_ i = .waiting → Move (σ.go i .marking)
  | ends (s : Parse) : σ.at_ i = .parsed true s → Move (σ.go i (.ended s.named))
  | marks : σ.at_ i = .marking → Move ({ σ with pid := σ.pid || i = 1 }.go i (.begun true))

variable {conf draws i σ} {σ' : State}

theorem move_of_step (step_ : step conf draws i σ = some σ') : Move conf draws i σ σ' := by
  unfold step at step_
  cases at_ : σ.at_ i with
  | begun second =>
    rw [at_] at step_
    cases step_
    exact .begins second at_
  | parsing second s =>
    rw [at_] at step_
    cases step_
    exact .rereads second s at_
  | resolving second s =>
    rw [at_] at step_
    dsimp only at step_
    split at step_
    · next p binding subtopics left =>
      split at step_
      · next none_ =>
        have lead := (resolve_none none_).2.2.1
        omega
      · next name is =>
        cases step_
        exact .subscribes second s p binding subtopics name at_ left is
    · next left =>
      split at step_
      · next is =>
        cases step_
        exact .exits second s at_ left is
      · next name is =>
        cases step_
        exact .finalizes second s name at_ left is
  | finalized second s =>
    rw [at_] at step_
    dsimp only at step_
    split at step_
    · next writes =>
      cases step_
      exact .opens second s at_ writes.1 writes.2
    · cases step_
      exact .skips second s at_
  | writing second s =>
    rw [at_] at step_
    cases step_
    exact .writes second s at_
  | written second s =>
    rw [at_] at step_
    cases step_
    exact .records second s at_
  | parsed second s =>
    rw [at_] at step_
    cases step_
    cases second with
    | true => exact .ends s at_
    | false =>
      rw [if_neg Bool.false_ne_true]
      split
      · exact .waits s at_
      · exact .passes (.inl ⟨s, at_⟩)
  | waiting =>
    rw [at_] at step_
    dsimp only at step_
    split at step_
    · cases step_
      exact .passes (.inr at_)
    · cases step_
  | marking =>
    rw [at_] at step_
    cases step_
    exact .marks at_
  | ended named =>
    rw [at_] at step_
    cases step_
  | exited =>
    rw [at_] at step_
    cases step_

@[simp] theorem go_self (σ : State) (i : Nat) (place : At) : (σ.go i place).at_ i = place := if_pos rfl

@[simp] theorem go_other (σ : State) {i j : Nat} (other : j ≠ i) (place : At) : (σ.go i place).at_ j = σ.at_ j := if_neg other

@[simp] theorem go_file (σ : State) (i : Nat) (place : At) : (σ.go i place).file = σ.file := rfl

@[simp] theorem go_qname (σ : State) (i : Nat) (place : At) : (σ.go i place).qname = σ.qname := rfl

theorem writeQueueFile_file (σ : State) (i : Nat) (s : Parse) : (σ._writeQueueFile conf i s).file = σ.file := by
  unfold State._writeQueueFile
  dsimp only
  split <;> rfl

theorem writeQueueFile_at (σ : State) (i : Nat) (s : Parse) : (σ._writeQueueFile conf i s).at_ = σ.at_ := by
  unfold State._writeQueueFile
  dsimp only
  split <;> rfl

/-- A queue file that is there stays; a new one has the name of the first subscription. -/
theorem writeQueueFile_qname (σ : State) (i : Nat) (s : Parse) (file : Str) : (σ._writeQueueFile conf i s).qname file = σ.qname file ∨
    (σ._writeQueueFile conf i s).qname file = s.subscriptions.head?.map (·.name) := by
  unfold State._writeQueueFile
  dsimp only
  split
  · by_cases same : file = conf.queue_filename i conf.last
    · exact .inr (if_pos same)
    · exact .inl (if_neg same)
  · exact .inl rfl

/-- A step moves the instance, and no other. -/
theorem Move.other (move : Move conf draws i σ σ') {j : Nat} (other : j ≠ i) : σ'.at_ j = σ.at_ j := by
  cases move with
  | records second s _ => rw [go_other _ other, writeQueueFile_at]
  | _ => exact if_neg other

/-- The file stays, or it is opened or written by an instance that is there. -/
theorem Move.file (move : Move conf draws i σ σ') : σ'.file = σ.file ∨ (i < 2 ∧ σ'.file = .truncated) ∨
    ∃ second s, σ.at_ i = .writing second s ∧ σ'.at_ i = .written second s ∧ σ'.file = .whole s.subscriptions := by
  cases move with
  | opens second s _ lead _ => exact .inr (.inl ⟨lead, rfl⟩)
  | writes second s at_ => exact .inr (.inr ⟨second, s, at_, go_self _ _ _, rfl⟩)
  | records second s _ => exact .inl (writeQueueFile_file σ i s)
  | _ => exact .inl rfl

/-- A queue file stays, or it is written with the name of the first subscription. -/
theorem Move.qname (move : Move conf draws i σ σ') (file : Str) : σ'.qname file = σ.qname file ∨
    ∃ second s, σ.at_ i = .written second s ∧ σ'.qname file = s.subscriptions.head?.map (·.name) := by
  cases move with
  | records second s at_ => exact (writeQueueFile_qname σ i s file).imp_right fun is => ⟨second, s, at_, is⟩
  | _ => exact .inl rfl

end Moves
end Sarracenia.Guarantees.QueueNames
