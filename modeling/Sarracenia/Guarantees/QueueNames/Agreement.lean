import Sarracenia.Guarantees.QueueNames.Moves

/-!
# The instances agree on their queue names

A pair whose template always gives the same text is agreed on by itself. Any other has to be recorded in the file
when an instance begins its second parse: from then on no file lists it with another name.
-/
namespace Sarracenia.Guarantees.QueueNames
open Library.Text Source.QueueNames

/-- The pairs that a parse makes subscriptions for. -/
def used (conf : Conf) : List Pair := if conf.subtopics = [] then [conf.last] else conf.subtopics.map (·.1)

/-- The name of a pair in a file, if it can be read there. -/
def listed (p : Pair) (file : File) : Option Str := lookFor p (read file)

/-- A pair has one name only, whoever expands it: nothing recorded, and no queue file it would be read from, has
another. -/
def Plain (conf : Conf) (draws : Draws) (σ₀ : State) (p : Pair) : Prop :=
  ∃ x, (∀ i second calls, expand conf (draws i second) calls p = x) ∧ (∀ n, listed p σ₀.file = some n → n = x) ∧
    ((used conf).head? = some p → ∀ no, (σ₀.qname (conf.queue_filename no p)).getD [] = [] ∨
      (σ₀.qname (conf.queue_filename no p)).getD [] = x)

/-- A second parse begins with a file that lists each pair with more than one name, and an instance that has found
no subscription at all has a queue file. -/
def Ready (conf : Conf) (draws : Draws) (σ₀ : State) (i : Nat) (σ : State) : Prop :=
  (σ.at_ i = .begun true → ∀ p ∈ used conf, Plain conf draws σ₀ p ∨ ∃ n, listed p σ.file = some n) ∧
  ∀ second s, σ.at_ i = .resolving second s → s.subtopics = [] → s.old_subscriptions = [] → s.subscriptions = [] → 1 < i →
    (σ.qname (conf.queue_filename i conf.last)).getD [] ≠ []

/-- No instance gives up; one that has ended has a name for each pair; any two have the same for the same pair, and
one that was recorded is kept. -/
structure Agreed (conf : Conf) (σ₀ σ : State) : Prop where
  none_exits : ∀ i, 1 ≤ i → σ.at_ i ≠ .exited
  complete : ∀ i named, 1 ≤ i → σ.at_ i = .ended named → named.map (·.1) = used conf
  same : ∀ i j named named' p n n', 1 ≤ i → 1 ≤ j → σ.at_ i = .ended named → σ.at_ j = .ended named' →
    (p, n) ∈ named → (p, n') ∈ named' → n = n'
  recorded : ∀ i named p n n', 1 ≤ i → σ.at_ i = .ended named → listed p σ₀.file = some n → (p, n') ∈ named → n' = n

section Places

/-- What holds of the parse of an instance: while it goes on, until it is written, until it has ended, and of the
names then. -/
def Has (going made wrote : Bool → Parse → Prop) (ended : List (Pair × Str) → Prop) : At → Prop
  | .parsing second s | .resolving second s => going second s
  | .finalized second s | .writing second s => made second s
  | .written second s | .parsed second s => wrote second s
  | .ended named => ended named
  | _ => True

variable {conf : Conf} {draws : Draws} {i : Nat} {σ σ' : State}
variable {going made wrote : Bool → Parse → Prop} {ended : List (Pair × Str) → Prop}

theorem Has.mono {going' made' wrote' : Bool → Parse → Prop} {ended' : List (Pair × Str) → Prop} {place : At}
    (has : Has going made wrote ended place) (goes : ∀ second s, going second s → going' second s)
    (makes : ∀ second s, made second s → made' second s) (writes : ∀ second s, wrote second s → wrote' second s)
    (ends : ∀ named, ended named → ended' named) : Has going' made' wrote' ended' place := by
  cases place with
  | parsing second s => exact goes second s has
  | resolving second s => exact goes second s has
  | finalized second s => exact makes second s has
  | writing second s => exact makes second s has
  | written second s => exact writes second s has
  | parsed second s => exact writes second s has
  | ended named => exact ends named has
  | _ => trivial

/-- A step keeps what each of its own moves keeps. -/
theorem Move.has (move : Move conf draws i σ σ') (has : Has going made wrote ended (σ.at_ i))
    (begins : ∀ second, σ.at_ i = .begun second → going second ⟨read σ.file, [], conf.subtopics, 0, []⟩)
    (rereads : ∀ second s, going second s →
      going second { s with old_subscriptions := if s.old_subscriptions = [] then read σ.file else s.old_subscriptions })
    (subscribes : ∀ second s p binding subtopics name, σ.at_ i = .resolving second s → going second s → s.subtopics = (p, binding) :: subtopics →
      _resolveQueueName conf (draws i second) σ.qname 0 p s = some name →
      going second { s.subscribe p name (binding name) with subtopics })
    (closes : ∀ second s name, σ.at_ i = .resolving second s → going second s → s.subtopics = [] →
      _resolveQueueName conf (draws i second) σ.qname i conf.last s = some name → made second (s.close conf name))
    (settles : ∀ second s, made second s → wrote second s) (ends : ∀ s, wrote true s → ended s.named) :
    Has going made wrote ended (σ'.at_ i) := by
  cases move with
  | begins second at_ =>
    rw [go_self]
    exact begins second at_
  | rereads second s at_ =>
    rw [at_] at has
    rw [go_self]
    exact rereads second s has
  | subscribes second s p binding subtopics name at_ left is =>
    rw [at_] at has
    rw [go_self]
    exact subscribes second s p binding subtopics name at_ has left is
  | finalizes second s name at_ left is =>
    rw [at_] at has
    rw [go_self]
    exact closes second s name at_ has left is
  | opens second s at_ _ _ =>
    rw [at_] at has
    rw [go_self]
    exact has
  | skips second s at_ =>
    rw [at_] at has
    rw [go_self]
    exact settles second s has
  | writes second s at_ =>
    rw [at_] at has
    rw [go_self]
    exact settles second s has
  | records second s at_ =>
    rw [at_] at has
    rw [go_self]
    exact has
  | ends s at_ =>
    rw [at_] at has
    rw [go_self]
    exact ends s has
  | exits second s at_ _ _ =>
    rw [go_self]
    trivial
  | waits s _ =>
    rw [go_self]
    trivial
  | passes _ =>
    rw [go_self]
    trivial
  | marks _ =>
    rw [go_self]
    trivial

/-- What holds of each instance where it is, if it does of the one that moves. -/
theorem Move.everywhere (move : Move conf draws i σ σ') (holds : Nat → At → Prop) (all : ∀ j, 1 ≤ j → holds j (σ.at_ j))
    (self : holds i (σ'.at_ i)) (j : Nat) (lead : 1 ≤ j) : holds j (σ'.at_ j) := by
  by_cases same : j = i
  · subst same
    exact self
  · rw [move.other same]
    exact all j lead

end Places

section Progress
variable {conf : Conf} {draws : Draws} {meets : Nat → State → Prop} {i : Nat} {σ₀ σ σ' : State}

/-- The subtopics are taken in turn; there is a subscription as soon as one is. -/
def Going (conf : Conf) (s : Parse) : Prop :=
  s.named.map (·.1) ++ s.subtopics.map (·.1) = conf.subtopics.map (·.1) ∧ (s.subscriptions = [] ↔ s.named = [])

abbrev Progress (conf : Conf) : At → Prop :=
  Has (fun _ s => Going conf s) (fun _ s => s.named.map (·.1) = used conf) (fun _ s => s.named.map (·.1) = used conf)
    (fun named => named.map (·.1) = used conf)

theorem Going.close {s : Parse} (going : Going conf s) (left : s.subtopics = []) (name : Str) :
    (s.close conf name).named.map (·.1) = used conf := by
  obtain ⟨turn, started⟩ := going
  rw [left, List.map_nil, List.append_nil] at turn
  unfold Parse.close used
  by_cases empty : s.subscriptions = []
  · have none_ := started.mp empty
    rw [none_, List.map_nil] at turn
    rw [if_pos empty, if_pos (List.map_eq_nil_iff.mp turn.symm)]
    dsimp only
    rw [none_]
    rfl
  · have some_ : conf.subtopics ≠ [] := fun none_ => empty (started.mpr (by
      rw [none_, List.map_nil] at turn
      exact List.map_eq_nil_iff.mp turn))
    rw [if_neg empty, if_neg some_]
    exact turn

/-- The first subscription is made for the first pair. -/
theorem Going.first {s : Parse} (going : Going conf s) (empty : s.subscriptions = []) :
    s.subtopics.map (·.1) = conf.subtopics.map (·.1) := by
  obtain ⟨turn, started⟩ := going
  rw [started.mp empty] at turn
  exact turn

theorem Going.head {s : Parse} {p : Pair} {binding : Str → Str} {subtopics : List (Pair × (Str → Str))} (going : Going conf s)
    (empty : s.subscriptions = []) (left : s.subtopics = (p, binding) :: subtopics) : (used conf).head? = some p := by
  have first := going.first empty
  rw [left, List.map_cons] at first
  unfold used
  rw [if_neg (by rintro none_; rw [none_] at first; cases first), ← first]
  rfl

theorem Going.last {s : Parse} (going : Going conf s) (empty : s.subscriptions = []) (left : s.subtopics = []) :
    (used conf).head? = some conf.last := by
  have first := going.first empty
  rw [left, List.map_nil] at first
  unfold used
  rw [if_pos (List.map_eq_nil_iff.mp first.symm)]
  rfl

theorem progress_step (move : Move conf draws i σ σ') (has : Progress conf (σ.at_ i)) : Progress conf (σ'.at_ i) := by
  apply move.has has
  case begins => exact fun _ _ => ⟨rfl, iff_of_true rfl rfl⟩
  case rereads => exact fun _ _ going => going
  case subscribes =>
    intro _ s p binding subtopics name _ going left _
    refine ⟨?_, iff_of_false (add_ne_nil p name (binding name) s.subscriptions) (by simp [Parse.subscribe])⟩
    have turn := going.1
    rw [left] at turn
    simpa [Parse.subscribe] using turn
  case closes => exact fun _ _ name _ going left _ => going.close left name
  case settles => exact fun _ _ made => made
  case ends => exact fun _ wrote => wrote

theorem runs_progress (fresh : Fresh σ₀) (runs : Runs conf draws meets σ₀ σ) : ∀ i, 1 ≤ i → Progress conf (σ.at_ i) := by
  induction runs with
  | refl =>
    intro i number
    rw [fresh i number]
    trivial
  | step _ number _ step_ ih =>
    have move := move_of_step step_
    exact move.everywhere (fun _ => Progress conf) ih (progress_step move (ih _ number))

/-- The lead alone writes the file. -/
theorem runs_writer (fresh : Fresh σ₀) (runs : Runs conf draws meets σ₀ σ) :
    ∀ i, 1 ≤ i → ∀ second s, σ.at_ i = .writing second s → i = 1 := by
  induction runs with
  | refl =>
    intro i number second s at_
    rw [fresh i number] at at_
    cases at_
  | @step σ' σ'' k _ number _ step_ ih =>
    have move := move_of_step step_
    apply move.everywhere (fun i place => ∀ second s, place = .writing second s → i = 1) ih
    intro second s at_
    cases move with
    | opens _ _ _ lead _ => omega
    | _ =>
      rw [go_self] at at_
      cases at_

end Progress

section Kept
variable {conf : Conf} {varsub : Nat → Str → Str} {qname : Str → Option Str} {no : Nat} {p q : Pair} {x name binding : Str}
variable {first : Prop} {s : Parse}

/-- A pair has one name in a parse, which the first subscription has if it is for this pair. -/
structure Kept (p : Pair) (x : Str) (first : Prop) (s : Parse) : Prop where
  subscriptions : ∀ e ∈ s.subscriptions, e.pair = p → e.name = x
  head : first → ∀ e, s.subscriptions.head? = some e → e.name = x
  named : ∀ n, (p, n) ∈ s.named → n = x

theorem Kept.found (kept : Kept p x first s) {n : Str} (is : lookFor p s.subscriptions = some n) : n = x := by
  obtain ⟨e, there, pair, rfl⟩ := lookFor_some is
  exact kept.subscriptions e there pair

/-- The name that is resolved is the one that is kept. -/
theorem Kept.resolve (kept : Kept p x first s) (expands : ∀ calls, expand conf varsub calls p = x)
    (old : ∀ n, lookFor p s.old_subscriptions = some n → n = x)
    (queue : s.subscriptions = [] → (qname (conf.queue_filename no p)).getD [] = [] ∨ (qname (conf.queue_filename no p)).getD [] = x)
    (is : _resolveQueueName conf varsub qname no p s = some name) : name = x := by
  rcases resolve_cases is with recorded | made | ⟨empty, -, read_, some_⟩ | expanded
  · exact old name recorded
  · exact kept.found made
  · cases queue empty with
    | inl none_ => exact absurd (read_.symm.trans none_) some_
    | inr is_ => exact read_.symm.trans is_
  · exact expanded.symm.trans (expands _)

theorem Kept.subscribe (kept : Kept p x first s) (same : q = p → name = x) (head : first → s.subscriptions = [] → q = p)
    (subtopics : List (Pair × (Str → Str))) : Kept p x first { s.subscribe q name binding with subtopics } where
  subscriptions e member pair := by
    rcases mem_add member with ⟨e', there, pair', name'⟩ | ⟨pair', name'⟩
    · exact name'.symm.trans (kept.subscriptions e' there (pair'.trans pair))
    · exact name'.trans (same (pair'.symm.trans pair))
  head is_first e at_ := by
    have added := head_add q name binding s.subscriptions
    rw [show (add q name binding false s.subscriptions).head? = some e from at_] at added
    cases before : s.subscriptions.head? with
    | none =>
      rw [before] at added
      exact (Option.some.inj added).trans (same (head is_first (List.head?_eq_none_iff.mp before)))
    | some e' =>
      rw [before] at added
      exact (Option.some.inj added).trans (kept.head is_first e' before)
  named n member := by
    rcases List.mem_append.mp member with before | now
    · exact kept.named n before
    · obtain ⟨rfl, rfl⟩ := Prod.mk.inj (List.mem_singleton.mp now)
      exact same rfl

theorem Kept.close (kept : Kept p x first s) (same : s.subscriptions = [] → conf.last = p → name = x)
    (head : first → s.subscriptions = [] → conf.last = p) : Kept p x first (s.close conf name) := by
  unfold Parse.close
  split
  · next empty =>
    constructor
    · intro e member pair
      obtain rfl := List.mem_singleton.mp member
      exact same empty pair
    · intro is_first e at_
      obtain rfl := Option.some.inj at_
      exact same empty (head is_first empty)
    · intro n member
      rcases List.mem_append.mp member with before | now
      · exact kept.named n before
      · obtain ⟨pair, rfl⟩ := Prod.mk.inj (List.mem_singleton.mp now)
        exact same empty pair.symm
  · exact kept

end Kept

section Plain
variable {conf : Conf} {draws : Draws} {meets : Nat → State → Prop} {i : Nat} {σ₀ σ σ' : State} {p : Pair} {x : Str}

/-- A pair that is expanded to one name only has no other, wherever it is kept. -/
structure Sole (conf : Conf) (p : Pair) (x : Str) (σ : State) : Prop where
  file : ∀ n, listed p σ.file = some n → n = x
  qname : (used conf).head? = some p → ∀ no, (σ.qname (conf.queue_filename no p)).getD [] = [] ∨
    (σ.qname (conf.queue_filename no p)).getD [] = x
  at_ : ∀ j, 1 ≤ j → Has
    (fun _ s => (∀ n, lookFor p s.old_subscriptions = some n → n = x) ∧ Kept p x ((used conf).head? = some p) s)
    (fun _ => Kept p x ((used conf).head? = some p)) (fun _ => Kept p x ((used conf).head? = some p))
    (fun named => ∀ n, (p, n) ∈ named → n = x) (σ.at_ j)

theorem sole_step (expands : ∀ i second calls, expand conf (draws i second) calls p = x) (number : 1 ≤ i)
    (move : Move conf draws i σ σ') (progress : Progress conf (σ.at_ i)) (sole : Sole conf p x σ) : Sole conf p x σ' := by
  have has := sole.at_ i number
  constructor
  · intro n is
    rcases move.file with stays | ⟨-, opened⟩ | ⟨second, s, at_, -, written⟩
    · rw [stays] at is
      exact sole.file n is
    · rw [opened] at is
      cases is
    · rw [written] at is
      rw [at_] at has
      exact has.found is
  · intro first no
    rcases move.qname (conf.queue_filename no p) with stays | ⟨second, s, at_, written⟩
    · rw [stays]
      exact sole.qname first no
    · rw [at_] at has
      rw [written]
      cases head : s.subscriptions.head? with
      | none => exact .inl rfl
      | some e => exact .inr (has.head first e head)
  · refine move.everywhere (fun _ => Has _ _ _ _) sole.at_ (move.has has ?begins ?rereads ?subscribes ?closes ?settles ?ends)
    case begins =>
      intro second _
      exact ⟨sole.file, ⟨nofun, nofun, nofun⟩⟩
    case rereads =>
      intro second s ⟨old, kept⟩
      refine ⟨fun n is => ?_, kept.subscriptions, kept.head, kept.named⟩
      dsimp only at is
      split at is
      · exact sole.file n is
      · exact old n is
    case subscribes =>
      intro second s q binding subtopics name at_ ⟨old, kept⟩ left is
      rw [at_] at progress
      refine ⟨old, kept.subscribe ?_ ?_ subtopics⟩
      · rintro rfl
        exact kept.resolve (expands i second) old (fun empty => sole.qname (progress.head empty left) 0) is
      · intro first empty
        exact Option.some.inj ((progress.head empty left).symm.trans first)
    case closes =>
      intro second s name at_ ⟨old, kept⟩ left is
      rw [at_] at progress
      refine kept.close ?_ ?_
      · rintro empty rfl
        exact kept.resolve (expands i second) old (fun _ => sole.qname (progress.last empty left) i) is
      · intro first empty
        exact Option.some.inj ((progress.last empty left).symm.trans first)
    case settles => exact fun _ _ kept => kept
    case ends => exact fun s kept => kept.named

theorem runs_sole (fresh : Fresh σ₀) (expands : ∀ i second calls, expand conf (draws i second) calls p = x)
    (recorded : ∀ n, listed p σ₀.file = some n → n = x)
    (queue : (used conf).head? = some p → ∀ no, (σ₀.qname (conf.queue_filename no p)).getD [] = [] ∨
      (σ₀.qname (conf.queue_filename no p)).getD [] = x) (runs : Runs conf draws meets σ₀ σ) : Sole conf p x σ := by
  induction runs with
  | refl =>
    refine ⟨recorded, queue, fun i number => ?_⟩
    rw [fresh i number]
    trivial
  | step before number _ step_ ih =>
    exact sole_step expands number (move_of_step step_) (runs_progress fresh before _ number) ih

end Plain

section Recorded
variable {conf : Conf} {draws : Draws} {i : Nat} {σ₀ σ σ' : State} {p : Pair} {b : Str}

/-- Nothing is recorded of a pair yet, and no instance is in its second parse. -/
structure Unlisted (p : Pair) (σ : State) : Prop where
  file : listed p σ.file = none
  at_ : ∀ j, 1 ≤ j → Has (fun second _ => second = false) (fun second _ => second = false) (fun second _ => second = false)
    (fun _ => False) (σ.at_ j)

/-- The name of a pair is recorded: the lead finds it when it begins, and whatever it writes later has it too. -/
structure Recorded (p : Pair) (b : Str) (σ : State) : Prop where
  file : ∀ n, listed p σ.file = some n → n = b
  start : σ.at_ 1 = .begun false → listed p σ.file = some b
  at_ : ∀ j, 1 ≤ j → Has (fun second s => second = true ∨ j = 1 → lookFor p s.old_subscriptions = some b ∧ Kept p b False s)
    (fun second s => second = true ∨ j = 1 → Kept p b False s) (fun second s => second = true → Kept p b False s)
    (fun named => ∀ n, (p, n) ∈ named → n = b) (σ.at_ j)

theorem recorded_step (number : 1 ≤ i) (move : Move conf draws i σ σ') (writer : ∀ second s, σ.at_ i = .writing second s → i = 1)
    (finds : σ.at_ i = .begun true → ∃ n, listed p σ.file = some n) (recorded : Recorded p b σ) : Recorded p b σ' := by
  have has := recorded.at_ i number
  have file : ∀ n, listed p σ'.file = some n → n = b := by
    intro n is
    rcases move.file with stays | ⟨-, opened⟩ | ⟨second, s, at_, -, written⟩
    · rw [stays] at is
      exact recorded.file n is
    · rw [opened] at is
      cases is
    · rw [written] at is
      rw [at_] at has
      exact (has (.inr (writer second s at_))).found is
  refine ⟨file, ?_, ?_⟩
  · intro begun
    by_cases lead : i = 1
    · subst lead
      cases move with
      | _ =>
        rw [go_self] at begun
        cases begun
    · rw [move.other (Ne.symm lead)] at begun
      rcases move.file with stays | ⟨least, -⟩ | ⟨second, s, at_, -, -⟩
      · rw [stays]
        exact recorded.start begun
      · omega
      · exact absurd (writer second s at_) lead
  · refine move.everywhere (fun j => Has (fun second s => second = true ∨ j = 1 → _) (fun second s => second = true ∨ j = 1 → _) _ _)
      recorded.at_ (move.has has ?begins ?rereads ?subscribes ?closes ?settles ?ends)
    case begins =>
      intro second begun follows
      refine ⟨?_, nofun, nofun, nofun⟩
      cases second with
      | true =>
        obtain ⟨n, is⟩ := finds begun
        rw [recorded.file n is] at is
        exact is
      | false =>
        rcases follows with second | rfl
        · cases second
        · exact recorded.start begun
    case rereads =>
      intro second s going follows
      obtain ⟨old, kept⟩ := going follows
      refine ⟨?_, kept.subscriptions, kept.head, kept.named⟩
      rw [if_neg (ne_nil_of_lookFor old)]
      exact old
    case subscribes =>
      intro second s q binding subtopics name _ going _ is follows
      obtain ⟨old, kept⟩ := going follows
      refine ⟨old, kept.subscribe ?_ nofun subtopics⟩
      rintro rfl
      exact Option.some.inj (is.symm.trans (resolve_old old))
    case closes =>
      intro second s name _ going _ is follows
      obtain ⟨old, kept⟩ := going follows
      refine kept.close ?_ nofun
      rintro - rfl
      exact Option.some.inj (is.symm.trans (resolve_old old))
    case settles => exact fun _ _ made second => made (.inl second)
    case ends => exact fun _ wrote => (wrote rfl).named

/-- The first file that lists a pair records its name. -/
theorem unlisted_step (number : 1 ≤ i) (move : Move conf draws i σ σ')
    (writer : ∀ j, 1 ≤ j → ∀ second s, σ.at_ j = .writing second s → j = 1)
    (finds : σ.at_ i = .begun true → ∃ n, listed p σ.file = some n) (unlisted : Unlisted p σ) :
    Unlisted p σ' ∨ ∃ b, Recorded p b σ' := by
  have has := unlisted.at_ i number
  have at_ : ∀ j, 1 ≤ j → Has (fun second _ => second = false) (fun second _ => second = false) (fun second _ => second = false)
      (fun _ => False) (σ'.at_ j) := by
    refine move.everywhere (fun _ => Has _ _ _ _) unlisted.at_ (move.has has ?_ (fun _ _ first => first)
      (fun _ _ _ _ _ _ _ first _ _ => first) (fun _ _ _ _ first _ _ => first) (fun _ _ first => first) nofun)
    intro second begun
    cases second with
    | true =>
      obtain ⟨n, is⟩ := finds begun
      exact absurd is (by rw [unlisted.file]; nofun)
    | false => rfl
  rcases move.file with stays | ⟨-, opened⟩ | ⟨second, s, writing, wrote, written⟩
  · exact .inl ⟨by rw [stays]; exact unlisted.file, at_⟩
  · exact .inl ⟨by rw [opened]; rfl, at_⟩
  · cases is : lookFor p s.subscriptions with
    | none => exact .inl ⟨by rw [written]; exact is, at_⟩
    | some b =>
      refine .inr ⟨b, ?_, ?_, ?_⟩
      · intro n is'
        rw [written] at is'
        exact Option.some.inj (is'.symm.trans is)
      · intro begun
        obtain rfl := writer i number second s writing
        rw [wrote] at begun
        cases begun
      · intro j number'
        have first := at_ j number'
        by_cases lead : j = 1
        · obtain rfl := lead.trans (writer i number second s writing).symm
          rw [wrote] at first ⊢
          rintro rfl
          cases first
        · have none_ {second : Bool} {P : Prop} (first : second = false) (follows : second = true ∨ j = 1) : P :=
            follows.elim (fun second_ => absurd (first.symm.trans second_) Bool.false_ne_true) fun is_lead => absurd is_lead lead
          exact first.mono (fun _ _ => none_) (fun _ _ => none_) (fun _ _ first second => none_ first (.inl second)) (fun _ => nofun)

/-- The condition finds every pair with more than one name in the file, so that each is traced to one record. -/
def Traced (p : Pair) (σ₀ σ : State) : Prop :=
  (Unlisted p σ ∧ listed p σ₀.file = none) ∨ ∃ b, Recorded p b σ ∧ ∀ n, listed p σ₀.file = some n → n = b

theorem runs_traced (fresh : Fresh σ₀) (among : p ∈ used conf) (many : ¬ Plain conf draws σ₀ p)
    (runs : Runs conf draws (Ready conf draws σ₀) σ₀ σ) : Traced p σ₀ σ := by
  induction runs with
  | refl =>
    cases is : listed p σ₀.file with
    | none =>
      refine .inl ⟨⟨is, fun i number => ?_⟩, is⟩
      rw [fresh i number]
      trivial
    | some b =>
      have same : ∀ n, listed p σ₀.file = some n → n = b := fun n is' => Option.some.inj (is'.symm.trans is)
      refine .inr ⟨b, ⟨same, fun _ => is, fun i number => ?_⟩, same⟩
      rw [fresh i number]
      trivial
  | step before number ready step_ ih =>
    have move := move_of_step step_
    have writer := runs_writer fresh before
    have finds := fun begun => (ready.1 begun p among).resolve_left many
    rcases ih with ⟨unlisted, none_⟩ | ⟨b, recorded, kept⟩
    · rcases unlisted_step number move writer finds unlisted with still | ⟨b, recorded⟩
      · exact .inl ⟨still, none_⟩
      · exact .inr ⟨b, recorded, fun n is => absurd is (by rw [none_]; nofun)⟩
    · exact .inr ⟨b, recorded_step number move (writer _ number) finds recorded, kept⟩

end Recorded

section Agreement
variable {conf : Conf} {draws : Draws} {σ₀ σ : State}

theorem runs_none_exits (fresh : Fresh σ₀) (runs : Runs conf draws (Ready conf draws σ₀) σ₀ σ) : ∀ i, 1 ≤ i → σ.at_ i ≠ .exited := by
  induction runs with
  | refl =>
    intro i number
    rw [fresh i number]
    nofun
  | @step σ' σ'' k _ number ready step_ ih =>
    have move := move_of_step step_
    apply move.everywhere (fun _ place => place ≠ .exited) ih
    cases move with
    | exits second s at_ left is =>
      obtain ⟨empty, old, worker, none_⟩ := resolve_none is
      exact absurd none_ (ready.2 second s at_ left old empty worker)
    | _ =>
      rw [go_self]
      nofun

/-- Whatever ends has one name for a pair, and it is the one that was recorded. -/
theorem one_name (fresh : Fresh σ₀) (runs : Runs conf draws (Ready conf draws σ₀) σ₀ σ) {p : Pair} (among : p ∈ used conf) :
    ∃ b, (∀ n, listed p σ₀.file = some n → n = b) ∧
      ∀ i named n, 1 ≤ i → σ.at_ i = .ended named → (p, n) ∈ named → n = b := by
  by_cases plain : Plain conf draws σ₀ p
  · obtain ⟨x, expands, recorded, queue⟩ := plain
    have sole := runs_sole fresh expands recorded queue runs
    refine ⟨x, recorded, fun i named n number ended member => ?_⟩
    have has := sole.at_ i number
    rw [ended] at has
    exact has n member
  · rcases runs_traced fresh among plain runs with ⟨unlisted, none_⟩ | ⟨b, recorded, kept⟩
    · refine ⟨[], fun n is => absurd is (by rw [none_]; nofun), fun i named n number ended member => ?_⟩
      have has := unlisted.at_ i number
      rw [ended] at has
      exact has.elim
    · refine ⟨b, kept, fun i named n number ended member => ?_⟩
      have has := recorded.at_ i number
      rw [ended] at has
      exact has n member

/-- The instances agree in every run in which no second parse begins too early. -/
theorem queue_names_agree (conf : Conf) (draws : Draws) (σ₀ σ : State) (fresh : Fresh σ₀)
    (runs : Runs conf draws (Ready conf draws σ₀) σ₀ σ) : Agreed conf σ₀ σ := by
  have complete : ∀ i named, 1 ≤ i → σ.at_ i = .ended named → named.map (·.1) = used conf := by
    intro i named number ended
    have progress := runs_progress fresh runs i number
    rw [ended] at progress
    exact progress
  have among : ∀ i named p n, 1 ≤ i → σ.at_ i = .ended named → (p, n) ∈ named → p ∈ used conf := by
    intro i named p n number ended member
    rw [← complete i named number ended]
    exact List.mem_map_of_mem (f := (·.1)) member
  constructor
  · exact runs_none_exits fresh runs
  · exact complete
  · intro i j named named' p n n' number number' ended ended' member member'
    obtain ⟨b, -, same⟩ := one_name fresh runs (among i named p n number ended member)
    exact (same i named n number ended member).trans (same j named' n' number' ended' member').symm
  · intro i named p n n' number ended recorded member
    obtain ⟨b, kept, same⟩ := one_name fresh runs (among i named p n' number ended member)
    exact (same i named n' number ended member).trans (kept n recorded).symm

end Agreement

section Schedules
variable (conf : Conf) (draws : Draws) (check : Nat → State → Bool)

/-- The instances take their steps in this order, each checked before. -/
def play : List Nat → State → Option State
  | [], σ => some σ
  | i :: schedule, σ => if 1 ≤ i ∧ check i σ then (step conf draws i σ).bind (play schedule) else none

variable {conf draws}

theorem runs_play (check : Nat → State → Bool) (schedule : List Nat) {meets : Nat → State → Prop} {σ₀ σ σ' : State} (checked : ∀ i σ, check i σ = true → meets i σ)
    (before : Runs conf draws meets σ₀ σ) (played : play conf draws check schedule σ = some σ') : Runs conf draws meets σ₀ σ' := by
  induction schedule generalizing σ with
  | nil =>
    obtain rfl := Option.some.inj played
    exact before
  | cons i schedule ih =>
    unfold play at played
    split at played
    · next taken =>
      obtain ⟨σ'', step_, rest⟩ := Option.bind_eq_some_iff.mp played
      exact ih (before.step taken.1 (checked i σ taken.2) step_) rest
    · cases played

end Schedules

section Cases

/-- One subtopic, with a name that each instance makes differently; a pid file is left from before. -/
def random : Conf := ⟨[(⟨['b'], ['r']⟩, id)], ⟨['b'], ['r']⟩, id, id, false, [], fun _ _ => []⟩

def byInstance : Draws := fun i _ _ _ => List.replicate i 'q'

def idle : State := ⟨.missing, fun _ => none, fun _ => false, true, fun _ => .begun false⟩

/-- The pair is listed when a second parse begins, and there is a subtopic. -/
def inTime (i : Nat) (σ : State) : Bool :=
  match σ.at_ i with
  | .begun true => (listed ⟨['b'], ['r']⟩ σ.file).isSome
  | .resolving _ s => !s.subscriptions.isEmpty || !s.subtopics.isEmpty
  | _ => true

theorem ready_of_inTime (i : Nat) (σ : State) (checked : inTime i σ = true) : Ready random byInstance idle i σ := by
  unfold inTime at checked
  refine ⟨fun begun p among => .inr ?_, fun second s at_ left _ empty => ?_⟩
  · rw [begun] at checked
    obtain rfl := List.mem_singleton.mp among
    exact Option.isSome_iff_exists.mp checked
  · rw [at_] at checked
    dsimp only at checked
    rw [left, empty] at checked
    cases checked

/-- The lead first, then a worker. -/
theorem lead_first : ∃ σ, σ.at_ 2 = .ended [(⟨['b'], ['r']⟩, ['q'])] ∧ Agreed random idle σ :=
  ⟨_, rfl, queue_names_agree random byInstance idle _ (fun _ _ => rfl)
    (runs_play inTime (List.replicate 19 1 ++ List.replicate 16 2) ready_of_inTime .refl rfl)⟩

/-- The worker ends before the lead begins: it goes by the pid file that was left. -/
theorem early_worker : ¬ ∀ conf draws σ₀ σ, Fresh σ₀ → Runs conf draws (fun _ _ => True) σ₀ σ → Agreed conf σ₀ σ := by
  intro agree
  have agreed := agree random byInstance idle _ (fun _ _ => rfl)
    (runs_play (fun _ _ => true) (List.replicate 16 2 ++ List.replicate 19 1) (fun _ _ _ => trivial) .refl rfl)
  have same := agreed.same 1 2 [(⟨['b'], ['r']⟩, ['q'])] [(⟨['b'], ['r']⟩, ['q', 'q'])] ⟨['b'], ['r']⟩ ['q'] ['q', 'q'] (by decide)
    (by decide) rfl rfl List.mem_cons_self List.mem_cons_self
  cases same

end Cases
end Sarracenia.Guarantees.QueueNames
