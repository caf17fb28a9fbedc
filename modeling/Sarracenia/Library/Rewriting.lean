import Mathlib.Data.List.Infix
import Mathlib.Logic.Relation
import Sarracenia.Library.Replace

/-!
# Rewriting a text by one rule

Occurrences of `l` become `r`, one after the other, until none is left. Where the first element of `l` stands
nowhere else in it, no two occurrences overlap, so that whether this ends does not depend on their order. It ends
from everywhere unless `r` has `l` in it or regrows it: begins with two ends of `l` and ends with two beginnings
that go with them.
-/
namespace Sarracenia.Library.Rewriting
open Relation

section Step
variable {α : Type} (l r : List α)

/-- One occurrence is replaced. -/
inductive Step : List α → List α → Prop where
  | here (x y : List α) : Step (x ++ l ++ y) (x ++ r ++ y)

def Normal (s : List α) : Prop := ¬ l <:+: s

/-- Some steps of this number lead to a text without an occurrence. -/
def Ends : Nat → List α → Prop
  | 0, s => Normal l s
  | n + 1, s => ∃ t, Step l r s t ∧ Ends n t

def Halts (s : List α) : Prop := ∃ n, Ends l r n s

/-- The first element stands nowhere else. -/
def FirstOnce : Prop := ∃ c mid, l = c :: mid ∧ c ∉ mid

/-- The last element stands nowhere else. -/
def LastOnce : Prop := ∃ c mid, l = mid ++ [c] ∧ c ∉ mid

variable {l r} {s t u x y : List α} {n : Nat}

theorem not_normal_iff : ¬ Normal l s ↔ ∃ x y, s = x ++ l ++ y := by
  unfold Normal
  rw [not_not]
  constructor
  · rintro ⟨x, y, same⟩
    exact ⟨x, y, same.symm⟩
  · rintro ⟨x, y, same⟩
    exact ⟨x, y, same.symm⟩

theorem Normal.part (normal : Normal l s) (inside : t <:+: s) : Normal l t := fun found => normal (found.trans inside)

theorem Step.around (step : Step l r s t) (x y : List α) : Step l r (x ++ s ++ y) (x ++ t ++ y) := by
  obtain ⟨a, b⟩ := step
  have before : x ++ (a ++ l ++ b) ++ y = (x ++ a) ++ l ++ (b ++ y) := by simp only [List.append_assoc]
  have after : x ++ (a ++ r ++ b) ++ y = (x ++ a) ++ r ++ (b ++ y) := by simp only [List.append_assoc]
  rw [before, after]
  exact .here _ _

theorem reach_around (reach : ReflTransGen (Step l r) s t) (x y : List α) :
    ReflTransGen (Step l r) (x ++ s ++ y) (x ++ t ++ y) :=
  reach.lift (fun s => x ++ s ++ y) fun _ _ step => step.around x y

theorem reach_before (reach : ReflTransGen (Step l r) s t) (y : List α) : ReflTransGen (Step l r) (s ++ y) (t ++ y) :=
  reach_around reach [] y

theorem reach_after (reach : ReflTransGen (Step l r) s t) (x : List α) : ReflTransGen (Step l r) (x ++ s) (x ++ t) := by
  have around := reach_around reach x []
  rwa [List.append_nil, List.append_nil] at around

theorem Step.not_normal (step : Step l r s t) : ¬ Normal l s := by
  obtain ⟨x, y⟩ := step
  exact not_normal_iff.mpr ⟨x, y, rfl⟩

/-! ## The order does not matter -/

/-- Two occurrences are one, or do not overlap. -/
theorem FirstOnce.apart (first : FirstOnce l) {x' y' : List α} (same : x ++ l ++ y = x' ++ l ++ y') :
    (x = x' ∧ y = y') ∨ (∃ z, x' = x ++ l ++ z ∧ y = z ++ l ++ y') ∨ ∃ z, x = x' ++ l ++ z ∧ y' = z ++ l ++ y := by
  have later {x y x' y' d : List α} (same : x ++ l ++ y = x' ++ l ++ y') (longer : x' = x ++ d) :
      (x = x' ∧ y = y') ∨ ∃ z, x' = x ++ l ++ z ∧ y = z ++ l ++ y' := by
    rw [longer, List.append_assoc, List.append_assoc, List.append_assoc] at same
    have rest := List.append_cancel_left same
    rcases List.append_eq_append_iff.mp rest with ⟨z, whole, tail⟩ | ⟨e, whole, tail⟩
    · exact Or.inr ⟨z, by rw [longer, whole, List.append_assoc], by rw [tail, List.append_assoc]⟩
    · obtain ⟨c, mid, shape, once⟩ := first
      cases d with
      | nil =>
        rw [List.append_nil] at longer
        rw [List.nil_append] at rest
        exact Or.inl ⟨longer.symm, List.append_cancel_left rest⟩
      | cons d ds =>
        cases e with
        | nil =>
          refine Or.inr ⟨[], ?_, ?_⟩
          · rw [longer, whole, List.append_nil, List.append_nil]
          · simpa using tail.symm
        | cons e es =>
          have begins : c = e := by
            rw [shape] at tail
            exact (List.cons.inj tail).1
          rw [shape] at whole
          obtain ⟨-, inside⟩ := List.cons.inj whole
          exact absurd (inside ▸ List.mem_append_right ds (begins ▸ List.mem_cons_self)) once
  have order : x ++ (l ++ y) = x' ++ (l ++ y') := by rw [← List.append_assoc, same, List.append_assoc]
  rcases List.append_eq_append_iff.mp order with ⟨d, longer, -⟩ | ⟨d, longer, -⟩
  · rcases later same longer with one | two
    · exact Or.inl one
    · exact Or.inr (Or.inl two)
  · rcases later same.symm longer with ⟨one, rest⟩ | two
    · exact Or.inl ⟨one.symm, rest.symm⟩
    · exact Or.inr (Or.inr two)

theorem FirstOnce.diamond (first : FirstOnce l) (one : Step l r s t) (other : Step l r s u) :
    t = u ∨ ∃ v, Step l r t v ∧ Step l r u v := by
  obtain ⟨x, y⟩ := one
  generalize whole : x ++ l ++ y = s at other
  obtain ⟨x', y'⟩ := other
  rcases first.apart whole with ⟨rfl, rfl⟩ | ⟨z, rfl, rfl⟩ | ⟨z, rfl, rfl⟩
  · exact Or.inl rfl
  · right
    have left : x ++ r ++ (z ++ l ++ y') = (x ++ r ++ z) ++ l ++ y' := by simp only [List.append_assoc]
    have right : x ++ l ++ z ++ r ++ y' = x ++ l ++ (z ++ r ++ y') := by simp only [List.append_assoc]
    refine ⟨(x ++ r ++ z) ++ r ++ y', by rw [left]; exact .here _ _, ?_⟩
    have after : (x ++ r ++ z) ++ r ++ y' = x ++ r ++ (z ++ r ++ y') := by simp only [List.append_assoc]
    rw [right, after]
    exact .here _ _
  · right
    have left : x' ++ r ++ (z ++ l ++ y) = (x' ++ r ++ z) ++ l ++ y := by simp only [List.append_assoc]
    have right : x' ++ l ++ z ++ r ++ y = x' ++ l ++ (z ++ r ++ y) := by simp only [List.append_assoc]
    have after : (x' ++ r ++ z) ++ r ++ y = x' ++ r ++ (z ++ r ++ y) := by simp only [List.append_assoc]
    refine ⟨(x' ++ r ++ z) ++ r ++ y, ?_, by rw [left]; exact .here _ _⟩
    rw [right, after]
    exact .here _ _

/-- Every step is one of those that were to come. -/
theorem FirstOnce.ends_step (first : FirstOnce l) (ends : Ends l r n s) (step : Step l r s t) :
    ∃ m, n = m + 1 ∧ Ends l r m t := by
  induction n generalizing s t with
  | zero => exact absurd ends step.not_normal
  | succ n ih =>
    obtain ⟨u, other, later⟩ := ends
    rcases first.diamond step other with rfl | ⟨v, next, joined⟩
    · exact ⟨n, rfl, later⟩
    · obtain ⟨m, rfl, last⟩ := ih later joined
      exact ⟨m + 1, rfl, v, next, last⟩

theorem FirstOnce.halts_step (first : FirstOnce l) (step : Step l r s t) : Halts l r s ↔ Halts l r t := by
  constructor
  · rintro ⟨n, ends⟩
    obtain ⟨m, -, later⟩ := first.ends_step ends step
    exact ⟨m, later⟩
  · rintro ⟨n, ends⟩
    exact ⟨n + 1, t, step, ends⟩

theorem FirstOnce.halts_reach (first : FirstOnce l) (reach : ReflTransGen (Step l r) s t) : Halts l r s ↔ Halts l r t := by
  induction reach with
  | refl => exact Iff.rfl
  | tail _ step ih => exact ih.trans (first.halts_step step)

theorem FirstOnce.ends_reach (first : FirstOnce l) (ends : Ends l r n s) (reach : ReflTransGen (Step l r) s t) :
    ∃ m ≤ n, Ends l r m t := by
  induction reach with
  | refl => exact ⟨n, le_rfl, ends⟩
  | tail _ step ih =>
    obtain ⟨k, small, before⟩ := ih
    obtain ⟨m, rfl, after⟩ := first.ends_step before step
    exact ⟨m, by omega, after⟩

/-- What is left without an occurrence does not depend on the order. -/
theorem FirstOnce.normal_unique (first : FirstOnce l) (one : ReflTransGen (Step l r) s t) (other : ReflTransGen (Step l r) s u)
    (settled : Normal l t) (settled' : Normal l u) : t = u := by
  have fixed {v w : List α} (normal : Normal l v) (reach : ReflTransGen (Step l r) v w) : v = w := by
    cases reach using ReflTransGen.head_induction_on with
    | refl => rfl
    | head step _ => exact absurd normal step.not_normal
  obtain ⟨v, left, right⟩ := church_rosser (fun a b c ab ac => by
    rcases first.diamond ab ac with rfl | ⟨d, bd, cd⟩
    · exact ⟨b, .refl, .refl⟩
    · exact ⟨d, .single bd, .single cd⟩) one other
  exact (fixed settled left).trans (fixed settled' right).symm

theorem Normal.halts (normal : Normal l s) : Halts l r s := ⟨0, normal⟩

theorem Halts.normal_form (halts : Halts l r s) : ∃ t, ReflTransGen (Step l r) s t ∧ Normal l t := by
  obtain ⟨n, ends⟩ := halts
  induction n generalizing s with
  | zero => exact ⟨s, .refl, ends⟩
  | succ n ih =>
    obtain ⟨t, step, later⟩ := ends
    obtain ⟨u, reach, normal⟩ := ih later
    exact ⟨u, .head step reach, normal⟩

theorem FirstOnce.halts_part (first : FirstOnce l) (halts : Halts l r (x ++ s ++ y)) : Halts l r s := by
  obtain ⟨n, ends⟩ := halts
  induction n generalizing s with
  | zero => exact Normal.halts (Normal.part ends ⟨x, y, rfl⟩)
  | succ n ih =>
    by_cases normal : Normal l s
    · exact normal.halts
    · obtain ⟨a, b, rfl⟩ := not_normal_iff.mp normal
      have step : Step l r (a ++ l ++ b) (a ++ r ++ b) := .here a b
      obtain ⟨m, count, later⟩ := first.ends_step ends (step.around x y)
      obtain rfl : n = m := Nat.succ.inj count
      exact (first.halts_step step).mpr (ih later)

/-- A replacement that has an occurrence in it never leaves none. -/
theorem halts_of_not_normal (contains : ¬ Normal l r) : Halts l r s ↔ Normal l s := by
  have all (n : Nat) : ∀ s, Ends l r n s → Normal l s := by
    induction n with
    | zero => exact fun _ ends => ends
    | succ n ih =>
      rintro s ⟨t, ⟨x, y⟩, later⟩
      exact absurd ((ih _ later).part ⟨x, y, rfl⟩) contains
  exact ⟨fun ⟨n, ends⟩ => all n s ends, Normal.halts⟩

/-! ## What is put together anew -/

/-- An occurrence in two texts that have none lies across their border. -/
theorem straddle (left : Normal l s) (right : Normal l t) (occurs : ¬ Normal l (s ++ t)) :
    ∃ p b a q, s = p ++ b ∧ t = a ++ q ∧ b ++ a = l ∧ b ≠ [] ∧ a ≠ [] := by
  obtain ⟨x, y, same⟩ := not_normal_iff.mp occurs
  rw [List.append_assoc] at same
  rcases List.append_eq_append_iff.mp same with ⟨d, -, inside⟩ | ⟨d, cut, rest⟩
  · exact absurd ⟨d, y, by rw [inside, List.append_assoc]⟩ right
  · rcases List.append_eq_append_iff.mp rest with ⟨a, whole, -⟩ | ⟨a, whole, tail⟩
    · exact absurd ⟨x, a, by rw [cut, whole, List.append_assoc]⟩ left
    · refine ⟨x, d, a, y, cut, tail, whole.symm, fun none_ => ?_, fun none_ => ?_⟩
      · rw [none_, List.nil_append] at whole
        exact right ⟨[], y, by rw [tail, whole]; rfl⟩
      · rw [none_, List.append_nil] at whole
        exact left ⟨x, [], by rw [cut, whole, List.append_nil]⟩

theorem FirstOnce.not_mem_end (first : FirstOnce l) {c : α} {mid a b : List α} (shape : l = c :: mid) (whole : b ++ a = l)
    (some_ : b ≠ []) : c ∉ a := by
  obtain ⟨c', mid', same, once⟩ := first
  obtain ⟨rfl, rfl⟩ := List.cons.inj (shape.symm.trans same)
  cases b with
  | nil => exact absurd rfl some_
  | cons d b =>
    rw [shape] at whole
    obtain ⟨-, rest⟩ := List.cons.inj whole
    exact fun inside => once (rest ▸ List.mem_append_right b inside)

/-- A beginning of `l` at the end of a text is within a last part that has the first element. -/
theorem FirstOnce.beginning_within (first : FirstOnce l) {c : α} {mid a b p w : List α} (shape : l = c :: mid)
    (whole : b ++ a = l) (cut : x ++ w = p ++ b) (there : c ∈ w) : ∃ w', w = w' ++ b := by
  rcases List.append_eq_append_iff.mp cut with ⟨d, -, inside⟩ | ⟨d, -, longer⟩
  · exact ⟨d, inside⟩
  · cases d with
    | nil => exact ⟨[], longer.symm⟩
    | cons d ds =>
      have apart := first.not_mem_end shape (a := w ++ a) (b := d :: ds)
        (by rw [← List.append_assoc, ← longer, whole]) (List.cons_ne_nil d ds)
      exact absurd (List.mem_append_left a there) apart

/-! ## Where every text comes to an end -/

theorem FirstOnce.nonempty (first : FirstOnce l) : l ≠ [] := by
  obtain ⟨c, mid, shape, -⟩ := first
  rw [shape]
  exact List.cons_ne_nil c mid

/-- It is enough that a text without an occurrence comes to an end when `r` is put behind it. -/
theorem halts_all (first : FirstOnce l) (each : ∀ u, Normal l u → Halts l r (u ++ r)) (s : List α) : Halts l r s := by
  induction s using List.reverseRecOn with
  | nil => exact Normal.halts fun ⟨x, y, same⟩ => by simp [first.nonempty] at same
  | append_singleton s c ih =>
    obtain ⟨u, reach, normal⟩ := ih.normal_form
    rw [first.halts_reach (reach_before reach [c])]
    by_cases done : Normal l (u ++ [c])
    · exact done.halts
    · obtain ⟨x, y, same⟩ := not_normal_iff.mp done
      rcases List.eq_nil_or_concat y with rfl | ⟨y, d, rfl⟩
      · rw [List.append_nil] at same
        have step : Step l r (u ++ [c]) (x ++ r) := by
          rw [same]
          have here := Step.here (l := l) (r := r) x []
          rwa [List.append_nil, List.append_nil] at here
        obtain ⟨mid, d, shape⟩ := List.eq_nil_or_concat l |>.resolve_left first.nonempty
        rw [shape, List.concat_eq_append, ← List.append_assoc] at same
        have before : u = x ++ mid := (List.append_inj' same rfl).1
        rw [first.halts_step step]
        exact each x (normal.part ⟨[], mid, before.symm⟩)
      · rw [List.concat_eq_append, ← List.append_assoc] at same
        have before : u = x ++ l ++ y := (List.append_inj' same rfl).1
        exact absurd ⟨x, y, before.symm⟩ normal

/-- Each step takes a first element away, where none is put back. -/
theorem halts_of_not_mem (first : FirstOnce l) {c : α} {mid : List α} (shape : l = c :: mid) (none_ : c ∉ r) (s : List α) :
    Halts l r s := by
  classical
  have within (n : Nat) : ∀ s : List α, s.count c ≤ n → Halts l r s := by
    induction n with
    | zero =>
      intro s few
      refine Normal.halts fun ⟨x, y, same⟩ => ?_
      have some_ : 0 < s.count c := List.count_pos_iff.mpr (by rw [← same, shape]; simp)
      omega
    | succ n ih =>
      intro s few
      by_cases normal : Normal l s
      · exact normal.halts
      · obtain ⟨x, y, rfl⟩ := not_normal_iff.mp normal
        rw [first.halts_step (.here x y)]
        apply ih
        have taken : l.count c = 1 + mid.count c := by rw [shape, List.count_cons_self, Nat.add_comm]
        have put : r.count c = 0 := List.count_eq_zero_of_not_mem none_
        simp only [List.count_append] at few ⊢
        omega
  exact within _ s le_rfl

/-- After an end of `l` at the beginning of `r` is used up, what is left of `r` makes no occurrence with the `r` before it. -/
def Fresh (l r : List α) : Prop := ∀ a q, r = a ++ q → a ≠ [] → a <:+ l → Normal l (r ++ q)

theorem halts_of_fresh (first : FirstOnce l) (plain : Normal l r) (fresh : Fresh l r) (s : List α) : Halts l r s := by
  obtain ⟨c, mid, shape, -⟩ := id first
  by_cases there : c ∈ r
  · -- the normal form ends with a part of `r` that has the first element
    have settles (n : Nat) : ∀ u : List α, u.length ≤ n → Normal l u →
        ∃ v, ReflTransGen (Step l r) (u ++ r) v ∧ Normal l v ∧ ∃ x w, v = x ++ w ∧ w <:+ r ∧ c ∈ w := by
      induction n with
      | zero =>
        intro u short normal
        rw [List.eq_nil_of_length_eq_zero (Nat.le_zero.mp short)]
        exact ⟨r, .refl, plain, [], r, rfl, List.suffix_rfl, there⟩
      | succ n ih =>
        intro u short normal
        by_cases done : Normal l (u ++ r)
        · exact ⟨u ++ r, .refl, done, u, r, rfl, List.suffix_rfl, there⟩
        · obtain ⟨p, b, a, q, rfl, same, whole, someb, somea⟩ := straddle normal plain done
          have positive := List.length_pos_iff.mpr someb
          rw [List.length_append] at short
          obtain ⟨v, reach, settled, x, w, rfl, part, inside⟩ := ih p (by omega) (normal.part ⟨[], b, rfl⟩)
          have begins : p ++ b ++ r = p ++ l ++ q := by
            rw [same, ← whole]
            simp only [List.append_assoc]
          have rest : c ∈ q := by
            rw [same, List.mem_append] at there
            exact there.resolve_left (first.not_mem_end shape whole someb)
          refine ⟨x ++ w ++ q, ?_, ?_, x ++ w, q, rfl, ⟨a, same.symm⟩, rest⟩
          · rw [begins]
            exact .head (.here p q) (reach_before reach q)
          · by_contra occurs
            obtain ⟨p', b', a', q', cut, tail, whole', -, -⟩ :=
              straddle settled (plain.part ⟨a, [], by rw [List.append_nil, ← same]⟩) occurs
            obtain ⟨w', ended⟩ := first.beginning_within shape whole' cut inside
            obtain ⟨r', start⟩ := part
            refine fresh a q same somea ⟨b, whole⟩ ⟨r' ++ w', q', ?_⟩
            rw [← start, ended, tail, ← whole']
            simp only [List.append_assoc]
    refine halts_all first (fun u normal => ?_) s
    obtain ⟨v, reach, settled, -⟩ := settles _ u le_rfl normal
    exact (first.halts_reach reach).mpr settled.halts
  · exact halts_of_not_mem first shape there s

/-! ## The same from the other side -/

theorem Step.reversed (step : Step l r s t) : Step l.reverse r.reverse s.reverse t.reverse := by
  obtain ⟨x, y⟩ := step
  simp only [List.reverse_append, ← List.append_assoc]
  exact .here _ _

theorem normal_reverse : Normal l.reverse s.reverse ↔ Normal l s := not_congr List.reverse_infix

theorem Ends.reversed (ends : Ends l r n s) : Ends l.reverse r.reverse n s.reverse := by
  induction n generalizing s with
  | zero => exact normal_reverse.mpr ends
  | succ n ih =>
    obtain ⟨t, step, later⟩ := ends
    exact ⟨t.reverse, step.reversed, ih later⟩

theorem halts_reverse : Halts l.reverse r.reverse s.reverse ↔ Halts l r s := by
  constructor
  · rintro ⟨n, ends⟩
    have back := ends.reversed
    simp only [List.reverse_reverse] at back
    exact ⟨n, back⟩
  · rintro ⟨n, ends⟩
    exact ⟨n, ends.reversed⟩

theorem LastOnce.reversed (last : LastOnce l) : FirstOnce l.reverse := by
  obtain ⟨c, mid, shape, once⟩ := last
  exact ⟨c, mid.reverse, by rw [shape, List.reverse_append]; rfl, by rwa [List.mem_reverse]⟩

/-- After a beginning of `l` at the end of `r` is used up, what is left of `r` makes no occurrence with the `r` behind it. -/
def FreshBehind (l r : List α) : Prop := ∀ b q, r = q ++ b → b ≠ [] → b <+: l → Normal l (q ++ r)

theorem halts_of_freshBehind (last : LastOnce l) (plain : Normal l r) (fresh : FreshBehind l r) (s : List α) : Halts l r s := by
  refine halts_reverse.mp (halts_of_fresh last.reversed (normal_reverse.mpr plain) (fun a q cut some_ ends => ?_) s.reverse)
  have back : r = q.reverse ++ a.reverse := by rw [← List.reverse_append, ← cut, List.reverse_reverse]
  have normal := fresh a.reverse q.reverse back (by simpa using some_)
    (by rw [← List.reverse_suffix, List.reverse_reverse]; exact ends)
  rw [← normal_reverse, List.reverse_append, List.reverse_reverse] at normal
  exact normal

/-! ## A replacement that regrows what it replaces -/

/-- `r` begins with two ends of `l`, and ends with two beginnings that go with them. -/
structure Regrowth (l r : List α) where
  first_end : List α
  second_end : List α
  first_beginning : List α
  second_beginning : List α
  after : List α
  before : List α
  ends : r = first_end ++ second_end ++ after
  begins : r = before ++ second_beginning ++ first_beginning
  outer : second_beginning ++ first_end = l
  inner : first_beginning ++ second_end = l
  end_some : first_end ≠ []
  beginning_some : first_beginning ≠ []

def Regrows (l r : List α) : Prop := Nonempty (Regrowth l r)

/-- Two ends of `l` that begin one text are one. -/
theorem LastOnce.end_unique (last : LastOnce l) {a a' b b' q q' : List α} (whole : b ++ a = l) (whole' : b' ++ a' = l)
    (some_ : a ≠ []) (some' : a' ≠ []) (same : a ++ q = a' ++ q') : a = a' := by
  obtain ⟨c, mid, shape, once⟩ := last
  have ended {a b : List α} (whole : b ++ a = l) (some_ : a ≠ []) : ∃ d, a = d ++ [c] ∧ c ∉ d := by
    obtain ⟨d, e, rfl⟩ := List.eq_nil_or_concat a |>.resolve_left some_
    rw [List.concat_eq_append] at whole ⊢
    rw [shape, ← List.append_assoc] at whole
    obtain ⟨inside, last⟩ := List.append_inj' whole rfl
    obtain rfl := (List.cons.inj last).1
    exact ⟨d, rfl, fun member => once (inside ▸ List.mem_append_right b member)⟩
  obtain ⟨d, rfl, none_⟩ := ended whole some_
  obtain ⟨d', rfl, none'⟩ := ended whole' some'
  rw [List.append_assoc, List.append_assoc] at same
  rcases List.append_eq_append_iff.mp same with ⟨e, longer, rest⟩ | ⟨e, longer, rest⟩
  · cases e with
    | nil => rw [longer, List.append_nil]
    | cons e es =>
      obtain ⟨here, -⟩ := List.cons.inj rest
      exact absurd (longer ▸ List.mem_append_right d (here ▸ List.mem_cons_self)) none'
  · cases e with
    | nil => rw [longer, List.append_nil]
    | cons e es =>
      obtain ⟨here, -⟩ := List.cons.inj rest
      exact absurd (longer ▸ List.mem_append_right d' (here ▸ List.mem_cons_self)) none_

theorem FirstOnce.reversed (first : FirstOnce l) : LastOnce l.reverse := by
  obtain ⟨c, mid, shape, once⟩ := first
  exact ⟨c, mid.reverse, by rw [shape, List.reverse_cons], by rwa [List.mem_reverse]⟩

/-- Two beginnings of `l` that end one text are one. -/
theorem FirstOnce.beginning_unique (first : FirstOnce l) {a a' b b' p p' : List α} (whole : b ++ a = l) (whole' : b' ++ a' = l)
    (some_ : b ≠ []) (some' : b' ≠ []) (same : p ++ b = p' ++ b') : b = b' := by
  have back {a b : List α} (whole : b ++ a = l) : a.reverse ++ b.reverse = l.reverse := by
    rw [← List.reverse_append, whole]
  have mirrored := congrArg List.reverse same
  rw [List.reverse_append, List.reverse_append] at mirrored
  have one := first.reversed.end_unique (back whole) (back whole') (by simpa using some_) (by simpa using some') mirrored
  exact List.reverse_injective one

/-- Every text comes to an end where `r` has no occurrence in it and does not regrow one. -/
theorem halts_of_not_regrows (first : FirstOnce l) (last : LastOnce l) (plain : Normal l r) (never : ¬ Regrows l r)
    (s : List α) : Halts l r s := by
  by_cases fresh : Fresh l r
  · exact halts_of_fresh first plain fresh s
  by_cases behind : FreshBehind l r
  · exact halts_of_freshBehind last plain behind s
  simp only [Fresh, FreshBehind, not_forall] at fresh behind
  obtain ⟨a, q, cut, some_, ⟨b', whole'⟩, occurs⟩ := fresh
  obtain ⟨b, q', cut', someb, ⟨a', whole''⟩, occurs'⟩ := behind
  obtain ⟨p₁, b₁, a₂, q₁, ended, rest, inner, someb₁, somea₂⟩ :=
    straddle plain (plain.part ⟨a, [], by rw [List.append_nil, cut]⟩) occurs
  obtain ⟨p₂, b₂, a₁, q₂, before, begun, outer, someb₂, somea₁⟩ :=
    straddle (plain.part ⟨[], b, by rw [List.nil_append, cut']⟩) plain occurs'
  obtain rfl := last.end_unique whole' outer some_ somea₁ (cut.symm.trans begun)
  obtain rfl := first.beginning_unique whole'' inner someb someb₁ (cut'.symm.trans ended)
  exact absurd ⟨⟨a, a₂, b, b₂, q₁, p₂, by rw [cut, rest, List.append_assoc], by rw [cut', before], outer, inner, some_, someb⟩⟩ never

/-- Beside an occurrence there is what makes another one of what replaces it. -/
def Regrowth.Beside (g : Regrowth l r) (s : List α) : Prop := g.second_beginning ++ l <:+: s ∨ l ++ g.second_end <:+: s

theorem Regrowth.left (g : Regrowth l r) : g.second_beginning ++ r = l ++ g.second_end ++ g.after :=
  calc g.second_beginning ++ r = g.second_beginning ++ (g.first_end ++ g.second_end ++ g.after) := congrArg _ g.ends
    _ = (g.second_beginning ++ g.first_end) ++ g.second_end ++ g.after := by simp only [List.append_assoc]
    _ = l ++ g.second_end ++ g.after := by rw [g.outer]

theorem Regrowth.right (g : Regrowth l r) : r ++ g.second_end = g.before ++ (g.second_beginning ++ l) :=
  calc r ++ g.second_end = (g.before ++ g.second_beginning ++ g.first_beginning) ++ g.second_end := congrArg (· ++ _) g.begins
    _ = g.before ++ (g.second_beginning ++ (g.first_beginning ++ g.second_end)) := by simp only [List.append_assoc]
    _ = g.before ++ (g.second_beginning ++ l) := by rw [g.inner]

theorem Regrowth.endless (g : Regrowth l r) (first : FirstOnce l) (beside : g.Beside s) : ¬ Halts l r s := by
  rintro ⟨n, ends⟩
  induction n generalizing s with
  | zero =>
    rcases beside with ⟨x, y, rfl⟩ | ⟨x, y, rfl⟩
    · exact ends ⟨x ++ g.second_beginning, y, by simp only [List.append_assoc]⟩
    · exact ends ⟨x, g.second_end ++ y, by simp only [List.append_assoc]⟩
  | succ n ih =>
    rcases beside with ⟨x, y, rfl⟩ | ⟨x, y, rfl⟩
    · have step : Step l r (x ++ (g.second_beginning ++ l) ++ y) (x ++ (g.second_beginning ++ r) ++ y) := by
        have here := Step.here (l := l) (r := r) (x ++ g.second_beginning) y
        simpa only [List.append_assoc] using here
      obtain ⟨m, count, later⟩ := first.ends_step ends step
      obtain rfl : n = m := Nat.succ.inj count
      refine ih (Or.inr ⟨x, g.after ++ y, ?_⟩) later
      rw [g.left]
      simp only [List.append_assoc]
    · have step : Step l r (x ++ (l ++ g.second_end) ++ y) (x ++ (r ++ g.second_end) ++ y) := by
        have here := Step.here (l := l) (r := r) x (g.second_end ++ y)
        simpa only [List.append_assoc] using here
      obtain ⟨m, count, later⟩ := first.ends_step ends step
      obtain rfl : n = m := Nat.succ.inj count
      refine ih (Or.inl ⟨x ++ g.before, y, ?_⟩) later
      rw [g.right]
      simp only [List.append_assoc]

/-- The last occurrence, and what stands behind it. -/
theorem last_occurrence (first : FirstOnce l) (occurs : ¬ Normal l s) : ∃ x w, s = x ++ l ++ w ∧ Normal l w := by
  have within (n : Nat) : ∀ x y : List α, y.length ≤ n → ∃ x' w, x ++ l ++ y = x' ++ l ++ w ∧ Normal l w := by
    induction n with
    | zero =>
      intro x y short
      rw [List.eq_nil_of_length_eq_zero (Nat.le_zero.mp short)]
      exact ⟨x, [], rfl, fun ⟨a, b, same⟩ => by simp [first.nonempty] at same⟩
    | succ n ih =>
      intro x y short
      by_cases normal : Normal l y
      · exact ⟨x, y, rfl, normal⟩
      · obtain ⟨a, b, rfl⟩ := not_normal_iff.mp normal
        have positive := List.length_pos_iff.mpr first.nonempty
        simp only [List.length_append] at short
        obtain ⟨x', w, same, done⟩ := ih (x ++ l ++ a) b (by omega)
        exact ⟨x', w, by rw [← same]; simp only [List.append_assoc], done⟩
  obtain ⟨x, y, rfl⟩ := not_normal_iff.mp occurs
  exact within _ x y le_rfl

end Step

/-! ## All occurrences at once -/

section Texts
open Text
variable {l r s : Str}

theorem occurs_iff : occurs l s = true ↔ l <:+: s := by
  induction s with
  | nil =>
    rw [occurs, List.isEmpty_iff, List.infix_nil]
  | cons c s ih => rw [occurs, Bool.or_eq_true, ih, List.isPrefixOf_iff_prefix, List.infix_cons_iff]

theorem normal_iff : Normal l s ↔ occurs l s = false := by
  rw [Normal, ← occurs_iff, Bool.not_eq_true]

theorem replaceAll_normal (normal : Normal l s) : replaceAll l r s = s := replaceAll_of_not_occurs (normal_iff.mp normal)

theorem reach_replaceAll (some_ : l ≠ []) (s : Str) : ReflTransGen (Step l r) s (replaceAll l r s) := by
  induction s using separator_induction some_ with
  | nil => rw [replaceAll_nil some_]
  | starts s ih =>
    rw [replaceAll_starts some_]
    exact .head (.here [] s) (reach_after ih r)
  | cons c s other ih =>
    rw [replaceAll_cons other]
    exact reach_after ih [c]

theorem replaceAll_around (first : FirstOnce l) (x y : Str) :
    replaceAll l r (x ++ l ++ y) = replaceAll l r x ++ r ++ replaceAll l r y := by
  have within (n : Nat) : ∀ x : Str, x.length ≤ n → replaceAll l r (x ++ l ++ y) = replaceAll l r x ++ r ++ replaceAll l r y := by
    induction n with
    | zero =>
      intro x short
      rw [List.eq_nil_of_length_eq_zero (Nat.le_zero.mp short), replaceAll_nil first.nonempty]
      exact replaceAll_starts first.nonempty y
    | succ n ih =>
      intro x short
      cases x with
      | nil =>
        rw [replaceAll_nil first.nonempty]
        exact replaceAll_starts first.nonempty y
      | cons c x =>
        by_cases starts : l <+: (c :: x) ++ l ++ y
        · obtain ⟨rest, same⟩ := starts
          have whole : [] ++ l ++ rest = (c :: x) ++ l ++ y := same
          rcases first.apart whole with ⟨none_, -⟩ | ⟨z, longer, -⟩ | ⟨z, shorter, -⟩
          · cases none_
          · rw [List.nil_append] at longer
            have positive := List.length_pos_iff.mpr first.nonempty
            have counted := congrArg List.length longer
            rw [List.length_append] at counted
            rw [longer, List.append_assoc, List.append_assoc, replaceAll_starts first.nonempty, replaceAll_starts first.nonempty,
              ← List.append_assoc, ih z (by omega)]
            simp only [List.append_assoc]
          · simp at shorter
        · have begun : ¬ l <+: c :: x := fun ⟨rest, same⟩ => starts ⟨rest ++ l ++ y, by rw [← same]; simp only [List.append_assoc]⟩
          have apart {s : Str} (other : ¬ l <+: c :: s) : replaceAll l r (c :: s) = c :: replaceAll l r s :=
            replaceAll_cons (Bool.eq_false_iff.mpr fun found => other (List.isPrefixOf_iff_prefix.mp found))
          rw [List.cons_append, List.cons_append] at starts ⊢
          rw [apart starts, apart begun, ih x (Nat.le_of_succ_le_succ short)]
          rfl
  exact within _ x le_rfl

/-- A regrowing replacement comes to an end only where all at once it leaves nothing to replace. -/
theorem Regrowth.normal_of_halts (g : Regrowth l r) (first : FirstOnce l) (last : LastOnce l) (plain : Normal l r)
    (halts : Halts l r s) : Normal l (replaceAll l r s) := by
  have within (n : Nat) : ∀ s : Str, s.length ≤ n → Halts l r s → Normal l (replaceAll l r s) := by
    induction n with
    | zero =>
      intro s short _
      rw [List.eq_nil_of_length_eq_zero (Nat.le_zero.mp short), replaceAll_nil first.nonempty]
      exact fun ⟨a, b, same⟩ => by simp [first.nonempty] at same
    | succ n ih =>
      intro s short halts
      by_cases normal : Normal l s
      · rwa [replaceAll_normal normal]
      obtain ⟨x, w, rfl, rest⟩ := last_occurrence first normal
      have positive := List.length_pos_iff.mpr first.nonempty
      rw [List.length_append, List.length_append] at short
      rw [replaceAll_around first, replaceAll_normal rest]
      have start : Halts l r (x ++ l) := first.halts_part (x := []) (y := w) (by rwa [List.nil_append])
      have before : Normal l (replaceAll l r x) := by
        refine ih x (by omega) (first.halts_part (x := []) (y := l ++ w) ?_)
        rwa [List.nil_append, ← List.append_assoc]
      have joined : Normal l (replaceAll l r x ++ r) := by
        by_contra occurs
        obtain ⟨p, b, a, q, cut, begun, whole, someb, somea⟩ := straddle before plain occurs
        obtain rfl := last.end_unique whole g.outer somea g.end_some
          (begun.symm.trans (g.ends.trans (List.append_assoc _ _ _)))
        have same : b = g.second_beginning := List.append_cancel_right (whole.trans g.outer.symm)
        refine g.endless first (Or.inl ⟨p, [], ?_⟩)
          ((first.halts_reach (reach_before (reach_replaceAll first.nonempty x) l)).mp start)
        rw [cut, same, List.append_nil, List.append_assoc]
      by_contra occurs
      obtain ⟨p, b, a, q, cut, begun, whole, someb, somea⟩ := straddle joined rest occurs
      obtain ⟨c, mid, shape, -⟩ := id first
      have inside : c ∈ r := by
        have start : c ∈ g.first_beginning := by
          have whole := g.inner.trans shape
          obtain ⟨d, ds, form⟩ := List.exists_cons_of_ne_nil g.beginning_some
          rw [form] at whole
          rw [form, (List.cons.inj whole).1]
          exact List.mem_cons_self
        rw [g.begins]
        exact List.mem_append_right _ start
      obtain ⟨r', ended⟩ := first.beginning_within shape whole cut inside
      obtain rfl := first.beginning_unique whole g.inner someb g.beginning_some (ended.symm.trans g.begins)
      have same : a = g.second_end := List.append_cancel_left (whole.trans g.inner.symm)
      refine g.endless first (Or.inr ⟨x, q, ?_⟩) halts
      rw [begun, same]
      simp only [List.append_assoc]
  exact within _ s le_rfl halts

/-- Replacing comes to an end exactly where nothing is to be replaced, or the replacement has no occurrence in it and
either does not regrow one, or all at once leaves none. -/
theorem halts_iff (first : FirstOnce l) (last : LastOnce l) :
    Halts l r s ↔ Normal l s ∨ Normal l r ∧ (Regrows l r → Normal l (replaceAll l r s)) := by
  by_cases plain : Normal l r
  · constructor
    · exact fun halts => Or.inr ⟨plain, fun ⟨g⟩ => g.normal_of_halts first last plain halts⟩
    · rintro (normal | ⟨-, once⟩)
      · exact normal.halts
      · by_cases regrows : Regrows l r
        · exact (first.halts_reach (reach_replaceAll first.nonempty s)).mpr (once regrows).halts
        · exact halts_of_not_regrows first last plain regrows s
  · rw [halts_of_not_normal plain]
    exact ⟨Or.inl, fun either => either.resolve_right fun both => plain both.1⟩

end Texts
end Sarracenia.Library.Rewriting
