import Mathlib.Data.List.TakeWhile
import Sarracenia.Library.Split

/-!
# Replacing step by step

A replacement passes over a character where the text to be replaced does not start, and
over the whole of it where it does; a character that cannot be part of it cuts the work in two.
-/
namespace Sarracenia.Library.Text

section Replace
variable {old new : Str}

theorem replaceAll_nil (some_ : old ≠ []) : replaceAll old new [] = [] := replaceAll_of_not_occurs (by
  cases old with
  | nil => exact absurd rfl some_
  | cons c old => rfl)

theorem replaceAll_cons {c : Char} {s : Str} (other : old.isPrefixOf (c :: s) = false) :
    replaceAll old new (c :: s) = c :: replaceAll old new s := by
  obtain ⟨piece, rest, pieces, longer⟩ := splitFrom_cons old other
  unfold replaceAll split
  rw [longer, pieces]
  cases rest with
  | nil => rw [join_singleton, join_singleton]
  | cons next rest => rw [join_cons_cons, join_cons_cons, List.append_assoc, List.append_assoc, List.cons_append]

theorem splitFrom_skip (a s : Str) : splitFrom old a.length (a ++ s) = splitFrom old 0 s := by
  induction a with
  | nil => rfl
  | cons c a ih =>
    rw [List.length_cons, List.cons_append, splitFrom, if_pos (Nat.succ_pos _), Nat.add_sub_cancel, ih]

theorem replaceAll_starts (some_ : old ≠ []) (s : Str) : replaceAll old new (old ++ s) = new ++ replaceAll old new s := by
  cases old with
  | nil => exact absurd rfl some_
  | cons c old =>
    have starts : (c :: old).isPrefixOf (c :: (old ++ s)) = true :=
      List.isPrefixOf_iff_prefix.mpr ⟨s, rfl⟩
    have pieces := splitFrom_starts (c :: old) starts
    rw [List.length_cons, Nat.add_sub_cancel, splitFrom_skip] at pieces
    unfold replaceAll split
    rw [List.cons_append, pieces]
    cases rest : splitFrom (c :: old) 0 s with
    | nil => exact absurd rest (splitFrom_ne_nil _ 0 s)
    | cons piece rest => rw [join_cons_cons, List.nil_append]

theorem split_starts (some_ : old ≠ []) (s : Str) : split old (old ++ s) = [] :: split old s := by
  cases old with
  | nil => exact absurd rfl some_
  | cons c old =>
    have starts : (c :: old).isPrefixOf (c :: (old ++ s)) = true := List.isPrefixOf_iff_prefix.mpr ⟨s, rfl⟩
    have pieces := splitFrom_starts (c :: old) starts
    rwa [List.length_cons, Nat.add_sub_cancel, splitFrom_skip] at pieces

/-- What is said of no text, of one behind a separator and of one behind a character where none starts is said of all. -/
theorem separator_induction {P : Str → Prop} (some_ : old ≠ []) (nil : P []) (starts : ∀ s, P s → P (old ++ s))
    (cons : ∀ c s, old.isPrefixOf (c :: s) = false → P s → P (c :: s)) (s : Str) : P s := by
  have within (n : Nat) : ∀ s : Str, s.length ≤ n → P s := by
    induction n with
    | zero =>
      intro s short
      rw [List.eq_nil_of_length_eq_zero (Nat.le_zero.mp short)]
      exact nil
    | succ n ih =>
      intro s short
      cases s with
      | nil => exact nil
      | cons c s =>
        cases begins : old.isPrefixOf (c :: s) with
        | true =>
          obtain ⟨rest, same⟩ := List.isPrefixOf_iff_prefix.mp begins
          have positive := List.length_pos_iff.mpr some_
          have counted := congrArg List.length same
          rw [List.length_append] at counted
          rw [← same]
          exact starts rest (ih rest (by omega))
        | false => exact cons c s begins (ih s (Nat.le_of_succ_le_succ short))
  exact within _ s le_rfl

theorem join_split (some_ : old ≠ []) (s : Str) : join old (split old s) = s := by
  induction s using separator_induction some_ with
  | nil => exact replaceAll_nil some_
  | starts s ih =>
    have turn : replaceAll old old (old ++ s) = old ++ replaceAll old old s := replaceAll_starts some_ s
    unfold replaceAll at turn
    rw [turn, ih]
  | cons c s other ih =>
    have turn : replaceAll old old (c :: s) = c :: replaceAll old old s := replaceAll_cons other
    unfold replaceAll at turn
    rw [turn, ih]

/-- No separator is left in a piece. -/
theorem split_pieces (some_ : old ≠ []) (s : Str) : ∀ piece ∈ split old s, occurs old piece = false := by
  induction s using separator_induction some_ with
  | nil =>
    intro piece member
    rw [List.mem_singleton.mp member, occurs, List.isEmpty_eq_false_iff]
    exact some_
  | starts s ih =>
    rw [split_starts some_, List.forall_mem_cons, occurs, List.isEmpty_eq_false_iff]
    exact ⟨some_, ih⟩
  | cons c s other ih =>
    obtain ⟨piece, rest, pieces, longer⟩ := splitFrom_cons old other
    have whole := join_split some_ s
    unfold split at ih whole ⊢
    rw [pieces, List.forall_mem_cons] at ih
    rw [pieces] at whole
    have begins : piece <+: s := by
      rw [← whole]
      cases rest with
      | nil => exact (congrArg (piece <+: ·) (join_singleton old piece)).mpr List.prefix_rfl
      | cons next rest =>
        rw [join_cons_cons, List.append_assoc]
        exact List.prefix_append _ _
    rw [longer, List.forall_mem_cons, occurs, ih.1, Bool.or_false, Bool.eq_false_iff]
    refine ⟨fun starts => ?_, ih.2⟩
    have longer := (List.isPrefixOf_iff_prefix.mp starts).trans (List.cons_prefix_cons.mpr ⟨rfl, begins⟩)
    rw [List.isPrefixOf_iff_prefix.mpr longer] at other
    cases other

/-- What stands before every start of the text to be replaced is kept. -/
theorem replaceAll_append {before s : Str}
    (other : ∀ a b, before = a ++ b → b ≠ [] → old.isPrefixOf (b ++ s) = false) :
    replaceAll old new (before ++ s) = before ++ replaceAll old new s := by
  induction before with
  | nil => rfl
  | cons c before ih =>
    have here := other [] (c :: before) rfl (List.cons_ne_nil _ _)
    rw [List.cons_append] at here
    rw [List.cons_append, replaceAll_cons here, ih fun a b same => other (c :: a) b (congrArg (List.cons c) same)]
    rfl

/-- No character comes from elsewhere. -/
theorem replaceAll_subset (some_ : old ≠ []) {s : Str} {c : Char} (member : c ∈ replaceAll old new s) : c ∈ new ∨ c ∈ s := by
  induction count : s.length using Nat.strong_induction_on generalizing s with
  | _ n ih =>
    cases s with
    | nil =>
      rw [replaceAll_nil some_] at member
      cases member
    | cons d s =>
      cases starts : old.isPrefixOf (d :: s) with
      | true =>
        obtain ⟨rest, whole⟩ := List.isPrefixOf_iff_prefix.mp starts
        have shorter : rest.length < n := by
          have pos := List.length_pos_iff.mpr some_
          rw [← count, ← whole, List.length_append]
          omega
        rw [← whole, replaceAll_starts some_, List.mem_append] at member
        rcases member with here | member
        · exact .inl here
        · rcases ih _ shorter member rfl with here | inside
          · exact .inl here
          · exact .inr (whole ▸ List.mem_append_right _ inside)
      | false =>
        rw [replaceAll_cons starts, List.mem_cons] at member
        rcases member with rfl | member
        · exact .inr List.mem_cons_self
        · rcases ih s.length (by rw [← count, List.length_cons]; omega) member rfl with here | inside
          · exact .inl here
          · exact .inr (List.mem_cons_of_mem _ inside)

theorem join_cons (x : Str) (pieces : List Str) : join old (x :: pieces) = x ++ (pieces.map fun piece => old ++ piece).flatten := by
  induction pieces generalizing x with
  | nil => rw [join_singleton, List.map_nil, List.flatten_nil, List.append_nil]
  | cons y pieces ih => rw [join_cons_cons, ih, List.map_cons, List.flatten_cons, List.append_assoc, List.append_assoc]

end Replace

section Find
variable {c : Char} {s a b : Str}

theorem find_none_iff : find [c] s = none ↔ c ∉ s := by
  induction s with
  | nil => simp [find]
  | cons d s ih =>
    by_cases same : c = d
    · simp [find, same]
    · simp [find, same, ih]

theorem find_cut (plain : c ∉ a) : find [c] (a ++ c :: b) = some a.length := by
  induction a with
  | nil => simp [find]
  | cons d a ih =>
    rw [List.mem_cons, not_or] at plain
    simp [find, plain.1, ih plain.2]

end Find

section Boundary
variable {old new : Str} (cuts : Char → Bool)

/-- A text in which no character cuts, before one that is empty or starts with one that does. -/
structure Cut (whole rest : Str) : Prop where
  plain : ∀ c ∈ whole, cuts c = false
  next : ∀ c, rest.head? = some c → cuts c = true

variable {cuts}

/-- What cuts once cuts once only. -/
theorem Cut.unique {a b c d : Str} (one : Cut cuts a b) (two : Cut cuts c d) (same : a ++ b = c ++ d) : a = c ∧ b = d := by
  induction a generalizing c with
  | nil =>
    cases c with
    | nil => exact ⟨rfl, same⟩
    | cons x c =>
      have first : b.head? = some x := by rw [show b = x :: c ++ d from same]; rfl
      have cut := one.next x first
      rw [two.plain x List.mem_cons_self] at cut
      cases cut
  | cons x a ih =>
    cases c with
    | nil =>
      have first : d.head? = some x := by rw [show d = x :: a ++ b from same.symm]; rfl
      have cut := two.next x first
      rw [one.plain x List.mem_cons_self] at cut
      cases cut
    | cons y c =>
      rw [List.cons_append, List.cons_append] at same
      obtain ⟨rfl, tails⟩ := List.cons.inj same
      have tail : Cut cuts a b := ⟨fun z member => one.plain z (List.mem_cons_of_mem _ member), one.next⟩
      have tail' : Cut cuts c d := ⟨fun z member => two.plain z (List.mem_cons_of_mem _ member), two.next⟩
      obtain ⟨rfl, rfl⟩ := ih tail tail' tails
      exact ⟨rfl, rfl⟩

theorem Cut.takeWhile {a b : Str} (cut : Cut cuts a b) : (a ++ b).takeWhile (!cuts ·) = a := by
  have whole : ∀ c ∈ a, (!cuts c) = true := fun c member => by rw [cut.plain c member]; rfl
  rw [List.takeWhile_append_of_pos whole]
  cases b with
  | nil => exact List.append_nil a
  | cons c b =>
    rw [List.takeWhile_cons_of_neg (by rw [cut.next c rfl]; exact Bool.false_ne_true)]
    exact List.append_nil a

theorem Cut.dropWhile {a b : Str} (cut : Cut cuts a b) : (a ++ b).dropWhile (!cuts ·) = b := by
  have whole : ∀ c ∈ a, (!cuts c) = true := fun c member => by rw [cut.plain c member]; rfl
  rw [List.dropWhile_append_of_pos whole]
  cases b with
  | nil => rfl
  | cons c b => exact List.dropWhile_cons_of_neg (by rw [cut.next c rfl]; exact Bool.false_ne_true)

theorem Cut.of_while (s : Str) : Cut cuts (s.takeWhile (!cuts ·)) (s.dropWhile (!cuts ·)) := by
  refine ⟨fun c member => ?_, fun c first => ?_⟩
  · simpa using List.mem_takeWhile_imp member
  · have stops := List.head?_dropWhile_not (fun c => !cuts c) s
    rw [first] at stops
    simpa using stops

/-- What is replaced has no character that cuts: the two sides are replaced apart. -/
theorem replaceAll_cut (some_ : old ≠ []) (plain : ∀ c ∈ old, cuts c = false) {a b : Str}
    (next : ∀ c, b.head? = some c → cuts c = true) :
    replaceAll old new (a ++ b) = replaceAll old new a ++ replaceAll old new b := by
  induction count : a.length using Nat.strong_induction_on generalizing a with
  | _ n ih =>
    cases a with
    | nil => rw [replaceAll_nil some_, List.nil_append, List.nil_append]
    | cons c a =>
      have inside (starts : old.isPrefixOf (c :: a ++ b) = true) : old <+: c :: a := by
        have prefix_ := List.isPrefixOf_iff_prefix.mp starts
        rcases Nat.lt_or_ge (c :: a).length old.length with long | short
        · obtain ⟨more, whole⟩ := List.prefix_of_prefix_length_le (List.prefix_append _ b) prefix_ (Nat.le_of_lt long)
          obtain ⟨tail, rest⟩ := prefix_
          rw [← whole, List.append_assoc] at rest
          have behind := List.append_cancel_left rest
          cases more with
          | nil =>
            rw [← whole, List.append_nil] at long
            exact absurd long (Nat.lt_irrefl _)
          | cons d more =>
            have cut := next d (by rw [← behind]; rfl)
            rw [plain d (by rw [← whole]; exact List.mem_append_right _ List.mem_cons_self)] at cut
            cases cut
        · exact List.prefix_of_prefix_length_le prefix_ (List.prefix_append _ b) short
      cases starts : old.isPrefixOf (c :: a ++ b) with
      | true =>
        obtain ⟨rest, whole⟩ := inside starts
        have shorter : rest.length < n := by
          have pos := List.length_pos_iff.mpr some_
          rw [← count, ← whole, List.length_append]
          omega
        rw [← whole, List.append_assoc, replaceAll_starts some_, replaceAll_starts some_, ih _ shorter rfl,
          List.append_assoc]
      | false =>
        have other : old.isPrefixOf (c :: a) = false := by
          rw [Bool.eq_false_iff] at starts ⊢
          intro here
          exact starts (List.isPrefixOf_iff_prefix.mpr ((List.isPrefixOf_iff_prefix.mp here).trans (List.prefix_append _ b)))
        rw [List.cons_append] at starts ⊢
        rw [replaceAll_cons starts, replaceAll_cons other, ih a.length (by rw [← count, List.length_cons]; omega) rfl,
          List.cons_append]

/-- A replacement by nothing keeps the character that cuts. -/
theorem replaceAll_next (some_ : old ≠ []) (plain : ∀ c ∈ old, cuts c = false) {b : Str}
    (next : ∀ c, b.head? = some c → cuts c = true) :
    ∀ c, (replaceAll old new b).head? = some c → cuts c = true := by
  intro c first
  cases b with
  | nil =>
    rw [replaceAll_nil some_] at first
    cases first
  | cons d b =>
    have other : old.isPrefixOf (d :: b) = false := by
      rw [Bool.eq_false_iff]
      intro starts
      obtain ⟨rest, whole⟩ := List.isPrefixOf_iff_prefix.mp starts
      cases old with
      | nil => exact some_ rfl
      | cons e old =>
        obtain rfl : e = d := (List.cons.inj whole).1
        have cut := next e rfl
        rw [plain e List.mem_cons_self] at cut
        cases cut
    rw [replaceAll_cons other] at first
    obtain rfl := Option.some.inj first
    exact next d rfl

end Boundary

section Gone
variable {d : Char} {t u : Str}

/-- Where a text without the first character of what is replaced begins, it began before. -/
theorem prefix_of_replaced (once : d ∉ t) {a s : Str} (plain : d ∉ a) (begins : a <+: replaceAll (d :: t) (d :: u) s) : a <+: s := by
  induction s using separator_induction (List.cons_ne_nil d t) generalizing a with
  | nil => rwa [replaceAll_nil (List.cons_ne_nil d t)] at begins
  | starts s _ =>
    rw [replaceAll_starts (List.cons_ne_nil d t)] at begins
    cases a with
    | nil => exact List.nil_prefix
    | cons e a =>
      obtain rfl := (List.cons_prefix_cons.mp begins).1
      exact absurd List.mem_cons_self plain
  | cons c s other ih =>
    rw [replaceAll_cons other] at begins
    cases a with
    | nil => exact List.nil_prefix
    | cons e a =>
      obtain ⟨same, later⟩ := List.cons_prefix_cons.mp begins
      exact List.cons_prefix_cons.mpr ⟨same, ih (fun there => plain (List.mem_cons_of_mem _ there)) later⟩

theorem occurs_later (plain : d ∉ u) (s : Str) : occurs (d :: t) (u ++ s) = occurs (d :: t) s := by
  induction u with
  | nil => rfl
  | cons c u ih =>
    have other : (d :: t).isPrefixOf (c :: (u ++ s)) = false := by
      rw [Bool.eq_false_iff]
      intro starts
      obtain rfl := (List.cons_prefix_cons.mp (List.isPrefixOf_iff_prefix.mp starts)).1
      exact plain List.mem_cons_self
    rw [List.cons_append, occurs, other, Bool.false_or, ih fun there => plain (List.mem_cons_of_mem _ there)]

/-- One round of replacements leaves nothing to be replaced, where both texts start with a character that is in them but once. -/
theorem replaceAll_gone (once : d ∉ t) (once' : d ∉ u) (apart : ∀ s, ¬ t <+: u ++ s) (s : Str) :
    occurs (d :: t) (replaceAll (d :: t) (d :: u) s) = false := by
  induction s using separator_induction (List.cons_ne_nil d t) with
  | nil =>
    rw [replaceAll_nil (List.cons_ne_nil d t)]
    rfl
  | starts s ih =>
    rw [replaceAll_starts (List.cons_ne_nil d t), List.cons_append, occurs, occurs_later once', ih, Bool.or_false, Bool.eq_false_iff]
    exact fun starts => apart _ (List.cons_prefix_cons.mp (List.isPrefixOf_iff_prefix.mp starts)).2
  | cons c s other ih =>
    rw [replaceAll_cons other, occurs, ih, Bool.or_false, Bool.eq_false_iff]
    intro starts
    obtain ⟨same, later⟩ := List.cons_prefix_cons.mp (List.isPrefixOf_iff_prefix.mp starts)
    have there : d :: t <+: c :: s := List.cons_prefix_cons.mpr ⟨same, prefix_of_replaced once once later⟩
    rw [List.isPrefixOf_iff_prefix.mpr there] at other
    cases other

end Gone
end Sarracenia.Library.Text
