import Mathlib.Data.Nat.Init
import Mathlib.Order.Basic

/-!
# Frames in a stream

A buffer starts with a frame, once enough of it is there to tell its length. The frames of a
stream do not depend on how it is cut.
-/
namespace Sarracenia.Library

/-- How the length of the first frame is told. -/
structure Framing (α : Type) where
  size : List α → Option Nat
  pos : ∀ {b n}, size b = some n → 0 < n
  stable : ∀ {a n} b, size a = some n → size (a ++ b) = some n

namespace Framing
variable {α : Type} (F : Framing α)

/-- The first frame and what comes after it, where the frame is whole. -/
def first (b : List α) : Option (List α × List α) :=
  match F.size b with
  | some n => if n ≤ b.length then some (b.take n, b.drop n) else none
  | none => none

def parseFrom : Nat → List α → List (List α) × List α
  | 0, b => ([], b)
  | fuel + 1, b =>
    match F.first b with
    | none => ([], b)
    | some (f, rest) => (f :: (parseFrom fuel rest).1, (parseFrom fuel rest).2)

/-- The whole frames of a buffer, and what is left. -/
def parse (b : List α) : List (List α) × List α := F.parseFrom b.length b

variable {F} {b f rest : List α}

theorem first_some (whole : F.first b = some (f, rest)) : b = f ++ rest ∧ 0 < f.length := by
  unfold first at whole
  split at whole
  · next n size =>
    split at whole
    · next enough =>
      obtain ⟨rfl, rfl⟩ := Prod.mk.inj (Option.some.inj whole)
      have pos := F.pos size
      exact ⟨(List.take_append_drop n b).symm, by rw [List.length_take]; omega⟩
    · cases whole
  · cases whole

theorem first_append (whole : F.first b = some (f, rest)) (more : List α) :
    F.first (b ++ more) = some (f, rest ++ more) := by
  unfold first at whole ⊢
  split at whole
  · next n size =>
    split at whole
    · next enough =>
      obtain ⟨rfl, rfl⟩ := Prod.mk.inj (Option.some.inj whole)
      have longer : n ≤ (b ++ more).length := by rw [List.length_append]; omega
      rw [F.stable more size]
      dsimp only
      rw [if_pos longer, List.take_append_of_le_length enough, List.drop_append_of_le_length enough]
    · cases whole
  · cases whole

theorem first_nil : F.first [] = none := by
  cases whole : F.first ([] : List α) with
  | none => rfl
  | some split =>
    obtain ⟨empty, pos⟩ := first_some whole
    have none_ := (List.append_eq_nil_iff.mp empty.symm).1
    rw [none_] at pos
    exact absurd pos (Nat.lt_irrefl 0)

theorem parseFrom_succ {n : Nat} (enough : b.length ≤ n) : F.parseFrom (n + 1) b = F.parseFrom n b := by
  induction n generalizing b with
  | zero =>
    obtain rfl := List.eq_nil_of_length_eq_zero (Nat.le_zero.mp enough)
    rw [parseFrom, parseFrom, first_nil]
  | succ n ih =>
    rw [parseFrom, parseFrom]
    cases whole : F.first b with
    | none => rfl
    | some split =>
      obtain ⟨f, rest⟩ := split
      obtain ⟨rfl, pos⟩ := first_some whole
      rw [List.length_append] at enough
      dsimp only
      rw [ih (by omega)]

theorem parseFrom_enough {n : Nat} (enough : b.length ≤ n) : F.parseFrom n b = F.parse b := by
  induction n, enough using Nat.le_induction with
  | base => rfl
  | succ n enough ih => rw [parseFrom_succ enough, ih]

theorem parse_none (part : F.first b = none) : F.parse b = ([], b) := by
  unfold parse
  cases b.length with
  | zero => rfl
  | succ n => rw [parseFrom, part]

theorem parse_some (whole : F.first b = some (f, rest)) :
    F.parse b = (f :: (F.parse rest).1, (F.parse rest).2) := by
  have length := first_some whole
  rw [← parseFrom_enough (Nat.le_succ b.length), parseFrom, whole]
  dsimp only
  rw [parseFrom_enough (by rw [length.1, List.length_append]; omega)]

/-- By cases on whether a whole frame is there, and then for what comes after it. -/
theorem induct {P : List α → Prop} (part : ∀ b, F.first b = none → P b)
    (whole : ∀ b f rest, F.first b = some (f, rest) → P rest → P b) (b : List α) : P b := by
  induction length : b.length using Nat.strong_induction_on generalizing b with
  | _ n ih =>
    cases start : F.first b with
    | none => exact part b start
    | some split =>
      obtain ⟨f, rest⟩ := split
      obtain ⟨rfl, pos⟩ := first_some start
      rw [List.length_append] at length
      exact whole _ f rest start (ih rest.length (by omega) rest rfl)

/-- Nothing is lost or made up. -/
theorem parse_flatten (b : List α) : (F.parse b).1.flatten ++ (F.parse b).2 = b := by
  induction b using F.induct with
  | part b part => rw [parse_none part]; rfl
  | whole b f rest whole ih =>
    rw [parse_some whole, List.flatten_cons, List.append_assoc, ih, (first_some whole).1]

theorem parse_pos (b : List α) : ∀ f ∈ (F.parse b).1, 0 < f.length := by
  induction b using F.induct with
  | part b part =>
    rw [parse_none part]
    exact nofun
  | whole b f rest whole ih =>
    rw [parse_some whole]
    exact List.forall_mem_cons.mpr ⟨(first_some whole).2, ih⟩

/-- What comes later is read from where the whole frames end. -/
theorem parse_append (b more : List α) :
    F.parse (b ++ more) =
      ((F.parse b).1 ++ (F.parse ((F.parse b).2 ++ more)).1, (F.parse ((F.parse b).2 ++ more)).2) := by
  induction b using F.induct with
  | part b part => rw [parse_none part]; rfl
  | whole b f rest whole ih => rw [parse_some (first_append whole more), ih, parse_some whole]; rfl

/-- A stream that is put together from frames and the start of one is read as it was put together. -/
theorem parse_concatenation {frames : List (List α)} {tail : List α}
    (whole : ∀ f ∈ frames, F.first f = some (f, [])) (part : F.first tail = none) :
    F.parse (frames.flatten ++ tail) = (frames, tail) := by
  induction frames with
  | nil => exact parse_none part
  | cons f frames ih =>
    obtain ⟨here, others⟩ := List.forall_mem_cons.mp whole
    rw [List.flatten_cons, List.append_assoc, parse_some (first_append here _), List.nil_append, ih others]

end Framing
end Sarracenia.Library
