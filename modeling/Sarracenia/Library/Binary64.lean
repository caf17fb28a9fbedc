import Mathlib.Data.Int.Log
import Mathlib.Data.Nat.Cast.Field
import Mathlib.Data.Rat.Floor
import Mathlib.Tactic.Linarith
import Mathlib.Tactic.FieldSimp
import Mathlib.Tactic.Positivity
import Sarracenia.Library.Decimal

/-!
# Division of integers in binary64

The quotient of two integers is rounded once, to the nearest number of 53 binary digits. Below `2 ^ 53` its whole
part is still that of the exact quotient.
-/
namespace Sarracenia.Library.Binary64
open Decimal

/-- The distance of the numbers of 53 binary digits next to a positive one. -/
def ulp (q : ℚ) : ℚ := 2 ^ (Int.log 2 q - 52)

/-- The nearest number of 53 binary digits, the even one of two; the smallest ones are not told apart from these. -/
def nearest (q : ℚ) : ℚ := roundHalfEven (q / ulp q) * ulp q

/-- `n / d`, unless it is too large. -/
def trueDivide (n d : Nat) : Option ℚ := if nearest (n / d) < 2 ^ 1024 then some (nearest (n / d)) else none

/-- `int(n / d)` -/
def wholes (n d : Nat) : Option Nat := (trueDivide n d).map fun q => ⌊q⌋₊

section Nearest
variable {q : ℚ}

theorem ulp_pos (q : ℚ) : 0 < ulp q := zpow_pos two_pos _

theorem roundHalfEven_near (q : ℚ) : |(roundHalfEven q : ℚ) - q| ≤ 1 / 2 := by
  have low := Int.floor_le q
  have high := Int.lt_floor_add_one q
  have floor_ : q.floor = ⌊q⌋ := rfl
  unfold roundHalfEven
  dsimp only
  rw [floor_]
  split
  · next near =>
    rw [abs_sub_comm, abs_of_nonneg (by linarith)]
    exact near.le
  · next far =>
    split
    · next above =>
      push_cast
      rw [abs_of_nonneg (by linarith)]
      linarith
    · next below =>
      split
      · rw [abs_sub_comm, abs_of_nonneg (by linarith)]
        linarith
      · push_cast
        rw [abs_of_nonneg (by linarith)]
        linarith

theorem nearest_near (q : ℚ) : |nearest q - q| ≤ ulp q / 2 := by
  have positive := ulp_pos q
  have scaled : nearest q - q = ((roundHalfEven (q / ulp q) : ℚ) - q / ulp q) * ulp q := by
    unfold nearest
    rw [sub_mul, div_mul_cancel₀ _ positive.ne']
  rw [scaled, abs_mul, abs_of_pos positive]
  calc |(roundHalfEven (q / ulp q) : ℚ) - q / ulp q| * ulp q
      ≤ 1 / 2 * ulp q := mul_le_mul_of_nonneg_right (roundHalfEven_near _) positive.le
    _ = ulp q / 2 := by ring

theorem roundHalfEven_intCast (i : Int) : roundHalfEven i = i := by
  have floor_ : (i : ℚ).floor = i := Rat.floor_intCast i
  unfold roundHalfEven
  dsimp only
  rw [floor_, if_pos (by norm_num)]

/-- A whole number of at most 53 binary digits is its own. -/
theorem nearest_natCast (n : Nat) (some_ : 0 < n) (small : n < 2 ^ 53) : nearest n = n := by
  have digits : Nat.log 2 n ≤ 52 := by
    have := Nat.log_lt_of_lt_pow some_.ne' small
    omega
  have unit : ulp n = (2 ^ (52 - Nat.log 2 n) : ℚ)⁻¹ := by
    unfold ulp
    rw [Int.log_natCast, ← zpow_natCast, ← zpow_neg]
    congr 1
    omega
  have whole : (n : ℚ) / ulp n = ((n * 2 ^ (52 - Nat.log 2 n) : Nat) : Int) := by
    rw [unit, div_inv_eq_mul]
    push_cast
    rfl
  unfold nearest
  rw [whole, roundHalfEven_intCast, unit]
  push_cast
  field_simp

/-- Half the distance is less than a part of the denominator, where the numerator is small. -/
theorem half_ulp_lt {n d : Nat} (some_ : 0 < n) (small : n < 2 ^ 53) (parts : 0 < d) :
    ulp ((n : ℚ) / d) / 2 < 1 / (d : ℚ) := by
  have parts' : (0 : ℚ) < d := Nat.cast_pos.mpr parts
  have low := Int.zpow_log_le_self (b := 2) (by norm_num) (div_pos (Nat.cast_pos.mpr some_) parts' : (0 : ℚ) < n / d)
  have unit : ulp ((n : ℚ) / d) = 2 ^ Int.log 2 ((n : ℚ) / d) / 2 ^ 52 := by
    unfold ulp
    rw [zpow_sub₀ two_ne_zero]
    rfl
  have small' : (n : ℚ) < 2 ^ 53 := by exact_mod_cast small
  rw [unit]
  push_cast at low
  calc (2 : ℚ) ^ Int.log 2 ((n : ℚ) / d) / 2 ^ 52 / 2 ≤ (n : ℚ) / d / 2 ^ 52 / 2 := by gcongr
    _ = (n : ℚ) / 2 ^ 53 / d := by ring
    _ < 1 / (d : ℚ) := by
      gcongr
      rw [div_lt_one (by norm_num)]
      exact small'

theorem wholes_of_small {n d : Nat} (small : n < 2 ^ 53) (parts : 0 < d) : wholes n d = some (n / d) := by
  have parts' : (0 : ℚ) < d := Nat.cast_pos.mpr parts
  have bounds : nearest ((n : ℚ) / d) < 2 ^ 53 + 1 ∧ ((n / d : Nat) : ℚ) ≤ nearest ((n : ℚ) / d) ∧
      nearest ((n : ℚ) / d) < (n / d : Nat) + 1 := by
    cases n.eq_zero_or_pos with
    | inl zero =>
      have nothing : nearest 0 = 0 := by
        have whole := roundHalfEven_intCast 0
        rw [Int.cast_zero] at whole
        unfold nearest
        rw [zero_div, whole, Int.cast_zero, zero_mul]
      rw [zero, Nat.cast_zero, zero_div, nothing, Nat.zero_div]
      norm_num
    | inr some_ =>
      have near := abs_le.mp (nearest_near ((n : ℚ) / d))
      have half := half_ulp_lt some_ small parts
      have next : ((n : ℚ) + 1) / d ≤ (n / d : Nat) + 1 := by
        rw [div_le_iff₀ parts']
        exact_mod_cast Nat.lt_mul_of_div_lt (Nat.lt_succ_self (n / d)) parts
      have below : nearest ((n : ℚ) / d) < ((n : ℚ) + 1) / d := by
        rw [add_div]
        linarith [near.2]
      have whole : ((n / d : Nat) : ℚ) ≤ 2 ^ 53 := by exact_mod_cast (Nat.div_le_self n d).trans small.le
      refine ⟨by linarith, ?_, by linarith⟩
      by_cases divides : d ∣ n
      · have exact_ : (n : ℚ) / d = (n / d : Nat) := (Nat.cast_div divides parts'.ne').symm
        rw [exact_, nearest_natCast _ (Nat.div_pos (Nat.le_of_dvd some_ divides) parts) ((Nat.div_le_self n d).trans_lt small)]
      · have more : ((n / d : Nat) : ℚ) ≤ ((n : ℚ) - 1) / d := by
          rw [le_div_iff₀ parts', le_sub_iff_add_le]
          exact_mod_cast lt_of_le_of_ne (Nat.div_mul_le_self n d) fun same => divides ⟨n / d, by rw [Nat.mul_comm, same]⟩
        rw [sub_div] at more
        linarith [near.1]
  unfold wholes trueDivide
  have fits : (2 : ℚ) ^ 53 + 1 ≤ 2 ^ 1024 :=
    (by norm_num : (2 : ℚ) ^ 53 + 1 ≤ 2 ^ 54).trans (pow_le_pow_right₀ one_le_two (by norm_num))
  rw [if_pos (bounds.1.trans_le fits), Option.map_some, (Nat.floor_eq_iff ((Nat.cast_nonneg _).trans bounds.2.1)).mpr bounds.2]

/-- A tie, which goes to the even number. -/
theorem wholes_tie : wholes (2 ^ 53 + 1) 1 = some (2 ^ 53) := by
  have digits : Nat.log 2 (2 ^ 53 + 1) = 53 := Nat.log_eq_of_pow_le_of_lt_pow (by norm_num) (by norm_num)
  have unit : ulp ((2 ^ 53 + 1 : Nat) : ℚ) = 2 := by
    unfold ulp
    rw [Int.log_natCast, digits]
    norm_num
  have floor_ : ((2 ^ 53 + 1 : Nat) / 2 : ℚ).floor = 2 ^ 52 := by
    change ⌊((2 ^ 53 + 1 : Nat) / 2 : ℚ)⌋ = 2 ^ 52
    rw [Int.floor_eq_iff]
    norm_num
  have rounded : nearest ((2 ^ 53 + 1 : Nat) / (1 : Nat) : ℚ) = ((2 ^ 53 : Nat) : ℚ) := by
    rw [Nat.cast_one, div_one]
    unfold nearest roundHalfEven
    dsimp only
    rw [unit, floor_]
    norm_num
  unfold wholes trueDivide
  have fits : ((2 ^ 53 : Nat) : ℚ) < 2 ^ 1024 := by
    rw [Nat.cast_pow]
    exact pow_lt_pow_right₀ one_lt_two (by norm_num)
  rw [rounded, if_pos fits, Option.map_some, Nat.floor_natCast]

end Nearest
end Sarracenia.Library.Binary64
