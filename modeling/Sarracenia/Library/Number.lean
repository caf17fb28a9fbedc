import Mathlib.Data.Nat.Log
import Sarracenia.Library.Decimal

/-!
# Whole numbers as texts

A whole number is read back from the text it is written as, which is made of digits and
possibly a sign.
-/
namespace Sarracenia.Library.Decimal
open Text

theorem toDigits_written (n : Nat) :
    ∃ ds, Nat.toDigits 10 n = chars ds ∧ (∀ d ∈ ds, d < 10) ∧ ds ≠ [] ∧ value ds = n := by
  rcases Nat.eq_zero_or_pos n with rfl | pos
  · exact ⟨[0], rfl, by simp, by simp, rfl⟩
  · have high := Nat.lt_pow_succ_log_self (show 1 < 10 by decide) n
    refine ⟨digitsOf (Nat.log 10 n + 1) n, toDigits_eq_pad _ n (Nat.pow_log_le_self 10 (by omega)) high,
      digitsOf_lt_ten _ n, ?_, ?_⟩
    · rw [← List.length_pos_iff, digitsOf_length]
      omega
    · rw [value_digitsOf, Nat.mod_eq_of_lt high]

/-- The text of a whole number: a sign where it is negative, and digits. -/
theorem toString_written (i : Int) : ∃ ds, (∀ d ∈ ds, d < 10) ∧ ds ≠ [] ∧
    ((toString i).toList = chars ds ∧ (value ds : Int) = i ∨
      (toString i).toList = '-' :: chars ds ∧ -(value ds : Int) = i) := by
  cases i with
  | ofNat n =>
    obtain ⟨ds, written, small, some_, same⟩ := toDigits_written n
    refine ⟨ds, small, some_, .inl ⟨?_, by rw [same]; rfl⟩⟩
    change (toString n).toList = _
    rw [← written, Nat.toString_eq_ofList_toDigits, String.toList_ofList]
  | negSucc n =>
    obtain ⟨ds, written, small, some_, same⟩ := toDigits_written (n + 1)
    refine ⟨ds, small, some_, .inr ⟨?_, by rw [same]; rfl⟩⟩
    change ("-" ++ toString (n + 1)).toList = _
    rw [← written, Nat.toString_eq_ofList_toDigits, String.toList_append, String.toList_ofList,
      String.toList_ofList, List.singleton_append]

theorem digit_of_chars {ds : List Nat} (small : ∀ d ∈ ds, d < 10) : ∀ c ∈ chars ds, c.isDigit = true :=
  chars_all ds small (by decide)

theorem toString_plain (i : Int) : ∀ c ∈ (toString i).toList, c = '-' ∨ c.isDigit = true := by
  obtain ⟨ds, small, -, ⟨same, -⟩ | ⟨same, -⟩⟩ := toString_written i
  · rw [same]
    exact fun c member => .inr (digit_of_chars small c member)
  · rw [same]
    exact List.forall_mem_cons.mpr ⟨.inl rfl, fun c member => .inr (digit_of_chars small c member)⟩

theorem readInt_toString (i : Int) : readInt (toString i).toList = some i := by
  have space : ∀ c ∈ (toString i).toList, isSpace c = false := fun c member =>
    (toString_plain i c member).elim (fun sign => sign ▸ by decide) isSpace_digit
  unfold readInt
  rw [strip_of_no_space _ space]
  obtain ⟨ds, small, some_, ⟨same, value_⟩ | ⟨same, value_⟩⟩ := toString_written i
  · rw [same, readSigned_chars ds small some_, value_]
  · rw [same, readSigned, digitRun_chars ds small some_, ← value_]
    rfl

end Sarracenia.Library.Decimal
