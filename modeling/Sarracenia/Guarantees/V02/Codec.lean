import Mathlib.Order.Basic
import Mathlib.Data.Nat.Init
import Sarracenia.Library.Split
import Sarracenia.Source.V2Wrapper

/-!
# Digests through the two codecs

A value in base64 is written as hexadecimal digits and read back as lines of base64. What is
read back is what was written exactly if it had those lines.
-/
namespace Sarracenia.Guarantees.V02
open Library Library.Text Source.PostFormat Source.V2Wrapper

/-! ## Hexadecimal -/

section Hex

theorem hexDigit_hexChar : ∀ n < 16, hexDigit (hexChar n) = some n := by decide

theorem unhex_hex {bytes : List Nat} (small : ∀ b ∈ bytes, b < 256) : unhex (hex bytes) = some bytes := by
  induction bytes with
  | nil => rfl
  | cons b bytes ih =>
    obtain ⟨here, others⟩ := List.forall_mem_cons.mp small
    have high := hexDigit_hexChar (b / 16) (by omega)
    have low := hexDigit_hexChar (b % 16) (by omega)
    change unhex (hexChar (b / 16) :: hexChar (b % 16) :: hex bytes) = _
    rw [unhex, high, low, ih others]
    exact congrArg (fun b => some (b :: bytes)) (Nat.div_add_mod b 16)

end Hex

/-! ## Base64 -/

section Base64
variable {bytes : List Nat} {s : Str}

theorem base64Value_base64Digit : ∀ n < 64, base64Value (base64Digit n) = some n := by decide

theorem base64Digit_ne_pad : ∀ n < 64, base64Digit n ≠ '=' := by decide

theorem base64Value_lt {c : Char} {v : Nat} (is : base64Value c = some v) : v < 64 := by
  have below (d : Char) (le : c ≤ d) : c.toNat ≤ d.toNat := UInt32.le_iff_toNat_le.mp le
  unfold base64Value at is
  split at is
  · next upper =>
    have last : c.toNat ≤ 90 := below 'Z' upper.2
    have offset : c.toNat - 65 = v := Option.some.inj is
    omega
  · split at is
    · next lower =>
      have last : c.toNat ≤ 122 := below 'z' lower.2
      have offset : c.toNat - 97 + 26 = v := Option.some.inj is
      omega
    · split at is
      · next digit =>
        have last : c.toNat ≤ 57 := below '9' digit.2
        have offset : c.toNat - 48 + 52 = v := Option.some.inj is
        omega
      · split at is
        · cases is
          decide
        · split at is
          · cases is
            decide
          · cases is

/-- What is read are bytes, from whatever was read before. -/
theorem a2b_small {quad left pads : Nat}
    (room : quad = 0 ∨ quad = 1 ∧ left < 64 ∨ quad = 2 ∧ left < 16 ∨ quad = 3 ∧ left < 4)
    (read : a2b_base64 quad left pads s = some bytes) : ∀ b ∈ bytes, b < 256 := by
  induction s generalizing quad left pads bytes with
  | nil =>
    rw [a2b_base64] at read
    split at read
    · cases read
      exact nofun
    · cases read
  | cons c s ih =>
    rw [a2b_base64.eq_def] at read
    dsimp only at read
    split at read
    · split at read
      · split at read
        · cases read
          exact nofun
        · exact ih room read
      · exact ih room read
    · cases is : base64Value c with
      | none =>
        rw [is] at read
        exact ih room read
      | some v =>
        have bound := base64Value_lt is
        rw [is] at read
        rcases room with rfl | ⟨rfl, less⟩ | ⟨rfl, less⟩ | ⟨rfl, less⟩
        · exact ih (by omega) read
        all_goals
          obtain ⟨rest, more, rfl⟩ := Option.map_eq_some_iff.mp read
          exact List.forall_mem_cons.mpr ⟨by omega, ih (by omega) more⟩

/-- One digit is read. -/
theorem a2b_digit {v : Nat} (small : v < 64) (left pads : Nat) (s : Str) :
    a2b_base64 0 left pads (base64Digit v :: s) = a2b_base64 1 v 0 s ∧
    a2b_base64 1 left pads (base64Digit v :: s) = (a2b_base64 2 (v % 16) 0 s).map ((left * 4 + v / 16) :: ·) ∧
    a2b_base64 2 left pads (base64Digit v :: s) = (a2b_base64 3 (v % 4) 0 s).map ((left * 16 + v / 4) :: ·) ∧
    a2b_base64 3 left pads (base64Digit v :: s) = (a2b_base64 0 0 0 s).map ((left * 64 + v) :: ·) := by
  refine ⟨?_, ?_, ?_, ?_⟩
  all_goals
    rw [a2b_base64.eq_def]
    dsimp only
    rw [if_neg (base64Digit_ne_pad v small), base64Value_base64Digit v small]
    rfl

/-- A full group is read, and then what follows. -/
theorem a2b_group {a b c : Nat} (ha : a < 256) (hb : b < 256) (hc : c < 256) (s : Str) :
    a2b_base64 0 0 0 (base64Digit (a / 4) :: base64Digit (a % 4 * 16 + b / 16) ::
        base64Digit (b % 16 * 4 + c / 64) :: base64Digit (c % 64) :: s) =
      (a2b_base64 0 0 0 s).map (a :: b :: c :: ·) := by
  have first : a / 4 * 4 + (a % 4 * 16 + b / 16) / 16 = a := by omega
  have second : (a % 4 * 16 + b / 16) % 16 * 16 + (b % 16 * 4 + c / 64) / 4 = b := by omega
  have third : (b % 16 * 4 + c / 64) % 4 * 64 + c % 64 = c := by omega
  rw [(a2b_digit (by omega) 0 0 _).1, (a2b_digit (by omega) _ 0 _).2.1, (a2b_digit (by omega) _ 0 _).2.2.1,
    (a2b_digit (by omega) _ 0 _).2.2.2, first, second, third]
  cases a2b_base64 0 0 0 s with
  | none => rfl
  | some bytes => rfl

/-- Full groups are read back, and then what follows. -/
theorem a2b_base64_groups (small : ∀ b ∈ bytes, b < 256) (whole : bytes.length % 3 = 0) (s : Str) :
    a2b_base64 0 0 0 (base64 bytes ++ s) = (a2b_base64 0 0 0 s).map (bytes ++ ·) := by
  induction bytes using base64.induct with
  | case1 => simp [base64]
  | case2 a => cases whole
  | case3 a b => cases whole
  | case4 a b c rest ih =>
    simp only [List.forall_mem_cons] at small
    obtain ⟨ha, hb, hc, others⟩ := small
    have shorter : rest.length % 3 = 0 := by
      simp only [List.length_cons] at whole
      omega
    rw [base64]
    simp only [List.cons_append]
    rw [a2b_group ha hb hc, ih others shorter, Option.map_map]
    rfl

theorem a2b_pads {left : Nat} :
    a2b_base64 2 left 0 ['=', '='] = some [] ∧ a2b_base64 3 left 0 ['='] = some [] := ⟨rfl, rfl⟩

/-- A text in base64 is read back. -/
theorem a2b_base64_base64 (small : ∀ b ∈ bytes, b < 256) : a2b_base64 0 0 0 (base64 bytes) = some bytes := by
  induction bytes using base64.induct with
  | case1 => rfl
  | case2 a =>
    have ha : a < 256 := small a List.mem_cons_self
    have first : a / 4 * 4 + a % 4 * 16 / 16 = a := by omega
    rw [base64, (a2b_digit (by omega) 0 0 _).1, (a2b_digit (by omega) _ 0 _).2.1, a2b_pads.1, first]
    rfl
  | case3 a b =>
    simp only [List.forall_mem_cons] at small
    obtain ⟨ha, hb, -⟩ := small
    have first : a / 4 * 4 + (a % 4 * 16 + b / 16) / 16 = a := by omega
    have second : (a % 4 * 16 + b / 16) % 16 * 16 + b % 16 * 4 / 4 = b := by omega
    rw [base64, (a2b_digit (by omega) 0 0 _).1, (a2b_digit (by omega) _ 0 _).2.1, (a2b_digit (by omega) _ 0 _).2.2.1,
      a2b_pads.2, first, second]
    rfl
  | case4 a b c rest ih =>
    simp only [List.forall_mem_cons] at small
    obtain ⟨ha, hb, hc, others⟩ := small
    rw [base64, a2b_group ha hb hc, ih others]
    rfl

theorem base64Lines_short (short : bytes.length ≤ 57) : base64Lines bytes = base64 bytes := by
  unfold base64Lines
  rcases Nat.eq_zero_or_pos bytes.length with empty | pos
  · rw [List.eq_nil_of_length_eq_zero empty]
    rfl
  · have one : (bytes.length + 56) / 57 = 1 := by omega
    rw [one, show List.range 1 = [0] from rfl, List.map_singleton, join_singleton, Nat.mul_zero, List.drop_zero,
      List.take_of_length_le short]

/-- A line of 57 bytes, and the lines after it. -/
theorem base64Lines_long (long : 57 < bytes.length) :
    base64Lines bytes = base64 (bytes.take 57) ++ '\n' :: base64Lines (bytes.drop 57) := by
  obtain ⟨n, count⟩ : ∃ n, (bytes.length + 56) / 57 = n + 2 := ⟨(bytes.length + 56) / 57 - 2, by omega⟩
  have count' : ((bytes.drop 57).length + 56) / 57 = n + 1 := by
    rw [List.length_drop]
    omega
  have later : (fun i => base64 ((bytes.drop (57 * i)).take 57)) ∘ Nat.succ =
      fun i => base64 (((bytes.drop 57).drop (57 * i)).take 57) := by
    funext i
    rw [Function.comp_apply, List.drop_drop, Nat.mul_succ, Nat.add_comm]
  unfold base64Lines
  rw [count, count', List.range_succ_eq_map, List.map_cons, List.map_map, later, List.range_succ_eq_map, List.map_cons,
    join_cons_cons, Nat.mul_zero, List.drop_zero, List.append_assoc, List.singleton_append]

/-- The end of a line is passed over. -/
theorem a2b_newline (s : Str) : a2b_base64 0 0 0 ('\n' :: s) = a2b_base64 0 0 0 s := by
  rw [a2b_base64.eq_def]
  rfl

/-- Lines of base64 are read back. -/
theorem a2b_base64Lines (small : ∀ b ∈ bytes, b < 256) : a2b_base64 0 0 0 (base64Lines bytes) = some bytes := by
  induction length : bytes.length using Nat.strong_induction_on generalizing bytes with
  | _ n ih =>
    by_cases long : 57 < bytes.length
    · have line : (bytes.take 57).length % 3 = 0 := by
        rw [List.length_take, Nat.min_eq_left (by omega)]
      rw [base64Lines_long long, a2b_base64_groups (fun b member => small b (List.mem_of_mem_take member)) line,
        a2b_newline, ih _ (by rw [List.length_drop]; omega) (fun b member => small b (List.mem_of_mem_drop member)) rfl]
      exact congrArg some (List.take_append_drop 57 bytes)
    · rw [base64Lines_short (Nat.not_lt.mp long), a2b_base64_base64 small]

end Base64
end Sarracenia.Guarantees.V02
