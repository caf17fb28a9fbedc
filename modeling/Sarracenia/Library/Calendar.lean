import Mathlib.Data.Nat.Basic
import Mathlib.Tactic.NormNum

/-!
# The proleptic Gregorian calendar

Day numbers count from 1 January of year 1, which is day 0. `civil` splits a day
number by the 400, 100, 4 and 1 year cycles; `dayNumber` sums the closed form of
the days before a year. The two are inverse, and the date order is the day order.
-/
namespace Sarracenia.Library.Calendar

structure Date where
  year : Nat
  month : Nat
  day : Nat
  deriving DecidableEq, Repr

def isLeap (year : Nat) : Bool := year % 4 == 0 && (year % 100 != 0 || year % 400 == 0)

def daysBeforeYear (year : Nat) : Nat :=
  (year - 1) * 365 + (year - 1) / 4 - (year - 1) / 100 + (year - 1) / 400

def daysBeforeMonth (leap : Bool) (month : Nat) : Nat :=
  ([0, 0, 31, 59, 90, 120, 151, 181, 212, 243, 273, 304, 334, 365].getD month 0) +
    if leap && 2 < month then 1 else 0

def yearLength (leap : Bool) : Nat := if leap then 366 else 365

def daysInMonth (leap : Bool) (month : Nat) : Nat :=
  daysBeforeMonth leap (month + 1) - daysBeforeMonth leap month

/-- Year and day of the year of a day number; the last day of a leap cycle stays
in the cycle's last year. -/
def yearAndDay (n : Nat) : Nat × Nat :=
  let r400 := n % 146097
  let q100 := min 3 (r400 / 36524)
  let r100 := r400 - q100 * 36524
  let r4 := r100 % 1461
  let q1 := min 3 (r4 / 365)
  (n / 146097 * 400 + q100 * 100 + r100 / 1461 * 4 + q1 + 1, r4 - q1 * 365)

def monthOf (leap : Bool) (dayOfYear : Nat) : Nat :=
  ((List.range 12).filter fun i => daysBeforeMonth leap (i + 1) ≤ dayOfYear).length

def civil (n : Nat) : Date :=
  let year := (yearAndDay n).1
  let dayOfYear := (yearAndDay n).2
  let month := monthOf (isLeap year) dayOfYear
  ⟨year, month, dayOfYear - daysBeforeMonth (isLeap year) month + 1⟩

def dayNumber (d : Date) : Nat :=
  daysBeforeYear d.year + daysBeforeMonth (isLeap d.year) d.month + (d.day - 1)

/-- What a calendar accepts as a date. -/
def Valid (d : Date) : Prop :=
  1 ≤ d.year ∧ d.year ≤ 9999 ∧ 1 ≤ d.month ∧ d.month ≤ 12 ∧ 1 ≤ d.day ∧
    d.day ≤ daysInMonth (isLeap d.year) d.month

instance (d : Date) : Decidable (Valid d) := by unfold Valid; infer_instance

theorem daysBeforeYear_succ (year : Nat) (positive : 1 ≤ year) :
    daysBeforeYear (year + 1) = daysBeforeYear year + yearLength (isLeap year) := by
  unfold daysBeforeYear yearLength isLeap
  have q4 : year / 4 = (year - 1) / 4 + if year % 4 = 0 then 1 else 0 := by split <;> omega
  have q100 : year / 100 = (year - 1) / 100 + if year % 100 = 0 then 1 else 0 := by split <;> omega
  have q400 : year / 400 = (year - 1) / 400 + if year % 400 = 0 then 1 else 0 := by split <;> omega
  have order : (year - 1) / 100 ≤ (year - 1) / 4 := Nat.div_le_div_left (by decide) (by decide)
  have h100 : year % 100 = 0 → year % 4 = 0 := by omega
  have h400 : year % 400 = 0 → year % 100 = 0 := by omega
  rw [Nat.add_sub_cancel, q4, q100, q400]
  generalize (year - 1) / 4 = x at *
  generalize (year - 1) / 100 = y at *
  generalize (year - 1) / 400 = z at *
  by_cases four : year % 4 = 0
  · by_cases hundred : year % 100 = 0
    · by_cases fourHundred : year % 400 = 0
      · simp [four, hundred, fourHundred]
        omega
      · simp [four, hundred, fourHundred]
        omega
    · have : year % 400 ≠ 0 := fun h => hundred (h400 h)
      simp [four, hundred, this]
      omega
  · have : year % 100 ≠ 0 := fun h => four (h100 h)
    have : year % 400 ≠ 0 := fun h => this (h400 h)
    simp [*]
    omega

/-- Days before the year that the four cycle counts select. -/
theorem daysBeforeYear_cycles (a b c d : Nat) (hb : b ≤ 3) (hc : c ≤ 24) (hd : d ≤ 3) :
    daysBeforeYear (a * 400 + b * 100 + c * 4 + d + 1) =
      a * 146097 + b * 36524 + c * 1461 + d * 365 := by
  have q4 : (a * 400 + b * 100 + c * 4 + d) / 4 = a * 100 + b * 25 + c := by omega
  have q100 : (a * 400 + b * 100 + c * 4 + d) / 100 = a * 4 + b := by omega
  have q400 : (a * 400 + b * 100 + c * 4 + d) / 400 = a := by omega
  simp only [daysBeforeYear, Nat.add_sub_cancel, q4, q100, q400]
  omega

theorem yearLength_cycles (a b c d : Nat) (hb : b ≤ 3) (hc : c ≤ 24) (hd : d ≤ 3) :
    yearLength (isLeap (a * 400 + b * 100 + c * 4 + d + 1)) =
      if d = 3 ∧ (c < 24 ∨ b = 3) then 366 else 365 := by
  have r4 : (a * 400 + b * 100 + c * 4 + d + 1) % 4 = 0 ↔ d = 3 := by omega
  have r100 : (a * 400 + b * 100 + c * 4 + d + 1) % 100 = 0 ↔ c = 24 ∧ d = 3 := by omega
  have r400 : (a * 400 + b * 100 + c * 4 + d + 1) % 400 = 0 ↔ b = 3 ∧ c = 24 ∧ d = 3 := by omega
  unfold yearLength
  congr 1
  simp only [isLeap, Bool.and_eq_true, Bool.or_eq_true, bne_iff_ne, beq_iff_eq, eq_iff_iff, ne_eq,
    r4, r100, r400]
  omega

/-- Counting whole cycles of `len` days, but at most three of them. -/
theorem min_three_cycles (len x : Nat) (positive : 0 < len) :
    min 3 (x / len) ≤ 3 ∧ min 3 (x / len) * len ≤ x ∧
      (min 3 (x / len) < 3 → x < min 3 (x / len) * len + len) := by
  have low := Nat.div_mul_le_self x len
  have high := Nat.lt_div_mul_add (a := x) positive
  refine ⟨Nat.min_le_left _ _, ?_, ?_⟩
  · exact Nat.le_trans (Nat.mul_le_mul_right _ (Nat.min_le_right _ _)) low
  · intro few
    have same : min 3 (x / len) = x / len := by omega
    rw [same]
    exact high

theorem yearAndDay_spec (n : Nat) :
    1 ≤ (yearAndDay n).1 ∧ daysBeforeYear (yearAndDay n).1 + (yearAndDay n).2 = n ∧
      (yearAndDay n).2 < yearLength (isLeap (yearAndDay n).1) := by
  simp only [yearAndDay]
  have century := min_three_cycles 36524 (n % 146097) (by decide)
  have cycle : n % 146097 < 146097 := Nat.mod_lt _ (by decide)
  have whole := Nat.div_add_mod n 146097
  generalize n / 146097 = a at whole ⊢
  generalize n % 146097 = x at *
  generalize min 3 (x / 36524) = b at *
  have four := Nat.div_add_mod (x - b * 36524) 1461
  have inFour : (x - b * 36524) % 1461 < 1461 := Nat.mod_lt _ (by decide)
  generalize (x - b * 36524) / 1461 = c at *
  generalize (x - b * 36524) % 1461 = y at *
  have one := min_three_cycles 365 y (by decide)
  generalize min 3 (y / 365) = d at *
  have hc : c ≤ 24 := by omega
  rw [daysBeforeYear_cycles a b c d century.1 hc one.1,
    yearLength_cycles a b c d century.1 hc one.1]
  refine ⟨by omega, by omega, ?_⟩
  split <;> omega

theorem month_spec (leap : Bool) (dayOfYear : Nat) (inside : dayOfYear < yearLength leap) :
    1 ≤ monthOf leap dayOfYear ∧ monthOf leap dayOfYear ≤ 12 ∧
      daysBeforeMonth leap (monthOf leap dayOfYear) ≤ dayOfYear ∧
      dayOfYear < daysBeforeMonth leap (monthOf leap dayOfYear + 1) := by
  have table : ∀ leap : Bool, ∀ d < 366, d < yearLength leap → 1 ≤ monthOf leap d ∧
      monthOf leap d ≤ 12 ∧ daysBeforeMonth leap (monthOf leap d) ≤ d ∧
      d < daysBeforeMonth leap (monthOf leap d + 1) := by decide +kernel
  have bound : yearLength leap ≤ 366 := by cases leap <;> decide
  exact table leap dayOfYear (by omega) inside

theorem daysBeforeMonth_mono (leap : Bool) {a b : Nat} (first : 1 ≤ a) (le : a ≤ b) (last : b ≤ 13) :
    daysBeforeMonth leap a ≤ daysBeforeMonth leap b := by
  have table : ∀ leap : Bool, ∀ a < 14, ∀ b < 14, 1 ≤ a → a ≤ b →
      daysBeforeMonth leap a ≤ daysBeforeMonth leap b := by decide +kernel
  exact table leap a (by omega) b (by omega) first le

theorem daysBeforeYear_mono {a b : Nat} (first : 1 ≤ a) (le : a ≤ b) :
    daysBeforeYear a ≤ daysBeforeYear b := by
  induction b, le using Nat.le_induction with
  | base => exact Nat.le_refl _
  | succ b le ih =>
    rw [daysBeforeYear_succ b (Nat.le_trans first le)]
    omega

/-- Splitting a day number and summing it again gives the day number. -/
theorem dayNumber_civil (n : Nat) : dayNumber (civil n) = n := by
  obtain ⟨_, whole, inside⟩ := yearAndDay_spec n
  obtain ⟨_, _, start, _⟩ := month_spec _ _ inside
  simp only [dayNumber, civil, Nat.add_sub_cancel]
  omega

/-- The date of a day number is one the calendar accepts, in the first 9999 years. -/
theorem civil_valid (n : Nat) (fits : n < daysBeforeYear 10000) : Valid (civil n) := by
  obtain ⟨first, whole, inside⟩ := yearAndDay_spec n
  obtain ⟨january, december, start, finish⟩ := month_spec _ _ inside
  have bound : (yearAndDay n).1 ≤ 9999 := by
    by_contra late
    have := daysBeforeYear_mono (a := 10000) (by decide) (Nat.lt_of_not_le late)
    omega
  refine ⟨first, bound, january, december, Nat.le_add_left 1 _, ?_⟩
  simp only [civil, daysInMonth]
  omega

theorem day_le (d : Date) (valid : Valid d) : d.day ≤ 31 := by
  obtain ⟨_, _, _, december, _, inside⟩ := valid
  have table : ∀ leap : Bool, ∀ month < 13, daysInMonth leap month ≤ 31 := by decide +kernel
  exact Nat.le_trans inside (table _ _ (Nat.lt_succ_of_le december))

/-- A day on or after 1 January of a year is in that year or a later one. -/
theorem le_civil_year {n year : Nat} (begun : daysBeforeYear year ≤ n) : year ≤ (civil n).year := by
  obtain ⟨first, whole, inside⟩ := yearAndDay_spec n
  by_contra early
  have after := daysBeforeYear_succ _ first
  have reach := daysBeforeYear_mono (Nat.le_add_left 1 _) (Nat.succ_le_of_lt (Nat.lt_of_not_le early))
  change daysBeforeYear ((yearAndDay n).1 + 1) ≤ daysBeforeYear year at reach
  omega

/-- Later days have later dates, field by field. -/
theorem civil_lt {a b : Nat} (less : a < b) :
    (civil a).year < (civil b).year ∨ (civil a).year = (civil b).year ∧
      ((civil a).month < (civil b).month ∨
        (civil a).month = (civil b).month ∧ (civil a).day < (civil b).day) := by
  obtain ⟨firstA, wholeA, insideA⟩ := yearAndDay_spec a
  obtain ⟨firstB, wholeB, insideB⟩ := yearAndDay_spec b
  have after := daysBeforeYear_succ _ firstB
  rcases Nat.lt_trichotomy (yearAndDay a).1 (yearAndDay b).1 with earlier | same | later
  · exact Or.inl earlier
  · refine Or.inr ⟨same, ?_⟩
    have days : (yearAndDay a).2 < (yearAndDay b).2 := by rw [same] at wholeA; omega
    have monthA := month_spec _ _ insideA
    have monthB := month_spec _ _ insideB
    simp only [civil]
    rw [same] at monthA ⊢
    generalize monthOf (isLeap (yearAndDay b).1) (yearAndDay a).2 = m at monthA ⊢
    generalize monthOf (isLeap (yearAndDay b).1) (yearAndDay b).2 = k at monthB ⊢
    rcases Nat.lt_trichotomy m k with before | equal | beyond
    · exact Or.inl before
    · subst equal
      exact Or.inr ⟨rfl, by omega⟩
    · have := daysBeforeMonth_mono (isLeap (yearAndDay b).1) (a := k + 1) (b := m)
        (by omega) beyond (by omega)
      omega
  · have := daysBeforeYear_mono (Nat.le_add_left 1 _) (Nat.succ_le_of_lt later)
    omega

end Sarracenia.Library.Calendar
