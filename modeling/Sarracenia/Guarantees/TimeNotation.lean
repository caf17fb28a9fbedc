import Mathlib.Tactic.Linarith
import Sarracenia.Source.TimeNotation

/-!
# Time notation: which instants survive being written

`timeflt2str` writes the fraction of a second in the general format and cuts its
first character. That character is the zero before the point exactly when the
format is positional: a fraction below 100 microseconds is written with an
exponent, and the cut loses its leading digit.

* reading — `timestr2flt` recovers the whole second of everything `timeflt2str`
  writes, and the fraction it then reads (`timestr2flt_written`);
* faithfulness — an instant survives exactly when its fraction is zero or at
  least 100 microseconds (`exact_faithful`, `faithful_exact`);
* order — on those instants the order of time is the order of text
  (`exact_ordered`).
-/
namespace Sarracenia.Guarantees.TimeNotation
open Library Library.Text Library.Decimal Library.Calendar Library.Dynamic Source.TimeNotation

/-- The written form is valid and reads back as the instant it was written from. -/
def Faithful (letters : Char → Bool) (f : Instant) : Prop :=
  timeValidate letters (timeflt2str f) = true ∧ timestr2flt (timeflt2str f) = .ok f.value

def OrderedAsText (f g : Instant) : Prop := f.value < g.value → timeflt2str f < timeflt2str g

/-- No fraction, or one of at least 100 microseconds. -/
def Exact (f : Instant) : Prop := f.nanos = 0 ∨ 10 ^ 5 ≤ f.nanos

/-! ## The date and the time of day -/

theorem gmtime_valid (f : Instant) :
    Valid (gmtime f.seconds).1 ∧ 1000 ≤ (gmtime f.seconds).1.year := by
  have before := f.fourDigitYear
  have last : daysBeforeYear 10000 = 3652059 := by decide
  have millennium : daysBeforeYear 1000 = 364877 := by decide
  constructor
  · exact civil_valid _ (by unfold epochDay; omega)
  · exact le_civil_year (by unfold epochDay; omega)

/-- The whole second is written in six fields of fixed width. -/
theorem strftime_fixed (f : Instant) :
    strftime (gmtime f.seconds) = pad 4 (gmtime f.seconds).1.year ++ (pad 2 (gmtime f.seconds).1.month ++
      (pad 2 (gmtime f.seconds).1.day ++ ('T' :: (pad 2 ((gmtime f.seconds).2 / 3600) ++
        (pad 2 ((gmtime f.seconds).2 / 60 % 60) ++ pad 2 ((gmtime f.seconds).2 % 60)))))) := by
  obtain ⟨valid, late⟩ := gmtime_valid f
  unfold strftime
  rw [toDigits_eq_pad 3 _ late (Nat.lt_succ_of_le valid.2.1)]

theorem int_pad (w n : Nat) (fits : n < 10 ^ w) (nonempty : w ≠ 0) : int (pad w n) = .ok n := by
  have digits := digitsOf_lt_ten w n
  have some : digitsOf w n ≠ [] := by
    intro none
    have width := congrArg List.length none
    rw [digitsOf_length] at width
    exact nonempty width
  unfold int readInt
  rw [strip_of_no_space (pad w n) (chars_all _ digits fun d small => (digitChar_plain small).1)]
  unfold pad
  rw [readSigned_chars _ digits some, value_digitsOf, Nat.mod_eq_of_lt fits]
  rfl

/-- Where the six fields and the fraction stand once the separator is removed. -/
theorem fields_sliced (year month day hour minute second tail : Str) (hy : year.length = 4)
    (hmo : month.length = 2) (hd : day.length = 2) (hh : hour.length = 2)
    (hmi : minute.length = 2) (hs : second.length = 2) :
    let s := year ++ (month ++ (day ++ (hour ++ (minute ++ (second ++ tail)))))
    slice s 0 4 = year ∧ slice s 4 6 = month ∧ slice s 6 8 = day ∧ slice s 8 10 = hour ∧
      slice s 10 12 = minute ∧ slice s 12 14 = second ∧ s.drop 14 = tail := by
  match year, month, day, hour, minute, second, hy, hmo, hd, hh, hmi, hs with
  | [_, _, _, _], [_, _], [_, _], [_, _], [_, _], [_, _], _, _, _, _, _, _ =>
    exact ⟨rfl, rfl, rfl, rfl, rfl, rfl, rfl⟩

theorem pad_plain (w n : Nat) : (pad w n).filter (· ≠ 'T') = pad w n := by
  apply List.filter_eq_self.mpr
  exact chars_all (P := fun c => decide (c ≠ 'T') = true) _ (digitsOf_lt_ten w n) (by decide)

/-- Every whole second is read back, and with it the fraction that follows. -/
theorem timestr2flt_written (f : Instant) (tail : Str) (plain : ∀ c ∈ tail, c ≠ 'T') :
    timestr2flt (strftime (gmtime f.seconds) ++ tail) =
      (readFloat ('0' :: tail)).elim (.error .valueError) fun q => .ok (f.seconds + q) := by
  have valid := (gmtime_valid f).1
  have short := day_le _ valid
  have ofDay : (gmtime f.seconds).2 < 86400 := by unfold gmtime; omega
  have total : timegm (gmtime f.seconds) = f.seconds := by
    unfold timegm
    have days : dayNumber (gmtime f.seconds).1 = (f.seconds / 86400 + epochDay).toNat :=
      dayNumber_civil _
    have rest : (gmtime f.seconds).2 = (f.seconds % 86400).toNat := rfl
    have early := f.fourDigitYear.1
    rw [days, rest]
    unfold epochDay
    omega
  rw [strftime_fixed]
  generalize gmtime f.seconds = t at *
  obtain ⟨⟨year, month, day⟩, time⟩ := t
  obtain ⟨firstYear, lastYear, firstMonth, lastMonth, firstDay, lastDay⟩ := valid
  dsimp only at *
  have mark : ((pad 4 year ++ (pad 2 month ++ (pad 2 day ++ ('T' :: (pad 2 (time / 3600) ++
      (pad 2 (time / 60 % 60) ++ pad 2 (time % 60)))))) ++ tail))[8]? = some 'T' := by
    simp [List.getElem?_append]
  have bare : (pad 4 year ++ (pad 2 month ++ (pad 2 day ++ ('T' :: (pad 2 (time / 3600) ++
      (pad 2 (time / 60 % 60) ++ pad 2 (time % 60)))))) ++ tail).filter (· ≠ 'T') =
      pad 4 year ++ (pad 2 month ++ (pad 2 day ++ (pad 2 (time / 3600) ++
        (pad 2 (time / 60 % 60) ++ (pad 2 (time % 60) ++ tail))))) := by
    simp only [List.filter_append, List.filter_cons, pad_plain, List.append_assoc, List.cons_append]
    rw [List.filter_eq_self.mpr (by simpa using plain)]
    rfl
  obtain ⟨s1, s2, s3, s4, s5, s6, s7⟩ := fields_sliced (pad 4 year) (pad 2 month) (pad 2 day)
    (pad 2 (time / 3600)) (pad 2 (time / 60 % 60)) (pad 2 (time % 60)) tail (by simp) (by simp)
    (by simp) (by simp) (by simp) (by simp)
  have clock : (((time / 3600 : Nat) : Int) * 3600 + ((time / 60 % 60 : Nat) : Int) * 60 +
      ((time % 60 : Nat) : Int)).toNat = time := by omega
  have accepted : datetime year month day (time / 3600 : Nat) (time / 60 % 60 : Nat)
      (time % 60 : Nat) = .ok (⟨year, month, day⟩, time) := by
    unfold datetime
    rw [clock]
    rw [if_pos]
    · rfl
    · refine ⟨by omega, by omega, by omega, ?_, by omega, by omega, by omega, by omega, by omega,
        by omega⟩
      exact ⟨firstYear, lastYear, firstMonth, lastMonth, firstDay, lastDay⟩
  unfold timestr2flt
  rw [mark, bare]
  simp only [Option.elim, if_true, s1, s2, s3, s4, s5, s6, s7, bind, Except.bind]
  rw [int_pad 4 year (by omega) (by decide), int_pad 2 month (by omega) (by decide),
    int_pad 2 day (by omega) (by decide), int_pad 2 (time / 3600) (by omega) (by decide),
    int_pad 2 (time / 60 % 60) (by omega) (by decide), int_pad 2 (time % 60) (by omega) (by decide)]
  dsimp only
  rw [accepted]
  cases readFloat ('0' :: tail) with
  | none => rfl
  | some q =>
    dsimp only
    rw [total]
    rfl

/-! ## Faithfulness -/

/-- The text after the whole second of an instant that keeps its fraction. -/
theorem timeflt2str_exact (f : Instant) (exact : Exact f) :
    timeflt2str f = strftime (gmtime f.seconds) ++ fractionText (significant (digitsOf 9 f.nanos)) := by
  unfold timeflt2str
  dsimp only
  rw [general_drop_positional 9 f.nanos]
  cases exact with
  | inl zero => exact Or.inl zero
  | inr large => exact Or.inr (by omega)

theorem fraction_small (n : Nat) : ∀ d ∈ significant (digitsOf 9 n), d < 10 := fun d member =>
  digitsOf_lt_ten 9 n d (significant_subset _ d member)

theorem timeValidate_fields (letters : Char → Bool) (year month day hour minute second frac : Str)
    (hy : year.length = 4) (hmo : month.length = 2) (hd : day.length = 2) (hh : hour.length = 2)
    (hmi : minute.length = 2) (hs : second.length = 2)
    (date : isalnum letters (year ++ (month ++ day)) = true)
    (point : frac = [] ∨ ∃ rest, frac = '.' :: rest) :
    timeValidate letters
      (year ++ (month ++ (day ++ ('T' :: (hour ++ (minute ++ second))))) ++ frac) = true := by
  match year, month, day, hour, minute, second, hy, hmo, hd, hh, hmi, hs with
  | [_, _, _, _], [_, _], [_, _], [_, _], [_, _], [_, _], _, _, _, _, _, _ =>
    cases point with
    | inl none =>
      subst none
      simpa [timeValidate, slice] using date
    | inr some =>
      obtain ⟨rest, rfl⟩ := some
      simpa [timeValidate, slice] using date

/-- The whole second and a fraction that starts with a point pass the checks. -/
theorem timeValidate_written (letters : Char → Bool) (f : Instant) (digits : List Nat) :
    timeValidate letters (strftime (gmtime f.seconds) ++ fractionText digits) = true := by
  rw [strftime_fixed]
  apply timeValidate_fields <;> try simp only [pad_length]
  · have digit (w n : Nat) : (pad w n).all (fun c => if c.toNat < 128 then c.isAlphanum
        else letters c) = true := by
      rw [List.all_eq_true]
      refine chars_all (P := fun c => (if c.toNat < 128 then c.isAlphanum else letters c) = true) _
        (digitsOf_lt_ten w n) ?_
      intro d small
      match d, small with
      | 0, _ | 1, _ | 2, _ | 3, _ | 4, _ | 5, _ | 6, _ | 7, _ | 8, _ | 9, _ => rfl
    unfold isalnum
    rw [Bool.and_eq_true, List.all_append, List.all_append, digit, digit, digit]
    exact ⟨by rw [pad_succ]; simp, rfl⟩
  · cases digits with
    | nil => exact Or.inl rfl
    | cons d ds => exact Or.inr ⟨_, rfl⟩

/-- An instant without a fraction, or with one of at least 100 microseconds, survives. -/
theorem exact_faithful (letters : Char → Bool) (f : Instant) (exact : Exact f) :
    Faithful letters f := by
  unfold Faithful
  rw [timeflt2str_exact f exact]
  refine ⟨timeValidate_written letters f _, ?_⟩
  rw [timestr2flt_written f _ (fractionText_all _ (fraction_small _) (by decide) (by decide)),
    readFloat_positional 9 f.nanos f.subsecond]
  rfl

/-- A fraction below 100 microseconds does not survive: a smaller one is read. -/
theorem faithful_exact (letters : Char → Bool) (f : Instant) (faithful : Faithful letters f) :
    Exact f := by
  by_contra inexact
  obtain ⟨nonzero, small⟩ := not_or.mp inexact
  obtain ⟨plain, q, read, less⟩ := readFloat_scientific 9 f.nanos nonzero (by omega)
  have whole := faithful.2
  unfold timeflt2str at whole
  dsimp only at whole
  rw [timestr2flt_written f _ plain, read] at whole
  have same : (f.seconds : ℚ) + q = f.value := Except.ok.inj whole
  unfold Instant.value at same
  linarith

/-! ## Order -/

/-- A later second is written as a greater text. -/
theorem strftime_lt {f g : Instant} (less : f.seconds < g.seconds) (x y : Str) :
    strftime (gmtime f.seconds) ++ x < strftime (gmtime g.seconds) ++ y := by
  have width (h : Instant) : (strftime (gmtime h.seconds)).length = 15 := by
    simp [strftime_fixed]
  apply lt_append_of_lt (by rw [width, width])
  have valid := (gmtime_valid g).1
  have short := day_le _ valid
  have ofDay : (gmtime g.seconds).2 < 86400 := by unfold gmtime; omega
  have early := g.fourDigitYear.1
  have dates := fun days => civil_lt (a := (f.seconds / 86400 + epochDay).toNat)
    (b := (g.seconds / 86400 + epochDay).toNat) days
  have clock : f.seconds / 86400 = g.seconds / 86400 → (gmtime f.seconds).1 = (gmtime g.seconds).1 ∧
      (gmtime f.seconds).2 < (gmtime g.seconds).2 := by
    intro days
    constructor
    · unfold gmtime
      rw [days]
    · change (f.seconds % 86400).toNat < (g.seconds % 86400).toNat
      omega
  obtain ⟨_, lastYear, _, lastMonth, _, _⟩ := valid
  rw [strftime_fixed, strftime_fixed]
  rcases lt_or_ge (f.seconds / 86400) (g.seconds / 86400) with day | today
  · refine pad_append_lt 4 (by omega) ?_
    refine (dates (by unfold epochDay; omega)).imp id (And.imp id fun later => ?_)
    refine pad_append_lt 2 (by omega) ?_
    refine later.imp id (And.imp id fun later => ?_)
    exact pad_append_lt 2 (by omega) (Or.inl later)
  · obtain ⟨sameDate, later⟩ := clock (by omega)
    rw [sameDate]
    apply List.append_left_lt
    apply List.append_left_lt
    apply List.append_left_lt
    refine List.cons_lt_cons_iff.mpr (Or.inr ⟨rfl, pad_append_lt 2 (by omega) ?_⟩)
    generalize (gmtime f.seconds).2 = a at *
    generalize (gmtime g.seconds).2 = b at *
    rcases Nat.lt_or_ge (a / 3600) (b / 3600) with hour | sameHour
    · exact Or.inl hour
    · refine Or.inr ⟨by omega, pad_append_lt 2 (by omega) ?_⟩
      rcases Nat.lt_or_ge (a / 60 % 60) (b / 60 % 60) with minute | sameMinute
      · exact Or.inl minute
      · refine Or.inr ⟨by omega, ?_⟩
        exact pad_lt 2 (by omega) (by omega)

theorem exact_ordered (f g : Instant) (hf : Exact f) (hg : Exact g) : OrderedAsText f g := by
  intro less
  rw [timeflt2str_exact f hf, timeflt2str_exact g hg]
  rcases lt_trichotomy f.seconds g.seconds with before | same | after
  · exact strftime_lt before _ _
  · rw [same]
    apply List.append_left_lt
    apply fractionText_lt 9 ?_ g.subsecond
    unfold Instant.value at less
    rw [same] at less
    have scaled : (f.nanos : ℚ) / 10 ^ 9 < (g.nanos : ℚ) / 10 ^ 9 := by linarith
    have positive : (0 : ℚ) < 10 ^ 9 := by norm_num
    exact_mod_cast (div_lt_div_iff_of_pos_right positive).mp scaled
  · exfalso
    unfold Instant.value at less
    have whole : (g.seconds : ℚ) + 1 ≤ f.seconds := by exact_mod_cast after
    have scale : (10 : ℚ) ^ 9 = 1000000000 := by norm_num
    have fraction : (0 : ℚ) ≤ g.nanos := by exact_mod_cast Nat.zero_le _
    have nonneg : (0 : ℚ) ≤ f.nanos := by exact_mod_cast Nat.zero_le _
    have below : (g.nanos : ℚ) < 1000000000 := by exact_mod_cast g.subsecond
    rw [scale] at less
    linarith

/-- Two instants are both faithfully written and ordered as text exactly when
neither has a nonzero fraction below 100 microseconds. -/
theorem timeflt2str_faithful_iff_exact (letters : Char → Bool) (f g : Instant) :
    (Faithful letters f ∧ Faithful letters g ∧ OrderedAsText f g) ↔ Exact f ∧ Exact g := by
  constructor
  · rintro ⟨hf, hg, _⟩
    exact ⟨faithful_exact letters f hf, faithful_exact letters g hg⟩
  · rintro ⟨hf, hg⟩
    exact ⟨exact_faithful letters f hf, exact_faithful letters g hg, exact_ordered f g hf hg⟩

/-- Ten microseconds after a whole second: the digit 1 of `1e-05` is cut. -/
def tenMicroseconds : Instant := ⟨1700000000, 10000, by decide, by decide⟩

/-- The written form is refused on reception, and is not read back at all. -/
theorem tenMicroseconds_not_faithful :
    timeflt2str tenMicroseconds = "20231114T221320e-05".toList ∧
      ¬ Faithful (fun _ => false) tenMicroseconds := by
  have written : timeflt2str tenMicroseconds = "20231114T221320e-05".toList := by decide +kernel
  refine ⟨written, ?_⟩
  unfold Faithful
  rw [written]
  decide +kernel

end Sarracenia.Guarantees.TimeNotation
