import Mathlib.Algebra.Order.Field.Rat
import Mathlib.Data.List.Induction
import Mathlib.Data.Nat.Log
import Mathlib.Tactic.FieldSimp
import Mathlib.Tactic.Ring
import Mathlib.Tactic.NormNum
import Sarracenia.Library.Text

/-!
# Decimal notation

Writers and readers of decimal numbers. `pad` writes a fixed width; the readers
accept what a dynamic language's `int` and `float` accept on text: surrounding
white space, single underscores between digits and every Unicode decimal digit.
Fixed-width notation is order preserving, which is what lets times be compared
as text.
-/
namespace Sarracenia.Library.Decimal
open Text

/-- The `w` low digits of `n`, most significant first. -/
def digitsOf : Nat → Nat → List Nat
  | 0, _ => []
  | w + 1, n => digitsOf w (n / 10) ++ [n % 10]

def chars (ds : List Nat) : Str := ds.map Nat.digitChar

/-- `n` in exactly `w` digits; higher digits are lost. -/
def pad (w n : Nat) : Str := chars (digitsOf w n)

/-- Code points of the zeros of the Unicode decimal digit blocks. -/
def digitZeros : List Nat :=
  [0x30, 0x660, 0x6f0, 0x7c0, 0x966, 0x9e6, 0xa66, 0xae6, 0xb66, 0xbe6, 0xc66, 0xce6, 0xd66,
    0xde6, 0xe50, 0xed0, 0xf20, 0x1040, 0x1090, 0x17e0, 0x1810, 0x1946, 0x19d0, 0x1a80, 0x1a90,
    0x1b50, 0x1bb0, 0x1c40, 0x1c50, 0xa620, 0xa8d0, 0xa900, 0xa9d0, 0xa9f0, 0xaa50, 0xabf0,
    0xff10, 0x104a0, 0x10d30, 0x11066, 0x110f0, 0x11136, 0x111d0, 0x112f0, 0x11450, 0x114d0,
    0x11650, 0x116c0, 0x11730, 0x118e0, 0x11950, 0x11c50, 0x11d50, 0x11da0, 0x16a60, 0x16ac0,
    0x16b50, 0x1d7ce, 0x1d7d8, 0x1d7e2, 0x1d7ec, 0x1d7f6, 0x1e140, 0x1e2f0, 0x1e950, 0x1fbf0]

def digitValue (c : Char) : Option Nat :=
  (digitZeros.find? fun z => z ≤ c.toNat && c.toNat < z + 10).map fun z => c.toNat - z

/-- Digits after the first one: a single underscore may stand before each. -/
def moreDigits : Str → Option (List Nat)
  | [] => some []
  | '_' :: c :: s => do
      let d ← digitValue c
      let ds ← moreDigits s
      some (d :: ds)
  | c :: s => do
      let d ← digitValue c
      let ds ← moreDigits s
      some (d :: ds)

def digitRun : Str → Option (List Nat)
  | [] => none
  | c :: s => do
      let d ← digitValue c
      let ds ← moreDigits s
      some (d :: ds)

def value (ds : List Nat) : Nat := ds.foldl (fun n d => 10 * n + d) 0

def readSigned : Str → Option Int
  | '-' :: s => (digitRun s).map fun ds => -(value ds : Int)
  | '+' :: s => (digitRun s).map fun ds => (value ds : Int)
  | s => (digitRun s).map fun ds => (value ds : Int)

def readInt (s : Str) : Option Int := readSigned (strip s)

def isExponentMark (c : Char) : Bool := c == 'e' || c == 'E'

/-- The digits after a decimal point, which may be missing with the point or alone. -/
def fractionDigits : Str → Option (List Nat)
  | [] => some []
  | [_] => some []
  | _ :: s => digitRun s

def exponentValue : Str → Option Int
  | [] => some 0
  | _ :: s => readSigned s

/-- A floating point literal without a sign, read exactly. The special names of
infinity and not-a-number never start with a digit and are not read here. -/
def readFloat (text : Str) : Option ℚ := do
  let s := strip text
  let mantissa := s.takeWhile fun c => !isExponentMark c
  let whole ← digitRun (mantissa.takeWhile (· != '.'))
  let fraction ← fractionDigits (mantissa.dropWhile (· != '.'))
  let exponent ← exponentValue (s.dropWhile fun c => !isExponentMark c)
  some ((value (whole ++ fraction) : ℚ) * (10 : ℚ) ^ (exponent - fraction.length))

/-- `.` and digits, or nothing when there are none. -/
def fractionText : List Nat → Str
  | [] => []
  | d :: ds => '.' :: chars (d :: ds)

/-- A negative power of ten, or nothing when no digits are given. -/
def exponentText : List Nat → Str
  | [] => []
  | d :: ds => 'e' :: '-' :: chars (d :: ds)

/-- The nearest integer, the even one of two. -/
def roundHalfEven (q : ℚ) : Int :=
  let n := q.floor
  if q - n < 1 / 2 then n
  else if 1 / 2 < q - n then n + 1
  else if n % 2 = 0 then n
  else n + 1

/-- A number with `p` decimals. -/
def fixed (p : Nat) (q : ℚ) : Str :=
  let n := (roundHalfEven (|q| * 10 ^ p)).toNat
  (if q < 0 then ['-'] else []) ++ Nat.toDigits 10 (n / 10 ^ p) ++ '.' :: pad p (n % 10 ^ p)

def digitCount (n : Nat) : Nat := Nat.log 10 n + 1

def significant (ds : List Nat) : List Nat := rstripBy (· == 0) ds

/-- The fraction `n / 10 ^ p`, for `n < 10 ^ p`, in the general format with `p`
significant digits: positional from `10 ^ -4` on, scientific with an exponent of
at least two digits below, trailing zeros removed in both. -/
def general (p n : Nat) : Str :=
  if n = 0 then ['0']
  else if 10 ^ p ≤ n * 10 ^ 4 then '0' :: fractionText (significant (digitsOf p n))
  else
    let exponent := p + 1 - digitCount n
    match significant (digitsOf (digitCount n) n) with
    | [] => []
    | d :: ds => Nat.digitChar d :: (fractionText ds ++
        exponentText (digitsOf (max 2 (digitCount exponent)) exponent))

theorem digitChar_toNat {d : Nat} (small : d < 10) : (Nat.digitChar d).toNat = 48 + d := by
  match d, small with
  | 0, _ | 1, _ | 2, _ | 3, _ | 4, _ | 5, _ | 6, _ | 7, _ | 8, _ | 9, _ => rfl

theorem digitValue_digitChar {d : Nat} (small : d < 10) :
    digitValue (Nat.digitChar d) = some d := by
  match d, small with
  | 0, _ | 1, _ | 2, _ | 3, _ | 4, _ | 5, _ | 6, _ | 7, _ | 8, _ | 9, _ => rfl

theorem digitChar_lt {a b : Nat} (less : a < b) (small : b < 10) :
    Nat.digitChar a < Nat.digitChar b := by
  have left := digitChar_toNat (Nat.lt_trans less small)
  have right := digitChar_toNat small
  rw [Char.lt_def, UInt32.lt_iff_toNat_lt]
  change (Nat.digitChar a).toNat < (Nat.digitChar b).toNat
  omega

@[simp] theorem digitsOf_length (w n : Nat) : (digitsOf w n).length = w := by
  induction w generalizing n with
  | zero => rfl
  | succ w ih => simp [digitsOf, ih]

@[simp] theorem chars_length (ds : List Nat) : (chars ds).length = ds.length := by simp [chars]

@[simp] theorem pad_length (w n : Nat) : (pad w n).length = w := by simp [pad]

theorem digitsOf_lt_ten (w n : Nat) : ∀ d ∈ digitsOf w n, d < 10 := by
  induction w generalizing n with
  | zero => simp [digitsOf]
  | succ w ih =>
    intro d member
    rw [digitsOf, List.mem_append, List.mem_singleton] at member
    rcases member with high | low
    · exact ih _ d high
    · rw [low]; exact Nat.mod_lt _ (by decide)

theorem pad_succ (w n : Nat) : pad (w + 1) n = pad w (n / 10) ++ [Nat.digitChar (n % 10)] := by
  simp [pad, digitsOf, chars]

/-- Fixed-width decimal notation is order preserving. -/
theorem pad_lt (w : Nat) {a b : Nat} (less : a < b) (fits : b < 10 ^ w) : pad w a < pad w b := by
  induction w generalizing a b with
  | zero => rw [Nat.pow_zero] at fits; omega
  | succ w ih =>
    rw [Nat.pow_succ] at fits
    rw [pad_succ, pad_succ]
    by_cases same : a / 10 = b / 10
    · rw [same]
      exact List.append_left_lt
        (List.cons_lt_cons_iff.mpr (Or.inl (digitChar_lt (by omega) (Nat.mod_lt _ (by decide)))))
    · exact lt_append_of_lt (by simp) (ih (by omega) (by omega)) _ _

theorem pad_inj (w : Nat) {a b : Nat} (first : a < 10 ^ w) (second : b < 10 ^ w) (same : pad w a = pad w b) : a = b := by
  rcases Nat.lt_trichotomy a b with less | equal | more
  · exact absurd (pad_lt w less second) (same ▸ List.lt_irrefl _)
  · exact equal
  · exact absurd (pad_lt w more first) (same ▸ List.lt_irrefl _)

theorem value_append_singleton (ds : List Nat) (d : Nat) : value (ds ++ [d]) = 10 * value ds + d := by
  simp [value]

theorem value_digitsOf (w n : Nat) : value (digitsOf w n) = n % 10 ^ w := by
  induction w generalizing n with
  | zero => simp [digitsOf, value, Nat.mod_one]
  | succ w ih =>
    rw [digitsOf, value_append_singleton, ih, Nat.pow_succ, Nat.mul_comm (10 ^ w), Nat.mod_mul]
    omega

theorem value_append (as bs : List Nat) : value (as ++ bs) = value as * 10 ^ bs.length + value bs := by
  induction bs using List.reverseRecOn with
  | nil => simp [value]
  | append_singleton bs d ih =>
    rw [← List.append_assoc, value_append_singleton, ih, value_append_singleton,
      List.length_append, List.length_singleton, Nat.pow_succ]
    ring

theorem value_lt (ds : List Nat) (small : ∀ d ∈ ds, d < 10) : value ds < 10 ^ ds.length := by
  induction ds using List.reverseRecOn with
  | nil => simp [value]
  | append_singleton ds d ih =>
    have high := ih (fun x h => small x (by simp [h]))
    have low := small d (by simp)
    rw [value_append_singleton, List.length_append, List.length_singleton, Nat.pow_succ]
    omega

/-! ## Reading back what was written -/

theorem digitChar_ne_underscore {d : Nat} (small : d < 10) : Nat.digitChar d ≠ '_' := by
  match d, small with
  | 0, _ | 1, _ | 2, _ | 3, _ | 4, _ | 5, _ | 6, _ | 7, _ | 8, _ | 9, _ => decide

theorem moreDigits_cons {d : Nat} (small : d < 10) (s : Str) :
    moreDigits (Nat.digitChar d :: s) = (moreDigits s).map (d :: ·) := by
  rw [moreDigits]
  · rw [digitValue_digitChar small]
    cases moreDigits s <;> rfl
  · intro c t same _
    exact absurd same (digitChar_ne_underscore small)

theorem moreDigits_chars (ds : List Nat) (small : ∀ d ∈ ds, d < 10) :
    moreDigits (chars ds) = some ds := by
  induction ds with
  | nil => rfl
  | cons d ds ih =>
    have tail := ih (fun x h => small x (by simp [h]))
    change moreDigits (Nat.digitChar d :: chars ds) = some (d :: ds)
    rw [moreDigits_cons (small d (by simp)), tail]
    rfl

theorem digitRun_chars (ds : List Nat) (small : ∀ d ∈ ds, d < 10) (nonempty : ds ≠ []) :
    digitRun (chars ds) = some ds := by
  cases ds with
  | nil => exact absurd rfl nonempty
  | cons d ds =>
    have tail := moreDigits_chars ds (fun x h => small x (by simp [h]))
    change digitRun (Nat.digitChar d :: chars ds) = some (d :: ds)
    rw [digitRun, digitValue_digitChar (small d (by simp)), tail]
    rfl

theorem readSigned_chars (ds : List Nat) (small : ∀ d ∈ ds, d < 10) (nonempty : ds ≠ []) :
    readSigned (chars ds) = some (value ds : Int) := by
  have run := digitRun_chars ds small nonempty
  unfold readSigned
  split
  · next s minus =>
    cases ds with
    | nil => exact absurd rfl nonempty
    | cons d ds =>
      have head : Nat.digitChar d = '-' := (List.cons.inj minus).1
      have code := digitChar_toNat (small d (by simp))
      rw [head] at code
      simp at code
      omega
  · next s plus =>
    cases ds with
    | nil => exact absurd rfl nonempty
    | cons d ds =>
      have head : Nat.digitChar d = '+' := (List.cons.inj plus).1
      have code := digitChar_toNat (small d (by simp))
      rw [head] at code
      simp at code
      omega
  · rw [run]
    rfl

theorem digitChar_plain {d : Nat} (small : d < 10) :
    isSpace (Nat.digitChar d) = false ∧ isExponentMark (Nat.digitChar d) = false ∧
      Nat.digitChar d ≠ '.' := by
  match d, small with
  | 0, _ | 1, _ | 2, _ | 3, _ | 4, _ | 5, _ | 6, _ | 7, _ | 8, _ | 9, _ => decide

theorem chars_all {P : Char → Prop} (ds : List Nat) (small : ∀ d ∈ ds, d < 10)
    (each : ∀ d < 10, P (Nat.digitChar d)) : ∀ c ∈ chars ds, P c := by
  intro c member
  obtain ⟨d, belongs, rfl⟩ := List.mem_map.mp member
  exact each d (small d belongs)

theorem fractionText_all {P : Char → Prop} (ds : List Nat) (small : ∀ d ∈ ds, d < 10)
    (point : P '.') (each : ∀ d < 10, P (Nat.digitChar d)) : ∀ c ∈ fractionText ds, P c := by
  cases ds with
  | nil => simp [fractionText]
  | cons d ds =>
    intro c member
    rcases List.mem_cons.mp member with rfl | digit
    · exact point
    · exact chars_all _ small each c digit

theorem exponentText_all {P : Char → Prop} (ds : List Nat) (small : ∀ d ∈ ds, d < 10)
    (mark : P 'e') (minus : P '-') (each : ∀ d < 10, P (Nat.digitChar d)) :
    ∀ c ∈ exponentText ds, P c := by
  cases ds with
  | nil => simp [exponentText]
  | cons d ds =>
    intro c member
    rcases List.mem_cons.mp member with rfl | tail
    · exact mark
    · rcases List.mem_cons.mp tail with rfl | digit
      · exact minus
      · exact chars_all _ small each c digit

theorem takeWhile_append_stop {α : Type} (p : α → Bool) (xs ys : List α)
    (keep : ∀ x ∈ xs, p x = true) (stop : ∀ y ∈ ys.head?, p y = false) :
    (xs ++ ys).takeWhile p = xs ∧ (xs ++ ys).dropWhile p = ys := by
  rw [List.takeWhile_append_of_pos keep, List.dropWhile_append_of_pos keep]
  cases ys with
  | nil => simp
  | cons y ys => simp [stop y (by simp)]

theorem fractionDigits_text (ds : List Nat) (small : ∀ d ∈ ds, d < 10) :
    fractionDigits (fractionText ds) = some ds := by
  cases ds with
  | nil => rfl
  | cons d ds => exact digitRun_chars (d :: ds) small (by simp)

theorem exponentValue_text (ds : List Nat) (small : ∀ d ∈ ds, d < 10) :
    exponentValue (exponentText ds) = some (-(value ds : Int)) := by
  cases ds with
  | nil => rfl
  | cons d ds =>
    have run := digitRun_chars (d :: ds) small (by simp)
    simp only [exponentText, exponentValue, readSigned, run, Option.map_some]

/-- A written literal reads back as the number it denotes, in each of the forms
that the general format produces. -/
theorem readFloat_written (whole fraction exponent : List Nat) (hw : ∀ d ∈ whole, d < 10)
    (hf : ∀ d ∈ fraction, d < 10) (he : ∀ d ∈ exponent, d < 10) (nonempty : whole ≠ []) :
    readFloat (chars whole ++ (fractionText fraction ++ exponentText exponent)) =
      some ((value (whole ++ fraction) : ℚ) *
        (10 : ℚ) ^ (-(value exponent : Int) - fraction.length)) := by
  have spaces : strip (chars whole ++ (fractionText fraction ++ exponentText exponent)) =
      chars whole ++ (fractionText fraction ++ exponentText exponent) := by
    apply strip_of_no_space
    intro c member
    rw [List.mem_append, List.mem_append] at member
    have each : ∀ d < 10, isSpace (Nat.digitChar d) = false := fun d small => (digitChar_plain small).1
    rcases member with digits | point | mark
    · exact chars_all (P := fun c => isSpace c = false) whole hw each c digits
    · exact fractionText_all (P := fun c => isSpace c = false) fraction hf (by decide) each c point
    · exact exponentText_all (P := fun c => isSpace c = false) exponent he (by decide) (by decide)
        each c mark
  have marks := takeWhile_append_stop (fun c => !isExponentMark c)
    (chars whole ++ fractionText fraction) (exponentText exponent) (by
      intro c member
      have each : ∀ d < 10, (!isExponentMark (Nat.digitChar d)) = true := fun d small => by
        simp [(digitChar_plain small).2.1]
      rw [List.mem_append] at member
      rcases member with digits | point
      · exact chars_all (P := fun c => (!isExponentMark c) = true) whole hw each c digits
      · exact fractionText_all (P := fun c => (!isExponentMark c) = true) fraction hf (by decide)
          each c point) (by
      cases exponent <;> simp [exponentText, isExponentMark])
  have points := takeWhile_append_stop (· != '.') (chars whole) (fractionText fraction) (by
      intro c digits
      exact chars_all (P := fun c => (c != '.') = true) whole hw
        (fun d small => by simp [(digitChar_plain small).2.2]) c digits) (by
      cases fraction <;> simp [fractionText])
  rw [List.append_assoc] at marks
  simp only [readFloat, spaces, marks.1, marks.2, points.1, points.2,
    digitRun_chars whole hw nonempty, fractionDigits_text fraction hf,
    exponentValue_text exponent he, bind, Option.bind]

/-- The unpadded notation of a number is its fixed-width notation at its own width. -/
theorem toDigits_eq_pad (w n : Nat) (low : 10 ^ w ≤ n) (high : n < 10 ^ (w + 1)) :
    Nat.toDigits 10 n = pad (w + 1) n := by
  induction w generalizing n with
  | zero =>
    have one : n < 10 := by simpa using high
    rw [Nat.toDigits_of_lt_base one, pad_succ, Nat.mod_eq_of_lt one]
    rfl
  | succ w ih =>
    rw [Nat.pow_succ] at low
    rw [Nat.pow_succ] at high
    have positive : 0 < 10 ^ w := Nat.pow_pos (by decide)
    rw [Nat.toDigits_of_base_le (by decide) (by omega), ih (n / 10) (by omega) (by omega), ← pad_succ]

/-- The leading field decides, and where it is equal the rest does. -/
theorem pad_append_lt (w : Nat) {a b : Nat} {x y : Str} (fits : b < 10 ^ w)
    (less : a < b ∨ a = b ∧ x < y) : pad w a ++ x < pad w b ++ y := by
  rcases less with head | ⟨same, tail⟩
  · exact lt_append_of_lt (by simp) (pad_lt w head fits) x y
  · rw [same]
    exact List.append_left_lt tail

theorem significant_subset (ds : List Nat) : ∀ d ∈ significant ds, d ∈ ds := rstripBy_subset _ ds

/-- Dropping trailing zeros divides by the power of ten of their number. -/
theorem value_significant (ds : List Nat) :
    (significant ds).length ≤ ds.length ∧
      value ds = value (significant ds) * 10 ^ (ds.length - (significant ds).length) := by
  have split : ∃ n, ds = significant ds ++ List.replicate n 0 := by
    unfold significant
    induction ds with
    | nil => exact ⟨0, rfl⟩
    | cons d ds ih =>
      obtain ⟨n, tail⟩ := ih
      rw [rstripBy]
      split
      · next gone =>
        rw [Bool.and_eq_true, List.isEmpty_iff, beq_iff_eq] at gone
        refine ⟨n + 1, ?_⟩
        rw [gone.1, List.nil_append] at tail
        rw [List.nil_append, gone.2, List.replicate_succ, ← tail]
      · exact ⟨n, congrArg (d :: ·) tail⟩
  have zeros (n : Nat) : value (List.replicate n 0) = 0 := by
    induction n with
    | zero => rfl
    | succ n ih => rw [List.replicate_succ', value_append_singleton, ih]
  obtain ⟨n, same⟩ := split
  have width := congrArg List.length same
  have total := congrArg value same
  rw [List.length_append, List.length_replicate] at width
  rw [value_append, List.length_replicate, zeros, Nat.add_zero] at total
  refine ⟨by omega, ?_⟩
  rw [total]
  congr 2
  omega

theorem fractionText_eq (ds : List Nat) :
    fractionText ds = if chars ds = [] then [] else '.' :: chars ds := by
  cases ds <;> rfl

/-- Fractions of one width compare as their texts do, trailing zeros or not. -/
theorem fractionText_lt (w : Nat) {a b : Nat} (less : a < b) (fits : b < 10 ^ w) :
    fractionText (significant (digitsOf w a)) < fractionText (significant (digitsOf w b)) := by
  have strip (n : Nat) : chars (significant (digitsOf w n)) = rstripBy (· == '0') (pad w n) := by
    refine (rstripBy_map _ _ _ _ ?_).symm
    intro d member
    match d, digitsOf_lt_ten w n d member with
    | 0, _ | 1, _ | 2, _ | 3, _ | 4, _ | 5, _ | 6, _ | 7, _ | 8, _ | 9, _ => rfl
  have least : ∀ c ∈ pad w a, '0' ≤ c := by
    refine chars_all _ (digitsOf_lt_ten w a) ?_
    intro d small
    match d, small with
    | 0, _ | 1, _ | 2, _ | 3, _ | 4, _ | 5, _ | 6, _ | 7, _ | 8, _ | 9, _ => decide
  have below := rstripBy_lt_of_lt (by simp) least (pad_lt w less fits)
  rw [fractionText_eq, fractionText_eq, strip, strip]
  by_cases none : rstripBy (· == '0') (pad w b) = []
  · rw [none] at below
    exact absurd below (List.not_lt_nil _)
  · rw [if_neg none]
    split
    · exact List.nil_lt_cons _ _
    · exact List.cons_lt_cons_iff.mpr (Or.inr ⟨rfl, below⟩)

/-! ## The general format without its first character -/

theorem value_zero_cons (ds : List Nat) : value (0 :: ds) = value ds := rfl

theorem digitsOf_zero (w : Nat) : digitsOf w 0 = List.replicate w 0 := by
  induction w with
  | zero => rfl
  | succ w ih => rw [digitsOf, Nat.zero_div, ih, List.replicate_succ']

theorem significant_zeros (w : Nat) : significant (List.replicate w 0) = [] := by
  induction w with
  | zero => rfl
  | succ w ih =>
    unfold significant at ih ⊢
    rw [List.replicate_succ, rstripBy, ih]
    rfl

/-- From `10 ^ -4` on, and for zero, the point and the significant digits remain. -/
theorem general_drop_positional (p n : Nat) (large : n = 0 ∨ 10 ^ p ≤ n * 10 ^ 4) :
    (general p n).drop 1 = fractionText (significant (digitsOf p n)) := by
  unfold general
  split
  · next zero =>
    rw [zero, digitsOf_zero, significant_zeros]
    rfl
  · next nonzero =>
    rw [if_pos (large.resolve_left nonzero)]
    rfl

/-- A zero in place of the digit that was cut leaves the number unchanged. -/
theorem readFloat_positional (p n : Nat) (fits : n < 10 ^ p) :
    readFloat ('0' :: fractionText (significant (digitsOf p n))) = some ((n : ℚ) / 10 ^ p) := by
  obtain ⟨short, total⟩ := value_significant (digitsOf p n)
  have small : ∀ d ∈ significant (digitsOf p n), d < 10 := fun d member =>
    digitsOf_lt_ten p n d (significant_subset _ d member)
  have read := readFloat_written [0] (significant (digitsOf p n)) [] (by simp) small (by simp)
    (by simp)
  rw [value_digitsOf, Nat.mod_eq_of_lt fits, digitsOf_length] at total
  rw [digitsOf_length] at short
  generalize significant (digitsOf p n) = ds at *
  change readFloat ('0' :: (fractionText ds ++ [])) = _ at read
  rw [List.append_nil] at read
  rw [read, List.singleton_append, value_zero_cons]
  congr 1
  obtain ⟨gap, width⟩ := Nat.exists_eq_add_of_le short
  have gapEq : p - ds.length = gap := by omega
  rw [total, gapEq, width]
  have zeroValue : value [] = 0 := rfl
  rw [zeroValue, Nat.cast_zero, neg_zero, zero_sub, zpow_neg, zpow_natCast]
  push_cast
  field_simp
  ring

/-- Below `10 ^ -4` the cut digit is lost, and what is read is a smaller number. -/
theorem readFloat_scientific (p n : Nat) (nonzero : n ≠ 0) (small : n * 10 ^ 4 < 10 ^ p) :
    (∀ c ∈ (general p n).drop 1, c ≠ 'T') ∧
      ∃ q : ℚ, readFloat ('0' :: (general p n).drop 1) = some q ∧ q < (n : ℚ) / 10 ^ p := by
  have positive : (0 : ℚ) < (n : ℚ) / 10 ^ p := by
    have : (0 : ℚ) < n := by exact_mod_cast Nat.pos_of_ne_zero nonzero
    exact div_pos this (pow_pos (by norm_num) p)
  unfold general
  rw [if_neg nonzero, if_neg (Nat.not_le_of_lt small)]
  have digits := fun d member => digitsOf_lt_ten (digitCount n) n d (significant_subset _ d member)
  cases written : significant (digitsOf (digitCount n) n) with
  | nil =>
    refine ⟨by simp, 0, ?_, positive⟩
    have read := readFloat_written [0] [] [] (by simp) (by simp) (by simp) (by simp)
    have zeroValue : value [0] = 0 := rfl
    change readFloat ['0'] = _ at read
    rw [List.drop_nil, read, List.append_nil, zeroValue, Nat.cast_zero, zero_mul]
  | cons d ds =>
    rw [written] at digits
    have tail : ∀ x ∈ ds, x < 10 := fun x member => digits x (List.mem_cons_of_mem d member)
    simp only [List.drop_succ_cons, List.drop_zero]
    generalize exponentEq : p + 1 - digitCount n = e
    have exponentSmall := digitsOf_lt_ten (max 2 (digitCount e)) e
    constructor
    · intro c member
      have each : ∀ x < 10, Nat.digitChar x ≠ 'T' := by decide
      rw [List.mem_append] at member
      cases member with
      | inl point =>
        exact fractionText_all (P := fun c => c ≠ 'T') ds tail (by decide) each c point
      | inr mark =>
        exact exponentText_all (P := fun c => c ≠ 'T') _ exponentSmall (by decide) (by decide) each
          c mark
    · have read := readFloat_written [0] ds (digitsOf (max 2 (digitCount e)) e) (by simp) tail
        exponentSmall (by simp)
      have exponentValue : value (digitsOf (max 2 (digitCount e)) e) = e := by
        rw [value_digitsOf]
        apply Nat.mod_eq_of_lt
        calc e < 10 ^ digitCount e := Nat.lt_pow_succ_log_self (by decide) e
          _ ≤ 10 ^ max 2 (digitCount e) := Nat.pow_le_pow_right (by decide) (Nat.le_max_right _ _)
      rw [exponentValue, List.singleton_append, value_zero_cons] at read
      refine ⟨_, read, ?_⟩
      have fits : n < 10 ^ p := by omega
      have log : Nat.log 10 n < p := Nat.log_lt_of_lt_pow nonzero fits
      have low : 10 ^ Nat.log 10 n ≤ n := Nat.pow_log_le_self 10 nonzero
      have scale : (e : ℤ) = p - Nat.log 10 n := by unfold digitCount at exponentEq; omega
      have below : (value ds : ℚ) < 10 ^ ds.length := by exact_mod_cast value_lt ds tail
      calc (value ds : ℚ) * 10 ^ (-(e : ℤ) - ds.length)
          < 10 ^ ds.length * 10 ^ (-(e : ℤ) - ds.length) := by
            exact mul_lt_mul_of_pos_right below (zpow_pos (by norm_num) _)
        _ = (10 : ℚ) ^ Nat.log 10 n / 10 ^ p := by
            rw [← zpow_natCast, ← zpow_natCast, ← zpow_natCast, ← zpow_add₀ (by norm_num),
              ← zpow_sub₀ (by norm_num), scale]
            congr 1
            ring
        _ ≤ (n : ℚ) / 10 ^ p := by
            have : (10 : ℚ) ^ Nat.log 10 n ≤ n := by exact_mod_cast low
            gcongr

/-! ## A number of decimals -/

theorem isSpace_digit {c : Char} (digit : c.isDigit = true) : isSpace c = false := by
  have low : 48 ≤ c.toNat := by
    simp only [Char.isDigit, Bool.and_eq_true, decide_eq_true_eq] at digit
    exact digit.1
  have high : c.toNat ≤ 57 := by
    simp only [Char.isDigit, Bool.and_eq_true, decide_eq_true_eq] at digit
    exact digit.2
  simp only [isSpace, List.contains_cons, List.contains_nil, Bool.or_false, Bool.or_eq_false_iff,
    Bool.and_eq_false_iff, beq_eq_false_iff_ne, decide_eq_false_iff_not]
  omega

theorem fixed_plain (p : Nat) (q : ℚ) : ∀ c ∈ fixed p q, isSpace c = false := by
  intro c member
  simp only [fixed, List.mem_append, List.mem_cons] at member
  rcases member with (sign | whole) | point | decimals
  · split at sign
    · rw [List.mem_singleton.mp sign]
      rfl
    · cases sign
  · exact isSpace_digit (Nat.isDigit_of_mem_toDigits (by decide) (by decide) whole)
  · rw [point]
    rfl
  · exact chars_all _ (digitsOf_lt_ten p _) (P := fun c => isSpace c = false)
      (by decide) c decimals

theorem fixed_ne_nil (p : Nat) (q : ℚ) : fixed p q ≠ [] := by
  unfold fixed
  simp

end Sarracenia.Library.Decimal
