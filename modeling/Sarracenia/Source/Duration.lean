import Sarracenia.Library.Decimal
import Sarracenia.Library.Dynamic

/-!
# Durations (`durationToSeconds` of `sarracenia/__init__.py`)

Arithmetic is exact. Which characters are letters and which are numeric is given from outside.
-/
namespace Sarracenia.Source.Duration
open Library Library.Text Library.Decimal Library.Dynamic

/-- A `float`. -/
inductive Number where
  | finite (q : ℚ)
  | infinite (negative : Bool)
  | nan
  deriving DecidableEq

def Number.neg : Number → Number
  | .finite q => .finite (-q)
  | .infinite negative => .infinite !negative
  | .nan => .nan

/-- `big + number * factor`, for a positive factor. -/
def Number.scaled (big factor : ℚ) : Number → Number
  | .finite q => .finite (big + q * factor)
  | number => number

def lower (s : Str) : Str := s.map Char.toLower

section Float

/-- Digits with a point and an exponent; there are digits before the point or after it. -/
def readDecimal (s : Str) : Option ℚ :=
  let mantissa := s.takeWhile fun c => !isExponentMark c
  let integral := mantissa.takeWhile (· != '.')
  let fractional := mantissa.dropWhile (· != '.')
  (if integral = [] ∧ 1 < fractional.length then some [] else digitRun integral).bind fun whole =>
    (fractionDigits fractional).bind fun fraction =>
      (exponentValue (s.dropWhile fun c => !isExponentMark c)).map fun (exponent : Int) =>
        (value (whole ++ fraction) : ℚ) * (10 : ℚ) ^ (exponent - fraction.length)

def readUnsigned (s : Str) : Option Number :=
  if lower s ∈ ["inf".toList, "infinity".toList] then some (.infinite false)
  else if lower s = "nan".toList then some .nan
  else (readDecimal s).map .finite

def float (s : Str) : Option Number :=
  match strip s with
  | '-' :: s => (readUnsigned s).map Number.neg
  | '+' :: s => readUnsigned s
  | s => readUnsigned s

end Float

section Units

/-- Seconds in a unit; a character that is none stands for seconds. -/
def unitSeconds (unit : Char) : ℚ :=
  match unit with
  | 'm' => 60
  | 'h' => 60 * 60
  | 'd' => 60 * 60 * 24
  | 'w' => 60 * 60 * 24 * 7
  | 'M' => 60 * 60 * 24 * (307 / 10)
  | 'y' => 60 * 60 * 24 * (36525 / 100)
  | _ => 1

/-- The unit that may precede the last one, by the last one and the letters there. -/
def firstUnit (second_unit : Char) (s : Str) : Option Char :=
  match second_unit with
  | 's' => some 'm'
  | 'm' => some 'h'
  | 'h' => some 'd'
  | 'd' => if 'y' ∈ s then some 'y' else if 'M' ∈ s then some 'M' else some 'w'
  | 'w' => if 'y' ∈ s then some 'y' else if 'M' ∈ s then some 'M' else none
  | 'M' => if 'y' ∈ s then some 'y' else none
  | _ => none

end Units

section Seconds
variable (isalpha isnumeric : Char → Bool)

/-- A text that cannot be added to a number, or is no number, gives 0. -/
def durationFrom (big factor : ℚ) (s : Str) : Number := (float s).elim (.finite 0) (Number.scaled big factor)

/-- `(big, little)`, of which there have to be two. -/
def twoParts (first_unit : Char) (factor : ℚ) : List Str → Except Fault Number
  | [big, little] =>
    if !big.isEmpty && big.all isnumeric then
      (readInt big).elim (.error .valueError) fun n => .ok (durationFrom (n * unitSeconds first_unit) factor little)
    else .ok (.finite 0)
  | _ => .error .valueError

/-- With the unit before the last one, if it is there. -/
def counted (first_unit : Option Char) (factor : ℚ) (str_value : Str) : Except Fault Number :=
  match first_unit.filter (· ∈ str_value) with
  | none => .ok (durationFrom 0 factor str_value)
  | some first_unit => twoParts isnumeric first_unit factor (split [first_unit] str_value)

/-- By the last character. -/
def measured (str_value : Str) : Except Fault Number :=
  match str_value.getLast? with
  | none => .error .indexError
  | some second_unit =>
    counted isnumeric (firstUnit second_unit str_value) (unitSeconds second_unit)
      (if isalpha second_unit then str_value.dropLast else str_value)

/-- The `default` is what `float` makes of it, where there is one and it is true. -/
def durationToSeconds (str_value : Str) (default : Option (Option Number)) : Except Fault Number :=
  if lower str_value ∈ ["none".toList, "off".toList, "false".toList] then .ok (.finite 0)
  else if lower str_value ∈ ["on".toList, "true".toList] then
    default.elim (measured isalpha isnumeric str_value) fun number => number.elim (.error .valueError) .ok
  else measured isalpha isnumeric str_value

end Seconds
end Sarracenia.Source.Duration
