import Sarracenia.Library.Calendar
import Sarracenia.Library.Decimal
import Sarracenia.Library.Dynamic

/-!
# Time notation (`sarracenia/__init__.py`, timeflt2str to timestr2flt)

A time is written `YYYYMMDDTHHMMSS` and a fraction of a second. Instants are
exact: whole seconds since the epoch, negative before it, and nanoseconds, in the
years whose number has four digits. Which characters beyond ASCII are letters or numerals is left to
`letters`; only `timeValidate` asks.
-/
namespace Sarracenia.Source.TimeNotation
open Library Library.Text Library.Decimal Library.Calendar Library.Dynamic

/-- Day number of 1 January 1970. -/
def epochDay : Nat := 719162

/-- The instant `seconds + nanos / 10 ^ 9` since the epoch, from the year 1000 to the
year 9999. -/
structure Instant where
  seconds : Int
  nanos : Nat
  fourDigitYear : -30610224000 ≤ seconds ∧ seconds < 253402300800
  subsecond : nanos < 10 ^ 9
  deriving DecidableEq, Repr

def Instant.value (f : Instant) : ℚ := f.seconds + (f.nanos : ℚ) / 10 ^ 9

/-- `time.gmtime`: the date and the second of the day. -/
def gmtime (seconds : Int) : Date × Nat :=
  (civil (seconds / 86400 + epochDay).toNat, (seconds % 86400).toNat)

/-- `time.strftime('%Y%m%dT%H%M%S', t)`; the year is written without padding. -/
def strftime (t : Date × Nat) : Str :=
  Nat.toDigits 10 t.1.year ++ (pad 2 t.1.month ++ (pad 2 t.1.day ++ ('T' :: (pad 2 (t.2 / 3600) ++
    (pad 2 (t.2 / 60 % 60) ++ pad 2 (t.2 % 60))))))

def timeflt2str (f : Instant) : Str :=
  let nsec := (general 9 f.nanos).drop 1
  strftime (gmtime f.seconds) ++ nsec

def isalnum (letters : Char → Bool) (s : Str) : Bool :=
  !s.isEmpty && s.all fun c => if c.toNat < 128 then c.isAlphanum else letters c

def timeValidate (letters : Char → Bool) (s : Str) : Bool :=
  if s.length < 14 then false
  else if s.length > 14 && s[8]? != some 'T' && s[14]? != some '.' then false
  else if s.length > 15 && s[8]? == some 'T' && s[15]? != some '.' then false
  else if !isalnum letters (slice s 0 8) then false
  else true

def int (s : Str) : Except Fault Int := (readInt s).elim (.error .valueError) .ok

/-- `datetime.datetime(...)` and `timetuple`, as a date and a second of the day. -/
def datetime (year month day hour minute second : Int) : Except Fault (Date × Nat) :=
  let d : Date := ⟨year.toNat, month.toNat, day.toNat⟩
  if 0 ≤ year ∧ 0 ≤ month ∧ 0 ≤ day ∧ Valid d ∧ 0 ≤ hour ∧ hour < 24 ∧ 0 ≤ minute ∧
      minute < 60 ∧ 0 ≤ second ∧ second < 60 then
    .ok (d, (hour * 3600 + minute * 60 + second).toNat)
  else .error .valueError

/-- `calendar.timegm`. -/
def timegm (t : Date × Nat) : Int := ((dayNumber t.1 : Int) - epochDay) * 86400 + t.2

def timestr2flt (s : Str) : Except Fault ℚ := do
  let mark ← (s[8]?).elim (.error .indexError) .ok
  let s := if mark = 'T' then s.filter (· ≠ 'T') else s
  let year ← int (slice s 0 4)
  let month ← int (slice s 4 6)
  let day ← int (slice s 6 8)
  let hour ← int (slice s 8 10)
  let minute ← int (slice s 10 12)
  let second ← int (slice s 12 14)
  let t ← datetime year month day hour minute second
  let fraction ← (readFloat ('0' :: s.drop 14)).elim (.error .valueError) .ok
  return timegm t + fraction

end Sarracenia.Source.TimeNotation
