import Sarracenia.Source.Transfer

/-!
# Bulletin headers (`Bulletin.verifyHeader` of `sarracenia/bulletin.py`)

A header is bytes. What the character set of the input makes of a field is given from outside; the log is left out.
-/
namespace Sarracenia.Source.Bulletin
open Source.Transfer (Bytes)

def space : UInt8 := 32

def isAlphaByte (c : UInt8) : Bool := (65 ≤ c && c ≤ 90) || (97 ≤ c && c ≤ 122)

def isDigitByte (c : UInt8) : Bool := 48 ≤ c && c ≤ 57

def isalpha (b : Bytes) : Bool := !b.isEmpty && b.all isAlphaByte

def isdigit (b : Bytes) : Bool := !b.isEmpty && b.all isDigitByte

def isalnum (b : Bytes) : Bool := !b.isEmpty && b.all fun c => isAlphaByte c || isDigitByte c

/-- `int` of digits. -/
def int (b : Bytes) : Nat := b.foldl (fun n c => 10 * n + (c.toNat - 48)) 0

/-- `T1T2AiA2ii CCCC DDHHmm` -/
def malformed (heading station time : Bytes) : Bool :=
  !isalnum heading || heading.length ∉ [4, 5, 6] || !isalnum station || station.length ∉ [4, 5, 6] ||
    !isdigit time || time.length ≠ 6 || !(0 < int (time.take 2) && int (time.take 2) ≤ 31) ||
    !(int ((time.drop 2).take 2) ≤ 23) || !(int (time.drop 4) ≤ 59)

section Verify
variable (first : Bytes → Option Char)

/-- Whether it is a `BBB` field. The first character is that of the decoded field, if it can be decoded. -/
def valid (field : Bytes) : Option Bool :=
  if !isalpha field || field.length ≠ 3 then some false else (first field).map fun c => decide (c ∈ ['C', 'A', 'R', 'P'])

/-- The fifth field, where it is the last. -/
def fifthValid : List Bytes → Option Bool
  | [_, field] => valid first field
  | _ => some true

/-- The fields from the fourth on, and whether any were removed. -/
def verifyRest : List Bytes → Option (List Bytes × Bool)
  | [] => some ([], false)
  | bbb :: more =>
    (valid first bbb).bind fun fourth =>
      if !fourth then some ([], true)
      else (fifthValid first (bbb :: more)).map fun fifth =>
        if !fifth then ([bbb], true)
        else if more.length > 1 then (bbb :: more.take 1, true)
        else (bbb :: more, false)

/-- The header and whether it is a problem. Nothing where a field cannot be decoded. -/
def verifyHeader (header : Bytes) : Option (Bytes × Bool) :=
  let header := [space].intercalate (header.splitOn space)
  if header = [] then some (header, true)
  else
    match header.splitOn space with
    | heading :: station :: time :: rest =>
      let long := time.length > 6
      let time := if long then time.take 6 else time
      if malformed heading station time then some (header, true)
      else do
        let (rest, removed) ← verifyRest first rest
        some (if long ∨ removed then [space].intercalate (heading :: station :: time :: rest) else header, false)
    | _ => some (header, false)

end Verify
end Sarracenia.Source.Bulletin
