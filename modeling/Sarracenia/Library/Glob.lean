import Mathlib.Data.List.Infix
import Sarracenia.Library.Text

/-!
# Patterns of file names

`fnmatch` as the library of the language has it: `*` stands for any text, `?` for any character, and a set
in brackets for one of its characters, or with `!` for one that is not. A bracket that is not closed stands
for itself.
-/
namespace Sarracenia.Library.Glob
open Library.Text

inductive Token where
  | star
  | one
  | literal (c : Char)
  | among (negated : Bool) (ranges : List (Char × Char))
  deriving DecidableEq, Repr

/-- The characters and the ranges of a set; a hyphen at either end stands for itself. -/
def ranges : Str → List (Char × Char)
  | a :: '-' :: b :: rest => (a, b) :: ranges rest
  | a :: rest => (a, a) :: ranges rest
  | [] => []

/-- The text of a set and what follows its bracket; a bracket that comes first is in the set. -/
def closed (s : Str) : Option (Bool × Str × Str) :=
  let negated := s.head? == some '!'
  let body := if negated then s.drop 1 else s
  let first := if body.head? == some ']' then 1 else 0
  let inside := body.take first ++ (body.drop first).takeWhile (· ≠ ']')
  match (body.drop first).dropWhile (· ≠ ']') with
  | _ :: rest => some (negated, inside, rest)
  | [] => none

/-- `translate`, with as many steps as there are characters. -/
def tokensFrom : Nat → Str → List Token
  | 0, _ => []
  | _, [] => []
  | n + 1, '*' :: s => .star :: tokensFrom n s
  | n + 1, '?' :: s => .one :: tokensFrom n s
  | n + 1, '[' :: s =>
    match closed s with
    | some (negated, inside, rest) => .among negated (ranges inside) :: tokensFrom n rest
    | none => .literal '[' :: tokensFrom n s
  | n + 1, c :: s => .literal c :: tokensFrom n s

def tokens (pattern : Str) : List Token := tokensFrom pattern.length pattern

/-- What a token says of one character. -/
def Token.accepts : Token → Char → Bool
  | .star, _ => false
  | .one, _ => true
  | .literal c, d => c == d
  | .among negated items, d => negated != items.any fun r => r.1 ≤ d && d ≤ r.2

def fits : List Token → Str → Bool
  | [], s => s.isEmpty
  | .star :: ts, s => s.tails.any (fits ts)
  | _ :: _, [] => false
  | t :: ts, c :: s => t.accepts c && fits ts s

/-- `fnmatch.fnmatch(name, pattern)`, where letters of both cases differ. -/
def fnmatch (name pattern : Str) : Bool := fits (tokens pattern) name

/-! ## What tokens fit -/

theorem fits_star (ts : List Token) (s : Str) : fits (.star :: ts) s = true ↔ ∃ t, t <:+ s ∧ fits ts t = true := by
  rw [fits, List.any_eq_true]
  constructor
  · intro ⟨t, member, fit⟩
    exact ⟨t, (List.mem_tails t s).mp member, fit⟩
  · intro ⟨t, suffix, fit⟩
    exact ⟨t, (List.mem_tails t s).mpr suffix, fit⟩

/-- A star, a character and a star fit every text with the character. -/
theorem fits_around {c : Char} {s : Str} (member : c ∈ s) : fits [.star, .literal c, .star] s = true := by
  obtain ⟨before, after, rfl⟩ := List.append_of_mem member
  rw [fits_star]
  refine ⟨c :: after, List.suffix_append before (c :: after), ?_⟩
  simp [fits, Token.accepts]

end Sarracenia.Library.Glob
