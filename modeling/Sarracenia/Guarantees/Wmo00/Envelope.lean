import Sarracenia.Source.Wmo00

/-!
# Bulletins and their envelopes

The forms in which a bulletin comes, and what is written for each of them.
-/
namespace Sarracenia.Guarantees.Wmo00
open Library Library.Decimal
open Library.Text hiding slice
open Source.Transfer (Bytes)
open Source.Wmo00

/-! ## Bulletins -/

abbrev Digit := {c : UInt8 // digit c = true}

/-- The number of an inner header. -/
inductive Number where
  | three (a b c : Digit)
  | five (a b c d e : Digit)

def Number.bytes : Number → Bytes
  | .three a b c => [a.1, b.1, c.1]
  | .five a b c d e => [a.1, b.1, c.1, d.1, e.1]

/-- A heading, up to a carriage return, and what comes after it. -/
structure Report where
  heading : Bytes
  rest : Bytes
  ascii : ascii heading = true
  line : CR ∉ heading
  long : 18 ≤ heading.length

def Report.bytes (r : Report) : Bytes := r.heading ++ CR :: r.rest

/-- From SOH to ETX. -/
def enclosed (number payload : Bytes) : Bytes := SOH :: crcrlf ++ number ++ crcrlf ++ payload ++ [ETX]

/-- A plain one has none of the marks of the other forms. The format identifier of an outer header
is `00`, or two nulls as `wmo00_accumulate` writes it. -/
inductive Bulletin where
  | plain (r : Report) (bare : r.heading.head? ≠ some SOH ∧ (r.heading.drop 8).take 3 ≠ [48, 48, 1])
  | inner (number : Number) (r : Report) (closed : Bool)
  | outer (number : Number) (r : Report) (nulls : Bool)
      (fits : (enclosed number.bytes r.bytes).length < 10 ^ 8)

namespace Bulletin

def report : Bulletin → Report
  | plain r _ | inner _ r _ | outer _ r _ _ => r

/-- What comes without any envelope. -/
def payload (b : Bulletin) : Bytes := b.report.bytes

def identifier (nulls : Bool) : Bytes := if nulls then [0, 0] else [48, 48]

/-- The bulletin as it comes. -/
def bytes : Bulletin → Bytes
  | plain r _ => r.bytes
  | inner number r true => enclosed number.bytes r.bytes
  | inner number r false => crcrlf ++ number.bytes ++ crcrlf ++ r.bytes
  | outer number r nulls _ =>
      encode (pad 8 (enclosed number.bytes r.bytes).length) ++ identifier nulls ++ enclosed number.bytes r.bytes

/-- The number of a plain one counts its envelope. -/
def number : Bulletin → Bytes
  | plain r _ => encode (zeros 5 (r.bytes.length + 13))
  | inner number _ _ | outer number _ _ _ => number.bytes

/-- The record, from SOH to ETX. -/
def record (b : Bulletin) : Bytes := enclosed b.number b.payload

/-- What is enclosed once more: the two nulls are not recognised. -/
def Mistaken : Bulletin → Prop
  | outer _ _ true _ => True
  | _ => False

instance : DecidablePred Mistaken
  | outer _ _ true _ => .isTrue trivial
  | outer _ _ false _ | plain _ _ | inner _ _ _ => .isFalse nofun

/-- What is put between the outer header and the next one, by its number and payload. -/
def writtenNumber (b : Bulletin) : Bytes :=
  if b.Mistaken then encode (zeros 5 (b.bytes.length + 13)) else b.number

def writtenPayload (b : Bulletin) : Bytes := if b.Mistaken then b.bytes else b.payload

def body (b : Bulletin) : Bytes := enclosed b.writtenNumber b.writtenPayload

/-- A header that is recognised is written as it came. -/
def head : Bulletin → Bytes
  | outer number r false _ => encode (pad 8 (enclosed number.bytes r.bytes).length) ++ [48, 48]
  | b => outerHeader b.body

/-- What is written. -/
def stream (b : Bulletin) : Bytes := b.head ++ b.body

/-- The bytes of an outer header that is recognised are counted twice. -/
def counted : Bulletin → Nat
  | outer number r false _ => (enclosed number.bytes r.bytes).length + 20
  | b => b.body.length + 10

end Bulletin

/-! ## Digits -/

section Digits

theorem slice_nat (b : Bytes) (i j : Nat) : slice b i j = (b.drop i).take (j - i) := by
  unfold slice place
  rw [if_neg (by omega), if_neg (by omega), Int.toNat_natCast, Int.toNat_natCast]

/-- A numeric header of a width at the start. -/
def numbered (b : Bytes) (width : Nat) : Option Bool :=
  if b.take 3 = crcrlf then
    (isnumeric ((b.drop 3).take width)).map fun numeric =>
      numeric && decide ((b.drop (3 + width)).take 3 = crcrlf)
  else some false

theorem numberAt_nat (b : Bytes) (start width : Nat) : numberAt b start width = numbered (b.drop start) width := by
  have first := slice_nat b start (start + 3)
  have second := slice_nat b (start + 3) (start + 3 + width)
  have third := slice_nat b (start + 3 + width) (start + 3 + width + 3)
  rw [Nat.add_sub_cancel_left] at first second third
  push_cast at first second third
  rw [numberAt, first, second, third, numbered, List.drop_drop, List.drop_drop, Nat.add_assoc]

theorem digit_bounds {c : UInt8} (isDigit : digit c = true) : 48 ≤ c.toNat ∧ c.toNat < 58 := by
  unfold digit at isDigit
  obtain ⟨low, high⟩ := (Bool.and_eq_true _ _).mp isDigit
  exact ⟨UInt8.le_iff_toNat_le.mp (of_decide_eq_true low), UInt8.lt_iff_toNat_lt.mp (of_decide_eq_true high)⟩

theorem digit_ascii {c : UInt8} (isDigit : digit c = true) : c < 128 :=
  UInt8.lt_iff_toNat_lt.mpr (by have := (digit_bounds isDigit).2; exact Nat.lt_trans this (by decide))

theorem digit_ne {c : UInt8} (isDigit : digit c = true) {other : UInt8} (apart : digit other = false) : c ≠ other := by
  intro same
  rw [same, apart] at isDigit
  cases isDigit

@[simp] theorem encode_length (s : Str) : (encode s).length = s.length := List.length_map _

theorem pad_digits (w n : Nat) : ∀ c ∈ encode (pad w n), digit c = true := by
  intro c member
  obtain ⟨k, inside, rfl⟩ := List.mem_map.mp member
  obtain ⟨d, digits, rfl⟩ := List.mem_map.mp inside
  have small := digitsOf_lt_ten w n d digits
  have all : ∀ d < 10, digit (UInt8.ofNat (48 + d)) = true := by decide
  rw [digitChar_toNat small]
  exact all d small

theorem digitCount_le {w n : Nat} (pos : 0 < w) : digitCount n ≤ w ↔ n < 10 ^ w := by
  unfold digitCount
  constructor
  · intro le
    exact (Nat.lt_pow_succ_log_self (by decide) n).trans_le (Nat.pow_le_pow_right (by decide) le)
  · intro small
    exact Nat.log_lt_of_lt_pow' (by omega) small

@[simp] theorem zeros_length (w n : Nat) : (zeros w n).length = max w (digitCount n) := pad_length _ _

theorem zeros_fits {w n : Nat} (pos : 0 < w) (fits : n < 10 ^ w) : zeros w n = pad w n := by
  rw [zeros, max_eq_left ((digitCount_le pos).mpr fits)]

end Digits

/-! ## What is written -/

section Written

theorem crcrlf_length : crcrlf.length = 3 := rfl

theorem enclosed_length (number payload : Bytes) :
    (enclosed number payload).length = number.length + payload.length + 8 := by
  simp only [enclosed, List.length_append, List.length_cons, List.length_nil, crcrlf_length]
  omega

theorem number_digits (n : Number) : ∀ c ∈ n.bytes, digit c = true := by
  intro c member
  cases n with
  | three a b d =>
    simp only [Number.bytes, List.mem_cons, List.not_mem_nil, or_false] at member
    rcases member with rfl | rfl | rfl
    · exact a.2
    · exact b.2
    · exact d.2
  | five a b d e f =>
    simp only [Number.bytes, List.mem_cons, List.not_mem_nil, or_false] at member
    rcases member with rfl | rfl | rfl | rfl | rfl
    · exact a.2
    · exact b.2
    · exact d.2
    · exact e.2
    · exact f.2

/-- Nothing but digits and line ends stands between the places where a header is looked for. -/
theorem isnumeric_some {b : Bytes} (plain : ascii b = true) : ∃ numeric, isnumeric b = some numeric :=
  ⟨_, if_pos plain⟩

theorem isnumeric_digits {b : Bytes} (nonempty : b ≠ []) (digits : ∀ c ∈ b, digit c = true) : isnumeric b = some true := by
  have plain : ascii b = true := List.all_eq_true.mpr fun c member => decide_eq_true (digit_ascii (digits c member))
  have all : b.all digit = true := List.all_eq_true.mpr digits
  have some_ : b.isEmpty = false := List.isEmpty_eq_false_iff.mpr nonempty
  rw [isnumeric, if_pos plain, some_, all]
  rfl

theorem numbered_none {b : Bytes} {width : Nat} (other : b.take 3 ≠ crcrlf) : numbered b width = some false :=
  if_neg other

theorem numbered_eq {b : Bytes} {width : Nat} {numeric : Bool} (starts : b.take 3 = crcrlf)
    (read : isnumeric ((b.drop 3).take width) = some numeric) :
    numbered b width = some (numeric && decide ((b.drop (3 + width)).take 3 = crcrlf)) := by
  rw [numbered, if_pos starts, read]
  rfl

variable (number : Number) (payload : Bytes)

theorem numbered_header : ∃ three five, numbered (crcrlf ++ number.bytes ++ crcrlf ++ payload) 3 = some three ∧
    numbered (crcrlf ++ number.bytes ++ crcrlf ++ payload) 5 = some five ∧ (three || five) = true := by
  cases number with
  | three a b c =>
    have numeric : isnumeric [a.1, b.1, c.1] = some true := isnumeric_digits nofun (number_digits (.three a b c))
    have plain : ascii [a.1, b.1, c.1, 13, 13] = true := by
      simp [ascii, digit_ascii a.2, digit_ascii b.2, digit_ascii c.2]
    obtain ⟨_, wider⟩ := isnumeric_some plain
    exact ⟨_, _, numbered_eq rfl numeric, numbered_eq rfl wider, rfl⟩
  | five a b c d e =>
    have short : isnumeric [a.1, b.1, c.1] = some true := isnumeric_digits nofun (number_digits (.three a b c))
    have numeric : isnumeric [a.1, b.1, c.1, d.1, e.1] = some true :=
      isnumeric_digits nofun (number_digits (.five a b c d e))
    exact ⟨_, _, numbered_eq rfl short, numbered_eq rfl numeric, Bool.or_true _⟩

/-- An inner header is closed with SOH and ETX where they are missing. -/
theorem inner_open : innerEnvelope (crcrlf ++ number.bytes ++ crcrlf ++ payload) = some (enclosed number.bytes payload) := by
  obtain ⟨three, five, first, second, found⟩ := numbered_header number payload
  have n3 := (numberAt_nat (crcrlf ++ number.bytes ++ crcrlf ++ payload) 0 3).trans first
  have n5 := (numberAt_nat (crcrlf ++ number.bytes ++ crcrlf ++ payload) 0 5).trans second
  have other : (crcrlf ++ number.bytes ++ crcrlf ++ payload).head? ≠ some SOH := by
    change some 13 ≠ some SOH
    decide
  push_cast at n3 n5
  rw [innerEnvelope, if_pos other, n3, n5]
  dsimp only [Option.bind_eq_bind, Option.bind_some]
  rw [if_pos found]
  simp only [enclosed, List.append_assoc, List.cons_append, crcrlf]

/-- A closed one is left as it is. -/
theorem inner_closed : innerEnvelope (enclosed number.bytes payload) = some (enclosed number.bytes payload) := by
  obtain ⟨_, five, -, second, -⟩ := numbered_header number (payload ++ [ETX])
  have n5 := numberAt_nat (enclosed number.bytes payload) 1 5
  have same : (enclosed number.bytes payload).drop 1 = crcrlf ++ number.bytes ++ crcrlf ++ (payload ++ [ETX]) := by
    simp only [enclosed, List.append_assoc, List.cons_append, List.drop_succ_cons, List.drop_zero]
  rw [same, second] at n5
  push_cast at n5
  have mark : ¬ (enclosed number.bytes payload).head? ≠ some SOH := fun other => other rfl
  rw [innerEnvelope, if_neg mark, n5]
  rfl

/-- Where no header is recognised, one with the length is put in front. -/
theorem inner_bare {b : Bytes} (mark : b.head? ≠ some SOH) (other : b.take 3 ≠ crcrlf) :
    innerEnvelope b = some (enclosed (encode (zeros 5 (b.length + 13))) b) := by
  have n3 := (numberAt_nat b 0 3).trans (numbered_none other)
  have n5 := (numberAt_nat b 0 5).trans (numbered_none other)
  push_cast at n3 n5
  rw [innerEnvelope, if_pos mark, n3, n5]
  rfl

theorem output_unmarked {b enveloped : Bytes} (other : (b.drop 8).take 3 ≠ [48, 48, 1]) (inside : innerEnvelope b = some enveloped) :
    output_record b = some (outerHeader enveloped ++ enveloped, enveloped.length + 10) := by
  have found := slice_nat b 8 11
  push_cast at found
  rw [output_record, found, if_pos other, inside]
  rfl

end Written

namespace Bulletin

theorem plain_bare (r : Report) (bare : r.heading.head? ≠ some SOH ∧ (r.heading.drop 8).take 3 ≠ [48, 48, 1]) :
    r.bytes.head? ≠ some SOH ∧ r.bytes.take 3 ≠ crcrlf ∧ (r.bytes.drop 8).take 3 ≠ [48, 48, 1] := by
  obtain ⟨mark, outer⟩ := bare
  have long := r.long
  refine ⟨?_, ?_, ?_⟩
  · rw [Report.bytes, List.head?_append_of_ne_nil _ (List.ne_nil_of_length_pos (by omega))]
    exact mark
  · intro header
    rw [Report.bytes, List.take_append_of_le_length (by omega)] at header
    have member : CR ∈ r.heading.take 3 := header ▸ List.mem_cons_self
    exact r.line (List.mem_of_mem_take member)
  · rw [Report.bytes, List.drop_append_of_le_length (by omega),
      List.take_append_of_le_length (by rw [List.length_drop]; omega)]
    exact outer

theorem outer_start (digits rest : Bytes) (width : digits.length = 8) (all : ∀ c ∈ digits, digit c = true) :
    (digits ++ rest).head? ≠ some SOH ∧ (digits ++ rest).take 3 ≠ crcrlf ∧ (digits ++ rest).drop 8 = rest := by
  refine ⟨?_, ?_, List.drop_left' width⟩
  · intro mark
    rw [List.head?_append_of_ne_nil _ (List.ne_nil_of_length_pos (by omega))] at mark
    exact digit_ne (all SOH (List.mem_of_mem_head? mark)) rfl rfl
  · intro header
    rw [List.take_append_of_le_length (by omega)] at header
    have member : (13 : UInt8) ∈ digits.take 3 := header ▸ List.mem_cons_self
    exact digit_ne (all 13 (List.mem_of_mem_take member)) rfl rfl

/-- The place of the format identifier is in the inner header or behind it. -/
theorem closed_unmarked (number : Number) (payload : Bytes) : ((enclosed number.bytes payload).drop 8).take 3 ≠ [48, 48, 1] := by
  intro same
  cases number with
  | three a b c => cases same
  | five a b c d e => cases (List.cons.inj same).2

theorem open_unmarked (number : Number) (payload : Bytes) :
    ((crcrlf ++ number.bytes ++ crcrlf ++ payload).drop 8).take 3 ≠ [48, 48, 1] := by
  intro same
  cases number with
  | three a b c => cases same
  | five a b c d e => cases same

/-- What is written for each form. -/
theorem output_record_bytes (b : Bulletin) : output_record b.bytes = some (b.stream, b.counted) := by
  cases b with
  | plain r bare =>
    obtain ⟨mark, header, unmarked⟩ := plain_bare r bare
    exact output_unmarked unmarked (inner_bare mark header)
  | inner number r closed =>
    cases closed with
    | true => exact output_unmarked (closed_unmarked number _) (inner_closed number r.bytes)
    | false => exact output_unmarked (open_unmarked number _) (inner_open number r.bytes)
  | outer number r nulls fits =>
    have width : (encode (pad 8 (enclosed number.bytes r.bytes).length)).length = 8 := by rw [encode_length, pad_length]
    obtain ⟨mark, header, rest⟩ := outer_start _ (identifier nulls ++ enclosed number.bytes r.bytes) width (pad_digits _ _)
    rw [← List.append_assoc] at mark header rest
    cases nulls with
    | true =>
      apply output_unmarked _ (inner_bare mark header)
      change ((encode (pad 8 _) ++ identifier true ++ enclosed number.bytes r.bytes).drop 8).take 3 ≠ _
      rw [rest]
      exact fun same => by cases same
    | false =>
      obtain ⟨_, five, -, second, -⟩ := numbered_header number (r.bytes ++ [ETX])
      have n5 := numberAt_nat (outer number r false fits).bytes 11 5
      have inside : (outer number r false fits).bytes.drop 11 = crcrlf ++ number.bytes ++ crcrlf ++ (r.bytes ++ [ETX]) := by
        change (encode (pad 8 _) ++ identifier false ++ enclosed number.bytes r.bytes).drop (8 + 3) = _
        rw [← List.drop_drop, rest]
        simp only [identifier, enclosed, List.append_assoc, List.cons_append, List.nil_append, Bool.false_eq_true, if_false,
          List.drop_succ_cons, List.drop_zero]
      rw [inside, second] at n5
      push_cast at n5
      have found := slice_nat (outer number r false fits).bytes 8 11
      have identified : ((outer number r false fits).bytes.drop 8).take (11 - 8) = [48, 48, 1] := by
        change ((encode (pad 8 _) ++ identifier false ++ enclosed number.bytes r.bytes).drop 8).take 3 = _
        rw [rest]
        rfl
      rw [identified] at found
      push_cast at found
      rw [output_record, found, if_neg (not_not.mpr rfl), n5]
      have twice : (outer number r false fits).bytes.length + 10 = (outer number r false fits).counted := by
        change (encode (pad 8 _) ++ identifier false ++ enclosed number.bytes r.bytes).length + 10 = _
        rw [List.length_append, List.length_append, width]
        change 8 + 2 + _ + 10 = _ + 20
        omega
      rw [Option.map_some, twice]
      rfl

/-! ### Sizes -/

variable (b : Bulletin)

theorem digits_width : ∀ b : Bulletin, b.head.length = 10 ∨ b.head = outerHeader b.body
  | outer number r false _ => Or.inl (by
      change (encode (pad 8 _) ++ [48, 48]).length = 10
      rw [List.length_append, encode_length, pad_length]
      rfl)
  | outer _ _ true _ | plain _ _ | inner _ _ _ => Or.inr rfl

end Bulletin
end Sarracenia.Guarantees.Wmo00
