import Sarracenia.Guarantees.Wmo00.Envelope

/-!
# Records read back

As long as every length fits its eight digits, the reader meets the records where they were
written. What it takes for the payload starts at the twelfth byte, wherever the payload starts.
-/
namespace Sarracenia.Guarantees.Wmo00
open Library Library.Decimal
open Library.Text hiding slice split
open Source.Transfer (Bytes)
open Source.Wmo00

/-! ## The outer header -/

section Header

theorem decode_encode {s : Str} (plain : ∀ c ∈ s, c.toNat < 128) : decode (encode s) = s := by
  unfold decode encode
  rw [List.map_map]
  refine (List.map_congr_left fun c member => ?_).trans (List.map_id s)
  have small := plain c member
  change Char.ofNat (UInt8.ofNat c.toNat).toNat = c
  rw [UInt8.toNat_ofNat', Nat.mod_eq_of_lt (by omega), Char.ofNat_toNat]

theorem pad_plain (w n : Nat) : ∀ c ∈ pad w n, c.toNat < 128 ∧ isSpace c = false :=
  chars_all _ (digitsOf_lt_ten w n) (by decide)

theorem int_pad {n : Nat} (fits : n < 10 ^ 8) : int (encode (pad 8 n)) = some (n : Int) := by
  have digits : ((encode (pad 8 n)).all fun c => c < 128 && !(28 ≤ c && c < 32)) = true := by
    apply List.all_eq_true.mpr
    intro c member
    have isDigit := pad_digits 8 n c member
    have low := (digit_bounds isDigit).1
    have above : ¬ c < 32 := fun less => by
      have := UInt8.lt_iff_toNat_lt.mp less
      change c.toNat < 32 at this
      omega
    simp [digit_ascii isDigit, above]
  rw [int, if_pos digits, decode_encode fun c member => (pad_plain 8 n c member).1, readInt,
    strip_of_no_space _ fun c member => (pad_plain 8 n c member).2, pad,
    readSigned_chars _ (digitsOf_lt_ten 8 n) (List.ne_nil_of_length_pos (by rw [digitsOf_length]; decide)),
    value_digitsOf, Nat.mod_eq_of_lt fits]

end Header

namespace Bulletin
variable (b : Bulletin)

/-- What the reader takes for the payload. -/
def read : Bytes := (b.writtenNumber ++ crcrlf ++ b.writtenPayload).drop 8

def Fits : Prop := b.body.length < 10 ^ 8

variable {b}

theorem head_eq (fits : b.Fits) : ∃ identifier : Bytes, identifier.length = 2 ∧ b.head = encode (pad 8 b.body.length) ++ identifier := by
  have written : outerHeader b.body = encode (pad 8 b.body.length) ++ [0, 0] := by
    rw [outerHeader, zeros_fits (by decide) fits]
  cases b with
  | outer number r nulls size =>
    cases nulls with
    | true => exact ⟨[0, 0], rfl, written⟩
    | false => exact ⟨[48, 48], rfl, rfl⟩
  | plain r bare => exact ⟨[0, 0], rfl, written⟩
  | inner number r closed => exact ⟨[0, 0], rfl, written⟩

theorem body_parts (b : Bulletin) : b.body = [SOH, 13, 13, 10] ++ (b.writtenNumber ++ crcrlf ++ b.writtenPayload) ++ [ETX] := by
  simp only [body, enclosed, crcrlf, List.append_assoc, List.cons_append, List.nil_append]

theorem report_long (r : Report) : 19 ≤ r.bytes.length := by
  have long := r.long
  rw [Report.bytes, List.length_append, List.length_cons]
  omega

theorem payload_long (b : Bulletin) : 19 ≤ b.payload.length := report_long b.report

theorem bytes_long : ∀ b : Bulletin, 19 ≤ b.bytes.length
  | plain r _ => report_long r
  | inner number r true => by
    have long := report_long r
    change 19 ≤ (enclosed number.bytes r.bytes).length
    rw [enclosed_length]
    omega
  | inner number r false => by
    have long := report_long r
    change 19 ≤ (crcrlf ++ number.bytes ++ crcrlf ++ r.bytes).length
    rw [List.length_append]
    omega
  | outer number r nulls _ => by
    have long := report_long r
    change 19 ≤ (encode (pad 8 _) ++ identifier nulls ++ enclosed number.bytes r.bytes).length
    rw [List.length_append, enclosed_length]
    omega

theorem written_long (b : Bulletin) : 19 ≤ b.writtenPayload.length := by
  unfold writtenPayload
  split
  · exact bytes_long b
  · exact payload_long b

theorem body_long (b : Bulletin) : 27 ≤ b.body.length := by
  have long := written_long b
  rw [body, enclosed_length]
  omega

theorem read_eq (b : Bulletin) : (b.body.drop 12).take (b.body.length - 13) = b.read := by
  have long := written_long b
  have inside : 8 ≤ (b.writtenNumber ++ crcrlf ++ b.writtenPayload).length := by
    rw [List.length_append]
    omega
  rw [body_parts, read]
  generalize b.writtenNumber ++ crcrlf ++ b.writtenPayload = parts at inside
  have behind : ([SOH, 13, 13, 10] ++ parts ++ [ETX]).drop 12 = parts.drop 8 ++ [ETX] := by
    rw [List.append_assoc, show 12 = [SOH, 13, 13, 10].length + 8 from rfl, ← List.drop_drop, List.drop_left,
      List.drop_append_of_le_length inside]
  rw [behind]
  apply List.take_left'
  rw [List.length_drop, List.length_append, List.length_append]
  change _ = 4 + parts.length + 1 - 13
  omega

end Bulletin

/-! ## One record, and all of them -/

section Records
variable (o : Options) (md5 : Bytes → Str) (opens : Str → Bool)

/-- One turn of the loop, at a record that is whole. -/
theorem records_turn {d : Bytes} {current payload_len fuel : Nat} (more : current + 19 < d.length)
    (length : int ((d.drop current).take 8) = some (payload_len : Int)) (whole : current + payload_len ≤ d.length) :
    records o md5 opens d (fuel + 1) current =
      followed (raisedOr (bulletin o md5 opens ((d.drop (current + 10)).take payload_len)
          ((d.drop (current + 22)).take (payload_len - 13))))
        (records o md5 opens d fuel ((current + 10 + payload_len : Nat) : Int)) := by
  have digits := slice_nat d current (current + 8)
  have enclosed_ := slice_nat d (current + 10) (current + 10 + payload_len)
  rw [Nat.add_sub_cancel_left] at digits enclosed_
  have start : payload_start d ((current : Int) + 10) = some 12 := by
    rw [payload_start, inRange, if_pos (decide_eq_true (by omega))]
  have inner_ : slice d ((current : Int) + 10 + 12) ((current : Int) + 10 + payload_len - 1) =
      (d.drop (current + 22)).take (payload_len - 13) := by
    unfold slice place
    rw [if_neg (by omega), if_neg (by omega), show ((current : Int) + 10 + 12).toNat = current + 22 by omega,
      show ((current : Int) + 10 + payload_len - 1).toNat - (current + 22) = payload_len - 13 by omega]
  push_cast at digits enclosed_ ⊢
  rw [records, if_pos (by omega), digits, length]
  dsimp only
  rw [if_neg (by omega), start]
  dsimp only
  rw [enclosed_, inner_]

/-- What is read of the record of a bulletin. -/
def readOne (b : Bulletin) : Announced := raisedOr (bulletin o md5 opens b.body b.read)

/-- What is read of all of them, up to the first exception. -/
def readAll (l : List Bulletin) : Option Announced :=
  l.foldr (fun b rest => followed (readOne o md5 opens b) rest) (some ([], false))

/-- The reader keeps its place. -/
theorem records_streams (before : Bytes) (l : List Bulletin) (fits : ∀ b ∈ l, b.Fits) {fuel : Nat} (enough : l.length < fuel) :
    records o md5 opens (before ++ l.flatMap Bulletin.stream) fuel before.length = readAll o md5 opens l := by
  induction l generalizing before fuel with
  | nil =>
    obtain ⟨fuel, rfl⟩ := Nat.exists_eq_add_one.mpr (Nat.zero_lt_of_lt enough)
    rw [List.flatMap_nil, List.append_nil, records, if_neg (by omega)]
    rfl
  | cons b l ih =>
    obtain ⟨fuel, rfl⟩ := Nat.exists_eq_add_one.mpr (Nat.zero_lt_of_lt enough)
    obtain ⟨fit, fits⟩ := List.forall_mem_cons.mp fits
    obtain ⟨identifier, two, head⟩ := Bulletin.head_eq fit
    have long := Bulletin.body_long b
    have width : b.head.length = 10 := by rw [head, List.length_append, encode_length, pad_length, two]
    have next := ih (before ++ b.stream) fits (Nat.lt_of_succ_lt_succ enough)
    have d : before ++ (b :: l).flatMap Bulletin.stream = before ++ (b.head ++ (b.body ++ l.flatMap Bulletin.stream)) := by
      rw [List.flatMap_cons, Bulletin.stream, List.append_assoc]
    have after : before ++ b.stream ++ l.flatMap Bulletin.stream = before ++ (b.head ++ (b.body ++ l.flatMap Bulletin.stream)) := by
      rw [Bulletin.stream, List.append_assoc, List.append_assoc]
    rw [after] at next
    rw [d]
    generalize l.flatMap Bulletin.stream = more at next
    have all : (before ++ (b.head ++ (b.body ++ more))).length = before.length + 10 + b.body.length + more.length := by
      simp only [List.length_append, width]
      omega
    have size : int (((before ++ (b.head ++ (b.body ++ more))).drop before.length).take 8) = some (b.body.length : Int) := by
      rw [List.drop_left, head, List.append_assoc, List.take_left' (by rw [encode_length, pad_length])]
      exact int_pad fit
    have inside : (before ++ (b.head ++ (b.body ++ more))).drop (before.length + 10) = b.body ++ more := by
      rw [← List.drop_drop, List.drop_left, List.drop_left' width]
    have behind : (before ++ (b.head ++ (b.body ++ more))).drop (before.length + 22) = (b.body ++ more).drop 12 := by
      rw [show before.length + 22 = before.length + 10 + 12 from rfl, ← List.drop_drop, inside]
    have payload : ((b.body ++ more).drop 12).take (b.body.length - 13) = b.read := by
      rw [List.drop_append_of_le_length (by omega), List.take_append_of_le_length (by rw [List.length_drop]; omega)]
      exact Bulletin.read_eq b
    rw [records_turn o md5 opens (by omega) size (by omega), inside, behind, List.take_left, payload,
      show before.length + 10 + b.body.length = (before ++ b.stream).length by
        rw [Bulletin.stream, List.length_append, List.length_append, width, Nat.add_assoc], next]
    rfl

theorem followed_append (first second : Announced) (rest : Option Announced) :
    (followed first (some second)).bind (fun r => followed r rest) = followed first (followed second rest) := by
  unfold followed
  by_cases raised : first.2 = true
  · rw [if_pos raised, if_pos raised]
    simp [raised]
  · rw [if_neg raised, if_neg raised]
    by_cases later : second.2 = true
    · simp [later]
    · simp [later, Option.map_map, Function.comp_def]

theorem readAll_some (l : List Bulletin) : ∃ r, readAll o md5 opens l = some r := by
  induction l with
  | nil => exact ⟨_, rfl⟩
  | cons b l ih =>
    obtain ⟨r, read⟩ := ih
    change ∃ r, followed (readOne o md5 opens b) (readAll o md5 opens l) = some r
    rw [read, followed]
    split
    · exact ⟨_, rfl⟩
    · exact ⟨_, rfl⟩

theorem readAll_append (l m : List Bulletin) :
    (readAll o md5 opens l).bind (fun r => followed r (readAll o md5 opens m)) = readAll o md5 opens (l ++ m) := by
  induction l with
  | nil =>
    change (readAll o md5 opens m).map (fun r => ([] ++ r.1, r.2)) = _
    simp
  | cons b l ih =>
    obtain ⟨r, read⟩ := readAll_some o md5 opens l
    rw [read, Option.bind_some] at ih
    change (followed (readOne o md5 opens b) (readAll o md5 opens l)).bind _ =
      followed (readOne o md5 opens b) (readAll o md5 opens (l ++ m))
    rw [read, followed_append, ih]

/-- How the bulletins were put in files is not seen. -/
theorem split_files (groups : List (List Bulletin)) (fits : ∀ g ∈ groups, ∀ b ∈ g, b.Fits) {fuel : Nat}
    (enough : groups.flatten.length < fuel) :
    split o md5 opens fuel (groups.map (·.flatMap Bulletin.stream)) = readAll o md5 opens groups.flatten := by
  induction groups with
  | nil => rfl
  | cons g groups ih =>
    obtain ⟨here, others⟩ := List.forall_mem_cons.mp fits
    rw [List.flatten_cons, List.length_append] at enough
    rw [List.map_cons, split, List.flatten_cons, ih others (by omega)]
    cases g with
    | nil => rfl
    | cons b g =>
      have long : ¬ ((b :: g).flatMap Bulletin.stream).length < 12 := by
        have := Bulletin.body_long b
        rw [List.flatMap_cons, List.length_append, Bulletin.stream, List.length_append]
        omega
      have turns : (b :: g).length < fuel := by omega
      have read := records_streams o md5 opens [] (b :: g) here turns
      rw [List.nil_append, List.length_nil, Nat.cast_zero] at read
      rw [if_neg long, read, readAll_append]

theorem readOne_le (b : Bulletin) : (readOne o md5 opens b).1.length ≤ 1 := by
  unfold readOne bulletin
  dsimp only
  split
  · split
    · exact Nat.zero_le 1
    · split
      · exact Nat.le_refl 1
      · exact Nat.zero_le 1
  · exact Nat.zero_le 1

theorem readAll_le (l : List Bulletin) {r : Announced} (read : readAll o md5 opens l = some r) : r.1.length ≤ l.length := by
  induction l generalizing r with
  | nil =>
    cases read
    exact Nat.le_refl 0
  | cons b l ih =>
    have one := readOne_le o md5 opens b
    obtain ⟨rest, others⟩ := readAll_some o md5 opens l
    change followed (readOne o md5 opens b) (readAll o md5 opens l) = some r at read
    rw [others, followed] at read
    rw [List.length_cons]
    split at read
    · cases read
      omega
    · cases read
      have := ih others
      rw [List.length_append]
      omega

/-- One file for each bulletin, the right one, if and only if each is read right. -/
theorem readAll_iff (expected : Bulletin → Str × Bytes) (l : List Bulletin) :
    readAll o md5 opens l = some (l.map expected, false) ↔ ∀ b ∈ l, readOne o md5 opens b = ([expected b], false) := by
  induction l with
  | nil => simp [readAll]
  | cons b l ih =>
    obtain ⟨rest, others⟩ := readAll_some o md5 opens l
    have few := readAll_le o md5 opens l others
    have one := readOne_le o md5 opens b
    rw [List.forall_mem_cons, ← ih]
    change followed (readOne o md5 opens b) (readAll o md5 opens l) = _ ↔ _
    rw [others, followed]
    constructor
    · intro all
      split at all
      · next raised =>
        rw [Option.some.inj all] at raised
        cases raised
      · next fine =>
        obtain ⟨files, flag⟩ := Prod.mk.inj (Option.some.inj all)
        have length := congrArg List.length files
        rw [List.length_append, List.map_cons, List.length_cons, List.length_map] at length
        have single : (readOne o md5 opens b).1.length = [expected b].length := by
          change _ = 1
          omega
        obtain ⟨first, more⟩ := List.append_inj files single
        exact ⟨Prod.ext first (Bool.eq_false_iff.mpr fine), congrArg some (Prod.ext more flag)⟩
    · intro ⟨first, more⟩
      rw [first, Option.some.inj more]
      rfl

end Records
end Sarracenia.Guarantees.Wmo00
