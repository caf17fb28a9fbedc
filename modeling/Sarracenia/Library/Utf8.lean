import Mathlib.Data.List.Infix
import Sarracenia.Library.Percent

/-!
# The bytes of a text

Where in the UTF-8 form of a text a character ends, what a byte tells of its place, and which bytes
can be decoded.
-/
namespace Sarracenia.Library.Percent
open Text

section Encoding
variable {a b s t : Str} {c d : Char}

theorem utf8Bytes_append (a b : Str) : utf8Bytes (a ++ b) = utf8Bytes a ++ utf8Bytes b := List.flatMap_append

theorem utf8Bytes_cons (c : Char) (s : Str) : utf8Bytes (c :: s) = String.utf8EncodeChar c ++ utf8Bytes s :=
  List.flatMap_cons

theorem length_le_bytes (s : Str) : s.length ≤ (utf8Bytes s).length := by
  induction s with
  | nil => exact Nat.zero_le _
  | cons c s ih =>
    have positive := c.utf8Size_pos
    rw [utf8Bytes_cons, List.length_append, String.length_utf8EncodeChar, List.length_cons]
    omega

theorem decodeUtf8_iff {bytes : List UInt8} : decodeUtf8 bytes = some s ↔ bytes = utf8Bytes s := by
  constructor
  · intro decoded
    unfold decodeUtf8 at decoded
    obtain ⟨found, read, rfl⟩ := Option.map_eq_some_iff.mp decoded
    obtain ⟨text, valid⟩ := ByteArray.isSome_utf8Decode?_iff.mp (Option.isSome_of_eq_some read)
    rw [valid, List.utf8Decode?_utf8Encode] at read
    obtain rfl := Option.some.inj read
    have same : bytes.toByteArray = (utf8Bytes text).toByteArray := valid
    exact List.toByteArray_inj.mp same
  · intro same
    rw [same, decodeUtf8_utf8Bytes]

/-- No character's bytes begin those of another. -/
theorem encode_unique {x y : List UInt8} (same : String.utf8EncodeChar c ++ x = String.utf8EncodeChar d ++ y) : c = d := by
  have first := ByteArray.utf8DecodeChar?_utf8EncodeChar_append (c := c) (b := x.toByteArray)
  have second := ByteArray.utf8DecodeChar?_utf8EncodeChar_append (c := d) (b := y.toByteArray)
  rw [← List.toByteArray_append, same, List.toByteArray_append, second] at first
  exact (Option.some.inj first).symm

theorem bytes_prefixed (inside : utf8Bytes s <+: utf8Bytes t) : s <+: t := by
  induction s generalizing t with
  | nil => exact List.nil_prefix
  | cons c s ih =>
    obtain ⟨more, same⟩ := inside
    rw [utf8Bytes_cons, List.append_assoc] at same
    cases t with
    | nil =>
      have positive := c.utf8Size_pos
      have counted := congrArg List.length same
      rw [List.length_append, String.length_utf8EncodeChar] at counted
      change _ = 0 at counted
      omega
    | cons d t =>
      rw [utf8Bytes_cons] at same
      obtain rfl := encode_unique same
      exact List.cons_prefix_cons.mpr ⟨rfl, ih ⟨more, List.append_cancel_left same⟩⟩

end Encoding

section Bytes

/-- The byte starts a character of several bytes, as `byte & 0xc0 == 0xc0` has it. -/
def startsLong (byte : UInt8) : Bool := byte &&& 0xc0 == 0xc0

theorem every_byte {P : UInt8 → Prop} (all : ∀ n < 256, P (UInt8.ofNat n)) (byte : UInt8) : P byte := by
  have here := all byte.toNat byte.toNat_lt
  rwa [UInt8.ofNat_toNat] at here

theorem single_byte (byte : UInt8) : byte ≤ 0x7f → startsLong byte = false := by
  refine every_byte (P := fun byte => byte ≤ 0x7f → startsLong byte = false) ?_ byte
  decide +kernel

theorem continuation_byte (byte : UInt8) : startsLong (byte &&& 0x3f ||| 0x80) = false := by
  refine every_byte (P := fun byte => startsLong (byte &&& 0x3f ||| 0x80) = false) ?_ byte
  decide +kernel

theorem first_byte (byte : UInt8) : startsLong (byte &&& 0x1f ||| 0xc0) = true ∧ startsLong (byte &&& 0x0f ||| 0xe0) = true ∧
    startsLong (byte &&& 0x07 ||| 0xf0) = true := by
  refine every_byte (P := fun byte => startsLong (byte &&& 0x1f ||| 0xc0) = true ∧ startsLong (byte &&& 0x0f ||| 0xe0) = true ∧
    startsLong (byte &&& 0x07 ||| 0xf0) = true) ?_ byte
  decide +kernel

/-- Of the bytes of a character only the first can start one, and it does where more follow. -/
theorem encode_shape (c : Char) : ∃ first rest, String.utf8EncodeChar c = first :: rest ∧
    startsLong first = decide (1 < c.utf8Size) ∧ ∀ byte ∈ rest, startsLong byte = false := by
  match size : c.utf8Size, c.utf8Size_pos, c.utf8Size_le_four with
  | 1, _, _ =>
    have small : c.val ≤ 127 := Char.utf8Size_eq_one_iff.mp size
    refine ⟨_, _, String.utf8EncodeChar_eq_singleton size, single_byte _ ?_, nofun⟩
    rw [UInt8.le_iff_toNat_le]
    rw [UInt32.le_iff_toNat_le] at small
    have value : c.val.toUInt8.toNat = c.val.toNat % 256 := rfl
    have limit : (127 : UInt32).toNat = 127 := rfl
    have limit' : (0x7f : UInt8).toNat = 127 := rfl
    omega
  | 2, _, _ =>
    refine ⟨_, _, String.utf8EncodeChar_eq_cons_cons size, (first_byte _).1, ?_⟩
    simp [continuation_byte]
  | 3, _, _ =>
    refine ⟨_, _, String.utf8EncodeChar_eq_cons_cons_cons size, (first_byte _).2.1, ?_⟩
    simp [continuation_byte]
  | 4, _, _ =>
    refine ⟨_, _, String.utf8EncodeChar_eq_cons_cons_cons_cons size, (first_byte _).2.2, ?_⟩
    simp [continuation_byte]

end Bytes

section Boundary
variable {a b t u : Str} {n : Nat}

/-- A character of the text ends at the byte, or the text starts there. -/
def Boundary (t : Str) (n : Nat) : Prop := ∃ a b, t = a ++ b ∧ (utf8Bytes a).length = n

theorem boundary_take (cut : t = a ++ b) : (utf8Bytes t).take (utf8Bytes a).length = utf8Bytes a := by
  rw [cut, utf8Bytes_append, List.take_left]

/-- The bytes before a place can be decoded where a character ends there, and only there. -/
theorem decode_take_iff (within : n ≤ (utf8Bytes t).length) :
    decodeUtf8 ((utf8Bytes t).take n) = some u ↔ u <+: t ∧ (utf8Bytes u).length = n := by
  rw [decodeUtf8_iff]
  constructor
  · intro same
    refine ⟨bytes_prefixed (same ▸ List.take_prefix n _), ?_⟩
    rw [← same, List.length_take, Nat.min_eq_left within]
  · intro ⟨⟨b, cut⟩, long⟩
    rw [← long, boundary_take cut.symm]

/-- Every byte is the first of a character or inside one. -/
theorem byte_cases (within : n < (utf8Bytes t).length) :
    ∃ a c b, t = a ++ c :: b ∧ (utf8Bytes a).length ≤ n ∧ n < (utf8Bytes a).length + c.utf8Size := by
  induction t generalizing n with
  | nil => exact absurd within (Nat.not_lt_zero n)
  | cons c t ih =>
    rw [utf8Bytes_cons, List.length_append, String.length_utf8EncodeChar] at within
    by_cases here : n < c.utf8Size
    · refine ⟨[], c, t, rfl, Nat.zero_le n, ?_⟩
      change n < 0 + c.utf8Size
      omega
    · obtain ⟨a, d, b, cut, least, most⟩ := ih (n := n - c.utf8Size) (by omega)
      refine ⟨c :: a, d, b, by rw [cut, List.cons_append], ?_, ?_⟩
      all_goals
        rw [utf8Bytes_cons, List.length_append, String.length_utf8EncodeChar]
        omega

theorem byte_at (c : Char) (cut : t = a ++ c :: b) (least : (utf8Bytes a).length ≤ n)
    (most : n < (utf8Bytes a).length + c.utf8Size) :
    (utf8Bytes t)[n]? = (String.utf8EncodeChar c)[n - (utf8Bytes a).length]? := by
  rw [cut, utf8Bytes_append, utf8Bytes_cons, List.getElem?_append_right least, List.getElem?_append_left]
  rw [String.length_utf8EncodeChar]
  omega

/-- Between the first and the last byte of a character no other ends. -/
theorem boundary_outside {c : Char} (cut : t = a ++ c :: b) (ends : Boundary t n) :
    n ≤ (utf8Bytes a).length ∨ (utf8Bytes a).length + c.utf8Size ≤ n := by
  obtain ⟨x, y, other, rfl⟩ := ends
  rcases List.append_eq_append_iff.mp (other.symm.trans cut) with ⟨z, longer, -⟩ | ⟨z, longer, rest⟩
  · left
    rw [longer, utf8Bytes_append, List.length_append]
    omega
  · cases z with
    | nil =>
      left
      rw [longer, List.append_nil]
    | cons d z =>
      obtain ⟨rfl, -⟩ := List.cons.inj rest
      right
      rw [longer, utf8Bytes_append, utf8Bytes_cons, List.length_append, List.length_append, String.length_utf8EncodeChar]
      omega

/-- A byte that starts a character of several bytes stands where another ends, and none ends with it. -/
theorem long_boundary {byte : UInt8} (there : (utf8Bytes t)[n]? = some byte) (long : startsLong byte = true) :
    Boundary t n ∧ ¬ Boundary t (n + 1) := by
  obtain ⟨within, -⟩ := List.getElem?_eq_some_iff.mp there
  obtain ⟨a, c, b, cut, least, most⟩ := byte_cases within
  rw [byte_at c cut least most] at there
  obtain ⟨first, rest, shape, starts, others⟩ := encode_shape c
  rw [shape] at there
  rcases Nat.eq_zero_or_pos (n - (utf8Bytes a).length) with here | later
  · rw [here, List.getElem?_cons_zero, Option.some.injEq] at there
    rw [← there, starts, decide_eq_true_eq] at long
    have same : n = (utf8Bytes a).length := by omega
    refine ⟨⟨a, c :: b, cut, same.symm⟩, fun ends => ?_⟩
    have outside := boundary_outside cut ends
    omega
  · obtain ⟨m, next⟩ := Nat.exists_eq_succ_of_ne_zero later.ne'
    rw [next, List.getElem?_cons_succ] at there
    rw [others byte (List.mem_of_getElem? there)] at long
    exact absurd long Bool.false_ne_true

/-- A byte at which a character ends, and that starts none of several bytes, is a character. -/
theorem short_boundary {byte : UInt8} (there : (utf8Bytes t)[n]? = some byte) (short : startsLong byte = false)
    (ends : Boundary t n) : Boundary t (n + 1) := by
  obtain ⟨within, -⟩ := List.getElem?_eq_some_iff.mp there
  obtain ⟨a, c, b, cut, least, most⟩ := byte_cases within
  have same : n = (utf8Bytes a).length := by
    have outside := boundary_outside cut ends
    omega
  rw [byte_at c cut least most, same, Nat.sub_self] at there
  obtain ⟨first, rest, shape, starts, -⟩ := encode_shape c
  rw [shape, List.getElem?_cons_zero, Option.some.injEq] at there
  rw [there, short, eq_comm, decide_eq_false_iff_not] at starts
  have one := c.utf8Size_pos
  refine ⟨a ++ [c], b, by rw [cut, List.append_assoc]; rfl, ?_⟩
  rw [utf8Bytes_append, List.length_append, same]
  rw [utf8Bytes_cons, List.length_append, String.length_utf8EncodeChar]
  change _ + (c.utf8Size + 0) = _
  omega

end Boundary

section Longest
variable {t u v : Str} {limit : Nat}

/-- The longest part from the start whose bytes are within the limit. -/
structure Longest (limit : Nat) (t u : Str) : Prop where
  starts : u <+: t
  fits : (utf8Bytes u).length ≤ limit
  most : ∀ v, v <+: t → (utf8Bytes v).length ≤ limit → v <+: u

theorem Longest.whole (longest : Longest limit t u) (small : (utf8Bytes t).length ≤ limit) : u = t :=
  longest.starts.eq_of_length (Nat.le_antisymm longest.starts.length_le (longest.most t List.prefix_rfl small).length_le)

theorem longest_self (small : (utf8Bytes t).length ≤ limit) : Longest limit t t := ⟨List.prefix_rfl, small, fun _ starts _ => starts⟩

/-- Where a character ends at a place, and none between it and the limit, the longest part ends there. -/
theorem longest_of_boundary (starts : u <+: t) (fits : (utf8Bytes u).length ≤ limit)
    (none_ : ∀ n, (utf8Bytes u).length < n → n ≤ limit → ¬ Boundary t n) : Longest limit t u := by
  refine ⟨starts, fits, fun v begins small => ?_⟩
  rcases List.prefix_or_prefix_of_prefix begins starts with inside | longer
  · exact inside
  · obtain ⟨more, rfl⟩ := longer
    obtain ⟨rest, whole⟩ := begins
    have bound : ¬ (utf8Bytes u).length < (utf8Bytes (u ++ more)).length := fun grows =>
      none_ _ grows small ⟨u ++ more, rest, whole.symm, rfl⟩
    rw [utf8Bytes_append, List.length_append] at bound
    have counted := length_le_bytes more
    have nothing : more = [] := List.eq_nil_of_length_eq_zero (by omega)
    rw [nothing, List.append_nil]

end Longest
end Sarracenia.Library.Percent
