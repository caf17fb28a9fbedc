import Sarracenia.Guarantees.Writing
import Sarracenia.Source.ReadWrite

/-!
# Copies and blocks

`read_write` copies a prefix of what is left of the source. It is the right one unless the whole buffers in the
length are miscounted, by a division in binary64. A block that is put writes its bytes and no others, where the
file is not cut off behind it.
-/
namespace Sarracenia.Guarantees.ReadWrite
open Library.Binary64 Source.ReadWrite Guarantees.Writing
open Source.Transfer (Bytes patch setLength)

section Copies

/-- What was written, what the checksum was fed with and the count are those of the bytes. -/
structure Copied.Is (sumalgo : Bool) (copied : Copied) (bytes : Bytes) : Prop where
  written : copied.written.flatten = bytes
  updates : copied.updates.flatten = if sumalgo then bytes else []
  rw_length : copied.rw_length = bytes.length

/-- The bytes that are asked for, of what is left of the source. -/
def asked (src : Bytes) (length : Nat) : Bytes := if length = 0 then src else src.take length

/-- The whole buffers are counted exactly, or all that is left is copied with either count. -/
def Counted (bufSize length remaining : Nat) : Prop :=
  length = 0 ∨ ∃ nc, wholes length bufSize = some nc ∧
    (nc = length / bufSize ∨ remaining ≤ length ∧ remaining ≤ nc * bufSize + length % bufSize)

variable {sumalgo : Bool} {bufSize r : Nat}

theorem is_nothing (sumalgo : Bool) : Copied.Is sumalgo ⟨[], [], 0⟩ [] := ⟨rfl, by rw [ite_self]; rfl, rfl⟩

theorem Copied.Is.after {bytes : Bytes} {rest : Copied} (is : Copied.Is sumalgo rest bytes) (chunk : Bytes) :
    Copied.Is sumalgo (rest.after sumalgo chunk) (chunk ++ bytes) := by
  refine ⟨?_, ?_, ?_⟩
  · exact congrArg (chunk ++ ·) is.written
  · have updates := is.updates
    unfold Copied.after
    cases sumalgo with
    | true => exact congrArg (chunk ++ ·) updates
    | false => exact updates
  · have count := is.rw_length
    rw [List.length_append, ← count]
    rfl

theorem readAll_is (buffer : 0 < bufSize) (steps : Nat) (src : Bytes) (enough : src.length < steps) :
    Copied.Is sumalgo (readAll sumalgo bufSize steps src) src := by
  induction steps generalizing src with
  | zero => exact absurd enough (Nat.not_lt_zero _)
  | succ steps ih =>
    rw [readAll]
    cases src with
    | nil =>
      rw [List.take_nil, List.isEmpty_nil, if_pos rfl]
      exact is_nothing sumalgo
    | cons b src =>
      have shorter : ((b :: src).drop bufSize).length < steps := by
        rw [List.length_drop, List.length_cons]
        rw [List.length_cons] at enough
        omega
      have copied := (ih _ shorter).after ((b :: src).take bufSize)
      rw [List.take_append_drop] at copied
      rw [if_neg (by simp [buffer.ne'])]
      exact copied

theorem readRemaining_is (sumalgo : Bool) (r : Nat) (src : Bytes) : Copied.Is sumalgo (readRemaining sumalgo r src) (src.take r) := by
  unfold readRemaining
  dsimp only
  split
  · split
    · next empty =>
      rw [List.isEmpty_iff.mp empty]
      refine ⟨rfl, ?_, rfl⟩
      cases sumalgo <;> rfl
    · have copied := (is_nothing sumalgo).after (src.take r)
      rw [List.append_nil] at copied
      exact copied
  · next none_ =>
    rw [Nat.eq_zero_of_not_pos none_, List.take_zero]
    exact is_nothing sumalgo

/-- The turns copy a prefix, as long as the source goes on. -/
theorem readTimes_is (buffer : 0 < bufSize) (r nc : Nat) (src : Bytes) :
    Copied.Is sumalgo (readTimes sumalgo bufSize r nc src) (src.take (nc * bufSize + r)) := by
  induction nc generalizing src with
  | zero =>
    rw [readTimes, Nat.zero_mul, Nat.zero_add]
    exact readRemaining_is sumalgo r src
  | succ nc ih =>
    rw [readTimes]
    cases src with
    | nil =>
      have copied := readRemaining_is sumalgo r []
      rw [List.take_nil] at copied
      rw [List.take_nil, List.isEmpty_nil, if_pos rfl, List.take_nil]
      exact copied
    | cons b src =>
      have split_ : (nc + 1) * bufSize + r = bufSize + (nc * bufSize + r) := by
        rw [Nat.succ_mul]
        omega
      rw [if_neg (by simp [buffer.ne']), split_, List.take_add]
      exact (ih _).after _

/-- What `read_write` copies, by the number of whole buffers that it counts. -/
theorem read_write_some (sumalgo : Bool) (buffer : 0 < bufSize) (src : Bytes) {length nc : Nat} (some_ : length ≠ 0)
    (count : wholes length bufSize = some nc) :
    ∃ copied, read_write sumalgo bufSize src length = some copied ∧
      Copied.Is sumalgo copied (src.take (nc * bufSize + length % bufSize)) := by
  unfold read_write
  rw [if_neg some_, if_neg buffer.ne', count]
  exact ⟨_, rfl, readTimes_is buffer _ _ _⟩

/-- The copy is what is asked for. -/
def Copies (sumalgo : Bool) (bufSize : Nat) (src : Bytes) (length : Nat) : Prop :=
  ∃ copied, read_write sumalgo bufSize src length = some copied ∧ Copied.Is sumalgo copied (asked src length)

theorem take_eq_take_of {α : Type} {l : List α} {a b : Nat} (first : l.length ≤ a) (second : l.length ≤ b) : l.take a = l.take b := by
  rw [List.take_of_length_le first, List.take_of_length_le second]

theorem copies_iff (buffer : 0 < bufSize) (src : Bytes) (length : Nat) :
    Copies sumalgo bufSize src length ↔ Counted bufSize length src.length := by
  by_cases none_ : length = 0
  · refine iff_of_true ?_ (.inl none_)
    unfold Copies read_write asked
    rw [if_pos none_, if_pos none_]
    exact ⟨_, rfl, readAll_is buffer _ _ (Nat.lt_succ_self _)⟩
  · have whole := Nat.div_add_mod' length bufSize
    unfold Copies Counted asked
    rw [if_neg none_]
    constructor
    · rintro ⟨copied, read_, is⟩
      cases count : wholes length bufSize with
      | none =>
        unfold read_write at read_
        rw [if_neg none_, if_neg buffer.ne', count] at read_
        cases read_
      | some nc =>
        obtain ⟨copied', read', is'⟩ := read_write_some sumalgo buffer src none_ count
        obtain rfl := Option.some.inj (read_.symm.trans read')
        have same := is.rw_length.symm.trans is'.rw_length
        rw [List.length_take, List.length_take] at same
        refine .inr ⟨nc, rfl, ?_⟩
        by_cases exact_ : nc = length / bufSize
        · exact .inl exact_
        · have other : nc * bufSize ≠ length / bufSize * bufSize := fun same => exact_ (Nat.eq_of_mul_eq_mul_right buffer same)
          omega
    · rintro (zero | ⟨nc, count, counted⟩)
      · exact absurd zero none_
      · obtain ⟨copied, read_, is⟩ := read_write_some sumalgo buffer src none_ count
        refine ⟨copied, read_, ?_⟩
        rcases counted with rfl | ⟨first, second⟩
        · rw [whole] at is
          exact is
        · rw [take_eq_take_of first second]
          exact is

theorem counted_of_small (buffer : 0 < bufSize) {length : Nat} (small : length < 2 ^ 53) (remaining : Nat) :
    Counted bufSize length remaining := .inr ⟨_, wholes_of_small small buffer, .inl rfl⟩

/-- For every source, position, buffer and length, the copy is exact if and only if the buffers are counted so; they are
below `2 ^ 53` bytes. -/
theorem read_write_exact_iff (sumalgo : Bool) (content : Bytes) (position bufSize length : Nat) (buffer : 0 < bufSize) :
    (Copies sumalgo bufSize (content.drop position) length ↔ Counted bufSize length (content.length - position)) ∧
      (length < 2 ^ 53 → Counted bufSize length (content.length - position)) := by
  refine ⟨?_, fun small => counted_of_small buffer small _⟩
  rw [← List.length_drop]
  exact copies_iff buffer _ _

theorem three_by_two : Copies true 2 [7, 8, 9, 10] 3 :=
  (read_write_exact_iff true [6, 7, 8, 9, 10] 1 2 3 (by decide)).1.mpr
    ((read_write_exact_iff true [6, 7, 8, 9, 10] 1 2 3 (by decide)).2 (by norm_num))

/-- One byte more than `2 ^ 53`, read byte by byte: the quotient is rounded to the even number below. -/
theorem last_byte_left : ¬ ∀ sumalgo (content : Bytes) position bufSize length, 0 < bufSize → Copies sumalgo bufSize (content.drop position) length := by
  intro exact_
  have copies := exact_ true (List.replicate (2 ^ 53 + 1) 0) 0 1 (2 ^ 53 + 1) Nat.one_pos
  rw [List.drop_zero] at copies
  rcases (copies_iff Nat.one_pos _ _).mp copies with none_ | ⟨nc, count, counted⟩
  · exact absurd none_ (by norm_num)
  · obtain rfl := Option.some.inj (count.symm.trans wholes_tie)
    rw [List.length_replicate] at counted
    norm_num at counted

end Copies
end Sarracenia.Guarantees.ReadWrite
