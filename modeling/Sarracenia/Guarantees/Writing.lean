import Sarracenia.Source.Transfer

/-!
# Writing at a place of a file

A write changes the bytes that it covers and no others; a file that is set to its own length is the same.
-/
namespace Sarracenia.Guarantees.Writing
open Source.Transfer (Bytes patch setLength)

variable {base new : Bytes} {offset n i : Nat}

theorem setLength_length : (setLength n base).length = n := by
  unfold setLength
  rw [List.length_append, List.length_take, List.length_replicate]
  omega

theorem setLength_getElem? (within : i < base.length) (before : i < n) :
    (setLength n base)[i]? = base[i]? := by
  unfold setLength
  rw [List.getElem?_append_left (by rw [List.length_take]; omega), List.getElem?_take_of_lt before]

theorem setLength_self (bytes : Bytes) : setLength bytes.length bytes = bytes := by
  simp [setLength]

theorem patch_nil (bytes : Bytes) : patch [] 0 bytes = bytes := by
  simp [patch]

theorem patch_length :
    (patch base offset new).length =
      offset + new.length + (base.length - (offset + new.length)) := by
  unfold patch
  simp only [List.length_append, List.length_take, List.length_replicate, List.length_drop]
  omega

variable (base offset) in
/-- The part before what is written, with the gap that a write beyond the end leaves. -/
theorem patch_head_length :
    (base.take offset ++ List.replicate (offset - base.length) 0).length = offset := by
  rw [List.length_append, List.length_take, List.length_replicate]
  omega

theorem patch_getElem?_inside (lower : offset ≤ i) (upper : i < offset + new.length) :
    (patch base offset new)[i]? = new[i - offset]? := by
  have head := patch_head_length base offset
  unfold patch
  rw [List.getElem?_append_left (by rw [List.length_append, head]; omega),
    List.getElem?_append_right (by rw [head]; exact lower), head]

theorem patch_getElem?_before (before : i < offset) (within : i < base.length) :
    (patch base offset new)[i]? = base[i]? := by
  have head := patch_head_length base offset
  unfold patch
  rw [List.getElem?_append_left (by rw [List.length_append, head]; omega),
    List.getElem?_append_left (by rw [head]; exact before),
    List.getElem?_append_left (by rw [List.length_take]; omega), List.getElem?_take_of_lt before]

/-- What lies between the end of the file and a place beyond it is zero. -/
theorem patch_getElem?_gap (before : i < offset) (beyond : base.length ≤ i) :
    (patch base offset new)[i]? = some 0 := by
  have head := patch_head_length base offset
  unfold patch
  rw [List.getElem?_append_left (by rw [List.length_append, head]; omega),
    List.getElem?_append_left (by rw [head]; exact before),
    List.getElem?_append_right (by rw [List.length_take]; omega), List.length_take, List.getElem?_replicate,
    if_pos (by omega)]

theorem patch_getElem?_after (after : offset + new.length ≤ i) :
    (patch base offset new)[i]? = base[i]? := by
  have head := patch_head_length base offset
  unfold patch
  rw [List.getElem?_append_right (by rw [List.length_append, head]; exact after),
    List.length_append, head, List.getElem?_drop]
  congr 1
  omega

/-- A write behind another is one write. -/
theorem patch_patch (base : Bytes) (offset : Nat) (a b : Bytes) :
    patch (patch base offset a) (offset + a.length) b = patch base offset (a ++ b) := by
  have head := patch_head_length base offset
  have whole : (base.take offset ++ List.replicate (offset - base.length) 0 ++ a).length = offset + a.length := by
    rw [List.length_append, head]
  have none_ : offset + a.length - (patch base offset a).length = 0 := by
    rw [patch_length]
    omega
  conv_lhs => rw [patch, none_, List.replicate_zero, List.append_nil]
  unfold patch
  rw [List.take_left' whole, List.drop_append, List.drop_eq_nil_of_le (by rw [whole]; omega), whole, List.nil_append, List.drop_drop,
    List.length_append, List.append_assoc _ a b]
  congr 2
  omega

end Sarracenia.Guarantees.Writing
