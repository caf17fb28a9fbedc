import Mathlib.Data.List.Basic

/-!
# A list in pieces

A list is cut into pieces; another list agrees with it on a piece if it has the same elements
at the places of the piece. One that agrees on all of them and is not longer is the same.
-/
namespace Sarracenia.Library.Pieces
variable {α : Type} (pieces : List (List α))

/-- Where a piece begins. -/
def start (k : Nat) : Nat := (pieces.take k).flatten.length

def Agrees (k : Nat) (bytes : List α) : Prop :=
  ∀ i, start pieces k ≤ i → i < start pieces (k + 1) → bytes[i]? = pieces.flatten[i]?

variable {pieces} {k : Nat} {bytes : List α}

theorem start_succ (inside : k < pieces.length) :
    start pieces (k + 1) = start pieces k + (pieces.get ⟨k, inside⟩).length := by
  unfold start
  rw [List.take_succ_eq_append_getElem inside, List.flatten_append, List.length_append,
    List.flatten_singleton]
  rfl

theorem start_length : start pieces pieces.length = pieces.flatten.length := by
  rw [start, List.take_length]

theorem start_mono {j k : Nat} (le : j ≤ k) : start pieces j ≤ start pieces k := by
  unfold start
  rw [← List.take_append_drop j (pieces.take k), List.take_take, Nat.min_eq_left le,
    List.flatten_append, List.length_append]
  exact Nat.le_add_right ..

variable (pieces) in
theorem start_le (k : Nat) : start pieces k ≤ pieces.flatten.length := by
  rw [← start_length]
  by_cases inside : k ≤ pieces.length
  · exact start_mono inside
  · have all : pieces.take k = pieces := List.take_of_length_le (Nat.le_of_not_le inside)
    exact Nat.le_of_eq (by rw [start_length, start, all])

theorem flatten_getElem? (inside : k < pieces.length) {j : Nat}
    (within : j < (pieces.get ⟨k, inside⟩).length) :
    pieces.flatten[start pieces k + j]? = (pieces.get ⟨k, inside⟩)[j]? := by
  have cut : pieces.flatten = (pieces.take k).flatten ++ (pieces.drop k).flatten := by
    rw [← List.flatten_append, List.take_append_drop]
  have head : (pieces.drop k).flatten = pieces.get ⟨k, inside⟩ ++ (pieces.drop (k + 1)).flatten := by
    rw [List.drop_eq_getElem_cons inside, List.flatten_cons]
    rfl
  unfold start
  rw [cut, List.getElem?_append_right (Nat.le_add_right ..), Nat.add_sub_cancel_left, head,
    List.getElem?_append_left within]

/-- Every place is in a piece. -/
theorem exists_piece {i : Nat} (inside : i < pieces.flatten.length) :
    ∃ k, k < pieces.length ∧ start pieces k ≤ i ∧ i < start pieces (k + 1) := by
  have below (n : Nat) : i < start pieces n → n ≤ pieces.length →
      ∃ k, k < pieces.length ∧ start pieces k ≤ i ∧ i < start pieces (k + 1) := by
    induction n with
    | zero => exact fun less => absurd less (Nat.not_lt_zero i)
    | succ n ih =>
      intro less within
      by_cases before : i < start pieces n
      · exact ih before (Nat.le_of_succ_le within)
      · exact ⟨n, within, Nat.not_lt.mp before, less⟩
  exact below pieces.length (start_length ▸ inside) (Nat.le_refl _)

/-- A list that agrees on every piece and is not longer is the whole. -/
theorem eq_flatten (short : bytes.length ≤ pieces.flatten.length)
    (agrees : ∀ k, k < pieces.length → Agrees pieces k bytes) : bytes = pieces.flatten := by
  refine List.ext_getElem? fun i => ?_
  by_cases inside : i < pieces.flatten.length
  · obtain ⟨k, within, lower, upper⟩ := exists_piece inside
    exact agrees k within i lower upper
  · rw [List.getElem?_eq_none (Nat.not_lt.mp inside),
      List.getElem?_eq_none (Nat.le_trans short (Nat.not_lt.mp inside))]

/-- Agreement is about the places that are there. -/
theorem Agrees.lt_length (agrees : Agrees pieces k bytes) {i : Nat} (lower : start pieces k ≤ i)
    (upper : i < start pieces (k + 1)) : i < bytes.length := by
  have there : i < pieces.flatten.length := Nat.lt_of_lt_of_le upper (start_le _ _)
  by_contra outside
  have same := agrees i lower upper
  rw [List.getElem?_eq_none (Nat.not_lt.mp outside), List.getElem?_eq_getElem there] at same
  cases same

/-- A list that is the same where another one agrees agrees too. -/
theorem Agrees.congr {bytes' : List α} (agrees : Agrees pieces k bytes)
    (same : ∀ i, start pieces k ≤ i → i < start pieces (k + 1) → bytes'[i]? = bytes[i]?) :
    Agrees pieces k bytes' :=
  fun i lower upper => (same i lower upper).trans (agrees i lower upper)

end Sarracenia.Library.Pieces
