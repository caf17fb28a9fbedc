import Mathlib.Data.List.Basic

/-!
# The first element of each key

`firsts` keeps, of a list whose elements may carry a key, the first element of
each key that has not been seen, and every element without a key. The elements
kept are a sublist, no two of them share a key, and the element kept for a key
is the first that carries it.
-/
namespace Sarracenia.Library.FirstOfKey
variable {α κ : Type} [DecidableEq κ]

def firsts (key : α → Option κ) : List κ → List α → List α
  | _, [] => []
  | seen, x :: xs =>
    match key x with
    | none => x :: firsts key seen xs
    | some k => if k ∈ seen then firsts key seen xs else x :: firsts key (k :: seen) xs

/-- No two elements carry the same key. -/
def DistinctKeys (key : α → Option κ) (xs : List α) : Prop :=
  xs.Pairwise fun x y => key x = none ∨ key x ≠ key y

/-- The first element that carries the key. -/
def firstWith (key : α → Option κ) (k : κ) (xs : List α) : Option α :=
  xs.find? fun x => key x = some k

variable (key : α → Option κ)

theorem firsts_sublist (seen : List κ) (xs : List α) : (firsts key seen xs).Sublist xs := by
  induction xs generalizing seen with
  | nil => exact List.Sublist.refl _
  | cons x xs ih =>
    unfold firsts
    split
    · exact (ih seen).cons_cons x
    · split
      · exact (ih seen).cons x
      · exact (ih _).cons_cons x

theorem firsts_unseen (seen : List κ) (xs : List α) (x : α) (k : κ)
    (member : x ∈ firsts key seen xs) (keyed : key x = some k) : k ∉ seen := by
  induction xs generalizing seen with
  | nil => simp [firsts] at member
  | cons y xs ih =>
    unfold firsts at member
    split at member
    · next keyless =>
      cases List.mem_cons.mp member with
      | inl same => rw [same, keyless] at keyed; cases keyed
      | inr tail => exact ih seen tail
    · next j found =>
      split at member
      · exact ih seen member
      · next fresh =>
        cases List.mem_cons.mp member with
        | inl same =>
          rw [same, found] at keyed
          cases keyed
          exact fresh
        | inr tail => exact fun old => ih _ tail (List.mem_cons_of_mem _ old)

theorem firsts_distinct (seen : List κ) (xs : List α) : DistinctKeys key (firsts key seen xs) := by
  unfold DistinctKeys
  induction xs generalizing seen with
  | nil => simp [firsts]
  | cons x xs ih =>
    unfold firsts
    split
    · next keyless => exact List.pairwise_cons.mpr ⟨fun y _ => Or.inl keyless, ih seen⟩
    · next k found =>
      split
      · exact ih seen
      · refine List.pairwise_cons.mpr ⟨fun y member => Or.inr ?_, ih _⟩
        intro same
        rw [found] at same
        exact firsts_unseen key _ xs y k member same.symm List.mem_cons_self

/-- An unseen key keeps its first element. -/
theorem firstWith_firsts (seen : List κ) (xs : List α) (k : κ) (unseen : k ∉ seen) :
    firstWith key k (firsts key seen xs) = firstWith key k xs := by
  unfold firstWith
  induction xs generalizing seen with
  | nil => rfl
  | cons x xs ih =>
    unfold firsts
    split
    · next keyless => simp [keyless, ih seen unseen]
    · next j found =>
      by_cases same : j = k
      · subst same
        simp [unseen, found]
      · split
        · simp [found, same, ih seen unseen]
        · have apart : k ∉ j :: seen := by
            rw [List.mem_cons, not_or]
            exact ⟨Ne.symm same, unseen⟩
          simp [found, same, ih _ apart]

theorem keyless_mem_firsts (seen : List κ) (xs : List α) (x : α) (keyless : key x = none)
    (member : x ∈ xs) : x ∈ firsts key seen xs := by
  induction xs generalizing seen with
  | nil => cases member
  | cons y xs ih =>
    unfold firsts
    cases List.mem_cons.mp member with
    | inl same =>
      rw [same] at keyless
      rw [keyless, same]
      exact List.mem_cons_self
    | inr tail =>
      split
      · exact List.mem_cons_of_mem _ (ih seen tail)
      · split
        · exact ih seen tail
        · exact List.mem_cons_of_mem _ (ih _ tail)

theorem firstWith_mem {xs : List α} {x : α} {k : κ} (first : firstWith key k xs = some x) :
    x ∈ xs ∧ key x = some k :=
  ⟨List.mem_of_find?_eq_some first, by simpa using List.find?_some first⟩

theorem firstWith_isSome {xs : List α} {x : α} {k : κ} (member : x ∈ xs) (keyed : key x = some k) :
    ∃ y, firstWith key k xs = some y := by
  cases first : firstWith key k xs with
  | some y => exact ⟨y, rfl⟩
  | none =>
    have absent := List.find?_eq_none.mp first x member
    simp [keyed] at absent

/-- Where keys are distinct, the element with a key is the first one with it. -/
theorem firstWith_of_distinct {xs : List α} {x : α} {k : κ} (distinct : DistinctKeys key xs)
    (member : x ∈ xs) (keyed : key x = some k) : firstWith key k xs = some x := by
  unfold firstWith DistinctKeys at *
  induction xs with
  | nil => cases member
  | cons y xs ih =>
    obtain ⟨head, tail⟩ := List.pairwise_cons.mp distinct
    cases List.mem_cons.mp member with
    | inl same => simp [← same, keyed]
    | inr later =>
      have other : key y ≠ some k := by
        intro same
        have apart := head x later
        rw [same, keyed] at apart
        exact apart.elim (fun h => by cases h) (fun h => h rfl)
      simp [other, ih tail later]

/-- The elements kept are exactly the first ones of their keys. -/
theorem mem_firsts_iff (xs : List α) (x : α) (k : κ) (keyed : key x = some k) :
    x ∈ firsts key [] xs ↔ firstWith key k xs = some x := by
  rw [← firstWith_firsts key [] xs k (List.not_mem_nil)]
  constructor
  · intro member
    exact firstWith_of_distinct key (firsts_distinct key [] xs) member keyed
  · intro first
    exact (firstWith_mem key first).1

end Sarracenia.Library.FirstOfKey
