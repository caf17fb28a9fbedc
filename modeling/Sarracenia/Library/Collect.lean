import Mathlib.Data.List.Perm.Basic
import Mathlib.Data.List.Nodup
import Mathlib.Data.List.Flatten
import Mathlib.Control.Basic

/-!
# What is collected from the members of a list

Steps that may fail, one after the other; and collections that can be told apart by what each
member may contribute.
-/
namespace Sarracenia.Library

section Steps
variable {ε α β : Type} (other : β)

/-- What a step brings, where it does not fail. -/
def valueOr : Except ε β → β
  | .ok v => v
  | .error _ => other

/-- All steps together succeed exactly when each of them does. -/
theorem mapM_ok_iff {f : α → Except ε β} {l : List α} {r : List β} :
    l.mapM f = .ok r ↔ (∀ x ∈ l, ∃ v, f x = .ok v) ∧ r = l.map fun x => valueOr other (f x) := by
  induction l generalizing r with
  | nil =>
    constructor
    · intro done
      cases done
      exact ⟨nofun, rfl⟩
    · intro ⟨_, none_⟩
      rw [none_]
      rfl
  | cons x l ih =>
    rw [List.mapM_cons, List.forall_mem_cons, List.map_cons]
    cases first : f x with
    | error e => exact iff_of_false nofun fun ⟨⟨⟨_, fine⟩, _⟩, _⟩ => nomatch fine
    | ok v =>
      constructor
      · intro done
        cases rest : l.mapM f with
        | error e =>
          rw [rest] at done
          cases done
        | ok vs =>
          rw [rest] at done
          cases done
          obtain ⟨fine, same⟩ := ih.mp rest
          exact ⟨⟨⟨v, rfl⟩, fine⟩, congrArg (v :: ·) same⟩
      · intro ⟨⟨_, fine⟩, same⟩
        rw [ih.mpr ⟨fine, rfl⟩, same]
        rfl

theorem mapM_ok_of {f : α → Except ε β} {g : α → β} {l : List α} (each : ∀ x ∈ l, f x = .ok (g x)) : l.mapM f = .ok (l.map g) := by
  induction l with
  | nil => rfl
  | cons x l ih =>
    obtain ⟨first, later⟩ := List.forall_mem_cons.mp each
    rw [List.mapM_cons, first, ih later]
    rfl

theorem mapM_error {f : α → Except ε β} {l : List α} (fails : ∃ x ∈ l, ∃ e, f x = .error e) : ∃ e, l.mapM f = .error e := by
  induction l with
  | nil =>
    obtain ⟨_, member, _⟩ := fails
    cases member
  | cons x l ih =>
    rw [List.mapM_cons]
    cases first : f x with
    | error e => exact ⟨e, rfl⟩
    | ok v =>
      obtain ⟨y, member, e, failed⟩ := fails
      rcases List.mem_cons.mp member with rfl | later
      · cases first.symm.trans failed
      · obtain ⟨e, rest⟩ := ih ⟨y, later, e, failed⟩
        exact ⟨e, by rw [rest]; rfl⟩

end Steps

section Apart
variable {ι α : Type}

/-- Two collections that are the same are the same on each side of a condition. -/
theorem perm_apart {S : α → Prop} {a₁ a₂ b₁ b₂ : List α} (inside₁ : ∀ x ∈ a₁, S x) (inside₂ : ∀ x ∈ a₂, S x)
    (outside₁ : ∀ x ∈ b₁, ¬ S x) (outside₂ : ∀ x ∈ b₂, ¬ S x) (same : (a₁ ++ b₁).Perm (a₂ ++ b₂)) :
    a₁.Perm a₂ ∧ b₁.Perm b₂ := by
  classical
  have within {a b : List α} (inside : ∀ x ∈ a, S x) (outside : ∀ x ∈ b, ¬ S x) : (a ++ b).filter (fun x => decide (S x)) = a := by
    rw [List.filter_append, List.filter_eq_self.mpr fun x member => decide_eq_true (inside x member),
      List.filter_eq_nil_iff.mpr fun x member found => outside x member (of_decide_eq_true found), List.append_nil]
  have first := same.filter fun x => decide (S x)
  rw [within inside₁ outside₁, within inside₂ outside₂] at first
  exact ⟨first, (List.perm_append_left_iff a₂).mp ((first.symm.append_right b₁).trans same)⟩

/-- The same for the members of a list, where no two of them can contribute the same. -/
theorem perm_flatMap_apart {D : List ι} {A B S : ι → List α} (insideA : ∀ e ∈ D, A e ⊆ S e) (insideB : ∀ e ∈ D, B e ⊆ S e)
    (apart : (D.flatMap S).Nodup) (same : (D.flatMap A).Perm (D.flatMap B)) : ∀ e ∈ D, (A e).Perm (B e) := by
  induction D with
  | nil => exact nofun
  | cons e D ih =>
    rw [List.forall_mem_cons] at insideA insideB ⊢
    rw [List.flatMap_cons] at apart
    obtain ⟨-, others, disjoint⟩ := List.nodup_append'.mp apart
    have outside {C : ι → List α} (inside : ∀ e ∈ D, C e ⊆ S e) : ∀ x ∈ D.flatMap C, x ∉ S e := by
      intro x member here
      obtain ⟨f, there, belongs⟩ := List.mem_flatMap.mp member
      exact disjoint here (List.mem_flatMap.mpr ⟨f, there, inside f there belongs⟩)
    rw [List.flatMap_cons, List.flatMap_cons] at same
    obtain ⟨first, rest⟩ := perm_apart (S := (· ∈ S e)) (fun x member => insideA.1 member) (fun x member => insideB.1 member)
      (outside insideA.2) (outside insideB.2) same
    exact ⟨first, ih insideA.2 insideB.2 others rest⟩

end Apart

section Lookup
variable {ι κ ν : Type} [BEq κ] [LawfulBEq κ] {key : ι → κ} {value : ι → ν}

/-- Of members with keys of their own, each is found under its key. -/
theorem lookup_map {l : List ι} (distinct : (l.map key).Nodup) {x : ι} (member : x ∈ l) :
    (l.map fun y => (key y, value y)).lookup (key x) = some (value x) := by
  induction l with
  | nil => cases member
  | cons y l ih =>
    rw [List.map_cons, List.nodup_cons] at distinct
    rw [List.map_cons, List.lookup_cons]
    rcases List.mem_cons.mp member with rfl | later
    · rw [beq_self_eq_true]
    · have other : (key x == key y) = false :=
        beq_eq_false_iff_ne.mpr fun same => distinct.1 (same ▸ List.mem_map_of_mem later)
      rw [other]
      exact ih distinct.2 later

end Lookup
end Sarracenia.Library
