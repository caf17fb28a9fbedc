import Mathlib.Data.List.Basic

/-!
# Runs of a system

A system takes labelled steps, some of which a condition on the state before may rule out. What
each step keeps, a run keeps; what one system does step by step, another does after it.
-/
namespace Sarracenia.Library

section Runs
variable {σ τ α : Type} (step : σ → α → Option σ) (meets : σ → α → Prop)

/-- The steps of a run, in their order, and the state after them. -/
inductive Runs (s : σ) : List α → σ → Prop where
  | refl : Runs s [] s
  | step {taken : List α} {s' s'' : σ} {a : α} (before : Runs s taken s') (allowed : meets s' a)
      (next : step s' a = some s'') : Runs s (taken ++ [a]) s''

variable {step meets} {s s' : σ} {taken : List α}

/-- What holds at the start and is kept by every step holds after every run. -/
theorem Runs.keeps (run : Runs step meets s taken s') {inv : σ → Prop} (start : inv s)
    (kept : ∀ s a s', inv s → meets s a → step s a = some s' → inv s') : inv s' := by
  induction run with
  | refl => exact start
  | step before allowed next ih => exact kept _ _ _ ih allowed next

/-- The same of a state together with the steps that led to it. -/
theorem Runs.keeps_with (run : Runs step meets s taken s') {inv : List α → σ → Prop}
    (start : inv [] s)
    (kept : ∀ taken s a s', inv taken s → meets s a → step s a = some s' → inv (taken ++ [a]) s') :
    inv taken s' := by
  induction run with
  | refl => exact start
  | step before allowed next ih => exact kept _ _ _ _ ih allowed next

/-- A condition on the steps alone may be checked apart. -/
theorem Runs.of_all {allowed : α → Prop} (run : Runs step (fun _ _ => True) s taken s')
    (all : ∀ a ∈ taken, allowed a) : Runs step (fun _ a => allowed a) s taken s' := by
  induction run with
  | refl => exact .refl
  | step before _ next ih =>
    exact .step (ih fun a there => all a (List.mem_append_left _ there)) (all _ (by simp)) next

theorem Runs.trans {s'' : σ} {more : List α} (run : Runs step meets s taken s')
    (rest : Runs step meets s' more s'') : Runs step meets s (taken ++ more) s'' := by
  induction rest with
  | refl => rwa [List.append_nil]
  | step before allowed next ih =>
    rw [← List.append_assoc]
    exact .step ih allowed next

/-- The state after a list of steps, if each is allowed and can be taken. -/
def after (step : σ → α → Option σ) (meets : σ → α → Prop) [∀ s a, Decidable (meets s a)] (s : σ) :
    List α → Option σ
  | [] => some s
  | a :: as => if meets s a then (step s a).bind fun s => after step meets s as else none

theorem Runs.of_after [∀ s a, Decidable (meets s a)] {as : List α}
    (done : after step meets s as = some s') :
    Runs step meets s as s' := by
  induction as generalizing s with
  | nil =>
    cases done
    exact .refl
  | cons a as ih =>
    rw [after] at done
    split at done
    · next allowed =>
      obtain ⟨s₁, next, rest⟩ := Option.bind_eq_some_iff.mp done
      exact (Runs.step .refl allowed next).trans (ih rest)
    · cases done

theorem Runs.of_isSome [∀ s a, Decidable (meets s a)] {as : List α}
    (done : (after step meets s as).isSome = true) :
    Runs step meets s as ((after step meets s as).get done) := .of_after (Option.some_get done).symm

end Runs

end Sarracenia.Library
