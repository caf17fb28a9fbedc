import Mathlib.Logic.Basic

/-!
# Computations that may be left early

A computation may be left before its end with an answer, or by an exception. `Meets` is its
weakest precondition where an answer is always welcome and an exception never: the rules here
read it off step by step.
-/
namespace Sarracenia.Library.Exits

/-- How a computation is left before its end. -/
inductive Exit (φ ρ : Type) where
  | raises (fault : φ)
  | leaves (answer : ρ)

variable {φ ρ α β : Type}

/-- A computation that can be left only by its exceptions. -/
def attempt (x : Except φ α) : Except (Exit φ ρ) α := x.mapError .raises

def leave (answer : ρ) : Except (Exit φ ρ) α := .error (.leaves answer)

/-- No exception is raised, and what goes on satisfies `post`. -/
def Meets (x : Except (Exit φ ρ) α) (post : α → Prop) : Prop :=
  match x with
  | .ok a => post a
  | .error (.raises _) => False
  | .error (.leaves _) => True

variable {post : α → Prop}

@[simp] theorem meets_ok {a : α} : Meets (.ok a : Except (Exit φ ρ) α) post ↔ post a := Iff.rfl

@[simp] theorem meets_pure {a : α} : Meets (pure a : Except (Exit φ ρ) α) post ↔ post a := Iff.rfl

@[simp] theorem meets_leave {answer : ρ} : Meets (leave answer : Except (Exit φ ρ) α) post := trivial

@[simp] theorem meets_raises {fault : φ} : ¬ Meets (.error (.raises fault) : Except (Exit φ ρ) α) post := id

theorem meets_error {exit : Exit φ ρ} :
    Meets (.error exit : Except (Exit φ ρ) α) post ↔ ∃ answer, exit = .leaves answer := by
  cases exit with
  | raises fault => simp [Meets]
  | leaves answer => simp [Meets]

/-- A sequence: the precondition of what follows is the postcondition of what comes before. -/
@[simp] theorem meets_bind {x : Except (Exit φ ρ) α} {next : α → Except (Exit φ ρ) β} {post : β → Prop} :
    Meets (x >>= next) post ↔ Meets x fun a => Meets (next a) post := by
  cases x with
  | ok a => exact Iff.rfl
  | error exit => cases exit <;> exact Iff.rfl

@[simp] theorem meets_map {x : Except (Exit φ ρ) α} {f : α → β} {post : β → Prop} :
    Meets (f <$> x) post ↔ Meets x fun a => post (f a) := by
  cases x with
  | ok a => exact Iff.rfl
  | error exit => cases exit <;> exact Iff.rfl

@[simp] theorem meets_attempt {x : Except φ α} :
    Meets (attempt x : Except (Exit φ ρ) α) post ↔ ∃ a, x = .ok a ∧ post a := by
  cases x with
  | ok a =>
    constructor
    · intro meets
      exact ⟨a, rfl, meets⟩
    · rintro ⟨a', same, meets⟩
      cases same
      exact meets
  | error fault =>
    refine ⟨False.elim, ?_⟩
    rintro ⟨a, raised, -⟩
    cases raised

@[simp] theorem meets_ite {c : Prop} [Decidable c] {yes no : Except (Exit φ ρ) α} :
    Meets (if c then yes else no) post ↔ if c then Meets yes post else Meets no post := by
  split <;> exact Iff.rfl

theorem Meets.imp {x : Except (Exit φ ρ) α} {post' : α → Prop} (stronger : ∀ a, post a → post' a)
    (meets : Meets x post) : Meets x post' := by
  cases x with
  | ok a => exact stronger a meets
  | error exit =>
    cases exit with
    | raises fault => exact meets
    | leaves answer => trivial

theorem meets_congr {x : Except (Exit φ ρ) α} {post' : α → Prop} (same : ∀ a, post a ↔ post' a) :
    Meets x post ↔ Meets x post' :=
  ⟨Meets.imp fun a => (same a).mp, Meets.imp fun a => (same a).mpr⟩

end Sarracenia.Library.Exits
