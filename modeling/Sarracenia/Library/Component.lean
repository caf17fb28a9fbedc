/-!
# Components and what they show

A component takes requests one after the other and shows something at each. Two components
that a relation ties, step by step, show the same along every run of requests that the
relation's guard lets pass.
-/
namespace Sarracenia.Library

variable {ρ σ τ ο : Type}

structure Component (ρ σ ο : Type) where
  step : σ → ρ → σ
  observe : σ → ρ → ο

/-- What a run of requests shows. -/
def Component.trace (a : Component ρ σ ο) : σ → List ρ → List ο
  | _, [] => []
  | s, r :: rs => a.observe s r :: a.trace (a.step s r) rs

/-- The requests that two components take side by side all pass the guard. -/
def Guarded (a : Component ρ σ ο) (b : Component ρ τ ο) (guard : σ → τ → ρ → Prop) :
    σ → τ → List ρ → Prop
  | _, _, [] => True
  | s, t, r :: rs => guard s t r ∧ Guarded a b guard (a.step s r) (b.step t r) rs

/-- A relation that guarded requests keep, and under which they show the same. -/
structure Simulation (a : Component ρ σ ο) (b : Component ρ τ ο) (guard : σ → τ → ρ → Prop) where
  Rel : σ → τ → Prop
  step : ∀ {s t r}, Rel s t → guard s t r → Rel (a.step s r) (b.step t r)
  observe : ∀ {s t r}, Rel s t → guard s t r → a.observe s r = b.observe t r

theorem Simulation.trace_eq {a : Component ρ σ ο} {b : Component ρ τ ο}
    {guard : σ → τ → ρ → Prop} (sim : Simulation a b guard) {s : σ} {t : τ} {rs : List ρ}
    (rel : sim.Rel s t) (guarded : Guarded a b guard s t rs) : a.trace s rs = b.trace t rs := by
  induction rs generalizing s t with
  | nil => rfl
  | cons r rs ih =>
    obtain ⟨passes, rest⟩ := guarded
    rw [Component.trace, Component.trace, sim.observe rel passes, ih (sim.step rel passes) rest]

end Sarracenia.Library
