import Mathlib.Logic.Function.Basic
import Mathlib.Order.Lattice

/-!
# What is remembered, and until when

A memory gives each thing the last moment at which it is still remembered. It recalls a
history from a moment on when, from that moment on, it remembers exactly what the history
says; the operations of a memory keep this, each with the entry it adds to the history.
-/
namespace Sarracenia.Library.Expiry

abbrev Memory (α τ : Type) := α → Option τ

variable {α τ : Type} [LinearOrder τ]

def Holds (m : Memory α τ) (now : τ) (a : α) : Prop := ∃ until_, m a = some until_ ∧ now ≤ until_

/-- An entry of the history speaks for the thing at that time. -/
def Told (history : List (α × τ)) (now : τ) (a : α) : Prop :=
  ∃ until_, (a, until_) ∈ history ∧ now ≤ until_

/-- From `clock` on, the memory remembers what the history says. -/
def Recalls (clock : τ) (m : Memory α τ) (history : List (α × τ)) : Prop :=
  ∀ a now, clock ≤ now → (Holds m now a ↔ Told history now a)

instance (m : Memory α τ) (now : τ) (a : α) : Decidable (Holds m now a) :=
  match found : m a with
  | none => isFalse fun ⟨_, here, _⟩ => by cases found.symm.trans here
  | some u => decidable_of_iff (now ≤ u)
      ⟨fun alive => ⟨u, found, alive⟩, fun ⟨_, here, alive⟩ =>
        Option.some.inj (found.symm.trans here) ▸ alive⟩

instance [DecidableEq α] (history : List (α × τ)) (now : τ) (a : α) :
    Decidable (Told history now a) :=
  decidable_of_iff (∃ entry ∈ history, entry.1 = a ∧ now ≤ entry.2)
    ⟨fun ⟨entry, member, here, alive⟩ => ⟨entry.2, here ▸ member, alive⟩,
      fun ⟨u, member, alive⟩ => ⟨(a, u), member, rfl, alive⟩⟩

theorem recalls_nothing (clock : τ) : Recalls clock (fun _ : α => none) [] := by
  intro a now _
  simp [Holds, Told]

theorem Recalls.later {clock clock' : τ} {m : Memory α τ} {history : List (α × τ)}
    (recalls : Recalls clock m history) (le : clock ≤ clock') : Recalls clock' m history :=
  fun a now from_ => recalls a now (le_trans le from_)

/-- What is forgotten early enough is not missed. -/
theorem Recalls.forget {clock : τ} {m m' : Memory α τ} {history : List (α × τ)}
    (recalls : Recalls clock m history)
    (forgets : ∀ a, m' a = (m a).filter fun until_ => decide (clock ≤ until_)) :
    Recalls clock m' history := by
  intro a now from_
  rw [← recalls a now from_]
  unfold Holds
  rw [forgets]
  constructor
  · intro ⟨u, kept, alive⟩
    exact ⟨u, (Option.filter_eq_some_iff.mp kept).1, alive⟩
  · intro ⟨u, here, alive⟩
    exact ⟨u, Option.filter_eq_some_iff.mpr ⟨here, decide_eq_true (le_trans from_ alive)⟩, alive⟩

/-- A thing is remembered for at least as long as anything before it. -/
theorem Recalls.remember [DecidableEq α] {clock until_ : τ} {m : Memory α τ}
    {history : List (α × τ)} (recalls : Recalls clock m history) (a : α)
    (longest : ∀ entry ∈ history, entry.2 ≤ until_) :
    Recalls clock (Function.update m a (some until_)) (history ++ [(a, until_)]) := by
  intro b now from_
  by_cases same : b = a
  · subst same
    simp only [Holds, Told, Function.update_self, Option.some.injEq, exists_eq_left']
    constructor
    · intro alive
      exact ⟨until_, List.mem_append_right _ (List.mem_singleton_self _), alive⟩
    · intro ⟨u, member, alive⟩
      rcases List.mem_append.mp member with before | last
      · exact le_trans alive (longest _ before)
      · rw [← (Prod.mk.inj (List.mem_singleton.mp last)).2]
        exact alive
  · have unchanged : Holds (Function.update m a (some until_)) now b ↔ Holds m now b := by
      simp only [Holds, Function.update_of_ne same]
    rw [unchanged, recalls b now from_]
    constructor
    · intro ⟨u, member, alive⟩
      exact ⟨u, List.mem_append_left _ member, alive⟩
    · intro ⟨u, member, alive⟩
      rcases List.mem_append.mp member with before | last
      · exact ⟨u, before, alive⟩
      · exact absurd (Prod.mk.inj (List.mem_singleton.mp last)).1 same

end Sarracenia.Library.Expiry
