import Mathlib.Data.List.Basic
import Mathlib.Data.List.TakeDrop
import Sarracenia.Library.Dynamic

/-!
# Dictionaries whose keys are distinct

Setting and deleting keep the keys distinct, and the entries of such a dictionary put into
another one are found there.
-/
namespace Sarracenia.Library.Dynamic

section Keys
variable {ν : Type}

/-- No key stands twice. -/
def Dict.Distinct (d : Dict ν) : Prop := (d.map (·.1)).Nodup

variable {d : Dict ν} {key : String} {v : ν}

theorem Dict.mem_keys_set {k : String} : k ∈ (d.set key v).map (·.1) ↔ k = key ∨ k ∈ d.map (·.1) := by
  induction d with
  | nil => simp [Dict.set]
  | cons entry d ih =>
    obtain ⟨j, w⟩ := entry
    rw [Dict.set]
    split
    · next same =>
      subst same
      simp
    · rw [List.map_cons, List.mem_cons, ih, List.map_cons, List.mem_cons]
      exact or_left_comm

theorem Dict.Distinct.set (distinct : d.Distinct) : (d.set key v).Distinct := by
  unfold Dict.Distinct at distinct ⊢
  induction d with
  | nil => exact List.nodup_cons.mpr ⟨List.not_mem_nil, List.nodup_nil⟩
  | cons entry d ih =>
    obtain ⟨j, w⟩ := entry
    rw [List.map_cons, List.nodup_cons] at distinct
    rw [Dict.set]
    split
    · exact List.nodup_cons.mpr distinct
    · next other =>
      refine List.nodup_cons.mpr ⟨fun member => ?_, ih distinct.2⟩
      exact (Dict.mem_keys_set.mp member).elim other distinct.1

theorem Dict.Distinct.del (distinct : d.Distinct) : (d.del key).Distinct :=
  distinct.sublist (List.filter_sublist.map _)

theorem Dict.get_none_iff : d.get key = none ↔ key ∉ d.map (·.1) := by
  induction d with
  | nil => simp
  | cons entry d ih =>
    obtain ⟨j, w⟩ := entry
    rw [Dict.get_cons, List.map_cons, List.mem_cons, not_or]
    split
    · next same => exact ⟨nofun, fun both => absurd same both.1⟩
    · next other => exact ih.trans (and_iff_right other).symm

theorem Dict.get_append (d e : Dict ν) (key : String) : Dict.get (d ++ e) key = (d.get key).or (e.get key) := List.lookup_append

/-! ## One entry among others -/

section Among
variable {before after : Dict ν}

/-- An entry that is found has its place. -/
theorem Dict.among (here : d.get key = some v) :
    ∃ before after, d = before ++ (key, v) :: after ∧ before.get key = none := by
  obtain ⟨before, after, same, others⟩ := List.lookup_eq_some_iff.mp here
  refine ⟨before, after, same, Dict.get_none_iff.mpr fun member => ?_⟩
  obtain ⟨entry, inside, named⟩ := List.mem_map.mp member
  exact absurd named.symm (by simpa using others entry inside)

variable (absent : before.get key = none)
include absent

theorem Dict.span_among : (before ++ (key, v) :: after).span (·.1 ≠ key) = (before, (key, v) :: after) := by
  have others : ∀ entry ∈ before, decide (entry.1 ≠ key) = true := fun entry member =>
    decide_eq_true fun same => Dict.get_none_iff.mp absent (List.mem_map.mpr ⟨entry, member, same⟩)
  rw [List.span_eq_takeWhile_dropWhile, List.takeWhile_append_of_pos others, List.dropWhile_append_of_pos others]
  simp

theorem Dict.set_among (w : ν) : Dict.set (before ++ (key, v) :: after) key w = before ++ (key, w) :: after := by
  induction before with
  | nil => simp [Dict.set]
  | cons entry before ih =>
    obtain ⟨j, u⟩ := entry
    rw [Dict.get_cons] at absent
    split at absent
    · cases absent
    · next other => rw [List.cons_append, Dict.set, if_neg (Ne.symm other), ih absent, List.cons_append]

end Among

section All
variable (keys : List String)

theorem Dict.get_del_all (d : Dict ν) (other : key ∉ keys) : (keys.foldl Dict.del d).get key = d.get key := by
  induction keys generalizing d with
  | nil => rfl
  | cons k keys ih =>
    rw [List.mem_cons, not_or] at other
    rw [List.foldl_cons, ih _ other.2, Dict.get_del_ne _ other.1]

theorem Dict.get_del_all_mem (d : Dict ν) (member : key ∈ keys) : (keys.foldl Dict.del d).get key = none := by
  induction keys generalizing d with
  | nil => cases member
  | cons k keys ih =>
    rw [List.foldl_cons]
    by_cases later : key ∈ keys
    · exact ih _ later
    · obtain rfl : key = k := (List.mem_cons.mp member).resolve_right later
      rw [Dict.get_del_all keys _ later, Dict.get_del_self]

theorem Dict.Distinct.del_all (distinct : d.Distinct) : (keys.foldl Dict.del d).Distinct := by
  induction keys generalizing d with
  | nil => exact distinct
  | cons k keys ih => exact ih distinct.del

end All

/-- The entries of one dictionary put into another. -/
def Dict.into (d base : Dict ν) : Dict ν := d.foldl (fun base h => Dict.set base h.1 h.2) base

theorem Dict.get_into (distinct : d.Distinct) (base : Dict ν) :
    (d.into base).get key = (d.get key).or (base.get key) := by
  unfold Dict.into
  induction d generalizing base with
  | nil => rfl
  | cons entry d ih =>
    obtain ⟨j, w⟩ := entry
    rw [Dict.Distinct, List.map_cons, List.nodup_cons] at distinct
    rw [List.foldl_cons, ih distinct.2, Dict.get_cons]
    split
    · next same =>
      subst same
      rw [Dict.get_none_iff.mpr distinct.1, Dict.get_set_self]
      rfl
    · next other => rw [Dict.get_set_ne _ other]

end Keys
end Sarracenia.Library.Dynamic
