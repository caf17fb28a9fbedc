import Mathlib.Algebra.GroupWithZero.Nat
import Mathlib.Algebra.Order.BigOperators.Group.List
import Mathlib.Algebra.Order.Group.Nat
import Mathlib.Data.List.Nodup
import Mathlib.Data.List.Perm.Subperm

/-!
# Tables

A dictionary that keeps the order in which its keys came: an entry that is set again keeps
its place. That no key stands twice is part of the table.
-/
namespace Sarracenia.Library

structure Table (κ ν : Type) where
  entries : List (κ × ν)
  distinct : (entries.map (·.1)).Nodup

namespace Table
variable {κ ν : Type}

def empty : Table κ ν := ⟨[], List.nodup_nil⟩

/-- The entries whose values `f` keeps, with the values it gives them. -/
def keepEntries (f : κ → ν → Option ν) : List (κ × ν) → List (κ × ν)
  | [] => []
  | (k, v) :: entries =>
    match f k v with
    | none => keepEntries f entries
    | some w => (k, w) :: keepEntries f entries

theorem keepEntries_keys (f : κ → ν → Option ν) (entries : List (κ × ν)) :
    ((keepEntries f entries).map (·.1)).Sublist (entries.map (·.1)) := by
  induction entries with
  | nil => exact List.Sublist.slnil
  | cons entry entries ih =>
    obtain ⟨k, v⟩ := entry
    rw [keepEntries]
    split
    · exact ih.cons k
    · exact ih.cons_cons k

theorem keepEntries_all {f : κ → ν → Option ν} {entries : List (κ × ν)}
    (all : ∀ entry ∈ entries, f entry.1 entry.2 = some entry.2) : keepEntries f entries = entries := by
  induction entries with
  | nil => rfl
  | cons entry entries ih =>
    obtain ⟨here, rest⟩ := List.forall_mem_cons.mp all
    rw [keepEntries, here, ih rest]

theorem mem_keepEntries {f : κ → ν → Option ν} {entries : List (κ × ν)} {k : κ} {w : ν} :
    (k, w) ∈ keepEntries f entries ↔ ∃ v, (k, v) ∈ entries ∧ f k v = some w := by
  induction entries with
  | nil => simp [keepEntries]
  | cons entry entries ih =>
    obtain ⟨j, u⟩ := entry
    rw [keepEntries]
    split
    · next dropped =>
      rw [ih]
      constructor
      · intro ⟨v, member, kept⟩
        exact ⟨v, List.mem_cons_of_mem _ member, kept⟩
      · intro ⟨v, member, kept⟩
        rcases List.mem_cons.mp member with here | member
        · obtain ⟨rfl, rfl⟩ := Prod.mk.inj here
          cases dropped.symm.trans kept
        · exact ⟨v, member, kept⟩
    · next x found =>
      rw [List.mem_cons, ih]
      constructor
      · intro kept
        rcases kept with here | ⟨v, member, kept⟩
        · obtain ⟨rfl, rfl⟩ := Prod.mk.inj here
          exact ⟨u, List.mem_cons_self, found⟩
        · exact ⟨v, List.mem_cons_of_mem _ member, kept⟩
      · intro ⟨v, member, kept⟩
        rcases List.mem_cons.mp member with here | member
        · obtain ⟨rfl, rfl⟩ := Prod.mk.inj here
          exact Or.inl (by rw [Option.some.inj (found.symm.trans kept)])
        · exact Or.inr ⟨v, member, kept⟩

def keep (t : Table κ ν) (f : κ → ν → Option ν) : Table κ ν :=
  ⟨keepEntries f t.entries, (keepEntries_keys f t.entries).nodup t.distinct⟩

theorem ext_entries {t u : Table κ ν} (same : t.entries = u.entries) : t = u := by
  cases t
  cases u
  congr

variable [DecidableEq κ]

def get (t : Table κ ν) (k : κ) : Option ν := t.entries.lookup k

/-- The entries with one of them set, in its place or at the end. -/
def setEntries (k : κ) (v : ν) : List (κ × ν) → List (κ × ν)
  | [] => [(k, v)]
  | (j, w) :: entries => if j = k then (k, v) :: entries else (j, w) :: setEntries k v entries

theorem setEntries_keys (k : κ) (v : ν) (entries : List (κ × ν)) :
    (setEntries k v entries).map (·.1) =
      if k ∈ entries.map (·.1) then entries.map (·.1) else entries.map (·.1) ++ [k] := by
  induction entries with
  | nil => rfl
  | cons entry entries ih =>
    obtain ⟨j, w⟩ := entry
    by_cases same : j = k
    · simp [setEntries, same]
    · have other : k ≠ j := Ne.symm same
      rw [setEntries, if_neg same, List.map_cons, ih, List.map_cons]
      by_cases later : k ∈ entries.map (·.1)
      · rw [if_pos later, if_pos (List.mem_cons_of_mem j later)]
      · rw [if_neg later, if_neg (List.not_mem_cons_of_ne_of_not_mem other later), List.cons_append]

def set (t : Table κ ν) (k : κ) (v : ν) : Table κ ν where
  entries := setEntries k v t.entries
  distinct := by
    rw [setEntries_keys]
    split
    · exact t.distinct
    · next new =>
      rw [← List.concat_eq_append]
      exact t.distinct.concat new

theorem lookup_cons_eq (j k : κ) (w : ν) (entries : List (κ × ν)) :
    ((j, w) :: entries).lookup k = if k = j then some w else entries.lookup k := by
  rw [List.lookup_cons]
  by_cases same : k = j
  · simp [same]
  · have apart : (k == j) = false := by simpa using same
    rw [apart, if_neg same]

theorem lookup_setEntries (j k : κ) (v : ν) (entries : List (κ × ν)) :
    (setEntries k v entries).lookup j = if j = k then some v else entries.lookup j := by
  induction entries with
  | nil => exact lookup_cons_eq k j v []
  | cons entry entries ih =>
    obtain ⟨i, w⟩ := entry
    rw [setEntries]
    split
    · next here =>
      subst here
      rw [lookup_cons_eq, lookup_cons_eq]
      by_cases same : j = i
      · rw [if_pos same, if_pos same]
      · rw [if_neg same, if_neg same, if_neg same]
    · next other =>
      rw [lookup_cons_eq, lookup_cons_eq, ih]
      by_cases same : j = i
      · have apart : j ≠ k := same ▸ other
        rw [if_pos same, if_neg apart, if_pos same]
      · rw [if_neg same, if_neg same]

theorem get_set (t : Table κ ν) (j k : κ) (v : ν) :
    (t.set k v).get j = if j = k then some v else t.get j := lookup_setEntries j k v t.entries

@[simp] theorem get_set_self (t : Table κ ν) (k : κ) (v : ν) : (t.set k v).get k = some v := by
  rw [get_set, if_pos rfl]

theorem lookup_eq_some_iff {entries : List (κ × ν)} (distinct : (entries.map (·.1)).Nodup)
    {k : κ} {v : ν} : entries.lookup k = some v ↔ (k, v) ∈ entries := by
  induction entries with
  | nil => simp
  | cons entry entries ih =>
    obtain ⟨j, w⟩ := entry
    rw [List.map_cons, List.nodup_cons] at distinct
    rw [lookup_cons_eq, List.mem_cons]
    by_cases same : k = j
    · subst same
      rw [if_pos rfl, Option.some.injEq, Prod.mk.injEq]
      constructor
      · intro here
        exact Or.inl ⟨rfl, here.symm⟩
      · intro member
        rcases member with here | later
        · exact here.2.symm
        · exact absurd (List.mem_map_of_mem later) distinct.1
    · rw [if_neg same, ih distinct.2, Prod.mk.injEq]
      simp only [same, false_and, false_or]

theorem get_eq_some_iff (t : Table κ ν) {k : κ} {v : ν} :
    t.get k = some v ↔ (k, v) ∈ t.entries := lookup_eq_some_iff t.distinct

theorem get_keep (t : Table κ ν) (f : κ → ν → Option ν) (k : κ) :
    (t.keep f).get k = (t.get k).bind (f k) := by
  apply Option.ext
  intro v
  rw [get_eq_some_iff, Option.bind_eq_some_iff]
  unfold keep
  rw [mem_keepEntries]
  constructor
  · intro ⟨u, member, kept⟩
    exact ⟨u, t.get_eq_some_iff.mpr member, kept⟩
  · intro ⟨u, here, kept⟩
    exact ⟨u, t.get_eq_some_iff.mp here, kept⟩

/-- A key is taken out; it need not be there. -/
def erase (t : Table κ ν) (k : κ) : Table κ ν := t.keep fun j v => if j = k then none else some v

theorem get_erase (t : Table κ ν) (j k : κ) :
    (t.erase k).get j = if j = k then none else t.get j := by
  rw [erase, get_keep]
  by_cases same : j = k
  · simp only [if_pos same]
    cases t.get j <;> rfl
  · simp only [if_neg same]
    cases t.get j <;> rfl

theorem entries_eq_nil_iff (t : Table κ ν) : t.entries = [] ↔ ∀ k, t.get k = none := by
  constructor
  · intro none_ k
    rw [get, none_, List.lookup_nil]
  · intro none_
    cases rest : t.entries with
    | nil => rfl
    | cons entry entries =>
      have member : (entry.1, entry.2) ∈ t.entries := rest ▸ List.mem_cons_self
      cases (none_ entry.1).symm.trans (t.get_eq_some_iff.mpr member)

/-! ## One table put into another -/

section Update

/-- A key that is not there is set at the end. -/
theorem setEntries_new {k : κ} {v : ν} {entries : List (κ × ν)} (new : entries.lookup k = none) :
    setEntries k v entries = entries ++ [(k, v)] := by
  induction entries with
  | nil => rfl
  | cons entry entries ih =>
    obtain ⟨j, w⟩ := entry
    rw [lookup_cons_eq] at new
    by_cases same : k = j
    · rw [if_pos same] at new
      cases new
    · rw [if_neg same] at new
      rw [setEntries, if_neg (Ne.symm same), ih new, List.cons_append]

theorem set_same {t : Table κ ν} {k : κ} {v : ν} (there : t.get k = some v) : t.set k v = t := by
  have same {entries : List (κ × ν)} (there : entries.lookup k = some v) : setEntries k v entries = entries := by
    induction entries with
    | nil => cases there
    | cons entry entries ih =>
      obtain ⟨j, w⟩ := entry
      rw [lookup_cons_eq] at there
      rw [setEntries]
      split at there
      · next here =>
        cases there
        rw [if_pos here.symm, here]
      · next other => rw [if_neg (Ne.symm other), ih there]
  exact ext_entries (same there)

theorem setEntries_self (k : κ) (v w : ν) (entries : List (κ × ν)) :
    setEntries k w (setEntries k v entries) = setEntries k w entries := by
  induction entries with
  | nil => simp [setEntries]
  | cons entry entries ih =>
    obtain ⟨j, u⟩ := entry
    by_cases same : j = k
    · simp [setEntries, same]
    · simp [setEntries, same, ih]

theorem setEntries_comm {j k : κ} (other : j ≠ k) (u w : ν) {entries : List (κ × ν)}
    (there : (entries.lookup k).isSome) :
    setEntries k w (setEntries j u entries) = setEntries j u (setEntries k w entries) := by
  induction entries with
  | nil => cases there
  | cons entry entries ih =>
    obtain ⟨i, v⟩ := entry
    rw [lookup_cons_eq] at there
    by_cases here : i = j
    · subst here
      simp [setEntries, other]
    · by_cases found : i = k
      · subst found
        simp [setEntries, here]
      · rw [if_neg (Ne.symm found)] at there
        simp [setEntries, here, found, ih there]

/-- Every entry of one table set in another. -/
def update (t new : Table κ ν) : Table κ ν :=
  new.entries.foldl (fun t entry => t.set entry.1 entry.2) t

@[simp] theorem update_empty (t : Table κ ν) : t.update empty = t := rfl

theorem foldl_set_comm {k : κ} {w : ν} {entries : List (κ × ν)} {t : Table κ ν}
    (other : k ∉ entries.map (·.1)) (there : (t.get k).isSome) :
    (entries.foldl (fun t entry => t.set entry.1 entry.2) t).set k w =
      entries.foldl (fun t entry => t.set entry.1 entry.2) (t.set k w) := by
  induction entries generalizing t with
  | nil => rfl
  | cons entry entries ih =>
    rw [List.map_cons, List.mem_cons, not_or] at other
    have still : ((t.set entry.1 entry.2).get k).isSome := by rwa [get_set, if_neg other.1]
    have moved : (t.set entry.1 entry.2).set k w = (t.set k w).set entry.1 entry.2 :=
      ext_entries (setEntries_comm (Ne.symm other.1) entry.2 w there)
    rw [List.foldl_cons, List.foldl_cons, ih other.2 still, moved]

theorem foldl_setEntries {k : κ} {w : ν} {entries : List (κ × ν)} {t : Table κ ν}
    (distinct : (entries.map (·.1)).Nodup) :
    (setEntries k w entries).foldl (fun t entry => t.set entry.1 entry.2) t =
      (entries.foldl (fun t entry => t.set entry.1 entry.2) t).set k w := by
  induction entries generalizing t with
  | nil => rfl
  | cons entry entries ih =>
    obtain ⟨j, u⟩ := entry
    rw [List.map_cons, List.nodup_cons] at distinct
    rw [setEntries]
    split
    · next same =>
      subst same
      have again : (t.set j u).set j w = t.set j w := ext_entries (setEntries_self j u w t.entries)
      rw [List.foldl_cons, List.foldl_cons, foldl_set_comm distinct.1 (by rw [get_set_self]; rfl), again]
    · rw [List.foldl_cons, List.foldl_cons, ih distinct.2]

/-- Setting a key before the tables are put together is setting it afterwards. -/
theorem update_set (t new : Table κ ν) (k : κ) (w : ν) : t.update (new.set k w) = (t.update new).set k w :=
  foldl_setEntries new.distinct

/-- New keys come after those that are there, in their own order. -/
theorem foldl_set_new {entries : List (κ × ν)} {t : Table κ ν} (distinct : (entries.map (·.1)).Nodup)
    (new : ∀ entry ∈ entries, t.get entry.1 = none) :
    (entries.foldl (fun t entry => t.set entry.1 entry.2) t).entries = t.entries ++ entries := by
  induction entries generalizing t with
  | nil => exact (List.append_nil _).symm
  | cons entry entries ih =>
    rw [List.map_cons, List.nodup_cons] at distinct
    obtain ⟨here, later⟩ := List.forall_mem_cons.mp new
    have still : ∀ e ∈ entries, (t.set entry.1 entry.2).get e.1 = none := fun e member => by
      have other : e.1 ≠ entry.1 := fun same => distinct.1 (same ▸ List.mem_map_of_mem member)
      rw [get_set, if_neg other, later e member]
    have appended : (t.set entry.1 entry.2).entries = t.entries ++ [entry] := setEntries_new here
    rw [List.foldl_cons, ih distinct.2 still, appended, List.append_assoc, List.singleton_append]

/-- A table is read back from its entries. -/
theorem empty_update (t : Table κ ν) : (empty : Table κ ν).update t = t :=
  ext_entries (foldl_set_new t.distinct fun _ _ => rfl)

end Update

/-! ## What a table holds -/

section Entries

/-- A key that is set again lets go of its entry. -/
theorem setEntries_perm {k : κ} {v w : ν} {entries : List (κ × ν)} (there : entries.lookup k = some v) :
    ((k, v) :: setEntries k w entries).Perm ((k, w) :: entries) := by
  induction entries with
  | nil => cases there
  | cons entry entries ih =>
    obtain ⟨j, u⟩ := entry
    rw [lookup_cons_eq] at there
    by_cases same : k = j
    · subst same
      rw [if_pos rfl] at there
      obtain rfl := Option.some.inj there
      rw [setEntries, if_pos rfl]
      exact List.Perm.swap _ _ _
    · rw [if_neg same] at there
      rw [setEntries, if_neg (Ne.symm same)]
      exact (List.Perm.swap _ _ _).trans (((ih there).cons _).trans (List.Perm.swap _ _ _))

theorem erase_perm {t : Table κ ν} {k : κ} {v : ν} (there : t.get k = some v) :
    t.entries.Perm ((k, v) :: (t.erase k).entries) := by
  have erased {entries : List (κ × ν)} (distinct : (entries.map (·.1)).Nodup) (there : entries.lookup k = some v) :
      entries.Perm ((k, v) :: keepEntries (fun j v => if j = k then none else some v) entries) := by
    induction entries with
    | nil => cases there
    | cons entry entries ih =>
      obtain ⟨j, u⟩ := entry
      rw [List.map_cons, List.nodup_cons] at distinct
      rw [lookup_cons_eq] at there
      by_cases same : k = j
      · subst same
        rw [if_pos rfl] at there
        obtain rfl := Option.some.inj there
        have rest : keepEntries (fun j v => if j = k then none else some v) entries = entries := by
          refine keepEntries_all fun entry member => if_neg fun is => distinct.1 ?_
          have key := List.mem_map_of_mem (f := (·.1)) member
          rwa [is] at key
        rw [keepEntries, if_pos rfl, rest]
      · rw [if_neg same] at there
        rw [keepEntries, if_neg (Ne.symm same)]
        exact ((ih distinct.2 there).cons _).trans (List.Perm.swap _ _ _)
  exact erased t.distinct there

/-- What only one key brings is counted at that key. -/
theorem count_flatMap {β : Type} [BEq β] [LawfulBEq β] (t : Table κ ν) (F : κ → ν → List β) {b : β} {k : κ}
    (keyed : ∀ j v, b ∈ F j v → j = k) :
    (t.entries.flatMap fun e => F e.1 e.2).count b = ((t.get k).map fun v => (F k v).count b).getD 0 := by
  have counted {entries : List (κ × ν)} (distinct : (entries.map (·.1)).Nodup) :
      (entries.flatMap fun e => F e.1 e.2).count b = ((entries.lookup k).map fun v => (F k v).count b).getD 0 := by
    induction entries with
    | nil => rfl
    | cons entry entries ih =>
      obtain ⟨j, v⟩ := entry
      rw [List.map_cons, List.nodup_cons] at distinct
      rw [List.flatMap_cons, List.count_append, ih distinct.2, lookup_cons_eq]
      by_cases same : k = j
      · subst same
        have rest : entries.lookup k = none := by
          cases later : entries.lookup k with
          | none => rfl
          | some w =>
            have member := (lookup_eq_some_iff distinct.2).mp later
            exact absurd (List.mem_map_of_mem member) distinct.1
        rw [rest, if_pos rfl]
        rfl
      · have none_ : (F j v).count b = 0 := List.count_eq_zero.mpr fun member => same (keyed j v member).symm
        rw [none_, Nat.zero_add, if_neg same]
  exact counted t.distinct

end Entries

/-! ## Sums -/

section Total

/-- The sum of the values. -/
def total (t : Table κ Nat) : Nat := (t.entries.map (·.2)).sum

/-- Entries that all stand in the table sum up to no more than all of them. -/
theorem sum_le_total (t : Table κ Nat) {entries : List (κ × Nat)} (distinct : (entries.map (·.1)).Nodup)
    (there : ∀ k v, (k, v) ∈ entries → t.get k = some v) : (entries.map (·.2)).sum ≤ t.total := by
  have subset : entries ⊆ t.entries := fun entry member =>
    t.get_eq_some_iff.mp (there entry.1 entry.2 member)
  obtain ⟨sorted, perm, sublist⟩ := List.subperm_of_subset (List.Nodup.of_map _ distinct) subset
  rw [total, ← (perm.map (·.2)).sum_nat]
  exact (sublist.map (·.2)).sum_le_sum fun _ _ => Nat.zero_le _

/-- The total does not depend on the order of the entries. -/
theorem total_eq (t : Table κ Nat) {entries : List (κ × Nat)} (distinct : (entries.map (·.1)).Nodup)
    (there : ∀ k v, t.get k = some v ↔ (k, v) ∈ entries) : t.total = (entries.map (·.2)).sum := by
  have perm : t.entries.Perm entries :=
    (List.perm_ext_iff_of_nodup (List.Nodup.of_map _ t.distinct) (List.Nodup.of_map _ distinct)).mpr fun entry => by
      rw [← there entry.1 entry.2]
      exact t.get_eq_some_iff.symm
  exact (perm.map (·.2)).sum_nat

end Total

/-! ## Tables of tables -/

section Nested
variable {μ : Type} [DecidableEq μ]

def getAt (t : Table κ (Table μ ν)) (k : κ) (m : μ) : Option ν := (t.get k).bind fun row => row.get m

/-- The row is made where it is missing. -/
def setAt (t : Table κ (Table μ ν)) (k : κ) (m : μ) (v : ν) : Table κ (Table μ ν) :=
  t.set k (((t.get k).getD empty).set m v)

theorem getAt_setAt (t : Table κ (Table μ ν)) (j k : κ) (l m : μ) (v : ν) :
    (t.setAt k m v).getAt j l = if j = k ∧ l = m then some v else t.getAt j l := by
  unfold getAt setAt
  rw [get_set]
  by_cases row : j = k
  · subst row
    rw [if_pos rfl, Option.bind_some, get_set]
    by_cases column : l = m
    · rw [if_pos column, if_pos ⟨rfl, column⟩]
    · rw [if_neg column, if_neg fun both => column both.2]
      cases t.get j <;> rfl
  · rw [if_neg row, if_neg fun both => row both.1]

/-- The entries of a list set one after the other. -/
def setAll (t : Table κ (Table μ ν)) (entries : List (κ × μ × ν)) : Table κ (Table μ ν) :=
  entries.foldl (fun t entry => t.setAt entry.1 entry.2.1 entry.2.2) t

theorem getAt_setAll {t : Table κ (Table μ ν)} {entries : List (κ × μ × ν)} {k : κ} {m : μ} {v : ν}
    (here : (t.setAll entries).getAt k m = some v) :
    (k, m, v) ∈ entries ∨ t.getAt k m = some v := by
  induction entries generalizing t with
  | nil => exact Or.inr here
  | cons entry entries ih =>
    obtain ⟨j, l, u⟩ := entry
    rcases ih here with later | before
    · exact Or.inl (List.mem_cons_of_mem _ later)
    · rw [getAt_setAt] at before
      split at before
      · next same =>
        obtain ⟨rfl, rfl⟩ := same
        rw [← Option.some.inj before]
        exact Or.inl List.mem_cons_self
      · exact Or.inr before

theorem getAt_setAll_isSome {t : Table κ (Table μ ν)} {entries : List (κ × μ × ν)} {k : κ} {m : μ}
    (there : (t.getAt k m).isSome ∨ ∃ v, (k, m, v) ∈ entries) :
    ((t.setAll entries).getAt k m).isSome := by
  induction entries generalizing t with
  | nil => exact there.resolve_right fun ⟨_, member⟩ => absurd member List.not_mem_nil
  | cons entry entries ih =>
    obtain ⟨j, l, u⟩ := entry
    apply ih
    rw [getAt_setAt]
    by_cases same : k = j ∧ m = l
    · exact Or.inl (by rw [if_pos same]; rfl)
    · rw [if_neg same]
      refine there.imp_right fun ⟨v, member⟩ => ⟨v, ?_⟩
      rcases List.mem_cons.mp member with first | later
      · obtain ⟨rfl, rest⟩ := Prod.mk.inj first
        exact absurd ⟨rfl, (Prod.mk.inj rest).1⟩ same
      · exact later

end Nested

end Table
end Sarracenia.Library
