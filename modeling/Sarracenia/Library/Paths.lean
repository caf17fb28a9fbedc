import Sarracenia.Library.Split

/-!
# Paths as lists of names

The names of a path are what stands between its slashes. A path is followed from a place part by part: one part
leads up, one stays, and any other leads down into a directory of that name.
-/
namespace Sarracenia.Library.Paths
open Text

section Names
variable {a b s : Str} {pieces : List Str}

def names (path : Str) : List Str := (split ['/'] path).filter (· ≠ [])

theorem names_slash (a b : Str) : names (a ++ '/' :: b) = names a ++ names b := by
  unfold names
  rw [split_concat, List.filter_append]

theorem names_root (s : Str) : names ('/' :: s) = names s := names_slash [] s

theorem names_plain (plain : '/' ∉ s) (some_ : s ≠ []) : names s = [s] := by
  unfold names
  rw [split_plain _ plain, List.filter_cons_of_pos (by simpa using some_), List.filter_nil]

theorem names_join (plain : ∀ piece ∈ pieces, '/' ∉ piece) : names (join ['/'] pieces) = pieces.filter (· ≠ []) := by
  cases pieces with
  | nil => rfl
  | cons piece pieces =>
    unfold names
    rw [split_join _ (List.cons_ne_nil _ _) plain]

theorem names_proper (s : Str) : ∀ name ∈ names s, name ≠ [] := by
  intro name member
  exact of_decide_eq_true (List.mem_filter.mp member).2

theorem mem_piece {c d : Char} (other : d ≠ c) (member : d ∈ s) : ∃ piece ∈ split [c] s, d ∈ piece := by
  induction s with
  | nil => cases member
  | cons e s ih =>
    by_cases separator : e = c
    · subst separator
      obtain ⟨piece, there, inside⟩ := ih ((List.mem_cons.mp member).resolve_left other)
      exact ⟨piece, by rw [split_cons_self]; exact List.mem_cons_of_mem _ there, inside⟩
    · obtain ⟨piece, rest, pieces, longer⟩ := split_cons_ne c separator s
      rw [longer]
      cases List.mem_cons.mp member with
      | inl here => exact ⟨e :: piece, List.mem_cons_self, by rw [here]; exact List.mem_cons_self⟩
      | inr later =>
        obtain ⟨piece', there, inside⟩ := ih later
        rw [pieces] at there
        cases List.mem_cons.mp there with
        | inl first => exact ⟨e :: piece, List.mem_cons_self, List.mem_cons_of_mem _ (first ▸ inside)⟩
        | inr further => exact ⟨piece', List.mem_cons_of_mem _ further, inside⟩

/-- What is no slash stands in a name. -/
theorem mem_name {c : Char} (letter : c ≠ '/') (member : c ∈ s) : ∃ name ∈ names s, c ∈ name := by
  obtain ⟨piece, there, inside⟩ := mem_piece letter member
  exact ⟨piece, List.mem_filter.mpr ⟨there, by simpa using List.ne_nil_of_mem inside⟩, inside⟩

theorem not_mem_piece {c : Char} (s : Str) : ∀ piece ∈ split [c] s, c ∉ piece := by
  induction s with
  | nil =>
    intro piece member
    rw [List.mem_singleton.mp member]
    exact List.not_mem_nil
  | cons d s ih =>
    by_cases same : d = c
    · subst same
      rw [split_cons_self, List.forall_mem_cons]
      exact ⟨List.not_mem_nil, ih⟩
    · obtain ⟨piece, rest, pieces, longer⟩ := split_cons_ne c same s
      rw [pieces, List.forall_mem_cons] at ih
      rw [longer, List.forall_mem_cons, List.mem_cons, not_or]
      exact ⟨⟨Ne.symm same, ih.1⟩, ih.2⟩

theorem not_mem_name (s : Str) : ∀ name ∈ names s, '/' ∉ name := fun name member =>
  not_mem_piece s name (List.mem_filter.mp member).1

/-- Each name with a slash before it. -/
theorem names_rooted (plain : ∀ piece ∈ pieces, '/' ∉ piece ∧ piece ≠ []) :
    names (pieces.map fun piece => '/' :: piece).flatten = pieces := by
  induction pieces with
  | nil => rfl
  | cons piece pieces ih =>
    obtain ⟨here, later⟩ := List.forall_mem_cons.mp plain
    rw [List.map_cons, List.flatten_cons, List.cons_append, names_root]
    cases pieces with
    | nil => rw [List.map_nil, List.flatten_nil, List.append_nil, names_plain here.1 here.2]
    | cons next pieces =>
      rw [List.map_cons, List.flatten_cons, List.cons_append, names_root] at ih
      rw [List.map_cons, List.flatten_cons, List.cons_append, names_slash, names_plain here.1 here.2, ih later,
        List.singleton_append]

end Names

section Follow
variable {α : Type} [DecidableEq α] (up here : α)

def onward (place : List α) (part : α) : List α :=
  if part = up then place.dropLast else if part = here then place else place ++ [part]

def follow (place parts : List α) : List α := parts.foldl (onward up here) place

variable {up here} {place parts : List α}

theorem follow_append (place a b : List α) : follow up here place (a ++ b) = follow up here (follow up here place a) b :=
  List.foldl_append

/-- Parts that only lead up. -/
theorem follow_up (place : List α) (n : Nat) :
    follow up here place (List.replicate n up) = place.take (place.length - n) := by
  induction n generalizing place with
  | zero => exact (List.take_length (l := place)).symm
  | succ n ih =>
    rw [List.replicate_succ]
    unfold follow at ih ⊢
    rw [List.foldl_cons, onward, if_pos rfl, ih, List.length_dropLast, List.dropLast_eq_take, List.take_take]
    congr 1
    omega

/-- Parts that only lead down. -/
theorem follow_down (place : List α) (plain : ∀ part ∈ parts, part ≠ up ∧ part ≠ here) :
    follow up here place parts = place ++ parts := by
  induction parts generalizing place with
  | nil => exact (List.append_nil place).symm
  | cons part parts ih =>
    obtain ⟨first, later⟩ := List.forall_mem_cons.mp plain
    have turn : follow up here place (part :: parts) = follow up here (place ++ [part]) parts := by
      unfold follow
      rw [List.foldl_cons, onward, if_neg first.1, if_neg first.2]
    rw [turn, ih (place ++ [part]) later, List.append_assoc, List.singleton_append]

end Follow
end Sarracenia.Library.Paths
