import Sarracenia.Library.Text

/-!
# Splitting and replacing

What the pieces between separators add up to, and what replacing does where the
separator is one character or the replacement is shorter.
-/
namespace Sarracenia.Library.Text

section Join
variable (sep : Str)

theorem join_singleton (x : Str) : join sep [x] = x := by simp [join, List.intercalate]

theorem join_cons_cons (x y : Str) (pieces : List Str) : join sep (x :: y :: pieces) = x ++ sep ++ join sep (y :: pieces) := by
  simp [join, List.intercalate]

theorem join_length (pieces : List Str) :
    (join sep pieces).length = pieces.flatten.length + (pieces.length - 1) * sep.length := by
  induction pieces with
  | nil => simp [join, List.intercalate]
  | cons x pieces ih =>
    cases pieces with
    | nil => simp [join, List.intercalate]
    | cons y pieces =>
      rw [join_cons_cons, List.length_append, List.length_append, ih, List.flatten_cons (l := x), List.length_append]
      simp only [List.length_cons, Nat.add_sub_cancel, Nat.succ_mul]
      omega

end Join

section Split
variable (sep : Str)

theorem splitFrom_ne_nil (skip : Nat) (s : Str) : splitFrom sep skip s ≠ [] := by
  induction s generalizing skip with
  | nil => exact List.cons_ne_nil _ _
  | cons c s ih =>
    rw [splitFrom]
    split
    · exact ih _
    · split
      · exact List.cons_ne_nil _ _
      · split <;> exact List.cons_ne_nil _ _

/-- Where the separator does not start, its first piece is longer by one. -/
theorem splitFrom_cons {c : Char} {s : Str} (other : sep.isPrefixOf (c :: s) = false) :
    ∃ piece rest, splitFrom sep 0 s = piece :: rest ∧ splitFrom sep 0 (c :: s) = (c :: piece) :: rest := by
  cases pieces : splitFrom sep 0 s with
  | nil => exact absurd pieces (splitFrom_ne_nil sep 0 s)
  | cons piece rest =>
    refine ⟨piece, rest, rfl, ?_⟩
    rw [splitFrom, if_neg (Nat.lt_irrefl 0), if_neg (by rw [other]; exact Bool.false_ne_true), pieces]

theorem splitFrom_starts {c : Char} {s : Str} (starts : sep.isPrefixOf (c :: s) = true) :
    splitFrom sep 0 (c :: s) = [] :: splitFrom sep (sep.length - 1) s := by
  rw [splitFrom, if_neg (Nat.lt_irrefl 0), if_pos starts]

variable {sep} (nonempty : sep ≠ [])
include nonempty

/-- The pieces and the separators between them make up the text. -/
theorem splitFrom_length {skip : Nat} {s : Str} (inside : skip ≤ s.length) :
    (splitFrom sep skip s).flatten.length + ((splitFrom sep skip s).length - 1) * sep.length + skip = s.length := by
  induction s generalizing skip with
  | nil =>
    obtain rfl := Nat.le_zero.mp inside
    simp [splitFrom]
  | cons c s ih =>
    rw [List.length_cons] at inside ⊢
    by_cases passing : 0 < skip
    · rw [splitFrom, if_pos passing]
      have rest := ih (show skip - 1 ≤ s.length by omega)
      omega
    · obtain rfl : skip = 0 := by omega
      cases starts : sep.isPrefixOf (c :: s) with
      | true =>
        have long := (List.isPrefixOf_iff_prefix.mp starts).length_le
        have pos := List.length_pos_iff.mpr nonempty
        have some_ := List.length_pos_iff.mpr (splitFrom_ne_nil sep (sep.length - 1) s)
        rw [List.length_cons] at long
        have rest := ih (show sep.length - 1 ≤ s.length by omega)
        rw [splitFrom_starts sep starts, List.flatten_cons, List.nil_append, List.length_cons, Nat.add_sub_cancel]
        obtain ⟨n, count⟩ := Nat.exists_eq_add_of_lt some_
        rw [count] at rest ⊢
        simp only [Nat.zero_add, Nat.add_sub_cancel, Nat.succ_mul] at rest ⊢
        omega
      | false =>
        obtain ⟨piece, rest, pieces, longer⟩ := splitFrom_cons sep starts
        have whole := ih (Nat.zero_le s.length)
        rw [longer]
        rw [pieces] at whole
        simp only [List.flatten_cons, List.length_append, List.length_cons] at whole ⊢
        omega

theorem split_single_iff {s : Str} : (split sep s).length = 1 ↔ occurs sep s = false := by
  unfold split
  induction s with
  | nil =>
    rw [occurs, List.isEmpty_eq_false_iff]
    exact ⟨fun _ => nonempty, fun _ => rfl⟩
  | cons c s ih =>
    cases starts : sep.isPrefixOf (c :: s) with
    | true =>
      have some_ := List.length_pos_iff.mpr (splitFrom_ne_nil sep (sep.length - 1) s)
      rw [splitFrom_starts sep starts, occurs, starts, Bool.true_or, List.length_cons]
      exact ⟨fun one => absurd one (by omega), fun same => Bool.noConfusion same⟩
    | false =>
      obtain ⟨piece, rest, pieces, longer⟩ := splitFrom_cons sep starts
      rw [longer, occurs, starts, Bool.false_or, ← ih, pieces]
      rfl

omit nonempty in
theorem split_of_not_occurs {s : Str} (not : occurs sep s = false) : split sep s = [s] := by
  unfold split
  induction s with
  | nil => rfl
  | cons c s ih =>
    rw [occurs, Bool.or_eq_false_iff] at not
    obtain ⟨piece, rest, pieces, longer⟩ := splitFrom_cons sep not.1
    rw [ih not.2] at pieces
    obtain ⟨rfl, rfl⟩ := List.cons.inj pieces
    exact longer

omit nonempty in
theorem replaceAll_of_not_occurs {new s : Str} (not : occurs sep s = false) : replaceAll sep new s = s := by
  unfold replaceAll
  rw [split_of_not_occurs not, join_singleton]

theorem replaceAll_length_lt {new s : Str} (shorter : new.length < sep.length) (occurs_ : occurs sep s = true) :
    (replaceAll sep new s).length < s.length := by
  have whole := splitFrom_length nonempty (Nat.zero_le s.length)
  have more : (split sep s).length ≠ 1 := fun one => by
    rw [(split_single_iff nonempty).mp one] at occurs_
    cases occurs_
  have some_ := List.length_pos_iff.mpr (splitFrom_ne_nil sep 0 s)
  unfold replaceAll
  unfold split at more ⊢
  rw [join_length]
  obtain ⟨n, count⟩ : ∃ n, (splitFrom sep 0 s).length = n + 2 := ⟨(splitFrom sep 0 s).length - 2, by omega⟩
  rw [count] at whole ⊢
  have less : (n + 2 - 1) * new.length < (n + 2 - 1) * sep.length := Nat.mul_lt_mul_of_pos_left shorter (by omega)
  omega

theorem replaceAll_length_le {new s : Str} (shorter : new.length < sep.length) :
    (replaceAll sep new s).length ≤ s.length := by
  cases occurs_ : occurs sep s with
  | true => exact (replaceAll_length_lt nonempty shorter occurs_).le
  | false => rw [replaceAll_of_not_occurs occurs_]

/-- A shorter replacement leaves the text as it is only where there is nothing to replace. -/
theorem replaceAll_eq_self_iff {new s : Str} (shorter : new.length < sep.length) :
    replaceAll sep new s = s ↔ occurs sep s = false := by
  constructor
  · intro same
    cases occurs_ : occurs sep s with
    | true =>
      have less := replaceAll_length_lt nonempty shorter occurs_
      rw [same] at less
      exact absurd less (Nat.lt_irrefl _)
    | false => rfl
  · exact replaceAll_of_not_occurs

end Split

/-! ## One character -/

section Char
variable (c : Char)

theorem split_cons_self (s : Str) : split [c] (c :: s) = [] :: split [c] s := by
  unfold split
  rw [splitFrom_starts [c] (by simp [List.isPrefixOf])]
  rfl

theorem split_cons_ne {d : Char} (other : d ≠ c) (s : Str) :
    ∃ piece rest, split [c] s = piece :: rest ∧ split [c] (d :: s) = (d :: piece) :: rest :=
  splitFrom_cons [c] (by simp [List.isPrefixOf, Ne.symm other])

theorem replaceAll_char (new s : Str) : replaceAll [c] new s = s.flatMap fun d => if d = c then new else [d] := by
  unfold replaceAll
  induction s with
  | nil => rfl
  | cons d s ih =>
    by_cases same : d = c
    · subst same
      rw [split_cons_self, List.flatMap_cons, if_pos rfl, ← ih]
      cases pieces : split [d] s with
      | nil => exact absurd pieces (splitFrom_ne_nil _ 0 s)
      | cons piece rest => rw [join_cons_cons, List.nil_append]
    · obtain ⟨piece, rest, pieces, longer⟩ := split_cons_ne c same s
      rw [longer, List.flatMap_cons, if_neg same, ← ih, pieces]
      cases rest with
      | nil => rw [join_singleton, join_singleton]; rfl
      | cons next rest => rw [join_cons_cons, join_cons_cons]; rfl

theorem split_plain {a : Str} (plain : c ∉ a) : split [c] a = [a] := by
  induction a with
  | nil => rfl
  | cons d a ih =>
    rw [List.mem_cons, not_or] at plain
    obtain ⟨other, plain⟩ := plain
    obtain ⟨piece, rest, pieces, longer⟩ := split_cons_ne c (Ne.symm other) a
    rw [ih plain] at pieces
    obtain ⟨rfl, rfl⟩ := List.cons.inj pieces
    exact longer

/-- The pieces of what comes before a separator, and of what comes after it. -/
theorem split_concat (a b : Str) : split [c] (a ++ c :: b) = split [c] a ++ split [c] b := by
  induction a with
  | nil => exact split_cons_self c b
  | cons d a ih =>
    by_cases same : d = c
    · subst same
      rw [List.cons_append, split_cons_self, split_cons_self, ih, List.cons_append]
    · obtain ⟨piece, rest, pieces, longer⟩ := split_cons_ne c same a
      obtain ⟨piece', rest', pieces', longer'⟩ := split_cons_ne c same (a ++ c :: b)
      rw [ih, pieces, List.cons_append] at pieces'
      obtain ⟨rfl, rfl⟩ := List.cons.inj pieces'
      exact longer'.trans (by rw [longer, List.cons_append])

/-- Pieces without the separator are the pieces of what they are joined to. -/
theorem split_join {pieces : List Str} (nonempty : pieces ≠ []) (plain : ∀ piece ∈ pieces, c ∉ piece) :
    split [c] (join [c] pieces) = pieces := by
  induction pieces with
  | nil => exact absurd rfl nonempty
  | cons piece pieces ih =>
    obtain ⟨here, later⟩ := List.forall_mem_cons.mp plain
    cases pieces with
    | nil => rw [join_singleton, split_plain c here]
    | cons next pieces =>
      rw [join_cons_cons, List.append_assoc, List.singleton_append, split_concat, split_plain c here,
        ih (List.cons_ne_nil _ _) later]
      rfl

theorem split_head (s : Str) : ∃ rest, split [c] s = s.takeWhile (· ≠ c) :: rest := by
  induction s with
  | nil => exact ⟨[], rfl⟩
  | cons d s ih =>
    by_cases same : d = c
    · subst same
      exact ⟨split [d] s, by rw [split_cons_self, List.takeWhile_cons_of_neg (by simp)]⟩
    · obtain ⟨piece, rest, pieces, longer⟩ := split_cons_ne c same s
      obtain ⟨rest', head⟩ := ih
      rw [pieces] at head
      obtain ⟨rfl, rfl⟩ := List.cons.inj head
      exact ⟨rest, by rw [longer, List.takeWhile_cons_of_pos (by simpa using same)]⟩

theorem replaceAll_char_length_le {new : Str} (long : 1 ≤ new.length) (s : Str) :
    s.length ≤ (replaceAll [c] new s).length := by
  rw [replaceAll_char]
  induction s with
  | nil => exact Nat.zero_le _
  | cons d s ih =>
    rw [List.flatMap_cons, List.length_append, List.length_cons]
    split
    · omega
    · rw [List.length_singleton]
      omega

theorem mem_replaceAll_char {d : Char} {new s : Str} (member : d ∈ replaceAll [c] new s) : d ∈ new ∨ d ∈ s ∧ d ≠ c := by
  rw [replaceAll_char, List.mem_flatMap] at member
  obtain ⟨e, inside, member⟩ := member
  split at member
  · exact .inl member
  · next other =>
    obtain rfl := List.mem_singleton.mp member
    exact .inr ⟨inside, other⟩

theorem replaceAll_char_length_lt {new s : Str} (longer : 1 < new.length) (member : c ∈ s) :
    s.length < (replaceAll [c] new s).length := by
  obtain ⟨a, b, rfl⟩ := List.append_of_mem member
  have first := replaceAll_char_length_le c longer.le a
  have second := replaceAll_char_length_le c longer.le b
  rw [replaceAll_char] at first second ⊢
  rw [List.flatMap_append, List.flatMap_cons, if_pos rfl, List.length_append, List.length_append,
    List.length_append, List.length_cons]
  omega

theorem replaceAll_char_plain {s : Str} (plain : c ∉ s) (new : Str) : replaceAll [c] new s = s := by
  unfold replaceAll
  rw [split_plain c plain, join_singleton]

/-- A longer replacement leaves the text as it is only where there is nothing to replace. -/
theorem replaceAll_char_eq_self_iff {new : Str} (longer : 1 < new.length) (s : Str) :
    replaceAll [c] new s = s ↔ c ∉ s := by
  refine ⟨fun same member => ?_, fun plain => replaceAll_char_plain c plain new⟩
  have grown := replaceAll_char_length_lt c longer member
  rw [same] at grown
  exact Nat.lt_irrefl _ grown

theorem replaceAll_char_nil (s : Str) : replaceAll [c] [] s = s.filter (· ≠ c) := by
  rw [replaceAll_char]
  induction s with
  | nil => rfl
  | cons d s ih =>
    rw [List.flatMap_cons, ih, List.filter_cons]
    by_cases same : d = c
    · simp [same]
    · simp [same]

end Char
end Sarracenia.Library.Text
