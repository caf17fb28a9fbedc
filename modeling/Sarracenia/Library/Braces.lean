import Sarracenia.Library.Rewriting

/-!
# Texts with braced names

A text with holes, each of which is a name in braces behind a dollar sign, or has been filled already. What goes through such
a text from left to right, and stops only where braces are opened, goes from hole to hole.
-/
namespace Sarracenia.Library.Text
open Rewriting

def opening : Str := ['$', '{']

/-- A name in braces. -/
def braced (name : Str) : Str := '$' :: '{' :: name ++ ['}']

/-- No braces are opened. -/
def Closed (s : Str) : Prop := Normal opening s

section Closed
variable {a b name : Str}

theorem Closed.left (closed : Closed (a ++ b)) : Closed a := closed.part (List.prefix_append a b).isInfix

theorem Closed.right (closed : Closed (a ++ b)) : Closed b := closed.part (List.suffix_append a b).isInfix

/-- Braces that are opened in two texts, but in neither, are opened between them. -/
theorem opened_between (left : Closed a) (right : Closed b) (opens : ¬ Closed (a ++ b)) :
    a.getLast? = some '$' ∧ b.head? = some '{' := by
  obtain ⟨p, l, r, q, rfl, rfl, whole, some_, some_'⟩ := straddle left right opens
  cases l with
  | nil => exact absurd rfl some_
  | cons c l =>
    cases l with
    | nil =>
      obtain ⟨rfl, rfl⟩ := List.cons.inj whole
      exact ⟨by simp, rfl⟩
    | cons d l =>
      have short := congrArg List.length whole
      have positive := List.length_pos_iff.mpr some_'
      simp only [opening, List.length_append, List.length_cons, List.length_nil] at short
      omega

theorem Closed.append (left : Closed a) (right : Closed b) (apart : a.getLast? = some '$' → b.head? ≠ some '{') : Closed (a ++ b) := by
  by_contra opens
  obtain ⟨last, first⟩ := opened_between left right opens
  exact apart last first

theorem closed_of_not_mem (none_ : '$' ∉ a) : Closed a := fun opens => none_ (opens.subset List.mem_cons_self)

theorem Closed.after (plain : '$' ∉ a) (closed : Closed b) : Closed (a ++ b) := by
  apply (closed_of_not_mem plain).append closed
  intro last
  exact absurd (List.mem_of_getLast? last) plain

/-- What stands behind the sign is closed where the name is. -/
theorem Closed.behind (closed : Closed name) : Closed ('{' :: name ++ ['}']) := by
  have end_ : Closed (name ++ ['}']) := by
    apply closed.append (closed_of_not_mem (by decide))
    exact fun _ same => absurd (Option.some.inj same) (by decide)
  exact Closed.after (a := ['{']) (by decide) end_

end Closed

section Holes
variable {α : Type}

/-- The text with its holes filled. -/
def fillHoles (f : α → Str) (first : Str) (rest : List (α × Str)) : Str := first ++ rest.flatMap fun e => f e.1 ++ e.2

variable {ε : Type} {G : Str → Except ε Str} {f g k : α → Str} {first name a s : Str} {rest : List (α × Str)}

theorem fillHoles_congr (same : ∀ e ∈ rest, f e.1 = g e.1) : fillHoles f first rest = fillHoles g first rest := by
  unfold fillHoles
  congr 1
  exact List.flatMap_congr fun e member => by rw [same e member]

theorem fillHoles_cons (f : α → Str) (first : Str) (q : α) (t : Str) (rest : List (α × Str)) :
    fillHoles f first ((q, t) :: rest) = first ++ (f q ++ fillHoles f t rest) := by
  unfold fillHoles
  rw [List.flatMap_cons, List.append_assoc (f q)]

theorem fillHoles_nil (f : α → Str) (first : Str) : fillHoles f first [] = first := List.append_nil first

theorem fillHoles_without {c : Char} (before : c ∉ first)
    (each : ∀ e ∈ rest, c ∉ f e.1 ∧ c ∉ e.2) : c ∉ fillHoles f first rest := by
  intro there
  rcases List.mem_append.mp there with there | there
  · exact before there
  · obtain ⟨e, member, there⟩ := List.mem_flatMap.mp there
    obtain ⟨hole, text⟩ := each e member
    exact (List.mem_append.mp there).elim hole text

theorem fillHoles_plain (starts : ∀ q, '$' ∈ f q)
    (plain : '$' ∉ fillHoles f first rest) : rest = [] := by
  cases rest with
  | nil => rfl
  | cons e rest =>
    refine absurd (List.mem_append_right first ?_) plain
    exact List.mem_flatMap.mpr ⟨e, List.mem_cons_self, List.mem_append_left _ (starts e.1)⟩

theorem map_append_map (a b : Str) (r : Except ε Str) : (r.map (b ++ ·)).map (a ++ ·) = r.map (a ++ b ++ ·) := by
  cases r with
  | error e => rfl
  | ok s => simp [Except.map]

/-- A text in which no braces are opened is passed over. -/
theorem scan_text (skip : ∀ c s, ¬ opening <+: c :: s → G (c :: s) = (G s).map ([c] ++ ·)) (closed : Closed a)
    (apart : a.getLast? = some '$' → s.head? ≠ some '{') : G (a ++ s) = (G s).map (a ++ ·) := by
  induction a with
  | nil =>
    rw [List.nil_append]
    cases G s with
    | error e => rfl
    | ok t => rfl
  | cons c a ih =>
    have later : Closed a := closed.right (a := [c])
    have here : ¬ opening <+: c :: (a ++ s) := by
      intro opens
      obtain ⟨same, begins⟩ := List.cons_prefix_cons.mp opens
      cases a with
      | nil =>
        cases s with
        | nil => cases List.eq_nil_of_prefix_nil begins
        | cons d s =>
          obtain ⟨same', -⟩ := List.cons_prefix_cons.mp begins
          exact apart (congrArg some same.symm) (congrArg some same'.symm)
      | cons d a =>
        obtain ⟨same', -⟩ := List.cons_prefix_cons.mp begins
        exact closed ⟨[], a, by rw [← same, ← same']; rfl⟩
    have rest : G (a ++ s) = (G s).map (a ++ ·) := by
      apply ih later
      intro last
      apply apart
      cases a with
      | nil => cases last
      | cons d a => exact last
    rw [List.cons_append, skip c _ here, rest, map_append_map]
    rfl

/-- A name that is passed over. -/
theorem scan_braced (skip : ∀ c s, ¬ opening <+: c :: s → G (c :: s) = (G s).map ([c] ++ ·)) (closed : Closed name)
    (other : G (braced name ++ s) = (G ('{' :: name ++ '}' :: s)).map (['$'] ++ ·)) :
    G (braced name ++ s) = (G s).map (braced name ++ ·) := by
  have later : G ('{' :: name ++ ['}'] ++ s) = (G s).map ('{' :: name ++ ['}'] ++ ·) := by
    apply scan_text skip closed.behind
    intro last
    rw [List.getLast?_concat] at last
    exact absurd (Option.some.inj last) (by decide)
  have shape : '{' :: name ++ '}' :: s = '{' :: name ++ ['}'] ++ s := by simp
  rw [other, shape, later, map_append_map]
  rfl

/-- What passes over texts and does the same to every hole passes through the whole. No braces are opened with something in the
holes, which is what is there where they have been filled. -/
theorem scan_fill (skip : ∀ c s, ¬ opening <+: c :: s → G (c :: s) = (G s).map ([c] ++ ·)) (nil : G [] = .ok [])
    (each : ∀ e ∈ rest, k e.1 = f e.1 ∧ g e.1 = f e.1 ∨ (f e.1).head? = some '$' ∧ ∀ s, G (f e.1 ++ s) = (G s).map (g e.1 ++ ·))
    (closed : Closed (fillHoles k first rest)) : G (fillHoles f first rest) = .ok (fillHoles g first rest) := by
  induction rest generalizing first with
  | nil =>
    rw [fillHoles_nil] at closed
    have all := scan_text (s := []) skip closed fun _ => nofun
    rw [List.append_nil, nil] at all
    rw [fillHoles_nil, fillHoles_nil, all]
    exact congrArg Except.ok (List.append_nil first)
  | cons e rest ih =>
    obtain ⟨q, t⟩ := e
    have later := fun e member => each e (List.mem_cons_of_mem _ member)
    rw [fillHoles_cons] at closed
    rcases each _ List.mem_cons_self with ⟨there, same⟩ | ⟨starts, turn⟩
    · have shape (u : α → Str) : fillHoles u first ((q, t) :: rest) = fillHoles u (first ++ u q ++ t) rest := by
        unfold fillHoles
        rw [List.flatMap_cons, List.append_assoc first, List.append_assoc first, List.append_assoc (u q)]
      rw [← fillHoles_cons, shape, there] at closed
      rw [shape f, shape g, same]
      exact ih later closed
    · have step := ih later closed.right.right
      rw [fillHoles_cons, fillHoles_cons, scan_text skip closed.left, turn, step, Except.map, Except.map]
      intro _ head
      cases whole : f q with
      | nil =>
        rw [whole] at starts
        cases starts
      | cons c v =>
        rw [whole] at starts head
        cases starts
        cases head

/-! ### Names that are replaced -/

variable {v : Str}

/-- Two texts are cut alike at the first of a character. -/
theorem cut_inj {c : Char} {a b a' b' : Str} (plain : c ∉ a) (plain' : c ∉ a') (same : a ++ c :: b = a' ++ c :: b') :
    a = a' ∧ b = b' := by
  induction a generalizing a' with
  | nil =>
    cases a' with
    | nil => exact ⟨rfl, (List.cons.inj same).2⟩
    | cons d a' =>
      obtain ⟨rfl, -⟩ := List.cons.inj same
      exact absurd List.mem_cons_self plain'
  | cons d a ih =>
    cases a' with
    | nil =>
      obtain ⟨rfl, -⟩ := List.cons.inj same
      exact absurd List.mem_cons_self plain
    | cons e a' =>
      obtain ⟨rfl, tail⟩ := List.cons.inj same
      rw [List.mem_cons, not_or] at plain plain'
      obtain ⟨rfl, rest⟩ := ih plain.2 plain'.2 tail
      exact ⟨rfl, rest⟩

theorem braced_inj {n m t : Str} (plain : '}' ∉ n) (plain' : '}' ∉ m) (begins : braced n <+: braced m ++ t) : n = m := by
  obtain ⟨t', same⟩ := begins
  have cut : n ++ '}' :: t' = m ++ '}' :: t := by
    unfold braced at same
    simpa using same
  exact (cut_inj plain plain' cut).1

theorem replaceAll_skip (c : Char) (s : Str) (other : ¬ opening <+: c :: s) :
    (.ok (replaceAll (braced name) v (c :: s)) : Except ε Str) = (Except.ok (replaceAll (braced name) v s)).map ([c] ++ ·) := by
  have starts : (braced name).isPrefixOf (c :: s) = false := by
    rw [Bool.eq_false_iff]
    intro starts
    exact other (List.IsPrefix.trans ⟨name ++ ['}'], rfl⟩ (List.isPrefixOf_iff_prefix.mp starts))
  rw [replaceAll_cons starts]
  rfl

/-- A name is replaced in every hole that it is in, and nowhere else. -/
theorem replaceAll_fill (name : Str) (plain : '}' ∉ name) (closed : Closed (fillHoles k first rest))
    (each : ∀ e ∈ rest, k e.1 = f e.1 ∧ g e.1 = f e.1 ∨ ∃ n, f e.1 = braced n ∧ Closed n ∧ '}' ∉ n ∧
      (n = name ∧ g e.1 = v ∨ n ≠ name ∧ g e.1 = f e.1)) :
    replaceAll (braced name) v (fillHoles f first rest) = fillHoles g first rest := by
  have some_ : braced name ≠ [] := List.cons_ne_nil _ _
  have scanned := scan_fill (ε := Unit) (G := fun s => .ok (replaceAll (braced name) v s)) (f := f) (g := g) replaceAll_skip
    (congrArg Except.ok (replaceAll_nil some_)) (fun e member => (each e member).imp_right ?_) closed
  · exact Except.ok.inj scanned
  · rintro ⟨n, is, whole, end_, hit⟩
    rw [is]
    refine ⟨rfl, fun s => ?_⟩
    rcases hit with ⟨rfl, same⟩ | ⟨other, same⟩
    · rw [replaceAll_starts some_, same]
      rfl
    · rw [same, is]
      refine scan_braced (G := fun s => .ok (replaceAll (braced name) v s)) replaceAll_skip whole ?_
      have starts : (braced name).isPrefixOf (braced n ++ s) = false := by
        rw [Bool.eq_false_iff]
        intro starts
        exact other (braced_inj plain end_ (List.isPrefixOf_iff_prefix.mp starts)).symm
      have shape : braced n ++ s = '$' :: ('{' :: n ++ '}' :: s) := by simp [braced]
      rw [shape] at starts ⊢
      rw [replaceAll_cons starts]
      rfl

/-- A name that is in no hole is nowhere. -/
theorem occurs_fill (name : Str) (plain : '}' ∉ name) (closed : Closed (fillHoles k first rest))
    (each : ∀ e ∈ rest, k e.1 = f e.1 ∨ ∃ n, f e.1 = braced n ∧ Closed n ∧ '}' ∉ n ∧ n ≠ name) :
    occurs (braced name) (fillHoles f first rest) = false := by
  have same : replaceAll (braced name) [] (fillHoles f first rest) = fillHoles f first rest := by
    apply replaceAll_fill name plain closed
    intro e member
    rcases each e member with there | ⟨n, is, whole, end_, other⟩
    · exact .inl ⟨there, rfl⟩
    · exact .inr ⟨n, is, whole, end_, .inr ⟨other, rfl⟩⟩
  have shorter : ([] : Str).length < (braced name).length := Nat.succ_pos _
  exact (replaceAll_eq_self_iff (List.cons_ne_nil _ _) shorter).mp same

/-- A name does not occur where no braces are opened. -/
theorem Closed.no_name {s : Str} (closed : Closed s) (name : Str) : occurs (braced name) s = false := by
  have normal : Normal (braced name) s := fun there => closed (List.IsInfix.trans ⟨[], name ++ ['}'], rfl⟩ there)
  exact normal_iff.mp normal

/-- What stands before every start of a separator begins the first piece. -/
theorem split_append {sep before : Str} (other : ∀ a b, before = a ++ b → b ≠ [] → sep.isPrefixOf (b ++ s) = false) :
    ∃ head tail, split sep s = head :: tail ∧ split sep (before ++ s) = (before ++ head) :: tail := by
  induction before with
  | nil =>
    cases pieces : split sep s with
    | nil => exact absurd pieces (splitFrom_ne_nil sep 0 s)
    | cons head tail => exact ⟨head, tail, rfl, pieces⟩
  | cons c before ih =>
    obtain ⟨head, tail, is, longer⟩ := ih fun a b same => other (c :: a) b (congrArg (List.cons c) same)
    obtain ⟨piece, rest, pieces, longer'⟩ := splitFrom_cons sep (other [] (c :: before) rfl (List.cons_ne_nil _ _))
    have same := longer.symm.trans pieces
    obtain ⟨rfl, rfl⟩ := List.cons.inj same
    exact ⟨head, tail, is, longer'⟩

end Holes
end Sarracenia.Library.Text
