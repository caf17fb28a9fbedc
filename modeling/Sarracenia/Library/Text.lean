import Mathlib.Data.List.Basic
import Mathlib.Order.Basic
import Mathlib.Data.Char

/-!
# Text as lists of characters

The operations of a dynamic language's strings that the embedded code uses, on
lists of characters so that every one of them is a structural recursion that a
proof can follow and the kernel can run. Nothing here is about a program.
-/
namespace Sarracenia.Library.Text

abbrev Str := List Char

instance instLawfulBEqStr : LawfulBEq Str := inferInstance

/-- The white space that `strip` and the numeric readers discard. -/
def isSpace (c : Char) : Bool :=
  [0x9, 0xa, 0xb, 0xc, 0xd, 0x1c, 0x1d, 0x1e, 0x1f, 0x20, 0x85, 0xa0, 0x1680, 0x2028, 0x2029,
    0x202f, 0x205f, 0x3000].contains c.toNat || (0x2000 ≤ c.toNat && c.toNat ≤ 0x200a)

/-- Drop the longest run at the right end whose characters all satisfy `p`. -/
def rstripBy {α : Type} (p : α → Bool) : List α → List α
  | [] => []
  | c :: s => if (rstripBy p s).isEmpty && p c then [] else c :: rstripBy p s

def strip (s : Str) : Str := rstripBy isSpace (s.dropWhile isSpace)

/-- `s[a:b]` for indices counted from the left. -/
def slice (s : Str) (a b : Nat) : Str := (s.drop a).take (b - a)

/-- Whether `part` stands somewhere in the text. -/
def occurs (part : Str) : Str → Bool
  | [] => part.isEmpty
  | c :: s => part.isPrefixOf (c :: s) || occurs part s

/-- The index of the first occurrence. -/
def find (part : Str) : Str → Option Nat
  | [] => if part.isEmpty then some 0 else none
  | c :: s => if part.isPrefixOf (c :: s) then some 0 else (find part s).map (· + 1)

def replaceFirst (old new : Str) : Str → Str
  | [] => if old.isEmpty then new else []
  | c :: s =>
    if old.isPrefixOf (c :: s) then new ++ (c :: s).drop old.length
    else c :: replaceFirst old new s

/-- The pieces between the separators, of which none is empty; `skip` characters of a
separator are still to be passed over. -/
def splitFrom (sep : Str) (skip : Nat) : Str → List Str
  | [] => [[]]
  | c :: s =>
    if 0 < skip then splitFrom sep (skip - 1) s
    else if sep.isPrefixOf (c :: s) then [] :: splitFrom sep (sep.length - 1) s
    else match splitFrom sep 0 s with
      | [] => [[c]]
      | piece :: rest => (c :: piece) :: rest

def split (sep : Str) (s : Str) : List Str := splitFrom sep 0 s

def join (sep : Str) (pieces : List Str) : Str := sep.intercalate pieces

def replaceAll (old new : Str) (s : Str) : Str := join new (split old s)

/-- The part after the last separator. -/
def lastPiece (sep : Str) (s : Str) : Str := (split sep s).getLast?.getD []

/-- The lines of a text, each with its end written as a line feed; a carriage
return, alone or before a line feed, ends a line too. The last line may have no end. -/
def lines : Str → List Str
  | [] => []
  | '\r' :: '\n' :: s => ['\n'] :: lines s
  | '\r' :: s => ['\n'] :: lines s
  | '\n' :: s => ['\n'] :: lines s
  | c :: s =>
    match lines s with
    | [] => [[c]]
    | line :: rest => (c :: line) :: rest

/-- The words of a text; `word` is the one being read. -/
def wordsFrom (word : Str) : Str → List Str
  | [] => if word.isEmpty then [] else [word]
  | c :: s =>
    if !isSpace c then wordsFrom (word ++ [c]) s
    else if word.isEmpty then wordsFrom [] s
    else word :: wordsFrom [] s

/-- What stands between runs of white space. -/
def words (s : Str) : List Str := wordsFrom [] s

theorem occurs_append (part before after : Str) : occurs part (before ++ part ++ after) = true := by
  induction before with
  | nil =>
    have start : part.isPrefixOf (part ++ after) = true :=
      List.isPrefixOf_iff_prefix.mpr (List.prefix_append ..)
    rw [List.nil_append]
    cases whole : part ++ after with
    | nil =>
      rw [(List.append_eq_nil_iff.mp whole).1]
      rfl
    | cons c s => rw [occurs, ← whole, start, Bool.true_or]
  | cons c before ih =>
    rw [List.cons_append, List.cons_append, occurs, ih, Bool.or_true]

theorem rstripBy_of_none {α : Type} (p : α → Bool) (s : List α) (keep : ∀ c ∈ s, p c = false) :
    rstripBy p s = s := by
  induction s with
  | nil => rfl
  | cons d s ih => simp [rstripBy, keep d (by simp), ih (fun c h => keep c (by simp [h]))]

theorem rstripBy_concat {α : Type} (p : α → Bool) (s : List α) (x : α)
    (keep : ∀ c ∈ s, p c = false) (drop : p x = true) : rstripBy p (s ++ [x]) = s := by
  induction s with
  | nil => simp [rstripBy, drop]
  | cons d s ih =>
    have tail := ih fun c h => keep c (List.mem_cons_of_mem d h)
    simp [rstripBy, tail, keep d List.mem_cons_self]

theorem rstripBy_subset {α : Type} (p : α → Bool) (s : List α) : ∀ c ∈ rstripBy p s, c ∈ s := by
  induction s with
  | nil => simp [rstripBy]
  | cons d s ih =>
    intro c member
    rw [rstripBy] at member
    split at member
    · simp at member
    · rcases List.mem_cons.mp member with rfl | tail
      · exact List.mem_cons_self
      · exact List.mem_cons_of_mem _ (ih c tail)

theorem rstripBy_map {α β : Type} (p : α → Bool) (q : β → Bool) (f : α → β) (s : List α)
    (agree : ∀ c ∈ s, q (f c) = p c) : rstripBy q (s.map f) = (rstripBy p s).map f := by
  induction s with
  | nil => rfl
  | cons d s ih =>
    have tail := ih (fun c h => agree c (by simp [h]))
    simp only [List.map_cons, rstripBy, tail, List.isEmpty_map, agree d (by simp)]
    split <;> simp

theorem strip_of_no_space (s : Str) (keep : ∀ c ∈ s, isSpace c = false) : strip s = s := by
  have left : s.dropWhile isSpace = s := by
    cases s with
    | nil => rfl
    | cons c s => rw [List.dropWhile_cons, keep c (by simp)]; rfl
  rw [strip, left, rstripBy_of_none _ _ keep]

/-! ## Words -/

theorem wordsFrom_append (word body s : Str) (keep : ∀ c ∈ body, isSpace c = false) :
    wordsFrom word (body ++ s) = wordsFrom (word ++ body) s := by
  induction body generalizing word with
  | nil => rw [List.append_nil, List.nil_append]
  | cons c body ih =>
    rw [List.cons_append, wordsFrom, keep c List.mem_cons_self, Bool.not_false, if_pos rfl,
      ih _ fun d member => keep d (List.mem_cons_of_mem c member), List.append_assoc]
    rfl

/-- A word that white space ends is the first of the words. -/
theorem words_ended (word s : Str) (c : Char) (keep : ∀ d ∈ word, isSpace d = false)
    (some : word ≠ []) (space : isSpace c = true) : words (word ++ c :: s) = word :: words s := by
  have full : word.isEmpty = false := by simpa using some
  rw [words, wordsFrom_append _ _ _ keep, List.nil_append, wordsFrom, space, full]
  rfl

theorem wordsFrom_plain (word s : Str) (keep : ∀ c ∈ word, isSpace c = false) :
    ∀ piece ∈ wordsFrom word s, piece ≠ [] ∧ ∀ c ∈ piece, isSpace c = false := by
  induction s generalizing word with
  | nil =>
    intro piece member
    rw [wordsFrom] at member
    split at member
    · cases member
    · next full =>
      rw [List.mem_singleton.mp member]
      exact ⟨fun none => full (by rw [none]; rfl), keep⟩
  | cons c s ih =>
    intro piece member
    rw [wordsFrom] at member
    split at member
    · next solid =>
      refine ih (word ++ [c]) ?_ piece member
      intro d inside
      rcases List.mem_append.mp inside with before | last
      · exact keep d before
      · rw [List.mem_singleton.mp last]
        simpa using solid
    · split at member
      · exact ih [] (fun d inside => absurd inside List.not_mem_nil) piece member
      · next full =>
        rcases List.mem_cons.mp member with here | later
        · rw [here]
          exact ⟨fun none => full (by rw [none]; rfl), keep⟩
        · exact ih [] (fun d inside => absurd inside List.not_mem_nil) piece later

/-- No word is empty, and none has white space in it. -/
theorem words_plain (s : Str) : ∀ piece ∈ words s, piece ≠ [] ∧ ∀ c ∈ piece, isSpace c = false :=
  wordsFrom_plain [] s fun _ inside => absurd inside List.not_mem_nil

/-! ## Lines -/

/-- A character that ends no line extends the line that follows. -/
theorem lines_cons (c : Char) (s : Str) (feed : c ≠ '\n') (ret : c ≠ '\r') :
    lines (c :: s) = match lines s with
      | [] => [[c]]
      | line :: rest => (c :: line) :: rest := by
  rw [lines]
  · intro t same
    exact absurd same ret
  · exact ret
  · exact feed

theorem lines_of_no_end (body : Str) (nonempty : body ≠ []) (feed : '\n' ∉ body)
    (ret : '\r' ∉ body) : lines body = [body] := by
  induction body with
  | nil => exact absurd rfl nonempty
  | cons c body ih =>
    rw [List.mem_cons, not_or] at feed ret
    rw [lines_cons c body (Ne.symm feed.1) (Ne.symm ret.1)]
    cases body with
    | nil => rfl
    | cons d body => rw [ih (List.cons_ne_nil _ _) feed.2 ret.2]

/-- A line that is ended reads back as itself, whatever follows. -/
theorem lines_ended (body rest : Str) (feed : '\n' ∉ body) (ret : '\r' ∉ body) :
    lines (body ++ '\n' :: rest) = (body ++ ['\n']) :: lines rest := by
  induction body with
  | nil => rfl
  | cons c body ih =>
    rw [List.mem_cons, not_or] at feed ret
    rw [List.cons_append, lines_cons c _ (Ne.symm feed.1) (Ne.symm ret.1), ih feed.2 ret.2]
    rfl

/-- The text is empty or its last line is ended. -/
def Ended (s : Str) : Prop := s = [] ∨ s.getLast? = some '\n'

instance (s : Str) : Decidable (Ended s) := by unfold Ended; infer_instance

/-- What is appended after an ended line starts a line of its own. -/
theorem lines_append (s t : Str) (ended : Ended s) : lines (s ++ t) = lines s ++ lines t := by
  have tail (c : Char) (s : Str) (h : Ended (c :: s)) (more : s ≠ []) : Ended s := by
    unfold Ended at h ⊢
    cases s with
    | nil => exact absurd rfl more
    | cons d s =>
      rw [List.getLast?_cons_cons] at h
      exact Or.inr (h.resolve_left (List.cons_ne_nil _ _))
  have some (s : Str) (h : s ≠ []) : lines s ≠ [] := by
    fun_cases lines s <;> simp_all
  fun_induction lines s with
  | case1 => rfl
  | case2 s ih =>
    rw [List.cons_append, List.cons_append, lines, List.cons_append]
    congr 1
    by_cases last : s = []
    · rw [last]
      rfl
    · exact ih (tail _ _ (tail _ _ ended (List.cons_ne_nil _ _)) last)
  | case3 s other ih =>
    have more : s ≠ [] := by
      intro last
      subst last
      simp [Ended] at ended
    rw [List.cons_append, lines, List.cons_append, ih (tail _ _ ended more)]
    intro u same
    cases s with
    | nil => exact more rfl
    | cons d s => exact other s (by rw [(List.cons.inj same).1])
  | case4 s ih =>
    rw [List.cons_append, lines, List.cons_append]
    congr 1
    by_cases last : s = []
    · rw [last]
      rfl
    · exact ih (tail _ _ ended last)
  | case5 c s _ ret feed empty ih =>
    have more : s ≠ [] := by
      intro last
      subst last
      simp [Ended] at ended
      exact feed ended
    exact absurd empty (some s more)
  | case6 c s _ ret feed line rest full ih =>
    have more : s ≠ [] := by
      intro last
      subst last
      cases full
    rw [List.cons_append, lines_cons c _ feed ret, ih (tail _ _ ended more), full]
    rfl

/-- Two texts that differ inside a shared width stay ordered whatever follows. -/
theorem lt_append_of_lt {a b : Str} (width : a.length = b.length) (less : a < b) (x y : Str) :
    a ++ x < b ++ y := by
  induction a generalizing b with
  | nil =>
    cases b with
    | nil => exact absurd less (List.lt_irrefl [])
    | cons d b => simp at width
  | cons c a ih =>
    cases b with
    | nil => simp at width
    | cons d b =>
      rw [List.cons_lt_cons_iff] at less
      rw [List.cons_append, List.cons_append, List.cons_lt_cons_iff]
      rcases less with head | ⟨same, tail⟩
      · exact Or.inl head
      · exact Or.inr ⟨same, ih (by simpa using width) tail⟩

/-- Discarding a trailing run keeps the order of two texts of one width, as long
as the discarded character is the least one that occurs. -/
theorem rstripBy_lt_of_lt {zero : Char} {a b : Str} (width : a.length = b.length)
    (least : ∀ c ∈ a, zero ≤ c) (less : a < b) :
    rstripBy (· == zero) a < rstripBy (· == zero) b := by
  induction a generalizing b with
  | nil =>
    cases b with
    | nil => exact absurd less (List.lt_irrefl [])
    | cons d b => simp at width
  | cons c a ih =>
    cases b with
    | nil => simp at width
    | cons d b =>
      rw [List.cons_lt_cons_iff] at less
      rcases less with head | ⟨same, tail⟩
      · have kept : (d == zero) = false := by
          have := lt_of_le_of_lt (least c (by simp)) head
          simpa using this.ne'
        simp only [rstripBy, kept, Bool.and_false, Bool.false_eq_true, if_false]
        split
        · exact List.nil_lt_cons _ _
        · exact List.cons_lt_cons_iff.mpr (Or.inl head)
      · subst same
        have below := ih (by simpa using width) (fun x h => least x (by simp [h])) tail
        have nonempty : (rstripBy (· == zero) b).isEmpty = false := by
          cases hb : rstripBy (· == zero) b with
          | nil => rw [hb] at below; exact absurd below (List.not_lt_nil _)
          | cons x t => rfl
        simp only [rstripBy, nonempty, Bool.false_and, Bool.false_eq_true, if_false]
        split
        · exact List.nil_lt_cons _ _
        · exact List.cons_lt_cons_iff.mpr (Or.inr ⟨rfl, below⟩)

end Sarracenia.Library.Text
