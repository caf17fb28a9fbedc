import Sarracenia.Library.Collect
import Sarracenia.Library.Rewriting
import Sarracenia.Guarantees.Filter.Conservation
import Sarracenia.Library.Braces

/-!
# The fields of a match

What is put in the place of `${N}`, told without fragments, and what the code does with each fragment: it loses a
`${` that is not closed, sets one before a brace that closes nothing, and takes a line feed for the end of a number.
-/
namespace Sarracenia.Guarantees.Expansion
open Library Library.Text Library.Decimal Library.Dynamic
open Source Source.Config

/-! ## The fields replaced -/

section Replaced

def Numeric (digits : Str) : Prop := digits ≠ [] ∧ ∀ c ∈ digits, '0' ≤ c ∧ c ≤ '9'

instance (digits : Str) : Decidable (Numeric digits) :=
  have := List.decidableBAll (fun c : Char => '0' ≤ c ∧ c ≤ '9') digits
  instDecidableAnd

def numberOf (digits : Str) : Nat := value (digits.filterMap digitValue)

/-- Each field of which there is a group becomes the group; every other character is kept. `group` is `none` for a number
that is too high, and `some none` for a group that took no part in the match. -/
inductive Replaced (group : Nat → Option (Option Str)) : Str → Str → Prop where
  | nil : Replaced group [] []
  | field {digits after text t : Str} : Numeric digits → group (numberOf digits) = some (some text) → Replaced group after t →
      Replaced group ('$' :: '{' :: (digits ++ '}' :: after)) (text ++ t)
  | kept {c : Char} {s t : Str} :
      (∀ digits after, c :: s = '$' :: '{' :: (digits ++ '}' :: after) → Numeric digits → group (numberOf digits) = none) →
      Replaced group s t → Replaced group (c :: s) (c :: t)

variable {group : Nat → Option (Option Str)} {a f u rest digits digits' after after' : Str}

def opening : Str := ['$', '{']

/-- What stands behind a fragment: nothing, or the next one. -/
def Behind (rest : Str) : Prop := rest = [] ∨ ∃ more, rest = opening ++ more

theorem Numeric.no_brace (numeric : Numeric digits) : '}' ∉ digits := fun inside => absurd (numeric.2 _ inside) (by decide)

theorem Numeric.no_dollar (numeric : Numeric digits) : '$' ∉ digits := fun inside => absurd (numeric.2 _ inside) (by decide)

/-- A text without an opening is kept. -/
theorem replaced_plain_iff (plain : occurs opening a = false) (behind : Behind rest) :
    Replaced group (a ++ rest) u ↔ ∃ t, u = a ++ t ∧ Replaced group rest t := by
  induction a generalizing u with
  | nil => simp
  | cons c a ih =>
    rw [occurs, Bool.or_eq_false_iff] at plain
    have none_ (digits after : Str) : c :: (a ++ rest) ≠ '$' :: '{' :: (digits ++ '}' :: after) := by
      intro same
      obtain ⟨rfl, tail⟩ := List.cons.inj same
      cases a with
      | nil =>
        rcases behind with rfl | ⟨more, rfl⟩
        · cases tail
        · exact absurd (List.cons.inj tail).1 (by decide)
      | cons d a =>
        obtain ⟨rfl, -⟩ := List.cons.inj tail
        exact absurd plain.1 (by simp [opening])
    constructor
    · intro replaced
      generalize whole : c :: a ++ rest = s at replaced
      cases replaced with
      | nil => cases whole
      | field => exact absurd whole (none_ _ _)
      | kept _ later =>
        obtain ⟨rfl, rfl⟩ := List.cons.inj whole
        obtain ⟨t, rfl, done⟩ := (ih plain.2).mp later
        exact ⟨t, rfl, done⟩
    · rintro ⟨t, rfl, done⟩
      exact .kept (fun digits after same => absurd same (none_ digits after)) ((ih plain.2).mpr ⟨t, rfl, done⟩)

/-- What becomes of an opening and what stands behind it, up to the next one; `none` where the group took no part. -/
def piece (group : Nat → Option (Option Str)) (f : Str) : Option Str :=
  match find ['}'] f with
  | none => some (opening ++ f)
  | some close_brace =>
    if Numeric (f.take close_brace) then
      match group (numberOf (f.take close_brace)) with
      | none => some (opening ++ f)
      | some text => text.map (· ++ f.drop (close_brace + 1))
    else some (opening ++ f)

theorem opening_kept (plain : occurs opening f = false) (behind : Behind rest)
    (none_ : ∀ digits after, f ++ rest = digits ++ '}' :: after → Numeric digits → group (numberOf digits) = none) :
    Replaced group (opening ++ f ++ rest) u ↔ ∃ t, u = opening ++ f ++ t ∧ Replaced group rest t := by
  have first (digits after : Str) (same : '$' :: '{' :: (f ++ rest) = '$' :: '{' :: (digits ++ '}' :: after)) :
      Numeric digits → group (numberOf digits) = none :=
    none_ digits after (List.cons.inj (List.cons.inj same).2).2
  constructor
  · intro replaced
    generalize whole : opening ++ f ++ rest = s at replaced
    cases replaced with
    | nil => cases whole
    | field numeric there =>
      rw [first _ _ whole numeric] at there
      cases there
    | kept _ later =>
      obtain ⟨rfl, rfl⟩ := List.cons.inj whole
      cases later with
      | kept _ later =>
        obtain ⟨t, rfl, done⟩ := (replaced_plain_iff plain behind).mp later
        exact ⟨t, rfl, done⟩
  · rintro ⟨t, rfl, done⟩
    refine .kept first (.kept (fun digits after same => ?_) ((replaced_plain_iff plain behind).mpr ⟨t, rfl, done⟩))
    exact absurd (List.cons.inj same).1 (by decide)

/-- An opening that is not closed before the next one begins no field. -/
theorem unclosed (open_ : '}' ∉ f) (behind : Behind rest) (same : f ++ rest = digits ++ '}' :: after) : ¬ Numeric digits := by
  intro numeric
  rcases List.append_eq_append_iff.mp same with ⟨d, longer, tail⟩ | ⟨d, longer, tail⟩
  · rcases behind with rfl | ⟨more, rfl⟩
    · simp at tail
    · cases d with
      | nil => exact absurd (List.cons.inj tail).1 (by decide)
      | cons e d =>
        obtain ⟨rfl, -⟩ := List.cons.inj tail
        exact numeric.no_dollar (longer ▸ List.mem_append_right f List.mem_cons_self)
  · cases d with
    | nil =>
      rw [List.nil_append] at tail
      rcases behind with rfl | ⟨more, rfl⟩
      · cases tail
      · exact absurd (List.cons.inj tail).1 (by decide)
    | cons e d =>
      obtain ⟨rfl, -⟩ := List.cons.inj tail
      exact open_ (longer ▸ List.mem_append_right digits List.mem_cons_self)

theorem replaced_piece_iff (plain : occurs opening f = false) (behind : Behind rest) :
    Replaced group (opening ++ f ++ rest) u ↔ ∃ p t, piece group f = some p ∧ u = p ++ t ∧ Replaced group rest t := by
  by_cases closed : '}' ∈ f
  · obtain ⟨field, after, rfl, open_⟩ := List.eq_append_cons_of_mem closed
    have at_ := find_cut (b := after) open_
    have front : (field ++ '}' :: after).take field.length = field := List.take_left
    have back : (field ++ '}' :: after).drop (field.length + 1) = after := by
      rw [← List.drop_drop, List.drop_left]
      rfl
    unfold piece
    rw [at_]
    dsimp only
    rw [front, back]
    have same_field {digits after' : Str} (same : field ++ '}' :: after ++ rest = digits ++ '}' :: after')
        (numeric : Numeric digits) : field = digits := by
      rw [List.append_assoc, List.cons_append] at same
      exact (cut_inj open_ numeric.no_brace same).1
    by_cases numeric : Numeric field
    · rw [if_pos numeric]
      cases there : group (numberOf field) with
      | none =>
        dsimp only
        rw [opening_kept plain behind fun digits after' same numeric' => by rw [← same_field same numeric', there]]
        simp
      | some text =>
        dsimp only
        have inside : occurs opening after = false := by
          rw [Bool.eq_false_iff] at plain ⊢
          refine fun found => plain (Rewriting.occurs_iff.mpr ((Rewriting.occurs_iff.mp found).trans ?_))
          exact ⟨field ++ ['}'], [], by simp⟩
        have open_field {digits after' : Str} (same : opening ++ (field ++ '}' :: after) ++ rest = '$' :: '{' :: (digits ++ '}' :: after'))
            (numeric' : Numeric digits) : field = digits ∧ after ++ rest = after' := by
          have tail : field ++ '}' :: (after ++ rest) = digits ++ '}' :: after' := by simpa [opening] using same
          exact cut_inj open_ numeric'.no_brace tail
        constructor
        · intro replaced
          generalize whole : opening ++ (field ++ '}' :: after) ++ rest = s at replaced
          cases replaced with
          | nil => cases whole
          | field numeric' there' later =>
            obtain ⟨rfl, rfl⟩ := open_field whole numeric'
            obtain rfl := Option.some.inj (there.symm.trans there')
            obtain ⟨t, rfl, done⟩ := (replaced_plain_iff inside behind).mp later
            exact ⟨_, t, rfl, (List.append_assoc _ _ _).symm, done⟩
          | kept none_ later =>
            have missing := none_ field (after ++ rest) (by rw [← whole]; simp [opening]) numeric
            rw [there] at missing
            cases missing
        · rintro ⟨p, t, made, rfl, done⟩
          obtain ⟨g, rfl, rfl⟩ := Option.map_eq_some_iff.mp made
          have later : Replaced group (after ++ rest) (after ++ t) := (replaced_plain_iff inside behind).mpr ⟨t, rfl, done⟩
          have replaced := Replaced.field numeric there later
          simpa [opening] using replaced
    · rw [if_neg numeric, opening_kept plain behind fun digits after' same numeric' =>
        absurd (same_field same numeric' ▸ numeric') numeric]
      simp
  · have open_ := find_none_iff.mpr closed
    unfold piece
    rw [open_, opening_kept plain behind fun digits after same numeric => absurd numeric (unclosed closed behind same)]
    simp

/-- The fields of the fragments are replaced one by one. -/
theorem replaced_fragments_iff {fs : List Str} (plain : ∀ f ∈ a :: fs, occurs opening f = false) :
    Replaced group (a ++ (fs.map fun f => opening ++ f).flatten) u ↔
      (∀ f ∈ fs, (piece group f).isSome) ∧ u = a ++ (fs.map fun f => (piece group f).getD []).flatten := by
  have behind (fs : List Str) : Behind (fs.map fun f => opening ++ f).flatten := by
    cases fs with
    | nil => exact Or.inl rfl
    | cons f fs => exact Or.inr ⟨f ++ (fs.map fun f => opening ++ f).flatten, by simp⟩
  have all (fs : List Str) (plain : ∀ f ∈ fs, occurs opening f = false) (t : Str) :
      Replaced group (fs.map fun f => opening ++ f).flatten t ↔
        (∀ f ∈ fs, (piece group f).isSome) ∧ t = (fs.map fun f => (piece group f).getD []).flatten := by
    induction fs generalizing t with
    | nil =>
      constructor
      · intro replaced
        generalize whole : (List.map (fun f => opening ++ f) []).flatten = s at replaced
        cases replaced with
        | nil => exact ⟨nofun, rfl⟩
        | field => cases whole
        | kept => cases whole
      · rintro ⟨-, rfl⟩
        exact .nil
    | cons f fs ih =>
      rw [List.forall_mem_cons] at plain ⊢
      rw [List.map_cons, List.flatten_cons, replaced_piece_iff plain.1 (behind fs)]
      simp only [ih plain.2]
      constructor
      · rintro ⟨p, t, made, rfl, some_, rfl⟩
        exact ⟨⟨by rw [made]; rfl, some_⟩, by rw [List.map_cons, made]; rfl⟩
      · rintro ⟨⟨here, some_⟩, rfl⟩
        obtain ⟨p, made⟩ := Option.isSome_iff_exists.mp here
        exact ⟨p, _, made, by rw [List.map_cons, made]; rfl, some_, rfl⟩
  rw [List.forall_mem_cons] at plain
  rw [replaced_plain_iff plain.1 (behind fs)]
  simp only [all fs plain.2]
  constructor
  · rintro ⟨t, rfl, some_, rfl⟩
    exact ⟨some_, rfl⟩
  · rintro ⟨some_, rfl⟩
    exact ⟨_, rfl, some_, rfl⟩

end Replaced

/-! ## What the code does -/

section Code
variable (o : Options) (took : List Bool) (groups : List (Option Str))

/-- The group that a number asks for. -/
def fieldOf (number : Nat) : Nat := if o.sundew_compat_regex_first_match_is_zero then number + 1 else number

/-- The group of a number: none where it is too high, and none inside where it took no part. -/
def groupOf (number : Nat) : Option (Option Str) :=
  if fieldOf o number ≤ groups.length - 1 then some (groups[fieldOf o number]?).join else none

/-- The code gives the text with its fields replaced. -/
def Right (s : Str) : Prop := ∀ message : Message, message.get "_matches" = some (.matched groups) →
  ∃ t, Replaced (groupOf o groups) s t ∧ expandFields o message s = .ok t

/-- The fragment has a closing brace, and where a number that is not too high stands before it, nothing follows the
number and its group took part in the match. -/
def Sound (f : Str) : Prop := ∃ field after, f = field ++ '}' :: after ∧ '}' ∉ field ∧
  ∀ n, fieldNumber field = some n → fieldOf o n ≤ took.length - 1 → field.getLast? ≠ some '\n' ∧ took[fieldOf o n]? = some true

/-- No brace is closed before the first opening, and each opening is sound. -/
def FieldsSound : List Str → Prop
  | [] => True
  | [_] => True
  | first :: fs => '}' ∉ first ∧ ∀ f ∈ fs, Sound o took f

variable {o took groups} {f field after c p : Str} {n : Nat}

theorem digit_iff (c : Char) : (decide ('0' ≤ c) && decide (c ≤ '9')) = true ↔ '0' ≤ c ∧ c ≤ '9' := by
  rw [Bool.and_eq_true, decide_eq_true_eq, decide_eq_true_eq]

theorem numeric_iff (digits : Str) : (!digits.isEmpty && digits.all fun c => decide ('0' ≤ c) && decide (c ≤ '9')) = true ↔ Numeric digits := by
  unfold Numeric
  rw [Bool.and_eq_true, Bool.not_eq_true', List.isEmpty_eq_false_iff, List.all_eq_true]
  simp only [digit_iff]

theorem fieldNumber_iff (last : field.getLast? ≠ some '\n') : fieldNumber field = some n ↔ Numeric field ∧ n = numberOf field := by
  unfold fieldNumber
  rw [if_neg last]
  by_cases numeric : Numeric field
  · rw [if_pos ((numeric_iff field).mpr numeric), Option.some.injEq]
    exact ⟨fun same => ⟨numeric, same.symm⟩, fun both => both.2.symm⟩
  · rw [if_neg fun digits => numeric ((numeric_iff field).mp digits)]
    exact ⟨nofun, fun both => absurd both.1 numeric⟩

theorem Numeric.last (numeric : Numeric field) : field.getLast? ≠ some '\n' := by
  intro last
  have member := List.mem_of_getLast? last
  exact absurd (numeric.2 _ member) (by decide)

theorem fieldNumber_numeric (numeric : Numeric field) : fieldNumber field = some (numberOf field) :=
  (fieldNumber_iff numeric.last).mpr ⟨numeric, rfl⟩

/-- The fragment at its brace. -/
theorem expandField_closed (open_ : '}' ∉ field) : expandField o (.matched groups) (field ++ '}' :: after) =
    match fieldNumber field with
    | none => .ok (opening ++ (field ++ '}' :: after))
    | some number =>
      if fieldOf o number ≤ groups.length - 1 then
        match groups[fieldOf o number]? with
        | some (some group) => .ok (group ++ after)
        | _ => .error .typeError
      else .ok (opening ++ (field ++ '}' :: after)) := by
  have front : (field ++ '}' :: after).take field.length = field := List.take_left
  have back : (field ++ '}' :: after).drop (field.length + 1) = after := by
    rw [← List.drop_drop, List.drop_left]
    rfl
  unfold expandField
  rw [find_cut open_]
  dsimp only
  rw [front, back]
  rfl

theorem piece_closed {group : Nat → Option (Option Str)} (open_ : '}' ∉ field) : piece group (field ++ '}' :: after) =
    if Numeric field then
      match group (numberOf field) with
      | none => some (opening ++ (field ++ '}' :: after))
      | some text => text.map (· ++ after)
    else some (opening ++ (field ++ '}' :: after)) := by
  have front : (field ++ '}' :: after).take field.length = field := List.take_left
  have back : (field ++ '}' :: after).drop (field.length + 1) = after := by
    rw [← List.drop_drop, List.drop_left]
    rfl
  unfold piece
  rw [find_cut open_]
  dsimp only
  rw [front, back]

theorem took_length : (groups.map Option.isSome).length = groups.length := List.length_map _

theorem took_iff (i : Nat) : (groups.map Option.isSome)[i]? = some true ↔ ∃ g, groups[i]? = some (some g) := by
  rw [List.getElem?_map]
  cases groups[i]? with
  | none => simp
  | some g => cases g <;> simp

/-- A sound fragment becomes what it should. -/
theorem sound_piece (sound : Sound o (groups.map Option.isSome) f) :
    ∃ p, expandField o (.matched groups) f = .ok p ∧ piece (groupOf o groups) f = some p := by
  obtain ⟨field, after, rfl, open_, number⟩ := sound
  rw [expandField_closed open_, piece_closed open_]
  rw [took_length] at number
  cases read : fieldNumber field with
  | none =>
    have other : ¬ Numeric field := fun numeric => by
      rw [fieldNumber_numeric numeric] at read
      cases read
    rw [if_neg other]
    exact ⟨_, rfl, rfl⟩
  | some n =>
    dsimp only
    by_cases inside : fieldOf o n ≤ groups.length - 1
    · obtain ⟨last, taken⟩ := number n read inside
      obtain ⟨numeric, rfl⟩ := (fieldNumber_iff last).mp read
      obtain ⟨g, there⟩ := (took_iff _).mp taken
      rw [if_pos numeric, if_pos inside, there]
      unfold groupOf
      rw [if_pos inside, there]
      exact ⟨_, rfl, rfl⟩
    · rw [if_neg inside]
      by_cases numeric : Numeric field
      · obtain rfl := Option.some.inj ((fieldNumber_numeric numeric).symm.trans read)
        rw [if_pos numeric]
        unfold groupOf
        rw [if_neg inside]
        exact ⟨_, rfl, rfl⟩
      · rw [if_neg numeric]
        exact ⟨_, rfl, rfl⟩

/-- Where all groups are empty, a fragment comes to no more than it should, and to less where it is not sound. -/
theorem piece_shorter (empty : ∀ g, some g ∈ groups → g = []) (made : expandField o (.matched groups) f = .ok c)
    (due : piece (groupOf o groups) f = some p) :
    c.length ≤ p.length ∧ (c.length = p.length → Sound o (groups.map Option.isSome) f) := by
  by_cases closed : '}' ∈ f
  · obtain ⟨field, after, rfl, open_⟩ := List.eq_append_cons_of_mem closed
    rw [expandField_closed open_] at made
    rw [piece_closed open_] at due
    cases read : fieldNumber field with
    | none =>
      have other : ¬ Numeric field := fun numeric => by
        rw [fieldNumber_numeric numeric] at read
        cases read
      rw [if_neg other] at due
      rw [read] at made
      obtain rfl := Except.ok.inj made
      obtain rfl := Option.some.inj due
      exact ⟨le_rfl, fun _ => ⟨field, after, rfl, open_, fun n same => by rw [read] at same; cases same⟩⟩
    | some n =>
      rw [read] at made
      dsimp only at made
      by_cases inside : fieldOf o n ≤ groups.length - 1
      · rw [if_pos inside] at made
        have taken : ∃ g, groups[fieldOf o n]? = some (some g) ∧ c = g ++ after := by
          split at made
          · next g there => exact ⟨g, there, (Except.ok.inj made).symm⟩
          · cases made
        obtain ⟨g, there, rfl⟩ := taken
        obtain rfl := empty g (List.mem_of_getElem? there)
        by_cases last : field.getLast? = some '\n'
        · have other : ¬ Numeric field := fun numeric => numeric.last last
          rw [if_neg other] at due
          obtain rfl := Option.some.inj due
          simp only [opening, List.length_append, List.length_cons, List.length_nil]
          exact ⟨by omega, fun same => by omega⟩
        · obtain ⟨numeric, rfl⟩ := (fieldNumber_iff last).mp read
          rw [if_pos numeric] at due
          unfold groupOf at due
          rw [if_pos inside, there] at due
          obtain rfl := Option.some.inj due
          refine ⟨le_rfl, fun _ => ⟨field, after, rfl, open_, fun n same _ => ?_⟩⟩
          obtain rfl := Option.some.inj (same.symm.trans read)
          exact ⟨last, (took_iff _).mpr ⟨_, there⟩⟩
      · rw [if_neg inside] at made
        obtain rfl := Except.ok.inj made
        have whole : p = opening ++ (field ++ '}' :: after) := by
          by_cases numeric : Numeric field
          · obtain rfl := Option.some.inj ((fieldNumber_numeric numeric).symm.trans read)
            rw [if_pos numeric] at due
            unfold groupOf at due
            rw [if_neg inside] at due
            exact (Option.some.inj due).symm
          · rw [if_neg numeric] at due
            exact (Option.some.inj due).symm
        rw [whole]
        refine ⟨le_rfl, fun _ => ⟨field, after, rfl, open_, fun n' same within => ?_⟩⟩
        obtain rfl := Option.some.inj (same.symm.trans read)
        rw [took_length] at within
        exact absurd within inside
  · have none_ := find_none_iff.mpr closed
    unfold expandField at made
    unfold piece at due
    rw [none_] at made due
    obtain rfl := Except.ok.inj made
    obtain rfl := Option.some.inj due
    rw [List.length_append]
    simp only [opening, List.length_cons, List.length_nil]
    exact ⟨by omega, fun same => by omega⟩

theorem expandField_open (open_ : '}' ∉ f) : expandField o (.matched groups) f = .ok f := by
  unfold expandField
  rw [find_none_iff.mpr open_]

/-- A brace that closes nothing: an opening is set before the text, or a number in it is taken for a field. -/
theorem first_closed (empty : ∀ g, some g ∈ groups → g = []) (closed : '}' ∈ f) (made : expandField o (.matched groups) f = .ok c) :
    c = opening ++ f ∨ c.length < f.length := by
  obtain ⟨field, after, rfl, open_⟩ := List.eq_append_cons_of_mem closed
  rw [expandField_closed open_] at made
  cases read : fieldNumber field with
  | none =>
    rw [read] at made
    exact Or.inl (Except.ok.inj made).symm
  | some n =>
    rw [read] at made
    dsimp only at made
    split at made
    · split at made
      · next g there =>
        obtain rfl := Except.ok.inj made
        obtain rfl := empty g (List.mem_of_getElem? there)
        right
        rw [List.nil_append, List.length_append, List.length_cons]
        omega
      · cases made
    · exact Or.inl (Except.ok.inj made).symm

/-- The fragments together come to no more than they should, and to less where one is not sound. -/
theorem pieces_shorter (empty : ∀ g, some g ∈ groups → g = []) {fs : List Str}
    (made : ∀ f ∈ fs, ∃ c, expandField o (.matched groups) f = .ok c) (due : ∀ f ∈ fs, (piece (groupOf o groups) f).isSome) :
    ((fs.map fun f => valueOr [] (expandField o (.matched groups) f)).flatten).length ≤
        ((fs.map fun f => (piece (groupOf o groups) f).getD []).flatten).length ∧
      (((fs.map fun f => valueOr [] (expandField o (.matched groups) f)).flatten).length =
        ((fs.map fun f => (piece (groupOf o groups) f).getD []).flatten).length →
          ∀ f ∈ fs, Sound o (groups.map Option.isSome) f) := by
  induction fs with
  | nil => exact ⟨le_rfl, fun _ => nofun⟩
  | cons f fs ih =>
    rw [List.forall_mem_cons] at made due ⊢
    obtain ⟨c, here⟩ := made.1
    obtain ⟨p, should⟩ := Option.isSome_iff_exists.mp due.1
    obtain ⟨least, same⟩ := piece_shorter empty here should
    obtain ⟨later, rest⟩ := ih made.2 due.2
    have given : valueOr [] (expandField o (.matched groups) f) = c := by
      rw [here]
      rfl
    simp only [List.map_cons, List.flatten_cons, List.length_append, given, should, Option.getD_some]
    refine ⟨by omega, fun equal => ⟨same (by omega), rest (by omega)⟩⟩

theorem expandFields_many {message : Message} {s first second t : Str} {fs : List Str}
    (there : message.get "_matches" = some (.matched groups)) (cut : split opening s = first :: second :: fs) :
    expandFields o message s = .ok t ↔ (∀ f ∈ first :: second :: fs, ∃ c, expandField o (.matched groups) f = .ok c) ∧
      t = ((first :: second :: fs).map fun f => valueOr [] (expandField o (.matched groups) f)).flatten := by
  have cut' : split ['$', '{'] s = first :: second :: fs := cut
  unfold expandFields
  rw [there, cut']
  dsimp only
  rw [bind_ok_iff]
  simp only [mapM_ok_iff ([] : Str)]
  constructor
  · rintro ⟨r, ⟨fine, rfl⟩, done⟩
    exact ⟨fine, (Except.ok.inj done).symm⟩
  · rintro ⟨fine, rfl⟩
    exact ⟨_, ⟨fine, rfl⟩, rfl⟩

/-- A text that begins with an opening more than it should is not the right one. -/
theorem opening_apart {x y : Str} (plain : occurs opening f = false) (closed : '}' ∈ f) : opening ++ f ++ x ≠ f ++ y := by
  intro same
  cases f with
  | nil => cases closed
  | cons c f =>
    obtain ⟨rfl, tail⟩ := List.cons.inj same
    cases f with
    | nil => exact absurd (List.mem_singleton.mp closed) (by decide)
    | cons d f =>
      obtain ⟨rfl, -⟩ := List.cons.inj tail
      rw [occurs, Bool.or_eq_false_iff] at plain
      exact absurd plain.1 (by simp [opening])

theorem right_of_sound {s : Str} (sound : FieldsSound o (groups.map Option.isSome) (split opening s)) : Right o groups s := by
  intro message there
  have some_ : opening ≠ [] := by decide
  have plain := split_pieces some_ s
  have whole := join_split some_ s
  cases cut : split opening s with
  | nil => exact absurd cut (splitFrom_ne_nil opening 0 s)
  | cons first rest =>
    rw [cut] at sound plain whole
    cases rest with
    | nil =>
      rw [join_singleton] at whole
      rw [List.forall_mem_singleton, whole] at plain
      have replaced : Replaced (groupOf o groups) (s ++ []) s :=
        (replaced_plain_iff plain (Or.inl rfl)).mpr ⟨[], (List.append_nil s).symm, .nil⟩
      rw [List.append_nil] at replaced
      have cut' : split ['$', '{'] s = [first] := cut
      refine ⟨s, replaced, ?_⟩
      unfold expandFields
      rw [there, cut']
    | cons second fs =>
      obtain ⟨open_, all⟩ := sound
      rw [join_cons] at whole
      have pieces (f : Str) (member : f ∈ second :: fs) : ∃ p, expandField o (.matched groups) f = .ok p ∧
          piece (groupOf o groups) f = some p := sound_piece (all f member)
      refine ⟨_, ?_, (expandFields_many there cut).mpr ⟨?_, rfl⟩⟩
      · rw [← whole]
        refine (replaced_fragments_iff plain).mpr ⟨fun f member => ?_, ?_⟩
        · obtain ⟨p, -, due⟩ := pieces f member
          rw [due]
          rfl
        · rw [List.map_cons, List.flatten_cons, expandField_open open_]
          change first ++ _ = _
          congr 2
          refine List.map_congr_left fun f member => ?_
          obtain ⟨p, made, due⟩ := pieces f member
          rw [made, due]
          rfl
      · rw [List.forall_mem_cons]
        refine ⟨⟨first, expandField_open open_⟩, fun f member => ?_⟩
        obtain ⟨p, made, -⟩ := pieces f member
        exact ⟨p, made⟩

/-- With empty groups nothing hides a fragment that is not sound. -/
theorem sound_of_right {s : Str} (empty : ∀ g, some g ∈ groups → g = []) (right : Right o groups s) :
    FieldsSound o (groups.map Option.isSome) (split opening s) := by
  have some_ : opening ≠ [] := by decide
  have plain := split_pieces some_ s
  have whole := join_split some_ s
  obtain ⟨t, replaced, done⟩ := right [("_matches", .matched groups)] rfl
  cases cut : split opening s with
  | nil => trivial
  | cons first rest =>
    rw [cut] at plain whole
    cases rest with
    | nil => trivial
    | cons second fs =>
      rw [join_cons] at whole
      rw [← whole, replaced_fragments_iff plain] at replaced
      obtain ⟨due, rfl⟩ := replaced
      obtain ⟨made, same⟩ := (expandFields_many rfl cut).mp done
      rw [List.forall_mem_cons] at made plain
      obtain ⟨⟨c, here⟩, made⟩ := made
      obtain ⟨least, sound⟩ := pieces_shorter empty made due
      have given : valueOr [] (expandField o (.matched groups) first) = c := by
        rw [here]
        rfl
      rw [List.map_cons (l := second :: fs), List.flatten_cons, given] at same
      have open_ : '}' ∉ first := by
        intro closed
        rcases first_closed empty closed here with rfl | shorter
        · exact opening_apart plain.1 closed same.symm
        · have counted := congrArg List.length same
          rw [List.length_append, List.length_append] at counted
          omega
      obtain rfl := Except.ok.inj ((expandField_open open_).symm.trans here)
      exact ⟨open_, sound (congrArg List.length (List.append_cancel_left same.symm))⟩

end Code

/-- For every text and every match, whatever its groups are, the fields are replaced as they should be exactly where no
brace is closed before the first opening, every opening is closed before the next, no line feed follows a number that is
not too high, and the group that it asks for took part in the match. -/
theorem fields_right_iff (o : Options) (took : List Bool) (s : Str) :
    (∀ groups : List (Option Str), groups.map Option.isSome = took → Right o groups s) ↔ FieldsSound o took (split opening s) := by
  constructor
  · intro right
    have shape : (took.map fun b => if b then some ([] : Str) else none).map Option.isSome = took := by
      rw [List.map_map]
      conv_rhs => rw [← List.map_id took]
      refine List.map_congr_left fun b _ => ?_
      cases b <;> rfl
    have sound := sound_of_right (fun g member => ?_) (right _ shape)
    · rwa [shape] at sound
    · obtain ⟨b, -, same⟩ := List.mem_map.mp member
      split at same
      · exact (Option.some.inj same).symm
      · cases same
  · rintro sound groups rfl
    exact right_of_sound sound

/-- An opening that is not closed is lost. -/
theorem unclosed_opening_lost : ¬ ∀ (o : Options) (groups : List (Option Str)) (s : Str), Right o groups s := by
  intro all
  have sound := sound_of_right (fun g member => ?_) (all Filter.noOptions [some []] "a$\x7bb".toList)
  · obtain ⟨field, after, same, -⟩ := sound.2 "b".toList List.mem_cons_self
    have member : '}' ∈ "b".toList := same ▸ List.mem_append_right field List.mem_cons_self
    exact absurd member (by decide)
  · exact Option.some.inj (List.mem_singleton.mp member)

end Sarracenia.Guarantees.Expansion
