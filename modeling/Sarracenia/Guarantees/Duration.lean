import Mathlib.Data.List.TakeWhile
import Sarracenia.Source.Duration
import Sarracenia.Library.Split

/-!
# What a duration is

A number of seconds, a number and a unit, or two of these; `on`, where there is a default. Such a text is read as it
says. Of the others, those that are read as anything but 0 and those that raise are told by their letters.
-/
namespace Sarracenia.Guarantees.Duration
open Library Library.Text Library.Decimal Library.Dynamic Source.Duration

/-- The letters and the numeric characters: the Latin letters are letters, decimal digits are numeric, and the signs and
blanks that may stand in a number are not. -/
structure Alphabet where
  isalpha : Char → Bool
  isnumeric : Char → Bool
  letters : ∀ c : Char, c.isAlpha = true → isalpha c = true
  digits : ∀ c, (digitValue c).isSome = true → isnumeric c = true
  numerals : ∀ c, isnumeric c = true → isSpace c = false ∧ c ∉ ['+', '-', '_']

def units : List Char := ['s', 'm', 'h', 'd', 'w', 'M', 'y']

/-- The units that may stand before another. -/
def larger : Char → List Char
  | 's' => ['m']
  | 'm' => ['h']
  | 'h' => ['d']
  | 'd' => ['y', 'M', 'w']
  | 'w' => ['y', 'M']
  | 'M' => ['y']
  | _ => []

/-- A natural number in digits. -/
structure Natural (s : Str) (n : Int) : Prop where
  some_ : s ≠ []
  digits : ∀ c ∈ s, (digitValue c).isSome = true
  value : readInt s = some n

/-- The number of seconds that a text says. -/
inductive Means (a : Alphabet) (default : Option (Option Number)) : Str → ℚ → Prop where
  | number (s : Str) (q : ℚ) : float s = some (.finite q) → (∀ c, s.getLast? = some c → a.isalpha c = false) → Means a default s q
  | unit (s : Str) (q : ℚ) (u : Char) : float s = some (.finite q) → u ∈ units → Means a default (s ++ [u]) (q * unitSeconds u)
  | pair (s : Str) (n : Int) (u₁ : Char) (t : Str) (q : ℚ) (u₂ : Char) : Natural s n → u₁ ∈ larger u₂ → float t = some (.finite q) →
      Means a default (s ++ u₁ :: t ++ [u₂]) (n * unitSeconds u₁ + q * unitSeconds u₂)
  | switch (s : Str) (q : ℚ) : lower s ∈ ["on".toList, "true".toList] → default = some (some (.finite q)) → Means a default s q

section Characters
variable {s : Str} {q : ℚ} {c : Char}

/-- What may stand in a number. -/
def NumberChar (c : Char) : Prop := isSpace c = true ∨ (digitValue c).isSome = true ∨ c ∈ ['+', '-', '.', '_', 'e', 'E']

instance (c : Char) : Decidable (NumberChar c) := inferInstanceAs (Decidable (_ ∨ _ ∨ _))

theorem unit_not_number {u : Char} (unit : u ∈ units) : ¬ NumberChar u := by
  have all : units.all (fun u => !decide (NumberChar u)) = true := by decide
  intro number
  simpa [number] using List.all_eq_true.mp all u unit

theorem rstripBy_cases {p : Char → Bool} (member : c ∈ s) : p c = true ∨ c ∈ rstripBy p s := by
  induction s with
  | nil => cases member
  | cons d s ih =>
    unfold rstripBy
    by_cases drops : ((rstripBy p s).isEmpty && p d) = true
    · rw [if_pos drops]
      obtain ⟨empty, last⟩ := Bool.and_eq_true_iff.mp drops
      rcases List.mem_cons.mp member with rfl | later
      · exact .inl last
      · refine (ih later).imp_right fun there => ?_
        rw [List.isEmpty_iff.mp empty] at there
        cases there
    · rw [if_neg drops]
      rcases List.mem_cons.mp member with rfl | later
      · exact .inr List.mem_cons_self
      · exact (ih later).imp_right (List.mem_cons_of_mem d)

theorem strip_cases (member : c ∈ s) : isSpace c = true ∨ c ∈ strip s := by
  rw [← List.takeWhile_append_dropWhile (p := isSpace) (l := s)] at member
  rcases List.mem_append.mp member with before | after
  · exact .inl (List.mem_takeWhile_imp before)
  · exact rstripBy_cases after

theorem number_digit (is : (digitValue c).isSome = true) : NumberChar c := .inr (.inl is)

theorem moreDigits_number {ds : List Nat} (is : moreDigits s = some ds) : ∀ c ∈ s, NumberChar c := by
  induction s using moreDigits.induct generalizing ds with
  | case1 => exact nofun
  | case2 c s ih =>
    rw [moreDigits] at is
    obtain ⟨d, digit, is⟩ := Option.bind_eq_some_iff.mp is
    obtain ⟨ds', rest, -⟩ := Option.bind_eq_some_iff.mp is
    refine List.forall_mem_cons.mpr ⟨.inr (.inr (by simp)), List.forall_mem_cons.mpr ⟨number_digit (Option.isSome_of_mem digit), ih rest⟩⟩
  | case3 c s other ih =>
    rw [moreDigits] at is
    · obtain ⟨d, digit, is⟩ := Option.bind_eq_some_iff.mp is
      obtain ⟨ds', rest, -⟩ := Option.bind_eq_some_iff.mp is
      exact List.forall_mem_cons.mpr ⟨number_digit (Option.isSome_of_mem digit), ih rest⟩
    · exact other

theorem digitRun_number {ds : List Nat} (is : digitRun s = some ds) : ∀ c ∈ s, NumberChar c := by
  cases s with
  | nil => exact nofun
  | cons c s =>
    obtain ⟨d, digit, is⟩ := Option.bind_eq_some_iff.mp is
    obtain ⟨ds', rest, -⟩ := Option.bind_eq_some_iff.mp is
    exact List.forall_mem_cons.mpr ⟨number_digit (Option.isSome_of_mem digit), moreDigits_number rest⟩

theorem fractionDigits_number {ds : List Nat} (is : fractionDigits (s.dropWhile (· != '.')) = some ds) :
    ∀ c ∈ s.dropWhile (· != '.'), NumberChar c := by
  cases point : s.dropWhile (· != '.') with
  | nil => exact nofun
  | cons c rest =>
    have dot : c = '.' := by
      have head := List.head?_dropWhile_not (· != '.') s
      rw [point] at head
      simpa using head
    subst dot
    rw [point] at is
    refine List.forall_mem_cons.mpr ⟨.inr (.inr (by simp)), ?_⟩
    cases rest with
    | nil => exact nofun
    | cons d rest => exact digitRun_number is

theorem readSigned_number {n : Int} (is : readSigned s = some n) : ∀ c ∈ s, NumberChar c := by
  unfold readSigned at is
  split at is
  · obtain ⟨ds, digits, -⟩ := Option.map_eq_some_iff.mp is
    exact List.forall_mem_cons.mpr ⟨.inr (.inr (by simp)), digitRun_number digits⟩
  · obtain ⟨ds, digits, -⟩ := Option.map_eq_some_iff.mp is
    exact List.forall_mem_cons.mpr ⟨.inr (.inr (by simp)), digitRun_number digits⟩
  · obtain ⟨ds, digits, -⟩ := Option.map_eq_some_iff.mp is
    exact digitRun_number digits

theorem exponentValue_number {n : Int} (is : exponentValue (s.dropWhile fun c => !isExponentMark c) = some n) :
    ∀ c ∈ s.dropWhile fun c => !isExponentMark c, NumberChar c := by
  cases mark : s.dropWhile fun c => !isExponentMark c with
  | nil => exact nofun
  | cons c rest =>
    have mark_ : c = 'e' ∨ c = 'E' := by
      have head := List.head?_dropWhile_not (fun c => !isExponentMark c) s
      rw [mark] at head
      exact or_iff_not_imp_left.mpr (by simpa [isExponentMark] using head)
    rw [mark] at is
    refine List.forall_mem_cons.mpr ⟨.inr (.inr ?_), readSigned_number is⟩
    rcases mark_ with rfl | rfl <;> simp

theorem readDecimal_number (is : readDecimal s = some q) : ∀ c ∈ s, NumberChar c := by
  obtain ⟨whole, integral, is⟩ := Option.bind_eq_some_iff.mp is
  obtain ⟨fraction, fractional, is⟩ := Option.bind_eq_some_iff.mp is
  obtain ⟨exponent, exponent_, -⟩ := Option.map_eq_some_iff.mp is
  intro c member
  rw [← List.takeWhile_append_dropWhile (p := fun c => !isExponentMark c) (l := s)] at member
  rcases List.mem_append.mp member with mantissa | after
  · rw [← List.takeWhile_append_dropWhile (p := (· != '.')) (l := s.takeWhile fun c => !isExponentMark c)] at mantissa
    rcases List.mem_append.mp mantissa with before | point
    · split at integral
      · next empty =>
        rw [empty.1] at before
        cases before
      · exact digitRun_number integral c before
    · exact fractionDigits_number fractional c point
  · exact exponentValue_number exponent_ c after

theorem readUnsigned_number (is : readUnsigned s = some (.finite q)) : ∀ c ∈ s, NumberChar c := by
  unfold readUnsigned at is
  split at is
  · cases is
  · split at is
    · cases is
    · obtain ⟨q', decimal, -⟩ := Option.map_eq_some_iff.mp is
      exact readDecimal_number decimal

theorem neg_finite {x : Number} (is : x.neg = .finite q) : x = .finite (-q) := by
  cases x with
  | finite q' =>
    cases is
    rw [neg_neg]
  | infinite negative => cases is
  | nan => cases is

/-- A text that is read as a number has no letter but the mark of the exponent. -/
theorem float_number (is : float s = some (.finite q)) : ∀ c ∈ s, NumberChar c := by
  intro c member
  rcases strip_cases member with blank | inner
  · exact .inl blank
  · unfold float at is
    split at is
    · next rest body =>
      rw [body] at inner
      obtain ⟨x, unsigned, negative⟩ := Option.map_eq_some_iff.mp is
      rw [neg_finite negative] at unsigned
      exact List.forall_mem_cons.mpr ⟨.inr (.inr (by simp)), readUnsigned_number unsigned⟩ c inner
    · next rest body =>
      rw [body] at inner
      exact List.forall_mem_cons.mpr ⟨.inr (.inr (by simp)), readUnsigned_number is⟩ c inner
    · exact readUnsigned_number is c inner

theorem float_nil : float [] = none := by decide

theorem isAlpha_toLower (letter : c.toLower.isAlpha = true) : c.isAlpha = true := by
  unfold Char.toLower at letter
  split at letter
  · next upper =>
    delta Char.isAlpha Char.isUpper
    rw [Bool.or_eq_true]
    left
    simpa using upper
  · exact letter

theorem lower_concat (s : Str) (c : Char) : lower (s ++ [c]) = lower s ++ [c.toLower] := by
  unfold lower
  rw [List.map_append, List.map_singleton]

end Characters

section Counted
variable {a : Alphabet} {first : Option Char} {f : Char} {factor : ℚ} {number big little : Str}

theorem counted_none (absent : ∀ f, first = some f → f ∉ number) :
    counted a.isnumeric first factor number = .ok (durationFrom 0 factor number) := by
  have none_ : first.filter (· ∈ number) = none := by
    cases first with
    | none => rfl
    | some f =>
      rw [Option.filter_some, if_neg]
      exact fun there => absent f rfl (of_decide_eq_true there)
  unfold counted
  rw [none_]

theorem counted_eq (is : first = some f) (there : f ∈ number) :
    counted a.isnumeric first factor number = twoParts a.isnumeric f factor (split [f] number) := by
  have some_ : first.filter (· ∈ number) = some f := by
    rw [is, Option.filter_some, if_pos (decide_eq_true there)]
  unfold counted
  rw [some_]

/-- The unit once, between two numbers. -/
theorem counted_once (is : first = some f) (before : f ∉ big) (after : f ∉ little) : counted a.isnumeric first factor (big ++ f :: little) =
    if !big.isEmpty && big.all a.isnumeric then
      (readInt big).elim (.error .valueError) fun n => .ok (durationFrom (n * unitSeconds f) factor little)
    else .ok (.finite 0) := by
  rw [counted_eq is (List.mem_append_right _ List.mem_cons_self), split_concat, split_plain f before, split_plain f after]
  rfl

/-- The unit again in the second number. -/
theorem counted_again (is : first = some f) (before : f ∉ big) (after : f ∈ little) :
    counted a.isnumeric first factor (big ++ f :: little) = .error .valueError := by
  obtain ⟨x, y, rfl⟩ := List.append_of_mem after
  rw [counted_eq is (List.mem_append_right _ List.mem_cons_self), split_concat, split_plain f before, split_concat]
  cases first_ : split [f] x with
  | nil => exact absurd first_ (splitFrom_ne_nil _ 0 x)
  | cons p ps =>
    cases second : split [f] y with
    | nil => exact absurd second (splitFrom_ne_nil _ 0 y)
    | cons r rs =>
      cases ps with
      | nil => rfl
      | cons _ _ => rfl

end Counted

section Readings
variable {a : Alphabet} {default : Option (Option Number)} {s : Str} {u : Char} {q : ℚ}

theorem unit_alpha (unit : u ∈ units) : a.isalpha u = true := by
  have all : units.all Char.isAlpha = true := by decide
  exact a.letters u (List.all_eq_true.mp all u unit)

/-- The words that are read before numbers. -/
def words : List Str := ["none".toList, "off".toList, "false".toList, "on".toList, "true".toList]

theorem durationToSeconds_eq (other : lower s ∉ words) :
    durationToSeconds a.isalpha a.isnumeric s default = measured a.isalpha a.isnumeric s := by
  unfold durationToSeconds
  rw [if_neg fun member => other (List.mem_append_left ["on".toList, "true".toList] member),
    if_neg fun member => other (List.mem_append_right ["none".toList, "off".toList, "false".toList] member)]

theorem unit_not_word (unit : u ∈ units) (s : Str) : lower (s ++ [u]) ∉ words := by
  have apart : units.all (fun u => words.all fun word => word.getLast? != some u.toLower) = true := by decide
  intro member
  have last := List.all_eq_true.mp (List.all_eq_true.mp apart u unit) _ member
  rw [lower_concat, List.getLast?_concat] at last
  simp at last

theorem measured_unit (unit : u ∈ units) :
    measured a.isalpha a.isnumeric (s ++ [u]) = counted a.isnumeric (firstUnit u (s ++ [u])) (unitSeconds u) s := by
  unfold measured
  rw [List.getLast?_concat]
  dsimp only
  rw [unit_alpha unit, if_pos rfl, List.dropLast_concat]

theorem durationFrom_finite {big factor : ℚ} (is : float s = some (.finite q)) : durationFrom big factor s = .finite (big + q * factor) := by
  unfold durationFrom
  rw [is]
  rfl

/-- The unit before: one that may stand there; `y` before `M`, if both do, and `w` before days if neither. -/
theorem firstUnit_mem {f : Char} (is : firstUnit u s = some f) : f ∈ larger u := by
  unfold firstUnit at is
  split at is
  · cases is; decide
  · cases is; decide
  · cases is; decide
  · split at is
    · cases is; decide
    · split at is
      · cases is; decide
      · cases is; decide
  · split at is
    · cases is; decide
    · split at is
      · cases is; decide
      · cases is
  · split at is
    · cases is; decide
    · cases is
  · cases is

theorem larger_units {f : Char} (member : f ∈ larger u) : u ∈ units ∧ f ∈ units := by
  have all : ∀ u ∈ units, (larger u).all (· ∈ units) = true := by simp [units, larger]
  by_cases unit : u ∈ units
  · exact ⟨unit, of_decide_eq_true (List.all_eq_true.mp (all u unit) f member)⟩
  · have none_ : larger u = [] := by
      unfold larger
      split <;> first | exact absurd (by decide) unit | rfl
    rw [none_] at member
    cases member

/-- A number has no unit in it. -/
theorem unit_not_in {f : Char} (unit : f ∈ units) (is : float s = some (.finite q)) : f ∉ s :=
  fun member => unit_not_number unit (float_number is f member)

theorem unit_not_in_natural {f : Char} {n : Int} (unit : f ∈ units) (natural : Natural s n) : f ∉ s :=
  fun member => unit_not_number unit (number_digit (natural.digits f member))

/-- Between two numbers, the unit that stands there is the one that is looked for. -/
theorem firstUnit_of_larger {f : Char} (member : f ∈ larger u) (others : ∀ g ∈ units, g ≠ f → g ≠ u → g ∉ s) (there : f ∈ s) :
    firstUnit u s = some f := by
  unfold larger at member
  split at member
  · obtain rfl := List.mem_singleton.mp member
    rfl
  · obtain rfl := List.mem_singleton.mp member
    rfl
  · obtain rfl := List.mem_singleton.mp member
    rfl
  · rcases List.mem_cons.mp member with rfl | member
    · exact if_pos there
    · have years := others 'y' (by decide)
      rcases List.mem_cons.mp member with rfl | member
      · exact (if_neg (years (by decide) (by decide))).trans (if_pos there)
      · obtain rfl := List.mem_singleton.mp member
        have months := others 'M' (by decide) (by decide) (by decide)
        exact (if_neg (years (by decide) (by decide))).trans (if_neg months)
  · rcases List.mem_cons.mp member with rfl | member
    · exact if_pos there
    · obtain rfl := List.mem_singleton.mp member
      exact (if_neg (others 'y' (by decide) (by decide) (by decide))).trans (if_pos there)
  · obtain rfl := List.mem_singleton.mp member
    exact if_pos there
  · cases member

theorem unitSeconds_other (other : u ∉ units) : unitSeconds u = 1 := by
  unfold unitSeconds
  split <;> first | exact absurd (by decide) other | rfl

theorem firstUnit_other (other : u ∉ units) (s : Str) : firstUnit u s = none := by
  cases first : firstUnit u s with
  | none => rfl
  | some f => exact absurd (larger_units (firstUnit_mem first)).1 other

/-- A text that ends with no letter. -/
theorem measured_plain (plain : a.isalpha u = false) : measured a.isalpha a.isnumeric (s ++ [u]) = .ok (durationFrom 0 1 (s ++ [u])) := by
  have other : u ∉ units := by
    intro unit
    rw [unit_alpha unit] at plain
    cases plain
  unfold measured
  rw [List.getLast?_concat]
  dsimp only
  rw [plain, if_neg Bool.false_ne_true, firstUnit_other other, unitSeconds_other other, counted_none (by simp)]

theorem plain_not_word (plain : a.isalpha u = false) (s : Str) : lower (s ++ [u]) ∉ words := by
  have ends : words.all (fun word => (word.getLast?.elim false Char.isAlpha)) = true := by decide
  intro member
  have last := List.all_eq_true.mp ends _ member
  rw [lower_concat, List.getLast?_concat, Option.elim_some] at last
  rw [a.letters u (isAlpha_toLower last)] at plain
  cases plain

/-- What a text says is what is read. -/
theorem means_read (means : Means a default s q) : durationToSeconds a.isalpha a.isnumeric s default = .ok (.finite q) := by
  cases means with
  | number _ _ is plain =>
    rcases List.eq_nil_or_concat s with rfl | ⟨s, u, rfl⟩
    · rw [float_nil] at is
      cases is
    · rw [List.concat_eq_append] at is plain ⊢
      have plain_ := plain u List.getLast?_concat
      rw [durationToSeconds_eq (plain_not_word plain_ s), measured_plain plain_, durationFrom_finite is, zero_add, mul_one]
  | unit s q u is unit =>
    rw [durationToSeconds_eq (unit_not_word unit s), measured_unit unit, counted_none, durationFrom_finite is, zero_add]
    exact fun f first => unit_not_in (larger_units (firstUnit_mem first)).2 is
  | pair s n u₁ t q u₂ natural member is =>
    obtain ⟨unit₂, unit₁⟩ := larger_units member
    have before := unit_not_in_natural unit₁ natural
    have after := unit_not_in unit₁ is
    have first : firstUnit u₂ (s ++ u₁ :: t ++ [u₂]) = some u₁ := by
      apply firstUnit_of_larger member
      · intro g unit other last there
        rcases List.mem_append.mp there with inner | end_
        · rcases List.mem_append.mp inner with first_ | rest
          · exact unit_not_in_natural unit natural first_
          · rcases List.mem_cons.mp rest with same | second
            · exact other same
            · exact unit_not_in unit is second
        · exact last (List.mem_singleton.mp end_)
      · simp
    have numeric : (!s.isEmpty && s.all a.isnumeric) = true := by
      rw [Bool.and_eq_true, List.all_eq_true]
      refine ⟨by simpa using natural.some_, fun c there => a.digits c (natural.digits c there)⟩
    rw [durationToSeconds_eq (unit_not_word unit₂ _), measured_unit unit₂, counted_once first before after, if_pos numeric, natural.value,
      Option.elim_some, durationFrom_finite is]
  | switch _ _ word given =>
    unfold durationToSeconds
    rw [if_neg, if_pos word, given]
    · rfl
    · intro off
      have apart : (["on".toList, "true".toList] : List Str).all (fun word => word ∉ (["none".toList, "off".toList, "false".toList] : List Str)) = true := by
        decide
      exact absurd off (of_decide_eq_true (List.all_eq_true.mp apart _ word))

end Readings

section Exact
variable {a : Alphabet} {default : Option (Option Number)} {s big little : Str} {u f : Char} {q : ℚ}

/-- What is left without the last letter. -/
def quantity (a : Alphabet) (u : Char) (s : Str) : Str := if a.isalpha u then s.dropLast else s

/-- Neither infinite nor no number. -/
def Plain (s : Str) : Prop := ∀ x, float s = some x → ∃ q, x = .finite q

def Numeric (a : Alphabet) (s : Str) : Prop := (!s.isEmpty && s.all a.isnumeric) = true

/-- A text that is read as 0 or as it says: there is a last character. If the unit before the last one is not there, the
number is plain, and 0 if the letter behind it is no unit; if it is, then once, and what is numeric before it is an
integer, with a plain number behind. -/
def Legible (a : Alphabet) (s : Str) : Prop :=
  ∃ u, s.getLast? = some u ∧
    ((∀ f, firstUnit u s = some f → f ∉ quantity a u s) → Plain (quantity a u s) ∧
      (a.isalpha u = true → u ∉ units → ∀ q, float (quantity a u s) = some (.finite q) → q = 0)) ∧
    ∀ f big little, firstUnit u s = some f → quantity a u s = big ++ f :: little → f ∉ big →
      f ∉ little ∧ (Numeric a big → (∃ n, readInt big = some n) ∧ Plain little)

/-- A word is read as such, with a default that is a number; any other text is legible. -/
structure Handled (a : Alphabet) (default : Option (Option Number)) (s : Str) : Prop where
  switch : lower s ∈ ["on".toList, "true".toList] → ∀ x, default = some x → ∃ q, x = some (.finite q)
  other : lower s ∉ ["none".toList, "off".toList, "false".toList] → (lower s ∈ ["on".toList, "true".toList] → default = none) → Legible a s

theorem measured_eq (last : s.getLast? = some u) : measured a.isalpha a.isnumeric s =
    counted a.isnumeric (firstUnit u s) (unitSeconds u) (quantity a u s) := by
  unfold measured
  rw [last]
  rfl

theorem plain_value (plain : Plain s) (factor big : ℚ) : ∃ q, durationFrom big factor s = .finite q ∧
    (q ≠ 0 → ∃ q', float s = some (.finite q') ∧ q = big + q' * factor) := by
  cases is : float s with
  | none =>
    refine ⟨0, ?_, fun some_ => absurd rfl some_⟩
    unfold durationFrom
    rw [is]
    rfl
  | some x =>
    obtain ⟨q', rfl⟩ := plain x is
    exact ⟨_, durationFrom_finite is, fun _ => ⟨q', rfl, rfl⟩⟩

theorem plain_of_value {factor : ℚ} {b : ℚ} (is : durationFrom b factor s = .finite q) : Plain s := by
  intro x read_
  unfold durationFrom at is
  rw [read_] at is
  cases x with
  | finite q' => exact ⟨q', rfl⟩
  | infinite negative => cases is
  | nan => cases is

theorem moreDigits_digits {ds : List Nat} (is : moreDigits s = some ds) (plain : '_' ∉ s) : ∀ c ∈ s, (digitValue c).isSome = true := by
  induction s using moreDigits.induct generalizing ds with
  | case1 => exact nofun
  | case2 c s ih => exact absurd List.mem_cons_self plain
  | case3 c s other ih =>
    rw [moreDigits] at is
    · obtain ⟨d, digit, is⟩ := Option.bind_eq_some_iff.mp is
      obtain ⟨ds', rest, -⟩ := Option.bind_eq_some_iff.mp is
      exact List.forall_mem_cons.mpr ⟨Option.isSome_of_mem digit, ih rest fun member => plain (List.mem_cons_of_mem c member)⟩
    · exact other

/-- What is numeric and an integer is a natural number in digits. -/
theorem natural_of_numeric {n : Int} (numeric : Numeric a big) (is : readInt big = some n) : Natural big n := by
  obtain ⟨some_, all⟩ := Bool.and_eq_true_iff.mp numeric
  have signs : ∀ c ∈ big, isSpace c = false ∧ c ∉ ['+', '-', '_'] := fun c member => a.numerals c (List.all_eq_true.mp all c member)
  refine ⟨by simpa using some_, ?_, is⟩
  unfold readInt at is
  rw [strip_of_no_space big fun c member => (signs c member).1] at is
  unfold readSigned at is
  split at is
  · next rest => exact absurd (by simp) (signs '-' List.mem_cons_self).2
  · next rest => exact absurd (by simp) (signs '+' List.mem_cons_self).2
  · obtain ⟨ds, digits, -⟩ := Option.map_eq_some_iff.mp is
    cases big with
    | nil => exact nofun
    | cons c rest =>
      obtain ⟨d, digit, digits⟩ := Option.bind_eq_some_iff.mp digits
      obtain ⟨ds', rest_, -⟩ := Option.bind_eq_some_iff.mp digits
      have plain : '_' ∉ rest := fun member => absurd (by simp) (signs '_' (List.mem_cons_of_mem c member)).2
      exact List.forall_mem_cons.mpr ⟨Option.isSome_of_mem digit, moreDigits_digits rest_ plain⟩

theorem quantity_unit (unit : u ∈ units) (last : s.getLast? = some u) : s = quantity a u s ++ [u] := by
  obtain ⟨t, rfl⟩ := List.getLast?_eq_some_iff.mp last
  unfold quantity
  rw [unit_alpha unit, if_pos rfl, List.dropLast_concat]

theorem legible_value (default : Option (Option Number)) (legible : Legible a s) : ∃ q, measured a.isalpha a.isnumeric s = .ok (.finite q) ∧ (q ≠ 0 → Means a default s q) := by
  obtain ⟨u, last, absent, once⟩ := legible
  rw [measured_eq last]
  by_cases there : ∃ f, firstUnit u s = some f ∧ f ∈ quantity a u s
  · obtain ⟨f, first, member⟩ := there
    obtain ⟨big, little, cut, before⟩ := List.eq_append_cons_of_mem member
    obtain ⟨after, numbers⟩ := once f big little first cut before
    have larger_ := firstUnit_mem first
    have whole := quantity_unit (a := a) (larger_units larger_).1 last
    rw [cut] at whole
    rw [cut, counted_once first before after]
    by_cases numeric : (!big.isEmpty && big.all a.isnumeric) = true
    · obtain ⟨⟨n, integer⟩, plain⟩ := numbers numeric
      obtain ⟨q, value, told⟩ := plain_value plain (unitSeconds u) (n * unitSeconds f)
      rw [if_pos numeric, integer, Option.elim_some, value]
      refine ⟨q, rfl, fun some_ => ?_⟩
      obtain ⟨q', is, rfl⟩ := told some_
      rw [whole]
      exact .pair big n f little q' u (natural_of_numeric numeric integer) larger_ is
    · rw [if_neg numeric]
      exact ⟨0, rfl, fun some_ => absurd rfl some_⟩
  · have none_ : ∀ f, firstUnit u s = some f → f ∉ quantity a u s := fun f first member => there ⟨f, first, member⟩
    obtain ⟨plain, letter⟩ := absent none_
    obtain ⟨q, value, told⟩ := plain_value plain (unitSeconds u) 0
    rw [counted_none none_, value]
    refine ⟨q, rfl, fun some_ => ?_⟩
    obtain ⟨q', is, rfl⟩ := told some_
    rw [zero_add] at some_ ⊢
    by_cases unit : u ∈ units
    · have means := (.unit (quantity a u s) q' u is unit : Means a default _ _)
      rw [← quantity_unit unit last] at means
      exact means
    · cases alpha : a.isalpha u with
      | true =>
        rw [letter alpha unit q' is, zero_mul] at some_
        exact absurd rfl some_
      | false =>
        unfold quantity at is
        rw [alpha, if_neg Bool.false_ne_true] at is
        rw [unitSeconds_other unit, mul_one]
        refine .number s q' is fun c last' => ?_
        obtain rfl := Option.some.inj (last.symm.trans last')
        exact alpha

/-- A letter that is no unit says nothing. -/
theorem not_means {q : ℚ} (last : s.getLast? = some u) (alpha : a.isalpha u = true) (other : u ∉ units)
    (generic : lower s ∈ ["on".toList, "true".toList] → default = none) : ¬ Means a default s q := by
  intro means
  cases means with
  | number _ _ _ plain =>
    rw [plain u last] at alpha
    cases alpha
  | unit t _ v _ unit =>
    rw [List.getLast?_concat] at last
    obtain rfl := Option.some.inj last
    exact other unit
  | pair t n u₁ t' q' v _ member _ =>
    rw [List.getLast?_concat] at last
    obtain rfl := Option.some.inj last
    exact other (larger_units member).1
  | switch _ _ word given =>
    rw [generic word] at given
    cases given

theorem legible_of_value (generic : lower s ∈ ["on".toList, "true".toList] → default = none)
    (is : measured a.isalpha a.isnumeric s = .ok (.finite q)) (right : (∀ q', ¬ Means a default s q') → q = 0) : Legible a s := by
  cases last : s.getLast? with
  | none =>
    unfold measured at is
    rw [last] at is
    cases is
  | some u =>
    rw [measured_eq last] at is
    refine ⟨u, last, ?_, ?_⟩
    · intro absent
      rw [counted_none absent] at is
      have value := Except.ok.inj is
      refine ⟨plain_of_value value, fun alpha other q' number => ?_⟩
      have zero := right fun q'' => not_means last alpha other generic
      rw [durationFrom_finite number, unitSeconds_other other, zero, zero_add, mul_one] at value
      exact Number.finite.inj value
    · intro f big little first cut before
      rw [cut] at is
      by_cases after : f ∈ little
      · rw [counted_again first before after] at is
        cases is
      · refine ⟨after, fun (numeric : (!big.isEmpty && big.all a.isnumeric) = true) => ?_⟩
        rw [counted_once first before after, if_pos numeric] at is
        cases integer : readInt big with
        | none =>
          rw [integer] at is
          cases is
        | some n =>
          rw [integer] at is
          exact ⟨⟨n, rfl⟩, plain_of_value (Except.ok.inj is)⟩

/-- A number is returned: what the text says, or 0 if it says nothing. -/
def Correct (a : Alphabet) (default : Option (Option Number)) (s : Str) : Prop :=
  ∃ q, durationToSeconds a.isalpha a.isnumeric s default = .ok (.finite q) ∧ (∀ q', Means a default s q' → q = q') ∧
    ((∀ q', ¬ Means a default s q') → q = 0)

theorem switch_other : ∀ word ∈ ["on".toList, "true".toList], word ∉ ["none".toList, "off".toList, "false".toList] := by decide

theorem durationToSeconds_switch {x : Option Number} (word : lower s ∈ ["on".toList, "true".toList]) :
    durationToSeconds a.isalpha a.isnumeric s (some x) = x.elim (.error .valueError) .ok := by
  unfold durationToSeconds
  rw [if_neg (switch_other _ word), if_pos word, Option.elim_some]

theorem durationToSeconds_generic (other : lower s ∉ ["none".toList, "off".toList, "false".toList])
    (generic : lower s ∈ ["on".toList, "true".toList] → default = none) :
    durationToSeconds a.isalpha a.isnumeric s default = measured a.isalpha a.isnumeric s := by
  unfold durationToSeconds
  rw [if_neg other]
  split
  · next word => rw [generic word, Option.elim_none]
  · rfl

/-- What a text says is returned for every duration; of the other texts, those that are handled, and no more, give 0. -/
theorem duration_iff (a : Alphabet) (default : Option (Option Number)) (s : Str) :
    (∀ q, Means a default s q → durationToSeconds a.isalpha a.isnumeric s default = .ok (.finite q)) ∧
      (Correct a default s ↔ Handled a default s) := by
  refine ⟨fun q means => means_read means, ?_⟩
  constructor
  · rintro ⟨q, is, -, right⟩
    constructor
    · intro word x given
      rw [given, durationToSeconds_switch word] at is
      cases x with
      | none => cases is
      | some x =>
        cases is
        exact ⟨q, rfl⟩
    · intro other generic
      rw [durationToSeconds_generic other generic] at is
      exact legible_of_value generic is right
  · intro handled
    have correct {q : ℚ} (is : durationToSeconds a.isalpha a.isnumeric s default = .ok (.finite q)) (told : q ≠ 0 → Means a default s q) :
        Correct a default s := by
      refine ⟨q, is, fun q' means => ?_, fun none_ => ?_⟩
      · exact Number.finite.inj (Except.ok.inj (is.symm.trans (means_read means)))
      · by_contra some_
        exact none_ q (told some_)
    by_cases off : lower s ∈ ["none".toList, "off".toList, "false".toList]
    · apply correct (q := 0)
      · unfold durationToSeconds
        rw [if_pos off]
      · exact fun some_ => absurd rfl some_
    · by_cases generic : lower s ∈ ["on".toList, "true".toList] → default = none
      · obtain ⟨q, is, told⟩ := legible_value default (handled.other off generic)
        exact correct ((durationToSeconds_generic off generic).trans is) told
      · obtain ⟨word, given⟩ := Classical.not_imp.mp generic
        obtain ⟨x, given⟩ := Option.ne_none_iff_exists'.mp given
        obtain ⟨q, rfl⟩ := handled.switch word x given
        apply correct (q := q)
        · rw [given, durationToSeconds_switch word, Option.elim_some]
        · exact fun _ => .switch s q word given

theorem digit_plain {c : Char} (is : (digitValue c).isSome = true) : isSpace c = false ∧ c ∉ ['+', '-', '_'] := by
  have all : digitZeros.all (fun z => (List.range 10).all fun k =>
      let d := Char.ofNat (z + k)
      !isSpace d && d ∉ ['+', '-', '_']) = true := by decide +kernel
  unfold digitValue at is
  rw [Option.isSome_map] at is
  obtain ⟨z, found⟩ := Option.isSome_iff_exists.mp is
  have within := List.find?_some found
  rw [Bool.and_eq_true, decide_eq_true_eq, decide_eq_true_eq] at within
  have place : Char.ofNat (z + (c.toNat - z)) = c := by rw [Nat.add_sub_cancel' within.1, Char.ofNat_toNat]
  have plain := List.all_eq_true.mp (List.all_eq_true.mp all z (List.mem_of_find?_eq_some found)) (c.toNat - z)
    (List.mem_range.mpr (by omega))
  dsimp only at plain
  rw [place, Bool.and_eq_true, Bool.not_eq_true', decide_eq_true_eq] at plain
  exact plain

/-- The Latin letters, and the digits. -/
def latin : Alphabet where
  isalpha := Char.isAlpha
  isnumeric c := (digitValue c).isSome
  letters _ is := is
  digits _ is := is
  numerals _ is := digit_plain is

/-- There is no last character to look at. -/
theorem no_last_character : ¬ ∀ (a : Alphabet) (default : Option (Option Number)) (s : Str), Correct a default s := by
  intro correct
  obtain ⟨q, is, -⟩ := correct latin none []
  cases is

/-- The unit again, in the second number. -/
example : durationToSeconds latin.isalpha latin.isnumeric "1m2m3s".toList none = .error .valueError := by decide

/-- A letter that is no unit is left out. -/
example : durationToSeconds latin.isalpha latin.isnumeric "5x".toList none = .ok (.finite 5) := by decide +kernel

example : durationToSeconds latin.isalpha latin.isnumeric "1d12.5h".toList none = .ok (.finite 131400) := by decide +kernel

end Exact
end Sarracenia.Guarantees.Duration
