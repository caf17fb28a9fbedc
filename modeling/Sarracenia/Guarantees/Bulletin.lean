import Sarracenia.Source.Bulletin

/-!
# Normal headers

`verifyHeader` looks at the fifth field only where it is the last. What it returns is normal otherwise, and a normal
header is returned as it is.
-/
namespace Sarracenia.Guarantees.Bulletin
open Source.Bulletin
open Source.Transfer (Bytes)

/-- The parts between separators have none. -/
theorem not_mem_splitOn {α : Type} [BEq α] [LawfulBEq α] (a : α) (l : List α) : ∀ part ∈ l.splitOn a, a ∉ part := by
  induction l with
  | nil =>
    intro part member
    rw [List.mem_singleton.mp member]
    exact List.not_mem_nil
  | cons x l ih =>
    rw [List.splitOn_cons_eq_if_modifyHead]
    split
    · exact List.forall_mem_cons.mpr ⟨List.not_mem_nil, ih⟩
    · next other =>
      cases parts : l.splitOn a with
      | nil => exact absurd parts (List.splitOn_ne_nil a l)
      | cons part parts_ =>
        rw [parts] at ih
        obtain ⟨head, rest⟩ := List.forall_mem_cons.mp ih
        rw [List.modifyHead_cons]
        refine List.forall_mem_cons.mpr ⟨?_, rest⟩
        intro member
        rcases List.mem_cons.mp member with same | later
        · exact other (by rw [same, beq_self_eq_true])
        · exact head later

section Rest
variable {first : Bytes → Option Char} {rest kept : List Bytes} {removed : Bool}

/-- At most two fields, each a valid one. -/
def AllValid (first : Bytes → Option Char) (rest : List Bytes) : Prop := rest.length ≤ 2 ∧ ∀ field ∈ rest, valid first field = some true

/-- The fields for which all that are kept were looked at: of six or more fields, the fifth is valid if the fourth is. -/
def Seen (first : Bytes → Option Char) (rest : List Bytes) : Prop :=
  ∀ fourth fifth sixth more, rest = fourth :: fifth :: sixth :: more → valid first fourth = some true → valid first fifth = some true

/-- What is kept of the fields from the fourth on, by the test that decides. -/
inductive Kept (first : Bytes → Option Char) : List Bytes → List Bytes → Bool → Prop where
  | none : Kept first [] [] false
  | invalid (bbb : Bytes) (more : List Bytes) : valid first bbb = some false → Kept first (bbb :: more) [] true
  | one (bbb : Bytes) : valid first bbb = some true → Kept first [bbb] [bbb] false
  | two (bbb field : Bytes) : valid first bbb = some true → valid first field = some true → Kept first [bbb, field] [bbb, field] false
  | fifth (bbb field : Bytes) : valid first bbb = some true → valid first field = some false → Kept first [bbb, field] [bbb] true
  | more (bbb field next : Bytes) (more : List Bytes) : valid first bbb = some true →
      Kept first (bbb :: field :: next :: more) [bbb, field] true

theorem verifyRest_iff : verifyRest first rest = some (kept, removed) ↔ Kept first rest kept removed := by
  constructor
  · intro ok
    match rest with
    | [] =>
      cases ok
      exact .none
    | bbb :: more =>
      obtain ⟨fourth, fourth_is, ok⟩ := Option.bind_eq_some_iff.mp ok
      cases fourth with
      | false =>
        cases ok
        exact .invalid bbb more fourth_is
      | true =>
        obtain ⟨fifth, fifth_is, ok⟩ := Option.map_eq_some_iff.mp ok
        match more with
        | [] =>
          cases fifth_is
          cases ok
          exact .one bbb fourth_is
        | [field] =>
          cases fifth with
          | false =>
            cases ok
            exact .fifth bbb field fourth_is fifth_is
          | true =>
            cases ok
            exact .two bbb field fourth_is fifth_is
        | field :: next :: more =>
          cases fifth_is
          cases ok
          exact .more bbb field next more fourth_is
  · intro kept
    cases kept with
    | none => rfl
    | invalid _ _ fourth => rw [verifyRest, fourth]; rfl
    | one _ fourth => rw [verifyRest, fourth]; rfl
    | two _ _ fourth fifth => rw [verifyRest, fourth]; simp only [fifthValid, fifth, Option.bind]; rfl
    | fifth _ _ fourth fifth => rw [verifyRest, fourth]; simp only [fifthValid, fifth, Option.bind]; rfl
    | more _ _ _ more fourth => rw [verifyRest, fourth]; rfl

theorem verifyRest_of_valid (all : AllValid first rest) : verifyRest first rest = some (rest, false) := by
  obtain ⟨short, valid_⟩ := all
  apply verifyRest_iff.mpr
  match rest with
  | [] => exact .none
  | [bbb] => exact .one bbb (valid_ bbb List.mem_cons_self)
  | [bbb, field] => exact .two bbb field (valid_ bbb List.mem_cons_self) (valid_ field (List.mem_cons_of_mem _ List.mem_cons_self))
  | _ :: _ :: _ :: more =>
    simp only [List.length_cons] at short
    omega

/-- What is kept is valid if and only if it was looked at. -/
theorem Kept.allValid_iff (is : Kept first rest kept removed) : AllValid first kept ↔ Seen first rest := by
  cases is with
  | none => exact iff_of_true ⟨Nat.zero_le _, nofun⟩ nofun
  | invalid bbb more fourth =>
    refine iff_of_true ⟨Nat.zero_le _, nofun⟩ ?_
    rintro _ _ _ _ ⟨rfl, rfl⟩ fourth'
    rw [fourth] at fourth'
    cases fourth'
  | one bbb fourth => exact iff_of_true ⟨by simp, by simpa using fourth⟩ nofun
  | two bbb field fourth fifth => exact iff_of_true ⟨by simp, by simp [fourth, fifth]⟩ nofun
  | fifth bbb field fourth fifth => exact iff_of_true ⟨by simp, by simpa using fourth⟩ nofun
  | more bbb field next more fourth =>
    constructor
    · intro all _ _ _ _ same _
      cases same
      exact all.2 field (List.mem_cons_of_mem _ List.mem_cons_self)
    · intro seen
      have fifth := seen bbb field next more rfl fourth
      exact ⟨by simp, by simp [fourth, fifth]⟩

theorem Kept.subset (is : Kept first rest kept removed) : kept ⊆ rest := by
  cases is with
  | more bbb field next more _ => simp
  | _ => simp

theorem Kept.same (is : Kept first rest kept false) : kept = rest := by
  cases is <;> rfl

end Rest

section Header
variable {first : Bytes → Option Char} {header header' : Bytes}

/-- Three well-formed fields and valid ones after them, with a single blank between two; it is returned as it is. -/
structure Normal (first : Bytes → Option Char) (header : Bytes) : Prop where
  fields : ∃ heading station time rest, header.splitOn space = heading :: station :: time :: rest ∧
    malformed heading station time = false ∧ AllValid first rest
  again : verifyHeader first header = some (header, false)

/-- Of six or more fields, the fifth is valid if the fourth is. -/
def AllSeen (first : Bytes → Option Char) (header : Bytes) : Prop := Seen first ((header.splitOn space).drop 3)

theorem well_formed_length {heading station time : Bytes} (well : malformed heading station time = false) : time.length = 6 := by
  unfold malformed at well
  by_contra other
  simp [other] at well

theorem verifyHeader_eq {heading station time : Bytes} {rest : List Bytes} (fields : header.splitOn space = heading :: station :: time :: rest) :
    verifyHeader first header = if malformed heading station (if time.length > 6 then time.take 6 else time) then some (header, true)
      else (verifyRest first rest).map fun kept => (if time.length > 6 ∨ kept.2 then
        [space].intercalate (heading :: station :: (if time.length > 6 then time.take 6 else time) :: kept.1) else header, false) := by
  have some_ : header ≠ [] := by
    rintro rfl
    cases fields
  unfold verifyHeader
  dsimp only
  rw [List.intercalate_splitOn, if_neg some_, fields]
  dsimp only
  cases verifyRest first rest with
  | none => rfl
  | some kept => simp

/-- The fields of a header that is returned. -/
theorem verified_fields {heading station time : Bytes} {rest : List Bytes} (fields : header.splitOn space = heading :: station :: time :: rest)
    (ok : verifyHeader first header = some (header', false)) : ∃ kept removed, Kept first rest kept removed ∧
      malformed heading station (if time.length > 6 then time.take 6 else time) = false ∧
      header'.splitOn space = heading :: station :: (if time.length > 6 then time.take 6 else time) :: kept := by
  rw [verifyHeader_eq fields] at ok
  by_cases well : malformed heading station (if time.length > 6 then time.take 6 else time) = true
  · rw [if_pos well] at ok
    cases ok
  · rw [if_neg well] at ok
    obtain ⟨⟨kept, removed⟩, is, same⟩ := Option.map_eq_some_iff.mp ok
    have kept_ := verifyRest_iff.mp is
    refine ⟨kept, removed, kept_, Bool.eq_false_of_not_eq_true well, ?_⟩
    have plain := not_mem_splitOn space header
    rw [fields] at plain
    have whole : header' = [space].intercalate (heading :: station :: (if time.length > 6 then time.take 6 else time) :: kept) := by
      rw [← (Prod.mk.inj same).1]
      dsimp only
      split
      · rfl
      · next untouched =>
        obtain ⟨short, all⟩ := not_or.mp untouched
        obtain rfl := Bool.eq_false_of_not_eq_true all
        rw [if_neg short, kept_.same, ← fields, List.intercalate_splitOn]
    rw [whole]
    refine List.splitOn_intercalate space ?_ (List.cons_ne_nil _ _)
    obtain ⟨first_, second, third, others⟩ : space ∉ heading ∧ space ∉ station ∧ space ∉ time ∧ ∀ field ∈ rest, space ∉ field := by
      simpa only [List.forall_mem_cons] using plain
    refine List.forall_mem_cons.mpr ⟨first_, List.forall_mem_cons.mpr ⟨second, List.forall_mem_cons.mpr ⟨?_, ?_⟩⟩⟩
    · split
      · exact fun member => third (List.mem_of_mem_take member)
      · exact third
    · exact fun field member => others field (kept_.subset member)

/-- A header that is returned without a problem is normal if and only if all that is left of it was looked at. -/
theorem verifyHeader_normal_iff (first : Bytes → Option Char) (header header' : Bytes) (enough : 3 ≤ (header.splitOn space).length)
    (ok : verifyHeader first header = some (header', false)) : Normal first header' ↔ AllSeen first header := by
  obtain ⟨heading, station, time, rest, fields⟩ : ∃ heading station time rest, header.splitOn space = heading :: station :: time :: rest := by
    match fields : header.splitOn space with
    | heading :: station :: time :: rest => exact ⟨heading, station, time, rest, rfl⟩
    | [] | [_] | [_, _] =>
      rw [fields] at enough
      simp at enough
  obtain ⟨kept, removed, is, well, fields'⟩ := verified_fields fields ok
  unfold AllSeen
  rw [fields, List.drop_succ_cons, List.drop_succ_cons, List.drop_succ_cons, List.drop_zero, ← is.allValid_iff]
  constructor
  · intro normal
    obtain ⟨heading', station', time', rest', same, -, all⟩ := normal.fields
    rw [fields'] at same
    cases same
    exact all
  · intro all
    refine ⟨⟨_, _, _, _, fields', well, all⟩, ?_⟩
    have six : ¬ (if time.length > 6 then time.take 6 else time).length > 6 := by
      rw [well_formed_length well]
      decide
    rw [verifyHeader_eq fields', if_neg six, well, if_neg Bool.false_ne_true, verifyRest_of_valid all, Option.map_some, if_neg]
    simp [well_formed_length well]

/-- The first character of ASCII text. -/
def ascii (field : Bytes) : Option Char := field.head?.map fun c => Char.ofNat c.toNat

/-- `SACN37 CWAO 300651Z RRA CCB`, with its group cut to six digits. -/
theorem two_corrections : Normal ascii ([83, 65, 67, 78, 51, 55, 32, 67, 87, 65, 79, 32, 51, 48, 48, 54, 53, 49, 32, 82, 82, 65, 32, 67, 67, 66]) :=
  (verifyHeader_normal_iff ascii
    [83, 65, 67, 78, 51, 55, 32, 67, 87, 65, 79, 32, 51, 48, 48, 54, 53, 49, 90, 32, 82, 82, 65, 32, 67, 67, 66] _ (by decide) (by decide)).mpr
      (fun _ _ _ _ same => by cases same)

/-- `SACN37 CWAO 300651 RRA X Y` loses its last field, and `X` the next time. -/
theorem unseen_fifth : ¬ ∀ first header header', 3 ≤ (header.splitOn space).length → verifyHeader first header = some (header', false) →
    Normal first header' := by
  intro normal
  have again := (normal ascii [83, 65, 67, 78, 51, 55, 32, 67, 87, 65, 79, 32, 51, 48, 48, 54, 53, 49, 32, 82, 82, 65, 32, 88, 32, 89]
    [83, 65, 67, 78, 51, 55, 32, 67, 87, 65, 79, 32, 51, 48, 48, 54, 53, 49, 32, 82, 82, 65, 32, 88] (by decide) (by decide)).again
  exact absurd again (by decide)

end Header
end Sarracenia.Guarantees.Bulletin
