import Sarracenia.Guarantees.ConfigFile.Masks
import Sarracenia.Library.Split

/-!
# When a branch raises

For each branch, what of the keyword, its arguments and the configuration makes it raise.
-/
namespace Sarracenia.Guarantees.ConfigFile
open Library Library.Text Library.Decimal Library.Dynamic
open Source Source.ConfigFile
open Source.Config (durationToSeconds lower)
open Source.Conversion (among)
open Conversion (among_apart)

section Values
variable {L : Type} {w : World L} {s : Conf L} {k v : Str} {op : Char}

/-- Each character is a digit of the base. -/
def Digits (w : World L) (base : Nat) (v : Str) : Prop := ∀ c ∈ v, ∃ d < base, w.decimal c = some d

/-- A duration that can be read. -/
def Timed (w : World L) (v : Str) : Prop := ∃ seconds, durationToSeconds w.base v none = .ok seconds

def Sign (c : Char) : Prop := c = '+' ∨ c = '-'

instance (c : Char) : Decidable (Sign c) := inferInstanceAs (Decidable (c = '+' ∨ c = '-'))

theorem digits_mapM {base : Nat} : (∃ digits, v.mapM (fun c => (w.decimal c).filter (· < base)) = some digits) ↔ Digits w base v := by
  induction v with
  | nil => exact ⟨fun _ => nofun, fun _ => ⟨[], rfl⟩⟩
  | cons c v ih =>
    unfold Digits at *
    rw [List.forall_mem_cons, ← ih, List.mapM_cons]
    cases w.decimal c with
    | none => simp
    | some d =>
      by_cases small : d < base
      · cases v.mapM fun c => (w.decimal c).filter (· < base) <;> simp [Option.filter, small]
      · simp [Option.filter, small]

theorem numeral_ok_iff {base : Nat} : (∃ n, numeral w base v = .ok n) ↔ Digits w base v := by
  rw [← digits_mapM]
  unfold numeral
  cases v.mapM fun c => (w.decimal c).filter (· < base) with
  | none => simp
  | some digits => simp

theorem duration_ok_iff : (∃ a, duration w v = .ok a) ↔ Timed w v := by
  unfold duration Timed
  cases durationToSeconds w.base v none with
  | error fault => simp [bind, Except.bind]
  | ok seconds => simp [bind, Except.bind, pure, Except.pure]

theorem count_ok_iff : (∃ n, parse_count w v = .ok n) ↔ v ≠ [] := by
  unfold parse_count
  split
  · exact iff_of_false nofun fun some_ => some_ rfl
  · exact iff_of_true ⟨_, rfl⟩ nofun
  · next first _ => exact iff_of_true ⟨_, rfl⟩ first

theorem signed_none_iff : signed op v = none ↔ ∀ c ∈ v, Sign c := by
  induction v generalizing op with
  | nil => simp [signed]
  | cons c v ih =>
    rw [signed, List.forall_mem_cons]
    split
    · next sign => exact ih.trans (and_iff_right sign).symm
    · next plain => exact ⟨nofun, fun all => absurd all.1 plain⟩

theorem signed_plain {c : Char} (plain : ¬ Sign c) : signed op (c :: v) = some (op, c :: v) := if_neg plain

theorem signed_sign {c : Char} (sign : Sign c) : signed op (c :: v) = signed c v := if_pos sign

theorem signed_op {x : Char × Str} (given : Sign op) (is : signed op v = some x) : Sign x.1 := by
  induction v generalizing op with
  | nil => cases is
  | cons c v ih =>
    rw [signed] at is
    split at is
    · next sign => exact ih sign is
    · cases is
      exact given

theorem replaced_map (v : Str) : replaceAll ['|'] [','] v = v.map fun c => if c = '|' then ',' else c := by
  rw [replaceAll_char]
  induction v with
  | nil => rfl
  | cons c v ih =>
    rw [List.flatMap_cons, ih, List.map_cons]
    split <;> rfl

theorem replaced_sign (c : Char) : Sign (if c = '|' then ',' else c) ↔ Sign c := by
  split
  · next bar =>
    subst bar
    decide
  · exact Iff.rfl

/-- Choices are read from what is left behind the signs, and are added to a set or taken from one. -/
theorem parse_set_ok_iff {old : Attr} : (∃ a, _parse_set_string v old = .ok a) ↔
    (∃ c ∈ v, ¬ Sign c) ∧ ((∃ c ∈ v.head?, Sign c) → ∃ members, old = .set members) := by
  have some_ : (∃ c ∈ v, ¬ Sign c) ↔ ∃ c ∈ replaceAll ['|'] [','] v, ¬ Sign c := by
    simp only [replaced_map, List.mem_map, exists_exists_and_eq_and, replaced_sign]
  have first : (∃ c ∈ v.head?, Sign c) ↔ ∃ c ∈ (replaceAll ['|'] [','] v).head?, Sign c := by
    rw [replaced_map]
    cases v with
    | nil => exact Iff.rfl
    | cons c v => simp [replaced_sign]
  rw [some_, first]
  unfold _parse_set_string
  generalize replaceAll ['|'] [','] v = v
  dsimp only
  split
  · next word =>
    subst word
    refine iff_of_true ⟨_, rfl⟩ ⟨⟨'N', by simp, by decide⟩, ?_⟩
    intro ⟨c, head, sign⟩
    cases head
    exact absurd sign (by decide)
  · cases is : signed 'r' v with
    | none =>
      refine iff_of_false nofun fun both => ?_
      obtain ⟨c, member, plain⟩ := both.1
      exact plain (signed_none_iff.mp is c member)
    | some x =>
      obtain ⟨op, rest⟩ := x
      have left : ∃ c ∈ v, ¬ Sign c := by
        by_contra none_
        push Not at none_
        cases is.symm.trans (signed_none_iff.mpr none_)
      rw [and_iff_right left]
      cases v with
      | nil => cases is
      | cons c v =>
        by_cases sign : Sign c
        · have signs : Sign op := by
            rw [signed_sign sign] at is
            exact signed_op (x := (op, rest)) sign is
          have other : op ≠ 'r' := by
            rintro rfl
            exact absurd signs (by decide)
          have begins : ∃ d ∈ (c :: v).head?, Sign d := ⟨c, rfl, sign⟩
          dsimp only
          rw [if_neg other, forall_prop_of_true begins]
          cases old <;> simp
        · rw [signed_plain sign] at is
          cases is
          refine iff_of_true ⟨_, rfl⟩ fun ⟨d, head, signed⟩ => ?_
          cases head
          exact absurd signed sign

end Values

section Branches
variable {L : Type} {w : World L} {s : Conf L} {b : Branch} {k v : Str} {more : List Str}

/-- What a branch needs in order not to raise. -/
def Works (w : World L) (s : Conf L) (k v : Str) (more : List Str) : Branch → Prop
  | .declare =>
    among ["option", "o"] v = false ∧
      (among declaring_env v = true ∨ among declaring_user v = true ∨ v = "exchange".toList → more ≠ [])
  | .feeder => ∃ user, w.username v = .ok user
  | .subtopic => (w.bind (s.setattr "subtopic_seen".toList (.bool true)).attr v (k = "topic".toList) s.links).raised = none
  | .identity => v = [] → ∃ a, s.attr "identity_method".toList = some a ∧ ∀ item items, a ≠ .list (item :: items)
  | .unplugin => False
  | .inflight => v.dropLast ≠ [] → (∀ c ∈ v.dropLast, w.numeric c = true) → Timed w v
  | .strip => if isdigit w v then Digits w 10 v else v ≠ []
  | .duration => Timed w v
  | .perm => isdigit w v = true → Digits w 8 v
  | .count => v ≠ []
  | .list => ∀ a, s.attr k = some a → a.falsy = true ∨ ∃ items, a = .list items
  | .set => among ["none", "all", "+all"] (lower v) = false → (∃ c ∈ v, ¬ Sign c) ∧
    ∃ a, s.attr k = some a ∧ ((∃ c ∈ v.head?, Sign c) → ∃ members, a = .set members)
  | .str =>
    (among ["admin", "broker", "post_broker"] k = true → (w.assign s.attr k (strValue k (join [' '] (v :: more))) s.links).2 = none) ∧
      (k = "directory".toList → s.attr "download".toList ≠ none)
  | .other => ∀ n, s.attr k = some (.int n) → Timed w (join [' '] (v :: more))
  | _ => True

theorem attempt_raised {r : Except Fault (Conf L)} : (attempt s r).2 = none ↔ ∃ s', r = .ok s' := by
  cases r with
  | error fault => exact ⟨nofun, nofun⟩
  | ok s' => exact ⟨fun _ => ⟨s', rfl⟩, fun _ => rfl⟩

theorem exists_map {α β : Type} {r : Except Fault α} {f : α → β} : (∃ y, r.map f = .ok y) ↔ ∃ x, r = .ok x := by
  cases r with
  | error fault => exact ⟨nofun, nofun⟩
  | ok x => exact ⟨fun _ => ⟨x, rfl⟩, fun _ => ⟨f x, rfl⟩⟩

theorem attempt_map {α : Type} {r : Except Fault α} {f : α → Conf L} : (attempt s (r.map f)).2 = none ↔ ∃ x, r = .ok x :=
  attempt_raised.trans exists_map

theorem declare_raised : (attempt s (_parse_declare s (v :: more))).2 = none ↔ Works w s k v more .declare := by
  rw [attempt_raised]
  unfold _parse_declare Works
  dsimp only
  split
  · next env =>
    have other : among ["option", "o"] v = false := among_apart (by decide) env
    cases more with
    | nil => exact iff_of_false nofun fun both => both.2 (.inl env) rfl
    | cons word more =>
      refine iff_of_true ?_ ⟨other, fun _ => nofun⟩
      dsimp only
      split <;> exact ⟨_, rfl⟩
  · next env =>
    split
    · next option => exact iff_of_false nofun fun both => absurd option (ne_true_of_eq_false both.1)
    · next option =>
      have plain : among ["option", "o"] v = false := eq_false_of_ne_true option
      rw [and_iff_right plain]
      split
      · next user =>
        cases more with
        | nil => exact iff_of_false nofun fun some_ => some_ (.inr (.inl user)) rfl
        | cons user more => exact iff_of_true ⟨_, rfl⟩ fun _ => nofun
      · next user =>
        split
        · next exchange =>
          cases more with
          | nil => exact iff_of_false nofun fun some_ => some_ (.inr (.inr exchange)) rfl
          | cons exchange more => exact iff_of_true ⟨_, rfl⟩ fun _ => nofun
        · next exchange =>
          refine iff_of_true ⟨_, rfl⟩ ?_
          rintro (is | is | is)
          · exact absurd is env
          · exact absurd is user
          · exact absurd is exchange

theorem sum_raised : (attempt s (_parse_sum s v)).2 = none ↔ Works w s k v more .identity := by
  rw [attempt_raised]
  unfold _parse_sum Works
  dsimp only
  split
  · next some_ => exact iff_of_true ⟨_, rfl⟩ fun none_ => absurd none_ some_
  · next none_ =>
    rw [forall_prop_of_true (not_not.mp none_)]
    cases s.attr "identity_method".toList with
    | none => simp
    | some a =>
      cases a with
      | list items => cases items <;> simp
      | _ => simp

theorem inflight_raised : (attempt s (s.inflight w k v)).2 = none ↔ Works w s k v more .inflight := by
  rw [attempt_raised]
  unfold Conf.inflight Works
  dsimp only
  split
  · next timed =>
    obtain ⟨some_, all⟩ := Bool.and_eq_true_iff.mp timed
    rw [forall_prop_of_true (by simpa using some_), forall_prop_of_true (List.all_eq_true.mp all), ← duration_ok_iff]
    cases duration w v with
    | error fault => exact iff_of_false nofun nofun
    | ok vv => exact iff_of_true ⟨_, rfl⟩ ⟨_, rfl⟩
  · next plain =>
    refine iff_of_true ⟨_, rfl⟩ fun some_ all => absurd ?_ plain
    exact Bool.and_eq_true_iff.mpr ⟨by simpa using some_, List.all_eq_true.mpr all⟩

theorem strip_raised : (attempt s (s.strip_ w v)).2 = none ↔ Works w s k v more .strip := by
  rw [attempt_raised]
  unfold Conf.strip_ Works
  dsimp only
  split
  · rw [← numeral_ok_iff]
    cases numeral w 10 v with
    | error fault => exact iff_of_false nofun nofun
    | ok n => exact iff_of_true ⟨_, rfl⟩ ⟨_, rfl⟩
  · cases v with
    | nil => exact iff_of_false nofun fun some_ => some_ rfl
    | cons c v =>
      refine iff_of_true ?_ nofun
      split <;> first | exact ⟨_, rfl⟩ | contradiction

theorem extend_raised {text : Str} : (attempt s (s.extend k text)).2 = none ↔ Works w s k v more .list := by
  rw [attempt_raised]
  unfold Conf.extend Works
  dsimp only
  cases s.attr k with
  | none => simp
  | some a =>
    simp only [Option.some.injEq, forall_eq']
    split
    · next falsy => exact iff_of_true ⟨_, rfl⟩ (.inl falsy)
    · next truthy => cases a <;> simp [truthy]

theorem choose_raised : (attempt s (s.choose k v)).2 = none ↔ Works w s k v more .set := by
  rw [attempt_raised]
  unfold Conf.choose Works
  dsimp only
  have words : among ["none", "all", "+all"] (lower v) = (decide (lower v = "none".toList) || among ["all", "+all"] (lower v)) :=
    congrArg (· || _) (decide_eq_decide.mpr eq_comm)
  rw [words]
  split
  · next none_ => exact iff_of_true ⟨_, rfl⟩ fun other => by rw [decide_eq_true none_] at other; cases other
  · next some_ =>
    rw [decide_eq_false some_, Bool.false_or]
    split
    · next all => exact iff_of_true ⟨_, rfl⟩ fun other => absurd all (ne_true_of_eq_false other)
    · next part =>
      rw [forall_prop_of_true (eq_false_of_ne_true part)]
      cases s.attr k with
      | none => exact iff_of_false nofun fun both => by simp at both
      | some old =>
        dsimp only
        rw [exists_map, parse_set_ok_iff]
        simp only [Option.some.injEq, exists_eq_left']

theorem setStr_raised : (s.setStr w k (join [' '] (v :: more))).2 = none ↔ Works w s k v more .str := by
  unfold Conf.setStr Works
  dsimp only
  split
  · next broker =>
    have other : k ≠ "directory".toList := by
      rintro rfl
      exact absurd broker (by decide)
    exact ⟨fun set => ⟨fun _ => set, fun same => absurd same other⟩, fun both => both.1 broker⟩
  · next plain =>
    rw [and_iff_right fun broker => absurd broker plain]
    split
    · next missing => exact iff_of_false nofun fun there => there missing.1 missing.2
    · next other => exact iff_of_true rfl fun same missing => other ⟨same, missing⟩

theorem undeclared_raised {cfname : Str} {lineno : Nat} :
    (attempt s (s.undeclared w cfname lineno k (join [' '] (v :: more)))).2 = none ↔ Works w s k v more .other := by
  rw [attempt_raised]
  unfold Conf.undeclared Works
  dsimp only
  cases s.attr k with
  | none => simp
  | some a =>
    cases a with
    | int n =>
      dsimp only
      rw [exists_map, duration_ok_iff]
      simp
    | _ => simp

/-- A branch raises unless it has what it needs. -/
theorem perform_raised (cfname : Str) (lineno : Nat) : (perform w s b cfname lineno k v more).2 = none ↔ Works w s k v more b := by
  cases b with
  | declare => exact declare_raised
  | feeder => exact attempt_map
  | header =>
    unfold perform
    exact iff_of_true rfl trivial
  | subtopic => exact Iff.rfl
  | identity => exact sum_raised
  | unplugin => exact ⟨nofun, nofun⟩
  | inflight => exact inflight_raised
  | strip => exact strip_raised
  | duration => exact attempt_map.trans duration_ok_iff
  | perm =>
    unfold perform Works
    dsimp only
    split
    · next digit => exact (attempt_map.trans numeral_ok_iff).trans ⟨fun digits _ => digits, fun digits => digits digit⟩
    · next other => exact iff_of_true rfl fun digit => absurd digit other
  | count => exact attempt_map.trans count_ok_iff
  | list => exact extend_raised
  | set => exact choose_raised
  | str => exact setStr_raised
  | other => exact undeclared_raised
  | mask | late | early | include_ | topicPrefix | import_ | setting | port | entry | float => exact iff_of_true rfl trivial

end Branches

end Sarracenia.Guarantees.ConfigFile
