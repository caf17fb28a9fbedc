import Sarracenia.Guarantees.Conversion.Lines
import Mathlib.Data.List.Forall2

/-!
# No option is lost by a conversion

What is written is written line by line, so that it is told by each line alone whether its option is in the new file once,
and by the order of the lines whether what is to be moved stands before any subtopic.
-/
namespace Sarracenia.Guarantees.Conversion
open Library Library.Text Library.Dynamic Source.Conversion

section Pass
variable {σ : Type} {f : σ → Str → Except Fault (σ × List Write)} {s s' : σ} {lines : List Str} {writes : List (List Write)} {l : Str}

theorem pass_ends (each : ∀ l ∈ lines, ∀ s, Ends (f s l)) (s : σ) : Ends (pass f s lines) := by
  induction lines generalizing s with
  | nil => exact ends_ok _
  | cons l lines ih =>
    obtain ⟨⟨s', written⟩, is⟩ := each l List.mem_cons_self s
    obtain ⟨⟨s'', rest⟩, run⟩ := ih (fun l member => each l (List.mem_cons_of_mem _ member)) s'
    refine ⟨(s'', written :: rest), ?_⟩
    rw [Source.Conversion.pass]
    exact bind_ok_iff.mpr ⟨_, is, bind_ok_iff.mpr ⟨_, run, rfl⟩⟩

/-- What is written for a line is written in some state. -/
theorem pass_forall₂ (run : pass f s lines = .ok (s', writes)) :
    List.Forall₂ (fun l written => ∃ s s', f s l = .ok (s', written)) lines writes := by
  induction lines generalizing s writes with
  | nil =>
    cases run
    exact .nil
  | cons l lines ih =>
    rw [Source.Conversion.pass] at run
    obtain ⟨⟨s₁, written⟩, is, run⟩ := bind_ok_iff.mp run
    obtain ⟨⟨s₂, rest⟩, later, run⟩ := bind_ok_iff.mp run
    cases run
    exact .cons ⟨s, s₁, is⟩ (ih later)

end Pass

section Runs
variable {component cfg : Str} {lines : List Str} {c : Converted}

/-- An option of a name for which `p` holds. -/
def Named (p : Str → Bool) (w : Write) : Prop := ∃ name args, Write.option w = some (name, args) ∧ p (resolve name) = true

/-- Every option is written once, and those that are moved stand before any subtopic. -/
structure Lossless (component : Str) (lines : List Str) (c : Converted) : Prop where
  once : List.Forall₂ (Conveyed component) lines (List.zipWith (· ++ ·) c.moved c.rewritten)
  early : c.writes.Pairwise fun before after => Named (among ["subtopic"]) before → ¬ Named toMove after

/-- A line of an option of this name. -/
def Sets (right : String) (l : Str) : Prop := ∃ verb args, optionOf l = some (verb, args) ∧ resolve verb = right.toList

/-- No line raises an exception, none has a name on which the passes differ or a date in what is moved, and no age stands
behind a subtopic. -/
structure Convertible (component : Str) (lines : List Str) : Prop where
  sound : ∀ l ∈ lines, ∀ verb args, optionOf l = some (verb, args) → ¬ Raises component (resolve verb) args
  placed : ∀ l ∈ lines, ∀ verb args, optionOf l = some (verb, args) →
    ¬ among misplaced verb = true ∧ (among verbs_to_move verb = true → dated args = args)
  ordered : lines.Pairwise fun before after => Sets "subtopic" before → ¬ Sets "post_messageAgeMax" after

/-- Both passes, line by line. -/
theorem convert1_lines (is : convert1 component cfg lines = .ok c) :
    List.Forall₂ (fun l written => ∃ s s', firstPass s l = .ok (s', written)) lines c.moved ∧
      List.Forall₂ (fun l written => ∃ s s', secondPass component s l = .ok (s', written)) lines c.rewritten := by
  unfold convert1 at is
  obtain ⟨⟨first, moved⟩, run, is⟩ := bind_ok_iff.mp is
  obtain ⟨⟨second, rewritten⟩, run', is⟩ := bind_ok_iff.mp is
  cases is
  exact ⟨pass_forall₂ run, pass_forall₂ run'⟩

theorem convert1_ends (cfg : Str) (sound : ∀ l ∈ lines, ∀ verb args, optionOf l = some (verb, args) → ¬ Raises component (resolve verb) args) :
    Ends (convert1 component cfg lines) := by
  have named : ∀ l ∈ lines, ∀ verb args, optionOf l = some (verb, args) → resolve verb = "queueName".toList → args ≠ [] := by
    intro l member verb args option queue bare
    exact sound l member verb args option ((queue_raises queue).mpr bare)
  obtain ⟨⟨first, moved⟩, run⟩ := pass_ends (f := firstPass) (fun l member => first_ends (named l member)) ⟨false, false, none⟩
  obtain ⟨⟨second, rewritten⟩, run'⟩ :=
    pass_ends (f := secondPass component) (fun l member => second_ends (sound l member)) ⟨first.queueName, false, none, false⟩
  unfold convert1
  exact ⟨_, bind_ok_iff.mpr ⟨_, run, bind_ok_iff.mpr ⟨_, run', rfl⟩⟩⟩

end Runs

section Order
variable {α β : Type} {P Q : β → Prop} {l₁ l₂ : List β}

theorem pairwise_quiet_before (quiet : ∀ b ∈ l₁, ¬ P b) :
    (l₁ ++ l₂).Pairwise (fun before after => P before → ¬ Q after) ↔ l₂.Pairwise fun before after => P before → ¬ Q after := by
  rw [List.pairwise_append]
  constructor
  · exact fun parts => parts.2.1
  · intro later
    refine ⟨?_, later, fun a member b _ holds => absurd holds (quiet a member)⟩
    exact List.pairwise_of_forall_mem_list fun a member b _ holds => absurd holds (quiet a member)

theorem pairwise_quiet_after (quiet : ∀ b ∈ l₂, ¬ Q b) :
    (l₁ ++ l₂).Pairwise (fun before after => P before → ¬ Q after) ↔ l₁.Pairwise fun before after => P before → ¬ Q after := by
  rw [List.pairwise_append]
  constructor
  · exact fun parts => parts.1
  · intro first
    refine ⟨first, ?_, fun a _ b member _ => quiet b member⟩
    exact List.pairwise_of_forall_mem_list fun a _ b member _ => quiet b member

theorem exists_flatten_iff {F : α → List β → Prop} {T : α → Prop} {lines : List α} {written : List (List β)}
    (each : List.Forall₂ F lines written) (after : ∀ l ws, F l ws → ((∃ w ∈ ws, Q w) ↔ T l)) :
    (∃ w ∈ written.flatten, Q w) ↔ ∃ l ∈ lines, T l := by
  induction each with
  | nil => exact iff_of_false nofun nofun
  | @cons l ws lines rest here later ih =>
    rw [List.flatten_cons, List.exists_mem_cons_iff, ← ih, ← after l ws here]
    constructor
    · rintro ⟨w, member, holds⟩
      exact (List.mem_append.mp member).imp (fun there => ⟨w, there, holds⟩) fun there => ⟨w, there, holds⟩
    · rintro (⟨w, member, holds⟩ | ⟨w, member, holds⟩)
      · exact ⟨w, List.mem_append_left _ member, holds⟩
      · exact ⟨w, List.mem_append_right _ member, holds⟩

/-- The order of what is written is that of the lines for which it is written. -/
theorem pairwise_flatten_iff {F : α → List β → Prop} {S T : α → Prop} {lines : List α} {written : List (List β)}
    (each : List.Forall₂ F lines written) (before : ∀ l ws, F l ws → ((∃ w ∈ ws, P w) ↔ S l))
    (after : ∀ l ws, F l ws → ((∃ w ∈ ws, Q w) ↔ T l)) (apart : ∀ l, S l → ¬ T l) :
    written.flatten.Pairwise (fun before after => P before → ¬ Q after) ↔ lines.Pairwise fun before after => S before → ¬ T after := by
  induction each with
  | nil => exact iff_of_true .nil .nil
  | @cons l ws lines rest here later ih =>
    rw [List.flatten_cons, List.pairwise_append, ih, List.pairwise_cons]
    have own : ws.Pairwise fun before after => P before → ¬ Q after := List.pairwise_of_forall_mem_list fun a member b member' holds wrong =>
      apart l ((before l ws here).mp ⟨a, member, holds⟩) ((after l ws here).mp ⟨b, member', wrong⟩)
    have cross : (∀ a ∈ ws, ∀ b ∈ rest.flatten, P a → ¬ Q b) ↔ ∀ l' ∈ lines, S l → ¬ T l' := by
      constructor
      · intro none l' member holds wrong
        obtain ⟨a, there, holds⟩ := (before l ws here).mpr holds
        obtain ⟨b, there', wrong⟩ := (exists_flatten_iff later after).mpr ⟨l', member, wrong⟩
        exact none a there b there' holds wrong
      · intro none a there b there' holds wrong
        obtain ⟨l', member, wrong⟩ := (exists_flatten_iff later after).mp ⟨b, there', wrong⟩
        exact none l' member ((before l ws here).mp ⟨a, there, holds⟩) wrong
    rw [cross]
    exact ⟨fun parts => ⟨parts.2.2, parts.2.1⟩, fun parts => ⟨own, parts.2, parts.1⟩⟩

end Order

section Subtopics
variable {component cfg l : Str} {lines : List Str} {c : Converted} {written : List Write} {w : Write}

theorem right_fixed {k : Str} (right : among ("subtopic" :: rights) k = true) : resolve k = k := by
  obtain ⟨name, member, rfl⟩ := among_iff.mp right
  have each : ∀ name ∈ "subtopic" :: rights, rightName name = name := by decide
  rw [resolve_name, each name member]

/-- An option in question is written for a line of this option that was not moved. -/
theorem second_named {s s' : Second} {p : Str → Bool} (is : secondPass component s l = .ok (s', written)) (member : w ∈ written)
    (named : Named p w) (right : ∀ k, p k = true → among ("subtopic" :: rights) k = true) :
    ∃ verb args, optionOf l = some (verb, args) ∧ ¬ among verbs_to_move verb = true ∧ p (resolve verb) = true := by
  obtain ⟨name, args', option', holds⟩ := named
  have there : (name, args') ∈ written.filterMap Write.option := List.mem_filterMap.mpr ⟨w, member, option'⟩
  cases option : optionOf l with
  | none =>
    rw [second_none option is] at there
    cases there
  | some given =>
    obtain ⟨verb, args⟩ := given
    rcases second_some option is with ⟨-, rfl⟩ | ⟨stays, fate, is', all⟩
    · cases member
    · refine ⟨verb, args, rfl, stays, ?_⟩
      rw [all, Option.mem_toList] at there
      cases fate with
      | written line =>
        have named : line.k = name := by
          unfold Fate.option Write.option at there
          dsimp only at there
          split at there
          · cases there
          · exact (Prod.mk.inj (Option.some.inj there)).1
        rw [← named] at holds
        rcases rewrite_written is' with own | given | table
        · rw [own] at holds
          rwa [resolve_settled verb (right _ holds)] at holds
        · rwa [given] at holds
        · obtain ⟨name', member', is⟩ := among_iff.mp table
          have each : ∀ name ∈ made, ¬ ("subtopic" :: rights).contains (rightName name) = true := by decide
          have wrong := right _ holds
          rw [is, resolve_name, among_name] at wrong
          exact absurd wrong (each name' member')
      | _ => cases there

/-- Such a line is written as it stands. -/
theorem right_written {s s' : Second} {verb : Str} {args : List Str} (is : secondPass component s l = .ok (s', written))
    (option : optionOf l = some (verb, args)) (right : among ("subtopic" :: rights) (resolve verb) = true)
    (stays : ¬ among verbs_to_move verb = true) : ∃ w ∈ written, Write.option w = some (resolve verb, dated args) := by
  rcases second_some option is with ⟨passed, -⟩ | ⟨-, fate, is', all⟩
  · exact absurd passed (not_or.mpr ⟨stays, (right_plain right).2.2.1⟩)
  · cases is'.symm.trans (rewrite_right right)
    have there : (resolve verb, dated args) ∈ written.filterMap Write.option := by
      rw [all, option_right right]
      exact List.mem_singleton.mpr rfl
    exact List.mem_filterMap.mp there

theorem subtopic_right {k : Str} (is : among ["subtopic"] k = true) : among ("subtopic" :: rights) k = true := by
  obtain ⟨name, member, rfl⟩ := among_iff.mp is
  exact among_iff.mpr ⟨name, List.mem_cons.mpr (.inl (List.mem_singleton.mp member)), rfl⟩

theorem toMove_right {k : Str} (is : toMove k = true) : among ("subtopic" :: rights) k = true := by
  rw [toMove_eq] at is
  obtain ⟨name, member, rfl⟩ := among_iff.mp is
  exact among_iff.mpr ⟨name, List.mem_cons_of_mem _ member, rfl⟩

theorem named_subtopic_iff {s s' : Second} (is : secondPass component s l = .ok (s', written)) :
    (∃ w ∈ written, Named (among ["subtopic"]) w) ↔ Sets "subtopic" l := by
  constructor
  · rintro ⟨w, member, named⟩
    obtain ⟨verb, args, option, -, named⟩ := second_named is member named fun _ => subtopic_right
    obtain ⟨name, member, is⟩ := among_iff.mp named
    exact ⟨verb, args, option, List.mem_singleton.mp member ▸ is⟩
  · rintro ⟨verb, args, option, named⟩
    have single : among ["subtopic"] (resolve verb) = true := among_iff.mpr ⟨"subtopic", List.mem_singleton.mpr rfl, named⟩
    have stays : ¬ among verbs_to_move verb = true := by
      intro moves
      obtain ⟨name, member, rfl⟩ := among_iff.mp moves
      have each : ∀ name ∈ verbs_to_move, rightName name ≠ "subtopic" := by decide
      rw [resolve_name] at named
      exact each name member (String.toList_inj.mp named)
    obtain ⟨w, member, is⟩ := right_written is option (subtopic_right single) stays
    exact ⟨w, member, _, _, is, (right_fixed (subtopic_right single)).symm ▸ single⟩

theorem named_toMove_iff {s s' : Second} (is : secondPass component s l = .ok (s', written))
    (placed : ∀ verb args, optionOf l = some (verb, args) → ¬ among misplaced verb = true) :
    (∃ w ∈ written, Named toMove w) ↔ Sets "post_messageAgeMax" l := by
  constructor
  · rintro ⟨w, member, named⟩
    obtain ⟨verb, args, option, stays, right⟩ := second_named is member named fun _ => toMove_right
    refine ⟨verb, args, option, ?_⟩
    rw [toMove_eq] at right
    obtain ⟨name, member, is⟩ := among_iff.mp right
    have each : ∀ name ∈ rights, name = "post_messageAgeMax" ∨ verbs_to_move.contains name = true := by decide
    rcases each name member with rfl | moved
    · exact is
    · rw [← among_name, ← is] at moved
      rcases moved_or_alias moved with wrong | wrong
      · exact absurd wrong stays
      · exact absurd (misplaced_iff.mpr (.inr (.inr wrong))) (placed verb args option)
  · rintro ⟨verb, args, option, named⟩
    have right : among rights (resolve verb) = true := among_iff.mpr ⟨"post_messageAgeMax", by decide, named⟩
    rw [← toMove_eq] at right
    have stays : ¬ among verbs_to_move verb = true := by
      intro moves
      rcases moved_own moves with rfl | own
      · exact placed _ args option (misplaced_iff.mpr (.inl rfl))
      · rw [← own, named] at moves
        exact absurd moves (by decide)
    obtain ⟨w, member, is⟩ := right_written is option (toMove_right right) stays
    exact ⟨w, member, _, _, is, (right_fixed (toMove_right right)).symm ▸ right⟩

/-- No subtopic is moved. -/
theorem first_named {s s' : First} (is : firstPass s l = .ok (s', written)) (member : w ∈ written) :
    ¬ Named (among ["subtopic"]) w := by
  rintro ⟨name, args', option', named⟩
  have there : (name, args') ∈ written.filterMap Write.option := List.mem_filterMap.mpr ⟨w, member, option'⟩
  cases option : optionOf l with
  | none =>
    rw [first_none option is] at there
    cases there
  | some given =>
    rw [first_some option is] at there
    split at there
    · next moved =>
      obtain rfl := (Prod.mk.inj (List.mem_singleton.mp there)).1
      obtain ⟨name, member, is⟩ := among_iff.mp moved
      rw [is, among_name] at named
      have each : ∀ name ∈ verbs_to_move, ¬ ["subtopic"].contains name = true := by decide
      exact each name member named
    · cases there

/-- The options are in what is written line by line. -/
theorem convert1_quiet (is : convert1 component cfg lines = .ok c) {p : Str → Bool} :
    (∀ w ∈ c.heading, ¬ Named p w) ∧ (∀ w ∈ c.inflight, ¬ Named p w) ∧ ∀ w ∈ c.ending, ¬ Named p w := by
  have text (texts : List Write) (all : texts.filterMap Write.option = []) : ∀ w ∈ texts, ¬ Named p w := by
    rintro w member ⟨name, args, option, -⟩
    have there := List.mem_filterMap.mpr ⟨w, member, option⟩
    rw [all] at there
    cases there
  unfold convert1 at is
  obtain ⟨⟨first, moved⟩, -, is⟩ := bind_ok_iff.mp is
  obtain ⟨⟨second, rewritten⟩, -, is⟩ := bind_ok_iff.mp is
  cases is
  refine ⟨text _ ?_, text _ ?_, text _ ?_⟩
  · unfold heading
    dsimp only
    split
    · split
      · rfl
      · rfl
    · split
      · rfl
      · rfl
  · unfold inflight
    dsimp only
    split
    · rfl
    · rfl
  · unfold ending
    dsimp only
    split
    · rfl
    · split
      · rfl
      · split
        · rfl
        · rfl

/-- The moved options of the second pass, and the subtopics. -/
theorem early_iff (is : convert1 component cfg lines = .ok c)
    (placed : ∀ l ∈ lines, ∀ verb args, optionOf l = some (verb, args) → ¬ among misplaced verb = true) :
    c.writes.Pairwise (fun before after => Named (among ["subtopic"]) before → ¬ Named toMove after) ↔
      lines.Pairwise fun before after => Sets "subtopic" before → ¬ Sets "post_messageAgeMax" after := by
  obtain ⟨moved, rewritten⟩ := convert1_lines is
  have quiet : ∀ w ∈ c.moved.flatten, ¬ Named (among ["subtopic"]) w := by
    intro w member named
    obtain ⟨-, -, wrong⟩ := (exists_flatten_iff (T := fun _ => False) moved fun l ws is =>
      iff_of_false (fun ⟨w, member, named⟩ => first_named is.choose_spec.choose_spec member named) id).mp ⟨w, member, named⟩
    exact wrong
  have apart (l : Str) : Sets "subtopic" l → ¬ Sets "post_messageAgeMax" l := by
    rintro ⟨verb, args, option, is⟩ ⟨verb', args', option', is'⟩
    cases option.symm.trans option'
    exact absurd (is.symm.trans is') (by decide)
  unfold Converted.writes
  rw [pairwise_quiet_after (convert1_quiet is).2.2, List.append_assoc, List.append_assoc,
    pairwise_quiet_before (convert1_quiet is).1, pairwise_quiet_before quiet, pairwise_quiet_before (convert1_quiet is).2.1]
  exact pairwise_flatten_iff ((List.forall₂_and_left _ _).mpr ⟨placed, rewritten⟩) (fun l ws both => named_subtopic_iff both.2.choose_spec.choose_spec)
    (fun l ws both => named_toMove_iff both.2.choose_spec.choose_spec both.1) apart

end Subtopics

section Main
variable {α β : Type} {F G R : α → List β → Prop} {p : α → Prop} {lines : List α} {us vs : List (List β)}

theorem forall₂_zip (first : List.Forall₂ F lines us) (second : List.Forall₂ G lines vs) :
    List.Forall₂ (fun l ws => ∃ u v, F l u ∧ G l v ∧ ws = u ++ v) lines (List.zipWith (· ++ ·) us vs) := by
  induction first generalizing vs with
  | nil => exact List.Forall₂.nil
  | cons here _ ih =>
    cases second with
    | cons here' later' => exact .cons ⟨_, _, here, here', rfl⟩ (ih later')

theorem forall₂_left_iff (each : List.Forall₂ F lines us) (same : ∀ l ws, F l ws → (R l ws ↔ p l)) :
    List.Forall₂ R lines us ↔ ∀ l ∈ lines, p l := by
  induction each with
  | nil => exact iff_of_true .nil nofun
  | cons here _ ih => rw [List.forall₂_cons, same _ _ here, ih, List.forall_mem_cons]

end Main

section Main
variable (component cfg : Str) (lines : List Str)

/-- No option is lost, or written twice or late, exactly when no line raises an exception and each stands where both passes
take it for the same. -/
theorem lossless_conversion_iff : (∃ c, convert1 component cfg lines = .ok c ∧ Lossless component lines c) ↔ Convertible component lines := by
  have settled {c : Converted} (is : convert1 component cfg lines = .ok c) :
      (∀ l ∈ lines, ∀ verb args, optionOf l = some (verb, args) → ¬ Raises component (resolve verb) args) ∧
        (List.Forall₂ (Conveyed component) lines (List.zipWith (· ++ ·) c.moved c.rewritten) ↔
          ∀ l ∈ lines, ∀ verb args, optionOf l = some (verb, args) →
            ¬ among misplaced verb = true ∧ (among verbs_to_move verb = true → dated args = args)) := by
    obtain ⟨moved, rewritten⟩ := convert1_lines is
    have each := forall₂_zip moved rewritten
    constructor
    · refine (forall₂_left_iff (R := fun _ _ => True) each fun l ws both => ?_).mp (each.imp fun _ _ _ => trivial)
      obtain ⟨_, _, ⟨_, _, first⟩, ⟨_, _, second⟩, -⟩ := both
      exact iff_of_true trivial fun verb args option => sound_of_ok option first second
    · refine forall₂_left_iff each fun l ws both => ?_
      obtain ⟨_, _, ⟨_, _, first⟩, ⟨_, _, second⟩, rfl⟩ := both
      constructor
      · exact fun conveyed verb args option => (conveyed_iff option first second).mp conveyed
      · intro holds verb args target option owed
        exact (conveyed_iff option first second).mpr (holds verb args option) verb args target option owed
  constructor
  · rintro ⟨c, is, lossless⟩
    obtain ⟨sound, once⟩ := settled is
    have placed := once.mp lossless.once
    exact ⟨sound, placed, (early_iff is fun l member verb args option => (placed l member verb args option).1).mp lossless.early⟩
  · intro convertible
    obtain ⟨c, is⟩ := convert1_ends cfg convertible.sound
    refine ⟨c, is, (settled is).2.mpr convertible.placed, ?_⟩
    exact (early_iff is fun l member verb args option => (convertible.placed l member verb args option).1).mpr convertible.ordered

/-- The time to live of messages is not moved, and is passed over as if it were. -/
theorem time_to_live_lost : ¬ ∃ c, convert1 "subscribe".toList "subscribe/hpfx.conf".toList ["message_ttl 300\n".toList] = .ok c ∧
    Lossless "subscribe".toList ["message_ttl 300\n".toList] c := by
  rintro ⟨c, is, lossless⟩
  have option : optionOf "message_ttl 300\n".toList = some ("message_ttl".toList, ["300".toList]) := by decide
  have single : among misplaced "message_ttl".toList = true := misplaced_iff.mpr (.inl rfl)
  obtain ⟨moved, rewritten⟩ := convert1_lines is
  obtain ⟨_, _, ⟨_, _, first⟩, -, zipped⟩ := List.forall₂_cons_left_iff.mp moved
  obtain ⟨_, _, ⟨_, _, second⟩, -, zipped'⟩ := List.forall₂_cons_left_iff.mp rewritten
  have once := lossless.once
  rw [zipped, zipped', List.zipWith_cons_cons, List.forall₂_cons] at once
  exact ((conveyed_iff option first second).mp once.1).1 single

end Main
end Sarracenia.Guarantees.Conversion
