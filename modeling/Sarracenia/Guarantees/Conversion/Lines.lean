import Sarracenia.Guarantees.Conversion.Names

/-!
# The option of a line

The first pass moves an option by its right name, and the second passes it over by the name that was given. Where the two
differ, the option is written twice, or not at all.
-/
namespace Sarracenia.Guarantees.Conversion
open Library Library.Text Library.Dynamic Source.Conversion

/-- The option of a line, and its arguments. -/
def optionOf (l : Str) : Option (Str × List Str) :=
  match words l with
  | [] => none
  | verb :: args => if l.head? = some '#' then none else some (verb, args)

/-- The option that is written. -/
def Write.option : Write → Option (Str × List Str)
  | .text _ => none
  | .input l => optionOf l
  | .line l => if l.k = "\n# strip".toList then none else some (l.k, l.args)

def Fate.option : Fate → Option (Str × List Str)
  | .written line => Write.option (.line line)
  | _ => none

/-- The option that is to be in the new file, under the name and with the arguments that the second pass gives it. -/
def owed (component verb : Str) (args : List Str) : Option (Str × List Str) :=
  if resolve verb = "queueName".toList then none
  else match rewrite component verb args with
    | .ok (.written line) => if line.problem then none else Fate.option (.written line)
    | .ok .continue_ => some (verb, args)
    | _ => none

section Lines
variable {component verb l : Str} {args : List Str} {written : List Write} {fate : Fate}

@[simp] theorem option_text (s : Str) : Write.option (.text s) = none := rfl

theorem texts_option (texts : List Str) : (texts.map Write.text).filterMap Write.option = [] := by
  rw [List.filterMap_map]
  exact List.filterMap_eq_nil_iff.mpr fun _ _ => rfl

theorem first_none {s s' : First} (other : optionOf l = none) (is : firstPass s l = .ok (s', written)) : written = [] := by
  unfold optionOf at other
  unfold firstPass at is
  split at other
  · next blank =>
    rw [blank] at is
    cases is
    rfl
  · next verb args given =>
    rw [given] at is
    split at other
    · next comment =>
      dsimp only at is
      rw [if_pos comment] at is
      cases is
      rfl
    · cases other

theorem first_some {s s' : First} (option : optionOf l = some (verb, args)) (is : firstPass s l = .ok (s', written)) :
    written.filterMap Write.option = if among verbs_to_move (resolve verb) = true then [(verb, args)] else [] := by
  have again := option
  unfold optionOf at option
  unfold firstPass at is
  split at option
  · cases option
  · next verb' args' given =>
    rw [given] at is
    split at option
    · cases option
    · next plain =>
      cases option
      dsimp only at is
      rw [if_neg plain] at is
      have moved : written = if among verbs_to_move (resolve verb) = true then [.text moving, .input l] else [] := by
        split at is
        · split at is
          · cases is
          · cases is
            rfl
        · cases is
          rfl
      rw [moved]
      split
      · rw [List.filterMap_cons_none rfl, List.filterMap_cons_some (show Write.option (.input l) = _ from again)]
        rfl
      · rfl

theorem second_none {s s' : Second} (other : optionOf l = none) (is : secondPass component s l = .ok (s', written)) :
    written.filterMap Write.option = [] := by
  unfold optionOf at other
  unfold secondPass at is
  split at other
  · next blank =>
    rw [blank] at is
    cases is
    rfl
  · next verb args given =>
    rw [given] at is
    split at other
    · next comment =>
      dsimp only at is
      rw [if_pos comment] at is
      cases is
      rfl
    · cases other

theorem write_option (s : Second) (line : Line) : (s.write line).2.filterMap Write.option = (Fate.option (.written line)).toList := by
  have last : [Write.line line].filterMap Write.option = (Fate.option (.written line)).toList := by
    rw [List.filterMap_cons, show Fate.option (.written line) = Write.option (.line line) from rfl]
    cases Write.option (.line line) with
    | none => rfl
    | some option => rfl
  unfold Second.write
  dsimp only
  split
  · rw [List.filterMap_append, texts_option, List.filterMap_cons_none rfl]
    exact last
  · rw [List.filterMap_append, texts_option]
    exact last

theorem second_some {s s' : Second} (option : optionOf l = some (verb, args)) (is : secondPass component s l = .ok (s', written)) :
    (among verbs_to_move verb = true ∨ resolve verb = "queueName".toList) ∧ written = [] ∨
      ¬ among verbs_to_move verb = true ∧ ∃ fate, rewrite component verb args = .ok fate ∧
        written.filterMap Write.option = (Fate.option fate).toList := by
  unfold optionOf at option
  unfold secondPass at is
  split at option
  · cases option
  · next verb' args' given =>
    rw [given] at is
    split at option
    · cases option
    · next plain =>
      cases option
      dsimp only at is
      rw [if_neg plain] at is
      split at is
      · next moved =>
        cases is
        exact .inl ⟨.inl moved, rfl⟩
      · next stays =>
        split at is
        · next queue =>
          cases is
          exact .inl ⟨.inr queue.1, rfl⟩
        · obtain ⟨fate, rewritten, became⟩ := map_ok_iff.mp is
          refine .inr ⟨stays, fate, rewritten, ?_⟩
          have queue (name : Option Str) : ((if resolve verb = "subtopic".toList then
              (name.map fun name => Write.text ("queueName ".toList ++ name ++ ['\n'])).toList else []) : List Write).filterMap Write.option = [] := by
            split
            · cases name with
              | none => rfl
              | some name => rfl
            · rfl
          cases fate with
          | written line =>
            obtain rfl := (Prod.mk.inj became).2.symm
            rw [List.filterMap_append, queue, write_option]
            rfl
          | _ =>
            obtain rfl := (Prod.mk.inj became).2.symm
            exact queue _

end Lines
section Tables
variable {component verb k : Str} {args : List Str}

/-- The right name of an option that is to be moved to the start of the file. -/
def toMove (k : Str) : Bool := verbs_to_move.any fun verb => resolve verb.toList = k

/-- `resolve` of a name of the source. -/
def rightName (name : String) : String := ((synonyms.find? fun e => e.1 == name).map (·.2)).getD name

theorem resolve_name (name : String) : resolve name.toList = (rightName name).toList := by
  unfold resolve rightName
  rw [lookup_name]
  cases (synonyms.find? fun e => e.1 == name).map (·.2) with
  | none => rfl
  | some right => rfl

def rights : List String :=
  ["auto_delete", "durable", "expire", "post_messageAgeMax", "prefetch", "qos", "queueBind", "exchangeDeclare"]

theorem rights_eq : verbs_to_move.map rightName = rights := by decide

theorem toMove_eq (k : Str) : toMove k = among rights k := by
  unfold toMove among
  simp only [resolve_name, ← rights_eq, List.any_map]
  rfl

/-- Names of options to be moved that are no right ones. -/
def aliases : List String := ["expiry", "bind_queue", "declare_exchange"]

theorem resolve_cases (k : Str) : resolve k = k ∨ ∃ entry ∈ synonyms, entry.1.toList = k ∧ resolve k = entry.2.toList := by
  unfold resolve lookup
  cases found : synonyms.find? fun e => e.1.toList = k with
  | none => exact .inl rfl
  | some entry =>
    have named := List.find?_some found
    exact .inr ⟨entry, List.mem_of_find?_eq_some found, of_decide_eq_true named, rfl⟩

/-- What is a right name in the new file was one. -/
theorem resolve_settled (k : Str) (there : among ("subtopic" :: rights) (resolve (resolve k)) = true) : resolve (resolve k) = resolve k := by
  rcases resolve_cases (resolve k) with same | ⟨entry, member, given, is⟩
  · exact same
  · rcases resolve_cases k with same | ⟨entry', member', -, is'⟩
    · rw [same, same]
    · have each : synonyms.all (fun entry => !("subtopic" :: rights).contains entry.2 || !(synonyms.any fun e => e.2 == entry.1)) = true := by
        decide
      have checked := List.all_eq_true.mp each entry member
      rw [is, among_name] at there
      rw [there, Bool.not_true, Bool.false_or, Bool.not_eq_eq_eq_not, Bool.not_true] at checked
      have apart := List.any_eq_false.mp checked entry' member'
      exact absurd (beq_iff_eq.mpr (String.toList_inj.mp (is'.symm.trans given.symm))) apart

theorem moved_or_alias (moved : among verbs_to_move (resolve verb) = true) :
    among verbs_to_move verb = true ∨ among aliases verb = true := by
  rcases resolve_cases verb with same | ⟨entry, member, given, is⟩
  · exact .inl (same ▸ moved)
  · have each : synonyms.all (fun entry => !verbs_to_move.contains entry.2 || aliases.contains entry.1) = true := by decide
    have checked := List.all_eq_true.mp each entry member
    rw [is, among_name] at moved
    rw [moved] at checked
    exact .inr (among_iff.mpr ⟨entry.1, List.contains_iff_mem.mp checked, given.symm⟩)

theorem alias_moved (is : among aliases verb = true) :
    among verbs_to_move (resolve verb) = true ∧ ¬ among verbs_to_move verb = true := by
  obtain ⟨name, member, rfl⟩ := among_iff.mp is
  have each : ∀ name ∈ aliases, verbs_to_move.contains (rightName name) = true ∧ ¬ verbs_to_move.contains name = true := by decide
  rw [resolve_name, among_name, among_name]
  exact each name member

/-- But for the one that has a new name, the names that are moved are the right ones. -/
theorem moved_own (is : among verbs_to_move verb = true) : verb = "message_ttl".toList ∨ resolve verb = verb := by
  obtain ⟨name, member, rfl⟩ := among_iff.mp is
  have each : ∀ name ∈ verbs_to_move, name = "message_ttl" ∨ rightName name = name := by decide
  rw [resolve_name]
  exact (each name member).imp (congrArg String.toList) (congrArg String.toList)

/-- An option that is to be moved, or a subtopic, is otherwise treated as it stands. -/
theorem right_plain (is : among ("subtopic" :: rights) k = true) :
    plain k = true ∧ k ≠ "continue".toList ∧ k ≠ "queueName".toList ∧ k ≠ "\n# strip".toList := by
  obtain ⟨name, member, rfl⟩ := among_iff.mp is
  have each : ∀ name ∈ "subtopic" :: rights, plain name.toList = true := by
    simp only [plain, unlisted, lookup_name, among_name]
    decide
  have other : ∀ name ∈ "subtopic" :: rights, name ≠ "continue" ∧ name ≠ "queueName" ∧ name ≠ "\n# strip" := by decide
  obtain ⟨current, queue, strip⟩ := other name member
  exact ⟨each name member, fun is => current (String.toList_inj.mp is), fun is => queue (String.toList_inj.mp is),
    fun is => strip (String.toList_inj.mp is)⟩

theorem resolve_current : resolve verb = "continue".toList ↔ verb = "continue".toList := by
  constructor
  · intro named
    rcases resolve_cases verb with same | ⟨entry, member, -, is⟩
    · exact same.symm.trans named
    · have each : synonyms.all (fun entry => !(entry.2 == "continue")) = true := by decide
      have checked := List.all_eq_true.mp each entry member
      rw [beq_iff_eq.mpr (String.toList_inj.mp (is.symm.trans named))] at checked
      cases checked
  · rintro rfl
    rw [resolve_name]
    exact congrArg String.toList (by decide)

theorem rewrite_right (right : among ("subtopic" :: rights) (resolve verb) = true) :
    rewrite component verb args = .ok (.written ⟨[], resolve verb, dated args, false⟩) := by
  obtain ⟨as_is, current, -, -⟩ := right_plain right
  rw [rewrite_plain as_is, if_neg current]

theorem rewrite_current : rewrite component "continue".toList args = .ok .continue_ := by
  have as_is : plain (resolve "continue".toList) = true := by
    rw [resolve_current.mpr rfl]
    simp only [plain, unlisted, lookup_name, among_name]
    decide
  rw [rewrite_plain as_is, if_pos (resolve_current.mpr rfl)]

theorem option_right (right : among ("subtopic" :: rights) k = true) : Fate.option (.written ⟨[], k, args, false⟩) = some (k, args) :=
  if_neg (right_plain right).2.2.2

theorem owed_right (right : among ("subtopic" :: rights) (resolve verb) = true) :
    owed component verb args = some (resolve verb, dated args) := by
  unfold owed
  rw [if_neg (right_plain right).2.2.1, rewrite_right right]
  exact option_right right

end Tables

section Lines
variable {component verb l : Str} {args : List Str} {first first' : First} {second second' : Second} {moved rewritten : List Write}

/-- The option of a line, if it is to be in the new file, is written once. -/
def Conveyed (component l : Str) (written : List Write) : Prop :=
  ∀ verb args target, optionOf l = some (verb, args) → owed component verb args = some target →
    ∃ name, resolve name = resolve target.1 ∧ written.filterMap Write.option = [(name, target.2)]

/-- Names on which the passes do not agree, or that have a meaning of their own there. -/
def misplaced : List String := "message_ttl" :: "continue" :: aliases

theorem right_of_verb (is : among verbs_to_move verb = true) : among ("subtopic" :: rights) (resolve verb) = true := by
  obtain ⟨name, member, rfl⟩ := among_iff.mp is
  have each : ∀ name ∈ verbs_to_move, ("subtopic" :: rights).contains (rightName name) = true := by decide
  rw [resolve_name, among_name]
  exact each name member

theorem right_of_alias (is : among aliases verb = true) : among ("subtopic" :: rights) (resolve verb) = true := by
  obtain ⟨name, member, rfl⟩ := among_iff.mp is
  have each : ∀ name ∈ aliases, ("subtopic" :: rights).contains (rightName name) = true := by decide
  rw [resolve_name, among_name]
  exact each name member

theorem misplaced_iff : among misplaced verb = true ↔ verb = "message_ttl".toList ∨ verb = "continue".toList ∨ among aliases verb = true := by
  unfold misplaced among
  rw [List.any_cons, List.any_cons, Bool.or_eq_true_iff, Bool.or_eq_true_iff, decide_eq_true_iff, decide_eq_true_iff]
  exact or_congr eq_comm (or_congr eq_comm Iff.rfl)

theorem conveyed_iff (option : optionOf l = some (verb, args)) (is : firstPass first l = .ok (first', moved))
    (is' : secondPass component second l = .ok (second', rewritten)) : Conveyed component l (moved ++ rewritten) ↔
      ¬ among misplaced verb = true ∧ (among verbs_to_move verb = true → dated args = args) := by
  have conveyed : Conveyed component l (moved ++ rewritten) ↔ ∀ target, owed component verb args = some target →
      ∃ name, resolve name = resolve target.1 ∧ (moved ++ rewritten).filterMap Write.option = [(name, target.2)] := by
    constructor
    · exact fun each target => each verb args target option
    · intro each verb' args' target option' owed
      cases option.symm.trans option'
      exact each target owed
  rw [conveyed, List.filterMap_append, first_some option is]
  have written := second_some option is'
  by_cases moves : among verbs_to_move verb = true
  · have passed : rewritten.filterMap Write.option = [] := by
      rcases written with ⟨-, rfl⟩ | ⟨stays, -⟩
      · rfl
      · exact absurd moves stays
    have owes : owed component verb args = some (resolve verb, dated args) := owed_right (right_of_verb moves)
    rw [passed, List.append_nil]
    rcases moved_own moves with rfl | own
    · have lost : ¬ among verbs_to_move (resolve "message_ttl".toList) = true := by
        rw [resolve_name, among_name]
        decide
      rw [if_neg lost]
      refine iff_of_false (fun each => ?_) fun wrong => wrong.1 (misplaced_iff.mpr (.inl rfl))
      obtain ⟨name, -, wrong⟩ := each _ owes
      cases wrong
    · rw [own] at owes
      rw [own, if_pos moves]
      have placed : ¬ among misplaced verb = true := by
        intro wrong
        rcases misplaced_iff.mp wrong with rfl | rfl | other
        · exact absurd own (by rw [resolve_name]; decide)
        · exact absurd moves (by decide)
        · exact (alias_moved other).2 moves
      constructor
      · intro each
        obtain ⟨name, -, is⟩ := each _ owes
        exact ⟨placed, fun _ => (Prod.mk.inj (List.cons.inj is).1).2.symm⟩
      · rintro ⟨-, undated⟩ target owed
        cases owes.symm.trans owed
        exact ⟨verb, rfl, by rw [undated moves]⟩
  · have other : verb ≠ "message_ttl".toList := by
      rintro rfl
      exact moves (by decide)
    by_cases twice : among aliases verb = true
    · rw [if_pos (alias_moved twice).1]
      refine iff_of_false (fun each => ?_) fun wrong => wrong.1 (misplaced_iff.mpr (.inr (.inr twice)))
      obtain ⟨name, -, wrong⟩ := each _ (owed_right (right_of_alias twice))
      rcases written with ⟨queue, -⟩ | ⟨-, fate, rewritten', is⟩
      · rcases queue with wrong | queue
        · exact moves wrong
        · exact (right_plain (right_of_alias twice)).2.2.1 queue
      · cases rewritten'.symm.trans (rewrite_right (right_of_alias twice))
        rw [is, option_right (right_of_alias twice)] at wrong
        cases (List.cons.inj wrong).2
    · have stays : ¬ among verbs_to_move (resolve verb) = true := fun wrong => (moved_or_alias wrong).elim moves twice
      rw [if_neg stays, List.nil_append]
      have rest : (¬ among misplaced verb = true ∧ (among verbs_to_move verb = true → dated args = args)) ↔ verb ≠ "continue".toList := by
        rw [misplaced_iff]
        constructor
        · exact fun holds named => holds.1 (.inr (.inl named))
        · exact fun named => ⟨fun wrong => wrong.elim other fun wrong => wrong.elim named twice, fun wrong => absurd wrong moves⟩
      rw [rest]
      constructor
      · rintro each rfl
        have owes : owed component "continue".toList args = some ("continue".toList, args) := by
          unfold owed
          rw [resolve_current.mpr rfl, if_neg (by decide), rewrite_current]
        obtain ⟨name, -, is⟩ := each _ owes
        rcases written with ⟨-, rfl⟩ | ⟨-, fate, rewritten', written⟩
        · cases is
        · cases rewritten'.symm.trans rewrite_current
          rw [written] at is
          cases is
      · intro named target owes
        unfold owed at owes
        split at owes
        · cases owes
        · next queue =>
          rcases written with ⟨wrong, -⟩ | ⟨-, fate, rewritten', written⟩
          · exact absurd wrong (not_or.mpr ⟨moves, queue⟩)
          · rw [rewritten'] at owes
            rw [written]
            cases fate with
            | written line =>
              dsimp only at owes
              split at owes
              · cases owes
              · rw [owes]
                exact ⟨target.1, rfl, rfl⟩
            | continue_ => exact absurd (resolve_current.mp (rewrite_continue rewritten')) named
            | _ => cases owes

theorem arguments_plain (option : optionOf l = some (verb, args)) : ∀ a ∈ args, a ≠ [] := by
  unfold optionOf at option
  split at option
  · cases option
  · next verb' args' given =>
    split at option
    · cases option
    · cases option
      exact fun a member => (words_plain l a (given ▸ List.mem_cons_of_mem _ member)).1

/-- The queue is named, and nothing else is asked of it. -/
theorem queue_raises (queue : resolve verb = "queueName".toList) : Raises component (resolve verb) args ↔ args = [] := by
  have free : unlisted "queueName".toList = true := by
    simp only [unlisted, lookup_name, among_name]
    decide
  have single : among sums "queueName".toList = false := by
    rw [among_name]
    decide
  rw [queue]
  constructor
  · rintro (⟨bare, -⟩ | ⟨wrong, -⟩ | lacking)
    · exact bare
    · exact absurd wrong (by rw [single]; exact Bool.false_ne_true)
    · exact absurd lacking (not_lacking (Option.isNone_iff_eq_none.mp (Bool.and_eq_true_iff.mp free).1))
  · exact fun bare => .inl ⟨bare, .inl rfl⟩

theorem first_ends (sound : ∀ verb args, optionOf l = some (verb, args) → resolve verb = "queueName".toList → args ≠ []) (s : First) :
    Ends (firstPass s l) := by
  unfold optionOf at sound
  unfold firstPass
  split
  · exact ends_ok _
  · next verb args given =>
    rw [given] at sound
    dsimp only at sound
    split
    · exact ends_ok _
    · next plain =>
      dsimp only
      split
      · next queue =>
        split
        · exact absurd rfl (sound verb [] (if_neg plain) queue)
        · exact ends_ok _
      · exact ends_ok _

theorem rewritten_ends (option : optionOf l = some (verb, args)) (sound : ¬ Raises component (resolve verb) args) :
    Ends (rewrite component verb args) := by
  by_cases queue : resolve verb = "queueName".toList
  · have as_is : plain (resolve verb) = true := by
      rw [queue]
      simp only [plain, unlisted, lookup_name, among_name]
      decide
    have other : resolve verb ≠ "continue".toList := by
      rw [queue]
      decide
    rw [rewrite_plain as_is, if_neg other]
    exact ends_ok _
  · exact (rewrite_ends (arguments_plain option) queue).mpr sound

theorem second_ends (sound : ∀ verb args, optionOf l = some (verb, args) → ¬ Raises component (resolve verb) args) (s : Second) :
    Ends (secondPass component s l) := by
  unfold secondPass
  split
  · exact ends_ok _
  · next verb args given =>
    split
    · exact ends_ok _
    · next plain =>
      have option : optionOf l = some (verb, args) := by
        unfold optionOf
        rw [given]
        exact if_neg plain
      split
      · exact ends_ok _
      · split
        · exact ends_ok _
        · exact map_ends.mpr (rewritten_ends option (sound verb args option))

theorem sound_of_ok (option : optionOf l = some (verb, args)) (is : firstPass first l = .ok (first', moved))
    (is' : secondPass component second l = .ok (second', rewritten)) : ¬ Raises component (resolve verb) args := by
  by_cases queue : resolve verb = "queueName".toList
  · rw [queue_raises queue]
    rintro rfl
    unfold optionOf at option
    unfold firstPass at is
    split at option
    · cases option
    · next verb' args' given =>
      rw [given] at is
      split at option
      · cases option
      · next plain =>
        cases option
        dsimp only at is
        rw [if_neg plain, if_pos queue] at is
        cases is
  · apply (rewrite_ends (arguments_plain option) queue).mp
    rcases second_some option is' with ⟨passed, -⟩ | ⟨-, fate, is, -⟩
    · rw [rewrite_right (right_of_verb (passed.resolve_right queue))]
      exact ends_ok _
    · exact ⟨fate, is⟩

end Lines

end Sarracenia.Guarantees.Conversion
