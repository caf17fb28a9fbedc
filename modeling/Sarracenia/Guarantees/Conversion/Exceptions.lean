import Sarracenia.Source.Conversion

/-!
# Exceptions of a conversion

Each part of the second pass raises an exception for few lines, and what it changes makes no other part raise one. So it is
told by the line alone.
-/
namespace Sarracenia.Guarantees.Conversion
open Library Library.Text Library.Dynamic Source.Conversion

section Raising
variable {component verb k : Str} {args : List Str} {line line' : Line} {fate : Fate} {r : Except Fault Fate} {f : Line → Except Fault Fate}

/-- What the table of old keywords asks of the arguments, if a line does not have it. -/
def Lacking (k : Str) : List Str → Prop
  | [] => k = "poll_without_vip".toList ∨ ∃ entries, lookup convert_to_v3 k = some (.table entries)
  | argument :: _ => ∃ words, lookup convert_to_v3 k = some (.list words) ∧ words ≠ ["continue"] ∧
      among words (replaceFirst ".py".toList [] argument) = true

/-- A sum of which the second part is missing. -/
def Short (args : List Str) : Prop := ∃ sum ∈ args.head?, sum.head? = some 'z' ∧ sum.length < 4

def needing : List String := ["accept", "acceptUnmatched", "post_baseUrl"]

/-- An argument is missing, or is taken to pieces that it does not have. -/
def Raises (component k : Str) (args : List Str) : Prop :=
  args = [] ∧ (k = "queueName".toList ∨ among sums k = true ∨ among needing k = true ∨ among sets k = true ∨
    k = "get".toList ∧ component = poll) ∨
  among sums k = true ∧ Short args ∨ Lacking k args

/-- No exception is raised. -/
def Ends {α : Type} (r : Except Fault α) : Prop := ∃ value, r = .ok value

theorem ends_ok {α : Type} (value : α) : Ends (.ok value : Except Fault α) := ⟨value, rfl⟩

theorem not_ends_error {α : Type} (e : Fault) : ¬ Ends (.error e : Except Fault α) := nofun

theorem map_ends {α β : Type} {r : Except Fault α} {f : α → β} : Ends (r.map f) ↔ Ends r := by
  cases r with
  | error e => exact iff_of_false (not_ends_error _) (not_ends_error _)
  | ok value => exact iff_of_true (ends_ok _) (ends_ok _)

theorem andThen_ends : Ends (r |> Fate.andThen f) ↔ Ends r ∧ ∀ line, r = .ok (.written line) → Ends (f line) := by
  cases r with
  | error e => exact iff_of_false (not_ends_error e) fun ends => not_ends_error e ends.1
  | ok fate =>
    cases fate with
    | written line =>
      constructor
      · intro ends
        refine ⟨ends_ok _, fun line' is => ?_⟩
        cases is
        exact ends
      · exact fun ends => ends.2 line rfl
    | _ => exact iff_of_true (ends_ok _) ⟨ends_ok _, nofun⟩

theorem andThen_ok (is : (r |> Fate.andThen f) = .ok fate) :
    (∃ line, r = .ok (.written line) ∧ f line = .ok fate) ∨ r = .ok fate ∧ ∀ line, fate ≠ .written line := by
  cases r with
  | error e => cases is
  | ok before =>
    cases before with
    | written line => exact .inl ⟨line, rfl, is⟩
    | _ =>
      cases is
      exact .inr ⟨rfl, nofun⟩

theorem among_iff {names : List String} : among names k = true ↔ ∃ name ∈ names, k = name.toList := by
  unfold among
  rw [List.any_eq_true]
  exact exists_congr fun name => and_congr_right fun _ => ⟨fun is => (of_decide_eq_true is).symm, fun is => decide_eq_true is.symm⟩

/-- What is checked for each name holds of every one of them. -/
theorem among_all {names : List String} {p : Str → Bool} (each : names.all (fun name => p name.toList) = true)
    (member : among names k = true) : p k = true := by
  obtain ⟨name, there, rfl⟩ := among_iff.mp member
  exact List.all_eq_true.mp each name there

/-- A name of the source is looked up as such. -/
theorem lookup_name {α : Type} (table : List (String × α)) (name : String) :
    lookup table name.toList = (table.find? fun e => e.1 == name).map (·.2) := by
  unfold lookup
  congr 2
  funext e
  rw [Bool.eq_iff_iff, decide_eq_true_iff, beq_iff_eq, String.toList_inj]

theorem among_name (names : List String) (name : String) : among names name.toList = names.contains name := by
  rw [Bool.eq_iff_iff, among_iff, List.contains_iff_mem]
  constructor
  · rintro ⟨other, member, is⟩
    exact String.toList_inj.mp is ▸ member
  · exact fun member => ⟨name, member, rfl⟩

/-- Neither an old keyword nor a set. -/
def unlisted (k : Str) : Bool := (lookup convert_to_v3 k).isNone && !among sets k

/-- Names that are renamed, and those that they get. -/
def renamings : List String := ["destination", "pollUrl", "sendTo", "get", "broker", "post_broker", "directory", "path"]

def special : List String := renamings ++ needing ++ ["strip", "\n# strip", "sleep", "scheduled_interval"]

theorem special_unlisted (name : String) (member : name ∈ special) : unlisted name.toList = true := by
  have each : special.all (fun name => !(convert_to_v3.any fun e => e.1 == name) && !sets.contains name) = true := by decide
  obtain ⟨absent, single⟩ := Bool.and_eq_true_iff.mp (List.all_eq_true.mp each name member)
  unfold unlisted
  rw [lookup_name, among_name, single, Bool.and_true, Option.isNone_map, Option.isNone_iff_eq_none]
  apply List.find?_eq_none.mpr
  intro e there
  exact List.any_eq_false.mp (Bool.not_eq_eq_eq_not.mp absent) e there

theorem not_lacking (absent : lookup convert_to_v3 k = none) : ¬ Lacking k args := by
  cases args with
  | nil =>
    rintro (rfl | ⟨entries, is⟩)
    · rw [lookup_name] at absent
      exact absurd absent (by decide)
    · rw [absent] at is
      cases is
  | cons argument rest =>
    rintro ⟨words, is, -⟩
    rw [absent] at is
    cases is

theorem cod_iff (c : Char) : lookup sum_algo_v2tov3 [c] = some "cod" ↔ c = 'z' := by
  constructor
  · intro is
    unfold lookup at is
    obtain ⟨entry, found, named⟩ := Option.map_eq_some_iff.mp is
    have entered := List.find?_some found
    have each : sum_algo_v2tov3.all (fun e => e.2 != "cod" || e.1 == "z") = true := by decide
    have last := List.all_eq_true.mp each entry (List.mem_of_find?_eq_some found)
    rw [named] at last
    rw [show entry.1 = "z" from eq_of_beq last] at entered
    exact (List.cons.inj (of_decide_eq_true entered)).1.symm
  · rintro rfl
    decide

theorem checksum_ends {sum : Str} (some_ : sum ≠ []) : Ends (checksum sum) ↔ ¬ (sum.head? = some 'z' ∧ sum.length < 4) := by
  cases sum with
  | nil => exact absurd rfl some_
  | cons c rest =>
    unfold checksum
    dsimp only
    split
    · next absent =>
      refine iff_of_true (ends_ok _) ?_
      rintro ⟨first, -⟩
      rw [(cod_iff c).mpr (Option.some.inj first)] at absent
      cases absent
    · next cod =>
      have first := (cod_iff c).mp cod
      split
      · next short =>
        refine iff_of_false (not_ends_error _) (not_not_intro ⟨congrArg some first, ?_⟩)
        have := List.getElem?_eq_none_iff.mp short
        omega
      · next d there =>
        refine iff_of_true (ends_ok _) ?_
        rintro ⟨-, short⟩
        obtain ⟨long, -⟩ := List.getElem?_eq_some_iff.mp there
        omega
    · next method other is =>
      refine iff_of_true (ends_ok _) ?_
      rintro ⟨first, -⟩
      exact other (Option.some.inj (is.symm.trans ((cod_iff c).mpr (Option.some.inj first))))

/-- One of some names is none of others. -/
theorem among_apart {names others : List String} (each : names.all (fun name => !among others name.toList) = true)
    (member : among names k = true) : among others k = false := by
  have apart := among_all (p := fun k => !among others k) each member
  rwa [Bool.not_eq_eq_eq_not, Bool.not_true] at apart

/-- The values that stand in for an old keyword, without a table. -/
def ownValue (name : String) : Keyword → Bool
  | .list (option :: _ :: _) => ["delete_destination", "download"].contains option
  | .list words => words == ["continue"] || name == "poll_without_vip" && words == ["manual_conversion_required"]
  | .table _ => true

/-- Every other old keyword has a value of its own. -/
theorem list_valued {words : List String} (is : lookup convert_to_v3 k = some (.list words)) :
    words = ["continue"] ∨ k = "poll_without_vip".toList ∧ words = ["manual_conversion_required"] ∨
      ∃ name value values, words = name :: value :: values ∧ name ∈ ["delete_destination", "download"] := by
  unfold lookup at is
  obtain ⟨entry, found, valued⟩ := Option.map_eq_some_iff.mp is
  have named := List.find?_some found
  have each : convert_to_v3.all (fun e => ownValue e.1 e.2) = true := by decide
  have checked := List.all_eq_true.mp each entry (List.mem_of_find?_eq_some found)
  rw [valued] at checked
  cases words with
  | nil => exact absurd checked (by simp [ownValue])
  | cons name words =>
    cases words with
    | nil =>
      rcases Bool.or_eq_true_iff.mp checked with obsolete | manual
      · exact .inl (eq_of_beq obsolete)
      · obtain ⟨vip, word⟩ := Bool.and_eq_true_iff.mp manual
        refine .inr (.inl ⟨?_, eq_of_beq word⟩)
        rw [← eq_of_beq vip]
        exact (of_decide_eq_true named).symm
    | cons value values => exact .inr (.inr ⟨name, value, values, rfl, List.contains_iff_mem.mp checked⟩)

theorem replaced_ends : Ends (replaced verb line) ↔ ¬ Lacking line.k line.args := by
  unfold replaced
  split
  · next absent => exact iff_of_true (ends_ok _) (not_lacking absent)
  · next obsolete =>
    refine iff_of_true (ends_ok _) ?_
    cases given : line.args with
    | nil =>
      rintro (named | ⟨entries, is⟩)
      · rw [named, lookup_name] at obsolete
        exact absurd obsolete (by decide)
      · rw [obsolete] at is
        cases is
    | cons argument rest =>
      rintro ⟨words, is, other, -⟩
      rw [obsolete] at is
      cases is
      exact other rfl
  · next keyword other is =>
    cases given : line.args with
    | nil =>
      cases keyword with
      | table entries => exact iff_of_false (not_ends_error _) (not_not_intro (.inr ⟨entries, is⟩))
      | list words =>
        rcases list_valued is with rfl | ⟨named, rfl⟩ | ⟨name, value, values, rfl, -⟩
        · exact absurd rfl other
        · exact iff_of_false (not_ends_error _) (not_not_intro (.inl named))
        · refine iff_of_true (ends_ok _) ?_
          rintro (named | ⟨entries, wrong⟩)
          · have single : lookup convert_to_v3 "poll_without_vip".toList = some (.list ["manual_conversion_required"]) := by
              rw [lookup_name]
              decide
            rw [named, single] at is
            cases is
          · rw [is] at wrong
            cases wrong
    | cons argument rest =>
      dsimp only
      cases keyword with
      | list words =>
        dsimp only
        split
        · next there => exact iff_of_false (not_ends_error _) (not_not_intro ⟨words, is, fun only => other (congrArg _ only), there⟩)
        · next absent =>
          refine iff_of_true (ends_ok _) ?_
          rintro ⟨words', is', -, there⟩
          cases is.symm.trans is'
          exact absent there
      | table entries =>
        refine iff_of_true ?_ ?_
        · dsimp only
          split
          · exact ends_ok _
          · split
            · exact ends_ok _
            · split
              · exact ends_ok _
              · exact ends_ok _
        · rintro ⟨words, wrong, -⟩
          cases is.symm.trans wrong

theorem added_ends (plain : ∀ a ∈ line.args, a ≠ []) : Ends (added k line) ↔ ¬ (among sets k = true ∧ line.args = []) := by
  unfold added
  by_cases set : among sets k = true
  · rw [if_pos set]
    cases given : line.args with
    | nil => exact iff_of_false (not_ends_error _) (not_not_intro ⟨set, rfl⟩)
    | cons value rest =>
      refine iff_of_true ?_ fun wrong => List.cons_ne_nil _ _ wrong.2
      dsimp only
      split
      · exact ends_ok _
      · split
        · exact absurd rfl (plain [] (by rw [given]; exact List.mem_cons_self))
        · exact ends_ok _
  · rw [if_neg set]
    exact iff_of_true (ends_ok _) fun wrong => set wrong.1

theorem set_unlisted (set : among sets k = true) : lookup convert_to_v3 k = none := by
  have each : sets.all (fun name => (lookup convert_to_v3 name.toList).isNone) = true := by
    simp only [lookup_name]
    decide
  exact Option.isNone_iff_eq_none.mp (among_all (p := fun k => (lookup convert_to_v3 k).isNone) each set)

/-- The words of an old keyword are no set's. -/
theorem replaced_single {after : Line} (listed : lookup convert_to_v3 line.k ≠ none) (is : replaced verb line = .ok (.written after)) :
    ¬ among sets (nameOf line after) = true := by
  intro set
  unfold nameOf at set
  split at set
  · next none_given =>
    unfold replaced at is
    rw [none_given] at is
    split at is
    · next absent => exact listed absent
    · cases is
    · next keyword other valued =>
      dsimp only at is
      split at is
      · next name value values =>
        cases is
        rcases list_valued valued with wrong | ⟨-, wrong⟩ | ⟨name', value', values', given, own⟩
        · cases wrong
        · cases wrong
        · cases given
          have single : ∀ name ∈ ["delete_destination", "download"], among sets name.toList = false := by decide
          exact Bool.false_ne_true ((single name own).symm.trans set)
      · cases is
      · cases is
  · exact listed (set_unlisted set)

theorem finished_ends (verb : Str) (plain : ∀ a ∈ line.args, a ≠ []) :
    Ends (finished verb line) ↔ ¬ Lacking line.k line.args ∧ ¬ (among sets line.k = true ∧ line.args = []) := by
  have last (after : Line) : Ends (if nameOf line after = "continue".toList then .ok .continue_
      else .ok (.written { after with args := dated after.args }) : Except Fault Fate) := by
    split
    · exact ends_ok _
    · exact ends_ok _
  unfold finished
  rw [andThen_ends, replaced_ends]
  refine and_congr_right fun enough => ?_
  by_cases absent : lookup convert_to_v3 line.k = none
  · have kept : replaced verb line = .ok (.written line) := by
      unfold replaced
      rw [absent]
    have own : nameOf line line = line.k := by
      unfold nameOf
      split
      · rfl
      · rfl
    constructor
    · intro each
      have ends := (andThen_ends.mp (each line kept)).1
      rw [own] at ends
      exact (added_ends plain).mp ends
    · intro valued after is
      cases kept.symm.trans is
      rw [andThen_ends, own]
      exact ⟨(added_ends plain).mpr valued, fun after _ => last after⟩
  · refine iff_of_true (fun after is => ?_) fun wrong => absent (set_unlisted wrong.1)
    have same : added (nameOf line after) after = .ok (.written after) := by
      unfold added
      rw [if_neg (replaced_single absent is)]
    rw [andThen_ends, same]
    exact ⟨ends_ok _, fun after _ => last after⟩

/-- The last part raises an exception. -/
def Stuck (line : Line) : Prop := Lacking line.k line.args ∨ among sets line.k = true ∧ line.args = []

theorem not_stuck (other : unlisted line.k = true) : ¬ Stuck line := by
  obtain ⟨absent, single⟩ := Bool.and_eq_true_iff.mp other
  rintro (lacking | ⟨set, -⟩)
  · exact not_lacking (Option.isNone_iff_eq_none.mp absent) lacking
  · rw [set] at single
    cases single

theorem adjusted_ends : Ends (adjusted component line) ↔ ¬ (among needing line.k = true ∧ line.args = []) := by
  have need (name : String) (member : name ∈ needing) (is : line.k = name.toList) : among needing line.k = true :=
    among_iff.mpr ⟨name, member, is⟩
  have free (name : String) (other : among needing name.toList = false) (is : line.k = name.toList) :
      ¬ (among needing line.k = true ∧ line.args = []) := by
    rw [is, other]
    exact fun wrong => Bool.false_ne_true wrong.1
  unfold adjusted
  split
  · next accept =>
    cases line.args with
    | nil => exact iff_of_false (not_ends_error _) (not_not_intro ⟨need "accept" (by decide) accept, rfl⟩)
    | cons pattern rest =>
      refine iff_of_true ?_ fun wrong => List.cons_ne_nil _ _ wrong.2
      dsimp only
      split
      · exact ends_ok _
      · exact ends_ok _
  · next accept =>
    split
    · next unmatched =>
      cases line.args with
      | nil => exact iff_of_false (not_ends_error _) (not_not_intro ⟨need "acceptUnmatched" (by decide) unmatched, rfl⟩)
      | cons explicit rest => exact iff_of_true (ends_ok _) fun wrong => List.cons_ne_nil _ _ wrong.2
    · next unmatched =>
      split
      · next strip => exact iff_of_true (ends_ok _) (free "strip" (by decide) strip.1)
      · split
        · next url =>
          cases line.args with
          | nil => exact iff_of_false (not_ends_error _) (not_not_intro ⟨need "post_baseUrl" (by decide) url, rfl⟩)
          | cons url rest => exact iff_of_true (ends_ok _) fun wrong => List.cons_ne_nil _ _ wrong.2
        · next url =>
          have other : ¬ (among needing line.k = true ∧ line.args = []) := by
            rintro ⟨needs, -⟩
            obtain ⟨name, member, is⟩ := among_iff.mp needs
            simp only [needing, List.mem_cons, List.not_mem_nil, or_false] at member
            rcases member with rfl | rfl | rfl
            · exact accept is
            · exact unmatched is
            · exact url is
          split
          · exact iff_of_true (ends_ok _) other
          · exact iff_of_true (ends_ok _) other

theorem adjusted_written (plain : ∀ a ∈ line.args, a ≠ []) (is : adjusted component line = .ok (.written line')) :
    (Stuck line' ↔ Stuck line) ∧ ∀ a ∈ line'.args, a ≠ [] := by
  have loose (old new : String) (before : old ∈ special) (after : new ∈ special)
      (named : line.k = old.toList) (renamed : line'.k = new.toList) : Stuck line' ↔ Stuck line :=
    iff_of_false (not_stuck (renamed ▸ special_unlisted new after)) (not_stuck (named ▸ special_unlisted old before))
  unfold adjusted at is
  split at is
  · split at is
    · cases is
    · split at is
      · cases is
      · cases is
        exact ⟨Iff.rfl, plain⟩
  · split at is
    · split at is
      · cases is
      · cases is
    · split at is
      · next strip =>
        cases is
        exact ⟨loose "strip" "\n# strip" (by decide) (by decide) strip.1 rfl, plain⟩
      · split at is
        · next url =>
          split at is
          · cases is
          · next value rest given =>
            cases is
            refine ⟨loose "post_baseUrl" "post_baseUrl" (by decide) (by decide) url url, ?_⟩
            intro a member
            rcases List.mem_cons.mp member with rfl | member
            · split
              · exact plain _ (by rw [given]; exact List.mem_cons_self)
              · exact List.append_ne_nil_of_right_ne_nil _ (List.cons_ne_nil _ _)
            · exact plain _ (by rw [given]; exact List.mem_cons_of_mem _ member)
        · split at is
          · next sleep =>
            cases is
            exact ⟨loose "sleep" "scheduled_interval" (by decide) (by decide) sleep.1 rfl, plain⟩
          · cases is
            exact ⟨Iff.rfl, plain⟩

/-- What a name that is renamed has in common with what it becomes. -/
structure Loose (line : Line) : Prop where
  stuck : ¬ Stuck line
  needs : ¬ (among needing line.k = true ∧ line.args = [])
  sums : ¬ among sums line.k = true

theorem loose_of (name : String) (member : name ∈ renamings) (is : line.k = name.toList) : Loose line := by
  have each : ∀ name ∈ renamings, !needing.contains name && !sums.contains name := by decide
  obtain ⟨need, sum⟩ := Bool.and_eq_true_iff.mp (each name member)
  rw [← among_name, ← is] at need sum
  refine ⟨?_, fun needs => ?_, fun sums => ?_⟩
  · apply not_stuck
    rw [is]
    exact special_unlisted name (List.mem_append_left _ (List.mem_append_left _ member))
  · rw [needs.1] at need
    cases need
  · rw [sums] at sum
    cases sum

theorem renamed_ends (line : Line) (plain : ∀ a ∈ line.args, a ≠ []) : Ends (renamed component line) ↔
    ¬ (line.args = [] ∧ (among sums line.k = true ∨ line.k = "get".toList ∧ component = poll)) ∧
      ¬ (among sums line.k = true ∧ Short line.args) := by
  have other (name : String) (checked : name ∈ renamings) (is : line.k = name.toList)
      (apart : ¬ (line.k = "get".toList ∧ component = poll)) :
      ¬ (line.args = [] ∧ (among sums line.k = true ∨ line.k = "get".toList ∧ component = poll)) ∧
        ¬ (among sums line.k = true ∧ Short line.args) :=
    ⟨fun wrong => wrong.2.elim (loose_of name checked is).sums apart, fun wrong => (loose_of name checked is).sums wrong.1⟩
  have not_get (name : String) (is : line.k = name.toList) (differ : name.toList ≠ "get".toList) :
      ¬ (line.k = "get".toList ∧ component = poll) := fun wrong => differ (is.symm.trans wrong.1)
  unfold renamed
  split
  · next destination =>
    refine iff_of_true ?_ (other "destination" (by decide) destination (not_get "destination" destination (by decide)))
    split
    · exact ends_ok _
    · exact ends_ok _
  · split
    · next get =>
      have single : ¬ among sums line.k = true := (loose_of "get" (by decide) get.1).sums
      cases line.args with
      | nil => exact iff_of_false (not_ends_error _) fun wrong => wrong.1 ⟨rfl, .inr get⟩
      | cons pattern rest => exact iff_of_true (ends_ok _) ⟨fun wrong => List.cons_ne_nil _ _ wrong.1, fun wrong => single wrong.1⟩
    · next get =>
      split
      · next broker => exact iff_of_true (ends_ok _) (other "broker" (by decide) broker.1 get)
      · split
        · next directory => exact iff_of_true (ends_ok _) (other "directory" (by decide) directory.1 get)
        · split
          · next sum =>
            cases given : line.args with
            | nil => exact iff_of_false (not_ends_error _) fun wrong => wrong.1 ⟨rfl, .inl sum⟩
            | cons value rest =>
              have ends := checksum_ends (plain value (by rw [given]; exact List.mem_cons_self))
              have short : Short (value :: rest) ↔ value.head? = some 'z' ∧ value.length < 4 := by
                unfold Short
                constructor
                · rintro ⟨_, is, short⟩
                  cases is
                  exact short
                · exact fun short => ⟨value, rfl, short⟩
              exact map_ends.trans (ends.trans ⟨fun long => ⟨fun wrong => List.cons_ne_nil _ _ wrong.1, fun wrong => long (short.mp wrong.2)⟩,
                fun free wrong => free.2 ⟨sum, short.mpr wrong⟩⟩)
          · next sum =>
            exact iff_of_true (ends_ok _) ⟨fun wrong => wrong.2.elim sum get, fun wrong => sum wrong.1⟩

theorem fromAnywhere_ne_nil (pattern : Str) : fromAnywhere pattern ≠ [] := by
  unfold fromAnywhere
  split
  · exact List.cons_ne_nil _ _
  · exact List.cons_ne_nil _ _
  · exact List.cons_ne_nil _ _

theorem checksum_ne_nil {sum value : Str} (is : checksum sum = .ok (some value)) : value ≠ [] := by
  unfold checksum at is
  split at is
  · cases is
  · split at is
    · cases is
    · split at is
      · cases is
      · obtain ⟨name, -, rfl⟩ := Option.map_eq_some_iff.mp (Except.ok.inj is)
        exact List.cons_ne_nil _ _
    · cases is
      exact List.cons_ne_nil _ _

/-- A sum with an argument is looked up. -/
def Keyword.tabled : Keyword → Bool
  | .list _ => false
  | .table _ => true

theorem sum_not_stuck (sum : among sums line.k = true) (given : line.args ≠ []) : ¬ Stuck line := by
  rintro (lacking | ⟨-, wrong⟩)
  · cases is : line.args with
    | nil => exact given is
    | cons argument rest =>
      rw [is] at lacking
      obtain ⟨words, listed, -⟩ := lacking
      have each : sums.all (fun name => (lookup convert_to_v3 name.toList).all Keyword.tabled) = true := by
        simp only [lookup_name]
        decide
      have table := among_all (p := fun k => (lookup convert_to_v3 k).all Keyword.tabled) each sum
      rw [listed] at table
      cases table
  · exact given wrong

theorem renamed_written (plain : ∀ a ∈ line.args, a ≠ []) (is : renamed component line = .ok (.written line')) :
    (Stuck line' ↔ Stuck line) ∧ ((among needing line'.k = true ∧ line'.args = []) ↔ among needing line.k = true ∧ line.args = []) ∧
      ∀ a ∈ line'.args, a ≠ [] := by
  have apart (before : Loose line) (after : ¬ Stuck line' ∧ ¬ (among needing line'.k = true ∧ line'.args = [])) :
      (Stuck line' ↔ Stuck line) ∧ ((among needing line'.k = true ∧ line'.args = []) ↔ among needing line.k = true ∧ line.args = []) :=
    ⟨iff_of_false after.1 before.stuck, iff_of_false after.2 before.needs⟩
  have moved (old new : String) (before : old ∈ renamings) (after : new ∈ renamings) (named : line.k = old.toList)
      (renamed : line'.k = new.toList) :=
    have became := loose_of new after renamed
    apart (loose_of old before named) ⟨became.stuck, became.needs⟩
  unfold renamed at is
  split at is
  · next destination =>
    split at is
    · cases is
      obtain ⟨stuck, needs⟩ := moved "destination" "pollUrl" (by decide) (by decide) destination rfl
      exact ⟨stuck, needs, plain⟩
    · cases is
      obtain ⟨stuck, needs⟩ := moved "destination" "sendTo" (by decide) (by decide) destination rfl
      exact ⟨stuck, needs, plain⟩
  · split at is
    · next get =>
      split at is
      · cases is
      · next pattern rest given =>
        cases is
        have free : ¬ Stuck { line with k := "accept".toList, args := fromAnywhere pattern :: rest } :=
          not_stuck (special_unlisted "accept" (by decide))
        obtain ⟨stuck, needs⟩ := apart (loose_of "get" (by decide) get.1) ⟨free, fun wrong => List.cons_ne_nil _ _ wrong.2⟩
        refine ⟨stuck, needs, fun a member => ?_⟩
        rcases List.mem_cons.mp member with rfl | member
        · exact fromAnywhere_ne_nil pattern
        · exact plain a (by rw [given]; exact List.mem_cons_of_mem _ member)
    · split at is
      · next broker =>
        cases is
        obtain ⟨stuck, needs⟩ := moved "broker" "post_broker" (by decide) (by decide) broker.1 rfl
        exact ⟨stuck, needs, plain⟩
      · split at is
        · next directory =>
          cases is
          obtain ⟨stuck, needs⟩ := moved "directory" "path" (by decide) (by decide) directory.1 rfl
          exact ⟨stuck, needs, plain⟩
        · split at is
          · next sum =>
            split at is
            · cases is
            · next value rest given =>
              obtain ⟨known, checked, became⟩ := map_ok_iff.mp is
              cases known with
              | none => cases became
              | some value' =>
                cases became
                have full : line.args ≠ [] := by
                  rw [given]
                  exact List.cons_ne_nil _ _
                refine ⟨iff_of_false (sum_not_stuck sum (List.cons_ne_nil _ _)) (sum_not_stuck sum full),
                  iff_of_false (fun wrong => List.cons_ne_nil _ _ wrong.2) fun wrong => full wrong.2, fun a member => ?_⟩
                rcases List.mem_cons.mp member with rfl | member
                · exact checksum_ne_nil checked
                · exact plain a (by rw [given]; exact List.mem_cons_of_mem _ member)
          · cases is
            exact ⟨Iff.rfl, Iff.rfl, plain⟩

theorem renamed_other (is : renamed component line = .ok fate) (other : ∀ line', fate ≠ .written line') :
    among sums line.k = true ∧ line.args ≠ [] := by
  unfold renamed at is
  split at is
  · split at is
    · exact absurd (Except.ok.inj is).symm (other _)
    · exact absurd (Except.ok.inj is).symm (other _)
  · split at is
    · split at is
      · cases is
      · exact absurd (Except.ok.inj is).symm (other _)
    · split at is
      · exact absurd (Except.ok.inj is).symm (other _)
      · split at is
        · exact absurd (Except.ok.inj is).symm (other _)
        · split at is
          · next sum =>
            split at is
            · cases is
            · next given =>
              rw [given]
              exact ⟨sum, List.cons_ne_nil _ _⟩
          · exact absurd (Except.ok.inj is).symm (other _)

theorem adjusted_other (is : adjusted component line = .ok fate) (other : ∀ line', fate ≠ .written line') : ¬ Stuck line := by
  unfold adjusted at is
  split at is
  · next accept =>
    apply not_stuck
    rw [accept]
    exact special_unlisted "accept" (by decide)
  · split at is
    · next unmatched =>
      apply not_stuck
      rw [unmatched]
      exact special_unlisted "acceptUnmatched" (by decide)
    · split at is
      · exact absurd (Except.ok.inj is).symm (other _)
      · split at is
        · split at is
          · cases is
          · exact absurd (Except.ok.inj is).symm (other _)
        · split at is
          · exact absurd (Except.ok.inj is).symm (other _)
          · exact absurd (Except.ok.inj is).symm (other _)

/-- After the first part. -/
theorem adjusted_finished_ends (component verb : Str) (plain : ∀ a ∈ line.args, a ≠ []) :
    Ends (adjusted component line |> Fate.andThen (finished verb)) ↔ ¬ (among needing line.k = true ∧ line.args = []) ∧ ¬ Stuck line := by
  rw [andThen_ends, adjusted_ends]
  refine and_congr_right fun enough => ?_
  obtain ⟨fate, is⟩ := adjusted_ends.mpr enough
  cases fate with
  | written line' =>
    obtain ⟨same, plain'⟩ := adjusted_written plain is
    rw [← same]
    unfold Stuck
    rw [not_or, ← finished_ends verb plain']
    constructor
    · exact fun each => each line' is
    · intro ends line'' is'
      cases is.symm.trans is'
      exact ends
  | _ =>
    refine iff_of_true (fun line' is' => ?_) (adjusted_other is nofun)
    cases is.symm.trans is'

theorem andThen_assoc {g : Line → Except Fault Fate} :
    (r |> Fate.andThen f |> Fate.andThen g) = (r |> Fate.andThen fun line => f line |> Fate.andThen g) := by
  cases r with
  | error e => rfl
  | ok fate => cases fate <;> rfl

theorem raises_iff (line : Line) (other : line.k ≠ "queueName".toList) : Raises component line.k line.args ↔
    ¬ (¬ (line.args = [] ∧ (among sums line.k = true ∨ line.k = "get".toList ∧ component = poll)) ∧
        ¬ (among sums line.k = true ∧ Short line.args)) ∨
      ¬ (¬ (among needing line.k = true ∧ line.args = []) ∧ ¬ Stuck line) := by
  unfold Raises Stuck
  grind

/-- A line that is rewritten raises an exception for no other reason. -/
theorem rewrite_ends (plain : ∀ a ∈ args, a ≠ []) (other : resolve verb ≠ "queueName".toList) :
    Ends (rewrite component verb args) ↔ ¬ Raises component (resolve verb) args := by
  have parts : rewrite component verb args = (renamed component ⟨[], resolve verb, args, false⟩ |>
      Fate.andThen fun line => adjusted component line |> Fate.andThen (finished verb)) := andThen_assoc
  rw [parts, andThen_ends, renamed_ends _ plain, raises_iff ⟨[], resolve verb, args, false⟩ other, not_or, not_not, not_not]
  refine and_congr_right fun free => ?_
  obtain ⟨fate, is⟩ := (renamed_ends ⟨[], resolve verb, args, false⟩ plain).mpr free
  cases fate with
  | written line' =>
    obtain ⟨stuck, needs, plain'⟩ := renamed_written plain is
    rw [← stuck, ← needs, ← adjusted_finished_ends component verb plain']
    constructor
    · exact fun each => each line' is
    · intro ends line'' is'
      cases is.symm.trans is'
      exact ends
  | _ =>
    obtain ⟨sum, given⟩ := renamed_other is nofun
    refine iff_of_true (fun line' is' => ?_) ⟨fun needs => given needs.2, sum_not_stuck sum given⟩
    cases is.symm.trans is'

end Raising

end Sarracenia.Guarantees.Conversion
