import Sarracenia.Guarantees.Conversion.Exceptions
import Sarracenia.Library.Replace

/-!
# Names that a conversion writes

A line keeps the right name of its option, or that which was given, or gets one of few that a table has. An option of which
no part of the second pass has anything to say is written as it stands.
-/
namespace Sarracenia.Guarantees.Conversion
open Library Library.Text Library.Dynamic Source.Conversion

section Names
variable {component verb k : Str} {args : List Str} {line line' after : Line} {fate : Fate}

/-- The names that lines get in other ways than by synonyms. -/
def made : List String := ["pollUrl", "sendTo", "accept", "post_broker", "path", "\n# strip", "scheduled_interval", "delete_destination",
  "download", "identity", "callback", "logEvents", "flow_callback", "manual_conversion_required", ""]

theorem made_of (name : String) (member : name ∈ made) : among made name.toList = true := among_iff.mpr ⟨name, member, rfl⟩

theorem renamed_name (is : renamed component line = .ok (.written line')) : line'.k = line.k ∨ among made line'.k = true := by
  unfold renamed at is
  split at is
  · split at is
    · cases is
      exact .inr (made_of "pollUrl" (by decide))
    · cases is
      exact .inr (made_of "sendTo" (by decide))
  · split at is
    · split at is
      · cases is
      · cases is
        exact .inr (made_of "accept" (by decide))
    · split at is
      · cases is
        exact .inr (made_of "post_broker" (by decide))
      · split at is
        · cases is
          exact .inr (made_of "path" (by decide))
        · split at is
          · split at is
            · cases is
            · obtain ⟨known, -, became⟩ := map_ok_iff.mp is
              cases known with
              | none => cases became
              | some value =>
                cases became
                exact .inl rfl
          · cases is
            exact .inl rfl

theorem adjusted_name (is : adjusted component line = .ok (.written line')) : line'.k = line.k ∨ among made line'.k = true := by
  unfold adjusted at is
  split at is
  · split at is
    · cases is
    · split at is
      · cases is
      · cases is
        exact .inl rfl
  · split at is
    · split at is
      · cases is
      · cases is
    · split at is
      · cases is
        exact .inr (made_of "\n# strip" (by decide))
      · split at is
        · split at is
          · cases is
          · cases is
            exact .inl rfl
        · split at is
          · cases is
            exact .inr (made_of "scheduled_interval" (by decide))
          · cases is
            exact .inl rfl

/-- The first words that the arguments of an old keyword are replaced by. -/
def Keyword.firsts : Keyword → List String
  | .list _ => []
  | .table entries => entries.flatMap fun e => e.2.head?.toList

theorem firsts_made {keyword : Keyword} {name : String} (is : lookup convert_to_v3 k = some keyword) (first : name ∈ Keyword.firsts keyword)
    (current : name ≠ "continue") : name ∈ made := by
  unfold lookup at is
  obtain ⟨entry, found, valued⟩ := Option.map_eq_some_iff.mp is
  have each : convert_to_v3.all (fun e => (Keyword.firsts e.2).all fun name => name == "continue" || made.contains name) = true := by decide
  have checked := List.all_eq_true.mp (List.all_eq_true.mp each entry (List.mem_of_find?_eq_some found)) name (valued ▸ first)
  rcases Bool.or_eq_true_iff.mp checked with obsolete | there
  · exact absurd (eq_of_beq obsolete) current
  · exact List.contains_iff_mem.mp there

theorem replaced_name (is : replaced verb line = .ok (.written after)) :
    (nameOf line after = line.k ∨ among made (nameOf line after) = true) ∧ (after.k = line.k ∨ after.k = verb ∨ among made after.k = true) := by
  unfold nameOf
  unfold replaced at is
  split at is
  · cases is
    exact ⟨.inl (ite_self _), .inl rfl⟩
  · cases is
  · next keyword other valued =>
    split at is
    · next argument rest given =>
      rw [if_neg (by rw [given]; exact List.cons_ne_nil _ _)]
      refine ⟨.inl rfl, ?_⟩
      dsimp only at is
      cases keyword with
      | list words =>
        dsimp only at is
        split at is
        · cases is
        · cases is
          exact .inr (.inl rfl)
      | table entries =>
        dsimp only at is
        split at is
        · cases is
          exact .inr (.inl rfl)
        · next words found =>
          split at is
          · cases is
          · next current =>
            split at is
            · cases is
              exact .inr (.inr (made_of "" (by decide)))
            · next name values =>
              cases is
              have first : name ∈ Keyword.firsts (.table entries) := by
                unfold lookup at found
                obtain ⟨entry, there, isWords⟩ := Option.map_eq_some_iff.mp found
                refine List.mem_flatMap.mpr ⟨entry, List.mem_of_find?_eq_some there, ?_⟩
                rw [isWords]
                exact List.mem_singleton.mpr rfl
              exact .inr (.inr (made_of name (firsts_made valued first fun wrong => current (wrong ▸ List.mem_cons_self))))
    · next given =>
      rw [if_pos given]
      split at is
      · next name value values =>
        cases is
        rcases list_valued valued with wrong | ⟨-, wrong⟩ | ⟨name', value', values', words, own⟩
        · cases wrong
        · cases wrong
        · cases words
          have each : ∀ name ∈ ["delete_destination", "download"], among made name.toList = true := by decide
          exact ⟨.inr (each name own), .inr (.inr (each name own))⟩
      · cases is
      · cases is

theorem added_written (is : added k line = .ok fate) : ∃ line', fate = .written line' ∧ line'.k = line.k := by
  unfold added at is
  split at is
  · split at is
    · cases is
    · split at is
      · cases is
        exact ⟨line, rfl, rfl⟩
      · split at is
        · cases is
        · cases is
          exact ⟨_, rfl, rfl⟩
  · cases is
    exact ⟨line, rfl, rfl⟩

theorem nameOf_congr (same : line'.k = after.k) : nameOf line line' = nameOf line after := by
  unfold nameOf
  rw [same]

theorem finished_written (is : finished verb line = .ok (.written line')) :
    line'.k = line.k ∨ line'.k = verb ∨ among made line'.k = true := by
  unfold finished at is
  rcases andThen_ok is with ⟨after, first, is⟩ | ⟨-, other⟩
  · rcases andThen_ok is with ⟨after', second, is⟩ | ⟨-, other⟩
    · obtain ⟨line'', shape, same⟩ := added_written second
      cases shape
      split at is
      · cases is
      · cases is
        rw [same]
        exact (replaced_name first).2
    · exact absurd rfl (other line')
  · exact absurd rfl (other line')

theorem not_made {p : Str → Bool} (each : made.all (fun name => !p name.toList) = true) (member : among made k = true) : p k = false := by
  have apart := among_all (p := fun k => !p k) each member
  exact Bool.not_eq_eq_eq_not.mp apart

theorem replaced_current : replaced verb line ≠ .ok .continue_ := by
  unfold replaced
  intro is
  split at is
  · cases is
  · cases is
  · next keyword other valued =>
    split at is
    · dsimp only at is
      cases keyword with
      | list words =>
        dsimp only at is
        split at is
        · cases is
        · cases is
      | table entries =>
        dsimp only at is
        split at is
        · cases is
        · split at is
          · cases is
          · split at is
            · cases is
            · cases is
    · split at is
      · cases is
      · cases is
      · cases is

theorem finished_continue (is : finished verb line = .ok .continue_) : line.k = "continue".toList := by
  unfold finished at is
  rcases andThen_ok is with ⟨after, first, is⟩ | ⟨wrong, -⟩
  · rcases andThen_ok is with ⟨after', second, is⟩ | ⟨wrong, -⟩
    · obtain ⟨line', shape, same⟩ := added_written second
      cases shape
      split at is
      · next named =>
        rw [nameOf_congr same] at named
        rcases (replaced_name first).1 with own | other
        · exact own.symm.trans named
        · have apart := not_made (p := fun k => decide (k = "continue".toList)) (by decide) other
          exact absurd named (of_decide_eq_false apart)
      · cases is
    · obtain ⟨line', shape, -⟩ := added_written wrong
      cases shape
  · exact absurd wrong replaced_current

/-- What is written is named as the option, as it was given, or as a table has it. -/
theorem rewrite_written (is : rewrite component verb args = .ok (.written line')) :
    line'.k = resolve verb ∨ line'.k = verb ∨ among made line'.k = true := by
  unfold rewrite at is
  rcases andThen_ok is with ⟨second, is', third⟩ | ⟨-, other⟩
  · rcases andThen_ok is' with ⟨first, start, next_⟩ | ⟨-, other⟩
    · rcases finished_written third with same | given | table
      · rw [same]
        rcases adjusted_name next_ with same | table
        · rw [same]
          rcases renamed_name start with same | table
          · exact .inl same
          · exact .inr (.inr table)
        · exact .inr (.inr table)
      · exact .inr (.inl given)
      · exact .inr (.inr table)
    · exact absurd rfl (other second)
  · exact absurd rfl (other line')

theorem renamed_current : renamed component line ≠ .ok .continue_ := by
  unfold renamed
  intro is
  split at is
  · split at is
    · cases is
    · cases is
  · split at is
    · split at is
      · cases is
      · cases is
    · split at is
      · cases is
      · split at is
        · cases is
        · split at is
          · split at is
            · cases is
            · obtain ⟨known, -, became⟩ := map_ok_iff.mp is
              cases known with
              | none => cases became
              | some value => cases became
          · cases is

theorem adjusted_current : adjusted component line ≠ .ok .continue_ := by
  unfold adjusted
  intro is
  split at is
  · split at is
    · cases is
    · split at is
      · cases is
      · cases is
  · split at is
    · split at is
      · cases is
      · cases is
    · split at is
      · cases is
      · split at is
        · split at is
          · cases is
          · cases is
        · split at is
          · cases is
          · cases is

/-- The word by which the table of old keywords marks what is passed over, where a line begins with it. -/
theorem rewrite_continue (is : rewrite component verb args = .ok .continue_) : resolve verb = "continue".toList := by
  have other : among made "continue".toList = false := by decide
  unfold rewrite at is
  rcases andThen_ok is with ⟨second, is', third⟩ | ⟨wrong, -⟩
  · rcases andThen_ok is' with ⟨first, start, next_⟩ | ⟨-, wrong⟩
    · have named := finished_continue third
      rcases adjusted_name next_ with same | table
      · rcases renamed_name start with same' | table
        · exact same'.symm.trans (same.symm.trans named)
        · rw [← same, named, other] at table
          cases table
      · rw [named, other] at table
        cases table
    · exact absurd rfl (wrong second)
  · rcases andThen_ok wrong with ⟨first, -, wrong⟩ | ⟨wrong, -⟩
    · exact absurd wrong adjusted_current
    · exact absurd wrong renamed_current

/-- A name that is treated as it stands. -/
def plain (k : Str) : Bool :=
  unlisted k && !among ["destination", "get", "broker", "directory", "identity", "integrity", "accept", "acceptUnmatched", "strip",
    "post_baseUrl", "sleep"] k

theorem rewrite_plain (as_is : plain (resolve verb) = true) : rewrite component verb args =
    if resolve verb = "continue".toList then .ok .continue_ else .ok (.written ⟨[], resolve verb, dated args, false⟩) := by
  unfold plain at as_is
  obtain ⟨free, apart⟩ := Bool.and_eq_true_iff.mp as_is
  obtain ⟨absent, single⟩ := Bool.and_eq_true_iff.mp free
  have other (name : String) (member : name ∈ ["destination", "get", "broker", "directory", "identity", "integrity", "accept",
      "acceptUnmatched", "strip", "post_baseUrl", "sleep"]) : resolve verb ≠ name.toList := by
    intro is
    rw [among_iff.mpr ⟨name, member, is⟩] at apart
    cases apart
  have sum : ¬ among sums (resolve verb) = true := by
    intro is
    obtain ⟨name, member, is⟩ := among_iff.mp is
    have each : ∀ name ∈ sums, name ∈ ["destination", "get", "broker", "directory", "identity", "integrity", "accept", "acceptUnmatched",
      "strip", "post_baseUrl", "sleep"] := by decide
    exact other name (each name member) is
  have first : renamed component ⟨[], resolve verb, args, false⟩ = .ok (.written ⟨[], resolve verb, args, false⟩) := by
    unfold renamed
    dsimp only
    rw [if_neg (other "destination" (by decide)), if_neg fun wrong => other "get" (by decide) wrong.1,
      if_neg fun wrong => other "broker" (by decide) wrong.1, if_neg fun wrong => other "directory" (by decide) wrong.1, if_neg sum]
  have second : adjusted component ⟨[], resolve verb, args, false⟩ = .ok (.written ⟨[], resolve verb, args, false⟩) := by
    unfold adjusted
    dsimp only
    rw [if_neg (other "accept" (by decide)), if_neg (other "acceptUnmatched" (by decide)),
      if_neg fun wrong => other "strip" (by decide) wrong.1, if_neg (other "post_baseUrl" (by decide)),
      if_neg fun wrong => other "sleep" (by decide) wrong.1]
  have third : replaced verb ⟨[], resolve verb, args, false⟩ = .ok (.written ⟨[], resolve verb, args, false⟩) := by
    unfold replaced
    dsimp only
    rw [Option.isNone_iff_eq_none.mp absent]
  have own : nameOf ⟨[], resolve verb, args, false⟩ ⟨[], resolve verb, args, false⟩ = resolve verb := ite_self _
  have fourth : added (resolve verb) ⟨[], resolve verb, args, false⟩ = .ok (.written ⟨[], resolve verb, args, false⟩) := by
    unfold added
    rw [if_neg (Bool.eq_false_iff.mp (Bool.not_eq_eq_eq_not.mp single))]
  have last : finished verb ⟨[], resolve verb, args, false⟩ =
      if resolve verb = "continue".toList then .ok .continue_ else .ok (.written ⟨[], resolve verb, dated args, false⟩) := by
    unfold finished
    rw [third, Fate.andThen, own, fourth, Fate.andThen, own]
  unfold rewrite
  rw [first, Fate.andThen, second, Fate.andThen, last]

end Names

section Dates

/-- Nothing of a pattern is left, so that it is replaced no second time. -/
theorem pattern_gone (value : Str) : ∀ p ∈ convert_patterns_to_v3, occurs p.1.toList (replacePattern value p) = false := by
  intro p member
  have each : ∀ p ∈ convert_patterns_to_v3, p.1.toList = '$' :: '{' :: p.1.toList.drop 2 ∧
      p.2.toList = '$' :: '{' :: '%' :: p.2.toList.drop 3 ∧ p.1.toList.drop 2 ≠ [] ∧ (p.1.toList.drop 2).head? ≠ some '%' ∧
      '$' ∉ '{' :: p.1.toList.drop 2 ∧ '$' ∉ '{' :: '%' :: p.2.toList.drop 3 := by decide
  obtain ⟨old, new, some_, other, once, once'⟩ := each p member
  generalize p.1.toList.drop 2 = t at old some_ other once
  generalize p.2.toList.drop 3 = u at new once'
  unfold replacePattern
  rw [old, new]
  apply replaceAll_gone once once'
  intro s begins
  obtain ⟨-, later⟩ := List.cons_prefix_cons.mp begins
  cases t with
  | nil => exact some_ rfl
  | cons c t => exact other (congrArg some (List.cons_prefix_cons.mp later).1)

end Dates
end Sarracenia.Guarantees.Conversion
