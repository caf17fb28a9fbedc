import Sarracenia.Source.ConfigFile
import Sarracenia.Guarantees.Conversion.Exceptions

/-!
# The list of masks

Only `accept` and `reject` add to it, and the keyword `masks`, which is no option but the name of an attribute that is a list.
-/
namespace Sarracenia.Guarantees.ConfigFile
open Library Library.Text Library.Decimal Library.Dynamic
open Source Source.ConfigFile
open Source.Conversion (among)
open Conversion (among_name)

theorem names_apart {a b : String} (other : a ≠ b) : a.toList ≠ b.toList := fun same => other (String.toList_inj.mp same)

section Same
variable {L : Type} {w : World L} {s s' s'' : Conf L} {k : Str} {a : Attr} {b : Branch}

/-- The masks are what they were. -/
def Same (s s' : Conf L) : Prop := s'.attr "masks".toList = s.attr "masks".toList

theorem Same.refl (s : Conf L) : Same s s := rfl

theorem Same.trans (one : Same s s') (two : Same s' s'') : Same s s'' := Eq.trans two one

theorem Same.masks {x : Option Attr} (same : Same s s') (are : s.attr "masks".toList = x) : s'.attr "masks".toList = x := Eq.trans same are

@[simp] theorem setattr_self : (s.setattr k a).attr k = some a := if_pos rfl

theorem setattr_ne {n : Str} (other : n ≠ k) : (s.setattr k a).attr n = s.attr n := if_neg other

theorem setattr_same (other : k ≠ "masks".toList) : Same s (s.setattr k a) := setattr_ne other.symm

theorem named_same {name : String} (other : name ≠ "masks") : Same s (s.setattr name.toList a) := setattr_same (names_apart other)

theorem append_same {name : String} {item : Item} (other : name ≠ "masks") : Same s (s.append name item) := named_same other

theorem append_new_same {name : String} {v : Str} (other : name ≠ "masks") : Same s (s.append_new name v) := by
  unfold Conf.append_new
  split
  · exact .refl s
  · exact append_same other

theorem insert_new_same {name : String} {v : Str} (other : name ≠ "masks") : Same s (s.insert_new name v) := by
  unfold Conf.insert_new
  split
  · exact .refl s
  · exact named_same other

theorem attempt_same {r : Except Fault (Conf L)} (each : ∀ s', r = .ok s' → Same s s') : Same s (attempt s r).1 := by
  cases r with
  | error fault => exact .refl s
  | ok s' => exact each s' rfl

/-- What a computation gives is put into one attribute. -/
theorem attempt_set {α : Type} {r : Except Fault α} {f : α → Attr} (other : k ≠ "masks".toList) :
    Same s (attempt s (r.map fun x => s.setattr k (f x))).1 := by
  refine attempt_same fun s' is => ?_
  obtain ⟨x, -, rfl⟩ := map_ok_iff.mp is
  exact setattr_same other

theorem declare_same {words : List Str} (is : _parse_declare s words = .ok s') : Same s s' := by
  cases words with
  | nil => cases is
  | cons kind rest =>
    unfold _parse_declare at is
    dsimp only at is
    split at is
    · cases rest with
      | nil => cases is
      | cons word rest =>
        dsimp only at is
        split at is
        · cases is
          exact append_same (by decide)
        · cases is
          exact .refl s
    · split at is
      · cases is
      · split at is
        · cases rest with
          | nil => cases is
          | cons user rest =>
            cases is
            exact .refl s
        · split at is
          · cases rest with
            | nil => cases is
            | cons exchange rest =>
              cases is
              exact append_same (by decide)
          · cases is
            exact .refl s

theorem identity_same (value : Str) : Same s (s.identity value) := by
  unfold Conf.identity
  dsimp only
  split
  · exact named_same (by decide)
  · have arbitrary : Same s
        (if value.take 2 = "a,".toList then s.setattr "identity_arbitrary_value".toList (.text (value.drop 2)) else s) := by
      split
      · exact named_same (by decide)
      · exact .refl s
    revert arbitrary
    generalize (if value.take 2 = "a,".toList then s.setattr "identity_arbitrary_value".toList (.text (value.drop 2)) else s) = s'
    intro arbitrary
    have set (a : Attr) : Same s (s'.setattr "identity_method".toList a) := arbitrary.trans (named_same (by decide))
    repeat' split
    all_goals exact set _

theorem sum_same {value : Str} (is : _parse_sum s value = .ok s') : Same s s' := by
  unfold _parse_sum at is
  split at is
  · cases is
    exact identity_same _
  · split at is
    · cases is
      split
      · exact .refl s
      · exact identity_same _
    · cases is
    · cases is
    · cases is
      exact .refl s

theorem inflight_same {v : Str} (other : k ≠ "masks".toList) (is : s.inflight w k v = .ok s') : Same s s' := by
  unfold Conf.inflight at is
  split at is
  · obtain ⟨value, -, done⟩ := bind_ok_iff.mp is
    cases done
    exact (setattr_same other).trans (named_same (by decide))
  · cases is
    exact setattr_same other

theorem strip_same {v : Str} (is : s.strip_ w v = .ok s') : Same s s' := by
  have both {one two : String} {a b : Attr} (first : one ≠ "masks") (second : two ≠ "masks") :
      Same s ((s.setattr one.toList a).setattr two.toList b) := (named_same first).trans (named_same second)
  unfold Conf.strip_ at is
  split at is
  · obtain ⟨n, -, done⟩ := bind_ok_iff.mp is
    cases done
    exact both (by decide) (by decide)
  · split at is <;> cases is <;> exact both (by decide) (by decide)

theorem choose_same {v : Str} (other : k ≠ "masks".toList) (is : s.choose k v = .ok s') : Same s s' := by
  unfold Conf.choose at is
  split at is
  · cases is
    exact setattr_same other
  · split at is
    · cases is
      split
      · exact setattr_same other
      · exact .refl s
    · split at is
      · cases is
      · obtain ⟨value, -, rfl⟩ := map_ok_iff.mp is
        exact setattr_same other

theorem extend_same {v : Str} (other : k ≠ "masks".toList) (is : s.extend k v = .ok s') : Same s s' := by
  unfold Conf.extend at is
  repeat' split at is
  all_goals cases is
  all_goals exact setattr_same other

theorem undeclared_same {cfname v : Str} {lineno : Nat} (other : k ≠ "masks".toList) (is : s.undeclared w cfname lineno k v = .ok s') :
    Same s s' := by
  unfold Conf.undeclared at is
  split at is
  · cases is
    exact (setattr_same other).trans (append_same (by decide))
  · cases is
    exact setattr_same other
  · obtain ⟨value, -, rfl⟩ := map_ok_iff.mp is
    exact setattr_same other
  · cases is
    exact setattr_same other
  · cases is
    exact setattr_same other
  · cases is
    exact .refl s

theorem setStr_same {v : Str} (other : k ≠ "masks".toList) : Same s (s.setStr w k v).1 := by
  unfold Conf.setStr
  split
  · exact .refl s
  · split
    · exact .refl s
    · exact setattr_same other

/-- A branch that is not chosen by a name that a line can have added has its keyword in a table. -/
theorem branch_masks : branchOf s "masks".toList = .port ∨ branchOf s "masks".toList = .entry ∨ branchOf s "masks".toList = .other := by
  unfold branchOf
  have tables : ∀ names ∈ [["accept", "reject"], ["callback", "cb"], ["callback_prepend", "cbp"], ["declare"], ["feeder", "manager"],
      ["header", "h"], ["include", "config"], ["subtopic", "topic"], ["topicPrefix", "post_topicPrefix"], ["import"],
      ["flow_callback", "flowcb", "fcb", "flowCallback"], ["flow_callback_prepend", "flowcb_prepend", "fcbp", "flowCallbackPrepend"],
      ["set", "setting", "s"], ["identity", "integrity"], ["no-import"], ["inflight", "lock"], ["strip"], duration_options,
      float_options, perm_options, size_options ++ count_options, list_options, set_options, str_options],
      among names "masks".toList = false := by
    simp only [among_name]
    decide
  simp only [List.forall_mem_cons] at tables
  simp only [tables, Bool.false_eq_true, if_false]
  by_cases port : s.names "port_required" "masks".toList = true
  · left
    rw [if_pos port]
  · rw [if_neg port]
    right
    split
    · exact .inl rfl
    · exact .inr rfl

/-- What a branch other than that of a mask leaves of them. -/
theorem perform_same {cfname v : Str} {lineno : Nat} {more : List Str} (other : b ≠ .mask)
    (apart : b = .port ∨ b = .entry ∨ k ≠ "masks".toList) : Same s (perform w s b cfname lineno k v more).1 := by
  have named (unlisted : b ≠ .port ∧ b ≠ .entry) : k ≠ "masks".toList := by
    rcases apart with port | entry | named
    · exact absurd port unlisted.1
    · exact absurd entry unlisted.2
    · exact named
  unfold perform
  cases b with
  | mask => exact absurd rfl other
  | late => exact append_new_same (by decide)
  | early => exact insert_new_same (by decide)
  | declare => exact attempt_same fun s' is => declare_same is
  | feeder =>
    refine attempt_same fun s' is => ?_
    obtain ⟨user, -, rfl⟩ := map_ok_iff.mp is
    exact named_same (a := .object) (by decide : "feeder" ≠ "masks")
  | header =>
    dsimp only
    split <;> exact .refl s
  | include_ => exact .refl s
  | subtopic =>
    dsimp only
    generalize w.bind _ _ _ _ = bound
    have path {s' : Conf L} {name : String} (before : Same s s') (other : name ≠ "masks") (t : Option Str) :
        Same s (t.elim s' fun t => s'.setattr name.toList (.text t)) := by
      cases t with
      | none => exact before
      | some t => exact before.trans (named_same other)
    have seen : Same s (s.setattr "subtopic_seen".toList (.bool true)) := named_same (by decide)
    exact path (path seen (by decide) bound.queue_filename) (by decide) bound.subscriptionsPath
  | topicPrefix => exact setattr_same (named (by decide))
  | import_ => exact append_same (by decide)
  | setting => exact .refl s
  | identity => exact attempt_same fun s' is => sum_same is
  | port => exact .refl s
  | entry => exact .refl s
  | unplugin => exact .refl s
  | inflight => exact attempt_same fun s' is => inflight_same (named (by decide)) is
  | strip => exact attempt_same fun s' is => strip_same is
  | duration => exact attempt_set (f := id) (named (by decide))
  | float => exact setattr_same (named (by decide))
  | perm =>
    dsimp only
    split
    · exact attempt_set (named (by decide))
    · exact .refl s
  | count => exact attempt_set (named (by decide))
  | list => exact attempt_same fun s' is => extend_same (named (by decide)) is
  | set => exact attempt_same fun s' is => choose_same (named (by decide)) is
  | str => exact setStr_same (named (by decide))
  | other => exact attempt_same fun s' is => undeclared_same (named (by decide)) is

end Same

/-! ## What is added to them -/

section Added
variable {L : Type} {w : World L} {s : Conf L} {k v : Str} {items : List Item}

/-- A line for a mask gives one that can be used: the expression compiles, and where it accepts, the pattern to strip compiles,
unless a number of directories is given, and `flatten` is set. -/
def Usable (w : World L) (s : Conf L) (k v : Str) : Prop :=
  (w.compile v).isSome ∧
    (Config.lower k = "accept".toList → (s.stripOf = 0 → (patternOf w s.pstripOf).isSome) ∧ (s.textOf "flatten").isSome)

theorem maskOf_isSome (m : Mask) :
    (maskOf w (.mask m)).isSome ↔ (m.accepting = true → (m.strip = 0 → (patternOf w m.pstrip).isSome) ∧ m.flatten.isSome) := by
  unfold maskOf
  dsimp only
  by_cases accepting : m.accepting = true
  · rw [if_pos accepting]
    by_cases strip : m.strip > 0
    · cases flatten : m.flatten <;> simp [accepting, strip, Nat.ne_of_gt strip]
    · have zero : m.strip = 0 := by omega
      cases pattern : patternOf w m.pstrip <;> cases flatten : m.flatten <;> simp [accepting, zero]
  · rw [if_neg accepting]
    simp [accepting]

theorem usable_iff (more : List Str) : (maskOf w (_build_mask w s k v more).1).isSome ↔ Usable w s k v := by
  unfold _build_mask Usable
  cases w.compile v with
  | none => simp [maskOf]
  | some regexp =>
    dsimp only
    rw [maskOf_isSome]
    simp only [Option.isSome_some, true_and, decide_eq_true_eq]

theorem append_masks {item : Item} (are : s.attr "masks".toList = some (.list items)) :
    (s.append "masks" item).attr "masks".toList = some (.list (items ++ [item])) := by
  unfold Conf.append Conf.listOf
  rw [are]
  exact setattr_self

theorem perform_mask {cfname : Str} {lineno : Nat} {more : List Str} (are : s.attr "masks".toList = some (.list items)) :
    (perform w s .mask cfname lineno k v more).1.attr "masks".toList = some (.list (items ++ [(_build_mask w s k v more).1])) := by
  unfold perform
  dsimp only
  generalize _build_mask w s k v more = built
  apply append_masks
  cases built.2 with
  | none => exact are
  | some script => exact (named_same (by decide : "destfn_scripts" ≠ "masks")).masks are

/-- The keyword `masks` adds a text. -/
theorem perform_text {cfname : Str} {lineno : Nat} {more : List Str} (are : s.attr "masks".toList = some (.list items)) :
    (perform w s .other cfname lineno "masks".toList v more).1.attr "masks".toList =
      some (.list (items ++ [.text (join [' '] (v :: more))])) := by
  unfold perform Conf.undeclared
  dsimp only
  rw [are]
  exact setattr_self

end Added

end Sarracenia.Guarantees.ConfigFile
