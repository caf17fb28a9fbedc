import Mathlib.Data.List.Forall2
import Sarracenia.Source.Subscriptions

/-!
# The bindings `Subscriptions.finalize` removes

What is to be removed from a queue is what the previous subscription bound it to and the new one
does not. The code asks whether the previous binding is among the new ones recorded so far, for
this queue and for those before it, and compares all of their keys.
-/
namespace Sarracenia.Guarantees.Subscriptions
open Library Library.Dynamic Source.Subscriptions

section Forall₂
variable {α γ : Type} {R S : α → γ → Prop} {as : List α} {bs : List γ}

theorem forall₂_getElem? {j : Nat} {a : α} (all : List.Forall₂ R as bs) (there : as[j]? = some a) :
    ∃ b, bs[j]? = some b ∧ R a b := by
  induction all generalizing j with
  | nil => cases there
  | cons here all ih =>
    cases j with
    | zero =>
      obtain rfl := Option.some.inj there
      exact ⟨_, rfl, here⟩
    | succ j => exact ih there

theorem forall₂_of_getElem? (all : List.Forall₂ R as bs)
    (each : ∀ (j : Nat) (a : α) (b : γ), as[j]? = some a → bs[j]? = some b → S a b) : List.Forall₂ S as bs := by
  induction all with
  | nil => exact .nil
  | cons here all ih => exact .cons (each 0 _ _ rfl rfl) (ih fun j => each (j + 1))

theorem forall₂_mem {b : γ} (all : List.Forall₂ R as bs) (there : b ∈ bs) : ∃ a ∈ as, R a b := by
  induction all with
  | nil => cases there
  | cons here all ih =>
    rcases List.mem_cons.mp there with rfl | there
    · exact ⟨_, List.mem_cons_self, here⟩
    · obtain ⟨a, member, related⟩ := ih there
      exact ⟨a, List.mem_cons_of_mem _ member, related⟩

end Forall₂

section Removal
variable {β ν : Type}

/-- Of one broker and one queue name. -/
def Matches (os s : Subscription β ν) : Prop := s.broker = os.broker ∧ s.queue.name = os.queue.name

/-- For one exchange and one topic. -/
def Alike (b ob : Binding ν) : Prop :=
  b.get "exchange" = ob.get "exchange" ∧ b.get "topic" = ob.get "topic"

/-- The exchanges differ, or each binding has a topic. -/
def Comparable (b ob : Binding ν) : Prop :=
  b.get "exchange" ≠ ob.get "exchange" ∨ (b.get "topic").isSome ∧ (ob.get "topic").isSome

/-- The bindings of the previous subscription that the new one does not have. -/
def Gone (os s : Subscription β ν) (ob : Binding ν) : Prop :=
  ob ∈ os.bindings ∧ ∀ b ∈ s.bindings, ¬ Alike b ob

/-- The bindings of the new subscription that the previous one has. -/
def Kept (os s : Subscription β ν) (b : Binding ν) : Prop :=
  b ∈ s.bindings ∧ ∃ ob ∈ os.bindings, Alike b ob

def ComparableAll (os s : Subscription β ν) : Prop :=
  ∀ b ∈ s.bindings, ∀ ob ∈ os.bindings, Comparable b ob

/-- What the pairs are chosen by, and what is recorded, stays. -/
structure Frame (s s' : Subscription β ν) : Prop where
  broker : s'.broker = s.broker
  name : s'.queue.name = s.queue.name
  bindings : s'.bindings = s.bindings

variable {os s s' : Subscription β ν} {seen new now ss : List (Subscription β ν)}

/-- Recorded for the previous subscription, from the new ones given. -/
def RecordedFrom (os : Subscription β ν) (news : List (Subscription β ν)) (b : Binding ν) : Prop :=
  ∃ s ∈ news, Matches os s ∧ Kept os s b

theorem recordedFrom_cons {b : Binding ν} :
    RecordedFrom os (s :: ss) b ↔ Matches os s ∧ Kept os s b ∨ RecordedFrom os ss b := by
  unfold RecordedFrom
  rw [List.exists_mem_cons_iff]

theorem Frame.matches_iff (frame : Frame s s') : Matches os s' ↔ Matches os s := by
  rw [Matches, Matches, frame.broker, frame.name]

theorem Frame.kept_iff {b : Binding ν} (frame : Frame s s') : Kept os s' b ↔ Kept os s b := by
  rw [Kept, Kept, frame.bindings]

theorem Frame.trans {s'' : Subscription β ν} (first : Frame s s') (second : Frame s' s'') : Frame s s'' :=
  ⟨second.broker.trans first.broker, second.name.trans first.name, second.bindings.trans first.bindings⟩

theorem recordedFrom_frames {b : Binding ν} (frames : List.Forall₂ Frame new now) :
    RecordedFrom os now b ↔ RecordedFrom os new b := by
  induction frames with
  | nil => rfl
  | cons frame frames ih => rw [recordedFrom_cons, recordedFrom_cons, frame.matches_iff, frame.kept_iff, ih]

/-- Recorded up to a pair: for a previous subscription before, or for this one from the new
subscriptions given. -/
def Recorded (seen new : List (Subscription β ν)) (os : Subscription β ν) (news : List (Subscription β ν))
    (b : Binding ν) : Prop :=
  (∃ os' ∈ seen, RecordedFrom os' new b) ∨ RecordedFrom os news b

/-- The last previous subscription of the broker and queue name. -/
def LastMatch (old olds : List (Subscription β ν)) (os s : Subscription β ν) : Prop :=
  Matches os s ∧ ∃ later, old = olds ++ os :: later ∧ ∀ os' ∈ later, ¬ Matches os' s

theorem frames_trans {now' : List (Subscription β ν)} (first : List.Forall₂ Frame new now)
    (second : List.Forall₂ Frame now now') : List.Forall₂ Frame new now' := by
  induction first generalizing now' with
  | nil => exact second
  | cons frame frames ih =>
    cases second with
    | cons frame' frames' => exact .cons (frame.trans frame') (ih frames')

theorem lastMatch_cons {old olds : List (Subscription β ν)} {o : Subscription β ν} :
    LastMatch (o :: old) olds os s ↔
      olds = [] ∧ os = o ∧ Matches o s ∧ (∀ os' ∈ old, ¬ Matches os' s) ∨
        ∃ olds', olds = o :: olds' ∧ LastMatch old olds' os s := by
  constructor
  · rintro ⟨matches_, later, parts, rest⟩
    cases olds with
    | nil =>
      obtain ⟨rfl, rfl⟩ := List.cons.inj parts
      exact Or.inl ⟨rfl, rfl, matches_, rest⟩
    | cons o' olds' =>
      obtain ⟨rfl, rest_⟩ := List.cons.inj parts
      exact Or.inr ⟨olds', rfl, matches_, later, rest_, rest⟩
  · rintro (⟨rfl, rfl, matches_, rest⟩ | ⟨olds', rfl, matches_, later, rfl, rest⟩)
    · exact ⟨matches_, old, rfl, rest⟩
    · exact ⟨matches_, later, rfl, rest⟩

theorem LastMatch.mem {old olds : List (Subscription β ν)} (last : LastMatch old olds os s) : os ∈ old := by
  obtain ⟨-, later, rfl, -⟩ := last
  exact List.mem_append_right _ List.mem_cons_self

theorem LastMatch.unique {old olds olds' : List (Subscription β ν)} {os' : Subscription β ν}
    (one : LastMatch old olds os s) (other : LastMatch old olds' os' s) : olds = olds' ∧ os = os' := by
  induction old generalizing olds olds' with
  | nil => exact nomatch one.mem
  | cons o old ih =>
    rcases lastMatch_cons.mp one with ⟨rfl, rfl, -, none_⟩ | ⟨olds₁, rfl, one'⟩
    · rcases lastMatch_cons.mp other with ⟨rfl, rfl, -, -⟩ | ⟨olds₂, rfl, other'⟩
      · exact ⟨rfl, rfl⟩
      · exact absurd other'.1 (none_ os' other'.mem)
    · rcases lastMatch_cons.mp other with ⟨rfl, rfl, -, none_⟩ | ⟨olds₂, rfl, other'⟩
      · exact absurd one'.1 (none_ os one'.mem)
      · obtain ⟨rfl, rfl⟩ := ih one' other'
        exact ⟨rfl, rfl⟩

end Removal

/-! ## One pair -/

section Pair
variable {ν : Type} [DecidableEq ν] {b ob : Binding ν} {bs obs recorded : List (Binding ν)}

instance (b ob : Binding ν) : Decidable (Alike b ob) := inferInstanceAs (Decidable (_ ∧ _))

instance (b ob : Binding ν) : Decidable (Comparable b ob) := inferInstanceAs (Decidable (_ ∨ _))

theorem alike_of_other (other : b.get "exchange" ≠ ob.get "exchange") :
    (if Comparable b ob then Except.ok (decide (Alike b ob)) else .error Fault.keyError) = .ok false := by
  have comparable : Comparable b ob := Or.inl other
  have apart : ¬ Alike b ob := fun both => other both.1
  rw [if_pos comparable, decide_eq_false apart]

theorem alike_eq :
    alike b ob = if Comparable b ob then .ok (decide (Alike b ob)) else .error .keyError := by
  unfold alike
  split
  · next apart => exact (alike_of_other fun same => apart (congrArg _ same)).symm
  · split
    · next other => exact (alike_of_other other).symm
    · next same =>
      have same := not_not.mp same
      unfold item
      cases topic : b.get "topic" with
      | none =>
        have missing : ¬ Comparable b ob := fun either =>
          either.elim (fun other => other same) fun both => by simp [topic] at both
        rw [if_neg missing]
        rfl
      | some t =>
        cases otopic : ob.get "topic" with
        | none =>
          have missing : ¬ Comparable b ob := fun either =>
            either.elim (fun other => other same) fun both => by simp [otopic] at both
          rw [if_neg missing]
          rfl
        | some u =>
          have both : Comparable b ob := Or.inr ⟨by rw [topic]; rfl, by rw [otopic]; rfl⟩
          have topics : Alike b ob ↔ t = u := by simp [Alike, same, topic, otopic]
          rw [if_pos both, decide_eq_decide.mpr topics]
          rfl

theorem recordBinding_ok (comparable : ∀ ob ∈ obs, Comparable b ob) :
    ∃ recorded, recordBinding b obs = .ok recorded := by
  induction obs with
  | nil => exact ⟨[], rfl⟩
  | cons ob obs ih =>
    obtain ⟨recorded, rest⟩ := ih fun ob member => comparable ob (List.mem_cons_of_mem _ member)
    rw [recordBinding, alike_eq, if_pos (comparable ob List.mem_cons_self), rest]
    change ∃ recorded', (if decide (Alike b ob) = true then _ else _) = _
    split
    · exact ⟨b :: recorded, rfl⟩
    · exact ⟨recorded, rfl⟩

theorem recordBinding_spec (done : recordBinding b obs = .ok recorded) :
    (∀ ob ∈ obs, Comparable b ob) ∧ ∀ x, x ∈ recorded ↔ x = b ∧ ∃ ob ∈ obs, Alike b ob := by
  induction obs generalizing recorded with
  | nil =>
    obtain rfl := Except.ok.inj done
    exact ⟨nofun, fun x => ⟨nofun, fun both => nomatch both.2⟩⟩
  | cons ob obs ih =>
    rw [recordBinding, alike_eq] at done
    split at done
    · next comparable =>
      change (if decide (Alike b ob) = true then _ else _) = _ at done
      simp only [List.mem_cons, forall_eq_or_imp, exists_eq_or_imp]
      split at done
      · next alike =>
        have alike := of_decide_eq_true alike
        obtain ⟨rest, computed, done⟩ := bind_ok_iff.mp done
        obtain rfl := Except.ok.inj done
        obtain ⟨others, members⟩ := ih computed
        refine ⟨⟨comparable, others⟩, fun x => ?_⟩
        rw [List.mem_cons, members]
        exact ⟨fun either => either.elim (fun here => ⟨here, .inl alike⟩) fun both => ⟨both.1, .inr both.2⟩,
          fun both => .inl both.1⟩
      · next other =>
        have other : ¬ Alike b ob := fun alike => other (decide_eq_true alike)
        obtain ⟨others, members⟩ := ih done
        refine ⟨⟨comparable, others⟩, fun x => ?_⟩
        rw [members]
        simp only [other, false_or]
    · cases done

theorem recordBindings_ok (comparable : ∀ b ∈ bs, ∀ ob ∈ obs, Comparable b ob) :
    ∃ recorded, recordBindings obs bs = .ok recorded := by
  induction bs with
  | nil => exact ⟨[], rfl⟩
  | cons b bs ih =>
    obtain ⟨here, first⟩ := recordBinding_ok (comparable b List.mem_cons_self)
    obtain ⟨rest, others⟩ := ih fun b member => comparable b (List.mem_cons_of_mem _ member)
    exact ⟨here ++ rest, by rw [recordBindings, first, others]; rfl⟩

theorem recordBindings_spec (done : recordBindings obs bs = .ok recorded) :
    (∀ b ∈ bs, ∀ ob ∈ obs, Comparable b ob) ∧
      ∀ x, x ∈ recorded ↔ x ∈ bs ∧ ∃ ob ∈ obs, Alike x ob := by
  induction bs generalizing recorded with
  | nil =>
    obtain rfl := Except.ok.inj done
    exact ⟨nofun, fun x => ⟨nofun, fun both => nomatch both.1⟩⟩
  | cons b bs ih =>
    rw [recordBindings] at done
    obtain ⟨here, first, done⟩ := bind_ok_iff.mp done
    obtain ⟨rest, others, done⟩ := bind_ok_iff.mp done
    obtain rfl := Except.ok.inj done
    obtain ⟨one, ones⟩ := recordBinding_spec first
    obtain ⟨all, members⟩ := ih others
    refine ⟨List.forall_mem_cons.mpr ⟨one, all⟩, fun x => ?_⟩
    rw [List.mem_append, ones, members, List.mem_cons, or_and_right]
    refine or_congr_left (and_congr_right ?_)
    rintro rfl
    rfl

end Pair

section Run
variable {β ν : Type} [DecidableEq ν] {os s s' : Subscription β ν} {both both' : List (Binding ν)}

/-- What is to be removed, after the pair that has recorded the bindings. -/
def RemovedAgainst (os : Subscription β ν) (recorded : Binding ν → Prop) (s' : Subscription β ν) : Prop :=
  ∀ ob, ob ∈ s'.bindings_to_remove ↔ ob ∈ os.bindings ∧ ¬ ∃ b, recorded b ∧ ob.same b = true

theorem removedAgainst_congr {recorded recorded' : Binding ν → Prop} (same : ∀ b, recorded b ↔ recorded' b)
    (removed : RemovedAgainst os recorded s') : RemovedAgainst os recorded' s' := by
  intro ob
  rw [removed ob]
  simp only [same]

variable {seen new now : List (Subscription β ν)}

/-- What the new subscription at the place holds after the previous subscriptions seen. -/
def Settled (seen new : List (Subscription β ν)) (j : Nat) (s t : Subscription β ν) : Prop :=
  ((∀ os ∈ seen, ¬ Matches os s) ∧ t.bindings_to_remove = s.bindings_to_remove) ∨
    ∃ olds os, LastMatch seen olds os s ∧ RemovedAgainst os (Recorded olds new os (new.take (j + 1))) t

structure Inv (seen new now : List (Subscription β ν)) (both : List (Binding ν)) : Prop where
  comparable : ∀ os ∈ seen, ∀ s ∈ new, Matches os s → ComparableAll os s
  frames : List.Forall₂ Frame new now
  recorded : ∀ b, b ∈ both ↔ ∃ os ∈ seen, RecordedFrom os new b
  each : ∀ (j : Nat) (s t : Subscription β ν), new[j]? = some s → now[j]? = some t → Settled seen new j s t

theorem inv_start : Inv [] new new [] where
  comparable := nofun
  frames := List.forall₂_same.mpr fun _ _ => ⟨rfl, rfl, rfl⟩
  recorded _ := ⟨nofun, fun ⟨_, member, _⟩ => nomatch member⟩
  each j s t before after := by
    obtain rfl := Option.some.inj (before.symm.trans after)
    exact Or.inl ⟨nofun, rfl⟩

theorem Settled.append {j : Nat} (settled : Settled seen new j s s') (other : ¬ Matches os s) :
    Settled (seen ++ [os]) new j s s' := by
  rcases settled with ⟨none_, kept⟩ | ⟨olds, last, ⟨matches_, later, rfl, rest⟩, removed⟩
  · refine Or.inl ⟨fun os' member => ?_, kept⟩
    rcases List.mem_append.mp member with member | member
    · exact none_ os' member
    · rwa [List.mem_singleton.mp member]
  · refine Or.inr ⟨olds, last, ⟨matches_, later ++ [os], ?_, fun os' member => ?_⟩, removed⟩
    · rw [List.append_assoc, List.cons_append]
    · rcases List.mem_append.mp member with member | member
      · exact rest os' member
      · rwa [List.mem_singleton.mp member]

variable {ss ss' now' : List (Subscription β ν)}

structure EachSpec (os : Subscription β ν) (ss : List (Subscription β ν)) (both : List (Binding ν))
    (ss' : List (Subscription β ν)) (both' : List (Binding ν)) : Prop where
  comparable : ∀ s ∈ ss, Matches os s → ComparableAll os s
  frames : List.Forall₂ Frame ss ss'
  recorded : ∀ b, b ∈ both' ↔ b ∈ both ∨ RecordedFrom os ss b
  each : ∀ (j : Nat) (s s' : Subscription β ν), ss[j]? = some s → ss'[j]? = some s' →
    (Matches os s → RemovedAgainst os (fun b => b ∈ both ∨ RecordedFrom os (ss.take (j + 1)) b) s') ∧
      (¬ Matches os s → s' = s)

theorem inv_step (inv : Inv seen new now both) (spec : EachSpec os now both now' both') :
    Inv (seen ++ [os]) new now' both' where
  comparable os' member s there matches_ := by
    rcases List.mem_append.mp member with member | member
    · exact inv.comparable os' member s there matches_
    · obtain rfl := List.mem_singleton.mp member
      obtain ⟨j, place⟩ := List.getElem?_of_mem there
      obtain ⟨t, now_, frame⟩ := forall₂_getElem? inv.frames place
      have comparable := spec.comparable t (List.mem_of_getElem? now_) (frame.matches_iff.mpr matches_)
      rwa [ComparableAll, frame.bindings] at comparable
  frames := frames_trans inv.frames spec.frames
  recorded b := by
    rw [spec.recorded, inv.recorded, recordedFrom_frames inv.frames]
    simp only [List.mem_append, List.mem_singleton, or_and_right, exists_or, exists_eq_left]
  each j s t' before after := by
    obtain ⟨t, now_, frame⟩ := forall₂_getElem? inv.frames before
    obtain ⟨removed, other⟩ := spec.each j t t' now_ after
    by_cases matches_ : Matches os s
    · refine Or.inr ⟨seen, os, ⟨matches_, [], rfl, nofun⟩, ?_⟩
      refine removedAgainst_congr (fun b => ?_) (removed (frame.matches_iff.mpr matches_))
      rw [inv.recorded, recordedFrom_frames (List.forall₂_take _ inv.frames)]
      rfl
    · rw [other fun is => matches_ (frame.matches_iff.mp is)]
      exact (inv.each j s t before now_).append matches_

/-- Of a previous binding, that the new subscription still has it is the same as that a binding
equal to it in every key is recorded up to there. -/
def RecordedWhenKept (olds new : List (Subscription β ν)) (j : Nat) (os s : Subscription β ν) : Prop :=
  ∀ ob ∈ os.bindings,
    (∃ b ∈ s.bindings, Alike b ob) ↔ ∃ b, Recorded olds new os (new.take (j + 1)) b ∧ ob.same b = true

theorem removed_iff_gone {olds : List (Subscription β ν)} {j : Nat}
    (removed : RemovedAgainst os (Recorded olds new os (new.take (j + 1))) s') :
    (∀ ob, ob ∈ s'.bindings_to_remove ↔ Gone os s ob) ↔ RecordedWhenKept olds new j os s := by
  constructor
  · intro gone ob member
    have here := gone ob
    rw [removed ob, Gone, and_congr_right_iff] at here
    have here := not_congr (here member)
    rw [not_not] at here
    rw [here]
    simp only [not_forall, not_not, exists_prop]
  · intro recorded ob
    rw [removed ob, Gone]
    refine and_congr_right fun member => ?_
    rw [← recorded ob member]
    simp only [not_exists, not_and]

variable [DecidableEq β]

theorem isIn_iff {ob : Binding ν} : isIn both ob = true ↔ ∃ b, b ∈ both ∧ ob.same b = true := List.any_eq_true

structure PairSpec (os s : Subscription β ν) (both : List (Binding ν)) (s' : Subscription β ν)
    (both' : List (Binding ν)) : Prop where
  comparable : Matches os s → ComparableAll os s
  frame : Frame s s'
  recorded : ∀ b, b ∈ both' ↔ b ∈ both ∨ Matches os s ∧ Kept os s b
  removed : Matches os s → RemovedAgainst os (· ∈ both') s'
  other : ¬ Matches os s → s' = s

theorem finalizePair_spec (done : finalizePair os s both = .ok (s', both')) : PairSpec os s both s' both' := by
  unfold finalizePair at done
  have skipped (other : ¬ Matches os s) (done : (.ok (s, both) : Except Fault _) = .ok (s', both')) :
      PairSpec os s both s' both' := by
    obtain ⟨rfl, rfl⟩ := Prod.mk.inj (Except.ok.inj done)
    exact {
      comparable := fun is => absurd is other
      frame := ⟨rfl, rfl, rfl⟩
      recorded := fun b => ⟨.inl, fun either => either.elim id fun both => absurd both.1 other⟩
      removed := fun is => absurd is other
      other := fun _ => rfl }
  split at done
  · next broker => exact skipped (fun is => broker is.1) done
  · next broker =>
    split at done
    · next name => exact skipped (fun is => name is.2) done
    · next name =>
      have matches_ : Matches os s := ⟨not_not.mp broker, not_not.mp name⟩
      obtain ⟨recorded, computed, done⟩ := bind_ok_iff.mp done
      obtain ⟨rfl, rfl⟩ := Prod.mk.inj (Except.ok.inj done)
      obtain ⟨comparable, members⟩ := recordBindings_spec computed
      refine {
        comparable := fun _ => comparable
        frame := ⟨rfl, rfl, rfl⟩
        recorded := fun b => ?_
        removed := fun _ ob => ?_
        other := fun other => absurd matches_ other }
      · rw [List.mem_append, members]
        exact or_congr_right ⟨fun kept => ⟨matches_, kept⟩, And.right⟩
      · rw [List.mem_filter, Bool.not_eq_true', ← Bool.not_eq_true, isIn_iff]

theorem finalizePair_ok (both : List (Binding ν)) (comparable : Matches os s → ComparableAll os s) :
    ∃ after, finalizePair os s both = .ok after := by
  unfold finalizePair
  split
  · exact ⟨_, rfl⟩
  · next broker =>
    split
    · exact ⟨_, rfl⟩
    · next name =>
      obtain ⟨recorded, computed⟩ := recordBindings_ok (comparable ⟨not_not.mp broker, not_not.mp name⟩)
      rw [computed]
      exact ⟨_, rfl⟩

/-! ## The new subscriptions, for one previous subscription -/

section Each
variable {ss ss' : List (Subscription β ν)}

theorem finalizeEach_spec (done : finalizeEach os ss both = .ok (ss', both')) :
    EachSpec os ss both ss' both' := by
  induction ss generalizing both ss' both' with
  | nil =>
    obtain ⟨rfl, rfl⟩ := Prod.mk.inj (Except.ok.inj done)
    exact {
      comparable := nofun
      frames := .nil
      recorded := fun b => ⟨.inl, fun either => either.elim id fun ⟨_, member, _⟩ => nomatch member⟩
      each := nofun }
  | cons s ss ih =>
    rw [finalizeEach] at done
    obtain ⟨⟨t, mid⟩, first, done⟩ := bind_ok_iff.mp done
    obtain ⟨⟨ts, last⟩, rest, done⟩ := bind_ok_iff.mp done
    obtain ⟨rfl, rfl⟩ := Prod.mk.inj (Except.ok.inj done)
    have here := finalizePair_spec first
    have later := ih rest
    exact {
      comparable := List.forall_mem_cons.mpr ⟨here.comparable, later.comparable⟩
      frames := .cons here.frame later.frames
      recorded := fun b => by rw [later.recorded, here.recorded, recordedFrom_cons, or_assoc]
      each := by
        intro j s₁ s₁' before after
        cases j with
        | zero =>
          obtain rfl := Option.some.inj before
          obtain rfl := Option.some.inj after
          refine ⟨fun matches_ => ?_, here.other⟩
          refine removedAgainst_congr (fun b => ?_) (here.removed matches_)
          rw [here.recorded, List.take_succ_cons, List.take_zero, recordedFrom_cons]
          simp [RecordedFrom]
        | succ j =>
          obtain ⟨removed, other⟩ := later.each j s₁ s₁' before after
          refine ⟨fun matches_ => ?_, other⟩
          refine removedAgainst_congr (fun b => ?_) (removed matches_)
          rw [here.recorded, List.take_succ_cons, recordedFrom_cons, or_assoc] }

theorem finalizeEach_ok (both : List (Binding ν)) (comparable : ∀ s ∈ ss, Matches os s → ComparableAll os s) :
    ∃ after, finalizeEach os ss both = .ok after := by
  induction ss generalizing both with
  | nil => exact ⟨_, rfl⟩
  | cons s ss ih =>
    obtain ⟨⟨t, mid⟩, first⟩ := finalizePair_ok both (comparable s List.mem_cons_self)
    obtain ⟨⟨ts, last⟩, rest⟩ := ih mid fun s member => comparable s (List.mem_cons_of_mem _ member)
    rw [finalizeEach, first]
    change ∃ after, (finalizeEach os ss mid >>= _) = Except.ok after
    rw [rest]
    exact ⟨_, rfl⟩

end Each

/-! ## The previous subscriptions -/

section All
variable {seen old new now now' new' : List (Subscription β ν)}

theorem finalizeAll_spec (inv : Inv seen new now both) (done : finalizeAll old now both = .ok new') :
    ∃ both', Inv (seen ++ old) new new' both' := by
  induction old generalizing seen now both with
  | nil =>
    obtain rfl := Except.ok.inj done
    exact ⟨both, by rwa [List.append_nil]⟩
  | cons os old ih =>
    rw [finalizeAll] at done
    obtain ⟨⟨now', both'⟩, each, done⟩ := bind_ok_iff.mp done
    have after := ih (inv_step inv (finalizeEach_spec each)) done
    rwa [List.append_assoc] at after

theorem finalizeAll_ok (both : List (Binding ν)) (frames : List.Forall₂ Frame new now)
    (comparable : ∀ os ∈ old, ∀ s ∈ new, Matches os s → ComparableAll os s) :
    ∃ new', finalizeAll old now both = .ok new' := by
  induction old generalizing now both with
  | nil => exact ⟨now, rfl⟩
  | cons os old ih =>
    have here : ∀ t ∈ now, Matches os t → ComparableAll os t := by
      intro t member matches_
      obtain ⟨s, there, frame⟩ := forall₂_mem frames member
      have given := comparable os List.mem_cons_self s there (frame.matches_iff.mp matches_)
      rwa [ComparableAll, frame.bindings]
    obtain ⟨⟨now', both'⟩, each⟩ := finalizeEach_ok both here
    rw [finalizeAll, each]
    exact ih both' (frames_trans frames (finalizeEach_spec each).frames)
      fun os' member => comparable os' (List.mem_cons_of_mem _ member)

end All

/-! ## The whole call -/

section Finalize
variable {new old new' : List (Subscription β ν)}

/-- What is removed is what is gone, for each new subscription and each previous one of the same
broker and queue name. -/
def RemovesGone (old new new' : List (Subscription β ν)) : Prop :=
  List.Forall₂ (fun s s' => ∀ os ∈ old, Matches os s → ∀ ob, ob ∈ s'.bindings_to_remove ↔ Gone os s ob) new new'

/-- When `finalize` removes exactly what is gone. Equal lists are left as they are. -/
def Separated (old new : List (Subscription β ν)) : Prop :=
  if sameList Subscription.same new old then RemovesGone old new new
  else (∀ os ∈ old, ∀ s ∈ new, Matches os s → ComparableAll os s) ∧
    ∀ j s, new[j]? = some s → ∀ olds os, LastMatch old olds os s →
      RecordedWhenKept olds new j os s ∧ ∀ os' ∈ old, Matches os' s → ∀ ob, Gone os' s ob ↔ Gone os s ob

/-- `finalize` returns and removes exactly what is gone, for exactly these lists. -/
theorem finalize_removes_gone_iff :
    (∃ new', finalize new old = .ok new' ∧ RemovesGone old new new') ↔ Separated old new := by
  unfold finalize Separated
  split
  · exact ⟨fun ⟨new', is, removes⟩ => Except.ok.inj is ▸ removes, fun removes => ⟨new, rfl, removes⟩⟩
  · constructor
    · rintro ⟨new', done, removes⟩
      obtain ⟨both, inv⟩ := finalizeAll_spec inv_start done
      rw [List.nil_append] at inv
      refine ⟨inv.comparable, fun j s place olds os last => ?_⟩
      obtain ⟨s', place', gone⟩ := forall₂_getElem? removes place
      rcases inv.each j s s' place place' with ⟨none_, -⟩ | ⟨olds', last', settled, removed⟩
      · exact absurd last.1 (none_ os last.mem)
      · obtain ⟨rfl, rfl⟩ := last.unique settled
        have here := gone os last.mem last.1
        exact ⟨(removed_iff_gone removed).mp here,
          fun os' member matches_ ob => (gone os' member matches_ ob).symm.trans (here ob)⟩
    · rintro ⟨comparable, separated⟩
      obtain ⟨new', done⟩ := finalizeAll_ok [] (List.forall₂_same.mpr fun _ _ => ⟨rfl, rfl, rfl⟩) comparable
      obtain ⟨both, inv⟩ := finalizeAll_spec inv_start done
      rw [List.nil_append] at inv
      refine ⟨new', done, forall₂_of_getElem? inv.frames fun j s s' place place' os member matches_ ob => ?_⟩
      rcases inv.each j s s' place place' with ⟨none_, -⟩ | ⟨olds, last, settled, removed⟩
      · exact absurd matches_ (none_ os member)
      · obtain ⟨recorded, alone⟩ := separated j s place olds last settled
        exact ((removed_iff_gone removed).mpr recorded ob).trans (alone os member matches_ ob).symm

end Finalize
end Run

/-! ## Two queues, one of which keeps what the other one drops -/

section Example

def binding (topic : String) : Binding String := (Table.empty.set "exchange" "xpublic").set "topic" topic

def queueOn (name : String) (bindings : List (Binding String)) : Subscription Nat String where
  broker := 0
  queue := ⟨name, some [], Table.empty⟩
  bindings := bindings
  bindings_to_remove := []
  fields := Table.empty

theorem kept_elsewhere_not_removed :
    ¬ ∀ new old : List (Subscription Nat String),
      ∃ new', finalize new old = .ok new' ∧ RemovesGone old new new' := by
  intro always
  let old := [queueOn "q_one" [binding "v03.a"], queueOn "q_two" [binding "v03.a"]]
  let new := [queueOn "q_one" [binding "v03.a"], queueOn "q_two" [binding "v03.b"]]
  obtain ⟨new', done, removes⟩ := always new old
  obtain rfl := Except.ok.inj (done.symm.trans (show finalize new old = .ok new from rfl))
  have gone : Gone (queueOn "q_two" [binding "v03.a"]) (queueOn "q_two" [binding "v03.b"]) (binding "v03.a") := by
    refine ⟨List.mem_cons_self, fun b member alike => ?_⟩
    obtain rfl := List.mem_singleton.mp member
    exact absurd alike.2 (by decide)
  obtain ⟨s', place, removed⟩ := forall₂_getElem? (j := 1) removes rfl
  obtain rfl := Option.some.inj place
  exact nomatch (removed _ (List.mem_cons_of_mem _ List.mem_cons_self) ⟨rfl, rfl⟩ _).mpr gone

end Example
end Sarracenia.Guarantees.Subscriptions
