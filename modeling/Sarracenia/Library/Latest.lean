import Mathlib.Algebra.Order.Group.Multiset
import Mathlib.Tactic.Abel

/-!
# Holding the latest item of a key

Items come one by one, and of the items of a key one at most is held. An item that comes while
one of its key is held takes its place: the one that was held is released, where the two are
critical, or else dropped. Whatever becomes of the held items, none is lost, and those of a key
are released in the order in which they came.
-/
namespace Sarracenia.Library.Latest
variable {α κ : Type}

inductive Event (α : Type) where
  /-- It comes, and goes on at once. -/
  | pass (a : α)
  | hold (a : α)
  /-- The second one comes, and takes the place of the first, which is released. -/
  | displace (b a : α)
  /-- The same, and the first one is dropped. -/
  | suppress (b a : α)
  | release (a : α)

namespace Event

def arrives : Event α → Option α
  | pass a | hold a | displace _ a | suppress _ a => some a
  | release _ => none

def releases : Event α → Option α
  | pass a | displace a _ | release a => some a
  | hold _ | suppress _ _ => none

def drops : Event α → Option α
  | suppress b _ => some b
  | pass _ | hold _ | displace _ _ | release _ => none

/-- The held item whose place is taken, and the item that takes it. -/
def replaces : Event α → Option (α × α)
  | displace b a | suppress b a => some (b, a)
  | pass _ | hold _ | release _ => none

end Event

/-- What an event does to the items that are held. -/
inductive Moves (key : α → κ) (critical : α → α → Prop) : List α → Event α → List α → Prop where
  | pass {held a} (new : ∀ b ∈ held, key b ≠ key a) : Moves key critical held (.pass a) held
  | hold {held a} (new : ∀ b ∈ held, key b ≠ key a) : Moves key critical held (.hold a) (held ++ [a])
  | displace {before b after a} (same : key b = key a) (ordered : critical b a) :
      Moves key critical (before ++ b :: after) (.displace b a) (before ++ a :: after)
  | suppress {before b after a} (same : key b = key a) (free : ¬ critical b a) :
      Moves key critical (before ++ b :: after) (.suppress b a) (before ++ a :: after)
  | release {before a after} : Moves key critical (before ++ a :: after) (.release a) (before ++ after)

inductive Runs (key : α → κ) (critical : α → α → Prop) (held : List α) : List (Event α) → List α → Prop where
  | refl : Runs key critical held [] held
  | snoc {events held' e held''} (run : Runs key critical held events held')
      (move : Moves key critical held' e held'') : Runs key critical held (events ++ [e]) held''

def arrivals (events : List (Event α)) : List α := events.filterMap Event.arrives

def releases (events : List (Event α)) : List α := events.filterMap Event.releases

def drops (events : List (Event α)) : List α := events.filterMap Event.drops

@[simp] theorem arrivals_append (xs ys : List (Event α)) : arrivals (xs ++ ys) = arrivals xs ++ arrivals ys :=
  List.filterMap_append

@[simp] theorem releases_append (xs ys : List (Event α)) : releases (xs ++ ys) = releases xs ++ releases ys :=
  List.filterMap_append

@[simp] theorem drops_append (xs ys : List (Event α)) : drops (xs ++ ys) = drops xs ++ drops ys :=
  List.filterMap_append

variable {key : α → κ} {critical : α → α → Prop}

theorem Moves.run {held held' : List α} {e : Event α} (move : Moves key critical held e held') :
    Runs key critical held [e] held' := Runs.snoc .refl move

theorem Runs.trans {held held' held'' : List α} {events events' : List (Event α)}
    (first : Runs key critical held events held') (second : Runs key critical held' events' held'') :
    Runs key critical held (events ++ events') held'' := by
  induction second with
  | refl => rwa [List.append_nil]
  | snoc run move ih =>
    rw [← List.append_assoc]
    exact .snoc ih move

/-! ## What an event in a run tells -/

section Events
variable {held held' arrived : List α} {events : List (Event α)} {e : Event α} {a b x : α}

theorem Moves.mem_held (move : Moves key critical held e held') (member : x ∈ held') :
    x ∈ held ∨ e.arrives = some x := by
  have replaced {before after : List α} {a b : α} (member : x ∈ before ++ a :: after) :
      x ∈ before ++ b :: after ∨ some a = some x := by
    rcases List.mem_append.mp member with first | last
    · exact Or.inl (List.mem_append_left _ first)
    · rcases List.mem_cons.mp last with rfl | last
      · exact Or.inr rfl
      · exact Or.inl (List.mem_append_right _ (List.mem_cons_of_mem _ last))
  cases move with
  | pass _ => exact Or.inl member
  | hold _ =>
    rcases List.mem_append.mp member with first | last
    · exact Or.inl first
    · exact Or.inr (congrArg some (List.mem_singleton.mp last).symm)
  | displace _ _ => exact replaced member
  | suppress _ _ => exact replaced member
  | release => exact Or.inl ((List.sublist_cons_self _ _).append_left _ |>.subset member)

theorem Runs.mem_held (run : Runs key critical held events held') (member : x ∈ held') :
    x ∈ held ∨ x ∈ arrivals events := by
  induction run with
  | refl => exact Or.inl member
  | snoc run move ih =>
    rw [arrivals_append, List.mem_append]
    rcases move.mem_held member with before | here
    · exact (ih before).imp_right Or.inl
    · exact Or.inr (Or.inr (List.mem_filterMap.mpr ⟨_, List.mem_singleton_self _, here⟩))

theorem Moves.replaced (move : Moves key critical held e held') (replaces : e.replaces = some (b, a)) :
    b ∈ held ∧ e.arrives = some a ∧ key b = key a := by
  cases move with
  | displace same _ | suppress same _ =>
    obtain ⟨rfl, rfl⟩ := Prod.mk.inj (Option.some.inj replaces)
    exact ⟨List.mem_append_right _ List.mem_cons_self, rfl, same⟩
  | _ => cases replaces

/-- An item takes the place of one of its key that came before it. -/
theorem Runs.replaced (run : Runs key critical held events held') (known : ∀ x ∈ held, x ∈ arrived)
    (member : e ∈ events) (replaces : e.replaces = some (b, a)) :
    key b = key a ∧ a ∈ arrivals events ∧ [b, a].Sublist (arrived ++ arrivals events) := by
  induction run with
  | refl => cases member
  | @snoc events mid e' last run move ih =>
    rw [arrivals_append, List.mem_append]
    rcases List.mem_append.mp member with earlier | here
    · obtain ⟨same, comes, order⟩ := ih earlier
      exact ⟨same, Or.inl comes, order.trans ((List.sublist_append_left _ _).append_left _)⟩
    · obtain rfl := List.mem_singleton.mp here
      obtain ⟨there, comes, same⟩ := move.replaced replaces
      have arrives : arrivals [e] = [a] := List.filterMap_cons_some comes
      have before : b ∈ arrived ++ arrivals events :=
        List.mem_append.mpr ((run.mem_held there).imp_left (known b))
      rw [arrives, ← List.append_assoc]
      exact ⟨same, Or.inr (List.mem_singleton_self a), (List.singleton_sublist.mpr before).append_right [a]⟩

theorem Runs.decided (run : Runs key critical held events held') (member : e ∈ events) :
    (e = .displace b a → critical b a) ∧ (e = .suppress b a → ¬ critical b a) := by
  induction run with
  | refl => cases member
  | snoc run move ih =>
    rcases List.mem_append.mp member with earlier | here
    · exact ih earlier
    · obtain rfl := List.mem_singleton.mp here
      cases move with
      | displace _ ordered => exact ⟨fun is => by injection is with one two; exact one ▸ two ▸ ordered, nofun⟩
      | suppress _ free => exact ⟨nofun, fun is => by injection is with one two; exact one ▸ two ▸ free⟩
      | _ => exact ⟨nofun, nofun⟩

theorem mem_drops_iff : b ∈ drops events ↔ ∃ a, Event.suppress b a ∈ events := by
  rw [drops, List.mem_filterMap]
  constructor
  · rintro ⟨e, member, is⟩
    cases e with
    | suppress b' a =>
      obtain rfl := Option.some.inj is
      exact ⟨a, member⟩
    | _ => cases is
  · rintro ⟨a, member⟩
    exact ⟨_, member, rfl⟩

theorem mem_releases_iff : b ∈ releases events ↔
    Event.pass b ∈ events ∨ Event.release b ∈ events ∨ ∃ a, Event.displace b a ∈ events := by
  rw [releases, List.mem_filterMap]
  constructor
  · rintro ⟨e, member, is⟩
    cases e with
    | pass b' =>
      obtain rfl := Option.some.inj is
      exact Or.inl member
    | release b' =>
      obtain rfl := Option.some.inj is
      exact Or.inr (Or.inl member)
    | displace b' a =>
      obtain rfl := Option.some.inj is
      exact Or.inr (Or.inr ⟨a, member⟩)
    | _ => cases is
  · rintro (member | member | ⟨a, member⟩) <;> exact ⟨_, member, rfl⟩

end Events

/-! ## What every run keeps -/

section Distinct
variable {before after : List α} {a b : α}

theorem others (distinct : (before ++ b :: after).Pairwise fun x y => key x ≠ key y) :
    ∀ x ∈ before ++ after, key x ≠ key b := by
  intro x member
  obtain ⟨-, rest, apart⟩ := List.pairwise_append.mp distinct
  rcases List.mem_append.mp member with member | member
  · exact apart x member b List.mem_cons_self
  · exact Ne.symm ((List.pairwise_cons.mp rest).1 x member)

theorem distinct_drop (distinct : (before ++ b :: after).Pairwise fun x y => key x ≠ key y) :
    (before ++ after).Pairwise fun x y => key x ≠ key y :=
  distinct.sublist ((List.sublist_cons_self b after).append_left before)

theorem distinct_replace (same : key b = key a)
    (distinct : (before ++ b :: after).Pairwise fun x y => key x ≠ key y) :
    (before ++ a :: after).Pairwise fun x y => key x ≠ key y := by
  rw [List.pairwise_append, List.pairwise_cons] at distinct ⊢
  obtain ⟨first, ⟨here, last⟩, apart⟩ := distinct
  refine ⟨first, ⟨fun y member => same ▸ here y member, last⟩, fun x there y member => ?_⟩
  rcases List.mem_cons.mp member with rfl | member
  · exact same ▸ apart x there b List.mem_cons_self
  · exact apart x there y (List.mem_cons_of_mem _ member)

theorem distinct_add {held : List α} (new : ∀ b ∈ held, key b ≠ key a)
    (distinct : held.Pairwise fun x y => key x ≠ key y) :
    (held ++ [a]).Pairwise fun x y => key x ≠ key y := by
  refine List.pairwise_append.mpr ⟨distinct, List.pairwise_singleton _ _, fun x member y last => ?_⟩
  rw [List.mem_singleton.mp last]
  exact new x member

theorem Moves.distinct {held held' : List α} {e : Event α} (move : Moves key critical held e held')
    (distinct : held.Pairwise fun x y => key x ≠ key y) : held'.Pairwise fun x y => key x ≠ key y := by
  cases move with
  | pass _ => exact distinct
  | hold new => exact distinct_add new distinct
  | displace same _ => exact distinct_replace same distinct
  | suppress same _ => exact distinct_replace same distinct
  | release => exact distinct_drop distinct

theorem coe_insert : ((before ++ a :: after : List α) : Multiset α) = {a} + ↑(before ++ after) := by
  rw [Multiset.singleton_add, Multiset.cons_coe]
  exact Multiset.coe_eq_coe.mpr List.perm_middle

end Distinct

section Kept
variable [DecidableEq κ]

def ofKey (key : α → κ) (k : κ) (xs : List α) : List α := xs.filter fun x => key x = k

@[simp] theorem ofKey_append (k : κ) (xs ys : List α) :
    ofKey key k (xs ++ ys) = ofKey key k xs ++ ofKey key k ys := List.filter_append ..

theorem ofKey_none {k : κ} {xs : List α} (other : ∀ x ∈ xs, key x ≠ k) : ofKey key k xs = [] :=
  List.filter_eq_nil_iff.mpr fun x member is => other x member (of_decide_eq_true is)

theorem ofKey_insert {k : κ} {a : α} (before after : List α) :
    ofKey key k (before ++ a :: after) = ofKey key k before ++ (ofKey key k [a] ++ ofKey key k after) := by
  rw [← List.singleton_append, ofKey_append, ofKey_append]

theorem ofKey_other {k : κ} {a : α} (other : key a ≠ k) : ofKey key k [a] = [] :=
  ofKey_none fun _ member => List.mem_singleton.mp member ▸ other

/-- Nothing is lost or doubled, no key is held twice, and those of a key that are released or
held are in the order in which they came. -/
structure Kept (key : α → κ) (arrived released dropped held : List α) : Prop where
  conserved : (arrived : Multiset α) = ↑released + ↑dropped + ↑held
  distinct : held.Pairwise fun a b => key a ≠ key b
  ordered : ∀ k, (ofKey key k released ++ ofKey key k held).Sublist arrived

theorem kept_start : Kept key [] [] [] [] := ⟨rfl, .nil, fun _ => List.Sublist.slnil⟩

variable {arrived released dropped held before after : List α} {a b : α}

theorem kept_pass (kept : Kept key arrived released dropped held) (new : ∀ b ∈ held, key b ≠ key a) :
    Kept key (arrived ++ [a]) (released ++ [a]) dropped held where
  conserved := by
    rw [← Multiset.coe_add, ← Multiset.coe_add, kept.conserved]
    abel
  distinct := kept.distinct
  ordered k := by
    have so_far := kept.ordered k
    rw [ofKey_append]
    by_cases same : key a = k
    · subst same
      rw [ofKey_none new, List.append_nil] at so_far ⊢
      exact so_far.append List.filter_sublist
    · rw [ofKey_other same, List.append_nil]
      exact so_far.trans (List.sublist_append_left _ _)

theorem kept_hold (kept : Kept key arrived released dropped held) (new : ∀ b ∈ held, key b ≠ key a) :
    Kept key (arrived ++ [a]) released dropped (held ++ [a]) where
  conserved := by
    rw [← Multiset.coe_add, ← Multiset.coe_add, kept.conserved]
    abel
  distinct := distinct_add new kept.distinct
  ordered k := by
    rw [ofKey_append, ← List.append_assoc]
    exact (kept.ordered k).append List.filter_sublist

theorem kept_displace (kept : Kept key arrived released dropped (before ++ b :: after)) (same : key b = key a) :
    Kept key (arrived ++ [a]) (released ++ [b]) dropped (before ++ a :: after) where
  conserved := by
    rw [← Multiset.coe_add, ← Multiset.coe_add, kept.conserved, coe_insert, coe_insert, Multiset.coe_singleton,
      Multiset.coe_singleton]
    abel
  distinct := distinct_replace same kept.distinct
  ordered k := by
    have so_far := kept.ordered k
    rw [ofKey_insert] at so_far
    rw [ofKey_append, ofKey_insert before after]
    by_cases is : key b = k
    · subst is
      obtain ⟨first, last⟩ := List.forall_mem_append.mp (others kept.distinct)
      rw [ofKey_none first, ofKey_none last, List.append_nil, List.nil_append] at so_far ⊢
      exact so_far.append List.filter_sublist
    · rw [ofKey_other is, List.nil_append] at so_far
      rw [ofKey_other is, ofKey_other (same ▸ is), List.append_nil, List.nil_append]
      exact so_far.trans (List.sublist_append_left _ _)

theorem kept_suppress (kept : Kept key arrived released dropped (before ++ b :: after)) (same : key b = key a) :
    Kept key (arrived ++ [a]) released (dropped ++ [b]) (before ++ a :: after) where
  conserved := by
    rw [← Multiset.coe_add, ← Multiset.coe_add, kept.conserved, coe_insert, coe_insert, Multiset.coe_singleton,
      Multiset.coe_singleton]
    abel
  distinct := distinct_replace same kept.distinct
  ordered k := by
    have so_far := kept.ordered k
    rw [ofKey_insert] at so_far ⊢
    by_cases is : key b = k
    · subst is
      obtain ⟨first, last⟩ := List.forall_mem_append.mp (others kept.distinct)
      rw [ofKey_none first, ofKey_none last, List.append_nil, List.nil_append] at so_far ⊢
      exact ((List.sublist_append_left _ _).trans so_far).append List.filter_sublist
    · rw [ofKey_other is, List.nil_append] at so_far
      rw [ofKey_other (same ▸ is), List.nil_append]
      exact so_far.trans (List.sublist_append_left _ _)

theorem kept_release (kept : Kept key arrived released dropped (before ++ a :: after)) :
    Kept key arrived (released ++ [a]) dropped (before ++ after) where
  conserved := by
    rw [← Multiset.coe_add, kept.conserved, coe_insert, Multiset.coe_singleton]
    abel
  distinct := distinct_drop kept.distinct
  ordered k := by
    have so_far := kept.ordered k
    rw [ofKey_insert] at so_far
    rw [ofKey_append, ofKey_append, List.append_assoc]
    by_cases is : key a = k
    · subst is
      obtain ⟨first, -⟩ := List.forall_mem_append.mp (others kept.distinct)
      rwa [ofKey_none first] at so_far ⊢
    · rwa [ofKey_other is, List.nil_append] at so_far ⊢

/-- What one event keeps. -/
theorem Moves.kept {held' : List α} {e : Event α} (move : Moves key critical held e held')
    (kept : Kept key arrived released dropped held) :
    Kept key (arrived ++ arrivals [e]) (released ++ releases [e]) (dropped ++ drops [e]) held' := by
  cases move with
  | pass new =>
    change Kept key _ _ (dropped ++ []) _
    rw [List.append_nil]
    exact kept_pass kept new
  | hold new =>
    change Kept key _ (released ++ []) (dropped ++ []) _
    rw [List.append_nil, List.append_nil]
    exact kept_hold kept new
  | displace same _ =>
    change Kept key _ _ (dropped ++ []) _
    rw [List.append_nil]
    exact kept_displace kept same
  | suppress same _ =>
    change Kept key _ (released ++ []) _ _
    rw [List.append_nil]
    exact kept_suppress kept same
  | release =>
    change Kept key (arrived ++ []) _ (dropped ++ []) _
    rw [List.append_nil, List.append_nil]
    exact kept_release kept

theorem Runs.kept {held' : List α} {events : List (Event α)} (run : Runs key critical held events held')
    (kept : Kept key arrived released dropped held) :
    Kept key (arrived ++ arrivals events) (released ++ releases events) (dropped ++ drops events) held' := by
  induction run with
  | refl => simpa [arrivals, releases, drops] using kept
  | snoc run move ih =>
    rw [arrivals_append, releases_append, drops_append, ← List.append_assoc, ← List.append_assoc,
      ← List.append_assoc]
    exact move.kept ih

end Kept
end Sarracenia.Library.Latest
