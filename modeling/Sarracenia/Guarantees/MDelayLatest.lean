import Sarracenia.Guarantees.Filter.Accepted
import Sarracenia.Library.Latest
import Sarracenia.Source.MDelayLatest

/-!
# What `MDelayLatest` does with the messages it is given

Its loops are a run of the events of a buffer that holds the latest item of each key, with the
paths for keys.
-/
namespace Sarracenia.Guarantees.MDelayLatest
open Library Library.Text Library.Dynamic Library.Latest Source Source.Filter Source.MDelayLatest

def pathOf (m : Held) : Option Str := (relPath m).toOption

/-- What the filter has let through: the time and the path can be read. -/
def Accepted (m : Held) : Prop :=
  (∃ p, relPath m = .ok p) ∧ ∃ t, timeOf m.fields "pubTime" = .ok t

/-- The messages the filter leaves to be worked on are such messages. -/
theorem filter_accepted {w : Config.World} {o : Config.Options} {steps : Nat} {before after : Worklist}
    (time : Guarantees.Filter.NotFixed o "pubTime") (path : Guarantees.Filter.NotFixed o "relPath")
    (done : filter w o steps before = .ok after) : ∀ m ∈ after.incoming, Accepted m := by
  intro m member
  obtain ⟨⟨p, there⟩, read⟩ := Guarantees.Filter.filter_readable time path done m member
  refine ⟨⟨p, ?_⟩, read⟩
  unfold relPath Dict.item
  rw [there]
  rfl

/-- One of the two is a file operation. -/
def Critical (b a : Held) : Prop := isFileOp b = true ∨ isFileOp a = true

/-- The message is as old as that at the reading of the clock. -/
def Old (mdelay now : ℚ) (m : Held) : Prop :=
  ∃ t, timeOf m.fields "pubTime" = .ok t ∧ mdelay ≤ now - t

/-! ## One message that comes -/

section Arrive
variable {m1 m2 : Held} {held before after : List Held}

theorem same_path_iff {p q : Str} (one : relPath m1 = .ok p) (other : relPath m2 = .ok q) :
    p = q ↔ pathOf m2 = pathOf m1 := by
  rw [pathOf, pathOf, one, other]
  exact ⟨fun same => same ▸ rfl, fun same => (Option.some.inj same).symm⟩

theorem scan_cons {p q : Str} (one : relPath m1 = .ok p) (other : relPath m2 = .ok q) :
    scan m1 (m2 :: held) = scan m1 held >>= fun rest => .ok (
      if p = q then
        if isFileOp m2 || isFileOp m1 then ⟨m2 :: rest.released, rest.rejected, m1 :: rest.held, true⟩
        else ⟨rest.released, m2 :: rest.rejected, m1 :: rest.held, true⟩
      else { rest with held := m2 :: rest.held }) := by
  rw [scan, one, other]
  change (if p = q then _ else _) = _
  split
  · split <;> rfl
  · rfl

theorem scan_none (here : Accepted m1) (accepted : ∀ b ∈ held, Accepted b)
    (new : ∀ b ∈ held, pathOf b ≠ pathOf m1) : scan m1 held = .ok ⟨[], [], held, false⟩ := by
  induction held with
  | nil => rfl
  | cons m2 held ih =>
    obtain ⟨p, one⟩ := here.1
    obtain ⟨q, other⟩ := (accepted m2 List.mem_cons_self).1
    have apart : p ≠ q := fun same => new m2 List.mem_cons_self ((same_path_iff one other).mp same)
    rw [scan_cons one other, ih (fun b member => accepted b (List.mem_cons_of_mem _ member))
      (fun b member => new b (List.mem_cons_of_mem _ member))]
    simp only [if_neg apart]
    rfl

theorem scan_one (here : Accepted m1) (accepted : ∀ b ∈ before ++ m2 :: after, Accepted b)
    (same : pathOf m2 = pathOf m1) (new : ∀ b ∈ before ++ after, pathOf b ≠ pathOf m1) :
    scan m1 (before ++ m2 :: after) = .ok
      (if isFileOp m2 || isFileOp m1 then ⟨[m2], [], before ++ m1 :: after, true⟩
      else ⟨[], [m2], before ++ m1 :: after, true⟩) := by
  induction before with
  | nil =>
    obtain ⟨p, one⟩ := here.1
    obtain ⟨q, other⟩ := (accepted m2 List.mem_cons_self).1
    rw [List.nil_append, scan_cons one other,
      scan_none here (fun b member => accepted b (List.mem_cons_of_mem _ member)) new]
    simp only [if_pos ((same_path_iff one other).mpr same)]
    rfl
  | cons b before ih =>
    obtain ⟨p, one⟩ := here.1
    obtain ⟨q, other⟩ := (accepted b List.mem_cons_self).1
    have apart : p ≠ q := fun same => new b List.mem_cons_self ((same_path_iff one other).mp same)
    rw [List.cons_append, scan_cons one other, ih (fun b member => accepted b (List.mem_cons_of_mem _ member))
      (fun b member => new b (List.mem_cons_of_mem _ member))]
    simp only [if_neg apart]
    split <;> rfl

/-- The event that a message is when it comes, with what it does to what is held. -/
structure Arrival (mdelay now : ℚ) (m1 : Held) (p p' : Progress) (e : Event Held) : Prop where
  moves : Moves pathOf Critical p.ok_delay e p'.ok_delay
  arrives : arrivals [e] = [m1]
  released : p'.new_incoming = p.new_incoming ++ releases [e]
  rejected : p'.rejected = p.rejected ++ drops [e]
  passes : ∀ a, e = .pass a → Old mdelay now a
  stays : ∀ a, e ≠ .release a

variable (mdelay now : ℚ) {p : Progress}

theorem arriveOne_new (here : Accepted m1) (accepted : ∀ b ∈ p.ok_delay, Accepted b)
    (new : ∀ b ∈ p.ok_delay, pathOf b ≠ pathOf m1) :
    ∃ p' e, arriveOne mdelay now m1 p = .ok p' ∧ Arrival mdelay now m1 p p' e := by
  obtain ⟨t, time⟩ := here.2
  unfold arriveOne
  rw [time, scan_none here accepted new]
  change ∃ p' e, (if _ ∧ now - t < mdelay then _ else _) = _ ∧ _
  by_cases young : now - t < mdelay
  · rw [if_pos ⟨rfl, young⟩]
    refine ⟨_, .hold m1, rfl, {
      moves := .hold new
      arrives := rfl
      released := rfl
      rejected := rfl
      passes := nofun
      stays := nofun }⟩
  · rw [if_neg fun both => young both.2]
    refine ⟨_, .pass m1, rfl, {
      moves := .pass new
      arrives := rfl
      released := ?_
      rejected := rfl
      passes := fun a is => ?_
      stays := nofun }⟩
    · exact congrArg (· ++ [m1]) (List.append_nil _)
    · injection is with same
      exact same ▸ ⟨t, time, not_lt.mp young⟩

theorem arriveOne_again (here : Accepted m1) (accepted : ∀ b ∈ before ++ m2 :: after, Accepted b)
    (held : p.ok_delay = before ++ m2 :: after) (same : pathOf m2 = pathOf m1)
    (new : ∀ b ∈ before ++ after, pathOf b ≠ pathOf m1) :
    ∃ p' e, arriveOne mdelay now m1 p = .ok p' ∧ Arrival mdelay now m1 p p' e := by
  obtain ⟨t, time⟩ := here.2
  unfold arriveOne
  rw [time, held, scan_one here accepted same new]
  by_cases critical : Critical m2 m1
  · rw [if_pos (Bool.or_eq_true_iff.mpr critical)]
    refine ⟨_, .displace m2 m1, rfl, {
      moves := held ▸ .displace same critical
      arrives := rfl
      released := rfl
      rejected := rfl
      passes := nofun
      stays := nofun }⟩
  · rw [if_neg fun is => critical (Bool.or_eq_true_iff.mp is)]
    refine ⟨_, .suppress m2 m1, rfl, {
      moves := held ▸ .suppress same critical
      arrives := rfl
      released := rfl
      rejected := rfl
      passes := nofun
      stays := nofun }⟩

theorem arriveOne_spec (here : Accepted m1) (accepted : ∀ b ∈ p.ok_delay, Accepted b)
    (distinct : p.ok_delay.Pairwise fun a b => pathOf a ≠ pathOf b) :
    ∃ p' e, arriveOne mdelay now m1 p = .ok p' ∧ Arrival mdelay now m1 p p' e := by
  by_cases held : ∃ b ∈ p.ok_delay, pathOf b = pathOf m1
  · obtain ⟨b, member, same⟩ := held
    obtain ⟨before, after, split⟩ := List.append_of_mem member
    rw [split] at distinct accepted
    exact arriveOne_again mdelay now here accepted split same fun x there => same ▸ others distinct x there
  · exact arriveOne_new mdelay now here accepted fun b member same => held ⟨b, member, same⟩

end Arrive

/-! ## One batch -/

section Batch
variable (mdelay now : ℚ) {incoming held before : List Held} {p : Progress}

/-- What the first loop does, as the events that it is. -/
structure Arrivals (incoming : List Held) (p p' : Progress) (events : List (Event Held)) : Prop where
  run : Runs pathOf Critical p.ok_delay events p'.ok_delay
  arrives : arrivals events = incoming
  released : p'.new_incoming = p.new_incoming ++ releases events
  rejected : p'.rejected = p.rejected ++ drops events
  passes : ∀ a, .pass a ∈ events → Old mdelay now a
  stays : ∀ a, .release a ∉ events
  accepted : ∀ b ∈ p'.ok_delay, Accepted b

theorem arrive_spec (here : ∀ m ∈ incoming, Accepted m) (accepted : ∀ b ∈ p.ok_delay, Accepted b)
    (distinct : p.ok_delay.Pairwise fun a b => pathOf a ≠ pathOf b) :
    ∃ p' events, arrive mdelay now incoming p = .ok p' ∧ Arrivals mdelay now incoming p p' events := by
  induction incoming generalizing p with
  | nil =>
    exact ⟨p, [], rfl, {
      run := .refl
      arrives := rfl
      released := (List.append_nil _).symm
      rejected := (List.append_nil _).symm
      passes := nofun
      stays := nofun
      accepted := accepted }⟩
  | cons m1 incoming ih =>
    obtain ⟨first, rest⟩ := List.forall_mem_cons.mp here
    obtain ⟨p₁, e, one, arrival⟩ := arriveOne_spec mdelay now first accepted distinct
    have accepted₁ : ∀ b ∈ p₁.ok_delay, Accepted b := by
      intro b member
      rcases arrival.moves.run.mem_held member with before | comes
      · exact accepted b before
      · rw [arrival.arrives] at comes
        exact List.mem_singleton.mp comes ▸ first
    obtain ⟨p', events, others, loop⟩ := ih rest accepted₁ (arrival.moves.distinct distinct)
    refine ⟨p', [e] ++ events, ?_, {
      run := arrival.moves.run.trans loop.run
      arrives := ?_
      released := ?_
      rejected := ?_
      passes := fun a member => ?_
      stays := fun a member => ?_
      accepted := loop.accepted }⟩
    · rw [arrive, one]
      exact others
    · rw [arrivals_append, arrival.arrives, loop.arrives]
      rfl
    · rw [loop.released, arrival.released, releases_append, List.append_assoc]
    · rw [loop.rejected, arrival.rejected, drops_append, List.append_assoc]
    · rcases List.mem_append.mp member with here | later
      · exact arrival.passes a (List.mem_singleton.mp here).symm
      · exact loop.passes a later
    · rcases List.mem_append.mp member with here | later
      · exact arrival.stays a (List.mem_singleton.mp here).symm
      · exact loop.stays a later

/-- A run of releases. -/
def letGo (released : List Held) : List (Event Held) := released.map .release

theorem arrivals_letGo (released : List Held) : arrivals (letGo released) = [] :=
  List.filterMap_eq_nil_iff.mpr fun e member => by
    obtain ⟨a, -, rfl⟩ := List.mem_map.mp member
    rfl

theorem drops_letGo (released : List Held) : drops (letGo released) = [] :=
  List.filterMap_eq_nil_iff.mpr fun e member => by
    obtain ⟨a, -, rfl⟩ := List.mem_map.mp member
    rfl

theorem releases_letGo (released : List Held) : releases (letGo released) = released := by
  rw [letGo, releases, List.filterMap_map]
  exact List.filterMap_some

theorem runs_letGo (held : List Held) : Runs pathOf Critical held (letGo held) [] := by
  induction held with
  | nil => exact .refl
  | cons a held ih =>
    have first : Moves pathOf Critical ([] ++ a :: held) (.release a) ([] ++ held) := .release
    exact first.run.trans ih

/-- The second loop lets go what is old at its reading. -/
theorem due_spec (clock : Nat → ℚ) (accepted : ∀ b ∈ held, Accepted b) :
    ∃ released kept, due mdelay clock held = .ok (released, kept) ∧
      (∀ before, Runs pathOf Critical (before ++ held) (letGo released) (before ++ kept)) ∧
      ∀ a ∈ released, ∃ i : Nat, held[i]? = some a ∧ Old mdelay (clock i) a := by
  induction held generalizing clock with
  | nil => exact ⟨[], [], rfl, fun _ => .refl, nofun⟩
  | cons a held ih =>
    obtain ⟨⟨-, t, time⟩, rest⟩ := List.forall_mem_cons.mp accepted
    obtain ⟨released, kept, loop, run, old⟩ := ih (fun i => clock (i + 1)) rest
    rw [due, time]
    change ∃ released kept, (due mdelay _ held >>= _) = _ ∧ _
    rw [loop]
    change ∃ released' kept', (if mdelay ≤ clock 0 - t then _ else _) = _ ∧ _
    split
    · next is =>
      refine ⟨_, _, rfl, fun before => ?_, fun b member => ?_⟩
      · have first : Moves pathOf Critical (before ++ a :: held) (.release a) (before ++ held) := .release
        exact first.run.trans (run before)
      · rcases List.mem_cons.mp member with rfl | later
        · exact ⟨0, rfl, t, time, is⟩
        · obtain ⟨i, place, old⟩ := old b later
          exact ⟨i + 1, place, old⟩
    · refine ⟨_, _, rfl, fun before => ?_, fun b member => ?_⟩
      · have next_ := run (before ++ [a])
        rwa [List.append_assoc, List.append_assoc] at next_
      · obtain ⟨i, place, old⟩ := old b member
        exact ⟨i + 1, place, old⟩

/-- The messages for which the second loop reads the clock. -/
def asked (clock : Nat → ℚ) (s : State) (worklist : Worklist) : List Held :=
  match arrive mdelay (clock 0) worklist.incoming ⟨s.ok_delay, [], worklist.rejected, s.suppressions⟩ with
  | .ok p => p.ok_delay
  | .error _ => []

/-- As old as that at the reading for the batch, or at the one taken for the message. -/
def OldWhenRead (clock : Nat → ℚ) (s : State) (worklist : Worklist) (m : Held) : Prop :=
  Old mdelay (clock 0) m ∨
    ∃ i : Nat, (asked mdelay clock s worklist)[i]? = some m ∧ Old mdelay (clock (i + 1)) m

/-- What a batch does, as the events that it is. -/
structure Batch (clock : Nat → ℚ) (s : State) (worklist : Worklist) (s' : State) (worklist' : Worklist)
    (events : List (Event Held)) : Prop where
  run : Runs pathOf Critical s.ok_delay events s'.ok_delay
  arrives : arrivals events = worklist.incoming
  released : worklist'.incoming = releases events
  rejected : worklist'.rejected = worklist.rejected ++ drops events
  ripe : ∀ a, .pass a ∈ events ∨ .release a ∈ events →
    OldWhenRead mdelay clock s worklist a ∨ s.stop_requested = true
  stopped : s.stop_requested = true → s'.ok_delay = []
  accepted : ∀ b ∈ s'.ok_delay, Accepted b

theorem after_accept_spec (clock : Nat → ℚ) {s : State} {worklist : Worklist}
    (here : ∀ m ∈ worklist.incoming, Accepted m) (accepted : ∀ b ∈ s.ok_delay, Accepted b)
    (distinct : s.ok_delay.Pairwise fun a b => pathOf a ≠ pathOf b) :
    ∃ s' worklist' events, after_accept mdelay clock s worklist = .ok (s', worklist') ∧
      Batch mdelay clock s worklist s' worklist' events := by
  obtain ⟨p, events, first, loop⟩ := arrive_spec mdelay (clock 0)
    (p := ⟨s.ok_delay, [], worklist.rejected, s.suppressions⟩) here accepted distinct
  obtain ⟨released, kept, second, letgo, old⟩ := due_spec mdelay (fun i => clock (i + 1)) loop.accepted
  have run := loop.run.trans (letgo [])
  have still : ∀ b ∈ kept, Accepted b := by
    intro b member
    rcases (letgo []).mem_held member with before | comes
    · exact loop.accepted b before
    · rw [arrivals_letGo] at comes
      cases comes
  have ripe : ∀ a, .pass a ∈ events ++ letGo released ∨ .release a ∈ events ++ letGo released →
      OldWhenRead mdelay clock s worklist a := by
    unfold OldWhenRead asked
    rw [first]
    simp only [List.mem_append]
    rintro a ((passes | passes) | (lets | lets))
    · exact Or.inl (loop.passes a passes)
    · obtain ⟨b, -, is⟩ := List.mem_map.mp passes
      cases is
    · exact absurd lets (loop.stays a)
    · obtain ⟨b, member, is⟩ := List.mem_map.mp lets
      injection is with same
      obtain ⟨i, place, aged⟩ := old b member
      exact Or.inr ⟨i, same ▸ place, same ▸ aged⟩
  have incoming : p.new_incoming ++ released = releases (events ++ letGo released) := by
    rw [loop.released, releases_append, releases_letGo]
    rfl
  have arrives : arrivals (events ++ letGo released) = worklist.incoming := by
    rw [arrivals_append, arrivals_letGo, List.append_nil, loop.arrives]
  have rejected : p.rejected = worklist.rejected ++ drops (events ++ letGo released) := by
    rw [loop.rejected, drops_append, drops_letGo, List.append_nil]
  unfold after_accept
  rw [first]
  change ∃ s' worklist' events, (due mdelay _ p.ok_delay >>= _) = _ ∧ _
  rw [second]
  change ∃ s' worklist' events, (if s.stop_requested = true then _ else _) = _ ∧ _
  split
  · next stop =>
    refine ⟨_, _, events ++ letGo released ++ letGo kept, rfl, {
      run := run.trans (runs_letGo kept)
      arrives := ?_
      released := ?_
      rejected := ?_
      ripe := fun _ _ => Or.inr stop
      stopped := fun _ => rfl
      accepted := nofun }⟩
    · rw [arrivals_append, arrivals_letGo, List.append_nil, arrives]
    · rw [releases_append, releases_letGo, ← incoming]
    · rw [drops_append, drops_letGo, List.append_nil, ← rejected]
  · next stay =>
    exact ⟨_, _, events ++ letGo released, rfl, {
      run := run
      arrives := arrives
      released := incoming
      rejected := rejected
      ripe := fun a is => Or.inl (ripe a is)
      stopped := fun stop => absurd stop stay
      accepted := still }⟩

end Batch

/-! ## Every run -/

section Run
variable {mdelay : ℚ} {s : State}

/-- The messages of a run so far. -/
structure History where
  received : List Held
  released : List Held
  rejected : List Held

/-- The runs of the plugin: batches of accepted messages, at any readings of the clock, requests
to stop and housekeeping, in any order. -/
inductive Run (mdelay : ℚ) : State → History → Prop where
  | new : Run mdelay State.new ⟨[], [], []⟩
  | batch {s h s' worklist worklist' rejected} (clock : Nat → ℚ) (run : Run mdelay s h)
      (accepted : ∀ m ∈ worklist.incoming, Accepted m)
      (called : after_accept mdelay clock s worklist = .ok (s', worklist'))
      (grown : worklist'.rejected = worklist.rejected ++ rejected) :
      Run mdelay s' ⟨h.received ++ worklist.incoming, h.released ++ worklist'.incoming, h.rejected ++ rejected⟩
  | stop {s h} (run : Run mdelay s h) : Run mdelay (please_stop s) h
  | housekeeping {s h} (run : Run mdelay s h) : Run mdelay (on_housekeeping s) h

/-- Every message received is in one place, no path is held twice, and the messages of a path
that are released or held are in the order in which they came. -/
structure Conserves (s : State) (h : History) : Prop where
  kept : Kept pathOf h.received h.released h.rejected s.ok_delay
  accepted : ∀ m ∈ s.ok_delay, Accepted m

theorem run_conserves {h : History} (run : Run mdelay s h) : Conserves s h := by
  induction run with
  | new => exact ⟨kept_start, nofun⟩
  | @batch s h s' worklist worklist' rejected clock run accepted called grown ih =>
    obtain ⟨s₁, worklist₁, events, done, batch⟩ :=
      after_accept_spec mdelay clock accepted ih.accepted ih.kept.distinct
    obtain ⟨rfl, rfl⟩ := Prod.mk.inj (Except.ok.inj (done.symm.trans called))
    obtain rfl := List.append_cancel_left (batch.rejected.symm.trans grown)
    have kept := batch.run.kept ih.kept
    rw [batch.arrives, ← batch.released] at kept
    exact ⟨kept, batch.accepted⟩
  | stop run ih => exact ⟨ih.kept, ih.accepted⟩
  | housekeeping run ih => exact ⟨ih.kept, ih.accepted⟩

/-- Another message of the path came after it, in this batch. -/
def Followed (received incoming : List Held) (b : Held) (a : Held) : Prop :=
  a ∈ incoming ∧ pathOf b = pathOf a ∧ [b, a].Sublist received

/-- What the next batch does to a run, whatever it is and whatever the clock says. -/
structure NextBatch (mdelay : ℚ) (clock : Nat → ℚ) (s : State) (h : History) (worklist : Worklist)
    (s' : State) (worklist' : Worklist) (rejected : List Held) : Prop where
  called : after_accept mdelay clock s worklist = .ok (s', worklist')
  grown : worklist'.rejected = worklist.rejected ++ rejected
  superseded : ∀ b ∈ rejected, ∃ a, Followed (h.received ++ worklist.incoming) worklist.incoming b a ∧
    isFileOp b = false ∧ isFileOp a = false
  early : ∀ b ∈ worklist'.incoming, OldWhenRead mdelay clock s worklist b ∨ s.stop_requested = true ∨
    ∃ a, Followed (h.received ++ worklist.incoming) worklist.incoming b a ∧
      (isFileOp b = true ∨ isFileOp a = true)
  stopped : s.stop_requested = true → s'.ok_delay = []

/-- Every run conserves the messages, and holds the latest of each path; and every batch that
comes next returns, rejects only what a later version supersedes, and releases early only what
the order of the file operations or a request to stop makes it release. -/
theorem delays_latest {h : History} (run : Run mdelay s h) :
    Kept pathOf h.received h.released h.rejected s.ok_delay ∧
      ∀ (clock : Nat → ℚ) (worklist : Worklist), (∀ m ∈ worklist.incoming, Accepted m) →
        ∃ s' worklist' rejected, NextBatch mdelay clock s h worklist s' worklist' rejected := by
  have conserves := run_conserves run
  refine ⟨conserves.kept, fun clock worklist accepted => ?_⟩
  obtain ⟨s', worklist', events, called, batch⟩ :=
    after_accept_spec mdelay clock accepted conserves.accepted conserves.kept.distinct
  have known : ∀ x ∈ s.ok_delay, x ∈ h.received := by
    intro x member
    have there : x ∈ ((h.released : Multiset Held) + ↑h.rejected + ↑s.ok_delay) :=
      Multiset.mem_add.mpr (Or.inr member)
    rwa [← conserves.kept.conserved] at there
  have followed {e : Event Held} {b a : Held} (member : e ∈ events) (replaces : e.replaces = some (b, a)) :
      Followed (h.received ++ worklist.incoming) worklist.incoming b a := by
    obtain ⟨same, comes, order⟩ := batch.run.replaced known member replaces
    rw [batch.arrives] at comes order
    exact ⟨comes, same, order⟩
  refine ⟨s', worklist', drops events, {
    called := called
    grown := batch.rejected
    superseded := fun b member => ?_
    early := fun b member => ?_
    stopped := batch.stopped }⟩
  · obtain ⟨a, event⟩ := mem_drops_iff.mp member
    have free := (batch.run.decided event).2 rfl
    rw [Critical, not_or, Bool.not_eq_true, Bool.not_eq_true] at free
    exact ⟨a, followed event rfl, free⟩
  · rw [batch.released, mem_releases_iff, ← or_assoc] at member
    rcases member with event | ⟨a, event⟩
    · exact (batch.ripe b event).imp_right Or.inl
    · exact Or.inr (Or.inr ⟨a, followed event rfl, (batch.run.decided event).1 rfl⟩)

end Run

/-! ## Two versions of a file, and a request to stop -/

section Example

def version (tag : Nat) : Held := ⟨tag, [("pubTime", .str "20200101T000000".toList), ("relPath", .str "a".toList)]⟩

theorem version_time : timeOf (version 0).fields "pubTime" = .ok 1577836800 := by decide +kernel

theorem version_accepted (tag : Nat) : Accepted (version tag) := ⟨⟨"a".toList, rfl⟩, 1577836800, version_time⟩

def worklistOf (incoming : List Held) : Worklist := ⟨incoming, [], [], []⟩

def oneSecondLater : Nat → ℚ := fun _ => 1577836801

/-- The second version of the file takes the place of the first. -/
theorem twoVersions_delayed :
    after_accept 30 oneSecondLater State.new (worklistOf [version 0, version 1]) =
      .ok (⟨[version 1], false, 1⟩, ⟨[], [], [version 0], []⟩) := by
  have young : (1577836801 : ℚ) - 1577836800 < 30 := by norm_num
  have held : arriveOne 30 1577836801 (version 0) ⟨[], [], [], 0⟩ = .ok ⟨[version 0], [], [], 0⟩ := by
    unfold arriveOne
    rw [version_time]
    exact if_pos ⟨rfl, young⟩
  have replaced : arriveOne 30 1577836801 (version 1) ⟨[version 0], [], [], 0⟩ =
      .ok ⟨[version 1], [], [version 0], 1⟩ := rfl
  have waiting : due 30 (fun i => oneSecondLater (i + 1)) [version 1] = .ok ([], [version 1]) := by
    rw [due, show timeOf (version 1).fields "pubTime" = _ from version_time]
    exact if_neg (not_le.mpr young)
  have arrived : arrive 30 1577836801 [version 0, version 1] ⟨[], [], [], 0⟩ =
      .ok ⟨[version 1], [], [version 0], 1⟩ :=
    bind_ok_iff.mpr ⟨_, held, bind_ok_iff.mpr ⟨_, replaced, rfl⟩⟩
  exact bind_ok_iff.mpr ⟨_, arrived, bind_ok_iff.mpr ⟨_, waiting, rfl⟩⟩

theorem twoVersions_latest :
    Kept pathOf [version 0, version 1] [] [version 0] [version 1] ∧
      ∀ (clock : Nat → ℚ) (worklist : Worklist), (∀ m ∈ worklist.incoming, Accepted m) →
        ∃ s' worklist' rejected, NextBatch 30 clock ⟨[version 1], false, 1⟩
          ⟨[version 0, version 1], [], [version 0]⟩ worklist s' worklist' rejected :=
  delays_latest (.batch oneSecondLater .new
    (fun m member => by
      rcases List.mem_cons.mp member with rfl | member
      · exact version_accepted 0
      · exact List.mem_singleton.mp member ▸ version_accepted 1)
    twoVersions_delayed rfl)

end Example
end Sarracenia.Guarantees.MDelayLatest
