import Sarracenia.Guarantees.Sr.Launch
import Sarracenia.Source.SrRace

/-!
# Exclusion of `sanity` and `start`

Each goes by what it read when it was constructed. No instance is launched by both if each of them reads when
the other has not read yet, can launch nothing, or has left its traces: its marker, or the pid files of its
processes.
-/
namespace Sarracenia.Guarantees.Sr.Exclusion
open Library Source.Sr Source.Sr.Race

/-! ## The phases -/

section Phases

/-- `start` has not read the state of the flow. -/
def StartUnread : StartAt → Prop
  | .begun => True
  | .read _ => True
  | _ => False

/-- `start` will launch no more. -/
def StartHarmless : StartAt → Prop
  | .constructed s => s ∉ startable
  | .checked s _ => s ∉ startable
  | .clear s => s ∉ startable
  | .launched => True
  | .untagged => True
  | .ended => True
  | _ => False

/-- `sanity` has not read the state of the flow. -/
def SanityUnread : SanityAt → Prop
  | .begun => True
  | .read _ => True
  | _ => False

/-- The process table that `sanity` goes by. -/
def heldBy : SanityAt → Option Procs
  | .read procs => some procs
  | .constructed procs _ => some procs
  | .tagging procs _ => some procs
  | .tagged procs _ => some procs
  | _ => none

variable (σ : State)

/-- The pid file of the instance names a process of the table. -/
def Recorded (procs : Procs) (i : Nat) : Prop := ∃ pid, σ.dir.pids.get i = some (some pid) ∧ alive procs pid = true

/-- What keeps `sanity` from the instances that a `start` before it has launched: until it has looked for
missing ones, their pid files and its process table, then its list of them. -/
def Guard : SanityAt → Prop
  | .constructed procs _ => σ.bySanity = [] ∧ σ.writing = [] ∧ ∀ i ∈ σ.byStart, Recorded σ procs i
  | .tagging procs _ => σ.bySanity = [] ∧ σ.writing = [] ∧ ∀ i ∈ σ.byStart, Recorded σ procs i
  | .tagged procs _ => σ.bySanity = [] ∧ σ.writing = [] ∧ ∀ i ∈ σ.byStart, Recorded σ procs i
  | .found _ missing => (∀ i ∈ missing, i ∉ σ.byStart) ∧ ∀ i ∈ σ.bySanity, i ∉ σ.byStart
  | .launching missing => (∀ i ∈ missing, i ∉ σ.byStart) ∧ ∀ i ∈ σ.bySanity, i ∉ σ.byStart
  | .untagging => ∀ i ∈ σ.bySanity, i ∉ σ.byStart
  | .untagged => ∀ i ∈ σ.bySanity, i ∉ σ.byStart
  | .ended => ∀ i ∈ σ.bySanity, i ∉ σ.byStart
  | _ => False

/-- One of the two launches nothing, or `start` has ended and is guarded. -/
def Apart : Prop :=
  (σ.sanity = .ended ∧ σ.bySanity = []) ∨ (StartHarmless σ.start ∧ σ.byStart = []) ∨ (σ.start = .ended ∧ Guard σ σ.sanity)

structure Inv : Prop where
  held : ∀ procs, heldBy σ.sanity = some procs → ∀ pid, alive procs pid = true → alive σ.live pid = true
  sanityFirst : SanityUnread σ.sanity → σ.bySanity = []
  startFirst : StartUnread σ.start → σ.byStart = []
  apart : ¬ SanityUnread σ.sanity → ¬ StartUnread σ.start → Apart σ

/-- When a step may read the state of the flow. `start` may if `sanity` has not, or has launched nothing, or if
a pid file names a process that `start` knows. `sanity` may if it sees the marker, if `start` has not read or
launches nothing, or if all the instances it launched are recorded. -/
def Meets : Label → State → Prop
  | .startSees procs, σ => SanityUnread σ.sanity ∨ (σ.sanity = .ended ∧ σ.bySanity = []) ∨ ∃ i, Recorded σ procs i
  | .sanitySees procs, σ => σ.dir.markers .starting = true ∨ StartUnread σ.start ∨
      (StartHarmless σ.start ∧ σ.byStart = []) ∨
      (σ.start = .ended ∧ σ.writing = [] ∧ ∀ i ∈ σ.byStart, Recorded σ procs i)
  | .other, _ => True

end Phases

/-! ## Steps -/

section Steps
variable {f : Flow} {o : Options} {σ σ' : State}

theorem alive_set {procs : Procs} {pid : Nat} (p : Proc) (pid' : Nat) (up : alive procs pid' = true) :
    alive (procs.set pid p) pid' = true := by
  unfold alive at up ⊢
  rw [Table.get_set]
  split
  · rfl
  · exact up

/-- What a step of `start` leaves as it was. -/
structure StartFrame (σ σ' : State) : Prop where
  sanity : σ'.sanity = σ.sanity
  bySanity : σ'.bySanity = σ.bySanity
  live : ∀ pid, alive σ.live pid = true → alive σ'.live pid = true
  unread : StartUnread σ'.start ↔ StartUnread σ.start
  idle : StartUnread σ.start ∨ StartHarmless σ.start → σ'.byStart = σ.byStart
  harmless : StartHarmless σ.start → StartHarmless σ'.start
  goes : σ.start ≠ .ended

theorem startStep_frame (step : StartStep f o σ σ') : StartFrame σ σ' := by
  cases step with
  | reads at_ => constructor <;> simp_all [StartUnread, StartHarmless]
  | checks s at_ => constructor <;> simp_all [StartUnread, StartHarmless]
  | waits s b at_ _ => constructor <;> simp_all [StartUnread, StartHarmless]
  | passes s b at_ _ => constructor <;> simp_all [StartUnread, StartHarmless]
  | refuses s at_ => rcases at_ with at_ | at_ <;> constructor <;> simp_all [StartUnread, StartHarmless]
  | skips s at_ _ => constructor <;> simp_all [StartUnread, StartHarmless]
  | tags s at_ _ => constructor <;> simp_all [StartUnread, StartHarmless, State.mark]
  | launches i pid p at_ _ _ =>
    constructor <;> simp_all [StartUnread, StartHarmless, State.spawn]
    exact fun pid' up => alive_set p pid' up
  | launched i at_ _ => constructor <;> simp_all [StartUnread, StartHarmless]
  | untags at_ _ => constructor <;> simp_all [StartUnread, StartHarmless, State.mark]
  | ends at_ => constructor <;> simp_all [StartUnread, StartHarmless, State.mark]
  | stopped at_ => constructor <;> simp_all [StartUnread, StartHarmless]

theorem startStep_inv (inv : Inv σ) (step : StartStep f o σ σ') : Inv σ' := by
  have frame := startStep_frame step
  constructor
  · intro procs held pid up
    rw [frame.sanity] at held
    exact frame.live pid (inv.held procs held pid up)
  · rw [frame.sanity, frame.bySanity]
    exact inv.sanityFirst
  · intro unread
    have before := frame.unread.mp unread
    rw [frame.idle (Or.inl before)]
    exact inv.startFirst before
  · rw [frame.sanity, frame.unread]
    intro read started
    rcases inv.apart read started with out | ⟨harmless, none_⟩ | ⟨ended, _⟩
    · refine Or.inl ?_
      rwa [frame.sanity, frame.bySanity]
    · refine Or.inr (Or.inl ⟨frame.harmless harmless, ?_⟩)
      rwa [frame.idle (Or.inr harmless)]
    · exact absurd ended frame.goes

/-- What a step of `sanity` leaves as it was. -/
structure SanityFrame (σ σ' : State) : Prop where
  start : σ'.start = σ.start
  byStart : σ'.byStart = σ.byStart
  held : (∀ procs, heldBy σ.sanity = some procs → ∀ pid, alive procs pid = true → alive σ.live pid = true) →
    ∀ procs, heldBy σ'.sanity = some procs → ∀ pid, alive procs pid = true → alive σ'.live pid = true
  unread : SanityUnread σ'.sanity ↔ SanityUnread σ.sanity
  idle : SanityUnread σ.sanity → σ'.bySanity = σ.bySanity
  goes : σ.sanity ≠ .ended

theorem sanityStep_frame (step : SanityStep f o σ σ') : SanityFrame σ σ' := by
  cases step with
  | launches i pid p missing at_ _ => constructor <;> simp_all [SanityUnread, heldBy, State.spawn]
  | reads at_ => constructor <;> simp_all [SanityUnread, heldBy]
  | refuses procs s at_ => constructor <;> simp_all [SanityUnread, heldBy]
  | tagging procs s at_ => constructor <;> simp_all [SanityUnread, heldBy, State.sanitize]
  | tags procs s at_ => constructor <;> simp_all [SanityUnread, heldBy, State.sanitize]
  | rereads procs s at_ => constructor <;> simp_all [SanityUnread, heldBy]
  | skips procs s at_ => constructor <;> simp_all [SanityUnread, heldBy]
  | finds procs s missing at_ _ => constructor <;> simp_all [SanityUnread, heldBy]
  | cleans procs missing at_ => constructor <;> simp_all [SanityUnread, heldBy]
  | leaves procs at_ => constructor <;> simp_all [SanityUnread, heldBy]
  | launched at_ => constructor <;> simp_all [SanityUnread, heldBy]
  | untagging at_ => constructor <;> simp_all [SanityUnread, heldBy, State.sanitize]
  | ends at_ => constructor <;> simp_all [SanityUnread, heldBy, State.sanitize]

/-- A recorded instance is not found missing. -/
theorem missing_unrecorded {procs : Procs} {s : Status} {i : Nat}
    (missing : i ∈ (missingOf procs s f o σ.dir).map (·.2)) : ¬ Recorded σ procs i := by
  intro ⟨pid, there, up⟩
  obtain ⟨⟨g, j⟩, member, rfl⟩ := List.mem_map.mp missing
  obtain rfl := Launch.missingOf_flow procs member
  have wanting : Launch.Wanting procs f o σ.dir j := by
    by_contra fine
    exact absurd member (List.count_eq_zero.mp ((Launch.oneIf_missingOf procs s o σ.dir).2 fun both => fine both.2))
  rcases wanting with ⟨_, text, file, dead⟩ | ⟨_, _, none_⟩
  · cases there.symm.trans file
    rw [Option.any_some, up] at dead
    cases dead
  · cases there.symm.trans none_

/-- The guard holds through the steps of `sanity`: what is recorded is not missing, and only what is missing is
launched. -/
theorem guard_step (step : SanityStep f o σ σ')
    (held : ∀ procs, heldBy σ.sanity = some procs → ∀ pid, alive procs pid = true → alive σ.live pid = true)
    (guard : Guard σ σ.sanity) : Guard σ' σ'.sanity := by
  cases step with
  | reads at_ =>
    rw [at_] at guard
    exact guard
  | refuses procs s at_ =>
    rw [at_] at guard
    have none_ := guard.1
    simp [Guard, none_]
  | tagging procs s at_ =>
    rw [at_] at guard
    exact guard
  | tags procs s at_ =>
    rw [at_] at guard
    exact guard
  | rereads procs s at_ =>
    rw [at_] at guard held
    obtain ⟨none_, written, recorded⟩ := guard
    refine ⟨none_, written, fun i member => ?_⟩
    obtain ⟨pid, there, up⟩ := recorded i member
    exact ⟨pid, there, held procs rfl pid up⟩
  | skips procs s at_ =>
    rw [at_] at guard
    have none_ := guard.1
    simp [Guard, none_]
  | finds procs s missing at_ same =>
    subst same
    rw [at_] at guard
    obtain ⟨none_, _, recorded⟩ := guard
    refine ⟨fun i missing launched => missing_unrecorded missing (recorded i launched), ?_⟩
    simp [none_]
  | cleans procs missing at_ =>
    rw [at_] at guard
    exact guard
  | leaves procs at_ =>
    rw [at_] at guard
    exact guard
  | launches i pid p missing at_ _ =>
    rw [at_] at guard
    obtain ⟨apart, others⟩ := guard
    refine ⟨fun j member => apart j (List.mem_cons_of_mem i member), fun j member => ?_⟩
    rcases List.mem_append.mp member with before | new
    · exact others j before
    · rw [List.mem_singleton.mp new]
      exact apart i List.mem_cons_self
  | launched at_ =>
    rw [at_] at guard
    exact guard.2
  | untagging at_ =>
    rw [at_] at guard
    exact guard
  | ends at_ =>
    rw [at_] at guard
    exact guard

theorem sanityStep_inv (inv : Inv σ) (step : SanityStep f o σ σ') : Inv σ' := by
  have frame := sanityStep_frame step
  constructor
  · exact frame.held inv.held
  · intro unread
    have before := frame.unread.mp unread
    rw [frame.idle before]
    exact inv.sanityFirst before
  · rw [frame.start, frame.byStart]
    exact inv.startFirst
  · rw [frame.start, frame.unread]
    intro read started
    rcases inv.apart read started with ⟨ended, _⟩ | ⟨harmless, none_⟩ | ⟨ended, guard⟩
    · exact absurd ended frame.goes
    · refine Or.inr (Or.inl ?_)
      rw [frame.start, frame.byStart]
      exact ⟨harmless, none_⟩
    · refine Or.inr (Or.inr ⟨?_, guard_step step inv.held guard⟩)
      rwa [frame.start]

/-- A process that writes its pid file disturbs no guard that rests on the pid files. -/
theorem writes_inv (inv : Inv σ) {i pid : Nat} (waiting : (i, pid) ∈ σ.writing) :
    Inv { σ with
      dir := { σ.dir with pids := σ.dir.pids.set i (some pid) }
      writing := σ.writing.erase (i, pid) } := by
  refine ⟨inv.held, inv.sanityFirst, inv.startFirst, fun read started => ?_⟩
  rcases inv.apart read started with out | harmless | ⟨ended, guard⟩
  · exact Or.inl out
  · exact Or.inr (Or.inl harmless)
  · refine Or.inr (Or.inr ⟨ended, ?_⟩)
    have busy : σ.writing ≠ [] := List.ne_nil_of_mem waiting
    cases at_ : σ.sanity with
    | constructed procs s =>
      rw [at_] at guard
      exact absurd guard.2.1 busy
    | tagging procs s =>
      rw [at_] at guard
      exact absurd guard.2.1 busy
    | tagged procs s =>
      rw [at_] at guard
      exact absurd guard.2.1 busy
    | begun => simp [at_, Guard] at guard
    | read procs => simp [at_, Guard] at guard
    | found procs missing => simpa [at_, Guard] using guard
    | launching missing => simpa [at_, Guard] using guard
    | untagging => simpa [at_, Guard] using guard
    | untagged => simpa [at_, Guard] using guard
    | ended => simpa [at_, Guard] using guard

variable {μ : Type} {accumulate : ℚ → Nat → List μ → Metrics}

/-- A flow with a process that is known is not started. -/
theorem known_unstartable {procs : Procs} {now : ℚ} {r : Records μ} {i : Nat} (recorded : Recorded σ procs i) :
    (look f o accumulate now procs (some σ.dir) r).status ∉ startable := by
  obtain ⟨pid, there, up⟩ := recorded
  have active := active_of_alive accumulate now procs f o (some σ.dir) r ⟨σ.dir, rfl, i, pid, there, up⟩
  intro starts
  simp only [startable, List.mem_cons, List.not_mem_nil, or_false] at starts
  rcases starts with is | is | is | is <;> rw [is] at active <;> exact absurd active (by decide)

theorem startSees_inv (inv : Inv σ) {procs : Procs} (at_ : σ.start = .read procs) (meets : Meets (.startSees procs) σ)
    (now : ℚ) (r : Records μ) :
    Inv { σ with start := .constructed (look f o accumulate now procs (some σ.dir) r).status } := by
  have none_ : σ.byStart = [] := inv.startFirst (by rw [at_]; trivial)
  refine ⟨inv.held, inv.sanityFirst, fun unread => unread.elim, fun read _ => ?_⟩
  rcases meets with unread | out | ⟨i, recorded⟩
  · exact absurd unread read
  · exact Or.inl out
  · exact Or.inr (Or.inl ⟨known_unstartable recorded, none_⟩)

theorem fluxOf_starting {d : StateDir} (there : d.markers .starting = true) : fluxOf d = some .starting := by
  rw [fluxOf, if_pos there]

theorem sanitySees_inv (inv : Inv σ) {procs : Procs} (at_ : σ.sanity = .read procs)
    (meets : Meets (.sanitySees procs) σ) (calm : fluxOf σ.dir = none) (now : ℚ) (r : Records μ) :
    Inv { σ with sanity := .constructed procs (look f o accumulate now procs (some σ.dir) r).status } := by
  have none_ : σ.bySanity = [] := inv.sanityFirst (by rw [at_]; trivial)
  refine ⟨fun procs' same => ?_, fun unread => unread.elim, inv.startFirst, fun _ started => ?_⟩
  · exact inv.held procs' (by rw [at_]; exact same)
  · rcases meets with marked | unread | harmless | ⟨ended, written, recorded⟩
    · rw [fluxOf_starting marked] at calm
      cases calm
    · exact absurd unread started
    · exact Or.inr (Or.inl harmless)
    · exact Or.inr (Or.inr ⟨ended, none_, written, recorded⟩)

theorem sanityHolds_inv (inv : Inv σ) {procs : Procs} (at_ : σ.sanity = .read procs) :
    Inv { σ with sanity := .ended } := by
  have none_ : σ.bySanity = [] := inv.sanityFirst (by rw [at_]; trivial)
  exact ⟨fun _ same => (nomatch same), fun unread => unread.elim, inv.startFirst, fun _ _ => Or.inl ⟨rfl, none_⟩⟩

theorem step_inv (inv : Inv σ) {l : Label} (meets : Meets l σ) (step : Step accumulate f o σ l σ') : Inv σ' := by
  cases step with
  | start moves => exact startStep_inv inv moves
  | sanity moves => exact sanityStep_inv inv moves
  | startSees procs now r s at_ is =>
    subst is
    exact startSees_inv inv at_ meets now r
  | sanitySees procs now r s at_ calm is =>
    subst is
    exact sanitySees_inv inv at_ meets calm now r
  | sanityHolds procs at_ _ => exact sanityHolds_inv inv at_
  | writes i pid waiting => exact writes_inv inv waiting

end Steps

/-! ## Runs -/

section Runs
variable {μ : Type} (accumulate : ℚ → Nat → List μ → Metrics) (f : Flow) (o : Options)

theorem fresh_inv {σ : State} (fresh : Fresh σ) : Inv σ := by
  obtain ⟨start, sanity, byStart, bySanity⟩ := fresh
  refine ⟨fun procs held => ?_, fun _ => bySanity, fun _ => byStart, fun read => ?_⟩
  · rw [sanity] at held
    cases held
  · rw [sanity] at read
    exact absurd trivial read

theorem run_inv {σ σ' : State} (fresh : Fresh σ) (run : Runs accumulate f o Meets σ σ') : Inv σ' := by
  induction run with
  | refl => exact fresh_inv fresh
  | step _ meets step ih => exact step_inv ih meets step

theorem inv_exclusive {σ : State} (inv : Inv σ) (i : Nat) (bySanity : i ∈ σ.bySanity) : i ∉ σ.byStart := by
  intro byStart
  have read : ¬ SanityUnread σ.sanity := fun unread => by rw [inv.sanityFirst unread] at bySanity; cases bySanity
  have started : ¬ StartUnread σ.start := fun unread => by rw [inv.startFirst unread] at byStart; cases byStart
  rcases inv.apart read started with ⟨_, none_⟩ | ⟨_, none_⟩ | ⟨_, guard⟩
  · rw [none_] at bySanity
    cases bySanity
  · rw [none_] at byStart
    cases byStart
  · cases at_ : σ.sanity with
    | constructed procs s =>
      rw [at_] at guard
      rw [guard.1] at bySanity
      cases bySanity
    | tagging procs s =>
      rw [at_] at guard
      rw [guard.1] at bySanity
      cases bySanity
    | tagged procs s =>
      rw [at_] at guard
      rw [guard.1] at bySanity
      cases bySanity
    | begun => simp [at_, Guard] at guard
    | read procs => simp [at_, Guard] at guard
    | found procs missing =>
      rw [at_] at guard
      exact guard.2 i bySanity byStart
    | launching missing =>
      rw [at_] at guard
      exact guard.2 i bySanity byStart
    | untagging =>
      rw [at_] at guard
      exact guard i bySanity byStart
    | untagged =>
      rw [at_] at guard
      exact guard i bySanity byStart
    | ended =>
      rw [at_] at guard
      exact guard i bySanity byStart

/-- In a run whose reading steps meet the condition, no instance is launched by both. -/
theorem run_exclusive {σ σ' : State} (fresh : Fresh σ) (run : Runs accumulate f o Meets σ σ') (i : Nat) :
    ¬ (i ∈ σ'.bySanity ∧ i ∈ σ'.byStart) := fun both => inv_exclusive (run_inv accumulate f o fresh run) i both.1 both.2

end Runs

/-! ## A flow launched by both -/

section Both

def flow : Flow := ⟨.subscribe, "amis".toList⟩

/-- The flow has a pid file, and no process. -/
def lostInstance : State :=
  ⟨⟨fun _ => false, ⟨[(1, some 99)], by decide⟩, [], []⟩, fun _ => false, Table.empty, [], .begun, .begun, [], []⟩

def process : Proc := ⟨["start".toList], "sr3_subscribe.py".toList, 0, false⟩

def noRecords : Records Metrics := ⟨none, Table.empty⟩

/-- The states that runs without a condition, or with one, come to from it. -/
abbrev Raced (meets : Label → State → Prop) (σ : State) : Prop :=
  Runs (fun (_ : ℚ) (_ : Nat) (_ : List Metrics) => empty_metrics) flow oneInstance meets lostInstance σ

theorem lost_status : (look flow oneInstance (fun (_ : ℚ) (_ : Nat) (_ : List Metrics) => empty_metrics) 0 Table.empty
    (some lostInstance.dir) noRecords).status = .missing := by decide +kernel

theorem lost_missing : (missingOf Table.empty .missing flow oneInstance lostInstance.dir).map (·.2) = [1] := by
  decide +kernel

/-- `start` finds no marker of `sanity`, which then makes it and launches the instance; so does `start`. -/
theorem launched_by_both : ¬ ∀ σ σ', Fresh σ →
    Runs (fun (_ : ℚ) (_ : Nat) (_ : List Metrics) => empty_metrics) flow oneInstance (fun _ _ => True) σ σ' →
      ∀ i, ¬ (i ∈ σ'.bySanity ∧ i ∈ σ'.byStart) := by
  intro exclusive
  have begun : Raced (fun _ _ => True) lostInstance := .refl
  have read := (begun.step trivial (.start (.reads _ rfl))).step trivial (.sanity (.reads _ rfl))
  have seen := (read.step trivial (.startSees _ _ 0 noRecords _ rfl lost_status)).step trivial
    (.sanitySees _ _ 0 noRecords _ rfl rfl lost_status)
  have passed := (seen.step trivial (.start (.checks _ _ rfl))).step trivial (.start (.passes _ _ _ rfl rfl))
  have tagged := (passed.step trivial (.sanity (.tagging _ _ _ rfl))).step trivial (.sanity (.tags _ _ _ rfl))
  have found := (tagged.step trivial (.sanity (.finds _ _ _ _ rfl lost_missing))).step trivial
    (.sanity (.cleans _ _ _ rfl))
  have bySanity := found.step trivial (.sanity (.launches _ 1 100 process [] rfl rfl))
  have byBoth := (bySanity.step trivial (.start (.tags _ _ rfl (by decide)))).step trivial
    (.start (.launches _ 1 101 process rfl (by decide) rfl))
  exact exclusive lostInstance _ ⟨rfl, rfl, rfl, rfl⟩ byBoth 1 ⟨List.mem_singleton_self 1, List.mem_singleton_self 1⟩

/-- `start` launches the instance, and `sanity` sees its marker. -/
theorem started_alone : ∃ σ, Raced Meets σ ∧ 1 ∈ σ.byStart ∧ ¬ (1 ∈ σ.bySanity ∧ 1 ∈ σ.byStart) := by
  have starts {σ σ' : State} (run : Raced Meets σ) (moves : StartStep flow oneInstance σ σ') : Raced Meets σ' :=
    run.step (l := .other) trivial (.start moves)
  have begun : Raced Meets lostInstance := .refl
  have seen := (starts begun (.reads _ rfl)).step (l := .startSees _) (Or.inl trivial)
    (.startSees _ _ 0 noRecords _ rfl lost_status)
  have passed := starts (starts seen (.checks _ _ rfl)) (.passes _ _ _ rfl rfl)
  have launched := starts (starts passed (.tags _ _ rfl (by decide))) (.launches _ 1 101 process rfl (by decide) rfl)
  have read := launched.step (l := .other) trivial (.sanity (.reads _ rfl))
  have held := read.step (l := .sanitySees _) (Or.inl rfl) (.sanityHolds _ _ rfl (by decide))
  exact ⟨_, held, List.mem_singleton_self 1, run_exclusive _ flow oneInstance ⟨rfl, rfl, rfl, rfl⟩ held 1⟩

end Both
end Sarracenia.Guarantees.Sr.Exclusion
