import Mathlib.Algebra.BigOperators.Group.Finset.Basic
import Mathlib.Tactic.Ring
import Sarracenia.Source.Aggregation

/-!
# Metrics of several instances

What is computed for a configuration is computed after each of its instances: the averages are divided again, and the totals
have each of the sums on the way.
-/
namespace Sarracenia.Guarantees.Aggregation
open Library.Text
open Source.Aggregation

/-! ## What the files say -/

/-- The metrics that are added. -/
def counters : List Metric := [
  .byteTotal, .brokerQueuedMessageCount, .cpuTime, .lagMessageCount, .lagTotal, .msgs_in_download_retry, .msgs_in_post_retry,
  .rejectCount, .rxBadCount, .rxByteCount, .rxGoodCount, .transferRxBytes, .transferRxFiles, .transferTxBytes, .transferTxFiles,
  .txBadCount, .txByteCount, .txGoodCount]

/-- Those of which there is an average. -/
def means : List Metric := [.transferConnectTime, .disconnectTime]

def Entry.flat (k : Metric) : Entry → ℚ
  | .number j newval => if j = k then newval else 0
  | _ => 0

def Entry.housekept (v : ℚ) : Entry → ℚ
  | .number .last_housekeeping newval => if v = 0 ∨ newval < v then newval else v
  | _ => v

/-- What the brokers of an instance have, in the sections that are told by broker. -/
def Entry.nested (section_ : Str) (k : Metric) : Entry → ℚ
  | .broker _ values =>
    if section_ ∈ ["post.message".toList, "gather.message".toList] then (values.map fun v => if v.1 = k then v.2 else 0).sum else 0
  | _ => 0

/-- Beside the brokers. -/
def flat (f : File) (k : Metric) : ℚ := (f.sections.map fun s => (s.entries.map (Entry.flat k)).sum).sum

def nested (f : File) (k : Metric) : ℚ := (f.sections.map fun s => (s.entries.map (Entry.nested s.name k)).sum).sum

/-- The last housekeeping that is kept, from one before. -/
def housekept (v : ℚ) (f : File) : ℚ := f.sections.foldl (fun v s => s.entries.foldl Entry.housekept v) v

/-- Some instances together. -/
def tally (files : List File) (k : Metric) : ℚ :=
  if k = .last_housekeeping then files.foldl housekept 0 else (files.map (flat · k)).sum

section Files
variable {m : Metrics} {k j : Metric} {q : ℚ}

/-- The metrics that are followed have their names. -/
def Known (m : Metrics) : Prop := ∀ k ∈ .last_housekeeping :: (counters ++ means), (m.numbers k).isSome = true

theorem get_set (m : Metrics) (j k : Metric) (q : ℚ) : (m.set j q).get k = if k = j then q else m.get k := by
  unfold Metrics.get Metrics.set Function.update
  by_cases same : k = j
  · subst same
    simp
  · simp [same]

theorem get_later (other : k ≠ j) : (m.later j q).get k = m.get k := by
  unfold Metrics.later
  split
  · rw [get_set, if_neg other]
  · rfl

theorem known_set (known : Known m) (j : Metric) (q : ℚ) : Known (m.set j q) := by
  intro k member
  change (Function.update m.numbers j (some q) k).isSome = true
  by_cases same : k = j
  · rw [same, Function.update_self]
    rfl
  · rw [Function.update_of_ne same]
    exact known k member

theorem known_later (known : Known m) (j : Metric) (q : ℚ) : Known (m.later j q) := by
  unfold Metrics.later
  split
  · exact known_set known j q
  · exact known

theorem known_number (known : Known m) (j : Metric) (q : ℚ) : Known (m.number j q) := by
  unfold Metrics.number
  split
  · split
    · exact known_later known _ q
    · split
      · exact known_set known _ q
      · exact known
    · exact known_set known _ _
  · exact known

/-- A number is added to what has its name. -/
theorem number_added (known : Known m) (member : k ∈ counters ++ means) (j : Metric) (q : ℚ) :
    (m.number j q).get k = m.get k + if j = k then q else 0 := by
  have apart : (counters ++ means).all (fun k => k != .lagMax && k != .last_housekeeping) = true := by decide
  have apart := List.all_eq_true.mp apart k member
  rw [Bool.and_eq_true, bne_iff_ne, bne_iff_ne] at apart
  unfold Metrics.number
  by_cases same : j = k
  · subst same
    rw [if_pos (known j (List.mem_cons_of_mem _ member)), if_pos rfl]
    split
    · exact absurd rfl apart.1
    · exact absurd rfl apart.2
    · rw [get_set, if_pos rfl]
  · rw [if_neg same, add_zero]
    split
    · split
      · exact get_later apart.1
      · split
        · rw [get_set, if_neg apart.2]
        · rfl
      · rw [get_set, if_neg (Ne.symm same)]
    · rfl

theorem number_housekept (known : Known m) (j : Metric) (q : ℚ) :
    (m.number j q).get .last_housekeeping = Entry.housekept (m.get .last_housekeeping) (.number j q) := by
  unfold Metrics.number
  by_cases same : j = .last_housekeeping
  · subst same
    rw [if_pos (known _ List.mem_cons_self)]
    dsimp only [Entry.housekept]
    split
    · rw [get_set, if_pos rfl]
    · rfl
  · have kept : Entry.housekept (m.get .last_housekeeping) (.number j q) = m.get .last_housekeeping := by
      unfold Entry.housekept
      split
      · next is =>
        cases is
        exact absurd rfl same
      · rfl
    rw [kept]
    split
    · split
      · exact get_later (by decide)
      · exact absurd rfl same
      · rw [get_set, if_neg (Ne.symm same)]
    · rfl

/-- The times of brokers are not among the metrics that are followed. -/
theorem broker_kept (known : Known m) (member : k ∈ .last_housekeeping :: (counters ++ means)) (values : List (Metric × ℚ)) :
    Known (values.foldl Metrics.brokerValue m) ∧ (values.foldl Metrics.brokerValue m).get k = m.get k := by
  have apart : (.last_housekeeping :: (counters ++ means)).all (fun k => k != .rxLast && k != .txLast && k != .messageLast) = true := by
    decide
  have apart := List.all_eq_true.mp apart k member
  rw [Bool.and_eq_true, Bool.and_eq_true, bne_iff_ne, bne_iff_ne, bne_iff_ne] at apart
  induction values generalizing m with
  | nil => exact ⟨known, rfl⟩
  | cons v values ih =>
    have one : Known (m.brokerValue v) ∧ (m.brokerValue v).get k = m.get k := by
      unfold Metrics.brokerValue
      split
      · exact ⟨known_later (known_later known _ _) _ _, (get_later apart.2).trans (get_later apart.1.1)⟩
      · exact ⟨known_later (known_later known _ _) _ _, (get_later apart.2).trans (get_later apart.1.2)⟩
      · exact ⟨known, rfl⟩
    obtain ⟨known', kept⟩ := ih one.1
    exact ⟨known', kept.trans one.2⟩

/-- What one entry does to the metrics that are followed. -/
theorem entry_spec (known : Known m) (section_ : Str) (e : Entry) : Known (m.entry section_ e) ∧
    (∀ k ∈ counters ++ means, (m.entry section_ e).get k = m.get k + Entry.flat k e) ∧
    (m.entry section_ e).get .last_housekeeping = Entry.housekept (m.get .last_housekeeping) e := by
  have transfer : ∀ k ∈ counters ++ means, k ≠ .transferLast := by
    have apart : (counters ++ means).all (· != .transferLast) = true := by decide
    exact fun k member => bne_iff_ne.mp (List.all_eq_true.mp apart k member)
  cases e with
  | number j q => exact ⟨known_number known j q, fun k member => number_added known member j q, number_housekept known j q⟩
  | connected q => exact ⟨known, fun k _ => (add_zero _).symm, rfl⟩
  | transferConnected q => exact ⟨known, fun k _ => (add_zero _).symm, rfl⟩
  | transferRxLast q =>
    exact ⟨known_later known _ q, fun k member => (get_later (transfer k member)).trans (add_zero _).symm, get_later (by decide)⟩
  | transferTxLast q =>
    exact ⟨known_later known _ q, fun k member => (get_later (transfer k member)).trans (add_zero _).symm, get_later (by decide)⟩
  | broker name values =>
    unfold Metrics.entry
    dsimp only
    split
    · exact ⟨(broker_kept known List.mem_cons_self values).1,
        fun k member => (broker_kept known (List.mem_cons_of_mem _ member) values).2.trans (add_zero _).symm,
        (broker_kept known List.mem_cons_self values).2⟩
    · exact ⟨known, fun k _ => (add_zero _).symm, rfl⟩

theorem entries_spec (known : Known m) (section_ : Str) (entries : List Entry) : Known (entries.foldl (Metrics.entry section_) m) ∧
    (∀ k ∈ counters ++ means, (entries.foldl (Metrics.entry section_) m).get k = m.get k + (entries.map (Entry.flat k)).sum) ∧
    (entries.foldl (Metrics.entry section_) m).get .last_housekeeping = entries.foldl Entry.housekept (m.get .last_housekeeping) := by
  induction entries generalizing m with
  | nil => exact ⟨known, fun k _ => (add_zero _).symm, rfl⟩
  | cons e entries ih =>
    obtain ⟨known₁, added₁, kept₁⟩ := entry_spec known section_ e
    obtain ⟨known₂, added₂, kept₂⟩ := ih known₁
    refine ⟨known₂, fun k member => ?_, ?_⟩
    · rw [List.foldl_cons, added₂ k member, added₁ k member, List.map_cons, List.sum_cons, add_assoc]
    · rw [List.foldl_cons, kept₂, kept₁, List.foldl_cons]

/-- What one file does. -/
theorem file_spec (known : Known m) (f : File) : Known (m.file f) ∧ (∀ k ∈ counters ++ means, (m.file f).get k = m.get k + flat f k) ∧
    (m.file f).get .last_housekeeping = housekept (m.get .last_housekeeping) f := by
  unfold Metrics.file flat housekept
  induction f.sections generalizing m with
  | nil => exact ⟨known, fun k _ => (add_zero _).symm, rfl⟩
  | cons s sections ih =>
    obtain ⟨known₁, added₁, kept₁⟩ := entries_spec known s.name s.entries
    obtain ⟨known₂, added₂, kept₂⟩ := ih known₁
    refine ⟨known₂, fun k member => ?_, ?_⟩
    · rw [List.foldl_cons, added₂ k member, added₁ k member, List.map_cons, List.sum_cons, add_assoc]
    · rw [List.foldl_cons, kept₂, kept₁, List.foldl_cons]

end Files

section Derived
variable {m : Metrics} {k : Metric} {now : ℚ} {durationToString : ℚ → Str} {instances : ℕ} {new : Metric → Option ℚ}

theorem get_recompute (none_ : new k = none) : (m.recompute new).get k = m.get k := by
  unfold Metrics.get Metrics.recompute
  dsimp only
  rw [none_, Option.none_or]

theorem known_recompute (known : Known m) (new : Metric → Option ℚ) : Known (m.recompute new) := by
  intro k member
  unfold Metrics.recompute
  dsimp only
  rw [Option.isSome_or, known k member, Bool.or_true]

/-- Before the rates. -/
def settled (now : ℚ) (durationToString : ℚ → Str) (instances : ℕ) (m : Metrics) : Metrics :=
  let m := m.recompute (averages instances m)
  let m := m.recompute (queued m)
  { m with latestTransfer := some (latest now durationToString m) }

/-- What is computed from the numbers for the totals. -/
def own (now : ℚ) (get : Metric → ℚ) : Total → ℚ
  | .rxLagTime => if get .lagMessageCount > 0 then get .lagTotal else 0
  | .rxLagCount => if get .lagMessageCount > 0 then get .lagMessageCount else 0
  | .rxMessageQueued => get .brokerQueuedMessageCount
  | .rxMessageRetry => get .msgs_in_download_retry + get .msgs_in_post_retry
  | .rxMessageRate => if get .last_housekeeping > 0 then (get .rxGoodCount + get .rxBadCount) / (now - get .last_housekeeping) else 0
  | .rxMessageRateCpu =>
    if get .last_housekeeping > 0 then if get .cpuTime > 0 then (get .rxGoodCount + get .rxBadCount) / get .cpuTime else 0 else 0
  | .rxDataRate => if get .last_housekeeping > 0 then get .transferRxBytes / (now - get .last_housekeeping) else 0
  | .rxFileRate => if get .last_housekeeping > 0 then get .transferRxFiles / (now - get .last_housekeeping) else 0
  | .rxMessageByteRate =>
    if get .last_housekeeping > 0 then (get .rxByteCount + get .txByteCount) / (now - get .last_housekeeping) else 0
  | .txMessageRate => if get .last_housekeeping > 0 then (get .txGoodCount + get .txBadCount) / (now - get .last_housekeeping) else 0
  | .txDataRate => if get .last_housekeeping > 0 then get .transferTxBytes / (now - get .last_housekeeping) else 0
  | .txFileRate => if get .last_housekeeping > 0 then get .transferTxFiles / (now - get .last_housekeeping) else 0
  | .txMessageByteRate => if get .last_housekeeping > 0 then get .txByteCount / (now - get .last_housekeeping) else 0

/-- Only the counters and the housekeeping matter. -/
theorem own_congr {get get' : Metric → ℚ} (same : ∀ k ∈ .last_housekeeping :: counters, get k = get' k) : own now get = own now get' := by
  have counter (k : Metric) (member : decide (k ∈ .last_housekeeping :: counters) = true) : get k = get' k :=
    same k (of_decide_eq_true member)
  funext t
  cases t <;>
    simp only [own, counter .last_housekeeping rfl, counter .lagMessageCount rfl, counter .lagTotal rfl,
      counter .brokerQueuedMessageCount rfl, counter .msgs_in_download_retry rfl, counter .msgs_in_post_retry rfl,
      counter .rxGoodCount rfl, counter .rxBadCount rfl, counter .cpuTime rfl, counter .transferRxBytes rfl,
      counter .transferRxFiles rfl, counter .rxByteCount rfl, counter .txByteCount rfl, counter .txGoodCount rfl,
      counter .txBadCount rfl, counter .transferTxBytes rfl, counter .transferTxFiles rfl]

theorem derive_eq (m : Metrics) : m.derive now durationToString instances =
    let s := settled now durationToString instances m
    let r := if s.timed then s.recompute (rates now s) else s
    r.recompute (rejects r) := rfl

theorem derive_get (other : ∀ m, rejects m k = none) : (m.derive now durationToString instances).get k =
    let s := settled now durationToString instances m
    if s.timed then ((rates now s k).or (s.numbers k)).getD 0 else s.get k := by
  rw [derive_eq]
  dsimp only
  rw [get_recompute (other _)]
  split <;> rfl

/-- Counters stay as they are. -/
theorem settled_kept (member : k ∈ .last_housekeeping :: counters) : (settled now durationToString instances m).get k = m.get k := by
  have one (m : Metrics) : averages instances m k = none ∧ queued m k = none := by
    simp only [counters, List.mem_cons, List.not_mem_nil, or_false] at member
    rcases member with rfl | rfl | rfl | rfl | rfl | rfl | rfl | rfl | rfl | rfl | rfl | rfl | rfl | rfl | rfl | rfl | rfl | rfl | rfl <;>
      exact ⟨rfl, rfl⟩
  exact (get_recompute (one _).2).trans (get_recompute (one m).1)

theorem derive_kept (member : k ∈ .last_housekeeping :: counters) : (m.derive now durationToString instances).get k = m.get k := by
  have none_ (m : Metrics) : rates now m k = none ∧ rejects m k = none := by
    simp only [counters, List.mem_cons, List.not_mem_nil, or_false] at member
    rcases member with rfl | rfl | rfl | rfl | rfl | rfl | rfl | rfl | rfl | rfl | rfl | rfl | rfl | rfl | rfl | rfl | rfl | rfl | rfl <;>
      exact ⟨rfl, rfl⟩
  rw [derive_get fun m => (none_ m).2]
  dsimp only
  rw [(none_ _).1, Option.none_or]
  exact (ite_self _).trans (settled_kept member)

/-- An average is divided by the number of all instances. -/
theorem derive_mean (member : k ∈ means) : (m.derive now durationToString instances).get k = m.get k / instances := by
  simp only [means, List.mem_cons, List.not_mem_nil, or_false] at member
  rcases member with rfl | rfl
  · rw [derive_get fun m => rfl]
    exact ite_self _
  · rw [derive_get fun m => rfl]
    exact ite_self _

theorem derive_timed (m : Metrics) : (m.derive now durationToString instances).timed = m.timed := by
  unfold Metrics.timed
  rw [derive_kept List.mem_cons_self]

/-- What is added to the totals is computed from the counters as they are then. -/
theorem increments_derive (m : Metrics) : (m.derive now durationToString instances).increments = own now m.get := by
  have kept (k : Metric) (member : decide (k ∈ .last_housekeeping :: counters) = true) :
      (m.derive now durationToString instances).get k = m.get k := derive_kept (of_decide_eq_true member)
  have before (k : Metric) (member : decide (k ∈ .last_housekeeping :: counters) = true) :
      (settled now durationToString instances m).get k = m.get k := settled_kept (of_decide_eq_true member)
  have retry : (m.derive now durationToString instances).get .retry = m.get .msgs_in_download_retry + m.get .msgs_in_post_retry := by
    rw [derive_get fun m => rfl]
    exact ite_self _
  have messagesQueued : (m.derive now durationToString instances).get .messagesQueued = m.get .brokerQueuedMessageCount := by
    rw [derive_get fun m => rfl]
    exact ite_self _
  by_cases timed : m.get .last_housekeeping > 0
  · have known : m.timed = true := decide_eq_true timed
    have here : (settled now durationToString instances m).timed = true :=
      decide_eq_true (by rwa [before .last_housekeeping rfl])
    have rate (k : Metric) (other : ∀ m, rejects m k = none) {q : ℚ}
        (is : rates now (settled now durationToString instances m) k = some q) :
        (m.derive now durationToString instances).get k = q := by
      rw [derive_get other]
      dsimp only
      rw [if_pos here, is, Option.some_or, Option.getD_some]
    funext t
    cases t with
    | rxLagTime => rw [Metrics.increments, own, kept .lagMessageCount rfl, kept .lagTotal rfl]
    | rxLagCount => rw [Metrics.increments, own, kept .lagMessageCount rfl]
    | rxMessageQueued => exact messagesQueued
    | rxMessageRetry => exact retry
    | rxMessageRate =>
      rw [Metrics.increments, own, derive_timed, if_pos known, if_pos timed, rate .msgRate (fun _ => rfl) rfl,
        before .rxGoodCount rfl, before .rxBadCount rfl, before .last_housekeeping rfl]
    | rxMessageRateCpu =>
      rw [Metrics.increments, own, derive_timed, if_pos known, if_pos timed, rate .msgRateCpu (fun _ => rfl) rfl,
        before .rxGoodCount rfl, before .rxBadCount rfl, before .cpuTime rfl]
    | rxDataRate =>
      rw [Metrics.increments, own, derive_timed, if_pos known, if_pos timed, rate .transferRxByteRate (fun _ => rfl) rfl,
        before .transferRxBytes rfl, before .last_housekeeping rfl]
    | rxFileRate =>
      rw [Metrics.increments, own, derive_timed, if_pos known, if_pos timed, rate .transferRxFileRate (fun _ => rfl) rfl,
        before .transferRxFiles rfl, before .last_housekeeping rfl]
    | rxMessageByteRate =>
      rw [Metrics.increments, own, derive_timed, if_pos known, if_pos timed, rate .byteRate (fun _ => rfl) rfl,
        before .rxByteCount rfl, before .txByteCount rfl, before .last_housekeeping rfl]
    | txMessageRate =>
      rw [Metrics.increments, own, derive_timed, if_pos known, if_pos timed, rate .time_base (fun _ => rfl) rfl,
        kept .txGoodCount rfl, kept .txBadCount rfl, before .last_housekeeping rfl]
    | txDataRate =>
      rw [Metrics.increments, own, derive_timed, if_pos known, if_pos timed, rate .transferTxByteRate (fun _ => rfl) rfl,
        before .transferTxBytes rfl, before .last_housekeeping rfl]
    | txFileRate =>
      rw [Metrics.increments, own, derive_timed, if_pos known, if_pos timed, rate .transferTxFileRate (fun _ => rfl) rfl,
        before .transferTxFiles rfl, before .last_housekeeping rfl]
    | txMessageByteRate =>
      rw [Metrics.increments, own, derive_timed, if_pos known, if_pos timed, rate .time_base (fun _ => rfl) rfl,
        kept .txByteCount rfl, before .last_housekeeping rfl]
  · have unknown : ¬ m.timed = true := fun is => timed (of_decide_eq_true is)
    funext t
    cases t <;>
      simp only [Metrics.increments, own, derive_timed, if_neg unknown, if_neg timed, kept .lagMessageCount rfl, kept .lagTotal rfl,
        retry, messagesQueued]

theorem known_derive (known : Known m) : Known (m.derive now durationToString instances) := by
  rw [derive_eq]
  dsimp only
  apply known_recompute
  split
  · exact known_recompute (known_recompute (known_recompute known _) _) _
  · exact known_recompute (known_recompute known _) _

end Derived

section Runs
variable {now : ℚ} {durationToString : ℚ → Str} {c : Config} {instances : ℕ} {p : List File} {f : File} {s₀ : Stats}
  {s : Metrics × Stats}

/-- A sum that is divided after each number. -/
def averaged (instances : ℕ) (values : List ℚ) : ℚ := values.foldl (fun sum x => (sum + x) / instances) 0

/-- After some recent instances of a configuration. -/
structure Holds (now : ℚ) (instances : ℕ) (p : List File) (s₀ : Stats) (s : Metrics × Stats) : Prop where
  known : Known s.1
  counted : ∀ k ∈ .last_housekeeping :: counters, s.1.get k = tally p k
  averages : ∀ k ∈ means, s.1.get k = averaged instances (p.map (flat · k))
  now_ : s.1.increments = own now (tally p)
  totals : ∀ t, s.2.totals t = s₀.totals t + ∑ i ∈ Finset.range p.length, own now (tally (p.take (i + 1))) t

theorem tally_concat (p : List File) (f : File) (k : Metric) :
    tally (p ++ [f]) k = if k = .last_housekeeping then housekept (tally p .last_housekeeping) f else tally p k + flat f k := by
  unfold tally
  rw [if_pos rfl]
  split
  · rw [List.foldl_append, List.foldl_cons, List.foldl_nil]
  · rw [List.map_append, List.sum_append, List.map_singleton, List.sum_singleton]

theorem known_empty : Known empty_metrics := by unfold Known; decide

theorem get_empty (k : Metric) : empty_metrics.get k = 0 := by
  unfold Metrics.get empty_metrics
  dsimp only
  split <;> rfl

theorem tally_nil (k : Metric) : tally [] k = 0 := by
  unfold tally
  split <;> rfl

theorem own_nothing (now : ℚ) : own now (tally []) = 0 := by
  funext t
  cases t <;> simp [own, tally_nil]

theorem increments_empty : empty_metrics.increments = 0 := by
  funext t
  cases t <;> simp [Metrics.increments, Metrics.timed, get_empty]

theorem holds_empty (now : ℚ) (instances : ℕ) (s₀ : Stats) : Holds now instances [] s₀ (empty_metrics, s₀) := by
  refine ⟨known_empty, fun k _ => (get_empty k).trans (tally_nil k).symm, fun k _ => get_empty k, ?_, fun t => (add_zero _).symm⟩
  rw [increments_empty, own_nothing]

/-- One recent instance more. -/
theorem holds_step (durationToString : ℚ → Str) (holds : Holds now instances p s₀ s) (recent : ¬ f.mtime < c.expiry now) :
    Holds now instances (p ++ [f]) s₀ (oneInstance now durationToString c instances s f) := by
  obtain ⟨known, added, kept⟩ := file_spec holds.known f
  have counted : ∀ k ∈ .last_housekeeping :: counters, (s.1.file f).get k = tally (p ++ [f]) k := by
    intro k member
    rw [tally_concat]
    by_cases last : k = .last_housekeeping
    · rw [if_pos last, last, kept, holds.counted _ List.mem_cons_self]
    · rw [if_neg last, added k (List.mem_append_left _ (List.mem_of_ne_of_mem last member)), holds.counted k member]
  have now_ : ((s.1.file f).derive now durationToString instances).increments = own now (tally (p ++ [f])) := by
    rw [increments_derive]
    exact own_congr counted
  unfold oneInstance
  rw [if_neg recent]
  refine ⟨known_derive known, fun k member => (derive_kept member).trans (counted k member), fun k member => ?_, now_, fun t => ?_⟩
  · rw [derive_mean member, added k (List.mem_append_right _ member), holds.averages k member, List.map_append, averaged, averaged,
      List.foldl_append]
    rfl
  · change s.2.totals t + Metrics.increments _ t = _
    rw [holds.totals t, now_, List.length_append, List.length_singleton, Finset.sum_range_succ, ← add_assoc]
    congr 2
    · refine Finset.sum_congr rfl fun i member => ?_
      rw [List.take_append_of_le_length (Finset.mem_range.mp member)]
    · rw [List.take_of_length_le (by simp)]

/-- The instances whose metrics are not too old. -/
def recent (now : ℚ) (c : Config) : List File := (c.instance_metrics.getD []).filter fun f => !decide (f.mtime < c.expiry now)

theorem holds_files (files : List File) (holds : Holds now instances p s₀ s) :
    Holds now instances (p ++ files.filter fun f => !decide (f.mtime < c.expiry now)) s₀
      (files.foldl (oneInstance now durationToString c instances) s) := by
  induction files generalizing p s with
  | nil => rwa [List.filter_nil, List.append_nil]
  | cons f files ih =>
    by_cases old : f.mtime < c.expiry now
    · rw [List.filter_cons_of_neg (by simpa using old), List.foldl_cons, oneInstance, if_pos old]
      exact ih holds
    · rw [List.filter_cons_of_pos (by simpa using old), List.foldl_cons]
      have rest := ih (holds_step durationToString holds old)
      rwa [List.append_assoc] at rest

/-- The instances of a configuration, if metrics of any were read. -/
def instancesOf (c : Config) : ℕ := (c.instance_metrics.getD []).length

theorem config_holds (now : ℚ) (durationToString : ℚ → Str) (c : Config) (s₀ : Stats) :
    Holds now (instancesOf c) (recent now c) s₀ (oneConfig now durationToString c s₀) := by
  unfold oneConfig recent instancesOf
  cases c.instance_metrics with
  | none => exact holds_empty now _ s₀
  | some files => exact holds_files files (holds_empty now _ s₀)

end Runs

section Claim
variable (now : ℚ) (durationToString : ℚ → Str)

/-- The value of a metric in an instance, with what its brokers have. -/
def value (k : Metric) (f : File) : ℚ := flat f k + nested f k

/-- The metrics of a configuration are the sums, and the means, over its recent instances. -/
structure Right (c : Config) (m : Metrics) : Prop where
  sums : ∀ k ∈ counters, m.get k = ((recent now c).map (value k)).sum
  averages : ∀ k ∈ means, m.get k = ((recent now c).map (value k)).sum / (recent now c).length

/-- Each configuration is right, and each total is the sum of what the configurations have of it in the end. -/
structure Aggregated (configs : List Config) : Prop where
  each : List.Forall₂ (Right now) configs (_resolve now durationToString configs).1
  totals : ∀ t, (_resolve now durationToString configs).2.totals t =
    (((_resolve now durationToString configs).1).map fun m => m.increments t).sum

/-- What is added to a total for the recent instances of a configuration up to one that is not the last. -/
def again (c : Config) (t : Total) : ℚ :=
  ∑ i ∈ Finset.range ((recent now c).length - 1), own now (tally ((recent now c).take (i + 1))) t

/-- The brokers of the recent instances have nothing of what is added, and the averages are divided once. -/
structure Counted (c : Config) : Prop where
  nested : ∀ k ∈ counters, ((recent now c).map (nested · k)).sum = 0
  averages : ∀ k ∈ means, averaged (instancesOf c) ((recent now c).map (flat · k)) =
    ((recent now c).map (value k)).sum / (recent now c).length

variable {now durationToString} {c : Config} {s : Stats}

theorem right_iff {after : Metrics × Stats} (holds : Holds now (instancesOf c) (recent now c) s after) :
    Right now c after.1 ↔ Counted now c := by
  have sum {k : Metric} (member : k ∈ counters) : after.1.get k = ((recent now c).map (value k)).sum ↔
      ((recent now c).map (nested · k)).sum = 0 := by
    have counter : counters.all (· != .last_housekeeping) = true := by decide
    have other := bne_iff_ne.mp (List.all_eq_true.mp counter k member)
    have got := holds.counted k (List.mem_cons_of_mem _ member)
    rw [tally, if_neg other] at got
    have parts : ((recent now c).map (value k)).sum = ((recent now c).map (flat · k)).sum + ((recent now c).map (nested · k)).sum :=
      List.sum_map_add
    rw [got, parts, left_eq_add]
  constructor
  · intro right
    refine ⟨fun k member => (sum member).mp (right.sums k member), fun k member => ?_⟩
    rw [← right.averages k member, holds.averages k member]
  · intro counted
    refine ⟨fun k member => (sum member).mpr (counted.nested k member), fun k member => ?_⟩
    rw [← counted.averages k member, holds.averages k member]

/-- What is added for the last instance is what the configuration has in the end. -/
theorem totals_again (holds : Holds now (instancesOf c) (recent now c) s (oneConfig now durationToString c s)) (t : Total) :
    (oneConfig now durationToString c s).2.totals t =
      s.totals t + (again now c t + (oneConfig now durationToString c s).1.increments t) := by
  rw [holds.totals t, holds.now_, again]
  cases length : (recent now c).length with
  | zero =>
    rw [List.eq_nil_of_length_eq_zero length, own_nothing]
    simp
  | succ n =>
    have whole : (recent now c).take (n + 1) = recent now c := List.take_of_length_le length.le
    rw [Finset.sum_range_succ, whole, Nat.add_sub_cancel]

theorem resolve_iff (now : ℚ) (durationToString : ℚ → Str) (configs : List Config) (s : Stats) :
    (List.Forall₂ (Right now) configs (resolve now durationToString configs s).1 ↔ ∀ c ∈ configs, Counted now c) ∧
      ∀ t, (resolve now durationToString configs s).2.totals t = s.totals t + ((configs.map fun c => again now c t).sum +
        (((resolve now durationToString configs s).1).map fun m => m.increments t).sum) := by
  induction configs generalizing s with
  | nil => exact ⟨iff_of_true .nil nofun, fun t => by simp [resolve]⟩
  | cons c configs ih =>
    have holds := config_holds now durationToString c s
    obtain ⟨each, totals⟩ := ih (oneConfig now durationToString c s).2
    constructor
    · rw [resolve, List.forall₂_cons, each, right_iff holds, List.forall_mem_cons]
    · intro t
      rw [resolve]
      dsimp only
      rw [totals t, totals_again holds t, List.map_cons, List.map_cons, List.sum_cons, List.sum_cons]
      ring

theorem totals_iff (configs : List Config) (t : Total) : (_resolve now durationToString configs).2.totals t =
    (((_resolve now durationToString configs).1).map fun m => m.increments t).sum ↔ (configs.map fun c => again now c t).sum = 0 := by
  have none_ : emptyStats.totals t = 0 := rfl
  unfold _resolve
  rw [(resolve_iff _ _ configs emptyStats).2 t, none_, zero_add, add_eq_right]

/-- The metrics are aggregated as they should be if and only if each configuration is counted right, and what is added again
comes to nothing. -/
theorem aggregated_iff (now : ℚ) (durationToString : ℚ → Str) (configs : List Config) : Aggregated now durationToString configs ↔
    (∀ c ∈ configs, Counted now c) ∧ ∀ t, (configs.map fun c => again now c t).sum = 0 := by
  have each := (resolve_iff now durationToString configs emptyStats).1
  constructor
  · intro aggregated
    exact ⟨each.mp aggregated.each, fun t => (totals_iff configs t).mp (aggregated.totals t)⟩
  · rintro ⟨counted, none_⟩
    exact ⟨each.mpr counted, fun t => (totals_iff configs t).mpr (none_ t)⟩

/-- With one instance, and nothing at its brokers, everything looks right. -/
theorem single_counted (single : instancesOf c ≤ 1) (plain : ∀ f ∈ recent now c, ∀ k ∈ counters ++ means, nested f k = 0) :
    Counted now c ∧ ∀ t, again now c t = 0 := by
  have few : (recent now c).length ≤ instancesOf c := List.length_filter_le _ _
  have none_ {k : Metric} (member : k ∈ counters ++ means) : (recent now c).map (nested · k) = (recent now c).map fun _ => 0 :=
    List.map_congr_left fun f there => plain f there k member
  refine ⟨⟨fun k member => ?_, fun k member => ?_⟩, fun t => ?_⟩
  · rw [none_ (List.mem_append_left _ member)]
    simp
  · have beside := fun f there => plain f there k (List.mem_append_right _ member)
    match files : recent now c with
    | [] => simp [averaged]
    | [f] =>
      rw [files] at few beside
      have one : instancesOf c = 1 := Nat.le_antisymm single few
      simp [averaged, value, one, beside f List.mem_cons_self]
    | f :: g :: rest =>
      rw [files] at few
      simp only [List.length_cons] at few
      omega
  · have last : (recent now c).length - 1 = 0 := by omega
    rw [again, last]
    rfl

/-- An instance with one message to be retried. -/
def waiting : File := ⟨0, [⟨"retry".toList, [.number .msgs_in_download_retry 1]⟩]⟩

def twoInstances : Config := ⟨none, some [waiting, waiting]⟩

/-- Of two messages to be retried, three are reported. -/
theorem three_retries : ¬ ∀ (now : ℚ) (durationToString : ℚ → Str) (configs : List Config), Aggregated now durationToString configs := by
  intro aggregated
  have total := (totals_iff [twoInstances] .rxMessageRetry).mp ((aggregated 0 (fun _ => []) [twoInstances]).totals .rxMessageRetry)
  exact absurd total (by decide +kernel)

example : (_resolve 0 (fun _ => []) [twoInstances]).2.totals .rxMessageRetry = 3 := by decide +kernel

end Claim
end Sarracenia.Guarantees.Aggregation
