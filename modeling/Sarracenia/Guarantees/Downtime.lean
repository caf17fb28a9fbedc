import Sarracenia.Source.MothMetrics
import Mathlib.Data.List.Induction
import Mathlib.Tactic.Linarith

/-!
# Whether the time without a connection is reported

What is reported is compared with the time that the connection was down. An outage is counted from the last disconnect: again at
each later report, and at each connect of a connection that is up; not at all before there is one.
-/
namespace Sarracenia.Guarantees.Downtime
open Source.MothMetrics

/-! ## The time that a connection was down -/

/-- A connection that is up or down, and for how long it was down since the last reset, up to some time. -/
structure Outage where
  down : Bool
  total : ℚ
  clock : ℚ

def Outage.pass (o : Outage) (now : ℚ) : Outage :=
  { o with total := o.total + if o.down then now - o.clock else 0, clock := now }

def Outage.meet (o : Outage) (c : Call) : Outage :=
  match c with
  | .metricsConnect => { o with down := false }
  | .metricsDisconnect => { o with down := true }
  | .metricsReport => o
  | .metricsReset => { o with total := 0 }

/-- From when it was made: it is not connected yet. -/
def Outage.calls (made : ℚ) (calls : List (Call × ℚ)) : Outage := calls.foldl (fun o c => (o.pass c.2).meet c.1) ⟨true, 0, made⟩

/-- Each report has the time that the connection was down since the last reset. -/
def Accounted (made : ℚ) (calls : List (Call × ℚ)) : Prop :=
  ∀ before now after, calls = before ++ (.metricsReport, now) :: after →
    (metricsReport now (Metrics.calls before)).disconnectTime = ((Outage.calls made before).pass now).total

/-! ## What is counted again, and what is lost -/

/-- Where the present outage is counted from, and the time since the last reset that is counted again and that is lost. -/
structure Tally where
  down : Bool
  left : Option ℚ
  clock : ℚ
  again : ℚ
  lost : ℚ

/-- An outage that is not counted from anywhere is lost. -/
def Tally.pass (y : Tally) (now : ℚ) : Tally :=
  { y with lost := y.lost + (if y.down ∧ y.left = none then now - y.clock else 0), clock := now }

/-- How long it is since the disconnect that is counted from. -/
def Tally.since (y : Tally) : ℚ := y.left.elim 0 (y.clock - ·)

def Tally.meet (y : Tally) (c : Call) : Tally :=
  match c with
  | .metricsConnect => { y with down := false, again := y.again + if y.down then 0 else y.since }
  | .metricsDisconnect =>
    -- no time of the clock that is not positive is taken for one
    { y with down := true, left := if y.clock > 0 then some y.clock else none, lost := y.lost + if y.down then y.since else 0 }
  | .metricsReport => { y with again := y.again + if y.down then y.since else 0 }
  | .metricsReset => { y with left := none, again := 0, lost := 0 }

def Tally.calls (made : ℚ) (calls : List (Call × ℚ)) : Tally := calls.foldl (fun y c => (y.pass c.2).meet c.1) ⟨true, none, made, 0, 0⟩

section Runs
variable {metrics : Metrics} {o : Outage} {y : Tally} {made now : ℚ} {calls : List (Call × ℚ)}

/-- What the metrics, the outage and the tally have to do with each other. -/
structure Agree (metrics : Metrics) (o : Outage) (y : Tally) : Prop where
  down : y.down = o.down
  connected : metrics.connected = !y.down
  clock : y.clock = o.clock
  left : y.left = if metrics.disconnectLast > 0 then some metrics.disconnectLast else none
  time : metrics.disconnectTime + (if y.down then y.since else 0) = o.total + y.again - y.lost

theorem agree_init (made : ℚ) : Agree Metrics.init ⟨true, 0, made⟩ ⟨true, none, made, 0, 0⟩ :=
  ⟨rfl, rfl, rfl, rfl, by simp [Metrics.init, metricsReset, Tally.since]⟩

theorem Agree.since (agree : Agree metrics o y) :
    y.since = if metrics.disconnectLast > 0 then y.clock - metrics.disconnectLast else 0 := by
  unfold Tally.since
  rw [agree.left]
  split <;> rfl

theorem connect_time (agree : Agree metrics o y) :
    (metricsConnect y.clock metrics).disconnectTime = metrics.disconnectTime + y.since := by
  rw [agree.since]
  unfold metricsConnect
  dsimp only
  split
  · rfl
  · exact (add_zero _).symm

theorem report_time (agree : Agree metrics o y) :
    (metricsReport y.clock metrics).disconnectTime = metrics.disconnectTime + if y.down then y.since else 0 := by
  rw [agree.since]
  unfold metricsReport
  rw [agree.connected, Bool.not_not]
  cases y.down with
  | false =>
    rw [if_neg fun both => Bool.false_ne_true both.1, if_neg Bool.false_ne_true, add_zero]
  | true =>
    rw [if_pos rfl]
    by_cases counted : metrics.disconnectLast > 0
    · rw [if_pos ⟨rfl, counted⟩, if_pos counted]
    · rw [if_neg fun both => counted both.2, if_neg counted, add_zero]

/-- A report is right exactly where as much is counted again as is lost. -/
theorem report_iff (agree : Agree metrics o y) :
    (metricsReport y.clock metrics).disconnectTime = o.total ↔ y.again = y.lost := by
  rw [report_time agree, agree.time]
  constructor
  · intro same
    linarith
  · intro same
    linarith

theorem agree_pass (agree : Agree metrics o y) (now : ℚ) : Agree metrics (o.pass now) (y.pass now) := by
  refine ⟨agree.down, agree.connected, rfl, agree.left, ?_⟩
  have time := agree.time
  have later : (y.pass now).since = y.left.elim 0 (now - ·) := rfl
  have total : (o.pass now).total = o.total + if y.down then now - y.clock else 0 := by
    rw [agree.down, agree.clock]
    rfl
  have lost : (y.pass now).lost = y.lost + if y.down ∧ y.left = none then now - y.clock else 0 := rfl
  have again : (y.pass now).again = y.again := rfl
  have down : (y.pass now).down = y.down := rfl
  rw [later, total, lost, again, down]
  unfold Tally.since at time
  cases is : y.down with
  | false =>
    rw [is] at time
    simpa using time
  | true =>
    rw [is] at time
    cases from_ : y.left with
    | none =>
      rw [from_] at time
      simp only [if_true, Option.elim_none, and_self] at time ⊢
      linarith
    | some L =>
      rw [from_] at time
      simp only [if_true, Option.elim_some, reduceCtorEq, and_false, if_false] at time ⊢
      linarith

theorem connect_frame (now : ℚ) (metrics : Metrics) :
    (metricsConnect now metrics).connected = true ∧ (metricsConnect now metrics).disconnectLast = metrics.disconnectLast := by
  unfold metricsConnect
  dsimp only
  split
  · exact ⟨rfl, rfl⟩
  · exact ⟨rfl, rfl⟩

theorem report_frame (now : ℚ) (metrics : Metrics) :
    (metricsReport now metrics).connected = metrics.connected ∧ (metricsReport now metrics).disconnectLast = metrics.disconnectLast := by
  unfold metricsReport
  split
  · exact ⟨rfl, rfl⟩
  · exact ⟨rfl, rfl⟩

theorem agree_meet (agree : Agree metrics o y) (c : Call) : Agree (metrics.call c y.clock) (o.meet c) (y.meet c) := by
  have time := agree.time
  cases c with
  | metricsConnect =>
    obtain ⟨up, last⟩ := connect_frame y.clock metrics
    refine ⟨rfl, up, agree.clock, ?_, ?_⟩
    · exact agree.left.trans (by rw [← last]; rfl)
    · have later : (metrics.call .metricsConnect y.clock).disconnectTime = metrics.disconnectTime + y.since := connect_time agree
      rw [later]
      change metrics.disconnectTime + y.since + 0 = o.total + (y.again + if y.down then 0 else y.since) - y.lost
      cases is : y.down with
      | false =>
        rw [is, if_neg Bool.false_ne_true] at time
        rw [if_neg Bool.false_ne_true]
        linarith
      | true =>
        rw [is, if_pos rfl] at time
        rw [if_pos rfl]
        linarith
  | metricsDisconnect =>
    refine ⟨rfl, rfl, agree.clock, rfl, ?_⟩
    have since : (y.meet .metricsDisconnect).since = 0 := by
      change (if y.clock > 0 then some y.clock else none).elim 0 (y.clock - ·) = 0
      split
      · exact sub_self _
      · rfl
    change metrics.disconnectTime + (y.meet .metricsDisconnect).since = o.total + y.again - (y.lost + if y.down then y.since else 0)
    rw [since]
    linarith
  | metricsReport =>
    obtain ⟨connected, last⟩ := report_frame y.clock metrics
    refine ⟨agree.down, connected.trans agree.connected, agree.clock, ?_, ?_⟩
    · exact agree.left.trans (by rw [← last]; rfl)
    · have later : (metrics.call .metricsReport y.clock).disconnectTime = metrics.disconnectTime + if y.down then y.since else 0 :=
        report_time agree
      rw [later]
      change metrics.disconnectTime + (if y.down then y.since else 0) + (if y.down then y.since else 0) =
        o.total + (y.again + if y.down then y.since else 0) - y.lost
      linarith
  | metricsReset =>
    refine ⟨agree.down, agree.connected, agree.clock, rfl, ?_⟩
    change (0 : ℚ) + (if y.down then 0 else 0) = 0 + 0 - 0
    rw [ite_self]
    exact (sub_zero _).symm

theorem agree_calls (made : ℚ) (calls : List (Call × ℚ)) :
    Agree (Metrics.calls calls) (Outage.calls made calls) (Tally.calls made calls) := by
  induction calls using List.reverseRecOn with
  | nil => exact agree_init made
  | append_singleton calls c ih =>
    unfold Metrics.calls Outage.calls Tally.calls
    rw [List.foldl_append, List.foldl_append, List.foldl_append]
    exact agree_meet (agree_pass ih c.2) c.1

end Runs

/-- The reports have the time that the connection was down exactly where, at each of them, as much is counted again as is lost: again
since a disconnect at each report before in the same outage, and at each connect of a connection that is up; lost before the first
disconnect, after a reset in an outage, and up to a disconnect of a connection that is down. -/
theorem accounted_iff (made : ℚ) (calls : List (Call × ℚ)) : Accounted made calls ↔
    ∀ before now after, calls = before ++ (.metricsReport, now) :: after →
      ((Tally.calls made before).pass now).again = ((Tally.calls made before).pass now).lost := by
  have each (before : List (Call × ℚ)) (now : ℚ) :
      (metricsReport now (Metrics.calls before)).disconnectTime = ((Outage.calls made before).pass now).total ↔
        ((Tally.calls made before).pass now).again = ((Tally.calls made before).pass now).lost :=
    report_iff (agree_pass (agree_calls made before) now)
  constructor
  · intro accounted before now after is
    exact (each before now).mp (accounted before now after is)
  · intro tallied before now after is
    exact (each before now).mpr (tallied before now after is)

/-- Connected at once, lost at 10, and reported at 20 and at 30. -/
def twoReports : List (Call × ℚ) := [(.metricsConnect, 1), (.metricsDisconnect, 10), (.metricsReport, 20), (.metricsReport, 30)]

/-- The second report counts the time before the first again. -/
theorem outage_counted_again : ¬ ∀ (made : ℚ) (calls : List (Call × ℚ)), (made :: calls.map (·.2)).Pairwise (· ≤ ·) → Accounted made calls := by
  intro all
  have reported := all 1 twoReports (by norm_num [twoReports]) (twoReports.take 3) 30 [] rfl
  norm_num [twoReports, Metrics.calls, Metrics.call, Metrics.init, metricsReset, metricsConnect, metricsDisconnect, metricsReport, Outage.calls,
    Outage.pass, Outage.meet] at reported

end Sarracenia.Guarantees.Downtime
