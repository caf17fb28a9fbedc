import Mathlib.Algebra.Order.Ring.Rat

/-!
# Metrics of a connection (`moth/__init__.py`)

The clock is read where a method reads it, and gives a rational number.
-/
namespace Sarracenia.Source.MothMetrics

structure Metrics where
  connected : Bool
  disconnectLast : ℚ
  disconnectTime : ℚ
  disconnectCount : Nat
  rxByteCount : Nat
  rxGoodCount : Nat
  rxBadCount : Nat
  txByteCount : Nat
  txGoodCount : Nat
  txBadCount : Nat

section Methods
variable (now : ℚ) (metrics : Metrics)

def metricsReset : Metrics where
  connected := metrics.connected
  disconnectLast := 0
  disconnectTime := 0
  disconnectCount := 0
  rxByteCount := 0
  rxGoodCount := 0
  rxBadCount := 0
  txByteCount := 0
  txGoodCount := 0
  txBadCount := 0

/-- The metrics afterwards are also what is returned. -/
def metricsReport : Metrics :=
  if !metrics.connected ∧ metrics.disconnectLast > 0 then
    let down_time := now - metrics.disconnectLast
    { metrics with disconnectTime := metrics.disconnectTime + down_time }
  else metrics

def metricsConnect : Metrics :=
  let metrics := { metrics with connected := true }
  if metrics.disconnectLast > 0 then
    let down_time := now - metrics.disconnectLast
    { metrics with disconnectTime := metrics.disconnectTime + down_time }
  else metrics

def metricsDisconnect : Metrics :=
  { metrics with connected := false, disconnectCount := metrics.disconnectCount + 1, disconnectLast := now }

end Methods

inductive Call where
  | metricsConnect | metricsDisconnect | metricsReport | metricsReset
  deriving DecidableEq

def Metrics.call (metrics : Metrics) (c : Call) (now : ℚ) : Metrics :=
  match c with
  | .metricsConnect => metricsConnect now metrics
  | .metricsDisconnect => metricsDisconnect now metrics
  | .metricsReport => metricsReport now metrics
  | .metricsReset => metricsReset metrics

/-- What `Moth.__init__` sets: the counters are set by the reset. -/
def Metrics.init : Metrics := metricsReset ⟨false, 0, 0, 0, 0, 0, 0, 0, 0, 0⟩

/-- Calls, each at its time. -/
def Metrics.calls (calls : List (Call × ℚ)) : Metrics := calls.foldl (fun metrics c => metrics.call c.1 c.2) Metrics.init

end Sarracenia.Source.MothMetrics
