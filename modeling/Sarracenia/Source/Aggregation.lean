import Mathlib.Algebra.BigOperators.Pi
import Mathlib.Algebra.Order.Floor.Ring
import Mathlib.Data.Rat.Floor
import Sarracenia.Library.Text

/-!
# Metrics of configurations (`sr_GlobalState._resolve` of `sarracenia/sr.py`)

From the metrics files of the instances, as they were read. Arithmetic is exact, a flag that is counted is 1, and a time is
what `timestr2flt` makes of it. A name that is not looked for is left out, and so is a configuration without state; a time
base of 0 gives rates of 0.
-/
namespace Sarracenia.Source.Aggregation
open Library.Text

/-! ## The files -/

/-- The numbers among the metrics. -/
inductive Metric where
  | byteConnectPercent | byteRate | byteTotal | connectPercent | messageLast | msgRate | msgRateCpu | retry | time_base
  | transferLast | brokerQueuedMessageCount | cpuTime | disconnectTime | lagMax | lagMean | lagMessageCount | lagTotal
  | last_housekeeping | messagesQueued | msgs_in_download_retry | msgs_in_post_retry | rejectCount | rejectPercent | rxBadCount
  | rxByteCount | rxGoodCount | rxLast | transferConnectTime | transferRxByteRate | transferRxBytes | transferRxFileRate
  | transferRxFiles | transferTxByteRate | transferTxBytes | transferTxFileRate | transferTxFiles | txBadCount | txByteCount
  | txGoodCount | txLast
  deriving DecidableEq

/-- What stands in a section under a name; under that of a broker, there are metrics again. -/
inductive Entry where
  | number (k : Metric) (newval : ℚ)
  | connected (newval : Bool)
  | transferConnected (newval : Bool)
  | transferRxLast (newval : ℚ)
  | transferTxLast (newval : ℚ)
  | broker (name : Str) (values : List (Metric × ℚ))

structure Section where
  name : Str
  entries : List Entry

structure File where
  mtime : ℚ
  sections : List Section

structure Config where
  housekeeping : Option ℚ
  instance_metrics : Option (List File)

/-! ## The metrics -/

structure Metrics where
  numbers : Metric → Option ℚ
  connected : Bool
  transferConnected : Bool
  latestTransfer : Option Str

def empty_metrics : Metrics where
  numbers k := if k ∈ [.transferRxFileRate, .transferTxFileRate] then none else some 0
  connected := true
  transferConnected := true
  latestTransfer := none

def Metrics.get (m : Metrics) (k : Metric) : ℚ := (m.numbers k).getD 0

def Metrics.set (m : Metrics) (k : Metric) (q : ℚ) : Metrics := { m with numbers := Function.update m.numbers k (some q) }

/-- A later time is kept. -/
def Metrics.later (m : Metrics) (k : Metric) (newval : ℚ) : Metrics := if newval > m.get k then m.set k newval else m

/-- A number, where its name is in `metrics`. -/
def Metrics.number (m : Metrics) (k : Metric) (newval : ℚ) : Metrics :=
  if (m.numbers k).isSome then
    match k with
    | .lagMax => m.later .lagMax newval
    | .last_housekeeping => if m.get .last_housekeeping = 0 ∨ newval < m.get .last_housekeeping then m.set .last_housekeeping newval else m
    | k => m.set k (m.get k + newval)
  else m

/-- Of a broker only the times are looked at. -/
def Metrics.brokerValue (m : Metrics) : Metric × ℚ → Metrics
  | (.rxLast, newval) => (m.later .rxLast newval).later .messageLast newval
  | (.txLast, newval) => (m.later .txLast newval).later .messageLast newval
  | _ => m

def Metrics.entry (section_ : Str) (m : Metrics) : Entry → Metrics
  | .number k newval => m.number k newval
  | .connected newval => { m with connected := m.connected && newval }
  | .transferConnected newval => { m with transferConnected := m.transferConnected && newval }
  | .transferRxLast newval | .transferTxLast newval => m.later .transferLast newval
  | .broker _ values =>
    if section_ ∈ ["post.message".toList, "gather.message".toList] then values.foldl Metrics.brokerValue m else m

/-- The metrics of one instance are added. -/
def Metrics.file (m : Metrics) (f : File) : Metrics := f.sections.foldl (fun m s => s.entries.foldl (Metrics.entry s.name) m) m

/-! ## The totals -/

/-- Some are computed again. -/
def Metrics.recompute (m : Metrics) (new : Metric → Option ℚ) : Metrics :=
  { m with numbers := fun k => (new k).or (m.numbers k) }

/-- `int` -/
def int (q : ℚ) : ℤ := if q < 0 then ⌈q⌉ else ⌊q⌋

section Derived
variable (now : ℚ) (durationToString : ℚ → Str) (instances : ℕ)

def averages (m : Metrics) : Metric → Option ℚ
  | .transferConnectTime => some (m.get .transferConnectTime / instances)
  | .disconnectTime => some (m.get .disconnectTime / instances)
  | _ => none

def queued (m : Metrics) : Metric → Option ℚ
  | .lagMean => some (if m.get .lagMessageCount > 0 then m.get .lagTotal / m.get .lagMessageCount else 0)
  | .retry => some (m.get .msgs_in_download_retry + m.get .msgs_in_post_retry)
  | .messagesQueued => some (m.get .brokerQueuedMessageCount)
  | _ => none

def latest (m : Metrics) : Str :=
  if m.get .transferLast > 0 then durationToString (now - m.get .transferLast)
  else if m.get .messageLast > 0 then durationToString (now - m.get .messageLast)
  else "n/a".toList

def rates (m : Metrics) : Metric → Option ℚ :=
  let time_base := now - m.get .last_housekeeping
  let messages := m.get .rxGoodCount + m.get .rxBadCount
  fun
  | .time_base => some time_base
  | .byteRate => some ((m.get .rxByteCount + m.get .txByteCount) / time_base)
  | .msgRate => some (messages / time_base)
  | .msgRateCpu => some (if m.get .cpuTime > 0 then messages / m.get .cpuTime else 0)
  | .transferRxByteRate => some (m.get .transferRxBytes / time_base)
  | .transferRxFileRate => some (m.get .transferRxFiles / time_base)
  | .transferTxByteRate => some (m.get .transferTxBytes / time_base)
  | .transferTxFileRate => some (m.get .transferTxFiles / time_base)
  | .byteConnectPercent => some (int (100 * m.get .transferConnectTime / time_base))
  | .connectPercent => some (int (100 * (time_base - m.get .disconnectTime) / time_base))
  | _ => none

def rejects (m : Metrics) : Metric → Option ℚ
  | .rejectPercent =>
    some (if m.get .rxGoodCount > 0 then
      min 100 ((m.get .rejectCount + m.get .rxBadCount) / (m.get .rxGoodCount + m.get .rxBadCount) * 100) else 0)
  | _ => none

/-- There is a time base. -/
def Metrics.timed (m : Metrics) : Bool := decide (m.get .last_housekeeping > 0)

/-- What is computed after the metrics of an instance. -/
def Metrics.derive (m : Metrics) : Metrics :=
  let m := m.recompute (averages instances m)
  let m := m.recompute (queued m)
  let m := { m with latestTransfer := some (latest now durationToString m) }
  let m := if m.timed then m.recompute (rates now m) else m
  m.recompute (rejects m)

end Derived

/-- The totals of `cumulative_stats`. -/
inductive Total where
  | rxLagTime | rxLagCount | rxMessageQueued | rxMessageRetry | rxMessageRate | rxMessageRateCpu | rxDataRate | rxFileRate
  | rxMessageByteRate | txMessageRate | txDataRate | txFileRate | txMessageByteRate
  deriving DecidableEq

structure Stats where
  totals : Total → ℚ
  latestTransferWidth : ℕ

/-- What is added for the metrics as they are. -/
def Metrics.increments (m : Metrics) : Total → ℚ
  | .rxLagTime => if m.get .lagMessageCount > 0 then m.get .lagTotal else 0
  | .rxLagCount => if m.get .lagMessageCount > 0 then m.get .lagMessageCount else 0
  | .rxMessageQueued => m.get .messagesQueued
  | .rxMessageRetry => m.get .retry
  | .rxMessageRate => if m.timed then m.get .msgRate else 0
  | .rxMessageRateCpu => if m.timed then m.get .msgRateCpu else 0
  | .rxDataRate => if m.timed then m.get .transferRxByteRate else 0
  | .rxFileRate => if m.timed then m.get .transferRxFileRate else 0
  | .rxMessageByteRate => if m.timed then m.get .byteRate else 0
  | .txMessageRate => if m.timed then (m.get .txGoodCount + m.get .txBadCount) / m.get .time_base else 0
  | .txDataRate => if m.timed then m.get .transferTxByteRate else 0
  | .txFileRate => if m.timed then m.get .transferTxFileRate else 0
  | .txMessageByteRate => if m.timed then m.get .txByteCount / m.get .time_base else 0

def Stats.add (s : Stats) (m : Metrics) : Stats where
  totals := s.totals + m.increments
  latestTransferWidth := max s.latestTransferWidth ((m.latestTransfer.getD []).length)

section Resolve
variable (now : ℚ) (durationToString : ℚ → Str)

def Config.expiry (c : Config) : ℚ := now - c.housekeeping.elim 300 (· * (3 / 2))

/-- One instance: added, and then all that is computed for the configuration, unless its metrics are too old. -/
def oneInstance (c : Config) (instances : ℕ) (s : Metrics × Stats) (f : File) : Metrics × Stats :=
  if f.mtime < c.expiry now then s
  else
    let m := (s.1.file f).derive now durationToString instances
    (m, s.2.add m)

def oneConfig (c : Config) (s : Stats) : Metrics × Stats :=
  match c.instance_metrics with
  | none => (empty_metrics, s)
  | some instance_metrics =>
    instance_metrics.foldl (oneInstance now durationToString c instance_metrics.length) (empty_metrics, s)

def emptyStats : Stats := ⟨0, 4⟩

/-- The metrics of each configuration, and the totals. -/
def resolve : List Config → Stats → List Metrics × Stats
  | [], s => ([], s)
  | c :: configs, s =>
    let one := oneConfig now durationToString c s
    let rest := resolve configs one.2
    (one.1 :: rest.1, rest.2)

/-- `_resolve`, as to metrics. -/
def _resolve (configs : List Config) : List Metrics × Stats := resolve now durationToString configs emptyStats

end Resolve
end Sarracenia.Source.Aggregation
