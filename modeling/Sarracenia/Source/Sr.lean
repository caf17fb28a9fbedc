import Mathlib.Algebra.Order.Field.Rat
import Sarracenia.Library.Table
import Sarracenia.Library.Text

/-!
# What `sr3` reads of the flows (`sarracenia/sr.py`)

The processes, the configurations and the state directories, as an `sr_GlobalState` has them in
`procs`, `configs` and `states`. The accumulated metrics of a flow are taken as any function of the
metrics of its instances.
-/
namespace Sarracenia.Source.Sr
open Library Library.Text

/-- `self.components`. -/
inductive Component where
  | cpost | cpump | flow | poll | post | report | sarra | sender | shovel | subscribe | watch | winnow
  deriving DecidableEq, Repr

def components : List Component :=
  [.cpost, .cpump, .flow, .poll, .post, .report, .sarra, .sender, .shovel, .subscribe, .watch, .winnow]

def Component.name : Component → Str
  | .cpost => "cpost".toList
  | .cpump => "cpump".toList
  | .flow => "flow".toList
  | .poll => "poll".toList
  | .post => "post".toList
  | .report => "report".toList
  | .sarra => "sarra".toList
  | .sender => "sender".toList
  | .shovel => "shovel".toList
  | .subscribe => "subscribe".toList
  | .watch => "watch".toList
  | .winnow => "winnow".toList

/-- A configuration of a component, `c/cfg`. -/
structure Flow where
  c : Component
  cfg : Str
  deriving DecidableEq, Repr

/-- `status_values`. -/
inductive Status where
  | cpuSlow | disconnected | down | hung | idle | lagging | partial_ | reject | retry | running | slow
  | standby | starting | shutdown | waitVip | resources_restart
  | disabled | interactive | missing | new | stopped | unknown
  deriving DecidableEq, Repr

def status_active : List Status :=
  [.cpuSlow, .disconnected, .down, .hung, .idle, .lagging, .partial_, .reject, .retry, .running, .slow,
    .standby, .starting, .shutdown, .waitVip, .resources_restart]

/-- What the options of a configuration say to `sr3`. A `download` that is not set is false. -/
structure Options where
  statehost : Bool
  sleep : ℚ
  path : Bool
  instances : Nat
  download : Bool
  publishers : Nat
  attempts : Nat
  runStateThreshold_hung : ℚ
  runStateThreshold_disconnected : ℚ
  runStateThreshold_slow : ℚ
  runStateThreshold_retry : ℚ
  runStateThreshold_lag : ℚ
  runStateThreshold_reject : ℚ
  runStateThreshold_idle : ℚ
  runStateThreshold_cpuSlow : ℚ

/-- `_post_can_be_daemon`. -/
def post_can_be_daemon (f : Flow) (o : Options) : Bool :=
  f.c ∈ [.post, .cpost] && (1 / 10 : ℚ) < o.sleep && o.path

/-- A post that only runs when it is called. -/
def interactive (f : Flow) (o : Options) : Bool := f.c ∈ [.post, .cpost] && !post_can_be_daemon f o

/-- `self.configs[c][cfg]['instances']`; a `sleep` that is a number is neither `'-'` nor `'0'`. -/
def instances (f : Flow) (o : Options) : Nat := if f.c ∈ [.poll, .post, .cpost] then 1 else o.instances

/-! ## The processes -/

section Processes

/-- What `psutil` says of a process. -/
structure Psutil where
  pid : Nat
  cmdline : List Str
  name : Str
  username : Str
  create_time : ℚ

/-- An entry of `self.procs`. -/
structure Proc where
  cmdline : List Str
  name : Str
  create_time : ℚ
  claimed : Bool

abbrev Procs := Table Nat Proc

def sr3_tools_entry_points : List Str :=
  ["sr3_action_convert".toList, "sr3_action_remove".toList, "sr3_commit".toList, "sr3_pull".toList,
    "sr3_push".toList, "sr3_remove".toList, "sr3_scp".toList, "sr3_ssh".toList, "sr3_utils".toList,
    "sr3d".toList, "sr3l".toList, "sr3r".toList]

/-- The last `n` characters, `s[-n:]`. -/
def lastChars (n : Nat) (s : Str) : Str := s.drop (s.length - n)

/-- The name of a process; one that python runs has the name of its script. -/
def proc_name (p : Psutil) : Option Str :=
  if occurs "python".toList p.name then
    match p.cmdline with
    | _ :: script :: rest =>
      let n := lastPiece ['/'] script
      some (if n = "instance.py".toList then
        "sr3_".toList ++ (split ['/'] ((script :: rest).getLast?.getD [])).head?.getD [] ++ ".py".toList
      else n)
    | _ => none
  else some p.name

/-- The words of a command line that make it no stray. -/
def claimedWords : List Str :=
  ["declare".toList, "edit".toList, "foreground".toList, "sanity".toList, "setup".toList, "status".toList]

/-- `_filter_sr_proc`, on another system than windows. -/
def filter_sr_proc (me : Str) (p : Psutil) : Option Proc :=
  if me ≠ p.username then none
  else if p.cmdline = [] then none
  else match proc_name p with
    | none => none
    | some name =>
      if name.take 2 ≠ "sr".toList then none
      else if sr3_tools_entry_points.any (·.isPrefixOf name) then none
      else if "sr3_".toList.isPrefixOf name then
        some ⟨p.cmdline, name, p.create_time,
          lastChars 4 name = "post".toList || claimedWords.any (· ∈ p.cmdline)⟩
      else none

/-- `_read_procs`. -/
def read_procs (me : Str) (table : List Psutil) : Procs :=
  table.foldl (fun procs p => (filter_sr_proc me p).elim procs (procs.set p.pid)) Table.empty

/-- A process of the table. -/
def alive (procs : Procs) (pid : Nat) : Bool := (procs.get pid).isSome

end Processes

/-! ## The state directories -/

section StateDirectories

inductive Marker where
  | disabled | starting | shutdown | running | resources_restart
  deriving DecidableEq, Repr

/-- A state directory: its markers, the pid files by the number of their instance, one for each as
`get_pid_filename` names them, with the pid a file holds if its text is one (`isdigit`), the texts of the
`.noVip` files, and the names of the rest. -/
structure StateDir where
  markers : Marker → Bool
  pids : Table Nat (Option Nat)
  noVip : List Str
  others : List Str

def StateDir.empty : StateDir := ⟨fun _ => false, Table.empty, [], []⟩

def markerFiles : List Marker := [.disabled, .starting, .shutdown, .running, .resources_restart]

/-- `len(os.listdir()) == 0`. -/
def StateDir.bare (d : StateDir) : Bool :=
  !markerFiles.any d.markers && d.pids.entries.isEmpty && d.noVip.isEmpty && d.others.isEmpty

/-- `self.states[c][cfg]['instance_pids']`. -/
def instance_pids (d : StateDir) : Table Nat Nat :=
  d.pids.entries.foldl (fun pids file => file.2.elim pids (pids.set file.1)) Table.empty

/-- `self.states[c][cfg]['noVip']`: the last text there is. -/
def noVip (d : StateDir) : Bool := d.noVip.any (· ≠ [])

/-- The status that `_read_state_dir` gives a configuration. -/
def read_status (f : Flow) (o : Options) : Option StateDir → Status
  | none => if interactive f o then .interactive else .new
  | some d => if d.bare then .new else if interactive f o then .interactive else .stopped

/-- The entry of a flow in `self.flux`. -/
def fluxOf (d : StateDir) : Option Marker :=
  if d.markers .starting then some .starting
  else if d.markers .shutdown then some .shutdown
  else if d.markers .resources_restart then some .resources_restart
  else none

end StateDirectories

/-! ## The status of a flow -/

section Resolve

structure Metrics where
  retry : ℚ
  messagesQueued : ℚ
  transferConnected : Bool
  connectPercent : ℚ
  connected : Bool
  byteConnectPercent : ℚ
  byteRate : ℚ
  lagMean : ℚ
  rejectPercent : ℚ
  txLast : ℚ
  transferLast : ℚ
  rxLast : ℚ
  msgRate : ℚ
  msgRateCpu : ℚ

def empty_metrics : Metrics := ⟨0, 0, true, 0, true, 0, 0, 0, 0, 0, 0, 0, 0, 0⟩

/-- The metrics of one instance, and the time of their file. -/
structure Instance (μ : Type) where
  metrics : μ
  mtime : ℚ

/-- What is read of a flow beside its state directory. -/
structure Records (μ : Type) where
  instance_metrics : Option (Table Nat (Instance μ))
  logAge : Table Nat ℚ

/-- The metrics of the instances that are not older than five minutes, put together. -/
def metrics {μ : Type} (accumulate : ℚ → Nat → List μ → Metrics) (now : ℚ) (r : Records μ) : Metrics :=
  match r.instance_metrics with
  | none => empty_metrics
  | some t => accumulate now t.entries.length
      ((t.entries.filter fun e => !decide (e.2.mtime < now - 300)).map (·.2.metrics))

variable (f : Flow) (o : Options)

/-- The status the markers give, each over those before it. -/
def marked (d : StateDir) (status : Status) : Status :=
  let status := if d.markers .disabled then .disabled else status
  let status := if interactive f o then .interactive else status
  let status := if d.markers .starting then .starting else status
  let status := if d.markers .resources_restart then .resources_restart else status
  let status := if d.markers .shutdown then .shutdown else status
  if d.markers .running then .running else status

/-- The instances whose processes are there. -/
def observed (procs : Procs) (pids : Table Nat Nat) : List (Nat × Nat) := pids.entries.filter fun e => alive procs e.2

/-- Both the metrics and the log of an instance are old. -/
def isHung {μ : Type} (now : ℚ) (r : Records μ) (i : Nat) : Bool :=
  match r.logAge.get i, r.instance_metrics.bind (·.get i) with
  | some age, some m => o.runStateThreshold_hung < now - m.mtime && o.runStateThreshold_hung < age
  | _, _ => false

def hung_instances {μ : Type} (now : ℚ) (procs : Procs) (r : Records μ) (pids : Table Nat Nat) : List Nat :=
  ((observed procs pids).filter fun e => isHung o now r e.1).map (·.1)

/-- What the metrics say of the connections. -/
def connection (m : Metrics) (flow_status : Status) : Status :=
  if o.download && decide (0 < m.retry + m.messagesQueued) then
    if !m.transferConnected then .down
    else if m.connectPercent < o.runStateThreshold_disconnected / 100 then .disconnected
    else flow_status
  else if !m.connected then .disconnected
  else if 0 < m.byteConnectPercent ∧ m.byteConnectPercent < o.runStateThreshold_disconnected / 100 then .down
  else flow_status

/-- The status of a flow that has its instances. -/
def performance (now : ℚ) (m : Metrics) (noVip : Bool) (flow_status : Status) : Status :=
  if noVip then .waitVip
  else if m.byteRate < o.runStateThreshold_slow then .slow
  else if o.runStateThreshold_retry < m.retry then if o.attempts = 0 then .standby else .retry
  else if o.runStateThreshold_lag < m.lagMean then .lagging
  else if o.runStateThreshold_reject < m.rejectPercent then .reject
  else if o.attempts = 0 then .standby
  else if flow_status ∈ [.down, .disconnected] then flow_status
  else if 0 < o.publishers ∧ m.txLast ≠ 0 ∧ o.runStateThreshold_idle < now - m.txLast then .idle
  else if o.download ∧ m.transferLast ≠ 0 ∧ o.runStateThreshold_idle < now - m.transferLast then .idle
  else if m.rxLast ≠ 0 ∧ o.runStateThreshold_idle < now - m.rxLast then .idle
  else if 0 < m.msgRate ∧ m.msgRateCpu < o.runStateThreshold_cpuSlow then .cpuSlow
  else .running

/-- The status of a flow that misses instances: `recorded` pid files, `observed` processes. The state of a
post has no `'sleep'`. -/
def lacking (recorded observed : Nat) (marked flow_status : Status) : Status :=
  if f.c = .post then
    if marked ∉ [.disabled, .new, .interactive] then .stopped else flow_status
  else if 0 < observed ∧ flow_status ∉ [.starting, .shutdown, .resources_restart] then .partial_
  else if marked ≠ .disabled then
    if flow_status ∉ [.interactive, .new, .running] ∧ recorded = 0 then .stopped
    else if flow_status ∉ [.interactive, .new, .shutdown, .starting, .resources_restart] then .missing
    else flow_status
  else flow_status

/-- The status that `_resolve` comes to. -/
def settle (now : ℚ) (m : Metrics) (noVip : Bool) (recorded observed hung : Nat) (marked : Status) : Status :=
  let flow_status :=
    if marked ∈ [.disabled, .interactive, .new, .starting, .shutdown, .running, .resources_restart] then marked
    else .unknown
  let flow_status := connection o m flow_status
  if 0 < hung ∧ 0 < observed then .hung
  else if observed < instances f o then lacking f recorded observed marked flow_status
  else if observed = 0 then
    if flow_status ∉ [.interactive, .new] then if recorded = 0 then .stopped else .missing else flow_status
  else performance o now m noVip flow_status

/-- What is known of a flow once all is read and resolved. -/
structure Seen where
  status : Status
  instance_pids : Table Nat Nat
  hung_instances : List Nat

/-- `_read_state_dir` and `_resolve` for one flow. -/
def look {μ : Type} (accumulate : ℚ → Nat → List μ → Metrics) (now : ℚ) (procs : Procs)
    (dir : Option StateDir) (r : Records μ) : Seen :=
  match dir with
  | none => ⟨read_status f o none, Table.empty, []⟩
  | some d =>
    let pids := instance_pids d
    let hung := hung_instances o now procs r pids
    ⟨settle f o now (metrics accumulate now r) (noVip d) pids.entries.length (observed procs pids).length hung.length
      (marked f o d (read_status f o (some d))), pids, hung⟩

end Resolve

end Sarracenia.Source.Sr
