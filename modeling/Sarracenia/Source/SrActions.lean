import Sarracenia.Library.Glob
import Sarracenia.Source.Sr

/-!
# The actions of `sr3` (`sarracenia/sr.py`)

Selection, and `start`, `stop`, `sanity`, `cleanup` and `remove` over the state that is read. What an action
does to the machine is a list of effects. The broker's side of `cleanup`, the plugins and what is printed are
left out.
-/
namespace Sarracenia.Source.Sr
open Library Library.Text Library.Glob

/-! ## Selection -/

section Selection

structure Command where
  dry_run : Bool
  dangerWillRobinson : Nat
  configurations : List Str

/-- Words that are no patterns; an action with one of them is refused. -/
def notPatterns : List Str :=
  ["examples".toList, "eg".toList, "ie".toList, "flow_callback".toList, "flowcb".toList, "fcb".toList,
    "v2plugins".toList, "v2p".toList]

/-- A flow on the command line, `c/cfg`. -/
def fcc (f : Flow) : Str := f.c.name ++ '/' :: f.cfg

def flowPattern (p : Str) : Str :=
  if p ∈ notPatterns then p else if '/' ∉ p then "flow/".toList ++ p else p

def patterns (cmd : Command) : List Str :=
  (if cmd.configurations = [] then ["*/*".toList] else cmd.configurations).map flowPattern

/-- All but the last `n` characters, `s[0:-n]`. -/
def butLast (n : Nat) (s : Str) : Str := s.take (s.length - n)

/-- How often a pattern puts a flow in `filtered_configurations`: each of four tests does so. -/
def matched (p : Str) (f : Flow) : Nat :=
  if p ∈ notPatterns then 0
  else (if fnmatch (fcc f) p then 1 else 0) +
    (if lastChars 5 (fcc f) = ".conf".toList ∧ butLast 5 (fcc f) = p then 1 else 0) +
    (if lastChars 4 (fcc f) = ".inc".toList ∧ butLast 4 (fcc f) = p then 1 else 0) +
    (if lastChars 5 p = ".conf".toList ∧ fnmatch (fcc f) (butLast 5 p) then 1 else 0)

def hits (cmd : Command) (f : Flow) : Nat := ((patterns cmd).map (matched · f)).sum

/-- `self.configs`, with the options of each. -/
abbrev Configs := Table Flow Options

def candidates (configs : Configs) : List Flow := configs.entries.map (·.1)

def filtered_configurations (configs : Configs) (cmd : Command) : List Flow :=
  (candidates configs).flatMap fun f => List.replicate (hits cmd f) f

def leftovers (configs : Configs) (cmd : Command) : List Str :=
  (patterns cmd).filter fun p => (candidates configs).all fun f => matched p f = 0

/-- A pattern was given that nothing matches. -/
def notFound (configs : Configs) (cmd : Command) : Bool := leftovers configs cmd ≠ [] && cmd.configurations ≠ []

def validate_dangerWillRobinson (configs : Configs) (cmd : Command) : Bool :=
  (filtered_configurations configs cmd).length ≤ 1 ||
    (filtered_configurations configs cmd).length = cmd.dangerWillRobinson

end Selection

/-! ## The files -/

section Files

/-- The state directories under the cache directory of the user and under that of the host (`true`), the two
`sanitizing` markers, and the configuration files. -/
structure Disk where
  dirs : Bool → Table Flow StateDir
  sanitizing : Bool → Bool
  confs : List Flow

inductive Sig where
  | TERM | KILL
  deriving DecidableEq, Repr

inductive File where
  | sanitizing (host : Bool)
  | marker (f : Flow) (m : Marker)
  | pid (host : Bool) (f : Flow) (i : Nat)
  | state (f : Flow) (name : Str)
  | stateDir (f : Flow)
  | conf (f : Flow)
  deriving DecidableEq, Repr

inductive Effect where
  | signal (pid : Nat) (sig : Sig)
  | launch (f : Flow) (i : Nat)
  | create (file : File)
  | unlink (file : File)
  deriving DecidableEq, Repr

/-- What an action has done so far. -/
structure Doing where
  disk : Disk
  effects : List Effect

def Doing.then_ (h : Doing) (effects : List Effect) : Doing := ⟨h.disk, h.effects ++ effects⟩

def setDir (disk : Disk) (host : Bool) (f : Flow) (d : StateDir) : Disk :=
  { disk with dirs := fun h => if h = host then (disk.dirs h).set f d else disk.dirs h }

/-- The state directory of a flow, `_set_state_dir`. -/
def dirOf (disk : Disk) (f : Flow) (o : Options) : Option StateDir := (disk.dirs o.statehost).get f

def hasMarker (disk : Disk) (f : Flow) (o : Options) (m : Marker) : Bool := (dirOf disk f o).any fun d => d.markers m

def withMarker (d : StateDir) (m : Marker) (there : Bool) : StateDir :=
  { d with markers := fun m' => if m' = m then there else d.markers m' }

/-- `_tag_progress`. -/
def tag_progress (f : Flow) (o : Options) (m : Marker) (ending : Bool) (h : Doing) : Doing :=
  if ending then
    if hasMarker h.disk f o m then
      ⟨setDir h.disk o.statehost f (withMarker ((dirOf h.disk f o).getD .empty) m false),
        h.effects ++ [.unlink (.marker f m)]⟩
    else h
  else if hasMarker h.disk f o m then h
  else ⟨setDir h.disk o.statehost f (withMarker ((dirOf h.disk f o).getD .empty) m true),
    h.effects ++ [.create (.marker f m)]⟩

/-- `_tag_sanity`; the directory of the host comes first. -/
def tag_sanity (ending : Bool) (h : Doing) : Doing :=
  if ending then
    ⟨{ h.disk with sanitizing := fun _ => false },
      h.effects ++ ([true, false].filter h.disk.sanitizing).map fun host => .unlink (.sanitizing host)⟩
  else
    ⟨{ h.disk with sanitizing := fun _ => true }, h.effects ++ [true, false].map fun host => .create (.sanitizing host)⟩

/-- `_pid_file_count`. -/
def pid_file_count (disk : Disk) (f : Flow) (o : Options) : Nat := ((dirOf disk f o).map (·.pids.entries.length)).getD 0

end Files

/-! ## What is read -/

section Reading

/-- What there is to read at one moment. -/
structure World (μ : Type) where
  now : ℚ
  me : Str
  table : List Psutil
  disk : Disk
  records : Flow → Records μ

/-- An `sr_GlobalState`, as far as the actions look at it, and the time of its last reading. -/
structure Global where
  now : ℚ
  procs : Procs
  seen : Flow → Seen
  missing : List (Flow × Nat)
  flux : List (Flow × Marker)

variable {μ : Type} (accumulate : ℚ → Nat → List μ → Metrics) (configs : Configs)

/-- `_read_states` and the part of `_resolve` that each flow has. -/
def seenIn (now : ℚ) (procs : Procs) (disk : Disk) (records : Flow → Records μ) (f : Flow) : Seen :=
  match configs.get f with
  | none => ⟨.unknown, Table.empty, []⟩
  | some o => look f o accumulate now procs (dirOf disk f o) (records f)

/-- A pid that a pid file of a flow names. -/
def named (seen : Flow → Seen) (pid : Nat) : Bool :=
  (candidates configs).any fun f => (seen f).instance_pids.entries.any fun e => e.2 = pid

/-- `_resolve` claims the processes that pid files name. -/
def claim (seen : Flow → Seen) (procs : Procs) : Procs :=
  procs.keep fun pid p => some { p with claimed := p.claimed || named configs seen pid }

/-- `self.strays`, once `_resolve` is done. -/
def strays (procs : Procs) : List Nat := (procs.entries.filter fun e => !e.2.claimed).map (·.1)

def fluxIn (disk : Disk) : List (Flow × Marker) :=
  configs.entries.filterMap fun e => ((dirOf disk e.1 e.2).bind fluxOf).map (e.1, ·)

/-- The states in which nothing is looked for; there is no `'stopping'`. -/
def notMissed : List Status := [.disabled, .interactive, .new, .stopped, .starting, .resources_restart]

/-- The instances of one state directory whose process is gone, and those that have no pid file. -/
def missingOf (procs : Procs) (status : Status) (f : Flow) (o : Options) (d : StateDir) : List (Flow × Nat) :=
  if d.markers .disabled then []
  else if status ∈ notMissed then []
  else ((d.pids.entries.filter fun file => file.1 ≠ 0 && !file.2.any (alive procs)).map fun file => (f, file.1)) ++
    ((List.range' 1 (instances f o)).filter fun i => (d.pids.get i).isNone).map fun i => (f, i)

/-- One state directory, if it is that of the flow. -/
def missingIn (procs : Procs) (seen : Flow → Seen) (host : Bool) (f : Flow) (d : StateDir) : List (Flow × Nat) :=
  match configs.get f with
  | none => []
  | some o => if host ≠ o.statehost then [] else missingOf procs (seen f).status f o d

def find_missing_instances_dir (procs : Procs) (seen : Flow → Seen) (disk : Disk) (host : Bool) : List (Flow × Nat) :=
  (disk.dirs host).entries.flatMap fun e => missingIn configs procs seen host e.1 e.2

def find_missing_instances (procs : Procs) (seen : Flow → Seen) (disk : Disk) : List (Flow × Nat) :=
  find_missing_instances_dir configs procs seen disk false ++ find_missing_instances_dir configs procs seen disk true

/-- A state directory without the pid files whose process is gone. -/
def cleaned (procs : Procs) (d : StateDir) : StateDir :=
  { d with pids := d.pids.keep fun _ text => if text.any (alive procs) then some text else none }

/-- The pid files that are unlinked: in every directory of a component that misses an instance. -/
def staleFiles (procs : Procs) (missing : List (Flow × Nat)) (disk : Disk) (host : Bool) : List File :=
  (disk.dirs host).entries.flatMap fun e =>
    if missing.any fun m => m.1.c = e.1.c then
      (e.2.pids.entries.filter fun file => !file.2.any (alive procs)).map fun file => .pid host e.1 file.1
    else []

/-- `_clean_missing_proc_state`. -/
def clean_missing_proc_state (dry_run : Bool) (procs : Procs) (missing : List (Flow × Nat)) (h : Doing) : Doing :=
  if dry_run then h
  else ⟨{ h.disk with
      dirs := fun host => (h.disk.dirs host).keep fun f d =>
        some (if missing.any fun m => m.1.c = f.c then cleaned procs d else d) },
    h.effects ++ (staleFiles procs missing h.disk false ++ staleFiles procs missing h.disk true).map .unlink⟩

/-- The constructor. -/
def construct (w : World μ) : Global :=
  let procs := read_procs w.me w.table
  let seen := seenIn accumulate configs w.now procs w.disk w.records
  ⟨w.now, claim configs seen procs, seen, find_missing_instances configs (claim configs seen procs) seen w.disk,
    fluxIn configs w.disk⟩

/-- What is read again has no ages of logs. -/
def withoutLogs (records : Flow → Records μ) (f : Flow) : Records μ := { records f with logAge := Table.empty }

/-- `_read_procs` to `_resolve`, as they stand in `stop`. -/
def reread (dry_run : Bool) (g : Global) (w : World μ) : Global :=
  let procs := read_procs w.me w.table
  let missing := find_missing_instances configs procs g.seen w.disk
  let disk := (clean_missing_proc_state dry_run procs missing ⟨w.disk, []⟩).disk
  let seen := seenIn accumulate configs w.now procs disk (withoutLogs w.records)
  ⟨w.now, claim configs seen procs, seen, missing, fluxIn configs disk⟩

end Reading

/-! ## The actions -/

section Actions
variable {μ : Type} (accumulate : ℚ → Nat → List μ → Metrics) (configs : Configs) (cmd : Command)
  (scripts : Str → Bool)

/-- `_find_component_path` finds a path: the scripts that are there are a parameter. -/
def find_component_path (c : Component) : Bool :=
  match c with
  | .cpost | .cpump => true
  | .post => scripts "sr_post".toList || scripts "sr_post.py".toList
  | _ => scripts "sr_flow".toList || scripts "sr_flow.py".toList

/-- `for f in self.filtered_configurations`, with the options of each. -/
def selection : List (Flow × Options) :=
  (filtered_configurations configs cmd).filterMap fun f => (configs.get f).map (f, ·)

section Start

/-- A flow that is given by name is disabled. -/
def has_disabled_config (g : Global) (disk : Disk) : Bool :=
  cmd.configurations ≠ [] && (selection configs cmd).any fun e =>
    decide ((g.seen e.1).status = .disabled) || hasMarker disk e.1 e.2 .disabled

/-- The instances of a flow that `start` launches. -/
def toStart (g : Global) (e : Flow × Options) : Bool :=
  !interactive e.1 e.2 && decide ((g.seen e.1).status ≠ .disabled) && find_component_path scripts e.1.c &&
    (g.seen e.1).status ∈ [.missing, .interactive, .new, .stopped]

/-- `_launch_instance` for each of the instances. -/
def launches (f : Flow) (o : Options) : List Effect :=
  if cmd.dry_run then [] else (List.range' 1 (instances f o)).map (.launch f)

def startOne (g : Global) (h : Doing) (e : Flow × Options) : Doing :=
  if toStart scripts g e then (tag_progress e.1 e.2 .starting false h).then_ (launches cmd e.1 e.2) else h

/-- A flow waits for its pid files; `waits` is the disk when they are there, if `sr3` is not stopped before. -/
def ready (waits : Flow → Disk → Option Disk) (e : Flow × Options) (disk : Disk) : Option Disk :=
  if pid_file_count disk e.1 e.2 < e.2.instances then waits e.1 disk else some disk

def startEnd (h : Doing) (e : Flow × Options) : Doing :=
  if find_component_path scripts e.1.c then
    tag_progress e.1 e.2 .running false (tag_progress e.1 e.2 .starting true h)
  else h

/-- A flow that the second pass passes over. -/
def passedOver (g : Global) (e : Flow × Options) : Bool :=
  interactive e.1 e.2 || decide ((g.seen e.1).status = .disabled)

/-- The second pass. -/
def startEnds (g : Global) (waits : Flow → Disk → Option Disk) : List (Flow × Options) → Doing → Doing
  | [], h => h
  | e :: es, h =>
    if passedOver g e then startEnds g waits es h
    else match ready waits e h.disk with
      | none => h
      | some disk => startEnds g waits es (startEnd scripts ⟨disk, h.effects⟩ e)

/-- `start`; `clear` is that no `sanitizing` marker is left, at once or after some time. -/
def start (clear : Bool) (waits : Flow → Disk → Option Disk) (g : Global) (disk : Disk) : Doing :=
  if notFound configs cmd then ⟨disk, []⟩
  else if !clear then ⟨disk, []⟩
  else if has_disabled_config configs cmd g disk then ⟨disk, []⟩
  else startEnds scripts g waits (selection configs cmd)
    ((selection configs cmd).foldl (startOne cmd scripts g) ⟨disk, []⟩)

end Start

section Sanity

/-- The processes that hang, in the selected flows. -/
def kill_hung (g : Global) : List Nat :=
  (selection configs cmd).flatMap fun e =>
    if find_component_path scripts e.1.c then
      (g.seen e.1).hung_instances.filterMap fun i => (g.seen e.1).instance_pids.get i
    else []

/-- `pcount != 0`. -/
def somethingMissing (g : Global) : Bool :=
  (selection configs cmd).any fun e => find_component_path scripts e.1.c &&
    ((decide ((g.seen e.1).status ∈ [.missing, .partial_]) && decide (0 < instances e.1 e.2)) ||
      !(g.seen e.1).hung_instances.isEmpty)

/-- `_start_missing`. -/
def start_missing (missing : List (Flow × Nat)) : List Effect :=
  (missing.filter fun m => m.1 ∈ filtered_configurations configs cmd && find_component_path scripts m.1.c).map
    fun m => .launch m.1 m.2

/-- The processes that `sanity` goes on with: those of the moment after it has killed some. -/
def afterKills (g : Global) (fresh : World μ) : Procs :=
  if kill_hung configs cmd scripts g ≠ [] ∧ cmd.dry_run = false then read_procs fresh.me fresh.table else g.procs

/-- The missing instances are started, if there is something to look for; then come the strays. -/
def restore (fresh : World μ) (g : Global) (procs : Procs) (h : Doing) : Doing × Procs :=
  if somethingMissing configs cmd scripts g then
    let missing := find_missing_instances configs procs g.seen h.disk
    let h := clean_missing_proc_state cmd.dry_run procs missing h
    let seen := seenIn accumulate configs fresh.now procs h.disk (withoutLogs fresh.records)
    (if cmd.dry_run then h else h.then_ (start_missing configs cmd scripts missing), claim configs seen procs)
  else (h, procs)

/-- `sanity`; `fresh` is what there is to read after the kills. -/
def sanity (fresh : World μ) (g : Global) (disk : Disk) : Doing :=
  if notFound configs cmd then ⟨disk, []⟩
  else if g.flux ≠ [] then ⟨disk, []⟩
  else
    let h := tag_sanity false ⟨disk, []⟩
    let h := if cmd.dry_run then h else h.then_ ((kill_hung configs cmd scripts g).map (.signal · .KILL))
    let restored := restore accumulate configs cmd scripts fresh g (afterKills configs cmd scripts g fresh) h
    let h := if cmd.dry_run then restored.1 else restored.1.then_ ((strays restored.2).map (.signal · .TERM))
    tag_sanity true h

end Sanity

section Stop

/-- `_pid_running_foreground`. -/
def pid_running_foreground (procs : Procs) (pid : Nat) : Bool :=
  match procs.get pid with
  | none => false
  | some p =>
    if "foreground".toList ∈ p.cmdline then true
    else if "start".toList ∈ p.cmdline then false
    else "sr3_cpost".toList ∈ p.cmdline || "sr3_post".toList ∈ p.cmdline

/-- `_cfg_running_foreground`, which returns in the first turn of its loop. -/
def cfg_running_foreground (g : Global) (f : Flow) : Bool :=
  match (g.seen f).instance_pids.entries with
  | [] => false
  | e :: _ => pid_running_foreground g.procs e.2

/-- A flow that is left alone, since it runs in the foreground. -/
def spared (g : Global) (f : Flow) : Bool := cmd.dangerWillRobinson = 0 && cfg_running_foreground g f

/-- The processes of a flow. -/
def livePids (g : Global) (f : Flow) : List Nat :=
  ((g.seen f).instance_pids.entries.filter fun e => alive g.procs e.2).map (·.2)

/-- A flow that gets signals. -/
def toStop (g : Global) (f : Flow) : Bool := !spared cmd g f && decide ((g.seen f).status ∈ status_active)

def stopOne (g : Global) (h : Doing) (e : Flow × Options) : Doing :=
  if !toStop cmd g e.1 || cmd.dry_run then h
  else (tag_progress e.1 e.2 .shutdown false (tag_progress e.1 e.2 .running true h)).then_
    ((livePids g e.1).map (.signal · .TERM))

/-- The first SIGTERMs; those to strays are sent in a dry run also. -/
def terms (g : Global) (h : Doing) : Doing :=
  (selection configs cmd).foldl (stopOne cmd g) (h.then_ ((strays g.procs).map (.signal · .TERM)))

/-- `pids_signalled` after them. -/
def termPids (g : Global) : List Nat :=
  strays g.procs ++ if cmd.dry_run then []
    else (selection configs cmd).flatMap fun e => if toStop cmd g e.1 then livePids g e.1 else []

/-- The processes nobody claims, older than 50 seconds by the clock before the loop, without a signal yet. -/
def oldStrays (now : ℚ) (signalled : List Nat) (g : Global) : List Nat :=
  (g.procs.entries.filter fun e => !e.2.claimed && decide (50 < now - e.2.create_time) && e.1 ∉ signalled).map (·.1)

/-- No pid file is left of the flows that are not spared, and there are no strays. -/
def allStopped (g : Global) : Bool :=
  ((selection configs cmd).all fun e => spared cmd g e.1 || (g.seen e.1).instance_pids.entries.isEmpty) &&
    (strays g.procs).isEmpty

/-- The end of the `shutdown` markers. -/
def untag (g : Global) (h : Doing) : Doing :=
  (selection configs cmd).foldl
    (fun h e => if spared cmd g e.1 then h else tag_progress e.1 e.2 .shutdown true h) h

/-- The SIGKILLs. -/
def kills (g : Global) : List Effect :=
  (((selection configs cmd).flatMap fun e => if toStop cmd g e.1 then livePids g e.1 else []) ++ strays g.procs).map
    (.signal · .KILL)

/-- What is to be read at the end of each attempt, and the clock before the first. -/
structure Evolution (μ : Type) where
  now : ℚ
  worlds : Nat → World μ
  later : ∀ k, now ≤ (worlds k).now

/-- An effect, and what was read last before it. -/
structure Act where
  effect : Effect
  state : Global

def Doing.acts (h : Doing) (g : Global) : List Act := h.effects.map (⟨·, g⟩)

/-- The disk that the states are read from, after the `k`-th attempt, and what was done to it. -/
def rereadDisk (g : Global) (w : World μ) : Doing :=
  let procs := read_procs w.me w.table
  clean_missing_proc_state cmd.dry_run procs (find_missing_instances configs procs g.seen w.disk) ⟨w.disk, []⟩

/-- The attempts that are left, from the `k`-th, and the SIGKILLs after them. -/
def attempts (ev : Evolution μ) : Nat → Nat → List Nat → Global → List Act
  | 0, k, _, g =>
    let g' := reread accumulate configs cmd.dry_run g (ev.worlds k)
    (kills configs cmd g).map (⟨·, g⟩) ++ (untag configs cmd g' (rereadDisk configs cmd g (ev.worlds k))).acts g'
  | n + 1, k, signalled, g =>
    let old := oldStrays ev.now signalled g
    let g' := reread accumulate configs cmd.dry_run g (ev.worlds k)
    let h := rereadDisk configs cmd g (ev.worlds k)
    old.map (⟨.signal · .TERM, g⟩) ++
      if allStopped configs cmd g' then (untag configs cmd g' h).acts g'
      else h.acts g' ++ attempts ev n (k + 1) (signalled ++ old) g'

/-- What `stop` does once the old pid files are gone. -/
def stopping (ev : Evolution μ) (g : Global) (h : Doing) : List Act :=
  if g.procs.entries.isEmpty then h.acts g
  else
    (terms configs cmd g h).acts g ++
      if cmd.dry_run then [] else attempts accumulate configs cmd ev 5 0 (termPids configs cmd g) g

/-- `stop`; `clear` as for `start`. -/
def stop (clear : Bool) (ev : Evolution μ) (g : Global) (disk : Disk) : List Act :=
  if notFound configs cmd then []
  else if !clear then []
  else stopping accumulate configs cmd ev g (clean_missing_proc_state cmd.dry_run g.procs g.missing ⟨disk, []⟩)

end Stop

section Removal

/-- What `cleanup` leaves of a state directory. -/
def emptied (d : StateDir) : StateDir :=
  ⟨fun m => decide (m = .disabled) && d.markers m, Table.empty, [], d.others.filter fun name => name.head? = some '.'⟩

/-- The files it unlinks. -/
def emptiedFiles (host : Bool) (f : Flow) (d : StateDir) : List File :=
  ((markerFiles.filter fun m => decide (m ≠ .disabled) && d.markers m).map (.marker f)) ++
    d.pids.entries.map (fun file => .pid host f file.1) ++ d.noVip.map (fun _ => .state f ".noVip".toList) ++
    (d.others.filter fun name => name.head? ≠ some '.').map (.state f)

def emptyOne (h : Doing) (e : Flow × Options) : Doing :=
  match dirOf h.disk e.1 e.2 with
  | none => h
  | some d =>
    if cmd.dry_run then h
    else ⟨setDir h.disk e.2.statehost e.1 (emptied d),
      h.effects ++ (emptiedFiles e.2.statehost e.1 d).map .unlink⟩

/-- `cleanup`, which is refused if a selected flow is active. -/
def cleanup (g : Global) (disk : Disk) : Bool × Doing :=
  if notFound configs cmd then (false, ⟨disk, []⟩)
  else if !validate_dangerWillRobinson configs cmd then (false, ⟨disk, []⟩)
  else if (selection configs cmd).any fun e => (g.seen e.1).status ∈ status_active then (false, ⟨disk, []⟩)
  else (true, (selection configs cmd).foldl (emptyOne cmd) ⟨disk, []⟩)

/-- The numbers of the instances are looked for among the processes. -/
def removeOne (g : Global) (h : Doing) (e : Flow × Options) : Doing :=
  if (g.seen e.1).instance_pids.entries.any fun p => alive g.procs p.1 then h
  else if cmd.dry_run then h
  else ⟨{ h.disk with
      confs := h.disk.confs.filter (· ≠ e.1)
      dirs := fun host => if host then h.disk.dirs host else (h.disk.dirs host).erase e.1 },
    h.effects ++ [.unlink (.conf e.1), .unlink (.stateDir e.1)]⟩

/-- `remove`, after a `cleanup` that was not refused. -/
def remove (g : Global) (disk : Disk) : Doing :=
  let cleaned := cleanup configs cmd g disk
  if cleaned.1 then (selection configs cmd).foldl (removeOne cmd g) cleaned.2 else cleaned.2

end Removal

end Actions

end Sarracenia.Source.Sr
