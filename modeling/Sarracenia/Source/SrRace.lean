import Sarracenia.Source.SrActions

/-!
# A `sanity` and a `start` of one flow (`sarracenia/sr.py`)

The steps of both on the files and the process table they share, in any order. A launched process writes its
pid file at any later time. What happens to other flows only makes each of them go on, or refuse.
-/
namespace Sarracenia.Source.Sr.Race
open Library Source.Sr

/-- Where a `start` is. -/
inductive StartAt where
  | begun
  | read (procs : Procs)
  | constructed (status : Status)
  | checked (status : Status) (sanitizing : Bool)
  | clear (status : Status)
  | launching (next : Nat)
  | launched
  | untagged
  | ended

/-- Where a `sanity` is, with the process table it goes by. -/
inductive SanityAt where
  | begun
  | read (procs : Procs)
  | constructed (procs : Procs) (status : Status)
  | tagging (procs : Procs) (status : Status)
  | tagged (procs : Procs) (status : Status)
  | found (procs : Procs) (missing : List Nat)
  | launching (missing : List Nat)
  | untagging
  | untagged
  | ended

/-- The files of the flow, the `sanitizing` markers, the processes, those that have yet to write their pid
files, and who launched which instance. -/
structure State where
  dir : StateDir
  sanitizing : Bool → Bool
  live : Procs
  writing : List (Nat × Nat)
  start : StartAt
  sanity : SanityAt
  byStart : List Nat
  bySanity : List Nat

/-- A process is launched for an instance. -/
def State.spawn (σ : State) (i pid : Nat) (p : Proc) : State :=
  { σ with live := σ.live.set pid p, writing := σ.writing ++ [(i, pid)] }

def State.mark (σ : State) (m : Marker) (there : Bool) : State := { σ with dir := withMarker σ.dir m there }

def State.sanitize (σ : State) (host there : Bool) : State :=
  { σ with sanitizing := fun h => if h = host then there else σ.sanitizing h }

/-- The statuses that `start` starts a flow from. -/
def startable : List Status := [.missing, .interactive, .new, .stopped]

variable {μ : Type} (accumulate : ℚ → Nat → List μ → Metrics) (f : Flow) (o : Options)

/-- The constructor of a `start` in two steps, `start`, and its waits. -/
inductive StartStep : State → State → Prop where
  | reads (σ : State) : σ.start = .begun → StartStep σ { σ with start := .read σ.live }
  | checks (σ : State) (s : Status) : σ.start = .constructed s →
      StartStep σ { σ with start := .checked s (σ.sanitizing false) }
  | waits (σ : State) (s : Status) (b : Bool) : σ.start = .checked s b → (b || σ.sanitizing true) = true →
      StartStep σ { σ with start := .constructed s }
  | passes (σ : State) (s : Status) (b : Bool) : σ.start = .checked s b → (b || σ.sanitizing true) = false →
      StartStep σ { σ with start := .clear s }
  | refuses (σ : State) (s : Status) : σ.start = .constructed s ∨ σ.start = .clear s →
      StartStep σ { σ with start := .ended }
  | skips (σ : State) (s : Status) : σ.start = .clear s → s ∉ startable → StartStep σ { σ with start := .launched }
  | tags (σ : State) (s : Status) : σ.start = .clear s → s ∈ startable →
      StartStep σ { σ.mark .starting true with start := .launching 1 }
  | launches (σ : State) (i pid : Nat) (p : Proc) : σ.start = .launching i → i ≤ instances f o → alive σ.live pid = false →
      StartStep σ { σ.spawn i pid p with start := .launching (i + 1), byStart := σ.byStart ++ [i] }
  | launched (σ : State) (i : Nat) : σ.start = .launching i → instances f o < i → StartStep σ { σ with start := .launched }
  | untags (σ : State) : σ.start = .launched → o.instances ≤ σ.dir.pids.entries.length →
      StartStep σ { σ.mark .starting false with start := .untagged }
  | ends (σ : State) : σ.start = .untagged → StartStep σ { σ.mark .running true with start := .ended }
  | stopped (σ : State) : σ.start = .launched → StartStep σ { σ with start := .ended }

/-- The constructor of a `sanity` in two steps, and `sanity`; the marker of the host comes first. -/
inductive SanityStep : State → State → Prop where
  | reads (σ : State) : σ.sanity = .begun → SanityStep σ { σ with sanity := .read σ.live }
  | refuses (σ : State) (procs : Procs) (s : Status) : σ.sanity = .constructed procs s →
      SanityStep σ { σ with sanity := .ended }
  | tagging (σ : State) (procs : Procs) (s : Status) : σ.sanity = .constructed procs s →
      SanityStep σ { σ.sanitize true true with sanity := .tagging procs s }
  | tags (σ : State) (procs : Procs) (s : Status) : σ.sanity = .tagging procs s →
      SanityStep σ { σ.sanitize false true with sanity := .tagged procs s }
  | rereads (σ : State) (procs : Procs) (s : Status) : σ.sanity = .tagged procs s →
      SanityStep σ { σ with sanity := .tagged σ.live s }
  | skips (σ : State) (procs : Procs) (s : Status) : σ.sanity = .tagged procs s →
      SanityStep σ { σ with sanity := .untagging }
  | finds (σ : State) (procs : Procs) (s : Status) (missing : List Nat) : σ.sanity = .tagged procs s →
      (missingOf procs s f o σ.dir).map (·.2) = missing → SanityStep σ { σ with sanity := .found procs missing }
  | cleans (σ : State) (procs : Procs) (missing : List Nat) : σ.sanity = .found procs missing →
      SanityStep σ { σ with dir := cleaned procs σ.dir, sanity := .launching missing }
  | leaves (σ : State) (procs : Procs) : σ.sanity = .found procs [] → SanityStep σ { σ with sanity := .launching [] }
  | launches (σ : State) (i pid : Nat) (p : Proc) (missing : List Nat) : σ.sanity = .launching (i :: missing) →
      alive σ.live pid = false →
      SanityStep σ { σ.spawn i pid p with sanity := .launching missing, bySanity := σ.bySanity ++ [i] }
  | launched (σ : State) : σ.sanity = .launching [] → SanityStep σ { σ with sanity := .untagging }
  | untagging (σ : State) : σ.sanity = .untagging → SanityStep σ { σ.sanitize true false with sanity := .untagged }
  | ends (σ : State) : σ.sanity = .untagged → SanityStep σ { σ.sanitize false false with sanity := .ended }

/-- Which of the two reads the state of the flow in a step, and from which process table it goes on. -/
inductive Label where
  | startSees (procs : Procs)
  | sanitySees (procs : Procs)
  | other

/-- A step of either, or of a launched process. -/
inductive Step : State → Label → State → Prop where
  | start {σ σ' : State} : StartStep f o σ σ' → Step σ .other σ'
  | sanity {σ σ' : State} : SanityStep f o σ σ' → Step σ .other σ'
  | startSees (σ : State) (procs : Procs) (now : ℚ) (r : Records μ) (s : Status) : σ.start = .read procs →
      (look f o accumulate now procs (some σ.dir) r).status = s →
      Step σ (.startSees procs) { σ with start := .constructed s }
  | sanitySees (σ : State) (procs : Procs) (now : ℚ) (r : Records μ) (s : Status) : σ.sanity = .read procs →
      fluxOf σ.dir = none → (look f o accumulate now procs (some σ.dir) r).status = s →
      Step σ (.sanitySees procs) { σ with sanity := .constructed procs s }
  | sanityHolds (σ : State) (procs : Procs) : σ.sanity = .read procs → fluxOf σ.dir ≠ none →
      Step σ (.sanitySees procs) { σ with sanity := .ended }
  | writes (σ : State) (i pid : Nat) : (i, pid) ∈ σ.writing →
      Step σ .other
        { σ with
          dir := { σ.dir with pids := σ.dir.pids.set i (some pid) }
          writing := σ.writing.erase (i, pid) }

/-- Both are begun, and have launched nothing. -/
def Fresh (σ : State) : Prop := σ.start = .begun ∧ σ.sanity = .begun ∧ σ.byStart = [] ∧ σ.bySanity = []

/-- A run, each step of which meets a condition on the state before it. -/
inductive Runs (meets : Label → State → Prop) (σ : State) : State → Prop where
  | refl : Runs meets σ σ
  | step {σ' σ'' : State} {l : Label} : Runs meets σ σ' → meets l σ' → Step accumulate f o σ' l σ'' → Runs meets σ σ''

end Sarracenia.Source.Sr.Race
