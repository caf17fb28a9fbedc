import Mathlib.Data.List.Basic
import Mathlib.Logic.Function.Basic

/-!
# A pass of `Flow.run` with the retry plugin (`sarracenia/flow/__init__.py`, `flowcb/retry.py`,
`flowcb/post/message.py`)

A pass is `gather`, `filter`, `work` and `post`, given as its effects in their order, between any
two of which the process may die: what is left then is the ledger. What becomes of a message at
the masks, at work and at its publisher is given from outside, and how many messages a retry queue
hands out. Messages are told apart by a tag, and their other fields here are those that decide
where they go. No stage loses a message or raises an exception, every publisher has a poster, other
plugins move no message, and a queue hands out what was put on it.
-/
namespace Sarracenia.Source.FlowLoop

structure Options where
  publishers : Nat
  retryCountMax : Nat
  retry_refilter : Bool
  poll : Bool

/-- A message: the one with that number of those received, or one from before the run.
`isRetry` is 0 where there is no `_isRetry`. -/
structure Msg where
  tag : Option Nat
  isRetry : Nat
  publisher_index : Option Nat
  deriving DecidableEq

inductive Fate where
  | ok | rejected | failed
  deriving DecidableEq

inductive Queue where
  | download_retry | post_retry
  deriving DecidableEq

/-- What one pass meets with. -/
structure Outcomes where
  arrivals : Nat
  retries : Nat
  accepts : Msg → Fate
  works : Msg → Fate
  reposts : Nat
  publishes : Msg → Bool
  polled : Bool

/-- What happens to a message for good. -/
inductive Effect where
  | receive (m : Msg)
  | ack (m : Msg)
  | get (q : Queue) (m : Msg)
  | put (q : Queue) (m : Msg)
  | giveUp (q : Queue) (m : Msg)
  | reject (m : Msg)
  | work (m : Msg)
  | publish (m : Msg)
  | skip (m : Msg)
  deriving DecidableEq

section Ledger

/-- What is there when the process dies: the messages received, the queues, and all that happened. -/
structure Ledger where
  received : Nat
  queues : Queue → List Msg
  history : List Effect

/-- What an effect does to the messages received and the queues. -/
def Ledger.change (l : Ledger) : Effect → Ledger
  | .receive _ => { l with received := l.received + 1 }
  | .get q m => { l with queues := Function.update l.queues q ((l.queues q).erase m) }
  | .put q m => { l with queues := Function.update l.queues q (l.queues q ++ [m]) }
  | _ => l

def Ledger.apply (l : Ledger) (e : Effect) : Ledger :=
  { l.change e with history := l.history ++ [e] }

def Ledger.after (l : Ledger) (effects : List Effect) : Ledger := effects.foldl Ledger.apply l

/-- The queues as an earlier run left them. -/
def Ledger.start (left : Queue → List Msg) : Ledger :=
  ⟨0, fun q => (left q).map ({ · with tag := none }), []⟩

end Ledger

section Retry
variable (o : Options)

/-- `__set_isRetry`. -/
def set_isRetry (m : Msg) : Msg := { m with isRetry := m.isRetry + 1 }

/-- The calculated values are forgotten, the counter among them. -/
def forgetCalculated (m : Msg) : Msg := { m with isRetry := 0 }

def exceeded (m : Msg) : Bool := 0 < o.retryCountMax && o.retryCountMax < m.isRetry

/-- `__filter_by_retry_count`: those that are kept, and those given up. -/
def keep (messages : List Msg) : List Msg := messages.filter fun m => !exceeded o m

def giveUp (q : Queue) (messages : List Msg) : List Effect :=
  (messages.filter (exceeded o)).map (.giveUp q)

/-- Messages that failed, put on a queue. -/
def requeue (q : Queue) (failed : List Msg) : List Effect :=
  let counted := failed.map set_isRetry
  giveUp o q counted ++ (keep o counted).map (.put q)

end Retry

section Pass
variable (o : Options) (w : Outcomes)

def arrivals (l : Ledger) : List Msg :=
  (List.range w.arrivals).map fun i => ⟨some (l.received + i), 0, none⟩

/-- What the retry plugin takes from the download queue, by what it does to each message. -/
def retries (l : Ledger) (again : Msg → Msg) : List Effect × List Msg :=
  let taken := (l.queues .download_retry).take w.retries
  (taken.map (.get .download_retry) ++ giveUp o .download_retry (taken.map again),
    keep o (taken.map again))

/-- `gather` of the retry plugin. -/
def gatherRetries (l : Ledger) : List Effect × List Msg :=
  if o.retry_refilter then retries o w l fun m => set_isRetry (forgetCalculated m) else ([], [])

/-- `after_accept` of the retry plugin. -/
def after_accept (l : Ledger) : List Effect × List Msg :=
  if o.retry_refilter then ([], []) else retries o w l set_isRetry

/-- `worklist.incoming` after `gather`. -/
def gather (l : Ledger) : List Effect × List Msg :=
  let taken := gatherRetries o w l
  ((arrivals w l).map .receive ++ taken.1, arrivals w l ++ taken.2)

/-- `worklist.incoming` and `worklist.failed` after `filter`. -/
def filter (l : Ledger) (incoming : List Msg) : List Effect × List Msg × List Msg :=
  let filtered := incoming.filter (w.accepts · = .ok)
  let rejected := incoming.filter (w.accepts · = .rejected)
  let failed := incoming.filter (w.accepts · = .failed)
  let taken := after_accept o w l
  (rejected.map .reject ++ taken.1 ++ rejected.map .ack ++ failed.map .ack,
    filtered ++ taken.2, failed)

/-- A message for each publisher. -/
def address (m : Msg) : List Msg :=
  if o.publishers ≤ 1 then [{ m with publisher_index := some 0 }]
  else (List.range o.publishers).map fun i => { m with publisher_index := some i }

/-- `worklist.ok` after `work`. -/
def work (l : Ledger) (incoming failed : List Msg) : List Effect × List Msg :=
  let ok := incoming.filter (w.works · = .ok)
  let rejected := incoming.filter (w.works · = .rejected)
  let failed := failed ++ incoming.filter (w.works · = .failed)
  let acks := ok.map .ack ++ rejected.map .ack ++ failed.map .ack
  let reposts := (l.queues .post_retry).take w.reposts
  (ok.map .work ++ rejected.map .reject ++ acks ++ requeue o .download_retry failed ++
    reposts.map (.get .post_retry) ++ rejected.map .ack,
    ok.flatMap (address o) ++ reposts)

/-- In a poll that polled nothing only retries are posted. -/
def posts (ok : List Msg) : List Msg :=
  if o.poll && !w.polled then ok.filter (0 < ·.isRetry) else ok

def skips (ok : List Msg) : List Msg :=
  if o.poll && !w.polled then ok.filter (·.isRetry = 0) else []

def post (ok : List Msg) : List Effect :=
  if o.publishers = 0 then []
  else (skips o w ok).map .skip ++ ((posts o w ok).filter w.publishes).map .publish ++
    requeue o .post_retry ((posts o w ok).filter fun m => !w.publishes m)

/-- The effects of one pass, each stage with the queues as it finds them. -/
def pass (l : Ledger) : List Effect :=
  let (gathered, incoming) := gather o w l
  let l := l.after gathered
  let (filtered, incoming, failed) := filter o w l incoming
  let l := l.after filtered
  let (worked, ok) := work o w l incoming failed
  gathered ++ filtered ++ worked ++ post o w ok

/-- A run of whole passes. -/
def run (l : Ledger) (passes : List Outcomes) : Ledger :=
  passes.foldl (fun l w => l.after (pass o w l)) l

end Pass
end Sarracenia.Source.FlowLoop
