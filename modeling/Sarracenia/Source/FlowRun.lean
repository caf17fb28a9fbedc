import Mathlib.Algebra.Order.Floor.Semiring
import Mathlib.Data.Rat.Floor

/-!
# The loop of `Flow.run` (`sarracenia/flow/__init__.py`)

With `gather`, `_run_vip_update`, `_runHousekeeping`, `please_stop` and `close`. What the plugins
return, the clock, the addresses of the host and when the process is asked to stop are given from
outside, turn by turn. A plugin other than one of `gather` or `poll` raises nothing here, and the
processor time is positive. Arithmetic is exact.
-/
namespace Sarracenia.Source.FlowRun

structure Options where
  poll : Bool
  batch : Int
  housekeeping : ℚ
  sleep : ℚ
  sleepMax : ℚ
  messageCountMax : Int
  messageRateMax : ℚ
  retryEmptyBeforeExit : Bool

/-- What a plugin's `gather` returns. -/
inductive Gathered (μ : Type) where
  | pair (keep_going : Bool) (new_incoming : List μ)
  | list (new_incoming : List μ)
  | other
  | crashed

inductive Call (μ : Type) where
  | on_start
  | on_housekeeping (now : ℚ)
  | gather
  | filter (incoming : List μ)
  | work
  | post (retriesOnly : Bool)
  | please_stop
  | sleep (increment : ℚ)
  | on_stop

/-- After a nap: whether a stop was requested, and the clock. -/
structure Nap where
  stop : Bool
  now : ℚ

/-- What a turn of the loop meets with. A poll that crashed gave `none`; `kept` is how many messages
are incoming or ok after `filter`, `retry` what the retry plugin reports. -/
structure Turn (μ : Type) where
  stop : Bool
  has_vip : Bool
  gathers : List (Gathered μ)
  polls : List (Option (List μ))
  kept : Nat
  retry : Option (Nat × Nat)
  now : ℚ
  stopLate : Bool
  naps : Nat → Nap
  woken : ℚ

structure State (μ : Type) where
  now : ℚ
  start_time : ℚ
  next_housekeeping : ℚ
  current_sleep : ℚ
  last_time : ℚ
  total_messages : Nat
  last_gather_len : Nat
  after_filter_len : Nat
  last_poll_gather_len : Nat
  spamming : Bool
  stopping : Bool
  stop_requested : Bool
  have_vip : Bool
  had_vip : Bool
  novip : Bool
  retry : Option (Nat × Nat)
  ended : Bool
  calls : List (Call μ)

section Gather
variable {μ : Type} (o : Options)

/-- The loop over the plugins, from what was gathered by then and what the variables hold: all that
is gathered, and whether `gather` returns there; `none` is the variable that has no value. -/
def gatherEach (so_far : Nat) (keep_going : Bool) (last : Option (List μ)) (incoming : List μ) :
    List (Gathered μ) → Option (List μ × Bool)
  | [] => some (incoming, false)
  | .crashed :: plugins => gatherEach so_far keep_going last incoming plugins
  | retval :: plugins =>
    let (keep_going, last) := match retval with
      | .pair keep_going new_incoming => (keep_going, some new_incoming)
      | .list new_incoming => (keep_going, some new_incoming)
      | _ => (keep_going, last)
    match last with
    | none => none
    | some new_incoming =>
      let incoming := incoming ++ new_incoming
      let so_far := so_far + new_incoming.length
      if !keep_going || o.batch ≤ so_far then some (incoming, true)
      else gatherEach so_far keep_going (some new_incoming) incoming plugins

/-- What is incoming after `gather`, and `last_poll_gather_len`. -/
def gather (have_vip : Bool) (t : Turn μ) : Option (List μ × Nat) :=
  (gatherEach o 0 true none [] t.gathers).map fun (incoming, returned) =>
    if returned || !o.poll || !incoming.isEmpty || !have_vip then (incoming, 0)
    else
      let incoming := t.polls.flatMap fun polled => polled.getD []
      (incoming, incoming.length)

end Gather

section Turns
variable {μ : Type} (o : Options)

def State.call (s : State μ) (c : Call μ) : State μ := { s with calls := s.calls ++ [c] }

/-- The metrics are reset, those of the retry plugin among them. -/
def State._runHousekeeping (s : State μ) (now : ℚ) : State μ :=
  { s.call (.on_housekeeping now) with
    next_housekeeping := now + o.housekeeping
    retry := none }

def State.please_stop (s : State μ) : State μ :=
  { s.call .please_stop with stop_requested := true }

def State.close (s : State μ) : State μ := { s.call .on_stop with novip := false, ended := true }

def State._run_vip_update (s : State μ) (has_vip : Bool) : State μ :=
  if o.poll && !has_vip then
    { s with have_vip := has_vip, had_vip := false, novip := s.novip || s.had_vip }
  else { s with have_vip := has_vip, had_vip := true, novip := s.novip && s.had_vip }

/-- Housekeeping, or else `on_start` if the clock has not been read since. -/
def State.opens (s : State μ) : State μ :=
  if s.next_housekeeping < s.now || s.stopping then s._runHousekeeping o s.now
  else if s.now = s.start_time then s.call .on_start
  else s

/-- What is incoming: nothing more is gathered by a flow that stops. -/
def State.gathers (s : State μ) (t : Turn μ) : Option (State μ × List μ) :=
  if s.stopping then some (s, [])
  else (gather o s.have_vip t).map fun (incoming, polled) =>
    ({ s.call .gather with last_poll_gather_len := polled }, incoming)

/-- `filter`, `work` and `post`. A poll that polled nothing posts retries only. -/
def State.processes (s : State μ) (t : Turn μ) (incoming : List μ) : State μ :=
  { ((s.call (.filter incoming)).call .work).call
      (.post (o.poll && s.last_poll_gather_len = 0)) with
    last_gather_len := incoming.length
    spamming := incoming.isEmpty
    current_sleep := if incoming.isEmpty then s.current_sleep else o.sleep
    after_filter_len := t.kept
    retry := t.retry }

/-- The part of a turn that only an active flow has, or a poll. -/
def State.works (s : State μ) (t : Turn μ) : Option (State μ) :=
  if o.poll || s.have_vip then
    (s.gathers o t).map fun (s, incoming) => s.processes o t incoming
  else some s

/-- The clock is read and the messages are counted. -/
def State.reads (s : State μ) (t : Turn μ) : State μ :=
  { s with now := t.now, total_messages := s.total_messages + s.after_filter_len }

def State.counts (s : State μ) : State μ :=
  if 0 < o.messageCountMax ∧ o.messageCountMax < s.total_messages then s.please_stop else s

def waitsForRetries (retry : Option (Nat × Nat)) : Bool :=
  retry.any fun (post, download) => 0 < post || 0 < download

/-- A flow that does not sleep is done when it gathers nothing. -/
def State.idles (s : State μ) : State μ :=
  if s.last_gather_len = 0 ∧ o.sleep < 0 then
    if o.retryEmptyBeforeExit && waitsForRetries s.retry then
      { s with next_housekeeping := s.now - 1, current_sleep := 1 / 10 }
    else s.please_stop
  else s

def State.slows (s : State μ) : State μ :=
  let current_sleep := if s.spamming then 2 * s.current_sleep else s.current_sleep
  { s with current_sleep := if o.sleepMax < current_sleep then o.sleepMax else current_sleep }

def State.keeps_house (s : State μ) : State μ :=
  if s.next_housekeeping < s.now || s.stopping then s._runHousekeeping o s.now else s

/-- How long to sleep for the rate. -/
def throttle (current_rate : ℚ) : ℚ :=
  if 0 < o.messageRateMax ∧ o.messageRateMax ≤ current_rate then
    1 + 2 * ((current_rate - o.messageRateMax) / o.messageRateMax)
  else 0

def State.nap (s : State μ) (increment : ℚ) (nap : Nap) : State μ :=
  { s.call (.sleep increment) with stop_requested := s.stop_requested || nap.stop }

/-- Housekeeping in a long sleep. -/
def State.looks (s : State μ) (now_for_hk : ℚ) : State μ :=
  if s.next_housekeeping < now_for_hk then s._runHousekeeping o now_for_hk else s

/-- The loop of the naps, of which there are so many at most. -/
def State.naps (naps : Nat → Nap) : Nat → Nat → ℚ → State μ → State μ
  | 0, _, _, s => s
  | n + 1, k, stime, s =>
    if stime ≤ 0 then s
    else if (s.nap (min 5 stime) (naps k)).stop_requested then s.nap (min 5 stime) (naps k)
    else State.naps naps n (k + 1) (stime - min 5 stime)
      ((s.nap (min 5 stime) (naps k)).looks o (naps k).now)

/-- How long to sleep in all; nothing is slept after a turn that took too long. -/
def State.stime (s : State μ) (throttled : ℚ) : Option ℚ :=
  let elapsed := s.now - s.last_time
  if 0 < s.current_sleep then
    if elapsed < s.current_sleep then some (throttled + (s.current_sleep - elapsed)) else none
  else some throttled

/-- The end of a turn. -/
def State.sleeps (s : State μ) (t : Turn μ) (throttled : ℚ) : State μ :=
  match s.stime throttled with
  | none => { s with last_time := s.now, stop_requested := s.stop_requested || t.stopLate }
  | some stime =>
    if s.stop_requested || t.stopLate then { s with stop_requested := true }
    else if stime ≤ 0 then s
    else { s.naps o t.naps ⌈stime / 5⌉₊ 0 stime with last_time := t.woken }

/-- The beginning of a turn that is not the end. -/
def State.begins (s : State μ) (t : Turn μ) : State μ :=
  { s with
    stop_requested := s.stop_requested || t.stop
    stopping := s.stop_requested || t.stop }

/-- What follows once the clock is read. -/
def State.rests (s : State μ) (t : Turn μ) : State μ :=
  (((s.idles o).slows o).keeps_house o).sleeps o t
    (throttle o (s.total_messages / (s.now - s.start_time)))

/-- One turn; none is an exception, or that there is none any more. -/
def step (s : State μ) (t : Turn μ) : Option (State μ) :=
  if s.ended then none
  else if (s.stop_requested || t.stop) && s.stopping then
    some { s.close with stop_requested := true }
  else do
    let s ← (((s.begins t)._run_vip_update o t.has_vip).opens o).works o t
    -- the rate is a quotient
    if (s.reads t).now = s.start_time then none else return ((s.reads t).counts o).rests o t

/-- The state before the first turn, from the two readings of the clock. -/
def State.start (before now : ℚ) (novip : Bool) : State μ where
  now := now
  start_time := now
  next_housekeeping := before + o.housekeeping
  current_sleep := o.sleep
  last_time := now
  total_messages := 1
  last_gather_len := 0
  after_filter_len := 0
  last_poll_gather_len := 0
  spamming := true
  stopping := false
  stop_requested := false
  have_vip := false
  had_vip := !novip
  novip := novip
  retry := none
  ended := false
  calls := []

end Turns
end Sarracenia.Source.FlowRun
