import Sarracenia.Source.Filter

/-!
# Delaying messages, of each path the latest (`sarracenia/flowcb/mdelaylatest.py`)

A reading of the clock is taken for each batch, and one more for each message that is held then.
-/
namespace Sarracenia.Source.MDelayLatest
open Library Library.Text Library.Dynamic Source Source.Filter

/-- The plugin: what it holds, and what it is told. -/
structure State where
  ok_delay : List Held
  stop_requested : Bool
  suppressions : Nat

/-- `MDelayLatest(options)`. -/
def State.new : State := ⟨[], false, 0⟩

/-- `m['relPath']`, which is a text. -/
def relPath (m : Held) : Except Fault Str := do (← m.fields.item "relPath").asStr

/-- `'fileOp' in m`. -/
def isFileOp (m : Held) : Bool := (m.fields.get "fileOp").isSome

section Batch

/-- What becomes of the held messages when one comes: those released, those rejected, those
held, and whether it has been put in the place of one. -/
structure Scan where
  released : List Held
  rejected : List Held
  held : List Held
  wait : Bool

/-- The inner loop, over the messages that are held. -/
def scan (m1 : Held) : List Held → Except Fault Scan
  | [] => .ok ⟨[], [], [], false⟩
  | m2 :: ok_delay => do
    if (← relPath m1) = (← relPath m2) then
      let rest ← scan m1 ok_delay
      if isFileOp m2 || isFileOp m1 then
        return ⟨m2 :: rest.released, rest.rejected, m1 :: rest.held, true⟩
      else return ⟨rest.released, m2 :: rest.rejected, m1 :: rest.held, true⟩
    else
      let rest ← scan m1 ok_delay
      return { rest with held := m2 :: rest.held }

/-- What the outer loop has come to. -/
structure Progress where
  ok_delay : List Held
  new_incoming : List Held
  rejected : List Held
  suppressions : Nat

variable (mdelay : ℚ)

/-- The body of the outer loop, for a message that comes. -/
def arriveOne (now : ℚ) (m1 : Held) (p : Progress) : Except Fault Progress := do
  let elapsedtime := now - (← timeOf m1.fields "pubTime")
  let found ← scan m1 p.ok_delay
  let p := {
    ok_delay := found.held
    new_incoming := p.new_incoming ++ found.released
    rejected := p.rejected ++ found.rejected
    suppressions := p.suppressions + found.rejected.length }
  if !found.wait ∧ elapsedtime < mdelay then return { p with ok_delay := p.ok_delay ++ [m1] }
  else if found.wait then return p
  else return { p with new_incoming := p.new_incoming ++ [m1] }

def arrive (now : ℚ) : List Held → Progress → Except Fault Progress
  | [], p => .ok p
  | m1 :: incoming, p => do arrive now incoming (← arriveOne mdelay now m1 p)

/-- The second loop: what has been held for long enough, by a reading of its own, and what has
not. -/
def due : (Nat → ℚ) → List Held → Except Fault (List Held × List Held)
  | _, [] => .ok ([], [])
  | clock, m1 :: ok_delay => do
    let elapsedtime := clock 0 - (← timeOf m1.fields "pubTime")
    let (released, held) ← due (fun i => clock (i + 1)) ok_delay
    if mdelay ≤ elapsedtime then return (m1 :: released, held) else return (released, m1 :: held)

/-- `after_accept`; `clock` gives the readings in turn. -/
def after_accept (clock : Nat → ℚ) (s : State) (worklist : Worklist) : Except Fault (State × Worklist) := do
  let p ← arrive mdelay (clock 0) worklist.incoming ⟨s.ok_delay, [], worklist.rejected, s.suppressions⟩
  let (released, held) ← due mdelay (fun i => clock (i + 1)) p.ok_delay
  let incoming := p.new_incoming ++ released
  if s.stop_requested then
    return (⟨[], true, p.suppressions⟩,
      { worklist with incoming := incoming ++ held, rejected := p.rejected })
  else
    return (⟨held, false, p.suppressions⟩, { worklist with incoming, rejected := p.rejected })

end Batch

/-- `please_stop`. -/
def please_stop (s : State) : State := { s with stop_requested := true }

def on_housekeeping (s : State) : State := { s with suppressions := 0 }

end Sarracenia.Source.MDelayLatest
