import Mathlib.Data.List.Sort
import Sarracenia.Library.Dynamic
import Sarracenia.Source.TimeNotation

/-!
# Gathering at set times (`sarracenia/flowcb/scheduled/__init__.py`)

An instant is the number of microseconds since the epoch, and all of them are in UTC.
-/
namespace Sarracenia.Source.Scheduled
open Library Library.Text Library.Dynamic Source.TimeNotation

def minuteLength : Int := 60 * 1000000

def hourLength : Int := 60 * minuteLength

def dayLength : Int := 24 * hourLength

/-- The number of the day, and the hour and the minute in it. -/
def dayOf (t : Int) : Int := t / dayLength

def hour (t : Int) : Int := t % dayLength / hourLength

def minute (t : Int) : Int := t % hourLength / minuteLength

/-- The options; an interval is in microseconds. -/
structure Options where
  scheduled_interval : Int
  scheduled_hour : List Str
  scheduled_minute : List Str
  scheduled_time : List Str

/-- What `__init__` makes of the options. -/
structure Plan where
  sched_times : List Str
  hours : List Int
  minutes : List Int

structure State where
  appointments : List Int
  next_gather_time : Option Int
  stop_requested : Bool

section Plan

/-- `sum([x.split(',') for x in option], [])`. -/
def splitAll (option : List Str) : List Str := option.flatMap (split [','])

def ints : List Str → Except Fault (List Int)
  | [] => .ok []
  | x :: xs => do return (← int x) :: (← ints xs)

def plan (o : Options) : Except Fault Plan := do
  let hours ← if splitAll o.scheduled_hour = [] then .ok ((List.range 24).map Int.ofNat)
    else ints (splitAll o.scheduled_hour)
  let minutes ← if splitAll o.scheduled_minute = [] then .ok [0] else ints (splitAll o.scheduled_minute)
  return ⟨splitAll o.scheduled_time, hours, minutes⟩

end Plan

section Appointments
variable (o : Options) (p : Plan)

/-- `datetime.datetime.combine(when, datetime.time(h, m))`. -/
def combine (when : Int) (h m : Int) : Except Fault Int :=
  if 0 ≤ h ∧ h < 24 ∧ 0 ≤ m ∧ m < 60 then .ok (dayOf when * dayLength + h * hourLength + m * minuteLength)
  else .error .valueError

/-- The appointment of the day, unless that time is passed. -/
def appointment (when : Int) (h m : Int) : Except Fault (Option Int) :=
  if hour when < h ∨ h = hour when ∧ minute when ≤ m then (combine when h m).map some else .ok none

def hourAppointments (when : Int) : List (Int × Int) → Except Fault (List Int)
  | [] => .ok []
  | (h, m) :: times => do return (← appointment when h m).toList ++ (← hourAppointments when times)

/-- `hour,minute=time.split(':')`, and both as numbers. -/
def timeOf (time : Str) : Except Fault (Int × Int) :=
  match split [':'] time with
  | [hour, minute] => do return (← int hour, ← int minute)
  | _ => .error .valueError

def timeAppointments (when : Int) : List Str → Except Fault (List Int)
  | [] => .ok []
  | time :: times => do
    let (h, m) ← timeOf time
    return (← appointment when h m).toList ++ (← timeAppointments when times)

def Options.byHour : Bool := !o.scheduled_minute.isEmpty || !o.scheduled_hour.isEmpty

def update_appointments (when : Int) : Except Fault (List Int) := do
  let fixed ← if o.byHour then hourAppointments when (p.hours ×ˢ p.minutes) else .ok []
  let timed ← if o.scheduled_time.isEmpty then .ok [] else timeAppointments when p.sched_times
  return (fixed ++ timed).insertionSort (· ≤ ·)

/-- Five minutes, where nothing is scheduled. -/
def default_wait : Int := 300 * 1000000

/-- The list for the day after the reading of the clock. -/
def tomorrow (time : Int) : Except Fault (List Int) :=
  update_appointments o p ((dayOf time + 1) * dayLength)

/-- `time` is the reading taken where the list for the day has come to its end. -/
def calc_next_gather_time (last_gather time : Int) (s : State) : Except Fault State := do
  let appointments := s.next_gather_time.elim s.appointments s.appointments.erase
  if 0 < o.scheduled_interval then
    return { s with appointments, next_gather_time := some (last_gather + o.scheduled_interval) }
  else if o.scheduled_hour ≠ [] ∨ o.scheduled_minute ≠ [] ∨ o.scheduled_time ≠ [] then
    -- those missed stand first in the list, and are taken out of it
    match appointments.dropWhile (· ≤ last_gather) with
    | next_appointment :: later =>
      return { s with
        appointments := next_appointment :: later, next_gather_time := some next_appointment }
    | [] =>
      match ← tomorrow o p time with
      | [] => .error .indexError
      | next_appointment :: later =>
        return { s with
          appointments := next_appointment :: later, next_gather_time := some next_appointment }
  else return { s with appointments, next_gather_time := some (last_gather + default_wait) }

/-- `Scheduled(options)`, with the readings of the clock it takes. -/
def new (now last_gather time : Int) : Except Fault State := do
  let appointments ← update_appointments o p now
  if 0 < o.scheduled_interval then return ⟨appointments, some now, false⟩
  else calc_next_gather_time o p last_gather time ⟨appointments, none, false⟩

/-- Whether it is time, and what is planned then. -/
def ready_to_gather (current_time time : Int) (s : State) : Except Fault (State × Bool) :=
  match s.next_gather_time with
  | none => .error .typeError
  | some next_gather_time =>
    if next_gather_time ≤ current_time ∧ !s.stop_requested then
      (calc_next_gather_time o p current_time time s).map fun s => (s, true)
    else .ok (s, false)

def please_stop (s : State) : State := { s with stop_requested := true }

end Appointments

end Sarracenia.Source.Scheduled
