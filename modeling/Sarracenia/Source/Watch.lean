import Sarracenia.Library.Dynamic
import Sarracenia.Library.Table

/-!
# Watching directories (`sarracenia/flowcb/gather/file.py`)

The events of the file system are put in a table as they come, and `gather` turns them into
messages. What a file looks like and the messages made of it are those of the moment, and so is
the walk over the directories when `gather` is first called.
-/
namespace Sarracenia.Source.Watch
open Library Library.Text Library.Dynamic

inductive Kind where
  | mkdir | create | rmdir | delete | modify | move | link
  deriving DecidableEq, Repr

structure Event where
  event : Kind
  src : Str
  dst : Option Str
  deriving DecidableEq, Repr

/-- `f'{src} {dst}'`. -/
def Event.key (e : Event) : Str := e.src ++ ' ' :: e.dst.getD "None".toList

structure Options where
  batch : Nat
  sleep : ℚ
  fileEvents : List Kind
  fileAgeMin : ℚ
  fileAgeMax : ℚ

def Options.create_modify (o : Options) : Bool := .create ∈ o.fileEvents || .modify ∈ o.fileEvents

structure State (μ : Type) where
  new_events : Table Str Event
  left_events : Table Str Event
  queued_messages : List μ
  primed : Bool

/-- The plugin after `on_start`. -/
def State.start {μ : Type} : State μ := ⟨Table.empty, Table.empty, [], false⟩

/-! ## One event -/

structure Stat where
  st_mtime : Option ℚ

/-- What is found of the files, and the messages made of them. -/
structure Moment (μ : Type) where
  time : ℚ
  islink : Str → Bool
  exists_ : Str → Bool
  stat : Str → Except Fault Stat
  post1file : Str → Option Stat → Bool → Except Fault (List μ)
  post1move : Str → Option Str → Except Fault (List μ)

section Process
variable {μ : Type} (o : Options) (now : Moment μ)

/-- Whether the event is done, and its messages. -/
def done (messages : Except Fault (List μ)) : Except Fault (Bool × List μ) :=
  messages.map fun messages => (true, messages)

/-- From the age of the file on. -/
def process_file (event : Kind) (src : Str) : Except Fault (Bool × List μ) := do
  let lstat ← now.stat src
  match lstat.st_mtime with
  | none => .error .attributeError
  | some st_mtime =>
    let age := now.time - st_mtime
    if age < o.fileAgeMin then return (false, [])
    else if 0 < o.fileAgeMax ∧ o.fileAgeMax < age then return (true, [])
    else if event = .mkdir then
      if .mkdir ∈ o.fileEvents then done (now.post1file src (some lstat) true) else return (true, [])
    else if o.create_modify then done (now.post1file src (some lstat) false)
    else return (true, [])

def process_event (e : Event) : Except Fault (Bool × List μ) :=
  if e.event = .delete then
    if e.event ∈ o.fileEvents then done (now.post1file e.src none false) else .ok (true, [])
  else if e.event = .rmdir then
    if e.event ∈ o.fileEvents then done (now.post1file e.src none true) else .ok (true, [])
  else if e.event = .move ∧ o.create_modify then done (now.post1move e.src e.dst)
  else if now.islink e.src then
    if .link ∈ o.fileEvents then done (now.post1file e.src none false) else .ok (true, [])
  else if !now.exists_ e.src then .ok (true, [])
  else process_file o now e.event e.src

end Process

/-! ## The notices of the observer -/

inductive Notice where
  | created (is_directory : Bool) (src_path : Str)
  | deleted (is_directory : Bool) (src_path : Str)
  | modified (is_directory : Bool) (src_path : Str)
  | moved (src_path dest_path : Str)

/-- What `on_created`, `on_deleted`, `on_modified` and `on_moved` add. -/
def Notice.event : Notice → Option Event
  | created is_directory src => some ⟨if is_directory then .mkdir else .create, src, none⟩
  | deleted is_directory src => some ⟨if is_directory then .rmdir else .delete, src, none⟩
  | modified is_directory src => if is_directory then none else some ⟨.modify, src, none⟩
  | moved src dst => some ⟨.move, src, some dst⟩

/-! ## Gathering -/

section Gather
variable {μ : Type} (o : Options) (process : Event → Except Fault (Bool × List μ))

/-- `on_add`: the latest event of a key stands for the key. -/
def on_add (e : Event) (s : State μ) : State μ := { s with new_events := s.new_events.set e.key e }

def notice (n : Notice) (s : State μ) : State μ := n.event.elim s (on_add · s)

/-- The loop of `wakeup`: the events that are left, and the messages unless it raises. An
`OSError` is the end of an event. -/
def wakeupLoop : List (Str × Event) → Table Str Event → List μ → Table Str Event × Except Fault (List μ)
  | [], left, messages => (left, .ok messages)
  | (key, e) :: cur_events, left, messages =>
    match process e with
    | .ok (event_done, new_messages) =>
      wakeupLoop cur_events (if event_done then left.erase key else left) (messages ++ new_messages)
    | .error .osError => wakeupLoop cur_events (left.erase key) messages
    | .error fault => (left, .error fault)

def wakeup (messages : List μ) (s : State μ) : State μ × Except Fault (List μ) :=
  let left := s.left_events.update s.new_events
  let (left, answer) := wakeupLoop process left.entries left messages
  ({ s with left_events := left, new_events := Table.empty }, answer)

/-- `gather`; `prime` is what the walk over `postpath` gives. -/
def gather (prime : Except Fault (List μ)) (s : State μ) : State μ × Except Fault (List μ) :=
  if o.batch < s.queued_messages.length then
    ({ s with queued_messages := s.queued_messages.drop o.batch }, .ok (s.queued_messages.take o.batch))
  else if s.queued_messages ≠ [] ∧ o.sleep < 0 then
    ({ s with queued_messages := [] }, .ok s.queued_messages)
  else
    let messages := s.queued_messages
    let s := { s with queued_messages := [] }
    if s.primed then wakeup process messages s
    else match prime with
      | .error fault => (s, .error fault)
      | .ok walked =>
        let messages := messages ++ walked
        ({ s with queued_messages := messages.drop o.batch, primed := true }, .ok (messages.take o.batch))

end Gather

end Sarracenia.Source.Watch
