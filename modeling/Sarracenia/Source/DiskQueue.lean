import Sarracenia.Source.Message
import Sarracenia.Source.TimeNotation

/-!
# The disk queue (`sarracenia/diskqueue.py`)

Three text files hold the queue: the queue file, `.new` for what is added, and
`.hk` while housekeeping merges the two. An operation is given by the disk after
each of its file-system effects, so that a process can be stopped between any two
of them, and by the memory it leaves. Modification times are the numbers of the
writes. `jsonpickle` stands outside the repository and is a parameter.
-/
namespace Sarracenia.Source.DiskQueue
open Library Library.Text Library.Dynamic Source.TimeNotation

/-- `jsonpickle`: text of a message and of a value, and the object a line denotes,
which is `none` when it is not a message. -/
structure Codec where
  encode : Message → Str
  encodeValue : Value → Str
  decode : Str → Except Fault (Option Message)

structure Options where
  retry_ttl : Option ℚ

structure File where
  text : Str
  mtime : Nat
  deriving DecidableEq, Repr

structure Disk where
  queue_file : Option File
  new_path : Option File
  housekeeping_path : Option File
  writes : Nat
  deriving DecidableEq, Repr

/-- An open reader: what each remaining line with something to report gives, a
message or the exception its decoding raises. -/
abbrev Reader := List (Except Fault Message)

structure Memory where
  queue_fp : Option Reader
  msg_count : Int
  msg_count_new : Int
  now : ℚ
  deriving Repr

/-- What an operation does: the disk after each effect, the memory it leaves, the
messages it returns and whether it raises. -/
structure Outcome where
  trail : List Disk
  memory : Memory
  returned : List Message
  raised : Bool

def Outcome.disk (start : Disk) (o : Outcome) : Disk := o.trail.getLast?.getD start

section Messages
variable (c : Codec) (o : Options)

def msgFromJSON (line : Str) : Except Fault (Option Message) :=
  match c.decode line with
  | .error .valueError => .ok none
  | decoded => decoded

def msgToJSON (message : Message) : Str := c.encode message ++ ['\n']

/-- A reader on a file: `msg_get_from_file` skips the lines that hold no message. -/
def openRead (file : File) : Reader :=
  (lines file.text).filterMap fun line =>
    match msgFromJSON c line with
    | .error e => some (.error e)
    | .ok none => none
    | .ok (some message) => some (.ok message)

def _count_msgs (file : File) : Int := ((lines file.text).filter fun line => '{' ∈ line).length

/-- The key that `in_cache` looks up, `none` where no field can serve as one. -/
def cache_key (message : Message) : Except Fault (Option Str) := do
  let baseUrl ← (← message.item "baseUrl").asStr
  let relPath ← (← message.item "relPath").asStr
  let urlstr := baseUrl ++ '/' :: relPath
  let sumstr ← match message.get "noDupe" with
    | some (.dict noDupe) => (Dict.item noDupe "key").map fun v => some (c.encodeValue v)
    | some _ => .error .typeError
    | none => .ok <| match message.get "fileOp", message.get "identity", message.get "pubTime" with
      | some fileOp, _, _ => some (c.encodeValue fileOp)
      | none, some identity, _ => some (c.encodeValue identity)
      | none, none, some pubTime => some (c.encodeValue pubTime)
      | none, none, none => none
  match sumstr with
  | none => return none
  | some sumstr =>
    match message.get "parts" with
    | none => return some (urlstr ++ ' ' :: sumstr)
    | some parts => return some (urlstr ++ ' ' :: sumstr ++ ' ' :: (← parts.asStr))

/-- Whether the message is in the cache, and the cache with it. -/
def in_cache (retry_cache : List Str) (message : Message) : Except Fault (Bool × List Str) := do
  match ← cache_key c message with
  | none => return (false, retry_cache)
  | some key => return if key ∈ retry_cache then (true, retry_cache) else (false, key :: retry_cache)

def is_expired (now : ℚ) (message : Message) : Except Fault Bool :=
  match o.retry_ttl with
  | none => .ok false
  | some retry_ttl =>
    if retry_ttl ≤ 0 then .ok false
    else do
      let msg_time ← timestr2flt (← (← message.item "pubTime").asStr)
      return decide (now - msg_time > retry_ttl)

def needs_requeuing (now : ℚ) (retry_cache : List Str) (message : Message) :
    Except Fault (Bool × List Str) := do
  let (cached, retry_cache) ← in_cache c retry_cache message
  if cached then return (false, retry_cache)
  if ← is_expired o now message then return (false, retry_cache)
  return (true, retry_cache)

end Messages

section Effects

/-- Opening creates the file, and only a write changes its time. -/
def Disk.append_new (text : Str) (d : Disk) : Disk :=
  if text.isEmpty && d.new_path.isSome then d
  else { d with
    new_path := some ⟨(d.new_path.elim [] File.text) ++ text, d.writes⟩
    writes := d.writes + 1 }

def Disk.write_housekeeping (text : Str) (d : Disk) : Disk :=
  { d with housekeeping_path := some ⟨text, d.writes⟩, writes := d.writes + 1 }

def Disk.unlink_queue (d : Disk) : Disk := { d with queue_file := none }

def Disk.unlink_new (d : Disk) : Disk := { d with new_path := none }

def Disk.unlink_housekeeping (d : Disk) : Disk := { d with housekeeping_path := none }

def Disk.rename_housekeeping (d : Disk) : Disk :=
  { d with queue_file := d.housekeeping_path, housekeeping_path := none }

end Effects

section Operations
variable (c : Codec) (o : Options)

/-- `__init__`: a `.new` file older than the queue file has been merged already. -/
def start (now : ℚ) (d : Disk) : Outcome :=
  match d.queue_file with
  | none => ⟨[], ⟨none, 0, 0, now⟩, [], false⟩
  | some queue =>
    match d.new_path with
    | none => ⟨[], ⟨none, _count_msgs queue, 0, now⟩, [], false⟩
    | some new =>
      if queue.mtime > new.mtime then
        ⟨[d.unlink_new], ⟨none, _count_msgs queue, 0, now⟩, [], false⟩
      else ⟨[], ⟨none, _count_msgs queue, _count_msgs new, now⟩, [], false⟩

/-- The whole batch reaches the file with the one flush at its end. -/
def put (message_list : List Message) (d : Disk) (m : Memory) : Outcome :=
  ⟨[d.append_new (message_list.flatMap (msgToJSON c))],
    { m with msg_count_new := m.msg_count_new + message_list.length }, [], false⟩

/-- `del message['ack_id']; message['_deleteOnPost'].remove('ack_id')`. -/
def forget_ack_id (message : Message) : Except Fault Message :=
  if (message.get "ack_id").isNone then .ok message
  else do
    let message := message.del "ack_id"
    match ← message.item "_deleteOnPost" with
    | .set names =>
      if "ack_id" ∈ names then .ok (message.set "_deleteOnPost" (.set (names.erase "ack_id")))
      else .error .keyError
    | .list names =>
      if names.any (Value.equals "ack_id".toList) then
        .ok (message.set "_deleteOnPost" (.list (names.eraseP (Value.equals "ack_id".toList))))
      else .error .valueError
    | _ => .error .attributeError

/-- How the loop of `get` ends: with enough messages, at the end of the file, or raising. -/
inductive Got where
  | enough (queue_fp : Option Reader) (ml : List Message) (msg_count : Int)
  | finished (ml : List Message)
  | raised (queue_fp : Option Reader) (msg_count : Int)

/-- `queue_fp` is the reader that the object holds: a reader opened by this call is
held from its first message on. -/
def getLoop (now : ℚ) (maximum_messages_to_get : Int) :
    Reader → Option Reader → List Message → Int → Got
  | fp, queue_fp, ml, msg_count =>
    if maximum_messages_to_get ≤ ml.length then .enough queue_fp ml msg_count
    else
      match fp with
      | [] => .finished ml
      | .error _ :: fp => .raised (queue_fp.map fun _ => fp) msg_count
      | .ok message :: fp =>
        if message.isEmpty then .finished ml
        else
          match is_expired o now message with
          | .error _ => .raised (some fp) msg_count
          | .ok true => getLoop now maximum_messages_to_get fp (some fp) ml (msg_count - 1)
          | .ok false =>
            match forget_ack_id message with
            | .error _ => .raised (some fp) msg_count
            | .ok message =>
              getLoop now maximum_messages_to_get fp (some fp) (ml ++ [message]) (msg_count - 1)

def get (maximum_messages_to_get : Int) (d : Disk) (m : Memory) : Outcome :=
  if m.msg_count = 0 ∧ m.queue_fp.isNone then ⟨[], m, [], false⟩
  else
    let unlinked := if d.queue_file.isSome then [d.unlink_queue] else []
    let fp := m.queue_fp.getD (d.queue_file.elim [] (openRead c))
    match getLoop o m.now maximum_messages_to_get fp m.queue_fp [] m.msg_count with
    | .finished ml => ⟨unlinked, { m with queue_fp := none, msg_count := 0 }, ml, false⟩
    | .enough queue_fp ml msg_count =>
      if msg_count = 0 then ⟨unlinked, { m with queue_fp := none, msg_count := 0 }, ml, false⟩
      else ⟨[], { m with queue_fp := queue_fp, msg_count := msg_count }, ml, false⟩
    | .raised queue_fp msg_count =>
      ⟨[], { m with queue_fp := queue_fp, msg_count := msg_count }, [], true⟩

/-- What the two loops of housekeeping have done: the messages written to `.hk`, and
the text handed to `write`. -/
structure Merge where
  retry_cache : List Str
  written : List Message
  text : Str

/-- The write that fails, counted from the first, the close of `.hk` being the last;
and how much of the text had reached the disk when an exception is raised. -/
structure Failure where
  failing : Option Nat
  spilled : Nat

def Failure.none : Failure := ⟨Option.none, 0⟩

/-- One loop of housekeeping, over one of the two files; the error carries what had
been done when it was raised. -/
def merge (now : ℚ) (io : Failure) : Reader → Merge → Except Merge Merge
  | [], done => .ok done
  | .error _ :: _, done => .error done
  | .ok message :: fp, done =>
    if message.isEmpty then .ok done
    else
      match needs_requeuing c o now done.retry_cache message with
      | .error _ => .error done
      | .ok (false, retry_cache) => merge now io fp { done with retry_cache }
      | .ok (true, retry_cache) =>
        let text := done.text ++ msgToJSON c message
        if io.failing = some done.written.length then .error { done with text }
        else merge now io fp ⟨retry_cache, done.written ++ [message], text⟩

def readFile (file : Option File) : Reader := file.elim [] (openRead c)

def mergeFiles (now : ℚ) (io : Failure) (d : Disk) : Except Merge Merge := do
  let done ← merge c o now io (readFile c d.queue_file) ⟨[], [], []⟩
  let done ← merge c o now io (readFile c d.new_path) done
  if io.failing = some done.written.length then .error done else return done

/-- Whether housekeeping leaves the files alone until the retries are finished. -/
def still_retrying (d : Disk) (m : Memory) : Bool :=
  (d.queue_file.isSome && m.queue_fp.isSome) || m.msg_count != 0

/-- The `.hk` file while it grows to its final text. -/
def growing (final : Str) (d : Disk) : List Disk :=
  (List.range (final.length + 1)).map fun n =>
    { d with housekeeping_path := some ⟨final.take n, d.writes + n⟩, writes := d.writes + n + 1 }

/-- The messages written and the text that reached `.hk`: an exception is swallowed,
and what follows uses whatever was written until then. -/
def written (io : Failure) : Except Merge Merge → List Message × Str
  | .ok done => (done.written, done.text)
  | .error done => (done.written, done.text.take io.spilled)

def on_housekeeping (io : Failure) (now : ℚ) (d : Disk) (m : Memory) : Outcome :=
  if still_retrying d m then ⟨[], m, [], false⟩
  else
    let (kept, final) := written io (mergeFiles c o now io d)
    let created := d.unlink_housekeeping.write_housekeeping []
    let grown := growing final created
    let closed := grown.getLast?.getD created
    let N := kept.length
    let moved := if N = 0 then closed.unlink_housekeeping else closed.rename_housekeeping
    ⟨d.unlink_housekeeping :: created :: grown ++ [moved, moved.unlink_new],
      ⟨none, N, 0, now⟩, [], false⟩

/-- The queue file is removed and its count with it; `.new` and the open reader stay. -/
def cleanup (d : Disk) (m : Memory) : Outcome :=
  ⟨if d.queue_file.isSome then [d.unlink_queue] else [], { m with msg_count := 0 }, [], false⟩

def close (m : Memory) : Outcome :=
  ⟨[], { m with queue_fp := none, msg_count := 0, msg_count_new := 0 }, [], false⟩

/-- `__len__`. -/
def Memory.len (m : Memory) : Int := max 0 m.msg_count + m.msg_count_new

end Operations

end Sarracenia.Source.DiskQueue

/-!
## The process that owns a disk queue

A process constructs the queue object and calls its operations one after the
other. It can die between any two file-system effects of an operation, and in
`put` after any part of the batch has reached `.new`; what is left is the disk.
-/
namespace Sarracenia.Source.DiskQueue
open Library Library.Text Library.Dynamic

inductive Op where
  | start (now : ℚ)
  | put (message_list : List Message)
  | get (maximum_messages_to_get : Int)
  | on_housekeeping (now : ℚ) (spilled : Nat)

/-- The disk, and the queue object while a process has one. -/
structure State where
  disk : Disk
  process : Option Memory

def noFiles : State := ⟨⟨none, none, none, 0⟩, none⟩

inductive Event where
  | run (op : Op)
  | die (op : Op) (effects : Nat)
  | tear (message_list : List Message) (bytes : Nat)

/-- The disk after so many effects of an operation, or after all of them. -/
def Outcome.diskAfter (start : Disk) (out : Outcome) (effects : Nat) : Disk :=
  (start :: out.trail)[effects]?.getD (out.disk start)

variable (c : Codec) (o : Options)

/-- An operation of the queue object needs one; a new one can always be made. -/
def perform (s : State) : Op → Option Outcome
  | .start now => some (start now s.disk)
  | .put message_list => s.process.map (put c message_list s.disk)
  | .get maximum => s.process.map (get c o maximum s.disk)
  | .on_housekeeping now spilled => s.process.map (on_housekeeping c o ⟨none, spilled⟩ now s.disk)

/-- One event, with what it returns to the caller. -/
def step (s : State) : Event → State × List Message
  | .run op =>
    match perform c o s op with
    | none => (s, [])
    | some out => (⟨out.disk s.disk, some out.memory⟩, out.returned)
  | .die op effects =>
    match perform c o s op with
    | none => (s, [])
    | some out => (⟨out.diskAfter s.disk effects, none⟩, [])
  | .tear message_list bytes =>
    match s.process with
    | none => (s, [])
    | some _ => (⟨s.disk.append_new ((message_list.flatMap (msgToJSON c)).take bytes), none⟩, [])

/-- What a sequence of operations returns. -/
def returns : State → List Op → List Message
  | _, [] => []
  | s, op :: ops => (step c o s (.run op)).2 ++ returns (step c o s (.run op)).1 ops

/-- The queue object on its directory. -/
structure Queue where
  disk : Disk
  memory : Memory

/-- A call of the queue object; it can be closed and made anew on what is on the disk. -/
inductive Call where
  | put (message_list : List Message)
  | get (maximum_messages_to_get : Int)
  | on_housekeeping (now : ℚ) (spilled : Nat)
  | cleanup
  | reopen (now : ℚ)

def Outcome.queue (start : Disk) (out : Outcome) : Queue := ⟨out.disk start, out.memory⟩

def construct (now : ℚ) (d : Disk) : Queue := (start now d).queue d

def Queue.perform (q : Queue) : Call → Outcome
  | .put message_list => put c message_list q.disk q.memory
  | .get maximum => get c o maximum q.disk q.memory
  | .on_housekeeping now spilled => on_housekeeping c o ⟨none, spilled⟩ now q.disk q.memory
  | .cleanup => cleanup q.disk q.memory
  | .reopen now => start now ((close q.memory).disk q.disk)

def Queue.after (q : Queue) (call : Call) : Queue := (q.perform c o call).queue q.disk

end Sarracenia.Source.DiskQueue
