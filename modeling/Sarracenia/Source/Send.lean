import Sarracenia.Source.TimeNotation
import Sarracenia.Source.Transfer

/-!
# The transfer part of `Flow.send` (`sarracenia/flow/__init__.py`)

From the choice of the in-flight name to the answer of `send`, for a message that
carries no file operation and a connection of class `Ftp` or `Sftp` that is up. What
comes before (plugins, the local directory, the connection, the file operations) and
the metrics and log are left out. Sizes and offsets are numbers where they are present.
-/
namespace Sarracenia.Source.Send
open Library Library.Text Library.Dynamic Source.TimeNotation Source.Transfer

/-- The `inflight` option: unset, a text, or an interval. -/
inductive Inflight where
  | none
  | text (s : Str)
  | interval (seconds : ℚ)
  deriving DecidableEq, Repr

structure Options extends Transfer.Options where
  inflight : Inflight
  dry_run : Bool
  accelThreshold : Int
  timeCopy : Bool

inductive Proto where
  | ftp | sftp
  deriving DecidableEq, Repr

/-- A change of directory: where it leaves the connection, and whether it raises. -/
structure Move where
  at_ : Str
  raised : Bool
  deriving DecidableEq, Repr

/-- How the transport fares in one call of `send`, and what is on the local disk. -/
structure Run where
  now : Str
  getcwd : Bool
  cd_forced : Move
  localFile : Option Bytes
  inflightDir : Move
  backDir : Move
  umask : Bool
  upload : Upload
  again : Upload
  accel : Accel
  clear : Answer
  rename : Answer
  cleanup : Answer

/-- How a part of `send` ends: with a value for the caller, with the file sent under
the name, or with an exception, the in-flight name known or not. -/
inductive Leg where
  | returns (n : Int)
  | written (new_inflight_path : Option Str) (len_written : Int)
  | raises (new_inflight_path : Option Str)
  deriving DecidableEq, Repr

def Remote.cd (m : Move) (r : Remote) : Remote × Except Fault Unit :=
  ({ r with cwd := m.at_ }, if m.raised then .error .osError else .ok ())

/-- Separators of the other kind are turned round in a name. -/
def slashed (s : Str) : Str := s.map fun c => if c = '\\' then '/' else c

/-- `'blocks' in msg and msg['blocks']['method'] == 'inplace'`. -/
def inplace (msg : Message) : Except Fault Bool := do
  match msg.get "blocks" with
  | none => return false
  | some blocks => return (← blocks.item "method").equals "inplace".toList

/-- The numbers an upload goes by: the size of the file, the length that decides on an
accelerated transfer, and the offsets there and here. -/
structure Extent where
  size : ℚ
  block_length : ℚ
  offset : ℚ
  local_offset : ℚ
  deriving DecidableEq, Repr

def extent (msg : Message) (src : Bytes) : Except Fault Extent := do
  let size ← match msg.get "size" with
    | none => .ok (src.length : ℚ)
    | some size => size.asNumber
  let part ← inplace msg
  let offset ← if part then (← msg.item "offset").asNumber else .ok 0
  let local_offset ← (← msg.item "local_offset").asNumber
  let block_length ← if part then
      (← (← msg.item "blocks").item "size").asNumber else .ok size
  return ⟨size, block_length, offset, local_offset⟩

/-- `int(q)`. -/
def truncate (q : ℚ) : Int := q.num.tdiv q.den

/-- What may raise once the file is sent: the report, and reading the times. Only the
class `Sftp` sets times, and neither class lets a failed request through. -/
def set_remote_file_attributes (o : Options) (proto : Proto) (msg : Message) :
    Except Fault Unit :=
  if proto = .ftp || !o.timeCopy then .ok ()
  else
    match msg.get "mtime" with
    | none => .ok ()
    | some mtime =>
      if !mtime.truthy then .ok ()
      else do
        let _ ← timestr2flt (← mtime.asStr)
        match msg.get "atime" with
        | none => .ok ()
        | some atime =>
          if !atime.truthy then .ok ()
          else do
            let _ ← timestr2flt (← atime.asStr)

section Send
variable (s : Server) (o : Options) (proto : Proto) (msg : Message) (run : Run)

def put (u : Upload) (src : Bytes) (remote_file : Str) (local_offset remote_offset length : Nat)
    (r : Remote) : Remote × Except Fault Int :=
  match proto with
  | .ftp => Ftp.put s o.toOptions u src remote_file local_offset r
  | .sftp => Sftp.put s o.toOptions u src remote_file local_offset remote_offset length r

def rename (old new : Str) (r : Remote) : Remote × Except Fault Unit :=
  match proto with
  | .ftp => Ftp.rename s run.rename old new r
  | .sftp => Sftp.rename s run.clear run.rename old new r

def accelerated (e : Extent) : Bool :=
  0 < o.accelThreshold && o.accelThreshold < e.block_length && e.local_offset = 0

/-- `msg['new_dir']` as it stands, which an acceleration command is given. -/
def announcedDir : Str :=
  match msg.get "new_dir" with
  | some (.str new_dir) => new_dir
  | _ => []

/-- `putAccelerated` or `put`, by the choice made for the whole call. -/
def putEither (e : Extent) (src : Bytes) (remote_file : Str) (r : Remote) :
    Remote × Except Fault Int :=
  if accelerated o e then putAccelerated s run.accel (announcedDir msg) e.size src remote_file r
  else put s o proto run.upload src remote_file 0 0 0 r

/-- Sent under a temporary name, then renamed. -/
def underTemporaryName (e : Extent) (src : Bytes) (new_inflight_path new_file : Str)
    (r : Remote) : Remote × Leg :=
  match putEither s o proto msg run e src new_inflight_path r with
  | (r, .error _) => (r, .returns 0)
  | (r, .ok len_written) =>
    match rename s proto run new_inflight_path new_file r with
    | (r, .error _) => (r, .returns 0)
    | (r, .ok ()) => (r, .written (some new_inflight_path) len_written)

/-- The branches of the upload. A dry run sends nothing; where its branch does not set
`len_written`, using it raises. -/
def uploadFile (e : Extent) (part : Bool) (src : Bytes) (new_file : Str) (r : Remote) :
    Remote × Leg :=
  let inflight := if proto = .sftp ∧ o.inflight = .text "umask".toList then .none else o.inflight
  if inflight = .none ∨ (msg.get "blocks").isSome ∧ !part then
    if o.dry_run then (r, .raises none)
    else match putEither s o proto msg run e src new_file r with
      | (r, .error _) => (r, .returns 0)
      | (r, .ok len_written) => (r, .written none len_written)
  else if part then
    if o.dry_run then (r, .raises none)
    else match put s o proto run.upload src new_file (truncate e.offset).toNat
        (truncate e.local_offset).toNat (truncate e.size).toNat r with
      | (r, .error _) => (r, .returns 0)
      | (r, .ok _) => (r, .raises none)
  else match inflight with
    | .none | .interval _ => (r, .raises none)
    | .text inflight =>
      if inflight = ['.'] then
        let new_inflight_path := '.' :: new_file
        if o.dry_run then (r, .written (some new_inflight_path) (truncate e.size))
        else underTemporaryName s o proto msg run e src new_inflight_path new_file r
      else if inflight.head? = some '.' then
        let new_inflight_path := new_file ++ inflight
        if o.dry_run then (r, .raises (some new_inflight_path))
        else underTemporaryName s o proto msg run e src new_inflight_path new_file r
      else if inflight.getLast? = some '/' then
        let new_inflight_path := inflight ++ new_file
        if o.dry_run then (r, .written (some new_inflight_path) (truncate e.size))
        else underTemporaryName s o proto msg run e src new_inflight_path new_file
          -- either change of directory may fail unnoticed
          (match Remote.cd run.inflightDir r with
            | (r, .error _) => r
            | (r, .ok ()) => (Remote.cd run.backDir r).1)
      else if inflight = "umask".toList then
        if o.dry_run then (r, .written none (truncate e.size))
        else if !run.umask then (r, .raises none)
        else match putEither s o proto msg run e src new_file r with
          | (r, .error _) => (r, .returns 0)
          | (r, .ok len_written) =>
            match put s o proto run.again src new_file 0 0 0 r with
            | (r, .error _) => (r, .returns 0)
            | (r, .ok _) => (r, .written none len_written)
      else (r, .raises none)

/-- The body of the `try`, to the test on the number of bytes. -/
def sendFile (new_dir new_file : Str) (r : Remote) : Remote × Leg :=
  match inplace msg with
  | .error _ => (r, .raises none)
  | .ok part =>
    if part ∧ proto = .ftp ∧ !o.dry_run then (r, .returns (-1))
    else if !o.dry_run ∧ !run.getcwd then (r, .returns 0)
    else
      match if o.dry_run ∨ r.cwd = new_dir then (r, .ok ()) else Remote.cd run.cd_forced r with
      | (r, .error _) => (r, .returns (-1))
      | (r, .ok ()) =>
        match run.localFile with
        | none => (r, .returns 0)
        | some src =>
          match extent msg src with
          | .error _ => (r, .raises none)
          | .ok e =>
            match uploadFile s o proto msg run e part src new_file r with
            | (r, .written path len_written) =>
              if 0 < e.size ∧ len_written = 0 then (r, .returns 0)
              else (r, .written path len_written)
            | ended => ended

/-- What may raise once the file is sent. -/
def finish : Except Fault Unit := do
  let msg ← msg.setReport run.now 201 "file sent".toList
  if o.dry_run then return ()
  else set_remote_file_attributes o proto msg

/-- The handler: the in-flight name is deleted, and the connection dropped. -/
def failed (new_inflight_path : Option Str) (r : Remote) : Remote × Except Fault Int :=
  match new_inflight_path with
  | some path => (if o.dry_run then r else delete s run.cleanup path r, .ok 0)
  | none => (r, .ok 0)

def send (r : Remote) : Remote × Except Fault Int :=
  match msg.item "new_dir" >>= Value.asStr, msg.item "new_file" >>= Value.asStr with
  | .error e, _ | .ok _, .error e => (r, .error e)
  | .ok new_dir, .ok new_file =>
    match sendFile s o proto msg run (slashed new_dir) (slashed new_file) r with
    | (r, .returns n) => (r, .ok n)
    | (r, .raises path) => failed s o run path r
    | (r, .written path _) =>
      match finish o proto msg run with
      | .error _ => failed s o run path r
      | .ok () => (r, .ok 1)

end Send
end Sarracenia.Source.Send
