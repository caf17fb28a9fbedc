import Sarracenia.Source.TimeNotation
import Sarracenia.Source.Transfer
import Sarracenia.Library.Table

/-!
# Downloading one file (`Flow.download` of `sarracenia/flow/__init__.py`)

Without plugins that download, and with `dry_run` off. What the far end and the connection do
at each request is given from outside, and so is what may fail on the way to the attributes of
the file. The names of the remote file and its directory come from fields that nothing changes.
Local paths are told apart as they are written. Metrics, the log and the mode of the directory
for temporary files are left out.
-/
namespace Sarracenia.Source.Download
open Library Library.Text Library.Dynamic Source.TimeNotation
open Source.Transfer (Bytes)

/-- `msg['blocks']`; its manifest holds the size of each block. -/
structure Blocks where
  method : Str
  size : Int
  number : Int
  manifest : Table Int Int

/-- The fields of a message that `download` reads or sets. -/
structure Message where
  new_file : Str
  local_offset : Int
  size : Option Int
  blocks : Option Blocks
  identity : Option Value
  mtime : Option Str
  pubTime : Str
  contentType : Bool

structure Options where
  inflight : Option Str
  acceptSizeWrong : Bool
  delete : Bool
  accelThreshold : Int
  identity_method : Option Str
  filetypes : Bool

structure Range where
  remote_offset : Int
  block_length : Int
  exactLength : Bool
  deriving DecidableEq

/-- The arguments of `get` or `getAccelerated`. -/
structure Request where
  local_file : Option Str
  local_offset : Int
  range : Range
  accelerated : Bool
  deriving DecidableEq

structure Stat where
  st_mtime : Option ℚ
  st_size : Option Int

/-- How one download fares: whether its directory is entered, the connection made, the remote
directory entered and the checksum set; what the transfer leaves of the local file, and what it
returns or raises; and what happens to the later requests. `delete` is absent where the class
has none, and else tells whether the remote file is gone after it. -/
structure Transport where
  enters : Bool
  connects : Except Fault Bool
  getcwd : Bool
  cd : Bool
  set_sumalgo : Value → Bool
  hasAccel : Bool
  writes : Request → Option Bytes → Option Bytes
  get : Request → Except Fault Int
  update_file : Bool
  stat : Option (Except Fault (Option Stat))
  magic : Bool
  sumstr : Value
  attributes : Bool
  delete : Option Bool

/-- The local files, and whether the remote one was deleted. -/
structure Place where
  files : Str → Option Bytes
  deleted : Bool

def Place.write (path : Str) (content : Option Bytes) (place : Place) : Place :=
  { place with files := fun p => if p = path then content else place.files p }

@[simp] theorem Place.write_files (path : Str) (content : Option Bytes) (place : Place) :
    (place.write path content).files = fun p => if p = path then content else place.files p := rfl

@[simp] theorem Place.write_deleted (path : Str) (content : Option Bytes) (place : Place) :
    (place.write path content).deleted = place.deleted := rfl

/-- How the body ends: with a value, or with an exception for its handler. -/
inductive Exit where
  | returns (r : Int)
  | raises
  deriving DecidableEq

section Names
variable (naturalSize : Int → Str)

/-- `{blkno:04d}`. -/
def zeroPadded (n : Int) : Str :=
  if n < 0 then '-' :: (Nat.toDigits 10 n.natAbs).leftpad 3 '0'
  else (Nat.toDigits 10 n.natAbs).leftpad 4 '0'

def blockName (blocks : Blocks) : Str :=
  "§block_".toList ++ zeroPadded blocks.number ++ ",".toList ++
    (naturalSize blocks.size).map Char.toLower ++ "_§".toList

def Blocks.inplace (blocks : Blocks) : Bool := blocks.method = "inplace".toList

/-- A block goes to a file of its own. -/
def Message.named (msg : Message) : Message :=
  match msg.blocks with
  | some blocks =>
    if blocks.inplace && !occurs "§block_".toList msg.new_file then
      { msg with new_file := msg.new_file ++ blockName naturalSize blocks }
    else msg
  | none => msg

variable {naturalSize} {msg : Message}

theorem named_whole (whole : msg.blocks = none) : msg.named naturalSize = msg := by
  rw [Message.named, whole]

theorem named_block {blocks : Blocks} (has : msg.blocks = some blocks) :
    msg.named naturalSize = if blocks.inplace && !occurs "§block_".toList msg.new_file then
      { msg with new_file := msg.new_file ++ blockName naturalSize blocks } else msg := by
  rw [Message.named, has]

theorem named_blocks : (msg.named naturalSize).blocks = msg.blocks := by
  unfold Message.named
  split
  · split <;> rfl
  · rfl

/-- A name that has a block in it is not changed again. -/
theorem named_named : (msg.named naturalSize).named naturalSize = msg.named naturalSize := by
  cases has : msg.blocks with
  | none => rw [named_whole has, named_whole has]
  | some blocks =>
    rw [named_block (named_blocks.trans has), named_block has]
    by_cases names : (blocks.inplace && !occurs "§block_".toList msg.new_file) = true
    · have there : occurs "§block_".toList (msg.new_file ++ blockName naturalSize blocks) = true := by
        unfold blockName
        rw [List.append_assoc, List.append_assoc, List.append_assoc, ← List.append_assoc]
        exact occurs_append ..
      rw [if_pos names]
      dsimp only
      rw [there, Bool.not_true, Bool.and_false, if_neg Bool.false_ne_true]
    · rw [if_neg names, if_neg names]

end Names

/-- The name to download into; a setting that names none leaves it open. -/
def new_inflight_path (inflight : Option Str) (new_file : Str) : Except Fault (Option Str) :=
  match inflight with
  | none => .ok (some new_file)
  | some [] => .error .indexError
  | some (c :: rest) =>
    if c = '.' ∧ rest = [] then .ok (some ('.' :: new_file))
    else if (c :: rest).getLast? = some '/' ∨ c = '/' then .ok (some (c :: rest ++ new_file))
    else if c = '.' then .ok (some (new_file ++ c :: rest))
    else .ok none

section Range

/-- `msg['blocks']['manifest'][blkno]['size']`. -/
def sizeOf (manifest : Table Int Int) (blkno : Int) : Except Fault Int :=
  (manifest.get blkno).elim (.error .keyError) .ok

/-- The sizes of the blocks before. -/
def offsetOf (manifest : Table Int Int) : Nat → Except Fault Int
  | 0 => .ok 0
  | blkno + 1 => do return (← offsetOf manifest blkno) + (← sizeOf manifest blkno)

def range (msg : Message) : Except Fault Range :=
  match msg.blocks with
  | some blocks =>
    if blocks.inplace then do
      let remote_offset ← offsetOf blocks.manifest blocks.number.toNat
      return ⟨remote_offset, ← sizeOf blocks.manifest blocks.number, true⟩
    else .ok ⟨0, msg.size.getD 0, false⟩
  | none => .ok ⟨0, msg.size.getD 0, false⟩

end Range

section Algorithm

/-- The checksum that is calculated on the way. -/
def download_algo (o : Options) (msg : Message) : Except Fault (Option Value) :=
  match msg.identity with
  | some identity => do
    let method ← identity.item "method"
    if method.equals "cod".toList then return some (← identity.item "value")
    match method with
    | .str m => return some (if "cod,".toList <+: m then .str (m.drop 4) else method)
    | _ => .error .attributeError
  | none => .ok (o.identity_method.map .str)

/-- `set_sumalgo` and `set_sumArbitrary`. -/
def setSum (o : Options) (t : Transport) (msg : Message) : Except Fault Unit := do
  match (← download_algo o msg).filter Value.truthy with
  | none => return
  | some algo =>
    if !t.set_sumalgo algo then .error .attributeError
    else if algo.equals "arbitrary".toList then
      match msg.identity with
      | some identity => let _ ← identity.item "value"; return
      | none => .error .keyError
    else return

/-- The identity of the message, after the transfer. -/
def sumIdentity (o : Options) (t : Transport) (accelerated : Bool) (msg : Message) : Option Value :=
  let cod := match msg.identity with
    | some identity => match identity.item "method" with
      | .ok (.str method) => decide ("cod".toList <+: method)
      | _ => false
    | none => !occurs "cod".toList (o.identity_method.getD [])
  if cod && !accelerated then some t.sumstr
  else match msg.identity, o.identity_method with
    | none, some identity_method =>
      if occurs "cod".toList identity_method then
        some (.dict [("method", .str "cod".toList), ("value", .str (identity_method.drop 4))])
      else none
    | identity, _ => identity

end Algorithm

section Body
variable (o : Options) (t : Transport)

/-- Everything before the transfer. -/
def prepare (msg : Message) (path : Option Str) : Except Exit Request :=
  if !t.enters then .error (.returns 0)
  else match t.connects with
  | .error _ => .error .raises
  | .ok false => .error (.returns 0)
  | .ok true =>
    if !t.getcwd then .error .raises
    else if !t.cd then .error (.returns 0)
    else match range msg, setSum o t msg with
    | .ok range, .ok _ =>
      .ok { local_file := path
            local_offset := msg.local_offset
            range := range
            accelerated := t.hasAccel && decide (0 < o.accelThreshold) &&
              decide (o.accelThreshold < range.block_length) && decide (range.remote_offset = 0) &&
              decide (msg.local_offset = 0) }
    | _, _ => .error .raises

/-- Whether a transfer of another size is given up, `-1`, or tried again, `0`. -/
def discrepancy (len_written : Int) (msg : Message) : Except Fault Int :=
  match t.stat with
  | none => .ok 0
  | some answer => do
    let current_stat ← answer
    let mtime ← timestr2flt (msg.mtime.getD msg.pubTime)
    match current_stat with
    | none => return 0
    | some stat =>
      if stat.st_mtime.any fun st_mtime => st_mtime ≠ 0 ∧ mtime < st_mtime then return -1
      else if stat.st_size.any fun st_size => st_size ≠ 0 ∧ st_size = len_written then return -1
      else return 0

/-- A temporary file is removed. -/
def discard (path : Str) (place : Place) : Place :=
  if o.inflight.isSome then place.write path none else place

/-- After the file is in its place. -/
def finish (request : Request) (len_written : Int) (msg : Message) (place : Place) :
    Message × Place × Exit :=
  if o.filetypes && !msg.contentType && !t.magic then (msg, place, .raises)
  else
    let msg := { msg with contentType := msg.contentType || o.filetypes }
    let msg := match download_algo o msg with
      | .ok (some algo) => if algo.truthy then
          { msg with identity := sumIdentity o t request.accelerated msg } else msg
      | _ => msg
    if !t.attributes then (msg, place, .raises)
    else
      let place := if o.delete && t.delete = some true then { place with deleted := true } else place
      let block_length := request.range.block_length
      if (o.acceptSizeWrong || block_length = 0) && 0 < len_written then (msg, place, .returns 1)
      else if len_written ≠ block_length then (msg, place, .returns 0)
      else (msg, place, .returns 1)

/-- The temporary file takes the place of the file; there may be none. -/
def put (request : Request) (path : Str) (len_written : Int) (msg : Message) (place : Place) :
    Message × Place × Exit :=
  if path = msg.new_file then finish o t request len_written msg place
  else
    match (place.write msg.new_file none).files path with
    | none => (msg, place.write msg.new_file none, .raises)
    | some content =>
      finish o t request len_written msg ((place.write path none).write msg.new_file (some content))

/-- A block that was transferred is a file of its own from here on. -/
def Message.separated (msg : Message) : Message :=
  { msg with blocks := msg.blocks.map fun blocks =>
      if blocks.inplace then { blocks with method := "separate".toList } else blocks }

/-- What follows from the number of bytes. -/
def received (request : Request) (path : Str) (len_written : Int) (msg : Message) (place : Place) :
    Message × Place × Exit :=
  let block_length := request.range.block_length
  if len_written = block_length then
    if request.accelerated && !t.update_file then (msg, place, .raises)
    else put o t request path len_written msg place
  else if len_written < 0 then (msg, discard o path place, .returns 0)
  else if block_length ≠ 0 ∧ !o.acceptSizeWrong then
    match discrepancy t len_written msg with
    | .error _ => (msg, place, .raises)
    | .ok retval => (msg, discard o path place, .returns retval)
  else put o t request path len_written { msg with size := some len_written } place

end Body

/-- A call: the message and the place it leaves, the request it made, and what it returned. -/
structure Attempt where
  msg : Message
  place : Place
  requested : Option Request
  result : Except Fault Int

/-- The handler closes the connection and removes the file that is downloaded into. -/
def handled (msg : Message) (path : Option Str) (requested : Option Request) (place : Place) :
    Exit → Attempt
  | .returns r => ⟨msg, place, requested, .ok r⟩
  | .raises =>
    match path with
    | none => ⟨msg, place, requested, .error .typeError⟩
    | some path => ⟨msg, place.write path none, requested, .ok 0⟩

variable (naturalSize : Int → Str)

/-- No transfer goes into a file without a name. -/
def download (o : Options) (t : Transport) (msg : Message) (place : Place) : Attempt :=
  let msg := msg.named naturalSize
  match new_inflight_path o.inflight msg.new_file with
  | .error fault => ⟨msg, place, none, .error fault⟩
  | .ok path =>
    match prepare o t msg path with
    | .error exit => handled msg path none place exit
    | .ok request =>
      match path with
      | none => ⟨msg, place, some request, .ok 0⟩
      | some name =>
        let place := place.write name (t.writes request (place.files name))
        match t.get request with
        | .error _ => ⟨msg, place, some request, .ok 0⟩
        | .ok len_written =>
          let (msg, place, exit) := received o t request name len_written msg.separated place
          handled msg path (some request) place exit

/-- The attempts of `do_download` at one message, each with the place it finds, up to one that
does not fail; an exception of `download` ends them. -/
def attempts (o : Options) : List (Transport × Place) → Message → Message × Except Fault Int
  | [], msg => (msg, .ok 0)
  | (t, place) :: rest, msg =>
    let attempt := download naturalSize o t msg place
    match attempt.result with
    | .ok 0 => attempts o rest attempt.msg
    | result => (attempt.msg, result)

end Sarracenia.Source.Download
