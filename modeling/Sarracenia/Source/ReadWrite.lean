import Sarracenia.Library.Binary64
import Sarracenia.Source.Transfer

/-!
# Copying (`read_write` and `readlocal_write` of `transfer/__init__.py`, `Sftp.put` of `transfer/sftp.py`)

A read gives what is asked for, unless the source ends. The connection does not fail; the log, the timers and the
throttling are left out.
-/
namespace Sarracenia.Source.ReadWrite
open Library.Binary64
open Source.Transfer (Bytes patch setLength)

structure Options where
  bufSize : Nat
  nofsetstat : Bool

/-- The writes, the updates of the checksum, and the count. -/
structure Copied where
  written : List Bytes
  updates : List Bytes
  rw_length : Nat

def on_data (chunk : Bytes) : Bytes := chunk

section Loops
variable (sumalgo : Bool) (bufSize : Nat)

def Copied.after (chunk : Bytes) (rest : Copied) : Copied :=
  ⟨on_data chunk :: rest.written, if sumalgo then chunk :: rest.updates else rest.updates, (on_data chunk).length + rest.rw_length⟩

/-- Buffers until nothing is read. -/
def readAll : Nat → Bytes → Copied
  | 0, _ => ⟨[], [], 0⟩
  | steps + 1, src =>
    let chunk := src.take bufSize
    if chunk.isEmpty then ⟨[], [], 0⟩ else (readAll steps (src.drop bufSize)).after sumalgo chunk

/-- The remaining bytes; the checksum is also fed with nothing. -/
def readRemaining (r : Nat) (src : Bytes) : Copied :=
  if r > 0 then
    let chunk := src.take r
    if chunk.isEmpty then ⟨[], if sumalgo then [chunk] else [], 0⟩ else Copied.after sumalgo chunk ⟨[], [], 0⟩
  else ⟨[], [], 0⟩

/-- A number of whole buffers, then the rest. -/
def readTimes (r : Nat) : Nat → Bytes → Copied
  | 0, src => readRemaining sumalgo r src
  | nc + 1, src =>
    let chunk := src.take bufSize
    if chunk.isEmpty then readRemaining sumalgo r src else (readTimes r nc (src.drop bufSize)).after sumalgo chunk

/-- Nothing where the division raises. -/
def read_write (src : Bytes) (length : Nat) : Option Copied :=
  if length = 0 then some (readAll sumalgo bufSize (src.length + 1) src)
  else if bufSize = 0 then none
  else (wholes length bufSize).map fun nc => readTimes sumalgo bufSize (length % bufSize) nc src

end Loops

section Put
variable (o : Options)

/-- A file that is open for writing. -/
structure Handle where
  content : Bytes
  position : Nat

def Handle.write (dst : Handle) (chunk : Bytes) : Handle := ⟨patch dst.content dst.position chunk, dst.position + chunk.length⟩

def Handle.truncate (dst : Handle) (size : Nat) : Handle := { dst with content := setLength size dst.content }

/-- The handle afterwards, and the count. No checksum is asked for. -/
def readlocal_write (local_file : Bytes) (local_offset length : Nat) (dst : Handle) : Option (Handle × Nat) :=
  (read_write false o.bufSize (local_file.drop local_offset) length).map fun copied =>
    let dst := copied.written.foldl Handle.write dst
    (if (length = 0 ∨ copied.rw_length < length) ∧ !o.nofsetstat then dst.truncate copied.rw_length else dst, copied.rw_length)

/-- The remote file afterwards, and the count. -/
def put (local_file : Bytes) (local_offset remote_offset length : Nat) (remote_file : Option Bytes) : Option (Bytes × Nat) :=
  let rfp : Handle := if length = 0 then ⟨[], 0⟩ else ⟨remote_file.getD [], remote_offset⟩
  (readlocal_write o local_file local_offset length rfp).map fun (rfp, rw_length) =>
    (if !o.nofsetstat ∧ length ≠ 0 then (rfp.truncate (remote_offset + rw_length)).content else rfp.content, rw_length)

end Put
end Sarracenia.Source.ReadWrite
