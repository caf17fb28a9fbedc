import Sarracenia.Source.Transfer

/-!
# Transport classes, fetching (`get` of `transfer/file.py`, `transfer/sftp.py`, `transfer/ftp.py`)

What the far end and the connection do is given from outside, one answer for each read.
`ftplib` appears as the loop that the class drives. The number of whole buffers in a length
is taken exactly. The log, the timers and the checksums are left out.
-/
namespace Sarracenia.Source.Get
open Library Library.Dynamic
open Source.Transfer (Bytes patch)

/-- How one request fares: whether the remote file and the local one open, which reads come
through, how much an FTP connection hands over at each, and whether its closing reply comes. -/
structure Fetch where
  opens : Bool
  writable : Bool
  reads : Nat → Bool
  recv : Nat → Nat
  reply : Bool

/-- The arguments of `get`. -/
structure Call where
  remote_offset : Nat
  local_offset : Nat
  length : Nat
  exactLength : Bool
  deriving DecidableEq, Repr

structure Options where
  bufSize : Nat
  binary : Bool
  deriving DecidableEq, Repr

/-- What was written, and whether an exception ended it. -/
structure Copied where
  bytes : Bytes
  broke : Bool
  deriving DecidableEq, Repr

def Copied.after (chunk : Bytes) (rest : Copied) : Copied := ⟨chunk ++ rest.bytes, rest.broke⟩

section Loops
variable (f : Fetch)

/-- `read_write` without a length: buffers until nothing is read. -/
def readAll (bufSize : Nat) : Nat → Nat → Bytes → Copied
  | 0, _, _ => ⟨[], false⟩
  | steps + 1, i, src =>
    if !f.reads i then ⟨[], true⟩
    else if (src.take bufSize).isEmpty then ⟨[], false⟩
    else (readAll bufSize steps (i + 1) (src.drop bufSize)).after (src.take bufSize)

/-- The rest, after the whole buffers. -/
def readRemaining (r i : Nat) (src : Bytes) : Copied :=
  if r = 0 then ⟨[], false⟩ else if !f.reads i then ⟨[], true⟩ else ⟨src.take r, false⟩

/-- `read_write` with a length: that many whole buffers, then the rest. -/
def readTimes (bufSize r : Nat) : Nat → Nat → Bytes → Copied
  | 0, i, src => readRemaining f r i src
  | nc + 1, i, src =>
    if !f.reads i then ⟨[], true⟩
    else if (src.take bufSize).isEmpty then readRemaining f r (i + 1) src
    else (readTimes bufSize r nc (i + 1) (src.drop bufSize)).after (src.take bufSize)

/-- A buffer size of zero with a length is a division by zero. -/
def read_write (o : Options) (src : Bytes) (length : Nat) : Copied :=
  if length = 0 then readAll f o.bufSize (src.length + 1) 0 src
  else if o.bufSize = 0 then ⟨[], true⟩
  else readTimes f o.bufSize (length % o.bufSize) (length / o.bufSize) 0 src

/-- `ftplib.FTP.retrbinary`: what the connection hands over, up to a buffer at a time. -/
def retrbinary (bufSize : Nat) : Nat → Nat → Bytes → Copied
  | 0, _, _ => ⟨[], !f.reply⟩
  | steps + 1, i, src =>
    let n := min (max 1 (f.recv i)) bufSize
    if !f.reads i then ⟨[], true⟩
    else if (src.take n).isEmpty then ⟨[], !f.reply⟩
    else (retrbinary bufSize steps (i + 1) (src.drop n)).after (src.take n)

/-- `ftplib.FTP.retrlines`: the first line is a text, which the local file does not take. -/
def retrlines (src : Bytes) : Copied :=
  if !f.reads 0 then ⟨[], true⟩ else if src.isEmpty then ⟨[], !f.reply⟩ else ⟨[], true⟩

end Loops

section Local

/-- The local file after `local_write_open` at an offset, what was copied, and
`local_write_close`, which cuts it off there. -/
def closed (local_offset : Nat) (before : Option Bytes) (bytes : Bytes) : Bytes :=
  (before.getD []).take local_offset ++
    List.replicate (local_offset - (before.getD []).length) 0 ++ bytes

/-- The local file where it was never closed: the bytes after the copy are still there. -/
def unclosed (local_offset : Nat) (before : Option Bytes) (bytes : Bytes) : Bytes :=
  patch (before.getD []) local_offset bytes

end Local

section Requests
variable (o : Options) (f : Fetch)

/-- The local file after a request, and what the request returns or raises. -/
abbrev Outcome := Option Bytes × Except Fault Int

def File.get (remote : Option Bytes) (c : Call) (before : Option Bytes) : Outcome :=
  match remote with
  | none => (before, .ok (-1))
  | some content =>
    if !f.opens || !f.writable then (before, .error .osError)
    else
      let copied := read_write f o (content.drop c.remote_offset) c.length
      (some (closed c.local_offset before copied.bytes),
        if copied.broke then .error .osError else .ok copied.bytes.length)

def read_writelocal (src : Bytes) (c : Call) (exactLength : Bool) (before : Option Bytes) : Outcome :=
  if !f.writable then (before, .error .osError)
  else
    let copied := read_write f o src (if exactLength then c.length else 0)
    if copied.broke then (some (unclosed c.local_offset before copied.bytes), .error .osError)
    else (some (closed c.local_offset before copied.bytes), .ok copied.bytes.length)

/-- The length is never exact here. -/
def Sftp.get (remote : Option Bytes) (c : Call) (before : Option Bytes) : Outcome :=
  match remote with
  | none => (before, .error .osError)
  | some content =>
    if !f.opens then (before, .error .osError)
    else read_writelocal o f (content.drop c.remote_offset) c false before

/-- What is retrieved, with the exception of a file that is refused. -/
def Ftp.retrieved (remote : Option Bytes) : Copied :=
  match remote with
  | none => ⟨[], true⟩
  | some content =>
    if !f.opens then ⟨[], true⟩
    else if o.binary then retrbinary f o.bufSize (content.length + 1) 0 content
    else retrlines f content

/-- An exception of the transfer is logged and the count returned. -/
def Ftp.get (remote : Option Bytes) (c : Call) (before : Option Bytes) : Outcome :=
  if !f.writable then (before, .error .osError)
  else
    let copied := Ftp.retrieved o f remote
    (some (closed c.local_offset before copied.bytes), .ok copied.bytes.length)

end Requests

end Sarracenia.Source.Get
