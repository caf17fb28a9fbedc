import Sarracenia.Source.Message

/-!
# Transport classes, sending (`transfer/__init__.py`, `transfer/ftp.py`, `transfer/sftp.py`)

What the far end and the connection do is given from outside, one answer for each
request: an upload may break off after any block, with any part of what was handed
over kept. `ftplib` and `paramiko` appear as the loops the two classes drive. Modes,
owners and times of the remote files are left out, and so are the log, the timers
and the checksum, which no sender asks for.
-/
namespace Sarracenia.Source.Transfer
open Library Library.Text Library.Dynamic

abbrev Bytes := List UInt8

/-- The answer to a request: carried out, refused, or carried out with the answer lost. -/
inductive Answer where
  | done | refused | unheard
  deriving DecidableEq, Repr

/-- How one upload fares. `takes` tells which blocks the connection takes, `reply`
whether the closing answer comes, and `kept` how much the far end has when it breaks off. -/
structure Upload where
  readable : Bool
  opening : Answer
  takes : Nat → Bool
  reply : Bool
  truncates : Bool
  kept : Nat

/-- An acceleration command: its exit code, and how many bytes it left, if it wrote at all. -/
structure Accel where
  exit : Int
  left : Option Nat
  deriving DecidableEq, Repr

/-- The far end's reading of a name in a directory. -/
structure Server where
  resolve : Str → Str → Str

/-- The far end: its files by path, the directory the connection is in, and the
renames carried out so far. -/
structure Remote where
  files : Str → Option Bytes
  cwd : Str
  renames : List (Str × Str)

def Remote.write (path : Str) (content : Option Bytes) (r : Remote) : Remote :=
  { r with files := fun p => if p = path then content else r.files p }

@[simp] theorem Remote.write_files (path : Str) (content : Option Bytes) (r : Remote) :
    (r.write path content).files = fun p => if p = path then content else r.files p := rfl

@[simp] theorem Remote.write_cwd (path : Str) (content : Option Bytes) (r : Remote) :
    (r.write path content).cwd = r.cwd := rfl

@[simp] theorem Remote.write_renames (path : Str) (content : Option Bytes) (r : Remote) :
    (r.write path content).renames = r.renames := rfl

structure Options where
  bufSize : Nat
  binary : Bool
  nofsetstat : Bool
  deriving DecidableEq, Repr

section Reading

/-- `read(bufSize)` until nothing is read. -/
def readBlocks (bufSize : Nat) : Nat → Bytes → List Bytes
  | 0, _ => []
  | steps + 1, src =>
    if (src.take bufSize).isEmpty then []
    else src.take bufSize :: readBlocks bufSize steps (src.drop bufSize)

def blocks (bufSize : Nat) (src : Bytes) : List Bytes := readBlocks bufSize src.length src

/-- `readline()` until nothing is read. -/
def byteLines : Bytes → List Bytes
  | [] => []
  | b :: src =>
    if b = 10 then [b] :: byteLines src
    else match byteLines src with
      | [] => [[b]]
      | line :: rest => (b :: line) :: rest

/-- The line end of a text transfer. -/
def crlf (line : Bytes) : Bytes :=
  if [13, 10] <:+ line then line
  else (if line.getLast? = some 13 ∨ line.getLast? = some 10 then line.dropLast else line) ++ [13, 10]

end Reading

section Sending

/-- What was handed to the connection, the count that `write_chunk` or `read_write`
kept, and whether an exception ended it. -/
structure Sent where
  handed : Bytes
  rw_length : Nat
  broke : Bool
  deriving DecidableEq, Repr

/-- `sendall(buf)` and the count, buffer after buffer; a buffer that does not fit raises. -/
def Upload.sendAll (u : Upload) (fits : Bytes → Bool) (encode : Bytes → Bytes) :
    Nat → List Bytes → Sent
  | _, [] => ⟨[], 0, !u.reply⟩
  | i, buf :: rest =>
    if !fits buf then ⟨[], 0, true⟩
    else if !u.takes i then ⟨encode buf, 0, true⟩
    else
      let sent := u.sendAll fits encode (i + 1) rest
      ⟨encode buf ++ sent.handed, (encode buf).length + sent.rw_length, sent.broke⟩

/-- What the far end holds under the name afterwards. -/
def Upload.leaves (u : Upload) (sent : Sent) (before : Option Bytes) : Option Bytes :=
  if u.opening = .refused then before
  else some (if sent.broke then sent.handed.take u.kept else sent.handed)

/-- `ftplib.FTP.storbinary` and `storlines`. -/
def Upload.stor (u : Upload) (o : Options) (src : Bytes) : Sent :=
  if u.opening ≠ .done then ⟨[], 0, true⟩
  else if o.binary then u.sendAll (fun _ => true) id 0 (blocks o.bufSize src)
  else u.sendAll (fun line => line.length ≤ 8192) crlf 0 (byteLines src)

def patch (base : Bytes) (offset : Nat) (bytes : Bytes) : Bytes :=
  base.take offset ++ List.replicate (offset - base.length) 0 ++ bytes ++
    base.drop (offset + bytes.length)

def setLength (n : Nat) (bytes : Bytes) : Bytes :=
  bytes.take n ++ List.replicate (n - bytes.length) 0

end Sending

section Requests
variable (s : Server) (o : Options)

/-- `Ftp.put`: an exception of the transfer is logged and the count returned. -/
def Ftp.put (u : Upload) (src : Bytes) (remote_file : Str) (local_offset : Nat) (r : Remote) :
    Remote × Except Fault Int :=
  if !u.readable then (r, .error .osError)
  else
    let path := s.resolve r.cwd remote_file
    let sent := u.stor o (src.drop local_offset)
    (r.write path (u.leaves sent (r.files path)), .ok sent.rw_length)

/-- `Sftp.put`: an exception of the transfer goes to the caller. -/
def Sftp.put (u : Upload) (src : Bytes) (remote_file : Str)
    (local_offset remote_offset length : Nat) (r : Remote) : Remote × Except Fault Int :=
  let path := s.resolve r.cwd remote_file
  let base := if length = 0 then [] else (r.files path).getD []
  if u.opening = .refused then (r, .error .osError)
  else if u.opening = .unheard || !u.readable || (length ≠ 0 && o.bufSize = 0) then
    (r.write path (some base), .error .osError)
  else
    let src := src.drop local_offset
    let src := if length = 0 then src else src.take length
    let offset := if length = 0 then 0 else remote_offset
    let sent := u.sendAll (fun _ => true) id 0 (blocks o.bufSize src)
    let shrinks := (length = 0 || sent.rw_length < length) && !o.nofsetstat
    if sent.broke || (shrinks && !u.truncates) then
      (r.write path (some (patch base offset (sent.handed.take u.kept))), .error .osError)
    else
      let file := patch base offset sent.handed
      let file := if shrinks then setLength sent.rw_length file else file
      let file := if length ≠ 0 && !o.nofsetstat && u.truncates then
        setLength (offset + sent.rw_length) file else file
      (r.write path (some file), .ok sent.rw_length)

/-- `putAccelerated` of either class: the size announced stands for the count. -/
def putAccelerated (a : Accel) (new_dir : Str) (size : ℚ) (src : Bytes) (remote_file : Str)
    (r : Remote) : Remote × Except Fault Int :=
  let r := match a.left with
    | none => r
    | some n => r.write (s.resolve new_dir remote_file) (some (src.take n))
  if a.exit ≠ 0 then (r, .error .osError) else (r, .ok (size.num.tdiv size.den))

/-- The request to rename; it is refused when there is nothing of the old name. -/
def move (answer : Answer) (old new : Str) (r : Remote) : Remote × Except Fault Unit :=
  match r.files (s.resolve r.cwd old) with
  | none => (r, .error .osError)
  | some bytes =>
    if answer = .refused then (r, .error .osError)
    else
      let moved := (r.write (s.resolve r.cwd old) none).write (s.resolve r.cwd new) (some bytes)
      ({ moved with renames := r.renames ++ [(s.resolve r.cwd old, s.resolve r.cwd new)] },
        if answer = .unheard then .error .osError else .ok ())

def delete (answer : Answer) (name : Str) (r : Remote) : Remote :=
  if answer = .refused then r else r.write (s.resolve r.cwd name) none

def Ftp.rename (answer : Answer) (remote_old remote_new : Str) (r : Remote) :
    Remote × Except Fault Unit :=
  move s answer remote_old remote_new r

/-- The new name is deleted first, whatever comes of it. -/
def Sftp.rename (deletion answer : Answer) (remote_old remote_new : Str) (r : Remote) :
    Remote × Except Fault Unit :=
  move s answer remote_old remote_new (delete s deletion remote_new r)

end Requests

end Sarracenia.Source.Transfer
