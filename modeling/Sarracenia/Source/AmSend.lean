import Sarracenia.Source.Am

/-!
# Bulletins to a socket (`sarracenia/flowcb/send/am.py`)

What is written for a file, and how the receiver takes a stream apart. The clock, and how much of
a bulletin the socket accepts, come from outside; what a connection does when it breaks is left out.
-/
namespace Sarracenia.Source.AmSend
open Library Library.Dynamic
open Source.Transfer (Bytes)
open Source.Am (sizeAM lengthOf checkNextMsgStatus)

/-- `threadnum`. -/
def threadnum : Bytes := [0, 255, 0, 0]

def nulls (n : Nat) : Bytes := List.replicate n 0

/-- `lstrip('\n')`. -/
def lstrip (data : Bytes) : Bytes := data.dropWhile (· = 10)

/-- `replace('\n', '\x00', 1)`. -/
def replaceFirst : Bytes → Bytes
  | [] => []
  | b :: s => if b = 10 then 0 :: s else b :: replaceFirst s

/-- `socket.htonl`, packed: the first byte is the most significant. What takes more than four
bytes raises. -/
def htonl (n : Nat) : Except Fault Bytes :=
  if n < 2 ^ 32 then
    .ok [UInt8.ofNat (n / 2 ^ 24), UInt8.ofNat (n / 2 ^ 16), UInt8.ofNat (n / 2 ^ 8), UInt8.ofNat n]
  else .error .valueError

/-- The first 80 bytes, filled up with NULs, their first line feed a NUL too. -/
def header (data : Bytes) : Bytes := replaceFirst (data.take 80 ++ nulls (80 - data.length))

/-- `struct.pack('80sII4siIII20s', ...)`. -/
def pack (header length firsttime timestamp : Bytes) : Bytes :=
  header ++ nulls 4 ++ nulls 4 ++ threadnum ++ nulls 4 ++ length ++ firsttime ++ timestamp ++ nulls 20

/-- What the rest answers for one bulletin: the two readings of the clock, and how many bytes the
socket accepts. -/
structure Moment where
  firsttime : Nat
  timestamp : Nat
  accepted : Nat

section Send
variable (fileSizeMax : Nat) (now : Moment)

/-- Nothing is packed of a bulletin that is too long. -/
def wrapbulletin (data : Bytes) : Except Fault (Option Bytes) :=
  if fileSizeMax < data.length then .ok none
  else do
    let length ← htonl (lstrip data).length
    let firsttime ← htonl now.firsttime
    let timestamp ← htonl now.timestamp
    return some (pack (header data) length firsttime timestamp ++ data)

/-- What is written, and what is returned. -/
def send (data : Bytes) : Bytes × Except Fault Bool :=
  match wrapbulletin fileSizeMax now data with
  | .error fault => ([], .error fault)
  | .ok none => ([], .ok false)
  | .ok (some packed_bulletin) =>
    let sent := packed_bulletin.take now.accepted
    (sent, .ok (sent.length = packed_bulletin.length))

end Send

/-! ## The other end -/

/-- `unwrapmsg` of the receiver: the bulletin, and the length of its frame. -/
def unwrapmsg (inBuffer : Bytes) : Bytes × Nat :=
  if checkNextMsgStatus inBuffer then
    ((inBuffer.drop sizeAM).take (lengthOf inBuffer), sizeAM + lengthOf inBuffer)
  else ([], 0)

/-- The bulletins of a buffer while the status is `OK`, for as many turns as there are bytes at most,
and what is left. -/
def unwrapAll : Nat → Bytes → List Bytes × Bytes
  | 0, inBuffer => ([], inBuffer)
  | fuel + 1, inBuffer =>
    if checkNextMsgStatus inBuffer then
      let (bulletin, longlen) := unwrapmsg inBuffer
      let (bulletins, rest) := unwrapAll fuel (inBuffer.drop longlen)
      (bulletin :: bulletins, rest)
    else ([], inBuffer)

def received (stream : Bytes) : List Bytes := (unwrapAll stream.length stream).1

end Sarracenia.Source.AmSend
