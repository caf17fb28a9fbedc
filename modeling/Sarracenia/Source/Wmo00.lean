import Sarracenia.Library.Decimal
import Sarracenia.Source.Transfer
import Mathlib.Logic.Function.Basic

/-!
# WMO-00 files (`sarracenia/flowcb/filter/wmo00_accumulate.py`, `wmo00_split.py`)

Bulletins are put one after the other in accumulated files, and taken out of them again. The md5
sum and whether the system lets a path be written are given from outside; the sums that are only
logged are left out.
-/
namespace Sarracenia.Source.Wmo00
open Library Library.Text Library.Decimal
open Source.Transfer (Bytes)

structure Options where
  wmo00_work_directory : Str
  wmo00_origin_CCCC : Str
  wmo00_type_marker : Str
  wmo00_tree : Bool
  wmo00_encapsulate : Bool
  wmo00_byteCountMax : Nat
  wmo00_accumulatedByteCountMax : Nat

def SOH : UInt8 := 1
def ETX : UInt8 := 3
def CR : UInt8 := 13

/-- `\r\r\n` -/
def crcrlf : Bytes := [13, 13, 10]

/-! ## Bytes of Python -/

/-- `str.encode('ascii')`, of texts that are. -/
def encode (s : Str) : Bytes := s.map fun c => UInt8.ofNat c.toNat

def decode (b : Bytes) : Str := b.map fun c => Char.ofNat c.toNat

/-- `'{n:0wd}'`: wider where the number is. -/
def zeros (w n : Nat) : Str := pad (max w (digitCount n)) n

def ascii (b : Bytes) : Bool := b.all (· < 128)

def digit (c : UInt8) : Bool := 48 ≤ c && c < 58

/-- `.decode('ascii').isnumeric()`, where it can be decoded. -/
def isnumeric (b : Bytes) : Option Bool :=
  if ascii b then some (!b.isEmpty && b.all digit) else none

/-- A place of a slice: a negative one counts from the end. -/
def place (n : Nat) (i : Int) : Nat := if i < 0 then (n + i).toNat else i.toNat

/-- `b[i:j]` -/
def slice (b : Bytes) (i j : Int) : Bytes :=
  (b.drop (place b.length i)).take (place b.length j - place b.length i)

/-- Whether `b[i]` is there. -/
def inRange (b : Bytes) (i : Int) : Bool := decide (-(b.length : Int) ≤ i ∧ i < b.length)

/-- `int(b)`, where that is a number: of bytes only the ASCII blanks are taken off. -/
def int (b : Bytes) : Option Int :=
  if b.all fun c => c < 128 && !(28 ≤ c && c < 32) then readInt (decode b) else none

/-! ## The writer -/

/-- `\r\r\n`, a number in `width` digits, and `\r\r\n` again, at a place. -/
def numberAt (b : Bytes) (start width : Int) : Option Bool :=
  if slice b start (start + 3) = crcrlf then
    (isnumeric (slice b (start + 3) (start + 3 + width))).map fun numeric =>
      numeric && decide (slice b (start + 3 + width) (start + 3 + width + 3) = crcrlf)
  else some false

/-- With the inner envelope, unless a header cannot be decoded. -/
def innerEnvelope (input_data : Bytes) : Option Bytes :=
  if input_data.head? ≠ some SOH then do
    let n3hdr ← numberAt input_data 0 3
    let n5hdr ← numberAt input_data 0 5
    if n3hdr || n5hdr then some (SOH :: input_data ++ [ETX])
    else some (SOH :: crcrlf ++ encode (zeros 5 (input_data.length + 13)) ++ crcrlf ++ input_data ++ [ETX])
  else (numberAt input_data 1 5).map fun _ => input_data

/-- `'{len(b):08d}\0\0'` -/
def outerHeader (b : Bytes) : Bytes := encode (zeros 8 b.length) ++ [0, 0]

/-- What is written for a file, and how many bytes are counted for it. -/
def output_record (input_data : Bytes) : Option (Bytes × Nat) :=
  if slice input_data 8 11 ≠ [48, 48, 1] then
    (innerEnvelope input_data).map fun enveloped => (outerHeader enveloped ++ enveloped, enveloped.length + 10)
  else (numberAt input_data 11 5).map fun _ => (input_data, input_data.length + 10)

/-- The digits of the names of accumulated files. -/
structure Sequence where
  first_digit : Nat
  second_digit : Nat
  sequence : Nat
  thisday : Nat
  bound : sequence ≤ 999999

/-- The next number, from 0 again after 999999. -/
def Sequence.next (s : Sequence) : Sequence :=
  if last : s.sequence + 1 > 999999 then { s with sequence := 0, bound := Nat.zero_le _ }
  else { s with sequence := s.sequence + 1, bound := Nat.not_lt.mp last }

/-- The number is used again. -/
def Sequence.back (s : Sequence) : Sequence :=
  if s.sequence > 0 then { s with sequence := s.sequence - 1, bound := (Nat.sub_le _ _).trans s.bound } else s

def Sequence.ofDay (s : Sequence) (today : Nat) : Sequence :=
  if today ≠ s.thisday then { s with thisday := today, sequence := 0, bound := Nat.zero_le _ } else s

abbrev Files := Str → Option Bytes

/-- What is being done by one call: the file that is open, how many bytes were counted in it, the
files there are, and the paths that were announced. -/
structure Writer where
  sequence : Sequence
  accumulated_file : Str
  output_length : Nat
  files : Files
  incoming : List Str

section Accumulate
variable (o : Options)

def accumulated_name (s : Sequence) : Str :=
  o.wmo00_work_directory ++ '/' :: o.wmo00_origin_CCCC ++ (toString s.first_digit).toList ++
    (toString s.second_digit).toList ++ zeros 6 s.sequence ++ '.' :: o.wmo00_type_marker

def open_accumulated_file (w : Writer) : Writer :=
  { w with
    sequence := w.sequence.next
    accumulated_file := accumulated_name o w.sequence
    output_length := 0
    files := Function.update w.files (accumulated_name o w.sequence) (some []) }

def announce (w : Writer) : Writer := { w with incoming := w.incoming ++ [w.accumulated_file] }

/-- What is there already of the file that is open. -/
def Writer.written (w : Writer) : Bytes := (w.files w.accumulated_file).getD []

def write (w : Writer) (record : Bytes × Nat) : Writer :=
  { w with
    output_length := w.output_length + record.2
    files := Function.update w.files w.accumulated_file (some (w.written ++ record.1)) }

/-- A new file, where there is no room in the one that is open. -/
def makeRoom (w : Writer) (size : Nat) : Writer :=
  if w.output_length + size + 22 > o.wmo00_accumulatedByteCountMax then open_accumulated_file o (announce w) else w

/-- One message. An error is what a header that cannot be decoded leaves behind. -/
def accumulateOne (w : Writer) (input_data : Bytes) : Except Writer Writer :=
  if input_data.length < 12 then .ok w
  else if input_data.length > o.wmo00_byteCountMax then .ok w
  else
    match output_record input_data with
    | none => .error (makeRoom o w input_data.length)
    | some record => .ok (write (makeRoom o w input_data.length) record)

/-- The last file is announced, unless nothing is in it. -/
def finish (w : Writer) : Writer :=
  if w.written.length > 0 then announce w
  else { w with sequence := w.sequence.back, files := Function.update w.files w.accumulated_file none }

/-- `Wmo00_accumulate.after_accept` -/
def accumulate (today : Nat) (s : Sequence) (files : Files) (contents : List Bytes) : Except Writer Writer :=
  if contents.isEmpty then .ok ⟨s, [], 0, files, []⟩
  else (contents.foldlM (accumulateOne o) (open_accumulated_file o ⟨s.ofDay today, [], 0, files, []⟩)).map finish

end Accumulate

/-! ## The reader -/

section Split
variable (o : Options) (md5 : Bytes → Str) (opens : Str → Bool)

/-- `payload[0:payload.find(b'\r')]`; the last byte is cut off where there is none. -/
def ahlOf (payload : Bytes) : Bytes :=
  if CR ∈ payload then payload.takeWhile (· ≠ CR) else payload.dropLast

def filename (ahl : Str) (sum : Str) : Str :=
  (ahl.map fun c => if c = ' ' then '_' else c) ++ (if ahl.length > 19 then [] else ['_']) ++ '_' :: sum

def directory (ahl : Str) : Str :=
  if o.wmo00_tree then
    o.wmo00_work_directory ++ '/' :: Text.slice ahl 0 2 ++ '/' :: Text.slice ahl 7 11 ++ '/' :: Text.slice ahl 14 16
  else o.wmo00_work_directory

def fname (ahl : Str) (sum : Str) : Str := directory o ahl ++ '/' :: filename ahl sum

/-- What is in the file. -/
def fileContent (encapsulated_payload payload : Bytes) : Bytes :=
  if o.wmo00_encapsulate then encapsulated_payload else payload

/-- The file of one record, as it is announced, if any. Nothing where an exception is raised: a
heading that is not ASCII, or a path that the system does not open. -/
def bulletin (encapsulated_payload payload : Bytes) : Option (List (Str × Bytes)) :=
  let ahl := ahlOf payload
  let content := fileContent o encapsulated_payload payload
  if ascii ahl then
    if ahl.length < 18 then some []
    else if opens (fname o (decode ahl) (md5 content)) then some [(fname o (decode ahl) (md5 content), content)]
    else none
  else none

/-- `10 if input_data[current+9] == b'\r' else 12`: a byte of `bytes` is an `int`, and never equal
to `b'\r'`. -/
def payload_start (input_data : Bytes) (current : Int) : Option Int :=
  if inRange input_data (current + 9) then some 12 else none

/-- What was announced, and whether an exception was raised then. -/
abbrev Announced := List (Str × Bytes) × Bool

/-- An exception leaves what comes after it unread. -/
def followed (first : Announced) (rest : Option Announced) : Option Announced :=
  if first.2 then some first else rest.map fun r => (first.1 ++ r.1, r.2)

def raisedOr : Option (List (Str × Bytes)) → Announced
  | none => ([], true)
  | some new => (new, false)

/-- The records from `current` on. -/
def records (input_data : Bytes) : Nat → Int → Option Announced
  | 0, _ => none
  | fuel + 1, current =>
    if current + 13 < input_data.length then
      match int (slice input_data current (current + 8)) with
      | none => some ([], false)
      | some payload_len =>
        if current + payload_len > input_data.length then some ([], false)
        else
          match payload_start input_data (current + 10) with
          | none => some ([], true)
          | some start =>
            followed (raisedOr (bulletin o md5 opens (slice input_data (current + 10) (current + 10 + payload_len))
                (slice input_data (current + 10 + start) (current + 10 + payload_len - 1))))
              (records input_data fuel (current + 10 + payload_len))
    else some ([], false)

/-- `Wmo00_split.after_accept`. Nothing where it does not end. -/
def split (fuel : Nat) : List Bytes → Option Announced
  | [] => some ([], false)
  | input_data :: more =>
    if input_data.length < 12 then split fuel more
    else (records o md5 opens input_data fuel 0).bind fun first => followed first (split fuel more)

end Split
end Sarracenia.Source.Wmo00

/-!
## The worklists of the WMO-00 plugins (`wmo00_accumulate.py`, `wmo00_split.py`)

What is in a message, and the message that is made for a file, are given from outside.
-/
namespace Sarracenia.Source.Wmo00
open Library Library.Text
open Source.Transfer (Bytes)

structure Worklist (μ : Type) where
  incoming : List μ
  ok : List μ
  rejected : List μ
  failed : List μ

/-- What a call does with its files, and the worklists meanwhile. -/
structure Call (μ : Type) where
  writer : Writer
  worklist : Worklist μ

section Calls
variable {μ : Type} (o : Options) (getContent : μ → Bytes) (fromFileData : Str → Bytes → μ)

/-- A message for the file that is open, as it is now. -/
def Call.announce (c : Call μ) : Call μ where
  writer := Wmo00.announce c.writer
  worklist := { c.worklist with incoming := c.worklist.incoming ++ [fromFileData c.writer.accumulated_file c.writer.written] }

def Call.makeRoom (c : Call μ) (size : Nat) : Call μ :=
  if c.writer.output_length + size + 22 > o.wmo00_accumulatedByteCountMax then
    { c.announce fromFileData with writer := open_accumulated_file o (c.announce fromFileData).writer }
  else c

/-- One message of the batch. -/
def accumulateMessage (c : Call μ) (m : μ) : Except (Call μ) (Call μ) :=
  let input_data := getContent m
  if input_data.length < 12 then .ok c
  else if input_data.length > o.wmo00_byteCountMax then .ok c
  else
    let c := c.makeRoom o fromFileData input_data.length
    match output_record input_data with
    | none => .error c
    | some record => .ok { c with writer := write c.writer record }

def Call.finish (c : Call μ) : Call μ :=
  if c.writer.written.length > 0 then c.announce fromFileData else { c with writer := Wmo00.finish c.writer }

/-- `Wmo00_accumulate.after_accept`. An error is what an exception leaves behind. -/
def accumulate_after_accept (today : Nat) (s : Sequence) (files : Files) (worklist : Worklist μ) : Except (Call μ) (Call μ) :=
  if worklist.incoming.isEmpty then .ok ⟨⟨s, [], 0, files, []⟩, worklist⟩
  else
    (worklist.incoming.foldlM (accumulateMessage o getContent fromFileData)
      ⟨open_accumulated_file o ⟨s.ofDay today, [], 0, files, []⟩, { worklist with incoming := [] }⟩).map
        (Call.finish fromFileData)

/-- `Wmo00_split.after_accept`, and whether it raises. Nothing where it does not end. -/
def split_after_accept (md5 : Bytes → Str) (opens : Str → Bool) (fuel : Nat) (worklist : Worklist μ) : Option (Worklist μ × Bool) :=
  if worklist.incoming.isEmpty then some (worklist, false)
  else
    (split o md5 opens fuel (worklist.incoming.map getContent)).map fun announced =>
      ({ worklist with incoming := announced.1.map fun file => fromFileData file.1 file.2 }, announced.2)

end Calls
end Sarracenia.Source.Wmo00
