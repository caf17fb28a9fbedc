import Sarracenia.Library.Decimal
import Sarracenia.Library.Dynamic
import Sarracenia.Library.Table
import Sarracenia.Source.Transfer

/-!
# Reassembly of blocks (`flowcb/block_reassembly.py`, `blockmanifest.py`)

Blocks that were downloaded into files of their own are written into the file they belong to.
What is still waited for stands in a manifest beside that file, which comes back as it was
written. Numbers and sizes of blocks are natural; of an entry of a manifest only its size is
read. Block files, the files they belong to and manifests have no name in common, and names
have no line ends. The locks, the log and the reports are left out.
-/
namespace Sarracenia.Source.Reassembly
open Library Library.Text Library.Dynamic
open Source.Transfer (Bytes patch setLength)

/-- `m['blocks']`; its number goes when the file is complete. -/
structure Blocks where
  method : Str
  size : Nat
  number : Option Nat
  manifest : Table Nat Nat

structure Message where
  relPath : Str
  new_dir : Str
  new_file : Str
  size : Option Nat
  blocks : Option Blocks

/-- The manifest beside a file: the blocks it has, and those it waits for. -/
structure Record where
  manifest : Option (Table Nat Nat)
  waiting : Option (Table Nat Nat)

/-- The files that are put together and their manifests, and the block files. -/
structure Disk where
  roots : Str → Option Bytes
  records : Str → Option Record
  parts : Str → Option Bytes

/-- `parse_size` tells which texts `humanfriendly` reads as a size. -/
structure Options where
  inflight : Bool
  bufSize : Nat
  block_manifest_delete : Bool
  parse_size : Str → Bool

section Updates
variable (disk : Disk) (name : Str)

def Disk.setRoot (content : Bytes) : Disk :=
  { disk with roots := fun n => if n = name then some content else disk.roots n }

def Disk.setRecord (record : Option Record) : Disk :=
  { disk with records := fun n => if n = name then record else disk.records n }

def Disk.unlinkPart : Disk :=
  { disk with parts := fun n => if n = name then none else disk.parts n }

end Updates

section Names
variable (m : Message)

/-- `'blocks' in m and m['relPath'].endswith('_§')`. -/
def Message.isBlock : Bool := m.blocks.isSome && "_§".toList.isSuffixOf m.relPath

/-- `s[0:s.find("§block_")]`, without the last character where there is none. -/
def upToBlock (s : Str) : Str :=
  match find "§block_".toList s with
  | some i => s.take i
  | none => s.dropLast

/-- What `§block_.*_§` matches in a name that ends so. -/
def blk_suffix (rp : Str) : Option Str :=
  (find "§block_".toList rp).bind fun i =>
    if "_§".toList.isSuffixOf (rp.drop (i + 7)) then some (rp.drop i) else none

def part_file : Str := m.new_dir ++ '/' :: m.new_file

def root_file : Str := m.new_dir ++ '/' :: lastPiece ['/'] (upToBlock m.relPath)

/-- The root that the message names at the end. -/
def final_file : Str := m.new_dir ++ '/' :: upToBlock m.new_file

end Names

inductive Outcome where
  | passed (m : Message)
  | rejected (m : Message)

section Block
variable (o : Options)

/-- The sizes of the blocks before. -/
def offsetOf (manifest : Table Nat Nat) : Nat → Option Nat
  | 0 => some 0
  | i + 1 => do return (← offsetOf manifest i) + (← manifest.get i)

/-- What the copy loop reads of a block file; the end of a file that is too short is read for
ever. -/
def copied (data : Bytes) (byteCount : Nat) : Option Bytes :=
  if byteCount = 0 then some []
  else
    let b := data.take (max o.bufSize byteCount)
    if byteCount ≤ b.length then some b else none

/-- `rf.seek(offset)` and what is written there; nothing written leaves the length. -/
def writeAt (offset : Nat) (bytes rf : Bytes) : Bytes :=
  if bytes = [] then rf else patch rf offset bytes

/-- The manifest as it is read: without a waiting list, every block is waited for. -/
def old_blocks (manifest : Table Nat Nat) (record : Option Record) : Option Record :=
  record.map fun r => { r with waiting := some (r.waiting.getD manifest) }

/-- What is received and what is waited for, before this block is counted. -/
def tables (manifest : Table Nat Nat) (record : Option Record) : Table Nat Nat × Table Nat Nat :=
  match old_blocks manifest record with
  | some ⟨some received, some waiting⟩ => (received, waiting)
  | _ => (Table.empty, manifest)

/-- The size of the file before: that of the blocks in its manifest, or its own. -/
def old_sz (record : Option Record) (rf : Bytes) : Nat :=
  match record.bind (·.manifest) with
  | some received => received.total
  | none => rf.length

/-- The message that announces the file. -/
def completed (m : Message) (blocks : Blocks) : Message where
  relPath := upToBlock m.relPath
  new_dir := m.new_dir
  new_file := upToBlock m.new_file
  size := some blocks.manifest.total
  blocks := some { blocks with method := "inplace".toList, number := none }

/-- A block goes to its place, and the message on if it was the last one. -/
def place (m : Message) (blocks : Blocks) (blkno : Nat) (disk : Disk) :
    Disk × Except Fault Outcome :=
  match disk.parts (part_file m) with
  | none => (disk, .error .osError)
  | some data =>
    let root := root_file m
    let rf := (disk.roots root).getD []
    let new_sz := blocks.manifest.total
    let rf := if new_sz < old_sz (disk.records root) rf then setLength new_sz rf else rf
    let record := disk.records root
    let disk := disk.setRoot root rf
    match blocks.manifest.get blkno, offsetOf blocks.manifest blkno with
    | some byteCount, some offset =>
      match copied o data byteCount with
      | none => (disk, .error .diverges)
      | some bytes =>
        let received := (tables blocks.manifest record).1.set blkno byteCount
        let waiting := (tables blocks.manifest record).2.erase blkno
        let disk := (disk.setRoot root (writeAt offset bytes rf)).unlinkPart (part_file m)
        if !waiting.entries.isEmpty then
          (disk.setRecord root (some ⟨some received, some waiting⟩), .ok (.rejected m))
        else if o.block_manifest_delete then
          (disk.setRecord (final_file m) none, .ok (.passed (completed m blocks)))
        else
          (disk.setRecord root (some ⟨some received, none⟩), .ok (.passed (completed m blocks)))
    | _, _ => (disk, .error .keyError)

/-- What is done with one message. -/
def reassemble (m : Message) (disk : Disk) : Disk × Except Fault Outcome :=
  if !m.isBlock then (disk, .ok (.passed m))
  else match m.blocks, (blk_suffix m.relPath).map (split [',']) with
  | some blocks, some (first :: second :: _) =>
    match Decimal.readInt (first.drop 7) with
    | none => (disk, .error .valueError)
    | some blkno =>
      if !o.parse_size second then (disk, .error .valueError)
      else match blocks.number with
      | some number =>
        if blkno = number then place o m blocks number disk else (disk, .error .keyError)
      | none => (disk, .error .keyError)
  | _, some _ => (disk, .ok (.passed m))
  | _, none => (disk, .error .attributeError)

/-- What a pass leaves: the lists of messages that go on and that are rejected. An exception
leaves the first list as it came. -/
structure Result where
  disk : Disk
  ok : List Message
  rejected : List Message
  fault : Option Fault

def reassembleAll : List Message → Disk → Result
  | [], disk => ⟨disk, [], [], none⟩
  | m :: rest, disk =>
    match reassemble o m disk with
    | (disk, .error fault) => ⟨disk, m :: rest, [], some fault⟩
    | (disk, .ok (.passed m)) =>
      let result := reassembleAll rest disk
      { result with ok := m :: result.ok }
    | (disk, .ok (.rejected m)) =>
      let result := reassembleAll rest disk
      { result with
        ok := if result.fault.isSome then m :: result.ok else result.ok
        rejected := m :: result.rejected }

/-- `after_work`; with a setting for temporary files it does nothing. -/
def after_work (ok : List Message) (disk : Disk) : Result :=
  if o.inflight then ⟨disk, ok, [], none⟩ else reassembleAll o ok disk

end Block

end Sarracenia.Source.Reassembly
