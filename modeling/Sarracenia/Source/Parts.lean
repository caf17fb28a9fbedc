import Sarracenia.Source.Message

/-!
# Announcing a file in blocks (`post_file_in_parts` of `sarracenia/flowcb/gather/file.py`)

One message for each block of a file. What `fromFileInfo` gives about the file, and the
checksum of each block, come from outside; the manifest, which no sender reads, is left out.
-/
namespace Sarracenia.Source.Parts
open Library Library.Text Library.Dynamic

/-- What `fromFileInfo` sets in a message: an offset is none of it. -/
structure FileInfo where
  fields : Message
  no_offset : fields.get "offset" = none

def set_blockSize (bssetting fsiz : Nat) : Nat :=
  if bssetting = 0 then 50 * 1024 * 1024 else if bssetting = 1 then fsiz else bssetting

section Blocks
variable (fsiz chunksize : Nat)

def block_count : Nat := fsiz / chunksize + if 0 < fsiz % chunksize then 1 else 0

/-- The length of a block: the last one may be shorter. -/
def blockLength (current_block : Nat) : Nat :=
  if current_block + 1 = block_count fsiz chunksize ∧ 0 < fsiz % chunksize then fsiz % chunksize
  else chunksize

def blockMessage (info : FileInfo) (identity : Nat → Value) (current_block : Nat) : Message :=
  let msg := info.fields.set "blocks" (.dict [("method", .str "inplace".toList),
    ("size", .int chunksize), ("number", .int current_block)])
  let msg := Dict.set msg "size" (.int (blockLength fsiz chunksize current_block))
  Dict.set msg "identity" (identity current_block)

end Blocks

/-- The messages in the order of the blocks, which may be shuffled. -/
def post_file_in_parts (bssetting fsiz : Nat) (info : FileInfo) (identity : Nat → Value)
    (blocks : List Nat) : List Message :=
  blocks.map (blockMessage fsiz (set_blockSize bssetting fsiz) info identity)

end Sarracenia.Source.Parts
