import Sarracenia.Source.Reassembly

/-!
# The copy loop of reassembly (`Block_reassembly.after_work` of `flowcb/block_reassembly.py`)

Turn by turn, from `rf.seek(offset)` on: a read gives what is asked for, unless the block file ends. What is written is also
kept with where it went.
-/
namespace Sarracenia.Source.Reassembly
open Source.Transfer (Bytes)

/-- The variables of the loop, what is left to read, the root file and the writes. -/
structure Copying where
  pf : Bytes
  rf : Bytes
  position : Nat
  sz : Int
  bytesTransferred : Nat
  written : List (Nat × Bytes)

section Loop
variable (bufSize byteCount : Nat)

/-- After the seek. -/
def Copying.start (offset : Nat) (pf rf : Bytes) : Copying where
  pf := pf
  rf := rf
  position := offset
  sz := if bufSize > byteCount then bufSize else byteCount
  bytesTransferred := 0
  written := []

def Copying.running (c : Copying) : Bool := c.bytesTransferred < byteCount

def Copying.turn (c : Copying) : Copying :=
  let b := c.pf.take c.sz.toNat
  let bytesTransferred := c.bytesTransferred + b.length
  let bytesLeft : Int := byteCount - bytesTransferred
  { pf := c.pf.drop c.sz.toNat
    rf := writeAt c.position b c.rf
    position := c.position + b.length
    sz := if (bufSize : Int) > bytesLeft then bufSize else bytesLeft
    bytesTransferred := bytesTransferred
    written := c.written ++ [(c.position, b)] }

/-- The loop, in so many turns at most. -/
def Copying.turns : Nat → Copying → Copying
  | 0, c => c
  | n + 1, c => if c.running byteCount then Copying.turns n (c.turn bufSize byteCount) else c

end Loop
end Sarracenia.Source.Reassembly
