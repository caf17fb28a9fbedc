import Sarracenia.Source.BlockCopy
import Sarracenia.Guarantees.Writing

/-!
# Whether the copy loop keeps to its block

A read asks for what is left of the block, and for more where the buffer is larger. A block file that is too short is read for
ever, and one that is too long is written over the block behind.
-/
namespace Sarracenia.Guarantees.Reassembly
open Source.Reassembly Guarantees.Writing
open Source.Transfer (Bytes patch)

variable (bufSize byteCount offset : Nat) (data rf : Bytes)

/-- The loop after so many turns at most. -/
abbrev loop (n : Nat) : Copying := Copying.turns bufSize byteCount n (Copying.start bufSize byteCount offset data rf)

/-- The loop comes to an end, and writes within its block; then every other byte is as it was. -/
structure Bounded : Prop where
  ends : ∃ n, (loop bufSize byteCount offset data rf n).running byteCount = false
  within : ∀ n, ∀ w ∈ (loop bufSize byteCount offset data rf n).written, ∀ i, w.1 ≤ i → i < w.1 + w.2.length →
    offset ≤ i ∧ i < offset + byteCount
  kept : ∀ n i, i < rf.length → i < offset ∨ offset + byteCount ≤ i → (loop bufSize byteCount offset data rf n).rf[i]? = rf[i]?

/-- What holds before and after every turn. -/
structure Along (c : Copying) : Prop where
  short : c.bytesTransferred ≤ data.length
  pf : c.pf = data.drop c.bytesTransferred
  position : c.position = offset + c.bytesTransferred
  sz : c.sz = max (bufSize : Int) (byteCount - c.bytesTransferred)
  rf : c.rf = writeAt offset (data.take c.bytesTransferred) rf
  written : ∀ w ∈ c.written, offset ≤ w.1 ∧ w.1 + w.2.length ≤ offset + c.bytesTransferred

section Turns
variable {bufSize byteCount offset data rf} {c : Copying} {n : Nat}

theorem max_of_ite (a b : Int) : (if a > b then a else b) = max a b := by
  split <;> omega

variable (bufSize byteCount offset data rf) in
theorem along_start : Along bufSize byteCount offset data rf (Copying.start bufSize byteCount offset data rf) where
  short := Nat.zero_le _
  pf := rfl
  position := rfl
  sz := by
    have same : (if bufSize > byteCount then (bufSize : Int) else byteCount) = max (bufSize : Int) (byteCount - (0 : Nat)) := by
      split <;> omega
    exact same
  rf := rfl
  written := nofun

/-- How much a turn reads. -/
theorem turn_count (along : Along bufSize byteCount offset data rf c) :
    (c.turn bufSize byteCount).bytesTransferred = c.bytesTransferred + min c.sz.toNat (data.length - c.bytesTransferred) := by
  unfold Copying.turn
  dsimp only
  rw [List.length_take, along.pf, List.length_drop]

theorem writeAt_append (offset : Nat) (a b rf : Bytes) : writeAt (offset + a.length) b (writeAt offset a rf) = writeAt offset (a ++ b) rf := by
  unfold writeAt
  by_cases second : b = []
  · rw [if_pos second, second, List.append_nil]
  · have both : a ++ b ≠ [] := fun none_ => second (List.append_eq_nil_iff.mp none_).2
    rw [if_neg second, if_neg both]
    by_cases first : a = []
    · rw [if_pos first, first]
      rfl
    · rw [if_neg first, patch_patch]

theorem along_turn (along : Along bufSize byteCount offset data rf c) : Along bufSize byteCount offset data rf (c.turn bufSize byteCount) := by
  have count := turn_count along
  have short := along.short
  have read : (c.pf.take c.sz.toNat).length = min c.sz.toNat (data.length - c.bytesTransferred) := by
    rw [List.length_take, along.pf, List.length_drop]
  refine ⟨?_, ?_, ?_, max_of_ite _ _, ?_, ?_⟩
  · rw [count]
    omega
  · rw [count]
    change c.pf.drop c.sz.toNat = _
    rw [along.pf, List.drop_drop]
    rcases Nat.le_total c.sz.toNat (data.length - c.bytesTransferred) with full | last
    · rw [Nat.min_eq_left full]
    · rw [List.drop_eq_nil_of_le (by omega), List.drop_eq_nil_of_le (by omega)]
  · change c.position + (c.pf.take c.sz.toNat).length = offset + (c.bytesTransferred + (c.pf.take c.sz.toNat).length)
    rw [along.position, Nat.add_assoc]
  · have front : (data.take c.bytesTransferred).length = c.bytesTransferred := List.length_take_of_le short
    have whole : data.take (c.bytesTransferred + c.sz.toNat) = data.take (c.turn bufSize byteCount).bytesTransferred := by
      rw [List.take_eq_take_iff, count]
      omega
    change writeAt c.position (c.pf.take c.sz.toNat) c.rf = _
    have behind := writeAt_append offset (data.take c.bytesTransferred) ((data.drop c.bytesTransferred).take c.sz.toNat) rf
    rw [front] at behind
    rw [along.position, along.rf, along.pf, behind, ← List.take_add, whole]
  · rintro w member
    rcases List.mem_append.mp member with before | now
    · obtain ⟨first, last⟩ := along.written w before
      refine ⟨first, last.trans ?_⟩
      rw [count]
      omega
    · obtain rfl := List.mem_singleton.mp now
      change offset ≤ c.position ∧ c.position + (c.pf.take c.sz.toNat).length ≤ _
      rw [along.position, read, count]
      omega

theorem along_turns (along : Along bufSize byteCount offset data rf c) (n : Nat) :
    Along bufSize byteCount offset data rf (Copying.turns bufSize byteCount n c) := by
  induction n generalizing c with
  | zero => exact along
  | succ n ih =>
    unfold Copying.turns
    split
    · exact ih (along_turn along)
    · exact along

variable (bufSize byteCount offset data rf) in
theorem along_loop (n : Nat) : Along bufSize byteCount offset data rf (loop bufSize byteCount offset data rf n) :=
  along_turns (along_start bufSize byteCount offset data rf) n

/-- Where the block file is short, the loop goes on for ever. -/
theorem runs_on (short : data.length < byteCount) (n : Nat) : (loop bufSize byteCount offset data rf n).running byteCount = true :=
  decide_eq_true ((along_loop bufSize byteCount offset data rf n).short.trans_lt short)

theorem turns_stopped (stopped : c.running byteCount = false) (n : Nat) : Copying.turns bufSize byteCount n c = c := by
  cases n with
  | zero => rfl
  | succ n =>
    unfold Copying.turns
    rw [if_neg (by rw [stopped]; exact Bool.false_ne_true)]

variable (bufSize byteCount offset data rf) in
/-- The first read asks for the larger of the buffer and the block. -/
theorem first_count : ((Copying.start bufSize byteCount offset data rf).turn bufSize byteCount).bytesTransferred =
    min (max bufSize byteCount) data.length := by
  have along := along_start bufSize byteCount offset data rf
  have none_ : (Copying.start bufSize byteCount offset data rf).bytesTransferred = 0 := rfl
  rw [turn_count along, along.sz, none_]
  omega

variable (bufSize byteCount offset data rf) in
/-- Where there is enough to read, the first read is the last. -/
theorem loop_count (enough : byteCount ≤ data.length) (n : Nat) :
    (loop bufSize byteCount offset data rf (n + 1)).bytesTransferred = if byteCount = 0 then 0 else min (max bufSize byteCount) data.length := by
  have first := first_count bufSize byteCount offset data rf
  by_cases nothing : byteCount = 0
  · have stopped : (Copying.start bufSize byteCount offset data rf).running byteCount = false := by
      rw [nothing]
      rfl
    rw [if_pos nothing, loop, turns_stopped stopped]
    rfl
  · have runs : (Copying.start bufSize byteCount offset data rf).running byteCount = true := decide_eq_true (Nat.pos_of_ne_zero nothing)
    have stopped : ((Copying.start bufSize byteCount offset data rf).turn bufSize byteCount).running byteCount = false := by
      unfold Copying.running
      rw [first, decide_eq_false_iff_not]
      omega
    rw [if_neg nothing, loop, Copying.turns, if_pos runs, turns_stopped stopped, first]

/-- Where no turn counts more than the block has, the others are left alone. -/
theorem bounded_of_count (ends : ∃ n, (loop bufSize byteCount offset data rf n).running byteCount = false)
    (within : ∀ n, (loop bufSize byteCount offset data rf n).bytesTransferred ≤ byteCount) : Bounded bufSize byteCount offset data rf := by
  refine ⟨ends, ?_, ?_⟩
  · intro n w member i lower upper
    obtain ⟨first, last⟩ := (along_loop bufSize byteCount offset data rf n).written w member
    have count := within n
    omega
  · intro n i inside outside
    have along := along_loop bufSize byteCount offset data rf n
    have count := within n
    have size : (data.take (loop bufSize byteCount offset data rf n).bytesTransferred).length =
        (loop bufSize byteCount offset data rf n).bytesTransferred := List.length_take_of_le along.short
    rw [along.rf]
    unfold writeAt
    split
    · rfl
    · rcases outside with before | after
      · exact patch_getElem?_before before inside
      · exact patch_getElem?_after (by rw [size]; omega)

end Turns

/-- The loop ends and keeps to its block exactly where the block file has all of the block and, unless there is nothing to copy,
no more than the block, or the buffer is not larger than the block. -/
theorem bounded_iff : Bounded bufSize byteCount offset data rf ↔
    byteCount ≤ data.length ∧ (byteCount = 0 ∨ data.length ≤ byteCount ∨ bufSize ≤ byteCount) := by
  constructor
  · intro bounded
    obtain ⟨n, stopped⟩ := bounded.ends
    have enough : byteCount ≤ data.length := by
      by_contra short
      rw [runs_on (Nat.lt_of_not_le short)] at stopped
      cases stopped
    refine ⟨enough, ?_⟩
    by_contra beyond
    have some_ : byteCount ≠ 0 := fun nothing => beyond (.inl nothing)
    have long : byteCount < data.length := Nat.lt_of_not_le fun fits => beyond (.inr (.inl fits))
    have large : byteCount < bufSize := Nat.lt_of_not_le fun fits => beyond (.inr (.inr fits))
    -- the first write reaches the byte behind the block
    have wrote : (offset, data.take (Copying.start bufSize byteCount offset data rf).sz.toNat) ∈
        (loop bufSize byteCount offset data rf 1).written := by
      have runs : (Copying.start bufSize byteCount offset data rf).running byteCount = true := decide_eq_true (Nat.pos_of_ne_zero some_)
      rw [loop, Copying.turns, if_pos runs]
      exact List.mem_singleton_self _
    have size : (data.take (Copying.start bufSize byteCount offset data rf).sz.toNat).length = min (max bufSize byteCount) data.length := by
      have along := along_start bufSize byteCount offset data rf
      have none_ : (Copying.start bufSize byteCount offset data rf).bytesTransferred = 0 := rfl
      rw [List.length_take, along.sz, none_]
      omega
    have behind := bounded.within 1 _ wrote (offset + byteCount) (Nat.le_add_right _ _) (by
      dsimp only
      rw [size]
      omega)
    exact Nat.lt_irrefl _ behind.2
  · rintro ⟨enough, fits⟩
    have count := loop_count bufSize byteCount offset data rf enough
    apply bounded_of_count
    · refine ⟨1, ?_⟩
      unfold Copying.running
      rw [count 0, decide_eq_false_iff_not]
      split <;> omega
    · intro n
      cases n with
      | zero => exact Nat.zero_le _
      | succ n =>
        rw [count n]
        split <;> omega

/-- A block file with more than its block, over the block behind. -/
theorem next_block_overwritten : ¬ ∀ (bufSize byteCount offset : Nat) (data rf : Bytes), 0 < bufSize →
    Bounded bufSize byteCount offset data rf := by
  intro all
  have kept := (all 4 2 0 [1, 2, 3] [7, 7, 7, 7] (by decide)).kept 1 2 (by decide) (by decide)
  exact absurd kept (by decide)

section Copied
variable {o : Options} {byteCount offset} {data rf}

/-- What the loop leaves where it ends is what is said of it in the pass over a block. -/
theorem copied_loop {bytes : Bytes} (is : copied o data byteCount = some bytes) :
    ∃ n, (loop o.bufSize byteCount offset data rf n).running byteCount = false ∧
      (loop o.bufSize byteCount offset data rf n).rf = writeAt offset bytes rf := by
  refine ⟨1, ?_⟩
  have along := along_loop o.bufSize byteCount offset data rf 1
  unfold copied at is
  by_cases nothing : byteCount = 0
  · rw [if_pos nothing] at is
    obtain rfl := Option.some.inj is
    have count := loop_count o.bufSize byteCount offset data rf (nothing ▸ Nat.zero_le data.length) 0
    rw [if_pos nothing] at count
    refine ⟨?_, ?_⟩
    · unfold Copying.running
      rw [count, nothing]
      rfl
    · rw [along.rf, count, List.take_zero]
  · rw [if_neg nothing] at is
    dsimp only at is
    split at is
    · next enough =>
      obtain rfl := Option.some.inj is
      rw [List.length_take] at enough
      have count := loop_count o.bufSize byteCount offset data rf (by omega) 0
      rw [if_neg nothing] at count
      refine ⟨?_, ?_⟩
      · unfold Copying.running
        rw [count, decide_eq_false_iff_not]
        omega
      · have cut : data.take (min (max o.bufSize byteCount) data.length) = data.take (max o.bufSize byteCount) := by
          rw [List.take_eq_take_iff]
          omega
        rw [along.rf, count, cut]
    · cases is

/-- Where nothing is said to be left, it does not end. -/
theorem copied_none (is : copied o data byteCount = none) (n : Nat) :
    (loop o.bufSize byteCount offset data rf n).running byteCount = true := by
  apply runs_on
  unfold copied at is
  split at is
  · cases is
  · dsimp only at is
    split at is
    · cases is
    · next short =>
      rw [List.length_take] at short
      omega

end Copied
end Sarracenia.Guarantees.Reassembly
