import Mathlib.Tactic.IntervalCases
import Sarracenia.Guarantees.Reassembly.Versions

/-!
# Runs of the reassembly

Passes follow each other, and before each one other block files may have been downloaded. As
long as every block that comes may come, a pass sorts its messages: what goes on announces a
file that is complete, once for each version whose blocks all came, and the other block
messages are rejected. Where the rest of another version is waited for, the file that is
announced can be a mixture of the two.
-/
namespace Sarracenia.Guarantees.Reassembly
open Library Library.Text Library.Pieces Source.Reassembly
open Source.Transfer (Bytes)

/-- A message of a pass, with its block where it is the message for one. -/
structure Arrival where
  message : Message
  piece : Option Piece

section Passes
variable (o : Options)

/-- What becomes of the blocks of a pass. -/
def events : List Arrival → Disk → List Event
  | [], _ => []
  | ⟨m, none⟩ :: rest, disk => events rest (reassemble o m disk).1
  | ⟨m, some p⟩ :: rest, disk => event o m p disk :: events rest (reassemble o m disk).1

/-- Every block of the pass may come when its turn is there. -/
inductive Careful : List Event → Disk → List Arrival → Prop where
  | nil {history disk} : Careful history disk []
  | other {history disk m rest} : m.isBlock = false → Careful history disk rest →
      Careful history disk (⟨m, none⟩ :: rest)
  | block {history disk m p rest} : Announces o m p → Ready history disk m p →
      Careful (history ++ [event o m p disk]) (reassemble o m disk).1 rest →
      Careful history disk (⟨m, some p⟩ :: rest)

/-- Each message of the pass stands once on one of the lists, in the order in which they came:
those for no block and those that complete a file on the first. -/
inductive Sorted : List Arrival → List Event → List Message → List Message → Prop where
  | nil : Sorted [] [] [] []
  | other {m rest events ok rejected} : Sorted rest events ok rejected →
      Sorted (⟨m, none⟩ :: rest) events (m :: ok) rejected
  | complete {m m' e rest events ok rejected} : e.outcome = .ok (.passed m') →
      Sorted rest events ok rejected →
      Sorted (⟨m, some e.piece⟩ :: rest) (e :: events) (m' :: ok) rejected
  | waiting {m e rest events ok rejected} : e.outcome = .ok (.rejected m) →
      Sorted rest events ok rejected →
      Sorted (⟨m, some e.piece⟩ :: rest) (e :: events) ok (m :: rejected)

/-- Passes, from a disk without manifests. -/
inductive Run : List Event → Disk → Prop where
  | start {disk} : (∀ root, disk.records root = none) → Run [] disk
  | pass {history disk arrivals} (parts : Str → Option Bytes) : Run history disk →
      Careful o history { disk with parts := parts } arrivals →
      Run (history ++ events o arrivals { disk with parts := parts })
        (after_work o (arrivals.map (·.message)) { disk with parts := parts }).disk

end Passes

section Induction
variable {o : Options} {history : List Event} {disk : Disk} {arrivals : List Arrival}

theorem reassemble_other {m : Message} (other : m.isBlock = false) :
    reassemble o m disk = (disk, .ok (.passed m)) := by
  unfold reassemble
  rw [other, Bool.not_false, if_pos (Eq.refl true)]

/-- The message of a block goes on, or is rejected as it came. -/
theorem reassemble_outcome {m : Message} {p : Piece} (announces : Announces o m p)
    (ready : Ready history disk m p) :
    (∃ m', (reassemble o m disk).2 = .ok (.passed m')) ∨ (reassemble o m disk).2 = .ok (.rejected m) := by
  obtain ⟨blocks, has, -, lists⟩ := announces.blocks
  have part : disk.parts (part_file m) = some (p.version.blocks.get ⟨p.number, announces.inside⟩) :=
    ready.part.trans (List.getElem?_eq_getElem announces.inside)
  have placed := place_eq o lists announces.inside part
  dsimp only at placed
  rw [(reassemble_eq announces has).1, placed]
  split
  · exact Or.inl ⟨_, rfl⟩
  · exact Or.inr rfl

/-- The block files are not part of what is kept. -/
theorem Inv.parts (inv : Inv history disk) (parts : Str → Option Bytes) :
    Inv history { disk with parts := parts } where
  roots := inv.roots
  once := inv.once
  right := inv.right

theorem inv_start (fresh : ∀ root, disk.records root = none) : Inv [] disk where
  roots root := by
    rw [fresh root]
    exact ⟨le_rfl, fun _ _ _ _ ⟨_, member, _⟩ => nomatch member⟩
  once _ _ := Nat.zero_le 1
  right _ member := nomatch member

/-- A pass whose blocks may all come, by induction on them. -/
theorem reassembleAll_inv (inv : Inv history disk) (careful : Careful o history disk arrivals) :
    let result := reassembleAll o (arrivals.map (·.message)) disk
    result.fault = none ∧ Sorted arrivals (events o arrivals disk) result.ok result.rejected ∧
      Inv (history ++ events o arrivals disk) result.disk := by
  induction careful with
  | nil =>
    refine ⟨rfl, .nil, ?_⟩
    rw [events, List.append_nil]
    exact inv
  | @other history disk m rest other _ ih =>
    obtain ⟨fault, sorted, after⟩ := ih inv
    rw [events, List.map_cons, reassembleAll, reassemble_other other]
    exact ⟨fault, .other sorted, after⟩
  | @block history disk m p rest announces ready _ ih =>
    obtain ⟨fault, sorted, after⟩ := ih (step_inv inv announces ready)
    rw [List.append_assoc, List.singleton_append] at after
    rw [events, List.map_cons, reassembleAll]
    rcases reassemble_outcome announces ready with ⟨m', passed⟩ | rejected
    · have became : reassemble o m disk = ((reassemble o m disk).1, .ok (.passed m')) :=
        Prod.ext rfl passed
      rw [became]
      exact ⟨fault, .complete (e := event o m p disk) passed sorted, after⟩
    · have became : reassemble o m disk = ((reassemble o m disk).1, .ok (.rejected m)) :=
        Prod.ext rfl rejected
      rw [became]
      dsimp only
      rw [fault]
      exact ⟨rfl, .waiting (e := event o m p disk) rejected sorted, after⟩

theorem Run.inv (inflight : o.inflight = false) (run : Run o history disk) : Inv history disk := by
  induction run with
  | start fresh => exact inv_start fresh
  | pass parts _ careful ih =>
    unfold after_work
    rw [inflight, if_neg Bool.false_ne_true]
    exact (reassembleAll_inv (ih.parts parts) careful).2.2

/-- A version whose blocks all came has gone on. -/
theorem Inv.forwarded (inv : Inv history disk) {root : Str} {v : Edition} (some_ : v.blocks ≠ [])
    (all : ∀ k, k < v.blocks.length → Arrived history root v k) : forwards history root v = 1 := by
  refine le_antisymm (inv.once root v) (Nat.one_le_iff_ne_zero.mpr fun unsent => ?_)
  have first := all 0 (List.length_pos_iff.mpr some_)
  have own := inv.roots root
  by_cases busy : ∃ r, disk.records root = some r ∧ r.waiting.isSome
  · obtain ⟨⟨received, waiting⟩, is, waits⟩ := busy
    obtain ⟨waiting, rfl⟩ := Option.isSome_iff_exists.mp waits
    rw [is] at own
    obtain ⟨table, u, R, rfl, busy⟩ := own
    by_cases same : v = u
    · subst same
      refine busy.more ((Table.entries_eq_nil_iff _).mpr fun k => ?_)
      by_contra waited
      obtain ⟨inside, missing⟩ := (busy.progress.waits k).mp (Option.isSome_iff_ne_none.mpr waited)
      exact missing ((busy.arrived unsent k).mpr (all k inside))
    · exact busy.settled v (fun is => same (Option.some.inj is)) unsent 0 first
  · have none_ : ∀ r, disk.records root = some r → r.waiting = none := fun r is => by
      by_contra some_
      exact busy ⟨r, is, Option.isSome_iff_ne_none.mpr some_⟩
    exact ((rootInv_idle none_).mp own).settled v (by simp) unsent 0 first

end Induction

/-! ## Two blocks of one byte -/

section Example

def plainOptions : Options := ⟨false, 4096, false, fun _ => true⟩

def blockSizes : Table Nat Nat := (Table.empty.set 0 1).set 1 1

def blockMessage (number : Nat) : Message where
  relPath := "d/f§block_".toList ++ Decimal.pad 4 number ++ ",1_§".toList
  new_dir := "d".toList
  new_file := "f§block_".toList ++ Decimal.pad 4 number ++ ",1_§".toList
  size := some 1
  blocks := some ⟨"separate".toList, 1, some number, blockSizes⟩

def edition (pubTime : Nat) (first second : UInt8) : Edition := ⟨pubTime, [[first], [second]]⟩

def blockDisk (first second : Bytes) : Disk where
  roots _ := none
  records _ := none
  parts name :=
    if name = part_file (blockMessage 0) then some first
    else if name = part_file (blockMessage 1) then some second
    else none

theorem blockSizes_list (pubTime : Nat) (first second : UInt8) :
    Lists (edition pubTime first second).blocks blockSizes
  | 0 => rfl
  | 1 => rfl
  | _ + 2 => rfl

theorem block_announces (pubTime : Nat) (first second : UInt8) {number : Nat} (inside : number < 2) :
    Announces plainOptions (blockMessage number)
      ⟨"d/f".toList, edition pubTime first second, number⟩ where
  block := by
    interval_cases number <;> rfl
  inside := inside
  named := by
    interval_cases number
    · exact ⟨"§block_0000".toList, "1_§".toList, [], rfl, rfl, rfl⟩
    · exact ⟨"§block_0001".toList, "1_§".toList, [], rfl, rfl, rfl⟩
  blocks := ⟨_, rfl, rfl, blockSizes_list pubTime first second⟩
  root := by
    interval_cases number <;> rfl
  final := by
    interval_cases number <;> rfl

end Example
end Sarracenia.Guarantees.Reassembly
