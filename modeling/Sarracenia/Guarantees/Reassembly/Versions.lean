import Sarracenia.Guarantees.Reassembly.Progress

/-!
# Versions of files that arrive in blocks

Runs of passes over block messages, in any order and with blocks that come again. The manifest
beside a file does not say which version it is of: what is waited for is right as long as the
blocks that come are of that version. In a run that keeps to this, every message that goes on
announces a file that is complete, and every version goes on once.
-/
namespace Sarracenia.Guarantees.Reassembly
open Library Library.Text Library.Dynamic Library.Pieces Source.Reassembly Guarantees.Writing
open Source.Transfer (Bytes)

/-! ## What arrives -/

/-- A version of a file: two with the same bytes are told apart by when they were published. -/
structure Edition where
  pubTime : Nat
  blocks : Version
  deriving DecidableEq

/-- A block of a version of a file. -/
structure Piece where
  root : Str
  version : Edition
  number : Nat
  deriving DecidableEq

/-- The message for a block: its name gives its number and that of its file, and its manifest
lists the blocks of the version. -/
structure Announces (o : Options) (m : Message) (p : Piece) : Prop where
  block : m.isBlock = true
  inside : p.number < p.version.blocks.length
  named : ∃ first second rest, (blk_suffix m.relPath).map (split [',']) = some (first :: second :: rest) ∧
    Decimal.readInt (first.drop 7) = some (p.number : Int) ∧ o.parse_size second = true
  blocks : ∃ blocks, m.blocks = some blocks ∧ blocks.number = some p.number ∧
    Lists p.version.blocks blocks.manifest
  root : root_file m = p.root
  final : final_file m = p.root

/-- What became of a block, and the file after it. -/
structure Event where
  piece : Piece
  outcome : Except Fault Outcome
  content : Option Bytes

def event (o : Options) (m : Message) (p : Piece) (disk : Disk) : Event :=
  ⟨p, (reassemble o m disk).2, (reassemble o m disk).1.roots p.root⟩

/-- The message went on. -/
def Event.complete (e : Event) : Bool :=
  match e.outcome with
  | .ok (.passed _) => true
  | _ => false

section History
variable (history : List Event) (root : Str)

def lastVersion : Option Edition :=
  ((history.filter fun e => e.piece.root = root).getLast?).map (·.piece.version)

def Arrived (v : Edition) (k : Nat) : Prop := ∃ e ∈ history, e.piece = ⟨root, v, k⟩

/-- How often a version went on. -/
def forwards (v : Edition) : Nat :=
  history.countP fun e => e.complete && decide (e.piece.root = root ∧ e.piece.version = v)

variable {history root} {e : Event}

theorem lastVersion_append_self (here : e.piece.root = root) :
    lastVersion (history ++ [e]) root = some e.piece.version := by
  unfold lastVersion
  rw [List.filter_append, List.filter_singleton, decide_eq_true here, cond_true, List.getLast?_append,
    List.getLast?_singleton]
  rfl

theorem lastVersion_append_other (other : e.piece.root ≠ root) :
    lastVersion (history ++ [e]) root = lastVersion history root := by
  unfold lastVersion
  rw [List.filter_append, List.filter_singleton, decide_eq_false other, cond_false, List.append_nil]

theorem arrived_append {v : Edition} {k : Nat} :
    Arrived (history ++ [e]) root v k ↔ Arrived history root v k ∨ e.piece = ⟨root, v, k⟩ := by
  unfold Arrived
  simp only [List.mem_append, List.mem_singleton]
  constructor
  · rintro ⟨e', member | rfl, is⟩
    · exact Or.inl ⟨e', member, is⟩
    · exact Or.inr is
  · rintro (⟨e', member, is⟩ | is)
    · exact ⟨e', Or.inl member, is⟩
    · exact ⟨e, Or.inr rfl, is⟩

theorem forwards_append {v : Edition} :
    forwards (history ++ [e]) root v = forwards history root v +
      if e.complete = true ∧ e.piece.root = root ∧ e.piece.version = v then 1 else 0 := by
  unfold forwards
  rw [List.countP_append, List.countP_singleton]
  simp only [Bool.and_eq_true, decide_eq_true_eq]

end History

/-- When a block may come: its file holds its bytes; nothing is waited for, or blocks of the
same version; and it is not the last one of a version that went on before. -/
structure Ready (history : List Event) (disk : Disk) (m : Message) (p : Piece) : Prop where
  part : disk.parts (part_file m) = p.version.blocks[p.number]?
  alone : ∀ r, disk.records p.root = some r → r.waiting.isSome → lastVersion history p.root = some p.version
  once : 0 < forwards history p.root p.version → ∀ blocks, m.blocks = some blocks →
    ∃ i, i ≠ p.number ∧ ((tables blocks.manifest (disk.records p.root)).2.get i).isSome

/-! ## The invariant -/

/-- An event that went on announces the version that is in the file. -/
structure Right (e : Event) : Prop where
  handled : ∃ outcome, e.outcome = .ok outcome
  whole : ∀ m, e.outcome = .ok (.passed m) → part_file m = e.piece.root ∧
    e.content = some e.piece.version.blocks.flatten ∧
    m.size = some e.piece.version.blocks.flatten.length ∧
    ∃ blocks, m.blocks = some blocks ∧ blocks.number = none ∧
      Lists e.piece.version.blocks blocks.manifest

section Invariant
variable (history : List Event) (root : Str)

/-- No version but the given one has begun without going on. -/
def Settled (except : Option Edition) : Prop :=
  ∀ u, some u ≠ except → forwards history root u = 0 → ∀ k, ¬ Arrived history root u k

/-- A file that waits for the rest of the version that came last. -/
structure Busy (rf : Bytes) (received waiting : Table Nat Nat) (v : Edition) (R : Nat → Prop) :
    Prop where
  last : lastVersion history root = some v
  progress : Progress v.blocks R rf received waiting
  more : waiting.entries ≠ []
  arrived : forwards history root v = 0 → ∀ k, R k ↔ Arrived history root v k
  settled : Settled history root (some v)

/-- A file that waits for nothing. -/
structure Idle (rf : Bytes) (record : Option Record) : Prop where
  short : rf.length ≤ old_sz record rf
  settled : Settled history root none

def RootInv (rf : Bytes) (record : Option Record) : Prop :=
  match record with
  | some ⟨received, some waiting⟩ =>
    ∃ table v R, received = some table ∧ Busy history root rf table waiting v R
  | record => Idle history root rf record

structure Inv (disk : Disk) : Prop where
  roots : ∀ root, RootInv history root ((disk.roots root).getD []) (disk.records root)
  once : ∀ root v, forwards history root v ≤ 1
  right : ∀ e ∈ history, Right e

end Invariant

/-! ## One block -/

section Step
variable {o : Options} {history : List Event} {disk : Disk} {m : Message} {p : Piece} {blocks : Blocks}

theorem reassemble_eq (announces : Announces o m p) (has : m.blocks = some blocks) :
    reassemble o m disk = place o m blocks p.number disk ∧ Lists p.version.blocks blocks.manifest := by
  obtain ⟨first, second, rest, suffix, number, size⟩ := announces.named
  obtain ⟨blocks', has', numbered, lists⟩ := announces.blocks
  obtain rfl := Option.some.inj (has.symm.trans has')
  refine ⟨?_, lists⟩
  unfold reassemble
  rw [announces.block, Bool.not_true, if_neg Bool.false_ne_true, has, suffix]
  dsimp only
  rw [number]
  dsimp only
  rw [size, Bool.not_true, if_neg Bool.false_ne_true, numbered]
  exact if_pos rfl

theorem tables_idle {manifest : Table Nat Nat} {record : Option Record}
    (none_ : ∀ r, record = some r → r.waiting = none) : (tables manifest record).2 = manifest := by
  cases record with
  | none => rfl
  | some r =>
    obtain ⟨received, waiting⟩ := r
    obtain rfl : waiting = none := none_ _ rfl
    cases received <;> rfl

theorem rootInv_idle {root : Str} {rf : Bytes} {record : Option Record}
    (none_ : ∀ r, record = some r → r.waiting = none) :
    RootInv history root rf record ↔ Idle history root rf record := by
  cases record with
  | none => exact Iff.rfl
  | some r =>
    obtain ⟨received, waiting⟩ := r
    obtain rfl : waiting = none := none_ _ rfl
    exact Iff.rfl

/-- The file of the block is cut off where it has to be, and has come some way. -/
theorem Ready.progress (inv : Inv history disk) (announces : Announces o m p)
    (ready : Ready history disk m p) (lists : Lists p.version.blocks blocks.manifest) :
    ∃ R, Progress p.version.blocks R (trimmed m blocks disk) (tables blocks.manifest (disk.records p.root)).1
        (tables blocks.manifest (disk.records p.root)).2 ∧
      (forwards history p.root p.version = 0 → ∀ k, R k ↔ Arrived history p.root p.version k) ∧
      Settled history p.root (some p.version) := by
  have root := inv.roots p.root
  have total := lists.total
  unfold trimmed
  rw [announces.root, total]
  have alone := ready.alone
  generalize disk.records p.root = record at *
  generalize (disk.roots p.root).getD [] = rf at *
  dsimp only
  by_cases busy : ∃ r, record = some r ∧ r.waiting.isSome
  · obtain ⟨⟨received, waiting⟩, rfl, waits⟩ := busy
    obtain ⟨waiting, rfl⟩ := Option.isSome_iff_exists.mp waits
    obtain ⟨table, v, R, rfl, busy⟩ := root
    obtain rfl := Option.some.inj (busy.last.symm.trans (alone _ rfl rfl))
    refine ⟨R, ?_, busy.arrived, busy.settled⟩
    change Progress _ R _ table waiting
    split
    · exact busy.progress.trim
    · exact busy.progress
  · have none_ : ∀ r, record = some r → r.waiting = none := fun r is => by
      by_contra some_
      exact busy ⟨r, is, Option.isSome_iff_ne_none.mpr some_⟩
    have idle := (rootInv_idle none_).mp root
    refine ⟨fun _ => False, ?_, fun unsent k => ?_, fun u other => idle.settled u (by simp)⟩
    · rw [tables_idle none_]
      refine Progress.fresh lists ?_
      split
      · exact le_of_eq setLength_length
      · next enough => exact idle.short.trans (Nat.not_lt.mp enough)
    · exact iff_of_false id (idle.settled _ (by simp) unsent k)

section Other
variable {root : Str} {e : Event}

theorem forwards_append_other {v : Edition} (other : ¬ (e.piece.root = root ∧ e.piece.version = v)) :
    forwards (history ++ [e]) root v = forwards history root v := by
  rw [forwards_append, if_neg fun all => other all.2, Nat.add_zero]

theorem arrived_append_other {v : Edition} {k : Nat}
    (other : ¬ (e.piece.root = root ∧ e.piece.version = v)) :
    Arrived (history ++ [e]) root v k ↔ Arrived history root v k := by
  rw [arrived_append]
  refine or_iff_left fun is => other ?_
  rw [is]
  exact ⟨rfl, rfl⟩

theorem Settled.append {except : Option Edition} (settled : Settled history root except)
    (other : ∀ u, some u ≠ except → ¬ (e.piece.root = root ∧ e.piece.version = u)) :
    Settled (history ++ [e]) root except := by
  intro u apart unsent k
  rw [forwards_append_other (other u apart)] at unsent
  rw [arrived_append_other (other u apart)]
  exact settled u apart unsent k

/-- A block of another file changes nothing. -/
theorem RootInv.append_other {rf : Bytes} {record : Option Record} (inv : RootInv history root rf record)
    (other : e.piece.root ≠ root) : RootInv (history ++ [e]) root rf record := by
  have apart {u : Edition} : ¬ (e.piece.root = root ∧ e.piece.version = u) := fun both => other both.1
  by_cases busy : ∃ r, record = some r ∧ r.waiting.isSome
  · obtain ⟨⟨received, waiting⟩, rfl, waits⟩ := busy
    obtain ⟨waiting, rfl⟩ := Option.isSome_iff_exists.mp waits
    obtain ⟨table, v, R, same, busy⟩ := inv
    refine ⟨table, v, R, same, (lastVersion_append_other other).trans busy.last, busy.progress, busy.more,
      fun unsent k => ?_, busy.settled.append fun _ _ => apart⟩
    rw [forwards_append_other apart] at unsent
    rw [arrived_append_other apart]
    exact busy.arrived unsent k
  · have none_ : ∀ r, record = some r → r.waiting = none := fun r is => by
      by_contra some_
      exact busy ⟨r, is, Option.isSome_iff_ne_none.mpr some_⟩
    have idle := (rootInv_idle none_).mp inv
    exact (rootInv_idle none_).mpr ⟨idle.short, idle.settled.append fun _ _ => apart⟩

end Other

/-- The disk after a block: its file, and the manifest beside it. -/
def settledDisk (m : Message) (root : Str) (rf : Bytes) (record : Option Record) (disk : Disk) : Disk :=
  (((disk.setRoot root rf).unlinkPart (part_file m)).setRecord root record)

/-- It is enough to look at the file of the block. -/
theorem Inv.append (inv : Inv history disk) {e : Event} {rf : Bytes} {record : Option Record}
    (own : RootInv (history ++ [e]) e.piece.root rf record)
    (once : forwards (history ++ [e]) e.piece.root e.piece.version ≤ 1) (right : Right e) :
    Inv (history ++ [e]) (settledDisk m e.piece.root rf record disk) where
  roots root := by
    by_cases same : root = e.piece.root
    · subst same
      have here : (settledDisk m e.piece.root rf record disk).roots e.piece.root = some rf := if_pos rfl
      have beside : (settledDisk m e.piece.root rf record disk).records e.piece.root = record := if_pos rfl
      rw [here, beside]
      exact own
    · have here : (settledDisk m e.piece.root rf record disk).roots root = disk.roots root := if_neg same
      have beside : (settledDisk m e.piece.root rf record disk).records root = disk.records root := if_neg same
      rw [here, beside]
      exact (inv.roots root).append_other (Ne.symm same)
  once root v := by
    by_cases same : e.piece.root = root ∧ e.piece.version = v
    · obtain ⟨rfl, rfl⟩ := same
      exact once
    · rw [forwards_append_other same]
      exact inv.once root v
  right e' member := by
    rcases List.mem_append.mp member with before | now
    · exact inv.right e' before
    · exact List.mem_singleton.mp now ▸ right

/-- The block was the last one of a version that had not gone on. -/
theorem Inv.complete (inv : Inv history disk) {e : Event} {rf : Bytes} {record : Option Record}
    (went_on : e.complete = true) (first : forwards history e.piece.root e.piece.version = 0)
    (settled : Settled history e.piece.root (some e.piece.version))
    (none_ : ∀ r, record = some r → r.waiting = none) (short : rf.length ≤ old_sz record rf)
    (right : Right e) : Inv (history ++ [e]) (settledDisk m e.piece.root rf record disk) := by
  have now : forwards (history ++ [e]) e.piece.root e.piece.version = 1 := by
    rw [forwards_append, first, Nat.zero_add]
    exact if_pos ⟨went_on, rfl, rfl⟩
  refine inv.append ((rootInv_idle none_).mpr ⟨short, fun u _ unsent k here => ?_⟩) (le_of_eq now) right
  by_cases same : e.piece.version = u
  · subst same
    rw [now] at unsent
    cases unsent
  · have other : ¬ (e.piece.root = e.piece.root ∧ e.piece.version = u) := fun both => same both.2
    rw [forwards_append_other other] at unsent
    rw [arrived_append_other other] at here
    exact settled u (fun is => same (Option.some.inj is).symm) unsent k here

/-- Other blocks of the version are waited for. -/
theorem Inv.waiting (inv : Inv history disk) {e : Event} {rf : Bytes} {received waiting : Table Nat Nat}
    {R : Nat → Prop} (stays : e.complete = false)
    (progress : Progress e.piece.version.blocks (fun k => R k ∨ k = e.piece.number) rf received waiting)
    (more : waiting.entries ≠ [])
    (arrived : forwards history e.piece.root e.piece.version = 0 →
      ∀ k, R k ↔ Arrived history e.piece.root e.piece.version k)
    (settled : Settled history e.piece.root (some e.piece.version)) (right : Right e) :
    Inv (history ++ [e])
      (settledDisk m e.piece.root rf (some ⟨some received, some waiting⟩) disk) := by
  have now : forwards (history ++ [e]) e.piece.root e.piece.version =
      forwards history e.piece.root e.piece.version := by
    rw [forwards_append, if_neg fun all => Bool.false_ne_true (stays.symm.trans all.1), Nat.add_zero]
  refine inv.append ⟨received, e.piece.version, _, rfl, lastVersion_append_self rfl, progress, more,
    fun unsent k => ?_, ?_⟩ (now ▸ inv.once e.piece.root e.piece.version) right
  · rw [now] at unsent
    rw [arrived unsent k, arrived_append]
    refine or_congr_right ⟨fun same => ?_, fun same => ?_⟩
    · rw [same]
    · exact (congrArg Piece.number same).symm
  · exact settled.append fun u other both => other (congrArg some both.2).symm

/-- One block that may come keeps the invariant, and its message goes on or is rejected. -/
theorem step_inv (inv : Inv history disk) (announces : Announces o m p) (ready : Ready history disk m p) :
    Inv (history ++ [event o m p disk]) (reassemble o m disk).1 := by
  obtain ⟨blocks, has, -, lists⟩ := announces.blocks
  obtain ⟨R, progress, arrived, settled⟩ := ready.progress inv announces lists
  have part : disk.parts (part_file m) = some (p.version.blocks.get ⟨p.number, announces.inside⟩) :=
    ready.part.trans (List.getElem?_eq_getElem announces.inside)
  have next := progress.write announces.inside
  have placed := place_eq o lists announces.inside part
  unfold written at placed
  rw [announces.root, announces.final, ite_self] at placed
  dsimp only at placed
  rw [← (reassemble_eq announces has).1] at placed
  generalize writeAt (start p.version.blocks p.number) (p.version.blocks.get ⟨p.number, announces.inside⟩)
    (trimmed m blocks disk) = rf at *
  by_cases none_ : ((tables blocks.manifest (disk.records p.root)).2.erase p.number).entries = []
  · rw [if_pos none_] at placed
    have whole := next.complete none_
    have first : forwards history p.root p.version = 0 := by
      by_contra sent
      obtain ⟨i, other, waited⟩ := ready.once (Nat.pos_of_ne_zero sent) blocks has
      have gone := (Table.entries_eq_nil_iff _).mp none_ i
      rw [Table.get_erase, if_neg other] at gone
      rw [gone] at waited
      cases waited
    have made : event o m p disk = ⟨p, .ok (.passed (completed m blocks)), some rf⟩ := by
      rw [event, placed]
      exact congrArg (Event.mk p _) (if_pos rfl)
    rw [made, placed]
    refine inv.complete (e := ⟨p, _, _⟩) rfl first settled (fun r is => ?_) ?_ ⟨⟨_, rfl⟩, fun m' is => ?_⟩
    · cases delete : o.block_manifest_delete with
      | true =>
        rw [delete, if_pos rfl] at is
        cases is
      | false =>
        rw [delete, if_neg Bool.false_ne_true] at is
        exact (Option.some.inj is) ▸ rfl
    · cases o.block_manifest_delete with
      | true => exact le_rfl
      | false =>
        rw [whole]
        exact next.total none_
    · obtain rfl := Outcome.passed.inj (Except.ok.inj is)
      exact ⟨announces.final, congrArg some whole, congrArg some lists.total, _, rfl, rfl, lists⟩
  · rw [if_neg none_] at placed
    have made : event o m p disk = ⟨p, .ok (.rejected m), some rf⟩ := by
      rw [event, placed]
      exact congrArg (Event.mk p _) (if_pos rfl)
    rw [made, placed]
    exact inv.waiting (e := ⟨p, _, _⟩) rfl next none_ arrived settled
      ⟨⟨_, rfl⟩, fun m' is => nomatch Except.ok.inj is⟩

end Step
end Sarracenia.Guarantees.Reassembly
