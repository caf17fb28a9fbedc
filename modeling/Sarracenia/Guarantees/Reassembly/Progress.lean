import Sarracenia.Library.Pieces
import Sarracenia.Guarantees.Writing
import Sarracenia.Source.Reassembly

/-!
# A file that is put together

How far a file has come: which of the blocks of a version are in their places, and that the
manifest beside the file waits for the others. One block that arrives keeps this, and where
none is waited for any more the file is the version.
-/
namespace Sarracenia.Guarantees.Reassembly
open Library Library.Text Library.Dynamic Library.Pieces Source.Reassembly Guarantees.Writing
open Source.Transfer (Bytes patch setLength)

/-- A version of a file, cut into blocks. -/
abbrev Version := List Bytes

section Blocks
variable {v : Version} {k : Nat} {rf : Bytes}

/-- A block that is written to its place is there. -/
theorem agrees_written (inside : k < v.length) :
    Agrees v k (writeAt (start v k) (v.get ⟨k, inside⟩) rf) := by
  intro i lower upper
  rw [start_succ inside] at upper
  have some_ : v.get ⟨k, inside⟩ ≠ [] := fun none_ => by
    rw [none_, List.length_nil] at upper
    omega
  have place : i = start v k + (i - start v k) := by omega
  rw [writeAt, if_neg some_, patch_getElem?_inside lower upper]
  conv_rhs => rw [place]
  rw [flatten_getElem? inside (by omega)]

/-- The other blocks stay where they are. -/
theorem agrees_kept (inside : k < v.length) {j : Nat} (other : j ≠ k) (agrees : Agrees v j rf) :
    Agrees v j (writeAt (start v k) (v.get ⟨k, inside⟩) rf) := by
  unfold writeAt
  split
  · exact agrees
  · refine agrees.congr fun i lower upper => ?_
    have within := agrees.lt_length lower upper
    rcases Nat.lt_or_gt_of_ne other with before | after
    · exact patch_getElem?_before (upper.trans_le (start_mono before)) within
    · refine patch_getElem?_after (le_trans ?_ lower)
      rw [← start_succ inside]
      exact start_mono after

theorem writeAt_length_le (inside : k < v.length) (short : rf.length ≤ v.flatten.length) :
    (writeAt (start v k) (v.get ⟨k, inside⟩) rf).length ≤ v.flatten.length := by
  have reaches := start_le v (k + 1)
  rw [start_succ inside] at reaches
  unfold writeAt
  split
  · exact short
  · rw [patch_length]
    omega

end Blocks

/-! ## Manifests of a version -/

section Manifests
variable {v : Version} {manifest : Table Nat Nat}

/-- The manifest lists the blocks of the version with their sizes. -/
def Lists (v : Version) (manifest : Table Nat Nat) : Prop :=
  ∀ i, manifest.get i = (v[i]?).map List.length

theorem Lists.get (lists : Lists v manifest) {k : Nat} (inside : k < v.length) :
    manifest.get k = some (v.get ⟨k, inside⟩).length := by
  rw [lists, List.getElem?_eq_getElem inside]
  rfl

theorem Lists.offsetOf (lists : Lists v manifest) {k : Nat} (within : k ≤ v.length) :
    offsetOf manifest k = some (start v k) := by
  induction k with
  | zero => rfl
  | succ k ih =>
    rw [Source.Reassembly.offsetOf, ih (Nat.le_of_succ_le within), lists.get within, start_succ within]
    rfl

/-- The blocks of a version with their sizes. -/
def entriesOf (v : Version) : List (Nat × Nat) := v.zipIdx.map fun block => (block.2, block.1.length)

theorem entriesOf_keys (v : Version) : (entriesOf v).map (·.1) = List.range v.length := by
  unfold entriesOf
  rw [List.map_map, List.range_eq_range']
  exact List.zipIdx_map_snd 0 v

theorem entriesOf_sum (v : Version) : ((entriesOf v).map (·.2)).sum = v.flatten.length := by
  have lengths : (entriesOf v).map (·.2) = (v.zipIdx.map (·.1)).map List.length := by
    unfold entriesOf
    rw [List.map_map, List.map_map]
    rfl
  rw [lengths, List.zipIdx_map_fst, List.length_flatten]

theorem mem_entriesOf {k s : Nat} : (k, s) ∈ entriesOf v ↔ (v[k]?).map List.length = some s := by
  unfold entriesOf
  rw [List.mem_map, Option.map_eq_some_iff]
  constructor
  · intro ⟨⟨block, i⟩, member, same⟩
    obtain ⟨rfl, rfl⟩ := Prod.mk.inj same
    exact ⟨block, List.mem_zipIdx_iff_getElem?.mp member, rfl⟩
  · intro ⟨block, here, size⟩
    exact ⟨(block, k), List.mem_zipIdx_iff_getElem?.mpr here, by rw [← size]⟩

theorem Lists.total (lists : Lists v manifest) : manifest.total = v.flatten.length := by
  rw [← entriesOf_sum]
  refine manifest.total_eq ?_ fun k s => ?_
  · rw [entriesOf_keys]
    exact List.nodup_range
  · rw [mem_entriesOf, lists]

theorem total_of_received (received : ∀ k (inside : k < v.length),
    manifest.get k = some (v.get ⟨k, inside⟩).length) : v.flatten.length ≤ manifest.total := by
  rw [← entriesOf_sum]
  refine manifest.sum_le_total ?_ fun k s member => ?_
  · rw [entriesOf_keys]
    exact List.nodup_range
  · obtain ⟨block, here, size⟩ := Option.map_eq_some_iff.mp (mem_entriesOf.mp member)
    obtain ⟨inside, same⟩ := List.getElem?_eq_some_iff.mp here
    rw [received k inside, ← size, ← same]
    rfl

end Manifests

/-! ## Progress -/

section Progress
variable {v : Version} {R : Nat → Prop} {rf : Bytes} {received waiting : Table Nat Nat}

/-- The blocks that arrived are in their places and in the manifest, which waits for the
others; the file is not longer than the version. -/
structure Progress (v : Version) (R : Nat → Prop) (rf : Bytes) (received waiting : Table Nat Nat) :
    Prop where
  inside : ∀ k, R k → k < v.length
  held : ∀ k, R k → Agrees v k rf
  short : rf.length ≤ v.flatten.length
  sizes : ∀ k (inside : k < v.length), R k → received.get k = some (v.get ⟨k, inside⟩).length
  waits : ∀ k, (waiting.get k).isSome ↔ k < v.length ∧ ¬ R k

/-- Before the first block, every one is waited for. -/
theorem Progress.fresh (lists : Lists v waiting) (short : rf.length ≤ v.flatten.length) :
    Progress v (fun _ => False) rf received waiting where
  inside k none_ := none_.elim
  held k none_ := none_.elim
  short := short
  sizes k inside none_ := none_.elim
  waits k := by
    rw [lists, Option.isSome_map]
    simp

/-- The file is cut off at the length of the version. -/
theorem Progress.trim (progress : Progress v R rf received waiting) :
    Progress v R (setLength v.flatten.length rf) received waiting where
  inside := progress.inside
  held k there := (progress.held k there).congr fun _ lower upper =>
    setLength_getElem? ((progress.held k there).lt_length lower upper) (upper.trans_le (start_le _ _))
  short := le_of_eq setLength_length
  sizes := progress.sizes
  waits := progress.waits

/-- A block that arrives, for the first time or again. -/
theorem Progress.write (progress : Progress v R rf received waiting) {k : Nat} (inside : k < v.length) :
    Progress v (fun j => R j ∨ j = k) (writeAt (start v k) (v.get ⟨k, inside⟩) rf)
      (received.set k (v.get ⟨k, inside⟩).length) (waiting.erase k) where
  inside j there := there.elim (progress.inside j) fun same => same ▸ inside
  held j there := by
    by_cases same : j = k
    · subst same
      exact agrees_written inside
    · exact agrees_kept inside same (progress.held j (there.resolve_right same))
  short := writeAt_length_le inside progress.short
  sizes j inside' there := by
    rw [Table.get_set]
    by_cases same : j = k
    · subst same
      rw [if_pos rfl]
    · rw [if_neg same]
      exact progress.sizes j inside' (there.resolve_right same)
  waits j := by
    rw [Table.get_erase]
    by_cases same : j = k
    · subst same
      simp
    · rw [if_neg same, progress.waits, not_or]
      exact and_congr_right fun _ => ⟨fun not => ⟨not, same⟩, And.left⟩

theorem Progress.all_received (progress : Progress v R rf received waiting)
    (none_ : waiting.entries = []) : ∀ k, k < v.length → R k := by
  intro k inside
  by_contra missing
  have waits := (progress.waits k).mpr ⟨inside, missing⟩
  rw [waiting.entries_eq_nil_iff.mp none_ k] at waits
  cases waits

/-- Where no block is waited for, the file is the version. -/
theorem Progress.complete (progress : Progress v R rf received waiting)
    (none_ : waiting.entries = []) : rf = v.flatten :=
  eq_flatten progress.short fun k inside => progress.held k (progress.all_received none_ k inside)

theorem Progress.total (progress : Progress v R rf received waiting) (none_ : waiting.entries = []) :
    v.flatten.length ≤ received.total :=
  total_of_received fun k inside => progress.sizes k inside (progress.all_received none_ k inside)

end Progress

/-! ## One message -/

section Place
variable (o : Options) {m : Message} {blocks : Blocks} {v : Version} {k : Nat} {disk : Disk}

/-- The file when the block comes, cut off where the version is shorter than what was there. -/
def trimmed (m : Message) (blocks : Blocks) (disk : Disk) : Bytes :=
  let rf := (disk.roots (root_file m)).getD []
  if blocks.manifest.total < old_sz (disk.records (root_file m)) rf then
    setLength blocks.manifest.total rf
  else rf

/-- The disk with the block in its place. -/
def written (m : Message) (content : Bytes) (disk : Disk) : Disk :=
  (disk.setRoot (root_file m) content).unlinkPart (part_file m)

theorem copied_whole (data : Bytes) : copied o data data.length = some data := by
  unfold copied
  split
  · next none_ => rw [List.eq_nil_of_length_eq_zero none_]
  · dsimp only
    rw [List.take_of_length_le (le_max_right ..), if_pos le_rfl]

theorem setRoot_setRoot (name : Str) (content content' : Bytes) :
    (disk.setRoot name content).setRoot name content' = disk.setRoot name content' := by
  unfold Disk.setRoot
  congr 1
  funext n
  dsimp only
  split <;> rfl

/-- What becomes of a block whose file holds its bytes. -/
theorem place_eq (lists : Lists v blocks.manifest) (inside : k < v.length)
    (part : disk.parts (part_file m) = some (v.get ⟨k, inside⟩)) :
    let rf := writeAt (start v k) (v.get ⟨k, inside⟩) (trimmed m blocks disk)
    let tables := tables blocks.manifest (disk.records (root_file m))
    let received := tables.1.set k (v.get ⟨k, inside⟩).length
    let waiting := tables.2.erase k
    place o m blocks k disk =
      if waiting.entries = [] then
        ((written m rf disk).setRecord (if o.block_manifest_delete then final_file m else root_file m)
          (if o.block_manifest_delete then none else some ⟨some received, none⟩),
          .ok (.passed (completed m blocks)))
      else ((written m rf disk).setRecord (root_file m) (some ⟨some received, some waiting⟩),
        .ok (.rejected m)) := by
  intro rf tables received waiting
  unfold place
  rw [part]
  dsimp only
  rw [lists.get inside, lists.offsetOf inside.le]
  dsimp only
  rw [copied_whole]
  dsimp only
  rw [setRoot_setRoot]
  by_cases none_ : waiting.entries = []
  · have empty : (!waiting.entries.isEmpty) = false := by rw [none_]; rfl
    change (if (!waiting.entries.isEmpty) = true then _ else _ : Disk × Except Fault Outcome) = _
    rw [if_pos none_, empty, if_neg Bool.false_ne_true]
    cases o.block_manifest_delete <;> rfl
  · have some_ : (!waiting.entries.isEmpty) = true := by simpa using none_
    change (if (!waiting.entries.isEmpty) = true then _ else _ : Disk × Except Fault Outcome) = _
    rw [if_neg none_, some_, if_pos rfl]
    rfl

end Place
end Sarracenia.Guarantees.Reassembly
