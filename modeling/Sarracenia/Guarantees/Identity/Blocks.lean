import Mathlib.Data.List.Nodup
import Sarracenia.Source.Identity

/-!
# The blocks of a file, and their identities

The blocks that are announced tile the file. The read loop of `computeIdentity` stops when
it has read as many bytes as there are up to the end of the block, counted from the start
of the file and in whole buffers; so the identity of a block is the one of its bytes only
where it is the last block, or the first one of a length that buffers divide.
-/
namespace Sarracenia.Guarantees.Identity
open Library Library.Text Library.Dynamic Source Source.Identity
open Source.Transfer (Bytes)

section Arithmetic

/-- The least multiple of the buffer size that is not less. -/
def roundUp (bufSize n : Nat) : Nat := (n + bufSize - 1) / bufSize * bufSize

theorem le_roundUp {bufSize : Nat} (positive : 0 < bufSize) (n : Nat) : n ≤ roundUp bufSize n := by
  unfold roundUp
  have division := Nat.div_add_mod (n + bufSize - 1) bufSize
  have below := Nat.mod_lt (n + bufSize - 1) positive
  rw [Nat.mul_comm] at division
  omega

theorem roundUp_eq_self_iff {bufSize : Nat} (positive : 0 < bufSize) (n : Nat) :
    roundUp bufSize n = n ↔ bufSize ∣ n := by
  constructor
  · intro same
    rw [← same]
    exact Nat.dvd_mul_left ..
  · intro ⟨m, same⟩
    subst same
    unfold roundUp
    have quotient : (bufSize * m + bufSize - 1) / bufSize = m := by
      rw [Nat.add_sub_assoc positive, Nat.mul_add_div positive,
        Nat.div_eq_of_lt (Nat.sub_lt positive Nat.one_pos), Nat.add_zero]
    rw [quotient, Nat.mul_comm]

theorem roundUp_step {bufSize n : Nat} (positive : 0 < bufSize) (more : 0 < n) :
    roundUp bufSize n = bufSize + roundUp bufSize (n - bufSize) := by
  unfold roundUp
  by_cases small : n ≤ bufSize
  · have one : (n + bufSize - 1) / bufSize = 1 := by
      rw [Nat.div_eq_iff positive]
      omega
    have none : (n - bufSize + bufSize - 1) / bufSize = 0 := Nat.div_eq_of_lt (by omega)
    rw [one, none]
    omega
  · have shifted : n + bufSize - 1 = (n - bufSize + bufSize - 1) + bufSize := by omega
    rw [shifted, Nat.add_div_right _ positive, Nat.succ_mul, Nat.add_comm]

variable {fsiz chunksize : Nat}

/-- The blocks are those that start inside the file. -/
theorem lt_block_count_iff (positive : 0 < chunksize) (k : Nat) :
    k < Parts.block_count fsiz chunksize ↔ k * chunksize < fsiz := by
  have division := Nat.div_add_mod fsiz chunksize
  have below := Nat.mod_lt fsiz positive
  unfold Parts.block_count
  generalize fsiz / chunksize = q at *
  generalize fsiz % chunksize = r at *
  rw [Nat.mul_comm] at division
  constructor
  · intro inside
    by_cases last : k = q
    · subst last
      split at inside <;> omega
    · have before : k + 1 ≤ q := by split at inside <;> omega
      have less := Nat.mul_le_mul_right chunksize before
      rw [Nat.succ_mul] at less
      omega
  · intro inside
    by_contra outside
    have after : q + (if 0 < r then 1 else 0) ≤ k := Nat.not_lt.mp outside
    have more := Nat.mul_le_mul_right chunksize after
    split at more
    · rw [Nat.succ_mul] at more
      omega
    · rw [Nat.add_zero] at more
      omega

/-- A block goes up to the next one, or to the end of the file. -/
theorem blockLength_eq (positive : 0 < chunksize) {k : Nat}
    (inside : k < Parts.block_count fsiz chunksize) :
    Parts.blockLength fsiz chunksize k = min ((k + 1) * chunksize) fsiz - k * chunksize := by
  have division := Nat.div_add_mod fsiz chunksize
  have below := Nat.mod_lt fsiz positive
  have starts := (lt_block_count_iff positive k).mp inside
  have next : k + 1 < Parts.block_count fsiz chunksize ↔ _ := lt_block_count_iff positive (k + 1)
  unfold Parts.blockLength
  rw [Nat.succ_mul] at next ⊢
  split
  · next last =>
    have quotient : fsiz / chunksize = k := by
      have count := last.1
      unfold Parts.block_count at count
      rw [if_pos last.2] at count
      omega
    rw [quotient, Nat.mul_comm] at division
    omega
  · next more =>
    have whole : k * chunksize + chunksize ≤ fsiz := by
      by_contra short
      have last : ¬ k + 1 < Parts.block_count fsiz chunksize := fun h => by
        have := next.mp h
        omega
      have count : k + 1 = Parts.block_count fsiz chunksize := by omega
      have exact_ : fsiz % chunksize = 0 := by
        by_contra some_
        exact more ⟨count, Nat.pos_of_ne_zero some_⟩
      unfold Parts.block_count at count
      rw [exact_] at count division
      have quotient : fsiz / chunksize = k + 1 := by simpa using count.symm
      rw [quotient, Nat.mul_comm, Nat.succ_mul] at division
      omega
    omega

end Arithmetic

section Reading

/-- From the offset on, as many whole buffers are read as reach the limit. -/
theorem readLoop_eq {bufSize : Nat} (positive : 0 < bufSize) (limit : Nat) (steps i : Nat)
    (rest : Bytes) (enough : rest.length < steps) :
    readLoop bufSize limit steps i rest = rest.take (roundUp bufSize (limit - i)) := by
  induction steps generalizing i rest with
  | zero => exact absurd enough (Nat.not_lt_zero _)
  | succ steps ih =>
    rw [readLoop]
    by_cases done : limit ≤ i
    · have nothing : roundUp bufSize (limit - i) = 0 := by
        rw [Nat.sub_eq_zero_of_le done]
        exact (roundUp_eq_self_iff positive 0).mpr (Nat.dvd_zero _)
      rw [if_pos (by exact_mod_cast done), nothing, List.take_zero]
    · rw [if_neg (by exact_mod_cast done)]
      cases rest with
      | nil => rw [List.take_nil, List.take_nil, List.isEmpty_nil, if_pos rfl]
      | cons b rest =>
        have some_ : ((b :: rest).take bufSize).isEmpty = false := by
          obtain ⟨n, rfl⟩ := Nat.exists_eq_succ_of_ne_zero positive.ne'
          rfl
        have shorter : ((b :: rest).drop bufSize).length < steps := by
          rw [List.length_drop, List.length_cons]
          rw [List.length_cons] at enough
          omega
        rw [some_, if_neg Bool.false_ne_true, ih _ _ shorter, List.length_take]
        generalize b :: rest = bytes at *
        rw [roundUp_step positive (Nat.sub_pos_of_lt (Nat.not_le.mp done))]
        by_cases short : bytes.length ≤ bufSize
        · rw [List.drop_eq_nil_of_le short, List.take_nil, List.append_nil,
            List.take_of_length_le short, List.take_of_length_le (by omega)]
        · rw [Nat.min_eq_left (by omega), Nat.sub_add_eq, List.take_add]

theorem readFrom_eq {bufSize : Nat} (positive : 0 < bufSize) (offset size : Nat) (content : Bytes) :
    readFrom bufSize offset size content =
      (content.drop offset).take (roundUp bufSize (offset + size)) := by
  have limit : ((offset : ℚ) + (size : ℚ)) = ((offset + size : Nat) : ℚ) := (Nat.cast_add ..).symm
  rw [readFrom, limit, readLoop_eq positive _ _ _ _ (by rw [List.length_drop]; omega), Nat.sub_zero]

/-- The bytes of a block. -/
def blockBytes (chunksize : Nat) (content : Bytes) (k : Nat) : Bytes :=
  (content.drop (k * chunksize)).take (min ((k + 1) * chunksize) content.length - k * chunksize)

/-- The blocks are disjoint and cover the file. -/
theorem blocks_cover {chunksize : Nat} (positive : 0 < chunksize) (content : Bytes) :
    (List.range (Parts.block_count content.length chunksize)).flatMap (blockBytes chunksize content) =
      content := by
  have upTo (n : Nat) : (List.range n).flatMap (blockBytes chunksize content) =
      content.take (n * chunksize) := by
    induction n with
    | zero => rw [Nat.zero_mul, List.take_zero, List.range_zero, List.flatMap_nil]
    | succ n ih =>
      rw [List.range_succ, List.flatMap_append, ih, List.flatMap_singleton, Nat.succ_mul,
        List.take_add]
      refine congrArg (_ ++ ·) (List.take_eq_take_iff.mpr ?_)
      rw [List.length_drop, Nat.succ_mul]
      omega
  rw [upTo, List.take_of_length_le]
  exact Nat.not_lt.mp fun more =>
    absurd ((lt_block_count_iff positive _).mpr more) (Nat.lt_irrefl _)

/-- What is read for a block are its bytes exactly where it is the last one, or the first
one and buffers divide it. -/
theorem readFrom_block_iff {bufSize chunksize : Nat} (buffer : 0 < bufSize) (chunk : 0 < chunksize)
    {content : Bytes} {k : Nat} (inside : k < Parts.block_count content.length chunksize) :
    readFrom bufSize (k * chunksize) (Parts.blockLength content.length chunksize k : ℕ) content =
        blockBytes chunksize content k ↔
      content.length ≤ (k + 1) * chunksize ∨ k = 0 ∧ bufSize ∣ chunksize := by
  have starts := (lt_block_count_iff chunk k).mp inside
  rw [readFrom_eq buffer, blockBytes, blockLength_eq chunk inside, List.take_eq_take_iff,
    List.length_drop]
  have ends : k * chunksize + (min ((k + 1) * chunksize) content.length - k * chunksize) =
      min ((k + 1) * chunksize) content.length := by
    rw [Nat.succ_mul]
    omega
  rw [ends]
  have reaches := le_roundUp buffer (min ((k + 1) * chunksize) content.length)
  by_cases last : content.length ≤ (k + 1) * chunksize
  · rw [Nat.min_eq_right last] at reaches ⊢
    simp only [last, true_or, iff_true]
    omega
  · rw [Nat.min_eq_left (Nat.le_of_not_le last)] at reaches ⊢
    simp only [last, false_or]
    constructor
    · intro same
      have zero : k * chunksize = 0 := by
        rw [Nat.succ_mul] at *
        omega
      have first : k = 0 := (Nat.mul_eq_zero.mp zero).resolve_right chunk.ne'
      subst first
      rw [Nat.zero_add, Nat.one_mul] at *
      exact ⟨rfl, (roundUp_eq_self_iff buffer _).mp (by omega)⟩
    · intro ⟨first, divides⟩
      subst first
      rw [Nat.zero_add, Nat.one_mul, (roundUp_eq_self_iff buffer _).mpr divides]
      omega

end Reading
/-! ## The messages -/

section Messages
variable {w : World} {o : Identity.Options} {method : Str}

/-- The other methods take the value of the checksum. -/
theorem calculate_checksum (cod : method.take 4 ≠ "cod,".toList)
    (named : ¬ (method = "md5name".toList ∨ method = "invalid".toList))
    (arbitrary : method ≠ "arbitrary".toList) (offset : Nat) (data content : Bytes) (msg : Message) :
    calculate w o method offset data content msg =
      (checksum w o method offset data content msg).map fun found =>
        (some (identity (.str method) (.str found.1)), found.2) := by
  unfold calculate
  rw [if_neg cod, if_neg named, if_neg arbitrary]
  cases checksum w o method offset data content msg <;> rfl

theorem calculate_binary (binary : Binary method) (offset : Nat) (data content : Bytes)
    (msg : Message) :
    calculate w o method offset data content msg =
      (checksum w o method offset data content msg).map fun found =>
        (some (identity (.str method) (.str found.1)), found.2) := by
  have plain : method.take 4 ≠ "cod,".toList ∧ method ≠ "md5name".toList ∧
      method ≠ "invalid".toList ∧ method ≠ "arbitrary".toList := by
    rcases binary with rfl | rfl <;> decide
  exact calculate_checksum plain.1 (not_or.mpr ⟨plain.2.1, plain.2.2.1⟩) plain.2.2.2 ..

theorem checksum_read (binary : Binary method) {msg : Message} {size : Nat}
    (sized : msg.get "size" = some (.int size)) (offset : Nat) (content : Bytes) :
    checksum w o method offset [] content msg =
      .ok (w.digest method (readFrom o.bufSize offset (size : ℕ) content), msg) := by
  have number : (((size : Nat) : Int) : ℚ) = (size : ℚ) := Int.cast_natCast size
  unfold checksum
  rw [sized, Option.isSome_some, if_pos rfl, if_pos binary]
  refine bind_ok_iff.mpr ⟨.int size, ?_, ?_⟩
  · rw [Dict.item, sized]
  · rw [← number]
    rfl

/-- A message that carries blocks is never served from the attributes. -/
theorem computeIdentity_block (binary : Binary method) (chosen : o.identity_method = some method)
    {msg : Message} (blocks : (msg.get "blocks").isSome) (offset size : Nat) (f : File) :
    computeIdentity w o offset [] f (msg.set "size" (.int size)) =
      ((rememberMtime (msg.set "size" (.int size)) f.x).set "identity" (identity (.str method)
          (.str (w.digest method (readFrom o.bufSize offset (size : ℕ) f.content)))),
        .ok (Dict.set (msg.set "size" (.int size)) "identity" (identity (.str method)
          (.str (w.digest method (readFrom o.bufSize offset (size : ℕ) f.content)))))) := by
  have carries : (Dict.get (msg.set "size" (.int size)) "blocks").isSome := by
    rwa [Dict.get_set_ne msg (by decide)]
  have sized : Dict.get (msg.set "size" (.int size)) "size" = some (.int size) :=
    Dict.get_set_self ..
  have from_ : origin w o f.x (msg.set "size" (.int size)) = .ok (.calculated (some method)) := by
    rw [origin, if_pos carries, chosen]
  have read := calculate_binary (w := w) (o := o) binary offset [] f.content (msg.set "size" (.int size))
  rw [checksum_read binary sized] at read
  unfold computeIdentity
  rw [from_]
  dsimp only
  rw [read]
  rfl

variable (w o method) in
/-- How a block is identified: the digest of what is read for it. -/
def readDigest (chunksize : Nat) (content : Bytes) (k : Nat) : Str :=
  w.digest method (readFrom o.bufSize (k * chunksize)
    (Parts.blockLength content.length chunksize k : ℕ) content)

variable (w o method) in
def readBlock (chunksize : Nat) (content : Bytes) (k : Nat) : Block :=
  ⟨Parts.blockLength content.length chunksize k, .str (readDigest w o method chunksize content k)⟩

/-- Every block of the list gets its entry, and the message an identity of the method. -/
theorem identifyBlocks_ok (binary : Binary method) (chosen : o.identity_method = some method)
    (chunksize : Nat) (blocks : List Nat) (f : File) {msg : Message} (manifest : Table Nat Block)
    (carries : (msg.get "blocks").isSome) :
    ∃ x msg' manifest', identifyBlocks w o chunksize blocks f msg manifest =
        (x, .ok (some (msg', manifest'))) ∧
      (∀ k, manifest'.get k =
        if k ∈ blocks then some (readBlock w o method chunksize f.content k) else manifest.get k) ∧
      (blocks ≠ [] ∨ (∃ value, msg.get "identity" = some (identity (.str method) value)) →
        ∃ value, msg'.get "identity" = some (identity (.str method) value)) := by
  induction blocks generalizing f msg manifest with
  | nil =>
    refine ⟨f.x, msg, manifest, rfl, fun k => by rw [if_neg List.not_mem_nil], fun had => ?_⟩
    exact had.resolve_left fun more => more rfl
  | cons b blocks ih =>
    let next := Dict.set (Dict.set msg "size"
      (.int (Parts.blockLength f.content.length chunksize b))) "identity" (identity (.str method)
        (.str (readDigest w o method chunksize f.content b)))
    have has : next.get "identity" = some (identity (.str method)
        (.str (readDigest w o method chunksize f.content b))) := Dict.get_set_self ..
    have still : (next.get "blocks").isSome := by
      rw [Dict.get_set_ne _ (by decide), Dict.get_set_ne _ (by decide)]
      exact carries
    have value : (next.item "identity").bind (Value.item "value") =
        .ok (.str (readDigest w o method chunksize f.content b)) := by
      rw [Dict.item, has]
      rfl
    let x := Dict.set (rememberMtime (Dict.set msg "size"
      (.int (Parts.blockLength f.content.length chunksize b))) f.x) "identity"
        (identity (.str method) (.str (readDigest w o method chunksize f.content b)))
    have identified : computeIdentity w o (b * chunksize) [] f (Dict.set msg "size"
        (.int (Parts.blockLength f.content.length chunksize b))) = (x, .ok next) :=
      computeIdentity_block binary chosen carries (b * chunksize)
        (Parts.blockLength f.content.length chunksize b) f
    obtain ⟨x', msg', manifest', rest, entries, kept⟩ := ih { f with x := x }
      (manifest.set b (readBlock w o method chunksize f.content b)) still
    refine ⟨x', msg', manifest', ?_, fun k => ?_, fun _ => kept (Or.inr ⟨_, has⟩)⟩
    · rw [identifyBlocks, identified]
      dsimp only
      rw [value]
      exact rest
    · rw [entries, Table.get_set]
      by_cases later : k ∈ blocks
      · rw [if_pos later, if_pos (List.mem_cons_of_mem b later)]
      · rw [if_neg later]
        by_cases here : k = b
        · rw [if_pos here, if_pos (here ▸ List.mem_cons_self), here]
        · rw [if_neg here, if_neg (List.not_mem_cons_of_ne_of_not_mem here later)]

theorem mapM_ok {α β ε : Type} {f : α → Except ε β} {Q : α → β → Prop} {xs : List α}
    (each : ∀ x ∈ xs, ∃ y, f x = .ok y ∧ Q x y) :
    ∃ ys, xs.mapM f = .ok ys ∧ List.Forall₂ Q xs ys := by
  induction xs with
  | nil => exact ⟨[], rfl, .nil⟩
  | cons x xs ih =>
    obtain ⟨y, made, holds⟩ := each x List.mem_cons_self
    obtain ⟨ys, rest, all⟩ := ih fun z member => each z (List.mem_cons_of_mem x member)
    refine ⟨y :: ys, ?_, .cons holds all⟩
    rw [List.mapM_cons, made]
    change (xs.mapM f >>= _) = _
    rw [rest]
    rfl

theorem identity_setItem (method value value' : Value) :
    (identity method value).setItem "value" value' = .ok (identity method value') := by
  simp [identity, Value.setItem, Dict.set]

/-- A message for a block: its number, its size and its digest, with the same of every
other block of the list in its manifest. -/
structure Announces (method : Str) (chunksize : Nat) (length : Nat → Nat) (digest : Nat → Str)
    (blocks : List Nat) (k : Nat) (p : Posted) : Prop where
  inside : k ∈ blocks
  number : p.fields.get "blocks" = some (blocksField chunksize k)
  size : p.fields.get "size" = some (.int (length k))
  identity : p.fields.get "identity" = some (Identity.identity (.str method) (.str (digest k)))
  manifest : ∀ j ∈ blocks, p.manifest.get j = some ⟨length j, .str (digest j)⟩

/-- One message is posted for every block, in their order, and what identifies the blocks
is what was read for them. -/
theorem post_file_in_parts_ok (binary : Binary method) (chosen : o.identity_method = some method)
    (bssetting : Nat) (info : Parts.FileInfo) (blocks : List Nat) (f : File) :
    ∃ posted, (post_file_in_parts w o bssetting info blocks f).2 = .ok posted ∧
      List.Forall₂ (Announces method (Parts.set_blockSize bssetting f.content.length)
        (Parts.blockLength f.content.length (Parts.set_blockSize bssetting f.content.length))
        (readDigest w o method (Parts.set_blockSize bssetting f.content.length) f.content) blocks)
        blocks posted := by
  generalize chunk : Parts.set_blockSize bssetting f.content.length = chunksize
  have carries : (Dict.get (info.fields.set "blocks" (blocksField chunksize (-1))) "blocks").isSome := by
    rw [Dict.get_set_self]
    rfl
  obtain ⟨x, msg, manifest, identified, entries, kept⟩ :=
    identifyBlocks_ok (w := w) binary chosen chunksize blocks f Table.empty carries
  have posts : (post_file_in_parts w o bssetting info blocks f).2 =
      blocks.mapM (postBlock chunksize msg manifest) := by
    simp only [post_file_in_parts, chunk, identified]
  rw [posts]
  refine mapM_ok fun k member => ?_
  have entry := entries k
  rw [if_pos member] at entry
  obtain ⟨value, has⟩ := kept (Or.inl (List.ne_nil_of_mem member))
  let sized := Dict.set (Dict.set msg "blocks" (blocksField chunksize k)) "size"
    (.int (Parts.blockLength f.content.length chunksize k))
  have carried : sized.get "identity" = some (identity (.str method) value) := by
    rw [Dict.get_set_ne _ (by decide), Dict.get_set_ne _ (by decide), has]
  refine ⟨⟨sized.set "identity" (identity (.str method)
    (.str (readDigest w o method chunksize f.content k))), manifest⟩, ?_, member, ?_, ?_, ?_, ?_⟩
  · refine bind_ok_iff.mpr ⟨readBlock w o method chunksize f.content k, ?_, ?_⟩
    · rw [entry]
      rfl
    · refine bind_ok_iff.mpr ⟨identity (.str method) value, ?_, ?_⟩
      · change Dict.item sized "identity" = _
        rw [Dict.item, carried]
      · refine bind_ok_iff.mpr ⟨identity (.str method)
          (.str (readDigest w o method chunksize f.content k)), ?_, rfl⟩
        exact identity_setItem ..
  · rw [Dict.get_set_ne _ (by decide), Dict.get_set_ne _ (by decide), Dict.get_set_self]
  · rw [Dict.get_set_ne _ (by decide), Dict.get_set_self]
  · rw [Dict.get_set_self]
  · intro j other
    have entry := entries j
    rw [if_pos other] at entry
    exact entry

theorem Announces.congr {chunksize : Nat} {length length' : Nat → Nat} {digest digest' : Nat → Str}
    {blocks : List Nat} (same : ∀ j ∈ blocks, length j = length' j ∧ digest j = digest' j) {k : Nat}
    {p : Posted} (announces : Announces method chunksize length digest blocks k p) :
    Announces method chunksize length' digest' blocks k p where
  inside := announces.inside
  number := announces.number
  size := (same k announces.inside).1 ▸ announces.size
  identity := (same k announces.inside).2 ▸ announces.identity
  manifest j member := by
    rw [announces.manifest j member, (same j member).1, (same j member).2]

theorem forall₂_both {α β : Type} {P Q : α → β → Prop} {xs : List α} {ys : List β}
    (left : List.Forall₂ P xs ys) (right : List.Forall₂ Q xs ys) :
    ∀ x ∈ xs, ∃ y, P x y ∧ Q x y := by
  induction left with
  | nil => exact fun x member => absurd member List.not_mem_nil
  | cons holds rest ih =>
    cases right with
    | cons holds' rest' =>
      intro x member
      rcases List.mem_cons.mp member with rfl | later
      · exact ⟨_, holds, holds'⟩
      · exact ih rest' x later

end Messages

/-! ## When the identities are right -/

section Right
variable (w : World) (o : Identity.Options) (method : Str) (bssetting : Nat) (info : Parts.FileInfo)

/-- Every block is posted, with its length and, in its own message and in every manifest,
the digest of its bytes; and the blocks are disjoint and cover the file. -/
structure PartsRight (blocks : List Nat) (f : File) (chunksize : Nat) (posted : List Posted) :
    Prop where
  announced : List.Forall₂ (Announces method chunksize
    (fun k => (blockBytes chunksize f.content k).length)
    (fun k => w.digest method (blockBytes chunksize f.content k)) blocks) blocks posted
  cover : (List.range (Parts.block_count f.content.length chunksize)).flatMap
    (blockBytes chunksize f.content) = f.content

theorem set_blockSize_pos {fsiz : Nat} (some_ : 0 < fsiz) : 0 < Parts.set_blockSize bssetting fsiz := by
  unfold Parts.set_blockSize
  split
  · decide
  · split <;> omega

theorem blockBytes_length {chunksize : Nat} (positive : 0 < chunksize) (content : Bytes) {k : Nat}
    (inside : k < Parts.block_count content.length chunksize) :
    (blockBytes chunksize content k).length = Parts.blockLength content.length chunksize k := by
  rw [blockLength_eq positive inside, blockBytes, List.length_take, List.length_drop]
  omega

variable {w o method} in
theorem PartsRight.digests {blocks : List Nat} {f : File} {chunksize : Nat} {posted : List Posted}
    {length : Nat → Nat}
    (announced : List.Forall₂ (Announces method chunksize length
      (readDigest w o method chunksize f.content) blocks) blocks posted)
    (parts : PartsRight w method blocks f chunksize posted) {k : Nat} (member : k ∈ blocks) :
    readDigest w o method chunksize f.content k =
      w.digest method (blockBytes chunksize f.content k) := by
  obtain ⟨p, read, meant⟩ := forall₂_both announced parts.announced k member
  have both := read.identity.symm.trans meant.identity
  simp only [identity, Option.some.injEq, Value.dict.injEq, List.cons.injEq, Prod.mk.injEq,
    Value.str.injEq, true_and, and_true] at both
  exact both

/-- What is posted for a file is right exactly when it is one block, or two of which the
first has a length that buffers divide. -/
theorem parts_right_iff (binary : Binary method) (chosen : o.identity_method = some method)
    (injective : Function.Injective (w.digest method)) (buffer : 0 < o.bufSize) (f : File)
    (some_ : f.content ≠ []) (blocks : List Nat)
    (each : blocks.Perm (List.range (Parts.block_count f.content.length
      (Parts.set_blockSize bssetting f.content.length)))) :
    (∃ posted, (post_file_in_parts w o bssetting info blocks f).2 = .ok posted ∧
      PartsRight w method blocks f (Parts.set_blockSize bssetting f.content.length) posted) ↔
      f.content.length ≤ Parts.set_blockSize bssetting f.content.length ∨
        f.content.length ≤ 2 * Parts.set_blockSize bssetting f.content.length ∧
          o.bufSize ∣ Parts.set_blockSize bssetting f.content.length := by
  have size : 0 < f.content.length := List.length_pos_of_ne_nil some_
  have chunk := set_blockSize_pos bssetting size
  obtain ⟨posted, posts, announced⟩ := post_file_in_parts_ok (w := w) binary chosen bssetting info blocks f
  rw [posts]
  generalize Parts.set_blockSize bssetting f.content.length = chunksize at *
  have inside {k : Nat} : k ∈ blocks ↔ k * chunksize < f.content.length := by
    rw [each.mem_iff, List.mem_range, lt_block_count_iff chunk]
  have right {k : Nat} (member : k ∈ blocks) :
      readDigest w o method chunksize f.content k = w.digest method (blockBytes chunksize f.content k) ↔
        f.content.length ≤ (k + 1) * chunksize ∨ k = 0 ∧ o.bufSize ∣ chunksize := by
    rw [← readFrom_block_iff buffer chunk ((lt_block_count_iff chunk k).mpr (inside.mp member))]
    exact injective.eq_iff
  constructor
  · intro ⟨posted', same, allRight⟩
    obtain rfl := Except.ok.inj same
    have digests {k : Nat} (member : k ∈ blocks) :
        f.content.length ≤ (k + 1) * chunksize ∨ k = 0 ∧ o.bufSize ∣ chunksize :=
      (right member).mp (PartsRight.digests announced allRight member)
    have first := digests (inside.mpr (by rwa [Nat.zero_mul]))
    rw [Nat.zero_add, Nat.one_mul] at first
    rcases first with one | ⟨-, divides⟩
    · exact Or.inl one
    · by_cases one : f.content.length ≤ chunksize
      · exact Or.inl one
      · have second := digests (k := 1) (inside.mpr (by omega))
        exact Or.inr ⟨second.resolve_right fun h => absurd h.1 Nat.one_ne_zero, divides⟩
  · intro condition
    refine ⟨posted, rfl, ?_, blocks_cover chunk f.content⟩
    refine announced.imp fun k p read => read.congr fun j member => ?_
    have starts := inside.mp member
    refine ⟨(blockBytes_length chunk f.content ((lt_block_count_iff chunk j).mpr starts)).symm, ?_⟩
    rw [right member]
    have last (more : j ≠ 0) : 2 * chunksize ≤ (j + 1) * chunksize :=
      Nat.mul_le_mul_right chunksize (by omega)
    have after (more : j ≠ 0) : chunksize ≤ j * chunksize :=
      Nat.le_mul_of_pos_left chunksize (Nat.pos_of_ne_zero more)
    rcases condition with one | ⟨two, divides⟩
    · by_cases first : j = 0
      · subst first
        rw [Nat.zero_add, Nat.one_mul]
        exact Or.inl one
      · have := after first
        omega
    · by_cases first : j = 0
      · exact Or.inr ⟨first, divides⟩
      · exact Or.inl (two.trans (last first))

end Right

/-! ## Files of two and of three blocks -/

/-- A checksum that keeps every byte. -/
def spelled (_method : Str) (bytes : Bytes) : Str := bytes.map fun b => Char.ofNat b.toNat

theorem spelled_injective (method : Str) : Function.Injective (spelled method) := by
  refine List.map_injective_iff.mpr fun b b' same => UInt8.toNat_inj.mp ?_
  have valid (c : UInt8) : (Char.ofNat c.toNat).toNat = c.toNat := by
    have small := c.toNat_lt
    rw [Char.ofNat, dif_pos (show c.toNat.isValidChar from Or.inl (by omega))]
    rfl
  rw [← valid b, ← valid b', same]

def spelledWorld : World := ⟨spelled, [], [], fun _ => []⟩

def bytewise : Identity.Options := ⟨some "sha512".toList, .none, false, 1, true⟩

def noInfo : Parts.FileInfo := ⟨[], rfl⟩

/-- Two blocks, the second one first. -/
theorem parts_right_two : ∃ posted,
    (post_file_in_parts spelledWorld bytewise 2 noInfo [1, 0] ⟨[7, 8, 9], [], []⟩).2 = .ok posted ∧
      PartsRight spelledWorld "sha512".toList [1, 0] ⟨[7, 8, 9], [], []⟩ 2 posted :=
  (parts_right_iff spelledWorld bytewise "sha512".toList 2 noInfo (Or.inr rfl) rfl
    (spelled_injective "sha512".toList) (by decide) ⟨[7, 8, 9], [], []⟩ (by decide) [1, 0] (by decide)).mpr
    (Or.inr (by decide))

/-- Of three blocks, the second one is identified by its own bytes and those of the third. -/
theorem second_of_three_wrong : ¬ ∃ posted,
    (post_file_in_parts spelledWorld bytewise 2 noInfo [0, 1, 2] ⟨[5, 6, 7, 8, 9], [], []⟩).2 =
        .ok posted ∧
      PartsRight spelledWorld "sha512".toList [0, 1, 2] ⟨[5, 6, 7, 8, 9], [], []⟩ 2 posted := by
  intro ⟨posted, posts, parts⟩
  obtain ⟨posted', posts', announced⟩ := post_file_in_parts_ok (w := spelledWorld) (o := bytewise)
    (Or.inr rfl) rfl 2 noInfo [0, 1, 2] ⟨[5, 6, 7, 8, 9], [], []⟩
  obtain rfl := Except.ok.inj (posts.symm.trans posts')
  have same := spelled_injective "sha512".toList
    (parts.digests (o := bytewise) (k := 1) announced (by decide))
  have alike := (readFrom_block_iff Nat.one_pos Nat.two_pos (k := 1) (by decide)).mp same
  exact absurd alike (by decide)

end Sarracenia.Guarantees.Identity
