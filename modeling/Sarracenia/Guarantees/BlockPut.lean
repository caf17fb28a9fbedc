import Sarracenia.Guarantees.ReadWrite

/-!
# Blocks of a file that are put

A block that is put writes its own bytes. What is behind it stays where the file is not cut off there; then the
blocks of a file can be put in any order, and more than once.
-/
namespace Sarracenia.Guarantees.BlockPut
open Library.Binary64 Source.ReadWrite Guarantees.Writing Guarantees.ReadWrite
open Source.Transfer (Bytes patch setLength)

structure Block where
  local_offset : Nat
  remote_offset : Nat
  length : Nat

def Block.put (b : Block) (o : Options) (src remote : Bytes) : Option (Bytes × Nat) :=
  Source.ReadWrite.put o src b.local_offset b.remote_offset b.length (some remote)

/-- The block is set from the local file, the rest is unchanged; nothing comes behind it but what was there, and zeros in
a gap before it. -/
structure Touched (b : Block) (src remote content : Bytes) : Prop where
  length : content.length = max remote.length (b.remote_offset + b.length)
  inside : ∀ i < b.length, content[b.remote_offset + i]? = src[b.local_offset + i]?
  outside : ∀ i < remote.length, i < b.remote_offset ∨ b.remote_offset + b.length ≤ i → content[i]? = remote[i]?
  gap : ∀ i, remote.length ≤ i → i < b.remote_offset → content[i]? = some 0

/-- The whole buffers of the block are counted right, and there is nothing behind it that would be cut off. -/
def Sound (o : Options) (b : Block) (remote src : Nat) : Prop :=
  Counted o.bufSize b.length (src - b.local_offset) ∧ (o.nofsetstat = true ∨ remote ≤ b.remote_offset + b.length)

section Handles

/-- What the writes leave: nothing is written beyond the end without bytes. -/
theorem foldl_write (written : List Bytes) (dst : Handle) (some_ : written ≠ []) :
    written.foldl Handle.write dst = ⟨patch dst.content dst.position written.flatten, dst.position + written.flatten.length⟩ := by
  induction written generalizing dst with
  | nil => exact absurd rfl some_
  | cons chunk written ih =>
    cases written with
    | nil =>
      rw [List.flatten_singleton]
      rfl
    | cons next written =>
      rw [List.foldl_cons, ih _ (List.cons_ne_nil _ _)]
      simp only [Handle.write, patch_patch, List.flatten_cons, List.length_append, Nat.add_assoc]

end Handles

section Put
variable {o : Options} {b : Block} {src remote : Bytes} {nc n m : Nat}

/-- What the truncations make of what was written. -/
def closed (o : Options) (b : Block) (count : Nat) (content : Bytes) : Bytes :=
  if o.nofsetstat then content
  else setLength (b.remote_offset + count) (if count < b.length then setLength count content else content)

theorem put_some (src remote : Bytes) (buffer : 0 < o.bufSize) (some_ : 0 < b.length) (counted : wholes b.length o.bufSize = some nc) :
    ∃ written : List Bytes, written.flatten = (src.drop b.local_offset).take (nc * o.bufSize + b.length % o.bufSize) ∧
      b.put o src remote = some (closed o b written.flatten.length (written.foldl Handle.write ⟨remote, b.remote_offset⟩).content,
        written.flatten.length) := by
  obtain ⟨copied, read_, is⟩ := read_write_some false buffer (src.drop b.local_offset) some_.ne' counted
  refine ⟨copied.written, is.written, ?_⟩
  have count : copied.rw_length = copied.written.flatten.length := by rw [is.rw_length, is.written]
  unfold Block.put Source.ReadWrite.put readlocal_write closed
  dsimp only
  rw [if_neg some_.ne', read_, Option.map_some, Option.map_some, count]
  cases o.nofsetstat with
  | true => simp
  | false =>
    simp only [some_.ne', false_or, Bool.not_false, and_true, ne_eq, not_false_eq_true, if_true, Bool.false_eq_true, if_false,
      Handle.truncate, Option.getD_some]
    split <;> rfl

/-- A block that is counted right, and what is left of the file. -/
theorem put_counted (buffer : 0 < o.bufSize) (some_ : 0 < b.length) (fits : b.local_offset + b.length ≤ src.length)
    (counted : Counted o.bufSize b.length (src.length - b.local_offset)) :
    b.put o src remote = some (if o.nofsetstat then patch remote b.remote_offset ((src.drop b.local_offset).take b.length)
      else setLength (b.remote_offset + b.length) (patch remote b.remote_offset ((src.drop b.local_offset).take b.length)), b.length) := by
  rcases counted with none_ | ⟨nc, count, exact_⟩
  · exact absurd none_ some_.ne'
  · obtain ⟨written, bytes, is⟩ := put_some src remote buffer some_ count
    have data : written.flatten = (src.drop b.local_offset).take b.length := by
      rw [bytes]
      rcases exact_ with rfl | ⟨first, second⟩
      · rw [Nat.div_add_mod']
      · rw [← List.length_drop] at first second
        exact take_eq_take_of second first
    have long : written.flatten.length = b.length := by
      rw [data, List.length_take, List.length_drop]
      omega
    have wrote : written ≠ [] := by
      rintro rfl
      exact some_.ne' long.symm
    rw [is, foldl_write _ _ wrote, long, data]
    unfold closed
    rw [if_neg (Nat.lt_irrefl _)]

theorem put_uncounted (some_ : 0 < b.length) (buffer : 0 < o.bufSize) (count : wholes b.length o.bufSize = none) : b.put o src remote = none := by
  unfold Block.put Source.ReadWrite.put readlocal_write read_write
  dsimp only
  rw [if_neg some_.ne', if_neg some_.ne', if_neg buffer.ne', count]
  rfl

theorem take_drop_getElem? {α : Type} (l : List α) (start : Nat) {count i : Nat} (within : i < count) :
    ((l.drop start).take count)[i]? = l[start + i]? := by
  rw [List.getElem?_take_of_lt within, List.getElem?_drop]

theorem touched_of_sound (buffer : 0 < o.bufSize) (some_ : 0 < b.length) (fits : b.local_offset + b.length ≤ src.length)
    (sound : Sound o b remote.length src.length) : ∃ content count, b.put o src remote = some (content, count) ∧ Touched b src remote content := by
  obtain ⟨counted, kept⟩ := sound
  refine ⟨_, _, put_counted buffer some_ fits counted, ?_⟩
  have long : ((src.drop b.local_offset).take b.length).length = b.length := by
    rw [List.length_take, List.length_drop]
    omega
  have whole : (patch remote b.remote_offset ((src.drop b.local_offset).take b.length)).length =
      max remote.length (b.remote_offset + b.length) := by
    rw [patch_length, long]
    omega
  have content : (if o.nofsetstat then patch remote b.remote_offset ((src.drop b.local_offset).take b.length)
      else setLength (b.remote_offset + b.length) (patch remote b.remote_offset ((src.drop b.local_offset).take b.length))) =
      patch remote b.remote_offset ((src.drop b.local_offset).take b.length) := by
    rcases kept with keeps | short
    · rw [if_pos keeps]
    · have same : b.remote_offset + b.length = (patch remote b.remote_offset ((src.drop b.local_offset).take b.length)).length := by
        rw [whole]
        omega
      rw [same, setLength_self, ite_self]
  rw [content]
  refine ⟨whole, ?_, ?_, fun i beyond before => patch_getElem?_gap before beyond⟩
  · intro i within
    rw [patch_getElem?_inside (Nat.le_add_right _ _) (by rw [long]; omega), Nat.add_sub_cancel_left, take_drop_getElem? _ _ within]
  · intro i within apart
    rcases apart with before | after
    · exact patch_getElem?_before before within
    · exact patch_getElem?_after (by rw [long]; exact after)

theorem setLength_one {bytes : Bytes} {i : Nat} (one : (setLength n bytes)[i]? = some 1) : bytes[i]? = some 1 := by
  unfold setLength at one
  rw [List.getElem?_append] at one
  split at one
  · next within =>
    rw [List.length_take] at within
    rw [List.getElem?_take_of_lt (by omega)] at one
    exact one
  · rw [List.getElem?_replicate] at one
    split at one <;> simp at one

theorem closed_one {bytes : Bytes} {count i : Nat} (one : (closed o b count bytes)[i]? = some 1) : bytes[i]? = some 1 := by
  unfold closed at one
  split at one
  · exact one
  · have inner := setLength_one one
    split at inner
    · exact setLength_one inner
    · exact inner

/-- Zeros before, ones after: a block that is counted wrong does not end where it should. -/
theorem counted_of_touched (buffer : 0 < o.bufSize) (some_ : 0 < b.length) (fits : b.local_offset + b.length ≤ m)
    (touched : ∃ content count, b.put o (List.replicate m 1) (List.replicate n 0) = some (content, count) ∧
      Touched b (List.replicate m 1) (List.replicate n 0) content) : Counted o.bufSize b.length (m - b.local_offset) := by
  obtain ⟨content, count_, put_, touched⟩ := touched
  cases count : wholes b.length o.bufSize with
  | none =>
    rw [put_uncounted some_ buffer count] at put_
    cases put_
  | some nc =>
    obtain ⟨written, bytes, is⟩ := put_some (List.replicate m 1) (List.replicate n 0) buffer some_ count
    rw [List.drop_replicate, List.take_replicate] at bytes
    have content_is := (Prod.mk.inj (Option.some.inj (is.symm.trans put_))).1
    have long : written.flatten.length = min (nc * o.bufSize + b.length % o.bufSize) (m - b.local_offset) := by
      rw [bytes, List.length_replicate]
    have whole := Nat.div_add_mod' b.length o.bufSize
    rcases Nat.lt_trichotomy written.flatten.length b.length with short | exact_ | wide
    · -- the byte behind what was written is not one of the ones
      have one := touched.inside _ short
      rw [← content_is, List.getElem?_replicate, if_pos (by omega)] at one
      refine absurd (closed_one one) ?_
      cases written with
      | nil =>
        rw [List.foldl_nil, List.getElem?_replicate]
        split <;> simp
      | cons chunk written =>
        rw [foldl_write _ _ (List.cons_ne_nil _ _), patch_getElem?_after (Nat.le_refl _), List.getElem?_replicate]
        split <;> simp
    · refine .inr ⟨nc, count, ?_⟩
      by_cases same : nc = b.length / o.bufSize
      · exact .inl same
      · have other : nc * o.bufSize ≠ b.length / o.bufSize * o.bufSize := fun equal => same (Nat.eq_of_mul_eq_mul_right buffer equal)
        omega
    · -- the byte behind the block is one of the ones
      have wrote : written ≠ [] := by
        rintro rfl
        exact Nat.not_lt_zero _ wide
      have one : content[b.remote_offset + b.length]? = some 1 := by
        have ones : (patch (List.replicate n 0) b.remote_offset written.flatten)[b.remote_offset + b.length]? = some 1 := by
          rw [patch_getElem?_inside (Nat.le_add_right _ _) (by omega), Nat.add_sub_cancel_left, bytes, List.getElem?_replicate,
            if_pos (by omega)]
        rw [← content_is, foldl_write _ _ wrote]
        unfold closed
        dsimp only
        split
        · exact ones
        · rw [if_neg (by omega), setLength_getElem? (by rw [patch_length]; omega) (by omega)]
          exact ones
      have end_ := touched.length
      rw [List.length_replicate] at end_
      by_cases behind : b.remote_offset + b.length < n
      · have zero := touched.outside (b.remote_offset + b.length) (by rw [List.length_replicate]; exact behind) (.inr (Nat.le_refl _))
        rw [one, List.getElem?_replicate, if_pos behind] at zero
        cases zero
      · rw [List.getElem?_eq_none (by omega)] at one
        cases one

theorem sound_of_touched (buffer : 0 < o.bufSize) (some_ : 0 < b.length) (fits : b.local_offset + b.length ≤ m)
    (touched : ∀ remote src : Bytes, remote.length = n → src.length = m →
      ∃ content count, b.put o src remote = some (content, count) ∧ Touched b src remote content) : Sound o b n m := by
  have ones := touched (List.replicate n 0) (List.replicate m 1) List.length_replicate List.length_replicate
  have counted := counted_of_touched buffer some_ fits ones
  refine ⟨counted, ?_⟩
  obtain ⟨content, count, put_, touched⟩ := ones
  have counted' := counted
  rw [← List.length_replicate (n := m) (a := (1 : UInt8))] at counted'
  rw [put_counted buffer some_ (by rw [List.length_replicate]; exact fits) counted'] at put_
  cases keeps : o.nofsetstat with
  | true => exact .inl rfl
  | false =>
    have long := touched.length
    rw [keeps] at put_
    rw [← (Prod.mk.inj (Option.some.inj put_)).1, if_neg Bool.false_ne_true, setLength_length, List.length_replicate] at long
    right
    omega

end Put

section Runs
variable {o : Options} {b : Block} {src base d d' : Bytes} {bs bs' : List Block}

/-- The blocks are put one after the other, each where the condition is met. -/
inductive Puts (o : Options) (src : Bytes) : List Block → Bytes → Bytes → Prop where
  | nil (remote : Bytes) : Puts o src [] remote remote
  | cons {b : Block} {bs : List Block} {remote content final : Bytes} {count : Nat} : Sound o b remote.length src.length →
      b.put o src remote = some (content, count) → Puts o src bs content final → Puts o src (b :: bs) remote final

/-- The blocks are of the local file, and where two of them cover the same place they have the same byte for it. -/
structure OfFile (src : Bytes) (bs : List Block) : Prop where
  some_ : ∀ b ∈ bs, 0 < b.length
  fits : ∀ b ∈ bs, b.local_offset + b.length ≤ src.length
  agree : ∀ b ∈ bs, ∀ b' ∈ bs, ∀ i < b.length, ∀ j < b'.length, b.remote_offset + i = b'.remote_offset + j →
    src[b.local_offset + i]? = src[b'.local_offset + j]?

/-- The blocks in their places, and elsewhere what was there, or zeros. -/
structure Laid (src base : Bytes) (bs : List Block) (d : Bytes) : Prop where
  ends : d.length = base.length ∨ ∃ b ∈ bs, d.length = b.remote_offset + b.length
  grown : base.length ≤ d.length
  within : ∀ b ∈ bs, b.remote_offset + b.length ≤ d.length
  inside : ∀ b ∈ bs, ∀ i < b.length, d[b.remote_offset + i]? = src[b.local_offset + i]?
  outside : ∀ i < d.length, (∀ b ∈ bs, i < b.remote_offset ∨ b.remote_offset + b.length ≤ i) → d[i]? = some (base[i]?.getD 0)

theorem laid_start (src base : Bytes) : Laid src base [] base where
  ends := .inl rfl
  grown := Nat.le_refl _
  within := nofun
  inside := nofun
  outside i within _ := by rw [List.getElem?_eq_getElem within, Option.getD_some]

/-- One block more. -/
theorem laid_put (buffer : 0 < o.bufSize) (file : OfFile src (bs ++ [b])) (sound : Sound o b d.length src.length)
    (laid : Laid src base bs d) {content : Bytes} {count : Nat} (put_ : b.put o src d = some (content, count)) :
    Laid src base (bs ++ [b]) content := by
  have last : b ∈ bs ++ [b] := List.mem_append_right _ List.mem_cons_self
  have some_ := file.some_ b last
  have fits := file.fits b last
  obtain ⟨content', count', put', touched⟩ := touched_of_sound buffer some_ fits sound
  obtain ⟨rfl, rfl⟩ := Prod.mk.inj (Option.some.inj (put'.symm.trans put_))
  have end_ := touched.length
  constructor
  · rcases Nat.le_total (b.remote_offset + b.length) d.length with inner | outer
    · rw [Nat.max_eq_left inner] at end_
      rcases laid.ends with same | ⟨b', member, same⟩
      · exact .inl (end_.trans same)
      · exact .inr ⟨b', List.mem_append_left _ member, end_.trans same⟩
    · rw [Nat.max_eq_right outer] at end_
      exact .inr ⟨b, last, end_⟩
  · have := laid.grown
    omega
  · intro b' member
    rcases List.mem_append.mp member with before | now
    · have := laid.within b' before
      omega
    · obtain rfl := List.mem_singleton.mp now
      omega
  · intro b' member i within
    by_cases covered : b.remote_offset ≤ b'.remote_offset + i ∧ b'.remote_offset + i < b.remote_offset + b.length
    · obtain ⟨lower, upper⟩ := covered
      obtain ⟨j, place⟩ := Nat.exists_eq_add_of_le lower
      rw [place, touched.inside j (by omega)]
      exact file.agree b last b' member j (by omega) i within place.symm
    · rcases List.mem_append.mp member with before | now
      · have inner := laid.within b' before
        rw [touched.outside _ (by omega) (by omega)]
        exact laid.inside b' before i within
      · obtain rfl := List.mem_singleton.mp now
        omega
  · intro i within apart
    have away := apart b last
    have others := fun b' member => apart b' (List.mem_append_left _ member)
    by_cases inner : i < d.length
    · rw [touched.outside i inner away]
      exact laid.outside i inner others
    · have none_ : base[i]? = none := List.getElem?_eq_none (by have := laid.grown; omega)
      rw [touched.gap i (by omega) (by omega), none_]
      rfl

theorem laid_puts (bs : List Block) {after : List Block} {final : Bytes} (buffer : 0 < o.bufSize) (file : OfFile src (bs ++ after))
    (puts : Puts o src after d final) (laid : Laid src base bs d) : Laid src base (bs ++ after) final := by
  induction puts generalizing bs with
  | nil =>
    rw [List.append_nil]
    exact laid
  | @cons b after remote content final count sound put_ _ ih =>
    rw [List.append_cons] at file
    have through : OfFile src (bs ++ [b]) :=
      ⟨fun b' member => file.some_ b' (List.mem_append_left _ member), fun b' member => file.fits b' (List.mem_append_left _ member),
        fun b' member b'' member' => file.agree b' (List.mem_append_left _ member) b'' (List.mem_append_left _ member')⟩
    rw [List.append_cons]
    exact ih _ file (laid_put buffer through sound laid put_)

/-- What is laid is told by which blocks there are. -/
theorem Laid.unique (laid : Laid src base bs d) (laid' : Laid src base bs' d') (same : ∀ b, b ∈ bs ↔ b ∈ bs') : d = d' := by
  have le {bs bs' : List Block} {d d' : Bytes} (laid : Laid src base bs d) (laid' : Laid src base bs' d')
      (among : ∀ b ∈ bs, b ∈ bs') : d.length ≤ d'.length := by
    rcases laid.ends with equal | ⟨b, member, equal⟩
    · have := laid'.grown
      omega
    · have := laid'.within b (among b member)
      omega
  have long : d.length = d'.length := Nat.le_antisymm (le laid laid' fun b => (same b).mp) (le laid' laid fun b => (same b).mpr)
  apply List.ext_getElem?
  intro i
  by_cases within : i < d.length
  · by_cases covered : ∃ b ∈ bs, b.remote_offset ≤ i ∧ i < b.remote_offset + b.length
    · obtain ⟨b, member, lower, upper⟩ := covered
      obtain ⟨j, rfl⟩ := Nat.exists_eq_add_of_le lower
      rw [laid.inside b member j (by omega), laid'.inside b ((same b).mp member) j (by omega)]
    · have away : ∀ b ∈ bs, i < b.remote_offset ∨ b.remote_offset + b.length ≤ i := by
        intro b member
        by_contra inner
        exact covered ⟨b, member, by omega, by omega⟩
      rw [laid.outside i within away, laid'.outside i (by omega) fun b member => away b ((same b).mpr member)]
  · rw [List.getElem?_eq_none (by omega), List.getElem?_eq_none (by omega)]

/-- One block touches its own bytes if and only if the condition is met; and the blocks of a file, put where it is, leave the
same whatever their order and however often each is put. -/
theorem block_put_iff (o : Options) (buffer : 0 < o.bufSize) :
    (∀ (b : Block) (n m : Nat), 0 < b.length → b.local_offset + b.length ≤ m →
      ((∀ remote src : Bytes, remote.length = n → src.length = m →
        ∃ content count, b.put o src remote = some (content, count) ∧ Touched b src remote content) ↔ Sound o b n m)) ∧
    ∀ (src base d d' : Bytes) (bs bs' : List Block), OfFile src bs → (∀ b, b ∈ bs ↔ b ∈ bs') → Puts o src bs base d →
      Puts o src bs' base d' → d = d' := by
  constructor
  · intro b n m some_ fits
    refine ⟨sound_of_touched buffer some_ fits, ?_⟩
    rintro sound remote src rfl rfl
    exact touched_of_sound buffer some_ fits sound
  · intro src base d d' bs bs' file same puts puts'
    have file' : OfFile src bs' :=
      ⟨fun b member => file.some_ b ((same b).mpr member), fun b member => file.fits b ((same b).mpr member),
        fun b member b' member' => file.agree b ((same b).mpr member) b' ((same b').mpr member')⟩
    exact (laid_puts [] buffer file puts (laid_start src base)).unique
      (laid_puts [] buffer file' puts' (laid_start src base)) same

/-- The second half of four bytes, in a file that is not cut off. -/
theorem second_half : ∃ content count, Block.put ⟨2, 2, 2⟩ ⟨2, true⟩ [1, 2, 3, 4] [0, 0, 0, 0] = some (content, count) ∧
    Touched ⟨2, 2, 2⟩ [1, 2, 3, 4] [0, 0, 0, 0] content :=
  ((block_put_iff ⟨2, true⟩ (by decide)).1 ⟨2, 2, 2⟩ 4 4 (by decide) (by decide)).mpr
    ⟨counted_of_small (by decide) (by norm_num) _, .inl rfl⟩ [0, 0, 0, 0] [1, 2, 3, 4] rfl rfl

/-- The first half of four bytes that are there already: the second is cut off. -/
theorem first_half_cuts : ¬ ∀ (o : Options) (b : Block) (remote src : Bytes), 0 < o.bufSize → 0 < b.length →
    b.local_offset + b.length ≤ src.length → ∃ content count, b.put o src remote = some (content, count) ∧ Touched b src remote content := by
  intro touches
  obtain ⟨content, count, put_, touched⟩ := touches ⟨2, false⟩ ⟨0, 0, 2⟩ [1, 2, 3, 4] [1, 2, 3, 4] (by decide) (by decide) (by decide)
  rw [put_counted (by decide) (by decide) (by decide) (counted_of_small (by decide) (by norm_num) _)] at put_
  have long := touched.length
  rw [← (Prod.mk.inj (Option.some.inj put_)).1, if_neg Bool.false_ne_true, setLength_length] at long
  cases long

end Runs
end Sarracenia.Guarantees.BlockPut
