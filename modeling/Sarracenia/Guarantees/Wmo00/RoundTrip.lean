import Sarracenia.Guarantees.Wmo00.Record

/-!
# From bulletins to files and back

How the bulletins fall into accumulated files, and what the reader makes of these.
-/
namespace Sarracenia.Guarantees.Wmo00
open Library Library.Decimal
open Library.Text hiding slice split
open Source.Transfer (Bytes)
open Source.Wmo00

/-! ## Packing -/

/-- The files that are full, what is in the one that is open, and how many bytes count there. -/
structure Packing where
  full : List (List Bulletin)
  opened : List Bulletin
  counted : Nat

namespace Packing

def empty : Packing := ⟨[], [], 0⟩

def add (max : Nat) (p : Packing) (b : Bulletin) : Packing :=
  if p.counted + b.bytes.length + 22 > max then ⟨p.full ++ [p.opened], [b], b.counted⟩
  else ⟨p.full, p.opened ++ [b], p.counted + b.counted⟩

def groups (p : Packing) : List (List Bulletin) := p.full ++ [p.opened]

end Packing

def pack (max : Nat) (l : List Bulletin) : Packing := l.foldl (Packing.add max) Packing.empty

section Packings
variable (max : Nat) (p : Packing) (b : Bulletin)

theorem groups_add : (p.add max b).groups.flatten = p.groups.flatten ++ [b] := by
  unfold Packing.add Packing.groups
  split
  · simp
  · simp

theorem full_le (l : List Bulletin) : p.full.length ≤ (l.foldl (Packing.add max) p).full.length := by
  induction l generalizing p with
  | nil => exact Nat.le_refl _
  | cons b l ih =>
    refine Nat.le_trans ?_ (ih (p.add max b))
    unfold Packing.add
    split
    · rw [List.length_append]
      exact Nat.le_add_right _ _
    · exact Nat.le_refl _

theorem groups_pack (l : List Bulletin) : (pack max l).groups.flatten = l := by
  have all (l : List Bulletin) (p : Packing) : (l.foldl (Packing.add max) p).groups.flatten = p.groups.flatten ++ l := by
    induction l generalizing p with
    | nil => exact (List.append_nil _).symm
    | cons b l ih => rw [List.foldl_cons, ih, groups_add, List.append_assoc, List.singleton_append]
  exact all l Packing.empty

theorem opened_pack (l : List Bulletin) (some_ : l ≠ []) : (pack max l).opened ≠ [] := by
  obtain ⟨before, b, rfl⟩ := (List.eq_nil_or_concat' l).resolve_left some_
  rw [pack, List.foldl_concat]
  unfold Packing.add
  split
  · exact List.cons_ne_nil _ _
  · exact List.append_ne_nil_of_right_ne_nil _ (List.cons_ne_nil _ _)

end Packings

/-! ## Names of accumulated files -/

section Sequences
variable (o : Options) (s : Sequence)

/-- The name of the file with a number. -/
def nameAt (i : Nat) : Str := accumulated_name o (Sequence.next^[i] s)

theorem next_fields : s.next.first_digit = s.first_digit ∧ s.next.second_digit = s.second_digit ∧
    s.next.sequence = (s.sequence + 1) % 1000000 := by
  have bound := s.bound
  unfold Sequence.next
  split
  · exact ⟨rfl, rfl, by dsimp only; omega⟩
  · exact ⟨rfl, rfl, by dsimp only; omega⟩

theorem iterate_fields (i : Nat) : (Sequence.next^[i] s).first_digit = s.first_digit ∧
    (Sequence.next^[i] s).second_digit = s.second_digit ∧ (Sequence.next^[i] s).sequence = (s.sequence + i) % 1000000 := by
  induction i with
  | zero =>
    have bound := s.bound
    exact ⟨rfl, rfl, by rw [Function.iterate_zero_apply]; omega⟩
  | succ i ih =>
    obtain ⟨first, second, number⟩ := ih
    obtain ⟨first', second', number'⟩ := next_fields (Sequence.next^[i] s)
    rw [Function.iterate_succ_apply']
    exact ⟨first'.trans first, second'.trans second, by rw [number', number]; omega⟩

/-- A million files have names of their own. -/
theorem nameAt_inj {i j : Nat} (few : i < 1000000 ∧ j < 1000000) (same : nameAt o s i = nameAt o s j) : i = j := by
  obtain ⟨first, second, number⟩ := iterate_fields s i
  obtain ⟨first', second', number'⟩ := iterate_fields s j
  have bound := (Sequence.next^[i] s).bound
  have bound' := (Sequence.next^[j] s).bound
  unfold nameAt accumulated_name at same
  rw [first, second, first', second', zeros_fits (by decide) (by omega), zeros_fits (by decide) (by omega)] at same
  have digits := List.append_cancel_left (List.append_cancel_right same)
  have numbers := pad_inj 6 (by omega) (by omega) digits
  omega

end Sequences

/-! ## The writer -/

section Writing
variable (o : Options) (s : Sequence)

/-- The files are those of the packing, under the names in turn. -/
structure Holds (p : Packing) (w : Writer) : Prop where
  sequence : w.sequence = Sequence.next^[p.full.length + 1] s
  file : w.accumulated_file = nameAt o s p.full.length
  counted : w.output_length = p.counted
  incoming : w.incoming = (List.range p.full.length).map (nameAt o s)
  files : ∀ i g, p.groups[i]? = some g → w.files (nameAt o s i) = some (g.flatMap Bulletin.stream)

variable {o s} {p : Packing} {w : Writer}

theorem groups_last (p : Packing) : p.groups[p.full.length]? = some p.opened := List.getElem?_concat_length

theorem groups_bound {p : Packing} {i : Nat} {g : List Bulletin} (there : p.groups[i]? = some g) : i ≤ p.full.length := by
  have inside := (List.getElem?_eq_some_iff.mp there).1
  rw [Packing.groups, List.length_append] at inside
  exact Nat.le_of_lt_succ inside

theorem holds_written (holds : Holds o s p w) : w.written = p.opened.flatMap Bulletin.stream := by
  rw [Writer.written, holds.file, holds.files _ _ (groups_last p)]
  rfl

theorem holds_open (files : Files) : Holds o s Packing.empty (open_accumulated_file o ⟨s, [], 0, files, []⟩) where
  sequence := rfl
  file := rfl
  counted := rfl
  incoming := rfl
  files i g there := by
    have none_ : i = 0 := Nat.le_zero.mp (groups_bound there)
    rw [none_] at there ⊢
    cases there
    exact Function.update_self _ _ _

/-- A new file takes a name that no other has. -/
theorem holds_next (holds : Holds o s p w) (few : p.full.length + 1 < 1000000) :
    Holds o s ⟨p.full ++ [p.opened], [], 0⟩ (open_accumulated_file o (announce w)) where
  sequence := by
    change w.sequence.next = _
    rw [holds.sequence, ← Function.iterate_succ_apply' Sequence.next, List.length_append]
    rfl
  file := by
    change accumulated_name o w.sequence = _
    rw [holds.sequence, List.length_append]
    rfl
  counted := rfl
  incoming := by
    change w.incoming ++ [w.accumulated_file] = _
    rw [holds.incoming, holds.file, List.length_append, List.length_singleton, List.range_succ, List.map_append]
    rfl
  files i g there := by
    have bound := groups_bound there
    change Function.update w.files (accumulated_name o w.sequence) (some []) _ = _
    rw [holds.sequence]
    change Function.update w.files (nameAt o s (p.full.length + 1)) (some []) _ = _
    rw [List.length_append, List.length_singleton] at bound
    rcases Nat.lt_or_eq_of_le bound with older | rfl
    · have apart : nameAt o s i ≠ nameAt o s (p.full.length + 1) := fun same => by
        have := nameAt_inj o s ⟨by omega, few⟩ same
        omega
      rw [Function.update_of_ne apart]
      apply holds.files i g
      rw [Packing.groups, List.getElem?_append_left (by rw [List.length_append, List.length_singleton]; omega)] at there
      exact there
    · have last := groups_last ⟨p.full ++ [p.opened], [], 0⟩
      rw [List.length_append, List.length_singleton] at last
      rw [last] at there
      cases there
      exact Function.update_self _ _ _

/-- A record goes to the end of the file that is open. -/
theorem holds_write (holds : Holds o s p w) (few : p.full.length < 1000000) (b : Bulletin) :
    Holds o s ⟨p.full, p.opened ++ [b], p.counted + b.counted⟩ (write w (b.stream, b.counted)) where
  sequence := holds.sequence
  file := holds.file
  counted := by
    change w.output_length + b.counted = _
    rw [holds.counted]
  incoming := holds.incoming
  files i g there := by
    have bound := groups_bound there
    change Function.update w.files w.accumulated_file (some (w.written ++ b.stream)) _ = _
    rw [holds_written holds, holds.file]
    rcases Nat.lt_or_eq_of_le bound with older | rfl
    · have apart : nameAt o s i ≠ nameAt o s p.full.length := fun same => by
        have number := nameAt_inj o s ⟨older.trans few, few⟩ same
        exact absurd number (Nat.ne_of_lt older)
      rw [Function.update_of_ne apart]
      apply holds.files i g
      rw [Packing.groups, List.getElem?_append_left older] at there ⊢
      exact there
    · have last := groups_last ⟨p.full, p.opened ++ [b], p.counted + b.counted⟩
      rw [last] at there
      cases there
      rw [Function.update_self, List.flatMap_append, List.flatMap_singleton]

theorem holds_one (holds : Holds o s p w) {b : Bulletin} (size : b.bytes.length ≤ o.wmo00_byteCountMax)
    (few : (p.add o.wmo00_accumulatedByteCountMax b).full.length < 1000000) :
    ∃ w', accumulateOne o w b.bytes = .ok w' ∧ Holds o s (p.add o.wmo00_accumulatedByteCountMax b) w' := by
  have long : ¬ b.bytes.length < 12 := by
    have := Bulletin.bytes_long b
    omega
  refine ⟨write (makeRoom o w b.bytes.length) (b.stream, b.counted), ?_, ?_⟩
  · rw [accumulateOne, if_neg long, if_neg (Nat.not_lt.mpr size), Bulletin.output_record_bytes]
  · unfold Packing.add at few ⊢
    rw [makeRoom, holds.counted]
    split
    · next full =>
      rw [if_pos full, List.length_append] at few
      have opened := holds_write (holds_next holds few) (by rw [List.length_append]; exact few) b
      rwa [List.nil_append, Nat.zero_add] at opened
    · next room =>
      rw [if_neg room] at few
      exact holds_write holds few b

theorem holds_run {l : List Bulletin} (sizes : ∀ b ∈ l, b.bytes.length ≤ o.wmo00_byteCountMax) (holds : Holds o s p w)
    (few : (l.foldl (Packing.add o.wmo00_accumulatedByteCountMax) p).full.length < 1000000) :
    ∃ w', (l.map Bulletin.bytes).foldlM (accumulateOne o) w = .ok w' ∧
      Holds o s (l.foldl (Packing.add o.wmo00_accumulatedByteCountMax) p) w' := by
  induction l generalizing p w with
  | nil => exact ⟨w, rfl, holds⟩
  | cons b l ih =>
    obtain ⟨size, sizes⟩ := List.forall_mem_cons.mp sizes
    obtain ⟨w₁, first, holds₁⟩ := holds_one holds size ((full_le _ _ l).trans_lt few)
    obtain ⟨w₂, rest, holds₂⟩ := ih sizes holds₁ few
    refine ⟨w₂, ?_, holds₂⟩
    rw [List.map_cons, List.foldlM_cons, first]
    exact rest

/-- The files that are announced, as the reader gets them. -/
def contents (w : Writer) : List Bytes := w.incoming.map fun path => (w.files path).getD []

theorem accumulate_files {l : List Bulletin} (some_ : l ≠ []) (today : Nat) (files : Files)
    (sizes : ∀ b ∈ l, b.bytes.length ≤ o.wmo00_byteCountMax)
    (few : (pack o.wmo00_accumulatedByteCountMax l).full.length < 1000000) :
    ∃ w, accumulate o today s files (l.map Bulletin.bytes) = .ok w ∧
      contents w = (pack o.wmo00_accumulatedByteCountMax l).groups.map (·.flatMap Bulletin.stream) := by
  obtain ⟨w, run, holds⟩ := holds_run sizes (holds_open (s := s.ofDay today) files) few
  have nonempty : w.written.length > 0 := by
    rw [holds_written holds]
    obtain ⟨b, more, opened⟩ := List.exists_cons_of_ne_nil (opened_pack o.wmo00_accumulatedByteCountMax l some_)
    change 0 < ((pack o.wmo00_accumulatedByteCountMax l).opened.flatMap Bulletin.stream).length
    have long := Bulletin.body_long b
    rw [opened, List.flatMap_cons, List.length_append, Bulletin.stream, List.length_append]
    omega
  refine ⟨announce w, ?_, ?_⟩
  · have given : ¬ (l.map Bulletin.bytes).isEmpty = true := by simp [some_]
    rw [accumulate, if_neg given, run]
    change Except.ok (finish w) = _
    rw [finish, if_pos nonempty]
  · have incoming : (announce w).incoming = (List.range (pack o.wmo00_accumulatedByteCountMax l).groups.length).map
        (nameAt o (s.ofDay today)) := by
      change w.incoming ++ [w.accumulated_file] = _
      rw [holds.incoming, holds.file, Packing.groups, List.length_append, List.length_singleton, List.range_succ, List.map_append]
      rfl
    rw [contents, incoming, List.map_map]
    apply List.ext_getElem
    · rw [List.length_map, List.length_map, List.length_range]
    · intro i inside there
      rw [List.length_map] at there
      have read := holds.files i _ (List.getElem?_eq_getElem there)
      rw [List.getElem_map, List.getElem_map, List.getElem_range]
      change ((w.files (nameAt o (s.ofDay today) i)).getD []) = _
      rw [read]
      rfl

end Writing

/-! ## Sizes -/

section Sizes
variable (max : Nat)

def Plain : Bulletin → Prop
  | .plain _ _ => True
  | _ => False

/-- An outer header that is recognised is there already, and counted once more. -/
def Recognised : Bulletin → Prop
  | .outer _ _ false _ => True
  | _ => False

/-- A plain bulletin that comes to the limit with 22 bytes more, where 23 are written. -/
def Tight (p : Packing) (b : Bulletin) : Prop :=
  Plain b ∧ p.counted + b.bytes.length + 22 = max ∧ ∀ c ∈ p.opened, ¬ Recognised c

/-- No bulletin of the list is. -/
def Roomy (l : List Bulletin) : Prop := ∀ before b, before ++ [b] <+: l → ¬ Tight max (pack max before) b

def size (g : List Bulletin) : Nat := (g.flatMap Bulletin.stream).length

theorem size_concat (g : List Bulletin) (b : Bulletin) : size (g ++ [b]) = size g + b.stream.length := by
  rw [size, List.flatMap_append, List.length_append, List.flatMap_singleton]
  rfl

section One
variable {b : Bulletin} (fits : b.Fits) (readable : b.Readable)
include fits

theorem stream_length : b.stream.length = b.body.length + 10 := by
  obtain ⟨identifier, two, head⟩ := Bulletin.head_eq fits
  rw [Bulletin.stream, List.length_append, head, List.length_append, encode_length, pad_length, two]
  omega

theorem stream_counted : (Recognised b → b.counted = b.stream.length + 10) ∧ (¬ Recognised b → b.counted = b.stream.length) := by
  rw [stream_length fits]
  cases b with
  | plain r bare => exact ⟨nofun, fun _ => rfl⟩
  | inner number r closed => exact ⟨nofun, fun _ => rfl⟩
  | outer number r nulls size =>
    cases nulls with
    | true => exact ⟨nofun, fun _ => rfl⟩
    | false => exact ⟨fun _ => rfl, fun other => absurd trivial other⟩

include readable

theorem once : ¬ b.Mistaken := by
  cases b with
  | plain r bare => exact not_false
  | inner number r closed => exact not_false
  | outer number r nulls size =>
    cases readable.2
    exact not_false

theorem stream_record : b.stream.length = b.record.length + 10 := by
  rw [stream_length fits, Bulletin.body_once (once fits readable)]

theorem stream_plain (plain : Plain b) : b.stream.length = b.bytes.length + 23 := by
  rw [stream_record fits readable, Bulletin.record, enclosed_length]
  cases b with
  | plain r bare =>
    have five := (Bulletin.zeros_five _).mpr readable
    change (encode (zeros 5 (r.bytes.length + 13))).length + r.bytes.length + 8 + 10 = r.bytes.length + 23
    omega
  | inner number r closed => cases plain
  | outer number r nulls size => cases plain

theorem stream_other (other : ¬ Plain b) : b.stream.length ≤ b.bytes.length + 12 := by
  rw [stream_record fits readable]
  cases b with
  | plain r bare => exact absurd trivial other
  | inner number r closed =>
    cases closed with
    | true => exact Nat.add_le_add_left (by decide) _
    | false =>
      change (enclosed number.bytes r.bytes).length + 10 ≤ (crcrlf ++ number.bytes ++ crcrlf ++ r.bytes).length + 12
      rw [enclosed_length]
      simp only [List.length_append, crcrlf_length]
      omega
  | outer number r nulls size =>
    change (enclosed number.bytes r.bytes).length + 10 ≤ (encode (pad 8 _) ++ Bulletin.identifier nulls ++ enclosed number.bytes r.bytes).length + 12
    rw [List.length_append, List.length_append, encode_length, pad_length]
    omega

end One

variable {max} {p : Packing} {b : Bulletin}

/-- What was counted in the open file is what was written, and ten bytes more for each outer
header that was there already. -/
structure Measured (p : Packing) : Prop where
  least : size p.opened ≤ p.counted
  exact : (∀ c ∈ p.opened, ¬ Recognised c) → size p.opened = p.counted
  beyond : (∃ c ∈ p.opened, Recognised c) → size p.opened + 10 ≤ p.counted

theorem measured_single (fits : b.Fits) (full : List (List Bulletin)) : Measured ⟨full, [b], b.counted⟩ := by
  have single : size [b] = b.stream.length := by rw [size, List.flatMap_singleton]
  obtain ⟨recognised, other⟩ := stream_counted fits
  constructor
  · change size [b] ≤ b.counted
    by_cases there : Recognised b
    · rw [single, recognised there]
      omega
    · rw [single, other there]
  · intro none_
    change size [b] = b.counted
    rw [single, other (none_ b List.mem_cons_self)]
  · intro ⟨c, member, there⟩
    cases List.mem_singleton.mp member
    change size [b] + 10 ≤ b.counted
    rw [single, recognised there]

theorem measured_concat (measured : Measured p) (fits : b.Fits) : Measured ⟨p.full, p.opened ++ [b], p.counted + b.counted⟩ := by
  obtain ⟨recognised, other⟩ := stream_counted fits
  have least := measured.least
  constructor
  · change size (p.opened ++ [b]) ≤ p.counted + b.counted
    rw [size_concat]
    by_cases there : Recognised b
    · have := recognised there
      omega
    · have := other there
      omega
  · intro none_
    change size (p.opened ++ [b]) = p.counted + b.counted
    rw [size_concat, measured.exact fun c member => none_ c (List.mem_append_left _ member),
      other (none_ b (List.mem_append_right _ List.mem_cons_self))]
  · intro ⟨c, member, there⟩
    change size (p.opened ++ [b]) + 10 ≤ p.counted + b.counted
    rw [size_concat]
    rcases List.mem_append.mp member with before | last
    · have far := measured.beyond ⟨c, before, there⟩
      by_cases again : Recognised b
      · have := recognised again
        omega
      · have := other again
        omega
    · cases List.mem_singleton.mp last
      have := recognised there
      omega

theorem measured_add (measured : Measured p) (fits : b.Fits) : Measured (p.add max b) := by
  unfold Packing.add
  split
  · exact measured_single fits _
  · exact measured_concat measured fits

theorem measured_pack (l : List Bulletin) (fits : ∀ b ∈ l, b.Fits) : Measured (pack max l) := by
  induction l using List.reverseRecOn with
  | nil => exact ⟨Nat.le_refl _, fun _ => rfl, fun ⟨_, member, _⟩ => absurd member List.not_mem_nil⟩
  | append_singleton before b ih =>
    rw [pack, List.foldl_concat]
    exact measured_add (ih fun c member => fits c (List.mem_append_left _ member))
      (fits b (List.mem_append_right _ List.mem_cons_self))

def Small (max : Nat) (p : Packing) : Prop := ∀ g ∈ p.groups, size g ≤ max

/-- One bulletin more keeps the files small enough, unless it is tight. -/
theorem small_add (measured : Measured p) (fits : b.Fits) (readable : b.Readable) (envelope : b.record.length + 10 ≤ max) :
    Small max (p.add max b) ↔ Small max p ∧ ¬ Tight max p b := by
  have written := stream_record fits readable
  have least := measured.least
  unfold Packing.add
  split
  · next full =>
    have loose : ¬ Tight max p b := fun tight => by
      have := tight.2.1
      omega
    have single : size [b] ≤ max := by
      rw [size, List.flatMap_singleton, written]
      exact envelope
    constructor
    · intro small
      refine ⟨fun g member => small g ?_, loose⟩
      exact List.mem_append_left _ member
    · intro ⟨small, _⟩ g member
      rcases List.mem_append.mp member with older | last
      · exact small g older
      · rw [List.mem_singleton.mp last]
        exact single
  · next room =>
    have last : (∀ g ∈ p.full, size g ≤ max) ∧ size (p.opened ++ [b]) ≤ max ↔
        Small max ⟨p.full, p.opened ++ [b], p.counted + b.counted⟩ := by
      rw [Small, Packing.groups, List.forall_mem_append, List.forall_mem_singleton]
    have before : Small max p ↔ (∀ g ∈ p.full, size g ≤ max) ∧ size p.opened ≤ max := by
      rw [Small, Packing.groups, List.forall_mem_append, List.forall_mem_singleton]
    have tight : size (p.opened ++ [b]) ≤ max ↔ ¬ Tight max p b := by
      rw [size_concat]
      constructor
      · intro fine ⟨plain, limit, none_⟩
        have same := measured.exact none_
        have long := stream_plain fits readable plain
        omega
      · intro loose
        by_cases plain : Plain b
        · have long := stream_plain fits readable plain
          by_cases limit : p.counted + b.bytes.length + 22 = max
          · have some_ : ∃ c ∈ p.opened, Recognised c := by
              by_contra none_
              push Not at none_
              exact loose ⟨plain, limit, none_⟩
            have far := measured.beyond some_
            omega
          · omega
        · have short := stream_other fits readable plain
          omega
    rw [← last, before, ← tight]
    constructor
    · intro ⟨older, fine⟩
      refine ⟨⟨older, ?_⟩, fine⟩
      rw [size_concat] at fine
      omega
    · intro ⟨⟨older, _⟩, fine⟩
      exact ⟨older, fine⟩

/-- No file is too long, if and only if no bulletin is tight. -/
theorem small_pack (l : List Bulletin) (fits : ∀ b ∈ l, b.Fits) (readable : ∀ b ∈ l, b.Readable)
    (envelopes : ∀ b ∈ l, b.record.length + 10 ≤ max) : Small max (pack max l) ↔ Roomy max l := by
  induction l using List.reverseRecOn with
  | nil =>
    apply iff_of_true
    · intro g member
      rw [List.mem_singleton.mp member]
      exact Nat.zero_le _
    · intro before b none_
      exact absurd (List.prefix_nil.mp none_) (List.append_ne_nil_of_right_ne_nil _ (List.cons_ne_nil _ _))
  | append_singleton before b ih =>
    rw [List.forall_mem_append, List.forall_mem_singleton] at fits readable envelopes
    have one : Small max ((pack max before).add max b) ↔ Small max (pack max before) ∧ ¬ Tight max (pack max before) b :=
      small_add (measured_pack before fits.1) fits.2 readable.2 envelopes.2
    rw [pack, List.foldl_concat]
    change Small max ((pack max before).add max b) ↔ _
    rw [one, ih fits.1 readable.1 envelopes.1]
    constructor
    · intro ⟨earlier, loose⟩ start c first
      rcases List.prefix_concat_iff.mp first with all | older
      · obtain ⟨rfl, same⟩ := List.append_inj' all rfl
        cases same
        exact loose
      · exact earlier start c older
    · intro roomy
      exact ⟨fun start c first => roomy start c (first.trans (List.prefix_append _ _)), roomy before b (List.prefix_refl _)⟩

end Sizes

/-! ## The round trip -/

section RoundTrip
variable (o : Options) (md5 : Bytes → Str) (opens : Str → Bool) (today : Nat) (s : Sequence) (files : Files)

/-- No file is too long, and the reader announces the bulletins one by one, each as it should be. -/
def RoundTrips (l : List Bulletin) : Prop :=
  ∃ w, accumulate o today s files (l.map Bulletin.bytes) = .ok w ∧
    (∀ file ∈ contents w, file.length ≤ o.wmo00_accumulatedByteCountMax) ∧
    ∃ enough, ∀ fuel ≥ enough, split o md5 opens fuel (contents w) = some (l.map (Bulletin.expected o md5), false)

/-- No more than a million files are filled, no length is wider than its field, every number has
five digits, no outer header has nulls, the system opens every path, and no plain bulletin comes to
the limit of its file with 22 bytes. -/
def Sound (l : List Bulletin) : Prop :=
  (pack o.wmo00_accumulatedByteCountMax l).full.length < 1000000 ∧
    (∀ b ∈ l, b.Fits ∧ b.Readable ∧ opens (b.expected o md5).1 = true) ∧ Roomy o.wmo00_accumulatedByteCountMax l

variable {l : List Bulletin} (sizes : ∀ b ∈ l, b.bytes.length ≤ o.wmo00_byteCountMax)
  (few : (pack o.wmo00_accumulatedByteCountMax l).full.length < 1000000) (fits : ∀ b ∈ l, b.Fits)
include sizes few fits

/-- What becomes of bulletins whose lengths fit. -/
theorem roundTrips_parts : RoundTrips o md5 opens today s files l ↔
    Small o.wmo00_accumulatedByteCountMax (pack o.wmo00_accumulatedByteCountMax l) ∧
      ∀ b ∈ l, b.Readable ∧ opens (b.expected o md5).1 = true := by
  have each : readAll o md5 opens l = some (l.map (Bulletin.expected o md5), false) ↔
      ∀ b ∈ l, b.Readable ∧ opens (b.expected o md5).1 = true :=
    (readAll_iff o md5 opens (Bulletin.expected o md5) l).trans
      (forall₂_congr fun b member => Bulletin.readOne_iff o md5 opens (fits b member))
  by_cases some_ : l = []
  · rw [some_]
    apply iff_of_true
    · exact ⟨_, rfl, nofun, 0, fun _ _ => rfl⟩
    · refine ⟨fun g member => ?_, fun _ member => absurd member List.not_mem_nil⟩
      rw [List.mem_singleton.mp member]
      exact Nat.zero_le _
  · obtain ⟨w, run, read⟩ := accumulate_files some_ today files sizes few
    have flat := groups_pack o.wmo00_accumulatedByteCountMax l
    have inside : ∀ g ∈ (pack o.wmo00_accumulatedByteCountMax l).groups, ∀ b ∈ g, b.Fits := fun g group b member =>
      fits b (flat ▸ List.mem_flatten_of_mem group member)
    have small : (∀ file ∈ contents w, file.length ≤ o.wmo00_accumulatedByteCountMax) ↔
        Small o.wmo00_accumulatedByteCountMax (pack o.wmo00_accumulatedByteCountMax l) := by
      rw [read, List.forall_mem_map]
      exact Iff.rfl
    rw [← small, ← each]
    constructor
    · intro ⟨w', run', short, enough, splits⟩
      cases run'.symm.trans run
      refine ⟨short, ?_⟩
      have all := splits (max enough (l.length + 1)) (Nat.le_max_left _ _)
      rw [read, split_files o md5 opens _ inside (by rw [flat]; omega), flat] at all
      exact all
    · intro ⟨short, all⟩
      refine ⟨w, run, short, l.length + 1, fun fuel enough => ?_⟩
      rw [read, split_files o md5 opens _ inside (by rw [flat]; omega), flat]
      exact all

theorem roundTrips_iff (envelopes : ∀ b ∈ l, b.record.length + 10 ≤ o.wmo00_accumulatedByteCountMax) :
    RoundTrips o md5 opens today s files l ↔ Sound o md5 opens l := by
  rw [roundTrips_parts o md5 opens today s files sizes few fits]
  constructor
  · intro ⟨small, all⟩
    exact ⟨few, fun b member => ⟨fits b member, all b member⟩,
      (small_pack l fits (fun b member => (all b member).1) envelopes).mp small⟩
  · intro ⟨_, all, roomy⟩
    have readable : ∀ b ∈ l, b.Readable := fun b member => (all b member).2.1
    exact ⟨(small_pack l fits readable envelopes).mpr roomy, fun b member => (all b member).2⟩

end RoundTrip

section Claim
variable (o : Options) (md5 : Bytes → Str) (opens : Str → Bool) (today : Nat) (s : Sequence) (files : Files)

/-- What is sound comes back; and nothing else does, while lengths fit and names are not used twice. -/
theorem accumulated_split_back {l : List Bulletin} (sizes : ∀ b ∈ l, b.bytes.length ≤ o.wmo00_byteCountMax)
    (envelopes : ∀ b ∈ l, b.record.length + 10 ≤ o.wmo00_accumulatedByteCountMax) :
    (Sound o md5 opens l → RoundTrips o md5 opens today s files l) ∧
      ((pack o.wmo00_accumulatedByteCountMax l).full.length < 1000000 → (∀ b ∈ l, b.Fits) →
        RoundTrips o md5 opens today s files l → Sound o md5 opens l) := by
  constructor
  · intro sound
    have fits : ∀ b ∈ l, b.Fits := fun b member => (sound.2.1 b member).1
    exact (roundTrips_iff o md5 opens today s files sizes sound.1 fits envelopes).mpr sound
  · intro few fits
    exact (roundTrips_iff o md5 opens today s files sizes few fits envelopes).mp

end Claim

/-! ### Two bulletins -/

def airReport : Report :=
  ⟨encode "SACN88 CWAO 271630".toList, encode "\r\nMETAR".toList, by decide, by decide, by decide⟩

def zero : Digit := ⟨48, rfl⟩

def ofThree : Bulletin := .inner (.three zero zero zero) airReport true
def ofFive : Bulletin := .inner (.five zero zero zero zero zero) airReport true

def defaults : Options := ⟨"/tmp".toList, "XXXX".toList, "a".toList, true, true, 500000, 50000000⟩

def firstDay : Sequence := ⟨1, 1, 1, 1, by decide⟩

theorem five_digits_back : RoundTrips defaults (fun _ => []) (fun _ => true) 1 firstDay (fun _ => none) [ofFive] := by
  have sizes : ∀ b ∈ [ofFive], b.bytes.length ≤ defaults.wmo00_byteCountMax := by decide
  have envelopes : ∀ b ∈ [ofFive], b.record.length + 10 ≤ defaults.wmo00_accumulatedByteCountMax := by decide
  refine (accumulated_split_back defaults (fun _ => []) (fun _ => true) 1 firstDay (fun _ => none) sizes envelopes).1 ⟨by decide, ?_, ?_⟩
  · intro b member
    cases List.mem_singleton.mp member
    exact ⟨by unfold Bulletin.Fits; decide, rfl, rfl⟩
  · intro before b first tight
    cases List.mem_singleton.mp (first.subset (List.mem_append_right before List.mem_cons_self))
    exact tight.1

/-- The two first characters of a heading behind three digits are lost. -/
theorem three_digits_cut : ¬ ∀ (o : Options) (md5 : Bytes → Str) (today : Nat) (s : Sequence) (files : Files) (l : List Bulletin),
    (∀ b ∈ l, b.bytes.length ≤ o.wmo00_byteCountMax) →
    (∀ b ∈ l, b.record.length + 10 ≤ o.wmo00_accumulatedByteCountMax) →
      RoundTrips o md5 (fun _ => true) today s files l := by
  intro all
  have sizes : ∀ b ∈ [ofThree], b.bytes.length ≤ defaults.wmo00_byteCountMax := by decide
  have envelopes : ∀ b ∈ [ofThree], b.record.length + 10 ≤ defaults.wmo00_accumulatedByteCountMax := by decide
  have fits : ∀ b ∈ [ofThree], b.Fits := fun b member => by
    cases List.mem_singleton.mp member
    unfold Bulletin.Fits
    decide
  have back := all defaults (fun _ => []) 1 firstDay (fun _ => none) [ofThree] sizes envelopes
  have readable := ((roundTrips_parts _ _ _ _ _ _ sizes (by decide) fits).mp back).2 ofThree List.mem_cons_self
  exact absurd (show 3 = 5 from readable.1) (by decide)

end Sarracenia.Guarantees.Wmo00
