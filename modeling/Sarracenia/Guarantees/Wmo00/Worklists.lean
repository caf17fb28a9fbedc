import Sarracenia.Guarantees.Wmo00.RoundTrip
import Sarracenia.Source.Wmo00

/-!
# What becomes of a batch

Neither plugin puts a message where it is acknowledged or retried. An exception, which a header that is not ASCII raises,
ends the whole batch.
-/
namespace Sarracenia.Guarantees.Wmo00
open Library Library.Decimal
open Library.Text hiding slice split
open Source.Transfer (Bytes)
open Source.Wmo00

section Filing
variable {μ : Type} {batch : List μ} {before after : Worklist μ}

/-- Each on exactly one of the worklists from which a message is acknowledged or retried. -/
def Filed (batch : List μ) (w : Worklist μ) : Prop := ∀ m ∈ batch, Xor (m ∈ w.rejected) (m ∈ w.failed)

/-- The messages of the batch are on no other worklist. -/
def Apart (w : Worklist μ) : Prop := ∀ m ∈ w.incoming, m ∉ w.rejected ∧ m ∉ w.failed

/-- The same messages are rejected, and the same have failed. -/
structure Framed (before after : Worklist μ) : Prop where
  rejected : after.rejected = before.rejected
  failed : after.failed = before.failed

theorem Framed.trans {w : Worklist μ} (first : Framed before after) (second : Framed after w) : Framed before w :=
  ⟨second.rejected.trans first.rejected, second.failed.trans first.failed⟩

theorem empty_of_filed (apart : Apart before) (framed : Framed before after) (filed : Filed before.incoming after) :
    before.incoming = [] := by
  apply List.eq_nil_iff_forall_not_mem.mpr
  intro m member
  obtain ⟨rejected, failed⟩ := apart m member
  rcases filed m member with ⟨there, -⟩ | ⟨there, -⟩
  · exact rejected (framed.rejected ▸ there)
  · exact failed (framed.failed ▸ there)

end Filing

section Headers
variable {b : Bytes}

/-- Where a number may stand, the characters are ASCII. -/
def Decodable (b : Bytes) : Prop :=
  if slice b 8 11 ≠ [48, 48, 1] then
    if b.head? ≠ some SOH then slice b 0 3 = crcrlf → ascii (slice b 3 8) = true
    else slice b 1 4 = crcrlf → ascii (slice b 4 9) = true
  else slice b 11 14 = crcrlf → ascii (slice b 14 19) = true

theorem isnumeric_isSome : (isnumeric b).isSome = true ↔ ascii b = true := by
  unfold isnumeric
  by_cases plain : ascii b = true
  · rw [if_pos plain]
    exact iff_of_true rfl plain
  · rw [if_neg plain]
    exact iff_of_false Bool.false_ne_true plain

theorem numberAt_isSome (b : Bytes) (start width : Int) :
    (numberAt b start width).isSome = true ↔ (slice b start (start + 3) = crcrlf → ascii (slice b (start + 3) (start + 3 + width)) = true) := by
  unfold numberAt
  by_cases starts : slice b start (start + 3) = crcrlf
  · rw [if_pos starts, Option.isSome_map, isnumeric_isSome]
    exact ⟨fun plain _ => plain, fun plain => plain starts⟩
  · rw [if_neg starts]
    exact iff_of_true rfl fun there => absurd there starts

/-- Three digits are some of the five. -/
theorem ascii_shorter (plain : ascii (slice b 3 8) = true) : ascii (slice b 3 6) = true := by
  have parts : slice b 3 6 = (slice b 3 8).take 3 := by
    rw [show (slice b 3 6) = (b.drop 3).take 3 from slice_nat b 3 6, show (slice b 3 8) = (b.drop 3).take 5 from slice_nat b 3 8,
      List.take_take]
    rfl
  rw [parts]
  exact List.all_eq_true.mpr fun c member => List.all_eq_true.mp plain c (List.mem_of_mem_take member)

theorem innerEnvelope_isSome : (innerEnvelope b).isSome = true ↔
    if b.head? ≠ some SOH then slice b 0 3 = crcrlf → ascii (slice b 3 8) = true
    else slice b 1 4 = crcrlf → ascii (slice b 4 9) = true := by
  unfold innerEnvelope
  by_cases marked : b.head? ≠ some SOH
  · rw [if_pos marked, if_pos marked]
    have three := numberAt_isSome b 0 3
    have five := numberAt_isSome b 0 5
    constructor
    · intro enveloped starts
      cases second : numberAt b 0 5 with
      | some n5hdr => exact five.mp (by rw [second]; rfl) starts
      | none =>
        rw [second] at enveloped
        cases first : numberAt b 0 3 <;> rw [first] at enveloped <;> cases enveloped
    · intro plain
      obtain ⟨n5hdr, second⟩ := Option.isSome_iff_exists.mp (five.mpr plain)
      obtain ⟨n3hdr, first⟩ := Option.isSome_iff_exists.mp (three.mpr fun starts => ascii_shorter (plain starts))
      rw [first, second, Option.bind_eq_bind, Option.bind_some, Option.bind_some]
      split <;> rfl
  · rw [if_neg marked, if_neg marked, Option.isSome_map]
    exact numberAt_isSome b 1 5

/-- An exception is raised for no other header. -/
theorem output_record_isSome (b : Bytes) : (output_record b).isSome = true ↔ Decodable b := by
  unfold output_record Decodable
  by_cases outer : slice b 8 11 ≠ [48, 48, 1]
  · rw [if_pos outer, if_pos outer, Option.isSome_map]
    exact innerEnvelope_isSome
  · rw [if_neg outer, if_neg outer, Option.isSome_map]
    exact numberAt_isSome b 11 5

theorem innerEnvelope_part {enveloped : Bytes} (is : innerEnvelope b = some enveloped) : b <:+: enveloped := by
  unfold innerEnvelope at is
  split at is
  · obtain ⟨n3hdr, -, is⟩ := Option.bind_eq_some_iff.mp is
    obtain ⟨n5hdr, -, is⟩ := Option.bind_eq_some_iff.mp is
    split at is
    · obtain rfl := Option.some.inj is
      exact ⟨[SOH], [ETX], rfl⟩
    · obtain rfl := Option.some.inj is
      exact ⟨_, [ETX], rfl⟩
  · obtain ⟨_, -, rfl⟩ := Option.map_eq_some_iff.mp is
    exact List.infix_refl b

/-- What comes in is part of what is written. -/
theorem record_part {record : Bytes × Nat} (is : output_record b = some record) : b <:+: record.1 := by
  unfold output_record at is
  split at is
  · obtain ⟨enveloped, inner, rfl⟩ := Option.map_eq_some_iff.mp is
    exact (innerEnvelope_part inner).trans (List.suffix_append (outerHeader enveloped) enveloped).isInfix
  · obtain ⟨_, -, rfl⟩ := Option.map_eq_some_iff.mp is
    exact List.infix_refl b

end Headers

section Accumulating
variable {μ : Type} {o : Options} {getContent : μ → Bytes} {fromFileData : Str → Bytes → μ} {c c' : Call μ} {m : μ} {done l : List μ}

/-- Neither too short nor too long. -/
def Sized (o : Options) (b : Bytes) : Prop := ¬ b.length < 12 ∧ ¬ b.length > o.wmo00_byteCountMax

/-- In the file of a new message, or in the one that is open. -/
def Carried (o : Options) (getContent : μ → Bytes) (fromFileData : Str → Bytes → μ) (done : List μ) (c : Call μ) : Prop :=
  ∀ m ∈ done, Sized o (getContent m) →
    (∃ path content, fromFileData path content ∈ c.worklist.incoming ∧ getContent m <:+: content) ∨ getContent m <:+: c.writer.written

theorem written_write (w : Writer) (record : Bytes × Nat) : (write w record).written = w.written ++ record.1 := by
  unfold Writer.written write
  dsimp only
  rw [Function.update_self]
  rfl

theorem makeRoom_framed (c : Call μ) (size : Nat) : Framed c.worklist (c.makeRoom o fromFileData size).worklist := by
  unfold Call.makeRoom
  split <;> exact ⟨rfl, rfl⟩

theorem announced_carried (carried : Carried o getContent fromFileData done c) :
    ∀ m ∈ done, Sized o (getContent m) →
      ∃ path content, fromFileData path content ∈ (c.announce fromFileData).worklist.incoming ∧ getContent m <:+: content := by
  intro m member sized
  rcases carried m member sized with ⟨path, content, there, part⟩ | part
  · exact ⟨path, content, List.mem_append_left _ there, part⟩
  · exact ⟨c.writer.accumulated_file, c.writer.written, List.mem_append_right _ List.mem_cons_self, part⟩

theorem makeRoom_carried (carried : Carried o getContent fromFileData done c) (size : Nat) :
    Carried o getContent fromFileData done (c.makeRoom o fromFileData size) := by
  unfold Call.makeRoom
  split
  · exact fun m member sized => .inl (announced_carried carried m member sized)
  · exact carried

theorem accumulateMessage_unsized (unsized : ¬ Sized o (getContent m)) : accumulateMessage o getContent fromFileData c m = .ok c := by
  unfold accumulateMessage
  dsimp only
  split
  · rfl
  · next long =>
    rw [if_pos]
    by_contra short
    exact unsized ⟨long, short⟩

theorem accumulateMessage_sized (sized : Sized o (getContent m)) : accumulateMessage o getContent fromFileData c m =
    (output_record (getContent m)).elim (.error (c.makeRoom o fromFileData (getContent m).length)) fun record =>
      .ok { c.makeRoom o fromFileData (getContent m).length with
        writer := write (c.makeRoom o fromFileData (getContent m).length).writer record } := by
  unfold accumulateMessage
  dsimp only
  rw [if_neg sized.1, if_neg sized.2]
  cases output_record (getContent m) <;> rfl

/-- One message: what was carried is, with this one, and nothing is rejected or fails. -/
theorem accumulate_step (done : List μ) (is : accumulateMessage o getContent fromFileData c m = .ok c') : Framed c.worklist c'.worklist ∧
    (Carried o getContent fromFileData done c → Carried o getContent fromFileData (done ++ [m]) c') ∧
    (Sized o (getContent m) → Decodable (getContent m)) := by
  by_cases sized : Sized o (getContent m)
  · rw [accumulateMessage_sized sized] at is
    cases record_ : output_record (getContent m) with
    | none =>
      rw [record_] at is
      cases is
    | some record =>
      rw [record_, Option.elim_some] at is
      obtain rfl := Except.ok.inj is
      refine ⟨makeRoom_framed c _, fun carried m' member sized' => ?_, fun _ => (output_record_isSome _).mp (by rw [record_]; rfl)⟩
      rw [written_write]
      rcases List.mem_append.mp member with before | last
      · refine (makeRoom_carried carried _ m' before sized').imp_right fun part => part.trans ?_
        exact (List.prefix_append _ _).isInfix
      · obtain rfl := List.mem_singleton.mp last
        exact .inr ((record_part record_).trans (List.suffix_append _ _).isInfix)
  · rw [accumulateMessage_unsized sized] at is
    obtain rfl := Except.ok.inj is
    refine ⟨⟨rfl, rfl⟩, fun carried m' member sized' => ?_, fun given => absurd given sized⟩
    rcases List.mem_append.mp member with before | last
    · exact carried m' before sized'
    · exact absurd (List.mem_singleton.mp last ▸ sized') sized

theorem accumulate_goes (fromFileData : Str → Bytes → μ) (decodable : Sized o (getContent m) → Decodable (getContent m)) (c : Call μ) :
    ∃ c', accumulateMessage o getContent fromFileData c m = .ok c' := by
  by_cases sized : Sized o (getContent m)
  · obtain ⟨record, is⟩ := Option.isSome_iff_exists.mp ((output_record_isSome _).mpr (decodable sized))
    rw [accumulateMessage_sized sized, is]
    exact ⟨_, rfl⟩
  · exact ⟨c, accumulateMessage_unsized sized⟩

/-- A batch: where no exception is raised, everything of a right size is carried. -/
theorem accumulate_run (done : List μ) (is : l.foldlM (accumulateMessage o getContent fromFileData) c = .ok c') : Framed c.worklist c'.worklist ∧
    (Carried o getContent fromFileData done c → Carried o getContent fromFileData (done ++ l) c') ∧
    ∀ m ∈ l, Sized o (getContent m) → Decodable (getContent m) := by
  induction l generalizing c done with
  | nil =>
    obtain rfl := Except.ok.inj is
    exact ⟨⟨rfl, rfl⟩, fun carried => by rwa [List.append_nil], nofun⟩
  | cons m l ih =>
    rw [List.foldlM_cons] at is
    obtain ⟨c₁, first, rest⟩ := Dynamic.bind_ok_iff.mp is
    obtain ⟨framed, carried, decodable⟩ := accumulate_step done first
    obtain ⟨framed', carried', decodable'⟩ := ih (done ++ [m]) rest
    rw [List.append_assoc] at carried'
    exact ⟨framed.trans framed', fun given => carried' (carried given), List.forall_mem_cons.mpr ⟨decodable, decodable'⟩⟩

theorem accumulate_runs (fromFileData : Str → Bytes → μ) (decodable : ∀ m ∈ l, Sized o (getContent m) → Decodable (getContent m)) (c : Call μ) :
    ∃ c', l.foldlM (accumulateMessage o getContent fromFileData) c = .ok c' := by
  induction l generalizing c with
  | nil => exact ⟨c, rfl⟩
  | cons m l ih =>
    obtain ⟨c₁, first⟩ := accumulate_goes fromFileData (decodable m List.mem_cons_self) c
    obtain ⟨c₂, rest⟩ := ih (fun m' member => decodable m' (List.mem_cons_of_mem m member)) c₁
    refine ⟨c₂, ?_⟩
    rw [List.foldlM_cons, first]
    exact rest

theorem finish_framed (c : Call μ) : Framed c.worklist (c.finish fromFileData).worklist := by
  unfold Call.finish
  split <;> exact ⟨rfl, rfl⟩

/-- At the end, everything is in the file of a new message. -/
theorem finish_carried (carried : Carried o getContent fromFileData done c) (member : m ∈ done) (sized : Sized o (getContent m)) :
    ∃ path content, fromFileData path content ∈ (c.finish fromFileData).worklist.incoming ∧ getContent m <:+: content := by
  unfold Call.finish
  split
  · exact announced_carried carried m member sized
  · next empty =>
    rcases carried m member sized with there | part
    · exact there
    · have long := sized.1
      have short := part.length_le
      omega

end Accumulating

section Splitting
/-- No exception is raised for a heading: it is ASCII, and too short or the name of a file that is opened. -/
def Legible (o : Options) (md5 : Bytes → Str) (opens : Str → Bool) (encapsulated_payload payload : Bytes) : Prop :=
  ascii (ahlOf payload) = true ∧ (18 ≤ (ahlOf payload).length →
    opens (fname o (decode (ahlOf payload)) (md5 (fileContent o encapsulated_payload payload))) = true)

/-- A grouping file is read to an end from here on: the lengths lead to the end, or to one that is no length there, and no
heading on the way raises an exception. -/
inductive Ends (o : Options) (md5 : Bytes → Str) (opens : Str → Bool) (b : Bytes) : Int → Prop where
  | finished {current : Int} : ¬ current + 13 < b.length → Ends o md5 opens b current
  | corrupt {current : Int} : int (slice b current (current + 8)) = none → Ends o md5 opens b current
  | beyond {current payload_len : Int} : int (slice b current (current + 8)) = some payload_len →
      current + payload_len > b.length → Ends o md5 opens b current
  | record {current payload_len : Int} : int (slice b current (current + 8)) = some payload_len →
      ¬ current + payload_len > b.length → inRange b (current + 10 + 9) = true →
      Legible o md5 opens (slice b (current + 10) (current + 10 + payload_len))
        (slice b (current + 10 + 12) (current + 10 + payload_len - 1)) →
      Ends o md5 opens b (current + 10 + payload_len) → Ends o md5 opens b current

variable {o : Options} {md5 : Bytes → Str} {opens : Str → Bool} {b : Bytes} {current payload_len : Int} {fuel more : Nat}
  {contents : List Bytes} {first r : Announced} {rest : Option Announced}

theorem bulletin_isSome (e p : Bytes) : (bulletin o md5 opens e p).isSome = true ↔ Legible o md5 opens e p := by
  unfold bulletin Legible
  dsimp only
  by_cases plain : ascii (ahlOf p) = true
  · rw [if_pos plain]
    by_cases short : (ahlOf p).length < 18
    · rw [if_pos short]
      exact iff_of_true rfl ⟨plain, fun long => absurd short (Nat.not_lt.mpr long)⟩
    · rw [if_neg short]
      by_cases open_ : opens (fname o (decode (ahlOf p)) (md5 (fileContent o e p))) = true
      · rw [if_pos open_]
        exact iff_of_true rfl ⟨plain, fun _ => open_⟩
      · rw [if_neg open_]
        exact iff_of_false Bool.false_ne_true fun legible => open_ (legible.2 (Nat.not_lt.mp short))
  · rw [if_neg plain]
    exact iff_of_false Bool.false_ne_true fun legible => plain legible.1

theorem followed_fine : followed first rest = some r ∧ r.2 = false ↔
    first.2 = false ∧ ∃ r', rest = some r' ∧ r'.2 = false ∧ r = (first.1 ++ r'.1, false) := by
  unfold followed
  cases raised : first.2 with
  | true =>
    rw [if_pos rfl]
    refine iff_of_false ?_ nofun
    rintro ⟨same, fine⟩
    rw [← Option.some.inj same, raised] at fine
    cases fine
  | false =>
    rw [if_neg Bool.false_ne_true, Option.map_eq_some_iff]
    constructor
    · rintro ⟨⟨r', is, rfl⟩, fine⟩
      exact ⟨rfl, r', is, fine, Prod.ext rfl fine⟩
    · rintro ⟨-, r', is, fine, rfl⟩
      exact ⟨⟨r', is, Prod.ext rfl fine⟩, rfl⟩

theorem raisedOr_fine {read : Option (List (Str × Bytes))} : (raisedOr read).2 = false ↔ read.isSome = true := by
  cases read with
  | none => exact iff_of_false nofun nofun
  | some new => exact iff_of_true rfl rfl

/-- One record. -/
theorem records_record (o : Options) (md5 : Bytes → Str) (opens : Str → Bool) (fuel : Nat) (there : current + 13 < b.length) (is : int (slice b current (current + 8)) = some payload_len)
    (within : ¬ current + payload_len > b.length) (marked : inRange b (current + 10 + 9) = true) :
    records o md5 opens b (fuel + 1) current =
      followed (raisedOr (bulletin o md5 opens (slice b (current + 10) (current + 10 + payload_len))
        (slice b (current + 10 + 12) (current + 10 + payload_len - 1)))) (records o md5 opens b fuel (current + 10 + payload_len)) := by
  rw [records, if_pos there, is]
  dsimp only
  rw [if_neg within, payload_start, if_pos marked]

theorem records_ends : (∃ fuel r, records o md5 opens b fuel current = some r ∧ r.2 = false) ↔ Ends o md5 opens b current := by
  constructor
  · rintro ⟨fuel, r, is⟩
    induction fuel generalizing current r with
    | zero => cases is.1
    | succ fuel ih =>
      by_cases there : current + 13 < b.length
      · cases length : int (slice b current (current + 8)) with
        | none => exact .corrupt length
        | some payload_len =>
          by_cases past : current + payload_len > b.length
          · exact .beyond length past
          · by_cases marked : inRange b (current + 10 + 9) = true
            · rw [records_record o md5 opens fuel there length past marked, followed_fine] at is
              obtain ⟨fine, r', rest, ended, -⟩ := is
              exact .record length past marked ((bulletin_isSome _ _).mp (raisedOr_fine.mp fine)) (ih r' ⟨rest, ended⟩)
            · rw [records, if_pos there, length] at is
              dsimp only at is
              rw [if_neg past, payload_start, if_neg marked] at is
              obtain ⟨raised, fine⟩ := is
              rw [← Option.some.inj raised] at fine
              cases fine
      · exact .finished there
  · intro ends
    induction ends with
    | finished done =>
      refine ⟨1, ([], false), ?_, rfl⟩
      rw [records, if_neg done]
    | @corrupt current none_ =>
      refine ⟨1, ([], false), ?_, rfl⟩
      rw [records, none_]
      exact ite_self _
    | @beyond current payload_len length past =>
      refine ⟨1, ([], false), ?_, rfl⟩
      rw [records, length]
      dsimp only
      rw [if_pos past]
      exact ite_self _
    | @record current payload_len length past marked legible _ ih =>
      obtain ⟨fuel, r, is, fine⟩ := ih
      by_cases there : current + 13 < b.length
      · have turn := records_record o md5 opens fuel there length past marked
        obtain ⟨all, ended⟩ := followed_fine.mpr ⟨raisedOr_fine.mpr ((bulletin_isSome _ _).mpr legible), r, is, fine, rfl⟩
        exact ⟨fuel + 1, _, turn.trans all, ended⟩
      · refine ⟨1, ([], false), ?_, rfl⟩
        rw [records, if_neg there]

theorem followed_mono {rest' : Option Announced} (grows : ∀ r, rest = some r → rest' = some r) (is : followed first rest = some r) :
    followed first rest' = some r := by
  unfold followed at is ⊢
  by_cases raised : first.2 = true
  · rwa [if_pos raised] at is ⊢
  · rw [if_neg raised] at is ⊢
    obtain ⟨r', rest_, rfl⟩ := Option.map_eq_some_iff.mp is
    rw [grows r' rest_]
    rfl

/-- More turns change nothing. -/
theorem records_mono (le : fuel ≤ more) (is : records o md5 opens b fuel current = some r) : records o md5 opens b more current = some r := by
  induction fuel generalizing current r more with
  | zero => cases is
  | succ fuel ih =>
    obtain ⟨more, rfl⟩ := Nat.exists_eq_add_of_le' (Nat.lt_of_lt_of_le (Nat.succ_pos fuel) le)
    rw [records] at is ⊢
    split at is
    · next there =>
      rw [if_pos there]
      split at is
      · exact is
      · next length =>
        split at is
        · next past => rwa [if_pos past]
        · next within =>
          rw [if_neg within]
          split at is
          · exact is
          · exact followed_mono (fun r' => ih (Nat.le_of_succ_le_succ le)) is
    · next there => rwa [if_neg there]

theorem split_mono (le : fuel ≤ more) (is : split o md5 opens fuel contents = some r) : split o md5 opens more contents = some r := by
  induction contents generalizing r with
  | nil => exact is
  | cons b contents ih =>
    rw [split] at is ⊢
    split at is
    · next short =>
      rw [if_pos short]
      exact ih is
    · next long =>
      rw [if_neg long]
      obtain ⟨first, read, is⟩ := Option.bind_eq_some_iff.mp is
      rw [records_mono le read, Option.bind_some]
      exact followed_mono (fun r' => ih) is

/-- A batch of grouping files is read to its end if and only if each of them is, but for those that are too short. -/
theorem split_ends (o : Options) (md5 : Bytes → Str) (opens : Str → Bool) (contents : List Bytes) : (∃ fuel r, split o md5 opens fuel contents = some r ∧ r.2 = false) ↔
    ∀ b ∈ contents, ¬ b.length < 12 → Ends o md5 opens b 0 := by
  induction contents with
  | nil => exact iff_of_true ⟨0, _, rfl, rfl⟩ nofun
  | cons b contents ih =>
    rw [List.forall_mem_cons, ← ih]
    constructor
    · rintro ⟨fuel, r, is, fine⟩
      rw [split] at is
      split at is
      · next short => exact ⟨fun long => absurd short long, fuel, r, is, fine⟩
      · obtain ⟨first, read, is⟩ := Option.bind_eq_some_iff.mp is
        obtain ⟨ended, r', rest, fine', -⟩ := followed_fine.mp ⟨is, fine⟩
        exact ⟨fun _ => records_ends.mp ⟨fuel, first, read, ended⟩, fuel, r', rest, fine'⟩
    · rintro ⟨ends, fuel, r, is, fine⟩
      by_cases short : b.length < 12
      · refine ⟨fuel, r, ?_, fine⟩
        rw [split, if_pos short]
        exact is
      · obtain ⟨fuel', first, read, ended⟩ := records_ends.mpr (ends short)
        obtain ⟨all, fine'⟩ := followed_fine.mpr ⟨ended, r, split_mono (Nat.le_max_left fuel fuel') is, fine, rfl⟩
        refine ⟨max fuel fuel', _, ?_, fine'⟩
        rw [split, if_neg short, records_mono (Nat.le_max_right fuel fuel') read, Option.bind_some]
        exact all

end Splitting

section Batches
variable {μ : Type} (o : Options) (getContent : μ → Bytes) (fromFileData : Str → Bytes → μ) (md5 : Bytes → Str) (opens : Str → Bool)
  (today : Nat) (s : Sequence) (files : Files) (worklist : Worklist μ)

/-- A record that the lengths of a grouping file lead to. -/
inductive Recorded (b : Bytes) : Int → Bytes → Prop where
  | here {current : Int} {n : Nat} : int (slice b current (current + 8)) = some n → current + 10 + n ≤ b.length →
      Recorded b current (slice b (current + 10) (current + 10 + n))
  | later {current : Int} {n : Nat} {record : Bytes} : int (slice b current (current + 8)) = some n → current + 10 + n ≤ b.length →
      Recorded b (current + 10 + n) record → Recorded b current record

/-- `Wmo00_accumulate` loses nothing: no exception, every message is filed, and what is of a right size and can be read is
in the file of a new message. -/
def AccumulateKeeps : Prop :=
  ∃ c, accumulate_after_accept o getContent fromFileData today s files worklist = .ok c ∧ Filed worklist.incoming c.worklist ∧
    ∀ m ∈ worklist.incoming, Sized o (getContent m) → Decodable (getContent m) →
      ∃ path content, fromFileData path content ∈ c.worklist.incoming ∧ getContent m <:+: content

/-- `Wmo00_split` loses nothing: it ends without exception, every message is filed, and there is a new message for each
bulletin that is recorded. -/
def SplitKeeps : Prop :=
  ∃ fuel after, split_after_accept o getContent fromFileData md5 opens fuel worklist = some (after, false) ∧
    Filed worklist.incoming after ∧ ∀ m ∈ worklist.incoming, ∀ bulletin : Bulletin, Recorded (getContent m) 0 bulletin.record →
      fromFileData (bulletin.expected o md5).1 (bulletin.expected o md5).2 ∈ after.incoming

variable {o getContent fromFileData md5 opens today s files worklist}

theorem accumulate_empty (empty : worklist.incoming = []) :
    accumulate_after_accept o getContent fromFileData today s files worklist = .ok ⟨⟨s, [], 0, files, []⟩, worklist⟩ := by
  unfold accumulate_after_accept
  rw [empty]
  rfl

/-- What a call does that raises no exception. -/
theorem accumulate_ok {c : Call μ} (is : accumulate_after_accept o getContent fromFileData today s files worklist = .ok c) :
    Framed worklist c.worklist ∧ (∀ m ∈ worklist.incoming, Sized o (getContent m) → Decodable (getContent m)) ∧
      ∀ m ∈ worklist.incoming, Sized o (getContent m) →
        ∃ path content, fromFileData path content ∈ c.worklist.incoming ∧ getContent m <:+: content := by
  by_cases empty : worklist.incoming = []
  · rw [accumulate_empty empty] at is
    obtain rfl := Except.ok.inj is
    rw [empty]
    exact ⟨⟨rfl, rfl⟩, nofun, nofun⟩
  · unfold accumulate_after_accept at is
    rw [if_neg (by simpa using empty)] at is
    obtain ⟨c₁, run, rfl⟩ := Dynamic.map_ok_iff.mp is
    obtain ⟨framed, carried, decodable⟩ := accumulate_run [] run
    rw [List.nil_append] at carried
    have open_ : Framed worklist c₁.worklist := ⟨framed.rejected, framed.failed⟩
    exact ⟨open_.trans (finish_framed c₁), decodable, fun m member sized => finish_carried (carried nofun) member sized⟩

theorem accumulate_returns : (∃ c, accumulate_after_accept o getContent fromFileData today s files worklist = .ok c) ↔
    ∀ m ∈ worklist.incoming, Sized o (getContent m) → Decodable (getContent m) := by
  refine ⟨fun ⟨c, is⟩ => (accumulate_ok is).2.1, fun decodable => ?_⟩
  by_cases empty : worklist.incoming = []
  · exact ⟨_, accumulate_empty empty⟩
  · obtain ⟨c, run⟩ := accumulate_runs fromFileData decodable
      ⟨open_accumulated_file o ⟨s.ofDay today, [], 0, files, []⟩, { worklist with incoming := [] }⟩
    refine ⟨c.finish fromFileData, ?_⟩
    unfold accumulate_after_accept
    rw [if_neg (by simpa using empty), run]
    rfl

theorem accumulateKeeps_iff (apart : Apart worklist) :
    AccumulateKeeps o getContent fromFileData today s files worklist ↔ worklist.incoming = [] := by
  constructor
  · rintro ⟨c, is, filed, -⟩
    exact empty_of_filed apart (accumulate_ok is).1 filed
  · intro empty
    refine ⟨_, accumulate_empty empty, ?_, ?_⟩
    · rw [empty]
      exact nofun
    · rw [empty]
      exact nofun

theorem split_empty (empty : worklist.incoming = []) (fuel : Nat) :
    split_after_accept o getContent fromFileData md5 opens fuel worklist = some (worklist, false) := by
  unfold split_after_accept
  rw [empty]
  rfl

theorem split_some (batch : worklist.incoming ≠ []) (fuel : Nat) :
    split_after_accept o getContent fromFileData md5 opens fuel worklist =
      (split o md5 opens fuel (worklist.incoming.map getContent)).map fun announced =>
        ({ worklist with incoming := announced.1.map fun file => fromFileData file.1 file.2 }, announced.2) :=
  if_neg (by simpa using batch)

theorem split_framed {fuel : Nat} {after : Worklist μ} {raised : Bool}
    (is : split_after_accept o getContent fromFileData md5 opens fuel worklist = some (after, raised)) : Framed worklist after := by
  by_cases empty : worklist.incoming = []
  · rw [split_empty empty] at is
    rw [← (Prod.mk.inj (Option.some.inj is)).1]
    exact ⟨rfl, rfl⟩
  · rw [split_some empty] at is
    obtain ⟨announced, -, same⟩ := Option.map_eq_some_iff.mp is
    rw [← (Prod.mk.inj same).1]
    exact ⟨rfl, rfl⟩

theorem splitKeeps_iff (apart : Apart worklist) :
    SplitKeeps o getContent fromFileData md5 opens worklist ↔ worklist.incoming = [] := by
  constructor
  · rintro ⟨fuel, after, is, filed, -⟩
    exact empty_of_filed apart (split_framed is) filed
  · intro empty
    refine ⟨0, _, split_empty empty 0, ?_, ?_⟩
    · rw [empty]
      exact nofun
    · rw [empty]
      exact nofun

theorem split_returns : (∃ fuel after, split_after_accept o getContent fromFileData md5 opens fuel worklist = some (after, false)) ↔
    ∀ m ∈ worklist.incoming, ¬ (getContent m).length < 12 → Ends o md5 opens (getContent m) 0 := by
  have all := split_ends o md5 opens (worklist.incoming.map getContent)
  rw [List.forall_mem_map] at all
  rw [← all]
  by_cases empty : worklist.incoming = []
  · refine iff_of_true ⟨0, _, split_empty empty 0⟩ ⟨0, ([], false), ?_, rfl⟩
    rw [empty]
    rfl
  · constructor
    · rintro ⟨fuel, after, is⟩
      rw [split_some empty] at is
      obtain ⟨announced, read, same⟩ := Option.map_eq_some_iff.mp is
      exact ⟨fuel, announced, read, (Prod.mk.inj same).2⟩
    · rintro ⟨fuel, announced, read, fine⟩
      refine ⟨fuel, { worklist with incoming := announced.1.map fun file => fromFileData file.1 file.2 }, ?_⟩
      rw [split_some empty, read, Option.map_some, fine]

end Batches

/-- Messages are lost in every batch that has one. An accumulation raises an exception if and only if a header is not ASCII,
and otherwise all that is of a right size is in the new files; a split ends without one if and only if every file does. -/
theorem batch_kept_iff {μ : Type} (o : Options) (getContent : μ → Bytes) (fromFileData : Str → Bytes → μ) (md5 : Bytes → Str)
    (opens : Str → Bool) (today : Nat) (s : Sequence) (files : Files) (worklist : Worklist μ) (apart : Apart worklist) :
    (AccumulateKeeps o getContent fromFileData today s files worklist ↔ worklist.incoming = []) ∧
    (SplitKeeps o getContent fromFileData md5 opens worklist ↔ worklist.incoming = []) ∧
    ((∃ c, accumulate_after_accept o getContent fromFileData today s files worklist = .ok c) ↔
      ∀ m ∈ worklist.incoming, Sized o (getContent m) → Decodable (getContent m)) ∧
    (∀ c, accumulate_after_accept o getContent fromFileData today s files worklist = .ok c →
      ∀ m ∈ worklist.incoming, Sized o (getContent m) →
        ∃ path content, fromFileData path content ∈ c.worklist.incoming ∧ getContent m <:+: content) ∧
    ((∃ fuel after, split_after_accept o getContent fromFileData md5 opens fuel worklist = some (after, false)) ↔
      ∀ m ∈ worklist.incoming, ¬ (getContent m).length < 12 → Ends o md5 opens (getContent m) 0) :=
  ⟨accumulateKeeps_iff apart, splitKeeps_iff apart, accumulate_returns, fun _ is => (accumulate_ok is).2.2, split_returns⟩

def oneMessage : Worklist Nat where
  incoming := [0]
  ok := []
  rejected := []
  failed := []

theorem oneMessage_apart : Apart oneMessage := fun _ _ => ⟨List.not_mem_nil, List.not_mem_nil⟩

/-- A bulletin is accumulated, and the message that brought it is lost. -/
theorem bulletin_without_message :
    (∃ c, accumulate_after_accept defaults (fun _ => ofFive.bytes) (fun _ _ => 1) 1 firstDay (fun _ => none) oneMessage = .ok c) ∧
      ¬ AccumulateKeeps defaults (fun _ => ofFive.bytes) (fun _ _ => 1) 1 firstDay (fun _ => none) oneMessage := by
  obtain ⟨keeps, -, returns, -⟩ := batch_kept_iff defaults (fun _ => ofFive.bytes) (fun _ _ => 1) (fun _ => []) (fun _ => true) 1
    firstDay (fun _ => none) oneMessage oneMessage_apart
  have decodable : Decodable ofFive.bytes := (output_record_isSome _).mp (by rw [Bulletin.output_record_bytes]; rfl)
  exact ⟨returns.mpr fun _ _ _ => decodable, fun kept => nomatch keeps.mp kept⟩

/-- A message that is too short is on no worklist afterwards. -/
theorem short_message_lost : ¬ ∀ (μ : Type) (o : Options) (getContent : μ → Bytes) (fromFileData : Str → Bytes → μ)
    (md5 : Bytes → Str) (opens : Str → Bool) (today : Nat) (s : Sequence) (files : Files) (worklist : Worklist μ), Apart worklist →
      AccumulateKeeps o getContent fromFileData today s files worklist ∧
        SplitKeeps o getContent fromFileData md5 opens worklist := by
  intro keeps
  obtain ⟨⟨c, is, filed, -⟩, -⟩ := keeps Nat defaults (fun _ => []) (fun _ _ => 1) (fun _ => []) (fun _ => true) 1 firstDay
    (fun _ => none) oneMessage oneMessage_apart
  cases empty_of_filed oneMessage_apart (accumulate_ok is).1 filed

end Sarracenia.Guarantees.Wmo00
