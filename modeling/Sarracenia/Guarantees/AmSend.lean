import Sarracenia.Guarantees.Am
import Sarracenia.Source.AmSend

/-!
# Bulletins over a socket and back

The length in a header does not count the line feeds in front of a bulletin, and what was
written of a bulletin stays in the stream: the two ways for the other end to lose its place.
-/
namespace Sarracenia.Guarantees.AmSend
open Library Library.Dynamic Source Source.AmSend
open Source.Transfer (Bytes)
open Source.Am (sizeAM lengthOf checkNextMsgStatus)
open Guarantees.Am (am am_first_ok am_first_incomplete bulletin_take)

/-! ## One header -/

section Header
variable {data length firsttime timestamp : Bytes} {n : Nat}

theorem replaceFirst_length (s : Bytes) : (replaceFirst s).length = s.length := by
  induction s with
  | nil => rfl
  | cons b s ih =>
    rw [replaceFirst]
    split
    · rfl
    · rw [List.length_cons, ih, List.length_cons]

theorem header_length (data : Bytes) : (header data).length = 80 := by
  unfold header nulls
  rw [replaceFirst_length, List.length_append, List.length_take, List.length_replicate]
  omega

theorem htonl_ok (ok : htonl n = .ok length) : length.length = 4 ∧ length.foldl (fun n b => 256 * n + b.toNat) 0 = n := by
  unfold htonl at ok
  split at ok
  · next small =>
    cases ok
    refine ⟨rfl, ?_⟩
    simp only [List.foldl_cons, List.foldl_nil, UInt8.toNat_ofNat']
    omega
  · cases ok

theorem pack_length (lengths : length.length = 4 ∧ firsttime.length = 4 ∧ timestamp.length = 4) :
    (pack (header data) length firsttime timestamp).length = sizeAM := by
  obtain ⟨one, two, three⟩ := lengths
  unfold pack nulls threadnum sizeAM
  simp only [List.length_append, header_length, List.length_replicate, List.length_cons, List.length_nil, one, two, three]

/-- The length is read where it is packed. -/
theorem lengthOf_pack (ok : htonl n = .ok length) (more : Bytes) :
    lengthOf (pack (header data) length firsttime timestamp ++ more) = n := by
  obtain ⟨four, value⟩ := htonl_ok ok
  have before : (header data ++ nulls 4 ++ nulls 4 ++ threadnum ++ nulls 4).length = 96 := by
    simp only [List.length_append, header_length, nulls, List.length_replicate, threadnum, List.length_cons, List.length_nil]
  have split_ : pack (header data) length firsttime timestamp ++ more =
      (header data ++ nulls 4 ++ nulls 4 ++ threadnum ++ nulls 4) ++ (length ++ (firsttime ++ timestamp ++ nulls 20 ++ more)) := by
    unfold pack
    simp only [List.append_assoc]
  unfold lengthOf
  rw [split_, ← before, List.drop_left, ← four, List.take_left, value]

end Header

/-! ## One bulletin -/

section Send
variable {fileSizeMax : Nat} {now : Moment} {data packed more : Bytes}

theorem wrapbulletin_some (wrapped : wrapbulletin fileSizeMax now data = .ok (some packed)) :
    ∃ head, packed = head ++ data ∧ head.length = sizeAM ∧ ∀ more, lengthOf (head ++ more) = (lstrip data).length := by
  unfold wrapbulletin at wrapped
  split at wrapped
  · cases wrapped
  · obtain ⟨length, told, wrapped⟩ := bind_ok_iff.mp wrapped
    obtain ⟨firsttime, one, wrapped⟩ := bind_ok_iff.mp wrapped
    obtain ⟨timestamp, two, wrapped⟩ := bind_ok_iff.mp wrapped
    cases wrapped
    exact ⟨_, rfl, pack_length ⟨(htonl_ok told).1, (htonl_ok one).1, (htonl_ok two).1⟩, lengthOf_pack told⟩

theorem lstrip_le (data : Bytes) : (lstrip data).length ≤ data.length := (List.dropWhile_suffix _).length_le

/-- Nothing is stripped exactly if there is no line feed in front. -/
theorem lstrip_length_eq_iff : (lstrip data).length = data.length ↔ data.head? ≠ some 10 := by
  cases data with
  | nil => simp [lstrip]
  | cons b data =>
    unfold lstrip
    by_cases feed : b = 10
    · have shorter := (List.dropWhile_suffix (fun b : UInt8 => decide (b = 10)) (l := data)).length_le
      rw [List.dropWhile_cons_of_pos (by simpa using feed), List.length_cons]
      simp only [List.head?_cons, feed, ne_eq, not_true, iff_false]
      omega
    · rw [List.dropWhile_cons_of_neg (by simpa using feed)]
      simp [feed]

/-- Each outcome of a call, with what it leaves in the stream. -/
theorem send_cases (fileSizeMax : Nat) (now : Moment) (data : Bytes) :
    ((send fileSizeMax now data).1 = [] ∧ (send fileSizeMax now data).2 ≠ .ok true) ∨
      ∃ packed, wrapbulletin fileSizeMax now data = .ok (some packed) ∧
        (send fileSizeMax now data).1 = packed.take now.accepted ∧
        ((send fileSizeMax now data).2 = .ok true ∧ packed.take now.accepted = packed ∨
          (send fileSizeMax now data).2 = .ok false ∧ (packed.take now.accepted).length < packed.length) := by
  unfold send
  cases wrapped : wrapbulletin fileSizeMax now data with
  | error fault => exact .inl ⟨rfl, nofun⟩
  | ok made =>
    cases made with
    | none => exact .inl ⟨rfl, nofun⟩
    | some packed =>
      refine .inr ⟨packed, rfl, rfl, ?_⟩
      have prefix_ := List.take_prefix now.accepted packed
      by_cases whole : (packed.take now.accepted).length = packed.length
      · exact .inl ⟨congrArg Except.ok (decide_eq_true whole), prefix_.eq_of_length whole⟩
      · exact .inr ⟨congrArg Except.ok (decide_eq_false whole), Nat.lt_of_le_of_ne prefix_.length_le whole⟩

end Send

/-! ## Taking a stream apart -/

section Receive
variable {head data more b : Bytes}

theorem unwrapAll_eq {fuel : Nat} (enough : b.length ≤ fuel) :
    unwrapAll fuel b = ((am.parse b).1.map (·.drop sizeAM), (am.parse b).2) := by
  induction fuel generalizing b with
  | zero =>
    have empty := List.eq_nil_of_length_eq_zero (Nat.le_zero.mp enough)
    rw [empty, Framing.parse_none Framing.first_nil]
    rfl
  | succ fuel ih =>
    rw [unwrapAll]
    by_cases ok : checkNextMsgStatus b = true
    · have shorter : (b.drop (sizeAM + lengthOf b)).length ≤ fuel := by
        rw [List.length_drop, sizeAM]
        omega
      have taken : unwrapmsg b = ((b.drop sizeAM).take (lengthOf b), sizeAM + lengthOf b) := if_pos ok
      rw [if_pos ok, Framing.parse_some (am_first_ok ok), taken]
      dsimp only
      rw [ih shorter, bulletin_take, List.map_cons]
    · rw [if_neg ok, Framing.parse_none (am_first_incomplete (Bool.eq_false_iff.mpr ok))]
      rfl

theorem received_eq (stream : Bytes) : received stream = (am.parse stream).1.map (·.drop sizeAM) := by
  unfold received
  rw [unwrapAll_eq (Nat.le_refl _)]

variable (size : head.length = sizeAM) (length : ∀ more, lengthOf (head ++ more) = (lstrip data).length)
include size length

/-- A whole frame is taken out with the length that was told. -/
theorem received_frame (enough : (lstrip data).length ≤ more.length) :
    received (head ++ more) = more.take (lstrip data).length :: received (more.drop (lstrip data).length) := by
  have ok : checkNextMsgStatus (head ++ more) = true := by
    unfold checkNextMsgStatus
    rw [if_pos (by rw [List.length_append]; omega), length]
    exact decide_eq_true (by rw [List.length_append]; omega)
  have rest : (head ++ more).drop (sizeAM + lengthOf (head ++ more)) = more.drop (lstrip data).length := by
    rw [length, ← size, ← List.drop_drop, List.drop_left]
  have bulletin : ((head ++ more).take (sizeAM + lengthOf (head ++ more))).drop sizeAM = more.take (lstrip data).length := by
    rw [← bulletin_take, length, ← size, List.drop_left]
  rw [received_eq, received_eq, Framing.parse_some (am_first_ok ok), List.map_cons, bulletin, rest]

/-- Of less than a frame nothing is taken out. -/
theorem received_part {k : Nat} (short : k < sizeAM + (lstrip data).length) : received ((head ++ data).take k) = [] := by
  have incomplete : checkNextMsgStatus ((head ++ data).take k) = false := by
    unfold checkNextMsgStatus
    split
    · next enough =>
      rw [List.length_take, List.length_append] at enough
      have whole : (head ++ data).take k = head ++ data.take (k - sizeAM) := by
        rw [List.take_append, List.take_of_length_le (by omega), size]
      rw [whole, length]
      refine decide_eq_false ?_
      rw [List.length_append, List.length_take]
      omega
    · rfl
  rw [received_eq, Framing.parse_none (am_first_incomplete incomplete)]
  rfl

end Receive

/-! ## A connection -/

section Connection
variable (fileSizeMax : Nat)

/-- A file that is given to `send`, and what the rest answers then. -/
structure Attempt where
  data : Bytes
  now : Moment

def Attempt.written (a : Attempt) : Bytes := (send fileSizeMax a.now a.data).1

/-- The stream of a connection. -/
def stream (run : List Attempt) : Bytes := (run.map (·.written fileSizeMax)).flatten

/-- The files for which `send` returned `True`. -/
def delivered (run : List Attempt) : List Bytes :=
  (run.filter fun a => decide ((send fileSizeMax a.now a.data).2.toOption = some true)).map Attempt.data

/-- What the other end takes out of the stream is what was delivered. -/
def RoundTrip (run : List Attempt) : Prop := received (stream fileSizeMax run) = delivered fileSizeMax run

/-- The file is not too long, and each number that is packed takes four bytes. -/
def Attempt.Fits (a : Attempt) : Prop :=
  a.data.length ≤ fileSizeMax ∧ (lstrip a.data).length < 2 ^ 32 ∧ a.now.firsttime < 2 ^ 32 ∧ a.now.timestamp < 2 ^ 32

/-- The socket accepts something of the frame, but not the whole. -/
def Attempt.Partial (a : Attempt) : Prop :=
  a.Fits fileSizeMax ∧ 0 < a.now.accepted ∧ a.now.accepted < sizeAM + a.data.length

/-- Nothing that would be written comes after a frame that was written in part. -/
def Alone (run : List Attempt) : Prop :=
  run.Pairwise fun a b => a.Partial fileSizeMax → b.Fits fileSizeMax → b.now.accepted = 0

/-- No file with a line feed in front is written up to the length that is told of it. -/
def Attempt.Sound (a : Attempt) : Prop :=
  a.Fits fileSizeMax → a.data.head? = some 10 → a.now.accepted < sizeAM + (lstrip a.data).length

variable {fileSizeMax} {a : Attempt} {run : List Attempt}

theorem toOption_eq_some {ε α : Type} {x : Except ε α} {v : α} : x.toOption = some v ↔ x = .ok v := by
  cases x <;> simp [Except.toOption]

theorem wrapbulletin_of_fits (fits : a.Fits fileSizeMax) :
    ∃ head, wrapbulletin fileSizeMax a.now a.data = .ok (some (head ++ a.data)) ∧ head.length = sizeAM ∧
      ∀ more, lengthOf (head ++ more) = (lstrip a.data).length := by
  obtain ⟨small, length, firsttime, timestamp⟩ := fits
  have wrapped : ∃ packed, wrapbulletin fileSizeMax a.now a.data = .ok (some packed) := by
    have packs {n : Nat} (small : n < 2 ^ 32) : ∃ b, htonl n = .ok b := ⟨_, if_pos small⟩
    obtain ⟨l, length⟩ := packs length
    obtain ⟨f, firsttime⟩ := packs firsttime
    obtain ⟨t, timestamp⟩ := packs timestamp
    unfold wrapbulletin
    rw [if_neg (Nat.not_lt.mpr small), length, firsttime, timestamp]
    exact ⟨_, rfl⟩
  obtain ⟨packed, wrapped⟩ := wrapped
  obtain ⟨head, rfl, rest⟩ := wrapbulletin_some wrapped
  exact ⟨head, wrapped, rest⟩

theorem fits_of_wrapbulletin {packed : Bytes} (wrapped : wrapbulletin fileSizeMax a.now a.data = .ok (some packed)) :
    a.Fits fileSizeMax := by
  have small {n : Nat} {b : Bytes} (ok : htonl n = .ok b) : n < 2 ^ 32 := by
    unfold htonl at ok
    split at ok
    · assumption
    · cases ok
  unfold wrapbulletin at wrapped
  split at wrapped
  · cases wrapped
  · next short =>
    obtain ⟨_, length, wrapped⟩ := bind_ok_iff.mp wrapped
    obtain ⟨_, firsttime, wrapped⟩ := bind_ok_iff.mp wrapped
    obtain ⟨_, timestamp, _⟩ := bind_ok_iff.mp wrapped
    exact ⟨Nat.not_lt.mp short, small length, small firsttime, small timestamp⟩

/-- What does not fit leaves nothing in the stream, and is not delivered. -/
theorem round_trip_cons_unfit (unfit : ¬ a.Fits fileSizeMax) :
    RoundTrip fileSizeMax (a :: run) ↔ RoundTrip fileSizeMax run := by
  rcases send_cases fileSizeMax a.now a.data with ⟨nothing, not⟩ | ⟨packed, wrapped, -⟩
  · have written : a.written fileSizeMax = [] := nothing
    have undelivered : (send fileSizeMax a.now a.data).2.toOption ≠ some true := fun is => not (toOption_eq_some.mp is)
    unfold RoundTrip stream delivered
    rw [List.map_cons, List.flatten_cons, written, List.nil_append, List.filter_cons_of_neg (by simpa using undelivered)]
  · exact absurd (fits_of_wrapbulletin wrapped) unfit

/-- What is written of a file that fits, and whether it is delivered. -/
theorem round_trip_cons_fit (run : List Attempt) (fits : a.Fits fileSizeMax) :
    ∃ head, head.length = sizeAM ∧ (∀ more, lengthOf (head ++ more) = (lstrip a.data).length) ∧
      stream fileSizeMax (a :: run) = (head ++ a.data).take a.now.accepted ++ stream fileSizeMax run ∧
      delivered fileSizeMax (a :: run) =
        if sizeAM + a.data.length ≤ a.now.accepted then a.data :: delivered fileSizeMax run else delivered fileSizeMax run := by
  obtain ⟨head, wrapped, size, length⟩ := wrapbulletin_of_fits fits
  have sent : send fileSizeMax a.now a.data =
      ((head ++ a.data).take a.now.accepted, .ok (((head ++ a.data).take a.now.accepted).length = (head ++ a.data).length)) := by
    unfold send
    rw [wrapped]
  have whole : (send fileSizeMax a.now a.data).2.toOption = some true ↔ sizeAM + a.data.length ≤ a.now.accepted := by
    rw [sent, toOption_eq_some, Except.ok.injEq, decide_eq_true_iff, List.length_take, List.length_append, size]
    omega
  refine ⟨head, size, length, ?_, ?_⟩
  · unfold stream Attempt.written
    rw [List.map_cons, List.flatten_cons, sent]
  · unfold delivered
    rw [List.filter_cons, apply_ite (List.map Attempt.data), List.map_cons]
    exact if_congr (decide_eq_true_iff.trans whole) rfl rfl

/-- A whole file that was told with its length is taken out first, and any other is not. -/
theorem round_trip_cons_whole (fits : a.Fits fileSizeMax) (whole : sizeAM + a.data.length ≤ a.now.accepted) :
    RoundTrip fileSizeMax (a :: run) ↔ a.data.head? ≠ some 10 ∧ RoundTrip fileSizeMax run := by
  obtain ⟨head, size, length, streamed, told⟩ := round_trip_cons_fit run fits
  have le := lstrip_le a.data
  unfold RoundTrip
  rw [streamed, told, if_pos whole, List.take_of_length_le (by rw [List.length_append]; omega), List.append_assoc,
    received_frame size length (by rw [List.length_append]; omega), ← lstrip_length_eq_iff,
    List.take_append_of_le_length le, List.drop_append_of_le_length le]
  constructor
  · intro same
    obtain ⟨here, rest⟩ := List.cons.inj same
    have counted := congrArg List.length here
    rw [List.length_take, Nat.min_eq_left le] at counted
    rw [counted, List.drop_length, List.nil_append] at rest
    exact ⟨counted, rest⟩
  · rintro ⟨counted, rest⟩
    rw [counted, List.take_length, List.drop_length, List.nil_append, rest]

/-- What was written of a file in part, with nothing after it, is no frame exactly if it is less than
the length that is told. -/
theorem round_trip_cons_cut (part : a.Partial fileSizeMax) (nothing : stream fileSizeMax run = [])
    (none_ : delivered fileSizeMax run = []) :
    RoundTrip fileSizeMax (a :: run) ↔ a.now.accepted < sizeAM + (lstrip a.data).length := by
  obtain ⟨fits, -, cut⟩ := part
  obtain ⟨head, size, length, streamed, told⟩ := round_trip_cons_fit run fits
  unfold RoundTrip
  rw [streamed, told, if_neg (Nat.not_le.mpr cut), nothing, none_, List.append_nil]
  by_cases short : a.now.accepted < sizeAM + (lstrip a.data).length
  · exact iff_of_true (received_part size length short) short
  · have framed : (head ++ a.data).take a.now.accepted = head ++ a.data.take (a.now.accepted - sizeAM) := by
      rw [List.take_append, List.take_of_length_le (by omega), size]
    have filled : (lstrip a.data).length ≤ (a.data.take (a.now.accepted - sizeAM)).length := by
      have le := lstrip_le a.data
      rw [List.length_take]
      omega
    rw [framed, received_frame size length filled]
    exact iff_of_false (List.cons_ne_nil _ _) short

theorem round_trip_cons_refused (fits : a.Fits fileSizeMax) (none_ : a.now.accepted = 0) :
    RoundTrip fileSizeMax (a :: run) ↔ RoundTrip fileSizeMax run := by
  obtain ⟨head, size, length, streamed, told⟩ := round_trip_cons_fit run fits
  unfold RoundTrip
  rw [streamed, told, if_neg (by rw [none_, sizeAM]; omega), none_, List.take_zero, List.nil_append]

/-- Of files that do not fit, and of those the socket takes nothing of, nothing is written. -/
theorem stream_silent (silent : ∀ b ∈ run, b.Fits fileSizeMax → b.now.accepted = 0) :
    RoundTrip fileSizeMax run ∧ stream fileSizeMax run = [] := by
  induction run with
  | nil => exact ⟨rfl, rfl⟩
  | cons b run ih =>
    obtain ⟨here, rest⟩ := List.forall_mem_cons.mp silent
    obtain ⟨trip, nothing⟩ := ih rest
    by_cases fits : b.Fits fileSizeMax
    · obtain ⟨head, -, -, streamed, -⟩ := round_trip_cons_fit run fits
      refine ⟨(round_trip_cons_refused fits (here fits)).mpr trip, ?_⟩
      rw [streamed, here fits, List.take_zero, nothing, List.nil_append]
    · refine ⟨(round_trip_cons_unfit fits).mpr trip, ?_⟩
      rcases send_cases fileSizeMax b.now b.data with ⟨written, -⟩ | ⟨packed, wrapped, -⟩
      · unfold stream Attempt.written at nothing ⊢
        rw [List.map_cons, List.flatten_cons, written, nothing, List.nil_append]
      · exact absurd (fits_of_wrapbulletin wrapped) fits

theorem delivered_silent (silent : ∀ b ∈ run, b.Fits fileSizeMax → b.now.accepted = 0) : delivered fileSizeMax run = [] := by
  obtain ⟨trip, nothing⟩ := stream_silent silent
  unfold RoundTrip at trip
  rw [← trip, nothing]
  rfl

/-- On a connection on which nothing is written after a part of a frame, what was delivered is what
the other end takes out, exactly if no file misleads it. -/
theorem round_trip_iff_sound (alone : Alone fileSizeMax run) :
    RoundTrip fileSizeMax run ↔ ∀ a ∈ run, a.Sound fileSizeMax := by
  induction run with
  | nil => exact iff_of_true rfl nofun
  | cons a run ih =>
    obtain ⟨after, tail⟩ := List.pairwise_cons.mp alone
    rw [List.forall_mem_cons]
    by_cases fits : a.Fits fileSizeMax
    · by_cases whole : sizeAM + a.data.length ≤ a.now.accepted
      · have le := lstrip_le a.data
        rw [round_trip_cons_whole fits whole, ih tail]
        exact and_congr_left fun _ => ⟨fun plain _ feed => absurd feed plain, fun sound feed => by have := sound fits feed; omega⟩
      · by_cases none_ : a.now.accepted = 0
        · rw [round_trip_cons_refused fits none_, ih tail]
          exact (and_iff_right fun _ _ => by rw [none_, sizeAM]; omega).symm
        · -- the rest of the run writes nothing, so that only this frame counts
          have part : a.Partial fileSizeMax := ⟨fits, Nat.pos_of_ne_zero none_, Nat.not_le.mp whole⟩
          have silent : ∀ b ∈ run, b.Fits fileSizeMax → b.now.accepted = 0 := fun b member => after b member part
          rw [round_trip_cons_cut part (stream_silent silent).2 (delivered_silent silent)]
          have rest : ∀ b ∈ run, b.Sound fileSizeMax := (ih tail).mp (stream_silent silent).1
          rw [and_iff_left rest]
          constructor
          · exact fun short _ _ => short
          · intro sound
            by_cases feed : a.data.head? = some 10
            · exact sound fits feed
            · have := lstrip_length_eq_iff.mpr feed
              omega
    · rw [round_trip_cons_unfit fits, ih tail]
      exact (and_iff_right fun is => absurd is fits).symm

/-- Of a bulletin with a line feed in front the other end loses the last byte, and the one after it
is not where it looks. -/
theorem line_feed_lost : ¬ RoundTrip 32768
    [⟨[10, 65, 66], ⟨1735689600, 1735689600, 4096⟩⟩, ⟨[67, 68], ⟨1735689601, 1735689601, 4096⟩⟩] := by
  intro same
  have fits : Attempt.Fits 32768 ⟨[10, 65, 66], ⟨1735689600, 1735689600, 4096⟩⟩ :=
    ⟨by decide, by decide, by decide, by decide⟩
  exact ((round_trip_cons_whole fits (by decide)).mp same).1 rfl

/-- Two bulletins, the second written up to its fourth byte. -/
theorem plain_round_trip : RoundTrip 32768
    [⟨[65, 66, 10], ⟨1735689600, 1735689600, 4096⟩⟩, ⟨[67, 68], ⟨1735689601, 1735689601, 4⟩⟩] := by
  refine (round_trip_iff_sound (List.pairwise_pair.mpr fun part => ?_)).mpr ?_
  · exact absurd part.2.2 (by decide)
  · intro a member _ feed
    rcases List.mem_pair.mp member with rfl | rfl <;> cases feed

end Connection
end Sarracenia.Guarantees.AmSend
