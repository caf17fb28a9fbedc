import Mathlib.Data.List.ReduceOption
import Sarracenia.Library.Framing
import Sarracenia.Source.Am

/-!
# Messages for the frames of a stream

After each call, what was yielded and what is left in the buffer is what one parse of everything
received gives, except where a header cannot be decoded: that frame ends the call with an
exception, and the messages of the frames before it in the call are lost.
-/
namespace Sarracenia.Guarantees.Am
open Library Library.Text Library.Dynamic Source Source.Am
open Source.Transfer (Bytes)

/-! ## The frames -/

section Frames
variable {b : Bytes}

theorem lengthOf_append (enough : sizeAM ≤ b.length) (more : Bytes) : lengthOf (b ++ more) = lengthOf b := by
  unfold sizeAM at enough
  have header : 96 ≤ b.length := by omega
  have field : 4 ≤ (b.drop 96).length := by rw [List.length_drop]; omega
  unfold lengthOf
  rw [List.drop_append_of_le_length header, List.take_append_of_le_length field]

/-- A header of fixed size, and as many bytes as it says. -/
def am : Framing UInt8 where
  size b := if sizeAM ≤ b.length then some (sizeAM + lengthOf b) else none
  pos {b n} size := by
    split at size
    · rw [← Option.some.inj size, sizeAM]
      omega
    · cases size
  stable {a n} b size := by
    split at size
    · next enough =>
      have longer : sizeAM ≤ (a ++ b).length := by rw [List.length_append]; omega
      rw [if_pos longer, lengthOf_append enough]
      exact size
    · cases size

theorem am_first_ok (ok : checkNextMsgStatus b = true) :
    am.first b = some (b.take (sizeAM + lengthOf b), b.drop (sizeAM + lengthOf b)) := by
  unfold checkNextMsgStatus at ok
  split at ok
  · next enough =>
    unfold Framing.first am
    dsimp only
    rw [if_pos enough]
    dsimp only
    rw [if_pos (of_decide_eq_true ok)]
  · cases ok

theorem am_first_incomplete (incomplete : checkNextMsgStatus b = false) : am.first b = none := by
  unfold checkNextMsgStatus at incomplete
  unfold Framing.first am
  dsimp only
  split at incomplete
  · next enough =>
    rw [if_pos enough]
    dsimp only
    rw [if_neg (of_decide_eq_false incomplete)]
  · next short => rw [if_neg short]

/-- The header of the frame in front is read off the buffer. -/
theorem headerOf_take (n : Nat) : headerOf (b.take (sizeAM + n)) = headerOf b := by
  unfold headerOf sizeAM
  rw [List.take_take, Nat.min_eq_left (by omega)]

theorem bulletin_take (n : Nat) : (b.drop sizeAM).take n = (b.take (sizeAM + n)).drop sizeAM := by
  rw [List.drop_take, Nat.add_sub_cancel_left]

end Frames

/-! ## One call -/

section Call
variable (decode : Bytes → Except Fault Str) (o : Options) (moments : Nat → Moment)

/-- What becomes of the frame that is taken out as number `k`. -/
def outcome (k : Nat) (f : Bytes) : Except Fault (Option Message) :=
  ingest decode o (moments k) (headerOf f) (f.drop sizeAM)

/-- A call on the frames that are whole then. -/
def serve (tail : Bytes) : Nat → List Bytes → List Message → State × Except Fault (List Message)
  | k, [], newmsg => (⟨tail, k⟩, .ok newmsg)
  | k, f :: fs, newmsg =>
    match outcome decode o moments k f with
    | .error fault => (⟨fs.flatten ++ tail, k + 1⟩, .error fault)
    | .ok msg => serve tail (k + 1) fs (newmsg ++ msg.toList)

theorem gatherLoop_eq {fuel : Nat} {s : State} (enough : s.inBuffer.length ≤ fuel) (newmsg : List Message) :
    gatherLoop decode o moments fuel s newmsg =
      serve decode o moments (am.parse s.inBuffer).2 s.taken (am.parse s.inBuffer).1 newmsg := by
  induction fuel generalizing s newmsg with
  | zero =>
    have empty := List.eq_nil_of_length_eq_zero (Nat.le_zero.mp enough)
    rw [empty, Framing.parse_none Framing.first_nil, gatherLoop, serve, ← empty]
  | succ fuel ih =>
    rw [gatherLoop]
    split
    · next ok =>
      have first := am_first_ok ok
      have split_ := Framing.first_some first
      have shorter : (s.inBuffer.drop (sizeAM + lengthOf s.inBuffer)).length ≤ fuel := by
        rw [List.length_drop]
        unfold sizeAM
        omega
      rw [Framing.parse_some first, serve, outcome, headerOf_take, ← bulletin_take]
      dsimp only
      cases ingest decode o (moments s.taken) (headerOf s.inBuffer)
          ((s.inBuffer.drop sizeAM).take (lengthOf s.inBuffer)) with
      | error fault =>
        exact congrArg (fun tail => ((⟨tail, s.taken + 1⟩ : State), (.error fault : Except Fault (List Message))))
          (Framing.parse_flatten _).symm
      | ok msg => exact ih shorter _
    · next incomplete =>
      rw [Framing.parse_none (am_first_incomplete (Bool.eq_false_iff.mpr incomplete)), serve]

variable {decode o moments} {tail : Bytes} {k : Nat} {fs : List Bytes} {newmsg : List Message}

/-- The header can be decoded. -/
def HeaderOk (decode : Bytes → Except Fault Str) (f : Bytes) : Prop :=
  ∃ text, decode ((headerOf f).takeWhile (· ≠ 0)) = .ok text

/-- The header can be decoded, and so can the contents unless they are binary. -/
def Decodable (decode : Bytes → Except Fault Str) (o : Options) (f : Bytes) : Prop :=
  HeaderOk decode f ∧ (isBinary o (f.drop sizeAM) = true ∨ ∃ text, decode (f.drop sizeAM) = .ok text)

/-- Nothing fails from the corrected contents to the message. -/
def Postable (decode : Bytes → Except Fault Str) (o : Options) (now : Moment) (f : Bytes) : Prop :=
  ∀ header, bulletinHeader decode (headerOf f) = .ok header →
    ∃ info value placed identity,
      now.fromFileInfo (o.directory ++ '/' :: filename now header) = .ok info ∧
      content decode o (treat decode o now (f.drop sizeAM) (header.take 2)) = .ok value ∧
      now.updatePaths o.directory (filename now header) (described o
        (treat decode o now (f.drop sizeAM) (header.take 2)) value (filename now header) info) = .ok placed ∧
      now.ident (treat decode o now (f.drop sizeAM) (header.take 2)).bulletin = .ok identity

theorem headerOk_iff {f : Bytes} : HeaderOk decode f ↔ ∃ header, bulletinHeader decode (headerOf f) = .ok header := by
  unfold HeaderOk bulletinHeader
  cases decode ((headerOf f).takeWhile (· ≠ 0)) with
  | error fault => exact ⟨fun ⟨_, is⟩ => (nomatch is), fun ⟨_, is⟩ => (nomatch is)⟩
  | ok text => exact ⟨fun _ => ⟨_, rfl⟩, fun _ => ⟨_, rfl⟩⟩

/-- The message of a frame, if it gets one. -/
def posted (decode : Bytes → Except Fault Str) (o : Options) (moments : Nat → Moment) (k : Nat) (f : Bytes) :
    Option Message := (outcome decode o moments k f).toOption.join

variable (decode o moments k) in
theorem outcome_bad {f : Bytes} (bad : ¬ HeaderOk decode f) : ∃ fault, outcome decode o moments k f = .error fault := by
  unfold outcome ingest
  cases header : bulletinHeader decode (headerOf f) with
  | error fault => exact ⟨fault, rfl⟩
  | ok text => exact absurd (headerOk_iff.mpr ⟨text, header⟩) bad

theorem outcome_good {f : Bytes} (good : HeaderOk decode f) :
    outcome decode o moments k f = .ok (posted decode o moments k f) := by
  obtain ⟨header, same⟩ := headerOk_iff.mp good
  unfold posted outcome ingest
  rw [same]
  rfl

theorem posted_eq {f : Bytes} {header : Str} (same : bulletinHeader decode (headerOf f) = .ok header) :
    posted decode o moments k f =
      (message decode o (moments k) header (treat decode o (moments k) (f.drop sizeAM) (header.take 2))).toOption := by
  unfold posted outcome ingest
  rw [same]
  rfl

theorem message_ok_iff {now : Moment} {header : Str} {t : Treated} :
    (∃ msg, message decode o now header t = .ok msg) ↔ ∃ info value placed identity,
      now.fromFileInfo (o.directory ++ '/' :: filename now header) = .ok info ∧ content decode o t = .ok value ∧
      now.updatePaths o.directory (filename now header) (described o t value (filename now header) info) =
        .ok placed ∧ now.ident t.bulletin = .ok identity := by
  unfold message
  constructor
  · rintro ⟨msg, made⟩
    obtain ⟨info, one, made⟩ := bind_ok_iff.mp made
    obtain ⟨value, two, made⟩ := bind_ok_iff.mp made
    obtain ⟨placed, three, made⟩ := bind_ok_iff.mp made
    obtain ⟨identity, four, -⟩ := bind_ok_iff.mp made
    exact ⟨info, value, placed, identity, one, two, three, four⟩
  · rintro ⟨info, value, placed, identity, one, two, three, four⟩
    exact ⟨_, bind_ok_iff.mpr ⟨info, one, bind_ok_iff.mpr ⟨value, two, bind_ok_iff.mpr ⟨placed, three,
      bind_ok_iff.mpr ⟨identity, four, rfl⟩⟩⟩⟩⟩

theorem toOption_isSome {α : Type} {x : Except Fault α} : x.toOption.isSome = true ↔ ∃ a, x = .ok a := by
  cases x with
  | error fault => exact ⟨nofun, nofun⟩
  | ok a => exact ⟨fun _ => ⟨a, rfl⟩, fun _ => rfl⟩

theorem posted_isSome {f : Bytes} (good : HeaderOk decode f) :
    (posted decode o moments k f).isSome = true ↔ Postable decode o (moments k) f := by
  obtain ⟨header, same⟩ := headerOk_iff.mp good
  rw [posted_eq same, toOption_isSome, message_ok_iff]
  constructor
  · intro made header' other
    obtain rfl : header = header' := Except.ok.inj (same.symm.trans other)
    exact made
  · exact fun postable => postable header same

/-- Contents that are not binary and cannot be decoded stay as they are. -/
theorem content_bad {now : Moment} {bulletin : Bytes} {firstchars : Str} (text : isBinary o bulletin = false)
    (bad : ¬ ∃ text, decode bulletin = .ok text) :
    ¬ ∃ value, content decode o (treat decode o now bulletin firstchars) = .ok value := by
  have failed : ∃ fault, decode bulletin = .error fault := by
    cases decoded : decode bulletin with
    | error fault => exact ⟨fault, rfl⟩
    | ok text => exact absurd ⟨text, decoded⟩ bad
  obtain ⟨fault, failed⟩ := failed
  have same : treat decode o now bulletin firstchars = ⟨bulletin, false, false⟩ := by
    unfold treat corrected
    rw [text, failed]
    split
    · rfl
    · rfl
  rw [same]
  unfold content
  rw [failed]
  exact nofun

/-- A frame that cannot be decoded gets no message. -/
theorem posted_none {f : Bytes} (not : ¬ Decodable decode o f) : posted decode o moments k f = none := by
  by_cases good : HeaderOk decode f
  · obtain ⟨header, same⟩ := headerOk_iff.mp good
    rw [Decodable, and_iff_right good, not_or, Bool.not_eq_true] at not
    rw [← Option.not_isSome_iff_eq_none, posted_eq same, toOption_isSome, message_ok_iff]
    rintro ⟨-, value, -, -, -, decoded, -⟩
    exact content_bad not.1 not.2 ⟨value, decoded⟩
  · obtain ⟨fault, failed⟩ := outcome_bad decode o moments k good
    unfold posted
    rw [failed]
    rfl

end Call

/-! ## What a call should yield -/

section Yield
variable (decode : Bytes → Except Fault Str) (o : Options) (moments : Nat → Moment)

instance (f : Bytes) : Decidable (Decodable decode o f) :=
  decidable_of_iff ((decode ((headerOf f).takeWhile (· ≠ 0))).toOption.isSome = true ∧
      (isBinary o (f.drop sizeAM) = true ∨ (decode (f.drop sizeAM)).toOption.isSome = true))
    (and_congr toOption_isSome (or_congr Iff.rfl toOption_isSome))

/-- One message for each frame that can be decoded; the frames are numbered from `k` on. -/
def expected : Nat → List Bytes → List (Option Message)
  | _, [] => []
  | k, f :: fs =>
    (if Decodable decode o f then [posted decode o moments k f] else []) ++ expected (k + 1) fs

/-- The messages there are. -/
def messages : Nat → List Bytes → List Message
  | _, [] => []
  | k, f :: fs => (posted decode o moments k f).toList ++ messages (k + 1) fs

/-- A frame that can be decoded gets its message, and one whose header cannot be decoded is the last
in its call and comes after none that can be. -/
structure Calm (k : Nat) (fs : List Bytes) : Prop where
  postable : ∀ i f, fs[i]? = some f → Decodable decode o f → Postable decode o (moments (k + i)) f
  header : ∀ pre f post, fs = pre ++ f :: post → (∀ g ∈ pre, HeaderOk decode g) → ¬ HeaderOk decode f →
    post = [] ∧ ∀ g ∈ pre, ¬ Decodable decode o g

/-- What is yielded: nothing where there is an exception. -/
def yielded (result : Except Fault (List Message)) : List Message := result.toOption.getD []

variable {decode o moments} {tail : Bytes} {k : Nat} {fs pre post : List Bytes} {f : Bytes} {newmsg : List Message}

theorem expected_append : expected decode o moments k (pre ++ fs) =
    expected decode o moments k pre ++ expected decode o moments (k + pre.length) fs := by
  induction pre generalizing k with
  | nil => rfl
  | cons f pre ih =>
    rw [List.cons_append, expected, expected, ih, List.append_assoc, List.length_cons, Nat.add_right_comm, Nat.add_assoc]

theorem expected_nil_iff : expected decode o moments k fs = [] ↔ ∀ f ∈ fs, ¬ Decodable decode o f := by
  induction fs generalizing k with
  | nil => exact ⟨fun _ => nofun, fun _ => rfl⟩
  | cons f fs ih =>
    rw [expected, List.append_eq_nil_iff, ih, List.forall_mem_cons]
    refine and_congr_left fun _ => ?_
    split
    · next is => exact ⟨nofun, fun not => absurd is not⟩
    · next not => exact ⟨fun _ => not, fun _ => rfl⟩

theorem serve_good (good : ∀ f ∈ fs, HeaderOk decode f) :
    serve decode o moments tail k fs newmsg =
      (⟨tail, k + fs.length⟩, .ok (newmsg ++ messages decode o moments k fs)) := by
  induction fs generalizing k newmsg with
  | nil => rw [serve, messages, List.append_nil]; rfl
  | cons f fs ih =>
    obtain ⟨here, others⟩ := List.forall_mem_cons.mp good
    rw [serve, outcome_good here]
    dsimp only
    rw [ih others, messages, List.append_assoc, List.length_cons, Nat.add_right_comm, Nat.add_assoc]

variable (decode o moments tail k post newmsg) in
theorem serve_bad (good : ∀ g ∈ pre, HeaderOk decode g) (bad : ¬ HeaderOk decode f) :
    ∃ fault, serve decode o moments tail k (pre ++ f :: post) newmsg =
      (⟨post.flatten ++ tail, k + pre.length + 1⟩, .error fault) := by
  induction pre generalizing k newmsg with
  | nil =>
    obtain ⟨fault, failed⟩ := outcome_bad decode o moments k bad
    exact ⟨fault, by rw [List.nil_append, serve, failed]; rfl⟩
  | cons g pre ih =>
    obtain ⟨here, others⟩ := List.forall_mem_cons.mp good
    rw [List.cons_append, serve, outcome_good here]
    dsimp only
    obtain ⟨fault, failed⟩ := ih (k + 1) (newmsg ++ (posted decode o moments k g).toList) others
    exact ⟨fault, by rw [failed, List.length_cons, Nat.add_right_comm k 1, Nat.add_assoc k pre.length 1]⟩

/-- Either all headers can be decoded, or one is the first that cannot. -/
theorem headers_cases (decode : Bytes → Except Fault Str) (fs : List Bytes) :
    (∀ f ∈ fs, HeaderOk decode f) ∨
      ∃ pre f post, fs = pre ++ f :: post ∧ (∀ g ∈ pre, HeaderOk decode g) ∧ ¬ HeaderOk decode f := by
  induction fs with
  | nil => exact .inl nofun
  | cons f fs ih =>
    by_cases here : HeaderOk decode f
    · rcases ih with good | ⟨pre, g, post, rfl, good, bad⟩
      · exact .inl (List.forall_mem_cons.mpr ⟨here, good⟩)
      · exact .inr ⟨f :: pre, g, post, rfl, List.forall_mem_cons.mpr ⟨here, good⟩, bad⟩
    · exact .inr ⟨[], f, fs, rfl, nofun, here⟩

theorem first_bad_unique {pre' post' : List Bytes} {f' : Bytes} (same : pre ++ f :: post = pre' ++ f' :: post')
    (good : ∀ g ∈ pre, HeaderOk decode g) (bad : ¬ HeaderOk decode f)
    (good' : ∀ g ∈ pre', HeaderOk decode g) (bad' : ¬ HeaderOk decode f') : pre = pre' ∧ f = f' ∧ post = post' := by
  induction pre generalizing pre' with
  | nil =>
    cases pre' with
    | nil => exact ⟨rfl, List.cons.inj same⟩
    | cons g pre' =>
      obtain ⟨rfl, -⟩ := List.cons.inj same
      exact absurd (good' f List.mem_cons_self) bad
  | cons g pre ih =>
    cases pre' with
    | nil =>
      obtain ⟨rfl, -⟩ := List.cons.inj same
      exact absurd (good g List.mem_cons_self) bad'
    | cons g' pre' =>
      obtain ⟨rfl, others⟩ := List.cons.inj same
      obtain ⟨rfl, rest⟩ := ih others (List.forall_mem_cons.mp good).2 (List.forall_mem_cons.mp good').2
      exact ⟨rfl, rest⟩

/-- The messages there are, are those there should be, if every frame that can be decoded gets its own. -/
theorem messages_iff : (messages decode o moments k fs).map some = expected decode o moments k fs ↔
    ∀ i f, fs[i]? = some f → Decodable decode o f → Postable decode o (moments (k + i)) f := by
  induction fs generalizing k with
  | nil => exact ⟨fun _ => nofun, fun _ => rfl⟩
  | cons f fs ih =>
    have split_ : (∀ i g, (f :: fs)[i]? = some g → Decodable decode o g → Postable decode o (moments (k + i)) g) ↔
        (Decodable decode o f → Postable decode o (moments k) f) ∧
          ∀ i g, fs[i]? = some g → Decodable decode o g → Postable decode o (moments (k + 1 + i)) g := by
      constructor
      · intro all
        refine ⟨all 0 f rfl, fun i g is => ?_⟩
        rw [Nat.add_assoc, Nat.add_comm 1 i]
        exact all (i + 1) g is
      · rintro ⟨here, others⟩ i g is
        cases i with
        | zero => exact Option.some.inj is ▸ here
        | succ i =>
          rw [← Nat.add_assoc, Nat.add_right_comm]
          exact others i g is
    rw [messages, expected, split_, ← ih, List.map_append]
    by_cases is : Decodable decode o f
    · rw [if_pos is, ← posted_isSome is.1]
      cases posted decode o moments k f with
      | none =>
        refine ⟨fun same => ?_, fun both => (nomatch both.1 is)⟩
        have inside : none ∈ (messages decode o moments (k + 1) fs).map some := by
          rw [show (messages decode o moments (k + 1) fs).map some = _ from same]
          exact List.mem_cons_self
        obtain ⟨_, -, absurd⟩ := List.mem_map.mp inside
        cases absurd
      | some msg => exact ⟨fun same => ⟨fun _ => rfl, List.tail_eq_of_cons_eq same⟩, fun both => congrArg (some msg :: ·) both.2⟩
    · rw [posted_none is, if_neg is]
      exact ⟨fun same => ⟨fun yes => absurd yes is, same⟩, And.right⟩

variable (tail) in
/-- A call leaves the tail and yields what it should exactly if it is calm. -/
theorem serve_iff (pos : ∀ f ∈ fs, 0 < f.length) :
    ((serve decode o moments tail k fs []).1.inBuffer = tail ∧
        (yielded (serve decode o moments tail k fs []).2).map some = expected decode o moments k fs) ↔
      Calm decode o moments k fs := by
  rcases headers_cases decode fs with good | ⟨pre, f, post, rfl, good, bad⟩
  · rw [serve_good good]
    refine (and_iff_right rfl).trans (messages_iff.trans ⟨fun postable => ⟨postable, ?_⟩, Calm.postable⟩)
    rintro pre f post rfl - bad
    exact absurd (good f (List.mem_append_right _ List.mem_cons_self)) bad
  · obtain ⟨fault, failed⟩ := serve_bad decode o moments tail k post [] good bad
    rw [failed]
    have rest : post.flatten ++ tail = tail ↔ post = [] := by
      rw [List.append_left_eq_self, List.flatten_eq_nil_iff]
      refine ⟨fun empty => List.eq_nil_iff_forall_not_mem.mpr fun g member => ?_, fun none_ => none_ ▸ nofun⟩
      have long := pos g (List.mem_append_right _ (List.mem_cons_of_mem _ member))
      rw [empty g member] at long
      exact Nat.lt_irrefl 0 long
    have lost : [] = expected decode o moments k (pre ++ f :: post) ↔
        (∀ g ∈ pre, ¬ Decodable decode o g) ∧ ∀ g ∈ post, ¬ Decodable decode o g := by
      rw [eq_comm, expected_nil_iff, List.forall_mem_append, List.forall_mem_cons]
      exact and_congr_right fun _ => and_iff_right fun is => bad is.1
    refine (and_congr rest lost).trans ⟨?_, fun calm => ?_⟩
    · rintro ⟨rfl, quiet, -⟩
      refine ⟨fun i g there is => ?_, fun pre' f' post' same good' bad' => ?_⟩
      · rcases List.mem_append.mp (List.mem_of_getElem? there) with member | member
        · exact absurd is (quiet g member)
        · exact absurd is.1 (List.mem_singleton.mp member ▸ bad)
      · obtain ⟨rfl, -, rfl⟩ := first_bad_unique same good bad good' bad'
        exact ⟨rfl, quiet⟩
    · obtain ⟨rfl, quiet⟩ := calm.header pre f post rfl good bad
      exact ⟨rfl, quiet, nofun⟩

/-- Where it yields what it should, every frame was taken out. -/
theorem serve_taken (pos : ∀ f ∈ fs, 0 < f.length) (calm : Calm decode o moments k fs) :
    (serve decode o moments tail k fs []).1.taken = k + fs.length := by
  rcases headers_cases decode fs with good | ⟨pre, f, post, rfl, good, bad⟩
  · rw [serve_good good]
  · obtain ⟨rfl, -⟩ := calm.header pre f post rfl good bad
    obtain ⟨fault, failed⟩ := serve_bad decode o moments tail k [] [] good bad
    rw [failed, List.length_append]
    rfl

end Yield

/-! ## Runs -/

section Run
variable (decode : Bytes → Except Fault Str) (o : Options) (moments : Nat → Moment)

/-- The bytes that come. -/
def bytesOf : Recv → Bytes
  | .data tmp => tmp
  | _ => []

/-- The connection is there: some bytes, or none in time. -/
def Alive : Recv → Prop
  | .data tmp => tmp ≠ []
  | .timeout => True
  | .failed => False

def received (run : List Recv) : Bytes := run.flatMap bytesOf

/-- A call, and what was yielded so far. -/
def step (x : State × List Message) (r : Recv) : State × List Message :=
  match gather decode o moments r x.1 with
  | none => x
  | some (s, result) => (s, x.2 ++ yielded result)

def play (run : List Recv) : State × List Message := run.foldl (step decode o moments) (⟨[], 0⟩, [])

/-- What was yielded is one message for each frame that can be decoded, in the order of the
stream, and the buffer holds the part of a frame that is left. -/
def Conforms (run : List Recv) : Prop :=
  (play decode o moments run).1.inBuffer = (am.parse (received run)).2 ∧
    (play decode o moments run).2.map some = expected decode o moments 0 (am.parse (received run)).1

/-- The frames that are whole with what `r` brings and were not before. -/
def completed (run : List Recv) (r : Recv) : List Bytes := (am.parse ((am.parse (received run)).2 ++ bytesOf r)).1

variable {decode o moments} {run : List Recv} {r : Recv}

theorem received_snoc : received (run ++ [r]) = received run ++ bytesOf r := by
  unfold received
  rw [List.flatMap_append, List.flatMap_singleton]

theorem addBuffer_alive (alive : Alive r) (inBuffer : Bytes) : addBuffer inBuffer r = some (inBuffer ++ bytesOf r) := by
  cases r with
  | data tmp =>
    cases tmp with
    | nil => exact absurd rfl alive
    | cons b tmp => rfl
  | timeout => exact congrArg some (List.append_nil _).symm
  | failed => cases alive

theorem parse_snoc : am.parse (received (run ++ [r])) =
    ((am.parse (received run)).1 ++ completed run r, (am.parse ((am.parse (received run)).2 ++ bytesOf r)).2) := by
  rw [received_snoc, Framing.parse_append]
  rfl

variable (decode o moments) in
/-- One call more, on the frames it completes. -/
theorem play_snoc (alive : Alive r)
    (buffer : (play decode o moments run).1.inBuffer = (am.parse (received run)).2) :
    ∃ result, result = serve decode o moments (am.parse (received (run ++ [r]))).2
        (play decode o moments run).1.taken (completed run r) [] ∧
      play decode o moments (run ++ [r]) = (result.1, (play decode o moments run).2 ++ yielded result.2) := by
  refine ⟨_, rfl, ?_⟩
  have loop := gatherLoop_eq decode o moments (Nat.le_refl (List.length ((am.parse (received run)).2 ++ bytesOf r)))
    (s := ⟨(am.parse (received run)).2 ++ bytesOf r, (play decode o moments run).1.taken⟩) []
  rw [parse_snoc]
  unfold completed
  dsimp only at loop ⊢
  rw [← loop]
  conv_lhs => rw [play, List.foldl_append]
  change step decode o moments (play decode o moments run) r = _
  unfold step gather
  rw [addBuffer_alive alive, buffer]
  rfl

/-- One call more conforms exactly if it is calm, and has then taken out every frame. -/
theorem conforms_snoc (alive : Alive r) (sofar : Conforms decode o moments run)
    (taken : (play decode o moments run).1.taken = (am.parse (received run)).1.length) :
    (Conforms decode o moments (run ++ [r]) ↔
        Calm decode o moments (am.parse (received run)).1.length (completed run r)) ∧
      (Conforms decode o moments (run ++ [r]) →
        (play decode o moments (run ++ [r])).1.taken = (am.parse (received (run ++ [r]))).1.length) := by
  obtain ⟨result, called, next⟩ := play_snoc decode o moments alive sofar.1
  rw [taken] at called
  have pos : ∀ f ∈ completed run r, 0 < f.length := Framing.parse_pos _
  have conforms : Conforms decode o moments (run ++ [r]) ↔
      Calm decode o moments (am.parse (received run)).1.length (completed run r) := by
    unfold Conforms
    rw [← serve_iff (am.parse (received (run ++ [r]))).2 pos, next, ← called]
    refine and_congr Iff.rfl ?_
    rw [congrArg Prod.fst parse_snoc, List.map_append, sofar.2, expected_append, Nat.zero_add, List.append_cancel_left_eq]
  refine ⟨conforms, fun yes => ?_⟩
  rw [next, called, parse_snoc, List.length_append]
  exact serve_taken pos (conforms.mp yes)

theorem conforms_nil : Conforms decode o moments [] := by
  unfold Conforms
  rw [show received [] = [] from rfl, Framing.parse_none Framing.first_nil]
  exact ⟨rfl, rfl⟩

theorem forall_prefix_snoc {P : List Recv → Prop} :
    (∀ before, before <+: run ++ [r] → P before) ↔ (∀ before, before <+: run → P before) ∧ P (run ++ [r]) := by
  simp only [List.prefix_concat_iff, or_imp, forall_and, forall_eq]
  exact and_comm

theorem forall_call_snoc {P : List Recv → Recv → Prop} :
    (∀ before r', before ++ [r'] <+: run ++ [r] → P before r') ↔
      (∀ before r', before ++ [r'] <+: run → P before r') ∧ P run r := by
  constructor
  · intro all
    exact ⟨fun before r' earlier => all before r' (earlier.trans (List.prefix_append _ _)), all run r (List.prefix_refl _)⟩
  · rintro ⟨earlier, last⟩ before r' start
    rcases List.prefix_concat_iff.mp start with same | start
    · obtain ⟨rfl, single⟩ := List.append_inj' same rfl
      exact List.singleton_inj.mp single ▸ last
    · exact earlier before r' start

end Run

/-! ## A bulletin, and a frame whose header is not text -/

section Example

def ascii (b : Bytes) : Except Fault Str :=
  if b.all (· < 128) then .ok (b.map fun x => Char.ofNat x.toNat) else .error .valueError

def options : Options := ⟨"/apps".toList, "ascii".toList, ["BUFR".toList.map fun c => c.val.toUInt8], "md5".toList⟩

def plain (_ : Nat) : Moment where
  randint := 7
  getStation _ := .ok []
  correctContents _ _ _ := .ok ([], false)
  fromFileInfo _ := .ok []
  updatePaths _ _ msg := .ok msg
  ident _ := .ok (.str "d41d8cd9".toList)

/-- A frame without contents. -/
def frame (header : Bytes) : Bytes := header ++ List.replicate (128 - header.length) 0

def bulletin : Bytes := frame [83, 65, 67, 78]

def torn : Bytes := frame [255]

theorem completed_bulletin : completed [] (.data bulletin) = [bulletin] := by decide +kernel

theorem bulletin_headerOk : HeaderOk ascii bulletin := ⟨['S', 'A', 'C', 'N'], by decide +kernel⟩

theorem bulletin_calm : Calm ascii options plain 0 [bulletin] where
  postable i f there _ header _ := by
    have is : f = bulletin := List.mem_singleton.mp (List.mem_of_getElem? there)
    subst is
    have treated : treat ascii options (plain (0 + i)) (bulletin.drop sizeAM) (header.take 2) = ⟨[], false, false⟩ := by
      rw [show bulletin.drop sizeAM = [] from by decide +kernel]
      rfl
    rw [treated]
    exact ⟨[], _, _, _, rfl, rfl, rfl, rfl⟩
  header pre f post same good bad := by
    have is : f ∈ [bulletin] := same ▸ List.mem_append_right _ List.mem_cons_self
    exact absurd (List.mem_singleton.mp is ▸ bulletin_headerOk) bad

end Example
end Sarracenia.Guarantees.Am
