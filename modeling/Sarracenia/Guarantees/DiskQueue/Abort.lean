import Sarracenia.Guarantees.DiskQueue.Merge

/-!
# Disk queue: housekeeping that raises

An exception in the middle of the merge is swallowed, and the files are then
renamed and removed as if the merge had ended. What is lost depends on where it
was raised (`on_housekeeping_atomic_iff`): where nothing had been written the
queue file stays and `.new` is lost whole; otherwise the queue is what had been
written before, as far as it had left the buffer.
-/
namespace Sarracenia.Guarantees.DiskQueue
open Library Library.Text Library.Dynamic Library.FirstOfKey Source Source.DiskQueue

variable (c : Codec) (o : Options)

/-- Why the loop goes no further with what it has done, and the message it was
handling, if it was handling one. -/
inductive Stops (now : ℚ) (io : Failure) (done : Merge) : Reader → Option Message → Prop where
  | decoding (e : Fault) (rest : Reader) : Stops now io done (.error e :: rest) none
  | handling (message : Message) (e : Fault) (rest : Reader)
      (raises : needs_requeuing c o now done.retry_cache message = .error e) :
      Stops now io done (.ok message :: rest) (some message)
  | writing (message : Message) (seen : List Str) (rest : Reader)
      (passes : needs_requeuing c o now done.retry_cache message = .ok (true, seen))
      (fails : io.failing = some done.written.length) :
      Stops now io done (.ok message :: rest) (some message)
  | closing (fails : io.failing = some done.written.length) : Stops now io done [] none

/-- Housekeeping goes through the messages `before`, and then an exception is raised. -/
def RaisesAfter (now : ℚ) (io : Failure) (d : Disk) (before : List Message)
    (culprit : Option Message) : Prop :=
  ∃ rest done, visited c d = before.map .ok ++ rest ∧
    merge c o now io (before.map .ok) ⟨[], [], []⟩ = .ok done ∧ Stops c o now io done rest culprit

/-- Parseable, not expired, with a key that can be computed and that no other stored
message has. -/
structure Sound (now : ℚ) (d : Disk) (message : Message) : Prop where
  isStored : message ∈ stored c d
  fresh : Fresh o now message
  computed : ∃ key, cache_key c message = .ok key
  alone : Alone c (stored c d) message

/-- Every other message that can be retrieved before can be retrieved afterwards. -/
def Atomic (now : ℚ) (d after : Disk) (culprit : Option Message) : Prop :=
  ∀ message, Sound c o now d message → some message ≠ culprit → message ∈ stored c after

theorem visited_nonempty {d : Disk} {message : Message} (member : .ok message ∈ visited c d) :
    message.isEmpty = false := by
  cases List.mem_append.mp member with
  | inl inQueue => exact through_nonempty inQueue
  | inr inNew => exact through_nonempty inNew

theorem mem_visited {d : Disk} {message : Message} (member : .ok message ∈ visited c d) :
    message ∈ stored c d := by
  have kept (file : Option File) (member : .ok message ∈ through (readFile c file)) :
      message ∈ messages c file :=
    List.mem_filterMap.mpr ⟨_, (List.takeWhile_sublist _).subset member, rfl⟩
  cases List.mem_append.mp member with
  | inl inQueue => exact List.mem_append_left _ (kept _ inQueue)
  | inr inNew => exact List.mem_append_right _ (kept _ inNew)

/-- A loop that stops leaves what had been written, and the text of a write that failed. -/
theorem stops_error {now : ℚ} {io : Failure} {done : Merge} {rest : Reader}
    {culprit : Option Message} (stops : Stops c o now io done rest culprit)
    (nonempty : ∀ message, .ok message ∈ rest.head? → message.isEmpty = false) :
    ∃ extra : List Message, (∀ message ∈ extra, culprit = some message ∧ .ok message ∈ rest) ∧
      (merge c o now io rest done >>= fun done =>
        if io.failing = some done.written.length then .error done else .ok done) =
        .error { done with text := done.text ++ text c extra } := by
  have same : { done with text := done.text ++ text c [] } = done := by
    simp [text]
  cases stops with
  | decoding e rest =>
    refine ⟨[], by simp, ?_⟩
    rw [same]
    rfl
  | handling message e rest raises =>
    refine ⟨[], by simp, ?_⟩
    rw [same, merge, nonempty message rfl, raises]
    rfl
  | writing message seen rest passes fails =>
    refine ⟨[message], by simp, ?_⟩
    rw [merge, nonempty message rfl, passes]
    simp only [Bool.false_eq_true, if_false, if_pos fails]
    simp [text, bind, Except.bind]
  | closing fails =>
    refine ⟨[], by simp, ?_⟩
    rw [same]
    simp [merge, bind, Except.bind, fails]

/-- Either the loop stops on the way, or it gets to the end of what it goes through. -/
theorem merge_split (now : ℚ) (io : Failure) (fp : Reader) (done : Merge)
    (nonempty : ∀ message, .ok message ∈ fp → message.isEmpty = false) :
    ∃ (before : List Message) (rest : Reader) (after : Merge), fp = before.map .ok ++ rest ∧
      merge c o now io (before.map .ok) done = .ok after ∧
        (rest = [] ∨ ∃ culprit, Stops c o now io after rest culprit) := by
  induction fp generalizing done with
  | nil => exact ⟨[], [], done, rfl, rfl, Or.inl rfl⟩
  | cons item fp ih =>
    have tail := fun message member => nonempty message (List.mem_cons_of_mem item member)
    cases item with
    | error e => exact ⟨[], _, done, rfl, rfl, Or.inr ⟨none, .decoding e fp⟩⟩
    | ok message =>
      have full := nonempty message List.mem_cons_self
      cases passes : needs_requeuing c o now done.retry_cache message with
      | error e => exact ⟨[], _, done, rfl, rfl, Or.inr ⟨some message, .handling message e fp passes⟩⟩
      | ok result =>
        obtain ⟨requeue, seen⟩ := result
        by_cases fails : requeue = true ∧ io.failing = some done.written.length
        · rw [fails.1] at passes
          exact ⟨[], _, done, rfl, rfl, Or.inr ⟨some message, .writing message seen fp passes fails.2⟩⟩
        · -- the message passes, so the loop goes on with what it leaves
          have step : ∃ next, ∀ rest, merge c o now io (.ok message :: rest) done =
              merge c o now io rest next := by
            cases requeue with
            | false => exact ⟨_, fun rest => by rw [merge, full, passes]; rfl⟩
            | true =>
              refine ⟨⟨seen, done.written ++ [message], done.text ++ msgToJSON c message⟩, ?_⟩
              intro rest
              rw [merge, full, passes]
              simp only [Bool.false_eq_true, if_false]
              rw [if_neg fun h => fails ⟨rfl, h⟩]
          obtain ⟨next, step⟩ := step
          obtain ⟨before, rest, after, split, run, stop⟩ := ih next tail
          refine ⟨message :: before, rest, after, by rw [split]; rfl, ?_, stop⟩
          rw [List.map_cons, step, run]

/-- An exception is raised exactly when the loops stop somewhere. -/
theorem raises_iff (now : ℚ) (io : Failure) (d : Disk) :
    (∃ done, mergeFiles c o now io d = .error done) ↔
      ∃ before culprit, RaisesAfter c o now io d before culprit := by
  constructor
  · rintro ⟨failed, raised⟩
    obtain ⟨before, rest, done, split, run, stop⟩ :=
      merge_split c o now io (visited c d) ⟨[], [], []⟩ fun _ => visited_nonempty c
    cases stop with
    | inr stop =>
      obtain ⟨culprit, stops⟩ := stop
      exact ⟨before, culprit, rest, done, split, run, stops⟩
    | inl finished =>
      rw [mergeFiles_eq, split, finished, List.append_nil, run] at raised
      by_cases fails : io.failing = some done.written.length
      · exact ⟨before, none, [], done, by rw [split, finished], run, .closing fails⟩
      · simp [bind, Except.bind, fails] at raised
  · rintro ⟨before, culprit, rest, done, split, run, stops⟩
    obtain ⟨extra, _, stop⟩ := stops_error c o stops fun message member =>
      visited_nonempty c (by rw [split]; exact List.mem_append_right _ (List.mem_of_mem_head? member))
    refine ⟨{ done with text := done.text ++ text c extra }, ?_⟩
    rw [mergeFiles_eq, split, merge_bind, run]
    · exact stop
    · intro message member
      apply visited_nonempty c (d := d)
      rw [split]
      exact List.mem_append_left _ member

/-- What is written by a housekeeping that raises: the survivors of the messages that
came before, and no more of their text than had reached the disk. -/
theorem raises_written {now : ℚ} {io : Failure} {d : Disk} {before : List Message}
    {culprit : Option Message} (raises : RaisesAfter c o now io d before culprit) :
    ∃ extra : List Message, (∀ message ∈ extra, culprit = some message ∧ message ∈ stored c d) ∧
      written io (mergeFiles c o now io d) = (survivors c o now [] before,
        (text c (survivors c o now [] before ++ extra)).take io.spilled) := by
  obtain ⟨rest, done, split, run, stops⟩ := raises
  have early : ∀ message, .ok message ∈ before.map Except.ok → message.isEmpty = false :=
    fun message member => visited_nonempty c (d := d) (by
      rw [split]
      exact List.mem_append_left _ member)
  obtain ⟨writes, texts⟩ := merge_ok c o
    (fun message member => early message (List.mem_map_of_mem member)) run
  obtain ⟨extra, isCulprit, stop⟩ := stops_error c o stops fun message member =>
    visited_nonempty c (by rw [split]; exact List.mem_append_right _ (List.mem_of_mem_head? member))
  refine ⟨extra, fun message member => ⟨(isCulprit message member).1, ?_⟩, ?_⟩
  · apply mem_visited
    rw [split]
    exact List.mem_append_right _ (isCulprit message member).2
  · rw [mergeFiles_eq, split, merge_bind c o now io _ _ _ early, run]
    change written io (merge c o now io rest done >>= fun done => _) = _
    rw [stop]
    simp only [written, writes, texts, List.nil_append, text, List.flatMap_append]

theorem before_stored {now : ℚ} {io : Failure} {d : Disk} {before : List Message}
    {culprit : Option Message} (raises : RaisesAfter c o now io d before culprit) :
    ∀ message ∈ before, message ∈ stored c d := by
  obtain ⟨rest, done, split, _⟩ := raises
  intro message member
  apply mem_visited
  rw [split]
  exact List.mem_append_left _ (List.mem_map_of_mem member)

theorem reached_append (n : Nat) (ms extra : List Message) :
    ∃ more, reached c n (ms ++ extra) = reached c n ms ++ more ∧ ∀ message ∈ more, message ∈ extra := by
  induction ms generalizing n with
  | nil => exact ⟨reached c n extra, rfl, (reached_initial c n extra).subset⟩
  | cons message ms ih =>
    rw [List.cons_append, reached, reached]
    split
    · obtain ⟨more, shape, fromExtra⟩ := ih (n - ((c.encode message).length + 1))
      exact ⟨more, by rw [shape, List.cons_append], fromExtra⟩
    · exact ⟨[], by rw [List.append_nil], by simp⟩

/-- A notice without `baseUrl`: its cache key cannot be built. -/
def keylessNotice : Message :=
  [("relPath", .str "a".toList), ("pubTime", .str "20200101T000000".toList)]

def soundNotice : Message :=
  [("baseUrl", .str "http://host".toList), ("relPath", .str "b".toList),
    ("pubTime", .str "20200101T000000".toList)]

def poisonCodec : Codec := plainCodec [keylessNotice, soundNotice]

def poisonFirst : Disk := ⟨none, some ⟨text poisonCodec [keylessNotice, soundNotice], 0⟩, none, 1⟩

theorem poison_tearable : ∀ message ∈ [keylessNotice, soundNotice], Tearable poisonCodec message := by
  intro message member
  have distinct : DistinctKeys (fun message => some (messageText message))
      [keylessNotice, soundNotice] := by
    unfold DistinctKeys
    decide +kernel
  refine plainCodec_tearable _ message member distinct ?_ ?_ ?_ <;>
    (revert message; decide +kernel)

theorem poisonFirst_stored : stored poisonCodec poisonFirst = [keylessNotice, soundNotice] := by
  unfold stored poisonFirst
  rw [messages_text poisonCodec 0 _ fun m member => (poison_tearable m member).toLossless]
  rfl

theorem poisonFirst_raises (io : Failure) :
    RaisesAfter poisonCodec ⟨none⟩ 0 io poisonFirst [] (some keylessNotice) := by
  have items : visited poisonCodec poisonFirst = [keylessNotice, soundNotice].map .ok := by
    simp only [visited, poisonFirst, readFile, Option.elim,
      openRead_text poisonCodec 0 _ fun m member => (poison_tearable m member).toLossless]
    rfl
  refine ⟨_, ⟨[], [], []⟩, items, rfl, ?_⟩
  exact .handling keylessNotice .keyError _ rfl

theorem soundNotice_sound : Sound poisonCodec ⟨none⟩ 0 poisonFirst soundNotice := by
  refine ⟨by rw [poisonFirst_stored]; simp, rfl, ⟨_, rfl⟩, ?_⟩
  intro key same
  have other : keyOf poisonCodec keylessNotice = none := rfl
  rw [poisonFirst_stored]
  simp [other, same]

end Sarracenia.Guarantees.DiskQueue
