import Sarracenia.Guarantees.DiskQueue.Merge
import Sarracenia.Source.DiskQueue

/-!
# Disk queue: the invariant of its runs

A message that is owed is, while no process runs, in one of the two files, and in
the queue file alone when that is the newer one: start-up removes the other. While
a process runs it is ahead of the reader and unexpired, or in `.new`; the count is
at least what the reader has ahead, or the reader has nothing owed ahead. Each
operation keeps this, and so does each of its effects.
-/
namespace Sarracenia.Guarantees.DiskQueue
open Library Library.Text Library.Dynamic Library.FirstOfKey Source Source.DiskQueue

variable (c : Codec) (o : Options)

/-- A message that the queue can carry. -/
structure Good (message : Message) : Prop where
  tearable : Tearable c message
  handleable : Handleable c o message

/-- Every line of the file that reports anything is a message that the queue can
carry, and is counted. -/
structure SoundFile (file : File) : Prop where
  items : ∀ item ∈ openRead c file, ∃ message, item = .ok message ∧ Good c o message
  counted : ((openRead c file).length : Int) ≤ _count_msgs file

structure DiskSound (d : Disk) : Prop where
  queue : ∀ file ∈ d.queue_file, SoundFile c o file
  new : ∀ file ∈ d.new_path, SoundFile c o file
  queueTime : ∀ file ∈ d.queue_file, file.mtime < d.writes
  newTime : ∀ file ∈ d.new_path, file.mtime < d.writes

/-- What holds of the owed messages while no process runs. -/
structure DeadHolds (d : Disk) (owed : Message → Prop) : Prop where
  held : ∀ message, owed message → message ∈ stored c d
  merged : ∀ queue ∈ d.queue_file, ∀ new ∈ d.new_path, queue.mtime > new.mtime →
    ∀ message, owed message → message ∈ messages c d.queue_file

/-- What `get` has still to read. -/
def ahead (d : Disk) (m : Memory) : Reader := m.queue_fp.getD (readFile c d.queue_file)

/-- What holds of the owed messages while a process runs. -/
structure AliveHolds (d : Disk) (m : Memory) (owed : Message → Prop) : Prop where
  reader : ∀ fp, m.queue_fp = some fp → d.queue_file.isSome ∧ fp <:+ readFile c d.queue_file ∧
    m.msg_count ≠ 0
  newer : ∀ queue ∈ d.queue_file, ∀ new ∈ d.new_path, queue.mtime ≤ new.mtime
  held : ∀ message, owed message → (.ok message ∈ ahead c d m ∧ Fresh o m.now message) ∨
    message ∈ messages c d.new_path
  count : ((ahead c d m).length : Int) ≤ m.msg_count ∨
    m.msg_count = 0 ∧ m.queue_fp = none ∧ ∀ message, owed message → message ∈ messages c d.new_path

/-! ## Files -/

theorem openRead_append (s t : Str) (mtime first second : Nat) (ended : Ended s) :
    openRead c ⟨s ++ t, mtime⟩ = openRead c ⟨s, first⟩ ++ openRead c ⟨t, second⟩ := by
  simp only [openRead, lines_append s t ended, List.filterMap_append]

theorem count_append (s t : Str) (mtime first second : Nat) (ended : Ended s) :
    _count_msgs ⟨s ++ t, mtime⟩ = _count_msgs ⟨s, first⟩ + _count_msgs ⟨t, second⟩ := by
  simp only [_count_msgs, lines_append s t ended, List.filter_append, List.length_append,
    Nat.cast_add]

theorem SoundFile.append {s t : Str} {mtime first second : Nat} (left : SoundFile c o ⟨s, first⟩)
    (right : SoundFile c o ⟨t, second⟩) (ended : Ended s) : SoundFile c o ⟨s ++ t, mtime⟩ := by
  constructor
  · intro item member
    rw [openRead_append c s t mtime first second ended, List.mem_append] at member
    cases member with
    | inl early => exact left.items item early
    | inr late => exact right.items item late
  · rw [openRead_append c s t mtime first second ended, count_append s t mtime first second ended,
      List.length_append, Nat.cast_add]
    exact Int.add_le_add left.counted right.counted

/-- A batch of good messages, cut anywhere, is a sound file. -/
theorem SoundFile.cut {ms : List Message} (n mtime : Nat) (good : ∀ m ∈ ms, Good c o m) :
    SoundFile c o ⟨(text c ms).take n, mtime⟩ := by
  have read := openRead_take c n mtime ms fun m member => (good m member).tearable
  constructor
  · intro item member
    rw [read] at member
    obtain ⟨message, belongs, same⟩ := List.mem_map.mp member
    exact ⟨message, same.symm, good message ((reached_initial c n ms).subset belongs)⟩
  · rw [read, List.length_map]
    exact (cut_reached c n mtime ms fun m member => (good m member).tearable).2

theorem SoundFile.whole {ms : List Message} (mtime : Nat) (good : ∀ m ∈ ms, Good c o m) :
    SoundFile c o ⟨text c ms, mtime⟩ := by
  have cut := SoundFile.cut c o (text c ms).length mtime good
  rwa [List.take_length] at cut

/-- The items of a sound file are its messages, all of them good. -/
theorem sound_reader {file : Option File} (sound : ∀ f ∈ file, SoundFile c o f) :
    readFile c file = (messages c file).map .ok ∧ ∀ message ∈ messages c file, Good c o message := by
  have items : ∀ item ∈ readFile c file, ∃ message, item = .ok message ∧ Good c o message := by
    cases file with
    | none => exact fun item member => absurd member List.not_mem_nil
    | some f => exact (sound f rfl).items
  constructor
  · exact reader_eq_map _ fun item member => (items item member).imp fun _ h => h.1
  · intro message member
    obtain ⟨item, belongs, ok⟩ := List.mem_filterMap.mp member
    obtain ⟨other, rfl, good⟩ := items item belongs
    cases ok
    exact good

/-! ## Start-up and `put` -/

theorem DeadHolds.mono {d : Disk} {owed fewer : Message → Prop} (dead : DeadHolds c d owed)
    (less : ∀ message, fewer message → owed message) : DeadHolds c d fewer :=
  ⟨fun message belongs => dead.held message (less message belongs),
    fun queue hq new hn newer message belongs =>
      dead.merged queue hq new hn newer message (less message belongs)⟩

/-- What a running process relies on is on the disk when it dies. -/
theorem AliveHolds.dead {d : Disk} {m : Memory} {owed : Message → Prop}
    (alive : AliveHolds c o d m owed) : DeadHolds c d owed := by
  constructor
  · intro message belongs
    cases alive.held message belongs with
    | inr inNew => exact List.mem_append_right _ inNew
    | inl inQueue =>
      apply List.mem_append_left
      refine List.mem_filterMap.mpr ⟨.ok message, ?_, rfl⟩
      have before := inQueue.1
      unfold ahead at before
      cases held : m.queue_fp with
      | none => rwa [held] at before
      | some fp =>
        rw [held] at before
        exact (alive.reader fp held).2.1.subset before
  · intro queue hq new hn older
    exact absurd (alive.newer queue hq new hn) (Nat.not_le_of_lt older)

/-- What an operation keeps: what the disk and the memory it leaves hold, and what the
disk after each of its effects holds. -/
structure Keeps (d : Disk) (out : Outcome) (alive dying : Message → Prop) : Prop where
  sound : DiskSound c o (out.disk d)
  alive : AliveHolds c o (out.disk d) out.memory alive
  trail : ∀ after ∈ out.trail, DiskSound c o after ∧ DeadHolds c after dying

/-- Start-up removes `.new` where it is older than the queue file, and nothing else. -/
theorem start_disk (now : ℚ) (d : Disk) :
    ((start now d).trail = [] ∧ (start now d).disk d = d ∧
      ∀ queue ∈ d.queue_file, ∀ new ∈ d.new_path, queue.mtime ≤ new.mtime) ∨
    ((start now d).trail = [d.unlink_new] ∧ (start now d).disk d = d.unlink_new ∧
      ∃ queue ∈ d.queue_file, ∃ new ∈ d.new_path, queue.mtime > new.mtime) := by
  unfold start Outcome.disk
  cases queue : d.queue_file with
  | none => exact Or.inl ⟨rfl, rfl, by simp⟩
  | some q =>
    cases new : d.new_path with
    | none => exact Or.inl ⟨rfl, rfl, by simp⟩
    | some n =>
      dsimp only
      by_cases older : q.mtime > n.mtime
      · refine Or.inr ?_
        rw [if_pos older]
        exact ⟨rfl, rfl, q, rfl, n, rfl, older⟩
      · refine Or.inl ?_
        rw [if_neg older]
        refine ⟨rfl, rfl, ?_⟩
        intro a ha b hb
        cases ha
        cases hb
        exact Nat.le_of_not_lt older

theorem start_memory (now : ℚ) (d : Disk) : (start now d).memory.queue_fp = none ∧
    (start now d).memory.now = now ∧
      (start now d).memory.msg_count = d.queue_file.elim 0 _count_msgs := by
  unfold start
  cases d.queue_file with
  | none => exact ⟨rfl, rfl, rfl⟩
  | some q =>
    cases d.new_path with
    | none => exact ⟨rfl, rfl, rfl⟩
    | some n => by_cases older : q.mtime > n.mtime <;> simp [older]

theorem count_covers {file : Option File} (sound : ∀ f ∈ file, SoundFile c o f) :
    ((readFile c file).length : Int) ≤ file.elim 0 _count_msgs := by
  cases file with
  | none => exact Int.le_refl _
  | some f => exact (sound f rfl).counted

theorem mem_reader {file : Option File} (sound : ∀ f ∈ file, SoundFile c o f) {message : Message}
    (member : message ∈ messages c file) : .ok message ∈ readFile c file := by
  rw [(sound_reader c o sound).1]
  exact List.mem_map_of_mem member

theorem start_keeps (now : ℚ) {d : Disk} {owed : Message → Prop} (sound : DiskSound c o d)
    (dead : DeadHolds c d owed) :
    Keeps c o d (start now d) (fun message => owed message ∧ Fresh o now message) owed := by
  obtain ⟨closed, clock, count⟩ := start_memory now d
  have ready (after : Disk) (same : after.queue_file = d.queue_file)
      (newer : ∀ queue ∈ after.queue_file, ∀ new ∈ after.new_path, queue.mtime ≤ new.mtime)
      (held : ∀ message, owed message → message ∈ stored c after) :
      AliveHolds c o after (start now d).memory fun message => owed message ∧ Fresh o now message := by
    have whole : ahead c after (start now d).memory = readFile c d.queue_file := by
      rw [ahead, closed, Option.getD_none, same]
    refine ⟨fun fp open_ => ?_, newer, ?_, Or.inl ?_⟩
    · rw [closed] at open_
      cases open_
    · intro message belongs
      rw [whole, clock]
      refine (List.mem_append.mp (held message belongs.1)).imp (fun inQueue => ⟨?_, belongs.2⟩) id
      rw [same] at inQueue
      exact mem_reader c o sound.queue inQueue
    · rw [whole, count]
      exact count_covers c o sound.queue
  cases start_disk now d with
  | inl unchanged =>
    obtain ⟨trail, disk, newer⟩ := unchanged
    refine ⟨by rw [disk]; exact sound, ?_, by simp [trail]⟩
    rw [disk]
    exact ready d rfl newer dead.held
  | inr removed =>
    obtain ⟨trail, disk, queue, hq, new, hn, older⟩ := removed
    have merged := dead.merged queue hq new hn older
    have soundAfter : DiskSound c o d.unlink_new :=
      ⟨sound.queue, nofun, sound.queueTime, nofun⟩
    have held : ∀ message, owed message → message ∈ stored c d.unlink_new :=
      fun message belongs => List.mem_append_left _ (merged message belongs)
    refine ⟨by rw [disk]; exact soundAfter, ?_, ?_⟩
    · rw [disk]
      exact ready _ rfl nofun held
    · intro after member
      rw [trail, List.mem_singleton] at member
      subst member
      exact ⟨soundAfter, held, fun _ _ _ hn => nomatch hn⟩

theorem append_new_reads {d : Disk} {t : Str}
    (ended : t ≠ [] → Ended (d.new_path.elim [] File.text)) :
    readFile c (d.append_new t).new_path = readFile c d.new_path ++ openRead c ⟨t, 0⟩ := by
  unfold Disk.append_new
  by_cases nothing : t = []
  · subst nothing
    cases new : d.new_path with
    | none => rfl
    | some n =>
      have idle : (([] : Str).isEmpty && (some n).isSome) = true := rfl
      rw [if_pos idle, new]
      exact (List.append_nil _).symm
  · have grows : ¬ (t.isEmpty && d.new_path.isSome) = true := by simp [nothing]
    rw [if_neg grows]
    cases new : d.new_path with
    | none => exact openRead_append c [] t _ 0 0 (.inl rfl)
    | some n =>
      rw [new] at ended
      exact openRead_append c _ t _ n.mtime 0 (ended nothing)

/-- What appending a sound text to `.new` leaves, when the text there is ended. -/
theorem append_new_keeps {d : Disk} {t : Str} (sound : DiskSound c o d)
    (added : SoundFile c o ⟨t, 0⟩)
    (ended : t ≠ [] → Ended (d.new_path.elim [] File.text)) :
    DiskSound c o (d.append_new t) ∧ (d.append_new t).queue_file = d.queue_file ∧
      messages c (d.append_new t).new_path =
        messages c d.new_path ++ messages c (some ⟨t, 0⟩) ∧
      ((d.append_new t).new_path = d.new_path ∨
        ∀ new ∈ (d.append_new t).new_path, ∀ queue ∈ d.queue_file, queue.mtime ≤ new.mtime) := by
  have reads : messages c (d.append_new t).new_path =
      messages c d.new_path ++ messages c (some ⟨t, 0⟩) := by
    unfold messages
    rw [append_new_reads c ended, List.filterMap_append]
    rfl
  by_cases idle : (t.isEmpty && d.new_path.isSome) = true
  · have same : d.append_new t = d := by
      unfold Disk.append_new
      rw [if_pos idle]
    rw [same] at reads ⊢
    exact ⟨sound, rfl, reads, Or.inl rfl⟩
  · have grown : d.append_new t = { d with
        new_path := some ⟨d.new_path.elim [] File.text ++ t, d.writes⟩
        writes := d.writes + 1 } := by
      unfold Disk.append_new
      rw [if_neg idle]
    rw [grown] at reads ⊢
    have before : SoundFile c o ⟨d.new_path.elim [] File.text, 0⟩ ∧
        Ended (d.new_path.elim [] File.text) := by
      cases new : d.new_path with
      | none =>
        have nothing : SoundFile c o ⟨text c [], 0⟩ := SoundFile.whole c o 0 (by simp)
        exact ⟨nothing, Or.inl rfl⟩
      | some n =>
        have sn := sound.new n new
        rw [new] at ended idle
        refine ⟨⟨sn.items, sn.counted⟩, ended ?_⟩
        intro nothing
        rw [nothing] at idle
        exact idle rfl
    obtain ⟨left, isEnded⟩ := before
    refine ⟨⟨sound.queue, ?_, ?_, ?_⟩, rfl, reads, Or.inr ?_⟩
    · intro file new
      cases new
      exact left.append c o added isEnded
    · intro file queue
      exact Nat.lt_succ_of_lt (sound.queueTime file queue)
    · intro file new
      cases new
      exact Nat.lt_succ_self _
    · intro new hn queue hq
      cases hn
      exact Nat.le_of_lt (sound.queueTime queue hq)

/-- A running process and a sound text more in `.new`. -/
theorem append_new_alive {d : Disk} {m : Memory} {owed : Message → Prop} {t : Str} (more : Int)
    (sound : DiskSound c o d) (alive : AliveHolds c o d m owed) (added : SoundFile c o ⟨t, 0⟩)
    (ended : t ≠ [] → Ended (d.new_path.elim [] File.text)) :
    DiskSound c o (d.append_new t) ∧
      AliveHolds c o (d.append_new t) { m with msg_count_new := more }
        (fun message => owed message ∨ message ∈ messages c (some ⟨t, 0⟩)) := by
  obtain ⟨soundAfter, queue, new, time⟩ := append_new_keeps c o sound added ended
  have same : ahead c (d.append_new t) { m with msg_count_new := more } = ahead c d m := by
    unfold ahead
    rw [queue]
  refine ⟨soundAfter, ?_, ?_, ?_, ?_⟩
  · rw [queue]
    exact alive.reader
  · intro q hq n hn
    rw [queue] at hq
    cases time with
    | inl unchanged =>
      rw [unchanged] at hn
      exact alive.newer q hq n hn
    | inr later => exact later n hn q hq
  · intro message belongs
    rw [same, new]
    cases belongs with
    | inl old => exact (alive.held message old).imp id (List.mem_append_left _)
    | inr fresh => exact Or.inr (List.mem_append_right _ fresh)
  · rw [same, new]
    refine alive.count.imp id fun ⟨zero, closed, inNew⟩ => ⟨zero, closed, ?_⟩
    intro message belongs
    cases belongs with
    | inl old => exact List.mem_append_left _ (inNew message old)
    | inr fresh => exact List.mem_append_right _ fresh

theorem put_keeps (ms : List Message) {d : Disk} {m : Memory} {owed : Message → Prop}
    (sound : DiskSound c o d) (alive : AliveHolds c o d m owed) (good : ∀ x ∈ ms, Good c o x)
    (ended : ms ≠ [] → Ended (d.new_path.elim [] File.text)) :
    Keeps c o d (put c ms d m) (fun message => owed message ∨ message ∈ ms) owed := by
  have batch : messages c (some ⟨text c ms, 0⟩) = ms :=
    messages_text c 0 ms fun x member => (good x member).tearable.toLossless
  have some : text c ms ≠ [] → ms ≠ [] := by
    intro written empty
    rw [empty] at written
    exact written rfl
  obtain ⟨soundAfter, aliveAfter⟩ := append_new_alive c o (m.msg_count_new + ms.length) sound alive
    (SoundFile.whole c o 0 good) fun written => ended (some written)
  rw [batch] at aliveAfter
  refine ⟨soundAfter, aliveAfter, ?_⟩
  intro after member
  rw [List.mem_singleton.mp member]
  exact ⟨soundAfter, aliveAfter.dead.mono c fun _ => Or.inl⟩

/-! ## `get` -/

/-- What stays owed when `get` has returned these messages. -/
def notReturned (owed : Message → Prop) (ml : List Message) (message : Message) : Prop :=
  owed message ∧ released message ∉ ml

theorem AliveHolds.mono {d : Disk} {m : Memory} {owed fewer : Message → Prop}
    (alive : AliveHolds c o d m owed) (less : ∀ message, fewer message → owed message) :
    AliveHolds c o d m fewer :=
  ⟨alive.reader, alive.newer, fun message belongs => alive.held message (less message belongs),
    alive.count.imp id fun ⟨zero, closed, inNew⟩ =>
      ⟨zero, closed, fun message belongs => inNew message (less message belongs)⟩⟩

theorem ahead_suffix {d : Disk} {m : Memory} {owed : Message → Prop}
    (alive : AliveHolds c o d m owed) : ahead c d m <:+ readFile c d.queue_file := by
  unfold ahead
  cases held : m.queue_fp with
  | none => exact List.suffix_refl _
  | some fp => exact (alive.reader fp held).2.1

/-- What is ahead of the reader are good messages. -/
theorem ahead_good {d : Disk} {m : Memory} {owed : Message → Prop} (sound : DiskSound c o d)
    (alive : AliveHolds c o d m owed) :
    ∃ ms : List Message, ahead c d m = ms.map .ok ∧ ∀ message ∈ ms, Good c o message := by
  obtain ⟨items, good⟩ := sound_reader c o sound.queue
  have suffix := ahead_suffix c o alive
  have ok : ∀ item ∈ ahead c d m, ∃ message, item = .ok message ∧ Good c o message := by
    intro item member
    have among := suffix.subset member
    rw [items] at among
    obtain ⟨message, belongs, same⟩ := List.mem_map.mp among
    exact ⟨message, same.symm, good message belongs⟩
  refine ⟨_, reader_eq_map _ fun item member => (ok item member).imp fun _ h => h.1, ?_⟩
  intro message member
  obtain ⟨item, belongs, same⟩ := List.mem_filterMap.mp member
  obtain ⟨other, rfl, isGood⟩ := ok item belongs
  cases same
  exact isGood

theorem mem_releasedFresh {now : ℚ} {ms : List Message} {message : Message} (member : message ∈ ms)
    (fresh : Fresh o now message) : released message ∈ releasedFresh o now ms :=
  List.mem_map_of_mem (List.mem_filter.mpr ⟨member, by simpa using fresh⟩)

/-- A reader that has come to its end: the queue file is removed, and what is still
owed is in `.new`. -/
theorem drained_holds {d : Disk} {m : Memory} {owed : Message → Prop} {ms ml : List Message}
    (sound : DiskSound c o d) (alive : AliveHolds c o d m owed) (all : ahead c d m = ms.map .ok)
    (returned : ml = releasedFresh o m.now ms) :
    let out : Outcome := ⟨if d.queue_file.isSome then [d.unlink_queue] else [],
      { m with queue_fp := none, msg_count := 0 }, ml, false⟩
    DiskSound c o (out.disk d) ∧ AliveHolds c o (out.disk d) out.memory (notReturned owed ml) := by
  have inNew : ∀ message, notReturned owed ml message → message ∈ messages c d.new_path := by
    rintro message ⟨belongs, out⟩
    refine (alive.held message belongs).resolve_left fun ⟨before, fresh⟩ => out ?_
    rw [all, List.mem_map] at before
    obtain ⟨other, member, same⟩ := before
    cases same
    rw [returned]
    exact mem_releasedFresh o member fresh
  intro out
  have gone : out.disk d = d.unlink_queue := by
    unfold out Outcome.disk
    cases queue : d.queue_file with
    | some q => rfl
    | none =>
      obtain ⟨queue_file, new_path, housekeeping_path, writes⟩ := d
      cases queue
      rfl
  rw [gone]
  exact ⟨⟨nofun, sound.new, nofun, sound.newTime⟩, nofun, nofun,
    fun message belongs => Or.inr (inNew message belongs), Or.inr ⟨rfl, rfl, inNew⟩⟩

/-- A reader that has not come to its end goes on after what was taken. -/
theorem partway_holds {d : Disk} {m : Memory} {owed : Message → Prop} {taken rest : List Message}
    {msg_count : Int} (alive : AliveHolds c o d m owed)
    (all : ahead c d m = (taken ++ rest).map .ok) (count : (rest.length : Int) ≤ msg_count)
    (more : msg_count ≠ 0) :
    AliveHolds c o d { m with
        queue_fp := if taken = [] then m.queue_fp else some (rest.map .ok)
        msg_count := msg_count }
      (notReturned owed (releasedFresh o m.now taken)) := by
  have left : ahead c d { m with
      queue_fp := if taken = [] then m.queue_fp else some (rest.map .ok)
      msg_count := msg_count } = rest.map .ok := by
    unfold ahead
    dsimp only
    split
    · next none =>
      rw [none, List.nil_append] at all
      exact all
    · rfl
  refine ⟨?_, alive.newer, ?_, Or.inl ?_⟩
  · intro fp held
    dsimp only at held
    split at held
    · obtain ⟨isFile, suffix, _⟩ := alive.reader fp held
      exact ⟨isFile, suffix, more⟩
    · next some =>
      cases held
      have suffix : rest.map Except.ok <:+ readFile c d.queue_file := by
        refine List.IsSuffix.trans ?_ (ahead_suffix c o alive)
        rw [all, List.map_append]
        exact List.suffix_append _ _
      refine ⟨?_, suffix, more⟩
      cases queue : d.queue_file with
      | some q => rfl
      | none =>
        have whole := ahead_suffix c o alive
        rw [queue, all] at whole
        have empty := List.suffix_nil.mp whole
        rw [List.map_eq_nil_iff, List.append_eq_nil_iff] at empty
        exact absurd empty.1 some
  · rintro message ⟨belongs, out⟩
    rw [left]
    refine (alive.held message belongs).imp (fun ⟨before, fresh⟩ => ⟨?_, fresh⟩) id
    rw [all, List.map_append, List.mem_append] at before
    refine before.resolve_left fun early => out ?_
    obtain ⟨other, member, same⟩ := List.mem_map.mp early
    cases same
    exact mem_releasedFresh o member fresh
  · rw [left, List.length_map]
    exact count

theorem get_keeps (maximum : Int) {d : Disk} {m : Memory} {owed : Message → Prop}
    (sound : DiskSound c o d) (alive : AliveHolds c o d m owed) :
    DiskSound c o ((get c o maximum d m).disk d) ∧
      AliveHolds c o ((get c o maximum d m).disk d) (get c o maximum d m).memory
        (notReturned owed (get c o maximum d m).returned) := by
  unfold Source.DiskQueue.get
  by_cases idle : m.msg_count = 0 ∧ m.queue_fp.isNone
  · rw [if_pos idle]
    exact ⟨sound, alive.mono c o fun _ h => h.1⟩
  · rw [if_neg idle]
    obtain ⟨ms, all, good⟩ := ahead_good c o sound alive
    have count : (ms.length : Int) ≤ m.msg_count := by
      have bound := alive.count.resolve_right fun ⟨zero, closed, _⟩ =>
        idle ⟨zero, by rw [closed]; rfl⟩
      rwa [all, List.length_map] at bound
    have takes := getLoop_takes c o m.now maximum ms m.queue_fp [] m.msg_count
      fun message member => (good message member).handleable
    have fp : m.queue_fp.getD (d.queue_file.elim [] (openRead c)) = ms.map .ok := all
    dsimp only
    rw [fp]
    generalize getLoop o m.now maximum (ms.map .ok) m.queue_fp [] m.msg_count = got at takes
    cases takes with
    | finished => exact drained_holds c o sound alive all (List.nil_append _)
    | enough taken rest split full =>
      dsimp only
      rw [List.nil_append]
      by_cases last : m.msg_count - taken.length = 0
      · rw [if_pos last]
        have none : rest = [] := by
          have width := congrArg List.length split
          rw [List.length_append] at width
          exact List.length_eq_zero_iff.mp (by omega)
        rw [none, List.append_nil] at split
        rw [← split]
        exact drained_holds c o sound alive all rfl
      · rw [if_neg last]
        rw [split, List.length_append] at count
        rw [split] at all
        exact ⟨sound, partway_holds c o alive all (by omega) last⟩

/-! ## Housekeeping -/

/-- What stays owed when housekeeping has gone through the files: nothing expired and
nothing that another stored message duplicates. -/
def notDropped (now : ℚ) (d : Disk) (m : Memory) (owed : Message → Prop) (message : Message) : Prop :=
  owed message ∧
    (still_retrying d m = false → Fresh o now message ∧ Alone c (stored c d) message)

/-- The same queue file and `.new`, perhaps later. -/
def SameFiles (d after : Disk) : Prop :=
  after.queue_file = d.queue_file ∧ after.new_path = d.new_path ∧ d.writes ≤ after.writes

theorem sameFiles_holds {d after : Disk} {m : Memory} {owed : Message → Prop}
    (sound : DiskSound c o d) (alive : AliveHolds c o d m owed) (same : SameFiles d after) :
    DiskSound c o after ∧ DeadHolds c after owed := by
  obtain ⟨queue, new, later⟩ := same
  constructor
  · refine ⟨?_, ?_, ?_, ?_⟩
    · rw [queue]
      exact sound.queue
    · rw [new]
      exact sound.new
    · rw [queue]
      exact fun file h => Nat.lt_of_lt_of_le (sound.queueTime file h) later
    · rw [new]
      exact fun file h => Nat.lt_of_lt_of_le (sound.newTime file h) later
  · have dead := alive.dead c o
    constructor
    · unfold stored
      rw [queue, new]
      exact dead.held
    · rw [queue, new]
      exact dead.merged

theorem housekeeping_idle {d : Disk} {m : Memory} {owed : Message → Prop}
    (alive : AliveHolds c o d m owed) (idle : still_retrying d m = false) :
    m.queue_fp = none ∧ m.msg_count = 0 ∧
      ∀ message, owed message → message ∈ messages c d.new_path := by
  unfold still_retrying at idle
  rw [Bool.or_eq_false_iff, bne_eq_false_iff_eq] at idle
  have closed : m.queue_fp = none := by
    cases held : m.queue_fp with
    | none => rfl
    | some fp => exact absurd idle.2 (alive.reader fp held).2.2
  refine ⟨closed, idle.2, ?_⟩
  cases alive.count with
  | inr inNew => exact inNew.2.2
  | inl bound =>
    rw [idle.2] at bound
    have none : ahead c d m = [] := List.length_eq_zero_iff.mp (by omega)
    intro message belongs
    refine (alive.held message belongs).resolve_left fun before => ?_
    rw [none] at before
    exact List.not_mem_nil before.1

theorem sound_allHandled {d : Disk} (now : ℚ) (sound : DiskSound c o d) : AllHandled c o now d := by
  have items (file : Option File) (ok : ∀ f ∈ file, SoundFile c o f) :
      ∀ item ∈ readFile c file, ∃ message, item = .ok message ∧ Handled c o now message := by
    obtain ⟨all, good⟩ := sound_reader c o ok
    intro item member
    rw [all] at member
    obtain ⟨message, belongs, same⟩ := List.mem_map.mp member
    exact ⟨message, same.symm, (good message belongs).handleable.handled now⟩
  intro item member
  cases List.mem_append.mp member with
  | inl inQueue => exact items _ sound.queue item inQueue
  | inr inNew => exact items _ sound.new item inNew

theorem stored_good {d : Disk} (sound : DiskSound c o d) : ∀ message ∈ stored c d, Good c o message := by
  intro message member
  cases List.mem_append.mp member with
  | inl inQueue => exact (sound_reader c o sound.queue).2 message inQueue
  | inr inNew => exact (sound_reader c o sound.new).2 message inNew

/-- The last two effects: the merged file takes the place of the queue file, unless it
is empty, and `.new` is removed. -/
theorem moved_holds {now : ℚ} {closed : Disk} {mtime : Nat} {kept : List Message}
    {owed : Message → Prop} (sound : DiskSound c o closed) (dead : DeadHolds c closed owed)
    (merged : closed.housekeeping_path = some ⟨text c kept, mtime⟩) (time : mtime < closed.writes)
    (good : ∀ message ∈ kept, Good c o message) (survives : ∀ message, owed message → message ∈ kept)
    (fresh : ∀ message, owed message → Fresh o now message) :
    let moved := if kept.length = 0 then closed.unlink_housekeeping else closed.rename_housekeeping
    (DiskSound c o moved ∧ DeadHolds c moved owed) ∧
      (DiskSound c o moved.unlink_new ∧ DeadHolds c moved.unlink_new owed) ∧
      AliveHolds c o moved.unlink_new ⟨none, kept.length, 0, now⟩ owed := by
  by_cases nothing : kept.length = 0
  · have none : ∀ message, ¬ owed message := by
      intro message belongs
      rw [List.length_eq_zero_iff.mp nothing] at survives
      exact List.not_mem_nil (survives message belongs)
    rw [if_pos nothing, nothing]
    exact ⟨⟨⟨sound.queue, sound.new, sound.queueTime, sound.newTime⟩, dead.held, dead.merged⟩,
      ⟨⟨sound.queue, nofun, sound.queueTime, nofun⟩, fun message belongs => absurd belongs (none message),
        (fun _ _ _ hn => nomatch hn)⟩,
      ⟨nofun, (fun _ _ _ hn => nomatch hn), fun message belongs => absurd belongs (none message),
        Or.inr ⟨rfl, rfl, fun message belongs => absurd belongs (none message)⟩⟩⟩
  · rw [if_neg nothing]
    have queue : closed.rename_housekeeping.queue_file = some ⟨text c kept, mtime⟩ := merged
    have file := SoundFile.whole c o mtime good
    have read := messages_text c mtime kept fun message member =>
      (good message member).tearable.toLossless
    have items : readFile c closed.rename_housekeeping.queue_file = kept.map .ok := by
      rw [queue]
      exact openRead_text c mtime kept fun message member =>
        (good message member).tearable.toLossless
    have inQueue : ∀ message, owed message →
        message ∈ messages c closed.rename_housekeeping.queue_file := by
      intro message belongs
      rw [queue, read]
      exact survives message belongs
    have queueSound : ∀ f ∈ closed.rename_housekeeping.queue_file, SoundFile c o f := by
      rw [queue]
      intro f same
      cases same
      exact file
    have queueTime : ∀ f ∈ closed.rename_housekeeping.queue_file, f.mtime < closed.writes := by
      rw [queue]
      intro f same
      cases same
      exact time
    have whole : ahead c closed.rename_housekeeping.unlink_new ⟨none, kept.length, 0, now⟩ =
        kept.map .ok := items
    refine ⟨⟨⟨queueSound, sound.new, queueTime, sound.newTime⟩, ?_, ?_⟩,
      ⟨⟨queueSound, nofun, queueTime, nofun⟩, ?_, (fun _ _ _ hn => nomatch hn)⟩,
      ⟨nofun, (fun _ _ _ hn => nomatch hn), ?_, Or.inl ?_⟩⟩
    · exact fun message belongs => List.mem_append_left _ (inQueue message belongs)
    · exact fun _ _ _ _ _ message belongs => inQueue message belongs
    · exact fun message belongs => List.mem_append_left _ (inQueue message belongs)
    · intro message belongs
      rw [whole]
      exact Or.inl ⟨List.mem_map_of_mem (survives message belongs), fresh message belongs⟩
    · rw [whole, List.length_map]

theorem on_housekeeping_keeps (now : ℚ) (spilled : Nat) {d : Disk} {m : Memory}
    {owed : Message → Prop} (sound : DiskSound c o d) (alive : AliveHolds c o d m owed) :
    Keeps c o d (on_housekeeping c o ⟨none, spilled⟩ now d m) (notDropped c o now d m owed)
      (notDropped c o now d m owed) := by
  have less : ∀ message, notDropped c o now d m owed message → owed message := fun _ h => h.1
  cases idle : still_retrying d m with
  | true =>
    unfold on_housekeeping
    rw [idle]
    exact ⟨sound, alive.mono c o less, by simp⟩
  | false =>
    obtain ⟨closed, zero, inNew⟩ := housekeeping_idle c o alive idle
    have result : written ⟨none, spilled⟩ (mergeFiles c o now ⟨none, spilled⟩ d) = _ :=
      mergeFiles_handled c o (sound_allHandled c o now sound) rfl
    unfold on_housekeeping
    rw [idle, result]
    have good : ∀ message ∈ survivors c o now [] (stored c d), Good c o message :=
      fun message member => stored_good c o sound message
        ((survivors_sublist c o now [] (stored c d)).subset member)
    have survives : ∀ message, notDropped c o now d m owed message →
        message ∈ survivors c o now [] (stored c d) := by
      rintro message ⟨belongs, kept⟩
      obtain ⟨fresh, alone⟩ := kept idle
      exact alone_survives c o (List.mem_append_right _ (inNew message belongs)) fresh alone
    have fresh : ∀ message, notDropped c o now d m owed message → Fresh o now message :=
      fun message belongs => (belongs.2 idle).1
    generalize survivors c o now [] (stored c d) = kept at good survives
    have quiet (after : Disk) (same : SameFiles d after) :
        DiskSound c o after ∧ DeadHolds c after (notDropped c o now d m owed) :=
      sameFiles_holds c o sound (alive.mono c o less) same
    obtain ⟨removed, made⟩ : SameFiles d d.unlink_housekeeping ∧
        SameFiles d (d.unlink_housekeeping.write_housekeeping []) :=
      ⟨⟨rfl, rfl, Nat.le_refl _⟩, rfl, rfl, Nat.le_succ _⟩
    have grows : ∀ after ∈ growing (text c kept) (d.unlink_housekeeping.write_housekeeping []),
        SameFiles d after := by
      intro after member
      obtain ⟨n, _, rfl⟩ := List.mem_map.mp member
      exact ⟨rfl, rfl, Nat.le_trans made.2.2 (Nat.le_add_right _ (n + 1))⟩
    have closedFile := growing_last (text c kept) (d.unlink_housekeeping.write_housekeeping [])
    have last := grows _ (List.mem_of_getLast? closedFile)
    have final := moved_holds c o (quiet _ last).1 (quiet _ last).2 rfl (Nat.lt_succ_self _) good
      survives fresh
    simp only [Bool.false_eq_true, if_false, closedFile, Option.getD_some]
    generalize (if kept.length = 0 then _ else _ : Disk) = moved at final ⊢
    obtain ⟨movedHolds, endHolds, aliveHolds⟩ := final
    have disk (mem : Memory) : Outcome.disk d ⟨d.unlink_housekeeping ::
        d.unlink_housekeeping.write_housekeeping [] ::
          growing (text c kept) (d.unlink_housekeeping.write_housekeeping []) ++
            [moved, moved.unlink_new], mem, [], false⟩ = moved.unlink_new := by
      simp [Outcome.disk, List.getLast?_cons, List.getLast?_append]
    refine ⟨?_, ?_, ?_⟩
    · rw [disk]
      exact endHolds.1
    · rw [disk]
      exact aliveHolds
    · intro after member
      simp only [List.cons_append, List.mem_cons, List.mem_append, List.not_mem_nil, or_false] at member
      rcases member with rfl | rfl | grown | rfl | rfl
      · exact quiet _ removed
      · exact quiet _ made
      · exact quiet _ (grows after grown)
      · exact movedHolds
      · exact endHolds

end Sarracenia.Guarantees.DiskQueue
