import Mathlib.Data.List.Induction
import Sarracenia.Guarantees.DiskQueue.Invariant

/-!
# Disk queue: runs with crashes

A run is any sequence of operations, of deaths between two effects and of torn
writes, from a directory without files. A message is owed from the `put` that
stored it until `get` returns it, housekeeping finds it expired or duplicated, or
start-up finds it expired. Owed messages survive every run in which the messages
can be handled, no process dies in `get` after the queue file is removed, and
nothing is appended behind a torn line (`run_holds`); two `get` with a
housekeeping between them return each of them (`drain_returns`).
-/
namespace Sarracenia.Guarantees.DiskQueue
open Library Library.Text Library.Dynamic Library.FirstOfKey Source Source.DiskQueue

variable (c : Codec) (o : Options)

/-- What is owed after an event, given what was owed before it. -/
def owes (s : State) (owed : Message → Prop) (event : Event) : Message → Prop :=
  match event, s.process with
  | .run (.start now), _ => fun message => owed message ∧ Fresh o now message
  | .run (.put ms), some _ => fun message => owed message ∨ message ∈ ms
  | .run (.get _), some _ => notReturned owed (step c o s event).2
  | .run (.on_housekeeping now _), some m => notDropped c o now s.disk m owed
  | .die (.on_housekeeping now _) _, some m => notDropped c o now s.disk m owed
  | .tear ms bytes, some _ => fun message => owed message ∨ message ∈ reached c bytes ms
  | _, _ => owed

/-- The messages added can be carried, and no process dies in `get` between the
removal of the queue file and the return. -/
def Orderly (s : State) : Event → Prop
  | .run (.put ms) => ∀ message ∈ ms, Good c o message
  | .die (.put ms) _ => ∀ message ∈ ms, Good c o message
  | .tear ms _ => ∀ message ∈ ms, Good c o message
  | .die (.get maximum) effects =>
    ∀ out ∈ perform c o s (.get maximum), out.diskAfter s.disk effects = s.disk
  | _ => True

/-- `.new` does not end within a line when something is appended to it. -/
def AtBoundary (s : State) : Event → Prop
  | .run (.put ms) => ms ≠ [] → Ended (s.disk.new_path.elim [] File.text)
  | .die (.put ms) _ => ms ≠ [] → Ended (s.disk.new_path.elim [] File.text)
  | .tear ms _ => ms ≠ [] → Ended (s.disk.new_path.elim [] File.text)
  | _ => True

def Untorn : Event → Prop
  | .tear _ _ => False
  | _ => True

/-- The runs whose events all meet a condition, with what is owed at their end. -/
inductive Run (condition : State → Event → Prop) : State → (Message → Prop) → Prop where
  | empty : Run condition noFiles fun _ => False
  | next {s : State} {owed : Message → Prop} (event : Event) (run : Run condition s owed)
      (meets : condition s event) : Run condition (step c o s event).1 (owes c o s owed event)

/-- The invariant, with and without a process. -/
def Holds (s : State) (owed : Message → Prop) : Prop :=
  DiskSound c o s.disk ∧ match s.process with
    | none => DeadHolds c s.disk owed
    | some m => AliveHolds c o s.disk m owed

theorem Holds.dead {s : State} {owed : Message → Prop} (holds : Holds c o s owed) :
    DeadHolds c s.disk owed := by
  obtain ⟨_, process⟩ := holds
  cases same : s.process with
  | none => rwa [same] at process
  | some m =>
    rw [same] at process
    exact process.dead c o

theorem diskAfter_mem (d : Disk) (out : Outcome) (effects : Nat) :
    out.diskAfter d effects = d ∨ out.diskAfter d effects ∈ out.trail := by
  unfold Outcome.diskAfter
  have among (x : Disk) (member : x ∈ d :: out.trail) : x = d ∨ x ∈ out.trail := List.mem_cons.mp member
  cases found : (d :: out.trail)[effects]? with
  | some x => exact among x (List.mem_of_getElem? found)
  | none =>
    unfold Outcome.disk
    cases last : out.trail.getLast? with
    | none => exact Or.inl rfl
    | some x => exact Or.inr (List.mem_of_getLast? last)

theorem Keeps.died {d : Disk} {out : Outcome} {alive dying : Message → Prop}
    (keeps : Keeps c o d out alive dying) (sound : DiskSound c o d) (dead : DeadHolds c d dying)
    (effects : Nat) :
    DiskSound c o (out.diskAfter d effects) ∧ DeadHolds c (out.diskAfter d effects) dying := by
  cases diskAfter_mem d out effects with
  | inl same =>
    rw [same]
    exact ⟨sound, dead⟩
  | inr member => exact keeps.trail _ member

/-- One event keeps the invariant. -/
theorem step_holds {s : State} {owed : Message → Prop} {event : Event} (holds : Holds c o s owed)
    (orderly : Orderly c o s event) (boundary : AtBoundary s event) :
    Holds c o (step c o s event).1 (owes c o s owed event) := by
  have dead := holds.dead c o
  obtain ⟨disk, process⟩ := s
  obtain ⟨sound, state⟩ := holds
  cases process with
  | none =>
    cases event with
    | tear ms bytes => exact ⟨sound, state⟩
    | run op =>
      cases op with
      | start now =>
        have keeps := start_keeps c o now sound dead
        exact ⟨keeps.sound, keeps.alive⟩
      | put ms => exact ⟨sound, state⟩
      | get maximum => exact ⟨sound, state⟩
      | on_housekeeping now spilled => exact ⟨sound, state⟩
    | die op effects =>
      cases op with
      | start now => exact (start_keeps c o now sound dead).died c o sound dead effects
      | put ms => exact ⟨sound, state⟩
      | get maximum => exact ⟨sound, state⟩
      | on_housekeeping now spilled => exact ⟨sound, state⟩
  | some m =>
    cases event with
    | tear ms bytes =>
      have some : (text c ms).take bytes ≠ [] → ms ≠ [] := by
        intro written empty
        rw [empty] at written
        exact written List.take_nil
      obtain ⟨soundAfter, alive⟩ := append_new_alive c o m.msg_count_new sound state
        (SoundFile.cut c o bytes 0 orderly) fun written => boundary (some written)
      rw [messages_cut c bytes 0 ms fun m member => (orderly m member).tearable] at alive
      exact ⟨soundAfter, alive.dead c o⟩
    | run op =>
      cases op with
      | start now =>
        have keeps := start_keeps c o now sound dead
        exact ⟨keeps.sound, keeps.alive⟩
      | put ms =>
        have keeps := put_keeps c o ms sound state orderly boundary
        exact ⟨keeps.sound, keeps.alive⟩
      | get maximum => exact get_keeps c o maximum sound state
      | on_housekeeping now spilled =>
        have keeps := on_housekeeping_keeps c o now spilled sound state
        exact ⟨keeps.sound, keeps.alive⟩
    | die op effects =>
      cases op with
      | start now => exact (start_keeps c o now sound dead).died c o sound dead effects
      | put ms => exact (put_keeps c o ms sound state orderly boundary).died c o sound dead effects
      | get maximum =>
        have unchanged := orderly _ rfl
        change DiskSound c o (Outcome.diskAfter _ _ _) ∧ DeadHolds c (Outcome.diskAfter _ _ _) owed
        rw [unchanged]
        exact ⟨sound, dead⟩
      | on_housekeeping now spilled =>
        exact (on_housekeeping_keeps c o now spilled sound state).died c o sound
          (dead.mono c fun _ h => h.1) effects

theorem run_holds {s : State} {owed : Message → Prop}
    (run : Run c o (fun s event => Orderly c o s event ∧ AtBoundary s event) s owed) :
    Holds c o s owed := by
  induction run with
  | empty => exact ⟨⟨nofun, nofun, nofun, nofun⟩, ⟨nofun, nofun⟩⟩
  | next event run meets ih => exact step_holds c o ih meets.1 meets.2

/-! ## Draining the queue -/

/-- What is stored and not yet read: ahead of the reader, then in `.new`. -/
def pending (d : Disk) (m : Memory) : List Message :=
  (ahead c d m).filterMap Except.toOption ++ messages c d.new_path

/-- `get` all there is, housekeeping, `get` all there is. -/
def drain (s : State) (now : ℚ) (spilled : Nat) : List Message :=
  returns c o s [.get ((stored c s.disk).length + 1), .on_housekeeping now spilled,
    .get ((stored c s.disk).length + 1)]

/-- A `get` of more than there is leaves no reader and no count, and of the queue file
what it could not open. -/
theorem get_exhausts (maximum : Int) {d : Disk} {m : Memory} {owed : Message → Prop}
    (sound : DiskSound c o d) (alive : AliveHolds c o d m owed)
    (large : ((ahead c d m).length : Int) < maximum) :
    still_retrying ((get c o maximum d m).disk d) (get c o maximum d m).memory = false ∧
      ((get c o maximum d m).disk d).new_path = d.new_path ∧
      (messages c ((get c o maximum d m).disk d).queue_file).Sublist
        ((ahead c d m).filterMap Except.toOption) := by
  unfold Source.DiskQueue.get
  by_cases idle : m.msg_count = 0 ∧ m.queue_fp.isNone
  · rw [if_pos idle]
    have closed : m.queue_fp = none := Option.isNone_iff_eq_none.mp idle.2
    refine ⟨?_, rfl, ?_⟩
    · simp [still_retrying, idle.1, closed]
    · unfold ahead
      rw [closed]
      exact List.Sublist.refl _
  · rw [if_neg idle]
    obtain ⟨ms, all, good⟩ := ahead_good c o sound alive
    have takes := getLoop_takes c o m.now maximum ms m.queue_fp [] m.msg_count
      fun message member => (good message member).handleable
    have fp : m.queue_fp.getD (d.queue_file.elim [] (openRead c)) = ms.map .ok := all
    rw [all, List.length_map] at large
    dsimp only
    rw [fp]
    generalize getLoop o m.now maximum (ms.map .ok) m.queue_fp [] m.msg_count = got at takes
    cases takes with
    | enough taken rest split full =>
      exfalso
      have few : (releasedFresh o m.now taken).length ≤ taken.length := by
        unfold releasedFresh
        rw [List.length_map]
        exact List.length_filter_le _ _
      rw [split, List.length_append] at large
      rw [List.nil_append] at full
      omega
    | finished =>
      dsimp only
      unfold Outcome.disk
      cases queue : d.queue_file with
      | some q => exact ⟨rfl, rfl, List.nil_sublist _⟩
      | none =>
        refine ⟨by simp [still_retrying], rfl, ?_⟩
        change (messages c d.queue_file).Sublist _
        rw [queue]
        exact List.nil_sublist _

/-- Housekeeping leaves no more to read than was stored, and no `.new`. -/
theorem on_housekeeping_bound (now : ℚ) (spilled : Nat) {d : Disk} {m : Memory}
    (sound : DiskSound c o d) (idle : still_retrying d m = false) :
    let out := on_housekeeping c o ⟨none, spilled⟩ now d m
    (out.disk d).new_path = none ∧
      ((ahead c (out.disk d) out.memory).length : Int) ≤ (stored c d).length := by
  have files := on_housekeeping_files c o ⟨none, spilled⟩ now d m idle
  rw [mergeFiles_handled c o (sound_allHandled c o now sound) rfl] at files
  obtain ⟨removed, unchanged, replaced⟩ := files
  refine ⟨removed, ?_⟩
  have closed : (on_housekeeping c o ⟨none, spilled⟩ now d m).memory.queue_fp = none := by
    unfold on_housekeeping
    rw [idle]
    rfl
  rw [ahead, closed, Option.getD_none]
  by_cases nothing : survivors c o now [] (stored c d) = []
  · rw [unchanged nothing, (sound_reader c o sound.queue).1, List.length_map, stored,
      List.length_append]
    omega
  · obtain ⟨mtime, queue⟩ := replaced nothing
    have sub := survivors_sublist c o now [] (stored c d)
    have read := openRead_text c mtime (survivors c o now [] (stored c d)) fun message member =>
      (stored_good c o sound message (sub.subset member)).tearable.toLossless
    rw [queue, readFile, Option.elim, read, List.length_map]
    exact_mod_cast sub.length_le

/-- Everything owed that is unexpired and duplicates nothing is returned. -/
theorem drain_returns {s : State} {m : Memory} {owed : Message → Prop} (now : ℚ) (spilled : Nat)
    (holds : Holds c o s owed) (process : s.process = some m) (message : Message)
    (belongs : owed message) (fresh : Fresh o now message)
    (alone : Alone c (pending c s.disk m) message) :
    released message ∈ drain c o s now spilled := by
  obtain ⟨d, proc⟩ := s
  cases process
  have sound : DiskSound c o d := holds.1
  have alive : AliveHolds c o d m owed := holds.2
  unfold drain
  generalize all : ((stored c d).length + 1 : Int) = K
  have length : (ahead c d m).length ≤ (messages c d.queue_file).length := by
    have whole := (ahead_suffix c o alive).length_le
    rwa [(sound_reader c o sound.queue).1, List.length_map] at whole
  have total : (stored c d).length =
      (messages c d.queue_file).length + (messages c d.new_path).length := List.length_append
  simp only [returns, List.append_nil, List.mem_append]
  -- the first `get` empties the reader
  have first : DiskSound c o ((get c o K d m).disk d) ∧
      AliveHolds c o ((get c o K d m).disk d) (get c o K d m).memory
        (notReturned owed (get c o K d m).returned) := get_keeps c o K sound alive
  obtain ⟨idle, new, queue⟩ := get_exhausts c o K sound alive (by omega)
  by_cases early : released message ∈ (get c o K d m).returned
  · exact Or.inl early
  refine Or.inr (Or.inr ?_)
  change released message ∈ (get c o K
    ((on_housekeeping c o ⟨none, spilled⟩ now ((get c o K d m).disk d) (get c o K d m).memory).disk
      ((get c o K d m).disk d))
    (on_housekeeping c o ⟨none, spilled⟩ now ((get c o K d m).disk d)
      (get c o K d m).memory).memory).returned
  obtain ⟨soundFirst, aliveFirst⟩ := first
  have fewer : (stored c ((get c o K d m).disk d)).Sublist (pending c d m) := by
    unfold stored pending
    rw [new]
    exact queue.append (List.Sublist.refl _)
  have pendingLength : (pending c d m).length ≤ (stored c d).length := by
    have read := List.length_filterMap_le Except.toOption (ahead c d m)
    rw [pending, List.length_append, total]
    omega
  generalize (get c o K d m).disk d = d₁ at *
  generalize get c o K d m = out₁ at *
  obtain ⟨_, _, inNew⟩ := housekeeping_idle c o aliveFirst idle
  have still : notReturned owed out₁.returned message := ⟨belongs, early⟩
  -- housekeeping moves it to the queue file
  obtain ⟨removed, bound⟩ := on_housekeeping_bound c o now spilled soundFirst idle
  have second := on_housekeeping_keeps c o now spilled soundFirst aliveFirst
  have kept : notDropped c o now d₁ out₁.memory (notReturned owed out₁.returned) message :=
    ⟨still, fun _ => ⟨fresh, alone_sublist c alone fewer⟩⟩
  have few := fewer.length_le
  obtain ⟨soundSecond, aliveSecond, _⟩ := second
  generalize (on_housekeeping c o ⟨none, spilled⟩ now d₁ out₁.memory).disk d₁ = d₂ at *
  generalize on_housekeeping c o ⟨none, spilled⟩ now d₁ out₁.memory = out₂ at *
  -- and the second `get` returns it
  obtain ⟨idleSecond, newSecond, _⟩ := get_exhausts c o K soundSecond aliveSecond (by omega)
  obtain ⟨_, aliveThird⟩ := get_keeps c o K soundSecond aliveSecond
  by_contra late
  obtain ⟨_, _, inNew⟩ := housekeeping_idle c o aliveThird idleSecond
  have nowhere := inNew message ⟨kept, late⟩
  rw [newSecond, removed] at nowhere
  exact List.not_mem_nil nowhere

/-! ## Without torn writes -/

def NewEnded (d : Disk) : Prop := Ended (d.new_path.elim [] File.text)

theorem text_ended (ms : List Message) : Ended (text c ms) := by
  cases last : ms.getLast? with
  | none =>
    rw [List.getLast?_eq_none_iff.mp last]
    exact Or.inl rfl
  | some message =>
    obtain ⟨front, rfl⟩ := List.getLast?_eq_some_iff.mp last
    refine Or.inr ?_
    simp [text, msgToJSON, List.flatMap_append, List.getLast?_append]

theorem append_new_ended {d : Disk} (ms : List Message) (ended : NewEnded d) :
    NewEnded (d.append_new (text c ms)) := by
  unfold Disk.append_new
  split
  · exact ended
  · change Ended (d.new_path.elim [] File.text ++ text c ms)
    cases text_ended c ms with
    | inl nothing =>
      rw [nothing, List.append_nil]
      exact ended
    | inr last =>
      refine Or.inr ?_
      rw [List.getLast?_append, last]
      rfl

/-- No effect but a `put` leaves other text in `.new` than was there, or any. -/
theorem perform_new {s : State} {op : Op} {out : Outcome} (performs : perform c o s op = some out)
    (other : ∀ ms, op ≠ .put ms) :
    ∀ after ∈ out.trail, after.new_path = s.disk.new_path ∨ after.new_path = none := by
  intro after member
  cases op with
  | put ms => exact absurd rfl (other ms)
  | start now =>
    cases performs
    cases start_disk now s.disk with
    | inl unchanged =>
      rw [unchanged.1] at member
      exact absurd member List.not_mem_nil
    | inr removed =>
      rw [removed.1] at member
      rw [List.mem_singleton.mp member]
      exact Or.inr rfl
  | get maximum =>
    obtain ⟨m, _, rfl⟩ := Option.map_eq_some_iff.mp performs
    have unlinked (member : after ∈ if s.disk.queue_file.isSome then [s.disk.unlink_queue] else []) :
        after.new_path = s.disk.new_path := by
      split at member
      · rw [List.mem_singleton.mp member]
        rfl
      · exact absurd member List.not_mem_nil
    unfold Source.DiskQueue.get at member
    split at member
    · exact absurd member List.not_mem_nil
    · dsimp only at member
      split at member
      · exact Or.inl (unlinked member)
      · split at member
        · exact Or.inl (unlinked member)
        · exact absurd member List.not_mem_nil
      · exact absurd member List.not_mem_nil
  | on_housekeeping now spilled =>
    obtain ⟨m, _, rfl⟩ := Option.map_eq_some_iff.mp performs
    unfold on_housekeeping at member
    split at member
    · exact absurd member List.not_mem_nil
    · simp only [growing_last, Option.getD_some, List.cons_append, List.mem_cons, List.mem_append,
        List.not_mem_nil, or_false] at member
      rcases member with rfl | rfl | grown | rfl | rfl
      · exact Or.inl rfl
      · exact Or.inl rfl
      · obtain ⟨n, _, rfl⟩ := List.mem_map.mp grown
        exact Or.inl rfl
      · split <;> exact Or.inl rfl
      · exact Or.inr rfl

theorem step_ended {s : State} {event : Event} (ended : NewEnded s.disk) (untorn : Untorn event) :
    NewEnded (step c o s event).1.disk := by
  have effects {op : Op} {out : Outcome} (performs : perform c o s op = some out) :
      ∀ after ∈ out.trail, NewEnded after := by
    intro after member
    by_cases isPut : ∃ ms, op = .put ms
    · obtain ⟨ms, rfl⟩ := isPut
      obtain ⟨m, _, rfl⟩ := Option.map_eq_some_iff.mp performs
      rw [List.mem_singleton.mp member]
      exact append_new_ended c ms ended
    · unfold NewEnded
      cases perform_new c o performs (fun ms same => isPut ⟨ms, same⟩) after member with
      | inl same =>
        rw [same]
        exact ended
      | inr none =>
        rw [none]
        exact Or.inl rfl
  cases event with
  | tear ms bytes => exact absurd untorn id
  | run op =>
    dsimp only [step]
    cases performs : perform c o s op with
    | none => exact ended
    | some out =>
      change NewEnded (out.disk s.disk)
      unfold Outcome.disk
      cases last : out.trail.getLast? with
      | none => exact ended
      | some after => exact effects performs after (List.mem_of_getLast? last)
  | die op n =>
    dsimp only [step]
    cases performs : perform c o s op with
    | none => exact ended
    | some out =>
      change NewEnded (out.diskAfter s.disk n)
      cases diskAfter_mem s.disk out n with
      | inl same =>
        rw [same]
        exact ended
      | inr member => exact effects performs _ member

/-- Without torn writes every append finds the end of a line. -/
theorem untorn_run {s : State} {owed : Message → Prop}
    (run : Run c o (fun s event => Orderly c o s event ∧ Untorn event) s owed) :
    NewEnded s.disk ∧ Run c o (fun s event => Orderly c o s event ∧ AtBoundary s event) s owed := by
  induction run with
  | empty => exact ⟨Or.inl rfl, .empty⟩
  | @next s owed event run meets ih =>
    obtain ⟨ended, boundary⟩ := ih
    refine ⟨step_ended c o ended meets.2, boundary.next event ⟨meets.1, ?_⟩⟩
    cases event with
    | tear ms bytes => exact absurd meets.2 id
    | run op => cases op <;> first | exact fun _ => ended | trivial
    | die op effects => cases op <;> first | exact fun _ => ended | trivial

def firstNotice : Message :=
  [("baseUrl", .str "http://host".toList), ("relPath", .str "b".toList),
    ("pubTime", .str "20200101T000000".toList)]

def secondNotice : Message :=
  [("baseUrl", .str "http://host".toList), ("relPath", .str "c".toList),
    ("pubTime", .str "20200101T000000".toList)]

/-- Without `baseUrl`: the cache key cannot be built. -/
def poisonNotice : Message :=
  [("relPath", .str "a".toList), ("pubTime", .str "20200101T000000".toList)]

def runCodec : Codec := plainCodec [firstNotice, secondNotice, poisonNotice]

/-- Notices do not expire. -/
def forever : Options := ⟨none⟩

theorem run_tearable : ∀ message ∈ [firstNotice, secondNotice, poisonNotice],
    Tearable runCodec message := by
  intro message member
  have distinct : DistinctKeys (fun message => some (messageText message))
      [firstNotice, secondNotice, poisonNotice] := by
    unfold DistinctKeys
    decide +kernel
  apply plainCodec_tearable _ message member distinct <;> (revert message; decide +kernel)

theorem run_good : ∀ message ∈ [firstNotice, secondNotice], Good runCodec forever message := by
  intro message member
  constructor
  · exact run_tearable message (List.mem_append_left [poisonNotice] member)
  · rcases List.mem_cons.mp member with rfl | other
    · exact ⟨fun now => ⟨⟨_, rfl⟩, _, rfl⟩, _, rfl⟩
    · rw [List.mem_singleton.mp other]
      exact ⟨fun now => ⟨⟨_, rfl⟩, _, rfl⟩, _, rfl⟩

/-- The state and what is owed after a list of events. -/
def play (events : List Event) : State × (Message → Prop) :=
  events.foldl (fun s event => ((step runCodec forever s.1 event).1,
    owes runCodec forever s.1 s.2 event)) (noFiles, fun _ => False)

theorem play_run {condition : State → Event → Prop} (events : List Event)
    (each : ∀ event ∈ events, ∀ s, condition s event) :
    Run runCodec forever condition (play events).1 (play events).2 := by
  induction events using List.reverseRecOn with
  | nil => exact .empty
  | append_singleton events event ih =>
    have before := ih fun x member => each x (List.mem_append_left _ member)
    rw [play, List.foldl_append]
    exact before.next event (each event (List.mem_append_right _ List.mem_cons_self) _)

/-- One notice put by a process that starts on no files. -/
def oneStored : List Event := [.run (.start 0), .run (.put [firstNotice])]

theorem added_stored {d : Disk} (ms : List Message)
    (disk : d = ⟨none, some ⟨text runCodec ms, 0⟩, none, 1⟩)
    (known : ∀ message ∈ ms, message ∈ [firstNotice, secondNotice, poisonNotice]) :
    stored runCodec d = ms := by
  have read := messages_text runCodec 0 ms fun message member =>
    (run_tearable message (known message member)).toLossless
  rw [stored, disk, read]
  rfl

theorem oneStored_stored : stored runCodec (play oneStored).1.disk = [firstNotice] :=
  added_stored [firstNotice] rfl (by simp)

theorem first_alone (ms : List Message) (only : ms = [firstNotice] ∨ ms = [poisonNotice, firstNotice] ∨ ms = []) :
    Alone runCodec ms firstNotice := by
  intro key keyed
  have other : keyOf runCodec poisonNotice = none := rfl
  rcases only with rfl | rfl | rfl
  · exact List.filter_sublist
  · simp [other, keyed]
  · exact List.nil_sublist _

theorem oneStored_run : Run runCodec forever (fun s event => Orderly runCodec forever s event ∧
    Untorn event) (play oneStored).1 (play oneStored).2 :=
  .next (.run (.put [firstNotice])) (.next (.run (.start 0)) .empty ⟨trivial, trivial⟩)
    ⟨fun message member => run_good message (List.mem_append_left [secondNotice] member), trivial⟩

/-- Owed, unexpired, duplicating nothing, and yet not returned. -/
def Lost (s : State × (Message → Prop)) (message : Message) : Prop :=
  ∃ m, s.1.process = some m ∧ s.2 message ∧ Fresh forever 0 message ∧
    Alone runCodec (pending runCodec s.1.disk m) message ∧
    released message ∉ drain runCodec forever s.1 0 0

/-- The process dies when `get` has removed the queue file and not yet returned. -/
def diesInGet : List Event :=
  oneStored ++ [.run (.on_housekeeping 0 0), .die (.get 1) 1, .run (.start 0)]

def bothStored : List Event := [.run (.start 0), .run (.put [poisonNotice, firstNotice])]

/-- A notice without a key is added before the other. -/
def poisoned : List Event := bothStored ++ [.run (.on_housekeeping 0 0)]

/-- A run that ends with nothing pending and returns nothing has lost what it owes. -/
theorem lost_of_nothing {s : State × (Message → Prop)} (belongs : s.2 firstNotice)
    (nothing : (s.1.process.elim false fun m => (pending runCodec s.1.disk m).isEmpty) = true)
    (drained : (drain runCodec forever s.1 0 0).isEmpty = true) : Lost s firstNotice := by
  cases process : s.1.process with
  | none =>
    rw [process] at nothing
    cases nothing
  | some m =>
    rw [process] at nothing
    refine ⟨m, process, belongs, rfl, ?_, ?_⟩
    · exact first_alone _ (Or.inr (Or.inr (List.isEmpty_iff.mp nothing)))
    · rw [List.isEmpty_iff.mp drained]
      exact List.not_mem_nil

theorem oneStored_alone : Alone runCodec (stored runCodec (play oneStored).1.disk) firstNotice :=
  first_alone _ (Or.inl oneStored_stored)

theorem bothStored_alone : Alone runCodec (stored runCodec (play bothStored).1.disk) firstNotice :=
  first_alone _ (Or.inr (Or.inl (added_stored [poisonNotice, firstNotice] rfl (by simp))))

theorem oneStored_boundary : Run runCodec forever (fun s event => Orderly runCodec forever s event ∧
    AtBoundary s event) (play oneStored).1 (play oneStored).2 :=
  (untorn_run runCodec forever oneStored_run).2

/-- Five bytes of a notice reach the file; the next process puts another notice. -/
def tornLine : List Event :=
  [.run (.start 0), .tear [secondNotice] 5, .run (.start 0), .run (.put [firstNotice])]

end Sarracenia.Guarantees.DiskQueue
