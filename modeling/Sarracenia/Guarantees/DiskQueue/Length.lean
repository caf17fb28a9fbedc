import Sarracenia.Guarantees.DiskQueue.Abort
import Sarracenia.Guarantees.DiskQueue.Crash

/-!
# Disk queue: the length is what remains

Two counters stand for the messages that `get` has still to read and for those in `.new`.
Each call keeps them right, unless

* start-up finds `.new` without a queue file, or lines that it counts for messages and are
  none;
* what is put continues a line that has no end;
* `get` comes to a message whose age or acknowledgement cannot be handled: it is read, and
  remains counted;
* housekeeping is stopped by an exception after it has written what does not reach the file;
* `cleanup` finds messages in `.new`, or a reader that has not come to its end.

`reached_counted` is for all runs; in `newAlone_not_counted` only `.new` is there at start-up.
-/
namespace Sarracenia.Guarantees.DiskQueue
open Library Library.Text Library.Dynamic Library.FirstOfKey Source Source.DiskQueue

variable (c : Codec) (o : Options)

section Claim

/-- The messages after the read position. -/
def unread (q : Queue) : List Message := (ahead c q.disk q.memory).filterMap Except.toOption

/-- The length is the number of messages that were not consumed. -/
def Counted (q : Queue) : Prop :=
  q.memory.len = ((unread c q).length + (messages c q.disk.new_path).length : Nat)

/-- No message remains, the length is 0 and `get` returns nothing. -/
structure Emptied (q : Queue) : Prop where
  unread : unread c q = []
  new : messages c q.disk.new_path = []
  len : q.memory.len = 0
  get : ∀ maximum, (q.perform c o (.get maximum)).returned = [] ∧
    (q.perform c o (.get maximum)).raised = false

/-- The states of the queue object, with the last call: from the construction on a
directory, by calls. -/
inductive Reached (startable : Disk → Prop) (sound : Queue → Call → Prop) :
    Queue → Option Call → Prop where
  | constructed (now : ℚ) (d : Disk) (ready : startable d) :
      Reached startable sound (construct now d) none
  | called {q : Queue} {last : Option Call} (call : Call)
      (before : Reached startable sound q last) (ready : sound q call) :
      Reached startable sound (q.after c o call) (some call)

/-- The lines that are counted are those that hold a message. -/
def Legible (file : File) : Prop :=
  ∀ line ∈ lines file.text, '{' ∈ line ↔ ∃ message, msgFromJSON c line = .ok (some message)

/-- Start-up counts what there is: it does not count `.new` where there is no queue file,
and removes it where it is the older one. -/
structure Startable (d : Disk) : Prop where
  queue : ∀ queue ∈ d.queue_file, Legible c queue
  new : ∀ queue ∈ d.queue_file, ∀ new ∈ d.new_path, queue.mtime > new.mtime ∨ Legible c new
  alone : d.queue_file = none → messages c d.new_path = []

/-- `get` comes to the message: all before it are messages too, of which fewer than asked
for are unexpired. -/
def ComesTo (now : ℚ) (maximum : Int) (fp : Reader) (message : Message) : Prop :=
  ∃ (before : List Message) (rest : Reader), fp = before.map .ok ++ .ok message :: rest ∧
    (∀ m ∈ message :: before, m.isEmpty = false) ∧
      ((before.filter fun m => Fresh o now m).length : Int) < maximum

/-- The age can be computed, and the acknowledgement taken off an unexpired message. -/
structure Takeable (now : ℚ) (message : Message) : Prop where
  aged : ∃ expired, is_expired o now message = .ok expired
  acknowledged : Fresh o now message → ∃ kept, forget_ack_id message = .ok kept

/-- The state and the call in which the length is kept right. -/
def SoundCall (q : Queue) : Call → Prop
  | .put message_list => message_list = [] ∨ Ended (q.disk.new_path.elim [] File.text)
  | .get maximum => ∀ message, ComesTo o q.memory.now maximum (ahead c q.disk q.memory) message →
      Takeable o q.memory.now message
  | .on_housekeeping now spilled => still_retrying q.disk q.memory ∨
      ∀ before culprit, RaisesAfter c o now ⟨none, spilled⟩ q.disk before culprit →
        survivors c o now [] before = [] ∨
          reached c spilled (survivors c o now [] before) = survivors c o now [] before
  | .cleanup => q.memory.queue_fp.getD [] = [] ∧ messages c q.disk.new_path = []
  | .reopen _ => Startable c q.disk

/-- The messages that are handed to `put` are written so that they read back. -/
def Written : Call → Prop
  | .put message_list => ∀ message ∈ message_list, Tearable c message
  | _ => True

end Claim

section Counters

/-- What each of the two counters stands for. -/
structure Balanced (q : Queue) : Prop where
  read : q.memory.msg_count = (unread c q).length
  new : q.memory.msg_count_new = (messages c q.disk.new_path).length

theorem Balanced.counted {q : Queue} (balanced : Balanced c q) : Counted c q := by
  unfold Counted Memory.len
  rw [balanced.read, balanced.new]
  omega

theorem messages_lines (file : File) : messages c (some file) =
    (lines file.text).filterMap fun line => (msgFromJSON c line).toOption.join := by
  unfold messages readFile openRead
  rw [Option.elim, List.filterMap_filterMap]
  apply List.filterMap_congr
  intro line _
  cases read : msgFromJSON c line with
  | error e => rfl
  | ok result => cases result <;> rfl

theorem legible_count {file : File} (legible : Legible c file) :
    _count_msgs file = ((messages c (some file)).length : Int) := by
  have same : (lines file.text).countP (fun line => decide ('{' ∈ line)) =
      (lines file.text).countP fun line => (msgFromJSON c line).toOption.join.isSome := by
    apply List.countP_congr
    intro line member
    rw [decide_eq_true_iff, legible line member]
    constructor
    · intro holds
      obtain ⟨message, read⟩ := holds
      rw [read]
      rfl
    · intro some
      cases read : msgFromJSON c line with
      | error e => simp [read, Except.toOption] at some
      | ok result =>
        cases result with
        | none => simp [read, Except.toOption] at some
        | some message => exact ⟨message, rfl⟩
  rw [messages_lines, List.length_filterMap_eq_countP]
  unfold _count_msgs
  rw [← List.countP_eq_length_filter]
  exact congrArg Nat.cast same

theorem start_balanced (now : ℚ) {d : Disk} (ready : Startable c d) :
    Balanced c (construct now d) := by
  unfold construct start
  cases queue : d.queue_file with
  | none =>
    refine ⟨?_, ?_⟩
    · simp [Outcome.queue, Outcome.disk, unread, ahead, queue, readFile]
    · simp [Outcome.queue, Outcome.disk, ready.alone queue]
  | some q =>
    have counted := legible_count c (ready.queue q queue)
    have reads (now : ℚ) (count : Int) (d' : Disk) (same : d'.queue_file = some q) :
        unread c ⟨d', ⟨none, _count_msgs q, count, now⟩⟩ = messages c (some q) := by
      unfold unread ahead messages
      rw [same]
      rfl
    cases new : d.new_path with
    | none =>
      refine ⟨?_, ?_⟩
      · exact counted.trans (congrArg (fun ms => (List.length ms : Int)) (reads now 0 d queue).symm)
      · simp [Outcome.queue, Outcome.disk, new, messages, readFile]
    | some n =>
      dsimp only
      split
      · refine ⟨?_, rfl⟩
        exact counted.trans
          (congrArg (fun ms => (List.length ms : Int)) (reads now 0 d.unlink_new queue).symm)
      · next newer =>
        have legible := (ready.new q queue n new).resolve_left newer
        refine ⟨?_, ?_⟩
        · exact counted.trans (congrArg (fun ms => (List.length ms : Int))
            (reads now (_count_msgs n) d queue).symm)
        · simp only [Outcome.queue, Outcome.disk, List.getLast?_nil, Option.getD_none, new]
          exact legible_count c legible

theorem put_balanced (message_list : List Message) {q : Queue} (balanced : Balanced c q)
    (written : ∀ message ∈ message_list, Tearable c message)
    (starts : message_list = [] ∨ Ended (q.disk.new_path.elim [] File.text)) :
    Balanced c (q.after c o (.put message_list)) := by
  have batch : openRead c ⟨text c message_list, 0⟩ = message_list.map .ok :=
    openRead_text c 0 message_list fun message member => (written message member).toLossless
  have ended : text c message_list ≠ [] → Ended (q.disk.new_path.elim [] File.text) := by
    intro some
    apply starts.resolve_left
    intro none
    rw [none] at some
    exact some rfl
  have queue : (q.disk.append_new (text c message_list)).queue_file = q.disk.queue_file := by
    unfold Disk.append_new
    split <;> rfl
  refine ⟨?_, ?_⟩
  · have same : unread c (q.after c o (.put message_list)) = unread c q := by
      unfold unread ahead
      exact congrArg (fun file => List.filterMap Except.toOption
        (q.memory.queue_fp.getD (readFile c file))) queue
    rw [same]
    exact balanced.read
  · change q.memory.msg_count_new + message_list.length =
      ((messages c (q.disk.append_new (text c message_list)).new_path).length : Int)
    unfold messages
    rw [append_new_reads c ended, batch, List.filterMap_append, List.length_append, Nat.cast_add,
      ← messages, ← balanced.new]
    simp [List.filterMap_map, Function.comp_def, Except.toOption]

end Counters

section Get

def held (fp : Reader) : Int := (fp.filterMap Except.toOption).length

/-- How the loop of `get` leaves the reader and the count: they move together. -/
inductive Leaves (queue_fp : Option Reader) (fp : Reader) (msg_count : Int) : Got → Prop where
  | finished (ml : List Message) : Leaves queue_fp fp msg_count (.finished ml)
  | enough (left : Option Reader) (ml : List Message) (n : Int) (opened : left = none → queue_fp = none)
      (same : n - held (left.getD fp) = msg_count - held fp) :
      Leaves queue_fp fp msg_count (.enough left ml n)
  | raised (left : Option Reader) (n : Int) (opened : left = none → queue_fp = none)
      (same : n - held (left.getD fp) = msg_count - held fp) :
      Leaves queue_fp fp msg_count (.raised left n)

theorem held_cons (message : Message) (fp : Reader) : held (.ok message :: fp) = held fp + 1 := by
  simp [held, Except.toOption]

theorem Leaves.cons {queue_fp : Option Reader} {message : Message} {fp : Reader} {msg_count : Int}
    {got : Got} (leaves : Leaves (some fp) fp (msg_count - 1) got) :
    Leaves queue_fp (.ok message :: fp) msg_count got := by
  have one := held_cons message fp
  cases leaves with
  | finished ml => exact .finished ml
  | enough left ml n opened same =>
    cases left with
    | none => cases opened rfl
    | some left => exact .enough _ ml n nofun (by simp only [Option.getD_some] at same ⊢; omega)
  | raised left n opened same =>
    cases left with
    | none => cases opened rfl
    | some left => exact .raised _ n nofun (by simp only [Option.getD_some] at same ⊢; omega)

/-- A message that the rest comes to is come to after one more message. -/
theorem ComesTo.cons {now : ℚ} {maximum : Int} {fp : Reader} {head message : Message}
    (nonempty : head.isEmpty = false)
    (comes : ComesTo o now (maximum - if Fresh o now head then 1 else 0) fp message) :
    ComesTo o now maximum (.ok head :: fp) message := by
  obtain ⟨before, rest, split, full, room⟩ := comes
  refine ⟨head :: before, rest, by rw [split]; rfl, fun m member => ?_, ?_⟩
  · obtain rfl | later := List.mem_cons.mp member
    · exact full _ List.mem_cons_self
    · obtain rfl | later := List.mem_cons.mp later
      · exact nonempty
      · exact full m (List.mem_cons_of_mem _ later)
  · rw [List.filter_cons]
    by_cases fresh : Fresh o now head
    · simp only [fresh, decide_true, if_true, List.length_cons] at room ⊢
      push_cast
      omega
    · simp only [fresh, decide_false, Bool.false_eq_true, if_false] at room ⊢
      omega

theorem getLoop_leaves (now : ℚ) (maximum : Int) (fp : Reader) (queue_fp : Option Reader)
    (ml : List Message) (msg_count : Int) (position : queue_fp = none ∨ queue_fp = some fp)
    (takeable : ∀ message, ComesTo o now (maximum - ml.length) fp message → Takeable o now message) :
    Leaves queue_fp fp msg_count (getLoop o now maximum fp queue_fp ml msg_count) := by
  have stays : msg_count - held (queue_fp.getD fp) = msg_count - held fp := by
    obtain rfl | rfl := position <;> rfl
  induction fp generalizing queue_fp ml msg_count with
  | nil =>
    rw [getLoop]
    split
    · exact .enough queue_fp ml msg_count id stays
    · exact .finished ml
  | cons item fp ih =>
    by_cases full : maximum ≤ ml.length
    · unfold getLoop
      rw [if_pos full]
      exact .enough queue_fp ml msg_count id stays
    · unfold getLoop
      rw [if_neg full]
      cases item with
      | error e =>
        refine .raised _ msg_count (fun none => Option.map_eq_none_iff.mp none) ?_
        obtain rfl | rfl := position <;> rfl
      | ok message =>
        dsimp only
        cases empty : message.isEmpty with
        | true => exact .finished ml
        | false =>
          have next (kept : List Message) (width : (kept.length : Int) =
              ml.length + if Fresh o now message then 1 else 0) :
              Leaves queue_fp (.ok message :: fp) msg_count
                (getLoop o now maximum fp (some fp) kept (msg_count - 1)) := by
            refine .cons (ih _ kept _ (.inr rfl) (fun m comes => takeable m (.cons o empty ?_)) rfl)
            rw [width] at comes
            rwa [sub_sub]
          have here : ComesTo o now (maximum - ml.length) (.ok message :: fp) message :=
            ⟨[], fp, rfl, by simpa using empty, by simp; omega⟩
          obtain ⟨⟨expired, aged⟩, acknowledged⟩ := takeable message here
          rw [aged]
          cases expired with
          | true => exact next ml (by simp [Fresh, aged])
          | false =>
            obtain ⟨kept, forgets⟩ := acknowledged aged
            rw [forgets]
            exact next (ml ++ [kept]) (by simp [Fresh, aged])

theorem get_balanced (maximum : Int) {q : Queue} (balanced : Balanced c q)
    (takeable : ∀ message, ComesTo o q.memory.now maximum (ahead c q.disk q.memory) message →
      Takeable o q.memory.now message) :
    Balanced c (q.after c o (.get maximum)) := by
  change Balanced c ((get c o maximum q.disk q.memory).queue q.disk)
  unfold DiskQueue.get
  split
  · exact balanced
  · -- the queue file is gone, and its reader with it
    have drained (ml : List Message) : Balanced c (Outcome.queue q.disk
        ⟨if q.disk.queue_file.isSome then [q.disk.unlink_queue] else [],
          { q.memory with queue_fp := none, msg_count := 0 }, ml, false⟩) := by
      cases file : q.disk.queue_file with
      | none =>
        refine ⟨?_, balanced.new⟩
        simp [Outcome.queue, Outcome.disk, unread, ahead, file, readFile]
      | some f => exact ⟨rfl, balanced.new⟩
    have position : q.memory.queue_fp = none ∨
        q.memory.queue_fp = some (ahead c q.disk q.memory) := by
      unfold ahead
      cases q.memory.queue_fp with
      | none => exact .inl rfl
      | some fp => exact .inr rfl
    have leaves := getLoop_leaves o q.memory.now maximum (ahead c q.disk q.memory) q.memory.queue_fp
      [] q.memory.msg_count position (by simpa using takeable)
    -- the count that is left is that of what is left to read
    have moved (left : Option Reader) (n : Int) (ml : List Message) (raised : Bool)
        (opened : left = none → q.memory.queue_fp = none)
        (same : n - held (left.getD (ahead c q.disk q.memory)) =
          q.memory.msg_count - held (ahead c q.disk q.memory)) :
        Balanced c (Outcome.queue q.disk
          ⟨[], { q.memory with queue_fp := left, msg_count := n }, ml, raised⟩) := by
      refine ⟨?_, balanced.new⟩
      change n = held (left.getD (readFile c q.disk.queue_file))
      have read : q.memory.msg_count = held (ahead c q.disk q.memory) := balanced.read
      cases left with
      | none =>
        have whole : ahead c q.disk q.memory = readFile c q.disk.queue_file := by
          unfold ahead
          rw [opened rfl]
          rfl
        rw [Option.getD_none] at same ⊢
        rw [← whole]
        omega
      | some left =>
        rw [Option.getD_some] at same ⊢
        omega
    dsimp only
    change Leaves q.memory.queue_fp _ q.memory.msg_count (getLoop o q.memory.now maximum
      (q.memory.queue_fp.getD (q.disk.queue_file.elim [] (openRead c))) _ _ _) at leaves
    generalize getLoop o q.memory.now maximum _ q.memory.queue_fp [] q.memory.msg_count = got at leaves
    cases leaves with
    | finished ml => exact drained ml
    | enough left ml n opened same =>
      dsimp only
      split
      · exact drained ml
      · exact moved left n ml false opened same
    | raised left n opened same => exact moved left n [] true opened same

end Get

section Housekeeping

/-- The text handed to `write` is that of the messages written. -/
structure Faithful (done : Merge) : Prop where
  text : done.text = text c done.written
  tearable : ∀ message ∈ done.written, Tearable c message

/-- What is done when a loop ends or is stopped. -/
def outcome : Except Merge Merge → Merge
  | .ok done => done
  | .error done => done

theorem merge_faithful (now : ℚ) (spilled : Nat) (fp : Reader) (done : Merge)
    (faithful : Faithful c done) (tearable : ∀ message, .ok message ∈ fp → Tearable c message) :
    Faithful c (outcome (merge c o now ⟨none, spilled⟩ fp done)) := by
  induction fp generalizing done with
  | nil => exact faithful
  | cons item fp ih =>
    have tail := fun message member => tearable message (List.mem_cons_of_mem item member)
    cases item with
    | error e => exact faithful
    | ok message =>
      rw [merge]
      cases message.isEmpty with
      | true => exact faithful
      | false =>
        cases needs_requeuing c o now done.retry_cache message with
        | error e => exact faithful
        | ok result =>
          obtain ⟨requeue, seen⟩ := result
          cases requeue with
          | false => exact ih _ ⟨faithful.text, faithful.tearable⟩ tail
          | true =>
            refine ih _ ⟨?_, fun m member => ?_⟩ tail
            · simp [text, faithful.text]
            · obtain early | last := List.mem_append.mp member
              · exact faithful.tearable m early
              · rw [List.mem_singleton.mp last]
                exact tearable message List.mem_cons_self

theorem mergeFiles_faithful (now : ℚ) (spilled : Nat) (d : Disk)
    (stable : ∀ line message, msgFromJSON c line = .ok (some message) → Tearable c message) :
    Faithful c (outcome (mergeFiles c o now ⟨none, spilled⟩ d)) := by
  have tearable (file : Option File) : ∀ message, .ok message ∈ readFile c file →
      Tearable c message := by
    intro message member
    cases file with
    | none => cases member
    | some file =>
      obtain ⟨line, -, read⟩ := List.mem_filterMap.mp member
      apply stable line message
      cases decoded : msgFromJSON c line with
      | error e => simp [decoded] at read
      | ok result =>
        cases result with
        | none => simp [decoded] at read
        | some m => simpa [decoded] using read
  have first := merge_faithful c o now spilled (readFile c d.queue_file) ⟨[], [], []⟩
    ⟨rfl, by simp⟩ (tearable d.queue_file)
  unfold mergeFiles
  generalize merge c o now ⟨none, spilled⟩ (readFile c d.queue_file) ⟨[], [], []⟩ = queue at first
  cases queue with
  | error done => exact first
  | ok done =>
    have second := merge_faithful c o now spilled (readFile c d.new_path) done first
      (tearable d.new_path)
    change Faithful c (outcome (merge c o now ⟨none, spilled⟩ (readFile c d.new_path) done >>=
      fun done => _))
    generalize merge c o now ⟨none, spilled⟩ (readFile c d.new_path) done = new at second
    cases new with
    | error done => exact second
    | ok done => exact second

/-- What takes the place of the queue file holds as many messages as are counted. -/
theorem written_whole (now : ℚ) (spilled mtime : Nat) (d : Disk)
    (stable : ∀ line message, msgFromJSON c line = .ok (some message) → Tearable c message)
    (reaches : ∀ before culprit, RaisesAfter c o now ⟨none, spilled⟩ d before culprit →
      survivors c o now [] before = [] ∨
        reached c spilled (survivors c o now [] before) = survivors c o now [] before) :
    let result := written ⟨none, spilled⟩ (mergeFiles c o now ⟨none, spilled⟩ d)
    result.1 ≠ [] → messages c (some ⟨result.2, mtime⟩) = result.1 := by
  have faithful := mergeFiles_faithful c o now spilled d stable
  cases ends : mergeFiles c o now ⟨none, spilled⟩ d with
  | ok done =>
    intro _ _
    rw [ends] at faithful
    change messages c (some ⟨done.text, mtime⟩) = done.written
    rw [show done.text = text c done.written from faithful.text]
    exact messages_text c mtime _ fun m member => (faithful.tearable m member).toLossless
  | error done =>
    intro _ some
    rw [ends] at faithful
    obtain ⟨before, culprit, raises⟩ := (raises_iff c o now ⟨none, spilled⟩ d).mp ⟨done, ends⟩
    obtain ⟨extra, -, same⟩ := raises_written c o raises
    rw [ends] at same
    have kept : done.written = survivors c o now [] before := congrArg Prod.fst same
    have all := reaches before culprit raises
    rw [← kept] at all
    change messages c (Option.some ⟨done.text.take spilled, mtime⟩) = done.written
    rw [show done.text = text c done.written from faithful.text]
    have reads := messages_cut c spilled mtime done.written faithful.tearable
    rw [reads]
    exact all.resolve_left some

/-- Housekeeping is not turned away when nothing is left to read. -/
theorem idle_unread {q : Queue} (balanced : Balanced c q)
    (idle : still_retrying q.disk q.memory = false) : messages c q.disk.queue_file = [] := by
  unfold still_retrying at idle
  rw [Bool.or_eq_false_iff, Bool.and_eq_false_iff] at idle
  obtain ⟨closed, counts⟩ := idle
  have zero : q.memory.msg_count = 0 := by simpa using counts
  have nothing : unread c q = [] := by
    have read := balanced.read
    rw [zero] at read
    exact List.eq_nil_of_length_eq_zero (by omega)
  obtain absent | unopened := closed
  · have absent : q.disk.queue_file = none := by simpa using absent
    rw [absent]
    rfl
  · have unopened : q.memory.queue_fp = none := by simpa using unopened
    unfold unread ahead at nothing
    rw [unopened] at nothing
    exact nothing

theorem housekeeping_balanced (now : ℚ) (spilled : Nat) {q : Queue} (balanced : Balanced c q)
    (stable : ∀ line message, msgFromJSON c line = .ok (some message) → Tearable c message)
    (sound : SoundCall c o q (.on_housekeeping now spilled)) :
    Balanced c (q.after c o (.on_housekeeping now spilled)) := by
  change Balanced c ((on_housekeeping c o ⟨none, spilled⟩ now q.disk q.memory).queue q.disk)
  by_cases busy : still_retrying q.disk q.memory = true
  · unfold on_housekeeping
    rw [if_pos busy]
    exact balanced
  · have idle : still_retrying q.disk q.memory = false := by simpa using busy
    obtain ⟨new, stays, moves⟩ := on_housekeeping_files c o ⟨none, spilled⟩ now q.disk q.memory idle
    have whole (mtime : Nat) :=
      written_whole c o now spilled mtime q.disk stable (sound.resolve_left busy)
    have memory : (on_housekeeping c o ⟨none, spilled⟩ now q.disk q.memory).memory = ⟨none,
        (written ⟨none, spilled⟩ (mergeFiles c o now ⟨none, spilled⟩ q.disk)).1.length, 0, now⟩ := by
      unfold on_housekeeping
      rw [if_neg busy]
    generalize written ⟨none, spilled⟩ (mergeFiles c o now ⟨none, spilled⟩ q.disk) = result at *
    generalize on_housekeeping c o ⟨none, spilled⟩ now q.disk q.memory = out at *
    refine ⟨?_, ?_⟩
    · have read : unread c (out.queue q.disk) = messages c (out.disk q.disk).queue_file := by
        unfold unread ahead Outcome.queue
        rw [memory]
        rfl
      have counts : (out.queue q.disk).memory.msg_count = result.1.length := by
        unfold Outcome.queue
        rw [memory]
      rw [read, counts]
      by_cases none : result.1 = []
      · rw [stays none, idle_unread c balanced idle, none]
      · obtain ⟨mtime, file⟩ := moves none
        rw [file, whole mtime none]
    · unfold Outcome.queue
      rw [memory, new]
      rfl

end Housekeeping

section Cleanup

/-- A reader at its end gives no message and raises nothing. -/
theorem getLoop_empty (now : ℚ) (maximum : Int) (queue_fp : Option Reader) (msg_count : Int) :
    getLoop o now maximum [] queue_fp [] msg_count = .enough queue_fp [] msg_count ∨
      getLoop o now maximum [] queue_fp [] msg_count = .finished [] := by
  rw [getLoop]
  split
  · exact .inl rfl
  · exact .inr rfl

theorem get_nothing (maximum : Int) {q : Queue} (nothing : ahead c q.disk q.memory = []) :
    (q.perform c o (.get maximum)).returned = [] ∧ (q.perform c o (.get maximum)).raised = false := by
  change (get c o maximum q.disk q.memory).returned = [] ∧
    (get c o maximum q.disk q.memory).raised = false
  unfold DiskQueue.get
  split
  · exact ⟨rfl, rfl⟩
  · change q.memory.queue_fp.getD (q.disk.queue_file.elim [] (openRead c)) = [] at nothing
    dsimp only
    rw [nothing]
    obtain enough | finished :=
      getLoop_empty o q.memory.now maximum q.memory.queue_fp q.memory.msg_count
    · rw [enough]
      dsimp only
      split <;> exact ⟨rfl, rfl⟩
    · rw [finished]
      exact ⟨rfl, rfl⟩

theorem cleanup_emptied {q : Queue} (balanced : Balanced c q) (ended : q.memory.queue_fp.getD [] = [])
    (none : messages c q.disk.new_path = []) :
    Balanced c (q.after c o .cleanup) ∧ Emptied c o (q.after c o .cleanup) := by
  have files : (q.after c o .cleanup).disk.queue_file = Option.none ∧
      (q.after c o .cleanup).disk.new_path = q.disk.new_path := by
    change ((cleanup q.disk q.memory).disk q.disk).queue_file = _ ∧
      ((cleanup q.disk q.memory).disk q.disk).new_path = _
    unfold cleanup Outcome.disk
    cases file : q.disk.queue_file with
    | none => exact ⟨file, rfl⟩
    | some f => exact ⟨rfl, rfl⟩
  have nothing : ahead c (q.after c o .cleanup).disk (q.after c o .cleanup).memory = [] := by
    unfold ahead
    rw [files.1]
    exact ended
  have new : messages c (q.after c o .cleanup).disk.new_path = [] := by
    rw [files.2]
    exact none
  have read : unread c (q.after c o .cleanup) = [] := by
    unfold unread
    rw [nothing]
    rfl
  have after : Balanced c (q.after c o .cleanup) := by
    refine ⟨?_, ?_⟩
    · rw [read]
      rfl
    · rw [files.2]
      exact balanced.new
  refine ⟨after, read, new, ?_, fun maximum => get_nothing c o maximum nothing⟩
  have counted := after.counted
  unfold Counted at counted
  rw [counted, read, new]
  rfl

end Cleanup

section Runs

theorem call_balanced {q : Queue} {call : Call} (balanced : Balanced c q)
    (stable : ∀ line message, msgFromJSON c line = .ok (some message) → Tearable c message)
    (written : Written c call) (sound : SoundCall c o q call) :
    Balanced c (q.after c o call) := by
  cases call with
  | put message_list => exact put_balanced c o message_list balanced written sound
  | get maximum => exact get_balanced c o maximum balanced sound
  | on_housekeeping now spilled => exact housekeeping_balanced c o now spilled balanced stable sound
  | cleanup => exact (cleanup_emptied c o balanced sound.1 sound.2).1
  | reopen now => exact start_balanced c now sound

/-- In every run whose construction and calls meet their conditions the length is that of
what was not consumed, and nothing remains after `cleanup`. -/
theorem reached_counted {q : Queue} {last : Option Call}
    (stable : ∀ line message, msgFromJSON c line = .ok (some message) → Tearable c message)
    (run : Reached c o (Startable c) (fun q call => Written c call ∧ SoundCall c o q call) q last) :
    Counted c q ∧ (last = some .cleanup → Emptied c o q) := by
  have kept : Balanced c q ∧ (last = some .cleanup → Emptied c o q) := by
    induction run with
    | constructed now d ready => exact ⟨start_balanced c now ready, nofun⟩
    | called call before ready ih =>
      refine ⟨call_balanced c o ih.1 stable ready.1 ready.2, fun cleaned => ?_⟩
      obtain rfl := Option.some.inj cleaned
      exact (cleanup_emptied c o ih.1 ready.2.1 ready.2.2).2
  exact ⟨kept.1.counted, kept.2⟩

/-- A file of messages as the queue writes them is legible. -/
theorem text_legible (mtime : Nat) (ms : List Message) (tearable : ∀ m ∈ ms, Tearable c m) :
    Legible c ⟨text c ms, mtime⟩ := by
  induction ms with
  | nil => exact nofun
  | cons message ms ih =>
    have head := tearable message List.mem_cons_self
    intro line member
    change line ∈ lines (text c (message :: ms)) at member
    rw [text_cons, lines_ended _ _ head.feed head.ret] at member
    obtain rfl | later := List.mem_cons.mp member
    · exact iff_of_true (List.mem_append_left _ head.brace)
        ⟨message, msgFromJSON_line c head.toLossless⟩
    · exact ih (fun m member => tearable m (List.mem_cons_of_mem message member)) line later

/-- Where every message that is stored can be handled, housekeeping keeps the length right. -/
theorem handled_sound (now : ℚ) (spilled : Nat) {q : Queue} (all : AllHandled c o now q.disk) :
    SoundCall c o q (.on_housekeeping now spilled) := by
  refine .inr fun before culprit raises => ?_
  obtain ⟨done, failed⟩ := (raises_iff c o now ⟨none, spilled⟩ q.disk).mpr ⟨before, culprit, raises⟩
  obtain ⟨after, run⟩ := merge_handled c o now ⟨none, spilled⟩ (stored c q.disk) ⟨[], [], []⟩
    (all.mem_stored c o) rfl
  rw [mergeFiles_eq, visited_handled c o all, run] at failed
  cases failed

/-- A new queue object reads the queue file from its start. -/
theorem construct_ahead (now : ℚ) (d : Disk) :
    ahead c (construct now d).disk (construct now d).memory = readFile c d.queue_file := by
  have file : (construct now d).disk.queue_file = d.queue_file := by
    change ((start now d).disk d).queue_file = _
    obtain ⟨-, same, -⟩ | ⟨-, same, -⟩ := start_disk now d
    · rw [same]
    · rw [same]
      rfl
  have closed : (construct now d).memory.queue_fp = none := (start_memory now d).1
  unfold ahead
  rw [closed, file]
  rfl

/-- At start-up `.new` alone is not counted. -/
theorem construct_newAlone_iff (now : ℚ) {d : Disk} (alone : d.queue_file = none) :
    Counted c (construct now d) ↔ messages c d.new_path = [] := by
  have made : construct now d = ⟨d, ⟨none, 0, 0, now⟩⟩ := by
    unfold construct start
    rw [alone]
    rfl
  have read : unread c ⟨d, ⟨none, 0, 0, now⟩⟩ = [] := by
    unfold unread ahead
    rw [alone]
    rfl
  rw [made]
  unfold Counted Memory.len
  rw [read]
  simp only [List.length_nil, max_self, zero_add]
  rw [← List.length_eq_zero_iff]
  omega

theorem run_stable : ∀ line message, msgFromJSON runCodec line = .ok (some message) →
    Tearable runCodec message := by
  intro line message read
  apply run_tearable
  unfold msgFromJSON runCodec plainCodec at read
  dsimp only at read
  cases found : firstWith (fun message => some (messageText message)) (rstripBy (· == '\n') line)
      [firstNotice, secondNotice, poisonNotice] with
  | none => simp [found] at read
  | some m =>
    rw [found] at read
    cases read
    exact (firstWith_mem _ found).1

/-- One notice is in the queue file, one in `.new`. -/
def bothFiles : Disk :=
  ⟨some ⟨text runCodec [firstNotice], 0⟩, some ⟨text runCodec [secondNotice], 1⟩, none, 2⟩

def oneTaken : Queue := (construct 0 bothFiles).after runCodec forever (.get 1)

def merged : Queue := oneTaken.after runCodec forever (.on_housekeeping 0 0)

theorem run_read (mtime : Nat) (m : Message) (known : m ∈ [firstNotice, secondNotice]) :
    readFile runCodec (some ⟨text runCodec [m], mtime⟩) = [.ok m] :=
  openRead_text runCodec mtime [m] fun x member => by
    rw [List.mem_singleton.mp member]
    exact (run_tearable m (List.mem_append_left [poisonNotice] known)).toLossless

/-- One notice is taken, the other merged, and the queue is cleaned up. -/
theorem merged_emptied : Counted runCodec (merged.after runCodec forever .cleanup) ∧
    (some Call.cleanup = some .cleanup →
      Emptied runCodec forever (merged.after runCodec forever .cleanup)) := by
  refine reached_counted runCodec forever run_stable (.called .cleanup (.called (.on_housekeeping 0 0)
    (.called (.get 1) (.constructed 0 bothFiles ?_) ⟨trivial, ?_⟩) ⟨trivial, ?_⟩) ⟨trivial, ?_⟩)
  · refine ⟨?_, ?_, nofun⟩
    · intro queue given
      cases given
      exact text_legible runCodec 0 _ fun m member =>
        run_tearable m (List.mem_append_left [secondNotice, poisonNotice] member)
    · intro _ _ new given
      cases given
      refine .inr (text_legible runCodec 1 _ fun m member => ?_)
      rw [List.mem_singleton.mp member]
      exact run_tearable secondNotice (by simp)
  · intro message comes
    obtain ⟨before, rest, split, -⟩ := comes
    have file : ahead runCodec (construct 0 bothFiles).disk (construct 0 bothFiles).memory =
        readFile runCodec (some ⟨text runCodec [firstNotice], 0⟩) := construct_ahead runCodec 0 bothFiles
    rw [file, run_read 0 firstNotice (by simp)] at split
    have same : message = firstNotice := by
      have mem : (.ok message : Except Fault Message) ∈ [.ok firstNotice] := by
        rw [split]
        simp
      exact Except.ok.inj (List.mem_singleton.mp mem)
    rw [same]
    exact ⟨⟨false, rfl⟩, fun _ => ⟨_, rfl⟩⟩
  · apply handled_sound
    have files : oneTaken.disk = ⟨none, some ⟨text runCodec [secondNotice], 1⟩, none, 2⟩ := by
      decide +kernel
    change AllHandled runCodec forever 0 oneTaken.disk
    rw [files]
    intro item member
    dsimp only at member
    rw [run_read 1 secondNotice (by simp), List.mem_append, List.mem_singleton] at member
    have member := member.resolve_left List.not_mem_nil
    exact ⟨secondNotice, member, (run_good secondNotice (by simp)).handleable.handled 0⟩
  · have closed : merged.memory.queue_fp = none ∧ merged.disk.new_path = none := by
      decide +kernel
    change merged.memory.queue_fp.getD [] = [] ∧ messages runCodec merged.disk.new_path = []
    rw [closed.1, closed.2]
    exact ⟨rfl, rfl⟩

/-- Only `.new` is there at start-up: it holds a message, and the length is 0. -/
theorem newAlone_not_counted :
    ¬ ∀ (c : Codec) (o : Options),
      (∀ line message, msgFromJSON c line = .ok (some message) → Tearable c message) →
      ∀ (q : Queue) (last : Option Call),
        Reached c o (fun _ => True) (fun _ call => Written c call) q last →
          Counted c q ∧ (last = some .cleanup → Emptied c o q) := by
  intro always
  have run := always runCodec forever run_stable _ _
    (.constructed 0 ⟨none, some ⟨text runCodec [firstNotice], 0⟩, none, 1⟩ trivial)
  have one : messages runCodec (some ⟨text runCodec [firstNotice], 0⟩) = [firstNotice] :=
    messages_text runCodec 0 _ fun m member =>
      (run_tearable m (List.mem_append_left [secondNotice, poisonNotice] member)).toLossless
  rw [construct_newAlone_iff runCodec 0 rfl, one] at run
  cases run.1

end Runs

end Sarracenia.Guarantees.DiskQueue
