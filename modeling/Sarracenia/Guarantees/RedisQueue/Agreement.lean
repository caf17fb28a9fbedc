import Sarracenia.Guarantees.DiskQueue.Length
import Sarracenia.Library.Component
import Sarracenia.Source.RedisQueue

/-!
# The two queues agree

The retry plugin takes either class and relies on the same behaviour. On messages whose key
and age can be computed the two return the same messages and have the same length, call by
call (`trace_agrees`), as long as `get` can take off the acknowledgement of every message it
comes to: where it cannot, both raise, the disk queue with a message counted that it has
read.

* the loops of `get` go through the same messages (`getLoops_agree`);
* the loops of housekeeping write the same messages (`mergeLoop_agrees`);
* what each queue holds is tied by `Agrees`, which every call keeps.
-/
namespace Sarracenia.Guarantees.RedisQueue
open Library Library.Text Library.Dynamic Source
open Source.DiskQueue (Codec Reader Got msgToJSON readFile openRead forget_ack_id)
open Guarantees.DiskQueue

section Claim
variable (c : Codec) (o : Source.RedisQueue.Options)

/-- A call that is made of either class; housekeeping looks at the clock twice. -/
inductive Request where
  | put (message_list : List Message)
  | get (maximum_messages_to_get : Int)
  | on_housekeeping (called now : ℚ)

/-- What a call shows: the messages, or that it raises, and the length after it. -/
abbrev Shown := Option (List Message) × Int

def Request.call : Request → Source.DiskQueue.Call
  | .put message_list => .put message_list
  | .get maximum => .get maximum
  | .on_housekeeping _ now => .on_housekeeping now 0

def diskQueue : Component Request Source.DiskQueue.Queue Shown where
  step q request := q.after c o.toOptions request.call
  observe q request :=
    let out := q.perform c o.toOptions request.call
    (if out.raised then none else some out.returned,
      (q.after c o.toOptions request.call).memory.len)

/-- The server, and the clock of the object. -/
structure Server where
  redis : Source.RedisQueue.Redis
  now : ℚ

def Server.perform (s : Server) : Request → Source.RedisQueue.Outcome
  | .put message_list => Source.RedisQueue.put c message_list s.redis s.now
  | .get maximum => Source.RedisQueue.get c o maximum s.redis s.now
  | .on_housekeeping called now => Source.RedisQueue.on_housekeeping c o called now s.redis s.now

def redisQueue : Component Request Server Shown where
  step s request := ⟨(s.perform c o request).redis, (s.perform c o request).now⟩
  observe s request := ((s.perform c o request).returned, (s.perform c o request).redis.len)

/-- No files. -/
def emptyDisk (now : ℚ) : Source.DiskQueue.Queue :=
  Source.DiskQueue.construct now ⟨none, none, none, 0⟩

/-- No items; the construction marks the time of housekeeping. -/
def emptyServer (now : ℚ) : Server := ⟨⟨[], [], [], now, none⟩, now⟩

/-- The message reads back, with a line feed after it and without. -/
structure RoundTrips (message : Message) : Prop extends Lossless c message where
  bare : c.decode (c.encode message) = .ok (some message)

/-- The messages round-trip and have a key and an age; housekeeping comes after the interval. -/
def InDomain (_ : Source.DiskQueue.Queue) (s : Server) : Request → Prop
  | .put message_list => ∀ message ∈ message_list,
      RoundTrips c message ∧ ∀ now, Handled c o.toOptions now message
  | .get _ => True
  | .on_housekeeping called _ => s.redis.lasthk + o.housekeeping ≤ called

/-- `get` can take off the acknowledgement of every unexpired message that it comes to. -/
def Releasing (q : Source.DiskQueue.Queue) : Request → Prop
  | .get maximum => ∀ message,
      ComesTo o.toOptions q.memory.now maximum (ahead c q.disk q.memory) message →
        Fresh o.toOptions q.memory.now message → ∃ kept, forget_ack_id message = .ok kept
  | _ => True

end Claim

section Loops
variable (c : Codec) (o : Source.RedisQueue.Options)

/-- Both classes can keep the message. -/
structure Keepable (message : Message) : Prop where
  trips : RoundTrips c message
  handled : ∀ now, Handled c o.toOptions now message

theorem popped_encode {message : Message} (keepable : Keepable c o message) :
    Source.RedisQueue.popped c (c.encode message) = .ok (some message) := by
  have full := handled_nonempty c o.toOptions (keepable.handled 0)
  unfold Source.RedisQueue.popped Source.RedisQueue._msgFromJSON
  rw [keepable.trips.bare]
  simp [Except.map, full]

/-- The two loops of `get` take the same messages off the same front. -/
theorem getLoops_agree (now : ℚ) (maximum : Int) (ms : List Message) (queue_fp : Option Reader)
    (ml : List Message) (msg_count : Int) (keepable : ∀ m ∈ ms, Keepable c o m)
    (releasing : ∀ message, ComesTo o.toOptions now (maximum - ml.length) (ms.map .ok) message →
      Fresh o.toOptions now message → ∃ kept, forget_ack_id message = .ok kept) :
    ∃ taken rest kept, ms = taken ++ rest ∧
      Source.RedisQueue.getLoop c o now maximum (ms.map c.encode) ml =
        (rest.map c.encode, some kept) ∧
      (Source.DiskQueue.getLoop o.toOptions now maximum (ms.map .ok) queue_fp ml msg_count =
          .finished kept ∧ rest = [] ∨
        Source.DiskQueue.getLoop o.toOptions now maximum (ms.map .ok) queue_fp ml msg_count =
          .enough (if taken = [] then queue_fp else some (rest.map .ok)) kept
            (msg_count - taken.length)) := by
  induction ms generalizing queue_fp ml msg_count with
  | nil =>
    refine ⟨[], [], ml, rfl, ?_⟩
    unfold Source.RedisQueue.getLoop Source.DiskQueue.getLoop
    by_cases full : maximum ≤ ml.length
    · simp [full]
    · simp [full]
  | cons message ms ih =>
    have tail := fun m member => keepable m (List.mem_cons_of_mem message member)
    have head := keepable message List.mem_cons_self
    unfold Source.RedisQueue.getLoop Source.DiskQueue.getLoop
    by_cases full : maximum ≤ ml.length
    · refine ⟨[], message :: ms, ml, rfl, ?_⟩
      simp [full]
    · rw [if_neg full, if_neg full, List.map_cons, List.map_cons]
      dsimp only
      obtain ⟨-, expired, age⟩ := head.handled now
      have nonempty := handled_nonempty c o.toOptions (head.handled now)
      rw [popped_encode c o head, nonempty]
      simp only [Bool.false_eq_true, if_false, Source.RedisQueue._is_expired, age]
      -- what the loops do after this message, they do with it
      have next (kept : List Message) (width : (kept.length : Int) =
          ml.length + if Fresh o.toOptions now message then 1 else 0) :
          ∃ taken rest kept', message :: ms = taken ++ rest ∧
            Source.RedisQueue.getLoop c o now maximum (ms.map c.encode) kept =
              (rest.map c.encode, some kept') ∧
            (Source.DiskQueue.getLoop o.toOptions now maximum (ms.map .ok) (some (ms.map .ok)) kept
                (msg_count - 1) = .finished kept' ∧ rest = [] ∨
              Source.DiskQueue.getLoop o.toOptions now maximum (ms.map .ok) (some (ms.map .ok)) kept
                (msg_count - 1) = .enough (if taken = [] then queue_fp else some (rest.map .ok)) kept'
                  (msg_count - taken.length)) := by
        obtain ⟨taken, rest, kept', split, redis, disk⟩ := ih (some (ms.map .ok)) kept (msg_count - 1)
          tail fun m comes => releasing m (.cons o.toOptions nonempty (by
            rw [width] at comes
            rwa [sub_sub]))
        refine ⟨message :: taken, rest, kept', congrArg (message :: ·) split, redis, ?_⟩
        refine disk.imp id fun enough => ?_
        rw [enough, if_neg (List.cons_ne_nil _ _), List.length_cons]
        rw [reader_after split]
        congr 1
        push_cast
        omega
      cases expired with
      | true => exact next ml (by simp [Fresh, age])
      | false =>
        have here : ComesTo o.toOptions now (maximum - ml.length) (.ok message :: ms.map .ok) message :=
          ⟨[], ms.map .ok, rfl, by simpa using nonempty, by simp; omega⟩
        obtain ⟨kept, forgets⟩ := releasing message here age
        rw [forgets]
        exact next (ml ++ [kept]) (by simp [Fresh, age])

/-- The loop over one list writes what the loop over one file writes. -/
theorem mergeLoop_agrees (now : ℚ) (ms : List Message) (done after : Source.DiskQueue.Merge)
    (keepable : ∀ m ∈ ms, Keepable c o m)
    (run : Source.DiskQueue.merge c o.toOptions now .none (ms.map .ok) done = .ok after) :
    Source.RedisQueue.mergeLoop c o now (ms.map c.encode)
        ⟨done.retry_cache, done.written.map c.encode, done.written.length⟩ =
      ([], ⟨after.retry_cache, after.written.map c.encode, after.written.length⟩, false) := by
  induction ms generalizing done with
  | nil =>
    obtain rfl := Except.ok.inj run
    rfl
  | cons message ms ih =>
    have tail := fun m member => keepable m (List.mem_cons_of_mem message member)
    have head := keepable message List.mem_cons_self
    have nonempty := handled_nonempty c o.toOptions (head.handled now)
    rw [List.map_cons, Source.DiskQueue.merge, nonempty] at run
    rw [List.map_cons, Source.RedisQueue.mergeLoop, popped_encode c o head]
    unfold Source.RedisQueue.requeue Source.RedisQueue._needs_requeuing
    dsimp only
    cases needs : Source.DiskQueue.needs_requeuing c o.toOptions now done.retry_cache message with
    | error e =>
      rw [needs] at run
      cases run
    | ok result =>
      obtain ⟨needed, seen⟩ := result
      rw [needs] at run
      cases needed with
      | false => exact ih { done with retry_cache := seen } tail run
      | true =>
        have rest := ih _ tail run
        simpa [bind, Except.bind, pure, Except.pure, Source.RedisQueue._msgToJSON] using rest

end Loops

section Steps
variable (c : Codec) (o : Source.RedisQueue.Options)

/-- The two hold the same: `qs` can be fetched, `ns` was added. -/
structure Agrees (q : Source.DiskQueue.Queue) (s : Server) (qs ns : List Message) : Prop where
  read : ahead c q.disk q.memory = qs.map .ok
  count : q.memory.msg_count = qs.length
  closed : qs = [] → q.memory.queue_fp = none ∧ q.disk.queue_file = none
  new : readFile c q.disk.new_path = ns.map .ok
  countNew : q.memory.msg_count_new = ns.length
  ended : NewEnded q.disk
  queue : s.redis.queue = qs.map c.encode
  added : s.redis.new = ns.map c.encode
  unlocked : s.redis.lock = none
  clock : q.memory.now = s.now
  keepable : ∀ message ∈ qs ++ ns, Keepable c o message

theorem Agrees.len {q : Source.DiskQueue.Queue} {s : Server} {qs ns : List Message}
    (agrees : Agrees c o q s qs ns) : q.memory.len = s.redis.len := by
  unfold Source.DiskQueue.Memory.len Source.RedisQueue.Redis.len
  rw [agrees.count, agrees.countNew, agrees.queue, agrees.added, List.length_map, List.length_map]
  omega

/-- What a call is to show and to leave: the same. -/
def Matches (q : Source.DiskQueue.Queue) (s : Server) (request : Request) : Prop :=
  (∃ qs ns, Agrees c o ((diskQueue c o).step q request) ((redisQueue c o).step s request) qs ns) ∧
    (q.perform c o.toOptions request.call).raised = false ∧
    (s.perform c o request).returned = some (q.perform c o.toOptions request.call).returned

theorem matches_of (qs ns : List Message) {q : Source.DiskQueue.Queue} {s : Server}
    {request : Request} {disk : Source.DiskQueue.Outcome} {redis : Source.RedisQueue.Outcome}
    (first : q.perform c o.toOptions request.call = disk) (second : s.perform c o request = redis)
    (agrees : Agrees c o (disk.queue q.disk) ⟨redis.redis, redis.now⟩ qs ns)
    (raised : disk.raised = false) (returned : redis.returned = some disk.returned) :
    Matches c o q s request := by
  subst first
  subst second
  exact ⟨⟨qs, ns, agrees⟩, raised, returned⟩

theorem put_matches (message_list : List Message) {q : Source.DiskQueue.Queue} {s : Server}
    {qs ns : List Message} (agrees : Agrees c o q s qs ns)
    (keepable : ∀ message ∈ message_list, Keepable c o message) :
    Matches c o q s (.put message_list) := by
  have batch := openRead_text c 0 message_list fun m member => (keepable m member).trips.toLossless
  have queue : (q.disk.append_new (text c message_list)).queue_file = q.disk.queue_file := by
    unfold Source.DiskQueue.Disk.append_new
    split <;> rfl
  refine ⟨⟨qs, ns ++ message_list, ?_⟩, rfl, rfl⟩
  refine ⟨?_, agrees.count, fun none => ?_, ?_, ?_, append_new_ended c message_list agrees.ended,
    agrees.queue, ?_, agrees.unlocked, agrees.clock, ?_⟩
  · change q.memory.queue_fp.getD (readFile c (q.disk.append_new (text c message_list)).queue_file) = _
    rw [queue]
    exact agrees.read
  · exact ⟨(agrees.closed none).1, queue.trans (agrees.closed none).2⟩
  · change readFile c (q.disk.append_new (text c message_list)).new_path = _
    rw [append_new_reads c fun _ => agrees.ended, agrees.new, batch, List.map_append]
  · change q.memory.msg_count_new + message_list.length = _
    rw [agrees.countNew, List.length_append, Nat.cast_add]
  · change s.redis.new ++ message_list.map c.encode = _
    rw [agrees.added, List.map_append]
  · intro message member
    rw [← List.append_assoc] at member
    obtain old | added := List.mem_append.mp member
    · exact agrees.keepable message old
    · exact keepable message added

/-- `get` at the end of the queue file: the file is removed. -/
def drained (q : Source.DiskQueue.Queue) (ml : List Message) : Source.DiskQueue.Outcome :=
  ⟨if q.disk.queue_file.isSome then [q.disk.unlink_queue] else [],
    { q.memory with queue_fp := none, msg_count := 0 }, ml, false⟩

theorem drained_files (q : Source.DiskQueue.Queue) (ml : List Message) :
    ((drained q ml).disk q.disk).queue_file = none ∧
      ((drained q ml).disk q.disk).new_path = q.disk.new_path := by
  unfold drained Source.DiskQueue.Outcome.disk
  cases present : q.disk.queue_file with
  | none => exact ⟨present, rfl⟩
  | some f => exact ⟨rfl, rfl⟩

/-- `get` by the end of its loop. -/
def gotten (q : Source.DiskQueue.Queue) : Got → Source.DiskQueue.Outcome
  | .finished ml => drained q ml
  | .enough queue_fp ml msg_count =>
    if msg_count = 0 then drained q ml
    else ⟨[], { q.memory with queue_fp, msg_count }, ml, false⟩
  | .raised queue_fp msg_count => ⟨[], { q.memory with queue_fp, msg_count }, [], true⟩

theorem disk_get (maximum : Int) {q : Source.DiskQueue.Queue} {fp : Reader} {got : Got}
    (busy : q.memory.msg_count ≠ 0) (reader : ahead c q.disk q.memory = fp)
    (loop : Source.DiskQueue.getLoop o.toOptions q.memory.now maximum fp q.memory.queue_fp []
      q.memory.msg_count = got) :
    q.perform c o.toOptions (.get maximum) = gotten q got := by
  change Source.DiskQueue.get c o.toOptions maximum q.disk q.memory = _
  change q.memory.queue_fp.getD (q.disk.queue_file.elim [] (openRead c)) = fp at reader
  unfold Source.DiskQueue.get
  rw [if_neg fun idle => busy idle.1]
  dsimp only
  rw [reader, loop]
  cases got <;> rfl

theorem redis_get (maximum : Int) {s : Server} {qs rest : List Message} {kept : Option (List Message)}
    (unlocked : s.redis.lock = none) (queue : s.redis.queue = qs.map c.encode)
    (loop : Source.RedisQueue.getLoop c o s.now maximum (qs.map c.encode) [] =
      (rest.map c.encode, kept)) :
    s.perform c o (.get maximum) =
      ⟨{ s.redis with queue := rest.map c.encode }, s.now, kept⟩ := by
  change Source.RedisQueue.get c o maximum s.redis s.now = _
  have open_ : ¬ s.redis.lock.isSome = true := by simp [unlocked]
  unfold Source.RedisQueue.get
  rw [if_neg open_, queue, loop]

theorem get_matches (maximum : Int) {q : Source.DiskQueue.Queue} {s : Server}
    {qs ns : List Message} (agrees : Agrees c o q s qs ns) (releasing : Releasing c o q (.get maximum)) :
    Matches c o q s (.get maximum) := by
  obtain ⟨taken, rest, kept, split, redis, disk⟩ := getLoops_agree c o q.memory.now maximum qs
    q.memory.queue_fp [] q.memory.msg_count
    (fun m member => agrees.keepable m (List.mem_append_left _ member)) (by
      rw [← agrees.read]
      simpa [Releasing] using releasing)
  rw [agrees.clock] at redis
  have server := redis_get c o maximum agrees.unlocked agrees.queue redis
  have width : (qs.length : Int) = taken.length + rest.length := by
    rw [split, List.length_append, Nat.cast_add]
  have keepable : ∀ message ∈ rest ++ ns, Keepable c o message := by
    intro message member
    apply agrees.keepable message
    rw [split, List.append_assoc]
    exact List.mem_append_right _ member
  -- the server's side is the same however the disk queue ends
  have leaves (after : Source.DiskQueue.Outcome)
      (same : q.perform c o.toOptions (.get maximum) = after)
      (returned : after.returned = kept) (raised : after.raised = false)
      (agree : ahead c (after.disk q.disk) after.memory = rest.map .ok ∧
        after.memory.msg_count = rest.length ∧
          (rest = [] → after.memory.queue_fp = none ∧ (after.disk q.disk).queue_file = none))
      (other : (after.disk q.disk).new_path = q.disk.new_path ∧
        after.memory.msg_count_new = q.memory.msg_count_new ∧ after.memory.now = q.memory.now) :
      Matches c o q s (.get maximum) := by
    obtain ⟨read, count, closed⟩ := agree
    have ended := agrees.ended
    unfold NewEnded at ended
    rw [← other.1] at ended
    refine matches_of c o rest ns same server ?_ raised (congrArg some returned.symm)
    exact ⟨read, count, closed, (congrArg (readFile c) other.1).trans agrees.new,
      other.2.1.trans agrees.countNew, ended, rfl, agrees.added, agrees.unlocked,
      other.2.2.trans agrees.clock, keepable⟩
  have ends (none : rest = []) (same : q.perform c o.toOptions (.get maximum) = drained q kept) :
      Matches c o q s (.get maximum) := by
    obtain ⟨file, new⟩ := drained_files q kept
    refine leaves _ same rfl rfl ⟨?_, by rw [none]; rfl, fun _ => ⟨rfl, file⟩⟩ ⟨new, rfl, rfl⟩
    rw [none]
    change readFile c _ = _
    rw [file]
    rfl
  by_cases empty : qs = []
  · obtain ⟨closed, absent⟩ := agrees.closed empty
    have counts : q.memory.msg_count = 0 := by simp [agrees.count, empty]
    have nothing : rest = [] := (List.append_eq_nil_iff.mp (split.symm.trans empty)).2
    refine leaves ⟨[], q.memory, [], false⟩ ?_ ?_ rfl ?_ ⟨rfl, rfl, rfl⟩
    · change Source.DiskQueue.get c o.toOptions maximum q.disk q.memory = _
      unfold Source.DiskQueue.get
      rw [if_pos ⟨counts, by simp [closed]⟩]
    · rw [empty, List.map_nil, Source.RedisQueue.getLoop] at redis
      split at redis <;> exact Option.some.inj (congrArg Prod.snd redis)
    · refine ⟨agrees.read.trans (by rw [empty, nothing]), ?_, fun _ => ⟨closed, absent⟩⟩
      rw [nothing]
      exact counts
  · have busy : q.memory.msg_count ≠ 0 := by
      intro idle
      have counts := agrees.count.symm.trans idle
      exact empty (List.eq_nil_of_length_eq_zero (by omega))
    obtain ⟨finished, none⟩ | enough := disk
    · exact ends none (disk_get c o maximum busy agrees.read finished)
    · have same := disk_get c o maximum busy agrees.read enough
      have left : q.memory.msg_count - taken.length = rest.length := by
        rw [agrees.count]
        omega
      rw [gotten, left] at same
      by_cases none : rest = []
      · rw [if_pos (by simp [none])] at same
        exact ends none same
      · rw [if_neg (by simpa using none)] at same
        refine leaves _ same rfl rfl ⟨?_, rfl, fun nothing => absurd nothing none⟩ ⟨rfl, rfl, rfl⟩
        change (if taken = [] then q.memory.queue_fp else some (rest.map .ok)).getD
          (readFile c q.disk.queue_file) = _
        split
        · next fresh =>
          rw [fresh, List.nil_append] at split
          rw [← split]
          exact agrees.read
        · rfl

/-- The server's housekeeping of an empty main list, by what the loop over `.new` writes. -/
theorem redis_housekeeping (called now : ℚ) {s : Server} {ns kept : List Message}
    {seen : List Str} (interval : s.redis.lasthk + o.housekeeping ≤ called)
    (unlocked : s.redis.lock = none) (queue : s.redis.queue = [])
    (new : s.redis.new = ns.map c.encode)
    (loop : Source.RedisQueue.mergeLoop c o now (ns.map c.encode) ⟨[], [], 0⟩ =
      ([], ⟨seen, kept.map c.encode, kept.length⟩, false)) :
    ∃ hk, s.perform c o (.on_housekeeping called now) =
      ⟨⟨kept.map c.encode, [], hk, now, none⟩, now, some []⟩ := by
  change ∃ hk, Source.RedisQueue.on_housekeeping c o called now s.redis s.now = _
  have late : ¬ s.redis.lasthk + o.housekeeping > called := not_lt.mpr interval
  have open_ : ¬ s.redis.lock.isSome = true := by simp [unlocked]
  have empty : ¬ 0 < s.redis.queue.length := by simp [queue]
  unfold Source.RedisQueue.on_housekeeping
  rw [if_neg late, if_neg open_, if_neg empty, queue, new]
  simp only [Source.RedisQueue.mergeLoop, Bool.false_eq_true, if_false, loop]
  cases kept with
  | nil => exact ⟨[], by simp [unlocked]⟩
  | cons message kept => exact ⟨[], by simp [Source.RedisQueue.Redis.rename, unlocked]⟩

theorem housekeeping_matches (called now : ℚ) {q : Source.DiskQueue.Queue} {s : Server}
    {qs ns : List Message} (agrees : Agrees c o q s qs ns)
    (interval : s.redis.lasthk + o.housekeeping ≤ called) :
    Matches c o q s (.on_housekeeping called now) := by
  have disk : q.perform c o.toOptions (Request.on_housekeeping called now).call =
    Source.DiskQueue.on_housekeeping c o.toOptions .none now q.disk q.memory := rfl
  by_cases empty : qs = []
  · subst empty
    obtain ⟨closed, absent⟩ := agrees.closed rfl
    have counts : q.memory.msg_count = 0 := agrees.count
    have idle : Source.DiskQueue.still_retrying q.disk q.memory = false := by
      simp [Source.DiskQueue.still_retrying, absent, counts]
    have all : AllHandled c o.toOptions now q.disk := by
      intro item member
      rw [absent, agrees.new] at member
      obtain ⟨message, known, rfl⟩ := List.mem_map.mp member
      exact ⟨message, rfl, (agrees.keepable message known).handled now⟩
    have held : stored c q.disk = ns := by
      unfold stored messages
      rw [absent, agrees.new]
      simp [readFile, List.filterMap_map, Function.comp_def, Except.toOption]
    obtain ⟨after, run⟩ := merge_handled c o.toOptions now .none ns ⟨[], [], []⟩
      (fun m member => (agrees.keepable m member).handled now) rfl
    obtain ⟨writes, -⟩ := merge_ok c o.toOptions (fun m member =>
      handled_nonempty c o.toOptions ((agrees.keepable m member).handled now)) run
    have loop := mergeLoop_agrees c o now ns ⟨[], [], []⟩ after agrees.keepable run
    have writes : after.written = survivors c o.toOptions now [] ns := writes
    rw [writes] at loop
    obtain ⟨hk, server⟩ := redis_housekeeping c o called now interval agrees.unlocked agrees.queue
      agrees.added loop
    obtain ⟨new, stays, moves⟩ :=
      on_housekeeping_files c o.toOptions .none now q.disk q.memory idle
    have result : Source.DiskQueue.written .none (Source.DiskQueue.mergeFiles c o.toOptions now .none
        q.disk) = _ := mergeFiles_handled c o.toOptions all rfl
    rw [held] at result
    rw [result] at stays moves
    have memory : (Source.DiskQueue.on_housekeeping c o.toOptions .none now q.disk q.memory).memory =
        ⟨none, (survivors c o.toOptions now [] ns).length, 0, now⟩ := by
      unfold Source.DiskQueue.on_housekeeping
      rw [if_neg (by simp [idle]), result]
    have quiet : (Source.DiskQueue.on_housekeeping c o.toOptions .none now q.disk q.memory).raised =
        false ∧ (Source.DiskQueue.on_housekeeping c o.toOptions .none now q.disk q.memory).returned =
          [] := by
      unfold Source.DiskQueue.on_housekeeping
      rw [if_neg (by simp [idle])]
      exact ⟨rfl, rfl⟩
    have keepable : ∀ m ∈ survivors c o.toOptions now [] ns, Keepable c o m := fun m member =>
      agrees.keepable m ((survivors_sublist c o.toOptions now [] ns).subset member)
    generalize Source.DiskQueue.on_housekeeping c o.toOptions .none now q.disk q.memory = out at *
    generalize survivors c o.toOptions now [] ns = kept at *
    refine matches_of c o kept [] disk server ?_ quiet.1 (by rw [quiet.2])
    have file : readFile c (out.disk q.disk).queue_file = kept.map .ok := by
      by_cases none : kept = []
      · rw [stays none, absent, none]
        rfl
      · obtain ⟨mtime, written⟩ := moves none
        rw [written]
        exact openRead_text c mtime kept fun m member => (keepable m member).trips.toLossless
    refine ⟨?_, by rw [show (out.queue q.disk).memory = out.memory from rfl, memory], fun none => ?_,
      ?_, ?_, ?_, rfl, rfl, rfl, ?_, by simpa using keepable⟩
    · change out.memory.queue_fp.getD (readFile c (out.disk q.disk).queue_file) = _
      rw [memory]
      exact file
    · refine ⟨congrArg Source.DiskQueue.Memory.queue_fp memory, ?_⟩
      exact (stays none).trans absent
    · exact congrArg (readFile c) new
    · exact congrArg Source.DiskQueue.Memory.msg_count_new memory
    · exact .inl (congrArg (fun file => Option.elim file [] Source.DiskQueue.File.text) new)
    · exact congrArg Source.DiskQueue.Memory.now memory
  · have busy : Source.DiskQueue.still_retrying q.disk q.memory = true := by
      have counts : q.memory.msg_count ≠ 0 := by
        rw [agrees.count]
        simpa using empty
      simp [Source.DiskQueue.still_retrying, counts]
    have diskStays : Source.DiskQueue.on_housekeeping c o.toOptions .none now q.disk q.memory =
        ⟨[], q.memory, [], false⟩ := by
      unfold Source.DiskQueue.on_housekeeping
      rw [if_pos busy]
    have redisStays : s.perform c o (.on_housekeeping called now) = ⟨s.redis, s.now, some []⟩ := by
      change Source.RedisQueue.on_housekeeping c o called now s.redis s.now = _
      have late : ¬ s.redis.lasthk + o.housekeeping > called := not_lt.mpr interval
      have open_ : ¬ s.redis.lock.isSome = true := by simp [agrees.unlocked]
      have full : 0 < s.redis.queue.length := by
        rw [agrees.queue, List.length_map]
        exact List.length_pos_of_ne_nil empty
      unfold Source.RedisQueue.on_housekeeping
      rw [if_neg late, if_neg open_, if_pos full]
    exact matches_of c o qs ns (disk.trans diskStays) redisStays agrees rfl rfl

end Steps

section Runs
variable (c : Codec) (o : Source.RedisQueue.Options)

/-- The calls in the domain under which `get` never raises. -/
def Guard (q : Source.DiskQueue.Queue) (s : Server) (request : Request) : Prop :=
  InDomain c o q s request ∧ Releasing c o q request

theorem request_matches {q : Source.DiskQueue.Queue} {s : Server} {request : Request}
    {qs ns : List Message} (agrees : Agrees c o q s qs ns) (guard : Guard c o q s request) :
    Matches c o q s request := by
  cases request with
  | put message_list =>
    exact put_matches c o message_list agrees fun m member =>
      ⟨(guard.1 m member).1, (guard.1 m member).2⟩
  | get maximum => exact get_matches c o maximum agrees guard.2
  | on_housekeeping called now => exact housekeeping_matches c o called now agrees guard.1

/-- The queues hold the same messages, and show the same. -/
def simulation : Simulation (diskQueue c o) (redisQueue c o) (Guard c o) where
  Rel q s := ∃ qs ns, Agrees c o q s qs ns
  step rel guard := by
    obtain ⟨qs, ns, agrees⟩ := rel
    exact (request_matches c o agrees guard).1
  observe rel guard := by
    obtain ⟨qs, ns, agrees⟩ := rel
    obtain ⟨⟨qs', ns', after⟩, raised, returned⟩ := request_matches c o agrees guard
    refine Prod.ext ?_ after.len
    change (if _ then none else some _) = _
    rw [raised]
    exact returned.symm

theorem empty_agrees (now : ℚ) : Agrees c o (emptyDisk now) (emptyServer now) [] [] :=
  ⟨rfl, rfl, fun _ => ⟨rfl, rfl⟩, rfl, rfl, .inl rfl, rfl, rfl, rfl, rfl, nofun⟩

/-- The two return the same messages and have the same length, call by call. -/
theorem trace_agrees (now : ℚ) (requests : List Request)
    (guarded : Guarded (diskQueue c o) (redisQueue c o) (Guard c o) (emptyDisk now) (emptyServer now)
      requests) :
    (diskQueue c o).trace (emptyDisk now) requests =
      (redisQueue c o).trace (emptyServer now) requests :=
  (simulation c o).trace_eq ⟨[], [], empty_agrees c o now⟩ guarded

theorem roundTrips_of_tearable {message : Message} (tearable : Tearable c message) :
    RoundTrips c message :=
  ⟨tearable.toLossless, tearable.unended⟩

/-- Housekeeping every ten seconds, and no expiry. -/
def everyTen : Source.RedisQueue.Options := ⟨forever, 10⟩

/-- One notice is put, merged and fetched. -/
def oneNotice : List Request := [.put [firstNotice], .on_housekeeping 10 10, .get 1]

def oneMerged : Source.DiskQueue.Queue :=
  (diskQueue runCodec everyTen).step
    ((diskQueue runCodec everyTen).step (emptyDisk 0) (.put [firstNotice])) (.on_housekeeping 10 10)

theorem oneMerged_ahead : ahead runCodec oneMerged.disk oneMerged.memory = [.ok firstNotice] := by
  have file : ∃ mtime, oneMerged.disk.queue_file = some ⟨text runCodec [firstNotice], mtime⟩ :=
    ⟨(oneMerged.disk.queue_file.elim 0 Source.DiskQueue.File.mtime), by decide +kernel⟩
  have closed : oneMerged.memory.queue_fp = none := by decide +kernel
  obtain ⟨mtime, file⟩ := file
  unfold ahead
  rw [closed, file, Option.getD_none]
  exact run_read mtime firstNotice List.mem_cons_self

theorem oneNotice_agrees : (diskQueue runCodec everyTen).trace (emptyDisk 0) oneNotice =
    (redisQueue runCodec everyTen).trace (emptyServer 0) oneNotice := by
  apply trace_agrees
  refine ⟨⟨?_, trivial⟩, ⟨?_, trivial⟩, ⟨trivial, ?_⟩, trivial⟩
  · intro message member
    rw [List.mem_singleton.mp member]
    have good := run_good firstNotice List.mem_cons_self
    exact ⟨roundTrips_of_tearable runCodec good.tearable, good.handleable.handled⟩
  · change (0 : ℚ) + 10 ≤ 10
    norm_num
  · intro message comes _
    change ComesTo forever oneMerged.memory.now 1 (ahead runCodec oneMerged.disk oneMerged.memory)
      message at comes
    rw [oneMerged_ahead] at comes
    obtain ⟨before, rest, split, -⟩ := comes
    have member : (.ok message : Except Fault Message) ∈ [.ok firstNotice] := by
      rw [split]
      simp
    rw [Except.ok.inj (List.mem_singleton.mp member)]
    exact ⟨_, rfl⟩

/-- A notice with an `ack_id` that is not listed for removal. -/
def unlisted : Message :=
  [("baseUrl", .str "http://host".toList), ("relPath", .str "b".toList),
    ("pubTime", .str "20200101T000000".toList), ("ack_id", .str "1".toList)]

def unlistedCodec : Codec := plainCodec [unlisted]

theorem unlisted_tearable : Tearable unlistedCodec unlisted := by
  apply plainCodec_tearable _ unlisted List.mem_cons_self
  · exact List.pairwise_singleton _ _
  · decide +kernel
  · decide +kernel
  · decide +kernel

/-- `get` raises in both, and the disk queue goes on counting the notice. -/
theorem unlisted_disagrees :
    ¬ ∀ (c : Codec) (o : Source.RedisQueue.Options) (now : ℚ) (requests : List Request),
      Guarded (diskQueue c o) (redisQueue c o) (InDomain c o) (emptyDisk now) (emptyServer now)
        requests →
      (diskQueue c o).trace (emptyDisk now) requests =
        (redisQueue c o).trace (emptyServer now) requests := by
  intro always
  have same := always unlistedCodec everyTen 0 [.put [unlisted], .on_housekeeping 10 10, .get 1] (by
    refine ⟨fun message member => ?_, ?_, trivial, trivial⟩
    · rw [List.mem_singleton.mp member]
      exact ⟨roundTrips_of_tearable _ unlisted_tearable, fun now => ⟨⟨_, rfl⟩, _, rfl⟩⟩
    · change (0 : ℚ) + 10 ≤ 10
      norm_num)
  have lengths := congrArg (List.map Prod.snd) same
  revert lengths
  decide +kernel

end Runs

end Sarracenia.Guarantees.RedisQueue
