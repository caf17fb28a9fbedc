import Sarracenia.Source.DiskQueue

/-!
# The Redis queue (`sarracenia/redisqueue.py`)

Three lists of a Redis server hold the queue: the main list, `.new` for what is added, and
`.hk` while housekeeping merges the two. A lock keeps housekeeping to one instance at a
time. The operations are given here as one call does them alone; what happens when several
instances take turns is in the module of the processes. `redis` and `redis_lock` stand
outside the repository: a list is pushed at its end and popped at its head.
-/
namespace Sarracenia.Source.RedisQueue
open Library Library.Text Library.Dynamic
open Source.DiskQueue (Codec)

/-- `housekeeping` is the time that has to pass between two housekeepings. -/
structure Options extends DiskQueue.Options where
  housekeeping : ℚ

/-- What the server keeps: `key_name`, `key_name_new`, `key_name_hk`, `key_name_lasthk`, and
the instance that has the lock. -/
structure Redis where
  queue : List Str
  new : List Str
  hk : List Str
  lasthk : ℚ
  lock : Option Nat

/-- `__len__`. -/
def Redis.len (r : Redis) : Int := r.queue.length + r.new.length

/-- A list that is not there cannot be renamed. -/
def Redis.rename (r : Redis) : Redis :=
  if r.hk = [] then r else { r with queue := r.hk, hk := [] }

section Messages
variable (c : Codec) (o : Options)

def _in_cache : List Str → Message → Except Fault (Bool × List Str) := DiskQueue.in_cache c

def _is_expired : ℚ → Message → Except Fault Bool := DiskQueue.is_expired o.toOptions

def _needs_requeuing : ℚ → List Str → Message → Except Fault (Bool × List Str) :=
  DiskQueue.needs_requeuing c o.toOptions

/-- Unlike the disk queue, this class takes a `TypeError` for a corrupted item too. -/
def _msgFromJSON (message : Str) : Except Fault (Option Message) :=
  match c.decode message with
  | .error .valueError => .ok none
  | .error .typeError => .ok none
  | decoded => decoded

def _msgToJSON (message : Message) : Str := c.encode message

/-- What was popped: `not message` holds of nothing and of an empty message. -/
def popped (item : Str) : Except Fault (Option Message) :=
  (_msgFromJSON c item).map fun message => message.filter fun m => !m.isEmpty

/-- What a loop of housekeeping does with a message: the cache, and what it pushes. -/
def requeue (now : ℚ) (retry_cache : List Str) (message : Message) :
    Except Fault (List Str × Option Str) := do
  let (needed, retry_cache) ← _needs_requeuing c o now retry_cache message
  return (retry_cache, if needed then some (_msgToJSON c message) else none)

end Messages

section Operations
variable (c : Codec) (o : Options)

/-- An operation: the server and the clock of the object after it, and what it returns,
`none` where it raises. -/
structure Outcome where
  redis : Redis
  now : ℚ
  returned : Option (List Message)

def put (message_list : List Message) (r : Redis) (now : ℚ) : Outcome :=
  ⟨{ r with new := r.new ++ message_list.map (_msgToJSON c) }, now, some []⟩

/-- The loop of `get`: the main list that it leaves, and the messages. -/
def getLoop (now : ℚ) (maximum_messages_to_get : Int) :
    List Str → List Message → List Str × Option (List Message)
  | queue, ml =>
    if maximum_messages_to_get ≤ ml.length then (queue, some ml)
    else
      match queue with
      | [] => ([], some ml)
      | raw_msg :: queue =>
        match popped c raw_msg with
        | .error _ => (queue, none)
        | .ok none => (queue, some ml)
        | .ok (some message) =>
          match _is_expired o now message with
          | .error _ => (queue, none)
          | .ok true => getLoop now maximum_messages_to_get queue ml
          | .ok false =>
            match DiskQueue.forget_ack_id message with
            | .error _ => (queue, none)
            | .ok message => getLoop now maximum_messages_to_get queue (ml ++ [message])

def get (maximum_messages_to_get : Int) (r : Redis) (now : ℚ) : Outcome :=
  if r.lock.isSome then ⟨r, now, some []⟩
  else
    let (queue, returned) := getLoop c o now maximum_messages_to_get r.queue []
    ⟨{ r with queue }, now, returned⟩

/-- What the two loops of housekeeping have done; `hk` is the third list. -/
structure Merge where
  retry_cache : List Str
  hk : List Str
  N : Nat

/-- One loop of housekeeping: what it leaves of the list it pops from, what it has done, and
whether an exception was raised. -/
def mergeLoop (now : ℚ) : List Str → Merge → List Str × Merge × Bool
  | [], done => ([], done, false)
  | raw_msg :: rest, done =>
    match popped c raw_msg with
    | .error _ => (rest, done, true)
    | .ok none => (rest, done, false)
    | .ok (some message) =>
      match requeue c o now done.retry_cache message with
      | .error _ => (rest, done, true)
      | .ok (retry_cache, none) => mergeLoop now rest { done with retry_cache }
      | .ok (retry_cache, some text) =>
        mergeLoop now rest ⟨retry_cache, done.hk ++ [text], done.N + 1⟩

/-- `called` is the time when the interval is looked at, `now` when the loops start. Another
instance that has the lock is waited for, and nothing is done. -/
def on_housekeeping (called now : ℚ) (r : Redis) (before : ℚ) : Outcome :=
  if r.lasthk + o.housekeeping > called then ⟨r, before, some []⟩
  else if r.lock.isSome then ⟨r, before, some []⟩
  else if 0 < r.queue.length then ⟨r, before, some []⟩
  else
    let (queue, done, raised) := mergeLoop c o now r.queue ⟨[], [], 0⟩
    let (new, done, _) := if raised then (r.new, done, true) else mergeLoop c o now r.new done
    let r := { r with queue, new, hk := done.hk }
    let r := if done.N = 0 then { r with hk := [] } else r.rename
    ⟨{ r with lasthk := now }, now, some []⟩

end Operations

end Sarracenia.Source.RedisQueue

/-!
## Instances that share a Redis queue

Each command to the server is one step, and the steps of the instances interleave. Between
two commands an instance holds what it has popped. An instance can die inside housekeeping;
the lock it had then runs out. The ledger has the text of every item that was added, and of
those that were returned, that expired, and that were dropped beside one of the same key in
the housekeeping list.
-/
namespace Sarracenia.Source.RedisQueue
open Library Library.Text Library.Dynamic
open Source.DiskQueue (Codec)

/-- The cache and the count of the loops of housekeeping. -/
structure Work where
  retry_cache : List Str
  N : Nat

/-- Where an instance stands: which command comes next, and what it holds. -/
inductive Task where
  | idle
  | dead
  | putting (message_list : List Message)
  | asking (maximum_messages_to_get : Int)
  | getting (maximum_messages_to_get : Int) (taken : List Str) (ml : List Message)
  | looking
  | waiting
  | acquiring
  | acquired
  | deleting
  | merging (fromNew : Bool) (work : Work)
  | handling (fromNew : Bool) (work : Work) (raw_msg : Str) (message : Message)
  | finishing (N : Nat)
  | marking
  | releasing

structure Instance where
  task : Task
  now : ℚ

structure Ledger where
  added : List Str
  returned : List Str
  expired : List Str
  duplicates : List Str

def Ledger.none : Ledger := ⟨[], [], [], []⟩

def Ledger.append (a b : Ledger) : Ledger :=
  ⟨a.added ++ b.added, a.returned ++ b.returned, a.expired ++ b.expired,
    a.duplicates ++ b.duplicates⟩

/-- What one command leaves: the server, the instance, and what goes to the ledger. -/
structure Turn where
  redis : Redis
  inst : Instance
  noted : Ledger

variable (c : Codec) (o : Options)

/-- An item of the list has the key. -/
def held (items : List Str) (key : Str) : Bool :=
  items.any fun item =>
    match popped c item with
    | .ok (some message) => (DiskQueue.cache_key c message).toOption.join == some key
    | _ => false

/-- How a message that is not pushed is entered: as a duplicate where its key was seen, if
an item of that key is in the housekeeping list; else as expired. -/
def dropped (retry_cache items : List Str) (raw_msg : Str) (message : Message) : Ledger :=
  match DiskQueue.cache_key c message with
  | .ok (some key) =>
    if key ∈ retry_cache then
      if held c items key then { Ledger.none with duplicates := [raw_msg] } else .none
    else { Ledger.none with expired := [raw_msg] }
  | _ => { Ledger.none with expired := [raw_msg] }

/-- Where a loop of housekeeping goes on when its list has nothing more. -/
def afterLoop (fromNew : Bool) (work : Work) : Task :=
  if fromNew then .finishing work.N else .merging true work

/-- The command of `get` that pops an item, and what follows up to the next command. -/
def fetch (x : Instance) (maximum : Int) (taken : List Str) (ml : List Message) (r : Redis) : Turn :=
  if maximum ≤ ml.length then ⟨r, { x with task := .idle }, { Ledger.none with returned := taken }⟩
  else
    match r.queue with
    | [] => ⟨r, { x with task := .idle }, { Ledger.none with returned := taken }⟩
    | raw_msg :: queue =>
      match popped c raw_msg with
      | .error _ => ⟨{ r with queue }, { x with task := .idle }, .none⟩
      | .ok none =>
        ⟨{ r with queue }, { x with task := .idle }, { Ledger.none with returned := taken }⟩
      | .ok (some message) =>
        match _is_expired o x.now message with
        | .error _ => ⟨{ r with queue }, { x with task := .idle }, .none⟩
        | .ok true =>
          ⟨{ r with queue }, { x with task := .getting maximum taken ml },
            { Ledger.none with expired := [raw_msg] }⟩
        | .ok false =>
          match DiskQueue.forget_ack_id message with
          | .error _ => ⟨{ r with queue }, { x with task := .idle }, .none⟩
          | .ok message =>
            ⟨{ r with queue },
              { x with task := .getting maximum (taken ++ [raw_msg]) (ml ++ [message]) }, .none⟩

/-- The command of a housekeeping loop that pops an item. -/
def pop (x : Instance) (fromNew : Bool) (work : Work) (r : Redis) : Turn :=
  match if fromNew then r.new else r.queue with
  | [] => ⟨r, { x with task := afterLoop fromNew work }, .none⟩
  | raw_msg :: rest =>
    let r := if fromNew then { r with new := rest } else { r with queue := rest }
    match popped c raw_msg with
    | .error _ => ⟨r, { x with task := .finishing work.N }, .none⟩
    | .ok none => ⟨r, { x with task := afterLoop fromNew work }, .none⟩
    | .ok (some message) => ⟨r, { x with task := .handling fromNew work raw_msg message }, .none⟩

/-- The command that pushes the message that was popped, if it is to be pushed. -/
def push (x : Instance) (fromNew : Bool) (work : Work) (raw_msg : Str) (message : Message)
    (r : Redis) : Turn :=
  match requeue c o x.now work.retry_cache message with
  | .error _ => ⟨r, { x with task := .finishing work.N }, .none⟩
  | .ok (retry_cache, none) =>
    ⟨r, { x with task := .merging fromNew { work with retry_cache } },
      dropped c work.retry_cache r.hk raw_msg message⟩
  | .ok (retry_cache, some text) =>
    ⟨{ r with hk := r.hk ++ [text] },
      { x with task := .merging fromNew ⟨retry_cache, work.N + 1⟩ }, .none⟩

/-- The next command of instance `i`; `clock` is what it reads if it looks at the clock. -/
def advance (i : Nat) (clock : ℚ) (r : Redis) (x : Instance) : Turn :=
  match x.task with
  | .idle | .dead => ⟨r, x, .none⟩
  | .putting [] => ⟨r, { x with task := .idle }, .none⟩
  | .putting (message :: message_list) =>
    ⟨{ r with new := r.new ++ [_msgToJSON c message] }, { x with task := .putting message_list },
      { Ledger.none with added := [_msgToJSON c message] }⟩
  | .asking maximum =>
    ⟨r, { x with task := if r.lock.isSome then .idle else .getting maximum [] [] }, .none⟩
  | .getting maximum taken ml => fetch c o x maximum taken ml r
  | .looking => ⟨r, { x with task := if r.lock.isSome then .waiting else .acquiring }, .none⟩
  | .waiting => ⟨r, { x with task := if r.lock.isSome then .waiting else .idle }, .none⟩
  | .acquiring =>
    match r.lock with
    | some _ => ⟨r, x, .none⟩
    | none => ⟨{ r with lock := some i }, { x with task := .acquired }, .none⟩
  | .acquired =>
    if 0 < r.queue.length then ⟨r, { x with task := .releasing }, .none⟩
    else ⟨r, ⟨.deleting, clock⟩, .none⟩
  | .deleting => ⟨{ r with hk := [] }, { x with task := .merging false ⟨[], 0⟩ }, .none⟩
  | .merging fromNew work => pop c x fromNew work r
  | .handling fromNew work raw_msg message => push c o x fromNew work raw_msg message r
  | .finishing N =>
    ⟨if N = 0 then { r with hk := [] } else r.rename, { x with task := .marking }, .none⟩
  | .marking => ⟨{ r with lasthk := x.now }, { x with task := .releasing }, .none⟩
  | .releasing => ⟨{ r with lock := none }, { x with task := .idle }, .none⟩

/-- A call; housekeeping has the time at which it looks at the interval. -/
inductive Call where
  | put (message_list : List Message)
  | get (maximum_messages_to_get : Int)
  | on_housekeeping (called : ℚ)

/-- The first task of a call. -/
def begin (r : Redis) : Call → Task
  | .put message_list => .putting message_list
  | .get maximum => .asking maximum
  | .on_housekeeping called =>
    if r.lasthk + o.housekeeping > called then .idle else .looking

/-- Inside `on_housekeeping`. -/
def Task.housekeeping : Task → Bool
  | .looking | .waiting | .acquiring | .acquired | .deleting | .merging .. | .handling ..
  | .finishing _ | .marking | .releasing => true
  | _ => false

structure System where
  redis : Redis
  instances : List Instance
  ledger : Ledger

def System.start (lasthk : ℚ) : System := ⟨⟨[], [], [], lasthk, none⟩, [], .none⟩

/-- An instance is constructed; an idle instance is called; an instance makes its next
command, or dies in housekeeping; the lock of an instance that died runs out. -/
inductive Event where
  | join (now : ℚ)
  | call (i : Nat) (c : Call)
  | go (i : Nat) (clock : ℚ)
  | die (i : Nat)
  | expire

def System.put_instance (s : System) (i : Nat) (x : Instance) : System :=
  { s with instances := s.instances.set i x }

def System.dead (s : System) (i : Nat) : Bool :=
  match s.instances[i]? with
  | some ⟨.dead, _⟩ => true
  | _ => false

def System.step (s : System) : Event → System
  | .join now =>
    { s with redis := { s.redis with lasthk := now }, instances := s.instances ++ [⟨.idle, now⟩] }
  | .call i call =>
    match s.instances[i]? with
    | some ⟨.idle, now⟩ => s.put_instance i ⟨begin o s.redis call, now⟩
    | _ => s
  | .go i clock =>
    match s.instances[i]? with
    | none => s
    | some x =>
      let turn := advance c o i clock s.redis x
      ⟨turn.redis, s.instances.set i turn.inst, s.ledger.append turn.noted⟩
  | .die i =>
    match s.instances[i]? with
    | none => s
    | some x => if x.task.housekeeping then s.put_instance i { x with task := .dead } else s
  | .expire =>
    match s.redis.lock with
    | none => s
    | some i => if s.dead i then { s with redis := { s.redis with lock := none } } else s

end Sarracenia.Source.RedisQueue
