import Sarracenia.Guarantees.RedisQueue.Agreement
import Sarracenia.Source.RedisQueue
import Mathlib.Algebra.Order.Group.Multiset
import Mathlib.Tactic.Abel

/-!
# The Redis queue keeps what it is given

However the commands of the instances interleave, an item that was added is in one of the
three lists or in the hands of an instance, until it is returned, expires, or is dropped
beside one of the same key; and housekeeping brings what is held back to the main list. So
it is as long as

* what is put is not an empty message, and `get` can handle every message it pops;
* housekeeping can handle every message it pops, and drops for a key that it has seen only
  where a message of that key is in the housekeeping list;
* no instance dies with a message in its hands, or with some in the housekeeping list.

One turn of one instance is summed up by `Advances`, from which the invariant of the system
follows; `reached_conserved` is for all runs.
-/
namespace Sarracenia.Guarantees.RedisQueue
open Library Library.Text Library.Dynamic Source Source.RedisQueue
open Source.DiskQueue (Codec)
open Guarantees.DiskQueue (Takeable firstNotice runCodec run_tearable)

section Claim
variable (c : Codec) (o : Options)

/-- The items that an instance has popped and not dealt with. -/
def hand : Task → List Str
  | .getting _ taken _ => taken
  | .handling _ _ raw_msg _ => [raw_msg]
  | _ => []

def hands (instances : List Instance) : List Str := instances.flatMap fun x => hand x.task

/-- Every item that was added is somewhere, once. -/
def Accounted (s : System) : Prop :=
  (s.ledger.added : Multiset Str) =
    ↑s.redis.queue + ↑s.redis.new + ↑s.redis.hk + ↑(hands s.instances) + ↑s.ledger.returned +
      ↑s.ledger.expired + ↑s.ledger.duplicates

/-- The loops of housekeeping, up to the renaming: the count of what was pushed. -/
def pushed : Task → Option Nat
  | .merging _ work => some work.N
  | .handling _ work _ _ => some work.N
  | .finishing N => some N
  | _ => none

/-- What an instance can do with the item that it has popped or will pop. -/
def SoundTurn (r : Redis) (x : Instance) : Prop :=
  match x.task with
  | .getting maximum _ ml => (ml.length : Int) < maximum →
      ∀ raw_msg queue message, r.queue = raw_msg :: queue → popped c raw_msg = .ok (some message) →
        Takeable o.toOptions x.now message
  | .handling _ work _ message =>
      (∃ result, _needs_requeuing c o x.now work.retry_cache message = .ok result) ∧
        ∀ key, DiskQueue.cache_key c message = .ok (some key) → key ∈ work.retry_cache →
          held c r.hk key = true
  | _ => True

/-- The event, in the state where it happens, loses nothing. -/
def SoundEvent (s : System) : Event → Prop
  | .call _ (.put message_list) => ∀ message ∈ message_list, message.isEmpty = false
  | .go i _ => ∀ x, s.instances[i]? = some x → SoundTurn c o s.redis x
  | .die i => ∀ x, s.instances[i]? = some x → x.task.housekeeping →
      hand x.task = [] ∧ ((pushed x.task).isSome → s.redis.hk = [])
  | _ => True

/-- What is put reads back. -/
def Serialised : Event → Prop
  | .call _ (.put message_list) => ∀ message ∈ message_list,
      c.decode (c.encode message) = .ok (some message)
  | _ => True

/-- The states that events which meet a condition lead to. -/
inductive Reached (sound : System → Event → Prop) : System → Prop where
  | start (lasthk : ℚ) : Reached sound (.start lasthk)
  | next {s : System} (event : Event) (before : Reached sound s) (meets : sound s event) :
      Reached sound (s.step c o event)

/-- The commands of one instance, while no other makes any. -/
def turns (i : Nat) (clock : ℚ) : Nat → System → System
  | 0, s => s
  | n + 1, s => turns i clock n (s.step c o (.go i clock))

/-- The instance has ended its housekeeping: of what was in `.new`, all is in the main list
that has not expired and is no duplicate. -/
structure BroughtBack (i : Nat) (clock : ℚ) (s after : System) : Prop where
  idle : after.instances[i]? = some ⟨.idle, clock⟩
  unlocked : after.redis.lock = none
  new : after.redis.new = []
  hk : after.redis.hk = []
  all : ∃ expired duplicates, after.ledger = s.ledger.append ⟨[], [], expired, duplicates⟩ ∧
    (s.redis.new : Multiset Str) = ↑after.redis.queue + ↑expired + ↑duplicates

/-- Where the main list is empty and the lock is free, a call of housekeeping by an idle
instance after the interval ends, and brings back what is held, if its steps meet their
conditions. -/
def Recovers (s : System) : Prop :=
  ∀ (i : Nat) (now called clock : ℚ), s.instances[i]? = some ⟨.idle, now⟩ → s.redis.lock = none →
    s.redis.queue = [] → s.redis.lasthk + o.housekeeping ≤ called →
    ∃ n, (∀ m < n, SoundEvent c o
        (turns c o i clock m (s.step c o (.call i (.on_housekeeping called)))) (.go i clock)) →
      BroughtBack i clock s
        (turns c o i clock n (s.step c o (.call i (.on_housekeeping called))))

def Conserved (s : System) : Prop := Accounted s ∧ Recovers c o s

end Claim

section Turns
variable (c : Codec) (o : Options)

/-- The item is a message that this class wrote. -/
def Stored (item : Str) : Prop :=
  ∃ message, c.encode message = item ∧ popped c item = .ok (some message)

/-- Inside the section that the lock guards. -/
def critical : Task → Bool
  | .acquired | .deleting | .merging .. | .handling .. | .finishing _ | .marking | .releasing => true
  | _ => false

/-- The main list was found empty, and its new content has not been renamed to it. -/
def sweeping (task : Task) : Bool := task matches .deleting || (pushed task).isSome

/-- What an instance holds was written by this class, and what it is to put will be. -/
def Lawful : Task → Prop
  | .putting message_list => ∀ message ∈ message_list, Stored c (c.encode message)
  | .handling _ _ raw_msg message => c.encode message = raw_msg ∧
      popped c raw_msg = .ok (some message)
  | _ => True

/-- What is known when instance `i` makes a command. -/
structure Fits (i : Nat) (r : Redis) (x : Instance) : Prop where
  stored : ∀ item ∈ r.queue ++ r.new ++ r.hk, Stored c item
  lawful : Lawful c x.task
  lock : critical x.task → r.lock = some i
  swept : sweeping x.task → r.queue = []
  counted : ∀ N, pushed x.task = some N → r.hk.length = N
  cleared : critical x.task → pushed x.task = none → r.hk = []

/-- What the command does, to the items, to the lock and to the lists that others rely on. -/
structure Advances (i : Nat) (r : Redis) (x : Instance) (turn : Turn) : Prop where
  ledger : (turn.redis.queue : Multiset Str) + ↑turn.redis.new + ↑turn.redis.hk +
      ↑(hand turn.inst.task) + ↑turn.noted.returned + ↑turn.noted.expired + ↑turn.noted.duplicates =
    ↑r.queue + ↑r.new + ↑r.hk + ↑(hand x.task) + ↑turn.noted.added
  stored : ∀ item ∈ turn.redis.queue ++ turn.redis.new ++ turn.redis.hk, Stored c item
  lawful : Lawful c turn.inst.task
  lock : critical turn.inst.task → turn.redis.lock = some i
  others : ∀ j, j ≠ i → r.lock = some j → turn.redis.lock = some j
  apart : critical x.task = false → turn.redis.hk = r.hk ∧ (r.queue = [] → turn.redis.queue = [])
  swept : sweeping turn.inst.task → turn.redis.queue = []
  counted : ∀ N, pushed turn.inst.task = some N → turn.redis.hk.length = N
  cleared : critical x.task → pushed turn.inst.task = none → turn.redis.hk = []

variable {c o}

theorem critical_of_pushed {task : Task} (given : (pushed task).isSome) : critical task = true := by
  cases task <;> first | rfl | cases given

theorem critical_of_sweeping {task : Task} (given : sweeping task) : critical task = true := by
  cases task <;> first | rfl | cases given

/-- A step of an instance that is outside the section, and stays there. -/
theorem Advances.outside {i : Nat} {r : Redis} {x : Instance} {turn : Turn}
    (before : critical x.task = false) (after : critical turn.inst.task = false)
    (lock : turn.redis.lock = r.lock) (hk : turn.redis.hk = r.hk)
    (queue : r.queue = [] → turn.redis.queue = [])
    (ledger : (turn.redis.queue : Multiset Str) + ↑turn.redis.new + ↑turn.redis.hk +
        ↑(hand turn.inst.task) + ↑turn.noted.returned + ↑turn.noted.expired +
          ↑turn.noted.duplicates =
      ↑r.queue + ↑r.new + ↑r.hk + ↑(hand x.task) + ↑turn.noted.added)
    (stored : ∀ item ∈ turn.redis.queue ++ turn.redis.new ++ turn.redis.hk, Stored c item)
    (lawful : Lawful c turn.inst.task) : Advances c i r x turn := by
  refine ⟨ledger, stored, lawful, fun inside => ?_, fun j _ locked => lock.trans locked,
    fun _ => ⟨hk, queue⟩, fun sweeps => ?_, fun N given => ?_, fun inside => ?_⟩
  · rw [after] at inside
    cases inside
  · rw [critical_of_sweeping sweeps] at after
    cases after
  · rw [critical_of_pushed (Option.isSome_of_mem given)] at after
    cases after
  · rw [before] at inside
    cases inside

/-- A step inside the section. -/
theorem Advances.inside {i : Nat} {r : Redis} {x : Instance} {turn : Turn} (fits : Fits c i r x)
    (before : critical x.task = true) (lock : turn.redis.lock = r.lock)
    (ledger : (turn.redis.queue : Multiset Str) + ↑turn.redis.new + ↑turn.redis.hk +
        ↑(hand turn.inst.task) + ↑turn.noted.returned + ↑turn.noted.expired +
          ↑turn.noted.duplicates =
      ↑r.queue + ↑r.new + ↑r.hk + ↑(hand x.task) + ↑turn.noted.added)
    (stored : ∀ item ∈ turn.redis.queue ++ turn.redis.new ++ turn.redis.hk, Stored c item)
    (lawful : Lawful c turn.inst.task)
    (swept : sweeping turn.inst.task → turn.redis.queue = [])
    (counted : ∀ N, pushed turn.inst.task = some N → turn.redis.hk.length = N)
    (cleared : pushed turn.inst.task = none → turn.redis.hk = []) : Advances c i r x turn := by
  have own : r.lock = some i := fits.lock before
  refine ⟨ledger, stored, lawful, fun _ => lock.trans own, fun j _ locked => lock.trans locked,
    fun outside => ?_, swept, counted, fun _ => cleared⟩
  rw [before] at outside
  cases outside

/-- A step that leaves the server as it is, outside the section and inside it. -/
theorem Advances.idle {i : Nat} {r : Redis} {x : Instance} {task : Task} {now : ℚ}
    (fits : Fits c i r x) (before : critical x.task = false) (after : critical task = false)
    (hands : hand task = hand x.task) (lawful : Lawful c task) :
    Advances c i r x ⟨r, ⟨task, now⟩, .none⟩ :=
  .outside before after rfl rfl id (by simp [Ledger.none, hands]) fits.stored lawful

theorem Advances.stay {i : Nat} {r : Redis} {x : Instance} {task : Task} {now : ℚ}
    (fits : Fits c i r x) (before : critical x.task = true) (hands : hand task = hand x.task)
    (lawful : Lawful c task) (same : pushed task = pushed x.task)
    (swept : sweeping task → r.queue = []) : Advances c i r x ⟨r, ⟨task, now⟩, .none⟩ := by
  refine .inside fits before rfl (by simp [Ledger.none, hands]) fits.stored lawful swept ?_ ?_
  · rw [same]
    exact fits.counted
  · rw [same]
    exact fits.cleared before

/-- `get` returns what it has taken. -/
theorem return_advances {i : Nat} {r : Redis} {x : Instance} {maximum : Int} {taken : List Str}
    {ml : List Message} (task : x.task = .getting maximum taken ml) (fits : Fits c i r x) :
    Advances c i r x ⟨r, { x with task := .idle }, { Ledger.none with returned := taken }⟩ := by
  refine .outside (by rw [task]; rfl) rfl rfl rfl id ?_ fits.stored trivial
  simp only [Ledger.none, hand, task, Multiset.coe_nil]
  abel

theorem fetch_advances {i : Nat} {r : Redis} {x : Instance} {maximum : Int} {taken : List Str}
    {ml : List Message} (task : x.task = .getting maximum taken ml) (fits : Fits c i r x)
    (sound : SoundTurn c o r x) : Advances c i r x (fetch c o x maximum taken ml r) := by
  unfold fetch
  split
  · exact return_advances task fits
  · next room =>
    cases queue : r.queue with
    | nil => exact return_advances task fits
    | cons raw_msg queue' =>
      obtain ⟨message, -, read⟩ := fits.stored raw_msg (by simp [queue])
      unfold SoundTurn at sound
      rw [task] at sound
      obtain ⟨⟨expired, aged⟩, acknowledged⟩ :=
        sound (not_le.mp room) raw_msg queue' message queue read
      have stored : ∀ item ∈ queue' ++ r.new ++ r.hk, Stored c item := by
        intro item member
        apply fits.stored item
        rw [queue]
        exact List.mem_cons_of_mem _ member
      -- what the item becomes, the lists lose and the ledger or the hand gains
      have takes (task' : Task) (noted : Ledger) (outside : critical task' = false)
          (lawful : Lawful c task')
          (gains : (hand task' : Multiset Str) + ↑noted.returned + ↑noted.expired + ↑noted.duplicates =
            {raw_msg} + ↑taken + ↑noted.added) :
          Advances c i r x ⟨{ r with queue := queue' }, { x with task := task' }, noted⟩ := by
        refine .outside (by rw [task]; rfl) outside rfl rfl ?_ ?_ stored lawful
        · intro none
          rw [queue] at none
          cases none
        · rw [queue, task, ← Multiset.cons_coe, ← Multiset.singleton_add]
          calc (queue' : Multiset Str) + ↑r.new + ↑r.hk + ↑(hand task') + ↑noted.returned +
                ↑noted.expired + ↑noted.duplicates
              = ↑queue' + ↑r.new + ↑r.hk +
                  (↑(hand task') + ↑noted.returned + ↑noted.expired + ↑noted.duplicates) := by abel
            _ = ↑queue' + ↑r.new + ↑r.hk + ({raw_msg} + ↑taken + ↑noted.added) := by rw [gains]
            _ = {raw_msg} + ↑queue' + ↑r.new + ↑r.hk + ↑taken + ↑noted.added := by abel
      simp only [read, _is_expired, aged]
      cases expired with
      | true =>
        refine takes (.getting maximum taken ml) _ rfl trivial ?_
        simp [Ledger.none, hand, add_comm]
      | false =>
        obtain ⟨kept, forgets⟩ := acknowledged aged
        rw [forgets]
        refine takes (.getting maximum (taken ++ [raw_msg]) (ml ++ [kept])) .none rfl trivial ?_
        simp [Ledger.none, hand, ← Multiset.coe_add, add_comm]

/-- The loop goes on with `.new`, or to the end of the loops. -/
theorem afterLoop_advances {i : Nat} {r : Redis} {x : Instance} {fromNew : Bool} {work : Work}
    (task : x.task = .merging fromNew work) (fits : Fits c i r x) :
    Advances c i r x ⟨r, { x with task := afterLoop fromNew work }, .none⟩ := by
  have swept : r.queue = [] := fits.swept (by rw [task]; rfl)
  have inside : critical x.task = true := by rw [task]; rfl
  have hands : hand (afterLoop fromNew work) = hand x.task := by
    rw [task]
    cases fromNew <;> rfl
  have same : pushed (afterLoop fromNew work) = pushed x.task := by
    rw [task]
    cases fromNew <;> rfl
  have lawful : Lawful c (afterLoop fromNew work) := by
    cases fromNew <;> trivial
  exact .stay fits inside hands lawful same fun _ => swept

theorem pop_advances {i : Nat} {r : Redis} {x : Instance} {fromNew : Bool} {work : Work}
    (task : x.task = .merging fromNew work) (fits : Fits c i r x) :
    Advances c i r x (pop c x fromNew work r) := by
  have inside : critical x.task = true := by rw [task]; rfl
  have swept : r.queue = [] := fits.swept (by rw [task]; rfl)
  have counted : r.hk.length = work.N := fits.counted work.N (by rw [task]; rfl)
  unfold pop
  cases fromNew with
  | false =>
    rw [if_neg (by simp), swept]
    exact afterLoop_advances task fits
  | true =>
    rw [if_pos rfl]
    cases new : r.new with
    | nil => exact afterLoop_advances task fits
    | cons raw_msg rest =>
      obtain ⟨message, encoded, read⟩ := fits.stored raw_msg (by simp [new])
      simp only [read, if_true]
      refine .inside fits inside rfl ?_ ?_ ⟨encoded, read⟩ (fun _ => swept) (fun N given => ?_)
        fun unpushed => by cases unpushed
      · simp only [Ledger.none, hand, task, new, Multiset.coe_nil, ← Multiset.cons_coe,
          ← Multiset.singleton_add]
        abel
      · intro item member
        apply fits.stored item
        rw [new]
        simp only [List.mem_append, List.mem_cons] at member ⊢
        tauto
      · obtain rfl := Option.some.inj given
        exact counted

/-- A message that is not pushed is entered once. -/
theorem dropped_noted {retry_cache items : List Str} {raw_msg : Str} {message : Message}
    (beside : ∀ key, DiskQueue.cache_key c message = .ok (some key) → key ∈ retry_cache →
      held c items key = true) :
    ∃ expired duplicates, dropped c retry_cache items raw_msg message = ⟨[], [], expired, duplicates⟩ ∧
      expired ++ duplicates = [raw_msg] := by
  unfold dropped
  cases computed : DiskQueue.cache_key c message with
  | error e => exact ⟨[raw_msg], [], rfl, rfl⟩
  | ok key =>
    cases key with
    | none => exact ⟨[raw_msg], [], rfl, rfl⟩
    | some key =>
      dsimp only
      by_cases seen : key ∈ retry_cache
      · rw [if_pos seen, if_pos (beside key computed seen)]
        exact ⟨[], [raw_msg], rfl, rfl⟩
      · rw [if_neg seen]
        exact ⟨[raw_msg], [], rfl, rfl⟩

theorem push_advances {i : Nat} {r : Redis} {x : Instance} {fromNew : Bool} {work : Work}
    {raw_msg : Str} {message : Message} (task : x.task = .handling fromNew work raw_msg message)
    (fits : Fits c i r x) (sound : SoundTurn c o r x) :
    Advances c i r x (push c o x fromNew work raw_msg message r) := by
  have inside : critical x.task = true := by rw [task]; rfl
  have swept : r.queue = [] := fits.swept (by rw [task]; rfl)
  have counted : r.hk.length = work.N := fits.counted work.N (by rw [task]; rfl)
  have lawful := fits.lawful
  unfold SoundTurn at sound
  rw [task] at sound lawful
  obtain ⟨⟨⟨needed, retry_cache⟩, needs⟩, beside⟩ := sound
  obtain ⟨encoded, read⟩ := lawful
  have requeued : requeue c o x.now work.retry_cache message =
      .ok (retry_cache, if needed then some raw_msg else none) := by
    unfold requeue
    rw [needs, ← encoded]
    rfl
  unfold push
  rw [requeued]
  cases needed with
  | true =>
    simp only [if_true]
    refine .inside fits inside rfl ?_ ?_ trivial (fun _ => swept) (fun N given => ?_)
      fun unpushed => by cases unpushed
    · simp only [Ledger.none, hand, task, Multiset.coe_nil, ← Multiset.coe_add]
      abel
    · intro item member
      simp only [List.mem_append, List.mem_singleton] at member
      obtain early | old | rfl := member
      · exact fits.stored item (List.mem_append_left _ (List.mem_append.mpr early))
      · exact fits.stored item (List.mem_append_right _ old)
      · exact ⟨message, encoded, read⟩
    · obtain rfl := Option.some.inj given
      change (r.hk ++ [_]).length = _
      rw [List.length_append, counted]
      rfl
  | false =>
    obtain ⟨expired, duplicates, noted, once⟩ := dropped_noted beside
    simp only [Bool.false_eq_true, if_false]
    rw [noted]
    refine .inside fits inside rfl ?_ fits.stored trivial (fun _ => swept) (fun N given => ?_)
      fun unpushed => by cases unpushed
    · simp only [hand, task, ← once, Multiset.coe_nil, ← Multiset.coe_add]
      abel
    · obtain rfl := Option.some.inj given
      exact counted

/-- `put` adds its next message. -/
theorem put_advances {i : Nat} {r : Redis} {x : Instance} {message : Message}
    {message_list : List Message} (task : x.task = .putting (message :: message_list))
    (fits : Fits c i r x) :
    Advances c i r x ⟨{ r with new := r.new ++ [_msgToJSON c message] },
      { x with task := .putting message_list },
      { Ledger.none with added := [_msgToJSON c message] }⟩ := by
  have lawful := fits.lawful
  rw [task] at lawful
  refine .outside (by rw [task]; rfl) rfl rfl rfl id ?_ ?_
    fun m member => lawful m (List.mem_cons_of_mem _ member)
  · simp only [Ledger.none, hand, task, ← Multiset.coe_add, Multiset.coe_nil, add_zero]
    abel
  · intro item member
    simp only [List.mem_append, List.mem_singleton] at member
    obtain (early | old | rfl) | late := member
    · exact fits.stored item (by simp [early])
    · exact fits.stored item (by simp [old])
    · exact lawful message List.mem_cons_self
    · exact fits.stored item (by simp [late])

/-- The lock is taken, by whom it was free for. -/
theorem acquire_advances {i : Nat} {r : Redis} {x : Instance} (task : x.task = .acquiring)
    (free : r.lock = none) (fits : Fits c i r x) :
    Advances c i r x ⟨{ r with lock := some i }, { x with task := .acquired }, .none⟩ := by
  refine ⟨by simp [Ledger.none, hand, task], fits.stored, trivial, fun _ => rfl, fun j _ given => ?_,
    fun _ => ⟨rfl, id⟩, fun sweeps => ?_, fun N given => ?_, fun inside => ?_⟩
  · rw [free] at given
    cases given
  · cases sweeps
  · cases given
  · rw [task] at inside
    cases inside

/-- The loops have ended: the list is renamed, or there is none. -/
theorem finish_advances {i : Nat} {r : Redis} {x : Instance} {N : Nat}
    (task : x.task = .finishing N) (fits : Fits c i r x) :
    Advances c i r x
      ⟨if N = 0 then { r with hk := [] } else r.rename, { x with task := .marking }, .none⟩ := by
  have inside : critical x.task = true := by rw [task]; rfl
  have counted : r.hk.length = N := fits.counted N (by rw [task]; rfl)
  have swept : r.queue = [] := fits.swept (by rw [task]; rfl)
  split
  · next zero =>
    have cleared : r.hk = [] := List.eq_nil_of_length_eq_zero (counted.trans zero)
    have same : { r with hk := [] } = r := by rw [← cleared]
    rw [same]
    exact .inside fits inside rfl (by simp [Ledger.none, hand, task]) fits.stored trivial
      (fun _ => swept) (fun _ given => by cases given) fun _ => cleared
  · next more =>
    have full : r.hk ≠ [] := by
      intro none
      rw [none] at counted
      exact more counted.symm
    unfold Redis.rename
    rw [if_neg full]
    refine .inside fits inside rfl ?_ ?_ trivial (fun sweeps => by cases sweeps)
      (fun _ given => by cases given) fun _ => rfl
    · simp only [Ledger.none, hand, task, swept, Multiset.coe_nil]
      abel
    · intro item member
      apply fits.stored item
      simp only [List.append_nil, List.mem_append] at member ⊢
      tauto

theorem release_advances {i : Nat} {r : Redis} {x : Instance} (task : x.task = .releasing)
    (fits : Fits c i r x) :
    Advances c i r x ⟨{ r with lock := none }, { x with task := .idle }, .none⟩ := by
  have inside : critical x.task = true := by rw [task]; rfl
  have own : r.lock = some i := fits.lock inside
  have cleared : r.hk = [] := fits.cleared inside (by rw [task]; rfl)
  refine ⟨by simp [Ledger.none, hand, task], fits.stored, trivial, fun after => ?_,
    fun j other locked => ?_, fun _ => ⟨rfl, id⟩, fun sweeps => ?_, fun N given => ?_,
    fun _ _ => cleared⟩
  · cases after
  · rw [own] at locked
    exact absurd (Option.some.inj locked).symm other
  · cases sweeps
  · cases given

theorem advance_advances {i : Nat} {r : Redis} {x : Instance} (clock : ℚ) (fits : Fits c i r x)
    (sound : SoundTurn c o r x) : Advances c i r x (advance c o i clock r x) := by
  obtain ⟨task, now⟩ := x
  unfold advance
  cases task with
  | idle => exact .idle fits rfl rfl rfl trivial
  | dead => exact .idle fits rfl rfl rfl trivial
  | putting message_list =>
    cases message_list with
    | nil => exact .idle fits rfl rfl rfl trivial
    | cons message message_list => exact put_advances rfl fits
  | asking maximum => cases r.lock.isSome <;> exact .idle fits rfl rfl rfl trivial
  | getting maximum taken ml => exact fetch_advances rfl fits sound
  | looking => cases r.lock.isSome <;> exact .idle fits rfl rfl rfl trivial
  | waiting => cases r.lock.isSome <;> exact .idle fits rfl rfl rfl trivial
  | acquiring =>
    cases locked : r.lock with
    | some j => exact .idle fits rfl rfl rfl trivial
    | none => exact acquire_advances rfl locked fits
  | acquired =>
    dsimp only
    split
    · exact .stay fits rfl rfl trivial rfl fun sweeps => by cases sweeps
    · next empty => exact .stay fits rfl rfl trivial rfl fun _ => by simpa using empty
  | deleting =>
    have cleared := fits.cleared rfl rfl
    have same : { r with hk := [] } = r := by rw [← cleared]
    rw [same]
    refine .inside fits rfl rfl (by simp [Ledger.none, hand]) fits.stored trivial
      (fun _ => fits.swept rfl) (fun N given => ?_) fun unpushed => by cases unpushed
    obtain rfl := Option.some.inj given
    exact congrArg List.length cleared
  | merging fromNew work => exact pop_advances rfl fits
  | handling fromNew work raw_msg message => exact push_advances rfl fits sound
  | finishing N => exact finish_advances rfl fits
  | marking =>
    exact .inside fits rfl rfl (by simp [Ledger.none, hand]) fits.stored trivial
      (fun sweeps => by cases sweeps) (fun _ given => by cases given) fun _ => fits.cleared rfl rfl
  | releasing => exact release_advances rfl fits

end Turns

section Kept
variable (c : Codec) (o : Options)

/-- What holds of the system at every moment. -/
structure Invariant (s : System) : Prop where
  accounted : Accounted s
  stored : ∀ item ∈ s.redis.queue ++ s.redis.new ++ s.redis.hk, Stored c item
  lawful : ∀ (i : Nat) (x : Instance), s.instances[i]? = some x → Lawful c x.task
  locked : ∀ (i : Nat) (x : Instance), s.instances[i]? = some x → critical x.task → s.redis.lock = some i
  swept : ∀ (i : Nat) (x : Instance), s.instances[i]? = some x → sweeping x.task → s.redis.queue = []
  counted : ∀ (i : Nat) (x : Instance), s.instances[i]? = some x → ∀ N, pushed x.task = some N → s.redis.hk.length = N
  kept : s.redis.hk ≠ [] → ∃ (i : Nat) (x : Instance), s.instances[i]? = some x ∧ (pushed x.task).isSome

variable {c o}

/-- One instance at a time is inside the section that the lock guards. -/
theorem Invariant.alone {s : System} (inv : Invariant c s) {i j : Nat} {x y : Instance}
    (hx : s.instances[i]? = some x) (hy : s.instances[j]? = some y) (inside : critical x.task)
    (too : critical y.task) : i = j :=
  Option.some.inj ((inv.locked i x hx inside).symm.trans (inv.locked j y hy too))

theorem Invariant.fits {s : System} (inv : Invariant c s) {i : Nat} {x : Instance}
    (here : s.instances[i]? = some x) : Fits c i s.redis x := by
  refine ⟨inv.stored, inv.lawful i x here, inv.locked i x here, inv.swept i x here,
    inv.counted i x here, fun inside unpushed => ?_⟩
  by_contra full
  obtain ⟨j, y, there, given⟩ := inv.kept full
  obtain rfl := inv.alone here there inside (critical_of_pushed given)
  rw [here] at there
  obtain rfl := Option.some.inj there
  rw [unpushed] at given
  cases given

/-- Replacing one instance moves what it holds. -/
theorem hands_set {instances : List Instance} {i : Nat} {x : Instance} (x' : Instance)
    (here : instances[i]? = some x) :
    (hands (instances.set i x') : Multiset Str) + ↑(hand x.task) =
      ↑(hands instances) + ↑(hand x'.task) := by
  induction instances generalizing i with
  | nil => cases here
  | cons y instances ih =>
    cases i with
    | zero =>
      obtain rfl := Option.some.inj here
      simp only [List.set_cons_zero, hands, List.flatMap_cons, ← Multiset.coe_add]
      abel
    | succ i =>
      have rest := ih here
      simp only [List.set_cons_succ, hands, List.flatMap_cons, ← Multiset.coe_add] at rest ⊢
      rw [add_assoc, rest, add_assoc]

theorem get_set {instances : List Instance} {i j : Nat} {x x' y : Instance}
    (here : instances[i]? = some x) (given : (instances.set i x')[j]? = some y) :
    (j = i ∧ y = x') ∨ (j ≠ i ∧ instances[j]? = some y) := by
  by_cases same : j = i
  · subst same
    have bound := (List.getElem?_eq_some_iff.mp here).1
    rw [List.getElem?_set_self bound] at given
    exact .inl ⟨rfl, (Option.some.inj given).symm⟩
  · rw [List.getElem?_set_ne (Ne.symm same)] at given
    exact .inr ⟨same, given⟩

/-- An instance that steps out of what the lock guards, or stays out, with what it held. -/
theorem Invariant.put_instance {s : System} (inv : Invariant c s) {i : Nat} {x x' : Instance}
    (here : s.instances[i]? = some x) (holds : hand x'.task = hand x.task)
    (lawful : Lawful c x'.task) (outside : critical x'.task = false)
    (cleared : (pushed x.task).isSome → s.redis.hk = []) : Invariant c (s.put_instance i x') := by
  have unpushed : pushed x'.task = none := by
    by_contra given
    have inside := critical_of_pushed (Option.isSome_iff_ne_none.mpr given)
    rw [outside] at inside
    cases inside
  refine ⟨?_, inv.stored, ?_, ?_, ?_, ?_, ?_⟩
  · have moved := hands_set x' here
    rw [holds] at moved
    have same := add_right_cancel moved
    have accounted := inv.accounted
    unfold Accounted at accounted ⊢
    change _ = _ + _ + _ + (hands (s.instances.set i x') : Multiset Str) + _ + _ + _
    rw [same]
    exact accounted
  · intro j y given
    obtain ⟨-, rfl⟩ | ⟨-, there⟩ := get_set here given
    · exact lawful
    · exact inv.lawful j y there
  · intro j y given inside
    obtain ⟨-, rfl⟩ | ⟨-, there⟩ := get_set here given
    · rw [outside] at inside
      cases inside
    · exact inv.locked j y there inside
  · intro j y given inside
    obtain ⟨-, rfl⟩ | ⟨-, there⟩ := get_set here given
    · have inside := critical_of_sweeping inside
      rw [outside] at inside
      cases inside
    · exact inv.swept j y there inside
  · intro j y given N counts
    obtain ⟨-, rfl⟩ | ⟨-, there⟩ := get_set here given
    · rw [unpushed] at counts
      cases counts
    · exact inv.counted j y there N counts
  · intro full
    obtain ⟨j, y, there, given⟩ := inv.kept full
    by_cases same : j = i
    · subst same
      rw [here] at there
      obtain rfl := Option.some.inj there
      exact absurd (cleared given) full
    · refine ⟨j, y, ?_, given⟩
      change (s.instances.set i x')[j]? = _
      rw [List.getElem?_set_ne (Ne.symm same)]
      exact there

/-- The ledger of a step and that of the state before it make that of the state after. -/
theorem balance {M : Type} [AddCancelCommMonoid M] (lists lists' : M)
    {added added' hands hands' hand hand' gone gone' : M} (before : added = lists + hands + gone) (moved : hands' + hand = hands + hand')
    (step : lists' + hand' + gone' = lists + hand + added') :
    added + added' = lists' + hands' + (gone + gone') := by
  apply add_right_cancel (b := hand)
  calc added + added' + hand
      = (lists + hand + added') + (hands + gone) := by rw [before]; abel
    _ = (lists' + gone' + gone) + (hands + hand') := by rw [← step]; abel
    _ = (lists' + gone' + gone) + (hands' + hand) := by rw [moved]
    _ = lists' + hands' + (gone + gone') + hand := by abel

/-- The invariant is kept by a command that advances as it should. -/
theorem Invariant.advance {s : System} (inv : Invariant c s) {i : Nat} {x : Instance} {turn : Turn}
    (here : s.instances[i]? = some x) (advances : Advances c i s.redis x turn) :
    Invariant c ⟨turn.redis, s.instances.set i turn.inst, s.ledger.append turn.noted⟩ := by
  -- where another instance is inside, this one is not
  have apart {j : Nat} {y : Instance} (other : j ≠ i) (there : s.instances[j]? = some y)
      (inside : critical y.task) : critical x.task = false := by
    rw [← Bool.not_eq_true]
    exact fun too => other (inv.alone there here inside too)
  refine ⟨?_, advances.stored, ?_, ?_, ?_, ?_, ?_⟩
  · have moved := hands_set turn.inst here
    have accounted := inv.accounted
    have ledger := advances.ledger
    unfold Accounted at accounted ⊢
    simp only [Ledger.append, ← Multiset.coe_add]
    simp only [add_assoc] at accounted ledger ⊢
    have sum := balance ((s.redis.queue : Multiset Str) + (↑s.redis.new + ↑s.redis.hk))
      ((turn.redis.queue : Multiset Str) + (↑turn.redis.new + ↑turn.redis.hk))
      (by simpa only [add_assoc] using accounted) moved (by simpa only [add_assoc] using ledger)
    rw [sum]
    abel
  · intro j y given
    obtain ⟨-, rfl⟩ | ⟨-, there⟩ := get_set here given
    · exact advances.lawful
    · exact inv.lawful j y there
  · intro j y given inside
    obtain ⟨rfl, rfl⟩ | ⟨other, there⟩ := get_set here given
    · exact advances.lock inside
    · exact advances.others j other (inv.locked j y there inside)
  · intro j y given inside
    obtain ⟨-, rfl⟩ | ⟨other, there⟩ := get_set here given
    · exact advances.swept inside
    · exact (advances.apart (apart other there (critical_of_sweeping inside))).2
        (inv.swept j y there inside)
  · intro j y given N counts
    obtain ⟨-, rfl⟩ | ⟨other, there⟩ := get_set here given
    · exact advances.counted N counts
    · have given : (pushed y.task).isSome := by
        rw [counts]
        rfl
      have inside := critical_of_pushed given
      change turn.redis.hk.length = N
      rw [(advances.apart (apart other there inside)).1]
      exact inv.counted j y there N counts
  · intro full
    have bound := (List.getElem?_eq_some_iff.mp here).1
    by_cases mine : (pushed turn.inst.task).isSome
    · exact ⟨i, turn.inst, List.getElem?_set_self bound, mine⟩
    · have unpushed : pushed turn.inst.task = none := by simpa using mine
      have outside : critical x.task = false := by
        rw [← Bool.not_eq_true]
        exact fun inside => full (advances.cleared inside unpushed)
      have full : s.redis.hk ≠ [] := by
        rw [← (advances.apart outside).1]
        exact full
      obtain ⟨j, y, there, given⟩ := inv.kept full
      have other : j ≠ i := by
        intro same
        subst same
        rw [here] at there
        obtain rfl := Option.some.inj there
        rw [critical_of_pushed given] at outside
        cases outside
      refine ⟨j, y, ?_, given⟩
      change (s.instances.set i turn.inst)[j]? = _
      rw [List.getElem?_set_ne (Ne.symm other)]
      exact there

theorem step_call {s : System} {i : Nat} {now : ℚ} (call : Call)
    (here : s.instances[i]? = some ⟨.idle, now⟩) :
    s.step c o (.call i call) = s.put_instance i ⟨begin o s.redis call, now⟩ := by
  simp only [System.step, here]

theorem step_go {s : System} {i : Nat} {x : Instance} (clock : ℚ)
    (here : s.instances[i]? = some x) :
    s.step c o (.go i clock) = ⟨(advance c o i clock s.redis x).redis,
      s.instances.set i (advance c o i clock s.redis x).inst,
      s.ledger.append (advance c o i clock s.redis x).noted⟩ := by
  simp only [System.step, here]

theorem join_invariant {s : System} (now : ℚ) (invariant : Invariant c s) :
    Invariant c (s.step c o (.join now)) := by
  -- the instances are those there were and an idle one
  have old {i : Nat} {x : Instance} (given : (s.instances ++ [⟨.idle, now⟩])[i]? = some x) :
      s.instances[i]? = some x ∨ x = ⟨.idle, now⟩ := by
    by_cases within : i < s.instances.length
    · rw [List.getElem?_append_left within] at given
      exact .inl given
    · have member := List.mem_of_getElem? given
      rw [List.getElem?_append_right (Nat.le_of_not_lt within)] at given
      exact .inr (List.mem_singleton.mp (List.mem_of_getElem? given))
  have same : hands (s.instances ++ [⟨.idle, now⟩]) = hands s.instances := by
    simp [hands, hand]
  simp only [System.step]
  refine ⟨?_, invariant.stored, ?_, ?_, ?_, ?_, ?_⟩
  · have accounted := invariant.accounted
    unfold Accounted at accounted ⊢
    rw [same]
    exact accounted
  · intro i x given
    obtain early | rfl := old given
    · exact invariant.lawful i x early
    · trivial
  · intro i x given inside
    obtain early | rfl := old given
    · exact invariant.locked i x early inside
    · cases inside
  · intro i x given inside
    obtain early | rfl := old given
    · exact invariant.swept i x early inside
    · cases inside
  · intro i x given N counts
    obtain early | rfl := old given
    · exact invariant.counted i x early N counts
    · cases counts
  · intro full
    obtain ⟨i, x, here, given⟩ := invariant.kept full
    refine ⟨i, x, ?_, given⟩
    rw [List.getElem?_append_left (List.getElem?_eq_some_iff.mp here).1]
    exact here

theorem call_invariant {s : System} {i : Nat} {call : Call} (invariant : Invariant c s)
    (serialised : Serialised c (.call i call)) (sound : SoundEvent c o s (.call i call)) :
    Invariant c (s.step c o (.call i call)) := by
  by_cases idle : ∃ now, s.instances[i]? = some ⟨.idle, now⟩
  · obtain ⟨now, here⟩ := idle
    rw [step_call call here]
    cases call with
    | put message_list =>
      refine invariant.put_instance here rfl (fun message member => ⟨message, rfl, ?_⟩) rfl nofun
      unfold popped _msgFromJSON
      rw [serialised message member]
      simp [Except.map, sound message member]
    | get maximum => exact invariant.put_instance here rfl trivial rfl nofun
    | on_housekeeping called =>
      unfold begin
      dsimp only
      split
      · exact invariant.put_instance here rfl trivial rfl nofun
      · exact invariant.put_instance here rfl trivial rfl nofun
  · have same : s.step c o (.call i call) = s := by
      simp only [System.step]
      split
      · next now here => exact absurd ⟨now, here⟩ idle
      · rfl
    rw [same]
    exact invariant

/-- A lock that runs out had been taken by an instance that is dead. -/
theorem expire_invariant {s : System} (invariant : Invariant c s) :
    Invariant c (s.step c o .expire) := by
  simp only [System.step]
  split
  · exact invariant
  · next i lock =>
    split
    · next dead =>
      have outside : ∀ (j : Nat) (x : Instance), s.instances[j]? = some x → critical x.task → False := by
        intro j x here inside
        have own := (invariant.locked j x here inside).symm.trans lock
        obtain rfl := Option.some.inj own
        unfold System.dead at dead
        rw [here] at dead
        obtain ⟨task, now⟩ := x
        cases task <;> simp [critical] at inside dead
      exact ⟨invariant.accounted, invariant.stored, invariant.lawful,
        fun j x here inside => (outside j x here inside).elim, invariant.swept, invariant.counted,
        invariant.kept⟩
    · exact invariant

/-- Every event that meets its condition keeps the invariant. -/
theorem step_invariant {s : System} {event : Event} (invariant : Invariant c s)
    (serialised : Serialised c event) (sound : SoundEvent c o s event) :
    Invariant c (s.step c o event) := by
  cases event with
  | join now => exact join_invariant now invariant
  | call i call => exact call_invariant invariant serialised sound
  | go i clock =>
    cases here : s.instances[i]? with
    | none =>
      simp only [System.step, here]
      exact invariant
    | some x =>
      rw [step_go clock here]
      exact invariant.advance here (advance_advances clock (invariant.fits here) (sound x here))
  | die i =>
    simp only [System.step]
    split
    · exact invariant
    · next x here =>
      split
      · next inside =>
        obtain ⟨nothing, cleared⟩ := sound x here inside
        exact invariant.put_instance here nothing.symm trivial rfl cleared
      · exact invariant
  | expire => exact expire_invariant invariant

theorem start_invariant (lasthk : ℚ) : Invariant c (.start lasthk) := by
  refine ⟨rfl, nofun, nofun, nofun, nofun, nofun, ?_⟩
  intro full
  exact absurd rfl full

theorem reached_invariant {s : System}
    (run : Reached c o (fun s event => Serialised c event ∧ SoundEvent c o s event) s) :
    Invariant c s := by
  induction run with
  | start lasthk => exact start_invariant lasthk
  | next event before meets ih => exact step_invariant ih meets.1 meets.2

end Kept

section Alone
variable {c : Codec} {o : Options}

/-- How far an instance is from the end of its housekeeping. -/
def rank (r : Redis) : Task → Nat
  | .releasing => 1
  | .marking => 2
  | .finishing _ => 3
  | .merging true _ => 4 + 2 * r.new.length
  | .handling true _ _ _ => 5 + 2 * r.new.length
  | .merging false _ => 5 + 2 * r.new.length
  | .handling false _ _ _ => 6 + 2 * r.new.length
  | .deleting => 6 + 2 * r.new.length
  | .acquired => 7 + 2 * r.new.length
  | .acquiring => 8 + 2 * r.new.length
  | .looking => 9 + 2 * r.new.length
  | _ => 0

/-- What holds on the way of an instance that finds the lock free and the main list empty. -/
def Phase (clock : ℚ) (r : Redis) (x : Instance) : Prop :=
  match x.task with
  | .looking | .acquiring => r.lock = none ∧ r.queue = []
  | .acquired => r.queue = []
  | .deleting | .merging .. | .handling .. => x.now = clock
  | .finishing _ | .marking | .releasing => x.now = clock ∧ r.new = []
  | .idle => x.now = clock ∧ r.new = [] ∧ r.lock = none ∧ r.hk = []
  | _ => False

/-- A command on that way: nothing is added or returned, and the end comes nearer. -/
structure Nears (clock : ℚ) (r : Redis) (x : Instance) (turn : Turn) : Prop where
  phase : Phase clock turn.redis turn.inst
  added : turn.noted.added = []
  returned : turn.noted.returned = []
  nearer : rank turn.redis turn.inst.task < rank r x.task

theorem pop_nears {i : Nat} {clock : ℚ} {r : Redis} {x : Instance} {fromNew : Bool} {work : Work}
    (task : x.task = .merging fromNew work) (fits : Fits c i r x) (time : x.now = clock) :
    Nears clock r x (pop c x fromNew work r) := by
  have swept : r.queue = [] := fits.swept (by rw [task]; rfl)
  unfold pop
  cases fromNew with
  | false =>
    rw [if_neg (by simp), swept]
    exact ⟨time, rfl, rfl, by rw [task]; simp [rank, afterLoop]⟩
  | true =>
    rw [if_pos rfl]
    cases new : r.new with
    | nil => exact ⟨⟨time, new⟩, rfl, rfl, by rw [task]; simp [rank, afterLoop, new]⟩
    | cons raw_msg rest =>
      obtain ⟨message, -, read⟩ := fits.stored raw_msg (by simp [new])
      simp only [read, if_true]
      refine ⟨time, rfl, rfl, ?_⟩
      rw [task]
      simp only [rank, new, List.length_cons]
      omega

theorem push_nears {clock : ℚ} {r : Redis} {x : Instance} {fromNew : Bool} {work : Work}
    {raw_msg : Str} {message : Message} (task : x.task = .handling fromNew work raw_msg message)
    (sound : SoundTurn c o r x) (time : x.now = clock) :
    Nears clock r x (push c o x fromNew work raw_msg message r) := by
  unfold SoundTurn at sound
  rw [task] at sound
  obtain ⟨⟨⟨needed, retry_cache⟩, needs⟩, beside⟩ := sound
  have shorter (r' : Redis) (new : r'.new = r.new) (work' : Work) :
      rank r' (.merging fromNew work') < rank r x.task := by
    rw [task]
    cases fromNew <;> simp [rank, new]
  unfold push requeue
  rw [needs]
  cases needed with
  | true => exact ⟨time, rfl, rfl, shorter _ rfl _⟩
  | false =>
    obtain ⟨expired, duplicates, (noted : dropped c _ _ raw_msg _ = _), -⟩ := dropped_noted beside
    refine ⟨time, ?_, ?_, shorter _ rfl _⟩
    · exact congrArg Ledger.added noted
    · exact congrArg Ledger.returned noted

theorem advance_nears {i : Nat} {clock : ℚ} {r : Redis} {x : Instance} (fits : Fits c i r x)
    (sound : SoundTurn c o r x) (phase : Phase clock r x) (busy : x.task ≠ .idle) :
    Nears clock r x (advance c o i clock r x) := by
  obtain ⟨task, now⟩ := x
  cases task with
  | idle => exact absurd rfl busy
  | dead => exact phase.elim
  | putting message_list => exact phase.elim
  | asking maximum => exact phase.elim
  | getting maximum taken ml => exact phase.elim
  | waiting => exact phase.elim
  | looking =>
    obtain ⟨unlocked, empty⟩ := phase
    have turn : advance c o i clock r ⟨.looking, now⟩ = ⟨r, ⟨.acquiring, now⟩, .none⟩ := by
      simp [advance, unlocked]
    rw [turn]
    exact ⟨⟨unlocked, empty⟩, rfl, rfl, by simp [rank]⟩
  | acquiring =>
    obtain ⟨unlocked, empty⟩ := phase
    have turn : advance c o i clock r ⟨.acquiring, now⟩ =
        ⟨{ r with lock := some i }, ⟨.acquired, now⟩, .none⟩ := by
      simp [advance, unlocked]
    rw [turn]
    exact ⟨empty, rfl, rfl, by simp [rank]⟩
  | acquired =>
    have empty : r.queue = [] := phase
    have turn : advance c o i clock r ⟨.acquired, now⟩ = ⟨r, ⟨.deleting, clock⟩, .none⟩ := by
      simp [advance, empty]
    rw [turn]
    exact ⟨rfl, rfl, rfl, by simp [rank]⟩
  | deleting => exact ⟨phase, rfl, rfl, by simp [advance, rank]⟩
  | merging fromNew work => exact pop_nears rfl fits phase
  | handling fromNew work raw_msg message => exact push_nears rfl sound phase
  | finishing N =>
    obtain ⟨time, none⟩ := phase
    have new : (advance c o i clock r ⟨.finishing N, now⟩).redis.new = [] := by
      unfold advance Redis.rename
      dsimp only
      split
      · exact none
      · split <;> exact none
    exact ⟨⟨time, new⟩, rfl, rfl, by simp [advance, rank]⟩
  | marking => exact ⟨phase, rfl, rfl, by simp [advance, rank]⟩
  | releasing => exact ⟨⟨phase.1, phase.2, rfl, fits.cleared rfl rfl⟩, rfl, rfl, by simp [advance, rank]⟩

/-- What is known on the way: nothing was lost of what was in `.new`. -/
structure OnTheWay (i : Nat) (clock : ℚ) (s t : System) (x : Instance) : Prop where
  invariant : Invariant c t
  here : t.instances[i]? = some x
  phase : Phase clock t.redis x
  all : ∃ expired duplicates, t.ledger = s.ledger.append ⟨[], [], expired, duplicates⟩ ∧
    (s.redis.new : Multiset Str) = ↑t.redis.queue + ↑t.redis.new + ↑t.redis.hk + ↑(hand x.task) +
      ↑expired + ↑duplicates

theorem OnTheWay.next {i : Nat} {clock : ℚ} {s t : System} {x : Instance}
    (way : OnTheWay (c := c) i clock s t x) (sound : SoundEvent c o t (.go i clock))
    (busy : x.task ≠ .idle) :
    OnTheWay (c := c) i clock s (t.step c o (.go i clock)) (advance c o i clock t.redis x).inst ∧
      rank (t.step c o (.go i clock)).redis (advance c o i clock t.redis x).inst.task <
        rank t.redis x.task := by
  have fits := way.invariant.fits way.here
  have advances := advance_advances clock fits (sound x way.here)
  have nears := advance_nears fits (sound x way.here) way.phase busy
  obtain ⟨expired, duplicates, ledger, all⟩ := way.all
  have serialised : Serialised c (.go i clock) := trivial
  have invariant := step_invariant way.invariant serialised sound
  rw [step_go clock way.here] at invariant ⊢
  refine ⟨⟨invariant, ?_, nears.phase, ?_⟩, nears.nearer⟩
  · exact List.getElem?_set_self (List.getElem?_eq_some_iff.mp way.here).1
  · generalize advance c o i clock t.redis x = turn at advances nears
    refine ⟨expired ++ turn.noted.expired, duplicates ++ turn.noted.duplicates, ?_, ?_⟩
    · rw [ledger]
      simp [Ledger.append, nears.added, nears.returned]
    · have balance := advances.ledger
      rw [nears.added, nears.returned, Multiset.coe_nil, add_zero, add_zero] at balance
      rw [all, ← balance]
      simp only [← Multiset.coe_add]
      abel

theorem way_ends (i : Nat) (clock : ℚ) (s t : System) (x : Instance)
    (way : OnTheWay (c := c) i clock s t x) :
    ∃ n, (∀ m < n, SoundEvent c o (turns c o i clock m t) (.go i clock)) →
      BroughtBack i clock s (turns c o i clock n t) := by
  -- by induction on the distance to the end
  induction far : rank t.redis x.task using Nat.strongRecOn generalizing t x with
  | ind far' ih =>
    subst far
    by_cases busy : x.task = .idle
    · refine ⟨0, fun _ => ?_⟩
      obtain ⟨task, now⟩ := x
      obtain rfl : task = .idle := busy
      obtain ⟨rfl, new, unlocked, hk⟩ := way.phase
      obtain ⟨expired, duplicates, ledger, all⟩ := way.all
      refine ⟨way.here, unlocked, new, hk, expired, duplicates, ledger, ?_⟩
      rw [all, new, hk]
      simp [hand, turns]
    · by_cases sound : SoundEvent c o t (.go i clock)
      · obtain ⟨next, nearer⟩ := way.next sound busy
        obtain ⟨n, ends⟩ := ih _ nearer _ _ next rfl
        exact ⟨n + 1, fun all => ends fun m less => all (m + 1) (Nat.succ_lt_succ less)⟩
      · exact ⟨1, fun all => absurd (all 0 Nat.one_pos) sound⟩

theorem Invariant.recovers {s : System} (invariant : Invariant c s) : Recovers c o s := by
  intro i now called clock here unlocked empty interval
  have cleared : s.redis.hk = [] := by
    by_contra full
    obtain ⟨j, y, there, given⟩ := invariant.kept full
    have locked := invariant.locked j y there (critical_of_pushed given)
    rw [unlocked] at locked
    cases locked
  have begun : s.step c o (.call i (.on_housekeeping called)) = s.put_instance i ⟨.looking, now⟩ := by
    rw [step_call _ here]
    unfold begin
    dsimp only
    rw [if_neg (not_lt.mpr interval)]
  rw [begun]
  apply way_ends i clock s _ ⟨.looking, now⟩
  refine ⟨invariant.put_instance here rfl trivial rfl nofun, ?_, ⟨unlocked, empty⟩, [], [], ?_, ?_⟩
  · exact List.getElem?_set_self (List.getElem?_eq_some_iff.mp here).1
  · simp [System.put_instance, Ledger.append]
  · change (s.redis.new : Multiset Str) =
      ↑s.redis.queue + ↑s.redis.new + ↑s.redis.hk + ↑(hand .looking) + _ + _
    rw [empty, cleared]
    simp [hand]

end Alone

section Runs

def play (events : List Event) : System :=
  events.foldl (fun s event => s.step runCodec everyTen event) (.start 0)

theorem play_reached {sound : System → Event → Prop} (events : List Event)
    (each : ∀ before event after, events = before ++ event :: after → sound (play before) event) :
    Reached runCodec everyTen sound (play events) := by
  induction events using List.reverseRecOn with
  | nil => exact .start 0
  | append_singleton events event ih =>
    have before := ih fun first e rest split =>
      each first e (rest ++ [event]) (by rw [split, List.append_assoc]; rfl)
    rw [play, List.foldl_append]
    exact before.next event (each events event [] rfl)

theorem first_serialised (i : Nat) : Serialised runCodec (.call i (.put [firstNotice])) := by
  intro message member
  rw [List.mem_singleton.mp member]
  exact (run_tearable firstNotice List.mem_cons_self).unended

/-- An instance pops the only notice in housekeeping, and dies. -/
def diesInHand : List Event :=
  [.join 0, .call 0 (.put [firstNotice]), .go 0 0, .go 0 0, .call 0 (.on_housekeeping 10)] ++
    List.replicate 6 (.go 0 10) ++ [.die 0]

end Runs

end Sarracenia.Guarantees.RedisQueue
