import Mathlib.Algebra.Order.Group.Multiset
import Mathlib.Tactic.Abel
import Sarracenia.Source.Watch

/-!
# What becomes of the events of a watched directory

A ledger keeps what was added, what a later event replaced, what was processed with its messages,
and what `gather` returned. The accounts balance as long as the keys tell the files apart and
no event raises while others wait behind it or messages are in hand.
-/
namespace Sarracenia.Guarantees.Watch
open Library Library.Text Library.Dynamic Source.Watch

variable {μ : Type}

/-! ## One pass over the events -/

section Pass
variable (process : Event → Except Fault (Bool × List μ))

/-- The event raises, and what it raises is no `OSError`. -/
def fails (e : Event) : Bool :=
  match process e with
  | .ok _ | .error .osError => false
  | .error _ => true

/-- The messages an event is done with, if it is. -/
def outcome (e : Event) : Option (List μ) :=
  match process e with
  | .ok (true, messages) => some messages
  | .error .osError => some []
  | .ok (false, _) | .error _ => none

/-- The events up to the first one that fails. -/
def attempted : List (Str × Event) → List (Str × Event)
  | [] => []
  | entry :: entries => if fails process entry.2 then [entry] else entry :: attempted entries

def finished (entries : List (Str × Event)) : List (Event × List μ) :=
  entries.filterMap fun entry => (outcome process entry.2).map (entry.2, ·)

def messagesOf (processed : List (Event × List μ)) : List μ := processed.flatMap (·.2)

def valuesOf (t : Table Str Event) : Multiset Event := t.entries.map (·.2)

theorem finished_cons (entry : Str × Event) (entries : List (Str × Event)) :
    finished process (entry :: entries) =
      ((outcome process entry.2).map (entry.2, ·)).toList ++ finished process entries := by
  rw [finished, List.filterMap_cons]
  cases outcome process entry.2 <;> rfl

theorem valuesOf_erase {t : Table Str Event} {key : Str} {e : Event} (there : t.get key = some e) :
    valuesOf t = {e} + valuesOf (t.erase key) := by
  have moved := (Table.erase_perm there).map (·.2)
  rw [valuesOf, Multiset.coe_eq_coe.mpr moved]
  rfl

/-- What was processed and what was walked over has been returned or is queued. -/
def Balances (processed walked returned queued : List μ) : Prop :=
  (processed ++ walked).Perm (returned ++ queued)

section Balances
variable {processed walked returned queued given rest new : List μ}

theorem balances_give (parts : given ++ rest = queued) (balances : Balances processed walked returned queued) :
    Balances processed walked (returned ++ given) rest := by
  rw [← parts] at balances
  rwa [Balances, List.append_assoc]

theorem balances_walk (n : Nat) (balances : Balances processed walked returned []) :
    Balances processed (walked ++ new) (returned ++ new.take n) (new.drop n) := by
  rw [Balances, List.append_nil] at balances
  rw [Balances, List.append_assoc returned, List.take_append_drop, ← List.append_assoc]
  exact balances.append_right new

theorem balances_process (balances : Balances processed walked returned queued) :
    Balances (processed ++ new) walked (returned ++ (queued ++ new)) [] := by
  unfold Balances at balances ⊢
  rw [List.append_nil, ← List.append_assoc, List.append_assoc processed]
  have moved : (processed ++ (new ++ walked)).Perm (processed ++ walked ++ new) := by
    rw [List.append_assoc]
    exact List.perm_append_comm.append_left processed
  exact moved.trans (balances.append_right new)

end Balances

/-- What the pass leaves, and what it gives back. -/
structure Passed (entries : List (Str × Event)) (left : Table Str Event) (messages : List μ)
    (after : Table Str Event × Except Fault (List μ)) : Prop where
  events : valuesOf left = valuesOf after.1 + ↑((finished process (attempted process entries)).map (·.1))
  kept : ∀ key e, after.1.get key = some e → left.get key = some e
  answers : (∀ entry ∈ entries, fails process entry.2 = false) →
    after.2 = .ok (messages ++ messagesOf (finished process entries))
  raises : (∃ entry ∈ entries, fails process entry.2 = true) → ∃ fault, after.2 = .error fault

variable {process}

/-- Of an event that is not done nothing is returned. -/
def Quiet (process : Event → Except Fault (Bool × List μ)) : Prop :=
  ∀ e messages, process e = .ok (false, messages) → messages = []

/-- The three ways of the loop. -/
theorem wakeupLoop_cons (quiet : Quiet process) (key : Str) (e : Event) (entries : List (Str × Event))
    (left : Table Str Event) (messages : List μ) :
    (fails process e = true ∧ outcome process e = none ∧
      ∃ fault, wakeupLoop process ((key, e) :: entries) left messages = (left, .error fault)) ∨
    (∃ new, fails process e = false ∧ outcome process e = some new ∧
      wakeupLoop process ((key, e) :: entries) left messages =
        wakeupLoop process entries (left.erase key) (messages ++ new)) ∨
    (fails process e = false ∧ outcome process e = none ∧
      wakeupLoop process ((key, e) :: entries) left messages = wakeupLoop process entries left messages) := by
  unfold fails outcome
  rw [wakeupLoop]
  cases answer : process e with
  | ok pair =>
    obtain ⟨event_done, new⟩ := pair
    cases event_done with
    | true => exact Or.inr (Or.inl ⟨new, rfl, rfl, rfl⟩)
    | false =>
      obtain rfl := quiet e new answer
      refine Or.inr (Or.inr ⟨rfl, rfl, ?_⟩)
      change wakeupLoop process entries left (messages ++ []) = _
      rw [List.append_nil]
  | error fault =>
    cases fault with
    | osError =>
      refine Or.inr (Or.inl ⟨[], rfl, rfl, ?_⟩)
      rw [List.append_nil]
    | _ => exact Or.inl ⟨rfl, rfl, _, rfl⟩

theorem wakeupLoop_passed (quiet : Quiet process) {entries : List (Str × Event)} {left : Table Str Event}
    (distinct : (entries.map (·.1)).Nodup) (there : ∀ entry ∈ entries, left.get entry.1 = some entry.2)
    (messages : List μ) :
    Passed process entries left messages (wakeupLoop process entries left messages) := by
  induction entries generalizing left messages with
  | nil =>
    exact {
      events := (add_zero _).symm
      kept := fun _ _ => id
      answers := fun _ => congrArg Except.ok (List.append_nil messages).symm
      raises := fun ⟨_, member, _⟩ => nomatch member }
  | cons entry entries ih =>
    obtain ⟨key, e⟩ := entry
    obtain ⟨here, rest⟩ := List.forall_mem_cons.mp there
    rw [List.map_cons, List.nodup_cons] at distinct
    rcases wakeupLoop_cons quiet key e entries left messages with
      ⟨failed, none_, fault, raised⟩ | ⟨new, fine, some_, next_⟩ | ⟨fine, none_, next_⟩
    · rw [raised]
      exact {
        events := by
          rw [attempted, failed, if_pos rfl, finished_cons, none_]
          exact (add_zero _).symm
        kept := fun _ _ => id
        answers := fun all => by cases failed.symm.trans (all (key, e) List.mem_cons_self)
        raises := fun _ => ⟨fault, rfl⟩ }
    · have still : ∀ entry ∈ entries, (left.erase key).get entry.1 = some entry.2 := by
        intro entry member
        have apart : entry.1 ≠ key := by
          intro same
          have here := List.mem_map_of_mem (f := (·.1)) member
          exact distinct.1 (same ▸ here)
        rw [Table.get_erase, if_neg apart]
        exact rest entry member
      have later := ih distinct.2 still (messages ++ new)
      rw [next_]
      exact {
        events := by
          rw [attempted, fine, if_neg Bool.false_ne_true, finished_cons, some_, valuesOf_erase here, later.events]
          exact add_left_comm _ _ _
        kept := fun k e' found => by
          have before := later.kept k e' found
          rw [Table.get_erase] at before
          split at before
          · cases before
          · exact before
        answers := fun all => by
          rw [later.answers (List.forall_mem_cons.mp all).2, finished_cons, some_, List.append_assoc]
          rfl
        raises := fun ⟨entry, member, failed⟩ => later.raises (by
          rcases List.mem_cons.mp member with rfl | member
          · cases fine.symm.trans failed
          · exact ⟨entry, member, failed⟩) }
    · have later := ih distinct.2 rest messages
      rw [next_]
      exact {
        events := by
          rw [attempted, fine, if_neg Bool.false_ne_true, finished_cons, none_]
          exact later.events
        kept := later.kept
        answers := fun all => by
          rw [later.answers (List.forall_mem_cons.mp all).2, finished_cons, none_]
          rfl
        raises := fun ⟨entry, member, failed⟩ => later.raises (by
          rcases List.mem_cons.mp member with rfl | member
          · cases fine.symm.trans failed
          · exact ⟨entry, member, failed⟩) }

end Pass

/-! ## The ledger -/

section Ledger
variable (o : Options)

/-- The events that wait, the latest of each key, in the order in which they are taken. -/
def pending (s : State μ) : Table Str Event := s.left_events.update s.new_events

/-- `gather` gives out what is queued, and does nothing else. -/
def givesQueued (s : State μ) : Bool :=
  o.batch < s.queued_messages.length || !s.queued_messages.isEmpty && o.sleep < 0

/-- The events `gather` goes over. -/
def woken (s : State μ) : List (Str × Event) :=
  if givesQueued o s || !s.primed then [] else (pending s).entries

/-- `added` are the events in the order in which they came, `replaced` those a later one stands
for, `processed` those that are done, with their messages; `walked` are the messages of the walk
over the directories. `starved` are the events that a pass did not come to. -/
structure Ledger (μ : Type) where
  added : List Event
  replaced : List (Event × Event)
  processed : List (Event × List μ)
  walked : List μ
  returned : List μ
  starved : List Event

def Ledger.start : Ledger μ := ⟨[], [], [], [], [], []⟩

def Ledger.add (s : State μ) (e : Event) (l : Ledger μ) : Ledger μ :=
  { l with
    added := l.added ++ [e]
    replaced := l.replaced ++ (((pending s).get e.key).map (·, e)).toList }

def Ledger.gathered (process : Event → Except Fault (Bool × List μ)) (prime : Except Fault (List μ)) (s : State μ)
    (l : Ledger μ) : Ledger μ :=
  { l with
    processed := l.processed ++ finished process (attempted process (woken o s))
    walked := l.walked ++ (if givesQueued o s || s.primed then [] else prime.toOption.getD [])
    returned := l.returned ++ (gather o process prime s).2.toOption.getD []
    starved := l.starved ++ ((woken o s).drop (attempted process (woken o s)).length).map (·.2) }

/-- What happens to the plugin: a notice of the observer, or a call of `gather`, with what the
files are then. -/
inductive Action (μ : Type) where
  | notice (n : Notice)
  | gather (now : Moment μ) (prime : Except Fault (List μ))

def step (s : State μ) (l : Ledger μ) : Action μ → State μ × Ledger μ
  | .notice n => (notice n s, n.event.elim l fun e => l.add s e)
  | .gather now prime =>
    ((gather o (process_event o now) prime s).1, l.gathered o (process_event o now) prime s)

/-- The runs of the plugin whose actions are as `P` says. -/
inductive Run (P : State μ → Action μ → Prop) : State μ → Ledger μ → Prop where
  | start : Run P State.start Ledger.start
  | step {s l} (run : Run P s l) (action : Action μ) (meets : P s action) :
      Run P (step o s l action).1 (step o s l action).2

/-- Each event is pending, or replaced by a later one for its files, or processed once; the
messages of the processed events and of the walk have been returned once or are queued; and
no pass stopped before an event. -/
structure Conserved (s : State μ) (l : Ledger μ) : Prop where
  events : (l.added : Multiset Event) = valuesOf (pending s) + ↑(l.replaced.map (·.1)) + ↑(l.processed.map (·.1))
  messages : Balances (messagesOf l.processed) l.walked l.returned s.queued_messages
  replaced : ∀ pair ∈ l.replaced, pair.1.src = pair.2.src ∧ pair.1.dst = pair.2.dst
  starved : l.starved = []

/-- An event that fails has none behind it, and there is no message in hand. -/
def Harmless (process : Event → Except Fault (Bool × List μ)) (queued : List μ) (entries : List (Str × Event)) : Prop :=
  ∀ before entry after, entries = before ++ entry :: after → fails process entry.2 = true →
    after = [] ∧ queued = [] ∧ ∀ earlier ∈ before, ∀ messages, outcome process earlier.2 = some messages → messages = []

/-- A new event has the key of a pending one only where the files are the same, and a pass meets
no failing event but a harmless one. -/
def Meets (s : State μ) : Action μ → Prop
  | .notice n => ∀ e ∈ n.event, ∀ e', (pending s).get e.key = some e' → e'.src = e.src ∧ e'.dst = e.dst
  | .gather now _ => Harmless (process_event o now) s.queued_messages (woken o s)

end Ledger

/-! ## The steps -/

section Steps
variable {o : Options} {s : State μ} {l : Ledger μ}

/-- What a run keeps besides. -/
structure Inv (s : State μ) (l : Ledger μ) : Prop extends Conserved s l where
  keyed : ∀ key e, (pending s).get key = some e → e.key = key
  idle : s.primed = false → s.queued_messages = []

theorem pending_on_add (e : Event) (s : State μ) : pending (on_add e s) = (pending s).set e.key e :=
  Table.update_set s.left_events s.new_events e.key e

theorem valuesOf_set (t : Table Str Event) (key : Str) (e : Event) :
    valuesOf (t.set key e) + ↑(t.get key).toList = valuesOf t + {e} := by
  cases there : t.get key with
  | none =>
    have entries : (t.set key e).entries = t.entries ++ [(key, e)] := Table.setEntries_new there
    rw [valuesOf, entries, List.map_append, ← Multiset.coe_add]
    exact add_zero _
  | some e' =>
    have moved := (Table.setEntries_perm (w := e) there).map (·.2)
    have values := Multiset.coe_eq_coe.mpr moved
    rw [List.map_cons, List.map_cons, ← Multiset.cons_coe, ← Multiset.cons_coe, ← Multiset.singleton_add,
      ← Multiset.singleton_add] at values
    rw [add_comm, add_comm (valuesOf t)]
    exact values

theorem on_add_inv (inv : Inv s l) {e : Event}
    (meets : ∀ e', (pending s).get e.key = some e' → e'.src = e.src ∧ e'.dst = e.dst) :
    Inv (on_add e s) (l.add s e) where
  events := by
    have old : ((((pending s).get e.key).map (·, e)).toList.map (·.1)) = ((pending s).get e.key).toList := by
      cases (pending s).get e.key <;> rfl
    have moved := valuesOf_set (pending s) e.key e
    rw [Ledger.add, pending_on_add, List.map_append, old, ← Multiset.coe_add, ← Multiset.coe_add, inv.events,
      Multiset.coe_singleton]
    calc
      _ = valuesOf (pending s) + {e} + ↑(l.replaced.map (·.1)) + ↑(l.processed.map (·.1)) := by abel
      _ = valuesOf ((pending s).set e.key e) + ↑((pending s).get e.key).toList + ↑(l.replaced.map (·.1)) +
          ↑(l.processed.map (·.1)) := by rw [moved]
      _ = _ := by abel
  messages := inv.messages
  replaced pair member := by
    rcases List.mem_append.mp member with before | here
    · exact inv.replaced pair before
    · obtain ⟨e', there, rfl⟩ := Option.map_eq_some_iff.mp (Option.mem_toList.mp here)
      exact meets e' there
  starved := inv.starved
  keyed key e' there := by
    rw [pending_on_add, Table.get_set] at there
    split at there
    · next same =>
      obtain rfl := Option.some.inj there
      exact same.symm
    · exact inv.keyed key e' there
  idle := inv.idle

/-- An event that is not done has no messages. -/
theorem process_event_quiet (o : Options) (now : Moment μ) : Quiet (process_event o now) := by
  intro e messages answer
  have isDone {given : Except Fault (List μ)} (answer : done given = .ok (false, messages)) : messages = [] := by
    cases given with
    | error fault => cases answer
    | ok given => exact nomatch (Prod.mk.inj (Except.ok.inj answer)).1
  have isOk (answer : (.ok (true, []) : Except Fault (Bool × List μ)) = .ok (false, messages)) : messages = [] :=
    nomatch (Prod.mk.inj (Except.ok.inj answer)).1
  have isFile (answer : process_file o now e.event e.src = .ok (false, messages)) : messages = [] := by
    obtain ⟨lstat, -, answer⟩ := bind_ok_iff.mp answer
    split at answer
    · cases answer
    · dsimp only at answer
      split at answer
      · exact (Prod.mk.inj (Except.ok.inj answer)).2.symm
      · split at answer
        · exact isOk answer
        · split at answer
          · split at answer
            · exact isDone answer
            · exact isOk answer
          · split at answer
            · exact isDone answer
            · exact isOk answer
  unfold process_event at answer
  split at answer
  · split at answer
    · exact isDone answer
    · exact isOk answer
  · split at answer
    · split at answer
      · exact isDone answer
      · exact isOk answer
    · split at answer
      · exact isDone answer
      · split at answer
        · split at answer
          · exact isDone answer
          · exact isOk answer
        · split at answer
          · exact isOk answer
          · exact isFile answer

variable {process : Event → Except Fault (Bool × List μ)} {prime : Except Fault (List μ)}

variable (process prime) in
theorem gathered_queued (gives : givesQueued o s = true) :
    ∃ given rest, given ++ rest = s.queued_messages ∧
      gather o process prime s = ({ s with queued_messages := rest }, .ok given) := by
  unfold gather
  unfold givesQueued at gives
  by_cases more : o.batch < s.queued_messages.length
  · rw [if_pos more]
    exact ⟨_, _, List.take_append_drop _ _, rfl⟩
  · rw [if_neg more]
    have last : s.queued_messages ≠ [] ∧ o.sleep < 0 := by
      rw [decide_eq_false more, Bool.false_or, Bool.and_eq_true, Bool.not_eq_true', List.isEmpty_eq_false_iff] at gives
      exact ⟨gives.1, of_decide_eq_true gives.2⟩
    rw [if_pos last]
    exact ⟨_, _, List.append_nil _, rfl⟩

theorem gather_else (gives : givesQueued o s = false) : gather o process prime s =
    if s.primed then wakeup process s.queued_messages { s with queued_messages := [] }
    else match prime with
      | .error fault => ({ s with queued_messages := [] }, .error fault)
      | .ok walked => ({ s with queued_messages := (s.queued_messages ++ walked).drop o.batch, primed := true },
          .ok ((s.queued_messages ++ walked).take o.batch)) := by
  unfold givesQueued at gives
  rw [Bool.or_eq_false_iff, Bool.and_eq_false_iff] at gives
  have less : ¬ o.batch < s.queued_messages.length := of_decide_eq_false gives.1
  have stays : ¬ (s.queued_messages ≠ [] ∧ o.sleep < 0) := by
    rintro ⟨some_, sleeps⟩
    rcases gives.2 with none_ | awake
    · rw [Bool.not_eq_false', List.isEmpty_iff] at none_
      exact some_ none_
    · exact of_decide_eq_false awake sleeps
  unfold gather
  exact (if_neg less).trans (if_neg stays)

theorem attempted_of_last {entries : List (Str × Event)}
    (last : ∀ before entry after, entries = before ++ entry :: after → fails process entry.2 = true → after = []) :
    attempted process entries = entries := by
  induction entries with
  | nil => rfl
  | cons entry entries ih =>
    rw [attempted]
    split
    · next failed => rw [last [] entry entries rfl failed]
    · rw [ih fun before e after parts => last (entry :: before) e after (congrArg (entry :: ·) parts)]

theorem outcome_of_fails {e : Event} (failed : fails process e = true) : outcome process e = none := by
  unfold fails at failed
  unfold outcome
  split at failed
  · cases failed
  · cases failed
  · next fault other raised =>
    rw [raised]
    cases fault with
    | osError => exact (other rfl).elim
    | _ => rfl

/-- A harmless failure is behind events that give no message. -/
theorem finished_of_harmless {queued : List μ} {entries : List (Str × Event)} (harmless : Harmless process queued entries)
    (some_ : ∃ entry ∈ entries, fails process entry.2 = true) :
    queued = [] ∧ messagesOf (finished process entries) = [] := by
  obtain ⟨entry, member, failed⟩ := some_
  obtain ⟨before, after, parts⟩ := List.append_of_mem member
  obtain ⟨rfl, none_, silent⟩ := harmless before entry after parts failed
  refine ⟨none_, List.flatMap_eq_nil_iff.mpr fun pair there => ?_⟩
  obtain ⟨other, here, is⟩ := List.mem_filterMap.mp there
  obtain ⟨messages, produced, rfl⟩ := Option.map_eq_some_iff.mp is
  rw [parts] at here
  rcases List.mem_append.mp here with earlier | last
  · exact silent other earlier messages produced
  · rw [List.mem_singleton.mp last, outcome_of_fails failed] at produced
    cases produced

theorem gathered_of_queued (gives : givesQueued o s = true) (inv : Inv s l) :
    Inv (gather o process prime s).1 (l.gathered o process prime s) := by
  obtain ⟨given, rest, parts, computed⟩ := gathered_queued process prime gives
  have quiet : woken o s = [] := by rw [woken, gives, Bool.true_or, if_pos rfl]
  unfold Ledger.gathered
  rw [computed, quiet, gives]
  exact {
    events := by
      rw [show finished process (attempted process []) = [] from rfl, List.append_nil]
      exact inv.events
    messages := by
      change Balances (messagesOf (l.processed ++ [])) (l.walked ++ []) _ rest
      rw [List.append_nil, List.append_nil]
      exact balances_give parts inv.messages
    replaced := inv.replaced
    starved := by rw [inv.starved]; rfl
    keyed := inv.keyed
    idle := fun unprimed => by
      have none_ := inv.idle unprimed
      rw [← parts] at none_
      exact (List.append_eq_nil_iff.mp none_).2 }

theorem gathered_of_walk (gives : givesQueued o s = false) (unprimed : s.primed = false) (inv : Inv s l) :
    Inv (gather o process prime s).1 (l.gathered o process prime s) := by
  have none_ := inv.idle unprimed
  have quiet : woken o s = [] := by rw [woken, unprimed, Bool.not_false, Bool.or_true, if_pos rfl]
  unfold Ledger.gathered
  rw [gather_else gives, quiet, gives, unprimed, none_]
  have balance := inv.messages
  rw [none_] at balance
  cases prime with
  | error fault =>
    exact {
      events := by
        rw [show finished process (attempted process []) = [] from rfl, List.append_nil]
        exact inv.events
      messages := by
        change Balances (messagesOf (l.processed ++ [])) (l.walked ++ []) (l.returned ++ []) []
        rwa [List.append_nil, List.append_nil, List.append_nil]
      replaced := inv.replaced
      starved := by rw [inv.starved]; rfl
      keyed := inv.keyed
      idle := fun _ => rfl }
  | ok walked =>
    exact {
      events := by
        rw [show finished process (attempted process []) = [] from rfl, List.append_nil]
        exact inv.events
      messages := by
        change Balances (messagesOf (l.processed ++ [])) _ _ _
        rw [List.append_nil]
        exact balances_walk o.batch balance
      replaced := inv.replaced
      starved := by rw [inv.starved]; rfl
      keyed := inv.keyed
      idle := nofun }

theorem gathered_of_wakeup (quiet : Quiet process) (gives : givesQueued o s = false) (primed : s.primed = true)
    (harmless : Harmless process s.queued_messages (woken o s)) (inv : Inv s l) :
    Inv (gather o process prime s).1 (l.gathered o process prime s) := by
  have all : woken o s = (pending s).entries := by
    rw [woken, gives, primed, Bool.not_true, Bool.or_false, if_neg Bool.false_ne_true]
  have here : ∀ entry ∈ (pending s).entries, (pending s).get entry.1 = some entry.2 := fun entry member =>
    (pending s).get_eq_some_iff.mpr member
  have passed := wakeupLoop_passed quiet (pending s).distinct here s.queued_messages
  rw [all] at harmless
  have tried := attempted_of_last fun before entry after parts failed => (harmless before entry after parts failed).1
  have events := passed.events
  rw [tried] at events
  unfold Ledger.gathered
  rw [gather_else gives, all, gives, primed, tried]
  exact {
    events := by
      change (l.added : Multiset Event) = valuesOf (wakeupLoop process (pending s).entries (pending s) _).1 + _ + _
      rw [inv.events, events, List.map_append, ← Multiset.coe_add]
      abel
    messages := by
      change Balances (messagesOf (l.processed ++ finished process (pending s).entries)) (l.walked ++ [])
        (l.returned ++ (wakeupLoop process (pending s).entries (pending s) _).2.toOption.getD []) []
      rw [List.append_nil, messagesOf, List.flatMap_append]
      by_cases some_ : ∃ entry ∈ (pending s).entries, fails process entry.2 = true
      · obtain ⟨fault, raised⟩ := passed.raises some_
        obtain ⟨queued, silent⟩ := finished_of_harmless harmless some_
        have balance := inv.messages
        rw [queued] at balance
        rw [raised, show (finished process (pending s).entries).flatMap (·.2) = [] from silent, List.append_nil]
        change Balances _ _ (l.returned ++ []) []
        rwa [List.append_nil]
      · have answer := passed.answers fun entry member => by
          rw [← Bool.not_eq_true]
          exact fun failed => some_ ⟨entry, member, failed⟩
        rw [answer]
        exact balances_process inv.messages
    replaced := inv.replaced
    starved := by rw [inv.starved, List.drop_length]; rfl
    keyed := fun key e there => inv.keyed key e (passed.kept key e there)
    idle := fun unprimed => by cases unprimed }

theorem step_inv (inv : Inv s l) (action : Action μ) (meets : Meets o s action) :
    Inv (step o s l action).1 (step o s l action).2 := by
  cases action with
  | notice n =>
    change Inv (notice n s) (n.event.elim l fun e => l.add s e)
    unfold notice
    cases event : n.event with
    | none => exact inv
    | some e => exact on_add_inv inv (meets e event)
  | gather now prime =>
    unfold step
    cases gives : givesQueued o s with
    | true => exact gathered_of_queued gives inv
    | false =>
      cases primed : s.primed with
      | false => exact gathered_of_walk gives primed inv
      | true => exact gathered_of_wakeup (process_event_quiet o now) gives primed meets inv

theorem run_inv (run : Run o (Meets o) s l) : Inv s l := by
  induction run with
  | start =>
    exact {
      events := rfl
      messages := .nil
      replaced := nofun
      starved := rfl
      keyed := nofun
      idle := fun _ => rfl }
  | step run action meets ih => exact step_inv ih action meets

/-- A pass in which no event fails is harmless. -/
theorem harmless_of_fine {queued : List μ} {entries : List (Str × Event)}
    (fine : ∀ entry ∈ entries, fails process entry.2 = false) : Harmless process queued entries := by
  rintro before entry after rfl failed
  cases failed.symm.trans (fine entry (List.mem_append_right _ List.mem_cons_self))

/-- In every run whose steps meet the condition the accounts balance. -/
theorem watch_conserves (run : Run o (Meets o) s l) : Conserved s l := (run_inv run).toConserved

end Steps

/-! ## Two files deleted, the second of which cannot be posted -/

section Example

def deletions : Options := ⟨100, 0, [.delete], 0, 0⟩

/-- A message can be made of `a` only. -/
def onlyFirst : Moment Nat where
  time := 0
  islink _ := false
  exists_ _ := false
  stat _ := .error .osError
  post1file path _ _ := if path = "a".toList then .ok [1] else .error .valueError
  post1move _ _ := .ok []

theorem message_lost : ¬ ∀ (o : Options) (s : State Nat) (l : Ledger Nat), Run o (fun _ _ => True) s l → Conserved s l := by
  intro always
  have run := (((Run.start (P := fun _ _ => True)).step (o := deletions) (.gather onlyFirst (.ok [])) trivial).step
    (.notice (.deleted false "a".toList)) trivial).step (.notice (.deleted false "b".toList)) trivial
  have account := (always _ _ _ (run.step (.gather onlyFirst (.ok [])) trivial)).messages.length_eq
  exact absurd account (by decide)

def pass : Action Nat := .gather onlyFirst (.ok [])

def deleteFirst : Action Nat := .notice (.deleted false "a".toList)

def play (actions : List (Action Nat)) : State Nat × Ledger Nat :=
  actions.foldl (fun x action => step deletions x.1 x.2 action) (State.start, Ledger.start)

theorem firstDeleted_conserved :
    Conserved (play [pass, deleteFirst, pass]).1 (play [pass, deleteFirst, pass]).2 := by
  have walked : Run deletions (Meets deletions) (play [pass]).1 (play [pass]).2 :=
    .step .start pass (harmless_of_fine fun _ member => absurd member List.not_mem_nil)
  have noticed : Run deletions (Meets deletions) (play [pass, deleteFirst]).1 (play [pass, deleteFirst]).2 :=
    .step walked deleteFirst fun _ _ _ there => nomatch (show none = some _ from there)
  refine watch_conserves (.step noticed pass (harmless_of_fine fun entry member => ?_))
  rw [List.mem_singleton.mp (show entry ∈ [("a None".toList, ⟨.delete, "a".toList, none⟩)] from member)]
  rfl

end Example
end Sarracenia.Guarantees.Watch
