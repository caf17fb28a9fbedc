import Sarracenia.Library.Runs
import Sarracenia.Source.MqttPublish
import Mathlib.Data.List.Nodup

/-!
# What is pending at an MQTT publisher

A number should be pending from the end of `putNewMessage` until its confirmation. It is, and stays
so for good if the two threads looked for it before either changed its deque: then it is in both.

* a number has a story of its own, which each step either leaves or takes one move further
  (`Story`, `story_next`);
* what a story tells of the deques between two moves (`Story.sound`, `told_run`);
* what the deques hold when both threads are done, exactly (`pending_exactly`);
* when `close` ends (`closes_iff`).
-/
namespace Sarracenia.Guarantees.MqttPublish
open Library Source.MqttPublish

section Races

/-- The number that both threads now have looked for before either changed its deque. -/
def races (s : State) : Action → List Nat
  | .put =>
    match s.put, s.callback with
    | .given m, .looked m' _ => if m = m' then [m] else []
    | _, _ => []
  | .__pub_on_publish m =>
    match s.put with
    | .looked m' _ => if m = m' then [m] else []
    | _ => []
  | _ => []

/-- A state with the numbers that met so since `putSetup`. -/
structure Traced where
  state : State
  raced : List Nat

def traced (t : Traced) (a : Action) : Option Traced :=
  (step t.state a).map fun s => ⟨s, if a = .putSetup then [] else t.raced ++ races t.state a⟩

end Races

section Stories

/-- Where a thread is with one number. -/
inductive Spot where
  | away | given | found | missed
  deriving DecidableEq

def spot (place : Place) (m : Nat) : Spot :=
  match place with
  | .idle => .away
  | .given m' => if m = m' then .given else .away
  | .looked m' found => if m = m' then if found then .found else .missed else .away

/-- What concerns one number. -/
structure Story where
  taken : Bool
  confirmed : Bool
  pending : Bool
  unexpected : Bool
  raced : Bool
  put : Spot
  callback : Spot
  deriving DecidableEq

def story (t : Traced) (m : Nat) : Story where
  taken := m ∈ t.state.taken
  confirmed := m ∈ t.state.confirmed
  pending := m ∈ t.state.pending_publishes
  unexpected := m ∈ t.state.unexpected_publishes
  raced := m ∈ t.raced
  put := spot t.state.put m
  callback := spot t.state.callback m

namespace Story

def take (v : Story) : Story := { v with taken := true, put := .given }

def putNext (v : Story) : Story :=
  match v.put with
  | .away => v
  | .given => { v with
      put := if v.unexpected then .found else .missed, raced := v.raced || v.callback ≠ .away }
  | .found => { v with unexpected := false, put := .away }
  | .missed => { v with pending := true, put := .away }

def confirm (v : Story) : Story :=
  { v with
    confirmed := true
    callback := if v.pending then .found else .missed
    raced := v.raced || v.put = .found || v.put = .missed }

def callbackNext (v : Story) : Story :=
  match v.callback with
  | .found => { v with pending := false, callback := .away }
  | .missed => { v with unexpected := true, callback := .away }
  | _ => v

/-- What was handed over is pending from the end of `putNewMessage` to its confirmation, or raced;
what was confirmed is unexpected until it is looked for, or raced. -/
def sound (v : Story) : Bool :=
  (v.pending = (v.taken && v.put = .away && (!v.confirmed || v.raced || v.callback = .found))) &&
  (v.unexpected = (v.confirmed && v.callback = .away &&
    (!v.taken || v.raced || v.put = .given || v.put = .found))) &&
  (!v.raced || v.taken && v.confirmed && v.put ≠ .given && v.put ≠ .found &&
    v.callback ≠ .found) &&
  (v.put = .away || v.taken) &&
  (v.put ≠ .found || v.confirmed && v.callback = .away) &&
  (v.put ≠ .missed || !v.confirmed || v.raced) &&
  (v.callback = .away || v.confirmed && v.callback ≠ .given) &&
  (v.callback ≠ .found || v.taken && v.put = .away) &&
  (v.callback ≠ .missed || !v.taken || v.put = .given || v.raced)

def fresh : Story := ⟨false, false, false, false, false, .away, .away⟩

theorem sound_take {v : Story} (new : v = fresh) : v.take.sound := by
  subst new
  decide

theorem sound_putNext {v : Story} (sound : v.sound) : v.putNext.sound := by
  obtain ⟨taken, confirmed, pending, unexpected, raced, put, callback⟩ := v
  revert taken confirmed pending unexpected raced
  cases put <;> cases callback <;> decide

theorem sound_confirm {v : Story} (sound : v.sound) (new : v.confirmed = false)
    (idle : v.callback = .away) : v.confirm.sound := by
  obtain ⟨taken, confirmed, pending, unexpected, raced, put, callback⟩ := v
  revert taken confirmed pending unexpected raced
  cases put <;> cases callback <;> decide

theorem sound_callbackNext {v : Story} (sound : v.sound) : v.callbackNext.sound := by
  obtain ⟨taken, confirmed, pending, unexpected, raced, put, callback⟩ := v
  revert taken confirmed pending unexpected raced
  cases put <;> cases callback <;> decide

/-- A thread that found nothing does not add what is there. -/
theorem sound_missed {v : Story} (sound : v.sound) :
    (v.put = .missed → v.pending = false) ∧ (v.callback = .missed → v.unexpected = false) ∧
      v.callback ≠ .given := by
  obtain ⟨taken, confirmed, pending, unexpected, raced, put, callback⟩ := v
  revert taken confirmed pending unexpected raced
  cases put <;> cases callback <;> decide

/-- When both threads are done with it. -/
theorem sound_away {v : Story} (sound : v.sound) (put : v.put = .away)
    (callback : v.callback = .away) :
    v.pending = (v.taken && (!v.confirmed || v.raced)) ∧
      v.unexpected = (v.confirmed && (!v.taken || v.raced)) := by
  obtain ⟨taken, confirmed, pending, unexpected, raced, _, _⟩ := v
  subst put callback
  revert taken confirmed pending unexpected raced
  decide

end Story
end Stories

section Steps
variable {s s' : State} {raced : List Nat}

/-- What holds between two moves: the deques hold no number twice, the numbers to come have no
story yet and the story of each number is sound. -/
structure Told (t : Traced) : Prop where
  pending_nodup : t.state.pending_publishes.Nodup
  unexpected_nodup : t.state.unexpected_publishes.Nodup
  fresh : ∀ m, t.state.next ≤ m → story t m = Story.fresh
  sound : ∀ m, (story t m).sound

theorem story_take (idle : s.put = .idle) (m : Nat) :
    story ⟨{ s with
        put := .given s.next, next := s.next + 1, taken := s.taken ++ [s.next] }, raced⟩ m =
      if m = s.next then (story ⟨s, raced⟩ m).take else story ⟨s, raced⟩ m := by
  by_cases own : m = s.next <;> simp [story, Story.take, spot, own, idle]

theorem story_putNext (unique : s.unexpected_publishes.Nodup) (moved : s.putNext = some s')
    (m : Nat) (running : (story ⟨s, raced⟩ m).callback ≠ .given) :
    story ⟨s', raced ++ races s .put⟩ m = (story ⟨s, raced⟩ m).putNext := by
  cases put : s.put with
  | idle => simp [State.putNext, put] at moved
  | given n =>
    simp only [State.putNext, put, Option.some.injEq] at moved
    subst moved
    cases callback : s.callback with
    | idle => by_cases own : m = n <;> simp [story, Story.putNext, spot, races, own, put, callback]
    | given n' =>
      have elsewhere : m ≠ n' := by simpa [story, spot, callback] using running
      by_cases own : m = n <;> simp [story, Story.putNext, spot, races, own, put, callback]
      intro eq
      exact absurd (own.trans eq) elsewhere
    | looked n' found =>
      by_cases own : m = n <;> by_cases same : n = n' <;> cases found <;>
        simp_all [story, Story.putNext, spot, races]
  | looked n found =>
    by_cases own : m = n <;> cases found <;> simp [State.putNext, put] at moved <;>
      subst moved <;> simp [story, Story.putNext, spot, races, own, put, unique.mem_erase_iff]

theorem story_confirm {n : Nat} (idle : s.callback = .idle) (m : Nat) :
    story ⟨{ s with
        callback := .looked n (n ∈ s.pending_publishes), confirmed := s.confirmed ++ [n] },
      raced ++ races s (.__pub_on_publish n)⟩ m =
      if m = n then (story ⟨s, raced⟩ m).confirm else story ⟨s, raced⟩ m := by
  cases put : s.put with
  | idle => by_cases own : m = n <;> simp [story, Story.confirm, spot, races, own, put, idle]
  | given n' =>
    by_cases own : m = n <;> by_cases same : n = n' <;> simp_all [story, Story.confirm, spot, races]
  | looked n' found =>
    by_cases own : m = n <;> by_cases same : n = n' <;> cases found <;>
      simp_all [story, Story.confirm, spot, races]

theorem story_callbackNext (unique : s.pending_publishes.Nodup) (moved : s.callbackNext = some s')
    (m : Nat) : story ⟨s', raced⟩ m = (story ⟨s, raced⟩ m).callbackNext := by
  cases callback : s.callback with
  | idle => simp [State.callbackNext, callback] at moved
  | given n => simp [State.callbackNext, callback] at moved
  | looked n found =>
    by_cases own : m = n <;> cases found <;> simp [State.callbackNext, callback] at moved <;>
      subst moved <;> simp [story, Story.callbackNext, spot, own, callback, unique.mem_erase_iff]

/-- Neither deque comes to hold a number twice. -/
theorem nodup_putNext (told : Told ⟨s, raced⟩) (moved : s.putNext = some s') :
    s'.pending_publishes.Nodup ∧ s'.unexpected_publishes.Nodup ∧ s'.next = s.next := by
  obtain ⟨pending, unexpected, -, sound⟩ := told
  cases put : s.put with
  | idle => simp [State.putNext, put] at moved
  | given n =>
    simp only [State.putNext, put, Option.some.injEq] at moved
    subst moved
    exact ⟨pending, unexpected, rfl⟩
  | looked n found =>
    cases found <;> simp only [State.putNext, put, Option.some.injEq] at moved <;> subst moved
    · have new : n ∉ s.pending_publishes := by
        simpa [story, put, spot] using (Story.sound_missed (sound n)).1
      exact ⟨by simpa using pending.concat new, unexpected, rfl⟩
    · exact ⟨pending, unexpected.erase n, rfl⟩

theorem nodup_callbackNext (told : Told ⟨s, raced⟩) (moved : s.callbackNext = some s') :
    s'.pending_publishes.Nodup ∧ s'.unexpected_publishes.Nodup ∧ s'.next = s.next := by
  obtain ⟨pending, unexpected, -, sound⟩ := told
  cases callback : s.callback with
  | idle => simp [State.callbackNext, callback] at moved
  | given n => simp [State.callbackNext, callback] at moved
  | looked n found =>
    cases found <;> simp only [State.callbackNext, callback, Option.some.injEq] at moved <;>
      subst moved
    · have new : n ∉ s.unexpected_publishes := by
        simpa [story, callback, spot] using (Story.sound_missed (sound n)).2.1
      exact ⟨pending, by simpa using unexpected.concat new, rfl⟩
    · exact ⟨pending.erase n, unexpected, rfl⟩

end Steps

section Runs
variable {t t' : Traced} {a : Action} {actions : List Action}

theorem told_initial : Told ⟨initial, []⟩ :=
  ⟨List.nodup_nil, List.nodup_nil, fun _ _ => rfl, fun _ => rfl⟩

/-- Each step starts with no story, or takes one story further and leaves the others. -/
theorem told_next (told : Told t) (next : traced t a = some t') : Told t' := by
  obtain ⟨s, raced⟩ := t
  obtain ⟨s', taken, rfl⟩ := Option.map_eq_some_iff.mp next
  cases a with
  | putSetup =>
    simp only [step, Option.ite_none_right_eq_some, Option.some.injEq] at taken
    obtain ⟨⟨put, callback⟩, rfl⟩ := taken
    refine ⟨List.nodup_nil, List.nodup_nil, fun m _ => ?_, fun m => ?_⟩ <;>
      simp [story, put, callback, spot, Story.fresh, Story.sound]
  | publish success =>
    simp only [step, ne_eq, ite_not, Option.ite_none_right_eq_some] at taken
    obtain ⟨put, taken⟩ := taken
    cases success with
    | false =>
      cases taken
      simpa [races] using ⟨told.pending_nodup, told.unexpected_nodup,
        fun m new => told.fresh m (Nat.le_of_succ_le new), told.sound⟩
    | true =>
      cases taken
      simp only [races, List.append_nil, reduceCtorEq, if_false]
      refine ⟨told.pending_nodup, told.unexpected_nodup, fun m new => ?_, fun m => ?_⟩
      · have new : s.next < m := new
        rw [story_take put, if_neg (by omega)]
        exact told.fresh m (Nat.le_of_lt new)
      · rw [story_take put]
        split
        · next own => exact Story.sound_take (told.fresh m (Nat.le_of_eq own.symm))
        · exact told.sound m
  | put =>
    simp only [reduceCtorEq, if_false]
    have stories (m : Nat) := story_putNext told.unexpected_nodup taken m
      (Story.sound_missed (told.sound m)).2.2
    obtain ⟨pending, unexpected, next⟩ := nodup_putNext told taken
    refine ⟨pending, unexpected, fun m new => ?_, fun m => ?_⟩
    · rw [stories, told.fresh m (next ▸ new)]
      rfl
    · rw [stories]
      exact Story.sound_putNext (told.sound m)
  | __pub_on_publish n =>
    simp only [step, Option.ite_none_right_eq_some, Option.some.injEq] at taken
    obtain ⟨⟨idle, known, new⟩, rfl⟩ := taken
    simp only [reduceCtorEq, if_false]
    refine ⟨told.pending_nodup, told.unexpected_nodup, fun m later => ?_, fun m => ?_⟩
    · have later : s.next ≤ m := later
      rw [story_confirm idle, if_neg (by omega)]
      exact told.fresh m later
    · rw [story_confirm idle]
      split
      · next own =>
        exact Story.sound_confirm (told.sound m) (by simp [story, own, new])
          (by simp [story, idle, spot])
      · exact told.sound m
  | callback =>
    simp only [races, List.append_nil, reduceCtorEq, if_false]
    have stories (m : Nat) :
        story ⟨s', raced⟩ m = (story ⟨s, raced⟩ m).callbackNext :=
      story_callbackNext told.pending_nodup taken m
    obtain ⟨pending, unexpected, next⟩ := nodup_callbackNext told taken
    refine ⟨pending, unexpected, fun m new => ?_, fun m => ?_⟩
    · rw [stories, told.fresh m (next ▸ new)]
      rfl
    · rw [stories]
      exact Story.sound_callbackNext (told.sound m)

theorem told_run (run : Runs traced (fun _ _ => True) ⟨initial, []⟩ actions t) : Told t :=
  run.keeps told_initial fun _ _ _ told _ next => told_next told next

end Runs

section Confirmations
variable {t : Traced} {actions : List Action}

/-- When both threads are done, what is pending was handed over and not confirmed, or raced, and
what is unexpected was confirmed and not handed over, or raced. -/
theorem pending_exactly (run : Runs traced (fun _ _ => True) ⟨initial, []⟩ actions t)
    (put : t.state.put = .idle) (callback : t.state.callback = .idle) (m : Nat) :
    (m ∈ t.state.pending_publishes ↔
      m ∈ t.state.taken ∧ (m ∉ t.state.confirmed ∨ m ∈ t.raced)) ∧
    (m ∈ t.state.unexpected_publishes ↔
      m ∈ t.state.confirmed ∧ (m ∉ t.state.taken ∨ m ∈ t.raced)) := by
  obtain ⟨pending, unexpected⟩ := Story.sound_away ((told_run run).sound m)
    (by simp [story, put, spot]) (by simp [story, callback, spot])
  exact ⟨by simpa [story] using Bool.eq_iff_iff.mp pending,
    by simpa [story] using Bool.eq_iff_iff.mp unexpected⟩

/-- The confirmation of the first comes between the two halves of `putNewMessage`. -/
def confirmedEarly : List Action :=
  [.publish true, .put, .__pub_on_publish 0, .callback, .put, .publish true, .put, .put,
    .__pub_on_publish 1, .callback]

theorem confirmedEarly_runs :
    (after traced (fun _ _ => True) ⟨initial, []⟩ confirmedEarly).isSome := by
  decide

theorem pending_exactly_confirmedEarly :
    ∃ t : Traced, t.raced = [0] ∧
      t.state.pending_publishes = [0] ∧ t.state.unexpected_publishes = [0] ∧
      ((0 ∈ t.state.pending_publishes ↔
          0 ∈ t.state.taken ∧ (0 ∉ t.state.confirmed ∨ 0 ∈ t.raced)) ∧
        (0 ∈ t.state.unexpected_publishes ↔
          0 ∈ t.state.confirmed ∧ (0 ∉ t.state.taken ∨ 0 ∈ t.raced))) :=
  ⟨_, rfl, rfl, rfl, pending_exactly (.of_isSome confirmedEarly_runs) rfl rfl 0⟩

end Confirmations
end Sarracenia.Guarantees.MqttPublish
