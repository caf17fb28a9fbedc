import Sarracenia.Guarantees.FlowRun.Turns

/-!
# What a flow gathers

A plugin that returns neither a list nor a pair has the messages of the plugin before it gathered
once more, or has `gather` raise if there is none before it.

* what is gathered of the plugins that are asked (`gatherEach_eq`), and when that is what they
  returned (`taken_eq_iff`);
* messages that were polled and messages of a queue are never gathered together (`gather_batch`);
* what the turns of a run filter (`gathered`).
-/
namespace Sarracenia.Guarantees.FlowRun
open Library Source.FlowRun
variable {μ : Type} {o : Options} {s s' : State μ} {t : Turn μ}

section Plugins

/-- What a plugin returned. -/
def returned : Gathered μ → List μ
  | .pair _ new_incoming => new_incoming
  | .list new_incoming => new_incoming
  | _ => []

/-- What is gathered from the plugins. -/
def taken (last : Option (List μ)) : List (Gathered μ) → List μ
  | [] => []
  | .pair _ new_incoming :: plugins => new_incoming ++ taken (some new_incoming) plugins
  | .list new_incoming :: plugins => new_incoming ++ taken (some new_incoming) plugins
  | .other :: plugins => last.getD [] ++ taken last plugins
  | .crashed :: plugins => taken last plugins

/-- No plugin returned something else while messages of the one before it were there. -/
def Fresh (last : Option (List μ)) : List (Gathered μ) → Prop
  | [] => True
  | .pair _ new_incoming :: plugins => Fresh (some new_incoming) plugins
  | .list new_incoming :: plugins => Fresh (some new_incoming) plugins
  | .other :: plugins => last.getD [] = [] ∧ Fresh last plugins
  | .crashed :: plugins => Fresh last plugins

theorem taken_length_ge (last : Option (List μ)) (plugins : List (Gathered μ)) :
    (plugins.flatMap returned).length ≤ (taken last plugins).length := by
  induction plugins generalizing last with
  | nil => exact Nat.le_refl _
  | cons p plugins ih =>
    cases p <;> simp only [taken, List.flatMap_cons, returned, List.length_append, List.nil_append]
    · exact Nat.add_le_add_left (ih _) _
    · exact Nat.add_le_add_left (ih _) _
    · exact Nat.le_trans (ih last) (Nat.le_add_left _ _)
    · exact ih last

/-- All that was returned is gathered, each message once, exactly then. -/
theorem taken_eq_iff (last : Option (List μ)) (plugins : List (Gathered μ)) :
    taken last plugins = plugins.flatMap returned ↔ Fresh last plugins := by
  induction plugins generalizing last with
  | nil => simp [taken, Fresh]
  | cons p plugins ih =>
    cases p with
    | pair keep_going new_incoming => simp [taken, Fresh, returned, ih]
    | list new_incoming => simp [taken, Fresh, returned, ih]
    | crashed => simp [taken, Fresh, returned, ih]
    | other =>
      simp only [taken, Fresh, returned, List.flatMap_cons, List.nil_append, ← ih last]
      constructor
      · intro same
        have less := taken_length_ge last plugins
        have none_ : last.getD [] = [] := by
          rw [← List.length_eq_zero_iff]
          have := congrArg List.length same
          rw [List.length_append] at this
          omega
        rw [none_, List.nil_append] at same
        exact ⟨none_, same⟩
      · rintro ⟨none_, same⟩
        rw [none_, List.nil_append, same]

end Plugins

section Gather
variable {plugins : List (Gathered μ)}

/-- A plugin's messages, and whether the plugins after it are asked. -/
theorem stops_or {so_far : Nat} {keep_going stops : Bool} {now : List μ} {before incoming : List μ}
    (done : (if !keep_going || o.batch ≤ (so_far + now.length : Nat) then some (before ++ now, true)
      else gatherEach o (so_far + now.length) keep_going (some now) (before ++ now) plugins)
        = some (incoming, stops)) :
    (incoming = before ++ now ∧ stops = true) ∨
      gatherEach o (so_far + now.length) keep_going (some now) (before ++ now) plugins
        = some (incoming, stops) := by
  split at done
  · simp only [Option.some.injEq, Prod.mk.injEq] at done
    exact .inl ⟨done.1.symm, done.2.symm⟩
  · exact .inr done

/-- One plugin more is asked before those that are asked after it. -/
theorem asks_more {p : Gathered μ} {stops : Bool} {last last' : Option (List μ)}
    {before now incoming : List μ}
    (one : ∀ asked, taken last (p :: asked) = now ++ taken last' asked)
    (more : ∃ asked rest, plugins = asked ++ rest ∧
      incoming = before ++ now ++ taken last' asked ∧ (stops = false → rest = [])) :
    ∃ asked rest, p :: plugins = asked ++ rest ∧ incoming = before ++ taken last asked ∧
      (stops = false → rest = []) := by
  obtain ⟨asked, rest, same, all, ends⟩ := more
  exact ⟨p :: asked, rest, by simp [same], by simp [all, one], ends⟩

/-- The plugins that are asked, and what is gathered from them. -/
theorem gatherEach_eq {so_far : Nat} {keep_going stops : Bool} {last : Option (List μ)}
    {before incoming : List μ}
    (done : gatherEach o so_far keep_going last before plugins = some (incoming, stops)) :
    ∃ asked rest, plugins = asked ++ rest ∧ incoming = before ++ taken last asked ∧
      (stops = false → rest = []) := by
  induction plugins generalizing so_far keep_going last before with
  | nil =>
    cases done
    exact ⟨[], [], rfl, by simp [taken], fun _ => rfl⟩
  | cons p plugins ih =>
    have after {keep_going : Bool} {last' : Option (List μ)} {now : List μ}
        (one : ∀ asked, taken last (p :: asked) = now ++ taken last' asked)
        (same : last' = some now)
        (done : (if !keep_going || o.batch ≤ (so_far + now.length : Nat)
          then some (before ++ now, true)
          else gatherEach o (so_far + now.length) keep_going (some now) (before ++ now) plugins)
            = some (incoming, stops)) :
        ∃ asked rest, p :: plugins = asked ++ rest ∧ incoming = before ++ taken last asked ∧
          (stops = false → rest = []) := by
      rcases stops_or done with ⟨all, stopped⟩ | goes_on
      · exact ⟨[p], plugins, rfl, by simp [all, one, taken], by simp [stopped]⟩
      · exact asks_more one (same ▸ ih goes_on)
    cases p with
    | crashed =>
      have one (asked : List (Gathered μ)) :
          taken last (.crashed :: asked) = [] ++ taken last asked := rfl
      exact asks_more one (by simpa using ih done)
    | pair keeps new_incoming => exact after (fun _ => rfl) rfl done
    | list new_incoming => exact after (fun _ => rfl) rfl done
    | other =>
      cases last with
      | none => simp [gatherEach] at done
      | some now => exact after (fun _ => rfl) rfl done

/-- Where a batch is from: plugins that were asked in their order, or polls, which follow plugins
that gathered nothing. -/
inductive Batch (o : Options) (t : Turn μ) : List μ → Prop where
  | asked (asked rest : List (Gathered μ)) (gathers : t.gathers = asked ++ rest) :
      Batch o t (taken none asked)
  | polled (poll : o.poll = true) (has_vip : t.has_vip = true)
      (nothing : taken none t.gathers = []) :
      Batch o t (t.polls.flatMap fun polled => polled.getD [])

theorem gather_batch {incoming : List μ} {polled : Nat}
    (done : gather o t.has_vip t = some (incoming, polled)) : Batch o t incoming := by
  obtain ⟨⟨gathered, stops⟩, each, same⟩ := Option.map_eq_some_iff.mp done
  obtain ⟨asked, rest, plugins, all, whole⟩ := gatherEach_eq each
  rw [List.nil_append] at all
  dsimp only at same
  split at same
  · cases same
    exact all ▸ .asked asked rest plugins
  · next polls =>
    cases same
    simp only [Bool.or_eq_true, Bool.not_eq_true', not_or, Bool.not_eq_true, Bool.not_eq_false]
      at polls
    obtain ⟨⟨⟨goes_on, poll⟩, nothing⟩, has_vip⟩ := polls
    have every : t.gathers = asked := by simpa [whole goes_on] using plugins
    exact .polled poll has_vip (by rw [every, ← all]; simpa using nothing)

end Gather

section Runs

def filterOf : Call μ → Option (List μ)
  | .filter incoming => some incoming
  | _ => none

/-- The batches that were filtered. -/
def filters (calls : List (Call μ)) : List (List μ) := calls.filterMap filterOf

@[simp] theorem filters_append (calls more : List (Call μ)) :
    filters (calls ++ more) = filters calls ++ filters more := by
  simp [filters]

@[simp] theorem filters_call (c : Call μ) :
    filters (s.call c).calls = filters s.calls ++ (filterOf c).toList := by
  cases c <;> simp [State.call, filters, filterOf]

theorem filters_housekeeping (now : ℚ) :
    filters (s._runHousekeeping o now).calls = filters s.calls := by
  simp [State._runHousekeeping, filterOf]

theorem filters_opens : filters (s.opens o).calls = filters s.calls := by
  unfold State.opens
  split
  · exact filters_housekeeping _
  · split <;> simp [filterOf]

theorem opens_have_vip : (s.opens o).have_vip = s.have_vip := by
  unfold State.opens
  split
  · rfl
  · split <;> rfl

theorem vip_have_vip (has_vip : Bool) : (s._run_vip_update o has_vip).have_vip = has_vip := by
  unfold State._run_vip_update
  split <;> rfl

theorem filters_counts : filters ((s.reads t).counts o).calls = filters s.calls := by
  unfold State.counts
  split <;> simp [State.please_stop, State.reads, filterOf]

theorem filters_idles : filters (s.idles o).calls = filters s.calls := by
  unfold State.idles
  split
  · split <;> simp [State.please_stop, filterOf]
  · rfl

theorem filters_keeps_house : filters (s.keeps_house o).calls = filters s.calls := by
  unfold State.keeps_house
  split
  · exact filters_housekeeping _
  · rfl

theorem filters_naps {naps : Nat → Nap} (n k : Nat) (stime : ℚ) :
    filters (s.naps o naps n k stime).calls = filters s.calls := by
  induction n generalizing s k stime with
  | zero => rfl
  | succ n ih =>
    have nap (increment : ℚ) (nap : Nap) :
        filters (s.nap increment nap).calls = filters s.calls := by
      simp [State.nap, filterOf]
    have looks (s : State μ) (now : ℚ) : filters (s.looks o now).calls = filters s.calls := by
      unfold State.looks
      split
      · exact filters_housekeeping _
      · rfl
    unfold State.naps
    split
    · rfl
    · split
      · exact nap _ _
      · rw [ih, looks, nap]

theorem filters_sleeps (throttled : ℚ) :
    filters (s.sleeps o t throttled).calls = filters s.calls := by
  unfold State.sleeps
  split
  · rfl
  · split
    · rfl
    · split
      · rfl
      · exact filters_naps _ _ _

theorem filters_rests : filters (s.rests o t).calls = filters s.calls := by
  rw [State.rests, filters_sleeps, filters_keeps_house]
  exact filters_idles

/-- A turn filters one batch at most, which is empty if the flow is stopping. -/
theorem filters_works (works : s.works o t = some s') (vip : s.have_vip = t.has_vip) :
    filters s'.calls = filters s.calls ∨
      ∃ incoming, filters s'.calls = filters s.calls ++ [incoming] ∧
        (if s.stopping then incoming = [] else Batch o t incoming) := by
  unfold State.works at works
  split at works
  · obtain ⟨⟨s₁, incoming⟩, gathers, rfl⟩ := Option.map_eq_some_iff.mp works
    have processed :
        filters (s₁.processes o t incoming).calls = filters s₁.calls ++ [incoming] := by
      simp [State.processes, filterOf]
    refine .inr ⟨incoming, ?_⟩
    rw [processed]
    unfold State.gathers at gathers
    split at gathers
    · next stopping =>
      cases gathers
      exact ⟨rfl, by simp [stopping]⟩
    · next goes_on =>
      obtain ⟨⟨_, polled⟩, gather, same⟩ := Option.map_eq_some_iff.mp gathers
      cases same
      refine ⟨by simp [filterOf], ?_⟩
      rw [if_neg goes_on]
      exact gather_batch (vip ▸ gather)
  · cases works
    exact .inl rfl

/-- The batches of a run are from turns of it, in their order. -/
structure Conserves (o : Options) (turns : List (Turn μ)) (s : State μ) : Prop where
  batches : ∃ worked : List (Turn μ), worked.Sublist turns ∧
    List.Forall₂ (fun t incoming => incoming = [] ∨ Batch o t incoming) worked (filters s.calls)

theorem conserves_step {turns : List (Turn μ)} (conserves : Conserves o turns s)
    (next : step o s t = some s') : Conserves o (turns ++ [t]) s' := by
  obtain ⟨worked, within, batches⟩ := conserves.batches
  obtain ⟨-, ⟨-, -, rfl⟩ | ⟨-, work, works, rfl⟩⟩ := step_cases next
  · refine ⟨worked, within.trans (List.sublist_append_left _ _), ?_⟩
    simpa [State.close, filterOf] using batches
  · have before : filters (((s.begins t)._run_vip_update o t.has_vip).opens o).calls
        = filters s.calls := by
      rw [filters_opens, vip_calls]
      rfl
    have vip : (((s.begins t)._run_vip_update o t.has_vip).opens o).have_vip = t.has_vip := by
      rw [opens_have_vip, vip_have_vip]
    rw [← before] at batches
    have after : filters ((((work.reads t).counts o).rests o t)).calls = filters work.calls := by
      rw [filters_rests, filters_counts]
    rcases filters_works works vip with same | ⟨incoming, more, batch⟩
    · exact ⟨worked, within.trans (List.sublist_append_left _ _), by rwa [after, same]⟩
    · refine ⟨worked ++ [t], within.append (.refl _), ?_⟩
      rw [after, more]
      refine List.rel_append batches (.cons ?_ .nil)
      split at batch
      · exact .inl batch
      · exact .inr batch

/-- What a flow filters, turn by turn, is what plugins it asked gathered, or what was polled when
they gathered nothing; and all that they returned is gathered, once each, exactly when none returns
something else after messages of another. -/
theorem gathered {before now : ℚ} {novip : Bool} {turns : List (Turn μ)}
    (run : Runs (step o) (fun _ _ => True) (State.start o before now novip) turns s) :
    Conserves o turns s ∧ ∀ asked : List (Gathered μ),
      taken none asked = asked.flatMap returned ↔ Fresh none asked := by
  refine ⟨run.keeps_with ⟨[], .slnil, .nil⟩ fun _ _ _ _ conserves _ next =>
    conserves_step conserves next, fun asked => taken_eq_iff none asked⟩

/-- The second plugin returns nothing at all. -/
def repeated : List (Turn Nat) :=
  [{ quiet false 1 3 with gathers := [.list [1, 2], .other] }, quiet false 4 6]

theorem repeated_runs : (after (step quietOptions) (fun _ _ => True)
    (State.start quietOptions 0 0 false) repeated).isSome := by
  decide +kernel

theorem gathered_repeated :
    ∃ s : State Nat, filters s.calls = [[1, 2, 1, 2], []] ∧ Conserves quietOptions repeated s ∧
      ∀ asked : List (Gathered Nat), taken none asked = asked.flatMap returned ↔ Fresh none asked :=
  ⟨_, by decide +kernel, gathered (.of_isSome repeated_runs)⟩

end Runs
end Sarracenia.Guarantees.FlowRun
