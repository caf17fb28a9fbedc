import Sarracenia.Guarantees.Filter.Conservation
import Sarracenia.Library.Rewriting

/-!
# Whether the substitutions come to an end

Each loop of `variableExpansion` rewrites its pattern until none is left. It does not end where the value has the
pattern in it, or regrows it; values without `$` are harmless, but nothing keeps the sign out of the path of a base
URL or of the source of a message.
-/
namespace Sarracenia.Guarantees.Expansion
open Library Library.Text Library.Dynamic Library.Rewriting
open Source Source.Config Relation

/-! ## One loop -/

section Loop

/-- `while pattern in s: s = s.replace(pattern, value)`, of one occurrence or of all. -/
structure Loop where
  once : Bool
  pattern : Str
  value : Except Fault Str

def Loop.run (steps : Nat) (loop : Loop) (s : Str) : Except Fault Str := substitute loop.once loop.pattern loop.value steps s

/-- The pattern has a first and a last character that stand nowhere else in it, and the value is there or raises. -/
structure Loop.Fit (loop : Loop) : Prop where
  first : FirstOnce loop.pattern
  last : LastOnce loop.pattern
  answers : loop.value ≠ .error .diverges

/-- The loop ends: the pattern is not there, the value raises, or it neither has the pattern in it nor regrows it from
this text. -/
def Loop.Tame (loop : Loop) (s : Str) : Prop :=
  Normal loop.pattern s ∨ (∃ e, loop.value = .error e) ∨
    ∃ v, loop.value = .ok v ∧ Normal loop.pattern v ∧ (Regrows loop.pattern v → Normal loop.pattern (replaceAll loop.pattern v s))

/-- What the text is rewritten to. -/
def Loop.Becomes (loop : Loop) (s t : Str) : Prop :=
  Normal loop.pattern t ∧ (t = s ∨ ∃ v, loop.value = .ok v ∧ ReflTransGen (Step loop.pattern v) s t)

variable {loop : Loop} {s t v : Str} {steps more : Nat}

theorem replaceFirst_around {l r : Str} (occurs_ : ¬ Normal l s) : Step l r s (replaceFirst l r s) := by
  induction s with
  | nil =>
    rw [not_normal_iff] at occurs_
    obtain ⟨x, y, same⟩ := occurs_
    obtain ⟨before, rfl⟩ := List.append_eq_nil_iff.mp same.symm
    obtain ⟨rfl, rfl⟩ := List.append_eq_nil_iff.mp before
    have here := Step.here (l := ([] : Str)) (r := r) [] []
    simpa [replaceFirst] using here
  | cons c s ih =>
    rw [replaceFirst]
    split
    · next starts =>
      obtain ⟨rest, same⟩ := List.isPrefixOf_iff_prefix.mp starts
      rw [← same, List.drop_left]
      exact .here [] rest
    · next other =>
      have later : ¬ Normal l s := by
        rw [Rewriting.Normal, not_not] at occurs_ ⊢
        rcases List.infix_cons_iff.mp occurs_ with starts | inside
        · exact absurd (List.isPrefixOf_iff_prefix.mpr starts) other
        · exact inside
      have step := (ih later).around [c] []
      simpa using step

theorem run_normal (normal : Normal loop.pattern s) : loop.run steps s = .ok s := by
  have none_ := normal_iff.mp normal
  unfold Loop.run
  cases steps with
  | zero => simp [substitute, none_]
  | succ steps => simp [substitute, none_]

theorem run_raising {e : Fault} (occurs_ : ¬ Normal loop.pattern s) (raises : loop.value = .error e) :
    loop.run (steps + 1) s = .error e := by
  rw [normal_iff, Bool.not_eq_false] at occurs_
  simp [Loop.run, substitute, occurs_, raises, bind, Except.bind]

/-- One turn of the loop. -/
def Loop.turn (loop : Loop) (v s : Str) : Str :=
  if loop.once then replaceFirst loop.pattern v s else replaceAll loop.pattern v s

theorem run_turn (occurs_ : ¬ Normal loop.pattern s) (value : loop.value = .ok v) :
    loop.run (steps + 1) s = loop.run steps (loop.turn v s) := by
  rw [normal_iff, Bool.not_eq_false] at occurs_
  simp [Loop.run, Loop.turn, substitute, occurs_, value, bind, Except.bind]

theorem reach_turn (first : FirstOnce loop.pattern) (occurs_ : ¬ Normal loop.pattern s) :
    ∃ t, Step loop.pattern v s t ∧ ReflTransGen (Step loop.pattern v) t (loop.turn v s) := by
  unfold Loop.turn
  split
  · exact ⟨_, replaceFirst_around occurs_, .refl⟩
  · obtain ⟨x, y, rfl⟩ := not_normal_iff.mp occurs_
    refine ⟨_, .here x y, ?_⟩
    rw [replaceAll_around first]
    have before := reach_before (reach_replaceAll first.nonempty x (r := v)) (v ++ y)
    have after := reach_after (reach_replaceAll first.nonempty y (r := v)) (replaceAll loop.pattern v x ++ v)
    simp only [List.append_assoc] at before after ⊢
    exact before.trans after

theorem out_of_steps (occurs_ : ¬ Normal loop.pattern s) : loop.run 0 s = .error .diverges := by
  rw [normal_iff, Bool.not_eq_false] at occurs_
  simp [Loop.run, substitute, occurs_]

/-- A loop that ends has rewritten the text to one without the pattern. -/
theorem run_ok (fit : loop.Fit) (done : loop.run steps s = .ok t) : loop.Becomes s t := by
  induction steps generalizing s with
  | zero =>
    by_cases normal : Normal loop.pattern s
    · rw [run_normal normal] at done
      obtain rfl := Except.ok.inj done
      exact ⟨normal, Or.inl rfl⟩
    · rw [out_of_steps normal] at done
      cases done
  | succ steps ih =>
    by_cases normal : Normal loop.pattern s
    · rw [run_normal normal] at done
      obtain rfl := Except.ok.inj done
      exact ⟨normal, Or.inl rfl⟩
    · cases value : loop.value with
      | error e =>
        rw [run_raising normal value] at done
        cases done
      | ok v =>
        rw [run_turn normal value] at done
        obtain ⟨u, step, reach⟩ := reach_turn fit.first normal (v := v)
        obtain ⟨settled, rfl | ⟨v', same, rest⟩⟩ := ih done
        · exact ⟨settled, Or.inr ⟨v, value, .head step reach⟩⟩
        · obtain rfl := Except.ok.inj (value.symm.trans same)
          exact ⟨settled, Or.inr ⟨v, value, .head step (reach.trans rest)⟩⟩

/-- The loop ends within some number of turns where replacing does. -/
theorem run_ends (first : FirstOnce loop.pattern) (value : loop.value = .ok v) (n : Nat) (ends : Ends loop.pattern v n s)
    (enough : n ≤ steps) : loop.run steps s ≠ .error .diverges := by
  induction n using Nat.strong_induction_on generalizing s steps with
  | _ n ih =>
    by_cases normal : Normal loop.pattern s
    · rw [run_normal normal]
      exact nofun
    · cases steps with
      | zero =>
        obtain rfl := Nat.le_zero.mp enough
        exact absurd ends normal
      | succ steps =>
        rw [run_turn normal value]
        obtain ⟨u, step, reach⟩ := reach_turn first normal (v := v)
        obtain ⟨m, rfl, later⟩ := first.ends_step ends step
        obtain ⟨k, small, after⟩ := first.ends_reach later reach
        exact ih k (by omega) after (by omega)

theorem halts_of_run (fit : loop.Fit) (value : loop.value = .ok v) (done : loop.run steps s ≠ .error .diverges) :
    Halts loop.pattern v s := by
  induction steps generalizing s with
  | zero =>
    by_cases normal : Normal loop.pattern s
    · exact normal.halts
    · exact absurd (out_of_steps normal) done
  | succ steps ih =>
    by_cases normal : Normal loop.pattern s
    · exact normal.halts
    · rw [run_turn normal value] at done
      obtain ⟨u, step, reach⟩ := reach_turn fit.first normal (v := v)
      exact (fit.first.halts_reach (.head step reach)).mpr (ih done)

/-- A loop ends exactly on a text that is tame for it. -/
theorem run_ends_iff (fit : loop.Fit) : (∃ n, ∀ steps, n ≤ steps → loop.run steps s ≠ .error .diverges) ↔ loop.Tame s := by
  unfold Loop.Tame
  cases value : loop.value with
  | error e =>
    refine iff_of_true ⟨1, fun steps enough => ?_⟩ (Or.inr (Or.inl ⟨e, rfl⟩))
    by_cases normal : Normal loop.pattern s
    · rw [run_normal normal]
      exact nofun
    · obtain ⟨m, rfl⟩ := Nat.exists_eq_succ_of_ne_zero (Nat.pos_iff_ne_zero.mp enough)
      rw [run_raising normal value, ← value]
      exact fit.answers
  | ok v =>
    have law := halts_iff fit.first fit.last (r := v) (s := s)
    constructor
    · intro ⟨n, ends⟩
      rcases law.mp (halts_of_run fit value (ends n le_rfl)) with normal | both
      · exact Or.inl normal
      · exact Or.inr (Or.inr ⟨v, rfl, both⟩)
    · intro tame
      have halts : Halts loop.pattern v s := by
        refine law.mpr ?_
        rcases tame with normal | ⟨e, raises⟩ | ⟨v', same, both⟩
        · exact Or.inl normal
        · cases raises
        · obtain rfl := Except.ok.inj same
          exact Or.inr both
      obtain ⟨n, ends⟩ := halts
      exact ⟨n, fun steps enough => run_ends fit.first value n ends enough⟩

end Loop

/-! ## One loop after the other -/

section Chain

def runLoops (steps : Nat) : List Loop → Str → Except Fault Str
  | [], s => .ok s
  | loop :: loops, s => loop.run steps s >>= runLoops steps loops

/-- Each loop is tame on the text that the ones before it make. -/
def Harmless : List Loop → Str → Prop
  | [], _ => True
  | loop :: loops, s => loop.Tame s ∧ ∀ t, loop.Becomes s t → Harmless loops t

variable {loop : Loop} {loops : List Loop} {s t u : Str} {steps : Nat}

theorem runLoops_append (first second : List Loop) (s : Str) :
    runLoops steps (first ++ second) s = runLoops steps first s >>= runLoops steps second := by
  induction first generalizing s with
  | nil => rfl
  | cons loop first ih =>
    rw [List.cons_append, runLoops, runLoops]
    cases loop.run steps s with
    | error e => rfl
    | ok t => exact ih t

theorem becomes_unique (fit : loop.Fit) (one : loop.Becomes s t) (other : loop.Becomes s u) : t = u := by
  obtain ⟨settled, rfl | ⟨v, value, reach⟩⟩ := one
  · obtain ⟨settled', rfl | ⟨v, value, reach⟩⟩ := other
    · rfl
    · exact fit.first.normal_unique .refl reach settled settled'
  · obtain ⟨settled', rfl | ⟨v', value', reach'⟩⟩ := other
    · exact fit.first.normal_unique reach .refl settled settled'
    · obtain rfl := Except.ok.inj (value.symm.trans value')
      exact fit.first.normal_unique reach reach' settled settled'

/-- With a value a loop does not fail but for want of turns. -/
theorem run_value {v : Str} (value : loop.value = .ok v) (steps : Nat) (s : Str) :
    loop.run steps s = .error .diverges ∨ ∃ t, loop.run steps s = .ok t := by
  induction steps generalizing s with
  | zero =>
    by_cases normal : Normal loop.pattern s
    · exact Or.inr ⟨s, run_normal normal⟩
    · exact Or.inl (out_of_steps normal)
  | succ steps ih =>
    by_cases normal : Normal loop.pattern s
    · exact Or.inr ⟨s, run_normal normal⟩
    · rw [run_turn normal value]
      exact ih _

/-- What the loop comes to when it is given enough turns. -/
theorem run_comes_to (fit : loop.Fit) (tame : loop.Tame s) : ∃ n,
    (¬ Normal loop.pattern s ∧ ∃ e, loop.value = .error e ∧ ∀ steps, n ≤ steps → loop.run steps s = .error e) ∨
      ∃ t, loop.Becomes s t ∧ ∀ steps, n ≤ steps → loop.run steps s = .ok t := by
  by_cases normal : Normal loop.pattern s
  · exact ⟨0, Or.inr ⟨s, ⟨normal, Or.inl rfl⟩, fun _ _ => run_normal normal⟩⟩
  · cases value : loop.value with
    | error e =>
      refine ⟨1, Or.inl ⟨normal, e, rfl, fun steps enough => ?_⟩⟩
      obtain ⟨m, rfl⟩ := Nat.exists_eq_succ_of_ne_zero (Nat.pos_iff_ne_zero.mp enough)
      exact run_raising normal value
    | ok v =>
      obtain ⟨n, ends⟩ := (run_ends_iff fit).mpr tame
      have done (steps : Nat) (enough : n ≤ steps) : ∃ t, loop.run steps s = .ok t :=
        (run_value value steps s).resolve_left (ends steps enough)
      obtain ⟨t, there⟩ := done n le_rfl
      refine ⟨n, Or.inr ⟨t, run_ok fit there, fun steps enough => ?_⟩⟩
      obtain ⟨u, later⟩ := done steps enough
      rw [later, becomes_unique fit (run_ok fit later) (run_ok fit there)]

/-- The loops come to an end exactly where each is tame in its turn. -/
theorem runLoops_ends_iff (fit : ∀ loop ∈ loops, loop.Fit) :
    (∃ n, ∀ steps, n ≤ steps → runLoops steps loops s ≠ .error .diverges) ↔ Harmless loops s := by
  induction loops generalizing s with
  | nil => exact iff_of_true ⟨0, fun _ _ => nofun⟩ trivial
  | cons loop loops ih =>
    obtain ⟨here, later⟩ := List.forall_mem_cons.mp fit
    constructor
    · intro ⟨n, ends⟩
      have tame : loop.Tame s := by
        refine (run_ends_iff here).mp ⟨n, fun steps enough failed => ends steps enough ?_⟩
        rw [runLoops, failed]
        rfl
      refine ⟨tame, fun t becomes => (ih later).mp ?_⟩
      obtain ⟨m, ⟨there, e, value, -⟩ | ⟨u, becomes', done⟩⟩ := run_comes_to here tame
      · obtain ⟨settled, rfl | ⟨v, same, -⟩⟩ := becomes
        · exact absurd settled there
        · cases value.symm.trans same
      · obtain rfl := becomes_unique here becomes becomes'
        refine ⟨max n m, fun steps enough failed => ends steps (by omega) ?_⟩
        rw [runLoops, done steps (by omega)]
        exact failed
    · intro ⟨tame, rest⟩
      obtain ⟨m, ⟨-, e, value, raised⟩ | ⟨u, becomes, done⟩⟩ := run_comes_to here tame
      · refine ⟨m, fun steps enough failed => ?_⟩
        rw [runLoops, raised steps enough] at failed
        exact here.answers (value.trans failed)
      · obtain ⟨n, ends⟩ := (ih later).mpr (rest u becomes)
        refine ⟨max n m, fun steps enough => ?_⟩
        rw [runLoops, done steps (by omega)]
        exact ends steps (by omega)

end Chain

/-! ## The expansion -/

section Expansion
variable (w : World) (o : Options) (steps : Nat) (cdir : Str) (message : Message)

def optionLoop (name : String) : Option Str → List Loop
  | none => []
  | some v => [⟨true, brace name, .ok v⟩]

def urlLoop (name : String) (part : Str → Str) : Option Value → List Loop
  | none => []
  | some baseUrl => [⟨true, brace name, do return part (← baseUrlParse w (← baseUrl.asStr))⟩]

/-- The loops before the clock is asked. -/
def settingLoops : List Loop :=
  optionLoop "BD" o.baseDir ++ urlLoop w "BUP" id (message.get "baseUrl") ++
    urlLoop w "baseUrlPath" id (message.get "baseUrl") ++ urlLoop w "BUPL" basename (message.get "baseUrl") ++
    urlLoop w "baseUrlPathLast" basename (message.get "baseUrl") ++ optionLoop "PBD" o.post_baseDir ++
    optionLoop "DR" o.documentRoot ++ optionLoop "PDR" o.post_baseDir

/-- Those that have the formatter of the time. -/
def stampLoops (whenStamp : Str → Except Fault Str) : List Loop :=
  [⟨false, brace "YYYYMMDD", whenStamp "%Y%m%d".toList⟩, ⟨false, brace "SOURCE", message.item "source" >>= Value.asStr⟩,
    ⟨false, brace "DD", whenStamp "%d".toList⟩, ⟨false, brace "HH", whenStamp "%H".toList⟩,
    ⟨false, brace "YYYY", whenStamp "%Y".toList⟩, ⟨false, brace "MM", whenStamp "%m".toList⟩,
    ⟨false, brace "JJJ", whenStamp "%j".toList⟩]

/-- All the loops that are come to; none after a clock that raises. -/
def loops : List Loop :=
  match w.fromtimestamp (w.now + o.varTimeOffset) with
  | .error _ => settingLoops w o message
  | .ok whenStamp => settingLoops w o message ++ stampLoops message whenStamp

/-- The loops, with the clock asked in between. -/
def substitutions : Except Fault Str := do
  let s ← runLoops steps (settingLoops w o message) cdir
  let whenStamp ← w.fromtimestamp (w.now + o.varTimeOffset)
  runLoops steps (stampLoops message whenStamp) s

/-- What follows them has no loop whose turns are not counted beforehand. -/
def finish (s : Str) : Except Fault Str := do
  let s ← expandStamps w o s
  let s ← expandOffset w "YYYY" "%Y" cdir s
  let s ← expandOffset w "MM" "%m" cdir s
  let s ← expandOffset w "JJJ" "%j" cdir s
  let s ← expandOffset w "YYYYMMDD" "%Y%m%d" cdir s
  let s ← _varsub w o s
  expandFields o message s

/-- Some number of turns is enough for all the loops together. -/
def Terminates : Prop := '$' ∉ cdir ∨ ∃ n, ∀ steps, n ≤ steps → substitutions w o steps cdir message ≠ .error .diverges

/-- The clock, the calendar and the URL reader answer or raise. -/
structure Answers : Prop where
  clock : ∀ t, w.fromtimestamp t ≠ .error .diverges
  calendar : ∀ t f, w.fromtimestamp t = .ok f → ∀ format, f format ≠ .error .diverges
  urls : ∀ url, w.urlparse url ≠ .error .diverges

variable {w o steps cdir message}

theorem runLoops_single (loop : Loop) (s : Str) : runLoops steps [loop] s = loop.run steps s := by
  rw [runLoops]
  cases loop.run steps s <;> rfl

theorem runLoops_option (name : String) (value : Option Str) (s : Str) :
    runLoops steps (optionLoop name value) s = substituteOption steps name value s := by
  cases value with
  | none => rfl
  | some v => exact runLoops_single _ s

theorem runLoops_url (name : String) (part : Str → Str) (s : Str) :
    runLoops steps (urlLoop w name part (message.get "baseUrl")) s = substituteUrl w steps name part message s := by
  unfold substituteUrl
  cases message.get "baseUrl" with
  | none => rfl
  | some baseUrl => exact runLoops_single _ s

/-- The expansion is the loops, and what follows them. -/
theorem variableExpansion_eq : variableExpansion w o steps cdir message =
    if '$' ∉ cdir then .ok cdir else substitutions w o steps cdir message >>= finish w o cdir message := by
  unfold variableExpansion substitutions settingLoops stampLoops finish
  by_cases plain : '$' ∉ cdir
  · rw [if_pos plain, if_pos plain]
    rfl
  · rw [if_neg plain, if_neg plain]
    have cons (loop : Loop) (loops : List Loop) :
        runLoops steps (loop :: loops) = fun s => substitute loop.once loop.pattern loop.value steps s >>= runLoops steps loops := rfl
    have nil : runLoops steps [] = pure := rfl
    simp only [runLoops_append, runLoops_option, runLoops_url, bind_assoc, cons, nil, pure_bind]

theorem brace_once {name : String} (plain : '$' ∉ name.toList ∧ '}' ∉ name.toList) :
    FirstOnce (brace name) ∧ LastOnce (brace name) := by
  refine ⟨⟨'$', '{' :: name.toList ++ ['}'], rfl, ?_⟩, ⟨'}', '$' :: '{' :: name.toList, rfl, ?_⟩⟩
  · simp [plain.1]
  · simp [plain.2]

theorem option_fit {name : String} {value : Option Str} (plain : '$' ∉ name.toList ∧ '}' ∉ name.toList) :
    ∀ loop ∈ optionLoop name value, loop.Fit := by
  intro loop member
  cases value with
  | none => cases member
  | some v =>
    cases List.mem_singleton.mp member
    exact ⟨(brace_once plain).1, (brace_once plain).2, nofun⟩

theorem answers_bind {α β : Type} {x : Except Fault α} {f : α → Except Fault β} (first : x ≠ .error .diverges)
    (next : ∀ a, f a ≠ .error .diverges) : (x >>= f) ≠ .error .diverges := by
  cases x with
  | error e =>
    intro same
    change Except.error e = _ at same
    exact first (by rw [Except.error.inj same])
  | ok a => exact next a

theorem asStr_answers (v : Value) : v.asStr ≠ .error .diverges := by
  cases v <;> exact nofun

theorem url_fit (answers : Answers w) {name : String} {part : Str → Str} {baseUrl : Option Value}
    (plain : '$' ∉ name.toList ∧ '}' ∉ name.toList) : ∀ loop ∈ urlLoop w name part baseUrl, loop.Fit := by
  intro loop member
  cases baseUrl with
  | none => cases member
  | some v =>
    cases List.mem_singleton.mp member
    refine ⟨(brace_once plain).1, (brace_once plain).2, ?_⟩
    refine answers_bind (asStr_answers v) fun url => answers_bind ?_ fun _ => nofun
    exact answers_bind (answers.urls url) fun _ => nofun

theorem setting_fit (answers : Answers w) : ∀ loop ∈ settingLoops w o message, loop.Fit := by
  intro loop member
  simp only [settingLoops, List.mem_append] at member
  rcases member with ((((((member | member) | member) | member) | member) | member) | member) | member
  · exact option_fit (by decide) loop member
  · exact url_fit answers (by decide) loop member
  · exact url_fit answers (by decide) loop member
  · exact url_fit answers (by decide) loop member
  · exact url_fit answers (by decide) loop member
  · exact option_fit (by decide) loop member
  · exact option_fit (by decide) loop member
  · exact option_fit (by decide) loop member

theorem source_answers (message : Message) : (message.item "source" >>= Value.asStr) ≠ .error .diverges := by
  refine answers_bind ?_ asStr_answers
  unfold Dict.item
  cases message.get "source" <;> exact nofun

theorem stamp_fit {whenStamp : Str → Except Fault Str} (answers : ∀ format, whenStamp format ≠ .error .diverges) :
    ∀ loop ∈ stampLoops message whenStamp, loop.Fit := by
  have fit {name : String} {once : Bool} {value : Except Fault Str} (plain : '$' ∉ name.toList ∧ '}' ∉ name.toList)
      (there : value ≠ .error .diverges) : (Loop.mk once (brace name) value).Fit :=
    ⟨(brace_once plain).1, (brace_once plain).2, there⟩
  simp only [stampLoops, List.forall_mem_cons, List.not_mem_nil, false_implies, implies_true, and_true]
  exact ⟨fit (by decide) (answers _), fit (by decide) (source_answers message), fit (by decide) (answers _),
    fit (by decide) (answers _), fit (by decide) (answers _), fit (by decide) (answers _), fit (by decide) (answers _)⟩

theorem loops_fit (answers : Answers w) : ∀ loop ∈ loops w o message, loop.Fit := by
  intro loop member
  unfold loops at member
  cases clock : w.fromtimestamp (w.now + o.varTimeOffset) with
  | error e =>
    rw [clock] at member
    exact setting_fit answers loop member
  | ok whenStamp =>
    rw [clock] at member
    rcases List.mem_append.mp member with member | member
    · exact setting_fit answers loop member
    · exact stamp_fit (answers.calendar _ whenStamp clock) loop member

/-- With a clock that answers or raises, the substitutions run out of turns where the loops do. -/
theorem substitutions_diverges_iff (answers : Answers w) :
    substitutions w o steps cdir message = .error .diverges ↔ runLoops steps (loops w o message) cdir = .error .diverges := by
  unfold substitutions loops
  cases clock : w.fromtimestamp (w.now + o.varTimeOffset) with
  | error e =>
    have other : e ≠ .diverges := fun same => answers.clock _ (same ▸ clock)
    cases runLoops steps (settingLoops w o message) cdir with
    | error e => rfl
    | ok s => exact iff_of_false (fun same => other (Except.error.inj same)) nofun
  | ok whenStamp =>
    rw [runLoops_append]
    rfl

/-- No loop has anything to do in a text without `$`. -/
theorem harmless_plain {loops : List Loop} (fit : ∀ loop ∈ loops, ∃ name, loop.pattern = brace name) {s : Str}
    (plain : '$' ∉ s) : Harmless loops s := by
  induction loops with
  | nil => trivial
  | cons loop loops ih =>
    obtain ⟨⟨name, pattern⟩, later⟩ := List.forall_mem_cons.mp fit
    have normal : Normal loop.pattern s := by
      rintro ⟨x, y, rfl⟩
      rw [pattern] at plain
      exact plain (List.mem_append_left y (List.mem_append_right x List.mem_cons_self))
    refine ⟨Or.inl normal, ?_⟩
    rintro t ⟨settled, rfl | ⟨v, -, reach⟩⟩
    · exact ih later
    · cases reach using ReflTransGen.head_induction_on with
      | refl => exact ih later
      | head step _ => exact absurd normal step.not_normal

theorem loops_braces : ∀ loop ∈ loops w o message, ∃ name, loop.pattern = brace name := by
  have option_ (name : String) (value : Option Str) : ∀ loop ∈ optionLoop name value, ∃ name, loop.pattern = brace name := by
    intro loop member
    cases value with
    | none => cases member
    | some v =>
      cases List.mem_singleton.mp member
      exact ⟨name, rfl⟩
  have url (name : String) (part : Str → Str) (v : Option Value) : ∀ loop ∈ urlLoop w name part v, ∃ name, loop.pattern = brace name := by
    intro loop member
    cases v with
    | none => cases member
    | some v =>
      cases List.mem_singleton.mp member
      exact ⟨name, rfl⟩
  have settings : ∀ loop ∈ settingLoops w o message, ∃ name, loop.pattern = brace name := by
    intro loop member
    simp only [settingLoops, List.mem_append] at member
    rcases member with ((((((member | member) | member) | member) | member) | member) | member) | member
    all_goals first | exact option_ _ _ loop member | exact url _ _ _ loop member
  intro loop member
  unfold loops at member
  cases clock : w.fromtimestamp (w.now + o.varTimeOffset) with
  | error e =>
    rw [clock] at member
    exact settings loop member
  | ok whenStamp =>
    rw [clock] at member
    rcases List.mem_append.mp member with member | member
    · exact settings loop member
    · simp only [stampLoops, List.mem_cons, List.not_mem_nil, or_false] at member
      rcases member with rfl | rfl | rfl | rfl | rfl | rfl | rfl
      all_goals exact ⟨_, rfl⟩

/-- A value without `$` has no pattern in it, and regrows none. -/
theorem harmless_of_values {loops : List Loop} (braces : ∀ loop ∈ loops, ∃ name, loop.pattern = brace name)
    (plain : ∀ loop ∈ loops, ∀ v, loop.value = .ok v → '$' ∉ v) (s : Str) : Harmless loops s := by
  induction loops generalizing s with
  | nil => trivial
  | cons loop loops ih =>
    obtain ⟨⟨name, pattern⟩, braces⟩ := List.forall_mem_cons.mp braces
    obtain ⟨here, plain⟩ := List.forall_mem_cons.mp plain
    refine ⟨?_, fun t _ => ih braces plain t⟩
    cases value : loop.value with
    | error e => exact Or.inr (Or.inl ⟨e, value⟩)
    | ok v =>
      have none_ := here v value
      refine Or.inr (Or.inr ⟨v, value, ?_, ?_⟩)
      · rintro ⟨x, y, rfl⟩
        rw [pattern] at none_
        exact none_ (List.mem_append_left y (List.mem_append_right x List.mem_cons_self))
      · rintro ⟨g⟩
        obtain ⟨d, ds, form⟩ := List.exists_cons_of_ne_nil g.beginning_some
        have whole := g.inner.trans pattern
        rw [form] at whole
        have start : d = '$' := (List.cons.inj whole).1
        refine absurd ?_ none_
        rw [g.begins, form, start]
        exact List.mem_append_right _ List.mem_cons_self

theorem loops_end_iff (answers : Answers w) : Terminates w o cdir message ↔ Harmless (loops w o message) cdir := by
  unfold Terminates
  simp only [Ne, substitutions_diverges_iff answers]
  rw [runLoops_ends_iff (loops_fit answers)]
  constructor
  · rintro (plain | harmless)
    · exact harmless_plain loops_braces plain
    · exact harmless
  · exact Or.inr

end Expansion

section Hostile

/-- The expansion of a text comes to an end exactly where, loop by loop, the pattern is not in the text that the loops
before it left, or its value raises, or the value neither has the pattern in it nor regrows it there. -/
theorem terminates_iff (w : World) (o : Options) (cdir : Str) (message : Message) (answers : Answers w) :
    Terminates w o cdir message ↔ Harmless (loops w o message) cdir := loops_end_iff answers

/-- A world in which every URL has this path, and the clock has no time. -/
def worldOf (path : String) : World := { Filter.quietWorld with urlparse := fun _ => .ok ("https".toList, path.toList) }

theorem worldOf_answers (path : String) : Answers (worldOf path) := ⟨fun _ => nofun, fun _ _ same => (nomatch same), fun _ => nofun⟩

theorem plain_path_terminates : Terminates (worldOf "/data") Filter.noOptions "/mirror${BUP}/${BUPL}".toList
    [("baseUrl", .str "https://h/data".toList)] := by
  refine (terminates_iff (worldOf "/data") Filter.noOptions _ _ (worldOf_answers "/data")).mpr ?_
  have values : ∀ loop ∈ loops (worldOf "/data") Filter.noOptions [("baseUrl", .str "https://h/data".toList)],
      loop.value = .ok "/data".toList ∨ loop.value = .ok "data".toList := by
    change ∀ loop ∈ [_, _, _, _], _
    simp only [List.forall_mem_cons]
    exact ⟨Or.inl rfl, Or.inl rfl, Or.inr rfl, Or.inr rfl, nofun⟩
  refine harmless_of_values loops_braces (fun loop member v value => ?_) _
  rcases values loop member with same | same
  all_goals
    obtain rfl := Except.ok.inj (same.symm.trans value)
    decide

/-- The base URL of a notice with the pattern of its path in its path. -/
def hostileNotice : Message := [("baseUrl", .str "https://h/$\x7bBUP\x7d".toList)]

theorem hostile_path_never_ends : ¬ ∀ (w : World) (o : Options) (cdir : Str) (message : Message), Answers w → Terminates w o cdir message := by
  intro all
  have ends := all (worldOf "/$\x7bBUP\x7d") Filter.noOptions "https://h/$\x7bBUP\x7d".toList hostileNotice (worldOf_answers _)
  obtain ⟨tame, -⟩ := (loops_end_iff (worldOf_answers _)).mp ends
  rcases tame with normal | ⟨e, raises⟩ | ⟨v, value, plain, -⟩
  · exact absurd (normal_iff.mp normal) (by decide)
  · cases raises
  · obtain rfl := Except.ok.inj value
    exact absurd (normal_iff.mp plain) (by decide)

end Hostile
end Sarracenia.Guarantees.Expansion
