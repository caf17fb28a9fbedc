import Mathlib.Tactic.Linarith
import Sarracenia.Library.Expiry
import Sarracenia.Source.NoDupe

/-!
# The law of duplicate suppression

A message is a duplicate when the same key and path were seen before, in a message that
was checked, and no longer ago than `nodupe_ttl`. The law keeps the whole history of what
was seen and does nothing at housekeeping; the disk driver keeps the last time of each
pair, and drops the ones that have expired.
-/
namespace Sarracenia.Guarantees.NoDupe
open Library Library.Text Library.Dynamic Library.Expiry Source Source.NoDupe
open Source.Retry (Object)

/-! ## Drivers that agree -/

section Tied
variable {α ρ σ τ : Type} (w : World τ) (o : NoDupe.Options)

/-- Two checks that raise the same, or say the same and leave states that agree. -/
def Same (R : σ → ρ → Prop) : Except Fault (σ × α) → Except Fault (ρ × α) → Prop
  | .error fault, .error fault' => fault = fault'
  | .ok (s, x), .ok (t, y) => R s t ∧ x = y
  | _, _ => False

/-- A step that both take first. -/
theorem Same.bind {β : Type} {R : σ → ρ → Prop} {step : Except Fault β}
    {f : β → Except Fault (σ × α)} {g : β → Except Fault (ρ × α)}
    (next : ∀ x, step = .ok x → Same R (f x) (g x)) : Same R (step >>= f) (step >>= g) := by
  cases step with
  | error fault => rfl
  | ok x => exact next x rfl

/-- A relation of two drivers at a time of the clock, which every check of a message that
fits keeps. -/
structure Tied (a : Driver σ) (b : Driver ρ) (Fit : Message → Prop)
    (R : ℚ → σ → ρ → Prop) : Prop where
  later : ∀ {c c' s t}, R c s t → c ≤ c' → R c' s t
  check_message : ∀ {now s t msg}, R now s t → Fit msg →
    Same (R now) (a.check_message now s msg) (b.check_message now t msg)
  on_housekeeping : ∀ {now s t}, R now s t → R now (a.on_housekeeping now s) (b.on_housekeeping now t)

/-- The loop asks the driver about the message. -/
def Checked (now : ℚ) (m : Object τ) : Prop := ageCheck w o now m = .ok none ∧ m.2.isRetry = false

/-- What is checked in the run fits. -/
def Fits (Fit : Message → Prop) (events : List (Event τ)) : Prop :=
  ∀ now worklist, .after_accept now worklist ∈ events →
    ∀ m ∈ worklist.incoming, Checked w o now m → Fit m.2

/-- The clock never goes back. -/
def Ordered : ℚ → List (Event τ) → Prop
  | _, [] => True
  | clock, event :: events => clock ≤ event.now ∧ Ordered event.now events

variable {w o} {a : Driver σ} {b : Driver ρ} {Fit : Message → Prop} {R : ℚ → σ → ρ → Prop}

theorem Tied.handle (tied : Tied a b Fit R) {now : ℚ} {s : σ} {t : ρ} (related : R now s t)
    {m : Object τ} (fits : Checked w o now m → Fit m.2) :
    R now (handle w o a now s m).1 (handle w o b now t m).1 ∧
      (handle w o a now s m).2 = (handle w o b now t m).2 := by
  unfold NoDupe.handle
  split
  · exact ⟨related, rfl⟩
  · exact ⟨related, rfl⟩
  · next inRange =>
    by_cases retry : Message.isRetry m.2 = true
    · rw [if_pos retry, if_pos retry]
      exact ⟨related, rfl⟩
    · rw [if_neg retry, if_neg retry]
      have same := tied.check_message related (fits ⟨inRange, by simpa using retry⟩)
      cases left : a.check_message now s m.2 with
      | error fault =>
        cases right : b.check_message now t m.2 with
        | error fault' =>
          rw [left, right] at same
          exact ⟨related, congrArg Except.error same⟩
        | ok y =>
          rw [left, right] at same
          exact same.elim
      | ok x =>
        cases right : b.check_message now t m.2 with
        | error fault' =>
          rw [left, right] at same
          exact same.elim
        | ok y =>
          rw [left, right] at same
          obtain ⟨s', msg, new⟩ := x
          obtain ⟨t', msg', new'⟩ := y
          obtain ⟨related, said⟩ := same
          obtain ⟨rfl, rfl⟩ := Prod.mk.inj said
          exact ⟨related, rfl⟩

theorem Tied.acceptLoop (tied : Tied a b Fit R) {now : ℚ} (incoming : List (Object τ)) {s : σ}
    {t : ρ} (related : R now s t) (batch : Batch τ)
    (fits : ∀ m ∈ incoming, Checked w o now m → Fit m.2) :
    R now (acceptLoop w o a now incoming s batch).1 (acceptLoop w o b now incoming t batch).1 ∧
      (acceptLoop w o a now incoming s batch).2 = (acceptLoop w o b now incoming t batch).2 := by
  induction incoming generalizing s t batch with
  | nil => exact ⟨related, rfl⟩
  | cons m incoming ih =>
    obtain ⟨kept, said⟩ := tied.handle related (fits m List.mem_cons_self)
    rw [NoDupe.acceptLoop, NoDupe.acceptLoop]
    generalize NoDupe.handle w o a now s m = left at kept said ⊢
    generalize NoDupe.handle w o b now t m = right at kept said ⊢
    obtain ⟨s', said'⟩ := left
    obtain ⟨t', said''⟩ := right
    obtain rfl : said' = said'' := said
    cases said' with
    | error fault => exact ⟨kept, rfl⟩
    | ok sorted => exact ih kept _ fun n member => fits n (List.mem_cons_of_mem m member)

/-- The clock after a run. -/
def clockAfter : ℚ → List (Event τ) → ℚ
  | clock, [] => clock
  | _, event :: events => clockAfter event.now events

theorem Tied.run (tied : Tied a b Fit R) {events : List (Event τ)} {clock : ℚ} {s : σ} {t : ρ}
    (related : R clock s t) (ordered : Ordered clock events) (fits : Fits w o Fit events) :
    run w o a s events = run w o b t events ∧
      R (clockAfter clock events) (final w o a s events) (final w o b t events) := by
  induction events generalizing clock s t with
  | nil => exact ⟨rfl, related⟩
  | cons event events ih =>
    have now := tied.later related ordered.1
    have rest : Fits w o Fit events := fun now worklist member =>
      fits now worklist (List.mem_cons_of_mem event member)
    cases event with
    | after_accept clock' worklist =>
      obtain ⟨kept, said⟩ := tied.acceptLoop worklist.incoming now
        ⟨[], worklist.rejected, worklist.failed, none⟩ (fits _ _ List.mem_cons_self)
      obtain ⟨same, after⟩ := ih kept ordered.2 rest
      exact ⟨congrArg₂ List.cons said same, after⟩
    | on_housekeeping clock' => exact ih (tied.on_housekeeping now) ordered.2 rest

/-- Tied drivers do the same to every batch of a run. -/
theorem Tied.run_eq (tied : Tied a b Fit R) {events : List (Event τ)} {clock : ℚ} {s : σ} {t : ρ}
    (related : R clock s t) (ordered : Ordered clock events) (fits : Fits w o Fit events) :
    NoDupe.run w o a s events = NoDupe.run w o b t events :=
  (tied.run related ordered fits).1

/-- Tied drivers are still tied after a run. -/
theorem Tied.final (tied : Tied a b Fit R) {events : List (Event τ)} {clock : ℚ} {s : σ} {t : ρ}
    (related : R clock s t) (ordered : Ordered clock events) (fits : Fits w o Fit events) :
    R (clockAfter clock events) (NoDupe.final w o a s events) (NoDupe.final w o b t events) :=
  (tied.run related ordered fits).2

end Tied

/-! ## What a driver keeps -/

section Keeps
variable {σ τ : Type} {w : World τ} {o : NoDupe.Options} {a : Driver σ} {P : σ → Prop}

theorem acceptLoop_keeps {now : ℚ}
    (check : ∀ {s msg s' x}, P s → a.check_message now s msg = .ok (s', x) → P s')
    (incoming : List (Object τ)) {s : σ} (holds : P s) (batch : Batch τ) :
    P (acceptLoop w o a now incoming s batch).1 := by
  have handled (m : Object τ) {s : σ} (holds : P s) : P (handle w o a now s m).1 := by
    unfold handle
    split
    · exact holds
    · exact holds
    · split
      · exact holds
      · split
        · exact holds
        · next checked => exact check holds checked
  induction incoming generalizing s batch with
  | nil => exact holds
  | cons m incoming ih =>
    have kept := handled m holds
    rw [acceptLoop]
    split
    · next h =>
      rw [h] at kept
      exact kept
    · next h =>
      rw [h] at kept
      exact ih kept _

/-- What every check at one of the times of the run keeps, and every housekeeping. -/
theorem final_keeps {Time : ℚ → Prop}
    (check : ∀ {now s msg s' x}, Time now → P s → a.check_message now s msg = .ok (s', x) → P s')
    (housekeeping : ∀ {now s}, P s → P (a.on_housekeeping now s)) {events : List (Event τ)}
    (times : ∀ event ∈ events, Time event.now) {s : σ} (holds : P s) :
    P (final w o a s events) := by
  induction events generalizing s with
  | nil => exact holds
  | cons event events ih =>
    have rest : ∀ event ∈ events, Time event.now := fun event member =>
      times event (List.mem_cons_of_mem _ member)
    have time := times event List.mem_cons_self
    cases event with
    | after_accept now worklist =>
      exact ih rest (acceptLoop_keeps (fun holds checked => check time holds checked) _ holds _)
    | on_housekeeping now => exact ih rest (housekeeping holds)

end Keeps

/-! ## The law -/

structure Sighting where
  time : ℚ
  key : Key
  path : Str
  deriving DecidableEq

/-- The pair was seen no longer ago than `ttl`. -/
def Seen (ttl : ℚ) (history : List Sighting) (now : ℚ) (key : Key) (path : Str) : Prop :=
  ∃ seen ∈ history, seen.key = key ∧ seen.path = path ∧ now - seen.time ≤ ttl

instance (ttl : ℚ) (history : List Sighting) (now : ℚ) (key : Key) (path : Str) :
    Decidable (Seen ttl history now key path) := by
  unfold Seen
  infer_instance

section Law
variable {τ : Type} (w : World τ) (o : NoDupe.Options)

/-- Every message that is checked is seen, duplicate or not. -/
def lawCheck (now : ℚ) (history : List Sighting) (msg : Message) :
    Except Fault (List Sighting × Message × Bool) := do
  let (key, path, msg) ← identify w msg
  let path ← path.asStr
  let key ← hash key
  return (history ++ [⟨now, key, path⟩], msg, !decide (Seen o.nodupe_ttl history now key path))

/-- Housekeeping changes nothing. -/
def law : Driver (List Sighting) := ⟨lawCheck w o, fun _ history => history⟩

def Event.isBatch : Event τ → Bool
  | .after_accept _ _ => true
  | .on_housekeeping _ => false

/-- A run without its housekeeping. -/
def batches (events : List (Event τ)) : List (Event τ) := events.filter Event.isBatch

theorem law_batches (history : List Sighting) (events : List (Event τ)) :
    run w o (law w o) history events = run w o (law w o) history (batches events) := by
  induction events generalizing history with
  | nil => rfl
  | cons event events ih =>
    cases event with
    | after_accept now worklist => exact congrArg (_ :: ·) (ih _)
    | on_housekeeping now => exact ih history

end Law

/-! ## The disk driver keeps the law -/

section Disk
variable {τ : Type} (w : World τ) (o : NoDupe.Options)

/-- Until when the disk driver takes a pair for a duplicate. -/
def remembered (d : Disk) : Memory (Key × Str) ℚ := fun pair =>
  (d.cache_dict.getAt pair.1 pair.2).map (· + o.nodupe_ttl)

/-- Whatever the verdict, the time of the pair is set. -/
theorem not_in_cache_cache (now : ℚ) (key : Key) (path : Str) (d : Disk) :
    (d.not_in_cache w o now key path).1.cache_dict = d.cache_dict.setAt key path now := by
  unfold Disk.not_in_cache Table.setAt
  split
  · next missing =>
    rw [missing]
    rfl
  · next kdict found =>
    rw [found]
    rfl

theorem not_in_cache_remembered (now : ℚ) (key : Key) (path : Str) (d : Disk) :
    remembered o (d.not_in_cache w o now key path).1 =
      Function.update (remembered o d) (key, path) (some (now + o.nodupe_ttl)) := by
  funext pair
  obtain ⟨k, p⟩ := pair
  rw [remembered, not_in_cache_cache, Table.getAt_setAt]
  by_cases here : k = key ∧ p = path
  · rw [if_pos here, here.1, here.2, Function.update_self]
    rfl
  · rw [if_neg here, Function.update_of_ne fun same => here (Prod.mk.inj same)]
    rfl

theorem not_in_cache_verdict (now : ℚ) (key : Key) (path : Str) (d : Disk) :
    (d.not_in_cache w o now key path).2 = !decide (Holds (remembered o d) now (key, path)) := by
  have said : (d.not_in_cache w o now key path).2 =
      !((d.cache_dict.getAt key path).elim false fun t => decide (now ≤ t + o.nodupe_ttl)) := by
    unfold Disk.not_in_cache Table.getAt
    split
    · next missing =>
      rw [missing]
      rfl
    · next kdict found =>
      rw [found]
      rfl
  have holds : Holds (remembered o d) now (key, path) ↔
      ((d.cache_dict.getAt key path).elim false fun t => decide (now ≤ t + o.nodupe_ttl)) =
        true := by
    unfold Holds remembered
    cases d.cache_dict.getAt key path <;> simp
  rw [said, Bool.eq_iff_iff.mpr (holds.symm.trans decide_eq_true_iff.symm)]

theorem unexpired_get (now : ℚ) (kdict : Table Str ℚ) (path : Str) :
    (Disk.unexpired o now none kdict).get path =
      (kdict.get path).filter fun t => decide (now ≤ t + o.nodupe_ttl) := by
  rw [Disk.unexpired, Table.get_keep]
  cases kdict.get path with
  | none => rfl
  | some t =>
    rw [Option.bind_some]
    by_cases expired : o.nodupe_ttl < now - t
    · have late : ¬ now ≤ t + o.nodupe_ttl := by linarith
      rw [if_pos expired, Option.filter_some_neg (by simpa using late)]
    · have live : now ≤ t + o.nodupe_ttl := by linarith
      rw [if_neg expired, Option.filter_some_pos (by simpa using live)]
      rfl

/-- What `clean` drops has expired. -/
theorem clean_getAt (now : ℚ) (persist : Bool) (d : Disk) (key : Key) (path : Str) :
    (d.clean w o now persist none).cache_dict.getAt key path =
      (d.cache_dict.getAt key path).filter fun t => decide (now ≤ t + o.nodupe_ttl) := by
  simp only [Disk.clean, Table.getAt, Table.get_keep]
  cases d.cache_dict.get key with
  | none => rfl
  | some kdict =>
    rw [Option.bind_some, Option.bind_some, ← unexpired_get o now kdict path]
    split
    · next nothing =>
      rw [Table.get, List.isEmpty_iff.mp nothing]
      rfl
    · rfl

theorem save_remembered (now : ℚ) (d : Disk) (pair : Key × Str) :
    remembered o (d.save w o now) pair =
      (remembered o d pair).filter fun until_ => decide (now ≤ until_) := by
  simp only [remembered, Disk.save, clean_getAt, Option.filter_map]
  rfl

/-- Until when a sighting speaks for its pair. -/
def Sighting.entry (ttl : ℚ) (s : Sighting) : (Key × Str) × ℚ := ((s.key, s.path), s.time + ttl)

theorem told_iff_seen (history : List Sighting) (now : ℚ) (key : Key) (path : Str) :
    Told (history.map (Sighting.entry o.nodupe_ttl)) now (key, path) ↔
      Seen o.nodupe_ttl history now key path := by
  constructor
  · intro ⟨until_, member, alive⟩
    obtain ⟨seen, before, same⟩ := List.mem_map.mp member
    obtain ⟨pair, rfl⟩ := Prod.mk.inj same
    obtain ⟨rfl, rfl⟩ := Prod.mk.inj pair
    exact ⟨seen, before, rfl, rfl, by linarith⟩
  · intro ⟨seen, member, key_, path_, recent⟩
    subst key_ path_
    exact ⟨_, List.mem_map_of_mem member, by linarith⟩

/-- From the clock on the cache recalls the history, of which nothing is in the future. -/
structure Kept (clock : ℚ) (m : Memory (Key × Str) ℚ) (history : List Sighting) : Prop where
  recalls : Recalls clock m (history.map (Sighting.entry o.nodupe_ttl))
  past : ∀ seen ∈ history, seen.time ≤ clock

variable {o}

theorem Kept.later {clock clock' : ℚ} {m : Memory (Key × Str) ℚ} {history : List Sighting}
    (kept : Kept o clock m history) (le : clock ≤ clock') : Kept o clock' m history :=
  ⟨kept.recalls.later le, fun seen member => le_trans (kept.past seen member) le⟩

theorem Kept.verdict {clock : ℚ} {m : Memory (Key × Str) ℚ} {history : List Sighting}
    (kept : Kept o clock m history) (key : Key) (path : Str) :
    Holds m clock (key, path) ↔ Seen o.nodupe_ttl history clock key path := by
  rw [kept.recalls _ _ le_rfl, told_iff_seen]

theorem Kept.see {clock : ℚ} {m : Memory (Key × Str) ℚ} {history : List Sighting}
    (kept : Kept o clock m history) (key : Key) (path : Str) :
    Kept o clock (Function.update m (key, path) (some (clock + o.nodupe_ttl)))
      (history ++ [⟨clock, key, path⟩]) where
  recalls := by
    rw [List.map_append]
    refine kept.recalls.remember (key, path) ?_
    intro entry member
    obtain ⟨seen, there, rfl⟩ := List.mem_map.mp member
    have before := kept.past seen there
    change seen.time + o.nodupe_ttl ≤ clock + o.nodupe_ttl
    linarith
  past := by
    intro seen member
    rcases List.mem_append.mp member with before | last
    · exact kept.past seen before
    · rw [List.mem_singleton.mp last]

theorem disk_tied : Tied (Disk.driver w o) (law w o) (fun _ => True)
    (fun clock d history => Kept o clock (remembered o d) history) where
  later kept le := kept.later le
  check_message := by
    intro now d history msg kept _
    refine Same.bind fun found _ => ?_
    refine Same.bind fun path _ => ?_
    refine Same.bind fun key _ => ?_
    have remembers : Kept o now (remembered o (d.not_in_cache w o now key path).1)
        (history ++ [⟨now, key, path⟩]) := by
      rw [not_in_cache_remembered]
      exact kept.see key path
    have verdict : (d.not_in_cache w o now key path).2 =
        !decide (Seen o.nodupe_ttl history now key path) := by
      rw [not_in_cache_verdict, decide_eq_decide.mpr (kept.verdict key path)]
    exact ⟨remembers, congrArg (Prod.mk found.2.2) verdict⟩
  on_housekeeping := by
    intro now d history kept
    exact ⟨kept.recalls.forget (save_remembered w o now d), kept.past⟩

end Disk

/-! ## A run -/

def plainWorld : World Unit where
  nowstr _ := []
  timeflt2str _ := []
  str _ := []
  number _ := []
  float := Decimal.readFloat
  float_reads _ _ read := read
  replacing _ := []

def fiveMinutes : NoDupe.Options := ⟨300, 0, 0, "sarra".toList⟩

/-- One message without an identity. -/
def oneMessage : Worklist Unit :=
  ⟨[((), [("_deleteOnPost", .set []), ("pubTime", .str "20240101T000000".toList),
    ("relPath", .str "a/b".toList)])], [], []⟩

/-- The message comes again after housekeeping, in time and too late. -/
def comesAgain : List (Event Unit) :=
  [.after_accept 0 oneMessage, .on_housekeeping 1, .after_accept 300 oneMessage,
    .on_housekeeping 301, .after_accept 601 oneMessage]

example : (run plainWorld fiveMinutes (Disk.driver plainWorld fiveMinutes) Disk.empty
    comesAgain).map (fun batch => batch.rejected.length) = [0, 1, 0] := by decide +kernel

end Sarracenia.Guarantees.NoDupe
