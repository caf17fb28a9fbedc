import Mathlib.Data.List.TakeWhile
import Sarracenia.Guarantees.NoDupe.Law

/-!
# Stopping and starting the disk driver

`save` writes the key as it is and the path quoted, but cut at a star; `load` takes the
words of each line. An entry survives exactly when its key is a text without white space
and its path is neither empty nor has a star, and no verdict changes exactly when every
entry that has not expired is like that.
-/
namespace Sarracenia.Guarantees.NoDupe
open Library Library.Text Library.Dynamic Library.Expiry Source Source.NoDupe
open Source.Retry (Object)

/-! ## Derived keys are true -/

section Derived
variable {τ : Type} (w : World τ) (o : NoDupe.Options)

def TrueKey : Key → Prop
  | .text s => s ≠ []
  | .number q => q ≠ 0

theorem deriveKey_truthy {msg : Message} {key : Value} (derived : deriveKey w msg = .ok key) :
    key.truthy = true := by
  obtain ⟨given, -, derived⟩ := bind_ok_iff.mp derived
  split at derived
  · next truthy =>
    rw [← Except.ok.inj derived]
    exact truthy
  · obtain ⟨t, -, derived⟩ := bind_ok_iff.mp derived
    obtain ⟨over_, -, derived⟩ := bind_ok_iff.mp derived
    obtain ⟨path, -, derived⟩ := bind_ok_iff.mp derived
    rw [← Except.ok.inj derived]
    simp [Value.truthy]

theorem hash_true {value : Value} {key : Key} (hashed : hash value = .ok key)
    (truthy : value.truthy = true) : TrueKey key := by
  cases value <;> simp only [NoDupe.hash, reduceCtorEq, Except.ok.injEq] at hashed
  all_goals
    subst hashed
    simp_all [Value.truthy, TrueKey]

theorem identify_key {msg msg' : Message} {key path : Value}
    (found : identify w msg = .ok (key, path, msg')) : deriveKey w msg = .ok key := by
  obtain ⟨derived, here, found⟩ := bind_ok_iff.mp found
  obtain ⟨path', -, found⟩ := bind_ok_iff.mp found
  obtain ⟨msg'', -, found⟩ := bind_ok_iff.mp found
  rw [here, ← (Prod.mk.inj (Except.ok.inj found)).1]

/-- Every entry of the cache has a true key and a time of the run. -/
theorem entries_kept {Time : ℚ → Prop} {events : List (Event τ)}
    (times : ∀ event ∈ events, Time event.now) (key : Key) (path : Str) (t : ℚ)
    (here : (final w o (Disk.driver w o) Disk.empty events).cache_dict.getAt key path = some t) :
    TrueKey key ∧ Time t := by
  revert key path t
  refine final_keeps (P := fun d : Disk => ∀ key path t, d.cache_dict.getAt key path = some t →
    TrueKey key ∧ Time t) ?_ ?_ times ?_
  · intro now d msg d' x time entries checked
    obtain ⟨found, identified, checked⟩ := bind_ok_iff.mp checked
    obtain ⟨relpath, -, checked⟩ := bind_ok_iff.mp checked
    obtain ⟨new, hashed, checked⟩ := bind_ok_iff.mp checked
    obtain rfl : (d.not_in_cache w o now new relpath).1 = d' :=
      (Prod.mk.inj (Except.ok.inj checked)).1
    intro key path t here
    rw [not_in_cache_cache, Table.getAt_setAt] at here
    split at here
    · next same =>
      rw [same.1, ← Option.some.inj here]
      exact ⟨hash_true hashed (deriveKey_truthy w (identify_key w identified)), time⟩
    · exact entries key path t here
  · intro now d entries key path t here
    have filtered : (d.cache_dict.getAt key path).filter _ = some t :=
      (clean_getAt w o now true { d with cache_file := [] } key path).symm.trans here
    exact entries key path t (Option.filter_eq_some_iff.mp filtered).1
  · intro key path t here
    cases here

end Derived
/-! ## What is written and what is read -/

section File
variable {τ : Type} (w : World τ) (o : NoDupe.Options)

/-- A key that is one word. -/
def Plain : Key → Prop
  | .text s => s ≠ [] ∧ ∀ c ∈ s, isSpace c = false
  | .number _ => False

/-- The time is the same when it is read from its text. -/
def Survives (t : ℚ) : Prop := Decimal.readFloat (Decimal.fixed 6 t) = some t

abbrev Entry := Key × Str × ℚ

def entryLine (e : Entry) : Str := line w e.1 e.2.2 (Percent.quote (Disk.cut e.2.1))

/-- The entries that are written, in their order. -/
def writtenEntries (now : ℚ) (d : Disk) : List Entry :=
  d.cache_dict.entries.flatMap fun (key, kdict) =>
    (Disk.unexpired o now none kdict).entries.map fun (value, t) => (key, value, t)

theorem on_stop_file (now : ℚ) (d : Disk) :
    (d.on_stop w o now).cache_file = (writtenEntries o now d).flatMap (entryLine w) := by
  change [] ++ Disk.persisted w o now none d = _
  rw [List.nil_append, Disk.persisted, writtenEntries, List.flatMap_assoc]
  refine List.flatMap_congr fun entry _ => ?_
  rw [List.flatMap_map]
  rfl

theorem mem_writtenEntries (now : ℚ) (d : Disk) (key : Key) (path : Str) (t : ℚ) :
    (key, path, t) ∈ writtenEntries o now d ↔
      d.cache_dict.getAt key path = some t ∧ now ≤ t + o.nodupe_ttl := by
  have kept (kdict : Table Str ℚ) : (path, t) ∈ (Disk.unexpired o now none kdict).entries ↔
      kdict.get path = some t ∧ now ≤ t + o.nodupe_ttl := by
    rw [← Table.get_eq_some_iff, unexpired_get, Option.filter_eq_some_iff, decide_eq_true_iff]
  unfold writtenEntries Table.getAt
  rw [List.mem_flatMap, Option.bind_eq_some_iff]
  constructor
  · intro ⟨⟨k, kdict⟩, row, member⟩
    obtain ⟨⟨p, u⟩, column, same⟩ := List.mem_map.mp member
    obtain ⟨rfl, rest⟩ := Prod.mk.inj same
    obtain ⟨rfl, rfl⟩ := Prod.mk.inj rest
    exact ⟨⟨kdict, (Table.get_eq_some_iff _).mpr row, ((kept kdict).mp column).1⟩,
      ((kept kdict).mp column).2⟩
  · intro ⟨⟨kdict, row, column⟩, alive⟩
    exact ⟨(key, kdict), (Table.get_eq_some_iff _).mp row,
      List.mem_map_of_mem ((kept kdict).mpr ⟨column, alive⟩)⟩

/-- What a line puts in the cache. -/
def readEntry (now : ℚ) (text : Str) : Option Entry :=
  (Disk.readLine w o now text).map fun (key, t, path) => (.text key, path, t)

theorem load_cache (now : ℚ) (d : Disk) :
    (d.load w o now).cache_dict =
      Table.empty.setAll ((lines d.cache_file).filterMap (readEntry w o now)) := by
  unfold Disk.load
  generalize Table.empty = cache
  induction lines d.cache_file generalizing cache with
  | nil => rfl
  | cons text texts ih =>
    rw [List.foldl_cons, ih, List.filterMap_cons]
    unfold Disk.loadLine readEntry
    cases Disk.readLine w o now text with
    | none => rfl
    | some said => rfl

/-- Only keys that are one word are read. -/
theorem readEntry_plain {now : ℚ} {text : Str} {e : Entry}
    (read : readEntry w o now text = some e) : Plain e.1 := by
  unfold readEntry Disk.readLine at read
  split at read
  · next key time qpath rest found =>
    have plain := words_plain text key (found ▸ List.mem_cons_self)
    split at read
    · cases read
    · split at read
      · cases read
      · rw [← Option.some.inj read]
        exact plain
  · cases read

/-- The line of an entry whose key is one word: nothing of a path that is cut to nothing,
else the path up to its first star. -/
theorem readEntry_entryLine {now : ℚ} {key : Str} {path : Str} {t : ℚ} (plain : Plain (.text key))
    (survives : Survives t) :
    readEntry w o now (entryLine w (.text key, path, t)) =
      if Disk.cut path = [] ∨ o.nodupe_ttl < now - t then none
      else some (.text key, Disk.cut path, t) := by
  have split : words (entryLine w (.text key, path, t)) =
      key :: Decimal.fixed 6 t :: words (Percent.quote (Disk.cut path) ++ ['\n']) := by
    rw [entryLine, line]
    change words (key ++ ' ' :: _) = _
    rw [words_ended _ _ _ plain.2 plain.1 rfl,
      words_ended _ _ _ (Decimal.fixed_plain 6 t) (Decimal.fixed_ne_nil 6 t) rfl]
  unfold readEntry Disk.readLine
  rw [split]
  by_cases nothing : Disk.cut path = []
  · rw [nothing, if_pos (Or.inl rfl)]
    rfl
  · have some_ : Percent.quote (Disk.cut path) ≠ [] := fun h =>
      nothing ((Percent.quote_eq_nil_iff _).mp h)
    have solid : ∀ c ∈ Percent.quote (Disk.cut path), isSpace c = false := fun c member =>
      (Percent.quote_plain _ c member).2
    rw [words_ended _ [] '\n' solid some_ rfl]
    simp only [w.float_reads _ _ survives, Percent.unquote_quote]
    by_cases expired : o.nodupe_ttl < now - t
    · rw [if_pos expired, if_pos (Or.inr expired)]
      rfl
    · rw [if_neg expired, if_neg (not_or.mpr ⟨nothing, expired⟩)]
      rfl

theorem lines_entryLines {entries : List Entry} (plain : ∀ e ∈ entries, Plain e.1) :
    lines (entries.flatMap (entryLine w)) = entries.map (entryLine w) := by
  induction entries with
  | nil => rfl
  | cons e entries ih =>
    obtain ⟨key, path, t⟩ := e
    have here := plain _ List.mem_cons_self
    cases key with
    | number q => exact here.elim
    | text key =>
      have body : entryLine w (.text key, path, t) =
          (key ++ ' ' :: (Decimal.fixed 6 t ++ ' ' :: Percent.quote (Disk.cut path))) ++ ['\n'] := by
        simp [entryLine, line, World.key]
      have solid : ∀ c ∈ key ++ ' ' :: (Decimal.fixed 6 t ++ ' ' :: Percent.quote (Disk.cut path)),
          c = ' ' ∨ isSpace c = false := by
        intro c member
        simp only [List.mem_append, List.mem_cons] at member
        rcases member with inside | blank | inside | blank | inside
        · exact Or.inr (here.2 c inside)
        · exact Or.inl blank
        · exact Or.inr (Decimal.fixed_plain 6 t c inside)
        · exact Or.inl blank
        · exact Or.inr (Percent.quote_plain _ c inside).2
      rw [List.flatMap_cons, List.map_cons,
        ← ih fun e member => plain e (List.mem_cons_of_mem _ member), body, List.append_assoc]
      refine lines_ended _ _ (fun member => ?_) fun member => ?_
      · exact absurd (solid _ member) (by decide)
      · exact absurd (solid _ member) (by decide)

end File

/-! ## A message for every entry -/

section Announce
variable {τ : Type} (w : World τ) (o : NoDupe.Options)

def keyValue : Key → Value
  | .text s => .str s
  | .number q => .float q

/-- A message with that key and path. -/
def announce (key : Key) (path : Str) : Message :=
  [("_deleteOnPost", .set []),
    ("nodupe_override", .dict [("key", keyValue key), ("path", .str path)])]

theorem identify_announce (key : Key) (path : Str) (true_ : TrueKey key) :
    ∃ msg, identify w (announce key path) = .ok (keyValue key, .str path, msg) := by
  have truthy : (keyValue key).truthy = true := by
    cases key <;> simpa [keyValue, Value.truthy, TrueKey] using true_
  have derived : deriveKey w (announce key path) = .ok (keyValue key) := by
    change (if (keyValue key).truthy then Except.ok (keyValue key) else _) = _
    rw [if_pos truthy]
  unfold identify
  rw [derived]
  exact ⟨_, rfl⟩

theorem refuse_rejected {m m' : Object τ} {code : Int} {reason message : Str} {fate : Fate}
    (refused : refuse w m code reason message = .ok (m', fate)) : fate = .rejected := by
  obtain ⟨marked, -, refused⟩ := bind_ok_iff.mp refused
  obtain ⟨reported, -, refused⟩ := bind_ok_iff.mp refused
  rw [← (Prod.mk.inj (Except.ok.inj refused)).2]

variable [Inhabited τ]

def announcement (now : ℚ) (key : Key) (path : Str) : Event τ :=
  .after_accept now ⟨[(default, announce key path)], [], []⟩

/-- The message is new exactly where its pair is not remembered. -/
theorem announcement_verdict (d : Disk) (now : ℚ) (key : Key) (path : Str) (true_ : TrueKey key) :
    (run w o (Disk.driver w o) d [announcement now key path]).map
        (fun batch => batch.new_incoming.length) =
      [if Holds (remembered o d) now (key, path) then 0 else 1] := by
  obtain ⟨msg, identified⟩ := identify_announce w key path true_
  have hashed : NoDupe.hash (keyValue key) = .ok key := by cases key <;> rfl
  have checked : (Disk.driver w o).check_message now d (announce key path) =
      .ok ((d.not_in_cache w o now key path).1, msg, (d.not_in_cache w o now key path).2) :=
    bind_ok_iff.mpr ⟨_, identified, bind_ok_iff.mpr ⟨path, rfl, bind_ok_iff.mpr ⟨key, hashed, rfl⟩⟩⟩
  have handled : handle w o (Disk.driver w o) now d ((default : τ), announce key path) =
      ((d.not_in_cache w o now key path).1,
        judge w (default, msg) (d.not_in_cache w o now key path).2) := by
    have inRange : ageCheck w o now ((default : τ), announce key path) = .ok none := rfl
    have fresh : Message.isRetry (announce key path) = false := rfl
    simp only [handle, inRange, fresh, checked]
    rfl
  rw [not_in_cache_verdict] at handled
  simp only [run, announcement, after_accept, acceptLoop, handled, judge]
  by_cases holds : Holds (remembered o d) now (key, path)
  · simp only [holds, decide_true, Bool.not_true, Bool.false_eq_true, if_false, if_true]
    split
    · rfl
    · next m' fate refused =>
      rw [refuse_rejected w (Prod.mk.inj refused).2]
      rfl
  · simp only [holds, decide_false, Bool.not_false, if_true, if_false]
    rfl

end Announce

/-! ## The restart -/

section Restart
variable {τ : Type} (w : World τ) (o : NoDupe.Options)

/-- The driver stopped, and started again. -/
def restart (stop start : ℚ) (d : Disk) : Disk := (d.on_stop w o stop).on_start w o start

/-- The entry is written and read as it is. -/
def Writable (key : Key) (path : Str) : Prop :=
  ∃ s, key = .text s ∧ (∀ c ∈ s, isSpace c = false) ∧ path ≠ [] ∧ '*' ∉ path

theorem cut_eq_self {path : Str} (noStar : '*' ∉ path) : Disk.cut path = path := by
  unfold Disk.cut
  rw [List.takeWhile_eq_self_iff]
  intro c member
  have other : c ≠ '*' := fun same => noStar (same ▸ member)
  simpa using other

theorem cut_noStar (path : Str) : '*' ∉ Disk.cut path := by
  intro member
  have kept := List.mem_takeWhile_imp member
  simp at kept

/-- Where every key that is written is one word, what is read are the entries cut at the
first star, but for the empty ones and the ones that have expired. -/
theorem mem_restart {stop start : ℚ} {d : Disk}
    (plain : ∀ e ∈ writtenEntries o stop d, Plain e.1)
    (survive : ∀ e ∈ writtenEntries o stop d, Survives e.2.2) (e : Entry) :
    e ∈ (lines (d.on_stop w o stop).cache_file).filterMap (readEntry w o start) ↔
      ∃ path, (e.1, path, e.2.2) ∈ writtenEntries o stop d ∧ Disk.cut path = e.2.1 ∧ e.2.1 ≠ [] ∧
        start ≤ e.2.2 + o.nodupe_ttl := by
  rw [on_stop_file, lines_entryLines w plain, List.mem_filterMap]
  have reads {key : Key} {path : Str} {t : ℚ} (member : (key, path, t) ∈ writtenEntries o stop d) :
      readEntry w o start (entryLine w (key, path, t)) =
        if Disk.cut path = [] ∨ o.nodupe_ttl < start - t then none
        else some (key, Disk.cut path, t) := by
    have here := plain (key, path, t) member
    have time := survive (key, path, t) member
    cases key with
    | number q => exact here.elim
    | text key => exact readEntry_entryLine w o here time
  constructor
  · intro ⟨text, written, read⟩
    obtain ⟨⟨key, path, t⟩, member, rfl⟩ := List.mem_map.mp written
    rw [reads member] at read
    split at read
    · cases read
    · next kept =>
      rw [not_or] at kept
      obtain rfl := Option.some.inj read
      exact ⟨path, member, rfl, kept.1, by linarith [not_lt.mp kept.2]⟩
  · intro ⟨path, member, same, some_, alive⟩
    refine ⟨_, List.mem_map_of_mem member, ?_⟩
    have kept : ¬(Disk.cut path = [] ∨ o.nodupe_ttl < start - e.2.2) := by
      rw [not_or, same]
      exact ⟨some_, not_lt.mpr (by linarith)⟩
    rw [reads member, if_neg kept, same]

theorem restart_cache (stop start : ℚ) (d : Disk) :
    (restart w o stop start d).cache_dict =
      Table.empty.setAll
        ((lines (d.on_stop w o stop).cache_file).filterMap (readEntry w o start)) :=
  load_cache w o start (d.on_stop w o stop)

/-- With entries that can all be written, only what has expired is gone. -/
theorem restart_remembered {stop start : ℚ} {d : Disk} (later : stop ≤ start)
    (writable : ∀ e ∈ writtenEntries o stop d, Plain e.1 ∧ e.2.1 ≠ [] ∧ '*' ∉ e.2.1)
    (survive : ∀ e ∈ writtenEntries o stop d, Survives e.2.2) (pair : Key × Str) :
    remembered o (restart w o stop start d) pair =
      (remembered o d pair).filter fun until_ => decide (start ≤ until_) := by
  obtain ⟨key, path⟩ := pair
  have members (t : ℚ) : (key, path, t) ∈
      (lines (d.on_stop w o stop).cache_file).filterMap (readEntry w o start) ↔
        d.cache_dict.getAt key path = some t ∧ start ≤ t + o.nodupe_ttl := by
    rw [mem_restart w o (fun e member => (writable e member).1) survive]
    constructor
    · intro ⟨whole, member, same, some_, alive⟩
      rw [cut_eq_self (writable _ member).2.2] at same
      obtain rfl : whole = path := same
      exact ⟨((mem_writtenEntries o stop d key whole t).mp member).1, alive⟩
    · intro ⟨here, alive⟩
      have member := (mem_writtenEntries o stop d key path t).mpr ⟨here, le_trans later alive⟩
      exact ⟨path, member, cut_eq_self (writable _ member).2.2, (writable _ member).2.1, alive⟩
  have same : (restart w o stop start d).cache_dict.getAt key path =
      (d.cache_dict.getAt key path).filter fun t => decide (start ≤ t + o.nodupe_ttl) := by
    rw [restart_cache]
    apply Option.ext
    intro t
    rw [Option.filter_eq_some_iff, decide_eq_true_iff, ← members]
    constructor
    · intro here
      exact (Table.getAt_setAll here).resolve_right fun none => by cases none
    · intro member
      obtain ⟨u, here⟩ := Option.isSome_iff_exists.mp
        (Table.getAt_setAll_isSome (t := Table.empty) (Or.inr ⟨t, member⟩))
      have other := (Table.getAt_setAll here).resolve_right fun none => by cases none
      rw [here, ← ((members t).mp member).1, ((members u).mp other).1]
  simp only [remembered, same, Option.filter_map]
  rfl

theorem holds_iff (d : Disk) (now : ℚ) (key : Key) (path : Str) :
    Holds (remembered o d) now (key, path) ↔
      ∃ t, d.cache_dict.getAt key path = some t ∧ now ≤ t + o.nodupe_ttl := by
  simp only [Holds, remembered, Option.map_eq_some_iff, exists_exists_and_eq_and]

/-- What is remembered after the restart was read from the file. -/
theorem restart_read {stop start now : ℚ} {d : Disk} {key : Key} {path : Str}
    (holds : Holds (remembered o (restart w o stop start d)) now (key, path)) :
    ∃ t, (key, path, t) ∈
      (lines (d.on_stop w o stop).cache_file).filterMap (readEntry w o start) := by
  obtain ⟨t, here, -⟩ := (holds_iff o _ now key path).mp holds
  rw [restart_cache] at here
  exact ⟨t, (Table.getAt_setAll here).resolve_right fun none => by cases none⟩

/-- What is known of a driver that has run, and is stopped later. -/
structure Ran (d : Disk) (stop : ℚ) (history : List Sighting) : Prop where
  kept : Kept o stop (remembered o d) history
  trueKeys : ∀ key path t, d.cache_dict.getAt key path = some t → TrueKey key
  survive : ∀ key path t, d.cache_dict.getAt key path = some t → Survives t

theorem ran {start : ℚ} {events : List (Event τ)} (ordered : Ordered start events) {stop : ℚ}
    (after : clockAfter start events ≤ stop) (survive : ∀ event ∈ events, Survives event.now) :
    Ran o (final w o (Disk.driver w o) Disk.empty events) stop
      (final w o (law w o) [] events) where
  kept := by
    refine Kept.later ((disk_tied w).final ?_ ordered fun _ _ _ _ _ _ => trivial) after
    exact ⟨recalls_nothing start, fun seen member => absurd member List.not_mem_nil⟩
  trueKeys key path t here := (entries_kept w o survive key path t here).1
  survive key path t here := (entries_kept w o survive key path t here).2

/-- When everything that has not expired can be written, the restarted driver still keeps
the law. -/
theorem restart_kept {d : Disk} {stop start : ℚ} {history : List Sighting} (ran : Ran o d stop history)
    (writable : ∀ key path, Holds (remembered o d) stop (key, path) → Writable key path)
    (after : stop ≤ start) : Kept o start (remembered o (restart w o stop start d)) history := by
  have kept := ran.kept.later after
  refine ⟨kept.recalls.forget (restart_remembered w o after ?_ ?_), kept.past⟩
  · intro ⟨key, path, t⟩ member
    have here := (mem_writtenEntries o stop d key path t).mp member
    obtain ⟨s, rfl, solid, some_, noStar⟩ := writable key path ((holds_iff o d stop key path).mpr ⟨t, here⟩)
    exact ⟨⟨ran.trueKeys _ _ _ here.1, solid⟩, some_, noStar⟩
  · intro ⟨key, path, t⟩ member
    exact ran.survive key path t ((mem_writtenEntries o stop d key path t).mp member).1

/-- An entry that is as it was after the restart can be written. -/
theorem writable_of_restart {d : Disk} {stop : ℚ}
    (survive : ∀ key path t, d.cache_dict.getAt key path = some t → Survives t)
    (same : ∀ key path, Holds (remembered o d) stop (key, path) →
      Holds (remembered o (restart w o stop stop d)) stop (key, path)) (key : Key) (path : Str)
    (holds : Holds (remembered o d) stop (key, path)) : Writable key path := by
  have plain : ∀ e ∈ writtenEntries o stop d, Plain e.1 := by
    intro ⟨key, path, t⟩ member
    have here := (mem_writtenEntries o stop d key path t).mp member
    obtain ⟨u, read⟩ := restart_read w o (same key path ((holds_iff o d stop key path).mpr ⟨t, here⟩))
    obtain ⟨text, -, read⟩ := List.mem_filterMap.mp read
    have plain : Plain ((key, path, u) : Entry).1 := readEntry_plain w o read
    exact plain
  have times : ∀ e ∈ writtenEntries o stop d, Survives e.2.2 := by
    intro ⟨key, path, t⟩ member
    exact survive key path t ((mem_writtenEntries o stop d key path t).mp member).1
  obtain ⟨t, here⟩ := (holds_iff o d stop key path).mp holds
  have plainKey := plain _ ((mem_writtenEntries o stop d key path t).mpr here)
  obtain ⟨u, read⟩ := restart_read w o (same key path holds)
  obtain ⟨whole, -, cut, some_, -⟩ := (mem_restart w o plain times _).mp read
  have same_ : Disk.cut whole = path := cut
  have noStar : '*' ∉ path := same_ ▸ cut_noStar whole
  cases key with
  | text s => exact ⟨s, rfl, plainKey.2, some_, noStar⟩
  | number q => exact plainKey.elim

/-- After any run, stopping and starting the driver again, at once or later, changes no
verdict of any later run, exactly when every entry that has not expired has a text without
white space for its key and a path that is neither empty nor has a star. -/
theorem restart_keeps_verdicts_iff [Inhabited τ] (start : ℚ) (events : List (Event τ))
    (ordered : Ordered start events) (survive : ∀ event ∈ events, Survives event.now) (stop : ℚ)
    (after : clockAfter start events ≤ stop) :
    (∀ start', stop ≤ start' → ∀ later, Ordered start' later →
        run w o (Disk.driver w o)
            (restart w o stop start' (final w o (Disk.driver w o) Disk.empty events)) later =
          run w o (Disk.driver w o) (final w o (Disk.driver w o) Disk.empty events) later) ↔
      ∀ key path,
        Holds (remembered o (final w o (Disk.driver w o) Disk.empty events)) stop (key, path) →
          Writable key path := by
  have ran := ran w o ordered after survive
  generalize final w o (Disk.driver w o) Disk.empty events = d at *
  constructor
  · intro same
    refine writable_of_restart w o ran.survive fun key path holds => ?_
    obtain ⟨t, here, -⟩ := (holds_iff o d stop key path).mp holds
    have true_ := ran.trueKeys key path t here
    have verdicts := same stop le_rfl [announcement stop key path] ⟨le_rfl, trivial⟩
    have counts := congrArg (List.map fun batch => batch.new_incoming.length) verdicts
    rw [announcement_verdict w o _ _ _ _ true_, announcement_verdict w o _ _ _ _ true_,
      if_pos holds] at counts
    by_contra lost
    rw [if_neg lost] at counts
    cases counts
  · intro writable start' le later ordered'
    have tied := disk_tied w (o := o)
    rw [tied.run_eq (ran.kept.later le) ordered' fun _ _ _ _ _ _ => trivial]
    exact tied.run_eq (restart_kept w o ran writable le) ordered' fun _ _ _ _ _ _ => trivial

end Restart

/-! ## Two entries -/

def onceAt (path : String) : List (Event Unit) := [announcement 0 (.text ['k']) path.toList]

def diskAfter (events : List (Event Unit)) : Disk :=
  final plainWorld fiveMinutes (Disk.driver plainWorld fiveMinutes) Disk.empty events

theorem onceAt_survives (path : String) : ∀ event ∈ onceAt path, Survives event.now := by
  have zero : Survives 0 := by
    unfold Survives
    decide +kernel
  intro event member
  rw [List.mem_singleton.mp member]
  exact zero

/-- A path with a star is taken for new again after the restart. -/
theorem restart_loses_starred :
    Ordered 0 (onceAt "a*b") ∧ (∀ event ∈ onceAt "a*b", Survives event.now) ∧
      clockAfter 0 (onceAt "a*b") ≤ 0 ∧
      run plainWorld fiveMinutes (Disk.driver plainWorld fiveMinutes)
          (restart plainWorld fiveMinutes 0 0 (diskAfter (onceAt "a*b"))) (onceAt "a*b") ≠
        run plainWorld fiveMinutes (Disk.driver plainWorld fiveMinutes)
          (diskAfter (onceAt "a*b")) (onceAt "a*b") := by
  refine ⟨⟨le_rfl, trivial⟩, onceAt_survives _, le_rfl, fun same => ?_⟩
  have counts := congrArg (List.map fun batch => batch.new_incoming.length) same
  revert counts
  decide +kernel

theorem restart_keeps_verdicts_percent :
    (∀ start', 0 ≤ start' → ∀ later, Ordered start' later →
        run plainWorld fiveMinutes (Disk.driver plainWorld fiveMinutes)
            (restart plainWorld fiveMinutes 0 start' (diskAfter (onceAt "a b%"))) later =
          run plainWorld fiveMinutes (Disk.driver plainWorld fiveMinutes)
            (diskAfter (onceAt "a b%")) later) ↔
      ∀ key path,
        Holds (remembered fiveMinutes (diskAfter (onceAt "a b%"))) 0 (key, path) →
          Writable key path :=
  restart_keeps_verdicts_iff plainWorld fiveMinutes 0 (onceAt "a b%") ⟨le_rfl, trivial⟩
    (onceAt_survives _) 0 le_rfl

end Sarracenia.Guarantees.NoDupe
