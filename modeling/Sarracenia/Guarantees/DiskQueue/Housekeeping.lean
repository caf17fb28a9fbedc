import Sarracenia.Guarantees.DiskQueue.Merge

/-!
# Disk queue: what housekeeping keeps

Housekeeping is to leave, of everything stored, one unexpired message of each
cache key, in stored order. It does so exactly when the duplicate test never
meets an expired message before an unexpired one of the same key, and when it
has something to write or nothing to replace: where it writes nothing, the old
queue file stays (`on_housekeeping_complete_iff`).
-/
namespace Sarracenia.Guarantees.DiskQueue
open Library Library.Text Library.Dynamic Library.FirstOfKey Source Source.DiskQueue

variable (c : Codec) (o : Options)

/-- What the queue is to hold after housekeeping, given what was stored. -/
structure Complete (now : ℚ) (before after : List Message) : Prop where
  keyed : ∀ message ∈ before, Fresh o now message → ∀ key, keyOf c message = some key →
    ∃ copy ∈ after, keyOf c copy = some key
  keyless : ∀ message ∈ before, Fresh o now message → keyOf c message = none → message ∈ after
  noExpired : ∀ message ∈ after, is_expired o now message ≠ .ok true
  distinct : DistinctKeys (keyOf c) after
  ordered : after.Sublist before

/-- The first stored message of the key of each unexpired one is itself unexpired. -/
def NoExpiredFirst (now : ℚ) (ms : List Message) : Prop :=
  ∀ message ∈ ms, Fresh o now message → ∀ key, keyOf c message = some key →
    ∀ first, firstWith (keyOf c) key ms = some first → Fresh o now first

theorem mem_survivors {now : ℚ} {ms : List Message} {message : Message} :
    message ∈ survivors c o now [] ms ↔
      message ∈ firsts (keyOf c) [] ms ∧ Fresh o now message := by
  simp [survivors]

/-- An unexpired message is covered by the survivors of a list that starts every key
with an unexpired message. -/
theorem survivors_complete_iff (now : ℚ) (ms : List Message) :
    Complete c o now ms (survivors c o now [] ms) ↔ NoExpiredFirst c o now ms := by
  have unique (message : Message) (key : Str) (keyed : keyOf c message = some key) :=
    mem_firsts_iff (keyOf c) ms message key keyed
  constructor
  · intro complete message member fresh key keyed first isFirst
    obtain ⟨copy, kept, same⟩ := complete.keyed message member fresh key keyed
    obtain ⟨among, freshCopy⟩ := (mem_survivors c o).mp kept
    have firstCopy := (unique copy key same).mp among
    rw [isFirst] at firstCopy
    cases firstCopy
    exact freshCopy
  · intro firstFresh
    refine ⟨?_, ?_, ?_, ?_, ?_⟩
    · intro message member fresh key keyed
      obtain ⟨first, isFirst⟩ := firstWith_isSome (keyOf c) member keyed
      have freshFirst := firstFresh message member fresh key keyed first isFirst
      obtain ⟨_, same⟩ := firstWith_mem (keyOf c) isFirst
      exact ⟨first, (mem_survivors c o).mpr ⟨(unique first key same).mpr isFirst, freshFirst⟩, same⟩
    · intro message member fresh keyless
      exact (mem_survivors c o).mpr ⟨keyless_mem_firsts (keyOf c) [] ms message keyless member, fresh⟩
    · intro message kept expired
      have fresh := ((mem_survivors c o).mp kept).2
      unfold Fresh at fresh
      rw [fresh] at expired
      cases expired
    · exact (firsts_distinct (keyOf c) [] ms).filter _
    · exact List.filter_sublist.trans (firsts_sublist (keyOf c) [] ms)

/-- Where no key starts with an expired message before an unexpired one, nothing
survives exactly when nothing is unexpired. -/
theorem survivors_eq_nil_iff (now : ℚ) (ms : List Message) (firstFresh : NoExpiredFirst c o now ms) :
    survivors c o now [] ms = [] ↔ ∀ message ∈ ms, ¬ Fresh o now message := by
  have complete := (survivors_complete_iff c o now ms).mpr firstFresh
  constructor
  · intro none message member fresh
    rw [none] at complete
    cases keyed : keyOf c message with
    | none => exact absurd (complete.keyless message member fresh keyed) List.not_mem_nil
    | some key =>
      obtain ⟨copy, kept, _⟩ := complete.keyed message member fresh key keyed
      exact absurd kept List.not_mem_nil
  · intro stale
    apply List.eq_nil_iff_forall_not_mem.mpr
    intro message kept
    exact stale message (complete.ordered.subset kept) ((mem_survivors c o).mp kept).2

/-- The first of all stored messages meets no duplicate, so only its age can remove it. -/
theorem head_survives {now : ℚ} (head : Message) (rest : List Message) (fresh : Fresh o now head) :
    head ∈ survivors c o now [] (head :: rest) := by
  refine (mem_survivors c o).mpr ⟨?_, fresh⟩
  unfold firsts
  split
  · exact List.mem_cons_self
  · exact List.mem_cons_self

theorem handled_not_fresh {now : ℚ} {message : Message} (handled : Handled c o now message)
    (stale : ¬ Fresh o now message) : is_expired o now message = .ok true := by
  obtain ⟨_, expired, age⟩ := handled
  unfold Fresh at stale
  cases expired with
  | true => exact age
  | false => exact absurd age stale

/-- Housekeeping that reads both files through leaves what it is to leave exactly when
no expired message comes before an unexpired one of its key, and some stored message
is unexpired or no message was in the queue file. -/
theorem on_housekeeping_complete_iff (now : ℚ) (d : Disk) (m : Memory)
    (idle : still_retrying d m = false) (handled : AllHandled c o now d)
    (lossless : ∀ message ∈ stored c d, Lossless c message) :
    Complete c o now (stored c d)
        (messages c ((on_housekeeping c o Failure.none now d m).disk d).queue_file) ↔
      NoExpiredFirst c o now (stored c d) ∧
        (messages c d.queue_file = [] ∨ ∃ message ∈ stored c d, Fresh o now message) := by
  have files := on_housekeeping_files c o Failure.none now d m idle
  rw [mergeFiles_handled c o handled rfl] at files
  obtain ⟨_, unchanged, replaced⟩ := files
  have all := handled.mem_stored
  by_cases nothing : survivors c o now [] (stored c d) = []
  · rw [unchanged nothing]
    constructor
    · intro complete
      have empty : messages c d.queue_file = [] := by
        cases queue : messages c d.queue_file with
        | nil => rfl
        | cons head rest =>
          exfalso
          rw [queue] at complete
          have whole : stored c d = head :: (rest ++ messages c d.new_path) := by
            rw [stored, queue, List.cons_append]
          have stale : ¬ Fresh o now head := by
            intro fresh
            have kept := head_survives c o head (rest ++ messages c d.new_path) fresh
            rw [← whole, nothing] at kept
            exact List.not_mem_nil kept
          have member : head ∈ stored c d := by rw [whole]; exact List.mem_cons_self
          exact complete.noExpired head List.mem_cons_self
            (handled_not_fresh c o (all head member) stale)
      refine ⟨?_, Or.inl empty⟩
      intro message member fresh key keyed
      rw [empty] at complete
      obtain ⟨copy, kept, _⟩ := complete.keyed message member fresh key keyed
      exact absurd kept List.not_mem_nil
    · rintro ⟨firstFresh, some⟩
      have stale := (survivors_eq_nil_iff c o now _ firstFresh).mp nothing
      have empty : messages c d.queue_file = [] := some.resolve_right fun ⟨message, member, fresh⟩ =>
        stale message member fresh
      rw [empty, ← nothing]
      exact (survivors_complete_iff c o now _).mpr firstFresh
  · obtain ⟨mtime, queue⟩ := replaced nothing
    have kept := fun message member => lossless message
      ((survivors_sublist c o now [] (stored c d)).subset member)
    rw [queue, messages_text c mtime _ kept, survivors_complete_iff]
    constructor
    · intro firstFresh
      refine ⟨firstFresh, Or.inr ?_⟩
      obtain ⟨message, member⟩ := List.exists_mem_of_ne_nil _ nothing
      obtain ⟨among, fresh⟩ := (mem_survivors c o).mp member
      exact ⟨message, (firsts_sublist (keyOf c) [] _).subset among, fresh⟩
    · exact And.left

/-- A notice of one file, with the time it was published. -/
def noticeAt (pubTime : String) : Message :=
  [("baseUrl", .str "http://host".toList), ("relPath", .str "a/b".toList),
    ("identity", .dict [("method", .str "md5".toList), ("value", .str "x".toList)]),
    ("pubTime", .str pubTime.toList)]

/-- Published one minute, and five seconds, before the clock of the example. -/
def staleNotice : Message := noticeAt "20200101T000000"

def freshNotice : Message := noticeAt "20200101T000055"

def noticeCodec : Codec := plainCodec [staleNotice, freshNotice]

def tenSeconds : Options := ⟨some 10⟩

def oneMinuteLater : ℚ := 1577836860

/-- Nothing in the queue, and the two notices added, the expired one first. -/
def staleFirst : Disk :=
  ⟨none, some ⟨text noticeCodec [staleNotice, freshNotice], 0⟩, none, 1⟩

theorem notice_lossless : ∀ message ∈ [staleNotice, freshNotice], Lossless noticeCodec message := by
  intro message member
  have distinct : DistinctKeys (fun message => some (messageText message))
      [staleNotice, freshNotice] := by
    unfold DistinctKeys
    decide +kernel
  refine plainCodec_lossless _ message member distinct ?_ ?_ <;>
    (revert message; decide +kernel)

theorem notice_handled : ∀ message ∈ [staleNotice, freshNotice],
    Handled noticeCodec tenSeconds oneMinuteLater message := by
  intro message member
  have key : (cache_key noticeCodec message).toOption.isSome = true ∧
      (is_expired tenSeconds oneMinuteLater message).toOption.isSome = true := by
    revert message
    decide +kernel
  obtain ⟨key, age⟩ := key
  constructor
  · cases computed : cache_key noticeCodec message with
    | error e => rw [computed] at key; cases key
    | ok k => exact ⟨k, rfl⟩
  · cases computed : is_expired tenSeconds oneMinuteLater message with
    | error e => rw [computed] at age; cases age
    | ok expired => exact ⟨expired, rfl⟩

theorem staleFirst_stored : stored noticeCodec staleFirst = [staleNotice, freshNotice] := by
  unfold stored staleFirst
  rw [messages_text noticeCodec 0 _ notice_lossless]
  rfl

theorem staleFirst_handled : AllHandled noticeCodec tenSeconds oneMinuteLater staleFirst := by
  intro item member
  have items : readFile noticeCodec staleFirst.queue_file ++
      readFile noticeCodec staleFirst.new_path = [staleNotice, freshNotice].map .ok := by
    simp only [staleFirst, readFile, Option.elim, List.nil_append,
      openRead_text noticeCodec 0 _ notice_lossless]
  rw [items, List.mem_map] at member
  obtain ⟨message, belongs, same⟩ := member
  exact ⟨message, same.symm, notice_handled message belongs⟩

theorem staleFirst_complete_iff :
    Complete noticeCodec tenSeconds oneMinuteLater (stored noticeCodec staleFirst)
        (messages noticeCodec ((on_housekeeping noticeCodec tenSeconds Failure.none oneMinuteLater
          staleFirst ⟨none, 0, 2, 0⟩).disk staleFirst).queue_file) ↔
      NoExpiredFirst noticeCodec tenSeconds oneMinuteLater (stored noticeCodec staleFirst) ∧
        (messages noticeCodec staleFirst.queue_file = [] ∨
          ∃ message ∈ stored noticeCodec staleFirst, Fresh tenSeconds oneMinuteLater message) :=
  on_housekeeping_complete_iff noticeCodec tenSeconds oneMinuteLater staleFirst ⟨none, 0, 2, 0⟩ rfl
    staleFirst_handled (by rw [staleFirst_stored]; exact notice_lossless)

/-- The expired notice takes the key, and the unexpired one is discarded as its duplicate. -/
theorem staleFirst_not_complete :
    ¬ Complete noticeCodec tenSeconds oneMinuteLater (stored noticeCodec staleFirst)
        (messages noticeCodec ((on_housekeeping noticeCodec tenSeconds Failure.none oneMinuteLater
          staleFirst ⟨none, 0, 2, 0⟩).disk staleFirst).queue_file) := by
  intro complete
  have lost : (messages noticeCodec ((on_housekeeping noticeCodec tenSeconds Failure.none
      oneMinuteLater staleFirst ⟨none, 0, 2, 0⟩).disk staleFirst).queue_file).isEmpty = true := by
    decide +kernel
  rw [List.isEmpty_iff] at lost
  rw [staleFirst_stored, lost] at complete
  have fresh : Fresh tenSeconds oneMinuteLater freshNotice := by decide +kernel
  have keyed : (keyOf noticeCodec freshNotice).isSome = true := by decide +kernel
  obtain ⟨key, same⟩ := Option.isSome_iff_exists.mp keyed
  obtain ⟨copy, kept, _⟩ := complete.keyed freshNotice (by simp) fresh key same
  exact absurd kept List.not_mem_nil

end Sarracenia.Guarantees.DiskQueue
