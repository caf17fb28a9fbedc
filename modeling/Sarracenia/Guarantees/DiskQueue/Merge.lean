import Sarracenia.Library.FirstOfKey
import Sarracenia.Source.DiskQueue
import Mathlib.Data.List.TakeWhile

/-!
# Disk queue: what the merge of housekeeping writes

On messages whose key and age can be computed, the two loops write the first
message of each key that is not expired, and nothing else (`merge_handled`).
The duplicate test comes first, so a first message that is expired takes its
key with it. A message whose key or age cannot be computed stops the merge where
it stands (`merge_stops`).
-/
namespace Sarracenia.Guarantees.DiskQueue
open Library Library.Text Library.Dynamic Library.FirstOfKey Source Source.DiskQueue

variable (c : Codec) (o : Options)

/-- The cache key of a message, where it has one. -/
def keyOf (message : Message) : Option Str := (cache_key c message).toOption.join

def Fresh (now : ℚ) (message : Message) : Prop := is_expired o now message = .ok false

instance (now : ℚ) (message : Message) : Decidable (Fresh o now message) := by
  unfold Fresh
  cases is_expired o now message with
  | error e => exact isFalse nofun
  | ok expired =>
    cases expired with
    | true => exact isFalse nofun
    | false => exact isTrue rfl

/-- The key and the age of the message can be computed. -/
def Handled (now : ℚ) (message : Message) : Prop :=
  (∃ key, cache_key c message = .ok key) ∧ ∃ expired, is_expired o now message = .ok expired

/-- A message that `jsonpickle` writes as one line and reads back from it. -/
structure Lossless (message : Message) : Prop where
  feed : '\n' ∉ c.encode message
  ret : '\r' ∉ c.encode message
  read : c.decode (msgToJSON c message) = .ok (some message)

/-- The messages that a file holds, in order. -/
def messages (file : Option File) : List Message := (readFile c file).filterMap Except.toOption

/-- The messages stored on the disk: the queue file first, then `.new`. -/
def stored (d : Disk) : List Message := messages c d.queue_file ++ messages c d.new_path

/-- What the merge is to write of the given messages. -/
def survivors (now : ℚ) (seen : List Str) (ms : List Message) : List Message :=
  (firsts (keyOf c) seen ms).filter fun message => Fresh o now message

theorem survivors_sublist (now : ℚ) (seen : List Str) (ms : List Message) :
    (survivors c o now seen ms).Sublist ms :=
  List.filter_sublist.trans (firsts_sublist (keyOf c) seen ms)

def text (ms : List Message) : Str := ms.flatMap (msgToJSON c)

theorem handled_nonempty {now : ℚ} {message : Message} (handled : Handled c o now message) :
    message.isEmpty = false := by
  obtain ⟨⟨key, computed⟩, _⟩ := handled
  cases message with
  | nil => cases computed
  | cons field rest => rfl

/-- A message that passes is written when it is fresh and its key has not been seen. -/
theorem needs_requeuing_ok {now : ℚ} {seen : List Str} {message : Message} {result : Bool × List Str}
    (ok : needs_requeuing c o now seen message = .ok result) :
    result = match keyOf c message with
      | none => (decide (Fresh o now message), seen)
      | some key => if key ∈ seen then (false, seen) else (decide (Fresh o now message), key :: seen) := by
  have fresh {expired : Bool} (age : is_expired o now message = .ok expired) :
      decide (Fresh o now message) = !expired := by
    simp only [Fresh, age]
    cases expired <;> simp
  unfold needs_requeuing at ok
  obtain ⟨⟨cached, rest⟩, looked, ok⟩ := bind_ok_iff.mp ok
  unfold in_cache at looked
  obtain ⟨key, computed, looked⟩ := bind_ok_iff.mp looked
  have keyed : keyOf c message = key := by simp [keyOf, computed, Except.toOption]
  rw [keyed]
  cases key with
  | none =>
    cases looked
    obtain ⟨expired, age, ok⟩ := bind_ok_iff.mp ok
    rw [fresh age]
    cases expired <;> cases ok <;> rfl
  | some key =>
    dsimp only at looked ⊢
    by_cases old : key ∈ seen
    · rw [if_pos old] at looked
      cases looked
      cases ok
      rw [if_pos old]
    · rw [if_neg old] at looked
      cases looked
      obtain ⟨expired, age, ok⟩ := bind_ok_iff.mp ok
      rw [if_neg old, fresh age]
      cases expired <;> cases ok <;> rfl

theorem needs_requeuing_handled {now : ℚ} {message : Message} (seen : List Str)
    (handled : Handled c o now message) :
    ∃ result, needs_requeuing c o now seen message = .ok result := by
  obtain ⟨⟨key, computed⟩, expired, age⟩ := handled
  unfold needs_requeuing in_cache
  rw [computed, age]
  cases key with
  | none => cases expired <;> exact ⟨_, rfl⟩
  | some key => by_cases old : key ∈ seen <;> cases expired <;>
      exact ⟨_, by simp [old, bind, Except.bind, pure, Except.pure]; rfl⟩

/-- The loop over messages that pass adds their survivors. -/
theorem merge_ok {now : ℚ} {io : Failure} {ms : List Message} {done after : Merge}
    (nonempty : ∀ message ∈ ms, message.isEmpty = false)
    (run : merge c o now io (ms.map .ok) done = .ok after) :
    after.written = done.written ++ survivors c o now done.retry_cache ms ∧
      after.text = done.text ++ text c (survivors c o now done.retry_cache ms) := by
  induction ms generalizing done with
  | nil =>
    cases run
    simp [survivors, firsts, text]
  | cons message ms ih =>
    have tail := fun x member => nonempty x (List.mem_cons_of_mem message member)
    rw [List.map_cons, merge, nonempty message List.mem_cons_self] at run
    cases passes : needs_requeuing c o now done.retry_cache message with
    | error e => rw [passes] at run; cases run
    | ok result =>
      have shape := needs_requeuing_ok c o passes
      obtain ⟨requeue, seen⟩ := result
      -- one step: the cache that is left, and whether the message is written
      have one : survivors c o now done.retry_cache (message :: ms) =
          (if requeue then [message] else []) ++ survivors c o now seen ms := by
        cases keyed : keyOf c message with
        | none =>
          rw [keyed] at shape
          cases shape
          by_cases fresh : Fresh o now message <;> simp [survivors, firsts, keyed, fresh]
        | some key =>
          rw [keyed] at shape
          by_cases old : key ∈ done.retry_cache
          · simp only [old, if_true] at shape
            cases shape
            simp [survivors, firsts, keyed, old]
          · simp only [old, if_false] at shape
            cases shape
            by_cases fresh : Fresh o now message <;> simp [survivors, firsts, keyed, old, fresh]
      rw [one]
      cases requeue with
      | false =>
        rw [passes] at run
        exact ih tail run
      | true =>
        simp only [passes, Bool.false_eq_true, if_false] at run
        split at run
        · cases run
        · obtain ⟨writes, texts⟩ := ih tail run
          rw [writes, texts]
          simp [text]

theorem merge_handled (now : ℚ) (io : Failure) (ms : List Message) (done : Merge)
    (handled : ∀ message ∈ ms, Handled c o now message) (unfailing : io.failing = none) :
    ∃ after, merge c o now io (ms.map .ok) done = .ok after := by
  induction ms generalizing done with
  | nil => exact ⟨done, rfl⟩
  | cons message ms ih =>
    have head := handled message List.mem_cons_self
    have tail := fun x member => handled x (List.mem_cons_of_mem message member)
    obtain ⟨⟨requeue, seen⟩, passes⟩ := needs_requeuing_handled c o done.retry_cache head
    rw [List.map_cons, merge, handled_nonempty c o head, passes, unfailing]
    cases requeue with
    | false => exact ih _ tail
    | true => exact ih _ tail

/-! ## The files that are left -/

theorem msgFromJSON_line {message : Message} (lossless : Lossless c message) :
    msgFromJSON c (c.encode message ++ ['\n']) = .ok (some message) := by
  have decoded := lossless.read
  unfold msgToJSON at decoded
  unfold msgFromJSON
  rw [decoded]

theorem text_cons (message : Message) (ms : List Message) :
    text c (message :: ms) = c.encode message ++ '\n' :: text c ms := by
  simp [text, msgToJSON]

/-- What was written reads back, message by message. -/
theorem openRead_text (mtime : Nat) (ms : List Message) (lossless : ∀ m ∈ ms, Lossless c m) :
    openRead c ⟨text c ms, mtime⟩ = ms.map .ok := by
  unfold openRead
  induction ms with
  | nil => rfl
  | cons message ms ih =>
    have head := lossless message List.mem_cons_self
    have tail := ih fun m member => lossless m (List.mem_cons_of_mem message member)
    have read := msgFromJSON_line c head
    simp only at tail
    simp only [text_cons, lines_ended _ _ head.feed head.ret, List.filterMap_cons, read, tail,
      List.map_cons]

theorem messages_text (mtime : Nat) (ms : List Message) (lossless : ∀ m ∈ ms, Lossless c m) :
    messages c (some ⟨text c ms, mtime⟩) = ms := by
  unfold messages readFile
  rw [Option.elim, openRead_text c mtime ms lossless]
  induction ms with
  | nil => rfl
  | cons message ms ih =>
    exact congrArg (message :: ·) (ih fun m member => lossless m (List.mem_cons_of_mem message member))

/-- A message whose line, cut short anywhere, no longer decodes, unless only its end
is missing. -/
structure Tearable (message : Message) : Prop extends Lossless c message where
  brace : '{' ∈ c.encode message
  unended : c.decode (c.encode message) = .ok (some message)
  torn : ∀ n, 0 < n → n < (c.encode message).length →
    c.decode ((c.encode message).take n) = .error .valueError

/-- The messages whose whole encoding lies in the first `n` characters of the text. -/
def reached : Nat → List Message → List Message
  | _, [] => []
  | n, message :: ms =>
    if (c.encode message).length < n then
      message :: reached (n - ((c.encode message).length + 1)) ms
    else if (c.encode message).length = n then [message]
    else []

theorem reached_initial (n : Nat) (ms : List Message) : reached c n ms <+: ms := by
  induction ms generalizing n with
  | nil => exact List.prefix_refl _
  | cons message ms ih =>
    unfold reached
    split
    · exact (List.prefix_cons_inj message).mpr (ih _)
    · split
      · exact ⟨ms, rfl⟩
      · exact List.nil_prefix

/-- A text cut short holds the messages that were reached, and counts them. -/
theorem cut_reached (n mtime : Nat) (ms : List Message) (tearable : ∀ m ∈ ms, Tearable c m) :
    openRead c ⟨(text c ms).take n, mtime⟩ = (reached c n ms).map .ok ∧
      ((reached c n ms).length : Int) ≤ _count_msgs ⟨(text c ms).take n, mtime⟩ := by
  induction ms generalizing n with
  | nil => simp [text, reached, openRead, lines, _count_msgs]
  | cons message ms ih =>
    have head := tearable message List.mem_cons_self
    have tail := ih (n - ((c.encode message).length + 1))
      fun m member => tearable m (List.mem_cons_of_mem message member)
    unfold openRead _count_msgs at tail ⊢
    unfold reached
    rw [text_cons]
    dsimp only at tail ⊢
    split
    · next inside =>
      have cut : (c.encode message ++ '\n' :: text c ms).take n =
          c.encode message ++ '\n' :: (text c ms).take (n - ((c.encode message).length + 1)) := by
        have more : n - (c.encode message).length = n - ((c.encode message).length + 1) + 1 := by
          omega
        rw [List.take_append, List.take_of_length_le (Nat.le_of_lt inside), more,
          List.take_succ_cons]
      have read := msgFromJSON_line c head.toLossless
      have counted : '{' ∈ c.encode message ++ ['\n'] := List.mem_append_left _ head.brace
      rw [cut, lines_ended _ _ head.feed head.ret, List.filterMap_cons, read, tail.1,
        List.filter_cons_of_pos (by simpa using counted)]
      refine ⟨rfl, ?_⟩
      rw [List.length_cons, List.length_cons]
      have rest := tail.2
      push_cast
      omega
    · next outside =>
      have cut : (c.encode message ++ '\n' :: text c ms).take n = (c.encode message).take n :=
        List.take_append_of_le_length (Nat.le_of_not_lt outside)
      rw [cut]
      cases n with
      | zero =>
        have some : c.encode message ≠ [] := List.ne_nil_of_mem head.brace
        simp [lines, some]
      | succ n =>
        have feed : '\n' ∉ (c.encode message).take (n + 1) := fun member =>
          head.feed (List.mem_of_mem_take member)
        have ret : '\r' ∉ (c.encode message).take (n + 1) := fun member =>
          head.ret (List.mem_of_mem_take member)
        have some : (c.encode message).take (n + 1) ≠ [] := by
          have := List.length_pos_of_mem head.brace
          intro none
          have width := congrArg List.length none
          rw [List.length_take, List.length_nil] at width
          omega
        rw [lines_of_no_end _ some feed ret]
        split
        · next whole =>
          rw [← whole, List.take_length]
          simp [msgFromJSON, head.unended, head.brace]
        · next short =>
          simp [msgFromJSON, head.torn (n + 1) (by omega) (by omega)]

theorem openRead_take (n mtime : Nat) (ms : List Message) (tearable : ∀ m ∈ ms, Tearable c m) :
    openRead c ⟨(text c ms).take n, mtime⟩ = (reached c n ms).map .ok :=
  (cut_reached c n mtime ms tearable).1

theorem messages_cut (n mtime : Nat) (ms : List Message) (tearable : ∀ m ∈ ms, Tearable c m) :
    messages c (some ⟨(text c ms).take n, mtime⟩) = reached c n ms := by
  unfold messages readFile
  rw [Option.elim, openRead_take c n mtime ms tearable]
  simp [List.filterMap_map, Function.comp_def, Except.toOption]

theorem growing_last (final : Str) (d : Disk) :
    (growing final d).getLast? = some { d with
      housekeeping_path := some ⟨final, d.writes + final.length⟩
      writes := d.writes + final.length + 1 } := by
  unfold growing
  rw [List.range_succ, List.map_append, List.map_singleton, List.getLast?_append,
    List.getLast?_singleton, List.take_length]
  rfl

/-- The files after a housekeeping that is not turned away: where nothing was written
the queue file stays, else what reached `.hk` takes its place; `.new` is removed. -/
theorem on_housekeeping_files (io : Failure) (now : ℚ) (d : Disk) (m : Memory)
    (idle : still_retrying d m = false) :
    let after := (on_housekeeping c o io now d m).disk d
    let result := written io (mergeFiles c o now io d)
    after.new_path = none ∧ (result.1 = [] → after.queue_file = d.queue_file) ∧
      (result.1 ≠ [] → ∃ mtime, after.queue_file = some ⟨result.2, mtime⟩) := by
  unfold on_housekeeping Outcome.disk
  rw [idle]
  generalize written io (mergeFiles c o now io d) = result
  obtain ⟨kept, final⟩ := result
  simp only [Bool.false_eq_true, if_false, growing_last, Option.getD_some, List.getLast?_cons,
    List.getLast?_append, List.length_eq_zero_iff, List.getLast?_nil, Option.getD_none,
    Option.some_or, List.cons_append]
  refine ⟨rfl, ?_, ?_⟩
  · intro none
    rw [if_pos none]
    rfl
  · intro some
    rw [if_neg some]
    exact ⟨_, rfl⟩

/-! ## Both files -/

/-- A loop that no empty message ends goes on where the next one starts. -/
theorem merge_bind (now : ℚ) (io : Failure) (fp rest : Reader) (done : Merge)
    (nonempty : ∀ message, .ok message ∈ fp → message.isEmpty = false) :
    merge c o now io (fp ++ rest) done =
      (merge c o now io fp done >>= fun done => merge c o now io rest done) := by
  induction fp generalizing done with
  | nil => rfl
  | cons item fp ih =>
    have tail := fun message member => nonempty message (List.mem_cons_of_mem item member)
    cases item with
    | error e => rfl
    | ok message =>
      rw [List.cons_append, merge, merge, nonempty message List.mem_cons_self]
      cases needs_requeuing c o now done.retry_cache message with
      | error e => rfl
      | ok result =>
        obtain ⟨requeue, seen⟩ := result
        cases requeue with
        | false => exact ih _ tail
        | true =>
          simp only [Bool.false_eq_true, if_false]
          split
          · rfl
          · exact ih _ tail

/-- A reader all of whose items are messages is the list of these messages. -/
theorem reader_eq_map (fp : Reader) (ok : ∀ item ∈ fp, ∃ message, item = .ok message) :
    fp = (fp.filterMap Except.toOption).map .ok := by
  induction fp with
  | nil => rfl
  | cons item fp ih =>
    obtain ⟨message, rfl⟩ := ok item List.mem_cons_self
    have tail := ih fun x member => ok x (List.mem_cons_of_mem _ member)
    exact congrArg (Except.ok message :: ·) tail

/-- Every line of the two files that has something to report holds a message whose
key and age can be computed. -/
def AllHandled (now : ℚ) (d : Disk) : Prop :=
  ∀ item ∈ readFile c d.queue_file ++ readFile c d.new_path,
    ∃ message, item = .ok message ∧ Handled c o now message

theorem AllHandled.mem_stored {now : ℚ} {d : Disk} (all : AllHandled c o now d) :
    ∀ message ∈ stored c d, Handled c o now message := by
  intro message member
  unfold stored messages at member
  rw [← List.filterMap_append, List.mem_filterMap] at member
  obtain ⟨item, belongs, ok⟩ := member
  obtain ⟨other, rfl, handled⟩ := all item belongs
  cases ok
  exact handled

/-- What a loop goes through: an empty message ends it as the end of the file does. -/
def through (fp : Reader) : Reader :=
  fp.takeWhile fun item => match item with
    | .ok message => !message.isEmpty
    | .error _ => true

def visited (d : Disk) : Reader :=
  through (readFile c d.queue_file) ++ through (readFile c d.new_path)

theorem through_nonempty {fp : Reader} {message : Message} (member : .ok message ∈ through fp) :
    message.isEmpty = false := by
  simpa using List.mem_takeWhile_imp member

theorem merge_through (now : ℚ) (io : Failure) (fp : Reader) (done : Merge) :
    merge c o now io fp done = merge c o now io (through fp) done := by
  induction fp generalizing done with
  | nil => rfl
  | cons item fp ih =>
    cases item with
    | error e => rfl
    | ok message =>
      cases empty : message.isEmpty with
      | true =>
        have none : through (.ok message :: fp) = [] := by simp [through, empty]
        rw [none]
        simp [merge, empty]
      | false =>
        have more : through (.ok message :: fp) = .ok message :: through fp := by
          simp [through, empty]
        rw [more, merge, merge, empty]
        cases needs_requeuing c o now done.retry_cache message with
        | error e => rfl
        | ok result =>
          obtain ⟨requeue, seen⟩ := result
          cases requeue with
          | false => exact ih _
          | true =>
            simp only [Bool.false_eq_true, if_false]
            split
            · rfl
            · exact ih _

/-- The loops over the two files are one loop over what they go through. -/
theorem mergeFiles_eq (now : ℚ) (io : Failure) (d : Disk) :
    mergeFiles c o now io d = (merge c o now io (visited c d) ⟨[], [], []⟩ >>= fun done =>
      if io.failing = some done.written.length then .error done else .ok done) := by
  unfold visited mergeFiles
  rw [merge_bind c o now io _ _ _ fun _ => through_nonempty, ← merge_through]
  cases merge c o now io (readFile c d.queue_file) ⟨[], [], []⟩ with
  | error done => rfl
  | ok done =>
    change _ = (merge c o now io (through (readFile c d.new_path)) done >>= fun done => _)
    rw [← merge_through]
    rfl

theorem visited_handled {now : ℚ} {d : Disk} (all : AllHandled c o now d) :
    visited c d = (stored c d).map .ok := by
  have whole (fp : Reader) (ok : ∀ item ∈ fp, ∃ message, item = .ok message ∧
      Handled c o now message) : through fp = (fp.filterMap Except.toOption).map .ok := by
    rw [← reader_eq_map fp fun item member => (ok item member).imp fun _ h => h.1]
    apply List.takeWhile_eq_self_iff.mpr
    intro item member
    obtain ⟨message, rfl, handled⟩ := ok item member
    simp [handled_nonempty c o handled]
  unfold visited stored messages
  rw [whole _ fun item member => all item (List.mem_append_left _ member),
    whole _ fun item member => all item (List.mem_append_right _ member), List.map_append]

theorem mergeFiles_handled {now : ℚ} {io : Failure} {d : Disk} (all : AllHandled c o now d)
    (unfailing : io.failing = none) :
    written io (mergeFiles c o now io d) =
      (survivors c o now [] (stored c d), text c (survivors c o now [] (stored c d))) := by
  obtain ⟨after, run⟩ := merge_handled c o now io (stored c d) ⟨[], [], []⟩
    (all.mem_stored c o) unfailing
  obtain ⟨writes, texts⟩ := merge_ok c o
    (fun message member => handled_nonempty c o (all.mem_stored c o message member)) run
  rw [mergeFiles_eq, visited_handled c o all, run]
  have close : ¬ io.failing = some after.written.length := by
    rw [unfailing]
    exact nofun
  simp only [bind, Except.bind, if_neg close, written]
  rw [writes, texts]
  rfl

/-- No other of the messages has the same key. -/
def Alone (ms : List Message) (message : Message) : Prop :=
  ∀ key, keyOf c message = some key →
    (ms.filter fun other => keyOf c other = some key).Sublist [message]

theorem alone_sublist {ms fewer : List Message} {message : Message} (alone : Alone c ms message)
    (less : fewer.Sublist ms) : Alone c fewer message :=
  fun key keyed => (less.filter _).trans (alone key keyed)

theorem alone_survives {now : ℚ} {ms : List Message} {message : Message} (member : message ∈ ms)
    (fresh : Fresh o now message) (alone : Alone c ms message) :
    message ∈ survivors c o now [] ms := by
  refine List.mem_filter.mpr ⟨?_, by simpa using fresh⟩
  cases keyed : keyOf c message with
  | none => exact keyless_mem_firsts (keyOf c) [] ms message keyed member
  | some key =>
    apply (mem_firsts_iff (keyOf c) ms message key keyed).mpr
    have among : message ∈ ms.filter fun other => keyOf c other = some key :=
      List.mem_filter.mpr ⟨member, by simpa using keyed⟩
    have single := (alone key keyed).eq_of_length_le (List.length_pos_of_mem among)
    unfold firstWith
    rw [← List.head?_filter, single]
    rfl

/-! ## A codec for messages of plain text -/

def quoted (s : Str) : Str := '"' :: s ++ ['"']

def fields (texts : List (String × Str)) : Str :=
  List.intercalate ", ".toList (texts.map fun field => quoted field.1.toList ++ ": ".toList ++ field.2)

def plainText : Value → Str
  | .str s => quoted s
  | .dict entries => '{' :: fields (entries.map fun entry => (entry.1, match entry.2 with
      | .str s => quoted s
      | _ => "null".toList)) ++ ['}']
  | _ => "null".toList

def messageText (message : Message) : Str :=
  '{' :: fields (("py/object", quoted "sarracenia.Message".toList) ::
    message.map fun field => (field.1, plainText field.2)) ++ ['}']

/-- Writes text fields as JSON does and reads back the messages it knows. -/
def plainCodec (known : List Message) : Codec where
  encode := messageText
  encodeValue := plainText
  decode line :=
    match firstWith (fun message => some (messageText message)) (rstripBy (· == '\n') line) known with
    | some message => .ok (some message)
    | none => .error .valueError

theorem plainCodec_lossless (known : List Message) (message : Message) (member : message ∈ known)
    (distinct : DistinctKeys (fun message => some (messageText message)) known)
    (feed : '\n' ∉ messageText message) (ret : '\r' ∉ messageText message) :
    Lossless (plainCodec known) message := by
  have first := firstWith_of_distinct _ distinct member rfl
  have strip : rstripBy (· == '\n') (messageText message ++ ['\n']) = messageText message := by
    apply rstripBy_concat
    · intro ch belongs
      rw [beq_eq_false_iff_ne]
      intro same
      rw [same] at belongs
      exact feed belongs
    · rfl
  refine ⟨feed, ret, ?_⟩
  unfold msgToJSON plainCodec
  simp only [strip, first]

theorem plainCodec_tearable (known : List Message) (message : Message) (member : message ∈ known)
    (distinct : DistinctKeys (fun message => some (messageText message)) known)
    (feed : '\n' ∉ messageText message) (ret : '\r' ∉ messageText message)
    (apart : ∀ other ∈ known, messageText other <+: messageText message →
      messageText other = messageText message) :
    Tearable (plainCodec known) message := by
  have clean (n : Nat) : rstripBy (· == '\n') ((messageText message).take n) =
      (messageText message).take n := by
    apply rstripBy_of_none
    intro ch belongs
    rw [beq_eq_false_iff_ne]
    intro same
    rw [same] at belongs
    exact feed (List.mem_of_mem_take belongs)
  refine ⟨plainCodec_lossless known message member distinct feed ret, List.mem_cons_self, ?_, ?_⟩
  · have whole := clean (messageText message).length
    rw [List.take_length] at whole
    have first := firstWith_of_distinct _ distinct member rfl
    simp only [plainCodec, whole, first]
  · intro n _ inside
    have none : firstWith (fun message => some (messageText message))
        ((messageText message).take n) known = none := by
      apply List.find?_eq_none.mpr
      intro other belongs
      have short : messageText other ≠ (messageText message).take n := by
        intro same
        have whole := apart other belongs (same ▸ List.take_prefix n _)
        rw [whole] at same
        have length := congrArg List.length same
        have cut : ((messageText message).take n).length = n :=
          List.length_take_of_le (Nat.le_of_lt inside)
        exact Nat.ne_of_gt inside (length.trans cut)
      simpa using short
    simp only [plainCodec, clean n, none]

end Sarracenia.Guarantees.DiskQueue

/-!
## Disk queue: what `get` takes

On messages whose age and acknowledgement can be handled, the loop of `get` takes
messages from the front, drops the expired ones and returns the others without
their acknowledgement. It ends with the file, or with as many as were asked for.
-/
namespace Sarracenia.Guarantees.DiskQueue
open Library Library.Text Library.Dynamic Library.FirstOfKey Source Source.DiskQueue

variable (c : Codec) (o : Options)

/-- The key, the age at any time and the acknowledgement can be handled. -/
structure Handleable (message : Message) : Prop where
  handled : ∀ now, Handled c o now message
  acknowledged : ∃ kept, forget_ack_id message = .ok kept

/-- The message as `get` returns it. -/
def released (message : Message) : Message := (forget_ack_id message).toOption.getD message

def releasedFresh (now : ℚ) (ms : List Message) : List Message :=
  (ms.filter fun message => Fresh o now message).map released

/-- How the loop of `get` can end on handleable messages. -/
inductive Takes (now : ℚ) (maximum : Int) (ms : List Message) (queue_fp : Option Reader)
    (ml : List Message) (msg_count : Int) : Got → Prop where
  | finished : Takes now maximum ms queue_fp ml msg_count (.finished (ml ++ releasedFresh o now ms))
  | enough (taken rest : List Message) (split : ms = taken ++ rest)
      (full : maximum ≤ (ml ++ releasedFresh o now taken).length) :
      Takes now maximum ms queue_fp ml msg_count (.enough
        (if taken = [] then queue_fp else some (rest.map .ok))
        (ml ++ releasedFresh o now taken) (msg_count - taken.length))

theorem releasedFresh_cons (now : ℚ) (message : Message) (ms : List Message) :
    releasedFresh o now (message :: ms) = releasedFresh o now [message] ++ releasedFresh o now ms := by
  unfold releasedFresh
  rw [← List.map_append, ← List.filter_append, List.singleton_append]

/-- Where an open file stands after some of its messages. -/
theorem reader_after {ms taken rest : List Message} (split : ms = taken ++ rest) :
    (if taken = [] then some (ms.map Except.ok) else some (rest.map Except.ok)) =
      some (rest.map (Except.ok (ε := Fault))) := by
  by_cases none : taken = []
  · rw [if_pos none, split, none, List.nil_append]
  · rw [if_neg none]

/-- What is taken after the first message is taken with it. -/
theorem Takes.cons {now : ℚ} {maximum : Int} {message : Message} {ms : List Message}
    {queue_fp : Option Reader} {ml : List Message} {msg_count : Int} {got : Got}
    (takes : Takes o now maximum ms (some (ms.map .ok)) (ml ++ releasedFresh o now [message])
      (msg_count - 1) got) : Takes o now maximum (message :: ms) queue_fp ml msg_count got := by
  cases takes with
  | finished =>
    rw [List.append_assoc, ← releasedFresh_cons]
    exact .finished
  | enough taken rest split full =>
    rw [List.append_assoc, ← releasedFresh_cons] at full
    have more : Takes o now maximum (message :: ms) queue_fp ml msg_count (.enough _ _ _) :=
      .enough (message :: taken) rest (congrArg (message :: ·) split) full
    rw [List.append_assoc, ← releasedFresh_cons]
    rw [if_neg (List.cons_ne_nil _ _), List.length_cons] at more
    have count : msg_count - 1 - (taken.length : Int) = msg_count - ((taken.length + 1 : Nat) : Int) := by
      omega
    rw [count, reader_after split]
    exact more

theorem getLoop_takes (now : ℚ) (maximum : Int) (ms : List Message) (queue_fp : Option Reader)
    (ml : List Message) (msg_count : Int) (handleable : ∀ message ∈ ms, Handleable c o message) :
    Takes o now maximum ms queue_fp ml msg_count
      (getLoop o now maximum (ms.map .ok) queue_fp ml msg_count) := by
  induction ms generalizing queue_fp ml msg_count with
  | nil =>
    rw [List.map_nil, getLoop]
    split
    · next full => simpa [releasedFresh] using Takes.enough [] [] rfl (by simpa [releasedFresh] using full)
    · have all : Takes o now maximum [] queue_fp ml msg_count
          (.finished (ml ++ releasedFresh o now [])) := .finished
      simpa [releasedFresh] using all
  | cons message ms ih =>
    have head := handleable message List.mem_cons_self
    have tail := fun m member => handleable m (List.mem_cons_of_mem message member)
    rw [List.map_cons, getLoop]
    split
    · next full =>
      simpa [releasedFresh] using
        Takes.enough [] (message :: ms) rfl (by simpa [releasedFresh] using full)
    · obtain ⟨_, expired, age⟩ := head.handled now
      rw [handled_nonempty c o (head.handled now), age]
      simp only [Bool.false_eq_true, if_false]
      apply Takes.cons
      cases expired with
      | true =>
        have dropped : releasedFresh o now [message] = [] := by
          simp [releasedFresh, Fresh, age]
        rw [dropped, List.append_nil]
        exact ih _ _ _ tail
      | false =>
        obtain ⟨kept, acknowledged⟩ := head.acknowledged
        have taken : releasedFresh o now [message] = [kept] := by
          simp [releasedFresh, Fresh, age, released, acknowledged, Except.toOption]
        rw [taken, acknowledged]
        exact ih _ _ _ tail

end Sarracenia.Guarantees.DiskQueue
