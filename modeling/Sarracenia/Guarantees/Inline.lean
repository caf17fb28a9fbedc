import Sarracenia.Source.Inline
import Sarracenia.Guarantees.Message
import Sarracenia.Guarantees.Identity.Cache

/-!
# Content is written whole or not at all

`write_inline_file` opens its file before it knows what to write. What goes wrong then raises, or leaves an empty file.
-/
namespace Sarracenia.Guarantees.Inline
open Library Library.Text Library.Dynamic
open Source Source.Inline
open Source.Transfer (Bytes)
open Source.Identity (File)

section Spec
variable (w : World) (o : Options) (msg : Message) (file : Option File)

/-- No exception; the file as it was, or with the content, of which the message then has the size. -/
def AllOrNothing (after : Option File × Message × Except Fault Bool) : Prop :=
  match after.2.2 with
  | .error _ => False
  | .ok false => after.1.map File.content = file.map File.content
  | .ok true => ∃ data, decoded w msg = .ok data ∧ after.1.map File.content = some data ∧
      after.2.1.get "size" = some (.int data.length)

/-- What `do_download` promises: a place for the file, and a set of fields that are not posted. -/
structure Placed : Prop where
  new_dir : ∃ s, msg.get "new_dir" = some (.str s)
  new_file : ∃ s, msg.get "new_file" = some (.str s)
  marks : ∃ members, msg.get "_deleteOnPost" = some (.set members)

/-- The method of the checksum has a class, and a value where it is arbitrary. -/
def Known : Prop := ∃ method sc, algo_method o msg = .ok method ∧ factory method = some sc ∧
  (sc = .arbitrary → ∃ v, (msg.item "identity" >>= Value.item "value") = .ok v)

/-- The size, where there is one, is a number. -/
def Measured : Prop := ∀ size, msg.get "size" = some size → ∃ q, size.asNumber = .ok q

/-- A size that is more than nothing is that of the data. -/
def Agrees (data : Bytes) : Prop := ∀ size q, msg.get "size" = some size → size.asNumber = .ok q → 0 < q → (data.length : ℚ) = q

/-- A time that a message gives can be read. -/
def TimeRead (field : String) : Prop :=
  ∀ v, msg.get field = some v → v.truthy = true → ∃ s q, v = .str s ∧ TimeNotation.timestr2flt s = .ok q

/-- The times of the file can be read, where they are to be set. -/
def Timed : Prop :=
  o.timeCopy = true → ∀ v, msg.get "mtime" = some v → v.truthy = true → TimeRead msg "mtime" ∧ TimeRead msg "atime"

/-- The file is not opened. -/
def Unopened : Prop := (w.isdir = false ∧ w.makedirs = false) ∨ w.opens = false

/-- The content can be decoded and identified, and the size is a number; with the right size, or with one that is put up
with, the times can be set, or there is nothing new to write; with another, the file was there before. -/
def Writable : Prop :=
  ∃ data, decoded w msg = .ok data ∧ Known o msg ∧ Measured msg ∧
    ((Agrees msg data ∨ o.acceptSizeWrong = true) → Timed o msg ∨ file.map File.content = some data) ∧
      (¬ (Agrees msg data ∨ o.acceptSizeWrong = true) → file.isSome = true)

end Spec

section Steps
variable {w : World} {o : Options} {msg msg' : Message} {file : Option File} {data : Bytes}

theorem item_text {field : String} (text : ∃ s, msg.get field = some (.str s)) : ∃ s, (msg.item field >>= Value.asStr) = .ok s := by
  obtain ⟨s, here⟩ := text
  refine ⟨s, ?_⟩
  rw [Dict.item_ok_iff.mpr here]
  rfl

theorem valueOf_ok_iff (digest : Str → Bytes → Str) (random : Str) (data : Bytes) (sc : Source.Inline.Class) :
    (∃ v, valueOf digest random data msg sc = .ok v) ↔ (sc = .arbitrary → ∃ v, (msg.item "identity" >>= Value.item "value") = .ok v) := by
  cases sc with
  | arbitrary => exact ⟨fun found _ => found, fun found => found rfl⟩
  | md5 => exact iff_of_true ⟨_, rfl⟩ nofun
  | random => exact iff_of_true ⟨_, rfl⟩ nofun
  | sha512 => exact iff_of_true ⟨_, rfl⟩ nofun

theorem checkSize_right (measured : Measured msg) (right : Agrees msg data ∨ o.acceptSizeWrong = true) :
    checkSize o data msg = .ok (some (msg.set "size" (.int data.length))) := by
  unfold checkSize
  cases here : msg.get "size" with
  | none => rfl
  | some size =>
    obtain ⟨q, number⟩ := measured size here
    dsimp only
    rw [number]
    by_cases wrong : 0 < q ∧ (data.length : ℚ) ≠ q
    · have accepted : o.acceptSizeWrong = true := right.resolve_left fun agrees => wrong.2 (agrees size q here number wrong.1)
      change (if 0 < q ∧ (data.length : ℚ) ≠ q then _ else _) = _
      rw [if_pos wrong, accepted]
      rfl
    · exact if_neg wrong

theorem checkSize_wrong (wrong : ¬ (Agrees msg data ∨ o.acceptSizeWrong = true)) :
    checkSize o data msg = .ok none := by
  obtain ⟨disagrees, refused⟩ := not_or.mp wrong
  unfold Agrees at disagrees
  push Not at disagrees
  obtain ⟨size, q, here, number, more, other⟩ := disagrees
  unfold checkSize
  rw [here]
  dsimp only
  rw [number]
  change (if 0 < q ∧ (data.length : ℚ) ≠ q then _ else _) = _
  rw [if_pos ⟨more, other⟩, if_neg refused]
  rfl

theorem checkSize_fails (o : Options) (data : Bytes) (unmeasured : ¬ Measured msg) : ∃ e, checkSize o data msg = .error e := by
  unfold Measured at unmeasured
  push Not at unmeasured
  obtain ⟨size, here, other⟩ := unmeasured
  unfold checkSize
  rw [here]
  dsimp only
  cases number : size.asNumber with
  | error e => exact ⟨e, rfl⟩
  | ok q => exact absurd number (other q)

theorem deleteOnPost_marks (marks : ∃ members, msg.get "_deleteOnPost" = some (.set members)) (fields : List String) :
    ∃ msg', Message.deleteOnPost msg fields = .ok msg' ∧ (∃ members, msg'.get "_deleteOnPost" = some (.set members)) ∧
      ∀ key, key ≠ "_deleteOnPost" → msg'.get key = msg.get key := by
  obtain ⟨msg', done⟩ := (Guarantees.Message.deleteOnPost_ok_iff msg fields).mpr marks
  exact ⟨msg', done, Guarantees.Message.deleteOnPost_marked done, fun key other => Guarantees.Message.deleteOnPost_get other done⟩

/-- The fields that are looked at again. -/
theorem agrees_congr (data : Bytes) (same : msg'.get "size" = msg.get "size") : (Agrees msg' data ↔ Agrees msg data) ∧ (Measured msg' ↔ Measured msg) := by
  unfold Agrees Measured
  rw [same]
  exact ⟨Iff.rfl, Iff.rfl⟩

theorem set_onfly (msg : Message) (v : Value) : let now := msg.set "onfly_checksum" v
    now.get "size" = msg.get "size" ∧ now.get "_deleteOnPost" = msg.get "_deleteOnPost" :=
  ⟨Dict.get_set_ne _ (by decide) _, Dict.get_set_ne _ (by decide) _⟩

theorem identify_fails {method : Value} {sc : Source.Inline.Class} (unready : ¬ ((∃ v, valueOf w.digest w.random data msg sc = .ok v) ∧ Measured msg)) :
    ∃ e, identify w o method sc data msg = .error e := by
  unfold identify
  cases onfly : valueOf w.digest w.random data msg sc with
  | error e => exact ⟨e, rfl⟩
  | ok v =>
    cases stored : valueOf w.digest w.again data msg sc with
    | error e => exact ⟨e, rfl⟩
    | ok v' =>
      have unmeasured : ¬ Measured (msg.set "onfly_checksum" (Identity.identity method v)) := fun measured =>
        unready ⟨⟨v, onfly⟩, (agrees_congr data (set_onfly _ _).1).2.mp measured⟩
      obtain ⟨e, fails⟩ := checkSize_fails o data unmeasured
      refine ⟨e, ?_⟩
      change (checkSize o data (msg.set "onfly_checksum" (Identity.identity method v)) >>= _) = _
      rw [fails]
      rfl

/-- What comes before the writing raises where the content, the method or the size is not such as it takes. -/
theorem prepare_fails (unready : ¬ ∃ data, decoded w msg = .ok data ∧ Known o msg ∧ Measured msg) : ∃ e, prepare w o msg = .error e := by
  unfold prepare
  cases content : decoded w msg with
  | error e => exact ⟨e, rfl⟩
  | ok data =>
    cases algo : algo_method o msg with
    | error e => exact ⟨e, rfl⟩
    | ok method =>
      change ∃ e, (factory method).elim _ _ = Except.error e
      cases class_ : factory method with
      | none => exact ⟨_, rfl⟩
      | some sc =>
        refine identify_fails fun ready => unready ⟨data, content, ⟨method, sc, algo, class_, ?_⟩, ready.2⟩
        exact (valueOf_ok_iff _ _ data sc).mp ready.1

theorem prepare_known {method : Value} {sc : Source.Inline.Class} (content : decoded w msg = .ok data) (algo : algo_method o msg = .ok method)
    (class_ : factory method = some sc) : prepare w o msg = identify w o method sc data msg := by
  unfold prepare
  rw [content]
  change (algo_method o msg >>= _) = _
  rw [algo]
  change (factory method).elim _ _ = _
  rw [class_]
  rfl

/-- With the right size, or one that is put up with, the data are there to be written. -/
theorem prepare_right (marks : ∃ members, msg.get "_deleteOnPost" = some (.set members)) (content : decoded w msg = .ok data)
    (known : Known o msg) (measured : Measured msg) (right : Agrees msg data ∨ o.acceptSizeWrong = true) :
    ∃ msg', prepare w o msg = .ok (msg', some data) ∧ msg'.get "size" = some (.int data.length) ∧
      msg'.get "mtime" = msg.get "mtime" ∧ msg'.get "atime" = msg.get "atime" := by
  obtain ⟨method, sc, algo, class_, value⟩ := known
  obtain ⟨v, onfly⟩ := (valueOf_ok_iff w.digest w.random data sc).mpr value
  obtain ⟨v', stored⟩ := (valueOf_ok_iff w.digest w.again data sc).mpr value
  obtain ⟨sized, marked⟩ := set_onfly msg (Identity.identity method v)
  have right' : Agrees (msg.set "onfly_checksum" (Identity.identity method v)) data ∨ o.acceptSizeWrong = true :=
    right.imp_left (agrees_congr data sized).1.mpr
  have checked := checkSize_right ((agrees_congr data sized).2.mpr measured) right'
  let whole := ((msg.set "onfly_checksum" (Identity.identity method v)).set "size" (.int data.length)).set "data_checksum"
    (Identity.identity method v')
  have wholeMarks : ∃ members, whole.get "_deleteOnPost" = some (.set members) := by
    rwa [Dict.get_set_ne _ (by decide), Dict.get_set_ne _ (by decide), marked]
  obtain ⟨one, first, oneMarks, oneSame⟩ := deleteOnPost_marks wholeMarks ["onfly_checksum"]
  obtain ⟨two, second, -, twoSame⟩ := deleteOnPost_marks oneMarks ["data_checksum"]
  have kept (key : String) (mark : key ≠ "_deleteOnPost") (onflyOther : key ≠ "onfly_checksum") (sizeOther : key ≠ "size")
      (dataOther : key ≠ "data_checksum") : two.get key = msg.get key := by
    rw [twoSame key mark, oneSame key mark, Dict.get_set_ne _ dataOther, Dict.get_set_ne _ sizeOther, Dict.get_set_ne _ onflyOther]
  refine ⟨two, ?_, ?_, kept "mtime" (by decide) (by decide) (by decide) (by decide), kept "atime" (by decide) (by decide) (by decide) (by decide)⟩
  · rw [prepare_known content algo class_]
    unfold identify
    rw [onfly]
    change (valueOf w.digest w.again data msg sc >>= _) = _
    rw [stored]
    change (checkSize o data (msg.set "onfly_checksum" (Identity.identity method v)) >>= _) = _
    rw [checked]
    change (Message.deleteOnPost whole ["onfly_checksum"] >>= _) = _
    rw [first]
    change (Message.deleteOnPost one ["data_checksum"] >>= _) = _
    rw [second]
    rfl
  · rw [twoSame _ (by decide), oneSame _ (by decide), Dict.get_set_ne _ (by decide), Dict.get_set_self]

theorem prepare_wrong (content : decoded w msg = .ok data) (known : Known o msg)
    (wrong : ¬ (Agrees msg data ∨ o.acceptSizeWrong = true)) : ∃ msg', prepare w o msg = .ok (msg', none) := by
  obtain ⟨method, sc, algo, class_, value⟩ := known
  obtain ⟨v, onfly⟩ := (valueOf_ok_iff w.digest w.random data sc).mpr value
  obtain ⟨v', stored⟩ := (valueOf_ok_iff w.digest w.again data sc).mpr value
  obtain ⟨sized, -⟩ := set_onfly msg (Identity.identity method v)
  have wrong' : ¬ (Agrees (msg.set "onfly_checksum" (Identity.identity method v)) data ∨ o.acceptSizeWrong = true) :=
    fun right => wrong (right.imp_left (agrees_congr data sized).1.mp)
  refine ⟨msg.set "onfly_checksum" (Identity.identity method v), ?_⟩
  rw [prepare_known content algo class_]
  unfold identify
  rw [onfly]
  change (valueOf w.digest w.again data msg sc >>= _) = _
  rw [stored]
  change (checkSize o data (msg.set "onfly_checksum" (Identity.identity method v)) >>= _) = _
  rw [checkSize_wrong wrong']
  rfl

/-! ### The attributes of the file -/

theorem timed_congr (mtime : msg'.get "mtime" = msg.get "mtime") (atime : msg'.get "atime" = msg.get "atime") :
    Timed o msg' ↔ Timed o msg := by
  unfold Timed TimeRead
  rw [mtime, atime]

theorem timeRead_iff {field : String} {v : Value} (here : msg.get field = some v) (truthy : v.truthy = true) :
    TimeRead msg field ↔ ∃ s q, v = .str s ∧ TimeNotation.timestr2flt s = .ok q :=
  ⟨fun read => read v here truthy, fun read u there _ => by cases here.symm.trans there; exact read⟩

theorem timeRead_unset {field : String} (unset : (msg.get field).filter Value.truthy = none) : TimeRead msg field := by
  intro v here truthy
  rw [here, Option.filter_some, truthy] at unset
  cases unset

theorem attributes_ok_iff {f : File} :
    (Identity.set_local_file_attributes w.toWorld o.toOptions f msg).2 = .ok () ↔ Timed o msg := by
  unfold Identity.set_local_file_attributes Timed
  cases copy : o.timeCopy with
  | false => exact iff_of_true rfl nofun
  | true =>
    cases mtime : msg.get "mtime" with
    | none => exact iff_of_true rfl fun _ v there => nomatch there
    | some v =>
      cases truthy : v.truthy with
      | false =>
        have dropped : (some v).filter Value.truthy = none := by rw [Option.filter_some, truthy]; rfl
        dsimp only
        rw [if_pos rfl, dropped]
        refine iff_of_true rfl fun _ u there true_ => ?_
        cases there
        rw [truthy] at true_
        cases true_
      | true =>
        have kept : (some v).filter Value.truthy = some v := by rw [Option.filter_some, truthy]; rfl
        have asked : (true = true → ∀ u, some v = some u → u.truthy = true → TimeRead msg "mtime" ∧ TimeRead msg "atime") ↔
            TimeRead msg "mtime" ∧ TimeRead msg "atime" :=
          ⟨fun all => all rfl v rfl truthy, fun both _ _ _ _ => both⟩
        rw [asked, timeRead_iff mtime truthy]
        dsimp only
        rw [if_pos rfl, kept]
        dsimp only
        cases v with
        | str s =>
          cases read : TimeNotation.timestr2flt s with
          | error e =>
            refine iff_of_false ?_ fun both => ?_
            · simp [Value.asStr, bind, Except.bind, read]
            · obtain ⟨_, q, same, fine⟩ := both.1
              cases same
              rw [read] at fine
              cases fine
          | ok time =>
            have first : ∃ t q, Value.str s = .str t ∧ TimeNotation.timestr2flt t = .ok q := ⟨s, time, rfl, read⟩
            rw [and_iff_right first]
            cases atime : (msg.get "atime").filter Value.truthy with
            | none => exact iff_of_true (by simp [Value.asStr, bind, Except.bind, pure, Except.pure, read]) (timeRead_unset atime)
            | some u =>
              obtain ⟨here, true_⟩ := Option.filter_eq_some_iff.mp atime
              rw [timeRead_iff here true_]
              cases u with
              | str t =>
                cases later : TimeNotation.timestr2flt t with
                | error e =>
                  refine iff_of_false ?_ ?_
                  · simp [Value.asStr, bind, Except.bind, read, later]
                  · rintro ⟨_, q, same, fine⟩
                    cases same
                    rw [later] at fine
                    cases fine
                | ok q => exact iff_of_true (by simp [Value.asStr, bind, Except.bind, pure, Except.pure, read, later]) ⟨t, q, rfl, later⟩
              | _ => exact iff_of_false (by simp [Value.asStr, bind, Except.bind, read]) nofun
        | _ => exact iff_of_false (by simp [Value.asStr, bind, Except.bind]) fun both => nomatch both.1

/-! ### The whole -/

theorem unopened_kept (placed : Placed msg) (unopened : Unopened w) : write_inline_file w o msg file = (file, msg, .ok false) := by
  obtain ⟨dir, directory⟩ := item_text placed.new_dir
  obtain ⟨name, filename⟩ := item_text placed.new_file
  unfold write_inline_file
  rw [directory]
  dsimp only
  rcases unopened with ⟨absent, denied⟩ | closed
  · rw [absent, denied]
    rfl
  · split
    · rfl
    · rw [filename, closed]
      rfl

theorem opened_eq (placed : Placed msg) (opened : ¬ Unopened w) :
    write_inline_file w o msg file = write w o (file.getD ⟨[], w.now, []⟩) msg (prepare w o msg) := by
  obtain ⟨dir, directory⟩ := item_text placed.new_dir
  obtain ⟨name, filename⟩ := item_text placed.new_file
  obtain ⟨made, opens⟩ := not_or.mp opened
  have there : (!w.isdir && !w.makedirs) = false := by
    rw [Bool.and_eq_false_iff, Bool.not_eq_false', Bool.not_eq_false']
    by_contra neither
    obtain ⟨absent, denied⟩ := not_or.mp neither
    exact made ⟨Bool.eq_false_iff.mpr absent, Bool.eq_false_iff.mpr denied⟩
  rw [Bool.not_eq_false] at opens
  unfold write_inline_file
  rw [directory]
  dsimp only
  rw [there, filename, opens, if_neg Bool.noConfusion]
  rfl

/-- What is written is the content, and whether that is told depends on the times. -/
theorem write_data (w : World) (o : Options) (opened : File) (msg msg' : Message) (data : Bytes) : ∃ f, f.content = data ∧
    ((Timed o msg' ∧ write w o opened msg (.ok (msg', some data)) = (some f, msg', .ok true)) ∨
      (¬ Timed o msg' ∧ write w o opened msg (.ok (msg', some data)) = (some f, msg', .ok false))) := by
  have kept := (Guarantees.Identity.set_local_file_attributes_kept (w := w.toWorld) (o := o.toOptions)
    (f := { opened with content := data, mtime := w.now }) msg').1
  have told : (Identity.set_local_file_attributes w.toWorld o.toOptions { opened with content := data, mtime := w.now } msg').2 = .ok () ↔
    Timed o msg' := attributes_ok_iff
  unfold write
  dsimp only at kept told ⊢
  generalize Identity.set_local_file_attributes w.toWorld o.toOptions ⟨data, w.now, opened.x⟩ msg' = written at kept told ⊢
  obtain ⟨f, answer⟩ := written
  refine ⟨f, kept, ?_⟩
  cases answer with
  | ok done => exact .inl ⟨told.mp rfl, rfl⟩
  | error e => exact .inr ⟨fun timed => (nomatch told.mpr timed), rfl⟩

end Steps
section Samples

/-- Everything can be opened, and texts are encoded in UTF-8. -/
def calmWorld : World where
  digest _ _ := []
  choice := []
  random := []
  mtimeText _ := []
  isdir := true
  makedirs := true
  opens := true
  now := []
  encode _ s := .ok (Percent.utf8Bytes s)
  again := []

def sha512Options : Options where
  identity_method := some "sha512".toList
  identity_arbitrary_value := .none
  randomize := false
  bufSize := 4096
  timeCopy := true
  acceptSizeWrong := false

/-- A message with a text, and the identity of another method. -/
def withText (method : String) : Message :=
  [("_deleteOnPost", .set []), ("new_dir", .str "/d".toList), ("new_file", .str "f".toList),
    ("identity", .dict [("method", .str method.toList), ("value", .str "x".toList)]),
    ("content", .dict [("encoding", .str "utf-8".toList), ("value", .str "text".toList)])]

theorem withText_placed (method : String) : Placed (withText method) := ⟨⟨_, rfl⟩, ⟨_, rfl⟩, ⟨_, rfl⟩⟩

end Samples
end Sarracenia.Guarantees.Inline
