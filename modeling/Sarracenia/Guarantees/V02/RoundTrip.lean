import Sarracenia.Guarantees.V02.Event

/-!
# Events through a notice in version 2

When a message can be sent, and when what arrives of it has the event it had: its identity, its
file operation, its size, its times and its mode.
-/
namespace Sarracenia.Guarantees.V02
open Library Library.Text Library.Dynamic Source Source.TimeNotation Source.PostFormat Source.V2Wrapper Source.Export

variable {lib : Standard} {digests : Digests} {p : Publisher} {msg after m result : Message} {relPath y z : Str}
  {topic t : Value} {I : Option (Method × Str)} {F : Option FileOp}

/-- A message of an event: an identity, or a file operation, or both. -/
structure Tells (msg : Message) (I : Option (Method × Str)) (F : Option FileOp) : Prop where
  distinct : msg.Distinct
  identity : Holds msg "identity" (identityOf I)
  fileOp : Holds msg "fileOp" (F.map FileOp.fields)
  some_ : I.isSome = true ∨ F.isSome = true

/-! ## The event on its way -/

section Way

/-- The headers of an event. -/
theorem event_sent (headed : v2Headers digests relPath msg = .ok after) (here : msg.get "relPath" = some (.str relPath))
    (event : Tells msg I F) :
    ∃ plain, plainOf digests (lastPiece ['/'] relPath) I = some plain ∧
      after.get "sum" = some (.str ((F.bind (FileOp.sum (lastPiece ['/'] relPath))).elim plain
        fun sum => sum.1 :: ',' :: digests.sha512 sum.2)) ∧
      after.get "oldname" = (F.bind FileOp.old).elim (msg.get "oldname") fun old => some (.str old) := by
  obtain ⟨mtimed, timed, sized, parted, summed, sumstr, one, two, three, four, five, rfl⟩ := v2Headers_ok headed
  have before {key : String} (other : key ∉ ["mtime", "atime", "size", "parts", "topic"]) :=
    unsummed_frame relPath one two three four other
  obtain ⟨plain, told, rfl, rfl⟩ := (sumstr_iff ((before (by decide)).trans here)
    ((Holds.congr (before (by decide)) _).mpr event.identity)
    ((Holds.congr (before (by decide)) _).mpr event.fileOp)).mp five
  refine ⟨plain, told, Dict.get_set_self _ _ _, ?_⟩
  rw [Dict.get_set_ne _ (by decide)]
  cases F.bind FileOp.old with
  | none => exact before (by decide)
  | some old => exact Dict.get_set_self _ _ _

/-- An identity arrives under its legacy name only. -/
theorem arrived_identity (distinct : msg.Distinct) (headed : v2Headers digests relPath msg = .ok after) :
    (arrived (Dict.set (V02.told.foldl Dict.del after) "topic" topic) t y z).get "identity" = msg.get "integrity" := by
  have kept : (Dict.set (V02.told.foldl Dict.del after) "topic" topic).Distinct :=
    ((v2Headers_distinct headed distinct).del_all _).set
  have integrity : (Dict.set (V02.told.foldl Dict.del after) "topic" topic).get "integrity" = msg.get "integrity" := by
    rw [Dict.get_set_ne _ (by decide), Dict.get_del_all _ _ (by decide), v2Headers_frame headed (by decide)]
  have identity : (Dict.set (V02.told.foldl Dict.del after) "topic" topic).get "identity" = none := by
    rw [Dict.get_set_ne _ (by decide), Dict.get_del_all_mem _ _ (by decide)]
  unfold arrived
  rw [renamed_new (by decide)]
  repeat rw [Dict.get_set_ne _ (by decide)]
  rw [Dict.get_into kept, Dict.get_into kept, integrity, identity]
  cases msg.get "integrity" <;> rfl

section Settled
variable {atimed mtimed : Message} (event : Tells msg I F) (headed : v2Headers digests relPath msg = .ok after)
  (deleted : Message.deleteOnPost (arrived (Dict.set (V02.told.foldl Dict.del after) "topic" topic) t y z) ["subtopic"] = .ok m)
  (one : V02.time "atime" m = .ok atimed) (two : V02.time "mtime" atimed = .ok mtimed)
include event headed deleted one two

/-- A header that is no time, before the event is read. -/
theorem settled_header {key : String} (told : key ∉ V02.told) (other : key ∉ "topic" :: announced)
    (later : key ∉ ["atime", "mtime", "_format", "_deleteOnPost"]) : mtimed.get key = after.get key := by
  simp only [List.mem_cons, List.not_mem_nil, or_false, not_or] at other later
  obtain ⟨topic, new⟩ := other
  obtain ⟨atime, mtime, format, delete⟩ := later
  have fresh : (Message.new "v02").get key = none := Dict.get_none_iff.mpr (by simp [Message.new, format, delete])
  rw [time_frame two mtime, time_frame one atime, deleteOnPost_frame deleted delete,
    arrived_header event.distinct headed told topic (by simpa [announced] using new), fresh, Option.or_none]

/-- What is told otherwise has no header. -/
theorem settled_none {key : String} (told : key ∈ V02.told) (other : key ∉ "topic" :: announced)
    (later : key ∉ ["atime", "mtime", "_format", "_deleteOnPost"]) : mtimed.get key = none := by
  have kept : (Dict.set (V02.told.foldl Dict.del after) "topic" topic).Distinct :=
    ((v2Headers_distinct headed event.distinct).del_all _).set
  simp only [List.mem_cons, List.not_mem_nil, or_false, not_or] at other later
  obtain ⟨topic, new⟩ := other
  obtain ⟨atime, mtime, format, delete⟩ := later
  have fresh : (Message.new "v02").get key = none := Dict.get_none_iff.mpr (by simp [Message.new, format, delete])
  rw [time_frame two mtime, time_frame one atime, deleteOnPost_frame deleted delete,
    arrived_frame kept (by simpa [announced] using new), Dict.get_set_ne _ topic, Dict.get_del_all_mem _ _ told, fresh]
  rfl

theorem carried (here : msg.get "relPath" = some (.str relPath)) :
    Carried digests (lastPiece ['/'] relPath) msg mtimed I F where
  sum := by
    obtain ⟨plain, told, sum, -⟩ := event_sent headed here event
    exact ⟨plain, told, (settled_header event headed deleted one two (by decide) (by decide) (by decide)).trans sum⟩
  oldname := by
    obtain ⟨plain, -, -, oldname⟩ := event_sent headed here event
    exact (settled_header event headed deleted one two (by decide) (by decide) (by decide)).trans oldname
  link := by
    rw [settled_header event headed deleted one two (by decide) (by decide) (by decide), v2Headers_frame headed (by decide)]
  identity := by
    rw [time_frame two (by decide), time_frame one (by decide), deleteOnPost_frame deleted (by decide),
      arrived_identity event.distinct headed]
  fileOp := settled_none event headed deleted one two (by decide) (by decide) (by decide)

end Settled
end Way

/-! ## What comes back -/

section Back

/-- The event of a message is that of another one, and no header of it is left over. -/
structure Restores (msg result : Message) (I : Option (Method × Str)) (F : Option FileOp) : Prop where
  identity : Holds result "identity" (identityOf I)
  fileOp : Holds result "fileOp" (F.map FileOp.fields)
  others : ∀ key ∈ ["size", "mtime", "atime", "mode"], result.get key = msg.get key
  added : ∀ key ∈ ["sum", "oldname", "link", "parts"], msg.get key = none → result.get key = none

/-- The times that are kept. -/
def TimesKept (msg : Message) : Prop :=
  ∀ field ∈ ["atime", "mtime"], ∀ v, msg.get field = some v → ∃ s, v = .str s ∧ TimeKept (msg.get "t") s

theorem time_kept_iff {field : String} (event : Tells msg I F) (headed : v2Headers digests relPath msg = .ok after)
    (deleted : Message.deleteOnPost (arrived (Dict.set (V02.told.foldl Dict.del after) "topic" topic) t y z) ["subtopic"] = .ok m)
    (settles : settle m = .ok (some result)) (time : field ∈ ["atime", "mtime"]) :
    result.get field = msg.get field ↔ ∀ v, msg.get field = some v → ∃ s, v = .str s ∧ TimeKept (msg.get "t") s := by
  obtain ⟨absent, read⟩ := settle_time settles time
  have fieldOf : m.get field = after.get field := by
    simp only [List.mem_cons, List.not_mem_nil, or_false] at time
    rcases time with rfl | rfl <;>
    rw [deleteOnPost_frame deleted (by decide), arrived_header event.distinct headed (by decide) (by decide) (by decide)] <;>
    exact Option.or_none
  have tOf : m.get "t" = msg.get "t" := by
    rw [deleteOnPost_frame deleted (by decide), arrived_header event.distinct headed (by decide) (by decide) (by decide),
      v2Headers_frame headed (by decide)]
    exact Option.or_none
  obtain ⟨none_, none'⟩ | ⟨s, here, here'⟩ := v2Headers_time headed time
  · rw [none_, absent (fieldOf.trans none')]
    refine ⟨fun _ v is => ?_, fun _ => rfl⟩
    cases is
  · rw [here, read s (fieldOf.trans here'), tOf]
    refine ⟨fun kept v same => ⟨s, (Option.some.inj same).symm, kept⟩, fun all => ?_⟩
    obtain ⟨s', same, kept⟩ := all _ rfl
    cases same
    exact kept

/-- What comes back is the event exactly if its times, its size and the event itself are kept. -/
theorem restores_iff (hexadecimal : Hexadecimal digests) (event : Tells msg I F)
    (headed : v2Headers digests relPath msg = .ok after) (here : msg.get "relPath" = some (.str relPath))
    (deleted : Message.deleteOnPost (arrived (Dict.set (V02.told.foldl Dict.del after) "topic" topic) t y z) ["subtopic"] = .ok m)
    (settles : settle m = .ok (some result)) :
    Restores msg result I F ↔ TimesKept msg ∧ SizeKept msg ∧ EventKept msg I F := by
  have timed {field : String} (time : field ∈ ["atime", "mtime"]) := time_kept_iff event headed deleted settles time
  obtain ⟨atimed, mtimed, one, two, rfl⟩ := settle_ok settles
  have arrives := carried event headed deleted one two here
  have parts : (V02.event mtimed).get "parts" = after.get "parts" := by
    rw [event_frame (by decide) (by decide) (by decide) (by decide) (by decide),
      settled_header event headed deleted one two (by decide) (by decide) (by decide)]
  have size : (V02.event mtimed).get "size" = none := by
    rw [event_frame (by decide) (by decide) (by decide) (by decide) (by decide),
      settled_none event headed deleted one two (by decide) (by decide) (by decide)]
  have kept := (and_congr (Holds.congr (parts_frame (by decide) (by decide)) _)
    (Holds.congr (parts_frame (by decide) (by decide)) _)).trans (event_kept_iff hexadecimal event.some_ arrives)
  constructor
  · rintro ⟨identity, fileOp, others, -⟩
    refine ⟨fun field time => (timed time).mp (others field ?_), (size_kept_iff headed parts size).mp (others "size" (by decide)),
      kept.mp ⟨identity, fileOp⟩⟩
    simp only [List.mem_cons, List.not_mem_nil, or_false] at time ⊢
    exact time.elim (fun is => .inr (.inr (.inl is))) fun is => .inr (.inl is)
  · rintro ⟨times, sizes, events⟩
    obtain ⟨identity, fileOp⟩ := kept.mpr events
    refine ⟨identity, fileOp, fun key member => ?_, fun key member none_ => ?_⟩
    · simp only [List.mem_cons, List.not_mem_nil, or_false] at member
      rcases member with rfl | rfl | rfl | rfl
      · exact (size_kept_iff headed parts size).mpr sizes
      · exact (timed (by decide)).mpr (times "mtime" (by decide))
      · exact (timed (by decide)).mpr (times "atime" (by decide))
      · rw [settle_frame settles (by decide), deleteOnPost_frame deleted (by decide),
          arrived_header event.distinct headed (by decide) (by decide) (by decide), v2Headers_frame headed (by decide)]
        exact Option.or_none
    · obtain ⟨sum, oldname⟩ := kept_traceless hexadecimal arrives events
      simp only [List.mem_cons, List.not_mem_nil, or_false] at member
      rcases member with rfl | rfl | rfl | rfl
      · rw [parts_frame (by decide) (by decide), sum]
      · rw [parts_frame (by decide) (by decide), oldname]
      · rw [parts_frame (by decide) (by decide), event_link (arrives.link.trans none_)]
      · exact parts_gone headed parts sizes none_

end Back

/-! ## What can be sent -/

section Send

/-- A message that can be sent, whatever its event. -/
structure Sendable (lib : Standard) (p : Publisher) (msg : Message) : Prop where
  pubTime : ∃ s, msg.get "pubTime" = some (.str s) ∧ 8 < ((replaceAll ['T'] [] s).takeWhile (· ≠ ' ')).length
  url : ∃ baseUrl relPath, msg.get "baseUrl" = some (.str baseUrl) ∧ msg.get "relPath" = some (.str relPath) ∧
    ∃ url, lib.urlparse (baseUrl ++ relPath) = .ok url
  newFile : newFile msg = .ok ()
  blocks : ∀ v, msg.get "blocks" = some v → ∃ s, blocksParts v = .ok s
  topic : ∃ l, topicPrefix p msg = .ok l
  deleteOnPost : ∀ v, msg.get "_deleteOnPost" = some v → ∃ members, v = .set members

/-- The topic of the headers is at hand, so that only its prefix matters. -/
theorem topicDerive_ok_iff (headed : v2Headers digests relPath msg = .ok after) :
    (∃ topic, topicDerive p after = .ok topic) ↔ ∃ l, topicPrefix p msg = .ok l := by
  have topic : after.get "topic" = some (v2Topic relPath) := by
    obtain ⟨mtimed, timed, sized, parted, summed, sumstr, one, two, three, four, five, rfl⟩ := v2Headers_ok headed
    rw [Dict.get_set_ne _ (by decide), sumstr_frame five (by decide), Dict.get_set_self]
  have prefixes : topicPrefix p after = topicPrefix p msg := by
    unfold topicPrefix splitIndex Dict.item
    rw [v2Headers_frame headed (by decide)]
  unfold topicDerive
  rw [topic, prefixes]
  constructor
  · rintro ⟨derived, ok⟩
    obtain ⟨l, is, -⟩ := bind_ok_iff.mp ok
    exact ⟨l, is⟩
  · rintro ⟨l, is⟩
    exact ⟨_, bind_ok_iff.mpr ⟨l, is, rfl⟩⟩

theorem v2Time_total {field : String} (texts : ∀ v, msg.get field = some v → ∃ s, v = .str s) :
    ∃ after, v2Time field msg = .ok after := by
  unfold v2Time
  cases here : msg.get field with
  | none => exact ⟨msg, rfl⟩
  | some v =>
    obtain ⟨s, rfl⟩ := texts v here
    exact ⟨_, rfl⟩

/-- The headers can be made of an event that can be told. -/
theorem headers_total (digests : Digests) (event : Tells msg I F) (here : msg.get "relPath" = some (.str relPath))
    (blocks : ∀ v, msg.get "blocks" = some v → ∃ s, blocksParts v = .ok s) (times : TimesKept msg) (size : SizeKept msg)
    (told : ∀ m v, I = some (m, v) → Convertible m v) : ∃ after, v2Headers digests relPath msg = .ok after := by
  have text {field : String} (time : field ∈ ["atime", "mtime"]) (v : Value) (is : msg.get field = some v) :
      ∃ s, v = .str s := by
    obtain ⟨s, same, -⟩ := times field time v is
    exact ⟨s, same⟩
  obtain ⟨mtimed, one⟩ := v2Time_total (text (show "mtime" ∈ ["atime", "mtime"] by decide))
  obtain ⟨timed, two⟩ : ∃ timed, v2Time "atime" mtimed = .ok timed :=
    v2Time_total fun v is => text (by decide) v ((v2Time_frame one (by decide)).symm.trans is)
  have before (key : String) (mtime : key ≠ "mtime") (atime : key ≠ "atime") : timed.get key = msg.get key := by
    rw [v2Time_frame two atime, v2Time_frame one mtime]
  obtain ⟨sized, three⟩ : ∃ sized, v2Size timed = .ok sized := by
    unfold v2Size
    rw [before "size" (by decide) (by decide)]
    cases is : msg.get "size" with
    | none => exact ⟨_, rfl⟩
    | some v =>
      cases blocks : msg.get "blocks" with
      | none =>
        obtain ⟨n, rfl⟩ := size.whole blocks v is
        exact ⟨_, rfl⟩
      | some p =>
        rw [size.blocks (by rw [blocks]; rfl)] at is
        cases is
  obtain ⟨parted, four⟩ : ∃ parted, v2Blocks sized = .ok parted := by
    unfold v2Blocks
    rw [v2Size_frame three (by decide) (by decide), before "blocks" (by decide) (by decide)]
    cases is : msg.get "blocks" with
    | none => exact ⟨_, rfl⟩
    | some p =>
      obtain ⟨s, ok⟩ := blocks p is
      exact ⟨_, bind_ok_iff.mpr ⟨s, ok, rfl⟩⟩
  have frame {key : String} (other : key ∉ ["mtime", "atime", "size", "parts", "topic"]) :=
    unsummed_frame relPath one two three four other
  obtain ⟨plain, is⟩ := (plainOf_isSome_iff digests (lastPiece ['/'] relPath)).mpr told
  have five := (sumstr_iff ((frame (by decide)).trans here)
    ((Holds.congr (frame (by decide)) _).mpr event.identity)
    ((Holds.congr (frame (by decide)) _).mpr event.fileOp)).mpr ⟨plain, is, rfl, rfl⟩
  exact ⟨_, bind_ok_iff.mpr ⟨mtimed, one, bind_ok_iff.mpr ⟨timed, two, bind_ok_iff.mpr ⟨sized, three,
    bind_ok_iff.mpr ⟨parted, four, bind_ok_iff.mpr ⟨_, five, rfl⟩⟩⟩⟩⟩⟩

theorem EventKept.told (kept : EventKept msg I F) : ∀ m v, I = some (m, v) → Convertible m v := by
  have restored (is : Restored I) : ∀ m v, I = some (m, v) → Convertible m v := by
    obtain ⟨m, v, rfl, canonical⟩ := is
    rintro m' v' same
    cases same
    exact canonical.convertible
  cases F with
  | none => exact restored kept.2.2
  | some op =>
    cases op with
    | link => exact kept.2.2.told
    | remove | mkdir => exact kept.2.told
    | rmdir | renameDir => exact kept.elim
    | rename => exact restored kept
    | renameLink => exact kept.2.told

end Send

/-! ## There and back -/

section RoundTrip

/-- The message is sent and read, and its event is restored. -/
def RoundTrip (lib : Standard) (digests : Digests) (p : Publisher) (msg : Message) (I : Option (Method × Str))
    (F : Option FileOp) : Prop :=
  ∃ body headers result, V02.exportMine lib digests p msg = .ok (body, headers) ∧
    V02.importMine body (some headers) = .ok (some result) ∧ Restores msg result I F

theorem TimeKept.receivable {s : Str} {field : Option Value} (kept : TimeKept field s) :
    8 < (replaceAll ['T'] [] s).length ∨ field.isSome = true :=
  kept.elim (fun stamp => .inl (timev2tov3str_ok_iff.mp ⟨_, stamp_iff.mpr stamp⟩)) fun short => .inr short.2.2

theorem conditions_of_round_trip (hexadecimal : Hexadecimal digests) (event : Tells msg I F)
    (restored : RoundTrip lib digests p msg I F) :
    Sendable lib p msg ∧ TimesKept msg ∧ SizeKept msg ∧ EventKept msg I F := by
  obtain ⟨body, headers, result, exported, imported, restores⟩ := restored
  obtain ⟨pubTime, baseUrl, relPath, here, hereBase, herePath, file, parsed, after, topic, headed, derived, rfl, rfl⟩ :=
    export_iff.mp exported
  obtain ⟨y, z, rest, fields, -⟩ := notice_fields pubTime baseUrl relPath
  rw [importMine_eq fields] at imported
  obtain ⟨t, read, imported⟩ := bind_ok_iff.mp imported
  obtain ⟨m, deleted, settles⟩ := bind_ok_iff.mp imported
  have received := (receivable_iff (.list topic) event.distinct headed t y z).mpr ⟨m, result, deleted, settles⟩
  refine ⟨⟨⟨pubTime, here, timev2tov3str_ok_iff.mp ⟨t, read⟩⟩, ⟨baseUrl, relPath, hereBase, herePath, parsed⟩, file,
    fun v is => ?_, (topicDerive_ok_iff headed).mp ⟨topic, derived⟩, received.deleteOnPost⟩,
    (restores_iff hexadecimal event headed herePath deleted settles).mp restores⟩
  obtain ⟨s, ok, -⟩ := (parts_sent headed).1 v is
  exact ⟨s, ok⟩

theorem round_trip_of_conditions (hexadecimal : Hexadecimal digests) (event : Tells msg I F)
    (sendable : Sendable lib p msg) (times : TimesKept msg) (size : SizeKept msg) (kept : EventKept msg I F) :
    RoundTrip lib digests p msg I F := by
  obtain ⟨⟨pubTime, here, long⟩, ⟨baseUrl, relPath, hereBase, herePath, parsed⟩, file, blocks, prefixed, deleteOnPost⟩ := sendable
  obtain ⟨after, headed⟩ := headers_total digests event herePath blocks times size kept.told
  obtain ⟨topic, derived⟩ := (topicDerive_ok_iff headed).mpr prefixed
  obtain ⟨y, z, rest, fields, -⟩ := notice_fields pubTime baseUrl relPath
  obtain ⟨t, read⟩ := timev2tov3str_ok_iff.mpr long
  have received : Receivable msg := by
    refine ⟨fun field time s is => ?_, deleteOnPost⟩
    obtain ⟨s', same, stays⟩ := times field time _ is
    cases same
    exact stays.receivable
  obtain ⟨m, result, deleted, settles⟩ := (receivable_iff (.list topic) event.distinct headed t y z).mp received
  refine ⟨_, _, result, export_iff.mpr ⟨pubTime, baseUrl, relPath, here, hereBase, herePath, file, parsed, after, topic,
    headed, derived, rfl, rfl⟩, ?_, (restores_iff hexadecimal event headed herePath deleted settles).mpr ⟨times, size, kept⟩⟩
  rw [importMine_eq fields]
  exact bind_ok_iff.mpr ⟨t, read, bind_ok_iff.mpr ⟨m, deleted, settles⟩⟩

/-- Of every event the message arrives as it was exactly if it can be sent, and its times, its size
and its event are of the kind that is kept. -/
theorem round_trip_iff (hexadecimal : Hexadecimal digests) (event : Tells msg I F) :
    RoundTrip lib digests p msg I F ↔ Sendable lib p msg ∧ TimesKept msg ∧ SizeKept msg ∧ EventKept msg I F :=
  ⟨conditions_of_round_trip hexadecimal event,
    fun ⟨sendable, times, size, kept⟩ => round_trip_of_conditions hexadecimal event sendable times size kept⟩

end RoundTrip

/-! ## A digest in two lines, and one in one -/

section Example

def hashed (method : Method) (value : Str) : Message :=
  [("_format", .str "v03".toList), ("pubTime", .str "20250101T120000.5".toList),
    ("baseUrl", .str "https://host/".toList), ("relPath", .str "data/a".toList), ("size", .int 3),
    ("mtime", .str "20250101T115959.25".toList), ("mode", .str "644".toList),
    ("identity", .dict (identityFields method value))]

/-- 64 bytes in base64, as an identity writes its digest. -/
def longValue : Str := List.replicate 86 'A' ++ ['=', '=']

theorem noDigests_hexadecimal : Hexadecimal noDigests := fun _ => ⟨⟨[], nofun, rfl⟩, ⟨[], nofun, rfl⟩⟩

variable (method : Method) (value : Str)

theorem hashed_tells : Tells (hashed method value) (some (method, value)) none where
  distinct := by
    show ["_format", "pubTime", "baseUrl", "relPath", "size", "mtime", "mode", "identity"].Nodup
    decide
  identity := ⟨identityFields method value, rfl, fun _ => rfl⟩
  fileOp := rfl
  some_ := .inl rfl

theorem hashed_sendable : Sendable urls publisher (hashed method value) where
  pubTime := ⟨"20250101T120000.5".toList, rfl, by decide⟩
  url := ⟨"https://host/".toList, "data/a".toList, rfl, rfl, _, rfl⟩
  newFile := rfl
  blocks := nofun
  topic := ⟨_, rfl⟩
  deleteOnPost := nofun

/-- The digest of a file comes back with the end of a line in it. -/
theorem digest_changed : ¬ ∀ (lib : Standard) (digests : Digests) (p : Publisher) (msg : Message)
    (I : Option (Method × Str)) (F : Option FileOp), Hexadecimal digests → Tells msg I F → Sendable lib p msg →
    RoundTrip lib digests p msg I F := by
  intro always
  have restored := always _ _ _ _ _ _ noDigests_hexadecimal (hashed_tells .sha512 longValue) (hashed_sendable _ _)
  obtain ⟨-, -, -, -, -, m, v, same, canonical⟩ :=
    conditions_of_round_trip noDigests_hexadecimal (hashed_tells .sha512 longValue) restored
  cases same
  obtain ⟨bytes, small, written⟩ := canonical
  have read : a2b_base64 0 0 0 longValue = some (List.replicate 64 0) := by decide
  rw [written, a2b_base64Lines small] at read
  rw [Option.some.inj read] at written
  exact absurd written (by decide)

theorem digest_kept : RoundTrip urls noDigests publisher (hashed .md5 "rL0Y20zC+Fzt72VPzMSk2A==".toList)
    (some (.md5, "rL0Y20zC+Fzt72VPzMSk2A==".toList)) none := by
  refine (round_trip_iff noDigests_hexadecimal (hashed_tells _ _)).mpr ⟨hashed_sendable _ _, ?_, ⟨nofun, ?_, nofun⟩,
    rfl, rfl, .md5, _, rfl, [172, 189, 24, 219, 76, 194, 248, 92, 237, 239, 101, 79, 204, 196, 164, 216], by decide, rfl⟩
  · intro field time v is
    simp only [List.mem_cons, List.not_mem_nil, or_false] at time
    rcases time with rfl | rfl
    · cases is
    · cases is
      exact ⟨_, rfl, .inl ⟨"20250101".toList, "115959.25".toList, rfl, rfl, by decide, by decide, by decide⟩⟩
  · intro _ v is
    cases is
    exact ⟨3, rfl⟩

end Example
end Sarracenia.Guarantees.V02
