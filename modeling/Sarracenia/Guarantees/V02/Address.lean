import Mathlib.Data.List.TakeWhile
import Sarracenia.Guarantees.V02.Steps
import Sarracenia.Guarantees.Message

/-!
# The address of a notice in version 2

What stands between the spaces of the notice is read back as it was written where there is
nothing to escape: a path is escaped when it is written, and a base URL unescaped when it is read.
-/
namespace Sarracenia.Guarantees.V02
open Library Library.Text Library.Dynamic Source Source.TimeNotation Source.PostFormat Source.V2Wrapper Source.Export

/-! ## The three fields -/

section Fields
variable {pubTime baseUrl relPath s : Str}

/-- A time with the letter `T` after the date and nowhere else. -/
def Stamp (s : Str) : Prop :=
  ∃ date rest, s = date ++ 'T' :: rest ∧ date.length = 8 ∧ 'T' ∉ date ∧ 'T' ∉ rest ∧ rest ≠ []

theorem escape_plain_iff : escape relPath = relPath ↔ ' ' ∉ relPath ∧ '#' ∉ relPath := by
  unfold escape
  have longer : 1 < "%20".toList.length := by decide
  have longer' : 1 < "%23".toList.length := by decide
  constructor
  · intro same
    have first := replaceAll_char_length_le ' ' longer.le relPath
    have second := replaceAll_char_length_le '#' longer'.le (replaceAll [' '] "%20".toList relPath)
    rw [same] at second
    have space : ' ' ∉ relPath := by
      intro member
      have grown := replaceAll_char_length_lt ' ' longer member
      omega
    rw [replaceAll_char_plain ' ' space] at same
    exact ⟨space, (replaceAll_char_eq_self_iff '#' longer' relPath).mp same⟩
  · rintro ⟨space, mark⟩
    rw [replaceAll_char_plain ' ' space, replaceAll_char_plain '#' mark]

theorem escape_no_space : ' ' ∉ escape relPath := by
  unfold escape
  intro member
  rcases mem_replaceAll_char '#' member with absurd | ⟨member, -⟩
  · simp at absurd
  · rcases mem_replaceAll_char ' ' member with absurd | ⟨-, other⟩
    · simp at absurd
    · exact other rfl

theorem takeWhile_eq_self_of_length {c : Char} (whole : s.length ≤ (s.takeWhile (· ≠ c)).length) : c ∉ s := by
  have same := (List.takeWhile_prefix (fun d => decide (d ≠ c)) (l := s)).eq_of_length_le whole
  intro member
  have other := List.mem_takeWhile_imp (same.symm ▸ member : c ∈ s.takeWhile (· ≠ c))
  simp at other

/-- Reading the base URL back never makes it longer. -/
theorem unescape_eq_iff {y : Str} (shorter : y.length ≤ baseUrl.length) :
    replaceAll "%23".toList ['#'] (replaceAll "%20".toList [' '] y) = baseUrl ↔
      y = baseUrl ∧ occurs "%20".toList baseUrl = false ∧ occurs "%23".toList baseUrl = false := by
  have nonempty : "%20".toList ≠ [] := by decide
  have nonempty' : "%23".toList ≠ [] := by decide
  have less : [' '].length < "%20".toList.length := by decide
  have less' : ['#'].length < "%23".toList.length := by decide
  constructor
  · intro same
    have first := replaceAll_length_le nonempty less (s := y)
    have second := replaceAll_length_le nonempty' less' (s := replaceAll "%20".toList [' '] y)
    rw [same] at second
    have plain : occurs "%20".toList y = false := by
      by_contra occurs_
      have shrunk := replaceAll_length_lt nonempty less (Bool.eq_true_of_not_eq_false occurs_)
      omega
    rw [replaceAll_of_not_occurs plain] at same
    have plain' : occurs "%23".toList y = false := by
      by_contra occurs_
      have shrunk := replaceAll_length_lt nonempty' less' (Bool.eq_true_of_not_eq_false occurs_)
      rw [same] at shrunk
      omega
    rw [replaceAll_of_not_occurs plain'] at same
    exact ⟨same, same ▸ plain, same ▸ plain'⟩
  · rintro ⟨rfl, plain, plain'⟩
    rw [replaceAll_of_not_occurs plain, replaceAll_of_not_occurs plain']

theorem filter_T (s : Str) : replaceAll ['T'] [] s = s.filter (· ≠ 'T') := replaceAll_char_nil 'T' s

/-- A text without the letter gets one after the date. -/
theorem stamped (plain : 'T' ∉ s) (long : 8 < s.length) :
    timev2tov3str (.str s) = .ok (.str (s.take 8 ++ 'T' :: s.drop 8)) := by
  rw [timev2tov3str_ok long, if_neg]
  exact fun here => plain (List.mem_of_getElem? here)

theorem filter_plain {a : Str} (plain : 'T' ∉ a) : a.filter (· ≠ 'T') = a := by
  refine List.filter_eq_self.mpr fun c member => decide_eq_true ?_
  rintro rfl
  exact plain member

theorem filter_stamped {a b : Str} (plain : 'T' ∉ a) (plain' : 'T' ∉ b) : (a ++ 'T' :: b).filter (· ≠ 'T') = a ++ b := by
  rw [List.filter_append, List.filter_cons_of_neg (by simp), filter_plain plain, filter_plain plain']

/-- A time is read back exactly if it is a stamp. -/
theorem stamp_iff : timev2tov3str (.str (replaceAll ['T'] [] s)) = .ok (.str s) ↔ Stamp s := by
  rw [filter_T]
  have plain : 'T' ∉ s.filter (· ≠ 'T') := fun member => by simpa using List.of_mem_filter member
  constructor
  · intro read
    have long := timev2tov3str_ok_iff.mp ⟨_, read⟩
    have same := Value.str.inj (Except.ok.inj (read.symm.trans (stamped plain long)))
    refine ⟨_, _, same, by rw [List.length_take]; omega, fun member => plain (List.mem_of_mem_take member),
      fun member => plain (List.mem_of_mem_drop member), fun empty => ?_⟩
    have short := congrArg List.length empty
    rw [List.length_drop, List.length_nil] at short
    omega
  · rintro ⟨date, rest, rfl, eight, noDate, noRest, some_⟩
    have pos := List.length_pos_iff.mpr some_
    have without : 'T' ∉ date ++ rest := fun member => (List.mem_append.mp member).elim noDate noRest
    rw [filter_stamped noDate noRest, stamped without (by rw [List.length_append]; omega), ← eight,
      List.take_left, List.drop_left]

/-- The first piece of the notice is read as the time exactly if it is a stamp without a space. -/
theorem pubTime_iff :
    timev2tov3str (.str ((replaceAll ['T'] [] pubTime).takeWhile (· ≠ ' '))) = .ok (.str pubTime) ↔
      Stamp pubTime ∧ ' ' ∉ pubTime := by
  have space : ' ' ∉ replaceAll ['T'] [] pubTime ↔ ' ' ∉ pubTime := by
    rw [filter_T, List.mem_filter]
    simp
  constructor
  · intro read
    have plain : 'T' ∉ (replaceAll ['T'] [] pubTime).takeWhile (· ≠ ' ') := by
      intro member
      have other := mem_replaceAll_char 'T' ((List.takeWhile_sublist _).mem member)
      simp at other
    have long := timev2tov3str_ok_iff.mp ⟨_, read⟩
    have same := Value.str.inj (Except.ok.inj (read.symm.trans (stamped plain long)))
    have whole : replaceAll ['T'] [] pubTime = (replaceAll ['T'] [] pubTime).takeWhile (· ≠ ' ') := by
      conv_lhs => rw [same, filter_T, filter_stamped (fun member => plain (List.mem_of_mem_take member))
        (fun member => plain (List.mem_of_mem_drop member)), List.take_append_drop]
    refine ⟨stamp_iff.mp (whole ▸ read), space.mp (takeWhile_eq_self_of_length ?_)⟩
    exact (congrArg List.length whole).le
  · rintro ⟨stamp, plain⟩
    have whole : (replaceAll ['T'] [] pubTime).takeWhile (· ≠ ' ') = replaceAll ['T'] [] pubTime := by
      refine List.takeWhile_eq_self_iff.mpr fun c member => decide_eq_true ?_
      rintro rfl
      exact space.mpr plain member
    rw [whole]
    exact stamp_iff.mpr stamp

/-- The notice has three pieces at least: the second is the base URL up to a space where the time
has none, and the third the path where neither has one. -/
theorem notice_fields (pubTime baseUrl relPath : Str) :
    ∃ y z rest, split [' '] (notice pubTime baseUrl relPath) =
        (replaceAll ['T'] [] pubTime).takeWhile (· ≠ ' ') :: y :: z :: rest ∧
      (' ' ∉ replaceAll ['T'] [] pubTime → y = baseUrl.takeWhile (· ≠ ' ') ∧ (' ' ∉ baseUrl → z = escape relPath)) := by
  unfold notice
  obtain ⟨later, first⟩ := split_head ' ' (replaceAll ['T'] [] pubTime)
  obtain ⟨later', second⟩ := split_head ' ' baseUrl
  rw [split_concat, split_concat, first, second, split_plain ' ' escape_no_space]
  have alone : ' ' ∉ replaceAll ['T'] [] pubTime → later = [] := fun plain => by
    rw [split_plain ' ' plain] at first
    exact (List.cons.inj first).2.symm
  have alone' : ' ' ∉ baseUrl → later' = [] := fun plain => by
    rw [split_plain ' ' plain] at second
    exact (List.cons.inj second).2.symm
  cases later with
  | nil =>
    cases later' with
    | nil => exact ⟨_, _, _, rfl, fun _ => ⟨rfl, fun _ => rfl⟩⟩
    | cons z later' => exact ⟨_, _, _, rfl, fun _ => ⟨rfl, fun plain => nomatch alone' plain⟩⟩
  | cons y later =>
    cases later with
    | nil => exact ⟨_, _, _, rfl, fun plain => nomatch alone plain⟩
    | cons z later => exact ⟨_, _, _, rfl, fun plain => nomatch alone plain⟩

end Fields

/-! ## The message -/

section Message
variable {lib : Standard} {digests : Digests} {p : Publisher} {msg : Message} {body : Str} {headers : Dict Value}

/-- The fields that say which file is meant are read back. -/
def AddressKept (msg : Message) (result : Except Fault (Option Message)) : Prop :=
  ∃ after, result = .ok (some after) ∧ after.get "pubTime" = msg.get "pubTime" ∧
    after.get "baseUrl" = msg.get "baseUrl" ∧ after.get "relPath" = msg.get "relPath"

/-- There is nothing to escape in the address. -/
structure PlainAddress (msg : Message) : Prop where
  pubTime : ∀ s, msg.get "pubTime" = some (.str s) → Stamp s ∧ ' ' ∉ s
  baseUrl : ∀ s, msg.get "baseUrl" = some (.str s) →
    ' ' ∉ s ∧ occurs "%20".toList s = false ∧ occurs "%23".toList s = false
  relPath : ∀ s, msg.get "relPath" = some (.str s) → ' ' ∉ s ∧ '#' ∉ s

/-- The other fields do not keep the notice from being read: without the letter a time is longer
than a date, or there is a field `t`, and the fields to be deleted are a set. -/
structure Receivable (msg : Message) : Prop where
  times : ∀ field ∈ ["atime", "mtime"], ∀ s, msg.get field = some (.str s) →
    8 < (replaceAll ['T'] [] s).length ∨ (msg.get "t").isSome = true
  deleteOnPost : ∀ v, msg.get "_deleteOnPost" = some v → ∃ members, v = .set members

/-- A header that is neither set nor told otherwise is the field of the message. -/
theorem header_frame {after : Message} {topic : Value} {key : String}
    (frame : after.get key = msg.get key) (told : key ∉ V02.told) (other : key ≠ "topic") :
    (Dict.set (V02.told.foldl Dict.del after) "topic" topic).get key = msg.get key := by
  rw [Dict.get_set_ne _ other, Dict.get_del_all _ _ told, frame]

/-- A header that has arrived. -/
theorem arrived_header {relPath : Str} {after : Message} {topic t : Value} {y z : Str} {key : String} (distinct : msg.Distinct)
    (headed : v2Headers digests relPath msg = .ok after) (told : key ∉ V02.told) (other : key ≠ "topic")
    (new : key ∉ announced) :
    (arrived (Dict.set (V02.told.foldl Dict.del after) "topic" topic) t y z).get key =
      (after.get key).or ((Message.new "v02").get key) := by
  have kept : (Dict.set (V02.told.foldl Dict.del after) "topic" topic).Distinct :=
    ((v2Headers_distinct headed distinct).del_all _).set
  rw [arrived_frame kept new, Dict.get_set_ne _ other, Dict.get_del_all _ _ told]

/-- The message that has arrived can be settled exactly if the message could be received. -/
theorem receivable_iff {relPath : Str} {after : Message} (topic : Value) (distinct : msg.Distinct)
    (headed : v2Headers digests relPath msg = .ok after) (t : Value) (y z : Str) :
    Receivable msg ↔ ∃ m settled, Message.deleteOnPost
        (arrived (Dict.set (V02.told.foldl Dict.del after) "topic" topic) t y z) ["subtopic"] = .ok m ∧
      settle m = .ok (some settled) := by
  have deletable : (∃ m, Message.deleteOnPost
        (arrived (Dict.set (V02.told.foldl Dict.del after) "topic" topic) t y z) ["subtopic"] = .ok m) ↔
      ∀ v, msg.get "_deleteOnPost" = some v → ∃ members, v = .set members := by
    rw [Guarantees.Message.deleteOnPost_ok_iff, arrived_header distinct headed (by decide) (by decide) (by decide),
      v2Headers_frame headed (by decide)]
    cases msg.get "_deleteOnPost" with
    | none =>
      refine ⟨fun _ v is => ?_, fun _ => ⟨_, rfl⟩⟩
      cases is
    | some v =>
      constructor
      · rintro ⟨members, same⟩ w is
        exact ⟨members, (Option.some.inj is).symm.trans (Option.some.inj same)⟩
      · intro all
        obtain ⟨members, same⟩ := all v rfl
        exact ⟨members, congrArg some same⟩
  have legible {m : Message} (deleted : Message.deleteOnPost
      (arrived (Dict.set (V02.told.foldl Dict.del after) "topic" topic) t y z) ["subtopic"] = .ok m)
      {field : String} (time : field ∈ ["atime", "mtime"]) : Legible m field ↔
        ∀ s, msg.get field = some (.str s) → 8 < (replaceAll ['T'] [] s).length ∨ (msg.get "t").isSome = true := by
    have fieldOf : m.get field = after.get field := by
      simp only [List.mem_cons, List.not_mem_nil, or_false] at time
      rcases time with rfl | rfl <;>
      rw [deleteOnPost_frame deleted (by decide), arrived_header distinct headed (by decide) (by decide) (by decide)] <;>
      exact Option.or_none
    have tOf : m.get "t" = msg.get "t" := by
      rw [deleteOnPost_frame deleted (by decide), arrived_header distinct headed (by decide) (by decide) (by decide),
        v2Headers_frame headed (by decide)]
      exact Option.or_none
    unfold Legible
    rw [fieldOf, tOf]
    obtain ⟨absent, absent'⟩ | ⟨s, here, here'⟩ := v2Headers_time headed time
    · rw [absent, absent']
      constructor
      all_goals
        intro _ s is
        cases is
    · rw [here, here']
      constructor
      · intro all s' same
        obtain rfl := Value.str.inj (Option.some.inj same)
        exact (all _ rfl).imp_left timev2tov3str_ok_iff.mp
      · intro all t' same
        obtain rfl := Option.some.inj same
        exact (all s rfl).imp_left timev2tov3str_ok_iff.mpr
  constructor
  · rintro ⟨times, deleted⟩
    obtain ⟨m, done⟩ := deletable.mpr deleted
    obtain ⟨settled, settles⟩ := settle_ok_iff.mpr
      ⟨(legible done (by decide)).mpr (times _ (by decide)), (legible done (by decide)).mpr (times _ (by decide))⟩
    exact ⟨m, settled, done, settles⟩
  · rintro ⟨m, settled, done, settles⟩
    obtain ⟨atime, mtime⟩ := settle_ok_iff.mp ⟨settled, settles⟩
    refine ⟨fun field time => ?_, deletable.mp ⟨m, done⟩⟩
    have this : Legible m field := by
      simp only [List.mem_cons, List.not_mem_nil, or_false] at time
      rcases time with rfl | rfl
      · exact atime
      · exact mtime
    exact (legible done time).mp this

theorem plain_of_kept (distinct : msg.Distinct) (exported : V02.exportMine lib digests p msg = .ok (body, headers))
    (kept : AddressKept msg (V02.importMine body (some headers))) : PlainAddress msg ∧ Receivable msg := by
  obtain ⟨pubTime, baseUrl, relPath, herePub, hereBase, herePath, rfl, after, topic, headed, rfl⟩ := export_ok exported
  obtain ⟨y, z, rest, fields, pieces⟩ := notice_fields pubTime baseUrl relPath
  rw [importMine_eq fields] at kept
  obtain ⟨result, done, keptPub, keptBase, keptPath⟩ := kept
  obtain ⟨t, read, done⟩ := bind_ok_iff.mp done
  obtain ⟨m, deleted, done⟩ := bind_ok_iff.mp done
  refine ⟨?_, (receivable_iff topic distinct headed t y z).mpr ⟨m, result, deleted, done⟩⟩
  obtain ⟨getPub, getBase, getPath⟩ :=
    arrived_address (Dict.set (V02.told.foldl Dict.del after) "topic" topic) t y z
  rw [settle_frame done (by decide), deleteOnPost_frame deleted (by decide), getPub, herePub] at keptPub
  rw [settle_frame done (by decide), deleteOnPost_frame deleted (by decide), getBase, hereBase] at keptBase
  rw [settle_frame done (by decide), deleteOnPost_frame deleted (by decide), getPath, herePath] at keptPath
  rw [Option.some.inj keptPub] at read
  obtain ⟨stamp, noSpace⟩ := pubTime_iff.mp read
  have plain : ' ' ∉ replaceAll ['T'] [] pubTime := fun member =>
    (mem_replaceAll_char 'T' member).elim nofun fun inside => noSpace inside.1
  obtain ⟨second, third⟩ := pieces plain
  have shorter : y.length ≤ baseUrl.length := second ▸ (List.takeWhile_sublist _).length_le
  obtain ⟨whole, noSpaceMark, noHashMark⟩ := (unescape_eq_iff shorter).mp (Value.str.inj (Option.some.inj keptBase))
  have noSpaceBase : ' ' ∉ baseUrl := takeWhile_eq_self_of_length (by rw [← second, whole])
  have path : escape relPath = relPath := (third noSpaceBase).symm.trans (Value.str.inj (Option.some.inj keptPath))
  refine ⟨fun s is => ?_, fun s is => ?_, fun s is => ?_⟩
  · obtain rfl := Value.str.inj (Option.some.inj (herePub.symm.trans is))
    exact ⟨stamp, noSpace⟩
  · obtain rfl := Value.str.inj (Option.some.inj (hereBase.symm.trans is))
    exact ⟨noSpaceBase, noSpaceMark, noHashMark⟩
  · obtain rfl := Value.str.inj (Option.some.inj (herePath.symm.trans is))
    exact escape_plain_iff.mp path

theorem kept_of_plain (distinct : msg.Distinct) (exported : V02.exportMine lib digests p msg = .ok (body, headers))
    (plain : PlainAddress msg) (received : Receivable msg) : AddressKept msg (V02.importMine body (some headers)) := by
  obtain ⟨pubTime, baseUrl, relPath, herePub, hereBase, herePath, rfl, after, topic, headed, rfl⟩ := export_ok exported
  obtain ⟨y, z, rest, fields, pieces⟩ := notice_fields pubTime baseUrl relPath
  rw [importMine_eq fields]
  obtain ⟨stamp, noSpace⟩ := plain.pubTime pubTime herePub
  obtain ⟨noSpaceBase, noSpaceMark, noHashMark⟩ := plain.baseUrl baseUrl hereBase
  obtain ⟨m, result, deleted, done⟩ := (receivable_iff topic distinct headed (.str pubTime) y z).mp received
  have noSpace' : ' ' ∉ replaceAll ['T'] [] pubTime := fun member =>
    (mem_replaceAll_char 'T' member).elim nofun fun inside => noSpace inside.1
  obtain ⟨second, third⟩ := pieces noSpace'
  have whole : y = baseUrl := by
    rw [second]
    refine List.takeWhile_eq_self_iff.mpr fun c member => decide_eq_true ?_
    rintro rfl
    exact noSpaceBase member
  refine ⟨result, bind_ok_iff.mpr ⟨_, pubTime_iff.mpr ⟨stamp, noSpace⟩, bind_ok_iff.mpr ⟨m, deleted, done⟩⟩, ?_, ?_, ?_⟩
  all_goals rw [settle_frame done (by decide), deleteOnPost_frame deleted (by decide)]
  · rw [(arrived_address _ _ y z).1, herePub]
  · rw [(arrived_address _ _ y z).2.1, hereBase, (unescape_eq_iff (congrArg List.length whole).le).mpr ⟨whole, noSpaceMark, noHashMark⟩]
  · rw [(arrived_address _ _ y z).2.2, herePath, third noSpaceBase, escape_plain_iff.mpr (plain.relPath relPath herePath)]

/-- In every message that can be exported the address is read back exactly if there is nothing
to escape in it, where the other fields can be received. -/
theorem address_iff (distinct : msg.Distinct) (exported : V02.exportMine lib digests p msg = .ok (body, headers)) :
    AddressKept msg (V02.importMine body (some headers)) ↔ PlainAddress msg ∧ Receivable msg :=
  ⟨plain_of_kept distinct exported, fun both => kept_of_plain distinct exported both.1 both.2⟩

end Message

/-! ## A path with a space, and one without -/

section Example

/-- URLs are read as they should be below `https://host`. -/
def urls : Standard where
  loads _ := none
  urlparse url := .ok ⟨"https".toList, "host".toList, url.drop "https://host".length⟩
  str _ := []
  letters _ := false

def noDigests : Digests := ⟨fun _ => [], fun _ => []⟩

def publisher : Publisher := ⟨"amqps".toList, ["xs_pump".toList], 0, some ["v02".toList, "post".toList], none⟩

def spaced (relPath : Str) : Message :=
  [("_format", .str "v03".toList), ("pubTime", .str "20250101T120000.5".toList),
    ("baseUrl", .str "https://host/".toList), ("relPath", .str relPath),
    ("identity", .dict [("method", .str "random".toList), ("value", .str "7".toList)])]

theorem spaced_distinct (relPath : Str) : (spaced relPath).Distinct := by
  show ["_format", "pubTime", "baseUrl", "relPath", "identity"].Nodup
  decide

theorem spaced_exported : ∃ out, V02.exportMine urls noDigests publisher (spaced "data/a b".toList) = .ok out :=
  ⟨_, rfl⟩

/-- The path is announced as it is on the server, and arrives with its space escaped. -/
theorem path_escaped : ¬ ∀ (lib : Standard) (digests : Digests) (p : Publisher) (msg : Message) (body : Str)
    (headers : Dict Value), msg.Distinct →
    (∃ s, msg.get "pubTime" = some (.str s) ∧ TimeNotation.timeValidate lib.letters s = true) →
    V02.exportMine lib digests p msg = .ok (body, headers) → AddressKept msg (V02.importMine body (some headers)) := by
  intro always
  obtain ⟨⟨body, headers⟩, exported⟩ := spaced_exported
  have kept := always _ _ _ _ body headers (spaced_distinct _) ⟨_, rfl, by decide⟩ exported
  exact absurd ((plain_of_kept (spaced_distinct _) exported kept).1.relPath _ rfl).1 (by decide)

theorem plain_path_kept : ∃ out, V02.exportMine urls noDigests publisher (spaced "data/a".toList) = .ok out ∧
    AddressKept (spaced "data/a".toList) (V02.importMine out.1 (some out.2)) := by
  obtain ⟨out, exported⟩ : ∃ out, V02.exportMine urls noDigests publisher (spaced "data/a".toList) = .ok out := ⟨_, rfl⟩
  refine ⟨out, exported, (address_iff (spaced_distinct _) exported).mpr
    ⟨⟨fun s is => ?_, fun s is => ?_, fun s is => ?_⟩, ?_, nofun⟩⟩
  · obtain rfl : "20250101T120000.5".toList = s := Value.str.inj (Option.some.inj is)
    exact ⟨⟨"20250101".toList, "120000.5".toList, rfl, rfl, by decide, by decide, by decide⟩, by decide⟩
  · obtain rfl : "https://host/".toList = s := Value.str.inj (Option.some.inj is)
    exact ⟨by decide, by decide, by decide⟩
  · obtain rfl : "data/a".toList = s := Value.str.inj (Option.some.inj is)
    exact ⟨by decide, by decide⟩
  · intro field time s is
    simp only [List.mem_cons, List.not_mem_nil, or_false] at time
    rcases time with rfl | rfl <;> cases is

end Example
end Sarracenia.Guarantees.V02
