import Sarracenia.Library.Keys
import Sarracenia.Library.Split
import Sarracenia.Source.Export

/-!
# Export and import in version 2, step by step

What each step does to the fields of a message, and which fields it leaves alone.
-/
namespace Sarracenia.Guarantees.V02
open Library Library.Text Library.Dynamic Source Source.TimeNotation Source.PostFormat Source.V2Wrapper Source.Export

/-! ## Export -/

section Export
variable {lib : Standard} {digests : Digests} {p : Publisher} {msg after : Message} {field key : String}

theorem text_ok {v : Value} {s : Str} (ok : text v = .ok s) : v = .str s := by
  cases v with
  | str t => exact congrArg Value.str (Except.ok.inj ok)
  | none | bool | int | float | list | dict | set | matched => cases ok

theorem asStr_ok {v : Value} {s : Str} (ok : v.asStr = .ok s) : v = .str s := by
  cases v with
  | str t => exact congrArg Value.str (Except.ok.inj ok)
  | none | bool | int | float | list | dict | set | matched => cases ok

theorem v2Time_ok (ok : v2Time field msg = .ok after) :
    msg.get field = none ∧ after = msg ∨
      ∃ t, msg.get field = some (.str t) ∧ after = msg.set field (.str (replaceAll ['T'] [] t)) := by
  unfold v2Time at ok
  split at ok
  · next absent => exact .inl ⟨absent, (Except.ok.inj ok).symm⟩
  · next v here =>
    obtain ⟨s, read, done⟩ := bind_ok_iff.mp ok
    obtain ⟨t, is, without⟩ := bind_ok_iff.mp read
    rw [text_ok is] at here
    exact .inr ⟨t, here, by rw [← Except.ok.inj done, ← Except.ok.inj without]⟩

theorem v2Time_frame (ok : v2Time field msg = .ok after) (other : key ≠ field) : after.get key = msg.get key := by
  obtain ⟨-, rfl⟩ | ⟨t, -, rfl⟩ := v2Time_ok ok
  · rfl
  · exact Dict.get_set_ne _ other _

theorem v2Size_frame (ok : v2Size msg = .ok after) (size : key ≠ "size") (parts : key ≠ "parts") :
    after.get key = msg.get key := by
  unfold v2Size at ok
  split at ok
  · cases ok
    rfl
  · obtain ⟨n, -, done⟩ := bind_ok_iff.mp ok
    cases done
    rw [Dict.get_set_ne _ parts, Dict.get_set_ne _ size]
  · obtain ⟨s, -, done⟩ := bind_ok_iff.mp ok
    cases done
    exact Dict.get_set_ne _ parts _

theorem v2Blocks_frame (ok : v2Blocks msg = .ok after) (parts : key ≠ "parts") : after.get key = msg.get key := by
  unfold v2Blocks at ok
  split at ok
  · cases ok
    rfl
  · obtain ⟨s, -, done⟩ := bind_ok_iff.mp ok
    cases done
    exact Dict.get_set_ne _ parts _

theorem rename_frame {fileOp : Value} (ok : rename msg fileOp = .ok after) (other : key ≠ "oldname") :
    after.get key = msg.get key := by
  obtain ⟨has, -, done⟩ := bind_ok_iff.mp ok
  split at done
  · obtain ⟨v, -, done⟩ := bind_ok_iff.mp done
    cases done
    exact Dict.get_set_ne _ other _
  · cases done
    rfl

theorem sumstr_frame {sumstr : Str} (ok : sumstrFromMessage digests msg = .ok (after, sumstr))
    (other : key ≠ "oldname") : after.get key = msg.get key := by
  unfold sumstrFromMessage at ok
  obtain ⟨plain, -, done⟩ := bind_ok_iff.mp ok
  split at done
  · cases done
    rfl
  · next fileOp here =>
    obtain ⟨renamed, named, done⟩ := bind_ok_iff.mp done
    obtain ⟨sum, -, done⟩ := bind_ok_iff.mp done
    cases done
    exact rename_frame named other

/-- The headers, one step after the other. -/
theorem v2Headers_ok {relPath : Str} (ok : v2Headers digests relPath msg = .ok after) :
    ∃ mtimed timed sized parted summed sumstr, v2Time "mtime" msg = .ok mtimed ∧ v2Time "atime" mtimed = .ok timed ∧
      v2Size timed = .ok sized ∧ v2Blocks sized = .ok parted ∧
      sumstrFromMessage digests (Dict.set parted "topic" (v2Topic relPath)) = .ok (summed, sumstr) ∧
      after = Dict.set summed "sum" (.str sumstr) := by
  unfold v2Headers at ok
  obtain ⟨mtimed, one, ok⟩ := bind_ok_iff.mp ok
  obtain ⟨timed, two, ok⟩ := bind_ok_iff.mp ok
  obtain ⟨sized, three, ok⟩ := bind_ok_iff.mp ok
  obtain ⟨parted, four, ok⟩ := bind_ok_iff.mp ok
  obtain ⟨⟨summed, sumstr⟩, five, ok⟩ := bind_ok_iff.mp ok
  exact ⟨mtimed, timed, sized, parted, summed, sumstr, one, two, three, four, five, (Except.ok.inj ok).symm⟩

/-- What the headers change. -/
def touched : List String := ["mtime", "atime", "size", "parts", "topic", "oldname", "sum"]

/-- The steps before the sum leave the other fields alone. -/
theorem unsummed_frame (relPath : Str) {mtimed timed sized parted : Message} (one : v2Time "mtime" msg = .ok mtimed)
    (two : v2Time "atime" mtimed = .ok timed) (three : v2Size timed = .ok sized) (four : v2Blocks sized = .ok parted)
    (other : key ∉ ["mtime", "atime", "size", "parts", "topic"]) :
    (Dict.set parted "topic" (v2Topic relPath)).get key = msg.get key := by
  simp only [List.mem_cons, List.not_mem_nil, or_false, not_or] at other
  obtain ⟨mtime, atime, size, parts, topic⟩ := other
  rw [Dict.get_set_ne _ topic, v2Blocks_frame four parts, v2Size_frame three size parts, v2Time_frame two atime,
    v2Time_frame one mtime]

theorem v2Headers_frame {relPath : Str} (ok : v2Headers digests relPath msg = .ok after) (other : key ∉ touched) :
    after.get key = msg.get key := by
  obtain ⟨mtimed, timed, sized, parted, summed, sumstr, one, two, three, four, five, rfl⟩ := v2Headers_ok ok
  simp only [touched, List.mem_cons, List.not_mem_nil, or_false, not_or] at other
  obtain ⟨mtime, atime, size, parts, topic, oldname, sum⟩ := other
  rw [Dict.get_set_ne _ sum, sumstr_frame five oldname, unsummed_frame relPath one two three four (by simp [*])]

theorem v2Headers_time {relPath : Str} (ok : v2Headers digests relPath msg = .ok after) (time : field ∈ ["atime", "mtime"]) :
    msg.get field = none ∧ after.get field = none ∨
      ∃ t, msg.get field = some (.str t) ∧ after.get field = some (.str (replaceAll ['T'] [] t)) := by
  obtain ⟨mtimed, timed, sized, parted, summed, sumstr, one, two, three, four, five, rfl⟩ := v2Headers_ok ok
  have last (key : String) (is : key = "atime" ∨ key = "mtime") :
      (Dict.set summed "sum" (.str sumstr)).get key = timed.get key := by
    rcases is with rfl | rfl <;>
    rw [Dict.get_set_ne _ (by decide), sumstr_frame five (by decide), Dict.get_set_ne _ (by decide),
      v2Blocks_frame four (by decide), v2Size_frame three (by decide) (by decide)]
  simp only [List.mem_cons, List.not_mem_nil, or_false] at time
  rw [last field time]
  rcases time with rfl | rfl
  · rw [← v2Time_frame one (show "atime" ≠ "mtime" by decide)]
    obtain ⟨absent, rfl⟩ | ⟨t, here, rfl⟩ := v2Time_ok two
    · exact .inl ⟨absent, absent⟩
    · exact .inr ⟨t, here, Dict.get_set_self _ _ _⟩
  · rw [v2Time_frame two (show "mtime" ≠ "atime" by decide)]
    obtain ⟨absent, rfl⟩ | ⟨t, here, rfl⟩ := v2Time_ok one
    · exact .inl ⟨absent, absent⟩
    · exact .inr ⟨t, here, Dict.get_set_self _ _ _⟩

theorem v2Time_distinct (ok : v2Time field msg = .ok after) (distinct : msg.Distinct) : after.Distinct := by
  obtain ⟨-, rfl⟩ | ⟨t, -, rfl⟩ := v2Time_ok ok
  · exact distinct
  · exact distinct.set

theorem v2Headers_distinct {relPath : Str} (ok : v2Headers digests relPath msg = .ok after) (distinct : msg.Distinct) :
    after.Distinct := by
  obtain ⟨mtimed, timed, sized, parted, summed, sumstr, one, two, three, four, five, rfl⟩ := v2Headers_ok ok
  have timed_ := v2Time_distinct two (v2Time_distinct one distinct)
  have sized_ : sized.Distinct := by
    unfold v2Size at three
    split at three
    · cases three
      exact timed_
    · obtain ⟨n, -, done⟩ := bind_ok_iff.mp three
      cases done
      exact timed_.set.set
    · obtain ⟨n, -, done⟩ := bind_ok_iff.mp three
      cases done
      exact timed_.set
  have parted_ : parted.Distinct := by
    unfold v2Blocks at four
    split at four
    · cases four
      exact sized_
    · obtain ⟨n, -, done⟩ := bind_ok_iff.mp four
      cases done
      exact sized_.set
  have summed_ : summed.Distinct := by
    unfold sumstrFromMessage at five
    obtain ⟨plain, -, done⟩ := bind_ok_iff.mp five
    split at done
    · cases done
      exact parted_.set
    · obtain ⟨renamed, named, done⟩ := bind_ok_iff.mp done
      obtain ⟨sum, -, done⟩ := bind_ok_iff.mp done
      cases done
      obtain ⟨has, -, done⟩ := bind_ok_iff.mp named
      split at done
      · obtain ⟨v, -, done⟩ := bind_ok_iff.mp done
        cases done
        exact parted_.set.set
      · cases done
        exact parted_.set
  exact summed_.set

/-- What it takes for a message to be exported, and what comes of it. -/
theorem export_iff {body : Str} {headers : Dict Value} : V02.exportMine lib digests p msg = .ok (body, headers) ↔
    ∃ pubTime baseUrl relPath, msg.get "pubTime" = some (.str pubTime) ∧ msg.get "baseUrl" = some (.str baseUrl) ∧
      msg.get "relPath" = some (.str relPath) ∧ newFile msg = .ok () ∧ (∃ url, lib.urlparse (baseUrl ++ relPath) = .ok url) ∧
      ∃ after topic, v2Headers digests relPath msg = .ok after ∧ topicDerive p after = .ok topic ∧
        body = notice pubTime baseUrl relPath ∧
        headers = Dict.set (V02.told.foldl Dict.del after) "topic" (.list topic) := by
  unfold V02.exportMine v2Message
  constructor
  · intro ok
    obtain ⟨⟨written, after⟩, made, ok⟩ := bind_ok_iff.mp ok
    obtain ⟨topic, derived, ok⟩ := bind_ok_iff.mp ok
    obtain ⟨v, here, made⟩ := bind_ok_iff.mp made
    obtain ⟨pubTime, isText, made⟩ := bind_ok_iff.mp made
    obtain ⟨w, hereBase, made⟩ := bind_ok_iff.mp made
    obtain ⟨baseUrl, isBase, made⟩ := bind_ok_iff.mp made
    obtain ⟨x, herePath, made⟩ := bind_ok_iff.mp made
    obtain ⟨relPath, isPath, made⟩ := bind_ok_iff.mp made
    obtain ⟨_, file, made⟩ := bind_ok_iff.mp made
    obtain ⟨url, parsed, made⟩ := bind_ok_iff.mp made
    obtain ⟨after', headed, made⟩ := bind_ok_iff.mp made
    obtain ⟨rfl, rfl⟩ := Prod.mk.inj (Except.ok.inj made)
    obtain ⟨rfl, rfl⟩ := Prod.mk.inj (Except.ok.inj ok)
    exact ⟨pubTime, baseUrl, relPath, text_ok isText ▸ Dict.item_ok_iff.mp here, asStr_ok isBase ▸ Dict.item_ok_iff.mp hereBase,
      asStr_ok isPath ▸ Dict.item_ok_iff.mp herePath, file, ⟨url, parsed⟩, after', topic, headed, derived, rfl, rfl⟩
  · rintro ⟨pubTime, baseUrl, relPath, here, hereBase, herePath, file, ⟨url, parsed⟩, after, topic, headed, derived, rfl, rfl⟩
    have item {key : String} {v : Value} (here : msg.get key = some v) : Dict.item msg key = .ok v := by
      unfold Dict.item
      rw [here]
    refine bind_ok_iff.mpr ⟨(notice pubTime baseUrl relPath, after), ?_, bind_ok_iff.mpr ⟨topic, derived, rfl⟩⟩
    refine bind_ok_iff.mpr ⟨_, item here, bind_ok_iff.mpr ⟨pubTime, rfl, ?_⟩⟩
    refine bind_ok_iff.mpr ⟨_, item hereBase, bind_ok_iff.mpr ⟨baseUrl, rfl, ?_⟩⟩
    refine bind_ok_iff.mpr ⟨_, item herePath, bind_ok_iff.mpr ⟨relPath, rfl, ?_⟩⟩
    refine bind_ok_iff.mpr ⟨(), file, bind_ok_iff.mpr ⟨url, parsed, bind_ok_iff.mpr ⟨after, headed, rfl⟩⟩⟩

/-- The notice and the headers of a message that can be exported. -/
theorem export_ok {body : Str} {headers : Dict Value} (ok : V02.exportMine lib digests p msg = .ok (body, headers)) :
    ∃ pubTime baseUrl relPath, msg.get "pubTime" = some (.str pubTime) ∧ msg.get "baseUrl" = some (.str baseUrl) ∧
      msg.get "relPath" = some (.str relPath) ∧ body = notice pubTime baseUrl relPath ∧
      ∃ after topic, v2Headers digests relPath msg = .ok after ∧
        headers = Dict.set (V02.told.foldl Dict.del after) "topic" topic := by
  obtain ⟨pubTime, baseUrl, relPath, here, hereBase, herePath, -, -, after, topic, headed, -, written, rest⟩ :=
    export_iff.mp ok
  exact ⟨pubTime, baseUrl, relPath, here, hereBase, herePath, written, after, .list topic, headed, rest⟩

end Export

/-! ## Import -/

section Import
variable {msg after : Message} {field key : String} {headers : Dict Value}

/-- The message once the notice is read. -/
def arrived (headers : Dict Value) (pubTime : Value) (baseUrl relPath : Str) : Message :=
  renamed "integrity" "identity"
    (Dict.set (Dict.set (Dict.set (Dict.set (Dict.set (headers.into (Message.new "v02")) "pubTime" pubTime)
      "baseUrl" (.str (replaceAll "%23".toList ['#'] (replaceAll "%20".toList [' '] baseUrl))))
      "relPath" (.str relPath)) "subtopic" (.list ((split ['/'] relPath).map .str)))
      "to_clusters" (.str "ALL".toList))

theorem importMine_eq {body pubTime baseUrl relPath : Str} {rest : List Str}
    (fields : split [' '] body = pubTime :: baseUrl :: relPath :: rest) :
    V02.importMine body (some headers) = timev2tov3str (.str pubTime) >>= fun t =>
      Message.deleteOnPost (arrived headers t baseUrl relPath) ["subtopic"] >>= fun m =>
        V02.time "atime" m >>= fun m => V02.time "mtime" m >>= fun m => .ok (some (V02.parts (V02.event m))) := by
  unfold V02.importMine
  dsimp only
  rw [fields]
  rfl

theorem renamed_frame {old new : String} (notOld : key ≠ old) (notNew : key ≠ new) :
    (renamed old new msg).get key = msg.get key := by
  unfold renamed
  split
  · rfl
  · rw [Dict.get_del_ne _ notOld, Dict.get_set_ne _ notNew]

theorem renamed_new {old new : String} (other : new ≠ old) :
    (renamed old new msg).get new = (msg.get old).or (msg.get new) := by
  unfold renamed
  cases msg.get old with
  | none => rfl
  | some v =>
    dsimp only
    rw [Dict.get_del_ne _ other, Dict.get_set_self]
    rfl

theorem deleteOnPost_frame {fields : List String} (ok : Message.deleteOnPost msg fields = .ok after)
    (other : key ≠ "_deleteOnPost") : after.get key = msg.get key := by
  unfold Message.deleteOnPost at ok
  obtain ⟨v, -, done⟩ := bind_ok_iff.mp ok
  cases v with
  | set members =>
    cases done
    exact Dict.get_set_ne _ other _
  | none | bool | int | float | str | list | dict | matched => cases done

theorem time_frame (ok : V02.time field msg = .ok after) (other : key ≠ field) : after.get key = msg.get key := by
  unfold V02.time at ok
  split at ok
  · cases ok
    rfl
  · split at ok
    · cases ok
      exact Dict.get_set_ne _ other _
    · cases here : msg.get "t" with
      | none =>
        rw [here] at ok
        cases ok
      | some t =>
        rw [here] at ok
        cases ok
        rfl

theorem time_ok_iff : (∃ after, V02.time field msg = .ok after) ↔
    ∀ t, msg.get field = some t → (∃ read, timev2tov3str t = .ok read) ∨ (msg.get "t").isSome = true := by
  unfold V02.time
  cases msg.get field with
  | none => exact ⟨fun _ => nofun, fun _ => ⟨msg, rfl⟩⟩
  | some t =>
    dsimp only
    cases read : timev2tov3str t with
    | ok t' => exact ⟨fun _ _ same => .inl ⟨t', Option.some.inj same ▸ read⟩, fun _ => ⟨_, rfl⟩⟩
    | error fault =>
      cases msg.get "t" with
      | none =>
        refine ⟨fun ⟨_, absurd⟩ => (nomatch absurd), fun all => ?_⟩
        obtain ⟨t', ok⟩ | there := all t rfl
        · rw [read] at ok
          cases ok
        · cases there
      | some other => exact ⟨fun _ _ _ => .inr rfl, fun _ => ⟨msg, rfl⟩⟩

theorem timev2tov3str_ok {s : Str} (long : 8 < s.length) :
    timev2tov3str (.str s) = .ok (.str (if s[8]? = some 'T' then s else s.take 8 ++ 'T' :: s.drop 8)) := by
  dsimp only [timev2tov3str]
  rw [if_neg (Nat.not_le.mpr long)]

theorem timev2tov3str_ok_iff {s : Str} : (∃ read, timev2tov3str (.str s) = .ok read) ↔ 8 < s.length := by
  refine ⟨fun ⟨read, ok⟩ => ?_, fun long => ⟨_, timev2tov3str_ok long⟩⟩
  dsimp only [timev2tov3str] at ok
  split at ok
  · cases ok
  · next long => exact Nat.not_le.mp long

theorem event_frame (sum : key ≠ "sum") (oldname : key ≠ "oldname") (fileOp : key ≠ "fileOp")
    (identity : key ≠ "identity") (link : key ≠ "link") : (V02.event msg).get key = msg.get key := by
  unfold V02.event
  dsimp only
  repeat' split
  all_goals simp only [Dict.get_set_ne _ fileOp, Dict.get_set_ne _ identity,
    Dict.get_del_ne _ sum, Dict.get_del_ne _ oldname, Dict.get_del_ne _ link]

theorem parts_frame (parts : key ≠ "parts") (size : key ≠ "size") : (V02.parts msg).get key = msg.get key := by
  unfold V02.parts
  split
  · split
    · split
      · exact Dict.get_del_ne _ parts
      · split
        · rfl
        · rw [Dict.get_del_ne _ parts, Dict.get_set_ne _ size]
    · rfl
  · rfl

/-- What the notice and the renaming of a legacy key set. -/
def announced : List String := ["pubTime", "baseUrl", "relPath", "subtopic", "to_clusters", "integrity", "identity"]

theorem arrived_frame (distinct : headers.Distinct) {pubTime : Value} {baseUrl relPath : Str} (other : key ∉ announced) :
    (arrived headers pubTime baseUrl relPath).get key = (headers.get key).or ((Message.new "v02").get key) := by
  simp only [announced, List.mem_cons, List.not_mem_nil, or_false, not_or] at other
  obtain ⟨one, two, three, four, five, six, seven⟩ := other
  unfold arrived
  rw [renamed_frame six seven, Dict.get_set_ne _ five, Dict.get_set_ne _ four, Dict.get_set_ne _ three,
    Dict.get_set_ne _ two, Dict.get_set_ne _ one, Dict.get_into distinct]

theorem arrived_address (headers : Dict Value) (pubTime : Value) (baseUrl relPath : Str) :
    (arrived headers pubTime baseUrl relPath).get "pubTime" = some pubTime ∧
      (arrived headers pubTime baseUrl relPath).get "baseUrl" =
        some (.str (replaceAll "%23".toList ['#'] (replaceAll "%20".toList [' '] baseUrl))) ∧
      (arrived headers pubTime baseUrl relPath).get "relPath" = some (.str relPath) := by
  unfold arrived
  refine ⟨?_, ?_, ?_⟩
  · rw [renamed_frame (by decide) (by decide), Dict.get_set_ne _ (by decide), Dict.get_set_ne _ (by decide),
      Dict.get_set_ne _ (by decide), Dict.get_set_ne _ (by decide), Dict.get_set_self]
  · rw [renamed_frame (by decide) (by decide), Dict.get_set_ne _ (by decide), Dict.get_set_ne _ (by decide),
      Dict.get_set_ne _ (by decide), Dict.get_set_self]
  · rw [renamed_frame (by decide) (by decide), Dict.get_set_ne _ (by decide), Dict.get_set_ne _ (by decide),
      Dict.get_set_self]

/-- A header that can be read as a time, unless its failure is passed over. -/
def Legible (headers : Dict Value) (field : String) : Prop :=
  ∀ t, headers.get field = some t → (∃ read, timev2tov3str t = .ok read) ∨ (headers.get "t").isSome = true

/-- The last steps of the import. -/
def settle (m : Message) : Except Fault (Option Message) :=
  V02.time "atime" m >>= fun m => V02.time "mtime" m >>= fun m => .ok (some (V02.parts (V02.event m)))

theorem settle_ok (ok : settle msg = .ok (some after)) :
    ∃ atimed mtimed, V02.time "atime" msg = .ok atimed ∧ V02.time "mtime" atimed = .ok mtimed ∧
      after = V02.parts (V02.event mtimed) := by
  obtain ⟨atimed, one, ok⟩ := bind_ok_iff.mp ok
  obtain ⟨mtimed, two, ok⟩ := bind_ok_iff.mp ok
  exact ⟨atimed, mtimed, one, two, (Option.some.inj (Except.ok.inj ok)).symm⟩

/-- What the last steps change. -/
def settledFields : List String := ["atime", "mtime", "sum", "oldname", "fileOp", "identity", "link", "parts", "size"]

theorem settle_frame (ok : settle msg = .ok (some after)) (other : key ∉ settledFields) : after.get key = msg.get key := by
  obtain ⟨atimed, mtimed, one, two, rfl⟩ := settle_ok ok
  simp only [settledFields, List.mem_cons, List.not_mem_nil, or_false, not_or] at other
  obtain ⟨atime, mtime, sum, oldname, fileOp, identity, link, parts, size⟩ := other
  rw [parts_frame parts size, event_frame sum oldname fileOp identity link, time_frame two mtime, time_frame one atime]

theorem settle_ok_iff : (∃ after, settle msg = .ok (some after)) ↔ Legible msg "atime" ∧ Legible msg "mtime" := by
  constructor
  · rintro ⟨after, ok⟩
    obtain ⟨atimed, mtimed, one, two, -⟩ := settle_ok ok
    refine ⟨time_ok_iff.mp ⟨_, one⟩, ?_⟩
    have later := time_ok_iff.mp ⟨_, two⟩
    rwa [time_frame one (by decide), time_frame one (by decide)] at later
  · rintro ⟨atime, mtime⟩
    obtain ⟨atimed, one⟩ := time_ok_iff.mpr atime
    have later : Legible atimed "mtime" := by
      unfold Legible
      rwa [time_frame one (by decide), time_frame one (by decide)]
    obtain ⟨mtimed, two⟩ := time_ok_iff.mpr later
    exact ⟨_, bind_ok_iff.mpr ⟨atimed, one, bind_ok_iff.mpr ⟨mtimed, two, rfl⟩⟩⟩

end Import
end Sarracenia.Guarantees.V02
