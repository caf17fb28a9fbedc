import Sarracenia.Guarantees.V02.Attributes
import Sarracenia.Source.Numbered

/-!
# A notice of version 3 there and back

What is read of a notice is what was posted, but for a size that was a text.
-/
namespace Sarracenia.Guarantees.V03
open Library Library.Text Library.Dynamic Source Source.TimeNotation Source.PostFormat Source.Export Source.Numbered

/-! ## Posting -/

section Post
variable {lib : Standard} {dumps : Dict Field → Except Fault Str} {p : Publisher} {msg body : Dict Field} {key : String}

/-- The marked fields, the mark among them. -/
def marks (msg : Dict Field) : List String :=
  (msg.get "_deleteOnPost").elim [] fun f => "_deleteOnPost" :: ((marked f.written).toOption.getD [])

/-- What is posted of a field. -/
def kept (msg : Dict Field) (key : String) : Option Field := if key ∈ marks msg then none else msg.get key

theorem posted_get (ok : posted msg = .ok body) : body.get key = kept msg key := by
  unfold posted at ok
  unfold kept marks
  cases here : msg.get "_deleteOnPost" with
  | none =>
    rw [here] at ok
    cases ok
    exact (if_neg List.not_mem_nil).symm
  | some f =>
    rw [here] at ok
    obtain ⟨names, read, ok⟩ := bind_ok_iff.mp ok
    dsimp only at ok
    split at ok
    · cases ok
      have all : (marked f.written).toOption.getD [] = names := by rw [read]; rfl
      rw [Option.elim_some, all]
      by_cases same : key = "_deleteOnPost"
      · rw [if_pos (same ▸ List.mem_cons_self), same, Dict.get_del_self]
      · rw [Dict.get_del_ne _ same]
        by_cases named : key ∈ names
        · rw [Dict.get_del_all_mem names _ named, if_pos (List.mem_cons_of_mem _ named)]
        · rw [Dict.get_del_all names _ named, if_neg (List.not_mem_cons_of_ne_of_not_mem same named)]
    · cases ok

theorem posted_distinct (ok : posted msg = .ok body) (distinct : msg.Distinct) : body.Distinct := by
  unfold posted at ok
  split at ok
  · cases ok
    exact distinct
  · obtain ⟨names, -, ok⟩ := bind_ok_iff.mp ok
    dsimp only at ok
    split at ok
    · cases ok
      exact (distinct.del_all names).del
    · cases ok

theorem putNewMessage_ok {raw : Str} {headers : Dict Value} {content_type : Str}
    (ok : putNewMessage dumps p msg = .ok (raw, headers, content_type)) :
    ∃ body, posted msg = .ok body ∧ dumps body = .ok raw ∧ headers = [] ∧ content_type = V03.content_type := by
  unfold putNewMessage V03.exportMine at ok
  obtain ⟨body, copy, ok⟩ := bind_ok_iff.mp ok
  obtain ⟨⟨raw', headers'⟩, exported, ok⟩ := bind_ok_iff.mp ok
  obtain ⟨text, dumped, exported⟩ := bind_ok_iff.mp exported
  obtain ⟨topic, derived, exported⟩ := bind_ok_iff.mp exported
  cases exported
  obtain ⟨l, item, ok⟩ := bind_ok_iff.mp ok
  cases item
  obtain ⟨texts, -, ok⟩ := bind_ok_iff.mp ok
  cases ok
  exact ⟨body, copy, dumped, rfl, rfl⟩

end Post

/-! ## Reading -/

section Read
variable {lib : Standard} {body : Dict Field} {msg : Message} {raw : Str} {key : String}

/-- A message of the program: its keys are distinct, its blocks are a dictionary, the manifest of
which is keyed by numbers, and no other field has numbers for keys. Legacy keys and those of another
format are not in it. -/
structure Plain (msg : Dict Field) : Prop where
  distinct : msg.Distinct
  legacy : ∀ key ∈ ["parts", "integrity", "retPath", "version", "conformsTo"], msg.get key = none
  value : ∀ key ≠ "blocks", ∀ f, msg.get key = some f → ∃ v, f = .value v
  blocks : ∀ f, msg.get "blocks" = some f → ∃ before, Dict.get before "manifest" = none ∧
    (f = .value (.dict before) ∨ ∃ manifest after, f = .numbered before manifest after)

theorem written_get (body : Dict Field) (key : String) : (written body).get key = (body.get key).map Field.written := by
  induction body with
  | nil => rfl
  | cons field body ih =>
    obtain ⟨k, f⟩ := field
    change Dict.get ((k, f.written) :: written body) key = _
    rw [Dict.get_cons, Dict.get_cons, ih]
    split <;> rfl

theorem written_distinct (distinct : body.Distinct) : (written body).Distinct := by
  unfold Dict.Distinct written at *
  rwa [List.map_map]

theorem unnumbered_get (msg : Message) (key : String) : (unnumbered msg).get key = (msg.get key).map Field.value := by
  induction msg with
  | nil => rfl
  | cons field msg ih =>
    obtain ⟨k, v⟩ := field
    change Dict.get ((k, Field.value v) :: unnumbered msg) key = _
    rw [Dict.get_cons, Dict.get_cons, ih]
    split <;> rfl

/-- The numbers of a manifest are read back. -/
theorem numbers_written (manifest : Table Int Value) :
    V03.numbers (.dict (texts manifest)) = .ok manifest := by
  have each (entries : List (Int × Value)) (t : Table Int Value) :
      (entries.map fun block => (numberKey block.1, block.2)).foldlM (fun new_manifest entry => do
        return new_manifest.set (← int entry.1.toList) entry.2) t =
        (.ok (entries.foldl (fun t entry => t.set entry.1 entry.2) t) : Except Fault (Table Int Value)) := by
    induction entries generalizing t with
    | nil => rfl
    | cons block entries ih =>
      rw [List.map_cons, List.foldlM_cons, V02.int_number]
      exact ih _
  exact (each manifest.entries Table.empty).trans (congrArg Except.ok (Table.empty_update manifest))

/-! ### What the numbers add -/

section Refinement

theorem numberKey_inj {i j : Int} (same : numberKey i = numberKey j) : i = j := by
  have read := V02.int_number i
  rw [same, V02.int_number j] at read
  exact (Except.ok.inj read).symm

theorem texts_set (t : Table Int Value) (i : Int) (v : Value) :
    texts (t.set i v) = Dict.set (texts t) (numberKey i) v := by
  obtain ⟨entries, distinct⟩ := t
  change (Table.setEntries i v entries).map _ = Dict.set (entries.map _) (numberKey i) v
  clear distinct
  induction entries with
  | nil => rfl
  | cons entry entries ih =>
    obtain ⟨j, w⟩ := entry
    rw [List.map_cons, Dict.set, Table.setEntries]
    by_cases same : j = i
    · subst same
      rw [if_pos rfl, if_pos rfl, List.map_cons]
    · rw [if_neg same, if_neg fun also => same (numberKey_inj also), List.map_cons, ih]

theorem foldlM_texts {α : Type} {f : Dict Value → α → Except Fault (Dict Value)}
    {g : Table Int Value → α → Except Fault (Table Int Value)} (step : ∀ t a, f (texts t) a = (g t a).map texts)
    (entries : List α) (t : Table Int Value) : entries.foldlM f (texts t) = (entries.foldlM g t).map texts := by
  induction entries generalizing t with
  | nil => rfl
  | cons a entries ih =>
    rw [List.foldlM_cons, List.foldlM_cons, step]
    cases g t a with
    | error fault => rfl
    | ok u => exact ih u

/-- The manifest with texts for keys is that with numbers, written. -/
theorem manifest_eq (v : Value) : PostFormat.V03.manifest v = (V03.numbers v).map texts := by
  cases v with
  | dict entries =>
    refine foldlM_texts (fun t entry => ?_) entries Table.empty
    cases int entry.1.toList with
    | error fault => rfl
    | ok i => exact congrArg Except.ok (texts_set t i entry.2).symm
  | list vs =>
    refine foldlM_texts (fun t b => ?_) vs Table.empty
    cases index vs b with
    | error fault => rfl
    | ok v =>
      cases b with
      | int i => exact congrArg Except.ok (texts_set t i v).symm
      | bool b => exact congrArg Except.ok (texts_set t b.toNat v).symm
      | none | float | str | list | dict | set | matched => rfl
  | str s =>
    unfold PostFormat.V03.manifest V03.numbers
    dsimp only
    split <;> rfl
  | none | bool | int | float | set | matched => rfl

theorem written_unnumbered (msg : Message) : written (unnumbered msg) = msg := by
  unfold written unnumbered
  rw [List.map_map]
  exact List.map_id msg

theorem written_set (msg : Dict Field) (key : String) (f : Field) :
    written (msg.set key f) = Dict.set (written msg) key f.written := by
  induction msg with
  | nil => rfl
  | cons field msg ih =>
    obtain ⟨k, g⟩ := field
    change _ = Dict.set ((k, g.written) :: written msg) key f.written
    rw [Dict.set, Dict.set]
    split
    · rfl
    · exact congrArg (List.cons (k, g.written)) ih

theorem renumber_written (msg : Message) : (V03.renumber msg).map written = PostFormat.V03.blocks msg := by
  unfold V03.renumber PostFormat.V03.blocks
  cases here : msg.get "blocks" with
  | none => exact congrArg Except.ok (written_unnumbered msg)
  | some blocks =>
    dsimp only
    cases has : blocks.has "manifest" with
    | error fault => rfl
    | ok found =>
      cases found with
      | false => exact congrArg Except.ok (written_unnumbered msg)
      | true =>
        change (blocks.item "manifest" >>= _).map written = blocks.item "manifest" >>= _
        cases item : blocks.item "manifest" with
        | error fault => rfl
        | ok manifest =>
          change (V03.numbers manifest >>= _).map written = PostFormat.V03.manifest manifest >>= _
          rw [manifest_eq]
          cases V03.numbers manifest with
          | error fault => rfl
          | ok t =>
            cases blocks with
            | dict entries =>
              obtain ⟨before, after, rfl, absent⟩ := Dict.among (Dict.item_ok_iff.mp (show Dict.item entries "manifest" = .ok manifest from item))
              change Except.ok (written (Dict.set (unnumbered msg) "blocks"
                (.numbered (List.span _ _).1 t (List.span _ _).2.tail))) = Except.ok (Dict.set msg "blocks"
                (.dict (Dict.set _ "manifest" (.dict (texts t)))))
              rw [Dict.span_among absent, written_set, written_unnumbered, Dict.set_among absent]
              rfl
            | none | bool | int | float | str | list | set | matched => cases item

variable {lib : Standard} {payload : Str} {headers : Headers} {content_type : Option Str}

theorem importMine_written :
    (Numbered.V03.importMine lib payload).map (Option.map written) = PostFormat.V03.importMine lib payload := by
  have last (msg : Message) : Except.map (Option.map written) (do return some (← V03.renumber (← PostFormat.V03.parts msg))) =
      (do return some (← PostFormat.V03.blocks (← PostFormat.V03.parts msg)) : Except Fault (Option Message)) := by
    cases PostFormat.V03.parts msg with
    | error fault => rfl
    | ok msg =>
      change (V03.renumber msg >>= _).map _ = PostFormat.V03.blocks msg >>= _
      rw [← renumber_written]
      cases V03.renumber msg <;> rfl
  unfold Numbered.V03.importMine PostFormat.V03.importMine
  dsimp only
  cases lib.loads payload with
  | none => rfl
  | some json =>
    cases json with
    | none => exact last _
    | dict entries => exact last _
    | list vs =>
      dsimp only
      cases copyInto [] (.list vs) (Message.new "v03") with
      | error fault => rfl
      | ok msg => exact last _
    | str s =>
      dsimp only
      cases copyInto [] (.str s) (Message.new "v03") with
      | error fault => rfl
      | ok msg => exact last _
    | bool | int | float | set | matched => rfl

/-- What is read is what the formats read, with the numbers of a manifest told apart. -/
theorem importAny_written : (Numbered.importAny lib payload headers content_type).map (Option.map written) =
    PostFormat.importAny lib payload headers content_type := by
  have other (read : Except Fault (Option Message)) :
      Except.map (Option.map written) (do return (← read).map unnumbered) = read := by
    cases read with
    | error fault => rfl
    | ok msg =>
      cases msg with
      | none => rfl
      | some msg => exact congrArg (fun msg => Except.ok (some msg)) (written_unnumbered msg)
  unfold Numbered.importAny PostFormat.importAny
  cases Wis.mine lib payload with
  | error fault => rfl
  | ok wis =>
    cases wis with
    | true => exact other _
    | false =>
      change Except.map _ (Swim.mine headers >>= _) = Swim.mine headers >>= _
      cases Swim.mine headers with
      | error fault => rfl
      | ok swim =>
        cases swim with
        | true => exact other _
        | false =>
          change Except.map _ (if _ then _ else _) = if _ then _ else _
          split
          · exact importMine_written
          · change Except.map _ (PostFormat.V02.mine payload headers content_type >>= _) =
              PostFormat.V02.mine payload headers content_type >>= _
            cases PostFormat.V02.mine payload headers content_type with
            | error fault => rfl
            | ok v02 =>
              cases v02 with
              | true => exact other _
              | false => rfl

end Refinement

/-- A field of the importer's own. -/
def own (key : String) : Option Field := ((Message.new "v03").get key).map Field.value

/-- A size that is a text arrives as the number it is read as. -/
def sized : Option Field → Option Field
  | some (.value (.str t)) => (int t).toOption.map fun n => .value (.int n)
  | f => f

/-- A size that is a text is that of a number. -/
def Readable (f : Option Field) : Prop := ∀ t, f = some (.value (.str t)) → ∃ n, int t = .ok n

theorem renamed_absent {old new : String} (absent : msg.get old = none) : renamed old new msg = msg := by
  unfold renamed
  rw [absent]

section Import
variable (plain : Plain body) (loads : lib.loads raw = some (.dict (written body)))
include plain

/-- The fields that are read, with those of the importer where the notice has none. -/
def read (body : Dict Field) : Message := (written body).into (Message.new "v03")

theorem read_get (key : String) : (read body).get key = ((body.get key).map Field.written).or ((Message.new "v03").get key) := by
  unfold read
  rw [Dict.get_into (written_distinct plain.distinct), written_get]

theorem read_absent (fresh : key ∉ ["_format", "_deleteOnPost"]) (absent : body.get key = none) :
    (read body).get key = none := by
  simp only [List.mem_cons, List.not_mem_nil, or_false, not_or] at fresh
  rw [read_get plain, absent, show (Message.new "v03").get key = none from
    Dict.get_none_iff.mpr (by simp [Message.new, fresh])]
  rfl

/-- The size is the only field that the parts are read for. -/
theorem parts_read (readable : Readable (body.get "size")) : ∃ msg, PostFormat.V03.parts (read body) = .ok msg ∧
    (∀ key ≠ "size", msg.get key = (read body).get key) ∧ (msg.get "size").map Field.value = sized (body.get "size") := by
  have size : (read body).get "size" = (body.get "size").map Field.written := by
    rw [read_get plain]
    exact Option.or_none
  unfold PostFormat.V03.parts
  rw [read_absent plain (by decide) (plain.legacy "parts" (by decide)), size]
  cases here : body.get "size" with
  | none => exact ⟨_, rfl, fun _ _ => rfl, by rw [size, here]; rfl⟩
  | some f =>
    obtain ⟨v, rfl⟩ := plain.value "size" (by decide) f here
    cases v with
    | str t =>
      obtain ⟨n, isNumber⟩ := readable t here
      refine ⟨(read body).set "size" (.int n), ?_, fun key other => Dict.get_set_ne _ other _, ?_⟩
      · exact bind_ok_iff.mpr ⟨n, isNumber, rfl⟩
      · rw [Dict.get_set_self]
        unfold sized
        dsimp only
        rw [isNumber]
        rfl
    | none | bool | int | float | list | dict | set | matched =>
      exact ⟨_, rfl, fun _ _ => rfl, by rw [size, here]; rfl⟩

/-- The blocks have their numbers again, and the other fields are left alone. -/
theorem renumber_get {msg : Message} (others : ∀ key ≠ "size", msg.get key = (read body).get key) :
    ∃ result, V03.renumber msg = .ok result ∧ result.get "blocks" = body.get "blocks" ∧
      ∀ key ≠ "blocks", result.get key = (msg.get key).map Field.value := by
  have here : msg.get "blocks" = (body.get "blocks").map Field.written := by
    rw [others "blocks" (by decide), read_get plain]
    exact Option.or_none
  unfold V03.renumber
  rw [here]
  cases blocks : body.get "blocks" with
  | none => exact ⟨_, rfl, by rw [unnumbered_get, here, blocks]; rfl, fun key _ => unnumbered_get msg key⟩
  | some f =>
    obtain ⟨before, noManifest, rfl | ⟨manifest, after, rfl⟩⟩ := plain.blocks f blocks
    · refine ⟨unnumbered msg, ?_, by rw [unnumbered_get, here, blocks]; rfl, fun key _ => unnumbered_get msg key⟩
      have hasNone : Value.has "manifest" (.dict before) = .ok false := by
        unfold Value.has
        dsimp only
        rw [noManifest]
        rfl
      change (Value.has "manifest" (.dict before) >>= _) = _
      rw [hasNone]
      rfl
    · have found : Dict.get (before ++ ("manifest", .dict (texts manifest)) :: after) "manifest" =
          some (.dict (texts manifest)) := by
        rw [Dict.get_append, noManifest, Dict.get_cons, if_pos rfl]
        rfl
      refine ⟨Dict.set (unnumbered msg) "blocks" (.numbered before manifest after), ?_, Dict.get_set_self _ _ _,
        fun key other => (Dict.get_set_ne _ other _).trans (unnumbered_get msg key)⟩
      have has_ : Value.has "manifest" (Field.written (.numbered before manifest after)) = .ok true := by
        unfold Field.written Value.has
        dsimp only
        rw [found]
        rfl
      have item : Value.item "manifest" (Field.written (.numbered before manifest after)) = .ok (.dict (texts manifest)) := by
        unfold Field.written Value.item Dict.item
        dsimp only
        rw [found]
      change (Value.has "manifest" (Field.written (.numbered before manifest after)) >>= _) = _
      rw [has_]
      change (Value.item "manifest" (Field.written (.numbered before manifest after)) >>= _) = _
      rw [item]
      change (V03.numbers _ >>= _) = _
      rw [numbers_written]
      change Except.ok (Dict.set (unnumbered msg) "blocks" (Field.numbered (List.span _ _).1 manifest (List.span _ _).2.tail)) = _
      rw [Dict.span_among noManifest]
      rfl

include loads

/-- What is read of a notice in version 3. -/
theorem import_ok (readable : Readable (body.get "size")) : ∃ result, Numbered.V03.importMine lib raw = .ok (some result) ∧
    (∀ key ≠ "size", result.get key = (body.get key).or (own key)) ∧ result.get "size" = sized (body.get "size") := by
  obtain ⟨msg, parted, others, size⟩ := parts_read plain readable
  obtain ⟨result, renumbered, blocks, rest⟩ := renumber_get plain others
  have copied : copyInto [] (.dict (written body)) (Message.new "v03") = .ok (read body) := by
    have all : (written body).filter (fun entry => entry.1 ∉ ([] : List String)) = written body :=
      List.filter_eq_self.mpr fun _ _ => decide_eq_true List.not_mem_nil
    unfold copyInto
    dsimp only
    rw [all]
    rfl
  have noPath : renamed "retPath" "retrievePath" (read body) = read body :=
    renamed_absent (read_absent plain (by decide) (plain.legacy "retPath" (by decide)))
  have noIntegrity : renamed "integrity" "identity" (read body) = read body :=
    renamed_absent (read_absent plain (by decide) (plain.legacy "integrity" (by decide)))
  refine ⟨result, ?_, fun key other => ?_, (rest "size" (by decide)).trans size⟩
  · unfold Numbered.V03.importMine
    rw [loads]
    dsimp only
    rw [copied]
    dsimp only
    rw [noPath, noIntegrity]
    exact bind_ok_iff.mpr ⟨msg, parted, bind_ok_iff.mpr ⟨result, renumbered, rfl⟩⟩
  · by_cases same : key = "blocks"
    · subst same
      rw [blocks]
      exact Option.or_none.symm
    · rw [rest key same, others key other, read_get plain]
      unfold own
      cases here : body.get key with
      | none => rfl
      | some f =>
        obtain ⟨v, rfl⟩ := plain.value key same f here
        rfl

/-- No other format claims the notice. -/
theorem importAny_ok (readable : Readable (body.get "size")) :
    ∃ result, Numbered.importAny lib raw (some []) (some V03.content_type) = .ok (some result) ∧
      (∀ key ≠ "size", result.get key = (body.get key).or (own key)) ∧ result.get "size" = sized (body.get "size") := by
  obtain ⟨result, imported, rest⟩ := import_ok plain loads readable
  refine ⟨result, ?_, rest⟩
  have absent {key : String} (legacy : key ∈ ["parts", "integrity", "retPath", "version", "conformsTo"]) :
      Value.has key (.dict (written body)) = .ok false := by
    unfold Value.has
    dsimp only
    rw [written_get, plain.legacy key legacy]
    rfl
  have notWis : Wis.mine lib raw = .ok false := by
    unfold Wis.mine
    rw [loads]
    dsimp only
    rw [absent (by decide), absent (by decide)]
    rfl
  unfold Numbered.importAny
  rw [notWis]
  exact imported

end Import
end Read

/-! ## There and back -/

section Notice
variable {lib : Standard} {dumps : Dict Field → Except Fault Str} {p : Publisher} {msg body : Dict Field}
  {raw content_type : Str} {headers : Dict Value}

/-- The library gives back what it has written of a message, with texts for keys. -/
def GivesBack (lib : Standard) (dumps : Dict Field → Except Fault Str) (body : Dict Field) : Prop :=
  ∀ s, dumps body = .ok s → lib.loads s = some (.dict (written body))

theorem Plain.posted (plain : Plain msg) (copy : posted msg = .ok body) : Plain body where
  distinct := posted_distinct copy plain.distinct
  legacy key member := by
    rw [posted_get copy, kept, plain.legacy key member]
    exact ite_self none
  value key other f here := by
    rw [posted_get copy, kept] at here
    split at here
    · cases here
    · exact plain.value key other f here
  blocks f here := by
    rw [posted_get copy, kept] at here
    split at here
    · cases here
    · exact plain.blocks f here

end Notice

/-! ## A size that is a text, and the blocks of a file -/

section Example

/-- One text in JSON, and what it stands for. -/
def library (text : Str) (json : Message) : Standard where
  loads s := if s = text then some (.dict json) else none
  urlparse _ := .error .valueError
  str _ := []
  letters _ := false

theorem library_loads (text : Str) (json : Message) : (library text json).loads text = some (.dict json) := by
  unfold library
  exact if_pos rfl

theorem library_gives_back (text : Str) (body : Dict Field) :
    GivesBack (library text (written body)) (fun _ => .ok text) body := by
  intro s dumped
  cases dumped
  exact library_loads text (written body)

def publisher : Publisher := ⟨"amqps".toList, ["xs_pump".toList], 0, some ["v03".toList], none⟩

def message (fields : Dict Field) : Dict Field :=
  ("_format", .value (.str "v03".toList)) :: ("_deleteOnPost", .value (.set ["_format"])) :: fields

def textSize : Dict Field := [("relPath", .value (.str "data/a".toList)), ("size", .value (.str "5".toList))]

def textSizeJson : Str := "\x7b\"relPath\": \"data/a\", \"size\": \"5\"\x7d".toList

theorem field_mem {msg : Dict Field} {key : String} {f : Field} (here : msg.get key = some f) : (key, f) ∈ msg := by
  obtain ⟨before, after, rfl, -⟩ := Dict.among here
  exact List.mem_append_right before List.mem_cons_self

theorem textSize_plain : Plain (message textSize) where
  distinct := by
    show ["_format", "_deleteOnPost", "relPath", "size"].Nodup
    decide
  legacy := by decide
  value key _ f here := by
    have member := field_mem here
    simp only [message, textSize, List.mem_cons, List.not_mem_nil, or_false, Prod.mk.injEq] at member
    rcases member with ⟨-, rfl⟩ | ⟨-, rfl⟩ | ⟨-, rfl⟩ | ⟨-, rfl⟩ <;> exact ⟨_, rfl⟩
  blocks := nofun

def blocked : Dict Field :=
  [("relPath", .value (.str "data/a".toList)), ("size", .value (.int 7)),
    ("blocks", .numbered [("method", .str "inplace".toList), ("size", .int 5)]
      ⟨[(0, .dict [("size", .int 5)]), (1, .dict [("size", .int 2)])], by decide⟩ [])]

def blockedJson : Str :=
  "\x7b\"relPath\": \"data/a\", \"size\": 7, \"blocks\": ".toList ++
    "\x7b\"method\": \"inplace\", \"size\": 5, \"manifest\": \x7b\"0\": \x7b\"size\": 5\x7d, \"1\": \x7b\"size\": 2\x7d\x7d\x7d\x7d".toList

theorem blocked_plain : Plain (message blocked) where
  distinct := by
    show ["_format", "_deleteOnPost", "relPath", "size", "blocks"].Nodup
    decide
  legacy := by decide
  value key other f here := by
    have member := field_mem here
    simp only [message, blocked, List.mem_cons, List.not_mem_nil, or_false, Prod.mk.injEq] at member
    rcases member with ⟨-, rfl⟩ | ⟨-, rfl⟩ | ⟨-, rfl⟩ | ⟨-, rfl⟩ | ⟨same, -⟩
    all_goals first | exact ⟨_, rfl⟩ | exact absurd same other
  blocks f here := by
    cases here
    exact ⟨_, rfl, .inr ⟨_, _, rfl⟩⟩

end Example
end Sarracenia.Guarantees.V03
