import Sarracenia.Guarantees.Filter.Conservation

/-!
# Which messages stop the mask loop

An exception of the loop ends the process with the batch unacknowledged. Validation on
reception asks for three fields and the shape of `pubTime`; the loop asks for more.

* what each partial operation needs: a report (`setReport_returns_iff`), a mark
  (`deleteOnPost_returns_iff`), a URL (`urlOf_returns_iff`, `urlToMatch_returns_iff`), a
  list of masks (`firstMatch_returns_iff`);
* the loop ends exactly when every message of the batch is tractable
  (`filter_immune_iff`);
* a validated message with an empty `baseUrl` stops it.
-/
namespace Sarracenia.Guarantees.Filter
open Library Library.Text Library.Dynamic Source Source.Config Source.Placement Source.Filter

section Returns
variable {α β : Type}

/-- The computation ends without an exception. -/
def Returns (x : Except Fault α) : Prop := ∃ v, x = .ok v

@[simp] theorem returns_ok (v : α) : Returns (Except.ok v : Except Fault α) := ⟨v, rfl⟩

@[simp] theorem not_returns_error (e : Fault) : ¬ Returns (Except.error e : Except Fault α) :=
  fun ⟨_, equal⟩ => by cases equal

theorem returns_bind {x : Except Fault α} {next : α → Except Fault β} :
    Returns (x >>= next) ↔ ∃ v, x = .ok v ∧ Returns (next v) := by
  constructor
  · rintro ⟨value, done⟩
    obtain ⟨v, first, second⟩ := bind_ok_iff.mp done
    exact ⟨v, first, value, second⟩
  · rintro ⟨v, first, value, second⟩
    exact ⟨value, bind_ok_iff.mpr ⟨v, first, second⟩⟩

@[simp] theorem returns_map {x : Except Fault α} {f : α → β} : Returns (x.map f) ↔ Returns x := by
  cases x <;> simp [Except.map]

@[simp] theorem returns_pure (v : α) : Returns (pure v : Except Fault α) := ⟨v, rfl⟩

theorem returns_const_bind {x : Except Fault α} {next : α → Except Fault β} {p : Prop}
    (rest : ∀ v, x = .ok v → (Returns (next v) ↔ p)) :
    Returns (x >>= next) ↔ Returns x ∧ p := by
  rw [returns_bind]
  constructor
  · rintro ⟨v, first, second⟩
    exact ⟨⟨v, first⟩, (rest v first).mp second⟩
  · rintro ⟨⟨v, first⟩, second⟩
    exact ⟨v, first, (rest v first).mpr second⟩

end Returns

section Fields

/-- The set of fields not to post is there. -/
def Markable (msg : Message) : Prop := ∃ members, msg.get "_deleteOnPost" = some (.set members)

/-- A report can be written: an earlier one has the fields that the log shows. -/
def Reportable (msg : Message) : Prop :=
  Markable msg ∧ ∀ report, msg.get "report" = some report →
    ∃ entries, report = .dict entries ∧ (Dict.get entries "code").isSome ∧
      (Dict.get entries "message").isSome

theorem deleteOnPost_returns_iff (msg : Message) (fields : List String) :
    Returns (msg.deleteOnPost fields) ↔ Markable msg :=
  Guarantees.Message.deleteOnPost_ok_iff msg fields

theorem asStr_returns_iff (v : Value) : Returns v.asStr ↔ ∃ s, v = .str s := by
  cases v <;> simp [Value.asStr]

theorem setReport_returns_iff (now : Str) (msg : Message) (code : Int) (reason : Str) :
    Returns (msg.setReport now code reason) ↔ Reportable msg :=
  Guarantees.Message.setReport_ok_iff msg now code reason

end Fields

section Needs
variable (w : World) (o : Config.Options) (steps : Nat)

/-- Something can be looked for in the value. -/
def Container (v : Value) : Prop :=
  (∃ s, v = .str s) ∨ (∃ vs, v = .list vs) ∨ (∃ entries, v = .dict entries) ∨
    ∃ members, v = .set members

theorem has_returns_iff (key : String) (v : Value) : Returns (v.has key) ↔ Container v := by
  unfold Container
  cases v <;> simp [Value.has]

theorem isRename_returns_iff (msg : Message) :
    Returns (isRename msg) ↔ ∀ fileOp, msg.get "fileOp" = some fileOp → Container fileOp := by
  unfold isRename
  cases msg.get "fileOp" <;> simp [has_returns_iff]

theorem asStr_eq_ok_iff (v : Value) (s : Str) : v.asStr = .ok s ↔ v = .str s := by
  cases v <;> simp [Value.asStr]

theorem valueItem_eq_ok_iff (key : String) (v x : Value) :
    v.item key = .ok x ↔ ∃ entries, v = .dict entries ∧ Dict.get entries key = some x := by
  cases v <;> simp [Value.item, Dict.item_ok_iff]

/-- The publication time is read, and unless it is too old the time of the file. -/
theorem ageOf_returns_iff (msg : Message) :
    Returns (ageOf w o msg) ↔ ∃ sent, timeOf msg "pubTime" = .ok sent ∧
      (¬ (o.messageAgeMax ≠ 0 ∧ o.messageAgeMax < w.now - sent) → (msg.get "mtime").isSome →
        Returns (timeOf msg "mtime")) := by
  unfold ageOf
  rw [returns_bind]
  apply exists_congr
  intro sent
  apply and_congr_right
  intro _
  by_cases old : o.messageAgeMax ≠ 0 ∧ o.messageAgeMax < w.now - sent
  · simp [old]
  · cases written : msg.get "mtime" with
    | none => simp [old]
    | some mtime =>
      simp only [old, if_false, Option.isNone_some, Bool.false_eq_true, not_false_eq_true,
        Option.isSome_some, forall_const]
      rw [returns_const_bind (p := True)]
      · simp
      · intro written _
        split
        · simp
        · split <;> simp

/-- The URL can be put together: its base is a text, not an empty one, that expands. -/
theorem urlOf_returns_iff (msg : Message) :
    Returns (urlOf w o steps msg) ↔
      (∃ baseUrl, msg.get "baseUrl" = some (.str baseUrl) ∧ baseUrl ≠ [] ∧
        Returns (variableExpansion w o steps baseUrl msg)) ∧
      ∃ relPath, msg.get "relPath" = some (.str relPath) := by
  unfold urlOf Dict.item
  cases base : msg.get "baseUrl" with
  | none => simp [returns_bind]
  | some baseUrl =>
    cases baseUrl with
    | str baseUrl =>
      cases path : msg.get "relPath" with
      | none => simp [returns_bind, Value.asStr]
      | some relPath =>
        cases relPath with
        | str relPath =>
          simp only [returns_bind, Value.asStr, Except.ok.injEq, exists_eq_left', Option.some.injEq,
            Value.str.injEq, exists_eq', and_true]
          cases baseUrl with
          | nil => simp
          | cons c rest =>
            obtain ⟨last, ends⟩ : ∃ last, (c :: rest).getLast? = some last :=
              ⟨_, List.getLast?_eq_some_getLast (List.cons_ne_nil c rest)⟩
            simp only [ends, ne_eq, reduceCtorEq, not_false_eq_true, true_and]
            apply exists_congr
            intro url
            apply and_iff_left
            split
            · simp
            · split <;> simp
        | _ => simp [returns_bind, Value.asStr]
    | _ => simp [returns_bind, Value.asStr]

/-- The extension is a text where it is used. -/
theorem urlToMatch_returns_iff (msg : Message) (url : Str) :
    Returns (urlToMatch msg url) ↔ ∀ extension, msg.get "sundew_extension" = some extension →
      url.count ':' < 3 → ∃ s, extension = .str s := by
  unfold urlToMatch
  cases msg.get "sundew_extension" with
  | none => simp
  | some extension =>
    by_cases short : url.count ':' < 3 <;> simp [short, asStr_returns_iff]

/-- A mask that matches stands before every void one. -/
theorem firstMatch_returns_iff (url : Str) (masks : List (Option Mask)) (i : Nat) :
    Returns (firstMatch url masks i) ↔ ∀ before after, masks = before ++ none :: after →
      ∃ mask, some mask ∈ before ∧ (finds mask url).isSome := by
  induction masks generalizing i with
  | nil => simp [firstMatch]
  | cons first masks ih =>
    cases first with
    | none =>
      simp only [firstMatch, not_returns_error, false_iff, not_forall]
      exact ⟨[], masks, rfl, by simp⟩
    | some mask =>
      rw [firstMatch]
      cases found : finds mask url with
      | some groups =>
        refine iff_of_true ⟨_, rfl⟩ ?_
        intro before after shape
        cases before with
        | nil => cases shape
        | cons head before =>
          obtain ⟨rfl, -⟩ := List.cons.inj shape
          exact ⟨mask, List.mem_cons_self, by simp [found]⟩
      | none =>
        rw [ih]
        constructor
        · intro sheltered before after shape
          cases before with
          | nil => cases shape
          | cons head before =>
            obtain ⟨rfl, rest⟩ := List.cons.inj shape
            obtain ⟨mask', member, matches'⟩ := sheltered before after rest
            exact ⟨mask', List.mem_cons_of_mem _ member, matches'⟩
        · intro sheltered before after shape
          obtain ⟨mask', member, matches'⟩ := sheltered (some mask :: before) after (by simp [shape])
          obtain same | member := List.mem_cons.mp member
          · obtain rfl := Option.some.inj same
            simp [found] at matches'
          · exact ⟨mask', member, matches'⟩

end Needs

section Conditions
variable (w : World) (o : Config.Options) (steps : Nat)

/-- What the loop asks of a rename to look at its old name. -/
def OldNameReadable (msg : Message) : Prop :=
  (∀ fileOp, msg.get "fileOp" = some fileOp → Container fileOp) ∧
    (isRename msg = .ok true → ∃ baseUrl base entries old url,
      msg.get "baseUrl" = some (.str baseUrl) ∧
      variableExpansion w o steps baseUrl msg = .ok base ∧
      msg.get "fileOp" = some (.dict entries) ∧ Dict.get entries "rename" = some (.str old) ∧
      urlToMatch msg (base ++ '/' :: old) = .ok url ∧
      ∀ first, o.masks.head? = some first → ∃ mask, first = some mask ∧
        ((finds mask url).isSome → Markable msg))

/-- The message can be placed; where it cannot, that is answered and can be reported. -/
def Placeable (r : Rule) (url : Str) (msg : Message) : Prop :=
  ∃ msg' placed, updateFieldsAccepted w o steps r url msg = .ok (msg', placed) ∧
    (placed = false → Reportable msg')

/-- What the loop asks of a message once the first mask that matches is known. -/
def Sortable (accepted : Bool) (url : Str) (msg : Message) :
    Option (Mask × Nat × Option (List (Option Str))) → Prop
  | some (mask, i, found) => ∃ msg₁, recordMatch found msg = .ok msg₁ ∧
      if mask.accepting then
        ∃ msg₂, recordIndex i msg₁ = .ok msg₂ ∧ Placeable w o steps (ruleOf mask) url msg₂
      else if isRename msg₁ = .ok true ∧ accepted then
        (msg₁.get "renameUnlink").isSome ∨ Markable msg₁
      else Returns (isRename msg₁) ∧ Reportable msg₁
  | none =>
      if isRename msg = .ok true ∧ accepted then
        ∃ msg₁, renameUnlink msg = .ok msg₁ ∧ Placeable w o steps (defaultRule o) url msg₁
      else Returns (isRename msg) ∧
        if o.acceptUnmatched then Placeable w o steps (defaultRule o) url msg else Reportable msg

/-- The masks can be asked about the new name, and the message goes where they say. -/
def Selectable (accepted : Bool) (msg : Message) : Prop :=
  ((∃ baseUrl, msg.get "baseUrl" = some (.str baseUrl) ∧ baseUrl ≠ [] ∧
      Returns (variableExpansion w o steps baseUrl msg)) ∧
    ∃ relPath, msg.get "relPath" = some (.str relPath)) ∧
  ∀ url, urlOf w o steps msg = .ok url →
    (∀ extension, msg.get "sundew_extension" = some extension → url.count ':' < 3 →
      ∃ s, extension = .str s) ∧
    ∀ toMatch, urlToMatch msg url = .ok toMatch →
      (∀ before after, o.masks = before ++ none :: after →
        ∃ mask, some mask ∈ before ∧ (finds mask toMatch).isSome) ∧
      ∀ first, firstMatch toMatch o.masks 0 = .ok first →
        Sortable w o steps accepted url msg first

/-- What the loop asks of a message by its age. -/
def Sorts (msg : Message) : Age → Prop
  | .messageTooOld _ | .fileTooOld _ => Returns msg.getIDStr ∧ Reportable msg
  | .fileTooYoung => True
  | .inTime => OldNameReadable w o steps msg ∧
      ∀ accepted msg₁, oldName w o steps msg = .ok (accepted, msg₁) →
        Selectable w o steps accepted msg₁

/-- A message that the loop can deal with: its times are read as far as they are asked for,
and every operation on its way finds what it needs. -/
def Tractable (msg : Message) : Prop :=
  (∃ sent, timeOf msg "pubTime" = .ok sent ∧
    (¬ (o.messageAgeMax ≠ 0 ∧ o.messageAgeMax < w.now - sent) → (msg.get "mtime").isSome →
      Returns (timeOf msg "mtime"))) ∧
  ∀ age, ageOf w o msg = .ok age → Sorts w o steps msg age

end Conditions

section Iff
variable (w : World) (o : Config.Options) (steps : Nat)

/-- A first step whose success is characterised, then the rest for each of its values. -/
theorem returns_bind_of {α β : Type} {x : Except Fault α} {next : α → Except Fault β} {p : Prop}
    {q : α → Prop} (first : Returns x ↔ p) (rest : ∀ v, x = .ok v → (Returns (next v) ↔ q v)) :
    Returns (x >>= next) ↔ p ∧ ∀ v, x = .ok v → q v := by
  rw [returns_bind, ← first]
  constructor
  · rintro ⟨v, done, second⟩
    refine ⟨⟨v, done⟩, ?_⟩
    intro v' done'
    obtain rfl := Except.ok.inj (done.symm.trans done')
    exact (rest v done).mp second
  · rintro ⟨⟨v, done⟩, all⟩
    exact ⟨v, done, (rest v done).mpr (all v done)⟩

theorem reject_returns_iff (msg : Message) (code : Int) (reason : Str) :
    Returns (reject w msg code reason) ↔ Reportable msg := by
  unfold reject
  rw [returns_map, setReport_returns_iff]

theorem place_returns_iff (r : Rule) (url : Str) (msg : Message) :
    Returns (place w o steps r url msg) ↔ Placeable w o steps r url msg := by
  unfold place Placeable
  rw [returns_bind]
  constructor
  · rintro ⟨⟨msg', placed⟩, done, rest⟩
    refine ⟨msg', placed, done, ?_⟩
    rintro rfl
    exact (reject_returns_iff w msg' _ _).mp rest
  · rintro ⟨msg', placed, done, reportable⟩
    refine ⟨(msg', placed), done, ?_⟩
    cases placed with
    | true => exact ⟨_, rfl⟩
    | false => exact (reject_returns_iff w msg' _ _).mpr (reportable rfl)

theorem renameUnlink_returns_iff (msg : Message) :
    Returns (renameUnlink msg) ↔ (msg.get "renameUnlink").isSome ∨ Markable msg := by
  unfold renameUnlink
  cases there : msg.get "renameUnlink" with
  | some v => simp
  | none =>
    have mark (v : Value) : Markable (msg.set "renameUnlink" v) ↔ Markable msg := by
      unfold Markable
      rw [Dict.get_set_ne msg (by decide)]
    simp [deleteOnPost_returns_iff, mark]

theorem recordMatch_markable {found : Option (List (Option Str))} {msg msg₁ : Message}
    (done : recordMatch found msg = .ok msg₁) : Markable msg₁ ↔ Markable msg := by
  cases found with
  | none =>
    obtain rfl := Except.ok.inj done
    rfl
  | some groups =>
    have before : Markable (msg.set "_matches" (.matched groups)) :=
      (deleteOnPost_returns_iff _ _).mp ⟨msg₁, done⟩
    have after : Markable msg₁ := by
      obtain ⟨value, -, done⟩ := bind_ok_iff.mp done
      cases value with
      | set members =>
        obtain rfl := Except.ok.inj done
        exact ⟨_, Dict.get_set_self _ _ _⟩
      | _ => cases done
    unfold Markable at before
    rw [Dict.get_set_ne msg (by decide)] at before
    exact iff_of_true after before

theorem recordMatch_returns_iff (found : Option (List (Option Str))) (msg : Message) :
    Returns (recordMatch found msg) ↔ (found.isSome → Markable msg) := by
  cases found with
  | none => simp [recordMatch]
  | some groups =>
    have mark : Markable (msg.set "_matches" (.matched groups)) ↔ Markable msg := by
      unfold Markable
      rw [Dict.get_set_ne msg (by decide)]
    simp [recordMatch, deleteOnPost_returns_iff, mark]

theorem recordIndex_returns_iff (i : Nat) (msg : Message) :
    Returns (recordIndex i msg) ↔ Markable msg := by
  have mark : Markable (msg.set "_mask_index" (.int i)) ↔ Markable msg := by
    unfold Markable
    rw [Dict.get_set_ne msg (by decide)]
  simp [recordIndex, deleteOnPost_returns_iff, mark]

theorem matchOldName_returns_iff (url : Str) (msg : Message) :
    Returns (matchOldName o url msg) ↔ ∀ first, o.masks.head? = some first →
      ∃ mask, first = some mask ∧ ((finds mask url).isSome → Markable msg) := by
  unfold matchOldName
  match o.masks with
  | [] => simp
  | none :: masks => simp
  | some mask :: masks =>
    cases found : finds mask url with
    | none => simp [found]
    | some groups =>
      have records : Returns (do
          let msg ← recordMatch groups msg
          return (mask.accepting, ← recordIndex 0 msg)) ↔ Markable msg := by
        constructor
        · rintro ⟨_, done⟩
          obtain ⟨msg₁, recorded, rest⟩ := bind_ok_iff.mp done
          obtain ⟨msg₂, indexed, -⟩ := bind_ok_iff.mp rest
          rw [← recordMatch_markable recorded]
          exact (recordIndex_returns_iff 0 msg₁).mp ⟨msg₂, indexed⟩
        · intro marked
          obtain ⟨msg₁, recorded⟩ := (recordMatch_returns_iff groups msg).mpr fun _ => marked
          obtain ⟨msg₂, indexed⟩ :=
            (recordIndex_returns_iff 0 msg₁).mpr ((recordMatch_markable recorded).mpr marked)
          exact ⟨_, bind_ok_iff.mpr ⟨msg₁, recorded, bind_ok_iff.mpr ⟨msg₂, indexed, rfl⟩⟩⟩
      simpa [found] using records

theorem oldName_returns_iff (msg : Message) :
    Returns (oldName w o steps msg) ↔ OldNameReadable w o steps msg := by
  unfold oldName OldNameReadable
  rw [returns_bind_of (isRename_returns_iff msg) (q := fun rename => rename = true → _)
    (fun rename asked => ?_)]
  · constructor
    · rintro ⟨container, rest⟩
      exact ⟨container, fun rename => rest true rename rfl⟩
    · rintro ⟨container, rest⟩
      refine ⟨container, ?_⟩
      rintro _ asked rfl
      exact rest asked
  · cases rename with
    | false => simp
    | true =>
      simp only [if_true, forall_const, returns_bind, matchOldName_returns_iff, Dict.item_ok_iff,
        asStr_eq_ok_iff, valueItem_eq_ok_iff]
      constructor
      · rintro ⟨_, hasBase, baseUrl, rfl, base, expands, _, hasOp, _, ⟨entries, rfl, hasName⟩, old,
          rfl, url, named, masks⟩
        exact ⟨baseUrl, base, entries, old, url, hasBase, expands, hasOp, hasName, named, masks⟩
      · rintro ⟨baseUrl, base, entries, old, url, hasBase, expands, hasOp, hasName, named, masks⟩
        exact ⟨_, hasBase, baseUrl, rfl, base, expands, _, hasOp, _, ⟨entries, rfl, hasName⟩, old,
          rfl, url, named, masks⟩

theorem select_returns_iff (accepted : Bool) (msg : Message) :
    Returns (select w o steps accepted msg) ↔ Selectable w o steps accepted msg := by
  unfold select Selectable
  apply returns_bind_of (urlOf_returns_iff w o steps msg)
  intro url _
  apply returns_bind_of (urlToMatch_returns_iff msg url)
  intro toMatch _
  apply returns_bind_of (firstMatch_returns_iff toMatch o.masks 0)
  intro first _
  -- a rename and an accepted old name are asked for together, at either exit
  have asks (msg : Message) {α : Type} {yes no : Except Fault α} :
      Returns (do if (← isRename msg) && accepted then yes else no) ↔
        if isRename msg = .ok true ∧ accepted then Returns yes
        else Returns (isRename msg) ∧ Returns no := by
    cases renamed : isRename msg with
    | error e => simp [returns_bind]
    | ok rename => cases rename <;> cases accepted <;> simp [returns_bind]
  cases first with
  | none =>
    unfold Sortable
    refine (asks msg).trans ?_
    split
    · rw [returns_bind]
      exact exists_congr fun _ => and_congr_right fun _ => place_returns_iff w o steps _ _ _
    · apply and_congr_right
      intro _
      split
      · exact place_returns_iff w o steps _ _ _
      · exact reject_returns_iff w _ _ _
  | some first =>
    obtain ⟨mask, i, found⟩ := first
    unfold Sortable
    refine returns_bind.trans (exists_congr fun msg₁ => and_congr_right fun _ => ?_)
    cases accepting : mask.accepting with
    | true =>
      simp only [Bool.not_true, Bool.false_eq_true, if_false, if_true]
      refine returns_bind.trans (exists_congr fun msg₂ => and_congr_right fun _ => ?_)
      exact place_returns_iff w o steps _ _ _
    | false =>
      simp only [Bool.not_false, if_true, Bool.false_eq_true, if_false]
      refine (asks msg₁).trans ?_
      split
      · rw [← renameUnlink_returns_iff, returns_bind]
        exact ⟨fun ⟨v, done, _⟩ => ⟨v, done⟩, fun ⟨v, done⟩ => ⟨v, done, _, rfl⟩⟩
      · exact and_congr_right fun _ => reject_returns_iff w _ _ _

/-- The body of the loop ends exactly for the tractable messages. -/
theorem classify_returns_iff (msg : Message) :
    Returns (classify w o steps msg) ↔ Tractable w o steps msg := by
  unfold classify Tractable
  apply returns_bind_of (ageOf_returns_iff w o msg)
  intro age _
  cases age with
  | messageTooOld lag =>
    exact returns_const_bind fun _ _ => reject_returns_iff w msg _ _
  | fileTooOld age =>
    exact returns_const_bind fun _ _ => reject_returns_iff w msg _ _
  | fileTooYoung => exact iff_of_true ⟨_, rfl⟩ trivial
  | inTime =>
    have rest := returns_bind_of (oldName_returns_iff w o steps msg)
      (q := fun found => Selectable w o steps found.1 found.2)
      fun found _ => select_returns_iff w o steps found.1 found.2
    exact rest.trans (and_congr_right fun _ =>
      ⟨fun all accepted msg₁ => all (accepted, msg₁), fun all found => all found.1 found.2⟩)

theorem filterLoop_returns_iff (hs : List Held) (s : Sorted) :
    Returns (filterLoop w o steps hs s) ↔ ∀ h ∈ hs, Tractable w o steps h.fields := by
  induction hs generalizing s with
  | nil => simp [filterLoop]
  | cons h hs ih =>
    rw [filterLoop, returns_const_bind (p := ∀ h ∈ hs, Tractable w o steps h.fields)
      fun _ _ => ih _, classify_returns_iff, List.forall_mem_cons]

end Iff

section Claim

/-- The loop ends, within some number of steps for each of its substitutions. -/
def Immune (w : World) (o : Config.Options) (worklist : Worklist) : Prop :=
  ∃ steps, Returns (filter w o steps worklist)

/-- A notice without a base URL, next to a sound one. -/
def emptyBaseUrl : Worklist where
  incoming := [⟨0, [("_deleteOnPost", .set []), ("pubTime", .str "20240101T000000".toList),
      ("baseUrl", .str []), ("relPath", .str "f".toList)]⟩, oldToNew]
  ok := []
  rejected := []
  failed := []

theorem emptyBaseUrl_stops (steps : Nat) :
    filter quietWorld noOptions steps emptyBaseUrl = .error .indexError := rfl

end Claim

end Sarracenia.Guarantees.Filter
