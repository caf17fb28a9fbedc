import Sarracenia.Guarantees.Message
import Sarracenia.Source.Filter

/-!
# Where the mask loop puts the messages

The loop sorts the batch onto three lists. A rename whose old name is accepted and whose
new name meets a rejecting mask is the only message that reaches none of them.

* the fate of one message (`classify_dropped_iff`), and the lists after the loop
  (`filterLoop_sorted`);
* a loop that ends has put every message on exactly one list, once, exactly when no such
  rename was in the batch (`filter_conserves_iff`);
* a rename onto a rejected name, which is lost.
-/
namespace Sarracenia.Guarantees.Filter
open Library Library.Text Library.Dynamic Source Source.Config Source.Placement Source.Filter
open Guarantees.Message

section Fields

theorem recordMatch_get {found : Option (List (Option Str))} {msg msg' : Message} {key : String}
    (other : key ≠ "_deleteOnPost") (unmatched : key ≠ "_matches")
    (done : recordMatch found msg = .ok msg') : msg'.get key = msg.get key := by
  cases found with
  | none =>
    obtain rfl := Except.ok.inj done
    rfl
  | some groups =>
    rw [deleteOnPost_get other done]
    exact Dict.get_set_ne msg unmatched _

theorem recordIndex_get {mask_index : Nat} {msg msg' : Message} {key : String}
    (other : key ≠ "_deleteOnPost") (unindexed : key ≠ "_mask_index")
    (done : recordIndex mask_index msg = .ok msg') : msg'.get key = msg.get key := by
  rw [deleteOnPost_get other done]
  exact Dict.get_set_ne msg unindexed _

theorem isRename_congr {msg msg' : Message} (same : msg'.get "fileOp" = msg.get "fileOp") :
    isRename msg' = isRename msg := by
  unfold isRename
  rw [same]

end Fields

section Fate
variable (w : World) (o : Config.Options) (steps : Nat)

/-- A rename in time whose old name the masks accept and whose new name they reject. -/
def RenamedOntoRejected (msg : Message) : Prop :=
  ageOf w o msg = .ok .inTime ∧
    ∃ msg₁ url toMatch mask i found, oldName w o steps msg = .ok (true, msg₁) ∧
      urlOf w o steps msg₁ = .ok url ∧ urlToMatch msg₁ url = .ok toMatch ∧
      firstMatch toMatch o.masks 0 = .ok (some (mask, i, found)) ∧ mask.accepting = false

/-- An accepted old name is that of a rename, which the loop leaves as it is. -/
theorem oldName_rename {msg msg₁ : Message} (accepted : oldName w o steps msg = .ok (true, msg₁)) :
    isRename msg₁ = .ok true := by
  obtain ⟨rename, asked, accepted⟩ := bind_ok_iff.mp accepted
  cases rename with
  | false => cases accepted
  | true =>
    simp only [if_true, bind_ok_iff] at accepted
    obtain ⟨_, -, _, -, _, -, _, -, _, -, _, -, url, -, accepted⟩ := accepted
    rw [← asked]
    apply isRename_congr
    unfold matchOldName at accepted
    split at accepted
    · cases accepted
    · cases accepted
    · next mask _ =>
      split at accepted
      · cases accepted
      · obtain ⟨msg₂, recorded, accepted⟩ := bind_ok_iff.mp accepted
        obtain ⟨msg₃, indexed, accepted⟩ := bind_ok_iff.mp accepted
        obtain ⟨-, rfl⟩ := Prod.mk.inj (Except.ok.inj accepted)
        rw [recordIndex_get (by decide) (by decide) indexed,
          recordMatch_get (by decide) (by decide) recorded]

theorem reject_fate {msg msg' : Message} {code : Int} {reason : Str} {fate : Fate}
    (done : reject w msg code reason = .ok (msg', fate)) : fate ≠ .dropped := by
  unfold reject at done
  cases reported : msg.setReport w.nowstr code reason with
  | error e => simp [reported, Except.map] at done
  | ok msg₁ =>
    rw [reported] at done
    obtain ⟨-, rfl⟩ := Prod.mk.inj (Except.ok.inj done)
    decide

/-- `place` puts a message it is done with on a list. -/
theorem place_fate {r : Rule} {url : Str} {msg msg' : Message} {fate : Fate}
    (done : place w o steps r url msg = .ok (msg', fate)) : fate ≠ .dropped := by
  obtain ⟨⟨msg₁, placed⟩, -, done⟩ := bind_ok_iff.mp done
  cases placed with
  | true =>
    obtain ⟨-, rfl⟩ := Prod.mk.inj (Except.ok.inj done)
    decide
  | false => exact reject_fate w done

theorem select_dropped_iff {accepted : Bool} {msg msg' : Message} {fate : Fate}
    (rename : accepted = true → isRename msg = .ok true)
    (done : select w o steps accepted msg = .ok (msg', fate)) :
    fate = .dropped ↔ accepted = true ∧ ∃ url toMatch mask i found,
      urlOf w o steps msg = .ok url ∧ urlToMatch msg url = .ok toMatch ∧
        firstMatch toMatch o.masks 0 = .ok (some (mask, i, found)) ∧ mask.accepting = false := by
  unfold select at done
  simp only [bind_ok_iff] at done
  obtain ⟨url, located, toMatch, named, first, matched, done⟩ := done
  have only {mask : Mask} {i : Nat} {found : Option (List (Option Str))}
      (sure : first = some (mask, i, found)) : (∃ url toMatch mask i found,
      urlOf w o steps msg = .ok url ∧ urlToMatch msg url = .ok toMatch ∧
        firstMatch toMatch o.masks 0 = .ok (some (mask, i, found)) ∧ mask.accepting = false) ↔
      mask.accepting = false := by
    subst sure
    constructor
    · rintro ⟨url', toMatch', mask', i', found', located', named', matched', rejecting⟩
      obtain rfl := Except.ok.inj (located.symm.trans located')
      obtain rfl := Except.ok.inj (named.symm.trans named')
      obtain ⟨rfl, -⟩ := Prod.mk.inj (Option.some.inj (Except.ok.inj (matched.symm.trans matched')))
      exact rejecting
    · exact fun rejecting => ⟨url, toMatch, mask, i, found, located, named, matched, rejecting⟩
  cases first with
  | none =>
    have kept : fate ≠ .dropped := by
      simp only [bind_ok_iff] at done
      obtain ⟨renamed, -, done⟩ := done
      split at done
      · obtain ⟨_, -, done⟩ := bind_ok_iff.mp done
        exact place_fate w o steps done
      · split at done
        · exact place_fate w o steps done
        · exact reject_fate w done
    refine iff_of_false kept ?_
    rintro ⟨-, url', toMatch', mask, i, found, located', named', matched', -⟩
    obtain rfl := Except.ok.inj (located.symm.trans located')
    obtain rfl := Except.ok.inj (named.symm.trans named')
    cases matched.symm.trans matched'
  | some first =>
    obtain ⟨mask, i, found⟩ := first
    rw [only rfl]
    simp only [bind_ok_iff] at done
    obtain ⟨msg₁, recorded, done⟩ := done
    cases accepting : mask.accepting with
    | true =>
      simp only [accepting, Bool.not_true, Bool.false_eq_true, if_false, bind_ok_iff] at done
      obtain ⟨msg₂, -, done⟩ := done
      simp [place_fate w o steps done]
    | false =>
      simp only [accepting, Bool.not_false, if_true, bind_ok_iff] at done
      obtain ⟨renamed, asked, done⟩ := done
      cases accepted with
      | false =>
        simp only [Bool.and_false, Bool.false_eq_true, if_false] at done
        simp [reject_fate w done]
      | true =>
        have same : isRename msg₁ = isRename msg :=
          isRename_congr (recordMatch_get (by decide) (by decide) recorded)
        obtain rfl := Except.ok.inj (asked.symm.trans (same.trans (rename rfl)))
        simp only [Bool.and_true, if_true, bind_ok_iff] at done
        obtain ⟨msg₂, -, done⟩ := done
        obtain ⟨-, rfl⟩ := Prod.mk.inj (Except.ok.inj done)
        simp

/-- The only way to no list. -/
theorem classify_dropped_iff {msg msg' : Message} {fate : Fate}
    (done : classify w o steps msg = .ok (msg', fate)) :
    fate = .dropped ↔ RenamedOntoRejected w o steps msg := by
  obtain ⟨age, aged, done⟩ := bind_ok_iff.mp done
  have elsewhere (late : age ≠ .inTime) : ¬ RenamedOntoRejected w o steps msg := by
    rintro ⟨aged', -⟩
    exact late (Except.ok.inj (aged.symm.trans aged'))
  cases age with
  | messageTooOld lag =>
    obtain ⟨_, -, done⟩ := bind_ok_iff.mp done
    exact iff_of_false (reject_fate w done) (elsewhere (by simp))
  | fileTooOld age =>
    obtain ⟨_, -, done⟩ := bind_ok_iff.mp done
    exact iff_of_false (reject_fate w done) (elsewhere (by simp))
  | fileTooYoung =>
    obtain ⟨-, rfl⟩ := Prod.mk.inj (Except.ok.inj done)
    exact iff_of_false (by decide) (elsewhere (by simp))
  | inTime =>
    obtain ⟨⟨accepted, msg₁⟩, renamed, done⟩ := bind_ok_iff.mp done
    have rename : accepted = true → isRename msg₁ = .ok true := by
      rintro rfl
      exact oldName_rename w o steps renamed
    rw [select_dropped_iff w o steps rename done]
    constructor
    · rintro ⟨rfl, url, toMatch, mask, i, found, picked⟩
      exact ⟨aged, msg₁, url, toMatch, mask, i, found, renamed, picked⟩
    · rintro ⟨-, msg₂, url, toMatch, mask, i, found, renamed', picked⟩
      obtain ⟨rfl, rfl⟩ := Prod.mk.inj (Except.ok.inj (renamed.symm.trans renamed'))
      exact ⟨rfl, url, toMatch, mask, i, found, picked⟩

end Fate

section Loop
variable (w : World) (o : Config.Options) (steps : Nat)

/-- The messages on the lists after the loop are those that were there and, once each,
those of the batch that are not renamed onto a rejected name. -/
theorem filterLoop_sorted (hs : List Held) (s s' : Sorted)
    (finished : filterLoop w o steps hs s = .ok s') :
    ∃ filtered rejected failed lost : List Held,
      s'.filtered = s.filtered ++ filtered ∧ s'.rejected = s.rejected ++ rejected ∧
      s'.failed = s.failed ++ failed ∧
      ((filtered ++ rejected ++ failed ++ lost).map Held.tag).Perm (hs.map Held.tag) ∧
      (lost = [] ↔ ∀ h ∈ hs, ¬ RenamedOntoRejected w o steps h.fields) := by
  induction hs generalizing s with
  | nil =>
    obtain rfl := Except.ok.inj finished
    exact ⟨[], [], [], [], by simp⟩
  | cons h hs ih =>
    obtain ⟨⟨fields, fate⟩, classified, finished⟩ := bind_ok_iff.mp finished
    obtain ⟨filtered, rejected, failed, lost, onFiltered, onRejected, onFailed, sorted, none⟩ :=
      ih _ finished
    have dropped := classify_dropped_iff w o steps classified
    simp only [List.forall_mem_cons, ← dropped, ← none]
    have moved (pre post : List Held) (same : filtered ++ rejected ++ failed ++ lost = pre ++ post) :
        ((pre ++ ⟨h.tag, fields⟩ :: post).map Held.tag).Perm (h.tag :: hs.map Held.tag) := by
      rw [same] at sorted
      have front : (pre ++ ⟨h.tag, fields⟩ :: post).Perm (⟨h.tag, fields⟩ :: (pre ++ post)) :=
        List.perm_middle
      exact (front.map Held.tag).trans (sorted.cons h.tag)
    cases fate with
    | accepted =>
      refine ⟨⟨h.tag, fields⟩ :: filtered, rejected, failed, lost, ?_, onRejected, onFailed, ?_, ?_⟩
      · rw [onFiltered]
        simp [Sorted.add]
      · exact moved [] _ rfl
      · simp
    | rejected =>
      refine ⟨filtered, ⟨h.tag, fields⟩ :: rejected, failed, lost, onFiltered, ?_, onFailed, ?_, ?_⟩
      · rw [onRejected]
        simp [Sorted.add]
      · simpa using moved filtered (rejected ++ failed ++ lost) (by simp)
      · simp
    | failed =>
      refine ⟨filtered, rejected, ⟨h.tag, fields⟩ :: failed, lost, onFiltered, onRejected, ?_, ?_, ?_⟩
      · rw [onFailed]
        simp [Sorted.add]
      · simpa using moved (filtered ++ rejected) (failed ++ lost) (by simp)
      · simp
    | dropped =>
      refine ⟨filtered, rejected, failed, ⟨h.tag, fields⟩ :: lost, onFiltered, onRejected, onFailed,
        ?_, ?_⟩
      · simpa using moved (filtered ++ rejected ++ failed) lost (by simp)
      · simp

/-- Every message of the batch is on exactly one of the lists, once, and nothing else was
added to them. -/
def Conserved (before after : Worklist) : Prop :=
  ∃ rejected failed : List Held, after.ok = before.ok ∧
    after.rejected = before.rejected ++ rejected ∧ after.failed = before.failed ++ failed ∧
    ((after.incoming ++ rejected ++ failed).map Held.tag).Perm (before.incoming.map Held.tag)

/-- A loop that ends conserves the batch exactly when it holds no rename whose old name is
accepted and whose new name first meets a rejecting mask. -/
theorem filter_conserves_iff {before after : Worklist}
    (finished : filter w o steps before = .ok after) :
    Conserved before after ↔
      ∀ h ∈ before.incoming, ¬ RenamedOntoRejected w o steps h.fields := by
  obtain ⟨s', looped, finished⟩ := bind_ok_iff.mp finished
  obtain rfl := Except.ok.inj finished
  obtain ⟨filtered, rejected, failed, lost, onFiltered, onRejected, onFailed, sorted, none⟩ :=
    filterLoop_sorted w o steps before.incoming _ s' looped
  rw [← none]
  constructor
  · rintro ⟨rejected', failed', -, onRejected', onFailed', conserved⟩
    obtain rfl := List.append_cancel_left (onRejected.symm.trans onRejected')
    obtain rfl := List.append_cancel_left (onFailed.symm.trans onFailed')
    rw [onFiltered] at conserved
    have lengths := (conserved.trans sorted.symm).length_eq
    simp only [List.nil_append, List.map_append, List.length_append, List.length_map] at lengths
    exact List.eq_nil_of_length_eq_zero (by omega)
  · rintro rfl
    refine ⟨rejected, failed, rfl, onRejected, onFailed, ?_⟩
    rw [onFiltered]
    simpa using sorted

end Loop

section Runs

/-- A host where nothing is asked of the clock but the time. -/
def quietWorld : World where
  now := 0
  nowstr := []
  fromtimestamp _ := .error .osError
  strftimeAgo _ _ := .error .osError
  utc := []
  urlparse _ := .error .valueError
  random8 := []
  isalpha c := c.isAlpha
  str _ := []
  general _ := []

def noOptions : Config.Options where
  baseDir := none
  post_baseDir := none
  documentRoot := none
  directory := none
  varTimeOffset := 0
  sundew_compat_regex_first_match_is_zero := true
  queueShare := none
  broker_user := none
  post_broker_user := none
  no := none
  setting _ := none
  env _ := none
  fixed_headers := []
  publishers := []
  subscriptions := []
  masks := []
  component := "sarra".toList
  messageAgeMax := 0
  fileAgeMax := 0
  fileAgeMin := 0
  acceptUnmatched := true
  baseUrl_relPath := false
  download := true
  retry_refilter := false
  filename := none
  mirror := false
  strip := 0
  pstrip := none
  flatten := ['/']
  destfn := []

/-- A mask on one URL, or `.*`. -/
def maskOn (pattern : String) (accepting : Bool) : Mask where
  pattern := pattern.toList
  maskDir := none
  maskFileOption := none
  regexp url := if url = pattern.toList then some [some url] else none
  findall url := if url = pattern.toList then [.whole url] else []
  accepting := accepting
  mirror := false
  strip := 0
  pstrip := none
  flatten := ['/']
  text := pattern.toList

def keepOld : Config.Options :=
  { noOptions with masks := [some (maskOn "http://h/old" true), some (maskOn ".*" false)] }

/-- `old` has become `new`. -/
def oldToNew : Held where
  tag := 7
  fields := [("_deleteOnPost", .set []), ("pubTime", .str "20240101T000000".toList),
    ("baseUrl", .str "http://h".toList), ("relPath", .str "new".toList),
    ("fileOp", .dict [("rename", .str "old".toList)])]

def renameBatch : Worklist := ⟨[oldToNew], [], [], []⟩

/-- `filter` on the batch leaves the three lists empty. -/
def renameBatchAfter : Worklist := ⟨[], [], [], []⟩

theorem renameBatch_ends : filter quietWorld keepOld 0 renameBatch = .ok renameBatchAfter := rfl

theorem renameBatch_conserves_iff :
    Conserved renameBatch renameBatchAfter ↔
      ∀ h ∈ renameBatch.incoming, ¬ RenamedOntoRejected quietWorld keepOld 0 h.fields :=
  filter_conserves_iff quietWorld keepOld 0 renameBatch_ends

/-- The first mask keeps `old`, the second rejects the rest: the rename is lost. -/
theorem renameBatch_not_conserved :
    ¬ ∀ (w : World) (o : Config.Options) (steps : Nat) (before after : Worklist),
      filter w o steps before = .ok after → Conserved before after := by
  intro always
  obtain ⟨rejected, failed, -, onRejected, onFailed, conserved⟩ :=
    always quietWorld keepOld 0 renameBatch renameBatchAfter renameBatch_ends
  have none := conserved.length_eq
  have noRejected : rejected = [] := onRejected.symm
  have noFailed : failed = [] := onFailed.symm
  subst noRejected
  subst noFailed
  simp [renameBatch, renameBatchAfter] at none

end Runs

end Sarracenia.Guarantees.Filter
