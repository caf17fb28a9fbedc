import Sarracenia.Guarantees.Filter.Immunity

/-!
# What the filter promises of the messages it accepts

The time of an accepted message has been read and its path has been taken for a text, and
nothing on the way to acceptance writes these fields, unless a fixed header is set to do so.
-/
namespace Sarracenia.Guarantees.Filter
open Library Library.Text Library.Dynamic Source Source.Config Source.Placement Source.Filter
open Guarantees.Message

/-- The fields that are written on the way. -/
def writtenFields : List String :=
  ["_deleteOnPost", "_matches", "_mask_index", "renameUnlink", "rename", "post_fileOp", "fileOp", "new_dir",
    "new_file", "new_baseUrl", "new_relPath", "new_subtopic"]

section Keeps

variable {w : World} {o : Config.Options} {steps : Nat}
variable {key : String} {v : Value} (fresh : key ∉ writtenFields)

include fresh in
theorem ne_written {field : String} (written : field ∈ writtenFields) : key ≠ field := by
  rintro rfl
  exact fresh written

section Edits
variable {msg msg' : Message} (there : msg.get key = some v)
include fresh there

theorem set_keeps {field : String} {x : Value} (written : field ∈ writtenFields) :
    (msg.set field x).get key = some v :=
  (Dict.get_set_ne msg (ne_written fresh written) x).trans there

theorem deleteOnPost_keeps {fields : List String} (done : Message.deleteOnPost msg fields = .ok msg') :
    msg'.get key = some v :=
  (deleteOnPost_get (ne_written fresh (by decide)) done).trans there

theorem editLinks_keeps {σ : Type} {change : σ → Str → Except Fault (σ × Option Str)} {fields : List String} {s : σ}
    (done : editLinks change fields s msg = .ok msg') : msg'.get key = some v := by
  induction fields generalizing s msg with
  | nil =>
    obtain rfl := Except.ok.inj done
    exact there
  | cons f fields ih =>
    rw [editLinks] at done
    obtain ⟨fileOp, -, done⟩ := bind_ok_iff.mp done
    obtain ⟨has, -, done⟩ := bind_ok_iff.mp done
    cases has with
    | false => exact ih there done
    | true =>
      obtain ⟨item, -, done⟩ := bind_ok_iff.mp done
      obtain ⟨text, -, done⟩ := bind_ok_iff.mp done
      obtain ⟨⟨s', changed⟩, -, done⟩ := bind_ok_iff.mp done
      cases changed with
      | none => exact ih there done
      | some x =>
        obtain ⟨edited, -, done⟩ := bind_ok_iff.mp done
        exact ih (set_keeps fresh there (by decide)) done

theorem rewriteLinks_keeps {change : Str → Except Fault Str} (done : rewriteLinks change msg = .ok msg') :
    msg'.get key = some v := by
  unfold rewriteLinks at done
  split at done
  · obtain rfl := Except.ok.inj done
    exact there
  · exact editLinks_keeps fresh there done

theorem del_keeps {field : String} (written : field ∈ writtenFields) : (msg.del field).get key = some v :=
  (Dict.get_del_ne msg (ne_written fresh written)).trans there

theorem stripPath_keeps {r : Rule} {relPath filename : Str} {notRetry : Bool} {token : List Str}
    (done : stripPath r relPath notRetry msg = .ok (token, filename, msg')) : msg'.get key = some v := by
  have finish {tokens : List Str} {name : Str} {msg₁ : Message} (kept : msg₁.get key = some v)
      (done : (if r.flatten = ['/'] then pure (tokens, name, msg₁)
        else do
          let msg ← rewriteLinks (fun v => .ok (join r.flatten (split ['/'] v))) msg₁
          pure (tokens.dropLast ++ [join r.flatten tokens], join r.flatten tokens, msg)) =
        (.ok (token, filename, msg') : Except Fault _)) : msg'.get key = some v := by
    split at done
    · obtain ⟨-, is⟩ := Prod.mk.inj (Except.ok.inj done)
      obtain ⟨-, rfl⟩ := Prod.mk.inj is
      exact kept
    · obtain ⟨msg₂, edits, done⟩ := bind_ok_iff.mp done
      obtain ⟨-, is⟩ := Prod.mk.inj (Except.ok.inj done)
      obtain ⟨-, rfl⟩ := Prod.mk.inj is
      exact rewriteLinks_keeps fresh kept edits
  unfold stripPath at done
  dsimp only at done
  split at done
  · split at done
    · obtain ⟨pair, mapped, done⟩ := bind_ok_iff.mp done
      obtain ⟨edited, edits, rfl⟩ := map_ok_iff.mp mapped
      exact finish (editLinks_keeps fresh there edits) done
    · exact finish there done
  · split at done
    · exact finish there done
    · obtain ⟨relstrip, -, done⟩ := bind_ok_iff.mp done
      obtain ⟨pair, mapped, done⟩ := bind_ok_iff.mp done
      obtain ⟨edited, edits, rfl⟩ := map_ok_iff.mp mapped
      exact finish (rewriteLinks_keeps fresh there edits) done

theorem dropBase_keeps {old_baseDir d : Option Str} {new_dir : Str} {token token' : List Str}
    (done : dropBase w old_baseDir d new_dir token msg = .ok (token', msg')) : msg'.get key = some v := by
  have rewritten {change : Str → Except Fault Str} {tokens : List Str}
      (done : (rewriteLinks change msg).map (fun msg => (tokens, msg)) = .ok (token', msg')) :
      msg'.get key = some v := by
    obtain ⟨edited, edits, is⟩ := map_ok_iff.mp done
    obtain ⟨-, rfl⟩ := Prod.mk.inj is
    exact rewriteLinks_keeps fresh there edits
  have same {tokens : List Str} (done : (.ok (tokens, msg) : Except Fault _) = .ok (token', msg')) :
      msg'.get key = some v := by
    obtain ⟨-, rfl⟩ := Prod.mk.inj (Except.ok.inj done)
    exact there
  unfold dropBase at done
  split at done
  · split at done
    · split at done
      · exact rewritten done
      · exact same done
    · exact same done
  · split at done
    · exact same done
    · next fileOp _ =>
      by_cases none_ : new_dir = []
      · rw [if_pos none_] at done
        exact same done
      · rw [if_neg none_] at done
        obtain ⟨url, -, done⟩ := bind_ok_iff.mp done
        obtain ⟨text, -, done⟩ := bind_ok_iff.mp done
        obtain ⟨path, -, done⟩ := bind_ok_iff.mp done
        split at done
        · exact rewritten done
        · obtain ⟨has, -, is⟩ := map_ok_iff.mp done
          obtain ⟨-, rfl⟩ := Prod.mk.inj is
          exact there

theorem announce_keeps (baseUrl_str : Value) (path post_baseDir : Str) :
    (announce baseUrl_str path post_baseDir msg).get key = some v := by
  have fill {msg : Message} (there : msg.get key = some v) (field : String) (x : Value) :
      (if (msg.get field).isNone then msg.set field x else msg).get key = some v := by
    split
    · next missing =>
      have other : key ≠ field := by
        rintro rfl
        rw [there] at missing
        cases missing
      exact (Dict.get_set_ne msg other x).trans there
    · exact there
  unfold announce
  refine fill (fill (fill ?_ _ _) _ _) _ _
  refine set_keeps fresh (set_keeps fresh (set_keeps fresh ?_ (by decide)) (by decide)) (by decide)
  split
  · exact set_keeps fresh there (by decide)
  · exact there

/-- No fixed header is set for the field. -/
def NotFixed (o : Config.Options) (key : String) : Prop := ∀ header ∈ o.fixed_headers, header.1 ≠ key

omit fresh in
theorem fixed_keeps {headers : List (String × Value)} (unfixed : ∀ header ∈ headers, header.1 ≠ key) :
    (headers.foldl (fun msg header => Dict.set msg header.1 header.2) msg).get key = some v := by
  induction headers generalizing msg with
  | nil => exact there
  | cons header headers ih =>
    obtain ⟨here, rest⟩ := List.forall_mem_cons.mp unfixed
    exact ih ((Dict.get_set_ne msg (Ne.symm here) header.2).trans there) rest

theorem updatePaths_keeps {new_dir new_file : Str} {i : Nat} {answer : Except Fault Unit}
    (unfixed : NotFixed o key) (done : updatePaths w o steps new_dir new_file i msg = (msg', answer)) :
    msg'.get key = some v := by
  have headers := fixed_keeps there unfixed
  unfold updatePaths at done
  dsimp only at done
  split at done
  · obtain ⟨rfl, -⟩ := Prod.mk.inj done
    exact headers
  · next msg₁ marked =>
    have kept := deleteOnPost_keeps fresh headers marked
    have named : ((if new_dir ≠ [] then msg₁.set "new_dir" (.str new_dir) else msg₁).set "new_file"
        (.str new_file)).get key = some v := by
      refine set_keeps fresh ?_ (by decide)
      split
      · exact set_keeps fresh kept (by decide)
      · exact kept
    split at done
    · obtain ⟨rfl, -⟩ := Prod.mk.inj done
      exact named
    · split at done
      · obtain ⟨rfl, -⟩ := Prod.mk.inj done
        exact named
      · obtain ⟨rfl, -⟩ := Prod.mk.inj done
        exact named
      · split at done
        · split at done
          · obtain ⟨rfl, -⟩ := Prod.mk.inj done
            exact named
          · obtain ⟨rfl, -⟩ := Prod.mk.inj done
            exact announce_keeps fresh named _ _ _
        · obtain ⟨rfl, -⟩ := Prod.mk.inj done
          exact announce_keeps fresh named _ _ _

theorem nameAccepted_keeps {option filename : Str} (done : nameAccepted w o option filename msg = .ok msg') :
    msg'.get key = some v := by
  obtain ⟨name, -, done⟩ := bind_ok_iff.mp done
  have kept : (msg.set "new_file" ((name.map Value.str).getD .none)).get key = some v :=
    set_keeps fresh there (by decide)
  obtain ⟨path, -, done⟩ := bind_ok_iff.mp done
  obtain ⟨text, -, done⟩ := bind_ok_iff.mp done
  obtain ⟨file, -, done⟩ := bind_ok_iff.mp done
  obtain ⟨new_file, -, done⟩ := bind_ok_iff.mp done
  obtain rfl := Except.ok.inj done
  exact set_keeps fresh kept (by decide)

theorem pathOf_keeps {relPath : Str} (done : Placement.pathOf w o msg = .ok (relPath, msg')) :
    msg'.get key = some v := by
  unfold Placement.pathOf at done
  obtain ⟨value, -, done⟩ := bind_ok_iff.mp done
  dsimp only at done
  split at done
  · obtain ⟨url, -, done⟩ := bind_ok_iff.mp done
    obtain ⟨text, -, done⟩ := bind_ok_iff.mp done
    obtain ⟨path, -, done⟩ := bind_ok_iff.mp done
    split at done
    · obtain ⟨-, rfl⟩ := Prod.mk.inj (Except.ok.inj done)
      exact del_keeps fresh there (by decide)
    · obtain ⟨-, rfl⟩ := Prod.mk.inj (Except.ok.inj done)
      exact there
  · obtain ⟨path, -, done⟩ := bind_ok_iff.mp done
    split at done
    · obtain ⟨-, rfl⟩ := Prod.mk.inj (Except.ok.inj done)
      exact del_keeps fresh there (by decide)
    · obtain ⟨-, rfl⟩ := Prod.mk.inj (Except.ok.inj done)
      exact there

/-- From the directory pattern on. -/
theorem placed_keeps {r : Rule} {url filename new_dir : Str} {placed : Bool} (unfixed : NotFixed o key)
    (done : (match sundew_dirPattern w r.findall url filename new_dir with
      | .error _ => pure (msg, false)
      | .ok new_dir =>
        match updatePaths w o steps new_dir filename 0 msg with
        | (msg, .error _) => pure (msg, false)
        | (msg, .ok ()) =>
          match given r.maskFileOption with
          | none => pure (msg, true)
          | some option => do return (← nameAccepted w o option filename msg, true)) =
      (.ok (msg', placed) : Except Fault _)) : msg'.get key = some v := by
  split at done
  · obtain ⟨rfl, -⟩ := Prod.mk.inj (Except.ok.inj done)
    exact there
  · split at done
    · next updated =>
      obtain ⟨rfl, -⟩ := Prod.mk.inj (Except.ok.inj done)
      exact updatePaths_keeps fresh there unfixed updated
    · next updated =>
      have kept := updatePaths_keeps fresh there unfixed updated
      split at done
      · obtain ⟨rfl, -⟩ := Prod.mk.inj (Except.ok.inj done)
        exact kept
      · obtain ⟨named, names, done⟩ := bind_ok_iff.mp done
        obtain ⟨rfl, -⟩ := Prod.mk.inj (Except.ok.inj done)
        exact nameAccepted_keeps fresh kept names

theorem updateFieldsAccepted_keeps {r : Rule} {url : Str} {placed : Bool} (unfixed : NotFixed o key)
    (done : updateFieldsAccepted w o steps r url msg = .ok (msg', placed)) : msg'.get key = some v := by
  unfold updateFieldsAccepted at done
  obtain ⟨⟨relPath, msg₁⟩, one, done⟩ := bind_ok_iff.mp done
  have kept₁ := pathOf_keeps fresh there one
  obtain ⟨new_dir, -, done⟩ := bind_ok_iff.mp done
  obtain ⟨old_baseDir, -, done⟩ := bind_ok_iff.mp done
  dsimp only at done
  rw [bind_ite, bind_ite] at done
  obtain ⟨d, -, done⟩ := bind_ok_iff.mp done
  split at done <;> obtain ⟨msg₂, marked, done⟩ := bind_ok_iff.mp done
  on_goal 1 =>
    have kept₂ := deleteOnPost_keeps fresh (set_keeps fresh kept₁ (by decide)) marked
  on_goal 2 =>
    have kept₂ : msg₂.get key = some v := Except.ok.inj marked ▸ kept₁
  all_goals
    obtain ⟨⟨token, filename, msg₃⟩, stripped, done⟩ := bind_ok_iff.mp done
    have kept₃ := stripPath_keeps fresh kept₂ stripped
    obtain ⟨⟨token', msg₄⟩, dropped, done⟩ := bind_ok_iff.mp done
    have kept₄ := dropBase_keeps fresh kept₃ dropped
    obtain ⟨dir, -, done⟩ := bind_ok_iff.mp done
    exact placed_keeps fresh kept₄ unfixed done

end Edits

variable {msg msg' : Message}

include fresh in
theorem renameUnlink_keeps (there : msg.get key = some v) (done : renameUnlink msg = .ok msg') :
    msg'.get key = some v := by
  unfold renameUnlink at done
  split at done
  · obtain rfl := Except.ok.inj done
    exact there
  · exact deleteOnPost_keeps fresh (set_keeps fresh there (by decide)) done

include fresh in
theorem place_keeps {r : Rule} {url : Str} (there : msg.get key = some v) (unfixed : NotFixed o key)
    (done : place w o steps r url msg = .ok (msg', .accepted)) : msg'.get key = some v := by
  unfold place at done
  obtain ⟨⟨msg₁, placed⟩, updated, done⟩ := bind_ok_iff.mp done
  cases placed with
  | true =>
    obtain ⟨rfl, -⟩ := Prod.mk.inj (Except.ok.inj done)
    exact updateFieldsAccepted_keeps fresh there unfixed updated
  | false =>
    obtain ⟨reported, -, is⟩ := map_ok_iff.mp done
    exact nomatch (Prod.mk.inj is).2

include fresh in
theorem matched_keeps {found : Option (List (Option Str))} {i : Nat} {msg₁ : Message} (there : msg.get key = some v)
    (matched : recordMatch found msg = .ok msg₁) (indexed : recordIndex i msg₁ = .ok msg') :
    msg'.get key = some v := by
  rw [recordIndex_get (ne_written fresh (by decide)) (ne_written fresh (by decide)) indexed,
    recordMatch_get (ne_written fresh (by decide)) (ne_written fresh (by decide)) matched]
  exact there

include fresh in
theorem oldName_keeps {matched : Bool} (there : msg.get key = some v)
    (done : oldName w o steps msg = .ok (matched, msg')) : msg'.get key = some v := by
  unfold oldName at done
  obtain ⟨rename, -, done⟩ := bind_ok_iff.mp done
  cases rename with
  | false =>
    obtain ⟨-, rfl⟩ := Prod.mk.inj (Except.ok.inj done)
    exact there
  | true =>
    obtain ⟨baseUrl, -, done⟩ := bind_ok_iff.mp done
    obtain ⟨text, -, done⟩ := bind_ok_iff.mp done
    obtain ⟨base, -, done⟩ := bind_ok_iff.mp done
    obtain ⟨fileOp, -, done⟩ := bind_ok_iff.mp done
    obtain ⟨value, -, done⟩ := bind_ok_iff.mp done
    obtain ⟨old, -, done⟩ := bind_ok_iff.mp done
    obtain ⟨url, -, done⟩ := bind_ok_iff.mp done
    unfold matchOldName at done
    split at done
    · obtain ⟨-, rfl⟩ := Prod.mk.inj (Except.ok.inj done)
      exact there
    · cases done
    · split at done
      · obtain ⟨-, rfl⟩ := Prod.mk.inj (Except.ok.inj done)
        exact there
      · obtain ⟨msg₁, matched, done⟩ := bind_ok_iff.mp done
        obtain ⟨msg₂, indexed, done⟩ := bind_ok_iff.mp done
        obtain ⟨-, rfl⟩ := Prod.mk.inj (Except.ok.inj done)
        exact matched_keeps fresh there matched indexed

include fresh in
/-- The masks accept a message with the field as it was. -/
theorem select_keeps {oldname_matched : Bool} (there : msg.get key = some v) (unfixed : NotFixed o key)
    (done : select w o steps oldname_matched msg = .ok (msg', .accepted)) : msg'.get key = some v := by
  unfold select at done
  obtain ⟨url, -, done⟩ := bind_ok_iff.mp done
  obtain ⟨toMatch, -, done⟩ := bind_ok_iff.mp done
  obtain ⟨first, -, done⟩ := bind_ok_iff.mp done
  cases first with
  | none =>
    obtain ⟨rename, -, done⟩ := bind_ok_iff.mp done
    split at done
    · obtain ⟨unlinked, unlinks, done⟩ := bind_ok_iff.mp done
      exact place_keeps fresh (renameUnlink_keeps fresh there unlinks) unfixed done
    · split at done
      · exact place_keeps fresh there unfixed done
      · obtain ⟨reported, -, is⟩ := map_ok_iff.mp done
        exact nomatch (Prod.mk.inj is).2
  | some picked =>
    obtain ⟨mask, i, found⟩ := picked
    obtain ⟨msg₁, matched, done⟩ := bind_ok_iff.mp done
    split at done
    · obtain ⟨rename, -, done⟩ := bind_ok_iff.mp done
      split at done
      · obtain ⟨unlinked, -, done⟩ := bind_ok_iff.mp done
        exact nomatch (Prod.mk.inj (Except.ok.inj done)).2
      · obtain ⟨reported, -, is⟩ := map_ok_iff.mp done
        exact nomatch (Prod.mk.inj is).2
    · obtain ⟨indexed, indexes, done⟩ := bind_ok_iff.mp done
      exact place_keeps fresh (matched_keeps fresh there matched indexes) unfixed done

end Keeps

/-! ## The messages the filter lets through -/

section Accepted
variable {w : World} {o : Config.Options} {steps : Nat} {msg msg' : Message}

/-- The time of the message is read, and its path is a text. -/
def Readable (msg : Message) : Prop :=
  (∃ path, msg.get "relPath" = some (.str path)) ∧ ∃ t, timeOf msg "pubTime" = .ok t

theorem timeOf_congr {field : String} (same : msg'.get field = msg.get field) :
    timeOf msg' field = timeOf msg field := by
  unfold timeOf Dict.item
  rw [same]

theorem classify_readable (time : NotFixed o "pubTime") (path : NotFixed o "relPath")
    (done : classify w o steps msg = .ok (msg', .accepted)) : Readable msg' := by
  unfold classify at done
  obtain ⟨age, aged, done⟩ := bind_ok_iff.mp done
  cases age with
  | messageTooOld lag =>
    obtain ⟨id, -, done⟩ := bind_ok_iff.mp done
    obtain ⟨reported, -, is⟩ := map_ok_iff.mp done
    exact nomatch (Prod.mk.inj is).2
  | fileTooOld age =>
    obtain ⟨id, -, done⟩ := bind_ok_iff.mp done
    obtain ⟨reported, -, is⟩ := map_ok_iff.mp done
    exact nomatch (Prod.mk.inj is).2
  | fileTooYoung => exact nomatch (Prod.mk.inj (Except.ok.inj done)).2
  | inTime =>
    obtain ⟨⟨matched, msg₁⟩, old, done⟩ := bind_ok_iff.mp done
    obtain ⟨t, time_, -⟩ := bind_ok_iff.mp aged
    obtain ⟨pubTime, here, read⟩ := bind_ok_iff.mp time_
    have there := Dict.item_ok_iff.mp here
    have kept := select_keeps (by decide) (oldName_keeps (by decide) there old) time done
    obtain ⟨url, located, -⟩ := bind_ok_iff.mp done
    obtain ⟨base, -, located⟩ := bind_ok_iff.mp located
    obtain ⟨baseUrl, -, located⟩ := bind_ok_iff.mp located
    obtain ⟨value, has, located⟩ := bind_ok_iff.mp located
    obtain ⟨relPath, is, -⟩ := bind_ok_iff.mp located
    obtain rfl := (asStr_eq_ok_iff _ _).mp is
    refine ⟨⟨relPath, select_keeps (by decide) (Dict.item_ok_iff.mp has) path done⟩, t, ?_⟩
    rw [timeOf_congr (kept.trans there.symm)]
    exact time_

theorem filterLoop_readable {hs : List Held} {s s' : Sorted} (time : NotFixed o "pubTime")
    (path : NotFixed o "relPath") (before : ∀ m ∈ s.filtered, Readable m.fields)
    (done : filterLoop w o steps hs s = .ok s') : ∀ m ∈ s'.filtered, Readable m.fields := by
  induction hs generalizing s with
  | nil =>
    obtain rfl := Except.ok.inj done
    exact before
  | cons h hs ih =>
    obtain ⟨⟨fields, fate⟩, classified, done⟩ := bind_ok_iff.mp done
    refine ih ?_ done
    cases fate with
    | accepted =>
      intro m member
      rcases List.mem_append.mp member with earlier | here
      · exact before m earlier
      · rw [List.mem_singleton.mp here]
        exact classify_readable time path classified
    | rejected | failed | dropped => exact before

/-- What `filter` leaves to be worked on has a time that was read and a text for a path. -/
theorem filter_readable {before after : Worklist} (time : NotFixed o "pubTime") (path : NotFixed o "relPath")
    (done : filter w o steps before = .ok after) : ∀ m ∈ after.incoming, Readable m.fields := by
  obtain ⟨s, finished, done⟩ := bind_ok_iff.mp done
  obtain rfl := Except.ok.inj done
  exact filterLoop_readable time path (fun _ member => absurd member List.not_mem_nil) finished

end Accepted
end Sarracenia.Guarantees.Filter
