import Sarracenia.Guarantees.DoDownload.Operations

/-!
# What a turn of `do_download` needs

A turn puts its message on exactly one list when nothing is raised on its way and `do_fileOp`
leaves it on no list where it falls through. Each stage of the turn has a precondition of its own,
on the fields of the message and the answers of the host, and on what the stage goes on with.

* up to the download: the destination (`meets_destination`), its directory (`meets_enter`), the
  name to download into (`meets_prepare`);
* from there: what is there already (`meets_overwrite`), the content and the attempts at the transfer
  (`meets_downloadLoop`, `meets_getContent`);
* the turn as a whole (`turn_once_iff`).
-/
namespace Sarracenia.Guarantees.DoDownload
open Library Library.Text Library.Dynamic Library.Exits Source Source.DoDownload
open Guarantees.Filter (Returns Container Markable Reportable)

section Arrival
variable (w : World) (e : Answers)

/-- What finding the destination needs: a message that is not refused has the texts of a directory
and a file, or a directory to take both from and a `fileOp`. -/
def Destined (msg : Message) (rest : Destination → Prop) : Prop :=
  if (msg.get "newname").isSome then True
  else if isMissing msg "new_dir" then Reportable msg
  else if isMissing msg "new_file" then
    ∃ new_dir length, msg.get "new_dir" = some new_dir ∧ len new_dir = .ok length ∧
      if length < 2 then Reportable msg
      else (msg.get "fileOp").isSome ∧ ∃ path, new_dir = .str path ∧
        rest ⟨takeName msg path, dirname path, Config.basename path⟩
  else ∃ new_dir new_file, msg.get "new_dir" = some (.str new_dir) ∧
    msg.get "new_file" = some (.str new_file) ∧ rest ⟨msg, new_dir, new_file⟩

/-- What entering the directory needs: a message that can be reported where there is none, and none
is made. -/
def Enters (d : Destination) (rest : Prop) : Prop :=
  if e.isdir then e.chdir → rest
  else ∃ removes, isRemove d.msg = .ok removes ∧
    if removes ∨ ¬ e.makedirs then Reportable d.msg else e.chdir → rest

variable {w e}

theorem item_text_iff {msg : Message} {field : String} {s : Str} :
    (msg.item field >>= Value.asStr) = .ok s ↔ msg.get field = some (.str s) := by
  rw [bind_ok_iff]
  simp only [Dict.item_ok_iff, Filter.asStr_eq_ok_iff]
  constructor
  · rintro ⟨v, here, rfl⟩
    exact here
  · intro here
    exact ⟨_, here, rfl⟩

theorem meets_nameFile {msg : Message} {post : Message → Prop} :
    Meets (nameFile w msg) post ↔
      if isMissing msg "new_file" then
        ∃ new_dir length, msg.get "new_dir" = some new_dir ∧ len new_dir = .ok length ∧
          if length < 2 then Reportable msg
          else (msg.get "fileOp").isSome ∧ ∃ path, new_dir = .str path ∧ post (takeName msg path)
      else post msg := by
  unfold nameFile
  split
  · simp only [meets_bind, meets_attempt, meets_ite, meets_reject, Dict.item_ok_iff]
    cases msg.get "fileOp" with
    | none => simp
    | some fileOp => simp [Filter.asStr_eq_ok_iff]
  · simp

theorem meets_destination {msg : Message} {rest : Destination → Prop} :
    Meets (destination w msg) rest ↔ Destined msg rest := by
  unfold destination Destined
  rw [meets_ite]
  split
  · exact iff_of_true meets_leave trivial
  · rw [meets_ite]
    split
    · exact meets_reject ..
    · simp only [meets_bind, meets_attempt, meets_pure, item_text_iff, meets_nameFile]
      split
      · simp [takeName]
      · constructor
        · rintro ⟨new_dir, hasDir, new_file, hasFile, goes⟩
          exact ⟨new_dir, new_file, hasDir, hasFile, goes⟩
        · rintro ⟨new_dir, new_file, hasDir, hasFile, goes⟩
          exact ⟨new_dir, hasDir, new_file, hasFile, goes⟩

theorem meets_enter {d : Destination} {rest : Prop} :
    Meets (enter w e d) (fun _ => rest) ↔ Enters e d rest := by
  unfold enter Enters
  cases e.isdir with
  | true => cases e.chdir <;> simp
  | false =>
    simp only [Bool.not_false, if_true, meets_bind, meets_attempt, meets_ite, meets_reject,
      meets_pure, meets_leave, Bool.false_eq_true, if_false]
    refine exists_congr fun removes => and_congr_right fun _ => ?_
    cases removes <;> cases e.makedirs <;> cases e.chdir <;> simp

end Arrival

section Inflight
variable (w : World) (o : DoDownload.Options)

/-- What the limit on sizes needs: a size that is a number, and where it is too large a message that
can be named and reported. -/
def Fits (msg : Message) (rest : Prop) : Prop :=
  ∃ large, tooLarge o msg = .ok large ∧
    if large then Returns msg.getIDStr ∧ Reportable msg else rest

/-- What the name to download into needs: a setting that names one, or names none after a turn that
had one. -/
def Inflight (last : Option Str) (msg : Message) (d : Destination) (rest : Str → Prop) : Prop :=
  match o.inflight with
  | .none => rest d.new_file
  | .str s => ∃ inplace, isInplace msg = .ok inplace ∧
      if inplace then rest d.new_file
      else ∃ named, Download.new_inflight_path (some s) d.new_file = .ok named ∧
        ∃ path, named.or last = some path ∧ rest path
  | _ => ∃ inplace, isInplace msg = .ok inplace ∧
      if inplace then rest d.new_file else Reportable msg

variable {w o}

theorem meets_inflightPath {last : Option Str} {msg : Message} {d : Destination} {rest : Str → Prop} :
    Meets (inflightPath w o last msg d) rest ↔ Inflight o last msg d rest := by
  unfold inflightPath Inflight
  cases o.inflight with
  | none => simp
  | str s =>
    simp only [meets_bind, meets_attempt, meets_ite, meets_pure]
    refine exists_congr fun inplace => and_congr_right fun _ => ?_
    split
    · rfl
    · refine exists_congr fun named => and_congr_right fun _ => ?_
      cases named <;> cases last <;> simp
  | _ =>
    simp only [meets_bind, meets_attempt, meets_ite, meets_pure, meets_reject]

theorem meets_prepare {last : Option Str} {msg : Message} {d : Destination} {rest : Str → Prop} :
    Meets (prepare w o last msg d) rest ↔ Fits o msg (Inflight o last msg d rest) := by
  unfold prepare Fits
  simp only [meets_bind, meets_attempt, meets_ite, meets_reject, meets_inflightPath]
  refine exists_congr fun large => and_congr_right fun _ => ?_
  split
  · simp [Returns]
  · rfl

end Inflight

section Comparison
variable (w : World) (o : DoDownload.Options) (e : Answers) (msg : Message) (rest : Message → Prop)

/-- What the comparison of checksums needs; one that cannot be computed is taken for another. -/
def Differs (st_mtime : ℚ) : Prop :=
  if (msg.get "identity").isNone ∨ ¬ e.reads then rest msg
  else match Identity.compute_local_checksum e.inline.toWorld o.toInline.toOptions e.file
      (e.inline.mtimeText st_mtime) msg with
    | .error _ => rest msg
    | .ok msg => if sameChecksum w msg then Reportable msg else rest msg

/-- What the comparison with a file that is there needs: permission to `stat` it, an identity that
can be looked into, and times that can be read where they are compared. -/
def Compares : Prop :=
  match e.lstat with
  | .permissionError => False
  | .exception => rest msg
  | .found st_size st_mtime => ∃ method, methodOf msg = .ok method ∧
      if isBinary method then
        if sizeDiffers st_size msg then rest msg
        else ∃ old, notNewer o e st_mtime msg = .ok old ∧
          if old then Reportable msg else Differs w o e msg rest st_mtime
      else if method.equals "random".toList ∨ method.equals "cod".toList then rest msg
      else Differs w o e msg rest st_mtime

/-- What is there already, if anything, is in nobody's way. -/
def Overwrites : Prop :=
  if e.isfile then if o.overwrite then Compares w o e msg rest else Reportable msg
  else rest msg

variable {w o e msg rest}

theorem meets_compareChecksums (st_mtime : ℚ) (new_path : Str) :
    Meets (compareChecksums w o e st_mtime msg new_path) rest ↔ Differs w o e msg rest st_mtime := by
  unfold compareChecksums Differs
  simp only [meets_ite, Bool.or_eq_true, Bool.not_eq_true', Bool.not_eq_true]
  split
  · rfl
  · cases Identity.compute_local_checksum e.inline.toWorld o.toInline.toOptions e.file
      (e.inline.mtimeText st_mtime) msg with
    | error fault => rfl
    | ok msg =>
      rw [meets_ite]
      simp only [meets_reject, meets_ok]

theorem meets_file_should_be_downloaded (new_path : Str) :
    Meets (file_should_be_downloaded w o e msg new_path) rest ↔ Compares w o e msg rest := by
  unfold file_should_be_downloaded Compares
  cases e.lstat with
  | permissionError => simp
  | exception => rfl
  | found st_size st_mtime =>
    simp only [meets_bind, meets_attempt, meets_ite, meets_pure, meets_reject,
      meets_compareChecksums, Bool.or_eq_true]

theorem meets_overwrite (new_path : Str) :
    Meets (overwrite w o e msg new_path) rest ↔ Overwrites w o e msg rest := by
  unfold overwrite Overwrites
  simp only [meets_ite, meets_reject, meets_file_should_be_downloaded, meets_pure]
  cases o.overwrite <;> simp

end Comparison

section Transfer
variable (w : World) (o : DoDownload.Options) (e : Answers)

/-- A size, where there is one, is a number. -/
def Sized (msg : Message) : Prop := ∀ size, msg.get "size" = some size → Returns size.asNumber

/-- What the attempts left need, from the one at `i` on: the first that decides leaves a message
that can be reported, with a size to divide where it is done. -/
def Downloads : Nat → Nat → Message → Prop
  | 0, _, _ => True
  | n + 1, i, msg =>
    match e.download i msg with
    | (msg, .done) => Reportable msg ∧ Sized msg
    | (msg, .permanent) => Reportable msg
    | (msg, .failed) => Downloads n (i + 1) msg

def Fetches (msg : Message) : Prop :=
  ∃ baseUrl, msg.get "baseUrl" = some baseUrl ∧ Returns (baseUrlParse w baseUrl) ∧
    Downloads e o.attempts.toNat 0 msg

/-- What content that comes with the message needs: that writing it returns, and a size and a report
where it is written. -/
def Contents (msg : Message) : Prop :=
  if (msg.get "content").isSome then
    match Inline.write_inline_file e.inline o.toInline msg (if e.isfile then some e.file else none) with
    | (_, _, .error _) => False
    | (_, msg, .ok true) => (msg.get "size").isSome ∧ Sized msg ∧ Reportable msg
    | (_, msg, .ok false) => Fetches w o e msg
  else Fetches w o e msg

/-- What the end of a turn needs, from the marks on the names on. -/
def Transfers (msg : Message) (new_path new_inflight_path : Str) : Prop :=
  ∃ marked, mark msg new_path new_inflight_path = .ok marked ∧
    if o.inflight.truthy ∧ e.inflightExists then Returns (previousAttempt e)
    else Overwrites w o e marked (Contents w o e)

variable {w o e}

theorem setRate_returns {msg : Message} {report : Dict Value}
    (reported : msg.get "report" = some (.dict report)) (rate : ℚ) : Returns (setRate rate msg) := by
  unfold setRate
  rw [Dict.item_ok_iff.mpr reported]
  exact ⟨_, rfl⟩

theorem rateOf_returns_iff (msg : Message) :
    Returns (rateOf e msg) ↔ (msg.get "size").isSome ∧ Sized msg := by
  unfold rateOf Sized
  cases size : msg.get "size" with
  | none => simp [Dict.item, size, bind, Except.bind]
  | some v =>
    rw [Dict.item_ok_iff.mpr size]
    cases measured : v.asNumber with
    | error fault => simp [measured, bind, Except.bind]
    | ok n => simp [measured, bind, Except.bind, pure, Except.pure]

/-- A rate can be set in a message with a report, where it has a size that is a number. -/
theorem rated_returns_iff {msg : Message} {report : Dict Value}
    (reported : msg.get "report" = some (.dict report)) :
    Returns (rateOf e msg >>= (setRate · msg)) ↔ (msg.get "size").isSome ∧ Sized msg := by
  rw [← rateOf_returns_iff, Filter.returns_bind]
  exact exists_congr fun rate => and_iff_left (setRate_returns reported rate)

theorem Sized.congr {msg msg' : Message} (same : msg'.get "size" = msg.get "size") :
    Sized msg' ↔ Sized msg := by
  unfold Sized
  rw [same]

/-- A report does not change the size. -/
theorem reported_size {msg msg' : Message} {now : Str} {code : Int} {text : Str}
    (reported : msg.setReport now code text = .ok msg') : msg'.get "size" = msg.get "size" :=
  Guarantees.Message.setReport_get reported (by decide) (by decide)

theorem meets_downloaded (msg : Message) {post : Empty → Prop} :
    Meets (downloaded w e msg) post ↔ Reportable msg ∧ Sized msg := by
  unfold downloaded
  rw [meets_bind, ← meets_setReport (w := w) msg 201 "Download successful".toList]
  simp only [setReport, meets_attempt, meets_bind, meets_leave, and_true]
  refine exists_congr fun msg' => and_congr_right fun reported => ?_
  obtain ⟨report, there⟩ := Guarantees.Message.setReport_report reported
  rw [← Sized.congr (reported_size reported)]
  cases has : msg'.get "size" with
  | none => simp [Sized, has]
  | some v =>
    have rated := rated_returns_iff (e := e) there
    rw [has, Option.isSome_some, eq_self, true_and] at rated
    exact rated

theorem meets_downloadLoop (n i : Nat) (msg : Message) {post : Empty → Prop} :
    Meets (downloadLoop w e n i msg) post ↔ Downloads e n i msg := by
  induction n generalizing i msg with
  | zero => exact iff_of_true meets_leave trivial
  | succ n ih =>
    rw [downloadLoop, Downloads]
    rcases e.download i msg with ⟨msg, retval⟩
    cases retval with
    | done => exact meets_downloaded msg
    | permanent => exact meets_reject ..
    | failed => exact ih (i + 1) msg

theorem meets_writtenInline (msg : Message) {post : Empty → Prop} :
    Meets (writtenInline w e msg) post ↔ (msg.get "size").isSome ∧ Sized msg ∧ Reportable msg := by
  unfold writtenInline
  simp only [meets_bind, meets_attempt, setReport, meets_leave, and_true]
  rw [← and_assoc, ← rateOf_returns_iff (e := e), ← Filter.setReport_returns_iff w.nowstr msg 201
    "Download successful (inline content)".toList]
  constructor
  · rintro ⟨rate, rated, msg', reported, -⟩
    exact ⟨⟨rate, rated⟩, msg', reported⟩
  · rintro ⟨⟨rate, rated⟩, msg', reported⟩
    obtain ⟨report, there⟩ := Guarantees.Message.setReport_report reported
    exact ⟨rate, rated, msg', reported, setRate_returns there rate⟩

theorem meets_fetch (msg : Message) {post : Empty → Prop} :
    Meets (fetch w o e msg) post ↔ Fetches w o e msg := by
  unfold fetch Fetches
  simp only [meets_bind, meets_attempt, Dict.item_ok_iff, meets_downloadLoop, Returns, exists_and_right]

theorem meets_getContent (msg : Message) {post : Empty → Prop} :
    Meets (getContent w o e msg) post ↔ Contents w o e msg := by
  unfold getContent Contents
  split
  · rcases Inline.write_inline_file e.inline o.toInline msg (if e.isfile then some e.file else none)
      with ⟨_, msg, fault | written⟩
    · simp
    · cases written with
      | true => exact meets_writtenInline msg
      | false => exact meets_fetch msg
  · exact meets_fetch msg

theorem meets_transfer (msg : Message) (new_path new_inflight_path : Str) {post : Empty → Prop} :
    Meets (transfer w o e msg new_path new_inflight_path) post ↔
      Transfers w o e msg new_path new_inflight_path := by
  unfold transfer Transfers
  simp only [meets_bind, meets_attempt, meets_ite, meets_leave, meets_getContent, meets_overwrite,
    Bool.and_eq_true, and_true, Returns]

end Transfer

section Turn
variable (w : World) (o : DoDownload.Options) (e : Answers)

/-- What a turn needs, with the name that was downloaded into last. -/
def Sound (last : Option Str) (msg : Message) : Prop :=
  Destined msg fun d => Enters e d <|
    DoesFileOp w o e.operations d.msg fun msg =>
      Fits o msg (Inflight o last msg d (Transfers w o e msg d.new_path))

variable {w o e}

theorem meets_arrive {msg : Message} {rest : Destination → Message → Prop} :
    Meets (arrive w o e msg) (fun r => r.2.2 = false ∧ rest r.1 r.2.1) ↔
      Destined msg fun d => Enters e d (DoesFileOp w o e.operations d.msg (rest d)) := by
  unfold arrive
  simp only [meets_bind, meets_pure, meets_do_fileOp, meets_enter, meets_destination]

/-- A turn that is left with a message has put it on one list, or on `ok` and one more. -/
theorem ended_puts {twice : Bool} {last : Option Str} {exit : Exit Fault (Message × Slot)} {t : Turn}
    (done : Turn.ended twice last exit = .ok t) : ∃ slot, t.puts = [slot] ∨ t.puts = [.ok, slot] := by
  cases exit with
  | raises fault => cases done
  | leaves answer =>
    obtain rfl := Except.ok.inj done
    cases twice with
    | false => exact ⟨answer.2, .inl rfl⟩
    | true => exact ⟨answer.2, .inr rfl⟩

theorem turn_puts {last : Option Str} {msg : Message} {t : Turn} (done : turn w o e last msg = .ok t) :
    ∃ slot, t.puts = [slot] ∨ t.puts = [.ok, slot] := by
  unfold turn at done
  split at done
  · exact ended_puts done
  · split at done
    · exact ended_puts done
    · split at done
      · exact ended_puts done
      · next never _ => exact never.elim

/-- The turn ends, and has put its message on one list. -/
def Once (t : Except Fault Turn) : Prop := ∃ t' slot, t = .ok t' ∧ t'.puts = [slot]

theorem ended_once_iff {twice : Bool} {last : Option Str} {exit : Exit Fault (Message × Slot)} :
    Once (Turn.ended twice last exit) ↔ twice = false ∧ ∃ answer, exit = .leaves answer := by
  unfold Once
  cases exit with
  | raises fault => simp [Turn.ended]
  | leaves answer => cases twice <;> simp [Turn.ended]

theorem turn_once_iff {last : Option Str} {msg : Message} :
    Once (turn w o e last msg) ↔ Sound w o e last msg := by
  unfold Sound
  rw [← meets_arrive (w := w) (o := o)]
  unfold turn
  cases arrive w o e msg with
  | error exit => rw [ended_once_iff, meets_error, eq_self, true_and]
  | ok arrived =>
    obtain ⟨d, msg, twice⟩ := arrived
    rw [meets_ok, ← meets_prepare (w := w)]
    dsimp only
    cases prepare w o last msg d with
    | error exit => rw [ended_once_iff, meets_error]
    | ok path =>
      have ends : Meets (transfer w o e msg d.new_path path) (fun _ => True) ↔
        Transfers w o e msg d.new_path path := meets_transfer ..
      rw [meets_ok, ← ends]
      dsimp only
      cases transfer w o e msg d.new_path path with
      | error exit => rw [ended_once_iff, meets_error]
      | ok never => exact never.elim

end Turn
end Sarracenia.Guarantees.DoDownload
