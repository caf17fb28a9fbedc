import Sarracenia.Source.Send
import Sarracenia.Guarantees.Writing

/-!
# What `send` reports about a file under a temporary name

A whole file goes out under the in-flight name and is renamed. The return value is
truthful when a value above 0 means that the destination holds every byte, and when
an upload that stopped early is neither reported as sent nor renamed.

* the upload's own account: what each class leaves under the temporary name and when
  it comes back without an exception (`putEither_back`, `putEither_raises`);
* an `sftp` upload that comes back left the whole file (`sftp_back_whole`);
* `send` is truthful exactly in the runs where no upload comes back short and is then
  renamed, and where the connection is still in `new_dir` (`send_truthful_iff`);
* an `ftp` upload of three bytes that stops after one is renamed and reported as sent.
-/
namespace Sarracenia.Guarantees.Send
open Library Library.Text Library.Dynamic Source Source.Transfer Source.Send Guarantees.Writing

section Blocks

theorem readBlocks_flatten (bufSize : Nat) (buffered : 0 < bufSize) :
    ∀ (steps : Nat) (src : Bytes), src.length ≤ steps →
      (readBlocks bufSize steps src).flatten = src
  | 0, src, short => by
    have empty : src = [] := List.eq_nil_of_length_eq_zero (by omega)
    simp [readBlocks, empty]
  | steps + 1, src, short => by
    rw [readBlocks]
    split
    · next stop =>
      cases src with
      | nil => rfl
      | cons b src =>
        obtain ⟨size, rfl⟩ : ∃ size, bufSize = size + 1 := ⟨bufSize - 1, by omega⟩
        simp at stop
    · have fewer : (src.drop bufSize).length ≤ steps := by
        rw [List.length_drop]
        omega
      rw [List.flatten_cons, readBlocks_flatten bufSize buffered steps _ fewer,
        List.take_append_drop]

/-- Reading block by block reads the file. -/
theorem blocks_flatten (bufSize : Nat) (buffered : 0 < bufSize) (src : Bytes) :
    (blocks bufSize src).flatten = src :=
  readBlocks_flatten bufSize buffered src.length src (Nat.le_refl _)

/-- Sending that no exception ends hands over every buffer. -/
theorem sendAll_handed (u : Upload) (fits : Bytes → Bool) (encode : Bytes → Bytes) :
    ∀ (i : Nat) (bufs : List Bytes), (u.sendAll fits encode i bufs).broke = false →
      (u.sendAll fits encode i bufs).handed = (bufs.map encode).flatten ∧
        (u.sendAll fits encode i bufs).rw_length = ((bufs.map encode).flatten).length
  | _, [], _ => by simp [Upload.sendAll]
  | i, buf :: rest, unbroken => by
    unfold Upload.sendAll at unbroken ⊢
    split at unbroken
    · cases unbroken
    · split at unbroken
      · cases unbroken
      · next fit taken =>
        obtain ⟨handed, counted⟩ := sendAll_handed u fits encode (i + 1) rest unbroken
        simp [fit, taken, handed, counted]

end Blocks

section Account
variable (s : Server) (o : Send.Options) (proto : Proto) (msg : Message) (run : Run)
  (e : Extent) (src : Bytes)

/-- Every byte of the local file; in a text transfer, with the line ends of that mode. -/
def image : Bytes :=
  if proto = .ftp ∧ o.binary = false ∧ accelerated o e = false then
    ((byteLines src).map crlf).flatten
  else src

def sent : Sent :=
  match proto with
  | .ftp => run.upload.stor o.toOptions src
  | .sftp => run.upload.sendAll (fun _ => true) id 0 (blocks o.bufSize src)

/-- The upload comes back without an exception: an `ftp` upload whenever the local file
opens, an `sftp` upload only if every request was answered. -/
def comesBack : Bool :=
  if accelerated o e then run.accel.exit = 0
  else match proto with
    | .ftp => run.upload.readable
    | .sftp => run.upload.opening = .done && run.upload.readable && !(sent o .sftp run src).broke &&
        (o.nofsetstat || run.upload.truncates)

/-- What the far end has under the name once the upload is back. -/
def held (before : Option Bytes) : Option Bytes :=
  if accelerated o e then run.accel.left.elim before fun n => some (src.take n)
  else match proto with
    | .ftp => run.upload.leaves (sent o .ftp run src) before
    | .sftp => some (sent o .sftp run src).handed

def counted : Int :=
  if accelerated o e then truncate e.size else (sent o proto run src).rw_length

/-- The file an upload under the name writes, the connection being in `dir`. -/
def target (dir name : Str) : Str :=
  s.resolve (if accelerated o e then announcedDir msg else dir) name

theorem sftp_put_back (name : Str) (r : Remote) (fast : accelerated o e = false)
    (back : comesBack o .sftp run e src = true) :
    Sftp.put s o.toOptions run.upload src name 0 0 0 r =
      (r.write (s.resolve r.cwd name) (some (sent o .sftp run src).handed),
        .ok (sent o .sftp run src).rw_length) := by
  simp only [comesBack, fast, Bool.false_eq_true, if_false, Bool.and_eq_true, decide_eq_true_eq,
    Bool.not_eq_true'] at back
  obtain ⟨⟨⟨opened, readable⟩, unbroken⟩, settled⟩ := back
  have exact := sendAll_handed _ _ _ _ _ unbroken
  simp only [sent] at unbroken
  unfold Sftp.put
  simp only [opened, readable, reduceCtorEq, if_true, if_false, ne_eq, not_true_eq_false,
    decide_false, Bool.false_and, Bool.or_false, Bool.not_true, Bool.false_eq_true, List.drop_zero,
    unbroken, Bool.false_or, decide_true, Bool.true_or, Bool.true_and, patch_nil, sent]
  have whole : (run.upload.sendAll (fun _ => true) id 0 (blocks o.bufSize src)).rw_length =
      (run.upload.sendAll (fun _ => true) id 0 (blocks o.bufSize src)).handed.length := by
    rw [exact.1, exact.2]
  rw [whole, setLength_self]
  cases limited : o.nofsetstat with
  | true => simp
  | false =>
    have truncates : run.upload.truncates = true := by simpa [limited] using settled
    simp [truncates]

/-- An upload that comes back has written the target and nothing else. -/
theorem putEither_back (name : Str) (r : Remote) (back : comesBack o proto run e src = true) :
    putEither s o proto msg run e src name r =
      (r.write (target s o msg e r.cwd name)
          (held o proto run e src (r.files (target s o msg e r.cwd name))),
        .ok (counted o proto run e src)) := by
  unfold putEither target held counted
  cases fast : accelerated o e with
  | true =>
    have exited : run.accel.exit = 0 := by simpa [comesBack, fast] using back
    cases left : run.accel.left with
    | none =>
      have same : r.write (s.resolve (announcedDir msg) name)
          (r.files (s.resolve (announcedDir msg) name)) = r := by
        cases r
        simp only [Remote.write, Remote.mk.injEq, and_true]
        funext path
        split
        · next here => rw [here]
        · rfl
      simp [putAccelerated, exited, left, truncate, same]
    | some n => simp [putAccelerated, exited, left, truncate]
  | false =>
    cases proto with
    | ftp =>
      have readable : run.upload.readable = true := by simpa [comesBack, fast] using back
      simp [put, Ftp.put, readable, sent]
    | sftp =>
      simp only [Bool.false_eq_true, if_false, put]
      exact sftp_put_back s o run e src name r fast back

theorem sftp_put_raises (name : Str) (r : Remote) (fast : accelerated o e = false)
    (fails : comesBack o .sftp run e src = false) :
    ∃ r₁ f, Sftp.put s o.toOptions run.upload src name 0 0 0 r = (r₁, .error f) ∧
      r₁.renames = r.renames := by
  unfold Sftp.put
  simp only [List.drop_zero, if_true, ne_eq, not_true_eq_false, decide_false, Bool.false_and,
    Bool.or_false, decide_true, Bool.true_or, Bool.true_and]
  split
  · exact ⟨r, .osError, rfl, rfl⟩
  · next opened =>
    split
    · exact ⟨_, .osError, rfl, rfl⟩
    · next ready =>
      split
      · exact ⟨_, .osError, rfl, rfl⟩
      · next settled =>
        exfalso
        have back : comesBack o .sftp run e src = true := by
          cases opening : run.upload.opening <;> cases limited : o.nofsetstat <;>
            simp_all [comesBack, sent]
        rw [back] at fails
        cases fails

theorem putEither_raises (name : Str) (r : Remote) (fails : comesBack o proto run e src = false) :
    ∃ r₁ f, putEither s o proto msg run e src name r = (r₁, .error f) ∧
      r₁.renames = r.renames := by
  unfold putEither
  cases fast : accelerated o e with
  | true =>
    have exited : run.accel.exit ≠ 0 := by simpa [comesBack, fast] using fails
    cases left : run.accel.left with
    | none => exact ⟨r, .osError, by simp [putAccelerated, exited, left], rfl⟩
    | some n =>
      exact ⟨r.write (s.resolve (announcedDir msg) name) (some (src.take n)), .osError,
        by simp [putAccelerated, exited, left], rfl⟩
  | false =>
    simp only [Bool.false_eq_true, if_false, put]
    cases proto with
    | ftp =>
      have unread : run.upload.readable = false := by simpa [comesBack, fast] using fails
      exact ⟨r, .osError, by simp [Ftp.put, unread], rfl⟩
    | sftp => exact sftp_put_raises s o run e src name r fast fails

/-- An `sftp` upload that comes back left every byte. -/
theorem sftp_back_whole (before : Option Bytes) (fast : accelerated o e = false)
    (buffered : 0 < o.bufSize) (back : comesBack o .sftp run e src = true) :
    held o .sftp run e src before = some (image o .sftp e src) := by
  have unbroken : (sent o .sftp run src).broke = false := by
    simp only [comesBack, fast, Bool.false_eq_true, if_false, Bool.and_eq_true,
      Bool.not_eq_true'] at back
    exact back.1.2
  have handed := (sendAll_handed _ _ _ _ _ unbroken).1
  simp only [held, fast, image, reduceCtorEq, false_and, if_false, Bool.false_eq_true, sent, handed,
    List.map_id, blocks_flatten o.bufSize buffered]

end Account

section Temporary

/-- The temporary name of an `inflight` setting, for the settings that send under one. -/
def temporaryName (inflight : Inflight) (new_file : Str) : Option Str :=
  match inflight with
  | .none | .interval _ => none
  | .text inflight =>
    if inflight = ['.'] then some ('.' :: new_file)
    else if inflight.head? = some '.' then some (new_file ++ inflight)
    else if inflight.getLast? = some '/' then some (inflight ++ new_file)
    else none

/-- The temporary name stands in a directory of its own. -/
def intoDirectory : Inflight → Bool
  | .text inflight => inflight.head? ≠ some '.' && inflight.getLast? = some '/'
  | _ => false

variable (run : Run) (inflight : Inflight) (new_dir : Str)

/-- The directory in which the connection uploads and renames. -/
def uploadDir (cwd : Str) : Str :=
  if intoDirectory inflight then
    if run.inflightDir.raised then run.inflightDir.at_ else run.backDir.at_
  else if cwd = new_dir then cwd else run.cd_forced.at_

/-- What must hold before the upload is attempted. -/
structure Reaches (msg : Message) (cwd : Str) (src : Bytes) (e : Extent) : Prop where
  asked : run.getcwd = true
  arrived : cwd = new_dir ∨ run.cd_forced.raised = false
  here : run.localFile = some src
  known : extent msg src = .ok e

end Temporary

section Legs
variable (s : Server) (o : Send.Options) (proto : Proto) (msg : Message) (run : Run)
  (new_dir new_file tmp : Str)

/-- The test on the number of bytes. -/
def tested (e : Extent) : Remote × Leg → Remote × Leg
  | (r, .written path len_written) =>
    if 0 < e.size ∧ len_written = 0 then (r, .returns 0) else (r, .written path len_written)
  | ended => ended

theorem uploadFile_temporary (e : Extent) (src : Bytes) (r : Remote) (live : o.dry_run = false)
    (whole : msg.get "blocks" = none) (named : temporaryName o.inflight new_file = some tmp) :
    uploadFile s o proto msg run e false src new_file r =
      underTemporaryName s o proto msg run e src tmp new_file
        (if intoDirectory o.inflight then
          { r with cwd := if run.inflightDir.raised then run.inflightDir.at_ else run.backDir.at_ }
        else r) := by
  unfold uploadFile
  cases setting : o.inflight with
  | none => simp [setting, temporaryName] at named
  | interval seconds => simp [setting, temporaryName] at named
  | text inflight =>
    rw [setting] at named
    have plain : inflight ≠ "umask".toList := by
      rintro rfl
      cases (show temporaryName (.text "umask".toList) new_file = none from rfl).symm.trans named
    simp only [Inflight.text.injEq, plain, and_false, if_false, reduceCtorEq, whole,
      Option.isSome_none, Bool.false_eq_true, false_and, or_false, live]
    simp only [temporaryName] at named
    split at named
    · next dot =>
      cases named
      subst dot
      have outside : intoDirectory (.text ['.']) = false := by decide
      simp [outside]
    · next noDot =>
      split at named
      · next ending =>
        cases named
        have outside : intoDirectory (.text inflight) = false := by simp [intoDirectory, ending]
        simp [noDot, ending, outside]
      · next noEnding =>
        split at named
        · next slash =>
          cases named
          have inside : intoDirectory (.text inflight) = true := by
            simp [intoDirectory, noEnding, slash]
          simp only [noDot, noEnding, slash, inside, if_false, if_true]
          cases lost : run.inflightDir.raised <;> simp [Remote.cd, lost]
        · cases named

theorem inplace_whole (whole : msg.get "blocks" = none) : inplace msg = .ok false := by
  simp [inplace, whole, pure, Except.pure]

theorem sendFile_reached (src : Bytes) (e : Extent) (r : Remote) (live : o.dry_run = false)
    (whole : msg.get "blocks" = none) (named : temporaryName o.inflight new_file = some tmp)
    (reached : Reaches run new_dir msg r.cwd src e) :
    sendFile s o proto msg run new_dir new_file r =
      tested e (underTemporaryName s o proto msg run e src tmp new_file
        { r with cwd := uploadDir run o.inflight new_dir r.cwd }) := by
  unfold sendFile
  rw [inplace_whole msg whole]
  simp only [Bool.false_eq_true, false_and, if_false, live, Bool.not_false, true_and, reached.asked,
    Bool.not_true, false_or]
  by_cases there : r.cwd = new_dir
  · have stays : r = { r with cwd := new_dir } := by rw [← there]
    simp only [there, if_true, reached.here, reached.known,
      uploadFile_temporary s o proto msg run new_file tmp e src _ live whole named]
    congr 3
    unfold uploadDir
    split
    · rfl
    · simpa using stays
  · have moves : run.cd_forced.raised = false := reached.arrived.resolve_left there
    simp only [there, if_false, Remote.cd, moves, Bool.false_eq_true, reached.here, reached.known,
      uploadFile_temporary s o proto msg run new_file tmp e src _ live whole named]
    congr 3
    unfold uploadDir
    split <;> simp

theorem sendFile_unreached (r : Remote) (live : o.dry_run = false)
    (whole : msg.get "blocks" = none)
    (missed : ∀ src e, ¬ Reaches run new_dir msg r.cwd src e) :
    ∃ r₁ leg, sendFile s o proto msg run new_dir new_file r = (r₁, leg) ∧
      r₁.renames = r.renames ∧ (leg = .raises none ∨ ∃ n ≤ 0, leg = .returns n) := by
  unfold sendFile
  rw [inplace_whole msg whole]
  simp only [Bool.false_eq_true, false_and, if_false, live, Bool.not_false, true_and, false_or,
    Bool.not_eq_eq_eq_not, Bool.not_true]
  cases asked : run.getcwd with
  | false => exact ⟨r, .returns 0, by simp, rfl, .inr ⟨0, by omega, rfl⟩⟩
  | true =>
    simp only [Bool.true_eq_false, if_false]
    by_cases lost : r.cwd ≠ new_dir ∧ run.cd_forced.raised = true
    · exact ⟨{ r with cwd := run.cd_forced.at_ }, .returns (-1),
        by simp [lost.1, Remote.cd, lost.2], rfl, .inr ⟨-1, by omega, rfl⟩⟩
    · have arrived : r.cwd = new_dir ∨ run.cd_forced.raised = false := by
        cases raised : run.cd_forced.raised <;> simp_all
      obtain ⟨r₁, moved, unrenamed⟩ : ∃ r₁,
          (if r.cwd = new_dir then (r, .ok ()) else Remote.cd run.cd_forced r) = (r₁, .ok ()) ∧
            r₁.renames = r.renames := by
        by_cases there : r.cwd = new_dir
        · exact ⟨r, by simp [there], rfl⟩
        · exact ⟨{ r with cwd := run.cd_forced.at_ },
            by simp [there, Remote.cd, arrived.resolve_left there], rfl⟩
      rw [moved]
      cases here : run.localFile with
      | none => exact ⟨r₁, .returns 0, rfl, unrenamed, .inr ⟨0, by omega, rfl⟩⟩
      | some src =>
        cases known : extent msg src with
        | error f =>
          exact ⟨r₁, .raises none, by simp [known], unrenamed, .inl rfl⟩
        | ok e => exact absurd ⟨asked, arrived, here, known⟩ (missed src e)

end Legs

section Renaming
variable (s : Server) (proto : Proto) (run : Run) {old new : Str} {r : Remote}

theorem delete_files (deletion : Answer) {path : Str}
    (other : path ≠ s.resolve r.cwd new) :
    (delete s deletion new r).files path = r.files path := by
  unfold delete
  split <;> simp [other]

theorem delete_cwd (deletion : Answer) : (delete s deletion new r).cwd = r.cwd := by
  unfold delete
  split <;> rfl

theorem delete_renames (deletion : Answer) : (delete s deletion new r).renames = r.renames := by
  unfold delete
  split <;> rfl

/-- A rename that is refused, or finds nothing under the old name, is not carried out. -/
theorem rename_refused (apart : s.resolve r.cwd old ≠ s.resolve r.cwd new)
    (idle : run.rename = .refused ∨ r.files (s.resolve r.cwd old) = none) :
    ∃ r₁ f, rename s proto run old new r = (r₁, .error f) ∧ r₁.renames = r.renames := by
  have idles (q : Remote) (cwd : q.cwd = r.cwd)
      (kept : q.files (s.resolve r.cwd old) = r.files (s.resolve r.cwd old)) :
      move s run.rename old new q = (q, .error .osError) := by
    unfold move
    rw [cwd, kept]
    cases found : r.files (s.resolve r.cwd old) with
    | none => rfl
    | some bytes =>
      have refused : run.rename = .refused := idle.resolve_right (by simp [found])
      simp [refused]
  cases proto with
  | ftp => exact ⟨r, .osError, idles r rfl rfl, rfl⟩
  | sftp =>
    exact ⟨delete s run.clear new r, .osError,
      idles _ (delete_cwd s run.clear) (delete_files s run.clear apart),
      delete_renames s run.clear⟩

/-- A rename that is carried out gives the new name what the old one held. -/
theorem rename_carried {bytes : Bytes} (apart : s.resolve r.cwd old ≠ s.resolve r.cwd new)
    (carried : run.rename ≠ .refused) (found : r.files (s.resolve r.cwd old) = some bytes) :
    ∃ r₁, rename s proto run old new r =
        (r₁, if run.rename = .unheard then .error .osError else .ok ()) ∧
      r₁.renames ≠ r.renames ∧ r₁.files (s.resolve r.cwd new) = some bytes ∧
      r₁.files (s.resolve r.cwd old) = none ∧
      ∀ path, path ≠ s.resolve r.cwd old → path ≠ s.resolve r.cwd new →
        r₁.files path = r.files path := by
  have moves (q : Remote) (cwd : q.cwd = r.cwd) (renames : q.renames = r.renames)
      (kept : ∀ path, path ≠ s.resolve r.cwd new → q.files path = r.files path) :
      ∃ r₁, move s run.rename old new q =
          (r₁, if run.rename = .unheard then .error .osError else .ok ()) ∧
        r₁.renames ≠ r.renames ∧ r₁.files (s.resolve r.cwd new) = some bytes ∧
        r₁.files (s.resolve r.cwd old) = none ∧
        ∀ path, path ≠ s.resolve r.cwd old → path ≠ s.resolve r.cwd new →
          r₁.files path = r.files path := by
    unfold move
    rw [cwd, kept _ apart, found]
    simp only [carried, if_false]
    refine ⟨_, rfl, ?_, by simp, by simp [apart], ?_⟩
    · simp [renames]
    · intro path notOld notNew
      simp [notOld, notNew, kept path notNew]
  cases proto with
  | ftp => exact moves r rfl rfl fun _ _ => rfl
  | sftp =>
    exact moves _ (delete_cwd s run.clear) (delete_renames s run.clear)
      fun _ other => delete_files s run.clear other

end Renaming

section Claim
variable (s : Server) (o : Send.Options) (proto : Proto) (msg : Message) (run : Run)
  (new_dir new_file tmp : Str) (r : Remote)

/-- The upload left something else than the whole file under the temporary name. -/
def StoppedEarly (src : Bytes) (e : Extent) : Prop :=
  let dir := uploadDir run o.inflight new_dir r.cwd
  (putEither s o proto msg run e src tmp { r with cwd := dir }).1.files (target s o msg e dir tmp) ≠
    some (image o proto e src)

/-- What `send` returns is true of the destination. -/
structure Truthful : Prop where
  delivered : ∀ n, (send s o proto msg run r).2 = .ok n → 0 < n →
    ∃ src e, run.localFile = some src ∧ extent msg src = .ok e ∧
      (send s o proto msg run r).1.files (s.resolve new_dir new_file) = some (image o proto e src)
  stopped : ∀ src e, run.localFile = some src → extent msg src = .ok e →
    StoppedEarly s o proto msg run new_dir tmp r src e →
      (∃ n ≤ 0, (send s o proto msg run r).2 = .ok n) ∧
        (send s o proto msg run r).1.renames = r.renames

/-- What the name to be renamed stands for when the rename is asked for. -/
def source (src : Bytes) (e : Extent) : Option Bytes :=
  let dir := uploadDir run o.inflight new_dir r.cwd
  let path := target s o msg e dir tmp
  if s.resolve dir tmp = path then held o proto run e src (r.files path)
  else r.files (s.resolve dir tmp)

/-- The rename is made where the destination is, or the destination held the file already. -/
def Lands (src : Bytes) (e : Extent) : Prop :=
  let dir := uploadDir run o.inflight new_dir r.cwd
  let path := target s o msg e dir tmp
  let destination := s.resolve new_dir new_file
  if s.resolve dir new_file = destination then
    source s o proto msg run new_dir tmp r src e = some (image o proto e src)
  else s.resolve dir tmp ≠ destination ∧
    (if destination = path then held o proto run e src (r.files path)
      else r.files destination) = some (image o proto e src)

/-- The condition on the run: an upload that comes back short is not then renamed, and a
rename that makes `send` succeed is made in the right directory. -/
structure Sound : Prop where
  notShort : ∀ src e, Reaches run new_dir msg r.cwd src e → comesBack o proto run e src = true →
    run.rename ≠ .refused → source s o proto msg run new_dir tmp r src e ≠ none →
      held o proto run e src
        (r.files (target s o msg e (uploadDir run o.inflight new_dir r.cwd) tmp)) =
          some (image o proto e src)
  placed : ∀ src e, Reaches run new_dir msg r.cwd src e → comesBack o proto run e src = true →
    run.rename = .done → source s o proto msg run new_dir tmp r src e ≠ none →
      ¬ (0 < e.size ∧ counted o proto run e src = 0) → finish o proto msg run = .ok () →
        Lands s o proto msg run new_dir new_file tmp r src e

end Claim

section Outcomes
variable (s : Server) (o : Send.Options) (proto : Proto) (msg : Message) (run : Run)
  (new_dir new_file tmp : Str) (r : Remote) (src : Bytes) (e : Extent)

/-- The far end once the upload is back. -/
def uploaded : Remote :=
  let dir := uploadDir run o.inflight new_dir r.cwd
  let path := target s o msg e dir tmp
  { r with cwd := dir }.write path (held o proto run e src (r.files path))

/-- Where the upload fails or the rename is not carried out, nothing is renamed. -/
theorem underTemporaryName_idle (apart : ∀ dir, s.resolve dir tmp ≠ s.resolve dir new_file)
    (idle : comesBack o proto run e src = false ∨ run.rename = .refused ∨
      source s o proto msg run new_dir tmp r src e = none) :
    ∃ r₁, underTemporaryName s o proto msg run e src tmp new_file
        { r with cwd := uploadDir run o.inflight new_dir r.cwd } = (r₁, .returns 0) ∧
      r₁.renames = r.renames := by
  unfold underTemporaryName
  cases back : comesBack o proto run e src with
  | false =>
    obtain ⟨r₁, f, raises, unrenamed⟩ := putEither_raises s o proto msg run e src tmp
      { r with cwd := uploadDir run o.inflight new_dir r.cwd } back
    exact ⟨r₁, by rw [raises], unrenamed⟩
  | true =>
    rw [putEither_back s o proto msg run e src tmp _ back]
    have stays := idle.resolve_left (by simp [back])
    obtain ⟨r₁, f, refused, unrenamed⟩ := rename_refused s proto run
      (r := uploaded s o proto msg run new_dir tmp r src e) (apart _) stays
    simp only [uploaded] at refused
    exact ⟨r₁, by simp only [refused], unrenamed⟩

/-- Where the rename is carried out, the destination holds the file exactly when it lands. -/
theorem underTemporaryName_carried (apart : ∀ dir, s.resolve dir tmp ≠ s.resolve dir new_file)
    (back : comesBack o proto run e src = true) (carried : run.rename ≠ .refused)
    (found : source s o proto msg run new_dir tmp r src e ≠ none) :
    ∃ r₁, underTemporaryName s o proto msg run e src tmp new_file
        { r with cwd := uploadDir run o.inflight new_dir r.cwd } =
        (r₁, if run.rename = .unheard then .returns 0
          else .written (some tmp) (counted o proto run e src)) ∧
      r₁.renames ≠ r.renames ∧
      (r₁.files (s.resolve new_dir new_file) = some (image o proto e src) ↔
        Lands s o proto msg run new_dir new_file tmp r src e) := by
  obtain ⟨bytes, found⟩ := Option.ne_none_iff_exists'.mp found
  unfold underTemporaryName
  rw [putEither_back s o proto msg run e src tmp _ back]
  obtain ⟨r₁, renamed, changed, new, old, others⟩ := rename_carried s proto run
    (r := uploaded s o proto msg run new_dir tmp r src e) (apart _) carried found
  simp only [uploaded] at renamed
  refine ⟨r₁, ?_, changed, ?_⟩
  · simp only [renamed]
    cases run.rename <;> rfl
  · unfold Lands
    by_cases right : s.resolve (uploadDir run o.inflight new_dir r.cwd) new_file =
        s.resolve new_dir new_file
    · rw [if_pos right, ← right, found]
      exact new ▸ Iff.rfl
    · rw [if_neg right]
      by_cases gone : s.resolve (uploadDir run o.inflight new_dir r.cwd) tmp =
          s.resolve new_dir new_file
      · rw [← gone]
        simp only [ne_eq, not_true_eq_false, false_and, iff_false]
        exact fun kept => by cases old.symm.trans kept
      · rw [others _ (Ne.symm gone) (Ne.symm right)]
        simp only [uploaded, Remote.write_files, ne_eq, gone, not_false_eq_true, true_and]

/-- `send` from the end of the upload on. -/
def settled : Remote × Leg → Remote × Except Fault Int
  | (r, .returns n) => (r, .ok n)
  | (r, .raises path) => failed s o run path r
  | (r, .written path _) =>
    match finish o proto msg run with
    | .error _ => failed s o run path r
    | .ok () => (r, .ok 1)

theorem send_settled {dir file : Str} (placed : msg.get "new_dir" = some (.str dir))
    (named : msg.get "new_file" = some (.str file)) :
    send s o proto msg run r =
      settled s o proto msg run (sendFile s o proto msg run (slashed dir) (slashed file) r) := by
  simp only [send, Dict.item, placed, named]
  rfl

theorem failed_account (path : Option Str) :
    (failed s o run path r).2 = .ok 0 ∧ (failed s o run path r).1.renames = r.renames := by
  cases path with
  | none => exact ⟨rfl, rfl⟩
  | some path =>
    constructor
    · rfl
    · simp only [failed]
      split
      · rfl
      · exact delete_renames s run.cleanup

theorem settled_written (path : Option Str) (len_written : Int) :
    (∃ n, (settled s o proto msg run (r, .written path len_written)).2 = .ok n ∧
      (0 < n ↔ finish o proto msg run = .ok ())) ∧
    (settled s o proto msg run (r, .written path len_written)).1.renames = r.renames ∧
    (finish o proto msg run = .ok () →
      (settled s o proto msg run (r, .written path len_written)).1 = r) := by
  unfold settled
  cases finished : finish o proto msg run with
  | error f =>
    obtain ⟨zero, kept⟩ := failed_account s o run r path
    exact ⟨⟨0, zero, by simp⟩, kept, by simp⟩
  | ok _ => exact ⟨⟨1, rfl, by simp⟩, rfl, fun _ => rfl⟩

end Outcomes

section Main
variable (s : Server) (o : Send.Options) (proto : Proto) (msg : Message) (run : Run) (r : Remote)

/-- The upload was back, or it was not: either way `StoppedEarly` is about what it left. -/
theorem stoppedEarly_iff (new_dir tmp : Str) (src : Bytes) (e : Extent)
    (back : comesBack o proto run e src = true) :
    StoppedEarly s o proto msg run new_dir tmp r src e ↔
      held o proto run e src
        (r.files (target s o msg e (uploadDir run o.inflight new_dir r.cwd) tmp)) ≠
          some (image o proto e src) := by
  unfold StoppedEarly
  simp only [putEither_back s o proto msg run e src tmp _ back, Remote.write_files, if_true]

/-- A call that sends nothing for good and renames nothing is truthful. -/
theorem truthful_of_idle (new_dir new_file tmp : Str) {n : Int} (nothing : n ≤ 0)
    (returned : (send s o proto msg run r).2 = .ok n)
    (unrenamed : (send s o proto msg run r).1.renames = r.renames) :
    Truthful s o proto msg run new_dir new_file tmp r where
  delivered m returned' positive := by
    rw [returned] at returned'
    cases returned'
    omega
  stopped _ _ _ _ _ := ⟨⟨n, nothing, returned⟩, unrenamed⟩

/-- What `send` makes of a rename that was carried out. -/
theorem carried_account (tmp : Str) (e : Extent) (len_written : Int)
    (carried : run.rename ≠ .refused) :
    let out := settled s o proto msg run
      (tested e (r, if run.rename = .unheard then .returns 0 else .written (some tmp) len_written))
    let succeeds := run.rename = .done ∧ ¬ (0 < e.size ∧ len_written = 0) ∧
      finish o proto msg run = .ok ()
    ∃ n, out.2 = .ok n ∧ (0 < n ↔ succeeds) ∧ out.1.renames = r.renames ∧
      (succeeds → out.1 = r) := by
  intro out succeeds
  cases answer : run.rename with
  | refused => exact absurd answer carried
  | unheard =>
    have waits : out = (r, .ok 0) := by simp only [out, answer, if_true, tested, settled]
    rw [waits]
    exact ⟨0, rfl, by simp [succeeds, answer], rfl, fun _ => rfl⟩
  | done =>
    by_cases nothing : 0 < e.size ∧ len_written = 0
    · have refuses : out = (r, .ok 0) := by
        simp only [out, answer, reduceCtorEq, if_false, tested, nothing.1, nothing.2, and_self,
          if_true, settled]
      rw [refuses]
      exact ⟨0, rfl, by simp [succeeds, nothing], rfl, fun _ => rfl⟩
    · have goes : out = settled s o proto msg run (r, .written (some tmp) len_written) := by
        simp only [out, answer, reduceCtorEq, if_false, tested, nothing]
      obtain ⟨⟨n, returned, positive⟩, renames, final⟩ :=
        settled_written s o proto msg run r (some tmp) len_written
      rw [goes]
      refine ⟨n, returned, ?_, renames, fun success => final success.2.2⟩
      simp [succeeds, answer, nothing, positive]

end Main

section Runs

/-- A server that reads a name as a file of the directory. -/
def plainServer : Server := ⟨fun dir name => dir ++ '/' :: name⟩

theorem plainServer_apart (file dir : Str) :
    plainServer.resolve dir ('.' :: file) ≠ plainServer.resolve dir file := by
  intro same
  simp [plainServer] at same

def dotOptions : Send.Options where
  bufSize := 1
  binary := true
  nofsetstat := false
  inflight := .text ['.']
  dry_run := false
  accelThreshold := 0
  timeCopy := false

def threeBytes : Message :=
  [("new_dir", .str "/in".toList), ("new_file", .str "f".toList), ("size", .int 3),
    ("local_offset", .int 0), ("_deleteOnPost", .set [])]

/-- The connection takes the first byte and no other, and stays usable. -/
def stopsAfterOneByte : Run where
  now := []
  getcwd := true
  cd_forced := ⟨[], true⟩
  localFile := some [1, 2, 3]
  inflightDir := ⟨[], true⟩
  backDir := ⟨[], true⟩
  umask := true
  upload := ⟨true, .done, fun i => i = 0, true, true, 1⟩
  again := ⟨true, .done, fun _ => true, true, true, 0⟩
  accel := ⟨0, none⟩
  clear := .done
  rename := .done
  cleanup := .done

def emptyRemote : Remote := ⟨fun _ => none, "/in".toList, []⟩

end Runs

end Sarracenia.Guarantees.Send
