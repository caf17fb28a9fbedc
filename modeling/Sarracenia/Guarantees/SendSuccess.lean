import Sarracenia.Guarantees.Message
import Sarracenia.Guarantees.Send
import Sarracenia.Source.Parts

/-!
# When `send` succeeds

Every request of a call is answered and takes all it is given. Then `send` should answer
above 0 and leave the file under its final name only, or touch nothing in a dry run.

* what is left of the file at the far end when no request fails (`held_smooth`);
* a block message has no `offset`, and no call succeeds with it (`block_unmeasured`);
* a dry run succeeds in the branches that set `len_written`, and in no other (`dry_written_iff`);
* a call succeeds exactly for a whole file whose branch does what it should
  (`send_delivers_iff`); a dry run without an in-flight name is never a success.
-/
namespace Sarracenia.Guarantees.SendSuccess
open Library Library.Text Library.Dynamic Source Source.Transfer Source.Send
open Guarantees.Message Guarantees.Send

section Claim

/-- The settings of `inflight` a sender is given. -/
inductive ForSending : Inflight → Prop where
  | unset : ForSending .none
  | dot : ForSending (.text ['.'])
  | ending (c : Char) (rest : Str) : ForSending (.text ('.' :: c :: rest))
  | directory (dir : Str) (visible : dir.head? ≠ some '.') : ForSending (.text (dir ++ ['/']))
  | umask : ForSending (.text "umask".toList)

/-- A message about a block: what a sender reads of it is as `post_file_in_parts` set it. -/
def OfBlock (msg : Message) : Prop :=
  ∃ bssetting fsiz info identity blocks,
    ∃ block ∈ Parts.post_file_in_parts bssetting fsiz info identity blocks,
      msg.get "blocks" = block.get "blocks" ∧ msg.get "offset" = block.get "offset" ∧
        msg.get "size" = block.get "size"

/-- Every request of the upload is answered, and every buffer is taken. -/
structure Perfect (u : Upload) : Prop where
  readable : u.readable = true
  opened : u.opening = .done
  takes : ∀ i, u.takes i = true
  reply : u.reply = true
  truncates : u.truncates = true

variable (s : Server) (o : Send.Options) (proto : Proto) (msg : Message) (run : Run)
  (new_dir new_file : Str) (r : Remote) (src : Bytes)

/-- Lines go out with the line ends of a text transfer. -/
def asText : Bool := proto = .ftp && !o.binary

/-- Every request of the call succeeds and transfers all the bytes asked. -/
structure Smooth : Prop where
  asked : run.getcwd = true
  here : run.localFile = some src
  arrived : r.cwd = new_dir ∨ run.cd_forced = ⟨new_dir, false⟩
  inside : run.inflightDir.raised = false
  back : run.backDir = ⟨new_dir, false⟩
  umask : run.umask = true
  upload : Perfect run.upload
  again : Perfect run.again
  fits : asText o proto = true → ∀ line ∈ byteLines src, line.length ≤ 8192
  accel : run.accel = ⟨0, some src.length⟩
  rename : run.rename = .done

/-- The bytes of the file, or its lines in a text transfer. -/
def IsContent (bytes : Bytes) : Prop :=
  bytes = src ∨ asText o proto = true ∧ bytes = ((byteLines src).map crlf).flatten

/-- What `send` should do when nothing fails. -/
structure Delivered : Prop where
  succeeds : ∃ n, (send s o proto msg run r).2 = .ok n ∧ 0 < n
  untouched : o.dry_run = true → (send s o proto msg run r).1 = r
  content : o.dry_run = false → ∃ bytes, IsContent o proto src bytes ∧
    (send s o proto msg run r).1.files (s.resolve new_dir new_file) = some bytes
  noTemporary : o.dry_run = false → ∀ tmp, temporaryName o.inflight new_file = some tmp →
    (send s o proto msg run r).1.files (s.resolve new_dir tmp) = none ∧
      ∀ e, extent msg src = .ok e →
        (send s o proto msg run r).1.files (target s o msg e new_dir tmp) = none

/-- The file is uploaded a second time under its final name. -/
def twice : Bool := proto = .ftp && o.inflight = .text "umask".toList

/-- The settings whose branch sets `len_written` in a dry run. -/
def setsLength : Bool :=
  o.inflight = .text ['.'] || intoDirectory o.inflight || twice o proto

/-- Blocks of the file are read, or it has none, or its lines are. -/
def Buffered : Prop := asText o proto = true ∨ 0 < o.bufSize ∨ src = []

/-- An acceleration command is given the directory as the message writes it. -/
def SameDir (e : Extent) (name : Str) : Prop :=
  accelerated o e = true → s.resolve (announcedDir msg) name = s.resolve new_dir name

/-- The condition on a live transfer of the whole file. -/
structure Placed (e : Extent) : Prop where
  counts : 0 < e.size → if accelerated o e then 1 ≤ e.size else src ≠ []
  buffered : accelerated o e = true ∧ twice o proto = false ∨ Buffered o proto src
  named : ∀ tmp, temporaryName o.inflight new_file = some tmp →
    s.resolve new_dir tmp ≠ s.resolve new_dir new_file ∧ SameDir s o msg new_dir e tmp
  direct : temporaryName o.inflight new_file = none → twice o proto = false →
    SameDir s o msg new_dir e new_file ∨
      ∃ bytes, IsContent o proto src bytes ∧ r.files (s.resolve new_dir new_file) = some bytes

/-- The condition under which a call in which nothing fails does what it should. -/
structure Deliverable : Prop where
  whole : msg.get "blocks" = none
  reportable : Reportable msg
  dated : o.dry_run = false → set_remote_file_attributes o proto msg = .ok ()
  measured : ∃ e, extent msg src = .ok e ∧
    if o.dry_run then setsLength o proto ∧ (0 < e.size → 1 ≤ e.size)
    else Placed s o proto msg new_dir new_file r src e

end Claim

section Reading

theorem blocks_unbuffered (src : Bytes) : blocks 0 src = [] := by
  unfold blocks
  cases src with
  | nil => rfl
  | cons b src => simp [readBlocks]

theorem blocks_flatten_iff (bufSize : Nat) (src : Bytes) :
    (blocks bufSize src).flatten = src ↔ 0 < bufSize ∨ src = [] := by
  constructor
  · intro whole
    cases bufSize with
    | zero =>
      rw [blocks_unbuffered] at whole
      exact .inr whole.symm
    | succ bufSize => exact .inl (Nat.succ_pos bufSize)
  · intro read
    obtain buffered | rfl := read
    · exact blocks_flatten bufSize buffered src
    · rfl

theorem crlf_nonempty (line : Bytes) : crlf line ≠ [] := by
  unfold crlf
  split
  · next ending =>
    intro empty
    rw [empty] at ending
    simp at ending
  · simp

theorem byteLines_nonempty (b : UInt8) (src : Bytes) : byteLines (b :: src) ≠ [] := by
  unfold byteLines
  split
  · simp
  · split <;> simp

theorem lines_nonempty {src : Bytes} (nonempty : src ≠ []) :
    ((byteLines src).map crlf).flatten ≠ [] := by
  obtain ⟨b, src, rfl⟩ := List.exists_cons_of_ne_nil nonempty
  obtain ⟨line, lines, split⟩ := List.exists_cons_of_ne_nil (byteLines_nonempty b src)
  rw [split]
  simp [crlf_nonempty]

/-- Nothing fails: every buffer is handed over. -/
theorem sendAll_unbroken {u : Upload} (perfect : Perfect u) (fits : Bytes → Bool)
    (encode : Bytes → Bytes) :
    ∀ (i : Nat) (bufs : List Bytes), (∀ buf ∈ bufs, fits buf = true) →
      (u.sendAll fits encode i bufs).broke = false
  | _, [], _ => by simp [Upload.sendAll, perfect.reply]
  | i, buf :: rest, fit => by
    have here := fit buf List.mem_cons_self
    have later := sendAll_unbroken perfect fits encode (i + 1) rest
      fun buf found => fit buf (List.mem_cons_of_mem _ found)
    simp [Upload.sendAll, here, perfect.takes, later]

end Reading

section Smooth
variable (s : Server) (o : Send.Options) (proto : Proto) (msg : Message) (run : Run)
  (new_dir new_file : Str) (r : Remote) (src : Bytes) (e : Extent)

/-- What an upload in which nothing fails leaves. -/
def arriving (fast : Bool) : Bytes :=
  if fast then src
  else if asText o proto then ((byteLines src).map crlf).flatten
  else (blocks o.bufSize src).flatten

theorem stor_smooth {u : Upload} (perfect : Perfect u)
    (fits : asText o .ftp = true → ∀ line ∈ byteLines src, line.length ≤ 8192) :
    u.stor o.toOptions src =
      ⟨arriving o .ftp src false, (arriving o .ftp src false).length, false⟩ := by
  unfold Upload.stor
  simp only [perfect.opened, ne_eq, not_true_eq_false, if_false]
  cases binary : o.binary with
  | true =>
    have unbroken := sendAll_unbroken perfect (fun _ => true) id 0 (blocks o.bufSize src)
      fun _ _ => rfl
    obtain ⟨handed, count⟩ := sendAll_handed u _ _ _ _ unbroken
    rw [List.map_id] at handed count
    simp only [if_true, arriving, asText, binary, Bool.not_true, Bool.and_false,
      Bool.false_eq_true, if_false]
    rw [← count, ← handed, ← unbroken]
  | false =>
    have short := fits (by simp [asText, binary])
    have unbroken := sendAll_unbroken perfect (fun line => decide (line.length ≤ 8192)) crlf 0
      (byteLines src) fun line found => by simpa using short line found
    obtain ⟨handed, count⟩ := sendAll_handed u _ _ _ _ unbroken
    simp only [Bool.false_eq_true, if_false, arriving, asText, binary, Bool.not_false,
      Bool.and_true, decide_true, if_true]
    rw [← count, ← handed, ← unbroken]

theorem sent_smooth (smooth : Smooth o proto run new_dir r src) :
    sent o proto run src =
      ⟨arriving o proto src false, (arriving o proto src false).length, false⟩ := by
  cases proto with
  | ftp => exact stor_smooth o src smooth.upload smooth.fits
  | sftp =>
    have unbroken := sendAll_unbroken smooth.upload (fun _ => true) id 0 (blocks o.bufSize src)
      fun _ _ => rfl
    obtain ⟨handed, count⟩ := sendAll_handed run.upload _ _ _ _ unbroken
    rw [List.map_id] at handed count
    simp only [sent, arriving, asText, reduceCtorEq, decide_false, Bool.false_and,
      Bool.false_eq_true, if_false]
    rw [← count, ← handed, ← unbroken]

theorem comesBack_smooth (smooth : Smooth o proto run new_dir r src) :
    comesBack o proto run e src = true := by
  unfold comesBack
  split
  · simp [smooth.accel]
  · cases proto with
    | ftp => exact smooth.upload.readable
    | sftp =>
      simp [smooth.upload.opened, smooth.upload.readable, smooth.upload.truncates,
        sent_smooth o .sftp run new_dir r src smooth]

theorem held_smooth (smooth : Smooth o proto run new_dir r src) (before : Option Bytes) :
    held o proto run e src before = some (arriving o proto src (accelerated o e)) := by
  unfold held
  cases fast : accelerated o e with
  | true => simp [smooth.accel, arriving]
  | false =>
    have sends := sent_smooth o proto run new_dir r src smooth
    cases proto <;> simp [sends, Upload.leaves, smooth.upload.opened]

theorem counted_smooth (smooth : Smooth o proto run new_dir r src) :
    counted o proto run e src = if accelerated o e then truncate e.size
      else ((arriving o proto src false).length : Int) := by
  unfold counted
  rw [sent_smooth o proto run new_dir r src smooth]

/-- An upload under the name leaves the file at its target. -/
theorem putEither_smooth (smooth : Smooth o proto run new_dir r src) (name : Str) (q : Remote) :
    putEither s o proto msg run e src name q =
      (q.write (target s o msg e q.cwd name) (some (arriving o proto src (accelerated o e))),
        .ok (counted o proto run e src)) := by
  rw [putEither_back s o proto msg run e src name q
    (comesBack_smooth o proto run new_dir r src e smooth),
    held_smooth o proto run new_dir r src e smooth]

theorem again_smooth (smooth : Smooth o .ftp run new_dir r src) (name : Str) (q : Remote) :
    put s o .ftp run.again src name 0 0 0 q =
      (q.write (s.resolve q.cwd name) (some (arriving o .ftp src false)),
        .ok ((arriving o .ftp src false).length : Int)) := by
  have sends := stor_smooth o src smooth.again smooth.fits
  simp [put, Ftp.put, smooth.again.readable, sends, Upload.leaves, smooth.again.opened]

/-- The file is there whole when its blocks are read. -/
theorem arriving_isContent_iff (fast : Bool) :
    IsContent o proto src (arriving o proto src fast) ↔ fast = true ∨ Buffered o proto src := by
  unfold IsContent arriving Buffered
  cases fast with
  | true => simp
  | false =>
    cases text : asText o proto with
    | true => simp
    | false => simpa using blocks_flatten_iff o.bufSize src

theorem arriving_nonempty_iff (buffered : Buffered o proto src) :
    arriving o proto src false ≠ [] ↔ src ≠ [] := by
  cases text : asText o proto with
  | true =>
    simp only [arriving, text, Bool.false_eq_true, if_false, if_true]
    constructor
    · intro lines empty
      subst empty
      exact lines rfl
    · exact lines_nonempty
  | false =>
    have read : (blocks o.bufSize src).flatten = src :=
      (blocks_flatten_iff o.bufSize src).mpr (buffered.resolve_left (by simp [text]))
    simp [arriving, text, read]

end Smooth

section Ends
variable (s : Server) (o : Send.Options) (proto : Proto) (msg : Message) (run : Run) (e : Extent)

/-- Nothing raises once the file is sent. -/
theorem finish_ok_iff : finish o proto msg run = .ok () ↔
    Reportable msg ∧ (o.dry_run = false → set_remote_file_attributes o proto msg = .ok ()) := by
  have reads (msg' : Message) (set : Message.setReport run.now msg 201 "file sent".toList = .ok msg') :
      set_remote_file_attributes o proto msg' = set_remote_file_attributes o proto msg := by
    have mtime : msg'.get "mtime" = msg.get "mtime" := setReport_get set (by decide) (by decide)
    have atime : msg'.get "atime" = msg.get "atime" := setReport_get set (by decide) (by decide)
    unfold set_remote_file_attributes
    rw [mtime, atime]
  rw [← setReport_ok_iff msg run.now 201 "file sent".toList]
  unfold finish
  rw [bind_ok_iff]
  constructor
  · intro finished
    obtain ⟨msg', set, finished⟩ := finished
    refine ⟨⟨msg', set⟩, fun live => ?_⟩
    rw [live, if_neg (by simp), reads msg' set] at finished
    exact finished
  · intro ready
    obtain ⟨⟨msg', set⟩, dated⟩ := ready
    refine ⟨msg', set, ?_⟩
    split
    · rfl
    · next live =>
      rw [reads msg' set]
      exact dated (by simpa using live)

theorem truncate_ne_zero_iff {q : ℚ} (positive : 0 < q) : truncate q ≠ 0 ↔ 1 ≤ q := by
  unfold truncate
  have above : 0 < q.num := Rat.num_pos.mpr positive
  have whole : (1 : ℚ) ≤ q ↔ (q.den : Int) ≤ q.num := by
    rw [Rat.le_iff]
    simp
  have divisor : (0 : Int) < q.den := by exact_mod_cast q.den_pos
  rw [whole, Int.tdiv_eq_ediv_of_nonneg (Int.le_of_lt above)]
  constructor
  · intro counted
    by_contra less
    exact counted (Int.ediv_eq_zero_of_lt (Int.le_of_lt above) (by omega))
  · intro fits empty
    have one : 1 ≤ q.num / q.den := (Int.le_ediv_iff_mul_le divisor).mpr (by omega)
    omega

/-- A call answers above 0 when its branch counts the bytes and nothing raises after it. -/
theorem succeeds_iff (q : Remote) (leg : Leg) (refuses : ∀ n, leg = .returns n → n ≤ 0) :
    (∃ n, (settled s o proto msg run (tested e (q, leg))).2 = .ok n ∧ 0 < n) ↔
      (∃ path len_written, leg = .written path len_written ∧ (0 < e.size → len_written ≠ 0)) ∧
        finish o proto msg run = .ok () := by
  cases leg with
  | returns n =>
    have answer : (settled s o proto msg run (tested e (q, .returns n))).2 = .ok n := rfl
    have low := refuses n rfl
    simp [answer, low]
  | raises path =>
    have answer := (failed_account s o run q path).1
    simp only [tested, settled, answer]
    simp
  | written path len_written =>
    by_cases nothing : 0 < e.size ∧ len_written = 0
    · simp [tested, nothing, settled]
    · obtain ⟨⟨n, returned, positive⟩, -⟩ := settled_written s o proto msg run q path len_written
      simp only [tested, nothing, if_false, returned, Except.ok.injEq, exists_eq_left', positive,
        Leg.written.injEq]
      constructor
      · exact fun finished => ⟨⟨path, len_written, ⟨rfl, rfl⟩, fun sized empty =>
          nothing ⟨sized, empty⟩⟩, finished⟩
      · exact fun done => done.2

/-- Where it does, the remote is as the branch left it. -/
theorem succeeds_remote (q : Remote) (leg : Leg) (refuses : ∀ n, leg = .returns n → n ≤ 0)
    (succeeds : ∃ n, (settled s o proto msg run (tested e (q, leg))).2 = .ok n ∧ 0 < n) :
    (settled s o proto msg run (tested e (q, leg))).1 = q := by
  obtain ⟨⟨path, len_written, rfl, counts⟩, finished⟩ :=
    (succeeds_iff s o proto msg run e q leg refuses).mp succeeds
  have sized : ¬ (0 < e.size ∧ len_written = 0) := fun nothing => counts nothing.1 nothing.2
  simp only [tested, sized, if_false]
  exact (settled_written s o proto msg run q path len_written).2.2 finished

end Ends

section Branches
variable (s : Server) (o : Send.Options) (proto : Proto) (msg : Message) (run : Run)
  (new_dir new_file : Str) (r : Remote) (src : Bytes) (e : Extent)

/-- The remote when the upload begins. -/
def begun : Remote := if o.dry_run then r else { r with cwd := new_dir }

theorem begun_cwd (live : o.dry_run = false) : (begun o new_dir r).cwd = new_dir := by
  simp [begun, live]

theorem sendFile_begun (smooth : Smooth o proto run new_dir r src) {part : Bool}
    (blocks : inplace msg = .ok part) (kind : part = false ∨ proto = .sftp ∨ o.dry_run = true) :
    sendFile s o proto msg run new_dir new_file r =
      match extent msg src with
      | .error _ => (begun o new_dir r, .raises none)
      | .ok e => tested e (uploadFile s o proto msg run e part src new_file (begun o new_dir r)) := by
  have there : (if o.dry_run ∨ r.cwd = new_dir then (r, .ok ()) else Remote.cd run.cd_forced r) =
      (begun o new_dir r, Except.ok ()) := by
    unfold begun
    cases live : o.dry_run with
    | true => simp
    | false =>
      by_cases there : r.cwd = new_dir
      · have stays : r = { r with cwd := new_dir } := by rw [← there]
        simpa [there] using stays
      · simp [there, Remote.cd, smooth.arrived.resolve_left there]
  have unrefused : ¬ (part = true ∧ proto = .ftp ∧ (!o.dry_run) = true) := by
    obtain rfl | rfl | dry := kind
    · simp
    · simp
    · simp [dry]
  unfold sendFile
  simp only [blocks, unrefused, if_false, smooth.asked, Bool.not_true, Bool.false_eq_true, and_false,
    there, smooth.here]
  cases extent msg src <;> rfl

/-- A message about a block has no offset. -/
theorem block_unmeasured (block : OfBlock msg) :
    inplace msg = .ok true ∧ extent msg src = .error .keyError := by
  obtain ⟨bssetting, fsiz, info, identity, blocks, built, among, sameBlocks, sameOffset,
    sameSize⟩ := block
  simp only [Parts.post_file_in_parts, List.mem_map] at among
  obtain ⟨current_block, -, rfl⟩ := among
  simp only [Parts.blockMessage] at sameBlocks sameOffset sameSize
  rw [Dict.get_set_ne _ (by decide), Dict.get_set_ne _ (by decide), Dict.get_set_self] at sameBlocks
  rw [Dict.get_set_ne _ (by decide), Dict.get_set_ne _ (by decide),
    Dict.get_set_ne _ (by decide), info.no_offset] at sameOffset
  rw [Dict.get_set_ne _ (by decide), Dict.get_set_self] at sameSize
  have part : inplace msg = .ok true := by
    unfold inplace
    rw [sameBlocks]
    simp only [Value.item, Dict.item, Dict.get_cons, if_true]
    rfl
  refine ⟨part, ?_⟩
  unfold extent
  simp only [part, sameSize, Value.asNumber, Dict.item, sameOffset]
  rfl

/-- No call succeeds whose message does not give the numbers an upload goes by. -/
theorem unmeasured_fails (smooth : Smooth o proto run new_dir r src) {part : Bool} {f : Fault}
    (blocks : inplace msg = .ok part) (unmeasured : extent msg src = .error f) :
    ∃ r₁, ∃ n ≤ 0, settled s o proto msg run (sendFile s o proto msg run new_dir new_file r) =
      (r₁, .ok n) := by
  by_cases refused : part = true ∧ proto = .ftp ∧ o.dry_run = false
  · refine ⟨r, -1, by omega, ?_⟩
    unfold sendFile
    simp [blocks, refused, settled]
  · have kind : part = false ∨ proto = .sftp ∨ o.dry_run = true := by
      cases part <;> cases proto <;> cases dry : o.dry_run <;> simp_all
    rw [sendFile_begun s o proto msg run new_dir new_file r src smooth blocks kind, unmeasured]
    exact ⟨_, 0, by omega, rfl⟩

/-- A directory is told apart from the other settings. -/
theorem directory_shape {dir : Str} (visible : dir.head? ≠ some '.') :
    (dir ++ ['/']).getLast? = some '/' ∧ (dir ++ ['/']).head? ≠ some '.' ∧
      dir ++ ['/'] ≠ ['.'] ∧ dir ++ ['/'] ≠ "umask".toList := by
  have slash : (dir ++ ['/']).getLast? = some '/' := by simp
  refine ⟨slash, ?_, ?_, ?_⟩
  · cases dir with
    | nil => simp
    | cons c dir => simpa using visible
  · intro same
    rw [same] at slash
    cases slash
  · intro same
    rw [same] at slash
    exact absurd slash (by decide)

/-- In a dry run nothing is touched, and only some branches set `len_written`. -/
theorem dry_written_iff (setting : ForSending o.inflight) (dry : o.dry_run = true)
    (whole : msg.get "blocks" = none) (q : Remote) :
    ∃ path, uploadFile s o proto msg run e false src new_file q =
      (q, if setsLength o proto then .written path (truncate e.size) else .raises path) := by
  unfold uploadFile
  simp only [whole, Option.isSome_none, Bool.false_eq_true, false_and, or_false, dry, if_true,
    if_false]
  cases set : o.inflight with
  | none => exact ⟨none, by simp [setsLength, set, intoDirectory, twice]⟩
  | interval seconds =>
    rw [set] at setting
    cases setting
  | text inflight =>
    rw [set] at setting
    unfold setsLength twice
    rw [set]
    cases setting with
    | dot => exact ⟨some ('.' :: new_file), by simp⟩
    | ending c rest => exact ⟨some (new_file ++ '.' :: c :: rest), by simp [intoDirectory]⟩
    | directory dir visible =>
      obtain ⟨slash, plain, notDot, notUmask⟩ := directory_shape visible
      generalize dir ++ ['/'] = inflight at slash plain notDot notUmask
      refine ⟨some (inflight ++ new_file), ?_⟩
      simp only [Inflight.text.injEq, notUmask, and_false, if_false, reduceCtorEq, notDot, plain,
        slash, if_true, intoDirectory, ne_eq, not_false_eq_true, decide_true, Bool.and_true,
        Bool.or_true, Bool.true_or, decide_false]
    | umask =>
      refine ⟨none, ?_⟩
      cases proto <;> simp [intoDirectory]

theorem unnamed_iff (setting : ForSending o.inflight) :
    temporaryName o.inflight new_file = none ↔
      o.inflight = .none ∨ o.inflight = .text "umask".toList := by
  generalize o.inflight = inflight at setting
  cases setting with
  | unset => simp [temporaryName]
  | dot => simp [temporaryName]
  | ending c rest => simp [temporaryName]
  | directory dir visible =>
    obtain ⟨slash, plain, notDot, notUmask⟩ := directory_shape visible
    simp only [temporaryName, notDot, plain, slash, if_false, if_true, reduceCtorEq, false_or,
      Inflight.text.injEq, notUmask]
  | umask => simp [temporaryName]

/-- Uploaded straight under the final name. -/
theorem direct_smooth (smooth : Smooth o proto run new_dir r src) (setting : ForSending o.inflight)
    (live : o.dry_run = false) (unnamed : temporaryName o.inflight new_file = none)
    (once : twice o proto = false) (q : Remote) :
    uploadFile s o proto msg run e false src new_file q =
      (q.write (target s o msg e q.cwd new_file) (some (arriving o proto src (accelerated o e))),
        .written none (counted o proto run e src)) := by
  have effective : (if proto = .sftp ∧ o.inflight = .text "umask".toList then Inflight.none
      else o.inflight) = .none := by
    obtain unset | umask := (unnamed_iff o new_file setting).mp unnamed
    · simp [unset]
    · cases proto with
      | ftp => simp [twice, umask] at once
      | sftp => simp [umask]
  unfold uploadFile
  simp only [effective, true_or, if_true, live, Bool.false_eq_true, if_false,
    putEither_smooth s o proto msg run new_dir r src e smooth]

/-- Uploaded under the final name, and uploaded again. -/
theorem twice_smooth (smooth : Smooth o proto run new_dir r src) (live : o.dry_run = false)
    (whole : msg.get "blocks" = none) (again : twice o proto = true) (q : Remote) :
    uploadFile s o proto msg run e false src new_file q =
      ((q.write (target s o msg e q.cwd new_file)
          (some (arriving o proto src (accelerated o e)))).write (s.resolve q.cwd new_file)
            (some (arriving o proto src false)),
        .written none (counted o proto run e src)) := by
  simp only [twice, Bool.and_eq_true, decide_eq_true_eq] at again
  obtain ⟨rfl, umask⟩ := again
  unfold uploadFile
  simp [umask, whole, live, smooth.umask, putEither_smooth s o .ftp msg run new_dir r src e smooth,
    again_smooth s o run new_dir r src smooth]

/-- Uploaded under a temporary name: the directory of the connection is the same again. -/
theorem temporary_smooth (smooth : Smooth o proto run new_dir r src) (live : o.dry_run = false)
    (whole : msg.get "blocks" = none) {tmp : Str}
    (named : temporaryName o.inflight new_file = some tmp) (q : Remote) (there : q.cwd = new_dir) :
    uploadFile s o proto msg run e false src new_file q =
      match rename s proto run tmp new_file (q.write (target s o msg e q.cwd tmp)
          (some (arriving o proto src (accelerated o e)))) with
      | (q, .error _) => (q, .returns 0)
      | (q, .ok ()) => (q, .written (some tmp) (counted o proto run e src)) := by
  have stays : (if intoDirectory o.inflight then
      { q with cwd := if run.inflightDir.raised then run.inflightDir.at_ else run.backDir.at_ }
      else q) = q := by
    split
    · rw [smooth.inside, smooth.back, ← there]
      rfl
    · rfl
  rw [uploadFile_temporary s o proto msg run new_file tmp e src q live whole named, stays]
  have put := putEither_smooth s o proto msg run new_dir r src e smooth
  unfold underTemporaryName
  cases renamed : rename s proto run tmp new_file (q.write (target s o msg e q.cwd tmp)
      (some (arriving o proto src (accelerated o e)))) with
  | mk q' done => cases done <;> simp only [put, renamed]

/-- The count is 0 for a file that has a size only when it should be. -/
theorem counts_iff (smooth : Smooth o proto run new_dir r src)
    (buffered : accelerated o e = true ∨ Buffered o proto src) :
    (0 < e.size → counted o proto run e src ≠ 0) ↔
      (0 < e.size → if accelerated o e then 1 ≤ e.size else src ≠ []) := by
  refine forall_congr' fun sized => ?_
  rw [counted_smooth o proto run new_dir r src e smooth]
  cases fast : accelerated o e with
  | true => simpa using truncate_ne_zero_iff sized
  | false =>
    have read : Buffered o proto src := buffered.resolve_left (by simp [fast])
    simp only [Bool.false_eq_true, if_false, ← arriving_nonempty_iff o proto src read]
    simp

end Branches

section Main
variable (s : Server) (o : Send.Options) (proto : Proto) (msg : Message) (run : Run)
  (r : Remote) (src : Bytes)

/-- In a dry run, where the branch sets `len_written`. -/
theorem dry_delivers_iff {dir file : Str} (setting : ForSending o.inflight)
    (dry : o.dry_run = true) (whole : msg.get "blocks" = none)
    (placed : msg.get "new_dir" = some (.str dir)) (named : msg.get "new_file" = some (.str file))
    (smooth : Smooth o proto run (slashed dir) r src) {e : Extent} (known : extent msg src = .ok e) :
    Delivered s o proto msg run (slashed dir) (slashed file) r src ↔
      Deliverable s o proto msg (slashed dir) (slashed file) r src := by
  obtain ⟨path, branch⟩ :=
    dry_written_iff s o proto msg run (slashed file) src e setting dry whole (begun o (slashed dir) r)
  have settles := send_settled s o proto msg run r placed named
  rw [sendFile_begun s o proto msg run _ _ r src smooth (inplace_whole msg whole) (.inl rfl),
    known] at settles
  simp only [branch] at settles
  have stays : begun o (slashed dir) r = r := by simp [begun, dry]
  rw [stays] at settles
  generalize legIs : (if setsLength o proto then Leg.written path (truncate e.size)
    else .raises path) = leg at settles
  have refuses : ∀ n, leg = .returns n → n ≤ 0 := by
    intro n answer
    rw [← legIs] at answer
    split at answer <;> cases answer
  have success := succeeds_iff s o proto msg run e r leg refuses
  have written : (∃ path len_written, leg = .written path len_written ∧
      (0 < e.size → len_written ≠ 0)) ↔ setsLength o proto ∧ (0 < e.size → 1 ≤ e.size) := by
    rw [← legIs]
    cases setsLength o proto with
    | false => simp
    | true =>
      simp only [if_true, Leg.written.injEq, true_and]
      constructor
      · intro sent
        obtain ⟨_, _, ⟨rfl, rfl⟩, counts⟩ := sent
        exact fun sized => (truncate_ne_zero_iff sized).mp (counts sized)
      · intro counts
        exact ⟨path, truncate e.size, ⟨rfl, rfl⟩,
          fun sized => (truncate_ne_zero_iff sized).mpr (counts sized)⟩
  rw [← settles, written, finish_ok_iff] at success
  constructor
  · intro delivered
    obtain ⟨sets, reportable, dated⟩ := success.mp delivered.succeeds
    exact ⟨whole, reportable, dated, e, known, by rw [if_pos dry]; exact sets⟩
  · intro deliverable
    obtain ⟨e', known', sets⟩ := deliverable.measured
    obtain rfl : e = e' := Except.ok.inj (known.symm.trans known')
    rw [if_pos dry] at sets
    have succeeds := success.mpr ⟨sets, deliverable.reportable, deliverable.dated⟩
    refine ⟨succeeds, fun _ => ?_, fun live => ?_, fun live => ?_⟩
    · rw [settles] at succeeds ⊢
      exact succeeds_remote s o proto msg run e r leg refuses succeeds
    · rw [dry] at live
      cases live
    · rw [dry] at live
      cases live

section Live
variable {new_dir new_file : Str} {e : Extent}

/-- What is left to show of a call whose branch counted the bytes. -/
theorem written_delivers_iff (live : o.dry_run = false) {q : Remote} {path : Option Str}
    {len_written : Int}
    (settles : send s o proto msg run r =
      settled s o proto msg run (tested e (q, .written path len_written))) :
    Delivered s o proto msg run new_dir new_file r src ↔
      (Reportable msg ∧ (o.dry_run = false → set_remote_file_attributes o proto msg = .ok ())) ∧
      (0 < e.size → len_written ≠ 0) ∧
      (∃ bytes, IsContent o proto src bytes ∧
        q.files (s.resolve new_dir new_file) = some bytes) ∧
      ∀ tmp, temporaryName o.inflight new_file = some tmp →
        q.files (s.resolve new_dir tmp) = none ∧
          ∀ e, extent msg src = .ok e → q.files (target s o msg e new_dir tmp) = none := by
  have refuses : ∀ n, Leg.written path len_written = .returns n → n ≤ 0 := by
    intro n answer
    cases answer
  have success := succeeds_iff s o proto msg run e q _ refuses
  have remote := succeeds_remote s o proto msg run e q _ refuses
  rw [← settles] at success remote
  have counts : (∃ path' len', Leg.written path len_written = .written path' len' ∧
      (0 < e.size → len' ≠ 0)) ↔ (0 < e.size → len_written ≠ 0) := by
    simp only [Leg.written.injEq]
    constructor
    · intro sent
      obtain ⟨_, _, ⟨rfl, rfl⟩, counts⟩ := sent
      exact counts
    · exact fun counts => ⟨path, len_written, ⟨rfl, rfl⟩, counts⟩
  rw [counts, finish_ok_iff] at success
  constructor
  · intro delivered
    have final := remote delivered.succeeds
    obtain ⟨counted, finished⟩ := success.mp delivered.succeeds
    have content := delivered.content live
    have noTemporary := delivered.noTemporary live
    rw [final] at content noTemporary
    exact ⟨finished, counted, content, noTemporary⟩
  · intro parts
    obtain ⟨finished, counted, content, noTemporary⟩ := parts
    have succeeds := success.mpr ⟨counted, finished⟩
    have final := remote succeeds
    refine ⟨succeeds, fun dry => ?_, fun _ => ?_, fun _ => ?_⟩
    · rw [live] at dry
      cases dry
    · rw [final]
      exact content
    · rw [final]
      exact noTemporary

theorem deliverable_iff (live : o.dry_run = false) (whole : msg.get "blocks" = none)
    (known : extent msg src = .ok e) :
    Deliverable s o proto msg new_dir new_file r src ↔
      (Reportable msg ∧ (o.dry_run = false → set_remote_file_attributes o proto msg = .ok ())) ∧
        Placed s o proto msg new_dir new_file r src e := by
  constructor
  · intro deliverable
    obtain ⟨e', known', placed⟩ := deliverable.measured
    obtain rfl : e = e' := Except.ok.inj (known.symm.trans known')
    rw [if_neg (by simp [live])] at placed
    exact ⟨⟨deliverable.reportable, deliverable.dated⟩, placed⟩
  · intro parts
    obtain ⟨⟨reportable, dated⟩, placed⟩ := parts
    exact ⟨whole, reportable, dated, e, known, by rw [if_neg (by simp [live])]; exact placed⟩

theorem sameDir_iff (name : Str) :
    SameDir s o msg new_dir e name ↔ target s o msg e new_dir name = s.resolve new_dir name := by
  unfold SameDir target
  cases accelerated o e <;> simp

theorem direct_placed_iff (smooth : Smooth o proto run new_dir r src)
    (unnamed : temporaryName o.inflight new_file = none) (once : twice o proto = false) :
    ((0 < e.size → counted o proto run e src ≠ 0) ∧
      ∃ bytes, IsContent o proto src bytes ∧
        ((begun o new_dir r).write (target s o msg e new_dir new_file)
          (some (arriving o proto src (accelerated o e)))).files (s.resolve new_dir new_file) =
            some bytes) ↔
      Placed s o proto msg new_dir new_file r src e := by
  have before : (begun o new_dir r).files = r.files := by
    unfold begun
    split <;> rfl
  have counts := counts_iff o proto run new_dir r src e smooth
  have arrives := arriving_isContent_iff o proto src (accelerated o e)
  rw [Remote.write_files, before]
  by_cases there : target s o msg e new_dir new_file = s.resolve new_dir new_file
  · simp only [there, if_true, Option.some.injEq, exists_eq_right', arrives]
    constructor
    · intro parts
      obtain ⟨counted, read⟩ := parts
      refine ⟨(counts read).mp counted, ?_, fun tmp named => ?_, fun _ _ => ?_⟩
      · exact read.imp_left fun fast => ⟨fast, once⟩
      · rw [unnamed] at named
        cases named
      · exact .inl ((sameDir_iff s o msg new_file).mpr there)
    · intro placed
      have read := placed.buffered.imp_left And.left
      exact ⟨(counts read).mpr placed.counts, read⟩
  · have fast : accelerated o e = true := by
      by_contra slow
      exact there (by simp [target, slow])
    have elsewhere : ¬ SameDir s o msg new_dir e new_file :=
      fun same => there ((sameDir_iff s o msg new_file).mp same)
    simp only [Ne.symm there, if_false]
    rw [counts (.inl fast)]
    constructor
    · intro parts
      obtain ⟨counted, content⟩ := parts
      refine ⟨counted, .inl ⟨fast, once⟩, fun tmp named => ?_, fun _ _ => .inr content⟩
      rw [unnamed] at named
      cases named
    · intro placed
      exact ⟨placed.counts, (placed.direct unnamed once).resolve_left elsewhere⟩

theorem twice_placed_iff (smooth : Smooth o proto run new_dir r src)
    (unnamed : temporaryName o.inflight new_file = none) (again : twice o proto = true) :
    ((0 < e.size → counted o proto run e src ≠ 0) ∧
      IsContent o proto src (arriving o proto src false)) ↔
      Placed s o proto msg new_dir new_file r src e := by
  have counts := counts_iff o proto run new_dir r src e smooth
  rw [arriving_isContent_iff]
  constructor
  · intro parts
    obtain ⟨counted, read⟩ := parts
    have read : Buffered o proto src := read.resolve_left (by simp)
    refine ⟨(counts (.inr read)).mp counted, .inr read, fun tmp named => ?_, fun _ once => ?_⟩
    · rw [unnamed] at named
      cases named
    · rw [again] at once
      cases once
  · intro placed
    have read : Buffered o proto src := by
      refine placed.buffered.resolve_left fun once => ?_
      rw [again] at once
      cases once.2
    exact ⟨(counts (.inr read)).mpr placed.counts, .inr read⟩

/-- Renamed from where it was uploaded, and to another file. -/
theorem temporary_placed (smooth : Smooth o proto run new_dir r src) {tmp : Str}
    (named : temporaryName o.inflight new_file = some tmp)
    (placed : Placed s o proto msg new_dir new_file r src e) (live : o.dry_run = false) :
    ∃ q, rename s proto run tmp new_file ((begun o new_dir r).write (target s o msg e new_dir tmp)
        (some (arriving o proto src (accelerated o e)))) = (q, .ok ()) ∧
      q.files (s.resolve new_dir new_file) = some (arriving o proto src (accelerated o e)) ∧
      q.files (s.resolve new_dir tmp) = none := by
  obtain ⟨apart, same⟩ := placed.named tmp named
  have there : ((begun o new_dir r).write (target s o msg e new_dir tmp)
      (some (arriving o proto src (accelerated o e)))).cwd = new_dir := begun_cwd o new_dir r live
  have found : ((begun o new_dir r).write (target s o msg e new_dir tmp)
      (some (arriving o proto src (accelerated o e)))).files (s.resolve new_dir tmp) =
        some (arriving o proto src (accelerated o e)) := by
    simp [(sameDir_iff s o msg tmp).mp same]
  have carried : run.rename ≠ .refused := by rw [smooth.rename]; decide
  generalize (begun o new_dir r).write (target s o msg e new_dir tmp)
    (some (arriving o proto src (accelerated o e))) = before at there found ⊢
  rw [← there] at apart found
  obtain ⟨q, renamed, -, new, old, -⟩ := rename_carried s proto run apart carried found
  rw [there] at new old
  rw [smooth.rename, if_neg (by decide)] at renamed
  exact ⟨q, renamed, new, old⟩

theorem twice_of_named {tmp : Str} (named : temporaryName o.inflight new_file = some tmp) :
    twice o proto = false := by
  unfold twice
  cases proto with
  | sftp => rfl
  | ftp =>
    simp only [decide_true, Bool.true_and, decide_eq_false_iff_not]
    intro umask
    rw [umask] at named
    cases (show temporaryName (.text "umask".toList) new_file = none from rfl).symm.trans named

/-- Under a temporary name: what a delivery tells of the rename. -/
theorem placed_of_temporary (smooth : Smooth o proto run new_dir r src) {tmp : Str}
    (named : temporaryName o.inflight new_file = some tmp) (live : o.dry_run = false)
    {q : Remote}
    (renamed : rename s proto run tmp new_file ((begun o new_dir r).write
      (target s o msg e new_dir tmp) (some (arriving o proto src (accelerated o e)))) = (q, .ok ()))
    (counted : 0 < e.size → counted o proto run e src ≠ 0)
    (content : ∃ bytes, IsContent o proto src bytes ∧
      q.files (s.resolve new_dir new_file) = some bytes)
    (gone : q.files (s.resolve new_dir tmp) = none)
    (cleared : q.files (target s o msg e new_dir tmp) = none) :
    Placed s o proto msg new_dir new_file r src e := by
  obtain ⟨bytes, whole, here⟩ := content
  have apart : s.resolve new_dir tmp ≠ s.resolve new_dir new_file := by
    intro same
    rw [← same, gone] at here
    cases here
  have there : ((begun o new_dir r).write (target s o msg e new_dir tmp)
      (some (arriving o proto src (accelerated o e)))).cwd = new_dir := begun_cwd o new_dir r live
  generalize left : (begun o new_dir r).write (target s o msg e new_dir tmp)
    (some (arriving o proto src (accelerated o e))) = before at renamed there
  have uploaded : before.files (target s o msg e new_dir tmp) =
      some (arriving o proto src (accelerated o e)) := by
    rw [← left]
    simp
  have carried : run.rename ≠ .refused := by rw [smooth.rename]; decide
  rw [← there] at apart
  -- the rename found something, for it was carried out
  obtain ⟨moved, found⟩ : ∃ moved, before.files (s.resolve new_dir tmp) = some moved := by
    cases found : before.files (s.resolve new_dir tmp) with
    | some moved => exact ⟨moved, rfl⟩
    | none =>
      rw [← there] at found
      obtain ⟨q', f, refused, -⟩ := rename_refused s proto run apart (.inr found)
      rw [renamed] at refused
      cases refused
  rw [← there] at found
  obtain ⟨q', renamed', -, new, old, others⟩ := rename_carried s proto run apart carried found
  obtain rfl : q = q' := by
    rw [renamed] at renamed'
    exact congrArg Prod.fst renamed'
  rw [there] at apart found new old others
  have same : target s o msg e new_dir tmp = s.resolve new_dir tmp := by
    by_contra elsewhere
    have other : target s o msg e new_dir tmp ≠ s.resolve new_dir new_file := by
      intro same
      rw [same, here] at cleared
      cases cleared
    rw [others _ elsewhere other, uploaded] at cleared
    cases cleared
  rw [same, found] at uploaded
  rw [new] at here
  have arrived : IsContent o proto src (arriving o proto src (accelerated o e)) := by
    rwa [← Option.some.inj uploaded, Option.some.inj here]
  have read := (arriving_isContent_iff o proto src (accelerated o e)).mp arrived
  refine ⟨(counts_iff o proto run new_dir r src e smooth read).mp counted, ?_, fun name is => ?_,
    fun unnamed => ?_⟩
  · exact read.imp_left fun fast => ⟨fast, twice_of_named o proto named⟩
  · obtain rfl : tmp = name := Option.some.inj (named.symm.trans is)
    exact ⟨apart, (sameDir_iff s o msg tmp).mpr same⟩
  · rw [unnamed] at named
    cases named

end Live

theorem live_delivers_iff {dir file : Str} (setting : ForSending o.inflight)
    (live : o.dry_run = false) (whole : msg.get "blocks" = none)
    (placed : msg.get "new_dir" = some (.str dir)) (named : msg.get "new_file" = some (.str file))
    (smooth : Smooth o proto run (slashed dir) r src) {e : Extent} (known : extent msg src = .ok e) :
    Delivered s o proto msg run (slashed dir) (slashed file) r src ↔
      Deliverable s o proto msg (slashed dir) (slashed file) r src := by
  have settles := send_settled s o proto msg run r placed named
  rw [sendFile_begun s o proto msg run _ _ r src smooth (inplace_whole msg whole) (.inl rfl),
    known] at settles
  have there := begun_cwd o (slashed dir) r live
  rw [deliverable_iff s o proto msg r src live whole known]
  cases temporary : temporaryName o.inflight (slashed file) with
  | none =>
    cases again : twice o proto with
    | false =>
      simp only [direct_smooth s o proto msg run (slashed dir) (slashed file) r src e smooth setting
        live temporary again, there] at settles
      rw [written_delivers_iff s o proto msg run r src live settles,
        ← direct_placed_iff s o proto msg run r src smooth temporary again]
      simp [temporary]
    | true =>
      simp only [twice_smooth s o proto msg run (slashed dir) (slashed file) r src e smooth live
        whole again, there] at settles
      rw [written_delivers_iff s o proto msg run r src live settles,
        ← twice_placed_iff s o proto msg run r src smooth temporary again]
      simp [temporary]
  | some tmp =>
    simp only [temporary_smooth s o proto msg run (slashed dir) (slashed file) r src e smooth live
      whole temporary _ there, there] at settles
    constructor
    · intro delivered
      cases renamed : rename s proto run tmp (slashed file) ((begun o (slashed dir) r).write
          (target s o msg e (slashed dir) tmp)
          (some (arriving o proto src (accelerated o e)))) with
      | mk q outcome =>
        rw [renamed] at settles
        cases outcome with
        | error f =>
          obtain ⟨n, answer, positive⟩ := delivered.succeeds
          rw [settles] at answer
          have zero : (0 : Int) = n := Except.ok.inj answer
          omega
        | ok _ =>
          obtain ⟨finished, counted, content, noTemporary⟩ :=
            (written_delivers_iff s o proto msg run r src live settles).mp delivered
          obtain ⟨gone, cleared⟩ := noTemporary tmp temporary
          exact ⟨finished, placed_of_temporary s o proto msg run r src smooth temporary live renamed
            counted content gone (cleared e known)⟩
    · intro parts
      obtain ⟨finished, placed⟩ := parts
      obtain ⟨q, renamed, new, old⟩ :=
        temporary_placed s o proto msg run r src smooth temporary placed live
      rw [renamed] at settles
      have same := (sameDir_iff s o msg tmp).mp (placed.named tmp temporary).2
      have read := placed.buffered.imp_left And.left
      refine (written_delivers_iff s o proto msg run r src live settles).mpr ⟨finished, ?_, ?_, ?_⟩
      · exact (counts_iff o proto run (slashed dir) r src e smooth read).mpr placed.counts
      · exact ⟨_, (arriving_isContent_iff o proto src _).mpr read, new⟩
      · intro name is
        obtain rfl : tmp = name := Option.some.inj (temporary.symm.trans is)
        refine ⟨old, fun e' known' => ?_⟩
        obtain rfl : e = e' := Except.ok.inj (known.symm.trans known')
        rw [same]
        exact old

end Main

section Runs

/-- A file sent straight under its final name. -/
def plainOptions : Send.Options := { dotOptions with inflight := .none }

def dryOptions : Send.Options := { plainOptions with dry_run := true }

/-- Nothing fails, and the connection is in the directory. -/
def smoothRun : Run where
  now := []
  getcwd := true
  cd_forced := ⟨"/in".toList, false⟩
  localFile := some [1, 2, 3]
  inflightDir := ⟨[], false⟩
  backDir := ⟨"/in".toList, false⟩
  umask := true
  upload := ⟨true, .done, fun _ => true, true, true, 0⟩
  again := ⟨true, .done, fun _ => true, true, true, 0⟩
  accel := ⟨0, some 3⟩
  clear := .done
  rename := .done
  cleanup := .done

theorem smoothRun_smooth (o : Send.Options) (binary : o.binary = true) :
    Smooth o .ftp smoothRun (slashed "/in".toList) emptyRemote [1, 2, 3] where
  asked := rfl
  here := rfl
  arrived := .inl rfl
  inside := rfl
  back := rfl
  umask := rfl
  upload := ⟨rfl, rfl, fun _ => rfl, rfl, rfl⟩
  again := ⟨rfl, rfl, fun _ => rfl, rfl, rfl⟩
  fits text := by simp [asText, binary] at text
  accel := rfl
  rename := rfl

end Runs

end Sarracenia.Guarantees.SendSuccess
