import Mathlib.Data.List.DropRight
import Sarracenia.Library.Exits
import Sarracenia.Source.Config
import Sarracenia.Source.Download
import Sarracenia.Source.Filter
import Sarracenia.Source.Inline

/-!
# The loop of `Flow.do_download` (`sarracenia/flow/__init__.py`)

With `do_fileOp`, the operations it attempts, and `file_should_be_downloaded`. What the host
answers in a turn is given from outside, for each attempt anew, and so is what each attempt at
the transfer comes to; an exception that the code catches is an answer like another. The paths
that are asked about are not followed from one answer to the next. The directory of inflight
files, `directories_ok` and the metrics are left out.
-/
namespace Sarracenia.Source.DoDownload
open Library Library.Text Library.Dynamic Library.Exits
open Source.TimeNotation Source.Filter

structure Options extends toInline : Inline.Options where
  download : Bool
  attempts : Int
  fileSizeMax : Int
  fileEvents : List String
  inflight : Value
  overwrite : Bool

/-- `octal` is whether `int(mode, base=8)` reads a text, `equal` is `==`. -/
structure World extends Config.World where
  octal : Str → Bool
  equal : Value → Value → Bool

/-- How the operations of one attempt at a `fileOp` fare: whether `removeOneFile` meets no
exception, the old name is there and `os.rename` works, the directory of the new name is there
or can be made, the new directory is there or can be made, and a link can. -/
structure Operations where
  removeOneFile : Bool
  found : Bool
  rename : Bool
  isdir : Bool
  makedirs : Bool
  made : Bool
  mkdir : Bool
  link : Bool

/-- What `stat` of the file raises or gives. -/
inductive Lstat where
  | permissionError
  | exception
  | found (st_size : Int) (st_mtime : ℚ)

inductive OSError where
  | fileNotFound | other
  deriving DecidableEq

/-- What `download` returns: 1, -1 or 0. -/
inductive Retval where
  | done | permanent | failed
  deriving DecidableEq

/-- What the host answers in one turn. `reads` is whether the file that is there can be read
for its checksum, `elapsed` what `perf_counter` counts. -/
structure Answers where
  isdir : Bool
  makedirs : Bool
  chdir : Bool
  operations : Nat → Operations
  inflightExists : Bool
  how_old : Except OSError ℚ
  unlink : Except OSError Unit
  isfile : Bool
  lstat : Lstat
  file : Identity.File
  reads : Bool
  inline : Inline.World
  download : Nat → Message → Message × Retval
  elapsed : {seconds : ℚ // 0 < seconds}

/-- The list a message is put on. -/
inductive Slot where
  | ok | rejected | failed
  deriving DecidableEq

/-- A step of a turn: it may put the message on a list, which ends the turn. -/
abbrev Step (α : Type) := Except (Exit Fault (Message × Slot)) α

section Reports
variable (w : World)

/-- `not field in msg or not msg[field]`. -/
def isMissing (msg : Message) (field : String) : Bool := !(msg.get field).elim false Value.truthy

def setReport (msg : Message) (code : Int) (text : Str) : Step Message :=
  attempt (msg.setReport w.nowstr code text)

def reject {α : Type} (msg : Message) (code : Int) (reason : Str) : Step α := do
  leave (← setReport w msg code reason, .rejected)

/-- `msg.setReport` and `self.worklist.ok.append`. -/
def accept {α : Type} (msg : Message) (code : Int) (reason : Str) : Step α := do
  leave (← setReport w msg code reason, .ok)

end Reports

section FileOperations
variable (w : World) (o : Options)

def renameOneItem (e : Operations) (old : Value) : Except Fault Bool := do
  let _ ← old.asStr
  return e.found && e.rename

/-- A mode that is a text is read before the directory is made. -/
def mkdir (e : Operations) (msg : Message) : Except Fault Bool :=
  if !e.isdir && !e.makedirs then .ok false
  else if e.made then .ok true
  else match msg.get "mode" with
    | some (.str mode) => if w.octal mode then .ok e.mkdir else .error .valueError
    | _ => .ok e.mkdir

def link1file (e : Operations) (fileOp : Value) : Except Fault Bool := do
  if ← fileOp.has "link" then let _ ← fileOp.item "link"
  else if ← fileOp.has "hlink" then let _ ← fileOp.item "hlink"
  return (e.isdir || e.makedirs) && e.link

variable (e : Operations) (msg : Message) (fileOp : Value)

/-- `key in msg['fileOp']`. -/
def has (key : String) : Step Bool := attempt (fileOp.has key)

/-- A rename: `none` if it is to be gone on with, or else whether the message that falls
through to the download is on `ok` by now. -/
def rename : Step (Option (Message × Bool)) := do
  let old ← attempt (fileOp.item "rename")
  if (msg.get "renameUnlink").isSome then
    return some (← setReport w msg 201 ("old unlinked ".toList ++ w.str old), true)
  else if ← attempt (renameOneItem e old) then
    let msg ← setReport w msg 201 "renamed".toList
    if (← has fileOp "link") || (← has fileOp "directory") then leave (msg, .ok)
    else return some (msg, true)
  else if !(← has fileOp "link") && !(← has fileOp "hlink") && !(← has fileOp "directory") then
    return some (msg, false)
  else return none

/-- The making of a directory or a link, which a failed rename of one goes on with. -/
def create (new_path : Str) : Step (Option (Message × Bool)) := do
  if (← has fileOp "directory") && !(← has fileOp "remove") then
    if "mkdir" ∉ o.fileEvents then reject w msg 202 ("skipping mkdir ".toList ++ new_path)
    else if ← attempt (mkdir w e msg) then accept w msg 201 "made directory".toList
    else return none
  else if ((← has fileOp "link") || (← has fileOp "hlink")) && !(← has fileOp "rename") then
    if "link" ∉ o.fileEvents then reject w msg 202 ("skipping link ".toList ++ new_path)
    else if ← attempt (link1file e fileOp) then accept w msg 201 "linked".toList
    else if ← has fileOp "hlink" then return some (msg, false)
    else reject w msg 500 ("link ".toList ++ w.str fileOp ++ " failed".toList)
  else return none

/-- The body of the loop of `do_fileOp`: `none` to try again. -/
def operate (new_path : Str) : Step (Option (Message × Bool)) := do
  if ← has fileOp "rename" then
    match ← rename w e msg fileOp with
    | some fallen => return some fallen
    | none => create w o e msg fileOp new_path
  else if (← has fileOp "directory") && (← has fileOp "remove") then
    if "rmdir" ∉ o.fileEvents then reject w msg 202 ("skipping rmdir ".toList ++ new_path)
    else if e.removeOneFile then accept w msg 201 "rmdired".toList
    else create w o e msg fileOp new_path
  else if ← has fileOp "remove" then
    if "delete" ∉ o.fileEvents then reject w msg 202 ("skipping delete ".toList ++ new_path)
    else if e.removeOneFile then accept w msg 201 "removed".toList
    else reject w msg 500 ("remove ".toList ++ new_path ++ " failed".toList)
  else create w o e msg fileOp new_path

end FileOperations

section FileOp
variable (w : World) (o : Options) (operations : Nat → Operations)

def fileOpLoop (msg : Message) (fileOp : Value) (new_path : Str) : Nat → Nat → Step (Message × Bool)
  | 0, _ => leave (msg, .failed)
  | n + 1, i => do
    match ← operate w o (operations i) msg fileOp new_path with
    | some fallen => return fallen
    | none => fileOpLoop msg fileOp new_path n (i + 1)

/-- What falls through to the download: the message, and whether it is on `ok` already. -/
def do_fileOp (msg : Message) (new_path : Str) : Step (Message × Bool) :=
  match msg.get "fileOp" with
  | none => .ok (msg, false)
  | some fileOp => fileOpLoop w o operations msg fileOp new_path o.attempts.toNat 0

end FileOp

section Destination
variable (w : World) (e : Answers)

/-- A message with the directory and the name of its file. -/
structure Destination where
  msg : Message
  new_dir : Str
  new_file : Str

def Destination.new_path (d : Destination) : Str := d.new_dir ++ '/' :: d.new_file

/-- `len(v)`. -/
def len : Value → Except Fault Nat
  | .str s => .ok s.length
  | .list vs => .ok vs.length
  | .dict entries => .ok entries.length
  | .set members => .ok members.length
  | _ => .error .typeError

/-- `os.path.dirname`. -/
def dirname (path : Str) : Str :=
  let head := path.take (path.length - (Config.basename path).length)
  if head.all (· = '/') then head else head.rdropWhile (· = '/')

/-- The message with a name taken from its directory. -/
def takeName (msg : Message) (path : Str) : Message :=
  Dict.set (msg.set "new_file" (.str (Config.basename path))) "new_dir" (.str (dirname path))

/-- A name that is missing is taken from the directory, where there is a `fileOp`. -/
def nameFile (msg : Message) : Step Message := do
  if isMissing msg "new_file" then
    let new_dir ← attempt (msg.item "new_dir")
    if (← attempt (len new_dir)) < 2 then
      reject w msg 422
        "new_file message field missing, do not know name of file to write. skipping.".toList
    else match msg.get "fileOp" with
      -- the field that is looked into is the one that was found to be missing
      | none => attempt (.error .keyError)
      | some _ =>
        return takeName msg (← attempt new_dir.asStr)
  else return msg

def destination (msg : Message) : Step Destination := do
  if (msg.get "newname").isSome then leave (msg, .ok)
  else if isMissing msg "new_dir" then
    reject w msg 422 ("new_dir message field missing, do not know which directory to put file in. " ++
      "skipping.").toList
  else
    let msg ← nameFile w msg
    let new_dir ← attempt (msg.item "new_dir" >>= Value.asStr)
    let new_file ← attempt (msg.item "new_file" >>= Value.asStr)
    return ⟨msg, new_dir, new_file⟩

/-- `'fileOp' in msg and 'remove' in msg['fileOp']`. -/
def isRemove (msg : Message) : Except Fault Bool :=
  match msg.get "fileOp" with
  | none => .ok false
  | some fileOp => fileOp.has "remove"

def enter (d : Destination) : Step Unit := do
  if !e.isdir then
    if ← attempt (isRemove d.msg) then
      reject w d.msg 422 ("can't remove ".toList ++ d.new_path ++ ", the directory ".toList ++
        d.new_dir ++ " does not exist".toList)
    else if !e.makedirs then
      reject w d.msg 422 ("cannot create directory ".toList ++ d.new_dir ++
        " to put file in it.".toList)
    else if e.chdir then return () else leave (d.msg, .failed)
  else if e.chdir then return () else leave (d.msg, .failed)

end Destination

section Inflight
variable (w : World) (o : Options)

def tooLarge (msg : Message) : Except Fault Bool :=
  if 0 < o.fileSizeMax then
    match msg.get "size" with
    | none => .ok false
    | some size => size.asNumber.map ((o.fileSizeMax : ℚ) < ·)
  else .ok false

/-- `('blocks' in msg) and (msg['blocks']['method'] == 'inplace')`. -/
def isInplace (msg : Message) : Except Fault Bool :=
  match msg.get "blocks" with
  | none => .ok false
  | some blocks => (blocks.item "method").map (·.equals "inplace".toList)

/-- The name to download into; `last` is the one of an earlier turn, which a setting that
names none leaves in its place. -/
def inflightPath (last : Option Str) (msg : Message) (d : Destination) : Step Str := do
  match o.inflight with
  | .none => return d.new_file
  | inflight =>
    if ← attempt (isInplace msg) then return d.new_file
    else match inflight with
      | .str s =>
        match ← attempt (Download.new_inflight_path (some s) d.new_file), last with
        | some path, _ => return path
        | none, some path => return path
        | none, none => attempt (.error .nameError)
      | inflight =>
        reject w msg 503 ("invalid inflight ".toList ++ w.str inflight ++ " settings ".toList ++ d.new_path)

def prepare (last : Option Str) (msg : Message) (d : Destination) : Step Str := do
  if ← attempt (tooLarge o msg) then
    let id ← attempt msg.getIDStr
    reject w msg 413 ("Payload Too Large ".toList ++ id)
  else inflightPath w o last msg d

end Inflight

section Comparison
variable (w : World) (o : Options) (e : Answers)

/-- The method of the identity, `unknown` where there is none. -/
def methodOf (msg : Message) : Except Fault Value :=
  match msg.get "identity" with
  | none => .ok (.str "unknown".toList)
  | some identity => do
    if ← identity.has "method" then identity.item "method" else return .str "unknown".toList

/-- The methods where size checks make sense. -/
def isBinary (method : Value) : Bool :=
  ["sha512", "md5", "unknown"].any fun known => method.equals known.toList

/-- `fsiz != msg['size']`, where there is a size. -/
def sizeDiffers (fsiz : Int) (msg : Message) : Bool :=
  match msg.get "size" with
  | none => false
  | some size => match size.asNumber with
    | .ok size => (fsiz : ℚ) ≠ size
    | .error _ => true

/-- The time of the file that is there: its own, or the one in its attributes, if it can be read. -/
def old_mtime (st_mtime : ℚ) : ℚ :=
  if o.timeCopy then st_mtime
  else match (e.file.x.get "mtime").map fun mtime => mtime.asStr >>= timestr2flt with
    | some (.ok mtime) => mtime
    | _ => 0

def notNewer (st_mtime : ℚ) (msg : Message) : Except Fault Bool :=
  match msg.get "mtime" with
  | none => .ok false
  | some mtime => do return (← timestr2flt (← mtime.asStr)) ≤ old_mtime o e st_mtime

/-- `'local_identity' in msg and msg['local_identity'] == msg['identity']`. -/
def sameChecksum (msg : Message) : Bool :=
  (msg.get "local_identity").any fun l => (msg.get "identity").any (w.equal l)

/-- The end of `file_should_be_downloaded`: the message is kept if the file is to be downloaded. -/
def compareChecksums (st_mtime : ℚ) (msg : Message) (new_path : Str) : Step Message :=
  if (msg.get "identity").isNone || !e.reads then .ok msg
  else match Identity.compute_local_checksum e.inline.toWorld o.toInline.toOptions e.file
      (e.inline.mtimeText st_mtime) msg with
    | .error _ => .ok msg
    | .ok msg =>
      if sameChecksum w msg then reject w msg 304 ("same checksum ".toList ++ new_path)
      else .ok msg

def file_should_be_downloaded (msg : Message) (new_path : Str) : Step Message := do
  match e.lstat with
  -- the message of the log names an exception that is not bound
  | .permissionError => attempt (.error .nameError)
  | .exception => return msg
  | .found st_size st_mtime =>
    let method ← attempt (methodOf msg)
    if isBinary method then
      if sizeDiffers st_size msg then return msg
      else if ← attempt (notNewer o e st_mtime msg) then
        reject w msg 406 ("mtime not newer ".toList ++ new_path ++ " ".toList)
      else compareChecksums w o e st_mtime msg new_path
    else if method.equals "random".toList || method.equals "cod".toList then return msg
    else compareChecksums w o e st_mtime msg new_path

end Comparison

section Transfer
variable (w : World) (o : Options) (e : Answers)

/-- `msg['size'] / (end_time - start_time)`. -/
def rateOf (msg : Message) : Except Fault ℚ := do
  return (← (← msg.item "size").asNumber) / e.elapsed

/-- `msg['report']['rate'] = rate`. -/
def setRate (rate : ℚ) (msg : Message) : Except Fault Message := do
  return msg.set "report" (← (← msg.item "report").setItem "rate" (.float rate))

/-- A file from an earlier attempt is removed if it is old; only `FileNotFoundError` is caught. -/
def previousAttempt : Except Fault Unit :=
  match e.how_old >>= fun how_old => if 300 < how_old then e.unlink else .ok () with
  | .error .other => .error .osError
  | _ => .ok ()

/-- A transfer that is done; content that came with the message is no good then. -/
def downloaded (msg : Message) : Step Empty := do
  let msg ← setReport w msg 201 "Download successful".toList
  let msg ← attempt (if (msg.get "size").isSome then rateOf e msg >>= (setRate · msg) else .ok msg)
  leave (msg.del "content", .ok)

/-- The attempts at the transfer: the message is put on the list of the first that decides. -/
def downloadLoop : Nat → Nat → Message → Step Empty
  | 0, _, msg => leave (msg, .failed)
  | n + 1, i, msg =>
    match e.download i msg with
    | (msg, .done) => downloaded w e msg
    | (msg, .permanent) =>
      reject w msg 410 "message received for content that is no longer available".toList
    | (msg, .failed) => downloadLoop n (i + 1) msg

/-- `baseUrlParse` of a value: one that is empty is no error. -/
def baseUrlParse : Value → Except Fault Unit
  | .str url => do let _ ← Config.baseUrlParse w.toWorld url
  | v => if v.truthy then .error .attributeError else .ok ()

def fetch (msg : Message) : Step Empty := do
  let baseUrl ← attempt (msg.item "baseUrl")
  attempt (baseUrlParse w baseUrl)
  downloadLoop w e o.attempts.toNat 0 msg

/-- Content that comes with the message was written. -/
def writtenInline (msg : Message) : Step Empty := do
  let rate ← attempt (rateOf e msg)
  let msg ← setReport w msg 201 "Download successful (inline content)".toList
  leave (← attempt (setRate rate msg), .ok)

/-- Content that comes with the message is written, and downloaded if that fails. -/
def getContent (msg : Message) : Step Empty :=
  if (msg.get "content").isSome then
    match Inline.write_inline_file e.inline o.toInline msg (if e.isfile then some e.file else none) with
    | (_, _, .error fault) => attempt (.error fault)
    | (_, msg, .ok true) => writtenInline w e msg
    | (_, msg, .ok false) => fetch w o e msg
  else fetch w o e msg

/-- What is there already may be kept. -/
def overwrite (msg : Message) (new_path : Str) : Step Message := do
  if e.isfile then
    if !o.overwrite then reject w msg 204 ("not overwriting existing file ".toList ++ new_path)
    else file_should_be_downloaded w o e msg new_path
  else return msg

/-- The message with both names, which are not posted. -/
def mark (msg : Message) (new_path new_inflight_path : Str) : Except Fault Message := do
  let msg := Dict.set (msg.set "new_inflight_path" (.str new_inflight_path)) "new_path" (.str new_path)
  Message.deleteOnPost (← Message.deleteOnPost msg ["new_path"]) ["new_inflight_path"]

def transfer (msg : Message) (new_path new_inflight_path : Str) : Step Empty := do
  let msg ← attempt (mark msg new_path new_inflight_path)
  if o.inflight.truthy && e.inflightExists then
    attempt (previousAttempt e)
    leave (msg, .failed)
  else getContent w o e (← overwrite w o e msg new_path)

end Transfer

section Loop
variable (w : World) (o : Options)

/-- What a turn leaves: the fields of the message, the lists it was put on in turn, and the
name that was downloaded into last. -/
structure Turn where
  fields : Message
  puts : List Slot
  new_inflight_path : Option Str

/-- How a turn ends, with a message that may be on `ok` already. -/
def Turn.ended (twice : Bool) (last : Option Str) : Exit Fault (Message × Slot) → Except Fault Turn
  | .raises fault => .error fault
  | .leaves (msg, slot) => .ok ⟨msg, (if twice then [.ok] else []) ++ [slot], last⟩

/-- Up to the download: what falls through `do_fileOp`. -/
def arrive (e : Answers) (msg : Message) : Step (Destination × Message × Bool) := do
  let d ← destination w msg
  enter w e d
  return (d, ← do_fileOp w o e.operations d.msg d.new_path)

/-- The body of the loop. -/
def turn (e : Answers) (last : Option Str) (msg : Message) : Except Fault Turn :=
  match arrive w o e msg with
  | .error exit => Turn.ended false last exit
  | .ok (d, msg, twice) =>
    match prepare w o last msg d with
    | .error exit => Turn.ended twice last exit
    | .ok new_inflight_path =>
      match transfer w o e msg d.new_path new_inflight_path with
      | .error exit => Turn.ended twice (some new_inflight_path) exit
      | .ok never => never.elim

/-- Where the loop stands: the last name that was downloaded into, and the lists so far. -/
structure Progress where
  new_inflight_path : Option Str
  ok : List Held
  rejected : List Held
  failed : List Held

def Progress.put (h : Held) (p : Progress) : Slot → Progress
  | .ok => { p with ok := p.ok ++ [h] }
  | .rejected => { p with rejected := p.rejected ++ [h] }
  | .failed => { p with failed := p.failed ++ [h] }

/-- One turn; an object that is on two lists has the same fields on both. -/
def downloadOne (e : Answers) (h : Held) (p : Progress) : Except Fault Progress := do
  let t ← turn w o e p.new_inflight_path h.fields
  return t.puts.foldl (Progress.put ⟨h.tag, t.fields⟩) { p with new_inflight_path := t.new_inflight_path }

/-- The loop, with the answers to each turn. -/
def downloadAll (answers : Nat → Answers) : Nat → List Held → Progress → Except Fault Progress
  | _, [], p => .ok p
  | i, h :: hs, p => do downloadAll answers (i + 1) hs (← downloadOne w o (answers i) h p)

def do_download (answers : Nat → Answers) (worklist : Worklist) : Except Fault Worklist :=
  if !o.download then .ok { worklist with ok := worklist.incoming, incoming := [] }
  else do
    let p ← downloadAll w o answers 0 worklist.incoming
      ⟨none, worklist.ok, worklist.rejected, worklist.failed⟩
    return ⟨[], p.ok, p.rejected, p.failed⟩

end Loop
end Sarracenia.Source.DoDownload
