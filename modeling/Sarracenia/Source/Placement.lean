import Sarracenia.Source.Config

/-!
# Placing an accepted message (`Flow.sundew_getDestInfos`, `Flow.updateFieldsAccepted`,
`Config.sundew_dirPattern`, `Message.updatePaths`)

Separators are those of POSIX. A function whose exceptions a caller swallows gives the
message it leaves behind along with its outcome.
-/
namespace Sarracenia.Source.Placement
open Library Library.Text Library.Dynamic Source.Config

section Names
variable (w : World) (o : Options)

/-- What `sundew_getDestInfos` has put together so far. -/
structure DestInfos where
  destFileName : Str
  satnet : Str
  timeSuffix : Str
  deriving DecidableEq, Repr

def endsInColon (s : Str) : Except Fault Str :=
  match s.getLast? with
  | none => .error .indexError
  | some c => .ok (if c = ':' then s.dropLast else s)

/-- The default of the sundew products: six fields, or five. -/
def keepFields (parts : List Str) (destFileName : Str) : Str :=
  if 6 ≤ parts.length then
    if (parts[4]?.getD []).length ≠ 1 then join [':'] (parts.take 5) else join [':'] (parts.take 6)
  else destFileName

def capitalize (s : Str) : Str :=
  match s with
  | [] => []
  | c :: s => c.toUpper :: lower s

/-- Every plugin of the name is asked in turn; one that crashes leaves the name as it was. -/
def runScripts (scriptclass : Str) (msg : Message) (destFileName : Str) : Option Str :=
  o.destfn.foldl (fun name plugin =>
    if scriptclass = plugin.1 ∨ capitalize scriptclass = plugin.1 then
      name.bind fun name =>
        match plugin.2 msg with
        | .error _ => some name
        | .ok answer => answer
    else name) (some destFileName)

/-- One `spec` of the option; `none` is a specification that is not valid. -/
def destSpec (msg : Message) (filename firstPart : Str) (parts : List Str) (d : DestInfos)
    (spec : Str) : Except Fault (Option DestInfos) :=
  let sender := "SENDER=".toList
  if spec = "WHATFN".toList then .ok (some { d with destFileName := firstPart })
  else if spec = "HEADFN".toList then
    let headParts := split ['_'] firstPart
    .ok (some { d with destFileName := join ['_'] (headParts.take 2) })
  else if spec = "SENDER".toList ∧ occurs sender filename then do
    let i := (find sender filename).getD 0
    let name := (split [':'] (filename.drop (i + 7))).headD []
    return some { d with destFileName := ← endsInColon name }
  else if spec = "NONE".toList then do
    let name := match find sender filename with
      | some i => filename.take i
      | none => keepFields parts d.destFileName
    return some { d with destFileName := ← endsInColon name }
  else if spec = "NONESENDER".toList then do
    let name := match find sender filename with
      | some i =>
        -- the index of the colon is counted from the start, or is -1
        match find [':'] (filename.drop i) with
        | some j => filename.take (i + (i + j))
        | none => slice filename 0 (if i = 0 then filename.length - 1 else i - 1)
      | none => keepFields parts d.destFileName
    return some { d with destFileName := ← endsInColon name }
  else if "SATNET=".toList.isPrefixOf spec then
    .ok (some { d with satnet := d.satnet ++ ':' :: spec })
  else if "DESTFN=".toList.isPrefixOf spec then .ok (some { d with destFileName := spec.drop 7 })
  else if "DESTFNSCRIPT=".toList.isPrefixOf spec then
    .ok ((runScripts o (lastPiece ['.'] (spec.drop 13)) msg d.destFileName).map fun name =>
      { d with destFileName := name })
  else if spec = "TIME".toList then do
    let suffix ← match msg.get "pubTime" with
      | none => .ok w.utc
      | some pubTime => pubTime.asStr.map fun t => ((split ['.'] t).headD []).filter (· ≠ 'T')
    let last := parts.getLast?.getD []
    return some { d with timeSuffix :=
      ':' :: (if last.length = 14 ∧ last.head? = some '2' then last else suffix) }
  else if spec = [] then .ok (some { d with satnet := d.satnet ++ [':'] })
  else .ok none

def destSpecs (msg : Message) (filename firstPart : Str) (parts : List Str) :
    List Str → DestInfos → Except Fault (Option DestInfos)
  | [], d => .ok (some d)
  | spec :: specs, d => do
    match ← destSpec w o msg filename firstPart parts d spec with
    | none => return none
    | some d => destSpecs msg filename firstPart parts specs d

def sundew_getDestInfos (msg : Message) (currentFileOption : Str) (filename : Str) :
    Except Fault (Option Str) := do
  if currentFileOption = "None".toList then return some filename
  let parts := split [':'] filename
  let firstPart := parts.headD []
  let (filename, parts) ← match msg.get "sundew_extension" with
    | none => .ok (filename, parts)
    | some extension => extension.asStr.map fun extension =>
      (join [':'] (firstPart :: split [':'] extension), firstPart :: split [':'] extension)
  match ← destSpecs w o msg filename firstPart parts (split [':'] currentFileOption)
      ⟨filename, [], []⟩ with
  | none => return none
  | some d => return some (d.destFileName ++ d.satnet ++ d.timeSuffix)

end Names

section Directories
variable (w : World)

/-- `_sundew_basename_parts`, for the pattern of a mask or none. -/
def _sundew_basename_parts (findall : Option (Str → List Found)) (basename : Str) :
    Option (List Str) :=
  match findall with
  | none => some []
  | some findall =>
    match findall basename with
    | [.whole s] | [.whole s, .whole []] => some [s]
    | [.groups ss] | [.groups ss, .whole []] => some ss
    | _ => none

def nth (parts : List Str) (n : Nat) : Except Fault Str :=
  (parts[n]?).elim (.error .indexError) .ok

/-- The patterns of the product name: what stands in braces, which field is meant and
which characters of it. -/
def headerPatterns : List (String × Nat × Nat × Nat) :=
  [("{T1}", 0, 0, 1), ("{T2}", 0, 1, 2), ("{A1}", 0, 2, 3), ("{A2}", 0, 3, 4), ("{ii}", 0, 4, 6),
    ("{YY}", 2, 0, 2), ("{GG}", 2, 2, 4), ("{Gg}", 2, 4, 6), ("{BBB}", 3, 0, 3)]

def timePatterns : List (String × Nat × Nat) :=
  [("{RYYYY}", 0, 4), ("{RMM}", 4, 6), ("{RDD}", 6, 8), ("{RHH}", 8, 10), ("{RMN}", 10, 12),
    ("{RSS}", 12, 14)]

def sundew_matchPattern (BN EN : List Str) (BP : Option (List Str)) (keywd : Str) :
    Except Fault Str := do
  let BN6 := BN[6]?.getD w.utc
  if "{CCCC}".toList.isPrefixOf keywd then return (← nth EN 1) ++ keywd.drop 6
  match headerPatterns.find? fun p => p.1.toList.isPrefixOf keywd with
  | some (name, field, a, b) => return slice (← nth EN field) a b ++ keywd.drop name.length
  | none =>
    match timePatterns.find? fun p => p.1.toList.isPrefixOf keywd with
    | some (name, a, b) => return slice BN6 a b ++ keywd.drop name.length
    | none =>
      let numbered := (BP.getD []).zipIdx.find? fun part =>
        ('{' :: Nat.toDigits 10 part.2 ++ ['}']).isPrefixOf keywd
      match numbered with
      | some (v, i) => return v ++ keywd.drop ((Nat.toDigits 10 i).length + 2)
      | none => return keywd

def sundew_dirPattern (findall : Option (Str → List Found)) (urlstr basename destDir : Str) :
    Except Fault Str := do
  if destDir = ['/'] then return destDir
  let BN := split [':'] basename
  let EN := split ['_'] (BN.headD [])
  let BP := _sundew_basename_parts findall urlstr
  let words := (split ['/'] destDir).filter (· ≠ [])
  let ndestDir := (← words.mapM fun ddword => do
    let nddword := (← (split ['$'] ddword).mapM (sundew_matchPattern w BN EN BP)).flatten
    return '/' :: nddword).flatten
  match destDir with
  | c :: _ =>
    if c ≠ '$' ∧ c ≠ '/' then
      match ndestDir with
      | [] => .error .indexError
      | d :: rest => return if d = '/' then rest else ndestDir
    else return ndestDir
  | [] => return ndestDir

end Directories

section Paths
variable (w : World) (o : Options) (steps : Nat)

def newFullPath (new_dir new_file : Str) : Str := new_dir ++ '/' :: new_file

/-- The full path without the directory and the path of the URL that are announced. -/
def announcedPath (pbd_str urlPath new_dir new_file : Str) : Str :=
  let full := newFullPath new_dir new_file
  let full := if pbd_str.isPrefixOf full then
    newFullPath (replaceFirst pbd_str [] new_dir) new_file else full
  if 1 < urlPath.length ∧ urlPath.isPrefixOf full then replaceFirst urlPath [] full else full

/-- The directory to go by: the one given, or the message's own. -/
def dirOf (new_dir : Str) (msg : Message) : Except Fault Str :=
  if new_dir ≠ [] then .ok new_dir
  else match msg.get "new_dir" with
    | some new_dir => new_dir.asStr
    | none => .ok []

/-- The URL to announce, `none` where the message has none either. -/
def announcedUrl (publisher : Option Publisher) (msg : Message) : Except Fault (Option Value) :=
  match msg.get "post_baseUrl", publisher.bind Publisher.baseUrl with
  | some post_baseUrl, _ => .ok (some post_baseUrl)
  | none, some [] | none, none => .ok (msg.get "baseUrl")
  | none, some setting => (variableExpansion w o steps setting msg).map fun url => some (.str url)

/-- The directory and the path of the URL that a full path is relative to. -/
def announcedBase (post_baseDir : Str) (baseUrl_str : Value) (msg : Message) :
    Except Fault (Str × Str) := do
  return (← variableExpansion w o steps post_baseDir msg,
    ← baseUrlParse w (← baseUrl_str.asStr))

/-- The relative path and what depends on it, once the URL and the path are known. -/
def announce (baseUrl_str : Value) (path post_baseDir : Str) (msg : Message) : Message :=
  let msg := if (msg.get "new_dir").isNone ∧ post_baseDir ≠ [] then
    msg.set "new_dir" (.str post_baseDir) else msg
  let msg := msg.set "new_baseUrl" baseUrl_str
  let path := if path.head? = some '/' then path.drop 1 else path
  let msg := msg.set "new_relPath" (.str path)
  let subtopic := Value.list (((split ['/'] path).dropLast).map .str)
  let msg := msg.set "new_subtopic" subtopic
  let fill (field : String) (value : Value) (msg : Message) :=
    if (msg.get field).isNone then msg.set field value else msg
  fill "baseUrl" baseUrl_str (fill "subtopic" subtopic (fill "relPath" (.str path) msg))

/-- `msg.updatePaths(options, new_dir, new_file, publisher_index)`. -/
def updatePaths (new_dir new_file : Str) (publisher_index : Nat) (msg : Message) :
    Message × Except Fault Unit :=
  let msg := o.fixed_headers.foldl (fun msg header => msg.set header.1 header.2) msg
  match msg.deleteOnPost ["new_dir", "new_file", "new_relPath", "new_baseUrl", "new_subtopic",
      "subtopic", "post_format"] with
  | .error e => (msg, .error e)
  | .ok msg =>
    let msg := if new_dir ≠ [] then msg.set "new_dir" (.str new_dir) else msg
    let msg := msg.set "new_file" (.str new_file)
    match dirOf new_dir msg with
    | .error e => (msg, .error e)
    | .ok new_dir =>
      let publisher := o.publishers[publisher_index]?
      let post_baseDir := (publisher.bind Publisher.baseDir).getD []
      match announcedUrl w o steps publisher msg with
      | .error e => (msg, .error e)
      | .ok none => (msg, .ok ())
      | .ok (some baseUrl_str) =>
        if 1 < post_baseDir.length then
          match announcedBase w o steps post_baseDir baseUrl_str msg with
          | .error e => (msg, .error e)
          | .ok (pbd_str, urlPath) =>
            (announce baseUrl_str (announcedPath pbd_str urlPath new_dir new_file) post_baseDir msg,
              .ok ())
        else (announce baseUrl_str (newFullPath new_dir new_file) post_baseDir msg, .ok ())

end Paths

section Links

/-- `for f in fields: if f in msg['fileOp']: ...`, where `change` gives what becomes of the
value and of a variable of the loop. -/
def editLinks {σ : Type} (change : σ → Str → Except Fault (σ × Option Str)) :
    List String → σ → Message → Except Fault Message
  | [], _, msg => .ok msg
  | f :: fields, s, msg => do
    let fileOp ← msg.item "fileOp"
    if ← fileOp.has f then
      let (s, changed) ← change s (← (← fileOp.item f).asStr)
      match changed with
      | none => editLinks change fields s msg
      | some v => editLinks change fields s (msg.set "fileOp" (← fileOp.setItem f (.str v)))
    else editLinks change fields s msg

def linkFields : List String := ["link", "hlink", "rename"]

/-- Every link rewritten by one function. -/
def rewriteLinks (change : Str → Except Fault Str) (msg : Message) : Except Fault Message :=
  if (msg.get "fileOp").isNone then .ok msg
  else editLinks (fun _ v => (change v).map fun v => ((), some v)) linkFields () msg

/-- A link under a tree whose root has lost `strip` directories, from a file under `token`;
an absolute link has one more part to lose, and so have those after it. -/
def stripLink (token : List Str) (strip : Nat) (v : Str) : Except Fault (Nat × Option Str) :=
  let fopv := split ['/'] v
  let strip := if fopv.head? = some [] then strip + 1 else strip
  if strip < fopv.length then
    let rest := fopv.drop strip
    let toclimb := token.length - rest.count "..".toList - 1
    .ok (strip, some ((List.replicate toclimb "../".toList).flatten ++ join ['/'] rest))
  else .ok (strip, none)

end Links

section Accepted
variable (w : World) (o : Options) (steps : Nat)

/-- Where an accepted message goes: the arguments of `updateFieldsAccepted`. -/
structure Rule where
  findall : Option (Str → List Found)
  maskDir : Option Str
  maskFileOption : Option Str
  mirror : Bool
  strip : Nat
  pstrip : Option Pattern
  flatten : Str

def text (v : Value) : Str :=
  match v with
  | .str s => s
  | v => w.str v

/-- The path to go by, and the message without the `rename` it was taken from. -/
def pathOf (msg : Message) : Except Fault (Str × Message) := do
  let relPath := text w (← msg.item "relPath")
  let relPath ← if o.baseUrl_relPath then
      (baseUrlParse w (← (← msg.item "baseUrl").asStr)).map fun path =>
        path.drop 1 ++ '/' :: relPath
    else .ok relPath
  match o.download, msg.get "rename" with
  | true, some rename => return (text w rename, msg.del "rename")
  | _, _ => return (relPath, msg)

/-- An option that is set to a text. -/
def given (setting : Option Str) : Option Str := setting.filter (· ≠ [])

def expandGiven (setting : Option Str) (msg : Message) : Except Fault Str :=
  match given setting with
  | none => .ok []
  | some setting => variableExpansion w o steps setting msg

/-- The base directory of old; the field asked for first is spelt as it stands there. -/
def oldBaseDir (msg : Message) : Except Fault (Option Str) :=
  match msg.get "subcription_index" with
  | none => .ok o.baseDir
  | some _ => msg.item "subscription_index" >>= index o.subscriptions

/-- The parts of the path, the file name, and the message, after strip and flatten. -/
def stripPath (r : Rule) (relPath : Str) (notRetry : Bool) (msg : Message) :
    Except Fault (List Str × Str × Message) := do
  let token := split ['/'] relPath
  let filename := token.getLast?.getD []
  let (token, msg) ←
    if 0 < r.strip then
      let token := if r.strip < token.length then token.drop r.strip else token
      if (msg.get "fileOp").isSome ∧ notRetry then
        (editLinks (stripLink token) linkFields r.strip msg).map fun msg => (token, msg)
      else .ok (token, msg)
    else match r.pstrip with
      | none => .ok (token, msg)
      | some pstrip => do
        let relstrip ← pstrip.subFirst relPath
        let token := split ['/'] (if occurs filename relstrip then relstrip else filename)
        (rewriteLinks pstrip.subAll msg).map fun msg => (token, msg)
  if r.flatten = ['/'] then return (token, filename, msg)
  else
    let filename := join r.flatten token
    let msg ← rewriteLinks (fun v => .ok (join r.flatten (split ['/'] v))) msg
    return (token.dropLast ++ [filename], filename, msg)

/-- A leading part is put in another's place. -/
def rebase (old new : Str) (v : Str) : Except Fault Str :=
  .ok (if old.isPrefixOf v then replaceFirst old new v else v)

/-- The parts of the path and the message, after the base directory is removed. -/
def dropBase (old_baseDir : Option Str) (d : Option Str) (new_dir : Str) (token : List Str)
    (msg : Message) : Except Fault (List Str × Message) :=
  match given old_baseDir with
  | some old =>
    let base := (split ['/'] old).drop 1
    let token := if base.length < token.length ∧ base.isPrefixOf token then
      token.drop base.length else token
    match given d with
    | some d =>
      if 1 < old.length then (rewriteLinks (rebase old d) msg).map fun msg => (token, msg)
      else .ok (token, msg)
    | none => .ok (token, msg)
  | none =>
    match msg.get "fileOp" with
    | none => .ok (token, msg)
    | some fileOp => do
      if new_dir = [] then return (token, msg)
      let path ← baseUrlParse w (← (← msg.item "baseUrl").asStr)
      if 1 < path.length then (rewriteLinks (rebase path new_dir) msg).map fun msg => (token, msg)
      else (fileOp.has "link").map fun _ => (token, msg)

/-- The name by the file name option; what is no name is set all the same, and then raises. -/
def nameAccepted (option filename : Str) (msg : Message) : Except Fault Message := do
  let new_relPath := msg.set "new_file"
    (((← sundew_getDestInfos w o msg option filename).map Value.str).getD .none)
  let dirs := (split ['/'] (← (← new_relPath.item "new_relPath").asStr)).dropLast
  let new_file ← (← new_relPath.item "new_file").asStr
  return new_relPath.set "new_relPath" (.str (join ['/'] (dirs ++ [new_file])))

/-- `updateFieldsAccepted`: the message as it is left, and whether it was placed. -/
def updateFieldsAccepted (r : Rule) (urlstr : Str) (msg : Message) :
    Except Fault (Message × Bool) := do
  let (relPath, msg) ← pathOf w o msg
  let new_dir ← expandGiven w o steps ((given r.maskDir).orElse fun _ => o.post_baseDir) msg
  let old_baseDir ← oldBaseDir o msg
  let d ← if (given old_baseDir).isNone then .ok none
    else if new_dir ≠ [] then .ok (some new_dir)
    else (expandGiven w o steps o.post_baseDir msg).map some
  let notRetry := o.retry_refilter || !msg.isRetry
  let msg ← match msg.get "fileOp", notRetry with
    | some fileOp, true => Message.deleteOnPost (msg.set "post_fileOp" fileOp) ["post_fileOp"]
    | _, _ => .ok msg
  let (token, filename, msg) ← stripPath r relPath notRetry msg
  let (token, msg) ← dropBase w old_baseDir d new_dir token msg
  let new_dir := if r.mirror ∧ 1 < token.length then
    new_dir ++ '/' :: join ['/'] token.dropLast else new_dir
  let new_dir ← variableExpansion w o steps new_dir msg
  match sundew_dirPattern w r.findall urlstr filename new_dir with
  | .error _ => return (msg, false)
  | .ok new_dir =>
    match updatePaths w o steps new_dir filename 0 msg with
    | (msg, .error _) => return (msg, false)
    | (msg, .ok ()) =>
      match given r.maskFileOption with
      | none => return (msg, true)
      | some option => return (← nameAccepted w o option filename msg, true)

end Accepted

end Sarracenia.Source.Placement
