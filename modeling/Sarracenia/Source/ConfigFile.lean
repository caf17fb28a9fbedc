import Sarracenia.Source.Config
import Sarracenia.Source.Conversion

/-!
# Configuration files (`parse_file`, `parse_line` and what they call, of `sarracenia/config/__init__.py`)

A line is the list of its words. An attribute of the configuration is looked up by its name, as a keyword that is no option is;
the dictionaries are kept apart, and so are the brokers, publishers and subscriptions, of which only what they do to a line is
told: their setters and `_parse_binding` are given from outside, and may raise. The log is left out.
-/
namespace Sarracenia.Source.ConfigFile
open Library Library.Text Library.Decimal Library.Dynamic
open Source.Config (durationToSeconds lower Found Pattern)
open Source.Conversion (lookup among synonyms convert_to_v3 Keyword)

/-! ## Options by kind -/

def count_options : List String := [
  "batch", "count", "exchangeSplit", "instances", "logRotateCount", "no", "post_exchangeSplit", "prefetch", "messageCountMax",
  "retryCountMax", "runStateThreshold_cpuSlow", "runStateThreshold_disconnected", "runStateThreshold_reject",
  "runStateThreshold_retry", "runStateThreshold_slow"]

def flag_options : List String := [
  "acceptSizeWrong", "acceptUnmatched", "amqp_consumer", "baseUrl_relPath", "debug", "delete", "discard", "download", "dry_run",
  "durable", "exchangeDeclare", "exchangeSplit", "follow_symlinks", "force_polling", "inline", "inlineOnly", "inplace", "logJson",
  "logMetrics", "logReject", "logStdout", "logReject", "restore", "messageDebugDump", "mirror", "nofsetstat", "notify_only",
  "overwrite", "post_on_start", "permCopy", "persistent", "queueBind", "queueDeclare", "randomize", "recursive", "realpathFilter",
  "realpathPost", "reconnect", "report", "reset", "retry_refilter", "retryEmptyBeforeExit", "save",
  "sundew_compat_regex_first_match_is_zero", "sourceFromExchange", "sourceFromMessage", "statehost", "timeCopy", "topicCopy", "users",
  "v2compatRenameDoublePost", "wololo"]

def float_options : List String := ["messageRateMax", "messageRateMin"]

def duration_options : List String := [
  "expire", "housekeeping", "logRotateInterval", "fileAgeMax", "fileAgeMin", "messageAgeMax", "post_messageAgeMax",
  "metrics_writeInterval", "runStateThreshold_idle", "runStateThreshold_lag", "retry_ttl", "runStateThreshold_hung", "sleep", "sleepMax",
  "timeout", "varTimeOffset"]

def list_options : List String := ["amqp_queue_args", "path", "vip"]

def set_options : List String := ["logEvents", "fileEvents"]

/-- `set_choices`, with the `entry_points` of `sarracenia/flowcb/__init__.py`. -/
def set_choices : List (String × List String) := [
  ("logEvents", ["ack", "after_accept", "after_gather", "after_post", "after_work", "destfn", "do_poll", "download", "gather",
    "metricsReport", "on_cleanup", "on_declare", "on_features", "on_housekeeping", "on_sanity", "on_start", "on_stop", "please_stop",
    "poll", "post", "report", "send", "reject", "nodupe"]),
  ("fileEvents", ["create", "delete", "link", "mkdir", "modify", "rmdir"])]

def perm_options : List String := ["permDefault", "permDirDefault", "permLog"]

def size_options : List String := ["accelThreshold", "blockSize", "bufSize", "byteRateMax", "fileSizeMax", "inlineByteMax"]

def str_options : List String := [
  "accelCpCommand", "accelWgetCommand", "accelScpCommand", "action", "admin", "baseDir", "broker", "cluster", "directory", "exchange",
  "exchangeSuffix", "feeder", "filename", "flatten", "flowMain", "header", "hostname", "httpsSafeQuote", "httpUserAgent", "identity",
  "inlineEncoding", "logFormat", "logLevel", "pollUrl", "post_baseUrl", "post_baseDir", "post_broker", "post_exchange",
  "post_exchangeSuffix", "post_format", "post_topic", "queueName", "queueShare", "queueType", "sendTo", "rename", "report_exchange",
  "source", "strip", "timezone", "nodupe_ttl", "nodupe_driver", "nodupe_basis", "tlsRigour", "topic"]

/-- `Config.port_required` and `Config.v2entry_points` are attributes of the class, which a line can add to. -/
def known_methods : List String := ["arbitrary", "md5", "random", "sha512"]

/-! ## The configuration -/

/-- A compiled expression: `match`, and what `re.findall` finds. -/
structure Regex where
  regexp : Str → Option (List (Option Str))
  findall : Str → List Found

/-- `self.pstrip`: what is not set is `False` or `None`; a list comes of a line with that keyword. -/
inductive Pstrip where
  | unset | text (s : Str) | list

/-- The ten fields of a mask. -/
structure Mask where
  pattern : Str
  maskDir : Option Str
  maskFileOption : Option Str
  regexp : Regex
  accepting : Bool
  mirror : Bool
  strip : Nat
  pstrip : Pstrip
  flatten : Option Str
  args : List Str

/-- What a list may have in it. -/
inductive Item where
  | none
  | text (s : Str)
  | mask (m : Mask)
  | undeclared (cfname : Str) (lineno : Nat) (k : Str)

/-- The value of an attribute; `object` is anything else, as a dictionary or a method. -/
inductive Attr where
  | none
  | bool (b : Bool)
  | int (n : Int)
  | float (q : ℚ)
  | octal (n : Nat)
  | text (s : Str)
  | list (items : List Item)
  | set (members : List Str)
  | object

/-- `links` are the brokers, publishers and subscriptions. -/
structure Conf (L : Type) where
  attr : Str → Option Attr
  env : Str → Option Str
  fixed_headers : Str → Option Str
  settings : Str → Str → Option Str
  declared_users : Option Str → Option Str
  v2plugins : Str → List Str
  links : L

/-- What `_parse_binding` does: the attributes that it sets, the subscriptions it adds to, and whether it raises. -/
structure Bound (L : Type) where
  queue_filename : Option Str
  subscriptionsPath : Option Str
  links : L
  raised : Option Fault

/-- What lies outside: `files` are the files that can be read, `parse_size` is that of `humanfriendly`, `sub` what compiles a
pattern for `re.sub`, `shown` a mask in a message. `digit` and `numeric` are those of a character, and `decimal` its value in a
number. `assign` is the setter of a broker, and `bind` is `_parse_binding`. -/
structure World (L : Type) where
  base : Config.World
  files : Str → Option (List (List Str))
  expanduser : Str → Str
  compile : Str → Option Regex
  sub : Str → Option Pattern
  shown : Mask → Str
  username : Str → Except Fault (Option Str)
  parse_size : Str → Bool → Option Int
  parse_float : Str → Int ⊕ ℚ
  digit : Char → Bool
  numeric : Char → Bool
  decimal : Char → Option Nat
  str : Attr → Str
  user : String → L → Option (Option Str)
  assign : (Str → Option Attr) → Str → Option Str → L → L × Option Fault
  bind : (Str → Option Attr) → Str → Bool → L → Bound L

section Attributes
variable {L : Type} (s : Conf L)

def Conf.setattr (k : Str) (a : Attr) : Conf L := { s with attr := fun n => if n = k then some a else s.attr n }

def Conf.listOf (name : String) : List Item :=
  match s.attr name.toList with
  | some (.list items) => items
  | _ => []

def Conf.setOf (name : String) : List Str :=
  match s.attr name.toList with
  | some (.set members) => members
  | _ => []

def Conf.textOf (name : String) : Option Str :=
  match s.attr name.toList with
  | some (.text t) => some t
  | _ => none

def Conf.boolOf (name : String) : Bool :=
  match s.attr name.toList with
  | some (.bool b) => b
  | _ => false

def Conf.append (name : String) (item : Item) : Conf L := s.setattr name.toList (.list (s.listOf name ++ [item]))

/-- Where it is not there yet. -/
def Conf.append_new (name : String) (v : Str) : Conf L :=
  if (s.listOf name).any (fun | .text t => t = v | _ => false) then s else s.append name (.text v)

def Conf.insert_new (name : String) (v : Str) : Conf L :=
  if (s.listOf name).any (fun | .text t => t = v | _ => false) then s
  else s.setattr name.toList (.list (.text v :: s.listOf name))

end Attributes

/-! ## What the branches of `parse_line` call -/

section Helpers
variable {L : Type} (w : World L) (s : Conf L)

def isTrue (S : Str) : Bool := among ["true", "yes", "on", "1"] (lower S)

def parse_count (cstr : Str) : Except Fault Int :=
  match cstr with
  | [] => .error .indexError
  | '-' :: rest => .ok (-((w.parse_size rest (binary cstr)).getD 0))
  | _ => .ok ((w.parse_size cstr (binary cstr)).getD 0)
where
  binary (cstr : Str) : Bool := cstr.getLast?.any fun c => c.toLower = 'i' ∨ c.toLower = 'b'

/-- What `_varsub` reads of the configuration. -/
def Conf.options : Config.Options where
  baseDir := none
  post_baseDir := none
  documentRoot := none
  directory := none
  varTimeOffset := 0
  sundew_compat_regex_first_match_is_zero := false
  queueShare := s.textOf "queueShare"
  broker_user := w.user "broker" s.links
  post_broker_user := w.user "post_broker" s.links
  no := match s.attr "no".toList with
    | some (.int n) => some n.toNat
    | _ => none
  setting e := match s.attr e with
    | none => none
    | some (.list []) => some (.error .indexError)
    | some (.list (item :: _)) => some (.ok (w.str (.list [item])))
    | some value => some (.ok (w.str value))
  env := s.env
  fixed_headers := []
  publishers := []
  subscriptions := []
  masks := []
  component := []
  messageAgeMax := 0
  fileAgeMax := 0
  fileAgeMin := 0
  acceptUnmatched := false
  baseUrl_relPath := false
  download := false
  retry_refilter := false
  filename := none
  mirror := false
  strip := 0
  pstrip := none
  flatten := []
  destfn := []

def varsub (word : Str) : Except Fault Str := Config._varsub w.base (s.options w) word

def Conf.pstripOf : Pstrip :=
  match s.attr "pstrip".toList with
  | some (.text t) => .text t
  | some (.list _) => .list
  | _ => .unset

def Conf.stripOf : Nat :=
  match s.attr "strip".toList with
  | some (.int n) => n.toNat
  | _ => 0

def headPiece (c : Char) (s : Str) : Str := (split [c] s).headD []

/-- The first argument is an option of Sundew for the name of the file. -/
def sundew : List String := ["None", "DESTFN", "DESTFNSCRIPT", "HEADFN", "NONE", "NONESENDER", "SATNET", "SENDER", "WHATFN"]

def script_prefix : Str := "DESTFNSCRIPT=".toList

/-- The entry, and a script that its name of a file is made by. -/
def _build_mask (option : Str) (pattern : Str) (rest : List Str) : Item × Option Str :=
  match w.compile pattern with
  | none => (.none, none)
  | some regexp =>
    let (fn, args) := match rest with
      | first :: more =>
        if among sundew (headPiece '=' (headPiece ':' first)) then (some first, more) else (s.textOf "filename", rest)
      | [] => (s.textOf "filename", [])
    let script := (fn.filter script_prefix.isPrefixOf).map (List.drop 13)
    let directory := s.textOf "directory"
    let d := if directory = some [] then directory else directory.map w.expanduser
    (.mask ⟨pattern, d, fn, regexp, lower option = "accept".toList, s.boolOf "mirror", s.stripOf, s.pstripOf, s.textOf "flatten", args⟩,
      script)

/-- The last sign before a value, and the value. -/
def signed (op : Char) : Str → Option (Char × Str)
  | [] => none
  | c :: v => if c = '+' ∨ c = '-' then signed c v else some (op, c :: v)

def _parse_set_string (v : Str) (old_value : Attr) : Except Fault Attr :=
  let v := replaceAll ['|'] [','] v
  if v = "None".toList then .ok (.set [])
  else match signed 'r' v with
    | none => .error .indexError
    | some (op, v) =>
      let sv := split [','] v
      if op = 'r' then .ok (.set sv)
      else match old_value with
        | .set old => .ok (.set (if op = '+' then old ++ sv.filter (· ∉ old) else old.filter (· ∉ sv)))
        | _ => .error .typeError

def declaring_env : List String := ["env", "envvar", "var", "value"]

def declaring_user : List String := ["source", "subscriber", "subscribe"]

/-- There is no method for the declaration of an option. -/
def _parse_declare (words : List Str) : Except Fault (Conf L) :=
  match words with
  | [] => .error .indexError
  | kind :: rest =>
    if among declaring_env kind then
      match rest with
      | [] => .error .indexError
      | word :: _ =>
        let name := headPiece '=' word
        if name.length < word.length then
          .ok (({ s with env := fun n => if n = name then some (word.drop (name.length + 1)) else s.env n } : Conf L).append
            "env_declared" (.text name))
        else .ok s
    else if among ["option", "o"] kind then .error .attributeError
    else if among declaring_user kind then
      match rest with
      | [] => .error .indexError
      | user :: _ => .ok { s with declared_users := fun n => if n = some user then some kind else s.declared_users n }
    else if kind = "exchange".toList then
      match rest with
      | [] => .error .indexError
      | exchange :: _ => .ok (s.append "declared_exchanges" (.text exchange))
    else .ok s

def _parse_setting (opt : Str) (value : List Str) : Conf L :=
  let opt_class := join ['.'] (split ['.'] opt).dropLast
  let opt_var := (split ['.'] opt).getLastD []
  { s with settings := fun c n => if c = opt_class ∧ n = opt_var then some (join [' '] value) else s.settings c n }

/-- The classes, by name and by the letter that they are registered as. -/
def subclasses : List (String × String) := [("arbitrary", "a"), ("md5", "d"), ("random", "0"), ("sha512", "s")]

def Conf.identity (value : Str) : Conf L :=
  if among known_methods value ∨ value.take 4 = "cod,".toList then s.setattr "identity_method".toList (.text value)
  else
    let cod := value.take 2 = "z,".toList
    let arbitrary := value.take 2 = "a,".toList
    let s := if arbitrary then s.setattr "identity_arbitrary_value".toList (.text (value.drop 2)) else s
    let value := if cod then value.drop 2 else value
    if among ["n", "none"] (lower value) then s.setattr "identity_method".toList .none
    else match subclasses.find? fun sc => sc.1.toList = value ∨ sc.2.toList = value with
      | some sc => s.setattr "identity_method".toList (.text (if cod then "cod,".toList ++ sc.1.toList else sc.1.toList))
      | none => s.setattr "identity_method".toList (.text "invalid".toList)

/-- Without a value it is that of the method that is set. -/
def _parse_sum (value : Str) : Except Fault (Conf L) :=
  if value ≠ [] then .ok (s.identity value)
  else match s.attr "identity_method".toList with
    | some (.text t) => .ok (if t = [] then s else s.identity t)
    | some (.list (_ :: _)) => .error .attributeError
    | none => .error .attributeError
    | _ => .ok s

def isdigit (v : Str) : Bool := !v.isEmpty && v.all w.digit

/-- `int(v, base)`, of a text that consists of digits. -/
def numeral (base : Nat) (v : Str) : Except Fault Nat :=
  match v.mapM fun c => (w.decimal c).filter (· < base) with
  | some digits => .ok (digits.foldl (fun n d => n * base + d) 0)
  | none => .error .valueError

def falsy : List String := ["none", "off", "false"]

/-- `durationToSeconds(v)`, which gives an integer for a word. -/
def duration (v : Str) : Except Fault Attr := do
  let seconds ← durationToSeconds w.base v none
  return if among falsy (lower v) then .int 0 else .float seconds

def numberOf : Int ⊕ ℚ → Attr
  | .inl n => .int n
  | .inr q => .float q

end Helpers

/-! ## The branches -/

/-- The branches for a keyword that is no flag, in their order. -/
inductive Branch where
  | mask | late | early | declare | feeder | header | include_ | subtopic | topicPrefix | import_ | setting | identity | port
  | entry | unplugin | inflight | strip | duration | float | perm | count | list | set | str | other
  deriving DecidableEq

section Branches
variable {L : Type} (w : World L) (s : Conf L)

def Conf.names (name : String) (k : Str) : Bool := (s.listOf name).any (fun | .text t => t = k | _ => false)

def branchOf (k : Str) : Branch :=
  if among ["accept", "reject"] k then .mask
  else if among ["callback", "cb"] k then .late
  else if among ["callback_prepend", "cbp"] k then .early
  else if among ["declare"] k then .declare
  else if among ["feeder", "manager"] k then .feeder
  else if among ["header", "h"] k then .header
  else if among ["include", "config"] k then .include_
  else if among ["subtopic", "topic"] k then .subtopic
  else if among ["topicPrefix", "post_topicPrefix"] k then .topicPrefix
  else if among ["import"] k then .import_
  else if among ["flow_callback", "flowcb", "fcb", "flowCallback"] k then .late
  else if among ["flow_callback_prepend", "flowcb_prepend", "fcbp", "flowCallbackPrepend"] k then .early
  else if among ["set", "setting", "s"] k then .setting
  else if among ["identity", "integrity"] k then .identity
  else if s.names "port_required" k then .port
  else if s.names "v2entry_points" k then .entry
  else if among ["no-import"] k then .unplugin
  else if among ["inflight", "lock"] k then .inflight
  else if among ["strip"] k then .strip
  else if among duration_options k then .duration
  else if among float_options k then .float
  else if among perm_options k then .perm
  else if among (size_options ++ count_options) k then .count
  else if among list_options k then .list
  else if among set_options k then .set
  else if among str_options k then .str
  else .other

/-- `if not getattr(self, k)`. -/
def Attr.falsy : Attr → Bool
  | .none => true
  | .bool b => !b
  | .int n => n = 0
  | .float q => q = 0
  | .octal n => n = 0
  | .text t => t.isEmpty
  | .list items => items.isEmpty
  | .set members => members.isEmpty
  | .object => false

def prefixOf (v : Str) : List Str :=
  if among falsy (lower v) then [] else if '/' ∈ v then split ['/'] v else split ['.'] v

/-- A list option is added to. -/
def Conf.extend (k v : Str) : Except Fault (Conf L) :=
  match s.attr k with
  | none => .ok (s.setattr k (.list [.text v]))
  | some value =>
    if value.falsy then .ok (s.setattr k (.list [.text v]))
    else match value with
      | .list items => .ok (s.setattr k (.list (items ++ [.text v])))
      | _ => .error .attributeError

/-- A keyword that is no option: an attribute by that name is set or added to by its type. -/
def Conf.undeclared (cfname : Str) (lineno : Nat) (k v : Str) : Except Fault (Conf L) :=
  match s.attr k with
  | none => .ok ((s.setattr k (.text v)).append "undeclared" (.undeclared cfname lineno k))
  | some (.float _) => .ok (s.setattr k (numberOf (w.parse_float v)))
  | some (.int _) => (duration w v).map (s.setattr k)
  | some (.text t) => .ok (s.setattr k (.list [.text t, .text v]))
  | some (.list items) => .ok (s.setattr k (.list (items ++ [.text v])))
  | _ => .ok s

/-- What a string option is set to. -/
def strValue (k v : Str) : Option Str :=
  if k = "filename".toList then (if v = "None".toList then none else some v)
  else if among falsy (lower v) then none else some v

/-- A numeral is a number of directories, any other text a pattern. -/
def Conf.strip_ (v : Str) : Except Fault (Conf L) :=
  if isdigit w v then do
    let n ← numeral w 10 v
    return (s.setattr "strip".toList (.int n)).setattr "pstrip".toList .none
  else match v with
    | [] => .error .indexError
    | '/' :: pattern => .ok ((s.setattr "pstrip".toList (.text pattern)).setattr "strip".toList (.int 0))
    | _ => .ok ((s.setattr "pstrip".toList (.text v)).setattr "strip".toList (.int 0))

def Conf.inflight (k v : Str) : Except Fault (Conf L) :=
  if !v.dropLast.isEmpty && v.dropLast.all w.numeric then do
    let vv ← duration w v
    return (s.setattr k vv).setattr "fileAgeMin".toList vv
  else .ok (s.setattr k (if among falsy (lower v) then .none else .text v))

def Conf.choose (k v : Str) : Except Fault (Conf L) :=
  if lower v = "none".toList then .ok (s.setattr k (.set []))
  else if among ["all", "+all"] (lower v) then
    .ok (match lookup set_choices k with
      | some choices => s.setattr k (.set (choices.map String.toList))
      | none => s)
  else match s.attr k with
    | none => .error .attributeError
    | some old => (_parse_set_string v old).map (s.setattr k)

/-- The setters of the brokers are what the names stand for. -/
def Conf.setStr (k v : Str) : Conf L × Option Fault :=
  if among ["admin", "broker", "post_broker"] k then
    let (links, raised) := w.assign s.attr k (strValue k v) s.links
    ({ s with links := links }, raised)
  else if k = "directory".toList ∧ s.attr "download".toList = none then (s, some .attributeError)
  else (s.setattr k ((strValue k v).elim .none .text), none)

/-- What is done, or where it raises the configuration before. -/
def attempt (r : Except Fault (Conf L)) : Conf L × Option Fault :=
  match r with
  | .ok s => (s, none)
  | .error fault => (s, some fault)

/-- A branch, with the first argument `v`, and all of them. -/
def perform (b : Branch) (cfname : Str) (lineno : Nat) (k v : Str) (more : List Str) : Conf L × Option Fault :=
  match b with
  | .mask =>
    let (mask, script) := _build_mask w s k v more
    let s := script.elim s fun script => s.setattr "destfn_scripts".toList (.set (script :: s.setOf "destfn_scripts"))
    (s.append "masks" mask, none)
  | .late => (s.append_new "plugins_late" v, none)
  | .early => (s.insert_new "plugins_early" v, none)
  | .declare => attempt s (_parse_declare s (v :: more))
  | .feeder => attempt s ((w.username v).map fun user =>
      let s := s.setattr "feeder".toList .object
      { s with declared_users := fun n => if n = user then some "feeder".toList else s.declared_users n })
  | .header =>
    let kk := headPiece '=' v
    (if kk.length < v.length then
      { s with fixed_headers := fun n => if n = kk then some (v.drop (kk.length + 1)) else s.fixed_headers n } else s, none)
  | .subtopic =>
    let s := s.setattr "subtopic_seen".toList (.bool true)
    let b := w.bind s.attr v (k = "topic".toList) s.links
    let s := b.queue_filename.elim s fun path => s.setattr "queue_filename".toList (.text path)
    let s := b.subscriptionsPath.elim s fun path => s.setattr "subscriptionsPath".toList (.text path)
    ({ s with links := b.links }, b.raised)
  | .topicPrefix => (s.setattr k (.list ((prefixOf v).map .text)), none)
  | .import_ => (s.append "imports" (.text v), none)
  | .setting => (_parse_setting s v more, none)
  | .identity => attempt s (_parse_sum s v)
  | .port => (s, none)
  | .entry => ({ s with v2plugins := fun n => if n = k then s.v2plugins k ++ [v] else s.v2plugins n }, none)
  | .unplugin => (s, some .attributeError)
  | .inflight => attempt s (s.inflight w k v)
  | .strip => attempt s (s.strip_ w v)
  | .duration => attempt s ((duration w v).map (s.setattr k))
  | .float => (s.setattr k (numberOf (w.parse_float v)), none)
  | .perm =>
    if isdigit w v then attempt s ((numeral w 8 v).map fun n => s.setattr k (.octal n)) else (s, none)
  | .count => attempt s ((parse_count w v).map fun n => s.setattr k (.int n))
  | .list => attempt s (s.extend k (join [' '] (v :: more)))
  | .set => attempt s (s.choose k v)
  | .str => s.setStr w k (join [' '] (v :: more))
  | .other => attempt s (s.undeclared w cfname lineno k (join [' '] (v :: more)))
  | .include_ => (s, none)

end Branches

/-! ## Lines and files -/

/-- A call of `parse_line`. -/
structure Met (L : Type) where
  conf : Conf L
  component : Option Str
  cfname : Str
  lineno : Nat
  line : List Str

/-- What a line or a file comes to. `cut` is where the files that include each other are not followed further. Beside it are kept
how many lines of the file were processed, the same of each file that was opened, all lines that were begun, and which file
included which. -/
structure Parsed (L : Type) where
  conf : Conf L
  raised : Option Fault
  cut : Bool
  processed : Nat
  opened : List (Str × Nat)
  met : List (Met L)
  included : List (Str × Str)

section Lines
variable {L : Type} (w : World L)

def Parsed.of (r : Conf L × Option Fault) : Parsed L := ⟨r.1, r.2, false, 0, [], [], []⟩

/-- A keyword by its name of now. -/
def resolve (component : Option Str) (k : Str) : Str :=
  match lookup synonyms k with
  | some name => name.toList
  | none =>
    if k = "destination".toList then (if component = some "poll".toList then "pollUrl" else "sendTo").toList
    else if k = "broker".toList ∧ component = some "poll".toList then "post_broker".toList
    else k

/-- What the table of old keywords makes of a line: the keyword and the words, or nothing more to do. -/
inductive Converted (L : Type) where
  | line (s : Conf L) (k : Str) (line : List Str)
  | done (s : Conf L)
  | raised (s : Conf L) (fault : Fault)

/-- `if k in self.unknown: self.unknown.remove(k)`; there is no such attribute, unless a line with that keyword has made one. -/
def forget (s : Conf L) (k : Str) : Converted L :=
  match s.attr "unknown".toList with
  | some (.text t) => if occurs k t then .raised s .attributeError else .done s
  | some (.list items) =>
    .done (s.setattr "unknown".toList (.list (items.eraseP (fun | .text t => t = k | _ => false))))
  | some (.set members) => .done (s.setattr "unknown".toList (.set (members.filter (· ≠ k))))
  | none => .raised s .attributeError
  | _ => .raised s .typeError

def convert (s : Conf L) (k : Str) (line : List Str) : Converted L :=
  match lookup convert_to_v3 k with
  | none => .line s k line
  | some keyword =>
    let s := if occurs "_log".toList k then s.setattr "log_flowcb_needed".toList (.bool true) else s
    match line with
    | _ :: argument :: _ =>
      let v := replaceFirst ".py".toList [] argument
      match keyword with
      | .list words => if among words v then .raised s .typeError else .line s k line
      | .table entries =>
        match lookup entries v with
        | none => .line s k line
        | some words => .line s ((words.headD "").toList) (words.map String.toList)
    | _ =>
      match keyword with
      | .list words =>
        if "continue" ∈ words then forget s k
        else match words with
          | name :: value :: values => .line s name.toList ((name :: value :: values).map String.toList)
          | _ => .raised s .indexError
      | .table _ => .raised s .keyError

/-- Where a file is looked for: the first place that has it, or the last. -/
def search (s : Conf L) (cfg : Str) : Option Str :=
  match cfg with
  | [] => none
  | '/' :: _ => some cfg
  | _ =>
    let places := (s.listOf "config_search_path").filterMap fun
      | .text d => some (d ++ '/' :: cfg)
      | _ => none
    (places.find? fun place => (w.files place).isSome).or places.getLast?

def substituted (s : Conf L) (k : Str) (line : List Str) : Except Fault (List Str) :=
  if among ["queueName", "queueShare"] k then .ok line else line.mapM (varsub w s)

/-- `if k in flag_options`. -/
def flag (s : Conf L) (k : Str) (arguments : List Str) : Conf L :=
  let value := match arguments with
    | [] => true
    | v :: _ => isTrue v
  let s := s.setattr k (.bool value)
  if k = "logReject".toList ∧ value then s.setattr "logEvents".toList (.set (s.setOf "logEvents" ++ ["reject".toList])) else s

/-- What a line comes to: nothing more, a failure, a file that is included, or one of the other branches. -/
inductive Command (L : Type) where
  | done (s : Conf L)
  | raised (s : Conf L) (fault : Fault)
  | include_ (s : Conf L) (v : Str)
  | perform (s : Conf L) (b : Branch) (k v : Str) (more : List Str)

/-- From the substitutions on. -/
def command (s : Conf L) (k : Str) (line : List Str) : Command L :=
  if k = "continue".toList then .done s
  else match substituted w s k line with
    | .error fault => .raised s fault
    | .ok line =>
      if among flag_options k then .done (flag s k line.tail)
      else
        let s := if k = "broker".toList then s.setattr "subtopic_seen".toList (.bool false) else s
        match line with
        | _ :: v :: more => if branchOf s k = .include_ then .include_ s v else .perform s (branchOf s k) k v more
        | _ => .done s

/-- What a line asks for; its words are not empty. -/
def Met.command (m : Met L) : Command L :=
  let s := m.conf.setattr "lineno".toList (.int m.lineno)
  match m.line with
  | [] => .done s
  | first :: _ =>
    if first.head? = some '#' then .done s
    else match convert s (resolve m.component first) m.line with
      | .raised s fault => .raised s fault
      | .done s => .done s
      | .line s k line => ConfigFile.command w s k line

/-- `parse_line`. `inner` is `parse_file` of an included file, of which an exception is not passed on. -/
def parse_line (inner : Conf L → Str → Parsed L) (file : Str) (m : Met L) : Parsed L :=
  match m.command w with
  | .done s => .of (s, none)
  | .raised s fault => .of (s, some fault)
  | .perform s b k v more => .of (perform w s b m.cfname m.lineno k v more)
  | .include_ s v =>
    let r := inner s v
    let edge := (search w s (w.expanduser v)).filter fun path => (w.files path).isSome
    { r with
      raised := if r.cut then r.raised else none
      included := edge.toList.map (file, ·) ++ r.included }

/-- `if self.lineno > 0: saved_lineno = self.lineno`. -/
def Conf.saved (s : Conf L) (saved_lineno : Attr) : Attr :=
  match s.attr "lineno".toList with
  | some (.int n) => if n > 0 then .int n else saved_lineno
  | some (.float q) => if q > 0 then .float q else saved_lineno
  | _ => saved_lineno

/-- The lines of a file, from one of them on, and what is set back afterwards. -/
def parse_lines (inner : Conf L → Str → Parsed L) (file : Str) (component : Option Str) (cfname : Str) :
    Nat → List (List Str) → Attr → Conf L → Parsed L
  | _, [], saved_lineno, s =>
    .of ((s.setattr "files".toList (.list (s.listOf "files").dropLast)).setattr "lineno".toList saved_lineno, none)
  | n, line :: lines, saved_lineno, s =>
    let m : Met L := ⟨s, component, cfname, n, line⟩
    let r := parse_line w inner file m
    if r.cut ∨ r.raised.isSome then { r with processed := 0, met := m :: r.met }
    else
      let rest := parse_lines inner file component cfname (n + 1) lines (s.saved saved_lineno) r.conf
      { rest with
        processed := rest.processed + 1
        opened := r.opened ++ rest.opened
        met := m :: r.met ++ rest.met
        included := r.included ++ rest.included }

/-- `parse_file`, with includes followed so many files deep. -/
def parse_file : Nat → Conf L → Str → Option Str → Parsed L
  | 0, s, _, _ => { Parsed.of (s, none) with cut := true }
  | n + 1, s, cfg, component =>
    let cfname := component.elim cfg fun component => component ++ '/' :: cfg
    let cfg := w.expanduser cfg
    if cfg = [] then .of (s, some .indexError)
    else match search w s cfg with
      | none => .of (s, none)
      | some path =>
        let s := s.append "files" (.text path)
        match w.files path with
        | none => .of (s.setattr "subtopic_seen".toList (.bool false), some .osError)
        | some lines =>
          let r := parse_lines w (fun s v => parse_file n s v none) path component cfname 1 lines (.int 0)
            (s.setattr "subtopic_seen".toList (.bool false))
          { r with opened := (path, r.processed) :: r.opened }

end Lines

/-! ## Masks as `filter` takes them -/

section Filter
variable {L : Type} (w : World L)

/-- What `re.sub` is called with, where it is: nothing for a pattern that is not set, and neither a list nor what does not compile. -/
def patternOf : Pstrip → Option (Option Pattern)
  | .unset => some none
  | .text s => if s = [] then some none else (w.sub s).map some
  | .list => none

/-- What `filter` makes of an entry. It unpacks a mask, and uses what is behind `accepting` of those that accept: the pattern
where no number of directories is given, and `flatten`, which is a text or there is no `join`. -/
def maskOf : Item → Option Config.Mask
  | .mask m =>
    let used (pstrip : Option Pattern) (flatten : Str) : Config.Mask :=
      ⟨m.pattern, m.maskDir, m.maskFileOption, m.regexp.regexp, m.regexp.findall, m.accepting, m.mirror, m.strip, pstrip, flatten,
        w.shown m⟩
    if m.accepting then do
      let pstrip ← if m.strip > 0 then some none else patternOf w m.pstrip
      let flatten ← m.flatten
      return used pstrip flatten
    else some (used none [])
  | _ => none

end Filter

end Sarracenia.Source.ConfigFile
