import Sarracenia.Library.Percent
import Sarracenia.Library.Table
import Sarracenia.Source.Retry

/-!
# Duplicate suppression (`sarracenia/flowcb/nodupe/__init__.py`, `nodupe/disk.py`)

The two drivers derive the same keys and run the same loop over the incoming messages;
they differ in how they check one message, so the loop takes a driver. Times are exact.
What only the log shows is left out: the counters, the time of the last expiry, `cache_hit`.
-/
namespace Sarracenia.Source.NoDupe
open Library Library.Text Library.Dynamic Source.TimeNotation
open Retry (Object)

structure Options where
  nodupe_ttl : ℚ
  fileAgeMax : ℚ
  fileAgeMin : ℚ
  component : Str

/-- What the language and the platform give. The note of a message object tells what the
clock reads when the object is handled; `str` writes a value that is no text, `number` a
number that is a key; `float` reads whatever `readFloat` reads, and more. -/
structure World (τ : Type) where
  nowstr : τ → Str
  timeflt2str : ℚ → Str
  str : Value → Str
  number : ℚ → Str
  float : Str → Option ℚ
  float_reads : ∀ s q, Decimal.readFloat s = some q → float s = some q
  replacing : List UInt8 → Str

section Keys
variable {τ : Type} (w : World τ)

/-- An entry of `nodupe_override`. -/
def overridden (field : String) (msg : Message) : Except Fault (Option Value) :=
  match msg.get "nodupe_override" with
  | none => .ok none
  | some nodupe_override => do
    if ← nodupe_override.has field then return some (← nodupe_override.item field)
    else return none

def fileOpKey (msg : Message) (fileOp : Value) : Except Fault Value := do
  if ← fileOp.has "link" then fileOp.item "link"
  else if ← fileOp.has "directory" then
    if ← fileOp.has "remove" then return .none else msg.item "relPath"
  else return .none

def identityKey (identity : Value) : Except Fault Value := do
  let method ← identity.item "method"
  if method.equals "cod".toList then return .none
  let method ← method.asStr
  match ← identity.item "value" with
  | .str value => return .str (method ++ ',' :: value.filter (· ≠ '\n'))
  | _ => .error .attributeError

/-- The first three priorities; a value that is false leaves the key to the fourth. -/
def givenKey (msg : Message) : Except Fault Value := do
  match ← overridden "key" msg with
  | some key => return key
  | none =>
    match msg.get "fileOp", msg.get "identity" with
    | some fileOp, _ => fileOpKey msg fileOp
    | none, some identity => identityKey identity
    | none, none => return .none

def World.format : Value → Str
  | .str s => s
  | .int i => (toString i).toList
  | value => w.str value

/-- The key made of the path, the time and the size. -/
def timeKey (msg : Message) : Except Fault Value := do
  let t ← (msg.get "mtime").elim (msg.item "pubTime") .ok
  let path ← (← overridden "path" msg).elim (msg.item "relPath") .ok
  let size := (msg.get "size").elim [] fun size => ',' :: w.format size
  return .str (w.format path ++ ',' :: (w.format t ++ size))

def deriveKey (msg : Message) : Except Fault Value := do
  let key ← givenKey msg
  if key.truthy then return key else timeKey w msg

def lstrip : Value → Except Fault Value
  | .str s => .ok (.str (s.dropWhile (· == '/')))
  | _ => .error .attributeError

def pathOf (msg : Message) : Except Fault Value := do
  match ← overridden "path" msg with
  | some path => return path
  | none => lstrip (← msg.item "relPath")

/-- The key and the path of a message, and the message with the two noted in it. -/
def identify (msg : Message) : Except Fault (Value × Value × Message) := do
  let key ← deriveKey w msg
  let path ← pathOf msg
  let msg := msg.set "noDupe" (.dict [("key", key), ("path", path)])
  return (key, path, ← Message.deleteOnPost msg ["noDupe"])

end Keys

section Loop
variable {σ τ : Type} (w : World τ) (o : Options)

/-- How a driver checks one message, `true` when it is new, and what it does between the
batches, both at a time. -/
structure Driver (σ : Type) where
  check_message : ℚ → σ → Message → Except Fault (σ × Message × Bool)
  on_housekeeping : ℚ → σ → σ

inductive Fate where
  | accepted | rejected | failed
  deriving DecidableEq, Repr

def min_mtime (now : ℚ) : ℚ := if 0 < o.fileAgeMax then now - o.fileAgeMax else 0

def max_mtime (now : ℚ) : ℚ := if 0 < o.fileAgeMin then now - o.fileAgeMin else now + 100

/-- The note why a message is rejected, and its report. -/
def refuse (m : Object τ) (code : Int) (reason message : Str) : Except Fault (Object τ × Fate) := do
  let msg ← Message.deleteOnPost m.2 ["reject"]
  let msg ← Message.setReport (w.nowstr m.1) (msg.set "reject" (.str reason)) code message
  return ((m.1, msg), .rejected)

/-- What becomes of a message whose file is too old or too new; nothing is said of another. -/
def ageCheck (now : ℚ) (m : Object τ) : Except Fault (Option (Object τ × Fate)) :=
  match m.2.get "mtime" with
  | none => .ok none
  | some value => do
    let text ← value.asStr
    let mtime ← timestr2flt text
    if mtime < min_mtime o now then
      let reason := text ++ " too old (nodupe check), oldest allowed ".toList ++
        w.timeflt2str (min_mtime o now)
      return some (← refuse w m 406 reason reason)
    else if max_mtime o now < mtime ∧ o.component = "poll".toList then
      let reason := text ++ " too new (nodupe check), newest allowed ".toList ++
        w.timeflt2str (max_mtime o now)
      return some (← refuse w m 425 reason reason)
    else if max_mtime o now < mtime then
      let _ ← m.2.item "relPath"
      return some (m, .failed)
    else return none

/-- The message is new to the driver, or a duplicate. -/
def judge (m : Object τ) (new : Bool) : Except Fault (Object τ × Fate) :=
  if new then .ok (m, .accepted)
  else refuse w m 304 "not modified 1 (nodupe check)".toList
    "Not modified 1 (nodupe check)".toList

variable (d : Driver σ)

/-- The body of the loop. What the driver has noted stays noted where a later step raises. -/
def handle (now : ℚ) (s : σ) (m : Object τ) : σ × Except Fault (Object τ × Fate) :=
  match ageCheck w o now m with
  | .error fault => (s, .error fault)
  | .ok (some sorted) => (s, .ok sorted)
  | .ok none =>
    if m.2.isRetry then (s, .ok (m, .accepted))
    else match d.check_message now s m.2 with
      | .error fault => (s, .error fault)
      | .ok (s, msg, new) => (s, judge w (m.1, msg) new)

/-- The lists of a batch, and the exception that has ended it, if one has:
`worklist.incoming` becomes `new_incoming` only where none has. -/
structure Batch (τ : Type) where
  new_incoming : List (Object τ)
  rejected : List (Object τ)
  failed : List (Object τ)
  raised : Option Fault

def Batch.add (b : Batch τ) (m : Object τ) : Fate → Batch τ
  | .accepted => { b with new_incoming := b.new_incoming ++ [m] }
  | .rejected => { b with rejected := b.rejected ++ [m] }
  | .failed => { b with failed := b.failed ++ [m] }

def acceptLoop (now : ℚ) : List (Object τ) → σ → Batch τ → σ × Batch τ
  | [], s, b => (s, b)
  | m :: incoming, s, b =>
    match handle w o d now s m with
    | (s, .error fault) => (s, { b with raised := some fault })
    | (s, .ok (m, fate)) => acceptLoop now incoming s (b.add m fate)

structure Worklist (τ : Type) where
  incoming : List (Object τ)
  rejected : List (Object τ)
  failed : List (Object τ)

def after_accept (now : ℚ) (worklist : Worklist τ) (s : σ) : σ × Batch τ :=
  acceptLoop w o d now worklist.incoming s ⟨[], worklist.rejected, worklist.failed, none⟩

/-- What the plugin is called for, and when. -/
inductive Event (τ : Type) where
  | after_accept (now : ℚ) (worklist : Worklist τ)
  | on_housekeeping (now : ℚ)

def Event.now : Event τ → ℚ
  | .after_accept now _ => now
  | .on_housekeeping now => now

/-- What becomes of the batches of a run. -/
def run : σ → List (Event τ) → List (Batch τ)
  | _, [] => []
  | s, .after_accept now worklist :: events =>
    (after_accept w o d now worklist s).2 :: run (after_accept w o d now worklist s).1 events
  | s, .on_housekeeping now :: events => run (d.on_housekeeping now s) events

/-- The driver after a run. -/
def final : σ → List (Event τ) → σ
  | s, [] => s
  | s, .after_accept now worklist :: events => final (after_accept w o d now worklist s).1 events
  | s, .on_housekeeping now :: events => final (d.on_housekeeping now s) events

end Loop

section Disk
variable {τ : Type} (w : World τ) (o : Options)

/-- A value that can be looked up. -/
inductive Key where
  | text (s : Str)
  | number (q : ℚ)
  deriving DecidableEq, Repr

/-- A list or a dictionary cannot be looked up; a derived key is never `None`. -/
def hash : Value → Except Fault Key
  | .str s => .ok (.text s)
  | .int i => .ok (.number i)
  | .float q => .ok (.number q)
  | .bool b => .ok (.number (if b then 1 else 0))
  | _ => .error .typeError

def World.key : Key → Str
  | .text s => s
  | .number q => w.number q

/-- The cache and the content of its file. -/
structure Disk where
  cache_dict : Table Key (Table Str ℚ)
  cache_file : Str

/-- A line of the file. -/
def line (key : Key) (t : ℚ) (qpath : Str) : Str :=
  w.key key ++ ' ' :: (Decimal.fixed 6 t ++ ' ' :: (qpath ++ ['\n']))

namespace Disk

def empty : Disk := ⟨Table.empty, []⟩

/-- `_not_in_cache`. -/
def not_in_cache (now : ℚ) (key : Key) (relpath : Str) (d : Disk) : Disk × Bool :=
  let file := d.cache_file ++ line w key now (Percent.quote relpath)
  match d.cache_dict.get key with
  | none => (⟨d.cache_dict.set key (Table.empty.set relpath now), file⟩, true)
  | some kdict =>
    let present := (kdict.get relpath).elim false fun t => decide (now ≤ t + o.nodupe_ttl)
    (⟨d.cache_dict.set key (kdict.set relpath now), file⟩, !present)

def check_message (now : ℚ) (d : Disk) (msg : Message) : Except Fault (Disk × Message × Bool) := do
  let (key, path, msg) ← identify w msg
  let path ← path.asStr
  let key ← hash key
  let (d, new) := not_in_cache w o now key path d
  return (d, msg, new)

/-- `value.split('*')[0]`. -/
def cut (value : Str) : Str := value.takeWhile (· != '*')

/-- The entries of one key that `clean` keeps. -/
def unexpired (now : ℚ) (delpath : Option Str) (kdict : Table Str ℚ) : Table Str ℚ :=
  kdict.keep fun value t =>
    if o.nodupe_ttl < now - t then none
    else if delpath.map Percent.quote = some (Percent.quote (cut value)) then none
    else some t

/-- What `clean` writes. -/
def persisted (now : ℚ) (delpath : Option Str) (d : Disk) : Str :=
  d.cache_dict.entries.flatMap fun (key, kdict) =>
    (unexpired o now delpath kdict).entries.flatMap fun (value, t) =>
      line w key t (Percent.quote (cut value))

def clean (now : ℚ) (persist : Bool) (delpath : Option Str) (d : Disk) : Disk where
  cache_dict := d.cache_dict.keep fun _ kdict =>
    let ndict := unexpired o now delpath kdict
    if ndict.entries.isEmpty then none else some ndict
  cache_file := d.cache_file ++ if persist then persisted w o now delpath d else []

def save (now : ℚ) (d : Disk) : Disk := clean w o now true none { d with cache_file := [] }

def on_housekeeping (now : ℚ) (d : Disk) : Disk := save w o now d

/-- What a line says, unless it is corrupted or expired. -/
def readLine (now : ℚ) (line : Str) : Option (Str × ℚ × Str) :=
  match words line with
  | key :: time :: qpath :: _ =>
    match w.float time with
    | none => none
    | some ctime =>
      if o.nodupe_ttl < now - ctime then none
      else some (key, ctime, Percent.unquote w.replacing qpath)
  | _ => none

def loadLine (now : ℚ) (cache : Table Key (Table Str ℚ)) (line : Str) : Table Key (Table Str ℚ) :=
  match readLine w o now line with
  | none => cache
  | some (key, ctime, path) =>
    let kdict := (cache.get (.text key)).getD Table.empty
    cache.set (.text key) (kdict.set path ctime)

/-- The file is created where it is missing. -/
def load (now : ℚ) (d : Disk) : Disk :=
  { d with cache_dict := (lines d.cache_file).foldl (loadLine w o now) Table.empty }

/-- `close` forgets the cache, not the file. -/
def on_stop (now : ℚ) (d : Disk) : Disk := { save w o now d with cache_dict := Table.empty }

def on_start (now : ℚ) (d : Disk) : Disk := load w o now d

def driver : Driver Disk := ⟨check_message w o, on_housekeeping w o⟩

end Disk
end Disk
end Sarracenia.Source.NoDupe

/-!
## Duplicate suppression in Redis (`sarracenia/flowcb/nodupe/redis.py`)

The cache is keys of a server, each readable until it expires. A check is two commands, a
`GET` and a `SET`; the instances of a flow share the keys, and their commands interleave.
What is stored under a key is never looked at, and the count of the entries goes to the log.
-/
namespace Sarracenia.Source.NoDupe
open Library Library.Text Library.Dynamic

/-- The keyed hash of the standard library: hexadecimal digits. -/
structure Blake2b where
  hexdigest : List UInt8 → List UInt8 → Str
  hex : ∀ key text, '.' ∉ hexdigest key text

/-- The keys of the server, and until when each can be read. -/
structure Redis where
  keys : Table Str ℚ

namespace Redis
variable {τ : Type} (w : World τ) (o : Options) (h : Blake2b) (keybase : Str)

def empty : Redis := ⟨Table.empty⟩

def get (now : ℚ) (key : Str) (r : Redis) : Bool :=
  (r.keys.get key).elim false fun until_ => decide (now ≤ until_)

/-- The server refuses an expiry that is not positive. -/
def set (now : ℚ) (key : Str) (ex : Int) (r : Redis) : Except Fault Redis :=
  if ex ≤ 0 then .error .osError else .ok ⟨r.keys.set key (now + ex)⟩

/-- `int(self.o.nodupe_ttl)`. -/
def ex : Int := if 0 ≤ o.nodupe_ttl then o.nodupe_ttl.floor else o.nodupe_ttl.ceil

/-- `_hash`: a key of the hash has 64 bytes at most. -/
def hash (text : Value) : Except Fault Str := do
  if 64 < (Percent.utf8Bytes keybase).length then .error .valueError
  else return h.hexdigest (Percent.utf8Bytes keybase) (Percent.utf8Bytes (← text.asStr))

def redis_key (key_hashed path_hashed : Str) : Str :=
  keybase ++ ':' :: (key_hashed ++ '.' :: path_hashed)

/-- The key of the server for a message, and the message with its key and path noted. -/
def keyOf (msg : Message) : Except Fault (Str × Message) := do
  let (key, path, msg) ← identify w msg
  let key_hashed ← hash h keybase key
  let _ ← path.asStr
  let path_hashed ← hash h keybase path
  return (redis_key keybase key_hashed path_hashed, msg)

/-- `_is_new`, with nothing between its two commands. -/
def is_new (now : ℚ) (r : Redis) (msg : Message) : Except Fault (Redis × Message × Bool) := do
  let (key, msg) ← keyOf w h keybase msg
  let got := r.get now key
  let r ← r.set now key (ex o)
  return (r, msg, !got)

def driver : Driver Redis := ⟨is_new w o h keybase, fun _ r => r⟩

end Redis

/-! ## Instances that share the cache -/

namespace Shared
variable {ι : Type} [DecidableEq ι] (o : Options)

/-- What an instance has asked for, and whether it was there. -/
structure Asked where
  key : Str
  got : Bool

structure System (ι : Type) where
  clock : ℚ
  redis : Redis
  asked : ι → Option Asked

def System.tell (s : System ι) (i : ι) (asked : Option Asked) : System ι :=
  { s with asked := Function.update s.asked i asked }

/-- One command of one instance; with its `SET` an instance is told whether the key is new. -/
inductive Command (ι : Type) where
  | wait
  | get (i : ι) (key : Str)
  | set (i : ι) (key : Str) (new : Bool)
  | refused (i : ι)

inductive Step : System ι → Command ι → System ι → Prop where
  | wait {s : System ι} {clock : ℚ} (later : s.clock ≤ clock) :
      Step s .wait { s with clock := clock }
  | get {s : System ι} {i : ι} {key : Str} (idle : s.asked i = none) :
      Step s (.get i key) (s.tell i (some ⟨key, s.redis.get s.clock key⟩))
  | set {s : System ι} {i : ι} {a : Asked} {redis : Redis} (asked : s.asked i = some a)
      (done : s.redis.set s.clock a.key (Redis.ex o) = .ok redis) :
      Step s (.set i a.key (!a.got)) { s.tell i none with redis := redis }
  | refused {s : System ι} {i : ι} {a : Asked} {fault : Fault} (asked : s.asked i = some a)
      (raised : s.redis.set s.clock a.key (Redis.ex o) = .error fault) :
      Step s (.refused i) (s.tell i none)

/-- A run of commands, one after the other in any order of the instances, each of which
passes `P` in the state before it. -/
inductive Run (P : System ι → Command ι → Prop) : System ι → System ι → Prop where
  | here {s : System ι} : Run P s s
  | step {s s' s'' : System ι} {c : Command ι} (run : Run P s s') (passes : P s' c)
      (step : Step o s' c s'') : Run P s s''

/-- Nobody has asked for anything. -/
def System.Idle (s : System ι) : Prop := ∀ i, s.asked i = none

/-- The entry has not expired. -/
def System.Alive (s : System ι) (key : Str) : Prop := s.redis.get s.clock key = true

end Shared
end Sarracenia.Source.NoDupe
