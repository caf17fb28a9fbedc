import Sarracenia.Library.Decimal
import Sarracenia.Source.Message

/-!
# Substitutions in options (`durationToSeconds` of `sarracenia/__init__.py`, `_varsub`
and `variableExpansion` of `sarracenia/config/__init__.py`)

The clock, the calendar of the host, the URL reader and the random number are those of
`World`; settings that only a `${name}` refers to are looked up through `setting` and
`env`. A `while` loop is granted a number of steps and `diverges` if they do not do.
-/
namespace Sarracenia.Source.Config
open Library Library.Text Library.Decimal Library.Dynamic

/-- What lies outside the program: `now` is `time.time()`, `fromtimestamp` gives the
formatter of `datetime.fromtimestamp(t)`, `strftimeAgo` that of the local time so many
seconds ago, `utc` the formatted `time.gmtime()`, `urlparse` a URL's scheme and path. -/
structure World where
  now : ℚ
  nowstr : Str
  fromtimestamp : ℚ → Except Fault (Str → Except Fault Str)
  strftimeAgo : ℚ → Str → Except Fault Str
  utc : Str
  urlparse : Str → Except Fault (Str × Str)
  random8 : Str
  isalpha : Char → Bool
  str : Value → Str
  general : ℚ → Str

/-- What a compiled pattern finds at one place: the whole, or its groups. -/
inductive Found where
  | whole (s : Str)
  | groups (ss : List Str)
  deriving DecidableEq, Repr

/-- A `strip` pattern, as `re.sub(pattern, '', s, 1)` and `re.sub(pattern, '', s)` apply it. -/
structure Pattern where
  subFirst : Str → Except Fault Str
  subAll : Str → Except Fault Str

/-- An entry of `masks`: `regexp` is `match` of the compiled pattern, with the whole at
group 0, `findall` that of `re.findall`, and `text` the entry as a report shows it. -/
structure Mask where
  pattern : Str
  maskDir : Option Str
  maskFileOption : Option Str
  regexp : Str → Option (List (Option Str))
  findall : Str → List Found
  accepting : Bool
  mirror : Bool
  strip : Nat
  pstrip : Option Pattern
  flatten : Str
  text : Str

structure Publisher where
  baseUrl : Option Str
  baseDir : Option Str
  deriving DecidableEq, Repr

structure Options where
  baseDir : Option Str
  post_baseDir : Option Str
  documentRoot : Option Str
  directory : Option Str
  varTimeOffset : ℚ
  sundew_compat_regex_first_match_is_zero : Bool
  queueShare : Option Str
  broker_user : Option (Option Str)
  post_broker_user : Option (Option Str)
  no : Option Nat
  setting : Str → Option (Except Fault Str)
  env : Str → Option Str
  fixed_headers : Dict Value
  publishers : List Publisher
  subscriptions : List (Option Str)
  masks : List (Option Mask)
  component : Str
  messageAgeMax : ℚ
  fileAgeMax : ℚ
  fileAgeMin : ℚ
  acceptUnmatched : Bool
  baseUrl_relPath : Bool
  download : Bool
  retry_refilter : Bool
  filename : Option Str
  mirror : Bool
  strip : Nat
  pstrip : Option Pattern
  flatten : Str
  destfn : List (Str × (Message → Except Fault (Option Str)))

section Duration

/-- `float(s)` for a decimal number, with a sign or without. -/
def float (s : Str) : Option ℚ :=
  match strip s with
  | '-' :: s => (readFloat s).map (- ·)
  | '+' :: s => readFloat s
  | s => readFloat s

/-- Seconds in the unit of the first of two numbers. -/
def unitSeconds (unit : Char) : ℚ :=
  match unit with
  | 'm' => 60
  | 'h' => 60 * 60
  | 'd' => 60 * 60 * 24
  | 'w' => 60 * 60 * 24 * 7
  | 'M' => 60 * 60 * 24 * (307 / 10)
  | 'y' => 60 * 60 * 24 * (36525 / 100)
  | _ => 1

/-- The unit that may precede the last one, by the last one and the letters there. -/
def firstUnit (unit : Char) (s : Str) : Option Char :=
  match unit with
  | 's' => some 'm'
  | 'm' => some 'h'
  | 'h' => some 'd'
  | 'd' => if 'y' ∈ s then some 'y' else if 'M' ∈ s then some 'M' else some 'w'
  | 'w' => if 'y' ∈ s then some 'y' else if 'M' ∈ s then some 'M' else none
  | 'M' => if 'y' ∈ s then some 'y' else none
  | _ => none

def lower (s : Str) : Str := s.map Char.toLower

def isnumeric (s : Str) : Bool := !s.isEmpty && s.all fun c => (digitValue c).isSome

def durationToSeconds (w : World) (str_value : Str) (default : Option Str) : Except Fault ℚ :=
  let duration (big : ℚ) (s : Str) (factor : ℚ) : ℚ := (float s).elim 0 fun q => big + q * factor
  if lower str_value ∈ ["none".toList, "off".toList, "false".toList] then .ok 0
  else if (default.getD []) ≠ [] ∧ lower str_value ∈ ["on".toList, "true".toList] then
    (float (default.getD [])).elim (.error .valueError) .ok
  else match str_value.getLast? with
    | none => .error .indexError
    | some unit =>
      let factor := unitSeconds unit
      let number := if w.isalpha unit then str_value.dropLast else str_value
      match (firstUnit unit str_value).filter (· ∈ number) with
      | none => .ok (duration 0 number factor)
      | some first =>
        match split [first] number with
        | [big, little] =>
          -- a text that is no number cannot be added to one, which is caught
          if isnumeric big then
            (readInt big).elim (.error .valueError) fun n =>
              .ok (duration (n * unitSeconds first) little factor)
          else .ok 0
        | _ => .error .valueError

end Duration

section Urls
variable (w : World)

def oneSlash : Str → Str
  | '/' :: s =>
    match s with
    | '/' :: _ => oneSlash s
    | _ => '/' :: s
  | s => s

/-- The path of the URL; the classes `sftp` and `file` start it with one slash. -/
def baseUrlParse (url : Str) : Except Fault Str := do
  let (scheme, path) ← w.urlparse url
  return if scheme = "sftp".toList ∨ scheme = "file".toList then oneSlash path else path

def basename (path : Str) : Str := lastPiece ['/'] path

end Urls

section Varsub
variable (w : World) (o : Options)

def brace (name : String) : Str := '$' :: '{' :: name.toList ++ ['}']

def substituteUser (name : String) (user : Option (Option Str)) (word result : Str) :
    Except Fault Str :=
  match occurs (brace name) word, user with
  | true, some (some username) => .ok (replaceAll (brace name) username result)
  | true, some none => .error .typeError
  | _, _ => .ok result

/-- `_varsub`, with what it gives for `queueShare`. -/
def varsubWith (share : Except Fault Str) (word : Str) : Except Fault Str := do
  if '$' ∉ word then return word
  let result ← if occurs (brace "QUEUESHARE") word then
      share.map fun share => replaceAll (brace "QUEUESHARE") share word else .ok word
  let result ← substituteUser "BROKER_USER" o.broker_user word result
  let result ← substituteUser "POST_BROKER_USER" o.post_broker_user word result
  let result := if occurs (brace "RAND8") word then replaceAll (brace "RAND8") w.random8 result
    else result
  let result := if occurs (brace "INSTANCE") word then
      replaceAll (brace "INSTANCE") ((Nat.toDigits 10 (o.no.getD 0)).leftpad 2 '0') result
    else result
  if '$' ∉ result then return result
  let names := (split ['}'] result).filterMap fun part => (split ['{'] part)[1]?
  names.foldlM (fun result name => do
    let option := if name = "PROGRAM".toList then "component".toList else lower name
    match o.setting option, o.env name with
    | some value, _ => return replaceAll ('$' :: '{' :: name ++ ['}']) (← value) result
    | none, some value => return replaceAll ('$' :: '{' :: name ++ ['}']) value result
    | none, none => return result) result

/-- A `queueShare` that names itself is expanded without end. -/
def _varsub (word : Str) : Except Fault Str :=
  varsubWith w o
    (match o.queueShare with
      | none => .error .typeError
      | some queueShare => varsubWith w o (.error .diverges) queueShare)
    word

end Varsub

section Expansion
variable (w : World) (o : Options) (steps : Nat)

/-- `while pattern in s: s = s.replace(pattern, value, 1)`, or with every occurrence
replaced; the value is looked up in the loop. -/
def substitute (once : Bool) (pattern : Str) (value : Except Fault Str) :
    Nat → Str → Except Fault Str
  | 0, s => if occurs pattern s then .error .diverges else .ok s
  | steps + 1, s =>
    if occurs pattern s then do
      let v ← value
      substitute once pattern value steps
        (if once then replaceFirst pattern v s else replaceAll pattern v s)
    else .ok s

def substituteOption (name : String) (value : Option Str) (s : Str) : Except Fault Str :=
  match value with
  | none => .ok s
  | some v => substitute true (brace name) (.ok v) steps s

def substituteUrl (name : String) (part : Str → Str) (message : Message) (s : Str) :
    Except Fault Str :=
  match message.get "baseUrl" with
  | none => .ok s
  | some baseUrl =>
    substitute true (brace name) (do return part (← baseUrlParse w (← baseUrl.asStr))) steps s

/-- The number of seconds and what is formatted, in `${%...}` from its `%` on. -/
def stampFragment (fragment : Str) : Except Fault (ℚ × Nat) :=
  match fragment with
  | [] => .error .indexError
  | first :: rest =>
    if first = '+' ∨ first = '-' ∨ first = 'o' then do
      let end_of_offset := find ['%'] fragment
      let start ← if first = 'o' then
          match rest with
          | [] => .error .indexError
          | second :: _ => .ok (if second = '-' ∨ second = '+' then 2 else 1)
        else .ok 1
      let stop := end_of_offset.getD (fragment.length - 1)
      let seconds ← durationToSeconds w (slice fragment start stop) none
      return (if '-' ∈ fragment.take 2 then -seconds else seconds,
        end_of_offset.elim 0 (· + 1))
    else .ok (o.varTimeOffset, 0)

/-- What follows one `${%`. -/
def expandFragment (fragment : Str) : Except Fault Str := do
  let (seconds, frag_start) ← stampFragment w o fragment
  let whenStamp ← w.fromtimestamp (w.now + seconds)
  match find ['}'] fragment with
  | none | some 0 => return fragment
  | some close_brace =>
    return (← whenStamp ('%' :: slice fragment frag_start close_brace)) ++
      fragment.drop (close_brace + 1)

def expandStamps (s : Str) : Except Fault Str := do
  match split ['$', '{', '%'] s with
  | [] => return s
  | head :: fragments => return head ++ (← fragments.mapM (expandFragment w o)).flatten

def isDigit (c : Char) : Bool := (digitValue c).isSome

/-- `${name-NU}` at the head of the text, a number and a unit: these, and the rest. -/
def offsetAt (name : String) (s : Str) : Option (Str × Str) :=
  let opening := '$' :: '{' :: name.toList ++ ['-']
  if opening.isPrefixOf s then
    let rest := s.drop opening.length
    match (rest.takeWhile isDigit).isEmpty, rest.dropWhile isDigit with
    | false, unit :: '}' :: after => some (rest.takeWhile isDigit ++ [unit], after)
    | _, _ => none
  else none

def searchOffset (name : String) : Str → Option Str
  | [] => none
  | c :: s =>
    match offsetAt name (c :: s) with
    | some (offset, _) => some offset
    | none => searchOffset name s

/-- `re.sub` of the pattern; `skip` characters of an occurrence are still to be passed over. -/
def subOffset (name : String) (text : Str) (skip : Nat) : Str → Str
  | [] => []
  | c :: s =>
    if 0 < skip then subOffset name text (skip - 1) s
    else match offsetAt name (c :: s) with
      | some (_, after) => text ++ subOffset name text (s.length - after.length) s
      | none => c :: subOffset name text 0 s

/-- The first offset of the option as it was given decides for all in the text. -/
def expandOffset (name : String) (format : String) (cdir s : Str) : Except Fault Str :=
  match searchOffset name cdir with
  | none => .ok s
  | some offset => do
    let seconds ← durationToSeconds w offset (some ['s'])
    return subOffset name (← w.strftimeAgo seconds format.toList) 0 s

/-- The number in `${N}`; a line feed may stand after it. -/
def fieldNumber (s : Str) : Option Nat :=
  let digits := if s.getLast? = some '\n' then s.dropLast else s
  if !digits.isEmpty && digits.all fun c => '0' ≤ c && c ≤ '9' then
    some (value (digits.filterMap digitValue))
  else none

/-- One piece of the text between two `${`. -/
def expandField (found : Value) (fragment : Str) : Except Fault Str :=
  match find ['}'] fragment with
  | none => .ok fragment
  | some close_brace =>
    match fieldNumber (fragment.take close_brace) with
    | none => .ok ('$' :: '{' :: fragment)
    | some number =>
      match found with
      | .matched groups =>
        let field := if o.sundew_compat_regex_first_match_is_zero then number + 1 else number
        if field ≤ groups.length - 1 then
          match groups[field]? with
          | some (some group) => .ok (group ++ fragment.drop (close_brace + 1))
          | _ => .error .typeError
        else .ok ('$' :: '{' :: fragment)
      | _ => .error .attributeError

def expandFields (message : Message) (s : Str) : Except Fault Str :=
  match message.get "_matches", split ['$', '{'] s with
  | some found, first :: second :: rest => do
    return (← (first :: second :: rest).mapM (expandField o found)).flatten
  | _, _ => .ok s

def variableExpansion (cdir : Str) (message : Message) : Except Fault Str := do
  if '$' ∉ cdir then return cdir
  let s ← substituteOption steps "BD" o.baseDir cdir
  let s ← substituteUrl w steps "BUP" id message s
  let s ← substituteUrl w steps "baseUrlPath" id message s
  let s ← substituteUrl w steps "BUPL" basename message s
  let s ← substituteUrl w steps "baseUrlPathLast" basename message s
  let s ← substituteOption steps "PBD" o.post_baseDir s
  let s ← substituteOption steps "DR" o.documentRoot s
  let s ← substituteOption steps "PDR" o.post_baseDir s
  let whenStamp ← w.fromtimestamp (w.now + o.varTimeOffset)
  let s ← substitute false (brace "YYYYMMDD") (whenStamp "%Y%m%d".toList) steps s
  let s ← substitute false (brace "SOURCE") (message.item "source" >>= Value.asStr) steps s
  let s ← substitute false (brace "DD") (whenStamp "%d".toList) steps s
  let s ← substitute false (brace "HH") (whenStamp "%H".toList) steps s
  let s ← substitute false (brace "YYYY") (whenStamp "%Y".toList) steps s
  let s ← substitute false (brace "MM") (whenStamp "%m".toList) steps s
  let s ← substitute false (brace "JJJ") (whenStamp "%j".toList) steps s
  let s ← expandStamps w o s
  let s ← expandOffset w "YYYY" "%Y" cdir s
  let s ← expandOffset w "MM" "%m" cdir s
  let s ← expandOffset w "JJJ" "%j" cdir s
  let s ← expandOffset w "YYYYMMDD" "%Y%m%d" cdir s
  let s ← _varsub w o s
  expandFields o message s

/-- A text without `$` is its own expansion. -/
theorem variableExpansion_plain {cdir : Str} (plain : '$' ∉ cdir) (message : Message) :
    variableExpansion w o steps cdir message = .ok cdir := by
  simp [variableExpansion, plain, pure, Except.pure]

end Expansion

end Sarracenia.Source.Config
