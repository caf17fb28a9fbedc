import Sarracenia.Source.Message

/-!
# Reading a notice (`sarracenia/postformat`)

The four formats in the order in which they are asked, and what each makes of a body and
its headers. The standard library's reading of a JSON text and of a URL, and its writing
of a value, come from outside. Entries under keys that are not texts are left out, for
nothing reads them; the numbers that key a manifest are written as texts.
-/
namespace Sarracenia.Source.PostFormat
open Library Library.Text Library.Dynamic Source.TimeNotation

structure Url where
  scheme : Str
  netloc : Str
  path : Str
  deriving DecidableEq, Repr

/-- `json.loads`, `urlparse`, `str` and `isalnum`. -/
structure Standard where
  loads : Str → Option Value
  urlparse : Str → Except Fault Url
  str : Value → Str
  letters : Char → Bool

abbrev Headers := Option (Dict Value)

section Values

/-- `v[0]`. -/
def first : Value → Except Fault Value
  | .list vs => vs.head?.elim (.error .indexError) .ok
  | .str s => s.head?.elim (.error .indexError) fun c => .ok (.str [c])
  | .dict _ => .error .keyError
  | .matched _ => .error .indexError
  | _ => .error .typeError

/-- `v[-1] == '/'`. -/
def endsInSlash : Value → Except Fault Bool
  | .list vs => vs.getLast?.elim (.error .indexError) fun v => .ok (v.equals ['/'])
  | .str s => s.getLast?.elim (.error .indexError) fun c => .ok (c = '/')
  | .dict _ => .error .keyError
  | .matched _ => .error .indexError
  | _ => .error .typeError

/-- `v += s`. A list takes the characters one by one. -/
def extend (s : Str) : Value → Except Fault Value
  | .str t => .ok (.str (t ++ s))
  | .list vs => .ok (.list (vs ++ s.map fun c => .str [c]))
  | _ => .error .typeError

/-- A method of texts is called. -/
def text : Value → Except Fault Str
  | .str s => .ok s
  | _ => .error .attributeError

/-- `for h in d: msg[h] = d[h]`. The members of a list are taken for indices. -/
def copyInto (skip : List String) (d : Value) (msg : Message) : Except Fault Message :=
  match d with
  | .dict entries =>
    .ok ((entries.filter fun entry => entry.1 ∉ skip).foldl (fun msg h => msg.set h.1 h.2) msg)
  | .list vs => do
    let _ ← vs.mapM (index vs)
    return msg
  | .str s => if s.isEmpty then .ok msg else .error .typeError
  | _ => .error .typeError

/-- The key is given another name. -/
def renamed (old new : String) (msg : Message) : Message :=
  match msg.get old with
  | none => msg
  | some v => Dict.del (msg.set new v) old

def headersHave (headers : Headers) (key : String) : Except Fault Bool :=
  headers.elim (.error .typeError) fun headers => .ok (headers.get key).isSome

end Values

section Wis
variable (lib : Standard)

def Wis.mine (payload : Str) : Except Fault Bool :=
  match lib.loads payload with
  | none => .ok false
  | some json => do
    let v04 ← if ← json.has "version" then
      (json.item "version").map (Value.equals "v04".toList) else .ok false
    if v04 then return true
    else if ← json.has "conformsTo" then
      (← first (← json.item "conformsTo")).has "wis.wmo.int"
    else return false

/-- `t[0:4]+t[5:7]+t[8:13]+t[14:16]+t[17:-1]`. -/
def Wis.pubTime : Value → Except Fault Value
  | .str t => .ok (.str (slice t 0 4 ++ slice t 5 7 ++ slice t 8 13 ++ slice t 14 16 ++
      t.dropLast.drop 17))
  | .list t => .ok (.list (t.take 4 ++ (t.drop 5).take 2 ++ (t.drop 8).take 5 ++
      (t.drop 14).take 2 ++ t.dropLast.drop 17))
  | _ => .error .typeError

/-- The first link, once the topic stands for the path. -/
def Wis.link (links : Value) (msg : Message) : Except Fault Message := do
  let link ← first links
  let urlstr ← (← link.item "href").asStr
  let url ← lib.urlparse urlstr
  let msg := msg.set "size" (← link.item "length")
  let msg ← if ← link.has "type" then
    (link.item "type").map (Dict.set msg "contentType") else .ok msg
  let msg ← Message.deleteOnPost (Dict.set msg "links" links) ["links"]
  let baseUrl := url.scheme ++ "://".toList ++ url.netloc
  let msg := Dict.set msg "baseUrl" (.str baseUrl)
  let msg := Dict.set msg "retrievePath" (.str (urlstr.drop baseUrl.length))
  let name := lastPiece ['/'] url.path
  if name = [] then return msg
  let relPath ← Dict.item msg "relPath"
  let relPath ← if ← endsInSlash relPath then .ok relPath else extend ['/'] relPath
  return Dict.set msg "relPath" (← extend name relPath)

def Wis.importMine (body : Str) (headers : Headers) : Except Fault (Option Message) :=
  match lib.loads body with
  | none => .ok none
  | some json => do
    let msg ← if ← json.has "properties" then do
        let properties ← json.item "properties"
        let msg ← if ← properties.has "pubtime" then do
            .ok (Dict.set (Message.new "wis") "pubTime"
              (← Wis.pubTime (← properties.item "pubtime")))
          else .ok (Message.new "wis")
        copyInto ["pubtime"] properties msg
      else .ok (Message.new "wis")
    let msg ← if ← json.has "geometry" then do
        match ← json.item "geometry" with
        | .none => .ok msg
        | geometry => .ok (Dict.set msg "geometry" geometry)
      else .ok msg
    match headers with
    | none => .error .typeError
    | some headers =>
      match headers.get "topic" with
      | none => return some msg
      | some topic => do
        let msg := Dict.set msg "relPath" topic
        if ← json.has "links" then return some (← Wis.link lib (← json.item "links") msg)
        else return some msg

end Wis

section Swim

def Swim.mine (headers : Headers) : Except Fault Bool :=
  match headers with
  | none => .ok false
  | some headers =>
    match headers.get "conformsTo" with
    | none => .ok false
    | some conformsTo => do
      return occurs "swim".toList ((← text conformsTo).map Char.toLower)

def Swim.header (i : Nat) (field : String) : String :=
  "links[" ++ Nat.repr i ++ "]." ++ field

/-- The links are looked at in turn, to the first that is the data or an amendment of it. -/
def Swim.links (headers : Dict Value) (msg : Message) : Nat → Nat → Except Fault Message
  | 0, _ => .error .diverges
  | steps + 1, i =>
    match headers.get (Swim.header i "rel") with
    | none => .ok msg
    | some rel => do
      let rel := (← text rel).map Char.toLower
      let typ ← headers.item (Swim.header i "type")
      let href ← headers.item (Swim.header i "href")
      if rel = "canonical".toList || rel = "update".toList then
        match split "://".toList (← text href) with
        | [scheme, rest] =>
          let stop := (find ['/'] rest).elim 0 (· + 1)
          let msg := msg.set "relPath" (.str (rest.drop stop))
          let msg := Dict.set msg "baseUrl" (.str (scheme ++ "://".toList ++ rest.take stop))
          return Dict.set msg "contentType" typ
        | _ => .error .valueError
      else Swim.links headers msg steps (i + 1)

/-- A text is never compressed: it stands for itself. -/
def Swim.importMine (lib : Standard) (body : Str) (headers : Dict Value) :
    Except Fault (Option Message) := do
  let msg ← Message.deleteOnPost (Dict.set (Message.new "swim") "local_offset" (.int 0))
    ["local_offset"]
  let msg ← match headers.get "properties.pubtime" with
    | none => .ok msg
    | some pubtime => do
      let pubTime := replaceAll [':'] [] (replaceAll ['-'] [] (← text pubtime))
      .ok (Dict.set msg "pubTime"
        (.str (replaceAll ['T'] [] (replaceAll ['Z'] ".00".toList pubTime))))
  let msg ← Swim.links headers msg (headers.length + 1) 0
  let msg := match headers.get "properties.integrity.method",
      headers.get "properties.integrity.value" with
    | some method, some value =>
      Dict.set msg "identity" (.dict [("method", method), ("value", value)])
    | _, _ => msg
  let msg := if body = [] then msg else
    let msg := (headers.get "amqp1_content_type").elim msg
      fun content_type => Dict.set msg "contentType" (.str (lib.str content_type))
    let msg := Dict.set msg "content"
      (.dict [("encoding", .str "utf-8".toList), ("value", .str body)])
    Dict.set msg "size" (.int body.length)
  if (Dict.get msg "baseUrl").isNone || (Dict.get msg "relPath").isNone then
    let msg := Dict.set msg "baseUrl" (.str "http://fake/".toList)
    return some (Dict.set msg "relPath" (← headers.item "amqp1_subject"))
  else return some msg

end Swim

section V03

def V03.mine (content_type : Option Str) : Bool := content_type = some "application/json".toList

/-- Early messages describe their blocks in one text. -/
def V03.parts (msg : Message) : Except Fault Message :=
  match msg.get "parts" with
  | some parts => do
    match split [','] (← text parts) with
    | [m, s, c, r, n] =>
      if m = ['1'] then return Dict.del (msg.set "size" (.int (← int s))) "parts"
      else
        let m := if m = ['i'] then "inplace".toList else if m = ['p'] then "partitioned".toList else m
        return Dict.del (msg.set "blocks" (.dict [("method", .str m), ("size", .int (← int s)),
          ("count", .int (← int c)), ("remainder", .int (← int r)), ("number", .int (← int n))]))
          "parts"
    | _ => .error .valueError
  | none =>
    match msg.get "size" with
    | some (.str size) => do return msg.set "size" (.int (← int size))
    | _ => .ok msg

def numberKey (i : Int) : String := toString i

/-- `new_manifest[int(b)] = manifest[b]`, for each `b`. -/
def V03.manifest : Value → Except Fault (Dict Value)
  | .dict entries =>
    entries.foldlM (fun new_manifest entry => do
      return Dict.set new_manifest (numberKey (← int entry.1.toList)) entry.2) []
  | .list vs =>
    vs.foldlM (fun new_manifest b => do
      let v ← index vs b
      match b with
      | .int i => return Dict.set new_manifest (numberKey i) v
      | .bool b => return Dict.set new_manifest (numberKey b.toNat) v
      | _ => .error .typeError) []
  | .str s => if s.isEmpty then .ok [] else .error .typeError
  | _ => .error .typeError

def V03.blocks (msg : Message) : Except Fault Message :=
  match msg.get "blocks" with
  | none => .ok msg
  | some blocks => do
    if ← blocks.has "manifest" then
      let new_manifest ← V03.manifest (← blocks.item "manifest")
      return msg.set "blocks" (← blocks.setItem "manifest" (.dict new_manifest))
    else return msg

def V03.importMine (lib : Standard) (body : Str) : Except Fault (Option Message) :=
  let copied : Except Fault Message :=
    match lib.loads body with
    | none => .error .valueError
    | some .none => .ok (Message.new "v03")
    | some json => copyInto [] json (Message.new "v03")
  match copied with
  | .error _ => .ok none
  | .ok msg => do
    let msg := renamed "integrity" "identity" (renamed "retPath" "retrievePath" msg)
    return some (← V03.blocks (← V03.parts msg))

end V03

section V02

def V02.mine (payload : Str) (headers : Headers) (content_type : Option Str) : Except Fault Bool :=
  if content_type = some "text/plain".toList then .ok true
  else if '{' ∉ payload.take 5 then .ok true
  else match headers with
    | none => .error .typeError
    | some headers =>
      match headers.get "topic" with
      | none => .ok false
      | some topic => (text topic).map ("v02.".toList.isPrefixOf ·)

/-- `timev2tov3str`. -/
def timev2tov3str : Value → Except Fault Value
  | .str s =>
    if s.length ≤ 8 then .error .indexError
    else .ok (.str (if s[8]? = some 'T' then s else s.take 8 ++ 'T' :: s.drop 8))
  | .list vs => vs[8]?.elim (.error .indexError) fun v =>
    if v.equals ['T'] then .ok (.list vs) else .error .typeError
  | .dict _ => .error .keyError
  | _ => .error .typeError

/-- A time that cannot be read is logged, under another name than its own. -/
def V02.time (field : String) (msg : Message) : Except Fault Message :=
  match msg.get field with
  | none => .ok msg
  | some t =>
    match timev2tov3str t with
    | .ok t => .ok (msg.set field t)
    | .error _ => (msg.get "t").elim (.error .keyError) fun _ => .ok msg

def V02.sum_algo_map : List (Str × String) :=
  [(['0'], "random"), (['a'], "arbitrary"), (['d'], "md5"), (['L'], "link"), (['m'], "mkdir"),
    (['n'], "md5name"), (['r'], "rmdir"), (['R'], "remove"), (['s'], "sha512"), (['z'], "cod")]

def V02.algorithm : Value → Except Fault String
  | .str key => (V02.sum_algo_map.lookup key).elim (.error .keyError) .ok
  | _ => .error .keyError

def hexDigit (c : Char) : Option Nat :=
  if '0' ≤ c ∧ c ≤ '9' then some (c.toNat - '0'.toNat)
  else if 'a' ≤ c ∧ c ≤ 'f' then some (c.toNat - 'a'.toNat + 10)
  else if 'A' ≤ c ∧ c ≤ 'F' then some (c.toNat - 'A'.toNat + 10)
  else none

/-- `decode(s, 'hex')`. -/
def unhex : Str → Option (List Nat)
  | [] => some []
  | [_] => none
  | high :: low :: s => do return (16 * (← hexDigit high) + (← hexDigit low)) :: (← unhex s)

def base64Digit (n : Nat) : Char :=
  if n < 26 then Char.ofNat ('A'.toNat + n)
  else if n < 52 then Char.ofNat ('a'.toNat + (n - 26))
  else if n < 62 then Char.ofNat ('0'.toNat + (n - 52))
  else if n = 62 then '+' else '/'

def base64 : List Nat → Str
  | [] => []
  | [a] => [base64Digit (a / 4), base64Digit (a % 4 * 16), '=', '=']
  | [a, b] => [base64Digit (a / 4), base64Digit (a % 4 * 16 + b / 16), base64Digit (b % 16 * 4), '=']
  | a :: b :: c :: rest =>
    base64Digit (a / 4) :: base64Digit (a % 4 * 16 + b / 16) :: base64Digit (b % 16 * 4 + c / 64) ::
      base64Digit (c % 64) :: base64 rest

/-- `encode(bytes, 'base64')` without the end of its last line: a line holds 57 bytes. -/
def base64Lines (bytes : List Nat) : Str :=
  join ['\n'] ((List.range ((bytes.length + 56) / 57)).map fun i =>
    base64 ((bytes.drop (57 * i)).take 57))

/-- The method of a `sum`, and its value. -/
def V02.sum (sum : Value) : Except Fault (String × Value) := do
  let sm ← V02.algorithm (← first sum)
  let rest : Value := match sum with
    | .list vs => .list (vs.drop 2)
    | .str s => .str (s.drop 2)
    | other => other
  if sm = "random" || sm = "arbitrary" then return (sm, rest)
  else if sm = "cod" then return (sm, .str (← V02.algorithm rest).toList)
  else
    let digits ← rest.asStr
    return (sm, .str (base64Lines (← (unhex digits).elim (.error .valueError) .ok)))

/-- A `sum` that cannot be read stays as it is. -/
def V02.event (msg : Message) : Message :=
  match msg.get "sum" with
  | none => msg
  | some sum =>
    match V02.sum sum with
    | .error _ => msg
    | .ok (sm, sv) =>
      let done (msg : Message) : Message := msg.del "sum"
      let identity : Value := .dict [("method", .str sm.toList), ("value", sv)]
      let fileOp (fields : Dict Value) (msg : Message) : Message := msg.set "fileOp" (.dict fields)
      match msg.get "oldname" with
      | some oldname =>
        let msg := Dict.del (fileOp [("rename", oldname)] msg) "oldname"
        if sm = "mkdir" then done (fileOp [("rename", oldname), ("mkdir", .str [])] msg)
        else if sm = "link" then
          match Dict.get msg "link" with
          | none => msg
          | some link => done (fileOp [("rename", oldname), ("link", link)] msg)
        else done (Dict.set msg "identity" identity)
      | none =>
        if sm = "remove" then done (fileOp [("remove", .str [])] msg)
        else if sm = "mkdir" then done (fileOp [("directory", .str [])] msg)
        else if sm = "rmdir" then done (fileOp [("remove", .str []), ("directory", .str [])] msg)
        else match msg.get "link" with
          | some link => done (Dict.del (fileOp [("link", link)] msg) "link")
          | none => if sm = "md5name" then done msg else done (msg.set "identity" identity)

/-- `parts` that cannot be read stay as they are; blocks are not supported. -/
def V02.parts (msg : Message) : Message :=
  match msg.get "parts" with
  | some (.str parts) =>
    match split [','] parts with
    | [style, chunksz, _, _, _] =>
      if style = ['i'] ∨ style = ['p'] then msg.del "parts"
      else match int chunksz with
        | .error _ => msg
        | .ok size => Dict.del (msg.set "size" (.int size)) "parts"
    | _ => msg
  | _ => msg

def V02.importMine (body : Str) (headers : Headers) : Except Fault (Option Message) :=
  let msg := (headers.getD []).foldl (fun msg h => Dict.set msg h.1 h.2) (Message.new "v02")
  match split [' '] body with
  | pubTime :: baseUrl :: relPath :: _ => do
    let msg := Dict.set msg "pubTime" (← timev2tov3str (.str pubTime))
    let msg := Dict.set msg "baseUrl"
      (.str (replaceAll "%23".toList ['#'] (replaceAll "%20".toList [' '] baseUrl)))
    let msg := Dict.set msg "relPath" (.str relPath)
    let msg := Dict.set msg "subtopic" (.list ((split ['/'] relPath).map .str))
    let msg := Dict.set msg "to_clusters" (.str "ALL".toList)
    let msg ← Message.deleteOnPost (renamed "integrity" "identity" msg) ["subtopic"]
    let msg ← V02.time "mtime" (← V02.time "atime" msg)
    return some (V02.parts (V02.event msg))
  | _ => .ok none

end V02

/-- The first format that claims the notice reads it. -/
def importAny (lib : Standard) (payload : Str) (headers : Headers) (content_type : Option Str) :
    Except Fault (Option Message) := do
  if ← Wis.mine lib payload then Wis.importMine lib payload headers
  else if ← Swim.mine headers then Swim.importMine lib payload (headers.getD [])
  else if V03.mine content_type then V03.importMine lib payload
  else if ← V02.mine payload headers content_type then V02.importMine payload headers
  else return none

end Sarracenia.Source.PostFormat
