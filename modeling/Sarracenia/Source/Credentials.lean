import Sarracenia.Library.Table
import Sarracenia.Library.Url

/-!
# Credentials (`sarracenia/config/credentials.py`)

The entries keep the order in which they were made. The environment and the file system answer
for the key files of options.
-/
namespace Sarracenia.Source.Credentials
open Library Library.Text Library.Dynamic Library.Urls

structure World extends Net where
  /-- `os.path.expandvars(os.path.expanduser(...))`. -/
  expand : Str → Str
  /-- `os.path.exists`. -/
  fileExists : Str → Bool

structure Credential where
  url : Url
  ssh_keyfile : Option Str := none
  passive : Bool := true
  binary : Bool := true
  tls : Bool := false
  prot_p : Bool := false
  bearer_token : Option Str := none
  login_method : Option Str := none
  s3_endpoint : Option Str := none
  s3_session_token : Option Str := none
  s3_anonymous : Bool := false
  azure_credentials : Option Str := none
  implicit_ftps : Bool := false
  sftp_compat_mode : Bool := false
  deriving DecidableEq

/-- `Credential()`, given its URL. -/
abbrev Credential.of (url : Url) : Credential := { url }

abbrev CredentialDB := Table Str Credential

section World
variable (w : World)

/-! ## URLs with what is quoted decoded -/

def _urlparse (urlstr : Str) : Except Fault Url := urlparse w.toNet urlstr

def username (url : Url) : Option Str := url.raw_username.map (Percent.unquote w.replacing)

def password (url : Url) : Option Str := url.raw_password.map (Percent.unquote w.replacing)

def amqp (url : Url) : Bool := occurs "amqp".toList url.scheme

/-- `not x or x == ''` for a text that may be `None`. -/
def blank (x : Option Str) : Bool := x = none || x = some []

/-! ## `__str__` -/

/-- What is shown of an attribute unless it is false. -/
def shown (name : String) (value : Option Str) : Str :=
  match value with
  | none => []
  | some value => if value = [] then [] else '+' :: name.toList ++ '=' :: value

def flag (b : Bool) : Option Str := if b then some "True".toList else none

def options (c : Credential) : Str :=
  let scheme := c.url.scheme
  let starts (word : String) : Bool := word.toList.isPrefixOf scheme
  let yes (name : String) (value : Option Str) : Str := if blank value then [] else ' ' :: name.toList ++ "=Yes".toList
  if starts "ftp" then
    shown "passive" (flag c.passive) ++ shown "binary" (flag c.binary) ++ shown "tls" (flag c.tls) ++
      shown "prot_p" (flag c.prot_p) ++ shown "login_method" c.login_method ++ shown "implicit_ftps" (flag c.implicit_ftps)
  else if starts "sftp" then shown "ssh_keyfile" c.ssh_keyfile ++ shown "sftp_compat_mode" (flag c.sftp_compat_mode)
  else if starts "amqp" || starts "mqtt" || starts "amq1" then shown "login_method" c.login_method
  else if starts "https" then
    yes "s3_session_token" c.s3_session_token ++ yes "azure_credentials" c.azure_credentials ++
      shown "prot_p" (flag c.prot_p) ++ shown "bearer_token" c.bearer_token ++ shown "login_method" c.login_method ++
      shown "s3_endpoint" c.s3_endpoint ++ shown "implicit_ftps" (flag c.implicit_ftps)
  else
    shown "ssh_keyfile" c.ssh_keyfile ++ shown "passive" (flag c.passive) ++ shown "binary" (flag c.binary) ++
      shown "tls" (flag c.tls) ++ shown "prot_p" (flag c.prot_p) ++ shown "bearer_token" c.bearer_token ++
      shown "login_method" c.login_method ++ shown "s3_endpoint" c.s3_endpoint ++ shown "implicit_ftps" (flag c.implicit_ftps)

/-- `str(credential)`. The password is left out, and what is quoted is shown decoded. -/
def str (c : Credential) : Except Fault Str := do
  let port ← c.url.port
  return c.url.scheme ++ "://".toList ++ (username w c.url).getD [] ++
    (match c.url.hostname w.toNet with
      | none => []
      | some hostname => '@' :: hostname) ++
    (match port.getD 0 with
      | 0 => []
      | port => ':' :: (toString port).toList) ++
    c.url.path ++ options c

/-! ## `isValid` -/

/-- The schemes that need neither a user nor a password. -/
def open_schemes : List Str := ["http", "https", "sftp", "s3", "azure", "azblob"].map String.toList

def isValid (url : Url) (details : Option Credential) : Bool :=
  if url.netloc = [] then url.scheme = "file".toList
  else
    let user := !blank (username w url)
    let pasw := !blank (password w url)
    if user && pasw then true
    else if !user && !pasw then open_schemes.contains url.scheme
    else if pasw then url.scheme = "sftp".toList
    else if url.scheme ≠ "sftp".toList then false
    else match details.bind Credential.ssh_keyfile with
      | none => true
      | some keyfile => keyfile = [] || w.fileExists keyfile

/-! ## `_parse` -/

/-- `parts[1].strip()`. -/
def argument (parts : List Str) : Except Fault Str :=
  match parts[1]? with
  | none => .error .indexError
  | some value => .ok (strip value)

/-- One option of a line. -/
def option (details : Credential) (optval : Str) : Except Fault Credential :=
  let parts := split "=".toList optval
  let keyword := strip (parts.headD [])
  let keywordIs (word : String) : Bool := keyword = word.toList
  if keywordIs "ssh_keyfile" then do return { details with ssh_keyfile := some (w.expand (← argument parts)) }
  else if keywordIs "passive" then .ok { details with passive := true }
  else if keywordIs "active" then .ok { details with passive := false }
  else if keywordIs "binary" then .ok { details with binary := true }
  else if keywordIs "ascii" then .ok { details with binary := false }
  else if keywordIs "ssl" then .ok { details with tls := false }
  else if keywordIs "tls" then .ok { details with tls := true }
  else if keywordIs "prot_p" then .ok { details with prot_p := true }
  else if keywordIs "bearer_token" || keywordIs "bt" then do return { details with bearer_token := some (← argument parts) }
  else if keywordIs "login_method" then do return { details with login_method := some (← argument parts) }
  else if keywordIs "s3_session_token" then do
    return { details with s3_session_token := some (Percent.unquote w.replacing (← argument parts)) }
  else if keywordIs "s3_endpoint" then do return { details with s3_endpoint := some (← argument parts) }
  else if keywordIs "s3_anonymous" then .ok { details with s3_anonymous := true }
  else if keywordIs "azure_storage_credentials" then do
    return { details with azure_credentials := some (Percent.unquote w.replacing (← argument parts)) }
  else if keywordIs "implicit_ftps" then .ok { details with implicit_ftps := true, tls := true }
  else if keywordIs "sftp_compat_mode" then .ok { details with sftp_compat_mode := true }
  else .ok details

def optionsOf : Credential → List Str → Except Fault Credential
  | details, [] => .ok details
  | details, optval :: optlist => do optionsOf (← option w details optval) optlist

/-- What the options of a line say; `parts` is what stands behind its URL. -/
def detailsOf (url : Url) (parts : List Str) (optline : Str) : Except Fault Credential :=
  if parts = [] then .ok (.of url) else optionsOf w (.of url) (split ",".toList optline)

/-- The URL of a line and its credential; a line that is empty, a comment or bad has none, nor has one
that raises. -/
def parsed (line : Str) : Except Fault (Option (Str × Credential)) :=
  let sline := strip line
  match words sline with
  | [] => .ok none
  | urlstr :: parts =>
    if sline.head? = some '#' then .ok none
    else do
      let url ← _urlparse w urlstr
      if url.fragment ≠ [] ∧ '@' ∈ url.fragment ∧ '@' ∉ url.netloc then .ok none
      else do
        let details ← detailsOf w url parts (strip (replaceAll urlstr [] sline))
        return if isValid w url (some details) then some (urlstr, details) else none

def _parse (db : CredentialDB) (line : Str) : CredentialDB :=
  match parsed w line with
  | .ok (some (urlstr, details)) => db.set urlstr details
  | _ => db

/-! ## Keys, and the credential for a URL -/

/-- The key `add` makes of a URL. -/
def addKey (urlstr : Str) (url : Url) : Str :=
  match url.raw_password with
  | none => urlstr
  | some raw => if raw = [] then urlstr else replaceAll (':' :: raw) [] urlstr

/-- The key `get` looks a new credential up with. -/
def getKey (urlstr : Str) (url : Url) : Str :=
  match password w url with
  | none => urlstr
  | some decoded => if decoded = [] then urlstr else replaceAll (':' :: decoded ++ "@".toList) "@".toList urlstr

/-- An AMQP path without its default. -/
def vhost (url : Url) : Str := if url.path = [] then "/".toList else url.path

/-- Whether a credential is for the URL. -/
def resolves (url u : Url) : Except Fault Bool :=
  if url.scheme ≠ u.scheme then .ok false
  else if url.hostname w.toNet ≠ u.hostname w.toNet then .ok false
  else do
    if (← url.port) ≠ (← u.port) then .ok false
    else if username w url ≠ username w u ∧ username w url ≠ none then .ok false
    else if password w url ≠ password w u ∧ password w url ≠ none then .ok false
    else .ok (!amqp url || vhost url = vhost u)

/-- `urlunparse` of the URL for an anonymous user, with the port in the place of the fragment: a port
that is a number is refused there. -/
def anonymous (url : Url) : Except Fault Str := do
  let port ← url.port
  if port.getD 0 ≠ 0 then .error .typeError
  else
    let path := if url.path ≠ [] ∧ url.path.head? ≠ some '/' then '/' :: url.path else url.path
    return url.scheme ++ "://".toList ++ "anonymous:anonymous@".toList ++ url.netloc ++ path

/-! ## `add`, `get` -/

section Objects
variable {ρ : Type} (cred : ρ → Credential) (make : Url → ρ)

/-- What is stored are objects, each with the contents of a credential; `make` makes a new one. -/
def addOf (db : Table Str ρ) (urlstr : Str) : Except Fault (Table Str ρ) := do
  let url ← _urlparse w urlstr
  return db.set (addKey urlstr url) (make url)

/-- The first of the credentials that is for the URL. -/
def firstForOf (url : Url) : List (Str × ρ) → Except Fault (Option ρ)
  | [] => .ok none
  | entry :: entries => do if ← resolves w url (cred entry.2).url then return some entry.2 else firstForOf url entries

/-- What `get` does once no default is to be made. -/
def resolvedOf (db : Table Str ρ) (urlstr : Str) (url : Url) : Table Str ρ × Except Fault (Bool × Option ρ) :=
  match firstForOf w cred url db.entries with
  | .error fault => (db, .error fault)
  | .ok (some details) => (db.set urlstr details, .ok (true, some details))
  | .ok none =>
    if isValid w url none then
      match addOf w make db urlstr with
      | .error fault => (db, .error fault)
      | .ok db => (db, ((db.get (getKey w urlstr url)).elim (.error .keyError) fun c => .ok (false, some c)))
    else (db, .ok (false, none))

/-- What `get` does for an AMQP URL without a user. -/
def anonymousOf (db : Table Str ρ) (url : Url) : Table Str ρ × Except Fault (Bool × Option ρ) :=
  match anonymous url with
  | .error fault => (db, .error fault)
  | .ok urlstr =>
    match _urlparse w urlstr with
    | .error fault => (db, .error fault)
    | .ok url =>
      if isValid w url none then
        match addOf w make db urlstr with
        | .error fault => (db, .error fault)
        | .ok db =>
          (db, ((db.get (replaceAll ":anonymous@".toList "@".toList urlstr)).elim (.error .keyError)
            fun c => .ok (false, some c)))
      else resolvedOf w cred make db urlstr url

def getOf (db : Table Str ρ) (urlstr : Str) : Table Str ρ × Except Fault (Bool × Option ρ) :=
  match db.get urlstr with
  | some c => (db, .ok (true, some c))
  | none =>
    match _urlparse w urlstr with
    | .error fault => (db, .error fault)
    | .ok url =>
      if amqp url && blank (username w url) then anonymousOf w cred make db url
      else resolvedOf w cred make db urlstr url

/-- `None` where the URL is not found and cannot stand for itself. -/
def validate_urlstrOf (db : Table Str ρ) (urlstr : Str) : Table Str ρ × Except Fault (Option ρ) :=
  match getOf w cred make db urlstr with
  | (db, .error fault) => (db, .error fault)
  | (db, .ok (_, some details)) => (db, .ok (some details))
  | (db, .ok (_, none)) => (db, (_urlparse w urlstr).map fun _ => none)

end Objects

/-! ## Credentials by their contents -/

abbrev add : CredentialDB → Str → Except Fault CredentialDB := addOf w .of

abbrev firstFor : Url → List (Str × Credential) → Except Fault (Option Credential) := firstForOf w fun c => c

abbrev resolved : CredentialDB → Str → Url → CredentialDB × Except Fault (Bool × Option Credential) :=
  resolvedOf w (fun c => c) .of

abbrev get : CredentialDB → Str → CredentialDB × Except Fault (Bool × Option Credential) := getOf w (fun c => c) .of

end World
end Sarracenia.Source.Credentials
