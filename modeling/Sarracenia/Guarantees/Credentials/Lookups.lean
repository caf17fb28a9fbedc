import Mathlib.Data.List.Induction
import Sarracenia.Guarantees.Credentials.Keys

/-!
# Runs of lines and lookups

Each credential is stored under a URL for which it is the one that is asked for; a lookup only adds to
the end, so that what was found once is found again.
-/
namespace Sarracenia.Guarantees.Credentials
open Library Library.Text Library.Dynamic Library.Urls Source.Credentials

section Runs
variable (w : World)

/-- A line of a credentials file, or a call of `get`. -/
inductive Op where
  | parse (line : Str)
  | get (urlstr : Str)

def Op.isGet : Op → Bool
  | .parse _ => false
  | .get _ => true

def step (db : CredentialDB) : Op → CredentialDB
  | .parse line => _parse w db line
  | .get urlstr => (Source.Credentials.get w db urlstr).1

def run (db : CredentialDB) (ops : List Op) : CredentialDB := ops.foldl (step w) db

/-- No call raises; what it returns is what is asked for; and after any further calls it returns the
same again. -/
def Coherent (ops : List Op) : Prop :=
  ∀ before urlstr after, ops = before ++ .get urlstr :: after →
    ∃ cached found, (Source.Credentials.get w (run w Table.empty before) urlstr).2 = .ok (cached, found) ∧
      ∀ c, found = some c → (∀ url, _urlparse w urlstr = .ok url → Asked w url c) ∧
        ∀ gets rest, after = gets ++ .get urlstr :: rest → (∀ op ∈ gets, op.isGet = true) →
          ∃ cached, (Source.Credentials.get w (run w Table.empty (before ++ .get urlstr :: gets)) urlstr).2 = .ok (cached, some c)

/-! ## When it is -/

/-- The two keys of what is added are one, and no other credential has it. -/
structure Adds (db : CredentialDB) (built : Str) : Prop where
  one : ∀ url, _urlparse w built = .ok url → OneKey w built url
  new : ∀ url old, _urlparse w built = .ok url → db.get (addKey built url) = some old → old = .of url

/-- An anonymous user is supplied. -/
def Userless (url : Url) : Prop := (amqp url && blank (username w url)) = true

/-- No credential is for the URL. -/
def Unknown (db : CredentialDB) (url : Url) : Prop := ∀ entry ∈ db.entries, resolves w url entry.2.url ≠ .ok true

structure MeetsGet (db : CredentialDB) (urlstr : Str) : Prop where
  valid : Valid w urlstr
  named : ∀ url, db.get urlstr = none → _urlparse w urlstr = .ok url → ¬ Userless w url → Unknown w db url →
    isValid w url none = true → Adds w db urlstr
  userless : ∀ url, db.get urlstr = none → _urlparse w urlstr = .ok url → Userless w url →
    '@' ∉ url.netloc ∧ ∃ built, anonymous url = .ok built ∧ Valid w built ∧ Adds w db built

/-- The port of a line that is taken is a number; the password of a URL that is added is written as it is
decoded, and stands in the URL where it is the password only. -/
def Meets (db : CredentialDB) : Op → Prop
  | .parse line => ∀ urlstr details, parsed w line = .ok (some (urlstr, details)) → ∃ port, details.url.port = .ok port
  | .get urlstr => MeetsGet w db urlstr

def AllMeet (ops : List Op) : Prop :=
  ∀ before op after, ops = before ++ op :: after → Meets w (run w Table.empty before) op

/-! ## What is stored -/

/-- Each credential is what its key asks for. -/
def Sound (db : CredentialDB) : Prop :=
  ∀ key c, db.get key = some c → (∃ port, c.url.port = .ok port) ∧ ∀ url, _urlparse w key = .ok url → Asked w url c

variable {w} {db db' : CredentialDB} {urlstr : Str} {url : Url} {c : Credential}

theorem Sound.set (sound : Sound w db) {key : Str} (port : ∃ port, c.url.port = .ok port)
    (asked : ∀ url, _urlparse w key = .ok url → Asked w url c) : Sound w (db.set key c) := by
  intro other d there
  rw [Table.get_set] at there
  split at there
  · next same =>
    cases there
    exact same ▸ ⟨port, asked⟩
  · exact sound other d there

theorem Sound.empty : Sound w Table.empty := fun _ _ there => by cases there

/-- What succeeds has the URL of the credential. -/
def Keeps (c : Credential) (x : Except Fault Credential) : Prop := ∀ d, x = .ok d → d.url = c.url

theorem Keeps.ite {p : Prop} [Decidable p] {x y : Except Fault Credential} (one : Keeps c x) (two : Keeps c y) :
    Keeps c (if p then x else y) := by
  split
  · exact one
  · exact two

theorem Keeps.bind {x : Except Fault Str} {f : Str → Credential} (same : ∀ s, (f s).url = c.url) :
    Keeps c (do return f (← x)) := by
  intro d ok
  obtain ⟨s, -, ok⟩ := bind_ok_iff.mp ok
  cases ok
  exact same s

theorem option_url (c : Credential) (optval : Str) : Keeps c (option w c optval) := by
  unfold option
  repeat' refine Keeps.ite ?_ ?_
  all_goals first
    | exact Keeps.bind fun _ => rfl
    | exact fun d ok => by cases ok; rfl

theorem optionsOf_url {details details' : Credential} {optlist : List Str} (ok : optionsOf w details optlist = .ok details') :
    details'.url = details.url := by
  induction optlist generalizing details with
  | nil =>
    cases ok
    rfl
  | cons optval optlist ih =>
    obtain ⟨next, one, ok⟩ := bind_ok_iff.mp ok
    exact (ih ok).trans (option_url _ _ _ one)

/-- The credential of a line has the URL it is stored under. -/
theorem parsed_url {line : Str} (is : parsed w line = .ok (some (urlstr, c))) (parses : _urlparse w urlstr = .ok url) :
    url = c.url := by
  unfold parsed at is
  dsimp only at is
  split at is
  · cases is
  · next word parts _ =>
    split at is
    · cases is
    · obtain ⟨url', parses', is⟩ := bind_ok_iff.mp is
      split at is
      · cases is
      · obtain ⟨details, made, is⟩ := bind_ok_iff.mp is
        have kept : details.url = url' := by
          unfold detailsOf at made
          split at made
          · cases made
            rfl
          · exact optionsOf_url made
        have taken := Except.ok.inj is
        split at taken
        · cases taken
          exact (Except.ok.inj (parses.symm.trans parses')).trans kept.symm
        · cases taken

theorem asked_of_resolves {u : Url} (yes : resolves w url u = .ok true) : Asked w url (.of u) := by
  unfold resolves at yes
  split at yes
  · cases yes
  · next scheme =>
    split at yes
    · cases yes
    · next hostname =>
      obtain ⟨port, portIs, yes⟩ := bind_ok_iff.mp yes
      obtain ⟨port', portIs', yes⟩ := bind_ok_iff.mp yes
      split at yes
      · cases yes
      · next samePort =>
        split at yes
        · cases yes
        · next user =>
          split at yes
          · cases yes
          · next pass =>
            refine ⟨(not_not.mp scheme).symm, (not_not.mp hostname).symm, ?_, fun name given => ?_, fun word given => ?_⟩
            · rw [portIs, portIs', not_not.mp samePort]
            · by_contra other
              exact user ⟨fun same => other (same.symm.trans given), by rw [given]; exact Option.some_ne_none _⟩
            · by_contra other
              exact pass ⟨fun same => other (same.symm.trans given), by rw [given]; exact Option.some_ne_none _⟩

/-- What is for a URL is only seen in the URLs of the credentials. -/
theorem Asked.congr {d : Credential} (asked : Asked w url d) (same : d.url = c.url) : Asked w url c := by
  obtain ⟨one, two, three, four, five⟩ := asked
  rw [same] at one two three four five
  exact ⟨one, two, three, four, five⟩

theorem resolves_ok {u : Url} (one : ∃ port, url.port = .ok port) (two : ∃ port, u.port = .ok port) :
    ∃ answer, resolves w url u = .ok answer := by
  obtain ⟨port, portIs⟩ := one
  obtain ⟨port', portIs'⟩ := two
  unfold resolves
  rw [portIs, portIs']
  split
  · exact ⟨_, rfl⟩
  · split
    · exact ⟨_, rfl⟩
    · change ∃ answer, (if port ≠ port' then Except.ok false else _) = Except.ok answer
      split
      · exact ⟨_, rfl⟩
      · split
        · exact ⟨_, rfl⟩
        · split <;> exact ⟨_, rfl⟩

section Search
variable {ρ : Type} {cred : ρ → Credential} {entries more : List (Str × ρ)} {entry : Str × ρ} {o : ρ}

theorem firstForOf_cons : firstForOf w cred url (entry :: entries) =
    (resolves w url (cred entry.2).url).bind fun yes => if yes then .ok (some entry.2) else firstForOf w cred url entries := rfl

/-- The search ends at the first credential for the URL, or finds none. -/
theorem firstForOf_ok (port : ∃ port, url.port = .ok port)
    (ports : ∀ entry ∈ entries, ∃ port, (cred entry.2).url.port = .ok port) :
    (firstForOf w cred url entries = .ok none ∧ ∀ entry ∈ entries, resolves w url (cred entry.2).url ≠ .ok true) ∨
      ∃ entry ∈ entries, firstForOf w cred url entries = .ok (some entry.2) ∧ resolves w url (cred entry.2).url = .ok true := by
  induction entries with
  | nil => exact .inl ⟨rfl, fun _ member => nomatch member⟩
  | cons entry entries ih =>
    obtain ⟨here, later⟩ := List.forall_mem_cons.mp ports
    obtain ⟨answer, is⟩ := resolves_ok (w := w) port here
    rw [firstForOf_cons, is]
    cases answer with
    | true => exact .inr ⟨entry, List.mem_cons_self, rfl, is⟩
    | false =>
      rcases ih later with ⟨none_, all⟩ | ⟨other, member, found, yes⟩
      · refine .inl ⟨none_, List.forall_mem_cons.mpr ⟨?_, all⟩⟩
        rw [is]
        exact fun same => nomatch same
      · exact .inr ⟨other, List.mem_cons_of_mem _ member, found, yes⟩

theorem firstForOf_append (found : firstForOf w cred url entries = .ok (some o)) :
    firstForOf w cred url (entries ++ more) = .ok (some o) := by
  induction entries with
  | nil => cases found
  | cons entry entries ih =>
    rw [firstForOf_cons] at found
    rw [List.cons_append, firstForOf_cons]
    obtain ⟨answer, is, found⟩ := bind_ok_iff.mp found
    rw [is]
    cases answer with
    | true => exact found
    | false => exact ih found

theorem firstForOf_none (none_ : firstForOf w cred url entries = .ok none) :
    ∀ entry ∈ entries, resolves w url (cred entry.2).url = .ok false := by
  induction entries with
  | nil => exact fun _ member => nomatch member
  | cons entry entries ih =>
    rw [firstForOf_cons] at none_
    obtain ⟨answer, is, none_⟩ := bind_ok_iff.mp none_
    cases answer with
    | true => cases none_
    | false => exact List.forall_mem_cons.mpr ⟨is, ih none_⟩

/-- Behind credentials that are not for the URL the search goes on. -/
theorem firstForOf_behind (none_ : ∀ entry ∈ entries, resolves w url (cred entry.2).url = .ok false) :
    firstForOf w cred url (entries ++ more) = firstForOf w cred url more := by
  induction entries with
  | nil => rfl
  | cons entry entries ih =>
    obtain ⟨here, later⟩ := List.forall_mem_cons.mp none_
    rw [List.cons_append, firstForOf_cons, here]
    exact ih later

end Search

/-! ## What a call can do -/

/-- The URL that is added, and what it is read as. -/
structure Made (w : World) (db : CredentialDB) (urlstr built : Str) (url : Url) : Prop where
  clean : Clean built
  parses : _urlparse w built = .ok url
  adds : Adds w db built
  port : ∃ port, url.port = .ok port
  from_ : (built = urlstr ∧ ¬ Userless w url ∧ firstFor w url db.entries = .ok none ∧ isValid w url none = true) ∨
    ∃ given, _urlparse w urlstr = .ok given ∧ Userless w given ∧ '@' ∉ given.netloc ∧ anonymous given = .ok built

inductive Outcome (w : World) (db : CredentialDB) (urlstr : Str) : CredentialDB → Bool × Option Credential → Prop where
  | hit (c : Credential) (known : db.get urlstr = some c) : Outcome w db urlstr db (true, some c)
  | found (url : Url) (c : Credential) (new : db.get urlstr = none) (parses : _urlparse w urlstr = .ok url)
      (port : ∃ port, url.port = .ok port) (named : ¬ Userless w url) (first : firstFor w url db.entries = .ok (some c)) :
      Outcome w db urlstr (db.set urlstr c) (true, some c)
  | invalid (url : Url) (new : db.get urlstr = none) (parses : _urlparse w urlstr = .ok url) (named : ¬ Userless w url)
      (none_ : firstFor w url db.entries = .ok none) : Outcome w db urlstr db (false, none)
  | made (built : Str) (url : Url) (new : db.get urlstr = none) (made : Made w db urlstr built url) :
      Outcome w db urlstr (db.set (addKey built url) (.of url)) (false, some (.of url))

theorem Sound.ports (sound : Sound w db) : ∀ entry ∈ db.entries, ∃ port, entry.2.url.port = .ok port := fun entry member =>
  (sound entry.1 entry.2 (db.get_eq_some_iff.mpr member)).1

theorem Sound.search (sound : Sound w db) (port : ∃ port, url.port = .ok port) :
    (firstForOf w (fun c => c) url db.entries = .ok none ∧ Unknown w db url) ∨
      ∃ entry ∈ db.entries, firstForOf w (fun c => c) url db.entries = .ok (some entry.2) ∧ resolves w url entry.2.url = .ok true :=
  firstForOf_ok port sound.ports

/-- A credential is found under the key it was added with. -/
theorem add_found (db : CredentialDB) {built : Str} (parses : _urlparse w built = .ok url) (one : OneKey w built url) :
    addOf w .of db built = .ok (db.set (addKey built url) (.of url)) ∧
      (db.set (addKey built url) (.of url)).get (getKey w built url) = some (.of url) := by
  refine ⟨?_, ?_⟩
  · unfold addOf
    rw [parses]
    rfl
  · rw [← one.same, Table.get_set_self]

theorem resolved_outcome (sound : Sound w db) (meets : MeetsGet w db urlstr) (new : db.get urlstr = none)
    (parses : _urlparse w urlstr = .ok url) (named : ¬ Userless w url) :
    ∃ r, (resolved w db urlstr url).2 = .ok r ∧ Outcome w db urlstr (resolved w db urlstr url).1 r := by
  obtain ⟨url', parses', port⟩ := meets.valid.parses
  obtain rfl := Except.ok.inj (parses'.symm.trans parses)
  unfold resolved resolvedOf
  rcases sound.search port with ⟨none_, unknown⟩ | ⟨entry, -, first, -⟩
  · rw [none_]
    dsimp only
    by_cases valid : isValid w url' none = true
    · have adds := meets.named url' new parses named unknown valid
      obtain ⟨added, there⟩ := add_found db parses (adds.one url' parses)
      rw [if_pos valid, added]
      dsimp only
      rw [there]
      exact ⟨_, rfl, .made urlstr url' new
        ⟨meets.valid.clean, parses, adds, port, .inl ⟨rfl, named, none_, valid⟩⟩⟩
    · rw [if_neg valid]
      exact ⟨_, rfl, .invalid url' new parses named none_⟩
  · rw [first]
    exact ⟨_, rfl, .found url' entry.2 new parses port named first⟩

/-- The key of the default is the one it is looked up with. -/
theorem getKey_anonymous {built : Str} (decoded : password w url = some "anonymous".toList) :
    getKey w built url = replaceAll ":anonymous@".toList "@".toList built := by
  unfold getKey
  rw [decoded]
  exact if_neg (by decide)

theorem get_outcome (sound : Sound w db) (meets : MeetsGet w db urlstr) :
    ∃ r, (Source.Credentials.get w db urlstr).2 = .ok r ∧ Outcome w db urlstr (Source.Credentials.get w db urlstr).1 r := by
  unfold Source.Credentials.get getOf
  cases known : db.get urlstr with
  | some c => exact ⟨_, rfl, .hit c known⟩
  | none =>
    obtain ⟨url, parses, port⟩ := meets.valid.parses
    dsimp only
    rw [parses]
    dsimp only
    by_cases userless : (amqp url && blank (username w url)) = true
    · obtain ⟨plain, built, made, valid, adds⟩ := meets.userless url known parses userless
      obtain ⟨url', parses', port'⟩ := valid.parses
      have isAmqp : amqp url = true := (Bool.and_eq_true_iff.mp userless).1
      obtain ⟨-, -, valid', -, decoded⟩ := anonymous_parts parses isAmqp plain made valid.clean parses'
      obtain ⟨added, there⟩ := add_found db parses' (adds.one url' parses')
      rw [getKey_anonymous decoded] at there
      unfold anonymousOf
      rw [if_pos userless, made]
      dsimp only
      rw [parses']
      dsimp only
      rw [if_pos valid', added]
      dsimp only
      rw [there]
      exact ⟨_, rfl, .made built url' known ⟨valid.clean, parses', adds, port', .inr ⟨url, parses, userless, plain, made⟩⟩⟩
    · rw [if_neg userless]
      exact resolved_outcome sound meets known parses userless

/-! ## What was found is found again -/

/-- The next call of `get` with the URL returns the credential. -/
inductive Held (w : World) (db : CredentialDB) (urlstr : Str) (c : Credential) : Prop where
  | cached (known : db.get urlstr = some c)
  | supplied (url url' : Url) (built : Str) (new : db.get urlstr = none) (parses : _urlparse w urlstr = .ok url)
      (userless : Userless w url) (plain : '@' ∉ url.netloc) (made : anonymous url = .ok built)
      (parses' : _urlparse w built = .ok url') (same : c = .of url')
  | first (url : Url) (new : db.get urlstr = none) (parses : _urlparse w urlstr = .ok url) (named : ¬ Userless w url)
      (secret : url.raw_password ≠ none) (found : firstFor w url db.entries = .ok (some c))

theorem set_grows {key : Str} (here : ∀ old, db.get key = some old → old = c) :
    db.set key c = db ∨ db.get key = none ∧ (db.set key c).entries = db.entries ++ [(key, c)] := by
  cases known : db.get key with
  | none => exact .inr ⟨rfl, Table.setEntries_new known⟩
  | some old =>
    obtain rfl := here old known
    exact .inl (Table.set_same known)

/-- What a call leaves behind: the same, or one more credential at the end. -/
theorem Outcome.grows {r : Bool × Option Credential} (outcome : Outcome w db urlstr db' r) :
    db' = db ∨ ∃ key d, db.get key = none ∧ db' = db.set key d ∧ db'.entries = db.entries ++ [(key, d)] := by
  cases outcome with
  | hit => exact .inl rfl
  | found url c new => exact .inr ⟨urlstr, c, new, rfl, Table.setEntries_new new⟩
  | invalid => exact .inl rfl
  | made built url _ made =>
    have here : ∀ old, db.get (addKey built url) = some old → old = .of url := fun old => made.adds.new url old made.parses
    rcases set_grows here with same | ⟨new, more⟩
    · exact .inl same
    · exact .inr ⟨_, _, new, rfl, more⟩

/-- The key of a URL that is added is the URL itself, or has its password taken out. -/
theorem Made.key {built : Str} (made : Made w db urlstr built url) :
    addKey built url = built ∧ (∀ raw, url.raw_password = some raw → raw = []) ∨ Stripped w (addKey built url) url := by
  cases given : url.raw_password with
  | none => exact .inl ⟨by unfold addKey; rw [given], fun _ some_ => by cases some_⟩
  | some raw =>
    by_cases none_ : raw = []
    · refine .inl ⟨by unfold addKey; rw [given]; exact if_pos none_, fun raw' same => ?_⟩
      cases same
      exact none_
    · exact .inr (stripped made.clean made.parses (made.adds.one url made.parses) given none_)

theorem Outcome.sound {r : Bool × Option Credential} (sound : Sound w db) (outcome : Outcome w db urlstr db' r) : Sound w db' := by
  cases outcome with
  | hit => exact sound
  | found url d new parses port named first =>
    rcases sound.search port with ⟨none_, -⟩ | ⟨entry, member, found, yes⟩
    · cases first.symm.trans none_
    · cases first.symm.trans found
      refine sound.set (sound.ports entry member) fun url' parses' => ?_
      obtain rfl := Except.ok.inj (parses.symm.trans parses')
      exact (asked_of_resolves yes).congr rfl
  | invalid => exact sound
  | made built url new made =>
    refine sound.set made.port fun url' parses' => ?_
    rcases made.key with ⟨same, -⟩ | stripped
    · rw [same, made.parses] at parses'
      obtain rfl := Except.ok.inj parses'
      exact Asked.refl _
    · exact (stripped.reads url' parses').1

theorem Outcome.asked {r : Bool × Option Credential} (sound : Sound w db) (outcome : Outcome w db urlstr db' r)
    (some_ : r.2 = some c) (parses : _urlparse w urlstr = .ok url) : Asked w url c := by
  cases outcome with
  | hit d known =>
    cases some_
    exact (sound urlstr c known).2 url parses
  | found url' d new parses' port named first =>
    cases some_
    obtain rfl := Except.ok.inj (parses'.symm.trans parses)
    rcases sound.search port with ⟨none_, -⟩ | ⟨entry, -, found, yes⟩
    · cases first.symm.trans none_
    · cases first.symm.trans found
      exact (asked_of_resolves yes).congr rfl
  | invalid => cases some_
  | made built url' new made =>
    cases some_
    rcases made.from_ with ⟨rfl, -⟩ | ⟨given, parses', userless, plain, built_⟩
    · obtain rfl := Except.ok.inj (made.parses.symm.trans parses)
      exact Asked.refl _
    · obtain rfl := Except.ok.inj (parses'.symm.trans parses)
      exact (anonymous_parts parses (Bool.and_eq_true_iff.mp userless).1 plain built_ made.clean made.parses).1

/-- A URL is for itself. -/
theorem resolves_self (port : ∃ port, url.port = .ok port) : resolves w url url = .ok true := by
  obtain ⟨port, portIs⟩ := port
  unfold resolves
  rw [if_neg (not_not.mpr rfl), if_neg (not_not.mpr rfl), portIs]
  change (if port ≠ port then Except.ok false else _) = Except.ok true
  rw [if_neg (not_not.mpr rfl), if_neg fun other => other.1 rfl, if_neg fun other => other.1 rfl]
  simp

theorem firstFor_concat {entries : List (Str × Credential)} {key : Str} (none_ : firstFor w url entries = .ok none)
    (yes : resolves w url c.url = .ok true) : firstFor w url (entries ++ [(key, c)]) = .ok (some c) := by
  unfold firstFor
  rw [firstForOf_behind (firstForOf_none none_), firstForOf_cons, yes]
  rfl

/-- After a call that returned a credential, the next one returns it too. -/
theorem Outcome.held {r : Bool × Option Credential} (outcome : Outcome w db urlstr db' r) (some_ : r.2 = some c) :
    Held w db' urlstr c := by
  cases outcome with
  | hit d known =>
    cases some_
    exact .cached known
  | found url d new parses port named first =>
    cases some_
    exact .cached (Table.get_set_self _ _ _)
  | invalid => cases some_
  | made built url new made =>
    cases some_
    have key := made.key
    have from_ := made.from_
    have gets (other : urlstr ≠ addKey built url) : (db.set (addKey built url) (.of url)).get urlstr = none := by
      rw [Table.get_set, if_neg other, new]
    rcases from_ with ⟨rfl, named, none_, -⟩ | ⟨given, parses, userless, plain, built_⟩
    · by_cases same : addKey built url = built
      · rw [same]
        exact .cached (Table.get_set_self _ _ _)
      · have secret : url.raw_password ≠ none := fun none_ => same (by unfold addKey; rw [none_])
        have grown : (db.set (addKey built url) (.of url)).entries = db.entries ++ [(addKey built url, .of url)] := by
          rcases set_grows fun old here => made.adds.new url old made.parses here with kept | ⟨-, more⟩
          · -- the credential was there already, so that it would have been found
            have there : db.get (addKey built url) = some (.of url) := by
              rw [← kept, Table.get_set_self]
            have no := firstForOf_none none_ _ (db.get_eq_some_iff.mp there)
            cases no.symm.trans (resolves_self made.port)
          · exact more
        refine .first url (gets (Ne.symm same)) made.parses named secret ?_
        rw [grown]
        exact firstFor_concat none_ (resolves_self made.port)
    · by_cases same : addKey built url = urlstr
      · have isAmqp := (Bool.and_eq_true_iff.mp userless).1
        have at_ := (anonymous_parts parses isAmqp plain built_ made.clean made.parses).2.1
        rcases key with ⟨is, -⟩ | stripped
        · obtain rfl := is.symm.trans same
          obtain rfl := Except.ok.inj (made.parses.symm.trans parses)
          exact absurd at_ plain
        · exact absurd (stripped.reads given (same ▸ parses)).2.2 plain
      · exact .supplied given url built (gets (Ne.symm same)) parses userless plain built_ made.parses rfl

section Later
variable {other key : Str} {d : Credential}

theorem Held.grow (held : Held w db urlstr c) (new : db.get key = none) (apart : urlstr ≠ key) : Held w (db.set key d) urlstr c := by
  have gets : (db.set key d).get urlstr = db.get urlstr := by rw [Table.get_set, if_neg apart]
  cases held with
  | cached known => exact .cached (gets.trans known)
  | supplied url url' built none_ parses userless plain made parses' same =>
    exact .supplied url url' built (gets.trans none_) parses userless plain made parses' same
  | first url none_ parses named secret found =>
    refine .first url (gets.trans none_) parses named secret ?_
    rw [show (db.set key d).entries = db.entries ++ [(key, d)] from Table.setEntries_new new]
    exact firstForOf_append found

/-- No key that is added is a URL whose credential is found without one. -/
theorem Made.apart {built : Str} (made : Made w db other built url) (held : Held w db urlstr c) (new : db.get (addKey built url) = none) :
    urlstr ≠ addKey built url := by
  intro same
  cases held with
  | cached known =>
    rw [same, new] at known
    cases known
  | supplied given _ _ _ parses userless plain =>
    rcases made.key with ⟨is, -⟩ | stripped
    · rw [same, is] at parses
      obtain rfl := Except.ok.inj (made.parses.symm.trans parses)
      rcases made.from_ with ⟨-, named, -⟩ | ⟨_, parses', userless', plain', built_⟩
      · exact named userless
      · exact plain (anonymous_parts parses' (Bool.and_eq_true_iff.mp userless').1 plain' built_ made.clean made.parses).2.1
    · rw [same] at parses
      exact plain (stripped.reads given parses).2.2
  | first given none_ parses named secret found =>
    rcases made.key with ⟨is, blank_⟩ | stripped
    · rw [same, is] at parses
      obtain rfl := Except.ok.inj (made.parses.symm.trans parses)
      rcases made.from_ with ⟨-, -, nobody, -⟩ | ⟨_, parses', userless', plain', built_⟩
      · cases nobody.symm.trans found
      · have pass := (anonymous_parts parses' (Bool.and_eq_true_iff.mp userless').1 plain' built_ made.clean made.parses).2.2.2.1
        exact absurd (blank_ _ pass) (by decide)
    · rw [same] at parses
      exact secret (stripped.reads given parses).2.1

theorem Held.step {r : Bool × Option Credential} (held : Held w db urlstr c) (outcome : Outcome w db other db' r) : Held w db' urlstr c := by
  cases outcome with
  | hit => exact held
  | invalid => exact held
  | found url d new parses port named first =>
    by_cases same : urlstr = other
    · subst same
      cases held with
      | cached known => cases new.symm.trans known
      | supplied given _ _ _ parses' userless =>
        obtain rfl := Except.ok.inj (parses.symm.trans parses')
        exact absurd userless named
      | first given _ parses' _ _ found =>
        obtain rfl := Except.ok.inj (parses.symm.trans parses')
        cases first.symm.trans found
        exact .cached (Table.get_set_self _ _ _)
    · exact held.grow new same
  | made built url new made =>
    rcases set_grows fun old here => made.adds.new url old made.parses here with kept | ⟨none_, -⟩
    · rw [kept]
      exact held
    · exact held.grow none_ (made.apart held none_)

/-- What is held is returned. -/
theorem Held.answers (held : Held w db urlstr c) (sound : Sound w db) (meets : MeetsGet w db urlstr) :
    ∃ cached, (Source.Credentials.get w db urlstr).2 = .ok (cached, some c) := by
  obtain ⟨r, is, outcome⟩ := get_outcome sound meets
  suffices found : r.2 = some c from ⟨r.1, is.trans (congrArg Except.ok (Prod.ext rfl found))⟩
  generalize after : (Source.Credentials.get w db urlstr).1 = db' at outcome
  cases outcome with
  | hit d known =>
    cases held with
    | cached known' => exact known.symm.trans known'
    | supplied _ _ _ new => cases new.symm.trans known
    | first _ new => cases new.symm.trans known
  | found url d new parses port named first =>
    cases held with
    | cached known => cases new.symm.trans known
    | supplied given _ _ _ parses' userless =>
      obtain rfl := Except.ok.inj (parses.symm.trans parses')
      exact absurd userless named
    | first given _ parses' _ _ found =>
      obtain rfl := Except.ok.inj (parses.symm.trans parses')
      exact Except.ok.inj (first.symm.trans found)
  | invalid url new parses named none_ =>
    cases held with
    | cached known => cases new.symm.trans known
    | supplied given _ _ _ parses' userless =>
      obtain rfl := Except.ok.inj (parses.symm.trans parses')
      exact absurd userless named
    | first given _ parses' _ _ found =>
      obtain rfl := Except.ok.inj (parses.symm.trans parses')
      cases none_.symm.trans found
  | made built url new made =>
    rcases made.from_ with ⟨rfl, named, none_, -⟩ | ⟨given, parses, userless, -, built_⟩
    · cases held with
      | cached known => cases new.symm.trans known
      | supplied given _ _ _ parses' userless =>
        obtain rfl := Except.ok.inj (made.parses.symm.trans parses')
        exact absurd userless named
      | first given _ parses' _ _ found =>
        obtain rfl := Except.ok.inj (made.parses.symm.trans parses')
        cases none_.symm.trans found
    · cases held with
      | cached known => cases new.symm.trans known
      | supplied given' url' built' _ parses' _ _ built'_ urls same =>
        obtain rfl := Except.ok.inj (parses.symm.trans parses')
        obtain rfl := Except.ok.inj (built_.symm.trans built'_)
        obtain rfl := Except.ok.inj (made.parses.symm.trans urls)
        exact congrArg some same.symm
      | first given' _ parses' named =>
        obtain rfl := Except.ok.inj (parses.symm.trans parses')
        exact absurd userless named

end Later

/-! ## Runs -/

theorem run_append (ops more : List Op) : run w db (ops ++ more) = run w (run w db ops) more := List.foldl_append

theorem step_sound (sound : Sound w db) {op : Op} (meets : Meets w db op) : Sound w (step w db op) := by
  cases op with
  | parse line =>
    change Sound w (_parse w db line)
    unfold _parse
    cases is : parsed w line with
    | error fault => exact sound
    | ok answer =>
      cases answer with
      | none => exact sound
      | some entry =>
        obtain ⟨urlstr, details⟩ := entry
        refine sound.set (meets urlstr details is) fun url parses => ?_
        exact (Asked.refl url).congr (parsed_url is parses)
  | get urlstr =>
    obtain ⟨r, -, outcome⟩ := get_outcome sound meets
    exact outcome.sound sound

theorem run_sound {ops : List Op} (meets : AllMeet w ops) : Sound w (run w Table.empty ops) := by
  induction ops using List.reverseRecOn with
  | nil => exact Sound.empty
  | append_singleton ops op ih =>
    have here := meets ops op [] rfl
    rw [run_append]
    refine step_sound (ih fun before op' after same => meets before op' (after ++ [op]) ?_) here
    rw [same]
    simp

theorem run_held {before gets rest : List Op} {other : Op} (meets : AllMeet w (before ++ gets ++ other :: rest))
    (all : ∀ op ∈ gets, op.isGet = true) (held : Held w (run w Table.empty before) urlstr c) :
    Held w (run w Table.empty (before ++ gets)) urlstr c := by
  induction gets generalizing before with
  | nil => simpa using held
  | cons op gets ih =>
    obtain ⟨here, later⟩ := List.forall_mem_cons.mp all
    have sound : Sound w (run w Table.empty before) := run_sound fun before' op' after same =>
      meets before' op' (after ++ op :: gets ++ other :: rest) (by rw [same]; simp)
    have one := meets before op (gets ++ other :: rest) (by simp)
    cases op with
    | parse line => cases here
    | get key =>
      obtain ⟨r, -, outcome⟩ := get_outcome sound one
      have next : Held w (run w Table.empty (before ++ [.get key])) urlstr c := by
        rw [run_append]
        exact held.step outcome
      have done := ih (by simpa using meets) later next
      simpa using done

/-- Where each line has a port that can be read and each URL that is added has one key of its own, the
lookups of a run are coherent. -/
theorem coherent_of_meets {ops : List Op} (meets : AllMeet w ops) : Coherent w ops := by
  intro before urlstr after same
  subst same
  have sound : Sound w (run w Table.empty before) := run_sound fun before' op' after' same =>
    meets before' op' (after' ++ .get urlstr :: after) (by rw [same]; simp)
  have here : MeetsGet w (run w Table.empty before) urlstr := meets before (.get urlstr) after rfl
  obtain ⟨⟨cached, found⟩, is, outcome⟩ := get_outcome sound here
  refine ⟨cached, found, is, fun c some_ => ⟨fun url parses => outcome.asked sound some_ parses, fun gets rest tail all => ?_⟩⟩
  subst tail
  have next : Held w (run w Table.empty (before ++ [.get urlstr])) urlstr c := by
    rw [run_append]
    exact outcome.held some_
  have meets' : AllMeet w (before ++ [.get urlstr] ++ gets ++ .get urlstr :: rest) := by simpa using meets
  have held := run_held meets' all next
  have later : Sound w (run w Table.empty (before ++ [.get urlstr] ++ gets)) := run_sound fun before' op' after' same =>
    meets' before' op' (after' ++ .get urlstr :: rest) (by rw [same]; simp)
  have again := held.answers later (meets' _ (.get urlstr) rest rfl)
  simpa using again

end Runs

/-! ## One run of each kind -/

/-- A world in which names are ASCII and each file is there. -/
def asciiWorld : World := ⟨⟨fun _ => false, List.map Char.toLower, fun _ => ['?']⟩, id, fun _ => true⟩

/-- The password is the port too, and the key loses both: the credential that was just added is not found. -/
theorem password_in_port :
    (∀ urlstr, Op.get urlstr ∈ [Op.get "ftp://u:21@h:21/".toList] → Valid asciiWorld urlstr) ∧
      ¬ Coherent asciiWorld [Op.get "ftp://u:21@h:21/".toList] := by
  constructor
  · intro urlstr member
    cases List.mem_singleton.mp member
    exact ⟨by decide, _, rfl, _, rfl⟩
  · intro coherent
    obtain ⟨cached, found, is, -⟩ := coherent [] _ [] rfl
    have raises : (Source.Credentials.get asciiWorld Table.empty "ftp://u:21@h:21/".toList).2 = .error .keyError := rfl
    cases raises.symm.trans is

/-- A line, and a lookup that adds a credential twice. -/
theorem line_and_lookups : Coherent asciiWorld
    [.parse "sftp://u@h/".toList, .get "ftp://u:p@h/".toList, .get "ftp://u:p@h/".toList] := by
  refine coherent_of_meets fun before op after same => ?_
  have adds {db : CredentialDB} (new : db.get "ftp://u@h/".toList = none ∨ db.get "ftp://u@h/".toList =
      some (.of ⟨"ftp".toList, "u:p@h".toList, "/".toList, [], [], []⟩)) : MeetsGet asciiWorld db "ftp://u:p@h/".toList := by
    refine ⟨⟨by decide, _, rfl, _, rfl⟩, fun url _ parses _ _ _ => ⟨fun url parses => ?_, fun url old parses there => ?_⟩,
      fun url _ parses userless => ?_⟩
    · cases parses
      exact ⟨by decide, by decide⟩
    · cases parses
      rcases new with none_ | some_
      · cases none_.symm.trans there
      · exact Option.some.inj (there.symm.trans some_)
    · cases parses
      exact absurd userless Bool.false_ne_true
  rcases before with _ | ⟨a, _ | ⟨b, _ | ⟨c, before⟩⟩⟩
  · cases same
    intro urlstr details is
    cases is
    exact ⟨_, rfl⟩
  · cases same
    exact adds (.inl rfl)
  · cases same
    exact adds (.inr rfl)
  · have short := congrArg List.length same
    simp at short

end Sarracenia.Guarantees.Credentials
