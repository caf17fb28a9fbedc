import Sarracenia.Source.Credentials

/-!
# The keys of credentials

Where the password of a URL is written as it is decoded, and each text `:password` in the URL has an
`@` behind it, the key a credential is stored with is the one it is looked up with, and is a URL
for the same scheme, host, port and user.
-/
namespace Sarracenia.Guarantees.Credentials
open Library Library.Text Library.Dynamic Library.Urls Source.Credentials

section Replace
variable {lead scheme s old new : Str} {c d : Char}

theorem replaceAll_plain (plain : c ∉ s) (more : Str) :
    replaceAll (c :: old) new (s ++ more) = s ++ replaceAll (c :: old) new more := by
  refine replaceAll_append fun a b same some_ => ?_
  cases b with
  | nil => exact absurd rfl some_
  | cons e b =>
    have member : e ∈ s := same ▸ List.mem_append_right _ List.mem_cons_self
    have other : c ≠ e := fun is => plain (is ▸ member)
    rw [List.cons_append, List.isPrefixOf_cons_cons, beq_false_of_ne other, Bool.false_and]

/-- The colon of the scheme has a slash behind it. -/
theorem replaceAll_lead (known : Lead lead scheme) (other : d ≠ '/') (more : Str) :
    replaceAll (':' :: d :: old) new (lead ++ more) = lead ++ replaceAll (':' :: d :: old) new more := by
  rcases known with ⟨rfl, -⟩ | ⟨word, rfl, -, -, all⟩
  · exact replaceAll_plain (by decide) more
  · have slash : (':' :: d :: old).isPrefixOf (':' :: ("//".toList ++ more)) = false := by
      have apart : (d == '/') = false := beq_false_of_ne other
      change (':' == ':' && ((d == '/') && _)) = false
      rw [apart, Bool.false_and, Bool.and_false]
    rw [List.append_assoc, replaceAll_plain (isSchemeChar_colon all)]
    change word ++ replaceAll _ _ (':' :: ("//".toList ++ more)) = _
    rw [replaceAll_cons slash, replaceAll_plain (by decide)]
    simp

theorem occurs_false (member : d ∈ old) (plain : d ∉ s) : occurs old s = false := by
  rw [Bool.eq_false_iff]
  intro there
  have some_ : old ≠ [] := fun none_ => by rw [none_] at member; cases member
  induction s with
  | nil =>
    rw [occurs, List.isEmpty_iff] at there
    exact some_ there
  | cons e s ih =>
    rw [occurs, Bool.or_eq_true] at there
    rcases there with start | later
    · exact plain ((List.isPrefixOf_iff_prefix.mp start).subset member)
    · exact ih (fun inside => plain (List.mem_cons_of_mem e inside)) later

end Replace

section Asked
variable (w : World)

/-- The text can be read as a URL, with a port that is a number, and is one word. -/
structure Valid (urlstr : Str) : Prop where
  clean : Clean urlstr
  parses : ∃ url, _urlparse w urlstr = .ok url ∧ ∃ port, url.port = .ok port

/-- A credential has what a URL asks for; a user name or a password only where it gives one. -/
structure Asked (url : Url) (c : Credential) : Prop where
  scheme : c.url.scheme = url.scheme
  hostname : c.url.hostname w.toNet = url.hostname w.toNet
  port : c.url.port = url.port
  username : ∀ user, username w url = some user → Source.Credentials.username w c.url = some user
  password : ∀ pass, password w url = some pass → Source.Credentials.password w c.url = some pass

/-- The password is written as it is decoded, and the two keys are one. -/
structure OneKey (urlstr : Str) (url : Url) : Prop where
  plain : password w url = url.raw_password
  same : addKey urlstr url = getKey w urlstr url

variable {w}

theorem Asked.refl (url : Url) : Asked w url (.of url) := ⟨rfl, rfl, rfl, fun _ given => given, fun _ given => given⟩

/-- Host and port are read from what follows the last `@`. -/
theorem hostname_congr (url u : Url) (same : hostinfo url.netloc = hostinfo u.netloc) (net : Net) :
    url.hostname net = u.hostname net ∧ url.port = u.port := by
  unfold Url.hostname Url.port
  rw [same]
  exact ⟨rfl, rfl⟩

/-! ## The key without the password -/

/-- A key from which the password of a URL was taken. -/
structure Stripped (w : World) (key : Str) (url : Url) : Prop where
  clean : Clean key
  reads : ∀ url', _urlparse w key = .ok url' → Asked w url' (.of url) ∧ url'.raw_password = none ∧ '@' ∈ url'.netloc

section Parts
variable {lead scheme user raw host rest : Str} {d : Char}

/-- Taking `:password` out of a URL leaves the user and the host, if this is what taking it out in
front of each `@` does. -/
theorem strip_parts (leads : Lead lead scheme) (userPlain : ':' ∉ user) (hostPlain : '@' ∉ host)
    (cut : Cut isDelim (user ++ ':' :: d :: raw ++ '@' :: host) rest)
    (same : replaceAll (':' :: d :: raw) [] (lead ++ (user ++ ':' :: d :: raw ++ '@' :: host ++ rest)) =
      replaceAll (':' :: d :: raw ++ "@".toList) "@".toList (lead ++ (user ++ ':' :: d :: raw ++ '@' :: host ++ rest))) :
    replaceAll (':' :: d :: raw) [] (lead ++ (user ++ ':' :: d :: raw ++ '@' :: host ++ rest)) =
        lead ++ (user ++ '@' :: host ++ replaceAll (':' :: d :: raw) [] rest) ∧
      Cut isDelim (user ++ '@' :: host) (replaceAll (':' :: d :: raw) [] rest) := by
  have wordPlain : ∀ c ∈ ':' :: d :: raw, isDelim c = false := fun c member =>
    cut.plain c (List.mem_append_left _ (List.mem_append_right _ member))
  have atPlain : ∀ c ∈ ':' :: d :: raw ++ "@".toList, isDelim c = false := by
    intro c member
    rcases List.mem_append.mp member with inside | last
    · exact wordPlain c inside
    · rw [List.mem_singleton.mp last]
      rfl
  have other : d ≠ '/' := fun slash => by
    have plain := wordPlain d (List.mem_cons_of_mem _ List.mem_cons_self)
    rw [slash] at plain
    cases plain
  have hostCut : ∀ c ∈ host, isDelim c = false := fun c member =>
    cut.plain c (List.mem_append_right _ (List.mem_cons_of_mem _ member))
  have one : replaceAll (':' :: d :: raw) [] (lead ++ (user ++ ':' :: d :: raw ++ '@' :: host ++ rest)) =
      lead ++ (user ++ '@' :: (replaceAll (':' :: d :: raw) [] host ++ replaceAll (':' :: d :: raw) [] rest)) := by
    have start : user ++ ':' :: d :: raw ++ '@' :: host ++ rest = user ++ ((':' :: d :: raw) ++ ("@".toList ++ (host ++ rest))) := by
      simp
    rw [start, replaceAll_lead leads other, replaceAll_plain userPlain, replaceAll_starts (List.cons_ne_nil _ _),
      replaceAll_plain (by decide), replaceAll_cut (List.cons_ne_nil _ _) wordPlain cut.next]
    rfl
  have two : replaceAll (':' :: d :: raw ++ "@".toList) "@".toList (lead ++ (user ++ ':' :: d :: raw ++ '@' :: host ++ rest)) =
      lead ++ (user ++ '@' :: (host ++ replaceAll (':' :: d :: raw ++ "@".toList) "@".toList rest)) := by
    have start : user ++ ':' :: d :: raw ++ '@' :: host ++ rest = user ++ (':' :: d :: (raw ++ "@".toList) ++ (host ++ rest)) := by
      simp
    have someAt : ':' :: d :: raw ++ "@".toList ≠ [] := List.cons_ne_nil _ _
    have kept : replaceAll (':' :: d :: raw ++ "@".toList) "@".toList host = host :=
      replaceAll_of_not_occurs (occurs_false (List.mem_append_right _ List.mem_cons_self) hostPlain)
    have apart : replaceAll (':' :: d :: raw ++ "@".toList) "@".toList (host ++ rest) =
        host ++ replaceAll (':' :: d :: raw ++ "@".toList) "@".toList rest := by
      rw [replaceAll_cut someAt atPlain cut.next, kept]
    rw [start]
    exact (replaceAll_lead leads other _).trans (congrArg (lead ++ ·) ((replaceAll_plain userPlain _).trans
      (congrArg (user ++ ·) ((replaceAll_starts (List.cons_ne_nil _ _) (host ++ rest)).trans (congrArg ("@".toList ++ ·) apart)))))
  rw [one, two] at same
  have tails := (List.cons.inj (List.append_cancel_left (List.append_cancel_left same))).2
  have first : Cut isDelim (replaceAll (':' :: d :: raw) [] host) (replaceAll (':' :: d :: raw) [] rest) := by
    refine ⟨fun c member => ?_, replaceAll_next (List.cons_ne_nil _ _) wordPlain cut.next⟩
    exact hostCut c ((replaceAll_subset (List.cons_ne_nil _ _) member).resolve_left List.not_mem_nil)
  have second : Cut isDelim host (replaceAll (':' :: d :: raw ++ "@".toList) "@".toList rest) :=
    ⟨hostCut, replaceAll_next (List.cons_ne_nil _ _) atPlain cut.next⟩
  have hosts := (first.unique second tails).1
  refine ⟨by rw [one, hosts]; simp, fun c member => ?_, first.next⟩
  rcases List.mem_append.mp member with inside | inside
  · exact cut.plain c (List.mem_append_left _ (List.mem_append_left _ inside))
  · exact cut.plain c (List.mem_append_right _ inside)

end Parts

variable {urlstr : Str} {url : Url}

theorem stripped (clean : Clean urlstr) (parses : _urlparse w urlstr = .ok url) (one : OneKey w urlstr url) {raw : Str}
    (given : url.raw_password = some raw) (some_ : raw ≠ []) : Stripped w (addKey urlstr url) url := by
  have same := one.same
  have decoded := one.plain
  unfold addKey getKey at same
  unfold addKey
  rw [decoded, given] at same
  rw [given]
  dsimp only at same ⊢
  rw [if_neg some_, if_neg some_] at same
  rw [if_neg some_]
  cases known : userinfo url.netloc with
  | none =>
    rw [Url.raw_password, known] at given
    cases given
  | some info =>
    obtain ⟨whole, hostPlain⟩ := userinfo_some known
    have password_ := given
    rw [Url.raw_password, known] at given
    dsimp only [Option.bind] at given
    split at given
    · next colon =>
      obtain rfl := Option.some.inj given
      obtain ⟨parts, userPlain⟩ := eq_before_after colon
      have netloc_ : url.netloc ≠ [] := fun none_ => by
        rw [none_] at known
        cases known
      obtain ⟨lead, rest, rfl, leads, cut, -, -⟩ := urlparse_ok clean parses netloc_
      generalize after ':' info = raw at *
      generalize userIs : before ':' info = user at *
      generalize hostIs : hostinfo url.netloc = host at *
      cases raw with
      | nil => exact absurd rfl some_
      | cons d raw =>
        rw [whole, parts] at same cut ⊢
        obtain ⟨key, cut'⟩ := strip_parts leads userPlain hostPlain cut same
        have cleanKey : Clean (replaceAll (':' :: d :: raw) [] (lead ++ (user ++ ':' :: d :: raw ++ '@' :: host ++ rest))) := by
          intro c member
          rw [whole, parts] at clean
          exact clean c ((replaceAll_subset (List.cons_ne_nil _ _) member).resolve_left List.not_mem_nil)
        refine ⟨cleanKey, fun url' parses' => ?_⟩
        rw [key] at parses' cleanKey
        unfold _urlparse at parses'
        rw [urlparse_lead leads cut' cleanKey] at parses'
        split at parses'
        · cases parses'
        · obtain rfl := Except.ok.inj parses'
          have info' : userinfo (user ++ '@' :: host) = some user := userinfo_append hostPlain
          have host' : hostinfo (user ++ '@' :: host) = hostinfo url.netloc := (hostinfo_append hostPlain user).trans hostIs.symm
          have pass : (assemble url.scheme (user ++ '@' :: host) (replaceAll (':' :: d :: raw) [] rest)).raw_password = none := by
            unfold Url.raw_password assemble
            rw [info', Option.bind_some, if_neg userPlain]
          have name : (assemble url.scheme (user ++ '@' :: host) (replaceAll (':' :: d :: raw) [] rest)).raw_username =
              url.raw_username := by
            unfold Url.raw_username assemble
            rw [info', known, Option.map_some, Option.map_some, before_plain userPlain, userIs]
          obtain ⟨hostname, port⟩ := hostname_congr url (assemble url.scheme (user ++ '@' :: host)
            (replaceAll (':' :: d :: raw) [] rest)) host'.symm w.toNet
          refine ⟨⟨rfl, hostname, port, fun user given => ?_, fun pass' given => ?_⟩, pass,
            List.mem_append_right _ List.mem_cons_self⟩
          · unfold username at given ⊢
            rw [name] at given
            exact given
          · unfold password at given
            rw [pass] at given
            cases given
    · cases given

/-! ## The anonymous default -/

theorem unquote_plain {text : Str} (plain : '%' ∉ text) : Percent.unquote w.replacing text = text := if_neg plain

/-- An AMQP URL without a user is asked for as an anonymous one. -/
theorem anonymous_parts {built : Str} {url' : Url} (parses : _urlparse w urlstr = .ok url) (isAmqp : amqp url = true)
    (userless : '@' ∉ url.netloc) (made : anonymous url = .ok built) (clean : Clean built) (parses' : _urlparse w built = .ok url') :
    Asked w url (.of url') ∧ '@' ∈ url'.netloc ∧ isValid w url' none = true ∧
      url'.raw_password = some "anonymous".toList ∧ password w url' = some "anonymous".toList := by
  have some_ : url.scheme ≠ [] := fun none_ => by
    unfold amqp at isAmqp
    rw [none_] at isAmqp
    exact absurd isAmqp (by decide)
  obtain ⟨lead, plain⟩ := urlparse_parts parses some_
  unfold anonymous at made
  obtain ⟨port, -, made⟩ := bind_ok_iff.mp made
  split at made
  · cases made
  · obtain rfl := Except.ok.inj made
    rw [List.append_assoc, List.append_assoc] at clean parses'
    rw [← List.append_assoc "anonymous:anonymous@".toList] at clean parses'
    generalize pathIs : (if url.path ≠ [] ∧ url.path.head? ≠ some '/' then '/' :: url.path else url.path) = path at *
    have slash : ∀ c, path.head? = some c → isDelim c = true := by
      intro c first
      rw [← pathIs] at first
      split at first
      · obtain rfl := Option.some.inj first
        rfl
      · next not =>
        have full : url.path ≠ [] := fun none_ => by
          rw [none_] at first
          cases first
        have head : url.path.head? = some '/' := by
          by_contra other
          exact not ⟨full, other⟩
        obtain rfl := Option.some.inj (first.symm.trans head)
        rfl
    have cut : Cut isDelim ("anonymous:anonymous@".toList ++ url.netloc) path := by
      refine ⟨fun c member => ?_, slash⟩
      rcases List.mem_append.mp member with inside | inside
      · have fixed : ∀ c ∈ "anonymous:anonymous@".toList, isDelim c = false := by simp [isDelim]
        exact fixed c inside
      · exact plain c inside
    unfold _urlparse at parses'
    rw [urlparse_lead lead cut clean] at parses'
    split at parses'
    · cases parses'
    · obtain rfl := Except.ok.inj parses'
      have whole : "anonymous:anonymous@".toList ++ url.netloc = "anonymous:anonymous".toList ++ '@' :: url.netloc := rfl
      have info : userinfo ("anonymous:anonymous@".toList ++ url.netloc) = some "anonymous:anonymous".toList := by
        rw [whole, userinfo_append userless]
      have host : hostinfo ("anonymous:anonymous@".toList ++ url.netloc) = hostinfo url.netloc := by
        rw [whole, hostinfo_append userless, hostinfo, afterLast_plain userless]
      have nobody : userinfo url.netloc = none := if_neg userless
      generalize urlIs : assemble url.scheme ("anonymous:anonymous@".toList ++ url.netloc) path = url'
      have netlocIs : url'.netloc = "anonymous:anonymous@".toList ++ url.netloc := by rw [← urlIs]; rfl
      have schemeIs : url'.scheme = url.scheme := by rw [← urlIs]; rfl
      have pass : url'.raw_password = some "anonymous".toList := by
        unfold Url.raw_password
        rw [netlocIs, info]
        decide
      have name : url'.raw_username = some "anonymous".toList := by
        unfold Url.raw_username
        rw [netlocIs, info]
        decide
      have decoded : password w url' = some "anonymous".toList := by
        unfold password
        rw [pass, Option.map_some, unquote_plain (by decide)]
      have user : username w url' = some "anonymous".toList := by
        unfold username
        rw [name, Option.map_some, unquote_plain (by decide)]
      obtain ⟨hostname, port⟩ := hostname_congr url' url (by rw [netlocIs, host]) w.toNet
      refine ⟨⟨schemeIs, hostname, port, fun user given => ?_, fun pass given => ?_⟩, ?_, ?_, pass, decoded⟩
      · unfold username Url.raw_username at given
        rw [nobody] at given
        cases given
      · unfold password Url.raw_password at given
        rw [nobody] at given
        cases given
      · rw [netlocIs, whole]
        exact List.mem_append_right _ List.mem_cons_self
      · have full : url'.netloc ≠ [] := by rw [netlocIs]; exact List.cons_ne_nil _ _
        unfold isValid
        rw [if_neg full, user, decoded]
        rfl

end Asked
end Sarracenia.Guarantees.Credentials
