import Sarracenia.Library.Dynamic
import Sarracenia.Library.Percent
import Sarracenia.Library.Replace

/-!
# URLs

A URL is taken apart by its delimiters alone: what is in front of the network location, the
network location, and what follows it. What the tables of Unicode say of a network location or
of a host name is left open.
-/
namespace Sarracenia.Library.Urls
open Library.Text Library.Dynamic

structure Url where
  scheme : Str
  netloc : Str
  path : Str
  params : Str
  query : Str
  fragment : Str
  deriving DecidableEq

/-- What is refused of a network location, how a host name is written in small letters, and
what stands for bytes that are no UTF-8. -/
structure Net where
  refused : Str → Bool
  lower : Str → Str
  replacing : List UInt8 → Str

def isSchemeChar (c : Char) : Bool := c.isAlphanum || "+-.".toList.contains c

/-- What ends a network location. -/
def isDelim (c : Char) : Bool := "/?#".toList.contains c

def before (c : Char) (s : Str) : Str := s.takeWhile (· ≠ c)

/-- What follows the first `c`, or nothing. -/
def after (c : Char) (s : Str) : Str := (s.dropWhile (· ≠ c)).drop 1

/-- What follows the last `c`, or the whole. -/
def afterLast (c : Char) : Str → Str
  | [] => []
  | d :: s => if c ∈ s then afterLast c s else if d = c then s else d :: s

/-! ## Taking apart -/

/-- Control characters and blanks in front are dropped, and all tabulators and line ends. -/
def cleaned (s : Str) : Str := (s.dropWhile fun c => decide (c.toNat ≤ 32)).filter fun c => !"\t\r\n".toList.contains c

def splitScheme (s : Str) : Str × Str :=
  let word := before ':' s
  if ':' ∈ s ∧ word.head?.any Char.isAlpha ∧ word.all isSchemeChar then (word.map Char.toLower, after ':' s) else ([], s)

def splitNetloc (s : Str) : Str × Str :=
  if "//".toList.isPrefixOf s then ((s.drop 2).takeWhile (!isDelim ·), (s.drop 2).dropWhile (!isDelim ·)) else ([], s)

def uses_params : List Str := ["", "ftp", "hdl", "prospero", "http", "https", "shttp", "rtsp", "rtsps", "rtspu", "sip",
  "sips", "mms", "sftp", "tel"].map String.toList

/-- The parameters are those of the last part of the path. -/
def splitParams (scheme path : Str) : Str × Str :=
  let part := afterLast '/' path
  if uses_params.contains scheme ∧ ';' ∈ part then
    (path.take (path.length - part.length) ++ before ';' part, after ';' part)
  else (path, [])

/-- What follows the network location. -/
def assemble (scheme netloc rest : Str) : Url :=
  let path := splitParams scheme (before '?' (before '#' rest))
  ⟨scheme, netloc, path.1, path.2, after '?' (before '#' rest), after '#' rest⟩

def urlparse (net : Net) (s : Str) : Except Fault Url :=
  let scheme := splitScheme (cleaned s)
  let netloc := splitNetloc scheme.2
  if net.refused netloc.1 then .error .valueError else .ok (assemble scheme.1 netloc.1 netloc.2)

/-! ## The network location -/

def hostinfo (netloc : Str) : Str := afterLast '@' netloc

def userinfo (netloc : Str) : Option Str :=
  if '@' ∈ netloc then some (netloc.take (netloc.length - (hostinfo netloc).length - 1)) else none

/-- Host and port, either of them empty where it is not given. -/
def hostPort (hostinfo : Str) : Str × Str :=
  if '[' ∈ hostinfo then (before ']' (after '[' hostinfo), after ':' (after ']' (after '[' hostinfo)))
  else (before ':' hostinfo, after ':' hostinfo)

section Url
variable (net : Net) (url : Url)

def Url.raw_username : Option Str := (userinfo url.netloc).map (before ':')

def Url.raw_password : Option Str :=
  (userinfo url.netloc).bind fun info => if ':' ∈ info then some (after ':' info) else none

/-- What follows a percent sign is no part of the name of a host. -/
def Url.hostname : Option Str :=
  let host := (hostPort (hostinfo url.netloc)).1
  if host = [] then none else some (net.lower (before '%' host) ++ host.dropWhile (· ≠ '%'))

def Url.port : Except Fault (Option Nat) :=
  let port := (hostPort (hostinfo url.netloc)).2
  if port = [] then .ok none
  else if port.all Char.isDigit then
    let n := port.foldl (fun n c => 10 * n + (c.toNat - 48)) 0
    if n ≤ 65535 then .ok (some n) else .error .valueError
  else .error .valueError

end Url

/-! ## What stands where -/

section Last
variable {c : Char}

theorem afterLast_plain {s : Str} (plain : c ∉ s) : afterLast c s = s := by
  cases s with
  | nil => rfl
  | cons d s =>
    rw [List.mem_cons, not_or] at plain
    rw [afterLast, if_neg plain.2, if_neg (Ne.symm plain.1)]

theorem afterLast_append (a : Str) {b : Str} (plain : c ∉ b) : afterLast c (a ++ c :: b) = b := by
  induction a with
  | nil => rw [List.nil_append, afterLast, if_neg plain, if_pos rfl]
  | cons d a ih =>
    rw [List.cons_append, afterLast, if_pos (List.mem_append_right a List.mem_cons_self), ih]

theorem eq_append_afterLast {s : Str} (member : c ∈ s) : ∃ a, s = a ++ c :: afterLast c s ∧ c ∉ afterLast c s := by
  induction s with
  | nil => cases member
  | cons d s ih =>
    rw [afterLast]
    by_cases later : c ∈ s
    · obtain ⟨a, whole, plain⟩ := ih later
      rw [if_pos later]
      exact ⟨d :: a, congrArg (List.cons d) whole, plain⟩
    · obtain rfl := (List.mem_cons.mp member).resolve_right later
      rw [if_neg later, if_pos rfl]
      exact ⟨[], rfl, later⟩

theorem before_append {a b : Str} (plain : c ∉ a) : before c (a ++ c :: b) = a := by
  have cut : Cut (fun d => decide (d = c)) a (c :: b) :=
    ⟨fun d member => decide_eq_false fun same => plain (same ▸ member), fun d first => decide_eq_true (Option.some.inj first).symm⟩
  have whole := cut.takeWhile
  simpa [before] using whole

theorem after_append {a b : Str} (plain : c ∉ a) : after c (a ++ c :: b) = b := by
  unfold after
  have whole : ∀ d ∈ a, decide (d ≠ c) = true := fun d member => decide_eq_true fun same => plain (same ▸ member)
  rw [List.dropWhile_append_of_pos whole, List.dropWhile_cons_of_neg (by simp), List.drop_one, List.tail_cons]

theorem before_plain {a : Str} (plain : c ∉ a) : before c a = a :=
  List.takeWhile_eq_self_iff.mpr fun _ member => decide_eq_true fun same => plain (same ▸ member)

theorem eq_before_after {s : Str} (member : c ∈ s) : s = before c s ++ c :: after c s ∧ c ∉ before c s := by
  obtain ⟨a, b, rfl, plain⟩ := List.eq_append_cons_of_mem member
  rw [before_append plain, after_append plain]
  exact ⟨rfl, plain⟩

end Last

section Netloc
variable {user host : Str} (plain : '@' ∉ host)
include plain

theorem hostinfo_append (user : Str) : hostinfo (user ++ '@' :: host) = host := afterLast_append user plain

theorem userinfo_append : userinfo (user ++ '@' :: host) = some user := by
  unfold userinfo
  rw [if_pos (List.mem_append_right _ List.mem_cons_self), hostinfo_append plain, List.length_append, List.length_cons,
    Nat.sub_sub, Nat.add_sub_cancel, List.take_left]

end Netloc

theorem userinfo_some {netloc user : Str} (known : userinfo netloc = some user) :
    netloc = user ++ '@' :: hostinfo netloc ∧ '@' ∉ hostinfo netloc := by
  unfold userinfo at known
  split at known
  · next member =>
    obtain ⟨a, whole, plain⟩ := eq_append_afterLast member
    have same : userinfo (a ++ '@' :: afterLast '@' netloc) = some a := userinfo_append plain
    unfold userinfo at same
    rw [← whole, if_pos member] at same
    rw [same] at known
    cases known
    exact ⟨whole, plain⟩
  · cases known

/-! ## What is put together is taken apart the same -/

/-- What stands in front of a network location, and the scheme it is read as. -/
def Lead (lead scheme : Str) : Prop :=
  lead = "//".toList ∧ scheme = [] ∨
    ∃ word, lead = word ++ "://".toList ∧ scheme = word.map Char.toLower ∧ word.head?.any Char.isAlpha = true ∧ word.all isSchemeChar = true

/-- No blank and no control character. -/
def Clean (s : Str) : Prop := ∀ c ∈ s, 32 < c.toNat

instance (s : Str) : Decidable (Clean s) := List.decidableBAll (32 < Char.toNat ·) s

theorem cleaned_of_clean {s : Str} (clean : Clean s) : cleaned s = s := by
  unfold cleaned
  have kept : s.dropWhile (fun c => decide (c.toNat ≤ 32)) = s := by
    cases s with
    | nil => rfl
    | cons c s => exact List.dropWhile_cons_of_neg (by simpa using clean c List.mem_cons_self)
  rw [kept, List.filter_eq_self]
  intro c member
  have far := clean c member
  rw [Bool.not_eq_true', List.contains_eq_mem, decide_eq_false_iff_not]
  intro inside
  have small : ∀ d ∈ "\t\r\n".toList, d.toNat ≤ 32 := by simp
  exact absurd (small c inside) (Nat.not_le.mpr far)

theorem isSchemeChar_colon {word : Str} (all : word.all isSchemeChar = true) : ':' ∉ word := fun member => by
  have colon := List.all_eq_true.mp all ':' member
  exact absurd colon (by decide)

/-- Small letters are left as they are, and are as good in a scheme. -/
theorem toLower_schemeChar {c : Char} (known : isSchemeChar c = true) :
    isSchemeChar c.toLower = true ∧ c.toLower.toLower = c.toLower ∧ c.toLower.isAlpha = c.isAlpha := by
  have small : c.toNat < 128 := by
    unfold isSchemeChar at known
    rw [Bool.or_eq_true] at known
    rcases known with letter | sign
    · delta Char.isAlphanum Char.isAlpha Char.isUpper Char.isLower Char.isDigit at letter
      simp only [Bool.or_eq_true, Bool.and_eq_true, decide_eq_true_eq, UInt32.le_iff_toNat_le, ge_iff_le] at letter
      have value : c.toNat = c.val.toNat := rfl
      have z : 'z'.val.toNat = 122 := rfl
      have Z : 'Z'.val.toNat = 90 := rfl
      have nine : '9'.val.toNat = 57 := rfl
      omega
    · have signs : ∀ d ∈ "+-.".toList, d.toNat < 128 := by simp
      exact signs c (by simpa using sign)
  have all : ∀ n < 128, isSchemeChar (Char.ofNat n) = true → isSchemeChar (Char.ofNat n).toLower = true ∧
      (Char.ofNat n).toLower.toLower = (Char.ofNat n).toLower ∧ (Char.ofNat n).toLower.isAlpha = (Char.ofNat n).isAlpha := by
    decide
  have here := all c.toNat small
  rw [Char.ofNat_toNat] at here
  exact here known

/-- A scheme that was read is one that can be written. -/
theorem lead_lower {word : Str} (first : word.head?.any Char.isAlpha = true) (all : word.all isSchemeChar = true) :
    Lead (word.map Char.toLower ++ "://".toList) (word.map Char.toLower) := by
  refine .inr ⟨_, rfl, ?_, ?_, ?_⟩
  · rw [List.map_map]
    exact List.map_congr_left fun c member => (toLower_schemeChar (List.all_eq_true.mp all c member)).2.1.symm
  · cases word with
    | nil => exact first
    | cons c word => exact (toLower_schemeChar (List.all_eq_true.mp all c List.mem_cons_self)).2.2.trans first
  · rw [List.all_map, List.all_eq_true]
    exact fun c member => (toLower_schemeChar (List.all_eq_true.mp all c member)).1

section Parse
variable {net : Net} {lead scheme netloc rest s : Str} {url : Url}

theorem splitScheme_lead (known : Lead lead scheme) (more : Str) :
    splitScheme (lead ++ more) = (scheme, "//".toList ++ more) := by
  rcases known with ⟨rfl, rfl⟩ | ⟨word, rfl, rfl, first, all⟩
  · unfold splitScheme
    rw [if_neg]
    rintro ⟨-, first, -⟩
    exact absurd first (by simp [before])
  · have plain := isSchemeChar_colon all
    have whole : word ++ "://".toList ++ more = word ++ ':' :: ("//".toList ++ more) := by simp
    unfold splitScheme
    rw [whole, before_append plain, after_append plain]
    exact if_pos ⟨List.mem_append_right _ List.mem_cons_self, first, all⟩

theorem splitNetloc_cut (cut : Cut isDelim netloc rest) : splitNetloc ("//".toList ++ (netloc ++ rest)) = (netloc, rest) := by
  unfold splitNetloc
  have start : "//".toList.isPrefixOf ("//".toList ++ (netloc ++ rest)) = true :=
    List.isPrefixOf_iff_prefix.mpr (List.prefix_append _ _)
  have two : ("//".toList ++ (netloc ++ rest)).drop 2 = netloc ++ rest := rfl
  rw [if_pos start, two, cut.takeWhile, cut.dropWhile]

theorem urlparse_lead (known : Lead lead scheme) (cut : Cut isDelim netloc rest) (clean : Clean (lead ++ (netloc ++ rest))) :
    urlparse net (lead ++ (netloc ++ rest)) =
      if net.refused netloc then .error .valueError else .ok (assemble scheme netloc rest) := by
  unfold urlparse
  rw [cleaned_of_clean clean, splitScheme_lead known]
  dsimp only
  rw [splitNetloc_cut cut]

theorem splitScheme_eq (s : Str) :
    (splitScheme s = ([], s)) ∨ ∃ word, s = word ++ ':' :: (splitScheme s).2 ∧ (splitScheme s).1 = word.map Char.toLower ∧
      word.head?.any Char.isAlpha = true ∧ word.all isSchemeChar = true := by
  unfold splitScheme
  dsimp only
  split
  · next known =>
    exact .inr ⟨before ':' s, (eq_before_after known.1).1, rfl, known.2⟩
  · exact .inl rfl

theorem splitNetloc_some (some_ : (splitNetloc s).1 ≠ []) :
    s = "//".toList ++ ((splitNetloc s).1 ++ (splitNetloc s).2) ∧ Cut isDelim (splitNetloc s).1 (splitNetloc s).2 := by
  unfold splitNetloc at some_ ⊢
  split at some_
  · next start =>
    obtain ⟨rest, rfl⟩ := List.isPrefixOf_iff_prefix.mp start
    have two : ("//".toList ++ rest).drop 2 = rest := rfl
    rw [if_pos start, two]
    exact ⟨by rw [List.takeWhile_append_dropWhile], Cut.of_while rest⟩
  · exact absurd rfl some_

/-- A URL with a network location stands in one piece in the text it was read from. -/
theorem urlparse_ok (clean : Clean s) (ok : urlparse net s = .ok url) (some_ : url.netloc ≠ []) :
    ∃ lead rest, s = lead ++ (url.netloc ++ rest) ∧ Lead lead url.scheme ∧ Cut isDelim url.netloc rest ∧
      url = assemble url.scheme url.netloc rest ∧ net.refused url.netloc = false := by
  unfold urlparse at ok
  rw [cleaned_of_clean clean] at ok
  dsimp only at ok
  split at ok
  · cases ok
  · next accepted =>
    cases ok
    dsimp only [assemble] at some_ ⊢
    obtain ⟨whole, cut⟩ := splitNetloc_some some_
    rcases splitScheme_eq s with none_ | ⟨word, split_, scheme, known⟩
    · exact ⟨"//".toList, _, (congrArg Prod.snd none_).symm.trans whole, .inl ⟨rfl, congrArg Prod.fst none_⟩, cut, rfl,
        Bool.eq_false_iff.mpr accepted⟩
    · refine ⟨word ++ "://".toList, _, ?_, .inr ⟨word, rfl, scheme, known⟩, cut, rfl, Bool.eq_false_iff.mpr accepted⟩
      rw [whole] at split_
      rw [List.append_assoc]
      exact split_

/-- The scheme of a URL and its network location can stand in front of another rest. -/
theorem urlparse_parts (ok : urlparse net s = .ok url) (some_ : url.scheme ≠ []) :
    Lead (url.scheme ++ "://".toList) url.scheme ∧ ∀ c ∈ url.netloc, isDelim c = false := by
  unfold urlparse at ok
  dsimp only at ok
  split at ok
  · cases ok
  · cases ok
    dsimp only [assemble] at some_ ⊢
    constructor
    · rcases splitScheme_eq (cleaned s) with none_ | ⟨word, -, scheme, first, all⟩
      · rw [none_] at some_
        exact absurd rfl some_
      · rw [scheme]
        exact lead_lower first all
    · intro c member
      have some_ : (splitNetloc (splitScheme (cleaned s)).2).1 ≠ [] := List.ne_nil_of_mem member
      exact (splitNetloc_some some_).2.plain c member

end Parse
end Sarracenia.Library.Urls
