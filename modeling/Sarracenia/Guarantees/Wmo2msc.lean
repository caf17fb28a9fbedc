import Sarracenia.Source.Wmo2msc

/-!
# What a bulletin is converted to

Every file is converted as a text: the marks of the other formats are not recognised. The others come out right if and only
if the rules for texts leave them as they should be.
-/
namespace Sarracenia.Guarantees.Wmo2msc
open Library Library.Text Library.Dynamic
open Source.Transfer (Bytes)
open Source.Wmo00 (Files ascii decode)
open Source.Wmo2msc

section Blanks
variable {b : Bytes} {c : UInt8}

/-- From the right: a blank is left out where a newline comes next. -/
def withoutBlanks (b : Bytes) : Bytes :=
  b.foldr (fun c rest => if c = blank ∧ rest.head? = some newline then rest else c :: rest) []

/-- No blank stands before a newline. -/
def Trimmed (b : Bytes) : Prop := ¬ [blank, newline] <:+: b

theorem withoutBlanks_head (b : Bytes) :
    (withoutBlanks b).head? = some newline ↔ (b.dropWhile (· = blank)).head? = some newline := by
  induction b with
  | nil => rfl
  | cons c b ih =>
    change (if c = blank ∧ (withoutBlanks b).head? = some newline then withoutBlanks b else c :: withoutBlanks b).head? = _ ↔ _
    by_cases blank_ : c = blank
    · rw [List.dropWhile_cons_of_pos (by simpa using blank_), ← ih]
      by_cases next : (withoutBlanks b).head? = some newline
      · rw [if_pos ⟨blank_, next⟩]
      · rw [if_neg fun both => next both.2, blank_]
        exact iff_of_false (fun same => absurd (Option.some.inj same) (by decide)) next
    · rw [List.dropWhile_cons_of_neg (by simpa using blank_), if_neg fun both => blank_ both.1]
      rfl

theorem trim_eq (b : Bytes) : trim b = withoutBlanks b := by
  induction b with
  | nil => rfl
  | cons c b ih =>
    rw [trim, ih]
    simp only [← withoutBlanks_head]
    rfl

theorem trim_length_le (b : Bytes) : (trim b).length ≤ b.length := by
  induction b with
  | nil => exact Nat.le_refl 0
  | cons c b ih =>
    rw [trim]
    split
    · exact Nat.le_succ_of_le ih
    · exact Nat.succ_le_succ ih

theorem trim_of_length (same : (trim b).length = b.length) : trim b = b := by
  induction b with
  | nil => rfl
  | cons c b ih =>
    rw [trim] at same ⊢
    split at same
    · have le := trim_length_le b
      rw [same, List.length_cons] at le
      omega
    · next stays => rw [if_neg stays, ih (Nat.succ.inj same)]

theorem infix_of_run (next : (b.dropWhile (· = blank)).head? = some newline) : [blank, newline] <:+: blank :: b := by
  induction b with
  | nil => cases next
  | cons c b ih =>
    by_cases blank_ : c = blank
    · rw [List.dropWhile_cons_of_pos (by simpa using blank_)] at next
      rw [blank_]
      exact (ih next).trans (List.suffix_cons blank _).isInfix
    · rw [List.dropWhile_cons_of_neg (by simpa using blank_)] at next
      rw [Option.some.inj next]
      exact ⟨[], b, rfl⟩

/-- A text is left as it is if and only if no blank stands before a newline. -/
theorem trim_eq_self_iff (b : Bytes) : trim b = b ↔ Trimmed b := by
  constructor
  · rintro same ⟨x, y, rfl⟩
    induction x with
    | nil =>
      have shorter := trim_length_le (newline :: y)
      rw [List.nil_append, List.cons_append, trim, if_pos ⟨rfl, rfl⟩] at same
      change trim (newline :: y) = blank :: newline :: y at same
      rw [same] at shorter
      exact absurd shorter (Nat.not_succ_le_self _)
    | cons c x ih =>
      rw [List.cons_append, List.cons_append, trim] at same
      split at same
      · have shorter := trim_length_le (x ++ [blank, newline] ++ y)
        rw [same] at shorter
        exact absurd shorter (Nat.not_succ_le_self _)
      · exact ih (List.cons.inj same).2
  · intro trimmed
    induction b with
    | nil => rfl
    | cons c b ih =>
      rw [trim, if_neg, ih fun inner => trimmed (inner.trans (List.suffix_cons c b).isInfix)]
      rintro ⟨rfl, next⟩
      exact trimmed (infix_of_run next)

theorem trim_subset (b : Bytes) : ∀ c ∈ trim b, c ∈ b := by
  induction b with
  | nil => exact nofun
  | cons d b ih =>
    rw [trim]
    intro c member
    split at member
    · exact List.mem_cons_of_mem d (ih c member)
    · rcases List.mem_cons.mp member with rfl | later
      · exact List.mem_cons_self
      · exact List.mem_cons_of_mem d (ih c later)

end Blanks

section Rules
variable {line : Str} {b : Bytes} {c : UInt8} {r : Replacement}

/-- What the rules for a first line say of a character. -/
def rule (line : Str) (c : UInt8) : Bytes := ((made line).find? (·.oldchar = c)).elim [c] (·.newchar)

/-- What is put for a character is not replaced again. -/
theorem replaced_once (rs : List Replacement) (stable : ∀ r ∈ rs, ∀ c ∈ r.newchar, ∀ r' ∈ rs, r'.oldchar ≠ c) (b : Bytes) :
    rs.foldl (fun bintxt r => replaceChar r.oldchar r.newchar bintxt) b =
      b.flatMap fun c => (rs.find? (·.oldchar = c)).elim [c] (·.newchar) := by
  induction rs generalizing b with
  | nil => exact (List.flatMap_singleton' b).symm
  | cons r rs ih =>
    have rest : ∀ r' ∈ rs, ∀ c ∈ r'.newchar, ∀ r'' ∈ rs, r''.oldchar ≠ c := fun r' member c there r'' member' =>
      stable r' (List.mem_cons_of_mem r member) c there r'' (List.mem_cons_of_mem r member')
    rw [List.foldl_cons, ih rest, replaceChar, List.flatMap_assoc]
    refine List.flatMap_congr fun c _ => ?_
    by_cases old : c = r.oldchar
    · rw [if_pos old, List.find?_cons_of_pos (by simpa using old.symm), Option.elim_some]
      have kept : r.newchar.flatMap (fun c => (rs.find? (·.oldchar = c)).elim [c] (·.newchar)) = r.newchar.flatMap fun c => [c] := by
        refine List.flatMap_congr fun d new => ?_
        rw [List.find?_eq_none.mpr, Option.elim_none]
        intro r' member
        simpa using stable r List.mem_cons_self d new r' (List.mem_cons_of_mem r member)
      rw [kept, List.flatMap_singleton']
    · rw [if_neg old, List.find?_cons_of_neg (by simpa using Ne.symm old), List.flatMap_singleton]

theorem made_mem (member : r ∈ made line) : r ∈ replacements := List.mem_of_mem_filter member

theorem text_rules (line : Str) (b : Bytes) : doSpecificProcessing line b = withoutBlanks (b.flatMap (rule line)) := by
  have stable : replacements.all (fun r => r.newchar.all fun c => replacements.all fun r' => r'.oldchar != c) = true := by decide
  have once := replaced_once (made line) (fun r member c there r' member' => by
    have apart := List.all_eq_true.mp (List.all_eq_true.mp (List.all_eq_true.mp stable r (made_mem member)) c there) r' (made_mem member')
    simpa using apart) b
  rw [doSpecificProcessing, once, trim_eq]
  rfl

theorem rule_length (line : Str) (c : UInt8) : (rule line c).length ≤ 1 := by
  have short : replacements.all (fun r => decide (r.newchar.length ≤ 1)) = true := by decide
  unfold rule
  cases found : (made line).find? (·.oldchar = c) with
  | none => exact Nat.le_refl 1
  | some r => exact of_decide_eq_true (List.all_eq_true.mp short r (made_mem (List.mem_of_find?_eq_some found)))

/-- Carriage returns are always left out. -/
theorem rule_return (line : Str) : rule line CR = [] := by
  have gone : replacements.all (fun r => r.oldchar != CR || r.newchar.isEmpty) = true := by decide
  have every : (⟨.every, CR, []⟩ : Replacement) ∈ made line := List.mem_filter.mpr ⟨by simp [replacements], rfl⟩
  unfold rule
  cases found : (made line).find? (·.oldchar = CR) with
  | none => exact absurd (List.find?_eq_none.mp found _ every) (by simp)
  | some r =>
    have old := List.find?_some found
    have new := List.all_eq_true.mp gone r (made_mem (List.mem_of_find?_eq_some found))
    rw [of_decide_eq_true old] at new
    simpa using new

end Rules

section Formats
variable {line : Str} {input b : Bytes} {α β : Type}

/-- Pieces that are not longer, put together to the same, are the same. -/
theorem flatMap_eq_iff {f g : α → List β} (le : ∀ x, (f x).length ≤ (g x).length) (l : List α) :
    (l.flatMap f).length ≤ (l.flatMap g).length ∧ (l.flatMap f = l.flatMap g ↔ ∀ x ∈ l, f x = g x) := by
  induction l with
  | nil => exact ⟨Nat.le_refl 0, iff_of_true rfl nofun⟩
  | cons x l ih =>
    obtain ⟨shorter, same⟩ := ih
    have head := le x
    rw [List.flatMap_cons, List.flatMap_cons, List.length_append, List.length_append, List.forall_mem_cons, ← same]
    refine ⟨Nat.add_le_add head shorter, fun all => ?_, fun both => by rw [both.1, both.2]⟩
    have lengths := congrArg List.length all
    rw [List.length_append, List.length_append] at lengths
    exact List.append_inj all (by omega)

theorem filter_flatMap (b : Bytes) : b.filter (· ≠ CR) = b.flatMap fun c => if c = CR then [] else [c] := by
  induction b with
  | nil => rfl
  | cons c b ih =>
    rw [List.flatMap_cons, ← ih]
    by_cases return_ : c = CR
    · rw [if_pos return_, List.filter_cons_of_neg (by simpa using return_), List.nil_append]
    · rw [if_neg return_, List.filter_cons_of_pos (by simpa using return_), List.singleton_append]

/-- A text comes out without its carriage returns, and as it was else, if and only if no rule is for a character of it and
no blank stands before a newline. -/
theorem text_iff (line : Str) (b : Bytes) : doSpecificProcessing line b = b.filter (· ≠ CR) ↔
    (∀ c ∈ b, c = CR ∨ rule line c = [c]) ∧ Trimmed (b.filter (· ≠ CR)) := by
  have le (c : UInt8) : (rule line c).length ≤ (if c = CR then [] else [c] : Bytes).length := by
    by_cases return_ : c = CR
    · rw [return_, rule_return]
      exact Nat.zero_le _
    · rw [if_neg return_]
      exact rule_length line c
  obtain ⟨shorter, same⟩ := flatMap_eq_iff le b
  have each : (∀ c ∈ b, rule line c = if c = CR then [] else [c]) ↔ ∀ c ∈ b, c = CR ∨ rule line c = [c] := by
    refine forall₂_congr fun c _ => ?_
    by_cases return_ : c = CR
    · rw [if_pos return_, return_, rule_return]
      exact iff_of_true rfl (.inl rfl)
    · rw [if_neg return_, or_iff_right return_]
  rw [← filter_flatMap] at same shorter
  rw [text_rules, ← trim_eq, ← each, ← same, ← trim_eq_self_iff]
  constructor
  · intro text
    have less := trim_length_le (b.flatMap (rule line))
    have lengths := congrArg List.length text
    have stays := trim_of_length (b := b.flatMap (rule line)) (by omega)
    have whole := stays.symm.trans text
    exact ⟨whole, whole ▸ stays⟩
  · rintro ⟨whole, stays⟩
    rw [whole, stays]

theorem erase_twice_count (b : Bytes) : ((b.erase CR).erase CR).count CR = b.count CR - 2 := by
  rw [List.count_erase_self, List.count_erase_self]
  omega

/-- The first two carriage returns are all of them. -/
theorem two_returns_iff (b : Bytes) : (b.erase CR).erase CR = b.filter (· ≠ CR) ↔ b.count CR ≤ 2 := by
  have filtered (b : Bytes) : (b.erase CR).filter (· ≠ CR) = b.filter (· ≠ CR) := by
    induction b with
    | nil => rfl
    | cons c b ih =>
      by_cases return_ : c = CR
      · rw [return_, List.erase_cons_head, List.filter_cons_of_neg (by simp)]
      · rw [List.erase_cons_tail (by simpa using return_), List.filter_cons_of_pos (by simpa using return_), ih,
          List.filter_cons_of_pos (by simpa using return_)]
  rw [← filtered b, ← filtered (b.erase CR), eq_comm, List.filter_eq_self, ← Nat.sub_eq_zero_iff_le, ← erase_twice_count, List.count_eq_zero]
  constructor
  · intro all member
    simpa using all CR member
  · intro absent c member
    exact decide_eq_true fun (same : c = CR) => absent (same ▸ member)

end Formats

section Claim
variable (o : Options) (md5 computeIdentity : Bytes → Str) (stamp : Message → Str) (links : Str → Str → Bool)

/-- `BUFR`, `GRIB` and `\x89PNG` -/
def formats : List Bytes := [[66, 85, 70, 82], [71, 82, 73, 66], [0x89, 80, 78, 71]]

/-- The four bytes behind the first line tell a binary product. -/
def Binary (input : Bytes) : Prop := (input.drop (readline input).length).take 4 ∈ formats

/-- The first line starts with `SFUK45 EGRR`. -/
def Coded (input : Bytes) : Prop := (readline input).take 11 = [83, 70, 85, 75, 52, 53, 32, 69, 71, 82, 82]

instance : DecidablePred Binary := fun _ => inferInstanceAs (Decidable (_ ∈ _))
instance : DecidablePred Coded := fun _ => inferInstanceAs (Decidable (_ = _))

/-- What a file should be converted to. -/
def expected (input : Bytes) : Bytes :=
  if Binary input then input.filter (· ≠ CR)
  else if Coded input then (input.erase CR).erase CR
  else withoutBlanks (input.flatMap (rule (decode (readline input))))

/-- The message on the file is converted: what should be is written, and of that are the sum and the size. -/
def Converts (w : Worklist) (message : Message) (path : Str) (input : Bytes) : Prop :=
  ∃ converted, convert o md5 computeIdentity stamp links w.files message path input = .ok (some converted) ∧
    converted.files converted.output_file = some (expected input) ∧ converted.message.identity = computeIdentity (expected input) ∧
    converted.message.size = (expected input).length ∧
    one o md5 computeIdentity stamp links w message = (announced o converted.output_file converted.message).map fun message =>
      { w with files := converted.files, new_ok := w.new_ok ++ [message] }

/-- There is a heading; a binary product has no character for which there is a rule but carriage returns, and no blanks before
its newlines; nor has one with the other mark such blanks, or more than two carriage returns. -/
structure Handled (input : Bytes) : Prop where
  heading : 18 ≤ (AHLfn (readline input)).length
  binary : Binary input →
    (∀ c ∈ input, c = CR ∨ rule (decode (readline input)) c = [c]) ∧ Trimmed (input.filter (· ≠ CR))
  coded : ¬ Binary input → Coded input → input.count CR ≤ 2 ∧ Trimmed (input.filter (· ≠ CR))

variable {o md5 computeIdentity stamp links} {input : Bytes} {w : Worklist} {message : Message} {path : Str}

/-- No mark is recognised. -/
theorem transformed_text (on : o.filter_wmo2msc_convert = true) (line body bintxt : Bytes) :
    transformed o line body bintxt = doSpecificProcessing (decode line) bintxt := by
  unfold transformed
  rw [if_neg (by simp [equals]), if_neg (by simp [equals]), if_pos on]

theorem made_congr {line other : Str} (same : line.take 4 = other.take 4) : made line = made other := by
  have two : line.take 2 = other.take 2 := by
    have both := congrArg (List.take 2) same
    rwa [List.take_take, List.take_take] at both
  have each (h : Headings) : h.has line = h.has other := by
    cases h with
    | ahl2 list => rw [Headings.has, Headings.has, two]
    | ahl4 list => rw [Headings.has, Headings.has, same]
    | every => rfl
  unfold made
  exact List.filter_congr fun r _ => each r.headings

/-- For that mark there is no rule but the one for carriage returns. -/
theorem coded_rules (coded : Coded input) (c : UInt8) : rule (decode (readline input)) c = if c = CR then [] else [c] := by
  have start : (decode (readline input)).take 4 = "SFUK".toList.take 4 := by
    have bytes := congrArg (List.take 4) coded
    rw [List.take_take, show min 4 11 = 4 from rfl] at bytes
    rw [decode, ← List.map_take, bytes]
    decide
  have only : made "SFUK".toList = [⟨.every, CR, []⟩] := rfl
  rw [rule, made_congr start, only]
  by_cases return_ : c = CR
  · rw [if_pos return_, List.find?_cons_of_pos (by simpa using return_.symm), Option.elim_some]
  · rw [if_neg return_, List.find?_cons_of_neg (by simpa using Ne.symm return_), List.find?_nil, Option.elim_none]

theorem coded_iff (coded : Coded input) : doSpecificProcessing (decode (readline input)) input = (input.erase CR).erase CR ↔
    input.count CR ≤ 2 ∧ Trimmed (input.filter (· ≠ CR)) := by
  have text : doSpecificProcessing (decode (readline input)) input = trim (input.filter (· ≠ CR)) := by
    rw [text_rules, trim_eq, filter_flatMap]
    exact congrArg withoutBlanks (List.flatMap_congr fun c _ => coded_rules coded c)
  rw [text, ← two_returns_iff, ← trim_eq_self_iff]
  constructor
  · intro same
    have none_ : CR ∉ (input.erase CR).erase CR := by
      rw [← same]
      intro member
      simpa using List.of_mem_filter (trim_subset _ CR member)
    have few : input.count CR ≤ 2 := by
      rw [← Nat.sub_eq_zero_iff_le, ← erase_twice_count, List.count_eq_zero]
      exact none_
    have all := (two_returns_iff input).mpr few
    exact ⟨all, same.trans all⟩
  · rintro ⟨same, stays⟩
    rw [stays, same]

theorem expected_iff : doSpecificProcessing (decode (readline input)) input = expected input ↔
    (Binary input → (∀ c ∈ input, c = CR ∨ rule (decode (readline input)) c = [c]) ∧ Trimmed (input.filter (· ≠ CR))) ∧
      (¬ Binary input → Coded input → input.count CR ≤ 2 ∧ Trimmed (input.filter (· ≠ CR))) := by
  unfold expected
  by_cases binary : Binary input
  · rw [if_pos binary, text_iff]
    exact ⟨fun both => ⟨fun _ => both, fun other => absurd binary other⟩, fun both => both.1 binary⟩
  · rw [if_neg binary]
    by_cases coded : Coded input
    · rw [if_pos coded, coded_iff coded]
      exact ⟨fun both => ⟨fun is => absurd is binary, fun _ _ => both⟩, fun both => both.2 binary coded⟩
    · rw [if_neg coded]
      exact iff_of_true (text_rules _ _) ⟨fun is => absurd is binary, fun _ is => absurd is coded⟩

theorem ascii_heading (plain : ascii (readline input) = true) : ascii (AHLfn (readline input)) = true := by
  apply List.all_eq_true.mpr
  intro c member
  have inner := (List.dropWhile_sublist _).subset (rstripBy_subset isWhite _ c member)
  obtain ⟨d, there, rfl⟩ := List.mem_map.mp inner
  split
  · decide
  · exact List.all_eq_true.mp plain d there

theorem convert_short (plain : ascii (readline input) = true) (short : (AHLfn (readline input)).length < 18) :
    convert o md5 computeIdentity stamp links w.files message path input = .ok none := by
  unfold convert
  dsimp only
  rw [if_pos (ascii_heading plain), if_pos short]

theorem convert_long (o : Options) (md5 computeIdentity : Bytes → Str) (stamp : Message → Str) (links : Str → Str → Bool) (w : Worklist)
    (message : Message) (path : Str) (on : o.filter_wmo2msc_convert = true) (plain : ascii (readline input) = true)
    (long : 18 ≤ (AHLfn (readline input)).length) :
    ∃ out, convert o md5 computeIdentity stamp links w.files message path input = .ok (some {
      output_file := out
      files := Function.update w.files out (some (doSpecificProcessing (decode (readline input)) input))
      message := { message with
        identity := computeIdentity (doSpecificProcessing (decode (readline input)) input)
        size := (doSpecificProcessing (decode (readline input)) input).length } }) := by
  unfold convert
  dsimp only
  rw [if_pos (ascii_heading plain), if_neg (Nat.not_lt.mpr long), transformed_text on, on]
  exact ⟨_, rfl⟩

theorem converts_text (local_ : input_file o message = some path) (there : w.files path = some input)
    (on : o.filter_wmo2msc_convert = true) (plain : ascii (readline input) = true) (long : 18 ≤ (AHLfn (readline input)).length) :
    Converts o md5 computeIdentity stamp links w message path input ↔
      doSpecificProcessing (decode (readline input)) input = expected input := by
  obtain ⟨out, is⟩ := convert_long o md5 computeIdentity stamp links w message path on plain long
  constructor
  · rintro ⟨converted, is', written, -⟩
    obtain rfl := Option.some.inj (Except.ok.inj (is.symm.trans is'))
    exact Option.some.inj ((Function.update_self out _ w.files).symm.trans written)
  · intro same
    refine ⟨_, is, (Function.update_self out _ w.files).trans (congrArg some same), congrArg computeIdentity same,
      congrArg List.length same, ?_⟩
    unfold one
    rw [local_]
    dsimp only
    rw [there]
    dsimp only
    rw [is]
    rfl

/-- A local file with an ASCII first line is converted as it should be if and only if it is handled. -/
theorem conversion_iff (local_ : input_file o message = some path) (there : w.files path = some input)
    (on : o.filter_wmo2msc_convert = true) (plain : ascii (readline input) = true) :
    Converts o md5 computeIdentity stamp links w message path input ↔ Handled input := by
  by_cases short : (AHLfn (readline input)).length < 18
  · refine iff_of_false ?_ fun handled => absurd short (Nat.not_lt.mpr handled.heading)
    rintro ⟨converted, is, -⟩
    rw [convert_short plain short] at is
    cases is
  · have long := Nat.not_lt.mp short
    rw [converts_text local_ there on plain long, expected_iff]
    exact ⟨fun both => ⟨long, both.1, both.2⟩, fun handled => ⟨handled.binary, handled.coded⟩⟩

/-! ### Two products -/

def msc : Options where
  filter_wmo2msc_uniquify := "hash".toList
  filter_olddir := "wmo".toList
  filter_newdir := "msc".toList
  filter_wmo2msc_treeify := true
  filter_wmo2msc_convert := true
  baseDir := "/data".toList
  post_baseDir := []
  currentDir := []

def onDisk : Message := ⟨"file:".toList, "/data/wmo/a".toList, [], 0, none, none⟩

/-- A text, with a mark that becomes the end of a line behind blanks. -/
def text : Bytes := Source.Wmo00.encode "SXCN37 CWAO 300104\r\r\nGALES  ~ \r\r\n".toList

/-- A binary product, with a blank before a newline. -/
def product : Bytes := Source.Wmo00.encode "ISMA01 LFPW 120000\nBUFR \n".toList

theorem text_converted : Converts msc (fun _ => []) (fun _ => []) (fun _ => []) (fun _ _ => false) ⟨fun _ => some text, [], []⟩ onDisk
    "/data/wmo/a".toList text :=
  (conversion_iff (by decide) rfl rfl (by decide)).mpr
    ⟨by decide, fun binary => absurd binary (by decide), fun _ coded => absurd coded (by decide)⟩

/-- The blank is taken for one at the end of a line. -/
theorem product_cut : ¬ ∀ (o : Options) (md5 computeIdentity : Bytes → Str) (stamp : Message → Str) (links : Str → Str → Bool)
    (w : Worklist) (message : Message) (path : Str) (input : Bytes), input_file o message = some path → w.files path = some input →
    o.filter_wmo2msc_convert = true → ascii (readline input) = true → 18 ≤ (AHLfn (readline input)).length →
      Converts o md5 computeIdentity stamp links w message path input := by
  intro converts
  have long : 18 ≤ (AHLfn (readline product)).length := by decide
  have cut := (converts_text (by decide) rfl rfl (by decide) long).mp (converts msc (fun _ => []) (fun _ => []) (fun _ => [])
    (fun _ _ => false) ⟨fun _ => some product, [], []⟩ onDisk "/data/wmo/a".toList product (by decide) rfl rfl (by decide) long)
  exact absurd (congrArg List.length cut) (by decide)

end Claim
end Sarracenia.Guarantees.Wmo2msc
