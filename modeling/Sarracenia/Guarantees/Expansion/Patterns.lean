import Sarracenia.Guarantees.Expansion.Termination
import Sarracenia.Library.Braces

/-!
# Patterns of dates

What the documentation says of dates is said of a text in which the patterns are told apart, and of the date in UTC at the
clock reading that each asks for. The code has a loop for each field; with what has been put in, and what has not, the text
keeps its shape.
-/
namespace Sarracenia.Guarantees.Expansion
open Library Library.Text Library.Decimal Library.Dynamic Library.Rewriting
open Source Source.Config

/-! ## Patterns -/

/-- Fields that may have an offset. -/
inductive Dated where
  | YYYYMMDD | YYYY | MM | JJJ
  deriving DecidableEq

inductive Field where
  | of (d : Dated)
  | DD | HH
  deriving DecidableEq

def Dated.name : Dated → String
  | .YYYYMMDD => "YYYYMMDD"
  | .YYYY => "YYYY"
  | .MM => "MM"
  | .JJJ => "JJJ"

def Dated.format : Dated → Str
  | .YYYYMMDD => "%Y%m%d".toList
  | .YYYY => "%Y".toList
  | .MM => "%m".toList
  | .JJJ => "%j".toList

def Field.name : Field → String
  | .of d => d.name
  | .DD => "DD"
  | .HH => "HH"

def Field.format : Field → Str
  | .of d => d.format
  | .DD => "%d".toList
  | .HH => "%H".toList

inductive TimeUnit where
  | s | m | h | d | w
  deriving DecidableEq

def TimeUnit.letter : TimeUnit → Char
  | .s => 's'
  | .m => 'm'
  | .h => 'h'
  | .d => 'd'
  | .w => 'w'

def TimeUnit.seconds : TimeUnit → ℕ
  | .s => 1
  | .m => 60
  | .h => 60 * 60
  | .d => 60 * 60 * 24
  | .w => 60 * 60 * 24 * 7

/-- `nU`: a number of time units. -/
structure Amount where
  digits : List Nat
  some_ : digits ≠ []
  small : ∀ d ∈ digits, d < 10
  unit : TimeUnit

def Amount.text (a : Amount) : Str := chars a.digits ++ [a.unit.letter]

def Amount.seconds (a : Amount) : ℕ := value a.digits * a.unit.seconds

/-- The sign of an offset. -/
def signOf (past : Bool) : Char := if past then '-' else '+'

/-- What is formatted, behind its `%`: it ends at the first brace, and no other pattern begins in it. -/
structure Format where
  text : Str
  some_ : text ≠ []
  closed : Closed text
  open_ : '}' ∉ text

inductive DatePattern where
  | field (f : Field)
  | ago (d : Dated) (a : Amount)
  | format (body : Format)
  | moved (past : Bool) (a : Amount) (body : Format)
  | unterminated

/-- A pattern as it is written. -/
def DatePattern.text : DatePattern → Str
  | .field f => brace f.name
  | .ago d a => braced (d.name.toList ++ '-' :: a.text)
  | .format body => braced ('%' :: body.text)
  | .moved past a body => braced ('%' :: 'o' :: signOf past :: a.text ++ '%' :: body.text)
  | .unterminated => ['$', '{', '%']

/-- A text with patterns, between which no braces are opened; an unterminated pattern has no end before the next. -/
structure Path where
  first : Str
  rest : List (DatePattern × Str)
  before : Closed first
  behind : ∀ e ∈ rest, Closed e.2
  ends : ∀ e ∈ rest, e.1 = .unterminated → '}' ∉ e.2

def Path.text (p : Path) : Str := fillHoles DatePattern.text p.first p.rest

def Path.patterns (p : Path) : List DatePattern := p.rest.map (·.1)

/-! ## The host -/

/-- A clock, a calendar and its formatter. `zone` is by how much local time is ahead, `mktime` is what `time.mktime` makes of
`time.gmtime()`. -/
structure Host where
  world : World
  strftime : ℚ → Str → Str
  zone : ℚ → ℚ
  mktime : ℚ
  letters : ∀ u : TimeUnit, world.isalpha u.letter = true

theorem letters_alpha (u : TimeUnit) : u.letter.isAlpha = true := by
  cases u <;> decide

variable (h : Host) (o : Options)

/-- The date in local time. -/
def Host.shown (t : ℚ) (format : Str) : Str := h.strftime (t + h.zone t) format

/-- The world as the host shows it to the program. -/
def Host.toWorld : World := { h.world with
  fromtimestamp := fun t => .ok fun format => .ok (h.shown t format)
  strftimeAgo := fun seconds format => .ok (h.shown (h.mktime - seconds) format) }

/-- The clock reading that a pattern asks for. -/
def DatePattern.reading : DatePattern → ℚ
  | .field _ | .format _ | .unterminated => h.world.now + o.varTimeOffset
  | .ago _ a => h.world.now - a.seconds
  | .moved past a _ => if past then h.world.now - a.seconds else h.world.now + a.seconds

/-- How it asks for it to be written. -/
def DatePattern.asked : DatePattern → Str
  | .field f => f.format
  | .ago d _ => d.format
  | .format body | .moved _ _ body => '%' :: body.text
  | .unterminated => []

/-- What is to stand for a pattern: the date in UTC at its own reading of the clock. -/
def DatePattern.value : DatePattern → Str
  | .unterminated => DatePattern.text .unterminated
  | p => h.strftime (p.reading h o) p.asked

/-- The text with the dates put in. -/
def Path.dated (p : Path) : Str := fillHoles (DatePattern.value h o) p.first p.rest

/-- Every pattern is replaced by its date, and everything else is kept. -/
def Dates (message : Message) (p : Path) : Prop :=
  ∃ n, ∀ steps, n ≤ steps → variableExpansion h.toWorld o steps p.text message = .ok (p.dated h o)

/-! ## What the code does at each pattern -/

section Values
variable {h o}

theorem amount_plain (a : Amount) : '$' ∉ a.text ∧ '}' ∉ a.text := by
  have each : ∀ c ∈ a.text, c ≠ '$' ∧ c ≠ '}' := by
    intro c member
    rcases List.mem_append.mp member with digit | unit
    · exact chars_all (P := fun c => c ≠ '$' ∧ c ≠ '}') a.digits a.small (by decide) c digit
    · obtain rfl := List.mem_singleton.mp unit
      cases a.unit <;> decide
  exact ⟨fun there => (each _ there).1 rfl, fun there => (each _ there).2 rfl⟩

/-- A number is told apart from words by its first character. -/
theorem lower_amount (a : Amount) {words : List Str}
    (letters : words.all (fun word => word.head?.all fun c => !(decide ('0' ≤ c) && decide (c ≤ '9'))) = true) :
    lower a.text ∉ words := by
  intro member
  have other := List.all_eq_true.mp letters _ member
  unfold Amount.text at other
  cases digits : a.digits with
  | nil => exact a.some_ digits
  | cons d ds =>
    have each : ∀ d < 10, '0' ≤ (Nat.digitChar d).toLower ∧ (Nat.digitChar d).toLower ≤ '9' := by decide
    obtain ⟨low, high⟩ := each d (a.small d (digits ▸ List.mem_cons_self))
    rw [digits] at other
    have first : (lower (chars (d :: ds) ++ [a.unit.letter])).head? = some (Nat.digitChar d).toLower := rfl
    rw [first, Option.all_some, decide_eq_true low, decide_eq_true high] at other
    cases other

theorem float_chars {ds : List Nat} (small : ∀ d ∈ ds, d < 10) (some_ : ds ≠ []) : float (chars ds) = some (value ds : ℚ) := by
  have read := readFloat_written ds [] [] small nofun nofun some_
  simp only [fractionText, exponentText, List.append_nil] at read
  have plain : strip (chars ds) = chars ds := by
    apply strip_of_no_space
    exact chars_all ds small (by decide)
  unfold float
  rw [plain]
  cases ds with
  | nil => exact absurd rfl some_
  | cons d ds =>
    have each : ∀ d < 10, Nat.digitChar d ≠ '-' ∧ Nat.digitChar d ≠ '+' := by decide
    obtain ⟨minus, plus⟩ := each d (small d List.mem_cons_self)
    split
    · next same => exact absurd (List.cons.inj same).1 minus
    · next same => exact absurd (List.cons.inj same).1 plus
    · rw [read]
      simp [value]

/-- No time unit precedes the last one. -/
theorem firstUnit_none (u : TimeUnit) (s number : Str) (digits : ∀ c ∈ number, '0' ≤ c ∧ c ≤ '9') :
    (firstUnit u.letter s).filter (· ∈ number) = none := by
  have letter : ∀ c ∈ ['m', 'h', 'd', 'y', 'M', 'w'], c ∉ number := by
    intro c there member
    have each : ['m', 'h', 'd', 'y', 'M', 'w'].all (fun c => !(decide ('0' ≤ c) && decide (c ≤ '9'))) = true := by decide
    have other := List.all_eq_true.mp each c there
    obtain ⟨low, high⟩ := digits c member
    rw [decide_eq_true low, decide_eq_true high] at other
    cases other
  rw [Option.filter_eq_none_iff]
  intro c is
  have named : c ∈ ['m', 'h', 'd', 'y', 'M', 'w'] := by
    cases u <;> simp only [TimeUnit.letter, firstUnit] at is <;> (try split at is) <;> (try split at is) <;> cases is <;> decide
  simpa using letter c named

/-- The number of seconds that the code reads. -/
theorem amount_seconds (a : Amount) (default : Option Str) : durationToSeconds h.toWorld a.text default = .ok (a.seconds : ℚ) := by
  have off : lower a.text ∉ ["none".toList, "off".toList, "false".toList] := lower_amount a (by decide)
  have on : lower a.text ∉ ["on".toList, "true".toList] := lower_amount a (by decide)
  have last : a.text.getLast? = some a.unit.letter := List.getLast?_concat
  have number : a.text.dropLast = chars a.digits := List.dropLast_concat
  have digits : ∀ c ∈ chars a.digits, '0' ≤ c ∧ c ≤ '9' := chars_all a.digits a.small (by decide)
  have letter : h.toWorld.isalpha a.unit.letter = true := h.letters a.unit
  have factor : unitSeconds a.unit.letter = (a.unit.seconds : ℚ) := by
    cases a.unit with
    | s => exact Nat.cast_one.symm
    | _ => norm_num [unitSeconds, TimeUnit.letter, TimeUnit.seconds]
  unfold durationToSeconds
  rw [if_neg off, if_neg fun both => on both.2, last]
  dsimp only
  rw [letter, if_pos rfl, number, firstUnit_none a.unit _ _ digits, float_chars a.small a.some_, factor]
  dsimp only [Option.elim]
  rw [zero_add, Amount.seconds, Nat.cast_mul]

/-! ### Names and values -/

/-- The name in the braces of a pattern. -/
def DatePattern.inner : DatePattern → Str
  | .field f => f.name.toList
  | .ago d a => d.name.toList ++ '-' :: a.text
  | .format body => '%' :: body.text
  | .moved past a body => '%' :: 'o' :: signOf past :: a.text ++ '%' :: body.text
  | .unterminated => []

theorem text_eq {p : DatePattern} (ended : p ≠ .unterminated) : p.text = braced p.inner := by
  cases p with
  | unterminated => exact absurd rfl ended
  | _ => rfl

theorem value_eq {p : DatePattern} (ended : p ≠ .unterminated) : p.value h o = h.strftime (p.reading h o) p.asked := by
  cases p with
  | unterminated => exact absurd rfl ended
  | _ => rfl

theorem inner_closed {p : DatePattern} : Closed p.inner := by
  cases p with
  | field f =>
    apply closed_of_not_mem
    cases f with
    | of d => cases d <;> decide
    | _ => decide
  | ago d a =>
    apply Closed.after (by cases d <;> decide)
    apply closed_of_not_mem
    simpa using (amount_plain a).1
  | format body => exact Closed.after (a := ['%']) (by decide) body.closed
  | moved past a body =>
    have offset : '$' ∉ '%' :: 'o' :: signOf past :: a.text := by cases past <;> simp [signOf, amount_plain a]
    have format : Closed ('%' :: body.text) := Closed.after (a := ['%']) (by decide) body.closed
    exact Closed.after offset format
  | unterminated => exact closed_of_not_mem nofun

theorem inner_open {p : DatePattern} : '}' ∉ p.inner := by
  cases p with
  | field f =>
    cases f with
    | of d => cases d <;> decide
    | _ => decide
  | ago d a =>
    have name : '}' ∉ d.name.toList := by cases d <;> decide
    simp [DatePattern.inner, name, amount_plain a]
  | format body => simp [DatePattern.inner, body.open_]
  | moved past a body => cases past <;> simp [DatePattern.inner, signOf, amount_plain a, body.open_]
  | unterminated => exact nofun

/-- The field that a name is. -/
theorem inner_field {p : DatePattern} {f : Field} (ended : p ≠ .unterminated) (same : p.inner = f.name.toList) : p = .field f := by
  cases p with
  | field f' =>
    congr 1
    revert same
    cases f' with
    | of d => cases f with
      | of d' => cases d <;> cases d' <;> decide
      | _ => cases d <;> decide
    | _ => cases f with
      | of d' => cases d' <;> decide
      | _ => decide
  | ago d a =>
    have sign : '-' ∉ f.name.toList := by
      cases f with
      | of d => cases d <;> decide
      | _ => decide
    exact absurd (same ▸ List.mem_append_right _ List.mem_cons_self) sign
  | format body | moved past a body =>
    have sign : '%' ∉ f.name.toList := by
      cases f with
      | of d => cases d <;> decide
      | _ => decide
    exact absurd (same ▸ List.mem_cons_self) sign
  | unterminated => exact absurd rfl ended

/-- No pattern has a name like those of other variables. -/
theorem inner_other {p : DatePattern} {name : Str} (ended : p ≠ .unterminated) (fields : ∀ f : Field, f.name.toList ≠ name)
    (sign : '-' ∉ name) (percent : '%' ∉ name) : p.inner ≠ name := by
  rintro rfl
  cases p with
  | field f => exact fields f rfl
  | ago d a => exact sign (List.mem_append_right _ List.mem_cons_self)
  | format body | moved past a body => exact percent List.mem_cons_self
  | unterminated => exact absurd rfl ended

/-! ### Stages -/

variable (h o) in
/-- What stands for a pattern when some have been replaced. -/
def partly (S : DatePattern → Bool) (p : DatePattern) : Str := if S p then p.value h o else p.text

/-- Fields of some names, and offsets of some, and the formats once all fields are. -/
def settled (fields : List Field) (stamps : Bool) (offsets : List Dated) : DatePattern → Bool
  | .field f => decide (f ∈ fields)
  | .ago d _ => decide (d ∈ offsets)
  | .format _ | .moved _ _ _ => stamps
  | .unterminated => false

variable {S : DatePattern → Bool} {first : Str} {rest : List (DatePattern × Str)}

theorem partly_cases {p : DatePattern} (ended : p ≠ .unterminated) :
    p.value h o = partly h o S p ∧ S p = true ∨ partly h o S p = braced p.inner ∧ S p = false := by
  unfold partly
  cases is : S p with
  | true => exact .inl ⟨rfl, rfl⟩
  | false => exact .inr ⟨text_eq ended, rfl⟩

/-- A loop for another variable does nothing. -/
theorem other_kept (ended : ∀ e ∈ rest, e.1 ≠ .unterminated) (closed : Closed (fillHoles (DatePattern.value h o) first rest))
    {name : String}
    (fields : ∀ f : Field, f.name ≠ name) (sign : '-' ∉ name.toList) (percent : '%' ∉ name.toList) (end_ : '}' ∉ name.toList) :
    occurs (brace name) (fillHoles (partly h o S) first rest) = false := by
  refine occurs_fill name.toList end_ closed fun e member => ?_
  rcases partly_cases (h := h) (o := o) (S := S) (ended e member) with ⟨there, -⟩ | ⟨is, -⟩
  · exact .inl there
  · refine .inr ⟨_, is, inner_closed, inner_open, ?_⟩
    exact inner_other (ended e member) (fun f same => fields f (String.toList_inj.mp same)) sign percent

/-- The loop of a field replaces the field. -/
theorem field_replaced (ended : ∀ e ∈ rest, e.1 ≠ .unterminated) (closed : Closed (fillHoles (DatePattern.value h o) first rest))
    (f : Field) (done : List Field) :
    replaceAll (brace f.name) (DatePattern.value h o (.field f)) (fillHoles (partly h o (settled done false [])) first rest) =
      fillHoles (partly h o (settled (f :: done) false [])) first rest := by
  have keep (p : DatePattern) (other : p ≠ .field f) : settled (f :: done) false [] p = settled done false [] p := by
    cases p with
    | field f' =>
      have differ : f' ≠ f := fun same => other (congrArg DatePattern.field same)
      simp [settled, differ]
    | _ => rfl
  refine replaceAll_fill f.name.toList (inner_open (p := .field f)) closed fun e member => ?_
  by_cases hit : e.1 = .field f
  · have now : settled (f :: done) false [] (.field f) = true := by simp [settled]
    have filled : partly h o (settled (f :: done) false []) (.field f) = DatePattern.value h o (.field f) := by
      unfold partly
      rw [now, if_pos rfl]
    rw [hit]
    rcases partly_cases (h := h) (o := o) (S := settled done false []) (hit ▸ ended e member) with ⟨there, before⟩ | ⟨is, -⟩
    · refine .inl ⟨there, ?_⟩
      rw [filled, partly, before, if_pos rfl]
    · exact .inr ⟨_, is, inner_closed, inner_open, .inl ⟨rfl, filled⟩⟩
  · have same : partly h o (settled (f :: done) false []) e.1 = partly h o (settled done false []) e.1 := by
      unfold partly
      rw [keep e.1 hit]
    rcases partly_cases (h := h) (o := o) (S := settled done false []) (ended e member) with ⟨there, -⟩ | ⟨is, -⟩
    · exact .inl ⟨there, same⟩
    · exact .inr ⟨_, is, inner_closed, inner_open, .inr ⟨fun named => hit (inner_field (ended e member) named), same⟩⟩

theorem substitute_gone {once : Bool} {pattern s : Str} {value : Except Fault Str} (steps : Nat) (gone : occurs pattern s = false) :
    substitute once pattern value steps s = .ok s := by
  cases steps with
  | zero => simp [substitute, gone]
  | succ steps => simp [substitute, gone]

theorem substitute_all {pattern s v : Str} (steps : Nat) (gone : occurs pattern (replaceAll pattern v s) = false) :
    substitute false pattern (.ok v) (steps + 1) s = .ok (replaceAll pattern v s) := by
  cases there : occurs pattern s with
  | false => rw [substitute_gone _ there, replaceAll_of_not_occurs there]
  | true =>
    rw [substitute, if_pos there]
    exact substitute_gone steps gone

/-- After the loop of a field, in local time. -/
theorem field_loop (ended : ∀ e ∈ rest, e.1 ≠ .unterminated) (closed : Closed (fillHoles (DatePattern.value h o) first rest))
    (f : Field) (done : List Field)
    (utc : ∀ e ∈ rest, e.1 = .field f → h.shown (h.world.now + o.varTimeOffset) f.format = DatePattern.value h o (.field f))
    (steps : Nat) : substitute false (brace f.name) (.ok (h.shown (h.world.now + o.varTimeOffset) f.format)) (steps + 1)
        (fillHoles (partly h o (settled done false [])) first rest) =
      .ok (fillHoles (partly h o (settled (f :: done) false [])) first rest) := by
  have gone (S : DatePattern → Bool) (none_ : ∀ e ∈ rest, S e.1 = false → e.1 ≠ .field f) :
      occurs (brace f.name) (fillHoles (partly h o S) first rest) = false := by
    refine occurs_fill f.name.toList (inner_open (p := .field f)) closed fun e member => ?_
    rcases partly_cases (h := h) (o := o) (S := S) (ended e member) with ⟨there, -⟩ | ⟨is, open_⟩
    · exact .inl there
    · exact .inr ⟨_, is, inner_closed, inner_open, fun same => none_ e member open_ (inner_field (ended e member) same)⟩
  by_cases present : ∃ e ∈ rest, e.1 = .field f
  · obtain ⟨e, member, is⟩ := present
    have after := field_replaced (h := h) (o := o) ended closed f done
    rw [utc e member is, substitute_all, after]
    rw [after]
    apply gone
    rintro e - open_ is
    rw [is] at open_
    simp [settled] at open_
  · have none_ : ∀ e ∈ rest, e.1 ≠ .field f := fun e member is => present ⟨e, member, is⟩
    rw [substitute_gone _ (gone _ fun e member _ => none_ e member)]
    refine congrArg Except.ok (fillHoles_congr fun e member => ?_)
    have same : settled (f :: done) false [] e.1 = settled done false [] e.1 := by
      cases is : e.1 with
      | field f' =>
        have differ : f' ≠ f := fun same => none_ e member (is.trans (congrArg DatePattern.field same))
        simp [settled, differ]
      | _ => rfl
    unfold partly
    rw [same]

end Values

end Sarracenia.Guarantees.Expansion
