import Sarracenia.Library.Text
import Mathlib.Data.Rat.Defs

/-!
# Dynamically typed values

Values of a dynamic language, dictionaries keyed by strings, and the exceptions
their partial operations raise. A computation that may raise is an `Except`; the
lemmas here invert its success, so that a proof about a long function peels one
operation off at a time.
-/
namespace Sarracenia.Library.Dynamic
open Text

/-- The exceptions a partial operation can raise. `diverges` is the outcome of a
loop that does not end within the steps it was given. -/
inductive Fault where
  | keyError | typeError | valueError | indexError | attributeError | nameError
  | osError | reError | diverges
  deriving DecidableEq, Repr

inductive Value where
  | none
  | bool (b : Bool)
  | int (i : Int)
  | float (q : ℚ)
  | str (s : Str)
  | list (vs : List Value)
  | dict (entries : List (String × Value))
  | set (members : List String)
  | matched (groups : List (Option Str))
  deriving Repr

abbrev Dict (ν : Type) := List (String × ν)

def Dict.get {ν : Type} (d : Dict ν) (key : String) : Option ν := d.lookup key

/-- Assignment keeps the place of a key that is there and appends a new one. -/
def Dict.set {ν : Type} : Dict ν → String → ν → Dict ν
  | [], key, v => [(key, v)]
  | (k, w) :: d, key, v => if k = key then (k, v) :: d else (k, w) :: Dict.set d key v

def Dict.del {ν : Type} (d : Dict ν) (key : String) : Dict ν := d.filter (·.1 ≠ key)

section Dict
variable {ν : Type} (d : Dict ν)

@[simp] theorem Dict.get_nil (key : String) : Dict.get ([] : Dict ν) key = Option.none := rfl

theorem Dict.get_cons (k key : String) (v : ν) :
    Dict.get ((k, v) :: d) key = if key = k then some v else Dict.get d key := by
  unfold Dict.get
  rw [List.lookup_cons]
  by_cases same : key = k
  · simp [same]
  · have apart : (key == k) = false := by simpa using same
    rw [apart, if_neg same]

@[simp] theorem Dict.get_set_self (key : String) (v : ν) : (d.set key v).get key = some v := by
  induction d with
  | nil => simp [Dict.set, Dict.get_cons]
  | cons entry d ih =>
    obtain ⟨k, w⟩ := entry
    rw [Dict.set]
    split
    · next same => rw [Dict.get_cons, if_pos same.symm]
    · next other => rw [Dict.get_cons, if_neg (Ne.symm other), ih]

@[simp] theorem Dict.get_set_ne {a b : String} (other : a ≠ b) (v : ν) :
    (d.set b v).get a = d.get a := by
  induction d with
  | nil => simp [Dict.set, Dict.get_cons, other]
  | cons entry d ih =>
    obtain ⟨k, w⟩ := entry
    rw [Dict.set]
    split
    · next same =>
      subst same
      rw [Dict.get_cons, Dict.get_cons, if_neg other, if_neg other]
    · rw [Dict.get_cons, Dict.get_cons, ih]

@[simp] theorem Dict.get_del_self (key : String) : (d.del key).get key = Option.none := by
  induction d with
  | nil => rfl
  | cons entry d ih =>
    obtain ⟨k, w⟩ := entry
    by_cases same : k = key
    · simpa [Dict.del, same] using ih
    · have keep : Dict.del ((k, w) :: d) key = (k, w) :: Dict.del d key := by simp [Dict.del, same]
      rw [keep, Dict.get_cons, if_neg (Ne.symm same), ih]

@[simp] theorem Dict.get_del_ne {a b : String} (other : a ≠ b) : (d.del b).get a = d.get a := by
  induction d with
  | nil => rfl
  | cons entry d ih =>
    obtain ⟨k, w⟩ := entry
    by_cases same : k = b
    · subst same
      have drop : Dict.del ((k, w) :: d) k = Dict.del d k := by simp [Dict.del]
      rw [drop, ih, Dict.get_cons, if_neg other]
    · have keep : Dict.del ((k, w) :: d) b = (k, w) :: Dict.del d b := by simp [Dict.del, same]
      rw [keep, Dict.get_cons, Dict.get_cons, ih]

theorem Dict.mem_keys {d : Dict ν} {key : String} {v : ν} (here : d.get key = some v) :
    key ∈ d.map (·.1) := by
  induction d with
  | nil => cases here
  | cons entry d ih =>
    obtain ⟨k, w⟩ := entry
    rw [Dict.get_cons] at here
    split at here
    · next same => exact List.mem_cons.mpr (.inl same)
    · exact List.mem_cons_of_mem _ (ih here)

end Dict

/-- `d[key]`. -/
def Dict.item {ν : Type} (d : Dict ν) (key : String) : Except Fault ν :=
  match d.get key with
  | some v => .ok v
  | Option.none => .error .keyError

def Value.asStr : Value → Except Fault Str
  | .str s => .ok s
  | _ => .error .typeError

/-- `v == s` for a text. -/
def Value.equals (s : Str) : Value → Bool
  | .str t => t = s
  | _ => false

/-- A number, as comparisons and sums take it. -/
def Value.asNumber : Value → Except Fault ℚ
  | .int i => .ok i
  | .float q => .ok q
  | .bool b => .ok (if b then 1 else 0)
  | _ => .error .typeError

/-- Whether a condition takes the value for true. -/
def Value.truthy : Value → Bool
  | .none => false
  | .bool b => b
  | .int i => i ≠ 0
  | .float q => q ≠ 0
  | .str s => !s.isEmpty
  | .list vs => !vs.isEmpty
  | .dict entries => !entries.isEmpty
  | .set members => !members.isEmpty
  | .matched _ => true

/-- `key in v`. -/
def Value.has (key : String) : Value → Except Fault Bool
  | .str s => .ok (occurs key.toList s)
  | .list vs => .ok (vs.any (·.equals key.toList))
  | .dict entries => .ok (Dict.get entries key).isSome
  | .set members => .ok (decide (key ∈ members))
  | _ => .error .typeError

/-- `v[key]` for a string key. -/
def Value.item (key : String) : Value → Except Fault Value
  | .dict entries => Dict.item entries key
  | .matched _ => .error .indexError
  | _ => .error .typeError

/-- `v[key] = x`. -/
def Value.setItem (v : Value) (key : String) (x : Value) : Except Fault Value :=
  match v with
  | .dict entries => .ok (.dict (Dict.set entries key x))
  | _ => .error .typeError

/-- `vs[v]`, where a negative index counts from the end. -/
def index {α : Type} (vs : List α) (v : Value) : Except Fault α :=
  let at_ (i : Int) : Except Fault α :=
    let i := if i < 0 then i + vs.length else i
    if i < 0 then .error .indexError else (vs[i.toNat]?).elim (.error .indexError) .ok
  match v with
  | .int i => at_ i
  | .bool b => at_ b.toNat
  | _ => .error .typeError

section Success
variable {ε α β : Type}

/-- A bind succeeds exactly when both of its steps do. -/
theorem bind_ok_iff {step : Except ε α} {next : α → Except ε β} {value : β} :
    (step >>= next) = .ok value ↔ ∃ x, step = .ok x ∧ next x = .ok value := by
  cases step with
  | error e => simp [bind, Except.bind]
  | ok x => simp [bind, Except.bind]

theorem map_ok_iff {step : Except ε α} {f : α → β} {value : β} : step.map f = .ok value ↔ ∃ x, step = .ok x ∧ f x = value := by
  cases step with
  | error e => simp [Except.map]
  | ok x => simp [Except.map]

/-- The continuation of a `do` stands in each branch. -/
theorem bind_ite (c : Prop) [Decidable c] (yes no : Except ε α) (next : α → Except ε β) :
    (if c then yes >>= next else no >>= next) = (if c then yes else no) >>= next := by
  split <;> rfl

end Success

theorem Dict.item_ok_iff {ν : Type} {d : Dict ν} {key : String} {v : ν} : d.item key = .ok v ↔ d.get key = some v := by
  unfold Dict.item
  cases d.get key with
  | none => simp
  | some w => simp

end Sarracenia.Library.Dynamic
