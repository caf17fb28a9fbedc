import Mathlib.Data.List.Flatten
import Sarracenia.Library.Text

/-!
# Percent encoding

A text is quoted byte by byte of its UTF-8 form; what is quoted is ASCII without white
space, and unquoting gives the text back. Bytes that are no UTF-8 are decoded by
`replacing`, which is left open.
-/
namespace Sarracenia.Library.Percent
open Text

def utf8Bytes (s : Str) : List UInt8 := s.flatMap String.utf8EncodeChar

def decodeUtf8 (bytes : List UInt8) : Option Str :=
  bytes.toByteArray.utf8Decode?.map Array.toList

/-- The characters that stand for themselves. -/
def safe : Str :=
  "ABCDEFGHIJKLMNOPQRSTUVWXYZabcdefghijklmnopqrstuvwxyz0123456789_.-~/".toList

def hexDigit (n : Nat) : Char := Char.ofNat (if n < 10 then 48 + n else 55 + n)

def hexValue (c : Char) : Option Nat :=
  if '0' ≤ c ∧ c ≤ '9' then some (c.toNat - 48)
  else if 'A' ≤ c ∧ c ≤ 'F' then some (c.toNat - 55)
  else if 'a' ≤ c ∧ c ≤ 'f' then some (c.toNat - 87)
  else none

def quoteByte (b : UInt8) : Str :=
  match safe.find? fun c => c.toNat = b.toNat with
  | some c => [c]
  | none => ['%', hexDigit (b.toNat / 16), hexDigit (b.toNat % 16)]

def quote (s : Str) : Str := (utf8Bytes s).flatMap quoteByte

/-- The bytes an ASCII text stands for; a percent sign without two digits is one itself. -/
def unquoteBytes : Str → List UInt8
  | '%' :: a :: b :: s =>
    match hexValue a, hexValue b with
    | some x, some y => UInt8.ofNat (16 * x + y) :: unquoteBytes s
    | _, _ => 37 :: unquoteBytes (a :: b :: s)
  | c :: s => UInt8.ofNat c.toNat :: unquoteBytes s
  | [] => []

section Unquote
variable (replacing : List UInt8 → Str)

def unquoteAscii (run : Str) : Str :=
  let bytes := unquoteBytes run
  (decodeUtf8 bytes).getD (replacing bytes)

/-- Each run of ASCII characters is unquoted on its own; `run` is the one being read. -/
def unquoteFrom (run : Str) : Str → Str
  | [] => unquoteAscii replacing run
  | c :: s =>
    if c.toNat < 128 then unquoteFrom (run ++ [c]) s
    else unquoteAscii replacing run ++ c :: unquoteFrom [] s

def unquote (s : Str) : Str := if '%' ∈ s then unquoteFrom replacing [] s else s

end Unquote

theorem decodeUtf8_utf8Bytes (s : Str) : decodeUtf8 (utf8Bytes s) = some s := by
  have encoded : (utf8Bytes s).toByteArray = s.utf8Encode := rfl
  rw [decodeUtf8, encoded, List.utf8Decode?_utf8Encode]
  rfl

theorem hexValue_hexDigit : ∀ n < 16, hexValue (hexDigit n) = some n := by decide

theorem unquoteBytes_cons {c : Char} (s : Str) (plain : c ≠ '%') :
    unquoteBytes (c :: s) = UInt8.ofNat c.toNat :: unquoteBytes s := by
  rw [unquoteBytes]
  intro a b t same
  exact absurd same plain

theorem safe_plain : ∀ c ∈ safe, c ≠ '%' ∧ c.toNat < 128 ∧ isSpace c = false := by
  have all : safe.all fun c => decide (c ≠ '%' ∧ c.toNat < 128 ∧ isSpace c = false) := by decide
  intro c member
  exact of_decide_eq_true (List.all_eq_true.mp all c member)

theorem unquoteBytes_quoteByte (b : UInt8) (s : Str) :
    unquoteBytes (quoteByte b ++ s) = b :: unquoteBytes s := by
  unfold quoteByte
  split
  · next c found =>
    have same : c.toNat = b.toNat := by simpa using List.find?_some found
    have plain := (safe_plain c (List.mem_of_find?_eq_some found)).1
    rw [List.singleton_append, unquoteBytes_cons s plain, same, UInt8.ofNat_toNat]
  · have small : b.toNat < 256 := b.toNat_lt
    have high := hexValue_hexDigit (b.toNat / 16) (by omega)
    have low := hexValue_hexDigit (b.toNat % 16) (by omega)
    have whole : 16 * (b.toNat / 16) + b.toNat % 16 = b.toNat := by omega
    simp only [List.cons_append, List.nil_append, unquoteBytes, high, low]
    rw [whole, UInt8.ofNat_toNat]

theorem unquoteBytes_quote (s : Str) : unquoteBytes (quote s) = utf8Bytes s := by
  unfold quote
  induction utf8Bytes s with
  | nil => rfl
  | cons b bytes ih => rw [List.flatMap_cons, unquoteBytes_quoteByte, ih]

/-- What is quoted is ASCII without white space. -/
theorem quote_plain (s : Str) : ∀ c ∈ quote s, c.toNat < 128 ∧ isSpace c = false := by
  have digits : ∀ n < 16, (hexDigit n).toNat < 128 ∧ isSpace (hexDigit n) = false := by decide
  intro c member
  obtain ⟨b, -, member⟩ := List.mem_flatMap.mp member
  unfold quoteByte at member
  split at member
  · next d found =>
    rw [List.mem_singleton.mp member]
    exact (safe_plain d (List.mem_of_find?_eq_some found)).2
  · have small : b.toNat < 256 := b.toNat_lt
    simp only [List.mem_cons, List.not_mem_nil, or_false] at member
    rcases member with rfl | rfl | rfl
    · decide
    · exact digits _ (by omega)
    · exact digits _ (by omega)

theorem unquoteFrom_ascii (replacing : List UInt8 → Str) (run s : Str)
    (ascii : ∀ c ∈ s, c.toNat < 128) :
    unquoteFrom replacing run s = unquoteAscii replacing (run ++ s) := by
  induction s generalizing run with
  | nil => rw [unquoteFrom, List.append_nil]
  | cons c s ih =>
    rw [unquoteFrom, if_pos (ascii c List.mem_cons_self),
      ih _ fun d member => ascii d (List.mem_cons_of_mem c member), List.append_assoc]
    rfl

theorem unquoteAscii_quote (replacing : List UInt8 → Str) (s : Str) :
    unquoteAscii replacing (quote s) = s := by
  rw [unquoteAscii, unquoteBytes_quote, decodeUtf8_utf8Bytes]
  rfl

/-- Without a percent sign an ASCII text stands for itself. -/
theorem unquoteBytes_plain (s : Str) (plain : '%' ∉ s) :
    unquoteBytes s = s.map fun c => UInt8.ofNat c.toNat := by
  induction s with
  | nil => rfl
  | cons c s ih =>
    rw [List.mem_cons, not_or] at plain
    rw [unquoteBytes_cons s (Ne.symm plain.1), ih plain.2, List.map_cons]

theorem utf8Bytes_ascii (s : Str) (ascii : ∀ c ∈ s, c.toNat < 128) :
    utf8Bytes s = s.map fun c => UInt8.ofNat c.toNat := by
  unfold utf8Bytes
  induction s with
  | nil => rfl
  | cons c s ih =>
    have small : c.val.toNat ≤ 0x7f := Nat.le_of_lt_succ (ascii c List.mem_cons_self)
    have one : String.utf8EncodeChar c = [UInt8.ofNat c.toNat] := by
      simp only [String.utf8EncodeChar, small, if_true]
      rfl
    rw [List.flatMap_cons, one, ih fun d member => ascii d (List.mem_cons_of_mem c member)]
    rfl

theorem unquote_quote (replacing : List UInt8 → Str) (s : Str) :
    unquote replacing (quote s) = s := by
  have ascii : ∀ c ∈ quote s, c.toNat < 128 := fun c member => (quote_plain s c member).1
  have read := unquoteAscii_quote replacing s
  unfold unquote
  split
  · rw [unquoteFrom_ascii replacing [] _ ascii, List.nil_append, read]
  · next plain =>
    calc quote s = unquoteAscii replacing (quote s) := by
          rw [unquoteAscii, unquoteBytes_plain _ plain, ← utf8Bytes_ascii _ ascii,
            decodeUtf8_utf8Bytes, Option.getD_some]
      _ = s := read

theorem quote_eq_nil_iff (s : Str) : quote s = [] ↔ s = [] := by
  constructor
  · intro nothing
    rw [← unquote_quote (fun _ => []) s, nothing]
    rfl
  · intro nothing
    rw [nothing]
    rfl

end Sarracenia.Library.Percent
