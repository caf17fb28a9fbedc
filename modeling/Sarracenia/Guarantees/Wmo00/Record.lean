import Sarracenia.Guarantees.Wmo00.Reading

/-!
# Bulletins read right

A record is read right where its number has five digits and it was enclosed once.
-/
namespace Sarracenia.Guarantees.Wmo00
open Library Library.Decimal
open Library.Text hiding slice split
open Source.Transfer (Bytes)
open Source.Wmo00

namespace Bulletin

/-- With its envelope or without. -/
def content (o : Options) (b : Bulletin) : Bytes := if o.wmo00_encapsulate then b.record else b.payload

/-- The file of a bulletin, named after its own heading. -/
def expected (o : Options) (md5 : Bytes → Str) (b : Bulletin) : Str × Bytes :=
  (fname o (decode b.report.heading) (md5 (b.content o)), b.content o)

/-- A plain one is less than 99987 bytes long, another has a number of five digits, and no outer
header with nulls. -/
def Readable : Bulletin → Prop
  | plain r _ => r.bytes.length + 13 < 10 ^ 5
  | inner number _ _ => number.bytes.length = 5
  | outer number _ nulls _ => number.bytes.length = 5 ∧ nulls = false

end Bulletin

/-! ## Names -/

section Names
variable {o : Options}

/-- The name without the sum. -/
def stem (ahl : Str) : Str :=
  (ahl.map fun c => if c = ' ' then '_' else c) ++ (if ahl.length > 19 then [] else ['_'])

theorem directory_length {a b : Str} (first : 18 ≤ a.length) (second : 18 ≤ b.length) :
    (directory o a).length = (directory o b).length := by
  unfold directory
  split
  · simp only [List.length_append, List.length_cons, Text.slice, List.length_take, List.length_drop]
    omega
  · rfl

theorem stem_of_fname {a b sum : Str} (first : 18 ≤ a.length) (second : 18 ≤ b.length)
    (same : fname o a sum = fname o b sum) : stem a = stem b := by
  obtain ⟨-, names⟩ := List.append_inj same (directory_length first second)
  exact List.append_cancel_right (List.cons.inj names).2

theorem stem_drop {a : Str} (long : 18 ≤ (a.drop 2).length) : stem (a.drop 2) ≠ stem a := by
  intro same
  have lengths := congrArg List.length same
  rw [List.length_drop] at long
  unfold stem at lengths
  simp only [List.length_append, List.length_map, List.length_drop] at lengths
  split_ifs at lengths <;> simp at lengths <;> omega

theorem stem_feed (a : Str) : stem ('\n' :: a) ≠ stem a := by
  intro same
  have counts := congrArg (List.count '\n') same
  have blank (n : Nat) : (if n > 19 then [] else ['_']).count '\n' = 0 := by
    split
    · rfl
    · rfl
  rw [stem, stem, List.map_cons, List.cons_append, List.count_append, List.count_cons, List.count_append, blank, blank] at counts
  simp at counts

end Names

/-! ## Headings -/

section Headings

theorem ahlOf_line {s t : Bytes} (line : CR ∉ s) : ahlOf (s ++ CR :: t) = s := by
  have here : CR ∈ s ++ CR :: t := List.mem_append_right s List.mem_cons_self
  rw [ahlOf, if_pos here]
  have all : ∀ c ∈ s, decide (c ≠ CR) = true := fun c member => decide_eq_true fun same => line (same ▸ member)
  rw [List.takeWhile_append_of_pos all, List.takeWhile_cons_of_neg (by simp), List.append_nil]

theorem digits_line {s : Bytes} (digits : ∀ c ∈ s, digit c = true) : CR ∉ s :=
  fun member => digit_ne (digits CR member) rfl rfl

variable (o : Options) (md5 : Bytes → Str) (opens : Str → Bool) {record s t : Bytes}

/-- A short heading makes no file. -/
theorem bulletin_short (line : CR ∉ s) (short : s.length < 18) (file : Str × Bytes) :
    bulletin o md5 opens record (s ++ CR :: t) ≠ some [file] := by
  unfold bulletin
  dsimp only
  rw [ahlOf_line line, if_pos short]
  split
  · exact fun none_ => by cases none_
  · exact fun none_ => by cases none_

/-- What is announced for a heading that is long enough. -/
theorem bulletin_some {file : Str × Bytes} (line : CR ∉ s)
    (announced : bulletin o md5 opens record (s ++ CR :: t) = some [file]) :
    18 ≤ s.length ∧ file = (fname o (decode s) (md5 (fileContent o record (s ++ CR :: t))), fileContent o record (s ++ CR :: t)) := by
  unfold bulletin at announced
  dsimp only at announced
  rw [ahlOf_line line] at announced
  split at announced
  · split at announced
    · cases announced
    · next long =>
      split at announced
      · obtain ⟨same, -⟩ := List.cons.inj (Option.some.inj announced)
        exact ⟨Nat.not_lt.mp long, same.symm⟩
      · cases announced
  · cases announced

end Headings

/-! ## Records -/

namespace Bulletin
variable (o : Options) (md5 : Bytes → Str) (opens : Str → Bool) {b : Bulletin}

theorem payload_parts (b : Bulletin) : b.payload = b.report.heading ++ CR :: b.report.rest := rfl

/-- Five digits: what is read is the payload. -/
theorem read_five {number payload : Bytes} (five : number.length = 5) : (number ++ crcrlf ++ payload).drop 8 = payload :=
  List.drop_left' (by rw [List.length_append, five]; rfl)

theorem zeros_width (n : Nat) (fits : n < 10 ^ 8) :
    (encode (zeros 5 n)).length = 5 ∨ (encode (zeros 5 n)).length = 6 ∨
      (encode (zeros 5 n)).length = 7 ∨ (encode (zeros 5 n)).length = 8 := by
  have digits := (digitCount_le (w := 8) (by decide)).mpr fits
  rw [encode_length, zeros_length]
  omega

theorem zeros_five (n : Nat) : (encode (zeros 5 n)).length = 5 ↔ n < 10 ^ 5 := by
  rw [encode_length, zeros_length, ← digitCount_le (by decide)]
  omega

/-- More digits: the end of the header comes first. -/
theorem read_wide {number : Bytes} (payload : Bytes) (wide : number.length = 6 ∨ number.length = 7 ∨ number.length = 8) :
    (number ++ crcrlf ++ payload).drop 8 = 10 :: payload ∨
      ∃ more, (number ++ crcrlf ++ payload).drop 8 = CR :: more := by
  rw [List.append_assoc]
  rcases wide with six | seven | eight
  · refine Or.inl ?_
    rw [show 8 = number.length + 2 by omega, ← List.drop_drop, List.drop_left]
    rfl
  · refine Or.inr ⟨10 :: payload, ?_⟩
    rw [show 8 = number.length + 1 by omega, ← List.drop_drop, List.drop_left]
    rfl
  · refine Or.inr ⟨13 :: 10 :: payload, ?_⟩
    rw [List.drop_left' eight]
    rfl

theorem raisedOr_iff {read : Option (List (Str × Bytes))} {file : Str × Bytes} :
    raisedOr read = ([file], false) ↔ read = some [file] := by
  cases read with
  | none => exact iff_of_false nofun nofun
  | some new =>
    constructor
    · intro same
      rw [(Prod.mk.inj same).1]
    · intro same
      rw [Option.some.inj same]
      rfl

theorem body_once (once : ¬ b.Mistaken) : b.body = b.record := by
  rw [body, writtenNumber, writtenPayload, if_neg once, if_neg once]
  rfl

theorem read_once (once : ¬ b.Mistaken) : b.read = (b.number ++ crcrlf ++ b.payload).drop 8 := by
  rw [read, writtenNumber, writtenPayload, if_neg once, if_neg once]

/-- With five digits everything is read as it should be. -/
theorem readOne_five (once : ¬ b.Mistaken) (five : b.number.length = 5) :
    readOne o md5 opens b = ([b.expected o md5], false) ↔ opens (b.expected o md5).1 = true := by
  have long : ¬ b.report.heading.length < 18 := Nat.not_lt.mpr b.report.long
  rw [readOne, raisedOr_iff, read_once once, read_five five, body_once once, payload_parts]
  unfold bulletin
  dsimp only
  rw [ahlOf_line b.report.line, if_pos b.report.ascii, if_neg long]
  change (if opens (b.expected o md5).1 = true then some [b.expected o md5] else none) = _ ↔ _
  split
  · next opened => exact iff_of_true rfl opened
  · next shut => exact iff_of_false nofun shut

/-- A heading that is not the bulletin's own makes another file. -/
theorem other_heading {s t : Bytes} (once : ¬ b.Mistaken) (line : CR ∉ s) (read : b.read = s ++ CR :: t)
    (payload : s ++ CR :: t ≠ b.payload)
    (name : 18 ≤ (decode s).length → stem (decode s) ≠ stem (decode b.report.heading)) :
    readOne o md5 opens b ≠ ([b.expected o md5], false) := by
  intro all
  rw [readOne, raisedOr_iff, read, body_once once] at all
  obtain ⟨long, file⟩ := bulletin_some o md5 opens line all
  obtain ⟨path, contents⟩ := Prod.mk.inj file
  have enough : 18 ≤ (decode s).length := by rwa [decode, List.length_map]
  have own : 18 ≤ (decode b.report.heading).length := by rw [decode, List.length_map]; exact b.report.long
  cases encapsulate : o.wmo00_encapsulate with
  | false =>
    rw [content, fileContent, encapsulate] at contents
    exact payload contents.symm
  | true =>
    rw [content, fileContent, encapsulate] at path
    exact name enough (stem_of_fname own enough path).symm

theorem readOne_three (once : ¬ b.Mistaken) (three : b.number.length = 3) :
    readOne o md5 opens b ≠ ([b.expected o md5], false) := by
  have long := b.report.long
  have read : b.read = b.report.heading.drop 2 ++ CR :: b.report.rest := by
    rw [read_once once, payload_parts, show 8 = (b.number ++ crcrlf).length + 2 by rw [List.length_append, three]; rfl,
      ← List.drop_drop, List.drop_left, List.drop_append_of_le_length (by omega)]
  apply other_heading o md5 opens once (fun member => b.report.line (List.mem_of_mem_drop member)) read
  · intro same
    have lengths := congrArg List.length same
    rw [payload_parts, List.length_append, List.length_append, List.length_drop] at lengths
    omega
  · rw [decode, List.map_drop]
    exact stem_drop

theorem readOne_wide (once : ¬ b.Mistaken) (wide : b.number.length = 6 ∨ b.number.length = 7 ∨ b.number.length = 8) :
    readOne o md5 opens b ≠ ([b.expected o md5], false) := by
  rcases read_wide b.payload wide with feed | ⟨more, early⟩
  · have line : CR ∉ 10 :: b.report.heading := fun member =>
      (List.mem_cons.mp member).elim (fun same => by cases same) b.report.line
    apply other_heading o md5 opens once line ((read_once once).trans feed)
    · intro same
      have lengths := congrArg List.length same
      rw [payload_parts, List.length_append, List.length_append, List.length_cons] at lengths
      omega
    · intro _
      exact stem_feed _
  · intro all
    rw [readOne, raisedOr_iff, read_once once, early] at all
    exact bulletin_short o md5 opens (s := []) List.not_mem_nil (by decide) _ all

theorem length_fits (fits : b.Fits) (given : b.writtenNumber = encode (zeros 5 (b.writtenPayload.length + 13))) :
    b.writtenPayload.length + 13 < 10 ^ 8 := by
  have size : b.body.length < 10 ^ 8 := fits
  rw [body, enclosed_length, given, encode_length, zeros_length] at size
  omega

/-- Enclosed once more, it has no heading where one is looked for. -/
theorem readOne_mistaken (mistaken : b.Mistaken) (fits : b.Fits) : readOne o md5 opens b ≠ ([b.expected o md5], false) := by
  have given : b.writtenNumber = encode (zeros 5 (b.bytes.length + 13)) := if_pos mistaken
  have twice : b.writtenPayload = b.bytes := if_pos mistaken
  have few := length_fits fits (by rw [twice, given])
  obtain ⟨s, more, line, short, start⟩ : ∃ s more, CR ∉ s ∧ s.length = 11 ∧ b.bytes = s ++ CR :: more := by
    cases b with
    | plain r bare => cases mistaken
    | inner number r closed => cases mistaken
    | outer number r nulls size =>
      cases nulls with
      | false => cases mistaken
      | true =>
        refine ⟨encode (pad 8 (enclosed number.bytes r.bytes).length) ++ [0, 0, 1],
          13 :: 10 :: (number.bytes ++ crcrlf ++ r.bytes ++ [ETX]), ?_, ?_, ?_⟩
        · intro member
          rcases List.mem_append.mp member with digits | rest
          · exact digits_line (pad_digits _ _) digits
          · exact absurd rest (by decide)
        · rw [List.length_append, encode_length, pad_length]
          rfl
        · change encode (pad 8 _) ++ identifier true ++ enclosed number.bytes r.bytes = _
          simp [identifier, enclosed, SOH, CR, crcrlf]
  intro all
  rw [readOne, raisedOr_iff, read, given, twice] at all
  rw [twice] at few
  rcases zeros_width _ few with five | wide
  · rw [read_five five, start] at all
    exact bulletin_short o md5 opens line (by omega) _ all
  · rcases read_wide b.bytes wide with feed | ⟨rest, early⟩
    · have fed : CR ∉ 10 :: s := fun member => (List.mem_cons.mp member).elim (fun same => by cases same) line
      rw [feed, start, ← List.cons_append] at all
      exact bulletin_short o md5 opens fed (by rw [List.length_cons, short]; decide) _ all
    · rw [early] at all
      exact bulletin_short o md5 opens (s := []) List.not_mem_nil (by decide) _ all

theorem number_three_or_five (n : Number) : n.bytes.length = 3 ∨ n.bytes.length = 5 := by
  cases n with
  | three a b c => exact Or.inl rfl
  | five a b c d e => exact Or.inr rfl

/-- By the number of digits, for one that was enclosed once. -/
theorem readOne_once (once : ¬ b.Mistaken) (fits : b.Fits)
    (digits : b.number.length = 3 ∨ b.number.length = 5 ∨ b.number = encode (zeros 5 (b.payload.length + 13))) :
    readOne o md5 opens b = ([b.expected o md5], false) ↔ b.number.length = 5 ∧ opens (b.expected o md5).1 = true := by
  rcases digits with three | five | given
  · exact iff_of_false (readOne_three o md5 opens once three) fun five => absurd (three.symm.trans five.1) (by decide)
  · rw [readOne_five o md5 opens once five]
    exact (and_iff_right five).symm
  · have payload : b.writtenPayload = b.payload := if_neg once
    have number : b.writtenNumber = b.number := if_neg once
    have few := length_fits fits (by rw [number, payload, given])
    rw [payload] at few
    rcases zeros_width _ few with five | wide
    · rw [← given] at five
      rw [readOne_five o md5 opens once five]
      exact (and_iff_right five).symm
    · rw [← given] at wide
      exact iff_of_false (readOne_wide o md5 opens once wide) fun five => by omega

theorem readOne_iff (fits : b.Fits) :
    readOne o md5 opens b = ([b.expected o md5], false) ↔ b.Readable ∧ opens (b.expected o md5).1 = true := by
  cases b with
  | plain r bare =>
    rw [readOne_once o md5 opens (b := plain r bare) not_false fits (Or.inr (Or.inr rfl))]
    exact and_congr_left' (zeros_five _)
  | inner number r closed =>
    exact readOne_once o md5 opens not_false fits ((number_three_or_five number).imp_right Or.inl)
  | outer number r nulls size =>
    cases nulls with
    | false =>
      rw [readOne_once o md5 opens (b := outer number r false size) not_false fits ((number_three_or_five number).imp_right Or.inl)]
      exact and_congr_left' (and_iff_left rfl).symm
    | true =>
      refine iff_of_false (readOne_mistaken o md5 opens trivial fits) ?_
      intro ⟨⟨_, nulls⟩, _⟩
      cases nulls

end Bulletin
end Sarracenia.Guarantees.Wmo00
