import Sarracenia.Guarantees.V02.Address
import Sarracenia.Library.Number

/-!
# The size and the times in a notice of version 2

The size is told among the parts, and the times without their letter.
-/
namespace Sarracenia.Guarantees.V02
open Library Library.Text Library.Dynamic Source Source.TimeNotation Source.PostFormat Source.V2Wrapper Source.Export

/-! ## Numbers -/

section Number

theorem number_plain (i : Int) : ',' ∉ (numberKey i).toList := by
  intro member
  rcases Decimal.toString_plain i ',' member with same | digit
  · cases same
  · cases digit

theorem decimal_plain {v : Value} {s : Str} (ok : decimal v = .ok s) : ',' ∉ s := by
  cases v with
  | int i =>
    cases ok
    exact number_plain i
  | bool b =>
    cases ok
    exact number_plain _
  | float q =>
    cases ok
    exact number_plain _
  | none | str | list | dict | set | matched => cases ok

theorem int_number (i : Int) : int (numberKey i).toList = .ok i := by
  unfold int numberKey
  rw [Decimal.readInt_toString]
  rfl

/-- The parts of a whole file. -/
theorem sizeParts_split (i : Int) : split [','] ("1,".toList ++ (numberKey i).toList ++ ",1,0,0".toList) =
    [['1'], (numberKey i).toList, ['1'], ['0'], ['0']] := by
  have joined : "1,".toList ++ (numberKey i).toList ++ ",1,0,0".toList =
      join [','] [['1'], (numberKey i).toList, ['1'], ['0'], ['0']] := rfl
  rw [joined]
  refine split_join ',' (List.cons_ne_nil _ _) fun piece member => ?_
  simp only [List.mem_cons, List.not_mem_nil, or_false] at member
  rcases member with rfl | rfl | rfl | rfl | rfl
  · decide
  · exact number_plain i
  all_goals decide

/-- The parts of a file in blocks: their style is no size. -/
theorem blocksParts_split {p : Value} {s : Str} (ok : blocksParts p = .ok s) :
    ∃ style size count remainder number, (style = ['i'] ∨ style = ['p']) ∧
      split [','] s = [style, size, count, remainder, number] := by
  unfold blocksParts at ok
  obtain ⟨method, -, ok⟩ := bind_ok_iff.mp ok
  obtain ⟨⟨remainder, number⟩, -, ok⟩ := bind_ok_iff.mp ok
  obtain ⟨size, -, ok⟩ := bind_ok_iff.mp ok
  obtain ⟨manifest, -, ok⟩ := bind_ok_iff.mp ok
  obtain ⟨count, -, ok⟩ := bind_ok_iff.mp ok
  obtain ⟨size', isSize, ok⟩ := bind_ok_iff.mp ok
  obtain ⟨remainder', isRemainder, ok⟩ := bind_ok_iff.mp ok
  obtain ⟨number', isNumber, ok⟩ := bind_ok_iff.mp ok
  cases ok
  refine ⟨_, _, _, _, _, ?_, split_join ',' (List.cons_ne_nil _ _) fun piece member => ?_⟩
  · split
    · exact .inl rfl
    · exact .inr rfl
  · simp only [List.mem_cons, List.not_mem_nil, or_false] at member
    rcases member with rfl | rfl | rfl | rfl | rfl
    · split <;> decide
    · exact decimal_plain isSize
    · exact number_plain _
    · exact decimal_plain isRemainder
    · exact decimal_plain isNumber

end Number

/-! ## The size -/

section Size
variable {digests : Digests} {msg after : Message} {relPath : Str}

/-- What is told of the size: of blocks their parts, else the size where there is one. -/
theorem parts_sent (headed : v2Headers digests relPath msg = .ok after) :
    (∀ p, msg.get "blocks" = some p → ∃ s, blocksParts p = .ok s ∧ after.get "parts" = some (.str s)) ∧
      (msg.get "blocks" = none → (∀ n, msg.get "size" = some (.int n) →
          after.get "parts" = some (.str ("1,".toList ++ (numberKey n).toList ++ ",1,0,0".toList))) ∧
        (msg.get "size" = none → after.get "parts" = msg.get "parts")) := by
  obtain ⟨mtimed, timed, sized, parted, summed, sumstr, one, two, three, four, five, rfl⟩ := v2Headers_ok headed
  have before (key : String) (mtime : key ≠ "mtime") (atime : key ≠ "atime") : timed.get key = msg.get key := by
    rw [v2Time_frame two atime, v2Time_frame one mtime]
  have blocks : sized.get "blocks" = msg.get "blocks" := by
    rw [v2Size_frame three (by decide) (by decide), before "blocks" (by decide) (by decide)]
  rw [Dict.get_set_ne _ (by decide), sumstr_frame five (by decide), Dict.get_set_ne _ (by decide), ← blocks,
    ← before "size" (by decide) (by decide), ← before "parts" (by decide) (by decide)]
  unfold v2Blocks at four
  refine ⟨fun p here => ?_, fun absent => ?_⟩
  · rw [here] at four
    obtain ⟨s, told, done⟩ := bind_ok_iff.mp four
    cases done
    exact ⟨s, told, Dict.get_set_self _ _ _⟩
  · rw [absent] at four
    cases four
    unfold v2Size at three
    refine ⟨fun n here => ?_, fun none_ => ?_⟩
    · rw [here] at three
      cases three
      exact Dict.get_set_self _ _ _
    · rw [none_] at three
      cases three
      rfl

/-- Parts that are those of blocks say nothing of the size. -/
theorem parts_blocks {p : Value} {s : Str} (ok : blocksParts p = .ok s) (here : msg.get "parts" = some (.str s)) :
    V02.parts msg = msg.del "parts" := by
  obtain ⟨style, size, count, remainder, number, blocks, pieces⟩ := blocksParts_split ok
  unfold V02.parts
  rw [here]
  dsimp only
  rw [pieces]
  dsimp only
  rw [if_pos blocks]

/-- The size is read from the parts that tell it. -/
theorem parts_size {n : Int} (here : msg.get "parts" = some (.str ("1,".toList ++ (numberKey n).toList ++ ",1,0,0".toList))) :
    V02.parts msg = Dict.del (msg.set "size" (.int n)) "parts" := by
  unfold V02.parts
  rw [here]
  dsimp only
  rw [sizeParts_split]
  dsimp only
  rw [if_neg (by decide), int_number]

theorem parts_absent (absent : msg.get "parts" = none) : V02.parts msg = msg := by
  unfold V02.parts
  rw [absent]

/-- The parts are the only field that a size is read from. -/
theorem parts_read {v : Value} (here : msg.get "parts" = some v) (absent : msg.get "size" = none) :
    (V02.parts msg).get "size" = (V02.parts [("parts", v)]).get "size" := by
  have alone : Dict.get [("parts", v)] "parts" = some v := rfl
  unfold V02.parts
  rw [here, alone]
  cases v with
  | str parts =>
    dsimp only
    split
    · split
      · rw [Dict.get_del_ne _ (by decide), absent]
        rfl
      · split
        · exact absent
        · rw [Dict.get_del_ne _ (by decide), Dict.get_set_self, Dict.get_del_ne _ (by decide), Dict.get_set_self]
    · exact absent
  | none | bool | int | float | list | dict | set | matched => exact absent

theorem parts_int {v : Value} (absent : msg.get "size" = none) (read : (V02.parts msg).get "size" = some v) :
    ∃ n : Int, v = .int n := by
  unfold V02.parts at read
  split at read
  · split at read
    · split at read
      · rw [Dict.get_del_ne _ (by decide), absent] at read
        cases read
      · split at read
        · rw [absent] at read
          cases read
        · rw [Dict.get_del_ne _ (by decide), Dict.get_set_self] at read
          exact ⟨_, (Option.some.inj read).symm⟩
    · rw [absent] at read
      cases read
  · rw [absent] at read
    cases read

/-- The sizes that are kept: of blocks none is, and without one there is nothing among legacy parts
that reads as one. -/
structure SizeKept (msg : Message) : Prop where
  blocks : (msg.get "blocks").isSome = true → msg.get "size" = none
  whole : msg.get "blocks" = none → ∀ v, msg.get "size" = some v → ∃ n : Int, v = .int n
  legacy : msg.get "blocks" = none → msg.get "size" = none →
    ∀ v, msg.get "parts" = some v → (V02.parts [("parts", v)]).get "size" = none

section Kept
variable {event : Message} (headed : v2Headers digests relPath msg = .ok after)
  (told : event.get "parts" = after.get "parts") (absent : event.get "size" = none)
include headed told

theorem parts_gone (kept : SizeKept msg) (none_ : msg.get "parts" = none) : (V02.parts event).get "parts" = none := by
  obtain ⟨ofBlocks, ofSize⟩ := parts_sent headed
  cases blocks : msg.get "blocks" with
  | some p =>
    obtain ⟨s, ok, sent⟩ := ofBlocks p blocks
    rw [parts_blocks ok (told.trans sent), Dict.get_del_self]
  | none =>
    cases size : msg.get "size" with
    | some v =>
      obtain ⟨n, rfl⟩ := kept.whole blocks v size
      rw [parts_size (told.trans ((ofSize blocks).1 n size)), Dict.get_del_self]
    | none =>
      have sent := told.trans (((ofSize blocks).2 size).trans none_)
      rw [parts_absent sent, sent]

include absent

theorem size_kept_iff : (V02.parts event).get "size" = msg.get "size" ↔ SizeKept msg := by
  obtain ⟨ofBlocks, ofSize⟩ := parts_sent headed
  cases blocks : msg.get "blocks" with
  | some p =>
    obtain ⟨s, ok, sent⟩ := ofBlocks p blocks
    rw [parts_blocks ok (told.trans sent), Dict.get_del_ne _ (by decide), absent]
    refine ⟨fun same => ⟨fun _ => same.symm, fun none_ => ?_, fun none_ => ?_⟩, fun kept => (kept.blocks (by rw [blocks]; rfl)).symm⟩
    all_goals
      rw [blocks] at none_
      cases none_
  | none =>
    have noBlocks : ¬ (msg.get "blocks").isSome = true := by
      rw [blocks]
      exact Bool.false_ne_true
    cases size : msg.get "size" with
    | some v =>
      constructor
      · intro same
        refine ⟨fun here => absurd here noBlocks, fun _ v' here => ?_, fun _ none_ => ?_⟩
        · rw [size] at here
          cases here
          exact parts_int absent same
        · rw [size] at none_
          cases none_
      · intro kept
        obtain ⟨n, rfl⟩ := kept.whole blocks v size
        rw [parts_size (told.trans ((ofSize blocks).1 n size)), Dict.get_del_ne _ (by decide), Dict.get_set_self]
    | none =>
      have sent := told.trans ((ofSize blocks).2 size)
      constructor
      · intro same
        refine ⟨fun here => absurd here noBlocks, fun _ v here => ?_, fun _ _ v here => ?_⟩
        · rw [size] at here
          cases here
        · rw [← parts_read (sent.trans here) absent, same]
      · intro kept
        cases parts : msg.get "parts" with
        | none => rw [parts_absent (sent.trans parts), absent]
        | some v => rw [parts_read (sent.trans parts) absent, kept.legacy blocks size v parts]

end Kept
end Size

/-! ## The times -/

section Time
variable {msg after : Message} {field : String} {s : Str}

/-- A time that is read back, with or without a field `t`: the fault of a short one is passed over
where there is such a field. -/
def TimeKept (t : Option Value) (s : Str) : Prop := Stamp s ∨ (s.length ≤ 8 ∧ 'T' ∉ s ∧ t.isSome = true)

theorem time_read (ok : V02.time field msg = .ok after) (here : msg.get field = some (.str (replaceAll ['T'] [] s))) :
    after.get field = some (.str s) ↔ TimeKept (msg.get "t") s := by
  unfold V02.time at ok
  rw [here] at ok
  dsimp only at ok
  unfold TimeKept
  cases read : timev2tov3str (.str (replaceAll ['T'] [] s)) with
  | ok r =>
    have long := timev2tov3str_ok_iff.mp ⟨r, read⟩
    rw [read] at ok
    cases ok
    rw [Dict.get_set_self, ← stamp_iff, read]
    constructor
    · exact fun same => .inl (congrArg Except.ok (Option.some.inj same))
    · rintro (same | ⟨short, plain, -⟩)
      · exact congrArg some (Except.ok.inj same)
      · rw [replaceAll_char_plain 'T' plain] at long
        exact absurd short (Nat.not_le.mpr long)
  | error fault =>
    have short : ¬ 8 < (replaceAll ['T'] [] s).length := fun long => by
      obtain ⟨r, same⟩ := timev2tov3str_ok_iff.mpr long
      rw [read] at same
      cases same
    rw [read] at ok
    cases there : msg.get "t" with
    | none =>
      rw [there] at ok
      cases ok
    | some t =>
      rw [there] at ok
      cases ok
      rw [here]
      constructor
      · intro same
        have whole : s.filter (· ≠ 'T') = s := (filter_T s).symm.trans (Value.str.inj (Option.some.inj same))
        have plain : 'T' ∉ s := fun member => by simpa using List.filter_eq_self.mp whole 'T' member
        rw [replaceAll_char_plain 'T' plain] at short
        exact .inr ⟨Nat.not_lt.mp short, plain, rfl⟩
      · rintro (stamp | ⟨-, plain, -⟩)
        · exact absurd (timev2tov3str_ok_iff.mp ⟨_, stamp_iff.mpr stamp⟩) short
        · rw [replaceAll_char_plain 'T' plain]

theorem time_absent (ok : V02.time field msg = .ok after) (absent : msg.get field = none) : after.get field = none := by
  unfold V02.time at ok
  rw [absent] at ok
  cases ok
  exact absent

/-- A time that has arrived is settled by its own step. -/
theorem settle_time (ok : settle msg = .ok (some after)) (time : field ∈ ["atime", "mtime"]) :
    (msg.get field = none → after.get field = none) ∧ ∀ s, msg.get field = some (.str (replaceAll ['T'] [] s)) →
      (after.get field = some (.str s) ↔ TimeKept (msg.get "t") s) := by
  obtain ⟨atimed, mtimed, one, two, rfl⟩ := settle_ok ok
  simp only [List.mem_cons, List.not_mem_nil, or_false] at time
  rcases time with rfl | rfl
  · rw [parts_frame (by decide) (by decide), event_frame (by decide) (by decide) (by decide) (by decide) (by decide),
      time_frame two (by decide)]
    exact ⟨time_absent one, fun s => time_read one⟩
  · rw [parts_frame (by decide) (by decide), event_frame (by decide) (by decide) (by decide) (by decide) (by decide),
      ← time_frame one (show "mtime" ≠ "atime" by decide), ← time_frame one (show "t" ≠ "atime" by decide)]
    exact ⟨time_absent two, fun s => time_read two⟩

end Time
end Sarracenia.Guarantees.V02
