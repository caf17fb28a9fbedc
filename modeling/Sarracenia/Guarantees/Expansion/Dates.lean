import Sarracenia.Guarantees.Expansion.Stamps

/-!
# Whether dates are put in

The code asks for the local time, lets the first offset of a name decide for all, takes a format with a sign for an offset, and
loses a `${%` that has no end.
-/
namespace Sarracenia.Guarantees.Expansion
open Library Library.Text Library.Decimal Library.Dynamic Library.Rewriting
open Source Source.Config

/-! ## What comes after the dates -/

section After
variable {w : World} {o : Options} {s : Str}

/-- No name in braces, with a dollar sign or not, is that of a setting that raises. -/
def Readable (o : Options) (s : Str) : Prop := '$' ∈ s → ∀ name ∈ (split ['}'] s).filterMap fun part => (split ['{'] part)[1]?,
  ∀ e, o.setting (if name = "PROGRAM".toList then "component".toList else lower name) ≠ some (.error e)

theorem user_kept (closed : Closed s) (name : String) (user : Option (Option Str)) : substituteUser name user s s = .ok s := by
  unfold substituteUser
  rw [show occurs (brace name) s = false from closed.no_name name.toList]

/-- Nothing is substituted where no braces are opened, but the settings are read. -/
theorem varsub_closed (closed : Closed s) (readable : Readable o s) : _varsub w o s = .ok s := by
  unfold _varsub varsubWith
  by_cases plain : '$' ∉ s
  · rw [if_pos plain]
    rfl
  · have none_ (name : String) : occurs (brace name) s = false := closed.no_name name.toList
    rw [if_neg plain, none_, none_, none_]
    refine bind_ok_iff.mpr ⟨s, rfl, bind_ok_iff.mpr ⟨s, user_kept closed _ _, bind_ok_iff.mpr ⟨s, user_kept closed _ _, ?_⟩⟩⟩
    simp only [Bool.false_eq_true, if_false]
    rw [if_neg plain]
    have read := readable (not_not.mp plain)
    generalize (split ['}'] s).filterMap (fun part => (split ['{'] part)[1]?) = names at read ⊢
    induction names with
    | nil => rfl
    | cons name names ih =>
      obtain ⟨here, later⟩ := List.forall_mem_cons.mp read
      have gone (v : Str) : replaceAll ('$' :: '{' :: name ++ ['}']) v s = s := replaceAll_of_not_occurs (closed.no_name name)
      rw [List.foldlM_cons]
      refine bind_ok_iff.mpr ⟨s, ?_, ih later⟩
      cases found : o.setting (if name = "PROGRAM".toList then "component".toList else lower name) with
      | some value =>
        cases value with
        | error e => exact absurd found (here e)
        | ok v => exact congrArg Except.ok (gone v)
      | none =>
        cases o.env name with
        | some v => exact congrArg Except.ok (gone v)
        | none => rfl

theorem fields_closed (closed : Closed s) (message : Message) : expandFields o message s = .ok s := by
  have whole : split ['$', '{'] s = [s] := split_of_not_occurs (normal_iff.mp closed)
  unfold expandFields
  rw [whole]
  cases message.get "_matches" <;> rfl

theorem runLoops_kept {loops : List Loop} (steps : Nat) (kept : ∀ loop ∈ loops, occurs loop.pattern s = false) :
    runLoops steps loops s = .ok s := by
  induction loops with
  | nil => rfl
  | cons loop loops ih =>
    obtain ⟨here, later⟩ := List.forall_mem_cons.mp kept
    exact bind_ok_iff.mpr ⟨s, run_normal (normal_iff.mpr here), ih later⟩

/-- The names that are looked for before the clock is asked. -/
def settingNames : List String := ["BD", "BUP", "baseUrlPath", "BUPL", "baseUrlPathLast", "PBD", "DR", "PDR"]

theorem setting_named {message : Message} :
    ∀ loop ∈ settingLoops w o message, ∃ name ∈ settingNames, loop.pattern = brace name := by
  have option_ (name : String) (value : Option Str) : ∀ loop ∈ optionLoop name value, loop.pattern = brace name := by
    intro loop member
    cases value with
    | none => cases member
    | some v => rw [List.mem_singleton.mp member]
  have url (name : String) (part : Str → Str) (v : Option Value) : ∀ loop ∈ urlLoop w name part v, loop.pattern = brace name := by
    intro loop member
    cases v with
    | none => cases member
    | some v => rw [List.mem_singleton.mp member]
  intro loop member
  simp only [settingLoops, List.mem_append] at member
  rcases member with ((((((member | member) | member) | member) | member) | member) | member) | member
  · exact ⟨"BD", by decide, option_ _ _ loop member⟩
  · exact ⟨"BUP", by decide, url _ _ _ loop member⟩
  · exact ⟨"baseUrlPath", by decide, url _ _ _ loop member⟩
  · exact ⟨"BUPL", by decide, url _ _ _ loop member⟩
  · exact ⟨"baseUrlPathLast", by decide, url _ _ _ loop member⟩
  · exact ⟨"PBD", by decide, option_ _ _ loop member⟩
  · exact ⟨"DR", by decide, option_ _ _ loop member⟩
  · exact ⟨"PDR", by decide, option_ _ _ loop member⟩

theorem other_names : ∀ name ∈ "SOURCE" :: settingNames,
    (∀ f ∈ allFields, f.name ≠ name) ∧ '-' ∉ name.toList ∧ '%' ∉ name.toList ∧ '}' ∉ name.toList := by decide

end After

/-! ## Which texts get their dates -/

variable (h : Host) (o : Options)

/-- No pattern is without an end, and no format begins with a sign; what is written of the local date, at the first offset of the
name, is what is asked for. What is put in opens no braces, and no setting raises that is named in braces. -/
structure Path.Sound (p : Path) : Prop where
  ended : ∀ q ∈ p.patterns, q ≠ .unterminated
  unsigned : ∀ body, .format body ∈ p.patterns → Unsigned body
  utc : ∀ q ∈ p.patterns, (∀ d a, q ≠ .ago d a) → h.shown (q.reading h o) q.asked = h.strftime (q.reading h o) q.asked
  offsets : ∀ d a a', .ago d a ∈ p.patterns → firstOffset d p.rest = some a' →
    h.shown (h.mktime - a'.seconds) d.format = h.strftime (h.world.now - a.seconds) d.format
  closed : Closed (p.dated h o)
  readable : Readable o (p.dated h o)

section Sound
variable {h o} {p : Path} {message : Message} {steps : Nat}

theorem mem_patterns {e : DatePattern × Str} (member : e ∈ p.rest) : e.1 ∈ p.patterns := List.mem_map_of_mem member

theorem Path.Sound.ends (sound : p.Sound h o) : ∀ e ∈ p.rest, e.1 ≠ .unterminated :=
  fun e member => sound.ended e.1 (mem_patterns member)

theorem Path.Sound.shown (sound : p.Sound h o) {e : DatePattern × Str} (member : e ∈ p.rest) (other : ∀ d a, e.1 ≠ .ago d a) :
    h.shown (e.1.reading h o) e.1.asked = e.1.value h o := by
  rw [value_eq (sound.ends e member)]
  exact sound.utc e.1 (mem_patterns member) other

/-- Before anything is put in. -/
theorem text_settled (p : Path) : p.text = fillHoles (partly h o (settled [] false [])) p.first p.rest := by
  refine fillHoles_congr fun e _ => ?_
  cases e.1 <;> rfl

theorem settled_all {q : DatePattern} (ended : q ≠ .unterminated) : settled allFields true [.YYYYMMDD, .JJJ, .MM, .YYYY] q = true := by
  cases q with
  | field f => exact decide_eq_true (all_fields f)
  | ago d a => cases d <;> rfl
  | unterminated => exact absurd rfl ended
  | _ => rfl

/-- When all is put in. -/
theorem dated_settled (sound : p.Sound h o) :
    fillHoles (partly h o (settled allFields true [.YYYYMMDD, .JJJ, .MM, .YYYY])) p.first p.rest = p.dated h o := by
  refine fillHoles_congr fun e member => ?_
  exact if_pos (settled_all (sound.ends e member))

/-- The loops of the fields, with the one for the source among them. -/
theorem stamp_loops (sound : p.Sound h o) :
    runLoops (steps + 1) (stampLoops message fun format => .ok (h.shown (h.world.now + o.varTimeOffset) format)) p.text =
      .ok (fillHoles (partly h o (settled allFields false [])) p.first p.rest) := by
  have field (f : Field) (done : List Field) := field_loop (h := h) (o := o) sound.ends sound.closed f done
    (fun e member is => (congrArg (fun q => h.shown (q.reading h o) q.asked = q.value h o) is).mp
      (sound.shown member fun d a other => by rw [is] at other; cases other)) steps
  have source : occurs (brace "SOURCE") (fillHoles (partly h o (settled [.of .YYYYMMDD] false [])) p.first p.rest) = false := by
    obtain ⟨names, sign, percent, end_⟩ := other_names "SOURCE" List.mem_cons_self
    exact other_kept sound.ends sound.closed (fun f => names f (all_fields f)) sign percent end_
  rw [text_settled (h := h) (o := o) p]
  refine bind_ok_iff.mpr ⟨_, field (.of .YYYYMMDD) [], bind_ok_iff.mpr ⟨_, substitute_gone _ source, ?_⟩⟩
  refine bind_ok_iff.mpr ⟨_, field .DD _, bind_ok_iff.mpr ⟨_, field .HH _, bind_ok_iff.mpr ⟨_, field (.of .YYYY) _, ?_⟩⟩⟩
  exact bind_ok_iff.mpr ⟨_, field (.of .MM) _, bind_ok_iff.mpr ⟨_, field (.of .JJJ) _, rfl⟩⟩

theorem setting_loops (sound : p.Sound h o) : runLoops steps (settingLoops h.toWorld o message) p.text = .ok p.text := by
  refine runLoops_kept steps fun loop member => ?_
  obtain ⟨name, there, pattern⟩ := setting_named loop member
  obtain ⟨names, sign, percent, end_⟩ := other_names name (List.mem_cons_of_mem _ there)
  rw [pattern, text_settled (h := h) (o := o) p]
  exact other_kept sound.ends sound.closed (fun f => names f (all_fields f)) sign percent end_

/-- Formats and offsets, in the order of the code. -/
theorem finish_dates (sound : p.Sound h o) :
    finish h.toWorld o p.text message (fillHoles (partly h o (settled allFields false [])) p.first p.rest) = .ok (p.dated h o) := by
  have stamps := stamps_filled (h := h) (o := o) sound.ends sound.closed
    (fun e member body is => sound.unsigned body (is ▸ mem_patterns member)) fun e member other => sound.shown member other
  have offset (d : Dated) (format : String) (is : format.toList = d.format) (done : List Dated) :
      expandOffset h.toWorld d.name format p.text (fillHoles (partly h o (settled allFields true done)) p.first p.rest) =
        .ok (fillHoles (partly h o (settled allFields true (d :: done))) p.first p.rest) := by
    refine offset_stage sound.ends p.before p.behind sound.closed d done (fun e member a which a' found => ?_) is
    rw [which]
    exact sound.offsets d a a' (which ▸ mem_patterns member) found
  refine bind_ok_iff.mpr ⟨_, stamps, bind_ok_iff.mpr ⟨_, offset .YYYY "%Y" rfl [], bind_ok_iff.mpr ⟨_, offset .MM "%m" rfl _, ?_⟩⟩⟩
  refine bind_ok_iff.mpr ⟨_, offset .JJJ "%j" rfl _, bind_ok_iff.mpr ⟨_, offset .YYYYMMDD "%Y%m%d" rfl _, ?_⟩⟩
  rw [dated_settled sound]
  exact bind_ok_iff.mpr ⟨_, varsub_closed sound.closed sound.readable, fields_closed sound.closed message⟩

theorem text_starts (q : DatePattern) : '$' ∈ q.text := by
  cases q <;> exact List.mem_cons_self

end Sound

/-- In a text of this kind every pattern is replaced by its date, whatever other patterns there are. -/
theorem dates_put_in (p : Path) (message : Message) (sound : p.Sound h o) : Dates h o message p := by
  refine ⟨1, fun steps enough => ?_⟩
  obtain ⟨n, rfl⟩ := Nat.exists_eq_succ_of_ne_zero (Nat.pos_iff_ne_zero.mp enough)
  rw [variableExpansion_eq]
  by_cases plain : '$' ∉ p.text
  · rw [if_pos plain]
    have none_ : p.rest = [] := fillHoles_plain text_starts plain
    exact congrArg Except.ok (fillHoles_congr fun e member => absurd (none_ ▸ member) List.not_mem_nil)
  · rw [if_neg plain]
    refine bind_ok_iff.mpr ⟨_, bind_ok_iff.mpr ⟨_, setting_loops sound, bind_ok_iff.mpr ⟨_, rfl, stamp_loops sound⟩⟩, finish_dates sound⟩

/-- Noon of the third day, in UTC. -/
def noon : Host where
  world := { Filter.quietWorld with now := 216000 }
  strftime t format :=
    if format = "%Y%m%d".toList then (if t < 172800 then "19700102" else "19700103").toList
    else (if t < 216000 then "11" else "12").toList
  zone _ := 0
  mktime := 216000
  letters := letters_alpha

/-- `${YYYYMMDD-1d}/${HH}/${%o-1h%H}`. -/
def lastDay : List (DatePattern × Str) :=
  [(.ago .YYYYMMDD ⟨[1], by decide, by decide, .d⟩, ['/']), (.field .HH, ['/']),
    (.moved true ⟨[1], by decide, by decide, .h⟩ ⟨['H'], by decide, closed_of_not_mem (by decide), by decide⟩, [])]

theorem lastDay_plain : ∀ e ∈ lastDay, '$' ∉ e.2 ∧ e.1 ≠ .unterminated ∧ ∀ body, e.1 ≠ .format body := by
  simp [lastDay]

def yesterday : Path where
  first := ['/']
  rest := lastDay
  before := closed_of_not_mem (by decide)
  behind e member := closed_of_not_mem (lastDay_plain e member).1
  ends e member lost := absurd lost (lastDay_plain e member).2.1

theorem lastDay_first : ∀ e ∈ lastDay, ∀ d a, e.1 = .ago d a → ∀ a', firstOffset d lastDay = some a' → a' = a := by
  simp only [lastDay, List.forall_mem_cons]
  refine ⟨?_, nofun, nofun, nofun⟩
  rintro d a is a' found
  cases is
  exact (Option.some.inj found).symm

theorem noon_shown (t : ℚ) (format : Str) : noon.shown t format = noon.strftime t format :=
  congrArg (noon.strftime · format) (add_zero t)

theorem yesterday_closed : Closed (yesterday.dated noon Filter.noOptions) := by
  apply closed_of_not_mem
  have digits (t : ℚ) (format : Str) : '$' ∉ noon.strftime t format := by
    unfold noon
    dsimp only
    split <;> split <;> decide
  refine fillHoles_without (by decide) fun e member => ?_
  obtain ⟨plain, ended, -⟩ := lastDay_plain e member
  rw [value_eq ended]
  exact ⟨digits _ _, plain⟩

theorem yesterday_put_in : Dates noon Filter.noOptions [] yesterday := by
  apply dates_put_in
  exact {
    ended := by
      intro q member
      obtain ⟨e, there, rfl⟩ := List.mem_map.mp member
      exact (lastDay_plain e there).2.1
    unsigned := by
      intro body member
      obtain ⟨e, there, is⟩ := List.mem_map.mp member
      exact absurd is ((lastDay_plain e there).2.2 body)
    utc := fun q _ _ => noon_shown _ _
    offsets := by
      intro d a a' member found
      obtain ⟨e, there, is⟩ := List.mem_map.mp member
      rw [noon_shown, lastDay_first e there d a is a' found]
      rfl
    closed := yesterday_closed
    readable := fun _ _ _ _ => nofun }

def noEnd : List (DatePattern × Str) := [(.unterminated, ['Y'])]

theorem noEnd_plain : ∀ e ∈ noEnd, '$' ∉ e.2 ∧ '}' ∉ e.2 := by
  simp [noEnd]

/-- `/x/${%Y`. -/
def lost : Path where
  first := "/x/".toList
  rest := noEnd
  before := closed_of_not_mem (by decide)
  behind e member := closed_of_not_mem (noEnd_plain e member).1
  ends e member _ := (noEnd_plain e member).2

/-- The opening of what has no end is taken out. -/
theorem unterminated_lost : ¬ ∀ (h : Host) (o : Options) (message : Message) (p : Path), Dates h o message p := by
  intro all
  obtain ⟨n, put⟩ := all noon Filter.noOptions [] lost
  have run : variableExpansion noon.toWorld Filter.noOptions (n + 1) lost.text [] = .ok "/x/Y".toList := rfl
  have same := Except.ok.inj (run.symm.trans (put (n + 1) (Nat.le_succ n)))
  exact absurd same (by decide)

end Sarracenia.Guarantees.Expansion
