import Sarracenia.Guarantees.Expansion.Patterns

/-!
# Formats and offsets

The code takes what is behind `${%` to pieces, up to the next one, and looks for offsets in the option as it was given: the first
of a name decides for all.
-/
namespace Sarracenia.Guarantees.Expansion
open Library Library.Text Library.Decimal Library.Dynamic Library.Rewriting
open Source Source.Config

section Stamps
variable {h : Host} {o : Options} {first : Str} {rest : List (DatePattern × Str)}

/-! ## Formats -/

variable {w : World} {c : Char} {s X v : Str}

def stampOpening : Str := ['$', '{', '%']

theorem expandStamps_of {head : Str} {fragments : List Str} (is : split stampOpening s = head :: fragments) :
    expandStamps w o s = (fragments.mapM (expandFragment w o)).map fun vs => head ++ vs.flatten := by
  unfold expandStamps
  rw [show split ['$', '{', '%'] s = head :: fragments from is]
  dsimp only
  cases fragments.mapM (expandFragment w o) with
  | error e => rfl
  | ok vs => rfl

theorem stamps_cons (other : stampOpening.isPrefixOf (c :: s) = false) :
    expandStamps w o (c :: s) = (expandStamps w o s).map ([c] ++ ·) := by
  obtain ⟨piece, rest, pieces, longer⟩ := splitFrom_cons stampOpening other
  rw [expandStamps_of longer, expandStamps_of pieces]
  cases rest.mapM (expandFragment w o) with
  | error e => rfl
  | ok vs => rfl

theorem stamps_skip (c : Char) (s : Str) (other : ¬ Text.opening <+: c :: s) :
    expandStamps w o (c :: s) = (expandStamps w o s).map ([c] ++ ·) := by
  apply stamps_cons
  rw [Bool.eq_false_iff]
  intro starts
  exact other (List.IsPrefix.trans ⟨['%'], rfl⟩ (List.isPrefixOf_iff_prefix.mp starts))

/-- A format, and what follows it up to the next. -/
theorem stamps_format (closed : Closed X) (formatted : ∀ after, expandFragment w o (X ++ '}' :: after) = .ok (v ++ after)) :
    expandStamps w o (braced ('%' :: X) ++ s) = (expandStamps w o s).map (v ++ ·) := by
  have inside : ∀ a b : Str, X ++ ['}'] = a ++ b → b ≠ [] → stampOpening.isPrefixOf (b ++ s) = false := by
    intro a b same some_
    rw [Bool.eq_false_iff]
    intro starts
    cases b with
    | nil => exact some_ rfl
    | cons d b =>
      obtain ⟨rfl, behind⟩ := List.cons_prefix_cons.mp (List.isPrefixOf_iff_prefix.mp starts)
      have whole : Closed (a ++ '$' :: b) := same ▸ closed.behind.right (a := ['{'])
      cases b with
      | nil =>
        have last : ['}'] = ['$'] := List.append_inj_right' same rfl
        exact absurd last (by decide)
      | cons d b =>
        obtain ⟨rfl, -⟩ := List.cons_prefix_cons.mp behind
        exact whole.right ⟨[], b, rfl⟩
  obtain ⟨head, tail, is, longer⟩ := split_append inside
  have shape : braced ('%' :: X) ++ s = stampOpening ++ (X ++ ['}'] ++ s) := by simp [braced, stampOpening]
  have pieces := (split_starts (by decide : stampOpening ≠ []) (X ++ ['}'] ++ s)).trans (congrArg _ longer)
  have turn := formatted head
  rw [shape, expandStamps_of pieces, expandStamps_of is, List.mapM_cons]
  rw [show X ++ ['}'] ++ head = X ++ '}' :: head by simp, turn]
  cases tail.mapM (expandFragment w o) with
  | error e => rfl
  | ok vs => simp [Except.map, bind, Except.bind, pure, Except.pure]

/-- What is not taken for an offset. -/
def Unsigned (body : Format) : Prop := ∀ c, body.text.head? = some c → c ≠ '+' ∧ c ≠ '-' ∧ c ≠ 'o'

theorem slice_front (a b : Str) : slice (a ++ b) 0 a.length = a := by
  unfold slice
  rw [List.drop_zero, Nat.sub_zero, List.take_left]

/-- What is formatted of a fragment whose offset is known. -/
theorem fragment_stamped {seconds : ℚ} {start : Nat} {after : Str} (open_ : '}' ∉ X) (some_ : X ≠ [])
    (stamp : stampFragment w o (X ++ '}' :: after) = .ok (seconds, start)) {format : Str → Except Fault Str}
    (here : w.fromtimestamp (w.now + seconds) = .ok format) (shown : format ('%' :: slice (X ++ '}' :: after) start X.length) = .ok v) :
    expandFragment w o (X ++ '}' :: after) = .ok (v ++ after) := by
  have back : (X ++ '}' :: after).drop (X.length + 1) = after := by
    rw [← List.drop_drop, List.drop_left]
    rfl
  have length : ∃ n, X.length = n + 1 := Nat.exists_eq_succ_of_ne_zero (List.length_pos_iff.mpr some_).ne'
  obtain ⟨n, is⟩ := length
  refine bind_ok_iff.mpr ⟨_, stamp, bind_ok_iff.mpr ⟨_, here, ?_⟩⟩
  rw [find_cut open_]
  rw [is] at shown back ⊢
  exact bind_ok_iff.mpr ⟨v, shown, congrArg (fun rest => (Except.ok (v ++ rest) : Except Fault Str)) back⟩

theorem format_fragment {body : Format} (unsigned : Unsigned body)
    (utc : h.shown (h.world.now + o.varTimeOffset) ('%' :: body.text) = DatePattern.value h o (.format body)) (after : Str) :
    expandFragment h.toWorld o (body.text ++ '}' :: after) = .ok (DatePattern.value h o (.format body) ++ after) := by
  have stamp : stampFragment h.toWorld o (body.text ++ '}' :: after) = .ok (o.varTimeOffset, 0) := by
    unfold Unsigned at unsigned
    cases is : body.text with
    | nil => exact absurd is body.some_
    | cons c text =>
      rw [is] at unsigned
      obtain ⟨plus, minus, offset⟩ := unsigned c rfl
      have other : ¬ (c = '+' ∨ c = '-' ∨ c = 'o') := fun wrong => wrong.elim plus fun wrong => wrong.elim minus offset
      unfold stampFragment
      rw [List.cons_append]
      dsimp only
      rw [if_neg other]
  apply fragment_stamped body.open_ body.some_ stamp rfl
  rw [slice_front]
  exact congrArg Except.ok utc

theorem moved_stamp (past : Bool) (a : Amount) (rest : Str) :
    stampFragment h.toWorld o ('o' :: signOf past :: a.text ++ '%' :: rest) =
      .ok (if past then -(a.seconds : ℚ) else a.seconds, a.text.length + 3) := by
  have percent : '%' ∉ 'o' :: signOf past :: a.text := by
    have letters : ∀ c ∈ a.text, c ≠ '%' := by
      intro c member
      rcases List.mem_append.mp member with digit | unit
      · exact chars_all (P := fun c => c ≠ '%') a.digits a.small (by decide) c digit
      · obtain rfl := List.mem_singleton.mp unit
        cases a.unit <;> decide
    have inside : '%' ∉ a.text := fun there => letters _ there rfl
    cases past <;> simp [signOf, inside]
  have stop := find_cut (b := rest) percent
  have between : slice ('o' :: signOf past :: a.text ++ '%' :: rest) 2 (a.text.length + 2) = a.text := by
    unfold slice
    rw [Nat.add_sub_cancel]
    exact List.take_left
  have signed : (signOf past = '-' ∨ signOf past = '+') := by cases past <;> simp [signOf]
  have minus : ('-' ∈ ('o' :: signOf past :: a.text ++ '%' :: rest).take 2) ↔ past = true := by cases past <;> simp [signOf]
  have hit : 'o' = '+' ∨ 'o' = '-' ∨ 'o' = 'o' := .inr (.inr rfl)
  unfold stampFragment
  rw [List.cons_append, List.cons_append] at stop between minus ⊢
  rw [stop]
  dsimp only
  rw [if_pos hit, if_pos rfl, if_pos signed]
  refine bind_ok_iff.mpr ⟨2, rfl, bind_ok_iff.mpr ⟨a.seconds, ?_, ?_⟩⟩
  · exact (congrArg (durationToSeconds h.toWorld · none) between).trans (amount_seconds a none)
  · cases past with
    | true =>
      rw [if_pos (minus.mpr rfl)]
      rfl
    | false =>
      rw [if_neg fun there => Bool.false_ne_true (minus.mp there)]
      rfl

theorem moved_fragment {past : Bool} {a : Amount} {body : Format}
    (utc : h.shown (DatePattern.reading h o (.moved past a body)) ('%' :: body.text) = DatePattern.value h o (.moved past a body))
    (after : Str) : expandFragment h.toWorld o ('o' :: signOf past :: a.text ++ '%' :: body.text ++ '}' :: after) =
      .ok (DatePattern.value h o (.moved past a body) ++ after) := by
  have open_ : '}' ∉ 'o' :: signOf past :: a.text ++ '%' :: body.text := by
    cases past <;> simp [signOf, amount_plain a, body.open_]
  have parts : 'o' :: signOf past :: a.text ++ '%' :: body.text ++ '}' :: after =
      'o' :: signOf past :: a.text ++ '%' :: (body.text ++ '}' :: after) := List.append_assoc _ _ _
  have stamp := moved_stamp (h := h) (o := o) past a (body.text ++ '}' :: after)
  rw [← parts] at stamp
  have between : slice ('o' :: signOf past :: a.text ++ '%' :: body.text ++ '}' :: after) (a.text.length + 3)
      ('o' :: signOf past :: a.text ++ '%' :: body.text).length = body.text := by
    have front :
        ('o' :: signOf past :: a.text ++ '%' :: body.text ++ '}' :: after).drop (a.text.length + 3) = body.text ++ '}' :: after := by
      rw [parts]
      have length : a.text.length + 3 = ('o' :: signOf past :: a.text ++ ['%']).length := by simp
      have shape : 'o' :: signOf past :: a.text ++ '%' :: (body.text ++ '}' :: after) =
          ('o' :: signOf past :: a.text ++ ['%']) ++ (body.text ++ '}' :: after) := by simp
      rw [length, shape, List.drop_left]
    have rest : ('o' :: signOf past :: a.text ++ '%' :: body.text).length - (a.text.length + 3) = body.text.length := by
      simp only [List.length_append, List.length_cons]
      omega
    unfold slice
    rw [front, rest, List.take_left]
  have reading : h.toWorld.now + (if past then -(a.seconds : ℚ) else a.seconds) = DatePattern.reading h o (.moved past a body) := by
    cases past with
    | true => exact (sub_eq_add_neg _ _).symm
    | false => rfl
  apply fragment_stamped open_ (List.cons_ne_nil _ _) stamp rfl
  rw [between, reading]
  exact congrArg Except.ok utc

def allFields : List Field := [.of .JJJ, .of .MM, .of .YYYY, .HH, .DD, .of .YYYYMMDD]

theorem all_fields (f : Field) : f ∈ allFields := by
  cases f with
  | of d => cases d <;> decide
  | _ => decide

/-- The formats are replaced, where none begins with a sign and the local date is written as that of UTC. -/
theorem stamps_filled (ended : ∀ e ∈ rest, e.1 ≠ .unterminated) (closed : Closed (fillHoles (DatePattern.value h o) first rest))
    (unsigned : ∀ e ∈ rest, ∀ body, e.1 = .format body → Unsigned body)
    (utc : ∀ e ∈ rest, (∀ d a, e.1 ≠ .ago d a) → h.shown (e.1.reading h o) e.1.asked = e.1.value h o) :
    expandStamps h.toWorld o (fillHoles (partly h o (settled allFields false [])) first rest) =
      .ok (fillHoles (partly h o (settled allFields true [])) first rest) := by
  refine scan_fill stamps_skip rfl (fun e member => ?_) closed
  obtain ⟨p, t⟩ := e
  cases p with
  | field f =>
    have done (stamps : Bool) : settled allFields stamps [] (.field f) = true := decide_eq_true (all_fields f)
    left
    unfold partly
    rw [done, done, if_pos rfl]
    exact ⟨rfl, rfl⟩
  | ago d a =>
    refine .inr ⟨rfl, fun s => ?_⟩
    refine scan_braced (G := expandStamps h.toWorld o) stamps_skip (inner_closed (p := .ago d a)) ?_
    have shape : braced (d.name.toList ++ '-' :: a.text) ++ s = '$' :: ('{' :: (d.name.toList ++ '-' :: a.text) ++ '}' :: s) := by
      simp [braced]
    rw [shape]
    apply stamps_cons
    cases d <;> rfl
  | format body =>
    have dated := utc (.format body, t) member fun _ _ other => by cases other
    exact .inr ⟨rfl, fun s => stamps_format body.closed (format_fragment (unsigned _ member body rfl) dated)⟩
  | moved past a body =>
    have dated := utc (.moved past a body, t) member fun _ _ other => by cases other
    have whole : Closed ('%' :: 'o' :: signOf past :: a.text ++ '%' :: body.text) := inner_closed (p := .moved past a body)
    exact .inr ⟨rfl, fun s => stamps_format (whole.right (a := ['%'])) (moved_fragment dated)⟩
  | unterminated => exact absurd rfl (ended _ member)

/-! ## Offsets -/

theorem offsetAt_skip {name : String} (other : ¬ Text.opening <+: c :: s) : offsetAt name (c :: s) = none := by
  unfold offsetAt
  dsimp only
  rw [if_neg]
  intro starts
  exact other (List.IsPrefix.trans ⟨name.toList ++ ['-'], rfl⟩ (List.isPrefixOf_iff_prefix.mp starts))

theorem digits_isDigit (a : Amount) : ∀ c ∈ chars a.digits, isDigit c = true := chars_all a.digits a.small (by decide)

/-- The offset that is found at a pattern is its own. -/
theorem offsetAt_ago (d : Dated) (a : Amount) (s : Str) :
    offsetAt d.name (braced (d.name.toList ++ '-' :: a.text) ++ s) = some (a.text, s) := by
  have shape : braced (d.name.toList ++ '-' :: a.text) ++ s =
      ('$' :: '{' :: d.name.toList ++ ['-']) ++ (chars a.digits ++ a.unit.letter :: '}' :: s) := by
    simp [braced, Amount.text]
  have unit : isDigit a.unit.letter = false := by cases a.unit <;> decide
  obtain ⟨taken, left⟩ := takeWhile_append_stop isDigit (chars a.digits) (a.unit.letter :: '}' :: s) (digits_isDigit a) (by
    rintro c is
    cases is
    exact unit)
  have starts : ('$' :: '{' :: d.name.toList ++ ['-']).isPrefixOf
      (('$' :: '{' :: d.name.toList ++ ['-']) ++ (chars a.digits ++ a.unit.letter :: '}' :: s)) = true :=
    List.isPrefixOf_iff_prefix.mpr (List.prefix_append _ _)
  have full : (chars a.digits).isEmpty = false := by
    cases digits : a.digits with
    | nil => exact absurd digits a.some_
    | cons d ds => rfl
  rw [shape]
  unfold offsetAt
  dsimp only
  rw [if_pos starts, List.drop_left, taken, left, full]
  rfl

/-- At a pattern of another name none is found. -/
theorem offsetAt_other {d : Dated} {p : DatePattern} (ended : p ≠ .unterminated) (other : ∀ a, p ≠ .ago d a) (s : Str) :
    offsetAt d.name (braced p.inner ++ s) = none := by
  unfold offsetAt
  dsimp only
  rw [if_neg]
  intro starts
  have letters : '-' ∉ d.name.toList ∧ '}' ∉ d.name.toList := by cases d <;> decide
  have begins : d.name.toList ++ ['-'] <+: p.inner ++ '}' :: s := by
    have whole := List.isPrefixOf_iff_prefix.mp starts
    have shape : braced p.inner ++ s = '$' :: '{' :: (p.inner ++ '}' :: s) := by simp [braced]
    rw [shape] at whole
    exact (List.cons_prefix_cons.mp (List.cons_prefix_cons.mp whole).2).2
  have inside : d.name.toList ++ ['-'] <+: p.inner := by
    have closes : p.inner ++ ['}'] <+: p.inner ++ '}' :: s := ⟨s, by simp⟩
    rcases List.prefix_or_prefix_of_prefix begins closes with there | wrong
    · rcases List.prefix_concat_iff.mp there with same | inside
      · exact absurd (List.append_inj_right' same rfl) (by decide)
      · exact inside
    · have end_ : '}' ∈ d.name.toList ++ ['-'] := wrong.subset (List.mem_append_right _ List.mem_cons_self)
      rcases List.mem_append.mp end_ with wrong | wrong
      · exact absurd wrong letters.2
      · exact absurd (List.mem_singleton.mp wrong) (by decide)
  cases p with
  | field f =>
    have sign : '-' ∉ f.name.toList := by
      cases f with
      | of d => cases d <;> decide
      | _ => decide
    exact sign (inside.subset (List.mem_append_right _ List.mem_cons_self))
  | ago d' a =>
    obtain ⟨t, same⟩ := inside
    have letters' : '-' ∉ d'.name.toList := by cases d' <;> decide
    rw [List.append_assoc] at same
    obtain ⟨named, -⟩ := cut_inj letters.1 letters' same
    obtain rfl : d = d' := by
      revert named
      cases d <;> cases d' <;> decide
    exact other a rfl
  | format body | moved past a body =>
    cases d <;> exact absurd (List.cons_prefix_cons.mp inside).1 (by decide)
  | unterminated => exact ended rfl

theorem subOffset_cons {name : String} {v : Str} (none_ : offsetAt name (c :: s) = none) :
    subOffset name v 0 (c :: s) = c :: subOffset name v 0 s := by
  rw [subOffset, if_neg (Nat.lt_irrefl 0), none_]

theorem subOffset_past (name : String) (v x s : Str) : subOffset name v x.length (x ++ s) = subOffset name v 0 s := by
  induction x with
  | nil => rfl
  | cons c x ih =>
    rw [List.length_cons, List.cons_append, subOffset, if_pos (Nat.succ_pos _), Nat.add_sub_cancel, ih]

theorem subOffset_hit (d : Dated) (a : Amount) (v s : Str) :
    subOffset d.name v 0 (braced (d.name.toList ++ '-' :: a.text) ++ s) = v ++ subOffset d.name v 0 s := by
  have found := offsetAt_ago d a s
  have shape : braced (d.name.toList ++ '-' :: a.text) ++ s = '$' :: ('{' :: (d.name.toList ++ '-' :: a.text) ++ ['}'] ++ s) := by
    simp [braced]
  rw [shape] at found ⊢
  rw [subOffset, if_neg (Nat.lt_irrefl 0), found]
  dsimp only
  rw [List.length_append, Nat.add_sub_cancel, subOffset_past]

theorem subOffset_skip {name : String} {v : Str} (c : Char) (s : Str) (other : ¬ Text.opening <+: c :: s) :
    (.ok (subOffset name v 0 (c :: s)) : Except Fault Str) = (Except.ok (subOffset name v 0 s)).map ([c] ++ ·) := by
  rw [subOffset_cons (offsetAt_skip other)]
  rfl

/-- The date is put in for every offset of the name. -/
theorem offsets_filled (ended : ∀ e ∈ rest, e.1 ≠ .unterminated) (closed : Closed (fillHoles (DatePattern.value h o) first rest))
    {d : Dated} {v : Str}
    (done : List Dated) (is : ∀ e ∈ rest, ∀ a, e.1 = .ago d a → e.1.value h o = v) :
    subOffset d.name v 0 (fillHoles (partly h o (settled allFields true done)) first rest) =
      fillHoles (partly h o (settled allFields true (d :: done))) first rest := by
  have scanned := scan_fill (ε := Fault) (G := fun s => .ok (subOffset d.name v 0 s))
    (f := partly h o (settled allFields true done)) (g := partly h o (settled allFields true (d :: done)))
    subOffset_skip rfl (fun e member => ?_) closed
  · exact Except.ok.inj scanned
  · have keep (other : ∀ a, e.1 ≠ .ago d a) : settled allFields true (d :: done) e.1 = settled allFields true done e.1 := by
      cases which : e.1 with
      | ago d' a =>
        have differ : d' ≠ d := fun same => other a (same ▸ which)
        simp [settled, differ]
      | _ => rfl
    rcases partly_cases (h := h) (o := o) (S := settled allFields true done) (ended e member) with ⟨there, before⟩ | ⟨shape, before⟩
    · left
      refine ⟨there, ?_⟩
      have still : settled allFields true (d :: done) e.1 = true := by
        by_cases hit : ∃ a, e.1 = .ago d a
        · obtain ⟨a, which⟩ := hit
          rw [which]
          simp [settled]
        · rw [keep fun a which => hit ⟨a, which⟩, before]
      unfold partly
      rw [still, before]
    · refine .inr ⟨by rw [shape]; rfl, fun s => ?_⟩
      rw [shape]
      by_cases hit : ∃ a, e.1 = .ago d a
      · obtain ⟨a, which⟩ := hit
        have now : settled allFields true (d :: done) e.1 = true := by
          rw [which]
          simp [settled]
        have put : partly h o (settled allFields true (d :: done)) e.1 = v := by
          unfold partly
          rw [now, if_pos rfl]
          exact is e member a which
        rw [put, which]
        exact congrArg Except.ok (subOffset_hit d a v s)
      · have other : ∀ a, e.1 ≠ .ago d a := fun a which => hit ⟨a, which⟩
        have same : partly h o (settled allFields true (d :: done)) e.1 = braced e.1.inner := by
          rw [← shape]
          unfold partly
          rw [keep other]
        rw [same]
        refine scan_braced (G := fun s => .ok (subOffset d.name v 0 s)) subOffset_skip inner_closed ?_
        have whole : braced e.1.inner ++ s = '$' :: ('{' :: e.1.inner ++ '}' :: s) := by simp [braced]
        have none_ := offsetAt_other (d := d) (ended e member) other s
        rw [whole] at none_ ⊢
        rw [subOffset_cons none_]
        rfl

/-- The first offset of a name. -/
def firstOffset (d : Dated) : List (DatePattern × Str) → Option Amount
  | [] => none
  | (.ago d' a, _) :: rest => if d' = d then some a else firstOffset d rest
  | _ :: rest => firstOffset d rest

/-- What is found of an offset is put in the place of a failure. -/
def offsetOr (name : String) (s : Str) : Except Str Str :=
  match searchOffset name s with
  | none => .ok s
  | some offset => .error offset

theorem offsetOr_cons {name : String} (none_ : offsetAt name (c :: s) = none) :
    offsetOr name (c :: s) = (offsetOr name s).map ([c] ++ ·) := by
  unfold offsetOr
  rw [searchOffset, none_]
  dsimp only
  cases searchOffset name s with
  | none => rfl
  | some offset => rfl

theorem offsetOr_skip (name : String) (c : Char) (s : Str) (other : ¬ Text.opening <+: c :: s) :
    offsetOr name (c :: s) = (offsetOr name s).map ([c] ++ ·) := offsetOr_cons (offsetAt_skip other)

theorem offsetOr_fill (ended : ∀ e ∈ rest, e.1 ≠ .unterminated) (before : Closed first) (behind : ∀ e ∈ rest, Closed e.2)
    (d : Dated) :
    offsetOr d.name (fillHoles DatePattern.text first rest) =
      match firstOffset d rest with
      | none => .ok (fillHoles DatePattern.text first rest)
      | some a => .error a.text := by
  induction rest generalizing first with
  | nil =>
    have all := scan_text (s := []) (offsetOr_skip d.name) before fun _ => nofun
    rw [List.append_nil] at all
    rw [fillHoles_nil, all]
    exact congrArg Except.ok (List.append_nil first)
  | cons e rest ih =>
    obtain ⟨p, t⟩ := e
    have here : p ≠ .unterminated := ended _ List.mem_cons_self
    have later := ih (fun e member => ended e (List.mem_cons_of_mem _ member)) (behind _ List.mem_cons_self)
      fun e member => behind e (List.mem_cons_of_mem _ member)
    have passed := scan_text (s := braced p.inner ++ fillHoles DatePattern.text t rest) (offsetOr_skip d.name) before
      fun _ => nofun
    rw [fillHoles_cons, text_eq here, passed]
    by_cases hit : ∃ a, p = .ago d a
    · obtain ⟨a, rfl⟩ := hit
      have found := offsetAt_ago d a (fillHoles DatePattern.text t rest)
      have stops : offsetOr d.name (braced (d.name.toList ++ '-' :: a.text) ++ fillHoles DatePattern.text t rest) = .error a.text := by
        have whole : braced (d.name.toList ++ '-' :: a.text) ++ fillHoles DatePattern.text t rest =
            '$' :: ('{' :: (d.name.toList ++ '-' :: a.text) ++ '}' :: fillHoles DatePattern.text t rest) := by simp [braced]
        rw [whole] at found ⊢
        unfold offsetOr
        rw [searchOffset, found]
      have first_ : firstOffset d ((.ago d a, t) :: rest) = some a := if_pos rfl
      rw [first_]
      exact congrArg (Except.map (first ++ ·)) stops
    · have other : ∀ a, p ≠ .ago d a := fun a which => hit ⟨a, which⟩
      have passed : offsetOr d.name (braced p.inner ++ fillHoles DatePattern.text t rest) =
          (offsetOr d.name (fillHoles DatePattern.text t rest)).map (braced p.inner ++ ·) := by
        refine scan_braced (offsetOr_skip d.name) inner_closed ?_
        have whole : braced p.inner ++ fillHoles DatePattern.text t rest =
            '$' :: ('{' :: p.inner ++ '}' :: fillHoles DatePattern.text t rest) := by
          simp [braced]
        have none_ := offsetAt_other (d := d) here other (fillHoles DatePattern.text t rest)
        rw [whole] at none_ ⊢
        exact offsetOr_cons none_
      have same : firstOffset d ((p, t) :: rest) = firstOffset d rest := by
        cases p with
        | ago d' a =>
          have differ : d' ≠ d := fun same => other a (same ▸ rfl)
          exact if_neg differ
        | _ => rfl
      rw [passed, later, same]
      cases firstOffset d rest with
      | none => rfl
      | some a => rfl

/-- The offset that decides for a name. -/
theorem searchOffset_fill (ended : ∀ e ∈ rest, e.1 ≠ .unterminated) (before : Closed first) (behind : ∀ e ∈ rest, Closed e.2)
    (d : Dated) :
    searchOffset d.name (fillHoles DatePattern.text first rest) = (firstOffset d rest).map Amount.text := by
  have found := offsetOr_fill ended before behind d
  unfold offsetOr at found
  cases search : searchOffset d.name (fillHoles DatePattern.text first rest) with
  | none =>
    rw [search] at found
    cases is : firstOffset d rest with
    | none => rfl
    | some a =>
      rw [is] at found
      cases found
  | some offset =>
    rw [search] at found
    cases is : firstOffset d rest with
    | none =>
      rw [is] at found
      cases found
    | some a =>
      rw [is] at found
      exact congrArg some (Except.error.inj found)

theorem firstOffset_some {d : Dated} {a : Amount} {t : Str} (member : (.ago d a, t) ∈ rest) : ∃ a', firstOffset d rest = some a' := by
  induction rest with
  | nil => cases member
  | cons e rest ih =>
    obtain ⟨p, t'⟩ := e
    rcases List.mem_cons.mp member with here | later
    · cases here
      exact ⟨a, if_pos rfl⟩
    · obtain ⟨a', is⟩ := ih later
      cases p with
      | ago d' a'' =>
        by_cases same : d' = d
        · exact ⟨a'', if_pos same⟩
        · exact ⟨a', (if_neg same).trans is⟩
      | _ => exact ⟨a', is⟩

/-- The offsets of a name are replaced, where the local date at the first is written as that of UTC at each. -/
theorem offset_stage (ended : ∀ e ∈ rest, e.1 ≠ .unterminated) (before : Closed first) (behind : ∀ e ∈ rest, Closed e.2)
    (closed : Closed (fillHoles (DatePattern.value h o) first rest)) (d : Dated) (done : List Dated)
    (utc : ∀ e ∈ rest, ∀ a, e.1 = .ago d a → ∀ a', firstOffset d rest = some a' →
      h.shown (h.mktime - a'.seconds) d.format = e.1.value h o) {format : String} (is : format.toList = d.format) :
    expandOffset h.toWorld d.name format (fillHoles DatePattern.text first rest)
        (fillHoles (partly h o (settled allFields true done)) first rest) =
      .ok (fillHoles (partly h o (settled allFields true (d :: done))) first rest) := by
  have search := searchOffset_fill ended before behind d
  unfold expandOffset
  cases found : firstOffset d rest with
  | none =>
    rw [found] at search
    rw [search]
    refine congrArg Except.ok (fillHoles_congr fun e member => ?_)
    have same : settled allFields true (d :: done) e.1 = settled allFields true done e.1 := by
      obtain ⟨p, t⟩ := e
      cases p with
      | ago d' a =>
        have differ : d' ≠ d := by
          rintro rfl
          obtain ⟨a', some_⟩ := firstOffset_some member
          rw [some_] at found
          cases found
        simp [settled, differ]
      | _ => rfl
    unfold partly
    rw [same]
  | some a' =>
    rw [found] at search
    rw [search]
    refine bind_ok_iff.mpr ⟨_, amount_seconds a' _, bind_ok_iff.mpr ⟨_, rfl, ?_⟩⟩
    rw [is]
    refine congrArg Except.ok (offsets_filled ended closed done fun e member a which => ?_)
    exact (utc e member a which a' found).symm

end Stamps

end Sarracenia.Guarantees.Expansion
