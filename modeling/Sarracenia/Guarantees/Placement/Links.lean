import Sarracenia.Guarantees.Placement.Law

/-!
# Links after directories are stripped

A link is to lead from where its file is placed to where its target is placed. `updateFieldsAccepted` takes every
value for a path from the root of the tree, takes each part that leads up for one level less to climb, wherever the
part stands, and has one more part to lose after an absolute value, for the values of later keys as well.
-/
namespace Sarracenia.Guarantees.Placement
open Library Library.Text Library.Dynamic Library.Paths
open Source Source.Config Source.Placement Guarantees.Message

section Edits
variable {σ : Type} {next : σ → Str → σ} {entries entries' : Dict Value} {fields : List String}
variable {m m' : Message} {s : σ}

def textOf (entries : Dict Value) (f : String) : Option Str :=
  (entries.get f).bind fun v => v.asStr.toOption

/-- The variable of the loop when the turn of a field comes. -/
def turn (next : σ → Str → σ) (entries : Dict Value) : List String → σ → String → σ
  | [], s, _ => s
  | g :: fields, s, f => if g = f then s else turn next entries fields ((textOf entries g).elim s (next s)) f

theorem turn_congr (same : ∀ f ∈ fields, textOf entries' f = textOf entries f) (s : σ) (f : String) :
    turn next entries' fields s f = turn next entries fields s f := by
  induction fields generalizing s with
  | nil => rfl
  | cons g fields ih =>
    obtain ⟨here, later⟩ := List.forall_mem_cons.mp same
    rw [turn, turn, here, ih later]

/-- Each text under one of the fields is changed when its turn comes, and nothing else is. -/
theorem editLinks_spec (next : σ → Str → σ) (out : σ → Str → Option Str) (nodup : fields.Nodup) (there : m.get "fileOp" = some (.dict entries))
    (done : editLinks (fun s v => .ok (next s v, out s v)) fields s m = .ok m') :
    ∃ entries' : Dict Value, m'.get "fileOp" = some (.dict entries') ∧ (∀ f ∉ fields, Dict.get entries' f = Dict.get entries f) ∧
      ∀ f ∈ fields, ∀ v, textOf entries f = some v →
        textOf entries' f = some ((out (turn next entries fields s f) v).getD v) := by
  induction fields generalizing s m entries with
  | nil =>
    obtain rfl := Except.ok.inj done
    exact ⟨entries, there, fun _ _ => rfl, fun _ member => nomatch member⟩
  | cons g fields ih =>
    obtain ⟨fresh, nodup⟩ := List.nodup_cons.mp nodup
    rw [editLinks, Dict.item_ok_iff.mpr there] at done
    obtain ⟨fileOp, is, done⟩ := bind_ok_iff.mp done
    obtain rfl := Except.ok.inj is
    cases own : Dict.get entries g with
    | none =>
      have absent : Value.has g (.dict entries) = .ok false := congrArg (fun v : Option Value => Except.ok v.isSome) own
      rw [absent] at done
      obtain ⟨entries', edited, kept, changed⟩ := ih nodup there done
      refine ⟨entries', edited, fun f other => kept f fun member => other (List.mem_cons_of_mem _ member), ?_⟩
      intro f member v text
      have textless : textOf entries g = none := by
        unfold textOf
        rw [own]
        rfl
      cases List.mem_cons.mp member with
      | inl here =>
        rw [here, textless] at text
        cases text
      | inr later =>
        have other : g ≠ f := fun same => fresh (same ▸ later)
        rw [turn, if_neg other, textless]
        exact changed f later v text
    | some x =>
      have present : Value.has g (.dict entries) = .ok true := congrArg (fun v : Option Value => Except.ok v.isSome) own
      rw [present] at done
      obtain ⟨has, is, done⟩ := bind_ok_iff.mp done
      obtain rfl := Except.ok.inj is
      rw [if_pos rfl] at done
      obtain ⟨x', item, done⟩ := bind_ok_iff.mp done
      cases own.symm.trans (Dict.item_ok_iff.mp item)
      obtain ⟨t, text, done⟩ := bind_ok_iff.mp done
      obtain ⟨⟨s', changed⟩, is, done⟩ := bind_ok_iff.mp done
      obtain ⟨rfl, rfl⟩ := Prod.mk.inj (Except.ok.inj is)
      have owned : textOf entries g = some t := by
        unfold textOf
        rw [own, Option.bind_some, text]
        rfl
      -- the later fields are as they were when their turns come
      have rest {m₁ : Message} {entries₁ : Dict Value} (there : m₁.get "fileOp" = some (.dict entries₁))
          (same : ∀ f ≠ g, Dict.get entries₁ f = Dict.get entries f) (here : textOf entries₁ g = some ((out s t).getD t))
          (done : editLinks (fun s v => .ok (next s v, out s v)) fields (next s t) m₁ = .ok m') :
          ∃ entries' : Dict Value, m'.get "fileOp" = some (.dict entries') ∧
            (∀ f ∉ g :: fields, Dict.get entries' f = Dict.get entries f) ∧ ∀ f ∈ g :: fields, ∀ v, textOf entries f = some v →
              textOf entries' f = some ((out (turn next entries (g :: fields) s f) v).getD v) := by
        have sameText {f : String} (other : f ≠ g) : textOf entries₁ f = textOf entries f := by
          unfold textOf
          rw [same f other]
        obtain ⟨entries', edited, kept, changed⟩ := ih nodup there done
        refine ⟨entries', edited, fun f other => ?_, fun f member v of_ => ?_⟩
        · rw [List.mem_cons, not_or] at other
          rw [kept f other.2, same f other.1]
        · by_cases first : f = g
          · subst first
            rw [owned] at of_
            obtain rfl := Option.some.inj of_
            rw [turn, if_pos rfl, ← here]
            unfold textOf
            rw [kept f fresh]
          · have later := (List.mem_cons.mp member).resolve_left first
            rw [turn, if_neg (Ne.symm first), owned, Option.elim_some,
              ← turn_congr fun f member => sameText fun same => fresh (same ▸ member)]
            exact changed f later v ((sameText first).trans of_)
      cases new : out s t with
      | none =>
        rw [new] at done
        exact rest there (fun _ _ => rfl) (by rw [new]; exact owned) done
      | some y =>
        rw [new] at done
        refine rest (Dict.get_set_self m "fileOp" _) (fun f other => Dict.get_set_ne entries other _) ?_ done
        unfold textOf
        rw [Dict.get_set_self, new]
        rfl

end Edits
section Values
variable {token rest : List Str} {strip : Nat} {v lead top : Str}

def up : Str := "..".toList
def here : Str := ['.']

/-- A value of ordinary parts: none is empty, but for the one before the slash of an absolute value. -/
structure Link (v : Str) : Prop where
  some_ : names v ≠ []
  parts : ∀ part ∈ (split ['/'] v).tail, part ≠ []

def absolute (v : Str) : Bool := v.head? == some '/'

/-- The parts that a value has to lose, with one more for an absolute value. -/
def toLose (strip : Nat) (v : Str) : Nat := if (split ['/'] v).head? = some [] then strip + 1 else strip

/-- What becomes of a value in the loop, if it does not stay. -/
def cutLink (token : List Str) (strip : Nat) (v : Str) : Option Str :=
  if toLose strip v < (split ['/'] v).length then
    some ((List.replicate (token.length - ((split ['/'] v).drop (toLose strip v)).count up - 1) "../".toList).flatten ++
      join ['/'] ((split ['/'] v).drop (toLose strip v)))
  else none

theorem stripLink_eq (token : List Str) (strip : Nat) (v : Str) :
    stripLink token strip v = .ok (toLose strip v, cutLink token strip v) := by
  unfold stripLink cutLink toLose up
  dsimp only
  split <;> split <;> rfl

theorem Link.split_eq (link : Link v) : split ['/'] v = if absolute v then [] :: names v else names v := by
  cases v with
  | nil => exact absurd rfl link.some_
  | cons c s =>
    have parts := link.parts
    by_cases slash : c = '/'
    · subst slash
      rw [split_cons_self] at parts
      have all : (split ['/'] s).filter (· ≠ []) = split ['/'] s :=
        List.filter_eq_self.mpr fun part member => by simpa using parts part member
      rw [split_cons_self, names_root]
      unfold names
      rw [all]
      rfl
    · obtain ⟨piece, rest, pieces, longer⟩ := split_cons_ne '/' slash s
      rw [longer] at parts
      have all : ((c :: piece) :: rest).filter (· ≠ []) = (c :: piece) :: rest := by
        refine List.filter_eq_self.mpr fun part member => ?_
        cases List.mem_cons.mp member with
        | inl first => simp [first]
        | inr later => simpa using parts part later
      have other : absolute (c :: s) = false := by
        unfold absolute
        simpa using slash
      rw [other]
      unfold names
      rw [longer, all]
      rfl

/-- The parts that are left after so many, with a part that leads up for each level that is climbed. -/
def climb (depth : Nat) (parts : List Str) (strip : Nat) : List Str :=
  if strip < parts.length then List.replicate (depth - (parts.drop strip).count up) up ++ parts.drop strip else parts

theorem join_climb (k : Nat) (some_ : rest ≠ []) :
    (List.replicate k "../".toList).flatten ++ join ['/'] rest = join ['/'] (List.replicate k up ++ rest) := by
  induction k with
  | zero => rfl
  | succ k ih =>
    rw [List.replicate_succ, List.flatten_cons, List.append_assoc, ih, List.replicate_succ, List.cons_append]
    cases more : List.replicate k up ++ rest with
    | nil => exact absurd (List.append_eq_nil_iff.mp more).2 some_
    | cons part parts =>
      rw [join_cons_cons]
      rfl

theorem Link.join_names (link : Link v) (relative : absolute v = false) : join ['/'] (names v) = v := by
  have parts := link.split_eq
  rw [relative] at parts
  have whole := join_split (List.cons_ne_nil '/' []) v
  rw [parts] at whole
  exact whole

/-- The value as the loop leaves it. -/
def restated (token : List Str) (strip : Nat) (v : Str) : Str := (cutLink token strip v).getD v

/-- An absolute value that stays is the only one that is not made of the parts that are left. -/
theorem Link.restated_eq (link : Link v) (token : List Str) (strip : Nat) :
    restated token strip v = if absolute v = true ∧ ¬ strip < (names v).length then v
      else join ['/'] (climb (token.length - 1) (names v) strip) := by
  have lost : (split ['/'] v).drop (toLose strip v) = (names v).drop strip ∧
      (toLose strip v < (split ['/'] v).length ↔ strip < (names v).length) := by
    have parts := link.split_eq
    unfold toLose
    cases is : absolute v with
    | true =>
      rw [is, if_pos rfl] at parts
      rw [parts, List.head?_cons, if_pos rfl, List.drop_succ_cons, List.length_cons]
      exact ⟨rfl, by omega⟩
    | false =>
      rw [is, if_neg Bool.false_ne_true] at parts
      rw [parts, if_neg]
      · exact ⟨rfl, Iff.rfl⟩
      · intro empty
        exact names_proper v [] (List.mem_of_mem_head? empty) rfl
  unfold restated cutLink climb
  rw [lost.1]
  by_cases goes : strip < (names v).length
  · have more : (names v).drop strip ≠ [] := fun none_ => by
      rw [List.drop_eq_nil_iff] at none_
      omega
    rw [if_pos (lost.2.mpr goes), if_neg fun both => both.2 goes, if_pos goes, Option.getD_some, join_climb _ more, Nat.sub_right_comm]
  · rw [if_neg fun less => goes (lost.2.mp less), if_neg goes, Option.getD_none]
    split
    · rfl
    · next relative =>
      refine (link.join_names ?_).symm
      rw [Bool.eq_false_iff]
      exact fun absolute_ => relative ⟨absolute_, goes⟩

theorem climb_proper {parts : List Str} (proper : ∀ part ∈ parts, '/' ∉ part ∧ part ≠ []) (depth strip : Nat) :
    ∀ part ∈ climb depth parts strip, '/' ∉ part ∧ part ≠ [] := by
  intro part member
  unfold climb at member
  split at member
  · cases List.mem_append.mp member with
    | inl climbs =>
      rw [List.eq_of_mem_replicate climbs]
      decide
    | inr left => exact proper part (List.mem_of_mem_drop left)
  · exact proper part member

theorem names_of_proper {parts : List Str} (proper : ∀ part ∈ parts, '/' ∉ part ∧ part ≠ []) : names (join ['/'] parts) = parts := by
  rw [names_join fun part member => (proper part member).1,
    List.filter_eq_self.mpr fun part member => by simpa using (proper part member).2]

theorem relative_of_proper {parts : List Str} (proper : ∀ part ∈ parts, '/' ∉ part ∧ part ≠ []) : absolute (join ['/'] parts) = false := by
  unfold absolute
  cases parts with
  | nil => rfl
  | cons part parts =>
    obtain ⟨plain, some_⟩ := proper part List.mem_cons_self
    cases part with
    | nil => exact absurd rfl some_
    | cons c part =>
      have other : c ≠ '/' := fun same => plain (same ▸ List.mem_cons_self)
      rw [join_cons, List.cons_append, List.head?_cons]
      simpa using other

/-- A value with a leading text put in another's place, if that is longer than a slash. -/
def settle (lead top v : Str) : Str := if 1 < lead.length ∧ lead <+: v then replaceFirst lead top v else v

theorem settle_relative (rooted : 1 < lead.length → absolute lead = true) (relative : absolute v = false) : settle lead top v = v := by
  unfold settle
  rw [if_neg]
  rintro ⟨long, rest, rfl⟩
  have slash := rooted long
  unfold absolute at slash relative
  cases lead with
  | nil => cases slash
  | cons c lead =>
    rw [List.cons_append, List.head?_cons] at relative
    rw [List.head?_cons, relative] at slash
    cases slash

theorem settle_absolute (lead : Str) (rootedTop : absolute top = true) (slash : absolute v = true) : absolute (settle lead top v) = true := by
  unfold settle
  split
  · next starts =>
    obtain ⟨long, rest, rfl⟩ := starts
    cases lead with
    | nil => cases long
    | cons c lead =>
      have begins : (c :: lead).isPrefixOf (c :: (lead ++ rest)) = true := List.isPrefixOf_iff_prefix.mpr ⟨rest, rfl⟩
      rw [List.cons_append, replaceFirst, if_pos begins]
      unfold absolute at rootedTop ⊢
      cases top with
      | nil => cases rootedTop
      | cons d top => exact rootedTop
  · exact slash

end Values

section Fields
variable {w : World} {o : Options} {steps : Nat} {r : Rule} {urlstr relPath top dir lead : Str} {old : Option Str}
variable {m copied stripped placed m' : Message} {entries : Dict Value}

/-- The leading text that is put in the place of the mask's directory: the base directory, or the path of the URL. -/
def leading (w : World) (old : Option Str) (m : Message) : Except Fault Str :=
  match given old with
  | some old => .ok old
  | none => m.item "baseUrl" >>= Value.asStr >>= baseUrlParse w

theorem linkFields_nodup : linkFields.Nodup := by decide

theorem rebased_links (there : m.get "fileOp" = some (.dict entries)) (long : 1 < lead.length)
    (done : rewriteLinks (rebase lead top) m = .ok m') :
    ∃ entries' : Dict Value, m'.get "fileOp" = some (.dict entries') ∧
      ∀ f ∈ linkFields, ∀ v, textOf entries f = some v → textOf entries' f = some (settle lead top v) := by
  have pure_ : (fun (_ : Unit) v => (rebase lead top v).map fun v => ((), some v)) =
      fun (_ : Unit) v => (.ok ((), some (settle lead top v)) : Except Fault (Unit × Option Str)) := by
    funext _ v
    have same : (if lead.isPrefixOf v then replaceFirst lead top v else v) = settle lead top v := by
      unfold settle
      simp only [long, true_and, List.isPrefixOf_iff_prefix]
    unfold rebase
    rw [same]
    rfl
  unfold rewriteLinks at done
  rw [if_neg (by rw [there]; exact Bool.false_ne_true), pure_] at done
  obtain ⟨entries', edited, -, changed⟩ := editLinks_spec (fun _ _ => ()) (fun _ v => some (settle lead top v)) linkFields_nodup
    there done
  exact ⟨entries', edited, changed⟩

theorem dropBase_links {d : Option Str} {token token' : List Str} (toTop : given old ≠ none → top ≠ [] → d = some top) (some_ : top ≠ [])
    (there : m.get "fileOp" = some (.dict entries)) (done : dropBase w old d top token m = .ok (token', m')) :
    ∃ (lead : Str) (entries' : Dict Value), leading w old m = .ok lead ∧ m'.get "fileOp" = some (.dict entries') ∧
      ∀ f ∈ linkFields, ∀ v, textOf entries f = some v → textOf entries' f = some (settle lead top v) := by
  have short {lead : Str} (short : ¬ 1 < lead.length) : ∀ f ∈ linkFields, ∀ v, textOf entries f = some v →
      textOf entries f = some (settle lead top v) := by
    intro f _ v text
    rw [text]
    unfold settle
    rw [if_neg fun both => short both.1]
  have fill : given (some top) = some top := by
    unfold given
    simp [some_]
  unfold dropBase at done
  unfold leading
  cases is : given old with
  | some base =>
    rw [toTop (by rw [is]; exact Option.some_ne_none _) some_, is, fill] at done
    dsimp only at done
    by_cases long : 1 < base.length
    · rw [if_pos long] at done
      obtain ⟨edited, edits, same⟩ := map_ok_iff.mp done
      obtain ⟨-, rfl⟩ := Prod.mk.inj same
      obtain ⟨entries', edited, changed⟩ := rebased_links there long edits
      exact ⟨base, entries', rfl, edited, changed⟩
    · rw [if_neg long] at done
      obtain ⟨-, rfl⟩ := Prod.mk.inj (Except.ok.inj done)
      exact ⟨base, entries, rfl, there, short long⟩
  | none =>
    rw [is, there] at done
    dsimp only at done
    rw [if_neg some_] at done
    obtain ⟨url, item, done⟩ := bind_ok_iff.mp done
    obtain ⟨text, asText, done⟩ := bind_ok_iff.mp done
    obtain ⟨path, parsed, done⟩ := bind_ok_iff.mp done
    have led : (m.item "baseUrl" >>= Value.asStr >>= baseUrlParse w) = .ok path :=
      bind_ok_iff.mpr ⟨text, bind_ok_iff.mpr ⟨url, item, asText⟩, parsed⟩
    by_cases long : 1 < path.length
    · rw [if_pos long] at done
      obtain ⟨edited, edits, same⟩ := map_ok_iff.mp done
      obtain ⟨-, rfl⟩ := Prod.mk.inj same
      obtain ⟨entries', edited, changed⟩ := rebased_links there long edits
      exact ⟨path, entries', led, edited, changed⟩
    · rw [if_neg long] at done
      obtain ⟨has, -, same⟩ := map_ok_iff.mp done
      obtain ⟨-, rfl⟩ := Prod.mk.inj same
      exact ⟨path, entries, led, there, short long⟩

/-- The parts that go before a field's turn, with one more for each absolute value under an earlier field. -/
def lostBy (entries : Dict Value) (strip : Nat) (f : String) : Nat := turn toLose entries linkFields strip f

/-- The value as the message is left with it. -/
def final (token : List Str) (rule lost : Nat) (lead top v : Str) : Str :=
  settle lead top (if 0 < rule then restated token lost v else v)

/-- What has become of each link of a message that was placed and is no retry. -/
theorem Placing.links (counting : Counting r) (placing : Placing w o steps r urlstr relPath top old m copied stripped placed m' dir)
    (first : firstTime o m = true) (unfixed : ∀ header ∈ o.fixed_headers, header.1 ≠ "fileOp") (some_ : top ≠ [])
    (there : m.get "fileOp" = some (.dict entries)) (led : leading w old m = .ok lead) :
    ∃ entries' : Dict Value, m'.get "fileOp" = some (.dict entries') ∧ ∀ f ∈ linkFields, ∀ v, textOf entries f = some v →
      textOf entries' f = some (final (cut r.strip (split ['/'] relPath)) r.strip (lostBy entries r.strip f) lead top v) := by
  have copied_ : copied.get "fileOp" = some (.dict entries) := (placing.copy "fileOp" (by decide) (by decide)).trans there
  have strip := (stripPath_spec counting.pattern counting.flatten placing.strip).2.2
  obtain ⟨d, toTop, unbase⟩ := placing.base
  have kept : ∀ key ∉ ["fileOp", "post_fileOp", "_deleteOnPost"], stripped.get key = m.get key := by
    intro key other
    rw [← placing.kept counting key other, (dropBase_spec unbase).2 key]
    rintro rfl
    exact other (by decide)
  have sameLead : leading w old stripped = leading w old m := by
    unfold leading Dict.item
    rw [kept "baseUrl" (by decide)]
  have middle : ∃ entries₁ : Dict Value, stripped.get "fileOp" = some (.dict entries₁) ∧ ∀ f ∈ linkFields, ∀ v, textOf entries f = some v →
      textOf entries₁ f = some (if 0 < r.strip then restated (cut r.strip (split ['/'] relPath)) (lostBy entries r.strip f) v else v) := by
    by_cases zero : 0 < r.strip
    · rw [if_pos ⟨zero, by rw [copied_]; rfl, first⟩] at strip
      have pure_ : stripLink (cut r.strip (split ['/'] relPath)) = fun strip v => .ok (toLose strip v, cutLink (cut r.strip (split ['/'] relPath)) strip v) := by
        funext strip v
        exact stripLink_eq _ strip v
      rw [pure_] at strip
      obtain ⟨entries₁, edited, -, changed⟩ := editLinks_spec toLose (cutLink _) linkFields_nodup copied_ strip
      refine ⟨entries₁, edited, fun f member v text => ?_⟩
      rw [if_pos zero]
      exact changed f member v text
    · rw [if_neg fun both => zero both.1] at strip
      refine ⟨entries, strip ▸ copied_, fun f member v text => ?_⟩
      rw [if_neg zero]
      exact text
  obtain ⟨entries₁, one, changed⟩ := middle
  obtain ⟨lead', entries', led', edited, settled⟩ := dropBase_links toTop some_ one unbase
  rw [sameLead, led] at led'
  obtain rfl := Except.ok.inj led'
  refine ⟨entries', ?_, fun f member v text => settled f member _ (changed f member v text)⟩
  rw [updatePaths_elsewhere (by decide) unfixed placing.update, edited]

end Fields

section Survival
variable {token place goal : List Str} {rule lost depth : Nat} {lead top v : Str}

/-- The place that a value designates, from a directory. -/
def designated (place : List Str) (v : Str) : List Str := follow up here (if absolute v then [] else place) (names v)

/-- The place that a value is meant for: it is from the root of the tree, or from the directory of the file. -/
def meant (rooted : Bool) (dirs : List Str) (v : Str) : List Str :=
  follow up here (if rooted || absolute v then [] else dirs) (names v)

/-- The place of a target among the directories that are left. -/
def settled (strip : Nat) (base target : List Str) : List Str := remaining strip base target.dropLast ++ target.getLast?.toList

/-- The value has too few parts to lose so many, or none is to be lost. -/
def Stays (rule lost : Nat) (v : Str) : Prop := ¬ (0 < rule ∧ lost < (names v).length)

instance (rule lost : Nat) (v : Str) : Decidable (Stays rule lost v) := inferInstanceAs (Decidable (¬ _))

/-- The parts of a value once it has lost what it has to lose. -/
def left (rule depth lost : Nat) (v : Str) : List Str := if 0 < rule then climb depth (names v) lost else names v

/-- What is left of the value leads from the place to the goal, an absolute value that stays leads there from the root,
and the same is left where no absolute value comes before. -/
structure Meets (place goal : List Str) (rule depth lost : Nat) (lead top v : Str) : Prop where
  leads : if absolute v = true ∧ Stays rule lost v then follow up here [] (names (settle lead top v)) = goal
    else follow up here place (left rule depth lost v) = goal
  alone : left rule depth lost v = left rule depth rule v ∧ (absolute v = true → (Stays rule lost v ↔ Stays rule rule v))

theorem left_of_stays (stays : Stays rule lost v) : left rule depth lost v = names v := by
  unfold left climb
  split
  · next zero => rw [if_neg fun less => stays ⟨zero, less⟩]
  · rfl

theorem left_proper (rule depth lost : Nat) (v : Str) : ∀ part ∈ left rule depth lost v, '/' ∉ part ∧ part ≠ [] := by
  have proper : ∀ part ∈ names v, '/' ∉ part ∧ part ≠ [] := fun part member => ⟨not_mem_name v part member, names_proper v part member⟩
  unfold left
  split
  · exact climb_proper proper depth lost
  · exact proper

theorem Link.final_eq (link : Link v) (rooted : 1 < lead.length → absolute lead = true) :
    final token rule lost lead top v = if absolute v = true ∧ Stays rule lost v then settle lead top v
      else join ['/'] (left rule (token.length - 1) lost v) := by
  have proper := left_proper rule (token.length - 1) lost v
  unfold final
  by_cases both : absolute v = true ∧ Stays rule lost v
  · rw [if_pos both]
    split
    · next zero =>
      rw [link.restated_eq, if_pos ⟨both.1, fun less => both.2 ⟨zero, less⟩⟩]
    · rfl
  · rw [if_neg both]
    have same : (if 0 < rule then restated token lost v else v) = join ['/'] (left rule (token.length - 1) lost v) := by
      unfold left
      split
      · next zero =>
        rw [link.restated_eq, if_neg]
        rintro ⟨slash, stays⟩
        exact both ⟨slash, fun goes => stays goes.2⟩
      · next none_ =>
        refine (link.join_names ?_).symm
        rw [Bool.eq_false_iff]
        exact fun slash => both ⟨slash, fun goes => none_ goes.1⟩
    rw [same, settle_relative rooted (relative_of_proper proper)]

theorem Link.designated_final (link : Link v) (rooted : 1 < lead.length → absolute lead = true) (rootedTop : absolute top = true) :
    designated place (final token rule lost lead top v) = if absolute v = true ∧ Stays rule lost v then
      follow up here [] (names (settle lead top v)) else follow up here place (left rule (token.length - 1) lost v) := by
  rw [link.final_eq rooted]
  unfold designated
  split
  · next both => rw [settle_absolute lead rootedTop both.1, if_pos rfl]
  · have proper := left_proper rule (token.length - 1) lost v
    rw [relative_of_proper proper, if_neg Bool.false_ne_true, names_of_proper proper]

theorem Link.final_alone_iff (link : Link v) (rooted : 1 < lead.length → absolute lead = true) (rootedTop : absolute top = true) :
    final token rule lost lead top v = final token rule rule lead top v ↔
      left rule (token.length - 1) lost v = left rule (token.length - 1) rule v ∧
        (absolute v = true → (Stays rule lost v ↔ Stays rule rule v)) := by
  have proper (lost : Nat) := left_proper rule (token.length - 1) lost v
  have apart {parts : List Str} (proper : ∀ part ∈ parts, '/' ∉ part ∧ part ≠ []) (slash : absolute v = true) :
      settle lead top v ≠ join ['/'] parts := by
    intro same
    have one := settle_absolute lead rootedTop slash
    rw [same, relative_of_proper proper] at one
    cases one
  rw [link.final_eq rooted, link.final_eq rooted]
  by_cases one : absolute v = true ∧ Stays rule lost v
  · rw [if_pos one]
    by_cases other : absolute v = true ∧ Stays rule rule v
    · rw [if_pos other]
      exact iff_of_true rfl ⟨by rw [left_of_stays one.2, left_of_stays other.2], fun _ => iff_of_true one.2 other.2⟩
    · rw [if_neg other]
      exact iff_of_false (apart (proper rule) one.1) fun same => other ⟨one.1, (same.2 one.1).mp one.2⟩
  · rw [if_neg one]
    by_cases other : absolute v = true ∧ Stays rule rule v
    · rw [if_pos other]
      exact iff_of_false (Ne.symm (apart (proper lost) other.1)) fun same => one ⟨other.1, (same.2 other.1).mpr other.2⟩
    · rw [if_neg other]
      constructor
      · intro same
        have parts := congrArg names same
        rw [names_of_proper (proper lost), names_of_proper (proper rule)] at parts
        exact ⟨parts, fun slash => iff_of_false (fun stays => one ⟨slash, stays⟩) fun stays => other ⟨slash, stays⟩⟩
      · intro same
        rw [same.1]

theorem Link.meets_iff (link : Link v) (rooted : 1 < lead.length → absolute lead = true) (rootedTop : absolute top = true) :
    (designated place (final token rule lost lead top v) = goal ∧ final token rule lost lead top v = final token rule rule lead top v) ↔
      Meets place goal rule (token.length - 1) lost lead top v := by
  rw [link.designated_final rooted rootedTop, link.final_alone_iff rooted rootedTop]
  constructor
  · rintro ⟨leads, alone⟩
    refine ⟨?_, alone⟩
    split at leads
    · next both => rwa [if_pos both]
    · next not => rwa [if_neg not]
  · rintro ⟨leads, alone⟩
    refine ⟨?_, alone⟩
    split at leads
    · next both => rwa [if_pos both]
    · next not => rwa [if_neg not]

end Survival

section Links
variable {w : World} {o : Options} {steps : Nat} {r : Rule} {urlstr relPath top lead : Str} {old : Option Str}
variable {msg m m' : Message} {entries : Dict Value}

/-- The link under the field leads from the directory of the file to the place of its target, and is what it is where
there is no other. -/
def Survives (strip : Nat) (base : List Str) (relPath top lead : Str) (m' : Message) (f : String) (v : Str) (rooted : Bool) : Prop :=
  ∃ (dir : Str) (entries' : Dict Value) (v' : Str), m'.get "new_dir" = some (.str dir) ∧ m'.get "fileOp" = some (.dict entries') ∧
    textOf entries' f = some v' ∧ designated (names dir) v' = names top ++ settled strip base (meant rooted (dirsOf relPath) v) ∧
    v' = final (cut strip (split ['/'] relPath)) strip strip lead top v

/-- The condition, of the parts of the value: the place is that of the file, the goal that of the target. -/
def Leads (strip : Nat) (base : List Str) (relPath top lead : Str) (entries : Dict Value) (f : String) (v : Str) (rooted : Bool) : Prop :=
  Meets (names top ++ carried strip base (dirsOf relPath)) (names top ++ settled strip base (meant rooted (dirsOf relPath) v)) strip
    ((cut strip (split ['/'] relPath)).length - 1) (lostBy entries strip f) lead top v

end Links

section Kinds
variable {strip : Nat} {relPath top lead v : Str} {entries : Dict Value} {f : String} {rooted : Bool} {dirs parts : List Str}

/-- Where there is no other link, no more is lost than the rule says. -/
theorem lostBy_only (member : f ∈ linkFields) (only : ∀ g ∈ linkFields, g ≠ f → textOf entries g = none) : lostBy entries strip f = strip := by
  have loop {fields : List String} (inside : fields ⊆ linkFields) (member : f ∈ fields) : turn toLose entries fields strip f = strip := by
    induction fields with
    | nil => cases member
    | cons g fields ih =>
      obtain ⟨here, later⟩ := List.cons_subset.mp inside
      rw [turn]
      split
      · rfl
      · next other =>
        rw [only g here other]
        exact ih later ((List.mem_cons.mp member).resolve_left (Ne.symm other))
  exact loop (List.Subset.refl _) member

theorem remaining_nil (strip : Nat) (dirs : List Str) : remaining strip [] dirs = dirs.drop strip := by
  unfold remaining
  rw [if_pos (List.nil_prefix), List.length_nil, List.drop_zero]

theorem carried_nil (deep : strip ≤ dirs.length) : carried strip [] dirs = dirs.drop strip := by
  unfold carried
  dsimp only
  rw [if_pos deep, if_pos (List.nil_prefix), List.length_nil, List.drop_zero]

/-- A target below the directories that go keeps the rest of its path. -/
theorem settled_nil {target : List Str} (below : strip < target.length) : settled strip [] target = target.drop strip := by
  have some_ : target ≠ [] := List.ne_nil_of_length_pos (by omega)
  unfold settled
  rw [remaining_nil, List.getLast?_eq_some_getLast some_, Option.toList_some]
  have short : strip ≤ target.dropLast.length := by
    rw [List.length_dropLast]
    omega
  rw [← List.drop_append_of_le_length short, List.dropLast_concat_getLast some_]

theorem cut_depth (deep : strip ≤ (dirsOf relPath).length) :
    (cut strip (split ['/'] relPath)).length - 1 = ((dirsOf relPath).drop strip).length := by
  rw [parts_eq, cut_concat, if_pos deep, List.length_append, List.length_singleton, Nat.add_sub_cancel]

/-- An absolute value, or one from the root of the tree, without parts that lead up: it survives where no absolute value
comes before it. -/
theorem leads_of_rooted (plain : ∀ part ∈ names v, part ≠ up ∧ part ≠ here) (isRooted : (rooted || absolute v) = true) (zero : 0 < strip)
    (deep : strip ≤ (dirsOf relPath).length) (below : strip < (names v).length) (alone : lostBy entries strip f = strip) :
    Leads strip [] relPath top lead entries f v rooted := by
  have goes : ¬ Stays strip strip v := fun stays => stays ⟨zero, below⟩
  have noClimb : ((names v).drop strip).count up = 0 :=
    List.count_eq_zero.mpr fun member => (plain up (List.mem_of_mem_drop member)).1 rfl
  unfold Leads
  rw [alone]
  refine ⟨?_, rfl, fun _ => Iff.rfl⟩
  rw [if_neg fun both => goes both.2, cut_depth deep, carried_nil deep]
  have target : meant rooted (dirsOf relPath) v = names v := by
    unfold meant
    rw [if_pos isRooted, follow_down [] plain, List.nil_append]
  unfold left climb
  rw [if_pos zero, if_pos below, noClimb, Nat.sub_zero, follow_append, follow_up, List.length_append, Nat.add_sub_cancel, List.take_left,
    follow_down _ fun part member => plain part (List.mem_of_mem_drop member), target, settled_nil below]

/-- A link that leads up no further than the mask's directory and then down survives where it has too few parts to lose. -/
theorem leads_of_short {climbs : Nat} {down : List Str} (parts : names v = List.replicate climbs up ++ down)
    (plain : ∀ part ∈ down, part ≠ up ∧ part ≠ here) (some_ : down ≠ []) (relative : absolute v = false)
    (deep : strip + climbs ≤ (dirsOf relPath).length) (short : (names v).length ≤ strip) (lost : strip ≤ lostBy entries strip f) :
    Leads strip [] relPath top lead entries f v false := by
  have stays {n : Nat} (enough : strip ≤ n) : Stays strip n v := fun goes => by
    have less := goes.2
    omega
  have size := List.length_pos_iff.mpr some_
  unfold Leads
  refine ⟨?_, ?_, fun slash => by rw [relative] at slash; cases slash⟩
  · rw [if_neg (by rw [relative]; exact fun both => Bool.false_ne_true both.1), left_of_stays (stays lost), parts, carried_nil (by omega)]
    have target : meant false (dirsOf relPath) v = (dirsOf relPath).take ((dirsOf relPath).length - climbs) ++ down := by
      unfold meant
      rw [relative, if_neg (by decide), parts, follow_append, follow_up, follow_down _ plain]
    rw [target, settled_nil (by rw [List.length_append, List.length_take]; omega), follow_append, follow_up, follow_down _ plain,
      List.drop_append_of_le_length (by rw [List.length_take]; omega), List.length_append, List.length_drop, List.take_append,
      List.take_of_length_le (by omega), List.drop_take, List.append_assoc]
    congr 3
    omega
  · rw [left_of_stays (stays lost), left_of_stays (stays (Nat.le_refl _))]

/-- A link that only leads down, with more parts than are to be lost, does not survive. -/
theorem misleads_of_long (plain : ∀ part ∈ names v, part ≠ up ∧ part ≠ here) (relative : absolute v = false) (zero : 0 < strip)
    (deep : strip ≤ (dirsOf relPath).length) (lost : strip ≤ lostBy entries strip f) (long : lostBy entries strip f < (names v).length) :
    ¬ Leads strip [] relPath top lead entries f v false := by
  rintro ⟨leads, -⟩
  have noClimb : ((names v).drop (lostBy entries strip f)).count up = 0 :=
    List.count_eq_zero.mpr fun member => (plain up (List.mem_of_mem_drop member)).1 rfl
  have target : meant false (dirsOf relPath) v = dirsOf relPath ++ names v := by
    unfold meant
    rw [relative, if_neg (by decide), follow_down _ plain]
  unfold left climb at leads
  rw [if_neg (by rw [relative]; exact fun both => Bool.false_ne_true both.1), if_pos zero, if_pos long, noClimb, Nat.sub_zero, cut_depth deep,
    carried_nil deep, follow_append, follow_up, List.length_append, Nat.add_sub_cancel, List.take_left,
    follow_down _ fun part member => plain part (List.mem_of_mem_drop member), target,
    settled_nil (by rw [List.length_append]; omega)] at leads
  have lengths := congrArg List.length (List.append_cancel_left leads)
  rw [List.length_drop, List.length_drop, List.length_append] at lengths
  omega

end Kinds

section Samples
open Guarantees.Filter

def urlWorld : World := { quietWorld with urlparse := fun _ => .ok ("http".toList, []) }

/-- The file `a/b/f`, a link. -/
def linked (link : Str) : Message :=
  [("_deleteOnPost", .set []), ("baseUrl", .str "http://h".toList), ("relPath", .str "a/b/f".toList),
    ("fileOp", .dict [("link", .str link)])]

/-- The link once it has been placed, and what it leads by then. -/
def linkedIn (link new : Str) : Message :=
  [("_deleteOnPost", .set ["post_fileOp", "new_dir", "new_file", "new_relPath", "new_baseUrl", "new_subtopic", "subtopic", "post_format"]),
    ("baseUrl", .str "http://h".toList), ("relPath", .str "a/b/f".toList), ("fileOp", .dict [("link", .str new)]),
    ("post_fileOp", .dict [("link", .str link)]), ("new_dir", .str "/d/b".toList), ("new_file", .str ['f']),
    ("new_baseUrl", .str "http://h".toList), ("new_relPath", .str "d/b/f".toList), ("new_subtopic", .list [.str ['d'], .str ['b']]),
    ("subtopic", .list [.str ['d'], .str ['b']])]

theorem linked_placed : updateFieldsAccepted urlWorld noOptions 0 (mirrored 1) [] (linked "d/t".toList) =
    .ok (linkedIn "d/t".toList "../t".toList, true) := rfl

theorem linked_plain : Plain urlWorld (mirrored 1) [] "a/b/f".toList "/d".toList where
  rooted := .inr (by decide)
  literal := by
    have words : names "/d".toList ++ dirsOf "a/b/f".toList = [['d'], ['a'], ['b']] := by decide
    rw [words]
    simp only [List.mem_cons, List.not_mem_nil, or_false, forall_eq_or_imp, forall_eq]
    exact ⟨⟨by decide, rfl⟩, ⟨by decide, rfl⟩, by decide, rfl⟩
  proper := by decide

theorem linked_links (f : String) (member : f ∈ linkFields) (v : Str) (text : textOf [("link", .str "d/t".toList)] f = some v) : Link v := by
  have is : v = "d/t".toList := by
    simp only [linkFields, List.mem_cons, List.not_mem_nil, or_false] at member
    obtain rfl | rfl | rfl := member
    · exact (Option.some.inj text).symm
    · cases text
    · cases text
  subst is
  exact ⟨by decide, by decide⟩

end Samples

end Sarracenia.Guarantees.Placement
