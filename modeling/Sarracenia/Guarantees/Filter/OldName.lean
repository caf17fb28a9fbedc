import Sarracenia.Guarantees.Filter.Conservation

/-!
# The old name of a rename, and the rule for an ordinary name

`Flow.filter` selects twice: the mask loop for the name of the message, and before it a loop
for the old name of a rename. The rule is that the first mask that matches decides. The mask
loop is that rule; the loop for the old name ends with the first mask, whether it matches or
not, and puts its URL together in another way.
-/
namespace Sarracenia.Guarantees.Filter
open Library Library.Text Library.Dynamic Source Source.Config Source.Placement Source.Filter

/-! ## The rule -/

section Rule

def Finds (mask : Mask) (url : Str) : Prop := (finds mask url).isSome

/-- The flag of the first mask that matches, and no where none does. Before it there is no void
mask. -/
inductive Selects (url : Str) : List (Option Mask) → Bool → Prop where
  | none : Selects url [] false
  | here {mask masks} : Finds mask url → Selects url (some mask :: masks) mask.accepting
  | later {mask masks accepted} : ¬ Finds mask url → Selects url masks accepted →
      Selects url (some mask :: masks) accepted

/-- What the mask loop takes its decision from. -/
def accepts (first : Option (Mask × Nat × Option (List (Option Str)))) : Bool :=
  first.elim false (·.1.accepting)

variable {url : Str} {mask : Mask} {masks : List (Option Mask)} {accepted : Bool}

theorem selects_here (found : Finds mask url) :
    Selects url (some mask :: masks) accepted ↔ accepted = mask.accepting := by
  constructor
  · intro selects
    cases selects with
    | here _ => rfl
    | later other _ => exact absurd found other
  · rintro rfl
    exact .here found

theorem selects_later (other : ¬ Finds mask url) :
    Selects url (some mask :: masks) accepted ↔ Selects url masks accepted := by
  constructor
  · intro selects
    cases selects with
    | here found => exact absurd found other
    | later _ rest => exact rest
  · exact .later other

/-- The mask loop follows the rule. -/
theorem firstMatch_selects_iff (i : Nat) :
    (firstMatch url masks i).map accepts = .ok accepted ↔ Selects url masks accepted := by
  induction masks generalizing i with
  | nil =>
    constructor
    · intro none_
      obtain rfl := Except.ok.inj none_
      exact .none
    · intro selects
      cases selects
      rfl
  | cons mask masks ih =>
    cases mask with
    | none => exact ⟨nofun, nofun⟩
    | some mask =>
      rw [firstMatch]
      cases found : finds mask url with
      | none =>
        have other : ¬ Finds mask url := by
          rw [Finds, found]
          exact Bool.false_ne_true
        rw [selects_later other]
        exact ih (i + 1)
      | some groups =>
        have here : Finds mask url := by
          rw [Finds, found]
          rfl
        rw [selects_here here]
        exact ⟨fun is => (Except.ok.inj is).symm, fun is => is ▸ rfl⟩

end Rule

/-! ## The old name -/

section OldName
variable (w : World) (o : Config.Options) (steps : Nat)

/-- `m['fileOp']['rename']`. -/
def oldNameOf (msg : Message) : Except Fault Str := do (← (← msg.item "fileOp").item "rename").asStr

/-- The URL the old name is matched with. -/
def oldUrl (name : Str) (msg : Message) : Except Fault Str := do
  let base ← variableExpansion w o steps (← (← msg.item "baseUrl").asStr) msg
  urlToMatch msg (base ++ '/' :: name)

/-- The message as an ordinary one that has the name for its path. -/
def ordinary (name : Str) (msg : Message) : Message := Dict.set (msg.del "fileOp") "relPath" (.str name)

/-- The URL an ordinary message is matched with. -/
def ordinaryUrl (name : Str) (msg : Message) : Except Fault Str := do
  urlToMatch (ordinary name msg) (← urlOf w o steps (ordinary name msg))

/-- Where the first mask matches the old name's URL, the rule gives its flag for the other URL;
where it does not, the rule does not accept that. -/
def FirstDecides (old other : Str) : List (Option Mask) → Prop
  | some mask :: masks =>
    Finds mask old ∧ Selects other (some mask :: masks) mask.accepting ∨
      ¬ Finds mask old ∧ Selects other (some mask :: masks) false
  | none :: _ => False
  | [] => True

variable {w o steps} {msg msg' : Message} {matched : Bool} {name old other : Str}

theorem oldName_eq (rename : isRename msg = .ok true) (named : oldNameOf msg = .ok name) :
    oldName w o steps msg = oldUrl w o steps name msg >>= fun url => matchOldName o url msg := by
  unfold oldName oldUrl
  unfold oldNameOf at named
  rw [rename]
  obtain ⟨fileOp, has, named⟩ := bind_ok_iff.mp named
  obtain ⟨value, holds, text⟩ := bind_ok_iff.mp named
  have after {α β : Type} (a : α) (next : α → Except Fault β) : (Except.ok a >>= next) = next a := rfl
  simp only [bind_assoc, after, if_true, has, holds, text]

/-- The flag the loop for the old name ends with: it is asked of the first mask only. -/
inductive FirstFlag (url : Str) : List (Option Mask) → Bool → Prop where
  | none : FirstFlag url [] false
  | found {mask masks} : Finds mask url → FirstFlag url (some mask :: masks) mask.accepting
  | missing {mask masks} : ¬ Finds mask url → FirstFlag url (some mask :: masks) false

theorem matchOldName_flag (computed : matchOldName o old msg = .ok (matched, msg')) :
    FirstFlag old o.masks matched := by
  unfold matchOldName at computed
  split at computed
  · next none_ =>
    obtain ⟨rfl, -⟩ := Prod.mk.inj (Except.ok.inj computed)
    rw [none_]
    exact .none
  · cases computed
  · next mask masks first =>
    rw [first]
    split at computed
    · next missing =>
      obtain ⟨rfl, -⟩ := Prod.mk.inj (Except.ok.inj computed)
      refine .missing fun found => ?_
      rw [Finds, missing] at found
      exact Bool.false_ne_true found
    · next found there =>
      obtain ⟨msg₁, -, computed⟩ := bind_ok_iff.mp computed
      obtain ⟨msg₂, -, computed⟩ := bind_ok_iff.mp computed
      obtain ⟨rfl, -⟩ := Prod.mk.inj (Except.ok.inj computed)
      refine .found ?_
      rw [Finds, there]
      rfl

/-- The decision for the old name is the one for an ordinary message of that name exactly when
there is no mask or the first one decides. -/
theorem oldName_same_rule_iff (rename : isRename msg = .ok true) (named : oldNameOf msg = .ok name)
    (computed : oldName w o steps msg = .ok (matched, msg'))
    (asked : oldUrl w o steps name msg = .ok old) (ordinary_ : ordinaryUrl w o steps name msg = .ok other) :
    (ordinaryUrl w o steps name msg >>= fun url => (firstMatch url o.masks 0).map accepts) = .ok matched ↔
      FirstDecides old other o.masks := by
  rw [oldName_eq rename named, asked] at computed
  have flag := matchOldName_flag computed
  rw [ordinary_]
  refine (firstMatch_selects_iff 0).trans ?_
  generalize o.masks = masks at flag ⊢
  cases flag with
  | none => exact iff_of_true .none trivial
  | found found =>
    exact ⟨fun selects => Or.inl ⟨found, selects⟩,
      fun decides => decides.elim And.right fun both => absurd found both.1⟩
  | missing missing =>
    exact ⟨fun selects => Or.inr ⟨missing, selects⟩,
      fun decides => decides.elim (fun both => absurd both.1 missing) And.right⟩

/-- Where the two URLs are the same, the first mask has to match it, or no mask accepts it. -/
theorem firstDecides_same {mask : Mask} {masks : List (Option Mask)} :
    FirstDecides old old (some mask :: masks) ↔ Finds mask old ∨ Selects old masks false := by
  by_cases found : Finds mask old
  · exact iff_of_true (Or.inl ⟨found, .here found⟩) (Or.inl found)
  · exact ⟨fun decides => decides.elim (fun both => absurd both.1 found)
        fun both => Or.inr ((selects_later found).mp both.2),
      fun either => either.elim (fun here => absurd here found)
        fun rest => Or.inr ⟨found, .later found rest⟩⟩

end OldName

/-! ## A message that was `old` -/

section Example

def twoMasks (second : String) (accepting : Bool) : Config.Options :=
  { noOptions with masks := [some (maskOn "http://h/other" false), some (maskOn second accepting)] }

/-- The second mask accepts `old`, and the loop for the old name does not ask it. -/
theorem old_not_accepted :
    ¬ ∀ (w : World) (o : Config.Options) (steps : Nat) (msg msg' : Message) (matched : Bool) (name : Str),
      isRename msg = .ok true → oldNameOf msg = .ok name →
      oldName w o steps msg = .ok (matched, msg') →
      (ordinaryUrl w o steps name msg >>= fun url => (firstMatch url o.masks 0).map accepts) =
        .ok matched := by
  intro always
  have same := always quietWorld (twoMasks ".*" true) 0 oldToNew.fields oldToNew.fields false "old".toList
    rfl rfl rfl
  have accepted : (ordinaryUrl quietWorld (twoMasks ".*" true) 0 "old".toList oldToNew.fields >>= fun url =>
      (firstMatch url (twoMasks ".*" true).masks 0).map accepts) = .ok true := rfl
  exact Bool.false_ne_true (Except.ok.inj (same.symm.trans accepted))

theorem old_rejected_by_both :
    (ordinaryUrl quietWorld (twoMasks ".*" false) 0 "old".toList oldToNew.fields >>= fun url =>
        (firstMatch url (twoMasks ".*" false).masks 0).map accepts) = .ok false ↔
      FirstDecides "http://h/old".toList "http://h/old".toList (twoMasks ".*" false).masks :=
  have computed : oldName quietWorld (twoMasks ".*" false) 0 oldToNew.fields = .ok (false, oldToNew.fields) := rfl
  oldName_same_rule_iff rfl rfl computed rfl rfl

end Example
end Sarracenia.Guarantees.Filter
