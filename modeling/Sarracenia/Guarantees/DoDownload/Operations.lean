import Sarracenia.Guarantees.Filter.Immunity
import Sarracenia.Source.DoDownload

/-!
# What `do_fileOp` needs

The preconditions of the operations under which no exception is raised and a message that falls
through to the download is on no list yet. A rename that is a removal of the old name
(`renameUnlink`) never meets them, and a rename that worked meets them for a link and a
directory alone.

* what each part of an attempt needs (`meets_rename`, `meets_create`, `meets_operate`);
* the attempts together, by induction on how many are left (`meets_fileOpLoop`,
  `meets_do_fileOp`).
-/
namespace Sarracenia.Guarantees.DoDownload
open Library Library.Text Library.Dynamic Library.Exits Source Source.DoDownload
open Guarantees.Filter (Returns Container Markable Reportable)

section Reports
variable {w : World} {α : Type} {post : α → Prop}

@[simp] theorem meets_reject (msg : Message) (code : Int) (reason : Str) :
    Meets (reject w msg code reason : Step α) post ↔ Reportable msg := by
  rw [← Filter.setReport_returns_iff w.nowstr msg code reason]
  simp [reject, setReport, Returns]

@[simp] theorem meets_accept (msg : Message) (code : Int) (reason : Str) :
    Meets (accept w msg code reason : Step α) post ↔ Reportable msg := by
  rw [← Filter.setReport_returns_iff w.nowstr msg code reason]
  simp [accept, setReport, Returns]

end Reports

section Holds

/-- `key in fileOp`, of a `fileOp` that can be looked into. -/
def holds (fileOp : Value) (key : String) : Bool :=
  match fileOp.has key with
  | .ok there => there
  | .error _ => false

theorem has_holds {fileOp : Value} (container : Container fileOp) (key : String) :
    fileOp.has key = .ok (holds fileOp key) := by
  obtain ⟨there, looked⟩ := (Filter.has_returns_iff key fileOp).mpr container
  rw [holds, looked]

theorem meets_has {fileOp : Value} (container : Container fileOp) (key : String) {post : Bool → Prop} :
    Meets (has fileOp key) post ↔ post (holds fileOp key) := by
  simp [has, has_holds container]

end Holds

section Attempt
variable (w : World) (o : DoDownload.Options) (e : Operations) (msg : Message) (fileOp : Value)
variable (falls : Message → Prop) (again : Prop)

/-- What is asked of an attempt: that another one may follow, or that a message that falls
through is on no list. -/
def Fallen : Option (Message × Bool) → Prop
  | none => again
  | some (msg, listed) => listed = false ∧ falls msg

/-- What making a directory or a link needs. -/
def Creates : Prop :=
  if holds fileOp "directory" ∧ ¬ holds fileOp "remove" then
    if "mkdir" ∉ o.fileEvents then Reportable msg
    else ∃ made, mkdir w e msg = .ok made ∧ if made then Reportable msg else again
  else if (holds fileOp "link" ∨ holds fileOp "hlink") ∧ ¬ holds fileOp "rename" then
    if "link" ∉ o.fileEvents then Reportable msg
    else ∃ linked, link1file e fileOp = .ok linked ∧
      if linked then Reportable msg
      else if holds fileOp "hlink" then falls msg
      else Reportable msg
  else again

/-- What a rename needs: it is no removal of the old name, and if it works it is one of a link
or a directory. -/
def Renames (create : Prop) : Prop :=
  msg.get "renameUnlink" = none ∧ ∃ old, fileOp.item "rename" = .ok (.str old) ∧
    if e.found ∧ e.rename then (holds fileOp "link" ∨ holds fileOp "directory") ∧ Reportable msg
    else if holds fileOp "link" ∨ holds fileOp "hlink" ∨ holds fileOp "directory" then create
    else falls msg

/-- What one attempt needs. -/
def Operates : Prop :=
  Container fileOp ∧
    if holds fileOp "rename" then
      Renames e msg fileOp falls (Creates w o e msg fileOp falls again)
    else if holds fileOp "remove" then
      if holds fileOp "directory" ∧ "rmdir" ∈ o.fileEvents ∧ ¬ e.removeOneFile then
        Creates w o e msg fileOp falls again
      else Reportable msg
    else Creates w o e msg fileOp falls again

variable {w o e msg fileOp falls again}

theorem meets_create (container : Container fileOp) (new_path : Str) :
    Meets (create w o e msg fileOp new_path) (Fallen falls again) ↔
      Creates w o e msg fileOp falls again := by
  unfold create Creates
  simp only [meets_bind, meets_has container, meets_ite, meets_reject, meets_accept, meets_pure,
    meets_attempt, Fallen, Bool.and_eq_true, Bool.or_eq_true, Bool.not_eq_true', Bool.not_eq_true,
    true_and]

theorem renameOneItem_ok_iff (old : Value) (renamed : Bool) :
    renameOneItem e old = .ok renamed ↔ (∃ s, old = .str s) ∧ renamed = (e.found && e.rename) := by
  unfold renameOneItem
  cases old with
  | str s =>
    have renames : (Value.str s).asStr = .ok s := rfl
    simp only [renames, Value.str.injEq, exists_eq', true_and]
    exact ⟨fun done => (Except.ok.inj done).symm, fun done => congrArg Except.ok done.symm⟩
  | _ => simp [Value.asStr, bind, Except.bind]

/-- A report that is set before what does not depend on the message. -/
theorem meets_setReport (msg : Message) (code : Int) (text : Str) (p : Prop) :
    Meets (setReport w msg code text) (fun _ => p) ↔ Reportable msg ∧ p := by
  rw [← Filter.setReport_returns_iff w.nowstr msg code text]
  simp [setReport, Returns]

theorem meets_rename (container : Container fileOp) :
    Meets (rename w e msg fileOp) (Fallen falls again) ↔ Renames e msg fileOp falls again := by
  unfold rename Renames
  simp only [meets_bind, meets_has container, meets_ite, meets_pure, meets_attempt, Fallen,
    meets_leave, renameOneItem_ok_iff, Bool.true_eq_false, false_and, true_and, meets_setReport]
  cases unlink : msg.get "renameUnlink" with
  | some v => simp
  | none =>
    simp only [Option.isSome_none, Bool.false_eq_true, if_false, true_and]
    have renamed : ∀ a, (∃ worked, ((∃ s, a = Value.str s) ∧ worked = (e.found && e.rename)) ∧
          if worked = true then
            Reportable msg ∧ if (holds fileOp "link" || holds fileOp "directory") = true then True else False
          else if (!holds fileOp "link" && !holds fileOp "hlink" && !holds fileOp "directory") = true
            then falls msg else again) ↔
        (∃ s, a = Value.str s) ∧ if e.found = true ∧ e.rename = true then
          (holds fileOp "link" = true ∨ holds fileOp "directory" = true) ∧ Reportable msg
        else if holds fileOp "link" = true ∨ holds fileOp "hlink" = true ∨ holds fileOp "directory" = true
          then again else falls msg := by
      intro a
      cases e.found <;> cases e.rename <;> cases holds fileOp "link" <;> cases holds fileOp "directory" <;>
        cases holds fileOp "hlink" <;> simp [and_comm]
    simp only [renamed]
    constructor
    · rintro ⟨_, read, ⟨old, rfl⟩, rest⟩
      exact ⟨old, read, rest⟩
    · rintro ⟨old, read, rest⟩
      exact ⟨_, read, ⟨old, rfl⟩, rest⟩

theorem meets_operate (new_path : Str) :
    Meets (operate w o e msg fileOp new_path) (Fallen falls again) ↔
      Operates w o e msg fileOp falls again := by
  unfold Operates operate
  by_cases container : Container fileOp
  · simp only [meets_bind, meets_has container, meets_ite, meets_reject, meets_accept,
      meets_create container, container, true_and]
    by_cases renames : holds fileOp "rename" = true
    · -- a rename is gone on with where a directory or a link is to be made
      rw [if_pos renames, if_pos renames]
      refine (meets_congr fun fallen => ?_).trans (meets_rename container)
      cases fallen with
      | none => exact meets_create container new_path
      | some fallen => exact Iff.rfl
    · rw [if_neg renames, if_neg renames]
      cases holds fileOp "remove" <;> cases holds fileOp "directory" <;> cases e.removeOneFile <;>
        by_cases wanted : "rmdir" ∈ o.fileEvents <;> simp [wanted]
  · refine iff_of_false (fun meets => container ?_) (fun ready => container ready.1)
    rw [meets_bind, has, meets_attempt] at meets
    obtain ⟨there, looked, -⟩ := meets
    exact (Filter.has_returns_iff _ _).mp ⟨there, looked⟩

end Attempt

section Attempts
variable (w : World) (o : DoDownload.Options) (operations : Nat → Operations) (msg : Message)
variable (falls : Message → Prop)

/-- What the attempts left need, from the one at `i` on. -/
def OperatesAll (fileOp : Value) : Nat → Nat → Prop
  | 0, _ => True
  | n + 1, i => Operates w o (operations i) msg fileOp falls (OperatesAll fileOp n (i + 1))

/-- What `do_fileOp` needs; a message without a `fileOp` falls through. -/
def DoesFileOp : Prop :=
  match msg.get "fileOp" with
  | none => falls msg
  | some fileOp => OperatesAll w o operations msg falls fileOp o.attempts.toNat 0

variable {w o operations msg falls}

theorem meets_fileOpLoop (fileOp : Value) (new_path : Str) (n i : Nat) :
    Meets (fileOpLoop w o operations msg fileOp new_path n i) (fun r => r.2 = false ∧ falls r.1) ↔
      OperatesAll w o operations msg falls fileOp n i := by
  induction n generalizing i with
  | zero => exact iff_of_true trivial trivial
  | succ n ih =>
    rw [fileOpLoop, OperatesAll, meets_bind]
    refine (meets_congr fun fallen => ?_).trans (meets_operate new_path)
    cases fallen with
    | none => exact ih (i + 1)
    | some fallen => exact Iff.rfl

theorem meets_do_fileOp (new_path : Str) :
    Meets (do_fileOp w o operations msg new_path) (fun r => r.2 = false ∧ falls r.1) ↔
      DoesFileOp w o operations msg falls := by
  unfold do_fileOp DoesFileOp
  cases msg.get "fileOp" with
  | none => simp
  | some fileOp => exact meets_fileOpLoop fileOp new_path _ 0

end Attempts
end Sarracenia.Guarantees.DoDownload
