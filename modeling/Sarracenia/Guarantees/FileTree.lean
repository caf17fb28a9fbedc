import Sarracenia.Guarantees.DoDownload.Operations
import Sarracenia.Source.FileTree

/-!
# What file operations do to a tree

`do_fileOp` may try an operation several times, and a rename removes what is at the new name before
it is known to work. What links lead to may be anything.

* what is removed, and when it cannot be (`unlinked_cases`, `removeOneFile_cases`);
* a rename moves all or leaves what `Stays` (`renameOneItem_cases`), and what is tried again was not
  moved (`attempt_safe`);
* over all attempts nothing is lost but what is at the new name, or was to be unlinked
  (`do_fileOp_safe`);
* on messages, `do_fileOp` ends as it does on the tree (`do_fileOp_agrees`), attempt by attempt
  (`attempt_agrees`).
-/
namespace Sarracenia.Guarantees.FileTree
open Library Source Source.FileTree
variable {ν κ τ : Type} [DecidableEq ν] {leads : Tree ν κ τ → List ν → Led} {o : Options}
  {t t' u : Tree ν κ τ} {m : Message ν κ τ} {p q old : List ν}

section Calls

theorem drop_of_unlink (unlinks : t.unlink p = some u) : t.drop p = some u := by
  obtain ⟨-, leaf, look⟩ := Tree.unlink_eq_some.mp unlinks
  exact (Tree.drop_of_leaf leaf).mpr look

theorem look_drop (drops : t.drop p = some u) : u.look p = none := by
  rw [(Tree.drop_eq_some.mp drops).2.2, Function.update_self]

variable (leads t p)

/-- A file or a link is removed, and nothing else. -/
theorem unlinked_cases :
    ((t.look p = none ∨ t.look p = some .directory) ∧ unlinked leads t p = (t, true)) ∨
      (t.look p ≠ none ∧ t.look p ≠ some .directory) ∧
        ∃ u, t.drop p = some u ∧ unlinked leads t p = (u, true) := by
  by_cases neither : t.look p = none ∨ t.look p = some .directory
  · refine .inl ⟨neither, ?_⟩
    rcases neither with there | there <;> simp [unlinked, isfile, islink, there, provided, next]
  · rw [not_or] at neither
    obtain ⟨u, unlinks⟩ := Tree.exists_unlink neither.1 neither.2
    have drops := drop_of_unlink unlinks
    refine .inr ⟨neither, u, drops, ?_⟩
    have gone := look_drop drops
    -- what is not unlinked as a file is a link
    cases file : isfile leads t p with
    | true => simp [unlinked, file, provided, tried, unlinks, next, islink, gone]
    | false =>
      have link : islink t p = true := by
        cases there : t.look p with
        | none => exact absurd there neither.1
        | some n => cases n <;> simp_all [isfile, islink]
      simp [unlinked, file, provided, tried, unlinks, next, link]

/-- What is at a path is removed, unless something is below it. -/
theorem removeOneFile_cases :
    (t.look p = none ∧ removeOneFile leads t p = (t, true)) ∨
      (t.look p ≠ none ∧ ∃ u, t.drop p = some u ∧ removeOneFile leads t p = (u, true)) ∨
        (t.look p = some .directory ∧ t.drop p = none ∧ removeOneFile leads t p = (t, false)) := by
  rcases unlinked_cases leads t p with
    ⟨none_ | there, same⟩ | ⟨leaf, u, drops, same⟩
  · exact .inl ⟨none_, by simp [removeOneFile, same, next, isdir, none_, provided]⟩
  · have call : t.rmdir p = t.drop p := by simp [Tree.rmdir, Tree.isDir_iff.mpr there]
    cases drops : t.drop p with
    | none =>
      refine .inr (.inr ⟨there, rfl, ?_⟩)
      simp [removeOneFile, same, next, isdir, there, provided, call, drops, tried]
    | some u =>
      refine .inr (.inl ⟨by simp [there], u, rfl, ?_⟩)
      simp [removeOneFile, same, next, isdir, there, provided, call, drops, tried]
  · refine .inr (.inl ⟨leaf.1, u, drops, ?_⟩)
    simp [removeOneFile, same, next, isdir, look_drop drops, provided]

end Calls

section Effects

/-- What was there is there still, but at the new name, and what is new is at the new name or is a
directory on the way there. -/
structure Stays (m : Message ν κ τ) (t t' : Tree ν κ τ) : Prop where
  kept : ∀ q n, t.look q = some n → q ≠ m.new_path → t'.look q = some n
  made : ∀ q, t'.look q ≠ t.look q →
    q = m.new_path ∨ (q <+: m.new_dir ∧ t.look q = none ∧ t'.look q = some .directory)

omit [DecidableEq ν] in
theorem Stays.refl (t : Tree ν κ τ) : Stays m t t :=
  ⟨fun _ _ there _ => there, fun _ same => absurd rfl same⟩

theorem Stays.trans (first : Stays m t t') (second : Stays m t' u) : Stays m t u := by
  refine ⟨fun q n there other => second.kept q n (first.kept q n there other) other,
    fun q changed => ?_⟩
  by_cases before : t'.look q = t.look q
  · rw [← before] at changed ⊢
    exact second.made q changed
  · rcases first.made q before with here | ⟨way, none_, made⟩
    · exact .inl here
    · by_cases here : q = m.new_path
      · exact .inl here
      · exact .inr ⟨way, none_, second.kept q _ made here⟩

theorem stays_update {n : Option (Node κ τ)}
    (look : t'.look = Function.update t.look m.new_path n) : Stays m t t' := by
  refine ⟨fun q n there other => by rw [look, Function.update_of_ne other, there],
    fun q changed => .inl (by_contra fun other => changed ?_)⟩
  rw [look, Function.update_of_ne other]

theorem stays_next {r : Tree ν κ τ × Bool} {rest : Tree ν κ τ → Tree ν κ τ × Bool}
    (first : Stays m t r.1) (second : ∀ u, Stays m u (rest u).1) : Stays m t (next r rest).1 := by
  unfold next
  split
  · exact first.trans (second _)
  · exact first

omit [DecidableEq ν] in
theorem stays_tried {call : Option (Tree ν κ τ)} (all : ∀ u, call = some u → Stays m t u) :
    Stays m t (tried t call).1 := by
  cases call with
  | none => exact .refl t
  | some u => exact all u rfl

omit [DecidableEq ν] in
theorem stays_provided {c : Bool} {call : Option (Tree ν κ τ)}
    (all : ∀ u, call = some u → Stays m t u) : Stays m t (provided c t call).1 := by
  unfold provided
  split
  · exact stays_tried all
  · exact .refl t

theorem removeOneFile_stays : Stays m t (removeOneFile leads t m.new_path).1 := by
  rcases removeOneFile_cases leads t m.new_path with
    ⟨-, same⟩ | ⟨-, u, drops, same⟩ | ⟨-, -, same⟩ <;> rw [same]
  · exact .refl t
  · exact stays_update (Tree.drop_eq_some.mp drops).2.2
  · exact .refl t

theorem unlinked_stays : Stays m t (unlinked leads t m.new_path).1 := by
  rcases unlinked_cases leads t m.new_path with
    ⟨-, same⟩ | ⟨-, u, drops, same⟩ <;> rw [same]
  · exact .refl t
  · exact stays_update (Tree.drop_eq_some.mp drops).2.2

theorem directory_stays : Stays m t (directory leads m t).1 := by
  refine stays_provided fun u makes => ?_
  have changes := Tree.makedirs_eq_some makes
  refine ⟨fun q n there _ => ?_, fun q changed => ?_⟩
  · rcases changes q with same | ⟨none_, -⟩
    · rw [same, there]
    · simp [there] at none_
  · rcases changes q with same | ⟨none_, made, -, way⟩
    · exact absurd same changed
    · exact .inr ⟨way, none_, made⟩

theorem mkdir_stays : Stays m t (mkdir leads m t).1 :=
  stays_next directory_stays fun _ => stays_provided fun _ makes =>
    stays_update (Tree.mkdir_eq_some.mp makes).2.2

theorem link1file_stays {target : τ} : Stays m t (link1file leads m target t).1 :=
  stays_next directory_stays fun _ => stays_next unlinked_stays fun _ => stays_tried fun _ links =>
    stays_update (Tree.symlink_eq_some.mp links).2.2

theorem create_stays {op : FileOp ν τ} : Stays m t (create leads o m op t).1 := by
  unfold create
  split
  · split
    · exact .refl t
    · exact mkdir_stays
  · split
    · split
      · exact .refl t
      · exact link1file_stays
    · exact .refl t

/-- All that is lost was at the new name, or at the old one of what is only to be unlinked; what was
renamed is there with all that is below it; and nothing else changes but directories on the way. -/
structure Safe (m : Message ν κ τ) (op : FileOp ν τ) (t t' : Tree ν κ τ) : Prop where
  kept : ∀ q n, t.look q = some n → q ≠ m.new_path → t'.look q = some n ∨
    ∃ old, op.rename = some old ∧ ((m.renameUnlink = true ∧ q = old) ∨
      ∃ s, q = old ++ s ∧ t'.look (m.new_path ++ s) = some n)
  made : ∀ q, t'.look q ≠ t.look q → m.new_path <+: q ∨ (∃ old, op.rename = some old ∧ old <+: q) ∨
    (q <+: m.new_dir ∧ t.look q = none ∧ t'.look q = some .directory)

omit [DecidableEq ν] in
theorem Stays.safe {op : FileOp ν τ} (stays : Stays m t t') : Safe m op t t' := by
  refine ⟨fun q n there other => .inl (stays.kept q n there other), fun q changed => ?_⟩
  rcases stays.made q changed with here | way
  · exact .inl (by rw [here])
  · exact .inr (.inr way)

variable (leads t m old) in
/-- A rename either leaves what `Stays`, or moves all that is below the old name after that. -/
theorem renameOneItem_cases :
    (∃ u, Stays m t u ∧ renameOneItem leads t old m.new_path = (u, false)) ∨
      ∃ u v, Stays m t u ∧ u.look m.new_path = none ∧ u.rename old m.new_path = some v ∧
        renameOneItem leads t old m.new_path = (v, true) := by
  have stays : Stays m t (removeOneFile leads t m.new_path).1 := removeOneFile_stays
  have renames {u : Tree ν κ τ} (removed : removeOneFile leads t m.new_path = (u, true))
      (gone : u.look m.new_path = none) :
      (∃ u, Stays m t u ∧ next (removeOneFile leads t m.new_path)
        (fun t => tried t (t.rename old m.new_path)) = (u, false)) ∨
      ∃ u v, Stays m t u ∧ u.look m.new_path = none ∧ u.rename old m.new_path = some v ∧
        next (removeOneFile leads t m.new_path)
          (fun t => tried t (t.rename old m.new_path)) = (v, true) := by
    rw [removed] at stays ⊢
    cases call : u.rename old m.new_path with
    | none => exact .inl ⟨u, stays, by simp [next, call, tried]⟩
    | some v => exact .inr ⟨u, v, stays, gone, call, by simp [next, call, tried]⟩
  unfold renameOneItem
  split
  · exact .inl ⟨t, .refl t, rfl⟩
  · rcases removeOneFile_cases leads t m.new_path with
      ⟨none_, same⟩ | ⟨-, u, drops, same⟩ | ⟨-, -, same⟩
    · exact renames same none_
    · exact renames same (look_drop drops)
    · exact .inl ⟨t, .refl t, by simp [same, next]⟩

theorem moved_safe {op : FileOp ν τ} {v : Tree ν κ τ} (renames : op.rename = some old)
    (stays : Stays m t u) (gone : u.look m.new_path = none)
    (done : u.rename old m.new_path = some v) : Safe m op t v := by
  have look := ((Tree.rename_eq_some gone).mp done).2.2.2.2
  refine ⟨fun q n there other => ?_, fun q changed => ?_⟩
  · have kept := stays.kept q n there other
    have apart : ¬ m.new_path <+: q := by
      rintro ⟨s, rfl⟩
      simp [u.look_below gone] at kept
    by_cases below : old <+: q
    · obtain ⟨s, rfl⟩ := below
      exact .inr ⟨old, renames, .inr ⟨s, rfl, by rw [look, Tree.moved_below, kept]⟩⟩
    · exact .inl (by rw [look, Tree.moved_apart apart, if_neg below, kept])
  · by_cases here : m.new_path <+: q
    · exact .inl here
    · by_cases below : old <+: q
      · exact .inr (.inl ⟨old, renames, below⟩)
      · rw [look, Tree.moved_apart here, if_neg below] at changed ⊢
        exact stays.safe.made q changed

theorem unlinked_safe {op : FileOp ν τ} (renames : op.rename = some old)
    (unlinks : m.renameUnlink = true) : Safe m op t (removeOneFile leads t old).1 := by
  have update {v : Tree ν κ τ} (look : v.look = Function.update t.look old none) :
      Safe m op t v := by
    refine ⟨fun q n there _ => ?_, fun q changed => ?_⟩
    · by_cases here : q = old
      · exact .inr ⟨old, renames, .inl ⟨unlinks, here⟩⟩
      · exact .inl (by rw [look, Function.update_of_ne here, there])
    · by_cases here : q = old
      · exact .inr (.inl ⟨old, renames, by rw [here]⟩)
      · exact absurd (by rw [look, Function.update_of_ne here]) changed
  rcases removeOneFile_cases leads t old with
    ⟨-, same⟩ | ⟨-, u, drops, same⟩ | ⟨-, -, same⟩ <;> rw [same]
  · exact (Stays.refl t).safe
  · exact update (Tree.drop_eq_some.mp drops).2.2
  · exact (Stays.refl t).safe

variable (leads o t m) in
/-- One attempt, and that nothing was moved yet where there is to be another. -/
theorem attempt_safe (op : FileOp ν τ) : Safe m op t (attempt leads o m op t).1 ∧
    ((attempt leads o m op t).2 = none → Stays m t (attempt leads o m op t).1) := by
  have all {u : Tree ν κ τ} {fate : Option Fate} (stays : Stays m t u) :
      Safe m op t (u, fate).1 ∧ ((u, fate).2 = none → Stays m t (u, fate).1) :=
    ⟨stays.safe, fun _ => stays⟩
  unfold attempt
  split
  · next old renames =>
    split
    · next unlinks => exact ⟨unlinked_safe renames unlinks, nofun⟩
    · rcases renameOneItem_cases leads t m old with
        ⟨u, stays, same⟩ | ⟨u, v, stays, gone, done, same⟩ <;> rw [same]
      · simp only [Bool.false_eq_true, if_false]
        split
        · exact all stays
        · exact all (stays.trans create_stays)
      · simp only [if_true]
        exact ⟨moved_safe renames stays gone done, nofun⟩
  · split
    · split
      · exact all (.refl t)
      · split
        · exact all removeOneFile_stays
        · exact all (removeOneFile_stays.trans create_stays)
    · split
      · split
        · exact all (.refl t)
        · exact all removeOneFile_stays
      · exact all create_stays

theorem Safe.after {op : FileOp ν τ} (stays : Stays m t t') (safe : Safe m op t' u) :
    Safe m op t u := by
  refine ⟨fun q n there other => safe.kept q n (stays.kept q n there other) other,
    fun q changed => ?_⟩
  by_cases same : t'.look q = t.look q
  · rw [← same] at changed ⊢
    exact safe.made q changed
  · rcases stays.made q same with here | ⟨way, none_, made⟩
    · exact .inl (by rw [here])
    · by_cases here : q = m.new_path
      · exact .inl (by rw [here])
      · rcases safe.kept q _ made here with there | ⟨old, renames, ⟨-, rfl⟩ | ⟨s, rfl, -⟩⟩
        · exact .inr (.inr ⟨way, none_, there⟩)
        · exact .inr (.inl ⟨_, renames, List.prefix_rfl⟩)
        · exact .inr (.inl ⟨old, renames, List.prefix_append _ _⟩)

theorem fileOpLoop_safe {op : FileOp ν τ} (n : Nat) :
    Safe m op t (fileOpLoop leads o m op n t).1 := by
  induction n generalizing t with
  | zero => exact (Stays.refl t).safe
  | succ n ih =>
    obtain ⟨safe, stays⟩ := attempt_safe leads o t m op
    unfold fileOpLoop
    split
    · next done => simpa [done] using safe
    · next again => exact .after (by simpa [again] using stays) ih

end Effects

section Agreement
open Library.Dynamic Library.Exits Guarantees.Filter
open Source.DoDownload (Operations)
variable {w : DoDownload.World} {options : DoDownload.Options} {msg : Source.Message}
  {op : FileOp ν τ} {entries : Dict Value} {code : Int} {reason path : Text.Str}

/-- A message of the protocol, of which a tree follows what it said. -/
structure Says (w : DoDownload.World) (options : DoDownload.Options) (o : Options)
    (msg : Source.Message) (m : Message ν κ τ) (op : FileOp ν τ) (entries : Dict Value) : Prop where
  events : options.fileEvents = o.fileEvents
  attempts : options.attempts = o.attempts
  fileOp : msg.get "fileOp" = some (.dict entries)
  operation : m.fileOp = some op
  rename : (entries.get "rename").isSome = op.rename.isSome
  text : ∀ old, entries.get "rename" = some old → ∃ s, old = .str s
  link : (entries.get "link").isSome = op.link.isSome
  hlink : entries.get "hlink" = none
  directory : (entries.get "directory").isSome = op.directory
  remove : (entries.get "remove").isSome = op.remove
  unlink : (msg.get "renameUnlink").isSome = m.renameUnlink
  mode : ∀ mode, msg.get "mode" = some (.str mode) → w.octal mode = true
  reportable : Reportable msg

/-- The tree that a directory or a link is made in. -/
def made (leads : Tree ν κ τ → List ν → Led) (m : Message ν κ τ) (op : FileOp ν τ)
    (t : Tree ν κ τ) : Tree ν κ τ :=
  match op.rename with
  | some old => (renameOneItem leads t old m.new_path).1
  | none => if op.directory && op.remove then (removeOneFile leads t m.new_path).1 else t

/-- How the operations of an attempt fare on a tree. -/
def operations (leads : Tree ν κ τ → List ν → Led) (m : Message ν κ τ) (op : FileOp ν τ)
    (t : Tree ν κ τ) : Operations where
  removeOneFile := (removeOneFile leads t m.new_path).2
  found := op.rename.any fun old => (t.look old).isSome
  rename := op.rename.any fun old => (renameOneItem leads t old m.new_path).2
  isdir := isdir leads (made leads m op t) m.new_dir
  makedirs := ((made leads m op t).makedirs [] m.new_dir).isSome
  made := isdir leads (directory leads m (made leads m op t)).1 m.new_path
  mkdir := ((directory leads m (made leads m op t)).1.mkdir m.new_path).isSome
  link := op.link.any fun target => (next
    (unlinked leads (directory leads m (made leads m op t)).1 m.new_path) fun t =>
      tried t (t.symlink target m.new_path)).2

/-- An attempt at the operations ends as one on the tree does. -/
def Agrees (x : DoDownload.Step (Option (Source.Message × Bool))) : Option Fate → Prop
  | none => x = .ok none
  | some (.ended slot) => ∃ msg', x = leave (msg', slot)
  | some (.falls ok) => ∃ msg', x = .ok (some (msg', ok))

variable (w msg code reason) in
theorem exists_setReport (reportable : Reportable msg) :
    ∃ msg', DoDownload.setReport w msg code reason = .ok msg' := by
  obtain ⟨msg', reports⟩ := (setReport_returns_iff w.nowstr msg code reason).mpr reportable
  exact ⟨msg', by rw [DoDownload.setReport, reports]; rfl⟩

theorem agrees_reject (reportable : Reportable msg) :
    Agrees (DoDownload.reject w msg code reason) (some (.ended .rejected)) := by
  obtain ⟨msg', reports⟩ := exists_setReport w msg code reason reportable
  exact ⟨msg', by rw [DoDownload.reject, reports]; rfl⟩

theorem agrees_accept (reportable : Reportable msg) :
    Agrees (DoDownload.accept w msg code reason) (some (.ended .ok)) := by
  obtain ⟨msg', reports⟩ := exists_setReport w msg code reason reportable
  exact ⟨msg', by rw [DoDownload.accept, reports]; rfl⟩

omit [DecidableEq ν] in
theorem tried_snd (call : Option (Tree ν κ τ)) : (tried t call).2 = call.isSome := by
  cases call <;> rfl

theorem directory_snd : (directory leads m t).2 =
    (isdir leads t m.new_dir || (t.makedirs [] m.new_dir).isSome) := by
  cases there : isdir leads t m.new_dir <;> simp [directory, provided, there, tried_snd]

theorem mkdir_snd : (mkdir leads m t).2 =
    ((isdir leads t m.new_dir || (t.makedirs [] m.new_dir).isSome) &&
      (isdir leads (directory leads m t).1 m.new_path ||
        ((directory leads m t).1.mkdir m.new_path).isSome)) := by
  rw [← directory_snd, mkdir, next]
  cases made : (directory leads m t).2 with
  | false => simp [made]
  | true =>
    cases isdir leads (directory leads m t).1 m.new_path <;> simp [provided, tried_snd]

theorem link1file_snd {target : τ} : (link1file leads m target t).2 =
    ((isdir leads t m.new_dir || (t.makedirs [] m.new_dir).isSome) &&
      (next (unlinked leads (directory leads m t).1 m.new_path) fun t =>
        tried t (t.symlink target m.new_path)).2) := by
  rw [← directory_snd, link1file, next]
  cases made : (directory leads m t).2 <;> simp [made]

theorem mkdir_agrees (said : Says w options o msg m op entries) :
    DoDownload.mkdir w (operations leads m op t) msg =
      .ok (mkdir leads m (made leads m op t)).2 := by
  have fares : (mkdir leads m (made leads m op t)).2 =
      (((operations leads m op t).isdir || (operations leads m op t).makedirs) &&
        ((operations leads m op t).made || (operations leads m op t).mkdir)) := mkdir_snd
  rw [fares]
  unfold DoDownload.mkdir
  rw [← Bool.not_or]
  cases (operations leads m op t).isdir || (operations leads m op t).makedirs with
  | false => rfl
  | true =>
    cases (operations leads m op t).made with
    | true => rfl
    | false =>
      rw [Bool.not_true, if_neg Bool.false_ne_true, if_neg Bool.false_ne_true]
      split
      · next mode there => rw [if_pos (said.mode mode there)]; rfl
      · rfl

theorem link1file_agrees {target : τ} (said : Says w options o msg m op entries)
    (links : op.link = some target) :
    DoDownload.link1file (operations leads m op t) (.dict entries) =
      .ok (link1file leads m target (made leads m op t)).2 := by
  obtain ⟨v, there⟩ := Option.isSome_iff_exists.mp (said.link.trans (by rw [links]; rfl))
  have fares : (link1file leads m target (made leads m op t)).2 =
      (((operations leads m op t).isdir || (operations leads m op t).makedirs) &&
        (operations leads m op t).link) := by
    simp only [operations, links, Option.any_some]
    exact link1file_snd
  rw [fares]
  have has : (Value.dict entries).has "link" = .ok true := by rw [Value.has, there]; rfl
  have item : (Value.dict entries).item "link" = .ok v := by rw [Value.item, Dict.item, there]
  rw [DoDownload.link1file, has, item]
  rfl

theorem has_dict (key : String) :
    DoDownload.has (.dict entries) key = .ok (entries.get key).isSome := rfl

theorem ok_bind {α β : Type} (a : α) (next : α → DoDownload.Step β) :
    (Except.ok a >>= next) = next a := rfl

theorem attempt_ok {α : Type} (a : α) :
    (Exits.attempt (.ok a) : DoDownload.Step α) = .ok a := rfl

variable (leads t path) in
theorem create_agrees (said : Says w options o msg m op entries) :
    Agrees (DoDownload.create w options (operations leads m op t) msg (.dict entries) path)
      (create leads o m op (made leads m op t)).2 := by
  unfold DoDownload.create create
  simp only [has_dict, ok_bind, attempt_ok, said.directory, said.remove, said.link, said.rename,
    said.hlink, said.events, mkdir_agrees said]
  split
  · split
    · exact agrees_reject said.reportable
    · split
      · exact agrees_accept said.reportable
      · rfl
  · cases links : op.link with
    | none => rfl
    | some target =>
      cases op.rename with
      | some old => rfl
      | none =>
        simp only [Option.isSome_some, Option.isSome_none, Bool.not_false, Bool.and_true,
          Bool.true_or, Bool.false_eq_true, if_true, if_false, link1file_agrees said links, ok_bind,
          attempt_ok]
        split
        · exact agrees_reject said.reportable
        · split
          · exact agrees_accept said.reportable
          · exact agrees_reject said.reportable

theorem rename_agrees {old : List ν} (said : Says w options o msg m op entries)
    (renames : op.rename = some old) :
    Agrees (DoDownload.operate w options (operations leads m op t) msg (.dict entries) path)
      (FileTree.attempt leads o m op t).2 := by
  obtain ⟨v, there⟩ := Option.isSome_iff_exists.mp (said.rename.trans (by rw [renames]; rfl))
  obtain ⟨text, rfl⟩ := said.text v there
  have item : (Value.dict entries).item "rename" = .ok (.str text) := by
    rw [Value.item, Dict.item, there]
  have renamed : DoDownload.renameOneItem (operations leads m op t) (.str text) =
      .ok (renameOneItem leads t old m.new_path).2 := by
    have : ((operations leads m op t).found && (operations leads m op t).rename) =
        (renameOneItem leads t old m.new_path).2 := by
      simp only [operations, renames, Option.any_some]
      cases found : t.look old <;> simp [renameOneItem, found]
    rw [← this]
    rfl
  have creates := create_agrees leads t path said
  rw [made, renames] at creates
  unfold DoDownload.operate FileTree.attempt DoDownload.rename
  simp only [has_dict, ok_bind, attempt_ok, item, there, renames, renamed, Option.isSome_some,
    if_true, said.unlink, said.link, said.directory, said.hlink]
  dsimp only at creates
  cases m.renameUnlink with
  | true =>
    obtain ⟨msg', reports⟩ := exists_setReport w msg 201
      ("old unlinked ".toList ++ w.str (.str text)) said.reportable
    exact ⟨msg', by rw [if_pos rfl, reports]; rfl⟩
  | false =>
    simp only [Bool.false_eq_true, if_false]
    split
    · obtain ⟨msg', reports⟩ := exists_setReport w msg 201 "renamed".toList
        said.reportable
      rw [reports]
      cases op.link.isSome || op.directory <;> exact ⟨msg', rfl⟩
    · cases op.link with
      | some target => exact creates
      | none =>
        cases op.directory with
        | true => exact creates
        | false => exact ⟨msg, rfl⟩

variable (leads t path) in
theorem attempt_agrees (said : Says w options o msg m op entries) :
    Agrees (DoDownload.operate w options (operations leads m op t) msg (.dict entries) path)
      (FileTree.attempt leads o m op t).2 := by
  cases renames : op.rename with
  | some old => exact rename_agrees said renames
  | none =>
    have creates := create_agrees leads t path said
    have removes : (operations leads m op t).removeOneFile =
        (removeOneFile leads t m.new_path).2 := rfl
    rw [made, renames] at creates
    unfold DoDownload.operate FileTree.attempt
    simp only [has_dict, ok_bind, said.directory, said.remove, said.rename, renames, said.events,
      Option.isSome_none, removes, Bool.false_eq_true, if_false]
    split
    · next both =>
      rw [if_pos both] at creates
      split
      · exact agrees_reject said.reportable
      · split
        · exact agrees_accept said.reportable
        · exact creates
    · next other =>
      rw [if_neg other] at creates
      split
      · split
        · exact agrees_reject said.reportable
        · split
          · exact agrees_accept said.reportable
          · exact agrees_reject said.reportable
      · exact creates

/-- The trees that the attempts start from. -/
def trees (leads : Tree ν κ τ → List ν → Led) (o : Options) (m : Message ν κ τ) (op : FileOp ν τ)
    (t : Tree ν κ τ) (i : Nat) : Tree ν κ τ :=
  (fun t => (FileTree.attempt leads o m op t).1)^[i] t

/-- The operations end as those on the tree do. -/
def Ends (x : DoDownload.Step (Source.Message × Bool)) : Fate → Prop
  | .ended slot => ∃ msg', x = leave (msg', slot)
  | .falls ok => ∃ msg', x = .ok (msg', ok)

theorem fileOpLoop_agrees (said : Says w options o msg m op entries) (n i : Nat) :
    Ends (DoDownload.fileOpLoop w options (fun i => operations leads m op (trees leads o m op t i))
      msg (.dict entries) path n i) (fileOpLoop leads o m op n (trees leads o m op t i)).2 := by
  induction n generalizing i with
  | zero => exact ⟨msg, rfl⟩
  | succ n ih =>
    have agrees := attempt_agrees leads (trees leads o m op t i) path said
    have again : trees leads o m op t (i + 1) =
        (FileTree.attempt leads o m op (trees leads o m op t i)).1 :=
      Function.iterate_succ_apply' _ _ _
    have ih := ih (i + 1)
    rw [again] at ih
    unfold DoDownload.fileOpLoop fileOpLoop
    rcases attempted : FileTree.attempt leads o m op (trees leads o m op t i) with ⟨u, fate⟩
    rw [attempted] at agrees ih
    cases fate with
    | none =>
      rw [show _ = Except.ok none from agrees]
      exact ih
    | some fate =>
      cases fate with
      | ended slot =>
        obtain ⟨msg', ends⟩ := agrees
        exact ⟨msg', by rw [ends]; rfl⟩
      | falls ok =>
        obtain ⟨msg', ends⟩ := agrees
        exact ⟨msg', by rw [ends]; rfl⟩

/-- A message that says what a tree follows ends as the tree has it: on the same list, or falling
through to the download, if its operations fare as those on the tree. -/
theorem do_fileOp_agrees (said : Says w options o msg m op entries) :
    Ends (DoDownload.do_fileOp w options
      (fun i => operations leads m op (trees leads o m op t i)) msg path)
      (do_fileOp leads o m t).2 := by
  unfold DoDownload.do_fileOp do_fileOp
  rw [said.fileOp, said.operation, said.attempts]
  exact fileOpLoop_agrees said _ 0

end Agreement
end Sarracenia.Guarantees.FileTree
