import Sarracenia.Source.Download

/-!
# A download that fails leaves everything as it was

A whole file is downloaded under a temporary name. Each exit is compared with what it should
leave: the file, the temporary file and the remote one. What a failing exit depends on is what
the transport left under the temporary name, and how far the file had come to its place.
-/
namespace Sarracenia.Guarantees.Download
open Library Library.Text Library.Dynamic Source.Download
open Source.Transfer (Bytes)

section Names

/-- A name made for a temporary file is another one than that of the file. -/
theorem temporary_ne {setting new_file path : Str}
    (names : new_inflight_path (some setting) new_file = .ok (some path)) : path ≠ new_file := by
  have longer {a b : Str} (more : a.length < b.length) : b ≠ a := fun same => by
    rw [same] at more
    exact absurd more (Nat.lt_irrefl _)
  refine longer ?_
  cases setting with
  | nil => cases names
  | cons c rest =>
    rw [new_inflight_path] at names
    split at names
    · rw [← Option.some.inj (Except.ok.inj names), List.length_cons]
      exact Nat.lt_succ_self _
    split at names
    · rw [← Option.some.inj (Except.ok.inj names), List.length_append, List.length_cons]
      omega
    split at names
    · rw [← Option.some.inj (Except.ok.inj names), List.length_append, List.length_cons]
      omega
    · cases names

theorem separated_whole {msg : Message} (whole : msg.blocks = none) : msg.separated = msg := by
  cases msg
  subst whole
  rfl

end Names

/-! ## What an attempt should leave -/

section Atomic
variable (before : Place) (new_file path : Str)

/-- The file is as before, the temporary one is gone, and the remote one is there. -/
structure Unchanged (after : Place) : Prop where
  file : after.files new_file = before.files new_file
  temporary : after.files path = none
  remote : after.deleted = false

/-- The file is what the transport wrote. -/
structure Replaced (wrote : Option Bytes) (after : Place) : Prop where
  file : after.files new_file = wrote
  some_ : wrote.isSome
  temporary : after.files path = none

/-- Nothing is changed by an attempt that fails, and by one that succeeds the file is what
the transport wrote at its request. -/
def Atomic (t : Transport) (attempt : Attempt) : Prop :=
  ∀ r, attempt.result = .ok r →
    (r = 0 ∨ r = -1 → Unchanged before new_file path attempt.place) ∧
      (r = 1 → ∃ request, attempt.requested = some request ∧
        Replaced new_file path (t.writes request (before.files path)) attempt.place)

end Atomic

section Safe
variable (o : Options) (t : Transport) (msg : Message) (place : Place) (path : Str)

/-- The transfer is taken for good, and the temporary file for the file. -/
def Accepted (request : Request) (len_written : Int) : Prop :=
  len_written = request.range.block_length ∧ (request.accelerated → t.update_file) ∨
    len_written ≠ request.range.block_length ∧ 0 ≤ len_written ∧
      (request.range.block_length = 0 ∨ o.acceptSizeWrong)

/-- The type of the file or its attributes raise an exception. -/
def Finishes : Prop := (o.filetypes ∧ ¬ msg.contentType → t.magic) ∧ t.attributes

/-- A file of a size that was announced came with no bytes, and that was accepted. -/
def Empty (request : Request) (len_written : Int) : Prop :=
  len_written = 0 ∧ request.range.block_length ≠ 0

def Deletes : Prop := o.delete ∧ t.delete = some true

/-- When an attempt is atomic, from what is there before and what the transport does. -/
def Safe : Prop :=
  match prepare o t msg (some path) with
  | .error (.returns _) => place.files path = none
  | .error .raises => True
  | .ok request =>
    match t.get request, t.writes request (place.files path) with
    | .error _, wrote => wrote = none
    | .ok len_written, none => Accepted o t request len_written → place.files msg.new_file = none
    | .ok len_written, some content =>
      Accepted o t request len_written →
        (¬ Finishes o t msg ∨ Empty request len_written → place.files msg.new_file = some content) ∧
          (Finishes o t msg ∧ Empty request len_written → ¬ Deletes o t)

end Safe

/-! ## The exits -/

section Exits
variable {o : Options} {t : Transport} {msg : Message} {place : Place} {path : Str} {request : Request}
  {len_written : Int}

theorem prepare_returns {path : Option Str} {r : Int}
    (returns : prepare o t msg path = .error (.returns r)) : r = 0 := by
  unfold prepare at returns
  split at returns
  · exact (Exit.returns.inj (Except.error.inj returns)).symm
  split at returns
  · cases returns
  · exact (Exit.returns.inj (Except.error.inj returns)).symm
  split at returns
  · cases returns
  split at returns
  · exact (Exit.returns.inj (Except.error.inj returns)).symm
  split at returns
  · cases returns
  · cases returns

theorem finish_fails (fails : ¬ Finishes o t msg) :
    (finish o t request len_written msg place).2 = (place, .raises) := by
  unfold finish
  by_cases magic : (o.filetypes && !msg.contentType && !t.magic) = true
  · rw [if_pos magic]
  · rw [if_neg magic]
    have attributes : t.attributes = false := by
      by_contra attributes
      refine fails ⟨fun untyped => ?_, by simpa using attributes⟩
      by_contra none_
      exact magic (by simp [untyped.1, untyped.2, none_])
    dsimp only
    rw [attributes, Bool.not_false, if_pos rfl]

/-- What is left where the remote file is to be deleted. -/
def afterDelete (o : Options) (t : Transport) (place : Place) : Place :=
  if o.delete && t.delete = some true then { place with deleted := true } else place

theorem afterDelete_files : (afterDelete o t place).files = place.files := by
  unfold afterDelete
  split <;> rfl

theorem afterDelete_deleted (kept : place.deleted = false) :
    (afterDelete o t place).deleted = false ↔ ¬ Deletes o t := by
  unfold afterDelete Deletes
  by_cases deletes : (o.delete && decide (t.delete = some true)) = true
  · rw [if_pos deletes]
    simpa using deletes
  · rw [if_neg deletes]
    simpa [kept] using deletes

theorem finish_ends (finishes : Finishes o t msg) (accepted : Accepted o t request len_written) :
    (finish o t request len_written msg place).2 =
      (afterDelete o t place,
        .returns (if len_written = 0 ∧ request.range.block_length ≠ 0 then 0 else 1)) := by
  unfold finish
  have magic : (o.filetypes && !msg.contentType && !t.magic) = false := by
    by_contra fails
    simp only [Bool.not_eq_false, Bool.and_eq_true, Bool.not_eq_true'] at fails
    have := finishes.1 ⟨fails.1.1, by simp [fails.1.2]⟩
    rw [fails.2] at this
    cases this
  rw [magic, if_neg Bool.false_ne_true]
  dsimp only
  rw [finishes.2, Bool.not_true, if_neg Bool.false_ne_true]
  change (if ((o.acceptSizeWrong || decide (request.range.block_length = 0)) && decide (0 < len_written)) =
    true then _ else _ : Message × Place × Exit).2 = _
  unfold Accepted at accepted
  generalize request.range.block_length = block_length at *
  by_cases more : ((o.acceptSizeWrong || decide (block_length = 0)) && decide (0 < len_written)) = true
  · have some_ : ¬ (len_written = 0 ∧ block_length ≠ 0) := fun none_ => by
      rw [none_.1] at more
      simp at more
    rw [if_pos more, if_neg some_]
    rfl
  · rw [if_neg more]
    by_cases same : len_written = block_length
    · have some_ : ¬ (len_written = 0 ∧ block_length ≠ 0) := fun none_ =>
        none_.2 (same.symm.trans none_.1)
      rw [if_neg (not_not.mpr same), if_neg some_]
      rfl
    · obtain ⟨-, least, taken⟩ := accepted.resolve_left fun both => same both.1
      have none_ : len_written = 0 := by
        by_contra some_
        refine more (by simp [show 0 < len_written by omega]; exact taken.symm)
      have empty : len_written = 0 ∧ block_length ≠ 0 :=
        ⟨none_, fun zero => same (none_.trans zero.symm)⟩
      rw [if_pos same, if_pos empty]
      rfl

/-- What follows the renaming, from the file that is in place. -/
theorem put_eq (apart : path ≠ msg.new_file) :
    put o t request path len_written msg place =
      match place.files path with
      | none => (msg, place.write msg.new_file none, .raises)
      | some content =>
        finish o t request len_written msg ((place.write path none).write msg.new_file (some content)) := by
  have kept : (place.write msg.new_file none).files path = place.files path := if_neg apart
  have moved : put o t request path len_written msg place =
      match (place.write msg.new_file none).files path with
      | none => (msg, place.write msg.new_file none, .raises)
      | some content =>
        finish o t request len_written msg ((place.write path none).write msg.new_file (some content)) :=
    if_neg apart
  rw [moved, kept]

theorem discrepancy_value {r : Int} (why : discrepancy t len_written msg = .ok r) : r = 0 ∨ r = -1 := by
  unfold discrepancy at why
  split at why
  · exact Or.inl (Except.ok.inj why).symm
  · obtain ⟨current_stat, -, why⟩ := bind_ok_iff.mp why
    obtain ⟨mtime, -, why⟩ := bind_ok_iff.mp why
    split at why
    · exact Or.inl (Except.ok.inj why).symm
    · split at why
      · exact Or.inr (Except.ok.inj why).symm
      · split at why
        · exact Or.inr (Except.ok.inj why).symm
        · exact Or.inl (Except.ok.inj why).symm

variable (t msg place request len_written) in
/-- A transfer is accepted, or ends in a failure that leaves the file alone. -/
theorem received_cases (named : o.inflight.isSome) :
    Accepted o t request len_written ∧
        ((received o t request path len_written msg place =
            put o t request path len_written msg place) ∨
          received o t request path len_written msg place =
            put o t request path len_written { msg with size := some len_written } place) ∨
      ¬ Accepted o t request len_written ∧
        ((received o t request path len_written msg place).2 = (place, .raises) ∨
          ∃ r, (received o t request path len_written msg place).2 = (place.write path none, .returns r) ∧
            (r = 0 ∨ r = -1)) := by
  have discards : discard o path place = place.write path none := if_pos named
  unfold received Accepted
  rw [discards]
  generalize request.range.block_length = block_length
  dsimp only
  by_cases same : len_written = block_length
  · rw [if_pos same]
    by_cases fails : (request.accelerated && !t.update_file) = true
    · rw [if_pos fails]
      simp only [Bool.and_eq_true, Bool.not_eq_true'] at fails
      refine Or.inr ⟨?_, Or.inl rfl⟩
      simp [same, fails.1, fails.2]
    · rw [if_neg fails]
      refine Or.inl ⟨Or.inl ⟨same, fun accelerated => ?_⟩, Or.inl rfl⟩
      simpa [accelerated] using fails
  · rw [if_neg same]
    by_cases negative : len_written < 0
    · rw [if_pos negative]
      refine Or.inr ⟨?_, Or.inr ⟨0, rfl, Or.inl rfl⟩⟩
      omega
    · rw [if_neg negative]
      by_cases refused : block_length ≠ 0 ∧ (!o.acceptSizeWrong) = true
      · rw [if_pos refused]
        refine Or.inr ⟨?_, ?_⟩
        · have wrong : ¬ o.acceptSizeWrong = true := by simpa using refused.2
          simp [same, refused.1, wrong]
        · cases why : discrepancy t len_written msg with
          | error fault => exact Or.inl rfl
          | ok retval => exact Or.inr ⟨retval, rfl, discrepancy_value why⟩
      · rw [if_neg refused]
        refine Or.inl ⟨Or.inr ⟨same, by omega, ?_⟩, Or.inr rfl⟩
        by_contra neither
        rw [not_or] at neither
        exact refused ⟨neither.1, by simpa using neither.2⟩

end Exits

/-! ## The attempt -/

section Attempts
variable {o : Options} {t : Transport} {msg msg' : Message} {before place : Place} {new_file path : Str}
  {request : Option Request}

theorem unchanged_write_iff (apart : path ≠ new_file) :
    Unchanged before new_file path (place.write path none) ↔
      place.files new_file = before.files new_file ∧ place.deleted = false := by
  have file : (place.write path none).files new_file = place.files new_file := if_neg apart.symm
  have temporary : (place.write path none).files path = none := if_pos rfl
  constructor
  · intro unchanged
    exact ⟨file.symm.trans unchanged.file, unchanged.remote⟩
  · intro ⟨same, there⟩
    exact ⟨file.trans same, temporary, there⟩

/-- The handler leaves what it is given but the temporary file. -/
theorem raises_atomic_iff (apart : path ≠ new_file) :
    Atomic before new_file path t (handled msg' (some path) request place .raises) ↔
      place.files new_file = before.files new_file ∧ place.deleted = false := by
  rw [← unchanged_write_iff apart]
  constructor
  · intro atomic
    exact (atomic 0 rfl).1 (Or.inl rfl)
  · intro unchanged r returned
    obtain rfl := Except.ok.inj returned
    exact ⟨fun _ => unchanged, fun one => absurd one (by decide)⟩

theorem returns_atomic_iff {r : Int} (fails : r = 0 ∨ r = -1) (path' : Option Str) :
    Atomic before new_file path t (handled msg' path' request place (.returns r)) ↔
      Unchanged before new_file path place := by
  constructor
  · intro atomic
    exact (atomic r rfl).1 fails
  · intro unchanged r' returned
    obtain rfl := Except.ok.inj returned
    refine ⟨fun _ => unchanged, fun one => ?_⟩
    rw [one] at fails
    exact absurd fails (by decide)

theorem one_atomic_iff {asked : Request} {path' : Option Str} :
    Atomic before new_file path t (handled msg' path' (some asked) place (.returns 1)) ↔
      Replaced new_file path (t.writes asked (before.files path)) place := by
  constructor
  · intro atomic
    obtain ⟨request, same, replaced⟩ := (atomic 1 rfl).2 rfl
    exact Option.some.inj same ▸ replaced
  · intro replaced r returned
    obtain rfl := Except.ok.inj returned
    exact ⟨fun fails => absurd fails (by decide), fun _ => ⟨asked, rfl, replaced⟩⟩

/-- A triple of the body, for the handler. -/
def ended (path : Option Str) (request : Option Request) (left : Message × Place × Exit) : Attempt :=
  handled left.1 path request left.2.1 left.2.2

theorem ended_eq {left : Message × Place × Exit} {place : Place} {exit : Exit}
    (is : left.2 = (place, exit)) (path : Option Str) :
    ended path request left = handled left.1 path request place exit := by
  rw [ended, is]

/-- What was written goes into place, and how that ends decides. -/
theorem put_atomic_iff {asked : Request} {len_written : Int} (apart : path ≠ msg.new_file)
    (there : before.deleted = false) (accepted : Accepted o t asked len_written) :
    Atomic before msg.new_file path t (ended (some path) (some asked)
        (put o t asked path len_written msg
          (before.write path (t.writes asked (before.files path))))) ↔
      match t.writes asked (before.files path) with
      | none => before.files msg.new_file = none
      | some content =>
        (¬ Finishes o t msg ∨ Empty asked len_written → before.files msg.new_file = some content) ∧
          (Finishes o t msg ∧ Empty asked len_written → ¬ Deletes o t) := by
  rw [put_eq apart, Place.write_files]
  simp only [if_true]
  cases wrote : t.writes asked (before.files path) with
  | none =>
    have gone : ((before.write path none).write msg.new_file none).files msg.new_file = none := if_pos rfl
    dsimp only
    rw [ended, raises_atomic_iff apart]
    exact ⟨fun both => both.1.symm.trans gone, fun none_ => ⟨gone.trans none_.symm, there⟩⟩
  | some content =>
    dsimp only
    let inPlace := ((before.write path (some content)).write path none).write msg.new_file (some content)
    have file : inPlace.files msg.new_file = some content := if_pos rfl
    have temporary : inPlace.files path = none := by
      simp only [inPlace, Place.write_files, if_neg apart, if_true]
    have kept : inPlace.deleted = false := there
    by_cases finishes : Finishes o t msg
    · rw [ended_eq (finish_ends finishes accepted)]
      by_cases empty : len_written = 0 ∧ asked.range.block_length ≠ 0
      · rw [if_pos empty, returns_atomic_iff (Or.inl rfl) _]
        constructor
        · intro unchanged
          refine ⟨fun _ => ?_, fun _ => (afterDelete_deleted kept).mp unchanged.remote⟩
          rw [← unchanged.file, afterDelete_files]
          exact file
        · intro ⟨same, remains⟩
          refine ⟨?_, ?_, (afterDelete_deleted kept).mpr (remains ⟨finishes, empty⟩)⟩
          · rw [afterDelete_files, same (Or.inr empty)]
            exact file
          · rw [afterDelete_files]
            exact temporary
      · rw [if_neg empty, one_atomic_iff, wrote]
        refine iff_of_true ⟨?_, rfl, ?_⟩ ⟨fun wrong => ?_, fun both => absurd both.2 empty⟩
        · rw [afterDelete_files]
          exact file
        · rw [afterDelete_files]
          exact temporary
        · exact absurd wrong (not_or.mpr ⟨not_not.mpr finishes, empty⟩)
    · rw [ended_eq (finish_fails finishes), raises_atomic_iff apart]
      constructor
      · intro both
        exact ⟨fun _ => both.1.symm.trans file, fun wrong => absurd wrong.1 finishes⟩
      · intro condition
        exact ⟨file.trans (condition.1 (Or.inl finishes)).symm, there⟩

end Attempts

/-! ## A download that succeeds, and two that fail -/

section Runs

/-- A far end that does what it is asked; what the transfer leaves and returns is given. -/
def answering (writes : Option Bytes) (get : Except Fault Int) : Transport where
  enters := true
  connects := .ok true
  getcwd := true
  cd := true
  set_sumalgo _ := true
  hasAccel := false
  writes _ _ := writes
  get _ := get
  update_file := true
  stat := none
  magic := true
  sumstr := .none
  attributes := true
  delete := some true

def dotted (acceptSizeWrong : Bool) : Options where
  inflight := some ".".toList
  acceptSizeWrong := acceptSizeWrong
  delete := true
  accelThreshold := 0
  identity_method := none
  filetypes := false

/-- A file of three bytes is announced. -/
def announced : Message where
  new_file := "f".toList
  local_offset := 0
  size := some 3
  blocks := none
  identity := none
  mtime := none
  pubTime := []
  contentType := true

/-- There is a file of that name. -/
def old : Place := ⟨fun path => if path = "f".toList then some [1] else none, false⟩

end Runs
end Sarracenia.Guarantees.Download
