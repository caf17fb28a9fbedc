import Sarracenia.Source.Download

/-!
# A block that is downloaded again

A block is requested by its range as long as its message says that it is in place. The message
says otherwise as soon as a transfer has returned, whatever comes of it; so the next attempt is
for the same block exactly where no attempt before got that far.
-/
namespace Sarracenia.Guarantees.Download
open Library Library.Text Library.Dynamic Source.Download

section Messages
variable (naturalSize : Int → Str) (o : Options)

/-- The message is for a block of a file. -/
def InPlace (msg : Message) : Prop := ∃ blocks, msg.blocks = some blocks ∧ blocks.inplace = true

/-- Everything before the transfer goes well. -/
structure Healthy (t : Transport) : Prop where
  enters : t.enters = true
  connects : t.connects = .ok true
  getcwd : t.getcwd = true
  cd : t.cd = true
  set_sumalgo : ∀ algo, t.set_sumalgo algo = true

/-- The second message asks for what the first one asks for, and into the same file. -/
structure SameTransfer (msg msg' : Message) : Prop where
  request : ∀ t place, Healthy t → (download naturalSize o t msg' place).requested =
    (download naturalSize o t msg place).requested
  file : (msg'.named naturalSize).new_file = (msg.named naturalSize).new_file

/-- The transfer is made, and returns. -/
def Transfers (msg : Message) (t : Transport) : Prop :=
  ∃ path request len_written,
    new_inflight_path o.inflight (msg.named naturalSize).new_file = .ok (some path) ∧
      prepare o t (msg.named naturalSize) (some path) = .ok request ∧ t.get request = .ok len_written

end Messages

section Named
variable {naturalSize : Int → Str} {o : Options} {t : Transport} {msg : Message} {place : Place}

theorem download_named :
    download naturalSize o t (msg.named naturalSize) place = download naturalSize o t msg place := by
  unfold download
  rw [named_named]

theorem transfers_named :
    Transfers naturalSize o (msg.named naturalSize) t ↔ Transfers naturalSize o msg t := by
  unfold Transfers
  rw [named_named]

theorem handled_msg {path : Option Str} {requested : Option Request} {exit : Exit} :
    (handled msg path requested place exit).msg = msg := by
  cases exit with
  | returns r => rfl
  | raises => cases path <;> rfl

theorem handled_requested {path : Option Str} {requested : Option Request} {exit : Exit} :
    (handled msg path requested place exit).requested = requested := by
  cases exit with
  | returns r => rfl
  | raises => cases path <;> rfl

/-- An attempt without a transfer that returns only names the block. -/
theorem msg_of_not_transfers (not : ¬ Transfers naturalSize o msg t) :
    (download naturalSize o t msg place).msg = msg.named naturalSize := by
  unfold Transfers at not
  unfold download
  dsimp only
  cases names : new_inflight_path o.inflight (msg.named naturalSize).new_file with
  | error fault => rfl
  | ok path =>
    dsimp only
    cases prepared : prepare o t (msg.named naturalSize) path with
    | error exit => exact handled_msg
    | ok request =>
      cases path with
      | none => rfl
      | some path =>
        dsimp only
        cases got : t.get request with
        | error fault => rfl
        | ok len_written => exact absurd ⟨path, request, len_written, names, prepared, got⟩ not

/-! ## After a transfer that returned -/

theorem finish_blocks {request : Request} {len_written : Int} :
    (finish o t request len_written msg place).1.blocks = msg.blocks := by
  unfold finish
  split
  · rfl
  · -- every way out has the same message
    simp only [apply_ite Prod.fst, ite_self]
    split
    · split
      · rfl
      · rfl
    · rfl

theorem put_blocks {request : Request} {path : Str} {len_written : Int} :
    (put o t request path len_written msg place).1.blocks = msg.blocks := by
  unfold put
  split
  · exact finish_blocks
  · split
    · rfl
    · exact finish_blocks

theorem received_blocks {request : Request} {path : Str} {len_written : Int} :
    (received o t request path len_written msg place).1.blocks = msg.blocks := by
  unfold received
  dsimp only
  split
  · split
    · rfl
    · exact put_blocks
  · split
    · rfl
    · split
      · split <;> rfl
      · exact put_blocks

theorem separated_not_inPlace : ¬ InPlace msg.separated := by
  intro ⟨blocks, has, inplace⟩
  unfold Message.separated at has
  dsimp only at has
  cases was : msg.blocks with
  | none =>
    rw [was] at has
    cases has
  | some blocks' =>
    rw [was, Option.map_some] at has
    rw [← Option.some.inj has] at inplace
    split at inplace
    · exact absurd (of_decide_eq_true inplace) (by decide : "separate".toList ≠ "inplace".toList)
    · contradiction

theorem inPlace_congr {msg msg' : Message} (same : msg.blocks = msg'.blocks) :
    InPlace msg ↔ InPlace msg' := by
  unfold InPlace
  rw [same]

/-- Each transfer that returns makes a message one for a whole file. -/
theorem not_inPlace_of_transfers (transfers : Transfers naturalSize o msg t) :
    ¬ InPlace (download naturalSize o t msg place).msg := by
  obtain ⟨path, request, len_written, names, prepared, got⟩ := transfers
  unfold download
  dsimp only
  rw [names]
  dsimp only
  rw [prepared]
  dsimp only
  rw [got]
  dsimp only
  rw [handled_msg, inPlace_congr received_blocks]
  exact separated_not_inPlace

/-- It stays one for a whole file. -/
theorem not_inPlace_download (whole : ¬ InPlace msg) :
    ¬ InPlace (download naturalSize o t msg place).msg := by
  by_cases transfers : Transfers naturalSize o msg t
  · exact not_inPlace_of_transfers transfers
  · rw [msg_of_not_transfers transfers, inPlace_congr named_blocks]
    exact whole

/-! ## Runs of attempts -/

/-- All of the attempts failed. -/
def AllFailed (naturalSize : Int → Str) (o : Options) (runs : List (Transport × Place))
    (msg msg' : Message) : Prop :=
  attempts naturalSize o runs msg = (msg', .ok 0)

theorem attempts_cons {run : Transport × Place} {runs : List (Transport × Place)} {msg' : Message}
    (failed : AllFailed naturalSize o (run :: runs) msg msg') :
    AllFailed naturalSize o runs (download naturalSize o run.1 msg run.2).msg msg' := by
  unfold AllFailed at failed ⊢
  rw [attempts] at failed
  split at failed
  · exact failed
  · next other =>
    exact absurd (Prod.mk.inj failed).2 other

theorem not_inPlace_attempts {runs : List (Transport × Place)} {msg' : Message}
    (failed : AllFailed naturalSize o runs msg msg') (whole : ¬ InPlace msg) : ¬ InPlace msg' := by
  induction runs generalizing msg with
  | nil => exact (Prod.mk.inj failed).1 ▸ whole
  | cons run runs ih => exact ih (attempts_cons failed) (not_inPlace_download whole)

/-- The message keeps what it is for as long as no transfer returned. -/
theorem attempts_msg {runs : List (Transport × Place)} {msg' : Message}
    (failed : AllFailed naturalSize o runs msg msg') :
    (∀ run ∈ runs, ¬ Transfers naturalSize o msg run.1) ∧
        (msg' = msg ∨ msg' = msg.named naturalSize) ∨
      (∃ run ∈ runs, Transfers naturalSize o msg run.1) ∧ ¬ InPlace msg' := by
  induction runs generalizing msg with
  | nil => exact Or.inl ⟨fun run member => absurd member List.not_mem_nil, Or.inl (Prod.mk.inj failed).1.symm⟩
  | cons run runs ih =>
    have rest := attempts_cons failed
    by_cases transfers : Transfers naturalSize o msg run.1
    · exact Or.inr ⟨⟨run, List.mem_cons_self, transfers⟩,
        not_inPlace_attempts rest (not_inPlace_of_transfers transfers)⟩
    · rw [msg_of_not_transfers transfers] at rest
      rcases ih rest with ⟨none_, same⟩ | ⟨⟨later, member, transfers'⟩, whole⟩
      · refine Or.inl ⟨fun run' member => ?_, Or.inr ?_⟩
        · rcases List.mem_cons.mp member with rfl | later
          · exact transfers
          · exact fun transfers' => none_ run' later (transfers_named.mpr transfers')
        · rcases same with same | same
          · exact same
          · exact same.trans named_named
      · exact Or.inr ⟨⟨later, List.mem_cons_of_mem _ member, transfers_named.mp transfers'⟩, whole⟩

end Named

/-! ## What a message asks for -/

section Requests
variable {naturalSize : Int → Str} {o : Options} {t : Transport} {msg : Message} {place : Place}

/-- The length is exact for the blocks of a file, and only for them. -/
theorem range_exact {r : Range} (ranges : range msg = .ok r) : r.exactLength = true ↔ InPlace msg := by
  unfold range at ranges
  split at ranges
  · next blocks has =>
    split at ranges
    · next inplace =>
      obtain ⟨remote_offset, -, ranges⟩ := bind_ok_iff.mp ranges
      obtain ⟨block_length, -, ranges⟩ := bind_ok_iff.mp ranges
      rw [← Except.ok.inj ranges]
      exact iff_of_true rfl ⟨blocks, has, inplace⟩
    · next other =>
      rw [← Except.ok.inj ranges]
      refine iff_of_false Bool.false_ne_true fun ⟨blocks', has', inplace⟩ => other ?_
      rwa [Option.some.inj (has.symm.trans has')]
  · next none_ =>
    rw [← Except.ok.inj ranges]
    refine iff_of_false Bool.false_ne_true fun ⟨blocks', has', _⟩ => ?_
    rw [none_] at has'
    cases has'

theorem prepare_ok {path : Option Str} {request : Request} (prepared : prepare o t msg path = .ok request) :
    range msg = .ok request.range ∧ setSum o t msg = .ok () := by
  unfold prepare at prepared
  split at prepared
  · cases prepared
  split at prepared
  · cases prepared
  · cases prepared
  split at prepared
  · cases prepared
  split at prepared
  · cases prepared
  split at prepared
  · next ranges sums =>
    rw [← Except.ok.inj prepared]
    exact ⟨ranges, sums⟩
  · cases prepared

theorem requested_range {request : Request}
    (asks : (download naturalSize o t msg place).requested = some request) :
    range (msg.named naturalSize) = .ok request.range := by
  unfold download at asks
  dsimp only at asks
  split at asks
  · cases asks
  split at asks
  · rw [handled_requested] at asks
    cases asks
  next request' prepared =>
    have same : request' = request := by
      split at asks
      · exact Option.some.inj asks
      split at asks
      · exact Option.some.inj asks
      · rw [handled_requested] at asks
        exact Option.some.inj asks
    exact same ▸ (prepare_ok prepared).1

theorem setSum_healthy (healthy : Healthy t) {t' : Transport} (sums : setSum o t' msg = .ok ()) :
    setSum o t msg = .ok () := by
  unfold setSum at sums ⊢
  obtain ⟨algo, found, sums⟩ := bind_ok_iff.mp sums
  refine bind_ok_iff.mpr ⟨algo, found, ?_⟩
  split at sums
  · exact sums
  · next algo =>
    rw [healthy.set_sumalgo, Bool.not_true, if_neg Bool.false_ne_true]
    split at sums
    · cases sums
    · exact sums

variable (place) in
/-- A healthy transport is asked for what any transport is asked for that returned. -/
theorem healthy_requested (healthy : Healthy t) {t' : Transport}
    (transfers : Transfers naturalSize o msg t') :
    ∃ request, (download naturalSize o t msg place).requested = some request := by
  obtain ⟨path, request, len_written, names, prepared, -⟩ := transfers
  have ranges := (prepare_ok prepared).1
  have sums := setSum_healthy healthy (prepare_ok prepared).2
  have ready : ∃ request', prepare o t (msg.named naturalSize) (some path) = .ok request' := by
    unfold prepare
    rw [healthy.enters, healthy.connects, healthy.getcwd, healthy.cd, ranges, sums]
    exact ⟨_, rfl⟩
  obtain ⟨request', ready⟩ := ready
  refine ⟨request', ?_⟩
  unfold download
  dsimp only
  rw [names]
  dsimp only
  rw [ready]
  dsimp only
  split
  · rfl
  · exact handled_requested

/-- Everything goes well, and three bytes are transferred. -/
def healthyTransport : Transport where
  enters := true
  connects := .ok true
  getcwd := true
  cd := true
  set_sumalgo _ := true
  hasAccel := false
  writes _ _ := some [7, 8, 9]
  get _ := .ok 3
  update_file := true
  stat := none
  magic := true
  sumstr := .none
  attributes := true
  delete := none

def nowhere : Place := ⟨fun _ => none, false⟩

theorem healthyTransport_healthy : Healthy healthyTransport := ⟨rfl, rfl, rfl, rfl, fun _ => rfl⟩

def noInflight : Options where
  inflight := none
  acceptSizeWrong := false
  delete := false
  accelThreshold := 0
  identity_method := none
  filetypes := false

/-- The second one of two blocks of three bytes. -/
def secondBlock : Message where
  new_file := "f".toList
  local_offset := 0
  size := some 3
  blocks := some ⟨"inplace".toList, 3, 1, (Table.empty.set 0 3).set 1 3⟩
  identity := none
  mtime := none
  pubTime := []
  contentType := true

/-- The connection breaks. -/
def broken : Transport := { healthyTransport with get := fun _ => .error .osError }

/-- One byte is transferred. -/
def short : Transport := { healthyTransport with get := fun _ => .ok 1 }

end Requests
end Sarracenia.Guarantees.Download
