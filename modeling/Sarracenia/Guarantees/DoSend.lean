import Sarracenia.Source.DoSend
import Mathlib.Data.List.Perm.Basic

/-!
# Where `do_send` puts the messages

Each message is either refused or tried, and its own answers decide which list it is put
on, unless no attempt at all is allowed: the last answer is then tested before there is one.

* what the attempts at one message come to (`attemptLoop_own`), and one turn of the loop
  (`sendOne_tried`, `sendOne_untried`, `sendOne_refused`);
* the lists after the whole loop (`sendLoop_lists`), and what a loop that ends says about
  every message (`sendLoop_ready`);
* `do_send` ends with every message on exactly one list, by its own answers, exactly when
  no message raises while it is weeded out, and none is to be tried with no attempt allowed
  (`do_send_conserves_iff`).
-/
namespace Sarracenia.Guarantees.DoSend
open Library Library.Text Library.Dynamic Source Source.Filter Source.DoSend

section Verdict
variable {σ : Type} (send : σ → Message → σ × Message × Int)

/-- What at most `n` attempts at a message come to: the first answer that decides, or 0. -/
def ownAnswer : Nat → σ → Message → σ × Message × Int
  | 0, connection, msg => (connection, msg, 0)
  | n + 1, connection, msg =>
    let (connection, msg, answer) := send connection msg
    if answer = 0 then ownAnswer n connection msg else (connection, msg, answer)

def fateOf (answer : Int) : Fate :=
  if 0 < answer then .accepted else if answer < 0 then .rejected else .failed

variable (o : DoSend.Options)

/-- The fate each message has coming to it: one that is refused is rejected, and any other
goes by its own answers. -/
def fates : σ → List Held → List (Nat × Fate)
  | _, [] => []
  | connection, h :: hs =>
    match refusal o h.fields with
    | .ok none =>
      let (connection, _, answer) := ownAnswer send o.attempts.toNat connection h.fields
      (h.tag, fateOf answer) :: fates connection hs
    | _ => (h.tag, .rejected) :: fates connection hs

def chosen (fate : Fate) (decided : List (Nat × Fate)) : List Nat :=
  (decided.filter (·.2 = fate)).map (·.1)

def tags (hs : List Held) : List Nat := hs.map (·.tag)

/-- Every message of the batch is on the one list that its fate names, once, after what
was there; with `download` off the batch itself is what is done. -/
structure Conserved (connection : σ) (before after : Worklist) : Prop where
  incoming : after.incoming = []
  once : (tags after.ok ++ tags after.rejected ++ tags after.failed).Perm
    ((if o.download then tags before.ok else []) ++ tags before.rejected ++ tags before.failed ++
      tags before.incoming)
  ok : tags after.ok = if o.download then
    tags before.ok ++ chosen .accepted (fates send o connection before.incoming)
    else tags before.incoming
  rejected : o.download → tags after.rejected =
    tags before.rejected ++ chosen .rejected (fates send o connection before.incoming)
  failed : o.download → tags after.failed =
    tags before.failed ++ chosen .failed (fates send o connection before.incoming)

/-- A message that `do_send` can deal with: one it refuses, with a report that can be
written, or one it may try at least once. -/
def Ready (now : Str) (msg : Message) : Prop :=
  (∃ code reason fields, refusal o msg = .ok (some (code, reason)) ∧
      msg.setReport now code reason = .ok fields) ∨
    refusal o msg = .ok none ∧ 0 < o.attempts

end Verdict

section Lists

@[simp] theorem tags_append (hs hs' : List Held) : tags (hs ++ hs') = tags hs ++ tags hs' :=
  List.map_append

@[simp] theorem tags_cons (h : Held) (hs : List Held) : tags (h :: hs) = h.tag :: tags hs := rfl

@[simp] theorem tags_nil : tags [] = [] := rfl

theorem chosen_cons (fate fate' : Fate) (tag : Nat) (decided : List (Nat × Fate)) :
    chosen fate ((tag, fate') :: decided) =
      (if fate' = fate then [tag] else []) ++ chosen fate decided := by
  unfold chosen
  by_cases same : fate' = fate
  · rw [List.filter_cons_of_pos (by simpa using same), List.map_cons, if_pos same]
    rfl
  · rw [List.filter_cons_of_neg (by simpa using same), if_neg same]
    rfl

end Lists

section Loop
variable {σ : Type} (send : σ → Message → σ × Message × Int) (now : Str) (o : DoSend.Options)

/-- Putting a message on the list its fate names. -/
def put (fate : Fate) (h : Held) (p : Progress σ) : Progress σ :=
  match fate with
  | .accepted => { p with ok := p.ok ++ [h] }
  | .rejected => { p with rejected := p.rejected ++ [h] }
  | .failed => { p with failed := p.failed ++ [h] }
  | .dropped => p

/-- One attempt: an answer that decides puts the message on its list. -/
theorem attemptLoop_succ (n : Nat) (h : Held) (p : Progress σ) :
    attemptLoop send (n + 1) h p =
      let (connection, fields, answer) := send p.connection h.fields
      let p := { p with connection, retval := some answer }
      if answer = 0 then attemptLoop send n ⟨h.tag, fields⟩ p
      else (⟨h.tag, fields⟩, put (fateOf answer) ⟨h.tag, fields⟩ p) := by
  rcases sent : send p.connection h.fields with ⟨connection, fields, answer⟩
  simp only [attemptLoop, sent]
  rcases Int.lt_trichotomy answer 0 with refused | rfl | accepted
  · have low : ¬ 0 < answer := by omega
    simp [put, fateOf, refused, refused.ne, low]
  · simp
  · simp [put, fateOf, accepted, accepted.ne']

/-- The attempts leave their own answer and, if it decides, the message on a list. -/
theorem attemptLoop_own (n : Nat) (h : Held) (p : Progress σ) :
    attemptLoop send (n + 1) h p =
      let (connection, fields, answer) := ownAnswer send (n + 1) p.connection h.fields
      let p := { p with connection, retval := some answer }
      (⟨h.tag, fields⟩, if answer = 0 then p else put (fateOf answer) ⟨h.tag, fields⟩ p) := by
  induction n generalizing h p with
  | zero =>
    rw [attemptLoop_succ, ownAnswer]
    rcases send p.connection h.fields with ⟨connection, fields, answer⟩
    by_cases undecided : answer = 0
    · subst undecided
      rfl
    · simp only [if_neg undecided]
  | succ n ih =>
    rw [attemptLoop_succ, ownAnswer]
    rcases send p.connection h.fields with ⟨connection, fields, answer⟩
    by_cases undecided : answer = 0
    · subst undecided
      exact ih ⟨h.tag, fields⟩ { p with connection, retval := some 0 }
    · simp only [if_neg undecided]

theorem sendOne_refused {h : Held} {p : Progress σ} {code : Int} {reason : Str} {fields : Message}
    (refused : refusal o h.fields = .ok (some (code, reason)))
    (reported : h.fields.setReport now code reason = .ok fields) :
    sendOne send now o h p = .ok (put .rejected ⟨h.tag, fields⟩ p) := by
  unfold sendOne
  rw [refused]
  show (h.fields.setReport now code reason >>= _) = _
  rw [reported]
  rfl

/-- A message that is tried goes by its own answers, whatever the one before left. -/
theorem sendOne_tried {h : Held} {p : Progress σ} (wanted : refusal o h.fields = .ok none)
    (allowed : 0 < o.attempts) :
    sendOne send now o h p =
      let (connection, fields, answer) :=
        ownAnswer send o.attempts.toNat p.connection h.fields
      .ok (put (fateOf answer) ⟨h.tag, fields⟩ { p with connection, retval := some answer }) := by
  obtain ⟨n, count⟩ : ∃ n, o.attempts.toNat = n + 1 := ⟨o.attempts.toNat - 1, by omega⟩
  unfold sendOne
  simp only [wanted, count, attemptLoop_own, bind, Except.bind]
  rcases ownAnswer send (n + 1) p.connection h.fields with ⟨connection, fields, answer⟩
  by_cases undecided : answer = 0
  · subst undecided
    simp [put, fateOf]
    rfl
  · have kept (fate : Fate) (h : Held) (q : Progress σ) : (put fate h q).retval = q.retval := by
      cases fate <;> rfl
    simp only [if_neg undecided, kept]
    rfl

/-- With no attempt allowed the answer that is tested is the one before. -/
theorem sendOne_untried {h : Held} {p : Progress σ} (wanted : refusal o h.fields = .ok none)
    (standby : o.attempts ≤ 0) (unset : p.retval = none) :
    sendOne send now o h p = .error .nameError := by
  unfold sendOne
  simp only [wanted, Int.toNat_of_nonpos standby, attemptLoop, unset, bind, Except.bind]

/-- One turn that ends says that its message was ready, and sets no answer in standby. -/
theorem sendOne_ready {h : Held} {p q : Progress σ} (unset : o.attempts ≤ 0 → p.retval = none)
    (done : sendOne send now o h p = .ok q) :
    Ready o now h.fields ∧ (o.attempts ≤ 0 → q.retval = none) := by
  obtain ⟨outcome, asked, _⟩ := bind_ok_iff.mp done
  cases outcome with
  | none =>
    by_cases standby : o.attempts ≤ 0
    · rw [sendOne_untried send now o asked standby (unset standby)] at done
      cases done
    · exact ⟨.inr ⟨asked, by omega⟩, fun standby' => absurd standby' standby⟩
  | some report =>
    obtain ⟨code, reason⟩ := report
    have reported : ∃ fields, h.fields.setReport now code reason = .ok fields := by
      unfold sendOne at done
      simp only [asked, bind_ok_iff, Except.ok.injEq, exists_eq_left'] at done
      obtain ⟨fields, reported, -⟩ := done
      exact ⟨fields, reported⟩
    obtain ⟨fields, reported⟩ := reported
    rw [sendOne_refused send now o asked reported] at done
    obtain rfl := Except.ok.inj done
    exact ⟨.inl ⟨code, reason, fields, asked, reported⟩, unset⟩

theorem sendLoop_ready {hs : List Held} {p q : Progress σ}
    (unset : o.attempts ≤ 0 → p.retval = none) (done : sendLoop send now o hs p = .ok q) :
    ∀ h ∈ hs, Ready o now h.fields := by
  induction hs generalizing p with
  | nil => simp
  | cons h hs ih =>
    obtain ⟨p', first, rest⟩ := bind_ok_iff.mp done
    obtain ⟨ready, unset'⟩ := sendOne_ready send now o unset first
    intro h' mem
    rcases List.mem_cons.mp mem with rfl | mem
    · exact ready
    · exact ih unset' rest h' mem

/-- The lists after a loop over messages that are all ready. -/
theorem sendLoop_lists {hs : List Held} (p : Progress σ)
    (ready : ∀ h ∈ hs, Ready o now h.fields) :
    ∃ q, sendLoop send now o hs p = .ok q ∧
      tags q.ok = tags p.ok ++ chosen .accepted (fates send o p.connection hs) ∧
      tags q.rejected = tags p.rejected ++ chosen .rejected (fates send o p.connection hs) ∧
      tags q.failed = tags p.failed ++ chosen .failed (fates send o p.connection hs) := by
  induction hs generalizing p with
  | nil => exact ⟨p, rfl, by simp [fates, chosen], by simp [fates, chosen], by simp [fates, chosen]⟩
  | cons h hs ih =>
    -- one turn puts the message on the list of its fate, and leaves the connection of `fates`
    obtain ⟨fields, fate, p₁, turn, decided, same⟩ : ∃ fields fate p₁,
        sendOne send now o h p = .ok (put fate ⟨h.tag, fields⟩ p₁) ∧
        fates send o p.connection (h :: hs) =
          (h.tag, fate) :: fates send o p₁.connection hs ∧
        p₁.ok = p.ok ∧ p₁.rejected = p.rejected ∧ p₁.failed = p.failed := by
      rcases ready h List.mem_cons_self with ⟨code, reason, fields, refused, reported⟩ | ⟨wanted, allowed⟩
      · refine ⟨fields, .rejected, p, sendOne_refused send now o refused reported, ?_, rfl, rfl, rfl⟩
        rw [fates, refused]
      · refine ⟨_, _, _, sendOne_tried send now o wanted allowed, ?_, rfl, rfl, rfl⟩
        rw [fates, wanted]
    obtain ⟨sameOk, sameRejected, sameFailed⟩ := same
    obtain ⟨q, rest, ok, rejected, failed⟩ :=
      ih (put fate ⟨h.tag, fields⟩ p₁) fun h' mem => ready h' (List.mem_cons_of_mem _ mem)
    have connection : (put fate ⟨h.tag, fields⟩ p₁).connection = p₁.connection := by
      cases fate <;> rfl
    refine ⟨q, by rw [sendLoop, turn]; exact rest, ?_, ?_, ?_⟩
    · rw [ok, connection, decided, chosen_cons, ← sameOk]
      cases fate <;> simp [put]
    · rw [rejected, connection, decided, chosen_cons, ← sameRejected]
      cases fate <;> simp [put]
    · rw [failed, connection, decided, chosen_cons, ← sameFailed]
      cases fate <;> simp [put]

/-- No message has coming to it to be dropped, so the three lists take them all. -/
theorem chosen_perm (connection : σ) (hs : List Held) :
    (chosen .accepted (fates send o connection hs) ++
      chosen .rejected (fates send o connection hs) ++
      chosen .failed (fates send o connection hs)).Perm (tags hs) := by
  induction hs generalizing connection with
  | nil => exact List.Perm.refl _
  | cons h hs ih =>
    obtain ⟨connection', fate, decided, listed⟩ : ∃ connection' fate,
        fates send o connection (h :: hs) = (h.tag, fate) :: fates send o connection' hs ∧
        fate ≠ .dropped := by
      rw [fates]
      split
      · refine ⟨_, _, rfl, ?_⟩
        unfold fateOf
        split <;> [decide; split <;> decide]
      · exact ⟨connection, .rejected, rfl, by decide⟩
    have rest := (ih connection').cons h.tag
    rw [decided, tags_cons, chosen_cons, chosen_cons, chosen_cons]
    cases fate with
    | accepted => simpa using rest
    | rejected =>
      simp only [reduceCtorEq, if_false, if_true, List.nil_append]
      refine List.Perm.trans ?_ rest
      rw [List.append_assoc, List.append_assoc, List.append_assoc]
      exact List.perm_middle
    | failed =>
      simp only [reduceCtorEq, if_false, if_true, List.nil_append]
      exact List.Perm.trans List.perm_middle rest
    | dropped => exact absurd rfl listed

end Loop

section Conservation
variable {σ : Type} (send : σ → Message → σ × Message × Int) (now : Str) (o : DoSend.Options)

/-- The exact condition: nothing is sent at all, or every message of the batch is ready. -/
def AllReady (worklist : Worklist) : Prop :=
  o.download = false ∨ ∀ h ∈ worklist.incoming, Ready o now h.fields

/-- `do_send` returns with every message conserved exactly when the batch is ready. -/
theorem do_send_conserves_iff (connection : σ) (worklist : Worklist) :
    (∃ connection' after, do_send send now o connection worklist = .ok (connection', after) ∧
      Conserved send o connection worklist after) ↔ AllReady now o worklist := by
  constructor
  · intro ⟨connection', after, done, _⟩
    cases on : o.download with
    | false => exact .inl on
    | true =>
      right
      simp only [do_send, on, Bool.not_true, Bool.false_eq_true, if_false] at done
      obtain ⟨q, looped, -⟩ := bind_ok_iff.mp done
      exact sendLoop_ready send now o (fun _ => rfl) looped
  · intro ready
    cases on : o.download with
    | false =>
      refine ⟨connection, { worklist with ok := worklist.incoming, incoming := [] }, ?_, ?_⟩
      · simp [do_send, on]
      · refine ⟨rfl, ?_, by simp [on], by simp [on], by simp [on]⟩
        simp only [on, Bool.false_eq_true, if_false, List.nil_append]
        rw [List.append_assoc]
        exact List.perm_append_comm
    | true =>
      have ready : ∀ h ∈ worklist.incoming, Ready o now h.fields := by
        rcases ready with off | ready
        · rw [on] at off
          cases off
        · exact ready
      obtain ⟨q, looped, ok, rejected, failed⟩ := sendLoop_lists send now o
        (⟨connection, none, worklist.ok, worklist.rejected, worklist.failed⟩ : Progress σ) ready
      refine ⟨q.connection, ⟨[], q.ok, q.rejected, q.failed⟩, ?_, rfl, ?_, ?_, ?_, ?_⟩
      · simp only [do_send, on, Bool.not_true, Bool.false_eq_true, if_false]
        rw [looped]
        rfl
      · rw [ok, rejected, failed, on, if_pos rfl]
        have all := chosen_perm send o connection worklist.incoming
        rw [List.perm_iff_count] at all ⊢
        intro tag
        have here := all tag
        simp only [List.count_append] at here ⊢
        omega
      · rw [on, if_pos rfl, ok]
      · exact fun _ => rejected
      · exact fun _ => failed

/-- A sender in standby: no attempt is allowed, and all is to be queued for retry. -/
def standby : DoSend.Options := ⟨true, 0, [], 0⟩

def announcement : Message :=
  [("new_dir", .str "/data".toList), ("new_file", .str "bulletin".toList)]

/-- In standby `do_send` raises on the first message that is to be queued for retry. -/
theorem standby_not_conserved :
    ¬ ∃ connection' after,
      do_send (fun connection msg => (connection, msg, 1)) [] standby ()
        ⟨[⟨0, announcement⟩], [], [], []⟩ = .ok (connection', after) ∧
      Conserved (fun connection msg => (connection, msg, 1)) standby ()
        ⟨[⟨0, announcement⟩], [], [], []⟩ after := by
  rintro ⟨connection', after, done, -⟩
  cases done

end Conservation
end Sarracenia.Guarantees.DoSend
