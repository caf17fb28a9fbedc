import Sarracenia.Source.Message

/-!
# Marking a field, setting a report

`_deleteOnPost` is the set of the fields that are not posted. Marking a field fails in a
message that has no such set, and changes nothing else of one that has it; a report is
such a field.
-/
namespace Sarracenia.Guarantees.Message
open Library Library.Text Library.Dynamic Source

theorem deleteOnPost_get {msg msg' : Message} {fields : List String} {key : String}
    (other : key ≠ "_deleteOnPost") (done : Message.deleteOnPost msg fields = .ok msg') :
    msg'.get key = msg.get key := by
  obtain ⟨value, -, done⟩ := bind_ok_iff.mp done
  cases value with
  | set members =>
    obtain rfl := Except.ok.inj done
    exact Dict.get_set_ne msg other _
  | _ => cases done

/-- A field is marked exactly in a message that has the set. -/
theorem deleteOnPost_ok_iff (msg : Message) (fields : List String) :
    (∃ msg', Message.deleteOnPost msg fields = .ok msg') ↔
      ∃ members, msg.get "_deleteOnPost" = some (.set members) := by
  constructor
  · intro ⟨msg', done⟩
    obtain ⟨value, here, done⟩ := bind_ok_iff.mp done
    unfold Dict.item at here
    split at here
    · next v found =>
      obtain rfl := Except.ok.inj here
      cases v with
      | set members => exact ⟨members, found⟩
      | _ => cases done
    · cases here
  · intro ⟨members, here⟩
    refine ⟨_, bind_ok_iff.mpr ⟨.set members, ?_, rfl⟩⟩
    rw [Dict.item, here]

/-- The set is there afterwards. -/
theorem deleteOnPost_marked {msg msg' : Message} {fields : List String}
    (done : Message.deleteOnPost msg fields = .ok msg') :
    ∃ members, msg'.get "_deleteOnPost" = some (.set members) := by
  obtain ⟨value, -, done⟩ := bind_ok_iff.mp done
  cases value with
  | set members =>
    obtain rfl := Except.ok.inj done
    exact ⟨_, Dict.get_set_self _ _ _⟩
  | _ => cases done

/-- A report can be set in the message. -/
def Reportable (msg : Message) : Prop :=
  (∃ members, msg.get "_deleteOnPost" = some (.set members)) ∧
    ∀ report, msg.get "report" = some report →
      ∃ fields : Dict Value, report = .dict fields ∧
        (fields.get "code").isSome ∧ (fields.get "message").isSome

theorem report_read_iff (report : Value) :
    (∃ code message, report.item "code" = .ok code ∧ report.item "message" = .ok message) ↔
      ∃ fields : Dict Value, report = .dict fields ∧
        (fields.get "code").isSome ∧ (fields.get "message").isSome := by
  cases report with
  | dict fields =>
    simp only [Value.item, Dict.item]
    cases code : Dict.get fields "code" <;> cases message : Dict.get fields "message" <;>
      simp [code, message]
  | _ => simp [Value.item]

/-- A report can be set exactly in a message that is ready for it. -/
theorem setReport_ok_iff (msg : Message) (now : Str) (code : Int) (text : Str) :
    (∃ msg', Message.setReport now msg code text = .ok msg') ↔ Reportable msg := by
  unfold Message.setReport Reportable
  cases found : msg.get "report" with
  | none =>
    simp only [reduceCtorEq, false_implies, implies_true, and_true, deleteOnPost_ok_iff]
    rw [Dict.get_set_ne msg (by decide)]
  | some report =>
    simp only [Option.some.injEq, forall_eq', ← report_read_iff, bind_ok_iff]
    constructor
    · intro set
      obtain ⟨msg', code, hasCode, message, hasMessage, set⟩ := set
      have members := (deleteOnPost_ok_iff _ _).mp ⟨msg', set⟩
      rw [Dict.get_set_ne msg (by decide)] at members
      exact ⟨members, code, message, hasCode, hasMessage⟩
    · intro ready
      obtain ⟨members, code', message, hasCode, hasMessage⟩ := ready
      rw [← Dict.get_set_ne msg (b := "report") (by decide)
        (.dict [("code", .int code), ("timeCompleted", .str now), ("message", .str text)])]
        at members
      obtain ⟨msg', set⟩ := (deleteOnPost_ok_iff _ ["report"]).mpr members
      exact ⟨msg', code', hasCode, message, hasMessage, set⟩

/-- A report that is set is marked. -/
theorem setReport_marks {msg msg' : Message} {now : Str} {code : Int} {text : Str}
    (set : Message.setReport now msg code text = .ok msg') : ∃ report : Dict Value,
      Message.deleteOnPost (msg.set "report" (.dict report)) ["report"] = .ok msg' := by
  unfold Message.setReport at set
  split at set
  · exact ⟨_, set⟩
  · simp only [bind_ok_iff] at set
    obtain ⟨-, -, -, -, set⟩ := set
    exact ⟨_, set⟩

theorem setReport_get {msg msg' : Message} {now : Str} {code : Int} {text : Str} {key : String}
    (set : Message.setReport now msg code text = .ok msg') (report : key ≠ "report")
    (mark : key ≠ "_deleteOnPost") : msg'.get key = msg.get key := by
  obtain ⟨fields, marks⟩ := setReport_marks set
  rw [deleteOnPost_get mark marks, Dict.get_set_ne _ report]

/-- The report is there afterwards. -/
theorem setReport_report {msg msg' : Message} {now : Str} {code : Int} {text : Str}
    (set : Message.setReport now msg code text = .ok msg') :
    ∃ report : Dict Value, msg'.get "report" = some (.dict report) := by
  obtain ⟨report, marks⟩ := setReport_marks set
  refine ⟨report, ?_⟩
  rw [deleteOnPost_get (by decide) marks, Dict.get_set_self]

end Sarracenia.Guarantees.Message
