import Sarracenia.Guarantees.V02.Attributes
import Sarracenia.Guarantees.V02.Sum

/-!
# The event in a notice of version 2

The identity and the file operation are flattened to a sum with a letter, and built again from the
letter and two other headers: which events come through it as they were.
-/
namespace Sarracenia.Guarantees.V02
open Library Library.Text Library.Dynamic Source Source.TimeNotation Source.PostFormat Source.V2Wrapper Source.Export

/-! ## The letter is read -/

/-- What is made of a sum: an identity, a file operation, and no trace of the headers. -/
structure Made (msg : Message) (identity fileOp : Option Value) : Prop where
  identity : (V02.event msg).get "identity" = identity
  fileOp : (V02.event msg).get "fileOp" = fileOp
  sum : (V02.event msg).get "sum" = none
  oldname : (V02.event msg).get "oldname" = none

section Letter
variable {msg : Message} {sum sv old link : Value} {sm : String}
  (here : msg.get "sum" = some sum) (read : V02.sum sum = .ok (sm, sv))
include here read

section Renamed
variable (renamed : msg.get "oldname" = some old)
include renamed

theorem made_renamed (other : sm ≠ "mkdir" ∧ sm ≠ "link") :
    Made msg (some (.dict [("method", .str sm.toList), ("value", sv)])) (some (.dict [("rename", old)])) := by
  have event : V02.event msg = Dict.del (Dict.set (Dict.del (msg.set "fileOp" (.dict [("rename", old)])) "oldname")
      "identity" (.dict [("method", .str sm.toList), ("value", sv)])) "sum" := by
    unfold V02.event
    rw [here]
    dsimp only
    rw [read, renamed]
    dsimp only
    rw [if_neg other.1, if_neg other.2]
  constructor <;> rw [event] <;> simp

theorem made_renamedDir (made : sm = "mkdir") :
    Made msg (msg.get "identity") (some (.dict [("rename", old), ("mkdir", .str [])])) := by
  have event : V02.event msg = Dict.del (Dict.set (Dict.del (msg.set "fileOp" (.dict [("rename", old)])) "oldname")
      "fileOp" (.dict [("rename", old), ("mkdir", .str [])])) "sum" := by
    unfold V02.event
    rw [here]
    dsimp only
    rw [read, renamed]
    dsimp only
    rw [if_pos made]
  constructor <;> rw [event] <;> simp

theorem made_renamedLink (linked : sm = "link") (target : msg.get "link" = some link) :
    Made msg (msg.get "identity") (some (.dict [("rename", old), ("link", link)])) := by
  have event : V02.event msg = Dict.del (Dict.set (Dict.del (msg.set "fileOp" (.dict [("rename", old)])) "oldname")
      "fileOp" (.dict [("rename", old), ("link", link)])) "sum" := by
    unfold V02.event
    rw [here]
    dsimp only
    rw [read, renamed]
    dsimp only
    rw [if_neg (by simp [linked]), if_pos linked, Dict.get_del_ne _ (by decide), Dict.get_set_ne _ (by decide), target]
  constructor <;> rw [event] <;> simp

/-- Without its header the link is lost. -/
theorem event_noLink (linked : sm = "link") (target : msg.get "link" = none) :
    (V02.event msg).get "fileOp" = some (.dict [("rename", old)]) := by
  unfold V02.event
  rw [here]
  dsimp only
  rw [read, renamed]
  dsimp only
  rw [if_neg (by simp [linked]), if_pos linked, Dict.get_del_ne _ (by decide), Dict.get_set_ne _ (by decide), target]
  simp

end Renamed

section Named
variable (named : msg.get "oldname" = none)
include named

theorem made_removed (removed : sm = "remove") : Made msg (msg.get "identity") (some (.dict [("remove", .str [])])) := by
  have event : V02.event msg = Dict.del (msg.set "fileOp" (.dict [("remove", .str [])])) "sum" := by
    unfold V02.event
    rw [here]
    dsimp only
    rw [read, named]
    dsimp only
    rw [if_pos removed]
  constructor <;> rw [event] <;> simp [named]

theorem made_directory (made : sm = "mkdir") : Made msg (msg.get "identity") (some (.dict [("directory", .str [])])) := by
  have event : V02.event msg = Dict.del (msg.set "fileOp" (.dict [("directory", .str [])])) "sum" := by
    unfold V02.event
    rw [here]
    dsimp only
    rw [read, named]
    dsimp only
    rw [if_neg (by simp [made]), if_pos made]
  constructor <;> rw [event] <;> simp [named]

variable (file : sm ∉ ["remove", "mkdir", "rmdir"])
include file

theorem made_linked (target : msg.get "link" = some link) :
    Made msg (msg.get "identity") (some (.dict [("link", link)])) := by
  simp only [List.mem_cons, List.not_mem_nil, or_false, not_or] at file
  obtain ⟨remove, mkdir, rmdir⟩ := file
  have event : V02.event msg = Dict.del (Dict.del (msg.set "fileOp" (.dict [("link", link)])) "link") "sum" := by
    unfold V02.event
    rw [here]
    dsimp only
    rw [read, named]
    dsimp only
    rw [if_neg remove, if_neg mkdir, if_neg rmdir, target]
  constructor <;> rw [event] <;> simp [named]

theorem made_identified (target : msg.get "link" = none) (other : sm ≠ "md5name") :
    Made msg (some (.dict [("method", .str sm.toList), ("value", sv)])) (msg.get "fileOp") := by
  simp only [List.mem_cons, List.not_mem_nil, or_false, not_or] at file
  obtain ⟨remove, mkdir, rmdir⟩ := file
  have event : V02.event msg = Dict.del (msg.set "identity" (.dict [("method", .str sm.toList), ("value", sv)])) "sum" := by
    unfold V02.event
    rw [here]
    dsimp only
    rw [read, named]
    dsimp only
    rw [if_neg remove, if_neg mkdir, if_neg rmdir, target]
    dsimp only
    rw [if_neg other]
  constructor <;> rw [event] <;> simp [named]

end Named

/-- No header is left of a sum that was read, unless it was of a link without one. -/
theorem event_traceless (linked : sm = "link" → msg.get "oldname" = none ∨ (msg.get "link").isSome = true) :
    (V02.event msg).get "sum" = none ∧ (V02.event msg).get "oldname" = none := by
  cases old : msg.get "oldname" with
  | some o =>
    by_cases isLink : sm = "link"
    · obtain ⟨l, target⟩ := Option.isSome_iff_exists.mp ((linked isLink).resolve_left (by rw [old]; exact nofun))
      have made := made_renamedLink here read old isLink target
      exact ⟨made.sum, made.oldname⟩
    · by_cases isDir : sm = "mkdir"
      · have made := made_renamedDir here read old isDir
        exact ⟨made.sum, made.oldname⟩
      · have made := made_renamed here read old ⟨isDir, isLink⟩
        exact ⟨made.sum, made.oldname⟩
  | none =>
    unfold V02.event
    rw [here]
    dsimp only
    rw [read, old]
    dsimp only
    repeat' split
    all_goals simp [old]

end Letter

/-- No link is made of a sum. -/
theorem event_link {msg : Message} (target : msg.get "link" = none) : (V02.event msg).get "link" = none := by
  unfold V02.event
  dsimp only
  repeat' split
  all_goals simp [target]


/-! ## Which events are kept -/

section Kept
variable {digests : Digests} {name : Str} {msg m : Message} {I : Option (Method × Str)} {F : Option FileOp}

/-- There is an identity, and it is canonical. -/
def Restored (I : Option (Method × Str)) : Prop := ∃ m v, I = some (m, v) ∧ Canonical m v

/-- An identity that is there can be told, and comes back only under the legacy name. -/
structure Legacy (msg : Message) (I : Option (Method × Str)) : Prop where
  told : ∀ m v, I = some (m, v) → Convertible m v
  integrity : Holds msg "integrity" (identityOf I)

/-- The events that are kept. A directory that is removed or renamed never is, and a link only
with its header. -/
def EventKept (msg : Message) (I : Option (Method × Str)) : Option FileOp → Prop
  | none => msg.get "oldname" = none ∧ msg.get "link" = none ∧ Restored I
  | some (.link target) => msg.get "oldname" = none ∧ msg.get "link" = some (.str target) ∧ Legacy msg I
  | some .remove => msg.get "oldname" = none ∧ Legacy msg I
  | some .rmdir => False
  | some .mkdir => msg.get "oldname" = none ∧ Legacy msg I
  | some (.rename _) => Restored I
  | some (.renameDir _) => False
  | some (.renameLink _ target) => msg.get "link" = some (.str target) ∧ Legacy msg I

/-- The digests are written in hexadecimal. -/
def Hexadecimal (digests : Digests) : Prop := ∀ s,
  (∃ bytes : List Nat, (∀ b ∈ bytes, b < 256) ∧ digests.md5 s = hex bytes) ∧
    ∃ bytes : List Nat, (∀ b ∈ bytes, b < 256) ∧ digests.sha512 s = hex bytes

/-- What has arrived of an event. -/
structure Carried (digests : Digests) (name : Str) (msg m : Message) (I : Option (Method × Str)) (F : Option FileOp) :
    Prop where
  sum : ∃ plain, plainOf digests name I = some plain ∧
    m.get "sum" = some (.str ((F.bind (FileOp.sum name)).elim plain fun sum => sum.1 :: ',' :: digests.sha512 sum.2))
  oldname : m.get "oldname" = (F.bind FileOp.old).elim (msg.get "oldname") fun old => some (.str old)
  link : m.get "link" = msg.get "link"
  identity : m.get "identity" = msg.get "integrity"
  fileOp : m.get "fileOp" = none

theorem holds_iff {after : Message} {key : String} {d fields : Dict Value} (made : after.get key = some (.dict d)) :
    Holds after key (some fields) ↔ ∀ k, Dict.get d k = Dict.get fields k := by
  constructor
  · rintro ⟨d', same, holds⟩
    rw [made] at same
    cases same
    exact holds
  · exact fun holds => ⟨d, made, holds⟩

theorem not_holds_none {after : Message} {key : String} {v : Value} (made : after.get key = some v) :
    ¬ Holds after key none := by
  unfold Holds
  rw [made]
  exact nofun

/-- A method and a value that were read are the identity exactly if they are its own. -/
theorem identity_iff {after : Message} {method : Method} {v w : Str}
    (made : after.get "identity" = some (.dict [("method", .str method.name.toList), ("value", .str w)])) :
    Holds after "identity" (identityOf (some (method, v))) ↔ w = v := by
  refine (holds_iff made).trans ⟨fun holds => ?_, ?_⟩
  · exact Value.str.inj (Option.some.inj (show some (Value.str w) = some (.str v) from holds "value"))
  · rintro rfl
    exact fun _ => rfl

theorem digest_read (hexadecimal : Hexadecimal digests) (s : Str) (letter : Char) (sm : String)
    (named : V02.sum_algo_map.lookup [letter] = some sm) (digest : sm ∉ ["random", "arbitrary", "cod"]) :
    ∃ sv, V02.sum (.str (letter :: ',' :: digests.sha512 s)) = .ok (sm, sv) := by
  obtain ⟨-, bytes, small, written⟩ := hexadecimal s
  rw [written]
  exact ⟨_, sum_digest letter sm small named digest⟩

theorem method_plain (method : Method) :
    (method.name ≠ "mkdir" ∧ method.name ≠ "link") ∧ method.name ∉ ["remove", "mkdir", "rmdir"] ∧ method.name ≠ "md5name" := by
  cases method <;> decide

section Cases

theorem kept_identity {method : Method} {v : Str} (carried : Carried digests name msg m (some (method, v)) none) :
    Holds (V02.event m) "identity" (identityOf (some (method, v))) ∧ Holds (V02.event m) "fileOp" none ↔
      EventKept msg (some (method, v)) none := by
  obtain ⟨⟨plain, told, sum⟩, oldname, link, identity, fileOp⟩ := carried
  change m.get "sum" = some (.str plain) at sum
  change m.get "oldname" = msg.get "oldname" at oldname
  obtain ⟨w, read, canonical⟩ := sumOf_read told
  obtain ⟨named, file, known⟩ := method_plain method
  unfold EventKept
  rw [← oldname, ← link]
  cases old : m.get "oldname" with
  | some o =>
    exact iff_of_false (fun both => not_holds_none (made_renamed sum read old named).fileOp both.2) fun all => nomatch all.1
  | none =>
    cases linked : m.get "link" with
    | some l =>
      exact iff_of_false (fun both => not_holds_none (made_linked sum read old file linked).fileOp both.2)
        fun all => nomatch all.2.1
    | none =>
      have made := made_identified sum read old file linked known
      rw [identity_iff made.identity, canonical]
      refine ⟨fun both => ⟨rfl, rfl, method, v, rfl, both.1⟩, ?_⟩
      rintro ⟨-, -, method', v', same, is⟩
      cases same
      exact ⟨is, made.fileOp.trans fileOp⟩

theorem kept_rename {old : Str} (carried : Carried digests name msg m I (some (.rename old))) (hexadecimal : Hexadecimal digests) :
    Holds (V02.event m) "identity" (identityOf I) ∧ Holds (V02.event m) "fileOp" (some (FileOp.rename old).fields) ↔
      EventKept msg I (some (.rename old)) := by
  obtain ⟨⟨plain, told, sum⟩, oldname, -, -, -⟩ := carried
  change m.get "sum" = some (.str plain) at sum
  change m.get "oldname" = some (.str old) at oldname
  cases I with
  | none =>
    cases told
    obtain ⟨⟨bytes, small, written⟩, -⟩ := hexadecimal name
    rw [written] at sum
    have made := made_renamed sum (sum_digest 'n' "md5name" small rfl (by decide)) oldname ⟨by decide, by decide⟩
    exact iff_of_false (fun both => not_holds_none made.identity both.1) nofun
  | some i =>
    obtain ⟨method, v⟩ := i
    obtain ⟨w, read, canonical⟩ := sumOf_read told
    have made := made_renamed sum read oldname (method_plain method).1
    rw [identity_iff made.identity, canonical, holds_iff made.fileOp]
    refine ⟨fun both => ⟨method, v, rfl, both.1⟩, ?_⟩
    rintro ⟨method', v', same, is⟩
    cases same
    exact ⟨is, fun _ => rfl⟩

/-- The identity is the one under the legacy name. -/
theorem legacy_iff {after : Message} (told : ∃ plain, plainOf digests name I = some plain)
    (same : after.get "identity" = msg.get "integrity") : Holds after "identity" (identityOf I) ↔ Legacy msg I :=
  (Holds.congr same _).trans ⟨fun holds => ⟨(plainOf_isSome_iff digests name).mp told, holds⟩, fun legacy => legacy.integrity⟩

section Digest
variable (hexadecimal : Hexadecimal digests)
include hexadecimal

theorem kept_link {target : Str} (carried : Carried digests name msg m I (some (.link target))) :
    Holds (V02.event m) "identity" (identityOf I) ∧ Holds (V02.event m) "fileOp" (some (FileOp.link target).fields) ↔
      EventKept msg I (some (.link target)) := by
  obtain ⟨⟨plain, told, sum⟩, oldname, link, identity, fileOp⟩ := carried
  change m.get "sum" = some (.str ('L' :: ',' :: digests.sha512 target)) at sum
  change m.get "oldname" = msg.get "oldname" at oldname
  obtain ⟨sv, read⟩ := digest_read hexadecimal target 'L' "link" rfl (by decide)
  unfold EventKept
  rw [← oldname, ← link]
  cases old : m.get "oldname" with
  | some o =>
    refine iff_of_false (fun both => ?_) fun all => nomatch all.1
    cases linked : m.get "link" with
    | some l =>
      have absurd : some o = none := (holds_iff (made_renamedLink sum read old rfl linked).fileOp).mp both.2 "rename"
      cases absurd
    | none =>
      have absurd : some o = none := (holds_iff (event_noLink sum read old rfl linked)).mp both.2 "rename"
      cases absurd
  | none =>
    cases linked : m.get "link" with
    | some l =>
      have made := made_linked sum read old (by decide) linked
      rw [legacy_iff ⟨plain, told⟩ (made.identity.trans identity), holds_iff made.fileOp]
      constructor
      · intro both
        exact ⟨rfl, show some l = some (.str target) from both.2 "link", both.1⟩
      · rintro ⟨-, same, legacy⟩
        cases same
        exact ⟨legacy, fun _ => rfl⟩
    | none =>
      have made := made_identified sum read old (by decide) linked (by decide)
      refine iff_of_false (fun both => ?_) fun all => nomatch all.2.1
      obtain ⟨d, held, -⟩ := both.2
      rw [made.fileOp, fileOp] at held
      cases held

theorem kept_remove (carried : Carried digests name msg m I (some .remove)) :
    Holds (V02.event m) "identity" (identityOf I) ∧ Holds (V02.event m) "fileOp" (some FileOp.remove.fields) ↔
      EventKept msg I (some .remove) := by
  obtain ⟨⟨plain, told, sum⟩, oldname, -, identity, -⟩ := carried
  change m.get "sum" = some (.str ('R' :: ',' :: digests.sha512 name)) at sum
  change m.get "oldname" = msg.get "oldname" at oldname
  obtain ⟨sv, read⟩ := digest_read hexadecimal name 'R' "remove" rfl (by decide)
  unfold EventKept
  rw [← oldname]
  cases old : m.get "oldname" with
  | some o =>
    refine iff_of_false (fun both => ?_) fun all => nomatch all.1
    have made := made_renamed sum read old ⟨by decide, by decide⟩
    have absurd : some o = none := (holds_iff made.fileOp).mp both.2 "rename"
    cases absurd
  | none =>
    have made := made_removed sum read old rfl
    rw [legacy_iff ⟨plain, told⟩ (made.identity.trans identity), holds_iff made.fileOp]
    exact ⟨fun both => ⟨rfl, both.1⟩, fun both => ⟨both.2, fun _ => rfl⟩⟩

theorem kept_mkdir (carried : Carried digests name msg m I (some .mkdir)) :
    Holds (V02.event m) "identity" (identityOf I) ∧ Holds (V02.event m) "fileOp" (some FileOp.mkdir.fields) ↔
      EventKept msg I (some .mkdir) := by
  obtain ⟨⟨plain, told, sum⟩, oldname, -, identity, -⟩ := carried
  change m.get "sum" = some (.str ('m' :: ',' :: digests.sha512 name)) at sum
  change m.get "oldname" = msg.get "oldname" at oldname
  obtain ⟨sv, read⟩ := digest_read hexadecimal name 'm' "mkdir" rfl (by decide)
  unfold EventKept
  rw [← oldname]
  cases old : m.get "oldname" with
  | some o =>
    refine iff_of_false (fun both => ?_) fun all => nomatch all.1
    have absurd : some o = none := (holds_iff (made_renamedDir sum read old rfl).fileOp).mp both.2 "rename"
    cases absurd
  | none =>
    have made := made_directory sum read old rfl
    rw [legacy_iff ⟨plain, told⟩ (made.identity.trans identity), holds_iff made.fileOp]
    exact ⟨fun both => ⟨rfl, both.1⟩, fun both => ⟨both.2, fun _ => rfl⟩⟩

/-- A directory that is removed arrives as a file that is. -/
theorem lost_rmdir (carried : Carried digests name msg m I (some .rmdir)) :
    ¬ Holds (V02.event m) "fileOp" (some FileOp.rmdir.fields) := by
  intro holds
  obtain ⟨⟨plain, told, sum⟩, -, -, -, -⟩ := carried
  change m.get "sum" = some (.str ('R' :: ',' :: digests.sha512 name)) at sum
  obtain ⟨sv, read⟩ := digest_read hexadecimal name 'R' "remove" rfl (by decide)
  cases old : m.get "oldname" with
  | some o =>
    have made := made_renamed sum read old ⟨by decide, by decide⟩
    have absurd : none = some (Value.str []) := (holds_iff made.fileOp).mp holds "directory"
    cases absurd
  | none =>
    have absurd : none = some (Value.str []) := (holds_iff (made_removed sum read old rfl).fileOp).mp holds "directory"
    cases absurd

/-- A directory that is renamed arrives under a key that nothing reads. -/
theorem lost_renameDir {old : Str} (carried : Carried digests name msg m I (some (.renameDir old))) :
    ¬ Holds (V02.event m) "fileOp" (some (FileOp.renameDir old).fields) := by
  intro holds
  obtain ⟨⟨plain, told, sum⟩, oldname, -, -, -⟩ := carried
  change m.get "sum" = some (.str ('m' :: ',' :: digests.sha512 name)) at sum
  obtain ⟨sv, read⟩ := digest_read hexadecimal name 'm' "mkdir" rfl (by decide)
  have absurd : none = some (Value.str []) :=
    (holds_iff (made_renamedDir sum read oldname rfl).fileOp).mp holds "directory"
  cases absurd

theorem kept_renameLink {old target : Str} (carried : Carried digests name msg m I (some (.renameLink old target))) :
    Holds (V02.event m) "identity" (identityOf I) ∧
        Holds (V02.event m) "fileOp" (some (FileOp.renameLink old target).fields) ↔
      EventKept msg I (some (.renameLink old target)) := by
  obtain ⟨⟨plain, told, sum⟩, oldname, link, identity, -⟩ := carried
  change m.get "sum" = some (.str ('L' :: ',' :: digests.sha512 target)) at sum
  change m.get "oldname" = some (.str old) at oldname
  obtain ⟨sv, read⟩ := digest_read hexadecimal target 'L' "link" rfl (by decide)
  unfold EventKept
  rw [← link]
  cases linked : m.get "link" with
  | some l =>
    have made := made_renamedLink sum read oldname rfl linked
    rw [legacy_iff ⟨plain, told⟩ (made.identity.trans identity), holds_iff made.fileOp]
    constructor
    · intro both
      exact ⟨show some l = some (.str target) from both.2 "link", both.1⟩
    · rintro ⟨same, legacy⟩
      cases same
      exact ⟨legacy, fun _ => rfl⟩
  | none =>
    refine iff_of_false (fun both => ?_) fun all => nomatch all.1
    have absurd : none = some (Value.str target) :=
      (holds_iff (event_noLink sum read oldname rfl linked)).mp both.2 "link"
    cases absurd

end Digest

/-- The event is built again as it was exactly if it is one of those that are kept. -/
theorem event_kept_iff (hexadecimal : Hexadecimal digests) (some_ : I.isSome = true ∨ F.isSome = true)
    (carried : Carried digests name msg m I F) :
    Holds (V02.event m) "identity" (identityOf I) ∧ Holds (V02.event m) "fileOp" (F.map FileOp.fields) ↔
      EventKept msg I F := by
  cases F with
  | none =>
    cases I with
    | none => exact some_.elim nofun nofun
    | some i => exact kept_identity carried
  | some op =>
    cases op with
    | link target => exact kept_link hexadecimal carried
    | remove => exact kept_remove hexadecimal carried
    | rmdir => exact iff_of_false (fun both => lost_rmdir hexadecimal carried both.2) id
    | mkdir => exact kept_mkdir hexadecimal carried
    | rename old => exact kept_rename carried hexadecimal
    | renameDir old => exact iff_of_false (fun both => lost_renameDir hexadecimal carried both.2) id
    | renameLink old target => exact kept_renameLink hexadecimal carried

/-- The sum that has arrived is read, and is that of a link only where there is one. -/
theorem carried_read (hexadecimal : Hexadecimal digests) (carried : Carried digests name msg m I F) :
    ∃ sum sm sv, m.get "sum" = some sum ∧ V02.sum sum = .ok (sm, sv) ∧
      (sm = "link" → ∃ target, F = some (.link target) ∨ ∃ old, F = some (.renameLink old target)) := by
  obtain ⟨plain, told, sum⟩ := carried.sum
  have plainly (is : m.get "sum" = some (.str plain)) : ∃ sum sm sv, m.get "sum" = some sum ∧
      V02.sum sum = .ok (sm, sv) ∧ (sm = "link" → ∃ target, F = some (.link target) ∨ ∃ old, F = some (.renameLink old target)) := by
    cases I with
    | none =>
      cases told
      obtain ⟨⟨bytes, small, written⟩, -⟩ := hexadecimal name
      rw [written] at is
      exact ⟨_, _, _, is, sum_digest 'n' "md5name" small rfl (by decide), fun same => absurd same (by decide)⟩
    | some i =>
      obtain ⟨method, v⟩ := i
      obtain ⟨w, read, -⟩ := sumOf_read told
      exact ⟨_, _, _, is, read, fun same => absurd same (method_plain method).1.2⟩
  have linkless {s : Str} {letter : Char} {sm : String} (is : m.get "sum" = some (.str (letter :: ',' :: digests.sha512 s)))
      (named : V02.sum_algo_map.lookup [letter] = some sm) (other : sm ∉ ["random", "arbitrary", "cod"])
      (linked : sm = "link" → ∃ target, F = some (.link target) ∨ ∃ old, F = some (.renameLink old target)) :
      ∃ sum sm sv, m.get "sum" = some sum ∧ V02.sum sum = .ok (sm, sv) ∧
        (sm = "link" → ∃ target, F = some (.link target) ∨ ∃ old, F = some (.renameLink old target)) := by
    obtain ⟨sv, read⟩ := digest_read hexadecimal s letter sm named other
    exact ⟨_, _, _, is, read, linked⟩
  cases F with
  | none => exact plainly sum
  | some op =>
    cases op with
    | rename old => exact plainly sum
    | link target => exact linkless sum rfl (by decide) fun _ => ⟨target, .inl rfl⟩
    | renameLink old target => exact linkless sum rfl (by decide) fun _ => ⟨target, .inr ⟨old, rfl⟩⟩
    | remove | rmdir | mkdir | renameDir => exact linkless sum rfl (by decide) fun same => absurd same (by decide)

theorem kept_traceless (hexadecimal : Hexadecimal digests) (carried : Carried digests name msg m I F)
    (kept : EventKept msg I F) : (V02.event m).get "sum" = none ∧ (V02.event m).get "oldname" = none := by
  obtain ⟨sum, sm, sv, here, read, only⟩ := carried_read hexadecimal carried
  refine event_traceless here read fun isLink => ?_
  obtain ⟨target, rfl | ⟨old, rfl⟩⟩ := only isLink
  · exact .inl (carried.oldname.trans kept.1)
  · exact .inr (by rw [carried.link, kept.1]; rfl)

end Cases
end Kept
end Sarracenia.Guarantees.V02
