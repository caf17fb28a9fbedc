import Sarracenia.Guarantees.V02.Codec
import Sarracenia.Guarantees.V02.Steps

/-!
# The sum of a notice in version 2

What the sum says of an identity and of a file operation, and what is read back from it.
-/
namespace Sarracenia.Guarantees.V02
open Library Library.Text Library.Dynamic Source Source.TimeNotation Source.PostFormat Source.V2Wrapper Source.Export

/-- The methods of an identity. -/
inductive Method where
  | arbitrary | cod | md5 | random | sha512

def Method.name : Method → String
  | arbitrary => "arbitrary"
  | cod => "cod"
  | md5 => "md5"
  | random => "random"
  | sha512 => "sha512"

def Method.letter : Method → Char
  | arbitrary => 'a'
  | cod => 'z'
  | md5 => 'd'
  | random => '0'
  | sha512 => 's'

/-- What may be done to a file, besides changing it. -/
inductive FileOp where
  | link (target : Str)
  | remove
  | rmdir
  | mkdir
  | rename (old : Str)
  | renameDir (old : Str)
  | renameLink (old target : Str)

def identityFields (m : Method) (v : Str) : Dict Value := [("method", .str m.name.toList), ("value", .str v)]

/-- The entries of an identity. -/
def identityOf (I : Option (Method × Str)) : Option (Dict Value) := I.map fun i => identityFields i.1 i.2

def FileOp.fields : FileOp → Dict Value
  | link target => [("link", .str target)]
  | remove => [("remove", .str [])]
  | rmdir => [("remove", .str []), ("directory", .str [])]
  | mkdir => [("directory", .str [])]
  | rename old => [("rename", .str old)]
  | renameDir old => [("rename", .str old), ("directory", .str [])]
  | renameLink old target => [("rename", .str old), ("link", .str target)]

/-- The field is a dictionary of these entries, in whatever order, or is not there. -/
def Holds (msg : Message) (key : String) : Option (Dict Value) → Prop
  | none => msg.get key = none
  | some fields => ∃ d, msg.get key = some (.dict d) ∧ ∀ k, Dict.get d k = Dict.get fields k

theorem Holds.congr {msg after : Message} {key key' : String} (same : after.get key' = msg.get key)
    (fields : Option (Dict Value)) : Holds after key' fields ↔ Holds msg key fields := by
  cases fields with
  | none =>
    unfold Holds
    rw [same]
  | some fields =>
    unfold Holds
    rw [same]

/-- A dictionary has the entries of another one. -/
theorem entries_eq {d fields : Dict Value} (holds : ∀ k, Dict.get d k = Dict.get fields k) (key : String) :
    Value.has key (.dict d) = .ok (Dict.get fields key).isSome ∧ Value.item key (.dict d) = Dict.item fields key := by
  unfold Value.has Value.item Dict.item
  dsimp only
  rw [holds]
  exact ⟨rfl, rfl⟩

/-! ## Identities -/

section Identity
variable {msg : Message} {m : Method} {v s : Str}

/-- The method can be told in version 2 with the value. -/
def Convertible : Method → Str → Prop
  | .arbitrary, _ => True
  | .random, _ => True
  | .cod, v => ∃ c, sum_algo_v3tov2.lookup v = some c
  | .md5, v => ∃ bytes, a2b_base64 0 0 0 v = some bytes
  | .sha512, v => ∃ bytes, a2b_base64 0 0 0 v = some bytes

/-- The value is as it comes back: the name of a method, or base64 in lines of 76 characters. -/
def Canonical : Method → Str → Prop
  | .arbitrary, _ => True
  | .random, _ => True
  | .cod, v => ∃ c, sum_algo_v3tov2.lookup v = some c
  | .md5, v => ∃ bytes : List Nat, (∀ b ∈ bytes, b < 256) ∧ v = base64Lines bytes
  | .sha512, v => ∃ bytes : List Nat, (∀ b ∈ bytes, b < 256) ∧ v = base64Lines bytes

theorem Canonical.convertible (canonical : Canonical m v) : Convertible m v := by
  cases m with
  | arbitrary | random => exact trivial
  | cod => exact canonical
  | md5 | sha512 =>
    obtain ⟨bytes, small, rfl⟩ := canonical
    exact ⟨bytes, a2b_base64Lines small⟩

/-- The sum of an identity, where there is one. -/
def sumOf : Method → Str → Option Str
  | .arbitrary, v => some ('a' :: ',' :: v)
  | .random, v => some ('0' :: ',' :: v)
  | .cod, v => (sum_algo_v3tov2.lookup v).map fun c => ['z', ',', c]
  | .md5, v => (a2b_base64 0 0 0 v).map fun bytes => 'd' :: ',' :: hex bytes
  | .sha512, v => (a2b_base64 0 0 0 v).map fun bytes => 's' :: ',' :: hex bytes

theorem sumOf_isSome_iff : (∃ s, sumOf m v = some s) ↔ Convertible m v := by
  cases m with
  | arbitrary | random => exact ⟨fun _ => trivial, fun _ => ⟨_, rfl⟩⟩
  | cod | md5 | sha512 =>
    unfold sumOf Convertible
    simp only [Option.map_eq_some_iff]
    exact ⟨fun ⟨_, x, is, _⟩ => ⟨x, is⟩, fun ⟨x, is⟩ => ⟨_, x, is, rfl⟩⟩

theorem ok_iff_some {α : Type} {a b : α} : (Except.ok a : Except Fault α) = .ok b ↔ some a = some b :=
  ⟨fun same => congrArg some (Except.ok.inj same), fun same => congrArg Except.ok (Option.some.inj same)⟩

/-- An identity has its sum where there is one. -/
theorem identitySum_iff {d : Dict Value} (holds : ∀ k, Dict.get d k = Dict.get (identityFields m v) k) :
    identitySum msg (.dict d) = .ok s ↔ sumOf m v = some s := by
  have method : Value.item "method" (.dict d) = .ok (.str m.name.toList) := (entries_eq holds "method").2
  have value : Value.item "value" (.dict d) = .ok (.str v) := (entries_eq holds "value").2
  unfold identitySum
  rw [method, value]
  cases m with
  | arbitrary | random => exact ok_iff_some
  | cod =>
    have known : algorithm (.str Method.cod.name.toList) = .ok (some 'z') := rfl
    have looked : algorithm (.str v) = .ok (sum_algo_v3tov2.lookup v) := rfl
    simp only [known, looked, bind, Except.bind, sumOf]
    cases sum_algo_v3tov2.lookup v with
    | none => simp
    | some c => exact ok_iff_some
  | md5 =>
    have known : algorithm (.str Method.md5.name.toList) = .ok (some 'd') := rfl
    have read : text (.str v) = .ok v := rfl
    simp only [known, read, bind, Except.bind, sumOf]
    cases a2b_base64 0 0 0 v with
    | none => simp
    | some bytes => exact ok_iff_some
  | sha512 =>
    have known : algorithm (.str Method.sha512.name.toList) = .ok (some 's') := rfl
    have read : text (.str v) = .ok v := rfl
    simp only [known, read, bind, Except.bind, sumOf]
    cases a2b_base64 0 0 0 v with
    | none => simp
    | some bytes => exact ok_iff_some

/-- The two tables agree on the methods that one of them can tell. -/
theorem tables_agree : ∀ entry ∈ sum_algo_v3tov2,
    (V02.sum_algo_map.lookup [entry.2]).map String.toList = some entry.1 := by decide

/-- A digest is read as lines of base64. -/
theorem sum_digest (letter : Char) (name : String) {bytes : List Nat} (small : ∀ b ∈ bytes, b < 256)
    (named : V02.sum_algo_map.lookup [letter] = some name) (digest : name ∉ ["random", "arbitrary", "cod"]) :
    V02.sum (.str (letter :: ',' :: hex bytes)) = .ok (name, .str (base64Lines bytes)) := by
  simp only [List.mem_cons, List.not_mem_nil, or_false, not_or] at digest
  obtain ⟨random, arbitrary, cod⟩ := digest
  have known : V02.algorithm (.str [letter]) = .ok name := by
    unfold V02.algorithm
    dsimp only
    rw [named]
    rfl
  have read : first (.str (letter :: ',' :: hex bytes)) = .ok (.str [letter]) := rfl
  unfold V02.sum
  rw [read]
  change (V02.algorithm (.str [letter]) >>= _) = _
  rw [known]
  dsimp only [bind, Except.bind]
  rw [if_neg (by simp [random, arbitrary]), if_neg (by simpa using cod)]
  have digits : Value.asStr (.str (hex bytes)) = .ok (hex bytes) := rfl
  dsimp only [List.drop]
  rw [digits]
  dsimp only
  rw [unhex_hex small]
  rfl

/-- An identity is read back with its method, and with its value exactly if that was canonical. -/
theorem sumOf_read (told : sumOf m v = some s) :
    ∃ w, V02.sum (.str s) = .ok (m.name, .str w) ∧ (w = v ↔ Canonical m v) := by
  cases m with
  | arbitrary | random =>
    cases told
    exact ⟨v, rfl, iff_of_true rfl trivial⟩
  | cod =>
    obtain ⟨c, found, rfl⟩ := Option.map_eq_some_iff.mp told
    have member : (v, c) ∈ sum_algo_v3tov2 := by
      obtain ⟨before, later, same, -⟩ := List.lookup_eq_some_iff.mp found
      rw [same]
      exact List.mem_append_right before List.mem_cons_self
    obtain ⟨name, back, same⟩ := Option.map_eq_some_iff.mp (tables_agree _ member)
    have known : V02.algorithm (.str [c]) = .ok name := by
      unfold V02.algorithm
      dsimp only
      rw [back]
      rfl
    refine ⟨v, ?_, iff_of_true rfl ⟨c, found⟩⟩
    change (V02.algorithm (.str [c])).bind (fun name => .ok ("cod", Value.str name.toList)) = _
    rw [known, ← show name.toList = v from same]
    rfl
  | md5 | sha512 =>
    obtain ⟨bytes, found, rfl⟩ := Option.map_eq_some_iff.mp told
    have small := a2b_small (.inl rfl) found
    refine ⟨base64Lines bytes, sum_digest _ _ small rfl (by decide), fun same => ⟨bytes, small, same.symm⟩, ?_⟩
    rintro ⟨bytes', small', rfl⟩
    rw [a2b_base64Lines small'] at found
    rw [Option.some.inj found]

end Identity

/-! ## File operations -/

section FileOp
variable {digests : Digests} {msg after : Message} {name relPath : Str} {F : FileOp}

/-- The old name of what is renamed. -/
def FileOp.old : FileOp → Option Str
  | rename old => some old
  | renameDir old => some old
  | renameLink old _ => some old
  | _ => none

/-- The letter of the sum, and the text of which it has the digest: a removed directory is one
more thing that is removed. -/
def FileOp.sum (name : Str) : FileOp → Option (Char × Str)
  | link target => some ('L', target)
  | remove => some ('R', name)
  | rmdir => some ('R', name)
  | mkdir => some ('m', name)
  | rename _ => none
  | renameDir _ => some ('m', name)
  | renameLink _ target => some ('L', target)

theorem fileOpSum_eq {d : Dict Value} (holds : ∀ k, Dict.get d k = Dict.get F.fields k) (named : basename msg = .ok name) :
    fileOpSum digests msg (.dict d) = .ok ((F.sum name).map fun sum => sum.1 :: ',' :: digests.sha512 sum.2) := by
  unfold fileOpSum
  rw [(entries_eq holds "link").1, (entries_eq holds "remove").1, (entries_eq holds "directory").1,
    (entries_eq holds "link").2, named]
  cases F <;> rfl

theorem rename_eq {d : Dict Value} (holds : ∀ k, Dict.get d k = Dict.get F.fields k) :
    rename msg (.dict d) = .ok (F.old.elim msg fun old => msg.set "oldname" (.str old)) := by
  unfold V2Wrapper.rename
  rw [(entries_eq holds "rename").1, (entries_eq holds "rename").2]
  cases F <;> rfl

end FileOp

/-! ## The sum -/

section Sum
variable {digests : Digests} {msg after : Message} {relPath s : Str} {I : Option (Method × Str)} {F : Option FileOp}

/-- The sum without a file operation: of the identity, or of the name. -/
def plainOf (digests : Digests) (name : Str) : Option (Method × Str) → Option Str
  | some (m, v) => sumOf m v
  | none => some ('n' :: ',' :: digests.md5 name)

theorem plainOf_isSome_iff (digests : Digests) (name : Str) :
    (∃ plain, plainOf digests name I = some plain) ↔ ∀ m v, I = some (m, v) → Convertible m v := by
  cases I with
  | none => exact ⟨fun _ => nofun, fun _ => ⟨_, rfl⟩⟩
  | some identity =>
    obtain ⟨m, v⟩ := identity
    refine sumOf_isSome_iff.trans ⟨fun able m' v' same => ?_, fun all => all m v rfl⟩
    cases same
    exact able

theorem basename_eq (here : msg.get "relPath" = some (.str relPath)) : basename msg = .ok (lastPiece ['/'] relPath) := by
  unfold basename Dict.item
  rw [here]
  rfl

theorem plainSum_iff (here : msg.get "relPath" = some (.str relPath))
    (identity : Holds msg "identity" (identityOf I)) :
    plainSum digests msg = .ok s ↔ plainOf digests (lastPiece ['/'] relPath) I = some s := by
  unfold plainSum
  cases I with
  | none =>
    rw [show msg.get "identity" = none from identity]
    dsimp only
    rw [basename_eq here]
    exact ok_iff_some
  | some i =>
    obtain ⟨d, held, holds⟩ := identity
    rw [held]
    exact identitySum_iff holds

/-- The message and its sum. -/
theorem sumstr_iff (here : msg.get "relPath" = some (.str relPath))
    (identity : Holds msg "identity" (identityOf I))
    (fileOp : Holds msg "fileOp" (F.map FileOp.fields)) :
    sumstrFromMessage digests msg = .ok (after, s) ↔
      ∃ plain, plainOf digests (lastPiece ['/'] relPath) I = some plain ∧
        after = (F.bind FileOp.old).elim msg (fun old => msg.set "oldname" (.str old)) ∧
        s = (F.bind (FileOp.sum (lastPiece ['/'] relPath))).elim plain fun sum => sum.1 :: ',' :: digests.sha512 sum.2 := by
  unfold sumstrFromMessage
  rw [bind_ok_iff]
  refine exists_congr fun plain => and_congr (plainSum_iff here identity) ?_
  cases F with
  | none =>
    rw [show msg.get "fileOp" = none from fileOp]
    exact ⟨fun same => Prod.mk.inj (Except.ok.inj same.symm), fun ⟨one, two⟩ => by rw [one, two]; rfl⟩
  | some op =>
    obtain ⟨d, held, holds⟩ := fileOp
    rw [held]
    dsimp only
    have kept : (op.old.elim msg fun old => msg.set "oldname" (.str old)).get "relPath" = some (.str relPath) := by
      rw [rename_frame (rename_eq holds) (by decide), here]
    rw [rename_eq holds]
    change fileOpSum digests (op.old.elim msg fun old => msg.set "oldname" (.str old)) (.dict d) >>= _ = _ ↔ _
    rw [fileOpSum_eq holds (basename_eq kept)]
    refine ⟨fun same => ?_, fun ⟨one, two⟩ => ?_⟩
    · obtain ⟨one, two⟩ := Prod.mk.inj (Except.ok.inj same)
      refine ⟨one.symm, two.symm.trans ?_⟩
      change _ = (op.sum _).elim _ _
      cases op.sum (lastPiece ['/'] relPath) <;> rfl
    · rw [one, two]
      change _ = Except.ok (_, (op.sum _).elim _ _)
      cases op.sum (lastPiece ['/'] relPath) <;> rfl

end Sum
end Sarracenia.Guarantees.V02
