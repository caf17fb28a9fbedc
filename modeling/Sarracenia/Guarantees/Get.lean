import Sarracenia.Source.Get

/-!
# What the transport classes copy

One contract for all of them: a block is exactly its bytes, a whole file all of its bytes,
and a transfer that breaks off is no completion. For each class, the calls for which it keeps
the contract are given by the offset, the length and the size of the remote file.
-/
namespace Sarracenia.Guarantees.Get
open Library Library.Dynamic Source.Get
open Source.Transfer (Bytes)

/-! ## The contract -/

inductive Class where
  | file | sftp | ftp
  deriving DecidableEq, Repr

def Class.get (cls : Class) (o : Options) (f : Fetch) (remote : Option Bytes) (c : Call)
    (before : Option Bytes) : Outcome :=
  match cls with
  | .file => File.get o f remote c before
  | .sftp => Sftp.get o f remote c before
  | .ftp => Ftp.get o f remote c before

/-- What the transfer itself does, once both files are open. -/
def Class.transfer (cls : Class) (o : Options) (f : Fetch) (content : Bytes) (c : Call) : Copied :=
  match cls with
  | .file => read_write f o (content.drop c.remote_offset) c.length
  | .sftp => read_write f o (content.drop c.remote_offset) 0
  | .ftp => Ftp.retrieved o f (some content)

/-- The bytes that a call is for: those of the block that exist, or the whole file. -/
def wanted (content : Bytes) (c : Call) : Bytes :=
  if c.exactLength then (content.drop c.remote_offset).take c.length else content

/-- Everything that is asked for comes through. -/
structure Unbroken (f : Fetch) : Prop where
  opens : f.opens = true
  writable : f.writable = true
  reads : ∀ i, f.reads i = true
  reply : f.reply = true

variable (cls : Class) (o : Options) (content : Bytes) (c : Call)

/-- The bytes that the call is for are written at the local offset, and their number returned. -/
def Completes : Prop :=
  ∀ f before, Unbroken f → cls.get o f (some content) c before =
    (some (closed c.local_offset before (wanted content c)), .ok (wanted content c).length)

/-- A transfer that breaks off, after both files were opened, raises an exception. -/
def Reports : Prop :=
  ∀ f before n, f.opens = true → f.writable = true → (cls.transfer o f content c).broke = true →
    (cls.get o f (some content) c before).2 ≠ .ok n

/-- The calls that a class copies the right bytes for. -/
def Copies : Prop :=
  match cls with
  | .file =>
    if c.exactLength then 0 < c.length ∨ content.length ≤ c.remote_offset
    else (c.remote_offset = 0 ∨ content = []) ∧ (c.length = 0 ∨ content.length ≤ c.length)
  | .sftp =>
    if c.exactLength then content.length ≤ c.remote_offset + c.length
    else c.remote_offset = 0 ∨ content = []
  | .ftp =>
    if o.binary then
      c.exactLength = true → (c.remote_offset = 0 ∨ content = []) ∧ content.length ≤ c.length
    else if c.exactLength then content.length ≤ c.remote_offset ∨ c.length = 0
    else content = []

/-! ## The loops -/

section Loops
variable {cls o content c} {f : Fetch}

theorem readAll_eq (reads : ∀ i, f.reads i = true) {bufSize : Nat} (buffer : 0 < bufSize)
    (steps i : Nat) (src : Bytes) (enough : src.length < steps) :
    readAll f bufSize steps i src = ⟨src, false⟩ := by
  induction steps generalizing i src with
  | zero => exact absurd enough (Nat.not_lt_zero _)
  | succ steps ih =>
    rw [readAll, reads i, Bool.not_true, if_neg Bool.false_ne_true]
    cases src with
    | nil => rw [List.take_nil, List.isEmpty_nil, if_pos rfl]
    | cons b src =>
      have shorter : ((b :: src).drop bufSize).length < steps := by
        rw [List.length_drop, List.length_cons]
        rw [List.length_cons] at enough
        omega
      rw [if_neg (by simp [buffer.ne']), ih _ _ shorter, Copied.after, List.take_append_drop]

theorem readRemaining_eq (reads : ∀ i, f.reads i = true) (r i : Nat) (src : Bytes) :
    readRemaining f r i src = ⟨src.take r, false⟩ := by
  unfold readRemaining
  split
  · next none_ => rw [none_, List.take_zero]
  · rw [reads i, Bool.not_true, if_neg Bool.false_ne_true]

theorem readTimes_eq (reads : ∀ i, f.reads i = true) {bufSize : Nat} (buffer : 0 < bufSize)
    (r nc i : Nat) (src : Bytes) :
    readTimes f bufSize r nc i src = ⟨src.take (nc * bufSize + r), false⟩ := by
  induction nc generalizing i src with
  | zero => rw [readTimes, readRemaining_eq reads, Nat.zero_mul, Nat.zero_add]
  | succ nc ih =>
    rw [readTimes, reads i, Bool.not_true, if_neg Bool.false_ne_true]
    cases src with
    | nil => rw [List.take_nil, List.isEmpty_nil, if_pos rfl, readRemaining_eq reads, List.take_nil,
        List.take_nil]
    | cons b src =>
      have split_ : (nc + 1) * bufSize + r = bufSize + (nc * bufSize + r) := by
        rw [Nat.succ_mul]
        omega
      rw [if_neg (by simp [buffer.ne']), ih, Copied.after, split_]
      exact congrArg (Copied.mk · false) (List.take_add ..).symm

theorem read_write_eq (reads : ∀ i, f.reads i = true) (buffer : 0 < o.bufSize) (src : Bytes)
    (length : Nat) :
    read_write f o src length = ⟨if length = 0 then src else src.take length, false⟩ := by
  unfold read_write
  split
  · rw [readAll_eq reads buffer _ _ _ (Nat.lt_succ_self _)]
  · rw [if_neg buffer.ne', readTimes_eq reads buffer, Nat.div_add_mod']

theorem retrbinary_eq (reads : ∀ i, f.reads i = true) (reply : f.reply = true) {bufSize : Nat}
    (buffer : 0 < bufSize) (steps i : Nat) (src : Bytes) (enough : src.length < steps) :
    retrbinary f bufSize steps i src = ⟨src, false⟩ := by
  induction steps generalizing i src with
  | zero => exact absurd enough (Nat.not_lt_zero _)
  | succ steps ih =>
    rw [retrbinary, reads i, Bool.not_true, if_neg Bool.false_ne_true, reply]
    cases src with
    | nil => rw [List.take_nil, List.isEmpty_nil, if_pos rfl]; rfl
    | cons b src =>
      have some_ : 0 < min (max 1 (f.recv i)) bufSize := by omega
      have shorter : ((b :: src).drop (min (max 1 (f.recv i)) bufSize)).length < steps := by
        rw [List.length_drop, List.length_cons]
        rw [List.length_cons] at enough
        omega
      rw [if_neg (by simp [some_.ne']), ih _ _ shorter, Copied.after, List.take_append_drop]

end Loops

/-! ## The classes -/

section Classes
variable {cls o content c}

/-- What a class copies over a transport that does not break. -/
def copied (cls : Class) (o : Options) (content : Bytes) (c : Call) : Bytes :=
  match cls with
  | .file => if c.length = 0 then content.drop c.remote_offset
    else (content.drop c.remote_offset).take c.length
  | .sftp => content.drop c.remote_offset
  | .ftp => if o.binary then content else []

theorem get_unbroken (buffer : 0 < o.bufSize) {f : Fetch} (sound : Unbroken f)
    (before : Option Bytes) :
    cls.get o f (some content) c before =
      (some (closed c.local_offset before (copied cls o content c)),
        .ok (copied cls o content c).length) := by
  cases cls with
  | file =>
    simp only [Class.get, File.get, copied, sound.opens, sound.writable,
      read_write_eq sound.reads buffer]
    rfl
  | sftp =>
    simp only [Class.get, Sftp.get, read_writelocal, copied, sound.opens, sound.writable,
      read_write_eq sound.reads buffer]
    rfl
  | ftp =>
    by_cases binary : o.binary
    · simp only [Class.get, Ftp.get, Ftp.retrieved, copied, sound.opens, sound.writable, binary,
        retrbinary_eq sound.reads sound.reply buffer _ _ _ (Nat.lt_succ_self _)]
      rfl
    · simp only [Class.get, Ftp.get, Ftp.retrieved, copied, sound.opens, sound.writable, binary,
        retrlines, sound.reads]
      cases content <;> rfl

theorem drop_eq_self_iff {bytes : Bytes} {n : Nat} : bytes.drop n = bytes ↔ n = 0 ∨ bytes = [] := by
  constructor
  · intro same
    have lengths := congrArg List.length same
    rw [List.length_drop] at lengths
    by_cases zero : n = 0
    · exact Or.inl zero
    · exact Or.inr (List.eq_nil_of_length_eq_zero (by omega))
  · rintro (rfl | rfl)
    · exact List.drop_zero ..
    · exact List.drop_nil ..

theorem take_drop_eq_self_iff {bytes : Bytes} {m n : Nat} :
    (bytes.drop m).take n = bytes ↔ (m = 0 ∨ bytes = []) ∧ bytes.length ≤ n := by
  constructor
  · intro same
    have lengths := congrArg List.length same
    rw [List.length_take, List.length_drop] at lengths
    refine ⟨?_, by omega⟩
    by_cases zero : m = 0
    · exact Or.inl zero
    · exact Or.inr (List.eq_nil_of_length_eq_zero (by omega))
  · intro ⟨start, reaches⟩
    rw [drop_eq_self_iff.mpr start, List.take_of_length_le reaches]

theorem copied_eq_wanted_iff : copied cls o content c = wanted content c ↔ Copies cls o content c := by
  cases cls with
  | file =>
    simp only [copied, wanted, Copies]
    by_cases none_ : c.length = 0
    · by_cases exact_ : c.exactLength
      · simp [none_, exact_]
      · simp only [none_, exact_, if_true, if_false, Bool.false_eq_true, true_or, and_true]
        exact drop_eq_self_iff
    · by_cases exact_ : c.exactLength
      · simp [none_, exact_, Nat.pos_of_ne_zero none_]
      · simp only [none_, exact_, if_false, Bool.false_eq_true, false_or]
        exact take_drop_eq_self_iff
  | sftp =>
    simp only [copied, wanted, Copies]
    by_cases exact_ : c.exactLength
    · rw [if_pos exact_, if_pos exact_, eq_comm, List.take_eq_self_iff, List.length_drop]
      omega
    · rw [if_neg exact_, if_neg exact_]
      exact drop_eq_self_iff
  | ftp =>
    simp only [copied, wanted, Copies]
    by_cases binary : o.binary
    · rw [if_pos binary, if_pos binary]
      by_cases exact_ : c.exactLength
      · rw [if_pos exact_, eq_comm, take_drop_eq_self_iff]
        simp [exact_]
      · simp [exact_]
    · rw [if_neg binary, if_neg binary]
      by_cases exact_ : c.exactLength
      · rw [if_pos exact_, if_pos exact_, eq_comm, List.take_eq_nil_iff, List.drop_eq_nil_iff]
        exact or_comm
      · rw [if_neg exact_, if_neg exact_, eq_comm]

variable (content c) in
/-- The exception of a read goes to the caller, except in `Ftp.get`. -/
theorem reports_iff : Reports cls o content c ↔ cls ≠ .ftp := by
  cases cls with
  | file =>
    refine iff_of_true (fun f before n opens writable broke => ?_) (by decide)
    simp only [Class.transfer] at broke
    simp only [Class.get, File.get, opens, writable, broke]
    exact nofun
  | sftp =>
    refine iff_of_true (fun f before n opens writable broke => ?_) (by decide)
    simp only [Class.transfer] at broke
    simp only [Class.get, Sftp.get, read_writelocal, opens, writable, Bool.false_eq_true, if_false,
      broke]
    exact nofun
  | ftp =>
    refine iff_of_false (fun reports => ?_) (by decide)
    let broken : Fetch := ⟨true, true, fun _ => false, fun _ => 1, false⟩
    have nothing : Ftp.retrieved o broken (some content) = ⟨[], true⟩ := by
      by_cases binary : o.binary
      · rw [Ftp.retrieved, if_neg (by decide), if_pos binary]
        rfl
      · rw [Ftp.retrieved, if_neg (by decide), if_neg binary]
        rfl
    refine reports broken none 0 rfl rfl (congrArg Copied.broke nothing) ?_
    simp only [Class.get, Ftp.get, nothing]
    rfl

variable (content c) in
theorem completes_iff (buffer : 0 < o.bufSize) : Completes cls o content c ↔ Copies cls o content c := by
  rw [← copied_eq_wanted_iff]
  constructor
  · intro completes
    let sound : Fetch := ⟨true, true, fun _ => true, fun _ => 1, true⟩
    have same := completes sound none ⟨rfl, rfl, fun _ => rfl, rfl⟩
    rw [get_unbroken buffer ⟨rfl, rfl, fun _ => rfl, rfl⟩] at same
    exact List.append_cancel_left (Option.some.inj (Prod.mk.inj same).1)
  · intro same f before sound
    rw [get_unbroken buffer sound, same]

end Classes
end Sarracenia.Guarantees.Get
