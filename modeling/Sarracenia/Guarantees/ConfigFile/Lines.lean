import Sarracenia.Guarantees.ConfigFile.Branches
import Sarracenia.Library.Collect

/-!
# One line

A line is converted, its words are substituted, and a branch is taken; each of these can raise. Masks come of the branch alone.
-/
namespace Sarracenia.Guarantees.ConfigFile
open Library Library.Text Library.Decimal Library.Dynamic
open Source Source.ConfigFile
open Source.Conversion (lookup among convert_to_v3 Keyword)
open Conversion (among_name lookup_name)

section Convert
variable {L : Type} {w : World L} {s s' : Conf L} {k k' : Str} {line line' : List Str}

/-- The attribute `unknown` can be asked for a keyword that is to be forgotten. -/
def Forgets (s : Conf L) (k : Str) : Prop :=
  match s.attr "unknown".toList with
  | some (.text t) => occurs k t = false
  | some (.list _) => True
  | some (.set _) => True
  | _ => False

/-- An old keyword has what to do with a line: an argument is none of the words that stand in for it, and without an argument
these are at least two, or the line is passed over. -/
def Converts (s : Conf L) (k : Str) : List Str → Keyword → Prop
  | _ :: argument :: _, .list words => among words (replaceFirst ".py".toList [] argument) = false
  | _ :: _ :: _, .table _ => True
  | _, .list words => if "continue" ∈ words then Forgets s k else 1 < words.length
  | _, .table _ => False

def Converted.conf : Converted L → Conf L
  | .line s _ _ => s
  | .done s => s
  | .raised s _ => s

def Converted.raises : Converted L → Bool
  | .raised _ _ => true
  | _ => false

theorem forget_same : Same s (Converted.conf (forget s k)) := by
  unfold forget
  split
  · split <;> exact .refl s
  · exact named_same (by decide : "unknown" ≠ "masks")
  · exact named_same (by decide : "unknown" ≠ "masks")
  · exact .refl s
  · exact .refl s

theorem forget_raises : Converted.raises (forget s k) = false ↔ Forgets s k := by
  unfold forget Forgets
  cases s.attr "unknown".toList with
  | none => exact iff_of_false nofun id
  | some a =>
    cases a with
    | text t =>
      dsimp only
      split
      · next inside => exact iff_of_false nofun (ne_false_of_eq_true inside)
      · next outside => exact iff_of_true rfl (eq_false_of_ne_true outside)
    | list items => exact iff_of_true rfl trivial
    | set members => exact iff_of_true rfl trivial
    | _ => exact iff_of_false nofun id

theorem forgets_congr (same : s'.attr "unknown".toList = s.attr "unknown".toList) : Forgets s' k ↔ Forgets s k := by
  unfold Forgets
  rw [same]

theorem converts_congr (same : s'.attr "unknown".toList = s.attr "unknown".toList) {keyword : Keyword} :
    Converts s' k line keyword ↔ Converts s k line keyword := by
  rcases line with _ | ⟨first, _ | ⟨argument, rest⟩⟩ <;> cases keyword <;> unfold Converts <;> simp only [forgets_congr same]

theorem convert_same : Same s (Converted.conf (convert s k line)) := by
  unfold convert
  split
  · exact .refl s
  · dsimp only
    have logged : Same s (if occurs "_log".toList k then s.setattr "log_flowcb_needed".toList (.bool true) else s) := by
      split
      · exact named_same (by decide : "log_flowcb_needed" ≠ "masks")
      · exact .refl s
    revert logged
    generalize (if occurs "_log".toList k then s.setattr "log_flowcb_needed".toList (.bool true) else s) = s'
    intro logged
    split
    · split
      · split <;> exact logged
      · split <;> exact logged
    · split
      · split
        · exact logged.trans forget_same
        · split <;> exact logged
      · exact logged

theorem convert_raises : Converted.raises (convert s k line) = false ↔
    ∀ keyword, lookup convert_to_v3 k = some keyword → Converts s k line keyword := by
  unfold convert
  cases lookup convert_to_v3 k with
  | none => exact iff_of_true rfl nofun
  | some keyword =>
    simp only [Option.some.injEq, forall_eq']
    have forgets : Forgets (if occurs "_log".toList k then s.setattr "log_flowcb_needed".toList (.bool true) else s) k ↔ Forgets s k := by
      split
      · exact forgets_congr (setattr_ne (names_apart (by decide)))
      · exact Iff.rfl
    revert forgets
    generalize (if occurs "_log".toList k then s.setattr "log_flowcb_needed".toList (.bool true) else s) = s'
    intro forgets
    rcases line with _ | ⟨first, _ | ⟨argument, rest⟩⟩
    case cons.cons =>
      cases keyword with
      | list words =>
        unfold Converts
        dsimp only
        split
        · next member => exact iff_of_false nofun (ne_false_of_eq_true member)
        · next other => exact iff_of_true rfl (eq_false_of_ne_true other)
      | table entries =>
        refine iff_of_true ?_ trivial
        dsimp only
        split <;> rfl
    -- without an argument
    all_goals
      cases keyword with
      | table entries => exact iff_of_false nofun id
      | list words =>
        unfold Converts
        dsimp only
        split
        · exact forget_raises.trans forgets
        · rcases words with _ | ⟨name, _ | ⟨value, values⟩⟩
          · exact iff_of_false nofun (by decide)
          · exact iff_of_false nofun (by simp)
          · exact iff_of_true rfl (by simp)

end Convert

section Command
variable {L : Type} {w : World L} {s s' : Conf L} {k k' v : Str} {line more : List Str} {b : Branch}

def Substitutes (w : World L) (s : Conf L) (k : Str) (line : List Str) : Prop :=
  k ≠ "continue".toList → among ["queueName", "queueShare"] k = false → ∀ word ∈ line, ∃ t, varsub w s word = .ok t

def Command.conf : Command L → Conf L
  | .done s => s
  | .raised s _ => s
  | .include_ s _ => s
  | .perform s _ _ _ _ => s

def Command.raises : Command L → Bool
  | .raised _ _ => true
  | _ => false

theorem substituted_ok_iff : (∃ words, substituted w s k line = .ok words) ↔
    (among ["queueName", "queueShare"] k = false → ∀ word ∈ line, ∃ t, varsub w s word = .ok t) := by
  unfold substituted
  split
  · next queue => exact iff_of_true ⟨line, rfl⟩ fun other => absurd queue (ne_true_of_eq_false other)
  · next other =>
    rw [forall_prop_of_true (eq_false_of_ne_true other)]
    exact ⟨fun ⟨words, done⟩ => ((mapM_ok_iff []).mp done).1, fun each => ⟨_, (mapM_ok_iff []).mpr ⟨each, rfl⟩⟩⟩

theorem flag_same {arguments : List Str} (flags : among flag_options k = true) : Same s (flag s k arguments) := by
  have other : k ≠ "masks".toList := by
    rintro rfl
    exact absurd flags (by decide)
  unfold flag
  extract_lets value set_
  split
  · exact (setattr_same other).trans (named_same (by decide : "logEvents" ≠ "masks"))
  · exact setattr_same other

theorem command_same : Same s (Command.conf (command w s k line)) := by
  unfold command
  split
  · exact .refl s
  · split
    · exact .refl s
    · split
      · next flags => exact flag_same flags
      · dsimp only
        have broker : Same s (if k = "broker".toList then s.setattr "subtopic_seen".toList (.bool false) else s) := by
          split
          · exact named_same (by decide : "subtopic_seen" ≠ "masks")
          · exact .refl s
        revert broker
        generalize (if k = "broker".toList then s.setattr "subtopic_seen".toList (.bool false) else s) = s'
        intro broker
        split
        · split <;> exact broker
        · exact broker

theorem command_raises : Command.raises (command w s k line) = false ↔ Substitutes w s k line := by
  unfold command Substitutes
  by_cases passed : k = "continue".toList
  · rw [if_pos passed]
    exact iff_of_true rfl fun other => absurd passed other
  · rw [if_neg passed, forall_prop_of_true passed, ← substituted_ok_iff]
    cases substituted w s k line with
    | error fault => exact iff_of_false nofun nofun
    | ok words =>
      refine iff_of_true ?_ ⟨words, rfl⟩
      dsimp only
      split
      · rfl
      · generalize (if k = "broker".toList then s.setattr "subtopic_seen".toList (.bool false) else s) = s'
        split
        · split <;> rfl
        · rfl

theorem command_perform (is : command w s k line = .perform s' b k' v more) : b = branchOf s' k' ∧ b ≠ .include_ := by
  unfold command at is
  split at is
  · cases is
  · split at is
    · cases is
    · split at is
      · cases is
      · dsimp only at is
        generalize (if k = "broker".toList then s.setattr "subtopic_seen".toList (.bool false) else s) = broker at is
        split at is
        · split at is
          · cases is
          · next other =>
            cases is
            exact ⟨rfl, other⟩
        · cases is

end Command

/-! ## What a line does -/

section Met
variable {L : Type} {w : World L} {m : Met L} {items : List Item} {inner : Conf L → Str → Parsed L} {file : Str}

/-- A line that is neither empty nor a comment, converted. -/
def Reads (m : Met L) (first : Str) (c : Converted L) : Prop :=
  m.line.head? = some first ∧ first.head? ≠ some '#' ∧
    convert (m.conf.setattr "lineno".toList (.int m.lineno)) (resolve m.component first) m.line = c

/-- A line that does not raise: the table of old keywords has what to do with it, its words can be substituted, and its branch has
what it needs. -/
structure Runs (w : World L) (m : Met L) : Prop where
  converts : ∀ first c, Reads m first c → ∀ keyword, lookup convert_to_v3 (resolve m.component first) = some keyword →
    Converts m.conf (resolve m.component first) m.line keyword
  substitutes : ∀ first s k line, Reads m first (.line s k line) → Substitutes w s k line
  works : ∀ s b k v more, m.command w = .perform s b k v more → Works w s k v more b

/-- A line that adds no entry that `filter` cannot use. -/
structure Keeps (w : World L) (m : Met L) : Prop where
  mask : ∀ s k v more, m.command w = .perform s .mask k v more → Usable w s k v
  text : ∀ s k v more, m.command w = .perform s .other k v more → k ≠ "masks".toList

/-- What follows the conversion. -/
def Converted.next (w : World L) : Converted L → Command L
  | .line s k line => command w s k line
  | .done s => .done s
  | .raised s fault => .raised s fault

theorem reads_cases (w : World L) (m : Met L) :
    (∃ first c, Reads m first c ∧ m.command w = Converted.next w c) ∨
      (∀ first c, ¬ Reads m first c) ∧ m.command w = .done (m.conf.setattr "lineno".toList (.int m.lineno)) := by
  unfold Met.command Reads
  dsimp only
  cases m.line with
  | nil => exact .inr ⟨nofun, rfl⟩
  | cons first rest =>
    by_cases comment : first.head? = some '#'
    · refine .inr ⟨fun other c reads => ?_, if_pos comment⟩
      cases reads.1
      exact reads.2.1 comment
    · refine .inl ⟨first, _, ⟨rfl, comment, rfl⟩, (if_neg comment).trans ?_⟩
      cases convert (m.conf.setattr "lineno".toList (.int m.lineno)) (resolve m.component first) (first :: rest) <;> rfl

theorem Reads.unique {one two : Str} {c d : Converted L} (first : Reads m one c) (second : Reads m two d) : one = two ∧ c = d := by
  obtain ⟨head, -, is⟩ := first
  obtain ⟨head', -, is'⟩ := second
  obtain rfl := Option.some.inj (head.symm.trans head')
  exact ⟨rfl, is.symm.trans is'⟩

theorem Reads.same {first : Str} {c : Converted L} (reads : Reads m first c) : Same m.conf (Converted.conf c) := by
  rw [← reads.2.2]
  exact Same.trans (named_same (by decide : "lineno" ≠ "masks")) convert_same

theorem met_same : Same m.conf (Command.conf (m.command w)) := by
  rcases reads_cases w m with ⟨first, c, reads, is⟩ | ⟨-, is⟩
  · rw [is]
    cases c with
    | line s k line => exact reads.same.trans command_same
    | done s => exact reads.same
    | raised s fault => exact reads.same
  · rw [is]
    exact named_same (by decide : "lineno" ≠ "masks")

theorem met_perform {s : Conf L} {b : Branch} {k v : Str} {more : List Str} (is : m.command w = .perform s b k v more) :
    b = branchOf s k ∧ b ≠ .include_ := by
  rcases reads_cases w m with ⟨first, c, -, next⟩ | ⟨-, next⟩
  · cases c with
    | line s k line => exact command_perform (next.symm.trans is)
    | done s => cases next.symm.trans is
    | raised s fault => cases next.symm.trans is
  · cases next.symm.trans is

theorem reads_raises {first : Str} {c : Converted L} (reads : Reads m first c) : Converted.raises c = false ↔
    ∀ keyword, lookup convert_to_v3 (resolve m.component first) = some keyword →
      Converts m.conf (resolve m.component first) m.line keyword := by
  rw [← reads.2.2, convert_raises]
  simp only [converts_congr (s := m.conf) (setattr_ne (names_apart (by decide : "unknown" ≠ "lineno")))]

/-- What is before the branch does not raise. -/
theorem met_raises : Command.raises (m.command w) = false ↔
    (∀ first c, Reads m first c → ∀ keyword, lookup convert_to_v3 (resolve m.component first) = some keyword →
      Converts m.conf (resolve m.component first) m.line keyword) ∧
    ∀ first s k line, Reads m first (.line s k line) → Substitutes w s k line := by
  rcases reads_cases w m with ⟨first, c, reads, is⟩ | ⟨none_, is⟩
  · rw [is]
    have converts : (∀ first c, Reads m first c → ∀ keyword, lookup convert_to_v3 (resolve m.component first) = some keyword →
        Converts m.conf (resolve m.component first) m.line keyword) ↔ Converted.raises c = false := by
      rw [reads_raises reads]
      refine ⟨fun each => each first c reads, fun here other d also => ?_⟩
      rw [← (reads.unique also).1]
      exact here
    rw [converts]
    cases c with
    | line s k line =>
      refine command_raises.trans ⟨fun here => ⟨rfl, fun other s' k' line' also => ?_⟩, fun both => both.2 first s k line reads⟩
      cases (reads.unique also).2
      exact here
    | done s => exact iff_of_true rfl ⟨rfl, fun other s' k' line' also => by cases (reads.unique also).2⟩
    | raised s fault => exact iff_of_false nofun fun both => by cases both.1
  · rw [is]
    exact iff_of_true rfl ⟨fun first c reads => absurd reads (none_ first c), fun first s k line reads => absurd reads (none_ first _)⟩

theorem runs_iff : Runs w m ↔
    Command.raises (m.command w) = false ∧ ∀ s b k v more, m.command w = .perform s b k v more → Works w s k v more b := by
  rw [met_raises]
  exact ⟨fun runs => ⟨⟨runs.converts, runs.substitutes⟩, runs.works⟩, fun both => ⟨both.1.1, both.1.2, both.2⟩⟩

theorem runs_perform {s : Conf L} {b : Branch} {k v : Str} {more : List Str} (is : m.command w = .perform s b k v more) :
    Runs w m ↔ Works w s k v more b := by
  rw [runs_iff, is]
  refine ⟨fun both => both.2 s b k v more rfl, fun works => ⟨rfl, ?_⟩⟩
  rintro s' b' k' v' more' ⟨⟩
  exact works

theorem keeps_perform {s : Conf L} {b : Branch} {k v : Str} {more : List Str} (is : m.command w = .perform s b k v more) :
    Keeps w m ↔ (b = .mask → Usable w s k v) ∧ (b = .other → k ≠ "masks".toList) := by
  constructor
  · intro keeps
    constructor
    · rintro rfl
      exact keeps.mask s k v more is
    · rintro rfl
      exact keeps.text s k v more is
  · intro both
    constructor
    · intro s' k' v' more' also
      cases is.symm.trans also
      exact both.1 rfl
    · intro s' k' v' more' also
      cases is.symm.trans also
      exact both.2 rfl

/-- Only branches add masks. -/
theorem keeps_of (no : ∀ s b k v more, m.command w ≠ .perform s b k v more) : Keeps w m :=
  ⟨fun s k v more is => absurd is (no s _ k v more), fun s k v more is => absurd is (no s _ k v more)⟩

theorem varsub_plain {s : Conf L} {word : Str} (plain : '$' ∉ word) : varsub w s word = .ok word := by
  unfold varsub Config._varsub Config.varsubWith
  rw [if_pos plain]
  rfl

/-- A line for a mask, without variables. -/
theorem met_mask {verb : String} {v : Str} {more : List Str} (verbs : verb ∈ ["accept", "reject"])
    (is : m.line = verb.toList :: v :: more) (plain : ∀ word ∈ v :: more, '$' ∉ word) :
    m.command w = .perform (m.conf.setattr "lineno".toList (.int m.lineno)) .mask verb.toList v more := by
  have cases_ (P : String → Prop) (accept : P "accept") (reject : P "reject") : P verb := by
    rcases List.mem_cons.mp verbs with rfl | verbs
    · exact accept
    · obtain rfl := List.mem_singleton.mp verbs
      exact reject
  have apart {name : String} (accept : "accept" ≠ name) (reject : "reject" ≠ name) : verb.toList ≠ name.toList :=
    names_apart (cases_ (· ≠ name) accept reject)
  have synonym : lookup Source.Conversion.synonyms verb.toList = none := by
    rw [lookup_name]
    exact cases_ (fun verb => (Source.Conversion.synonyms.find? fun e => e.1 == verb).map (·.2) = none) (by decide) (by decide)
  have old : lookup convert_to_v3 verb.toList = none := by
    rw [lookup_name]
    exact cases_ (fun verb => (convert_to_v3.find? fun e => e.1 == verb).map (·.2) = none) (by decide) (by decide)
  have current : resolve m.component verb.toList = verb.toList := by
    unfold resolve
    rw [synonym]
    dsimp only
    rw [if_neg (apart (by decide) (by decide)), if_neg fun both => apart (by decide) (by decide) both.1]
  have comment : verb.toList.head? ≠ some '#' := cases_ (·.toList.head? ≠ some '#') (by decide) (by decide)
  have flags : among flag_options verb.toList = false := by
    rw [among_name]
    exact cases_ (fun verb => flag_options.contains verb = false) (by decide) (by decide)
  have branch (s : Conf L) : branchOf s verb.toList = .mask := by
    unfold branchOf
    rw [if_pos]
    rw [among_name]
    exact cases_ (fun verb => ["accept", "reject"].contains verb = true) (by decide) (by decide)
  have words (s : Conf L) : substituted w s verb.toList (verb.toList :: v :: more) = .ok (verb.toList :: v :: more) := by
    unfold substituted
    split
    · rfl
    · have dollar : '$' ∉ verb.toList := cases_ ('$' ∉ ·.toList) (by decide) (by decide)
      have each : ∀ word ∈ verb.toList :: v :: more, varsub w s word = .ok word :=
        List.forall_mem_cons.mpr ⟨varsub_plain dollar, fun word member => varsub_plain (plain word member)⟩
      exact (mapM_ok_of (g := id) each).trans (congrArg _ (List.map_id _))
  unfold Met.command
  rw [is]
  dsimp only
  rw [if_neg comment, current]
  unfold convert
  rw [old]
  dsimp only
  unfold command
  rw [if_neg (apart (by decide) (by decide)), words]
  dsimp only
  rw [flags, if_neg Bool.false_ne_true, if_neg (apart (by decide) (by decide)), branch, if_neg (by decide)]

end Met

end Sarracenia.Guarantees.ConfigFile
