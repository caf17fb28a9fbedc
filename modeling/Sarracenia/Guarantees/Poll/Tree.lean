import Sarracenia.Library.Collect
import Sarracenia.Source.Poll

/-!
# What one listing comes to

One line that cannot be parsed loses the whole listing, and a local file is returned as its
message, not as a list.
-/
namespace Sarracenia.Guarantees.Poll
open Library Library.Text Library.Dynamic
open Source Source.Poll

/-- What the messages of `fromFileInfo` are told apart by, which the later edits leave alone; one
of a local file is not empty, and a file operation is a dictionary. -/
structure Told {τ : Type} (now : Moment) (tag : Str → τ) (tagOf : Message → τ) : Prop where
  told : ∀ path a m, now.fromFileInfo path a = .ok m → tagOf m = tag path
  set : ∀ (m : Message) key v, key ∈ ["fileOp", "identity"] → tagOf (m.set key v) = tagOf m
  del : ∀ (m : Message) key, key ∈ ["identity", "size"] → tagOf (m.del key) = tagOf m
  fileOp : ∀ path a m op, now.fromFileInfo path a = .ok m → m.get "fileOp" = some op → ∃ entries, op = .dict entries
  some_ : ∀ path m, now.localInfo path = .ok m → m ≠ []

/-- Files, directories and links are all asked for. -/
def Events (o : Options) : Prop := "create" ∈ o.fileEvents ∧ "mkdir" ∈ o.fileEvents ∧ "link" ∈ o.fileEvents

section Entries
variable (now : Moment) (o : Options)

/-- What can be posted: no local file, a message can be made of it, a link can be read, and an
identity method has two parts, if any comma. -/
def Postable (path : Str) (a : Attributes) : Prop :=
  isLocal now o path = false ∧ (∃ m, now.fromFileInfo path a = .ok m) ∧
    (S_ISLNK a = true → o.follow_symlinks = false → (now.readlink path).isSome) ∧
      (',' ∈ o.identity_method → (split [','] o.identity_method).length = 2)

def isDot (name : Str) : Bool := name = ['.'] ∨ name = ['.', '.']

/-! ## One entry -/

variable {now o} {τ : Type} {tag : Str → τ} {tagOf : Message → τ} (told : Told now tag tagOf) (events : Events o)
  {path : Str} {a : Attributes}

theorem dir_not_link (dir : S_ISDIR a = true) : S_ISLNK a = false := by
  unfold S_ISDIR S_ISLNK at *
  rw [of_decide_eq_true dir]
  rfl

include told

theorem fileOp_tag {msg msg' : Message} (set : fileOp now o path a msg = some msg') : tagOf msg' = tagOf msg := by
  unfold fileOp at set
  split at set
  · split at set
    · cases set
      exact told.set _ _ _ (by decide)
    · cases set
  · split at set
    · split at set
      · split at set
        · cases set
          rfl
        · obtain ⟨target, -, same⟩ := Option.map_eq_some_iff.mp set
          rw [← same]
          exact told.set _ _ _ (by decide)
      · cases set
    · cases set
      rfl

theorem identity_tag {msg msg' : Message} (done : identity o msg = .ok msg') : tagOf msg' = tagOf msg := by
  unfold identity at done
  split at done
  · split at done
    · cases done
      exact told.set _ _ _ (by decide)
    · cases done
  · cases done
    rfl

theorem irrelevant_tag {msg msg' : Message} (done : irrelevant msg = .ok msg') : tagOf msg' = tagOf msg := by
  unfold irrelevant at done
  split at done
  · cases done
    rfl
  · next op there =>
    cases has : op.has "rename" with
    | error e =>
      rw [has] at done
      cases done
    | ok rename =>
      rw [has] at done
      cases rename with
      | true =>
        cases done
        rfl
      | false =>
        cases done
        change tagOf ((msg.del "identity").del "size") = _
        rw [told.del _ _ (by decide), told.del _ _ (by decide)]

/-- What a remote entry may come to: nothing, or one message that tells its path. -/
theorem remotePost_ok {r : Returned} (done : remotePost now o path a = .ok r) :
    r = .nothing ∨ ∃ m, r = .list [m] ∧ tagOf m = tag path := by
  obtain ⟨msg, made, done⟩ := bind_ok_iff.mp done
  split at done
  · cases done
    exact Or.inl rfl
  · next msg₁ op =>
    split at done
    · cases done
      exact Or.inl rfl
    · obtain ⟨msg₂, named, done⟩ := bind_ok_iff.mp done
      obtain ⟨msg₃, kept, done⟩ := bind_ok_iff.mp done
      cases done
      refine Or.inr ⟨msg₃, rfl, ?_⟩
      rw [irrelevant_tag told kept, identity_tag told named, fileOp_tag told op, told.told path a msg made]

omit told in
include events in
theorem fileOp_some (msg : Message) (readable : S_ISLNK a = true → o.follow_symlinks = false → (now.readlink path).isSome) :
    ∃ msg', fileOp now o path a msg = some msg' ∧
      (msg'.get "fileOp" = msg.get "fileOp" ∨ ∃ entries, msg'.get "fileOp" = some (.dict entries)) := by
  obtain ⟨-, mkdir, link⟩ := events
  unfold fileOp
  by_cases dir : S_ISDIR a = true
  · rw [if_pos dir, if_pos mkdir]
    exact ⟨_, rfl, Or.inr ⟨_, Dict.get_set_self _ _ _⟩⟩
  · rw [if_neg dir]
    by_cases lnk : S_ISLNK a = true
    · rw [if_pos lnk, if_pos link]
      by_cases follow : o.follow_symlinks = true
      · rw [if_pos follow]
        exact ⟨_, rfl, Or.inl rfl⟩
      · obtain ⟨target, there⟩ := Option.isSome_iff_exists.mp (readable lnk (Bool.eq_false_iff.mpr follow))
        rw [if_neg follow, there]
        exact ⟨_, rfl, Or.inr ⟨_, Dict.get_set_self _ _ _⟩⟩
    · rw [if_neg lnk]
      exact ⟨_, rfl, Or.inl rfl⟩

omit told in
include events in
/-- Without a message, the link could not be read. -/
theorem fileOp_none {msg : Message} (none_ : fileOp now o path a msg = none) :
    S_ISLNK a = true ∧ o.follow_symlinks = false ∧ now.readlink path = none := by
  by_contra other
  have readable : S_ISLNK a = true → o.follow_symlinks = false → (now.readlink path).isSome := by
    intro lnk follow
    by_contra unread
    exact other ⟨lnk, follow, Option.not_isSome_iff_eq_none.mp unread⟩
  obtain ⟨_, some_, _⟩ := fileOp_some events msg readable
  cases none_.symm.trans some_

omit told in
theorem identity_some {msg : Message} (two : ',' ∈ o.identity_method → (split [','] o.identity_method).length = 2) :
    ∃ msg', identity o msg = .ok msg' ∧ msg'.get "fileOp" = msg.get "fileOp" := by
  unfold identity
  split
  · next comma =>
    obtain ⟨m, v, parts⟩ := List.length_eq_two.mp (two comma)
    rw [parts]
    exact ⟨_, rfl, Dict.get_set_ne _ (by decide) _⟩
  · exact ⟨_, rfl, rfl⟩

omit told in
theorem irrelevant_some {msg : Message} (dict : ∀ op, msg.get "fileOp" = some op → ∃ entries, op = .dict entries) :
    ∃ msg', irrelevant msg = .ok msg' := by
  unfold irrelevant
  cases there : msg.get "fileOp" with
  | none => exact ⟨_, rfl⟩
  | some op =>
    obtain ⟨entries, rfl⟩ := dict op there
    exact ⟨_, rfl⟩

include events

/-- What can be posted is. -/
theorem post_postable {pdir name : Str} (postable : Postable now o (pathOf pdir name) a) :
    ∃ m, poll_file_post now o a pdir name = .ok (.list [m]) ∧ tagOf m = tag (pathOf pdir name) := by
  obtain ⟨remote, ⟨msg, made⟩, readable, two⟩ := postable
  obtain ⟨msg₁, op, kept⟩ := fileOp_some events msg readable
  obtain ⟨msg₂, named, same⟩ := identity_some two
  have dict : ∀ op, msg₂.get "fileOp" = some op → ∃ entries, op = .dict entries := by
    intro op there
    rw [same] at there
    rcases kept with before | ⟨entries, now_⟩
    · exact told.fileOp _ _ _ _ made (before ▸ there)
    · rw [now_] at there
      exact ⟨entries, (Option.some.inj there).symm⟩
  obtain ⟨msg₃, done⟩ := irrelevant_some dict
  have create : ¬ ("create" ∉ o.fileEvents ∧ "modify" ∉ o.fileEvents) := fun none_ => none_.1 events.1
  have posted : remotePost now o (pathOf pdir name) a = .ok (.list [msg₃]) := by
    unfold remotePost
    rw [made]
    dsimp only [bind, Except.bind]
    rw [op]
    dsimp only
    rw [if_neg create, named]
    dsimp only
    rw [done]
    rfl
  refine ⟨msg₃, ?_, ?_⟩
  · unfold poll_file_post
    rw [remote]
    exact posted
  · rcases remotePost_ok told posted with none_ | ⟨m, list, tells⟩
    · cases none_
    · cases list
      exact tells

/-- What cannot be is not: an exception, nothing for a link, or the keys of a local file. -/
theorem post_other {pdir name : Str} (other : ¬ Postable now o (pathOf pdir name) a) {r : Returned}
    (done : poll_file_post now o a pdir name = .ok r) :
    (r = .nothing ∧ S_ISLNK a = true) ∨ ∃ m : Message, r = .message m ∧ m ≠ [] := by
  unfold poll_file_post at done
  split at done
  · obtain ⟨m, info, done⟩ := bind_ok_iff.mp done
    split at done
    · cases done
    · cases done
      exact Or.inr ⟨m, rfl, told.some_ _ _ info⟩
  · next remote =>
    obtain ⟨msg, made, rest⟩ := bind_ok_iff.mp done
    refine Or.inl ?_
    split at rest
    · next none_ =>
      cases rest
      exact ⟨rfl, (fileOp_none events none_).1⟩
    · next msg₁ op =>
      split at rest
      · next nothing => exact absurd events.1 nothing.1
      · obtain ⟨msg₂, named, _⟩ := bind_ok_iff.mp rest
        refine absurd ⟨Bool.eq_false_iff.mpr remote, ⟨msg, made⟩, ?_, ?_⟩ other
        · intro lnk follow
          by_contra unread
          have apart : S_ISDIR a ≠ true := fun dir => by
            rw [dir_not_link dir] at lnk
            cases lnk
          unfold fileOp at op
          rw [if_neg apart, if_pos lnk, if_pos events.2.2, follow, Option.not_isSome_iff_eq_none.mp unread] at op
          cases op
        · intro comma
          unfold identity at named
          rw [if_pos comma] at named
          split at named
          · next two =>
            rw [two]
            rfl
          · cases named

end Entries
end Sarracenia.Guarantees.Poll

/-!
## A remote tree

What is due of a tree, and when polling brings it all.
-/
namespace Sarracenia.Guarantees.Poll
open Library Library.Text Library.Dynamic
open Source Source.Poll

/-! ## Trees -/

structure Entry where
  name : Str
  line : Line
  opened : Bool
  below : Listing

def entries : Listing → List Entry
  | .nil => []
  | .entry name line opened below rest => ⟨name, line, opened, below⟩ :: entries rest

/-- From the listings below to the listing itself. -/
theorem listing_induct {P : Listing → Prop} (step : ∀ l, (∀ e ∈ entries l, P e.below) → P l) (l : Listing) : P l := by
  have both : P l ∧ ∀ e ∈ entries l, P e.below := by
    induction l with
    | nil => exact ⟨step _ nofun, nofun⟩
    | entry name line opened below rest first later =>
      have all : ∀ e ∈ entries (.entry name line opened below rest), P e.below := List.forall_mem_cons.mpr ⟨first.1, later.2⟩
      exact ⟨step _ all, all⟩
  exact both.1

/-- No name stands twice in a listing. -/
def Unique : Listing → Prop
  | .nil => True
  | .entry name _ _ below rest => name ∉ (entries rest).map Entry.name ∧ Unique below ∧ Unique rest

theorem unique_entries {l : Listing} (unique : Unique l) :
    ((entries l).map Entry.name).Nodup ∧ ∀ e ∈ entries l, Unique e.below := by
  induction l with
  | nil => exact ⟨List.nodup_nil, nofun⟩
  | entry name line opened below rest _ ih =>
    obtain ⟨new, first, others⟩ := unique
    obtain ⟨distinct, all⟩ := ih others
    exact ⟨List.nodup_cons.mpr ⟨new, distinct⟩, List.forall_mem_cons.mpr ⟨first, all⟩⟩

theorem lines_entries (l : Listing) : l.lines = (entries l).map fun e => (e.name, e.line) := by
  induction l with
  | nil => rfl
  | entry name line opened below rest _ ih => exact congrArg (_ :: ·) ih

section Trees
variable (now : Moment) (o : Options)

/-- The lines that can be parsed and have the permissions. -/
def kept (lines : List (Str × Line)) : List (Str × Attributes) :=
  lines.filterMap fun f => (valueOr none (on_line now o f.2)).map fun a => (f.1, a)

/-- Of these, the files and links, and the directories where they are followed. -/
def due (lines : List (Str × Line)) : List (Str × Attributes) :=
  (kept now o lines).filter fun f => !S_ISDIR f.2 || (o.recursive && !isDot f.1)

/-- Whether an entry is a directory to poll. -/
def followed (name : Str) (line : Line) (opened : Bool) : Bool :=
  o.recursive && !isDot name && opened && (valueOr none (on_line now o line)).any S_ISDIR

def dueBelow : Listing → Str → List Str
  | .nil, _ => []
  | .entry name line opened below rest, pdir =>
    (if followed now o name line opened then
        (due now o below.lines).map (fun f => pathOf (pathOf pdir name) f.1) ++ dueBelow below (pathOf pdir name)
      else []) ++ dueBelow rest pdir

/-- The paths of everything that is due of a tree. -/
def dueOf (l : Listing) (pdir : Str) : List Str := (due now o l.lines).map (fun f => pathOf pdir f.1) ++ dueBelow now o l pdir

def pathsBelow : Listing → Str → List Str
  | .nil, _ => []
  | .entry name _ _ below rest, pdir =>
    (below.lines.map (fun f => pathOf (pathOf pdir name) f.1) ++ pathsBelow below (pathOf pdir name)) ++ pathsBelow rest pdir

/-- The paths of all entries of a tree. -/
def paths (l : Listing) (pdir : Str) : List Str := l.lines.map (fun f => pathOf pdir f.1) ++ pathsBelow l pdir

/-- No line raises an exception. -/
def Parsed (lines : List (Str × Line)) : Prop := ∀ f ∈ lines, ∃ r, on_line now o f.2 = .ok r

/-- A listing comes to what it should: no line raises an exception, neither `.` nor `..` is a
directory to post, and all that is due can be posted; or nothing is due. -/
def SoundLines (lines : List (Str × Line)) (pdir : Str) : Prop :=
  (Parsed now o lines ∧
    (o.recursive = true → ∀ f ∈ kept now o lines, S_ISDIR f.2 = true → isDot f.1 = false) ∧
      ∀ f ∈ due now o lines, Postable now o (pathOf pdir f.1) f.2) ∨
    (¬ Parsed now o lines ∧ due now o lines = [])

def SoundBelow : Listing → Str → Prop
  | .nil, _ => True
  | .entry name line opened below rest, pdir =>
    (followed now o name line opened = true →
        SoundLines now o below.lines (pathOf pdir name) ∧ SoundBelow below (pathOf pdir name)) ∧
      SoundBelow rest pdir

/-- Every listing that is met does. -/
def Sound (l : Listing) (pdir : Str) : Prop := SoundLines now o l.lines pdir ∧ SoundBelow now o l pdir

/-- One message for each path that is due, and nothing else. -/
def Complete {τ : Type} (tag : Str → τ) (tagOf : Message → τ) (l : Listing) (pdir : Str) : Prop :=
  ∃ msgs : List Message, poll_directory now o pdir l = .ok (msgs.map .message) ∧
    (msgs.map tagOf).Perm ((dueOf now o l pdir).map tag)

variable {now o} {l : Listing} {pdir : Str}

def Entry.path (pdir : Str) (e : Entry) : Str := pathOf pdir e.name

def Entry.followed (now : Moment) (o : Options) (e : Entry) : Bool := Poll.followed now o e.name e.line e.opened

theorem dueBelow_entries : dueBelow now o l pdir =
    (entries l).flatMap fun e => if e.followed now o then dueOf now o e.below (e.path pdir) else [] := by
  induction l with
  | nil => rfl
  | entry name line opened below rest _ ih => exact congrArg (_ ++ ·) ih

theorem pathsBelow_entries : pathsBelow l pdir = (entries l).flatMap fun e => paths e.below (e.path pdir) := by
  induction l with
  | nil => rfl
  | entry name line opened below rest _ ih => exact congrArg (_ ++ ·) ih

theorem soundBelow_entries : SoundBelow now o l pdir ↔
    ∀ e ∈ entries l, e.followed now o = true → Sound now o e.below (e.path pdir) := by
  induction l with
  | nil => exact iff_of_true trivial nofun
  | entry name line opened below rest _ ih =>
    rw [entries, List.forall_mem_cons, ← ih]
    rfl

theorem polled_entries : polled now o l pdir =
    (entries l).map fun e => (e.name, if e.opened then poll_directory now o (e.path pdir) e.below else .ok []) := by
  induction l with
  | nil => rfl
  | entry name line opened below rest _ ih => exact congrArg (_ :: ·) ih

/-! ## One listing -/

/-- The entries that are posted, in the order they are. -/
def level (now : Moment) (o : Options) (lines : List (Str × Line)) : List (Str × Attributes) :=
  (if o.recursive then (kept now o lines).filter fun f => S_ISDIR f.2 else []) ++
    (kept now o lines).filter fun f => !S_ISDIR f.2

def dots (now : Moment) (o : Options) (lines : List (Str × Line)) : List (Str × Attributes) :=
  if o.recursive then (kept now o lines).filter fun f => S_ISDIR f.2 && isDot f.1 else []

theorem level_perm (lines : List (Str × Line)) : (level now o lines).Perm (due now o lines ++ dots now o lines) := by
  unfold level due dots
  cases o.recursive with
  | false => simp
  | true =>
    have all := List.filter_append_perm (fun f : Str × Attributes => S_ISDIR f.2) (kept now o lines)
    have parts := List.filter_append_perm (fun f : Str × Attributes => !S_ISDIR f.2 || !isDot f.1) (kept now o lines)
    have same : (fun f : Str × Attributes => !(!S_ISDIR f.2 || !isDot f.1)) = fun f => S_ISDIR f.2 && isDot f.1 := by
      funext f
      simp
    rw [same] at parts
    simpa using all.trans parts.symm

theorem lsdir_parsed {lines : List (Str × Line)} (parsed : Parsed now o lines) : lsdir now o lines = .ok (kept now o lines) := by
  have each : ∀ f ∈ lines, (on_line now o f.2).map (fun line => line.map fun a => (f.1, a)) =
      .ok ((valueOr none (on_line now o f.2)).map fun a => (f.1, a)) := by
    intro f member
    obtain ⟨r, fine⟩ := parsed f member
    rw [fine]
    rfl
  unfold lsdir
  rw [(mapM_ok_iff (none : Option (Str × Attributes))).mpr ⟨fun f member => ⟨_, each f member⟩, rfl⟩]
  change Except.ok ((lines.map _).filterMap id) = _
  rw [List.filterMap_map]
  refine congrArg Except.ok (List.filterMap_congr fun f member => ?_)
  change valueOr none _ = _
  rw [each f member]
  rfl

theorem lsdir_failed {lines : List (Str × Line)} (failed : ¬ Parsed now o lines) : ∃ e, lsdir now o lines = .error e := by
  unfold Parsed at failed
  push Not at failed
  obtain ⟨f, member, raises⟩ := failed
  have error : ∃ e, (on_line now o f.2).map (fun line => line.map fun a => (f.1, a)) = .error e := by
    cases outcome : on_line now o f.2 with
    | error e => exact ⟨e, rfl⟩
    | ok r => exact absurd outcome (raises r)
  obtain ⟨e, all⟩ := mapM_error
    (f := fun f : Str × Line => (on_line now o f.2).map fun line => line.map fun a => (f.1, a)) ⟨f, member, error⟩
  exact ⟨e, by rw [lsdir, all]; rfl⟩

/-- What one entry brings to the list. -/
def itemsOf (now : Moment) (o : Options) (pdir : Str) (f : Str × Attributes) : List Item :=
  (valueOr .nothing (poll_file_post now o f.2 pdir f.1)).items

theorem posts_iff {L : List (Str × Attributes)} {items : List Item} : poll_list_post now o pdir L = .ok items ↔
    (∀ f ∈ L, ∃ r, poll_file_post now o f.2 pdir f.1 = .ok r) ∧ items = L.flatMap (itemsOf now o pdir) := by
  unfold poll_list_post
  rw [bind_ok_iff]
  constructor
  · intro ⟨returned, all, same⟩
    obtain ⟨fine, listed⟩ := (mapM_ok_iff Returned.nothing).mp all
    cases same
    rw [listed, List.flatMap_map]
    exact ⟨fine, rfl⟩
  · intro ⟨fine, same⟩
    refine ⟨_, (mapM_ok_iff Returned.nothing).mpr ⟨fine, rfl⟩, ?_⟩
    rw [same, List.flatMap_map]
    rfl

variable {below : List (Str × Except Fault (List Item))} {lines : List (Str × Line)} {items : List Item}

/-- What polling below a directory comes to. -/
def belowOf (below : List (Str × Except Fault (List Item))) (d : Str) : Except Fault (List Item) := (below.lookup d).getD (.ok [])

def childrenOf (now : Moment) (o : Options) (lines : List (Str × Line)) : List Str :=
  if o.recursive then children ((kept now o lines).filter fun f => S_ISDIR f.2) else []

theorem directory_failed (failed : ¬ Parsed now o lines) : directory now o pdir lines below = .ok [] := by
  obtain ⟨e, raised⟩ := lsdir_failed failed
  rw [directory, raised]

theorem directory_parsed (parsed : Parsed now o lines) : directory now o pdir lines below = .ok items ↔
    (∀ f ∈ level now o lines, ∃ r, poll_file_post now o f.2 pdir f.1 = .ok r) ∧
      (∀ d ∈ childrenOf now o lines, ∃ r, belowOf below d = .ok r) ∧
        items = (level now o lines).flatMap (itemsOf now o pdir) ++
          (childrenOf now o lines).flatMap fun d => valueOr [] (belowOf below d) := by
  have optional {α : Type} {A : List α} {f : α → Except Fault (List Item)} :
      ifRecursive o (A.mapM f) = (if o.recursive = true then A else []).mapM f := by
    unfold ifRecursive
    split
    · rfl
    · rfl
  have dirs {A : List (Str × Attributes)} : ifRecursive o (poll_list_post now o pdir A) =
      poll_list_post now o pdir (if o.recursive = true then A else []) := by
    unfold ifRecursive
    split
    · rfl
    · rfl
  rw [directory, lsdir_parsed parsed]
  dsimp only
  rw [dirs, optional, bind_ok_iff]
  rw [level, List.forall_mem_append, List.flatMap_append]
  constructor
  · intro ⟨posted, first, done⟩
    obtain ⟨new, second, done⟩ := bind_ok_iff.mp done
    obtain ⟨deeper, third, done⟩ := bind_ok_iff.mp done
    obtain ⟨fine₁, listed₁⟩ := posts_iff.mp first
    obtain ⟨fine₂, listed₂⟩ := posts_iff.mp second
    obtain ⟨fine₃, listed₃⟩ := (mapM_ok_iff []).mp third
    cases done
    refine ⟨⟨fine₁, fine₂⟩, fine₃, ?_⟩
    rw [listed₁, listed₂, listed₃]
    rfl
  · intro ⟨⟨fine₁, fine₂⟩, fine₃, same⟩
    refine ⟨_, posts_iff.mpr ⟨fine₁, rfl⟩, ?_⟩
    refine bind_ok_iff.mpr ⟨_, posts_iff.mpr ⟨fine₂, rfl⟩, ?_⟩
    refine bind_ok_iff.mpr ⟨_, (mapM_ok_iff []).mpr ⟨fine₃, rfl⟩, ?_⟩
    rw [same]
    rfl

/-! ## Directories below -/

/-- Whether an entry is a directory to poll, as far as its listing tells. -/
def Entry.sub (now : Moment) (o : Options) (e : Entry) : Bool :=
  o.recursive && !isDot e.name && (valueOr none (on_line now o e.line)).any S_ISDIR

theorem followed_sub (e : Entry) : e.followed now o = (e.sub now o && e.opened) := by
  exact Bool.and_right_comm _ _ _

theorem names_kept (lines : List (Str × Line)) : ((kept now o lines).map Prod.fst).Sublist (lines.map Prod.fst) := by
  induction lines with
  | nil => exact List.Sublist.refl _
  | cons f lines ih =>
    unfold kept at ih ⊢
    rw [List.filterMap_cons, List.map_cons]
    cases valueOr none (on_line now o f.2) with
    | none => exact ih.cons _
    | some a => exact ih.cons_cons _

theorem childrenOf_perm : (childrenOf now o l.lines).Perm (((entries l).filter (Entry.sub now o)).map Entry.name) := by
  unfold childrenOf
  cases recursive : o.recursive with
  | false =>
    have none_ : (entries l).filter (Entry.sub now o) = [] :=
      List.filter_eq_nil_iff.mpr fun e _ => by simp [Entry.sub, recursive]
    rw [none_]
    exact List.Perm.refl _
  | true =>
    have nondot : (fun d : Str => decide (d ≠ ['.'] ∧ d ≠ ['.', '.'])) = fun d => !isDot d := by
      funext d
      simp [isDot]
    rw [if_pos rfl]
    refine ((List.perm_insertionSort _ _).filter _).trans (List.Perm.of_eq ?_)
    rw [lines_entries, nondot]
    induction entries l with
    | nil => rfl
    | cons e es ih =>
      unfold kept at ih ⊢
      rw [List.map_cons, List.filterMap_cons, List.filter_cons (p := Entry.sub now o)]
      cases line : valueOr none (on_line now o e.line) with
      | none =>
        have out : ¬ e.sub now o = true := by simp [Entry.sub, line]
        rw [if_neg out]
        exact ih
      | some a =>
        dsimp only [Option.map_some]
        rw [List.filter_cons]
        by_cases dir : S_ISDIR a = true
        · rw [if_pos dir, List.map_cons, List.filter_cons, ih]
          by_cases dot : isDot e.name = true
          · have out : ¬ e.sub now o = true := by simp [Entry.sub, dot]
            rw [if_neg out, if_neg (by simp [dot])]
          · have in_ : e.sub now o = true := by simp [Entry.sub, line, dir, dot, recursive]
            rw [if_pos in_, if_pos (by simp [dot])]
            rfl
        · have out : ¬ e.sub now o = true := by simp [Entry.sub, line, dir]
          rw [if_neg dir, if_neg out]
          exact ih

theorem belowOf_polled (unique : Unique l) {e : Entry} (member : e ∈ entries l) :
    belowOf (polled now o l pdir) e.name = if e.opened then poll_directory now o (e.path pdir) e.below else .ok [] := by
  rw [belowOf, polled_entries, lookup_map (unique_entries unique).1 member]
  rfl

/-! ## Tags -/

variable {τ : Type} {tag : Str → τ} {tagOf : Message → τ}

def tagsOf (tagOf : Message → τ) : Item → List τ
  | .message m => [tagOf m]
  | .key _ => []

def IsMessage : Item → Prop
  | .message _ => True
  | .key _ => False

/-- A list of messages, and what they tell. -/
theorem messages_iff {items : List Item} {tags : List τ} :
    (∃ msgs : List Message, items = msgs.map .message ∧ (msgs.map tagOf).Perm tags) ↔
      (∀ i ∈ items, IsMessage i) ∧ (items.flatMap (tagsOf tagOf)).Perm tags := by
  constructor
  · intro ⟨msgs, same, perm⟩
    rw [same, List.forall_mem_map, List.flatMap_map]
    exact ⟨fun _ _ => trivial, by rwa [List.map_eq_flatMap] at perm⟩
  · intro ⟨all, perm⟩
    obtain ⟨msgs, same⟩ : ∃ msgs : List Message, items = msgs.map .message := by
      clear perm
      induction items with
      | nil => exact ⟨[], rfl⟩
      | cons i items ih =>
        obtain ⟨first, others⟩ := List.forall_mem_cons.mp all
        obtain ⟨msgs, rest⟩ := ih others
        cases i with
        | key k => cases first
        | message m => exact ⟨m :: msgs, congrArg (_ :: ·) rest⟩
    refine ⟨msgs, same, ?_⟩
    rw [same, List.flatMap_map] at perm
    rwa [List.map_eq_flatMap]

theorem complete_iff : Complete now o tag tagOf l pdir ↔ ∃ items, poll_directory now o pdir l = .ok items ∧
    (∀ i ∈ items, IsMessage i) ∧ (items.flatMap (tagsOf tagOf)).Perm ((dueOf now o l pdir).map tag) := by
  constructor
  · intro ⟨msgs, polled, perm⟩
    exact ⟨_, polled, messages_iff.mp ⟨msgs, rfl, perm⟩⟩
  · intro ⟨items, polled, fine⟩
    obtain ⟨msgs, same, perm⟩ := messages_iff.mpr fine
    exact ⟨msgs, same ▸ polled, perm⟩

section Told
variable (told : Told now tag tagOf) (events : Events o)
include told

/-- Whatever an entry brings tells its path. -/
theorem itemsOf_tags (f : Str × Attributes) : ∀ t ∈ (itemsOf now o pdir f).flatMap (tagsOf tagOf), t = tag (pathOf pdir f.1) := by
  intro t member
  unfold itemsOf at member
  cases posted : poll_file_post now o f.2 pdir f.1 with
  | error e =>
    rw [posted] at member
    cases member
  | ok r =>
    rw [posted] at member
    unfold poll_file_post at posted
    split at posted
    · obtain ⟨m, -, done⟩ := bind_ok_iff.mp posted
      split at done
      · cases done
      · cases done
        obtain ⟨i, inside, here⟩ := List.mem_flatMap.mp member
        obtain ⟨_, _, same⟩ := List.mem_map.mp inside
        rw [← same] at here
        cases here
    · rcases remotePost_ok told posted with none_ | ⟨m, list, tells⟩
      · rw [none_] at member
        cases member
      · rw [list] at member
        rw [List.mem_singleton.mp member, tells]

include events

theorem itemsOf_postable {f : Str × Attributes} (postable : Postable now o (pathOf pdir f.1) f.2) :
    (∃ r, poll_file_post now o f.2 pdir f.1 = .ok r) ∧ (∀ i ∈ itemsOf now o pdir f, IsMessage i) ∧
      (itemsOf now o pdir f).flatMap (tagsOf tagOf) = [tag (pathOf pdir f.1)] := by
  obtain ⟨m, posted, tells⟩ := post_postable told events postable
  have items : itemsOf now o pdir f = [.message m] := by
    rw [itemsOf, posted]
    rfl
  rw [items]
  refine ⟨⟨_, posted⟩, ?_, ?_⟩
  · intro i member
    rw [List.mem_singleton.mp member]
    trivial
  · rw [← tells]
    rfl

theorem itemsOf_other {f : Str × Attributes} (other : ¬ Postable now o (pathOf pdir f.1) f.2)
    (done : ∃ r, poll_file_post now o f.2 pdir f.1 = .ok r) (messages : ∀ i ∈ itemsOf now o pdir f, IsMessage i) :
    S_ISLNK f.2 = true ∧ itemsOf now o pdir f = [] := by
  obtain ⟨r, posted⟩ := done
  rcases post_other told events other posted with ⟨none_, lnk⟩ | ⟨m, local_, some_⟩
  · exact ⟨lnk, by rw [itemsOf, posted, none_]; rfl⟩
  · obtain ⟨field, more, keys⟩ := List.exists_cons_of_ne_nil some_
    have first : Item.key field.1 ∈ itemsOf now o pdir f := by
      rw [itemsOf, posted, local_, keys]
      exact List.mem_cons_self
    exact (messages _ first).elim

end Told
end Trees
end Sarracenia.Guarantees.Poll
