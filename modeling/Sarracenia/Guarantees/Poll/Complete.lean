import Sarracenia.Guarantees.Poll.Tree

/-!
# All that is due

Polling a tree brings one message for each path that is due, if and only if every listing it meets
is sound.
-/
namespace Sarracenia.Guarantees.Poll
open Library Library.Text Library.Dynamic
open Source Source.Poll

section Complete
variable {now : Moment} {o : Options} {l : Listing} {pdir : Str} {items : List Item}
  {τ : Type} {tag : Str → τ} {tagOf : Message → τ}

/-! ## Below the entries -/

/-- What polling brings from below an entry. -/
def Entry.deeper (now : Moment) (o : Options) (pdir : Str) (e : Entry) : List Item :=
  if e.followed now o then valueOr [] (poll_directory now o (e.path pdir) e.below) else []

theorem flatMap_filter {α β : Type} (p : α → Bool) (f : α → List β) (xs : List α) :
    (xs.filter p).flatMap f = xs.flatMap fun x => if p x then f x else [] := by
  induction xs with
  | nil => rfl
  | cons x xs ih =>
    rw [List.filter_cons, List.flatMap_cons]
    split
    · rw [List.flatMap_cons, ih]
    · rw [ih, List.nil_append]

theorem children_deeper (unique : Unique l) :
    ((childrenOf now o l.lines).flatMap fun d => valueOr [] (belowOf (polled now o l pdir) d)).Perm
      ((entries l).flatMap (Entry.deeper now o pdir)) := by
  refine (childrenOf_perm.flatMap_right _).trans (List.Perm.of_eq ?_)
  rw [List.flatMap_map, flatMap_filter]
  refine List.flatMap_congr fun e member => ?_
  rw [belowOf_polled unique member, Entry.deeper, followed_sub]
  cases e.sub now o with
  | false => rfl
  | true =>
    cases e.opened with
    | false => rfl
    | true => rfl

/-- What polling comes to, where every line can be parsed. -/
theorem poll_parsed (unique : Unique l) (parsed : Parsed now o l.lines) : poll_directory now o pdir l = .ok items ↔
    (∀ f ∈ level now o l.lines, ∃ r, poll_file_post now o f.2 pdir f.1 = .ok r) ∧
      (∀ e ∈ entries l, e.followed now o = true → ∃ r, poll_directory now o (e.path pdir) e.below = .ok r) ∧
        items = (level now o l.lines).flatMap (itemsOf now o pdir) ++
          (childrenOf now o l.lines).flatMap fun d => valueOr [] (belowOf (polled now o l pdir) d) := by
  rw [poll_directory, directory_parsed parsed]
  refine and_congr_right' (and_congr_left' ?_)
  constructor
  · intro all e member follows
    rw [followed_sub, Bool.and_eq_true] at follows
    have child : e.name ∈ childrenOf now o l.lines :=
      childrenOf_perm.mem_iff.mpr (List.mem_map_of_mem (List.mem_filter.mpr ⟨member, follows.1⟩))
    have done := all e.name child
    rwa [belowOf_polled unique member, if_pos follows.2] at done
  · intro all d child
    obtain ⟨e, inside, same⟩ := List.mem_map.mp (childrenOf_perm.mem_iff.mp child)
    obtain ⟨member, sub⟩ := List.mem_filter.mp inside
    rw [← same, belowOf_polled unique member]
    split
    · next opened => exact all e member (by rw [followed_sub, sub, opened]; rfl)
    · exact ⟨[], rfl⟩

theorem poll_failed (failed : ¬ Parsed now o l.lines) : poll_directory now o pdir l = .ok [] := directory_failed failed

/-- Nothing is followed where nothing is due. -/
theorem nothing_followed (none_ : due now o l.lines = []) : ∀ e ∈ entries l, e.followed now o = false := by
  intro e member
  by_contra follows
  rw [followed_sub] at follows
  have sub : e.sub now o = true := by
    cases there : e.sub now o with
    | true => rfl
    | false =>
      rw [there] at follows
      exact absurd rfl follows
  unfold Entry.sub at sub
  cases line : valueOr none (on_line now o e.line) with
  | none =>
    rw [line] at sub
    simp at sub
  | some a =>
    rw [line] at sub
    have kept_ : (e.name, a) ∈ kept now o l.lines := by
      rw [lines_entries]
      exact List.mem_filterMap.mpr ⟨(e.name, e.line), List.mem_map_of_mem member, by rw [line]; rfl⟩
    have here : (e.name, a) ∈ due now o l.lines := List.mem_filter.mpr ⟨kept_, by simp at sub; simp [sub]⟩
    rw [none_] at here
    cases here

theorem dueOf_nothing (none_ : due now o l.lines = []) : dueOf now o l pdir = [] := by
  have below : dueBelow now o l pdir = [] := by
    rw [dueBelow_entries]
    exact List.flatMap_eq_nil_iff.mpr fun e member => by rw [nothing_followed none_ e member]; rfl
  rw [dueOf, none_, below]
  rfl

/-! ## What is sound is complete -/

variable (told : Told now tag tagOf) (events : Events o)
include told events

/-- Items and tags of a listing that can be posted as a whole. -/
theorem level_posted {L : List (Str × Attributes)} (postable : ∀ f ∈ L, Postable now o (pathOf pdir f.1) f.2) :
    (∀ i ∈ L.flatMap (itemsOf now o pdir), IsMessage i) ∧
      (L.flatMap (itemsOf now o pdir)).flatMap (tagsOf tagOf) = L.map fun f => tag (pathOf pdir f.1) := by
  constructor
  · intro i member
    obtain ⟨f, inside, here⟩ := List.mem_flatMap.mp member
    exact (itemsOf_postable told events (postable f inside)).2.1 i here
  · rw [List.flatMap_assoc, List.map_eq_flatMap]
    exact List.flatMap_congr fun f inside => (itemsOf_postable told events (postable f inside)).2.2

theorem complete_of_sound (l : Listing) : ∀ pdir, Unique l → Sound now o l pdir → Complete now o tag tagOf l pdir := by
  induction l using listing_induct with
  | step l ih =>
    intro pdir unique ⟨lines, below⟩
    rw [complete_iff]
    rcases lines with ⟨parsed, nodot, postable⟩ | ⟨failed, none_⟩
    · have nodots : dots now o l.lines = [] := by
        unfold dots
        split
        · next recursive =>
          exact List.filter_eq_nil_iff.mpr fun f member both => by
            have dir := (Bool.and_eq_true _ _).mp both
            rw [nodot recursive f member dir.1] at dir
            cases dir.2
        · rfl
      have level_due : (level now o l.lines).Perm (due now o l.lines) := by
        have perm : (level now o l.lines).Perm (due now o l.lines ++ dots now o l.lines) := level_perm l.lines
        rwa [nodots, List.append_nil] at perm
      have posted : ∀ f ∈ level now o l.lines, Postable now o (pathOf pdir f.1) f.2 := fun f member =>
        postable f (level_due.mem_iff.mp member)
      have each : ∀ e ∈ entries l, e.followed now o = true → Complete now o tag tagOf e.below (e.path pdir) :=
        fun e member follows => ih e member _ ((unique_entries unique).2 e member) (soundBelow_entries.mp below e member follows)
      obtain ⟨messages, tags⟩ := level_posted told events posted
      have deeper : ∀ e ∈ entries l, (∀ i ∈ e.deeper now o pdir, IsMessage i) ∧
          ((e.deeper now o pdir).flatMap (tagsOf tagOf)).Perm
            ((if e.followed now o then dueOf now o e.below (e.path pdir) else []).map tag) := by
        intro e member
        unfold Entry.deeper
        split
        · next follows =>
          obtain ⟨items, done, all, perm⟩ := complete_iff.mp (each e member follows)
          rw [done]
          exact ⟨all, perm⟩
        · exact ⟨nofun, List.Perm.refl _⟩
      have children : ((childrenOf now o l.lines).flatMap fun d => valueOr [] (belowOf (polled now o l pdir) d)).Perm
          ((entries l).flatMap (Entry.deeper now o pdir)) := children_deeper unique
      refine ⟨_, (poll_parsed unique parsed).mpr ⟨?_, ?_, rfl⟩, ?_, ?_⟩
      · exact fun f member => (itemsOf_postable told events (posted f member)).1
      · intro e member follows
        obtain ⟨items, done, _⟩ := complete_iff.mp (each e member follows)
        exact ⟨items, done⟩
      · intro i member
        rcases List.mem_append.mp member with here | child
        · exact messages i here
        · obtain ⟨e, inside, there⟩ := List.mem_flatMap.mp (children.mem_iff.mp child)
          exact (deeper e inside).1 i there
      · rw [List.flatMap_append, tags, dueOf, List.map_append, List.map_map]
        apply List.Perm.append (level_due.map _)
        refine (children.flatMap_right _).trans ?_
        rw [dueBelow_entries, List.flatMap_assoc, List.map_flatMap]
        exact List.Perm.flatMap_left _ fun e member => (deeper e member).2
    · exact ⟨[], poll_failed failed, nofun, by rw [dueOf_nothing none_]; exact List.Perm.refl _⟩

/-! ## What is complete is sound -/

omit told events in
theorem level_kept {f : Str × Attributes} (member : f ∈ level now o l.lines) : f ∈ kept now o l.lines := by
  rcases List.mem_append.mp member with dir | file
  · split at dir
    · exact List.mem_of_mem_filter dir
    · cases dir
  · exact List.mem_of_mem_filter file

omit told events in
theorem kept_path {f : Str × Attributes} (member : f ∈ kept now o l.lines) : pathOf pdir f.1 ∈ l.lines.map fun f => pathOf pdir f.1 := by
  have name := (names_kept l.lines).subset (List.mem_map_of_mem member)
  obtain ⟨g, inside, same⟩ := List.mem_map.mp name
  exact List.mem_map.mpr ⟨g, inside, by rw [same]⟩

omit told events in
theorem due_kept {f : Str × Attributes} (member : f ∈ due now o l.lines) : f ∈ kept now o l.lines := List.mem_of_mem_filter member

omit told events in
theorem dueOf_paths (l : Listing) : ∀ pdir, ∀ p ∈ dueOf now o l pdir, p ∈ paths l pdir := by
  induction l using listing_induct with
  | step l ih =>
    intro pdir p member
    rcases List.mem_append.mp member with here | child
    · obtain ⟨f, inside, same⟩ := List.mem_map.mp here
      exact List.mem_append_left _ (same ▸ kept_path (due_kept inside))
    · rw [dueBelow_entries] at child
      obtain ⟨e, inside, there⟩ := List.mem_flatMap.mp child
      rw [paths, pathsBelow_entries]
      refine List.mem_append_right _ (List.mem_flatMap.mpr ⟨e, inside, ?_⟩)
      split at there
      · exact ih e inside _ p there
      · cases there

omit events in
theorem level_tags {t : τ} (member : t ∈ ((level now o l.lines).flatMap (itemsOf now o pdir)).flatMap (tagsOf tagOf)) :
    ∃ f ∈ level now o l.lines, t ∈ (itemsOf now o pdir f).flatMap (tagsOf tagOf) ∧ t = tag (pathOf pdir f.1) := by
  rw [List.flatMap_assoc] at member
  obtain ⟨f, inside, here⟩ := List.mem_flatMap.mp member
  exact ⟨f, inside, here, itemsOf_tags told f t here⟩

omit events in
/-- Nothing is told but paths of the tree. -/
theorem poll_tags (l : Listing) : ∀ pdir items, Unique l → poll_directory now o pdir l = .ok items →
    ∀ t ∈ items.flatMap (tagsOf tagOf), t ∈ (paths l pdir).map tag := by
  induction l using listing_induct with
  | step l ih =>
    intro pdir items unique done t member
    by_cases parsed : Parsed now o l.lines
    · obtain ⟨_, fine, same⟩ := (poll_parsed unique parsed).mp done
      rw [same, List.flatMap_append] at member
      rw [paths, List.map_append]
      rcases List.mem_append.mp member with here | child
      · obtain ⟨f, inside, _, tells⟩ := level_tags told here
        exact List.mem_append_left _ (tells ▸ List.mem_map_of_mem (kept_path (level_kept inside)))
      · refine List.mem_append_right _ ?_
        obtain ⟨i, inside, there⟩ := List.mem_flatMap.mp child
        obtain ⟨e, entry, deep⟩ := List.mem_flatMap.mp ((children_deeper unique).mem_iff.mp inside)
        rw [pathsBelow_entries, List.map_flatMap]
        refine List.mem_flatMap.mpr ⟨e, entry, ?_⟩
        unfold Entry.deeper at deep
        split at deep
        · next follows =>
          obtain ⟨r, below⟩ := fine e entry follows
          rw [below] at deep
          exact ih e entry _ r ((unique_entries unique).2 e entry) below t (List.mem_flatMap.mpr ⟨i, deep, there⟩)
        · cases deep
    · rw [poll_failed parsed] at done
      cases done
      cases member

/-- A listing that brings what is due of it. -/
theorem level_sound (distinct : ((l.lines.map fun f => pathOf pdir f.1).map tag).Nodup)
    (done : ∀ f ∈ level now o l.lines, ∃ r, poll_file_post now o f.2 pdir f.1 = .ok r)
    (messages : ∀ i ∈ (level now o l.lines).flatMap (itemsOf now o pdir), IsMessage i)
    (perm : (((level now o l.lines).flatMap (itemsOf now o pdir)).flatMap (tagsOf tagOf)).Perm
      ((due now o l.lines).map fun f => tag (pathOf pdir f.1))) :
    (o.recursive = true → ∀ f ∈ kept now o l.lines, S_ISDIR f.2 = true → isDot f.1 = false) ∧
      ∀ f ∈ due now o l.lines, Postable now o (pathOf pdir f.1) f.2 := by
  have tags : ((kept now o l.lines).map fun f => tag (pathOf pdir f.1)).Nodup := by
    have names : ((kept now o l.lines).map Prod.fst).Sublist (l.lines.map Prod.fst) := names_kept l.lines
    have sub := names.map fun name => tag (pathOf pdir name)
    rw [List.map_map, List.map_map] at sub
    rw [List.map_map] at distinct
    exact distinct.sublist sub
  have own {f g : Str × Attributes} (first : f ∈ kept now o l.lines) (second : g ∈ kept now o l.lines)
      (same : tag (pathOf pdir f.1) = tag (pathOf pdir g.1)) : f = g := List.inj_on_of_nodup_map tags first second same
  have each {f : Str × Attributes} (member : f ∈ level now o l.lines) : ∀ i ∈ itemsOf now o pdir f, IsMessage i :=
    fun i here => messages i (List.mem_flatMap.mpr ⟨f, member, here⟩)
  constructor
  · intro recursive f member dir
    by_contra dot
    have here : f ∈ dots now o l.lines := by
      rw [dots, if_pos recursive]
      exact List.mem_filter.mpr ⟨member, by rw [dir, Bool.eq_true_of_not_eq_false dot]; rfl⟩
    have inside : f ∈ level now o l.lines := (level_perm l.lines).mem_iff.mpr (List.mem_append_right _ here)
    have postable : Postable now o (pathOf pdir f.1) f.2 := by
      by_contra other
      have lnk := (itemsOf_other told events other (done f inside) (each inside)).1
      rw [dir_not_link dir] at lnk
      cases lnk
    have posted : tag (pathOf pdir f.1) ∈ ((level now o l.lines).flatMap (itemsOf now o pdir)).flatMap (tagsOf tagOf) := by
      rw [List.flatMap_assoc]
      refine List.mem_flatMap.mpr ⟨f, inside, ?_⟩
      rw [(itemsOf_postable told events postable).2.2]
      exact List.mem_cons_self
    obtain ⟨g, due_, same⟩ := List.mem_map.mp (perm.mem_iff.mp posted)
    have equal := own (due_kept due_) member same
    rw [equal] at due_
    have allowed := (List.mem_filter.mp due_).2
    rw [dir, Bool.eq_true_of_not_eq_false dot] at allowed
    simp at allowed
  · intro f member
    by_contra other
    have inside : f ∈ level now o l.lines := (level_perm l.lines).mem_iff.mpr (List.mem_append_left _ member)
    have told_ : tag (pathOf pdir f.1) ∈ ((level now o l.lines).flatMap (itemsOf now o pdir)).flatMap (tagsOf tagOf) :=
      perm.mem_iff.mpr (List.mem_map_of_mem member)
    obtain ⟨g, there, here, same⟩ := level_tags told told_
    have equal := own (due_kept member) (level_kept there) same
    rw [← equal, (itemsOf_other told events other (done f inside) (each inside)).2] at here
    cases here

theorem sound_of_complete (l : Listing) : ∀ pdir, Unique l → ((paths l pdir).map tag).Nodup →
    Complete now o tag tagOf l pdir → Sound now o l pdir := by
  induction l using listing_induct with
  | step l ih =>
    intro pdir unique distinct complete
    obtain ⟨items, polled_, messages, perm⟩ := complete_iff.mp complete
    by_cases parsed : Parsed now o l.lines
    · obtain ⟨posts, fine, same⟩ := (poll_parsed unique parsed).mp polled_
      rw [same, List.flatMap_append, dueOf, List.map_append, List.map_map] at perm
      rw [paths, List.map_append] at distinct
      obtain ⟨lines_, below_, apart⟩ := List.nodup_append'.mp distinct
      have children : ((childrenOf now o l.lines).flatMap fun d => valueOr [] (belowOf (polled now o l pdir) d)).Perm
          ((entries l).flatMap (Entry.deeper now o pdir)) := children_deeper unique
      have deeperTags : ∀ e ∈ entries l, ∀ t ∈ (e.deeper now o pdir).flatMap (tagsOf tagOf), t ∈ (paths e.below (e.path pdir)).map tag := by
        intro e member t here
        unfold Entry.deeper at here
        split at here
        · next follows =>
          obtain ⟨r, done⟩ := fine e member follows
          rw [done] at here
          exact poll_tags told e.below _ r ((unique_entries unique).2 e member) done t here
        · cases here
      have dueTags : ∀ e ∈ entries l, ∀ t ∈ (if e.followed now o then dueOf now o e.below (e.path pdir) else []).map tag,
          t ∈ (paths e.below (e.path pdir)).map tag := by
        intro e member t here
        split at here
        · obtain ⟨p, inside, rfl⟩ := List.mem_map.mp here
          exact List.mem_map_of_mem (dueOf_paths e.below _ p inside)
        · cases here
      have childTags : (((childrenOf now o l.lines).flatMap fun d => valueOr [] (belowOf (polled now o l pdir) d)).flatMap (tagsOf tagOf)).Perm
          ((entries l).flatMap fun e => (e.deeper now o pdir).flatMap (tagsOf tagOf)) := by
        rw [← List.flatMap_assoc]
        exact children.flatMap_right _
      rw [pathsBelow_entries, List.map_flatMap] at below_ apart
      rw [dueBelow_entries, List.map_flatMap] at perm
      have outside {C : Entry → List τ} (within : ∀ e ∈ entries l, ∀ t ∈ C e, t ∈ (paths e.below (e.path pdir)).map tag) :
          ∀ t ∈ (entries l).flatMap C, t ∉ (l.lines.map fun f => pathOf pdir f.1).map tag := by
        intro t member here
        obtain ⟨e, inside, there⟩ := List.mem_flatMap.mp member
        exact apart here (List.mem_flatMap.mpr ⟨e, inside, within e inside t there⟩)
      obtain ⟨levels, belows⟩ := perm_apart (S := (· ∈ (l.lines.map fun f => pathOf pdir f.1).map tag))
        (fun t member => by
          obtain ⟨f, inside, _, tells⟩ := level_tags told member
          exact tells ▸ List.mem_map_of_mem (kept_path (level_kept inside)))
        (fun t member => by
          obtain ⟨f, inside, tells⟩ := List.mem_map.mp member
          exact tells ▸ List.mem_map_of_mem (kept_path (due_kept inside)))
        (fun t member => outside deeperTags t (childTags.mem_iff.mp member))
        (outside dueTags) perm
      have each := perm_flatMap_apart (S := fun e : Entry => (paths e.below (e.path pdir)).map tag) deeperTags dueTags below_
        (childTags.symm.trans belows)
      rw [same] at messages
      refine ⟨Or.inl ⟨parsed, level_sound told events lines_ posts (fun i here => messages i (List.mem_append_left _ here)) levels⟩, ?_⟩
      refine soundBelow_entries.mpr fun e member follows => ?_
      obtain ⟨r, done⟩ := fine e member follows
      have brought : e.deeper now o pdir = r := by rw [Entry.deeper, if_pos follows, done]; rfl
      refine ih e member _ ((unique_entries unique).2 e member) ((List.nodup_flatMap.mp below_).1 e member)
        (complete_iff.mpr ⟨r, done, ?_, ?_⟩)
      · intro i here
        apply messages i (List.mem_append_right _ (children.mem_iff.mpr (List.mem_flatMap.mpr ⟨e, member, ?_⟩)))
        rwa [brought]
      · have own := each e member
        rwa [brought, if_pos follows] at own
    · rw [poll_failed parsed] at polled_
      cases polled_
      have nothing : dueOf now o l pdir = [] := List.map_eq_nil_iff.mp perm.symm.eq_nil
      have none_ : due now o l.lines = [] := List.map_eq_nil_iff.mp (List.append_eq_nil_iff.mp nothing).1
      refine ⟨Or.inr ⟨parsed, none_⟩, soundBelow_entries.mpr fun e member follows => ?_⟩
      rw [nothing_followed none_ e member] at follows
      cases follows

/-- What is sound brings one message for each path that is due; and nothing else does, where paths
can be told apart. -/
theorem poll_directory_due (unique : Unique l) :
    (Sound now o l pdir → Complete now o tag tagOf l pdir) ∧
      (((paths l pdir).map tag).Nodup → Complete now o tag tagOf l pdir → Sound now o l pdir) :=
  ⟨complete_of_sound told events l pdir unique, sound_of_complete told events l pdir unique⟩

end Complete

/-! ### A server of two files -/

def relPathOf (m : Message) : Str :=
  match m.get "relPath" with
  | some (.str s) => s
  | _ => []

/-- Its messages tell the path; no date can be parsed. -/
def simpleMoment : Moment where
  isalpha c := c.isAlpha
  isnumeric s := s.all Char.isDigit
  ftppoll := true
  windowsDate _ := none
  unixDate _ := .error .typeError
  fromFileInfo path _ := .ok [("relPath", .str path)]
  localInfo path := .ok [("relPath", .str path)]
  isfile _ := false
  islink _ := false
  readlink _ := none

def recursiveOptions : Options := ⟨0, true, ["create", "mkdir", "link"], false, [], "https://host/".toList⟩

theorem simple_told : Told simpleMoment id relPathOf where
  told path a m made := by
    cases made
    rfl
  set m key v other := by
    have apart : key ≠ "relPath" := fun same => absurd other (by rw [same]; decide)
    rw [relPathOf, relPathOf, Dict.get_set_ne _ apart.symm]
  del m key other := by
    have apart : key ≠ "relPath" := fun same => absurd other (by rw [same]; decide)
    rw [relPathOf, relPathOf, Dict.get_del_ne _ apart.symm]
  fileOp path a m op made there := by
    cases made
    cases there
  some_ path m made := by
    cases made
    exact List.cons_ne_nil _ _

theorem simple_events : Events recursiveOptions := by
  refine ⟨?_, ?_, ?_⟩
  all_goals decide

def aFile : Attributes := ⟨some 0o100644, some 12, none, none, true⟩
def aDirectory : Attributes := ⟨some 0o040755, none, none, none, true⟩

def smallTree : Listing :=
  .entry "a".toList (.attributes aFile) false .nil
    (.entry "sub".toList (.attributes aDirectory) true (.entry "b".toList (.attributes aFile) false .nil .nil) .nil)

theorem small_tree_sound : Sound simpleMoment recursiveOptions smallTree "/data".toList := by
  refine ⟨Or.inl ⟨?_, fun _ => by decide, ?_⟩, nofun, fun _ => ⟨Or.inl ⟨?_, fun _ => by decide, ?_⟩, nofun, trivial⟩, trivial⟩
  · exact List.forall_mem_cons.mpr ⟨⟨_, rfl⟩, List.forall_mem_singleton.mpr ⟨_, rfl⟩⟩
  · exact List.forall_mem_cons.mpr ⟨⟨rfl, ⟨_, rfl⟩, nofun, by decide⟩,
      List.forall_mem_singleton.mpr ⟨rfl, ⟨_, rfl⟩, nofun, by decide⟩⟩
  · exact List.forall_mem_singleton.mpr ⟨_, rfl⟩
  · exact List.forall_mem_singleton.mpr ⟨rfl, ⟨_, rfl⟩, nofun, by decide⟩

theorem small_tree_polled : Complete simpleMoment recursiveOptions id relPathOf smallTree "/data".toList := by
  have unique : Unique smallTree := ⟨by decide, trivial, by decide, ⟨by decide, trivial, trivial⟩, trivial⟩
  exact (poll_directory_due simple_told simple_events unique).1 small_tree_sound

/-- With a line that is no entry in front. -/
def oddListing : Listing :=
  .entry [] (.text "total 12".toList) false .nil (.entry "a".toList (.attributes aFile) false .nil .nil)

theorem odd_line_hides : ¬ ∀ (now : Moment) (o : Options) (tag : Str → Str) (tagOf : Message → Str) (l : Listing) (pdir : Str),
    Told now tag tagOf → Events o → Unique l → ((paths l pdir).map tag).Nodup → Complete now o tag tagOf l pdir := by
  intro all
  have unique : Unique oddListing := ⟨by decide, trivial, by decide, trivial, trivial⟩
  have distinct : ((paths oddListing "/data".toList).map id).Nodup := by decide
  have complete := all simpleMoment recursiveOptions id relPathOf oddListing "/data".toList simple_told simple_events unique distinct
  obtain ⟨lines, -⟩ := sound_of_complete simple_told simple_events oddListing _ unique distinct complete
  rcases lines with ⟨parsed, -⟩ | ⟨-, none_⟩
  · obtain ⟨r, fine⟩ := parsed ([], .text "total 12".toList) List.mem_cons_self
    cases fine
  · cases none_

end Sarracenia.Guarantees.Poll
