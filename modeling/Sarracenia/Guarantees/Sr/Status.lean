import Sarracenia.Source.SrActions

/-!
# Status soundness

A flow is to be active exactly when a process named in its pid files is alive. With such a process it
always is. Without one it is not, unless a marker of a start, of a stop or of a restart stays beside old pid
files, or the last metrics of a disabled flow, or of an idle post, tell of a lost connection.
-/
namespace Sarracenia.Guarantees.Sr
open Library Source.Sr

/-! ## The pid files of a state directory -/

section PidFiles
variable (d : StateDir)

/-- The instances whose pid file holds a number. -/
def recorded : List (Nat × Nat) := d.pids.entries.filterMap fun file => file.2.map (file.1, ·)

theorem instance_pids_entries : (instance_pids d).entries = recorded d := by
  have folded : instance_pids d = (recorded d).foldl (fun pids e => pids.set e.1 e.2) Table.empty := by
    unfold instance_pids recorded
    rw [List.foldl_filterMap]
    congr
    funext pids file
    cases file.2 <;> rfl
  have keys : (recorded d).map (·.1) = (d.pids.entries.filter (·.2.isSome)).map (·.1) := by
    unfold recorded
    induction d.pids.entries with
    | nil => rfl
    | cons file files ih => cases text : file.2 <;> simp [text, ih]
  have distinct : ((recorded d).map (·.1)).Nodup := by
    rw [keys]
    exact (List.filter_sublist.map _).nodup d.pids.distinct
  rw [folded, Table.foldl_set_new distinct fun _ _ => rfl]
  rfl

theorem mem_instance_pids {i pid : Nat} :
    (i, pid) ∈ (instance_pids d).entries ↔ d.pids.get i = some (some pid) := by
  rw [instance_pids_entries, recorded, List.mem_filterMap, Table.get_eq_some_iff]
  constructor
  · intro ⟨file, member, kept⟩
    obtain ⟨pid', text, same⟩ := Option.map_eq_some_iff.mp kept
    cases same
    rwa [← text]
  · intro member
    exact ⟨_, member, rfl⟩

theorem observed_pos {procs : Procs} : 0 < (observed procs (instance_pids d)).length ↔
    ∃ i pid, d.pids.get i = some (some pid) ∧ alive procs pid := by
  rw [List.length_pos_iff_exists_mem]
  constructor
  · intro ⟨e, member⟩
    obtain ⟨there, lives⟩ := List.mem_filter.mp member
    exact ⟨e.1, e.2, (mem_instance_pids d).mp there, lives⟩
  · intro ⟨i, pid, there, lives⟩
    exact ⟨(i, pid), List.mem_filter.mpr ⟨(mem_instance_pids d).mpr there, lives⟩⟩

theorem recorded_ne_zero : (instance_pids d).entries.length ≠ 0 ↔ ∃ i pid, d.pids.get i = some (some pid) := by
  rw [← Nat.pos_iff_ne_zero, List.length_pos_iff_exists_mem]
  constructor
  · intro ⟨e, member⟩
    exact ⟨e.1, e.2, (mem_instance_pids d).mp member⟩
  · intro ⟨i, pid, there⟩
    exact ⟨(i, pid), (mem_instance_pids d).mpr there⟩

end PidFiles

/-! ## The decision -/

section Decision
variable (f : Flow) (o : Options) (now : ℚ) (m : Metrics) (noVip : Bool)

/-- The metrics tell of a lost connection. -/
def Faulty : Prop := connection o m .unknown ≠ .unknown

/-- What the metrics say of the connections does not depend on the status before. -/
theorem connection_cases : (∀ s, connection o m s = s) ∨ ∃ t ∈ [Status.down, .disconnected], ∀ s, connection o m s = t := by
  unfold connection
  split_ifs with transfers lost few off slow
  · exact Or.inr ⟨.down, by decide, fun _ => rfl⟩
  · exact Or.inr ⟨.disconnected, by decide, fun _ => rfl⟩
  · exact Or.inl fun _ => rfl
  · exact Or.inr ⟨.disconnected, by decide, fun _ => rfl⟩
  · exact Or.inr ⟨.down, by decide, fun _ => rfl⟩
  · exact Or.inl fun _ => rfl

theorem connection_sound (fine : ¬ Faulty o m) (s : Status) : connection o m s = s := by
  rcases connection_cases o m with same | ⟨t, member, all⟩
  · exact same s
  · rw [Faulty, all, not_not] at fine
    subst fine
    exact absurd member (by decide)

theorem connection_faulty (faulty : Faulty o m) : ∃ t ∈ [Status.down, .disconnected], ∀ s, connection o m s = t :=
  (connection_cases o m).resolve_left fun same => faulty (same _)

theorem active_ite {p : Prop} [Decidable p] {a b : Status} (yes : p → a ∈ status_active)
    (no : ¬ p → b ∈ status_active) : (if p then a else b) ∈ status_active := by
  split
  · next holds => exact yes holds
  · next fails => exact no fails

theorem performance_active (s : Status) : performance o now m noVip s ∈ status_active := by
  have link (h : s ∈ [Status.down, .disconnected]) : s ∈ status_active := by
    rcases List.mem_pair.mp h with rfl | rfl <;> decide
  unfold performance
  repeat' first
    | exact link
    | apply active_ite
    | (intro; decide)
    | intro

theorem lacking_observed {recorded observed : Nat} (marked s : Status) (other : f.c ≠ .post) (there : 0 < observed)
    (files : recorded ≠ 0) : lacking f recorded observed marked s ∈ status_active := by
  unfold lacking
  rw [if_neg other]
  refine active_ite (fun _ => by decide) fun kept => ?_
  have held : s ∈ [Status.starting, .shutdown, .resources_restart] := by
    by_contra out
    exact kept ⟨there, out⟩
  have busy : s ∈ status_active := by
    simp only [List.mem_cons, List.not_mem_nil, or_false] at held
    rcases held with rfl | rfl | rfl <;> decide
  have listed : s ∈ [Status.interactive, .new, .shutdown, .starting, .resources_restart] := by
    simp only [List.mem_cons, List.not_mem_nil, or_false] at held ⊢
    tauto
  rw [if_neg (fun both => files both.2 : ¬ (s ∉ [Status.interactive, .new, .running] ∧ recorded = 0)),
    if_neg (not_not.mpr listed)]
  exact active_ite (fun _ => busy) fun _ => busy

/-- With a process there, each branch comes to an active status. -/
theorem settle_observed {recorded observed hung : Nat} (marked : Status) (there : 0 < observed)
    (files : recorded ≠ 0) (posts : f.c = .post → instances f o ≤ observed) :
    settle f o now m noVip recorded observed hung marked ∈ status_active := by
  unfold settle
  refine active_ite (fun _ => by decide) fun _ => active_ite (fun short => ?_) fun _ => ?_
  · exact lacking_observed f marked _ (fun post => absurd (posts post) (Nat.not_le_of_lt short)) there files
  · rw [if_neg (Nat.pos_iff_ne_zero.mp there)]
    exact performance_active o now m noVip _

/-- What stays of a flow whose processes are gone, and makes it active still. -/
def Lingers (recorded : Nat) (marked : Status) : Prop :=
  0 < instances f o ∧
    (¬ Faulty o m ∧ f.c ≠ .post ∧ recorded ≠ 0 ∧ marked ∈ [.starting, .shutdown, .resources_restart] ∨
      Faulty o m ∧ (marked = .disabled ∨ f.c = .post ∧ marked ∈ [.new, .interactive]))

theorem lacking_sound (recorded : Nat) {marked : Status} (s : Status)
    (first : s = if marked ∈ [Status.disabled, .interactive, .new, .starting, .shutdown, .running, .resources_restart]
      then marked else .unknown) :
    lacking f recorded 0 marked s ∈ status_active ↔
      f.c ≠ .post ∧ recorded ≠ 0 ∧ marked ∈ [Status.starting, .shutdown, .resources_restart] := by
  subst first
  unfold lacking
  by_cases post : f.c = .post <;> by_cases files : recorded = 0 <;> cases marked <;> simp [post, files, status_active]

theorem lacking_faulty (recorded : Nat) {marked s : Status} (lost : s ∈ [Status.down, .disconnected]) :
    lacking f recorded 0 marked s ∈ status_active ↔
      marked = .disabled ∨ f.c = .post ∧ marked ∈ [Status.new, .interactive] := by
  unfold lacking
  rcases List.mem_pair.mp lost with rfl | rfl <;> by_cases post : f.c = .post <;> by_cases files : recorded = 0 <;>
    cases marked <;> simp [post, files, status_active]

/-- Without a process, the status is active only where something lingers. -/
theorem settle_unobserved (recorded hung : Nat) (marked : Status) :
    settle f o now m noVip recorded 0 hung marked ∈ status_active ↔ Lingers f o m recorded marked := by
  unfold settle Lingers
  rw [if_neg fun both => Nat.lt_irrefl 0 both.2]
  by_cases wanted : 0 < instances f o
  · rw [if_pos wanted]
    by_cases faulty : Faulty o m
    · obtain ⟨t, lost, all⟩ := connection_faulty o m faulty
      rw [all, lacking_faulty f recorded lost]
      simp [wanted, faulty]
    · rw [connection_sound o m faulty, lacking_sound f recorded _ rfl]
      simp [wanted, faulty]
  · rw [if_neg wanted, if_pos rfl]
    have idle (s : Status) : (if s ∉ [Status.interactive, .new] then if recorded = 0 then .stopped else .missing
        else s) ∉ status_active := by
      by_cases files : recorded = 0 <;> cases s <;> simp [files, status_active]
    simp only [wanted, false_and, iff_false]
    exact idle _

/-- Only hanging processes make a flow hang. -/
theorem settle_hung {recorded observed hung : Nat} {marked : Status}
    (hangs : settle f o now m noVip recorded observed hung marked = .hung) : 0 < hung := by
  by_contra none_
  have either {p : Prop} [Decidable p] {a b : Status} (yes : a ≠ .hung) (no : b ≠ .hung) : (if p then a else b) ≠ .hung := by
    split <;> assumption
  have known : connection o m (if marked ∈ [Status.disabled, .interactive, .new, .starting, .shutdown, .running,
      .resources_restart] then marked else .unknown) ≠ .hung := by
    have first : (if marked ∈ [Status.disabled, .interactive, .new, .starting, .shutdown, .running, .resources_restart]
        then marked else .unknown) ≠ .hung := by
      cases marked <;> decide
    rcases connection_cases o m with same | ⟨t, lost, all⟩
    · rw [same]
      exact first
    · rw [all]
      rcases List.mem_pair.mp lost with rfl | rfl <;> decide
  revert hangs
  unfold settle lacking performance
  rw [if_neg fun both => none_ both.1]
  repeat' first
    | exact known
    | apply either
    | decide

end Decision

/-! ## The flow -/

section Flow
variable {μ : Type} (accumulate : ℚ → Nat → List μ → Metrics) (now : ℚ) (procs : Procs) (f : Flow) (o : Options)
  (dir : Option StateDir) (r : Records μ)

/-- A process named in the pid files of the flow is alive. -/
def Alive : Prop := ∃ d, dir = some d ∧ ∃ i pid, d.pids.get i = some (some pid) ∧ alive procs pid

/-- What lingers of a flow, by its state directory. -/
def Left : Prop := ∃ d, dir = some d ∧
  Lingers f o (metrics accumulate now r) (instance_pids d).entries.length (marked f o d (read_status f o (some d)))

theorem look_status (d : StateDir) : (look f o accumulate now procs (some d) r).status =
    settle f o now (metrics accumulate now r) (noVip d) (instance_pids d).entries.length
      (observed procs (instance_pids d)).length (hung_instances o now procs r (instance_pids d)).length
      (marked f o d (read_status f o (some d))) := rfl

theorem instances_post (post : f.c = .post) : instances f o = 1 := by simp [instances, post]

/-- The state of a flow with a living process is never taken for that of a stopped one. -/
theorem active_of_alive (lives : Alive procs dir) : (look f o accumulate now procs dir r).status ∈ status_active := by
  obtain ⟨d, rfl, i, pid, there, up⟩ := lives
  have some_ : 0 < (observed procs (instance_pids d)).length := (observed_pos d).mpr ⟨i, pid, there, up⟩
  rw [look_status]
  apply settle_observed
  · exact some_
  · exact (recorded_ne_zero d).mpr ⟨i, pid, there⟩
  · intro post
    rw [instances_post f o post]
    exact some_

theorem active_iff_left (gone : ¬ Alive procs dir) :
    (look f o accumulate now procs dir r).status ∈ status_active ↔ Left accumulate now f o dir r := by
  cases dir with
  | none =>
    have idle : read_status f o none ∉ status_active := by
      unfold read_status
      cases interactive f o <;> decide
    exact iff_of_false idle fun ⟨_, none_, _⟩ => nomatch none_
  | some d =>
    have none_ : (observed procs (instance_pids d)).length = 0 := by
      by_contra some_
      exact gone ⟨d, rfl, (observed_pos d).mp (Nat.pos_of_ne_zero some_)⟩
    rw [look_status, none_, settle_unobserved]
    constructor
    · intro left
      exact ⟨d, rfl, left⟩
    · intro ⟨_, same, left⟩
      cases same
      exact left

/-- The status is sound exactly where a process is alive or nothing lingers. -/
theorem active_iff_alive_iff :
    ((look f o accumulate now procs dir r).status ∈ status_active ↔ Alive procs dir) ↔
      Alive procs dir ∨ ¬ Left accumulate now f o dir r := by
  by_cases lives : Alive procs dir
  · exact iff_of_true (iff_of_true (active_of_alive accumulate now procs f o dir r lives) lives) (Or.inl lives)
  · rw [active_iff_left accumulate now procs f o dir r lives]
    simp [lives]

theorem seen_construct (configs : Configs) (w : World μ) (known : configs.get f = some o) :
    (construct accumulate configs w).seen f =
      look f o accumulate w.now (read_procs w.me w.table) (dirOf w.disk f o) (w.records f) := by
  change seenIn accumulate configs w.now (read_procs w.me w.table) w.disk w.records f = _
  rw [seenIn, known]

/-- Nothing is removed while a selected flow has a living process. -/
theorem remove_spares_running (configs : Configs) (cmd : Command) (w : World μ) (disk : Disk)
    (selected : (f, o) ∈ selection configs cmd) (known : configs.get f = some o)
    (lives : Alive (read_procs w.me w.table) (dirOf w.disk f o)) :
    remove configs cmd (construct accumulate configs w) disk = ⟨disk, []⟩ := by
  have active : ((construct accumulate configs w).seen f).status ∈ status_active := by
    rw [seen_construct accumulate f o configs w known]
    exact active_of_alive accumulate w.now _ f o _ _ lives
  have some_ : ((selection configs cmd).any fun e =>
      decide (((construct accumulate configs w).seen e.1).status ∈ status_active)) = true :=
    List.any_eq_true.mpr ⟨(f, o), selected, decide_eq_true active⟩
  have refused : cleanup configs cmd (construct accumulate configs w) disk = (false, ⟨disk, []⟩) := by
    unfold cleanup
    split
    · rfl
    · split
      · rfl
      · rfl
  rw [remove, refused]
  rfl

/-- A start broken off: its marker and a pid file are there, the process is not. -/
def brokenStart : StateDir := ⟨fun m => m = .starting, ⟨[(1, some 4711)], by decide⟩, [], []⟩

def oneInstance : Options := ⟨false, 1 / 10, true, 1, true, 0, 1, 450, 80, 0, 1000, 30, 80, 900, 0⟩

theorem broken_start_active : ¬ ∀ (procs : Procs) (f : Flow) (o : Options) (dir : Option StateDir) (r : Records Metrics),
    (look f o (fun _ _ _ => empty_metrics) 0 procs dir r).status ∈ status_active ↔ Alive procs dir := by
  intro sound
  have dead : ¬ Alive Table.empty (some brokenStart) := fun ⟨_, _, _, _, _, up⟩ => by cases up
  exact dead ((sound Table.empty ⟨.subscribe, "amis".toList⟩ oneInstance (some brokenStart) ⟨none, Table.empty⟩).mp (by decide +kernel))

end Flow
end Sarracenia.Guarantees.Sr
