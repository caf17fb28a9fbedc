import Mathlib.Data.List.ProdSigma
import Mathlib.Data.List.TakeWhile
import Sarracenia.Source.Scheduled

/-!
# The appointments that `Scheduled` keeps

The list of the day is consumed, and when it has come to its end the list of the day after the
clock's is made. The next gather time is the next appointment as long as none lies between the
reading that ends the list and the end of the clock's day.
-/
namespace Sarracenia.Guarantees.Scheduled
open Library Library.Text Library.Dynamic Source.Scheduled

/-! ## Appointments over all days -/

section Days
variable {o : Options} {p : Plan} {a d h m when : Int}

theorem dayLength_eq : dayLength = 86400000000 := rfl

theorem hourLength_eq : hourLength = 3600000000 := rfl

theorem minuteLength_eq : minuteLength = 60000000 := rfl

/-- The instant of the time on the day. -/
def instant (d h m : Int) : Int := d * dayLength + h * hourLength + m * minuteLength

/-- A time of the day. -/
def TimeOfDay (h m : Int) : Prop := 0 ≤ h ∧ h < 24 ∧ 0 ≤ m ∧ m < 60

theorem dayOf_instant (time : TimeOfDay h m) : dayOf (instant d h m) = d := by
  obtain ⟨h0, h24, m0, m60⟩ := time
  unfold dayOf instant
  rw [dayLength_eq, hourLength_eq, minuteLength_eq]
  omega

/-- A time that comes later on the day is not passed. -/
theorem not_passed (time : TimeOfDay h m) (later : when < instant (dayOf when) h m) :
    hour when < h ∨ h = hour when ∧ minute when ≤ m := by
  obtain ⟨h0, h24, m0, m60⟩ := time
  unfold instant dayOf at later
  unfold hour minute
  rw [dayLength_eq, hourLength_eq, minuteLength_eq] at *
  omega

theorem midnight_passed (time : TimeOfDay h m) :
    hour (d * dayLength) < h ∨ h = hour (d * dayLength) ∧ minute (d * dayLength) ≤ m := by
  obtain ⟨h0, h24, m0, m60⟩ := time
  unfold hour minute
  rw [dayLength_eq, hourLength_eq, minuteLength_eq] at *
  omega

theorem dayOf_midnight : dayOf (d * dayLength) = d := by
  unfold dayOf
  rw [dayLength_eq]
  omega

theorem dayOf_mono {s t : Int} (le : s ≤ t) : dayOf s ≤ dayOf t := by
  unfold dayOf
  rw [dayLength_eq]
  omega

end Days

section Configured
variable (o : Options) (p : Plan)

/-- A time of the day that is configured. -/
def IsTime (h m : Int) : Prop :=
  o.byHour = true ∧ h ∈ p.hours ∧ m ∈ p.minutes ∨
    o.scheduled_time ≠ [] ∧ ∃ time ∈ p.sched_times, timeOf time = .ok (h, m)

/-- An appointment, on any day. -/
def Configured (a : Int) : Prop := ∃ d h m, IsTime o p h m ∧ a = instant d h m

/-- There are appointments and no interval, and their times can be read. -/
structure Valid : Prop where
  planned : plan o = .ok p
  interval : o.scheduled_interval ≤ 0
  readable : ∀ time ∈ p.sched_times, ∃ hm, timeOf time = .ok hm
  times : ∀ h m, IsTime o p h m → TimeOfDay h m
  some_ : ∃ h m, IsTime o p h m

/-- The least configured appointment that is strictly later. -/
def Least (r t : Int) : Prop := Configured o p t ∧ r < t ∧ ∀ a, Configured o p a → r < a → t ≤ a

variable {o p} {when a d : Int}

/-- On the day, and not passed. -/
def Upcoming (when h m a : Int) : Prop :=
  (hour when < h ∨ h = hour when ∧ minute when ≤ m) ∧ a = instant (dayOf when) h m

variable (when) in
theorem appointment_spec {h m : Int} (time : TimeOfDay h m) :
    ∃ found, appointment when h m = .ok found ∧ ∀ a, found = some a ↔ Upcoming when h m a := by
  unfold appointment Upcoming
  split
  · next later =>
    refine ⟨some (instant (dayOf when) h m), ?_, fun a => ?_⟩
    · rw [combine, if_pos (show 0 ≤ h ∧ h < 24 ∧ 0 ≤ m ∧ m < 60 from time)]
      rfl
    · rw [Option.some.injEq, eq_comm]
      exact ⟨fun is => ⟨later, is⟩, And.right⟩
  · next passed => exact ⟨none, rfl, fun a => ⟨nofun, fun both => absurd both.1 passed⟩⟩

variable (when) in
theorem hourAppointments_spec {times : List (Int × Int)} (valid : ∀ hm ∈ times, TimeOfDay hm.1 hm.2) :
    ∃ found, hourAppointments when times = .ok found ∧
      ∀ a, a ∈ found ↔ ∃ hm ∈ times, Upcoming when hm.1 hm.2 a := by
  induction times with
  | nil => exact ⟨[], rfl, fun a => ⟨nofun, fun ⟨_, member, _⟩ => nomatch member⟩⟩
  | cons hm times ih =>
    obtain ⟨here, rest⟩ := List.forall_mem_cons.mp valid
    obtain ⟨first, one, upcoming⟩ := appointment_spec when here
    obtain ⟨found, others, members⟩ := ih rest
    refine ⟨first.toList ++ found, ?_, fun a => ?_⟩
    · rw [hourAppointments, one, others]
      rfl
    · rw [List.mem_append, Option.mem_toList, upcoming, members, List.exists_mem_cons_iff]

variable (when) in
theorem timeAppointments_spec {times : List Str}
    (valid : ∀ time ∈ times, ∃ hm : Int × Int, timeOf time = .ok hm ∧ TimeOfDay hm.1 hm.2) :
    ∃ found, timeAppointments when times = .ok found ∧
      ∀ a, a ∈ found ↔ ∃ time ∈ times, ∃ hm : Int × Int, timeOf time = .ok hm ∧ Upcoming when hm.1 hm.2 a := by
  induction times with
  | nil => exact ⟨[], rfl, fun a => ⟨nofun, fun ⟨_, member, _⟩ => nomatch member⟩⟩
  | cons time times ih =>
    obtain ⟨⟨hm, read, here⟩, rest⟩ := List.forall_mem_cons.mp valid
    obtain ⟨first, one, upcoming⟩ := appointment_spec when here
    obtain ⟨found, others, members⟩ := ih rest
    refine ⟨first.toList ++ found, ?_, fun a => ?_⟩
    · rw [timeAppointments, read]
      change (appointment when hm.1 hm.2 >>= _) = _
      rw [one, others]
      rfl
    · have this : (∃ hm' : Int × Int, timeOf time = .ok hm' ∧ Upcoming when hm'.1 hm'.2 a) ↔ Upcoming when hm.1 hm.2 a := by
        rw [read]
        exact ⟨fun ⟨_, same, is⟩ => Except.ok.inj same ▸ is, fun is => ⟨hm, rfl, is⟩⟩
      rw [List.mem_append, Option.mem_toList, upcoming, members, List.exists_mem_cons_iff, this]

theorem update_appointments_eq :
    update_appointments o p when =
      (if o.byHour then hourAppointments when (p.hours ×ˢ p.minutes) else .ok []) >>= fun fixed =>
        (if o.scheduled_time.isEmpty then .ok [] else timeAppointments when p.sched_times) >>= fun timed =>
          .ok ((fixed ++ timed).insertionSort (· ≤ ·)) := by
  unfold update_appointments
  split <;> split <;> rfl

/-- The list of the day holds the appointments of the day that are not passed, in order. -/
theorem update_appointments_spec (valid : Valid o p) (when : Int) :
    ∃ found, update_appointments o p when = .ok found ∧ found.Pairwise (· ≤ ·) ∧
      ∀ a, a ∈ found ↔ ∃ h m, IsTime o p h m ∧ Upcoming when h m a := by
  have byHour : ∃ fixed, (if o.byHour then hourAppointments when (p.hours ×ˢ p.minutes) else .ok []) = .ok fixed ∧
      ∀ a, a ∈ fixed ↔ ∃ h m, (o.byHour = true ∧ h ∈ p.hours ∧ m ∈ p.minutes) ∧ Upcoming when h m a := by
    split
    · next is =>
      have times : ∀ hm ∈ p.hours ×ˢ p.minutes, TimeOfDay hm.1 hm.2 := fun hm member =>
        valid.times _ _ (Or.inl ⟨is, List.mem_product.mp member⟩)
      obtain ⟨fixed, computed, members⟩ := hourAppointments_spec when times
      refine ⟨fixed, computed, fun a => (members a).trans ?_⟩
      constructor
      · rintro ⟨⟨h, m⟩, member, upcoming⟩
        exact ⟨h, m, ⟨is, List.mem_product.mp member⟩, upcoming⟩
      · rintro ⟨h, m, ⟨-, member⟩, upcoming⟩
        exact ⟨(h, m), List.mem_product.mpr member, upcoming⟩
    · next other => exact ⟨[], rfl, fun a => ⟨nofun, fun ⟨_, _, ⟨is, _⟩, _⟩ => absurd is other⟩⟩
  have byTime : ∃ timed, (if o.scheduled_time.isEmpty then .ok [] else timeAppointments when p.sched_times) = .ok timed ∧
      ∀ a, a ∈ timed ↔ ∃ h m, (o.scheduled_time ≠ [] ∧ ∃ time ∈ p.sched_times, timeOf time = .ok (h, m)) ∧
        Upcoming when h m a := by
    split
    · next none_ =>
      exact ⟨[], rfl, fun a => ⟨nofun, fun ⟨_, _, ⟨is, _⟩, _⟩ => absurd (List.isEmpty_iff.mp none_) is⟩⟩
    · next some_ =>
      have some_ : o.scheduled_time ≠ [] := fun none_ => some_ (List.isEmpty_iff.mpr none_)
      have times : ∀ time ∈ p.sched_times, ∃ hm : Int × Int, timeOf time = .ok hm ∧ TimeOfDay hm.1 hm.2 := by
        intro time member
        obtain ⟨hm, read⟩ := valid.readable time member
        exact ⟨hm, read, valid.times _ _ (Or.inr ⟨some_, time, member, read⟩)⟩
      obtain ⟨timed, computed, members⟩ := timeAppointments_spec when times
      refine ⟨timed, computed, fun a => (members a).trans ?_⟩
      constructor
      · rintro ⟨time, member, ⟨h, m⟩, read, upcoming⟩
        exact ⟨h, m, ⟨some_, time, member, read⟩, upcoming⟩
      · rintro ⟨h, m, ⟨-, time, member, read⟩, upcoming⟩
        exact ⟨time, member, (h, m), read, upcoming⟩
  obtain ⟨fixed, one, fixedMembers⟩ := byHour
  obtain ⟨timed, other, timedMembers⟩ := byTime
  refine ⟨(fixed ++ timed).insertionSort (· ≤ ·), ?_, List.pairwise_insertionSort _ _, fun a => ?_⟩
  · rw [update_appointments_eq, one, other]
    rfl
  · rw [List.mem_insertionSort, List.mem_append, fixedMembers, timedMembers]
    unfold IsTime
    simp only [or_and_right, exists_or]

end Configured

/-! ## The list between two calls -/

section Listed
variable (o : Options) (p : Plan)

/-- In order, and with every appointment up to the day `D` that is later than `r`. -/
structure Listed (D r : Int) (found : List Int) : Prop where
  sorted : found.Pairwise (· ≤ ·)
  configured : ∀ a ∈ found, Configured o p a ∧ dayOf a ≤ D
  complete : ∀ a, Configured o p a → r < a → dayOf a ≤ D → a ∈ found

variable {o p} {D r r' when last time t : Int} {found : List Int}

theorem Listed.mono (listed : Listed o p D r found) (le : r ≤ r') : Listed o p D r' found :=
  ⟨listed.sorted, listed.configured, fun a is later => listed.complete a is (by omega)⟩

/-- The appointment that is served is taken out. -/
theorem Listed.erase (listed : Listed o p D r found) (served : t ≤ r) : Listed o p D r (found.erase t) :=
  ⟨listed.sorted.sublist List.erase_sublist,
    fun a member => listed.configured a (List.mem_of_mem_erase member),
    fun a is later day => (List.mem_erase_of_ne (by omega)).mpr (listed.complete a is later day)⟩

theorem mem_dropWhile {a : Int} (member : a ∈ found) (later : r < a) : a ∈ found.dropWhile (· ≤ r) := by
  have whole := List.takeWhile_append_dropWhile (p := fun t : Int => decide (t ≤ r)) (l := found)
  rw [← whole, List.mem_append] at member
  refine member.resolve_left fun missed => ?_
  have passed := List.mem_takeWhile_imp missed
  rw [decide_eq_true_eq] at passed
  omega

/-- Those that were missed are taken out. -/
theorem Listed.dropWhile (listed : Listed o p D r found) : Listed o p D r (found.dropWhile (· ≤ r)) :=
  ⟨listed.sorted.sublist (List.dropWhile_sublist _),
    fun a member => listed.configured a ((List.dropWhile_sublist _).mem member),
    fun a is later day => mem_dropWhile (listed.complete a is later day) later⟩

theorem Listed.least {later : List Int} (listed : Listed o p D r (t :: later)) (next : r < t) :
    Least o p r t := by
  obtain ⟨is, day⟩ := listed.configured t List.mem_cons_self
  refine ⟨is, next, fun a other after => ?_⟩
  by_cases within : dayOf a ≤ D
  · rcases List.mem_cons.mp (listed.complete a other after within) with rfl | member
    · exact Int.le_refl a
    · exact (List.pairwise_cons.mp listed.sorted).1 a member
  · have apart : ¬ a ≤ t := fun le => within (Int.le_trans (dayOf_mono le) day)
    omega

theorem configured_upcoming (valid : Valid o p) {a : Int}
    (upcoming : ∃ h m, IsTime o p h m ∧ Upcoming when h m a) : Configured o p a ∧ dayOf a = dayOf when := by
  obtain ⟨h, m, is, -, rfl⟩ := upcoming
  exact ⟨⟨_, h, m, is, rfl⟩, dayOf_instant (valid.times h m is)⟩

/-- The list of the day, as it is made in the course of it. -/
theorem listed_today (valid : Valid o p) (made : update_appointments o p when = .ok found) :
    Listed o p (dayOf when) when found := by
  obtain ⟨found', same, sorted, members⟩ := update_appointments_spec valid when
  obtain rfl : found = found' := Except.ok.inj (made.symm.trans same)
  refine ⟨sorted, fun a member => ?_, fun a is later day => ?_⟩
  · obtain ⟨is, day⟩ := configured_upcoming valid ((members a).mp member)
    exact ⟨is, day.le⟩
  · have same : dayOf a = dayOf when := Int.le_antisymm day (dayOf_mono later.le)
    obtain ⟨d, h, m, is, rfl⟩ := is
    rw [dayOf_instant (valid.times h m is)] at same
    subst same
    exact (members _).mpr ⟨h, m, is, not_passed (valid.times h m is) later, rfl⟩

/-- The list of the day after the clock's is the whole of that day, and is not empty. -/
theorem tomorrow_spec (valid : Valid o p) (time : Int) :
    ∃ t later, tomorrow o p time = .ok (t :: later) ∧ (t :: later).Pairwise (· ≤ ·) ∧
      ∀ a, a ∈ t :: later ↔ Configured o p a ∧ dayOf a = dayOf time + 1 := by
  obtain ⟨found, made, sorted, members⟩ := update_appointments_spec valid ((dayOf time + 1) * dayLength)
  have whole : ∀ a, a ∈ found ↔ Configured o p a ∧ dayOf a = dayOf time + 1 := by
    intro a
    constructor
    · intro member
      have both := configured_upcoming valid ((members a).mp member)
      rwa [dayOf_midnight] at both
    · rintro ⟨⟨d, h, m, is, rfl⟩, day⟩
      rw [dayOf_instant (valid.times h m is)] at day
      refine (members _).mpr ⟨h, m, is, midnight_passed (valid.times h m is), ?_⟩
      rw [dayOf_midnight, day]
  cases found with
  | nil =>
    obtain ⟨h, m, is⟩ := valid.some_
    have member := (whole (instant (dayOf time + 1) h m)).mpr
      ⟨⟨_, h, m, is, rfl⟩, dayOf_instant (valid.times h m is)⟩
    cases member
  | cons t later => exact ⟨t, later, made, sorted, whole⟩

end Listed

/-! ## One computation of the next gather time -/

section Calc
variable (o : Options) (p : Plan)

/-- What is still listed without the appointment that is served. -/
def listed (s : State) : List Int := s.next_gather_time.elim s.appointments s.appointments.erase

/-- A computation of the next gather time: the list it starts from, the reading it is given,
the reading it takes, and what it settles on. -/
structure Calc where
  listed : List Int
  last_gather : Int
  time : Int
  next : Option Int

def Calc.Correct (k : Calc) : Prop := ∃ t, k.next = some t ∧ Least o p k.last_gather t

/-- Where the list has come to its end, no appointment is left on the day of the clock. -/
def Calc.Meets (k : Calc) : Prop :=
  (∀ t ∈ k.listed, t ≤ k.last_gather) → ∀ a, Configured o p a → k.last_gather < a → dayOf k.time < dayOf a

variable {o p} {D r last time : Int} {s s' : State}

theorem Valid.given (valid : Valid o p) :
    o.scheduled_hour ≠ [] ∨ o.scheduled_minute ≠ [] ∨ o.scheduled_time ≠ [] := by
  obtain ⟨h, m, ⟨byHour, -⟩ | ⟨byTime, -⟩⟩ := valid.some_
  · unfold Options.byHour at byHour
    rw [Bool.or_eq_true, Bool.not_eq_true', Bool.not_eq_true', List.isEmpty_eq_false_iff,
      List.isEmpty_eq_false_iff] at byHour
    exact byHour.elim (.inr ∘ .inl) .inl
  · exact .inr (.inr byTime)

/-- The state after the computation. -/
def settled (s : State) (t : Int) (later : List Int) : State :=
  { s with appointments := t :: later, next_gather_time := some t }

theorem calc_listed (valid : Valid o p) {t : Int} {later : List Int}
    (rest : (listed s).dropWhile (· ≤ last) = t :: later) :
    calc_next_gather_time o p last time s = .ok (settled s t later) := by
  unfold listed at rest
  unfold calc_next_gather_time
  dsimp only
  rw [if_neg (Int.not_lt.mpr valid.interval), if_pos valid.given]
  rw [rest]
  rfl

theorem calc_tomorrow (valid : Valid o p) {t : Int} {later : List Int}
    (rest : (listed s).dropWhile (· ≤ last) = []) (made : tomorrow o p time = .ok (t :: later)) :
    calc_next_gather_time o p last time s = .ok (settled s t later) := by
  unfold listed at rest
  unfold calc_next_gather_time
  dsimp only
  rw [if_neg (Int.not_lt.mpr valid.interval), if_pos valid.given]
  rw [rest, made]
  rfl

/-- A computation ends, and settles on an appointment that is still listed, or on the first of
the day after the clock's where none is. -/
theorem calc_cases (valid : Valid o p) (order : last ≤ time) (s : State) :
    ∃ t later, calc_next_gather_time o p last time s = .ok (settled s t later) ∧ last < t ∧
      ((listed s).dropWhile (· ≤ last) = t :: later ∨
        (∀ a ∈ listed s, a ≤ last) ∧ (t :: later).Pairwise (· ≤ ·) ∧
          ∀ a, a ∈ t :: later ↔ Configured o p a ∧ dayOf a = dayOf time + 1) := by
  cases rest : (listed s).dropWhile (· ≤ last) with
  | cons t later =>
    have head := List.head_dropWhile_not (fun a => decide (a ≤ last)) (rest ▸ List.cons_ne_nil t later)
    simp only [rest, List.head_cons, decide_eq_false_iff_not] at head
    exact ⟨t, later, calc_listed valid rest, Int.not_le.mp head, .inl rfl⟩
  | nil =>
    obtain ⟨t, later, made, sorted, whole⟩ := tomorrow_spec valid time
    have next : last < t := by
      have day := ((whole t).mp List.mem_cons_self).2
      have apart : ¬ t ≤ time := fun le => by have := dayOf_mono le; omega
      omega
    refine ⟨t, later, calc_tomorrow valid rest made, next, .inr ⟨fun a member => ?_, sorted, whole⟩⟩
    by_contra passed
    have still := mem_dropWhile member (Int.not_le.mp passed)
    rw [rest] at still
    cases still

/-- It is the next appointment exactly if none is left on the day of the clock where the list
has come to its end; the list it leaves is then complete again. -/
theorem calc_exact (valid : Valid o p) (known : Listed o p D last (listed s)) (order : last ≤ time)
    (done : calc_next_gather_time o p last time s = .ok s') :
    (Calc.Correct o p ⟨listed s, last, time, s'.next_gather_time⟩ ↔
        Calc.Meets o p ⟨listed s, last, time, s'.next_gather_time⟩) ∧
      (Calc.Meets o p ⟨listed s, last, time, s'.next_gather_time⟩ →
        ∃ D', Listed o p D' last s'.appointments) := by
  obtain ⟨t, later, same, next, left | ⟨ended, sorted, whole⟩⟩ := calc_cases valid order s
  · obtain rfl : s' = settled s t later := Except.ok.inj (done.symm.trans same)
    have still := known.dropWhile
    rw [left] at still
    have member : t ∈ listed s :=
      (List.dropWhile_sublist (fun a => decide (a ≤ last))).mem (left ▸ List.mem_cons_self)
    refine ⟨⟨fun _ ended => ?_, fun _ => ⟨t, rfl, still.least next⟩⟩, fun _ => ⟨D, still⟩⟩
    exact absurd (ended t member) (Int.not_le.mpr next)
  · obtain rfl : s' = settled s t later := Except.ok.inj (done.symm.trans same)
    have list (none_ : ∀ a, Configured o p a → last < a → dayOf time < dayOf a) :
        Listed o p (dayOf time + 1) last (t :: later) :=
      ⟨sorted, fun a member => ⟨((whole a).mp member).1, ((whole a).mp member).2.le⟩,
        fun a other after within => (whole a).mpr ⟨other, by have := none_ a other after; omega⟩⟩
    have day := ((whole t).mp List.mem_cons_self).2
    refine ⟨⟨?_, fun meets => ⟨t, rfl, (list (meets ended)).least next⟩⟩, fun meets => ⟨_, list (meets ended)⟩⟩
    rintro ⟨u, same, -, -, least⟩ - a other after
    obtain rfl : t = u := Option.some.inj same
    have := dayOf_mono (least a other after)
    dsimp only
    omega

end Calc

/-! ## Runs -/

section Run
variable (o : Options) (p : Plan)

/-- A run up to a reading of the clock, the state it leaves, and the computations in it. -/
inductive Run : Int → State → List Calc → Prop
  | new {now last time : Int} {found : List Int} {s : State} : now ≤ last → last ≤ time →
      update_appointments o p now = .ok found → new o p now last time = .ok s →
      Run time s [⟨found, last, time, s.next_gather_time⟩]
  | ready {r current time : Int} {s s' : State} {h : List Calc} : Run r s h → r ≤ current → current ≤ time →
      ready_to_gather o p current time s = .ok (s', true) →
      Run time s' (h ++ [⟨listed s, current, time, s'.next_gather_time⟩])
  | wait {r current time : Int} {s s' : State} {h : List Calc} : Run r s h → r ≤ current →
      ready_to_gather o p current time s = .ok (s', false) → Run current s' h
  | stop {r : Int} {s : State} {h : List Calc} : Run r s h → Run r (please_stop s) h

variable {o p} {r current time : Int} {s s' : State} {h : List Calc}

theorem ready_cases (ready : ready_to_gather o p current time s = .ok (s', true)) :
    ∃ t, s.next_gather_time = some t ∧ t ≤ current ∧ calc_next_gather_time o p current time s = .ok s' := by
  unfold ready_to_gather at ready
  split at ready
  · cases ready
  · next t scheduled =>
    split at ready
    · next due =>
      cases done : calc_next_gather_time o p current time s with
      | error fault =>
        rw [done] at ready
        cases ready
      | ok settled =>
        rw [done] at ready
        cases ready
        exact ⟨t, scheduled, due.1, rfl⟩
    · cases ready

theorem wait_cases (wait : ready_to_gather o p current time s = .ok (s', false)) : s' = s := by
  unfold ready_to_gather at wait
  split at wait
  · cases wait
  · split at wait
    · cases done : calc_next_gather_time o p current time s with
      | error fault =>
        rw [done] at wait
        cases wait
      | ok settled =>
        rw [done] at wait
        cases wait
    · cases wait
      rfl

/-- What a run keeps. -/
structure Kept (o : Options) (p : Plan) (r : Int) (s : State) (h : List Calc) : Prop where
  scheduled : ∃ t, s.next_gather_time = some t ∧ ∀ k ∈ h, ∀ u, k.next = some u → u ≤ t
  exact_ : (∀ k ∈ h, k.Correct o p) ↔ ∀ k ∈ h, k.Meets o p
  list : (∀ k ∈ h, k.Meets o p) → ∃ D, Listed o p D r s.appointments
  once : (h.filterMap (·.next)).Pairwise (· < ·)

theorem Kept.mono {r' : Int} (kept : Kept o p r s h) (le : r ≤ r') : Kept o p r' s h :=
  { kept with list := fun meets => (kept.list meets).imp fun _ listed => listed.mono le }

theorem Kept.new {now last : Int} {found : List Int} (valid : Valid o p) (start : now ≤ last) (order : last ≤ time)
    (made : update_appointments o p now = .ok found) (done : new o p now last time = .ok s) :
    Kept o p time s [⟨found, last, time, s.next_gather_time⟩] := by
  unfold Source.Scheduled.new at done
  rw [made] at done
  change (if 0 < o.scheduled_interval then _ else calc_next_gather_time o p last time ⟨found, none, false⟩) = _ at done
  rw [if_neg (Int.not_lt.mpr valid.interval)] at done
  have known : Listed o p (dayOf now) last (listed ⟨found, none, false⟩) := (listed_today valid made).mono start
  obtain ⟨correct, left⟩ := calc_exact valid known order done
  obtain ⟨t, later, same, -⟩ := calc_cases valid order ⟨found, none, false⟩
  have scheduled : s.next_gather_time = some t := by
    rw [Except.ok.inj (done.symm.trans same)]
    rfl
  refine ⟨⟨t, scheduled, fun k member u is => ?_⟩, ?_, fun meets => ?_, ?_⟩
  · obtain rfl := List.mem_singleton.mp member
    exact (Option.some.inj (is.symm.trans scheduled)).le
  · rw [List.forall_mem_singleton, List.forall_mem_singleton]
    exact correct
  · exact (left (meets _ (List.mem_singleton_self _))).imp fun _ listed => listed.mono order
  · rw [scheduled]
    exact List.pairwise_singleton _ _

theorem Kept.ready (valid : Valid o p) (kept : Kept o p r s h) (start : r ≤ current) (order : current ≤ time)
    (ready : ready_to_gather o p current time s = .ok (s', true)) :
    Kept o p time s' (h ++ [⟨listed s, current, time, s'.next_gather_time⟩]) := by
  obtain ⟨t, scheduled, due, done⟩ := ready_cases ready
  obtain ⟨t', later, same, next, -⟩ := calc_cases valid order s
  have after : s'.next_gather_time = some t' := by
    rw [Except.ok.inj (done.symm.trans same)]
    rfl
  have before : ∀ k ∈ h, ∀ u, k.next = some u → u < t' := by
    obtain ⟨t₀, same, bound⟩ := kept.scheduled
    obtain rfl : t = t₀ := Option.some.inj (scheduled.symm.trans same)
    intro k member u is
    have := bound k member u is
    omega
  have known (meets : ∀ k ∈ h, k.Meets o p) : ∃ D, Listed o p D current (listed s) := by
    obtain ⟨D, list⟩ := kept.list meets
    unfold listed
    rw [scheduled]
    exact ⟨D, (list.mono start).erase due⟩
  refine ⟨⟨t', after, ?_⟩, ?_, ?_, ?_⟩
  · rw [List.forall_mem_append, List.forall_mem_singleton]
    exact ⟨fun k member u is => (before k member u is).le, fun u is => (Option.some.inj (is.symm.trans after)).le⟩
  · rw [List.forall_mem_append, List.forall_mem_append, List.forall_mem_singleton, List.forall_mem_singleton,
      kept.exact_]
    refine and_congr_right fun meets => ?_
    obtain ⟨D, list⟩ := known meets
    exact (calc_exact valid list order done).1
  · rw [List.forall_mem_append, List.forall_mem_singleton]
    rintro ⟨meets, last⟩
    obtain ⟨D, list⟩ := known meets
    exact ((calc_exact valid list order done).2 last).imp fun _ listed => listed.mono order
  · rw [List.filterMap_append, List.pairwise_append, after]
    refine ⟨kept.once, List.pairwise_singleton _ _, fun u member u' last => ?_⟩
    obtain ⟨k, within, is⟩ := List.mem_filterMap.mp member
    obtain rfl : u' = t' := List.mem_singleton.mp last
    exact before k within u is

theorem Run.kept (valid : Valid o p) (run : Run o p r s h) : Kept o p r s h := by
  induction run with
  | new start order made done => exact .new valid start order made done
  | ready _ start order ready ih => exact ih.ready valid start order ready
  | wait _ start wait ih => exact wait_cases wait ▸ ih.mono start
  | stop _ ih => exact ⟨ih.scheduled, ih.exact_, ih.list, ih.once⟩

/-- In every run each computation settles on the next appointment exactly if each meets the
condition; no appointment is served twice, and every call returns. -/
theorem next_appointment_iff (valid : Valid o p) (run : Run o p r s h) :
    ((∀ k ∈ h, k.Correct o p) ↔ ∀ k ∈ h, k.Meets o p) ∧ (h.filterMap (·.next)).Pairwise (· < ·) ∧
      ∀ current time, current ≤ time → ∃ result, ready_to_gather o p current time s = .ok result := by
  have kept := run.kept valid
  refine ⟨kept.exact_, kept.once, fun current time order => ?_⟩
  obtain ⟨t, scheduled, -⟩ := kept.scheduled
  obtain ⟨t', later, done, -⟩ := calc_cases valid order s
  unfold ready_to_gather
  rw [scheduled]
  dsimp only
  split
  · exact ⟨(settled s t' later, true), by rw [done]; rfl⟩
  · exact ⟨_, rfl⟩

end Run

/-! ## Twice a day, and served twenty seconds past midnight -/

section Example

def daily : Options := ⟨0, [], [], ["10:00,23:59".toList]⟩

def dailyPlan : Plan := ⟨["10:00".toList, "23:59".toList], (List.range 24).map Int.ofNat, [0]⟩

def started : State := ⟨[36000000000, 86340000000], some 36000000000, false⟩

def evening : State := ⟨[86340000000], some 86340000000, false⟩

def nextDay : State := ⟨[208800000000, 259140000000], some 208800000000, false⟩

theorem daily_times {h m : Int} (is : IsTime daily dailyPlan h m) : h = 10 ∧ m = 0 ∨ h = 23 ∧ m = 59 := by
  obtain ⟨byHour, -⟩ | ⟨-, time, member, read⟩ := is
  · cases byHour
  · obtain rfl | member := List.mem_cons.mp member
    · cases read
      exact .inl ⟨rfl, rfl⟩
    · obtain rfl := List.mem_singleton.mp member
      cases read
      exact .inr ⟨rfl, rfl⟩

theorem daily_valid : Valid daily dailyPlan where
  planned := by
    have split_ : splitAll daily.scheduled_time = dailyPlan.sched_times := by rfl
    unfold plan
    rw [split_]
    rfl
  interval := Int.le_refl 0
  readable time member := by
    obtain rfl | member := List.mem_cons.mp member
    · exact ⟨(10, 0), rfl⟩
    · obtain rfl := List.mem_singleton.mp member
      exact ⟨(23, 59), rfl⟩
  times h m is := by
    unfold TimeOfDay
    have := daily_times is
    omega
  some_ := ⟨10, 0, .inr ⟨List.cons_ne_nil _ _, _, List.mem_cons_self, rfl⟩⟩

theorem start_list : update_appointments daily dailyPlan 0 = .ok [36000000000, 86340000000] := by decide +kernel

theorem start_new : new daily dailyPlan 0 0 0 = .ok started := by rfl

theorem start_run :
    Run daily dailyPlan 0 started [⟨[36000000000, 86340000000], 0, 0, some 36000000000⟩] :=
  .new (Int.le_refl 0) (Int.le_refl 0) start_list start_new

theorem morning_run : Run daily dailyPlan 36000000000 evening
    [⟨[36000000000, 86340000000], 0, 0, some 36000000000⟩,
      ⟨[86340000000], 36000000000, 36000000000, some 86340000000⟩] :=
  .ready start_run (by decide) (Int.le_refl _)
    (show ready_to_gather daily dailyPlan 36000000000 36000000000 started = .ok (evening, true) from rfl)

/-- The appointment at ten of the day that has begun is skipped. -/
theorem day_skipped : ¬ ∀ (o : Options) (p : Plan) (r : Int) (s : State) (h : List Calc),
    Valid o p → Run o p r s h → ∀ k ∈ h, k.Correct o p := by
  intro always
  have past : ready_to_gather daily dailyPlan 86420000000 86420000000 evening = .ok (nextDay, true) := rfl
  have late := always _ _ _ _ _ daily_valid (morning_run.ready (by decide) (Int.le_refl _) past)
  obtain ⟨t, is, -, -, least⟩ := late _ (List.mem_append_right _ (List.mem_singleton_self _))
  obtain rfl : 208800000000 = t := Option.some.inj is
  have ten : Configured daily dailyPlan 122400000000 :=
    ⟨1, 10, 0, .inr ⟨List.cons_ne_nil _ _, _, List.mem_cons_self, rfl⟩, rfl⟩
  exact absurd (least _ ten (by decide)) (by decide)

theorem morning_correct : Calc.Correct daily dailyPlan ⟨[86340000000], 36000000000, 36000000000, some 86340000000⟩ := by
  refine (next_appointment_iff daily_valid morning_run).1.mpr ?_ _ (List.mem_cons_of_mem _ (List.mem_singleton_self _))
  rw [List.forall_mem_cons, List.forall_mem_singleton]
  exact ⟨fun ended => absurd (ended 36000000000 List.mem_cons_self) (by decide),
    fun ended => absurd (ended 86340000000 List.mem_cons_self) (by decide)⟩

end Example
end Sarracenia.Guarantees.Scheduled
