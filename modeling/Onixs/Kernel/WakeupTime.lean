import Onixs.Kernel.SchedTicks

/-!
# When a sleeping task wakes up

`task_sleep` stores a deadline as an `int`, and `list_insert_sort` sorts by it; `task_wakeup`
compares the deadlines with `jiffies` as `uint32` numbers and stops at the first one that is later.
The two orders are the same for deadlines that are on one side of 2^31, and the comparison is right
as long as `jiffies` has not to wrap around before the deadline (`Onixs.Timed.Keepable`). Then the
tasks wake up on time (`Onixs.Timed.wakeupRun_onTime`).
-/

namespace Onixs

open Sched

/-- The tasks, with the number of ticks since the counter was 0, and the tick at which each task
that sleeps has asked to wake up. -/
structure Timed where
  /-- The tasks. -/
  sched : Sched
  /-- The ticks. -/
  now : ℕ
  /-- When they are to wake up. -/
  due : ℕ → ℕ

namespace Timed

variable {s t : Timed} {i j : ℕ} {op : SchedOp} {r : SchedRet}

/-- The ticks after a step. -/
def later (s : Timed) : SchedOp → ℕ
  | .clock => s.now + 1
  | _ => s.now

/-- When tasks are to wake up after a step: `task_sleep` counts from the call. -/
def plan (s : Timed) : SchedOp → ℕ → ℕ
  | .sleep ms => Function.update s.due s.sched.current (s.now + sleepTicks ms)
  | _ => s.due

/-- A call. -/
def step (s : Timed) (op : SchedOp) : Option (SchedRet × Timed) :=
  (s.sched.step op).map fun p => (p.1, ⟨p.2, s.later op, s.plan op⟩)

/-- The first task has been scheduled, at any value of the counter. -/
def Start (s : Timed) : Prop := s.sched.Start ∧ s.sched.jiffies < 4294967296 ∧ s.now = s.sched.jiffies

/-- What may be called: `task_wakeup` only by `clock_handler`. -/
def InTime (s : Timed) : SchedOp → Prop
  | .wakeup => False
  | op => s.sched.InTime op

instance InTime.decidable (s : Timed) : ∀ op, Decidable (s.InTime op)
  | .wakeup => isFalse id
  | .schedule => inferInstanceAs (Decidable (s.sched.InTime .schedule))
  | .block list => inferInstanceAs (Decidable (s.sched.InTime (.block list)))
  | .unblock i => inferInstanceAs (Decidable (s.sched.InTime (.unblock i)))
  | .sleep ms => inferInstanceAs (Decidable (s.sched.InTime (.sleep ms)))
  | .clock => inferInstanceAs (Decidable (s.sched.InTime .clock))
  | .fork => inferInstanceAs (Decidable (s.sched.InTime .fork))
  | .waitpid pid => inferInstanceAs (Decidable (s.sched.InTime (.waitpid pid)))
  | .exit status => inferInstanceAs (Decidable (s.sched.InTime (.exit status)))
  | .die status => inferInstanceAs (Decidable (s.sched.InTime (.die status)))
  | .leave => inferInstanceAs (Decidable (s.sched.InTime .leave))

/-- **The deadline can be kept**: the counter does not wrap around before it, unless it does so with
the next tick, and the tasks that sleep have theirs on the same side of 2^31. -/
def Keepable (s : Timed) : SchedOp → Prop
  | .sleep ms =>
      (s.sched.jiffies + sleepTicks ms < 4294967296 ∨ s.sched.jiffies = 4294967295) ∧
        ∀ i a, s.sched.table i = some a → a.state = .sleeping →
          (0 ≤ a.ticks ↔ 0 ≤ int32 (u32 (s.sched.jiffies + sleepTicks ms)))
  | _ => True

/-- **At a tick exactly the tasks whose time has come wake up.** -/
def OnTime (s : Timed) (t : Sched) : Prop :=
  ∀ i, s.sched.IsAsleep i → ∃ b, t.table i = some b ∧
    (s.due i ≤ s.now + 1 → b.state = .ready ∨ b.state = .running) ∧ (s.now + 1 < s.due i → b.state = .sleeping)

/-! ### Deadlines as numbers -/

theorem u32_lt (n : ℕ) : u32 n < 4294967296 := Nat.mod_lt _ (by omega)

theorem unsigned_int32 {n : ℕ} (h : n < 4294967296) : unsigned (int32 n) = n := by
  rw [unsigned, int32]
  split <;> omega

theorem int32_nonneg {n : ℕ} (h : n < 4294967296) : 0 ≤ int32 n ↔ n < 2147483648 := by
  rw [int32]
  split <;> omega

/-- On one side of 2^31 the signed numbers have the order of the deadlines. -/
theorem int32_le_iff {m n : ℕ} (h : m / 2147483648 = n / 2147483648) :
    int32 (u32 m) ≤ int32 (u32 n) ↔ m ≤ n := by
  rw [int32, int32, u32, u32]
  split <;> split <;> omega

theorem sleepTicks_bounds {ms : ℕ} (h : ms < 4294967296) : 1 ≤ sleepTicks ms ∧ sleepTicks ms < 2147483648 := by
  rw [sleepTicks, jiffy]
  split <;> omega

/-! ### The invariant -/

/-- **The invariant**: the deadlines are still to come, before the counter wraps around again, on
one side of 2^31, and `sleep_list` has them in order. -/
structure Ordered (s : Timed) : Prop where
  /-- The invariant of the tasks. -/
  sound : s.sched.Sound
  /-- The tasks that sleep. -/
  asleep : s.sched.Asleep
  /-- The counter. -/
  jiffies : s.sched.jiffies = u32 s.now
  /-- The deadlines. -/
  due : ∀ i a, s.sched.table i = some a → a.state = .sleeping →
    s.now < s.due i ∧ s.due i / 4294967296 = (s.now + 1) / 4294967296 ∧ a.ticks = int32 (u32 (s.due i))
  /-- They are on one side. -/
  side : ∀ i j, s.sched.IsAsleep i → s.sched.IsAsleep j → s.due i / 2147483648 = s.due j / 2147483648
  /-- The list is sorted. -/
  sorted : (s.sched.lists sleepList).Pairwise fun i j => s.due i ≤ s.due j

theorem Start.ordered (h : s.Start) : s.Ordered := by
  obtain ⟨hstart, hlt, hnow⟩ := h
  have hsound := hstart.sound
  have hasleep := hstart.asleep
  obtain ⟨jiffies, hs⟩ := hstart
  have heq := Option.some.inj ((schedule_taskInit jiffies).symm.trans hs)
  have hnone : ∀ i, ¬s.sched.IsAsleep i := by
    rintro i ⟨a, ha, hstate⟩
    rw [← heq] at ha
    have := (state_started ha).1
    rw [hstate] at this
    exact absurd this (by simp)
  refine ⟨hsound, hasleep, ?_, fun i a ha hstate => absurd ⟨a, ha, hstate⟩ (hnone i),
    fun i _ hi => absurd hi (hnone i), ?_⟩
  · rw [hnow, u32_of_lt hlt]
  · rw [← heq]
    exact List.Pairwise.nil

/-- The tasks in the list sleep. -/
theorem Ordered.mem_iff (h : s.Ordered) : i ∈ s.sched.lists sleepList ↔ s.sched.IsAsleep i :=
  h.sound.linked.mem_sleepList h.asleep

/-- **A step that leaves the tasks that sleep alone** keeps the invariant. -/
theorem Ordered.keep (h : s.Ordered) {u : Sched} (hsound : u.Sound) (hasleep : u.Asleep)
    (hjiffies : u.jiffies = s.sched.jiffies) (hlist : u.lists sleepList = s.sched.lists sleepList)
    (hback : ∀ i b, u.table i = some b → b.state = .sleeping →
      ∃ a, s.sched.table i = some a ∧ a.state = .sleeping ∧ b.ticks = a.ticks) :
    Ordered ⟨u, s.now, s.due⟩ := by
  have hsleep : ∀ i, u.IsAsleep i → s.sched.IsAsleep i := by
    rintro i ⟨b, hb, hstate⟩
    obtain ⟨a, ha, hastate, -⟩ := hback i b hb hstate
    exact ⟨a, ha, hastate⟩
  refine ⟨hsound, hasleep, hjiffies.trans h.jiffies, fun i b hb hstate => ?_,
    fun i j hi hj => h.side i j (hsleep i hi) (hsleep j hj), hlist.symm ▸ h.sorted⟩
  obtain ⟨a, ha, hastate, hticks⟩ := hback i b hb hstate
  rw [hticks]
  exact h.due i a ha hastate

/-- **`task_sleep`** with a deadline that can be kept. -/
theorem Ordered.doze (h : s.Ordered) {u : Sched} {ms : ℕ} (hms : ms < 4294967296) (hkeepable : s.Keepable (.sleep ms))
    (hsound : u.Sound) (hasleep : u.Asleep) (hd : Dozes s.sched u ms) :
    Ordered ⟨u, s.now, s.plan (.sleep ms)⟩ := by
  obtain ⟨hone, hbound⟩ := sleepTicks_bounds hms
  obtain ⟨hwrap, hsides⟩ := hkeepable
  obtain ⟨task, ht, hrun⟩ := h.sound.active
  have hjiffies : s.sched.jiffies = s.now % 4294967296 := h.jiffies
  have hsum : u32 (s.sched.jiffies + sleepTicks ms) = u32 (s.now + sleepTicks ms) := by
    rw [hjiffies, u32, u32]
    omega
  have hepoch : (s.now + sleepTicks ms) / 4294967296 = (s.now + 1) / 4294967296 := by omega
  obtain ⟨-, b, -, hb, -, -, -, hbticks⟩ := hd.self
  rw [hsum] at hbticks hsides
  -- the deadlines afterwards
  have hself : s.plan (.sleep ms) s.sched.current = s.now + sleepTicks ms := Function.update_self _ _ _
  have hne : ∀ i, s.sched.IsAsleep i → i ≠ s.sched.current := by
    rintro i ⟨a, ha, hstate⟩ rfl
    obtain rfl := Option.some.inj (ha.symm.trans ht)
    exact absurd (hstate.symm.trans hrun) (by simp)
  have hother : ∀ i, i ≠ s.sched.current → s.plan (.sleep ms) i = s.due i := fun i hi => Function.update_of_ne hi _ _
  have hold : ∀ i a, i ≠ s.sched.current → u.table i = some a → a.state = .sleeping →
      ∃ a', s.sched.table i = some a' ∧ a'.state = .sleeping ∧ a.ticks = a'.ticks := by
    intro i a hi ha hstate
    obtain ⟨a', ha', hab⟩ := hd.back hi ha
    exact ⟨a', ha', hab.sleeping.mp hstate, hab.ticks⟩
  have hdue : ∀ i a, u.table i = some a → a.state = .sleeping → s.now < s.plan (.sleep ms) i ∧
      s.plan (.sleep ms) i / 4294967296 = (s.now + 1) / 4294967296 ∧
      a.ticks = int32 (u32 (s.plan (.sleep ms) i)) := by
    intro i a ha hstate
    by_cases hi : i = s.sched.current
    · subst hi
      obtain rfl := Option.some.inj (ha.symm.trans hb)
      rw [hself]
      exact ⟨by omega, hepoch, hbticks⟩
    · obtain ⟨a', ha', hstate', hticks⟩ := hold i a hi ha hstate
      rw [hother i hi, hticks]
      exact h.due i a' ha' hstate'
  have hside : ∀ i, u.IsAsleep i → s.plan (.sleep ms) i / 2147483648 = (s.now + sleepTicks ms) / 2147483648 := by
    rintro i ⟨a, ha, hstate⟩
    by_cases hi : i = s.sched.current
    · rw [hi, hself]
    · obtain ⟨a', ha', hstate', hticks⟩ := hold i a hi ha hstate
      obtain ⟨-, hepoch', hticks'⟩ := h.due i a' ha' hstate'
      have hsign := hsides i a' ha' hstate'
      rw [hticks', int32_nonneg (u32_lt _), int32_nonneg (u32_lt _), u32, u32] at hsign
      rw [hother i hi]
      omega
  refine ⟨hsound, hasleep, hd.jiffies.trans h.jiffies, hdue, fun i j hi hj => (hside i hi).trans (hside j hj).symm, ?_⟩
  -- the keys of the list are the deadlines
  have hmem : ∀ i, i ∈ u.lists sleepList ↔ u.IsAsleep i := fun i => hsound.linked.mem_sleepList hasleep
  obtain ⟨key, hkey⟩ : ∃ key : ℕ → ℤ, key = fun i => if i = s.sched.current then int32 (u32 (s.now + sleepTicks ms))
    else ((s.sched.table i).map SchedTask.ticks).getD 0 := ⟨_, rfl⟩
  have hlist := hd.list
  rw [hsum, ← hkey] at hlist
  have hkeyold : ∀ i, s.sched.IsAsleep i → key i = int32 (u32 (s.due i)) := by
    intro i hi
    have hic := hne i hi
    obtain ⟨a, ha, hstate⟩ := hi
    simp only [hkey, if_neg hic, ha, Option.map_some, Option.getD_some]
    exact (h.due i a ha hstate).2.2
  have hkeynew : ∀ i, u.IsAsleep i → key i = int32 (u32 (s.plan (.sleep ms) i)) := by
    rintro i ⟨a, ha, hstate⟩
    by_cases hi : i = s.sched.current
    · rw [hi, hself, hkey]
      exact if_pos rfl
    · obtain ⟨a', ha', hstate', -⟩ := hold i a hi ha hstate
      rw [hother i hi, hkeyold i ⟨a', ha', hstate'⟩]
  have hsorted : (s.sched.lists sleepList).Pairwise fun i j => key i ≤ key j := by
    refine h.sorted.imp_of_mem fun {i j} hi hj hle => ?_
    have hi' := h.mem_iff.mp hi
    have hj' := h.mem_iff.mp hj
    rw [hkeyold i hi', hkeyold j hj', int32_le_iff (h.side i j hi' hj')]
    exact hle
  have hinserted : (listInsertSort key s.sched.current (s.sched.lists sleepList)).Pairwise fun i j => key i ≤ key j :=
    pairwise_listInsertSort hsorted
  rw [← hlist] at hinserted
  refine hinserted.imp_of_mem fun {i j} hi hj hle => ?_
  have hi' := (hmem i).mp hi
  have hj' := (hmem j).mp hj
  rwa [hkeynew i hi', hkeynew j hj', int32_le_iff ((hside i hi').trans (hside j hj').symm)] at hle

/-- **`clock_handler`**. -/
theorem Ordered.tick (h : s.Ordered) {u : Sched} {w : List ℕ} (hsound : u.Sound) (hasleep : u.Asleep)
    (hw : Ticks s.sched u w) : Ordered ⟨u, s.now + 1, s.due⟩ ∧ s.OnTime u := by
  have hjiffies : u32 (s.sched.jiffies + 1) = u32 (s.now + 1) := by
    rw [h.jiffies, u32, u32, u32]
    omega
  have hmem : ∀ i, i ∈ u.lists sleepList ↔ u.IsAsleep i := fun i => hsound.linked.mem_sleepList hasleep
  have hnodup := h.sound.linked.nodup sleepList
  have hsorted := h.sorted
  rw [hw.list] at hnodup hsorted
  obtain ⟨-, hrest, -⟩ := List.pairwise_append.mp hsorted
  -- the deadlines are compared as they should be
  have hcompare : ∀ i a, s.sched.table i = some a → a.state = .sleeping →
      (unsigned a.ticks ≤ u32 (s.now + 1) ↔ s.due i ≤ s.now + 1) := by
    intro i a ha hstate
    obtain ⟨-, hepoch, hticks⟩ := h.due i a ha hstate
    rw [hticks, unsigned_int32 (u32_lt _), u32, u32]
    omega
  have hwoken : ∀ i ∈ w, s.due i ≤ s.now + 1 := by
    intro i hi
    obtain ⟨a', ha', hstate⟩ := h.mem_iff.mp (hw.list ▸ List.mem_append_left _ hi)
    obtain ⟨a, ha, hle⟩ := hw.passed i hi
    obtain rfl := Option.some.inj (ha.symm.trans ha')
    exact (hcompare i a ha hstate).mp (hjiffies ▸ hle)
  have hlater : ∀ i ∈ u.lists sleepList, s.now + 1 < s.due i := by
    cases hlist : u.lists sleepList with
    | nil => exact fun i hi => absurd hi List.not_mem_nil
    | cons first rest =>
      have hin : first ∈ s.sched.lists sleepList := by
        rw [hw.list, hlist]
        exact List.mem_append_right _ List.mem_cons_self
      obtain ⟨a', ha', hstate⟩ := h.mem_iff.mp hin
      obtain ⟨a, ha, hlt⟩ := hw.next first (by rw [hlist]; rfl)
      obtain rfl := Option.some.inj (ha.symm.trans ha')
      have hfirst : s.now + 1 < s.due first := by
        by_contra hc
        have := (hcompare first a ha hstate).mpr (by omega)
        omega
      rw [hlist] at hrest
      intro i hi
      rcases List.mem_cons.mp hi with rfl | hi
      · exact hfirst
      · exact hfirst.trans_le ((List.pairwise_cons.mp hrest).1 i hi)
  have hback : ∀ i b, u.table i = some b → b.state = .sleeping →
      ∃ a, s.sched.table i = some a ∧ a.state = .sleeping ∧ b.ticks = a.ticks := by
    intro i b hb hstate
    have hiw : i ∉ w := fun hc => by
      obtain ⟨-, b', -, hb', -, -, hready, -⟩ := hw.woken i hc
      obtain rfl := Option.some.inj (hb.symm.trans hb')
      rcases hready with hready | hready <;> exact absurd (hstate.symm.trans hready) (by simp)
    have hic : i ≠ s.sched.current := by
      rintro rfl
      obtain ⟨a, b', ha, hb', hab⟩ := hw.self
      obtain rfl := Option.some.inj (hb.symm.trans hb')
      obtain ⟨task, ht, hrun⟩ := h.sound.active
      obtain rfl := Option.some.inj (ht.symm.trans ha)
      exact absurd ((hab.sleeping.mp hstate).symm.trans hrun) (by simp)
    obtain ⟨a, ha, hab⟩ := hw.other hiw hic hb
    exact ⟨a, ha, hab.sleeping.mp hstate, hab.ticks⟩
  refine ⟨⟨hsound, hasleep, hw.jiffies.trans hjiffies, fun i b hb hstate => ?_, fun i j hi hj => ?_, hrest⟩,
    fun i hi => ?_⟩
  · obtain ⟨a, ha, hastate, hticks⟩ := hback i b hb hstate
    obtain ⟨-, hepoch, hdue⟩ := h.due i a ha hastate
    have hgt := hlater i ((hmem i).mpr ⟨b, hb, hstate⟩)
    refine ⟨hgt, ?_, hticks.trans hdue⟩
    dsimp only
    omega
  · obtain ⟨b, hb, hbstate⟩ := hi
    obtain ⟨c, hc, hcstate⟩ := hj
    obtain ⟨a, ha, hastate, -⟩ := hback i b hb hbstate
    obtain ⟨d, hd, hdstate, -⟩ := hback j c hc hcstate
    exact h.side i j ⟨a, ha, hastate⟩ ⟨d, hd, hdstate⟩
  · have hin := h.mem_iff.mpr hi
    rw [hw.list] at hin
    rcases List.mem_append.mp hin with hin | hin
    · obtain ⟨-, b, -, hb, -, -, hready, -⟩ := hw.woken i hin
      exact ⟨b, hb, fun _ => hready, fun hc => absurd (hwoken i hin) (by omega)⟩
    · obtain ⟨b, hb, hstate⟩ := (hmem i).mp hin
      exact ⟨b, hb, fun hc => absurd (hlater i hin) (by omega), fun _ => hstate⟩

/-- **A step keeps the invariant**, and a tick wakes up exactly the tasks whose time has come. -/
theorem Ordered.step (h : s.Ordered) (hlegal : s.InTime op) (hkeepable : s.Keepable op) :
    ∃ r t, s.step op = some (r, t) ∧ (op = .clock → s.OnTime t.sched) ∧ t.Ordered := by
  have hin : s.sched.InTime op := by
    cases op with
    | wakeup => exact hlegal.elim
    | _ => exact hlegal
  obtain ⟨r, u, hrun, hsound, hasleep, htime⟩ := h.sound.timeStep h.asleep hin
  refine ⟨r, ⟨u, s.later op, s.plan op⟩, by rw [Timed.step, hrun]; rfl, ?_⟩
  cases htime with
  | keeps hop hk =>
    have hplan : s.later op = s.now ∧ s.plan op = s.due := by
      obtain ⟨hclock, -, hsleep, -⟩ := hop
      cases op with
      | clock => exact absurd rfl hclock
      | sleep ms => exact absurd rfl (hsleep ms)
      | _ => exact ⟨rfl, rfl⟩
    rw [hplan.1, hplan.2]
    refine ⟨fun hc => absurd hc hop.1, h.keep hsound hasleep hk.jiffies hk.list fun i b hb hstate => ?_⟩
    obtain ⟨a, ha, hab⟩ := hk.back hb
    exact ⟨a, ha, hab.sleeping.mp hstate, hab.ticks⟩
  | dozes hd => exact ⟨fun hc => absurd hc (by simp), h.doze hin.2 hkeepable hsound hasleep hd⟩
  | wakes hw => exact hlegal.elim
  | ticks hw =>
    obtain ⟨hord, hon⟩ := h.tick hsound hasleep hw
    exact ⟨fun _ => hon, hord⟩
  | @bears pid _ hb =>
    refine ⟨fun hc => absurd hc (by simp), h.keep hsound hasleep hb.jiffies (by rw [hb.lists]) fun i b hib hstate => ?_⟩
    obtain ⟨-, child, -, hchild, -, -, hready, -⟩ := hb.child
    have hne : i ≠ pid := by
      rintro rfl
      obtain rfl := Option.some.inj (hib.symm.trans hchild)
      exact absurd (hstate.symm.trans hready) (by simp)
    exact ⟨b, (hb.other i hne).symm.trans hib, hstate, rfl⟩

/-- **Tasks wake up on time.** In every run of the kernel, from any value of the counter, in which
`task_sleep` is called with deadlines that can be kept, each tick of the clock makes ready exactly
the tasks for which the number of ticks they asked for has passed since their call. -/
theorem wakeupRun_onTime (ops : List SchedOp) (s : Timed) (hstart : s.Start) (hlegal : Run.Along step InTime s ops)
    (hkeepable : Run.Along step Keepable s ops) :
    Run.Meets step (fun s op _ t => op = .clock → s.OnTime t.sched) s ops :=
  Run.meets_of_inv Ordered (fun _ _ hs hc => hs.step hc.1 hc.2) ops s hstart.ordered (hlegal.and hkeepable)

/-- The first task has been scheduled, at this value of the counter. -/
def startAt (jiffies : ℕ) : Timed := ⟨started jiffies, jiffies, fun _ => 0⟩

theorem start_startAt {jiffies : ℕ} (h : jiffies < 4294967296) : (startAt jiffies).Start :=
  ⟨⟨jiffies, schedule_taskInit jiffies⟩, h, rfl⟩

/-- Init sleeps for two ticks while the counter wraps around. -/
theorem wakeupRun_onTime_wrap : Run.Meets step (fun s op _ t => op = .clock → s.OnTime t.sched) (startAt 4294967295)
    [.sleep 20, .clock, .clock] := by
  refine wakeupRun_onTime _ _ (start_startAt (by decide)) (by decide) ⟨⟨Or.inr rfl, fun i a ha hstate => ?_⟩,
    fun _ _ _ => ⟨trivial, fun _ _ _ => ⟨trivial, fun _ _ _ => trivial⟩⟩⟩
  have hready := (state_started ha).1
  rw [hstate] at hready
  exact absurd hready (by simp)

/-- **A deadline on the other side of 2^31 delays an earlier one**: init sleeps for five ticks, and
then test for twenty; `task_wakeup` finds test first, and init sleeps on. -/
theorem wakeupRun_late : ¬∀ ops s, s.Start → Run.Along step InTime s ops →
    Run.Meets step (fun s op _ t => op = .clock → s.OnTime t.sched) s ops := by
  intro h
  have hrun := h ([.sleep 50, .sleep 200, .clock, .clock, .clock, .clock] ++ [.clock]) (startAt 2147483638)
    (start_startAt (by decide)) (by decide)
  obtain ⟨s, r, t, hexec, hstep, hpost⟩ := hrun.last
  have hstate : ((Run.exec step (startAt 2147483638) [.sleep 50, .sleep 200, .clock, .clock, .clock, .clock]).map
      fun s => (s.now, s.due 1, (s.sched.table 1).map SchedTask.state,
        (s.step .clock).map fun p => (p.2.sched.table 1).map SchedTask.state)) =
      some (2147483642, 2147483643, some .sleeping, some (some .sleeping)) := by decide
  rw [hexec, Option.map_some, hstep, Option.map_some] at hstate
  obtain ⟨hnow, hdue, hbefore, hafter⟩ := by simpa using hstate
  obtain ⟨a, ha, hastate⟩ := hbefore
  obtain ⟨b, hb, hready, -⟩ := hpost rfl 1 ⟨a, ha, hastate⟩
  obtain ⟨c, hc, hcstate⟩ := hafter
  obtain rfl := Option.some.inj (hb.symm.trans hc)
  rcases hready (by omega) with hready | hready <;> exact absurd (hcstate.symm.trans hready) (by simp)

end Timed

end Onixs
