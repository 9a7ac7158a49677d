import Onixs.Kernel.SchedTicks

/-!
# Preemption

A task that runs has between one tick and its priority when `clock_handler` is entered, so that it
runs for at most so many ticks before `schedule` takes its turn. The exception are the tasks that
`task_wakeup` has woken: it leaves them with no ticks at all, and `clock_handler`, which counts
down and compares with zero, takes them below (`Onixs.Watched.clockRun_slice_iff`).
-/

namespace Onixs

namespace Sched

variable {s t u : Sched} {i : ℕ} {a b task : SchedTask}

/-- **The running task has a tick, and no more than its priority.** -/
def InSlice (s : Sched) : Prop :=
  ∃ task, s.table s.current = some task ∧ 1 ≤ task.ticks ∧ task.ticks ≤ task.priority

/-- The next tick is the last one: `clock_handler` calls `schedule`. -/
def Expires (s : Sched) : Prop :=
  (∃ task, s.table s.current = some task ∧ task.ticks = 1) ∧
    ∀ t, s.clockHandler = some t → ∃ u : Sched, u.current = s.current ∧ u.schedule = some t

/-- **The running task is preempted** before it has had more ticks than its priority, should it do
nothing else than run. -/
def Preempted (s : Sched) : Prop :=
  ∃ task k u, s.table s.current = some task ∧ k < task.priority ∧
    Run.exec step s (List.replicate k .clock) = some u ∧ u.current = s.current ∧ u.Expires

/-- A slice is used up tick by tick. -/
theorem Sound.exec_clock (n : ℕ) : ∀ {s : Sched} {task : SchedTask}, s.Sound → s.Asleep →
    s.table s.current = some task → task.ticks = n + 1 →
    ∃ u, Run.exec Sched.step s (List.replicate n .clock) = some u ∧ u.current = s.current ∧ u.Expires := by
  induction n with
  | zero =>
    intro s task h hasleep ht hticks
    refine ⟨s, rfl, rfl, ⟨task, ht, by rw [hticks]; rfl⟩, fun t hrun => ?_⟩
    obtain ⟨w, hw⟩ := h.ticks_clock hasleep hrun
    exact hw.ends task ht (by rw [hticks]; rfl)
  | succ n ih =>
    intro s task h hasleep ht hticks
    have hne : task.ticks ≠ 1 := by omega
    have hin : s.InTime .clock := ⟨trivial, trivial⟩
    obtain ⟨r, t, hrun, hsound, hasleep', htime⟩ := h.timeStep hasleep hin
    cases htime with
    | keeps hop _ => exact absurd rfl hop.1
    | ticks hw =>
      obtain ⟨a, b, ha, hb, hab⟩ := hw.self
      obtain rfl := Option.some.inj (ht.symm.trans ha)
      have hcurrent := hw.goes task ht hne
      have hbticks : b.ticks = n + 1 := by
        have := hab.ticks
        simp only [if_neg hne] at this
        omega
      obtain ⟨u, hexec, hu, hexp⟩ := ih hsound hasleep' (hcurrent ▸ hb) hbticks
      refine ⟨u, ?_, hu.trans hcurrent, hexp⟩
      rw [List.replicate_succ, Run.exec, hrun]
      exact hexec

/-- **A running task with a slice is preempted.** -/
theorem InSlice.preempted (hslice : s.InSlice) (h : s.Sound) (hasleep : s.Asleep) : s.Preempted := by
  obtain ⟨task, ht, hone, hle⟩ := hslice
  obtain ⟨n, hn⟩ : ∃ n : ℕ, task.ticks = n + 1 := ⟨(task.ticks - 1).toNat, by omega⟩
  obtain ⟨u, hexec, hu, hexp⟩ := h.exec_clock n hasleep ht hn
  exact ⟨task, n, u, ht, by omega, hexec, hu, hexp⟩

end Sched

open Sched

/-- The tasks, and which of them have been woken by `task_wakeup`. -/
structure Watched where
  /-- The tasks. -/
  sched : Sched
  /-- Those that have been woken. -/
  woken : List ℕ

namespace Watched

variable {s t : Watched} {i : ℕ} {op : SchedOp} {r : SchedRet}

/-- The tasks that have been woken, after a step to `t`. A child has not. -/
def mark (s : Watched) (t : Sched) : SchedOp → SchedRet → List ℕ
  | .clock, _ => s.woken ++ (s.sched.lists sleepList).filter (· ∉ t.lists sleepList)
  | .wakeup, _ => s.woken ++ (s.sched.lists sleepList).filter (· ∉ t.lists sleepList)
  | _, .forked pid => s.woken.filter (· ≠ pid)
  | _, _ => s.woken

/-- A call. -/
def step (s : Watched) (op : SchedOp) : Option (SchedRet × Watched) :=
  (s.sched.step op).map fun p => (p.1, ⟨p.2, s.mark p.2 op p.1⟩)

/-- The first task has been scheduled. -/
def Start (s : Watched) : Prop := s.sched.Start ∧ s.woken = []

/-- **The invariant**: whoever does not sleep has a slice, or has been woken and has no tick. -/
structure Sliced (s : Watched) : Prop where
  /-- The invariant of the tasks. -/
  sound : s.sched.Sound
  /-- The tasks that sleep. -/
  asleep : s.sched.Asleep
  /-- The priorities are `int`s. -/
  priority : ∀ i a, s.sched.table i = some a → 1 ≤ a.priority ∧ a.priority < 2147483648
  /-- The slices. -/
  slice : ∀ i a, s.sched.table i = some a → a.state ≠ .sleeping → i ∉ s.woken → 1 ≤ a.ticks ∧ a.ticks ≤ a.priority
  /-- The tasks without. -/
  zero : ∀ i a, s.sched.table i = some a → a.state ≠ .sleeping → i ∈ s.woken → a.ticks = 0

theorem Start.sliced (h : s.Start) : s.Sliced := by
  obtain ⟨hstart, hwoken⟩ := h
  have hsound := hstart.sound
  have hasleep := hstart.asleep
  obtain ⟨jiffies, hs⟩ := hstart
  have heq := Option.some.inj ((schedule_taskInit jiffies).symm.trans hs)
  have hall : ∀ i a, s.sched.table i = some a → 1 ≤ a.priority ∧ a.priority < 2147483648 ∧
      1 ≤ a.ticks ∧ a.ticks ≤ a.priority := by
    intro i a ha
    rw [← heq] at ha
    rcases table_started ha with ⟨-, rfl⟩ | ⟨-, rfl⟩ | ⟨-, rfl⟩ <;> simp [Sched.taskCreate]
  refine ⟨hsound, hasleep, fun i a ha => ⟨(hall i a ha).1, (hall i a ha).2.1⟩,
    fun i a ha _ _ => (hall i a ha).2.2, fun i a _ _ hi => ?_⟩
  rw [hwoken] at hi
  exact absurd hi List.not_mem_nil

/-- The slices of tasks whose ticks are what they were. -/
theorem Sliced.of_same (h : s.Sliced) (hsound : t.sched.Sound) (hasleep : t.sched.Asleep)
    (hback : ∀ i b, t.sched.table i = some b →
      (∃ a, s.sched.table i = some a ∧ SameTime a b ∧ (i ∈ t.woken ↔ i ∈ s.woken)) ∨
      1 ≤ b.priority ∧ b.priority < 2147483648 ∧ (b.state ≠ .sleeping →
        (i ∉ t.woken → 1 ≤ b.ticks ∧ b.ticks ≤ b.priority) ∧ (i ∈ t.woken → b.ticks = 0))) : t.Sliced := by
  refine ⟨hsound, hasleep, fun i b hb => ?_, fun i b hb hstate hi => ?_, fun i b hb hstate hi => ?_⟩
  · rcases hback i b hb with ⟨a, ha, hab, -⟩ | ⟨h1, h2, -⟩
    · rw [hab.priority]
      exact h.priority i a ha
    · exact ⟨h1, h2⟩
  · rcases hback i b hb with ⟨a, ha, hab, hiff⟩ | ⟨-, -, hnew⟩
    · rw [hab.ticks, hab.priority]
      exact h.slice i a ha (fun hc => hstate (hab.sleeping.mpr hc)) fun hc => hi (hiff.mpr hc)
    · exact (hnew hstate).1 hi
  · rcases hback i b hb with ⟨a, ha, hab, hiff⟩ | ⟨-, -, hnew⟩
    · rw [hab.ticks]
      exact h.zero i a ha (fun hc => hstate (hab.sleeping.mpr hc)) (hiff.mp hi)
    · exact (hnew hstate).2 hi

/-- The front of `sleep_list` is what has gone from it. -/
theorem mem_mark {u : Sched} {w : List ℕ} (h : s.sched.Linked) (hlist : s.sched.lists sleepList = w ++ u.lists sleepList) :
    i ∈ s.woken ++ (s.sched.lists sleepList).filter (· ∉ u.lists sleepList) ↔ i ∈ s.woken ∨ i ∈ w := by
  have hnodup := h.nodup sleepList
  rw [hlist] at hnodup
  rw [List.mem_append, List.mem_filter, hlist, List.mem_append, decide_eq_true_eq]
  refine or_congr_right ⟨fun hi => hi.1.resolve_right hi.2, fun hi => ⟨Or.inl hi, fun hc => ?_⟩⟩
  exact List.disjoint_of_nodup_append hnodup hi hc

/-- Only a tick, a wake-up and a child change who has been woken. -/
theorem mark_of_keeps {u : Sched}
    (hop : op ≠ .clock ∧ op ≠ .wakeup ∧ (∀ ms, op ≠ .sleep ms) ∧ ∀ pid, r ≠ .forked pid) :
    s.mark u op r = s.woken := by
  obtain ⟨hclock, hwakeup, -, hfork⟩ := hop
  cases r with
  | forked pid => exact absurd rfl (hfork pid)
  | _ =>
    cases op with
    | clock => exact absurd rfl hclock
    | wakeup => exact absurd rfl hwakeup
    | _ => rfl

/-- **A step keeps the invariant**, unless the clock ticks for a task that has been woken. -/
theorem Sliced.step (h : s.Sliced) (hlegal : s.sched.InTime op) (hcond : op = .clock → s.sched.current ∉ s.woken) :
    ∃ r t, s.step op = some (r, t) ∧ t.Sliced := by
  obtain ⟨r, u, hrun, hsound, hasleep, htime⟩ := h.sound.timeStep h.asleep hlegal
  refine ⟨r, ⟨u, s.mark u op r⟩, by rw [Watched.step, hrun]; rfl, h.of_same hsound hasleep fun i b hb => ?_⟩
  dsimp only at hb ⊢
  cases htime with
  | keeps hop hk =>
    obtain ⟨a, ha, hab⟩ := hk.back hb
    exact Or.inl ⟨a, ha, hab, by rw [mark_of_keeps hop]⟩
  | dozes hd =>
    by_cases hi : i = s.sched.current
    · obtain ⟨a, b', ha, hb', hstate, -, hprio, -⟩ := hd.self
      obtain rfl := Option.some.inj ((hi ▸ hb).symm.trans hb')
      rw [hprio]
      exact Or.inr ⟨(h.priority _ a ha).1, (h.priority _ a ha).2, fun hc => absurd hstate hc⟩
    · obtain ⟨a, ha, hab⟩ := hd.back hi hb
      exact Or.inl ⟨a, ha, hab, Iff.rfl⟩
  | @wakes w _ hw =>
    have hmark : i ∈ s.mark u .wakeup .unit ↔ i ∈ s.woken ∨ i ∈ w := mem_mark h.sound.linked hw.list
    rw [hw.table] at hb
    split at hb
    next hi =>
      obtain ⟨a, ha, rfl⟩ := Option.map_eq_some_iff.mp hb
      exact Or.inr ⟨(h.priority i a ha).1, (h.priority i a ha).2, fun _ =>
        ⟨fun hc => absurd (hmark.mpr (Or.inr hi)) hc, fun _ => rfl⟩⟩
    next hi => exact Or.inl ⟨b, hb, SameTime.refl b, hmark.trans (or_iff_left hi)⟩
  | @ticks w _ hw =>
    have hmark : i ∈ s.mark u .clock .unit ↔ i ∈ s.woken ∨ i ∈ w := mem_mark h.sound.linked hw.list
    by_cases hi : i ∈ w
    · obtain ⟨a, b', ha, hb', hticks, hprio, -, -⟩ := hw.woken i hi
      obtain rfl := Option.some.inj (hb.symm.trans hb')
      rw [hprio]
      exact Or.inr ⟨(h.priority i a ha).1, (h.priority i a ha).2, fun _ =>
        ⟨fun hc => absurd (hmark.mpr (Or.inr hi)) hc, fun _ => hticks⟩⟩
    · by_cases hcur : i = s.sched.current
      · -- the running task has not been woken, and has its ticks again when they are used up
        obtain ⟨a, b', ha, hb', hab⟩ := hw.self
        obtain rfl := Option.some.inj ((hcur ▸ hb).symm.trans hb')
        obtain ⟨task, ht, hrunning⟩ := h.sound.active
        obtain rfl := Option.some.inj (ha.symm.trans ht)
        have hnot := hcond rfl
        obtain ⟨hlo, hhi⟩ := h.slice _ a ha (by rw [hrunning]; simp) hnot
        obtain ⟨hp, hp'⟩ := h.priority _ a ha
        have hbp : b.priority = a.priority := hab.priority
        have hbt : b.ticks = if a.ticks = 1 then int32 a.priority else a.ticks - 1 := hab.ticks
        rw [int32_of_lt hp'] at hbt
        refine Or.inr ⟨by omega, by omega, fun _ => ⟨fun _ => ?_, fun hc => ?_⟩⟩
        · rw [hbt, hbp]
          split <;> omega
        · rcases hmark.mp hc with hc | hc
          · exact absurd (hcur ▸ hc) hnot
          · exact absurd hc hi
      · obtain ⟨a, ha, hab⟩ := hw.other hi hcur hb
        exact Or.inl ⟨a, ha, hab, hmark.trans (or_iff_left hi)⟩
  | @bears pid _ hbear =>
    have hmark : i ∈ s.mark u .fork (.forked pid) ↔ i ∈ s.woken ∧ i ≠ pid :=
      List.mem_filter.trans (and_congr_right fun _ => by simp)
    by_cases hi : i = pid
    · obtain ⟨a, child, ha, hchild, hticks, hprio, -, -⟩ := hbear.child
      obtain rfl := Option.some.inj ((hi ▸ hb).symm.trans hchild)
      obtain ⟨hp, hp'⟩ := h.priority _ a ha
      rw [int32_of_lt hp'] at hticks
      refine Or.inr ⟨by omega, by omega, fun _ => ⟨fun _ => by omega, fun hc => ?_⟩⟩
      exact absurd hi (hmark.mp hc).2
    · rw [hbear.other i hi] at hb
      exact Or.inl ⟨b, hb, SameTime.refl b, hmark.trans (and_iff_left hi)⟩

/-- The running task has a slice exactly when it has not been woken. -/
theorem Sliced.inSlice_iff (h : s.Sliced) : s.sched.InSlice ↔ s.sched.current ∉ s.woken := by
  obtain ⟨task, ht, hrun⟩ := h.sound.active
  have hstate : task.state ≠ .sleeping := by
    rw [hrun]
    simp
  constructor
  · rintro ⟨a, ha, hone, -⟩ hc
    obtain rfl := Option.some.inj (ht.symm.trans ha)
    have := h.zero _ _ ht hstate hc
    omega
  · exact fun hc => ⟨task, ht, h.slice _ _ ht hstate hc⟩

/-- **Preemption.** In a run of the kernel the running task has between one tick and its priority
whenever `clock_handler` is entered, and is preempted within its priority, as long as the clock
never ticks for a task that has been woken by `task_wakeup`; when it does, the task has no tick. -/
theorem clockRun_slice_iff (ops : List SchedOp) (s : Watched) (hstart : s.Start)
    (hlegal : Run.Along step (fun s op => s.sched.InTime op) s ops) :
    Run.Meets step (fun s op _ _ => op = .clock → s.sched.InSlice ∧ s.sched.Preempted) s ops ↔
      Run.Along step (fun s op => op = .clock → s.sched.current ∉ s.woken) s ops := by
  refine Run.meets_iff_along Sliced (fun s op hs hl => ⟨?_, fun hcond => ?_⟩) (fun s op r t hs hl hrun hpost => ?_)
    ops s hstart.sliced hlegal
  · rintro ⟨r, t, -, hpost⟩ hop
    exact hs.inSlice_iff.mp (hpost hop).1
  · obtain ⟨r, t, hrun, -⟩ := hs.step hl hcond
    refine ⟨r, t, hrun, fun hop => ?_⟩
    have hslice := hs.inSlice_iff.mpr (hcond hop)
    exact ⟨hslice, hslice.preempted hs.sound hs.asleep⟩
  · obtain ⟨r', t', hrun', ht'⟩ := hs.step hl fun hop => hs.inSlice_iff.mp (hpost hop).1
    obtain ⟨-, rfl⟩ := Prod.mk.inj (Option.some.inj (hrun.symm.trans hrun'))
    exact ht'

/-- Init forks and sleeps; the child is preempted when its slice is used up. -/
theorem clockRun_slice_iff_fork :
    Run.Meets step (fun s op _ _ => op = .clock → s.sched.InSlice ∧ s.sched.Preempted) ⟨started 0, []⟩
        [.fork, .clock, .sleep 20, .clock, .clock, .schedule] ↔
      Run.Along step (fun s op => op = .clock → s.sched.current ∉ s.woken) ⟨started 0, []⟩
        [.fork, .clock, .sleep 20, .clock, .clock, .schedule] :=
  clockRun_slice_iff _ _ ⟨⟨0, schedule_taskInit 0⟩, rfl⟩ (by decide)

/-- **Init runs without a tick** once it has slept for a tick and nobody else is ready. -/
theorem clockRun_woken : ¬∀ ops s, s.Start → Run.Along Sched.step InTime s ops →
    Run.Along Sched.step (fun s op => op = .clock → s.InSlice) s ops := by
  intro h
  have hticks : (Run.exec Sched.step (started 0) [.sleep 10, .clock, .block 0, .schedule]).map
      (fun t => (t.table t.current).map SchedTask.ticks) = some (some 0) := by decide
  obtain ⟨t, hexec, ht⟩ := Option.map_eq_some_iff.mp hticks
  have hrun := h ([.sleep 10, .clock, .block 0, .schedule] ++ [.clock]) (started 0) ⟨0, schedule_taskInit 0⟩
    (by decide)
  obtain ⟨task, htask, hone, -⟩ := ((Run.along_append.mp hrun).2 t hexec).1 rfl
  rw [htask] at ht
  have := Option.some.inj ht
  omega

end Watched

end Onixs
