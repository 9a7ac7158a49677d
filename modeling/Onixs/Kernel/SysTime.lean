import Onixs.Common.Run
import Onixs.Kernel.SchedRun

/-!
# The time of day

`sys_time` scales `jiffies` to milliseconds before it divides by 1000, in 32 bits. The product wraps around ten times as
often as the counter does, and the time then goes back to where the system was started: for the first time at tick
429496730, after 49 days. Between two such ticks the time goes forward a second every 100 ticks
(`Onixs.Sched.timeForward_iff`).
-/

namespace Onixs

namespace Sched

open Run

variable {s t : Sched} {op : SchedOp} {ops : List SchedOp} {r : SchedRet}

/-- `sys_time`, in a system that was started at `startupTime`. -/
def sysTime (startupTime : ℕ) (s : Sched) : ℕ := u32 (startupTime + u32 (s.jiffies * jiffy) / 1000)

/-- An interrupt of the clock. -/
def isClock : SchedOp → Bool
  | .clock => true
  | _ => false

/-- The interrupts of the clock in a run. -/
def ticks (ops : List SchedOp) : ℕ := ops.countP isClock

/-! ### Only the clock counts -/

theorem schedule_jiffies (h : s.schedule = some t) : t.jiffies = s.jiffies := by
  obtain ⟨next, -, h⟩ := Option.bind_eq_some_iff.mp h
  obtain ⟨task, -, h⟩ := Option.bind_eq_some_iff.mp h
  obtain rfl := Option.some.inj h
  rfl

theorem taskBlock_jiffies {list : ℕ} {state : TaskState} (h : s.taskBlock list state = some t) :
    t.jiffies = s.jiffies := by
  obtain ⟨task, -, h⟩ := Option.bind_eq_some_iff.mp h
  obtain ⟨_, -, h⟩ := Option.bind_eq_some_iff.mp h
  obtain ⟨_, -, h⟩ := Option.bind_eq_some_iff.mp h
  obtain ⟨_, -, h⟩ := Option.bind_eq_some_iff.mp h
  exact (schedule_jiffies h).trans rfl

theorem taskUnblock_jiffies {i : ℕ} (h : s.taskUnblock i = some t) : t.jiffies = s.jiffies := by
  obtain ⟨task, -, h⟩ := Option.bind_eq_some_iff.mp h
  obtain ⟨list, -, h⟩ := Option.bind_eq_some_iff.mp h
  obtain rfl := Option.some.inj h
  rfl

theorem wakeLoop_jiffies : ∀ (tasks : List ℕ) (s : Sched), wakeLoop tasks s = some t → t.jiffies = s.jiffies := by
  intro tasks
  induction tasks with
  | nil =>
    intro s h
    obtain rfl := Option.some.inj h
    rfl
  | cons i tasks ih =>
    intro s h
    obtain ⟨task, -, h⟩ := Option.bind_eq_some_iff.mp h
    split at h
    · obtain rfl := Option.some.inj h
      rfl
    · obtain ⟨u, hu, h⟩ := Option.bind_eq_some_iff.mp h
      exact (ih u h).trans ((taskUnblock_jiffies hu).trans rfl)

theorem taskSleep_jiffies {ms : ℕ} (h : s.taskSleep ms = some t) : t.jiffies = s.jiffies := by
  obtain ⟨task, -, h⟩ := Option.bind_eq_some_iff.mp h
  obtain ⟨_, -, h⟩ := Option.bind_eq_some_iff.mp h
  exact (schedule_jiffies h).trans rfl

/-- **A tick** counts. -/
theorem clockHandler_jiffies (h : s.clockHandler = some t) : t.jiffies = u32 (s.jiffies + 1) := by
  obtain ⟨u, hu, h⟩ := Option.bind_eq_some_iff.mp h
  have hjiffies : u.jiffies = u32 (s.jiffies + 1) := wakeLoop_jiffies _ _ hu
  obtain ⟨task, -, h⟩ := Option.bind_eq_some_iff.mp h
  split at h
  · exact (schedule_jiffies h).trans hjiffies
  · obtain rfl := Option.some.inj h
    exact hjiffies

theorem taskFork_jiffies (h : s.taskFork = some (r, t)) : t.jiffies = s.jiffies := by
  obtain ⟨task, -, h⟩ := Option.bind_eq_some_iff.mp h
  obtain ⟨_, -, h⟩ := Option.bind_eq_some_iff.mp h
  obtain ⟨pid, -, h⟩ := Option.bind_eq_some_iff.mp h
  obtain ⟨-, rfl⟩ := Prod.mk.inj (Option.some.inj h)
  rfl

theorem die_jiffies {status : ℤ} (h : s.die status = some t) : t.jiffies = s.jiffies := by
  obtain ⟨task, -, h⟩ := Option.bind_eq_some_iff.mp h
  obtain ⟨_, -, h⟩ := Option.bind_eq_some_iff.mp h
  obtain rfl := Option.some.inj h
  rfl

theorem leave_jiffies (h : s.leave = some t) : t.jiffies = s.jiffies := by
  obtain ⟨task, -, h⟩ := Option.bind_eq_some_iff.mp h
  obtain ⟨u, hu, h⟩ := Option.bind_eq_some_iff.mp h
  refine (schedule_jiffies h).trans ?_
  obtain ⟨parent, -, hu⟩ := Option.bind_eq_some_iff.mp hu
  split at hu
  · exact (taskUnblock_jiffies hu).trans rfl
  · obtain rfl := Option.some.inj hu
    rfl

theorem taskWaitpid_jiffies {pid : ℤ} (h : s.taskWaitpid pid = some (r, t)) : t.jiffies = s.jiffies := by
  obtain ⟨task, -, h⟩ := Option.bind_eq_some_iff.mp h
  split at h
  · obtain ⟨child, -, h⟩ := Option.bind_eq_some_iff.mp h
    obtain ⟨-, rfl⟩ := Prod.mk.inj (Option.some.inj h)
    rfl
  · split at h
    · obtain ⟨u, hu, h⟩ := Option.bind_eq_some_iff.mp h
      obtain ⟨-, rfl⟩ := Prod.mk.inj (Option.some.inj h)
      exact (taskBlock_jiffies hu).trans rfl
    · obtain ⟨-, rfl⟩ := Prod.mk.inj (Option.some.inj h)
      rfl

/-- **A call**: the clock counts, and nothing else. -/
theorem step_jiffies (h : s.step op = some (r, t)) :
    t.jiffies = if isClock op then u32 (s.jiffies + 1) else s.jiffies := by
  have hunit : ∀ {o : Option Sched}, o.map (fun u => (SchedRet.unit, u)) = some (r, t) → o = some t := by
    intro o ho
    obtain ⟨u, hu, heq⟩ := Option.map_eq_some_iff.mp ho
    rw [hu, (Prod.mk.inj heq).2]
  cases op with
  | schedule => exact schedule_jiffies (hunit h)
  | block list => exact taskBlock_jiffies (hunit h)
  | unblock i => exact taskUnblock_jiffies (hunit h)
  | sleep ms => exact taskSleep_jiffies (hunit h)
  | wakeup => exact wakeLoop_jiffies _ _ (hunit h)
  | clock => exact clockHandler_jiffies (hunit h)
  | fork => exact taskFork_jiffies h
  | waitpid pid => exact taskWaitpid_jiffies h
  | exit status =>
    obtain ⟨u, hdie, hleave⟩ := Option.bind_eq_some_iff.mp (hunit h)
    exact (leave_jiffies hleave).trans (die_jiffies hdie)
  | die status => exact die_jiffies (hunit h)
  | leave => exact leave_jiffies (hunit h)

theorem exec_jiffies (h : exec step s ops = some t) (hwrap : s.jiffies + ticks ops < 4294967296) :
    t.jiffies = s.jiffies + ticks ops := by
  induction ops generalizing s with
  | nil => exact congrArg Sched.jiffies (Option.some.inj h).symm
  | cons op ops ih =>
    obtain ⟨r, u, hstep, h⟩ := exec_cons.mp h
    have hu := step_jiffies hstep
    rw [ticks, List.countP_cons, ← ticks] at hwrap ⊢
    split at hu
    next hclock =>
      rw [if_pos hclock] at hwrap ⊢
      rw [u32_of_lt (by omega)] at hu
      rw [ih h (by omega)]
      omega
    next hclock =>
      rw [if_neg hclock] at hwrap ⊢
      rw [ih h (by omega)]
      omega

/-! ### The numbers -/

/-- The lap of the product `jiffies * JIFFY`. -/
def lap (jiffies : ℕ) : ℕ := jiffies * 10 / 4294967296

theorem sysTime_eq {startupTime : ℕ} (h : startupTime < 2 ^ 31) :
    s.sysTime startupTime = startupTime + s.jiffies * 10 % 4294967296 / 1000 := by
  rw [sysTime, jiffy, u32, u32, Nat.mod_eq_of_lt]
  omega

/-- In one lap the quotient grows as the counter does. -/
theorem quotient_of_lap {i j : ℕ} (hij : i ≤ j) (h : lap i = lap j) :
    i * 10 % 4294967296 / 1000 ≤ j * 10 % 4294967296 / 1000 ∧
      (j = i + 100 → j * 10 % 4294967296 / 1000 = i * 10 % 4294967296 / 1000 + 1) := by
  rw [lap, lap] at h
  omega

/-- With the tick that begins a lap the quotient falls to 0. -/
theorem lap_of_quotient_le {i : ℕ} (h : i * 10 % 4294967296 / 1000 ≤ (i + 1) * 10 % 4294967296 / 1000) :
    lap (i + 1) = lap i := by
  rw [lap, lap]
  omega

theorem lap_mono {i j : ℕ} (h : i ≤ j) : lap i ≤ lap j := Nat.div_le_div_right (Nat.mul_le_mul_right _ h)

/-! ### Runs -/

/-- **The time goes forward in a run**: it never goes back, and it grows by a second with every `1000 / JIFFY` ticks. -/
def TimeForward (startupTime : ℕ) (s : Sched) (ops : List SchedOp) : Prop :=
  ∀ pre mid t u, pre ++ mid <+: ops → exec step s pre = some t → exec step t mid = some u →
    t.sysTime startupTime ≤ u.sysTime startupTime ∧
      (ticks mid = 1000 / jiffy → u.sysTime startupTime = t.sysTime startupTime + 1)

theorem TimeForward.tail {startupTime : ℕ} (h : TimeForward startupTime s (op :: ops)) (hstep : s.step op = some (r, t)) :
    TimeForward startupTime t ops := by
  intro pre mid u v hpre hu hv
  exact h (op :: pre) mid u v (List.prefix_cons_inj op |>.mpr hpre) (exec_cons.mpr ⟨r, t, hstep, hu⟩) hv

/-- The time that never goes back stays in the lap. -/
theorem TimeForward.lap_eq {startupTime : ℕ} (hstartup : startupTime < 2 ^ 31) : ∀ {ops : List SchedOp} {s : Sched},
    TimeForward startupTime s ops → exec step s ops = some t → s.jiffies + ticks ops < 4294967296 →
      lap (s.jiffies + ticks ops) = lap s.jiffies := by
  intro ops
  induction ops with
  | nil => exact fun _ _ _ => rfl
  | cons op ops ih =>
    intro s hforward hrun hwrap
    obtain ⟨r, u, hstep, hrun⟩ := exec_cons.mp hrun
    have hu := step_jiffies hstep
    have hfirst := (hforward [] [op] s u (List.prefix_append [op] ops) rfl (exec_cons.mpr ⟨r, u, hstep, rfl⟩)).1
    have hrest := ih (hforward.tail hstep) hrun
    rw [ticks, List.countP_cons, ← ticks] at hwrap ⊢
    split at hu
    next hclock =>
      rw [if_pos hclock] at hwrap ⊢
      rw [u32_of_lt (by omega)] at hu
      rw [sysTime_eq hstartup, sysTime_eq hstartup, hu] at hfirst
      rw [hu, Nat.add_right_comm, Nat.add_assoc] at hrest
      exact (hrest (by omega)).trans (lap_of_quotient_le (Nat.le_of_add_le_add_left hfirst))
    next hclock =>
      rw [if_neg hclock] at hwrap ⊢
      rw [hu] at hrest
      exact hrest hwrap

/-- **When the time goes forward**: in a run in which `jiffies` does not wrap around, the time never goes back and grows by
a second every 100 ticks exactly when the product of `jiffies` and `JIFFY` does not wrap around either. -/
theorem timeForward_iff {startupTime : ℕ} (hstartup : startupTime < 2 ^ 31) (hrun : exec step s ops = some t)
    (hwrap : s.jiffies + ticks ops < 2 ^ 32) :
    TimeForward startupTime s ops ↔
      (s.jiffies + ticks ops) * jiffy / 2 ^ 32 = s.jiffies * jiffy / 2 ^ 32 := by
  constructor
  · exact fun h => h.lap_eq hstartup hrun hwrap
  · intro hlap pre mid u v hpre hu hv
    obtain ⟨post, rfl⟩ := hpre
    have hticks : ticks (pre ++ mid ++ post) = ticks pre + ticks mid + ticks post := by
      rw [ticks, List.countP_append, List.countP_append]
      rfl
    rw [hticks] at hwrap hlap
    have hjiffies := exec_jiffies hu (by omega)
    have hjiffies' := exec_jiffies hv (by omega)
    -- the ends of the run lie in one lap, and so does what is between them
    have hin : lap u.jiffies = lap v.jiffies := by
      have hlow : lap s.jiffies ≤ lap u.jiffies := lap_mono (by omega)
      have hmid : lap u.jiffies ≤ lap v.jiffies := lap_mono (by omega)
      have hhigh : lap v.jiffies ≤ lap (s.jiffies + (ticks pre + ticks mid + ticks post)) := lap_mono (by omega)
      have hends : lap (s.jiffies + (ticks pre + ticks mid + ticks post)) = lap s.jiffies := hlap
      omega
    obtain ⟨hle, hsecond⟩ := quotient_of_lap (by omega) hin
    rw [sysTime_eq hstartup, sysTime_eq hstartup]
    refine ⟨Nat.add_le_add_left hle _, fun h => ?_⟩
    rw [hsecond (by rw [hjiffies', h, jiffy]), Nat.add_assoc]

/-- The clock ticks as often as one likes. -/
theorem Linked.exec_clocks : ∀ (n : ℕ) {s : Sched}, s.Linked → ∃ t, exec step s (List.replicate n .clock) = some t := by
  intro n
  induction n with
  | zero => exact fun {s} _ => ⟨s, rfl⟩
  | succ n ih =>
    intro s h
    obtain ⟨u, hclock, hu, -⟩ := h.clockHandler
    obtain ⟨t, ht⟩ := ih hu
    exact ⟨t, exec_cons.mpr ⟨.unit, u, Option.map_eq_some_iff.mpr ⟨u, hclock, rfl⟩, ht⟩⟩

theorem ticks_clocks (n : ℕ) : ticks (List.replicate n .clock) = n := by
  rw [ticks, List.countP_replicate]
  rfl

theorem timeForward_iff_second : TimeForward 0 (started 0) (List.replicate 100 .clock) ↔
    ((started 0).jiffies + ticks (List.replicate 100 .clock)) * jiffy / 2 ^ 32 = (started 0).jiffies * jiffy / 2 ^ 32 := by
  obtain ⟨t, ht⟩ := (sound_started 0).linked.exec_clocks 100
  exact timeForward_iff (by decide) ht (by rw [ticks_clocks]; decide)

/-- **The time goes back** in the run of 429496730 ticks from the start of the system on. -/
theorem timeForward_back : ∃ t, exec step (started 0) (List.replicate 429496730 .clock) = some t ∧
    (started 0).jiffies + ticks (List.replicate 429496730 .clock) < 2 ^ 32 ∧
    ¬TimeForward 0 (started 0) (List.replicate 429496730 .clock) := by
  obtain ⟨t, ht⟩ := (sound_started 0).linked.exec_clocks 429496730
  have hwrap : (started 0).jiffies + ticks (List.replicate 429496730 .clock) < 2 ^ 32 := by
    rw [ticks_clocks]
    decide
  refine ⟨t, ht, hwrap, fun h => ?_⟩
  have hlap := h.lap_eq (by decide) ht hwrap
  rw [ticks_clocks] at hlap
  exact absurd hlap (by decide)

end Sched

end Onixs
