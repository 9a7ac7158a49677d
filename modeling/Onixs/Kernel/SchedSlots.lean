import Onixs.Kernel.SchedTicks

/-!
# What becomes of the tasks in a step

`task_searchTask` reads the state of a task, its ticks and when it last ran. The file says once for
all calls what they do to these and to the priority, slot by slot (`Onixs.Sched.Shift`), and what the
running task does (`Onixs.Sched.Advances`): it goes on, is ticked, yields, leaves, or has spent its
slice. In the last three cases `schedule` is called at the end.
-/

namespace Onixs

/-- A call that may make another task ready that has not slept: `task_unblock`, `task_fork`, and
`task_exit`, which wakes the parent. -/
def SchedOp.admits : SchedOp → Bool
  | fork => true
  | unblock _ => true
  | exit _ => true
  | _ => false

/-- A call that does not give up the processor, unless the slice is spent. -/
def SchedOp.goesOn : SchedOp → Bool
  | clock => true
  | wakeup => true
  | fork => true
  | unblock _ => true
  | _ => false

theorem SchedOp.ne_clock {op : SchedOp} (h : op.goesOn = false) : op ≠ .clock := by
  rintro rfl
  exact absurd h (by simp [goesOn])

namespace Sched

variable {s t m : Sched} {i j k : ℕ} {a b c task : SchedTask} {op : SchedOp} {r : SchedRet} {new : Prop}
  {x y : Option SchedTask}

/-- What `task_searchTask` reads of `b` is what it reads of `a`. -/
structure SameTurn (a b : SchedTask) : Prop where
  /-- The state. -/
  state : b.state = a.state
  /-- The ticks. -/
  ticks : b.ticks = a.ticks
  /-- The priority. -/
  priority : b.priority = a.priority
  /-- When it last ran. -/
  jiffies : b.jiffies = a.jiffies

theorem SameTurn.refl (a : SchedTask) : SameTurn a a := ⟨rfl, rfl, rfl, rfl⟩

/-- **What becomes of the task in a slot** while `task` runs; other tasks come to be ready in the `new` slots only. -/
inductive Shift (task : SchedTask) (new : Prop) : Option SchedTask → Option SchedTask → Prop where
  /-- The slot stays free. -/
  | absent : Shift task new none none
  /-- The task is as it was. -/
  | same {a b : SchedTask} (h : SameTurn a b) : Shift task new (some a) (some b)
  /-- It has slept, and has no ticks. -/
  | woken {a b : SchedTask} (hsleep : a.state = .sleeping) (hready : b.state = .ready) (hticks : b.ticks = 0)
      (hpriority : b.priority = a.priority) (hjiffies : b.jiffies = a.jiffies) : Shift task new (some a) (some b)
  /-- It has waited, and has the ticks it had. -/
  | unblocked {a b : SchedTask} (hnew : new) (hwait : a.state = .blocked ∨ a.state = .waitting)
      (hready : b.state = .ready) (hticks : b.ticks = a.ticks) (hpriority : b.priority = a.priority)
      (hjiffies : b.jiffies = a.jiffies) : Shift task new (some a) (some b)
  /-- It is a child of the running task. -/
  | born {b : SchedTask} (hnew : new) (hready : b.state = .ready) (hticks : b.ticks = int32 task.priority)
      (hpriority : b.priority = task.priority) (hjiffies : b.jiffies = task.jiffies) : Shift task new none (some b)
  /-- It had died. -/
  | gone {a : SchedTask} (hdied : a.state = .died) : Shift task new (some a) none

/-- The slots of the other tasks. -/
structure Others (s : Sched) (task : SchedTask) (op : SchedOp) (m : Sched) : Prop where
  /-- The task that runs. -/
  current : m.current = s.current
  /-- The slots. -/
  slots : ∃ k, ∀ j, j ≠ s.current → Shift task (op.admits = true ∧ j = k) (s.table j) (m.table j)

/-- **What the running task does.** -/
inductive Advances (s : Sched) (task : SchedTask) : SchedOp → Sched → Prop where
  /-- It goes on. -/
  | stays {op : SchedOp} {t : Sched} {b : SchedTask} (hclock : op ≠ .clock) (hothers : Others s task op t)
      (hself : t.table s.current = some b) (hsame : SameTurn task b) (hjiffies : t.jiffies = s.jiffies) :
      Advances s task op t
  /-- It has a tick less. -/
  | ticks {t : Sched} {b : SchedTask} (hothers : Others s task .clock t) (hne : task.ticks ≠ 1)
      (hself : t.table s.current = some b)
      (hsame : SameTurn { task with ticks := task.ticks - 1, jiffies := u32 (s.jiffies + 1) } b)
      (hjiffies : t.jiffies = u32 (s.jiffies + 1)) : Advances s task .clock t
  /-- It yields. -/
  | yields {op : SchedOp} {m t : Sched} {b : SchedTask} (hgoes : op.goesOn = false) (hothers : Others s task op m)
      (hself : m.table s.current = some b) (hsame : SameTurn task b) (hjiffies : m.jiffies = s.jiffies)
      (hsched : m.schedule = some t) : Advances s task op t
  /-- It waits, or has died. -/
  | leaves {op : SchedOp} {m t : Sched} {b : SchedTask} (hgoes : op.goesOn = false) (hidle : s.current ≠ idleTask)
      (hothers : Others s task op m) (hself : m.table s.current = some b)
      (hleft : b.state ≠ .running ∧ b.state ≠ .ready) (hticks : b.state ≠ .sleeping → b.ticks = task.ticks)
      (hpriority : b.priority = task.priority) (htime : b.jiffies = task.jiffies) (hjiffies : m.jiffies = s.jiffies)
      (hsched : m.schedule = some t) : Advances s task op t
  /-- It has spent its slice, and is given another. -/
  | spends {m t : Sched} {b : SchedTask} (hothers : Others s task .clock m) (hone : task.ticks = 1)
      (hself : m.table s.current = some b)
      (hsame : SameTurn { task with ticks := int32 task.priority, jiffies := u32 (s.jiffies + 1) } b)
      (hjiffies : m.jiffies = u32 (s.jiffies + 1)) (hsched : m.schedule = some t) : Advances s task .clock t

/-! ### Slots that stay -/

theorem Shift.refl (task : SchedTask) (new : Prop) : ∀ x, Shift task new x x
  | none => .absent
  | some a => .same (SameTurn.refl a)

theorem Shift.of_eq (h : y = x) : Shift task new x y := h ▸ Shift.refl task new x

/-- The other slots stay. -/
theorem Others.of_eq (hcurrent : m.current = s.current) (h : ∀ j, j ≠ s.current → m.table j = s.table j) :
    Others s task op m :=
  ⟨hcurrent, 0, fun j hj => Shift.of_eq (h j hj)⟩

/-- All but one of them stay. -/
theorem Others.of_one (k : ℕ) (hcurrent : m.current = s.current)
    (h : ∀ j, j ≠ s.current → j ≠ k → m.table j = s.table j)
    (hk : k ≠ s.current → Shift task (op.admits = true) (s.table k) (m.table k)) : Others s task op m := by
  refine ⟨hcurrent, k, fun j hj => ?_⟩
  by_cases hjk : j = k
  · subst hjk
    simpa using hk hj
  · exact Shift.of_eq (h j hj hjk)

/-! ### The calls -/

section Calls

variable {list ms : ℕ} {status query : ℤ}

/-- The running task in a list, and another one is chosen. -/
theorem Advances.listed (u : Sched) {state : TaskState} {tasks : List ℕ} (hidle : s.current ≠ idleTask)
    (hcurrent : u.current = s.current) (hself : u.table s.current = some a) (hother : ∀ j, j ≠ s.current → u.table j = s.table j)
    (hkeeps : a.priority = task.priority ∧ a.jiffies = task.jiffies) (hticks : state ≠ .sleeping → a.ticks = task.ticks)
    (hjiffies : u.jiffies = s.jiffies) (hgoes : op.goesOn = false) (hstate : state ≠ .running ∧ state ≠ .ready)
    (hsched : (u.linkedIn list tasks state).schedule = some t) : Advances s task op t := by
  have hrest : ∀ j, j ≠ s.current → (u.linkedIn list tasks state).table j = s.table j := fun j hj =>
    (table_modify_of_ne (hcurrent ▸ hj)).trans (hother j hj)
  have hthis : (u.linkedIn list tasks state).table s.current = some { a with node := some list, state := state } := by
    rw [← hcurrent] at hself ⊢
    exact table_modify_self.trans (congrArg _ hself)
  exact .leaves (m := u.linkedIn list tasks state) hgoes hidle (.of_eq hcurrent hrest) hthis hstate hticks
    hkeeps.1 hkeeps.2 hjiffies hsched

/-- **`task_block`**. -/
theorem Advances.block {state : TaskState} (hidle : s.current ≠ idleTask) (ht : s.table s.current = some task)
    (hgoes : op.goesOn = false) (hstate : state ≠ .running ∧ state ≠ .ready) (hrun : s.taskBlock list state = some t) :
    Advances s task op t := by
  rw [taskBlock, ht, Option.bind_eq_bind, Option.bind_some] at hrun
  obtain ⟨-, -, hrun⟩ := Option.bind_eq_some_iff.mp hrun
  obtain ⟨-, -, hrun⟩ := Option.bind_eq_some_iff.mp hrun
  obtain ⟨-, -, hsched⟩ := Option.bind_eq_some_iff.mp hrun
  exact .listed s hidle rfl ht (fun _ _ => rfl) ⟨rfl, rfl⟩ (fun _ => rfl) rfl hgoes hstate hsched

/-- **`task_unblock`**, of a task that does not sleep. -/
theorem Sound.advances_unblock (h : s.Sound) (ht : s.table s.current = some task) (hlegal : s.InTime (.unblock i))
    (hrun : s.taskUnblock i = some t) : Advances s task (.unblock i) t := by
  obtain ⟨⟨a, ha, hwait⟩, hsleep⟩ := hlegal
  obtain ⟨task', ht', hstate⟩ := h.active
  obtain rfl := Option.some.inj (ht.symm.trans ht')
  have hne : i ≠ s.current := by
    rintro rfl
    obtain rfl := Option.some.inj (ht.symm.trans ha)
    exact not_waiting_running (hstate ▸ hwait)
  rw [taskUnblock, ha, Option.bind_eq_bind, Option.bind_some, Option.bind_eq_bind, Option.bind_eq_some_iff] at hrun
  obtain ⟨list, -, hrun⟩ := hrun
  obtain rfl := Option.some.inj hrun
  have hstate' : a.state = .blocked ∨ a.state = .waitting := by
    rcases hwait with hblocked | hsleeping | hwaitting
    · exact Or.inl hblocked
    · exact absurd ⟨a, ha, hsleeping⟩ hsleep
    · exact Or.inr hwaitting
  refine .stays (by simp) (.of_one i rfl (fun j _ hji => table_modify_of_ne hji) fun _ => ?_)
    ((table_modify_of_ne hne.symm).trans ht) (SameTurn.refl task) rfl
  rw [table_modify_self]
  change Shift task _ (s.table i) ((s.table i).map _)
  rw [ha]
  exact .unblocked rfl hstate' rfl rfl rfl rfl

/-- **`task_sleep`**. -/
theorem Advances.sleep (hidle : s.current ≠ idleTask) (ht : s.table s.current = some task)
    (hrun : s.taskSleep ms = some t) : Advances s task (.sleep ms) t := by
  obtain ⟨u, hu⟩ : ∃ u, u = s.modify s.current fun task =>
    { task with ticks := int32 (u32 (s.jiffies + sleepTicks ms)) } := ⟨_, rfl⟩
  obtain ⟨tasks, htasks⟩ : ∃ tasks, tasks = listInsertSort (fun i => ((u.table i).map SchedTask.ticks).getD 0)
    u.current (u.lists sleepList) := ⟨_, rfl⟩
  have hut : u.table s.current = some { task with ticks := int32 (u32 (s.jiffies + sleepTicks ms)) } := by
    rw [hu]
    exact table_modify_self.trans (congrArg _ ht)
  have hucurrent : u.current = s.current := by
    rw [hu]
    rfl
  have hsched : (u.linkedIn sleepList tasks .sleeping).schedule = some t := by
    rw [taskSleep, ht, Option.bind_eq_bind, Option.bind_some] at hrun
    obtain ⟨-, -, hsched⟩ := Option.bind_eq_some_iff.mp hrun
    rw [Sched.linkedIn, htasks, hu]
    exact hsched
  refine .listed u hidle hucurrent hut (fun j hj => ?_) ⟨rfl, rfl⟩ (fun hc => absurd rfl hc) (by rw [hu]; rfl) rfl
    ⟨by simp, by simp⟩ hsched
  rw [hu]
  exact table_modify_of_ne hj

/-- The tasks that `task_wakeup` wakes. -/
theorem Wakes.others {w : List ℕ} (hw : Wakes s t w) (h : s.Linked) (hasleep : s.Asleep)
    (ht : s.table s.current = some task) (hstate : task.state = .running) :
    s.current ∉ w ∧ Others s task op t := by
  have hsleep : ∀ j ∈ w, ∃ a, s.table j = some a ∧ a.state = .sleeping := fun j hj =>
    (h.mem_sleepList hasleep).mp (hw.list ▸ List.mem_append_left _ hj)
  refine ⟨fun hc => ?_, hw.current, 0, fun j _ => ?_⟩
  · obtain ⟨a, ha, hs⟩ := hsleep _ hc
    obtain rfl := Option.some.inj (ht.symm.trans ha)
    exact absurd (hs.symm.trans hstate) (by simp)
  · rw [hw.table]
    split
    next hj =>
      obtain ⟨a, ha, hs⟩ := hsleep j hj
      rw [ha]
      exact .woken hs rfl rfl rfl rfl
    next => exact Shift.refl _ _ _

/-- **`clock_handler`**. -/
theorem Sound.advances_clock (h : s.Sound) (hasleep : s.Asleep) (ht : s.table s.current = some task)
    (hrun : s.clockHandler = some t) : Advances s task .clock t := by
  obtain ⟨task', ht', hstate⟩ := h.active
  obtain rfl := Option.some.inj (ht.symm.trans ht')
  obtain ⟨u, hu⟩ : ∃ u, u = { s with jiffies := u32 (s.jiffies + 1) } := ⟨_, rfl⟩
  have hutable : u.table = s.table := by rw [hu]
  have hucurrent : u.current = s.current := by rw [hu]
  have hujiffies : u.jiffies = u32 (s.jiffies + 1) := by rw [hu]
  have hulinked : u.Linked := by
    rw [hu]
    exact ⟨h.linked.slot, h.linked.here, h.linked.idle, h.linked.running, h.linked.waits, h.linked.mem,
      h.linked.nodup⟩
  have huasleep : u.Asleep := by
    rw [hu]
    exact hasleep
  rw [clockHandler, Option.bind_eq_bind, Option.bind_eq_some_iff, ← hu] at hrun
  obtain ⟨v, hv, hrun⟩ := hrun
  obtain ⟨w, hw⟩ := hulinked.wakes_taskWakeup hv
  obtain ⟨hcw, hothers⟩ : u.current ∉ w ∧ Others u task .clock v :=
    hw.others hulinked huasleep (by rw [hutable, hucurrent]; exact ht) hstate
  have hvcurrent : v.current = s.current := hw.current.trans hucurrent
  have hvjiffies : v.jiffies = u32 (s.jiffies + 1) := hw.jiffies.trans hujiffies
  have hvt : v.table s.current = some task := by
    rw [hw.table, if_neg (hucurrent ▸ hcw), hutable]
    exact ht
  -- what the other slots are, whatever is stored in that of the running task
  have hrest : ∀ x : Sched, x.current = s.current → (∀ j, j ≠ s.current → x.table j = v.table j) →
      Others s task .clock x := by
    intro x hxcurrent hx
    obtain ⟨k, hslots⟩ := hothers.slots
    refine ⟨hxcurrent, k, fun j hj => ?_⟩
    rw [hx j hj, ← hutable]
    exact hslots j (by rw [hucurrent]; exact hj)
  obtain ⟨x, hx⟩ : ∃ x, x = v.modify v.current fun task =>
    { task with jiffies := v.jiffies, ticks := task.ticks - 1 } := ⟨_, rfl⟩
  have hxcurrent : x.current = s.current := by
    rw [hx]
    exact hvcurrent
  have hxt : x.table s.current = some { task with jiffies := u32 (s.jiffies + 1), ticks := task.ticks - 1 } := by
    rw [hx, hvcurrent, table_modify_self, hvt, hvjiffies]
    rfl
  have hxother : ∀ j, j ≠ s.current → x.table j = v.table j := fun j hj => by
    rw [hx, hvcurrent]
    exact table_modify_of_ne hj
  have hxjiffies : x.jiffies = u32 (s.jiffies + 1) := by
    rw [hx]
    exact hvjiffies
  simp only [← hx, hxcurrent, hxt, Option.bind_eq_bind, Option.bind_some] at hrun
  split at hrun
  next hzero =>
    obtain ⟨y, hy⟩ : ∃ y, y = x.modify s.current fun task => { task with ticks := int32 task.priority } := ⟨_, rfl⟩
    rw [← hy] at hrun
    refine .spends (m := y) (hrest y (by rw [hy]; exact hxcurrent) fun j hj => ?_) (by omega) (?_ : _ = some _)
      ⟨rfl, rfl, rfl, rfl⟩ (by rw [hy]; exact hxjiffies) hrun
    · rw [hy]
      exact (table_modify_of_ne hj).trans (hxother j hj)
    · rw [hy]
      exact table_modify_self.trans (congrArg _ hxt)
  next hne =>
    obtain rfl := Option.some.inj hrun
    exact .ticks (hrest _ hxcurrent hxother) (by omega) hxt ⟨rfl, rfl, rfl, rfl⟩ hxjiffies

/-- **`task_fork`**. -/
theorem Advances.fork (ht : s.table s.current = some task) (hrun : s.taskFork = some (r, t)) :
    Advances s task .fork t := by
  rw [taskFork, ht, Option.bind_eq_bind, Option.bind_some] at hrun
  obtain ⟨-, -, hrun⟩ := Option.bind_eq_some_iff.mp hrun
  obtain ⟨pid, hpid, hrun⟩ := Option.bind_eq_some_iff.mp hrun
  obtain ⟨-, rfl⟩ := Prod.mk.inj (Option.some.inj hrun)
  have hfree : s.table pid = none := by simpa using List.find?_some hpid
  have hne : s.current ≠ pid := by
    intro hc
    rw [hc, hfree] at ht
    exact absurd ht (by simp)
  refine .stays (by simp) (.of_one pid rfl (fun j _ hj => if_neg hj) fun _ => ?_) ((if_neg hne).trans ht)
    (SameTurn.refl task) rfl
  dsimp only
  rw [hfree, if_pos rfl]
  exact .born rfl rfl rfl rfl rfl

/-- **A round of `task_waitpid`**. -/
theorem Sound.advances_waitpid (h : s.Sound) (hidle : s.current ≠ idleTask) (ht : s.table s.current = some task)
    (hrun : s.taskWaitpid query = some (r, t)) : Advances s task (.waitpid query) t := by
  obtain ⟨task', ht', hstate⟩ := h.active
  obtain rfl := Option.some.inj (ht.symm.trans ht')
  rw [taskWaitpid, ht, Option.bind_eq_bind, Option.bind_some] at hrun
  cases hfound : waitSlots.find? fun i => s.Matches task.pid query i ∧ s.Died i with
  | some pid =>
    rw [hfound] at hrun
    obtain ⟨child, -, hrun⟩ := Option.bind_eq_some_iff.mp hrun
    obtain ⟨-, rfl⟩ := Prod.mk.inj (Option.some.inj hrun)
    obtain ⟨-, a, ha, hdied⟩ : s.Matches task.pid query pid ∧ s.Died pid := by simpa using List.find?_some hfound
    have hne : s.current ≠ pid := by
      rintro rfl
      obtain rfl := Option.some.inj (ht.symm.trans ha)
      exact absurd (hstate.symm.trans hdied) (by simp)
    refine .stays (by simp) (.of_one pid rfl (fun j _ hj => if_neg hj) fun _ => ?_) ((if_neg hne).trans ht)
      (SameTurn.refl task) rfl
    dsimp only
    rw [ha, if_pos rfl]
    exact .gone hdied
  | none =>
    rw [hfound] at hrun
    dsimp only at hrun
    split at hrun
    · obtain ⟨u, hblock, hrun⟩ := Option.bind_eq_some_iff.mp hrun
      obtain ⟨-, rfl⟩ := Prod.mk.inj (Option.some.inj hrun)
      have hself : (s.modify s.current fun task => { task with waitpid := query }).table
          (s.modify s.current fun task => { task with waitpid := query }).current =
            some { task with waitpid := query } := table_modify_self.trans (congrArg _ ht)
      rw [taskBlock, hself, Option.bind_eq_bind, Option.bind_some] at hblock
      obtain ⟨-, -, hblock⟩ := Option.bind_eq_some_iff.mp hblock
      obtain ⟨-, -, hblock⟩ := Option.bind_eq_some_iff.mp hblock
      obtain ⟨-, -, hsched⟩ := Option.bind_eq_some_iff.mp hblock
      exact .listed (s.modify s.current fun task => { task with waitpid := query }) hidle rfl hself
        (fun j hj => table_modify_of_ne hj) ⟨rfl, rfl⟩ (fun _ => rfl) rfl rfl ⟨by simp, by simp⟩ hsched
    · obtain ⟨-, rfl⟩ := Prod.mk.inj (Option.some.inj hrun)
      exact .stays (by simp) (.of_eq rfl fun _ _ => rfl) ht (SameTurn.refl task) rfl

/-- **`task_exit`** makes the parent ready at most. -/
theorem Sound.advances_exit (h : s.Sound) (hidle : s.current ≠ idleTask) (ht : s.table s.current = some task)
    (hrun : (s.die status).bind leave = some t) : Advances s task (.exit status) t := by
  obtain ⟨task', ht', hstate⟩ := h.active
  obtain rfl := Option.some.inj (ht.symm.trans ht')
  obtain ⟨hdie, hkilled⟩ := h.linked.die ht hstate hidle status
  rw [hdie, Option.bind_some] at hrun
  obtain ⟨v, hv⟩ : ∃ v, v = s.killed task.serial status := ⟨_, rfl⟩
  rw [← hv] at hrun hkilled
  have hvself : v.table s.current = some { task with state := .died, status := status } := by
    rw [hv]
    exact table_modify_self.trans (congrArg _ ht)
  have hvother : ∀ j, j ≠ s.current → v.table j = s.table j := fun j hj => by
    rw [hv]
    exact table_modify_of_ne hj
  have hvcurrent : v.current = s.current := by rw [hv]; rfl
  have hvjiffies : v.jiffies = s.jiffies := by rw [hv]; rfl
  rw [leave, hvcurrent, hvself, Option.bind_eq_bind, Option.bind_some, Option.bind_eq_bind,
    Option.bind_eq_some_iff] at hrun
  obtain ⟨w, hwake, hsched⟩ := hrun
  dsimp only at hwake
  obtain ⟨x, hx⟩ : ∃ x, x = v.reparent task.pid task.ppid := ⟨_, rfl⟩
  rw [← hx] at hwake
  have hxtable : ∀ j, x.table j = (v.table j).map (reparented task.pid task.ppid) := fun j => by
    rw [hx, hkilled.table_reparent]
  have hxself : x.table s.current = some (reparented task.pid task.ppid { task with state := .died, status := status }) := by
    rw [hxtable, hvself]
    rfl
  have hxslot : ∀ (new : Prop) (j : ℕ), j ≠ s.current → Shift task new (s.table j) (x.table j) := by
    intro new j hj
    rw [hxtable, hvother j hj]
    cases s.table j with
    | none => exact .absent
    | some a =>
      rw [Option.map_some, reparented_eq]
      exact .same ⟨rfl, rfl, rfl, rfl⟩
  have hxcurrent : x.current = s.current := by
    rw [hx]
    exact hvcurrent
  have hxjiffies : x.jiffies = s.jiffies := by
    rw [hx]
    exact hvjiffies
  rw [reparented_eq] at hxself
  rw [wakeParent, Option.bind_eq_bind, Option.bind_eq_some_iff] at hwake
  obtain ⟨parent, hparent, hwake⟩ := hwake
  split at hwake
  next hwait =>
    rw [taskUnblock, hparent, Option.bind_eq_bind, Option.bind_some, Option.bind_eq_bind,
      Option.bind_eq_some_iff] at hwake
    obtain ⟨list, -, hwake⟩ := hwake
    have hne : task.ppid ≠ s.current := by
      intro hc
      rw [hc, hxself] at hparent
      obtain rfl := Option.some.inj hparent
      exact absurd hwait.1 (by simp)
    have hw := Option.some.inj hwake
    have hwself : w.table task.ppid = some { parent with node := none, state := .ready } := by
      rw [← hw]
      exact table_modify_self.trans (congrArg _ hparent)
    have hwother : ∀ j, j ≠ task.ppid → w.table j = x.table j := fun j hj => by
      rw [← hw]
      exact table_modify_of_ne hj
    refine .leaves (m := w) rfl hidle ⟨by rw [← hw]; exact hxcurrent, task.ppid, fun j hj => ?_⟩
      ((hwother _ hne.symm).trans hxself) ⟨by simp, by simp⟩ (fun _ => rfl) rfl rfl (by rw [← hw]; exact hxjiffies)
      hsched
    by_cases hj' : j = task.ppid
    · subst hj'
      -- the parent is one of the others, and has waited
      rw [hxtable, hvother _ hj] at hparent
      obtain ⟨a, ha, hreparented⟩ := Option.map_eq_some_iff.mp hparent
      rw [hwself, ha, ← hreparented]
      rw [← hreparented] at hwait
      rw [reparented_eq] at hwait ⊢
      exact .unblocked ⟨rfl, rfl⟩ (Or.inr hwait.1) rfl rfl rfl rfl
    · rw [hwother j hj']
      exact hxslot _ j hj
  next =>
    obtain rfl := Option.some.inj hwake
    exact .leaves rfl hidle ⟨hxcurrent, 0, fun j hj => hxslot _ j hj⟩ hxself ⟨by simp, by simp⟩ (fun _ => rfl)
      rfl rfl hxjiffies hsched

/-- **Every call is one of these.** -/
theorem Sound.advances (h : s.Sound) (hasleep : s.Asleep) (ht : s.table s.current = some task) (hlegal : s.InTime op)
    (hstep : s.step op = some (r, t)) : Advances s task op t := by
  cases op with
  | schedule =>
    obtain ⟨u, hu, heq⟩ := Option.map_eq_some_iff.mp hstep
    obtain ⟨-, rfl⟩ := Prod.mk.inj heq
    exact .yields rfl (.of_eq rfl fun _ _ => rfl) ht (SameTurn.refl task) rfl hu
  | block list =>
    obtain ⟨u, hu, heq⟩ := Option.map_eq_some_iff.mp hstep
    obtain ⟨-, rfl⟩ := Prod.mk.inj heq
    exact .block hlegal.1 ht rfl ⟨by simp, by simp⟩ hu
  | unblock i =>
    obtain ⟨u, hu, heq⟩ := Option.map_eq_some_iff.mp hstep
    obtain ⟨-, rfl⟩ := Prod.mk.inj heq
    exact h.advances_unblock ht hlegal hu
  | sleep ms =>
    obtain ⟨u, hu, heq⟩ := Option.map_eq_some_iff.mp hstep
    obtain ⟨-, rfl⟩ := Prod.mk.inj heq
    exact .sleep hlegal.1 ht hu
  | wakeup =>
    obtain ⟨u, hu, heq⟩ := Option.map_eq_some_iff.mp hstep
    obtain ⟨-, rfl⟩ := Prod.mk.inj heq
    obtain ⟨task', ht', hstate⟩ := h.active
    obtain rfl := Option.some.inj (ht.symm.trans ht')
    obtain ⟨w, hw⟩ := h.linked.wakes_taskWakeup hu
    obtain ⟨hcw, hothers⟩ : s.current ∉ w ∧ Others s task .wakeup u := hw.others h.linked hasleep ht hstate
    exact .stays (by simp) hothers (by rw [hw.table, if_neg hcw]; exact ht) (SameTurn.refl task) hw.jiffies
  | clock =>
    obtain ⟨u, hu, heq⟩ := Option.map_eq_some_iff.mp hstep
    obtain ⟨-, rfl⟩ := Prod.mk.inj heq
    exact h.advances_clock hasleep ht hu
  | fork => exact .fork ht hstep
  | waitpid query => exact h.advances_waitpid hlegal.1 ht hstep
  | exit status =>
    obtain ⟨u, hu, heq⟩ := Option.map_eq_some_iff.mp hstep
    obtain ⟨-, rfl⟩ := Prod.mk.inj heq
    exact h.advances_exit hlegal.1 ht hu
  | die status => exact hlegal.1.elim
  | leave => exact hlegal.1.elim

end Calls

end Sched

end Onixs
