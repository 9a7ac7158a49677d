import Onixs.Kernel.SchedRun

/-!
# Time slices and deadlines

The field `ticks` of a task is what is left of its time slice, and while the task sleeps it is the
time at which it wakes up. Most functions leave it alone, and with it who sleeps and the order of
`sleep_list` (`Sched.KeepsTime`). The others are `task_sleep` (`Sched.Dozes`), `task_wakeup`, which
wakes the tasks at the front of the list (`Sched.Wakes`), `task_fork` and `clock_handler`.

`sleep_list` is local to `kernel/task.c`: nobody blocks in it, and a task is unblocked from another
list (`Sched.InTime`).
-/

namespace Onixs

namespace Sched

variable {s t u : Sched} {i j : ℕ} {a b c task : SchedTask} {f : SchedTask → SchedTask}

theorem lists_setList_self (s : Sched) (list : ℕ) (tasks : List ℕ) : (s.setList list tasks).lists list = tasks :=
  if_pos rfl

/-! ### What stays -/

/-- `b` has the ticks of `a`, and sleeps when `a` does. -/
structure SameTime (a b : SchedTask) : Prop where
  /-- The ticks. -/
  ticks : b.ticks = a.ticks
  /-- The priority. -/
  priority : b.priority = a.priority
  /-- Whether it sleeps. -/
  sleeping : b.state = .sleeping ↔ a.state = .sleeping
  /-- Whether it is in `sleep_list`. -/
  node : b.node = some sleepList ↔ a.node = some sleepList

theorem SameTime.refl (a : SchedTask) : SameTime a a := ⟨rfl, rfl, Iff.rfl, Iff.rfl⟩

theorem SameTime.trans (h : SameTime a b) (h' : SameTime b c) : SameTime a c :=
  ⟨h'.ticks.trans h.ticks, h'.priority.trans h.priority, h'.sleeping.trans h.sleeping, h'.node.trans h.node⟩

/-- **The tasks that are left have the ticks they had**, and those that sleep are the same. -/
structure KeepsTime (s t : Sched) : Prop where
  /-- The tasks. -/
  back : ∀ {i b}, t.table i = some b → ∃ a, s.table i = some a ∧ SameTime a b
  /-- The tasks that sleep, in their order. -/
  list : t.lists sleepList = s.lists sleepList
  /-- The ticks. -/
  jiffies : t.jiffies = s.jiffies

theorem KeepsTime.refl (s : Sched) : KeepsTime s s := ⟨fun {_ b} hb => ⟨b, hb, SameTime.refl b⟩, rfl, rfl⟩

theorem KeepsTime.trans (h : KeepsTime s t) (h' : KeepsTime t u) : KeepsTime s u := by
  refine ⟨fun {i c} hc => ?_, h'.list.trans h.list, h'.jiffies.trans h.jiffies⟩
  obtain ⟨b, hb, hbc⟩ := h'.back hc
  obtain ⟨a, ha, hab⟩ := h.back hb
  exact ⟨a, ha, hab.trans hbc⟩

theorem KeepsTime.modify (hf : ∀ a, s.table i = some a → SameTime a (f a)) : KeepsTime s (s.modify i f) := by
  refine ⟨fun {j b} hb => ?_, rfl, rfl⟩
  rcases table_modify_eq_some.mp hb with ⟨-, hb⟩ | ⟨rfl, a, ha, rfl⟩
  · exact ⟨b, hb, SameTime.refl b⟩
  · exact ⟨a, ha, hf a ha⟩

theorem KeepsTime.setList {list : ℕ} (hlist : list ≠ sleepList) (tasks : List ℕ) : KeepsTime s (s.setList list tasks) :=
  ⟨(KeepsTime.refl s).back, if_neg hlist.symm, rfl⟩

theorem SameTime.yielded (a : SchedTask) : SameTime a (yielded a) := by
  rw [Sched.yielded]
  split
  next hrun => exact ⟨rfl, rfl, iff_of_false (by simp) (by rw [hrun]; simp), Iff.rfl⟩
  next => exact SameTime.refl a

/-- A step of `schedule` names the task that runs. -/
theorem schedule_cases (h : s.schedule = some t) : ∃ next, s.searchTask .ready = some next ∧
    t = { (s.modify s.current yielded).modify next fun task => { task with state := .running } with
      current := next } := by
  rw [Sched.schedule, Option.bind_eq_bind, Option.bind_eq_some_iff] at h
  obtain ⟨next, hnext, h⟩ := h
  rw [Option.bind_eq_bind, Option.bind_eq_some_iff] at h
  obtain ⟨-, -, h⟩ := h
  exact ⟨next, hnext, (Option.some.inj h).symm⟩

/-- A task that is ready may run. -/
theorem ready_schedule (h : s.schedule = some t) (ha : s.table i = some a) (hready : a.state = .ready)
    (hb : t.table i = some b) : b.state = .ready ∨ b.state = .running := by
  obtain ⟨next, -, rfl⟩ := schedule_cases h
  rcases table_modify_eq_some.mp hb with ⟨-, hb⟩ | ⟨rfl, x, -, rfl⟩
  · rcases table_modify_eq_some.mp hb with ⟨-, hb⟩ | ⟨rfl, x, hx, rfl⟩
    · obtain rfl := Option.some.inj (ha.symm.trans hb)
      exact Or.inl hready
    · obtain rfl := Option.some.inj (ha.symm.trans hx)
      rw [yielded_of_ne (by rw [hready]; simp)]
      exact Or.inl hready
  · exact Or.inr rfl

/-- **`schedule`** leaves the ticks alone. -/
theorem Linked.keepsTime_schedule (h : s.Linked) (hrun : s.schedule = some t) : KeepsTime s t := by
  obtain ⟨next, hsearch, rfl⟩ := schedule_cases hrun
  obtain ⟨next', hsearch', hnext⟩ := h.searchTask
  obtain rfl := Option.some.inj (hsearch.symm.trans hsearch')
  have hyield : KeepsTime s (s.modify s.current yielded) := KeepsTime.modify fun a _ => SameTime.yielded a
  have hstate : ∀ a, s.table next = some a → a.state ≠ .sleeping := by
    intro a ha hc
    rcases hnext with ⟨task, ht, hready, -⟩ | ⟨rfl, -⟩
    · obtain rfl := Option.some.inj (ha.symm.trans ht)
      exact absurd (hc.symm.trans hready) (by simp)
    · obtain ⟨task, ht, hready⟩ := h.idle
      obtain rfl := Option.some.inj (ha.symm.trans ht)
      rcases hready with hready | hready <;> exact absurd (hc.symm.trans hready) (by simp)
  have hself : KeepsTime (s.modify s.current yielded)
      ((s.modify s.current yielded).modify next fun task => { task with state := .running }) := by
    refine KeepsTime.modify fun b hb => ⟨rfl, rfl, iff_of_false (by simp) fun hc => ?_, Iff.rfl⟩
    obtain ⟨a, ha, hab⟩ := hyield.back hb
    exact hstate a ha (hab.sleeping.mp hc)
  have hboth := hyield.trans hself
  exact ⟨hboth.back, hboth.list, hboth.jiffies⟩

/-! ### The tasks that sleep -/

/-- **The tasks in `sleep_list` are those that sleep.** -/
def Asleep (s : Sched) : Prop :=
  ∀ i task, s.table i = some task → (task.node = some sleepList ↔ task.state = .sleeping)

theorem KeepsTime.asleep (hk : KeepsTime s t) (h : s.Asleep) : t.Asleep := by
  intro i b hb
  obtain ⟨a, ha, hab⟩ := hk.back hb
  exact hab.node.trans ((h i a ha).trans hab.sleeping.symm)

theorem Linked.mem_sleepList (h : s.Linked) (hasleep : s.Asleep) :
    i ∈ s.lists sleepList ↔ ∃ task, s.table i = some task ∧ task.state = .sleeping := by
  rw [h.mem]
  exact exists_congr fun task => and_congr_right fun ht => hasleep i task ht

/-- The task in slot `i` sleeps. -/
def IsAsleep (s : Sched) (i : ℕ) : Prop := ∃ task, s.table i = some task ∧ task.state = .sleeping

instance IsAsleep.decidable (s : Sched) (i : ℕ) : Decidable (s.IsAsleep i) :=
  match h : s.table i with
  | none => isFalse (by simp [IsAsleep, h])
  | some task => decidable_of_iff (task.state = .sleeping) (by simp [IsAsleep, h])

/-- **What may be called**, as far as `sleep_list` is concerned. -/
def InTime (s : Sched) (op : SchedOp) : Prop :=
  s.Legal op ∧ match op with
    | .block list => list ≠ sleepList
    | .unblock i => ¬s.IsAsleep i
    | .sleep ms => ms < 4294967296
    | _ => True

instance InTime.decidable (s : Sched) : ∀ op, Decidable (s.InTime op)
  | .block list => inferInstanceAs (Decidable (s.Legal (.block list) ∧ list ≠ sleepList))
  | .unblock i => inferInstanceAs (Decidable (s.Legal (.unblock i) ∧ ¬s.IsAsleep i))
  | .sleep ms => inferInstanceAs (Decidable (s.Legal (.sleep ms) ∧ ms < 4294967296))
  | .schedule => inferInstanceAs (Decidable (s.Legal .schedule ∧ True))
  | .wakeup => inferInstanceAs (Decidable (s.Legal .wakeup ∧ True))
  | .clock => inferInstanceAs (Decidable (s.Legal .clock ∧ True))
  | .fork => inferInstanceAs (Decidable (s.Legal .fork ∧ True))
  | .waitpid pid => inferInstanceAs (Decidable (s.Legal (.waitpid pid) ∧ True))
  | .exit status => inferInstanceAs (Decidable (s.Legal (.exit status) ∧ True))
  | .die status => inferInstanceAs (Decidable (s.Legal (.die status) ∧ True))
  | .leave => inferInstanceAs (Decidable (s.Legal .leave ∧ True))

/-! ### The functions that leave the ticks alone -/

/-- To wait for something else than a time. -/
theorem KeepsTime.linkedIn (ht : s.table s.current = some task) (hnode : task.node = none)
    (hrun : task.state = .running) {list : ℕ} (hlist : list ≠ sleepList) {state : TaskState} (hstate : state ≠ .sleeping)
    (tasks : List ℕ) : KeepsTime s (s.linkedIn list tasks state) := by
  refine (KeepsTime.setList hlist tasks).trans (KeepsTime.modify fun a ha => ?_)
  obtain rfl := Option.some.inj (ht.symm.trans ha)
  refine ⟨rfl, rfl, iff_of_false hstate (by rw [hrun]; simp), iff_of_false (fun hc => ?_) (by rw [hnode]; simp)⟩
  exact hlist (Option.some.inj hc)

/-- **`task_block`**. -/
theorem Linked.keepsTime_block (h : s.Linked) (hactive : s.Active) (hidle : s.current ≠ idleTask) {list : ℕ}
    (hlist : list ≠ sleepList) {state : TaskState} (hw : Waiting state) (hstate : state ≠ .sleeping)
    (hrun : s.taskBlock list state = some t) : KeepsTime s t := by
  obtain ⟨task, ht, hstate'⟩ := hactive
  have hwaiting : ¬Waiting task.state := hstate' ▸ not_waiting_running
  obtain ⟨-, -, hlinked, -⟩ := h.taskBlock ht hwaiting hidle hw list
  have hkeep := KeepsTime.linkedIn ht (h.node_none ht hwaiting) hstate' hlist hstate (s.current :: s.lists list)
  refine hkeep.trans (hlinked.keepsTime_schedule ?_)
  rw [Sched.taskBlock, ht, Option.bind_eq_bind, Option.bind_some, Option.bind_eq_bind, Option.bind_eq_some_iff] at hrun
  obtain ⟨-, -, hrun⟩ := hrun
  obtain ⟨-, -, hrun⟩ := Option.bind_eq_some_iff.mp hrun
  obtain ⟨-, -, hrun⟩ := Option.bind_eq_some_iff.mp hrun
  exact hrun

/-- **`task_unblock`** of a task that does not sleep. -/
theorem Asleep.keepsTime_unblock (h : s.Asleep) (ht : s.table i = some task) (hstate : task.state ≠ .sleeping)
    (hrun : s.taskUnblock i = some t) : KeepsTime s t := by
  rw [Sched.taskUnblock, ht, Option.bind_eq_bind, Option.bind_some, Option.bind_eq_bind, Option.bind_eq_some_iff] at hrun
  obtain ⟨list, hlist, hrun⟩ := hrun
  obtain rfl := Option.some.inj hrun
  have hne : list ≠ sleepList := fun hc => hstate ((h i task ht).mp (hc ▸ hlist))
  refine (KeepsTime.setList hne _).trans (KeepsTime.modify fun a ha => ?_)
  obtain rfl := Option.some.inj (ht.symm.trans ha)
  exact ⟨rfl, rfl, iff_of_false (by simp) hstate, iff_of_false (by simp) fun hc => hstate ((h i _ ht).mp hc)⟩

/-- **`task_waitpid`**. -/
theorem Linked.keepsTime_waitpid {query : ℤ} {r : SchedRet} (h : s.Linked) (hactive : s.Active)
    (hidle : s.current ≠ idleTask) (hrun : s.taskWaitpid query = some (r, t)) : KeepsTime s t := by
  rw [Sched.taskWaitpid, Option.bind_eq_bind, Option.bind_eq_some_iff] at hrun
  obtain ⟨task, -, hrun⟩ := hrun
  cases hfound : waitSlots.find? fun i => s.Matches task.pid query i ∧ s.Died i with
  | some pid =>
    rw [hfound] at hrun
    obtain ⟨child, -, hrun⟩ := Option.bind_eq_some_iff.mp hrun
    obtain ⟨-, rfl⟩ := Prod.mk.inj (Option.some.inj hrun)
    refine ⟨fun {i b} hb => ⟨b, ?_, SameTime.refl b⟩, rfl, rfl⟩
    dsimp only at hb
    split at hb
    · exact absurd hb (by simp)
    · exact hb
  | none =>
    rw [hfound] at hrun
    dsimp only at hrun
    split at hrun
    · obtain ⟨u, hblock, hrun⟩ := Option.bind_eq_some_iff.mp hrun
      obtain ⟨-, rfl⟩ := Prod.mk.inj (Option.some.inj hrun)
      have hkeep : KeepsTime s (s.modify s.current fun task => { task with waitpid := query }) :=
        KeepsTime.modify fun a _ => ⟨rfl, rfl, Iff.rfl, Iff.rfl⟩
      refine hkeep.trans (Linked.keepsTime_block (h.tune fun _ => ⟨rfl, rfl, rfl⟩) (hactive.modify fun _ => rfl) hidle
        (by decide) (Or.inr (Or.inr rfl)) (by simp) hblock)
    · obtain ⟨-, rfl⟩ := Prod.mk.inj (Option.some.inj hrun)
      exact KeepsTime.refl _

/-- **`task_exit`**. -/
theorem Sound.keepsTime_exit {status : ℤ} (h : s.Sound) (hasleep : s.Asleep) (hidle : s.current ≠ idleTask)
    (hrun : (s.die status).bind leave = some t) : KeepsTime s t := by
  obtain ⟨task, ht, hstate⟩ := h.active
  obtain ⟨hdie, hkilled⟩ := h.linked.die ht hstate hidle status
  rw [hdie, Option.bind_some] at hrun
  have hkeep : KeepsTime s (s.killed task.serial status) := by
    have hmod : KeepsTime s (s.modify s.current fun task => { task with state := .died, status := status }) := by
      refine KeepsTime.modify fun a ha => ⟨rfl, rfl, iff_of_false (by simp) ?_, Iff.rfl⟩
      obtain rfl := Option.some.inj (ht.symm.trans ha)
      rw [hstate]
      simp
    exact ⟨hmod.back, hmod.list, hmod.jiffies⟩
  generalize s.killed task.serial status = v at *
  rw [leave, Option.bind_eq_bind, Option.bind_eq_some_iff] at hrun
  obtain ⟨child, -, hrun⟩ := hrun
  obtain ⟨w, hwake, hsched⟩ := Option.bind_eq_some_iff.mp hrun
  have hrep : KeepsTime v (v.reparent child.pid child.ppid) := by
    refine ⟨fun {i b} hb => ?_, rfl, rfl⟩
    rw [hkilled.table_reparent] at hb
    obtain ⟨a, ha, rfl⟩ := Option.map_eq_some_iff.mp hb
    refine ⟨a, ha, ?_⟩
    rw [reparented_eq]
    exact ⟨rfl, rfl, Iff.rfl, Iff.rfl⟩
  have hlinked := hkilled.reparent child.pid child.ppid
  have hasleep' := (hkeep.trans hrep).asleep hasleep
  generalize v.reparent child.pid child.ppid = x at *
  rw [wakeParent, Option.bind_eq_bind, Option.bind_eq_some_iff] at hwake
  obtain ⟨parent, hp, hwake⟩ := hwake
  split at hwake
  next hwait =>
    obtain ⟨list, hlist⟩ := Option.ne_none_iff_exists'.mp ((hlinked.waits hp).mpr (Or.inr (Or.inr hwait.1)))
    obtain ⟨w', hunblock, hdone⟩ := hlinked.taskUnblock hp hlist
    obtain rfl := Option.some.inj (hwake.symm.trans hunblock)
    have hstep := hasleep'.keepsTime_unblock hp (by rw [hwait.1]; simp) hwake
    exact ((hkeep.trans hrep).trans hstep).trans (hdone.linked.keepsTime_schedule hsched)
  next =>
    obtain rfl := Option.some.inj hwake
    exact (hkeep.trans hrep).trans (hlinked.keepsTime_schedule hsched)

/-! ### Falling asleep -/

/-- The ticks that `task_sleep` asks for. -/
def sleepTicks (ms : ℕ) : ℕ := if 0 < ms / jiffy then ms / jiffy else 1

/-- **The running task falls asleep.** -/
structure Dozes (s t : Sched) (ms : ℕ) : Prop where
  /-- Its deadline. -/
  self : ∃ a b, s.table s.current = some a ∧ t.table s.current = some b ∧ b.state = .sleeping ∧
    b.node = some sleepList ∧ b.priority = a.priority ∧ b.ticks = int32 (u32 (s.jiffies + sleepTicks ms))
  /-- The other tasks. -/
  back : ∀ {i b}, i ≠ s.current → t.table i = some b → ∃ a, s.table i = some a ∧ SameTime a b
  /-- It is in its place. -/
  list : t.lists sleepList = listInsertSort
    (fun i => if i = s.current then int32 (u32 (s.jiffies + sleepTicks ms)) else ((s.table i).map SchedTask.ticks).getD 0)
    s.current (s.lists sleepList)
  /-- The ticks. -/
  jiffies : t.jiffies = s.jiffies

/-- **`task_sleep`**. -/
theorem Sound.dozes_sleep (h : s.Sound) (hidle : s.current ≠ idleTask) {ms : ℕ} (hrun : s.taskSleep ms = some t) :
    Dozes s t ms := by
  obtain ⟨task, ht, hstate⟩ := h.active
  have hnode : task.node = none := h.linked.node_none ht (hstate ▸ not_waiting_running)
  obtain ⟨u, hu⟩ : ∃ u, u = s.modify s.current fun task =>
    { task with ticks := int32 (u32 (s.jiffies + sleepTicks ms)) } := ⟨_, rfl⟩
  have hulinked : u.Linked := hu ▸ h.linked.tune fun _ => ⟨rfl, rfl, rfl⟩
  have hucurrent : u.current = s.current := by rw [hu]; rfl
  have hut : u.table u.current = some { task with ticks := int32 (u32 (s.jiffies + sleepTicks ms)) } := by
    rw [hucurrent, hu]
    exact table_modify_self.trans (congrArg _ ht)
  obtain ⟨tasks, htasks⟩ : ∃ tasks, tasks = listInsertSort (fun i => ((u.table i).map SchedTask.ticks).getD 0)
    u.current (u.lists sleepList) := ⟨_, rfl⟩
  have hsched : (u.linkedIn sleepList tasks .sleeping).schedule = some t := by
    rw [Sched.taskSleep] at hrun
    simp only [ht, Option.bind_eq_bind, Option.bind_some, assert_pos hnode] at hrun
    rw [← hrun, linkedIn, htasks, hu]
    rfl
  have hlinked : (u.linkedIn sleepList tasks .sleeping).Linked :=
    hulinked.link hut (hulinked.node_none hut (by rw [hstate]; exact not_waiting_running)) (Or.inr (Or.inl rfl))
      (hucurrent ▸ hidle) (htasks ▸ listInsertSort_perm) fun _ => ⟨rfl, rfl, rfl⟩
  have hkeep := hlinked.keepsTime_schedule hsched
  refine ⟨?_, fun {i b} hi hb => ?_, ?_, hkeep.jiffies.trans (by rw [hu]; rfl)⟩
  · have hself : (u.linkedIn sleepList tasks .sleeping).table s.current =
        some { task with
          ticks := int32 (u32 (s.jiffies + sleepTicks ms)), node := some sleepList, state := .sleeping } := by
      rw [← hucurrent]
      exact table_modify_self.trans (congrArg _ hut)
    obtain ⟨b, hb⟩ : ∃ b, t.table s.current = some b := by
      obtain ⟨t', hrun', hdone⟩ := hlinked.schedule
      obtain rfl := Option.some.inj (hsched.symm.trans hrun')
      exact (hdone.stirs.forth hself).imp fun _ hb => hb.1
    obtain ⟨a, ha, hab⟩ := hkeep.back hb
    obtain rfl := Option.some.inj (hself.symm.trans ha)
    exact ⟨task, b, ht, hb, hab.sleeping.mpr rfl, hab.node.mpr rfl, hab.priority, hab.ticks⟩
  · obtain ⟨a, ha, hab⟩ := hkeep.back hb
    refine ⟨a, ?_, hab⟩
    rw [linkedIn] at ha
    rcases table_modify_eq_some.mp ha with ⟨-, ha⟩ | ⟨hc, -⟩
    · have ha' : u.table i = some a := ha
      rwa [hu, table_modify_of_ne hi] at ha'
    · exact absurd (hc.trans hucurrent) hi
  · rw [hkeep.list]
    rw [show (u.linkedIn sleepList tasks .sleeping).lists sleepList = tasks from
      lists_setList_self u sleepList tasks]
    rw [htasks, hucurrent, show u.lists sleepList = s.lists sleepList by rw [hu]; rfl]
    congr 1
    funext i
    rw [hu, table_modify]
    by_cases hi : i = s.current
    · subst hi
      rw [if_pos rfl, ht]
      simp
    · rw [if_neg hi]
      simp [hi]

/-! ### Waking up -/

/-- A task that has been woken. -/
def wokenTask (task : SchedTask) : SchedTask := { task with ticks := 0, node := none, state := .ready }

/-- **`task_wakeup` wakes the front of `sleep_list`**, as far as the deadlines have passed. -/
structure Wakes (s t : Sched) (w : List ℕ) : Prop where
  /-- They are gone from the list. -/
  list : s.lists sleepList = w ++ t.lists sleepList
  /-- Their deadlines have passed. -/
  passed : ∀ i ∈ w, ∃ a, s.table i = some a ∧ unsigned a.ticks ≤ s.jiffies
  /-- The next one has not. -/
  next : ∀ i ∈ (t.lists sleepList).head?, ∃ a, s.table i = some a ∧ s.jiffies < unsigned a.ticks
  /-- They are ready, and the other tasks are as they were. -/
  table : ∀ i, t.table i = if i ∈ w then (s.table i).map wokenTask else s.table i
  /-- The ticks. -/
  jiffies : t.jiffies = s.jiffies
  /-- The task that runs. -/
  current : t.current = s.current

/-- **The loop of `task_wakeup`.** -/
theorem wakes_wakeLoop : ∀ {tasks : List ℕ} {s : Sched}, s.lists sleepList = tasks → tasks.Nodup →
    (∀ i ∈ tasks, ∃ a, s.table i = some a ∧ a.node = some sleepList) → Sched.wakeLoop tasks s = some t →
    ∃ w, Wakes s t w := by
  intro tasks
  induction tasks with
  | nil =>
    intro s hlist _ _ hrun
    obtain rfl := Option.some.inj hrun
    refine ⟨[], rfl, by simp, ?_, fun i => by simp, rfl, rfl⟩
    rw [hlist]
    simp
  | cons i tasks ih =>
    intro s hlist hnodup hnodes hrun
    obtain ⟨hi, htasks⟩ := List.nodup_cons.mp hnodup
    obtain ⟨task, ht, hnode⟩ := hnodes i List.mem_cons_self
    rw [Sched.wakeLoop, ht, Option.bind_eq_bind, Option.bind_some] at hrun
    split at hrun
    next hlater =>
      obtain rfl := Option.some.inj hrun
      refine ⟨[], rfl, by simp, fun j hj => ?_, fun j => by simp, rfl, rfl⟩
      rw [hlist] at hj
      obtain rfl : i = j := by simpa using hj
      exact ⟨task, ht, hlater⟩
    next hnow =>
      obtain ⟨u, hunblock, hloop⟩ := Option.bind_eq_some_iff.mp hrun
      have hmod : (s.modify i fun task => { task with ticks := 0 }).table i = some { task with ticks := 0 } :=
        table_modify_self.trans (congrArg _ ht)
      rw [Sched.taskUnblock, hmod, Option.bind_eq_bind, Option.bind_some, hnode, Option.bind_eq_bind,
        Option.bind_some] at hunblock
      have hu := Option.some.inj hunblock
      have hulist : u.lists sleepList = tasks := by
        have herase : u.lists sleepList = (s.lists sleepList).erase i := by
          rw [← hu]
          exact lists_setList_self (s.modify i fun task => { task with ticks := 0 }) sleepList _
        rw [herase, hlist, List.erase_cons_head]
      have hutable : ∀ j, u.table j = if j = i then (s.table j).map wokenTask else s.table j := by
        intro j
        rw [← hu, table_modify]
        change Option.map _ ((s.modify i fun task => { task with ticks := 0 }).table j) = _
        rw [table_modify, Option.map_map]
        by_cases hj : j = i
        · subst hj
          simp only [if_pos, ht, Option.map_some, Function.comp_apply, wokenTask]
        · simp only [if_neg hj]
          exact Option.map_id'
      have hujiffies : u.jiffies = s.jiffies := by rw [← hu]; rfl
      obtain ⟨w, hw⟩ := ih hulist htasks (fun j hj => by
        obtain ⟨a, ha, hnode'⟩ := hnodes j (List.mem_cons_of_mem i hj)
        refine ⟨a, ?_, hnode'⟩
        rw [hutable, if_neg (fun hc : j = i => hi (hc ▸ hj)), ha]) hloop
      have hiw : ∀ j ∈ w, j ≠ i := by
        rintro j hj rfl
        refine hi (hulist ▸ hw.list ▸ List.mem_append_left _ hj)
      refine ⟨i :: w, ?_, fun j hj => ?_, fun j hj => ?_, fun j => ?_, hw.jiffies.trans hujiffies,
        hw.current.trans (by rw [← hu]; rfl)⟩
      · rw [hlist, ← hulist, hw.list, List.cons_append]
      · rcases List.mem_cons.mp hj with rfl | hj
        · exact ⟨task, ht, Nat.le_of_not_lt hnow⟩
        · obtain ⟨a, ha, hle⟩ := hw.passed j hj
          rw [hutable, if_neg (hiw j hj)] at ha
          exact ⟨a, ha, hujiffies ▸ hle⟩
      · obtain ⟨a, ha, hlt⟩ := hw.next j hj
        have hji : j ≠ i := by
          rintro rfl
          refine hi (hulist ▸ hw.list ▸ List.mem_append_right _ (List.mem_of_mem_head? hj))
        rw [hutable, if_neg hji] at ha
        exact ⟨a, ha, hujiffies ▸ hlt⟩
      · rw [hw.table, hutable]
        by_cases hj : j = i
        · subst hj
          have hnot : j ∉ w := fun hc => hiw j hc rfl
          rw [if_neg hnot, if_pos rfl, if_pos List.mem_cons_self]
        · rw [if_neg hj]
          simp [hj]

/-- **`task_wakeup`**. -/
theorem Linked.wakes_taskWakeup (h : s.Linked) (hrun : s.taskWakeup = some t) : ∃ w, Wakes s t w :=
  wakes_wakeLoop rfl (h.nodup sleepList) (fun _ hi => h.mem.mp hi) hrun

/-! ### The clock -/

/-- **A tick of the clock**: the tasks `w` wake up, and the running task has a tick less. -/
structure Ticks (s t : Sched) (w : List ℕ) : Prop where
  /-- The tasks that wake up are gone from the list. -/
  list : s.lists sleepList = w ++ t.lists sleepList
  /-- Their deadlines have passed. -/
  passed : ∀ i ∈ w, ∃ a, s.table i = some a ∧ unsigned a.ticks ≤ u32 (s.jiffies + 1)
  /-- The next one has not. -/
  next : ∀ i ∈ (t.lists sleepList).head?, ∃ a, s.table i = some a ∧ u32 (s.jiffies + 1) < unsigned a.ticks
  /-- They no longer sleep. -/
  woken : ∀ i ∈ w, ∃ a b, s.table i = some a ∧ t.table i = some b ∧ b.ticks = 0 ∧ b.priority = a.priority ∧
    (b.state = .ready ∨ b.state = .running) ∧ b.node ≠ some sleepList
  /-- The other tasks. -/
  other : ∀ {i b}, i ∉ w → i ≠ s.current → t.table i = some b → ∃ a, s.table i = some a ∧ SameTime a b
  /-- The running task, that has all its ticks again when they are used up. -/
  self : ∃ a b, s.table s.current = some a ∧ t.table s.current = some b ∧
    SameTime { a with ticks := if a.ticks = 1 then int32 a.priority else a.ticks - 1 } b
  /-- It goes on unless they are. -/
  goes : ∀ a, s.table s.current = some a → a.ticks ≠ 1 → t.current = s.current
  /-- Then `schedule` is called. -/
  ends : ∀ a, s.table s.current = some a → a.ticks = 1 → ∃ u : Sched, u.current = s.current ∧ u.schedule = some t
  /-- The ticks. -/
  jiffies : t.jiffies = u32 (s.jiffies + 1)

/-- **`clock_handler`**. -/
theorem Sound.ticks_clock (h : s.Sound) (hasleep : s.Asleep) (hrun : s.clockHandler = some t) : ∃ w, Ticks s t w := by
  obtain ⟨task, ht, hstate⟩ := h.active
  obtain ⟨u, hu⟩ : ∃ u, u = { s with jiffies := u32 (s.jiffies + 1) } := ⟨_, rfl⟩
  have hutable : u.table = s.table := by rw [hu]
  have hucurrent : u.current = s.current := by rw [hu]
  have hulists : u.lists = s.lists := by rw [hu]
  have hujiffies : u.jiffies = u32 (s.jiffies + 1) := by rw [hu]
  have hulinked : u.Linked := by
    rw [hu]
    exact ⟨h.linked.slot, h.linked.here, h.linked.idle, h.linked.running, h.linked.waits, h.linked.mem,
      h.linked.nodup⟩
  obtain ⟨v, hv, hwoken⟩ := hulinked.taskWakeup
  obtain ⟨w, hw⟩ := hulinked.wakes_taskWakeup hv
  -- the running task does not sleep
  have hcw : s.current ∉ w := by
    intro hc
    have hmem : s.current ∈ s.lists sleepList := hulists ▸ hw.list ▸ List.mem_append_left _ hc
    obtain ⟨a, ha, hsleep⟩ := (h.linked.mem_sleepList hasleep).mp hmem
    obtain rfl := Option.some.inj (ht.symm.trans ha)
    exact absurd (hsleep.symm.trans hstate) (by simp)
  have hvt : v.table v.current = some task := by
    rw [hw.current, hucurrent, hw.table, if_neg hcw, hutable, ht]
  obtain ⟨x, hx⟩ : ∃ x, x = v.modify v.current fun task =>
    { task with jiffies := v.jiffies, ticks := task.ticks - 1 } := ⟨_, rfl⟩
  have hxlinked : x.Linked := hx ▸ hwoken.linked.tune fun _ => ⟨rfl, rfl, rfl⟩
  have hxcurrent : x.current = s.current := by
    rw [hx]
    exact hw.current.trans hucurrent
  have hxt : x.table s.current = some { task with jiffies := v.jiffies, ticks := task.ticks - 1 } := by
    have hvc : v.current = s.current := hw.current.trans hucurrent
    rw [← hvc, hx, table_modify_self, hvt]
    rfl
  have hxother : ∀ i, i ≠ s.current → x.table i = if i ∈ w then (s.table i).map wokenTask else s.table i := by
    intro i hi
    rw [hx, table_modify_of_ne (by rw [hw.current, hucurrent]; exact hi), hw.table, hutable]
  have hxlist : x.lists sleepList = v.lists sleepList := by rw [hx]; rfl
  have hxjiffies : x.jiffies = u32 (s.jiffies + 1) := by
    rw [hx]
    exact hw.jiffies.trans hujiffies
  -- what follows leaves the ticks of the other tasks alone
  obtain ⟨y, hkeep, hyself, hyt, hystirs, hgoes, hready, hends⟩ : ∃ y : Sched, KeepsTime y t ∧
      y.table s.current = some { task with
        jiffies := v.jiffies, ticks := if task.ticks = 1 then int32 task.priority else task.ticks - 1 } ∧
      (∀ i, i ≠ s.current → y.table i = x.table i) ∧ (y.lists = x.lists ∧ y.jiffies = x.jiffies ∧ Stirs y t) ∧
      (task.ticks ≠ 1 → t.current = s.current) ∧ (∀ {i a b}, y.table i = some a → a.state = .ready →
        t.table i = some b → b.state = .ready ∨ b.state = .running) ∧
      (task.ticks = 1 → ∃ u : Sched, u.current = s.current ∧ u.schedule = some t) := by
    rw [Sched.clockHandler] at hrun
    simp only [← hu, hv, Option.bind_eq_bind, Option.bind_some, ← hx, hxcurrent, hxt] at hrun
    by_cases hone : task.ticks = 1
    · obtain ⟨y, hy⟩ : ∃ y, y = x.modify s.current fun task => { task with ticks := int32 task.priority } := ⟨_, rfl⟩
      rw [if_pos (by rw [hone]; rfl), ← hy] at hrun
      have hylinked : y.Linked := hy ▸ hxlinked.tune fun _ => ⟨rfl, rfl, rfl⟩
      obtain ⟨t', hrun', hdone⟩ := hylinked.schedule
      obtain rfl := Option.some.inj (hrun.symm.trans hrun')
      refine ⟨y, hylinked.keepsTime_schedule hrun, ?_, fun i hi => ?_, ⟨by rw [hy]; rfl, by rw [hy]; rfl, hdone.stirs⟩,
        fun hne => absurd hone hne, fun ha hready hb => ready_schedule hrun ha hready hb,
        fun _ => ⟨y, by rw [hy]; exact hxcurrent, hrun⟩⟩
      · rw [hy, table_modify_self, hxt, if_pos hone]
        rfl
      · rw [hy, table_modify_of_ne hi]
    · rw [if_neg (by omega)] at hrun
      obtain rfl := Option.some.inj hrun
      refine ⟨x, KeepsTime.refl x, ?_, fun _ _ => rfl, ⟨rfl, rfl, Stirs.refl x⟩, fun _ => hxcurrent,
        fun {i a b} ha hready hb => ?_, fun hc => absurd hc hone⟩
      · rw [hxt, if_neg hone]
      · obtain rfl := Option.some.inj (ha.symm.trans hb)
        exact Or.inl hready
  have htlist : t.lists sleepList = v.lists sleepList := by rw [hkeep.list, hystirs.1, hxlist]
  refine ⟨w, ?_, fun i hi => ?_, fun i hi => ?_, fun i hi => ?_, fun {i b} hi hne hb => ?_, ?_, fun a ha hne => ?_,
    fun a ha hone => ?_, hkeep.jiffies.trans (hystirs.2.1.trans hxjiffies)⟩
  · rw [htlist, ← hw.list, hulists]
  · have := hw.passed i hi
    rwa [hutable, hujiffies] at this
  · have := hw.next i (htlist ▸ hi)
    rwa [hutable, hujiffies] at this
  · have hne : i ≠ s.current := fun hc => hcw (hc ▸ hi)
    obtain ⟨a, ha, -⟩ := hw.passed i hi
    rw [hutable] at ha
    have hyi : y.table i = some (wokenTask a) := by rw [hyt i hne, hxother i hne, if_pos hi, ha]; rfl
    obtain ⟨b, hb, -⟩ := hystirs.2.2.forth hyi
    obtain ⟨a', ha', hab⟩ := hkeep.back hb
    obtain rfl := Option.some.inj (hyi.symm.trans ha')
    refine ⟨a, b, ha, hb, hab.ticks, hab.priority, hready hyi rfl hb, fun hc => ?_⟩
    exact absurd (hab.node.mp hc) (by simp [wokenTask])
  · obtain ⟨a, ha, hab⟩ := hkeep.back hb
    rw [hyt i hne, hxother i hne, if_neg hi] at ha
    exact ⟨a, ha, hab⟩
  · obtain ⟨b, hb, -⟩ := hystirs.2.2.forth hyself
    obtain ⟨a', ha', hab⟩ := hkeep.back hb
    obtain rfl := Option.some.inj (hyself.symm.trans ha')
    exact ⟨task, b, ht, hb, ⟨hab.ticks, hab.priority, hab.sleeping, hab.node⟩⟩
  · obtain rfl := Option.some.inj (ht.symm.trans ha)
    exact hgoes hne
  · obtain rfl := Option.some.inj (ht.symm.trans ha)
    exact hends hone

/-! ### A child -/

/-- A child in a free slot. -/
structure Bears (s t : Sched) (pid : ℕ) : Prop where
  /-- The slot was free. -/
  free : s.table pid = none
  /-- The child has all its ticks. -/
  child : ∃ a child, s.table s.current = some a ∧ t.table pid = some child ∧ child.ticks = int32 a.priority ∧
    child.priority = a.priority ∧ child.state = .ready ∧ child.node = none
  /-- The other tasks. -/
  other : ∀ i, i ≠ pid → t.table i = s.table i
  /-- The lists. -/
  lists : t.lists = s.lists
  /-- The ticks. -/
  jiffies : t.jiffies = s.jiffies

/-- **`task_fork`**. -/
theorem Sound.bears_fork {r : SchedRet} (h : s.Sound) (hrun : s.taskFork = some (r, t)) :
    ∃ pid, r = .forked pid ∧ Bears s t pid := by
  obtain ⟨task, ht, hstate⟩ := h.active
  have hnode : task.node = none := h.linked.node_none ht (hstate ▸ not_waiting_running)
  rw [Sched.taskFork, ht, Option.bind_eq_bind, Option.bind_some, Option.bind_eq_bind, Option.bind_eq_some_iff] at hrun
  obtain ⟨-, -, hrun⟩ := hrun
  obtain ⟨pid, hpid, hrun⟩ := Option.bind_eq_some_iff.mp hrun
  obtain ⟨rfl, rfl⟩ := Prod.mk.inj (Option.some.inj hrun)
  have hfree : s.table pid = none := by simpa using List.find?_some hpid
  exact ⟨pid, rfl, hfree, ⟨task, _, ht, if_pos rfl, rfl, rfl, rfl, hnode⟩, fun i hi => if_neg hi, rfl, rfl⟩

/-! ### All the steps -/

theorem Dozes.asleep {ms : ℕ} (h : Dozes s t ms) (hasleep : s.Asleep) : t.Asleep := by
  intro i b hb
  by_cases hi : i = s.current
  · obtain ⟨-, b', -, hb', hstate, hnode, -⟩ := h.self
    obtain rfl := Option.some.inj ((hi ▸ hb).symm.trans hb')
    exact iff_of_true hnode hstate
  · obtain ⟨a, ha, hab⟩ := h.back hi hb
    exact hab.node.trans ((hasleep i a ha).trans hab.sleeping.symm)

theorem Wakes.asleep {w : List ℕ} (h : Wakes s t w) (hasleep : s.Asleep) : t.Asleep := by
  intro i b hb
  rw [h.table] at hb
  split at hb
  · obtain ⟨a, -, rfl⟩ := Option.map_eq_some_iff.mp hb
    exact iff_of_false (by simp [wokenTask]) (by simp [wokenTask])
  · exact hasleep i b hb

theorem Ticks.asleep {w : List ℕ} (h : Ticks s t w) (hasleep : s.Asleep) : t.Asleep := by
  intro i b hb
  by_cases hw : i ∈ w
  · obtain ⟨-, b', -, hb', -, -, hstate, hnode⟩ := h.woken i hw
    obtain rfl := Option.some.inj (hb.symm.trans hb')
    refine iff_of_false hnode fun hc => ?_
    rcases hstate with hstate | hstate <;> exact absurd (hc.symm.trans hstate) (by simp)
  · by_cases hi : i = s.current
    · obtain ⟨a, b', ha, hb', hab⟩ := h.self
      obtain rfl := Option.some.inj ((hi ▸ hb).symm.trans hb')
      exact hab.node.trans ((hasleep _ a ha).trans hab.sleeping.symm)
    · obtain ⟨a, ha, hab⟩ := h.other hw hi hb
      exact hab.node.trans ((hasleep i a ha).trans hab.sleeping.symm)

theorem Bears.asleep {pid : ℕ} (h : Bears s t pid) (hasleep : s.Asleep) : t.Asleep := by
  intro i b hb
  by_cases hi : i = pid
  · obtain ⟨-, child, -, hchild, -, -, hstate, hnode⟩ := h.child
    obtain rfl := Option.some.inj ((hi ▸ hb).symm.trans hchild)
    exact iff_of_false (by rw [hnode]; simp) (by rw [hstate]; simp)
  · exact hasleep i b ((h.other i hi).symm.trans hb)

/-- **What a step does to the ticks.** -/
inductive TimeStep (s : Sched) : SchedOp → SchedRet → Sched → Prop where
  /-- Nothing. -/
  | keeps {op r t} : (op ≠ .clock ∧ op ≠ .wakeup ∧ (∀ ms, op ≠ .sleep ms) ∧ ∀ pid, r ≠ .forked pid) → KeepsTime s t →
      TimeStep s op r t
  /-- The running task falls asleep. -/
  | dozes {ms t} : Dozes s t ms → TimeStep s (.sleep ms) .unit t
  /-- Tasks wake up. -/
  | wakes {w t} : Wakes s t w → TimeStep s .wakeup .unit t
  /-- The clock ticks. -/
  | ticks {w t} : Ticks s t w → TimeStep s .clock .unit t
  /-- A child is made. -/
  | bears {pid t} : Bears s t pid → TimeStep s .fork (.forked pid) t

/-- **Every call does one of these.** -/
theorem Sound.timeStep {op : SchedOp} (h : s.Sound) (hasleep : s.Asleep) (hlegal : s.InTime op) :
    ∃ r t, s.step op = some (r, t) ∧ t.Sound ∧ t.Asleep ∧ TimeStep s op r t := by
  obtain ⟨r, t, hrun, ht, -⟩ := h.step hlegal.1
  have hkeep : (op ≠ .clock ∧ op ≠ .wakeup ∧ (∀ ms, op ≠ .sleep ms) ∧ ∀ pid, r ≠ .forked pid) → KeepsTime s t →
      ∃ r t, s.step op = some (r, t) ∧ t.Sound ∧ t.Asleep ∧ TimeStep s op r t :=
    fun hop hk => ⟨r, t, hrun, ht, hk.asleep hasleep, .keeps hop hk⟩
  obtain ⟨hlegal, hin⟩ := hlegal
  cases op with
  | schedule =>
    obtain ⟨u, hu, heq⟩ := Option.map_eq_some_iff.mp hrun
    obtain ⟨rfl, rfl⟩ := Prod.mk.inj heq
    exact hkeep (by simp) (h.linked.keepsTime_schedule hu)
  | block list =>
    obtain ⟨u, hu, heq⟩ := Option.map_eq_some_iff.mp hrun
    obtain ⟨rfl, rfl⟩ := Prod.mk.inj heq
    exact hkeep (by simp) (h.linked.keepsTime_block h.active hlegal hin (Or.inl rfl) (by simp) hu)
  | unblock i =>
    obtain ⟨u, hu, heq⟩ := Option.map_eq_some_iff.mp hrun
    obtain ⟨rfl, rfl⟩ := Prod.mk.inj heq
    obtain ⟨task, hi, -⟩ := hlegal
    exact hkeep (by simp) (hasleep.keepsTime_unblock hi (fun hc => hin ⟨task, hi, hc⟩) hu)
  | sleep ms =>
    obtain ⟨u, hu, heq⟩ := Option.map_eq_some_iff.mp hrun
    obtain ⟨rfl, rfl⟩ := Prod.mk.inj heq
    have hd := h.dozes_sleep hlegal hu
    exact ⟨_, u, hrun, ht, hd.asleep hasleep, .dozes hd⟩
  | wakeup =>
    obtain ⟨u, hu, heq⟩ := Option.map_eq_some_iff.mp hrun
    obtain ⟨rfl, rfl⟩ := Prod.mk.inj heq
    obtain ⟨w, hw⟩ := h.linked.wakes_taskWakeup hu
    exact ⟨_, u, hrun, ht, hw.asleep hasleep, .wakes hw⟩
  | clock =>
    obtain ⟨u, hu, heq⟩ := Option.map_eq_some_iff.mp hrun
    obtain ⟨rfl, rfl⟩ := Prod.mk.inj heq
    obtain ⟨w, hw⟩ := h.ticks_clock hasleep hu
    exact ⟨_, u, hrun, ht, hw.asleep hasleep, .ticks hw⟩
  | fork =>
    obtain ⟨pid, rfl, hb⟩ := h.bears_fork hrun
    exact ⟨_, t, hrun, ht, hb.asleep hasleep, .bears hb⟩
  | waitpid query =>
    have hk := h.linked.keepsTime_waitpid h.active hlegal hrun
    refine hkeep ⟨by simp, by simp, by simp, fun pid hc => ?_⟩ hk
    rcases h.linked.taskWaitpid h.active hlegal query with ⟨_, _, u, hrun', -⟩ | ⟨hrun', -⟩ | ⟨u, hrun', -⟩ <;>
      exact absurd (hc.symm.trans (Prod.mk.inj (Option.some.inj (hrun.symm.trans hrun'))).1) (by simp)
  | exit status =>
    obtain ⟨u, hu, heq⟩ := Option.map_eq_some_iff.mp hrun
    obtain ⟨rfl, rfl⟩ := Prod.mk.inj heq
    exact hkeep (by simp) (h.keepsTime_exit hasleep hlegal hu)
  | die status => exact hlegal.elim
  | leave => exact hlegal.elim

theorem asleep_started (jiffies : ℕ) : (started jiffies).Asleep := by
  intro i task ht
  obtain ⟨hstate, hnode, -⟩ := state_started ht
  refine iff_of_false (by rw [hnode]; simp) fun hc => ?_
  rw [hc] at hstate
  exact absurd hstate (by simp)

theorem Start.asleep (h : s.Start) : s.Asleep := by
  obtain ⟨jiffies, hs⟩ := h
  obtain rfl := Option.some.inj (hs.symm.trans (schedule_taskInit jiffies))
  exact asleep_started jiffies

end Sched

end Onixs
