import Onixs.Kernel.SchedSteps

/-!
# What `task_fork`, `task_waitpid` and `task_exit` do

The functions that make and end tasks, each in the terms of `Sched.Linked`. `task_exit` is taken
apart: the task dies (`Sched.Dies`), its children become those of its parent, its parent may
go on (`Sched.WakesParent`), and another task is scheduled.
-/

namespace Onixs

namespace Sched

variable {s t u : Sched} {i j pid ppid : ℕ} {task parent : SchedTask} {status : ℤ}

/-! ### `task_fork` -/

/-- What `task_fork` does. -/
structure Born (s t : Sched) (pid : ℕ) : Prop where
  /-- The invariant. -/
  linked : t.Linked
  /-- The task that runs is running. -/
  active : t.Active
  /-- The slot was free, -/
  free : s.table pid = none
  /-- and has the child. -/
  child : ∃ child, t.table pid = some child ∧ child.ppid = s.current ∧ child.serial = s.made ∧
    child.state = .ready
  /-- The other tasks. -/
  other : ∀ {i}, i ≠ pid → t.table i = s.table i
  /-- The task that runs. -/
  current : t.current = s.current
  /-- The tasks that have been made. -/
  made : t.made = s.made + 1
  /-- The tasks that have died. -/
  exited : t.exited = s.exited
  /-- The tasks that have been returned. -/
  returned : t.returned = s.returned

/-- `task_getFreeTask` finds a slot when there is one. -/
theorem getFreeTask_isSome (h : ∃ i < taskNumber, s.table i = none) :
    ∃ i, s.getFreeTask = some i ∧ i < taskNumber ∧ s.table i = none := by
  obtain ⟨i, hi, hfree⟩ := h
  cases hfound : s.getFreeTask with
  | none => exact absurd (List.find?_eq_none.mp hfound i (List.mem_range.mpr hi)) (by simp [hfree])
  | some j =>
    exact ⟨j, rfl, List.mem_range.mp (List.mem_of_find?_eq_some hfound), by simpa using List.find?_some hfound⟩

/-- **`task_fork`.** -/
theorem Linked.taskFork (h : s.Linked) (hactive : s.Active) (hfree : ∃ i < taskNumber, s.table i = none) :
    ∃ pid t, s.taskFork = some (.forked pid, t) ∧ Born s t pid := by
  obtain ⟨task, ht, hrun⟩ := hactive
  obtain ⟨pid, hpid, hlt, hnone⟩ := getFreeTask_isSome hfree
  have hnode : task.node = none := h.node_none ht (hrun ▸ not_waiting_running)
  obtain ⟨child, hchild⟩ : ∃ child, child = { task with
    pid := pid, ppid := task.pid, ticks := int32 task.priority, state := TaskState.ready, serial := s.made } :=
    ⟨_, rfl⟩
  obtain ⟨t, hdef⟩ : ∃ t : Sched, t = { s with
    table := fun i => if i = pid then some child else s.table i
    made := s.made + 1 } := ⟨_, rfl⟩
  have hself : t.table pid = some child := by
    rw [hdef]
    exact if_pos rfl
  have hother : ∀ {i}, i ≠ pid → t.table i = s.table i := fun hi => by
    rw [hdef]
    exact if_neg hi
  have hcurrent : t.current = s.current := by rw [hdef]
  have hne : ∀ {i a}, s.table i = some a → i ≠ pid := by
    rintro i a ha rfl
    exact absurd (ha.symm.trans hnone) (by simp)
  have hkeep : ∀ {i a}, s.table i = some a → t.table i = some a := fun ha => (hother (hne ha)).trans ha
  have hchildnode : child.node = none := by rw [hchild]; exact hnode
  have hchildstate : child.state = .ready := by rw [hchild]
  refine ⟨pid, t, ?_, ⟨⟨fun {i b} hb => ?_, ⟨task, hcurrent ▸ hkeep ht⟩, ?_, fun {i b} hb hb' => ?_,
    fun {i b} hb => ?_, fun {i l} => ?_, ?_⟩, ⟨task, hcurrent ▸ hkeep ht, hrun⟩, hnone,
    ⟨child, hself, ?_, by rw [hchild], hchildstate⟩, hother, hcurrent, by rw [hdef], by rw [hdef],
    by rw [hdef]⟩⟩
  · rw [Sched.taskFork]
    simp only [ht, Option.bind_eq_bind, Option.bind_some, assert_pos (And.intro hnode hrun), hpid, ← hchild, ← hdef]
    rfl
  · rcases eq_or_ne i pid with rfl | hi
    · obtain rfl := Option.some.inj (hself.symm.trans hb)
      exact ⟨hlt, by rw [hchild]⟩
    · exact h.slot ((hother hi).symm.trans hb)
  · obtain ⟨a, ha, hready⟩ := h.idle
    exact ⟨a, hkeep ha, hready⟩
  · rcases eq_or_ne i pid with rfl | hi
    · obtain rfl := Option.some.inj (hself.symm.trans hb)
      exact absurd (hchildstate.symm.trans hb') (by simp)
    · exact hcurrent.symm ▸ h.running ((hother hi).symm.trans hb) hb'
  · rcases eq_or_ne i pid with rfl | hi
    · obtain rfl := Option.some.inj (hself.symm.trans hb)
      exact iff_of_false (fun hc => hc hchildnode) (hchildstate ▸ not_waiting_ready)
    · exact h.waits ((hother hi).symm.trans hb)
  · rw [show t.lists = s.lists by rw [hdef], h.mem]
    constructor
    · rintro ⟨a, ha, hl⟩
      exact ⟨a, hkeep ha, hl⟩
    · rintro ⟨b, hb, hl⟩
      rcases eq_or_ne i pid with rfl | hi
      · obtain rfl := Option.some.inj (hself.symm.trans hb)
        exact absurd (hchildnode.symm.trans hl) (by simp)
      · exact ⟨b, (hother hi).symm.trans hb, hl⟩
  · rw [show t.lists = s.lists by rw [hdef]]
    exact h.nodup
  · rw [hchild]
    exact (h.slot ht).2

/-! ### `task_waitpid` -/

/-- What `task_waitpid` does when it finds a child that has died. -/
structure Reaps (s t : Sched) (query : ℤ) (pid : ℕ) (status : ℤ) : Prop where
  /-- The invariant. -/
  linked : t.Linked
  /-- The task that runs is running. -/
  active : s.Active → t.Active
  /-- Slot `pid` had a child of the caller that has died. -/
  child : ∃ child, s.table pid = some child ∧ child.state = .died ∧ child.ppid = s.current ∧
    (query = -1 ∨ query = pid) ∧ child.status = status ∧ t.returned = s.returned ++ [(child.serial, status)]
  /-- The slot is free. -/
  free : t.table pid = none
  /-- The other tasks. -/
  other : ∀ {i}, i ≠ pid → t.table i = s.table i
  /-- The task that runs. -/
  current : t.current = s.current
  /-- The tasks that have been made. -/
  made : t.made = s.made
  /-- The tasks that have died. -/
  exited : t.exited = s.exited

/-- The slots behind the first two. -/
theorem mem_waitSlots : i ∈ waitSlots ↔ 2 ≤ i ∧ i < taskNumber := by
  rw [waitSlots, List.mem_range'_1]
  exact Iff.rfl

/-- A slot that `task_waitpid` asks for, by its number. -/
theorem Linked.matches_iff (h : s.Linked) {query : ℤ} (ht : s.table i = some task) :
    s.Matches ppid query i ↔ task.ppid = ppid ∧ (query = -1 ∨ query = i) := by
  obtain ⟨-, hpid⟩ := h.slot ht
  constructor
  · rintro ⟨ptr, hptr, hppid, hquery⟩
    obtain rfl := Option.some.inj (ht.symm.trans hptr)
    refine ⟨hppid, ?_⟩
    rw [hpid] at hquery
    omega
  · rintro ⟨hppid, hquery⟩
    refine ⟨task, ht, hppid, ?_⟩
    rw [hpid]
    omega

/-- A task that waits for a child. -/
def waitsFor (s : Sched) (query : ℤ) : Sched :=
  let u := s.modify s.current fun task => { task with waitpid := query }
  u.linkedIn blockList (u.current :: u.lists blockList) .waitting

/-- **`task_waitpid`** has three outcomes. -/
theorem Linked.taskWaitpid (h : s.Linked) (hactive : s.Active) (hidle : s.current ≠ idleTask) (query : ℤ) :
    (∃ pid status t, s.taskWaitpid query = some (.reaped pid status, t) ∧ Reaps s t query pid status) ∨
    (s.taskWaitpid query = some (.noChild, s) ∧ ∀ i, 2 ≤ i → ¬s.Matches s.current query i) ∨
    (∃ t, s.taskWaitpid query = some (.waits, t) ∧ (s.waitsFor query).Linked ∧
      Scheduled (s.waitsFor query) t ∧ (∃ i, s.Matches s.current query i) ∧
      ∀ i, 2 ≤ i → s.Matches s.current query i → ¬s.Died i) := by
  obtain ⟨task, ht, hrun⟩ := hactive
  have hpid : task.pid = s.current := (h.slot ht).2
  cases hfound : waitSlots.find? fun i => s.Matches s.current query i ∧ s.Died i with
  | some pid =>
    obtain ⟨⟨child, hchild, hppid, hquery⟩, child', hchild', hdied⟩ : s.Matches s.current query pid ∧ s.Died pid := by
      simpa using List.find?_some hfound
    obtain rfl := Option.some.inj (hchild.symm.trans hchild')
    have hslot : child.pid = pid := (h.slot hchild).2
    have hnode : child.node = none := h.node_none hchild (hdied ▸ not_waiting_died)
    obtain ⟨t, hdef⟩ : ∃ t : Sched, t = { s with
      table := fun j => if j = pid then none else s.table j
      returned := s.returned ++ [(child.serial, child.status)] } := ⟨_, rfl⟩
    have hother : ∀ {i}, i ≠ pid → t.table i = s.table i := fun hi => by
      rw [hdef]
      exact if_neg hi
    have hnone : t.table pid = none := by
      rw [hdef]
      exact if_pos rfl
    have hcurrent : t.current = s.current := by rw [hdef]
    have hback : ∀ {i b}, t.table i = some b → s.table i = some b := by
      intro i b hb
      rcases eq_or_ne i pid with rfl | hi
      · exact absurd (hnone.symm.trans hb) (by simp)
      · exact (hother hi).symm.trans hb
    have hkeep : ∀ {i a}, s.table i = some a → a ≠ child → t.table i = some a := by
      intro i a ha hne
      refine (hother ?_).trans ha
      rintro rfl
      exact hne (Option.some.inj (ha.symm.trans hchild))
    have htask : task ≠ child := by
      rintro rfl
      exact absurd (hrun.symm.trans hdied) (by simp)
    refine Or.inl ⟨pid, child.status, t, ?_, ⟨⟨fun hb => h.slot (hback hb), ⟨task, ?_⟩, ?_,
      fun hb hb' => hcurrent.symm ▸ h.running (hback hb) hb', fun hb => h.waits (hback hb), fun {i l} => ?_, ?_⟩,
      fun _ => ⟨task, ?_, hrun⟩, ⟨child, hchild, hdied, hppid, ?_, rfl, by rw [hdef]⟩, hnone, hother, hcurrent,
      by rw [hdef], by rw [hdef]⟩⟩
    · rw [Sched.taskWaitpid]
      simp only [ht, Option.bind_eq_bind, Option.bind_some, hpid, hfound, hchild, hslot, ← hdef]
      rfl
    · rw [hcurrent]
      exact hkeep ht htask
    · obtain ⟨a, ha, hready⟩ := h.idle
      refine ⟨a, hkeep ha ?_, hready⟩
      rintro rfl
      rcases hready with hready | hready <;> exact absurd (hdied.symm.trans hready) (by simp)
    · rw [show t.lists = s.lists by rw [hdef], h.mem]
      constructor
      · rintro ⟨a, ha, hl⟩
        refine ⟨a, hkeep ha ?_, hl⟩
        rintro rfl
        exact absurd (hnode.symm.trans hl) (by simp)
      · rintro ⟨b, hb, hl⟩
        exact ⟨b, hback hb, hl⟩
    · rw [show t.lists = s.lists by rw [hdef]]
      exact h.nodup
    · rw [hcurrent]
      exact hkeep ht htask
    · rw [hslot] at hquery
      omega
  | none =>
    refine Or.inr ?_
    have hslots : ∀ i, 2 ≤ i → s.Matches s.current query i → i ∈ waitSlots := by
      rintro i hi ⟨ptr, hptr, -⟩
      exact mem_waitSlots.mpr ⟨hi, (h.slot hptr).1⟩
    have hnone : ∀ i, 2 ≤ i → s.Matches s.current query i → ¬s.Died i := by
      intro i hi hm hd
      exact absurd (List.find?_eq_none.mp hfound i (hslots i hi hm)) (by simp [hm, hd])
    by_cases hany : waitSlots.any fun i => s.Matches s.current query i
    · obtain ⟨u, hu⟩ : ∃ u, u = s.modify s.current fun task => { task with waitpid := query } := ⟨_, rfl⟩
      have hulinked : u.Linked := hu ▸ h.tune fun _ => ⟨rfl, rfl, rfl⟩
      obtain ⟨b, hb, hbrun⟩ : u.Active := hu ▸ Active.modify ⟨task, ht, hrun⟩ fun _ => rfl
      have hucurrent : u.current = s.current := by rw [hu]; rfl
      obtain ⟨t, hblock, hlinked, hsched⟩ := hulinked.taskBlock hb (hbrun ▸ not_waiting_running)
        (hucurrent ▸ hidle) (Or.inr (Or.inr rfl) : Waiting .waitting) blockList
      rw [hu] at hlinked hsched
      refine Or.inr ⟨t, ?_, hlinked, hsched, ?_, hnone⟩
      · rw [Sched.taskWaitpid]
        simp only [ht, Option.bind_eq_bind, Option.bind_some, hpid, hfound, if_pos hany, ← hu, hblock]
        rfl
      · obtain ⟨i, -, hi⟩ := List.any_eq_true.mp hany
        exact ⟨i, of_decide_eq_true hi⟩
    · refine Or.inl ⟨?_, fun i hi hm => hany (List.any_eq_true.mpr ⟨i, hslots i hi hm, by simp [hm]⟩)⟩
      rw [Sched.taskWaitpid]
      simp only [ht, Option.bind_eq_bind, Option.bind_some, hpid, hfound, if_neg hany]
      rfl

/-! ### `task_exit` -/

/-- The running task has died. -/
def killed (s : Sched) (serial : ℕ) (status : ℤ) : Sched :=
  { s.modify s.current fun task => { task with state := .died, status := status } with
    exited := s.exited ++ [(serial, status)] }

/-- **`task_exit`**, up to where the resources are given back. -/
theorem Linked.die (h : s.Linked) (ht : s.table s.current = some task) (hrun : task.state = .running)
    (hidle : s.current ≠ idleTask) (status : ℤ) :
    s.die status = some (s.killed task.serial status) ∧ (s.killed task.serial status).Linked := by
  have hnode : task.node = none := h.node_none ht (hrun ▸ not_waiting_running)
  constructor
  · rw [Sched.die]
    simp only [ht, Option.bind_eq_bind, Option.bind_some, assert_pos (And.intro hnode hrun)]
    rfl
  · refine h.remap _ (table_modify s.current _) rfl (fun i a ha => ?_) ⟨task, ht⟩ (fun a ha hready => ?_)
      fun i a ha hrun' => ?_
    · split
      next hi =>
        subst hi
        obtain rfl := Option.some.inj (ht.symm.trans ha)
        exact ⟨rfl, rfl, iff_of_false not_waiting_died (hrun ▸ not_waiting_running)⟩
      next => exact ⟨rfl, rfl, Iff.rfl⟩
    · rw [if_neg hidle.symm]
      exact hready
    · split at hrun'
      next hi => exact hi
      next => exact h.running ha hrun'

/-- A child whose parent has died. -/
def reparented (pid ppid : ℕ) (child : SchedTask) : SchedTask :=
  if child.ppid = pid then { child with ppid := ppid } else child

theorem reparented_eq (pid ppid : ℕ) (child : SchedTask) :
    reparented pid ppid child = { child with ppid := if child.ppid = pid then ppid else child.ppid } := by
  rw [reparented]
  split <;> rfl

theorem Linked.table_reparent (h : s.Linked) (pid ppid i : ℕ) :
    (s.reparent pid ppid).table i = (s.table i).map (reparented pid ppid) := by
  by_cases hi : i < taskNumber
  · exact if_pos hi
  · refine (if_neg hi).trans ?_
    cases hti : s.table i with
    | none => rfl
    | some task => exact absurd (h.slot hti).1 hi

theorem Linked.reparent (h : s.Linked) (pid ppid : ℕ) : (s.reparent pid ppid).Linked := by
  refine h.remap _ (h.table_reparent pid ppid) rfl (fun i a _ => ?_) h.here (fun a _ hready => ?_) fun i a ha hrun => ?_
  · rw [reparented_eq]
    exact ⟨rfl, rfl, Iff.rfl⟩
  · rw [reparented_eq]
    exact hready
  · rw [reparented_eq] at hrun
    exact h.running ha hrun

/-- What a parent that waits for a child, or does not, does when the child has died. -/
structure WakesParent (s t : Sched) (pid ppid : ℕ) : Prop where
  /-- The invariant. -/
  linked : t.Linked
  /-- Nothing else has changed. -/
  stirs : Stirs s t
  /-- The other tasks. -/
  other : ∀ {i}, i ≠ ppid → t.table i = s.table i
  /-- The parent is ready when it waited for this child. -/
  ready : ∀ {parent}, s.table ppid = some parent → parent.state = .waitting →
    parent.waitpid = -1 ∨ parent.waitpid = pid → ∃ task, t.table ppid = some task ∧ task.state = .ready
  /-- The task that runs. -/
  current : t.current = s.current

/-- The parent of the task that exits. -/
theorem Linked.wakeParent (h : s.Linked) (hp : s.table ppid = some parent) (pid : ℕ) :
    ∃ t, s.wakeParent pid ppid = some t ∧ WakesParent s t pid ppid := by
  by_cases hwait : parent.state = .waitting ∧ (parent.waitpid = -1 ∨ parent.waitpid = pid)
  · obtain ⟨list, hlist⟩ := Option.ne_none_iff_exists'.mp ((h.waits hp).mpr (Or.inr (Or.inr hwait.1)))
    obtain ⟨t, ht, hunblocked⟩ := h.taskUnblock hp hlist
    refine ⟨t, ?_, hunblocked.linked, hunblocked.stirs, hunblocked.other, fun _ _ _ => hunblocked.self,
      hunblocked.current⟩
    rw [Sched.wakeParent, hp, Option.bind_eq_bind, Option.bind_some, if_pos hwait]
    exact ht
  · refine ⟨s, ?_, h, Stirs.refl s, fun _ => rfl, fun hp' hstate hquery => ?_, rfl⟩
    · rw [Sched.wakeParent, hp, Option.bind_eq_bind, Option.bind_some, if_neg hwait]
      rfl
    · obtain rfl := Option.some.inj (hp.symm.trans hp')
      exact absurd ⟨hstate, hquery⟩ hwait

/-- **`task_exit`**, behind where the resources have been given back. -/
theorem Linked.leave (h : s.Linked) (ht : s.table s.current = some task) (hp : s.table task.ppid = some parent) :
    ∃ u t, s.leave = some t ∧ WakesParent (s.reparent s.current task.ppid) u s.current task.ppid ∧
      Scheduled u t := by
  obtain ⟨u, hu, hwakes⟩ := (h.reparent s.current task.ppid).wakeParent
    ((h.table_reparent s.current task.ppid task.ppid).trans (congrArg _ hp)) s.current
  obtain ⟨t, hsched, hdone⟩ := hwakes.linked.schedule
  refine ⟨u, t, ?_, hwakes, hdone⟩
  rw [Sched.leave]
  simp only [ht, Option.bind_eq_bind, Option.bind_some, (h.slot ht).2, hu, hsched]

/-- It needs the parent. -/
theorem Linked.exists_parent (h : s.Linked) (ht : s.table s.current = some task) (hleave : s.leave = some t) :
    ∃ parent, s.table task.ppid = some parent := by
  rw [Sched.leave] at hleave
  simp only [ht, Option.bind_eq_bind, Option.bind_some, (h.slot ht).2, Sched.wakeParent, h.table_reparent] at hleave
  cases hp : s.table task.ppid with
  | none => simp [hp] at hleave
  | some parent => exact ⟨parent, rfl⟩

end Sched

end Onixs
