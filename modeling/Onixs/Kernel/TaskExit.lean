import Onixs.Kernel.Device
import Onixs.Kernel.SchedRun

/-!
# A task that exits and gives back its resources

`task_exit` with the functions it calls between `TASK_DIED` and its last `schedule`: `iput` and
`close` write what has been changed, which goes through `device_request`, and take locks. The
drivers look at the state of the task before they wait for an interrupt, but `device_request` and
`mutex_lock` do not: they call `task_block`, and whoever calls `task_unblock` makes the task
`TASK_READY`.

So a task that has died stays so as long as it does not block (`TaskDisks.Calm`), that is, as
long as it finds no requests at the disk and no lock taken.
-/

namespace Onixs

/-- The tasks, and the disks they use. -/
structure TaskDisks where
  /-- The tasks. -/
  sched : Sched
  /-- The disks. -/
  disks : ℕ → Disk

/-- What the task that runs does, or an interrupt. -/
inductive TaskDiskOp where
  /-- A function of `kernel/task.c`; a lock that is taken is `SchedOp.block`. -/
  | sched (op : SchedOp)
  /-- `device_request`, up to `task_block` or into `do_request`. -/
  | request (disk dev buf count idx : ℕ) (flags : ℤ) (type : RequestType)
  /-- `device_request`, behind `task_block`. -/
  | resume (disk : ℕ)
  /-- `device_request`, behind `do_request`. -/
  | complete (disk : ℕ)

namespace Disk

/-- The task of the next request, when `task` has executed one. -/
def nextOwner (disk : Disk) (task : ℕ) : Option ℕ :=
  match disk.phase task with
  | .call req .executing => (disk.requestNextreq req).1.bind Request.task
  | _ => none

end Disk

namespace TaskDisks

variable (s : TaskDisks)

/-- A disk has changed. -/
def setDisk (d : ℕ) (disk : Disk) (sched : Sched) : TaskDisks where
  sched := sched
  disks := fun e => if e = d then disk else s.disks e

/-- A step. No value means that an assertion fails, or the kernel panics. -/
def step : TaskDiskOp → Option (SchedRet × TaskDisks)
  | .sched op => (s.sched.step op).map fun p => (p.1, { s with sched := p.2 })
  | .request d dev buf count idx flags type => do
      let empty := (s.disks d).requestList.isEmpty
      let disk ← (s.disks d).step (.issue s.sched.current dev buf count idx flags type)
      let sched ← if empty then some s.sched else s.sched.taskBlock Sched.blockList .blocked
      return (.unit, s.setDisk d disk.2 sched)
  | .resume d => do
      let disk ← (s.disks d).step (.resume s.sched.current)
      return (.unit, s.setDisk d disk.2 s.sched)
  | .complete d => do
      let disk ← (s.disks d).step (.finish s.sched.current)
      let sched ← ((s.disks d).nextOwner s.sched.current).elim (some s.sched) s.sched.taskUnblock
      return (.unit, s.setDisk d disk.2 sched)

end TaskDisks

namespace Sched

/-- The task that runs is in `task_exit`. -/
def Exiting (s : Sched) : Prop := ∃ task, s.table s.current = some task ∧ task.serial ∈ s.exited.map Prod.fst

instance Exiting.decidable (s : Sched) : Decidable s.Exiting :=
  match h : s.table s.current with
  | none => isFalse (by simp [Exiting, h])
  | some task => decidable_of_iff (task.serial ∈ s.exited.map Prod.fst) (by simp [Exiting, h])

/-- **What may be called**: idle only yields; a task that is in `task_exit` may do whatever closing a
file does, and leave. -/
def MayCall (s : Sched) : SchedOp → Prop
  | .schedule => True
  | .block _ => s.current ≠ idleTask
  | .unblock _ => True
  | .sleep _ => s.current ≠ idleTask ∧ ¬s.Exiting
  | .wakeup => True
  | .clock => True
  | .fork => ¬s.Exiting
  | .waitpid _ => s.current ≠ idleTask ∧ ¬s.Exiting
  | .exit _ => False
  | .die _ => s.current ≠ idleTask ∧ ¬s.Exiting
  | .leave => s.Exiting

instance MayCall.decidable (s : Sched) : (op : SchedOp) → Decidable (s.MayCall op)
  | .schedule => isTrue trivial
  | .block _ => inferInstanceAs (Decidable (s.current ≠ idleTask))
  | .unblock _ => isTrue trivial
  | .sleep _ => inferInstanceAs (Decidable (s.current ≠ idleTask ∧ ¬s.Exiting))
  | .wakeup => isTrue trivial
  | .clock => isTrue trivial
  | .fork => inferInstanceAs (Decidable ¬s.Exiting)
  | .waitpid _ => inferInstanceAs (Decidable (s.current ≠ idleTask ∧ ¬s.Exiting))
  | .exit _ => isFalse id
  | .die _ => inferInstanceAs (Decidable (s.current ≠ idleTask ∧ ¬s.Exiting))
  | .leave => inferInstanceAs (Decidable s.Exiting)

/-- The task that runs is running, or it has died and is in `task_exit`. -/
def Present (s : Sched) : Prop := s.Active ∨ s.Died s.current

/-- **What a step does to the tasks that have died.** -/
structure Final (s : Sched) (call : Option SchedOp) (t : Sched) : Prop where
  /-- They are left as they are until `task_waitpid` returns them, when they do not run, -/
  stays : ∀ i, s.Died i → t.Died i ∨ (t.table i = none ∧ i ≠ s.current ∧ ∃ query, call = some (.waitpid query))
  /-- and are never scheduled. -/
  never : ∀ i, s.Died i → t.current = i → s.current = i
  /-- The last `schedule` of `task_exit` does not return. -/
  last : call = some .leave → t.Died s.current ∧ t.current ≠ s.current
  /-- The task that calls `task_exit` has died. -/
  dies : ∀ status, call = some (.die status) → t.Died s.current
  /-- The task that runs has its page. -/
  page : t.table t.current ≠ none

variable {s t : Sched} {i : ℕ} {call : Option SchedOp} {op : SchedOp} {r : SchedRet} {task : SchedTask}

theorem Present.page (h : t.Present) : t.table t.current ≠ none := by
  rcases h with ⟨task, ht, -⟩ | ⟨task, ht, -⟩ <;> simp [ht]

/-- A task that has died does not run. -/
theorem Active.ne_current (h : t.Active) (hd : t.Died i) : t.current ≠ i := by
  rintro rfl
  obtain ⟨task, ht, hrun⟩ := h
  obtain ⟨a, ha, hdied⟩ := hd
  obtain rfl := Option.some.inj (ht.symm.trans ha)
  exact absurd (hrun.symm.trans hdied) (by simp)

/-- A step that leaves the tasks alone that have died. -/
theorem Present.final (ht : t.Present) (hd : ∀ i, s.Died i → t.Died i) (hcurrent : t.Active ∨ t.current = s.current)
    (hleave : call = some .leave → t.Active ∧ s.Died s.current)
    (hdie : ∀ status, call = some (.die status) → t.Died s.current) : Final s call t := by
  refine ⟨fun i hi => Or.inl (hd i hi), fun i hi heq => ?_, fun hop => ?_, hdie, ht.page⟩
  · rcases hcurrent with hactive | hcurrent
    · exact absurd heq (hactive.ne_current (hd i hi))
    · exact hcurrent.symm.trans heq
  · obtain ⟨hactive, hself⟩ := hleave hop
    exact ⟨hd _ hself, hactive.ne_current (hd _ hself)⟩

theorem Present.not_waiting (h : s.Present) (ht : s.table s.current = some task) : ¬Waiting task.state := by
  rcases h with ⟨a, ha, hstate⟩ | ⟨a, ha, hstate⟩
  · obtain rfl := Option.some.inj (ht.symm.trans ha)
    exact hstate ▸ not_waiting_running
  · obtain rfl := Option.some.inj (ht.symm.trans ha)
    exact hstate ▸ not_waiting_died

/-- What holds as long as no task blocks that has died. -/
structure Quiet (s : Sched) : Prop where
  /-- The lists have the tasks that wait. -/
  linked : s.Linked
  /-- The task that runs is running, or has died. -/
  present : s.Present
  /-- The tasks that have died. -/
  recorded : s.Recorded

/-- A task is in `task_exit` when it has died. -/
theorem Quiet.exiting (h : s.Quiet) : s.Exiting ↔ s.Died s.current := by
  constructor
  · rintro ⟨task, ht, hin⟩
    obtain ⟨⟨k, x⟩, hin, rfl⟩ := List.mem_map.mp hin
    exact ⟨task, ht, by_contra fun hlive => h.recorded.live ht hlive x hin⟩
  · rintro ⟨task, ht, hd⟩
    exact ⟨task, ht, List.mem_map.mpr ⟨_, h.recorded.died ht hd, rfl⟩⟩

theorem Quiet.active (h : s.Quiet) (hlive : ¬s.Exiting) : s.Active :=
  h.present.resolve_right (mt h.exiting.mpr hlive)

/-- What a step keeps. -/
def Keeps (s : Sched) (call : Option SchedOp) (t : Sched) : Prop := t.Quiet ∧ Final s call t

/-- A call that schedules another task. -/
theorem Keeps.scheduled (hlinked : t.Linked) (hactive : t.Active) (hst : Alike s t) (hrec : s.Recorded)
    (hleave : call ≠ some .leave) (hdie : ∀ status, call ≠ some (.die status)) : Keeps s call t :=
  ⟨⟨hlinked, Or.inl hactive, hrec.alike hst⟩, Present.final (Or.inl hactive) (fun _ hd => hst.died hd)
    (Or.inl hactive) (fun hop => absurd hop hleave) fun status hop => absurd hop (hdie status)⟩

/-- A call that goes on with the same task. -/
theorem Keeps.same (hlinked : t.Linked) (hpresent : t.Present) (hst : Alike s t) (hrec : s.Recorded)
    (hcurrent : t.Active ∨ t.current = s.current) (hleave : call ≠ some .leave)
    (hdie : ∀ status, call ≠ some (.die status)) : Keeps s call t :=
  ⟨⟨hlinked, hpresent, hrec.alike hst⟩, Present.final hpresent (fun _ hd => hst.died hd) hcurrent
    (fun hop => absurd hop hleave) fun status hop => absurd hop (hdie status)⟩

section Calls

variable (h : s.Quiet)
include h

/-- **`task_block`** of a task that is running. -/
theorem Keeps.block {list : ℕ} (hactive : s.Active) (hidle : s.current ≠ idleTask)
    (hrun : s.taskBlock list .blocked = some t) (hleave : call ≠ some .leave)
    (hdie : ∀ status, call ≠ some (.die status)) : Keeps s call t := by
  obtain ⟨task, ht, hstate⟩ := hactive
  obtain ⟨t', hrun', -, hsched⟩ := h.linked.taskBlock ht (hstate ▸ not_waiting_running) hidle
    (Or.inl rfl : Waiting .blocked) list
  obtain rfl := Option.some.inj (hrun'.symm.trans hrun)
  have hst := (Stirs.linkedIn ht (by rw [hstate]; simp) ⟨by simp, by simp⟩ list _).trans hsched.stirs
  exact Keeps.scheduled hsched.linked hsched.active hst.alike h.recorded hleave hdie

/-- **`task_unblock`** of any task. -/
theorem Keeps.unblock (hrun : s.taskUnblock i = some t) (hleave : call ≠ some .leave)
    (hdie : ∀ status, call ≠ some (.die status)) : Keeps s call t := by
  cases ht : s.table i with
  | none => simp [Sched.taskUnblock, ht] at hrun
  | some task =>
    cases hnode : task.node with
    | none => simp [Sched.taskUnblock, ht, hnode] at hrun
    | some list =>
      obtain ⟨t', hrun', hdone⟩ := h.linked.taskUnblock ht hnode
      obtain rfl := Option.some.inj (hrun'.symm.trans hrun)
      have hi : s.current ≠ i := by
        rintro rfl
        exact h.present.not_waiting ht ((h.linked.waits ht).mp (by simp [hnode]))
      have hpresent : t'.Present := by
        rcases h.present with ⟨a, ha, hstate⟩ | ⟨a, ha, hstate⟩
        · exact Or.inl ⟨a, by rw [hdone.current, hdone.other hi]; exact ha, hstate⟩
        · exact Or.inr ⟨a, by rw [hdone.current, hdone.other hi]; exact ha, hstate⟩
      exact Keeps.same hdone.linked hpresent hdone.stirs.alike h.recorded (Or.inr hdone.current) hleave hdie

/-- **`task_exit`**, behind where the resources have been given back. -/
theorem Keeps.leave (hexit : s.Exiting) (hrun : s.leave = some t) : Keeps s (some .leave) t := by
  have hd := h.exiting.mp hexit
  obtain ⟨task, ht, hdied⟩ := id hd
  obtain ⟨parent, hparent⟩ := h.linked.exists_parent ht hrun
  obtain ⟨u, t', hrun', hwakes, hsched⟩ := h.linked.leave ht hparent
  obtain rfl := Option.some.inj (hrun'.symm.trans hrun)
  have hst := hwakes.stirs.trans hsched.stirs
  have hkeep : ∀ i, s.Died i → t'.Died i := by
    rintro i ⟨a, ha, hstate⟩
    refine hst.alike.died ⟨reparented s.current task.ppid a, ?_, ?_⟩
    · rw [h.linked.table_reparent, ha]
      rfl
    · rw [reparented_eq]
      exact hstate
  exact ⟨⟨hsched.linked, Or.inl hsched.active,
      (h.recorded.reparent h.linked s.current task.ppid).alike hst.alike⟩,
    Present.final (Or.inl hsched.active) hkeep (Or.inl hsched.active) (fun _ => ⟨hsched.active, hd⟩) (by simp)⟩

/-- **`task_exit`**, up to where the resources are given back. -/
theorem Keeps.die {status : ℤ} (hactive : s.Active) (hidle : s.current ≠ idleTask)
    (hrun : s.die status = some t) : Keeps s (some (.die status)) t := by
  obtain ⟨task, ht, hstate⟩ := hactive
  obtain ⟨hrun', hlinked⟩ := h.linked.die ht hstate hidle status
  obtain rfl := Option.some.inj (hrun'.symm.trans hrun)
  have hself : (s.killed task.serial status).Died s.current :=
    ⟨_, table_modify_eq_some.mpr (Or.inr ⟨rfl, task, ht, rfl⟩), rfl⟩
  have hkeep : ∀ i, s.Died i → (s.killed task.serial status).Died i := by
    rintro i ⟨a, ha, hdied⟩
    rcases eq_or_ne i s.current with rfl | hi
    · exact hself
    · exact ⟨a, table_modify_eq_some.mpr (Or.inl ⟨hi, ha⟩), hdied⟩
  exact ⟨⟨hlinked, Or.inr hself, h.recorded.killed ht hstate status⟩,
    Present.final (Or.inr hself) hkeep (Or.inr rfl) (by simp) fun _ _ => hself⟩

/-- **`task_waitpid`.** -/
theorem Keeps.waitpid {query : ℤ} (hactive : s.Active) (hidle : s.current ≠ idleTask)
    (hrun : s.taskWaitpid query = some (r, t)) : Keeps s (some (.waitpid query)) t := by
  rcases h.linked.taskWaitpid hactive hidle query with ⟨pid, status, t', hrun', hreaps⟩ | ⟨hrun', -⟩ |
    ⟨t', hrun', hlinked, hsched, -⟩
  · obtain ⟨-, rfl⟩ := Prod.mk.inj (Option.some.inj (hrun'.symm.trans hrun))
    have hactive' := hreaps.active hactive
    refine ⟨⟨hreaps.linked, Or.inl hactive', h.recorded.reaps hreaps⟩, ⟨fun i hd => ?_,
      fun i hd heq => hreaps.current.symm.trans heq, by simp, by simp, Present.page (Or.inl hactive')⟩⟩
    rcases eq_or_ne i pid with rfl | hi
    · exact Or.inr ⟨hreaps.free, (hactive.ne_current hd).symm, query, rfl⟩
    · obtain ⟨a, ha, hdied⟩ := hd
      exact Or.inl ⟨a, (hreaps.other hi).trans ha, hdied⟩
  · obtain ⟨-, rfl⟩ := Prod.mk.inj (Option.some.inj (hrun'.symm.trans hrun))
    exact Keeps.scheduled h.linked hactive (Stirs.refl s).alike h.recorded (by simp) (by simp)
  · obtain ⟨-, rfl⟩ := Prod.mk.inj (Option.some.inj (hrun'.symm.trans hrun))
    have halike := Alike.waitsFor hactive query
    exact ⟨⟨hsched.linked, Or.inl hsched.active, (h.recorded.alike halike).alike hsched.stirs.alike⟩,
      Present.final (Or.inl hsched.active) (fun _ hd => hsched.stirs.alike.died (halike.died hd))
        (Or.inl hsched.active) (by simp) (by simp)⟩

/-- **`task_fork`.** -/
theorem Keeps.fork (hactive : s.Active) (hrun : s.taskFork = some (r, t)) : Keeps s (some .fork) t := by
  obtain ⟨pid, hpid⟩ : ∃ pid, s.getFreeTask = some pid := by
    cases hfree : s.getFreeTask with
    | some pid => exact ⟨pid, rfl⟩
    | none =>
      obtain ⟨task, ht, hstate⟩ := hactive
      simp [Sched.taskFork, ht, hfree] at hrun
  have hfree : ∃ i < taskNumber, s.table i = none :=
    ⟨pid, List.mem_range.mp (List.mem_of_find?_eq_some hpid), by simpa using List.find?_some hpid⟩
  obtain ⟨pid', t', hrun', hborn⟩ := h.linked.taskFork hactive hfree
  obtain ⟨-, rfl⟩ := Prod.mk.inj (Option.some.inj (hrun'.symm.trans hrun))
  have hkeep : ∀ i, s.Died i → t'.Died i := by
    rintro i ⟨a, ha, hd⟩
    exact ⟨a, hborn.keep ha, hd⟩
  exact ⟨⟨hborn.linked, Or.inl hborn.active, h.recorded.born hborn⟩,
    Present.final (Or.inl hborn.active) hkeep (Or.inl hborn.active) (by simp) (by simp)⟩

/-- **A step of a task that does not block when it has died.** -/
theorem Keeps.step (hmay : s.MayCall op) (hcalm : ∀ list, op = .block list → ¬s.Exiting)
    (hrun : s.step op = some (r, t)) : Keeps s (some op) t := by
  have hunit : ∀ {o : Option Sched}, o.map (fun u => (SchedRet.unit, u)) = some (r, t) → o = some t := by
    intro o ho
    obtain ⟨u, hu, heq⟩ := Option.map_eq_some_iff.mp ho
    rw [hu, (Prod.mk.inj heq).2]
  cases op with
  | schedule =>
    obtain ⟨t', hrun', hsched⟩ := h.linked.schedule
    obtain rfl := Option.some.inj (hrun'.symm.trans (hunit hrun))
    exact Keeps.scheduled hsched.linked hsched.active hsched.stirs.alike h.recorded (by simp) (by simp)
  | block list => exact Keeps.block h (h.active (hcalm list rfl)) hmay (hunit hrun) (by simp) (by simp)
  | unblock i => exact Keeps.unblock h (hunit hrun) (by simp) (by simp)
  | sleep ms =>
    obtain ⟨t', hrun', hlinked, hactive, hstirs⟩ := h.linked.taskSleep (h.active hmay.2) hmay.1 ms
    obtain rfl := Option.some.inj (hrun'.symm.trans (hunit hrun))
    exact Keeps.scheduled hlinked hactive hstirs.alike h.recorded (by simp) (by simp)
  | wakeup =>
    obtain ⟨t', hrun', hwoken⟩ := h.linked.taskWakeup
    obtain rfl := Option.some.inj (hrun'.symm.trans (hunit hrun))
    have hpresent : t'.Present := h.present.imp hwoken.active fun hd => hwoken.current ▸ hwoken.stirs.alike.died hd
    exact Keeps.same hwoken.linked hpresent hwoken.stirs.alike h.recorded (Or.inr hwoken.current) (by simp) (by simp)
  | clock =>
    obtain ⟨t', hrun', hlinked, hstirs, hactive, hcurrent⟩ := h.linked.clockHandler
    obtain rfl := Option.some.inj (hrun'.symm.trans (hunit hrun))
    have hpresent : t'.Present := by
      rcases hcurrent with hactive' | hcurrent
      · exact Or.inl hactive'
      · exact h.present.imp hactive fun hd => hcurrent ▸ hstirs.alike.died hd
    exact Keeps.same hlinked hpresent hstirs.alike h.recorded hcurrent (by simp) (by simp)
  | fork => exact Keeps.fork h (h.active hmay) hrun
  | waitpid query => exact Keeps.waitpid h (h.active hmay.2) hmay.1 hrun
  | exit status => exact hmay.elim
  | die status => exact Keeps.die h (h.active hmay.2) hmay.1 (hunit hrun)
  | leave => exact Keeps.leave h hmay (hunit hrun)

end Calls

end Sched

namespace TaskDisks

/-- The function of `kernel/task.c` that is called. -/
def call : TaskDiskOp → Option SchedOp
  | .sched op => some op
  | _ => none

/-- What may be called. -/
def Legal (s : TaskDisks) : TaskDiskOp → Prop
  | .sched op => s.sched.MayCall op
  | .request .. => s.sched.current ≠ Sched.idleTask
  | .resume _ => True
  | .complete _ => True

/-- **A task that is in `task_exit` does not block**: no lock it takes is taken, and no request it makes
finds another one at the disk. -/
def Calm (s : TaskDisks) : TaskDiskOp → Prop
  | .sched (.block _) => ¬s.sched.Exiting
  | .request d .. => s.sched.Exiting → (s.disks d).requestList = []
  | _ => True

instance Legal.decidable (s : TaskDisks) (op : TaskDiskOp) : Decidable (s.Legal op) := by
  cases op <;> unfold Legal <;> infer_instance

instance Calm.decidable (s : TaskDisks) (op : TaskDiskOp) : Decidable (s.Calm op) := by
  unfold Calm
  split <;> infer_instance

variable {s t : TaskDisks} {op : TaskDiskOp} {r : SchedRet}

/-- **A step.** -/
theorem step_keeps (h : s.sched.Quiet) (hlegal : s.Legal op) (hcalm : s.Calm op)
    (hrun : s.step op = some (r, t)) : Sched.Keeps s.sched (call op) t.sched := by
  have hsame : t.sched = s.sched → ∀ op', call op' = none → Sched.Keeps s.sched (call op') t.sched := by
    intro heq op' hcall
    rw [heq, hcall]
    exact ⟨h, h.present.final (fun _ hd => hd) (Or.inr rfl) (by simp) (by simp)⟩
  cases op with
  | sched op =>
    obtain ⟨⟨r', u⟩, hstep, heq⟩ := Option.map_eq_some_iff.mp hrun
    obtain ⟨rfl, rfl⟩ := Prod.mk.inj heq
    refine Sched.Keeps.step h hlegal (fun list hop => ?_) hstep
    rw [hop] at hcalm
    exact hcalm
  | request d dev buf count idx flags type =>
    rw [TaskDisks.step] at hrun
    obtain ⟨disk, -, hrun⟩ := Option.bind_eq_some_iff.mp hrun
    by_cases hempty : (s.disks d).requestList.isEmpty
    · simp only [if_pos hempty] at hrun
      obtain ⟨-, rfl⟩ := Prod.mk.inj (Option.some.inj hrun)
      exact hsame rfl _ rfl
    · simp only [if_neg hempty] at hrun
      obtain ⟨sched, hsched, heq⟩ := Option.bind_eq_some_iff.mp hrun
      obtain ⟨-, rfl⟩ := Prod.mk.inj (Option.some.inj heq)
      have hlive : ¬s.sched.Exiting := fun hexit => hempty (List.isEmpty_iff.mpr (hcalm hexit))
      exact Sched.Keeps.block h (h.active hlive) hlegal hsched (by simp [call]) (by simp [call])
  | resume d =>
    obtain ⟨disk, -, heq⟩ := Option.bind_eq_some_iff.mp hrun
    obtain ⟨-, rfl⟩ := Prod.mk.inj (Option.some.inj heq)
    exact hsame rfl _ rfl
  | complete d =>
    rw [TaskDisks.step] at hrun
    obtain ⟨disk, -, hrun⟩ := Option.bind_eq_some_iff.mp hrun
    obtain ⟨sched, hsched, heq⟩ := Option.bind_eq_some_iff.mp hrun
    obtain ⟨-, rfl⟩ := Prod.mk.inj (Option.some.inj heq)
    cases howner : (s.disks d).nextOwner s.sched.current with
    | none =>
      rw [howner] at hsched
      exact hsame (Option.some.inj hsched).symm _ rfl
    | some owner =>
      rw [howner] at hsched
      exact Sched.Keeps.unblock h hsched (by simp [call]) (by simp [call])

/-- **Exit is final**, in the runs where no task blocks that has died: it stays so until it has been
returned, it is not scheduled again, and the task that runs always has its page. -/
theorem exitRun_final (ops : List TaskDiskOp) (s : TaskDisks) (hstart : s.sched.Start)
    (hlegal : Run.Along step Legal s ops) (hcalm : Run.Along step Calm s ops) :
    Run.Along step (fun s op => ∀ r t, s.step op = some (r, t) → Sched.Final s.sched (call op) t.sched) s ops := by
  have hquiet : s.sched.Quiet := ⟨hstart.sound.linked, Or.inl hstart.sound.active, hstart.sound.recorded⟩
  exact Run.along_of_inv (fun s => s.sched.Quiet)
    (fun s op h hop r t hrun => (step_keeps h hop.1 hop.2 hrun).2)
    (fun s op r t h hop hrun => (step_keeps h hop.1 hop.2 hrun).1) ops s hquiet (hlegal.and hcalm)

/-- Init runs, and nobody has used the disks. -/
def fresh : TaskDisks where
  sched := Sched.started 0
  disks := fun d =>
    { devices := fun _ => { type := .block, parent := 0, sectorStart := 0 }, dev := d, requestList := [],
      direct := .up, phase := fun _ => .idle, made := 0, served := [] }

theorem fresh_start : fresh.sched.Start := ⟨0, Sched.schedule_taskInit 0⟩

theorem exitRun_final_alone : Run.Along step
    (fun s op => ∀ r t, s.step op = some (r, t) → Sched.Final s.sched (call op) t.sched) fresh
    [.sched .fork, .sched (.waitpid 3), .sched .schedule, .sched (.die 7), .request 0 0 0 2 8 0 .write, .complete 0,
      .sched .leave, .sched (.waitpid 3)] :=
  exitRun_final _ _ fresh_start (by decide) (by decide)

/-- The child of init exits while init waits for the disk. -/
def pending : List TaskDiskOp :=
  [.sched .fork, .request 0 0 0 2 4 0 .write, .sched (.block 5), .sched .schedule, .sched (.die 7)]

/-- It makes a request, and is blocked until that of init is complete. Then it goes on, and leaves. -/
def revival : List TaskDiskOp :=
  [.request 0 0 0 2 8 0 .write, .sched (.unblock 1), .sched .schedule, .complete 0, .sched (.block 6), .sched .schedule,
    .resume 0, .complete 0, .sched .leave, .sched .schedule]

/-- **A task that has died, and waits for the disk, comes back**: it runs after its last
`schedule`. -/
theorem exitRun_revived : fresh.sched.Start ∧ Run.Along step Legal fresh (pending ++ revival) ∧
    ((Run.exec step fresh pending).map fun s => (s.sched.current, decide (s.sched.Died 3))) = some (3, true) ∧
    ((Run.exec step fresh (pending ++ revival)).map fun s => (s.sched.current, decide (s.sched.Died 3))) =
      some (3, false) ∧
    ¬Run.Along step (fun s op => ∀ r t, s.step op = some (r, t) → Sched.Final s.sched (call op) t.sched) fresh
      (pending ++ revival) := by
  refine ⟨fresh_start, by decide, by decide, by decide, fun halong => ?_⟩
  have hpending : ((Run.exec step fresh pending).map fun s => decide (s.sched.Died 3)) = some true := by decide
  obtain ⟨s, hs, hdied⟩ := Option.map_eq_some_iff.mp hpending
  obtain ⟨hfinal, -⟩ := (Run.along_append.mp halong).2 s hs
  have hblocked : ((Run.exec step fresh (pending ++ [.request 0 0 0 2 8 0 .write])).map fun t =>
      (t.sched.table 3).map SchedTask.state) = some (some .blocked) := by decide
  obtain ⟨t, ht, hstate⟩ := Option.map_eq_some_iff.mp hblocked
  rw [Run.exec_append, hs, Option.bind_some] at ht
  obtain ⟨r, u, hstep, hu⟩ := Run.exec_cons.mp ht
  obtain rfl := Option.some.inj hu
  obtain ⟨task, htask, hblock⟩ := Option.map_eq_some_iff.mp hstate
  rcases (hfinal r u hstep).stays 3 (of_decide_eq_true hdied) with ⟨a, ha, hd⟩ | ⟨hnone, -⟩
  · obtain rfl := Option.some.inj (htask.symm.trans ha)
    exact absurd (hblock.symm.trans hd) (by simp)
  · exact absurd (hnone.symm.trans htask) (by simp)

end TaskDisks

end Onixs
