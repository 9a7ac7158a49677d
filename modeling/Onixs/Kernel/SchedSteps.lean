import Mathlib.Data.List.Nodup
import Mathlib.Data.Option.Basic
import Onixs.Kernel.Sched

/-!
# What the scheduler does to the tasks

`Sched.Linked` is the invariant of the table and the lists: a node is linked when its task
waits for something, the task that runs is the only one that is running, and idle is always
ready to run, so that `schedule` finds a task. Most functions do no more than stir the
tasks (`Sched.Stirs`): they change who is ready, running or waiting, and leave alone what
a parent knows of its children.
-/

namespace Onixs

namespace Sched

/-- A task that is in some list. -/
def Waiting (state : TaskState) : Prop := state = .blocked ∨ state = .sleeping ∨ state = .waitting

/-- **The invariant.** -/
structure Linked (s : Sched) : Prop where
  /-- A task is in the slot of its number. -/
  slot : ∀ {i task}, s.table i = some task → i < taskNumber ∧ task.pid = i
  /-- The task that runs is in the table. -/
  here : ∃ task, s.table s.current = some task
  /-- Idle never waits. -/
  idle : ∃ task, s.table idleTask = some task ∧ (task.state = .ready ∨ task.state = .running)
  /-- Nobody else is running. -/
  running : ∀ {i task}, s.table i = some task → task.state = .running → i = s.current
  /-- The nodes of the tasks that wait are linked. -/
  waits : ∀ {i task}, s.table i = some task → (task.node ≠ none ↔ Waiting task.state)
  /-- A list has the tasks whose nodes are linked in it, -/
  mem : ∀ {i list}, i ∈ s.lists list ↔ ∃ task, s.table i = some task ∧ task.node = some list
  /-- each once. -/
  nodup : ∀ list, (s.lists list).Nodup

/-- The task that runs is running. -/
def Active (s : Sched) : Prop := ∃ task, s.table s.current = some task ∧ task.state = .running

/-- `b` is `a` as far as its parent is concerned. -/
structure Stirred (a b : SchedTask) : Prop where
  /-- The number. -/
  pid : b.pid = a.pid
  /-- The parent. -/
  ppid : b.ppid = a.ppid
  /-- The status. -/
  status : b.status = a.status
  /-- The task. -/
  serial : b.serial = a.serial
  /-- Whether it has died. -/
  died : b.state = .died ↔ a.state = .died
  /-- It does not begin to wait for a child. -/
  waitting : b.state = .waitting → a.state = .waitting ∧ b.waitpid = a.waitpid

/-- **Only who is ready, running or waiting has changed.** -/
structure Stirs (s t : Sched) : Prop where
  /-- No task has come or gone. -/
  empty : ∀ {i}, t.table i = none ↔ s.table i = none
  /-- They are what they were. -/
  task : ∀ {i a b}, s.table i = some a → t.table i = some b → Stirred a b
  /-- The tasks that have been made. -/
  made : t.made = s.made
  /-- The tasks that have died. -/
  exited : t.exited = s.exited
  /-- The tasks that have been returned. -/
  returned : t.returned = s.returned

section Basics

variable {s t u : Sched} {i j list : ℕ} {task a b c : SchedTask} {f : SchedTask → SchedTask}

theorem Stirred.refl (a : SchedTask) : Stirred a a :=
  ⟨rfl, rfl, rfl, rfl, Iff.rfl, fun h => ⟨h, rfl⟩⟩

theorem Stirred.trans (h : Stirred a b) (h' : Stirred b c) : Stirred a c := by
  refine ⟨h'.pid.trans h.pid, h'.ppid.trans h.ppid, h'.status.trans h.status, h'.serial.trans h.serial,
    h'.died.trans h.died, fun hc => ?_⟩
  obtain ⟨hb, hpid⟩ := h'.waitting hc
  obtain ⟨ha, hpid'⟩ := h.waitting hb
  exact ⟨ha, hpid.trans hpid'⟩

theorem Stirs.refl (s : Sched) : Stirs s s := by
  refine ⟨Iff.rfl, fun {i a b} ha hb => ?_, rfl, rfl, rfl⟩
  obtain rfl := Option.some.inj (ha.symm.trans hb)
  exact Stirred.refl a

theorem Stirs.trans (h : Stirs s t) (h' : Stirs t u) : Stirs s u := by
  refine ⟨h'.empty.trans h.empty, fun {i a c} ha hc => ?_, h'.made.trans h.made, h'.exited.trans h.exited,
    h'.returned.trans h.returned⟩
  cases hb : t.table i with
  | none => exact absurd (h.empty.mp hb) (by simp [ha])
  | some b => exact (h.task ha hb).trans (h'.task hb hc)

theorem table_modify_self : (s.modify i f).table i = (s.table i).map f := if_pos rfl

theorem table_modify_of_ne (h : j ≠ i) : (s.modify i f).table j = s.table j := if_neg h

/-- A task after a change: it is another one, or the one that was changed. -/
theorem table_modify_eq_some : (s.modify i f).table j = some b ↔
    (j ≠ i ∧ s.table j = some b) ∨ (j = i ∧ ∃ a, s.table i = some a ∧ f a = b) := by
  by_cases h : j = i
  · subst h
    rw [table_modify_self, Option.map_eq_some_iff]
    simp
  · rw [table_modify_of_ne h]
    simp [h]

theorem table_modify_eq_none : (s.modify i f).table j = none ↔ s.table j = none := by
  by_cases h : j = i
  · rw [h, table_modify_self, Option.map_eq_none_iff]
  · rw [table_modify_of_ne h]

/-- A change of one task. -/
theorem Stirs.modify (hf : ∀ a, s.table i = some a → Stirred a (f a)) : Stirs s (s.modify i f) := by
  refine ⟨table_modify_eq_none, fun {j a b} ha hb => ?_, rfl, rfl, rfl⟩
  rcases table_modify_eq_some.mp hb with ⟨-, hb⟩ | ⟨rfl, a', ha', rfl⟩
  · obtain rfl := Option.some.inj (ha.symm.trans hb)
    exact Stirred.refl a
  · obtain rfl := Option.some.inj (ha.symm.trans ha')
    exact hf a ha

theorem Stirs.setList (s : Sched) (list : ℕ) (tasks : List ℕ) : Stirs s (s.setList list tasks) :=
  ⟨Iff.rfl, (Stirs.refl s).task, rfl, rfl, rfl⟩

/-! ### Small facts -/

/-- A task that is in no state of waiting is in no list. -/
theorem Linked.node_none (h : s.Linked) (ht : s.table i = some task) (hstate : ¬Waiting task.state) :
    task.node = none :=
  not_not.mp (mt (h.waits ht).mp hstate)

theorem not_waiting_running : ¬Waiting .running := by simp [Waiting]

theorem not_waiting_died : ¬Waiting .died := by simp [Waiting]

theorem not_waiting_ready : ¬Waiting .ready := by simp [Waiting]

/-- Idle does not wait, and has not died. -/
theorem Linked.ne_idle (h : s.Linked) (ht : s.table i = some task)
    (hstate : Waiting task.state ∨ task.state = .died) : i ≠ idleTask := by
  rintro rfl
  obtain ⟨idle, hidle, hready⟩ := h.idle
  obtain rfl := Option.some.inj (ht.symm.trans hidle)
  rcases hready with hready | hready <;> rw [hready] at hstate
  · exact hstate.elim not_waiting_ready (by simp)
  · exact hstate.elim not_waiting_running (by simp)

/-- **A change of every task** that leaves alone the numbers, the nodes, and who waits. -/
theorem Linked.remap (h : s.Linked) (g : ℕ → SchedTask → SchedTask)
    (htable : ∀ i, t.table i = (s.table i).map (g i)) (hlists : t.lists = s.lists)
    (hkeep : ∀ i a, s.table i = some a →
      (g i a).node = a.node ∧ (g i a).pid = a.pid ∧ (Waiting (g i a).state ↔ Waiting a.state))
    (hhere : ∃ a, s.table t.current = some a)
    (hidle : ∀ a, s.table idleTask = some a → a.state = .ready ∨ a.state = .running →
      (g idleTask a).state = .ready ∨ (g idleTask a).state = .running)
    (hrun : ∀ i a, s.table i = some a → (g i a).state = .running → i = t.current) : t.Linked := by
  have hsome : ∀ {i b}, t.table i = some b → ∃ a, s.table i = some a ∧ g i a = b := by
    intro i b hb
    rw [htable] at hb
    exact Option.map_eq_some_iff.mp hb
  have hback : ∀ {i a}, s.table i = some a → t.table i = some (g i a) := by
    intro i a ha
    rw [htable, ha]
    rfl
  refine ⟨fun {i b} hb => ?_, ?_, ?_, fun {i b} hb hb' => ?_, fun {i b} hb => ?_, fun {i list} => ?_,
    hlists ▸ h.nodup⟩
  · obtain ⟨a, ha, rfl⟩ := hsome hb
    rw [(hkeep i a ha).2.1]
    exact h.slot ha
  · obtain ⟨a, ha⟩ := hhere
    exact ⟨_, hback ha⟩
  · obtain ⟨a, ha, hready⟩ := h.idle
    exact ⟨_, hback ha, hidle a ha hready⟩
  · obtain ⟨a, ha, rfl⟩ := hsome hb
    exact hrun i a ha hb'
  · obtain ⟨a, ha, rfl⟩ := hsome hb
    obtain ⟨hnode, -, hwaiting⟩ := hkeep i a ha
    rw [hnode, hwaiting]
    exact h.waits ha
  · rw [hlists, h.mem]
    constructor
    · rintro ⟨a, ha, hlist⟩
      exact ⟨_, hback ha, (hkeep i a ha).1.trans hlist⟩
    · rintro ⟨b, hb, hlist⟩
      obtain ⟨a, ha, rfl⟩ := hsome hb
      exact ⟨a, ha, (hkeep i a ha).1.symm.trans hlist⟩

/-- `Sched.modify` as such a change. -/
theorem table_modify (i : ℕ) (f : SchedTask → SchedTask) (j : ℕ) :
    (s.modify i f).table j = (s.table j).map fun a => if j = i then f a else a := by
  rcases eq_or_ne j i with rfl | hj
  · rw [table_modify_self]
    simp
  · rw [table_modify_of_ne hj]
    simp [hj]

/-- A change of one task that leaves alone its state as well. -/
theorem Linked.tune (h : s.Linked) (hf : ∀ a, (f a).state = a.state ∧ (f a).node = a.node ∧ (f a).pid = a.pid) :
    (s.modify i f).Linked := by
  have hkeep : ∀ (j : ℕ) (a : SchedTask), (if j = i then f a else a).state = a.state ∧
      (if j = i then f a else a).node = a.node ∧ (if j = i then f a else a).pid = a.pid := by
    intro j a
    split
    · exact hf a
    · exact ⟨rfl, rfl, rfl⟩
  refine h.remap _ (table_modify i f) rfl (fun j a _ => ?_) h.here (fun a _ hready => ?_) fun j a ha hrun => ?_
  · obtain ⟨hstate, hnode, hpid⟩ := hkeep j a
    exact ⟨hnode, hpid, by rw [hstate]⟩
  · rw [(hkeep idleTask a).1]
    exact hready
  · rw [(hkeep j a).1] at hrun
    exact h.running ha hrun

theorem Active.modify (h : s.Active) (hf : ∀ a, (f a).state = a.state) : (s.modify i f).Active := by
  obtain ⟨task, ht, hrun⟩ := h
  rcases eq_or_ne s.current i with heq | hne
  · exact ⟨f task, table_modify_eq_some.mpr (Or.inr ⟨heq, task, heq ▸ ht, rfl⟩), (hf task).trans hrun⟩
  · exact ⟨task, table_modify_eq_some.mpr (Or.inl ⟨hne, ht⟩), hrun⟩

/-! ### The lists -/

/-- **A task begins to wait.** -/
theorem Linked.link (h : s.Linked) {state : TaskState} {tasks : List ℕ} (ht : s.table i = some task)
    (hnode : task.node = none) (hstate : Waiting state) (hidle : i ≠ idleTask)
    (htasks : tasks.Perm (i :: s.lists list)) (hf : ∀ a, (f a).node = some list ∧ (f a).state = state ∧ (f a).pid = a.pid) :
    ((s.setList list tasks).modify i f).Linked := by
  have hself : ((s.setList list tasks).modify i f).table i = some (f task) := by
    rw [table_modify_self]
    exact congrArg _ ht
  have hother : ∀ {j}, j ≠ i → ((s.setList list tasks).modify i f).table j = s.table j := fun hj =>
    table_modify_of_ne hj
  have hout : i ∉ s.lists list := by
    intro hin
    obtain ⟨a, ha, hlist⟩ := h.mem.mp hin
    obtain rfl := Option.some.inj (ht.symm.trans ha)
    exact absurd (hnode.symm.trans hlist) (by simp)
  refine ⟨fun {j b} hb => ?_, ?_, ?_, fun {j b} hb hrun => ?_, fun {j b} hb => ?_, fun {j l} => ?_, fun l => ?_⟩
  · rcases eq_or_ne j i with rfl | hj
    · obtain rfl := Option.some.inj (hself.symm.trans hb)
      rw [(hf task).2.2]
      exact h.slot ht
    · exact h.slot ((hother hj).symm.trans hb)
  · obtain ⟨a, ha⟩ := h.here
    rcases eq_or_ne s.current i with heq | hj
    · exact ⟨f task, heq ▸ hself⟩
    · exact ⟨a, (hother hj).trans ha⟩
  · obtain ⟨a, ha, hready⟩ := h.idle
    exact ⟨a, (hother hidle.symm).trans ha, hready⟩
  · rcases eq_or_ne j i with rfl | hj
    · obtain rfl := Option.some.inj (hself.symm.trans hb)
      rw [(hf task).2.1] at hrun
      exact absurd (hrun ▸ hstate) not_waiting_running
    · exact h.running ((hother hj).symm.trans hb) hrun
  · rcases eq_or_ne j i with rfl | hj
    · obtain rfl := Option.some.inj (hself.symm.trans hb)
      rw [(hf task).1, (hf task).2.1]
      exact iff_of_true (by simp) hstate
    · exact h.waits ((hother hj).symm.trans hb)
  · have hlist : j ∈ ((s.setList list tasks).modify i f).lists l ↔ (l = list ∧ j = i) ∨ j ∈ s.lists l := by
      rcases eq_or_ne l list with rfl | hl
      · rw [show ((s.setList l tasks).modify i f).lists l = tasks from if_pos rfl, htasks.mem_iff, List.mem_cons,
          and_iff_right rfl]
      · rw [show ((s.setList list tasks).modify i f).lists l = s.lists l from if_neg hl,
          or_iff_right fun hc => hl hc.1]
    rw [hlist]
    rcases eq_or_ne j i with rfl | hj
    · constructor
      · rintro (⟨rfl, -⟩ | hin)
        · exact ⟨f task, hself, (hf task).1⟩
        · obtain ⟨a, ha, hl⟩ := h.mem.mp hin
          obtain rfl := Option.some.inj (ht.symm.trans ha)
          exact absurd (hnode.symm.trans hl) (by simp)
      · rintro ⟨b, hb, hl⟩
        obtain rfl := Option.some.inj (hself.symm.trans hb)
        exact Or.inl ⟨Option.some.inj (hl.symm.trans (hf task).1), rfl⟩
    · rw [or_iff_right fun hc => hj hc.2, hother hj]
      exact h.mem
  · rcases eq_or_ne l list with rfl | hl
    · rw [show ((s.setList l tasks).modify i f).lists l = tasks from if_pos rfl]
      exact htasks.nodup_iff.mpr (List.nodup_cons.mpr ⟨hout, h.nodup l⟩)
    · rw [show ((s.setList list tasks).modify i f).lists l = s.lists l from if_neg hl]
      exact h.nodup l

/-- What `task_unblock` does. -/
structure Unblocked (s t : Sched) (i : ℕ) : Prop where
  /-- The invariant. -/
  linked : t.Linked
  /-- Nothing else has changed. -/
  stirs : Stirs s t
  /-- The other tasks. -/
  other : ∀ {j}, j ≠ i → t.table j = s.table j
  /-- The task is ready. -/
  self : ∃ task, t.table i = some task ∧ task.state = .ready
  /-- It has not run. -/
  ne : i ≠ s.current ∨ ¬s.Active
  /-- The task that runs. -/
  current : t.current = s.current
  /-- The ticks. -/
  jiffies : t.jiffies = s.jiffies
  /-- The lists. -/
  lists : ∀ {j l}, j ∈ t.lists l ↔ j ∈ s.lists l ∧ j ≠ i

/-- **`task_unblock`** of a task whose node is linked. -/
theorem Linked.taskUnblock (h : s.Linked) (ht : s.table i = some task) (hnode : task.node = some list) :
    ∃ t, s.taskUnblock i = some t ∧ Unblocked s t i := by
  have hwaiting : Waiting task.state := (h.waits ht).mp (by simp [hnode])
  obtain ⟨t, hdef⟩ : ∃ t, t = (s.setList list ((s.lists list).erase i)).modify i
    fun task => { task with node := none, state := .ready } := ⟨_, rfl⟩
  have hself : t.table i = some { task with node := none, state := .ready } := by
    rw [hdef, table_modify_self]
    exact congrArg _ ht
  have hother : ∀ {j}, j ≠ i → t.table j = s.table j := fun hj => by
    rw [hdef]
    exact table_modify_of_ne hj
  have hlists : ∀ {j l}, j ∈ t.lists l ↔ j ∈ s.lists l ∧ j ≠ i := by
    intro j l
    rcases eq_or_ne l list with rfl | hl
    · rw [hdef, show ((s.setList l ((s.lists l).erase i)).modify i _).lists l = (s.lists l).erase i from if_pos rfl,
        (h.nodup l).mem_erase_iff, and_comm]
    · rw [hdef, show ((s.setList list ((s.lists list).erase i)).modify i _).lists l = s.lists l from if_neg hl]
      refine (and_iff_left_of_imp fun hin => ?_).symm
      rintro rfl
      obtain ⟨a, ha, hal⟩ := h.mem.mp hin
      obtain rfl := Option.some.inj (ht.symm.trans ha)
      exact hl (Option.some.inj (hal.symm.trans hnode))
  have hcurrent : t.current = s.current := by rw [hdef]; rfl
  refine ⟨t, ?_, ⟨⟨fun {j b} hb => ?_, ?_, ?_, fun {j b} hb hrun => ?_, fun {j b} hb => ?_, fun {j l} => ?_,
    fun l => ?_⟩, ?_, hother, ⟨_, hself, rfl⟩, ?_, hcurrent, by rw [hdef]; rfl, hlists⟩⟩
  · rw [Sched.taskUnblock, ht, Option.bind_eq_bind, Option.bind_some, hnode, hdef]
    rfl
  · rcases eq_or_ne j i with rfl | hj
    · obtain rfl := Option.some.inj (hself.symm.trans hb)
      exact ⟨(h.slot ht).1, (h.slot ht).2⟩
    · exact h.slot ((hother hj).symm.trans hb)
  · obtain ⟨a, ha⟩ := h.here
    rcases eq_or_ne s.current i with heq | hj
    · exact ⟨_, by rw [hcurrent, heq]; exact hself⟩
    · exact ⟨a, by rw [hcurrent, hother hj]; exact ha⟩
  · obtain ⟨a, ha, hready⟩ := h.idle
    exact ⟨a, (hother (h.ne_idle ht (Or.inl hwaiting)).symm).trans ha, hready⟩
  · rcases eq_or_ne j i with rfl | hj
    · obtain rfl := Option.some.inj (hself.symm.trans hb)
      exact absurd hrun (by simp)
    · rw [hcurrent]
      exact h.running ((hother hj).symm.trans hb) hrun
  · rcases eq_or_ne j i with rfl | hj
    · obtain rfl := Option.some.inj (hself.symm.trans hb)
      exact iff_of_false (by simp) not_waiting_ready
    · exact h.waits ((hother hj).symm.trans hb)
  · rw [hlists]
    rcases eq_or_ne j i with rfl | hj
    · refine iff_of_false (fun hc => hc.2 rfl) ?_
      rintro ⟨b, hb, hl⟩
      obtain rfl := Option.some.inj (hself.symm.trans hb)
      exact absurd hl (by simp)
    · rw [and_iff_left hj, hother hj]
      exact h.mem
  · rcases eq_or_ne l list with rfl | hl
    · rw [hdef, show ((s.setList l ((s.lists l).erase i)).modify i _).lists l = (s.lists l).erase i from if_pos rfl]
      exact (h.nodup l).erase i
    · rw [hdef, show ((s.setList list ((s.lists list).erase i)).modify i _).lists l = s.lists l from if_neg hl]
      exact h.nodup l
  · rw [hdef]
    refine (Stirs.setList s list _).trans (Stirs.modify fun a ha => ?_)
    obtain rfl := Option.some.inj (ht.symm.trans ha)
    refine ⟨rfl, rfl, rfl, rfl, iff_of_false (by simp) fun hc => ?_, fun hc => absurd hc (by simp)⟩
    exact not_waiting_died (hc ▸ hwaiting)
  · by_contra hc
    obtain ⟨hi, hactive⟩ := not_or.mp hc
    obtain ⟨a, ha, hrun⟩ := not_not.mp hactive
    obtain rfl := Option.some.inj (ht.symm.trans ((not_not.mp hi) ▸ ha))
    exact not_waiting_running (hrun ▸ hwaiting)

/-! ### Scheduling -/

/-- A task that `task_searchTask` looks for. -/
def Candidate (s : Sched) (state : TaskState) (i : ℕ) (task : SchedTask) : Prop :=
  s.table i = some task ∧ task.state = state ∧ i ≠ s.current

/-- What the loop finds. -/
theorem searchLoop_eq_some {state : TaskState} : ∀ {slots : List ℕ} {best : Option (ℕ × SchedTask)},
    s.searchLoop state slots best = some (i, task) → best = some (i, task) ∨ s.Candidate state i task := by
  intro slots
  induction slots with
  | nil => exact fun h => Or.inl h
  | cons j slots ih =>
    intro best h
    rw [searchLoop] at h
    cases hj : s.table j with
    | none =>
      rw [hj] at h
      exact ih h
    | some ptr =>
      simp only [hj] at h
      split at h
      next hcand =>
        have hptr : s.Candidate state j ptr := ⟨hj, hcand.1, hcand.2⟩
        cases best with
        | none =>
          rcases ih h with heq | hfound
          · obtain ⟨rfl, rfl⟩ := Prod.mk.inj (Option.some.inj heq)
            exact Or.inr hptr
          · exact Or.inr hfound
        | some best =>
          rcases ih h with heq | hfound
          · split at heq
            · obtain ⟨rfl, rfl⟩ := Prod.mk.inj (Option.some.inj heq)
              exact Or.inr hptr
            · exact Or.inl heq
          · exact Or.inr hfound
      next => exact ih h

/-- When the loop finds nothing there is nothing. -/
theorem searchLoop_eq_none {state : TaskState} : ∀ {slots : List ℕ} {best : Option (ℕ × SchedTask)},
    s.searchLoop state slots best = none →
      best = none ∧ ∀ i ∈ slots, ∀ task, ¬s.Candidate state i task := by
  intro slots
  induction slots with
  | nil => exact fun h => ⟨h, fun i hi => absurd hi List.not_mem_nil⟩
  | cons j slots ih =>
    intro best h
    rw [searchLoop] at h
    cases hj : s.table j with
    | none =>
      rw [hj] at h
      obtain ⟨hbest, hnone⟩ := ih h
      refine ⟨hbest, fun i hi task hcand => ?_⟩
      rcases List.mem_cons.mp hi with rfl | hi
      · exact absurd (hj.symm.trans hcand.1) (by simp)
      · exact hnone i hi task hcand
    | some ptr =>
      simp only [hj] at h
      split at h
      next =>
        cases best with
        | none => exact absurd (ih h).1 (by simp)
        | some best =>
          have hbest := (ih h).1
          split at hbest <;> exact absurd hbest (by simp)
      next hcand =>
        obtain ⟨hbest, hnone⟩ := ih h
        refine ⟨hbest, fun i hi task hc => ?_⟩
        rcases List.mem_cons.mp hi with rfl | hi
        · obtain rfl := Option.some.inj (hj.symm.trans hc.1)
          exact hcand ⟨hc.2.1, hc.2.2⟩
        · exact hnone i hi task hc

/-- **`task_searchTask` finds a task**: one that is ready, or idle when idle is the one that runs. -/
theorem Linked.searchTask (h : s.Linked) : ∃ next, s.searchTask .ready = some next ∧
    ((∃ task, s.Candidate .ready next task) ∨ (next = idleTask ∧ s.current = idleTask)) := by
  rw [Sched.searchTask]
  cases hloop : s.searchLoop .ready (List.range taskNumber) none with
  | some best =>
    obtain ⟨i, task⟩ := best
    exact ⟨i, rfl, Or.inl ⟨task, (searchLoop_eq_some hloop).resolve_left (by simp)⟩⟩
  | none =>
    refine ⟨idleTask, if_pos rfl, Or.inr ⟨rfl, ?_⟩⟩
    -- otherwise idle would have been found
    by_contra hne
    obtain ⟨idle, hidle, hready | hrun⟩ := h.idle
    · exact (searchLoop_eq_none hloop).2 idleTask (List.mem_range.mpr (by decide)) idle
        ⟨hidle, hready, fun heq => hne heq.symm⟩
    · exact hne (h.running hidle hrun).symm

/-- The task that runs is ready, when it was running. -/
def yielded (task : SchedTask) : SchedTask :=
  if task.state = .running then { task with state := .ready } else task

theorem yielded_of_running (ht : task.state = .running) : yielded task = { task with state := .ready } :=
  if_pos ht

theorem yielded_of_ne (ht : task.state ≠ .running) : yielded task = task := if_neg ht

theorem yielded_state_ne (task : SchedTask) : (yielded task).state ≠ .running := by
  rw [yielded]
  split
  · simp
  · assumption

theorem Stirred.yielded (task : SchedTask) : Stirred task (yielded task) := by
  rw [Sched.yielded]
  split
  next hrun => exact ⟨rfl, rfl, rfl, rfl, by simp [hrun], fun hc => absurd hc (by simp)⟩
  next => exact Stirred.refl task

theorem waiting_yielded (task : SchedTask) : Waiting (yielded task).state ↔ Waiting task.state := by
  rw [yielded]
  split
  next hrun =>
    rw [hrun]
    exact iff_of_false not_waiting_ready not_waiting_running
  next => exact Iff.rfl

theorem yielded_node (task : SchedTask) : (yielded task).node = task.node ∧ (yielded task).pid = task.pid := by
  rw [yielded]
  split <;> exact ⟨rfl, rfl⟩

/-- A task after `schedule`. -/
def scheduled (current next i : ℕ) (task : SchedTask) : SchedTask :=
  if i = next then { (if i = current then yielded task else task) with state := .running }
  else if i = current then yielded task else task

section Scheduled

variable {current next : ℕ}

theorem scheduled_state : (scheduled current next next task).state = .running := by
  rw [scheduled, if_pos rfl]

theorem scheduled_of_ne (hi : i ≠ next) :
    scheduled current next i task = if i = current then yielded task else task := if_neg hi

theorem scheduled_node : (scheduled current next i task).node = task.node ∧
    (scheduled current next i task).pid = task.pid := by
  rw [scheduled]
  split <;> split
  · exact yielded_node task
  · exact ⟨rfl, rfl⟩
  · exact yielded_node task
  · exact ⟨rfl, rfl⟩

theorem scheduled_waiting (hi : i ≠ next) :
    Waiting (scheduled current next i task).state ↔ Waiting task.state := by
  rw [scheduled_of_ne hi]
  split
  · exact waiting_yielded task
  · exact Iff.rfl

theorem scheduled_stirred (hdied : task.state ≠ .died) : Stirred task (scheduled current i i task) := by
  have hdied' : (scheduled current i i task).state ≠ .died := by
    rw [scheduled_state]
    simp
  have hwaitting : (scheduled current i i task).state ≠ .waitting := by
    rw [scheduled_state]
    simp
  have hsame : Stirred task (if i = current then yielded task else task) := by
    split
    · exact Stirred.yielded task
    · exact Stirred.refl task
  refine ⟨?_, ?_, ?_, ?_, iff_of_false hdied' hdied, fun hc => absurd hc hwaitting⟩
  · rw [scheduled, if_pos rfl]
    exact hsame.pid
  · rw [scheduled, if_pos rfl]
    exact hsame.ppid
  · rw [scheduled, if_pos rfl]
    exact hsame.status
  · rw [scheduled, if_pos rfl]
    exact hsame.serial

end Scheduled

/-- What `schedule` does. -/
structure Scheduled (s t : Sched) : Prop where
  /-- The invariant. -/
  linked : t.Linked
  /-- The task that runs is running. -/
  active : t.Active
  /-- Nothing else has changed. -/
  stirs : Stirs s t
  /-- The task was ready, or idle goes on. -/
  next : (∃ task, s.Candidate .ready t.current task) ∨ (t.current = idleTask ∧ s.current = idleTask)

/-- **`schedule`** always finds a task. -/
theorem Linked.schedule (h : s.Linked) : ∃ t, s.schedule = some t ∧ Scheduled s t := by
  obtain ⟨next, hsearch, hnext⟩ := h.searchTask
  obtain ⟨task, ht, hready⟩ : ∃ task, s.table next = some task ∧ (task.state = .ready ∨ task.state = .running) := by
    rcases hnext with ⟨task, ht, hstate, -⟩ | ⟨rfl, -⟩
    · exact ⟨task, ht, Or.inl hstate⟩
    · exact h.idle
  obtain ⟨t, hdef⟩ : ∃ t : Sched, t = { (s.modify s.current yielded).modify next fun task =>
    { task with state := .running } with current := next } := ⟨_, rfl⟩
  have htable : ∀ i, t.table i = (s.table i).map (scheduled s.current next i) := by
    intro i
    rw [hdef]
    refine (table_modify next _ i).trans ?_
    rw [table_modify, Option.map_map]
    rfl
  have hcurrent : t.current = next := by rw [hdef]
  have hself : t.table next = some (scheduled s.current next next task) := by
    rw [htable, ht]
    rfl
  refine ⟨t, ?_, ?_, ⟨_, hcurrent ▸ hself, scheduled_state⟩, ⟨fun {i} => ?_, fun {i a b} ha hb => ?_,
    by rw [hdef]; rfl, by rw [hdef]; rfl, by rw [hdef]; rfl⟩, hcurrent.symm ▸ hnext⟩
  · rw [Sched.schedule, hsearch, Option.bind_eq_bind, Option.bind_some, ht, hdef]
    rfl
  · refine h.remap _ htable (by rw [hdef]; rfl) (fun i a ha => ?_) ⟨task, hcurrent.symm ▸ ht⟩
      (fun a ha hready => ?_) fun i a ha hrun => ?_
    · refine ⟨scheduled_node.1, scheduled_node.2, ?_⟩
      rcases eq_or_ne i next with rfl | hi
      · obtain rfl := Option.some.inj (ht.symm.trans ha)
        rw [scheduled_state]
        refine iff_of_false not_waiting_running ?_
        rcases hready with hready | hready <;> rw [hready]
        · exact not_waiting_ready
        · exact not_waiting_running
      · exact scheduled_waiting hi
    · rcases eq_or_ne idleTask next with hi | hi
      · rw [hi]
        exact Or.inr scheduled_state
      · rw [scheduled_of_ne hi]
        split
        · rw [yielded]
          split
          · exact Or.inl rfl
          · exact hready
        · exact hready
    · by_contra hi
      rw [hcurrent] at hi
      rw [scheduled_of_ne hi] at hrun
      split at hrun
      · exact yielded_state_ne a hrun
      next hne => exact hne (h.running ha hrun)
  · rw [htable, Option.map_eq_none_iff]
  · rw [htable, ha] at hb
    obtain rfl := Option.some.inj hb
    rcases eq_or_ne i next with rfl | hi
    · obtain rfl := Option.some.inj (ht.symm.trans ha)
      refine scheduled_stirred fun hc => ?_
      rcases hready with hready | hready <;> exact absurd (hc.symm.trans hready) (by simp)
    · rw [scheduled_of_ne hi]
      split
      · exact Stirred.yielded a
      · exact Stirred.refl a

/-! ### Waiting -/

/-- The running task in a list. -/
def linkedIn (s : Sched) (list : ℕ) (tasks : List ℕ) (state : TaskState) : Sched :=
  (s.setList list tasks).modify s.current fun task => { task with node := some list, state := state }

/-- **`task_block`** of a task that has not waited before. -/
theorem Linked.taskBlock (h : s.Linked) {state : TaskState} (ht : s.table s.current = some task)
    (hstate : ¬Waiting task.state) (hidle : s.current ≠ idleTask) (hw : Waiting state) (list : ℕ) :
    ∃ t, s.taskBlock list state = some t ∧ (s.linkedIn list (s.current :: s.lists list) state).Linked ∧
      Scheduled (s.linkedIn list (s.current :: s.lists list) state) t := by
  have hnode := h.node_none ht hstate
  have hstate' : state ≠ .ready ∧ state ≠ .running := by
    constructor
    · rintro rfl
      exact not_waiting_ready hw
    · rintro rfl
      exact not_waiting_running hw
  have hout : s.current ∉ s.lists list := by
    intro hin
    obtain ⟨a, ha, hlist⟩ := h.mem.mp hin
    obtain rfl := Option.some.inj (ht.symm.trans ha)
    exact absurd (hnode.symm.trans hlist) (by simp)
  have hlinked : (s.linkedIn list (s.current :: s.lists list) state).Linked :=
    h.link ht hnode hw hidle (List.Perm.refl _) fun _ => ⟨rfl, rfl, rfl⟩
  obtain ⟨t, hrun, hsched⟩ := hlinked.schedule
  refine ⟨t, ?_, hlinked, hsched⟩
  rw [Sched.taskBlock, ht, Option.bind_eq_bind, Option.bind_some]
  simp only [assert_pos hnode, assert_pos hstate', assert_pos hout, Option.bind_eq_bind, Option.bind_some]
  exact hrun

/-- To wait for something else than a child is to stir. -/
theorem Stirs.linkedIn (ht : s.table s.current = some task) (hdied : task.state ≠ .died) {state : TaskState}
    (hstate : state ≠ .died ∧ state ≠ .waitting) (list : ℕ) (tasks : List ℕ) :
    Stirs s (s.linkedIn list tasks state) := by
  refine (Stirs.setList s list tasks).trans (Stirs.modify fun a ha => ?_)
  obtain rfl := Option.some.inj (ht.symm.trans ha)
  exact ⟨rfl, rfl, rfl, rfl, iff_of_false hstate.1 hdied, fun hc => absurd hc hstate.2⟩

/-- **`task_sleep`.** -/
theorem Linked.taskSleep (h : s.Linked) (hactive : s.Active) (hidle : s.current ≠ idleTask) (ms : ℕ) :
    ∃ t, s.taskSleep ms = some t ∧ t.Linked ∧ t.Active ∧ Stirs s t := by
  obtain ⟨task, ht, hrun⟩ := hactive
  obtain ⟨u, hu⟩ : ∃ u, u = s.modify s.current fun task =>
    { task with ticks := int32 (u32 (s.jiffies + if 0 < ms / jiffy then ms / jiffy else 1)) } := ⟨_, rfl⟩
  have hulinked : u.Linked := hu ▸ h.tune fun _ => ⟨rfl, rfl, rfl⟩
  have hustirs : Stirs s u := by
    rw [hu]
    exact Stirs.modify fun a _ => ⟨rfl, rfl, rfl, rfl, Iff.rfl, fun hc => ⟨hc, rfl⟩⟩
  obtain ⟨b, hb, hbrun⟩ : u.Active := hu ▸ Active.modify ⟨task, ht, hrun⟩ fun _ => rfl
  have hwaiting : ¬Waiting b.state := by
    rw [hbrun]
    exact not_waiting_running
  obtain ⟨tasks, htasks⟩ : ∃ tasks, tasks = listInsertSort (fun i => ((u.table i).map SchedTask.ticks).getD 0)
    u.current (u.lists sleepList) := ⟨_, rfl⟩
  have hucurrent : u.current = s.current := by rw [hu]; rfl
  have hlinked : (u.linkedIn sleepList tasks .sleeping).Linked :=
    hulinked.link hb (hulinked.node_none hb hwaiting) (Or.inr (Or.inl rfl)) (hucurrent ▸ hidle)
      (htasks ▸ listInsertSort_perm) fun _ => ⟨rfl, rfl, rfl⟩
  obtain ⟨t, hsched, hdone⟩ := hlinked.schedule
  refine ⟨t, ?_, hdone.linked, hdone.active, (hustirs.trans
    (Stirs.linkedIn hb (by rw [hbrun]; simp) ⟨by simp, by simp⟩ _ _)).trans hdone.stirs⟩
  have hnode : task.node = none := h.node_none ht (by rw [hrun]; exact not_waiting_running)
  rw [Sched.taskSleep]
  simp only [ht, Option.bind_eq_bind, Option.bind_some, assert_pos hnode, ← hu]
  rw [← hsched, linkedIn, htasks]
  rfl

/-- What `task_wakeup` does: only tasks that wait are changed. -/
structure Woken (s t : Sched) : Prop where
  /-- The invariant. -/
  linked : t.Linked
  /-- Nothing else has changed. -/
  stirs : Stirs s t
  /-- The task that runs. -/
  current : t.current = s.current
  /-- Tasks that do not wait are as they were. -/
  other : ∀ {i a}, s.table i = some a → ¬Waiting a.state → t.table i = some a

/-- **The loop of `task_wakeup`.** -/
theorem Linked.wakeLoop : ∀ {tasks : List ℕ} {s : Sched}, s.Linked → tasks.Nodup →
    (∀ i ∈ tasks, i ∈ s.lists sleepList) → ∃ t, Sched.wakeLoop tasks s = some t ∧ Woken s t := by
  intro tasks
  induction tasks with
  | nil => exact fun {s} h _ _ => ⟨s, rfl, h, Stirs.refl s, rfl, fun ha _ => ha⟩
  | cons i tasks ih =>
    intro s h hnodup hin
    obtain ⟨hi, htasks⟩ := List.nodup_cons.mp hnodup
    obtain ⟨task, ht, hnode⟩ := h.mem.mp (hin i List.mem_cons_self)
    by_cases hlater : s.jiffies < unsigned task.ticks
    · refine ⟨s, ?_, h, Stirs.refl s, rfl, fun ha _ => ha⟩
      rw [Sched.wakeLoop, ht, Option.bind_eq_bind, Option.bind_some, if_pos hlater]
      rfl
    · obtain ⟨u, hu⟩ : ∃ u, u = s.modify i fun task => { task with ticks := 0 } := ⟨_, rfl⟩
      have hulinked : u.Linked := hu ▸ h.tune fun _ => ⟨rfl, rfl, rfl⟩
      have hut : u.table i = some { task with ticks := 0 } := by
        rw [hu]
        exact (table_modify_self).trans (congrArg _ ht)
      have hulists : u.lists = s.lists := by rw [hu]; rfl
      obtain ⟨v, hv, hunblocked⟩ := hulinked.taskUnblock hut hnode
      obtain ⟨t, hloop, hwoken⟩ := ih hunblocked.linked htasks fun j hj =>
        hunblocked.lists.mpr ⟨hulists ▸ hin j (List.mem_cons_of_mem i hj), fun heq => hi (heq ▸ hj)⟩
      have hustirs : Stirs s u := by
        rw [hu]
        exact Stirs.modify fun a _ => ⟨rfl, rfl, rfl, rfl, Iff.rfl, fun hc => ⟨hc, rfl⟩⟩
      refine ⟨t, ?_, hwoken.linked, (hustirs.trans hunblocked.stirs).trans hwoken.stirs,
        hwoken.current.trans (hunblocked.current.trans (by rw [hu]; rfl)), fun {j a} ha hnot => ?_⟩
      · rw [Sched.wakeLoop, ht, Option.bind_eq_bind, Option.bind_some, if_neg hlater]
        simp only [← hu, hv, Option.bind_eq_bind, Option.bind_some]
        exact hloop
      · have hj : j ≠ i := by
          rintro rfl
          obtain rfl := Option.some.inj (ht.symm.trans ha)
          exact hnot ((h.waits ht).mp (by simp [hnode]))
        refine hwoken.other ?_ hnot
        rw [hunblocked.other hj, hu, table_modify_of_ne hj]
        exact ha

/-- **`task_wakeup`.** -/
theorem Linked.taskWakeup (h : s.Linked) : ∃ t, s.taskWakeup = some t ∧ Woken s t :=
  h.wakeLoop (h.nodup sleepList) fun _ hi => hi

theorem Woken.active (hw : Woken s t) (hactive : s.Active) : t.Active := by
  obtain ⟨task, ht, hrun⟩ := hactive
  refine ⟨task, hw.current.symm ▸ hw.other ht ?_, hrun⟩
  rw [hrun]
  exact not_waiting_running

/-- **`clock_handler`.** -/
theorem Linked.clockHandler (h : s.Linked) : ∃ t, s.clockHandler = some t ∧ t.Linked ∧ Stirs s t ∧
    (s.Active → t.Active) ∧ (t.Active ∨ t.current = s.current) := by
  obtain ⟨u, hu⟩ : ∃ u, u = { s with jiffies := u32 (s.jiffies + 1) } := ⟨_, rfl⟩
  have hulinked : u.Linked := by
    rw [hu]
    exact ⟨h.slot, h.here, h.idle, h.running, h.waits, h.mem, h.nodup⟩
  have hustirs : Stirs s u := by
    rw [hu]
    exact ⟨Iff.rfl, (Stirs.refl s).task, rfl, rfl, rfl⟩
  have huactive : s.Active → u.Active := fun hactive => by
    rw [hu]
    exact hactive
  obtain ⟨v, hv, hwoken⟩ := hulinked.taskWakeup
  obtain ⟨w, hw⟩ : ∃ w, w = v.modify v.current fun task =>
    { task with jiffies := v.jiffies, ticks := task.ticks - 1 } := ⟨_, rfl⟩
  have hwlinked : w.Linked := hw ▸ hwoken.linked.tune fun _ => ⟨rfl, rfl, rfl⟩
  have hwstirs : Stirs v w := by
    rw [hw]
    exact Stirs.modify fun a _ => ⟨rfl, rfl, rfl, rfl, Iff.rfl, fun hc => ⟨hc, rfl⟩⟩
  have hstirs : Stirs s w := (hustirs.trans hwoken.stirs).trans hwstirs
  have hwactive : s.Active → w.Active := fun hactive =>
    hw ▸ (hwoken.active (huactive hactive)).modify fun _ => rfl
  obtain ⟨task, ht⟩ := hwlinked.here
  by_cases hzero : task.ticks = 0
  · obtain ⟨x, hx⟩ : ∃ x, x = w.modify w.current fun task => { task with ticks := int32 task.priority } :=
      ⟨_, rfl⟩
    have hxlinked : x.Linked := hx ▸ hwlinked.tune fun _ => ⟨rfl, rfl, rfl⟩
    have hxstirs : Stirs w x := by
      rw [hx]
      exact Stirs.modify fun a _ => ⟨rfl, rfl, rfl, rfl, Iff.rfl, fun hc => ⟨hc, rfl⟩⟩
    obtain ⟨t, hsched, hdone⟩ := hxlinked.schedule
    refine ⟨t, ?_, hdone.linked, (hstirs.trans hxstirs).trans hdone.stirs, fun _ => hdone.active,
      Or.inl hdone.active⟩
    rw [Sched.clockHandler]
    simp only [← hu, hv, Option.bind_eq_bind, Option.bind_some, ← hw, ht, if_pos hzero, ← hx]
    exact hsched
  · have hcurrent : w.current = s.current := by
      rw [hw]
      exact hwoken.current.trans (by rw [hu])
    refine ⟨w, ?_, hwlinked, hstirs, hwactive, Or.inr hcurrent⟩
    rw [Sched.clockHandler]
    simp only [← hu, hv, Option.bind_eq_bind, Option.bind_some, ← hw, ht, if_neg hzero]
    rfl

end Basics

end Sched

end Onixs
