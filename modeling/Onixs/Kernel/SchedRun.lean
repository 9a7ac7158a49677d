import Onixs.Kernel.SchedFamily

/-!
# Runs of the scheduler

Whatever the tasks do once the first of them has been scheduled, `schedule` finds a task that has
not died, the lists have the tasks that wait, and `task_waitpid` returns each child once.

Idle is the exception: `idle_thread` does nothing but yield (`Sched.Legal`), so that it is there when
nobody else is ready.
-/

namespace Onixs

namespace Sched

variable {s t u : Sched} {i j : ℕ} {op : SchedOp} {r : SchedRet}

/-- The task in slot `i` waits. -/
def Sleeps (s : Sched) (i : ℕ) : Prop := ∃ task, s.table i = some task ∧ Waiting task.state

instance Waiting.decidable (state : TaskState) : Decidable (Waiting state) := inferInstanceAs (Decidable (_ ∨ _))

instance Sleeps.decidable (s : Sched) (i : ℕ) : Decidable (s.Sleeps i) :=
  match h : s.table i with
  | none => isFalse (by simp [Sleeps, h])
  | some task => decidable_of_iff (Waiting task.state) (by simp [Sleeps, h])

/-- **What may be called**: idle only yields, a task that is unblocked waits, and there is a slot for
a child. `task_exit` is one step. -/
def Legal (s : Sched) : SchedOp → Prop
  | .schedule => True
  | .block _ => s.current ≠ idleTask
  | .unblock i => s.Sleeps i
  | .sleep _ => s.current ≠ idleTask
  | .wakeup => True
  | .clock => True
  | .fork => ∃ i < taskNumber, s.table i = none
  | .waitpid _ => s.current ≠ idleTask
  | .exit _ => s.current ≠ idleTask
  | .die _ => False
  | .leave => False

instance Legal.decidable (s : Sched) (op : SchedOp) : Decidable (s.Legal op) := by
  cases op <;> unfold Legal <;> infer_instance

/-- **The invariant of a run.** -/
structure Sound (s : Sched) : Prop where
  /-- The lists have the tasks that wait. -/
  linked : s.Linked
  /-- The task that runs is running. -/
  active : s.Active
  /-- The tasks have parents. -/
  family : s.Family
  /-- Who waits for a child waits for one that is alive. -/
  waits : s.Waits
  /-- The tasks that have died. -/
  recorded : s.Recorded

/-- **What a step does** to the tasks that have died. -/
structure Passes (s : Sched) (op : SchedOp) (r : SchedRet) (t : Sched) : Prop where
  /-- They are left as they are, or returned. -/
  died : ∀ i, s.Died i → t.Died i ∨ t.table i = none
  /-- `task_exit` passes a status. -/
  exit : ∀ status, op = .exit status → t.Died s.current ∧
    ∃ task, s.table s.current = some task ∧ t.exited = s.exited ++ [(task.serial, status)]
  /-- Nothing else does. -/
  exited : (∀ status, op ≠ .exit status) → t.exited = s.exited
  /-- `task_waitpid` returns a child of the caller that has died. -/
  reaped : ∀ pid status, r = .reaped pid status → ∃ child, s.table pid = some child ∧ child.state = .died ∧
    child.ppid = s.current ∧ (child.serial, status) ∈ s.exited ∧
    t.returned = s.returned ++ [(child.serial, status)] ∧ t.table pid = none
  /-- Nothing else does. -/
  returned : (∀ pid status, r ≠ .reaped pid status) → t.returned = s.returned
  /-- It returns `-1` only when there is no such child. -/
  noChild : ∀ query, op = .waitpid query → r = .noChild → ∀ i, ¬s.Matches s.current query i

/-! ### The steps -/

theorem Alike.died (h : Alike s t) (hd : s.Died i) : t.Died i := by
  obtain ⟨a, ha, hstate⟩ := hd
  obtain ⟨b, hb, -, -, -, hdied⟩ := h.forth ha
  exact ⟨b, hb, hdied.mpr hstate⟩

/-- A step that only stirs the tasks. -/
theorem Sound.stirs (h : s.Sound) (hst : Stirs s t) (hlinked : t.Linked) (hactive : t.Active) : t.Sound :=
  ⟨hlinked, hactive, h.family.alike hst.alike, h.waits.stirs hst, h.recorded.alike hst.alike⟩

theorem Passes.alike (hst : Alike s t) (hexit : ∀ status, op ≠ .exit status)
    (hreaped : ∀ pid status, r ≠ .reaped pid status)
    (hnone : ∀ query, op = .waitpid query → r = .noChild → ∀ i, ¬s.Matches s.current query i) :
    Passes s op r t :=
  ⟨fun _ hd => Or.inl (hst.died hd), fun status heq => absurd heq (hexit status), fun _ => hst.exited,
    fun pid status heq => absurd heq (hreaped pid status), fun _ => hst.returned, hnone⟩

/-- A call that only stirs the tasks. -/
theorem Sound.quiet (h : s.Sound) (hlinked : t.Linked) (hactive : t.Active) (hst : Stirs s t)
    (hexit : ∀ status, op ≠ .exit status) : t.Sound ∧ Passes s op .unit t :=
  ⟨h.stirs hst hlinked hactive, Passes.alike hst.alike hexit (by simp) (by simp)⟩

/-- **`task_fork`.** -/
theorem Sound.fork (h : s.Sound) (hfree : ∃ i < taskNumber, s.table i = none) :
    ∃ r t, s.taskFork = some (r, t) ∧ t.Sound ∧ Passes s .fork r t := by
  obtain ⟨pid, t, hrun, hborn⟩ := h.linked.taskFork h.active hfree
  refine ⟨_, t, hrun, ⟨hborn.linked, hborn.active, h.family.born hborn h.recorded h.active, h.waits.born hborn,
    h.recorded.born hborn⟩, ?_⟩
  refine ⟨fun i hd => Or.inl ?_, by simp, fun _ => hborn.exited, by simp, fun _ => hborn.returned, by simp⟩
  obtain ⟨a, ha, hstate⟩ := hd
  exact ⟨a, hborn.keep ha, hstate⟩

/-- **`task_waitpid`.** -/
theorem Sound.waitpid (h : s.Sound) (hidle : s.current ≠ idleTask) (query : ℤ) :
    ∃ r t, s.taskWaitpid query = some (r, t) ∧ t.Sound ∧ Passes s (.waitpid query) r t := by
  rcases h.linked.taskWaitpid h.active hidle query with ⟨pid, status, t, hrun, hreaps⟩ | ⟨hrun, hnone⟩ |
    ⟨t, hrun, hlinked, hsched, hsome, halive⟩
  · refine ⟨_, t, hrun, ⟨hreaps.linked, hreaps.active h.active, h.family.reaps hreaps h.linked hidle,
      h.waits.reaps hreaps h.active, h.recorded.reaps hreaps⟩, ?_⟩
    obtain ⟨child, hchild, hdied, hppid, -, hstatus, hreturned⟩ := hreaps.child
    refine ⟨fun i hd => ?_, by simp, fun _ => hreaps.exited, fun pid' status' heq => ?_, fun hne => absurd rfl (hne pid status),
      by simp⟩
    · rcases eq_or_ne i pid with rfl | hi
      · exact Or.inr hreaps.free
      · obtain ⟨a, ha, hstate⟩ := hd
        exact Or.inl ⟨a, (hreaps.other hi).trans ha, hstate⟩
    · obtain ⟨rfl, rfl⟩ := SchedRet.reaped.inj heq
      exact ⟨child, hchild, hdied, hppid, hstatus ▸ h.recorded.died hchild hdied, hreturned, hreaps.free⟩
  · refine ⟨_, s, hrun, h, Passes.alike (Stirs.refl s).alike (by simp) (by simp) fun query' heq _ i hm => ?_⟩
    obtain rfl := SchedOp.waitpid.inj heq
    -- the slots that it does not look at are those of idle and init
    obtain hi | rfl | rfl : 2 ≤ i ∨ i = 0 ∨ i = 1 := by omega
    · exact hnone i hi hm
    · obtain ⟨a, ha, hroot⟩ := h.family.root
      exact hidle (((h.linked.matches_iff ha).mp hm).1.symm.trans hroot)
    · obtain ⟨a, ha, hroot⟩ := h.family.init
      exact hidle (((h.linked.matches_iff ha).mp hm).1.symm.trans hroot)
  · have halike := Alike.waitsFor h.active query
    have hmid : (s.waitsFor query).Waits :=
      h.waits.waitsFor h.linked h.family h.active hidle hsome halive
    refine ⟨_, t, hrun, ⟨hsched.linked, hsched.active, (h.family.alike halike).alike hsched.stirs.alike,
      hmid.stirs hsched.stirs, (h.recorded.alike halike).alike hsched.stirs.alike⟩, ?_⟩
    refine ⟨fun i hd => Or.inl (hsched.stirs.alike.died (halike.died hd)), by simp, fun _ => hsched.stirs.exited, by simp,
      fun _ => hsched.stirs.returned, by simp⟩

/-- **`task_exit`.** -/
theorem Sound.exit (h : s.Sound) (hidle : s.current ≠ idleTask) (status : ℤ) :
    ∃ t, (s.die status).bind leave = some t ∧ t.Sound ∧ Passes s (.exit status) .unit t := by
  obtain ⟨task, ht, hrun⟩ := h.active
  obtain ⟨hdie, hkilled⟩ := h.linked.die ht hrun hidle status
  obtain ⟨p, hp, hne, -⟩ := h.family.grandparent ht hidle
  have hself : (s.killed task.serial status).table (s.killed task.serial status).current =
      some { task with state := .died, status := status } :=
    table_modify_eq_some.mpr (Or.inr ⟨rfl, task, ht, rfl⟩)
  have hparent : (s.killed task.serial status).table task.ppid = some p :=
    table_modify_eq_some.mpr (Or.inl ⟨hne, hp⟩)
  obtain ⟨u, t, hleave, hwakes, hsched⟩ := hkilled.leave hself hparent
  have horphaned : WakesParent (s.orphaned task status) u s.current task.ppid := hwakes
  have hfamily := h.family.orphaned h.linked ht hidle status
  have hrecorded := (h.recorded.killed ht hrun status).reparent hkilled s.current task.ppid
  have hwaits := h.waits.exit h.linked ht horphaned
  have hstirs : Stirs (s.orphaned task status) t := horphaned.stirs.trans hsched.stirs
  have hdied : t.Died s.current := by
    obtain ⟨b, hb, hab⟩ : ∃ b, (s.orphaned task status).table s.current = some b ∧
        Orphan s.current task.ppid status s.current task b := orphaned_forth h.linked ht
    refine hstirs.alike.died ⟨b, hb, ?_⟩
    exact (hab.state.resolve_right fun hx => hx.1 rfl).2.1
  refine ⟨t, ?_, ⟨hsched.linked, hsched.active, hfamily.alike hstirs.alike, hwaits.stirs hsched.stirs,
    hrecorded.alike hstirs.alike⟩, ?_⟩
  · rw [hdie]
    exact hleave
  · refine ⟨fun i hd => Or.inl ?_, fun status' heq => ?_, fun hne => absurd rfl (hne status), by simp,
      fun _ => hstirs.returned, by simp⟩
    · rcases eq_or_ne i s.current with rfl | hi
      · exact hdied
      · obtain ⟨a, ha, hstate⟩ := hd
        obtain ⟨b, hb, hab⟩ : ∃ b, (s.orphaned task status).table i = some b ∧
            Orphan s.current task.ppid status i a b := orphaned_forth h.linked ha
        exact hstirs.alike.died ⟨b, hb, (hab.state.resolve_left fun hx => hi hx.1).2.1.trans hstate⟩
    · obtain rfl := SchedOp.exit.inj heq
      exact ⟨hdied, task, ht, hstirs.exited⟩

/-- **A step keeps the invariant.** -/
theorem Sound.step (h : s.Sound) (hlegal : s.Legal op) :
    ∃ r t, s.step op = some (r, t) ∧ t.Sound ∧ Passes s op r t := by
  cases op with
  | schedule =>
    obtain ⟨t, hrun, hsched⟩ := h.linked.schedule
    exact ⟨_, t, by rw [Sched.step, hrun]; rfl, h.quiet hsched.linked hsched.active hsched.stirs (by simp)⟩
  | block list =>
    obtain ⟨task, ht, hstate⟩ := h.active
    obtain ⟨t, hrun, -, hsched⟩ := h.linked.taskBlock ht (hstate ▸ not_waiting_running) hlegal
      (Or.inl rfl : Waiting .blocked) list
    exact ⟨_, t, by rw [Sched.step, hrun]; rfl, h.quiet hsched.linked hsched.active
      ((Stirs.linkedIn ht (by rw [hstate]; simp) ⟨by simp, by simp⟩ _ _).trans hsched.stirs) (by simp)⟩
  | unblock i =>
    obtain ⟨task, ht, hstate⟩ := hlegal
    obtain ⟨list, hlist⟩ := Option.ne_none_iff_exists'.mp ((h.linked.waits ht).mpr hstate)
    obtain ⟨t, hrun, hdone⟩ := h.linked.taskUnblock ht hlist
    refine ⟨_, t, by rw [Sched.step, hrun]; rfl, h.quiet hdone.linked ?_ hdone.stirs (by simp)⟩
    obtain ⟨a, ha, harun⟩ := h.active
    have hi := hdone.ne.resolve_right (not_not.mpr h.active)
    exact ⟨a, by rw [hdone.current, hdone.other hi.symm]; exact ha, harun⟩
  | sleep ms =>
    obtain ⟨t, hrun, hlinked, hactive, hstirs⟩ := h.linked.taskSleep h.active hlegal ms
    exact ⟨_, t, by rw [Sched.step, hrun]; rfl, h.quiet hlinked hactive hstirs (by simp)⟩
  | wakeup =>
    obtain ⟨t, hrun, hwoken⟩ := h.linked.taskWakeup
    exact ⟨_, t, by rw [Sched.step, hrun]; rfl, h.quiet hwoken.linked (hwoken.active h.active) hwoken.stirs (by simp)⟩
  | clock =>
    obtain ⟨t, hrun, hlinked, hstirs, hactive, -⟩ := h.linked.clockHandler
    exact ⟨_, t, by rw [Sched.step, hrun]; rfl, h.quiet hlinked (hactive h.active) hstirs (by simp)⟩
  | fork => exact h.fork hlegal
  | waitpid query => exact h.waitpid hlegal query
  | exit status =>
    obtain ⟨t, hrun, hdone⟩ := h.exit hlegal status
    exact ⟨_, t, by rw [Sched.step, hrun]; rfl, hdone⟩
  | die status => exact hlegal.elim
  | leave => exact hlegal.elim

/-! ### The start -/

/-- After the first `schedule`: init runs. -/
def started (jiffies : ℕ) : Sched :=
  { taskInit jiffies with
    table := fun i =>
      if i = 0 then some (taskCreate 1 0) else if i = 1 then some { taskCreate 5 1 with state := .running }
      else if i = 2 then some (taskCreate 5 2) else none
    current := 1 }

theorem searchTask_taskInit (jiffies : ℕ) : (taskInit jiffies).searchTask .ready = some 1 := by rfl

theorem schedule_taskInit (jiffies : ℕ) : (taskInit jiffies).schedule = some (started jiffies) := by
  rw [Sched.schedule, searchTask_taskInit]
  refine congrArg some ?_
  rw [started]
  congr 1
  funext i
  rcases eq_or_ne i 1 with rfl | hi
  · rfl
  · refine (table_modify_of_ne hi).trans ?_
    rcases eq_or_ne i 99 with rfl | hi'
    · rfl
    · exact (table_modify_of_ne hi').trans (if_congr Iff.rfl rfl ((if_neg hi).trans (if_neg hi).symm))

/-- The tasks at the start. -/
theorem table_started {jiffies : ℕ} {task : SchedTask} (h : (started jiffies).table i = some task) :
    (i = 0 ∧ task = taskCreate 1 0) ∨ (i = 1 ∧ task = { taskCreate 5 1 with state := .running }) ∨
      (i = 2 ∧ task = taskCreate 5 2) := by
  rcases eq_or_ne i 0 with rfl | h0
  · exact Or.inl ⟨rfl, (Option.some.inj h).symm⟩
  rcases eq_or_ne i 1 with rfl | h1
  · exact Or.inr (Or.inl ⟨rfl, (Option.some.inj h).symm⟩)
  rcases eq_or_ne i 2 with rfl | h2
  · exact Or.inr (Or.inr ⟨rfl, (Option.some.inj h).symm⟩)
  exact absurd h (by simp [started, h0, h1, h2])

/-- They are ready or running. -/
theorem state_started {jiffies : ℕ} {task : SchedTask} (h : (started jiffies).table i = some task) :
    (task.state = .ready ∨ (task.state = .running ∧ i = 1)) ∧ task.node = none ∧ task.pid = i ∧ task.serial = i ∧
      task.ppid = 0 ∧ i < 3 := by
  rcases table_started h with ⟨rfl, rfl⟩ | ⟨rfl, rfl⟩ | ⟨rfl, rfl⟩ <;> simp [taskCreate]

theorem sound_started (jiffies : ℕ) : (started jiffies).Sound := by
  have hidle : (started jiffies).table idleTask = some (taskCreate 1 0) := rfl
  refine ⟨⟨fun h => ?_, ⟨_, rfl⟩, ⟨_, hidle, Or.inl rfl⟩, fun h hrun => ?_, fun h => ?_, fun {i list} => ?_, fun _ => List.nodup_nil⟩,
    ⟨_, rfl, rfl⟩, ⟨⟨_, hidle, rfl⟩, ⟨_, rfl, rfl⟩, fun h hi => ?_⟩, ⟨fun h hwait => ?_, fun h hwait => ?_⟩,
    ⟨fun h => ?_, fun h h' heq => ?_, fun h hd => ?_, fun _ _ _ => List.not_mem_nil, fun _ he => absurd he List.not_mem_nil,
      List.nodup_nil, fun _ _ => List.not_mem_nil, fun _ he => absurd he List.not_mem_nil, List.nodup_nil⟩⟩
  · obtain ⟨-, -, hpid, -, -, hlt⟩ := state_started h
    exact ⟨hlt.trans (by decide), hpid⟩
  · obtain ⟨hstate, -⟩ := state_started h
    exact (hstate.resolve_left (by rw [hrun]; simp)).2
  · obtain ⟨hstate | hstate, hnode, -⟩ := state_started h
    · exact iff_of_false (fun hc => hc hnode) (hstate ▸ not_waiting_ready)
    · exact iff_of_false (fun hc => hc hnode) (hstate.1 ▸ not_waiting_running)
  · refine iff_of_false List.not_mem_nil ?_
    rintro ⟨task, h, hlist⟩
    obtain ⟨-, hnode, -⟩ := state_started h
    exact absurd (hnode.symm.trans hlist) (by simp)
  · obtain ⟨-, -, -, hserial, hppid, -⟩ := state_started h
    refine ⟨taskCreate 1 0, by rw [hppid]; exact hidle, by simp [taskCreate], ?_⟩
    rw [hserial]
    exact Nat.pos_of_ne_zero hi
  · obtain ⟨hstate, -⟩ := state_started h
    rw [hwait] at hstate
    exact absurd hstate (by simp)
  · obtain ⟨hstate, -⟩ := state_started h
    rw [hwait] at hstate
    exact absurd hstate (by simp)
  · obtain ⟨-, -, -, hserial, -, hlt⟩ := state_started h
    rw [hserial]
    exact hlt
  · obtain ⟨-, -, -, hserial, -⟩ := state_started h
    obtain ⟨-, -, -, hserial', -⟩ := state_started h'
    rw [← hserial, ← hserial', heq]
  · obtain ⟨hstate, -⟩ := state_started h
    rw [hd] at hstate
    exact absurd hstate (by simp)

theorem Start.sound (h : s.Start) : s.Sound := by
  obtain ⟨jiffies, hs⟩ := h
  obtain rfl := Option.some.inj ((schedule_taskInit jiffies).symm.trans hs)
  exact sound_started jiffies

/-! ### Runs -/

/-- **The tasks and the lists agree.** -/
structure Settled (s : Sched) : Prop where
  /-- Exactly the task that runs is running. -/
  running : ∀ i, (∃ task, s.table i = some task ∧ task.state = .running) ↔ i = s.current
  /-- A node is linked exactly when its task waits. -/
  linked : ∀ i task, s.table i = some task →
    (task.node ≠ none ↔ task.state = .blocked ∨ task.state = .sleeping ∨ task.state = .waitting)
  /-- Where it is linked. -/
  mem : ∀ i list, i ∈ s.lists list ↔ ∃ task, s.table i = some task ∧ task.node = some list
  /-- It is linked in one list only, -/
  once : ∀ i list list', i ∈ s.lists list → i ∈ s.lists list' → list = list'
  /-- and there once. -/
  nodup : ∀ list, (s.lists list).Nodup
  /-- `schedule` finds a task that has not died. -/
  next : ∃ next task, s.searchTask .ready = some next ∧ s.table next = some task ∧ task.state ≠ .died

/-- **The tasks and their parents agree.** -/
structure Kindred (s : Sched) : Prop where
  /-- The parent of a task is there, and has not died. -/
  parent : ∀ i task, s.table i = some task → ∃ parent, s.table task.ppid = some parent ∧ parent.state ≠ .died
  /-- The children that a task waits for have not died. -/
  waits : ∀ i j task child, s.table i = some task → task.state = .waitting → s.table j = some child →
    child.ppid = i → task.waitpid = -1 ∨ task.waitpid = child.pid → child.state ≠ .died
  /-- Different tasks. -/
  distinct : ∀ i j a b, s.table i = some a → s.table j = some b → a.serial = b.serial → i = j
  /-- Each has passed one status to `task_exit`. -/
  exited : (s.exited.map Prod.fst).Nodup
  /-- Each has been returned once, -/
  single : (s.returned.map Prod.fst).Nodup
  /-- with that status. -/
  returned : ∀ e ∈ s.returned, e ∈ s.exited

theorem Sound.settled (h : s.Sound) : s.Settled := by
  refine ⟨fun i => ⟨fun ⟨task, ht, hrun⟩ => h.linked.running ht hrun, ?_⟩, fun i task ht => h.linked.waits ht,
    fun i list => h.linked.mem, fun i list list' hin hin' => ?_, h.linked.nodup, ?_⟩
  · rintro rfl
    exact h.active
  · obtain ⟨a, ha, hlist⟩ := h.linked.mem.mp hin
    obtain ⟨b, hb, hlist'⟩ := h.linked.mem.mp hin'
    obtain rfl := Option.some.inj (ha.symm.trans hb)
    exact Option.some.inj (hlist.symm.trans hlist')
  · obtain ⟨next, hsearch, ⟨task, ht, hstate, -⟩ | ⟨rfl, -⟩⟩ := h.linked.searchTask
    · exact ⟨next, task, hsearch, ht, by rw [hstate]; simp⟩
    · obtain ⟨task, ht, hready⟩ := h.linked.idle
      refine ⟨_, task, hsearch, ht, ?_⟩
      rcases hready with hready | hready <;> rw [hready] <;> simp

theorem Sound.kindred (h : s.Sound) : s.Kindred := by
  refine ⟨fun i task ht => ?_, fun i j task child ht hwait hc hppid hquery => ?_, fun i j a b => h.recorded.distinct,
    h.recorded.once, h.recorded.single, h.recorded.returned⟩
  · rcases eq_or_ne i idleTask with rfl | hi
    · obtain ⟨a, ha, hroot⟩ := h.family.root
      obtain rfl := Option.some.inj (ht.symm.trans ha)
      refine ⟨task, hroot.symm ▸ ht, fun hd => ?_⟩
      exact h.linked.ne_idle ht (Or.inr hd) rfl
    · obtain ⟨p, hp, hlive, -⟩ := h.family.parent ht hi
      exact ⟨p, hp, hlive⟩
  · rw [(h.linked.slot hc).2] at hquery
    exact h.waits.alive ht hwait hc hppid hquery

/-- A task that has died does not run. -/
theorem Passes.ne_current (h : Passes s op r t) (ht : t.Sound) (hd : s.Died i) : t.current ≠ i := by
  rintro rfl
  obtain ⟨task, htask, hrun⟩ := ht.active
  rcases h.died _ hd with ⟨a, ha, hstate⟩ | hnone
  · obtain rfl := Option.some.inj (htask.symm.trans ha)
    exact absurd (hstate.symm.trans hrun) (by simp)
  · exact absurd (hnone.symm.trans htask) (by simp)

/-- **The invariant of the scheduler**: in every state of every run the task that runs is the one
that is running, the lists have the tasks that wait, `schedule` finds a task, and it is never one
that has died. -/
theorem schedRun_settled (ops : List SchedOp) (s : Sched) (hstart : s.Start) (hlegal : Run.Along step Legal s ops) :
    s.Settled ∧ Run.Meets step (fun s op _ t => t.Settled ∧ (∀ i, s.Died i → t.current ≠ i) ∧
      ∀ status, op = .exit status → t.Died s.current ∧ t.current ≠ s.current) s ops := by
  refine ⟨hstart.sound.settled, Run.meets_of_inv Sound (fun s op hs hlegal => ?_) ops s hstart.sound hlegal⟩
  obtain ⟨r, t, hrun, ht, hpass⟩ := hs.step hlegal
  refine ⟨r, t, hrun, ⟨ht.settled, fun i hd => hpass.ne_current ht hd, fun status hop => ?_⟩, ht⟩
  obtain ⟨⟨a, ha, hstate⟩, -⟩ := hpass.exit status hop
  refine ⟨⟨a, ha, hstate⟩, fun heq => ?_⟩
  obtain ⟨task, htask, hrun⟩ := ht.active
  obtain rfl := Option.some.inj (htask.symm.trans (heq ▸ ha))
  exact absurd (hstate.symm.trans hrun) (by simp)

theorem schedRun_settled_fork : (started 0).Settled ∧ Run.Meets step (fun s op _ t => t.Settled ∧
    (∀ i, s.Died i → t.current ≠ i) ∧ ∀ status, op = .exit status → t.Died s.current ∧ t.current ≠ s.current)
    (started 0) [.fork, .block 0, .unblock 1, .exit 7] :=
  schedRun_settled _ _ ⟨0, schedule_taskInit 0⟩ (by decide)

/-- **Wait and exit**: every task has a parent that has not died, nobody waits for a child that
has, `task_waitpid` returns each task that has called `task_exit` at most once, to its parent and
with the status it has passed, and returns `-1` only when there is no child to wait for. -/
theorem schedRun_kindred (ops : List SchedOp) (s : Sched) (hstart : s.Start) (hlegal : Run.Along step Legal s ops) :
    s.Kindred ∧ Run.Meets step (fun s op r t => t.Kindred ∧ Passes s op r t) s ops := by
  refine ⟨hstart.sound.kindred, Run.meets_of_inv Sound (fun s op hs hlegal => ?_) ops s hstart.sound hlegal⟩
  obtain ⟨r, t, hrun, ht, hpass⟩ := hs.step hlegal
  exact ⟨r, t, hrun, ⟨ht.kindred, hpass⟩, ht⟩

theorem schedRun_kindred_wait : (started 0).Kindred ∧ Run.Meets step (fun s op r t => t.Kindred ∧ Passes s op r t)
    (started 0) [.fork, .waitpid (-1), .schedule, .exit 7, .waitpid (-1)] :=
  schedRun_kindred _ _ ⟨0, schedule_taskInit 0⟩ (by decide)

end Sched

end Onixs
