import Onixs.Kernel.OpenFileCounts

/-!
# What a call does to the tasks

The calls of `Onixs.OpenFiles` as the task table sees them, without the file table: most store one descriptor of the task
that calls. So a task keeps its descriptors whatever the others do, and its children too, but for those that a child of
it leaves behind (`Onixs.OpenFiles.fileStep_undisturbed`).
-/

namespace Onixs

/-- The task that calls. -/
def FileOp.caller : FileOp → ℕ
  | .fork pid => pid
  | .exit pid => pid
  | .waitpid pid _ => pid
  | .opens pid _ _ => pid
  | .close pid _ => pid
  | .dup pid _ => pid
  | .dup2 pid _ _ => pid
  | .pipe pid _ => pid

namespace OpenFiles

variable {s t : OpenFiles} {pid sh : ℕ} {p q : Process}

/-! ### One call -/

/-- `sys_open` stores a descriptor where it returns one. -/
theorem sysOpen_tasks {opened : Option Opened} {flags : ℕ} {r : ℤ} (hopen : s.sysOpen pid opened flags = some (r, t)) :
    ∃ p, s.running pid = some p ∧ ((opened = none ∧ r = -1 ∧ t = s) ∨
      ∃ (slot f : ℕ), opened ≠ none ∧ slot < taskFileNr ∧ p.files slot = none ∧ r = slot ∧
        t.tasks = Function.update s.tasks pid (some { p with files := Function.update p.files slot (some f) })) := by
  obtain ⟨p, hrun, hopen⟩ := Option.bind_eq_some_iff.mp hopen
  refine ⟨p, hrun, ?_⟩
  cases opened with
  | none =>
    obtain ⟨rfl, rfl⟩ := Prod.mk.inj (Option.some.inj hopen)
    exact Or.inl ⟨rfl, rfl, rfl⟩
  | some o =>
    obtain ⟨slot, hslot, hopen⟩ := Option.bind_eq_some_iff.mp hopen
    obtain ⟨⟨f, u⟩, hget, hopen⟩ := Option.bind_eq_some_iff.mp hopen
    obtain ⟨rfl, rfl⟩ := Prod.mk.inj (Option.some.inj hopen)
    obtain ⟨_, -, hget⟩ := Option.bind_eq_some_iff.mp hget
    obtain ⟨rfl, rfl⟩ := Prod.mk.inj (Option.some.inj hget)
    obtain ⟨hlt, hfree⟩ := Processes.taskGetFd_some hslot
    exact Or.inr ⟨slot, _, by simp, List.mem_range.mp hlt, hfree, rfl, rfl⟩

/-- `sys_pipe` stores two descriptors. -/
theorem sysPipe_tasks {inode r w : ℕ} (hpipe : s.sysPipe pid inode = some ((r, w), t)) :
    ∃ (p : Process) (f g : ℕ), s.running pid = some p ∧ r < taskFileNr ∧ w < taskFileNr ∧ p.files r = none ∧
      Function.update p.files r (some f) w = none ∧ t.tasks = Function.update s.tasks pid
        (some { p with files := Function.update (Function.update p.files r (some f)) w (some g) }) := by
  obtain ⟨p, hrun, hpipe⟩ := Option.bind_eq_some_iff.mp hpipe
  obtain ⟨fd₀, hfd₀, hpipe⟩ := Option.bind_eq_some_iff.mp hpipe
  obtain ⟨⟨f, u⟩, hget₀, hpipe⟩ := Option.bind_eq_some_iff.mp hpipe
  obtain ⟨fd₁, hfd₁, hpipe⟩ := Option.bind_eq_some_iff.mp hpipe
  obtain ⟨⟨g, v⟩, hget₁, hpipe⟩ := Option.bind_eq_some_iff.mp hpipe
  obtain ⟨heq, rfl⟩ := Prod.mk.inj (Option.some.inj hpipe)
  obtain ⟨rfl, rfl⟩ := Prod.mk.inj heq
  obtain ⟨_, -, hget₀⟩ := Option.bind_eq_some_iff.mp hget₀
  obtain ⟨rfl, rfl⟩ := Prod.mk.inj (Option.some.inj hget₀)
  obtain ⟨_, -, hget₁⟩ := Option.bind_eq_some_iff.mp hget₁
  obtain ⟨rfl, rfl⟩ := Prod.mk.inj (Option.some.inj hget₁)
  obtain ⟨hlt₀, hfree₀⟩ := Processes.taskGetFd_some hfd₀
  obtain ⟨hlt₁, hfree₁⟩ := Processes.taskGetFd_some hfd₁
  exact ⟨p, _, _, hrun, List.mem_range.mp hlt₀, List.mem_range.mp hlt₁, hfree₀, hfree₁, Function.update_idem _ _ _⟩

/-- `dupfd` stores a descriptor or none. -/
theorem dupfd_tasks {fd r : ℤ} {arg : ℕ} (hdup : s.dupfd pid fd arg = some (r, t)) :
    ∃ p q, s.tasks pid = some p ∧ q.ppid = p.ppid ∧ t.tasks = Function.update s.tasks pid (some q) := by
  obtain ⟨p, hrun, hdup⟩ := Option.bind_eq_some_iff.mp hdup
  have hp := (running_eq_some.mp hrun).1
  have hsame : s.tasks = Function.update s.tasks pid (some p) := by rw [← hp, Function.update_eq_self]
  split at hdup
  · obtain ⟨-, rfl⟩ := Prod.mk.inj (Option.some.inj hdup)
    exact ⟨p, p, hp, rfl, hsame⟩
  · obtain ⟨slot, -, hdup⟩ := Option.bind_eq_some_iff.mp hdup
    split at hdup
    · obtain ⟨-, rfl⟩ := Prod.mk.inj (Option.some.inj hdup)
      exact ⟨p, p, hp, rfl, hsame⟩
    · split at hdup
      · obtain ⟨-, rfl⟩ := Prod.mk.inj (Option.some.inj hdup)
        exact ⟨p, p, hp, rfl, hsame⟩
      · obtain ⟨-, rfl⟩ := Prod.mk.inj (Option.some.inj hdup)
        refine ⟨p, _, hp, ?_, rfl⟩
        rfl

/-- `task_fork` stores a child. -/
theorem taskFork_tasks {child : ℕ} (hfork : s.taskFork pid = some (child, t)) :
    ∃ p, s.running pid = some p ∧ child < taskNumber ∧ s.tasks child = none ∧
      t.tasks = Function.update s.tasks child (some { p with ppid := pid }) := by
  obtain ⟨p, hrun, hfork⟩ := Option.bind_eq_some_iff.mp hfork
  obtain ⟨c, hfind, hfork⟩ := Option.bind_eq_some_iff.mp hfork
  obtain ⟨rfl, rfl⟩ := Prod.mk.inj (Option.some.inj hfork)
  refine ⟨p, hrun, List.mem_range.mp (List.mem_of_find?_eq_some hfind), ?_, (addAll_same _ _).1⟩
  simpa using List.find?_some hfind

/-- `task_exit` takes the descriptors of a task, and hands its children on. -/
theorem taskExit_tasks (hexit : s.taskExit pid = some t) : ∃ p q, s.tasks pid = some p ∧ q.ppid = p.ppid ∧
    ∀ c, t.tasks c = (Function.update s.tasks pid (some q) c).map fun child =>
      if child.ppid = pid then { child with ppid := p.ppid } else child := by
  obtain ⟨p, hrun, hexit⟩ := Option.bind_eq_some_iff.mp hexit
  obtain ⟨u, hclose, hexit⟩ := Option.bind_eq_some_iff.mp hexit
  obtain rfl := Option.some.inj hexit
  have hu := closeAll_tasks (p := { p with died := true }) _ (fun fd hfd => List.mem_range.mp hfd) hclose
    (setProcess_self s pid _)
  refine ⟨p, { p with died := true, files := fun fd => if fd ∈ List.range taskFileNr then none else p.files fd },
    (running_eq_some.mp hrun).1, rfl, fun c => ?_⟩
  rw [reparent, hu, setProcess, Function.update_idem]

/-- `sys_close` by a task that is there. -/
theorem sysClose_some {fd : ℤ} (hclose : s.sysClose pid fd = some t) : ∃ p slot, s.tasks pid = some p ∧
    fdSlot fd = some slot ∧
      t.tasks = Function.update s.tasks pid (some { p with files := Function.update p.files slot none }) := by
  obtain ⟨_, -, hbody⟩ := Option.bind_eq_some_iff.mp hclose
  obtain ⟨p, hp, hbody⟩ := Option.bind_eq_some_iff.mp hbody
  obtain ⟨slot, hslot, -⟩ := Option.bind_eq_some_iff.mp hbody
  exact ⟨p, slot, hp, hslot, sysClose_tasks hclose hp hslot⟩

/-! ### A call of another task -/

/-- Task `c` is a child of task `sh`. -/
def IsChild (s : OpenFiles) (sh c : ℕ) : Prop := c < taskNumber ∧ ∃ p, s.tasks c = some p ∧ p.ppid = sh

/-- The operation gives task `sh` children: those of a child of it that exits. -/
def Gives (s : OpenFiles) (sh : ℕ) : FileOp → Prop
  | .exit pid => (∃ p, s.tasks pid = some p ∧ p.ppid = sh) ∧ ∃ c, s.IsChild pid c
  | _ => False

/-- **What happens leaves task `sh` alone**: it runs as before, with the same descriptors and the same children. -/
structure Undisturbed (sh : ℕ) (s t : OpenFiles) : Prop where
  /-- The task. -/
  running : ∀ p, s.running sh = some p → ∃ q, t.running sh = some q ∧ q.files = p.files
  /-- Its children. -/
  children : ∀ c, t.IsChild sh c ↔ s.IsChild sh c
  /-- No place of the table below 2 becomes free. -/
  low : ∀ c < 2, s.tasks c ≠ none → t.tasks c ≠ none

theorem Undisturbed.refl (sh : ℕ) (s : OpenFiles) : Undisturbed sh s s where
  running p hp := ⟨p, hp, rfl⟩
  children _ := Iff.rfl
  low _ _ := id

theorem Undisturbed.trans {u : OpenFiles} (h : Undisturbed sh s t) (h' : Undisturbed sh t u) : Undisturbed sh s u where
  running p hp := by
    obtain ⟨q, hq, hfiles⟩ := h.running p hp
    obtain ⟨r, hr, hfiles'⟩ := h'.running q hq
    exact ⟨r, hr, hfiles'.trans hfiles⟩
  children c := (h'.children c).trans (h.children c)
  low c hc hs := h'.low c hc (h.low c hc hs)

/-- Another task has got another record with the same parent. -/
theorem Undisturbed.of_update (hne : pid ≠ sh) (hp : s.tasks pid = some p)
    (htasks : t.tasks = Function.update s.tasks pid (some q)) (hq : q.ppid = p.ppid) : Undisturbed sh s t := by
  refine ⟨fun r hr => ⟨r, ?_, rfl⟩, fun c => ?_, fun c _ hc => ?_⟩
  · rw [running_eq_some] at hr ⊢
    rw [htasks, Function.update_of_ne hne.symm]
    exact hr
  · rw [IsChild, IsChild, htasks]
    refine and_congr_right fun _ => ?_
    rcases eq_or_ne c pid with rfl | hc
    · rw [Function.update_self, hp]
      constructor
      · rintro ⟨r, hr, hppid⟩
        obtain rfl := Option.some.inj hr
        exact ⟨p, rfl, hq.symm.trans hppid⟩
      · rintro ⟨r, hr, hppid⟩
        obtain rfl := Option.some.inj hr
        exact ⟨q, rfl, hq.trans hppid⟩
    · rw [Function.update_of_ne hc]
  · rw [htasks]
    rcases eq_or_ne c pid with rfl | hc'
    · rw [Function.update_self]
      exact Option.some_ne_none q
    · rwa [Function.update_of_ne hc']

theorem Undisturbed.sysClose {fd : ℤ} (hne : pid ≠ sh) (hclose : s.sysClose pid fd = some t) : Undisturbed sh s t := by
  obtain ⟨p, slot, hp, -, htasks⟩ := sysClose_some hclose
  exact .of_update hne hp htasks rfl

theorem Undisturbed.dupfd {fd r : ℤ} {arg : ℕ} (hne : pid ≠ sh) (hdup : s.dupfd pid fd arg = some (r, t)) :
    Undisturbed sh s t := by
  obtain ⟨p, q, hp, hq, htasks⟩ := dupfd_tasks hdup
  exact .of_update hne hp htasks hq

theorem Undisturbed.taskFork {child : ℕ} (hne : pid ≠ sh) (hfork : s.taskFork pid = some (child, t)) : Undisturbed sh s t := by
  obtain ⟨p, -, -, hfree, htasks⟩ := taskFork_tasks hfork
  refine ⟨fun r hr => ⟨r, ?_, rfl⟩, fun c => ?_, fun c _ hc => ?_⟩
  · rw [running_eq_some] at hr ⊢
    have hchild : sh ≠ child := by
      rintro rfl
      exact absurd (hfree.symm.trans hr.1) (by simp)
    rw [htasks, Function.update_of_ne hchild]
    exact hr
  · rw [IsChild, IsChild, htasks]
    refine and_congr_right fun _ => ?_
    rcases eq_or_ne c child with rfl | hc
    · rw [Function.update_self, hfree]
      constructor
      · rintro ⟨r, hr, hppid⟩
        obtain rfl := Option.some.inj hr
        exact absurd hppid hne
      · rintro ⟨r, hr, -⟩
        exact absurd hr (by simp)
    · rw [Function.update_of_ne hc]
  · rw [htasks]
    rcases eq_or_ne c child with rfl | hc'
    · exact absurd hfree hc
    · rwa [Function.update_of_ne hc']

/-- A task that exits hands its children on, to `sh` only if it is a child of `sh`. -/
theorem Undisturbed.taskExit (hne : pid ≠ sh) (hgives : ¬s.Gives sh (.exit pid)) (hexit : s.taskExit pid = some t) :
    Undisturbed sh s t := by
  obtain ⟨p, q, hp, hq, htasks⟩ := taskExit_tasks hexit
  -- the table before the children are handed on
  let u : OpenFiles := { s with tasks := Function.update s.tasks pid (some q) }
  have hu : Undisturbed sh s u := .of_update hne hp rfl hq
  have hback : ∀ c, u.IsChild pid c → s.IsChild pid c := by
    rintro c ⟨hlt, r, hr, hppid⟩
    rcases eq_or_ne c pid with rfl | hc
    · rw [show u.tasks c = some q from Function.update_self _ _ _] at hr
      obtain rfl := Option.some.inj hr
      exact ⟨hlt, p, hp, hq.symm.trans hppid⟩
    · rw [show u.tasks c = s.tasks c from Function.update_of_ne hc _ _] at hr
      exact ⟨hlt, r, hr, hppid⟩
  refine hu.trans ⟨fun r hr => ?_, fun c => ?_, fun c _ hc => ?_⟩
  · obtain ⟨hsh, hdead⟩ := running_eq_some.mp hr
    refine ⟨if r.ppid = pid then { r with ppid := p.ppid } else r, running_eq_some.mpr ⟨?_, ?_⟩, ?_⟩
    · rw [htasks sh]
      exact congrArg (Option.map _) hsh
    · split
      · exact hdead
      · exact hdead
    · split
      · rfl
      · rfl
  · constructor
    · rintro ⟨hlt, r, hr, hppid⟩
      rw [htasks c] at hr
      obtain ⟨child, hchild, rfl⟩ := Option.map_eq_some_iff.mp hr
      by_cases hown : child.ppid = pid
      · rw [if_pos hown] at hppid
        exact absurd ⟨⟨p, hp, hppid⟩, c, hback c ⟨hlt, child, hchild, hown⟩⟩ hgives
      · rw [if_neg hown] at hppid
        exact ⟨hlt, child, hchild, hppid⟩
    · rintro ⟨hlt, child, hchild, hppid⟩
      refine ⟨hlt, child, ?_, hppid⟩
      rw [htasks c, show Function.update s.tasks pid (some q) c = some child from hchild, Option.map_some,
        if_neg fun hown => hne (hown.symm.trans hppid)]
  · rw [htasks c]
    intro hnone
    exact hc (Option.map_eq_none_iff.mp hnone)

/-- A task takes the records of its own children only, and none of a task that is alive. -/
theorem Undisturbed.taskWaitpid {which : Option ℕ} (hne : pid ≠ sh) : Undisturbed sh s (s.taskWaitpid pid which) := by
  rw [OpenFiles.taskWaitpid]
  split
  · exact .refl sh s
  · rename_i child hfind
    have hdead := List.find?_some hfind
    obtain ⟨q, hq, hdead⟩ := (Option.any_eq_true _ _).mp hdead
    simp only [Bool.and_eq_true, beq_iff_eq] at hdead
    obtain ⟨⟨hppid, hdied⟩, -⟩ := hdead
    obtain ⟨hlow, -⟩ := List.mem_range'_1.mp (List.mem_of_find?_eq_some hfind)
    refine ⟨fun r hr => ⟨r, ?_, rfl⟩, fun c => ?_, fun c hc hs => ?_⟩
    · rw [running_eq_some] at hr ⊢
      have hchild : sh ≠ child := by
        rintro rfl
        obtain rfl := Option.some.inj (hq.symm.trans hr.1)
        exact Bool.false_ne_true (hr.2.symm.trans hdied)
      rw [setProcess_of_ne _ _ hchild]
      exact hr
    · rw [IsChild, IsChild]
      refine and_congr_right fun _ => ?_
      rcases eq_or_ne c child with rfl | hc
      · rw [setProcess_self, hq]
        constructor
        · rintro ⟨r, hr, -⟩
          exact absurd hr (by simp)
        · rintro ⟨r, hr, hown⟩
          obtain rfl := Option.some.inj hr
          exact absurd (hppid.symm.trans hown) hne
      · rw [setProcess_of_ne _ _ hc]
    · rwa [setProcess_of_ne _ _ (by omega)]

/-- **What another task does** leaves a task alone, unless it gives it children. -/
theorem fileStep_undisturbed {op : FileOp} {r : ℤ} (hne : op.caller ≠ sh) (hgives : ¬s.Gives sh op)
    (hstep : fileStep s op = some (r, t)) : Undisturbed sh s t := by
  have hstart : Undisturbed sh s { s with calls := [] } := ⟨fun p hp => ⟨p, hp, rfl⟩, fun _ => Iff.rfl, fun _ _ => id⟩
  refine hstart.trans ?_
  cases op with
  | fork pid =>
    obtain ⟨⟨child, u⟩, hfork, heq⟩ := Option.map_eq_some_iff.mp hstep
    obtain ⟨-, rfl⟩ := Prod.mk.inj heq
    exact .taskFork hne hfork
  | exit pid =>
    obtain ⟨u, hexit, heq⟩ := Option.map_eq_some_iff.mp hstep
    obtain ⟨-, rfl⟩ := Prod.mk.inj heq
    exact .taskExit hne hgives hexit
  | waitpid pid which =>
    obtain ⟨-, rfl⟩ := Prod.mk.inj (Option.some.inj hstep)
    exact .taskWaitpid hne
  | opens pid opened flags =>
    obtain ⟨p, hp, ⟨-, -, rfl⟩ | ⟨slot, f, -, -, -, -, htasks⟩⟩ := sysOpen_tasks hstep
    · exact .refl sh _
    · exact .of_update hne (running_eq_some.mp hp).1 htasks rfl
  | close pid fd =>
    obtain ⟨_, -, hstep⟩ := Option.bind_eq_some_iff.mp hstep
    obtain ⟨u, hclose, heq⟩ := Option.map_eq_some_iff.mp hstep
    obtain ⟨-, rfl⟩ := Prod.mk.inj heq
    exact .sysClose hne hclose
  | dup pid fd => exact .dupfd hne hstep
  | dup2 pid oldfd newfd =>
    obtain ⟨_, -, hstep⟩ := Option.bind_eq_some_iff.mp hstep
    obtain ⟨u, hclose, hdup⟩ := Option.bind_eq_some_iff.mp hstep
    exact (Undisturbed.sysClose hne hclose).trans (.dupfd hne hdup)
  | pipe pid inode =>
    obtain ⟨⟨⟨r, w⟩, u⟩, hpipe, heq⟩ := Option.map_eq_some_iff.mp hstep
    obtain ⟨-, rfl⟩ := Prod.mk.inj heq
    obtain ⟨p, f, g, hp, -, -, -, -, htasks⟩ := sysPipe_tasks hpipe
    exact .of_update hne (running_eq_some.mp hp).1 htasks rfl

end OpenFiles

end Onixs
