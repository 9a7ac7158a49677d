import Onixs.Kernel.PageHoldings

/-!
# The page directory in CR3

The memory manager together with the register that says which page directory the processor
uses. `task_activate` loads the directory of the task that `schedule` switches to, and
`task_exit` gives the page of the directory back while the register still names it: the
next switch is the last statement of the function, and files are closed before that. As
long as no user task exits the loaded directory stays allocated, and the exit of one ends
that (`Onixs.loadedRun_iff`).
-/

namespace Onixs

open Bytes

/-- Memory and the processor. -/
structure Machine where
  /-- Memory and the tasks. -/
  memory : Memory
  /-- The frame of the page directory in CR3. -/
  cr3 : ℕ
  /-- `running_task`. -/
  current : ℕ
  /-- The pages that `alloc_kpage` gave to other code, such as the heap and the pipes. -/
  lent : List ℕ

namespace Machine

variable (m : Machine)

/-- `task_activate`. -/
def taskActivate (task : Memory.Task) : Machine := if task.pde ≠ m.cr3 then { m with cr3 := task.pde } else m

/-- `schedule`, when `task_searchTask` finds the task `next`. -/
def schedule (next : ℕ) : Option Machine := do
  let task ← m.memory.tasks next
  assert (!task.died)
  if next = m.current then
    return m
  return { m.taskActivate task with current := next }

/-- The loaded directory is a page of the kernel that is marked in `kernel_map`, or the directory of the kernel, which
lies below the pages of the map. -/
def Loaded : Prop := m.cr3 = Memory.kernelPageDir ∨ bitmapTest m.memory.kernelMap m.cr3 = some true

instance : Decidable m.Loaded := inferInstanceAs (Decidable (_ ∨ _))

end Machine

/-- A step of the machine. -/
inductive MachineOp where
  /-- A step of the memory manager. -/
  | memory (op : MemoryOp)
  /-- `alloc_kpage` for code that is not about tasks. -/
  | alloc (count : ℕ)
  /-- `free_kpage` by such code. -/
  | free (index count : ℕ)
  /-- A switch to another task. -/
  | schedule (next : ℕ)

namespace MachineOp

/-- The task that makes the step is the running one; `task_waitpid` gives back the page of another. -/
def By (current : ℕ) : MemoryOp → Prop
  | .fork pid => pid = current
  | .exit pid => pid = current
  | .reap child => child ≠ current
  | .brk pid _ => pid = current
  | .mmap pid _ _ _ _ _ => pid = current
  | .munmap pid _ _ => pid = current
  | .fault pid _ _ _ => pid = current
  | .link pid _ => pid = current
  | .unlink pid _ => pid = current
  | .store pid _ _ => pid = current

/-- What CR3 is afterwards: `copy_pde` loads the directory of the task again. -/
def reload (m : Machine) : MemoryOp → ℕ
  | .fork pid => ((m.memory.running pid).map Memory.Task.pde).getD m.cr3
  | _ => m.cr3

/-- A step, whose result no other step reads. -/
def step (m : Machine) : MachineOp → Option (Unit × Machine)
  | memory op => (op.step m.memory).map fun r => ((), { m with memory := r.2, cr3 := reload m op })
  | alloc count => (m.memory.allocKpage count).map fun r =>
      ((), { m with memory := r.2, lent := List.range' r.1 count ++ m.lent })
  | free index count => (m.memory.freeKpage index count).map fun t =>
      ((), { m with memory := t, lent := m.lent.filter fun k => k < index ∨ index + count ≤ k })
  | schedule next => (m.schedule next).map fun t => ((), t)

/-- Steps of memory are those of the running task, and other code gives back what it was given. -/
def Legal (m : Machine) : MachineOp → Prop
  | memory op => op.Legal m.memory ∧ By m.current op
  | free index count => ∀ k, index ≤ k → k < index + count → k ∈ m.lent
  | _ => True

/-- No user task exits. -/
def Stays : MachineOp → Prop
  | memory (.exit _) => False
  | _ => True

end MachineOp

namespace Memory

/-! ### What single steps do to the tasks -/

section Tasks

variable {s t : Memory} {pid child index count : ℕ} {task : Task}

theorem allocKpage_tasks (h : s.allocKpage count = some (index, t)) : t.tasks = s.tasks := by
  rw [allocKpage] at h
  obtain ⟨_, -, h⟩ := Option.bind_eq_some_iff.mp h
  obtain ⟨⟨k, map⟩, -, h⟩ := Option.bind_eq_some_iff.mp h
  obtain ⟨-, rfl⟩ := Prod.mk.inj (Option.some.inj h)
  rfl

/-- A fork makes one task. -/
theorem taskFork_tasks (h : s.taskFork pid = some (child, t)) :
    s.tasks child = none ∧ ∀ pid', pid' ≠ child → t.tasks pid' = s.tasks pid' := by
  obtain ⟨task, page, bits, pde, pwd, s₁, s₂, s₃, s₄, s₅, -, -, hfree, hpage, hbits, hpde, hcopy, hpwd, rfl⟩ :=
    taskFork_cases h
  refine ⟨hfree, fun pid' hne => ?_⟩
  have hcopied : s₄.tasks = s₃.tasks := (copyTables_same _ _ _ _ hcopy).tasks
  rw [tasks_setTask, if_neg hne, allocKpage_tasks hpwd, hcopied, allocKpage_tasks hpde, allocKpage_tasks hbits,
    allocKpage_tasks hpage]

/-- `task_waitpid` removes one task. -/
theorem taskReap_tasks (h : s.taskReap child = some t) (hne : pid ≠ child) : t.tasks pid = s.tasks pid := by
  rw [taskReap] at h
  obtain ⟨task, -, h⟩ := Option.bind_eq_some_iff.mp h
  obtain ⟨_, -, h⟩ := Option.bind_eq_some_iff.mp h
  rw [freeKpage] at h
  obtain ⟨_, -, h⟩ := Option.bind_eq_some_iff.mp h
  obtain ⟨map, -, h⟩ := Option.bind_eq_some_iff.mp h
  obtain rfl := Option.some.inj h
  exact if_neg hne

/-- **`task_exit` gives the page of the directory back.** -/
theorem Sound.taskExit_clears (h : s.Sound) (hexit : s.taskExit pid = some t) (htask : s.tasks pid = some task) :
    256 ≤ task.pde ∧ bitmapTest t.kernelMap task.pde ≠ some true := by
  rw [Memory.taskExit] at hexit
  obtain ⟨task', hrun, hexit⟩ := Option.bind_eq_some_iff.mp hexit
  obtain rfl := Option.some.inj (htask.symm.trans (running_eq_some.mp hrun).1)
  obtain ⟨s₁, hfree, hexit⟩ := Option.bind_eq_some_iff.mp hexit
  obtain ⟨s₂, hbits, hpwd⟩ := Option.bind_eq_some_iff.mp hexit
  rw [freePde] at hfree
  obtain ⟨_, -, hfree⟩ := Option.bind_eq_some_iff.mp hfree
  obtain ⟨pde, -, hfree⟩ := Option.bind_eq_some_iff.mp hfree
  obtain ⟨v, hput, hpde⟩ := Option.bind_eq_some_iff.mp hfree
  have hheld : ∀ j, s.held (pid, j) = [task.page, task.pde, task.bits, task.pwd][j]? := fun j => by
    rw [held_eq htask, kpages_of_running hrun]
  have hm : v.Marked s.held := h.marked.congr (putTables_same _ _ _ _ hput).kernelMap
  obtain ⟨hlo, -, -⟩ := h.marked.used ((hheld 1).trans rfl)
  obtain ⟨hlo₂, -, -⟩ := h.marked.used ((hheld 2).trans rfl)
  obtain ⟨hlo₃, -, -⟩ := h.marked.used ((hheld 3).trans rfl)
  -- the bit is cleared first, and the two pages that follow set none
  obtain ⟨map₁, rfl, hoff₁, hlen₁, hsize₁, hmap₁⟩ := hm.freeKpages hpde hlo
  obtain ⟨hm₁, -⟩ := hm.freeKpage (a := (pid, 1)) ((hheld 1).trans rfl) hpde
  obtain ⟨map₂, rfl, hoff₂, hlen₂, hsize₂, hmap₂⟩ := hm₁.freeKpages hbits hlo₂
  obtain ⟨hm₂, -⟩ := hm₁.freeKpage (a := (pid, 2))
    (by rw [Function.update_of_ne (by simp)]; exact (hheld 2).trans rfl) hbits
  obtain ⟨map₃, rfl, hoff₃, hlen₃, hsize₃, hmap₃⟩ := hm₂.freeKpages hpwd hlo₃
  refine ⟨hlo, fun htest => ?_⟩
  obtain ⟨-, -, hbit⟩ := bitmapTest_eq_some htest
  simp only at hbit
  have hclear : bitOf map₁.bits (task.pde - 256) = false :=
    (hmap₁ _ hlo).trans (if_pos ⟨le_refl _, Nat.lt_succ_self _⟩)
  rw [hoff₃, hmap₃ _ hlo, hmap₂ _ hlo, hclear, ite_self, ite_self] at hbit
  exact Bool.noConfusion hbit

end Tasks

end Memory

namespace Machine

/-- **The invariant**: the loaded directory is that of the running task, which lives. -/
structure Sound (m : Machine) : Prop where
  /-- The memory manager. -/
  memory : m.memory.Sound
  /-- What other code was given is still its own. -/
  lent : ∀ k ∈ m.lent, m.memory.Lent k
  /-- The running task. -/
  current : ∃ task, m.memory.tasks m.current = some task ∧ task.died = false ∧ task.pde = m.cr3

section Steps

variable {m t : Machine}

/-- The loaded directory is allocated. -/
theorem Sound.loaded (h : m.Sound) : m.Loaded := by
  obtain ⟨task, htask, hdied, hpde⟩ := h.current
  by_cases hkernel : task.pde = Memory.kernelPageDir
  · exact Or.inl (hpde.symm.trans hkernel)
  · have hrun := Memory.running_eq_some.mpr ⟨htask, hdied, hkernel⟩
    have hheld := Memory.held_of_pdeOf (Memory.pdeOf_of_running hrun)
    obtain ⟨hlo, hhi, hbit⟩ := h.memory.marked.used hheld
    have hmarked := h.memory.marked
    have hoff := hmarked.offset
    have hlen := hmarked.length
    have hsize := hmarked.size
    have htest := bitmapTest_eq m.memory.kernelMap (g := task.pde - 256) (by omega) (by omega)
    rw [hoff, Nat.add_sub_cancel' hlo, hbit, hpde] at htest
    exact Or.inr htest

/-- The exit of the running task ends that. -/
theorem Sound.not_loaded (h : m.Sound) {pid : ℕ} {r : Unit} (hlegal : MachineOp.Legal m (.memory (.exit pid)))
    (hstep : MachineOp.step m (.memory (.exit pid)) = some (r, t)) : ¬t.Loaded := by
  obtain ⟨⟨r', u⟩, hop, heq⟩ := Option.map_eq_some_iff.mp hstep
  obtain ⟨-, rfl⟩ := Prod.mk.inj heq
  obtain ⟨v, hexit, heq⟩ := Option.map_eq_some_iff.mp hop
  obtain ⟨-, rfl⟩ := Prod.mk.inj heq
  obtain rfl : pid = m.current := hlegal.2
  obtain ⟨task, htask, -, hpde⟩ := h.current
  obtain ⟨hlo, htest⟩ := h.memory.taskExit_clears hexit htask
  rw [hpde] at hlo htest
  rintro (hkernel | htest')
  · have hcr3 : m.cr3 = Memory.kernelPageDir := hkernel
    rw [hcr3, Memory.kernelPageDir] at hlo
    omega
  · exact htest htest'

/-- **A step of memory** in which the running task goes on. -/
theorem Sound.memoryStep (h : m.Sound) {op : MemoryOp} {r : Unit} (hlegal : MachineOp.Legal m (.memory op))
    (hstays : MachineOp.Stays (.memory op)) (hstep : MachineOp.step m (.memory op) = some (r, t)) : t.Sound := by
  obtain ⟨⟨r', u⟩, hop, heq⟩ := Option.map_eq_some_iff.mp hstep
  obtain ⟨-, rfl⟩ := Prod.mk.inj heq
  obtain ⟨task, htask, hdied, hpde⟩ := h.current
  have hu := h.memory.step hlegal.1 hop
  have hkept : op.KeepsTasks → MachineOp.reload m op = m.cr3 →
      Sound { m with memory := u, cr3 := MachineOp.reload m op } := by
    intro hkeeps hreload
    have hsame := (MemoryOp.step_kernel hkeeps hop).toSameHoldings
    obtain ⟨task', htask', hpde', hdied'⟩ := hsame.exists_task htask
    exact ⟨hu, fun k hk => (h.lent k hk).congr hsame, task', htask', hdied'.trans hdied,
      (hpde'.trans hpde).trans hreload.symm⟩
  cases op with
  | fork pid =>
    obtain rfl : pid = m.current := hlegal.2
    obtain ⟨⟨child, u'⟩, hfork, heq⟩ := Option.map_eq_some_iff.mp hop
    obtain ⟨-, rfl⟩ := Prod.mk.inj heq
    obtain ⟨hfree, hothers⟩ := Memory.taskFork_tasks hfork
    have hne : m.current ≠ child := fun heq => absurd (htask.symm.trans (heq ▸ hfree)) (by simp)
    refine ⟨hu, fun k hk => (h.lent k hk).taskFork h.memory.marked hfork, task, (hothers _ hne).trans htask, hdied, ?_⟩
    obtain ⟨task', -, -, -, -, -, -, -, -, -, hrun, -⟩ := Memory.taskFork_cases hfork
    obtain rfl := Option.some.inj (htask.symm.trans (Memory.running_eq_some.mp hrun).1)
    simp only [MachineOp.reload, hrun, Option.map_some, Option.getD_some]
  | exit pid => exact hstays.elim
  | reap child =>
    obtain ⟨u', hreap, heq⟩ := Option.map_eq_some_iff.mp hop
    obtain ⟨-, rfl⟩ := Prod.mk.inj heq
    have hne : m.current ≠ child := fun heq => hlegal.2 heq.symm
    exact ⟨hu, fun k hk => (h.lent k hk).taskReap h.memory.marked hreap, task,
      (Memory.taskReap_tasks hreap hne).trans htask, hdied, hpde⟩
  | brk pid addr => exact hkept trivial rfl
  | mmap pid addr length prot flags file => exact hkept trivial rfl
  | munmap pid addr length => exact hkept trivial rfl
  | fault pid vaddr present write => exact hkept trivial rfl
  | link pid vaddr => exact hkept trivial rfl
  | unlink pid vaddr => exact hkept trivial rfl
  | store pid vaddr word => exact hkept trivial rfl

/-- **`alloc_kpage` by other code** takes pages of nobody. -/
theorem Sound.alloc (h : m.Sound) {count : ℕ} {r : Unit} (hstep : MachineOp.step m (.alloc count) = some (r, t)) :
    t.Sound := by
  obtain ⟨⟨index, u⟩, halloc, heq⟩ := Option.map_eq_some_iff.mp hstep
  obtain ⟨-, rfl⟩ := Prod.mk.inj heq
  obtain ⟨hlo, hhi, hclear, rfl⟩ := h.memory.marked.allocKpages halloc
  have hmarked := h.memory.marked
  have hbits : ∀ j, bitOf m.memory.kernelMap.bits j = true →
      bitOf (setRun m.memory.kernelMap.bits (index - 256) count) j = true := by
    intro j hj
    rw [bitOf_setRun, hj, ite_self]
  refine ⟨h.memory.congr_map hmarked.offset hmarked.length hmarked.size
    fun a k ha => hbits _ (hmarked.used ha).2.2, fun k hk => ?_, h.current⟩
  rcases List.mem_append.mp hk with hnew | hold
  · rw [List.mem_range'_1] at hnew
    refine ⟨by omega, by omega, ?_, fun a ha => ?_⟩
    · exact (bitOf_setRun _ _ _ _).trans (if_pos (by omega))
    · have hset := (hmarked.used ha).2.2
      rw [hclear (k - 256) (by omega) (by omega)] at hset
      exact Bool.noConfusion hset
  · have hk := h.lent k hold
    exact ⟨hk.lo, hk.hi, hbits _ hk.marked, hk.notHeld⟩

/-- **`free_kpage` by other code** gives back what is its own. -/
theorem Sound.free (h : m.Sound) {index count : ℕ} {r : Unit} (hlegal : MachineOp.Legal m (.free index count))
    (hstep : MachineOp.step m (.free index count) = some (r, t)) : t.Sound := by
  obtain ⟨u, hfree, heq⟩ := Option.map_eq_some_iff.mp hstep
  obtain ⟨-, rfl⟩ := Prod.mk.inj heq
  have hcount : 0 < count := by
    obtain ⟨_, hcount, -⟩ := Option.bind_eq_some_iff.mp hfree
    exact assert_eq_some.mp hcount
  have hlo := (h.lent index (hlegal index (le_refl _) (by omega))).lo
  obtain ⟨map, rfl, hoff, hlen, hsize, hbits⟩ := h.memory.marked.freeKpages hfree hlo
  have hkeep : ∀ k, 256 ≤ k → (k < index ∨ index + count ≤ k) →
      bitOf m.memory.kernelMap.bits (k - 256) = true → bitOf map.bits (k - 256) = true := by
    intro k hk hout hbit
    rw [hbits k hk, if_neg (by omega), hbit]
  refine ⟨h.memory.congr_map hoff hlen hsize fun a k ha => ?_, fun k hk => ?_, h.current⟩
  · obtain ⟨hk, -, hbit⟩ := h.memory.marked.used ha
    -- a page of a task is not lent
    refine hkeep k hk (by_contra fun hin => ?_) hbit
    exact (h.lent k (hlegal k (by omega) (by omega))).notHeld a ha
  · obtain ⟨hmem, hout⟩ := List.mem_filter.mp hk
    have hk := h.lent k hmem
    exact ⟨hk.lo, hk.hi, hkeep k hk.lo (of_decide_eq_true hout) hk.marked, hk.notHeld⟩

/-- The task found is the running one. -/
theorem schedule_current {next : ℕ} (hrun : m.schedule next = some t) : t.current = next := by
  rw [schedule] at hrun
  obtain ⟨task, -, hrun⟩ := Option.bind_eq_some_iff.mp hrun
  obtain ⟨_, -, hrun⟩ := Option.bind_eq_some_iff.mp hrun
  split at hrun
  · next heq => exact Option.some.inj hrun ▸ heq.symm
  · exact Option.some.inj hrun ▸ rfl

/-- **`schedule`** loads the directory of the task it switches to. -/
theorem Sound.schedule (h : m.Sound) {next : ℕ} (hrun : m.schedule next = some t) : t.Sound := by
  rw [Machine.schedule] at hrun
  obtain ⟨task, htask, hrun⟩ := Option.bind_eq_some_iff.mp hrun
  obtain ⟨_, hlive, hrun⟩ := Option.bind_eq_some_iff.mp hrun
  have hdied : task.died = false := by simpa using assert_eq_some.mp hlive
  split at hrun
  · exact Option.some.inj hrun ▸ h
  · obtain rfl := Option.some.inj hrun
    rw [taskActivate]
    split
    · exact ⟨h.memory, h.lent, task, htask, hdied, rfl⟩
    · next heq => exact ⟨h.memory, h.lent, task, htask, hdied, not_not.mp heq⟩

/-- **A step in which no task exits** keeps the invariant. -/
theorem Sound.step (h : m.Sound) {op : MachineOp} {r : Unit} (hlegal : op.Legal m) (hstays : op.Stays)
    (hstep : op.step m = some (r, t)) : t.Sound := by
  cases op with
  | memory op => exact h.memoryStep hlegal hstays hstep
  | alloc count => exact h.alloc hstep
  | free index count => exact h.free hlegal hstep
  | schedule next =>
    obtain ⟨u, hrun, heq⟩ := Option.map_eq_some_iff.mp hstep
    obtain ⟨-, rfl⟩ := Prod.mk.inj heq
    exact h.schedule hrun

end Steps

/-- **The start**: no task has user memory yet, and the directory of the running task is loaded, as `task_to_user_mode`
leaves it. -/
structure Start (m : Machine) : Prop where
  /-- The memory manager. -/
  boot : m.memory.Boot
  /-- The pages of other code. -/
  lent : ∀ k ∈ m.lent, m.memory.Lent k
  /-- The running task. -/
  current : ∃ task, m.memory.tasks m.current = some task ∧ task.died = false ∧ task.pde = m.cr3

theorem Start.sound {m : Machine} (h : m.Start) : m.Sound := ⟨h.boot.sound, h.lent, h.current⟩

end Machine

/-- The steps that do not stay are exits. -/
theorem MachineOp.exists_exit {op : MachineOp} (h : ¬op.Stays) : ∃ pid, op = .memory (.exit pid) := by
  cases op with
  | memory op =>
    cases op with
    | exit pid => exact ⟨pid, rfl⟩
    | _ => exact absurd trivial h
  | _ => exact absurd trivial h

/-- **The loaded page directory stays allocated** in every state of a run exactly when no user task exits in it. -/
theorem loadedRun_iff {m t : Machine} (h : m.Start) {ops : List MachineOp}
    (hlegal : Run.Along MachineOp.step MachineOp.Legal m ops) (hrun : Run.exec MachineOp.step m ops = some t) :
    (∀ pre u, pre <+: ops → Run.exec MachineOp.step m pre = some u → u.Loaded) ↔ ∀ op ∈ ops, op.Stays := by
  have hgood : ∀ (s : Machine) op (r : Unit) u, s.Sound → MachineOp.Legal s op → op.Stays →
      MachineOp.step s op = some (r, u) → u.Sound := fun s op r u hs hl hstays hstep => hs.step hl hstays hstep
  have hbad : ∀ (s : Machine) op (r : Unit) u, s.Sound → MachineOp.Legal s op → ¬op.Stays →
      MachineOp.step s op = some (r, u) → ¬u.Loaded := by
    intro s op r u hs hl hnot hstep
    obtain ⟨pid, rfl⟩ := MachineOp.exists_exit hnot
    exact hs.not_loaded hl hstep
  exact Run.forall_reached_iff Machine.Sound (fun _ hs => hs.loaded) hgood hbad ops m t h.sound hlegal hrun

/-- A machine whose first user task is about to run. -/
def bootMachine : Machine where
  memory := bootMemory
  cr3 := 257
  current := 1
  lent := []

theorem bootMachine_start : bootMachine.Start :=
  ⟨bootMemory_boot, fun _ hk => absurd hk List.not_mem_nil, firstTask, rfl, rfl, rfl⟩

/-- The task forks, other code takes two pages, and the child runs. -/
theorem loadedRun_iff_fork : ∃ t,
    Run.exec MachineOp.step bootMachine [.memory (.fork 1), .alloc 2, .schedule 0] = some t ∧
      ((∀ pre u, pre <+: [.memory (.fork 1), .alloc 2, .schedule 0] →
        Run.exec MachineOp.step bootMachine pre = some u → u.Loaded) ↔
          ∀ op ∈ [MachineOp.memory (.fork 1), .alloc 2, .schedule 0], op.Stays) := by
  have hsome : (Run.exec MachineOp.step bootMachine [.memory (.fork 1), .alloc 2, .schedule 0]).isSome = true := by
    decide +kernel
  obtain ⟨t, ht⟩ := Option.isSome_iff_exists.mp hsome
  exact ⟨t, ht, loadedRun_iff bootMachine_start ⟨⟨trivial, rfl⟩, fun _ _ _ => ⟨trivial, fun _ _ _ =>
    ⟨trivial, fun _ _ _ => trivial⟩⟩⟩ ht⟩

/-- The child exits: until the next switch CR3 names a page that `alloc_kpage` may hand out. -/
theorem loadedRun_exit : ∃ t, bootMachine.Start ∧
    Run.Along MachineOp.step MachineOp.Legal bootMachine [.memory (.fork 1), .schedule 0, .memory (.exit 0)] ∧
      Run.exec MachineOp.step bootMachine [.memory (.fork 1), .schedule 0, .memory (.exit 0)] = some t ∧
        ¬t.Loaded := by
  have hrun : (Run.exec MachineOp.step bootMachine [.memory (.fork 1), .schedule 0, .memory (.exit 0)]).map
      (fun t => decide t.Loaded) = some false := by decide +kernel
  obtain ⟨t, ht, hloaded⟩ := Option.map_eq_some_iff.mp hrun
  refine ⟨t, bootMachine_start, ⟨⟨trivial, rfl⟩, fun _ u _ => ⟨trivial, fun r v hstep => ⟨⟨trivial, ?_⟩, fun _ _ _ =>
    trivial⟩⟩⟩, ht, of_decide_eq_false hloaded⟩
  obtain ⟨w, hswitch, heq⟩ := Option.map_eq_some_iff.mp hstep
  obtain ⟨-, rfl⟩ := Prod.mk.inj heq
  exact (Machine.schedule_current hswitch).symm

end Onixs
