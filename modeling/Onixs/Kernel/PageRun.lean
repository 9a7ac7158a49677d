import Onixs.Common.Run
import Onixs.Kernel.PageSteps

/-!
# Runs of the memory manager

Any interleaving of forks, exits, system calls, faults and user stores of any tasks, from a
state in which no task has user memory yet (`Onixs.Memory.Boot`). In every state such a
run reaches `memory_map` is exact: the counter of a page is the number of page-table and
page-directory entries, over all live address spaces, that refer to it
(`Onixs.memoryRun_counts`).
-/

namespace Onixs

/-- A step of some task. -/
inductive MemoryOp where
  /-- `task_fork`. -/
  | fork (pid : ℕ)
  /-- `task_exit`. -/
  | exit (pid : ℕ)
  /-- `task_waitpid` of a dead child. -/
  | reap (child : ℕ)
  /-- `sys_brk`. -/
  | brk (pid addr : ℕ)
  /-- `sys_mmap`. -/
  | mmap (pid addr length prot flags : ℕ) (file : Option (ℕ → ℕ → Option PageEntry))
  /-- `sys_munmap`. -/
  | munmap (pid addr length : ℕ)
  /-- `page_fault`. -/
  | fault (pid vaddr : ℕ) (present write : Bool)
  /-- `link_page`. -/
  | link (pid vaddr : ℕ)
  /-- `unlink_page`. -/
  | unlink (pid vaddr : ℕ)
  /-- A store of the user program. -/
  | store (pid vaddr : ℕ) (word : PageEntry)

namespace MemoryOp

/-- A step, whose result no other step reads. -/
def step (s : Memory) : MemoryOp → Option (Unit × Memory)
  | fork pid => (s.taskFork pid).map fun r => ((), r.2)
  | exit pid => (s.taskExit pid).map fun t => ((), t)
  | reap child => (s.taskReap child).map fun t => ((), t)
  | brk pid addr => (s.sysBrk pid addr).map fun r => ((), r.2)
  | mmap pid addr length prot flags file =>
      (s.sysMmap pid addr length prot flags file).map fun r => ((), r.2)
  | munmap pid addr length => (s.sysMunmap pid addr length).map fun t => ((), t)
  | fault pid vaddr present write => (s.pageFault pid vaddr present write).map fun t => ((), t)
  | link pid vaddr => (s.running pid).bind fun task =>
      (s.linkPage task.pde vaddr).map fun t => ((), t)
  | unlink pid vaddr => (s.running pid).bind fun task =>
      (s.unlinkPage task.pde vaddr).map fun t => ((), t)
  | store pid vaddr word => (s.store pid vaddr word).map fun t => ((), t)

/-- Faults are on user addresses below the top of the stack, and only user pages are linked,
unlinked and written. -/
def Legal (_ : Memory) : MemoryOp → Prop
  | fault _ vaddr _ _ => Memory.userExecAddr ≤ vaddr ∧ vaddr < Memory.userStackTop
  | link _ vaddr => Memory.userExecAddr ≤ vaddr ∧ vaddr < 0xFFC00000
  | unlink _ vaddr => Memory.userExecAddr ≤ vaddr ∧ vaddr < 0xFFC00000
  | store _ vaddr _ => Memory.userExecAddr ≤ vaddr ∧ vaddr < 0xFFC00000
  | _ => True

end MemoryOp

namespace Memory

/-! ### The start -/

/-- **No task has user memory yet.** -/
structure Boot (s : Memory) : Prop where
  /-- The pages of the kernel, as `mapping_init` counts them. -/
  low : ∀ p < 4096, s.memoryMap p = 1
  /-- All other pages are free. -/
  high : ∀ p, 4096 ≤ p → s.memoryMap p = 0
  /-- A 32-bit machine has no more pages. -/
  total : s.totalPages ≤ 1048576
  /-- `task_table` has 64 places. -/
  lt : ∀ {pid task}, s.running pid = some task → pid < 64
  /-- The first entry of a directory is the table of the first four MiB. -/
  kernel : ∀ {pid task}, s.running pid = some task →
    (s.mem task.pde 0).present = true ∧ (s.mem task.pde 0).index = 2
  /-- The last entry of a directory is the directory. -/
  last : ∀ {pid task}, s.running pid = some task →
    (s.mem task.pde 1023).present = true ∧ (s.mem task.pde 1023).index = task.pde
  /-- There are no page tables for user memory. -/
  bare : ∀ {pid task}, s.running pid = some task → ∀ d, 4 ≤ d → d < 1023 →
    (s.mem task.pde d).present = false
  /-- The kernel pages of the tasks are marked. -/
  marked : s.Marked s.held
  /-- The heap and the mapping area of the tasks. -/
  wf : ∀ {pid task}, s.running pid = some task → task.WF

/-- There are no entries at the start. -/
theorem Boot.entryAt {s : Memory} (h : s.Boot) (r : Place) : s.entryAt r = none := by
  obtain ⟨pid, d, o⟩ := r
  by_cases hr : (pid, d, o) ∈ places
  swap
  · exact entryAt_of_notMem hr
  obtain ⟨-, hd, hd', -⟩ := mem_places.mp hr
  cases hp : s.pdeOf pid with
  | none => exact entryAt_of_dead hp _
  | some pde =>
    obtain ⟨task, hrun, rfl⟩ := pdeOf_eq_some.mp hp
    have habs := h.bare hrun d hd hd'
    cases o with
    | none => rw [entryAt_dir_eq hr hp, PageEntry.get_of_absent habs]
    | some t => exact entryAt_page_absent hp habs

/-- **The invariant holds at the start.** -/
theorem Boot.sound {s : Memory} (h : s.Boot) : s.Sound := by
  have htarget : ∀ r, s.target r = none := fun r => by rw [target, h.entryAt]; rfl
  refine ⟨⟨⟨fun {pid pde} hp => ?_, fun {pid pid' pde} hp hp' => ?_, fun {pid pde} hp => ?_,
    fun {pid pde} hp => ?_, fun {r e} he => ?_, fun {r p} hr => ?_, fun {pid d r p} hr => ?_⟩,
    ⟨fun p hp => ?_, h.low, fun p => ?_, h.total⟩⟩, h.marked, h.wf⟩
  · obtain ⟨task, hrun, rfl⟩ := pdeOf_eq_some.mp hp
    obtain ⟨hlo, hhi, -⟩ := h.marked.used (held_of_pdeOf hp)
    exact ⟨h.lt hrun, hlo, hhi⟩
  · exact (Prod.mk.inj (h.marked.inj (held_of_pdeOf hp) (held_of_pdeOf hp'))).1
  · obtain ⟨task, hrun, rfl⟩ := pdeOf_eq_some.mp hp
    exact h.kernel hrun
  · obtain ⟨task, hrun, rfl⟩ := pdeOf_eq_some.mp hp
    exact h.last hrun
  · rw [h.entryAt] at he
    exact absurd he (by simp)
  · rw [htarget] at hr
    exact absurd hr (by simp)
  · rw [htarget] at hr
    exact absurd hr (by simp)
  · rw [h.high p hp]
    exact (refCount_eq_zero.mpr fun r _ => by rw [htarget]; simp).symm
  · rcases Nat.lt_or_ge p 4096 with hlt | hge
    · rw [h.low p hlt]
      decide
    · rw [h.high p hge]
      decide

/-! ### The run -/

/-- **Each step keeps the invariant.** -/
theorem Sound.step {s t : Memory} {op : MemoryOp} (h : s.Sound) (hlegal : op.Legal s) {r : Unit}
    (hstep : op.step s = some (r, t)) : t.Sound := by
  cases op with
  | fork pid =>
    obtain ⟨⟨child, u⟩, hfork, heq⟩ := Option.map_eq_some_iff.mp hstep
    obtain ⟨-, rfl⟩ := Prod.mk.inj heq
    exact (h.taskFork hfork).1
  | exit pid =>
    obtain ⟨u, hexit, heq⟩ := Option.map_eq_some_iff.mp hstep
    obtain ⟨-, rfl⟩ := Prod.mk.inj heq
    exact (h.taskExit hexit).1
  | reap child =>
    obtain ⟨u, hreap, heq⟩ := Option.map_eq_some_iff.mp hstep
    obtain ⟨-, rfl⟩ := Prod.mk.inj heq
    exact (h.taskReap hreap).1
  | brk pid addr =>
    obtain ⟨⟨ok, u⟩, hcall, heq⟩ := Option.map_eq_some_iff.mp hstep
    obtain ⟨-, rfl⟩ := Prod.mk.inj heq
    exact (h.sysBrk hcall).1
  | mmap pid addr length prot flags file =>
    obtain ⟨⟨vaddr, u⟩, hcall, heq⟩ := Option.map_eq_some_iff.mp hstep
    obtain ⟨-, rfl⟩ := Prod.mk.inj heq
    exact (h.sysMmap hcall).1
  | munmap pid addr length =>
    obtain ⟨u, hcall, heq⟩ := Option.map_eq_some_iff.mp hstep
    obtain ⟨-, rfl⟩ := Prod.mk.inj heq
    exact (h.sysMunmap hcall).1
  | fault pid vaddr present write =>
    obtain ⟨u, hfault, heq⟩ := Option.map_eq_some_iff.mp hstep
    obtain ⟨-, rfl⟩ := Prod.mk.inj heq
    exact (h.pageFault hlegal.1 hlegal.2 hfault).1
  | link pid vaddr =>
    obtain ⟨task, hrun, hmap⟩ := Option.bind_eq_some_iff.mp hstep
    obtain ⟨u, hlink, heq⟩ := Option.map_eq_some_iff.mp hmap
    obtain ⟨-, rfl⟩ := Prod.mk.inj heq
    exact (h.linkPage hrun (didx_user hlegal.1 hlegal.2) hlink).1
  | unlink pid vaddr =>
    obtain ⟨task, hrun, hmap⟩ := Option.bind_eq_some_iff.mp hstep
    obtain ⟨u, hunlink, heq⟩ := Option.map_eq_some_iff.mp hmap
    obtain ⟨-, rfl⟩ := Prod.mk.inj heq
    exact (h.unlinkPage hrun (didx_user hlegal.1 hlegal.2) hunlink).1
  | store pid vaddr word =>
    obtain ⟨u, hstore, heq⟩ := Option.map_eq_some_iff.mp hstep
    obtain ⟨-, rfl⟩ := Prod.mk.inj heq
    exact (h.store (didx_user hlegal.1 hlegal.2) hstore).1

/-- Every state a run reaches satisfies the invariant. -/
theorem Boot.run {s t : Memory} (h : s.Boot) {ops : List MemoryOp}
    (hlegal : Run.Along MemoryOp.step MemoryOp.Legal s ops)
    (hrun : Run.exec MemoryOp.step s ops = some t) : t.Sound :=
  Run.inv_of_exec Sound (fun _ _ _ _ hs hl hstep => hs.step hl hstep) ops s t h.sound hlegal hrun

/-! ### Exact counters -/

/-- The present page-table entries of user memory that refer to page `p`, over all live address
spaces. -/
def userEntries (s : Memory) (p : ℕ) : ℕ := refCount (places.filter fun r => r.2.2.isSome) s.target p

/-- The present page-directory entries of user memory that refer to page `p`, over all live
address spaces. -/
def dirEntries (s : Memory) (p : ℕ) : ℕ := refCount (places.filter fun r => ¬r.2.2.isSome) s.target p

/-- Every place is one of a directory or one of a table. -/
theorem refCount_places (s : Memory) (p : ℕ) :
    refCount places s.target p = s.userEntries p + s.dirEntries p := by
  rw [userEntries, dirEntries, refCount, refCount, refCount, Finset.filter_filter, Finset.filter_filter,
    ← Finset.card_filter_add_card_filter_not (s := places.filter fun r => s.target r = some p)
      fun r => r.2.2.isSome, Finset.filter_filter, Finset.filter_filter]
  congr 2
  · exact Finset.filter_congr fun r _ => and_comm
  · exact Finset.filter_congr fun r _ => and_comm

end Memory

/-- A user task with a small program. -/
def firstTask : Memory.Task where
  page := 256
  pde := 257
  bits := 258
  pwd := 259
  uid := 1
  brk := 0x1003000
  endAddr := 0x1002000
  vmap := bitmapMake (fun _ => 0#8) 4096 4032 32768
  died := false

/-- A machine of 32 MiB with one user task, the first to run. -/
def bootMemory : Memory where
  mem := fun f i => if f = 257 ∧ i = 0 then entryInit 2
    else if f = 257 ∧ i = 1023 then entryInit 257 else zeroEntry
  memoryMap := fun p => if p < 4096 then 1 else 0
  freePages := 4096
  totalPages := 8192
  startPage := 4090
  kernelMap := bitmapMake (fun i => if i = 0 then 0x0F#8 else 0#8) 480 480 256
  tasks := fun pid => if pid = 1 then some firstTask else none

theorem bootMemory_tasks {pid : ℕ} {task : Memory.Task} (h : bootMemory.tasks pid = some task) :
    pid = 1 ∧ task = firstTask := by
  rcases eq_or_ne pid 1 with rfl | hne
  · exact ⟨rfl, (Option.some.inj h).symm⟩
  · have hnone : bootMemory.tasks pid = none := if_neg hne
    exact absurd (hnone.symm.trans h) (by simp)

theorem bootMemory_running {pid : ℕ} {task : Memory.Task} (h : bootMemory.running pid = some task) :
    pid = 1 ∧ task = firstTask :=
  bootMemory_tasks (Memory.running_eq_some.mp h).1

/-- The pages the first task holds. -/
theorem bootMemory_held {a : ℕ × ℕ} {k : ℕ} (h : bootMemory.held a = some k) :
    a.1 = 1 ∧ [256, 257, 258, 259][a.2]? = some k := by
  obtain ⟨task, htask, hk⟩ := Option.bind_eq_some_iff.mp h
  obtain ⟨hpid, rfl⟩ := bootMemory_tasks htask
  exact ⟨hpid, hk⟩

theorem bootMemory_boot : bootMemory.Boot := by
  refine ⟨fun p hp => if_pos hp, fun p hp => if_neg (by omega), by decide, fun {pid task} hrun => ?_,
    fun {pid task} hrun => ?_, fun {pid task} hrun => ?_, fun {pid task} hrun d hd hd' => ?_,
    ⟨rfl, rfl, by decide, fun {a k} ha => ?_, fun {a b k} ha hb => ?_⟩, fun {pid task} hrun => ?_⟩
  · rw [(bootMemory_running hrun).1]
    decide
  · rw [(bootMemory_running hrun).2]
    exact ⟨rfl, rfl⟩
  · rw [(bootMemory_running hrun).2]
    exact ⟨rfl, rfl⟩
  · rw [(bootMemory_running hrun).2]
    have hentry : bootMemory.mem 257 d = zeroEntry :=
      (if_neg (by omega)).trans (if_neg (by omega))
    exact congrArg PageEntry.present hentry
  · have hk := List.mem_of_getElem? (bootMemory_held ha).2
    simp only [List.mem_cons, List.not_mem_nil, or_false] at hk
    rcases hk with rfl | rfl | rfl | rfl
    · decide
    · decide
    · decide
    · decide
  · obtain ⟨ha₁, ha₂⟩ := bootMemory_held ha
    obtain ⟨hb₁, hb₂⟩ := bootMemory_held hb
    have hlt := (List.getElem?_eq_some_iff.mp ha₂).1
    exact Prod.ext (ha₁.trans hb₁.symm) ((List.getElem?_inj hlt (by decide)).mp (ha₂.trans hb₂.symm))
  · rw [(bootMemory_running hrun).2]
    exact ⟨by decide, by decide, rfl, by decide⟩

/-- **Exact reference counts.** In every state that a run reaches, the counter of a page behind
the kernel's memory is the number of present page-table and page-directory entries, over all
live address spaces, that refer to it; so it is zero exactly when the page is not mapped. -/
theorem memoryRun_counts {s t : Memory} (h : s.Boot) {ops : List MemoryOp}
    (hlegal : Run.Along MemoryOp.step MemoryOp.Legal s ops)
    (hrun : Run.exec MemoryOp.step s ops = some t) {p : ℕ} (hp : 4096 ≤ p) :
    t.memoryMap p = t.userEntries p + t.dirEntries p ∧
      (t.memoryMap p = 0 ↔ ∀ r, t.target r ≠ some p) := by
  have hsound := h.run hlegal hrun
  have hcount := hsound.exact.counts.count p hp
  refine ⟨hcount.trans (t.refCount_places p), ?_⟩
  rw [hcount, refCount_eq_zero]
  constructor
  · intro hno r hr
    exact hno r (hsound.exact.tables.high hr).1 hr
  · exact fun hno r _ => hno r

/-- After the first page of a task is linked, its page table and the page are in use once each. -/
theorem memoryRun_counts_link : ∃ t, Run.exec MemoryOp.step bootMemory [.link 1 0x1000000] = some t ∧
    t.memoryMap 4096 = t.userEntries 4096 + t.dirEntries 4096 ∧
      (t.memoryMap 4096 = 0 ↔ ∀ r, t.target r ≠ some 4096) := by
  have hsome : (Run.exec MemoryOp.step bootMemory [.link 1 0x1000000]).isSome = true := by decide
  obtain ⟨t, ht⟩ := Option.isSome_iff_exists.mp hsome
  have hlegal : Run.Along MemoryOp.step MemoryOp.Legal bootMemory [.link 1 0x1000000] :=
    ⟨⟨by decide, by decide⟩, fun _ _ _ => trivial⟩
  exact ⟨t, ht, memoryRun_counts bootMemory_boot hlegal ht (by decide)⟩

end Onixs
