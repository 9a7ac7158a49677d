import Onixs.Kernel.KernelMap
import Onixs.Kernel.PageRun

/-!
# What the memory manager does to the kernel's pages

The functions on page frames and page tables change neither the tasks nor `kernel_map` nor
the size of memory (`Onixs.Memory.SameRest`), whatever state they start from, and the system
calls and faults change no page that a task holds (`Onixs.Memory.SameHoldings`). Forks and the end of a task
take and give back pages of tasks only: a page that `alloc_kpage` gave to other code stays
that code's (`Onixs.Memory.Lent`).
-/

namespace Onixs

open Bytes

namespace Memory

/-- **The tasks, the kernel's bitmap and the size of memory stay.** -/
structure SameRest (s t : Memory) : Prop where
  /-- The tasks. -/
  tasks : t.tasks = s.tasks
  /-- The kernel's bitmap. -/
  kernelMap : t.kernelMap = s.kernelMap
  /-- The first page. -/
  startPage : t.startPage = s.startPage
  /-- The number of pages. -/
  totalPages : t.totalPages = s.totalPages

theorem SameRest.refl (s : Memory) : SameRest s s := ⟨rfl, rfl, rfl, rfl⟩

theorem SameRest.trans {s t u : Memory} (h : SameRest s t) (h' : SameRest t u) : SameRest s u :=
  ⟨h'.tasks.trans h.tasks, h'.kernelMap.trans h.kernelMap, h'.startPage.trans h.startPage,
    h'.totalPages.trans h.totalPages⟩

/-! ### Page frames and page tables -/

section Frames

variable {s t : Memory} {cr3 vaddr p : ℕ}

theorem setWord_same (s : Memory) (f i : ℕ) (e : PageEntry) : SameRest s (s.setWord f i e) := ⟨rfl, rfl, rfl, rfl⟩

theorem setFrame_same (s : Memory) (f : ℕ) (words : ℕ → PageEntry) : SameRest s (s.setFrame f words) := ⟨rfl, rfl, rfl, rfl⟩

theorem getPage_same (h : s.getPage = some (p, t)) : SameRest s t := by
  rw [getPage] at h
  obtain ⟨i, -, h⟩ := Option.bind_eq_some_iff.mp h
  obtain ⟨-, rfl⟩ := Prod.mk.inj (Option.some.inj h)
  exact ⟨rfl, rfl, rfl, rfl⟩

theorem putPage_same (h : s.putPage p = some t) : SameRest s t := by
  have honly := putPage_only h
  rw [putPage] at h
  obtain ⟨_, -, h⟩ := Option.bind_eq_some_iff.mp h
  obtain ⟨_, -, h⟩ := Option.bind_eq_some_iff.mp h
  obtain ⟨_, -, h⟩ := Option.bind_eq_some_iff.mp h
  refine ⟨honly.tasks, honly.kernelMap, ?_, honly.totalPages⟩
  rw [← Option.some.inj h]
  split <;> rfl

theorem getPte_sameRest {create : Bool} (h : s.getPte cr3 vaddr create = some (p, t)) : SameRest s t := by
  rw [getPte] at h
  obtain ⟨pde, -, h⟩ := Option.bind_eq_some_iff.mp h
  obtain ⟨_, -, h⟩ := Option.bind_eq_some_iff.mp h
  split at h
  · obtain ⟨table, -, h⟩ := Option.bind_eq_some_iff.mp h
    obtain ⟨-, rfl⟩ := Prod.mk.inj (Option.some.inj h)
    exact .refl s
  · obtain ⟨⟨page, u⟩, hget, h⟩ := Option.bind_eq_some_iff.mp h
    obtain ⟨table, -, h⟩ := Option.bind_eq_some_iff.mp h
    obtain ⟨-, rfl⟩ := Prod.mk.inj (Option.some.inj h)
    exact (getPage_same hget).trans ⟨rfl, rfl, rfl, rfl⟩

theorem linkPage_same (h : s.linkPage cr3 vaddr = some t) : SameRest s t := by
  rw [linkPage] at h
  obtain ⟨_, -, h⟩ := Option.bind_eq_some_iff.mp h
  obtain ⟨⟨table, u⟩, hget, h⟩ := Option.bind_eq_some_iff.mp h
  have hu : SameRest s u := getPte_sameRest hget
  simp only at h
  split at h
  · exact Option.some.inj h ▸ hu
  · obtain ⟨⟨page, v⟩, hpage, h⟩ := Option.bind_eq_some_iff.mp h
    obtain rfl := Option.some.inj h
    exact (hu.trans (getPage_same hpage)).trans (setWord_same ..)

theorem unlinkPage_same (h : s.unlinkPage cr3 vaddr = some t) : SameRest s t := by
  rw [unlinkPage] at h
  obtain ⟨_, -, h⟩ := Option.bind_eq_some_iff.mp h
  obtain ⟨pde, -, h⟩ := Option.bind_eq_some_iff.mp h
  split at h
  · exact Option.some.inj h ▸ .refl s
  · obtain ⟨⟨table, u⟩, hget, h⟩ := Option.bind_eq_some_iff.mp h
    have hu : SameRest s u := getPte_sameRest hget
    simp only at h
    split at h
    · exact Option.some.inj h ▸ hu
    · exact (hu.trans (setWord_same ..)).trans (putPage_same h)

theorem copyPage_same (h : s.copyPage cr3 vaddr = some (p, t)) : SameRest s t := by
  rw [copyPage] at h
  obtain ⟨⟨page, u⟩, hpage, h⟩ := Option.bind_eq_some_iff.mp h
  obtain ⟨⟨table, v⟩, hget, h⟩ := Option.bind_eq_some_iff.mp h
  obtain ⟨src, -, h⟩ := Option.bind_eq_some_iff.mp h
  obtain ⟨dst, -, h⟩ := Option.bind_eq_some_iff.mp h
  obtain ⟨-, rfl⟩ := Prod.mk.inj (Option.some.inj h)
  exact ((getPage_same hpage).trans (getPte_sameRest hget)).trans ⟨rfl, rfl, rfl, rfl⟩

/-! ### The loops -/

theorem sharePages_same {table : ℕ} : ∀ (left i : ℕ) (s t : Memory), sharePages table left i s = some t →
    SameRest s t := by
  intro left
  induction left with
  | zero => exact fun i s t h => Option.some.inj h ▸ .refl s
  | succ left ih =>
    intro i s t h
    rw [sharePages] at h
    split at h
    · exact ih (i + 1) s t h
    · obtain ⟨_, -, h⟩ := Option.bind_eq_some_iff.mp h
      obtain ⟨_, -, h⟩ := Option.bind_eq_some_iff.mp h
      refine SameRest.trans ?_ (ih (i + 1) _ t h)
      split
      · exact ⟨rfl, rfl, rfl, rfl⟩
      · exact ⟨rfl, rfl, rfl, rfl⟩

theorem copyTables_same {pde : ℕ} : ∀ (left i : ℕ) (s t : Memory), copyTables cr3 pde left i s = some t →
    SameRest s t := by
  intro left
  induction left with
  | zero => exact fun i s t h => Option.some.inj h ▸ .refl s
  | succ left ih =>
    intro i s t h
    rw [copyTables] at h
    split at h
    · exact ih (i + 1) s t h
    · obtain ⟨table, -, h⟩ := Option.bind_eq_some_iff.mp h
      obtain ⟨u, hshare, h⟩ := Option.bind_eq_some_iff.mp h
      obtain ⟨⟨paddr, v⟩, hcopy, h⟩ := Option.bind_eq_some_iff.mp h
      have hv : SameRest s v := (sharePages_same _ _ _ _ hshare).trans (copyPage_same hcopy)
      exact (hv.trans (setWord_same ..)).trans (ih (i + 1) _ t h)

theorem putPages_same {table : ℕ} : ∀ (left i : ℕ) (s t : Memory), putPages table left i s = some t →
    SameRest s t := by
  intro left
  induction left with
  | zero => exact fun i s t h => Option.some.inj h ▸ .refl s
  | succ left ih =>
    intro i s t h
    rw [putPages] at h
    split at h
    · exact ih (i + 1) s t h
    · obtain ⟨_, -, h⟩ := Option.bind_eq_some_iff.mp h
      obtain ⟨u, hput, h⟩ := Option.bind_eq_some_iff.mp h
      exact (putPage_same hput).trans (ih (i + 1) u t h)

theorem putTables_same {pde : ℕ} : ∀ (left i : ℕ) (s t : Memory), putTables cr3 pde left i s = some t →
    SameRest s t := by
  intro left
  induction left with
  | zero => exact fun i s t h => Option.some.inj h ▸ .refl s
  | succ left ih =>
    intro i s t h
    rw [putTables] at h
    split at h
    · exact ih (i + 1) s t h
    · obtain ⟨table, -, h⟩ := Option.bind_eq_some_iff.mp h
      obtain ⟨u, hpages, h⟩ := Option.bind_eq_some_iff.mp h
      obtain ⟨v, hput, h⟩ := Option.bind_eq_some_iff.mp h
      exact ((putPages_same _ _ _ _ hpages).trans (putPage_same hput)).trans (ih (i + 1) v t h)

theorem unlinkPages_same : ∀ (left page : ℕ) (s t : Memory), unlinkPages cr3 left page s = some t →
    SameRest s t := by
  intro left
  induction left with
  | zero => exact fun page s t h => Option.some.inj h ▸ .refl s
  | succ left ih =>
    intro page s t h
    rw [unlinkPages] at h
    obtain ⟨u, hunlink, h⟩ := Option.bind_eq_some_iff.mp h
    exact (unlinkPage_same hunlink).trans (ih _ u t h)

theorem mapPages_same {prot flags : ℕ} : ∀ (left page : ℕ) (s t : Memory) (vmap vmap' : Bitmap),
    mapPages cr3 prot flags left page s vmap = some (t, vmap') → SameRest s t := by
  intro left
  induction left with
  | zero =>
    intro page s t vmap vmap' h
    exact (Prod.mk.inj (Option.some.inj h)).1 ▸ .refl s
  | succ left ih =>
    intro page s t vmap vmap' h
    rw [mapPages] at h
    obtain ⟨u, hlink, h⟩ := Option.bind_eq_some_iff.mp h
    obtain ⟨map, -, h⟩ := Option.bind_eq_some_iff.mp h
    obtain ⟨⟨table, v⟩, hget, h⟩ := Option.bind_eq_some_iff.mp h
    have hv : SameRest s v := (linkPage_same hlink).trans (getPte_sameRest hget)
    exact (hv.trans (setWord_same ..)).trans (ih _ _ t map vmap' h)

theorem readPages_same {words : ℕ → ℕ → Option PageEntry} : ∀ (left page : ℕ) (s t : Memory),
    readPages cr3 words left page s = some t → SameRest s t := by
  intro left
  induction left with
  | zero => exact fun page s t h => Option.some.inj h ▸ .refl s
  | succ left ih =>
    intro page s t h
    rw [readPages] at h
    obtain ⟨frame, -, h⟩ := Option.bind_eq_some_iff.mp h
    exact (setFrame_same ..).trans (ih _ _ t h)

theorem unmapPages_same : ∀ (left page : ℕ) (s t : Memory) (vmap vmap' : Bitmap),
    unmapPages cr3 left page s vmap = some (t, vmap') → SameRest s t := by
  intro left
  induction left with
  | zero =>
    intro page s t vmap vmap' h
    exact (Prod.mk.inj (Option.some.inj h)).1 ▸ .refl s
  | succ left ih =>
    intro page s t vmap vmap' h
    rw [unmapPages] at h
    obtain ⟨u, hunlink, h⟩ := Option.bind_eq_some_iff.mp h
    obtain ⟨used, -, h⟩ := Option.bind_eq_some_iff.mp h
    obtain ⟨_, -, h⟩ := Option.bind_eq_some_iff.mp h
    obtain ⟨map, -, h⟩ := Option.bind_eq_some_iff.mp h
    exact (unlinkPage_same hunlink).trans (ih _ u t map vmap' h)

end Frames

/-! ### System calls and faults -/

section Calls

variable {s t : Memory} {pid vaddr : ℕ} {task : Task}

theorem pageFault_same {present write : Bool} (h : s.pageFault pid vaddr present write = some t) : SameRest s t := by
  rw [pageFault] at h
  obtain ⟨task, -, h⟩ := Option.bind_eq_some_iff.mp h
  split at h
  · obtain ⟨_, -, h⟩ := Option.bind_eq_some_iff.mp h
    obtain ⟨⟨table, u⟩, hget, h⟩ := Option.bind_eq_some_iff.mp h
    obtain ⟨_, -, h⟩ := Option.bind_eq_some_iff.mp h
    obtain ⟨_, -, h⟩ := Option.bind_eq_some_iff.mp h
    obtain ⟨_, -, h⟩ := Option.bind_eq_some_iff.mp h
    obtain ⟨_, -, h⟩ := Option.bind_eq_some_iff.mp h
    have hu : SameRest s u := getPte_sameRest hget
    split at h
    · exact Option.some.inj h ▸ hu.trans (setWord_same ..)
    · obtain ⟨⟨page, v⟩, hcopy, h⟩ := Option.bind_eq_some_iff.mp h
      obtain rfl := Option.some.inj h
      exact (hu.trans (copyPage_same hcopy)).trans ⟨rfl, rfl, rfl, rfl⟩
  · obtain ⟨_, -, h⟩ := Option.bind_eq_some_iff.mp h
    exact linkPage_same h

theorem store_same {word : PageEntry} (h : s.store pid vaddr word = some t) : SameRest s t := by
  rw [store] at h
  obtain ⟨task, -, h⟩ := Option.bind_eq_some_iff.mp h
  obtain ⟨entry, -, h⟩ := Option.bind_eq_some_iff.mp h
  obtain ⟨_, -, h⟩ := Option.bind_eq_some_iff.mp h
  exact Option.some.inj h ▸ setWord_same ..

/-- What of a task decides which kernel pages it holds. -/
def Task.footing (task : Task) : List ℕ × ℕ × Bool := (task.kpages, task.pde, task.died)

/-- **The pages of the kernel stay where they are.** -/
structure SameHoldings (s t : Memory) : Prop where
  /-- The tasks hold the same pages. -/
  tasks : ∀ pid, (t.tasks pid).map Task.footing = (s.tasks pid).map Task.footing
  /-- The kernel's bitmap. -/
  kernelMap : t.kernelMap = s.kernelMap

/-- The pages of the kernel stay, and so does the size of memory. -/
structure SameKernel (s t : Memory) : Prop extends SameHoldings s t where
  /-- The first page. -/
  startPage : t.startPage = s.startPage
  /-- The number of pages. -/
  totalPages : t.totalPages = s.totalPages

theorem SameRest.kernel (h : SameRest s t) : SameKernel s t :=
  ⟨⟨fun pid => by rw [h.tasks], h.kernelMap⟩, h.startPage, h.totalPages⟩

theorem SameKernel.trans {u : Memory} (h : SameKernel s t) (h' : SameKernel t u) : SameKernel s u :=
  ⟨⟨fun pid => (h'.tasks pid).trans (h.tasks pid), h'.kernelMap.trans h.kernelMap⟩, h'.startPage.trans h.startPage,
    h'.totalPages.trans h.totalPages⟩

/-- A task that changes its heap or its mapping area holds what it held. -/
theorem setTask_kernel (htask : s.tasks pid = some task) {task' : Task} (h : task'.footing = task.footing) :
    SameKernel s (s.setTask pid (some task')) := by
  refine ⟨⟨fun pid' => ?_, rfl⟩, rfl, rfl⟩
  rw [tasks_setTask]
  rcases eq_or_ne pid' pid with rfl | hne
  · rw [if_pos rfl, htask, Option.map_some, Option.map_some, h]
  · rw [if_neg hne]

theorem SameHoldings.held (h : SameHoldings s t) : t.held = s.held := by
  have hof : ∀ (u : Memory) a, u.held a = ((u.tasks a.1).map Task.footing).bind fun f => f.1[a.2]? := by
    intro u a
    rw [Memory.held, Option.bind_map]
    rfl
  funext a
  rw [hof, hof, h.tasks]

theorem SameHoldings.exists_task (h : SameHoldings s t) (htask : s.tasks pid = some task) :
    ∃ task', t.tasks pid = some task' ∧ task'.pde = task.pde ∧ task'.died = task.died := by
  have hmap := h.tasks pid
  rw [htask] at hmap
  obtain ⟨task', htask', hfooting⟩ := Option.map_eq_some_iff.mp hmap
  exact ⟨task', htask', congrArg (fun f => f.2.1) hfooting, congrArg (fun f => f.2.2) hfooting⟩

theorem sysBrk_kernel {brk : ℕ} {ok : Bool} (h : s.sysBrk pid brk = some (ok, t)) : SameKernel s t := by
  rw [sysBrk] at h
  obtain ⟨_, -, h⟩ := Option.bind_eq_some_iff.mp h
  obtain ⟨task, hrun, h⟩ := Option.bind_eq_some_iff.mp h
  obtain ⟨_, -, h⟩ := Option.bind_eq_some_iff.mp h
  obtain ⟨_, -, h⟩ := Option.bind_eq_some_iff.mp h
  have htask := (running_eq_some.mp hrun).1
  split at h
  · obtain ⟨u, hloop, h⟩ := Option.bind_eq_some_iff.mp h
    obtain ⟨-, rfl⟩ := Prod.mk.inj (Option.some.inj h)
    have hu := unlinkPages_same _ _ _ _ hloop
    exact hu.kernel.trans (setTask_kernel ((congrFun hu.tasks pid).trans htask) rfl)
  · split at h
    · obtain ⟨-, rfl⟩ := Prod.mk.inj (Option.some.inj h)
      exact (SameRest.refl s).kernel
    · obtain ⟨-, rfl⟩ := Prod.mk.inj (Option.some.inj h)
      exact setTask_kernel htask rfl

theorem sysMmap_kernel {addr length prot flags : ℕ} {file : Option (ℕ → ℕ → Option PageEntry)}
    (h : s.sysMmap pid addr length prot flags file = some (vaddr, t)) : SameKernel s t := by
  obtain ⟨task, vmap, vmap', u, hrun, -, hloop, hend⟩ := sysMmap_cases h
  have hu := mapPages_same _ _ _ _ _ _ hloop
  have hsame : Task.footing { task with vmap := vmap' } = task.footing := rfl
  have hset := hu.kernel.trans (setTask_kernel ((congrFun hu.tasks pid).trans (running_eq_some.mp hrun).1) hsame)
  rcases hend with ⟨-, rfl⟩ | ⟨words, -, hread⟩
  · exact hset
  · exact hset.trans (readPages_same _ _ _ _ hread).kernel

theorem sysMunmap_kernel {addr length : ℕ} (h : s.sysMunmap pid addr length = some t) : SameKernel s t := by
  rw [sysMunmap] at h
  obtain ⟨task, hrun, h⟩ := Option.bind_eq_some_iff.mp h
  obtain ⟨_, -, h⟩ := Option.bind_eq_some_iff.mp h
  obtain ⟨_, -, h⟩ := Option.bind_eq_some_iff.mp h
  obtain ⟨⟨u, vmap⟩, hloop, h⟩ := Option.bind_eq_some_iff.mp h
  obtain rfl := Option.some.inj h
  have hu := unmapPages_same _ _ _ _ _ _ hloop
  exact hu.kernel.trans (setTask_kernel ((congrFun hu.tasks pid).trans (running_eq_some.mp hrun).1) rfl)

end Calls

end Memory

/-- The operations that neither make nor undo tasks. -/
def MemoryOp.KeepsTasks : MemoryOp → Prop
  | fork _ => False
  | exit _ => False
  | reap _ => False
  | _ => True

/-- **A step of a task that goes on** leaves the pages of the kernel where they are. -/
theorem MemoryOp.step_kernel {s t : Memory} {op : MemoryOp} {r : Unit} (hkeeps : op.KeepsTasks)
    (hstep : op.step s = some (r, t)) : Memory.SameKernel s t := by
  cases op with
  | fork pid => exact hkeeps.elim
  | exit pid => exact hkeeps.elim
  | reap child => exact hkeeps.elim
  | brk pid addr =>
    obtain ⟨⟨ok, u⟩, hcall, heq⟩ := Option.map_eq_some_iff.mp hstep
    obtain ⟨-, rfl⟩ := Prod.mk.inj heq
    exact Memory.sysBrk_kernel hcall
  | mmap pid addr length prot flags file =>
    obtain ⟨⟨vaddr, u⟩, hcall, heq⟩ := Option.map_eq_some_iff.mp hstep
    obtain ⟨-, rfl⟩ := Prod.mk.inj heq
    exact Memory.sysMmap_kernel hcall
  | munmap pid addr length =>
    obtain ⟨u, hcall, heq⟩ := Option.map_eq_some_iff.mp hstep
    obtain ⟨-, rfl⟩ := Prod.mk.inj heq
    exact Memory.sysMunmap_kernel hcall
  | fault pid vaddr present write =>
    obtain ⟨u, hfault, heq⟩ := Option.map_eq_some_iff.mp hstep
    obtain ⟨-, rfl⟩ := Prod.mk.inj heq
    exact (Memory.pageFault_same hfault).kernel
  | link pid vaddr =>
    obtain ⟨task, -, hmap⟩ := Option.bind_eq_some_iff.mp hstep
    obtain ⟨u, hlink, heq⟩ := Option.map_eq_some_iff.mp hmap
    obtain ⟨-, rfl⟩ := Prod.mk.inj heq
    exact (Memory.linkPage_same hlink).kernel
  | unlink pid vaddr =>
    obtain ⟨task, -, hmap⟩ := Option.bind_eq_some_iff.mp hstep
    obtain ⟨u, hunlink, heq⟩ := Option.map_eq_some_iff.mp hmap
    obtain ⟨-, rfl⟩ := Prod.mk.inj heq
    exact (Memory.unlinkPage_same hunlink).kernel
  | store pid vaddr word =>
    obtain ⟨u, hstore, heq⟩ := Option.map_eq_some_iff.mp hstep
    obtain ⟨-, rfl⟩ := Prod.mk.inj heq
    exact (Memory.store_same hstore).kernel

namespace Memory

/-! ### Pages of other code -/

section Lent

variable {s t : Memory} {K : ℕ × ℕ → Option ℕ} {pid child k index count : ℕ}

/-- **Page `k` is lent**: it is marked, and no task holds it. -/
structure Lent (s : Memory) (k : ℕ) : Prop where
  /-- It is a page of the map. -/
  lo : 256 ≤ k
  /-- It is a page of the kernel's memory. -/
  hi : k < 4096
  /-- It is marked. -/
  marked : bitOf s.kernelMap.bits (k - 256) = true
  /-- No task holds it. -/
  notHeld : ∀ a, s.held a ≠ some k

theorem Lent.congr (h : s.Lent k) (hsame : SameHoldings s t) : t.Lent k :=
  ⟨h.lo, h.hi, by rw [hsame.kernelMap]; exact h.marked, by rw [hsame.held]; exact h.notHeld⟩

/-- A task holds four pages at most. -/
theorem held_four (s : Memory) (pid : ℕ) : s.held (pid, 4) = none := by
  rw [held]
  cases s.tasks pid with
  | none => rfl
  | some task =>
    rw [Option.bind_some, Task.kpages]
    split
    · rfl
    · split
      · rfl
      · rfl

/-- A lent page is one more holding. -/
theorem Marked.lend (h : s.Marked s.held) (hk : s.Lent k) : s.Marked (Function.update s.held (0, 4) (some k)) := by
  have hof : ∀ {a j}, Function.update s.held (0, 4) (some k) a = some j →
      (a = (0, 4) ∧ j = k) ∨ (a ≠ (0, 4) ∧ s.held a = some j) := by
    intro a j ha
    rcases eq_or_ne a (0, 4) with rfl | hne
    · rw [Function.update_self] at ha
      exact Or.inl ⟨rfl, (Option.some.inj ha).symm⟩
    · rw [Function.update_of_ne hne] at ha
      exact Or.inr ⟨hne, ha⟩
  refine ⟨h.offset, h.length, h.size, fun {a j} ha => ?_, fun {a b j} ha hb => ?_⟩
  · rcases hof ha with ⟨-, rfl⟩ | ⟨-, ha⟩
    · exact ⟨hk.lo, hk.hi, hk.marked⟩
    · exact h.used ha
  · rcases hof ha with ⟨rfl, rfl⟩ | ⟨-, ha⟩
    · rcases hof hb with ⟨rfl, -⟩ | ⟨-, hb⟩
      · rfl
      · exact absurd hb (hk.notHeld b)
    · rcases hof hb with ⟨-, hj⟩ | ⟨-, hb⟩
      · exact absurd ha (hj ▸ hk.notHeld a)
      · exact h.inj ha hb

theorem Lent.of_marked (h : t.Marked (Function.update t.held (0, 4) (some k))) : t.Lent k := by
  obtain ⟨hlo, hhi, hbit⟩ := h.used (Function.update_self (0, 4) (some k) t.held)
  refine ⟨hlo, hhi, hbit, fun a ha => ?_⟩
  have hne : a ≠ (0, 4) := by
    rintro rfl
    rw [held_four] at ha
    exact absurd ha (by simp)
  exact hne (h.inj ((Function.update_of_ne hne _ _).trans ha) (Function.update_self _ _ _))

/-- **A fork takes pages that are not lent.** -/
theorem Lent.taskFork (hk : s.Lent k) (h : s.Marked s.held) (hfork : s.taskFork pid = some (child, t)) : t.Lent k := by
  obtain ⟨task, page, bits, pde, pwd, s₁, s₂, s₃, s₄, s₅, hrun, -, hfree, hpage, hbits, hpde, hcopy, hpwd, rfl⟩ :=
    taskFork_cases hfork
  have hheld : ∀ j < 4, Function.update s.held (0, 4) (some k) (child, j) = none := fun j hj => by
    rw [Function.update_of_ne (by simp; omega), held, hfree]
    rfl
  obtain ⟨-, -, -, hm₁, m₁, rfl⟩ := (h.lend hk).allocKpage (a := (child, 0)) (hheld 0 (by decide)) hpage
  obtain ⟨-, -, -, hm₂, m₂, rfl⟩ := hm₁.allocKpage (a := (child, 2))
    (by rw [Function.update_of_ne (by simp)]; exact hheld 2 (by decide)) hbits
  obtain ⟨hlo, -, -, hm₃, m₃, rfl⟩ := hm₂.allocKpage (a := (child, 1))
    (by rw [Function.update_of_ne (by simp), Function.update_of_ne (by simp)]; exact hheld 1 (by decide)) hpde
  have hsame : SameRest { s with kernelMap := m₃ } s₄ :=
    ((setFrame_same ..).trans (setWord_same ..)).trans (copyTables_same _ _ _ _ hcopy)
  obtain ⟨-, -, -, hm₅, m₅, rfl⟩ := (hm₃.congr (t := s₄) hsame.kernelMap).allocKpage (a := (child, 3)) (by
      rw [Function.update_of_ne (by simp), Function.update_of_ne (by simp), Function.update_of_ne (by simp)]
      exact hheld 3 (by decide)) hpwd
  obtain ⟨task', htask'⟩ : ∃ task' : Task,
      task' = { task with page := page, bits := bits, pde := pde, pwd := pwd } := ⟨_, rfl⟩
  have hlive : task'.died = false ∧ task'.pde ≠ kernelPageDir := by
    rw [htask', kernelPageDir]
    exact ⟨(running_eq_some.mp hrun).2.1, by simp only; omega⟩
  have hcomm : ∀ (f : ℕ × ℕ → Option ℕ) (j p : ℕ), j < 4 →
      Function.update (Function.update f (0, 4) (some k)) (child, j) (some p) =
        Function.update (Function.update f (child, j) (some p)) (0, 4) (some k) :=
    fun f j p hj => Function.update_comm (by simp; omega) _ _ f
  rw [hcomm _ _ _ (by decide), hcomm _ _ _ (by decide), hcomm _ _ _ (by decide), hcomm _ _ _ (by decide)] at hm₅
  have htasks : ∀ pid', (({ s₄ with kernelMap := m₅ } : Memory).setTask child (some task')).tasks pid' =
      if pid' = child then some task' else s.tasks pid' := fun pid' => by
    rw [tasks_setTask]
    exact congrArg (ite _ _) (congrFun hsame.tasks pid')
  rw [← htask']
  refine Lent.of_marked ?_
  rw [held_forked hfree htasks hlive, htask']
  exact hm₅.congr rfl

/-- **`task_waitpid`** gives back a page that is not lent. -/
theorem Lent.taskReap (hk : s.Lent k) (h : s.Marked s.held) (hreap : s.taskReap child = some t) : t.Lent k := by
  rw [Memory.taskReap] at hreap
  obtain ⟨task, htask, hreap⟩ := Option.bind_eq_some_iff.mp hreap
  obtain ⟨_, hdied, hfree⟩ := Option.bind_eq_some_iff.mp hreap
  rw [assert_eq_some] at hdied
  have hheld : Function.update s.held (0, 4) (some k) (child, 0) = some task.page := by
    rw [Function.update_of_ne (by simp), held_eq htask, Task.kpages, if_pos hdied]
    rfl
  have hm : (s.setTask child none).Marked (Function.update s.held (0, 4) (some k)) := (h.lend hk).congr rfl
  obtain ⟨hm', m, rfl⟩ := hm.freeKpage hheld hfree
  rw [Function.update_comm (by simp)] at hm'
  refine Lent.of_marked ?_
  rwa [held_reaped (u := { s.setTask child none with kernelMap := m }) htask hdied fun _ => rfl]

/-! ### `alloc_kpage` and `free_kpage` of other code -/

/-- **`alloc_kpage`** of several pages. -/
theorem Marked.allocKpages (h : s.Marked K) (halloc : s.allocKpage count = some (index, t)) :
    256 ≤ index ∧ index + count ≤ 4096 ∧ ClearRun s.kernelMap.bits (index - 256) count ∧
      t = { s with kernelMap := { s.kernelMap with bits := setRun s.kernelMap.bits (index - 256) count } } := by
  have hwf : s.kernelMap.WF := ⟨by rw [h.length]; exact h.size, by rw [h.length, h.offset]; decide⟩
  rw [Memory.allocKpage] at halloc
  obtain ⟨_, hcount, halloc⟩ := Option.bind_eq_some_iff.mp halloc
  obtain ⟨⟨index', map⟩, hscan, halloc⟩ := Option.bind_eq_some_iff.mp halloc
  obtain ⟨rfl, rfl⟩ := Prod.mk.inj (Option.some.inj halloc)
  obtain ⟨_, -, hscan⟩ := Option.bind_eq_some_iff.mp hscan
  obtain ⟨⟨index, map'⟩, hbitmap, hscan⟩ := Option.bind_eq_some_iff.mp hscan
  obtain ⟨_, hne, hscan⟩ := Option.bind_eq_some_iff.mp hscan
  obtain ⟨rfl, rfl⟩ := Prod.mk.inj (Option.some.inj hscan)
  rcases bitmapScan_cases hwf (assert_eq_some.mp hcount) hbitmap with ⟨hEOF, -⟩ | ⟨p, hp, hfit, hclear, hmap⟩
  · exact absurd hEOF (assert_eq_some.mp hne)
  · rw [h.offset] at hp
    rw [h.length] at hfit
    subst hp
    rw [Nat.add_sub_cancel]
    exact ⟨by omega, by omega, hclear, by rw [hmap]⟩

/-- The loop of `reset_page` clears the bits of the pages, and no other. -/
theorem resetPage_bits : ∀ (left index : ℕ) (map map' : Bitmap), map.offset ≤ index →
    resetPage map index left = some map' → ∀ g, bitOf map'.bits g =
      if index - map.offset ≤ g ∧ g < index - map.offset + left then false else bitOf map.bits g := by
  intro left
  induction left with
  | zero =>
    intro index map map' _ h g
    obtain rfl := Option.some.inj h
    rw [if_neg (by omega)]
  | succ left ih =>
    intro index map map' hle h g
    obtain ⟨_, -, h⟩ := Option.bind_eq_some_iff.mp h
    obtain ⟨_, -, h⟩ := Option.bind_eq_some_iff.mp h
    obtain ⟨map₁, hset, h⟩ := Option.bind_eq_some_iff.mp h
    obtain ⟨-, -, rfl⟩ := bitmapSet_eq_some hset
    rw [ih (index + 1) _ map' (by simp only; omega) h g]
    simp only
    by_cases hg : g = index - map.offset
    · rw [if_neg (by omega), if_pos (by omega), hg, bitOf_setBit_self]
    · rw [bitOf_setBit_of_ne _ _ hg]
      exact if_congr (by omega) rfl rfl

/-- **`free_kpage`** of several pages. -/
theorem Marked.freeKpages (h : s.Marked K) (hfree : s.freeKpage index count = some t) (hlo : 256 ≤ index) :
    ∃ map, t = { s with kernelMap := map } ∧ map.offset = 256 ∧ map.length = 480 ∧ 480 ≤ map.size ∧
      ∀ j, 256 ≤ j → bitOf map.bits (j - 256) =
        if index ≤ j ∧ j < index + count then false else bitOf s.kernelMap.bits (j - 256) := by
  rw [Memory.freeKpage] at hfree
  obtain ⟨_, -, hfree⟩ := Option.bind_eq_some_iff.mp hfree
  obtain ⟨map, hreset, hfree⟩ := Option.bind_eq_some_iff.mp hfree
  obtain rfl := Option.some.inj hfree
  obtain ⟨hoff, hlen, hsize⟩ := resetPage_same _ _ _ _ hreset
  refine ⟨map, rfl, hoff.trans h.offset, hlen.trans h.length, hsize ▸ h.size, fun j hj => ?_⟩
  rw [resetPage_bits _ _ _ _ (by rw [h.offset]; exact hlo) hreset, h.offset]
  exact if_congr (by omega) rfl rfl

/-- Another map in which the pages of the tasks are marked. -/
theorem Sound.congr_map (h : s.Sound) {map : Bitmap} (hoff : map.offset = 256) (hlen : map.length = 480)
    (hsize : 480 ≤ map.size) (hbits : ∀ a k, s.held a = some k → bitOf map.bits (k - 256) = true) :
    ({ s with kernelMap := map } : Memory).Sound := by
  refine ⟨h.exact.congr_map map, ⟨hoff, hlen, hsize, fun {a k} ha => ?_, h.marked.inj⟩, h.wf⟩
  obtain ⟨hlo, hhi, -⟩ := h.marked.used ha
  exact ⟨hlo, hhi, hbits a k ha⟩

end Lent

end Memory

end Onixs
