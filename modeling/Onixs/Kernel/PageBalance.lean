import Onixs.Kernel.FreePages
import Onixs.Kernel.LoadedDirectory

/-!
# What a task does to the pages of the others

A task that neither forks nor exits changes its own page tables and those counters that its
own entries call for (`Onixs.Memory.Confined`): the entries of the other tasks stay, the pages
of the kernel stay, and `free_pages` moves with `memory_map`. When a child has gone, after
whatever it did, the references are those from before the fork
(`Onixs.Memory.target_returned`), and with them `memory_map` and `free_pages`.
-/

namespace Onixs

namespace Memory

/-! ### The counter of free pages -/

section Counter

variable {ahead : ℕ} {s t : Memory} {pid cr3 vaddr : ℕ} (h : s.Ahead ahead)

include h

theorem Ahead.setTask (c : ℕ) (v : Option Task) : (s.setTask c v).Ahead ahead := h.congr rfl rfl rfl rfl

theorem Ahead.unlinkPage (hunlink : s.unlinkPage cr3 vaddr = some t) : t.Ahead ahead := by
  rw [Memory.unlinkPage] at hunlink
  obtain ⟨_, -, hunlink⟩ := Option.bind_eq_some_iff.mp hunlink
  obtain ⟨pde, -, hunlink⟩ := Option.bind_eq_some_iff.mp hunlink
  split at hunlink
  · exact Option.some.inj hunlink ▸ h
  · obtain ⟨⟨table, u⟩, hget, hunlink⟩ := Option.bind_eq_some_iff.mp hunlink
    have hu : u.Ahead ahead := h.getPte hget
    simp only at hunlink
    split at hunlink
    · exact Option.some.inj hunlink ▸ hu
    · exact (hu.setWord _ _ _).putPage hunlink

theorem Ahead.userStore {word : PageEntry} (hstore : s.store pid vaddr word = some t) : t.Ahead ahead := by
  rw [Memory.store] at hstore
  obtain ⟨task, -, hstore⟩ := Option.bind_eq_some_iff.mp hstore
  obtain ⟨entry, -, hstore⟩ := Option.bind_eq_some_iff.mp hstore
  obtain ⟨_, -, hstore⟩ := Option.bind_eq_some_iff.mp hstore
  exact Option.some.inj hstore ▸ h.setWord _ _ _

omit h

theorem Ahead.putPages {table : ℕ} : ∀ {left i : ℕ} {s t : Memory}, s.Ahead ahead →
    putPages table left i s = some t → t.Ahead ahead := by
  intro left
  induction left with
  | zero => exact fun h hput => Option.some.inj hput ▸ h
  | succ left ih =>
    intro i s t h hput
    rw [Memory.putPages] at hput
    split at hput
    · exact ih h hput
    · obtain ⟨_, -, hput⟩ := Option.bind_eq_some_iff.mp hput
      obtain ⟨u, hpage, hput⟩ := Option.bind_eq_some_iff.mp hput
      exact ih (h.putPage hpage) hput

theorem Ahead.putTables {pde : ℕ} : ∀ {left i : ℕ} {s t : Memory}, s.Ahead ahead →
    putTables cr3 pde left i s = some t → t.Ahead ahead := by
  intro left
  induction left with
  | zero => exact fun h hput => Option.some.inj hput ▸ h
  | succ left ih =>
    intro i s t h hput
    rw [Memory.putTables] at hput
    split at hput
    · exact ih h hput
    · obtain ⟨table, -, hput⟩ := Option.bind_eq_some_iff.mp hput
      obtain ⟨u, hpages, hput⟩ := Option.bind_eq_some_iff.mp hput
      obtain ⟨v, hpage, hput⟩ := Option.bind_eq_some_iff.mp hput
      exact ih ((h.putPages hpages).putPage hpage) hput

theorem Ahead.unlinkPages : ∀ {left page : ℕ} {s t : Memory}, s.Ahead ahead →
    unlinkPages cr3 left page s = some t → t.Ahead ahead := by
  intro left
  induction left with
  | zero => exact fun h hloop => Option.some.inj hloop ▸ h
  | succ left ih =>
    intro page s t h hloop
    rw [Memory.unlinkPages] at hloop
    obtain ⟨u, hunlink, hloop⟩ := Option.bind_eq_some_iff.mp hloop
    exact ih (h.unlinkPage hunlink) hloop

theorem Ahead.unmapPages : ∀ {left page : ℕ} {s t : Memory} {vmap vmap' : Bitmap}, s.Ahead ahead →
    unmapPages cr3 left page s vmap = some (t, vmap') → t.Ahead ahead := by
  intro left
  induction left with
  | zero => exact fun h hloop => (Prod.mk.inj (Option.some.inj hloop)).1 ▸ h
  | succ left ih =>
    intro page s t vmap vmap' h hloop
    rw [Memory.unmapPages] at hloop
    obtain ⟨u, hunlink, hloop⟩ := Option.bind_eq_some_iff.mp hloop
    obtain ⟨used, -, hloop⟩ := Option.bind_eq_some_iff.mp hloop
    obtain ⟨_, -, hloop⟩ := Option.bind_eq_some_iff.mp hloop
    obtain ⟨map, -, hloop⟩ := Option.bind_eq_some_iff.mp hloop
    exact ih (h.unlinkPage hunlink) hloop

theorem Ahead.mapPages {prot flags : ℕ} : ∀ {left page : ℕ} {s t : Memory} {vmap vmap' : Bitmap}, s.Ahead ahead →
    mapPages cr3 prot flags left page s vmap = some (t, vmap') → t.Ahead ahead := by
  intro left
  induction left with
  | zero => exact fun h hloop => (Prod.mk.inj (Option.some.inj hloop)).1 ▸ h
  | succ left ih =>
    intro page s t vmap vmap' h hloop
    rw [Memory.mapPages] at hloop
    obtain ⟨u, hlink, hloop⟩ := Option.bind_eq_some_iff.mp hloop
    obtain ⟨map, -, hloop⟩ := Option.bind_eq_some_iff.mp hloop
    obtain ⟨⟨table, v⟩, hget, hloop⟩ := Option.bind_eq_some_iff.mp hloop
    have hv : v.Ahead ahead := (h.linkPage hlink).getPte hget
    exact ih (hv.setWord _ _ _) hloop

theorem Ahead.readPages {words : ℕ → ℕ → Option PageEntry} : ∀ {left page : ℕ} {s t : Memory}, s.Ahead ahead →
    readPages cr3 words left page s = some t → t.Ahead ahead := by
  intro left
  induction left with
  | zero => exact fun h hloop => Option.some.inj hloop ▸ h
  | succ left ih =>
    intro page s t h hloop
    rw [Memory.readPages] at hloop
    obtain ⟨frame, -, hloop⟩ := Option.bind_eq_some_iff.mp hloop
    exact ih (h.setFrame _ _) hloop

include h

theorem Ahead.sysBrk {brk : ℕ} {ok : Bool} (hcall : s.sysBrk pid brk = some (ok, t)) : t.Ahead ahead := by
  rw [Memory.sysBrk] at hcall
  obtain ⟨_, -, hcall⟩ := Option.bind_eq_some_iff.mp hcall
  obtain ⟨task, -, hcall⟩ := Option.bind_eq_some_iff.mp hcall
  obtain ⟨_, -, hcall⟩ := Option.bind_eq_some_iff.mp hcall
  obtain ⟨_, -, hcall⟩ := Option.bind_eq_some_iff.mp hcall
  split at hcall
  · obtain ⟨u, hloop, hcall⟩ := Option.bind_eq_some_iff.mp hcall
    obtain ⟨-, rfl⟩ := Prod.mk.inj (Option.some.inj hcall)
    exact (h.unlinkPages hloop).setTask _ _
  · split at hcall
    · exact (Prod.mk.inj (Option.some.inj hcall)).2 ▸ h
    · exact (Prod.mk.inj (Option.some.inj hcall)).2 ▸ h.setTask _ _

theorem Ahead.sysMmap {addr length prot flags : ℕ} {file : Option (ℕ → ℕ → Option PageEntry)}
    (hcall : s.sysMmap pid addr length prot flags file = some (vaddr, t)) : t.Ahead ahead := by
  obtain ⟨task, vmap, vmap', u, -, -, hloop, hend⟩ := sysMmap_cases hcall
  have hu : (u.setTask pid (some { task with vmap := vmap' })).Ahead ahead := (h.mapPages hloop).setTask _ _
  rcases hend with ⟨-, rfl⟩ | ⟨words, -, hread⟩
  · exact hu
  · exact hu.readPages hread

theorem Ahead.sysMunmap {addr length : ℕ} (hcall : s.sysMunmap pid addr length = some t) : t.Ahead ahead := by
  rw [Memory.sysMunmap] at hcall
  obtain ⟨task, -, hcall⟩ := Option.bind_eq_some_iff.mp hcall
  obtain ⟨_, -, hcall⟩ := Option.bind_eq_some_iff.mp hcall
  obtain ⟨_, -, hcall⟩ := Option.bind_eq_some_iff.mp hcall
  obtain ⟨⟨u, vmap⟩, hloop, hcall⟩ := Option.bind_eq_some_iff.mp hcall
  exact Option.some.inj hcall ▸ (h.unmapPages hloop).setTask _ _

/-- **The same counters and the same size of memory** leave the same number of free pages. -/
theorem Ahead.freePages_eq (ht : t.Ahead ahead) (hstart : t.startPage = s.startPage)
    (htotal : t.totalPages = s.totalPages) (hmap : t.memoryMap = s.memoryMap) : t.freePages = s.freePages := by
  rw [ht.free, h.free, zeroPages_congr hstart htotal fun i _ => by rw [hmap]]

end Counter

/-- **The counter moves with the map** when a task goes on. -/
theorem Ahead.operation {ahead : ℕ} {s t : Memory} {op : MemoryOp} {r : Unit} (h : s.Ahead ahead) (hs : s.Sound)
    (hlegal : op.Legal s) (hkeeps : op.KeepsTasks) (hstep : op.step s = some (r, t)) : t.Ahead ahead := by
  cases op with
  | fork pid => exact hkeeps.elim
  | exit pid => exact hkeeps.elim
  | reap child => exact hkeeps.elim
  | brk pid addr =>
    obtain ⟨⟨ok, u⟩, hcall, heq⟩ := Option.map_eq_some_iff.mp hstep
    obtain ⟨-, rfl⟩ := Prod.mk.inj heq
    exact h.sysBrk hcall
  | mmap pid addr length prot flags file =>
    obtain ⟨⟨vaddr, u⟩, hcall, heq⟩ := Option.map_eq_some_iff.mp hstep
    obtain ⟨-, rfl⟩ := Prod.mk.inj heq
    exact h.sysMmap hcall
  | munmap pid addr length =>
    obtain ⟨u, hcall, heq⟩ := Option.map_eq_some_iff.mp hstep
    obtain ⟨-, rfl⟩ := Prod.mk.inj heq
    exact h.sysMunmap hcall
  | fault pid vaddr present write =>
    obtain ⟨u, hfault, heq⟩ := Option.map_eq_some_iff.mp hstep
    obtain ⟨-, rfl⟩ := Prod.mk.inj heq
    exact h.pageFault (hs.keeps hlegal.1 hlegal.2) hfault
  | link pid vaddr =>
    obtain ⟨task, -, hmap⟩ := Option.bind_eq_some_iff.mp hstep
    obtain ⟨u, hlink, heq⟩ := Option.map_eq_some_iff.mp hmap
    obtain ⟨-, rfl⟩ := Prod.mk.inj heq
    exact h.linkPage hlink
  | unlink pid vaddr =>
    obtain ⟨task, -, hmap⟩ := Option.bind_eq_some_iff.mp hstep
    obtain ⟨u, hunlink, heq⟩ := Option.map_eq_some_iff.mp hmap
    obtain ⟨-, rfl⟩ := Prod.mk.inj heq
    exact h.unlinkPage hunlink
  | store pid vaddr word =>
    obtain ⟨u, hstore, heq⟩ := Option.map_eq_some_iff.mp hstep
    obtain ⟨-, rfl⟩ := Prod.mk.inj heq
    exact h.userStore hstore

/-! ### The entries of the others -/

/-- **A task that goes on leaves the entries of the others alone.** -/
theorem Sound.operation_others {s t : Memory} {op : MemoryOp} {r : Unit} {pid : ℕ} (h : s.Sound) (hlegal : op.Legal s)
    (hkeeps : op.KeepsTasks) (hby : MachineOp.By pid op) (hstep : op.step s = some (r, t)) : SameOthers s t pid := by
  cases op with
  | fork pid => exact hkeeps.elim
  | exit pid => exact hkeeps.elim
  | reap child => exact hkeeps.elim
  | brk pid' addr =>
    obtain rfl : pid' = pid := hby
    obtain ⟨⟨ok, u⟩, hcall, heq⟩ := Option.map_eq_some_iff.mp hstep
    obtain ⟨-, rfl⟩ := Prod.mk.inj heq
    exact (h.sysBrk hcall).2.2
  | mmap pid' addr length prot flags file =>
    obtain rfl : pid' = pid := hby
    obtain ⟨⟨vaddr, u⟩, hcall, heq⟩ := Option.map_eq_some_iff.mp hstep
    obtain ⟨-, rfl⟩ := Prod.mk.inj heq
    exact (h.sysMmap hcall).2.1
  | munmap pid' addr length =>
    obtain rfl : pid' = pid := hby
    obtain ⟨u, hcall, heq⟩ := Option.map_eq_some_iff.mp hstep
    obtain ⟨-, rfl⟩ := Prod.mk.inj heq
    exact (h.sysMunmap hcall).2.2
  | fault pid' vaddr present write =>
    obtain rfl : pid' = pid := hby
    obtain ⟨u, hfault, heq⟩ := Option.map_eq_some_iff.mp hstep
    obtain ⟨-, rfl⟩ := Prod.mk.inj heq
    exact (h.pageFault hlegal.1 hlegal.2 hfault).2.1
  | link pid' vaddr =>
    obtain rfl : pid' = pid := hby
    obtain ⟨task, hrun, hmap⟩ := Option.bind_eq_some_iff.mp hstep
    obtain ⟨u, hlink, heq⟩ := Option.map_eq_some_iff.mp hmap
    obtain ⟨-, rfl⟩ := Prod.mk.inj heq
    exact (h.linkPage hrun (didx_user hlegal.1 hlegal.2) hlink).2.2.2.1
  | unlink pid' vaddr =>
    obtain rfl : pid' = pid := hby
    obtain ⟨task, hrun, hmap⟩ := Option.bind_eq_some_iff.mp hstep
    obtain ⟨u, hunlink, heq⟩ := Option.map_eq_some_iff.mp hmap
    obtain ⟨-, rfl⟩ := Prod.mk.inj heq
    exact (h.unlinkPage hrun (didx_user hlegal.1 hlegal.2) hunlink).2.2.2
  | store pid' vaddr word =>
    obtain ⟨u, hstore, heq⟩ := Option.map_eq_some_iff.mp hstep
    obtain ⟨-, rfl⟩ := Prod.mk.inj heq
    exact .of_eq (h.store (didx_user hlegal.1 hlegal.2) hstore).2.1

/-! ### What a task does on its own -/

/-- **The level of the pages**: the size of memory stays, and `free_pages` moves with `memory_map`. -/
structure Level (s t : Memory) : Prop where
  /-- The first page. -/
  startPage : t.startPage = s.startPage
  /-- The number of pages. -/
  totalPages : t.totalPages = s.totalPages
  /-- The counter. -/
  ahead : ∀ ahead, s.Ahead ahead → t.Ahead ahead

/-- **From `s` to `t` task `pid` has kept to itself.** -/
structure Confined (s t : Memory) (pid : ℕ) : Prop where
  /-- The pages of the kernel. -/
  holdings : SameHoldings s t
  /-- The entries of the other tasks. -/
  others : SameOthers s t pid
  /-- The level. -/
  level : Level s t

section Confined

variable {s t u v w : Memory} {pid child : ℕ}

theorem Level.trans (h : Level s t) (h' : Level t u) : Level s u :=
  ⟨h'.startPage.trans h.startPage, h'.totalPages.trans h.totalPages, fun a ha => h'.ahead a (h.ahead a ha)⟩

/-- The level depends on nothing else. -/
theorem Level.of_eq (hstart : t.startPage = s.startPage) (htotal : t.totalPages = s.totalPages)
    (hfree : t.freePages = s.freePages) (hmap : t.memoryMap = s.memoryMap) : Level s t :=
  ⟨hstart, htotal, fun _ h => h.congr hstart htotal hfree hmap⟩

theorem SameRest.level (h : SameRest s t) (hahead : ∀ ahead, s.Ahead ahead → t.Ahead ahead) : Level s t :=
  ⟨h.startPage, h.totalPages, hahead⟩

theorem Confined.refl (s : Memory) (pid : ℕ) : Confined s s pid :=
  ⟨(SameRest.refl s).kernel.toSameHoldings, .of_eq rfl, .of_eq rfl rfl rfl rfl⟩

/-- What a task may do on its own. -/
def Own (pid : ℕ) (s : Memory) (op : MemoryOp) : Prop := op.Legal s ∧ op.KeepsTasks ∧ MachineOp.By pid op

/-- **A step of the task.** -/
theorem Sound.confined {op : MemoryOp} {r : Unit} (h : s.Sound) (hown : Own pid s op) (hstep : op.step s = some (r, t)) :
    Confined s t pid := by
  obtain ⟨hlegal, hkeeps, hby⟩ := hown
  have hkernel := MemoryOp.step_kernel hkeeps hstep
  exact ⟨hkernel.toSameHoldings, h.operation_others hlegal hkeeps hby hstep, hkernel.startPage, hkernel.totalPages,
    fun _ ha => ha.operation h hlegal hkeeps hstep⟩

theorem Confined.trans (h : Confined s t pid) (h' : Confined t u pid) : Confined s u pid :=
  ⟨⟨fun pid' => (h'.holdings.tasks pid').trans (h.holdings.tasks pid'), h'.holdings.kernelMap.trans h.holdings.kernelMap⟩,
    h.others.trans h'.others, h.level.trans h'.level⟩

/-- **A run of the task.** -/
theorem Sound.confinedRun {ops : List MemoryOp} (h : s.Sound) (hown : Run.Along MemoryOp.step (Own pid) s ops)
    (hrun : Run.exec MemoryOp.step s ops = some t) : t.Sound ∧ Confined s t pid := by
  refine Run.inv_of_exec (fun u => u.Sound ∧ Confined s u pid) (fun u op r v hu hop hstep => ?_) ops s t
    ⟨h, .refl s pid⟩ hown hrun
  exact ⟨hu.1.step hop.1 hstep, hu.2.trans (hu.1.confined hop hstep)⟩

/-! ### Fork, exit and wait -/

/-- **The references after the child has gone are those from before the fork.** -/
theorem target_returned (hfork : Forked s t pid child) (hrun : SameOthers t u child) (hexit : Exited u v child)
    (hreap : w.entryAt = v.entryAt) : w.target = s.target := by
  funext r
  obtain ⟨pid', d, o⟩ := r
  rcases eq_or_ne pid' child with rfl | hne
  · rw [target, target, hreap, entryAt_of_dead hexit.dead, entryAt_of_dead hfork.fresh]
  · rw [target, target, hreap, hexit.other _ hne, hrun _ hne]
    rcases eq_or_ne pid' pid with rfl | hne'
    · -- the pages of the parent are shared, and where they were
      cases o with
      | none => rw [hfork.dir]
      | some i =>
        rw [hfork.page, Option.map_map]
        exact congrFun (congrArg _ (funext PageEntry.share_index)) _
    · rw [hfork.other _ hne' hne]

/-- The references decide the counters. -/
theorem Exact.memoryMap_eq (h : s.Exact) (h' : t.Exact) (htarget : t.target = s.target) : t.memoryMap = s.memoryMap := by
  funext p
  rcases Nat.lt_or_ge p 4096 with hlt | hge
  · rw [h'.counts.low p hlt, h.counts.low p hlt]
  · rw [h'.counts.count p hge, h.counts.count p hge, htarget]

end Confined

end Memory

end Onixs
