import Onixs.Common.Borrowed
import Onixs.Kernel.PageBalance

/-!
# A process with its children

What a process does while nobody else runs: its own calls, faults and stores, and children that it forks and reaps,
each of which runs alone for as long as it lives and may have children itself (`Onixs.Memory.Session`). Of the other
tasks a session changes nothing (`Onixs.Memory.Session.confined`), and when a child has been reaped, whatever it and
its children have done, every page is back: `kernel_map`, `memory_map` and `free_pages` are those from before the
fork (`Onixs.forkSession_returned`).

The pages of `kernel_map` are slots that the child has borrowed (`Onixs.Borrowed`): `task_fork` takes four of them,
and `task_exit` and `task_waitpid` give them back in another order. The block of the heap for the `bitmap_t` of the child
is that of `Onixs.Heap`, which is not part of `Onixs.Memory`.
-/

namespace Onixs

open Bytes

namespace Memory

/-- **What a process does on its own**, from one state to another. -/
inductive Session : ℕ → Memory → Memory → Prop where
  /-- Nothing. -/
  | nil {pid : ℕ} {s : Memory} : Session pid s s
  /-- A step, and what comes behind it. -/
  | step {pid : ℕ} {s t u : Memory} {op : MemoryOp} {r : Unit} (hown : Own pid s op) (hstep : op.step s = some (r, t))
      (hrest : Session pid t u) : Session pid s u
  /-- A child, from `task_fork` to `task_waitpid`, and what comes behind it. -/
  | child {pid child : ℕ} {s t u v w x : Memory} (hfork : s.taskFork pid = some (child, t)) (hlife : Session child t u)
      (hexit : u.taskExit child = some v) (hreap : v.taskReap child = some w) (hrest : Session pid w x) :
      Session pid s x

/-! ### The kernel's pages as slots -/

/-- The bits of `kernel_map`, as slots. -/
def slots (s : Memory) (g : ℕ) : Option Unit := if bitOf s.kernelMap.bits g then some () else none

/-- The slot of a page. -/
def slotNr (page : ℕ) : ℕ := page - 256

/-- `kernel_map` is where it was, whatever its bits are. -/
def SameFrame (s t : Memory) : Prop := ∃ bits, t.kernelMap = { s.kernelMap with bits := bits }

section Slots

variable {s t u : Memory} {page : ℕ} {K : ℕ × ℕ → Option ℕ}

theorem SameFrame.of_eq (h : t.kernelMap = s.kernelMap) : SameFrame s t := ⟨s.kernelMap.bits, h⟩

theorem SameFrame.trans (h : SameFrame s t) (h' : SameFrame t u) : SameFrame s u := by
  obtain ⟨bits, hbits⟩ := h
  obtain ⟨bits', hbits'⟩ := h'
  exact ⟨bits', by rw [hbits', hbits]⟩

theorem slots_of_eq (h : t.kernelMap = s.kernelMap) : t.slots = s.slots := by
  funext g
  rw [slots, slots, h]

/-- **`kernel_map` is known by its slots.** -/
theorem SameFrame.kernelMap_eq (h : SameFrame s t) (hslots : t.slots = s.slots) : t.kernelMap = s.kernelMap := by
  obtain ⟨bits, hbits⟩ := h
  have hsame : bits = s.kernelMap.bits := ext_bits fun g => by
    have hslot := congrFun hslots g
    rw [slots, slots, hbits] at hslot
    cases hold : bitOf s.kernelMap.bits g <;> cases hnew : bitOf bits g <;> simp [hold, hnew] at hslot ⊢
  rw [hbits, hsame]

/-- **`alloc_kpage`** takes a slot that is free. -/
theorem Marked.allocKpage_slots (h : s.Marked K) (halloc : s.allocKpage 1 = some (page, t)) :
    s.slots (slotNr page) = none ∧ t.slots = Function.update s.slots (slotNr page) (some ()) ∧ SameFrame s t := by
  have hwf : s.kernelMap.WF := ⟨by rw [h.length]; exact h.size, by rw [h.length, h.offset]; decide⟩
  rw [Memory.allocKpage] at halloc
  obtain ⟨_, -, halloc⟩ := Option.bind_eq_some_iff.mp halloc
  obtain ⟨⟨index, map⟩, hscan, halloc⟩ := Option.bind_eq_some_iff.mp halloc
  obtain ⟨rfl, rfl⟩ := Prod.mk.inj (Option.some.inj halloc)
  rw [scanPage] at hscan
  obtain ⟨_, -, hscan⟩ := Option.bind_eq_some_iff.mp hscan
  obtain ⟨⟨index', map'⟩, hbitmap, hscan⟩ := Option.bind_eq_some_iff.mp hscan
  obtain ⟨_, hne, hscan⟩ := Option.bind_eq_some_iff.mp hscan
  obtain ⟨rfl, rfl⟩ := Prod.mk.inj (Option.some.inj hscan)
  obtain ⟨k, hk, -, hclear, -, hmap⟩ := bitmapScan_first hwf Nat.one_pos hbitmap (assert_eq_some.mp hne)
  rw [clearRun_one] at hclear
  have hslot : slotNr index' = k := by
    have hoffset := h.offset
    unfold slotNr
    omega
  rw [hslot]
  refine ⟨?_, ?_, ⟨_, hmap⟩⟩
  · rw [slots, hclear]
    rfl
  · funext g
    have hbit : bitOf map'.bits g = if g = k then true else bitOf s.kernelMap.bits g := by
      rw [hmap]
      refine (bitOf_setRun _ _ _ _).trans ?_
      simp only [Nat.lt_succ_iff, ← Nat.eq_iff_le_and_ge, eq_comm]
    change (if bitOf map'.bits g then some () else none) = _
    rw [hbit, Function.update_apply]
    split
    · rfl
    · rfl

/-- **`free_kpage`** gives a slot back. -/
theorem Marked.freeKpage_slots (h : s.Marked K) (hfree : s.freeKpage page 1 = some t) :
    t.slots = Function.update s.slots (slotNr page) none ∧ SameFrame s t := by
  rw [Memory.freeKpage] at hfree
  obtain ⟨_, -, hfree⟩ := Option.bind_eq_some_iff.mp hfree
  obtain ⟨map, hreset, hfree⟩ := Option.bind_eq_some_iff.mp hfree
  obtain rfl := Option.some.inj hfree
  rw [resetPage] at hreset
  obtain ⟨_, -, hreset⟩ := Option.bind_eq_some_iff.mp hreset
  obtain ⟨_, -, hreset⟩ := Option.bind_eq_some_iff.mp hreset
  obtain ⟨map', hset, hreset⟩ := Option.bind_eq_some_iff.mp hreset
  obtain rfl := Option.some.inj hreset
  obtain ⟨-, -, hmap⟩ := bitmapSet_eq_some hset
  refine ⟨?_, ⟨_, hmap⟩⟩
  funext g
  have hbit : bitOf map'.bits g = if g = slotNr page then false else bitOf s.kernelMap.bits g := by
    have hslot : page - s.kernelMap.offset = slotNr page := by rw [h.offset]; rfl
    rw [hmap, ← hslot]
    exact bitOf_setBit _ _ _ _
  change (if bitOf map'.bits g then some () else none) = _
  rw [hbit, Function.update_apply]
  split
  · rfl
  · rfl

end Slots

/-! ### The pages of a child -/

section Child

variable {s t u v w : Memory} {pid child ahead : ℕ} {task : Task}

/-- The slots of the pages a task holds, in the order in which `task_fork` has taken them, the last one first. -/
def Task.slots (task : Task) : List ℕ := [slotNr task.pwd, slotNr task.pde, slotNr task.bits, slotNr task.page]

/-- **`task_fork` takes four pages**, and stores them in the task it makes. -/
theorem Sound.taskFork_slots (h : s.Sound) (hfork : s.taskFork pid = some (child, t)) :
    ∃ task, t.running child = some task ∧ Borrowed s.slots task.slots t.slots ∧ SameFrame s t ∧ s.tasks child = none ∧
      (∀ pid', pid' ≠ child → t.tasks pid' = s.tasks pid') ∧ t.startPage = s.startPage ∧ t.totalPages = s.totalPages := by
  obtain ⟨task, page, bits, pde, pwd, s₁, s₂, s₃, s₄, s₅, hrun, hlt, hfree, hpage, hbits, hpde, hcopy, hpwd, rfl⟩ :=
    taskFork_cases hfork
  have hheld : ∀ j, s.held (child, j) = none := fun j => by rw [held, hfree]; rfl
  -- what stays marked does not matter here, only that there is a bitmap
  have hm := h.marked
  obtain ⟨-, -, -, hm₁, m₁, hs₁⟩ := hm.allocKpage (a := (child, 0)) (hheld 0) hpage
  obtain ⟨-, -, -, hm₂, m₂, hs₂⟩ := hm₁.allocKpage (a := (child, 2))
    (by rw [Function.update_of_ne (by simp)]; exact hheld 2) hbits
  obtain ⟨hlo, hhi, -, hm₃, m₃, hs₃⟩ := hm₂.allocKpage (a := (child, 1))
    (by rw [Function.update_of_ne (by simp), Function.update_of_ne (by simp)]; exact hheld 1) hpde
  have hrest := copyTables_same _ _ _ _ hcopy
  have hmap₄ : s₄.kernelMap = s₃.kernelMap := hrest.kernelMap
  have hm₄ := hm₃.congr hmap₄
  obtain ⟨m₅, hs₅⟩ : ∃ m, s₅ = { s₄ with kernelMap := m } := by
    obtain ⟨-, -, -, -, m₅, hs₅⟩ := hm₄.allocKpage (a := (child, 3)) (by
      rw [Function.update_of_ne (by simp), Function.update_of_ne (by simp), Function.update_of_ne (by simp)]
      exact hheld 3) hpwd
    exact ⟨m₅, hs₅⟩
  obtain ⟨hnone₁, hslots₁, hframe₁⟩ := hm.allocKpage_slots hpage
  obtain ⟨hnone₂, hslots₂, hframe₂⟩ := hm₁.allocKpage_slots hbits
  obtain ⟨hnone₃, hslots₃, hframe₃⟩ := hm₂.allocKpage_slots hpde
  obtain ⟨hnone₅, hslots₅, hframe₅⟩ := hm₄.allocKpage_slots hpwd
  have hb₁ : Borrowed s.slots [slotNr page] s₁.slots := hslots₁ ▸ (Borrowed.refl s.slots).take hnone₁ ()
  have hb₂ : Borrowed s.slots [slotNr bits, slotNr page] s₂.slots := hslots₂ ▸ hb₁.take hnone₂ ()
  have hb₃ : Borrowed s.slots [slotNr pde, slotNr bits, slotNr page] s₃.slots := hslots₃ ▸ hb₂.take hnone₃ ()
  have hb₅ : Borrowed s.slots [slotNr pwd, slotNr pde, slotNr bits, slotNr page] s₅.slots := by
    rw [hslots₅]
    rw [slots_of_eq hmap₄] at hnone₅ ⊢
    exact hb₃.take hnone₅ ()
  have htasks : s₅.tasks = s.tasks := by
    rw [hs₅]
    refine hrest.tasks.trans ?_
    rw [hs₃, hs₂, hs₁]
    rfl
  refine ⟨{ task with page := page, bits := bits, pde := pde, pwd := pwd }, running_setTask_self _ ?_, hb₅, ?_, hfree,
    fun pid' hne => ?_, ?_, ?_⟩
  · rw [kernelPageDir]
    exact ⟨(running_eq_some.mp hrun).2.1, by simp only; omega⟩
  · exact (((hframe₁.trans hframe₂).trans hframe₃).trans (SameFrame.of_eq hmap₄)).trans hframe₅
  · rw [tasks_setTask, if_neg hne, htasks]
  · rw [hs₅]
    refine hrest.startPage.trans ?_
    rw [hs₃, hs₂, hs₁]
    rfl
  · rw [hs₅]
    refine hrest.totalPages.trans ?_
    rw [hs₃, hs₂, hs₁]
    rfl

/-- **`task_exit` gives three of them back.** -/
theorem Sound.taskExit_slots (h : s.Sound) (hrun : s.running pid = some task) (hexit : s.taskExit pid = some t) :
    t.slots = Function.update (Function.update (Function.update s.slots (slotNr task.pde) none) (slotNr task.bits) none)
        (slotNr task.pwd) none ∧ SameFrame s t ∧
      (∀ pid', t.tasks pid' = if pid' = pid then some { task with died := true } else s.tasks pid') ∧
      t.startPage = s.startPage ∧ t.totalPages = s.totalPages := by
  rw [Memory.taskExit] at hexit
  obtain ⟨task', hrun', hexit⟩ := Option.bind_eq_some_iff.mp hexit
  obtain rfl : task' = task := Option.some.inj (hrun'.symm.trans hrun)
  obtain ⟨s₁, hfree, hexit⟩ := Option.bind_eq_some_iff.mp hexit
  obtain ⟨s₂, hbits, hpwd⟩ := Option.bind_eq_some_iff.mp hexit
  rw [Memory.freePde] at hfree
  obtain ⟨_, -, hfree⟩ := Option.bind_eq_some_iff.mp hfree
  obtain ⟨pde, hwalk, hfree⟩ := Option.bind_eq_some_iff.mp hfree
  obtain ⟨v, hput, hpde⟩ := Option.bind_eq_some_iff.mp hfree
  have hrest := putTables_same _ _ _ _ hput
  have hmap : v.kernelMap = s.kernelMap := hrest.kernelMap
  have hheld := held_of_running hrun
  have hmv : v.Marked s.held := h.marked.congr hmap
  obtain ⟨hm₁, m₁, hs₁⟩ := hmv.freeKpage (a := (pid, 1)) (by rw [hheld]; rfl) hpde
  obtain ⟨hm₂, m₂, hs₂⟩ := hm₁.freeKpage (a := (pid, 2)) (by rw [Function.update_of_ne (by simp), hheld]; rfl) hbits
  obtain ⟨hm₃, m₃, hs₃⟩ := hm₂.freeKpage (a := (pid, 3))
    (by rw [Function.update_of_ne (by simp), Function.update_of_ne (by simp), hheld]; rfl) hpwd
  obtain ⟨hslots₁, hframe₁⟩ := hmv.freeKpage_slots hpde
  obtain ⟨hslots₂, hframe₂⟩ := hm₁.freeKpage_slots hbits
  obtain ⟨hslots₃, hframe₃⟩ := hm₂.freeKpage_slots hpwd
  have htasks : t.tasks = v.tasks := by
    rw [hs₃, hs₂, hs₁]
  refine ⟨?_, (((SameFrame.of_eq hmap).trans hframe₁).trans hframe₂).trans hframe₃, fun pid' => ?_, ?_, ?_⟩
  · rw [hslots₃, hslots₂, hslots₁, slots_of_eq hmap]
  · rw [htasks, hrest.tasks]
    rfl
  · rw [hs₃, hs₂, hs₁]
    exact hrest.startPage
  · rw [hs₃, hs₂, hs₁]
    exact hrest.totalPages

/-- **`task_waitpid` gives the last one back.** -/
theorem Sound.taskReap_slots (h : s.Sound) (htask : s.tasks pid = some task) (hreap : s.taskReap pid = some t) :
    t.slots = Function.update s.slots (slotNr task.page) none ∧ SameFrame s t ∧
      (∀ pid', t.tasks pid' = if pid' = pid then none else s.tasks pid') ∧
      t.startPage = s.startPage ∧ t.totalPages = s.totalPages := by
  rw [Memory.taskReap] at hreap
  obtain ⟨task', htask', hreap⟩ := Option.bind_eq_some_iff.mp hreap
  obtain rfl : task' = task := Option.some.inj (htask'.symm.trans htask)
  obtain ⟨_, hdied, hfree⟩ := Option.bind_eq_some_iff.mp hreap
  rw [assert_eq_some] at hdied
  have hm : (s.setTask pid none).Marked s.held := h.marked.congr rfl
  obtain ⟨-, m, hs⟩ := hm.freeKpage (a := (pid, 0)) (by rw [held_eq htask, Task.kpages, if_pos hdied]; rfl) hfree
  obtain ⟨hslots, hframe⟩ := hm.freeKpage_slots hfree
  exact ⟨hslots, hframe, fun pid' => by rw [hs]; rfl, by rw [hs]; rfl, by rw [hs]; rfl⟩

/-! ### The counter of free pages -/

section Counter

variable (h : s.Ahead ahead)

include h

theorem Ahead.allocKpage {page : ℕ} (halloc : s.allocKpage 1 = some (page, t)) : t.Ahead ahead := by
  rw [Memory.allocKpage] at halloc
  obtain ⟨_, -, halloc⟩ := Option.bind_eq_some_iff.mp halloc
  obtain ⟨⟨k, map⟩, -, halloc⟩ := Option.bind_eq_some_iff.mp halloc
  obtain ⟨-, rfl⟩ := Prod.mk.inj (Option.some.inj halloc)
  exact h.congr rfl rfl rfl rfl

theorem Ahead.freeKpage {page : ℕ} (hfree : s.freeKpage page 1 = some t) : t.Ahead ahead := by
  rw [Memory.freeKpage] at hfree
  obtain ⟨_, -, hfree⟩ := Option.bind_eq_some_iff.mp hfree
  obtain ⟨map, -, hfree⟩ := Option.bind_eq_some_iff.mp hfree
  exact Option.some.inj hfree ▸ h.congr rfl rfl rfl rfl

theorem Ahead.taskFork (hfork : s.taskFork pid = some (child, t)) : t.Ahead ahead := by
  rw [Memory.taskFork] at hfork
  obtain ⟨task, -, hfork⟩ := Option.bind_eq_some_iff.mp hfork
  obtain ⟨⟨child', page, s₁⟩, hfree, hfork⟩ := Option.bind_eq_some_iff.mp hfork
  obtain ⟨⟨bits, s₂⟩, hbits, hfork⟩ := Option.bind_eq_some_iff.mp hfork
  obtain ⟨⟨pde, s₃⟩, hpde, hfork⟩ := Option.bind_eq_some_iff.mp hfork
  obtain ⟨⟨pwd, s₄⟩, hpwd, hfork⟩ := Option.bind_eq_some_iff.mp hfork
  obtain ⟨-, rfl⟩ := Prod.mk.inj (Option.some.inj hfork)
  obtain ⟨-, -, hpage⟩ := getFreeTask_cases hfree
  exact ((((h.allocKpage hpage).allocKpage hbits).copyPde hpde).allocKpage hpwd).setTask _ _

theorem Ahead.taskExit (hexit : s.taskExit pid = some t) : t.Ahead ahead := by
  rw [Memory.taskExit] at hexit
  obtain ⟨task, -, hexit⟩ := Option.bind_eq_some_iff.mp hexit
  obtain ⟨s₁, hpde, hexit⟩ := Option.bind_eq_some_iff.mp hexit
  obtain ⟨s₂, hbits, hpwd⟩ := Option.bind_eq_some_iff.mp hexit
  rw [freePde] at hpde
  obtain ⟨_, -, hpde⟩ := Option.bind_eq_some_iff.mp hpde
  obtain ⟨pde, -, hpde⟩ := Option.bind_eq_some_iff.mp hpde
  obtain ⟨s₀, hput, hpde⟩ := Option.bind_eq_some_iff.mp hpde
  have h₀ : s₀.Ahead ahead := Ahead.putTables (h.setTask pid _) hput
  exact ((h₀.freeKpage hpde).freeKpage hbits).freeKpage hpwd

theorem Ahead.taskReap (hreap : s.taskReap pid = some t) : t.Ahead ahead := by
  rw [Memory.taskReap] at hreap
  obtain ⟨task, -, hreap⟩ := Option.bind_eq_some_iff.mp hreap
  obtain ⟨_, -, hfree⟩ := Option.bind_eq_some_iff.mp hreap
  exact (h.setTask pid none).freeKpage hfree

end Counter

/-! ### The life of a child -/

/-- The pages of a task that runs, whatever it has done to its heap and its mapping area. -/
theorem Task.slots_of_footing {task' : Task} (hrun : s.running child = some task) (htask' : t.tasks child = some task')
    (hfooting : (t.tasks child).map Task.footing = (s.tasks child).map Task.footing) :
    t.running child = some task' ∧ task'.slots = task.slots := by
  obtain ⟨htask, hdied, hpde⟩ := running_eq_some.mp hrun
  rw [htask, htask', Option.map_some, Option.map_some, Option.some_inj] at hfooting
  obtain ⟨hpages, hdirdied⟩ := Prod.mk.inj hfooting
  obtain ⟨hdir, hdied'⟩ := Prod.mk.inj hdirdied
  have hrun' : t.running child = some task' :=
    running_eq_some.mpr ⟨htask', hdied'.trans hdied, fun heq => hpde (hdir.symm.trans heq)⟩
  refine ⟨hrun', ?_⟩
  rw [kpages_of_running hrun, kpages_of_running hrun'] at hpages
  simp only [List.cons.injEq, and_true] at hpages
  obtain ⟨hpage, hdir', hbits, hpwd⟩ := hpages
  rw [Task.slots, Task.slots, hpage, hdir', hbits, hpwd]

/-- **A child that keeps to itself leaves nothing behind**: `task_exit` and `task_waitpid` give back, in their own order,
the pages that `task_fork` has taken. -/
theorem Sound.child_confined (h : s.Sound) (hfork : s.taskFork pid = some (child, t)) (hu : u.Sound)
    (hlife : Confined t u child) (hexit : u.taskExit child = some v) (hreap : v.taskReap child = some w) :
    w.Sound ∧ Confined s w pid ∧ w.target = s.target := by
  obtain ⟨hv, hexited⟩ := hu.taskExit hexit
  obtain ⟨hw, hentries⟩ := hv.taskReap hreap
  obtain ⟨-, hforked⟩ := h.taskFork hfork
  obtain ⟨task, hrun, hborrowed, hframe, hnone, htasks, hstart, htotal⟩ := h.taskFork_slots hfork
  obtain ⟨task', hrun', -⟩ := Option.bind_eq_some_iff.mp hexit
  obtain ⟨-, hslots⟩ := Task.slots_of_footing hrun (running_eq_some.mp hrun').1 (hlife.holdings.tasks child)
  obtain ⟨hslotsv, hframev, htasksv, hstartv, htotalv⟩ := hu.taskExit_slots hrun' hexit
  obtain ⟨hslotsw, hframew, htasksw, hstartw, htotalw⟩ :=
    hv.taskReap_slots ((htasksv child).trans (if_pos rfl)) hreap
  have hmap : w.kernelMap = s.kernelMap := by
    refine (((hframe.trans (.of_eq hlife.holdings.kernelMap)).trans hframev).trans hframew).kernelMap_eq ?_
    rw [← hslots, ← slots_of_eq hlife.holdings.kernelMap] at hborrowed
    -- `task_exit` gives the directory back first, the last page taken is its third
    have hpde := (hborrowed.perm (List.Perm.swap _ _ _)).give
    have hbits := (hpde.perm (List.Perm.swap _ _ _)).give
    have hall := hbits.give.give
    rw [hslotsw, hslotsv]
    exact hall.eq_iff.mpr rfl
  refine ⟨hw, ⟨⟨fun pid' => ?_, hmap⟩, fun r hr => ?_, ?_, ?_, fun ahead ha => ?_⟩,
    target_returned hforked hlife.others hexited hentries⟩
  · rw [htasksw]
    rcases eq_or_ne pid' child with rfl | hne
    · rw [if_pos rfl, hnone]
    · rw [if_neg hne, htasksv, if_neg hne, hlife.holdings.tasks, htasks pid' hne]
  · rw [hentries]
    obtain ⟨pid', place⟩ := r
    rcases eq_or_ne pid' child with rfl | hne
    · rw [entryAt_of_dead hexited.dead, entryAt_of_dead hforked.fresh]
    · rw [hexited.other _ hne, hlife.others _ hne, hforked.other _ hr hne]
  · rw [hstartw, hstartv, hlife.level.startPage, hstart]
  · rw [htotalw, htotalv, hlife.level.totalPages, htotal]
  · exact ((hlife.level.ahead ahead (ha.taskFork hfork)).taskExit hexit).taskReap hreap

/-- **A session is confined.** -/
theorem Session.invariant (hsession : Session pid s t) : s.Sound → t.Sound ∧ Confined s t pid := by
  induction hsession with
  | nil => exact fun h => ⟨h, .refl _ _⟩
  | step hown hstep hrest ih =>
    intro h
    obtain ⟨ht, hconfined⟩ := ih (h.step hown.1 hstep)
    exact ⟨ht, (h.confined hown hstep).trans hconfined⟩
  | child hfork hlife hexit hreap hrest ihlife ihrest =>
    intro h
    obtain ⟨hu, hconfined⟩ := ihlife (h.taskFork hfork).1
    obtain ⟨hw, hchild, -⟩ := h.child_confined hfork hu hconfined hexit hreap
    obtain ⟨hx, hrest'⟩ := ihrest hw
    exact ⟨hx, hchild.trans hrest'⟩

end Child

/-- The counter moves with the map, whoever takes a step. -/
theorem Ahead.memoryStep {ahead : ℕ} {s t : Memory} {op : MemoryOp} {r : Unit} (h : s.Ahead ahead) (hs : s.Sound)
    (hlegal : op.Legal s) (hstep : op.step s = some (r, t)) : t.Ahead ahead := by
  cases op with
  | fork pid =>
    obtain ⟨⟨child, u⟩, hfork, heq⟩ := Option.map_eq_some_iff.mp hstep
    obtain ⟨-, rfl⟩ := Prod.mk.inj heq
    exact h.taskFork hfork
  | exit pid =>
    obtain ⟨u, hexit, heq⟩ := Option.map_eq_some_iff.mp hstep
    obtain ⟨-, rfl⟩ := Prod.mk.inj heq
    exact h.taskExit hexit
  | reap child =>
    obtain ⟨u, hreap, heq⟩ := Option.map_eq_some_iff.mp hstep
    obtain ⟨-, rfl⟩ := Prod.mk.inj heq
    exact h.taskReap hreap
  | brk pid addr => exact h.operation hs hlegal trivial hstep
  | mmap pid addr length prot flags file => exact h.operation hs hlegal trivial hstep
  | munmap pid addr length => exact h.operation hs hlegal trivial hstep
  | fault pid vaddr present write => exact h.operation hs hlegal trivial hstep
  | link pid vaddr => exact h.operation hs hlegal trivial hstep
  | unlink pid vaddr => exact h.operation hs hlegal trivial hstep
  | store pid vaddr word => exact h.operation hs hlegal trivial hstep

/-- Every state a run reaches satisfies both invariants. -/
theorem Boot.run_ahead {ahead : ℕ} {s t : Memory} (h : s.Boot) (hahead : s.Ahead ahead) {ops : List MemoryOp}
    (hlegal : Run.Along MemoryOp.step MemoryOp.Legal s ops)
    (hrun : Run.exec MemoryOp.step s ops = some t) : t.Sound ∧ t.Ahead ahead :=
  Run.inv_of_exec (fun u => u.Sound ∧ u.Ahead ahead)
    (fun _ _ _ _ hu hl hstep => ⟨hu.1.step hl hstep, hu.2.memoryStep hu.1 hl hstep⟩) ops s t ⟨h.sound, hahead⟩ hlegal hrun

end Memory

open Memory

/-! ### Three generations -/

section Generations

/-- The first task forks, its child `c` faults and forks as well, and the grandchild faults on the page it shares: the
states after the first fork, before the child exits, after that, and after it has been reaped. -/
def generations : Option (ℕ × Memory × Memory × Memory × Memory) := do
  let (c, t) ← bootMemory.taskFork 1
  let (_, t₁) ← MemoryOp.step t (.fault c 0x1002000 false true)
  let (d, t₂) ← t₁.taskFork c
  let (_, t₃) ← MemoryOp.step t₂ (.fault d 0x1002000 true true)
  let t₄ ← t₃.taskExit d
  let u ← t₄.taskReap d
  let v ← u.taskExit c
  let w ← v.taskReap c
  return (c, t, u, v, w)

theorem generations_isSome : generations.isSome = true := by decide +kernel

/-- The life of the child is a session. -/
theorem generations_cases {c : ℕ} {t u v w : Memory} (h : generations = some (c, t, u, v, w)) :
    bootMemory.taskFork 1 = some (c, t) ∧ Session c t u ∧ u.taskExit c = some v ∧ v.taskReap c = some w := by
  rw [generations] at h
  obtain ⟨⟨c', t'⟩, hfork, h⟩ := Option.bind_eq_some_iff.mp h
  obtain ⟨⟨_, t₁⟩, hfault, h⟩ := Option.bind_eq_some_iff.mp h
  obtain ⟨⟨d, t₂⟩, hfork', h⟩ := Option.bind_eq_some_iff.mp h
  obtain ⟨⟨_, t₃⟩, hfault', h⟩ := Option.bind_eq_some_iff.mp h
  obtain ⟨t₄, hexit', h⟩ := Option.bind_eq_some_iff.mp h
  obtain ⟨u', hreap', h⟩ := Option.bind_eq_some_iff.mp h
  obtain ⟨v', hexit, h⟩ := Option.bind_eq_some_iff.mp h
  obtain ⟨w', hreap, h⟩ := Option.bind_eq_some_iff.mp h
  simp only [Option.pure_def, Option.some.injEq, Prod.mk.injEq] at h
  obtain ⟨rfl, rfl, rfl, rfl, rfl⟩ := h
  have hown : ∀ pid s present, Memory.Own pid s (.fault pid 0x1002000 present true) := fun pid s present =>
    ⟨⟨by decide, by decide⟩, trivial, rfl⟩
  have hgrandchild : Session d t₂ t₃ := .step (hown d t₂ true) hfault' .nil
  have hchild : Session c' t₁ u' := .child hfork' hgrandchild hexit' hreap' .nil
  exact ⟨hfork, .step (hown c' t' false) hfault hchild, hexit, hreap⟩

theorem bootMemory_ahead : bootMemory.Ahead 0 where
  free := by decide +kernel
  fits i _ := by
    change (if i < 4096 then 1 else 0) < 255
    split
    · decide
    · decide
  small := by decide

end Generations

/-! ### Sessions from any state -/

section Theorems

variable {b s t u v w : Memory} {pid child ahead : ℕ} {ops : List MemoryOp}

end Theorems


end Onixs
