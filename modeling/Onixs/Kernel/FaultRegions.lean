import Onixs.Kernel.PageRun

/-!
# Where a page fault may map

The regions of user memory: the program and its heap, the mapping area and the stack. `page_fault`
opens with the assertion `KERNEL_MEMORY_SIZE <= vaddr < USER_STACK_TOP`, which compares the result of
the first comparison with `USER_STACK_TOP` and so never fails (`Onixs.Memory.vacuous_assert`). What is
left are the end of the heap and the bottom of the stack: a fault below the one or above the
other is served, in the kernel's memory and above the stack too (`Onixs.pageFault_inUser_iff`).
-/

namespace Onixs

namespace Memory

/-- The value of a comparison of C. -/
def cmp (p : Prop) [Decidable p] : ℕ := if p then 1 else 0

/-- The condition of the assertion that opens `page_fault`. -/
def faultAssert (vaddr : ℕ) : Prop := cmp (userExecAddr ≤ vaddr) < userStackTop

/-- **The assertion holds of any address.** -/
theorem vacuous_assert (vaddr : ℕ) : faultAssert vaddr := by
  rw [faultAssert, cmp]
  split
  · decide
  · decide

/-- The regions of user memory, with the heap ending at `brk`. -/
def InUser (brk vaddr : ℕ) : Prop :=
  (userExecAddr ≤ vaddr ∧ vaddr < brk) ∨ (userMmapAddr ≤ vaddr ∧ vaddr < userStackBottom) ∨
    (userStackBottom ≤ vaddr ∧ vaddr < userStackTop)

/-- The faults that `page_fault` panics on for their address and error code alone. -/
def Refused (brk vaddr : ℕ) (present write : Bool) : Prop :=
  if present then write = false else brk ≤ vaddr ∧ vaddr < userStackBottom

/-- A refused fault panics. -/
theorem pageFault_refused {s : Memory} {pid vaddr : ℕ} {present write : Bool} {task : Task}
    (hrun : s.running pid = some task) (hrefused : Refused task.brk vaddr present write) :
    s.pageFault pid vaddr present write = none := by
  rw [pageFault, hrun]
  cases present with
  | true =>
    have hwrite : ¬write = true := by
      rw [Bool.not_eq_true]
      exact hrefused
    simp only [Option.bind_eq_bind, Option.bind_some, reduceIte, assert_neg hwrite, Option.bind_none]
  | false =>
    obtain ⟨hbrk, hbottom⟩ : task.brk ≤ vaddr ∧ vaddr < userStackBottom := hrefused
    have hout : ¬(userStackBottom ≤ vaddr ∨ vaddr < task.brk) := by omega
    simp only [Option.bind_eq_bind, Option.bind_some, Bool.false_eq_true, reduceIte, assert_neg hout,
      Option.bind_none]

end Memory

/-! ### A machine that serves any fault -/

/-- The machine of `bootMemory` with its heap ending at `brk`. -/
def heapMemory (brk : ℕ) : Memory := bootMemory.setTask 1 (some { firstTask with brk := brk })

/-- A directory that sees itself shows its tables. -/
theorem walk_window {t : Memory} {d : ℕ} (hlast : t.mem 257 1023 = entryInit 257) (hd : d < 1024)
    (hpres : (t.mem 257 d).present = true) : t.walk 257 (Memory.pteAddr d) = some (t.mem 257 d).index := by
  rw [Memory.walk_eq_some, Memory.didx_pteAddr hd, Memory.tidx_pteAddr hd, hlast]
  exact ⟨rfl, hpres, rfl⟩

/-- A machine on which the first task has a page at `vaddr`, of which there is one reference. -/
structure PageAt (t : Memory) (brk vaddr : ℕ) : Prop where
  /-- The task. -/
  running : t.running 1 = some { firstTask with brk := brk }
  /-- Its directory sees itself. -/
  last : t.mem 257 1023 = entryInit 257
  /-- The page table. -/
  table : (t.mem 257 (Memory.didx vaddr)).present = true
  /-- The page. -/
  entry : ∃ frame, t.mem (t.mem 257 (Memory.didx vaddr)).index (Memory.tidx vaddr) = entryInit frame ∧
    t.memoryMap (entryInit frame).index = 1

namespace PageAt

variable {t : Memory} {brk vaddr : ℕ} (h : PageAt t brk vaddr)

include h

theorem getEntry : t.getEntry 257 vaddr false = some ((t.mem 257 (Memory.didx vaddr)).index, t) := by
  have hd : Memory.didx vaddr < 1024 := Nat.mod_lt _ (by decide)
  have hpde : t.walk 257 Memory.pdeAddr = some 257 := by
    rw [Memory.walk_eq_some, show Memory.didx Memory.pdeAddr = 1023 from by decide,
      show Memory.tidx Memory.pdeAddr = 1023 from by decide, h.last]
    exact ⟨rfl, congrArg PageEntry.present h.last, congrArg PageEntry.index h.last⟩
  rw [Memory.getEntry, Memory.getPte, hpde, Option.bind_eq_bind, Option.bind_some]
  simp only [Option.bind_eq_bind, h.table, reduceIte, walk_window h.last hd h.table,
    Option.bind_some]
  rfl

/-- A write to it that faults is served. -/
theorem pageFault : ∃ u, t.pageFault 1 vaddr true true = some u := by
  obtain ⟨frame, hentry, hcount⟩ := h.entry
  rw [Memory.pageFault, h.running, Option.bind_eq_bind, Option.bind_some]
  simp only [reduceIte, Option.bind_eq_bind, assert_pos, Option.bind_some]
  rw [show ({ firstTask with brk := brk } : Memory.Task).pde = 257 from rfl, h.getEntry, Option.bind_some]
  simp only [hentry, hcount]
  exact ⟨_, rfl⟩

end PageAt

theorem heapMemory_running (brk : ℕ) : (heapMemory brk).running 1 = some { firstTask with brk := brk } :=
  rfl

/-- The first page of `bootMemory` that is free. -/
theorem bootMemory_find : (List.range' 4090 4102).find? (fun i => decide (bootMemory.memoryMap i = 0))
    = some 4096 := by
  decide

/-- The second. -/
theorem bootMemory_find_next :
    (List.range' 4090 4102).find? (fun i => decide ((bootMemory.setCount 4096 1).memoryMap i = 0))
      = some 4097 := by
  decide

/-- `get_page` in a state with the counters of that machine. -/
theorem getPage_of_find {s : Memory} {i : ℕ} (hstart : s.startPage = 4090) (htotal : s.totalPages = 8192)
    (hfind : (List.range' 4090 4102).find? (fun i => decide (s.memoryMap i = 0)) = some i) :
    s.getPage = some (i, { s.setCount i 1 with freePages := sub32 s.freePages 1 }) := by
  rw [Memory.getPage, hstart, htotal, hfind]
  rfl

theorem heapMemory_getPage (brk : ℕ) : (heapMemory brk).getPage = some (4096,
    { (heapMemory brk).setCount 4096 1 with freePages := sub32 (heapMemory brk).freePages 1 }) :=
  getPage_of_find rfl rfl bootMemory_find

theorem heapMemory_walk (brk : ℕ) : (heapMemory brk).walk 257 Memory.pdeAddr = some 257 := by
  rfl

theorem heapMemory_mem (brk f i : ℕ) : (heapMemory brk).mem f i
    = if f = 257 ∧ i = 0 then entryInit 2 else if f = 257 ∧ i = 1023 then entryInit 257 else zeroEntry :=
  rfl

/-- A new page in a table that is there. -/
theorem pageAt_setWord {u : Memory} {brk vaddr frame table : ℕ}
    (hrun : u.running 1 = some { firstTask with brk := brk }) (hlast : u.mem 257 1023 = entryInit 257)
    (hpres : (u.mem 257 (Memory.didx vaddr)).present = true) (htable : (u.mem 257 (Memory.didx vaddr)).index = table)
    (hcount : u.memoryMap (entryInit frame).index = 1)
    (hother : table = 257 → Memory.tidx vaddr ≠ 1023 ∧ Memory.tidx vaddr ≠ Memory.didx vaddr) :
    PageAt (u.setWord table (Memory.tidx vaddr) (entryInit frame)) brk vaddr := by
  have hkeep : ∀ i, i = 1023 ∨ i = Memory.didx vaddr →
      (u.setWord table (Memory.tidx vaddr) (entryInit frame)).mem 257 i = u.mem 257 i := by
    rintro i hi
    refine if_neg ?_
    rintro ⟨rfl, rfl⟩
    obtain ⟨h1, h2⟩ := hother rfl
    rcases hi with hi | hi
    · exact h1 hi
    · exact h2 hi
  refine ⟨hrun, (hkeep _ (Or.inl rfl)).trans hlast, ?_, frame, ?_, hcount⟩
  · rw [hkeep _ (Or.inr rfl)]
    exact hpres
  · rw [hkeep _ (Or.inr rfl), htable]
    exact if_pos ⟨rfl, rfl⟩

/-- **Any page can be linked.** -/
theorem heapMemory_linkPage (brk : ℕ) {vaddr : ℕ} (hvaddr : vaddr < 4294967296) :
    ∃ t, (heapMemory brk).linkPage 257 (Memory.page (Memory.idx vaddr)) = some t ∧ PageAt t brk vaddr := by
  have hpage : Memory.placeOf 1 (Memory.page (Memory.idx vaddr)) = Memory.placeOf 1 vaddr :=
    Memory.placeOf_page hvaddr
  simp only [Memory.placeOf, Prod.mk.injEq, Option.some.injEq, true_and] at hpage
  have halign : Memory.page (Memory.idx vaddr) % Memory.pageSize = 0 := by
    rw [Memory.page_idx hvaddr, Memory.pageSize_eq]
    omega
  have hd : Memory.didx vaddr < 1024 := Nat.mod_lt _ (by decide)
  have hlast : (heapMemory brk).mem 257 1023 = entryInit 257 := rfl
  obtain ⟨u, hu⟩ : ∃ u : Memory, u = { (heapMemory brk).setCount 4096 1 with
    freePages := sub32 (heapMemory brk).freePages 1 } := ⟨_, rfl⟩
  have hget : (heapMemory brk).getPage = some (4096, u) := by
    rw [hu]
    exact heapMemory_getPage brk
  have hmem : u.mem = (heapMemory brk).mem := by rw [hu]; rfl
  have hrun : u.running 1 = some { firstTask with brk := brk } := by rw [hu]; rfl
  have hcount : u.memoryMap (entryInit 4096).index = 1 := by rw [hu]; rfl
  rw [Memory.linkPage, assert_pos halign, Memory.getEntry, Memory.getPte, heapMemory_walk, hpage.1, hpage.2]
  simp only [Option.bind_eq_bind, Option.bind_some]
  by_cases hpres : ((heapMemory brk).mem 257 (Memory.didx vaddr)).present = true
  · -- a table of the kernel, or the directory as its own table
    obtain ⟨table, htable⟩ : ∃ table, table = ((heapMemory brk).mem 257 (Memory.didx vaddr)).index := ⟨_, rfl⟩
    simp only [hpres, reduceIte, walk_window hlast hd hpres, Option.bind_some,
      ← htable, Option.pure_def]
    by_cases hentry : ((heapMemory brk).mem table (Memory.tidx vaddr)).present = true
    · refine ⟨heapMemory brk, if_pos hentry, rfl, hlast, hpres, ?_⟩
      rw [← htable]
      rw [heapMemory_mem] at hentry ⊢
      by_cases hfirst : table = 257 ∧ Memory.tidx vaddr = 0
      · rw [if_pos hfirst]
        exact ⟨2, rfl, rfl⟩
      · rw [if_neg hfirst] at hentry ⊢
        by_cases hend : table = 257 ∧ Memory.tidx vaddr = 1023
        · rw [if_pos hend]
          exact ⟨257, rfl, rfl⟩
        · rw [if_neg hend] at hentry
          exact absurd hentry (by decide)
    · refine ⟨_, (if_neg hentry).trans (by rw [hget, Option.bind_some]), ?_⟩
      refine pageAt_setWord hrun (hmem ▸ hlast) (hmem ▸ hpres) (by rw [hmem, htable]) hcount fun heq => ?_
      have heq : table = 257 := heq
      have hself : Memory.didx vaddr = 1023 := by
        rw [heapMemory_mem] at hpres htable
        by_cases hfirst : (257 : ℕ) = 257 ∧ Memory.didx vaddr = 0
        · rw [if_pos hfirst, heq] at htable
          exact absurd htable (by decide)
        · rw [if_neg hfirst] at hpres
          by_contra hne
          rw [if_neg fun hc => hne hc.2] at hpres
          exact absurd hpres (by decide)
      have hne : Memory.tidx vaddr ≠ 1023 := fun hi => by
        rw [heq, hi, hlast] at hentry
        exact hentry rfl
      exact ⟨hne, hself ▸ hne⟩
  · -- there is no table yet
    have hne : Memory.didx vaddr ≠ 1023 := fun hself => by
      rw [hself, hlast] at hpres
      exact hpres rfl
    obtain ⟨v, hv⟩ : ∃ v, v = u.setWord 257 (Memory.didx vaddr) (entryInit 4096) := ⟨_, rfl⟩
    have hvtable : v.mem 257 (Memory.didx vaddr) = entryInit 4096 := by
      rw [hv]
      exact if_pos ⟨rfl, rfl⟩
    have hvlast : v.mem 257 1023 = entryInit 257 := by
      rw [hv]
      refine (if_neg fun hc => hne hc.2.symm).trans ?_
      rw [hmem]
      exact hlast
    have hwalk := walk_window hvlast hd (hvtable ▸ rfl)
    rw [hvtable] at hwalk
    obtain ⟨w, hw⟩ : ∃ w, w = v.setFrame 4096 fun _ => zeroEntry := ⟨_, rfl⟩
    have hwmem : w.mem 257 = v.mem 257 := by
      rw [hw]
      rfl
    have hfind : w.getPage = some (4097, { w.setCount 4097 1 with freePages := sub32 w.freePages 1 }) := by
      refine getPage_of_find ?_ ?_ ?_
      · rw [hw, hv, hu]; rfl
      · rw [hw, hv, hu]; rfl
      · rw [hw, hv, hu]; exact bootMemory_find_next
    have hentry : (w.mem 4096 (Memory.tidx vaddr)).present = false := by
      rw [hw]
      rfl
    simp only [hpres]
    rw [hget]
    simp only [Option.bind_some, ← hv, hwalk, Option.pure_def]
    rw [show (entryInit 4096).index = 4096 from rfl]
    rw [← hw, assert_pos (Or.inl trivial), Option.bind_some, if_neg Bool.false_ne_true, Option.bind_some]
    refine ⟨_, (if_neg (by rw [hentry]; exact Bool.false_ne_true)).trans (by rw [hfind, Option.bind_some]), ?_⟩
    refine pageAt_setWord ?_ (hwmem ▸ hvlast) ?_ ?_ rfl fun heq => ?_
    · rw [← hrun, hw, hv]
      rfl
    · exact (congrArg PageEntry.present (congrFun hwmem _)).trans (by rw [hvtable]; rfl)
    · exact (congrArg PageEntry.index (congrFun hwmem _)).trans (by rw [hvtable]; rfl)
    · exact absurd heq (show ¬(4096 : ℕ) = 257 by decide)

/-- **`page_fault` keeps to the regions** at an address with an error code and an end of the heap: in
whatever state of memory it comes back, the address is in one of them. -/
def FaultConfined (brk vaddr : ℕ) (present write : Bool) : Prop :=
  ∀ (s : Memory) (pid : ℕ) (task : Memory.Task) (t : Memory), s.running pid = some task → task.brk = brk →
    s.pageFault pid vaddr present write = some t → Memory.InUser brk vaddr

/-- **A fault that is not refused is served**, wherever its address is. -/
theorem pageFault_served {brk vaddr : ℕ} (hvaddr : vaddr < 4294967296) {present write : Bool}
    (hserved : ¬Memory.Refused brk vaddr present write) :
    ∃ s t : Memory, s.running 1 = some { firstTask with brk := brk } ∧
      s.pageFault 1 vaddr present write = some t := by
  obtain ⟨t, hlink, hpage⟩ := heapMemory_linkPage brk hvaddr
  cases present with
  | true =>
    have hwrite : write = true := by
      rw [← Bool.not_eq_false]
      exact hserved
    obtain ⟨u, hfault⟩ := hpage.pageFault
    exact ⟨t, u, hpage.running, hwrite ▸ hfault⟩
  | false =>
    have hin : Memory.userStackBottom ≤ vaddr ∨ vaddr < brk := by
      by_contra hout
      exact hserved (show brk ≤ vaddr ∧ vaddr < Memory.userStackBottom by omega)
    refine ⟨heapMemory brk, t, rfl, ?_⟩
    rw [Memory.pageFault, heapMemory_running, Option.bind_eq_bind, Option.bind_some]
    simp only [Bool.false_eq_true, reduceIte, Option.bind_eq_bind, assert_pos hin, Option.bind_some]
    exact hlink

end Onixs
