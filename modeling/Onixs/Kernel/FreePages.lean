import Mathlib.Algebra.BigOperators.Group.Finset.Basic
import Mathlib.Order.Interval.Finset.Nat
import Onixs.Kernel.KernelMap
import Onixs.Kernel.PageRun

/-!
# The counter of free pages

`free_pages` and `memory_map` from boot on. `memory_init` counts every page of memory as free,
`memory_map_init` takes the pages of the map itself away, and `mapping_init` marks the rest of the
kernel's memory in `memory_map` without taking it from the counter. `get_page` and `put_page` move
both together, and `copy_pde` and `page_fault` change counters that are not zero, so that the counter
stays ahead of the map for good, by the pages that `mapping_init` has marked alone
(`Onixs.pageOps_ahead`). `sys_brk` asks the counter.
-/

namespace Onixs

open Bytes

/-! ### Boot -/

/-- `ards_t`. -/
structure Ards where
  /-- First byte, a `uint64`. -/
  base : ℕ
  /-- Number of bytes, a `uint64`. -/
  size : ℕ
  /-- `ZONE_VALID` or `ZONE_RESERVED`. -/
  type : ℕ

namespace Memory

/-- `ZONE_VALID`. -/
def zoneValid : ℕ := 1

/-- The loop of `memory_init` over the zones that the loader lists: `memory_base` and
`memory_size`. -/
def largestZone : List Ards → ℕ → ℕ → ℕ × ℕ
  | [], base, size => (base, size)
  | ptr :: zones, base, size =>
      if ptr.type = zoneValid ∧ size < ptr.size then largestZone zones (u32 ptr.base) (u32 ptr.size)
      else largestZone zones base size

section Init

variable (s : Memory)

/-- `memory_init`. -/
def memoryInit (zones : List Ards) : Option Memory := do
  let (base, size) := largestZone zones 0 0
  assert (base = memoryBase)
  assert (size % pageSize = 0)
  assert (kernelMemorySize ≤ size)
  return { s with totalPages := idx size + idx memoryBase, freePages := idx size }

/-- The inner loop of `mapping_init`: the entries of a table from `tidx` on, for the pages from
`index` on. Page 0 is not mapped. -/
def mapTable (table : ℕ) : ℕ → ℕ → ℕ → Memory → Memory
  | 0, _, _, s => s
  | left + 1, tidx, index, s =>
      mapTable table left (tidx + 1) (index + 1)
        (if index = 0 then s else (s.setWord table tidx (entryInit index)).setCount index 1)

/-- The outer loop of `mapping_init`, over `KERNEL_PAGE_TABLE` from entry `didx` on. -/
def mapTables : ℕ → ℕ → ℕ → Memory → Memory
  | 0, _, _, s => s
  | left + 1, didx, index, s =>
      let table := 2 + didx
      let s := (s.setFrame table fun _ => zeroEntry).setWord kernelPageDir didx (entryInit table)
      mapTables left (didx + 1) (index + 1024) (mapTable table 1024 0 index s)

/-- `mapping_init`. -/
def mappingInit : Memory :=
  let s := s.setFrame kernelPageDir fun _ => zeroEntry
  (mapTables kernelTables 0 0 s).setWord kernelPageDir 1023 (entryInit kernelPageDir)

/-- Boot: `memory_init`, `memory_map_init` and `mapping_init`. -/
def memoryBoot (zones : List Ards) (bits : Bytes) : Option Memory := do
  let s ← s.memoryInit zones
  let s ← s.memoryMapInit bits
  return s.mappingInit

/-- The pages that `get_page` may hand out. -/
def zeroPages : ℕ := ((Finset.Ico s.startPage s.totalPages).filter fun i => s.memoryMap i = 0).card

/-- **The counter is `ahead` pages ahead of the map.** -/
structure Ahead (ahead : ℕ) (s : Memory) : Prop where
  /-- The counter. -/
  free : s.freePages = s.zeroPages + ahead
  /-- No counter of a page is about to wrap. -/
  fits : ∀ i < s.totalPages, s.memoryMap i < 255
  /-- Neither is the counter. -/
  small : s.totalPages + ahead < 4294967296

end Init

/-- A page that `page_fault` copies is not seen through an entry that the copy overwrites. -/
def Keeps (s : Memory) (pid vaddr : ℕ) : Prop :=
  ∀ task table paddr t, s.running pid = some task → s.getEntry task.pde vaddr false = some (table, s) →
    (s.mem table (tidx vaddr)).present = true → s.copyPage task.pde (page (idx vaddr)) = some (paddr, t) →
    (t.mem table (tidx vaddr)).index = (s.mem table (tidx vaddr)).index

section Steps

variable {ahead : ℕ} {s t : Memory}

/-! ### The map and the counter -/

theorem zeroPages_le (s : Memory) : s.zeroPages ≤ s.totalPages - s.startPage :=
  (Finset.card_filter_le _ _).trans (Nat.card_Ico _ _).le

theorem zeroPages_congr (hstart : t.startPage = s.startPage) (htotal : t.totalPages = s.totalPages)
    (hmap : ∀ i < s.totalPages, t.memoryMap i = 0 ↔ s.memoryMap i = 0) : t.zeroPages = s.zeroPages := by
  rw [zeroPages, zeroPages, hstart, htotal]
  exact congrArg Finset.card (Finset.filter_congr fun i hi => hmap i (Finset.mem_Ico.mp hi).2)

@[simp] theorem setCount_self {i n : ℕ} : (s.setCount i n).memoryMap i = n := if_pos rfl

theorem setCount_ne {i j n : ℕ} (hj : j ≠ i) : (s.setCount i n).memoryMap j = s.memoryMap j := if_neg hj

/-- A page that is taken. -/
theorem zeroPages_take {i n : ℕ} (hlo : s.startPage ≤ i) (hhi : i < s.totalPages) (hzero : s.memoryMap i = 0)
    (hn : n ≠ 0) : (s.setCount i n).zeroPages + 1 = s.zeroPages := by
  have herase : (Finset.Ico s.startPage s.totalPages).filter (fun j => (s.setCount i n).memoryMap j = 0)
      = ((Finset.Ico s.startPage s.totalPages).filter fun j => s.memoryMap j = 0).erase i := by
    ext j
    rw [Finset.mem_filter, Finset.mem_erase, Finset.mem_filter]
    by_cases hj : j = i
    · rw [hj, setCount_self]
      simp [hn]
    · rw [setCount_ne hj]
      simp [hj]
  have hmem : i ∈ (Finset.Ico s.startPage s.totalPages).filter fun j => s.memoryMap j = 0 :=
    Finset.mem_filter.mpr ⟨Finset.mem_Ico.mpr ⟨hlo, hhi⟩, hzero⟩
  rw [zeroPages, zeroPages, ← Finset.card_erase_add_one hmem]
  exact congrArg (fun c => Finset.card c + 1) herase

/-- A page that is given back. -/
theorem zeroPages_give {i : ℕ} (hlo : s.startPage ≤ i) (hhi : i < s.totalPages) (hpos : s.memoryMap i ≠ 0) :
    (s.setCount i 0).zeroPages = s.zeroPages + 1 := by
  have htake := zeroPages_take (s := s.setCount i 0) hlo hhi (if_pos rfl) hpos
  have hback : ((s.setCount i 0).setCount i (s.memoryMap i)).memoryMap = s.memoryMap := by
    funext j
    by_cases hj : j = i
    · rw [hj, setCount_self]
    · rw [setCount_ne hj, setCount_ne hj]
  rw [← htake]
  exact congrArg (· + 1) (zeroPages_congr rfl rfl fun j _ => by rw [hback])

variable (h : s.Ahead ahead)

include h

/-- Nothing else of the state matters. -/
theorem Ahead.congr (hstart : t.startPage = s.startPage) (htotal : t.totalPages = s.totalPages)
    (hfree : t.freePages = s.freePages) (hmap : t.memoryMap = s.memoryMap) : t.Ahead ahead := by
  refine ⟨?_, by rw [hmap, htotal]; exact h.fits, by rw [htotal]; exact h.small⟩
  rw [hfree, h.free, zeroPages_congr hstart htotal fun i _ => by rw [hmap]]

theorem Ahead.setWord (frame i : ℕ) (entry : PageEntry) : (s.setWord frame i entry).Ahead ahead :=
  h.congr rfl rfl rfl rfl

theorem Ahead.setFrame (frame : ℕ) (words : ℕ → PageEntry) : (s.setFrame frame words).Ahead ahead :=
  h.congr rfl rfl rfl rfl

/-- The counter of a page and the counter of all are stored. -/
theorem Ahead.store {i n free : ℕ} (hfit : i < s.totalPages → n < 255) (hfree : free = (s.setCount i n).zeroPages + ahead) :
    Ahead ahead { s.setCount i n with freePages := free } := by
  refine ⟨hfree, fun j hj => ?_, h.small⟩
  change (s.setCount i n).memoryMap j < 255
  by_cases hji : j = i
  · rw [hji, setCount_self]
    exact hfit (hji ▸ hj)
  · rw [setCount_ne hji]
    exact h.fits j hj

/-- A counter that is not zero before nor after. -/
theorem Ahead.setCount {i n : ℕ} (hpos : i < s.totalPages → s.memoryMap i ≠ 0 ∧ n ≠ 0 ∧ n < 255) :
    (s.setCount i n).Ahead ahead := by
  have hzero : (s.setCount i n).zeroPages = s.zeroPages := by
    refine zeroPages_congr rfl rfl fun j hlt => ?_
    by_cases hj : j = i
    · obtain ⟨hs, hn, -⟩ := hpos (hj ▸ hlt)
      rw [hj, setCount_self]
      exact iff_of_false hn hs
    · rw [setCount_ne hj]
  exact h.store (fun hi => (hpos hi).2.2) (by rw [hzero]; exact h.free)

/-- **`get_page` moves both.** -/
theorem Ahead.getPage {i : ℕ} (hget : s.getPage = some (i, t)) :
    t.Ahead ahead ∧ s.memoryMap i = 0 ∧ t.memoryMap = (s.setCount i 1).memoryMap := by
  rw [Memory.getPage] at hget
  obtain ⟨i', hfind, hget⟩ := Option.bind_eq_some_iff.mp hget
  obtain ⟨rfl, rfl⟩ := Prod.mk.inj (Option.some.inj hget)
  have hzero : s.memoryMap i' = 0 := by simpa using List.find?_some hfind
  have hmem := List.mem_of_find?_eq_some hfind
  rw [List.mem_range'_1] at hmem
  have htake := zeroPages_take (n := 1) hmem.1 (by omega) hzero Nat.one_ne_zero
  have hle := zeroPages_le s
  have hsmall := h.small
  have hfree := h.free
  refine ⟨h.store (fun _ => by decide) ?_, hzero, rfl⟩
  rw [sub32_of_le (by omega) (by omega)]
  omega

/-- **`put_page` moves both.** -/
theorem Ahead.putPage {i : ℕ} (hput : s.putPage i = some t) : t.Ahead ahead := by
  rw [Memory.putPage] at hput
  obtain ⟨_, hrange, hput⟩ := Option.bind_eq_some_iff.mp hput
  obtain ⟨_, hpos, hput⟩ := Option.bind_eq_some_iff.mp hput
  obtain ⟨_, -, hput⟩ := Option.bind_eq_some_iff.mp hput
  rw [assert_eq_some] at hrange hpos
  obtain rfl := Option.some.inj hput
  have hself : (s.setCount i (s.memoryMap i - 1)).memoryMap i = s.memoryMap i - 1 := if_pos rfl
  rw [hself]
  by_cases hone : s.memoryMap i - 1 = 0
  · rw [if_pos hone, hone]
    have hgive := zeroPages_give hrange.1 hrange.2 (by omega)
    have hle := zeroPages_le (s.setCount i 0)
    have hfree := h.free
    have hsmall := h.small
    change (s.setCount i 0).zeroPages ≤ s.totalPages - s.startPage at hle
    refine h.store (fun _ => by decide) ?_
    change u32 (s.freePages + 1) = _
    rw [u32_of_lt (by omega)]
    omega
  · rw [if_neg hone]
    have hfit := h.fits i hrange.2
    exact h.setCount fun _ => ⟨by omega, hone, by omega⟩

/-! ### What is built of them -/

theorem Ahead.getPte {cr3 vaddr table : ℕ} {create : Bool} (hget : s.getPte cr3 vaddr create = some (table, t)) :
    t.Ahead ahead := by
  rw [Memory.getPte] at hget
  obtain ⟨pde, -, hget⟩ := Option.bind_eq_some_iff.mp hget
  obtain ⟨_, -, hget⟩ := Option.bind_eq_some_iff.mp hget
  by_cases hpres : (s.mem pde (didx vaddr)).present = true
  · rw [if_pos hpres] at hget
    obtain ⟨_, -, hget⟩ := Option.bind_eq_some_iff.mp hget
    obtain ⟨-, rfl⟩ := Prod.mk.inj (Option.some.inj hget)
    exact h
  · rw [if_neg hpres] at hget
    obtain ⟨⟨i, u⟩, hpage, hget⟩ := Option.bind_eq_some_iff.mp hget
    obtain ⟨_, -, hget⟩ := Option.bind_eq_some_iff.mp hget
    obtain ⟨-, rfl⟩ := Prod.mk.inj (Option.some.inj hget)
    exact ((h.getPage hpage).1.setWord _ _ _).setFrame _ _

theorem Ahead.linkPage {cr3 vaddr : ℕ} (hlink : s.linkPage cr3 vaddr = some t) : t.Ahead ahead := by
  rw [Memory.linkPage] at hlink
  obtain ⟨_, -, hlink⟩ := Option.bind_eq_some_iff.mp hlink
  obtain ⟨⟨table, u⟩, hget, hlink⟩ := Option.bind_eq_some_iff.mp hlink
  have hu : u.Ahead ahead := h.getPte hget
  simp only at hlink
  by_cases hpres : (u.mem table (tidx vaddr)).present = true
  · rw [if_pos hpres] at hlink
    obtain rfl := Option.some.inj hlink
    exact hu
  · rw [if_neg hpres] at hlink
    obtain ⟨⟨i, v⟩, hpage, hlink⟩ := Option.bind_eq_some_iff.mp hlink
    obtain rfl := Option.some.inj hlink
    exact (hu.getPage hpage).1.setWord _ _ _

omit h in
/-- Without `create` the tables are read only. -/
theorem getPte_same {cr3 vaddr table : ℕ} (hget : s.getPte cr3 vaddr false = some (table, t)) : t = s := by
  rw [Memory.getPte] at hget
  obtain ⟨pde, -, hget⟩ := Option.bind_eq_some_iff.mp hget
  obtain ⟨_, hpres, hget⟩ := Option.bind_eq_some_iff.mp hget
  have hpres : (s.mem pde (didx vaddr)).present = true := by simpa using hpres
  rw [if_pos hpres] at hget
  obtain ⟨_, -, hget⟩ := Option.bind_eq_some_iff.mp hget
  exact (Prod.mk.inj (Option.some.inj hget)).2.symm

theorem Ahead.copyPage {cr3 vaddr paddr : ℕ} (hcopy : s.copyPage cr3 vaddr = some (paddr, t)) :
    t.Ahead ahead ∧ s.memoryMap paddr = 0 ∧ t.memoryMap = (s.setCount paddr 1).memoryMap := by
  rw [Memory.copyPage] at hcopy
  obtain ⟨⟨i, u⟩, hpage, hcopy⟩ := Option.bind_eq_some_iff.mp hcopy
  obtain ⟨⟨table, v⟩, hget, hcopy⟩ := Option.bind_eq_some_iff.mp hcopy
  obtain ⟨_, -, hcopy⟩ := Option.bind_eq_some_iff.mp hcopy
  obtain ⟨_, -, hcopy⟩ := Option.bind_eq_some_iff.mp hcopy
  obtain ⟨rfl, rfl⟩ := Prod.mk.inj (Option.some.inj hcopy)
  obtain rfl := getPte_same hget
  obtain ⟨hv, hzero, hmap⟩ := h.getPage hpage
  exact ⟨((hv.setWord _ _ _).setFrame _ _).setWord _ _ _, hzero, hmap⟩

omit h in
/-- **`copy_pde` raises counters that are not zero.** -/
theorem Ahead.sharePages {table : ℕ} : ∀ {left i : ℕ} {s t : Memory}, s.Ahead ahead →
    sharePages table left i s = some t → t.Ahead ahead := by
  intro left
  induction left with
  | zero =>
    intro i s t h hshare
    exact Option.some.inj hshare ▸ h
  | succ left ih =>
    intro i s t h hshare
    rw [Memory.sharePages] at hshare
    cases hpres : (s.mem table i).present with
    | false =>
      simp only [hpres, Bool.not_false, reduceIte] at hshare
      exact ih h hshare
    | true =>
      simp only [hpres, Bool.not_true, Bool.false_eq_true, reduceIte] at hshare
      obtain ⟨_, hpos, hshare⟩ := Option.bind_eq_some_iff.mp hshare
      obtain ⟨u, hu, hahead, hmap⟩ : ∃ u, u = (if !(s.mem table i).shared then
          s.setWord table i { s.mem table i with write := false } else s) ∧
          u.Ahead ahead ∧ u.memoryMap = s.memoryMap := by
        refine ⟨_, rfl, ?_, ?_⟩
        · split
          · exact h.setWord _ _ _
          · exact h
        · split
          · rfl
          · rfl
      simp only [hpres] at hu
      rw [← hu] at hshare
      obtain ⟨_, hlt, hshare⟩ := Option.bind_eq_some_iff.mp hshare
      rw [assert_eq_some, setCount_self] at hlt
      rw [assert_eq_some, ← hmap] at hpos
      refine ih (hahead.setCount fun hi => ?_) hshare
      have hfit := hahead.fits _ hi
      omega

omit h in
theorem Ahead.copyTables {cr3 pde : ℕ} : ∀ {left i : ℕ} {s t : Memory}, s.Ahead ahead →
    copyTables cr3 pde left i s = some t → t.Ahead ahead := by
  intro left
  induction left with
  | zero =>
    intro i s t h hcopy
    exact Option.some.inj hcopy ▸ h
  | succ left ih =>
    intro i s t h hcopy
    rw [Memory.copyTables] at hcopy
    cases hpres : (s.mem pde i).present with
    | false =>
      simp only [hpres, Bool.not_false, reduceIte] at hcopy
      exact ih h hcopy
    | true =>
      simp only [hpres, Bool.not_true, Bool.false_eq_true, reduceIte] at hcopy
      obtain ⟨table, -, hcopy⟩ := Option.bind_eq_some_iff.mp hcopy
      obtain ⟨u, hshare, hcopy⟩ := Option.bind_eq_some_iff.mp hcopy
      obtain ⟨⟨paddr, v⟩, hpage, hcopy⟩ := Option.bind_eq_some_iff.mp hcopy
      exact ih (((h.sharePages hshare).copyPage hpage).1.setWord _ _ _) hcopy

theorem Ahead.copyPde {cr3 pde : ℕ} (hcopy : s.copyPde cr3 = some (pde, t)) : t.Ahead ahead := by
  rw [Memory.copyPde] at hcopy
  obtain ⟨⟨k, u⟩, halloc, hcopy⟩ := Option.bind_eq_some_iff.mp hcopy
  obtain ⟨v, htables, hcopy⟩ := Option.bind_eq_some_iff.mp hcopy
  obtain ⟨-, rfl⟩ := Prod.mk.inj (Option.some.inj hcopy)
  have hu : u.Ahead ahead := by
    rw [Memory.allocKpage] at halloc
    obtain ⟨_, -, halloc⟩ := Option.bind_eq_some_iff.mp halloc
    obtain ⟨⟨k', map⟩, -, halloc⟩ := Option.bind_eq_some_iff.mp halloc
    obtain ⟨-, rfl⟩ := Prod.mk.inj (Option.some.inj halloc)
    exact h.congr rfl rfl rfl rfl
  exact Ahead.copyTables ((hu.setFrame _ _).setWord _ _ _) htables

/-- **`page_fault` lowers a counter that is at least two**, that of the page it copies. -/
theorem Ahead.pageFault {pid vaddr : ℕ} {present write : Bool} (hkeep : s.Keeps pid vaddr)
    (hfault : s.pageFault pid vaddr present write = some t) : t.Ahead ahead := by
  rw [Memory.pageFault] at hfault
  obtain ⟨task, hrun, hfault⟩ := Option.bind_eq_some_iff.mp hfault
  cases present with
  | false =>
    simp only [Bool.false_eq_true, reduceIte] at hfault
    obtain ⟨_, -, hlink⟩ := Option.bind_eq_some_iff.mp hfault
    exact h.linkPage hlink
  | true =>
    simp only [reduceIte] at hfault
    obtain ⟨_, -, hfault⟩ := Option.bind_eq_some_iff.mp hfault
    obtain ⟨⟨table, u⟩, hget, hentry⟩ := Option.bind_eq_some_iff.mp hfault
    obtain rfl := getPte_same hget
    clear hfault
    obtain ⟨_, hpres, hfault⟩ := Option.bind_eq_some_iff.mp hentry
    obtain ⟨_, -, hfault⟩ := Option.bind_eq_some_iff.mp hfault
    obtain ⟨_, -, hfault⟩ := Option.bind_eq_some_iff.mp hfault
    obtain ⟨_, hpos, hfault⟩ := Option.bind_eq_some_iff.mp hfault
    have hpres : (u.mem table (tidx vaddr)).present = true := assert_eq_some.mp hpres
    have hpos : 0 < u.memoryMap (u.mem table (tidx vaddr)).index := assert_eq_some.mp hpos
    by_cases hone : u.memoryMap (u.mem table (tidx vaddr)).index = 1
    · rw [if_pos hone] at hfault
      obtain rfl := Option.some.inj hfault
      exact h.setWord _ _ _
    · rw [if_neg hone] at hfault
      obtain ⟨⟨paddr, v⟩, hcopy, hfault⟩ := Option.bind_eq_some_iff.mp hfault
      obtain rfl := Option.some.inj hfault
      obtain ⟨hv, hzero, hmap⟩ := h.copyPage hcopy
      -- the copy is a page that was free, so not the one that is copied
      have hold : v.memoryMap (v.mem table (tidx vaddr)).index
          = u.memoryMap (u.mem table (tidx vaddr)).index := by
        rw [hkeep task table paddr v hrun hget hpres hcopy, hmap]
        refine setCount_ne fun heq => ?_
        rw [heq, hzero] at hpos
        exact Nat.lt_irrefl 0 hpos
      refine Ahead.setWord (s := v.setCount (v.mem table (tidx vaddr)).index
        (v.memoryMap (v.mem table (tidx vaddr)).index - 1)) (hv.setCount fun hi => ?_) _ _ _
      have hfit := hv.fits _ hi
      omega

end Steps

/-- **A copy of user memory keeps the entry of its page**, where the tables are well built. -/
theorem Sound.keeps {s : Memory} (h : s.Sound) {pid vaddr : ℕ} (hlo : userExecAddr ≤ vaddr)
    (hhi : vaddr < userStackTop) : s.Keeps pid vaddr := by
  intro task table paddr t hrun hget hpres hcopy
  rw [userStackTop_eq] at hhi
  have hd := didx_user hlo (by omega)
  have hpage : placeOf pid (page (idx vaddr)) = placeOf pid vaddr := placeOf_page (by omega)
  simp only [placeOf, Prod.mk.injEq, Option.some.injEq, true_and] at hpage
  have hp := pdeOf_of_running hrun
  obtain ⟨-, hpresd, rfl⟩ := h.exact.tables.getPte_false hp (by omega) hget
  have hwalk : s.walk task.pde (page (idx vaddr))
      = some (s.mem (s.mem task.pde (didx vaddr)).index (tidx vaddr)).index := by
    rw [walk_eq_some, hpage.1, hpage.2]
    exact ⟨hpresd, hpres, rfl⟩
  have hent : s.entryAt (placeOf pid vaddr) = some (s.mem (s.mem task.pde (didx vaddr)).index (tidx vaddr)) :=
    entryAt_page.mpr ⟨page_mem_places.mpr ⟨(h.exact.tables.dir hp).1, hd.1, hd.2, tidx_lt _⟩, _, hp, hpresd,
      rfl, hpres⟩
  obtain ⟨-, hhigh, -⟩ := h.exact.tables.high (h.exact.tables.refs hent)
  obtain ⟨-, hTd, hdhigh⟩ := h.exact.tables.table_high hp hd hpresd
  obtain ⟨-, -, hfresh, -, -, -, -, hmem⟩ :=
    h.exact.tables.copyPage hp h.exact.counts hwalk (by rw [hpage.1]; omega) (by omega) hcopy
  rw [hmem _ (by omega), if_neg fun heq => hfresh _ (heq ▸ hTd)]

/-! ### Boot -/

theorem mapTable_sizes {table : ℕ} : ∀ (left tidx index : ℕ) (s : Memory),
    (mapTable table left tidx index s).startPage = s.startPage ∧
      (mapTable table left tidx index s).totalPages = s.totalPages ∧
      (mapTable table left tidx index s).freePages = s.freePages ∧
      ∀ i, (mapTable table left tidx index s).memoryMap i
        = if index ≤ i ∧ i < index + left ∧ i ≠ 0 then 1 else s.memoryMap i := by
  intro left
  induction left with
  | zero =>
    intro tidx index s
    exact ⟨rfl, rfl, rfl, fun i => (if_neg (by omega)).symm⟩
  | succ left ih =>
    intro tidx index s
    rw [mapTable]
    obtain ⟨hstart, htotal, hfree, hmap⟩ := ih (tidx + 1) (index + 1)
      (if index = 0 then s else (s.setWord table tidx (entryInit index)).setCount index 1)
    refine ⟨hstart.trans ?_, htotal.trans ?_, hfree.trans ?_, fun i => (hmap i).trans ?_⟩
    · split <;> rfl
    · split <;> rfl
    · split <;> rfl
    · by_cases hin : index + 1 ≤ i ∧ i < index + 1 + left ∧ i ≠ 0
      · rw [if_pos hin, if_pos (by omega)]
      · rw [if_neg hin]
        by_cases hzero : index = 0
        · rw [if_pos hzero, if_neg (by omega)]
        · rw [if_neg hzero]
          by_cases hi : i = index
          · rw [hi, setCount_self, if_pos (by omega)]
          · rw [setCount_ne hi, if_neg (by omega)]
            rfl

theorem mapTables_sizes : ∀ (left didx index : ℕ) (s : Memory),
    (mapTables left didx index s).startPage = s.startPage ∧
      (mapTables left didx index s).totalPages = s.totalPages ∧
      (mapTables left didx index s).freePages = s.freePages ∧
      ∀ i, (mapTables left didx index s).memoryMap i
        = if index ≤ i ∧ i < index + left * 1024 ∧ i ≠ 0 then 1 else s.memoryMap i := by
  intro left
  induction left with
  | zero =>
    intro didx index s
    exact ⟨rfl, rfl, rfl, fun i => (if_neg (by omega)).symm⟩
  | succ left ih =>
    intro didx index s
    rw [mapTables]
    obtain ⟨hstart, htotal, hfree, hmap⟩ := @mapTable_sizes (2 + didx) 1024 0 index
      ((s.setFrame (2 + didx) fun _ => zeroEntry).setWord kernelPageDir didx (entryInit (2 + didx)))
    obtain ⟨hstart', htotal', hfree', hmap'⟩ := ih (didx + 1) (index + 1024) (mapTable (2 + didx) 1024 0 index
      ((s.setFrame (2 + didx) fun _ => zeroEntry).setWord kernelPageDir didx (entryInit (2 + didx))))
    refine ⟨hstart'.trans hstart, htotal'.trans htotal, hfree'.trans hfree, fun i => (hmap' i).trans ?_⟩
    rw [hmap i]
    by_cases hin : index + 1024 ≤ i ∧ i < index + 1024 + left * 1024 ∧ i ≠ 0
    · rw [if_pos hin, if_pos (by omega)]
    · rw [if_neg hin]
      by_cases hfirst : index ≤ i ∧ i < index + 1024 ∧ i ≠ 0
      · rw [if_pos hfirst, if_pos (by omega)]
      · rw [if_neg hfirst, if_neg (by omega)]
        rfl

theorem setWord_sizes (s : Memory) (frame i : ℕ) (entry : PageEntry) :
    (s.setWord frame i entry).startPage = s.startPage ∧ (s.setWord frame i entry).totalPages = s.totalPages ∧
      (s.setWord frame i entry).freePages = s.freePages ∧ (s.setWord frame i entry).memoryMap = s.memoryMap :=
  ⟨rfl, rfl, rfl, rfl⟩

/-- `mapping_init` marks the kernel's memory, and leaves the counter. -/
theorem mappingInit_sizes (s : Memory) : s.mappingInit.startPage = s.startPage ∧
    s.mappingInit.totalPages = s.totalPages ∧ s.mappingInit.freePages = s.freePages ∧
      ∀ i, s.mappingInit.memoryMap i = if 0 < i ∧ i < 4096 then 1 else s.memoryMap i := by
  obtain ⟨hstart, htotal, hfree, hmap⟩ :=
    mapTables_sizes kernelTables 0 0 (s.setFrame kernelPageDir fun _ => zeroEntry)
  obtain ⟨hstart', htotal', hfree', hmap'⟩ :=
    setWord_sizes (mapTables kernelTables 0 0 (s.setFrame kernelPageDir fun _ => zeroEntry))
      kernelPageDir 1023 (entryInit kernelPageDir)
  rw [mappingInit, hstart', htotal', hfree', hmap']
  refine ⟨hstart, htotal, hfree, fun i => ?_⟩
  rw [hmap, kernelTables_eq]
  by_cases hin : 0 < i ∧ i < 4096
  · rw [if_pos hin, if_pos (by omega)]
  · rw [if_neg hin, if_neg (by omega)]
    rfl

theorem largestZone_lt : ∀ (zones : List Ards) (base size : ℕ), size < 4294967296 →
    (largestZone zones base size).2 < 4294967296 := by
  intro zones
  induction zones with
  | nil => exact fun _ _ h => h
  | cons ptr zones ih =>
    intro base size h
    rw [largestZone]
    split
    · exact ih _ _ (Nat.mod_lt _ (by decide))
    · exact ih _ _ h

/-- **Boot leaves the counter ahead**, by the kernel's pages behind the map. -/
theorem memoryBoot_ahead {s t : Memory} {zones : List Ards} {bits : Bytes}
    (hboot : s.memoryBoot zones bits = some t) :
    t.Ahead (4096 - t.startPage) ∧ 258 ≤ t.startPage ∧ t.startPage ≤ 513 := by
  rw [memoryBoot] at hboot
  obtain ⟨u, hinit, hboot⟩ := Option.bind_eq_some_iff.mp hboot
  obtain ⟨v, hmapinit, hboot⟩ := Option.bind_eq_some_iff.mp hboot
  obtain rfl := Option.some.inj hboot
  -- `memory_init`
  rw [memoryInit] at hinit
  obtain ⟨base, size, hzone⟩ : ∃ base size, largestZone zones 0 0 = (base, size) := ⟨_, _, rfl⟩
  have hlt : size < 4294967296 := by
    have := largestZone_lt zones 0 0 (by decide)
    rwa [hzone] at this
  simp only [hzone] at hinit
  obtain ⟨_, -, hinit⟩ := Option.bind_eq_some_iff.mp hinit
  obtain ⟨_, -, hinit⟩ := Option.bind_eq_some_iff.mp hinit
  obtain ⟨_, hbig, hinit⟩ := Option.bind_eq_some_iff.mp hinit
  rw [assert_eq_some, kernelMemorySize] at hbig
  have hu := Option.some.inj hinit
  have htotal : u.totalPages = size / 4096 + 256 := by rw [← hu]; rfl
  have hfree : u.freePages = size / 4096 := by rw [← hu]; rfl
  -- `memory_map_init`
  have hpages : divRoundUp u.totalPages pageSize = (u.totalPages + 4095) / 4096 :=
    divRoundUp_eq (by decide) (by rw [htotal, pageSize_eq]; omega)
  rw [memoryMapInit, hpages, htotal, hfree, sub32_of_le (by omega) (by omega)] at hmapinit
  simp only [pageSize_eq] at hmapinit
  obtain ⟨⟨k, map⟩, -, hmapinit⟩ := Option.bind_eq_some_iff.mp hmapinit
  have hv := Option.some.inj hmapinit
  have hidx : idx memoryBase = 256 := by decide
  rw [hidx] at hv
  have hvstart : v.startPage = 256 + (size / 4096 + 256 + 4095) / 4096 := by rw [← hv]
  have hvtotal : v.totalPages = size / 4096 + 256 := by rw [← hv, ← htotal]
  have hvfree : v.freePages = size / 4096 - (size / 4096 + 256 + 4095) / 4096 := by rw [← hv]
  have hvmap : ∀ i, v.startPage ≤ i → i < v.totalPages → v.memoryMap i = 0 := by
    intro i hlo hhi
    rw [hvstart] at hlo
    rw [hvtotal] at hhi
    rw [← hv]
    exact (if_neg (by omega)).trans (if_pos (by omega))
  have hvlow : ∀ i < v.startPage, v.memoryMap i = 1 := by
    intro i hi
    rw [hvstart] at hi
    rw [← hv]
    exact if_pos hi
  -- `mapping_init`
  obtain ⟨hstart, hsame, hcount, hmap⟩ := mappingInit_sizes v
  have hzero : v.mappingInit.zeroPages = v.totalPages - 4096 := by
    rw [zeroPages, hstart, hsame]
    have hfilter : (Finset.Ico v.startPage v.totalPages).filter (fun i => v.mappingInit.memoryMap i = 0)
        = Finset.Ico 4096 v.totalPages := by
      ext i
      rw [Finset.mem_filter, Finset.mem_Ico, Finset.mem_Ico, hmap]
      by_cases hi : 0 < i ∧ i < 4096
      · rw [if_pos hi]
        simp only [Nat.one_ne_zero, and_false, false_iff]
        omega
      · rw [if_neg hi]
        constructor
        · rintro ⟨⟨hlo, hhi⟩, -⟩
          exact ⟨by omega, hhi⟩
        · rintro ⟨hlo, hhi⟩
          exact ⟨⟨by omega, hhi⟩, hvmap i (by omega) hhi⟩
    rw [hfilter, Nat.card_Ico]
  refine ⟨⟨?_, fun i hi => ?_, ?_⟩, ?_, ?_⟩
  · rw [hcount, hzero, hstart, hvfree, hvtotal, hvstart]
    omega
  · rw [hsame] at hi
    rw [hmap]
    split
    · decide
    · rcases Nat.lt_or_ge i v.startPage with hlo | hlo
      · rw [hvlow i hlo]
        decide
      · rw [hvmap i hlo hi]
        decide
  · rw [hsame, hstart, hvtotal, hvstart]
    omega
  · rw [hstart, hvstart]
    omega
  · rw [hstart, hvstart]
    omega

/-- **The counter is right**: it is the number of pages that `get_page` may hand out, and `sys_brk`
admits no growth beyond them. -/
def CounterRight (s : Memory) : Prop :=
  s.freePages = s.zeroPages ∧ ∀ pid task brk t, s.running pid = some task → task.brk ≤ brk →
    s.sysBrk pid brk = some (true, t) → idx (brk - task.brk) ≤ s.zeroPages

end Memory

/-- A step of the allocator of pages, or of the rest of the machine. -/
inductive PageOp where
  /-- `get_page`. -/
  | get
  /-- `put_page`, of the address of frame `i`. -/
  | put (i : ℕ)
  /-- `copy_pde`, run by a task with directory `cr3`. -/
  | copy (cr3 : ℕ)
  /-- `page_fault`. -/
  | fault (pid vaddr : ℕ) (present write : Bool)
  /-- Anything else that is stored: pages, the bits of `kernel_map` and `task_table`. -/
  | other (mem : ℕ → ℕ → PageEntry) (kernelMap : Bitmap) (tasks : ℕ → Option Memory.Task)

namespace PageOp

/-- A step, whose result no other step reads. -/
def step (s : Memory) : PageOp → Option (Unit × Memory)
  | get => s.getPage.map fun r => ((), r.2)
  | put i => (s.putPage i).map fun t => ((), t)
  | copy cr3 => (s.copyPde cr3).map fun r => ((), r.2)
  | fault pid vaddr present write => (s.pageFault pid vaddr present write).map fun t => ((), t)
  | other mem kernelMap tasks => some ((), { s with mem := mem, kernelMap := kernelMap, tasks := tasks })

/-- A fault does not overwrite the entry it is about with the copy it makes, as no fault of user memory
does (`Onixs.Memory.Sound.keeps`). -/
def Kept (s : Memory) : PageOp → Prop
  | fault pid vaddr _ _ => s.Keeps pid vaddr
  | _ => True

end PageOp

namespace Memory

/-- **Each step moves the counter with the map.** -/
theorem Ahead.step {ahead : ℕ} {s t : Memory} {op : PageOp} {r : Unit} (h : s.Ahead ahead) (hkept : op.Kept s)
    (hstep : op.step s = some (r, t)) : t.Ahead ahead := by
  cases op with
  | get =>
    obtain ⟨⟨i, u⟩, hget, heq⟩ := Option.map_eq_some_iff.mp hstep
    obtain ⟨-, rfl⟩ := Prod.mk.inj heq
    exact (h.getPage hget).1
  | put i =>
    obtain ⟨u, hput, heq⟩ := Option.map_eq_some_iff.mp hstep
    obtain ⟨-, rfl⟩ := Prod.mk.inj heq
    exact h.putPage hput
  | copy cr3 =>
    obtain ⟨⟨pde, u⟩, hcopy, heq⟩ := Option.map_eq_some_iff.mp hstep
    obtain ⟨-, rfl⟩ := Prod.mk.inj heq
    exact h.copyPde hcopy
  | fault pid vaddr present write =>
    obtain ⟨u, hfault, heq⟩ := Option.map_eq_some_iff.mp hstep
    obtain ⟨-, rfl⟩ := Prod.mk.inj heq
    exact h.pageFault hkept hfault
  | other mem kernelMap tasks =>
    obtain ⟨-, rfl⟩ := Prod.mk.inj (Option.some.inj hstep)
    exact h.congr rfl rfl rfl rfl

end Memory

/-- **The counter of free pages is never right.** From boot on, with any memory that the kernel accepts,
it is ahead of the pages that are free by the pages of the kernel behind the map, and stays so. -/
theorem pageOps_ahead {s t u : Memory} {zones : List Ards} {bits : Bytes}
    (hboot : s.memoryBoot zones bits = some t) {ops : List PageOp}
    (hkept : Run.Along PageOp.step PageOp.Kept t ops) (hrun : Run.exec PageOp.step t ops = some u) :
    ¬u.CounterRight ∧ u.freePages = u.zeroPages + (4096 - t.startPage) ∧ t.startPage ≤ 513 := by
  obtain ⟨hahead, -, hstart⟩ := Memory.memoryBoot_ahead hboot
  have hend := Run.inv_of_exec (Memory.Ahead (4096 - t.startPage))
    (fun _ _ _ _ h hk hstep => h.step hk hstep) ops t u hahead hkept hrun
  refine ⟨fun hright => ?_, hend.free, hstart⟩
  have hfree := hend.free
  rw [hright.1] at hfree
  omega

/-- The zones of a machine of 32 MiB. -/
def smallZones : List Ards := [⟨0x0, 0x9FC00, 1⟩, ⟨0xF0000, 0x10000, 2⟩, ⟨0x100000, 0x1F00000, 1⟩]

theorem smallZones_boot :
    blankMemory.memoryBoot smallZones (fun _ => 0#8) = some (markedMemory 2).mappingInit := by
  have hinit : blankMemory.memoryInit smallZones = some blankMemory := rfl
  rw [Memory.memoryBoot, hinit, Option.bind_eq_bind, Option.bind_some, blankMemory_init]
  rfl

/-- After boot and the first `get_page` of a machine of 32 MiB. -/
theorem pageOps_ahead_get : ∃ u, Run.exec PageOp.step (markedMemory 2).mappingInit [.get] = some u ∧
    ¬u.CounterRight ∧ u.freePages = u.zeroPages + (4096 - (markedMemory 2).mappingInit.startPage) ∧
      (markedMemory 2).mappingInit.startPage ≤ 513 := by
  obtain ⟨hstart, htotal, -, hmap⟩ := Memory.mappingInit_sizes (markedMemory 2)
  obtain ⟨t, ht⟩ : ∃ t, t = (markedMemory 2).mappingInit := ⟨_, rfl⟩
  have hboot := smallZones_boot
  rw [← ht] at hboot hstart htotal hmap ⊢
  have hfind : ∃ i, (List.range' t.startPage (t.totalPages - t.startPage)).find?
      (fun i => t.memoryMap i = 0) = some i := by
    rw [← Option.isSome_iff_exists, List.find?_isSome, hstart, htotal]
    refine ⟨4096, List.mem_range'_1.mpr ⟨by decide, by decide⟩, decide_eq_true ?_⟩
    rw [hmap]
    rfl
  obtain ⟨i, hi⟩ := hfind
  obtain ⟨u, hu⟩ : ∃ u : Memory, u = { t.setCount i 1 with freePages := sub32 t.freePages 1 } := ⟨_, rfl⟩
  have hget : t.getPage = some (i, u) := by
    rw [Memory.getPage, hu]
    exact Option.bind_eq_some_iff.mpr ⟨i, hi, rfl⟩
  have hrun : Run.exec PageOp.step t [.get] = some u := by
    rw [Run.exec_cons]
    exact ⟨(), u, by rw [PageOp.step, hget]; rfl, rfl⟩
  have hkept : Run.Along PageOp.step PageOp.Kept t [.get] := ⟨trivial, fun _ _ _ => trivial⟩
  exact ⟨u, hrun, pageOps_ahead hboot hkept hrun⟩

/-- **A machine of 32 MiB counts 7934 free pages where 4096 are free**, and the first task gets a heap of
4097 pages more. -/
theorem pageOps_overcommit : ∃ t u v,
    blankMemory.memoryBoot smallZones (fun _ => 0#8) = some t ∧
    Run.exec PageOp.step t [.other t.mem t.kernelMap bootMemory.tasks] = some u ∧
    u.freePages = 7934 ∧ u.zeroPages = 4096 ∧
    u.sysBrk 1 (firstTask.brk + 4097 * Memory.pageSize) = some (true, v) ∧ ¬u.CounterRight := by
  obtain ⟨hstart, -, hfree, -⟩ := Memory.mappingInit_sizes (markedMemory 2)
  obtain ⟨t, ht⟩ : ∃ t, t = (markedMemory 2).mappingInit := ⟨_, rfl⟩
  have hboot := smallZones_boot
  rw [← ht] at hboot hstart hfree
  have hahead := (Memory.memoryBoot_ahead hboot).1
  obtain ⟨u, hu⟩ : ∃ u : Memory, u = { t with tasks := bootMemory.tasks } := ⟨_, rfl⟩
  have hufree : u.freePages = 7934 := by
    rw [hu]
    exact hfree
  have hzero : t.zeroPages = 4096 := by
    have hcount := hahead.free
    rw [hstart, hfree] at hcount
    change 7934 = t.zeroPages + (4096 - 258) at hcount
    omega
  have huzero : u.zeroPages = 4096 := by
    rw [hu, ← hzero]
    exact Memory.zeroPages_congr rfl rfl fun _ _ => Iff.rfl
  have hbrk : u.sysBrk 1 (firstTask.brk + 4097 * Memory.pageSize)
      = some (true, u.setTask 1 (some { firstTask with brk := firstTask.brk + 4097 * Memory.pageSize })) := by
    have htask : u.running 1 = some firstTask := by
      rw [hu]
      rfl
    have hbrk : firstTask.brk + 4097 * Memory.pageSize = 0x2004000 := by decide
    rw [hbrk, Memory.sysBrk, htask, hufree, assert_pos (by decide)]
    simp only [Option.bind_eq_bind, Option.bind_some]
    rw [assert_pos (by decide), assert_pos (by decide)]
    rfl
  refine ⟨t, u, _, hboot, ?_, hufree, huzero, hbrk, fun hright => ?_⟩
  · rw [Run.exec_cons]
    exact ⟨(), u, by rw [PageOp.step, hu], rfl⟩
  · have hfree' := hright.1
    rw [hufree, huzero] at hfree'
    exact absurd hfree' (by decide)

end Onixs
