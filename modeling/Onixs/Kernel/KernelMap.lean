import Onixs.Common.Run
import Onixs.Kernel.Memory

/-!
# The regions of the kernel's memory

`kernel_map` covers all of the kernel's memory from `MEMORY_BASE` on, and so the buffer
cache and the memory disk too, which lie at fixed addresses behind the first eight MiB.
`memory_map_init` marks the pages of `memory_map` and no others. First fit keeps the pages
that `alloc_kpage` hands out below the buffer cache for as long as there is room there, and
no longer (`Onixs.kpageRun_apart_iff`).
-/

namespace Onixs

open Bytes

namespace Memory

variable (s : Memory)

/-- `MEMORY_BASE`. -/
def memoryBase : ℕ := 0x100000

/-- `KERNEL_MEMORY_SIZE`. -/
def kernelMemorySize : ℕ := 0x1000000

/-- `KERNEL_BUFFER_MEM`. -/
def kernelBufferMem : ℕ := 0x800000

/-- `KERNEL_BUFFER_SIZE`. -/
def kernelBufferSize : ℕ := 0x400000

/-- `KERNEL_RAMDISK_MEM`. -/
def kernelRamdiskMem : ℕ := kernelBufferMem + kernelBufferSize

/-- `KERNEL_RAMDISK_SIZE`. -/
def kernelRamdiskSize : ℕ := 0x400000

/-- `memory_map_init`. What lies at `KERNEL_MAP_BITS` is `bits`, and is overwritten. -/
def memoryMapInit (bits : Bytes) : Option Memory := do
  let memoryMapPages := divRoundUp s.totalPages pageSize
  let startPage := idx memoryBase + memoryMapPages
  let length := (idx kernelMemorySize - idx memoryBase) / 8
  let (_, map) ← bitmapScan (bitmapInit bits length length (idx memoryBase)) memoryMapPages
  return { s with
    freePages := sub32 s.freePages memoryMapPages
    memoryMap := fun i =>
      if i < startPage then 1 else if i < memoryMapPages * pageSize then 0 else s.memoryMap i
    startPage := startPage
    kernelMap := map }

/-- A range of pages does not meet the region of `size` bytes from `base` on. -/
def Apart (index count base size : ℕ) : Prop :=
  ∀ addr, index * pageSize ≤ addr → addr < (index + count) * pageSize →
    ¬(base ≤ addr ∧ addr < base + size)

/-- The `count` pages from `index` on are in `kernel_map`, and free. -/
def FreePages (index count : ℕ) : Prop :=
  idx memoryBase ≤ index ∧ index + count ≤ idx kernelMemorySize ∧
    ClearRun s.kernelMap.bits (index - idx memoryBase) count

end Memory

/-- A call to the allocator of kernel pages. -/
inductive KpageOp where
  /-- `alloc_kpage`. -/
  | alloc (count : ℕ)
  /-- `free_kpage`, of the address of page `index`. -/
  | free (index count : ℕ)

namespace KpageOp

/-- A call. The result is the range that is handed out, if any. -/
def step (s : Memory) : KpageOp → Option (Option (ℕ × ℕ) × Memory)
  | alloc count => (s.allocKpage count).map fun r => (some (r.1, count), r.2)
  | free index count => (s.freeKpage index count).map fun t => (none, t)

/-- What the call hands out meets neither the buffer cache nor the memory disk. -/
def Clear (s : Memory) (op : KpageOp) : Prop :=
  ∀ index count t, step s op = some (some (index, count), t) →
    Memory.Apart index count Memory.kernelBufferMem Memory.kernelBufferSize ∧
      Memory.Apart index count Memory.kernelRamdiskMem Memory.kernelRamdiskSize

/-- There is room for the pages below the buffer cache, or nowhere. -/
def Below (s : Memory) : KpageOp → Prop
  | alloc count =>
      (∃ index, s.FreePages index count ∧ (index + count) * Memory.pageSize ≤ Memory.kernelBufferMem) ∨
        ¬∃ index, s.FreePages index count
  | free _ _ => True

end KpageOp

namespace Memory

/-- **The shape of `kernel_map`.** -/
structure Kmap (s : Memory) : Prop where
  /-- Its first page. -/
  offset : s.kernelMap.offset = 256
  /-- Its length. -/
  length : s.kernelMap.length = 480
  /-- The bytes are there. -/
  size : s.kernelMap.size = 480

section Shape

variable {s t : Memory} {index count : ℕ}

theorem Kmap.wf (h : s.Kmap) : s.kernelMap.WF :=
  ⟨by rw [h.length, h.size], by rw [h.length, h.offset]; decide⟩

theorem Kmap.init {bits : Bytes} (hinit : s.memoryMapInit bits = some t) : t.Kmap := by
  rw [memoryMapInit] at hinit
  simp only at hinit
  obtain ⟨⟨k, map⟩, hscan, hinit⟩ := Option.bind_eq_some_iff.mp hinit
  obtain rfl := Option.some.inj hinit
  obtain ⟨hoff, hsize⟩ := bitmapScan_same hscan
  have hpages : (idx kernelMemorySize - idx memoryBase) / 8 = 480 := by decide
  exact ⟨hoff, (bitmapScan_length hscan).trans hpages, hsize.trans hpages⟩

/-- **What `alloc_kpage` finds and marks.** -/
theorem Kmap.allocKpage_first (h : s.Kmap) (halloc : s.allocKpage count = some (index, t)) :
    ∃ p, index = p + 256 ∧ p + count ≤ 3840 ∧ ClearRun s.kernelMap.bits p count ∧
      (∀ q < p, ¬ClearRun s.kernelMap.bits q count) ∧
      t = { s with kernelMap := { s.kernelMap with bits := setRun s.kernelMap.bits p count } } := by
  rw [Memory.allocKpage] at halloc
  obtain ⟨_, hcount, halloc⟩ := Option.bind_eq_some_iff.mp halloc
  obtain ⟨⟨index', map⟩, hscan, halloc⟩ := Option.bind_eq_some_iff.mp halloc
  obtain ⟨rfl, rfl⟩ := Prod.mk.inj (Option.some.inj halloc)
  obtain ⟨_, -, hscan⟩ := Option.bind_eq_some_iff.mp hscan
  obtain ⟨⟨index, map'⟩, hbitmap, hscan⟩ := Option.bind_eq_some_iff.mp hscan
  obtain ⟨_, hne, hscan⟩ := Option.bind_eq_some_iff.mp hscan
  obtain ⟨rfl, rfl⟩ := Prod.mk.inj (Option.some.inj hscan)
  obtain ⟨p, rfl, hfit, hclear, hleast, rfl⟩ :=
    bitmapScan_first h.wf (assert_eq_some.mp hcount) hbitmap (assert_eq_some.mp hne)
  rw [h.length] at hfit
  exact ⟨p, by rw [h.offset], hfit, hclear, hleast, rfl⟩

/-- What `alloc_kpage` hands out is the first run of free pages. -/
theorem Kmap.allocKpage (h : s.Kmap) (halloc : s.allocKpage count = some (index, t)) :
    s.FreePages index count ∧ (∀ i < index, ¬s.FreePages i count) ∧ t.Kmap := by
  obtain ⟨p, rfl, hfit, hclear, hleast, rfl⟩ := h.allocKpage_first halloc
  refine ⟨⟨Nat.le_add_left _ _, ?_, ?_⟩, fun i hi hfree => ?_, h.offset, h.length, h.size⟩
  · rw [show idx kernelMemorySize = 4096 from rfl]
    omega
  · rwa [show idx memoryBase = 256 from rfl, Nat.add_sub_cancel]
  · obtain ⟨hlo, -, hrun⟩ := hfree
    rw [show idx memoryBase = 256 from rfl] at hlo hrun
    exact hleast (i - 256) (by omega) hrun

/-- A page that is free behind the call was free before, and is none of those handed out. -/
theorem Kmap.freePages_alloc (h : s.Kmap) (halloc : s.allocKpage count = some (index, t)) (i : ℕ) :
    t.FreePages i 1 ↔ s.FreePages i 1 ∧ (i < index ∨ index + count ≤ i) := by
  obtain ⟨p, rfl, -, -, -, rfl⟩ := h.allocKpage_first halloc
  rw [FreePages, FreePages, show idx memoryBase = 256 from rfl, and_assoc, and_assoc]
  refine and_congr_right fun hi => and_congr_right fun _ => ?_
  constructor
  · intro hclear
    have hbit := hclear (i - 256) (le_refl _) (by omega)
    rw [bitOf_setRun] at hbit
    split at hbit
    · cases hbit
    · refine ⟨fun g hg hg' => ?_, by omega⟩
      rwa [show g = i - 256 by omega]
  · rintro ⟨hclear, hout⟩ g hg hg'
    rw [bitOf_setRun, if_neg (by omega)]
    exact hclear g hg hg'

/-- With a run of free pages `alloc_kpage` succeeds. -/
theorem Kmap.exists_allocKpage (h : s.Kmap) (hcount : 0 < count) (hfree : s.FreePages index count) :
    ∃ i t, s.allocKpage count = some (i, t) := by
  obtain ⟨hlo, hhi, hrun⟩ := hfree
  rw [show idx memoryBase = 256 from rfl] at hlo hrun
  rw [show idx kernelMemorySize = 4096 from rfl] at hhi
  obtain ⟨r, -, hfirst⟩ := bitmapScanLoop_start h.wf hcount
  rw [h.length] at hfirst
  cases r with
  | none => exact absurd hrun (hfirst (index - 256) (by omega))
  | some p =>
    obtain ⟨hfit, hclear, hleast⟩ := hfirst
    have hscan := bitmapScan_eq_some h.wf hcount (h.length ▸ hfit) hclear hleast
    have hne : p + s.kernelMap.offset ≠ EOF := by
      rw [h.offset, EOF]
      omega
    refine ⟨p + s.kernelMap.offset,
      { s with kernelMap := { s.kernelMap with bits := setRun s.kernelMap.bits p count } }, ?_⟩
    rw [Memory.allocKpage, scanPage, hscan, assert_pos hcount]
    simp only [Option.bind_eq_bind, Option.bind_some, assert_pos hne]
    rfl

theorem resetPage_same : ∀ (left index : ℕ) (map map' : Bitmap),
    resetPage map index left = some map' →
      map'.offset = map.offset ∧ map'.length = map.length ∧ map'.size = map.size := by
  intro left
  induction left with
  | zero =>
    intro index map map' h
    obtain rfl := Option.some.inj h
    exact ⟨rfl, rfl, rfl⟩
  | succ left ih =>
    intro index map map' h
    obtain ⟨_, -, h⟩ := Option.bind_eq_some_iff.mp h
    obtain ⟨_, -, h⟩ := Option.bind_eq_some_iff.mp h
    obtain ⟨map₁, hset, h⟩ := Option.bind_eq_some_iff.mp h
    obtain ⟨-, -, rfl⟩ := bitmapSet_eq_some hset
    exact ih (index + 1) { map with bits := setBit map.bits (index - map.offset) false } map' h

/-- Pages that are marked are given back, and the marks elsewhere stay. -/
theorem resetPage_marked (left : ℕ) : ∀ (g : ℕ) (map : Bitmap), g + left ≤ 8 * map.length → map.length ≤ map.size →
    (∀ i, g ≤ i → i < g + left → bitOf map.bits i = true) →
    ∃ map', resetPage map (map.offset + g) left = some map' ∧
      ∀ i, i < g ∨ g + left ≤ i → bitOf map'.bits i = bitOf map.bits i := by
  induction left with
  | zero => exact fun g map _ _ _ => ⟨map, rfl, fun _ _ => rfl⟩
  | succ left ih =>
    intro g map hfit hsize hset
    have hg : g / 8 < map.length := by omega
    have hmarked := hset g (le_refl g) (by omega)
    obtain ⟨map', hreset, hrest⟩ := ih (g + 1) { map with bits := setBit map.bits g false }
      (by simp only; omega) hsize fun i hi hi' => by
        rw [bitOf_setBit_of_ne _ _ (by omega)]
        exact hset i (by omega) (by omega)
    refine ⟨map', ?_, fun i hi => ?_⟩
    · rw [resetPage, bitmapTest_eq map hg (lt_of_lt_of_le hg hsize), hmarked]
      simp only [Option.bind_eq_bind, Option.bind_some,
        bitmapSet_eq map false (lt_of_lt_of_le hg hsize)]
      exact hreset
    · rw [hrest i (by omega), bitOf_setBit_of_ne _ _ (by omega)]

/-- `free_kpage` of pages that are marked succeeds. -/
theorem Kmap.exists_freeKpage (h : s.Kmap) (hcount : 0 < count) (hlo : 256 ≤ index) (hhi : index + count ≤ 4096)
    (hset : ∀ i, index ≤ i → i < index + count → bitOf s.kernelMap.bits (i - 256) = true) :
    ∃ t, s.freeKpage index count = some t ∧
      ∀ i, 256 ≤ i → i < index ∨ index + count ≤ i → bitOf t.kernelMap.bits (i - 256) = bitOf s.kernelMap.bits (i - 256) := by
  obtain ⟨map, hreset, hrest⟩ := resetPage_marked count (index - 256) s.kernelMap (by rw [h.length]; omega)
    (by rw [h.length, h.size]) fun i hi hi' => by
      have hi'' := hset (i + 256) (by omega) (by omega)
      rwa [Nat.add_sub_cancel] at hi''
  rw [h.offset, Nat.add_sub_cancel' hlo] at hreset
  refine ⟨{ s with kernelMap := map }, ?_, fun i hi hout => hrest (i - 256) (by omega)⟩
  rw [Memory.freeKpage, assert_pos hcount, hreset]
  rfl

theorem Kmap.freeKpage (h : s.Kmap) (hfree : s.freeKpage index count = some t) : t.Kmap := by
  obtain ⟨_, -, hfree⟩ := Option.bind_eq_some_iff.mp hfree
  obtain ⟨map, hreset, hfree⟩ := Option.bind_eq_some_iff.mp hfree
  obtain rfl := Option.some.inj hfree
  obtain ⟨hoff, hlen, hsize⟩ := resetPage_same _ _ _ _ hreset
  exact ⟨hoff.trans h.offset, hlen.trans h.length, hsize.trans h.size⟩

/-! ### The regions -/

/-- A range of `kernel_map` is apart from the regions when it ends in front of them. -/
theorem apart_iff (hcount : 0 < count) (hhi : index + count ≤ 4096) :
    (Apart index count kernelBufferMem kernelBufferSize ∧
      Apart index count kernelRamdiskMem kernelRamdiskSize) ↔
      (index + count) * pageSize ≤ kernelBufferMem := by
  simp only [Apart, kernelBufferMem, kernelBufferSize, kernelRamdiskMem, kernelRamdiskSize, pageSize_eq]
  constructor
  · rintro ⟨hbuffer, hdisk⟩
    by_contra hc
    -- the last page is in one of the regions
    have hb := hbuffer ((index + count - 1) * 4096) (by omega) (by omega)
    have hd := hdisk ((index + count - 1) * 4096) (by omega) (by omega)
    omega
  · intro hend
    exact ⟨fun addr _ haddr => by omega, fun addr _ haddr => by omega⟩

end Shape

/-- **A call hands out pages apart from the regions** exactly when there is room below them. -/
theorem Kmap.clear_iff {s : Memory} (h : s.Kmap) (op : KpageOp) : op.Clear s ↔ op.Below s := by
  cases op with
  | free index count =>
    refine iff_of_true (fun i n t hstep => ?_) trivial
    obtain ⟨u, -, heq⟩ := Option.map_eq_some_iff.mp hstep
    exact absurd (Prod.mk.inj heq).1 (by simp)
  | alloc count =>
    have hstep : ∀ {i n t}, KpageOp.step s (.alloc count) = some (some (i, n), t) →
        n = count ∧ s.allocKpage count = some (i, t) := by
      intro i n t hrun
      obtain ⟨⟨i', t'⟩, halloc, heq⟩ := Option.map_eq_some_iff.mp hrun
      obtain ⟨hpair, rfl⟩ := Prod.mk.inj heq
      obtain ⟨rfl, rfl⟩ := Prod.mk.inj (Option.some.inj hpair)
      exact ⟨rfl, halloc⟩
    rcases Nat.eq_zero_or_pos count with rfl | hcount
    · refine iff_of_true (fun i n t hrun => ?_) (Or.inl ⟨256, ⟨by decide, by decide, ?_⟩, by decide⟩)
      · have halloc := (hstep hrun).2
        rw [Memory.allocKpage, assert_neg (Nat.lt_irrefl 0)] at halloc
        exact absurd halloc (by simp)
      · exact fun i hi hi' => absurd hi' (by omega)
    constructor
    · intro hclear
      by_cases hex : ∃ index, s.FreePages index count
      · obtain ⟨index, hfree⟩ := hex
        obtain ⟨i, t, halloc⟩ := h.exists_allocKpage hcount hfree
        obtain ⟨hfirst, -, -⟩ := h.allocKpage halloc
        have hrun : KpageOp.step s (.alloc count) = some (some (i, count), t) := by
          rw [KpageOp.step, halloc]
          rfl
        exact Or.inl ⟨i, hfirst, (apart_iff hcount hfirst.2.1).mp (hclear i count t hrun)⟩
      · exact Or.inr hex
    · intro hbelow i n t hrun
      obtain ⟨rfl, halloc⟩ := hstep hrun
      obtain ⟨hfirst, hleast, -⟩ := h.allocKpage halloc
      rcases hbelow with ⟨index, hfree, hend⟩ | hnone
      · have hle : i ≤ index := Nat.le_of_not_lt fun hlt => hleast index hlt hfree
        refine (apart_iff hcount hfirst.2.1).mpr (le_trans ?_ hend)
        exact Nat.mul_le_mul_right _ (Nat.add_le_add_right hle _)
      · exact absurd ⟨i, hfirst⟩ hnone

theorem Kmap.step {s t : Memory} {op : KpageOp} {r : Option (ℕ × ℕ)} (h : s.Kmap)
    (hstep : op.step s = some (r, t)) : t.Kmap := by
  cases op with
  | alloc count =>
    obtain ⟨⟨i, u⟩, halloc, heq⟩ := Option.map_eq_some_iff.mp hstep
    obtain ⟨-, rfl⟩ := Prod.mk.inj heq
    exact (h.allocKpage halloc).2.2
  | free index count =>
    obtain ⟨u, hfree, heq⟩ := Option.map_eq_some_iff.mp hstep
    obtain ⟨-, rfl⟩ := Prod.mk.inj heq
    exact h.freeKpage hfree

theorem Kmap.exec {s t : Memory} {ops : List KpageOp} (h : s.Kmap)
    (hrun : Run.exec KpageOp.step s ops = some t) : t.Kmap :=
  Run.inv_of_exec Kmap (fun _ _ _ _ hs _ hstep => hs.step hstep) ops s t h
    (Run.along_of_forall (fun _ _ => trivial) ops s) hrun

end Memory

/-- **The regions stay apart for as long as there is room below them.** In a run of `alloc_kpage` and
`free_kpage` from `memory_map_init` on, no call hands out a page of the buffer cache or of the
memory disk exactly when each call for pages finds room below the buffer cache, or none at
all. -/
theorem kpageRun_apart_iff {s t : Memory} {bits : Bytes} (hinit : s.memoryMapInit bits = some t)
    (ops : List KpageOp) :
    Run.Along KpageOp.step KpageOp.Clear t ops ↔ Run.Along KpageOp.step KpageOp.Below t ops :=
  Run.along_congr Memory.Kmap (fun _ op h => h.clear_iff op) (fun _ _ _ _ h hstep => h.step hstep) ops t
    (.init hinit)

/-- A kernel map whose first `n` pages are marked. -/
def markedMap (n : ℕ) : Bitmap := bitmapMake (setRun (fill (fun _ => 0#8) 0 480 0#8) 0 n) 480 480 256

/-- A machine of 32 MiB whose first `n` kernel pages are marked. -/
def markedMemory (n : ℕ) : Memory where
  mem := fun _ _ => zeroEntry
  memoryMap := fun i => if i < 258 then 1 else 0
  freePages := 7934
  totalPages := 8192
  startPage := 258
  kernelMap := markedMap n
  tasks := fun _ => none

theorem clearRun_markedMap {n s count : ℕ} (hcount : 0 < count) :
    ClearRun (markedMap n).bits s count ↔ n ≤ s := by
  have hbit : ∀ g, bitOf (markedMap n).bits g = decide (g < n) := by
    intro g
    have hzero : bitOf (fill (fun _ => 0#8) 0 480 0#8) g = false :=
      bitOf_eq_false_of_zero (ite_self _)
    rw [markedMap, bitmapMake, bitOf_setRun, hzero]
    simp
  constructor
  · intro h
    have hs := h s (le_refl s) (by omega)
    rw [hbit] at hs
    simpa using hs
  · intro h i hi _
    rw [hbit]
    exact decide_eq_false (by omega)

/-- Pages are found in order. -/
theorem bitmapScan_markedMap {n count : ℕ} (hcount : 0 < count) (hfit : n + count ≤ 3840) :
    bitmapScan (markedMap n) count = some (n + 256, markedMap (n + count)) := by
  have hwf : (markedMap n).WF := ⟨le_refl 480, show 256 + 480 * 8 < 4294967296 by decide⟩
  have hscan := bitmapScan_eq_some hwf hcount hfit ((clearRun_markedMap hcount).mpr (le_refl n))
    fun s' hs' hclear => absurd ((clearRun_markedMap hcount).mp hclear) (by omega)
  have hmap : { markedMap n with bits := setRun (markedMap n).bits n count } = markedMap (n + count) := by
    have hbits := setRun_setRun (fill (fun _ => 0#8) 0 480 0#8) 0 n count
    rw [Nat.zero_add] at hbits
    exact congrArg (fun b => bitmapMake b 480 480 256) hbits
  rw [hmap, show (markedMap n).offset = 256 from rfl] at hscan
  exact hscan

theorem markedMemory_alloc {n count : ℕ} (hcount : 0 < count) (hfit : n + count ≤ 3840) :
    (markedMemory n).allocKpage count = some (n + 256, markedMemory (n + count)) := by
  have hne : n + 256 ≠ EOF := by
    rw [EOF]
    omega
  rw [Memory.allocKpage, Memory.scanPage, assert_pos hcount,
    show (markedMemory n).kernelMap = markedMap n from rfl, bitmapScan_markedMap hcount hfit]
  simp only [Option.bind_eq_bind, Option.bind_some, assert_pos hne]
  rfl

/-- That machine in front of `memory_map_init`. -/
def blankMemory : Memory :=
  { markedMemory 0 with freePages := 7936, memoryMap := fun _ => 0, startPage := 0 }

theorem blankMemory_init : blankMemory.memoryMapInit (fun _ => 0#8) = some (markedMemory 2) := by
  have hpages : divRoundUp blankMemory.totalPages Memory.pageSize = 2 := by decide
  have hlen : (Memory.idx Memory.kernelMemorySize - Memory.idx Memory.memoryBase) / 8 = 480 := by decide
  have hscan : bitmapScan (markedMap 0) 2 = some (0 + 256, markedMap (0 + 2)) :=
    bitmapScan_markedMap (by decide) (by decide)
  rw [Memory.memoryMapInit, hpages, hlen]
  simp only
  rw [show bitmapInit (fun _ => 0#8) 480 480 (Memory.idx Memory.memoryBase) = markedMap 0 from rfl, hscan]
  rw [Option.bind_eq_bind, Option.bind_some]
  refine congrArg some ?_
  have hsub : sub32 blankMemory.freePages 2 = 7934 := by decide
  have hstart : Memory.idx Memory.memoryBase + 2 = 258 := by decide
  rw [hsub, hstart]
  simp only [blankMemory, markedMemory, ite_self]

/-- Where there is room below the regions, the pages handed out are apart from them. -/
theorem kpageRun_apart_first : ∃ t, blankMemory.memoryMapInit (fun _ => 0#8) = some t ∧
    Run.Along KpageOp.step KpageOp.Clear t [.alloc 1] := by
  refine ⟨markedMemory 2, blankMemory_init,
    (kpageRun_apart_iff blankMemory_init _).mpr ⟨?_, fun _ _ _ => trivial⟩⟩
  refine Or.inl ⟨258, ⟨by decide, by decide, ?_⟩, by decide⟩
  exact (clearRun_markedMap (by decide)).mpr (by decide)

/-- **Behind 1790 pages, the next one is the first of the buffer cache.** -/
theorem kpageRun_overlap : ∃ t u, blankMemory.memoryMapInit (fun _ => 0#8) = some t ∧
    KpageOp.step t (.alloc 1790) = some (some (258, 1790), u) ∧
    (∃ v, KpageOp.step u (.alloc 1) = some (some (2048, 1), v)) ∧
    Memory.kernelBufferMem = 2048 * Memory.pageSize ∧
    ¬Run.Along KpageOp.step KpageOp.Clear t [.alloc 1790, .alloc 1] := by
  have hfirst : KpageOp.step (markedMemory 2) (.alloc 1790) = some (some (258, 1790), markedMemory 1792) := by
    rw [KpageOp.step, markedMemory_alloc (by decide) (by decide)]
    rfl
  have hsecond : KpageOp.step (markedMemory 1792) (.alloc 1) = some (some (2048, 1), markedMemory 1793) := by
    rw [KpageOp.step, markedMemory_alloc (by decide) (by decide)]
    rfl
  refine ⟨_, _, blankMemory_init, hfirst, ⟨_, hsecond⟩, by decide, fun halong => ?_⟩
  obtain ⟨hclear, -⟩ := halong.2 _ _ hfirst
  exact (hclear 2048 1 _ hsecond).1 (2048 * Memory.pageSize) (le_refl _) (by decide) ⟨by decide, by decide⟩

end Onixs
