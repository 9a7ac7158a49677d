import Onixs.Common.Run
import Onixs.Kernel.PageRun

/-!
# The ranges of `sys_mmap`

`sys_mmap` checks where a mapping starts, and not where it ends. The bits of `vmap` cover the stack
as well as the mapping area, `bitmap_scan` takes the first room there is, and `bitmap_set` has no upper
bound, so that a mapping may run into the stack, or its bits behind the page they are kept in. Here the
bits are logged as they are stored, whether the buffer has them or not (`Onixs.Memory.sysMmapBits`,
of which `Onixs.Memory.sysMmap` is the part inside of the buffer). Along every run of `sys_mmap` and
`sys_munmap` each mapping is where it should be exactly when its end is
(`Onixs.mmapRun_placed_iff`).
-/

namespace Onixs

open Bytes

/-- `bitmap_set` as the processor executes it: a bit behind the buffer is stored behind the buffer. -/
def bitmapStore (map : Bitmap) (index : ℕ) (value : Bool) : Option Bitmap := do
  assert (map.offset ≤ index)
  let idx := index - map.offset
  return { map with bits := setBit map.bits idx value }

theorem bitmapStore_eq_some {map map' : Bitmap} {index : ℕ} {v : Bool} :
    bitmapStore map index v = some map' ↔
      map.offset ≤ index ∧ map' = { map with bits := setBit map.bits (index - map.offset) v } := by
  rw [bitmapStore]
  constructor
  · intro h
    obtain ⟨_, hlo, h⟩ := Option.bind_eq_some_iff.mp h
    exact ⟨assert_eq_some.mp hlo, (Option.some.inj h).symm⟩
  · rintro ⟨hlo, rfl⟩
    rw [assert_pos hlo]
    rfl

/-- A store in the buffer is one of `bitmap_set`. -/
theorem bitmapSet_eq_store {map map' : Bitmap} {index : ℕ} {v : Bool} :
    bitmapSet map index v = some map' ↔
      bitmapStore map index v = some map' ∧ (index - map.offset) / 8 < map.size := by
  rw [bitmapStore_eq_some]
  constructor
  · intro h
    obtain ⟨hlo, hlt, hmap⟩ := bitmapSet_eq_some h
    exact ⟨⟨hlo, hmap⟩, hlt⟩
  · rintro ⟨⟨hlo, rfl⟩, hlt⟩
    rw [← bitmapSet_eq map v hlt, Nat.add_sub_cancel' hlo]

namespace Memory

variable (s : Memory)

/-- The loop of `sys_mmap` with the bits it stores. -/
def mapPagesBits (cr3 prot flags : ℕ) : ℕ → ℕ → Memory → Bitmap → Option (Memory × Bitmap × List ℕ)
  | 0, _, s, vmap => some (s, vmap, [])
  | left + 1, page, s, vmap => do
      let s ← s.linkPage cr3 page
      let bit := idx page - vmap.offset
      let vmap ← bitmapStore vmap (idx page) true
      let (table, s) ← s.getEntry cr3 page false
      let s := s.setWord table (tidx page) (mmapEntry prot flags (s.mem table (tidx page)))
      let (s, vmap, bits) ← mapPagesBits cr3 prot flags left (u32 (page + pageSize)) s vmap
      return (s, vmap, bit :: bits)

/-- `sys_mmap` with the bits it stores. -/
def sysMmapBits (pid addr length prot flags : ℕ) (file : Option (ℕ → ℕ → Option PageEntry)) :
    Option (ℕ × List ℕ × Memory) := do
  assert (addr % pageSize = 0)
  let count := divRoundUp length pageSize
  let task ← s.running pid
  let (vaddr, vmap) ← mmapAddr task.vmap addr count
  assert (userMmapAddr ≤ vaddr ∧ vaddr < userStackBottom)
  let (s, vmap, bits) ← mapPagesBits task.pde prot flags count vaddr s vmap
  let s := s.setTask pid (some { task with vmap := vmap })
  match file with
  | none => return (vaddr, bits, s)
  | some words =>
      let s ← readPages task.pde words count vaddr s
      return (vaddr, bits, s)

section Bits

variable {s t : Memory} {cr3 prot flags : ℕ}

/-- Nothing here changes `task_table`. -/
theorem getPage_tasks {i : ℕ} (h : s.getPage = some (i, t)) : t.tasks = s.tasks := by
  obtain ⟨_, -, h⟩ := Option.bind_eq_some_iff.mp h
  obtain ⟨-, rfl⟩ := Prod.mk.inj (Option.some.inj h)
  rfl

theorem getPte_tasks {vaddr table : ℕ} {create : Bool} (h : s.getPte cr3 vaddr create = some (table, t)) :
    t.tasks = s.tasks := by
  rw [Memory.getPte] at h
  obtain ⟨pde, -, h⟩ := Option.bind_eq_some_iff.mp h
  obtain ⟨_, -, h⟩ := Option.bind_eq_some_iff.mp h
  by_cases hpres : (s.mem pde (didx vaddr)).present = true
  · rw [if_pos hpres] at h
    obtain ⟨_, -, h⟩ := Option.bind_eq_some_iff.mp h
    obtain ⟨-, rfl⟩ := Prod.mk.inj (Option.some.inj h)
    rfl
  · rw [if_neg hpres] at h
    obtain ⟨⟨i, u⟩, hpage, h⟩ := Option.bind_eq_some_iff.mp h
    obtain ⟨_, -, h⟩ := Option.bind_eq_some_iff.mp h
    obtain ⟨-, rfl⟩ := Prod.mk.inj (Option.some.inj h)
    exact (getPage_tasks hpage :)

theorem linkPage_tasks {vaddr : ℕ} (h : s.linkPage cr3 vaddr = some t) : t.tasks = s.tasks := by
  rw [Memory.linkPage] at h
  obtain ⟨_, -, h⟩ := Option.bind_eq_some_iff.mp h
  obtain ⟨⟨table, u⟩, hget, h⟩ := Option.bind_eq_some_iff.mp h
  have hu : u.tasks = s.tasks := getPte_tasks hget
  simp only at h
  by_cases hpres : (u.mem table (tidx vaddr)).present = true
  · rw [if_pos hpres] at h
    exact Option.some.inj h ▸ hu
  · rw [if_neg hpres] at h
    obtain ⟨⟨i, v⟩, hpage, h⟩ := Option.bind_eq_some_iff.mp h
    obtain rfl := Option.some.inj h
    exact (getPage_tasks hpage).trans hu

theorem unlinkPage_tasks {vaddr : ℕ} (h : s.unlinkPage cr3 vaddr = some t) : t.tasks = s.tasks := by
  rw [Memory.unlinkPage] at h
  obtain ⟨_, -, h⟩ := Option.bind_eq_some_iff.mp h
  obtain ⟨pde, -, h⟩ := Option.bind_eq_some_iff.mp h
  by_cases hdir : (!(s.mem pde (didx vaddr)).present) = true
  · rw [if_pos hdir] at h
    exact Option.some.inj h ▸ rfl
  · rw [if_neg hdir] at h
    obtain ⟨⟨table, u⟩, hget, h⟩ := Option.bind_eq_some_iff.mp h
    have hu : u.tasks = s.tasks := getPte_tasks hget
    simp only at h
    by_cases hpres : (!(u.mem table (tidx vaddr)).present) = true
    · rw [if_pos hpres] at h
      exact Option.some.inj h ▸ hu
    · rw [if_neg hpres] at h
      obtain ⟨_, -, h⟩ := Option.bind_eq_some_iff.mp h
      obtain ⟨_, -, h⟩ := Option.bind_eq_some_iff.mp h
      obtain ⟨_, -, h⟩ := Option.bind_eq_some_iff.mp h
      rw [← Option.some.inj h]
      split
      · exact hu
      · exact hu

theorem readPages_tasks {words : ℕ → ℕ → Option PageEntry} : ∀ (left page : ℕ) (s t : Memory),
    readPages cr3 words left page s = some t → t.tasks = s.tasks := by
  intro left
  induction left with
  | zero => exact fun _ _ _ h => Option.some.inj h ▸ rfl
  | succ left ih =>
    intro page s t h
    obtain ⟨frame, -, h⟩ := Option.bind_eq_some_iff.mp h
    exact (ih (u32 (page + pageSize)) _ t h :)

/-- **What the loop stores**: a bit for each page, one after the other. It ends within the
address space, since `bitmap_set` refuses page 0. -/
theorem mapPagesBits_spec : ∀ (left page : ℕ) (s t : Memory) (vmap vmap' : Bitmap) (bits : List ℕ),
    page % 4096 = 0 → page < 4294967296 → 0 < vmap.offset →
    mapPagesBits cr3 prot flags left page s vmap = some (t, vmap', bits) →
      t.tasks = s.tasks ∧ (0 < left → vmap.offset ≤ idx page ∧ page + left * 4096 ≤ 4294967296) ∧
        bits = List.range' (idx page - vmap.offset) left ∧
        vmap' = { vmap with bits := setRun vmap.bits (idx page - vmap.offset) left } := by
  intro left
  induction left with
  | zero =>
    intro page s t vmap vmap' bits _ _ _ h
    obtain ⟨rfl, heq⟩ := Prod.mk.inj (Option.some.inj h)
    obtain ⟨rfl, rfl⟩ := Prod.mk.inj heq
    exact ⟨rfl, fun h => absurd h (Nat.lt_irrefl 0), rfl, rfl⟩
  | succ left ih =>
    intro page s t vmap vmap' bits halign hpage hoff h
    rw [mapPagesBits] at h
    obtain ⟨u, hlink, h⟩ := Option.bind_eq_some_iff.mp h
    obtain ⟨map, hstore, h⟩ := Option.bind_eq_some_iff.mp h
    obtain ⟨⟨table, v⟩, hget, h⟩ := Option.bind_eq_some_iff.mp h
    obtain ⟨⟨w, map', rest⟩, hrest, h⟩ := Option.bind_eq_some_iff.mp h
    obtain ⟨rfl, heq⟩ := Prod.mk.inj (Option.some.inj h)
    obtain ⟨rfl, rfl⟩ := Prod.mk.inj heq
    obtain ⟨hlo, rfl⟩ := bitmapStore_eq_some.mp hstore
    have htasks : v.tasks = s.tasks := (getPte_tasks hget).trans (linkPage_tasks hlink)
    have hnext : u32 (page + pageSize) % 4096 = 0 ∧ u32 (page + pageSize) < 4294967296 := by
      rw [pageSize_eq, u32]
      omega
    obtain ⟨ht, hrange, hbits, hmap⟩ := ih _ _ _ { vmap with bits := setBit vmap.bits (idx page - vmap.offset) true }
      _ _ hnext.1 hnext.2 hoff hrest
    have hidx : 0 < left → page + (left + 1) * 4096 ≤ 4294967296 ∧ idx (u32 (page + pageSize)) = idx page + 1 := by
      intro hleft
      obtain ⟨hlo', hhi'⟩ := hrange hleft
      simp only [idx, u32, pageSize_eq] at hlo hlo' hhi' ⊢
      omega
    refine ⟨ht.trans htasks, fun _ => ⟨hlo, ?_⟩, ?_, ?_⟩
    · rcases Nat.eq_zero_or_pos left with rfl | hleft
      · omega
      · exact (hidx hleft).1
    · rcases Nat.eq_zero_or_pos left with rfl | hleft
      · rw [hbits]
        rfl
      · rw [hbits, (hidx hleft).2, List.range'_succ, Nat.sub_add_comm hlo]
    · rw [hmap, setRun]
      rcases Nat.eq_zero_or_pos left with rfl | hleft
      · rfl
      · rw [(hidx hleft).2, Nat.sub_add_comm hlo]

/-- The loop inside of the buffer is the one with the log. -/
theorem mapPages_eq_bits : ∀ (left page : ℕ) (s t : Memory) (vmap vmap' : Bitmap),
    mapPages cr3 prot flags left page s vmap = some (t, vmap') ↔
      ∃ bits, mapPagesBits cr3 prot flags left page s vmap = some (t, vmap', bits) ∧
        ∀ b ∈ bits, b / 8 < vmap.size := by
  intro left
  induction left with
  | zero =>
    intro page s t vmap vmap'
    simp only [mapPages, mapPagesBits, Option.some.injEq, Prod.mk.injEq]
    constructor
    · rintro ⟨rfl, rfl⟩
      exact ⟨[], ⟨rfl, rfl, rfl⟩, fun b hb => absurd hb (by simp)⟩
    · rintro ⟨bits, ⟨rfl, rfl, -⟩, -⟩
      exact ⟨rfl, rfl⟩
  | succ left ih =>
    intro page s t vmap vmap'
    constructor
    · intro h
      obtain ⟨u, hlink, h⟩ := Option.bind_eq_some_iff.mp h
      obtain ⟨map, hset, h⟩ := Option.bind_eq_some_iff.mp h
      obtain ⟨⟨table, v⟩, hget, h⟩ := Option.bind_eq_some_iff.mp h
      obtain ⟨hstore, hlt⟩ := bitmapSet_eq_store.mp hset
      obtain ⟨-, hmap⟩ := bitmapStore_eq_some.mp hstore
      obtain ⟨bits, hbits, hin⟩ := (ih _ _ _ _ _).mp h
      refine ⟨(idx page - vmap.offset) :: bits, ?_, fun b hb => ?_⟩
      · rw [mapPagesBits, hlink]
        simp only [Option.bind_eq_bind, Option.bind_some, hstore, hget, hbits]
        rfl
      · rcases List.mem_cons.mp hb with rfl | hb
        · exact hlt
        · have hsize := hin b hb
          rwa [hmap] at hsize
    · rintro ⟨bits, h, hin⟩
      obtain ⟨u, hlink, h⟩ := Option.bind_eq_some_iff.mp h
      obtain ⟨map, hstore, h⟩ := Option.bind_eq_some_iff.mp h
      obtain ⟨⟨table, v⟩, hget, h⟩ := Option.bind_eq_some_iff.mp h
      obtain ⟨⟨w, map', rest⟩, hrest, h⟩ := Option.bind_eq_some_iff.mp h
      obtain ⟨rfl, heq⟩ := Prod.mk.inj (Option.some.inj h)
      obtain ⟨rfl, rfl⟩ := Prod.mk.inj heq
      obtain ⟨-, hmap⟩ := bitmapStore_eq_some.mp hstore
      have hset := bitmapSet_eq_store.mpr ⟨hstore, hin _ (List.mem_cons_self ..)⟩
      have hloop := (ih _ _ _ _ _).mpr ⟨rest, hrest, fun b hb => by
        rw [hmap]
        exact hin b (List.mem_cons_of_mem _ hb)⟩
      rw [mapPages, hlink]
      simp only [Option.bind_eq_bind, Option.bind_some, hset, hget]
      exact hloop

/-- `sys_mmap` step by step, with its log. -/
theorem sysMmapBits_cases {pid addr length vaddr : ℕ} {file : Option (ℕ → ℕ → Option PageEntry)} {bits : List ℕ}
    (hcall : s.sysMmapBits pid addr length prot flags file = some (vaddr, bits, t)) :
    ∃ task vmap vmap' u, addr % pageSize = 0 ∧ s.running pid = some task ∧
      mmapAddr task.vmap addr (divRoundUp length pageSize) = some (vaddr, vmap) ∧
      userMmapAddr ≤ vaddr ∧ vaddr < userStackBottom ∧
      mapPagesBits task.pde prot flags (divRoundUp length pageSize) vaddr s vmap = some (u, vmap', bits) ∧
      ((file = none ∧ t = u.setTask pid (some { task with vmap := vmap' })) ∨ ∃ words,
        file = some words ∧ readPages task.pde words (divRoundUp length pageSize) vaddr
          (u.setTask pid (some { task with vmap := vmap' })) = some t) := by
  rw [sysMmapBits] at hcall
  obtain ⟨_, halign, hcall⟩ := Option.bind_eq_some_iff.mp hcall
  obtain ⟨task, hrun, hcall⟩ := Option.bind_eq_some_iff.mp hcall
  obtain ⟨⟨vaddr', vmap⟩, haddr, hcall⟩ := Option.bind_eq_some_iff.mp hcall
  obtain ⟨_, hrange, hcall⟩ := Option.bind_eq_some_iff.mp hcall
  obtain ⟨⟨u, vmap', bits'⟩, hloop, hcall⟩ := Option.bind_eq_some_iff.mp hcall
  rw [assert_eq_some] at halign hrange
  cases file with
  | none =>
    obtain ⟨rfl, heq⟩ := Prod.mk.inj (Option.some.inj hcall)
    obtain ⟨rfl, rfl⟩ := Prod.mk.inj heq
    exact ⟨task, vmap, vmap', u, halign, hrun, haddr, hrange.1, hrange.2, hloop, Or.inl ⟨rfl, rfl⟩⟩
  | some words =>
    obtain ⟨t', hread, hcall⟩ := Option.bind_eq_some_iff.mp hcall
    obtain ⟨rfl, heq⟩ := Prod.mk.inj (Option.some.inj hcall)
    obtain ⟨rfl, rfl⟩ := Prod.mk.inj heq
    exact ⟨task, vmap, vmap', u, halign, hrun, haddr, hrange.1, hrange.2, hloop,
      Or.inr ⟨words, rfl, hread⟩⟩

/-- **`sys_mmap` inside of the buffer** is the one with the log. -/
theorem sysMmap_eq_bits {pid addr length vaddr : ℕ} {file : Option (ℕ → ℕ → Option PageEntry)}
    {task : Task} (hrun : s.running pid = some task) :
    s.sysMmap pid addr length prot flags file = some (vaddr, t) ↔
      ∃ bits, s.sysMmapBits pid addr length prot flags file = some (vaddr, bits, t) ∧
        ∀ b ∈ bits, b / 8 < task.vmap.size := by
  constructor
  · rw [sysMmap, sysMmapBits, hrun]
    generalize divRoundUp length pageSize = count
    simp only [Option.bind_eq_bind, Option.bind_some]
    intro h
    obtain ⟨_, halign, h⟩ := Option.bind_eq_some_iff.mp h
    obtain ⟨⟨vaddr', vmap⟩, haddr, h⟩ := Option.bind_eq_some_iff.mp h
    obtain ⟨_, hrange, h⟩ := Option.bind_eq_some_iff.mp h
    obtain ⟨⟨u, vmap'⟩, hloop, h⟩ := Option.bind_eq_some_iff.mp h
    obtain ⟨bits, hbits, hin⟩ := (mapPages_eq_bits _ _ _ _ _ _).mp hloop
    rw [(mmapAddr_wf haddr).2] at hin
    rw [halign]
    simp only [Option.bind_some, haddr, hrange, hbits]
    cases file with
    | none =>
      obtain ⟨rfl, rfl⟩ := Prod.mk.inj (Option.some.inj h)
      exact ⟨bits, rfl, hin⟩
    | some words =>
      obtain ⟨t', hread, h⟩ := Option.bind_eq_some_iff.mp h
      obtain ⟨rfl, rfl⟩ := Prod.mk.inj (Option.some.inj h)
      simp only at hread
      exact ⟨bits, by simp only [hread, Option.bind_some, Option.pure_def], hin⟩
  · rintro ⟨bits, h, hin⟩
    obtain ⟨task', vmap, vmap', u, halign, hrun', haddr, hlo, hhi, hloop, hend⟩ := sysMmapBits_cases h
    obtain rfl := Option.some.inj (hrun.symm.trans hrun')
    rw [← (mmapAddr_wf haddr).2] at hin
    have hpages := (mapPages_eq_bits _ _ _ _ _ _).mpr ⟨bits, hloop, hin⟩
    rw [sysMmap, hrun, assert_pos halign]
    generalize divRoundUp length pageSize = count at haddr hpages hend ⊢
    simp only [Option.bind_eq_bind, Option.bind_some, haddr, assert_pos (And.intro hlo hhi), hpages]
    rcases hend with ⟨rfl, rfl⟩ | ⟨words, rfl, hread⟩
    · rfl
    · simp only [hread, Option.bind_some, Option.pure_def]

end Bits

/-! ### Where the bits are -/

/-- The pages that `length` bytes need. -/
def pagesOf (length : ℕ) : ℕ := (length + 4095) / 4096

/-- `div_round_up` is that number, unless it overflows. -/
theorem divRoundUp_pageSize {length : ℕ} (hpos : 0 < length) (hlt : length < 4294967296) :
    divRoundUp length pageSize = pagesOf length ∨
      (divRoundUp length pageSize = 0 ∧ pagesOf length = 1048576) := by
  rw [divRoundUp, sub32, u32, u32, pageSize_eq, pagesOf]
  omega

/-- **The shape of `vmap`**, as `task_to_user_mode` makes it: a page of bits from `USER_MMAP_ADDR` on. -/
structure VmapShape (vmap : Bitmap) : Prop where
  /-- Its first page. -/
  offset : vmap.offset = 32768
  /-- Its length. -/
  length : vmap.length = 4096
  /-- Its buffer. -/
  size : vmap.size = 4096

theorem VmapShape.wf {vmap : Bitmap} (h : VmapShape vmap) : vmap.WF :=
  ⟨by rw [h.length, h.size], by rw [h.length, h.offset]; decide⟩

/-- `task_to_user_mode` makes one. -/
theorem vmapShape_init (bits : Bytes) :
    VmapShape (bitmapInit bits 4096 (0x8000000 / pageSize / 8) (userMmapAddr / pageSize)) :=
  ⟨by rfl, by rfl, rfl⟩

/-- The room `sys_mmap` finds is the first. -/
theorem VmapShape.mmapAddr {vmap vmap' : Bitmap} {count vaddr : ℕ} (h : VmapShape vmap)
    (haddr : mmapAddr vmap 0 count = some (vaddr, vmap')) :
    0 < count ∧ ∃ p, vaddr = (p + 32768) * 4096 ∧ p + count ≤ 32768 ∧ ClearRun vmap.bits p count ∧
      (∀ p' < p, ¬ClearRun vmap.bits p' count) ∧ vmap' = { vmap with bits := setRun vmap.bits p count } := by
  rw [Memory.mmapAddr, if_pos rfl] at haddr
  obtain ⟨⟨index, map⟩, hscan, heq⟩ := Option.map_eq_some_iff.mp haddr
  obtain ⟨rfl, rfl⟩ := Prod.mk.inj heq
  rw [scanPage] at hscan
  obtain ⟨_, hcount, hscan⟩ := Option.bind_eq_some_iff.mp hscan
  obtain ⟨⟨index', map'⟩, hbitmap, hscan⟩ := Option.bind_eq_some_iff.mp hscan
  obtain ⟨_, hne, hscan⟩ := Option.bind_eq_some_iff.mp hscan
  obtain ⟨rfl, rfl⟩ := Prod.mk.inj (Option.some.inj hscan)
  have hcount := assert_eq_some.mp hcount
  obtain ⟨p, rfl, hfit, hclear, hleast, rfl⟩ := bitmapScan_first h.wf hcount hbitmap (assert_eq_some.mp hne)
  rw [h.length] at hfit
  refine ⟨hcount, p, ?_, hfit, hclear, hleast, rfl⟩
  rw [h.offset, page, u32_of_lt (by omega)]

/-- **What a call of `sys_mmap` leaves.** The mapping starts in the mapping area and is where the
caller wants it, or else in the first room of `vmap`; the bits of its pages are set, and no others. -/
theorem sysMmapBits_spec {s t : Memory} {pid addr length prot flags vaddr : ℕ} {bits : List ℕ}
    {file : Option (ℕ → ℕ → Option PageEntry)} {task : Task} (hrun : s.running pid = some task)
    (hshape : VmapShape task.vmap)
    (hcall : s.sysMmapBits pid addr length prot flags file = some (vaddr, bits, t)) :
    (userMmapAddr ≤ vaddr ∧ vaddr < userStackBottom) ∧ vaddr % 4096 = 0 ∧ (addr ≠ 0 → vaddr = addr) ∧
      bits = List.range' (idx vaddr - 32768) (divRoundUp length pageSize) ∧
      (addr = 0 → 0 < divRoundUp length pageSize ∧
        ClearRun task.vmap.bits (idx vaddr - 32768) (divRoundUp length pageSize) ∧
        ∀ p' < idx vaddr - 32768, ¬ClearRun task.vmap.bits p' (divRoundUp length pageSize)) ∧
      ∃ vmap', t.running pid = some { task with vmap := vmap' } ∧ VmapShape vmap' ∧
        ∀ g, bitOf vmap'.bits g
          = if idx vaddr - 32768 ≤ g ∧ g < idx vaddr - 32768 + divRoundUp length pageSize then true
            else bitOf task.vmap.bits g := by
  obtain ⟨task', vmap, vmap', u, halign, hrun', haddr, hlo, hhi, hloop, hend⟩ := sysMmapBits_cases hcall
  obtain rfl := Option.some.inj (hrun.symm.trans hrun')
  have hoff : vmap.offset = 32768 := (mmapAddr_wf haddr).1.trans hshape.offset
  generalize divRoundUp length pageSize = count at haddr hloop hend ⊢
  -- where the mapping starts
  have hstart : vaddr % 4096 = 0 ∧ (addr ≠ 0 → vaddr = addr) ∧
      (addr = 0 → 0 < count ∧ ClearRun task.vmap.bits (idx vaddr - 32768) count ∧
        ∀ p' < idx vaddr - 32768, ¬ClearRun task.vmap.bits p' count) ∧
      VmapShape vmap ∧ ∀ g, ¬(idx vaddr - 32768 ≤ g ∧ g < idx vaddr - 32768 + count) →
        bitOf vmap.bits g = bitOf task.vmap.bits g := by
    by_cases hzero : addr = 0
    · subst hzero
      obtain ⟨hcount, p, rfl, hfit, hclear, hleast, rfl⟩ := hshape.mmapAddr haddr
      have hidx : idx ((p + 32768) * 4096) - 32768 = p := by
        rw [idx]
        omega
      rw [hidx]
      refine ⟨by omega, fun h => absurd rfl h, fun _ => ⟨hcount, hclear, hleast⟩,
        ⟨hshape.offset, hshape.length, hshape.size⟩, fun g hg => ?_⟩
      exact (bitOf_setRun _ _ _ _).trans (if_neg hg)
    · rw [mmapAddr, if_neg hzero] at haddr
      obtain ⟨rfl, rfl⟩ := Prod.mk.inj (Option.some.inj haddr)
      rw [pageSize_eq] at halign
      exact ⟨halign, fun _ => rfl, fun h => absurd h hzero, hshape, fun _ _ => rfl⟩
  obtain ⟨hmod, hwanted, hroom, hvmap, hold⟩ := hstart
  have hvaddr : vaddr < 4294967296 := by
    rw [userStackBottom_eq] at hhi
    omega
  obtain ⟨htasks, -, hbits, hmap⟩ := mapPagesBits_spec count vaddr s u vmap vmap' bits hmod hvaddr
    (by rw [hoff]; decide) hloop
  rw [hoff] at hbits hmap
  have hshape' : VmapShape vmap' := by
    rw [hmap]
    exact ⟨rfl, hvmap.length, hvmap.size⟩
  refine ⟨⟨hlo, hhi⟩, hmod, hwanted, hbits, hroom, vmap', ?_, hshape', fun g => ?_⟩
  · obtain ⟨htask, halive⟩ := running_eq_some.mp hrun
    have hset := running_setTask_self (s := u) (c := pid) { task with vmap := vmap' } halive
    rcases hend with ⟨-, rfl⟩ | ⟨words, -, hread⟩
    · exact hset
    · rw [running_eq_some] at hset ⊢
      rwa [readPages_tasks _ _ _ _ hread]
  · rw [hmap, bitOf_setRun]
    by_cases hg : idx vaddr - 32768 ≤ g ∧ g < idx vaddr - 32768 + count
    · rw [if_pos hg, if_pos hg]
    · rw [if_neg hg, if_neg hg]
      exact hold g hg

/-- **What the loop of `sys_munmap` leaves**: the bits of its pages are clear, and no others. -/
theorem unmapPages_bits {cr3 : ℕ} : ∀ (left page : ℕ) (s t : Memory) (vmap vmap' : Bitmap),
    page < 4294967296 → VmapShape vmap → unmapPages cr3 left page s vmap = some (t, vmap') →
      t.tasks = s.tasks ∧ VmapShape vmap' ∧ ∀ g, bitOf vmap'.bits g
        = if idx page - 32768 ≤ g ∧ g < idx page - 32768 + left then false else bitOf vmap.bits g := by
  intro left
  induction left with
  | zero =>
    intro page s t vmap vmap' _ hshape h
    obtain ⟨rfl, rfl⟩ := Prod.mk.inj (Option.some.inj h)
    exact ⟨rfl, hshape, fun g => (if_neg (by omega)).symm⟩
  | succ left ih =>
    intro page s t vmap vmap' hpage hshape h
    rw [unmapPages] at h
    obtain ⟨u, hunlink, h⟩ := Option.bind_eq_some_iff.mp h
    obtain ⟨used, -, h⟩ := Option.bind_eq_some_iff.mp h
    obtain ⟨_, -, h⟩ := Option.bind_eq_some_iff.mp h
    obtain ⟨map, hset, h⟩ := Option.bind_eq_some_iff.mp h
    obtain ⟨hlo, hlt, rfl⟩ := bitmapSet_eq_some hset
    rw [hshape.offset] at hlo hlt h
    rw [hshape.size] at hlt
    have halign : page % 4096 = 0 := by
      rw [unlinkPage] at hunlink
      obtain ⟨_, ha, -⟩ := Option.bind_eq_some_iff.mp hunlink
      exact assert_eq_some.mp ha
    have hidx : u32 (page + pageSize) < 4294967296 ∧ idx (u32 (page + pageSize)) = idx page + 1 := by
      simp only [idx, u32, pageSize_eq] at hlo hlt ⊢
      omega
    obtain ⟨htasks, hshape', hbits⟩ := ih (u32 (page + pageSize)) u t
      { vmap with bits := setBit vmap.bits (idx page - 32768) false, offset := 32768 } vmap' hidx.1
      ⟨rfl, hshape.length, hshape.size⟩ h
    refine ⟨htasks.trans (unlinkPage_tasks hunlink), hshape', fun g => ?_⟩
    rw [hbits, hidx.2, Nat.sub_add_comm hlo]
    generalize idx page - 32768 = b
    by_cases hg : g = b
    · rw [if_neg (by omega), if_pos (by omega), hg]
      exact bitOf_setBit_self _ _ _
    · by_cases hin : b + 1 ≤ g ∧ g < b + 1 + left
      · rw [if_pos hin, if_pos (by omega)]
      · rw [if_neg hin, if_neg (by omega)]
        exact bitOf_setBit_of_ne _ _ hg

/-- **What a call of `sys_munmap` leaves.** -/
theorem sysMunmap_bits {s t : Memory} {pid addr length : ℕ} {task : Task} (hrun : s.running pid = some task)
    (hshape : VmapShape task.vmap) (hcall : s.sysMunmap pid addr length = some t) :
    32768 ≤ idx addr ∧ ∃ vmap', t.running pid = some { task with vmap := vmap' } ∧ VmapShape vmap' ∧
      ∀ g, bitOf vmap'.bits g
        = if idx addr - 32768 ≤ g ∧ g < idx addr - 32768 + divRoundUp length pageSize then false
          else bitOf task.vmap.bits g := by
  rw [sysMunmap] at hcall
  obtain ⟨task', hrun', hcall⟩ := Option.bind_eq_some_iff.mp hcall
  obtain rfl := Option.some.inj (hrun.symm.trans hrun')
  obtain ⟨_, hrange, hcall⟩ := Option.bind_eq_some_iff.mp hcall
  obtain ⟨_, -, hcall⟩ := Option.bind_eq_some_iff.mp hcall
  obtain ⟨⟨u, vmap'⟩, hloop, hcall⟩ := Option.bind_eq_some_iff.mp hcall
  rw [assert_eq_some, userMmapAddr_eq, userStackBottom_eq] at hrange
  obtain ⟨htasks, hshape', hbits⟩ := unmapPages_bits _ addr s u task.vmap vmap' (by omega) hshape hloop
  obtain rfl := Option.some.inj hcall
  have hlo : 32768 ≤ idx addr := by
    rw [idx]
    omega
  exact ⟨hlo, vmap', running_setTask_self { task with vmap := vmap' } (running_eq_some.mp hrun).2, hshape', hbits⟩

end Memory

/-! ### Runs -/

/-- A call of a task, or a step of the rest of the machine. -/
inductive MmapOp where
  /-- `sys_mmap`. -/
  | mmap (addr length prot flags : ℕ) (file : Option (ℕ → ℕ → Option PageEntry))
  /-- `sys_munmap`. -/
  | munmap (addr length : ℕ)
  /-- Anything else. -/
  | other (next : Memory)

/-- The machine, and the pages that the task has mapped with `sys_mmap` and not unmapped since. -/
structure MmapState where
  /-- The machine. -/
  mem : Memory
  /-- The pages. -/
  pages : List ℕ

namespace MmapOp

/-- A step of task `pid`. The result of `sys_mmap` is the address and the bits it has stored. -/
def step (pid : ℕ) (m : MmapState) : MmapOp → Option (Option (ℕ × List ℕ) × MmapState)
  | mmap addr length prot flags file =>
      (m.mem.sysMmapBits pid addr length prot flags file).map fun r => (some (r.1, r.2.1),
        ⟨r.2.2, List.range' (Memory.idx r.1) (divRoundUp length Memory.pageSize) ++ m.pages⟩)
  | munmap addr length =>
      (m.mem.sysMunmap pid addr length).map fun t => (none, ⟨t, m.pages.filter fun p =>
        ¬(Memory.idx addr ≤ p ∧ p < Memory.idx addr + divRoundUp length Memory.pageSize)⟩)
  | other next => some (none, ⟨next, m.pages⟩)

/-- The arguments are what a register holds, and nobody else changes the `vmap` of the task. -/
def Legal (pid : ℕ) (m : MmapState) : MmapOp → Prop
  | mmap addr length _ _ _ => addr < 4294967296 ∧ 0 < length ∧ length < 4294967296
  | munmap addr length => addr < 4294967296 ∧ length < 4294967296
  | other next => ∃ task task', m.mem.running pid = some task ∧ next.running pid = some task' ∧
      task'.vmap = task.vmap

/-- **A mapping is where it should be**: between the mapping area's start and the stack, its bits in
the buffer of `vmap`, and, where the kernel chooses, apart from the pages that are mapped. -/
def Placed (pid : ℕ) (m : MmapState) : MmapOp → Prop
  | mmap addr length prot flags file => ∀ task vaddr bits next, m.mem.running pid = some task →
      step pid m (mmap addr length prot flags file) = some (some (vaddr, bits), next) →
      (Memory.userMmapAddr ≤ vaddr ∧ vaddr + Memory.pagesOf length * 4096 ≤ Memory.userStackBottom) ∧
      (∀ b ∈ bits, b / 8 < task.vmap.size) ∧
      (addr = 0 → ∀ p ∈ m.pages, ¬(Memory.idx vaddr ≤ p ∧ p < Memory.idx vaddr + Memory.pagesOf length))
  | _ => True

/-- **There is room below the stack**: the address that is asked for leaves it, or there are enough
clear bits in a row. -/
def Fits (pid : ℕ) (m : MmapState) : MmapOp → Prop
  | mmap addr length prot flags file => ∀ task, m.mem.running pid = some task →
      (step pid m (mmap addr length prot flags file)).isSome →
      if addr = 0 then ∃ p, p + Memory.pagesOf length ≤ 32256 ∧ ClearRun task.vmap.bits p (Memory.pagesOf length)
      else addr + Memory.pagesOf length * 4096 ≤ Memory.userStackBottom
  | _ => True

end MmapOp

/-- **The bits of the pages that are mapped are set.** -/
structure MmapHeld (pid : ℕ) (m : MmapState) : Prop where
  /-- The task runs, with a `vmap` of the right shape. -/
  shape : ∃ task, m.mem.running pid = some task ∧ Memory.VmapShape task.vmap
  /-- The bits. -/
  held : ∀ task, m.mem.running pid = some task → ∀ p ∈ m.pages, 32768 ≤ p ∧
    bitOf task.vmap.bits (p - 32768) = true

/-- **Each step keeps the bits.** -/
theorem MmapHeld.step {pid : ℕ} {m n : MmapState} {op : MmapOp} {r : Option (ℕ × List ℕ)} (h : MmapHeld pid m)
    (hlegal : op.Legal pid m) (hstep : op.step pid m = some (r, n)) : MmapHeld pid n := by
  obtain ⟨task, hrun, hshape⟩ := h.shape
  have hheld := h.held task hrun
  cases op with
  | mmap addr length prot flags file =>
    obtain ⟨⟨vaddr, bits, t⟩, hcall, heq⟩ := Option.map_eq_some_iff.mp hstep
    obtain ⟨-, rfl⟩ := Prod.mk.inj heq
    obtain ⟨hrange, hmod, -, -, -, vmap', hrun', hshape', hbits⟩ := Memory.sysMmapBits_spec hrun hshape hcall
    refine ⟨⟨_, hrun', hshape'⟩, fun task' hrun'' p hp => ?_⟩
    obtain rfl := Option.some.inj (hrun'.symm.trans hrun'')
    have hlo : 32768 ≤ Memory.idx vaddr := by
      rw [Memory.userMmapAddr_eq] at hrange
      rw [Memory.idx]
      omega
    change 32768 ≤ p ∧ bitOf vmap'.bits (p - 32768) = true
    rw [hbits]
    change p ∈ List.range' (Memory.idx vaddr) (divRoundUp length Memory.pageSize) ++ m.pages at hp
    rcases List.mem_append.mp hp with hnew | hold
    · rw [List.mem_range'_1] at hnew
      exact ⟨hlo.trans hnew.1, if_pos (by omega)⟩
    · obtain ⟨hp, hbit⟩ := hheld p hold
      refine ⟨hp, ?_⟩
      rw [hbit, ite_self]
  | munmap addr length =>
    obtain ⟨t, hcall, heq⟩ := Option.map_eq_some_iff.mp hstep
    obtain ⟨-, rfl⟩ := Prod.mk.inj heq
    obtain ⟨hstart, vmap', hrun', hshape', hbits⟩ := Memory.sysMunmap_bits hrun hshape hcall
    refine ⟨⟨_, hrun', hshape'⟩, fun task' hrun'' p hp => ?_⟩
    obtain rfl := Option.some.inj (hrun'.symm.trans hrun'')
    obtain ⟨hold, hout⟩ := List.mem_filter.mp hp
    obtain ⟨hlo, hbit⟩ := hheld p hold
    refine ⟨hlo, ?_⟩
    have hout := of_decide_eq_true hout
    change bitOf vmap'.bits (p - 32768) = true
    rw [hbits, if_neg (by omega)]
    exact hbit
  | other next =>
    obtain ⟨-, rfl⟩ := Prod.mk.inj (Option.some.inj hstep)
    obtain ⟨task₁, task₂, hrun₁, hrun₂, hvmap⟩ := hlegal
    obtain rfl := Option.some.inj (hrun.symm.trans hrun₁)
    refine ⟨⟨task₂, hrun₂, hvmap ▸ hshape⟩, fun task' hrun' p hp => ?_⟩
    obtain rfl := Option.some.inj (hrun₂.symm.trans hrun')
    rw [hvmap]
    exact hheld p hp

/-- **A call maps where it should** exactly when there is room below the stack. -/
theorem MmapHeld.placed_iff {pid : ℕ} {m : MmapState} {op : MmapOp} (h : MmapHeld pid m)
    (hlegal : op.Legal pid m) : op.Placed pid m ↔ op.Fits pid m := by
  cases op with
  | munmap addr length => exact Iff.rfl
  | other next => exact Iff.rfl
  | mmap addr length prot flags file =>
    obtain ⟨task, hrun, hshape⟩ := h.shape
    cases hcall : m.mem.sysMmapBits pid addr length prot flags file with
    | none =>
      have hnone : MmapOp.step pid m (.mmap addr length prot flags file) = none := by
        rw [MmapOp.step, hcall]
        rfl
      refine iff_of_true (fun _ _ _ _ _ hstep => ?_) fun _ _ hstep => ?_
      · rw [hnone] at hstep
        exact absurd hstep (by simp)
      · rw [hnone] at hstep
        exact absurd hstep (by simp)
    | some r =>
      obtain ⟨vaddr, bits, t⟩ := r
      obtain ⟨⟨hlo, hhi⟩, hmod, hwanted, hbits, hroom, -⟩ := Memory.sysMmapBits_spec hrun hshape hcall
      have hcount := Memory.divRoundUp_pageSize hlegal.2.1 hlegal.2.2
      have hstep : MmapOp.step pid m (.mmap addr length prot flags file) = some (some (vaddr, bits),
          ⟨t, List.range' (Memory.idx vaddr) (divRoundUp length Memory.pageSize) ++ m.pages⟩) := by
        rw [MmapOp.step, hcall]
        rfl
      rw [Memory.userMmapAddr_eq] at hlo
      -- the range ends where its bits do
      obtain ⟨p, hp⟩ : ∃ p, Memory.idx vaddr = p + 32768 :=
        ⟨Memory.idx vaddr - 32768, by rw [Memory.idx]; omega⟩
      have hvaddr : vaddr = (p + 32768) * 4096 := by
        rw [Memory.idx] at hp
        omega
      rw [hp, Nat.add_sub_cancel] at hbits hroom
      have hend : vaddr + Memory.pagesOf length * 4096 ≤ Memory.userStackBottom ↔
          p + Memory.pagesOf length ≤ 32256 := by
        rw [Memory.userStackBottom_eq]
        omega
      have hinside : p + Memory.pagesOf length ≤ 32256 → ∀ b ∈ bits, b / 8 < task.vmap.size := by
        intro hfit b hb
        rw [hbits, List.mem_range'_1] at hb
        rw [hshape.size]
        omega
      constructor
      · intro hplaced task' hrun' _
        obtain rfl := Option.some.inj (hrun.symm.trans hrun')
        obtain ⟨⟨-, hfit⟩, -, -⟩ := hplaced task vaddr bits _ hrun hstep
        by_cases hzero : addr = 0
        · rw [if_pos hzero]
          obtain ⟨hpos, hclear, -⟩ := hroom hzero
          have hsame : divRoundUp length Memory.pageSize = Memory.pagesOf length := by omega
          exact ⟨p, hend.mp hfit, hsame ▸ hclear⟩
        · rw [if_neg hzero, ← hwanted hzero]
          exact hfit
      · intro hfits task' vaddr' bits' next hrun' hstep'
        obtain rfl := Option.some.inj (hrun.symm.trans hrun')
        obtain ⟨hres, -⟩ := Prod.mk.inj (Option.some.inj (hstep.symm.trans hstep'))
        obtain ⟨rfl, rfl⟩ := Prod.mk.inj (Option.some.inj hres)
        have hfit := hfits task hrun (by rw [hstep]; rfl)
        by_cases hzero : addr = 0
        · rw [if_pos hzero] at hfit
          obtain ⟨q, hq, hclearq⟩ := hfit
          obtain ⟨hpos, hclear, hleast⟩ := hroom hzero
          have hsame : divRoundUp length Memory.pageSize = Memory.pagesOf length := by omega
          rw [hsame] at hclear hleast
          have hpq : p ≤ q := Nat.le_of_not_lt fun hlt => hleast q hlt hclearq
          have hfit : p + Memory.pagesOf length ≤ 32256 := by omega
          refine ⟨⟨by rw [Memory.userMmapAddr_eq]; exact hlo, hend.mpr hfit⟩, hinside hfit,
            fun _ page hpage hin => ?_⟩
          obtain ⟨hpagelo, hset⟩ := h.held task hrun page hpage
          rw [hp] at hin
          rw [hclear (page - 32768) (by omega) (by omega)] at hset
          exact Bool.false_ne_true hset
        · rw [if_neg hzero, ← hwanted hzero] at hfit
          exact ⟨⟨by rw [Memory.userMmapAddr_eq]; exact hlo, hfit⟩, hinside (hend.mp hfit),
            fun h => absurd h hzero⟩

/-- **Every mapping of a run is where it should be** exactly when there was room for each of them below
the stack. -/
theorem mmapRun_placed_iff {pid : ℕ} {m : MmapState} (h : MmapHeld pid m) {ops : List MmapOp}
    (hlegal : Run.Along (MmapOp.step pid) (MmapOp.Legal pid) m ops) :
    Run.Along (MmapOp.step pid) (MmapOp.Placed pid) m ops ↔
      Run.Along (MmapOp.step pid) (MmapOp.Fits pid) m ops :=
  Run.along_congr_of_legal (MmapHeld pid) (fun _ _ hheld hl => hheld.placed_iff hl)
    (fun _ _ _ _ hheld hl _ hstep => hheld.step hl hstep) ops m h hlegal

/-- The machine of `bootMemory`, where the first task has an empty `vmap`. -/
def mmapMemory : Memory :=
  bootMemory.setTask 1 (some { firstTask with vmap := bitmapMake (fun _ => 0#8) 4096 4096 32768 })

theorem mmapMemory_held : MmapHeld 1 ⟨mmapMemory, []⟩ :=
  ⟨⟨_, rfl, rfl, rfl, rfl⟩, fun _ _ _ hp => absurd hp (by simp)⟩

/-- In an empty `vmap` there is room for a page. -/
theorem mmapRun_placed_first :
    Run.Along (MmapOp.step 1) (MmapOp.Placed 1) ⟨mmapMemory, []⟩ [.mmap 0 4096 3 2 none] := by
  have hlegal : Run.Along (MmapOp.step 1) (MmapOp.Legal 1) ⟨mmapMemory, []⟩ [.mmap 0 4096 3 2 none] :=
    ⟨⟨by decide, by decide, by decide⟩, fun _ _ _ => trivial⟩
  refine (mmapRun_placed_iff mmapMemory_held hlegal).mpr ⟨fun task hrun _ => ?_, fun _ _ _ => trivial⟩
  obtain rfl := Option.some.inj ((show mmapMemory.running 1 = _ from rfl).symm.trans hrun)
  refine (if_pos rfl).mpr ⟨0, by decide, fun i _ _ => ?_⟩
  exact bitOf_eq_false_of_zero rfl

/-- **Two pages from the last one below the stack** are mapped, the second in the stack. -/
theorem mmapRun_stack :
    (∃ next, MmapOp.step 1 ⟨mmapMemory, []⟩ (.mmap 0xFDFF000 0x2000 3 2 none)
      = some (some (0xFDFF000, [32255, 32256]), next)) ∧
    Memory.userStackBottom = 0xFDFF000 + 0x1000 ∧
    ¬Run.Along (MmapOp.step 1) (MmapOp.Placed 1) ⟨mmapMemory, []⟩ [.mmap 0xFDFF000 0x2000 3 2 none] := by
  have hcall : (mmapMemory.sysMmapBits 1 0xFDFF000 0x2000 3 2 none).map (fun r => (r.1, r.2.1))
      = some (0xFDFF000, [32255, 32256]) := by
    decide
  obtain ⟨⟨vaddr, bits, t⟩, hr, heq⟩ := Option.map_eq_some_iff.mp hcall
  obtain ⟨rfl, rfl⟩ := Prod.mk.inj heq
  have hstep : ∃ next, MmapOp.step 1 ⟨mmapMemory, []⟩ (.mmap 0xFDFF000 0x2000 3 2 none)
      = some (some (0xFDFF000, [32255, 32256]), next) := by
    rw [MmapOp.step, hr]
    exact ⟨_, rfl⟩
  obtain ⟨next, hnext⟩ := hstep
  refine ⟨⟨next, hnext⟩, by decide, fun halong => ?_⟩
  obtain ⟨⟨-, hfit⟩, -⟩ := halong.1 _ _ _ _ rfl hnext
  exact absurd hfit (by decide)

end Onixs
