import Onixs.Common.Run
import Onixs.Kernel.KernelMap

/-!
# The heap of the kernel

`kernel/arena.c`. An arena is a page, or several, with an `arena_t` at its start. A large one
holds one block; a small one is cut into blocks of one of seven sizes, whose free list goes
through the blocks of all arenas of that size. `Onixs.Heap` has the `arena_t` of each page
and the free lists; a block is its address. That a `list_node_t` of a free block lies in
the block itself is no loss here: only blocks that nobody uses are in a list.

Addresses of pages of `kernel_map` are below 16 MiB, so `PAGE` is a product.
-/

namespace Onixs

open Bytes

/-! ### Descriptors -/

/-- `ONIXS_MAGIC`. -/
def onixsMagic : ℕ := 0xAA5555AA

/-- `DESC_COUNT`. -/
def descCount : ℕ := 7

/-- `descriptor[i].block_size`. -/
def blockBytes (i : ℕ) : ℕ := 16 * 2 ^ i

/-- `descriptor[i].total_block`: `sizeof(arena_t)` is 16. -/
def arenaBlocks (i : ℕ) : ℕ := (4096 - 16) / blockBytes i

/-- `arena_t`. -/
structure Arena where
  /-- The descriptor, or a null pointer. -/
  desc : Option ℕ
  /-- Free blocks of a small arena, pages of a large one. -/
  count : ℕ
  /-- Whether it is large. -/
  large : ℕ
  /-- `ONIXS_MAGIC`. -/
  magic : ℕ

/-- What `memset` leaves. -/
def zeroArena : Arena where
  desc := none
  count := 0
  large := 0
  magic := 0

/-- The kernel's pages and blocks. -/
structure Heap where
  /-- `kernel_map`. -/
  kernelMap : Bitmap
  /-- The `arena_t` at the start of each page. -/
  arenas : ℕ → Arena
  /-- `descriptor[i].free_list`. -/
  freeList : ℕ → List ℕ

namespace Heap

variable (s : Heap)

/-- Store the `arena_t` of a page. -/
def setArena (page : ℕ) (arena : Arena) : Heap :=
  { s with arenas := fun p => if p = page then arena else s.arenas p }

/-- Store a free list. -/
def setFreeList (desc : ℕ) (blocks : List ℕ) : Heap :=
  { s with freeList := fun i => if i = desc then blocks else s.freeList i }

/-- `memset(arena, 0, count * MEMORY_PAGE_SIZE)`. -/
def clearPages (page count : ℕ) : Heap :=
  { s with arenas := fun p => if page ≤ p ∧ p < page + count then zeroArena else s.arenas p }

/-- `alloc_kpage`: the number of the first page. -/
def allocKpage (count : ℕ) : Option (ℕ × Heap) := do
  assert (0 < count)
  let (index, map) ← Memory.scanPage s.kernelMap count
  return (index, { s with kernelMap := map })

/-- `free_kpage`, of the address of page `index`. -/
def freeKpage (index count : ℕ) : Option Heap := do
  assert (0 < count)
  let map ← Memory.resetPage s.kernelMap index count
  return { s with kernelMap := map }

/-- `list_push`. -/
def listPush (desc block : ℕ) : Option Heap := do
  assert (block ∉ s.freeList desc)
  return s.setFreeList desc (block :: s.freeList desc)

/-- `list_pop`. -/
def listPop (desc : ℕ) : Option (ℕ × Heap) :=
  match s.freeList desc with
  | [] => none
  | block :: blocks => some (block, s.setFreeList desc blocks)

/-- `list_remove`, of a node of the list. -/
def listRemove (desc block : ℕ) : Option Heap := do
  assert (block ∈ s.freeList desc)
  return s.setFreeList desc ((s.freeList desc).erase block)

/-- `arena_get_block`. -/
def arenaGetBlock (arena idx : ℕ) : Option ℕ := do
  let desc ← (s.arenas arena).desc
  assert (idx < arenaBlocks desc)
  return arena * Memory.pageSize + 16 + idx * blockBytes desc

/-- The loop of `kmalloc` that puts the blocks of a new arena into the free list, from block `i`
on. -/
def pushBlocks (desc arena : ℕ) : ℕ → ℕ → Heap → Option Heap
  | 0, _, s => some s
  | left + 1, i, s => do
      let block ← s.arenaGetBlock arena i
      let s ← s.listPush desc block
      assert (block ∈ s.freeList desc)
      pushBlocks desc arena left (i + 1) s

/-- In `kmalloc`, a new arena for a descriptor whose free list is empty. -/
def growArena (desc : ℕ) : Option Heap := do
  let (arena, s) ← s.allocKpage 1
  let s := s.clearPages arena 1
  let s := s.setArena arena
    { desc := some desc, count := arenaBlocks desc, large := 0, magic := onixsMagic }
  s.pushBlocks desc arena (arenaBlocks desc) 0

/-- The descriptor `kmalloc` uses: the first one whose blocks are large enough, or the last. -/
def descOf (size : ℕ) : ℕ :=
  ((List.range descCount).find? fun i => size ≤ blockBytes i).getD (descCount - 1)

/-- `kmalloc` of more than 1024 bytes. -/
def kmallocLarge (size : ℕ) : Option (ℕ × Heap) := do
  let count := divRoundUp (u32 (size + 16)) Memory.pageSize
  let (arena, s) ← s.allocKpage count
  let s := s.clearPages arena count
  let s := s.setArena arena { desc := none, count := count, large := 1, magic := onixsMagic }
  return (arena * Memory.pageSize + 16, s)

/-- `kmalloc`. -/
def kmalloc (size : ℕ) : Option (ℕ × Heap) := do
  if 1024 < size then
    s.kmallocLarge size
  else
    let desc := descOf size
    let s ← if s.freeList desc = [] then s.growArena desc else some s
    let (block, s) ← s.listPop desc
    let arena := block / Memory.pageSize
    assert ((s.arenas arena).magic = onixsMagic ∧ (s.arenas arena).large = 0)
    return (block, s.setArena arena
      { s.arenas arena with count := sub32 (s.arenas arena).count 1 })

/-- The loop of `kfree` that takes the blocks of an arena out of the free list, from block `i` on. -/
def removeBlocks (desc arena : ℕ) : ℕ → ℕ → Heap → Option Heap
  | 0, _, s => some s
  | left + 1, i, s => do
      let block ← s.arenaGetBlock arena i
      let s ← s.listRemove desc block
      assert (block ∉ s.freeList desc)
      removeBlocks desc arena left (i + 1) s

/-- `kfree`. -/
def kfree (ptr : ℕ) : Option Heap := do
  assert (ptr ≠ 0)
  let arena := ptr / Memory.pageSize
  assert ((s.arenas arena).large = 1 ∨ (s.arenas arena).large = 0)
  assert ((s.arenas arena).magic = onixsMagic)
  if (s.arenas arena).large ≠ 0 then
    s.freeKpage arena (s.arenas arena).count
  else
    let desc ← (s.arenas arena).desc
    let s ← s.listPush desc ptr
    let s := s.setArena arena { s.arenas arena with count := u32 ((s.arenas arena).count + 1) }
    if (s.arenas arena).count = arenaBlocks desc then
      let s ← s.removeBlocks desc arena (arenaBlocks desc) 0
      s.freeKpage arena 1
    else
      return s

end Heap

/-! ### Using the heap -/

/-- The heap with what it has handed out. -/
structure HeapUse where
  /-- The heap. -/
  heap : Heap
  /-- The blocks that are in use, with the sizes asked for. -/
  blocks : List (ℕ × ℕ)
  /-- The page ranges that are in use, with their lengths. -/
  ranges : List (ℕ × ℕ)

/-- A call to the allocators. -/
inductive HeapOp where
  /-- `alloc_kpage`. -/
  | alloc (count : ℕ)
  /-- `free_kpage`. -/
  | free (page count : ℕ)
  /-- `kmalloc`. -/
  | kmalloc (size : ℕ)
  /-- `kfree`. -/
  | kfree (ptr : ℕ)

namespace HeapUse

variable (s : HeapUse)

/-- A call. No value means that an assertion fails. -/
def step : HeapOp → Option (Unit × HeapUse)
  | .alloc count => (s.heap.allocKpage count).map fun r =>
      ((), { s with heap := r.2, ranges := (r.1, count) :: s.ranges })
  | .free page count => (s.heap.freeKpage page count).map fun heap =>
      ((), { s with heap := heap, ranges := s.ranges.erase (page, count) })
  | .kmalloc size => (s.heap.kmalloc size).map fun r =>
      ((), { s with heap := r.2, blocks := (r.1, size) :: s.blocks })
  | .kfree ptr => (s.heap.kfree ptr).map fun heap =>
      ((), { s with heap := heap, blocks := s.blocks.filter fun b => b.1 ≠ ptr })

/-- `kernel_map` has `count` free pages in a row. -/
def Serves (count : ℕ) : Prop :=
  ∃ k, k + count ≤ s.heap.kernelMap.length * 8 ∧ ClearRun s.heap.kernelMap.bits k count

/-- Only what is in use is given back, and pages are there when they are needed. -/
def Legal : HeapOp → Prop
  | .alloc count => 0 < count ∧ s.Serves count
  | .free page count => (page, count) ∈ s.ranges
  | .kmalloc size => 0 < size ∧ size < 2147483648 ∧
      (1024 < size → s.Serves (divRoundUp (size + 16) Memory.pageSize)) ∧
      (size ≤ 1024 → s.heap.freeList (Heap.descOf size) = [] → s.Serves 1)
  | .kfree ptr => ptr ∈ s.blocks.map Prod.fst

/-- The places in memory that are in use, as an address and a length. -/
def extents : List (ℕ × ℕ) :=
  s.blocks ++ s.ranges.map fun r => (r.1 * Memory.pageSize, r.2 * Memory.pageSize)

/-- Page `p` is marked in `kernel_map`. -/
def Marked (p : ℕ) : Prop :=
  Memory.idx Memory.memoryBase ≤ p ∧
    bitOf s.heap.kernelMap.bits (p - Memory.idx Memory.memoryBase) = true

/-- **What is in use is apart**, and on marked pages. -/
structure Apart : Prop where
  /-- No two things that are in use have an address in common. -/
  disjoint : s.extents.Pairwise fun a b =>
    ∀ addr, ¬((a.1 ≤ addr ∧ addr < a.1 + a.2) ∧ b.1 ≤ addr ∧ addr < b.1 + b.2)
  /-- What is in use is marked. -/
  marked : ∀ e ∈ s.extents, ∀ addr, e.1 ≤ addr → addr < e.1 + e.2 → s.Marked (addr / Memory.pageSize)

/-- A page with small blocks is given back with the last of them. -/
def Returned (op : HeapOp) (t : HeapUse) : Prop :=
  ∀ ptr size, op = .kfree ptr → (ptr, size) ∈ s.blocks → size ≤ 1024 →
    (t.Marked (ptr / Memory.pageSize) ↔
      ∃ b ∈ t.blocks, b.1 / Memory.pageSize = ptr / Memory.pageSize)

end HeapUse

end Onixs
