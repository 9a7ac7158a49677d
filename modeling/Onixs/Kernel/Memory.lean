import Mathlib.Logic.Function.Basic
import Onixs.Lib.Bitmap

/-!
# Pages and page tables

`kernel/memory.c`, with what `task_fork`, `task_exit` and `task_waitpid` do to the pages
of a task (`kernel/task.c`).

Physical memory is seen by page frames and, inside a frame, by its 1024 words. A word
is given by the fields it has as a `page_entry_t`, so that page directories, page tables
and the data of the tasks are one memory, and `memcpy` of a frame copies any of them.
A page directory is known by its frame, which is its address too: the kernel lives in
the first 16 MiB, where addresses and frames agree. The kernel reaches the tables of the
loaded directory through that directory's own last entry, as the processor walks it
(`Onixs.Memory.walk`). A pointer to an entry is its frame and its place there.

The translation cache is left out: a step sees the tables as they are in memory, which
is what the calls of `flush_tlb` and `set_cr3` are for. The fields of `task_t` that these
functions neither read nor write are left out as well.
-/

namespace Onixs

/-! ### Entries and tasks -/

/-- `page_entry_t`. -/
structure PageEntry where
  /-- The page is in memory. -/
  present : Bool
  /-- The page may be written. -/
  write : Bool
  /-- User mode may use the page. -/
  user : Bool
  /-- Write-through. -/
  pwt : Bool
  /-- Not cached. -/
  pcd : Bool
  /-- Accessed. -/
  accessed : Bool
  /-- Written. -/
  dirty : Bool
  /-- Page attribute. -/
  pat : Bool
  /-- Global. -/
  global : Bool
  /-- A shared page. -/
  shared : Bool
  /-- A private page. -/
  privat : Bool
  /-- A page that is not to be written. -/
  readonly : Bool
  /-- The page frame. -/
  index : ℕ
  deriving DecidableEq

/-- The entry with all bits zero. -/
def zeroEntry : PageEntry where
  present := false
  write := false
  user := false
  pwt := false
  pcd := false
  accessed := false
  dirty := false
  pat := false
  global := false
  shared := false
  privat := false
  readonly := false
  index := 0

/-- `entry_init`. -/
def entryInit (index : ℕ) : PageEntry :=
  { zeroEntry with present := true, write := true, user := true, index := index % 1048576 }

namespace Memory

/-- What these functions use of `task_t`, and the kernel pages the task holds. -/
structure Task where
  /-- The page of the `task_t` itself. -/
  page : ℕ
  /-- The page directory. -/
  pde : ℕ
  /-- The page of the bits of `vmap`. -/
  bits : ℕ
  /-- The page of the name of the working directory. -/
  pwd : ℕ
  /-- User. -/
  uid : ℕ
  /-- End of the heap. -/
  brk : ℕ
  /-- End of the program. -/
  endAddr : ℕ
  /-- The pages of the mapping area that are taken. -/
  vmap : Bitmap
  /-- The task is in state `TASK_DIED`. -/
  died : Bool

end Memory

/-- Physical memory and the tables that rule it. -/
structure Memory where
  /-- The words of each page frame. -/
  mem : ℕ → ℕ → PageEntry
  /-- `memory_map`: a `uint8` for each page frame. -/
  memoryMap : ℕ → ℕ
  /-- `free_pages`. -/
  freePages : ℕ
  /-- `total_pages`. -/
  totalPages : ℕ
  /-- `start_page`. -/
  startPage : ℕ
  /-- `kernel_map`. -/
  kernelMap : Bitmap
  /-- `task_table`. -/
  tasks : ℕ → Option Memory.Task

namespace Memory

variable (s : Memory)

/-! ### Constants and addresses -/

/-- `TASK_NUMBER`. -/
def taskNumber : ℕ := 64

/-- `KERNEL_USER`. -/
def kernelUser : ℕ := 0

/-- The frame of `KERNEL_PAGE_DIR`. -/
def kernelPageDir : ℕ := 1

/-- `MEMORY_PAGE_SIZE`. -/
def pageSize : ℕ := 4096

/-- The number of kernel page tables. -/
def kernelTables : ℕ := 4

/-- `USER_EXEC_ADDR`, which is `KERNEL_MEMORY_SIZE`. -/
def userExecAddr : ℕ := 0x1000000

/-- `USER_MMAP_ADDR`. -/
def userMmapAddr : ℕ := 0x8000000

/-- `USER_STACK_TOP`. -/
def userStackTop : ℕ := 0x10000000

/-- `USER_STACK_BOTTOM`. -/
def userStackBottom : ℕ := 0xFE00000

@[simp] theorem taskNumber_eq : taskNumber = 64 := by decide

@[simp] theorem pageSize_eq : pageSize = 4096 := by decide

@[simp] theorem kernelTables_eq : kernelTables = 4 := by decide

@[simp] theorem userExecAddr_eq : userExecAddr = 16777216 := by decide

@[simp] theorem userMmapAddr_eq : userMmapAddr = 134217728 := by decide

@[simp] theorem userStackTop_eq : userStackTop = 268435456 := by decide

@[simp] theorem userStackBottom_eq : userStackBottom = 266338304 := by decide

/-- `IDX`. -/
def idx (addr : ℕ) : ℕ := addr / 4096

/-- `DIDX`. -/
def didx (addr : ℕ) : ℕ := addr / 4194304 % 1024

/-- `TIDX`. -/
def tidx (addr : ℕ) : ℕ := addr / 4096 % 1024

/-- `PAGE`. -/
def page (idx : ℕ) : ℕ := u32 (idx * 4096)

/-- The address `get_pde` returns. -/
def pdeAddr : ℕ := 0xFFFFF000

/-- The address at which the table of directory entry `i` is seen: `PDE_MASK | (i << 12)`. -/
def pteAddr (i : ℕ) : ℕ := 0xFFC00000 + i * 4096

/-! ### Stores -/

/-- Store a word. -/
def setWord (frame i : ℕ) (entry : PageEntry) : Memory :=
  { s with mem := fun f j => if f = frame ∧ j = i then entry else s.mem f j }

/-- Store a whole page frame. -/
def setFrame (frame : ℕ) (words : ℕ → PageEntry) : Memory :=
  { s with mem := fun f => if f = frame then words else s.mem f }

/-- Store an element of `memory_map`. -/
def setCount (i n : ℕ) : Memory :=
  { s with memoryMap := fun j => if j = i then n else s.memoryMap j }

/-- Store an element of `task_table`. -/
def setTask (pid : ℕ) (task : Option Task) : Memory :=
  { s with tasks := fun i => if i = pid then task else s.tasks i }

/-! ### Page frames -/

/-- `get_page`: the frame taken, of which the C function returns the address. -/
def getPage : Option (ℕ × Memory) := do
  let i ← (List.range' s.startPage (s.totalPages - s.startPage)).find? fun i => s.memoryMap i = 0
  return (i, { s.setCount i 1 with freePages := sub32 s.freePages 1 })

/-- `put_page`, of the address of frame `i`. -/
def putPage (i : ℕ) : Option Memory := do
  assert (s.startPage ≤ i ∧ i < s.totalPages)
  assert (1 ≤ s.memoryMap i)
  let s := s.setCount i (s.memoryMap i - 1)
  let s := if s.memoryMap i = 0 then { s with freePages := u32 (s.freePages + 1) } else s
  assert (0 < s.freePages ∧ s.freePages < s.totalPages)
  return s

/-- The frame a virtual address is in, under the directory `cr3`. -/
def walk (cr3 vaddr : ℕ) : Option ℕ := do
  let dentry := s.mem cr3 (didx vaddr)
  assert dentry.present
  let entry := s.mem dentry.index (tidx vaddr)
  assert entry.present
  return entry.index

/-- `get_pte`: the frame of the page table. -/
def getPte (cr3 vaddr : ℕ) (create : Bool) : Option (ℕ × Memory) := do
  let pde ← s.walk cr3 pdeAddr
  let i := didx vaddr
  assert (create ∨ (s.mem pde i).present)
  if (s.mem pde i).present then
    let table ← s.walk cr3 (pteAddr i)
    return (table, s)
  let (page, s) ← s.getPage
  let s := s.setWord pde i (entryInit page)
  let table ← s.walk cr3 (pteAddr i)
  return (table, s.setFrame table fun _ => zeroEntry)

/-- `get_entry`: the frame of the page table; the entry is number `tidx vaddr` there. -/
def getEntry (cr3 vaddr : ℕ) (create : Bool) : Option (ℕ × Memory) := s.getPte cr3 vaddr create

/-- `link_page`. -/
def linkPage (cr3 vaddr : ℕ) : Option Memory := do
  assert (vaddr % pageSize = 0)
  let (table, s) ← s.getEntry cr3 vaddr true
  if (s.mem table (tidx vaddr)).present then
    return s
  let (paddr, s) ← s.getPage
  return s.setWord table (tidx vaddr) (entryInit paddr)

/-- `unlink_page`. -/
def unlinkPage (cr3 vaddr : ℕ) : Option Memory := do
  assert (vaddr % pageSize = 0)
  let pde ← s.walk cr3 pdeAddr
  if !(s.mem pde (didx vaddr)).present then
    return s
  let (table, s) ← s.getEntry cr3 vaddr false
  let entry := s.mem table (tidx vaddr)
  if !entry.present then
    return s
  let s := s.setWord table (tidx vaddr) { entry with present := false }
  s.putPage entry.index

/-- `copy_page`: a new frame with the contents of the page at `vaddr`, seen at address 0
while it is filled. -/
def copyPage (cr3 vaddr : ℕ) : Option (ℕ × Memory) := do
  let (paddr, s) ← s.getPage
  let (table, s) ← s.getPte cr3 0 false
  let s := s.setWord table 0 (entryInit paddr)
  let src ← s.walk cr3 vaddr
  let dst ← s.walk cr3 0
  let s := s.setFrame dst (s.mem src)
  let s := s.setWord table 0 { s.mem table 0 with present := false }
  return (paddr, s)

/-! ### Kernel pages -/

/-- `scan_page`: the index of the first page found, of which the C function returns the
address. -/
def scanPage (map : Bitmap) (count : ℕ) : Option (ℕ × Bitmap) := do
  assert (0 < count)
  let (index, map) ← bitmapScan map count
  assert (index ≠ EOF)
  return (index, map)

/-- `alloc_kpage`. -/
def allocKpage (count : ℕ) : Option (ℕ × Memory) := do
  assert (0 < count)
  let (index, map) ← scanPage s.kernelMap count
  return (index, { s with kernelMap := map })

/-- The loop of `reset_page`. -/
def resetPage (map : Bitmap) (index : ℕ) : ℕ → Option Bitmap
  | 0 => some map
  | left + 1 => do
      let used ← bitmapTest map index
      assert used
      let map ← bitmapSet map index false
      resetPage map (index + 1) left

/-- `free_kpage`, of the address of page `index`. -/
def freeKpage (index count : ℕ) : Option Memory := do
  assert (0 < count)
  let map ← resetPage s.kernelMap index count
  return { s with kernelMap := map }

/-! ### Copying and releasing an address space -/

/-- The inner loop of `copy_pde`: share the pages of a table, from entry `i` on. -/
def sharePages (table : ℕ) : ℕ → ℕ → Memory → Option Memory
  | 0, _, s => some s
  | left + 1, i, s => do
      let entry := s.mem table i
      if !entry.present then
        sharePages table left (i + 1) s
      else
        assert (0 < s.memoryMap entry.index)
        let s := if !entry.shared then s.setWord table i { entry with write := false } else s
        let s := s.setCount entry.index ((s.memoryMap entry.index + 1) % 256)
        assert (s.memoryMap entry.index < 255)
        sharePages table left (i + 1) s

/-- The outer loop of `copy_pde`: share and copy the tables of the directory `pde`, which is
a copy of the loaded one, from entry `i` on. -/
def copyTables (cr3 pde : ℕ) : ℕ → ℕ → Memory → Option Memory
  | 0, _, s => some s
  | left + 1, i, s => do
      if !(s.mem pde i).present then
        copyTables cr3 pde left (i + 1) s
      else
        let table ← s.walk cr3 (pteAddr i)
        let s ← sharePages table 1024 0 s
        let (paddr, s) ← s.copyPage cr3 (pteAddr i)
        let s := s.setWord pde i { s.mem pde i with index := paddr % 1048576 }
        copyTables cr3 pde left (i + 1) s

/-- `copy_pde`, run by a task with directory `cr3`. -/
def copyPde (cr3 : ℕ) : Option (ℕ × Memory) := do
  let (pde, s) ← s.allocKpage 1
  let s := s.setFrame pde (s.mem cr3)
  let s := s.setWord pde 1023 (entryInit pde)
  let s ← copyTables cr3 pde (1023 - kernelTables) kernelTables s
  return (pde, s)

/-- The inner loop of `free_pde`: release the pages of a table, from entry `i` on. -/
def putPages (table : ℕ) : ℕ → ℕ → Memory → Option Memory
  | 0, _, s => some s
  | left + 1, i, s => do
      let entry := s.mem table i
      if !entry.present then
        putPages table left (i + 1) s
      else
        assert (0 < s.memoryMap entry.index)
        let s ← s.putPage entry.index
        putPages table left (i + 1) s

/-- The outer loop of `free_pde`: release the tables of the loaded directory, which is at
frame `pde`, from entry `i` on. -/
def putTables (cr3 pde : ℕ) : ℕ → ℕ → Memory → Option Memory
  | 0, _, s => some s
  | left + 1, i, s => do
      if !(s.mem pde i).present then
        putTables cr3 pde left (i + 1) s
      else
        let table ← s.walk cr3 (pteAddr i)
        let s ← putPages table 1024 0 s
        let s ← s.putPage (s.mem pde i).index
        putTables cr3 pde left (i + 1) s

/-- `free_pde`. -/
def freePde (task : Task) : Option Memory := do
  assert (task.uid ≠ kernelUser)
  let pde ← s.walk task.pde pdeAddr
  let s ← putTables task.pde pde (1023 - kernelTables) kernelTables s
  s.freeKpage task.pde 1

/-! ### Tasks -/

/-- The task `pid`, if it runs or may run in an address space of its own. The kernel's threads
have the kernel's directory, and make no system calls. -/
def running (pid : ℕ) : Option Task :=
  (s.tasks pid).filter fun task => !task.died && task.pde != kernelPageDir

/-- `task_getFreeTask`: the free place in `task_table` and the page of the new task. -/
def getFreeTask : Option (ℕ × ℕ × Memory) := do
  let child ← (List.range taskNumber).find? fun i => (s.tasks i).isNone
  let (page, s) ← s.allocKpage 1
  return (child, page, s)

/-- `task_fork` by task `pid`. -/
def taskFork (pid : ℕ) : Option (ℕ × Memory) := do
  let task ← s.running pid
  let (child, page, s) ← s.getFreeTask
  let (bits, s) ← s.allocKpage 1
  let (pde, s) ← s.copyPde task.pde
  let (pwd, s) ← s.allocKpage 1
  return (child, s.setTask child
    (some { task with page := page, bits := bits, pde := pde, pwd := pwd }))

/-- `task_exit` by task `pid`. -/
def taskExit (pid : ℕ) : Option Memory := do
  let task ← s.running pid
  let s := s.setTask pid (some { task with died := true })
  let s ← s.freePde task
  let s ← s.freeKpage task.bits 1
  s.freeKpage task.pwd 1

/-- What `task_waitpid` does with a dead child. -/
def taskReap (child : ℕ) : Option Memory := do
  let task ← s.tasks child
  assert task.died
  (s.setTask child none).freeKpage task.page 1

/-! ### Faults and system calls -/

/-- `page_fault` at `vaddr`, with the bits `present` and `write` of the error code. -/
def pageFault (pid vaddr : ℕ) (present write : Bool) : Option Memory := do
  let task ← s.running pid
  if present then
    assert write
    let (table, s) ← s.getEntry task.pde vaddr false
    let entry := s.mem table (tidx vaddr)
    assert entry.present
    assert (!entry.shared)
    assert (!entry.readonly)
    assert (0 < s.memoryMap entry.index)
    if s.memoryMap entry.index = 1 then
      return s.setWord table (tidx vaddr) { entry with write := true }
    let (paddr, s) ← s.copyPage task.pde (page (idx vaddr))
    let old := (s.mem table (tidx vaddr)).index
    let s := s.setCount old (s.memoryMap old - 1)
    return s.setWord table (tidx vaddr) (entryInit paddr)
  assert (userStackBottom ≤ vaddr ∨ vaddr < task.brk)
  s.linkPage task.pde (page (idx vaddr))

/-- The loop of `sys_brk`: release `left` pages from `page` on. -/
def unlinkPages (cr3 : ℕ) : ℕ → ℕ → Memory → Option Memory
  | 0, _, s => some s
  | left + 1, page, s => do
      let s ← s.unlinkPage cr3 page
      unlinkPages cr3 left (page + pageSize) s

/-- `sys_brk`. The result -1 is `false`. -/
def sysBrk (pid brk : ℕ) : Option (Bool × Memory) := do
  assert (brk % pageSize = 0)
  let task ← s.running pid
  assert (task.uid ≠ kernelUser)
  assert (task.endAddr ≤ brk ∧ brk ≤ userMmapAddr)
  if brk < task.brk then
    let s ← unlinkPages task.pde (divRoundUp (task.brk - brk) pageSize) brk s
    return (true, s.setTask pid (some { task with brk := brk }))
  if s.freePages < idx (brk - task.brk) then
    return (false, s)
  return (true, s.setTask pid (some { task with brk := brk }))

/-- The flags `sys_mmap` gives an entry. -/
def mmapEntry (prot flags : ℕ) (entry : PageEntry) : PageEntry :=
  let writable : Bool := prot &&& 2 != 0
  { entry with
    user := true
    write := writable
    readonly := !writable
    shared := entry.shared || flags &&& 1 != 0
    privat := entry.privat || flags &&& 2 != 0 }

/-- The loop of `sys_mmap`: map `left` pages from `page` on. -/
def mapPages (cr3 prot flags : ℕ) : ℕ → ℕ → Memory → Bitmap → Option (Memory × Bitmap)
  | 0, _, s, vmap => some (s, vmap)
  | left + 1, page, s, vmap => do
      let s ← s.linkPage cr3 page
      let vmap ← bitmapSet vmap (idx page) true
      let (table, s) ← s.getEntry cr3 page false
      let s := s.setWord table (tidx page) (mmapEntry prot flags (s.mem table (tidx page)))
      mapPages cr3 prot flags left (u32 (page + pageSize)) s vmap

/-- The stores of `read` into `left` pages from `page` on: `words i j` is what word `j` of
page `i` becomes, if `read` gets that far. -/
def readPages (cr3 : ℕ) (words : ℕ → ℕ → Option PageEntry) : ℕ → ℕ → Memory → Option Memory
  | 0, _, s => some s
  | left + 1, page, s => do
      let frame ← s.walk cr3 page
      let s := s.setFrame frame fun j => (words (idx page) j).getD (s.mem frame j)
      readPages cr3 words left (u32 (page + pageSize)) s

/-- The address `sys_mmap` maps at: `addr`, or the first room for `count` pages when `addr`
is null. -/
def mmapAddr (vmap : Bitmap) (addr count : ℕ) : Option (ℕ × Bitmap) :=
  if addr = 0 then (scanPage vmap count).map fun r => (page r.1, r.2) else some (addr, vmap)

/-- `sys_mmap`. With a file, `file` is what `read` stores. -/
def sysMmap (pid addr length prot flags : ℕ) (file : Option (ℕ → ℕ → Option PageEntry)) :
    Option (ℕ × Memory) := do
  assert (addr % pageSize = 0)
  let count := divRoundUp length pageSize
  let task ← s.running pid
  let (vaddr, vmap) ← mmapAddr task.vmap addr count
  assert (userMmapAddr ≤ vaddr ∧ vaddr < userStackBottom)
  let (s, vmap) ← mapPages task.pde prot flags count vaddr s vmap
  let s := s.setTask pid (some { task with vmap := vmap })
  match file with
  | none => return (vaddr, s)
  | some words =>
      let s ← readPages task.pde words count vaddr s
      return (vaddr, s)

/-- The loop of `sys_munmap`: unmap `left` pages from `page` on. -/
def unmapPages (cr3 : ℕ) : ℕ → ℕ → Memory → Bitmap → Option (Memory × Bitmap)
  | 0, _, s, vmap => some (s, vmap)
  | left + 1, page, s, vmap => do
      let s ← s.unlinkPage cr3 page
      let used ← bitmapTest vmap (idx page)
      assert used
      let vmap ← bitmapSet vmap (idx page) false
      unmapPages cr3 left (u32 (page + pageSize)) s vmap

/-- `sys_munmap`. -/
def sysMunmap (pid addr length : ℕ) : Option Memory := do
  let task ← s.running pid
  assert (userMmapAddr ≤ addr ∧ addr < userStackBottom)
  assert (page addr ≠ 0)
  let (s, vmap) ← unmapPages task.pde (divRoundUp length pageSize) addr s task.vmap
  return s.setTask pid (some { task with vmap := vmap })

/-! ### The processor -/

/-- The entry of a virtual address, when the processor finds one. -/
def entryOf (cr3 vaddr : ℕ) : Option PageEntry :=
  let dentry := s.mem cr3 (didx vaddr)
  let entry := s.mem dentry.index (tidx vaddr)
  if dentry.present ∧ entry.present then some entry else none

/-- The word at a virtual address, as task `pid` reads it. -/
def load (pid vaddr : ℕ) : Option PageEntry := do
  let task ← s.running pid
  let frame ← s.walk task.pde vaddr
  return s.mem frame (vaddr % 4096 / 4)

/-- A store in user mode, which changes the word at a virtual address: the directory entry
and the page entry must allow it. -/
def store (pid vaddr : ℕ) (word : PageEntry) : Option Memory := do
  let task ← s.running pid
  let dentry := s.mem task.pde (didx vaddr)
  let entry ← s.entryOf task.pde vaddr
  assert (dentry.user ∧ dentry.write ∧ entry.user ∧ entry.write)
  return s.setWord entry.index (vaddr % 4096 / 4) word

end Memory

end Onixs
