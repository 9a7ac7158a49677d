import Onixs.Kernel.ArenaOwners
import Onixs.Kernel.OpenFileCounts

/-!
# What a pipe is made of

A pipe is an entry of the inode table, a page for the ring, a block of the heap for its `fifo_t` and two
entries of the file table. `get_pipe_inode` takes the first three, `put_pipe_inode` gives the page and the
entry back when the last file on the pipe is closed. `Onixs.PipeMachine` puts the inode table and the heap
next to the file table of `Onixs.OpenFiles`, with `sys_pipe`, `sys_dup`, `task_fork` and `sys_close`.

Of `task_fork` the machine has the kernel pages and the block that it takes for the child: the task
itself, its bitmap, its page directory and its working directory. Of `iput` on an inode that is no pipe, it
leaves the buffer out.
-/

namespace Onixs

open Bytes

/-- `inode_t`, as far as a pipe is concerned. -/
structure PipeInode where
  /-- The device, or `EOF` in a free entry. -/
  dev : ℕ
  /-- Number of references. -/
  count : ℕ
  /-- `inode->buf`, the page of a pipe. -/
  buf : ℕ
  /-- `inode->desc`, the `fifo_t` of a pipe. -/
  desc : ℕ
  /-- It is a pipe. -/
  pipi : Bool
  /-- The task that waits to read. -/
  rxwaiter : Option ℕ
  /-- The task that waits to write. -/
  txwaiter : Option ℕ

/-- The file table and the tasks, the inode table and the heap. -/
structure PipeMachine where
  /-- The file table and the tasks. -/
  files : OpenFiles
  /-- `inode_table`. -/
  inodes : ℕ → PipeInode
  /-- The heap. -/
  heap : Heap
  /-- The blocks of the heap that are in use. -/
  blocks : List ℕ
  /-- The kernel pages that `task_fork` and the arenas of `kmalloc` have taken in the run. -/
  held : List ℕ
  /-- The pipes that have been made in the run and not given back. -/
  made : List ℕ

/-- A page of `kernel_map` is allocated. -/
def Heap.Allocated (s : Heap) (page : ℕ) : Prop := 256 ≤ page ∧ bitOf s.kernelMap.bits (page - 256) = true

/-- The page that `kmalloc` takes for a new arena, if it takes one. -/
def Heap.arenaPages (s : Heap) (size : ℕ) : List ℕ :=
  if s.freeList (Heap.descOf size) = [] then (s.allocKpage 1).toList.map Prod.fst else []

namespace PipeMachine

variable (s : PipeMachine)

/-- Store an entry of `inode_table`. -/
def setInode (i : ℕ) (inode : PipeInode) : PipeMachine := { s with inodes := Function.update s.inodes i inode }

/-- Entry `i` of `inode_table` is in use. -/
def Used (i : ℕ) : Prop := (s.inodes i).dev ≠ EOF

/-- `kmalloc`, of a block of at most 1024 bytes. -/
def kmalloc (size : ℕ) : Option (ℕ × PipeMachine) := do
  let (ptr, heap) ← s.heap.kmalloc size
  return (ptr, { s with heap := heap, blocks := ptr :: s.blocks, held := s.heap.arenaPages size ++ s.held })

/-- `alloc_kpage` of a page. -/
def allocKpage : Option (ℕ × PipeMachine) := do
  let (page, heap) ← s.heap.allocKpage 1
  return (page, { s with heap := heap })

/-- `alloc_kpage` of a page for a new task. -/
def taskPage : Option PipeMachine := do
  let (page, s) ← s.allocKpage
  return { s with held := page :: s.held }

/-- `get_pipe_inode`. A `fifo_t` has 16 bytes, and `dev` is -2. -/
def getPipeInode : Option (ℕ × PipeMachine) := do
  let i ← (List.range inodeNr).find? fun i => (s.inodes i).dev = EOF
  let (fifo, s) ← s.kmalloc 16
  let (page, s) ← s.allocKpage
  let s := s.setInode i
    { s.inodes i with dev := 4294967294, desc := fifo, buf := page, count := 2, pipi := true }
  return (i, { s with made := i :: s.made })

/-- `put_free_inode`. -/
def putFreeInode (i : ℕ) : Option PipeMachine := do
  assert (i ≠ 0)
  assert ((s.inodes i).count = 0)
  return s.setInode i { s.inodes i with dev := EOF }

/-- `put_pipe_inode`. The `fifo_t` stays in use. -/
def putPipeInode (i : ℕ) : Option PipeMachine := do
  let s := s.setInode i { s.inodes i with count := sub32 (s.inodes i).count 1 }
  if (s.inodes i).count ≠ 0 then
    return s
  let s := s.setInode i { s.inodes i with pipi := false }
  assert ((s.inodes i).rxwaiter = none)
  assert ((s.inodes i).txwaiter = none)
  let heap ← s.heap.freeKpage (s.inodes i).buf 1
  let s ← { s with heap := heap }.putFreeInode i
  return { s with made := s.made.erase i }

/-- `iput`. -/
def iput : Option ℕ → Option PipeMachine
  | none => some s
  | some i =>
      if (s.inodes i).pipi then
        s.putPipeInode i
      else do
        let s := s.setInode i { s.inodes i with count := sub32 (s.inodes i).count 1 }
        if (s.inodes i).count ≠ 0 then
          return s
        s.putFreeInode i

/-- The calls of `iput` that an operation on files has written down. -/
def iputs : List FileCall → PipeMachine → Option PipeMachine
  | [], s => some s
  | .getFile _ _ :: calls, s => iputs calls s
  | .iput _ inode :: calls, s => do
      let s ← s.iput inode
      iputs calls s

/-- `sys_pipe`. -/
def sysPipe (pid : ℕ) : Option PipeMachine := do
  let (i, s) ← s.getPipeInode
  let (_, files) ← s.files.sysPipe pid i
  return { s with files := files }

/-- `sys_dup`. -/
def sysDup (pid : ℕ) (fd : ℤ) : Option PipeMachine := do
  let (_, files) ← s.files.sysDup pid fd
  return { s with files := files }

/-- `task_fork`. A `bitmap_t` has 12 bytes. -/
def taskFork (pid : ℕ) : Option PipeMachine := do
  let (_, files) ← s.files.taskFork pid
  let s ← s.taskPage
  let (_, s) ← s.kmalloc 12
  let s ← s.taskPage
  let s ← s.taskPage
  let s ← s.taskPage
  return { s with files := files }

/-- `sys_close`. -/
def sysClose (pid : ℕ) (fd : ℤ) : Option PipeMachine := do
  let _ ← s.files.running pid
  let files ← { s.files with calls := [] }.sysClose pid fd
  iputs files.calls { s with files := files }

end PipeMachine

/-! ### Steps -/

/-- A call of a task. -/
inductive PipeFileOp where
  /-- `sys_pipe`. -/
  | pipe (pid : ℕ)
  /-- `sys_dup`. -/
  | dup (pid : ℕ) (fd : ℤ)
  /-- `task_fork`. -/
  | fork (pid : ℕ)
  /-- `sys_close`. -/
  | close (pid : ℕ) (fd : ℤ)

namespace PipeMachine

/-- A call. No value means that it panics. -/
def step (s : PipeMachine) : PipeFileOp → Option (Unit × PipeMachine)
  | .pipe pid => (s.sysPipe pid).map fun t => ((), t)
  | .dup pid fd => (s.sysDup pid fd).map fun t => ((), t)
  | .fork pid => (s.taskFork pid).map fun t => ((), t)
  | .close pid fd => (s.sysClose pid fd).map fun t => ((), t)

/-- What is closed is a descriptor of a pipe that has been made in the run. -/
def Legal (s : PipeMachine) : PipeFileOp → Prop
  | .close pid fd => ∀ p slot f, s.files.tasks pid = some p → fdSlot fd = some slot → p.files slot = some f →
      ∃ i ∈ s.made, (s.files.fileTable f).inode = some i
  | _ => True

/-- **The start of a run**, from any state of the kernel: the counters of the file table are right, the inodes
of open files are in use, and `kernel_map` is that of the kernel's memory. -/
structure Start (s : PipeMachine) : Prop where
  /-- The file table. -/
  counted : s.files.Counted [] []
  /-- The inodes of open files. -/
  rooted : ∀ f j, 0 < s.files.fds f → (s.files.fileTable f).inode = some j → s.Used j
  /-- The map. -/
  map : PageOwners s.heap.kernelMap fun _ => none
  /-- Nothing has been taken yet. -/
  held : s.held = []
  /-- No pipe has been made. -/
  made : s.made = []

/-- **All descriptors of the pipes are closed**: no task has one any more. -/
def AllClosed (s : PipeMachine) : Prop :=
  ∀ f, ∀ i ∈ s.made, (s.files.fileTable f).inode = some i → s.files.fds f = 0

end PipeMachine

end Onixs
