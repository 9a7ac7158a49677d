import Onixs.Fs.Namei

/-!
# Processes and their files

The tasks of `kernel/task.c` with what they have of the file system: two directories, the
program they execute and the table of open files, whose entries point into the file table
of `fs/file.c`. The operations are those that take or give back a reference to an inode or
to an entry of the file table.

A file descriptor is an `int`. An access to `task->files` with one that is negative or
past the end leaves the array; it has no value here (`Onixs.fdSlot`). The string
`task->pwd`, the memory of a task and its scheduling are left out: none of the functions
below reads them.
-/

namespace Onixs

/-! ### Tables -/

/-- `FILE_NR`. -/
def fileNr : ℕ := 128

/-- `TASK_NUMBER`. -/
def taskNumber : ℕ := 64

/-- `TASK_FILE_NR`. -/
def taskFileNr : ℕ := 16

/-- `file_t`. -/
structure File where
  /-- The inode. -/
  inode : Option ℕ
  /-- Number of descriptors. -/
  count : ℕ
  /-- Where the next access begins. -/
  offset : ℕ
  /-- Flags of `open`. -/
  flags : ℕ
  /-- Mode of the inode. -/
  mode : ℕ

/-- `task_t`. -/
structure Process where
  /-- The part the file system reads. -/
  task : Task
  /-- Parent. -/
  ppid : ℕ
  /-- The state is `TASK_DIED`. -/
  died : Bool
  /-- The program. -/
  iexec : Option ℕ
  /-- Open files. -/
  files : ℕ → Option ℕ

/-- The file system, the file table and the tasks. -/
structure Processes where
  /-- The file system. -/
  fs : Fs
  /-- `file_table`. -/
  fileTable : ℕ → File
  /-- `task_table`. -/
  tasks : ℕ → Option Process

/-- The place of a descriptor in `task->files`. -/
def fdSlot (fd : ℤ) : Option ℕ := if 0 ≤ fd ∧ fd < taskFileNr then some fd.toNat else none

namespace Processes

variable (s : Processes)

/-- Store an entry of `task_table`. -/
def setProcess (pid : ℕ) (p : Option Process) : Processes :=
  { s with tasks := Function.update s.tasks pid p }

/-- Store an entry of `file_table`. -/
def setFile (f : ℕ) (file : File) : Processes :=
  { s with fileTable := Function.update s.fileTable f file }

/-- The file system after a call. -/
def setFs (fs : Fs) : Processes := { s with fs := fs }

@[simp] theorem setProcess_self (pid : ℕ) (p : Option Process) : (s.setProcess pid p).tasks pid = p := by
  simp [setProcess]

theorem setProcess_of_ne {pid pid' : ℕ} (p : Option Process) (h : pid' ≠ pid) :
    (s.setProcess pid p).tasks pid' = s.tasks pid' := by
  simp [setProcess, h]

@[simp] theorem setFile_self (f : ℕ) (file : File) : (s.setFile f file).fileTable f = file := by
  simp [setFile]

theorem setFile_of_ne {f g : ℕ} (file : File) (h : g ≠ f) :
    (s.setFile f file).fileTable g = s.fileTable g := by
  simp [setFile, h]

/-- A task that is alive. -/
def running (pid : ℕ) : Option Process := do
  let p ← s.tasks pid
  assert (p.died = false)
  return p

/-- The file system as a task sees it. -/
def asTask (p : Process) : Fs := { s.fs with task := p.task }

/-! ### Files -/

/-- `get_file`. -/
def getFile : Option ℕ := (List.range' 3 (fileNr - 3)).find? fun f => (s.fileTable f).count = 0

/-- `file->count++`. -/
def addFile (f : ℕ) : Processes :=
  s.setFile f { s.fileTable f with count := u32 ((s.fileTable f).count + 1) }

/-- `put_file`. -/
def putFile (f : ℕ) : Option Processes := do
  let file := s.fileTable f
  assert (0 < file.count)
  let s := s.setFile f { file with count := file.count - 1 }
  if file.count - 1 = 0 then
    let fs ← iputOpt s.fs file.inode
    return s.setFs fs
  return s

/-- `task_get_fd`. -/
def taskGetFd (p : Process) : Option ℕ :=
  (List.range' 3 (taskFileNr - 3)).find? fun fd => (p.files fd).isNone

/-- `sys_open`. -/
def sysOpen (pid : ℕ) (filename : CStr) (flags mode : ℕ) : Option (ℤ × Processes) := do
  let p ← s.running pid
  let (inode, fs) ← inodeOpen (s.asTask p) filename flags mode
  let s := s.setFs fs
  match inode with
  | none => return (-1, s)
  | some i =>
      let fd ← taskGetFd p
      let f ← s.getFile
      let desc := fs.inodeDesc i
      let s := s.setProcess pid (some { p with files := Function.update p.files fd (some f) })
      let offset := if flags &&& 0o2000 ≠ 0 then desc.size else 0
      return (fd, s.setFile f
        { inode := some i, count := 1, offset := offset, flags := flags, mode := desc.mode })

/-- `sys_close`. -/
def sysClose (pid : ℕ) (fd : ℤ) : Option Processes := do
  assert (fd < taskFileNr)
  let p ← s.tasks pid
  let slot ← fdSlot fd
  match p.files slot with
  | none => return s
  | some f =>
      assert ((s.fileTable f).inode.isSome)
      let s ← s.putFile f
      return s.setProcess pid (some { p with files := Function.update p.files slot none })

/-- `dupfd` with `arg` at 0. -/
def sysDup (pid : ℕ) (fd : ℤ) : Option (ℤ × Processes) := do
  let p ← s.running pid
  if taskFileNr < fd then
    return (-1, s)
  let slot ← fdSlot fd
  match p.files slot with
  | none => return (-1, s)
  | some f =>
      match (List.range taskFileNr).find? fun arg => (p.files arg).isNone with
      | none => return (-1, s)
      | some arg =>
          let s := s.setProcess pid (some { p with files := Function.update p.files arg (some f) })
          return (arg, s.addFile f)

/-! ### Directories and the program -/

/-- The body `sys_chdir` and `sys_chroot` share: `old` is the directory that is given back and
`replace` puts the new one in its place. Both refuse the working directory. -/
def changeDir (old : Task → ℕ) (replace : Task → ℕ → Task) (pid : ℕ) (pathname : CStr) :
    Option (ℤ × Processes) := do
  let p ← s.running pid
  let (inode, fs) ← namei (s.asTask p) pathname
  match inode with
  | none => return (-1, s.setFs fs)
  | some i =>
      if isDir (fs.inodeDesc i).mode = false ∨ i = p.task.ipwd then
        let fs ← iput fs i
        return (-1, s.setFs fs)
      let fs ← iput fs (old p.task)
      return (0, (s.setFs fs).setProcess pid (some { p with task := replace p.task i }))

/-- `sys_chdir`. -/
def sysChdir : ℕ → CStr → Option (ℤ × Processes) :=
  s.changeDir Task.ipwd fun task i => { task with ipwd := i }

/-- `sys_chroot`. -/
def sysChroot : ℕ → CStr → Option (ℤ × Processes) :=
  s.changeDir Task.iroot fun task i => { task with iroot := i }

/-- `sys_execve`. Whether `load_elf` finds a program in the file is `loaded`; it takes no inode and
gives none back. -/
def sysExecve (pid : ℕ) (filename : CStr) (loaded : Bool) : Option (ℤ × Processes) := do
  let p ← s.running pid
  let (inode, fs) ← namei (s.asTask p) filename
  match inode with
  | none => return (-1, s.setFs fs)
  | some i =>
      if isFile (fs.inodeDesc i).mode = false ∨ permission fs i pExec = false ∨ loaded = false then
        let fs ← iput fs i
        return (-1, s.setFs fs)
      let fs ← iputOpt fs p.iexec
      return (0, (s.setFs fs).setProcess pid (some { p with iexec := some i }))

/-! ### Fork, exit and wait -/

/-- `task_getFreeTask`. -/
def getFreeTask : Option ℕ := (List.range taskNumber).find? fun pid => (s.tasks pid).isNone

/-- `task_fork`, which returns the child. -/
def taskFork (pid : ℕ) : Option (ℕ × Processes) := do
  let p ← s.running pid
  let child ← s.getFreeTask
  let s := s.setProcess child (some { p with ppid := pid })
  let s := s.setFs ((s.fs.addCount p.task.ipwd).addCount p.task.iroot)
  let s := (List.range taskFileNr).foldl (fun s fd => ((p.files fd).elim s s.addFile)) s
  return (child, s)

/-- The children of a task that exits become those of its parent. -/
def reparent (pid ppid : ℕ) : Processes :=
  { s with tasks := fun child =>
      (s.tasks child).map fun p => if p.ppid = pid then { p with ppid := ppid } else p }

/-- `task_exit`. -/
def taskExit (pid : ℕ) : Option Processes := do
  let p ← s.running pid
  let s := s.setProcess pid (some { p with died := true })
  let fs ← iput s.fs p.task.ipwd
  let fs ← iput fs p.task.iroot
  let fs ← iputOpt fs p.iexec
  let s ← (List.range taskFileNr).foldlM (fun s fd => s.sysClose pid fd) (s.setFs fs)
  return s.reparent pid p.ppid

/-- `task_waitpid`, when it does not wait: the entry of the first dead child that is waited for
becomes free. `which` is a task or, for `-1`, `none`. -/
def taskWaitpid (pid : ℕ) (which : Option ℕ) : Processes :=
  let dead := fun child => (s.tasks child).any fun p =>
    p.ppid == pid && p.died && (which.all fun pid => pid == child)
  match (List.range' 2 (taskNumber - 2)).find? dead with
  | none => s
  | some child => s.setProcess child none

end Processes

/-! ### Steps -/

/-- What a task does. -/
inductive ProcessOp where
  /-- `task_fork`. -/
  | fork (pid : ℕ)
  /-- `task_exit`. -/
  | exit (pid : ℕ)
  /-- `task_waitpid`. -/
  | waitpid (pid : ℕ) (which : Option ℕ)
  /-- `sys_execve`. -/
  | execve (pid : ℕ) (filename : CStr) (loaded : Bool)
  /-- `sys_chdir`. -/
  | chdir (pid : ℕ) (pathname : CStr)
  /-- `sys_chroot`. -/
  | chroot (pid : ℕ) (pathname : CStr)
  /-- `sys_open`. -/
  | opens (pid : ℕ) (filename : CStr) (flags mode : ℕ)
  /-- `sys_close`. -/
  | close (pid : ℕ) (fd : ℤ)
  /-- `sys_dup`. -/
  | dup (pid : ℕ) (fd : ℤ)

/-- A step, with the value of the call. -/
def processStep (s : Processes) : ProcessOp → Option (ℤ × Processes)
  | .fork pid => (s.taskFork pid).map fun r => (r.1, r.2)
  | .exit pid => (s.taskExit pid).map fun t => (0, t)
  | .waitpid pid which => some (0, s.taskWaitpid pid which)
  | .execve pid filename loaded => s.sysExecve pid filename loaded
  | .chdir pid pathname => s.sysChdir pid pathname
  | .chroot pid pathname => s.sysChroot pid pathname
  | .opens pid filename flags mode => s.sysOpen pid filename flags mode
  | .close pid fd => (s.running pid).bind fun _ => (s.sysClose pid fd).map fun t => (0, t)
  | .dup pid fd => s.sysDup pid fd

end Onixs
