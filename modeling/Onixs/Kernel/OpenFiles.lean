import Onixs.Kernel.InodeReferences

/-!
# Open files

The file table alone, with every operation that touches a descriptor: those of
`Onixs.Processes`, `sys_dup2` and `sys_pipe`. The inodes are left out. What `inode_open` or
`get_pipe_inode` gives to the caller is an argument of the operation, so that a run here is
one of any file system, and a call of `iput` is written down in `Onixs.OpenFiles.calls`
together with the calls of `get_file`. `Onixs.OpenFiles.Forgets` leaves the file system of
`Onixs.Processes` out, and each step there is a step here (`Onixs.OpenFiles.Forgets.step`).
-/

namespace Onixs

/-! ### Tables -/

/-- What `sys_open` reads of the inode it has opened. -/
structure Opened where
  /-- The inode. -/
  inode : ℕ
  /-- Its mode. -/
  mode : ℕ
  /-- Its size. -/
  size : ℕ

/-- A call that concerns an entry of the file table. -/
inductive FileCall where
  /-- `get_file` returned entry `f`, to which `n` descriptors pointed. -/
  | getFile (f n : ℕ)
  /-- `iput` was called on the inode of entry `f`. -/
  | iput (f : ℕ) (inode : Option ℕ)

/-- The file table and the tasks. -/
structure OpenFiles where
  /-- `file_table`. -/
  fileTable : ℕ → File
  /-- `task_table`. -/
  tasks : ℕ → Option Process
  /-- The calls of the operation under way. -/
  calls : List FileCall

namespace OpenFiles

variable (s : OpenFiles)

/-- Store an entry of `task_table`. -/
def setProcess (pid : ℕ) (p : Option Process) : OpenFiles :=
  { s with tasks := Function.update s.tasks pid p }

/-- Store an entry of `file_table`. -/
def setFile (f : ℕ) (file : File) : OpenFiles :=
  { s with fileTable := Function.update s.fileTable f file }

/-- Write a call down. -/
def log (call : FileCall) : OpenFiles := { s with calls := s.calls ++ [call] }

/-- A task that is alive. -/
def running (pid : ℕ) : Option Process := do
  let p ← s.tasks pid
  assert (p.died = false)
  return p

/-- The entries of the file table task `pid` points to. -/
def fileList (pid : ℕ) : List ℕ := (s.tasks pid).elim [] Process.fileList

/-- **The descriptors that point to entry `f`**, over all tasks. -/
def fds (f : ℕ) : ℕ := ∑ pid ∈ Finset.range taskNumber, (s.fileList pid).count f

/-! ### Files -/

/-- `get_file`. -/
def getFile : Option (ℕ × OpenFiles) := do
  let f ← (List.range' 3 (fileNr - 3)).find? fun f => (s.fileTable f).count = 0
  let t := s.setFile f { s.fileTable f with count := u32 ((s.fileTable f).count + 1) }
  return (f, t.log (.getFile f (s.fds f)))

/-- `file->count++`. -/
def addFile (f : ℕ) : OpenFiles :=
  s.setFile f { s.fileTable f with count := u32 ((s.fileTable f).count + 1) }

/-- `put_file`. -/
def putFile (f : ℕ) : Option OpenFiles := do
  let file := s.fileTable f
  assert (0 < file.count)
  let s := s.setFile f { file with count := file.count - 1 }
  if file.count - 1 = 0 then
    return s.log (.iput f file.inode)
  return s

/-- `sys_open`, where `inode_open` gives `opened`. -/
def sysOpen (pid : ℕ) (opened : Option Opened) (flags : ℕ) : Option (ℤ × OpenFiles) := do
  let p ← s.running pid
  match opened with
  | none => return (-1, s)
  | some o =>
      let fd ← Processes.taskGetFd p
      let (f, s) ← s.getFile
      let s := s.setProcess pid (some { p with files := Function.update p.files fd (some f) })
      let offset := if flags &&& 0o2000 ≠ 0 then o.size else 0
      return (fd, s.setFile f
        { inode := some o.inode, count := 1, offset := offset, flags := flags, mode := o.mode })

/-- `sys_close`. -/
def sysClose (pid : ℕ) (fd : ℤ) : Option OpenFiles := do
  assert (fd < taskFileNr)
  let p ← s.tasks pid
  let slot ← fdSlot fd
  match p.files slot with
  | none => return s
  | some f =>
      assert ((s.fileTable f).inode.isSome)
      let s ← s.putFile f
      return s.setProcess pid (some { p with files := Function.update p.files slot none })

/-- `dupfd`. -/
def dupfd (pid : ℕ) (fd : ℤ) (arg : ℕ) : Option (ℤ × OpenFiles) := do
  let p ← s.running pid
  if taskFileNr < fd then
    return (-1, s)
  let slot ← fdSlot fd
  match p.files slot with
  | none => return (-1, s)
  | some f =>
      match (List.range' arg (taskFileNr - arg)).find? fun arg => (p.files arg).isNone with
      | none => return (-1, s)
      | some arg =>
          let s := s.setProcess pid (some { p with files := Function.update p.files arg (some f) })
          return (arg, s.addFile f)

/-- `sys_dup`. -/
def sysDup (pid : ℕ) (fd : ℤ) : Option (ℤ × OpenFiles) := s.dupfd pid fd 0

/-- `sys_dup2`. A negative `newfd` does not come back from `close`. -/
def sysDup2 (pid : ℕ) (oldfd newfd : ℤ) : Option (ℤ × OpenFiles) := do
  let _ ← s.running pid
  let s ← s.sysClose pid newfd
  s.dupfd pid oldfd newfd.toNat

/-- `sys_pipe`, where `get_pipe_inode` gives `inode`. It returns what it stores in `pipefd`. -/
def sysPipe (pid inode : ℕ) : Option ((ℕ × ℕ) × OpenFiles) := do
  let p ← s.running pid
  let fd₀ ← Processes.taskGetFd p
  let (f₀, s) ← s.getFile
  let p := { p with files := Function.update p.files fd₀ (some f₀) }
  let s := s.setProcess pid (some p)
  let fd₁ ← Processes.taskGetFd p
  let (f₁, s) ← s.getFile
  let p := { p with files := Function.update p.files fd₁ (some f₁) }
  let s := s.setProcess pid (some p)
  let s := s.setFile f₀ { s.fileTable f₀ with inode := some inode, flags := 0 }
  let s := s.setFile f₁ { s.fileTable f₁ with inode := some inode, flags := 1 }
  return ((fd₀, fd₁), s)

/-! ### Tasks -/

/-- `task_getFreeTask`. -/
def getFreeTask : Option ℕ := (List.range taskNumber).find? fun pid => (s.tasks pid).isNone

/-- `task_fork`, which returns the child. -/
def taskFork (pid : ℕ) : Option (ℕ × OpenFiles) := do
  let p ← s.running pid
  let child ← s.getFreeTask
  let s := s.setProcess child (some { p with ppid := pid })
  let s := (List.range taskFileNr).foldl (fun s fd => ((p.files fd).elim s s.addFile)) s
  return (child, s)

/-- The children of a task that exits become those of its parent. -/
def reparent (pid ppid : ℕ) : OpenFiles :=
  { s with tasks := fun child =>
      (s.tasks child).map fun p => if p.ppid = pid then { p with ppid := ppid } else p }

/-- `task_exit`. -/
def taskExit (pid : ℕ) : Option OpenFiles := do
  let p ← s.running pid
  let s := s.setProcess pid (some { p with died := true })
  let s ← (List.range taskFileNr).foldlM (fun s fd => s.sysClose pid fd) s
  return s.reparent pid p.ppid

/-- `task_waitpid`, when it does not wait. -/
def taskWaitpid (pid : ℕ) (which : Option ℕ) : OpenFiles :=
  let dead := fun child => (s.tasks child).any fun p =>
    p.ppid == pid && p.died && (which.all fun pid => pid == child)
  match (List.range' 2 (taskNumber - 2)).find? dead with
  | none => s
  | some child => s.setProcess child none

end OpenFiles

/-! ### Steps -/

/-- What a task does with descriptors. -/
inductive FileOp where
  /-- `task_fork`. -/
  | fork (pid : ℕ)
  /-- `task_exit`. -/
  | exit (pid : ℕ)
  /-- `task_waitpid`. -/
  | waitpid (pid : ℕ) (which : Option ℕ)
  /-- `sys_open`. -/
  | opens (pid : ℕ) (opened : Option Opened) (flags : ℕ)
  /-- `sys_close`. -/
  | close (pid : ℕ) (fd : ℤ)
  /-- `sys_dup`. -/
  | dup (pid : ℕ) (fd : ℤ)
  /-- `sys_dup2`. -/
  | dup2 (pid : ℕ) (oldfd newfd : ℤ)
  /-- `sys_pipe`. -/
  | pipe (pid inode : ℕ)

/-- An operation, with the value of the call. -/
def OpenFiles.run (s : OpenFiles) : FileOp → Option (ℤ × OpenFiles)
  | .fork pid => (s.taskFork pid).map fun r => (r.1, r.2)
  | .exit pid => (s.taskExit pid).map fun t => (0, t)
  | .waitpid pid which => some (0, s.taskWaitpid pid which)
  | .opens pid opened flags => s.sysOpen pid opened flags
  | .close pid fd => (s.running pid).bind fun _ => (s.sysClose pid fd).map fun t => (0, t)
  | .dup pid fd => s.sysDup pid fd
  | .dup2 pid oldfd newfd => s.sysDup2 pid oldfd newfd
  | .pipe pid inode => (s.sysPipe pid inode).map fun r => (0, r.2)

/-- A step: the operation, with nothing written down before it. -/
def fileStep (s : OpenFiles) (op : FileOp) : Option (ℤ × OpenFiles) := { s with calls := [] }.run op

/-- The tasks of `task_init`; `inode` and `mode` are those of their first three files. -/
def bootFiles (inode mode : ℕ → ℕ) : OpenFiles where
  fileTable f :=
    { inode := if f < 3 then some (inode f) else none, count := if f < 3 then 3 else 0, offset := 0,
      flags := if f = 1 ∨ f = 2 then 1 else 0, mode := if f < 3 then mode f else 0 }
  tasks pid := if pid < 3 then some (bootProcess pid) else none
  calls := []

/-! ### Processes with inodes -/

namespace OpenFiles

/-- The file table and the tasks are those of a state with a file system. -/
def Forgets (o : OpenFiles) (s : Processes) : Prop := o.fileTable = s.fileTable ∧ o.tasks = s.tasks

variable {o : OpenFiles} {s t : Processes} {pid f : ℕ}

theorem Forgets.running (h : Forgets o s) (pid : ℕ) : o.running pid = s.running pid := by
  rw [OpenFiles.running, Processes.running, h.2]

theorem Forgets.setFs (h : Forgets o s) (fs : Fs) : Forgets o (s.setFs fs) := h

theorem Forgets.log (h : Forgets o s) (call : FileCall) : Forgets (o.log call) s := h

theorem Forgets.setProcess (h : Forgets o s) (pid : ℕ) (p : Option Process) :
    Forgets (o.setProcess pid p) (s.setProcess pid p) :=
  ⟨h.1, by rw [OpenFiles.setProcess, Processes.setProcess, h.2]⟩

theorem Forgets.setFile (h : Forgets o s) (f : ℕ) (file : File) :
    Forgets (o.setFile f file) (s.setFile f file) :=
  ⟨by rw [OpenFiles.setFile, Processes.setFile, h.1], h.2⟩

theorem Forgets.addFile (h : Forgets o s) (f : ℕ) : Forgets (o.addFile f) (s.addFile f) := by
  rw [OpenFiles.addFile, Processes.addFile, h.1]
  exact h.setFile f _

theorem Forgets.putFile (h : Forgets o s) (hput : s.putFile f = some t) :
    ∃ u, o.putFile f = some u ∧ Forgets u t := by
  obtain ⟨_, hpos, hput⟩ := Option.bind_eq_some_iff.mp hput
  rw [OpenFiles.putFile, h.1, hpos]
  simp only at hput ⊢
  by_cases hlast : (s.fileTable f).count - 1 = 0
  · rw [if_pos hlast] at hput
    obtain ⟨fs, -, hput⟩ := Option.bind_eq_some_iff.mp hput
    obtain rfl := Option.some.inj hput
    exact ⟨_, by rw [if_pos hlast]; rfl, ((h.setFile f _).setFs fs).log _⟩
  · rw [if_neg hlast] at hput
    obtain rfl := Option.some.inj hput
    exact ⟨_, by rw [if_neg hlast]; rfl, h.setFile f _⟩

theorem Forgets.sysClose {fd : ℤ} (h : Forgets o s) (hclose : s.sysClose pid fd = some t) :
    ∃ u, o.sysClose pid fd = some u ∧ Forgets u t := by
  obtain ⟨_, hlt, hclose⟩ := Option.bind_eq_some_iff.mp hclose
  obtain ⟨p, hp, hclose⟩ := Option.bind_eq_some_iff.mp hclose
  obtain ⟨slot, hslot, hclose⟩ := Option.bind_eq_some_iff.mp hclose
  rw [OpenFiles.sysClose, hlt, h.2, hp, hslot]
  simp only [Option.bind_eq_bind, Option.bind_some]
  cases hf : p.files slot with
  | none =>
    rw [hf] at hclose
    obtain rfl := Option.some.inj hclose
    exact ⟨o, rfl, h⟩
  | some f =>
    rw [hf] at hclose
    obtain ⟨_, hinode, hclose⟩ := Option.bind_eq_some_iff.mp hclose
    obtain ⟨u, hput, hclose⟩ := Option.bind_eq_some_iff.mp hclose
    obtain rfl := Option.some.inj hclose
    obtain ⟨v, hput', hv⟩ := h.putFile hput
    refine ⟨v.setProcess pid _, ?_, hv.setProcess pid _⟩
    simp only [h.1, hinode, hput', Option.bind_some]
    rfl

theorem Forgets.closeAll (l : List ℕ) (h : Forgets o s)
    (hclose : l.foldlM (fun s (fd : ℕ) => s.sysClose pid fd) s = some t) :
    ∃ u, l.foldlM (fun o (fd : ℕ) => o.sysClose pid fd) o = some u ∧ Forgets u t := by
  induction l generalizing o s with
  | nil =>
    obtain rfl := Option.some.inj hclose
    exact ⟨o, rfl, h⟩
  | cons fd l ih =>
    obtain ⟨s', hfirst, hrest⟩ := Option.bind_eq_some_iff.mp hclose
    obtain ⟨o', hfirst', h'⟩ := h.sysClose hfirst
    obtain ⟨u, hrest', hu⟩ := ih h' hrest
    exact ⟨u, by rw [List.foldlM_cons, hfirst']; exact hrest', hu⟩

theorem Forgets.addAll {files : ℕ → Option ℕ} (l : List ℕ) (h : Forgets o s) :
    Forgets (l.foldl (fun o fd => (files fd).elim o o.addFile) o)
      (l.foldl (fun s fd => (files fd).elim s s.addFile) s) := by
  induction l generalizing o s with
  | nil => exact h
  | cons fd l ih =>
    rw [List.foldl_cons, List.foldl_cons]
    refine ih ?_
    cases files fd with
    | none => exact h
    | some f => exact h.addFile f

theorem Forgets.sysOpen {path : CStr} {flags mode : ℕ} {r : ℤ} (h : Forgets o s)
    (hopen : s.sysOpen pid path flags mode = some (r, t)) :
    ∃ opened u, o.sysOpen pid opened flags = some (r, u) ∧ Forgets u t := by
  obtain ⟨p, hrun, hopen⟩ := Option.bind_eq_some_iff.mp hopen
  obtain ⟨⟨inode, fs⟩, -, hopen⟩ := Option.bind_eq_some_iff.mp hopen
  cases inode with
  | none =>
    obtain ⟨rfl, rfl⟩ := Prod.mk.inj (Option.some.inj hopen)
    exact ⟨none, o, by rw [OpenFiles.sysOpen, h.running, hrun]; rfl, h.setFs fs⟩
  | some i =>
    obtain ⟨fd, hfd, hopen⟩ := Option.bind_eq_some_iff.mp hopen
    obtain ⟨f, hf, hopen⟩ := Option.bind_eq_some_iff.mp hopen
    obtain ⟨rfl, rfl⟩ := Prod.mk.inj (Option.some.inj hopen)
    have hget : o.getFile = some (f, (o.addFile f).log (.getFile f (o.fds f))) := by
      rw [OpenFiles.getFile, h.1]
      change ((s.setFs fs).getFile.bind _) = _
      rw [hf, Option.bind_some, OpenFiles.addFile, h.1]
      rfl
    refine ⟨some ⟨i, (fs.inodeDesc i).mode, (fs.inodeDesc i).size⟩,
      (((o.addFile f).log (.getFile f (o.fds f))).setProcess pid
        (some { p with files := Function.update p.files fd (some f) })).setFile f
          { inode := some i, count := 1,
            offset := if flags &&& 0o2000 ≠ 0 then (fs.inodeDesc i).size else 0, flags := flags,
            mode := (fs.inodeDesc i).mode }, ?_, ?_⟩
    · rw [OpenFiles.sysOpen, h.running, hrun]
      simp only [Option.bind_eq_bind, Option.bind_some, hfd, hget]
      rfl
    -- the entry `get_file` has counted is assigned as a whole
    · refine ⟨?_, ?_⟩
      · change Function.update (Function.update o.fileTable f _) f _ = Function.update s.fileTable f _
        rw [Function.update_idem, h.1]
      · change Function.update o.tasks pid _ = Function.update s.tasks pid _
        rw [h.2]

theorem Forgets.sysDup {fd r : ℤ} (h : Forgets o s) (hdup : s.sysDup pid fd = some (r, t)) :
    ∃ u, o.sysDup pid fd = some (r, u) ∧ Forgets u t := by
  obtain ⟨p, hrun, hdup⟩ := Option.bind_eq_some_iff.mp hdup
  rw [OpenFiles.sysDup, OpenFiles.dupfd, h.running, hrun]
  simp only [Option.bind_eq_bind, Option.bind_some]
  by_cases hlt : taskFileNr < fd
  · rw [if_pos hlt] at hdup
    obtain ⟨rfl, rfl⟩ := Prod.mk.inj (Option.some.inj hdup)
    exact ⟨o, by rw [if_pos hlt]; rfl, h⟩
  · rw [if_neg hlt] at hdup ⊢
    obtain ⟨slot, hslot, hdup⟩ := Option.bind_eq_some_iff.mp hdup
    rw [hslot, Option.bind_some]
    cases hf : p.files slot with
    | none =>
      rw [hf] at hdup
      obtain ⟨rfl, rfl⟩ := Prod.mk.inj (Option.some.inj hdup)
      exact ⟨o, rfl, h⟩
    | some f =>
      simp only [hf] at hdup ⊢
      rw [Nat.sub_zero, ← List.range_eq_range']
      cases hfind : (List.range taskFileNr).find? fun arg => (p.files arg).isNone with
      | none =>
        rw [hfind] at hdup
        obtain ⟨rfl, rfl⟩ := Prod.mk.inj (Option.some.inj hdup)
        exact ⟨o, rfl, h⟩
      | some arg =>
        rw [hfind] at hdup
        obtain ⟨rfl, rfl⟩ := Prod.mk.inj (Option.some.inj hdup)
        exact ⟨_, rfl, (h.setProcess pid _).addFile f⟩

theorem Forgets.taskFork {child : ℕ} (h : Forgets o s) (hfork : s.taskFork pid = some (child, t)) :
    ∃ u, o.taskFork pid = some (child, u) ∧ Forgets u t := by
  obtain ⟨p, hrun, hfork⟩ := Option.bind_eq_some_iff.mp hfork
  obtain ⟨c, hfree, hfork⟩ := Option.bind_eq_some_iff.mp hfork
  obtain ⟨rfl, rfl⟩ := Prod.mk.inj (Option.some.inj hfork)
  refine ⟨_, ?_, ((h.setProcess c (some { p with ppid := pid })).setFs _).addAll (List.range taskFileNr)⟩
  have hfree' : o.getFreeTask = some c := by
    rw [OpenFiles.getFreeTask, h.2]
    exact hfree
  rw [OpenFiles.taskFork, h.running, hrun]
  simp only [Option.bind_eq_bind, Option.bind_some, hfree']
  rfl

theorem Forgets.taskExit (h : Forgets o s) (hexit : s.taskExit pid = some t) :
    ∃ u, o.taskExit pid = some u ∧ Forgets u t := by
  obtain ⟨p, hrun, hexit⟩ := Option.bind_eq_some_iff.mp hexit
  obtain ⟨fs₁, -, hexit⟩ := Option.bind_eq_some_iff.mp hexit
  obtain ⟨fs₂, -, hexit⟩ := Option.bind_eq_some_iff.mp hexit
  obtain ⟨fs₃, -, hexit⟩ := Option.bind_eq_some_iff.mp hexit
  obtain ⟨v, hclose, hexit⟩ := Option.bind_eq_some_iff.mp hexit
  obtain rfl := Option.some.inj hexit
  obtain ⟨w, hclose', hw⟩ := ((h.setProcess pid (some { p with died := true })).setFs fs₃).closeAll _ hclose
  refine ⟨w.reparent pid p.ppid, ?_, hw.1, ?_⟩
  · rw [OpenFiles.taskExit, h.running, hrun]
    simp only [Option.bind_eq_bind, Option.bind_some, hclose']
    rfl
  · rw [OpenFiles.reparent, Processes.reparent, hw.2]

theorem Forgets.taskWaitpid (h : Forgets o s) (pid : ℕ) (which : Option ℕ) :
    Forgets (o.taskWaitpid pid which) (s.taskWaitpid pid which) := by
  rw [OpenFiles.taskWaitpid, Processes.taskWaitpid, h.2]
  cases (List.range' 2 (taskNumber - 2)).find? fun child => (s.tasks child).any fun p =>
      p.ppid == pid && p.died && (which.all fun pid => pid == child) with
  | none => exact h
  | some child => exact h.setProcess child none

/-- The operations that are here as well. -/
def OnFiles : ProcessOp → Prop
  | .execve .. | .chdir .. | .chroot .. => False
  | _ => True

/-- **A step of the processes with their inodes** is a step of the file table. -/
theorem Forgets.step {op : ProcessOp} {r : ℤ} (h : Forgets o s) (hop : OnFiles op)
    (hstep : processStep s op = some (r, t)) :
    ∃ fop u, fileStep o fop = some (r, u) ∧ Forgets u t := by
  have h : Forgets { o with calls := [] } s := h
  cases op with
  | fork pid =>
    obtain ⟨⟨child, t'⟩, hfork, heq⟩ := Option.map_eq_some_iff.mp hstep
    obtain ⟨rfl, rfl⟩ := Prod.mk.inj heq
    obtain ⟨u, hu, hsame⟩ := h.taskFork hfork
    exact ⟨.fork pid, u, Option.map_eq_some_iff.mpr ⟨_, hu, rfl⟩, hsame⟩
  | exit pid =>
    obtain ⟨t', hexit, heq⟩ := Option.map_eq_some_iff.mp hstep
    obtain ⟨rfl, rfl⟩ := Prod.mk.inj heq
    obtain ⟨u, hu, hsame⟩ := h.taskExit hexit
    exact ⟨.exit pid, u, Option.map_eq_some_iff.mpr ⟨_, hu, rfl⟩, hsame⟩
  | waitpid pid which =>
    obtain ⟨rfl, rfl⟩ := Prod.mk.inj (Option.some.inj hstep)
    exact ⟨.waitpid pid which, _, rfl, h.taskWaitpid pid which⟩
  | execve pid path loaded => exact hop.elim
  | chdir pid path => exact hop.elim
  | chroot pid path => exact hop.elim
  | opens pid path flags mode =>
    obtain ⟨opened, u, hu, hsame⟩ := h.sysOpen hstep
    exact ⟨.opens pid opened flags, u, hu, hsame⟩
  | close pid fd =>
    obtain ⟨p, hrun, hmap⟩ := Option.bind_eq_some_iff.mp hstep
    obtain ⟨t', hclose, heq⟩ := Option.map_eq_some_iff.mp hmap
    obtain ⟨rfl, rfl⟩ := Prod.mk.inj heq
    obtain ⟨u, hu, hsame⟩ := h.sysClose hclose
    refine ⟨.close pid fd, u, ?_, hsame⟩
    exact Option.bind_eq_some_iff.mpr ⟨p, (h.running pid).trans hrun, Option.map_eq_some_iff.mpr ⟨_, hu, rfl⟩⟩
  | dup pid fd =>
    obtain ⟨u, hu, hsame⟩ := h.sysDup hstep
    exact ⟨.dup pid fd, u, hu, hsame⟩

end OpenFiles

end Onixs
