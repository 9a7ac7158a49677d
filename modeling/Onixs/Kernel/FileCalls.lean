import Onixs.Fs.ReadWrite
import Onixs.Kernel.WriteOpen

/-!
# The system calls on an open file

`sys_read`, `sys_write` and `sys_lseek` of `fs/file.c` as a whole: the file they go to, the offset they
move, and what they ask of pipes and devices. These are drivers (`Onixs.Drivers`), whose own state
is of any type.

An offset is the `uint32` of a variable of type `off_t`; from 2³¹ on it is negative.
-/

namespace Onixs

open Bytes

/-- What `sys_read` and `sys_write` call for a file that is no regular file. -/
structure Drivers (D : Type) where
  /-- `inode->pipi`. -/
  pipi : ℕ → Bool
  /-- `pipe_read`, of an inode. -/
  pipeRead : D → ℕ → Bytes → ℕ → Option (ℕ × Bytes × D)
  /-- `pipe_write`, of an inode. -/
  pipeWrite : D → ℕ → Bytes → ℕ → Option (ℕ × D)
  /-- `device_read`, of a device, with `count` and `idx`. -/
  deviceRead : D → ℕ → Bytes → ℕ → ℕ → Option (ℕ × Bytes × D)
  /-- `device_write`, of a device, with `count` and `idx`. -/
  deviceWrite : D → ℕ → Bytes → ℕ → ℕ → Option (ℕ × D)

/-- The tasks, their files and the drivers. -/
structure FileState (D : Type) where
  /-- The tasks, the file table and the file system. -/
  procs : Processes
  /-- The drivers. -/
  devs : D

/-- `SEEK_SET`. -/
def seekSet : ℕ := 1

/-- `SEEK_CUR`. -/
def seekCur : ℕ := 2

/-- `SEEK_END`. -/
def seekEnd : ℕ := 3

namespace Processes

/-- The file a descriptor of a task leads to. -/
def fileAt (s : Processes) (pid : ℕ) (fd : ℤ) : Option ℕ := do
  let p ← s.running pid
  let slot ← fdSlot fd
  p.files slot

/-- `file->offset = offset`. -/
def setOffset (s : Processes) (f offset : ℕ) : Processes :=
  s.setFile f { s.fileTable f with offset := offset }

/-- The offset after a call that returns `count`. -/
def advance (s : Processes) (f count : ℕ) : Processes :=
  if count ≠ EOF then s.setOffset f (u32 ((s.fileTable f).offset + count)) else s

end Processes

namespace FileState

variable {D : Type} (dr : Drivers D) (s : FileState D)

/-- `sys_read`: the result and the buffer. -/
def sysRead (pid : ℕ) (fd : ℤ) (buf : Bytes) (len : ℕ) : Option (ℕ × Bytes × FileState D) := do
  let f ← s.procs.fileAt pid fd
  let file := s.procs.fileTable f
  if file.flags &&& 3 = 1 then
    return (EOF, buf, s)
  let i ← file.inode
  let desc := s.procs.fs.inodeDesc i
  if dr.pipi i then
    let (count, buf, devs) ← dr.pipeRead s.devs i buf len
    return (count, buf, { s with devs := devs })
  else if isChr desc.mode then
    assert (desc.zone 0 ≠ 0)
    let (count, buf, devs) ← dr.deviceRead s.devs (desc.zone 0) buf len 0
    return (count, buf, { s with devs := devs })
  else if isBlk desc.mode then
    assert (desc.zone 0 ≠ 0)
    assert (file.offset % blockSize = 0)
    assert (len % blockBits = 0)
    let (count, buf, devs) ←
      dr.deviceRead s.devs (desc.zone 0) buf (len / blockSize) (file.offset / blockSize)
    return (count, buf, { s with devs := devs })
  else
    let (count, buf, fs) ← inodeRead s.procs.fs i buf len file.offset
    return (count, buf, { s with procs := (s.procs.setFs fs).advance f count })

/-- `sys_write`: the result. Which function writes is `Onixs.Processes.sysWrite`. -/
def sysWrite (pid : ℕ) (fd : ℤ) (buf : Bytes) (len : ℕ) : Option (ℕ × FileState D) := do
  let f ← s.procs.fileAt pid fd
  let file := s.procs.fileTable f
  let call ← s.procs.sysWrite dr.pipi pid fd len
  match call with
  | .refused => return (EOF, s)
  | .pipe i =>
      let (count, devs) ← dr.pipeWrite s.devs i buf len
      return (count, { s with devs := devs })
  | .characters i =>
      let (count, devs) ← dr.deviceWrite s.devs ((s.procs.fs.inodeDesc i).zone 0) buf len 0
      return (count, { s with devs := devs })
  | .blocks i =>
      -- the result of `device_write` is dropped: `count` is still 0
      let (_, devs) ← dr.deviceWrite s.devs ((s.procs.fs.inodeDesc i).zone 0) buf (len / blockSize)
        (file.offset / blockSize)
      return (0, { s with devs := devs })
  | .file i =>
      let (count, fs) ← inodeWrite s.procs.fs i buf len file.offset
      return (count, { s with procs := (s.procs.setFs fs).advance f count })

/-- `sys_lseek`. The assertion of `SEEK_END` compares the unsigned sum with zero. -/
def sysLseek (pid : ℕ) (fd : ℤ) (offset whence : ℕ) : Option (ℕ × FileState D) := do
  assert (fd < taskFileNr)
  let f ← s.procs.fileAt pid fd
  let file := s.procs.fileTable f
  let i ← file.inode
  if whence = seekSet then
    assert (offset < 2147483648)
    return (offset, { s with procs := s.procs.setOffset f offset })
  else if whence = seekCur then
    let sum := u32 (file.offset + offset)
    assert (sum < 2147483648)
    return (sum, { s with procs := s.procs.setOffset f sum })
  else
    assert (whence = seekEnd)
    let sum := u32 ((s.procs.fs.inodeDesc i).size + offset)
    assert (0 ≤ sum)
    return (sum, { s with procs := s.procs.setOffset f sum })

end FileState

end Onixs
