import Onixs.Common.Run
import Onixs.Kernel.FileCalls

/-!
# The offset of an open file

`sys_lseek` asserts that no offset becomes negative, in a signed comparison for `SEEK_SET` and
`SEEK_CUR`, and in an unsigned one for `SEEK_END`, which never fails. `sys_read` and `sys_write` cannot
pass the largest file, since `bmap` asserts the block number. So an offset stays
non-negative along a run exactly when no call of `SEEK_END` makes it negative
(`Onixs.offsetRun_iff`).
-/

namespace Onixs

open Bytes

/-- A call of `bmap` that comes back is about a block of the largest file. -/
theorem bmap_block_lt {s t : Fs} {i b z : ℕ} {create : Bool} (h : bmap s i b create = some (z, t)) :
    b < 262663 := by
  obtain ⟨_, hlt, -⟩ := Option.bind_eq_some_iff.mp h
  have hlt := assert_eq_some.mp hlt
  rwa [totalBlock_eq] at hlt

/-- The end of a part of a block that is in the largest file. -/
theorem chunk_end_le {offset chars : ℕ} (hblock : offset / blockSize < 262663)
    (hchars : chars ≤ blockSize - offset % blockSize) : offset + chars ≤ 268966912 := by
  rw [blockSize_eq] at *
  omega

/-- **A read ends in the largest file**, or does nothing. -/
theorem inodeReadLoop_offset {i : ℕ} : ∀ (left : ℕ) {s t : Fs} {buf buf' : Bytes} {pos offset offset' : ℕ},
    offset < 2147483648 → inodeReadLoop s i buf pos offset left = some (buf', offset', t) →
      offset' < 2147483648 := by
  intro left
  induction left using Nat.strong_induction_on with
  | _ left ih =>
    intro s t buf buf' pos offset offset' hlt hloop
    rw [inodeReadLoop] at hloop
    by_cases hzero : left = 0
    · rw [dif_pos hzero] at hloop
      obtain ⟨-, heq⟩ := Prod.mk.inj (Option.some.inj hloop)
      rwa [← (Prod.mk.inj heq).1]
    · rw [dif_neg hzero] at hloop
      obtain ⟨_, -, hloop⟩ := Option.bind_eq_some_iff.mp hloop
      obtain ⟨r, hbmap, hloop⟩ := Option.bind_eq_some_iff.mp hloop
      obtain ⟨_, -, hloop⟩ := Option.bind_eq_some_iff.mp hloop
      have hend := chunk_end_le (bmap_block_lt hbmap) (min_le_left (blockSize - offset % blockSize) left)
      have hpos : 0 < min (blockSize - offset % blockSize) left := by
        rw [blockSize_eq]
        omega
      exact ih _ (by omega) (by rw [u32_of_lt (by omega)]; omega) hloop

/-- **A write ends in the largest file**, or does nothing. -/
theorem inodeWriteLoop_offset {i : ℕ} : ∀ (left : ℕ) {s t : Fs} {buf : Bytes} {pos offset offset' : ℕ},
    offset < 2147483648 → inodeWriteLoop s i buf pos offset left = some (offset', t) →
      offset' < 2147483648 := by
  intro left
  induction left using Nat.strong_induction_on with
  | _ left ih =>
    intro s t buf pos offset offset' hlt hloop
    rw [inodeWriteLoop] at hloop
    by_cases hzero : left = 0
    · rw [dif_pos hzero] at hloop
      rwa [← (Prod.mk.inj (Option.some.inj hloop)).1]
    · rw [dif_neg hzero] at hloop
      obtain ⟨u, hchunk, hloop⟩ := Option.bind_eq_some_iff.mp hloop
      rw [writeChunk] at hchunk
      obtain ⟨_, -, hchunk⟩ := Option.bind_eq_some_iff.mp hchunk
      obtain ⟨⟨z, v⟩, hbmap, -⟩ := Option.bind_eq_some_iff.mp hchunk
      have hend := chunk_end_le (bmap_block_lt hbmap) (min_le_left (blockSize - offset % blockSize) left)
      have hpos : 0 < min (blockSize - offset % blockSize) left := by
        rw [blockSize_eq]
        omega
      exact ih _ (by omega) (by rw [u32_of_lt (by omega)]; omega) hloop

/-- What `inode_read` returns is how far the offset has moved. -/
theorem inodeRead_moved {s t : Fs} {i len offset n : ℕ} {buf buf' : Bytes} (hlt : offset < 2147483648)
    (h : inodeRead s i buf len offset = some (n, buf', t)) :
    n = EOF ∨ ∃ offset' < 2147483648, n = sub32 offset' offset := by
  rw [inodeRead] at h
  obtain ⟨_, -, h⟩ := Option.bind_eq_some_iff.mp h
  split at h
  · exact Or.inl (Prod.mk.inj (Option.some.inj h)).1.symm
  · obtain ⟨r, hloop, h⟩ := Option.bind_eq_some_iff.mp h
    refine Or.inr ⟨r.2.1, inodeReadLoop_offset _ hlt hloop, ?_⟩
    exact (Prod.mk.inj (Option.some.inj h)).1.symm

/-- What `inode_write` returns is how far the offset has moved. -/
theorem inodeWrite_moved {s t : Fs} {i len offset n : ℕ} {buf : Bytes} (hlt : offset < 2147483648)
    (h : inodeWrite s i buf len offset = some (n, t)) :
    ∃ offset' < 2147483648, n = sub32 offset' offset := by
  rw [inodeWrite] at h
  obtain ⟨_, -, h⟩ := Option.bind_eq_some_iff.mp h
  obtain ⟨r, hloop, h⟩ := Option.bind_eq_some_iff.mp h
  refine ⟨r.1, inodeWriteLoop_offset _ hlt hloop, ?_⟩
  exact (Prod.mk.inj (Option.some.inj h)).1.symm

namespace Processes

variable {s : Processes} {f count : ℕ}

theorem fileAt_lt {pid : ℕ} {fd : ℤ} (hat : s.fileAt pid fd = some f) : fd < taskFileNr := by
  rw [fileAt] at hat
  obtain ⟨p, -, hat⟩ := Option.bind_eq_some_iff.mp hat
  obtain ⟨slot, hslot, -⟩ := Option.bind_eq_some_iff.mp hat
  rw [fdSlot] at hslot
  split at hslot
  · next h => exact h.2
  · exact absurd hslot (by simp)

theorem setOffset_offset (s : Processes) (f offset : ℕ) : ((s.setOffset f offset).fileTable f).offset = offset := by
  rw [setOffset, setFile_self]

/-- The offset moves by what was read or written. -/
theorem advance_offset {offset : ℕ} (hsame : (s.fileTable f).offset = offset)
    (hlt : offset < 2147483648)
    (hcount : count = EOF ∨ ∃ offset' < 2147483648, count = sub32 offset' offset) :
    ((s.advance f count).fileTable f).offset < 2147483648 := by
  rw [advance]
  split
  · rw [setOffset_offset, hsame]
    obtain ⟨offset', hend, hsub⟩ := hcount.resolve_left ‹_›
    rw [hsub, sub32, u32, u32]
    omega
  · rwa [hsame]

end Processes

namespace FileState

variable {D : Type} {dr : Drivers D} {s t : FileState D} {pid f len n : ℕ} {fd : ℤ} {buf buf' : Bytes}

/-- **`sys_read` keeps an offset non-negative.** -/
theorem sysRead_offset (hat : s.procs.fileAt pid fd = some f) (hlt : (s.procs.fileTable f).offset < 2147483648)
    (hread : s.sysRead dr pid fd buf len = some (n, buf', t)) : (t.procs.fileTable f).offset < 2147483648 := by
  rw [sysRead, hat, Option.bind_eq_bind, Option.bind_some] at hread
  simp only at hread
  split at hread
  · obtain ⟨-, heq⟩ := Prod.mk.inj (Option.some.inj hread)
    rwa [← (Prod.mk.inj heq).2]
  · obtain ⟨i, hi, hread⟩ := Option.bind_eq_some_iff.mp hread
    split at hread
    · obtain ⟨r, -, hread⟩ := Option.bind_eq_some_iff.mp hread
      obtain ⟨-, heq⟩ := Prod.mk.inj (Option.some.inj hread)
      rwa [← (Prod.mk.inj heq).2]
    · split at hread
      · obtain ⟨_, -, hread⟩ := Option.bind_eq_some_iff.mp hread
        obtain ⟨r, -, hread⟩ := Option.bind_eq_some_iff.mp hread
        obtain ⟨-, heq⟩ := Prod.mk.inj (Option.some.inj hread)
        rwa [← (Prod.mk.inj heq).2]
      · split at hread
        · obtain ⟨_, -, hread⟩ := Option.bind_eq_some_iff.mp hread
          obtain ⟨_, -, hread⟩ := Option.bind_eq_some_iff.mp hread
          obtain ⟨_, -, hread⟩ := Option.bind_eq_some_iff.mp hread
          obtain ⟨r, -, hread⟩ := Option.bind_eq_some_iff.mp hread
          obtain ⟨-, heq⟩ := Prod.mk.inj (Option.some.inj hread)
          rwa [← (Prod.mk.inj heq).2]
        · obtain ⟨⟨count, data, fs⟩, hinode, hread⟩ := Option.bind_eq_some_iff.mp hread
          obtain ⟨-, heq⟩ := Prod.mk.inj (Option.some.inj hread)
          rw [← (Prod.mk.inj heq).2]
          exact Processes.advance_offset rfl hlt (inodeRead_moved hlt hinode)

/-- **`sys_write` keeps an offset non-negative.** -/
theorem sysWrite_offset (hat : s.procs.fileAt pid fd = some f) (hlt : (s.procs.fileTable f).offset < 2147483648)
    (hwrite : s.sysWrite dr pid fd buf len = some (n, t)) : (t.procs.fileTable f).offset < 2147483648 := by
  rw [sysWrite, hat, Option.bind_eq_bind, Option.bind_some] at hwrite
  obtain ⟨call, -, hwrite⟩ := Option.bind_eq_some_iff.mp hwrite
  cases call with
  | refused => rwa [← (Prod.mk.inj (Option.some.inj hwrite)).2]
  | pipe i =>
    obtain ⟨r, -, hwrite⟩ := Option.bind_eq_some_iff.mp hwrite
    rwa [← (Prod.mk.inj (Option.some.inj hwrite)).2]
  | characters i =>
    obtain ⟨r, -, hwrite⟩ := Option.bind_eq_some_iff.mp hwrite
    rwa [← (Prod.mk.inj (Option.some.inj hwrite)).2]
  | blocks i =>
    obtain ⟨r, -, hwrite⟩ := Option.bind_eq_some_iff.mp hwrite
    rwa [← (Prod.mk.inj (Option.some.inj hwrite)).2]
  | file i =>
    obtain ⟨⟨count, fs⟩, hinode, hwrite⟩ := Option.bind_eq_some_iff.mp hwrite
    rw [← (Prod.mk.inj (Option.some.inj hwrite)).2]
    exact Processes.advance_offset rfl hlt (Or.inr (inodeWrite_moved hlt hinode))

/-- What `sys_lseek` makes of the offset. -/
theorem sysLseek_offset {offset whence : ℕ} (hat : s.procs.fileAt pid fd = some f)
    (hseek : s.sysLseek pid fd offset whence = some (n, t)) :
    ((t.procs.fileTable f).offset < 2147483648 ∧ whence ≠ seekEnd) ∨
      (whence = seekEnd ∧ ∃ i, (s.procs.fileTable f).inode = some i ∧
        (t.procs.fileTable f).offset = u32 ((s.procs.fs.inodeDesc i).size + offset)) := by
  rw [sysLseek, hat] at hseek
  obtain ⟨_, -, hseek⟩ := Option.bind_eq_some_iff.mp hseek
  obtain ⟨f', hf, hseek⟩ := Option.bind_eq_some_iff.mp hseek
  obtain rfl := Option.some.inj hf
  obtain ⟨i, hi, hseek⟩ := Option.bind_eq_some_iff.mp hseek
  split at hseek
  · next hset =>
    obtain ⟨_, hlt, hseek⟩ := Option.bind_eq_some_iff.mp hseek
    rw [← (Prod.mk.inj (Option.some.inj hseek)).2]
    refine Or.inl ⟨?_, by rw [hset]; decide⟩
    exact (Processes.setOffset_offset _ _ _).trans_lt (assert_eq_some.mp hlt)
  · split at hseek
    · next hcur =>
      obtain ⟨_, hlt, hseek⟩ := Option.bind_eq_some_iff.mp hseek
      rw [← (Prod.mk.inj (Option.some.inj hseek)).2]
      refine Or.inl ⟨?_, by rw [hcur]; decide⟩
      exact (Processes.setOffset_offset _ _ _).trans_lt (assert_eq_some.mp hlt)
    · obtain ⟨_, hend, hseek⟩ := Option.bind_eq_some_iff.mp hseek
      obtain ⟨_, -, hseek⟩ := Option.bind_eq_some_iff.mp hseek
      rw [← (Prod.mk.inj (Option.some.inj hseek)).2]
      exact Or.inr ⟨assert_eq_some.mp hend, i, hi, Processes.setOffset_offset _ _ _⟩

/-- `sys_lseek` of `SEEK_SET`. -/
theorem sysLseek_set {offset i : ℕ} (hat : s.procs.fileAt pid fd = some f)
    (hi : (s.procs.fileTable f).inode = some i) (hlt : offset < 2147483648) :
    s.sysLseek pid fd offset seekSet = some (offset, { s with procs := s.procs.setOffset f offset }) := by
  rw [sysLseek, hat, assert_pos (Processes.fileAt_lt hat)]
  simp only [Option.bind_eq_bind, Option.bind_some, hi]
  rw [if_pos trivial, assert_pos hlt]
  rfl

/-- `sys_lseek` of `SEEK_END` comes back. -/
theorem sysLseek_end {i : ℕ} (offset : ℕ) (hat : s.procs.fileAt pid fd = some f)
    (hi : (s.procs.fileTable f).inode = some i) :
    ∃ t, s.sysLseek pid fd offset seekEnd = some (u32 ((s.procs.fs.inodeDesc i).size + offset), t) := by
  rw [sysLseek, hat, assert_pos (Processes.fileAt_lt hat)]
  simp only [Option.bind_eq_bind, Option.bind_some, hi]
  rw [if_neg (by decide), if_neg (by decide), assert_pos trivial, assert_pos (Nat.zero_le _)]
  exact ⟨_, rfl⟩

end FileState

/-! ### Runs -/

/-- A call on a descriptor of a task, or a step of the rest of the machine. -/
inductive SeekOp (D : Type) where
  /-- `sys_lseek`. -/
  | lseek (pid : ℕ) (fd : ℤ) (offset whence : ℕ)
  /-- `sys_read`. -/
  | read (pid : ℕ) (fd : ℤ) (buf : Bytes) (len : ℕ)
  /-- `sys_write`. -/
  | write (pid : ℕ) (fd : ℤ) (buf : Bytes) (len : ℕ)
  /-- Anything else. -/
  | other (next : FileState D)

namespace SeekOp

variable {D : Type} (dr : Drivers D) (f : ℕ) (s : FileState D)

/-- A step of the machine, with what the call returns. -/
def step : SeekOp D → Option (Option ℕ × FileState D)
  | lseek pid fd offset whence => (s.sysLseek pid fd offset whence).map fun r => (some r.1, r.2)
  | read pid fd buf len => (s.sysRead dr pid fd buf len).map fun r => (some r.1, r.2.2)
  | write pid fd buf len => (s.sysWrite dr pid fd buf len).map fun r => (some r.1, r.2)
  | other next => some (none, next)

/-- The calls are those on entry `f` of the file table, through any descriptor of any task, and nothing else
stores its offset. -/
def OnFile : SeekOp D → Prop
  | lseek pid fd _ _ | read pid fd _ _ | write pid fd _ _ => s.procs.fileAt pid fd = some f
  | other next => (next.procs.fileTable f).offset = (s.procs.fileTable f).offset

/-- **The offset is not negative** when the call returns. -/
def OffsetKept (op : SeekOp D) : Prop :=
  ∀ r t, op.step dr s = some (r, t) → (t.procs.fileTable f).offset < 2147483648

/-- **A call of `SEEK_END` stays in the range of an offset**: the size and the offset given add up to a
number that is not negative. -/
def EndInRange : SeekOp D → Prop
  | lseek _ _ offset whence => whence = seekEnd → ∀ i, (s.procs.fileTable f).inode = some i →
      u32 ((s.procs.fs.inodeDesc i).size + offset) < 2147483648
  | _ => True

variable {dr f s}

/-- **A call keeps the offset non-negative** exactly when it is in that range. -/
theorem offsetKept_iff (hlt : (s.procs.fileTable f).offset < 2147483648) {op : SeekOp D}
    (hon : op.OnFile f s) : op.OffsetKept dr f s ↔ op.EndInRange f s := by
  cases op with
  | lseek pid fd offset whence =>
    constructor
    · rintro hkept rfl i hi
      obtain ⟨t, hseek⟩ := FileState.sysLseek_end offset hon hi
      have hlt := hkept _ t (by rw [step, hseek]; rfl)
      rcases FileState.sysLseek_offset hon hseek with ⟨-, hne⟩ | ⟨-, j, hj, heq⟩
      · exact absurd rfl hne
      · obtain rfl := Option.some.inj (hi.symm.trans hj)
        rwa [heq] at hlt
    · intro hrange r t hstep
      obtain ⟨⟨n, u⟩, hseek, heq⟩ := Option.map_eq_some_iff.mp hstep
      obtain ⟨-, rfl⟩ := Prod.mk.inj heq
      rcases FileState.sysLseek_offset hon hseek with ⟨h, -⟩ | ⟨hend, i, hi, heq⟩
      · exact h
      · rw [heq]
        exact hrange hend i hi
  | read pid fd buf len =>
    refine iff_of_true (fun r t hstep => ?_) trivial
    obtain ⟨⟨n, out, u⟩, hread, heq⟩ := Option.map_eq_some_iff.mp hstep
    obtain ⟨-, rfl⟩ := Prod.mk.inj heq
    exact FileState.sysRead_offset hon hlt hread
  | write pid fd buf len =>
    refine iff_of_true (fun r t hstep => ?_) trivial
    obtain ⟨⟨n, u⟩, hwrite, heq⟩ := Option.map_eq_some_iff.mp hstep
    obtain ⟨-, rfl⟩ := Prod.mk.inj heq
    exact FileState.sysWrite_offset hon hlt hwrite
  | other next =>
    refine iff_of_true (fun r t hstep => ?_) trivial
    obtain ⟨-, rfl⟩ := Prod.mk.inj (Option.some.inj hstep)
    exact (show (next.procs.fileTable f).offset = _ from hon).trans_lt hlt

end SeekOp

/-- **The offset of an open file**: along every run of `sys_lseek`, `sys_read` and `sys_write` on it, by
any descriptors and among any other steps, the offset is never negative when a call returns, exactly when
no call of `SEEK_END` leaves the range of an offset. -/
theorem offsetRun_iff {D : Type} (dr : Drivers D) (f : ℕ) (ops : List (SeekOp D)) (s : FileState D)
    (hlt : (s.procs.fileTable f).offset < 2147483648)
    (hon : Run.Along (fun s op => SeekOp.step dr s op) (fun s op => SeekOp.OnFile f s op) s ops) :
    Run.Along (fun s op => SeekOp.step dr s op) (fun s op => SeekOp.OffsetKept dr f s op) s ops ↔
      Run.Along (fun s op => SeekOp.step dr s op) (fun s op => SeekOp.EndInRange f s op) s ops :=
  Run.along_congr_of_legal (fun s => (s.procs.fileTable f).offset < 2147483648)
    (fun _ _ hlt hon => SeekOp.offsetKept_iff hlt hon)
    (fun _ _ _ _ _ _ hkept hstep => hkept _ _ hstep) ops s hlt hon

/-- A machine without pipes and devices. -/
def noDrivers : Drivers Unit where
  pipi _ := false
  pipeRead _ _ _ _ := none
  pipeWrite _ _ _ _ := none
  deviceRead _ _ _ _ _ := none
  deviceWrite _ _ _ _ _ := none

/-- An empty file, open for reading and writing as the first file of every task. -/
def emptyFile : FileState Unit where
  procs := { bootProcesses (fileBlocks fun _ => 0#8) with
    fs := fileFs fun _ => 0#8
    fileTable := fun _ => { inode := some 0, count := 3, offset := 0, flags := 2, mode := 0 } }
  devs := ()

/-- A seek to four bytes behind the end. -/
theorem offsetRun_iff_behind :
    Run.Along (fun s op => SeekOp.step noDrivers s op) (fun s op => SeekOp.OffsetKept noDrivers 0 s op) emptyFile
      [.lseek 1 0 4 seekEnd] :=
  (offsetRun_iff noDrivers 0 [.lseek 1 0 4 seekEnd] emptyFile (by decide)
    ⟨show emptyFile.procs.fileAt 1 0 = some 0 by decide, fun _ _ _ => trivial⟩).mpr
    ⟨fun _ i hi => by
      obtain rfl := Option.some.inj hi
      decide +kernel, fun _ _ _ => trivial⟩

/-- **A seek before the beginning**: a byte before the end of an empty file the assertion does not fail, and the
offset is -1. -/
theorem offsetRun_negative :
    ¬Run.Along (fun s op => SeekOp.step noDrivers s op) (fun s op => SeekOp.OffsetKept noDrivers 0 s op) emptyFile
      [.lseek 1 0 4294967295 seekEnd] := by
  rintro ⟨hkept, -⟩
  have hon : SeekOp.OnFile 0 emptyFile (.lseek 1 0 4294967295 seekEnd) :=
    show emptyFile.procs.fileAt 1 0 = some 0 by decide
  have hrange := (SeekOp.offsetKept_iff (by decide) hon).mp hkept rfl 0 rfl
  exact absurd hrange (by decide +kernel)

end Onixs
