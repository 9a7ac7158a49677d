import Onixs.Kernel.KernelMap
import Onixs.Kernel.Seek

/-!
# Files of block devices

`sys_read` and `sys_write` count a block-special file in blocks of 1024 bytes, its driver in sectors of
512. So a write of `len` bytes changes `len / 2` bytes, at half the offset
(`Onixs.FileState.sysWrite_blocks_bytes`). The result of `device_write` is dropped, and both calls
return before `file->offset` moves. Hence a block-special file gives back what was written only where
nothing was (`Onixs.blockFile_iff`).
-/

namespace Onixs

open Bytes

/-- `SECTOR_SIZE`. -/
def sectorSize : ℕ := 512

/-- **A device that counts in sectors**: `dev` holds `size` bytes, `bytes d` in state `d` of the drivers,
and reads and writes `count` sectors from sector `idx` on, for a count of 8 bits. -/
structure CountsSectors {D : Type} (dr : Drivers D) (dev size : ℕ) (bytes : D → Bytes) : Prop where
  /-- What it reads. -/
  read : ∀ d buf count idx, count < 256 → (idx + count) * sectorSize ≤ size → ∃ n ≤ count,
    dr.deviceRead d dev buf count idx =
      some (n, copy buf 0 (count * sectorSize) fun k => bytes d (idx * sectorSize + k), d)
  /-- What it writes. -/
  write : ∀ d buf count idx, count < 256 → (idx + count) * sectorSize ≤ size → ∃ n ≤ count, ∃ d',
    dr.deviceWrite d dev buf count idx = some (n, d') ∧
      bytes d' = copy (bytes d) (idx * sectorSize) (count * sectorSize) buf

/-- Descriptor `fd` of a task leads to entry `f` of the file table, which is open for reading and writing
on the block-special file of device `dev`. -/
structure OpenBlocks {D : Type} (dr : Drivers D) (s : FileState D) (pid : ℕ) (fd : ℤ) (f dev : ℕ) : Prop where
  /-- The descriptor. -/
  fileAt : s.procs.fileAt pid fd = some f
  /-- `O_RDWR`. -/
  flags : (s.procs.fileTable f).flags &&& 3 = 2
  /-- The inode. -/
  inode : ∃ i, (s.procs.fileTable f).inode = some i ∧ dr.pipi i = false ∧
    isBlk (s.procs.fs.inodeDesc i).mode = true ∧ (s.procs.fs.inodeDesc i).zone 0 = dev
  /-- A device. -/
  dev_ne_zero : dev ≠ 0

/-- **A block-special file gives back what is written**: a write of `buf` at the offset of the file returns
`len`, moves the offset by `len` and changes only those bytes of the device; and a read from there
yields `buf`, returns `len` and moves the offset by `len`. -/
def GivesBack {D : Type} (dr : Drivers D) (bytes : D → Bytes) (s : FileState D) (pid : ℕ) (fd : ℤ) (f : ℕ)
    (buf : Bytes) (len : ℕ) : Prop :=
  ∃ t, s.sysWrite dr pid fd buf len = some (len, t) ∧
    (t.procs.fileTable f).offset = (s.procs.fileTable f).offset + len ∧
    (∀ a, a < (s.procs.fileTable f).offset ∨ (s.procs.fileTable f).offset + len ≤ a →
      bytes t.devs a = bytes s.devs a) ∧
    ∃ u, t.sysLseek pid fd (s.procs.fileTable f).offset seekSet = some ((s.procs.fileTable f).offset, u) ∧
      ∀ buf', ∃ out v, u.sysRead dr pid fd buf' len = some (len, out, v) ∧ (∀ k < len, out k = buf k) ∧
        (v.procs.fileTable f).offset = (s.procs.fileTable f).offset + len

theorem isChr_of_isBlk {mode : ℕ} (h : isBlk mode = true) : isChr mode = false := by
  rw [isBlk, beq_iff_eq] at h
  rw [isChr, h]
  rfl

/-- It is still open when only a driver has moved. -/
theorem OpenBlocks.setDevs {D : Type} {dr : Drivers D} {s : FileState D} {pid f dev : ℕ} {fd : ℤ}
    (h : OpenBlocks dr s pid fd f dev) (d : D) : OpenBlocks dr { s with devs := d } pid fd f dev :=
  ⟨h.fileAt, h.flags, h.inode, h.dev_ne_zero⟩

namespace FileState

variable {D : Type} {dr : Drivers D} {s : FileState D} {pid f dev size len : ℕ} {fd : ℤ} (buf : Bytes)
  {bytes : D → Bytes}

/-- **`sys_write` on blocks**: what the driver returns is dropped, and the offset stays. -/
theorem sysWrite_blocks (h : OpenBlocks dr s pid fd f dev) (hoff : (s.procs.fileTable f).offset % blockSize = 0)
    (hlen : len % blockSize = 0) :
    s.sysWrite dr pid fd buf len =
      (dr.deviceWrite s.devs dev buf (len / blockSize) ((s.procs.fileTable f).offset / blockSize)).map
        fun r => (0, { s with devs := r.2 }) := by
  obtain ⟨i, hi, hpipe, hblk, hzone⟩ := h.inode
  have hcall : s.procs.sysWrite dr.pipi pid fd len = some (.blocks i) := by
    have hat := h.fileAt
    rw [Processes.fileAt] at hat
    obtain ⟨p, hrun, hat⟩ := Option.bind_eq_some_iff.mp hat
    obtain ⟨slot, hslot, hf⟩ := Option.bind_eq_some_iff.mp hat
    rw [Processes.sysWrite, hrun]
    simp only [Option.bind_eq_bind, Option.bind_some, hslot, hf, hi, h.flags, hpipe, hblk, isChr_of_isBlk hblk, hzone]
    rw [if_neg (by decide), if_neg (by decide), if_neg (by decide), if_pos trivial, assert_pos h.dev_ne_zero,
      assert_pos hoff, assert_pos hlen]
    rfl
  rw [sysWrite, h.fileAt, Option.bind_eq_bind, Option.bind_some, hcall, Option.bind_eq_bind, Option.bind_some]
  simp only [hzone]
  rw [Option.map_eq_bind]
  rfl

/-- **`sys_read` on blocks**: the result is the driver's, and the offset stays. -/
theorem sysRead_blocks (h : OpenBlocks dr s pid fd f dev) (hoff : (s.procs.fileTable f).offset % blockSize = 0)
    (hlen : len % blockBits = 0) :
    s.sysRead dr pid fd buf len =
      (dr.deviceRead s.devs dev buf (len / blockSize) ((s.procs.fileTable f).offset / blockSize)).map
        fun r => (r.1, r.2.1, { s with devs := r.2.2 }) := by
  obtain ⟨i, hi, hpipe, hblk, hzone⟩ := h.inode
  rw [sysRead, h.fileAt]
  simp only [Option.bind_eq_bind, Option.bind_some, h.flags, hi, hpipe, hblk, isChr_of_isBlk hblk, hzone]
  rw [if_neg (by decide), if_neg (by decide), if_neg (by decide), if_pos trivial, assert_pos h.dev_ne_zero,
    assert_pos hoff, assert_pos hlen, Option.map_eq_bind]
  rfl

/-- **What a write changes**: `len / 2` bytes at half the offset, when the driver counts in sectors. -/
theorem sysWrite_blocks_bytes (h : OpenBlocks dr s pid fd f dev) (hdev : CountsSectors dr dev size bytes)
    (hoff : (s.procs.fileTable f).offset % blockSize = 0) (hlen : len % blockSize = 0)
    (hin : (s.procs.fileTable f).offset + len ≤ size) (hcount : len < 256 * blockSize) :
    ∃ t, s.sysWrite dr pid fd buf len = some (0, t) ∧ t.procs = s.procs ∧
      bytes t.devs = copy (bytes s.devs) ((s.procs.fileTable f).offset / 2) (len / 2) buf := by
  rw [sysWrite_blocks buf h hoff hlen]
  rw [blockSize_eq] at *
  have hidx : (s.procs.fileTable f).offset / 1024 * sectorSize = (s.procs.fileTable f).offset / 2 := by
    rw [sectorSize]
    omega
  have hsec : len / 1024 * sectorSize = len / 2 := by
    rw [sectorSize]
    omega
  obtain ⟨n, -, d, hwrite, hbytes⟩ := hdev.write s.devs buf (len / 1024) ((s.procs.fileTable f).offset / 1024)
    (by omega) (by rw [Nat.add_mul, hidx, hsec]; omega)
  refine ⟨{ s with devs := d }, by rw [hwrite]; rfl, rfl, ?_⟩
  rw [hbytes, hidx, hsec]

end FileState

/-- **When a block-special file gives back what is written.** On a device that counts in sectors, a write
of whole blocks at any block of the device, followed by a seek back and a read, is as it should be exactly
when nothing is written. -/
theorem blockFile_iff {D : Type} {dr : Drivers D} {s : FileState D} {pid f dev size len : ℕ} {fd : ℤ}
    {bytes : D → Bytes} (buf : Bytes) (hopen : OpenBlocks dr s pid fd f dev)
    (hdev : CountsSectors dr dev size bytes) (hoff : (s.procs.fileTable f).offset % blockSize = 0)
    (hlen : len % blockSize = 0) (hin : (s.procs.fileTable f).offset + len ≤ size)
    (hlt : (s.procs.fileTable f).offset < 2147483648) : GivesBack dr bytes s pid fd f buf len ↔ len = 0 := by
  constructor
  · rintro ⟨t, hwrite, -⟩
    rw [FileState.sysWrite_blocks buf hopen hoff hlen] at hwrite
    obtain ⟨r, -, heq⟩ := Option.map_eq_some_iff.mp hwrite
    exact (Prod.mk.inj heq).1.symm
  · rintro rfl
    obtain ⟨t, hwrite, hprocs, hbytes⟩ := FileState.sysWrite_blocks_bytes buf hopen hdev hoff hlen hin
      (by decide)
    have hopen' := hopen.setDevs t.devs
    obtain ⟨i, hi, -⟩ := hopen'.inode
    obtain ⟨q, d⟩ := t
    simp only at hprocs hbytes hopen' hi
    subst hprocs
    have hseek := FileState.sysLseek_set hopen'.fileAt hi hlt
    have hsame : s.procs.setOffset f (s.procs.fileTable f).offset = s.procs := by
      rw [Processes.setOffset, Processes.setFile, Function.update_eq_self]
    rw [hsame] at hseek
    refine ⟨⟨s.procs, d⟩, hwrite, rfl, fun a _ => ?_, ⟨s.procs, d⟩, hseek, fun buf' => ?_⟩
    · rw [hbytes, Nat.zero_div]
      exact copy_of_notMem _ _ (by omega)
    · obtain ⟨n, hn, hread⟩ := hdev.read d buf' 0 ((s.procs.fileTable f).offset / blockSize) (by decide) (by
        rw [blockSize_eq, sectorSize]
        omega)
      obtain rfl := Nat.le_zero.mp hn
      have hcall := FileState.sysRead_blocks buf' hopen' hoff (Nat.zero_mod blockBits)
      rw [Nat.zero_div, hread] at hcall
      exact ⟨_, ⟨s.procs, d⟩, hcall, fun k hk => absurd hk (Nat.not_lt_zero k), rfl⟩

/-! ### RAM disks -/

/-- `RAMDISK_NR`. -/
def ramdiskNr : ℕ := 4

/-- The `size` of each RAM disk. -/
def ramdiskSize : ℕ := Memory.kernelRamdiskSize / ramdiskNr

/-- The `start` of RAM disk `i`. -/
def ramdiskStart (i : ℕ) : ℕ := Memory.kernelRamdiskMem + ramdiskSize * i

/-- `ramdisk_read`, where `mem` is the memory; `count` is a `uint8`. -/
def ramdiskRead (start : ℕ) (mem buf : Bytes) (count lba : ℕ) : Option (ℕ × Bytes × Bytes) := do
  let addr := u32 (start + lba * sectorSize)
  let len := count % 256 * sectorSize
  assert (u32 (addr + len) < Memory.kernelRamdiskMem + Memory.kernelRamdiskSize)
  return (count % 256, copy buf 0 len fun k => mem (addr + k), mem)

/-- `ramdisk_write`. -/
def ramdiskWrite (start : ℕ) (mem buf : Bytes) (count lba : ℕ) : Option (ℕ × Bytes) := do
  let addr := u32 (start + lba * sectorSize)
  let len := count % 256 * sectorSize
  assert (u32 (addr + len) < Memory.kernelRamdiskMem + Memory.kernelRamdiskSize)
  return (count % 256, copy mem addr len buf)

/-- The drivers of a machine whose only devices are RAM disks: device `dev` is the disk `disk dev`. -/
def ramdisks (disk : ℕ → Option ℕ) : Drivers Bytes where
  pipi _ := false
  pipeRead _ _ _ _ := none
  pipeWrite _ _ _ _ := none
  deviceRead mem dev buf count idx := do
    let i ← disk dev
    ramdiskRead (ramdiskStart i) mem buf count idx
  deviceWrite mem dev buf count idx := do
    let i ← disk dev
    ramdiskWrite (ramdiskStart i) mem buf count idx

/-- The RAM disks end where the memory for them does. -/
theorem ramdisk_address {i count idx : ℕ} (hi : i < 3) (h : (idx + count) * sectorSize ≤ ramdiskSize) :
    u32 (ramdiskStart i + idx * sectorSize) = ramdiskStart i + idx * sectorSize ∧
      u32 (ramdiskStart i + idx * sectorSize + count * sectorSize)
        < Memory.kernelRamdiskMem + Memory.kernelRamdiskSize := by
  simp only [ramdiskStart, ramdiskSize, ramdiskNr, Memory.kernelRamdiskMem, Memory.kernelRamdiskSize,
    Memory.kernelBufferMem, Memory.kernelBufferSize, sectorSize] at h ⊢
  rw [u32, u32]
  omega

/-- **A RAM disk counts in sectors.** The last disk is left out: `ramdisk_read` asserts that the end of
what it reads is before the end of the memory, so its last sector cannot be read. -/
theorem ramdisks_countsSectors {disk : ℕ → Option ℕ} {dev i : ℕ} (hdisk : disk dev = some i) (hi : i < 3) :
    CountsSectors (ramdisks disk) dev ramdiskSize fun mem a => mem (ramdiskStart i + a) where
  read mem buf count idx hcount hin := by
    obtain ⟨haddr, hend⟩ := ramdisk_address hi hin
    refine ⟨count, le_rfl, ?_⟩
    change (disk dev).bind _ = _
    rw [hdisk, Option.bind_some, ramdiskRead, haddr, Nat.mod_eq_of_lt hcount, assert_pos hend]
    simp only [Nat.add_assoc]
    rfl
  write mem buf count idx hcount hin := by
    obtain ⟨haddr, hend⟩ := ramdisk_address hi hin
    refine ⟨count, le_rfl, copy mem (ramdiskStart i + idx * sectorSize) (count * sectorSize) buf, ?_, ?_⟩
    · change (disk dev).bind _ = _
      rw [hdisk, Option.bind_some, ramdiskWrite, haddr, Nat.mod_eq_of_lt hcount, assert_pos hend]
      rfl
    · funext a
      simp only [copy, Nat.add_assoc, Nat.add_le_add_iff_left, Nat.add_lt_add_iff_left, Nat.add_sub_add_left]

/-- A machine with RAM disk 0 as device 1, and its block-special file open as the first file of every task. -/
def ramdiskFile : FileState Bytes where
  procs := { bootProcesses (fileBlocks fun _ => 0#8) with
    fs := ((fileFs fun _ => 0#8).setMode 0 0o060600).setZone 0 0 1
    fileTable := fun _ => { inode := some 0, count := 3, offset := 0, flags := 2, mode := 0 } }
  devs := fun _ => 0#8

/-- The drivers of that machine. -/
def ramdiskZero : Drivers Bytes := ramdisks fun dev => if dev = 1 then some 0 else none

theorem ramdiskFile_open : OpenBlocks ramdiskZero ramdiskFile 1 0 0 1 :=
  ⟨by decide, by decide, ⟨0, rfl, rfl, by decide +kernel, by decide +kernel⟩, by decide⟩

/-- A write of nothing. -/
theorem blockFile_iff_nothing :
    GivesBack ramdiskZero (fun mem a => mem (ramdiskStart 0 + a)) ramdiskFile 1 0 0 (fun _ => 1#8) 0 :=
  (blockFile_iff (fun _ => 1#8) ramdiskFile_open (ramdisks_countsSectors rfl (by decide)) (by decide) (by decide)
    (by decide) (by decide)).mpr rfl

/-- **A block written and not given back**: the write of a block to a RAM disk returns 0, leaves the offset and
writes one sector. -/
theorem blockFile_lost : ∃ t, ramdiskFile.sysWrite ramdiskZero 1 0 (fun _ => 1#8) blockSize = some (0, t) ∧
    (t.procs.fileTable 0).offset = 0 ∧ t.devs (ramdiskStart 0 + 511) = 1#8 ∧ t.devs (ramdiskStart 0 + 512) = 0#8 ∧
    ¬GivesBack ramdiskZero (fun mem a => mem (ramdiskStart 0 + a)) ramdiskFile 1 0 0 (fun _ => 1#8) blockSize := by
  obtain ⟨t, hwrite, hprocs, hbytes⟩ := FileState.sysWrite_blocks_bytes (fun _ => 1#8) ramdiskFile_open
    (ramdisks_countsSectors rfl (by decide)) (by decide) (Nat.mod_self blockSize) (by decide) (by decide)
  refine ⟨t, hwrite, by rw [hprocs]; rfl, congrFun hbytes 511, congrFun hbytes 512, ?_⟩
  rintro ⟨u, hwrite', -⟩
  have hlen := (Prod.mk.inj (Option.some.inj (hwrite.symm.trans hwrite'))).1
  exact absurd hlen (by decide)

end Onixs
