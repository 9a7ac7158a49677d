import Onixs.Common.Run
import Onixs.Kernel.BlockFiles

/-!
# Bounds of the RAM disks

`ramdisk_read` and `ramdisk_write` compare the end of what is transferred with the end of the memory of all
disks, strictly and after a product and two sums of 32 bits. So the last sector of the last disk is
refused, a transfer behind the end of another disk reaches the next one, and a large `lba` comes back
into the memory from below. Where it does neither (`Onixs.RamdiskOp.Guarded`), the disks are
arrays of sectors of their own (`Onixs.ramdiskRun_iff`).
-/

namespace Onixs

open Bytes

/-- `DEV_CMD_SECTOR_START`. -/
def devCmdSectorStart : ℕ := 1

/-- `DEV_CMD_SECTOR_COUNT`. -/
def devCmdSectorCount : ℕ := 2

/-- `ramdisk_ioctl`, of a disk of `size` bytes. -/
def ramdiskIoctl (size cmd : ℕ) : Option ℕ :=
  if cmd = devCmdSectorStart then some 0
  else if cmd = devCmdSectorCount then some (size / sectorSize)
  else none

/-- The memory, and what was last written to each byte of each disk. -/
structure RamdiskState where
  /-- The memory. -/
  mem : Bytes
  /-- The disks. -/
  last : ℕ → Bytes

/-- A transfer. -/
inductive RamdiskOp where
  /-- `ramdisk_read`. -/
  | read (disk count lba : ℕ) (buf : Bytes)
  /-- `ramdisk_write`. -/
  | write (disk count lba : ℕ) (buf : Bytes)

/-- The memory is what was last written. -/
def RamdiskState.Agrees (s : RamdiskState) : Prop :=
  ∀ i < ramdiskNr, ∀ a < ramdiskSize, s.mem (ramdiskStart i + a) = s.last i a

namespace RamdiskOp

/-- A call, with the buffer it leaves. A write changes the sectors of its disk. -/
def step (s : RamdiskState) : RamdiskOp → Option (Bytes × RamdiskState)
  | read disk count lba buf => (ramdiskRead (ramdiskStart disk) s.mem buf count lba).map fun r =>
      (r.2.1, { s with mem := r.2.2 })
  | write disk count lba buf => (ramdiskWrite (ramdiskStart disk) s.mem buf count lba).map fun r =>
      (buf, ⟨r.2, Function.update s.last disk (copy (s.last disk) (lba * sectorSize) (count * sectorSize) buf)⟩)

/-- `count` is a `uint8` and `lba` a `uint32`. -/
def Legal : RamdiskOp → Prop
  | read disk count lba _ | write disk count lba _ =>
      disk < ramdiskNr ∧ 1 ≤ count ∧ count < 256 ∧ lba < 4294967296

/-- The sectors are on the disk. -/
def InRange : RamdiskOp → Prop
  | read _ count lba _ | write _ count lba _ =>
      ∃ sectors, ramdiskIoctl ramdiskSize devCmdSectorCount = some sectors ∧ lba + count ≤ sectors

/-- What a transfer of sectors of the disk does: a read gives what was last written, a write changes the
sectors and nothing else. -/
def Transfers (s : RamdiskState) : RamdiskOp → Prop
  | read disk count lba buf => ∃ out t, step s (read disk count lba buf) = some (out, t) ∧ t = s ∧
      ∀ k < count * sectorSize, out k = s.last disk (lba * sectorSize + k)
  | write disk count lba buf => ∃ out t, step s (write disk count lba buf) = some (out, t) ∧ t.Agrees ∧
      ∀ a, a < ramdiskStart disk + lba * sectorSize ∨ ramdiskStart disk + (lba + count) * sectorSize ≤ a →
        t.mem a = s.mem a

/-- **The call is right**: sectors of the disk are transferred, and no others. -/
def Serves (s : RamdiskState) (op : RamdiskOp) : Prop :=
  (op.InRange → op.Transfers s) ∧ (¬op.InRange → op.step s = none)

/-- **The check is right for the call**: it is not about the last sector of the last disk, or, where the
sectors are not on the disk, the number of the sector behind them, from address 0 on and in 23 bits, is behind the
memory of the disks. -/
def Guarded : RamdiskOp → Prop
  | read disk count lba _ | write disk count lba _ =>
      if lba + count ≤ 2048 then 2048 * disk + lba + count < 8192
      else 32768 ≤ (24576 + 2048 * disk + lba + count) % 8388608

end RamdiskOp

section Bounds

variable {disk count lba k : ℕ} {s t : RamdiskState} {mem buf : Bytes}

theorem ramdiskStart_eq (i : ℕ) : ramdiskStart i = 12582912 + 1048576 * i := rfl

theorem ramdiskSize_eq : ramdiskSize = 1048576 := rfl

theorem ramdiskNr_eq : ramdiskNr = 4 := rfl

theorem ramdiskEnd_eq : Memory.kernelRamdiskMem + Memory.kernelRamdiskSize = 16777216 := rfl

theorem ramdiskIoctl_count : ramdiskIoctl ramdiskSize devCmdSectorCount = some 2048 := rfl

theorem sectorSize_eq : sectorSize = 512 := rfl

/-- The check, in sectors. -/
theorem ramdisk_check_iff (disk lba : ℕ) (hcount : count < 256) :
    u32 (u32 (ramdiskStart disk + lba * sectorSize) + count % 256 * sectorSize)
      < Memory.kernelRamdiskMem + Memory.kernelRamdiskSize ↔
    (24576 + 2048 * disk + lba + count) % 8388608 < 32768 := by
  rw [ramdiskStart_eq, ramdiskEnd_eq, sectorSize_eq, u32, u32]
  omega

/-- **`ramdisk_read`** comes back when the check is passed. -/
theorem ramdiskRead_eq (hcount : count < 256) : ramdiskRead (ramdiskStart disk) mem buf count lba =
    if (24576 + 2048 * disk + lba + count) % 8388608 < 32768 then
      some (count, copy buf 0 (count * sectorSize) fun k => mem (u32 (ramdiskStart disk + lba * sectorSize) + k), mem)
    else none := by
  have hcheck := ramdisk_check_iff disk lba hcount
  rw [ramdiskRead]
  split
  · next h =>
    rw [assert_pos (hcheck.mpr h), Nat.mod_eq_of_lt hcount]
    rfl
  · next h =>
    rw [assert_neg (mt hcheck.mp h)]
    rfl

/-- **`ramdisk_write`** comes back when the check is passed. -/
theorem ramdiskWrite_eq (hcount : count < 256) : ramdiskWrite (ramdiskStart disk) mem buf count lba =
    if (24576 + 2048 * disk + lba + count) % 8388608 < 32768 then
      some (count, copy mem (u32 (ramdiskStart disk + lba * sectorSize)) (count * sectorSize) buf)
    else none := by
  have hcheck := ramdisk_check_iff disk lba hcount
  rw [ramdiskWrite]
  split
  · next h =>
    rw [assert_pos (hcheck.mpr h), Nat.mod_eq_of_lt hcount]
    rfl
  · next h =>
    rw [assert_neg (mt hcheck.mp h)]
    rfl

theorem RamdiskOp.inRange_iff (op : RamdiskOp) : op.InRange ↔
    (match op with | .read _ count lba _ | .write _ count lba _ => lba + count ≤ 2048) := by
  cases op with
  | read disk count lba buf =>
    rw [RamdiskOp.InRange, ramdiskIoctl_count]
    simp
  | write disk count lba buf =>
    rw [RamdiskOp.InRange, ramdiskIoctl_count]
    simp

/-- The first address of a transfer on the disk. -/
theorem ramdisk_start (hdisk : disk < ramdiskNr) (hin : lba + count ≤ 2048) :
    u32 (ramdiskStart disk + lba * sectorSize) = ramdiskStart disk + lba * sectorSize := by
  rw [ramdiskNr_eq] at hdisk
  rw [ramdiskStart_eq, sectorSize_eq]
  exact u32_of_lt (by omega)

/-- **A read of sectors of the disk.** -/
theorem ramdisk_transfers_read (h : s.Agrees) (hdisk : disk < ramdiskNr) (hcount : count < 256)
    (hin : lba + count ≤ 2048) (hguard : 2048 * disk + lba + count < 8192) :
    (RamdiskOp.read disk count lba buf).Transfers s := by
  refine ⟨copy buf 0 (count * sectorSize) fun k => s.mem (u32 (ramdiskStart disk + lba * sectorSize) + k), s, ?_, rfl,
    fun k hk => ?_⟩
  · rw [RamdiskOp.step, ramdiskRead_eq hcount, if_pos (by omega)]
    rfl
  · simp only [ramdisk_start hdisk hin]
    rw [copy_of_mem _ _ (Nat.zero_le _) (by omega), Nat.sub_zero, Nat.add_assoc]
    refine h disk hdisk _ ?_
    rw [sectorSize_eq] at hk ⊢
    rw [ramdiskSize_eq]
    omega

/-- **A write of sectors of the disk.** -/
theorem ramdisk_transfers_write (h : s.Agrees) (hdisk : disk < ramdiskNr) (hcount : count < 256)
    (hin : lba + count ≤ 2048) (hguard : 2048 * disk + lba + count < 8192) :
    (RamdiskOp.write disk count lba buf).Transfers s := by
  refine ⟨buf, ⟨copy s.mem (ramdiskStart disk + lba * sectorSize) (count * sectorSize) buf,
    Function.update s.last disk (copy (s.last disk) (lba * sectorSize) (count * sectorSize) buf)⟩, ?_,
    fun i hi a ha => ?_, fun a ha => ?_⟩
  · rw [RamdiskOp.step, ramdiskWrite_eq hcount, if_pos (by omega), ramdisk_start hdisk hin]
    rfl
  · simp only
    by_cases hd : i = disk
    · subst hd
      rw [Function.update_self]
      by_cases hk : lba * sectorSize ≤ a ∧ a < lba * sectorSize + count * sectorSize
      · rw [copy_of_mem _ _ (by omega) (by omega), copy_of_mem _ _ hk.1 hk.2]
        congr 1
        omega
      · rw [copy_of_notMem _ _ (by omega), copy_of_notMem _ _ (by omega)]
        exact h i hi a ha
    · rw [Function.update_of_ne hd, copy_of_notMem]
      · exact h i hi a ha
      · -- the disks are apart
        rw [ramdiskNr_eq] at hdisk hi
        rw [ramdiskSize_eq] at ha
        rw [ramdiskStart_eq, ramdiskStart_eq, sectorSize_eq]
        omega
  · refine copy_of_notMem _ _ ?_
    rwa [Nat.add_assoc, ← Nat.add_mul]

/-- What the two functions have in common: whether a transfer is done is decided by the check alone. -/
theorem RamdiskOp.serves_iff_of_check {op : RamdiskOp} (hdisk : disk < ramdiskNr)
    (hin : op.InRange ↔ lba + count ≤ 2048)
    (hnone : op.step s = none ↔ ¬(24576 + 2048 * disk + lba + count) % 8388608 < 32768)
    (hsome : op.Transfers s → op.step s ≠ none)
    (htransfers : lba + count ≤ 2048 → 2048 * disk + lba + count < 8192 → op.Transfers s) :
    op.Serves s ↔ if lba + count ≤ 2048 then 2048 * disk + lba + count < 8192
      else 32768 ≤ (24576 + 2048 * disk + lba + count) % 8388608 := by
  rw [ramdiskNr_eq] at hdisk
  rw [Serves, hin]
  by_cases h : lba + count ≤ 2048
  · rw [if_pos h]
    constructor
    · rintro ⟨hdone, -⟩
      have hcheck := mt hnone.mpr (hsome (hdone h))
      omega
    · exact fun hguard => ⟨fun _ => htransfers h hguard, fun hout => absurd h hout⟩
  · rw [if_neg h]
    constructor
    · rintro ⟨-, hrefused⟩
      exact Nat.not_lt.mp (hnone.mp (hrefused h))
    · exact fun hguard => ⟨fun hin => absurd hin h, fun _ => hnone.mpr (Nat.not_lt.mpr hguard)⟩

/-- **A call is right** exactly when the check is. -/
theorem RamdiskOp.serves_iff {op : RamdiskOp} (h : s.Agrees) (hlegal : op.Legal) : op.Serves s ↔ op.Guarded := by
  cases op with
  | read disk count lba buf =>
    obtain ⟨hdisk, -, hcount, -⟩ := hlegal
    refine serves_iff_of_check hdisk (inRange_iff _) ?_ ?_ (ramdisk_transfers_read h hdisk hcount)
    · rw [step, ramdiskRead_eq hcount, Option.map_eq_none_iff]
      simp
    · rintro ⟨out, t, hstep, -⟩ hnone
      exact absurd (hstep.symm.trans hnone) (by simp)
  | write disk count lba buf =>
    obtain ⟨hdisk, -, hcount, -⟩ := hlegal
    refine serves_iff_of_check hdisk (inRange_iff _) ?_ ?_ (ramdisk_transfers_write h hdisk hcount)
    · rw [step, ramdiskWrite_eq hcount, Option.map_eq_none_iff]
      simp
    · rintro ⟨out, t, hstep, -⟩ hnone
      exact absurd (hstep.symm.trans hnone) (by simp)

/-- A call that is right keeps the memory what was last written. -/
theorem RamdiskOp.Serves.agrees {op : RamdiskOp} {out : Bytes} (hserves : op.Serves s) (h : s.Agrees)
    (hstep : op.step s = some (out, t)) : t.Agrees := by
  by_cases hin : op.InRange
  · cases op with
    | read disk count lba buf =>
      obtain ⟨out', t', hstep', rfl, -⟩ := hserves.1 hin
      obtain ⟨-, rfl⟩ := Prod.mk.inj (Option.some.inj (hstep.symm.trans hstep'))
      exact h
    | write disk count lba buf =>
      obtain ⟨out', t', hstep', hagrees, -⟩ := hserves.1 hin
      obtain ⟨-, rfl⟩ := Prod.mk.inj (Option.some.inj (hstep.symm.trans hstep'))
      exact hagrees
  · exact absurd (hstep.symm.trans (hserves.2 hin)) (by simp)

/-- **The RAM disks over every run** of reads and writes on them, of any number of sectors from any sector on: all
calls are right, so that a read gives what was last written, a write changes the sectors it is about, and
a transfer behind the end of the disk is refused, exactly when the check is right for each of them. -/
theorem ramdiskRun_iff (ops : List RamdiskOp) (s : RamdiskState) (h : s.Agrees)
    (hlegal : Run.Along RamdiskOp.step (fun _ op => op.Legal) s ops) :
    Run.Along RamdiskOp.step (fun s op => op.Serves s) s ops ↔
      Run.Along RamdiskOp.step (fun _ op => op.Guarded) s ops :=
  Run.along_congr_of_legal RamdiskState.Agrees (fun _ _ h hl => RamdiskOp.serves_iff h hl)
    (fun _ _ _ _ h _ hserves hstep => hserves.agrees h hstep) ops s h hlegal

/-- Four disks of zeros. -/
def zeroRamdisks : RamdiskState where
  mem := fun _ => 0#8
  last := fun _ _ => 0#8

theorem zeroRamdisks_agrees : zeroRamdisks.Agrees := fun _ _ _ _ => rfl

/-- The last sector of the first disk. -/
theorem ramdiskRun_iff_first :
    Run.Along RamdiskOp.step (fun s op => op.Serves s) zeroRamdisks [.write 0 1 2047 fun _ => 1#8] := by
  refine (ramdiskRun_iff [.write 0 1 2047 fun _ => 1#8] zeroRamdisks zeroRamdisks_agrees ?_).mpr ?_
  · refine ⟨?_, fun _ _ _ => trivial⟩
    simp only [RamdiskOp.Legal]
    decide
  · refine ⟨?_, fun _ _ _ => trivial⟩
    simp only [RamdiskOp.Guarded]
    decide

/-- **The wrong sectors**: the last sector of the last disk is refused, and the sector behind the end of the first
disk is the first of the second. -/
theorem ramdisk_wrong : ¬(RamdiskOp.write 3 1 2047 fun _ => 1#8).Serves zeroRamdisks ∧
    ¬(RamdiskOp.write 0 1 2048 fun _ => 1#8).Serves zeroRamdisks ∧
    ∃ t, (RamdiskOp.write 0 1 2048 fun _ => 1#8).step zeroRamdisks = some (fun _ => 1#8, t) ∧
      t.mem (ramdiskStart 1) = 1#8 := by
  refine ⟨fun h => ?_, fun h => ?_, ?_⟩
  · have hguard := (RamdiskOp.serves_iff zeroRamdisks_agrees (by rw [RamdiskOp.Legal]; decide)).mp h
    rw [RamdiskOp.Guarded] at hguard
    exact absurd hguard (by decide)
  · have hguard := (RamdiskOp.serves_iff zeroRamdisks_agrees (by rw [RamdiskOp.Legal]; decide)).mp h
    rw [RamdiskOp.Guarded] at hguard
    exact absurd hguard (by decide)
  · rw [RamdiskOp.step, ramdiskWrite_eq (by decide), if_pos (by decide)]
    exact ⟨_, rfl, by decide⟩

end Bounds

end Onixs
