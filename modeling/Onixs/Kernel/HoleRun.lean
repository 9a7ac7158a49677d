import Onixs.Fs.Holes
import Onixs.Kernel.Seek

/-!
# Holes in files

`sys_lseek`, `sys_write` and `sys_read` on regular files, among other steps that leave the file system alone. A byte
that no `sys_write` has covered is zero, and no assertion fails, as long as each write finds the zones it needs, takes
no zone with something in it for an index block, and leaves no gap behind the old end of its file but zeros
(`Onixs.holeRun_zero`). What carries the run is `Onixs.FilesZeroed`.
-/

namespace Onixs

open Bytes

section Calls

variable {D : Type} (dr : Drivers D) (place : ℕ → ℕ × ℕ) (I : ℕ → Prop) (s : FileState D)

/-- The entry of the file table and the inode a descriptor of a task leads to. -/
def FileState.opened (pid : ℕ) (fd : ℤ) : Option (ℕ × ℕ) := do
  let f ← s.procs.fileAt pid fd
  let i ← (s.procs.fileTable f).inode
  return (f, i)

/-- Where `sys_lseek` goes. -/
def FileState.seekTarget (f i offset whence : ℕ) : Option ℕ :=
  if whence = seekSet then some offset
  else if whence = seekCur then some (u32 ((s.procs.fileTable f).offset + offset))
  else if whence = seekEnd then some (u32 ((s.procs.fs.inodeDesc i).size + offset))
  else none

namespace SeekOp

/-- **The calls are on the files of `I`**, and those of `sys_lseek` go to offsets below the largest size of a file;
anything else leaves the file system alone. -/
def OnFiles : SeekOp D → Prop
  | lseek pid fd offset whence => ∃ q ∈ s.opened pid fd, I q.2 ∧
      ∃ o ∈ s.seekTarget q.1 q.2 offset whence, o < totalBlock * blockSize
  | read pid fd _ _ | write pid fd _ _ => ∃ q ∈ s.opened pid fd, I q.2
  | other next => next.procs.fs = s.procs.fs

/-- **A write leaves no gap** but zeros, if the descriptor is open for writing. -/
def LeavesNoGap : SeekOp D → Prop
  | write pid fd _ len => ∀ q ∈ s.opened pid fd, (s.procs.fileTable q.1).flags &&& 3 ≠ 0 →
      FillsGap s.procs.fs (place q.2).1 (place q.2).2 (s.procs.fs.inodeDesc q.2).size (s.procs.fileTable q.1).offset len
  | _ => True

/-- A call that returns `r` has written the byte at position `o` of inode `i`. -/
def Covers (r : Option ℕ) : SeekOp D → ℕ → ℕ → Prop
  | write pid fd _ _, i, o => ∃ q ∈ s.opened pid fd, q.2 = i ∧ ∃ n ∈ r, n ≠ EOF ∧
      (s.procs.fileTable q.1).offset ≤ o ∧ o < (s.procs.fileTable q.1).offset + n
  | _, _, _ => False

/-- **A `sys_write` of the run has covered** the byte at position `o` of inode `i`. -/
def Covered : FileState D → List (SeekOp D) → ℕ → ℕ → Prop
  | _, [], _, _ => False
  | s, op :: ops, i, o => ∃ p ∈ op.step dr s, op.Covers s p.1 i o ∨ Covered p.2 ops i o

instance (r : Option ℕ) (i o : ℕ) : (op : SeekOp D) → Decidable (op.Covers s r i o)
  | write pid fd _ _ => inferInstanceAs (Decidable (∃ q ∈ s.opened pid fd, q.2 = i ∧ ∃ n ∈ r, _ ∧ _ ∧ _))
  | lseek .. | read .. | other _ => isFalse id

instance Covered.decidable (i o : ℕ) : ∀ s ops, Decidable (Covered dr s ops i o)
  | _, [] => isFalse id
  | s, op :: ops =>
      have := fun t => Covered.decidable i o t ops
      inferInstanceAs (Decidable (∃ p ∈ op.step dr s, op.Covers s p.1 i o ∨ Covered dr p.2 ops i o))

end SeekOp

/-- **`sys_read` of position `o` of inode `i` returns 0**, through any descriptor that is open for reading. -/
def FileState.ReadsZero (i o : ℕ) : Prop :=
  ∀ pid fd f buf, s.opened pid fd = some (f, i) → (s.procs.fileTable f).flags &&& 3 ≠ 1 →
    ∃ t out u, s.sysLseek pid fd o seekSet = some (o, t) ∧ t.sysRead dr pid fd buf 1 = some (1, out, u) ∧ out 0 = 0#8

/-- **New files**: regular files in order, apart from each other and empty, and none of them is a pipe. -/
structure FileState.NewFiles : Prop where
  /-- The files. -/
  files : RegularFiles s.procs.fs place I
  /-- They are empty. -/
  empty : ∀ i, I i → (s.procs.fs.inodeDesc i).size = 0
  /-- They are no pipes. -/
  pipi : ∀ i, I i → dr.pipi i = false

end Calls

section Steps

variable {D : Type} {dr : Drivers D} {place : ℕ → ℕ × ℕ} {I : ℕ → Prop} {C C' : ℕ → ℕ → Prop} {s t : FileState D}
  {pid f i len : ℕ} {fd : ℤ}

theorem isChr_of_isFile {mode : ℕ} (h : isFile mode = true) : isChr mode = false := by
  rw [isFile, beq_iff_eq] at h
  rw [isChr, h]
  rfl

theorem isBlk_of_isFile {mode : ℕ} (h : isFile mode = true) : isBlk mode = false := by
  rw [isFile, beq_iff_eq] at h
  rw [isBlk, h]
  rfl

theorem FilesZeroed.mono {s : Fs} (h : FilesZeroed s place I C) (hC : ∀ i o, C i o → C' i o) :
    FilesZeroed s place I C' :=
  ⟨h.files, fun i hi => ⟨(h.stored i hi).fit, (h.stored i hi).block,
    fun o ho hnot => (h.stored i hi).byte o ho fun hc => hnot (hC i o hc)⟩⟩

/-- New files have nothing in them. -/
theorem FileState.NewFiles.stored (h : s.NewFiles dr place I) : FilesZeroed s.procs.fs place I fun _ _ => False :=
  ⟨h.files, fun i hi => by
    have hsize := h.empty i hi
    refine ⟨by rw [hsize]; exact Nat.zero_le _, fun o ho => ?_, fun o ho => ?_⟩ <;>
    · rw [hsize] at ho
      exact absurd ho (Nat.not_lt_zero o)⟩

/-- The offset is no part of the file system. -/
theorem Processes.advance_fs (s : Processes) (f count : ℕ) : (s.advance f count).fs = s.fs := by
  rw [advance]
  split <;> rfl

namespace FileState

theorem opened_eq_some : s.opened pid fd = some (f, i) ↔
    s.procs.fileAt pid fd = some f ∧ (s.procs.fileTable f).inode = some i := by
  rw [opened, Option.bind_eq_bind, Option.bind_eq_some_iff]
  constructor
  · rintro ⟨f', hat, h⟩
    obtain ⟨i', hinode, heq⟩ := Option.bind_eq_some_iff.mp h
    obtain ⟨rfl, rfl⟩ := Prod.mk.inj (Option.some.inj heq)
    exact ⟨hat, hinode⟩
  · rintro ⟨hat, hinode⟩
    exact ⟨f, hat, Option.bind_eq_some_iff.mpr ⟨i, hinode, rfl⟩⟩

/-- `sys_lseek` of an offset in the range of a file. -/
theorem sysLseek_target (hopen : s.opened pid fd = some (f, i)) {offset whence o : ℕ} (hlt : o < totalBlock * blockSize)
    (htarget : s.seekTarget f i offset whence = some o) :
    s.sysLseek pid fd offset whence = some (o, { s with procs := s.procs.setOffset f o }) := by
  obtain ⟨hat, hinode⟩ := opened_eq_some.mp hopen
  rw [totalBlock_eq, blockSize_eq] at hlt
  rw [sysLseek, hat, assert_pos (Processes.fileAt_lt hat)]
  simp only [Option.bind_eq_bind, Option.bind_some, hinode]
  rw [seekTarget] at htarget
  by_cases hset : whence = seekSet
  · rw [if_pos hset] at htarget
    obtain rfl := Option.some.inj htarget
    rw [if_pos hset, assert_pos (show offset < 2147483648 by omega)]
    rfl
  · rw [if_neg hset] at htarget
    by_cases hcur : whence = seekCur
    · rw [if_pos hcur] at htarget
      obtain rfl := Option.some.inj htarget
      rw [if_neg hset, if_pos hcur, assert_pos (by omega)]
      rfl
    · rw [if_neg hcur] at htarget
      by_cases hend : whence = seekEnd
      · rw [if_pos hend] at htarget
        obtain rfl := Option.some.inj htarget
        rw [if_neg hset, if_neg hcur, assert_pos hend, assert_pos (Nat.zero_le _)]
        rfl
      · rw [if_neg hend] at htarget
        exact absurd htarget (by simp)

/-- **`sys_write`** of a regular file. -/
theorem sysWrite_stored (h : FilesZeroed s.procs.fs place I C) (hi : I i) (hpipi : dr.pipi i = false)
    (hopen : s.opened pid fd = some (f, i)) (buf : Bytes) (hfill : (s.procs.fileTable f).flags &&& 3 ≠ 0 →
      FillsGap s.procs.fs (place i).1 (place i).2 (s.procs.fs.inodeDesc i).size (s.procs.fileTable f).offset len) :
    ∃ n t, s.sysWrite dr pid fd buf len = some (n, t) ∧ FilesZeroed t.procs.fs place I fun j o =>
      C j o ∨ j = i ∧ n ≠ EOF ∧ (s.procs.fileTable f).offset ≤ o ∧ o < (s.procs.fileTable f).offset + n := by
  have hfile := (h.files.regular i hi).isFile
  obtain ⟨hat, hinode⟩ := opened_eq_some.mp hopen
  obtain ⟨p, hrun, hat'⟩ := Option.bind_eq_some_iff.mp hat
  obtain ⟨slot, hslot, hslotAt⟩ := Option.bind_eq_some_iff.mp hat'
  rw [sysWrite, hat]
  simp only [Option.bind_eq_bind, Option.bind_some, Processes.sysWrite, hrun, hslot, hslotAt, Option.pure_def]
  by_cases hread : (s.procs.fileTable f).flags &&& 3 = 0
  · rw [if_pos hread]
    exact ⟨EOF, s, rfl, h.mono fun _ _ hc => Or.inl hc⟩
  · have hfills := hfill hread
    have hfit := hfills.fit
    rw [totalBlock_eq, blockSize_eq] at hfit
    obtain ⟨fs, hwrite, hstored⟩ := h.inodeWrite hi hfills buf
    rw [if_neg hread, hinode]
    simp only [Option.bind_some, hpipi, isChr_of_isFile hfile, isBlk_of_isFile hfile, Bool.false_eq_true, if_false,
      hwrite]
    refine ⟨len, _, rfl, ?_⟩
    rw [Processes.advance_fs]
    refine hstored.mono fun j o hc => hc.imp_right ?_
    rintro ⟨hj, hlo, hhi⟩
    refine ⟨hj, ?_, hlo, hhi⟩
    rw [EOF]
    omega

/-- **`sys_read`** of a regular file. -/
theorem sysRead_stored (h : FilesZeroed s.procs.fs place I C) (hi : I i) (hpipi : dr.pipi i = false)
    (hopen : s.opened pid fd = some (f, i)) (buf : Bytes) (len : ℕ) :
    ∃ n out t, s.sysRead dr pid fd buf len = some (n, out, t) ∧ FilesZeroed t.procs.fs place I C ∧
      ((s.procs.fileTable f).flags &&& 3 ≠ 1 → (s.procs.fileTable f).offset < (s.procs.fs.inodeDesc i).size →
        n = min len ((s.procs.fs.inodeDesc i).size - (s.procs.fileTable f).offset) ∧
          ∀ k < n, ¬C i ((s.procs.fileTable f).offset + k) → out k = 0#8) := by
  have hfile := (h.files.regular i hi).isFile
  obtain ⟨hat, hinode⟩ := opened_eq_some.mp hopen
  rw [sysRead, hat]
  simp only [Option.bind_eq_bind, Option.bind_some, Option.pure_def]
  by_cases hwrite : (s.procs.fileTable f).flags &&& 3 = 1
  · rw [if_pos hwrite]
    exact ⟨EOF, buf, s, rfl, h, fun hc => absurd hwrite hc⟩
  · obtain ⟨n, out, fs, hread, hstored, hout⟩ := h.inodeRead hi buf len (s.procs.fileTable f).offset
    rw [if_neg hwrite, hinode]
    simp only [Option.bind_some, hpipi, isChr_of_isFile hfile, isBlk_of_isFile hfile, Bool.false_eq_true, if_false,
      hread]
    refine ⟨n, out, _, rfl, ?_, fun _ => hout⟩
    rw [Processes.advance_fs]
    exact hstored

/-- **A byte that has not been written reads as 0.** -/
theorem readsZero (h : FilesZeroed s.procs.fs place I C) (hi : I i) (hpipi : dr.pipi i = false) {o : ℕ}
    (ho : o < (s.procs.fs.inodeDesc i).size) (hC : ¬C i o) : s.ReadsZero dr i o := by
  intro pid fd f buf hopen hflags
  obtain ⟨hat, hinode⟩ := opened_eq_some.mp hopen
  have hfit := (h.stored i hi).fit
  have hseek : s.sysLseek pid fd o seekSet = _ := sysLseek_target hopen (lt_of_lt_of_le ho hfit) (if_pos rfl)
  have hfile : (s.procs.setOffset f o).fileTable f = { s.procs.fileTable f with offset := o } :=
    Processes.setFile_self ..
  have hopen' : opened { s with procs := s.procs.setOffset f o } pid fd = some (f, i) := opened_eq_some.mpr ⟨hat, by
    rw [hfile]
    exact hinode⟩
  obtain ⟨n, out, t, hread, -, hout⟩ :=
    sysRead_stored (s := { s with procs := s.procs.setOffset f o }) h hi hpipi hopen' buf 1
  simp only [hfile] at hout
  obtain ⟨hn, hzero⟩ := hout hflags ho
  have hone : n = 1 := by
    rw [hn]
    exact Nat.min_eq_left (Nat.sub_pos_of_lt ho)
  subst hone
  exact ⟨_, out, t, hseek, hread, hzero 0 Nat.one_pos hC⟩

end FileState

namespace SeekOp

variable {op : SeekOp D}

/-- **A step** keeps zeros where nobody has written. -/
theorem step_stored (h : FilesZeroed s.procs.fs place I C) (hpipi : ∀ i, I i → dr.pipi i = false) (hon : op.OnFiles I s)
    (hgap : op.LeavesNoGap place s) : ∃ r t, op.step dr s = some (r, t) ∧
      FilesZeroed t.procs.fs place I fun i o => C i o ∨ op.Covers s r i o := by
  cases op with
  | lseek pid fd offset whence =>
    obtain ⟨⟨f, i⟩, hopen, hi, o, htarget, hlt⟩ := hon
    rw [step, FileState.sysLseek_target hopen hlt htarget]
    exact ⟨_, _, rfl, h.mono fun _ _ => Or.inl⟩
  | read pid fd buf len =>
    obtain ⟨⟨f, i⟩, hopen, hi⟩ := hon
    obtain ⟨n, out, t, hread, hstored, -⟩ := FileState.sysRead_stored h hi (hpipi i hi) hopen buf len
    rw [step, hread]
    exact ⟨_, _, rfl, hstored.mono fun _ _ => Or.inl⟩
  | write pid fd buf len =>
    obtain ⟨⟨f, i⟩, hopen, hi⟩ := hon
    obtain ⟨n, t, hwrite, hstored⟩ := FileState.sysWrite_stored h hi (hpipi i hi) hopen buf (hgap (f, i) hopen)
    rw [step, hwrite]
    refine ⟨_, _, rfl, hstored.mono fun j o hc => hc.imp_right ?_⟩
    rintro ⟨rfl, hn, hlo, hhi⟩
    exact ⟨(f, j), hopen, rfl, n, rfl, hn, hlo, hhi⟩
  | other next => exact ⟨_, _, rfl, (show FilesZeroed next.procs.fs place I C from hon ▸ h).mono fun _ _ => Or.inl⟩

/-- **A run.** -/
theorem exec_stored (hpipi : ∀ i, I i → dr.pipi i = false) :
    ∀ (ops : List (SeekOp D)) {s : FileState D} {C : ℕ → ℕ → Prop}, FilesZeroed s.procs.fs place I C →
      Run.Along (fun s op => step dr s op) (fun s op => OnFiles I s op) s ops →
      Run.Along (fun s op => step dr s op) (fun s op => LeavesNoGap place s op) s ops →
      ∃ t, Run.exec (fun s op => step dr s op) s ops = some t ∧
        FilesZeroed t.procs.fs place I fun i o => C i o ∨ Covered dr s ops i o
  | [], s, _, h, _, _ => ⟨s, rfl, h.mono fun _ _ => Or.inl⟩
  | op :: ops, s, C, h, ⟨hon, honrest⟩, ⟨hgap, hgaprest⟩ => by
    obtain ⟨r, t, hstep, ht⟩ := step_stored h hpipi hon hgap
    obtain ⟨u, hexec, hu⟩ := exec_stored hpipi ops ht (honrest r t hstep) (hgaprest r t hstep)
    refine ⟨u, Run.exec_cons.mpr ⟨r, t, hstep, hexec⟩, hu.mono fun i o hc => ?_⟩
    rcases hc with (hc | hc) | hc
    · exact Or.inl hc
    · exact Or.inr ⟨(r, t), hstep, Or.inl hc⟩
    · exact Or.inr ⟨(r, t), hstep, Or.inr hc⟩

end SeekOp

end Steps

/-- **What nobody has written reads as zero**: in every run of `sys_lseek`, `sys_write` and `sys_read` on files that
were new, with offsets in the range of a file, among steps that leave the file system alone. If every write leaves no
gap but zeros, no assertion fails, and behind the run each position of a file that no `sys_write` has covered reads
as 0. -/
theorem holeRun_zero {D : Type} (dr : Drivers D) (place : ℕ → ℕ × ℕ) (I : ℕ → Prop) (ops : List (SeekOp D))
    (s : FileState D) (hnew : s.NewFiles dr place I)
    (hon : Run.Along (fun s op => SeekOp.step dr s op) (fun s op => SeekOp.OnFiles I s op) s ops)
    (hgap : Run.Along (fun s op => SeekOp.step dr s op) (fun s op => SeekOp.LeavesNoGap place s op) s ops) :
    ∃ t, Run.exec (fun s op => SeekOp.step dr s op) s ops = some t ∧
      ∀ i, I i → ∀ o < (t.procs.fs.inodeDesc i).size, ¬SeekOp.Covered dr s ops i o → t.ReadsZero dr i o := by
  obtain ⟨t, hexec, ht⟩ := SeekOp.exec_stored hnew.pipi ops hnew.stored hon hgap
  exact ⟨t, hexec, fun i hi o ho hC => FileState.readsZero ht hi (hnew.pipi i hi) ho fun hc => hc.elim id hC⟩

/-! ### Gaps -/

/-- The state of `Onixs.emptyFile`, with something in the free zones of its device. -/
def staleFile : FileState Unit := { emptyFile with procs := emptyFile.procs.setFs (fileFs fun _ => 65#8) }

/-- The calls of a run are on inode 0. -/
def OnFileZero (s : FileState Unit) (ops : List (SeekOp Unit)) : Prop :=
  Run.Along (fun s op => SeekOp.step noDrivers s op) (fun s op => SeekOp.OnFiles (· = 0) s op) s ops

/-- A byte is written at `offset` to the first file of task 1. -/
def writeAt (offset : ℕ) : List (SeekOp Unit) := [.lseek 1 0 offset seekSet, .write 1 0 (fun _ => 66#8) 1]

section Gaps

variable {s t : FileState Unit} {offset : ℕ}

theorem newFiles_fileFs (stale : Bytes) (hfs : s.procs.fs = fileFs stale) :
    s.NewFiles noDrivers (fun _ => (1, 2)) (· = 0) where
  files := by
    rw [hfs]
    refine ⟨fun i hi => ?_, ?_⟩
    · exact hi ▸ ⟨fileFs_layout _, fileFs_tree _, fileFs_zero _, fileFs_holds _, (fileFs_inodeDesc _).1⟩
    · rintro i rfl j rfl hne
      exact absurd rfl hne
  empty i hi := by
    rw [hfs, hi]
    exact (fileFs_inodeDesc _).2
  pipi _ _ := rfl

/-- The state behind the first of the two calls. -/
theorem eq_of_lseek (hopen : s.opened 1 0 = some (0, 0)) (hlt : offset < totalBlock * blockSize) {r : Option ℕ}
    (hstep : SeekOp.step noDrivers s (.lseek 1 0 offset seekSet) = some (r, t)) :
    t = { s with procs := s.procs.setOffset 0 offset } ∧ t.opened 1 0 = some (0, 0) := by
  rw [SeekOp.step, FileState.sysLseek_target hopen hlt (if_pos rfl)] at hstep
  obtain ⟨-, rfl⟩ := Prod.mk.inj (Option.some.inj hstep)
  obtain ⟨hat, hinode⟩ := FileState.opened_eq_some.mp hopen
  refine ⟨rfl, FileState.opened_eq_some.mpr ⟨hat, ?_⟩⟩
  rw [Processes.setOffset, Processes.setFile_self]
  exact hinode

theorem onFiles_writeAt (hopen : s.opened 1 0 = some (0, 0)) (hlt : offset < totalBlock * blockSize) :
    OnFileZero s (writeAt offset) := by
  refine ⟨⟨(0, 0), hopen, rfl, offset, if_pos rfl, hlt⟩, fun r u hstep => ⟨⟨(0, 0), ?_, rfl⟩, fun _ _ _ => trivial⟩⟩
  exact (eq_of_lseek hopen hlt hstep).2

/-- What a read of the first byte returns is seen. -/
theorem not_readsZero (hopen : s.opened 1 0 = some (0, 0)) (hflags : (s.procs.fileTable 0).flags &&& 3 ≠ 1)
    (hread : ((s.sysLseek 1 0 0 seekSet).bind fun r => r.2.sysRead noDrivers 1 0 (fun _ => 0#8) 1).any
      (fun r => r.2.1 0 = 0#8) = false) : ¬s.ReadsZero noDrivers 0 0 := by
  intro hzero
  obtain ⟨u, out, v, hseek, hrun, h0⟩ := hzero 1 0 0 (fun _ => 0#8) hopen hflags
  rw [hseek, Option.bind_some, hrun] at hread
  exact absurd h0 (of_decide_eq_false hread)

/-- Four bytes of a new file are left out, on a device whose free zones have zeros. -/
theorem holeRun_zero_seek : ∃ t, Run.exec (fun s op => SeekOp.step noDrivers s op) emptyFile (writeAt 4) = some t ∧
    ∀ i, i = 0 → ∀ o < (t.procs.fs.inodeDesc i).size, ¬SeekOp.Covered noDrivers emptyFile (writeAt 4) i o →
      t.ReadsZero noDrivers i o := by
  have hopen : emptyFile.opened 1 0 = some (0, 0) := by decide
  refine holeRun_zero noDrivers (fun _ => (1, 2)) (· = 0) (writeAt 4) emptyFile (newFiles_fileFs (fun _ => 0#8) rfl)
    (onFiles_writeAt hopen (by decide)) ⟨trivial, fun r u hstep => ⟨?_, fun _ _ _ => trivial⟩⟩
  obtain ⟨rfl, hopen'⟩ := eq_of_lseek hopen (by decide) hstep
  rintro q hq -
  obtain rfl : (0, 0) = q := Option.some.inj (hopen'.symm.trans hq)
  have hempty : (fileFs fun _ => 0#8).zoneAt 1 2 [0] = 0 := fileFs_zoneAt _ (by decide) (by decide) (.root (by decide))
  have hsize : ((fileFs fun _ => 0#8).inodeDesc 0).size = 0 := (fileFs_inodeDesc _).2
  change FillsGap (fileFs fun _ => 0#8) 1 2 ((fileFs fun _ => 0#8).inodeDesc 0).size 4 1
  refine ⟨by decide, ?_, fun _ o _ ho hblock => ?_, fun _ o _ ho _ => by omega⟩
  · obtain ⟨z, zs, hlist⟩ := List.exists_cons_of_ne_nil
      (List.ne_nil_of_mem (mem_freeList.mpr (fileFs_first fun _ => 0#8).1))
    obtain rfl := (fileFs_first fun _ => 0#8).eq_head hlist
    rw [show neededSlots 4 1 = [[0]] by decide, hlist]
    refine .take (not_not.mpr hempty) ⟨fun hnode => absurd hnode (not_isNode_bmapSlot 0), fun _ o _ _ _ => ?_⟩ .nil
    rw [fileFs_blk _ (by decide)]
    rfl
  · rw [show o / 1024 = 0 by omega] at hblock
    exact absurd hempty hblock

/-- **Gaps that are not zero**: a byte is written to a new file behind its first block, which has no zone then, and
cannot be read; and a byte is written behind the first one, which is what the zone had before. -/
theorem holeRun_gap :
    (emptyFile.NewFiles noDrivers (fun _ => (1, 2)) (· = 0) ∧
      OnFileZero emptyFile (writeAt 1024) ∧
      ∃ t, Run.exec (fun s op => SeekOp.step noDrivers s op) emptyFile (writeAt 1024) = some t ∧
        0 < (t.procs.fs.inodeDesc 0).size ∧ ¬SeekOp.Covered noDrivers emptyFile (writeAt 1024) 0 0 ∧
        (∃ u, t.sysLseek 1 0 0 seekSet = some (0, u) ∧ u.sysRead noDrivers 1 0 (fun _ => 0#8) 1 = none) ∧
        ¬t.ReadsZero noDrivers 0 0) ∧
    (staleFile.NewFiles noDrivers (fun _ => (1, 2)) (· = 0) ∧
      OnFileZero staleFile (writeAt 1) ∧
      ∃ t, Run.exec (fun s op => SeekOp.step noDrivers s op) staleFile (writeAt 1) = some t ∧
        0 < (t.procs.fs.inodeDesc 0).size ∧ ¬SeekOp.Covered noDrivers staleFile (writeAt 1) 0 0 ∧
        ¬t.ReadsZero noDrivers 0 0) := by
  refine ⟨⟨newFiles_fileFs (fun _ => 0#8) rfl, onFiles_writeAt (by decide) (by decide), ?_⟩,
    newFiles_fileFs (fun _ => 65#8) rfl, onFiles_writeAt (by decide) (by decide), ?_⟩
  · have hrun : (Run.exec (fun s op => SeekOp.step noDrivers s op) emptyFile (writeAt 1024)).any (fun t =>
        decide (t.opened 1 0 = some (0, 0) ∧ (t.procs.fileTable 0).flags &&& 3 ≠ 1 ∧ 0 < (t.procs.fs.inodeDesc 0).size ∧
          ¬SeekOp.Covered noDrivers emptyFile (writeAt 1024) 0 0) &&
        ((t.sysLseek 1 0 0 seekSet).any fun r =>
          decide (r.1 = 0) && (r.2.sysRead noDrivers 1 0 (fun _ => 0#8) 1).isNone)) = true := by
      decide +kernel
    obtain ⟨t, ht, hfacts⟩ := (Option.any_eq_true _ _).mp hrun
    obtain ⟨hfacts, hread⟩ := (Bool.and_eq_true _ _).mp hfacts
    obtain ⟨hopen, hflags, hsize, hcovered⟩ := of_decide_eq_true hfacts
    obtain ⟨⟨o, u⟩, hseek, hnone⟩ := (Option.any_eq_true _ _).mp hread
    obtain ⟨ho, hnone⟩ := (Bool.and_eq_true _ _).mp hnone
    obtain rfl := of_decide_eq_true ho
    have hnone := Option.isNone_iff_eq_none.mp hnone
    refine ⟨t, ht, hsize, hcovered, ⟨u, hseek, hnone⟩, not_readsZero hopen hflags ?_⟩
    rw [hseek, Option.bind_some, hnone]
    rfl
  · have hrun : (Run.exec (fun s op => SeekOp.step noDrivers s op) staleFile (writeAt 1)).any (fun t =>
        decide (t.opened 1 0 = some (0, 0) ∧ (t.procs.fileTable 0).flags &&& 3 ≠ 1 ∧ 0 < (t.procs.fs.inodeDesc 0).size ∧
          ¬SeekOp.Covered noDrivers staleFile (writeAt 1) 0 0 ∧
          ((t.sysLseek 1 0 0 seekSet).bind fun r => r.2.sysRead noDrivers 1 0 (fun _ => 0#8) 1).any
            (fun r => r.2.1 0 = 0#8) = false)) = true := by
      decide +kernel
    obtain ⟨t, ht, hfacts⟩ := (Option.any_eq_true _ _).mp hrun
    obtain ⟨hopen, hflags, hsize, hcovered, hread⟩ := of_decide_eq_true hfacts
    exact ⟨t, ht, hsize, hcovered, not_readsZero hopen hflags hread⟩

end Gaps

end Onixs
