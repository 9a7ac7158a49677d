import Onixs.Common.Refine
import Onixs.Fs.Contents
import Onixs.Kernel.HoleRun

/-!
# Files are sequences of bytes

What a program may rely on: a file is a sequence of bytes, an open file has an offset in one, and descriptors of any
tasks lead to open files (`Onixs.ByteFiles`). There are no blocks here, no zones and no times. `sys_lseek`, `sys_read`
and `sys_write` on regular files answer as this machine does, to the last byte of every buffer, in every run of any tasks
on any files (`Onixs.filesRun_trace`), as long as each write finds the zones it needs and leaves no gap but zeros. Other
steps may change the descriptors, and whatever of the file system is not in the files.
-/

namespace Onixs

open Bytes Contents

/-! ### What files are for -/

/-- **Files and descriptors**, as a program sees them. -/
structure ByteFiles where
  /-- The open file and the file that a descriptor of a task leads to. -/
  opened : ℕ → ℤ → Option (ℕ × ℕ)
  /-- The flags of an open file. -/
  flags : ℕ → ℕ
  /-- The offset of an open file. -/
  offset : ℕ → ℕ
  /-- The bytes of a file. -/
  contents : ℕ → List Byte

/-- What a call gives back. -/
inductive FileReply where
  /-- A number. -/
  | number (n : ℕ)
  /-- A number, and the buffer. -/
  | bytes (n : ℕ) (buf : Bytes)
  /-- It is no call. -/
  | nothing

namespace ByteFiles

variable {D : Type} (a : ByteFiles)

/-- Where a seek goes. -/
def seekTarget (f i offset whence : ℕ) : Option ℕ :=
  if whence = seekSet then some offset
  else if whence = seekCur then some (u32 (a.offset f + offset))
  else if whence = seekEnd then some (u32 ((a.contents i).length + offset))
  else none

/-- A call on the sequences. -/
def step : ByteFiles → SeekOp D → Option (FileReply × ByteFiles)
  | a, .lseek pid fd offset whence => do
      let (f, i) ← a.opened pid fd
      let o ← a.seekTarget f i offset whence
      return (.number o, { a with offset := Function.update a.offset f o })
  | a, .read pid fd buf len => do
      let (f, i) ← a.opened pid fd
      if a.flags f &&& 3 = 1 then
        return (.bytes EOF buf, a)
      if (a.contents i).length ≤ a.offset f then
        return (.bytes EOF buf, a)
      let new := slice (a.contents i) (a.offset f) len
      return (.bytes new.length (buf.copy 0 new.length (new.getD · 0#8)),
        { a with offset := Function.update a.offset f (a.offset f + new.length) })
  | a, .write pid fd buf len => do
      let (f, i) ← a.opened pid fd
      if a.flags f &&& 3 = 0 then
        return (.number EOF, a)
      return (.number len, { a with
        contents := Function.update a.contents i (splice 0#8 (a.contents i) (a.offset f) (buf.first len))
        offset := Function.update a.offset f (a.offset f + len) })
  | a, .other next => some (.nothing, { a with
      opened := next.opened
      flags := fun f => (next.procs.fileTable f).flags
      offset := fun f => (next.procs.fileTable f).offset })

end ByteFiles

/-! ### What the calls do -/

section Calls

variable {D : Type} (dr : Drivers D) (place : ℕ → ℕ × ℕ) (I : ℕ → Prop) (s : FileState D)

namespace SeekOp

/-- A step of the machine, with all that the call gives back. -/
def reply : SeekOp D → Option (FileReply × FileState D)
  | lseek pid fd offset whence => (s.sysLseek pid fd offset whence).map fun r => (.number r.1, r.2)
  | read pid fd buf len => (s.sysRead dr pid fd buf len).map fun r => (.bytes r.1 r.2.1, r.2.2)
  | write pid fd buf len => (s.sysWrite dr pid fd buf len).map fun r => (.number r.1, r.2)
  | other next => some (.nothing, next)

/-- **The calls are on the files of `I`**, and those of `sys_lseek` go to offsets below the largest size of a file;
anything else leaves these files as they are. -/
def KeepsFiles : SeekOp D → Prop
  | other next => RegularFiles next.procs.fs place I ∧
      ∀ i, I i → SameFile s.procs.fs next.procs.fs (place i).1 (place i).2
  | op => op.OnFiles I s

end SeekOp

/-- **Regular files in order**, apart from each other and without holes; none of them is a pipe. -/
structure FileState.WholeFiles : Prop where
  /-- The files. -/
  whole : FilesWhole s.procs.fs place I
  /-- They are no pipes. -/
  pipi : ∀ i, I i → dr.pipi i = false

/-- **What a program sees of the machine**, as far as the files of `I` go. -/
structure ByteFiles.Shows (a : ByteFiles) : Prop where
  /-- The descriptors. -/
  opened : a.opened = s.opened
  /-- The flags. -/
  flags : ∀ f, a.flags f = (s.procs.fileTable f).flags
  /-- The offsets. -/
  offset : ∀ f, a.offset f = (s.procs.fileTable f).offset
  /-- The files. -/
  contents : ∀ i, I i → a.contents i = s.procs.fs.contents (place i).1 (place i).2 i

/-- The files as they are. -/
def FileState.byteFiles : ByteFiles where
  opened := s.opened
  flags f := (s.procs.fileTable f).flags
  offset f := (s.procs.fileTable f).offset
  contents i := s.procs.fs.contents (place i).1 (place i).2 i

theorem FileState.shows_byteFiles : (s.byteFiles place).Shows place I s :=
  ⟨rfl, fun _ => rfl, fun _ => rfl, fun _ _ => rfl⟩

end Calls

section Steps

variable {D : Type} {dr : Drivers D} {place : ℕ → ℕ × ℕ} {I : ℕ → Prop} {s t : FileState D} {a : ByteFiles}
  {pid f i len offset whence o : ℕ} {fd : ℤ}

namespace FileState

theorem NewFiles.wholeFiles (h : s.NewFiles dr place I) : s.WholeFiles dr place I := ⟨h.stored.whole, h.pipi⟩

/-- The offset of one open file, and nothing else of what a program sees. -/
theorem opened_setOffset (procs : Processes) (devs : D) :
    opened (FileState.mk (procs.setOffset f o) devs) = opened (FileState.mk procs devs) := by
  funext pid fd
  have hat : (procs.setOffset f o).fileAt pid fd = procs.fileAt pid fd := rfl
  rw [opened, opened, hat]
  refine congrArg _ (funext fun g => ?_)
  by_cases hg : g = f
  · subst hg
    rw [show ((procs.setOffset g o).fileTable g).inode = _ from congrArg File.inode (Processes.setFile_self ..)]
  · rw [show (procs.setOffset f o).fileTable g = _ from Function.update_of_ne hg ..]

/-- `sys_read` of a regular file, by the function of the file system. -/
theorem sysRead_file (hopen : s.opened pid fd = some (f, i)) (hfile : isFile (s.procs.fs.inodeDesc i).mode = true)
    (hpipi : dr.pipi i = false) (buf : Bytes) (len : ℕ) :
    s.sysRead dr pid fd buf len = if (s.procs.fileTable f).flags &&& 3 = 1 then some (EOF, buf, s)
      else (inodeRead s.procs.fs i buf len (s.procs.fileTable f).offset).map fun r =>
        (r.1, r.2.1, { s with procs := (s.procs.setFs r.2.2).advance f r.1 }) := by
  obtain ⟨hat, hinode⟩ := opened_eq_some.mp hopen
  rw [sysRead, hat]
  simp only [Option.bind_eq_bind, Option.bind_some, Option.pure_def]
  split
  · rfl
  · rw [hinode]
    simp only [Option.bind_some, hpipi, isChr_of_isFile hfile, isBlk_of_isFile hfile, Bool.false_eq_true, if_false]
    rw [Option.map_eq_bind]
    rfl

/-- `sys_write` of a regular file, by the function of the file system. -/
theorem sysWrite_file (hopen : s.opened pid fd = some (f, i)) (hfile : isFile (s.procs.fs.inodeDesc i).mode = true)
    (hpipi : dr.pipi i = false) (buf : Bytes) (len : ℕ) :
    s.sysWrite dr pid fd buf len = if (s.procs.fileTable f).flags &&& 3 = 0 then some (EOF, s)
      else (inodeWrite s.procs.fs i buf len (s.procs.fileTable f).offset).map fun r =>
        (r.1, { s with procs := (s.procs.setFs r.2).advance f r.1 }) := by
  obtain ⟨hat, hinode⟩ := opened_eq_some.mp hopen
  obtain ⟨p, hrun, hat'⟩ := Option.bind_eq_some_iff.mp hat
  obtain ⟨slot, hslot, hslotAt⟩ := Option.bind_eq_some_iff.mp hat'
  rw [sysWrite, hat]
  simp only [Option.bind_eq_bind, Option.bind_some, Processes.sysWrite, hrun, hslot, hslotAt, Option.pure_def]
  split
  · rfl
  · rw [hinode]
    simp only [Option.bind_some, hpipi, isChr_of_isFile hfile, isBlk_of_isFile hfile, Bool.false_eq_true, if_false]
    rw [Option.map_eq_bind]
    rfl

end FileState

namespace ByteFiles

theorem step_lseek (hopen : a.opened pid fd = some (f, i)) (htarget : a.seekTarget f i offset whence = some o) :
    step a (.lseek pid fd offset whence : SeekOp D)
      = some (.number o, { a with offset := Function.update a.offset f o }) := by
  rw [step, hopen]
  simp only [Option.bind_eq_bind, Option.bind_some, htarget]
  rfl

/-- A read that is refused, or begins at the end. -/
theorem step_read_none (hopen : a.opened pid fd = some (f, i)) (buf : Bytes) (len : ℕ)
    (h : a.flags f &&& 3 = 1 ∨ (a.contents i).length ≤ a.offset f) :
    step a (.read pid fd buf len : SeekOp D) = some (.bytes EOF buf, a) := by
  rw [step, hopen]
  simp only [Option.bind_eq_bind, Option.bind_some]
  split
  · rfl
  · next hflags =>
    rw [if_pos (h.resolve_left hflags)]
    rfl

theorem step_read (hopen : a.opened pid fd = some (f, i)) (hflags : ¬a.flags f &&& 3 = 1)
    (hend : ¬(a.contents i).length ≤ a.offset f) (buf : Bytes) {len n : ℕ}
    (hn : (slice (a.contents i) (a.offset f) len).length = n) :
    step a (.read pid fd buf len : SeekOp D)
      = some (.bytes n (buf.copy 0 n ((slice (a.contents i) (a.offset f) len).getD · 0#8)),
        { a with offset := Function.update a.offset f (a.offset f + n) }) := by
  rw [step, hopen, ← hn]
  simp only [Option.bind_eq_bind, Option.bind_some, if_neg hflags, if_neg hend]
  rfl

/-- A write that is refused. -/
theorem step_write_none (hopen : a.opened pid fd = some (f, i)) (buf : Bytes) (len : ℕ) (hflags : a.flags f &&& 3 = 0) :
    step a (.write pid fd buf len : SeekOp D) = some (.number EOF, a) := by
  rw [step, hopen]
  simp only [Option.bind_eq_bind, Option.bind_some, if_pos hflags]
  rfl

theorem step_write (hopen : a.opened pid fd = some (f, i)) (buf : Bytes) (len : ℕ) (hflags : ¬a.flags f &&& 3 = 0) :
    step a (.write pid fd buf len : SeekOp D) = some (.number len, { a with
      contents := Function.update a.contents i (splice 0#8 (a.contents i) (a.offset f) (buf.first len))
      offset := Function.update a.offset f (a.offset f + len) }) := by
  rw [step, hopen]
  simp only [Option.bind_eq_bind, Option.bind_some, if_neg hflags]
  rfl

/-- A call that moves an offset, and may change the files. -/
theorem Shows.moved (h : a.Shows place I s) (fs : Fs) (contents : ℕ → List Byte)
    (hcontents : ∀ i, I i → contents i = fs.contents (place i).1 (place i).2 i) (f o : ℕ) :
    ByteFiles.Shows place I { s with procs := (s.procs.setFs fs).setOffset f o }
      { a with contents := contents, offset := Function.update a.offset f o } where
  opened := by
    rw [FileState.opened_setOffset]
    exact h.opened
  flags g := by
    by_cases hg : g = f
    · subst hg
      exact (h.flags g).trans (congrArg File.flags
        (Processes.setFile_self (s.procs.setFs fs) g { s.procs.fileTable g with offset := o })).symm
    · exact (h.flags g).trans (congrArg File.flags (Function.update_of_ne hg ..)).symm
  offset g := by
    by_cases hg : g = f
    · subst hg
      exact (Function.update_self ..).trans (Processes.setOffset_offset ..).symm
    · refine (Function.update_of_ne hg ..).trans ((h.offset g).trans ?_)
      exact (congrArg File.offset (Function.update_of_ne hg ..)).symm
  contents := hcontents

/-- The offset behind a call that has read or written `n` bytes. -/
theorem Shows.advance (h : a.Shows place I s) (fs : Fs) {n : ℕ} (hlt : a.offset f + n < 4294967295) :
    (s.procs.setFs fs).advance f n = (s.procs.setFs fs).setOffset f (a.offset f + n) := by
  have hoffset : a.offset f = ((s.procs.setFs fs).fileTable f).offset := h.offset f
  rw [Processes.advance, if_pos (by rw [EOF]; omega), ← hoffset, u32_of_lt (by omega)]

theorem Shows.seekTarget (h : a.Shows place I s) (hi : I i) :
    a.seekTarget f i offset whence = s.seekTarget f i offset whence := by
  rw [ByteFiles.seekTarget, FileState.seekTarget, h.offset f, h.contents i hi, length_contents]

end ByteFiles

/-- A call of both machines, with the same answer, behind which the files are in order and seen as they are. -/
def Answered (dr : Drivers D) (place : ℕ → ℕ × ℕ) (I : ℕ → Prop) (s : FileState D) (a : ByteFiles) (op : SeekOp D) :
    Prop :=
  ∃ r t b, op.reply dr s = some (r, t) ∧ ByteFiles.step a op = some (r, b) ∧
    t.WholeFiles dr place I ∧ b.Shows place I t

section Answers

variable (h : s.WholeFiles dr place I) (ha : a.Shows place I s) (hopen : s.opened pid fd = some (f, i)) (hi : I i)

include h ha hopen hi

/-- **`sys_lseek`.** -/
theorem answered_lseek (htarget : s.seekTarget f i offset whence = some o) (hlt : o < totalBlock * blockSize) :
    Answered dr place I s a (.lseek pid fd offset whence) := by
  have hstep := ByteFiles.step_lseek (D := D) (ha.opened ▸ hopen) ((ha.seekTarget hi).trans htarget)
  refine ⟨.number o, _, _, ?_, hstep, ?_, ha.moved s.procs.fs a.contents ha.contents f o⟩
  · rw [SeekOp.reply, FileState.sysLseek_target hopen hlt htarget]
    rfl
  · exact ⟨h.whole, h.pipi⟩

/-- **`sys_read`.** -/
theorem answered_read (buf : Bytes) (len : ℕ) : Answered dr place I s a (.read pid fd buf len) := by
  have hopen' : a.opened pid fd = some (f, i) := ha.opened ▸ hopen
  have hreg := h.whole.files.regular i hi
  have hfit := (h.whole.stored i hi).fit
  rw [totalBlock_eq, blockSize_eq] at hfit
  have hcall := FileState.sysRead_file hopen hreg.isFile (h.pipi i hi) buf len
  rw [(h.whole.stored i hi).inodeRead_contents hreg, ← ha.contents i hi, ← ha.flags f, ← ha.offset f] at hcall
  by_cases hflags : a.flags f &&& 3 = 1
  · refine ⟨.bytes EOF buf, s, a, ?_, ByteFiles.step_read_none hopen' buf len (Or.inl hflags), h, ha⟩
    rw [SeekOp.reply, hcall, if_pos hflags]
    rfl
  rw [if_neg hflags] at hcall
  by_cases hend : (a.contents i).length ≤ a.offset f
  · -- nothing is read, and the offset stays
    refine ⟨.bytes EOF buf, s, a, ?_, ByteFiles.step_read_none hopen' buf len (Or.inr hend), h, ha⟩
    rw [SeekOp.reply, hcall, if_pos hend]
    rfl
  · have hlength : (a.contents i).length = (s.procs.fs.inodeDesc i).size := by
      rw [ha.contents i hi, length_contents]
    obtain ⟨n, hn⟩ : ∃ n, (slice (a.contents i) (a.offset f) len).length = n := ⟨_, rfl⟩
    rw [if_neg hend, hn] at hcall
    obtain ⟨hwhole, hsame⟩ := h.whole.setAtime hi s.procs.fs.time
    have hshows := ha.moved (s.procs.fs.setAtime i s.procs.fs.time) a.contents
      (fun j hj => (ha.contents j hj).trans (hsame j hj).symm) f (a.offset f + n)
    refine ⟨_, _, _, ?_, ByteFiles.step_read hopen' hflags hend buf hn, ⟨?_, h.pipi⟩, hshows⟩
    · rw [length_slice] at hn
      rw [SeekOp.reply, hcall, Option.map_some, Option.map_some, ha.advance _ (by omega)]
    · exact hwhole

/-- **`sys_write`.** -/
theorem answered_write (buf : Bytes) (hfill : (s.procs.fileTable f).flags &&& 3 ≠ 0 →
      FillsGap s.procs.fs (place i).1 (place i).2 (s.procs.fs.inodeDesc i).size (s.procs.fileTable f).offset len) :
    Answered dr place I s a (.write pid fd buf len) := by
  have hopen' : a.opened pid fd = some (f, i) := ha.opened ▸ hopen
  have hcall := FileState.sysWrite_file hopen (h.whole.files.regular i hi).isFile (h.pipi i hi) buf len
  rw [← ha.flags f] at hcall hfill
  rw [← ha.offset f] at hcall hfill
  by_cases hflags : a.flags f &&& 3 = 0
  · refine ⟨.number EOF, s, a, ?_, ByteFiles.step_write_none hopen' buf len hflags, h, ha⟩
    rw [SeekOp.reply, hcall, if_pos hflags]
    rfl
  · have hfit := (hfill hflags).fit
    rw [totalBlock_eq, blockSize_eq] at hfit
    obtain ⟨fs, hrun, hwhole, hsame⟩ := h.whole.inodeWrite hi (hfill hflags) buf
    rw [if_neg hflags, hrun] at hcall
    have hshows := ha.moved fs (Function.update a.contents i
      (splice 0#8 (a.contents i) (a.offset f) (buf.first len))) (fun j hj => ?_) f (a.offset f + len)
    · refine ⟨.number len, _, _, ?_, ByteFiles.step_write hopen' buf len hflags, ⟨?_, h.pipi⟩, hshows⟩
      · rw [SeekOp.reply, hcall, Option.map_some, Option.map_some, ha.advance _ (by omega)]
      · exact hwhole
    · rw [hsame j hj, Function.update_apply]
      split
      · rw [ha.contents i hi]
      · exact ha.contents j hj

end Answers

/-- **Each step** is a step on the sequences. -/
theorem answered_step (h : s.WholeFiles dr place I) (ha : a.Shows place I s) {op : SeekOp D}
    (hkeeps : op.KeepsFiles place I s) (hgap : op.LeavesNoGap place s) : Answered dr place I s a op := by
  cases op with
  | lseek pid fd offset whence =>
    obtain ⟨⟨f, i⟩, hopen, hi, o, htarget, hlt⟩ := hkeeps
    exact answered_lseek h ha hopen hi htarget hlt
  | read pid fd buf len =>
    obtain ⟨⟨f, i⟩, hopen, hi⟩ := hkeeps
    exact answered_read h ha hopen hi buf len
  | write pid fd buf len =>
    obtain ⟨⟨f, i⟩, hopen, hi⟩ := hkeeps
    exact answered_write h ha hopen hi buf (hgap (f, i) hopen)
  | other next =>
    obtain ⟨hfiles, hsame⟩ := hkeeps
    obtain ⟨hwhole, hcontents⟩ := h.whole.of_same hfiles hsame
    refine ⟨.nothing, next, _, rfl, rfl, ⟨hwhole, h.pipi⟩, ⟨rfl, fun _ => rfl, fun _ => rfl, fun i hi => ?_⟩⟩
    exact (ha.contents i hi).trans (hcontents i hi).symm

/-- The descriptors, and what else no call changes. -/
theorem ByteFiles.step_opened {op : SeekOp D} {r : FileReply} {b : ByteFiles} (hcall : ∀ next, op ≠ .other next)
    (hstep : ByteFiles.step a op = some (r, b)) : b.opened = a.opened := by
  cases op with
  | lseek pid fd offset whence =>
    obtain ⟨q, -, hstep⟩ := Option.bind_eq_some_iff.mp hstep
    obtain ⟨o, -, hstep⟩ := Option.bind_eq_some_iff.mp hstep
    obtain ⟨-, rfl⟩ := Prod.mk.inj (Option.some.inj hstep)
    rfl
  | read pid fd buf len =>
    obtain ⟨q, -, hstep⟩ := Option.bind_eq_some_iff.mp hstep
    simp only at hstep
    split at hstep
    · obtain ⟨-, rfl⟩ := Prod.mk.inj (Option.some.inj hstep)
      rfl
    · split at hstep <;>
      · obtain ⟨-, rfl⟩ := Prod.mk.inj (Option.some.inj hstep)
        rfl
  | write pid fd buf len =>
    obtain ⟨q, -, hstep⟩ := Option.bind_eq_some_iff.mp hstep
    simp only at hstep
    split at hstep <;>
    · obtain ⟨-, rfl⟩ := Prod.mk.inj (Option.some.inj hstep)
      rfl
  | other next => exact absurd rfl (hcall next)

theorem opened_of_reply (h : s.WholeFiles dr place I) {op : SeekOp D} {r : FileReply}
    (hkeeps : op.KeepsFiles place I s) (hgap : op.LeavesNoGap place s) (hcall : ∀ next, op ≠ .other next)
    (hreply : op.reply dr s = some (r, t)) :
    t.opened = s.opened ∧ t.WholeFiles dr place I := by
  obtain ⟨r', t', b, hreply', hstep, ht, hb⟩ := answered_step h (FileState.shows_byteFiles place I s) hkeeps hgap
  obtain ⟨-, rfl⟩ := Prod.mk.inj (Option.some.inj (hreply.symm.trans hreply'))
  exact ⟨hb.opened.symm.trans (ByteFiles.step_opened hcall hstep), ht⟩

end Steps

/-! ### A file that is written and read -/

section EmptyFile

variable {t : FileState Unit} {r : FileReply}

theorem opened_emptyFile : emptyFile.opened 1 0 = some (0, 0) := by decide

theorem wholeFiles_emptyFile : emptyFile.WholeFiles noDrivers (fun _ => (1, 2)) (· = 0) :=
  (newFiles_fileFs (s := emptyFile) (fun _ => 0#8) rfl).wholeFiles

/-- A byte that is written to the empty file. -/
def writeByte : SeekOp Unit := .write 1 0 (fun _ => 66#8) 1

theorem keepsFiles_writeByte : writeByte.KeepsFiles (fun _ => (1, 2)) (· = 0) emptyFile :=
  ⟨(0, 0), opened_emptyFile, rfl⟩

theorem leavesNoGap_writeByte : writeByte.LeavesNoGap (fun _ => (1, 2)) emptyFile := by
  rintro q hq -
  obtain rfl : (0, 0) = q := Option.some.inj (opened_emptyFile.symm.trans hq)
  have hempty : (fileFs fun _ => 0#8).zoneAt 1 2 [0] = 0 := fileFs_zoneAt _ (by decide) (by decide) (.root (by decide))
  obtain ⟨z, zs, hlist⟩ := List.exists_cons_of_ne_nil
    (List.ne_nil_of_mem (mem_freeList.mpr (fileFs_first fun _ => 0#8).1))
  change FillsGap (fileFs fun _ => 0#8) 1 2 ((fileFs fun _ => 0#8).inodeDesc 0).size 0 1
  refine ⟨by decide, ?_, fun _ o _ ho => absurd ho (Nat.not_lt_zero o), fun _ o _ ho => absurd ho (Nat.not_lt_zero o)⟩
  rw [show neededSlots 0 1 = [[0]] by decide, hlist]
  refine .take (not_not.mpr hempty) ⟨fun hnode => absurd hnode (not_isNode_bmapSlot 0), fun _ o _ ho => ?_⟩ .nil
  exact absurd ho (Nat.not_lt_zero o)

/-- Behind it the descriptor is what it was, and the file can be read from its beginning. -/
theorem keepsFiles_seek (hwrite : writeByte.reply noDrivers emptyFile = some (r, t)) :
    SeekOp.KeepsFiles (fun _ => (1, 2)) (· = 0) t (.lseek 1 0 0 seekSet) ∧
      ∀ r u, SeekOp.reply noDrivers t (.lseek 1 0 0 seekSet) = some (r, u) → u.opened 1 0 = some (0, 0) := by
  obtain ⟨hsame, ht⟩ := opened_of_reply wholeFiles_emptyFile keepsFiles_writeByte leavesNoGap_writeByte
    (by simp [writeByte]) hwrite
  have hopen : t.opened 1 0 = some (0, 0) := hsame ▸ opened_emptyFile
  have hkeeps : SeekOp.KeepsFiles (fun _ => (1, 2)) (· = 0) t (.lseek 1 0 0 seekSet) :=
    ⟨(0, 0), hopen, rfl, 0, if_pos rfl, by decide⟩
  refine ⟨hkeeps, fun r u hseek => ?_⟩
  obtain ⟨hsame', -⟩ := opened_of_reply ht hkeeps trivial (by simp) hseek
  exact hsame' ▸ hopen

end EmptyFile

/-- A byte is written, found again, and read. -/
def writeRead : List (SeekOp Unit) := [writeByte, .lseek 1 0 0 seekSet, .read 1 0 (fun _ => 0#8) 1]

/-! ### Runs -/

/-- **Files are sequences of bytes**: in every run of `sys_lseek`, `sys_read` and `sys_write` of any tasks on regular
files without holes, with offsets in the range of a file, among steps that leave these files as they are. If every
write finds its zones and leaves no gap but zeros, no assertion fails, every call gives back what it gives back on
sequences of bytes, and behind the run the files are the sequences. -/
theorem filesRun_trace {D : Type} (dr : Drivers D) (place : ℕ → ℕ × ℕ) (I : ℕ → Prop) (ops : List (SeekOp D))
    (s : FileState D) (a : ByteFiles) (hfiles : s.WholeFiles dr place I) (hshows : a.Shows place I s)
    (hkeeps : Run.Along (fun s op => SeekOp.reply dr s op) (fun s op => SeekOp.KeepsFiles place I s op) s ops)
    (hgap : Run.Along (fun s op => SeekOp.reply dr s op) (fun s op => SeekOp.LeavesNoGap place s op) s ops) :
    ∃ rs t b, Refine.trace (fun s op => SeekOp.reply dr s op) s ops = some (rs, t) ∧
      Refine.trace ByteFiles.step a ops = some (rs, b) ∧ t.WholeFiles dr place I ∧ b.Shows place I t := by
  have hlegal := hkeeps.and hgap
  refine Refine.trace_along (fun s a => s.WholeFiles dr place I ∧ ByteFiles.Shows place I s a) ?_ ops s a
    ⟨hfiles, hshows⟩ hlegal
  rintro u b op ⟨hu, hb⟩ ⟨hop, hgap⟩
  exact answered_step hu hb hop hgap

theorem filesRun_trace_writeRead : ∃ rs t b,
    Refine.trace (fun s op => SeekOp.reply noDrivers s op) emptyFile writeRead = some (rs, t) ∧
      Refine.trace ByteFiles.step (emptyFile.byteFiles fun _ => (1, 2)) writeRead = some (rs, b) ∧
      t.WholeFiles noDrivers (fun _ => (1, 2)) (· = 0) ∧ b.Shows (fun _ => (1, 2)) (· = 0) t := by
  refine filesRun_trace noDrivers (fun _ => (1, 2)) (· = 0) writeRead emptyFile _ wholeFiles_emptyFile
    (FileState.shows_byteFiles ..) ⟨keepsFiles_writeByte, fun r t hwrite => ?_⟩
    ⟨leavesNoGap_writeByte, fun _ _ _ => ⟨trivial, fun _ _ _ => ⟨trivial, fun _ _ _ => trivial⟩⟩⟩
  obtain ⟨hkeeps, hopen⟩ := keepsFiles_seek hwrite
  exact ⟨hkeeps, fun r u hseek => ⟨⟨(0, 0), hopen r u hseek, rfl⟩, fun _ _ _ => trivial⟩⟩

end Onixs
