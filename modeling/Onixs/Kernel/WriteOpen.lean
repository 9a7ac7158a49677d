import Onixs.Fs.Make
import Onixs.Fs.OpenMode
import Onixs.Kernel.InodeReferences

/-!
# Files that are open for writing

`sys_write` tests that a descriptor is not open for reading only, and leaves the kind of the file to
`sys_open`: of a directory `inode_write` asserts that it is none. `sys_open` refuses a directory for
writing, unless the path ends in a separator (`Onixs.Processes.sysOpen_write_iff`).
-/

namespace Onixs

/-- Where `sys_write` goes with the inode of its descriptor. -/
inductive WriteCall where
  /-- The descriptor is open for reading. -/
  | refused
  /-- `pipe_write`. -/
  | pipe (i : ℕ)
  /-- `device_write`, with the characters given. -/
  | characters (i : ℕ)
  /-- `device_write`, with whole blocks. -/
  | blocks (i : ℕ)
  /-- `inode_write`. -/
  | file (i : ℕ)
deriving DecidableEq

namespace Processes

/-- `sys_write` up to the call that writes; `pipi` says which inodes are pipes. -/
def sysWrite (s : Processes) (pipi : ℕ → Bool) (pid : ℕ) (fd : ℤ) (len : ℕ) : Option WriteCall := do
  let p ← s.running pid
  let slot ← fdSlot fd
  let f ← p.files slot
  let file := s.fileTable f
  if file.flags &&& 3 = 0 then
    return .refused
  let i ← file.inode
  let desc := s.fs.inodeDesc i
  if pipi i then
    return .pipe i
  else if isChr desc.mode then
    assert (desc.zone 0 ≠ 0)
    return .characters i
  else if isBlk desc.mode then
    assert (desc.zone 0 ≠ 0)
    assert (file.offset % blockSize = 0)
    assert (len % blockSize = 0)
    return .blocks i
  else
    return .file i

section Writes

variable {s t u : Processes} {pipi : ℕ → Bool} {pid : ℕ} {p : Process} {fd : ℤ} {slot f i j len : ℕ}

/-- What `inode_write` gets is the inode of the file, and no pipe. -/
theorem sysWrite_file (hrun : s.running pid = some p) (hslot : fdSlot fd = some slot) (hf : p.files slot = some f)
    (hwrite : s.sysWrite pipi pid fd len = some (.file j)) : (s.fileTable f).inode = some j := by
  rw [sysWrite, hrun, Option.bind_eq_bind, Option.bind_some, hslot, Option.bind_eq_bind, Option.bind_some, hf,
    Option.bind_eq_bind, Option.bind_some] at hwrite
  simp only at hwrite
  split at hwrite
  · exact absurd (Option.some.inj hwrite) (by simp)
  · obtain ⟨i, hi, hwrite⟩ := Option.bind_eq_some_iff.mp hwrite
    split at hwrite
    · exact absurd (Option.some.inj hwrite) (by simp)
    · split at hwrite
      · obtain ⟨_, -, hwrite⟩ := Option.bind_eq_some_iff.mp hwrite
        exact absurd (Option.some.inj hwrite) (by simp)
      · split at hwrite
        · obtain ⟨_, -, hwrite⟩ := Option.bind_eq_some_iff.mp hwrite
          obtain ⟨_, -, hwrite⟩ := Option.bind_eq_some_iff.mp hwrite
          obtain ⟨_, -, hwrite⟩ := Option.bind_eq_some_iff.mp hwrite
          exact absurd (Option.some.inj hwrite) (by simp)
        · obtain rfl := WriteCall.file.inj (Option.some.inj hwrite)
          exact hi

/-- **Descriptor `fd` has been opened for writing as it should**: its inode is no directory, the caller
had the permission for `flags`, and as long as the file and the mode stay what they are, no `sys_write`
on a descriptor of the file takes a directory to `inode_write`. -/
def OpenToWrite (t : Processes) (pid : ℕ) (fd : ℤ) (flags : ℕ) : Prop :=
  ∃ p slot f i, t.running pid = some p ∧ fdSlot fd = some slot ∧ p.files slot = some f ∧
    (t.fileTable f).inode = some i ∧ isDir (t.fs.inodeDesc i).mode = false ∧
    permission (t.asTask p) i (accMode flags) = true ∧
    ∀ (u : Processes) (pipi : ℕ → Bool) pid' q fd slot len, u.fileTable f = t.fileTable f →
      (u.fs.inodeDesc i).mode = (t.fs.inodeDesc i).mode → u.running pid' = some q → fdSlot fd = some slot →
      q.files slot = some f →
      ∀ j, u.sysWrite pipi pid' fd len = some (.file j) → isDir (u.fs.inodeDesc j).mode = false

/-- What `sys_open` has done when it returns a descriptor. -/
theorem sysOpen_some {path : CStr} {flags mode : ℕ} (hopen : s.sysOpen pid path flags mode = some (fd, t))
    (hfd : fd ≠ -1) : ∃ p fs i, ∃ (slot f : ℕ), s.running pid = some p ∧
      inodeOpen (s.asTask p) path flags mode = some (some i, fs) ∧ fd = slot ∧ taskGetFd p = some slot ∧
      t.fs = fs ∧ t.running pid = some { p with files := Function.update p.files slot (some f) } ∧
      (t.fileTable f).inode = some i ∧ (t.fileTable f).flags = flags := by
  obtain ⟨p, hrun, hopen⟩ := Option.bind_eq_some_iff.mp hopen
  obtain ⟨⟨inode, fs⟩, hinode, hopen⟩ := Option.bind_eq_some_iff.mp hopen
  cases inode with
  | none => exact absurd (Prod.mk.inj (Option.some.inj hopen)).1.symm hfd
  | some i =>
    obtain ⟨slot, hslot, hopen⟩ := Option.bind_eq_some_iff.mp hopen
    obtain ⟨f, -, hopen⟩ := Option.bind_eq_some_iff.mp hopen
    obtain ⟨rfl, rfl⟩ := Prod.mk.inj (Option.some.inj hopen)
    refine ⟨p, fs, i, slot, f, hrun, hinode, rfl, hslot, rfl, running_eq_some.mpr ⟨?_, (running_eq_some.mp hrun).2⟩,
      ?_, ?_⟩
    · exact Function.update_self _ _ _
    · rw [setFile_self]
    · rw [setFile_self]

/-- **A descriptor for writing is what it should be** exactly when the path it was opened with does not
end in a separator. -/
theorem sysOpen_write_iff {path : CStr} {flags mode : ℕ} {L : List ℕ} (h : s.Counting L []) (hlen : L.length ≤ 800)
    (hrun : s.running pid = some p) (hroot : isDir (s.fs.inodeDesc p.task.iroot).mode = true)
    (hopen : s.sysOpen pid path flags mode = some (fd, t)) (hfd : fd ≠ -1) (hapart : DescsApart t.fs)
    (hflags : flags &&& 3 ≠ 0) :
    t.OpenToWrite pid fd flags ↔ endsInSeparator path = false := by
  obtain ⟨p', fs, i, slot, f, hrun', hinode, rfl, hget, rfl, hback, hfile, -⟩ := sysOpen_some hopen hfd
  obtain rfl := Option.some.inj (hrun.symm.trans hrun')
  have hkeep : Keeping (fun _ => True) s L [] := ⟨h, trivial⟩
  have hheld := hkeep.inodeOpen kept_true (by omega) hrun hinode
  have hi : i < inodeNr := hheld.1.held_lt i List.mem_cons_self
  have hcount : (t.fs.inodeTable i).count ≠ 0 := by
    have hcount := hheld.1.count i hi
    rw [Option.toList_some, List.singleton_append, List.count_cons_self] at hcount
    change (t.fs.inodeTable i).count = _ at hcount
    omega
  have hchecked := inodeOpen_checked (s := s.asTask p) hroot hi hcount hapart hflags hinode
  have htask : t.fs.task = p.task :=
    ((carried_sameMounts h.pinned (s.asTask p)).inodeOpen h.pinned (h.room (by omega)) ⟨h.asTask p, .refl _⟩
      (h.dirs hrun) hinode).2.task
  have hslot : fdSlot (slot : ℤ) = some slot := by
    have hlt := List.mem_range.mp (taskGetFd_some hget).1
    rw [fdSlot, if_pos ⟨by omega, by omega⟩, Int.toNat_natCast]
  constructor
  · rintro ⟨q, slot', f', j, hq, hslot', hf', hj, hdir, -⟩
    obtain rfl := Option.some.inj (hback.symm.trans hq)
    obtain rfl := Option.some.inj (hslot.symm.trans hslot')
    obtain rfl := Option.some.inj ((Function.update_self slot (some f) p.files).symm.trans hf')
    obtain rfl := Option.some.inj (hfile.symm.trans hj)
    by_contra hends
    rw [if_pos (by simpa using hends)] at hchecked
    exact Bool.false_ne_true (hdir.symm.trans hchecked)
  · intro hends
    rw [if_neg (by simp [hends])] at hchecked
    refine ⟨_, slot, f, i, hback, hslot, Function.update_self _ _ _, hfile, hchecked.1, ?_, ?_⟩
    · rw [permission, htask] at hchecked
      exact hchecked.2
    intro u pipi pid' q fd slot' len hsame hmode hq hfd' hf' j hwrite
    have hj := sysWrite_file hq hfd' hf' hwrite
    obtain rfl := Option.some.inj ((congrArg File.inode hsame).symm.trans hj |>.symm.trans hfile)
    rw [hmode]
    exact hchecked.1

/-- A program that is opened for writing by its owner. -/
theorem sysOpen_write_iff_program : ∃ t, (bootProcesses programBlocks).sysOpen 0 (cstr ['/', 'a']) 1 0 = some (3, t) ∧
    (t.OpenToWrite 0 3 1 ↔ endsInSeparator (cstr ['/', 'a']) = false) := by
  have hopen : ((bootProcesses programBlocks).sysOpen 0 (cstr ['/', 'a']) 1 0).any (fun r =>
      decide (r.1 = 3 ∧ ∀ i < inodeNr, (r.2.fs.inodeTable i).count ≠ 0 →
        ∀ k < zmapNr, r.2.fs.zmaps (r.2.fs.inodeTable i).dev k ≠ some (r.2.fs.inodeTable i).buf)) = true := by
    decide +kernel
  obtain ⟨⟨fd, t⟩, ht, hfacts⟩ := (Option.any_eq_true _ _).mp hopen
  obtain ⟨rfl, hapart⟩ := of_decide_eq_true hfacts
  refine ⟨t, ht, sysOpen_write_iff boot_counting (Nat.zero_le _) (p := bootProcess 0) rfl ?_ ht (by decide) hapart
    (by decide)⟩
  decide +kernel

/-- **A root directory open for writing**: `open("/", O_WRONLY)` of a user returns a descriptor, and a
`sys_write` on it takes the directory to `inode_write`. -/
theorem sysOpen_directory : ∃ t, (bootProcesses programBlocks).sysOpen 1 (cstr ['/']) 1 0 = some (3, t) ∧
    t.sysWrite (fun _ => false) 1 3 1 = some (.file 0) ∧ isDir (t.fs.inodeDesc 0).mode = true ∧
    permission t.fs 0 (accMode 1) = false ∧ ¬t.OpenToWrite 1 3 1 := by
  have hopen : ((bootProcesses programBlocks).sysOpen 1 (cstr ['/']) 1 0).any (fun r =>
      decide (r.1 = 3 ∧ r.2.sysWrite (fun _ => false) 1 3 1 = some (.file 0) ∧ isDir (r.2.fs.inodeDesc 0).mode = true ∧
        permission r.2.fs 0 (accMode 1) = false)) = true := by
    decide +kernel
  obtain ⟨⟨fd, t⟩, ht, hfacts⟩ := (Option.any_eq_true _ _).mp hopen
  obtain ⟨rfl, hwrite, hdir, hperm⟩ := of_decide_eq_true hfacts
  refine ⟨t, ht, hwrite, hdir, hperm, ?_⟩
  rintro ⟨p, slot, f, i, hp, hslot, hf, hi, hfile, -⟩
  obtain rfl := Option.some.inj ((sysWrite_file hp hslot hf hwrite).symm.trans hi)
  exact Bool.false_ne_true (hfile.symm.trans hdir)

end Writes

end Processes

end Onixs
