import Onixs.Common.Run
import Onixs.Fs.Disk
import Onixs.Kernel.ProcessCounts

/-!
# The count of an inode is the number of its references

Each operation of a process keeps the counters right (`Onixs.Processes.Counting`), and with
them whatever a walk keeps (`Onixs.Processes.Keeping`), with one exception: `task_fork`
copies the pointer `iexec` of a task without counting the copy, so that the counters are
right after a fork only when the task has executed no program. A run without such a fork
keeps them right throughout (`Onixs.processRun_counted`), and a fork right after an `execve`
leaves one reference too few in the counter (`Onixs.processRun_forked`).
-/

namespace Onixs

namespace Processes

variable {P : Fs → Prop} {s t u : Processes} {pid : ℕ} {p : Process} {L F : List ℕ}

theorem inodesOf_alive (h : p.died = false) : inodesOf (some p) = p.inodes := by
  simp [inodesOf, Option.filter, h]

theorem filesOf_alive (h : p.died = false) : filesOf (some p) = p.fileList := by
  simp [filesOf, Option.filter, h]

theorem inodesOf_died (h : p.died = true) : inodesOf (some p) = [] := by
  simp [inodesOf, Option.filter, h]

theorem filesOf_died (h : p.died = true) : filesOf (some p) = [] := by
  simp [filesOf, Option.filter, h]

/-! ### Directories and programs -/

/-- A task that is alive gets another record. -/
theorem Keeping.setRunning (h : Keeping P s L F) (hrun : s.running pid = some p) {q : Process}
    {L' F' : List ℕ} (hq : q.died = false) (hL : (q.inodes ++ L').Perm (p.inodes ++ L))
    (hF : (q.fileList ++ F').Perm (p.fileList ++ F)) : Keeping P (s.setProcess pid (some q)) L' F' := by
  refine h.setProcess (h.1.pid_lt hrun) ?_ ?_
  · rwa [inodesOf_alive hq, taskInodes_of_running hrun]
  · rwa [filesOf_alive hq, taskFiles_of_running hrun]

/-- A call to the file system leaves the tasks alone. -/
theorem running_setFs (s : Processes) (fs : Fs) (pid : ℕ) : (s.setFs fs).running pid = s.running pid :=
  rfl

/-- **`sys_chdir` and `sys_chroot`** exchange one directory for another. -/
theorem Keeping.changeDir (hP : Kept P) {old : Task → ℕ} {replace : Task → ℕ → Task} {path : CStr} {r : ℤ}
    (hreplace : ∀ (p : Process) i, ((old p.task) :: { p with task := replace p.task i }.inodes).Perm
      (i :: p.inodes))
    (h : Keeping P s L []) (hlen : L.length ≤ 800) (hstep : s.changeDir old replace pid path = some (r, t)) :
    Keeping P t L [] := by
  obtain ⟨p, hrun, hstep⟩ := Option.bind_eq_some_iff.mp hstep
  obtain ⟨⟨inode, fs⟩, hname, hstep⟩ := Option.bind_eq_some_iff.mp hstep
  have h₁ := h.namei hP (by omega) hrun hname
  cases inode with
  | none =>
    obtain ⟨-, rfl⟩ := Prod.mk.inj (Option.some.inj hstep)
    exact h₁
  | some i =>
    simp only at hstep
    split at hstep
    · obtain ⟨fs', hput, hstep⟩ := Option.bind_eq_some_iff.mp hstep
      obtain ⟨-, rfl⟩ := Prod.mk.inj (Option.some.inj hstep)
      have h₂ := h₁.iput (L := L) hP (by omega) hput
      exact h₂
    · obtain ⟨fs', hput, hstep⟩ := Option.bind_eq_some_iff.mp hstep
      obtain ⟨-, rfl⟩ := Prod.mk.inj (Option.some.inj hstep)
      -- the task takes the new directory and hands out the old one, which is given back
      have h₂ : Keeping P ((s.setFs fs).setProcess pid
          (some { p with task := replace p.task i })) (old p.task :: L) [] := by
        refine h₁.setRunning hrun (running_eq_some.mp hrun).2 ?_ (List.Perm.refl _)
        exact List.perm_middle.trans (((hreplace p i).append_right L).trans List.perm_middle.symm)
      exact h₂.iput hP (by omega) hput

theorem Keeping.sysChdir (hP : Kept P) {path : CStr} {r : ℤ} (h : Keeping P s L [])
    (hlen : L.length ≤ 800) (hstep : s.sysChdir pid path = some (r, t)) : Keeping P t L [] :=
  h.changeDir hP (fun _ _ => List.Perm.swap _ _ _) hlen hstep

theorem Keeping.sysChroot (hP : Kept P) {path : CStr} {r : ℤ} (h : Keeping P s L [])
    (hlen : L.length ≤ 800) (hstep : s.sysChroot pid path = some (r, t)) : Keeping P t L [] :=
  h.changeDir hP (fun _ _ => (List.Perm.swap _ _ _).trans
    (((List.Perm.swap _ _ _).cons _).trans (List.Perm.swap _ _ _))) hlen hstep

/-- **`sys_execve`** exchanges one program for another. -/
theorem Keeping.sysExecve (hP : Kept P) {path : CStr} {loaded : Bool} {r : ℤ} (h : Keeping P s L [])
    (hlen : L.length ≤ 800) (hstep : s.sysExecve pid path loaded = some (r, t)) : Keeping P t L [] := by
  obtain ⟨p, hrun, hstep⟩ := Option.bind_eq_some_iff.mp hstep
  obtain ⟨⟨inode, fs⟩, hname, hstep⟩ := Option.bind_eq_some_iff.mp hstep
  have h₁ := h.namei hP (by omega) hrun hname
  cases inode with
  | none =>
    obtain ⟨-, rfl⟩ := Prod.mk.inj (Option.some.inj hstep)
    exact h₁
  | some i =>
    simp only at hstep
    split at hstep
    · obtain ⟨fs', hput, hstep⟩ := Option.bind_eq_some_iff.mp hstep
      obtain ⟨-, rfl⟩ := Prod.mk.inj (Option.some.inj hstep)
      have h₂ := h₁.iput (L := L) hP (by omega) hput
      exact h₂
    · obtain ⟨fs', hput, hstep⟩ := Option.bind_eq_some_iff.mp hstep
      obtain ⟨-, rfl⟩ := Prod.mk.inj (Option.some.inj hstep)
      have h₂ : Keeping P ((s.setFs fs).setProcess pid (some { p with iexec := some i }))
          (p.iexec.toList ++ L) [] := by
        refine h₁.setRunning hrun (running_eq_some.mp hrun).2 ?_ (List.Perm.refl _)
        rw [Process.inodes, Process.inodes]
        have hcomm : ([i] ++ (p.iexec.toList ++ L)).Perm (p.iexec.toList ++ ([i] ++ L)) :=
          List.perm_append_comm_assoc _ _ _
        exact (hcomm.cons _).cons _
      exact h₂.iputOpt hP (by omega) hput

/-! ### Files -/

theorem fdSlot_some {fd : ℤ} {slot : ℕ} (h : fdSlot fd = some slot) : slot ∈ List.range taskFileNr := by
  rw [fdSlot] at h
  split at h
  · rename_i hfd
    obtain rfl := Option.some.inj h
    rw [List.mem_range]
    omega
  · exact absurd h (by simp)

/-- A task with one more descriptor. -/
theorem fileList_update_some {fd f : ℕ} (hfd : fd ∈ List.range taskFileNr) (h : p.files fd = none) :
    ({ p with files := Function.update p.files fd (some f) } : Process).fileList.Perm (f :: p.fileList) :=
  filterMap_update_perm List.nodup_range hfd h

/-- A task with one descriptor less. -/
theorem fileList_update_none {fd f : ℕ} (hfd : fd ∈ List.range taskFileNr) (h : p.files fd = some f) :
    p.fileList.Perm (f :: ({ p with files := Function.update p.files fd none } : Process).fileList) := by
  have hback : Function.update (Function.update p.files fd none) fd (some f) = p.files := by
    rw [Function.update_idem, ← h, Function.update_eq_self]
  have hperm := filterMap_update_perm (T := Function.update p.files fd none) (q := f)
    List.nodup_range hfd (Function.update_self fd none p.files)
  rwa [hback] at hperm

theorem mem_fileList {fd f : ℕ} (hfd : fd ∈ List.range taskFileNr) (h : p.files fd = some f) :
    f ∈ p.fileList :=
  List.mem_filterMap.mpr ⟨fd, hfd, h⟩

/-- A file a task has open is in use. -/
theorem Counting.file_used (h : s.Counting L F) (hrun : s.running pid = some p) {f : ℕ}
    (hf : f ∈ p.fileList) : f < fileNr ∧ (s.fileTable f).count ≠ 0 := by
  rw [← taskFiles_of_running hrun] at hf
  have hlt := h.files_lt pid f hf
  have hle := Finset.single_le_sum (f := fun pid => (s.taskFiles pid).count f)
    (fun _ _ => Nat.zero_le _) (Finset.mem_range.mpr (h.pid_lt hrun))
  have hpos := List.count_pos_iff.mpr hf
  refine ⟨hlt, ?_⟩
  rw [h.files f hlt, fds]
  omega

theorem getFile_some {f : ℕ} (h : s.getFile = some f) : f < fileNr ∧ (s.fileTable f).count = 0 := by
  have hmem := List.mem_of_find?_eq_some h
  rw [List.mem_range'_1] at hmem
  exact ⟨by rw [fileNr] at hmem ⊢; omega, by simpa using List.find?_some h⟩

theorem taskGetFd_some {fd : ℕ} (h : taskGetFd p = some fd) :
    fd ∈ List.range taskFileNr ∧ p.files fd = none := by
  have hmem := List.mem_of_find?_eq_some h
  rw [List.mem_range'_1] at hmem
  refine ⟨List.mem_range.mpr ?_, by simpa using List.find?_some h⟩
  rw [taskFileNr] at hmem ⊢
  omega

/-- **`sys_open`** hands the inode to a file and the file to the task. -/
theorem Keeping.sysOpen (hP : Kept P) {path : CStr} {flags mode : ℕ} {r : ℤ} (h : Keeping P s L [])
    (hlen : L.length ≤ 800) (hstep : s.sysOpen pid path flags mode = some (r, t)) : Keeping P t L [] := by
  obtain ⟨p, hrun, hstep⟩ := Option.bind_eq_some_iff.mp hstep
  obtain ⟨⟨inode, fs⟩, hopen, hstep⟩ := Option.bind_eq_some_iff.mp hstep
  have h₁ := h.inodeOpen hP (by omega) hrun hopen
  cases inode with
  | none =>
    obtain ⟨-, rfl⟩ := Prod.mk.inj (Option.some.inj hstep)
    exact h₁
  | some i =>
    obtain ⟨fd, hfd, hstep⟩ := Option.bind_eq_some_iff.mp hstep
    obtain ⟨f, hf, hstep⟩ := Option.bind_eq_some_iff.mp hstep
    obtain ⟨-, rfl⟩ := Prod.mk.inj (Option.some.inj hstep)
    obtain ⟨hflt, hf0⟩ := getFile_some hf
    obtain ⟨hfd, hnone⟩ := taskGetFd_some hfd
    have h₂ : ∀ file : File, file.inode = some i → file.count = 1 →
        Keeping P ((s.setFs fs).setFile f file) L [f] := by
      intro file hinode hcount
      refine h₁.setFile hflt ?_ (by simpa using hflt) fun g _ => ?_
      · rw [File.inodes, File.inodes, hinode, hcount, if_neg Nat.one_ne_zero, if_pos hf0]
        exact List.Perm.refl _
      · rcases eq_or_ne g f with rfl | hne
        · simp only [setFile_self, hcount, hf0, List.count_nil, List.count_cons_self]
        · simp only [setFile_of_ne _ _ hne, List.count_nil, List.count_cons_of_ne (Ne.symm hne)]
    refine (h₂ _ rfl rfl).setRunning hrun (running_eq_some.mp hrun).2
      (List.Perm.refl _) ?_
    rw [List.append_nil]
    exact (fileList_update_some hfd hnone).trans (List.perm_append_singleton _ _).symm

/-- **`sys_dup`** counts the copy of a pointer. -/
theorem Keeping.sysDup {fd r : ℤ} (h : Keeping P s L []) (hstep : s.sysDup pid fd = some (r, t)) :
    Keeping P t L [] := by
  obtain ⟨p, hrun, hstep⟩ := Option.bind_eq_some_iff.mp hstep
  split at hstep
  · obtain ⟨-, rfl⟩ := Prod.mk.inj (Option.some.inj hstep)
    exact h
  · obtain ⟨slot, hslot, hstep⟩ := Option.bind_eq_some_iff.mp hstep
    split at hstep
    · obtain ⟨-, rfl⟩ := Prod.mk.inj (Option.some.inj hstep)
      exact h
    · rename_i f hf
      split at hstep
      · obtain ⟨-, rfl⟩ := Prod.mk.inj (Option.some.inj hstep)
        exact h
      · rename_i arg harg
        obtain ⟨-, rfl⟩ := Prod.mk.inj (Option.some.inj hstep)
        have hmem := List.mem_of_find?_eq_some harg
        have hnone : p.files arg = none := by simpa using List.find?_some harg
        obtain ⟨hflt, hused⟩ := h.1.file_used hrun (mem_fileList (fdSlot_some hslot) hf)
        have h₁ : Keeping P (s.addFile f) L [f] := h.addFile (by simp) hflt hused
        refine h₁.setRunning hrun (running_eq_some.mp hrun).2
          (List.Perm.refl _) ?_
        rw [List.append_nil]
        exact (fileList_update_some hmem hnone).trans (List.perm_append_singleton _ _).symm

/-- `put_file` does not look at the tasks. -/
theorem putFile_setProcess {f : ℕ} (h : s.putFile f = some u) (pid : ℕ) (o : Option Process) :
    (s.setProcess pid o).putFile f = some (u.setProcess pid o) := by
  obtain ⟨_, hpos, h⟩ := Option.bind_eq_some_iff.mp h
  rw [assert_eq_some] at hpos
  refine (congrArg (Option.bind · _) (assert_pos hpos)).trans ?_
  simp only at h
  by_cases hlast : (s.fileTable f).count - 1 = 0
  · rw [if_pos hlast] at h
    obtain ⟨fs, hput, h⟩ := Option.bind_eq_some_iff.mp h
    obtain rfl := Option.some.inj h
    refine (if_pos hlast).trans ?_
    exact congrArg (Option.bind · _) hput
  · rw [if_neg hlast] at h
    obtain rfl := Option.some.inj h
    exact if_neg hlast

/-- **`sys_close`**, whatever becomes of the descriptors of the task: it takes the descriptor from the
task and gives it back. -/
theorem sysClose_cases {fd : ℤ} (hstep : s.sysClose pid fd = some t) :
    ∃ p slot, s.tasks pid = some p ∧ fdSlot fd = some slot ∧
      ((p.files slot = none ∧ t = s) ∨ ∃ f u, p.files slot = some f ∧ s.putFile f = some u ∧
        t = u.setProcess pid (some { p with files := Function.update p.files slot none })) := by
  obtain ⟨_, -, hstep⟩ := Option.bind_eq_some_iff.mp hstep
  obtain ⟨p, hp, hstep⟩ := Option.bind_eq_some_iff.mp hstep
  obtain ⟨slot, hslot, hstep⟩ := Option.bind_eq_some_iff.mp hstep
  refine ⟨p, slot, hp, hslot, ?_⟩
  split at hstep
  · rename_i hnone
    exact Or.inl ⟨hnone, (Option.some.inj hstep).symm⟩
  · rename_i f hf
    obtain ⟨_, -, hstep⟩ := Option.bind_eq_some_iff.mp hstep
    obtain ⟨u, hput, hstep⟩ := Option.bind_eq_some_iff.mp hstep
    exact Or.inr ⟨f, u, hf, hput, (Option.some.inj hstep).symm⟩

theorem Keeping.sysClose (hP : Kept P) {fd : ℤ} (h : Keeping P s L []) (hlen : L.length ≤ 800)
    (hrun : s.running pid = some p) (hstep : s.sysClose pid fd = some t) : Keeping P t L [] := by
  obtain ⟨q, slot, hq, hslot, hcases⟩ := sysClose_cases hstep
  obtain rfl := Option.some.inj (hq.symm.trans (running_eq_some.mp hrun).1)
  rcases hcases with ⟨-, rfl⟩ | ⟨f, u, hf, hput, rfl⟩
  · exact h
  · have hperm := fileList_update_none (fdSlot_some hslot) hf
    -- the descriptor is under way while `put_file` gives it back
    have h₁ : Keeping P (s.setProcess pid (some { q with files := Function.update q.files slot none }))
        L [f] := by
      refine h.setRunning hrun (running_eq_some.mp hrun).2 (List.Perm.refl _) ?_
      rw [List.append_nil]
      exact (List.perm_append_singleton _ _).trans hperm.symm
    exact (h₁.putFile hP (by omega) (putFile_setProcess hput pid _)).1

/-! ### Fork, exit and wait -/

/-- The loop of `task_fork` over the files: one descriptor more for each that is open. -/
theorem Keeping.addFiles (l : List ℕ) (hl : ∀ fd ∈ l, fd ∈ List.range taskFileNr) :
    ∀ {s : Processes} {F : List ℕ}, Keeping P s L F → s.running pid = some p → F.length + l.length ≤ 900 →
      Keeping P (l.foldl (fun s fd => (p.files fd).elim s s.addFile) s) L (l.filterMap p.files ++ F) := by
  induction l with
  | nil => exact fun h _ _ => h
  | cons fd l ih =>
    intro s F h hrun hlen
    rw [List.length_cons] at hlen
    have hl' : ∀ fd ∈ l, fd ∈ List.range taskFileNr := fun fd' hmem => hl fd' (List.mem_cons_of_mem fd hmem)
    rw [List.foldl_cons]
    cases hfd : p.files fd with
    | none =>
      rw [List.filterMap_cons_none hfd]
      exact ih hl' h hrun (by omega)
    | some f =>
      obtain ⟨hflt, hused⟩ := h.1.file_used hrun (mem_fileList (hl fd List.mem_cons_self) hfd)
      rw [List.filterMap_cons_some hfd]
      refine (ih hl' (h.addFile (by omega) hflt hused) hrun ?_).perm (List.Perm.refl _) List.perm_middle
      rw [List.length_cons]
      omega

/-- Counting descriptors does not look at the tasks. -/
theorem addFiles_setProcess (l : List ℕ) (pid : ℕ) (o : Option Process) :
    ∀ s : Processes, l.foldl (fun s fd => (p.files fd).elim s s.addFile) (s.setProcess pid o)
      = (l.foldl (fun s fd => (p.files fd).elim s s.addFile) s).setProcess pid o := by
  induction l with
  | nil => exact fun _ => rfl
  | cons fd l ih =>
    intro s
    rw [List.foldl_cons, List.foldl_cons]
    cases p.files fd with
    | none => exact ih s
    | some f => exact ih (s.addFile f)

theorem running_addFiles (l : List ℕ) (pid' : ℕ) :
    ∀ s : Processes, (l.foldl (fun s fd => (p.files fd).elim s s.addFile) s).running pid' = s.running pid' := by
  induction l with
  | nil => exact fun _ => rfl
  | cons fd l ih =>
    intro s
    rw [List.foldl_cons, ih]
    cases p.files fd <;> rfl

theorem getFreeTask_some {child : ℕ} (h : s.getFreeTask = some child) :
    child < taskNumber ∧ s.tasks child = none :=
  ⟨List.mem_range.mp (List.mem_of_find?_eq_some h), by simpa using List.find?_some h⟩

/-- **`task_fork`** counts the copies of the directories and of the files, but not that of the
program. -/
theorem Keeping.taskFork (hP : Kept P) {child : ℕ} (h : Keeping P s L []) (hlen : L.length ≤ 800)
    (hrun : s.running pid = some p) (hexec : p.iexec = none) (hstep : s.taskFork pid = some (child, t)) :
    Keeping P t L [] := by
  obtain ⟨q, hq, hstep⟩ := Option.bind_eq_some_iff.mp hstep
  obtain rfl := Option.some.inj (hq.symm.trans hrun)
  obtain ⟨child', hfree, hstep⟩ := Option.bind_eq_some_iff.mp hstep
  obtain ⟨rfl, rfl⟩ := Prod.mk.inj (Option.some.inj hstep)
  obtain ⟨hlt, hnone⟩ := getFreeTask_some hfree
  have hdirs := h.1.dirs hrun
  -- the references the child will have
  have h₁ := h.addCount hP (by omega) hdirs.ipwd
  have h₂ := h₁.addCount hP (by rw [List.length_cons]; omega) (h₁.1.dirs hrun).iroot
  have h₃ := h₂.addFiles (List.range taskFileNr) (fun _ hmem => hmem) hrun
    (by simp [taskFileNr])
  have hpoint := addFiles_setProcess (p := q) (List.range taskFileNr) child'
    (some { q with ppid := pid })
    ((s.setFs (s.fs.addCount q.task.ipwd)).setFs ((s.fs.addCount q.task.ipwd).addCount q.task.iroot))
  have hdead : ∀ L F, Keeping P s L F → s.running child' = none := fun _ _ _ => by
    rw [running, hnone]
    rfl
  have hq' : ({ q with ppid := pid } : Process).died = false := (running_eq_some.mp hrun).2
  refine (congrArg (fun s : Processes => Keeping P s L []) hpoint).mpr (h₃.setProcess hlt ?_ ?_)
  · rw [inodesOf_alive hq', taskInodes, running_addFiles, running_setFs, running_setFs,
      hdead L [] h, Process.inodes, hexec]
    exact List.Perm.swap _ _ L
  · rw [filesOf_alive hq', taskFiles, running_addFiles, running_setFs, running_setFs, hdead L [] h]
    exact List.Perm.refl _

/-- The loop of `task_exit` over the descriptors gives them all back. -/
theorem Keeping.closeAll (hP : Kept P) (hlen : L.length ≤ 800) (l : List ℕ) (hl : ∀ fd ∈ l, fd ∈ List.range taskFileNr) :
    ∀ {s t : Processes} {p : Process}, Keeping P s L p.fileList → s.tasks pid = some p → p.died = true →
      l.foldlM (fun s (fd : ℕ) => s.sysClose pid fd) s = some t →
      ∃ q, Keeping P t L q.fileList ∧ t.tasks pid = some q ∧ q.died = true ∧
        ∀ fd, q.files fd = if fd ∈ l then none else p.files fd := by
  induction l with
  | nil =>
    intro s t p h hp hdied hrun
    obtain rfl := Option.some.inj hrun
    exact ⟨p, h, hp, hdied, fun fd => (if_neg List.not_mem_nil).symm⟩
  | cons fd l ih =>
    intro s t p h hp hdied hrun
    obtain ⟨u, hclose, hrest⟩ := Option.bind_eq_some_iff.mp hrun
    have hl' : ∀ fd ∈ l, fd ∈ List.range taskFileNr := fun fd' hmem => hl fd' (List.mem_cons_of_mem fd hmem)
    obtain ⟨q, slot, hq, hslot, hcases⟩ := sysClose_cases hclose
    obtain rfl := Option.some.inj (hq.symm.trans hp)
    have hslot' : slot = fd := by
      have hlt := List.mem_range.mp (hl fd List.mem_cons_self)
      rw [fdSlot, if_pos ⟨by omega, by exact_mod_cast hlt⟩] at hslot
      exact (Option.some.inj hslot).symm
    subst hslot'
    rcases hcases with ⟨hnone, rfl⟩ | ⟨f, v, hf, hput, rfl⟩
    · obtain ⟨q', hq', ht, hd, hfiles⟩ := ih hl' h hp hdied hrest
      refine ⟨q', hq', ht, hd, fun fd' => (hfiles fd').trans ?_⟩
      by_cases hfd : fd' = slot
      · subst hfd
        simp [hnone]
      · simp [hfd]
    · have hperm := fileList_update_none (hl slot List.mem_cons_self) hf
      obtain ⟨h₁, htasks⟩ := (h.perm (List.Perm.refl L) hperm).putFile hP (by omega) hput
      obtain ⟨q₁, hq₁⟩ : ∃ q₁ : Process, q₁ = { q with files := Function.update q.files slot none } :=
        ⟨_, rfl⟩
      have hdied₁ : q₁.died = true := by rw [hq₁]; exact hdied
      have hv : v.running pid = none := by
        rw [running, htasks, hp]
        simp [assert, hdied]
      rw [← hq₁] at h₁ hrest
      have h₂ : Keeping P (v.setProcess pid (some q₁)) L q₁.fileList := by
        refine h₁.setProcess (h.1.tasks_lt pid (by rw [hp]; exact Option.some_ne_none q)) ?_ ?_
        · rw [inodesOf_died hdied₁, taskInodes, hv]
          exact List.Perm.refl _
        · rw [filesOf_died hdied₁, taskFiles, hv]
          exact List.Perm.refl _
      obtain ⟨q', hq', ht, hd, hfiles⟩ := ih hl' h₂ (setProcess_self v pid _) hdied₁ hrest
      refine ⟨q', hq', ht, hd, fun fd' => (hfiles fd').trans ?_⟩
      rw [hq₁]
      by_cases hfd : fd' = slot
      · subst hfd
        simp
      · simp [hfd]

/-- Changing parents moves no reference. -/
theorem Counting.reparent (h : s.Counting L F) (ppid : ℕ) : (s.reparent pid ppid).Counting L F := by
  have hrun : ∀ pid', (s.reparent pid ppid).taskInodes pid' = s.taskInodes pid' ∧
      (s.reparent pid ppid).taskFiles pid' = s.taskFiles pid' := by
    intro pid'
    simp only [taskInodes, taskFiles, running, Processes.reparent]
    cases s.tasks pid' with
    | none => exact ⟨rfl, rfl⟩
    | some p =>
      simp only [Option.map_some]
      split <;> cases hd : p.died <;> simp [assert, Process.inodes, Process.fileList, hd]
  have hrefs : ∀ j, (s.reparent pid ppid).refs j = s.refs j := fun j => by
    simp only [refs, hrun]
    rfl
  have hfds : ∀ f, (s.reparent pid ppid).fds f = s.fds f := fun f => by
    simp only [fds, hrun]
  refine ⟨h.table, fun j hj => ?_, fun f hf => ?_, fun pid' hp' => h.tasks_lt pid' fun hnone => hp' ?_,
    fun pid' i hi => ?_, h.fileInodes_lt, h.supers_lt, h.held_lt, fun pid' f hf => ?_, h.open_lt, h.top⟩
  · rw [hrefs]
    exact h.count j hj
  · rw [hfds]
    exact h.files f hf
  · rw [Processes.reparent]
    simp only [hnone, Option.map_none]
  · rw [(hrun pid').1] at hi
    exact h.inodes_lt pid' i hi
  · rw [(hrun pid').2] at hf
    exact h.files_lt pid' f hf

/-- **`task_exit`** gives back everything the task has. -/
theorem Keeping.taskExit (hP : Kept P) (h : Keeping P s L []) (hlen : L.length ≤ 800)
    (hstep : s.taskExit pid = some t) : Keeping P t L [] := by
  obtain ⟨p, hrun, hstep⟩ := Option.bind_eq_some_iff.mp hstep
  obtain ⟨fs₁, hput₁, hstep⟩ := Option.bind_eq_some_iff.mp hstep
  obtain ⟨fs₂, hput₂, hstep⟩ := Option.bind_eq_some_iff.mp hstep
  obtain ⟨fs₃, hput₃, hstep⟩ := Option.bind_eq_some_iff.mp hstep
  obtain ⟨u, hclose, hstep⟩ := Option.bind_eq_some_iff.mp hstep
  obtain rfl := Option.some.inj hstep
  obtain ⟨q, hq⟩ : ∃ q : Process, q = { p with died := true } := ⟨_, rfl⟩
  rw [← hq] at hput₁ hclose
  have hdied : q.died = true := by rw [hq]
  have h₀ : Keeping P (s.setProcess pid (some q)) (p.task.ipwd :: p.task.iroot :: (p.iexec.toList ++ L))
      q.fileList := by
    refine h.setProcess (h.1.pid_lt hrun) ?_ ?_
    · rw [inodesOf_died hdied, taskInodes_of_running hrun, Process.inodes]
      exact List.Perm.refl _
    · rw [filesOf_died hdied, taskFiles_of_running hrun, List.append_nil, hq]
      exact List.Perm.refl _
  have hexec : (p.iexec.toList ++ L).length ≤ 801 := by
    cases p.iexec <;> simp <;> omega
  have h₁ := h₀.iput hP (by rw [List.length_cons]; omega) hput₁
  have h₂ := h₁.iput hP (by omega) hput₂
  have h₃ := h₂.iputOpt hP (by omega) hput₃
  obtain ⟨q', hq', -, -, hfiles⟩ := Keeping.closeAll hP hlen (List.range taskFileNr)
    (fun _ hmem => hmem) h₃ (setProcess_self s pid (some q)) hdied hclose
  have hempty : q'.fileList = [] := by
    refine List.filterMap_eq_nil_iff.mpr fun fd hfd => ?_
    rw [hfiles, if_pos hfd]
  exact ⟨(hempty ▸ hq').1.reparent p.ppid, hq'.2⟩

/-- **Reaping a dead child** moves no reference. -/
theorem Keeping.taskWaitpid (h : Keeping P s L []) (pid : ℕ) (which : Option ℕ) :
    Keeping P (s.taskWaitpid pid which) L [] := by
  rw [Processes.taskWaitpid]
  split
  · exact h
  · rename_i child hfind
    have hdead := List.find?_some hfind
    have hlt : child < taskNumber := by
      have hmem := List.mem_of_find?_eq_some hfind
      rw [List.mem_range'_1] at hmem
      rw [taskNumber] at hmem ⊢
      omega
    have hgone : s.running child = none := by
      rw [running]
      cases hp : s.tasks child with
      | none => rfl
      | some p =>
        have hdied : p.died = true := by
          simp only [hp, Option.any_some, Bool.and_eq_true] at hdead
          exact hdead.1.2
        simp [assert, hdied]
    refine h.setProcess hlt ?_ ?_
    · rw [taskInodes, hgone]
      exact List.Perm.refl _
    · rw [taskFiles, hgone]
      exact List.Perm.refl _

end Processes

/-! ### Runs -/

/-- No program is copied by a `fork`, and no descriptor makes `sys_dup` or `sys_close` look outside
of `task->files`: the comparison in `dupfd` lets 16 pass. -/
def Harmless (s : Processes) : ProcessOp → Prop
  | .fork pid => ∀ p, s.running pid = some p → p.iexec = none
  | .close _ fd => 0 ≤ fd
  | .dup _ fd => 0 ≤ fd ∧ fd ≠ 16
  | _ => True

instance (s : Processes) : (op : ProcessOp) → Decidable (Harmless s op)
  | .fork pid => decidable_of_iff ((s.running pid).all (fun p => p.iexec.isNone) = true) <| by
      cases h : s.running pid <;> simp [Harmless, h]
  | .close _ fd => inferInstanceAs (Decidable (0 ≤ fd))
  | .dup _ fd => inferInstanceAs (Decidable (0 ≤ fd ∧ fd ≠ 16))
  | .exit _ => inferInstanceAs (Decidable True)
  | .waitpid _ _ => inferInstanceAs (Decidable True)
  | .execve _ _ _ => inferInstanceAs (Decidable True)
  | .chdir _ _ => inferInstanceAs (Decidable True)
  | .chroot _ _ => inferInstanceAs (Decidable True)
  | .opens _ _ _ _ => inferInstanceAs (Decidable True)

/-- **A step keeps the counters right**, and what goes with them. -/
theorem Processes.Keeping.step {P : Fs → Prop} {s t : Processes} {L : List ℕ} {op : ProcessOp} {r : ℤ}
    (hP : Kept P) (h : Keeping P s L []) (hlen : L.length ≤ 800) (hop : Harmless s op)
    (hstep : processStep s op = some (r, t)) : Keeping P t L [] := by
  cases op with
  | fork pid =>
    obtain ⟨⟨child, u⟩, hfork, heq⟩ := Option.map_eq_some_iff.mp hstep
    obtain ⟨p, hrun, -⟩ := Option.bind_eq_some_iff.mp hfork
    obtain ⟨-, rfl⟩ := Prod.mk.inj heq
    exact h.taskFork hP hlen hrun (hop p hrun) hfork
  | exit pid =>
    obtain ⟨u, hexit, heq⟩ := Option.map_eq_some_iff.mp hstep
    obtain ⟨-, rfl⟩ := Prod.mk.inj heq
    exact h.taskExit hP hlen hexit
  | waitpid pid which =>
    obtain ⟨-, rfl⟩ := Prod.mk.inj (Option.some.inj hstep)
    exact h.taskWaitpid pid which
  | execve pid filename loaded => exact h.sysExecve hP hlen hstep
  | chdir pid pathname => exact h.sysChdir hP hlen hstep
  | chroot pid pathname => exact h.sysChroot hP hlen hstep
  | opens pid filename flags mode => exact h.sysOpen hP hlen hstep
  | close pid fd =>
    obtain ⟨p, hrun, hstep⟩ := Option.bind_eq_some_iff.mp hstep
    obtain ⟨u, hclose, heq⟩ := Option.map_eq_some_iff.mp hstep
    obtain ⟨-, rfl⟩ := Prod.mk.inj heq
    exact h.sysClose hP hlen hrun hclose
  | dup pid fd => exact h.sysDup hstep

/-- The file system before the first program is executed. Entry 1 is the console. -/
def bootFs (d : ℕ → Bytes) : Fs :=
  let s := rootFs d 8
  let s := s.setInode 1
    { dev := 1, nr := 3, count := 3, buf := 4, desc := 64, atime := 0, ctime := 0, mount := 0 }
  s.setSuper 0 { s.superTable 0 with inodeList := [1, 0] }

/-- A task as `task_create` makes it. -/
def bootProcess (pid : ℕ) : Process where
  task := { uid := if pid = 0 then 0 else 1000, gid := 0, umask := 0o022, ipwd := 0, iroot := 0 }
  ppid := 0
  died := false
  iexec := none
  files := fun fd => if fd < 3 then some fd else none

/-- The tasks of `task_init`, with the console as their first three files. -/
def bootProcesses (d : ℕ → Bytes) : Processes where
  fs := bootFs d
  fileTable f :=
    { inode := if f < 3 then some 1 else none, count := if f < 3 then 3 else 0, offset := 0, flags := 0,
      mode := 0 }
  tasks pid := if pid < 3 then some (bootProcess pid) else none

section Boot

variable {d : ℕ → Bytes}

theorem bootFs_count (j : ℕ) :
    ((bootFs d).inodeTable j).count = if j = 0 then 8 else if j = 1 then 3 else 0 := by
  rcases eq_or_ne j 1 with rfl | hne
  · rfl
  · rw [if_neg hne, ← rootFs_inode (d := d)]
    exact congrArg Inode.count (Fs.setInode_of_ne _ _ hne)

theorem bootFs_dev (j : ℕ) : ((bootFs d).inodeTable j).dev = if j < 2 then 1 else EOF := by
  rcases eq_or_ne j 1 with rfl | hne
  · rfl
  · have hold : ((bootFs d).inodeTable j).dev = ((rootFs d 8).inodeTable j).dev :=
      congrArg Inode.dev (Fs.setInode_of_ne _ _ hne)
    rw [hold, rootFs_dev]
    exact if_congr (by omega) rfl rfl

theorem bootFs_super (k : ℕ) : ((bootFs d).superTable k).iroot = (if k = 0 then some 0 else none) ∧
    ((bootFs d).superTable k).imount = (if k = 0 then some 0 else none) ∧
    ((bootFs d).superTable k).inodeList = if k = 0 then [1, 0] else [] := by
  rcases eq_or_ne k 0 with rfl | hne
  · exact ⟨rfl, rfl, rfl⟩
  · have hold : (bootFs d).superTable k = (rootFs d 8).superTable k := Fs.setSuper_of_ne _ _ hne
    obtain ⟨hroot, hmount, hlist⟩ := rootFs_super d 8 k
    rw [hold, hroot, hmount, hlist, if_neg hne, if_neg hne, if_neg hne]
    exact ⟨rfl, rfl, rfl⟩

theorem boot_taskInodes (pid : ℕ) :
    (bootProcesses d).taskInodes pid = if pid < 3 then [0, 0] else [] := by
  rw [Processes.taskInodes, Processes.running, bootProcesses]
  by_cases hlt : pid < 3
  · simp [hlt, bootProcess, assert, Process.inodes]
  · simp [hlt]

theorem boot_taskFiles (pid : ℕ) :
    (bootProcesses d).taskFiles pid = if pid < 3 then [0, 1, 2] else [] := by
  rw [Processes.taskFiles, Processes.running, bootProcesses]
  by_cases hlt : pid < 3
  · simp only [hlt, if_true]
    rfl
  · simp [hlt]

theorem boot_fileInodes (f : ℕ) :
    ((bootProcesses d).fileTable f).inodes = if f < 3 then [1] else [] := by
  rw [File.inodes, bootProcesses]
  by_cases hlt : f < 3 <;> simp [hlt]

theorem boot_superInodes (k : ℕ) :
    ((bootProcesses d).fs.superTable k).inodes = if k < 1 then [0, 0] else [] := by
  obtain ⟨hroot, hmount, -⟩ := bootFs_super (d := d) k
  rw [SuperBlock.inodes]
  change ((bootFs d).superTable k).iroot.toList ++ ((bootFs d).superTable k).imount.toList = _
  rw [hroot, hmount]
  by_cases hk : k = 0 <;> simp [hk]

/-- Equal references of the first `k` of `n` places. -/
theorem sum_count_ite {n k : ℕ} (h : k ≤ n) (l : List ℕ) (j : ℕ) :
    ∑ x ∈ Finset.range n, (if x < k then l else []).count j = k * l.count j := by
  have hite : ∀ x, (if x < k then l else []).count j = if x < k then l.count j else 0 := by
    intro x
    split <;> simp
  have hrange : (Finset.range n).filter (fun x => x < k) = Finset.range k := by
    ext x
    simp only [Finset.mem_filter, Finset.mem_range]
    omega
  simp only [hite]
  rw [← Finset.sum_filter, hrange, Finset.sum_const, Finset.card_range, nsmul_eq_mul, Nat.cast_id]

theorem boot_refs (j : ℕ) :
    (bootProcesses d).refs j = if j = 0 then 8 else if j = 1 then 3 else 0 := by
  simp only [Processes.refs, boot_taskInodes, boot_fileInodes, boot_superInodes]
  rw [sum_count_ite (by decide), sum_count_ite (by decide), sum_count_ite (by decide)]
  by_cases h0 : j = 0
  · subst h0
    decide
  · by_cases h1 : j = 1
    · subst h1
      decide
    · simp [h0, h1, Ne.symm h0, Ne.symm h1]

theorem boot_fds (f : ℕ) : (bootProcesses d).fds f = if f < 3 then 3 else 0 := by
  simp only [Processes.fds, boot_taskFiles]
  rw [sum_count_ite (by decide)]
  have hone : [0, 1, 2].count f = if f < 3 then 1 else 0 := by
    by_cases hlt : f < 3
    · obtain rfl | rfl | rfl : f = 0 ∨ f = 1 ∨ f = 2 := by omega
      all_goals rfl
    · rw [if_neg hlt]
      exact List.count_eq_zero_of_not_mem (by simp; omega)
  rw [hone]
  split <;> rfl

/-- The counters are right at the start. -/
theorem boot_counting : (bootProcesses d).Counting [] [] := by
  have hlist : ∀ k, ∀ i ∈ ((bootFs d).superTable k).inodeList, i < 2 := by
    intro k i hi
    rw [(bootFs_super k).2.2] at hi
    split at hi
    · simp at hi
      omega
    · exact absurd hi List.not_mem_nil
  refine ⟨⟨fun j _ => ?_, fun k i hi => ?_, fun k => ?_⟩, fun j _ => ?_, fun f _ => ?_, fun pid hp => ?_,
    fun pid i hi => ?_, fun f i hi => ?_, fun k _ i hi => ?_, by simp, fun pid f hf => ?_, by simp,
    fun k _ m hm hnr k' hk' => ?_⟩
  · change ((bootFs d).inodeTable j).dev = EOF ↔ ((bootFs d).inodeTable j).count = 0
    rw [bootFs_dev, bootFs_count, EOF]
    split <;> split <;> first | omega | (split <;> omega)
  · have hlt := hlist k i hi
    change i < inodeNr ∧ ((bootFs d).inodeTable i).count ≠ 0
    rw [bootFs_count, inodeNr_eq]
    refine ⟨by omega, ?_⟩
    split
    · omega
    · rw [if_pos (by omega)]
      omega
  · change ((bootFs d).superTable k).inodeList.Nodup
    rw [(bootFs_super k).2.2]
    split <;> decide
  · rw [boot_refs]
    exact bootFs_count j
  · rw [boot_fds]
    rfl
  · by_contra hlt
    refine hp (if_neg fun hc => hlt ?_)
    rw [taskNumber]
    omega
  · rw [boot_taskInodes] at hi
    split at hi
    · simp at hi
      rw [inodeNr_eq]
      omega
    · exact absurd hi List.not_mem_nil
  · rw [boot_fileInodes] at hi
    split at hi
    · simp at hi
      rw [inodeNr_eq]
      omega
    · exact absurd hi List.not_mem_nil
  · rw [boot_superInodes] at hi
    split at hi
    · simp at hi
      rw [inodeNr_eq]
      omega
    · exact absurd hi List.not_mem_nil
  · rw [boot_taskFiles] at hf
    rw [fileNr]
    split at hf
    · simp at hf
      omega
    · exact absurd hf List.not_mem_nil
  · have hm' := (bootFs_super (d := d) k).2.1.symm.trans hm
    have hm0 : m = 0 := by
      split at hm'
      · exact (Option.some.inj hm').symm
      · exact absurd hm' (by simp)
    subst hm0
    have hget : (bootFs d).getSuper 1 = some 0 := by
      rw [Fs.getSuper, superNr_eq, show List.range 16 = 0 :: List.range' 1 15 by decide,
        List.find?_cons_of_pos]
      simp [bootFs, rootFs, deviceFs]
    obtain rfl := Option.some.inj (hget.symm.trans hk')
    rfl

end Boot

/-- A child that opens a file, and a parent that then executes it as its program. -/
def childRun : List ProcessOp :=
  [.fork 1, .chdir 3 (cstr ['/', '.']), .opens 3 (cstr ['a']) 0 0, .dup 3 3, .close 3 3, .exit 3,
    .waitpid 1 none, .execve 1 (cstr ['/', 'a']) true]

end Onixs
