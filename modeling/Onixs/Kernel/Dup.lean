import Onixs.Kernel.OpenFileCounts

/-!
# `sys_dup2`

`sys_dup2` closes `newfd` before `dupfd` looks at `oldfd`. Where `oldfd` is not open, `newfd` is
closed all the same; where the two are one descriptor that is open, it is closed and its file is
not found any more. `Onixs.OpenFiles.dup2_iff` says that nothing else goes wrong.

What the calls assert, that the file of a descriptor has an inode and is counted, holds in every
run (`Onixs.fileRun_sound`).
-/

namespace Onixs

namespace OpenFiles

variable {s t u : OpenFiles} {pid f : ℕ} {p : Process}

/-! ### Descriptors lead to files with an inode -/

/-- **A table `sys_close` can work on**: the counters are right, and a file that is open has an
inode. -/
structure Sound (s : OpenFiles) : Prop where
  /-- The counters. -/
  counted : Counted s [] []
  /-- Inodes. -/
  inode : ∀ f, 0 < s.fds f → (s.fileTable f).inode.isSome

theorem Sound.of_le (h : Sound s) (ht : Counted t [] []) (hfds : ∀ f, t.fds f ≤ s.fds f)
    (hinode : ∀ f, (t.fileTable f).inode = (s.fileTable f).inode) : Sound t :=
  ⟨ht, fun f hf => by
    rw [hinode f]
    exact h.inode f (Nat.lt_of_lt_of_le hf (hfds f))⟩

/-- A descriptor of a task, among those of all tasks. -/
theorem fds_pos_of_open (h : Counted s [] []) (hp : s.tasks pid = some p) {fd : ℕ} (hfd : fd < taskFileNr)
    (hf : p.files fd = some f) : 0 < s.fds f := by
  refine fds_pos (h.pid_lt hp) ?_
  rw [fileList_of_tasks hp]
  exact Processes.mem_fileList (List.mem_range.mpr hfd) hf

/-- A file that is open after a store in `task_table` was open before it, or is stored. -/
theorem fds_pos_setDescriptor (h : Counted s [] []) (hp : s.tasks pid = some p) {fd g : ℕ}
    (hfd : fd ∈ List.range taskFileNr) (hfree : p.files fd = none) (hne : g ≠ f)
    (hpos : 0 < (s.setProcess pid (some { p with files := Function.update p.files fd (some f) })).fds g) :
    0 < s.fds g := by
  have hmove := fds_setProcess (s := s) (h.pid_lt hp)
    (some { p with files := Function.update p.files fd (some f) }) g
  have hperm := (Processes.fileList_update_some (f := f) hfd hfree).count_eq g
  rw [List.count_cons_of_ne (Ne.symm hne)] at hperm
  rw [fileList_of_tasks hp] at hmove
  change _ = _ + List.count g (Process.fileList _) at hmove
  omega

theorem Sound.gave (h : Sound s) (hgave : Gave s t) (ht : Counted t [] []) : Sound t :=
  h.of_le ht hgave.fds_le hgave.inode

/-- An entry without descriptors gets one, and an inode. -/
theorem Sound.setFile (h : Counted t [] []) (hs : Sound s) (hfds : ∀ g, g ≠ f → 0 < t.fds g → 0 < s.fds g)
    (hother : ∀ g, g ≠ f → (t.fileTable g).inode = (s.fileTable g).inode)
    (hself : (t.fileTable f).inode.isSome) : Sound t := by
  refine ⟨h, fun g hg => ?_⟩
  rcases eq_or_ne g f with rfl | hne
  · exact hself
  · rw [hother g hne]
    exact hs.inode g (hfds g hne hg)

theorem Sound.sysOpen {opened : Option Opened} {flags : ℕ} {r : ℤ} (h : Sound s)
    (hopen : s.sysOpen pid opened flags = some (r, t)) : Sound t := by
  have ht := (h.counted.sysOpen hopen).1
  obtain ⟨p, hrun, hopen⟩ := Option.bind_eq_some_iff.mp hopen
  obtain ⟨hp, -⟩ := running_eq_some.mp hrun
  cases opened with
  | none =>
    obtain ⟨-, rfl⟩ := Prod.mk.inj (Option.some.inj hopen)
    exact h
  | some o =>
    obtain ⟨fd, hfd, hopen⟩ := Option.bind_eq_some_iff.mp hopen
    obtain ⟨⟨f, u⟩, hget, hopen⟩ := Option.bind_eq_some_iff.mp hopen
    obtain ⟨-, rfl⟩ := Prod.mk.inj (Option.some.inj hopen)
    obtain ⟨hfd, hfree⟩ := Processes.taskGetFd_some hfd
    obtain ⟨-, -, -, rfl⟩ := h.counted.getFile hget
    refine Sound.setFile (f := f) ht h (fun g hne hpos => ?_) (fun g hne => ?_) ?_
    · exact fds_pos_setDescriptor h.counted hp hfd hfree hne hpos
    · rw [setFile_of_ne _ _ hne]
      exact addFile_inode s f g
    · rw [setFile_self]
      rfl

theorem Sound.dupfd {fd r : ℤ} {arg : ℕ} (h : Sound s) (hdup : s.dupfd pid fd arg = some (r, t)) :
    Sound t := by
  obtain ⟨ht, -, hzero⟩ := h.counted.dupfd hdup
  have hinode : ∀ g, (t.fileTable g).inode = (s.fileTable g).inode := by
    intro g
    obtain ⟨p, -, hdup⟩ := Option.bind_eq_some_iff.mp hdup
    split at hdup
    · obtain ⟨-, rfl⟩ := Prod.mk.inj (Option.some.inj hdup)
      rfl
    · obtain ⟨slot, -, hdup⟩ := Option.bind_eq_some_iff.mp hdup
      split at hdup
      · obtain ⟨-, rfl⟩ := Prod.mk.inj (Option.some.inj hdup)
        rfl
      · split at hdup
        · obtain ⟨-, rfl⟩ := Prod.mk.inj (Option.some.inj hdup)
          rfl
        · obtain ⟨-, rfl⟩ := Prod.mk.inj (Option.some.inj hdup)
          exact addFile_inode _ _ g
  refine ⟨ht, fun g hg => ?_⟩
  rw [hinode g]
  refine h.inode g (Nat.pos_of_ne_zero fun h0 => ?_)
  rw [hzero g h0] at hg
  exact Nat.lt_irrefl 0 hg

theorem Sound.taskFork {child : ℕ} (h : Sound s) (hfork : s.taskFork pid = some (child, t)) : Sound t := by
  have ht := (h.counted.taskFork hfork).1
  obtain ⟨p, hrun, hfork⟩ := Option.bind_eq_some_iff.mp hfork
  obtain ⟨c, hfind, hfork⟩ := Option.bind_eq_some_iff.mp hfork
  obtain ⟨rfl, rfl⟩ := Prod.mk.inj (Option.some.inj hfork)
  obtain ⟨hp, -⟩ := running_eq_some.mp hrun
  have hc : c < taskNumber := List.mem_range.mp (List.mem_of_find?_eq_some hfind)
  refine ⟨ht, fun g hg => ?_⟩
  rw [addAll_inode]
  refine h.inode g (Nat.pos_of_ne_zero fun h0 => ?_)
  -- the child has the files of its parent, and no other
  have hnot : p.fileList.count g = 0 := by
    refine List.count_eq_zero_of_not_mem fun hmem => ?_
    have hpos := fds_pos (s := s) (h.counted.pid_lt hp) (by rw [fileList_of_tasks hp]; exact hmem)
    omega
  have hmove := fds_setProcess (s := s) hc (some { p with ppid := pid }) g
  change _ = _ + p.fileList.count g at hmove
  have hadd : ((List.range taskFileNr).foldl (fun s fd => (p.files fd).elim s s.addFile)
      (s.setProcess c (some { p with ppid := pid }))).tasks = _ := (addAll_same _ _).1
  have hsame := fun f => congrArg (fun tasks : ℕ → Option Process =>
    ∑ pid ∈ Finset.range taskNumber, ((tasks pid).elim [] Process.fileList).count f) hadd
  have hg' := hsame g
  change fds _ g = fds _ g at hg'
  omega

theorem Sound.sysPipe {inode : ℕ} {r : ℕ × ℕ} (h : Sound s) (hpipe : s.sysPipe pid inode = some (r, t)) :
    Sound t := by
  have ht := (h.counted.sysPipe hpipe).1
  obtain ⟨p, hrun, hpipe⟩ := Option.bind_eq_some_iff.mp hpipe
  obtain ⟨fd₀, hfd₀, hpipe⟩ := Option.bind_eq_some_iff.mp hpipe
  obtain ⟨⟨f₀, u₀⟩, hget₀, hpipe⟩ := Option.bind_eq_some_iff.mp hpipe
  obtain ⟨fd₁, hfd₁, hpipe⟩ := Option.bind_eq_some_iff.mp hpipe
  obtain ⟨⟨f₁, u₁⟩, hget₁, hpipe⟩ := Option.bind_eq_some_iff.mp hpipe
  obtain ⟨-, rfl⟩ := Prod.mk.inj (Option.some.inj hpipe)
  obtain ⟨hp, -⟩ := running_eq_some.mp hrun
  obtain ⟨hfd₀, hfree₀⟩ := Processes.taskGetFd_some hfd₀
  obtain ⟨hfd₁, hfree₁⟩ := Processes.taskGetFd_some hfd₁
  obtain ⟨hu₀, hlt₀, -, rfl⟩ := h.counted.getFile hget₀
  have hset₀ : Counted _ [] [] := hu₀.setDescriptor hp hfd₀ hfree₀ hlt₀ fun g => by
    simp [count_singleton_ite]
  obtain ⟨-, -, -, rfl⟩ := hset₀.getFile hget₁
  refine ⟨ht, fun g hg => ?_⟩
  rcases eq_or_ne g f₁ with rfl | hne₁
  · rw [setFile_self]
    rfl
  rw [setFile_of_ne _ _ hne₁]
  rcases eq_or_ne g f₀ with rfl | hne₀
  · rw [setFile_self]
    rfl
  rw [setFile_of_ne _ _ hne₀]
  refine ((congrArg Option.isSome (addFile_inode _ f₁ g)).trans ?_).trans
    (h.inode g (fds_pos_setDescriptor h.counted hp hfd₀ hfree₀ hne₀ ?_))
  · exact congrArg Option.isSome (addFile_inode s f₀ g)
  · exact fds_pos_setDescriptor hset₀ (setProcess_self _ pid _) hfd₁ hfree₁ hne₁ hg

/-- **Every operation.** -/
theorem Sound.run {op : FileOp} {r : ℤ} (h : Sound s) (hb : Buried s) (hrun : s.run op = some (r, t)) :
    Sound t := by
  cases op with
  | fork pid =>
    obtain ⟨⟨child, u⟩, hfork, heq⟩ := Option.map_eq_some_iff.mp hrun
    obtain ⟨-, rfl⟩ := Prod.mk.inj heq
    exact h.taskFork hfork
  | exit pid =>
    obtain ⟨u, hexit, heq⟩ := Option.map_eq_some_iff.mp hrun
    obtain ⟨-, rfl⟩ := Prod.mk.inj heq
    obtain ⟨ht, hgave⟩ := h.counted.taskExit hexit
    exact h.gave hgave ht
  | waitpid pid which =>
    obtain ⟨-, rfl⟩ := Prod.mk.inj (Option.some.inj hrun)
    obtain ⟨ht, hgave, -⟩ := h.counted.taskWaitpid hb pid which
    exact h.gave hgave ht
  | opens pid opened flags => exact h.sysOpen hrun
  | close pid fd =>
    obtain ⟨p, halive, hmap⟩ := Option.bind_eq_some_iff.mp hrun
    obtain ⟨u, hclose, heq⟩ := Option.map_eq_some_iff.mp hmap
    obtain ⟨-, rfl⟩ := Prod.mk.inj heq
    obtain ⟨ht, hgave⟩ := h.counted.sysClose hclose
    exact h.gave hgave ht
  | dup pid fd => exact h.dupfd hrun
  | dup2 pid oldfd newfd =>
    obtain ⟨p, -, hdup⟩ := Option.bind_eq_some_iff.mp hrun
    obtain ⟨u, hclose, hdup⟩ := Option.bind_eq_some_iff.mp hdup
    obtain ⟨hu, hgave⟩ := h.counted.sysClose hclose
    exact (h.gave hgave hu).dupfd hdup
  | pipe pid inode =>
    obtain ⟨⟨fds, u⟩, hpipe, heq⟩ := Option.map_eq_some_iff.mp hrun
    obtain ⟨-, rfl⟩ := Prod.mk.inj heq
    exact h.sysPipe hpipe

/-! ### One call -/

/-- `sys_close` of a descriptor that is not open. -/
theorem sysClose_none {fd : ℕ} (hfd : fd < taskFileNr) (hp : s.tasks pid = some p)
    (hfree : p.files fd = none) : s.sysClose pid fd = some s := by
  rw [OpenFiles.sysClose, assert_pos (by exact_mod_cast hfd), hp, fdSlot_natCast hfd]
  simp only [Option.bind_eq_bind, Option.bind_some, hfree]
  rfl

/-- `sys_close` of one that is: its file is counted down. -/
theorem Sound.sysClose_open (h : Sound s) {fd : ℕ} (hfd : fd < taskFileNr) (hp : s.tasks pid = some p)
    (hf : p.files fd = some f) :
    ∃ t, s.sysClose pid fd = some t ∧
      t.tasks = Function.update s.tasks pid (some { p with files := Function.update p.files fd none }) ∧
      ∀ g, (t.fileTable g).count + (if g = f then 1 else 0) = (s.fileTable g).count := by
  have hopen := fds_pos_of_open h.counted hp hfd hf
  have hpos : 0 < (s.fileTable f).count := by
    have hlt := h.counted.files_lt pid f (by
      rw [fileList_of_tasks hp]
      exact Processes.mem_fileList (List.mem_range.mpr hfd) hf)
    have hcount := h.counted.count f hlt
    simp only [List.count_nil, Nat.add_zero] at hcount
    omega
  have hput : ∃ u, s.putFile f = some u ∧ u.tasks = s.tasks ∧
      ∀ g, (u.fileTable g).count + (if g = f then 1 else 0) = (s.fileTable g).count := by
    have hdown : ∀ g, (((s.setFile f { s.fileTable f with count := (s.fileTable f).count - 1 }).fileTable
        g).count) + (if g = f then 1 else 0) = (s.fileTable g).count := by
      intro g
      rcases eq_or_ne g f with rfl | hne
      · rw [setFile_self, if_pos rfl]
        exact Nat.sub_add_cancel hpos
      · rw [setFile_of_ne _ _ hne, if_neg hne, Nat.add_zero]
    rw [OpenFiles.putFile, assert_pos hpos]
    by_cases hlast : (s.fileTable f).count - 1 = 0
    · exact ⟨_, if_pos hlast, rfl, hdown⟩
    · exact ⟨_, if_neg hlast, rfl, hdown⟩
  obtain ⟨u, hput, htasks, hcount⟩ := hput
  have hclose : s.sysClose pid fd
      = some (u.setProcess pid (some { p with files := Function.update p.files fd none })) := by
    rw [OpenFiles.sysClose, assert_pos (by exact_mod_cast hfd), hp, fdSlot_natCast hfd]
    simp only [Option.bind_eq_bind, Option.bind_some, hf]
    rw [assert_pos (h.inode f hopen), Option.bind_some, hput]
    rfl
  exact ⟨_, hclose, by rw [OpenFiles.setProcess, htasks], hcount⟩

/-- `dupfd` of a descriptor that is not open. -/
theorem dupfd_none {fd arg : ℕ} (hfd : fd < taskFileNr) (hrun : s.running pid = some p)
    (hfree : p.files fd = none) : s.dupfd pid fd arg = some (-1, s) := by
  have hle : ¬((taskFileNr : ℤ) < (fd : ℤ)) := by omega
  rw [OpenFiles.dupfd, hrun, Option.bind_eq_bind, Option.bind_some, if_neg hle, fdSlot_natCast hfd]
  simp only [Option.bind_eq_bind, Option.bind_some, hfree]
  rfl

/-- `dupfd` of one that is, to a place that is free. -/
theorem dupfd_open {fd arg : ℕ} (hfd : fd < taskFileNr) (harg : arg < taskFileNr)
    (hrun : s.running pid = some p) (hf : p.files fd = some f) (hfree : p.files arg = none) :
    s.dupfd pid fd arg = some ((arg : ℤ),
      (s.setProcess pid (some { p with files := Function.update p.files arg (some f) })).addFile f) := by
  have hle : ¬((taskFileNr : ℤ) < (fd : ℤ)) := by omega
  -- the search begins at the place itself
  have hfind : (List.range' arg (taskFileNr - arg)).find? (fun arg => (p.files arg).isNone) = some arg := by
    obtain ⟨n, hn⟩ : ∃ n, taskFileNr - arg = n + 1 := ⟨taskFileNr - arg - 1, by omega⟩
    rw [hn, List.range'_succ, List.find?_cons_of_pos (by rw [hfree]; rfl)]
  rw [OpenFiles.dupfd, hrun, Option.bind_eq_bind, Option.bind_some, if_neg hle, fdSlot_natCast hfd]
  simp only [Option.bind_eq_bind, Option.bind_some, hf, hfind]
  rfl

/-- `file->count++` does not overflow for a file that is open. -/
theorem addFile_count (h : Counted s [] []) (hp : s.tasks pid = some p) {fd : ℕ} (hfd : fd < taskFileNr)
    (hf : p.files fd = some f) (o : Option Process) (g : ℕ) :
    (((s.setProcess pid o).addFile f).fileTable g).count
      = (s.fileTable g).count + if g = f then 1 else 0 := by
  rcases eq_or_ne g f with rfl | hne
  · rw [addFile, setFile_self, if_pos rfl]
    have hlt := h.files_lt pid g (by
      rw [fileList_of_tasks hp]
      exact Processes.mem_fileList (List.mem_range.mpr hfd) hf)
    have hcount := h.count g hlt
    have hle := fds_le (s := s) g
    simp only [List.count_nil, Nat.add_zero] at hcount
    exact u32_of_lt (show (s.fileTable g).count + 1 < 2 ^ 32 by omega)
  · rw [addFile, setFile_of_ne _ _ hne, if_neg hne]
    rfl

/-- **What `dup2` is for.** Where `oldfd` is open, `newfd` comes back and leads to the same file, which
is counted once more, and the file it led to before once less. Where it is not, the value is -1 and
nothing happens. -/
def Dup2Meets (s : OpenFiles) (pid : ℕ) (p : Process) (oldfd newfd : ℕ) : Prop :=
  match p.files oldfd with
  | some f => ∃ t, s.sysDup2 pid oldfd newfd = some ((newfd : ℤ), t) ∧
      t.tasks = Function.update s.tasks pid (some { p with files := Function.update p.files newfd (some f) }) ∧
      ∀ g, (t.fileTable g).count + (if p.files newfd = some g then 1 else 0)
        = (s.fileTable g).count + if g = f then 1 else 0
  | none => ∃ t, s.sysDup2 pid oldfd newfd = some (-1, t) ∧ t.tasks = s.tasks ∧
      ∀ g, (t.fileTable g).count = (s.fileTable g).count

/-- What `sys_dup2` does after `close` has come back. -/
theorem sysDup2_eq {oldfd newfd : ℕ} (hrun : s.running pid = some p)
    (hclose : s.sysClose pid newfd = some u) : s.sysDup2 pid oldfd newfd = u.dupfd pid oldfd newfd := by
  rw [OpenFiles.sysDup2, hrun, Option.bind_eq_bind, Option.bind_some, hclose, Option.bind_eq_bind,
    Option.bind_some, Int.toNat_natCast]

/-- **`sys_dup2` does what it is for** in every case but two: `oldfd` and `newfd` are one descriptor
that is open, or `oldfd` is not open and `newfd` is. -/
theorem dup2_iff {oldfd newfd : ℕ} (h : Sound s) (hrun : s.running pid = some p) (hold : oldfd < taskFileNr)
    (hnew : newfd < taskFileNr) :
    Dup2Meets s pid p oldfd newfd ↔
      (p.files oldfd ≠ none ∧ oldfd ≠ newfd) ∨ (p.files oldfd = none ∧ p.files newfd = none) := by
  obtain ⟨hp, hdead⟩ := running_eq_some.mp hrun
  cases hn : p.files newfd with
  | none =>
    have heq : s.sysDup2 pid oldfd newfd = _ := sysDup2_eq hrun (sysClose_none hnew hp hn)
    cases ho : p.files oldfd with
    | none =>
      rw [dupfd_none hold hrun ho] at heq
      rw [Dup2Meets, ho]
      exact iff_of_true ⟨s, heq, rfl, fun _ => rfl⟩ (Or.inr ⟨rfl, rfl⟩)
    | some f =>
      rw [dupfd_open hold hnew hrun ho hn] at heq
      have hne : oldfd ≠ newfd := by
        rintro rfl
        rw [ho] at hn
        exact Option.some_ne_none f hn
      rw [Dup2Meets, ho]
      refine iff_of_true ⟨_, heq, rfl, fun g => ?_⟩ (Or.inl ⟨Option.some_ne_none f, hne⟩)
      rw [hn, if_neg (by simp)]
      exact addFile_count h.counted hp hold ho _ g
  | some f' =>
    obtain ⟨u, hclose, htasks, hcount⟩ := h.sysClose_open hnew hp hn
    have heq : s.sysDup2 pid oldfd newfd = _ := sysDup2_eq hrun hclose
    have hrun' : u.running pid = some { p with files := Function.update p.files newfd none } :=
      running_eq_some.mpr ⟨by rw [htasks, Function.update_self], hdead⟩
    rcases eq_or_ne oldfd newfd with rfl | hne
    -- the descriptor has been closed before it is looked at
    · rw [dupfd_none hold hrun' (Function.update_self _ _ _)] at heq
      rw [Dup2Meets, hn]
      refine iff_of_false (fun hmeets => ?_) (by simp)
      obtain ⟨t, hdup, -⟩ := hmeets
      rw [heq] at hdup
      have hval := (Prod.mk.inj (Option.some.inj hdup)).1
      omega
    · have hfiles : Function.update p.files newfd none oldfd = p.files oldfd := Function.update_of_ne hne _ _
      cases ho : p.files oldfd with
      | none =>
        rw [dupfd_none hold hrun' (hfiles.trans ho)] at heq
        rw [Dup2Meets, ho]
        refine iff_of_false (fun hmeets => ?_) (by simp)
        obtain ⟨t, hdup, hsame, -⟩ := hmeets
        obtain ⟨-, rfl⟩ := Prod.mk.inj (Option.some.inj (heq.symm.trans hdup))
        -- `newfd` has been closed
        have hopen := congrArg (fun tasks => (tasks pid).map fun p : Process => p.files newfd)
          (htasks.symm.trans hsame)
        simp [hp, hn] at hopen
      | some f =>
        rw [dupfd_open hold hnew hrun' (hfiles.trans ho) (Function.update_self _ _ _)] at heq
        rw [Dup2Meets, ho]
        refine iff_of_true ⟨_, heq, ?_, fun g => ?_⟩ (Or.inl ⟨Option.some_ne_none f, hne⟩)
        · change Function.update u.tasks pid _ = _
          rw [htasks, Function.update_idem, Function.update_idem]
        · rw [addFile_count (h.counted.sysClose hclose).1 (running_eq_some.mp hrun').1 hold
            (hfiles.trans ho), ← hcount g, hn]
          simp only [Option.some.injEq, eq_comm (a := f')]
          omega

theorem boot_sound (inode mode : ℕ → ℕ) : Sound (bootFiles inode mode) := by
  refine ⟨boot_counted inode mode, fun f hf => ?_⟩
  -- a descriptor of the first tasks leads to one of the first three files
  have hlt : f < 3 := by
    by_contra hge
    refine absurd hf (Nat.not_lt.mpr (Nat.le_of_eq (Finset.sum_eq_zero fun pid _ => ?_)))
    rw [boot_fileList]
    refine List.count_eq_zero_of_not_mem fun hmem => ?_
    split at hmem
    · simp only [List.mem_cons, List.not_mem_nil, or_false] at hmem
      omega
    · exact absurd hmem List.not_mem_nil
  rw [bootFiles]
  simp only [if_pos hlt]
  rfl

end OpenFiles

/-- **In every run** the tables are such that `sys_close` does not stop. -/
theorem fileRun_sound (inode mode : ℕ → ℕ) (ops : List FileOp) {t : OpenFiles}
    (hrun : Run.exec fileStep (bootFiles inode mode) ops = some t) : t.Sound := by
  refine (Run.inv_of_exec (fun s : OpenFiles => s.Sound ∧ s.Buried) (fun s op r u hs (_ : True) hstep => ?_) ops _ t
    ⟨OpenFiles.boot_sound inode mode, OpenFiles.boot_buried inode mode⟩
    (Run.along_of_forall (fun _ _ => trivial) _ _) hrun).1
  have hnone : OpenFiles.Sound { s with calls := [] } :=
    ⟨⟨hs.1.counted.count, hs.1.counted.files_lt, hs.1.counted.tasks_lt⟩, hs.1.inode⟩
  exact ⟨hnone.run hs.2 hstep, (OpenFiles.Exact.step hs.1.counted hs.2 hstep).2⟩

/-- The first task copies its standard input to its standard output. -/
theorem dup2_iff_boot : OpenFiles.Dup2Meets (bootFiles id id) 1 (bootProcess 1) 0 1 :=
  (OpenFiles.dup2_iff (OpenFiles.boot_sound id id) rfl (by decide) (by decide)).mpr
    (Or.inl ⟨by decide, by decide⟩)

/-- Descriptor 3 is not open, and still descriptor 0 is closed. -/
theorem dup2_closes : ¬OpenFiles.Dup2Meets (bootFiles id id) 1 (bootProcess 1) 3 0 := by
  rintro ⟨t, hdup, hsame, -⟩
  have hclosed : ((bootFiles id id).sysDup2 1 3 0).map (fun r => (r.2.tasks 1).map fun p => p.files 0)
      = some (some none) := by rfl
  rw [show ((bootFiles id id).sysDup2 1 3 0) = some (-1, t) from hdup, Option.map_some, hsame] at hclosed
  exact absurd hclosed (by decide)

end Onixs
