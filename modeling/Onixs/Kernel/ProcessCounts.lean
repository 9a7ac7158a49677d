import Mathlib.Algebra.Order.BigOperators.Group.Finset
import Onixs.Common.RefCount
import Onixs.Fs.WalkCounts
import Onixs.Kernel.Processes

/-!
# References of the processes

`Onixs.Processes.refs` counts the references to an inode: those of the tasks that are
alive, of the entries of the file table in use, and of the super blocks.
`Onixs.Processes.Counting s L F` says that the counters are right while an operation is
under way: it has the references of the list `L` to inodes and those of `F` to entries of
the file table in its hands. Each statement of an operation moves a reference between
these lists and the tables, and its lemma says so; what an operation does as a whole is
the sequence of its moves.
-/

namespace Onixs

/-! ### References -/

namespace Process

/-- The inodes a task points to. -/
def inodes (p : Process) : List ℕ := p.task.ipwd :: p.task.iroot :: p.iexec.toList

/-- The entries of the file table a task points to. -/
def fileList (p : Process) : List ℕ := (List.range taskFileNr).filterMap p.files

end Process

/-- The inodes an entry of the file table points to. -/
def File.inodes (file : File) : List ℕ := if file.count = 0 then [] else file.inode.toList

/-- The inodes a super block points to. -/
def SuperBlock.inodes (sb : SuperBlock) : List ℕ := sb.iroot.toList ++ sb.imount.toList

namespace Processes

variable (s : Processes)

/-- The inodes task `pid` points to, if it is alive. -/
def taskInodes (pid : ℕ) : List ℕ := (s.running pid).elim [] Process.inodes

/-- The entries of the file table task `pid` points to, if it is alive. -/
def taskFiles (pid : ℕ) : List ℕ := (s.running pid).elim [] Process.fileList

/-- **The references to inode `j`.** -/
def refs (j : ℕ) : ℕ :=
  ∑ pid ∈ Finset.range taskNumber, (s.taskInodes pid).count j +
    ∑ f ∈ Finset.range fileNr, (s.fileTable f).inodes.count j +
    ∑ k ∈ Finset.range superNr, (s.fs.superTable k).inodes.count j

/-- The descriptors that point to entry `f` of the file table. -/
def fds (f : ℕ) : ℕ := ∑ pid ∈ Finset.range taskNumber, (s.taskFiles pid).count f

/-- **The counters are right**, with the references of `L` and `F` under way. -/
structure Counting (L F : List ℕ) : Prop where
  /-- The inode table. -/
  table : TableOk s.fs
  /-- The counts of the inodes. -/
  count : ∀ j < inodeNr, (s.fs.inodeTable j).count = s.refs j + L.count j
  /-- The counts of the files. -/
  files : ∀ f < fileNr, (s.fileTable f).count = s.fds f + F.count f
  /-- Tasks have a number. -/
  tasks_lt : ∀ pid, s.tasks pid ≠ none → pid < taskNumber
  /-- What tasks point to is in the inode table, -/
  inodes_lt : ∀ pid, ∀ i ∈ s.taskInodes pid, i < inodeNr
  /-- and so is what files point to, -/
  fileInodes_lt : ∀ f, ∀ i ∈ (s.fileTable f).inodes, i < inodeNr
  /-- what super blocks point to, -/
  supers_lt : ∀ k < superNr, ∀ i ∈ (s.fs.superTable k).inodes, i < inodeNr
  /-- and what is under way. -/
  held_lt : ∀ i ∈ L, i < inodeNr
  /-- Descriptors are in the file table, -/
  files_lt : ∀ pid, ∀ f ∈ s.taskFiles pid, f < fileNr
  /-- and so are those under way. -/
  open_lt : ∀ f ∈ F, f < fileNr
  /-- A mount point with number 1 is the root of the tree. -/
  top : ∀ k < superNr, ∀ m, (s.fs.superTable k).imount = some m → (s.fs.inodeTable m).nr = 1 →
    ∀ k', s.fs.getSuper (s.fs.inodeTable m).dev = some k' → (s.fs.superTable k').imount = some m

/-- The references that are not under way. -/
def base (L : List ℕ) (j : ℕ) : ℕ := (s.fs.inodeTable j).count - L.count j

section Calls

variable {s} {L L' F : List ℕ} {pid : ℕ} {p : Process} {fs : Fs}

theorem Counting.base_eq (h : s.Counting L F) {j : ℕ} (hj : j < inodeNr) : s.base L j = s.refs j := by
  rw [base, h.count j hj, Nat.add_sub_cancel]

theorem Counting.holding (h : s.Counting L F) : Holding (s.base L) s.fs s.fs L where
  ok := h.table
  count j := by
    rw [base]
    by_cases hj : j < inodeNr
    · rw [h.count j hj]
      omega
    · rw [List.count_eq_zero_of_not_mem fun hmem => hj (h.held_lt j hmem)]
      omega
  lt := h.held_lt
  kept _ _ := rfl
  supers _ := rfl

/-- No inode has more references than tasks, files and super blocks can have. -/
theorem refs_le (j : ℕ) : s.refs j ≤ 64 * 3 + 128 + 16 * 2 := by
  have htask : ∀ pid ∈ Finset.range taskNumber, (s.taskInodes pid).count j ≤ 3 := by
    intro pid _
    refine List.count_le_length.trans ?_
    rw [taskInodes]
    cases s.running pid with
    | none => exact Nat.zero_le 3
    | some p => cases hp : p.iexec <;> simp [Process.inodes, hp]
  have hfile : ∀ f ∈ Finset.range fileNr, (s.fileTable f).inodes.count j ≤ 1 := by
    intro f _
    refine List.count_le_length.trans ?_
    rw [File.inodes]
    split
    · exact Nat.zero_le 1
    · cases (s.fileTable f).inode <;> simp
  have hsuper : ∀ k ∈ Finset.range superNr, (s.fs.superTable k).inodes.count j ≤ 2 := by
    intro k _
    refine List.count_le_length.trans ?_
    rw [SuperBlock.inodes]
    cases (s.fs.superTable k).iroot <;> cases (s.fs.superTable k).imount <;> simp
  have h₁ := Finset.sum_le_card_nsmul _ _ 3 htask
  have h₂ := Finset.sum_le_card_nsmul _ _ 1 hfile
  have h₃ := Finset.sum_le_card_nsmul _ _ 2 hsuper
  simp only [Finset.card_range, nsmul_eq_mul, Nat.cast_id, taskNumber, fileNr, superNr_eq] at h₁ h₂ h₃
  simp only [refs, taskNumber, fileNr, superNr_eq]
  omega

theorem Counting.room (h : s.Counting L F) {n : ℕ} (hn : n ≤ 1000) : Room (s.base L) n := by
  intro j hj
  have := refs_le (s := s) j
  rw [h.base_eq hj]
  omega

/-- What a super block points to has a reference. -/
theorem refs_pos_of_super {k m : ℕ} (hk : k < superNr) (hm : m ∈ (s.fs.superTable k).inodes) :
    s.refs m ≠ 0 := by
  have hle := Finset.single_le_sum (f := fun k => (s.fs.superTable k).inodes.count m)
    (fun _ _ => Nat.zero_le _) (Finset.mem_range.mpr hk)
  have hpos := List.count_pos_iff.mpr hm
  rw [refs]
  omega

theorem Counting.pinned (h : s.Counting L F) : Pinned (s.base L) s.fs where
  iroot k hk m hm := by
    have hmem : m ∈ (s.fs.superTable k).inodes := by simp [SuperBlock.inodes, hm]
    have hlt := h.supers_lt k hk m hmem
    exact ⟨hlt, by rw [h.base_eq hlt]; exact refs_pos_of_super hk hmem⟩
  imount k hk m hm := by
    have hmem : m ∈ (s.fs.superTable k).inodes := by simp [SuperBlock.inodes, hm]
    have hlt := h.supers_lt k hk m hmem
    exact ⟨hlt, by rw [h.base_eq hlt]; exact refs_pos_of_super hk hmem⟩
  top := h.top

theorem running_eq_some : s.running pid = some p ↔ s.tasks pid = some p ∧ p.died = false := by
  rw [running, Option.bind_eq_bind, Option.bind_eq_some_iff]
  constructor
  · rintro ⟨q, hq, h⟩
    obtain ⟨_, hd, h⟩ := Option.bind_eq_some_iff.mp h
    obtain rfl := Option.some.inj h
    exact ⟨hq, assert_eq_some.mp hd⟩
  · rintro ⟨hp, hd⟩
    exact ⟨p, hp, by rw [assert_pos hd]; rfl⟩

theorem taskInodes_of_running (h : s.running pid = some p) : s.taskInodes pid = p.inodes := by
  rw [taskInodes, h]
  rfl

theorem taskFiles_of_running (h : s.running pid = some p) : s.taskFiles pid = p.fileList := by
  rw [taskFiles, h]
  rfl

theorem Counting.pid_lt (h : s.Counting L F) (hrun : s.running pid = some p) : pid < taskNumber :=
  h.tasks_lt pid (by rw [(running_eq_some.mp hrun).1]; exact Option.some_ne_none p)

/-- What a task points to has a reference. -/
theorem Counting.used_of_task (h : s.Counting L F) (hrun : s.running pid = some p) {i : ℕ}
    (hi : i ∈ p.inodes) : i < inodeNr ∧ s.base L i ≠ 0 := by
  rw [← taskInodes_of_running hrun] at hi
  have hlt := h.inodes_lt pid i hi
  have hle := Finset.single_le_sum (f := fun pid => (s.taskInodes pid).count i)
    (fun _ _ => Nat.zero_le _) (Finset.mem_range.mpr (h.pid_lt hrun))
  have hpos := List.count_pos_iff.mpr hi
  refine ⟨hlt, ?_⟩
  rw [h.base_eq hlt, refs]
  omega

theorem Counting.dirs (h : s.Counting L F) (hrun : s.running pid = some p) :
    TaskDirs (s.base L) p.task where
  iroot := h.used_of_task hrun (by simp [Process.inodes])
  ipwd := h.used_of_task hrun (by simp [Process.inodes])

/-! ### Calls to the file system -/

/-- **A call to the file system** moves the references it says it moves. -/
theorem Counting.setFs (h : s.Counting L F) (hfs : Holding (s.base L) s.fs fs L') :
    (s.setFs fs).Counting L' F := by
  have hsuper : ∀ k, (fs.superTable k).inodes = (s.fs.superTable k).inodes := fun k => by
    rw [SuperBlock.inodes, SuperBlock.inodes, hfs.iroot, hfs.imount]
  have hrefs : ∀ j, (s.setFs fs).refs j = s.refs j := fun j => by
    simp only [refs, Processes.setFs, hsuper]
    rfl
  refine ⟨hfs.ok, fun j hj => ?_, h.files, h.tasks_lt, h.inodes_lt, h.fileInodes_lt, fun k hk i hi => ?_,
    hfs.lt, h.files_lt, h.open_lt, fun k hk m hm hnr k' hk' => ?_⟩
  · rw [hrefs, ← h.base_eq hj]
    exact hfs.count j
  · exact h.supers_lt k hk i (hsuper k ▸ hi)
  · have hm' : (s.fs.superTable k).imount = some m := (hfs.imount k).symm.trans hm
    have hident := hfs.kept m (h.pinned.imount k hk m hm').2
    have hdev : (fs.inodeTable m).dev = (s.fs.inodeTable m).dev := congrArg Prod.fst hident
    have hk'' : s.fs.getSuper (s.fs.inodeTable m).dev = some k' := by
      rw [← hfs.getSuper, ← hdev]
      exact hk'
    exact (hfs.imount k').trans
      (h.top k hk m hm' ((congrArg (fun p => p.2.1) hident).symm.trans hnr) k' hk'')

/-- The file system as a task sees it has the same tables. -/
theorem Counting.asTask (h : s.Counting L F) (p : Process) :
    Holding (s.base L) s.fs (s.asTask p) L :=
  h.holding.congr (fun _ => ⟨rfl, rfl⟩) rfl

end Calls

/-! ### Stores in the tables -/

section Stores

variable {s} {L L' F F' : List ℕ} {pid : ℕ} {p : Process}

theorem running_setProcess (s : Processes) (pid pid' : ℕ) (o : Option Process) :
    (s.setProcess pid o).running pid' = if pid' = pid then o.filter (fun p => !p.died) else s.running pid' := by
  rcases eq_or_ne pid' pid with rfl | hne
  · rw [running, setProcess_self, if_pos rfl]
    cases o with
    | none => rfl
    | some p => cases hd : p.died <;> simp [assert, Option.filter, hd]
  · rw [running, running, setProcess_of_ne s o hne, if_neg hne]

/-- The inodes an entry of `task_table` points to. -/
def inodesOf (o : Option Process) : List ℕ := (o.filter fun p => !p.died).elim [] Process.inodes

/-- The files an entry of `task_table` points to. -/
def filesOf (o : Option Process) : List ℕ := (o.filter fun p => !p.died).elim [] Process.fileList

theorem taskInodes_setProcess (s : Processes) (pid pid' : ℕ) (o : Option Process) :
    (s.setProcess pid o).taskInodes pid' = if pid' = pid then inodesOf o else s.taskInodes pid' := by
  rw [taskInodes, running_setProcess]
  split <;> rfl

theorem taskFiles_setProcess (s : Processes) (pid pid' : ℕ) (o : Option Process) :
    (s.setProcess pid o).taskFiles pid' = if pid' = pid then filesOf o else s.taskFiles pid' := by
  rw [taskFiles, running_setProcess]
  split <;> rfl

/-- **A store in `task_table`** moves references between the task and those under way. -/
theorem Counting.setProcess (h : s.Counting L F) (hpid : pid < taskNumber) {o : Option Process}
    (hL : (inodesOf o ++ L').Perm (s.taskInodes pid ++ L))
    (hF : (filesOf o ++ F').Perm (s.taskFiles pid ++ F)) : (s.setProcess pid o).Counting L' F' := by
  have hmem := Finset.mem_range.mpr hpid
  have hinodes : ∀ j, (s.setProcess pid o).refs j + L'.count j = s.refs j + L.count j := by
    intro j
    have hsum := sum_add_of_eq_off (f := fun pid' => (s.taskInodes pid').count j)
      (g := fun pid' => ((s.setProcess pid o).taskInodes pid').count j) hmem fun pid' _ hne => by
        simp only [taskInodes_setProcess, if_neg hne]
    have hperm := hL.count_eq j
    simp only [taskInodes_setProcess, if_true, List.count_append] at hsum hperm
    simp only [refs, taskInodes_setProcess]
    change _ + (∑ f ∈ Finset.range fileNr, (s.fileTable f).inodes.count j)
      + (∑ k ∈ Finset.range superNr, (s.fs.superTable k).inodes.count j) + _ = _
    omega
  have hfds : ∀ f, (s.setProcess pid o).fds f + F'.count f = s.fds f + F.count f := by
    intro f
    have hsum := sum_add_of_eq_off (f := fun pid' => (s.taskFiles pid').count f)
      (g := fun pid' => ((s.setProcess pid o).taskFiles pid').count f) hmem fun pid' _ hne => by
        simp only [taskFiles_setProcess, if_neg hne]
    have hperm := hF.count_eq f
    simp only [taskFiles_setProcess, if_true, List.count_append] at hsum hperm
    simp only [fds, taskFiles_setProcess]
    omega
  have hsubL : ∀ i, i ∈ inodesOf o ∨ i ∈ L' → i < inodeNr := fun i hi =>
    (List.mem_append.mp (hL.mem_iff.mp (List.mem_append.mpr hi))).elim (h.inodes_lt pid i) (h.held_lt i)
  have hsubF : ∀ f, f ∈ filesOf o ∨ f ∈ F' → f < fileNr := fun f hf =>
    (List.mem_append.mp (hF.mem_iff.mp (List.mem_append.mpr hf))).elim (h.files_lt pid f) (h.open_lt f)
  refine ⟨h.table, fun j hj => (h.count j hj).trans (hinodes j).symm,
    fun f hf => (h.files f hf).trans (hfds f).symm, fun pid' hp' => ?_, fun pid' i hi => ?_,
    h.fileInodes_lt, h.supers_lt, fun i hi => hsubL i (Or.inr hi), fun pid' f hf => ?_,
    fun f hf => hsubF f (Or.inr hf), h.top⟩
  · rcases eq_or_ne pid' pid with rfl | hne
    · exact hpid
    · rw [setProcess_of_ne s o hne] at hp'
      exact h.tasks_lt pid' hp'
  · rw [taskInodes_setProcess] at hi
    split at hi
    · exact hsubL i (Or.inl hi)
    · exact h.inodes_lt pid' i hi
  · rw [taskFiles_setProcess] at hf
    split at hf
    · exact hsubF f (Or.inl hf)
    · exact h.files_lt pid' f hf

/-- **A store in `file_table`** moves references between the file and those under way. -/
theorem Counting.setFile (h : s.Counting L F) {f : ℕ} (hf : f < fileNr) {file : File}
    (hL : (file.inodes ++ L').Perm ((s.fileTable f).inodes ++ L)) (hF : ∀ g ∈ F', g < fileNr)
    (hcount : ∀ g < fileNr, ((s.setFile f file).fileTable g).count + F.count g
      = (s.fileTable g).count + F'.count g) : (s.setFile f file).Counting L' F' := by
  have hinodes : ∀ j, (s.setFile f file).refs j + L'.count j = s.refs j + L.count j := by
    intro j
    have hsum := sum_add_of_eq_off (f := fun g => (s.fileTable g).inodes.count j)
      (g := fun g => ((s.setFile f file).fileTable g).inodes.count j) (Finset.mem_range.mpr hf)
      fun g _ hne => by rw [setFile_of_ne s file hne]
    have hperm := hL.count_eq j
    rw [List.count_append, List.count_append] at hperm
    rw [setFile_self] at hsum
    rw [refs, refs]
    change (∑ pid ∈ Finset.range taskNumber, (s.taskInodes pid).count j) + _
      + (∑ k ∈ Finset.range superNr, (s.fs.superTable k).inodes.count j) + _ = _
    omega
  have hsubL : ∀ i, i ∈ file.inodes ∨ i ∈ L' → i < inodeNr := fun i hi =>
    (List.mem_append.mp (hL.mem_iff.mp (List.mem_append.mpr hi))).elim (h.fileInodes_lt f i) (h.held_lt i)
  refine ⟨h.table, fun j hj => (h.count j hj).trans (hinodes j).symm, fun g hg => ?_, h.tasks_lt,
    h.inodes_lt, fun g i hi => ?_, h.supers_lt, fun i hi => hsubL i (Or.inr hi), h.files_lt, hF, h.top⟩
  · have hg' := hcount g hg
    have hold := h.files g hg
    change _ = s.fds g + _
    omega
  · rcases eq_or_ne g f with rfl | hne
    · rw [setFile_self] at hi
      exact hsubL i (Or.inl hi)
    · rw [setFile_of_ne s file hne] at hi
      exact h.fileInodes_lt g i hi

theorem Counting.perm (h : s.Counting L F) (hL : L.Perm L') (hF : F.Perm F') : s.Counting L' F' where
  table := h.table
  count j hj := by rw [← hL.count_eq]; exact h.count j hj
  files f hf := by rw [← hF.count_eq]; exact h.files f hf
  tasks_lt := h.tasks_lt
  inodes_lt := h.inodes_lt
  fileInodes_lt := h.fileInodes_lt
  supers_lt := h.supers_lt
  held_lt i hi := h.held_lt i (hL.mem_iff.mpr hi)
  files_lt := h.files_lt
  open_lt f hf := h.open_lt f (hF.mem_iff.mpr hf)
  top := h.top

/-- No file has more descriptors than the tasks have. -/
theorem fds_le (f : ℕ) : s.fds f ≤ 64 * 16 := by
  have htask : ∀ pid ∈ Finset.range taskNumber, (s.taskFiles pid).count f ≤ 16 := by
    intro pid _
    refine List.count_le_length.trans ?_
    rw [taskFiles]
    cases s.running pid with
    | none => exact Nat.zero_le 16
    | some p => exact (List.length_filterMap_le _ _).trans (by simp [taskFileNr])
  have hsum := Finset.sum_le_card_nsmul _ _ 16 htask
  simp only [Finset.card_range, nsmul_eq_mul, Nat.cast_id, taskNumber] at hsum
  rw [fds, taskNumber]
  exact hsum

/-- **One descriptor more.** -/
theorem Counting.addFile (h : s.Counting L F) (hlen : F.length ≤ 900) {f : ℕ} (hf : f < fileNr)
    (hused : (s.fileTable f).count ≠ 0) : (s.addFile f).Counting L (f :: F) := by
  have hroom : u32 ((s.fileTable f).count + 1) = (s.fileTable f).count + 1 := by
    have hfds := fds_le (s := s) f
    have hle := List.count_le_length (a := f) (l := F)
    refine u32_of_lt ?_
    rw [h.files f hf]
    omega
  refine h.setFile hf (List.Perm.append_right L (List.Perm.of_eq ?_))
    (fun g hg => (List.mem_cons.mp hg).elim (fun heq => heq ▸ hf) (h.open_lt g)) fun g hg => ?_
  · rw [File.inodes, File.inodes, hroom, if_neg hused, if_neg (Nat.succ_ne_zero _)]
  · rcases eq_or_ne g f with rfl | hne
    · simp only [setFile_self, hroom, List.count_cons_self]
      omega
    · simp only [setFile_of_ne _ _ hne, List.count_cons_of_ne (Ne.symm hne)]

end Stores

/-! ### What else is kept -/

/-- **A property of the file system** that the calls of the processes keep as long as the counters are
right. -/
structure Kept (P : Fs → Prop) : Prop where
  /-- It is not about the running task. -/
  task : ∀ {s : Fs} (task : Task), P s → P { s with task := task }
  /-- A walk keeps it. -/
  carried : ∀ {c : ℕ → ℕ} {s : Fs}, Pinned c s → Carried c s fun t L => Holding c s t L ∧ P t

/-- The counters alone. -/
theorem kept_true : Kept fun _ => True where
  task _ _ := trivial
  carried hpin := by
    have hinv := carried_holding hpin
    exact ⟨fun h => h.1, fun h hperm => ⟨hinv.perm h.1 hperm, trivial⟩, fun h hsame => ⟨hinv.congr h.1 hsame, trivial⟩,
      fun h hroom hrun => ⟨hinv.iput h.1 hroom hrun, trivial⟩,
      fun h hroom hdev hrun => ⟨hinv.iget h.1 hroom hdev hrun, trivial⟩,
      fun h hroom hlt hc => ⟨hinv.addCount h.1 hroom hlt hc, trivial⟩⟩

/-- **The counters are right, and the file system has the property.** -/
def Keeping (P : Fs → Prop) (s : Processes) (L F : List ℕ) : Prop := s.Counting L F ∧ P s.fs

section Keeping

variable {P : Fs → Prop} {s : Processes} {L L' F F' : List ℕ} {pid : ℕ} {p : Process} {fs : Fs}

theorem Keeping.setFs (h : Keeping P s L F) (hfs : Holding (s.base L) s.fs fs L' ∧ P fs) :
    Keeping P (s.setFs fs) L' F := ⟨h.1.setFs hfs.1, hfs.2⟩

theorem Keeping.setProcess (h : Keeping P s L F) (hpid : pid < taskNumber) {o : Option Process}
    (hL : (inodesOf o ++ L').Perm (s.taskInodes pid ++ L))
    (hF : (filesOf o ++ F').Perm (s.taskFiles pid ++ F)) : Keeping P (s.setProcess pid o) L' F' :=
  ⟨h.1.setProcess hpid hL hF, h.2⟩

theorem Keeping.setFile (h : Keeping P s L F) {f : ℕ} (hf : f < fileNr) {file : File}
    (hL : (file.inodes ++ L').Perm ((s.fileTable f).inodes ++ L)) (hF : ∀ g ∈ F', g < fileNr)
    (hcount : ∀ g < fileNr, ((s.setFile f file).fileTable g).count + F.count g
      = (s.fileTable g).count + F'.count g) : Keeping P (s.setFile f file) L' F' :=
  ⟨h.1.setFile hf hL hF hcount, h.2⟩

theorem Keeping.perm (h : Keeping P s L F) (hL : L.Perm L') (hF : F.Perm F') : Keeping P s L' F' :=
  ⟨h.1.perm hL hF, h.2⟩

theorem Keeping.addFile (h : Keeping P s L F) (hlen : F.length ≤ 900) {f : ℕ} (hf : f < fileNr)
    (hused : (s.fileTable f).count ≠ 0) : Keeping P (s.addFile f) L (f :: F) :=
  ⟨h.1.addFile hlen hf hused, h.2⟩

variable (hP : Kept P)

include hP

theorem Keeping.iput {i : ℕ} (h : Keeping P s (i :: L) F) (hlen : L.length ≤ 900)
    (hrun : iput s.fs i = some fs) : Keeping P (s.setFs fs) L F :=
  h.setFs ((hP.carried h.1.pinned).iput ⟨h.1.holding, h.2⟩ (h.1.room (by omega)) hrun)

theorem Keeping.iputOpt {o : Option ℕ} (h : Keeping P s (o.toList ++ L) F) (hlen : L.length ≤ 900)
    (hrun : iputOpt s.fs o = some fs) : Keeping P (s.setFs fs) L F :=
  h.setFs ((hP.carried h.1.pinned).iputOpt ⟨h.1.holding, h.2⟩ (h.1.room (by omega)) hrun)

theorem Keeping.addCount {i : ℕ} (h : Keeping P s L F) (hlen : L.length ≤ 900)
    (hi : i < inodeNr ∧ s.base L i ≠ 0) : Keeping P (s.setFs (s.fs.addCount i)) (i :: L) F :=
  h.setFs ((hP.carried h.1.pinned).addCount ⟨h.1.holding, h.2⟩ (h.1.room (by omega)) hi.1 hi.2)

theorem Keeping.namei (h : Keeping P s L F) (hlen : L.length ≤ 900) (hrun : s.running pid = some p)
    {path : CStr} {r : Option ℕ} (hname : namei (s.asTask p) path = some (r, fs)) :
    Keeping P (s.setFs fs) (r.toList ++ L) F :=
  h.setFs ((hP.carried h.1.pinned).namei h.1.pinned (h.1.room (by omega)) ⟨h.1.asTask p, hP.task p.task h.2⟩
    (h.1.dirs hrun) hname)

theorem Keeping.inodeOpen (h : Keeping P s L F) (hlen : L.length ≤ 900) (hrun : s.running pid = some p)
    {path : CStr} {flags mode : ℕ} {r : Option ℕ}
    (hopen : inodeOpen (s.asTask p) path flags mode = some (r, fs)) :
    Keeping P (s.setFs fs) (r.toList ++ L) F :=
  h.setFs ((hP.carried h.1.pinned).inodeOpen h.1.pinned (h.1.room (by omega)) ⟨h.1.asTask p, hP.task p.task h.2⟩
    (h.1.dirs hrun) hopen)

/-- **`put_file`** gives one descriptor back, and the inode if it was the last. -/
theorem Keeping.putFile {f : ℕ} (h : Keeping P s L (f :: F)) (hlen : L.length ≤ 900) {u : Processes}
    (hrun : s.putFile f = some u) : Keeping P u L F ∧ u.tasks = s.tasks := by
  have hf := h.1.open_lt f List.mem_cons_self
  obtain ⟨_, hpos, hrun⟩ := Option.bind_eq_some_iff.mp hrun
  rw [assert_eq_some] at hpos
  have hF : ∀ g ∈ F, g < fileNr := fun g hg => h.1.open_lt g (List.mem_cons_of_mem f hg)
  have hcount : ∀ g < fileNr, ((s.setFile f { s.fileTable f with count := (s.fileTable f).count - 1 }
      ).fileTable g).count + (f :: F).count g = (s.fileTable g).count + F.count g := by
    intro g _
    rcases eq_or_ne g f with rfl | hne
    · simp only [setFile_self, List.count_cons_self]
      omega
    · simp only [setFile_of_ne _ _ hne, List.count_cons_of_ne (Ne.symm hne)]
  simp only at hrun
  by_cases hlast : (s.fileTable f).count - 1 = 0
  · rw [if_pos hlast] at hrun
    obtain ⟨fs, hput, hrun⟩ := Option.bind_eq_some_iff.mp hrun
    obtain rfl := Option.some.inj hrun
    have h' : Keeping P (s.setFile f { s.fileTable f with count := (s.fileTable f).count - 1 })
        ((s.fileTable f).inode.toList ++ L) F := by
      refine h.setFile hf ?_ hF hcount
      rw [File.inodes, File.inodes, if_pos hlast, if_neg (by omega)]
      exact List.Perm.refl _
    exact ⟨h'.iputOpt hP hlen hput, rfl⟩
  · rw [if_neg hlast] at hrun
    obtain rfl := Option.some.inj hrun
    refine ⟨h.setFile hf ?_ hF hcount, rfl⟩
    rw [File.inodes, File.inodes, if_neg hlast, if_neg (by omega)]

end Keeping

end Processes

end Onixs
