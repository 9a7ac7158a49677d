import Onixs.Kernel.OpenFiles

/-!
# The count of an open file is the number of its descriptors

`Onixs.OpenFiles.Counted s G T` says that the counters of the file table are right while an
operation is under way: they are ahead of the descriptors by the entries of `G`, which no
descriptor points to yet, and behind by those of `T`, which have been counted down or not up
yet. Every statement of an operation moves an entry between a counter, a descriptor and these
lists. What `iput` is called on is read off the same way: an entry loses its last descriptor
exactly when its counter comes to zero (`Onixs.OpenFiles.Gave`).

The result is `Onixs.fileRun_exact`.
-/

namespace Onixs

namespace OpenFiles

variable {s t u : OpenFiles} {pid f : ℕ} {p : Process} {G G' T T' : List ℕ}

/-! ### Tables -/

@[simp] theorem setProcess_self (s : OpenFiles) (pid : ℕ) (p : Option Process) :
    (s.setProcess pid p).tasks pid = p := by
  simp [setProcess]

theorem setProcess_of_ne (s : OpenFiles) {pid pid' : ℕ} (p : Option Process) (h : pid' ≠ pid) :
    (s.setProcess pid p).tasks pid' = s.tasks pid' := by
  simp [setProcess, h]

@[simp] theorem setFile_self (s : OpenFiles) (f : ℕ) (file : File) :
    (s.setFile f file).fileTable f = file := by
  simp [setFile]

theorem setFile_of_ne (s : OpenFiles) {f g : ℕ} (file : File) (h : g ≠ f) :
    (s.setFile f file).fileTable g = s.fileTable g := by
  simp [setFile, h]

theorem running_eq_some : s.running pid = some p ↔ s.tasks pid = some p ∧ p.died = false := by
  rw [running, Option.bind_eq_bind, Option.bind_eq_some_iff]
  constructor
  · rintro ⟨q, hq, h⟩
    obtain ⟨_, hd, h⟩ := Option.bind_eq_some_iff.mp h
    obtain rfl := Option.some.inj h
    exact ⟨hq, assert_eq_some.mp hd⟩
  · rintro ⟨hp, hd⟩
    exact ⟨p, hp, by rw [assert_pos hd]; rfl⟩

theorem fileList_of_tasks (h : s.tasks pid = some p) : s.fileList pid = p.fileList := by
  rw [fileList, h]
  rfl

theorem fileList_setProcess (s : OpenFiles) (pid pid' : ℕ) (o : Option Process) :
    (s.setProcess pid o).fileList pid' = if pid' = pid then o.elim [] Process.fileList else s.fileList pid' := by
  rcases eq_or_ne pid' pid with rfl | hne
  · rw [fileList, setProcess_self, if_pos rfl]
  · rw [fileList, fileList, setProcess_of_ne s o hne, if_neg hne]

/-- What changes when one task gets another record. -/
theorem fds_setProcess (hpid : pid < taskNumber) (o : Option Process) (f : ℕ) :
    (s.setProcess pid o).fds f + (s.fileList pid).count f
      = s.fds f + (o.elim [] Process.fileList).count f := by
  have hsum := sum_add_of_eq_off (f := fun pid' => (s.fileList pid').count f)
    (g := fun pid' => ((s.setProcess pid o).fileList pid').count f) (Finset.mem_range.mpr hpid)
    fun pid' _ hne => by rw [fileList_setProcess, if_neg hne]
  rw [fileList_setProcess, if_pos rfl] at hsum
  exact hsum

/-- No entry has more descriptors than the tasks have. -/
theorem fds_le (f : ℕ) : s.fds f ≤ 64 * 16 := by
  have htask : ∀ pid ∈ Finset.range taskNumber, (s.fileList pid).count f ≤ 16 := by
    intro pid _
    refine List.count_le_length.trans ?_
    rw [fileList]
    cases s.tasks pid with
    | none => exact Nat.zero_le 16
    | some p => exact (List.length_filterMap_le _ _).trans (by simp [taskFileNr])
  have hsum := Finset.sum_le_card_nsmul _ _ 16 htask
  simp only [Finset.card_range, nsmul_eq_mul, Nat.cast_id, taskNumber] at hsum
  rw [fds, taskNumber]
  exact hsum

theorem fds_pos (hpid : pid < taskNumber) (h : f ∈ s.fileList pid) : 0 < s.fds f := by
  have hle := Finset.single_le_sum (f := fun pid => (s.fileList pid).count f)
    (fun _ _ => Nat.zero_le _) (Finset.mem_range.mpr hpid)
  have hpos := List.count_pos_iff.mpr h
  rw [fds]
  omega

theorem count_singleton_ite (f g : ℕ) : [f].count g = if g = f then 1 else 0 := by
  rw [List.count_singleton]
  exact if_congr (beq_iff_eq.trans eq_comm) rfl rfl

/-- A descriptor that is stored is one more. -/
theorem fds_setDescriptor (hpid : pid < taskNumber) (hp : s.tasks pid = some p) {fd : ℕ}
    (hfd : fd ∈ List.range taskFileNr) (hfree : p.files fd = none) (g : ℕ) :
    (s.setProcess pid (some { p with files := Function.update p.files fd (some f) })).fds g
      = s.fds g + if g = f then 1 else 0 := by
  have hmove := fds_setProcess (s := s) hpid (some { p with files := Function.update p.files fd (some f) }) g
  have hperm := (Processes.fileList_update_some (f := f) hfd hfree).count_eq g
  rw [← List.singleton_append, List.count_append, count_singleton_ite] at hperm
  rw [fileList_of_tasks hp] at hmove
  change _ = _ + List.count g (Process.fileList _) at hmove
  omega

/-- A descriptor that is cleared is one less. -/
theorem fds_clearDescriptor (hpid : pid < taskNumber) (hp : s.tasks pid = some p) {fd : ℕ}
    (hfd : fd ∈ List.range taskFileNr) (hopen : p.files fd = some f) (g : ℕ) :
    (s.setProcess pid (some { p with files := Function.update p.files fd none })).fds g
      + (if g = f then 1 else 0) = s.fds g := by
  have hmove := fds_setProcess (s := s) hpid (some { p with files := Function.update p.files fd none }) g
  have hperm := (Processes.fileList_update_none hfd hopen).count_eq g
  rw [← List.singleton_append, List.count_append, count_singleton_ite] at hperm
  rw [fileList_of_tasks hp] at hmove
  change _ = _ + List.count g (Process.fileList _) at hmove
  omega

/-! ### The counters -/

/-- **The counters are right**, with the entries of `G` and `T` under way. -/
structure Counted (s : OpenFiles) (G T : List ℕ) : Prop where
  /-- The counts. -/
  count : ∀ f < fileNr, (s.fileTable f).count + T.count f = s.fds f + G.count f
  /-- Descriptors are in the file table. -/
  files_lt : ∀ pid, ∀ f ∈ s.fileList pid, f < fileNr
  /-- Tasks have a number. -/
  tasks_lt : ∀ pid, s.tasks pid ≠ none → pid < taskNumber

theorem Counted.pid_lt (h : Counted s G T) (hp : s.tasks pid = some p) : pid < taskNumber :=
  h.tasks_lt pid (by rw [hp]; exact Option.some_ne_none p)

theorem Counted.fds_eq_zero (h : Counted s G T) (hf : fileNr ≤ f) : s.fds f = 0 :=
  Finset.sum_eq_zero fun pid _ => List.count_eq_zero_of_not_mem fun hmem =>
    absurd (h.files_lt pid f hmem) (Nat.not_lt.mpr hf)

theorem Counted.log (h : Counted s G T) (call : FileCall) : Counted (s.log call) G T :=
  ⟨h.count, h.files_lt, h.tasks_lt⟩

/-- **A store in `task_table`** moves entries between the descriptors of the task and those under
way. -/
theorem Counted.setProcess (h : Counted s G T) (hpid : pid < taskNumber) {o : Option Process}
    (hlt : ∀ f ∈ o.elim [] Process.fileList, f < fileNr)
    (hmove : ∀ f, (s.fileList pid).count f + G.count f + T'.count f
      = (o.elim [] Process.fileList).count f + G'.count f + T.count f) :
    Counted (s.setProcess pid o) G' T' := by
  refine ⟨fun f hf => ?_, fun pid' f hf => ?_, fun pid' hp' => ?_⟩
  · have hcount := h.count f hf
    have hfds := fds_setProcess (s := s) hpid o f
    have := hmove f
    change (s.fileTable f).count + _ = _
    omega
  · rw [fileList_setProcess] at hf
    split at hf
    · exact hlt f hf
    · exact h.files_lt pid' f hf
  · rcases eq_or_ne pid' pid with rfl | hne
    · exact hpid
    · rw [setProcess_of_ne s o hne] at hp'
      exact h.tasks_lt pid' hp'

/-- **A store in `file_table`** moves an entry between its counter and those under way. -/
theorem Counted.setFile (h : Counted s G T) {file : File}
    (hmove : ∀ g < fileNr, ((s.setFile f file).fileTable g).count + T'.count g + G.count g
      = (s.fileTable g).count + T.count g + G'.count g) : Counted (s.setFile f file) G' T' := by
  refine ⟨fun g hg => ?_, h.files_lt, h.tasks_lt⟩
  have hcount := h.count g hg
  have := hmove g hg
  change _ = s.fds g + _
  omega

/-- A store that leaves the counter alone. -/
theorem Counted.setFile_count (h : Counted s G T) {file : File}
    (hcount : file.count = (s.fileTable f).count) : Counted (s.setFile f file) G T := by
  refine h.setFile fun g _ => ?_
  rcases eq_or_ne g f with rfl | hne
  · rw [setFile_self, hcount]
  · rw [setFile_of_ne _ _ hne]

/-- The record of the task changes, its descriptors do not. -/
theorem Counted.setProcess_same (h : Counted s G T) (hp : s.tasks pid = some p) {q : Process}
    (hq : q.files = p.files) : Counted (s.setProcess pid (some q)) G T := by
  have hlist : q.fileList = p.fileList := by rw [Process.fileList, Process.fileList, hq]
  refine h.setProcess (h.pid_lt hp) (fun f hf => ?_) fun f => ?_
  · exact h.files_lt pid f (by rw [fileList_of_tasks hp, ← hlist]; exact hf)
  · rw [fileList_of_tasks hp]
    change _ = q.fileList.count f + _ + _
    rw [hlist]

/-- A descriptor is stored: its entry was in hand, or is counted next. -/
theorem Counted.setDescriptor (h : Counted s G T) (hp : s.tasks pid = some p) {fd : ℕ}
    (hfd : fd ∈ List.range taskFileNr) (hfree : p.files fd = none) (hf : f < fileNr)
    (hmove : ∀ g, G.count g + T'.count g = G'.count g + T.count g + if g = f then 1 else 0) :
    Counted (s.setProcess pid (some { p with files := Function.update p.files fd (some f) })) G' T' := by
  have hperm := Processes.fileList_update_some (f := f) hfd hfree
  refine h.setProcess (h.pid_lt hp) (fun g hg => ?_) fun g => ?_
  · rcases List.mem_cons.mp (hperm.mem_iff.mp hg) with rfl | hg
    · exact hf
    · exact h.files_lt pid g (by rw [fileList_of_tasks hp]; exact hg)
  · have hcount := hperm.count_eq g
    have hg := hmove g
    rw [← List.singleton_append, List.count_append, count_singleton_ite] at hcount
    rw [fileList_of_tasks hp]
    change _ = List.count g (Process.fileList _) + _ + _
    omega

/-- A descriptor is cleared whose entry has been counted down. -/
theorem Counted.clearDescriptor (h : Counted s G (f :: T)) (hp : s.tasks pid = some p) {fd : ℕ}
    (hfd : fd ∈ List.range taskFileNr) (hopen : p.files fd = some f) :
    Counted (s.setProcess pid (some { p with files := Function.update p.files fd none })) G T := by
  have hperm := Processes.fileList_update_none hfd hopen
  refine h.setProcess (h.pid_lt hp) (fun g hg => ?_) fun g => ?_
  · exact h.files_lt pid g (by
      rw [fileList_of_tasks hp]
      exact hperm.mem_iff.mpr (List.mem_cons_of_mem f hg))
  · have hcount := hperm.count_eq g
    rw [List.count_cons] at hcount
    rw [fileList_of_tasks hp, List.count_cons]
    change _ = List.count g (Process.fileList _) + _ + _
    omega

/-- **`file->count++`**, for a descriptor that is there or is stored next. -/
theorem Counted.addFile (h : Counted s G T) (hlen : G.length ≤ 1000)
    (hmove : ∀ g, G'.count g + T.count g = G.count g + T'.count g + if g = f then 1 else 0) :
    Counted (s.addFile f) G' T' := by
  refine h.setFile fun g hg => ?_
  have hg' := hmove g
  rcases eq_or_ne g f with rfl | hne
  · have hroom : u32 ((s.fileTable g).count + 1) = (s.fileTable g).count + 1 := by
      have hfds := fds_le (s := s) g
      have hle := List.count_le_length (a := g) (l := G)
      have hcount := h.count g hg
      exact u32_of_lt (by omega)
    rw [if_pos rfl] at hg'
    rw [setFile_self]
    change u32 ((s.fileTable g).count + 1) + _ + _ = _
    omega
  · rw [if_neg hne] at hg'
    rw [setFile_of_ne _ _ hne]
    omega

/-- **`get_file`** gives an entry without descriptors and counts it. -/
theorem Counted.getFile (h : Counted s [] []) (hget : s.getFile = some (f, t)) :
    Counted t [f] [] ∧ f < fileNr ∧ s.fds f = 0 ∧
      t = (s.addFile f).log (.getFile f 0) := by
  obtain ⟨g, hfind, hget⟩ := Option.bind_eq_some_iff.mp hget
  obtain ⟨rfl, rfl⟩ := Prod.mk.inj (Option.some.inj hget)
  have hmem := List.mem_of_find?_eq_some hfind
  rw [List.mem_range'_1, fileNr] at hmem
  have hlt : g < fileNr := by
    rw [fileNr]
    omega
  have hzero : s.fds g = 0 := by
    have hcount := h.count g hlt
    have hfree : (s.fileTable g).count = 0 := by simpa using List.find?_some hfind
    simp only [List.count_nil, Nat.add_zero] at hcount
    omega
  refine ⟨?_, hlt, hzero, by rw [hzero]; rfl⟩
  refine Counted.log (h.addFile (by simp) fun g' => ?_) _
  simp [count_singleton_ite]

/-! ### What `iput` is called on -/

/-- The inodes of entry `f` that `iput` was called on. -/
def putsOf (calls : List FileCall) (f : ℕ) : List (Option ℕ) :=
  calls.filterMap fun call =>
    match call with
    | .getFile _ _ => none
    | .iput g inode => if g = f then some inode else none

/-- No entry that `get_file` returned had a descriptor. -/
def Fresh (calls : List FileCall) : Prop := ∀ f n, FileCall.getFile f n ∈ calls → n = 0

/-- **Descriptors have been given back** between two states: `iput` was called once on the inode of
each entry that has lost its last, and on no other. -/
structure Gave (s t : OpenFiles) : Prop where
  /-- The inodes stay. -/
  inode : ∀ f, (t.fileTable f).inode = (s.fileTable f).inode
  /-- No descriptor is new. -/
  fds_le : ∀ f, t.fds f ≤ s.fds f
  /-- The calls of `iput`. -/
  puts : ∀ f, putsOf t.calls f
    = putsOf s.calls f ++ if 0 < s.fds f ∧ t.fds f = 0 then [(s.fileTable f).inode] else []
  /-- No call of `get_file`. -/
  fresh : Fresh s.calls → Fresh t.calls

theorem Gave.of_same (hfiles : t.fileTable = s.fileTable) (hfds : ∀ f, t.fds f = s.fds f)
    (hcalls : t.calls = s.calls) : Gave s t where
  inode f := by rw [hfiles]
  fds_le f := Nat.le_of_eq (hfds f)
  puts f := by
    rw [hfds f, if_neg (by omega), hcalls, List.append_nil]
  fresh h := by rwa [hcalls]

theorem Gave.refl (s : OpenFiles) : Gave s s := Gave.of_same rfl (fun _ => rfl) rfl

theorem Gave.trans (h : Gave s t) (h' : Gave t u) : Gave s u where
  inode f := (h'.inode f).trans (h.inode f)
  fds_le f := (h'.fds_le f).trans (h.fds_le f)
  puts f := by
    have hle := h.fds_le f
    have hle' := h'.fds_le f
    rw [h'.puts f, h.puts f, h.inode f, List.append_assoc]
    -- the last descriptor goes away in the first part or in the second
    rcases Nat.eq_zero_or_pos (t.fds f) with hzero | hpos
    · rw [if_neg (show ¬(0 < t.fds f ∧ u.fds f = 0) by omega), List.append_nil]
      exact congrArg _ (if_congr (by omega) rfl rfl)
    · rw [if_neg (show ¬(0 < s.fds f ∧ t.fds f = 0) by omega), List.nil_append]
      exact congrArg _ (if_congr (by omega) rfl rfl)
  fresh := h'.fresh ∘ h.fresh

/-- **`put_file`** counts down, and calls `iput` when the counter comes to zero. -/
theorem Counted.putFile (h : Counted s [] []) (hput : s.putFile f = some t) :
    Counted t [] [f] ∧ t.tasks = s.tasks ∧ (∀ g, (t.fileTable g).inode = (s.fileTable g).inode) ∧
      t.calls = s.calls ++
        if (s.fileTable f).count = 1 then [.iput f (s.fileTable f).inode] else [] := by
  obtain ⟨_, hpos, hput⟩ := Option.bind_eq_some_iff.mp hput
  rw [assert_eq_some] at hpos
  have hdown : Counted (s.setFile f { s.fileTable f with count := (s.fileTable f).count - 1 }) [] [f] := by
    refine h.setFile fun g _ => ?_
    rcases eq_or_ne g f with rfl | hne
    · simp only [setFile_self, List.count_nil, List.count_singleton_self]
      omega
    · simp only [setFile_of_ne _ _ hne, List.count_nil, List.count_cons_of_ne (Ne.symm hne)]
  have hinode : ∀ g, ((s.setFile f { s.fileTable f with count := (s.fileTable f).count - 1 }).fileTable
      g).inode = (s.fileTable g).inode := by
    intro g
    rcases eq_or_ne g f with rfl | hne
    · rw [setFile_self]
    · rw [setFile_of_ne _ _ hne]
  simp only at hput
  by_cases hlast : (s.fileTable f).count - 1 = 0
  · rw [if_pos hlast] at hput
    obtain rfl := Option.some.inj hput
    refine ⟨hdown.log _, rfl, hinode, ?_⟩
    rw [if_pos (by omega)]
    rfl
  · rw [if_neg hlast] at hput
    obtain rfl := Option.some.inj hput
    refine ⟨hdown, rfl, hinode, ?_⟩
    rw [if_neg (by omega), List.append_nil]
    rfl

/-- **`sys_close`** gives a descriptor back. -/
theorem Counted.sysClose {fd : ℤ} (h : Counted s [] []) (hclose : s.sysClose pid fd = some t) :
    Counted t [] [] ∧ Gave s t := by
  obtain ⟨_, -, hclose⟩ := Option.bind_eq_some_iff.mp hclose
  obtain ⟨p, hp, hclose⟩ := Option.bind_eq_some_iff.mp hclose
  obtain ⟨slot, hslot, hclose⟩ := Option.bind_eq_some_iff.mp hclose
  cases hf : p.files slot with
  | none =>
    rw [hf] at hclose
    obtain rfl := Option.some.inj hclose
    exact ⟨h, Gave.refl s⟩
  | some f =>
    rw [hf] at hclose
    obtain ⟨_, -, hclose⟩ := Option.bind_eq_some_iff.mp hclose
    obtain ⟨u, hput, hclose⟩ := Option.bind_eq_some_iff.mp hclose
    obtain rfl := Option.some.inj hclose
    obtain ⟨hdown, htasks, hinode, hcalls⟩ := h.putFile hput
    have hpu : u.tasks pid = some p := by rw [htasks, hp]
    have hslot := Processes.fdSlot_some hslot
    refine ⟨hdown.clearDescriptor hpu hslot hf, ?_⟩
    have hpid := h.pid_lt hp
    have hmem := Processes.mem_fileList hslot hf
    have hflt : f < fileNr := h.files_lt pid f (by rw [fileList_of_tasks hp]; exact hmem)
    have hcount := h.count f hflt
    have hfds : ∀ g, (u.setProcess pid (some { p with files := Function.update p.files slot none })).fds g
        + (if g = f then 1 else 0) = s.fds g := by
      intro g
      rw [fds_clearDescriptor hpid hpu hslot hf]
      simp only [fds, fileList, htasks]
    refine ⟨hinode, fun g => ?_, fun g => ?_, fun hfresh g n hmem => ?_⟩
    · have := hfds g
      omega
    · have hg := hfds g
      change putsOf u.calls g = _
      rw [hcalls, putsOf, List.filterMap_append]
      refine congrArg _ ?_
      rcases eq_or_ne g f with rfl | hne
      · simp only [List.count_nil, Nat.add_zero, if_true] at hcount hg
        by_cases hone : (s.fileTable g).count = 1
        · rw [if_pos hone, if_pos (by omega)]
          simp
        · rw [if_neg hone, if_neg (by omega)]
          rfl
      · rw [if_neg hne] at hg
        rw [if_neg (show ¬(0 < s.fds g ∧ (u.setProcess pid _).fds g = 0) by omega)]
        split <;> simp [Ne.symm hne]
    · rw [show (u.setProcess pid _).calls = u.calls from rfl, hcalls] at hmem
      refine hfresh g n ((List.mem_append.mp hmem).resolve_right fun hmem => ?_)
      split at hmem <;> simp at hmem

/-- One descriptor after another. -/
theorem Counted.closeAll (l : List ℕ) (h : Counted s [] [])
    (hclose : l.foldlM (fun s (fd : ℕ) => s.sysClose pid fd) s = some t) :
    Counted t [] [] ∧ Gave s t := by
  induction l generalizing s with
  | nil =>
    obtain rfl := Option.some.inj hclose
    exact ⟨h, Gave.refl s⟩
  | cons fd l ih =>
    obtain ⟨u, hfirst, hrest⟩ := Option.bind_eq_some_iff.mp hclose
    obtain ⟨hu, hgave⟩ := h.sysClose hfirst
    obtain ⟨ht, hgave'⟩ := ih hu hrest
    exact ⟨ht, hgave.trans hgave'⟩

/-- The record of a task changes, its descriptors do not. -/
theorem Gave.setProcess_same (hpid : pid < taskNumber) (hp : s.tasks pid = some p) {q : Process}
    (hq : q.files = p.files) : Gave s (s.setProcess pid (some q)) := by
  refine Gave.of_same rfl (fun f => ?_) rfl
  have hmove := fds_setProcess (s := s) hpid (some q) f
  rw [fileList_of_tasks hp] at hmove
  have hlist : q.fileList = p.fileList := by rw [Process.fileList, Process.fileList, hq]
  change _ = _ + q.fileList.count f at hmove
  rw [hlist] at hmove
  omega

theorem fileList_reparent (s : OpenFiles) (pid ppid pid' : ℕ) :
    (s.reparent pid ppid).fileList pid' = s.fileList pid' := by
  change ((s.tasks pid').map _).elim [] _ = (s.tasks pid').elim [] _
  cases s.tasks pid' with
  | none => rfl
  | some p => by_cases hp : p.ppid = pid <;> simp [hp, Process.fileList]

/-- **`task_exit`** gives all descriptors of the task back. -/
theorem Counted.taskExit (h : Counted s [] []) (hexit : s.taskExit pid = some t) :
    Counted t [] [] ∧ Gave s t := by
  obtain ⟨p, hrun, hexit⟩ := Option.bind_eq_some_iff.mp hexit
  obtain ⟨u, hclose, hexit⟩ := Option.bind_eq_some_iff.mp hexit
  obtain rfl := Option.some.inj hexit
  have hp := (running_eq_some.mp hrun).1
  obtain ⟨hu, hgave⟩ := (h.setProcess_same (q := { p with died := true }) hp rfl).closeAll _ hclose
  have hfds : ∀ f, (u.reparent pid p.ppid).fds f = u.fds f := fun f => by
    simp only [fds, fileList_reparent]
  refine ⟨⟨fun f hf => ?_, fun pid' f hf => ?_, fun pid' hp' => hu.tasks_lt pid' fun hnone => ?_⟩, ?_⟩
  · rw [hfds]
    exact hu.count f hf
  · rw [fileList_reparent] at hf
    exact hu.files_lt pid' f hf
  · exact hp' (by rw [reparent]; exact congrArg (Option.map _) hnone)
  · exact ((Gave.setProcess_same (q := { p with died := true }) (h.pid_lt hp) hp rfl).trans hgave).trans
      (Gave.of_same rfl hfds rfl)

/-! ### Operations that take an entry -/

/-- **What an operation keeps**: the counters are right after it, `get_file` has returned entries
without descriptors, and `iput` was called once for each entry that has lost its last. -/
structure Exact (s t : OpenFiles) : Prop where
  /-- The counters. -/
  counted : Counted t [] []
  /-- The calls of `get_file`. -/
  fresh : Fresh t.calls
  /-- The calls of `iput`. -/
  puts : ∀ f, putsOf t.calls f = if 0 < s.fds f ∧ t.fds f = 0 then [(s.fileTable f).inode] else []

theorem Gave.exact (h : Gave s t) (hs : s.calls = []) (ht : Counted t [] []) : Exact s t where
  counted := ht
  fresh := h.fresh (by rw [hs]; intro f n hmem; exact absurd hmem List.not_mem_nil)
  puts f := by
    rw [h.puts f, hs]
    exact List.nil_append _

/-- A dead task has no descriptors. -/
def Buried (s : OpenFiles) : Prop := ∀ pid p, s.tasks pid = some p → p.died = true → p.fileList = []

theorem Buried.setProcess (h : Buried s) {o : Option Process}
    (ho : ∀ p, o = some p → p.died = true → p.fileList = []) : Buried (s.setProcess pid o) := by
  intro pid' p hp hdead
  rcases eq_or_ne pid' pid with rfl | hne
  · exact ho p ((setProcess_self s pid' o).symm.trans hp) hdead
  · exact h pid' p ((setProcess_of_ne s o hne).symm.trans hp) hdead

theorem Buried.setRunning (h : Buried s) (hp : p.died = false) : Buried (s.setProcess pid (some p)) := by
  refine h.setProcess fun q hq hdead => ?_
  obtain rfl := Option.some.inj hq
  exact absurd (hp.symm.trans hdead) Bool.false_ne_true

/-- **Descriptors have been taken** between two states: none is lost, and `iput` was not called. -/
structure Took (s t : OpenFiles) : Prop where
  /-- No descriptor is lost. -/
  fds_le : ∀ f, s.fds f ≤ t.fds f
  /-- The calls of `iput`. -/
  puts : ∀ f, putsOf t.calls f = putsOf s.calls f
  /-- The calls of `get_file`. -/
  fresh : Fresh s.calls → Fresh t.calls
  /-- The task that takes them is alive. -/
  buried : Buried s → Buried t

theorem Took.trans (h : Took s t) (h' : Took t u) : Took s u where
  fds_le f := (h.fds_le f).trans (h'.fds_le f)
  puts f := (h'.puts f).trans (h.puts f)
  fresh := h'.fresh ∘ h.fresh
  buried := h'.buried ∘ h.buried

theorem Took.of_same (htasks : t.tasks = s.tasks) (hcalls : t.calls = s.calls) : Took s t where
  fds_le f := by simp only [fds, fileList, htasks, le_refl]
  puts f := by rw [hcalls]
  fresh h := by rwa [hcalls]
  buried h := by rwa [Buried, htasks]

theorem Took.exact (h : Took s t) (hs : s.calls = []) (ht : Counted t [] []) : Exact s t where
  counted := ht
  fresh := h.fresh (by rw [hs]; intro f n hmem; exact absurd hmem List.not_mem_nil)
  puts f := by
    have hle := h.fds_le f
    rw [h.puts f, hs, if_neg (by omega)]
    rfl

/-- `get_file` takes no descriptor by itself. -/
theorem Counted.took_getFile (h : Counted s [] []) (hget : s.getFile = some (f, t)) : Took s t := by
  obtain ⟨-, -, -, rfl⟩ := h.getFile hget
  refine ⟨fun _ => le_rfl, fun g => ?_, fun hfresh g n hmem => ?_, id⟩
  · change putsOf (s.calls ++ [_]) g = _
    rw [putsOf, List.filterMap_append]
    exact List.append_nil _
  · rcases List.mem_append.mp hmem with hmem | hmem
    · exact hfresh g n hmem
    · simp only [List.mem_singleton, FileCall.getFile.injEq] at hmem
      exact hmem.2

/-- A descriptor that is stored is one more. -/
theorem Took.setDescriptor (hpid : pid < taskNumber) (hp : s.tasks pid = some p) (hdead : p.died = false)
    {fd : ℕ} (hfd : fd ∈ List.range taskFileNr) (hfree : p.files fd = none) :
    Took s (s.setProcess pid (some { p with files := Function.update p.files fd (some f) })) := by
  refine ⟨fun g => ?_, fun _ => rfl, id, fun hs => hs.setRunning hdead⟩
  rw [fds_setDescriptor hpid hp hfd hfree]
  exact Nat.le_add_right _ _

/-- **`sys_open`** takes an entry for a descriptor. -/
theorem Counted.sysOpen {opened : Option Opened} {flags : ℕ} {r : ℤ} (h : Counted s [] [])
    (hopen : s.sysOpen pid opened flags = some (r, t)) : Counted t [] [] ∧ Took s t := by
  obtain ⟨p, hrun, hopen⟩ := Option.bind_eq_some_iff.mp hopen
  obtain ⟨hp, hdead⟩ := running_eq_some.mp hrun
  cases opened with
  | none =>
    obtain ⟨-, rfl⟩ := Prod.mk.inj (Option.some.inj hopen)
    exact ⟨h, Took.of_same rfl rfl⟩
  | some o =>
    obtain ⟨fd, hfd, hopen⟩ := Option.bind_eq_some_iff.mp hopen
    obtain ⟨⟨f, u⟩, hget, hopen⟩ := Option.bind_eq_some_iff.mp hopen
    obtain ⟨-, rfl⟩ := Prod.mk.inj (Option.some.inj hopen)
    obtain ⟨hfd, hfree⟩ := Processes.taskGetFd_some hfd
    have htook := h.took_getFile hget
    obtain ⟨hu, hflt, hzero, heq⟩ := h.getFile hget
    have hpu : u.tasks pid = some p := by rw [heq]; exact hp
    have hset : Counted (u.setProcess pid (some { p with files := Function.update p.files fd (some f) })) [] [] :=
      hu.setDescriptor hpu hfd hfree hflt fun g => by
        simp [count_singleton_ite]
    refine ⟨hset.setFile fun g _ => ?_,
      (htook.trans (Took.setDescriptor (h.pid_lt hp) hpu hdead hfd hfree)).trans
        (Took.of_same rfl rfl)⟩
    -- the counter that is assigned has been raised from zero to one already
    have hone : (u.fileTable f).count = 1 := by
      have hcount := h.count f hflt
      simp only [List.count_nil, Nat.add_zero, hzero] at hcount
      rw [heq]
      change ((s.addFile f).fileTable f).count = 1
      rw [OpenFiles.addFile, setFile_self, hcount]
      rfl
    rcases eq_or_ne g f with rfl | hne
    · rw [setFile_self]
      change 1 + _ + _ = (u.fileTable g).count + _ + _
      rw [hone]
    · rw [setFile_of_ne _ _ hne]

/-- **`dupfd`** copies a descriptor that is there. -/
theorem Counted.dupfd {fd r : ℤ} {arg : ℕ} (h : Counted s [] []) (hdup : s.dupfd pid fd arg = some (r, t)) :
    Counted t [] [] ∧ Took s t ∧ ∀ f, s.fds f = 0 → t.fds f = 0 := by
  obtain ⟨p, hrun, hdup⟩ := Option.bind_eq_some_iff.mp hdup
  obtain ⟨hp, hdead⟩ := running_eq_some.mp hrun
  have hsame : Counted s [] [] ∧ Took s s ∧ ∀ f, s.fds f = 0 → s.fds f = 0 :=
    ⟨h, Took.of_same rfl rfl, fun _ => id⟩
  split at hdup
  · obtain ⟨-, rfl⟩ := Prod.mk.inj (Option.some.inj hdup)
    exact hsame
  · obtain ⟨slot, hslot, hdup⟩ := Option.bind_eq_some_iff.mp hdup
    cases hf : p.files slot with
    | none =>
      rw [hf] at hdup
      obtain ⟨-, rfl⟩ := Prod.mk.inj (Option.some.inj hdup)
      exact hsame
    | some f =>
      simp only [hf] at hdup
      cases hfind : (List.range' arg (taskFileNr - arg)).find? fun arg => (p.files arg).isNone with
      | none =>
        rw [hfind] at hdup
        obtain ⟨-, rfl⟩ := Prod.mk.inj (Option.some.inj hdup)
        exact hsame
      | some a =>
        rw [hfind] at hdup
        obtain ⟨-, rfl⟩ := Prod.mk.inj (Option.some.inj hdup)
        have hmem := List.mem_of_find?_eq_some hfind
        rw [List.mem_range'_1] at hmem
        have ha : a ∈ List.range taskFileNr := List.mem_range.mpr (by omega)
        have hfree : p.files a = none := by simpa using List.find?_some hfind
        have hopen : f ∈ s.fileList pid := by
          rw [fileList_of_tasks hp]
          exact Processes.mem_fileList (Processes.fdSlot_some hslot) hf
        have hset : Counted (s.setProcess pid (some { p with files := Function.update p.files a (some f) })) [] [f] :=
          h.setDescriptor hp ha hfree (h.files_lt pid f hopen) fun g => by
            simp [count_singleton_ite]
        refine ⟨hset.addFile (by simp) fun g => ?_,
          (Took.setDescriptor (h.pid_lt hp) hp hdead ha hfree).trans (Took.of_same rfl rfl), ?_⟩
        · simp [count_singleton_ite]
        · intro g hg
          have hpos := fds_pos (h.pid_lt hp) hopen
          have hne : g ≠ f := fun heq => by
            rw [heq] at hg
            omega
          change (s.setProcess pid _).fds g = 0
          rw [fds_setDescriptor (h.pid_lt hp) hp ha hfree, if_neg hne, hg]

/-- **`sys_dup2`** gives one descriptor back and copies another. -/
theorem Counted.sysDup2 {oldfd newfd r : ℤ} (h : Counted s [] []) (hs : s.calls = [])
    (hdup : s.sysDup2 pid oldfd newfd = some (r, t)) : Exact s t := by
  obtain ⟨_, -, hdup⟩ := Option.bind_eq_some_iff.mp hdup
  obtain ⟨u, hclose, hdup⟩ := Option.bind_eq_some_iff.mp hdup
  obtain ⟨hu, hgave⟩ := h.sysClose hclose
  obtain ⟨ht, htook, hzero⟩ := hu.dupfd hdup
  have hexact := hgave.exact hs hu
  refine ⟨ht, htook.fresh hexact.fresh, fun f => ?_⟩
  have hle := htook.fds_le f
  have hnone : t.fds f = 0 ↔ u.fds f = 0 := ⟨fun h0 => by omega, hzero f⟩
  rw [htook.puts f, hexact.puts f]
  exact if_congr (and_congr_right fun _ => hnone.symm) rfl rfl

/-- **`sys_pipe`** takes two entries, one after the other. -/
theorem Counted.sysPipe {inode : ℕ} {r : ℕ × ℕ} (h : Counted s [] [])
    (hpipe : s.sysPipe pid inode = some (r, t)) : Counted t [] [] ∧ Took s t := by
  obtain ⟨p, hrun, hpipe⟩ := Option.bind_eq_some_iff.mp hpipe
  obtain ⟨fd₀, hfd₀, hpipe⟩ := Option.bind_eq_some_iff.mp hpipe
  obtain ⟨⟨f₀, u₀⟩, hget₀, hpipe⟩ := Option.bind_eq_some_iff.mp hpipe
  obtain ⟨fd₁, hfd₁, hpipe⟩ := Option.bind_eq_some_iff.mp hpipe
  obtain ⟨⟨f₁, u₁⟩, hget₁, hpipe⟩ := Option.bind_eq_some_iff.mp hpipe
  obtain ⟨-, rfl⟩ := Prod.mk.inj (Option.some.inj hpipe)
  obtain ⟨hp, hdead⟩ := running_eq_some.mp hrun
  have hpid := h.pid_lt hp
  obtain ⟨hfd₀, hfree₀⟩ := Processes.taskGetFd_some hfd₀
  obtain ⟨hfd₁, hfree₁⟩ := Processes.taskGetFd_some hfd₁
  -- the first entry and its descriptor
  have htook₀ := h.took_getFile hget₀
  obtain ⟨hu₀, hlt₀, -, heq₀⟩ := h.getFile hget₀
  have hp₀ : u₀.tasks pid = some p := by rw [heq₀]; exact hp
  have hset₀ : Counted (u₀.setProcess pid (some { p with files := Function.update p.files fd₀ (some f₀) })) [] [] :=
    hu₀.setDescriptor hp₀ hfd₀ hfree₀ hlt₀ fun g => by
      simp [count_singleton_ite]
  -- the second
  have htook₁ := hset₀.took_getFile hget₁
  obtain ⟨hu₁, hlt₁, -, heq₁⟩ := hset₀.getFile hget₁
  have hp₁ : u₁.tasks pid = some { p with files := Function.update p.files fd₀ (some f₀) } := by
    rw [heq₁]
    exact setProcess_self u₀ pid _
  have hset₁ : Counted _ [] [] := hu₁.setDescriptor hp₁ hfd₁ hfree₁ hlt₁ fun g => by
    simp [count_singleton_ite]
  refine ⟨Counted.setFile_count (Counted.setFile_count hset₁ ?_) ?_, ?_⟩
  · rfl
  · rfl
  have htook := (htook₀.trans (Took.setDescriptor hpid hp₀ hdead hfd₀ hfree₀)).trans
    (htook₁.trans (Took.setDescriptor (f := f₁) hpid hp₁ hdead hfd₁ hfree₁))
  exact htook.trans (Took.of_same rfl rfl)

/-! ### Tasks that come and go -/

/-- The entries of a list of descriptors are counted one after another. -/
theorem Counted.addAll {files : ℕ → Option ℕ} (l : List ℕ) (h : Counted s [] (l.filterMap files)) :
    Counted (l.foldl (fun s fd => (files fd).elim s s.addFile) s) [] [] := by
  induction l generalizing s with
  | nil => exact h
  | cons fd l ih =>
    rw [List.foldl_cons]
    refine ih ?_
    cases hf : files fd with
    | none => rwa [List.filterMap_cons_none hf] at h
    | some f =>
      rw [List.filterMap_cons_some hf, ← List.singleton_append] at h
      refine h.addFile (by simp) fun g => ?_
      rw [List.count_append, count_singleton_ite]
      omega

theorem addAll_same {files : ℕ → Option ℕ} (l : List ℕ) (s : OpenFiles) :
    (l.foldl (fun s fd => (files fd).elim s s.addFile) s).tasks = s.tasks ∧
      (l.foldl (fun s fd => (files fd).elim s s.addFile) s).calls = s.calls := by
  induction l generalizing s with
  | nil => exact ⟨rfl, rfl⟩
  | cons fd l ih =>
    rw [List.foldl_cons, (ih _).1, (ih _).2]
    cases files fd <;> exact ⟨rfl, rfl⟩

/-- **`task_fork`** gives the child a copy of every descriptor. -/
theorem Counted.taskFork {child : ℕ} (h : Counted s [] []) (hfork : s.taskFork pid = some (child, t)) :
    Counted t [] [] ∧ Took s t := by
  obtain ⟨p, hrun, hfork⟩ := Option.bind_eq_some_iff.mp hfork
  obtain ⟨c, hfind, hfork⟩ := Option.bind_eq_some_iff.mp hfork
  obtain ⟨rfl, rfl⟩ := Prod.mk.inj (Option.some.inj hfork)
  obtain ⟨hp, hdead⟩ := running_eq_some.mp hrun
  have hc : c < taskNumber := List.mem_range.mp (List.mem_of_find?_eq_some hfind)
  have hnone : s.tasks c = none := by simpa using List.find?_some hfind
  have hlist : s.fileList c = [] := by rw [fileList, hnone]; rfl
  have hchild : Counted (s.setProcess c (some { p with ppid := pid })) [] p.fileList := by
    refine h.setProcess hc (fun f hf => ?_) fun f => ?_
    · exact h.files_lt pid f (by rw [fileList_of_tasks hp]; exact hf)
    · rw [hlist, List.count_nil]
      change _ = p.fileList.count f + 0 + 0
      omega
  refine ⟨hchild.addAll _, Took.trans (t := s.setProcess c (some { p with ppid := pid })) ?_
    (Took.of_same (addAll_same _ _).1 (addAll_same _ _).2)⟩
  refine ⟨fun f => ?_, fun _ => rfl, id, fun hs => hs.setRunning hdead⟩
  have hmove := fds_setProcess (s := s) hc (some { p with ppid := pid }) f
  rw [hlist, List.count_nil] at hmove
  omega

theorem putFile_tasks (hput : s.putFile f = some t) : t.tasks = s.tasks := by
  obtain ⟨_, -, hput⟩ := Option.bind_eq_some_iff.mp hput
  simp only at hput
  split at hput <;> (obtain rfl := Option.some.inj hput; rfl)

/-- What `sys_close` does to a task. -/
theorem sysClose_tasks {fd : ℤ} {slot : ℕ} (hclose : s.sysClose pid fd = some t) (hp : s.tasks pid = some p)
    (hslot : fdSlot fd = some slot) :
    t.tasks = Function.update s.tasks pid (some { p with files := Function.update p.files slot none }) := by
  obtain ⟨_, -, hclose⟩ := Option.bind_eq_some_iff.mp hclose
  rw [hp, hslot] at hclose
  cases hf : p.files slot with
  | none =>
    simp only [Option.bind_eq_bind, Option.bind_some, hf] at hclose
    obtain rfl := Option.some.inj hclose
    rw [← hf, Function.update_eq_self, ← hp, Function.update_eq_self]
  | some f =>
    simp only [Option.bind_eq_bind, Option.bind_some, hf] at hclose
    obtain ⟨_, -, hclose⟩ := Option.bind_eq_some_iff.mp hclose
    obtain ⟨u, hput, hclose⟩ := Option.bind_eq_some_iff.mp hclose
    obtain rfl := Option.some.inj hclose
    rw [OpenFiles.setProcess, putFile_tasks hput]

theorem fdSlot_natCast {fd : ℕ} (h : fd < taskFileNr) : fdSlot fd = some fd := by
  rw [fdSlot, if_pos ⟨Int.natCast_nonneg fd, by exact_mod_cast h⟩, Int.toNat_natCast]

/-- What closing a list of descriptors does to a task. -/
theorem closeAll_tasks (l : List ℕ) (hl : ∀ fd ∈ l, fd < taskFileNr)
    (hclose : l.foldlM (fun s (fd : ℕ) => s.sysClose pid fd) s = some t) (hp : s.tasks pid = some p) :
    t.tasks = Function.update s.tasks pid
      (some { p with files := fun fd => if fd ∈ l then none else p.files fd }) := by
  induction l generalizing s p with
  | nil =>
    obtain rfl := Option.some.inj hclose
    simp only [List.not_mem_nil, if_false]
    rw [← hp, Function.update_eq_self]
  | cons fd l ih =>
    obtain ⟨u, hfirst, hrest⟩ := Option.bind_eq_some_iff.mp hclose
    have hu := sysClose_tasks hfirst hp (fdSlot_natCast (hl fd List.mem_cons_self))
    have hpu : u.tasks pid = some { p with files := Function.update p.files fd none } := by
      rw [hu, Function.update_self]
    rw [ih (fun g hg => hl g (List.mem_cons_of_mem fd hg)) hrest hpu, hu, Function.update_idem]
    refine congrArg (fun files => Function.update s.tasks pid (some { p with files := files })) ?_
    funext g
    change (if g ∈ l then none else Function.update p.files fd none g) = _
    by_cases hg : g ∈ l
    · rw [if_pos hg, if_pos (List.mem_cons_of_mem fd hg)]
    · rcases eq_or_ne g fd with rfl | hne
      · rw [if_neg hg, Function.update_self, if_pos List.mem_cons_self]
      · rw [if_neg hg, Function.update_of_ne hne, if_neg (by simp [hg, hne])]

/-- **A task that has exited** has no descriptors. -/
theorem Buried.taskExit (h : Buried s) (hexit : s.taskExit pid = some t) : Buried t := by
  obtain ⟨p, hrun, hexit⟩ := Option.bind_eq_some_iff.mp hexit
  obtain ⟨u, hclose, hexit⟩ := Option.bind_eq_some_iff.mp hexit
  obtain rfl := Option.some.inj hexit
  have hu := closeAll_tasks (p := { p with died := true }) _ (fun fd hfd => List.mem_range.mp hfd) hclose
    (setProcess_self s pid _)
  intro pid' q hq hdead
  obtain ⟨q', hq', rfl⟩ := Option.map_eq_some_iff.mp hq
  have hlist : ∀ r : Process, u.tasks pid' = some r → r.died = true → r.fileList = [] := by
    intro r hr hdead
    rw [hu] at hr
    rcases eq_or_ne pid' pid with rfl | hne
    · rw [Function.update_self] at hr
      obtain rfl := Option.some.inj hr
      exact List.filterMap_eq_nil_iff.mpr fun fd hfd => if_pos hfd
    · rw [Function.update_of_ne hne, setProcess_of_ne _ _ hne] at hr
      exact h pid' r hr hdead
  by_cases hpp : q'.ppid = pid
  · rw [if_pos hpp] at hdead ⊢
    exact hlist q' hq' hdead
  · rw [if_neg hpp] at hdead ⊢
    exact hlist q' hq' hdead

/-- `sys_close` by a task that is alive. -/
theorem Buried.sysClose {fd : ℤ} (h : Buried s) (hrun : s.running pid = some p)
    (hclose : s.sysClose pid fd = some t) : Buried t := by
  obtain ⟨hp, hdead⟩ := running_eq_some.mp hrun
  obtain ⟨slot, hslot⟩ : ∃ slot, fdSlot fd = some slot := by
    obtain ⟨_, -, hclose⟩ := Option.bind_eq_some_iff.mp hclose
    obtain ⟨_, -, hclose⟩ := Option.bind_eq_some_iff.mp hclose
    obtain ⟨slot, hslot, -⟩ := Option.bind_eq_some_iff.mp hclose
    exact ⟨slot, hslot⟩
  have hset : Buried (s.setProcess pid (some { p with files := Function.update p.files slot none })) :=
    h.setRunning hdead
  rw [Buried, sysClose_tasks hclose hp hslot]
  exact hset

/-- `task_waitpid` frees a task without descriptors. -/
theorem Counted.taskWaitpid (h : Counted s [] []) (hb : Buried s) (pid : ℕ) (which : Option ℕ) :
    Counted (s.taskWaitpid pid which) [] [] ∧ Gave s (s.taskWaitpid pid which) ∧
      Buried (s.taskWaitpid pid which) := by
  rw [OpenFiles.taskWaitpid]
  split
  next => exact ⟨h, Gave.refl s, hb⟩
  next child hfind =>
    have hmem := List.mem_of_find?_eq_some hfind
    rw [List.mem_range'_1, taskNumber] at hmem
    have hlt : child < taskNumber := by
      rw [taskNumber]
      omega
    have hnil : s.fileList child = [] := by
      have hdead := List.find?_some hfind
      obtain ⟨p, hp, hdead⟩ := (Option.any_eq_true _ _).mp hdead
      rw [fileList_of_tasks hp]
      refine hb child p hp ?_
      simp only [Bool.and_eq_true] at hdead
      exact hdead.1.2
    refine ⟨h.setProcess hlt (fun f hf => absurd hf List.not_mem_nil) fun f => ?_,
      Gave.of_same rfl (fun f => ?_) rfl, hb.setProcess fun p hp => absurd hp (by simp)⟩
    · rw [hnil]
      rfl
    · have hmove := fds_setProcess (s := s) hlt none f
      rw [hnil, List.count_nil] at hmove
      change _ = _ + 0 at hmove
      omega

/-! ### Runs -/

/-- **Every operation** keeps the counters right and calls `get_file` and `iput` as it should. -/
theorem Exact.run {op : FileOp} {r : ℤ} (h : Counted s [] []) (hb : Buried s) (hs : s.calls = [])
    (hrun : s.run op = some (r, t)) : Exact s t ∧ Buried t := by
  cases op with
  | fork pid =>
    obtain ⟨⟨child, u⟩, hfork, heq⟩ := Option.map_eq_some_iff.mp hrun
    obtain ⟨-, rfl⟩ := Prod.mk.inj heq
    obtain ⟨ht, htook⟩ := h.taskFork hfork
    exact ⟨htook.exact hs ht, htook.buried hb⟩
  | exit pid =>
    obtain ⟨u, hexit, heq⟩ := Option.map_eq_some_iff.mp hrun
    obtain ⟨-, rfl⟩ := Prod.mk.inj heq
    obtain ⟨ht, hgave⟩ := h.taskExit hexit
    exact ⟨hgave.exact hs ht, hb.taskExit hexit⟩
  | waitpid pid which =>
    obtain ⟨-, rfl⟩ := Prod.mk.inj (Option.some.inj hrun)
    obtain ⟨ht, hgave, hbt⟩ := h.taskWaitpid hb pid which
    exact ⟨hgave.exact hs ht, hbt⟩
  | opens pid opened flags =>
    obtain ⟨ht, htook⟩ := h.sysOpen hrun
    exact ⟨htook.exact hs ht, htook.buried hb⟩
  | close pid fd =>
    obtain ⟨p, halive, hmap⟩ := Option.bind_eq_some_iff.mp hrun
    obtain ⟨u, hclose, heq⟩ := Option.map_eq_some_iff.mp hmap
    obtain ⟨-, rfl⟩ := Prod.mk.inj heq
    obtain ⟨ht, hgave⟩ := h.sysClose hclose
    exact ⟨hgave.exact hs ht, hb.sysClose halive hclose⟩
  | dup pid fd =>
    obtain ⟨ht, htook, -⟩ := h.dupfd hrun
    exact ⟨htook.exact hs ht, htook.buried hb⟩
  | dup2 pid oldfd newfd =>
    obtain ⟨p, halive, hdup⟩ := Option.bind_eq_some_iff.mp hrun
    obtain ⟨u, hclose, hdup⟩ := Option.bind_eq_some_iff.mp hdup
    obtain ⟨-, htook, -⟩ := (h.sysClose hclose).1.dupfd hdup
    exact ⟨h.sysDup2 hs hrun, htook.buried (hb.sysClose halive hclose)⟩
  | pipe pid inode =>
    obtain ⟨⟨fds, u⟩, hpipe, heq⟩ := Option.map_eq_some_iff.mp hrun
    obtain ⟨-, rfl⟩ := Prod.mk.inj heq
    obtain ⟨ht, htook⟩ := h.sysPipe hpipe
    exact ⟨htook.exact hs ht, htook.buried hb⟩

/-- **A step** of a state whose counters are right. -/
theorem Exact.step {op : FileOp} {r : ℤ} (h : Counted s [] []) (hb : Buried s)
    (hstep : fileStep s op = some (r, t)) : Exact s t ∧ Buried t := by
  have h₀ : Counted { s with calls := [] } [] [] := ⟨h.count, h.files_lt, h.tasks_lt⟩
  obtain ⟨⟨ht, hfresh, hputs⟩, hbt⟩ := Exact.run (s := { s with calls := [] }) h₀ hb rfl hstep
  exact ⟨⟨ht, hfresh, hputs⟩, hbt⟩

theorem addFile_inode (s : OpenFiles) (f g : ℕ) :
    ((s.addFile f).fileTable g).inode = (s.fileTable g).inode := by
  rcases eq_or_ne g f with rfl | hne
  · rw [addFile, setFile_self]
  · rw [addFile, setFile_of_ne _ _ hne]

theorem addAll_inode {files : ℕ → Option ℕ} (l : List ℕ) (s : OpenFiles) (g : ℕ) :
    ((l.foldl (fun s fd => (files fd).elim s s.addFile) s).fileTable g).inode = (s.fileTable g).inode := by
  induction l generalizing s with
  | nil => rfl
  | cons fd l ih =>
    rw [List.foldl_cons, ih]
    cases files fd with
    | none => rfl
    | some f => exact addFile_inode s f g

section Boot

variable {inode mode : ℕ → ℕ}

theorem boot_fileList (pid : ℕ) : (bootFiles inode mode).fileList pid = if pid < 3 then [0, 1, 2] else [] := by
  rw [fileList, bootFiles]
  by_cases hlt : pid < 3
  · simp only [hlt, if_true]
    rfl
  · simp [hlt]

/-- The counters are right at the start. -/
theorem boot_counted (inode mode : ℕ → ℕ) : Counted (bootFiles inode mode) [] [] where
  count f _ := by
    have hsum : (bootFiles inode mode).fds f = 3 * [0, 1, 2].count f := by
      simp only [fds, boot_fileList]
      exact sum_count_ite (by decide) _ f
    rw [hsum]
    change (if f < 3 then 3 else 0) + 0 = _
    by_cases hlt : f < 3
    · have hone : [0, 1, 2].count f = 1 := by
        obtain rfl | rfl | rfl : f = 0 ∨ f = 1 ∨ f = 2 := by omega
        all_goals rfl
      rw [if_pos hlt, hone]
      rfl
    · have hzero : [0, 1, 2].count f = 0 := List.count_eq_zero_of_not_mem (by simp; omega)
      rw [if_neg hlt, hzero]
      rfl
  files_lt pid f hf := by
    rw [boot_fileList] at hf
    split at hf
    · simp only [List.mem_cons, List.not_mem_nil, or_false] at hf
      rw [fileNr]
      omega
    · exact absurd hf List.not_mem_nil
  tasks_lt pid hp := by
    by_contra hge
    rw [taskNumber] at hge
    exact hp (if_neg (by omega))

theorem boot_buried (inode mode : ℕ → ℕ) : Buried (bootFiles inode mode) := by
  intro pid p hp hdead
  change (if pid < 3 then some (bootProcess pid) else none) = some p at hp
  split at hp
  · obtain rfl := Option.some.inj hp
    exact absurd hdead Bool.false_ne_true
  · exact absurd hp (by simp)

end Boot

end OpenFiles

/-- **The file table over every run**, from the start and for any number of processes: at each step
the counts are the numbers of descriptors before and after, every entry `get_file` has returned had
none, and `iput` was called once on the inode of each entry that has lost its last descriptor, and
on no other. -/
theorem fileRun_exact (inode mode : ℕ → ℕ) (ops : List FileOp) :
    Run.Along fileStep (fun s op => ∀ r t, fileStep s op = some (r, t) →
      (∀ f < fileNr, (s.fileTable f).count = s.fds f ∧ (t.fileTable f).count = t.fds f) ∧
      (∀ f n, FileCall.getFile f n ∈ t.calls → n = 0) ∧
      ∀ f, OpenFiles.putsOf t.calls f
        = if 0 < s.fds f ∧ t.fds f = 0 then [(s.fileTable f).inode] else [])
      (bootFiles inode mode) ops := by
  have hcount : ∀ s : OpenFiles, s.Counted [] [] → ∀ f < fileNr, (s.fileTable f).count = s.fds f := by
    intro s hs f hf
    have hcount := hs.count f hf
    simpa only [List.count_nil, Nat.add_zero] using hcount
  refine Run.along_of_inv (fun s : OpenFiles => s.Counted [] [] ∧ s.Buried)
    (fun s op hs (_ : True) r t hstep => ?_) (fun s op r t hs _ hstep => ?_) ops _
    ⟨OpenFiles.boot_counted inode mode, OpenFiles.boot_buried inode mode⟩
    (Run.along_of_forall (fun _ _ => trivial) _ _)
  · obtain ⟨hexact, -⟩ := OpenFiles.Exact.step hs.1 hs.2 hstep
    exact ⟨fun f hf => ⟨hcount s hs.1 f hf, hcount t hexact.counted f hf⟩, hexact.fresh, hexact.puts⟩
  · obtain ⟨hexact, hb⟩ := OpenFiles.Exact.step hs.1 hs.2 hstep
    exact ⟨hexact.counted, hb⟩

/-- A file that is opened, inherited and closed by both: the second close calls `iput`. -/
example : ((Run.exec fileStep (bootFiles id id)
    [.opens 1 (some ⟨5, 0, 0⟩) 0, .fork 1, .close 1 3, .exit 3]).map
      fun t => OpenFiles.putsOf t.calls 3) = some [some 5] := by rfl

end Onixs
