import Onixs.Fs.MountTable
import Onixs.Kernel.InodeReferences

/-!
# Unmounting under the processes

`sys_umount` judges from the list of inodes of a device whether it is in use: one inode in
memory is taken for the root directory, which the mount itself holds. But tasks and files may
refer to the root directory too. So what the call leaves behind is in order exactly when no
task and no open file refers to the root directory of the device
(`Onixs.umountRun_idle`).
-/

namespace Onixs

/-! ### The calls of the processes -/

/-- What a task does, mounting included. -/
inductive SystemOp where
  /-- A call that only works on the task and its files. -/
  | process (op : ProcessOp)
  /-- `sys_mount`. -/
  | mount (pid : ℕ) (devname dirname : CStr)
  /-- `sys_umount`. -/
  | umount (pid : ℕ) (target : CStr)

/-- A step, with the value of the call. -/
def systemStep (s : Processes) : SystemOp → Option (ℤ × Processes)
  | .process op => processStep s op
  | .mount pid devname dirname => do
      let p ← s.running pid
      let (r, fs) ← sysMount (s.asTask p) devname dirname
      return (r, s.setFs fs)
  | .umount pid target => do
      let p ← s.running pid
      let (r, fs) ← sysUmount (s.asTask p) target
      return (r, s.setFs fs)

/-- How far `sys_umount` comes behind its first tests: the inode of the target, the super block of the
device and the state there. -/
def umountEntry (s : Fs) (target : CStr) : Option (ℕ × ℕ × Fs) := do
  let (inode, s) ← namei s target
  let i ← inode
  assert (umountTarget s i = true)
  let k ← s.getSuper (umountDev s i)
  return (i, k, s)

/-- **A task or an open file refers to inode `j`.** -/
def Processes.Uses (s : Processes) (j : ℕ) : Prop :=
  (∃ pid < taskNumber, j ∈ s.taskInodes pid) ∨ ∃ f < fileNr, j ∈ (s.fileTable f).inodes

instance (s : Processes) (j : ℕ) : Decidable (s.Uses j) := inferInstanceAs (Decidable (_ ∨ _))

/-- **Device `dev` is not in use**: what tasks and open files refer to is on other devices, and those have
super blocks. -/
def Processes.Idle (s : Processes) (dev : ℕ) : Prop :=
  ∀ j, s.Uses j → (s.fs.inodeTable j).dev ≠ dev ∧ ∃ k, s.fs.getSuper (s.fs.inodeTable j).dev = some k

/-! ### The state of the tables -/

/-- The lists and the pointers are right. -/
def Linked (s : Fs) : Prop := Listed s ∧ MountTable s

/-- So is the table of super blocks. -/
def MountsOk (s : Fs) : Prop := Listed s ∧ MountTable s ∧ TableInOrder s.states

theorem MountsOk.linked {s : Fs} (h : MountsOk s) : Linked s := ⟨h.1, h.2.1⟩

namespace Processes

theorem kept_linked : Kept Linked where
  task _ h := ⟨⟨h.1.mem, h.1.dev_eq, h.1.unique⟩, ⟨h.2.root, h.2.bare, h.2.points, h.2.marks⟩⟩
  carried hpin := carried_mounts hpin fun hold hold' hsame h => h.same hpin hold hold' hsame

theorem kept_mountsOk : Kept MountsOk where
  task _ h := ⟨⟨h.1.mem, h.1.dev_eq, h.1.unique⟩,
    ⟨h.2.1.root, h.2.1.bare, h.2.1.points, h.2.1.marks⟩, h.2.2⟩
  carried hpin := carried_mounts hpin fun hold hold' hsame h => by
    refine ⟨h.1.same hpin hold hold' hsame, ?_⟩
    rw [hsame.states]
    exact h.2

section Pointers

variable {s : Processes} {L L' F : List ℕ} {u v : Fs} {k r m j i dev : ℕ}

/-- **A store in `super_table`** moves references between the super block and those under way. -/
theorem Counting.setPointers (h : s.Counting L F) (hk : k < superNr) (htable : TableOk u)
    (hcount : ∀ j, (u.inodeTable j).count = (s.fs.inodeTable j).count)
    (hother : ∀ k', k' ≠ k → (u.superTable k').inodes = (s.fs.superTable k').inodes)
    (hL : ((u.superTable k).inodes ++ L').Perm ((s.fs.superTable k).inodes ++ L))
    (htop : ∀ k < superNr, ∀ m, (u.superTable k).imount = some m → (u.inodeTable m).nr = 1 →
      ∀ k', u.getSuper (u.inodeTable m).dev = some k' → (u.superTable k').imount = some m) :
    (s.setFs u).Counting L' F := by
  have hrefs : ∀ j, (s.setFs u).refs j + L'.count j = s.refs j + L.count j := by
    intro j
    have hsum := sum_add_of_eq_off (f := fun k' => (s.fs.superTable k').inodes.count j)
      (g := fun k' => (u.superTable k').inodes.count j) (Finset.mem_range.mpr hk)
      fun k' _ hne => by rw [hother k' hne]
    have hperm := hL.count_eq j
    rw [List.count_append, List.count_append] at hperm
    rw [refs, refs]
    change (∑ pid ∈ Finset.range taskNumber, (s.taskInodes pid).count j)
      + (∑ f ∈ Finset.range fileNr, (s.fileTable f).inodes.count j)
      + (∑ k ∈ Finset.range superNr, (u.superTable k).inodes.count j) + _ = _
    omega
  have hsub : ∀ x, x ∈ (u.superTable k).inodes ∨ x ∈ L' → x < inodeNr := fun x hx =>
    (List.mem_append.mp (hL.mem_iff.mp (List.mem_append.mpr hx))).elim (h.supers_lt k hk x) (h.held_lt x)
  refine ⟨htable, fun j hj => ?_, h.files, h.tasks_lt, h.inodes_lt, h.fileInodes_lt, fun k' hk' x hx => ?_,
    fun x hx => hsub x (Or.inr hx), h.files_lt, h.open_lt, htop⟩
  · rw [hrefs, ← h.count j hj]
    exact hcount j
  · rcases eq_or_ne k' k with rfl | hne
    · exact hsub x (Or.inl hx)
    · refine h.supers_lt k' hk' x ?_
      rw [← hother k' hne]
      exact hx

/-- An entry that is taken or given up moves no reference. -/
theorem Counting.change (h : s.Counting L F) (hchange : SuperChange s.fs u) : (s.setFs u).Counting L F := by
  have hinodes : ∀ k, (u.superTable k).inodes = (s.fs.superTable k).inodes := fun k => by
    rw [SuperBlock.inodes, SuperBlock.inodes, (hchange.fields k).2.1, (hchange.fields k).2.2]
  refine h.setPointers (k := 0) (by decide) hchange.table (fun j => by rw [hchange.inodeTable]) (fun k _ => hinodes k)
    (List.Perm.of_eq (by rw [hinodes])) fun k hk m hm hnr k' hk' => ?_
  rw [(hchange.fields k).2.2] at hm
  rw [hchange.inodeTable] at hnr hk'
  have hused := h.holding.used_of_pinned (h.pinned.imount k hk m hm).2
  rw [hchange.same m (h.pinned.imount k hk m hm).1 hused] at hk'
  rw [(hchange.fields k').2.2]
  exact h.top k hk m hm hnr k' hk'

theorem Keeping.change (h : Keeping Linked s L F) (hchange : SuperChange s.fs u)
    (hdev : ∀ k < superNr, (s.fs.superTable k).imount ≠ none → (u.superTable k).dev = (s.fs.superTable k).dev) :
    Keeping Linked (s.setFs u) L F :=
  ⟨h.1.change hchange, hchange.listed, h.2.2.change hchange hdev⟩

/-- What the counters say about an inode nobody refers to but the operation itself. -/
theorem Counting.refs_zero (h : s.Counting (j :: L) F) (hone : (s.fs.inodeTable j).count = 1) :
    s.refs j = 0 ∧ j ∉ L := by
  have hcount := h.count j (h.held_lt j List.mem_cons_self)
  rw [hone, List.count_cons_self] at hcount
  have hzero : L.count j = 0 := by omega
  exact ⟨by omega, fun hmem => Nat.ne_of_gt (List.count_pos_iff.mpr hmem) hzero⟩

/-! ### Mounting -/

/-- **`read_super`** moves no reference. -/
theorem Keeping.readSuper (h : Keeping Linked s L F) (hin : TableInOrder s.fs.states)
    (hread : readSuper s.fs dev = some (k, u)) : ReadSuper s.fs u dev k ∧ Keeping Linked (s.setFs u) L F := by
  have hread' : ReadSuper s.fs u dev k := by
    obtain ⟨hknown, hfresh⟩ : (∀ k, s.fs.getSuper dev = some k → _) ∧ _ := readSuper_cases h.1.table h.2.1
    cases hk : s.fs.getSuper dev with
    | some k' =>
      obtain ⟨rfl, rfl⟩ := Prod.mk.inj (Option.some.inj ((hknown k' hk).symm.trans hread))
      exact readSuper_known h.1.table h.2.1 hk
    | none => exact ((hfresh hk).1 k u hread).2.2
  refine ⟨hread', h.change hread'.change fun k' hk' hm => ?_⟩
  have hstate : (u.states k').1 = (s.fs.states k').1 := by
    rcases readSuper_states hread with ⟨hk, hstates⟩ | ⟨-, hfree, hstates⟩
    · rw [hstates]
      rcases eq_or_ne k' k with rfl | hne
      · rw [Function.update_self]
        exact (Fs.dev_of_getSuper hk).symm
      · rw [Function.update_of_ne hne]
    · rw [hstates]
      rcases eq_or_ne k' k with rfl | hne
      · exact absurd (hin.of_free hfree).2.2.2 hm
      · rw [Function.update_of_ne hne]
  exact hstate

/-- A directory `sys_mount` takes is not the root of a mounted device. -/
theorem Keeping.directory_nr (h : Keeping Linked s (j :: L) F) (hone : (s.fs.inodeTable j).count = 1)
    (hmounted : ∀ k, s.fs.getSuper (s.fs.inodeTable j).dev = some k → (s.fs.superTable k).imount ≠ none) :
    (s.fs.inodeTable j).nr ≠ 1 := by
  intro hnr
  obtain ⟨hzero, -⟩ := h.1.refs_zero hone
  have hj : j < inodeNr := h.1.held_lt j List.mem_cons_self
  have hused : (s.fs.inodeTable j).count ≠ 0 := by
    rw [hone]
    exact Nat.one_ne_zero
  obtain ⟨k, hk, -⟩ := h.2.1.mem j hj hused
  have hlt := getSuper_lt hk
  obtain ⟨r, hr, hroot⟩ := h.2.2.root k hlt (hmounted k hk)
  have hpinned := h.1.pinned.iroot k hlt r hr
  have hnode : s.fs.nodeOf r = s.fs.nodeOf j := by
    rw [hroot, Fs.nodeOf, hnr, Fs.dev_of_getSuper hk]
  obtain rfl := h.2.1.unique r hpinned.1 j hj (h.1.holding.used_of_pinned hpinned.2) hused hnode
  exact refs_pos_of_super hlt (by simp [SuperBlock.inodes, hr]) hzero

/-- **The stores of `sys_mount`** hand the root and the directory to the super block. -/
theorem Keeping.mounted (h : Keeping Linked s (r :: j :: L) F) (hk : k < superNr)
    (hnone : (s.fs.superTable k).imount = none) (hnode : s.fs.nodeOf r = ((s.fs.superTable k).dev, 1))
    (hfree : ∀ k' < superNr, (s.fs.superTable k').imount ≠ some j) (hnr : (s.fs.inodeTable j).nr ≠ 1) (dev : ℕ) :
    Keeping Linked (s.setFs (mounted s.fs k r j dev)) L F := by
  obtain ⟨t, ht⟩ : ∃ t, t = Onixs.mounted s.fs k r j dev := ⟨_, rfl⟩
  have hself : t.superTable k = { s.fs.superTable k with iroot := some r, imount := some j } := by
    rw [ht, Onixs.mounted, Fs.setMount, Fs.setInode_superTable, Fs.setImount, Fs.setSuper_self, Fs.setIroot,
      Fs.setSuper_self]
  have hother : ∀ k', k' ≠ k → t.superTable k' = s.fs.superTable k' := fun k' hne => by
    rw [ht, Onixs.mounted, Fs.setMount, Fs.setInode_superTable, Fs.setImount, Fs.setSuper_of_ne _ _ hne, Fs.setIroot,
      Fs.setSuper_of_ne _ _ hne]
  have hsuper : ∀ k', (t.superTable k').dev = (s.fs.superTable k').dev ∧
      (t.superTable k').inodeList = (s.fs.superTable k').inodeList := by
    intro k'
    rcases eq_or_ne k' k with rfl | hne
    · rw [hself]
      exact ⟨rfl, rfl⟩
    · rw [hother k' hne]
      exact ⟨rfl, rfl⟩
  have hcount : ∀ x, (t.inodeTable x).count = (s.fs.inodeTable x).count := by
    intro x
    rw [ht, Onixs.mounted, Fs.setMount]
    rcases eq_or_ne x j with rfl | hne
    · rw [Fs.setInode_self]
      rfl
    · rw [Fs.setInode_of_ne _ _ hne]
      rfl
  have hnodes : ∀ x, t.nodeOf x = s.fs.nodeOf x := fun x => by
    rw [ht]
    exact nodeOf_setMount ((s.fs.setIroot k (some r)).setImount k (some j)) j dev x
  have hget : ∀ d, t.getSuper d = s.fs.getSuper d := fun d => by
    rw [Fs.getSuper, Fs.getSuper]
    exact congrArg (fun p => List.find? p _) (funext fun k' => by rw [(hsuper k').1])
  have hbare := h.2.2.bare k hk hnone
  rw [← ht]
  refine ⟨h.1.setPointers hk (h.1.table.congr (fun x => ⟨congrArg Prod.fst (hnodes x), hcount x⟩) fun k' => (hsuper k').2)
    hcount (fun k' hne => by rw [hother k' hne]) ?_ fun k' hk' m hm hm1 k'' hk'' => ?_,
    h.2.1.congr (fun x => ⟨hnodes x, hcount x⟩) hsuper, ?_⟩
  · rw [hself, SuperBlock.inodes, SuperBlock.inodes, hnone, hbare]
    exact List.Perm.refl _
  · have hm1' : (s.fs.inodeTable m).nr = 1 := (congrArg Prod.snd (hnodes m)).symm.trans hm1
    have hk₀ : s.fs.getSuper (s.fs.inodeTable m).dev = some k'' := by
      rw [← hget, ← show (t.inodeTable m).dev = (s.fs.inodeTable m).dev from congrArg Prod.fst (hnodes m)]
      exact hk''
    rcases eq_or_ne k' k with rfl | hne
    · rw [hself] at hm
      obtain rfl := Option.some.inj hm
      exact absurd hm1' hnr
    · rw [hother k' hne] at hm
      have htop := h.1.top k' hk' m hm hm1' k'' hk₀
      rw [hother k'' fun heq => by rw [heq, hnone] at htop; exact absurd htop (by simp)]
      exact htop
  · rw [ht]
    exact h.2.2.mounted hk hnone hnode hfree dev

/-- **`put_super`** when the last reference to the entry has nothing left. -/
theorem Keeping.putSuper (h : Keeping Linked s L F) (hk : k < superNr) (hunique : ∀ k' < superNr,
      (s.fs.superTable k').dev = (s.fs.superTable k).dev → (s.fs.superTable k).dev ≠ EOF → k' = k)
    (hlast : (s.fs.superTable k).count - 1 = 0 →
      (s.fs.superTable k).imount = none ∧ (s.fs.superTable k).inodeList = []) :
    Keeping Linked (s.setFs (s.fs.mapSuper k SuperBlock.put)) L F := by
  refine h.change (putSuper_change h.1.table h.2.1 hunique fun hzero => (hlast hzero).2) fun k' _ hm => ?_
  rcases eq_or_ne k' k with rfl | hne
  · rw [Fs.mapSuper, Fs.setSuper_self]
    exact if_neg fun hzero => hm (hlast hzero).1
  · rw [Fs.mapSuper, Fs.setSuper_of_ne _ _ hne]

theorem Keeping.mountRollback (h : Keeping Linked s (i :: j :: L) F) (hlen : L.length ≤ 800) {ret : ℤ}
    (hrun : mountRollback s.fs none (some i) (some j) = some (ret, u)) : Keeping Linked (s.setFs u) L F := by
  obtain ⟨v, hput, hrun⟩ := Option.bind_eq_some_iff.mp hrun
  obtain ⟨w, hput', hrun⟩ := Option.bind_eq_some_iff.mp hrun
  obtain ⟨-, rfl⟩ := Prod.mk.inj (Option.some.inj hrun)
  have h₁ := h.iput kept_linked (by rw [List.length_cons]; omega) hput
  have h₂ := h₁.iput kept_linked (by omega) hput'
  exact h₂

/-- The device is mounted already: the reference to its super block is given back. -/
theorem Keeping.mountBusy (h : Keeping Linked s (j :: i :: L) F) (hin : TableInOrder s.fs.states)
    (hlen : L.length ≤ 800) (hdev : dev ≠ EOF) (hread : Onixs.readSuper s.fs dev = some (k, v))
    (hm : (v.superTable k).imount = some m) {ret : ℤ}
    (hrun : Onixs.mountRollback v (some k) (some i) (some j) = some (ret, u)) : Keeping Linked (s.setFs u) L F := by
  obtain ⟨hread', h₁⟩ := h.readSuper hin hread
  obtain ⟨w, hput, hback⟩ := Option.bind_eq_some_iff.mp hrun
  have hsome : (s.fs.states k).2.2.2 = some m := ((hread'.fields k).2.2).symm.trans hm
  obtain ⟨hlt, -, n, -, -, hstates, hbusy⟩ := hin.readSuper hread
  obtain ⟨hk, hn⟩ := hbusy (by rw [hsome]; rfl)
  have hself : v.states k = (dev, n, (s.fs.states k).2.2.1, (s.fs.states k).2.2.2) := by
    rw [hstates, Function.update_self]
  have hused : 0 < (s.fs.states k).2.1 := (hin.entry k hlt).used fun heq =>
    hdev ((Fs.dev_of_getSuper hk).symm.trans heq)
  have hcount : (v.superTable k).count = (s.fs.states k).2.1 + 1 := (congrArg (fun p => p.2.1) hself).trans hn
  have hmore : (v.superTable k).count - 1 ≠ 0 := by omega
  have hdevs : ∀ k', (v.superTable k').dev = (s.fs.superTable k').dev := by
    intro k'
    have hk' := congrFun hstates k'
    rcases eq_or_ne k' k with rfl | hne
    · rw [Function.update_self] at hk'
      exact (congrArg Prod.fst hk').trans (Fs.dev_of_getSuper hk).symm
    · rw [Function.update_of_ne hne] at hk'
      exact congrArg Prod.fst hk'
  have hunique : ∀ k' < superNr, (v.superTable k').dev = (v.superTable k).dev → (v.superTable k).dev ≠ EOF →
      k' = k := by
    intro k' hk' heq hne
    rw [hdevs, hdevs] at heq
    rw [hdevs] at hne
    exact hin.unique k' hk' k hlt heq fun hfree => hne (heq.symm.trans hfree)
  have hbare := putSuper_bare (t := v) (k := k) (by omega) fun hone => absurd (by omega) hmore
  obtain rfl := Option.some.inj (hput.symm.trans hbare)
  have h₂ := h₁.putSuper hlt hunique fun hzero => absurd hzero hmore
  exact (h₂.perm (List.Perm.swap i j L) (List.Perm.refl F)).mountRollback hlen hback

/-- The device is not mounted: its root directory is read, and the stores are made. -/
theorem Keeping.mountFree (h : Keeping Linked s (j :: i :: L) F) (hin : TableInOrder s.fs.states)
    (hlen : L.length ≤ 800) (hone : (s.fs.inodeTable j).count = 1) (hnr : (s.fs.inodeTable j).nr ≠ 1)
    (hdev : dev ≠ EOF) (hread : Onixs.readSuper s.fs dev = some (k, v)) (hm : (v.superTable k).imount = none) {w : Fs}
    (hget : iget v dev 1 = some (r, w)) (hput : Onixs.iput (Onixs.mounted w k r j dev) i = some u) :
    Keeping Linked (s.setFs u) L F := by
  obtain ⟨hread', h₁⟩ := h.readSuper hin hread
  have hroom : Room ((s.setFs v).base (j :: i :: L)) ((j :: i :: L).length + 1) := h₁.1.room (by
    rw [List.length_cons, List.length_cons]
    omega)
  -- what is in use stays what it is while the root directory is read
  have hpin : Pinned v.counts v := by
    have hle : ∀ m, (s.setFs v).base (j :: i :: L) m ≠ 0 → v.counts m ≠ 0 := fun m hm =>
      h₁.1.holding.used_of_pinned hm
    have hpinned := h₁.1.pinned
    exact ⟨fun k hk m hm => ⟨(hpinned.iroot k hk m hm).1, hle m (hpinned.iroot k hk m hm).2⟩,
      fun k hk m hm => ⟨(hpinned.imount k hk m hm).1, hle m (hpinned.imount k hk m hm).2⟩, hpinned.top⟩
  have hroom' : Room v.counts 1 := fun m hm => by
    have hm' := h₁.1.holding.room hroom hm
    exact hm'
  have hkept := ((Holding.refl hread'.table).iget hpin hroom' hdev hget).kept
  have hplain : ∀ y < inodeNr, (v.inodeTable y).count ≠ 0 → v.nodeOf y = (dev, 1) → (v.inodeTable y).mount = 0 := by
    intro y hy hused hnode
    by_contra hmark
    obtain ⟨k', hk', hpoint⟩ := h₁.2.2.marks y hmark
    have htop := h₁.1.top k' hk' y hpoint (congrArg Prod.snd hnode) k (by
      rw [show ((s.setFs v).fs.inodeTable y).dev = dev from congrArg Prod.fst hnode]
      exact hread'.getSuper)
    rw [show ((s.setFs v).fs.superTable k).imount = none from hm] at htop
    exact absurd htop (by simp)
  have hnode := ((iget_root_iff hread'.table hread'.listed hread'.getSuper hplain).1 r w hget).2
  have hsame := SameMounts.iget hget
  have h₂ : Keeping Linked ((s.setFs v).setFs w) (r :: j :: i :: L) F :=
    h₁.setFs ((kept_linked.carried h₁.1.pinned).iget ⟨h₁.1.holding, h₁.2⟩ hroom hdev hget)
  have hone' : (v.inodeTable j).count = 1 := by
    rw [hread'.inodeTable]
    exact hone
  have hnr' : (w.inodeTable j).nr ≠ 1 := by
    have hident := hkept j (by rw [Fs.counts, hone']; exact Nat.one_ne_zero)
    rw [show (w.inodeTable j).nr = (v.inodeTable j).nr from congrArg (fun p => p.2.1) hident, hread'.inodeTable]
    exact hnr
  have hpoint : ∀ k' < superNr, (w.superTable k').imount ≠ some j := by
    intro k' hk' heq
    have hzero := (h₁.1.refs_zero hone').1
    rw [hsame.imount] at heq
    exact refs_pos_of_super (s := s.setFs v) hk' (by simp [SuperBlock.inodes, Processes.setFs, heq]) hzero
  have hroot : w.nodeOf r = ((w.superTable k).dev, 1) := by
    rw [hsame.dev, Fs.dev_of_getSuper hread'.getSuper]
    exact hnode
  have h₃ := h₂.mounted hread'.lt ((hsame.imount k).trans hm) hroot hpoint hnr' dev
  have h₄ := h₃.iput (L := L) kept_linked (by omega) hput
  exact h₄

/-- **`sys_mount` behind its tests** keeps the tables right. -/
theorem Keeping.mountDevice (h : Keeping Linked s (j :: i :: L) F) (hin : TableInOrder s.fs.states)
    (hlen : L.length ≤ 800) (hone : (s.fs.inodeTable j).count = 1) (hnr : (s.fs.inodeTable j).nr ≠ 1)
    (hdev : dev ≠ EOF) {ret : ℤ} (hrun : mountDevice s.fs i j dev = some (ret, u)) :
    Keeping Linked (s.setFs u) L F := by
  obtain ⟨⟨k, v⟩, hread, hrest⟩ := Option.bind_eq_some_iff.mp hrun
  simp only at hrest
  cases hm : (v.superTable k).imount with
  | some m =>
    simp only [hm, Option.isSome_some, if_true] at hrest
    exact h.mountBusy hin hlen hdev hread hm hrest
  | none =>
    rw [mountDevice_known hread hm] at hrun
    obtain ⟨⟨r, w⟩, hget, hrun⟩ := Option.bind_eq_some_iff.mp hrun
    obtain ⟨x, hput, heq⟩ := Option.map_eq_some_iff.mp hrun
    obtain ⟨-, rfl⟩ := Prod.mk.inj heq
    exact h.mountFree hin hlen hone hnr hdev hread hm hget hput

/-- The directory a device is to be mounted on is on a mounted device. -/
def MountSound (s : Fs) (devname dirname : CStr) : Prop :=
  ∀ d s₁ j s₂, Onixs.namei s devname = some (d, s₁) → Onixs.namei s₁ dirname = some (some j, s₂) →
    ∀ k, s₂.getSuper (s₂.inodeTable j).dev = some k → (s₂.superTable k).imount ≠ none

theorem Keeping.sysMount {pid : ℕ} {p : Process} (h : Keeping Linked s L F) (hin : TableInOrder s.fs.states)
    (hlen : L.length ≤ 800) (hrun : s.running pid = some p) {devname dirname : CStr} {ret : ℤ}
    (hsound : MountSound (s.asTask p) devname dirname)
    (hcall : sysMount (s.asTask p) devname dirname = some (ret, u)) : Keeping Linked (s.setFs u) L F := by
  obtain ⟨⟨d, s₁⟩, hname, hcall⟩ := Option.bind_eq_some_iff.mp hcall
  have h₁ := h.namei kept_linked (by omega) hrun hname
  have htask : s₁.task = p.task := (SameMounts.namei hname).task
  cases d with
  | none =>
    obtain ⟨-, rfl⟩ := Prod.mk.inj (Option.some.inj hcall)
    exact h₁
  | some i =>
    simp only at hcall
    split at hcall
    · obtain ⟨v, hput, hback⟩ := Option.bind_eq_some_iff.mp hcall
      obtain ⟨w, hnone, hback⟩ := Option.bind_eq_some_iff.mp hback
      obtain rfl := Option.some.inj hnone
      obtain ⟨-, rfl⟩ := Prod.mk.inj (Option.some.inj hback)
      have h₂ := h₁.iput (L := L) kept_linked (by omega) hput
      exact h₂
    · obtain ⟨⟨e, s₂⟩, hname', hcall⟩ := Option.bind_eq_some_iff.mp hcall
      obtain ⟨j, hj, hcall⟩ := Option.bind_eq_some_iff.mp hcall
      simp only at hj
      subst hj
      have hself : (s.setFs s₁).asTask p = s₁ := by
        rw [asTask, Processes.setFs, ← htask]
      have hname'' : Onixs.namei ((s.setFs s₁).asTask p) dirname = some (some j, s₂) := by
        rw [hself]
        exact hname'
      have h₂ := h₁.namei kept_linked (by simp; omega) hrun hname''
      have hback : ∀ {ret : ℤ} {x : Fs}, Onixs.mountRollback s₂ none (some i) (some j) = some (ret, x) →
          Keeping Linked (s.setFs x) L F := fun hback => by
        have h₃ := Keeping.mountRollback (L := L) (h₂.perm (List.Perm.swap i j L) (List.Perm.refl F)) hlen hback
        exact h₃
      simp only at hcall
      split at hcall
      · exact hback hcall
      · split at hcall
        · exact hback hcall
        next hfree =>
          rw [not_or, not_not, not_not] at hfree
          have hin' : TableInOrder s₂.states := by
            rw [(SameMounts.namei hname').states, (SameMounts.namei hname).states]
            exact hin
          have hzone : (s₁.inodeDesc i).zone 0 ≠ EOF :=
            Nat.ne_of_lt (Nat.lt_trans (Bytes.getU16_lt _ _) (by decide))
          have hnr := Keeping.directory_nr (L := i :: L) h₂ hfree.1 (hsound _ s₁ j s₂ hname hname')
          have h₃ := Keeping.mountDevice (L := L) h₂ hin' hlen hfree.1 hnr hzone hcall
          exact h₃

end Pointers

end Processes

end Onixs
