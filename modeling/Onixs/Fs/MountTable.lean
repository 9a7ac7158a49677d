import Onixs.Fs.MountPoint
import Onixs.Fs.SuperTable

/-!
# Mounts over a run

What a run of mounts, unmounts and walks keeps of the pointers of the super blocks: a mounted
device has its root directory in memory, one that is not mounted has none, and an inode
carries the mark of a mount point only if it is one (`Onixs.MountTable`). The stores of
`sys_mount` and `sys_umount` change it in one entry each.

The stores of `sys_umount` stand between calls of `iput`, which do not look at what is
stored; so they may be thought of as made before (`Onixs.iput_mapSuper`,
`Onixs.iput_setMount`).
-/

namespace Onixs

section Stores

variable {s t u : Fs} {i j k m d : ℕ} {g : SuperBlock → SuperBlock}

/-! ### Stores that `iput` does not see -/

/-- A store in an entry of `super_table`. -/
def Fs.mapSuper (s : Fs) (k : ℕ) (g : SuperBlock → SuperBlock) : Fs := s.setSuper k (g (s.superTable k))

/-- An entry with another list of inodes. -/
def SuperBlock.setList (sb : SuperBlock) (l : List ℕ) : SuperBlock := { sb with inodeList := l }

/-- A store beside the list of inodes. -/
def BesideList (g : SuperBlock → SuperBlock) : Prop := ∀ sb l, g (sb.setList l) = (g sb).setList l

theorem BesideList.inodeList (hg : BesideList g) (sb : SuperBlock) : (g sb).inodeList = sb.inodeList := by
  have h := congrArg SuperBlock.inodeList (hg sb sb.inodeList)
  exact h

/-- A store in an entry of the inode table. -/
def Fs.mapInode (s : Fs) (i : ℕ) (f : Inode → Inode) : Fs := s.setInode i (f (s.inodeTable i))

/-- `inode->count--`. -/
def Inode.drop (node : Inode) : Inode := { node with count := sub32 node.count 1 }

/-- `inode->dev = EOF`. -/
def Inode.free (node : Inode) : Inode := { node with dev := EOF }

/-- **`iput` as stores.** -/
theorem iput_eq_some : iput t i = some u ↔
    (sub32 (t.inodeTable i).count 1 ≠ 0 ∧ u = t.mapInode i Inode.drop) ∨
      (sub32 (t.inodeTable i).count 1 = 0 ∧ i ≠ 0 ∧
        u = (removeInode (t.mapInode i Inode.drop) i).mapInode i Inode.free) := by
  have hcount : ((t.mapInode i Inode.drop).inodeTable i).count = sub32 (t.inodeTable i).count 1 := by
    rw [Fs.mapInode, Fs.setInode_self, Inode.drop]
  rw [iput]
  change (if ((t.mapInode i Inode.drop).inodeTable i).count ≠ 0 then _ else _) = _ ↔ _
  rw [hcount]
  by_cases hlast : sub32 (t.inodeTable i).count 1 = 0
  · rw [if_neg (not_not_intro hlast), putFreeInode]
    have hzero : ((removeInode (t.mapInode i Inode.drop) i).inodeTable i).count = 0 := hcount.trans hlast
    constructor
    · intro h
      obtain ⟨_, hi, h⟩ := Option.bind_eq_some_iff.mp h
      obtain ⟨_, -, h⟩ := Option.bind_eq_some_iff.mp h
      exact Or.inr ⟨hlast, assert_eq_some.mp hi, (Option.some.inj h).symm⟩
    · rintro (⟨hmore, -⟩ | ⟨-, hi, rfl⟩)
      · exact absurd hlast hmore
      · exact Option.bind_eq_some_iff.mpr ⟨(), assert_eq_some.mpr hi,
          Option.bind_eq_some_iff.mpr ⟨(), assert_eq_some.mpr hzero, rfl⟩⟩
  · rw [if_pos hlast]
    constructor
    · exact fun h => Or.inl ⟨hlast, (Option.some.inj h).symm⟩
    · rintro (⟨-, rfl⟩ | ⟨hlast', -⟩)
      · rfl
      · exact absurd hlast' hlast

theorem removeInode_mapSuper (hg : BesideList g) : removeInode (t.mapSuper k g) i = (removeInode t i).mapSuper k g := by
  have htable : (removeInode (t.mapSuper k g) i).superTable = ((removeInode t i).mapSuper k g).superTable := by
    funext k'
    change SuperBlock.setList _ _ = _
    rcases eq_or_ne k' k with rfl | hne
    · rw [Fs.mapSuper, Fs.mapSuper, Fs.setSuper_self, Fs.setSuper_self, hg.inodeList]
      exact (hg _ _).symm
    · rw [Fs.mapSuper, Fs.mapSuper, Fs.setSuper_of_ne _ _ hne, Fs.setSuper_of_ne _ _ hne]
      rfl
  exact congrArg (fun f => { t with superTable := f }) htable

/-- **`iput` and a store beside the lists** can be exchanged. -/
theorem iput_mapSuper (hg : BesideList g) (hrun : iput t i = some u) :
    iput (t.mapSuper k g) i = some (u.mapSuper k g) := by
  rcases iput_eq_some.mp hrun with ⟨hmore, rfl⟩ | ⟨hlast, hi, rfl⟩
  · exact iput_eq_some.mpr (Or.inl ⟨hmore, rfl⟩)
  · refine iput_eq_some.mpr (Or.inr ⟨hlast, hi, ?_⟩)
    have hremove := removeInode_mapSuper (t := t.mapInode i Inode.drop) (k := k) (i := i) hg
    exact congrArg (fun v => v.mapInode i Inode.free) hremove.symm

/-- What `iput` makes of a state with a store beside the lists is what it makes of the state without it,
with the store. -/
theorem exists_iput_of_mapSuper (hg : BesideList g) (hrun : iput (t.mapSuper k g) i = some u) :
    ∃ v, iput t i = some v ∧ u = v.mapSuper k g := by
  obtain ⟨v, hv⟩ : ∃ v, iput t i = some v := by
    rcases iput_eq_some.mp hrun with ⟨hmore, -⟩ | ⟨hlast, hi, -⟩
    · exact ⟨_, iput_eq_some.mpr (Or.inl ⟨hmore, rfl⟩)⟩
    · exact ⟨_, iput_eq_some.mpr (Or.inr ⟨hlast, hi, rfl⟩)⟩
  exact ⟨v, hv, Option.some.inj (hrun.symm.trans (iput_mapSuper hg hv))⟩

/-- Stores in different fields can be exchanged. -/
theorem mapInode_comm {f h : Inode → Inode} (hfh : ∀ node, f (h node) = h (f node)) :
    (t.mapInode m h).mapInode i f = (t.mapInode i f).mapInode m h := by
  have htable : ((t.mapInode m h).mapInode i f).inodeTable = ((t.mapInode i f).mapInode m h).inodeTable := by
    funext j
    simp only [Fs.mapInode]
    rcases eq_or_ne i m with rfl | him
    · rcases eq_or_ne j i with rfl | hj
      · simp only [Fs.setInode_self, hfh]
      · simp only [Fs.setInode_of_ne _ _ hj]
    · rcases eq_or_ne j i with rfl | hj
      · simp only [Fs.setInode_self, Fs.setInode_of_ne _ _ him]
      · rcases eq_or_ne j m with rfl | hj'
        · simp only [Fs.setInode_self, Fs.setInode_of_ne _ _ hj]
        · simp only [Fs.setInode_of_ne _ _ hj, Fs.setInode_of_ne _ _ hj']
  exact congrArg (fun f => { t with inodeTable := f }) htable

/-- **`iput` and a store of `inode->mount`** can be exchanged. -/
theorem iput_setMount (hrun : iput t i = some u) : iput (t.setMount m d) i = some (u.setMount m d) := by
  have hcount : ((t.setMount m d).inodeTable i).count = (t.inodeTable i).count := by
    rcases eq_or_ne i m with rfl | hne
    · rw [Fs.setMount, Fs.setInode_self]
    · rw [Fs.setMount, Fs.setInode_of_ne _ _ hne]
  have hdrop : (t.setMount m d).mapInode i Inode.drop = (t.mapInode i Inode.drop).setMount m d :=
    mapInode_comm (h := fun node => { node with mount := d }) fun _ => rfl
  have hfree : ∀ v : Fs, (v.setMount m d).mapInode i Inode.free = (v.mapInode i Inode.free).setMount m d := fun v =>
    mapInode_comm (h := fun node => { node with mount := d }) fun _ => rfl
  have hsub : sub32 ((t.setMount m d).inodeTable i).count 1 = sub32 (t.inodeTable i).count 1 :=
    congrArg (fun n => sub32 n 1) hcount
  rcases iput_eq_some.mp hrun with ⟨hmore, rfl⟩ | ⟨hlast, hi, rfl⟩
  · exact iput_eq_some.mpr (Or.inl ⟨fun hzero => hmore (hsub.symm.trans hzero), hdrop.symm⟩)
  · refine iput_eq_some.mpr (Or.inr ⟨hsub.trans hlast, hi, ?_⟩)
    rw [hdrop]
    exact (hfree (removeInode (t.mapInode i Inode.drop) i)).symm

/-- What `iput` leaves in the lists was there. -/
theorem iput_list (hrun : iput t i = some u) : ∀ k, ∀ j ∈ (u.superTable k).inodeList, j ∈ (t.superTable k).inodeList := by
  intro k j hj
  rw [iput] at hrun
  simp only at hrun
  split at hrun
  · obtain rfl := Option.some.inj hrun
    exact hj
  · obtain ⟨_, -, hrun⟩ := Option.bind_eq_some_iff.mp hrun
    obtain ⟨_, -, hrun⟩ := Option.bind_eq_some_iff.mp hrun
    obtain rfl := Option.some.inj hrun
    exact List.mem_of_mem_erase hj

end Stores

/-! ### A super block changes -/

section Change

variable {c : ℕ → ℕ} {s t u : Fs} {L L' : List ℕ} {i j k m r dev : ℕ}

/-- **Lists and pointers are the same**, and the devices with inodes in memory have their super blocks. -/
structure SuperChange (t u : Fs) : Prop where
  /-- The inode table. -/
  inodeTable : u.inodeTable = t.inodeTable
  /-- The devices with inodes in memory. -/
  same : ∀ j < inodeNr, (t.inodeTable j).count ≠ 0 →
    u.getSuper (t.inodeTable j).dev = t.getSuper (t.inodeTable j).dev
  /-- Lists and pointers. -/
  fields : ∀ k', (u.superTable k').inodeList = (t.superTable k').inodeList ∧
    (u.superTable k').iroot = (t.superTable k').iroot ∧ (u.superTable k').imount = (t.superTable k').imount
  /-- The inode table is in order. -/
  table : TableOk u
  /-- The lists are. -/
  listed : Listed u

theorem ReadSuper.change (h : ReadSuper t u dev k) : SuperChange t u :=
  ⟨h.inodeTable, h.same, h.fields, h.table, h.listed⟩

/-- `put_super` without the pointers. -/
def SuperBlock.put (sb : SuperBlock) : SuperBlock :=
  { sb with count := sb.count - 1, dev := if sb.count - 1 = 0 then EOF else sb.dev }

theorem SuperBlock.besideList_put : BesideList SuperBlock.put := fun _ _ => rfl

/-- **`put_super`** when the last reference has no pointers left to give back. -/
theorem putSuper_bare (hpos : 0 < (t.superTable k).count) (hbare : (t.superTable k).count = 1 →
      (t.superTable k).iroot = none ∧ (t.superTable k).imount = none) :
    putSuper t k = some (t.mapSuper k SuperBlock.put) := by
  rw [putSuper, assert_pos hpos]
  simp only [Option.bind_eq_bind, Option.bind_some, Fs.setSuper_self, Fs.setSuper_setSuper]
  by_cases hlast : (t.superTable k).count - 1 = 0
  · obtain ⟨hroot, hmount⟩ := hbare (by omega)
    rw [if_neg (not_not_intro hlast), hroot, hmount, Fs.mapSuper, SuperBlock.put, if_pos hlast, hroot, hmount]
    rfl
  · rw [if_pos hlast, Fs.mapSuper, SuperBlock.put, if_neg hlast]
    rfl

/-- That leaves the others alone when it gives up an entry whose list is empty. -/
theorem putSuper_change (hok : TableOk t) (hl : Listed t) (hunique : ∀ k' < superNr,
      (t.superTable k').dev = (t.superTable k).dev → (t.superTable k).dev ≠ EOF → k' = k)
    (hlist : (t.superTable k).count - 1 = 0 → (t.superTable k).inodeList = []) :
    SuperChange t (t.mapSuper k SuperBlock.put) := by
  have hfield : ∀ k', ((t.mapSuper k SuperBlock.put).superTable k').inodeList = (t.superTable k').inodeList ∧
      ((t.mapSuper k SuperBlock.put).superTable k').iroot = (t.superTable k').iroot ∧
      ((t.mapSuper k SuperBlock.put).superTable k').imount = (t.superTable k').imount := fun k' =>
    ⟨superTable_setSuper SuperBlock.inodeList (by rfl) k', superTable_setSuper SuperBlock.iroot (by rfl) k',
      superTable_setSuper SuperBlock.imount (by rfl) k'⟩
  have hok' : TableOk (t.mapSuper k SuperBlock.put) := hok.congr (fun _ => ⟨rfl, rfl⟩) fun k' => (hfield k').1
  by_cases hlast : (t.superTable k).count - 1 = 0
  · have hput : ((t.mapSuper k SuperBlock.put).superTable k).dev = EOF := by
      rw [Fs.mapSuper, Fs.setSuper_self]
      exact if_pos hlast
    -- the entry that becomes free is that of no inode in memory
    have hsame : ∀ j < inodeNr, (t.inodeTable j).count ≠ 0 →
        (t.mapSuper k SuperBlock.put).getSuper (t.inodeTable j).dev = t.getSuper (t.inodeTable j).dev := by
      intro j hj hused
      obtain ⟨k₀, hk₀, hmem⟩ := hl.mem j hj hused
      have hdev : (t.superTable k₀).dev = (t.inodeTable j).dev := Fs.dev_of_getSuper hk₀
      have hne : (t.inodeTable j).dev ≠ EOF := fun heq => hused ((hok.free_iff j hj).mp heq)
      have hother : (t.superTable k).dev ≠ (t.inodeTable j).dev := by
        intro heq
        obtain rfl := hunique k₀ (getSuper_lt hk₀) (hdev.trans heq.symm) (heq ▸ hne)
        rw [hlist hlast] at hmem
        exact List.not_mem_nil hmem
      rw [Fs.getSuper, Fs.getSuper]
      refine congrArg (fun p => List.find? p _) (funext fun k' => ?_)
      rcases eq_or_ne k' k with rfl | hk'
      · rw [hput, decide_eq_false (Ne.symm hne), decide_eq_false hother]
      · rw [Fs.mapSuper, Fs.setSuper_of_ne _ _ hk']
    refine ⟨rfl, hsame, hfield, hok', fun j hj hused => ?_, fun k' j hj => ?_, hl.unique⟩
    · obtain ⟨k', hk', hmem⟩ := hl.mem j hj hused
      exact ⟨k', (hsame j hj hused).trans hk', by rw [(hfield k').1]; exact hmem⟩
    · rw [(hfield k').1] at hj
      rcases eq_or_ne k' k with rfl | hne
      · rw [hlist hlast] at hj
        exact absurd hj List.not_mem_nil
      · rw [Fs.mapSuper, Fs.setSuper_of_ne _ _ hne]
        exact hl.dev_eq k' j hj
  · have hdev : ∀ k', ((t.mapSuper k SuperBlock.put).superTable k').dev = (t.superTable k').dev := fun k' => by
      refine superTable_setSuper SuperBlock.dev ?_ k'
      exact if_neg hlast
    refine ⟨rfl, fun j _ _ => ?_, hfield, hok', hl.congr (fun _ => ⟨rfl, rfl⟩) fun k' => ⟨hdev k', (hfield k').1⟩⟩
    rw [Fs.getSuper, Fs.getSuper]
    exact congrArg (fun p => List.find? p _) (funext fun k' => by rw [hdev k'])

/-! ### The pointers -/

/-- **The pointers of the super blocks and the marks of the mount points** go together. -/
structure MountTable (s : Fs) : Prop where
  /-- A mounted device has its root directory, -/
  root : ∀ k < superNr, (s.superTable k).imount ≠ none →
    ∃ r, (s.superTable k).iroot = some r ∧ s.nodeOf r = ((s.superTable k).dev, 1)
  /-- and one that is not mounted has none. -/
  bare : ∀ k < superNr, (s.superTable k).imount = none → (s.superTable k).iroot = none
  /-- One device is mounted on a directory. -/
  points : ∀ k < superNr, ∀ k' < superNr, ∀ m, (s.superTable k).imount = some m →
    (s.superTable k').imount = some m → k = k'
  /-- What has the mark is a mount point. -/
  marks : ∀ j, (s.inodeTable j).mount ≠ 0 → ∃ k < superNr, (s.superTable k).imount = some j

/-- The pointers and the marks are the same, and so is what they point to. -/
theorem MountTable.congr (h : MountTable t) (hpoint : ∀ k, (u.superTable k).iroot = (t.superTable k).iroot ∧
      (u.superTable k).imount = (t.superTable k).imount)
    (hdev : ∀ k < superNr, (t.superTable k).imount ≠ none → (u.superTable k).dev = (t.superTable k).dev)
    (hnode : ∀ k < superNr, ∀ r, (t.superTable k).iroot = some r → u.nodeOf r = t.nodeOf r)
    (hmount : ∀ j, (u.inodeTable j).mount = (t.inodeTable j).mount) : MountTable u := by
  refine ⟨fun k hk hm => ?_, fun k hk hm => ?_, fun k hk k' hk' m hm hm' => ?_, fun j hj => ?_⟩
  · rw [(hpoint k).2] at hm
    obtain ⟨r, hr, hroot⟩ := h.root k hk hm
    exact ⟨r, (hpoint k).1.trans hr, by rw [hnode k hk r hr, hdev k hk hm, hroot]⟩
  · rw [(hpoint k).2] at hm
    exact (hpoint k).1.trans (h.bare k hk hm)
  · rw [(hpoint k).2] at hm
    rw [(hpoint k').2] at hm'
    exact h.points k hk k' hk' m hm hm'
  · rw [hmount] at hj
    obtain ⟨k, hk, hm⟩ := h.marks j hj
    exact ⟨k, hk, (hpoint k).2.trans hm⟩

theorem MountTable.change (h : MountTable t) (hchange : SuperChange t u)
    (hdev : ∀ k < superNr, (t.superTable k).imount ≠ none → (u.superTable k).dev = (t.superTable k).dev) :
    MountTable u := by
  refine h.congr (fun k => (hchange.fields k).2) hdev (fun _ _ _ _ => ?_) fun j => ?_
  · rw [Fs.nodeOf, Fs.nodeOf, hchange.inodeTable]
  · rw [hchange.inodeTable]

/-- **A walk moves no pointer.** -/
theorem MountTable.same (h : MountTable t) (hpin : Pinned c s) (hold : Holding c s t L) (hold' : Holding c s u L')
    (hsame : SameMounts t u) : MountTable u := by
  refine h.congr (fun k => ⟨hsame.iroot k, hsame.imount k⟩) (fun k _ _ => hsame.dev k) (fun k hk r hr => ?_) hsame.mount
  have hpinned := (hpin.iroot k hk r ((hold.iroot k).symm.trans hr)).2
  exact congrArg (fun p => (p.1, p.2.1)) ((hold'.kept r hpinned).trans (hold.kept r hpinned).symm)

theorem OnlyTimes.sameMounts (h : OnlyTimes t u) : SameMounts t u :=
  ⟨fun k => by rw [h.superTable], fun j => congrArg (fun p => p.2.2.2.2) (h.node j).1, h.task⟩

/-- **A property of the super blocks and the mounts** is kept by a walk, like the counts and the lists. -/
theorem carried_mounts (hpin : Pinned c s) {P : Fs → Prop} (hP : ∀ {t u L L'}, Holding c s t L → Holding c s u L' →
      SameMounts t u → P t → P u) : Carried c s fun t L => Holding c s t L ∧ Listed t ∧ P t := by
  have hlisted := carried_listed hpin
  refine ⟨fun h => h.1, fun h hperm => ⟨h.1.perm hperm, h.2⟩, fun h hsame => ?_, fun h hroom hrun => ?_,
    fun h hroom hdev hrun => ?_, fun h hroom hlt hc => ?_⟩
  · obtain ⟨hold, hl⟩ := hlisted.congr ⟨h.1, h.2.1⟩ hsame
    exact ⟨hold, hl, hP h.1 hold hsame.sameMounts h.2.2⟩
  · obtain ⟨hold, hl⟩ := hlisted.iput ⟨h.1, h.2.1⟩ hroom hrun
    exact ⟨hold, hl, hP h.1 hold (SameMounts.iput hrun) h.2.2⟩
  · obtain ⟨hold, hl⟩ := hlisted.iget ⟨h.1, h.2.1⟩ hroom hdev hrun
    exact ⟨hold, hl, hP h.1 hold (SameMounts.iget hrun) h.2.2⟩
  · obtain ⟨hold, hl⟩ := hlisted.addCount ⟨h.1, h.2.1⟩ hroom hlt hc
    exact ⟨hold, hl, hP h.1 hold (SameMounts.addCount _ _) h.2.2⟩

/-- The mark of a mount point is no part of what an inode is. -/
theorem nodeOf_setMount (t : Fs) (m d j : ℕ) : (t.setMount m d).nodeOf j = t.nodeOf j := by
  rcases eq_or_ne j m with rfl | hne
  · rw [Fs.nodeOf, Fs.setMount, Fs.setInode_self]
    rfl
  · rw [Fs.nodeOf, Fs.setMount, Fs.setInode_of_ne _ _ hne]
    rfl

/-- **The stores of `sys_mount`.** -/
theorem MountTable.mounted (h : MountTable t) (hk : k < superNr) (hnone : (t.superTable k).imount = none)
    (hnode : t.nodeOf r = ((t.superTable k).dev, 1)) (hfree : ∀ k' < superNr, (t.superTable k').imount ≠ some j) (dev : ℕ) :
    MountTable (Onixs.mounted t k r j dev) := by
  have hself : (Onixs.mounted t k r j dev).superTable k = { t.superTable k with iroot := some r, imount := some j } := by
    rw [Onixs.mounted, Fs.setMount, Fs.setInode_superTable, Fs.setImount, Fs.setSuper_self, Fs.setIroot, Fs.setSuper_self]
  have hother : ∀ k', k' ≠ k → (Onixs.mounted t k r j dev).superTable k' = t.superTable k' := fun k' hne => by
    rw [Onixs.mounted, Fs.setMount, Fs.setInode_superTable, Fs.setImount, Fs.setSuper_of_ne _ _ hne, Fs.setIroot,
      Fs.setSuper_of_ne _ _ hne]
  have hnodes : ∀ x, (Onixs.mounted t k r j dev).nodeOf x = t.nodeOf x := fun x => nodeOf_setMount _ j dev x
  refine ⟨fun k' hk' hm => ?_, fun k' hk' hm => ?_, fun k₁ h₁ k₂ h₂ x hx₁ hx₂ => ?_, fun x hx => ?_⟩
  · rcases eq_or_ne k' k with rfl | hne
    · refine ⟨r, by rw [hself], ?_⟩
      rw [hnodes, hself]
      exact hnode
    · rw [hother k' hne] at hm ⊢
      obtain ⟨r', hr', hroot⟩ := h.root k' hk' hm
      exact ⟨r', hr', (hnodes r').trans hroot⟩
  · rcases eq_or_ne k' k with rfl | hne
    · rw [hself] at hm
      exact absurd hm (Option.some_ne_none j)
    · rw [hother k' hne] at hm ⊢
      exact h.bare k' hk' hm
  · rcases eq_or_ne k₁ k with rfl | hne₁
    · rcases eq_or_ne k₂ k₁ with rfl | hne₂
      · rfl
      · rw [hself] at hx₁
        rw [hother k₂ hne₂, ← hx₁] at hx₂
        exact absurd hx₂ (hfree k₂ h₂)
    · rw [hother k₁ hne₁] at hx₁
      rcases eq_or_ne k₂ k with rfl | hne₂
      · rw [hself] at hx₂
        rw [← hx₂] at hx₁
        exact absurd hx₁ (hfree k₁ h₁)
      · rw [hother k₂ hne₂] at hx₂
        exact h.points k₁ h₁ k₂ h₂ x hx₁ hx₂
  · rcases eq_or_ne x j with rfl | hne
    · exact ⟨k, hk, by rw [hself]⟩
    · rw [Onixs.mounted, Fs.setMount, Fs.setInode_of_ne _ _ hne] at hx
      obtain ⟨k', hk', hm⟩ := h.marks x hx
      refine ⟨k', hk', ?_⟩
      rw [hother k' fun heq => by rw [heq, hnone] at hm; exact absurd hm (by simp)]
      exact hm

/-- What `sys_umount` stores before it gives up the super block. -/
def unmounted (t : Fs) (k m : ℕ) : Fs := ((t.setIroot k none).setMount m 0).setImount k none

theorem unmounted_self (t : Fs) (k m : ℕ) :
    (unmounted t k m).superTable k = { t.superTable k with iroot := none, imount := none } := by
  rw [unmounted, Fs.setImount, Fs.setSuper_self, Fs.setMount, Fs.setInode_superTable, Fs.setIroot, Fs.setSuper_self]

theorem unmounted_of_ne (t : Fs) (m : ℕ) {k' : ℕ} (h : k' ≠ k) :
    (unmounted t k m).superTable k' = t.superTable k' := by
  rw [unmounted, Fs.setImount, Fs.setSuper_of_ne _ _ h, Fs.setMount, Fs.setInode_superTable, Fs.setIroot,
    Fs.setSuper_of_ne _ _ h]

theorem unmounted_nodeOf (t : Fs) (k m x : ℕ) : (unmounted t k m).nodeOf x = t.nodeOf x :=
  nodeOf_setMount (t.setIroot k none) m 0 x

theorem unmounted_count (t : Fs) (k m x : ℕ) : ((unmounted t k m).inodeTable x).count = (t.inodeTable x).count := by
  change (((t.setIroot k none).setMount m 0).inodeTable x).count = _
  rcases eq_or_ne x m with rfl | hne
  · rw [Fs.setMount, Fs.setInode_self]
    rfl
  · rw [Fs.setMount, Fs.setInode_of_ne _ _ hne]
    rfl

theorem unmounted_super (t : Fs) (k m k' : ℕ) : ((unmounted t k m).superTable k').dev = (t.superTable k').dev ∧
    ((unmounted t k m).superTable k').inodeList = (t.superTable k').inodeList ∧
    ((unmounted t k m).superTable k').count = (t.superTable k').count := by
  rcases eq_or_ne k' k with rfl | hne
  · rw [unmounted_self]
    exact ⟨rfl, rfl, rfl⟩
  · rw [unmounted_of_ne t m hne]
    exact ⟨rfl, rfl, rfl⟩

/-- **The stores of `sys_umount`.** -/
theorem MountTable.unmounted (h : MountTable t) (hm : (t.superTable k).imount = some m) : MountTable (Onixs.unmounted t k m) := by
  refine ⟨fun k' hk' hm' => ?_, fun k' hk' hm' => ?_, fun k₁ h₁ k₂ h₂ x hx₁ hx₂ => ?_, fun x hx => ?_⟩
  · rcases eq_or_ne k' k with rfl | hne
    · rw [unmounted_self] at hm'
      exact absurd rfl hm'
    · rw [unmounted_of_ne t m hne] at hm' ⊢
      obtain ⟨r, hr, hroot⟩ := h.root k' hk' hm'
      exact ⟨r, hr, (unmounted_nodeOf t k m r).trans hroot⟩
  · rcases eq_or_ne k' k with rfl | hne
    · rw [unmounted_self]
    · rw [unmounted_of_ne t m hne] at hm' ⊢
      exact h.bare k' hk' hm'
  · rcases eq_or_ne k₁ k with rfl | hne₁
    · rw [unmounted_self] at hx₁
      exact absurd hx₁ (by simp)
    · rcases eq_or_ne k₂ k with rfl | hne₂
      · rw [unmounted_self] at hx₂
        exact absurd hx₂ (by simp)
      · rw [unmounted_of_ne t m hne₁] at hx₁
        rw [unmounted_of_ne t m hne₂] at hx₂
        exact h.points k₁ h₁ k₂ h₂ x hx₁ hx₂
  · have hne : x ≠ m := by
      rintro rfl
      refine hx ?_
      change (((t.setIroot k none).setMount x 0).inodeTable x).mount = 0
      rw [Fs.setMount, Fs.setInode_self]
    have hx' : (t.inodeTable x).mount ≠ 0 := by
      have hsame : ((Onixs.unmounted t k m).inodeTable x).mount = (t.inodeTable x).mount := by
        change (((t.setIroot k none).setMount m 0).inodeTable x).mount = _
        rw [Fs.setMount, Fs.setInode_of_ne _ _ hne]
        rfl
      rwa [hsame] at hx
    obtain ⟨k', hk', hpoint⟩ := h.marks x hx'
    refine ⟨k', hk', ?_⟩
    rw [unmounted_of_ne t m fun heq => by
      rw [heq, hm] at hpoint
      exact hne (Option.some.inj hpoint).symm]
    exact hpoint

/-- **The stores of `sys_umount` may be made first**, and the super block given up last. -/
theorem umount_stores {t₁ t₂ t₃ : Fs} (hr : iput t r = some t₁) (hm : iput ((t₁.setIroot k none).setMount m 0) m = some t₂)
    (hput : putSuper (t₂.setImount k none) k = some t₃) (hi : iput t₃ i = some u) :
    ∃ v₁ v₂ v₃, iput (unmounted t k m) r = some v₁ ∧ iput v₁ m = some v₂ ∧ iput v₂ i = some v₃ ∧
      u = v₃.mapSuper k SuperBlock.put := by
  have hroot : iput (t.setIroot k none) r = some (t₁.setIroot k none) :=
    iput_mapSuper (g := fun sb => { sb with iroot := none }) (fun _ _ => rfl) hr
  have hpoint : ∀ {v w : Fs} {j : ℕ}, iput v j = some w → iput (v.setImount k none) j = some (w.setImount k none) :=
    iput_mapSuper (g := fun sb => { sb with imount := none }) fun _ _ => rfl
  have h₁ : iput (unmounted t k m) r = some (((t₁.setIroot k none).setMount m 0).setImount k none) :=
    hpoint (iput_setMount hroot)
  have h₂ := hpoint hm
  have hnone : ((t₂.setImount k none).superTable k).iroot = none := by
    have hsame := (SameMounts.iput hm).iroot k
    rw [Fs.setImount, Fs.setSuper_self]
    refine hsame.trans ?_
    rw [Fs.setMount, Fs.setInode_superTable, Fs.setIroot, Fs.setSuper_self]
  have hbare := putSuper_bare (putSuper_states hput).1 fun _ =>
    ⟨hnone, by rw [Fs.setImount, Fs.setSuper_self]⟩
  obtain rfl := Option.some.inj (hput.symm.trans hbare)
  obtain ⟨v₃, hv₃, rfl⟩ := exists_iput_of_mapSuper SuperBlock.besideList_put hi
  exact ⟨_, _, v₃, h₁, h₂, hv₃, rfl⟩

end Change

end Onixs
