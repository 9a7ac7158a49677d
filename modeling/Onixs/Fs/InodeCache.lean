import Onixs.Fs.MountPoint
import Onixs.Fs.SuperTable

/-!
# The inode cache

`iget` and `iput` by one task, after any mounts. A state is the file system with the
references that have been handed out, the two of `mount_root` among them. Each call is
described by what it does to the table (`Onixs.CacheInv`); from that the slots, the lists of
the devices, the counts and the descriptors are read off (`Onixs.CacheExact`) for every run.

A count is a `uint32`. When the references to an inode have become 2 ^ 32 the slot looks free,
which is the one condition the runs are subject to (`Onixs.HandOp.Counts`).
-/

namespace Onixs

/-- The file system, and the entry of the inode table behind each reference that is out. -/
structure InodeCache where
  /-- The file system. -/
  fs : Fs
  /-- The references. -/
  refs : List ℕ

/-- What is called. -/
inductive HandOp where
  /-- `read_super`, when a device is mounted. -/
  | readSuper (dev : ℕ)
  /-- `iget`. -/
  | iget (dev nr : ℕ)
  /-- `iput`. -/
  | iput (i : ℕ)

/-- A call, and the references afterwards. -/
def handStep (s : InodeCache) : HandOp → Option (Unit × InodeCache)
  | .readSuper dev => (readSuper s.fs dev).map fun p => ((), ⟨p.2, s.refs⟩)
  | .iget dev nr => (iget s.fs dev nr).map fun p => ((), ⟨p.2, p.1 :: s.refs⟩)
  | .iput i => (iput s.fs i).map fun t => ((), ⟨t, s.refs.erase i⟩)

/-- The devices are devices, inode numbers start at 1, and what is given back has been handed out. -/
def HandOp.Legal (s : InodeCache) : HandOp → Prop
  | .readSuper dev => dev ≠ EOF
  | .iget dev nr => dev ≠ EOF ∧ 1 ≤ nr
  | .iput i => i ∈ s.refs

/-- There is room for another reference in every counter. -/
def HandOp.Counts (s : InodeCache) : HandOp → Prop
  | .iget _ _ => ∀ i, s.refs.count i + 1 < 4294967296
  | _ => True

/-! ### What a call keeps -/

/-- **The table between two calls.** -/
structure CacheInv (s : InodeCache) : Prop where
  /-- The entries in use are those with a count. -/
  table : TableOk s.fs
  /-- They are loaded, and in the lists of their devices. -/
  loaded : s.fs.Loaded
  /-- No device has two super blocks. -/
  supers : ∀ k < superNr, ∀ k' < superNr, (s.fs.superTable k).dev = (s.fs.superTable k').dev →
    (s.fs.superTable k).dev ≠ EOF → k = k'
  /-- The counts are the references, -/
  count : ∀ j, (s.fs.inodeTable j).count = s.refs.count j
  /-- to entries of the table, -/
  lt : ∀ i ∈ s.refs, i < inodeNr
  /-- and fit. -/
  small : ∀ j, s.refs.count j < 4294967296
  /-- Nothing is mounted on an inode. -/
  plain : ∀ j, (s.fs.inodeTable j).mount = 0

section Cache

variable {s : InodeCache} {t u : Fs} {L : List ℕ} {dev nr i k r : ℕ}

/-- All references are held on top of none. -/
theorem CacheInv.holding (h : CacheInv ⟨t, L⟩) : Holding (fun _ => 0) t t L where
  ok := h.table
  count j := (h.count j).trans (Nat.zero_add _).symm
  lt := h.lt
  kept _ hj := absurd rfl hj
  supers _ := rfl

/-- A super block changes, but not the device it is for. -/
theorem CacheInv.setSuper (h : CacheInv ⟨t, L⟩) {sb : SuperBlock} (hdev : sb.dev = (t.superTable k).dev)
    (hlist : sb.inodeList = (t.superTable k).inodeList) : CacheInv ⟨t.setSuper k sb, L⟩ := by
  have hdevs := superTable_setSuper SuperBlock.dev (t := t) hdev
  have hlists := superTable_setSuper SuperBlock.inodeList (t := t) hlist
  have hlisted : Listed (t.setSuper k sb) :=
    h.loaded.listed.congr (fun _ => ⟨rfl, rfl⟩) fun k' => ⟨hdevs k', hlists k'⟩
  refine ⟨h.table.congr (fun _ => ⟨rfl, rfl⟩) hlists, ?_, fun k₁ h₁ k₂ h₂ heq hne => ?_, h.count, h.lt, h.small,
    h.plain⟩
  · exact ⟨hlisted.mem, hlisted.dev_eq, fun j hj hj' => (h.loaded.holds j hj hj').congr rfl rfl, hlisted.unique⟩
  · simp only [hdevs] at heq hne
    exact h.supers k₁ h₁ k₂ h₂ heq hne

/-- **`read_super`** leaves the inodes alone. -/
theorem CacheInv.readSuper (h : CacheInv ⟨t, L⟩) (hrun : readSuper t dev = some (k, u)) : CacheInv ⟨u, L⟩ := by
  obtain ⟨hknown, hfresh⟩ := @readSuper_cases t dev h.table h.loaded.listed
  cases hk : t.getSuper dev with
  | some k₀ =>
    obtain ⟨rfl, rfl⟩ := Prod.mk.inj (Option.some.inj ((hknown k₀ hk).symm.trans hrun))
    exact h.setSuper rfl rfl
  | none =>
    obtain ⟨-, -, hread⟩ := (hfresh hk).1 k u hrun
    refine ⟨hread.table, ?_, ?_, fun j => ?_, h.lt, h.small, fun j => ?_⟩
    · refine ⟨hread.listed.mem, hread.listed.dev_eq, fun j hj hj' => ?_, hread.listed.unique⟩
      simp only [hread.inodeTable] at hj' ⊢
      exact (h.loaded.holds j hj hj').congr hread.blk (by rw [hread.inodeTable])
    · -- the device had no entry before
      have hone : ∀ k' < superNr, k' ≠ k → (u.superTable k').dev = (t.superTable k').dev ∧
          (u.superTable k').dev ≠ dev := by
        intro k' hk' hne
        have hstates : u.states k' = t.states k' := by
          rcases readSuper_states hrun with ⟨hc, -⟩ | ⟨-, -, heq⟩
          · rw [hk] at hc
            exact absurd hc (by simp)
          · rw [heq, Function.update_of_ne hne]
        have hsame : (u.superTable k').dev = (t.superTable k').dev := congrArg Prod.fst hstates
        refine ⟨hsame, fun heq => ?_⟩
        rw [hsame] at heq
        exact List.find?_eq_none.mp hk k' (List.mem_range.mpr hk') (decide_eq_true heq)
      have hself : (u.superTable k).dev = dev := Fs.dev_of_getSuper hread.getSuper
      intro k₁ h₁ k₂ h₂ heq hne
      rcases eq_or_ne k₁ k with rfl | hne₁
      · rcases eq_or_ne k₂ k₁ with rfl | hne₂
        · rfl
        · exact absurd (heq.symm.trans hself) (hone k₂ h₂ hne₂).2
      · rcases eq_or_ne k₂ k with rfl | hne₂
        · exact absurd (heq.trans hself) (hone k₁ h₁ hne₁).2
        · simp only [(hone k₁ h₁ hne₁).1, (hone k₂ h₂ hne₂).1] at heq hne
          exact h.supers k₁ h₁ k₂ h₂ heq hne
    · simp only [hread.inodeTable]
      exact h.count j
    · simp only [hread.inodeTable]
      exact h.plain j

/-- **`iget`** finds the inode in memory, or loads it. -/
theorem CacheInv.iget_cases (h : CacheInv ⟨t, L⟩) (hrun : iget t dev nr = some (r, u)) :
    (r < inodeNr ∧ (t.inodeTable r).count ≠ 0 ∧ t.nodeOf r = (dev, nr) ∧
        u = t.setInode r { t.inodeTable r with count := u32 ((t.inodeTable r).count + 1), atime := t.time }) ∨
      ((∀ j < inodeNr, (t.inodeTable j).count ≠ 0 → t.nodeOf j ≠ (dev, nr)) ∧ getFreeInode t = some r ∧
        nr ≤ (t.superDesc dev).inodes ∧ ∃ k, t.getSuper dev = some k ∧ u = withFresh t k r dev nr) := by
  obtain ⟨found, hfind, hrun'⟩ := Option.bind_eq_some_iff.mp hrun
  cases found with
  | some i =>
    obtain ⟨k, hk, hmem, hnr⟩ := findInode_some hfind
    obtain ⟨hlt, hused⟩ := h.table.used k i hmem
    have hdev : (t.inodeTable i).dev = dev := (h.loaded.dev_eq k i hmem).trans (Fs.dev_of_getSuper hk)
    have hmount : ((t.setInode i { t.inodeTable i with
        count := u32 ((t.inodeTable i).count + 1), atime := t.time }).inodeTable i).mount = 0 := by
      rw [Fs.setInode_self]
      exact h.plain i
    simp only [fitInode, if_pos hmount] at hrun'
    obtain ⟨rfl, rfl⟩ := Prod.mk.inj (Option.some.inj hrun')
    exact Or.inl ⟨hlt, hused, Prod.ext hdev hnr, rfl⟩
  | none =>
    obtain ⟨k, hk, hrest⟩ := Option.bind_eq_some_iff.mp hrun'
    obtain ⟨_, hle, hrest⟩ := Option.bind_eq_some_iff.mp hrest
    rw [iget_fresh hfind hk (assert_eq_some.mp hle)] at hrun
    obtain ⟨i, hfree, heq⟩ := Option.map_eq_some_iff.mp hrun
    obtain ⟨rfl, rfl⟩ := Prod.mk.inj heq
    refine Or.inr ⟨fun j hj hused hnode => ?_, hfree, assert_eq_some.mp hle, k, hk, rfl⟩
    exact h.loaded.listed.absent hfind hk j hj hused hnode

/-- **`iget`** hands out one reference. -/
theorem CacheInv.iget (h : CacheInv ⟨t, L⟩) (hdev : dev ≠ EOF) (hnr : 1 ≤ nr)
    (hroom : ∀ j, L.count j + 1 < 4294967296) (hrun : iget t dev nr = some (r, u)) : CacheInv ⟨u, r :: L⟩ := by
  have hsmall : ∀ j, (r :: L).count j < 4294967296 := fun j => by
    rw [List.count_cons]
    split
    · exact hroom j
    · exact Nat.lt_of_succ_lt (hroom j)
  rcases h.iget_cases hrun with ⟨hlt, hused, -, rfl⟩ | ⟨habs, hfree, hle, k, hk, rfl⟩
  · have hcount : u32 ((t.inodeTable r).count + 1) = (t.inodeTable r).count + 1 := by
      rw [h.count]
      exact u32_of_lt (hroom r)
    have hold : Holding _ _ (t.setInode r { t.inodeTable r with
        count := u32 ((t.inodeTable r).count + 1), atime := t.time }) _ :=
      h.holding.retain hlt hused rfl hcount
    refine ⟨hold.ok, h.loaded.retain hused rfl, h.supers, fun j => (hold.count j).trans (Nat.zero_add _), hold.lt,
      hsmall, fun j => ?_⟩
    rcases eq_or_ne j r with rfl | hne
    · rw [Fs.setInode_self]
      exact h.plain j
    · rw [Fs.setInode_of_ne _ _ hne]
      exact h.plain j
  · have hold : Holding _ _ (withFresh t k r dev nr) _ := h.holding.fresh hdev hfree
    have hdevs : ∀ k', ((withFresh t k r dev nr).superTable k').dev = (t.superTable k').dev := fun k' =>
      congrArg Prod.fst (withFresh_super t k r dev nr k')
    refine ⟨hold.ok, h.loaded.fresh h.table hk hnr hle hfree habs, fun k₁ h₁ k₂ h₂ heq hne => ?_,
      fun j => (hold.count j).trans (Nat.zero_add _), hold.lt, hsmall, fun j => ?_⟩
    · simp only [hdevs] at heq hne
      exact h.supers k₁ h₁ k₂ h₂ heq hne
    · rcases eq_or_ne j r with rfl | hne
      · rw [withFresh_self]
        exact h.plain j
      · rw [withFresh_of_ne _ _ _ _ hne]
        exact h.plain j

/-- **`iput`** takes one back. -/
theorem CacheInv.iput (h : CacheInv ⟨t, L⟩) (hi : i ∈ L) (hrun : iput t i = some u) :
    CacheInv ⟨u, L.erase i⟩ := by
  have hold := h.holding.perm (List.perm_cons_erase hi)
  have hlt : (t.inodeTable i).count < 4294967296 := by
    rw [h.count]
    exact h.small i
  have hold' := hold.iput_of_lt hlt hrun
  have hsmall : ∀ j, (L.erase i).count j < 4294967296 := fun j =>
    Nat.lt_of_le_of_lt (List.erase_sublist.count_le j) (h.small j)
  have hcount : ∀ j, (u.inodeTable j).count = (L.erase i).count j := fun j =>
    (hold'.count j).trans (Nat.zero_add _)
  rcases iput_eq_cases hold.count_pos hlt hrun with ⟨-, rfl⟩ | ⟨-, rfl⟩
  · refine ⟨hold'.ok, h.loaded.retain hold.count_pos rfl, h.supers, hcount, hold'.lt, hsmall, fun j => ?_⟩
    rcases eq_or_ne j i with rfl | hne
    · rw [Fs.setInode_self]
      exact h.plain j
    · rw [Fs.setInode_of_ne _ _ hne]
      exact h.plain j
  · refine ⟨hold'.ok, h.loaded.release h.table rfl, h.supers, hcount, hold'.lt, hsmall, fun j => ?_⟩
    rcases eq_or_ne j i with rfl | hne
    · rw [Fs.setInode_self]
      exact h.plain j
    · rw [Fs.setInode_of_ne _ _ hne]
      exact h.plain j

/-- **Each call keeps the table.** -/
theorem CacheInv.step {s' : InodeCache} {op : HandOp} {r : Unit} (h : CacheInv s) (hlegal : op.Legal s)
    (hcounts : op.Counts s) (hstep : handStep s op = some (r, s')) : CacheInv s' := by
  cases op with
  | readSuper dev =>
    obtain ⟨⟨k, u⟩, hread, heq⟩ := Option.map_eq_some_iff.mp hstep
    obtain ⟨-, rfl⟩ := Prod.mk.inj heq
    exact h.readSuper hread
  | iget dev nr =>
    obtain ⟨⟨k, u⟩, hget, heq⟩ := Option.map_eq_some_iff.mp hstep
    obtain ⟨-, rfl⟩ := Prod.mk.inj heq
    exact h.iget hlegal.1 hlegal.2 hcounts hget
  | iput i =>
    obtain ⟨u, hput, heq⟩ := Option.map_eq_some_iff.mp hstep
    obtain ⟨-, rfl⟩ := Prod.mk.inj heq
    exact h.iput hlegal hput

end Cache

/-! ### What holds between two calls -/

/-- **The inode cache is exact**: slots, lists, counts and descriptors fit together. -/
structure CacheExact (s : InodeCache) : Prop where
  /-- An inode has one slot. -/
  unique : ∀ i < inodeNr, ∀ j < inodeNr, (s.fs.inodeTable i).dev ≠ EOF →
    (s.fs.inodeTable i).dev = (s.fs.inodeTable j).dev → (s.fs.inodeTable i).nr = (s.fs.inodeTable j).nr → i = j
  /-- A slot is in use when it has a count. -/
  used_iff : ∀ i < inodeNr, (s.fs.inodeTable i).dev ≠ EOF ↔ 0 < (s.fs.inodeTable i).count
  /-- It is in the list of its device then, once, and in no other. -/
  listed : ∀ i < inodeNr, 0 < (s.fs.inodeTable i).count →
    ∃ k, s.fs.getSuper (s.fs.inodeTable i).dev = some k ∧
      ∀ k' < superNr, (s.fs.superTable k').inodeList.count i = if k' = k then 1 else 0
  /-- The count is the number of references. -/
  count : ∀ i < inodeNr, (s.fs.inodeTable i).count = s.refs.count i
  /-- The descriptor is the entry of the inode in the inode blocks. -/
  desc : ∀ i < inodeNr, 0 < (s.fs.inodeTable i).count →
    (s.fs.inodeTable i).buf = 2 + (s.fs.superDesc (s.fs.inodeTable i).dev).imapBlocks +
        (s.fs.superDesc (s.fs.inodeTable i).dev).zmapBlocks + ((s.fs.inodeTable i).nr - 1) / blockInodes ∧
      (s.fs.inodeTable i).desc = ((s.fs.inodeTable i).nr - 1) % blockInodes * 32
  /-- Different inodes of a device have different descriptors. -/
  apart : ∀ i < inodeNr, ∀ j < inodeNr, 0 < (s.fs.inodeTable i).count → 0 < (s.fs.inodeTable j).count →
    (s.fs.inodeTable i).dev = (s.fs.inodeTable j).dev → (s.fs.inodeTable i).nr ≠ (s.fs.inodeTable j).nr →
    ((s.fs.inodeTable i).buf, (s.fs.inodeTable i).desc) ≠ ((s.fs.inodeTable j).buf, (s.fs.inodeTable j).desc)

/-- **The invariant says it all.** -/
theorem CacheInv.exact {s : InodeCache} (h : CacheInv s) : CacheExact s := by
  have hused : ∀ i < inodeNr, (s.fs.inodeTable i).dev ≠ EOF ↔ 0 < (s.fs.inodeTable i).count := fun i hi => by
    rw [Nat.pos_iff_ne_zero]
    exact not_congr (h.table.free_iff i hi)
  have hnr : ∀ i < inodeNr, 0 < (s.fs.inodeTable i).count →
      1 ≤ (s.fs.inodeTable i).nr ∧ (s.fs.inodeTable i).nr < 65536 := fun i hi hpos => by
    have hholds := h.loaded.holds i hi hpos.ne'
    exact ⟨hholds.pos, Nat.lt_of_le_of_lt hholds.le (Bytes.getU16_lt _ _)⟩
  have hdesc : ∀ i < inodeNr, 0 < (s.fs.inodeTable i).count →
      (s.fs.inodeTable i).buf = 2 + (s.fs.superDesc (s.fs.inodeTable i).dev).imapBlocks +
          (s.fs.superDesc (s.fs.inodeTable i).dev).zmapBlocks + ((s.fs.inodeTable i).nr - 1) / blockInodes ∧
        (s.fs.inodeTable i).desc = ((s.fs.inodeTable i).nr - 1) % blockInodes * 32 := by
    intro i hi hpos
    have hholds := h.loaded.holds i hi hpos.ne'
    obtain ⟨hone, hlt⟩ := hnr i hi hpos
    rw [hholds.buf, hholds.desc, inodeBlock_eq hone hlt, inodeOffset_eq hone hlt, blockInodes_eq]
    exact ⟨rfl, rfl⟩
  refine ⟨fun i hi j hj hne hdev heq => ?_, hused, fun i hi hpos => ?_, fun i _ => h.count i, hdesc,
    fun i hi j hj hpos hpos' hdev hne heq => ?_⟩
  · have hpos := (hused i hi).mp hne
    have hpos' := (hused j hj).mp (hdev ▸ hne)
    exact h.loaded.unique i hi j hj hpos.ne' hpos'.ne' (Prod.ext hdev heq)
  · obtain ⟨k, hk, hmem⟩ := h.loaded.mem i hi hpos.ne'
    refine ⟨k, hk, fun k' hk' => ?_⟩
    split
    next heq =>
      rw [heq]
      exact List.count_eq_one_of_mem (h.table.nodup k) hmem
    next hne =>
      refine List.count_eq_zero.mpr fun hmem' => hne ?_
      have hdev := h.loaded.dev_eq k' i hmem'
      refine h.supers k' hk' k (getSuper_lt hk) ?_ ?_
      · rw [← hdev, Fs.dev_of_getSuper hk]
      · rw [← hdev]
        exact (hused i hi).mpr hpos
  · obtain ⟨hbuf, hoff⟩ := Prod.mk.inj heq
    obtain ⟨hb, ho⟩ := hdesc i hi hpos
    obtain ⟨hb', ho'⟩ := hdesc j hj hpos'
    rw [hdev] at hb
    rw [hb, hb'] at hbuf
    rw [ho, ho'] at hoff
    have h1 := hnr i hi hpos
    have h2 := hnr j hj hpos'
    rw [blockInodes_eq] at hbuf hoff
    omega

/-! ### From boot on -/

/-- `inode_init`. -/
def inodeInit (s : Fs) : Fs := { s with inodeTable := fun i => { s.inodeTable i with dev := EOF } }

/-- **At boot** the root directory has two references. The inode table is static, and thus clear. -/
theorem cacheInv_superInit {s₀ s : Fs} {dev : ℕ} (hzero : ∀ i, (s₀.inodeTable i).count = 0 ∧ (s₀.inodeTable i).mount = 0)
    (hdev : dev ≠ EOF) (hboot : superInit (inodeInit s₀) dev = some s) : CacheInv ⟨s, [0, 0]⟩ := by
  have hstart : CacheInv ⟨{ inodeInit s₀ with superTable := fun k =>
      { (inodeInit s₀).superTable k with dev := EOF, inodeList := [], iroot := none, imount := none } }, []⟩ := by
    refine ⟨⟨fun i _ => ⟨fun _ => (hzero i).1, fun _ => rfl⟩, fun _ _ hi => absurd hi List.not_mem_nil,
      fun _ => List.nodup_nil⟩, ⟨fun i _ hc => absurd (hzero i).1 hc, fun _ _ hi => absurd hi List.not_mem_nil,
      fun i _ hc => absurd (hzero i).1 hc, fun i _ _ _ hc => absurd (hzero i).1 hc⟩, fun _ _ _ _ _ hne => absurd rfl hne,
      fun i => (hzero i).1, by simp, by simp, fun i => (hzero i).2⟩
  obtain ⟨⟨k, u⟩, hread, hrun⟩ := Option.bind_eq_some_iff.mp hboot
  obtain ⟨⟨r, v⟩, hget, hrun⟩ := Option.bind_eq_some_iff.mp hrun
  obtain ⟨⟨r', w⟩, hget', hrun⟩ := Option.bind_eq_some_iff.mp hrun
  obtain rfl := Option.some.inj hrun
  have hu := hstart.readSuper hread
  -- the first entry is free
  have hr : r = 0 ∧ v.nodeOf 0 = (dev, 1) := by
    rcases hu.iget_cases hget with ⟨-, hused, -⟩ | ⟨-, hfree, -, k', -, rfl⟩
    · exact absurd (hu.count r) hused
    · have hzero' : (u.inodeTable 0).dev = EOF := (hu.table.free_iff 0 (by decide)).mpr (hu.count 0)
      have hfirst : getFreeInode u = some 0 := by
        rw [getFreeInode, show inodeNr = 63 + 1 from rfl, List.range_succ_eq_map]
        exact List.find?_cons_of_pos (decide_eq_true hzero')
      obtain rfl := Option.some.inj (hfree.symm.trans hfirst)
      refine ⟨rfl, ?_⟩
      rw [Fs.nodeOf, withFresh_self]
      rfl
  obtain ⟨rfl, hnode⟩ := hr
  have hv : CacheInv ⟨v.setSuper k { v.superTable k with iroot := some 0 }, _⟩ :=
    (hu.iget hdev (Nat.le_refl 1) (by simp) hget).setSuper rfl rfl
  -- and has the inode the second time
  have hr' : r' = 0 := by
    rcases hv.iget_cases hget' with ⟨-, hused, -⟩ | ⟨habs, -⟩
    · by_contra hne
      refine hused ((hv.count r').trans ?_)
      exact List.count_eq_zero.mpr fun hmem => hne (List.mem_singleton.mp hmem)
    · refine absurd hnode (habs 0 (by decide) ?_)
      rw [hv.count]
      exact Nat.one_ne_zero
  obtain rfl := hr'
  refine (hv.iget hdev (Nat.le_refl 1) (fun j => ?_) hget').setSuper rfl rfl
  have hle : [0].count j ≤ 1 := List.count_le_length
  omega

/-- **The inode cache is exact in every state** that a run of mounts, `iget`s and `iput`s leads to, as long
as the references to an inode can be counted. -/
theorem inodeCache_exact {s₀ s : Fs} {dev : ℕ} {ops : List HandOp} {t : InodeCache}
    (hzero : ∀ i, (s₀.inodeTable i).count = 0 ∧ (s₀.inodeTable i).mount = 0) (hdev : dev ≠ EOF)
    (hboot : superInit (inodeInit s₀) dev = some s) (hlegal : Run.Along handStep (fun u op => op.Legal u) ⟨s, [0, 0]⟩ ops)
    (hcounts : Run.Along handStep (fun u op => op.Counts u) ⟨s, [0, 0]⟩ ops)
    (hrun : Run.exec handStep ⟨s, [0, 0]⟩ ops = some t) : CacheExact t :=
  (Run.inv_of_exec CacheInv (fun _ _ _ _ h hc hstep => h.step hc.1 hc.2 hstep) ops _ t
    (cacheInv_superInit hzero hdev hboot) (hlegal.and hcounts) hrun).exact

/-! ### Two runs -/

/-- The root directory is handed out to a task. -/
theorem inodeCache_exact_root : ∃ t, Run.exec handStep ⟨startedFs (fun _ _ => 0#8) 2, [0, 0]⟩ [.iget 1 1, .iput 0] = some t ∧
    CacheExact t := by
  have hboot : superInit (inodeInit (coldFs fun _ _ => 0#8)) 1 = some (startedFs (fun _ _ => 0#8) 2) :=
    startedFs_superInit _
  have hrun : (Run.exec handStep ⟨startedFs (fun _ _ => 0#8) 2, [0, 0]⟩ [.iget 1 1, .iput 0]).isSome = true := by
    decide
  obtain ⟨t, hexec⟩ := Option.isSome_iff_exists.mp hrun
  refine ⟨t, hexec, inodeCache_exact (fun _ => ⟨rfl, rfl⟩) (by decide) hboot ?_ ?_ hexec⟩
  · refine ⟨⟨by decide, by decide⟩, fun r u hstep => ⟨?_, fun _ _ _ => trivial⟩⟩
    rw [handStep] at hstep
    obtain ⟨⟨i, v⟩, hget, heq⟩ := Option.map_eq_some_iff.mp hstep
    obtain ⟨-, rfl⟩ := Prod.mk.inj heq
    exact List.mem_cons_of_mem _ List.mem_cons_self
  · refine ⟨fun i => ?_, fun r u hstep => ⟨trivial, fun _ _ _ => trivial⟩⟩
    have hle : [0, 0].count i ≤ 2 := List.count_le_length
    change [0, 0].count i + 1 < 4294967296
    omega

theorem startedFs_iget_again (d : ℕ → Bytes) (count : ℕ) :
    iget (startedFs d count) 1 1 = some (0, startedFs d (u32 (count + 1))) := by
  have hfind : findInode (startedFs d count) 1 1 = some (some 0) := by rfl
  rw [iget, hfind]
  simp only [Option.bind_eq_bind, Option.bind_some, startedFs, Fs.setInode_setInode, Fs.setInode_self]
  rfl

/-- `n` references more to the root directory. -/
theorem startedFs_igets (d : ℕ → Bytes) : ∀ n count refs,
    Run.exec handStep ⟨startedFs d count, refs⟩ (List.replicate n (.iget 1 1))
      = some ⟨startedFs d (if n = 0 then count else u32 (count + n)), List.replicate n 0 ++ refs⟩
  | 0, count, refs => rfl
  | n + 1, count, refs => by
    rw [List.replicate_succ, Run.exec, handStep, startedFs_iget_again]
    rw [Option.map_some, Option.bind_some, startedFs_igets d n, if_neg (Nat.succ_ne_zero n)]
    refine congrArg some ?_
    have hcount : (if n = 0 then u32 (count + 1) else u32 (u32 (count + 1) + n)) = u32 (count + (n + 1)) := by
      rcases eq_or_ne n 0 with rfl | hne
      · rfl
      · rw [if_neg hne, u32, u32, u32]
        omega
    rw [hcount, List.replicate_succ', List.append_assoc]
    rfl

/-- **Too many references**: the count of the root directory is 0 again when it has been handed out often
enough, and the references are still there. -/
theorem inodeCache_wraps : ∃ s t, superInit (inodeInit (coldFs fun _ _ => 0#8)) 1 = some s ∧
    Run.exec handStep ⟨s, [0, 0]⟩ (List.replicate 4294967294 (.iget 1 1)) = some t ∧ ¬CacheExact t := by
  refine ⟨_, _, startedFs_superInit _, startedFs_igets _ _ _ _, fun hexact => ?_⟩
  have hcount := hexact.count 0 (by decide)
  rw [List.count_append, List.count_replicate_self] at hcount
  exact absurd hcount (by decide)

end Onixs
