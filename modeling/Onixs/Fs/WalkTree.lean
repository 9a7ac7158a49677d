import Onixs.Common.Ends
import Onixs.Fs.Super
import Onixs.Fs.Tree

/-!
# A walk follows the tree

`namei` in a well-formed forest. The state of a walk is `Onixs.Walking s t L`: the blocks and
the mounts are those of the state `s` in which the walk began, every entry of the inode
table in use is a loaded inode, and the references on top of those of `s` are the list `L`.
Each function of `fs/namei.c` on the way gets a lemma that says to which node of
`Onixs.Fs.forest` it leads; it stops only when the inode table is full
(`Onixs.Ends`).
-/

namespace Onixs

open Bytes

/-! ### Inodes in memory -/

/-- **Entries of the inode table in use** are in the list of their device, and no inode has two. -/
structure Listed (s : Fs) : Prop where
  /-- The list of the device has the entry, -/
  mem : ∀ i < inodeNr, (s.inodeTable i).count ≠ 0 →
    ∃ k, s.getSuper (s.inodeTable i).dev = some k ∧ i ∈ (s.superTable k).inodeList
  /-- and no other device has. -/
  dev_eq : ∀ k, ∀ i ∈ (s.superTable k).inodeList, (s.inodeTable i).dev = (s.superTable k).dev
  /-- An inode is in memory once. -/
  unique : ∀ i < inodeNr, ∀ j < inodeNr, (s.inodeTable i).count ≠ 0 → (s.inodeTable j).count ≠ 0 →
    s.nodeOf i = s.nodeOf j → i = j

theorem Fs.Loaded.listed {s : Fs} (h : s.Loaded) : Listed s := ⟨h.mem, h.dev_eq, h.unique⟩

section Loaded

variable {t u : Fs} {i k dev nr : ℕ}

theorem Fs.Holds.congr {dev nr i : ℕ} (h : t.Holds dev nr i) (hblk : u.blk = t.blk)
    (hident : (u.inodeTable i).ident = (t.inodeTable i).ident) : u.Holds dev nr i := by
  have hdesc : u.superDesc dev = t.superDesc dev := by rw [Fs.superDesc, Fs.superDesc, hblk]
  refine ⟨h.pos, hdesc ▸ h.le, (congrArg Prod.fst hident).trans h.dev_eq,
    (congrArg (fun p => p.2.1) hident).trans h.nr_eq, ?_, ?_⟩
  · rw [hdesc]
    exact (congrArg (fun p => p.2.2.1) hident).trans h.buf
  · exact (congrArg (fun p => p.2.2.2.1) hident).trans h.desc

/-- An entry changes, but not what it is nor whether it is in use. -/
theorem Listed.setInode (h : Listed t) {node : Inode} (hident : node.ident = (t.inodeTable i).ident)
    (hused : node.count ≠ 0 → (t.inodeTable i).count ≠ 0) : Listed (t.setInode i node) := by
  have hid : ∀ j, ((t.setInode i node).inodeTable j).ident = (t.inodeTable j).ident := by
    intro j
    rcases eq_or_ne j i with rfl | hne
    · rw [Fs.setInode_self]
      exact hident
    · rw [Fs.setInode_of_ne _ _ hne]
  have hold : ∀ j, ((t.setInode i node).inodeTable j).count ≠ 0 → (t.inodeTable j).count ≠ 0 := by
    intro j hj
    rcases eq_or_ne j i with rfl | hne
    · rw [Fs.setInode_self] at hj
      exact hused hj
    · rwa [Fs.setInode_of_ne _ _ hne] at hj
  have hdev : ∀ j, ((t.setInode i node).inodeTable j).dev = (t.inodeTable j).dev := fun j =>
    congrArg Prod.fst (hid j)
  have hnr : ∀ j, ((t.setInode i node).inodeTable j).nr = (t.inodeTable j).nr := fun j =>
    congrArg (fun p => p.2.1) (hid j)
  refine ⟨fun j hj hj' => ?_, fun k j hj => (hdev j).trans (h.dev_eq k j hj),
    fun j hj j' hj' hc hc' heq => h.unique j hj j' hj' (hold j hc) (hold j' hc') ?_⟩
  · rw [hdev]
    exact h.mem j hj (hold j hj')
  · simpa only [Fs.nodeOf, hdev, hnr] using heq

/-- An entry in use gets another count, other than zero, or other times. -/
theorem Fs.Loaded.retain (h : t.Loaded) (hused : (t.inodeTable i).count ≠ 0) {node : Inode}
    (hident : node.ident = (t.inodeTable i).ident) : (t.setInode i node).Loaded := by
  have hlisted := h.listed.setInode hident fun _ => hused
  refine ⟨hlisted.mem, hlisted.dev_eq, fun j hj hj' => ?_, hlisted.unique⟩
  rcases eq_or_ne j i with rfl | hne
  · rw [Fs.setInode_self] at hj' ⊢
    rw [show node.dev = (t.inodeTable j).dev from congrArg Prod.fst hident,
      show node.nr = (t.inodeTable j).nr from congrArg (fun p => p.2.1) hident]
    exact (h.holds j hj hused).congr rfl (by rw [Fs.setInode_self, hident])
  · rw [Fs.setInode_of_ne _ _ hne] at hj' ⊢
    exact (h.holds j hj hj').congr rfl (by rw [Fs.setInode_of_ne _ _ hne])

theorem putFreeInode_eq (hi : i ≠ 0) (h0 : (t.inodeTable i).count = 0) :
    putFreeInode t i = some (t.setInode i { t.inodeTable i with dev := EOF }) := by
  rw [putFreeInode, assert_pos hi, assert_pos h0]
  rfl

/-- `iput` as its two cases: the last reference or not. -/
theorem iput_cases (hpos : (t.inodeTable i).count ≠ 0) (hsmall : (t.inodeTable i).count < 4294967296)
    (hbottom : i = 0 → (t.inodeTable i).count ≠ 1) :
    ∃ u, iput t i = some u ∧
      (((t.inodeTable i).count ≠ 1 ∧
          u = t.setInode i { t.inodeTable i with count := (t.inodeTable i).count - 1 }) ∨
        ((t.inodeTable i).count = 1 ∧
          u = (removeInode t i).setInode i { t.inodeTable i with count := 0, dev := EOF })) := by
  have hsub : sub32 (t.inodeTable i).count 1 = (t.inodeTable i).count - 1 :=
    sub32_of_le hsmall (by omega)
  rw [iput, hsub]
  simp only [Fs.setInode_self]
  by_cases hlast : (t.inodeTable i).count = 1
  · have hi : i ≠ 0 := fun hi => hbottom hi hlast
    refine ⟨_, ?_, Or.inr ⟨hlast, rfl⟩⟩
    have h0 : (t.inodeTable i).count - 1 = 0 := by omega
    rw [if_neg (not_not_intro h0), h0]
    refine (putFreeInode_eq hi (by simp [removeInode])).trans (congrArg some ?_)
    simp only [removeInode, Fs.setInode_self]
    exact Fs.setInode_setInode (removeInode t i) i _ _
  · exact ⟨_, if_pos (by omega), Or.inl ⟨hlast, rfl⟩⟩

/-- **Giving an entry up** leaves the others where they are. -/
theorem Listed.release (h : Listed t) (hok : TableOk t) {node : Inode} (h0 : node.count = 0) :
    Listed ((removeInode t i).setInode i node) := by
  have hother : ∀ j, (((removeInode t i).setInode i node).inodeTable j).count ≠ 0 → j ≠ i ∧
      ((removeInode t i).setInode i node).inodeTable j = t.inodeTable j := by
    intro j hj
    rcases eq_or_ne j i with rfl | hne
    · rw [Fs.setInode_self] at hj
      exact absurd h0 hj
    · exact ⟨hne, Fs.setInode_of_ne _ _ hne⟩
  refine ⟨fun j hj hj' => ?_, fun k j hj => ?_, fun j hj j' hj' hc hc' heq => ?_⟩
  · obtain ⟨hne, heq⟩ := hother j hj'
    rw [heq] at hj' ⊢
    obtain ⟨k, hk, hmem⟩ := h.mem j hj hj'
    exact ⟨k, hk, (mem_removeInode hok.nodup).mpr ⟨hne, hmem⟩⟩
  · obtain ⟨hne, hmem⟩ := (mem_removeInode hok.nodup).mp hj
    rw [Fs.setInode_of_ne _ _ hne]
    exact h.dev_eq k j hmem
  · obtain ⟨-, heq₁⟩ := hother j hc
    obtain ⟨-, heq₂⟩ := hother j' hc'
    rw [heq₁] at hc
    rw [heq₂] at hc'
    refine h.unique j hj j' hj' hc hc' ?_
    simpa only [Fs.nodeOf, heq₁, heq₂] using heq

/-- **Giving an entry up** leaves the others loaded. -/
theorem Fs.Loaded.release (h : t.Loaded) (hok : TableOk t) {node : Inode} (h0 : node.count = 0) :
    ((removeInode t i).setInode i node).Loaded := by
  have hlisted := h.listed.release (i := i) hok h0
  refine ⟨hlisted.mem, hlisted.dev_eq, fun j hj hj' => ?_, hlisted.unique⟩
  rcases eq_or_ne j i with rfl | hne
  · rw [Fs.setInode_self] at hj'
    exact absurd h0 hj'
  · rw [Fs.setInode_of_ne _ _ hne] at hj' ⊢
    exact (h.holds j hj hj').congr rfl (by rw [Fs.setInode_of_ne _ _ hne]; rfl)

end Loaded

/-! ### The state of a walk -/

/-- The counts of the inode table. -/
def Fs.counts (s : Fs) (j : ℕ) : ℕ := (s.inodeTable j).count

/-- **A walk that began in `s`** and holds the inodes of `L`. -/
structure Walking (s t : Fs) (L : List ℕ) : Prop where
  /-- The references. -/
  holding : Holding s.counts s t L
  /-- The inodes in memory. -/
  loaded : t.Loaded
  /-- The blocks are the same. -/
  blk : t.blk = s.blk
  /-- The task is the same. -/
  task : t.task = s.task
  /-- The mounts are the same. -/
  mount : ∀ j, (t.inodeTable j).mount = (s.inodeTable j).mount

section Walking

variable {s t u : Fs} {L : List ℕ} {i k m dir dev nr : ℕ}

theorem Walking.start (h : s.WellFormed) : Walking s s [] :=
  ⟨Holding.refl h.table, h.loaded, rfl, rfl, fun _ => rfl⟩

theorem Walking.perm {L' : List ℕ} (h : Walking s t L) (hperm : L.Perm L') : Walking s t L' :=
  ⟨h.holding.perm hperm, h.loaded, h.blk, h.task, h.mount⟩

theorem Walking.superDesc (h : Walking s t L) (dev : ℕ) : t.superDesc dev = s.superDesc dev := by
  rw [Fs.superDesc, Fs.superDesc, h.blk]

theorem Walking.descOf (h : Walking s t L) (dev nr : ℕ) : t.descOf dev nr = s.descOf dev nr := by
  rw [Fs.descOf, Fs.descOf, h.superDesc, h.blk]

/-- What is pinned is in memory what it was. -/
theorem Walking.nodeOf (h : Walking s t L) (hi : (s.inodeTable i).count ≠ 0) :
    t.nodeOf i = s.nodeOf i := by
  have hident := h.holding.kept i hi
  exact congrArg (fun p => (p.1, p.2.1)) hident

/-- An inode in use has its descriptor in its block. -/
theorem Walking.inodeDesc (h : Walking s t L) (hlt : i < inodeNr) (hused : (t.inodeTable i).count ≠ 0) :
    t.inodeDesc i = s.descOf (t.nodeOf i).1 (t.nodeOf i).2 := by
  have hh := h.loaded.holds i hlt hused
  rw [← h.descOf, Fs.inodeDesc, Fs.descOf, hh.buf, hh.desc]
  rfl

theorem Walking.held (h : Walking s t (i :: L)) : i < inodeNr ∧ (t.inodeTable i).count ≠ 0 :=
  ⟨h.holding.lt i List.mem_cons_self, h.holding.count_pos⟩

/-- An inode in use is a node. -/
theorem Walking.isNode (h : Walking s t L) (hlt : i < inodeNr) (hused : (t.inodeTable i).count ≠ 0) :
    s.IsNode (t.nodeOf i) := by
  obtain ⟨k, hk, -⟩ := h.loaded.mem i hlt hused
  have hh := h.loaded.holds i hlt hused
  refine ⟨fun hc => hused ((h.holding.ok.free_iff i hlt).mp hc), ⟨k, ?_⟩, hh.pos, ?_⟩
  · rw [← h.holding.getSuper]
    exact hk
  · rw [← h.superDesc]
    exact hh.le

/-- **`iput`** succeeds. -/
theorem Walking.iput (hwf : s.WellFormed) (hroom : Room s.counts (L.length + 1))
    (h : Walking s t (i :: L)) : ∃ u, iput t i = some u ∧ Walking s u L := by
  obtain ⟨hlt, hused⟩ := h.held
  have hsmall : (t.inodeTable i).count < 4294967296 := by
    have hi := hroom i hlt
    have hle : List.count i (i :: L) ≤ L.length + 1 := List.count_le_length
    rw [h.holding.count]
    omega
  have hbottom : i = 0 → (t.inodeTable i).count ≠ 1 := by
    rintro rfl hc
    have hpos : s.counts 0 ≠ 0 := hwf.bottom
    rw [h.holding.count, List.count_cons_self] at hc
    omega
  obtain ⟨u, hput, hu⟩ := iput_cases hused hsmall hbottom
  have hold := h.holding.iput hroom hput
  rcases hu with ⟨-, rfl⟩ | ⟨-, rfl⟩
  · refine ⟨_, hput, hold, h.loaded.retain hused rfl, h.blk, h.task, fun j => ?_⟩
    rw [← h.mount j]
    rcases eq_or_ne j i with rfl | hne
    · rw [Fs.setInode_self]
    · rw [Fs.setInode_of_ne _ _ hne]
  · refine ⟨_, hput, hold, h.loaded.release h.holding.ok rfl, h.blk, h.task, fun j => ?_⟩
    rw [← h.mount j]
    rcases eq_or_ne j i with rfl | hne
    · rw [Fs.setInode_self]
    · rw [Fs.setInode_of_ne _ _ hne]
      rfl

/-- One reference more to an inode in use. -/
theorem Walking.retain (hroom : Room s.counts (L.length + 1)) (h : Walking s t L) (hlt : i < inodeNr)
    (hused : (t.inodeTable i).count ≠ 0) (v : ℕ) : Walking s (t.setInode i { t.inodeTable i with
      count := u32 ((t.inodeTable i).count + 1), atime := v }) (i :: L) := by
  refine ⟨h.holding.retain hlt hused rfl (u32_of_lt (h.holding.room hroom hlt)),
    h.loaded.retain hused rfl, h.blk, h.task, fun j => ?_⟩
  rw [← h.mount j]
  rcases eq_or_ne j i with rfl | hne
  · rw [Fs.setInode_self]
  · rw [Fs.setInode_of_ne _ _ hne]

theorem Walking.addCount (hroom : Room s.counts (L.length + 1)) (h : Walking s t L) (hlt : i < inodeNr)
    (hused : (t.inodeTable i).count ≠ 0) : Walking s (t.addCount i) (i :: L) :=
  h.retain hroom hlt hused (t.inodeTable i).atime

theorem nodeOf_setInode {node : Inode} (hident : node.ident = (t.inodeTable i).ident) (j : ℕ) :
    (t.setInode i node).nodeOf j = t.nodeOf j := by
  rcases eq_or_ne j i with rfl | hne
  · rw [Fs.nodeOf, Fs.setInode_self]
    exact congrArg (fun p => (p.1, p.2.1)) hident
  · rw [Fs.nodeOf, Fs.setInode_of_ne _ _ hne]
    rfl

/-! ### Mount points -/

/-- A mount point is in use, and the root mounted on it. -/
theorem mount_used (hwf : s.WellFormed) (hlt : i < inodeNr) (hm : (s.inodeTable i).mount ≠ 0) :
    (s.inodeTable i).count ≠ 0 := by
  obtain ⟨k, r, hk, himount, -, -⟩ := hwf.mounts i hlt hm
  exact (hwf.pinned.imount k (getSuper_lt hk) i himount).2

/-- **The entry of a mount point** is the one entry in use for its node. -/
theorem mountEntry_of_node (hwf : s.WellFormed) (h : Walking s t L) (hlt : i < inodeNr)
    (hused : (t.inodeTable i).count ≠ 0) :
    s.mountEntry (t.nodeOf i) = if (t.inodeTable i).mount = 0 then none else some i := by
  have hsame : ∀ j < inodeNr, (s.inodeTable j).mount ≠ 0 ∧ s.nodeOf j = t.nodeOf i → j = i := by
    rintro j hj ⟨hm, hnode⟩
    have hjs := mount_used hwf hj hm
    refine h.loaded.unique j hj i hlt (h.holding.used_of_pinned hjs) hused ?_
    rw [h.nodeOf hjs, hnode]
  rw [Fs.mountEntry]
  by_cases hm : (t.inodeTable i).mount = 0
  · rw [if_pos hm]
    refine List.find?_eq_none.mpr fun j hj => ?_
    rw [decide_eq_true_eq]
    intro hc
    obtain rfl := hsame j (List.mem_range.mp hj) hc
    exact hc.1 ((h.mount j).symm.trans hm)
  · rw [if_neg hm]
    have hms : (s.inodeTable i).mount ≠ 0 := fun hc => hm ((h.mount i).trans hc)
    have hself : (s.inodeTable i).mount ≠ 0 ∧ s.nodeOf i = t.nodeOf i :=
      ⟨hms, (h.nodeOf (mount_used hwf hlt hms)).symm⟩
    cases hfind : (List.range inodeNr).find? fun j =>
        decide ((s.inodeTable j).mount ≠ 0 ∧ s.nodeOf j = t.nodeOf i) with
    | none =>
      have := List.find?_eq_none.mp hfind i (List.mem_range.mpr hlt)
      exact absurd (decide_eq_true hself) this
    | some j =>
      have hj := List.find?_some hfind
      rw [decide_eq_true_eq] at hj
      exact congrArg some (hsame j (List.mem_range.mp (List.mem_of_find?_eq_some hfind)) hj)

/-- A node that is not in memory is no mount point. -/
theorem mountEntry_of_absent (hwf : s.WellFormed) (h : Walking s t L) {n : ℕ × ℕ}
    (habs : ∀ i < inodeNr, (t.inodeTable i).count ≠ 0 → t.nodeOf i ≠ n) : s.mountEntry n = none := by
  refine List.find?_eq_none.mpr fun j hj => ?_
  rw [decide_eq_true_eq]
  rintro ⟨hm, hnode⟩
  have hlt := List.mem_range.mp hj
  have hjs := mount_used hwf hlt hm
  exact habs j hlt (h.holding.used_of_pinned hjs) ((h.nodeOf hjs).trans hnode)

/-- **`fit_inode`** leads to the root mounted on the inode. -/
theorem Walking.fitInode (hwf : s.WellFormed) (hroom : Room s.counts (L.length + 1))
    (h : Walking s t (i :: L)) : ∃ r u, fitInode t i = some (r, u) ∧ Walking s u (r :: L) ∧
      u.nodeOf r = s.forest.down (t.nodeOf i) := by
  obtain ⟨hlt, hused⟩ := h.held
  have hentry := mountEntry_of_node hwf h hlt hused
  by_cases hm : (t.inodeTable i).mount = 0
  · refine ⟨i, t, if_pos hm, h, ?_⟩
    rw [if_pos hm] at hentry
    rw [Fs.forest_down, hentry]
    rfl
  · rw [if_neg hm] at hentry
    have hms : (s.inodeTable i).mount ≠ 0 := fun hc => hm ((h.mount i).trans hc)
    obtain ⟨k, r, hk, -, hroot, hnode⟩ := hwf.mounts i hlt hms
    obtain ⟨u, hput, hu⟩ := h.iput hwf hroom
    obtain ⟨hrlt, hrs⟩ := hwf.pinned.iroot k (getSuper_lt hk) r hroot
    have hru := hu.holding.used_of_pinned hrs
    refine ⟨r, u.addCount r, ?_, hu.addCount hroom hrlt hru, ?_⟩
    · rw [Onixs.fitInode, if_neg hm, h.mount i, h.holding.getSuper, hk]
      simp only [Option.bind_eq_bind, Option.bind_some, hput, hu.holding.iroot, hroot]
      rfl
    · rw [Fs.forest_down, hentry, Fs.addCount, nodeOf_setInode (by rfl), hu.nodeOf hrs, hnode]
      rfl

/-! ### Taking an inode -/

/-- With two free entries, a walk that holds one inode leaves one free. -/
theorem getFreeInode_of_two (hwf : s.WellFormed) (h : Walking s t L) (hlen : L.length ≤ 1)
    (hnone : getFreeInode t = none) : ¬s.TwoFree := by
  rintro ⟨a, ha, b, hb, hne, hda, hdb⟩
  have hmem : ∀ x < inodeNr, (s.inodeTable x).dev = EOF → x ∈ L := by
    intro x hx hdev
    have hs0 : s.counts x = 0 := (hwf.table.free_iff x hx).mp hdev
    have hfull := List.find?_eq_none.mp hnone x (List.mem_range.mpr hx)
    rw [decide_eq_true_eq, h.holding.ok.free_iff x hx, h.holding.count, hs0, Nat.zero_add] at hfull
    exact List.count_pos_iff.mp (Nat.pos_of_ne_zero hfull)
  obtain ⟨y, rfl⟩ : ∃ y, L = [y] := by
    refine List.length_eq_one_iff.mp (Nat.le_antisymm hlen ?_)
    exact List.length_pos_of_mem (hmem a ha hda)
  exact hne ((List.mem_singleton.mp (hmem a ha hda)).trans (List.mem_singleton.mp (hmem b hb hdb)).symm)

/-- **A fresh entry** joins the list of its device. -/
theorem Listed.fresh (h : Listed t) (hok : TableOk t) (hk : t.getSuper dev = some k)
    (hfree : getFreeInode t = some i)
    (habs : ∀ j < inodeNr, (t.inodeTable j).count ≠ 0 → t.nodeOf j ≠ (dev, nr)) :
    Listed (withFresh t k i dev nr) := by
  obtain ⟨hlt, hdev⟩ := getFreeInode_some hfree
  have h0 := (hok.free_iff i hlt).mp hdev
  have hout : ∀ k', i ∉ (t.superTable k').inodeList := fun k' hmem => (hok.used k' i hmem).2 h0
  have hself := withFresh_self t k i dev nr
  have hother : ∀ {j}, j ≠ i → (withFresh t k i dev nr).inodeTable j = t.inodeTable j := fun hne =>
    withFresh_of_ne t k dev nr hne
  have hsuper : ∀ k', ((withFresh t k i dev nr).superTable k').dev = (t.superTable k').dev := fun k' =>
    congrArg Prod.fst (withFresh_super t k i dev nr k')
  have hget : ∀ d, (withFresh t k i dev nr).getSuper d = t.getSuper d := by
    intro d
    rw [Fs.getSuper, Fs.getSuper]
    exact congrArg (fun p => List.find? p _) (funext fun k' => by rw [hsuper])
  refine ⟨fun j hj hj' => ?_, fun k' j hj => ?_, fun j hj j' hj' hc hc' heq => ?_⟩
  · rcases eq_or_ne j i with rfl | hne
    · rw [hself]
      exact ⟨k, (hget dev).trans hk, mem_withFresh.mpr (Or.inl ⟨rfl, rfl⟩)⟩
    · rw [hother hne] at hj' ⊢
      obtain ⟨k', hk', hmem⟩ := h.mem j hj hj'
      exact ⟨k', (hget _).trans hk', mem_withFresh.mpr (Or.inr hmem)⟩
  · rw [hsuper]
    rcases mem_withFresh.mp hj with ⟨rfl, rfl⟩ | hmem
    · rw [hself]
      exact (Fs.dev_of_getSuper hk).symm
    · rw [hother fun heq => hout k' (heq ▸ hmem)]
      exact h.dev_eq k' j hmem
  · rw [Fs.nodeOf, Fs.nodeOf] at heq
    rcases eq_or_ne j i with rfl | hne
    · rcases eq_or_ne j' j with rfl | hne'
      · rfl
      · rw [hother hne'] at hc' heq
        rw [hself] at heq
        exact absurd heq.symm (habs j' hj' hc')
    · rw [hother hne] at hc heq
      rcases eq_or_ne j' i with rfl | hne'
      · rw [hself] at heq
        exact absurd heq (habs j hj hc)
      · rw [hother hne'] at hc' heq
        exact h.unique j hj j' hj' hc hc' heq

/-- **A freshly loaded inode** joins the inodes in memory. -/
theorem Fs.Loaded.fresh (h : t.Loaded) (hok : TableOk t) (hk : t.getSuper dev = some k)
    (hpos : 1 ≤ nr) (hle : nr ≤ (t.superDesc dev).inodes) (hfree : getFreeInode t = some i)
    (habs : ∀ j < inodeNr, (t.inodeTable j).count ≠ 0 → t.nodeOf j ≠ (dev, nr)) :
    (withFresh t k i dev nr).Loaded := by
  have hlisted := h.listed.fresh hok hk hfree habs
  refine ⟨hlisted.mem, hlisted.dev_eq, fun j hj hj' => ?_, hlisted.unique⟩
  rcases eq_or_ne j i with rfl | hne
  · have hself := withFresh_self t k j dev nr
    have hd : ((withFresh t k j dev nr).inodeTable j).dev = dev := by rw [hself]; rfl
    have hn : ((withFresh t k j dev nr).inodeTable j).nr = nr := by rw [hself]; rfl
    rw [hd, hn]
    exact ⟨hpos, hle, hd, hn, by rw [hself]; rfl, by rw [hself]; rfl⟩
  · have hother := withFresh_of_ne t k dev nr hne
    rw [hother] at hj' ⊢
    exact (h.holds j hj hj').congr rfl (congrArg Inode.ident hother)

/-- **`iget` leads to the node, or to the root mounted on it.** -/
theorem Walking.iget (hwf : s.WellFormed) (hroom : Room s.counts (L.length + 1)) (h : Walking s t L)
    (hlen : L.length ≤ 1) (hn : s.IsNode (dev, nr)) :
    Ends (¬s.TwoFree) (iget t dev nr) fun p =>
      Walking s p.2 (p.1 :: L) ∧ p.2.nodeOf p.1 = s.forest.down (dev, nr) := by
  obtain ⟨hdev, ⟨k, hk⟩, hpos, hle⟩ := hn
  have hkt : t.getSuper dev = some k := (h.holding.getSuper dev).trans hk
  have hfindInode : findInode t dev nr
      = some ((t.superTable k).inodeList.find? fun i => (t.inodeTable i).nr = nr) := by
    rw [findInode, hkt]
    rfl
  cases hfind : (t.superTable k).inodeList.find? fun i => (t.inodeTable i).nr = nr with
  | some i =>
    rw [hfind] at hfindInode
    have hmem := List.mem_of_find?_eq_some hfind
    have hnr : (t.inodeTable i).nr = nr := by simpa using List.find?_some hfind
    have hidev : (t.inodeTable i).dev = dev := (h.loaded.dev_eq k i hmem).trans (Fs.dev_of_getSuper hkt)
    obtain ⟨hlt, hused⟩ := h.holding.ok.used k i hmem
    obtain ⟨r, u, hfit, hu, hnode⟩ := (h.retain hroom hlt hused t.time).fitInode hwf hroom
    refine Or.inr ⟨(r, u), ?_, hu, ?_⟩
    · rw [Onixs.iget, hfindInode]
      exact hfit
    · rw [hnode, nodeOf_setInode (by rfl), Fs.nodeOf, hidev, hnr]
  | none =>
    rw [hfind] at hfindInode
    have habs : ∀ j < inodeNr, (t.inodeTable j).count ≠ 0 → t.nodeOf j ≠ (dev, nr) := by
      intro j hj hused heq
      obtain ⟨k', hk', hmem⟩ := h.loaded.mem j hj hused
      rw [show (t.inodeTable j).dev = dev from congrArg Prod.fst heq, hkt] at hk'
      obtain rfl := Option.some.inj hk'
      have := List.find?_eq_none.mp hfind j hmem
      exact this (decide_eq_true (congrArg Prod.snd heq))
    have hle' : nr ≤ (t.superDesc dev).inodes := by rwa [h.superDesc]
    rw [iget_fresh hfindInode hkt hle']
    cases hfree : getFreeInode t with
    | none => exact Ends.none (getFreeInode_of_two hwf h hlen hfree)
    | some i =>
      have hrun : Onixs.iget t dev nr = some (i, withFresh t k i dev nr) := by
        rw [iget_fresh hfindInode hkt hle', hfree]
        rfl
      refine Ends.some ⟨⟨h.holding.iget hwf.pinned hroom hdev hrun,
        h.loaded.fresh h.holding.ok hkt hpos hle' hfree habs, h.blk, h.task, fun j => ?_⟩, ?_⟩
      · rw [← h.mount j]
        rcases eq_or_ne j i with rfl | hne
        · show ((withFresh t k j dev nr).inodeTable j).mount = _
          rw [withFresh, Fs.setInode_self]
          rfl
        · show ((withFresh t k i dev nr).inodeTable j).mount = _
          rw [withFresh, Fs.setInode_of_ne _ _ hne]
          rfl
      · have hself : (withFresh t k i dev nr).inodeTable i = freshInode t i dev nr :=
          Fs.setInode_self _ _ _
        rw [Fs.forest_down, mountEntry_of_absent hwf h habs, Fs.nodeOf]
        exact Prod.ext (congrArg Inode.dev hself) (congrArg Inode.nr hself)

end Walking

end Onixs
