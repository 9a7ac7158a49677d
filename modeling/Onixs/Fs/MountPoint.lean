import Onixs.Fs.MountErrors

/-!
# Mounting a device

When `sys_mount` does one of the two things it should: to return 0 with the root of the device
where a look-up finds the directory (`Onixs.MountedOn`), or to return `EOF` and change
nothing. The path of a directory that is not there leads to the use of a null pointer, as
the test behind the look-up is one of the path; `read_super` stops at a device without a
file system; and a device with the number 0 counts as none (`Onixs.mount_meets_iff`).
-/

namespace Onixs

section Tables

variable {c : ℕ → ℕ} {s t u : Fs} {L : List ℕ} {i j k dev : ℕ} {sb : SuperBlock}

theorem Holding.setSuper (h : Holding c s t L) (hlist : sb.inodeList = (t.superTable k).inodeList)
    (hident : sb.ident = (t.superTable k).ident) : Holding c s (t.setSuper k sb) L where
  ok := h.ok.congr (fun _ => ⟨rfl, rfl⟩) (superTable_setSuper SuperBlock.inodeList hlist)
  count := h.count
  lt := h.lt
  kept := h.kept
  supers k' := (superTable_setSuper SuperBlock.ident hident k').trans (h.supers k')

/-- **`iget` of an inode in memory with a device mounted on it** gives the root of the device. -/
theorem iget_mounted {r : ℕ} (hok : TableOk t) (hl : Listed t) (hj : j < inodeNr)
    (hused : (t.inodeTable j).count ≠ 0) (hroom : (t.inodeTable j).count + 1 < 4294967296)
    (hmount : (t.inodeTable j).mount = dev) (hdev : dev ≠ 0) (hk : t.getSuper dev = some k)
    (hroot : (t.superTable k).iroot = some r) :
    ∃ u, iget t (t.inodeTable j).dev (t.inodeTable j).nr = some (r, u) := by
  obtain ⟨k', hk', hmem⟩ := hl.mem j hj hused
  have hfind : (t.superTable k').inodeList.find? (fun i => (t.inodeTable i).nr = (t.inodeTable j).nr)
      = some j := by
    cases hf : (t.superTable k').inodeList.find? fun i => (t.inodeTable i).nr = (t.inodeTable j).nr with
    | none => exact absurd (decide_eq_true rfl) (List.find?_eq_none.mp hf j hmem)
    | some x =>
      have hx := List.mem_of_find?_eq_some hf
      obtain ⟨hxlt, hxused⟩ := hok.used k' x hx
      have hnr : (t.inodeTable x).nr = (t.inodeTable j).nr := by simpa using List.find?_some hf
      have hnode : t.nodeOf x = t.nodeOf j :=
        Prod.ext ((hl.dev_eq k' x hx).trans (hl.dev_eq k' j hmem).symm) hnr
      exact congrArg some (hl.unique x hxlt j hj hxused hused hnode)
  have hcount : u32 ((t.inodeTable j).count + 1) = (t.inodeTable j).count + 1 := u32_of_lt hroom
  have hsub : sub32 ((t.inodeTable j).count + 1) 1 = (t.inodeTable j).count := sub32_of_le hroom (by omega)
  rw [iget, findInode, hk']
  simp only [Option.bind_eq_bind, Option.bind_some, Option.pure_def, hfind]
  rw [fitInode]
  simp only [Fs.setInode_self, hmount, if_neg hdev]
  have hget : ∀ node, (t.setInode j node).getSuper dev = some k := fun _ => hk
  rw [hget]
  obtain ⟨v, hput⟩ := iput_returns (t := t.setInode j { t.inodeTable j with
      count := u32 ((t.inodeTable j).count + 1), atime := t.time, mount := dev }) (i := j) fun _ => by
    rw [Fs.setInode_self]
    simp only [hcount, hsub]
    exact hused
  have hroot' : (v.superTable k).iroot = some r := by
    rw [(SameMounts.iput hput).iroot]
    exact hroot
  refine ⟨v.setInode r { v.inodeTable r with count := u32 ((v.inodeTable r).count + 1) }, ?_⟩
  exact Option.bind_eq_some_iff.mpr ⟨k, rfl, Option.bind_eq_some_iff.mpr ⟨v, hput,
    Option.bind_eq_some_iff.mpr ⟨r, hroot', rfl⟩⟩⟩

/-! ### Reading the super block -/

/-- A search with one place to find. -/
theorem find?_eq_some_of_unique {α : Type} {l : List α} {p : α → Bool} {x : α} (hx : x ∈ l) (hp : p x = true)
    (hone : ∀ y ∈ l, p y = true → y = x) : l.find? p = some x := by
  cases hf : l.find? p with
  | none => exact absurd hp (List.find?_eq_none.mp hf x hx)
  | some y => exact congrArg some (hone y (List.mem_of_find?_eq_some hf) (List.find?_some hf))

/-- **What `read_super` leaves as it was**, when it comes back. -/
structure ReadSuper (t u : Fs) (dev k : ℕ) : Prop where
  /-- The entry is one of the table. -/
  lt : k < superNr
  /-- The inode table. -/
  inodeTable : u.inodeTable = t.inodeTable
  /-- The blocks. -/
  blk : u.blk = t.blk
  /-- The task. -/
  task : u.task = t.task
  /-- The device has the entry, -/
  getSuper : u.getSuper dev = some k
  /-- and the devices with inodes in memory have theirs. -/
  same : ∀ j < inodeNr, (t.inodeTable j).count ≠ 0 →
    u.getSuper (t.inodeTable j).dev = t.getSuper (t.inodeTable j).dev
  /-- Lists and pointers. -/
  fields : ∀ k', (u.superTable k').inodeList = (t.superTable k').inodeList ∧
    (u.superTable k').iroot = (t.superTable k').iroot ∧ (u.superTable k').imount = (t.superTable k').imount
  /-- The inode table is in order. -/
  table : TableOk u
  /-- The lists are. -/
  listed : Listed u

/-- The device has an entry already. -/
theorem readSuper_known (hok : TableOk t) (hl : Listed t) (hk : t.getSuper dev = some k) :
    ReadSuper t (t.setSuper k { t.superTable k with count := u32 ((t.superTable k).count + 1) }) dev k := by
  have hfield : ∀ {α : Type} (f : SuperBlock → α), (∀ sb n, f { sb with count := n } = f sb) → ∀ k',
      f ((t.setSuper k { t.superTable k with count := u32 ((t.superTable k).count + 1) }).superTable k')
        = f (t.superTable k') := fun f hf k' => superTable_setSuper f (hf _ _) k'
  have hget : ∀ d, (t.setSuper k { t.superTable k with
      count := u32 ((t.superTable k).count + 1) }).getSuper d = t.getSuper d := by
    intro d
    rw [Fs.getSuper, Fs.getSuper]
    exact congrArg (fun p => List.find? p _)
      (funext fun k' => by rw [hfield SuperBlock.dev fun _ _ => rfl])
  refine ⟨getSuper_lt hk, rfl, rfl, rfl, (hget dev).trans hk, fun j _ _ => hget _, fun k' => ?_, ?_, ?_⟩
  · exact ⟨hfield SuperBlock.inodeList (fun _ _ => rfl) k', hfield SuperBlock.iroot (fun _ _ => rfl) k',
      hfield SuperBlock.imount (fun _ _ => rfl) k'⟩
  · exact hok.congr (fun _ => ⟨rfl, rfl⟩) (hfield SuperBlock.inodeList fun _ _ => rfl)
  · exact hl.congr (fun _ => ⟨rfl, rfl⟩) fun k' =>
      ⟨hfield SuperBlock.dev (fun _ _ => rfl) k', hfield SuperBlock.inodeList (fun _ _ => rfl) k'⟩

/-- A free entry of the table of super blocks has an empty list. -/
theorem list_of_free (hok : TableOk t) (hl : Listed t) (hfree : (t.superTable k).dev = EOF) :
    (t.superTable k).inodeList = [] := by
  refine List.eq_nil_iff_forall_not_mem.mpr fun j hj => ?_
  obtain ⟨hlt, hused⟩ := hok.used k j hj
  exact hused ((hok.free_iff j hlt).mp ((hl.dev_eq k j hj).trans hfree))

/-- The device gets a free entry. -/
theorem readSuper_fresh (hok : TableOk t) (hl : Listed t) (hnone : t.getSuper dev = none)
    (hfree : getFreeSuper t = some k) (hsb : sb.dev = dev ∧ sb.inodeList = (t.superTable k).inodeList ∧
      sb.iroot = (t.superTable k).iroot ∧ sb.imount = (t.superTable k).imount) :
    ReadSuper t (t.setSuper k sb) dev k := by
  have hlt := getSuper_lt hfree
  have hold : (t.superTable k).dev = EOF := Fs.dev_of_getSuper hfree
  have hlist := superTable_setSuper SuperBlock.inodeList (t := t) hsb.2.1
  have hget : (t.setSuper k sb).getSuper dev = some k := by
    refine find?_eq_some_of_unique (List.mem_range.mpr hlt) ?_ fun y hy hp => ?_
    · rw [Fs.setSuper_self, hsb.1]
      exact decide_eq_true rfl
    · by_contra hne
      rw [Fs.setSuper_of_ne _ _ hne] at hp
      exact List.find?_eq_none.mp hnone y hy hp
  -- the inodes in memory are those of other devices
  have hsame : ∀ j < inodeNr, (t.inodeTable j).count ≠ 0 →
      (t.setSuper k sb).getSuper (t.inodeTable j).dev = t.getSuper (t.inodeTable j).dev := by
    intro j hj hused
    obtain ⟨k₀, hk₀, -⟩ := hl.mem j hj hused
    have hne : (t.inodeTable j).dev ≠ dev := fun heq => by
      rw [heq, hnone] at hk₀
      exact absurd hk₀ (by simp)
    have hne' : (t.inodeTable j).dev ≠ EOF := fun heq => hused ((hok.free_iff j hj).mp heq)
    rw [Fs.getSuper, Fs.getSuper]
    refine congrArg (fun p => List.find? p _) (funext fun k' => ?_)
    rcases eq_or_ne k' k with rfl | hk'
    · rw [Fs.setSuper_self, hsb.1, hold, decide_eq_false (Ne.symm hne), decide_eq_false (Ne.symm hne')]
    · rw [Fs.setSuper_of_ne _ _ hk']
  refine ⟨hlt, rfl, rfl, rfl, hget, hsame, fun k' => ?_, hok.congr (fun _ => ⟨rfl, rfl⟩) hlist, ?_⟩
  · exact ⟨hlist k', superTable_setSuper SuperBlock.iroot hsb.2.2.1 k',
      superTable_setSuper SuperBlock.imount hsb.2.2.2 k'⟩
  · refine ⟨fun j hj hused => ?_, fun k' j hj => ?_, hl.unique⟩
    · obtain ⟨k', hk', hmem⟩ := hl.mem j hj hused
      exact ⟨k', (hsame j hj hused).trans hk', by rw [hlist]; exact hmem⟩
    · rw [hlist] at hj
      rcases eq_or_ne k' k with rfl | hne
      · rw [list_of_free hok hl hold] at hj
        exact absurd hj List.not_mem_nil
      · rw [Fs.setSuper_of_ne _ _ hne]
        exact hl.dev_eq k' j hj

/-- A device with a file system `read_super` accepts. -/
def SuperFits (t : Fs) (dev : ℕ) : Prop :=
  getFreeSuper t ≠ none ∧ (t.superDesc dev).magic = minix1Magic ∧ (t.superDesc dev).imapBlocks ≤ imapNr ∧
    (t.superDesc dev).zmapBlocks ≤ zeropad

/-- **`read_super`** comes back for a device in the table, and for one with a file system when the
table has a free entry. -/
theorem readSuper_cases (hok : TableOk t) (hl : Listed t) :
    (∀ k, t.getSuper dev = some k → readSuper t dev
        = some (k, t.setSuper k { t.superTable k with count := u32 ((t.superTable k).count + 1) })) ∧
      (t.getSuper dev = none → (∀ k u, readSuper t dev = some (k, u) →
          SuperFits t dev ∧ getFreeSuper t = some k ∧ ReadSuper t u dev k) ∧
        (SuperFits t dev → ∃ k u, readSuper t dev = some (k, u))) := by
  refine ⟨fun k hk => by rw [readSuper, hk], fun hnone => ⟨fun k u hrun => ?_, fun hfits => ?_⟩⟩
  · rw [readSuper, hnone] at hrun
    obtain ⟨k', hfree, hrun⟩ := Option.bind_eq_some_iff.mp hrun
    obtain ⟨_, hmagic, hrun⟩ := Option.bind_eq_some_iff.mp hrun
    obtain ⟨_, himap, hrun⟩ := Option.bind_eq_some_iff.mp hrun
    obtain ⟨_, hzmap, hrun⟩ := Option.bind_eq_some_iff.mp hrun
    obtain ⟨rfl, rfl⟩ := Prod.mk.inj (Option.some.inj hrun)
    refine ⟨⟨by rw [hfree]; exact Option.some_ne_none _, assert_eq_some.mp hmagic, assert_eq_some.mp himap,
      assert_eq_some.mp hzmap⟩, hfree, ?_⟩
    exact readSuper_fresh hok hl hnone hfree ⟨rfl, rfl, rfl, rfl⟩
  · obtain ⟨hfree, hmagic, himap, hzmap⟩ := hfits
    obtain ⟨k, hfree⟩ := Option.ne_none_iff_exists'.mp hfree
    rw [readSuper, hnone]
    simp only [hfree, Option.bind_eq_bind, Option.bind_some, assert_pos hmagic, assert_pos himap,
      assert_pos hzmap]
    exact ⟨k, _, rfl⟩

/-! ### The root directory of the device -/

/-- What the super blocks point to stays in use during a walk. -/
theorem Pinned.walked (hpin : Pinned s.counts s) (h : Holding s.counts s t L) : Pinned t.counts t := by
  have hused : ∀ m, s.counts m ≠ 0 → t.counts m ≠ 0 := fun m hm => h.used_of_pinned hm
  refine ⟨fun k hk m hm => ?_, fun k hk m hm => ?_, fun k hk m hm hnr k' hk' => ?_⟩
  · rw [h.iroot] at hm
    exact ⟨(hpin.iroot k hk m hm).1, hused m (hpin.iroot k hk m hm).2⟩
  · rw [h.imount] at hm
    exact ⟨(hpin.imount k hk m hm).1, hused m (hpin.imount k hk m hm).2⟩
  · rw [h.imount] at hm
    have hident := h.kept m (hpin.imount k hk m hm).2
    rw [show (t.inodeTable m).nr = (s.inodeTable m).nr from congrArg (fun p => p.2.1) hident] at hnr
    rw [show (t.inodeTable m).dev = (s.inodeTable m).dev from congrArg Prod.fst hident, h.getSuper] at hk'
    rw [h.imount]
    exact hpin.top k hk m hm hnr k' hk'

theorem Pinned.readSuper (hpin : Pinned t.counts t) (h : ReadSuper t u dev k) : Pinned u.counts u := by
  have hcount : ∀ m, u.counts m = t.counts m := fun m => congrArg (fun f => (f m).count) h.inodeTable
  refine ⟨fun k' hk m hm => ?_, fun k' hk m hm => ?_, fun k' hk m hm hnr k'' hk'' => ?_⟩
  · rw [(h.fields k').2.1] at hm
    rw [hcount]
    exact hpin.iroot k' hk m hm
  · rw [(h.fields k').2.2] at hm
    rw [hcount]
    exact hpin.imount k' hk m hm
  · rw [(h.fields k').2.2] at hm
    obtain ⟨hlt, hused⟩ := hpin.imount k' hk m hm
    rw [h.inodeTable] at hnr hk''
    rw [h.same m hlt hused] at hk''
    rw [(h.fields k'').2.2]
    exact hpin.top k' hk m hm hnr k'' hk''

/-- The root directory of a device is in memory, or can be read: there is one, and a free entry of the
inode table. -/
def RootFits (t : Fs) (dev : ℕ) : Prop :=
  (∃ x < inodeNr, (t.inodeTable x).count ≠ 0 ∧ t.nodeOf x = (dev, 1)) ∨
    (1 ≤ (t.superDesc dev).inodes ∧ getFreeInode t ≠ none)

/-- **`iget` of a root directory** that nothing is mounted on. -/
theorem iget_root_iff (hok : TableOk t) (hl : Listed t) (hk : t.getSuper dev = some k)
    (hplain : ∀ x < inodeNr, (t.inodeTable x).count ≠ 0 → t.nodeOf x = (dev, 1) → (t.inodeTable x).mount = 0) :
    (∀ r u, iget t dev 1 = some (r, u) → RootFits t dev ∧ u.nodeOf r = (dev, 1)) ∧
      (RootFits t dev → ∃ r u, iget t dev 1 = some (r, u)) := by
  have hfindInode : findInode t dev 1
      = some ((t.superTable k).inodeList.find? fun i => (t.inodeTable i).nr = 1) := by
    rw [findInode, hk]
    rfl
  cases hfind : (t.superTable k).inodeList.find? fun i => (t.inodeTable i).nr = 1 with
  | some x =>
    rw [hfind] at hfindInode
    have hmem := List.mem_of_find?_eq_some hfind
    obtain ⟨hlt, hused⟩ := hok.used k x hmem
    have hnr : (t.inodeTable x).nr = 1 := by simpa using List.find?_some hfind
    have hnode : t.nodeOf x = (dev, 1) :=
      Prod.ext ((hl.dev_eq k x hmem).trans (Fs.dev_of_getSuper hk)) hnr
    have hrun : iget t dev 1 = some (x, t.setInode x { t.inodeTable x with
        count := u32 ((t.inodeTable x).count + 1), atime := t.time }) := by
      rw [iget, hfindInode]
      simp only [Option.bind_eq_bind, Option.bind_some]
      rw [fitInode, Fs.setInode_self]
      exact if_pos (hplain x hlt hused hnode)
    refine ⟨fun r u hget => ⟨Or.inl ⟨x, hlt, hused, hnode⟩, ?_⟩, fun _ => ⟨_, _, hrun⟩⟩
    obtain ⟨rfl, rfl⟩ := Prod.mk.inj (Option.some.inj (hrun.symm.trans hget))
    rw [nodeOf_setInode (by rfl)]
    exact hnode
  | none =>
    rw [hfind] at hfindInode
    have habs : ∀ x < inodeNr, (t.inodeTable x).count ≠ 0 → t.nodeOf x ≠ (dev, 1) := by
      intro x hx hused heq
      obtain ⟨k', hk', hmem⟩ := hl.mem x hx hused
      rw [show (t.inodeTable x).dev = dev from congrArg Prod.fst heq, hk] at hk'
      obtain rfl := Option.some.inj hk'
      exact List.find?_eq_none.mp hfind x hmem (decide_eq_true (congrArg Prod.snd heq))
    refine ⟨fun r u hget => ?_, fun hfits => ?_⟩
    · have hget' := hget
      rw [iget, hfindInode] at hget'
      simp only [Option.bind_eq_bind, Option.bind_some, hk] at hget'
      obtain ⟨_, hle, -⟩ := Option.bind_eq_some_iff.mp hget'
      rw [assert_eq_some] at hle
      rw [iget_fresh hfindInode hk hle] at hget
      obtain ⟨i, hfree, heq⟩ := Option.map_eq_some_iff.mp hget
      obtain ⟨rfl, rfl⟩ := Prod.mk.inj heq
      refine ⟨Or.inr ⟨hle, by rw [hfree]; exact Option.some_ne_none _⟩, ?_⟩
      rw [Fs.nodeOf, withFresh, Fs.setInode_self]
      rfl
    · rcases hfits with ⟨x, hx, hused, hnode⟩ | ⟨hle, hfree⟩
      · exact absurd hnode (habs x hx hused)
      · obtain ⟨i, hfree⟩ := Option.ne_none_iff_exists'.mp hfree
        exact ⟨i, withFresh t k i dev 1, by rw [iget_fresh hfindInode hk hle, hfree]; rfl⟩

/-- **Nothing is mounted on the root directory** of a device that is not mounted itself. -/
theorem root_plain (h : MountState s) (hold : Holding s.counts s t L) (hmounts : SameMounts s t)
    (hread : ReadSuper t u dev k) (hnone : (u.superTable k).imount = none) :
    ∀ x < inodeNr, (u.inodeTable x).count ≠ 0 → u.nodeOf x = (dev, 1) → (u.inodeTable x).mount = 0 := by
  intro x hx hused hnode
  by_contra hm
  have hut : u.nodeOf x = t.nodeOf x := by rw [Fs.nodeOf, Fs.nodeOf, hread.inodeTable]
  rw [hut] at hnode
  rw [hread.inodeTable] at hused hm
  rw [hmounts.mount] at hm
  obtain ⟨k', hk', himount⟩ := h.mounts x hx hm
  have hident := hold.kept x (h.pinned.imount k' (getSuper_lt hk') x himount).2
  have hdev : (s.inodeTable x).dev = dev := (congrArg Prod.fst hident).symm.trans (congrArg Prod.fst hnode)
  have hnr : (s.inodeTable x).nr = 1 :=
    (congrArg (fun p => p.2.1) hident).symm.trans (congrArg Prod.snd hnode)
  have hk : s.getSuper (s.inodeTable x).dev = some k := by
    rw [hdev, ← hold.getSuper, ← hread.getSuper]
    have hsame := hread.same x hx hused
    rw [show (t.inodeTable x).dev = dev from congrArg Prod.fst hnode] at hsame
    exact hsame.symm
  have htop := h.pinned.top k' (getSuper_lt hk') x himount hnr k hk
  rw [(hread.fields k).2.2, hmounts.imount, htop] at hnone
  exact absurd hnone (by simp)

end Tables

/-! ### The call -/

/-- **The root of a device is at a directory**: the device is mounted there, and a look-up of the
directory gives the root. -/
def MountedOn (t : Fs) (j dev : ℕ) : Prop :=
  (t.inodeTable j).mount = dev ∧ dev ≠ 0 ∧ ∃ k r u, t.getSuper dev = some k ∧
    (t.superTable k).imount = some j ∧ (t.superTable k).iroot = some r ∧ t.nodeOf r = (dev, 1) ∧
    iget t (t.inodeTable j).dev (t.inodeTable j).nr = some (r, u)

/-- **`sys_mount` does what it should**: it comes back, and either mounts the device or changes
nothing. -/
def MountMeets (s : Fs) (devname dirname : CStr) : Prop :=
  ∃ ret t, sysMount s devname dirname = some (ret, t) ∧
    ((ret = 0 ∧ ∃ i s₁ j s₂, namei s devname = some (some i, s₁) ∧
        namei s₁ dirname = some (some j, s₂) ∧ MountedOn t j ((s₁.inodeDesc i).zone 0)) ∨
      (ret = -1 ∧ Unchanged s t))

/-- The device can be mounted: its super block and its root are in memory or can be read. -/
def DeviceFits (t : Fs) (dev : ℕ) : Prop :=
  (∀ k, t.getSuper dev = some k → (t.superTable k).imount = none → dev ≠ 0 ∧ RootFits t dev) ∧
    (t.getSuper dev = none → SuperFits t dev ∧ dev ≠ 0 ∧ RootFits t dev)

/-- The look-ups come back; if the first finds a block device, the second finds something; and if that
is a directory nobody uses, the device can be mounted. -/
def MountFits (s : Fs) (devname dirname : CStr) : Prop :=
  ∃ d s₁, namei s devname = some (d, s₁) ∧ ∀ i, d = some i → isBlk (s₁.inodeDesc i).mode = true →
    ∃ j s₂, namei s₁ dirname = some (some j, s₂) ∧
      (isDir (s₂.inodeDesc j).mode = true → (s₂.inodeTable j).count = 1 → (s₂.inodeTable j).mount = 0 →
        DeviceFits s₂ ((s₁.inodeDesc i).zone 0))

section Mount

variable {s s₁ s₂ t u : Fs} {L : List ℕ} {i j k dev : ℕ} {devname dirname : CStr}

/-- After both look-ups both inodes are held. -/
theorem MountState.look_ups (h : MountState s) {r : Option ℕ}
    (hname : Onixs.namei s devname = some (some i, s₁)) (hname' : Onixs.namei s₁ dirname = some (r, s₂)) :
    Holding s.counts s s₂ (r.toList ++ [i]) ∧ Listed s₂ ∧ SameMounts s s₂ := by
  obtain ⟨hold, hlisted⟩ := h.namei hname
  have hmounts := SameMounts.namei hname
  have hkept := (carried_listed h.pinned).namei h.pinned (h.room_of_le (by simp)) (L := [i])
    ⟨hold, hlisted⟩ (by rw [hmounts.task]; exact h.dirs) hname'
  exact ⟨hkept.1, hkept.2, hmounts.trans (SameMounts.namei hname')⟩

/-- An inode that is held can be given back. -/
theorem MountState.iputOpt_held (h : MountState s) {d : Option ℕ} (hold : Holding s.counts s t (d.toList ++ L))
    (hlen : L.length + 1 ≤ 8) : ∃ u, iputOpt t d = some u ∧ Holding s.counts s u L ∧ SameMounts t u := by
  cases d with
  | none => exact ⟨t, rfl, hold, SameMounts.refl t⟩
  | some i =>
    have hroom := h.room_of_le hlen
    obtain ⟨u, hput⟩ := iput_returns (t := t) (i := i) fun hi => by
      subst hi
      have hpos := h.bottom 0 (by decide)
      have hcount := hold.count 0
      have hself : (some 0).toList.count 0 = 1 := rfl
      rw [List.count_append, hself] at hcount
      rw [sub32_of_le (hold.count_lt hroom) (by omega)]
      omega
    exact ⟨u, hput, hold.iput hroom hput, SameMounts.iput hput⟩

/-- **The label `rollback`** gives back what is held. -/
theorem mountRollback_unchanged {d e : Option ℕ} (h : MountState s) (hmounts : SameMounts s t)
    (hold : Holding s.counts s t (d.toList ++ e.toList)) :
    ∃ u, mountRollback t none d e = some (-1, u) ∧ Unchanged s u := by
  obtain ⟨u, hput, hold', hsame⟩ := h.iputOpt_held hold (by cases e <;> simp)
  rw [← List.append_nil e.toList] at hold'
  obtain ⟨v, hput', hold'', hsame'⟩ := h.iputOpt_held hold' (by simp)
  refine ⟨v, ?_, Unchanged.of_holding ((hmounts.trans hsame).trans hsame') hold''⟩
  rw [mountRollback, putSuperOpt]
  simp only [Option.bind_eq_bind, Option.bind_some, hput, hput']
  rfl

/-- A device that is mounted already: the reference to its super block is given back too. -/
theorem mountRollback_busy (h : MountState s) (hmounts : SameMounts s t) (hold : Holding s.counts s t [i, j])
    (hdev : dev ≠ EOF) (hk : t.getSuper dev = some k) :
    ∃ u, mountRollback (t.setSuper k { t.superTable k with count := u32 ((t.superTable k).count + 1) })
      (some k) (some i) (some j) = some (-1, u) ∧ Unchanged s u := by
  have hlt := getSuper_lt hk
  have hpos : 0 < (t.superTable k).count := by
    rw [hmounts.count]
    refine h.used k hlt ?_
    rw [← hmounts.dev, Fs.dev_of_getSuper hk]
    exact hdev
  have hroom : (t.superTable k).count + 1 < 4294967296 := by
    rw [hmounts.count]
    exact h.supers k hlt
  have hput : putSuper (t.setSuper k { t.superTable k with count := u32 ((t.superTable k).count + 1) }) k
      = some t := by
    rw [putSuper]
    simp only [Fs.setSuper_self, u32_of_lt hroom, Nat.add_sub_cancel, Fs.setSuper_setSuper]
    rw [assert_pos (Nat.succ_pos _)]
    refine (if_pos (Nat.ne_of_gt hpos)).trans (congrArg some ?_)
    exact t.setSuper_eq_self k
  obtain ⟨u, hback, hunch⟩ := mountRollback_unchanged (d := some i) (e := some j) h hmounts hold
  refine ⟨u, ?_, hunch⟩
  rw [mountRollback, putSuperOpt, hput]
  exact hback

/-- The state with one reference seen apart. -/
theorem Holding.of_used (hok : TableOk t) (hlt : i < inodeNr) (hused : (t.inodeTable i).count ≠ 0) :
    Holding (fun x => (t.inodeTable x).count - [i].count x) t t [i] where
  ok := hok
  count x := by
    have hle : [i].count x ≤ (t.inodeTable x).count := by
      rw [List.count_singleton]
      split
      next heq =>
        rw [← beq_iff_eq.mp heq]
        exact Nat.pos_of_ne_zero hused
      next => exact Nat.zero_le _
    exact (Nat.sub_add_cancel hle).symm
  lt x hx := List.mem_singleton.mp hx ▸ hlt
  kept _ _ := rfl
  supers _ := rfl

/-- `sb->iroot`, `sb->imount` and `inode->mount` are stored. -/
def mounted (t : Fs) (k r j dev : ℕ) : Fs :=
  ((t.setIroot k (some r)).setImount k (some j)).setMount j dev

/-- **The stores of `sys_mount`** put the root of the device where the directory is, and the reference to
the device file can be given back. -/
theorem mounted_spec {r : ℕ} (hok : TableOk t) (hl : Listed t) (hk : t.getSuper dev = some k) (hdev : dev ≠ 0)
    (hr : r < inodeNr ∧ 1 + [i].count r ≤ (t.inodeTable r).count) (hnode : t.nodeOf r = (dev, 1))
    (hj : j < inodeNr ∧ 1 + [i].count j ≤ (t.inodeTable j).count)
    (hi : i < inodeNr ∧ (t.inodeTable i).count ≠ 0 ∧ (i = 0 → (t.inodeTable i).count ≠ 1))
    (hroom : ∀ x < inodeNr, (t.inodeTable x).count + 1 < 4294967296) :
    ∃ u, iput (mounted t k r j dev) i = some u ∧ MountedOn u j dev := by
  have hinode : ∀ x, (mounted t k r j dev).nodeOf x = t.nodeOf x ∧
      ((mounted t k r j dev).inodeTable x).count = (t.inodeTable x).count := by
    intro x
    rcases eq_or_ne x j with rfl | hne
    · rw [Fs.nodeOf, mounted, Fs.setMount, Fs.setInode_self]
      exact ⟨rfl, rfl⟩
    · rw [Fs.nodeOf, mounted, Fs.setMount, Fs.setInode_of_ne _ _ hne]
      exact ⟨rfl, rfl⟩
  have hsuper : ∀ k', ((mounted t k r j dev).superTable k').dev = (t.superTable k').dev ∧
      ((mounted t k r j dev).superTable k').inodeList = (t.superTable k').inodeList := by
    intro k'
    rw [mounted, Fs.setMount, Fs.setInode_superTable, Fs.setImount, Fs.setIroot, Fs.setSuper_setSuper, Fs.setSuper_self]
    constructor
    · refine superTable_setSuper SuperBlock.dev ?_ k'
      rfl
    · refine superTable_setSuper SuperBlock.inodeList ?_ k'
      rfl
  have hok' : TableOk (mounted t k r j dev) :=
    hok.congr (fun x => ⟨congrArg Prod.fst (hinode x).1, (hinode x).2⟩) fun k' => (hsuper k').2
  have hl' : Listed (mounted t k r j dev) := hl.congr hinode hsuper
  have hold := Holding.of_used hok' hi.1 (by rw [(hinode i).2]; exact hi.2.1)
  have hroom' : Room (fun x => ((mounted t k r j dev).inodeTable x).count - [i].count x) 1 := fun x hx => by
    simp only [(hinode x).2]
    exact Nat.lt_of_le_of_lt (Nat.add_le_add_right (Nat.sub_le _ _) 1) (hroom x hx)
  obtain ⟨u, hput⟩ := iput_returns (t := mounted t k r j dev) (i := i) fun hi0 => by
    have hsmall := hroom i hi.1
    have hused := hi.2.1
    have hmore := hi.2.2 hi0
    rw [(hinode i).2, sub32_of_le (by omega) (by omega)]
    omega
  have hold' := hold.iput hroom' hput
  have hsame := SameMounts.iput hput
  have hkept : ∀ x, 1 + [i].count x ≤ (t.inodeTable x).count → u.nodeOf x = t.nodeOf x ∧
      (u.inodeTable x).count ≠ 0 ∧ (u.inodeTable x).count ≤ (t.inodeTable x).count := by
    intro x hx
    have hcount := hold'.count x
    rw [List.count_nil, Nat.add_zero, (hinode x).2] at hcount
    have hident := hold'.kept x (by rw [(hinode x).2]; omega)
    refine ⟨?_, by omega, by omega⟩
    rw [← (hinode x).1, Fs.nodeOf, Fs.nodeOf, show (u.inodeTable x).dev = _ from congrArg Prod.fst hident,
      show (u.inodeTable x).nr = _ from congrArg (fun p => p.2.1) hident]
    rfl
  obtain ⟨-, husedj, hlej⟩ := hkept j hj.2
  have hmount : (u.inodeTable j).mount = dev := by
    rw [hsame.mount, mounted, Fs.setMount, Fs.setInode_self]
  have hget : u.getSuper dev = some k := by
    rw [hsame.getSuper, Fs.getSuper, ← hk, Fs.getSuper]
    exact congrArg (fun p => List.find? p _) (funext fun k' => by rw [(hsuper k').1])
  have hiroot : (u.superTable k).iroot = some r := by
    rw [hsame.iroot, mounted, Fs.setMount, Fs.setInode_superTable, Fs.setImount, Fs.setSuper_self, Fs.setIroot,
      Fs.setSuper_self]
  have himount : (u.superTable k).imount = some j := by
    rw [hsame.imount, mounted, Fs.setMount, Fs.setInode_superTable, Fs.setImount, Fs.setSuper_self]
  obtain ⟨v, hrun⟩ := iget_mounted hold'.ok (hl'.iput hold hroom' hput) hj.1 husedj
    (Nat.lt_of_le_of_lt (Nat.add_le_add_right hlej 1) (hroom j hj.1)) hmount hdev hget hiroot
  exact ⟨u, hput, hmount, hdev, k, r, v, hget, himount, hiroot, ((hkept r hr.2).1).trans hnode, hrun⟩

/-- `read_super` does not touch the root directory. -/
theorem ReadSuper.rootFits (h : ReadSuper t u dev k) : RootFits u dev ↔ RootFits t dev := by
  simp only [RootFits, Fs.superDesc, Fs.nodeOf, getFreeInode, h.blk, h.inodeTable]

/-- The part of `mountDevice` behind `read_super`. -/
theorem mountDevice_known (hk : readSuper t dev = some (k, u)) (hnone : (u.superTable k).imount = none) :
    mountDevice t i j dev = (iget u dev 1).bind fun p =>
      (iput (mounted p.2 k p.1 j dev) i).map fun v => (0, v) := by
  rw [mountDevice, hk]
  simp only [Option.bind_eq_bind, Option.bind_some, hnone, Option.isSome_none, Bool.false_eq_true, if_false]
  refine congrArg (Option.bind _) (funext fun p => ?_)
  rw [Option.map_eq_bind]
  rfl

/-- **Mounting a device** on a directory nobody else uses. -/
theorem mountDevice_mounts (h : MountState s) (hold : Holding s.counts s t [j, i]) (hmounts : SameMounts s t) (hone : (t.inodeTable j).count = 1) (hread : ReadSuper t u dev k)
    (hrun : readSuper t dev = some (k, u)) (hnone : (u.superTable k).imount = none) (hdev : dev ≠ 0)
    (hdev' : dev ≠ EOF) (hroot : RootFits t dev) :
    ∃ v, mountDevice t i j dev = some (0, v) ∧ MountedOn v j dev := by
  have hcount : ∀ x, u.counts x = s.counts x + [j, i].count x := fun x => by
    rw [← hold.count x, Fs.counts, hread.inodeTable]
  have hone' : s.counts j + [j, i].count j = 1 := (hold.count j).symm.trans hone
  have hpair : ∀ x, [j, i].count x = [i].count x + [j].count x := fun x => by
    rw [Nat.add_comm, ← List.count_append]
    rfl
  have hself : [j].count j = 1 := List.count_singleton_self
  have hpin : Pinned u.counts u := (h.pinned.walked hold).readSuper hread
  have hroomOne : Room u.counts 1 := fun x hx => by
    have hx' := h.room x hx
    have hle : [j, i].count x ≤ 2 := List.count_le_length
    rw [hcount]
    omega
  have hroot' : RootFits u dev := hread.rootFits.mpr hroot
  have hiff := iget_root_iff hread.table hread.listed hread.getSuper (root_plain h hold hmounts hread hnone)
  obtain ⟨r, v, hget⟩ := hiff.2 hroot'
  have hnode := (hiff.1 r v hget).2
  have hstart : Holding u.counts u u [] := Holding.refl hread.table
  have hheld := hstart.iget hpin hroomOne hdev' hget
  have hlisted := hread.listed.iget hpin hstart hroomOne hget
  obtain ⟨w, hput, hat⟩ := mounted_spec (i := i) (j := j) hheld.ok hlisted
    (((SameMounts.iget hget).getSuper dev).trans hread.getSuper) hdev
    ⟨hheld.lt r List.mem_cons_self, by rw [hheld.count, hcount, hpair, List.count_singleton_self]; omega⟩ hnode
    ⟨hold.lt j (by simp), by rw [hheld.count, hcount, hpair]; omega⟩
    ⟨hold.lt i (by simp), by rw [hheld.count, hcount, hpair, List.count_singleton_self]; omega, fun hi0 => by
      subst hi0
      have hpos := h.bottom 0 (by decide)
      rw [hheld.count, hcount, hpair, List.count_singleton_self]
      omega⟩
    fun x hx => by
      have hx' := h.room x hx
      have hle : [j, i].count x ≤ 2 := List.count_le_length
      have hle' : [r].count x ≤ 1 := List.count_le_length
      rw [hheld.count, hcount]
      omega
  refine ⟨w, ?_, hat⟩
  rw [mountDevice_known hrun hnone, hget, Option.bind_some, hput]
  rfl

/-- What `mountDevice` has to do for that. -/
def DeviceMeets (s t : Fs) (i j dev : ℕ) : Prop :=
  ∃ ret v, mountDevice t i j dev = some (ret, v) ∧
    ((ret = 0 ∧ MountedOn v j dev) ∨ (ret = -1 ∧ Unchanged s v))

/-- A device that is not mounted. -/
theorem deviceMeets_plain (h : MountState s) (hold : Holding s.counts s t [j, i]) (hmounts : SameMounts s t)
    (hone : (t.inodeTable j).count = 1) (hread : ReadSuper t u dev k) (hrun : readSuper t dev = some (k, u))
    (hnone : (u.superTable k).imount = none) (hdev : dev ≠ EOF) :
    DeviceMeets s t i j dev ↔ dev ≠ 0 ∧ RootFits t dev := by
  constructor
  · rintro ⟨ret, v, hcall, hret⟩
    rw [mountDevice_known hrun hnone] at hcall
    obtain ⟨⟨r, w⟩, hget, hcall⟩ := Option.bind_eq_some_iff.mp hcall
    obtain ⟨x, -, hcall⟩ := Option.map_eq_some_iff.mp hcall
    obtain ⟨rfl, rfl⟩ := Prod.mk.inj hcall
    have hiff := iget_root_iff hread.table hread.listed hread.getSuper (root_plain h hold hmounts hread hnone)
    have hroot := hread.rootFits.mp (hiff.1 r w hget).1
    rcases hret with ⟨-, hat⟩ | ⟨hneg, -⟩
    · exact ⟨hat.2.1, hroot⟩
    · exact absurd hneg (by decide)
  · rintro ⟨hzero, hroot⟩
    obtain ⟨v, hcall, hat⟩ := mountDevice_mounts h hold hmounts hone hread hrun hnone hzero hdev hroot
    exact ⟨0, v, hcall, Or.inl ⟨rfl, hat⟩⟩

theorem deviceMeets_iff (h : MountState s) (hold : Holding s.counts s t [j, i]) (hl : Listed t)
    (hmounts : SameMounts s t) (hone : (t.inodeTable j).count = 1) (hdev : dev ≠ EOF) :
    DeviceMeets s t i j dev ↔ DeviceFits t dev := by
  obtain ⟨hknown, hfresh⟩ := @readSuper_cases t dev hold.ok hl
  cases hk : t.getSuper dev with
  | some k =>
    have hread := readSuper_known hold.ok hl hk
    have hrun := hknown k hk
    have hsame := (hread.fields k).2.2
    cases hm : (t.superTable k).imount with
    | none =>
      rw [deviceMeets_plain h hold hmounts hone hread hrun (hsame.trans hm) hdev]
      constructor
      · intro hplain
        refine ⟨fun k' hk' _ => hplain, fun hnone => ?_⟩
        rw [hk] at hnone
        exact absurd hnone (Option.some_ne_none k)
      · exact fun hfits => hfits.1 k hk hm
    | some m =>
      have hfits : DeviceFits t dev := by
        refine ⟨fun k' hk' hnone => ?_, fun hnone => ?_⟩
        · obtain rfl := Option.some.inj (hk.symm.trans hk')
          exact absurd (hm.symm.trans hnone) (Option.some_ne_none m)
        · exact absurd (hk.symm.trans hnone) (Option.some_ne_none k)
      refine iff_of_true ?_ hfits
      obtain ⟨v, hback, hsame'⟩ := mountRollback_busy h hmounts (hold.perm (List.Perm.swap i j [])) hdev hk
      refine ⟨-1, v, ?_, Or.inr ⟨rfl, hsame'⟩⟩
      rw [mountDevice, hrun]
      simp only [Option.bind_eq_bind, Option.bind_some]
      have hbusy := congrArg Option.isSome (hsame.trans hm)
      exact (if_pos hbusy).trans hback
  | none =>
    obtain ⟨hback, hfwd⟩ := hfresh hk
    have hclean : ∀ {k u}, getFreeSuper t = some k → ReadSuper t u dev k →
        (u.superTable k).imount = none := by
      intro k u hfree hread
      rw [(hread.fields k).2.2, hmounts.imount]
      refine h.clean k (getSuper_lt hfree) ?_
      rw [← hmounts.dev]
      exact Fs.dev_of_getSuper hfree
    constructor
    · intro hmeets
      have hmeets' := hmeets
      obtain ⟨ret, v, hcall, -⟩ := hmeets'
      obtain ⟨⟨k, u⟩, hrun, -⟩ := Option.bind_eq_some_iff.mp hcall
      obtain ⟨hsuper, hfree, hread⟩ := hback k u hrun
      have hplain := (deviceMeets_plain h hold hmounts hone hread hrun (hclean hfree hread) hdev).mp hmeets
      exact ⟨fun k' hk' => absurd (hk.symm.trans hk') (by simp), fun _ => ⟨hsuper, hplain⟩⟩
    · intro hfits
      obtain ⟨hsuper, hplain⟩ := hfits.2 hk
      obtain ⟨k, u, hrun⟩ := hfwd hsuper
      obtain ⟨-, hfree, hread⟩ := hback k u hrun
      exact (deviceMeets_plain h hold hmounts hone hread hrun (hclean hfree hread) hdev).mpr hplain

/-- **`sys_mount` mounts the device or changes nothing exactly when** its look-ups come back, the directory
is there if the first finds a block device, and nothing stops the reading of the device. -/
theorem mount_meets_iff (h : MountState s) : MountMeets s devname dirname ↔ MountFits s devname dirname := by
  -- with the tests passed the call is `mountDevice`
  have htests : ∀ {i s₁ j s₂}, namei s devname = some (some i, s₁) → isBlk (s₁.inodeDesc i).mode = true →
      namei s₁ dirname = some (some j, s₂) → isDir (s₂.inodeDesc j).mode = true →
      (s₂.inodeTable j).count = 1 → (s₂.inodeTable j).mount = 0 →
      sysMount s devname dirname = mountDevice s₂ i j ((s₁.inodeDesc i).zone 0) := by
    intro i s₁ j s₂ hname hblk hname' hdir hone hmount
    rw [sysMount, hname]
    simp only [Option.bind_eq_bind, Option.bind_some, hblk, Bool.true_eq_false, if_false, hname', hdir, hone, hmount,
      ne_eq, not_true_eq_false, or_self]
  have hzone : ∀ {s₁ : Fs} {i}, (s₁.inodeDesc i).zone 0 ≠ EOF := fun {s₁ i} =>
    Nat.ne_of_lt (Nat.lt_trans (Bytes.getU16_lt _ _) (by decide))
  constructor
  · rintro ⟨ret, t, hrun, hret⟩
    obtain ⟨⟨d, s₁⟩, hname, hrun'⟩ := Option.bind_eq_some_iff.mp hrun
    refine ⟨d, s₁, hname, fun i hi hblk => ?_⟩
    subst hi
    simp only [hblk, Bool.true_eq_false, if_false] at hrun'
    obtain ⟨⟨r, s₂⟩, hname', hrun'⟩ := Option.bind_eq_some_iff.mp hrun'
    obtain ⟨j, rfl, hrun'⟩ := Option.bind_eq_some_iff.mp hrun'
    refine ⟨j, s₂, hname', fun hdir hone hmount => ?_⟩
    obtain ⟨hold, hl, hmounts⟩ := h.look_ups hname hname'
    rw [htests hname hblk hname' hdir hone hmount] at hrun
    refine (deviceMeets_iff h hold hl hmounts hone hzone).mp ⟨ret, t, hrun, ?_⟩
    rcases hret with ⟨h0, i', s₁', j', s₂', heq, heq', hat⟩ | hneg
    · obtain ⟨hi, rfl⟩ := Prod.mk.inj (Option.some.inj (hname.symm.trans heq))
      obtain rfl := Option.some.inj hi
      obtain ⟨hj, rfl⟩ := Prod.mk.inj (Option.some.inj (hname'.symm.trans heq'))
      obtain rfl := Option.some.inj hj
      exact Or.inl ⟨h0, hat⟩
    · exact Or.inr hneg
  · rintro ⟨d, s₁, hname, hfits⟩
    have hmounts₁ := SameMounts.namei hname
    obtain ⟨hold₁, -⟩ := h.namei hname
    cases d with
    | none =>
      obtain ⟨u, hback, hunch⟩ := mountRollback_unchanged (d := none) (e := none) h hmounts₁ hold₁
      refine ⟨-1, u, ?_, Or.inr ⟨rfl, hunch⟩⟩
      rw [sysMount, hname]
      exact hback
    | some i =>
      cases hblk : isBlk (s₁.inodeDesc i).mode with
      | false =>
        obtain ⟨u, hback, hunch⟩ := mountRollback_unchanged (d := some i) (e := none) h hmounts₁ hold₁
        refine ⟨-1, u, ?_, Or.inr ⟨rfl, hunch⟩⟩
        rw [sysMount, hname]
        simp only [Option.bind_eq_bind, Option.bind_some, hblk, if_true]
        exact hback
      | true =>
        obtain ⟨j, s₂, hname', hdevice⟩ := hfits i rfl hblk
        obtain ⟨hold, hl, hmounts⟩ := h.look_ups hname hname'
        by_cases hplain : isDir (s₂.inodeDesc j).mode = true ∧ (s₂.inodeTable j).count = 1 ∧
            (s₂.inodeTable j).mount = 0
        · obtain ⟨hdir, hone, hmount⟩ := hplain
          obtain ⟨ret, v, hcall, hret⟩ :=
            (deviceMeets_iff h hold hl hmounts hone hzone).mpr (hdevice hdir hone hmount)
          refine ⟨ret, v, (htests hname hblk hname' hdir hone hmount).trans hcall, ?_⟩
          exact hret.imp_left fun hat => ⟨hat.1, i, s₁, j, s₂, hname, hname', hat.2⟩
        · obtain ⟨u, hback, hunch⟩ := mountRollback_unchanged (d := some i) (e := some j) h hmounts
            (hold.perm (List.Perm.swap i j []))
          refine ⟨-1, u, ?_, Or.inr ⟨rfl, hunch⟩⟩
          rw [sysMount, hname]
          simp only [Option.bind_eq_bind, Option.bind_some, hblk, Bool.true_eq_false, if_false, hname']
          -- both tests of the directory lead to the same label
          by_cases hdir : isDir (s₂.inodeDesc j).mode = false
          · exact (if_pos hdir).trans hback
          · refine (if_neg hdir).trans ((if_pos ?_).trans hback)
            by_contra hboth
            rw [not_or, not_not, not_not] at hboth
            exact hplain ⟨Bool.eq_true_of_not_eq_false hdir, hboth⟩

end Mount

/-- A device file that is a directory is turned down. -/
theorem mount_meets_directory : MountMeets (mountFs 2) (cstr ['/', 'm']) (cstr ['/', 'm']) ↔
    MountFits (mountFs 2) (cstr ['/', 'm']) (cstr ['/', 'm']) :=
  mount_meets_iff (mountFs_state 2)

set_option maxRecDepth 10000 in
/-- **A directory that is not there** is used all the same when the device is. -/
theorem mount_absent_directory :
    MountState (mountFs 2) ∧ ¬MountMeets (mountFs 2) (cstr ['/', 'b']) (cstr ['/', 'x']) := by
  refine ⟨mountFs_state 2, fun hmeets => ?_⟩
  obtain ⟨ret, t, hcall, -⟩ := hmeets
  have hrun : (sysMount (mountFs 2) (cstr ['/', 'b']) (cstr ['/', 'x'])).isSome = false := by decide
  rw [hcall] at hrun
  exact absurd hrun (by simp)

end Onixs
