import Onixs.Fs.Disk
import Onixs.Fs.Listed

/-!
# When unmounting fails

What `sys_umount` leaves behind when it returns `EOF`. It has one label for all its failures,
which gives back a reference to the super block; but the super block comes from `get_super`,
which takes none. So nothing is lost only when the call fails before that, or succeeds
(`Onixs.umount_keeps_iff`).
-/

namespace Onixs

/-! ### States with mounts -/

/-- **The tables of a system with mounts**: the counts are right as far as a walk and the super blocks
need them to be. -/
structure MountState (s : Fs) : Prop where
  /-- The inode table. -/
  table : TableOk s
  /-- The inodes in memory are in the lists. -/
  listed : Listed s
  /-- What the super blocks point to is in use. -/
  pinned : Pinned s.counts s
  /-- The running task has directories. -/
  dirs : TaskDirs s.counts s.task
  /-- No counter is at its end. -/
  room : Room s.counts 8
  /-- A super block in use has references, -/
  used : ∀ k < superNr, (s.superTable k).dev ≠ EOF → 0 < (s.superTable k).count
  /-- and its counter is not at its end. -/
  supers : ∀ k < superNr, (s.superTable k).count + 1 < 4294967296
  /-- Entry 0 of the inode table, which `put_free_inode` refuses, has more references than one super
  block has. -/
  bottom : ∀ k < superNr, [(s.superTable k).iroot, (s.superTable k).imount].count (some 0) < s.counts 0
  /-- A free super block points nowhere. -/
  clean : ∀ k < superNr, (s.superTable k).dev = EOF → (s.superTable k).imount = none
  /-- An inode with a device mounted on it is the mount point of that device. -/
  mounts : ∀ i < inodeNr, (s.inodeTable i).mount ≠ 0 → ∃ k, s.getSuper (s.inodeTable i).mount = some k ∧
    (s.superTable k).imount = some i

/-- **Nothing has changed** that the super blocks, the mounts and the counts say. -/
def Unchanged (s t : Fs) : Prop :=
  SameMounts s t ∧ ∀ j, (t.inodeTable j).count = (s.inodeTable j).count

section Umount

variable {s t u : Fs} {L : List ℕ} {i k : ℕ} {target : CStr}

/-- `iput` changes one count. -/
theorem iput_count (hrun : iput t i = some u) (j : ℕ) :
    (u.inodeTable j).count = if j = i then sub32 (t.inodeTable i).count 1 else (t.inodeTable j).count := by
  rw [iput] at hrun
  simp only [Fs.setInode_self] at hrun
  split at hrun
  · obtain rfl := Option.some.inj hrun
    split
    next heq => rw [heq, Fs.setInode_self]
    next hne => rw [Fs.setInode_of_ne _ _ hne]
  · obtain ⟨_, -, hrun⟩ := Option.bind_eq_some_iff.mp hrun
    obtain ⟨_, -, hrun⟩ := Option.bind_eq_some_iff.mp hrun
    obtain rfl := Option.some.inj hrun
    split
    next heq =>
      rw [heq, Fs.setInode_self]
      simp [removeInode]
    next hne =>
      rw [Fs.setInode_of_ne _ _ hne]
      simp [removeInode, Fs.setInode_of_ne _ _ hne]

/-- `iput` comes back, unless it is the last reference to entry 0. -/
theorem iput_returns (h : i = 0 → sub32 (t.inodeTable i).count 1 ≠ 0) : ∃ u, iput t i = some u := by
  rw [iput]
  simp only [Fs.setInode_self]
  by_cases hlast : sub32 (t.inodeTable i).count 1 = 0
  · rw [if_neg (not_not_intro hlast)]
    refine ⟨_, putFreeInode_eq (fun hi => h hi hlast) ?_⟩
    simpa [removeInode] using hlast
  · exact ⟨_, if_pos hlast⟩

/-- The references to entry 0 that a pointer gives back. -/
def zeros (o : Option ℕ) : ℕ := if o = some 0 then 1 else 0

theorem iputOpt_returns {o : Option ℕ} {n : ℕ} (hlt : (t.inodeTable 0).count < 4294967296)
    (hn : n + zeros o < (t.inodeTable 0).count) :
    ∃ u, iputOpt t o = some u ∧ n < (u.inodeTable 0).count ∧ (u.inodeTable 0).count < 4294967296 := by
  cases o with
  | none => exact ⟨t, rfl, by omega, hlt⟩
  | some i =>
    rcases Nat.eq_zero_or_pos i with rfl | hpos
    · rw [zeros, if_pos rfl] at hn
      have hsub : sub32 (t.inodeTable 0).count 1 = (t.inodeTable 0).count - 1 := sub32_of_le hlt (by omega)
      obtain ⟨u, hput⟩ := iput_returns (t := t) (i := 0) fun _ => by
        rw [hsub]
        omega
      have hcount := iput_count hput 0
      rw [if_pos rfl, hsub] at hcount
      exact ⟨u, hput, by omega, by omega⟩
    · obtain ⟨u, hput⟩ := iput_returns (t := t) (i := i) fun hi => absurd hi (Nat.ne_of_gt hpos)
      have hcount := iput_count hput 0
      rw [if_neg (Nat.ne_of_lt hpos)] at hcount
      exact ⟨u, hput, by omega, by omega⟩

/-- **`put_super`** takes one from the count of the super block, and comes back when entry 0 has
references to spare. -/
theorem putSuper_returns {n : ℕ} (hused : 0 < (t.superTable k).count)
    (hlt : (t.inodeTable 0).count < 4294967296)
    (hn : n + (zeros (t.superTable k).imount + zeros (t.superTable k).iroot) < (t.inodeTable 0).count) :
    ∃ u, putSuper t k = some u ∧ (u.superTable k).count = (t.superTable k).count - 1 ∧
      n < (u.inodeTable 0).count ∧ (u.inodeTable 0).count < 4294967296 := by
  rw [putSuper, assert_pos hused]
  simp only [Option.bind_eq_bind, Option.bind_some]
  by_cases hlast : (t.superTable k).count - 1 = 0
  · rw [if_neg (not_not_intro hlast)]
    obtain ⟨u₁, h₁, hn₁, hlt₁⟩ := iputOpt_returns (t := (t.setSuper k { t.superTable k with
        count := (t.superTable k).count - 1 }).setSuper k { (t.setSuper k { t.superTable k with
        count := (t.superTable k).count - 1 }).superTable k with dev := EOF })
      (o := (t.superTable k).imount) (n := n + zeros (t.superTable k).iroot) hlt
      (by change _ < (t.inodeTable 0).count; omega)
    obtain ⟨u₂, h₂, hn₂, hlt₂⟩ := iputOpt_returns (o := (t.superTable k).iroot) hlt₁ hn₁
    refine ⟨u₂, by rw [h₁]; exact h₂, ?_, hn₂, hlt₂⟩
    rw [(SameMounts.iputOpt h₂).count, (SameMounts.iputOpt h₁).count, Fs.setSuper_self, Fs.setSuper_self]
  · rw [if_pos hlast]
    exact ⟨_, rfl, by rw [Fs.setSuper_self], by change _ < (t.inodeTable 0).count; omega, hlt⟩

/-- **A failed `sys_umount` changes nothing**, and none uses a super block that is not there. -/
def UmountKeeps (s : Fs) (target : CStr) : Prop :=
  (∀ t, sysUmount s target = some (-1, t) → Unchanged s t) ∧
    ∀ i t, Onixs.namei s target = some (some i, t) → umountTarget t i = true →
      t.getSuper (umountDev t i) ≠ none

/-- If the target passes the tests in front of `get_super`, its device has a super block, is mounted
and has no more than one inode in memory. -/
def UmountFits (s : Fs) (target : CStr) : Prop :=
  ∀ i t, Onixs.namei s target = some (some i, t) → umountTarget t i = true →
    ∃ k m, t.getSuper (umountDev t i) = some k ∧ (t.superTable k).imount = some m ∧
      (t.superTable k).inodeList.length ≤ 1

theorem MountState.room_of_le (h : MountState s) {n : ℕ} (hn : n ≤ 8) : Room s.counts n := fun j hj => by
  have := h.room j hj
  omega

/-- After a look-up the inodes it has found are held. -/
theorem MountState.namei (h : MountState s) {path : CStr} {r : Option ℕ}
    (hrun : Onixs.namei s path = some (r, t)) : Holding s.counts s t r.toList ∧ Listed t := by
  have hkept := (carried_listed h.pinned).namei h.pinned (h.room_of_le (by simp)) (L := [])
    ⟨Holding.refl h.table, h.listed⟩ h.dirs hrun
  rwa [List.append_nil] at hkept

theorem Unchanged.of_holding (hmounts : SameMounts s t) (h : Holding s.counts s t []) : Unchanged s t := by
  refine ⟨hmounts, fun j => ?_⟩
  rw [h.count j, List.count_nil]
  rfl

/-- The device is one that can have a super block. -/
theorem umountDev_ne (h : Holding s.counts s t (i :: L)) : umountDev t i ≠ EOF := by
  rw [umountDev]
  split
  · refine Nat.ne_of_lt (Nat.lt_trans (Bytes.getU16_lt _ _) ?_)
    rw [EOF]
    omega
  · exact h.dev_ne List.mem_cons_self

/-- **The label `rollback`** takes a reference from the super block. -/
theorem umountRollback_changes (h : MountState s) (hold : Holding s.counts s t [i]) (hmounts : SameMounts s t)
    (hk : t.getSuper (umountDev t i) = some k) :
    ∃ u, umountRollback t (some k) (some i) (-1) = some (-1, u) ∧ ¬Unchanged s u := by
  have hlt := getSuper_lt hk
  have hused : 0 < (t.superTable k).count := by
    rw [hmounts.count]
    refine h.used k hlt ?_
    rw [← hmounts.dev, Fs.dev_of_getSuper hk]
    exact umountDev_ne hold
  have hbottom := h.bottom k hlt
  have hzeros : zeros (t.superTable k).imount + zeros (t.superTable k).iroot
      = [(s.superTable k).iroot, (s.superTable k).imount].count (some 0) := by
    rw [hmounts.imount, hmounts.iroot, zeros, zeros, List.count_cons, List.count_cons, List.count_nil]
    simp only [beq_iff_eq, Nat.zero_add]
  have hcount := hold.count 0
  have hroom := h.room 0 (by decide)
  have hle : [i].count 0 ≤ 1 := List.count_le_length
  obtain ⟨u, hput, hdown, hn, hsmall⟩ := putSuper_returns (t := t) (k := k) (n := [i].count 0) hused (by omega)
    (by omega)
  obtain ⟨v, hput', -⟩ := iputOpt_returns (t := u) (o := some i) (n := 0) hsmall (by
    refine Nat.lt_of_le_of_lt ?_ hn
    rw [zeros, List.count_singleton]
    split
    next heq => simp [Option.some.inj heq]
    next => exact Nat.zero_le _)
  refine ⟨v, by rw [umountRollback, putSuperOpt, hput]; simp only [Option.bind_eq_bind, Option.bind_some, hput']; rfl, ?_⟩
  rintro ⟨hsame, -⟩
  have hchange := hsame.count k
  rw [(SameMounts.iputOpt hput').count, hdown, hmounts.count] at hchange
  rw [hmounts.count] at hused
  omega

/-- **`sys_umount` keeps what it should exactly when it fails early or succeeds**: when the target
passes the tests in front of `get_super`, its device must have a super block, be mounted and have
no more than its root in memory. -/
theorem umount_keeps_iff (h : MountState s) : UmountKeeps s target ↔ UmountFits s target := by
  constructor
  · rintro ⟨hkeep, hsuper⟩ i t hname htarget
    obtain ⟨hold, -⟩ := h.namei hname
    have hmounts := SameMounts.namei hname
    obtain ⟨k, hk⟩ := Option.ne_none_iff_exists'.mp (hsuper i t hname htarget)
    obtain ⟨u, hback, hchanged⟩ := umountRollback_changes h hold hmounts hk
    have hrun : sysUmount s target = umountSuper t i := by
      rw [sysUmount, hname]
      simp only [Option.bind_eq_bind, Option.bind_some, htarget, if_true]
    cases hm : (t.superTable k).imount with
    | none =>
      refine absurd (hkeep u ?_) hchanged
      rw [hrun, umountSuper, hk]
      simp only [Option.bind_eq_bind, Option.bind_some, hm]
      exact hback
    | some m =>
      refine ⟨k, m, hk, hm, Nat.le_of_not_lt fun hlong => absurd (hkeep u ?_) hchanged⟩
      rw [hrun, umountSuper, hk]
      simp only [Option.bind_eq_bind, Option.bind_some, hm, if_pos hlong]
      exact hback
  · intro hfits
    refine ⟨fun t hrun => ?_, fun i t hname htarget => ?_⟩
    · obtain ⟨⟨r, u⟩, hname, hrun⟩ := Option.bind_eq_some_iff.mp hrun
      obtain ⟨hold, -⟩ := h.namei hname
      have hmounts := SameMounts.namei hname
      cases r with
      | none =>
        obtain ⟨-, rfl⟩ := Prod.mk.inj (Option.some.inj hrun)
        exact Unchanged.of_holding hmounts hold
      | some i =>
        simp only at hrun
        split at hrun
        next htarget =>
          -- past `get_super` the condition leaves only the way to success
          obtain ⟨k, m, hk, hm, hshort⟩ := hfits i u hname htarget
          rw [umountSuper, hk] at hrun
          simp only [Option.bind_eq_bind, Option.bind_some, hm, if_neg (Nat.not_lt.mpr hshort)] at hrun
          obtain ⟨v, -, hrun⟩ := Option.bind_eq_some_iff.mp hrun
          obtain ⟨v', -, hrun⟩ := Option.bind_eq_some_iff.mp hrun
          obtain ⟨w, -, hrun⟩ := Option.bind_eq_some_iff.mp hrun
          obtain ⟨w', -, hrun⟩ := Option.bind_eq_some_iff.mp hrun
          have hret := (Prod.mk.inj (Option.some.inj hrun)).1
          exact absurd hret (by decide)
        next htarget =>
          obtain ⟨w, hput, hrun⟩ := Option.bind_eq_some_iff.mp hrun
          obtain ⟨-, rfl⟩ := Prod.mk.inj (Option.some.inj hrun)
          exact Unchanged.of_holding (hmounts.trans (SameMounts.iput hput))
            (hold.iput (h.room_of_le (by simp)) hput)
    · obtain ⟨k, m, hk, -⟩ := hfits i t hname htarget
      rw [hk]
      exact Option.some_ne_none k

end Umount

/-! ### A block device in the root directory -/

/-- The blocks of a device with a block device `/b`, which stands for device `z`, and an empty directory
`/m`. -/
def mountBlocks (z b : ℕ) : Bytes :=
  if b = 4 then inodeBytes 0 [(0o040755, 64, 2, 5), (0o060600, 0, 1, z), (0o040755, 32, 2, 6)]
  else if b = 5 then
    dirBytes 0 [(1, cstr ['.']), (1, cstr ['.', '.']), (2, cstr ['b']), (3, cstr ['m'])]
  else if b = 6 then dirBytes 0 [(3, cstr ['.']), (1, cstr ['.', '.'])]
  else fun _ => 0#8

/-- That device at the top of the tree. -/
def mountFs (z : ℕ) : Fs := rootFs (mountBlocks z) 8

theorem mountFs_state (z : ℕ) : MountState (mountFs z) where
  table := rootFs_tableOk (by decide)
  listed := by
    refine ⟨fun j _ hused => ?_, fun k j hj => ?_,
      fun j _ j' _ hused hused' _ => (rootFs_used hused).trans (rootFs_used hused').symm⟩
    · obtain rfl := rootFs_used hused
      exact ⟨0, rootFs_getSuper, List.mem_singleton_self 0⟩
    · obtain ⟨rfl, rfl⟩ := mem_rootFs_list hj
      rfl
  pinned := rootFs_pinned (by decide)
  dirs := by
    have hroot : 0 < inodeNr ∧ (mountFs z).counts 0 ≠ 0 := ⟨by decide, (by decide : (8 : ℕ) ≠ 0)⟩
    exact ⟨hroot, hroot⟩
  room j _ := by
    rw [Fs.counts, mountFs, rootFs_inode]
    split <;> decide
  used k _ hdev := by
    rw [mountFs, rootFs_superDev] at hdev
    split at hdev
    next hk =>
      subst hk
      exact Nat.one_pos
    next => exact absurd rfl hdev
  supers k _ := by
    rw [mountFs, rootFs_superCount]
    decide
  bottom k _ := by
    obtain ⟨hroot, hmount, -⟩ := rootFs_super (mountBlocks z) 8 k
    rw [mountFs, hroot, hmount, show (rootFs (mountBlocks z) 8).counts 0 = 8 from rfl]
    split <;> decide
  clean k _ hdev := by
    obtain ⟨-, hmount, -⟩ := rootFs_super (mountBlocks z) 8 k
    rw [mountFs, rootFs_superDev] at hdev
    rw [mountFs, hmount]
    split at hdev
    next => exact absurd hdev (by decide)
    next hk => rw [if_neg hk]
  mounts j _ hm := absurd (rootFs_mount j) hm

/-- Nothing is wrong with a target that is neither a device nor a root directory. -/
theorem umount_keeps_directory :
    UmountKeeps (mountFs 1) (cstr ['/', 'm']) ↔ UmountFits (mountFs 1) (cstr ['/', 'm']) :=
  umount_keeps_iff (mountFs_state 1)

set_option maxRecDepth 10000 in
/-- **The root device loses its super block** when it is to be unmounted by its name: the call fails,
and entry 0 of the table is free afterwards. -/
theorem umount_root : MountState (mountFs 1) ∧ ¬UmountKeeps (mountFs 1) (cstr ['/', 'b']) := by
  refine ⟨mountFs_state 1, fun hkeep => ?_⟩
  have hrun : (sysUmount (mountFs 1) (cstr ['/', 'b'])).map
      (fun p => (p.1, (p.2.superTable 0).count)) = some (-1, 0) := by decide
  obtain ⟨⟨r, t⟩, hcall, heq⟩ := Option.map_eq_some_iff.mp hrun
  obtain ⟨rfl, hcount⟩ := Prod.mk.inj heq
  have hsame := (hkeep.1 t hcall).1.count 0
  exact absurd (hcount.symm.trans hsame) (by decide)

end Onixs
