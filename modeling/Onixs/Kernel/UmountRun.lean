import Onixs.Kernel.Umount

/-!
# Runs with mounts and unmounts

`sys_umount` takes a device down when at most one of its inodes is in memory. That is its root
directory, which the mount holds; so a task or a file can refer to the root directory alone, and
when none does nothing refers to the device behind the call (`Onixs.Processes.Keeping.umountDone`).
A call that is refused behind `get_super` gives up a reference it has not taken, and the
super block goes with the last one. As long as neither happens, what tasks and files refer to has a
super block in every state of a run (`Onixs.umountRun_idle`).
-/

namespace Onixs

namespace Processes

section Pointers

variable {s : Processes} {L F : List ℕ} {u : Fs} {k r m j i : ℕ}

/-- What a task or a file refers to has references. -/
theorem Uses.refs_ne_zero (h : s.Uses j) : s.refs j ≠ 0 := by
  rw [refs]
  rcases h with ⟨pid, hpid, hmem⟩ | ⟨f, hf, hmem⟩
  · have hle := Finset.single_le_sum (f := fun pid => (s.taskInodes pid).count j) (fun _ _ => Nat.zero_le _)
      (Finset.mem_range.mpr hpid)
    have hpos := List.count_pos_iff.mpr hmem
    omega
  · have hle := Finset.single_le_sum (f := fun f => (s.fileTable f).inodes.count j) (fun _ _ => Nat.zero_le _)
      (Finset.mem_range.mpr hf)
    have hpos := List.count_pos_iff.mpr hmem
    omega

/-- What neither tasks nor files nor super blocks refer to has none. -/
theorem refs_eq_zero (huse : ¬s.Uses j) (hsuper : ∀ k < superNr, j ∉ (s.fs.superTable k).inodes) :
    s.refs j = 0 := by
  have htask : ∑ pid ∈ Finset.range taskNumber, (s.taskInodes pid).count j = 0 :=
    Finset.sum_eq_zero fun pid hpid => List.count_eq_zero_of_not_mem fun hmem =>
      huse (Or.inl ⟨pid, Finset.mem_range.mp hpid, hmem⟩)
  have hfile : ∑ f ∈ Finset.range fileNr, (s.fileTable f).inodes.count j = 0 :=
    Finset.sum_eq_zero fun f hf => List.count_eq_zero_of_not_mem fun hmem =>
      huse (Or.inr ⟨f, Finset.mem_range.mp hf, hmem⟩)
  have hblock : ∑ k ∈ Finset.range superNr, (s.fs.superTable k).inodes.count j = 0 :=
    Finset.sum_eq_zero fun k hk => List.count_eq_zero_of_not_mem (hsuper k (Finset.mem_range.mp hk))
  rw [refs, htask, hfile, hblock]

/-- **What tasks and files refer to is in memory**, in the list of a super block. -/
theorem Keeping.live (h : Keeping Linked s L F) (huse : s.Uses j) :
    ∃ k, s.fs.getSuper (s.fs.inodeTable j).dev = some k ∧ j ∈ (s.fs.superTable k).inodeList := by
  have hj : j < inodeNr := by
    rcases huse with ⟨pid, -, hmem⟩ | ⟨f, -, hmem⟩
    · exact h.1.inodes_lt pid j hmem
    · exact h.1.fileInodes_lt f j hmem
  refine h.2.1.mem j hj ?_
  have hpos := huse.refs_ne_zero
  rw [h.1.count j hj]
  omega

/-! ### Unmounting -/

/-- **The stores of `sys_umount`** leave the root and the mount point to the call. -/
theorem Keeping.unmounted (h : Keeping Linked s L F) (hk : k < superNr) (hroot : (s.fs.superTable k).iroot = some r)
    (hm : (s.fs.superTable k).imount = some m) :
    Keeping Linked (s.setFs (unmounted s.fs k m)) (r :: m :: L) F := by
  obtain ⟨t, ht⟩ : ∃ t, t = Onixs.unmounted s.fs k m := ⟨_, rfl⟩
  have hself : t.superTable k = { s.fs.superTable k with iroot := none, imount := none } := by
    rw [ht, unmounted_self]
  have hother : ∀ k', k' ≠ k → t.superTable k' = s.fs.superTable k' := fun k' hne => by
    rw [ht, unmounted_of_ne _ _ hne]
  have hcount : ∀ x, (t.inodeTable x).count = (s.fs.inodeTable x).count := fun x => by rw [ht, unmounted_count]
  have hnodes : ∀ x, t.nodeOf x = s.fs.nodeOf x := fun x => by rw [ht, unmounted_nodeOf]
  have hsuper : ∀ k', (t.superTable k').dev = (s.fs.superTable k').dev ∧
      (t.superTable k').inodeList = (s.fs.superTable k').inodeList := fun k' => by
    rw [ht]
    exact ⟨(unmounted_super s.fs k m k').1, (unmounted_super s.fs k m k').2.1⟩
  have hget : ∀ d, t.getSuper d = s.fs.getSuper d := fun d => by
    rw [Fs.getSuper, Fs.getSuper]
    exact congrArg (fun p => List.find? p _) (funext fun k' => by rw [(hsuper k').1])
  rw [← ht]
  refine ⟨h.1.setPointers hk
    (h.1.table.congr (fun x => ⟨congrArg Prod.fst (hnodes x), hcount x⟩) fun k' => (hsuper k').2) hcount
    (fun k' hne => by rw [hother k' hne]) ?_ fun k' hk' x hx hx1 k'' hk'' => ?_,
    h.2.1.congr (fun x => ⟨hnodes x, hcount x⟩) hsuper, ?_⟩
  · rw [hself, SuperBlock.inodes, SuperBlock.inodes, hroot, hm]
    exact List.Perm.refl _
  · -- a mount point with number 1 is another one, and so is the device it is on
    have hne : k' ≠ k := by
      rintro rfl
      rw [hself] at hx
      exact absurd hx (by simp)
    rw [hother k' hne] at hx
    have hx1' : (s.fs.inodeTable x).nr = 1 := (congrArg Prod.snd (hnodes x)).symm.trans hx1
    rw [show (t.inodeTable x).dev = (s.fs.inodeTable x).dev from congrArg Prod.fst (hnodes x), hget] at hk''
    have htop := h.1.top k' hk' x hx hx1' k'' hk''
    rw [hother k'' fun heq => hne (h.2.2.points k' hk' k hk x hx (heq ▸ htop))]
    exact htop
  · rw [ht]
    exact h.2.2.unmounted hm

/-- A mounted device has a number, -/
theorem mounted_dev (hin : TableInOrder s.fs.states) (hk : k < superNr)
    (hm : (s.fs.superTable k).imount = some m) : (s.fs.superTable k).dev ≠ EOF := fun heq =>
  absurd ((hin.entry k hk).free heq).2.2 (by
    rw [show (s.fs.states k).2.2.2 = some m from hm]
    exact Option.some_ne_none m)

/-- its root directory is on it, -/
theorem Keeping.root_node (h : Keeping Linked s L F) (hk : k < superNr)
    (hroot : (s.fs.superTable k).iroot = some r) (hm : (s.fs.superTable k).imount = some m) :
    s.fs.nodeOf r = ((s.fs.superTable k).dev, 1) := by
  obtain ⟨r', hr', hnode⟩ := h.2.2.root k hk (by rw [hm]; exact Option.some_ne_none m)
  obtain rfl := Option.some.inj (hroot.symm.trans hr')
  exact hnode

/-- and is in its list. -/
theorem Keeping.root_listed (h : Keeping Linked s L F) (hin : TableInOrder s.fs.states) (hk : k < superNr)
    (hroot : (s.fs.superTable k).iroot = some r) (hm : (s.fs.superTable k).imount = some m) :
    r < inodeNr ∧ s.fs.getSuper (s.fs.inodeTable r).dev = some k ∧ r ∈ (s.fs.superTable k).inodeList := by
  have hlt : r < inodeNr := h.1.supers_lt k hk r (by simp [SuperBlock.inodes, hroot])
  have hused : (s.fs.inodeTable r).count ≠ 0 := h.1.holding.used_of_pinned (h.1.pinned.iroot k hk r hroot).2
  obtain ⟨k₀, hk₀, hmem⟩ := h.2.1.mem r hlt hused
  have hdev : (s.fs.superTable k₀).dev = (s.fs.superTable k).dev :=
    (Fs.dev_of_getSuper hk₀).trans (congrArg Prod.fst (h.root_node hk hroot hm))
  obtain rfl := hin.unique k₀ (getSuper_lt hk₀) k hk hdev fun heq => mounted_dev hin hk hm (hdev.symm.trans heq)
  exact ⟨hlt, hk₀, hmem⟩

/-- **Nothing but the super block refers to the root directory of a device that is not in use.** -/
theorem Keeping.root_alone (h : Keeping Linked s L F) (hin : TableInOrder s.fs.states) (hk : k < superNr)
    (hroot : (s.fs.superTable k).iroot = some r) (hm : (s.fs.superTable k).imount = some m) {k' : ℕ}
    (hk' : k' < superNr) (hmem : r ∈ (s.fs.superTable k').inodes) : k' = k := by
  have hnode := h.root_node hk hroot hm
  have hne := mounted_dev hin hk hm
  rw [SuperBlock.inodes, List.mem_append, Option.mem_toList, Option.mem_toList] at hmem
  rcases hmem with hmem | hmem
  · -- the root directory of another device is on that device
    cases hm' : (s.fs.superTable k').imount with
    | none =>
      rw [h.2.2.bare k' hk' hm'] at hmem
      exact absurd hmem (by simp)
    | some m' =>
      have heq : (s.fs.superTable k').dev = (s.fs.superTable k).dev :=
        (congrArg Prod.fst (h.root_node hk' (Option.mem_def.mp hmem) hm')).symm.trans (congrArg Prod.fst hnode)
      exact hin.unique k' hk' k hk heq fun hfree => hne (heq.symm.trans hfree)
  · -- a device mounted on it is mounted on its own root
    have htop := h.1.top k' hk' r (Option.mem_def.mp hmem) (congrArg Prod.snd hnode) k
      (h.root_listed hin hk hroot hm).2.1
    exact h.2.2.points k' hk' k hk r (Option.mem_def.mp hmem) htop

/-- **A successful `sys_umount` of a device whose root directory has no user**: the lists and the pointers
stay right, and neither a task nor a file refers to an inode of the device. -/
theorem Keeping.umountDone (h : Keeping Linked s [i] F) (hin : TableInOrder s.fs.states) (hk : k < superNr)
    (hroot : (s.fs.superTable k).iroot = some r) (hm : (s.fs.superTable k).imount = some m)
    (hshort : (s.fs.superTable k).inodeList.length ≤ 1) (hfree : ¬s.Uses r) {t₁ t₂ t₃ : Fs}
    (hput₁ : Onixs.iput s.fs r = some t₁) (hput₂ : Onixs.iput ((t₁.setIroot k none).setMount m 0) m = some t₂)
    (hput₃ : Onixs.putSuper (t₂.setImount k none) k = some t₃) (hput₄ : Onixs.iput t₃ i = some u) :
    Keeping Linked (s.setFs u) [] F ∧ (s.setFs u).Idle (s.fs.superTable k).dev := by
  have hne := mounted_dev hin hk hm
  obtain ⟨v₁, v₂, v₃, hv₁, hv₂, hv₃, rfl⟩ := umount_stores hput₁ hput₂ hput₃ hput₄
  have h₁ := h.unmounted hk hroot hm
  have h₂ := h₁.iput kept_linked (by simp) hv₁
  have h₃ := h₂.iput (s := s.setFs v₁) kept_linked (by simp) hv₂
  have h₄ : Keeping Linked (s.setFs v₃) [] F := h₃.iput (s := s.setFs v₂) kept_linked (by simp) hv₃
  have hsame := ((SameMounts.iput hv₁).trans (SameMounts.iput hv₂)).trans (SameMounts.iput hv₃)
  have hdevs : ∀ k', (v₃.superTable k').dev = (s.fs.superTable k').dev := fun k' =>
    (hsame.dev k').trans (unmounted_super s.fs k m k').1
  -- the list had the root directory alone, and now that is free
  have hzero : (s.setFs v₃).refs r = 0 := by
    refine refs_eq_zero hfree fun k' hk' hmem => ?_
    have hpointers : (v₃.superTable k').inodes = ((Onixs.unmounted s.fs k m).superTable k').inodes := by
      rw [SuperBlock.inodes, SuperBlock.inodes, hsame.iroot, hsame.imount]
    change r ∈ (v₃.superTable k').inodes at hmem
    rw [hpointers] at hmem
    rcases eq_or_ne k' k with rfl | hother
    · rw [unmounted_self] at hmem
      exact List.not_mem_nil hmem
    · rw [unmounted_of_ne _ _ hother] at hmem
      exact hother (h.root_alone hin hk hroot hm hk' hmem)
  have hlist : (v₃.superTable k).inodeList = [] := by
    rw [List.eq_nil_iff_forall_not_mem]
    intro x hx
    have hx₁ := iput_list hv₁ k x (iput_list hv₂ k x (iput_list hv₃ k x hx))
    rw [(unmounted_super s.fs k m k).2.1] at hx₁
    obtain ⟨hrlt, -, hmem⟩ := h.root_listed hin hk hroot hm
    obtain ⟨y, hy⟩ := List.length_eq_one_iff.mp (Nat.le_antisymm hshort (List.length_pos_of_mem hmem))
    rw [hy, List.mem_singleton] at hx₁ hmem
    have hxr : x = r := hx₁.trans hmem.symm
    subst hxr
    have hcount : (v₃.inodeTable x).count = 0 := by
      rw [show (v₃.inodeTable x).count = _ from h₄.1.count x hrlt, hzero]
      rfl
    exact (h₄.1.table.used k x hx).2 hcount
  have hdone := h₄.putSuper hk (fun k' hk' heq hfree' => by
    have hk'' : (v₃.superTable k').dev = (v₃.superTable k).dev := heq
    rw [hdevs, hdevs] at hk''
    exact hin.unique k' hk' k hk hk'' fun heq' => hne (hk''.symm.trans heq')) fun _ => by
      refine ⟨?_, hlist⟩
      have hnone := hsame.imount k
      rw [unmounted_self] at hnone
      exact hnone
  refine ⟨hdone, fun j huse => ?_⟩
  obtain ⟨k₁, hk₁, hmem⟩ := Keeping.live hdone huse
  refine ⟨fun heq => ?_, k₁, hk₁⟩
  rcases eq_or_ne k₁ k with rfl | hother
  · have hmem' : j ∈ ((v₃.mapSuper k₁ SuperBlock.put).superTable k₁).inodeList := hmem
    rw [Fs.mapSuper, Fs.setSuper_self] at hmem'
    rw [show (v₃.superTable k₁).put.inodeList = (v₃.superTable k₁).inodeList from rfl, hlist] at hmem'
    exact List.not_mem_nil hmem'
  · have hdev₁ : ((v₃.mapSuper k SuperBlock.put).superTable k₁).dev = (s.fs.superTable k).dev :=
      (Fs.dev_of_getSuper hk₁).trans heq
    rw [Fs.mapSuper, Fs.setSuper_of_ne _ _ hother, hdevs] at hdev₁
    exact hother (hin.unique k₁ (getSuper_lt hk₁) k hk hdev₁ fun heq' => hne (hdev₁.symm.trans heq'))

/-- **A `sys_umount` that is refused** gives up a reference to the super block. -/
theorem Keeping.umountRefused (h : Keeping Linked s [i] F) (hin : TableInOrder s.fs.states) (hk : k < superNr)
    (hlast : (s.fs.superTable k).count = 1 →
      (s.fs.superTable k).imount = none ∧ (s.fs.superTable k).inodeList = []) {ret ret' : ℤ}
    (hrun : umountRollback s.fs (some k) (some i) ret = some (ret', u)) : Keeping Linked (s.setFs u) [] F := by
  obtain ⟨v, hput, hrun⟩ := Option.bind_eq_some_iff.mp hrun
  obtain ⟨w, hput', hrun⟩ := Option.bind_eq_some_iff.mp hrun
  obtain ⟨-, rfl⟩ := Prod.mk.inj (Option.some.inj hrun)
  have hpos := (putSuper_states hput).1
  have hbare := putSuper_bare hpos fun hone => ⟨h.2.2.bare k hk (hlast hone).1, (hlast hone).1⟩
  obtain rfl := Option.some.inj (hput.symm.trans hbare)
  have hpos' : 0 < (s.fs.superTable k).count := hpos
  have h₁ := h.putSuper hk
    (fun k' hk' heq hne => hin.unique k' hk' k hk heq fun hfree => hne (heq.symm.trans hfree))
    fun hzero => hlast (by omega)
  have h₂ := h₁.iput (L := []) kept_linked (by simp) hput'
  exact h₂

/-- **No reference is left without a super block** when `sys_umount`, behind `get_super`, does one of two things: it
takes a device down whose root directory no task and no file refers to, or it turns down a device whose
super block has another reference or no use. -/
def Spares (s : Processes) (t : Fs) (k : ℕ) : Prop :=
  if (t.superTable k).imount = none ∨ 1 < (t.superTable k).inodeList.length then
    (t.superTable k).count = 1 → (t.superTable k).imount = none ∧ (t.superTable k).inodeList = []
  else ∀ r ∈ (t.superTable k).iroot, ¬s.Uses r

instance (s : Processes) (t : Fs) (k : ℕ) : Decidable (s.Spares t k) := inferInstanceAs (Decidable (ite ..))

theorem Keeping.umountSuper (h : Keeping Linked s [i] F) (hin : TableInOrder s.fs.states)
    (hspares : ∀ k, s.fs.getSuper (umountDev s.fs i) = some k → s.Spares s.fs k) {ret : ℤ}
    (hrun : umountSuper s.fs i = some (ret, u)) :
    Keeping Linked (s.setFs u) [] F ∧ (ret = 0 → (s.setFs u).Idle (umountDev s.fs i)) := by
  obtain ⟨k, hk, hrun⟩ := Option.bind_eq_some_iff.mp hrun
  have hlt := getSuper_lt hk
  have hspares := hspares k hk
  have hrefused : (s.fs.superTable k).imount = none ∨ 1 < (s.fs.superTable k).inodeList.length →
      umountRollback s.fs (some k) (some i) (-1) = some (ret, u) →
      Keeping Linked (s.setFs u) [] F ∧ (ret = 0 → (s.setFs u).Idle (umountDev s.fs i)) := by
    intro hwhy hback
    rw [Spares, if_pos hwhy] at hspares
    refine ⟨h.umountRefused hin hlt hspares hback, fun hret => ?_⟩
    obtain ⟨v, -, hback⟩ := Option.bind_eq_some_iff.mp hback
    obtain ⟨w, -, hback⟩ := Option.bind_eq_some_iff.mp hback
    have hminus := (Prod.mk.inj (Option.some.inj hback)).1
    rw [hret] at hminus
    exact absurd hminus (by decide)
  cases hm : (s.fs.superTable k).imount with
  | none =>
    simp only [hm] at hrun
    exact hrefused (Or.inl hm) hrun
  | some m =>
    simp only [hm] at hrun
    split at hrun
    next hlong => exact hrefused (Or.inr hlong) hrun
    next hshort =>
      rw [Spares, hm, if_neg (by simpa using hshort)] at hspares
      obtain ⟨r, hroot, -⟩ := h.2.2.root k hlt (by rw [hm]; exact Option.some_ne_none m)
      obtain ⟨t₁, hput₁, hrun⟩ := Option.bind_eq_some_iff.mp hrun
      obtain ⟨t₂, hput₂, hrun⟩ := Option.bind_eq_some_iff.mp hrun
      obtain ⟨t₃, hput₃, hrun⟩ := Option.bind_eq_some_iff.mp hrun
      obtain ⟨t₄, hput₄, hrun⟩ := Option.bind_eq_some_iff.mp hrun
      obtain ⟨-, rfl⟩ := Prod.mk.inj (Option.some.inj hrun)
      rw [hroot] at hput₁
      have hdone := h.umountDone hin hlt hroot hm (Nat.le_of_not_lt hshort) (hspares r hroot) hput₁ hput₂
        hput₃ hput₄
      refine ⟨hdone.1, fun _ => ?_⟩
      rw [← Fs.dev_of_getSuper hk]
      exact hdone.2

/-- **`sys_umount`** keeps the lists and the pointers right, and nothing refers to the device it takes down. -/
theorem Keeping.sysUmount {pid : ℕ} {p : Process} (h : Keeping Linked s [] F) (hin : TableInOrder s.fs.states)
    (hrun : s.running pid = some p) {target : CStr} {ret : ℤ}
    (hspares : ∀ e ∈ umountEntry (s.asTask p) target, s.Spares e.2.2 e.2.1)
    (hcall : sysUmount (s.asTask p) target = some (ret, u)) :
    Keeping Linked (s.setFs u) [] F ∧
      ∀ e ∈ umountEntry (s.asTask p) target, ret = 0 → (s.setFs u).Idle (umountDev e.2.2 e.1) := by
  obtain ⟨⟨d, s₁⟩, hname, hcall⟩ := Option.bind_eq_some_iff.mp hcall
  have h₁ := h.namei kept_linked (by simp) hrun hname
  have hentry : ∀ e ∈ umountEntry (s.asTask p) target, d = some e.1 ∧ umountTarget s₁ e.1 = true ∧
      s₁.getSuper (umountDev s₁ e.1) = some e.2.1 ∧ e.2.2 = s₁ := by
    intro e he
    obtain ⟨q, hname', he⟩ := Option.bind_eq_some_iff.mp he
    obtain rfl := Option.some.inj (hname.symm.trans hname')
    obtain ⟨i, hi, he⟩ := Option.bind_eq_some_iff.mp he
    obtain ⟨_, htarget, he⟩ := Option.bind_eq_some_iff.mp he
    obtain ⟨k, hk, he⟩ := Option.bind_eq_some_iff.mp he
    obtain rfl := Option.some.inj he
    exact ⟨hi, assert_eq_some.mp htarget, hk, rfl⟩
  cases d with
  | none =>
    obtain ⟨-, rfl⟩ := Prod.mk.inj (Option.some.inj hcall)
    exact ⟨h₁, fun e he => absurd (hentry e he).1 (by simp)⟩
  | some i =>
    simp only at hcall
    split at hcall
    next htarget =>
      have hin' : TableInOrder s₁.states := by
        rw [(SameMounts.namei hname).states]
        exact hin
      have hall : ∀ k, s₁.getSuper (umountDev s₁ i) = some k → s.Spares s₁ k := by
        intro k hk
        refine hspares (i, k, s₁) ?_
        rw [Option.mem_def, umountEntry, hname]
        simp only [Option.bind_eq_bind, Option.bind_some, htarget, assert_pos, hk]
        rfl
      obtain ⟨hkept, hidle⟩ := Keeping.umountSuper (s := s.setFs s₁) h₁ hin' hall hcall
      refine ⟨hkept, fun e he hret => ?_⟩
      obtain ⟨hi, -, -, hs⟩ := hentry e he
      obtain rfl := Option.some.inj hi
      rw [hs]
      exact hidle hret
    next htarget =>
      obtain ⟨w, hput, hcall⟩ := Option.bind_eq_some_iff.mp hcall
      obtain ⟨-, rfl⟩ := Prod.mk.inj (Option.some.inj hcall)
      have h₂ := h₁.iput (L := []) kept_linked (by simp) hput
      refine ⟨h₂, fun e he => ?_⟩
      obtain ⟨hi, hfit, -⟩ := hentry e he
      obtain rfl := Option.some.inj hi
      exact absurd hfit htarget

end Pointers

end Processes

/-! ### Runs -/

instance (s : Fs) (devname dirname : CStr) : Decidable (Processes.MountSound s devname dirname) :=
  decidable_of_iff (∀ q ∈ namei s devname, ∀ q' ∈ namei q.2 dirname, ∀ j ∈ q'.1,
      ∀ k ∈ q'.2.getSuper (q'.2.inodeTable j).dev, (q'.2.superTable k).imount ≠ none) <| by
    constructor
    · exact fun h d s₁ j s₂ hname hname' k hk => h (d, s₁) hname (some j, s₂) hname' j rfl k hk
    · rintro h ⟨d, s₁⟩ hname ⟨o, s₂⟩ hname' j rfl k hk
      exact h d s₁ j s₂ hname hname' k hk

/-- **A step that leaves no reference without a super block.** -/
def SystemOp.Fits (s : Processes) : SystemOp → Prop
  | .process op => Harmless s op
  | .mount pid devname dirname => ∀ p ∈ s.running pid, Processes.MountSound (s.asTask p) devname dirname
  | .umount pid target => ∀ p ∈ s.running pid, ∀ e ∈ umountEntry (s.asTask p) target, s.Spares e.2.2 e.2.1

instance (s : Processes) : (op : SystemOp) → Decidable (op.Fits s)
  | .process op => inferInstanceAs (Decidable (Harmless s op))
  | .mount pid devname dirname =>
      inferInstanceAs (Decidable (∀ p ∈ s.running pid, Processes.MountSound (s.asTask p) devname dirname))
  | .umount pid target => inferInstanceAs (Decidable (∀ p ∈ s.running pid,
      ∀ e ∈ umountEntry (s.asTask p) target, s.Spares e.2.2 e.2.1))

/-- **The device is not in use** behind a `sys_umount` that returns 0. -/
def SystemOp.Leaves (s : Processes) (r : ℤ) (t : Processes) : SystemOp → Prop
  | .umount pid target => r = 0 → ∀ p ∈ s.running pid, ∀ e ∈ umountEntry (s.asTask p) target,
      t.Idle (umountDev e.2.2 e.1)
  | _ => True

/-- **A step keeps the tables right**, and what it takes down is not in use. -/
theorem systemStep_keeps {s t : Processes} {op : SystemOp} {r : ℤ} (h : Processes.Keeping MountsOk s [] [])
    (hfits : op.Fits s) (hstep : systemStep s op = some (r, t)) :
    Processes.Keeping MountsOk t [] [] ∧ op.Leaves s r t := by
  have hlinked : Processes.Keeping Linked s [] [] := ⟨h.1, h.2.linked⟩
  have hin := h.2.2.2
  cases op with
  | process op => exact ⟨h.step Processes.kept_mountsOk (by simp) hfits hstep, trivial⟩
  | mount pid devname dirname =>
    obtain ⟨p, hrun, hstep⟩ := Option.bind_eq_some_iff.mp hstep
    obtain ⟨⟨ret, fs⟩, hcall, hstep⟩ := Option.bind_eq_some_iff.mp hstep
    obtain ⟨-, rfl⟩ := Prod.mk.inj (Option.some.inj hstep)
    have hkept := hlinked.sysMount hin (by simp) hrun (hfits p hrun) hcall
    have hin' : TableInOrder (s.asTask p).states := hin
    exact ⟨⟨hkept.1, hkept.2.1, hkept.2.2, hin'.sysMount hcall⟩, trivial⟩
  | umount pid target =>
    obtain ⟨p, hrun, hstep⟩ := Option.bind_eq_some_iff.mp hstep
    obtain ⟨⟨ret, fs⟩, hcall, hstep⟩ := Option.bind_eq_some_iff.mp hstep
    obtain ⟨rfl, rfl⟩ := Prod.mk.inj (Option.some.inj hstep)
    obtain ⟨hkept, hidle⟩ := hlinked.sysUmount hin hrun (hfits p hrun) hcall
    have hin' : TableInOrder (s.asTask p).states := hin
    refine ⟨⟨hkept.1, hkept.2.1, hkept.2.2, hin'.sysUmount ?_ hcall⟩, fun hret p' hrun' => ?_⟩
    · intro i t k hname htarget hk hwhy hone
      have hspares := hfits p hrun (i, k, t) (by
        rw [Option.mem_def, umountEntry, hname]
        simp only [Option.bind_eq_bind, Option.bind_some, htarget, assert_pos, hk]
        rfl)
      rw [Processes.Spares, if_pos hwhy] at hspares
      have hname' := hlinked.namei Processes.kept_linked (by simp) hrun hname
      exact ⟨hname'.2.2.bare k (getSuper_lt hk) (hspares hone).1, (hspares hone).1⟩
    · obtain rfl := Option.some.inj (hrun.symm.trans hrun')
      exact fun e he => hidle e he hret

/-- The tasks of `task_init` on a device with a block device `/b` and an empty directory `/m`, before a file is open. -/
def mountProcesses : Processes where
  fs := startedFs (mountBlocks 2) 8
  fileTable _ := { inode := none, count := 0, offset := 0, flags := 0, mode := 0 }
  tasks pid := if pid < 3 then some { bootProcess pid with files := fun _ => none } else none

theorem startedFs_inode (j : ℕ) : ((startedFs (mountBlocks 2) 8).inodeTable j).count = (if j = 0 then 8 else 0) ∧
    ((startedFs (mountBlocks 2) 8).inodeTable j).dev = (if j = 0 then 1 else EOF) ∧
    ((startedFs (mountBlocks 2) 8).inodeTable j).mount = 0 := by
  rcases eq_or_ne j 0 with rfl | hne
  · exact ⟨rfl, rfl, rfl⟩
  · rw [startedFs, Fs.setInode_of_ne _ _ hne, if_neg hne, if_neg hne]
    exact ⟨rfl, rfl, rfl⟩

theorem startedFs_super (k : ℕ) : ((startedFs (mountBlocks 2) 8).superTable k).state
      = (if k = 0 then (1, 1, some 0, some 0) else (EOF, 0, none, none)) ∧
    ((startedFs (mountBlocks 2) 8).superTable k).inodeList = (if k = 0 then [0] else []) := by
  rcases eq_or_ne k 0 with rfl | hne
  · exact ⟨rfl, rfl⟩
  · rw [startedFs, Fs.setInode_superTable, Fs.setSuper_of_ne _ _ hne, if_neg hne, if_neg hne]
    exact ⟨rfl, rfl⟩

theorem mountProcesses_taskInodes (pid : ℕ) : mountProcesses.taskInodes pid = if pid < 3 then [0, 0] else [] := by
  rw [Processes.taskInodes, Processes.running, mountProcesses]
  by_cases hlt : pid < 3
  · simp [hlt, bootProcess, assert, Process.inodes]
  · simp [hlt]

theorem mountProcesses_taskFiles (pid : ℕ) : mountProcesses.taskFiles pid = [] := by
  rw [Processes.taskFiles, Processes.running, mountProcesses]
  by_cases hlt : pid < 3
  · simp only [hlt, if_true]
    rfl
  · simp [hlt]

theorem mountProcesses_superInodes (k : ℕ) :
    (mountProcesses.fs.superTable k).inodes = if k < 1 then [0, 0] else [] := by
  have hstate := (startedFs_super k).1
  change ((startedFs (mountBlocks 2) 8).superTable k).iroot.toList
    ++ ((startedFs (mountBlocks 2) 8).superTable k).imount.toList = _
  rcases eq_or_ne k 0 with rfl | hne
  · rfl
  · rw [if_neg hne] at hstate
    rw [if_neg (by omega), show ((startedFs (mountBlocks 2) 8).superTable k).iroot = none from
        congrArg (fun p => p.2.2.1) hstate,
      show ((startedFs (mountBlocks 2) 8).superTable k).imount = none from congrArg (fun p => p.2.2.2) hstate]
    rfl

theorem mountProcesses_refs (j : ℕ) : mountProcesses.refs j = if j = 0 then 8 else 0 := by
  simp only [Processes.refs, mountProcesses_taskInodes, mountProcesses_superInodes]
  have hfiles : ∀ f, (mountProcesses.fileTable f).inodes = [] := fun _ => rfl
  simp only [hfiles, List.count_nil, Finset.sum_const_zero]
  rw [sum_count_ite (by decide), sum_count_ite (by decide)]
  by_cases h0 : j = 0
  · subst h0
    decide
  · simp [h0, Ne.symm h0]

theorem mountProcesses_counting : mountProcesses.Counting [] [] := by
  have hone : ∀ j, j ∈ [0, 0] → j < inodeNr := by decide
  refine ⟨⟨fun j _ => ?_, fun k i hi => ?_, fun k => ?_⟩, fun j _ => ?_, fun f _ => ?_, fun pid hp => ?_,
    fun pid i hi => ?_, fun f i hi => absurd hi List.not_mem_nil, fun k _ i hi => ?_, by simp, fun pid f hf => ?_,
    by simp, fun k hk m hm hnr k' hk' => ?_⟩
  · have hnode := startedFs_inode j
    change ((startedFs (mountBlocks 2) 8).inodeTable j).dev = EOF ↔
      ((startedFs (mountBlocks 2) 8).inodeTable j).count = 0
    rw [hnode.1, hnode.2.1, EOF]
    split <;> omega
  · change i ∈ ((startedFs (mountBlocks 2) 8).superTable k).inodeList at hi
    rw [(startedFs_super k).2] at hi
    split at hi
    · obtain rfl := List.mem_singleton.mp hi
      refine ⟨by decide, ?_⟩
      change ((startedFs (mountBlocks 2) 8).inodeTable 0).count ≠ 0
      rw [(startedFs_inode 0).1]
      decide
    · exact absurd hi List.not_mem_nil
  · change ((startedFs (mountBlocks 2) 8).superTable k).inodeList.Nodup
    rw [(startedFs_super k).2]
    split <;> decide
  · rw [mountProcesses_refs, List.count_nil, Nat.add_zero]
    exact (startedFs_inode j).1
  · rw [Processes.fds, Finset.sum_eq_zero fun pid _ => by rw [mountProcesses_taskFiles, List.count_nil]]
    rfl
  · by_contra hlt
    have hnone : mountProcesses.tasks pid = none := if_neg fun hc => hlt (by rw [taskNumber]; omega)
    exact hp hnone
  · rw [mountProcesses_taskInodes] at hi
    split at hi
    · exact hone i hi
    · exact absurd hi List.not_mem_nil
  · rw [mountProcesses_superInodes] at hi
    split at hi
    · exact hone i hi
    · exact absurd hi List.not_mem_nil
  · rw [mountProcesses_taskFiles] at hf
    exact absurd hf List.not_mem_nil
  · have hm' : ((startedFs (mountBlocks 2) 8).superTable k).imount = some m := hm
    have hstate := congrArg (fun p => p.2.2.2) (startedFs_super k).1
    have hm0 : k = 0 ∧ m = 0 := by
      rcases eq_or_ne k 0 with rfl | hne
      · exact ⟨rfl, (Option.some.inj hm').symm⟩
      · rw [if_neg hne] at hstate
        exact absurd (hm'.symm.trans hstate) (by simp)
    obtain ⟨rfl, rfl⟩ := hm0
    have hget : (startedFs (mountBlocks 2) 8).getSuper 1 = some 0 := by rfl
    obtain rfl := Option.some.inj (hget.symm.trans hk')
    rfl

theorem mountProcesses_mountsOk : MountsOk mountProcesses.fs := by
  have hused : ∀ {j}, ((startedFs (mountBlocks 2) 8).inodeTable j).count ≠ 0 → j = 0 := fun {j} hne => by
    by_contra hj
    rw [(startedFs_inode j).1, if_neg hj] at hne
    exact hne rfl
  have hsuper : ∀ {k}, ((startedFs (mountBlocks 2) 8).superTable k).imount ≠ none → k = 0 := fun {k} hne => by
    by_contra hk
    have hstate := congrArg (fun p => p.2.2.2) (startedFs_super k).1
    rw [if_neg hk] at hstate
    exact hne hstate
  refine ⟨⟨fun j _ hj => ?_, fun k j hj => ?_, fun i _ j _ hi hj _ => (hused hi).trans (hused hj).symm⟩,
    ⟨fun k _ hm => ?_, fun k _ hm => ?_, fun k _ k' _ m hm hm' => ?_,
      fun j hj => absurd (startedFs_inode j).2.2 hj⟩,
    ⟨fun k _ => ?_, fun k _ k' _ heq hne => ?_⟩⟩
  · obtain rfl := hused hj
    exact ⟨0, rfl, List.mem_singleton_self 0⟩
  · change j ∈ ((startedFs (mountBlocks 2) 8).superTable k).inodeList at hj
    rw [(startedFs_super k).2] at hj
    split at hj
    next hk =>
      obtain rfl := List.mem_singleton.mp hj
      subst hk
      rfl
    next => exact absurd hj List.not_mem_nil
  · obtain rfl := hsuper hm
    exact ⟨0, rfl, rfl⟩
  · rcases eq_or_ne k 0 with rfl | hne
    · exact absurd hm (by simp [mountProcesses, startedFs, startedSuper, Fs.setInode_superTable])
    · have hstate := congrArg (fun p => p.2.2.1) (startedFs_super k).1
      rw [if_neg hne] at hstate
      exact hstate
  · have hzero : ∀ {k}, ((startedFs (mountBlocks 2) 8).superTable k).imount = some m → k = 0 := fun {k} hsome =>
      hsuper fun hnone => absurd (hsome.symm.trans hnone) (by simp)
    exact (hzero hm).trans (hzero hm').symm
  · change EntryOk ((startedFs (mountBlocks 2) 8).superTable k).state
    rw [(startedFs_super k).1]
    split
    · exact ⟨fun _ => Nat.one_pos, fun h => absurd h (by decide), by decide⟩
    · exact ⟨fun h => absurd rfl h, fun _ => ⟨rfl, rfl, rfl⟩, by decide⟩
  · have hzero : ∀ {k}, ((startedFs (mountBlocks 2) 8).superTable k).state.1 ≠ EOF → k = 0 := fun {k} hne => by
      by_contra hk
      rw [(startedFs_super k).1, if_neg hk] at hne
      exact hne rfl
    have hne' : ((startedFs (mountBlocks 2) 8).superTable k').state.1 ≠ EOF := fun hfree => hne (heq.trans hfree)
    exact (hzero hne).trans (hzero hne').symm

theorem mountProcesses_start : Processes.Keeping MountsOk mountProcesses [] [] :=
  ⟨mountProcesses_counting, mountProcesses_mountsOk⟩

end Onixs
