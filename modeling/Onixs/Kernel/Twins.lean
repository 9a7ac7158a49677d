import Onixs.Kernel.Alike

/-!
# The memory manager does not look at data

Two states that differ in words of pages that are no page tables (`Onixs.Memory.Twin`): what a system call, a fault, a
fork or an exit does in the one it does in the other, with the same result, and it leaves states that differ in these
words at most. Only three things move the difference: a copy of a page has the words of the page, a store of another
word adds one, and what is stored alike in both takes one away.
-/

namespace Onixs

namespace Memory

/-! ### System calls -/

/-- **Two memories that differ in words of `M` at most**, none of them in a page table. -/
def Twin (M : ℕ → ℕ → Prop) (s s' : Memory) : Prop := s.Sound ∧ Alike (s.data M) s s'

section Calls

variable {M M' : ℕ → ℕ → Prop} {s s' t t' : Memory} {pid vaddr : ℕ} {task : Task}

theorem Twin.mono (h : Twin M s s') (hM : ∀ f i, M f i → M' f i) : Twin M' s s' :=
  ⟨h.1, h.2.mono fun f i hD => ⟨hM f i hD.1, hD.2⟩⟩

/-- What is a page table after a step was one before it. -/
theorem Twin.of_dirs (ht : t.Sound) (ha : Alike (s.data M) t t')
    (hdirs : ∀ pid d e, t.entryAt (pid, d, none) = some e → s.target (pid, d, none) = some e.index) :
    Twin M t t' := by
  refine ⟨ht, ha.mono fun f i hD => ⟨hD.1, hD.2.1, fun pid d htarget => ?_⟩⟩
  obtain ⟨e, he, rfl⟩ := target_eq_some.mp htarget
  exact hD.2.2 pid d (hdirs pid d e he)

/-- A step that changes no entry. -/
theorem Twin.of_entryAt (ht : t.Sound) (ha : Alike (s.data M) t t') (hent : t.entryAt = s.entryAt) : Twin M t t' :=
  Twin.of_dirs ht ha fun pid d e he => by rw [target, ← hent, he, Option.map_some]

theorem Twin.linkPage (h : Twin M s s') (hrun : s.running pid = some task)
    (hd : 4 ≤ didx vaddr ∧ didx vaddr < 1023) :
    Follows (Twin M) (s.linkPage task.pde vaddr) (s'.linkPage task.pde vaddr) :=
  (h.1.exact.linkPage_alike (pdeOf_of_running hrun) hd h.2).imp fun _ _ hlink ha =>
    ⟨(h.1.linkPage hrun hd hlink).1, ha⟩

theorem Twin.unlinkPage (h : Twin M s s') (hrun : s.running pid = some task)
    (hd : 4 ≤ didx vaddr ∧ didx vaddr < 1023) :
    Follows (Twin M) (s.unlinkPage task.pde vaddr) (s'.unlinkPage task.pde vaddr) :=
  (h.1.exact.unlinkPage_alike (pdeOf_of_running hrun) hd h.2).imp fun _ _ hunlink ha =>
    ⟨(h.1.unlinkPage hrun hd hunlink).1, ha⟩

/-- A task may change its heap and its mapping area. -/
theorem Twin.setTask (h : Twin M s s') (hrun : s.running pid = some task) (task' : Task)
    (hkp : task'.kpages = task.kpages) (hpde : task'.pde = task.pde) (hdied : task'.died = task.died)
    (hwf : task'.WF) : Twin M (s.setTask pid (some task')) (s'.setTask pid (some task')) := by
  obtain ⟨hsound, hent⟩ := h.1.setTask hrun task' hkp hpde hdied hwf
  exact Twin.of_entryAt hsound (h.2.setTask pid _) hent

/-- The loop of `sys_brk`. -/
theorem Twin.unlinkPages : ∀ (left page : ℕ) (s s' : Memory), Twin M s s' → s.running pid = some task →
    userExecAddr ≤ page → page + left * 4096 < userMmapAddr + 4096 →
      Follows (Twin M) (unlinkPages task.pde left page s) (unlinkPages task.pde left page s') := by
  intro left
  induction left with
  | zero => exact fun _ _ _ h _ _ _ => .some h
  | succ left ih =>
    intro page s s' h hrun hlo hhi
    rw [userMmapAddr_eq] at hhi
    have hd := didx_user hlo (by omega)
    refine (h.unlinkPage hrun hd).bind fun u u' hunlink hu => ?_
    obtain ⟨-, hsame, -⟩ := h.1.unlinkPage hrun hd hunlink
    exact ih (page + pageSize) u u' hu (by rw [hsame.running]; exact hrun) (by rw [pageSize_eq]; omega)
      (by rw [pageSize_eq, userMmapAddr_eq]; omega)

/-- The loop of `sys_munmap`. -/
theorem Twin.unmapPages : ∀ (left page : ℕ) (s s' : Memory) (vmap : Bitmap), Twin M s s' →
    s.running pid = some task → vmap.offset = 32768 → vmap.size ≤ 4096 →
      Follows (fun a b => b.2 = a.2 ∧ Twin M a.1 b.1) (unmapPages task.pde left page s vmap)
        (unmapPages task.pde left page s' vmap) := by
  intro left
  induction left with
  | zero => exact fun _ _ _ _ h _ _ _ => .some ⟨rfl, h⟩
  | succ left ih =>
    rintro page s s' vmap h hrun hoff hsize ⟨t, vmap'⟩ hloop
    rw [Memory.unmapPages] at hloop
    obtain ⟨u, hunlink, hloop⟩ := Option.bind_eq_some_iff.mp hloop
    obtain ⟨used, htest, hloop⟩ := Option.bind_eq_some_iff.mp hloop
    obtain ⟨_, hassert, hloop⟩ := Option.bind_eq_some_iff.mp hloop
    obtain ⟨map, hset, hloop⟩ := Option.bind_eq_some_iff.mp hloop
    obtain ⟨hlo, hlt, hmap⟩ := bitmapSet_eq_some hset
    rw [hoff] at hlo hlt
    obtain ⟨-, -, hd⟩ := didx_vmap hlo hlt hsize
    obtain ⟨-, hsame, -⟩ := h.1.unlinkPage hrun hd hunlink
    obtain ⟨u', hunlink', hu⟩ := h.unlinkPage hrun hd u hunlink
    obtain ⟨b, hloop', hb⟩ := ih _ u u' map hu (by rw [hsame.running]; exact hrun) (by rw [hmap]; exact hoff)
      (by rw [hmap]; exact hsize) _ hloop
    refine ⟨b, ?_, hb⟩
    rw [Memory.unmapPages, hunlink']
    simp only [Option.bind_eq_bind, Option.bind_some, htest, hassert, hset]
    exact hloop'

/-- The loop of `sys_mmap`. -/
theorem Twin.mapPages {prot flags : ℕ} : ∀ (left page : ℕ) (s s' : Memory) (vmap : Bitmap), Twin M s s' →
    s.running pid = some task → vmap.offset = 32768 → vmap.size ≤ 4096 →
      Follows (fun a b => b.2 = a.2 ∧ Twin M a.1 b.1) (mapPages task.pde prot flags left page s vmap)
        (mapPages task.pde prot flags left page s' vmap) := by
  intro left
  induction left with
  | zero => exact fun _ _ _ _ h _ _ _ => .some ⟨rfl, h⟩
  | succ left ih =>
    rintro page s s' vmap h hrun hoff hsize ⟨t, vmap'⟩ hloop
    rw [Memory.mapPages] at hloop
    obtain ⟨u, hlink, hloop⟩ := Option.bind_eq_some_iff.mp hloop
    obtain ⟨map, hset, hloop⟩ := Option.bind_eq_some_iff.mp hloop
    obtain ⟨⟨table, v⟩, hget, hloop⟩ := Option.bind_eq_some_iff.mp hloop
    obtain ⟨hlo, hlt, hmap⟩ := bitmapSet_eq_some hset
    rw [hoff] at hlo hlt
    obtain ⟨-, -, hd⟩ := didx_vmap hlo hlt hsize
    obtain ⟨rfl, -, hsame, -, hsound, e, -, hent⟩ := Sound.mapPage h.1 hrun hd hlink hget
    obtain ⟨u', hlink', hu⟩ := h.linkPage hrun hd v hlink
    have hp : v.pdeOf pid = some task.pde := by rw [hsame.pdeOf]; exact pdeOf_of_running hrun
    obtain ⟨⟨table', v'⟩, hget', heq, hv⟩ := hu.1.exact.getPte_alike hp hd hu.2 false _ hget
    obtain rfl : table' = table := heq
    obtain ⟨-, hpres, htable⟩ := hu.1.exact.tables.getPte_false hp (by omega) hget
    obtain ⟨-, hT, -⟩ := hu.1.exact.tables.table_high hp hd hpres
    have hword : v'.mem table' = v.mem table' := Alike.frame hv ((offTables_data v M).table (htable ▸ hT))
    have hnext : Twin M (v.setWord table' (tidx page) (mmapEntry prot flags (v.mem table' (tidx page))))
        (v'.setWord table' (tidx page) (mmapEntry prot flags (v.mem table' (tidx page)))) := by
      refine Twin.of_dirs hsound ((Alike.setWord hv _ _ _).mono fun f i hD => hD.1) fun pid' d' e' he' => ?_
      rw [hent, Function.update_of_ne (by simp [placeOf])] at he'
      exact target_eq_some.mpr ⟨e', he', rfl⟩
    obtain ⟨b, hloop', hb⟩ := ih _ _ _ map hnext (hsame.running pid ▸ hrun) (by rw [hmap]; exact hoff)
      (by rw [hmap]; exact hsize) _ hloop
    refine ⟨b, ?_, hb⟩
    rw [Memory.mapPages, hlink']
    simp only [Option.bind_eq_bind, Option.bind_some, hset, getEntry, hget', hword]
    exact hloop'

/-- Word `j` of frame `f` is one that `read` has stored in `count` pages from `page` on. -/
def Filled (s : Memory) (pid page count : ℕ) (words : ℕ → ℕ → Option PageEntry) (f j : ℕ) : Prop :=
  ∃ i < count, s.target (placeOf pid (page + i * 4096)) = some f ∧ (words (idx (page + i * 4096)) j).isSome = true

/-- **What `read` stores is the same in both.** -/
theorem Twin.readPages {words : ℕ → ℕ → Option PageEntry} : ∀ (left page : ℕ) (M : ℕ → ℕ → Prop) (s s' : Memory),
    Twin M s s' → s.running pid = some task →
    (∀ i < left, userMmapAddr ≤ page + i * 4096 ∧ page + i * 4096 < userStackTop) →
      Follows (Twin fun f j => M f j ∧ ¬s.Filled pid page left words f j)
        (readPages task.pde words left page s) (readPages task.pde words left page s') := by
  intro left
  induction left with
  | zero =>
    intro page M s s' h _ _
    refine .some (h.mono fun f j hM => ⟨hM, ?_⟩)
    rintro ⟨i, hi, -⟩
    exact absurd hi (Nat.not_lt_zero i)
  | succ left ih =>
    intro page M s s' h hrun hrange t hloop
    obtain ⟨hlo, hhi⟩ := hrange 0 (Nat.succ_pos left)
    rw [userMmapAddr_eq] at hlo
    rw [userStackTop_eq] at hhi
    have hd : 4 ≤ didx page ∧ didx page < 1023 := by
      rw [didx]
      omega
    rw [Memory.readPages] at hloop
    obtain ⟨frame, hwalk, hloop⟩ := Option.bind_eq_some_iff.mp hloop
    have hp := pdeOf_of_running hrun
    have hoff := offTables_data s M
    obtain ⟨-, hT, -⟩ := h.1.exact.tables.table_high hp hd (walk_eq_some.mp hwalk).1
    have hwalk' : s'.walk task.pde page = some frame := by
      rw [h.2.walk (hoff.low (h.1.exact.tables.dir hp).2.2) fun _ => hoff.table hT]
      exact hwalk
    obtain ⟨e, he, rfl, -⟩ := entryAt_of_walk h.1.exact.tables hrun hd hwalk
    obtain ⟨u, hu⟩ : ∃ u, u = s.setFrame e.index fun j => (words (idx page) j).getD (s.mem e.index j) := ⟨_, rfl⟩
    obtain ⟨u', hu'⟩ : ∃ u', u' = s'.setFrame e.index fun j => (words (idx page) j).getD (s'.mem e.index j) :=
      ⟨_, rfl⟩
    obtain ⟨hsound, hent⟩ := h.1.of_data (t := u) (by rw [hu]; rfl) (by rw [hu]; rfl) (by rw [hu]; rfl)
      (by rw [hu]; rfl) (h.1.exact.tables.loose_of_page (h.1.exact.tables.refs he)) fun g hg => by
        rw [hu]
        exact if_neg hg
    have hset : Alike (fun g j => if g = e.index then s.data M e.index j ∧ words (idx page) j = none else s.data M g j)
        u u' := by
      rw [hu, hu']
      refine h.2.setFrame e.index fun j hj => ?_
      cases hw : words (idx page) j with
      | some w => rfl
      | none => exact h.2.word fun hD => hj ⟨hD, hw⟩
    have htarget : s.target (placeOf pid page) = some e.index := target_eq_some.mpr ⟨e, he, rfl⟩
    -- behind the first page
    have hnext : Twin (fun f j => M f j ∧
        ¬(s.target (placeOf pid page) = some f ∧ (words (idx page) j).isSome = true)) u u' := by
      refine Twin.of_entryAt (s := s) hsound (hset.mono fun f j hD => ?_) hent
      by_cases hf : f = e.index
      · simp only [if_pos hf] at hD
        rw [hf]
        exact ⟨⟨hD.1.1, fun hw => by simp [hD.2] at hw⟩, hD.1.2⟩
      · simp only [if_neg hf] at hD
        exact ⟨⟨hD.1, fun hw => hf (Option.some.inj (hw.1.symm.trans htarget))⟩, hD.2⟩
    have hpage : u32 (page + pageSize) = page + 4096 := by
      rw [pageSize_eq, u32_of_lt (by omega)]
    rw [hpage, ← hu] at hloop
    obtain ⟨t', hloop', ht⟩ := ih (page + 4096) _ u u' hnext (by rw [hu]; exact hrun) (fun i hi => by
      have := hrange (i + 1) (by omega)
      omega) t hloop
    refine ⟨t', ?_, ht.mono fun f j hM => ⟨hM.1.1, ?_⟩⟩
    · rw [Memory.readPages, hwalk']
      simp only [Option.bind_eq_bind, Option.bind_some, hpage]
      rw [← hu']
      exact hloop'
    · rintro ⟨i, hi, hi', hw⟩
      cases i with
      | zero =>
        rw [Nat.zero_mul, Nat.add_zero] at hi' hw
        exact hM.1.2 ⟨hi', hw⟩
      | succ i =>
        have hplace : page + (i + 1) * 4096 = page + 4096 + i * 4096 := by omega
        rw [hplace] at hi' hw
        refine hM.2 ⟨i, by omega, ?_, hw⟩
        rw [target, hent]
        exact hi'

/-- **`sys_brk`** does the same in both. -/
theorem Twin.sysBrk {brk : ℕ} (h : Twin M s s') :
    Follows (fun a b => Twin M a.2 b.2) (s.sysBrk pid brk) (s'.sysBrk pid brk) := by
  rw [Memory.sysBrk, Memory.sysBrk, h.2.freePages]
  refine .bind_same fun _ _ => ?_
  rw [h.2.running]
  refine .bind_same fun task hrun => .bind_same fun _ _ => .bind_same fun _ hrange => ?_
  rw [assert_eq_some] at hrange
  have hwf := h.1.wf hrun
  have hlo := hwf.endAddr
  have hold := hwf.brk
  have hwf' : Task.WF { task with brk := brk } := ⟨hlo, hrange.2, hwf.offset, hwf.size⟩
  by_cases hlt : brk < task.brk
  · rw [if_pos hlt, if_pos hlt]
    rw [userMmapAddr_eq] at hold
    have hcount : divRoundUp (task.brk - brk) pageSize = (task.brk - brk + 4095) / 4096 := by
      rw [pageSize_eq, divRoundUp_eq (by omega) (by omega)]
    have hend : brk + divRoundUp (task.brk - brk) pageSize * 4096 < userMmapAddr + 4096 := by
      rw [hcount, userMmapAddr_eq]
      omega
    refine (Twin.unlinkPages _ brk s s' h hrun (by omega) hend).bind fun u u' hloop hu => .some ?_
    obtain ⟨-, hsame, -⟩ := Sound.unlinkPages _ brk s u h.1 hrun (by omega) hend hloop
    have hrun' : u.running pid = some task := by rw [hsame.running]; exact hrun
    exact hu.setTask hrun' { task with brk := brk } rfl rfl rfl hwf'
  · rw [if_neg hlt, if_neg hlt]
    by_cases hfree : s.freePages < idx (brk - task.brk)
    · rw [if_pos hfree, if_pos hfree]
      exact .some h
    · rw [if_neg hfree, if_neg hfree]
      exact .some (h.setTask hrun { task with brk := brk } rfl rfl rfl hwf')

/-- **`sys_munmap`** does the same in both. -/
theorem Twin.sysMunmap {addr length : ℕ} (h : Twin M s s') :
    Follows (Twin M) (s.sysMunmap pid addr length) (s'.sysMunmap pid addr length) := by
  rw [Memory.sysMunmap, Memory.sysMunmap, h.2.running]
  refine .bind_same fun task hrun => .bind_same fun _ _ => .bind_same fun _ _ => ?_
  have hwf := h.1.wf hrun
  refine (Twin.unmapPages _ addr s s' task.vmap h hrun hwf.offset hwf.size).bind ?_
  rintro ⟨u, vmap⟩ ⟨u', vmap'⟩ hloop ⟨heq, hu⟩
  obtain rfl : vmap' = vmap := heq
  obtain ⟨-, hsame, -, hoff, hsize⟩ := Sound.unmapPages _ addr s u task.vmap vmap' h.1 hrun hwf.offset hwf.size hloop
  have hrun' : u.running pid = some task := by rw [hsame.running]; exact hrun
  exact .some (Twin.setTask hu hrun' { task with vmap := vmap' } rfl rfl rfl ⟨hwf.endAddr, hwf.brk, hoff, hsize⟩)

/-- **`sys_mmap`** does the same in both, and what `read` stores for it is the same. -/
theorem Twin.sysMmap {addr length prot flags : ℕ} {file : Option (ℕ → ℕ → Option PageEntry)} (h : Twin M s s') :
    Follows (fun a b => Twin (fun f j => M f j ∧
        ∀ words ∈ file, ¬a.2.Filled pid a.1 (divRoundUp length pageSize) words f j) a.2 b.2)
      (s.sysMmap pid addr length prot flags file) (s'.sysMmap pid addr length prot flags file) := by
  rw [Memory.sysMmap, Memory.sysMmap, h.2.running]
  refine .bind_same fun _ _ => .bind_same fun task hrun => .bind_same ?_
  rintro ⟨vaddr, vmap⟩ haddr
  refine .bind_same fun _ _ => ?_
  have hwf := h.1.wf hrun
  obtain ⟨hoff, hsize⟩ := mmapAddr_wf haddr
  rw [hwf.offset] at hoff
  have hsize' : vmap.size ≤ 4096 := hsize.trans_le hwf.size
  refine (Twin.mapPages _ vaddr s s' vmap h hrun hoff hsize').bind ?_
  rintro ⟨u, vmap'⟩ ⟨u', vmap''⟩ hloop ⟨heq, hu⟩
  obtain rfl : vmap'' = vmap' := heq
  obtain ⟨hsound, hsame, -, hoff', hsize'', hrange⟩ := Sound.mapPages _ vaddr s u vmap vmap'' h.1 hrun hoff hsize' hloop
  have hrunu : u.running pid = some task := by rw [hsame.running]; exact hrun
  have hset : Twin M (u.setTask pid (some { task with vmap := vmap'' }))
      (u'.setTask pid (some { task with vmap := vmap'' })) :=
    Twin.setTask hu hrunu { task with vmap := vmap'' } rfl rfl rfl ⟨hwf.endAddr, hwf.brk, hoff', hsize''⟩
  cases file with
  | none => exact .some (hset.mono fun f j hM => ⟨hM, fun words hw => absurd hw (by simp)⟩)
  | some words =>
    have hrun' := running_setTask_self (s := u) (c := pid) { task with vmap := vmap'' } (running_eq_some.mp hrunu).2
    refine (Twin.readPages _ vaddr M _ _ hset hrun' hrange).bind fun t t' hread ht => .some ?_
    obtain ⟨-, -, hent⟩ := Sound.readPages _ vaddr _ t hset.1 hrun' hrange hread
    refine Twin.mono ht fun f j hM => ⟨hM.1, fun words' hw hfill => hM.2 ?_⟩
    obtain rfl := Option.some.inj hw
    obtain ⟨i, hi, htarget, hword⟩ := hfill
    refine ⟨i, hi, ?_, hword⟩
    rw [target, ← hent]
    exact htarget

end Calls

/-! ### Faults and stores -/

/-- The words of `M` after a fault: the page at `r` has those of the page that was there. -/
def Moved (s t : Memory) (r : Place) (M : ℕ → ℕ → Prop) (f i : ℕ) : Prop :=
  (∃ g, s.target r = some g ∧ t.target r = some f ∧ M g i) ∨ M f i ∧ (s.target r = none ∨ t.target r ≠ some f)

/-- The word at a virtual address is number `i` of frame `f`. -/
def WordAt (s : Memory) (pid vaddr f i : ℕ) : Prop := s.target (placeOf pid vaddr) = some f ∧ i = vaddr % 4096 / 4

section Fault

variable {M : ℕ → ℕ → Prop} {s s' t : Memory} {pid vaddr f i : ℕ}

/-- A page that stays has its own words. -/
theorem moved_of_keep {r : Place} (hkeep : ∀ g, s.target r = some g → t.target r = some g) (hM : M f i) :
    s.Moved t r M f i := by
  cases hr : s.target r with
  | none => exact Or.inr ⟨hM, Or.inl hr⟩
  | some g =>
    by_cases hf : g = f
    · exact Or.inl ⟨g, hr, hf ▸ hkeep g hr, hf ▸ hM⟩
    · exact Or.inr ⟨hM, Or.inr fun hc => hf (Option.some.inj ((hkeep g hr).symm.trans hc))⟩

/-- A store in a page table leaves the directories alone. -/
theorem Tables.target_setWord {T : Place → Option ℕ} {pde : ℕ} (ht : s.Tables T) (hp : s.pdeOf pid = some pde)
    (hd : 4 ≤ didx vaddr ∧ didx vaddr < 1023) (hpres : (s.mem pde (didx vaddr)).present = true) (e : PageEntry)
    (pid' d : ℕ) :
    (s.setWord (s.mem pde (didx vaddr)).index (tidx vaddr) e).target (pid', d, none) = s.target (pid', d, none) := by
  rw [target, ht.entryAt_setWord hp hd hpres (tidx_lt vaddr), Function.update_of_ne (by simp)]
  rfl

/-- **A copy on write** copies the words in which the pages differ. -/
theorem Twin.copyFault {table p a n : ℕ} {task : Task} {e : PageEntry} {v : Memory} (h : Twin M s s')
    (hrun : s.running pid = some task) (hd : 4 ≤ didx vaddr ∧ didx vaddr < 1023) (hvaddr : vaddr < 4294967296)
    (hpres : (s.mem task.pde (didx vaddr)).present = true) (htable : table = (s.mem task.pde (didx vaddr)).index)
    (he : s.entryAt (placeOf pid vaddr) = some e) (hcopy : s.copyPage task.pde (page (idx vaddr)) = some (p, v))
    (ht : t = (v.setCount a n).setWord table (tidx vaddr) (entryInit p))
    (hsound : t.Sound) :
    ∃ v', s'.copyPage task.pde (page (idx vaddr)) = some (p, v') ∧ v'.mem table = v.mem table ∧
      v'.memoryMap = v.memoryMap ∧
      Twin (s.Moved t (placeOf pid vaddr) M) t ((v'.setCount a n).setWord table (tidx vaddr) (entryInit p)) := by
  have hpage : placeOf pid (page (idx vaddr)) = placeOf pid vaddr := placeOf_page hvaddr
  simp only [placeOf, Prod.mk.injEq, Option.some.injEq, true_and] at hpage
  have hp := pdeOf_of_running hrun
  have hdir := (h.1.exact.tables.dir hp).2
  have hoff := offTables_data s M
  obtain ⟨-, hT, hhigh⟩ := h.1.exact.tables.table_high hp hd hpres
  obtain ⟨hr, pde, hp', -, hword, hpres'⟩ := entryAt_page.mp he
  obtain rfl := Option.some.inj (hp.symm.trans hp')
  have hsrc := h.1.exact.tables.refs he
  have hsrcHigh := (h.1.exact.tables.high hsrc).2.1
  have hwalk : s.walk task.pde (page (idx vaddr)) = some e.index := by
    rw [walk_eq_some, hpage.1, hpage.2, hword]
    exact ⟨hpres, hpres', rfl⟩
  obtain ⟨⟨p', v'⟩, hcopy', heq, hv⟩ := h.2.copyPage hoff h.1.exact.tables h.1.exact.counts hp hwalk
    (by rw [hpage.1]; omega) (by omega) (by rw [hpage.1]; exact hoff.table hT) _ hcopy
  obtain rfl : p' = p := heq
  obtain ⟨hlo, hhi, hfresh, hent, htab, -, hsame, hmem⟩ := h.1.exact.tables.copyPage hp h.1.exact.counts hwalk
    (by rw [hpage.1]; omega) (by omega) hcopy
  have hclear : v'.mem table = v.mem table := Alike.frame hv fun j hD => by
    have hne : table ≠ p' := fun hc => hfresh _ (hc ▸ htable ▸ hT)
    simp only [if_neg hne] at hD
    exact hoff.table hT j (htable ▸ hD)
  refine ⟨v', hcopy', hclear, hv.memoryMap, hsound, ?_⟩
  rw [ht]
  refine ((Alike.setCount hv _ _).setWord _ _ _).mono fun f i hD => ?_
  rw [← ht]
  have hdirs : ∀ pid' d, t.target (pid', d, none) = s.target (pid', d, none) := fun pid' d => by
    have hmemv : v.mem task.pde = s.mem task.pde := (hmem _ (by omega)).trans (if_neg (by omega))
    have hset := (onlyCounts_setCount v a n).tables htab |>.target_setWord
      ((hsame.pdeOf pid).trans hp) hd (by rw [← hmemv] at hpres; exact hpres) (entryInit p') pid' d
    rw [target, target, ← hent]
    rw [← hmemv] at htable
    rw [ht, htable]
    exact hset
  -- the entry is one to the copy
  have hnew : t.target (placeOf pid vaddr) = some p' := by
    have hpt : t.pdeOf pid = some task.pde := by
      rw [ht]
      exact (hsame.pdeOf pid).trans hp
    have hmemt : t.mem task.pde = s.mem task.pde := by
      rw [ht]
      refine (funext fun j => if_neg fun hc => ?_).trans ((hmem _ (by omega)).trans (if_neg (by omega)))
      omega
    have hentry : t.mem (t.mem task.pde (didx vaddr)).index (tidx vaddr) = entryInit p' := by
      rw [hmemt, ← htable, ht]
      exact if_pos ⟨rfl, rfl⟩
    refine target_eq_some.mpr ⟨entryInit p', entryAt_page.mpr ⟨hr, _, hpt, ?_, hentry, rfl⟩, entryInit_index hhi⟩
    rw [hmemt]
    exact hpres
  obtain ⟨hD, -⟩ := hD
  by_cases hf : f = p'
  · simp only [if_pos hf] at hD
    refine ⟨Or.inl ⟨e.index, target_eq_some.mpr ⟨e, he, rfl⟩, hf ▸ hnew, hD.1⟩, hf ▸ hlo, fun pid' d => ?_⟩
    rw [hdirs, hf]
    exact hfresh _
  · simp only [if_neg hf] at hD
    refine ⟨Or.inr ⟨hD.1, Or.inr fun hc => hf (Option.some.inj (hc.symm.trans hnew))⟩, hD.2.1, fun pid' d => ?_⟩
    rw [hdirs]
    exact hD.2.2 pid' d

/-- **`page_fault`** does the same in both; a copy of a page differs where the page does. -/
theorem Twin.pageFault {present write : Bool} (h : Twin M s s') (hlo : userExecAddr ≤ vaddr)
    (hhi : vaddr < userStackTop) :
    Follows (fun t t' => Twin (s.Moved t (placeOf pid vaddr) M) t t') (s.pageFault pid vaddr present write)
      (s'.pageFault pid vaddr present write) := by
  intro t hfault
  obtain ⟨hsound, -⟩ := h.1.pageFault hlo hhi hfault
  rw [userStackTop_eq] at hhi
  have hd := didx_user hlo (by omega)
  have hvaddr : vaddr < 4294967296 := by omega
  have hpage : placeOf pid (page (idx vaddr)) = placeOf pid vaddr := placeOf_page hvaddr
  simp only [placeOf, Prod.mk.injEq, Option.some.injEq, true_and] at hpage
  rw [Memory.pageFault] at hfault ⊢
  obtain ⟨task, hrun, hfault⟩ := Option.bind_eq_some_iff.mp hfault
  rw [h.2.running, hrun]
  have hp := pdeOf_of_running hrun
  have hoff := offTables_data s M
  cases present with
  | false =>
    simp only [Bool.false_eq_true, reduceIte] at hfault
    obtain ⟨_, hassert, hlink⟩ := Option.bind_eq_some_iff.mp hfault
    obtain ⟨t', hlink', ht⟩ := h.linkPage hrun (by rw [hpage.1]; exact hd) t hlink
    obtain ⟨-, -, hgrown, -⟩ := h.1.linkPage hrun (by rw [hpage.1]; exact hd) hlink
    refine ⟨t', ?_, ht.mono fun f i => moved_of_keep fun g hg => ?_⟩
    · simp only [Option.bind_eq_bind, Option.bind_some, Bool.false_eq_true, reduceIte, hassert]
      exact hlink'
    · obtain ⟨e, he, hidx⟩ := target_eq_some.mp hg
      exact target_eq_some.mpr ⟨e, hgrown.keep he, hidx⟩
  | true =>
    simp only [reduceIte] at hfault
    obtain ⟨_, hwrite, hfault⟩ := Option.bind_eq_some_iff.mp hfault
    obtain ⟨⟨table, u⟩, hget, hrest⟩ := Option.bind_eq_some_iff.mp hfault
    obtain ⟨rfl, hpresd, htable⟩ := h.1.exact.tables.getPte_false hp (by omega) hget
    obtain ⟨-, hT, -⟩ := h.1.exact.tables.table_high hp hd hpresd
    have hdir := h.2.dir hoff h.1.exact.tables hp
    have hword : s'.mem table = u.mem table := h.2.frame (hoff.table (htable ▸ hT))
    have hget' : s'.getEntry task.pde vaddr false = some (table, s') := by
      rw [getEntry, (h.2.tables hoff h.1.exact.tables).2.getPte_present (by rw [h.2.pdeOf]; exact hp) false (by omega)
        (by rw [hdir]; exact hpresd), hdir, htable]
    obtain ⟨_, hpres, hrest⟩ := Option.bind_eq_some_iff.mp hrest
    obtain ⟨_, hshared, hrest⟩ := Option.bind_eq_some_iff.mp hrest
    obtain ⟨_, hreadonly, hrest⟩ := Option.bind_eq_some_iff.mp hrest
    obtain ⟨_, hpos, hrest⟩ := Option.bind_eq_some_iff.mp hrest
    simp only [Option.bind_eq_bind, Option.bind_some, reduceIte, hwrite, hget', hword, hpres, hshared, hreadonly,
      h.2.memoryMap, hpos]
    have hentry : u.entryAt (placeOf pid vaddr) = some (u.mem table (tidx vaddr)) := by
      refine entryAt_page.mpr ⟨page_mem_places.mpr ⟨(h.1.exact.tables.dir hp).1, hd.1, hd.2, tidx_lt _⟩, _, hp, hpresd,
        by rw [htable], ?_⟩
      exact assert_eq_some.mp hpres
    by_cases hone : u.memoryMap (u.mem table (tidx vaddr)).index = 1
    · simp only [hone, reduceIte] at hrest ⊢
      obtain rfl := Option.some.inj hrest
      refine ⟨_, rfl, hsound, (h.2.setWord _ _ _).mono fun f i hD => ?_⟩
      have hdirs := h.1.exact.tables.target_setWord hp hd hpresd { u.mem table (tidx vaddr) with write := true }
      rw [← htable] at hdirs
      refine ⟨moved_of_keep (fun g hg => ?_) hD.1.1, hD.1.2.1, fun pid' d => ?_⟩
      · obtain ⟨-, hupd⟩ := h.1.exact.setFlags hp hd hentry { u.mem table (tidx vaddr) with write := true }
          (assert_eq_some.mp hpres) rfl
        rw [← htable] at hupd
        rw [target, hentry] at hg
        rw [target, hupd, placeOf, Function.update_self]
        exact hg
      · rw [hdirs]
        exact hD.1.2.2 pid' d
    · simp only [hone, reduceIte] at hrest ⊢
      obtain ⟨⟨p, v⟩, hcopy, hrest⟩ := Option.bind_eq_some_iff.mp hrest
      obtain ⟨v', hcopy', hwordv, hcount, ht⟩ := h.copyFault hrun hd hvaddr hpresd htable hentry hcopy
        (Option.some.inj hrest).symm hsound
      exact ⟨_, by simp only [hcopy', Option.bind_some, hwordv, hcount, Option.pure_def], ht⟩

theorem Alike.entryOf {D : ℕ → ℕ → Prop} {cr3 : ℕ} (h : Alike D s s') (hcr3 : Clear D cr3)
    (htable : (s.mem cr3 (didx vaddr)).present = true → Clear D (s.mem cr3 (didx vaddr)).index) :
    s'.entryOf cr3 vaddr = s.entryOf cr3 vaddr := by
  rw [Memory.entryOf, Memory.entryOf, h.frame hcr3]
  cases hpres : (s.mem cr3 (didx vaddr)).present with
  | true => rw [h.frame (htable hpres)]
  | false => simp

/-- **A store in user mode** is in the same place in both; a difference is made there, or undone. -/
theorem Twin.store {word word' : PageEntry} (h : Twin M s s') (hd : 4 ≤ didx vaddr ∧ didx vaddr < 1023) :
    Follows (fun t t' => Twin (fun f i => s.WordAt pid vaddr f i ∧ word' ≠ word ∨ M f i ∧ ¬s.WordAt pid vaddr f i) t t')
      (s.store pid vaddr word) (s'.store pid vaddr word') := by
  intro t hstore
  obtain ⟨hsound, hent, e, he, -, ht⟩ := h.1.store hd hstore
  have hT := h.1.exact.tables.refs he
  have htarget : t.target = s.target := by
    funext r
    rw [target, hent]
    rfl
  rw [Memory.store] at hstore ⊢
  obtain ⟨task, hrun, hstore⟩ := Option.bind_eq_some_iff.mp hstore
  obtain ⟨e', he', hstore⟩ := Option.bind_eq_some_iff.mp hstore
  obtain ⟨_, hassert, hstore⟩ := Option.bind_eq_some_iff.mp hstore
  have hp := pdeOf_of_running hrun
  have hoff := offTables_data s M
  have hentry : s'.entryOf task.pde vaddr = s.entryOf task.pde vaddr :=
    h.2.entryOf (hoff.low (h.1.exact.tables.dir hp).2.2) fun hpres =>
      hoff.table (h.1.exact.tables.table_high hp hd hpres).2.1
  obtain rfl : e' = e := Option.some.inj ((entryAt_of_entryOf h.1.exact.tables hrun hd he').symm.trans he)
  rw [h.2.running, hrun]
  refine ⟨s'.setWord e'.index (vaddr % 4096 / 4) word', ?_, hsound, ?_⟩
  · simp only [Option.bind_eq_bind, Option.bind_some, hentry, he', h.2.dir hoff h.1.exact.tables hp, hassert,
      Option.pure_def]
  rw [ht]
  by_cases hword : word' = word
  · rw [hword]
    refine (h.2.setWord _ _ _).mono fun f i hD => ?_
    rw [← ht, data, htarget]
    refine ⟨Or.inr ⟨hD.1.1, fun hat => hD.2 ⟨?_, hat.2⟩⟩, hD.1.2⟩
    exact Option.some.inj (hat.1.symm.trans hT)
  · refine (h.2.setWords _ _ _ _).mono fun f i hD => ?_
    rw [← ht, data, htarget]
    by_cases hat : s.WordAt pid vaddr f i
    · obtain rfl := Option.some.inj (hat.1.symm.trans hT)
      refine ⟨Or.inl ⟨hat, hword⟩, (h.1.exact.tables.high hT).2.1, fun pid' d hdir => ?_⟩
      have hsingle := h.1.exact.tables.single hdir hT
      simp [placeOf] at hsingle
    · rcases hD with hD | ⟨rfl, rfl⟩
      · exact ⟨Or.inr ⟨hD.1, hat⟩, hD.2⟩
      · exact absurd ⟨hT, rfl⟩ hat

end Fault

/-! ### Forks -/

section Fork

variable {D M : ℕ → ℕ → Prop} {pid cr3 c pde : ℕ}

/-- The inner loop of `copy_pde`. -/
theorem Alike.sharePages {table : ℕ} (htable : Clear D table) : ∀ (left i : ℕ) (s s' : Memory), Alike D s s' →
    Follows (Alike D) (sharePages table left i s) (sharePages table left i s') := by
  intro left
  induction left with
  | zero => exact fun _ _ _ h => .some h
  | succ left ih =>
    intro i s s' h
    have hword : s'.mem table i = s.mem table i := h.word (htable i)
    cases hpres : (s.mem table i).present with
    | false =>
      rw [sharePages_absent hpres, sharePages_absent (by rw [hword]; exact hpres)]
      exact ih (i + 1) s s' h
    | true =>
      rw [sharePages_present rfl hpres, sharePages_present hword hpres, h.memoryMap]
      refine .bind_same fun _ _ => .bind_same fun _ _ => ih (i + 1) _ _ ?_
      exact ((h.setWord _ _ _).mono fun _ _ hD => hD.1).setCount _ _

/-- While its directory is copied, the other state has the same tables. -/
theorem Copying.alike {s s' : Memory} {T : Place → Option ℕ} {i : ℕ} (h : Copying s T pid cr3 c pde i)
    (ha : Alike D s s') (hoff : OffTables T D) : Copying s' T pid cr3 c pde i := by
  refine ⟨(ha.tables hoff h.tables).2, ha.counts h.counts, by rw [ha.pdeOf]; exact h.parent,
    by rw [ha.pdeOf]; exact h.child, h.child_lt, h.pde_range, fun pid' => by rw [ha.pdeOf]; exact h.pde_fresh pid',
    fun d hid hd => ?_, h.unref⟩
  rw [ha.frame (hoff.low h.pde_range.2), ha.dir hoff h.tables h.parent]
  exact h.todo d hid hd

/-- **The loop of `copy_pde`**: the tables of the new directory are the same in both. -/
theorem Copying.copyTables_alike : ∀ (left i : ℕ) (s s' u : Memory) (T : Place → Option ℕ) (D : ℕ → ℕ → Prop),
    i + left = 1023 → 4 ≤ i → Copying s T pid cr3 c pde i → Alike D s s' → OffTables T D →
    copyTables cr3 pde left i s = some u →
      ∃ u', copyTables cr3 pde left i s' = some u' ∧
        Alike (fun f j => D f j ∧ ∀ d, i ≤ d → d < 1023 → (u.mem pde d).present = true → f ≠ (u.mem pde d).index)
          u u' := by
  intro left
  induction left with
  | zero =>
    intro i s s' u T D hi _ h ha hoff hcopy
    obtain rfl := Option.some.inj hcopy
    exact ⟨s', rfl, ha.mono fun f j hD => ⟨hD, fun d hid hd => absurd hd (by omega)⟩⟩
  | succ left ih =>
    intro i s s' u T D hi hlo h ha hoff hcopy
    have h' := h.alike ha hoff
    have hcr3 := ha.dir hoff h.tables h.parent
    have hpde : s'.mem pde = s.mem pde := ha.frame (hoff.low h.pde_range.2)
    obtain ⟨T', hc⟩ := copyTables_spec (left + 1) i s u T hi hlo h hcopy
    cases hpres : (s.mem cr3 i).present with
    | false =>
      have habs := (hc.absent i (le_refl i) (by omega) hpres).1
      have hskip : ∀ {v : Memory}, (v.mem pde i).present = false →
          copyTables cr3 pde (left + 1) i v = copyTables cr3 pde left (i + 1) v := fun {v} hv => by
        rw [copyTables, if_pos (by rw [hv]; rfl)]
      have hnone : (s.mem pde i).present = false := by rw [h.todo i (le_refl i) (by omega)]; exact hpres
      rw [hskip hnone] at hcopy
      rw [hskip (by rw [hpde]; exact hnone)]
      obtain ⟨u', hcopy', hu⟩ := ih (i + 1) s s' u T D (by omega) (by omega)
        ⟨h.tables, h.counts, h.parent, h.child, h.child_lt, h.pde_range, h.pde_fresh,
          fun d hid => h.todo d (by omega), fun d o hid => h.unref d o (by omega)⟩ ha hoff hcopy
      refine ⟨u', hcopy', hu.mono fun f j hD => ⟨hD.1, fun d hid hd hp => ?_⟩⟩
      rcases Nat.eq_or_lt_of_le hid with rfl | hlt
      · rw [habs] at hp
        exact Bool.noConfusion hp
      · exact hD.2 d hlt hd hp
    | true =>
      obtain ⟨-, hdT, hhigh⟩ := h.tables.table_high h.parent ⟨hlo, by omega⟩ hpres
      have htable := hoff.table hdT
      rw [h.copyTables_present (by omega) hpres] at hcopy
      rw [h'.copyTables_present (by omega) (by rw [hcr3]; exact hpres), hcr3]
      obtain ⟨s₁, hshare, hcopy⟩ := Option.bind_eq_some_iff.mp hcopy
      obtain ⟨⟨p, s₂⟩, hpage, hcopy⟩ := Option.bind_eq_some_iff.mp hcopy
      obtain ⟨v, heq⟩ : ∃ v, v = s₂.setWord pde i { s₂.mem pde i with index := p % 1048576 } := ⟨_, rfl⟩
      simp only [← heq] at hcopy
      obtain ⟨T₁, hv, -, hother, hTp, hfresh, hvi, -, -, -⟩ := h.step ⟨hlo, by omega⟩ hpres hshare hpage heq
      obtain ⟨s₁', hshare', hs₁⟩ := Alike.sharePages htable 1024 0 s s' ha s₁ hshare
      -- the table is copied
      obtain ⟨T₀, hsh⟩ := sharePages_spec ⟨hlo, by omega⟩ h.child_lt 1024 0 s s₁ T rfl h.tables h.counts h.parent hpres
        h.child (fun t _ => h.unref i (some t) (le_refl i)) hshare
      have hp₁ : s₁.pdeOf pid = some cr3 := by rw [hsh.same.pdeOf]; exact h.parent
      have hlow := (h.tables.dir h.parent).2
      have hmemcr3 : s₁.mem cr3 = s.mem cr3 := hsh.frame cr3 (by omega)
      have hoff₁ : OffTables T₀ D := hoff.congr fun pid' d => hsh.other _ fun t _ => by simp
      have hidx : (s₁.mem cr3 (didx (pteAddr i))).index = cr3 := by
        rw [didx_pteAddr (by omega), hmemcr3, (h.tables.last h.parent).2]
      have hwalk : s₁.walk cr3 (pteAddr i) = some (s.mem cr3 i).index := by
        rw [hsh.tables.walk_pteAddr hp₁ (by omega) (by rw [hmemcr3]; exact hpres), hmemcr3]
      obtain ⟨⟨p', s₂'⟩, hpage', heq', hs₂⟩ := hs₁.copyPage hoff₁ hsh.tables hsh.counts hp₁ hwalk
        (by rw [hidx]; omega) (by omega) (by rw [hidx]; exact hoff.low hlow.2) _ hpage
      obtain rfl : p' = p := heq'
      replace hs₂ : Alike (fun f j => D f j ∧ f ≠ p') s₂ s₂' := Alike.mono hs₂ fun f j hD => by
        by_cases hf : f = p'
        · simp only [if_pos hf] at hD
          exact absurd hD (htable j)
        · simp only [if_neg hf] at hD
          exact ⟨hD, hf⟩
      have hword : s₂'.mem pde = s₂.mem pde := hs₂.frame fun j hD => hoff.low h.pde_range.2 j hD.1
      obtain ⟨v', heq''⟩ : ∃ v', v' = s₂'.setWord pde i { s₂'.mem pde i with index := p' % 1048576 } := ⟨_, rfl⟩
      have hv' : Alike (fun f j => D f j ∧ f ≠ p') v v' := by
        rw [heq, heq'', hword]
        exact (hs₂.setWord _ _ _).mono fun _ _ hD => hD.1
      have hoff' : OffTables T₁ fun f j => D f j ∧ f ≠ p' := by
        refine fun f j hD => ⟨(hoff f j hD.1).1, fun pid' d hT => ?_⟩
        by_cases hplace : (pid', d) = (c, i)
        · obtain ⟨rfl, rfl⟩ := Prod.mk.inj hplace
          exact hD.2 (Option.some.inj (hT.symm.trans hTp))
        · rw [hother _ fun o ho => hplace (by
            simp only [Prod.mk.injEq] at ho
            rw [ho.1, ho.2.1])] at hT
          exact (hoff f j hD.1).2 pid' d hT
      obtain ⟨u', hcopy', hu⟩ := ih (i + 1) v v' u T₁ _ (by omega) (by omega) hv hv' hoff' hcopy
      refine ⟨u', ?_, hu.mono fun f j hD => ⟨hD.1.1, fun d hid hd hp => ?_⟩⟩
      · rw [hshare']
        simp only [Option.bind_some, hpage', ← heq'']
        exact hcopy'
      · rcases Nat.eq_or_lt_of_le hid with rfl | hlt
        · obtain ⟨T₂, hc₂⟩ := copyTables_spec left (i + 1) v u T₁ (by omega) (by omega) hv hcopy
          rw [hc₂.before i (by omega), hvi]
          exact hD.1.2
        · exact hD.2 d hlt hd hp

/-- **`copy_pde`**, run by a task that forks. -/
theorem Alike.copyPde {s s₁ s₂ s' : Memory} {page bits child : ℕ} {task : Task} (h : s.Sound)
    (hrun : s.running pid = some task) (hlt : child < 64) (hfree : s.tasks child = none)
    (hpage : s.allocKpage 1 = some (page, s₁)) (hbits : s₁.allocKpage 1 = some (bits, s₂)) (ha : Alike (s.data M) s₂ s') :
    Follows (fun a b => b.1 = a.1 ∧ Alike (fun f j => s.data M f j ∧ ∀ d, 4 ≤ d → d < 1023 →
        (a.2.mem a.1 d).present = true → f ≠ (a.2.mem a.1 d).index) a.2 b.2)
      (s₂.copyPde task.pde) (s'.copyPde task.pde) := by
  rw [Memory.copyPde, Memory.copyPde]
  refine (ha.allocKpage 1).bind ?_
  rintro ⟨pde, s₃⟩ ⟨pde', s₃'⟩ halloc ⟨heq, ha₃⟩ ⟨_, u⟩ hcopy
  obtain rfl : pde' = pde := heq
  replace ha₃ : Alike (s.data M) s₃ s₃' := ha₃
  obtain ⟨⟨m, hs₂⟩, hm⟩ := h.taskPages hfree hpage hbits
  obtain ⟨-, -, hcopying⟩ := h.forking hrun hlt hfree hs₂ hm halloc rfl
  obtain ⟨u, hloop, hend⟩ := Option.bind_eq_some_iff.mp hcopy
  obtain ⟨rfl, rfl⟩ := Prod.mk.inj (Option.some.inj hend)
  have hdir : s₃'.mem task.pde = s₃.mem task.pde :=
    ha₃.frame ((offTables_data s M).low (h.exact.tables.dir (pdeOf_of_running hrun)).2.2)
  have hstart : Alike (s.data M) ((s₃.setFrame pde' (s₃.mem task.pde)).setWord pde' 1023 (entryInit pde'))
      ((s₃'.setFrame pde' (s₃'.mem task.pde)).setWord pde' 1023 (entryInit pde')) := by
    rw [hdir]
    refine ((ha₃.setFrame pde' (W := fun _ => False) fun _ _ => rfl).setWord _ _ _).mono fun f j hD => ?_
    by_cases hf : f = pde'
    · simp only [if_pos hf] at hD
      exact hD.1.elim
    · simp only [if_neg hf] at hD
      exact hD.1
  obtain ⟨v, hloop', hv⟩ := hcopying.copyTables_alike 1019 4 _ _ _ _ _ rfl (le_refl 4) hstart (offTables_data s M) hloop
  exact ⟨(pde', v), Option.bind_eq_some_iff.mpr ⟨v, hloop', rfl⟩, rfl, hv⟩

/-- **`task_fork`** does the same in both. -/
theorem Twin.taskFork {s s' : Memory} (h : Twin M s s') :
    Follows (fun a b => Twin M a.2 b.2) (s.taskFork pid) (s'.taskFork pid) := by
  rintro ⟨child, t⟩ hfork
  obtain ⟨hsound, hforked⟩ := h.1.taskFork hfork
  suffices hfollows : Follows (fun a b => Alike (fun f j => s.data M f j ∧ ∀ d e,
      a.2.entryAt (a.1, d, none) = some e → f ≠ e.index) a.2 b.2) (s.taskFork pid) (s'.taskFork pid) by
    obtain ⟨b, hfork', ha⟩ := hfollows _ hfork
    refine ⟨b, hfork', hsound, Alike.mono ha fun f j hD => ⟨hD.1.1, hD.1.2.1, fun pid' d htarget => ?_⟩⟩
    obtain ⟨e, he, rfl⟩ := target_eq_some.mp htarget
    by_cases hchild : pid' = child
    · exact hD.2 d e (hchild ▸ he) rfl
    · refine hD.1.2.2 pid' d (target_eq_some.mpr ⟨e, ?_, rfl⟩)
      by_cases hpid : pid' = pid
      · rw [hpid, ← hforked.dir d, ← hpid]
        exact he
      · rw [← hforked.other _ hpid hchild]
        exact he
  rw [Memory.taskFork, Memory.taskFork, h.2.running]
  refine .bind_same fun task hrun => ?_
  refine Follows.bind (R := fun a b => b.1 = a.1 ∧ b.2.1 = a.2.1 ∧ Alike (s.data M) a.2.2 b.2.2) ?_ ?_
  · rw [getFreeTask, getFreeTask, h.2.tasks]
    refine .bind_same fun i _ => (h.2.allocKpage 1).bind ?_
    rintro ⟨page, s₁⟩ ⟨page', s₁'⟩ _ ⟨heq, h₁⟩
    exact .some ⟨rfl, heq, h₁⟩
  rintro ⟨c, page, s₁⟩ ⟨c', page', s₁'⟩ hfree ⟨hc, hpage, h₁⟩
  obtain rfl : c' = c := hc
  obtain rfl : page' = page := hpage
  obtain ⟨hlt, hnone, halloc⟩ := getFreeTask_cases hfree
  refine (Alike.allocKpage h₁ 1).bind ?_
  rintro ⟨bits, s₂⟩ ⟨bits', s₂'⟩ hbits ⟨heq, h₂⟩
  obtain rfl : bits' = bits := heq
  refine (Alike.copyPde h.1 hrun hlt hnone halloc hbits h₂).bind ?_
  rintro ⟨pde, s₃⟩ ⟨pde', s₃'⟩ hpde ⟨heq, h₃⟩
  obtain rfl : pde' = pde := heq
  refine (Alike.allocKpage h₃ 1).bind ?_
  rintro ⟨pwd, s₄⟩ ⟨pwd', s₄'⟩ hpwd ⟨heq, h₄⟩
  obtain rfl : pwd' = pwd := heq
  refine .some ((h₄.setTask c' _).mono fun f j hD => ⟨hD.1, fun d e he => ?_⟩)
  obtain ⟨hr, pde₀, hp, rfl, hpres⟩ := entryAt_dir.mp he
  obtain ⟨-, hd, hd'⟩ := dir_mem_places.mp hr
  have hmem : s₄.mem = s₃.mem := by
    rw [Memory.allocKpage] at hpwd
    obtain ⟨_, -, hpwd⟩ := Option.bind_eq_some_iff.mp hpwd
    obtain ⟨⟨index, map⟩, -, hpwd⟩ := Option.bind_eq_some_iff.mp hpwd
    obtain ⟨-, rfl⟩ := Prod.mk.inj (Option.some.inj hpwd)
    rfl
  obtain ⟨task₀, hrun₀, rfl⟩ := pdeOf_eq_some.mp hp
  have htask := (running_eq_some.mp hrun₀).1
  rw [tasks_setTask, if_pos rfl] at htask
  obtain rfl := Option.some.inj htask
  have hword : ∀ task', (s₄.setTask c' task').mem = s₃.mem := fun _ => hmem
  rw [hword] at hpres ⊢
  exact hD.2 d hd hd' hpres

end Fork

/-! ### Leaving -/

section Exit

variable {D M : ℕ → ℕ → Prop} {s s' : Memory} {pid pde : ℕ} {task : Task}

theorem putPages_only {table : ℕ} : ∀ (left i : ℕ) (s t : Memory), putPages table left i s = some t →
    OnlyCounts s t := by
  intro left
  induction left with
  | zero => exact fun i s t h => Option.some.inj h ▸ .refl s
  | succ left ih =>
    intro i s t h
    rw [putPages] at h
    split at h
    · exact ih (i + 1) s t h
    · obtain ⟨_, -, h⟩ := Option.bind_eq_some_iff.mp h
      obtain ⟨u, hput, h⟩ := Option.bind_eq_some_iff.mp h
      exact (putPage_only hput).trans (ih (i + 1) u t h)

/-- The inner loop of `free_pde`. -/
theorem Alike.putPages {table : ℕ} (htable : Clear D table) : ∀ (left i : ℕ) (s s' : Memory), Alike D s s' →
    Follows (Alike D) (putPages table left i s) (putPages table left i s') := by
  intro left
  induction left with
  | zero => exact fun _ _ _ h => .some h
  | succ left ih =>
    intro i s s' h
    rw [Memory.putPages, Memory.putPages, h.frame htable, h.memoryMap]
    cases hpres : (s.mem table i).present with
    | false => exact ih (i + 1) s s' h
    | true => exact .bind_same fun _ _ => (h.putPage _).bind fun u u' _ hu => ih (i + 1) u u' hu

/-- The outer loop of `free_pde`. -/
theorem Alike.putTables : ∀ (left i : ℕ) (s s' : Memory), i + left = 1023 → Alike D s s' → Clear D pde →
    (s.mem pde 1023).index = pde →
    (∀ d, i ≤ d → d < 1023 → (s.mem pde d).present = true → Clear D (s.mem pde d).index) →
      Follows (Alike D) (putTables pde pde left i s) (putTables pde pde left i s') := by
  intro left
  induction left with
  | zero => exact fun _ _ _ _ h _ _ _ => .some h
  | succ left ih =>
    intro i s s' hi h hpde hlast htables
    rw [Memory.putTables, Memory.putTables, h.frame hpde]
    cases hpres : (s.mem pde i).present with
    | false => exact ih (i + 1) s s' (by omega) h hpde hlast fun d hid => htables d (by omega)
    | true =>
      have hself : (s.mem pde (didx (pteAddr i))).index = pde := by rw [didx_pteAddr (by omega), hlast]
      rw [h.walk hpde fun _ => by rw [hself]; exact hpde]
      refine .bind_same fun table hwalk => ?_
      have htable : table = (s.mem pde i).index := by
        obtain ⟨-, -, hidx⟩ := walk_eq_some.mp hwalk
        rw [hself, tidx_pteAddr (by omega)] at hidx
        exact hidx.symm
      subst htable
      refine (Alike.putPages (htables i (le_refl i) (by omega) hpres) 1024 0 s s' h).bind fun u u' hput hu => ?_
      have honly := putPages_only _ _ _ _ hput
      rw [hu.frame hpde]
      refine (hu.putPage _).bind fun v v' hput' hv => ?_
      have hmem : v.mem = s.mem := (putPage_only hput').mem.trans honly.mem
      refine ih (i + 1) v v' (by omega) hv hpde (by rw [hmem]; exact hlast) fun d hid hd => ?_
      rw [hmem]
      exact htables d (by omega) hd

/-- **`task_exit`** does the same in both. -/
theorem Twin.taskExit (h : Twin M s s') : Follows (Twin M) (s.taskExit pid) (s'.taskExit pid) := by
  intro t hexit
  obtain ⟨hsound, hout⟩ := h.1.taskExit hexit
  suffices hfollows : Follows (Alike (s.data M)) (s.taskExit pid) (s'.taskExit pid) by
    obtain ⟨t', hexit', ht⟩ := hfollows t hexit
    refine ⟨t', hexit', Twin.of_dirs hsound ht fun pid' d e he => ?_⟩
    have hne : pid' ≠ pid := by
      rintro rfl
      rw [entryAt_of_dead hout.dead] at he
      exact absurd he (by simp)
    rw [target, ← hout.other _ hne, he, Option.map_some]
  rw [Memory.taskExit, Memory.taskExit, h.2.running]
  refine .bind_same fun task hrun => ?_
  have hset := h.2.setTask pid (some { task with died := true })
  obtain ⟨hleave, -⟩ := h.1.exact.leaving hrun rfl
  have hoff := offTables_data s M
  have hpde := hoff.low (h.1.exact.tables.dir (pdeOf_of_running hrun)).2.2
  refine Follows.bind (R := Alike (s.data M)) ?_ fun u u' _ hu => ?_
  · rw [Memory.freePde, Memory.freePde]
    refine .bind_same fun _ _ => ?_
    have hself : ((s.setTask pid (some { task with died := true })).mem task.pde (didx pdeAddr)).index = task.pde := by
      rw [show didx pdeAddr = 1023 by decide]
      exact hleave.last.2
    rw [hset.walk hpde fun _ => by rw [hself]; exact hpde]
    refine .bind_same fun pde hwalk => ?_
    have heq : pde = task.pde := by
      obtain ⟨-, -, hidx⟩ := walk_eq_some.mp hwalk
      rw [hself, show tidx pdeAddr = 1023 by decide, hleave.last.2] at hidx
      exact hidx.symm
    subst heq
    refine (Alike.putTables 1019 4 _ _ rfl hset hpde hleave.last.2 fun d hd hd' hpres => ?_).bind fun v v' _ hv =>
      hv.freeKpage _ _
    exact hoff.table (hleave.present d hd hd' hpres).1
  · exact (hu.freeKpage _ _).bind fun v v' _ hv => hv.freeKpage _ _

/-- **Reaping a dead child** is the same in both. -/
theorem Twin.taskReap (h : Twin M s s') : Follows (Twin M) (s.taskReap pid) (s'.taskReap pid) := by
  intro t hreap
  obtain ⟨hsound, hent⟩ := h.1.taskReap hreap
  suffices hfollows : Follows (Alike (s.data M)) (s.taskReap pid) (s'.taskReap pid) by
    obtain ⟨t', hreap', ht⟩ := hfollows t hreap
    exact ⟨t', hreap', Twin.of_entryAt hsound ht hent⟩
  rw [Memory.taskReap, Memory.taskReap, h.2.tasks]
  exact .bind_same fun task _ => .bind_same fun _ _ => (h.2.setTask pid none).freeKpage _ _

end Exit

end Memory

end Onixs
