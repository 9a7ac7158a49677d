import Onixs.Kernel.Spaces

/-!
# Each process has its own memory

Page tables, page counters and copy on write together do what `Onixs.Spaces.Step` says: along every run the memories of
the processes go through the steps of a machine that has no pages and that copies at every fork
(`Onixs.memoryRun_spaces`). So a process keeps what it has in memory while it makes no step, whatever the others do
(`Onixs.memoryRun_private`), and a child has what its parent had at the fork (`Onixs.fork_snapshot`).

As for `Onixs.memoryRun_cow` the runs are those in which no `sys_mmap` meets a page that another entry refers to; here a
`sys_mmap` of a file counts too, which writes the page without asking for the write bit (`Onixs.MemoryOp.Careful`).
-/

namespace Onixs

namespace Memory

section Compose

variable {s t u : Memory} {pid : ℕ}

/-- Two steps of one process. -/
theorem space_trans (h : t.space = Function.update s.space pid (t.space pid))
    (h' : u.space = Function.update t.space pid (u.space pid)) : u.space = Function.update s.space pid (u.space pid) := by
  rw [h, Function.update_idem] at h'
  exact h'

end Compose

/-! ### Mapping -/

section Mapping

variable {s t u v : Memory} {pid page table prot flags : ℕ} {task : Task}

/-- **One page of `sys_mmap`.** -/
theorem Sound.mapPage_space (h : s.Sound) (hrun : s.running pid = some task) (hlo : userExecAddr ≤ page)
    (hhi : page < 0xFFC00000) (hlink : s.linkPage task.pde page = some u)
    (hget : u.getEntry task.pde page false = some (table, v))
    (ht : t = u.setWord table (tidx page) (mmapEntry prot flags (u.mem table (tidx page)))) :
    t.space = Function.update s.space pid (t.space pid) ∧
      Space.Mapped (s.space pid) (t.space pid) (flags &&& 1 ≠ 0) page (page + 4096) ∧ page % 4096 = 0 := by
  have hd := didx_user hlo hhi
  have halign : page % 4096 = 0 := by
    rw [Memory.linkPage] at hlink
    obtain ⟨_, halign, -⟩ := Option.bind_eq_some_iff.mp hlink
    rw [assert_eq_some, pageSize_eq] at halign
    exact halign
  obtain ⟨hspace, hfilled⟩ := h.linkPage_space hrun hlo hhi hlink
  obtain ⟨hu, hsame, -, -, e, he⟩ := h.linkPage hrun hd hlink
  have hp : u.pdeOf pid = some task.pde := by
    rw [hsame.pdeOf]
    exact pdeOf_of_running hrun
  obtain ⟨-, -, rfl⟩ := hu.exact.tables.getPte_false hp (by omega) hget
  obtain ⟨-, pde', hp', -, hword, hpres⟩ := entryAt_page.mp he
  obtain rfl := Option.some.inj (hp.symm.trans hp')
  rw [hword] at ht
  have hpres' : (mmapEntry prot flags e).present = true := hpres
  obtain ⟨hspace', houtside, hpage⟩ := hu.exact.setFlags_space hp hlo hhi halign he hpres' rfl ht
  have hshared : (mmapEntry prot flags e).shared = (e.shared || flags &&& 1 != 0) := rfl
  refine ⟨space_trans hspace hspace', ⟨fun {w x} hno hw => ?_, fun hsh hv hv' => ?_, fun hv => ?_⟩, halign⟩
  · have hkeep := hfilled.keep hw
    by_cases hv : page ≤ w ∧ w < page + 4096
    · obtain ⟨huser, e', he', hsh', rfl⟩ := space_eq_some.mp hkeep
      rw [(placeOf_in_page hlo hhi halign huser).mpr hv] at he'
      obtain rfl := Option.some.inj (he.symm.trans he')
      have hnosh : (mmapEntry prot flags e).shared = false := by
        rw [hshared, hsh']
        simpa using hno
      rw [hpage w hv.1 hv.2, hnosh, if_pos huser]
      rfl
    · rw [houtside w hv]
      exact hkeep
  · have hmark : (mmapEntry prot flags e).shared = true := by
      rw [hshared, Bool.or_eq_true]
      exact Or.inr (bne_iff_ne.mpr hsh)
    rw [hpage _ hv hv', if_pos hmark]
  · rw [houtside _ hv]
    exact hfilled.outside hv

/-- **The loop of `sys_mmap`.** -/
theorem Sound.mapPages_space : ∀ (left page : ℕ) (s t : Memory) (vmap vmap' : Bitmap), s.Sound →
    s.running pid = some task → vmap.offset = 32768 → vmap.size ≤ 4096 →
    Memory.mapPages task.pde prot flags left page s vmap = some (t, vmap') →
      t.space = Function.update s.space pid (t.space pid) ∧
        Space.Mapped (s.space pid) (t.space pid) (flags &&& 1 ≠ 0) page (page + left * 4096) ∧ Evolved s t ∧
        ∀ i < left, (page + i * 4096) % 4096 = 0 := by
  intro left
  induction left with
  | zero =>
    intro page s t vmap vmap' _ _ _ _ hloop
    obtain ⟨rfl, -⟩ := Prod.mk.inj (Option.some.inj hloop)
    refine ⟨(Function.update_eq_self pid _).symm, ?_, Evolved.refl s, fun i hi => absurd hi (Nat.not_lt_zero i)⟩
    rw [Nat.zero_mul]
    exact .refl _ _ page
  | succ left ih =>
    intro page s t vmap vmap' h hrun hoff hsize hloop
    rw [Memory.mapPages] at hloop
    obtain ⟨u, hlink, hloop⟩ := Option.bind_eq_some_iff.mp hloop
    obtain ⟨map, hset, hloop⟩ := Option.bind_eq_some_iff.mp hloop
    obtain ⟨⟨table, v⟩, hget, htail⟩ := Option.bind_eq_some_iff.mp hloop
    obtain ⟨hlo, hlt, hmap⟩ := bitmapSet_eq_some hset
    rw [hoff] at hlo hlt
    obtain ⟨hmlo, hmhi, hd⟩ := didx_vmap hlo hlt hsize
    rw [userMmapAddr_eq] at hmlo
    rw [userStackTop_eq] at hmhi
    obtain ⟨hvu, hgrown, hsame, -, hsound, e, he, hupd⟩ := h.mapPage hrun hd hlink hget
    obtain ⟨hspace, hmapped, halign⟩ :=
      h.mapPage_space hrun (by rw [userExecAddr_eq]; omega) (by omega) hlink hget rfl
    have hnext : u32 (page + pageSize) = page + 4096 := by
      rw [pageSize_eq, u32_of_lt (by omega)]
    simp only [hvu, hnext] at htail
    have hsame' : SameTasks s (u.setWord table (tidx page) (mmapEntry prot flags (u.mem table (tidx page)))) :=
      hsame.trans ⟨rfl, rfl⟩
    obtain ⟨hspace', hmapped', hev, halign'⟩ := ih (page + 4096) _ t map vmap' hsound
      (by rw [hsame'.running]; exact hrun) (by rw [hmap]; exact hoff) (by rw [hmap]; exact hsize) htail
    have hmark : e.shared = true → (mmapEntry prot flags e).shared = true := fun hm => by
      rw [mmapEntry, hm]
      rfl
    refine ⟨space_trans hspace hspace', ?_, hgrown.evolved.trans ((Evolved.setFlags he hupd rfl hmark).trans hev), ?_⟩
    · have hjoin := hmapped.trans hmapped' (Nat.le_add_right page 4096) (Nat.le_add_right _ _)
      rwa [show page + 4096 + left * 4096 = page + (left + 1) * 4096 by omega] at hjoin
    · intro i hi
      omega

/-- **One page that `read` fills.** Nobody else has the page for himself. -/
theorem Sound.readPage_space {words : ℕ → ℕ → Option PageEntry} {e : PageEntry} (h : s.Sound)
    (hlo : userExecAddr ≤ page) (hhi : page < 0xFFC00000) (halign : page % 4096 = 0)
    (he : s.entryAt (placeOf pid page) = some e) (hmay : s.MayWrite (placeOf pid page))
    (ht : t = s.setFrame e.index fun j => (words (idx page) j).getD (s.mem e.index j)) :
    t.space = Function.update s.space pid ((s.space pid).read words page (page + 4096)) := by
  have hent : t.entryAt = s.entryAt := by
    refine (h.of_data (t := t) ?_ ?_ ?_ ?_ (h.exact.tables.loose_of_page (h.exact.tables.refs he)) fun g hg => ?_).2
    · rw [ht]; rfl
    · rw [ht]; rfl
    · rw [ht]; rfl
    · rw [ht]; rfl
    · rw [ht]
      exact if_neg hg
  -- a page that is not shared and is written here is the one at the place
  have hsolely : ∀ r e', s.entryAt r = some e' → e'.shared = false → r ≠ placeOf pid page → e'.index ≠ e.index := by
    intro r e' he' hsh hne hidx
    rcases hmay e he with hone | hall
    · exact hne (hone r (target_eq_some.mpr ⟨e', he', hidx⟩))
    · rw [hall he' hidx] at hsh
      exact Bool.noConfusion hsh
  have hother : ∀ pid' v, placeOf pid' v ≠ placeOf pid page → t.space pid' v = s.space pid' v := fun pid' v hne =>
    space_congr (congrFun hent _) fun e' he' hsh => by
      rw [ht]
      exact congrFun (if_neg (hsolely _ e' he' hsh hne)) _
  funext pid' v
  rcases eq_or_ne pid' pid with rfl | hne
  swap
  · rw [Function.update_of_ne hne]
    exact hother pid' v fun heq => hne (congrArg Prod.fst heq)
  rw [Function.update_self]
  by_cases huser : IsUser v
  swap
  · have hnone : ∀ m : Memory, m.space pid' v = none := fun m => if_neg huser
    rw [Space.read, hnone, hnone, Option.map_none, ite_self]
  by_cases hv : page ≤ v ∧ v < page + 4096
  · refine Eq.trans ?_ (if_pos hv).symm
    have hplace : placeOf pid' v = placeOf pid' page := (placeOf_in_page hlo hhi halign huser).mpr hv
    rw [space, space, if_pos huser, if_pos huser, hent, hplace, he, Option.bind_some, Option.bind_some]
    cases hsh : e.shared with
    | true => rfl
    | false =>
      have hmem : t.mem e.index (v % 4096 / 4) =
          (words (idx page) (v % 4096 / 4)).getD (s.mem e.index (v % 4096 / 4)) := by
        rw [ht]
        exact congrFun (if_pos rfl) _
      rw [hmem, idx, show page / 4096 = v / 4096 by omega]
      rfl
  · refine Eq.trans ?_ (if_neg hv).symm
    exact hother pid' v fun heq => hv ((placeOf_in_page hlo hhi halign huser).mp heq)

/-- **The stores of `read`** in the pages that were mapped. -/
theorem Sound.readPages_space {words : ℕ → ℕ → Option PageEntry} : ∀ (left page : ℕ) (s t : Memory), s.Sound →
    s.running pid = some task → (∀ i < left, userMmapAddr ≤ page + i * 4096 ∧ page + i * 4096 < userStackTop) →
    (∀ i < left, (page + i * 4096) % 4096 = 0) → (∀ i < left, s.MayWrite (placeOf pid (page + i * 4096))) →
    Memory.readPages task.pde words left page s = some t →
      t.space = Function.update s.space pid ((s.space pid).read words page (page + left * 4096)) := by
  intro left
  induction left with
  | zero =>
    intro page s t _ _ _ _ _ hloop
    obtain rfl := Option.some.inj hloop
    rw [Nat.zero_mul, Nat.add_zero, Space.read_self, Function.update_eq_self]
  | succ left ih =>
    intro page s t h hrun hrange halign hmay hloop
    obtain ⟨hlo, hhi⟩ := hrange 0 (Nat.succ_pos left)
    rw [userMmapAddr_eq] at hlo
    rw [userStackTop_eq] at hhi
    have hlo' : userExecAddr ≤ page := by
      rw [userExecAddr_eq]
      omega
    have hd := didx_user hlo' (show page < 0xFFC00000 by omega)
    rw [Memory.readPages] at hloop
    obtain ⟨f, hwalk, hloop⟩ := Option.bind_eq_some_iff.mp hloop
    obtain ⟨e, he, rfl, -⟩ := entryAt_of_walk h.exact.tables hrun hd hwalk
    obtain ⟨u, hu⟩ : ∃ u, u = s.setFrame e.index fun j => (words (idx page) j).getD (s.mem e.index j) := ⟨_, rfl⟩
    obtain ⟨hsound, hent⟩ := h.of_data (t := u) (by rw [hu]; rfl) (by rw [hu]; rfl) (by rw [hu]; rfl)
      (by rw [hu]; rfl) (h.exact.tables.loose_of_page (h.exact.tables.refs he)) fun g hg => by
        rw [hu]
        exact if_neg hg
    have halign₀ := halign 0 (Nat.succ_pos left)
    have hmay₀ := hmay 0 (Nat.succ_pos left)
    rw [Nat.zero_mul, Nat.add_zero] at halign₀ hmay₀
    have hpage := h.readPage_space hlo' (by omega) halign₀ he hmay₀ hu
    have hrun' : u.running pid = some task := by
      rw [hu]
      exact hrun
    have hnext : u32 (page + pageSize) = page + 4096 := by
      rw [pageSize_eq, u32_of_lt (by omega)]
    rw [← hu, hnext] at hloop
    have hshift : ∀ i, page + 4096 + i * 4096 = page + (i + 1) * 4096 := fun i => by omega
    have hrest := ih (page + 4096) u t hsound hrun' (fun i hi => by rw [hshift]; exact hrange (i + 1) (by omega))
      (fun i hi => by rw [hshift]; exact halign (i + 1) (by omega))
      (fun i hi => by
        rw [hshift]
        exact (hmay (i + 1) (by omega)).evolve fun r e₁ he₁ => Or.inl ⟨e₁, by rw [← hent]; exact he₁, rfl, id⟩) hloop
    rw [hrest, hpage, Function.update_idem, Function.update_self, hshift,
      Space.read_read _ _ (Nat.le_add_right page 4096) (by omega)]

end Mapping

/-! ### Faults and stores -/

section Fault

variable {s t : Memory} {pid vaddr : ℕ} {write : Bool} {word : PageEntry}

/-- **`page_fault` on a page that may not be written** gives the process the page itself with the write bit, or a copy
of it: in both cases the words are the same. -/
theorem Sound.writeFault (h : s.Sound) (hlo : userExecAddr ≤ vaddr) (hhi : vaddr < userStackTop)
    (hfault : s.pageFault pid vaddr true write = some t) :
    ∃ e e', s.entryAt (placeOf pid vaddr) = some e ∧ e.shared = false ∧ e'.shared = false ∧
      t.entryAt = Function.update s.entryAt (placeOf pid vaddr) (some e') ∧ SameData s t ∧
      t.mem e'.index = s.mem e.index := by
  rw [userStackTop_eq] at hhi
  have hd := didx_user hlo (by omega)
  have hpage : placeOf pid (page (idx vaddr)) = placeOf pid vaddr := placeOf_page (by omega)
  simp only [placeOf, Prod.mk.injEq, Option.some.injEq, true_and] at hpage
  rw [Memory.pageFault] at hfault
  obtain ⟨task, hrun, hfault⟩ := Option.bind_eq_some_iff.mp hfault
  have hp := pdeOf_of_running hrun
  simp only [reduceIte] at hfault
  obtain ⟨_, -, hfault⟩ := Option.bind_eq_some_iff.mp hfault
  obtain ⟨⟨table, u⟩, hget, hfault⟩ := Option.bind_eq_some_iff.mp hfault
  obtain ⟨rfl, hpresd, rfl⟩ := h.exact.tables.getPte_false hp (by omega) hget
  obtain ⟨_, hpres, hfault⟩ := Option.bind_eq_some_iff.mp hfault
  obtain ⟨_, hshared, hfault⟩ := Option.bind_eq_some_iff.mp hfault
  obtain ⟨_, -, hfault⟩ := Option.bind_eq_some_iff.mp hfault
  obtain ⟨_, -, hfault⟩ := Option.bind_eq_some_iff.mp hfault
  rw [assert_eq_some] at hpres hshared
  obtain ⟨e, he⟩ : ∃ e, e = u.mem (u.mem task.pde (didx vaddr)).index (tidx vaddr) := ⟨_, rfl⟩
  rw [← he] at hpres hshared hfault
  have hsh : e.shared = false := by simpa using hshared
  have hr : placeOf pid vaddr ∈ places :=
    page_mem_places.mpr ⟨(h.exact.tables.dir hp).1, hd.1, hd.2, tidx_lt _⟩
  have hent : u.entryAt (placeOf pid vaddr) = some e := entryAt_page.mpr ⟨hr, _, hp, hpresd, he.symm, hpres⟩
  obtain ⟨-, hTd, hdhigh⟩ := h.exact.tables.table_high hp hd hpresd
  have hT := h.exact.tables.refs hent
  have htable : ∀ {pid' d i f}, u.target (pid', d, some i) = some f → (u.mem task.pde (didx vaddr)).index ≠ f :=
    fun hf heq => (h.exact.tables.loose_of_page hf).2 pid _ (heq ▸ hTd)
  by_cases hone : u.memoryMap e.index = 1
  · rw [if_pos hone] at hfault
    obtain rfl := Option.some.inj hfault
    obtain ⟨-, hupd⟩ := h.exact.setFlags hp hd hent { e with write := true } hpres rfl
    have hdata : SameData u (u.setWord (u.mem task.pde (didx vaddr)).index (tidx vaddr) { e with write := true }) :=
      fun pid' d i f hf => funext fun j => if_neg fun hc => htable hf hc.1.symm
    exact ⟨e, { e with write := true }, hent, hsh, hsh, hupd, hdata, hdata _ _ _ _ hT⟩
  · rw [if_neg hone] at hfault
    obtain ⟨⟨paddr, v⟩, hcopy, hfault⟩ := Option.bind_eq_some_iff.mp hfault
    have hwalk : u.walk task.pde (page (idx vaddr)) = some e.index := by
      rw [walk_eq_some, hpage.1, hpage.2, ← he]
      exact ⟨hpresd, hpres, rfl⟩
    have hhigh := (h.exact.tables.high hT).2.1
    obtain ⟨hplo, hphi, hfresh, hentv, htabv, -, hsamev, hmem⟩ :=
      h.exact.tables.copyPage hp h.exact.counts hwalk (by rw [hpage.1]; omega) (by omega) hcopy
    have hdir := (h.exact.tables.dir hp).2
    have hvd : v.mem task.pde = u.mem task.pde := by rw [hmem _ (by omega), if_neg (by omega)]
    have hnp : (u.mem task.pde (didx vaddr)).index ≠ paddr := fun heq => hfresh _ (heq ▸ hTd)
    obtain ⟨w, hw⟩ : ∃ w, w = v.setCount (v.mem (u.mem task.pde (didx vaddr)).index (tidx vaddr)).index
      (v.memoryMap (v.mem (u.mem task.pde (didx vaddr)).index (tidx vaddr)).index - 1) := ⟨_, rfl⟩
    rw [← hw] at hfault
    have honly : OnlyCounts v w := by rw [hw]; exact onlyCounts_setCount _ _ _
    obtain rfl := Option.some.inj hfault
    have hpw : w.pdeOf pid = some task.pde := by
      rw [honly.pdeOf, hsamev.pdeOf]
      exact hp
    have hmemw : w.mem task.pde = u.mem task.pde := by rw [honly.mem, hvd]
    have hentw := (honly.tables htabv).entryAt_setWord hpw hd (by rw [hmemw]; exact hpresd) (tidx_lt vaddr)
      (entryInit paddr)
    rw [hmemw, honly.entryAt, hentv, PageEntry.get_of_present (entryInit_present paddr)] at hentw
    -- the words of a page are where they were, unless it is the fresh one
    have hkept : ∀ f, f ≠ 2 → f ≠ (u.mem task.pde (didx vaddr)).index →
        (w.setWord (u.mem task.pde (didx vaddr)).index (tidx vaddr) (entryInit paddr)).mem f =
          if f = paddr then u.mem e.index else u.mem f := fun f hf hft => by
      rw [← hmem f hf, ← honly.mem]
      exact funext fun j => if_neg fun hc => hft hc.1
    refine ⟨e, entryInit paddr, hent, hsh, rfl, hentw, fun pid' d i f hf => ?_, ?_⟩
    · have hfhigh := (h.exact.tables.high hf).2.1
      rw [hkept f (by omega) (htable hf).symm, if_neg]
      rintro rfl
      exact hfresh _ hf
    · rw [entryInit_index hphi, hkept paddr (by omega) hnp.symm, if_pos rfl]

/-- **Copy on write is not seen.** -/
theorem Sound.writeFault_space (h : s.Sound) (hlo : userExecAddr ≤ vaddr) (hhi : vaddr < userStackTop)
    (hfault : s.pageFault pid vaddr true write = some t) : t.space = s.space := by
  obtain ⟨e, e', he, hsh, hsh', hent, hdata, hcopy⟩ := h.writeFault hlo hhi hfault
  funext pid' v
  by_cases hplace : placeOf pid' v = placeOf pid vaddr
  · rw [space, space]
    split
    case isFalse => rfl
    case isTrue =>
      rw [hplace, hent, Function.update_self, he, Option.bind_some, Option.bind_some, hsh, hsh', hcopy]
  · exact hdata.space_eq (SameBut.of_update hent _ hplace)

/-- **A page that is missing** is filled. -/
theorem Sound.missing_space (h : s.Sound) (hlo : userExecAddr ≤ vaddr) (hhi : vaddr < userStackTop)
    (hfault : s.pageFault pid vaddr false write = some t) :
    t.space = Function.update s.space pid (t.space pid) ∧
      Space.Filled (s.space pid) (t.space pid) (vaddr / 4096 * 4096) (vaddr / 4096 * 4096 + 4096) := by
  rw [userExecAddr_eq] at hlo
  rw [userStackTop_eq] at hhi
  rw [Memory.pageFault] at hfault
  obtain ⟨task, hrun, hfault⟩ := Option.bind_eq_some_iff.mp hfault
  simp only [Bool.false_eq_true, reduceIte] at hfault
  obtain ⟨_, -, hlink⟩ := Option.bind_eq_some_iff.mp hfault
  rw [page_idx (by omega)] at hlink
  exact h.linkPage_space hrun (by rw [userExecAddr_eq]; omega) (by omega) hlink

/-- **A store** changes a word of the process itself. -/
theorem Sound.store_space (h : s.Sound) (hcow : s.Cow) (hlo : userExecAddr ≤ vaddr) (hhi : vaddr < 0xFFC00000)
    (hstore : s.store pid vaddr word = some t) :
    t.space = Function.update s.space pid ((s.space pid).write vaddr word) := by
  obtain ⟨-, hent, e, he, hw, rfl⟩ := h.store (didx_user hlo hhi) hstore
  -- what another place has of the page is shared
  have hother : ∀ pid' v, placeOf pid' v ≠ placeOf pid vaddr →
      (s.setWord e.index (vaddr % 4096 / 4) word).space pid' v = s.space pid' v := fun pid' v hne =>
    space_congr (congrFun hent _) fun e' he' hsh => if_neg fun hc => by
      rw [(hcow _ _ _ _ he he' hne hc.1 hw).2] at hsh
      exact Bool.noConfusion hsh
  funext pid' v
  rcases eq_or_ne pid' pid with rfl | hne
  swap
  · rw [Function.update_of_ne hne]
    exact hother pid' v fun heq => hne (congrArg Prod.fst heq)
  rw [Function.update_self]
  by_cases huser : IsUser v
  swap
  · have hnone : ∀ m : Memory, m.space pid' v = none := fun m => if_neg huser
    rw [Space.write, hnone, hnone, Option.map_none, ite_self]
  have hiff : placeOf pid' v = placeOf pid' vaddr ↔ v / 4096 = vaddr / 4096 := placeOf_eq_iff huser ⟨hlo, hhi⟩
  by_cases hplace : placeOf pid' v = placeOf pid' vaddr
  · have hpage := hiff.mp hplace
    rw [Space.write, space, space, if_pos huser, if_pos huser, hent, hplace, he, Option.bind_some, Option.bind_some]
    cases hsh : e.shared with
    | true => simp
    | false =>
      by_cases hv : v / 4 = vaddr / 4
      · rw [if_pos hv]
        exact congrArg some (if_pos ⟨rfl, by omega⟩)
      · rw [if_neg hv]
        exact congrArg some (if_neg fun hc => hv (by omega))
  · rw [Space.write, if_neg fun hv => hplace (hiff.mpr (by omega))]
    exact hother pid' v hplace

end Fault

/-! ### Fork, exit and wait -/

section Tasks

variable {s t u : Memory} {pid child index : ℕ}

/-- The data of the pages stays in a fork. -/
theorem Sound.taskFork_data (h : s.Sound) (hfork : s.taskFork pid = some (child, u)) : SameData s u := by
  obtain ⟨task, page, bits, pde, pwd, s₁, s₂, s₃, s₄, s₅, hrun, hlt, hfree, hpage, hbits, halloc, hcopy, hpwd, hu⟩ :=
    taskFork_cases hfork
  obtain ⟨⟨m₂, hs₂⟩, hm₂⟩ := h.taskPages hfree hpage hbits
  obtain ⟨b, hb⟩ : ∃ b, b = (s₃.setFrame pde (s₃.mem task.pde)).setWord pde 1023 (entryInit pde) := ⟨_, rfl⟩
  obtain ⟨⟨m₃, rfl⟩, -, hcopying⟩ := h.forking hrun hlt hfree hs₂ hm₂ halloc hb
  rw [← hb] at hcopy
  have hmem : ∀ f, f ≠ pde → b.mem f = s.mem f := fun f hf => by
    rw [hb]
    exact (funext fun j => if_neg fun hc => hf hc.1).trans (if_neg hf)
  obtain ⟨T', hc⟩ := copyTables_spec 1019 4 b s₄ s.target rfl (le_refl 4) hcopying hcopy
  have hlast : u.mem = s₄.mem := by
    rw [allocKpage] at hpwd
    obtain ⟨_, -, hpwd⟩ := Option.bind_eq_some_iff.mp hpwd
    obtain ⟨⟨k, map⟩, -, hpwd⟩ := Option.bind_eq_some_iff.mp hpwd
    obtain ⟨-, rfl⟩ := Prod.mk.inj (Option.some.inj hpwd)
    rw [hu]
    rfl
  have hp := pdeOf_of_running hrun
  have hne : task.pde ≠ pde := by
    rintro rfl
    exact hcopying.pde_fresh pid hcopying.parent
  have hrange := hcopying.pde_range
  intro pid' d i f hf
  have hhigh := (h.exact.tables.high hf).2.1
  rw [hlast, hc.frame _ f hf fun d' hd' hd'' hpres heq => ?_, hmem f (by omega)]
  -- the frame is no table of the parent
  rw [hmem _ hne] at hpres heq
  exact (h.exact.tables.loose_of_page hf).2 pid d' (heq ▸ (h.exact.tables.table_high hp ⟨hd', hd''⟩ hpres).2.1)

/-- A page that is shared between parent and child has the words it had. -/
theorem SameData.space_share (h : SameData s u) {pid' v : ℕ}
    (hent : u.entryAt (placeOf pid' v) = (s.entryAt (placeOf pid v)).map PageEntry.share) :
    u.space pid' v = s.space pid v := by
  rw [space, space, hent]
  split
  case isFalse => rfl
  case isTrue =>
    cases he : s.entryAt (placeOf pid v) with
    | none => rfl
    | some e =>
      rw [Option.map_some, Option.bind_some, Option.bind_some, PageEntry.share_shared, PageEntry.share_index,
        h.mem_eq he]

/-- **A fork gives the child a copy** of the memory of its parent. -/
theorem Sound.taskFork_space (h : s.Sound) (hfork : s.taskFork pid = some (child, u)) :
    s.space child = Space.empty ∧ u.space = Function.update s.space child (s.space pid) := by
  have hforked := (h.taskFork hfork).2
  have hdata := h.taskFork_data hfork
  refine ⟨space_of_dead hforked.fresh, ?_⟩
  funext pid' v
  rcases eq_or_ne pid' child with rfl | hne
  · rw [Function.update_self]
    exact hdata.space_share (hforked.copy _ _)
  · rw [Function.update_of_ne hne]
    rcases eq_or_ne pid' pid with rfl | hne'
    · exact hdata.space_share (hforked.page _ _)
    · exact hdata.space_eq (hforked.other _ hne' hne)

theorem freeKpage_mem {count : ℕ} (h : s.freeKpage index count = some t) : t.mem = s.mem := by
  rw [freeKpage] at h
  obtain ⟨_, -, h⟩ := Option.bind_eq_some_iff.mp h
  obtain ⟨map, -, h⟩ := Option.bind_eq_some_iff.mp h
  obtain rfl := Option.some.inj h
  rfl

/-- **An exit** takes the memory of one process away. -/
theorem Sound.taskExit_space (h : s.Sound) (hexit : s.taskExit pid = some t) :
    t.space = Function.update s.space pid Space.empty := by
  obtain ⟨-, hexited⟩ := h.taskExit hexit
  have hmem : t.mem = s.mem := by
    rw [Memory.taskExit] at hexit
    obtain ⟨task, hrun, hexit⟩ := Option.bind_eq_some_iff.mp hexit
    obtain ⟨s₁, hfree, hexit⟩ := Option.bind_eq_some_iff.mp hexit
    obtain ⟨s₂, hbits, hpwd⟩ := Option.bind_eq_some_iff.mp hexit
    obtain ⟨v, hpde, -, honly, -⟩ := h.exact.freePde hrun rfl hfree
    rw [freeKpage_mem hpwd, freeKpage_mem hbits, freeKpage_mem hpde, honly.mem]
    rfl
  funext pid' v
  rcases eq_or_ne pid' pid with rfl | hne
  · rw [Function.update_self, space_of_dead hexited.dead]
  · rw [Function.update_of_ne hne]
    exact (SameData.of_mem hmem).space_eq (hexited.other _ hne)

/-- The end of a dead process changes no memory. -/
theorem Sound.taskReap_space (h : s.Sound) (hreap : s.taskReap child = some t) : t.space = s.space := by
  refine space_of_eq (h.taskReap hreap).2 ?_
  rw [Memory.taskReap] at hreap
  obtain ⟨task, -, hreap⟩ := Option.bind_eq_some_iff.mp hreap
  obtain ⟨_, -, hfree⟩ := Option.bind_eq_some_iff.mp hreap
  rw [freeKpage_mem hfree]
  rfl

end Tasks

/-! ### System calls -/

section Calls

variable {s t : Memory} {pid addr length : ℕ} {task : Task}

/-- The loop of `sys_brk`. -/
theorem Sound.unlinkPages_space : ∀ (left page : ℕ) (s t : Memory), s.Sound → s.running pid = some task →
    userExecAddr ≤ page → page + left * 4096 < userMmapAddr + 4096 →
    Memory.unlinkPages task.pde left page s = some t →
      t.space = Function.update s.space pid ((s.space pid).clear page (page + left * 4096)) := by
  intro left
  induction left with
  | zero =>
    intro page s t _ _ _ _ hloop
    obtain rfl := Option.some.inj hloop
    rw [Nat.zero_mul, Nat.add_zero, Space.clear_self, Function.update_eq_self]
  | succ left ih =>
    intro page s t h hrun hlo hhi hloop
    rw [Memory.unlinkPages] at hloop
    obtain ⟨u, hunlink, hloop⟩ := Option.bind_eq_some_iff.mp hloop
    rw [userMmapAddr_eq] at hhi
    obtain ⟨hu, hsame, -⟩ := h.unlinkPage hrun (didx_user hlo (by omega)) hunlink
    have hpage := h.unlinkPage_space hrun hlo (by omega) hunlink
    have hrest := ih (page + pageSize) u t hu (by rw [hsame.running]; exact hrun) (by rw [pageSize_eq]; omega)
      (by rw [pageSize_eq, userMmapAddr_eq]; omega) hloop
    rw [hrest, hpage, Function.update_idem, Function.update_self, pageSize_eq,
      Space.clear_clear _ (Nat.le_add_right page 4096) (Nat.le_add_right _ _),
      show page + 4096 + left * 4096 = page + (left + 1) * 4096 by omega]

/-- The loop of `sys_munmap`. -/
theorem Sound.unmapPages_space : ∀ (left page : ℕ) (s t : Memory) (vmap vmap' : Bitmap), s.Sound →
    s.running pid = some task → vmap.offset = 32768 → vmap.size ≤ 4096 →
    Memory.unmapPages task.pde left page s vmap = some (t, vmap') →
      t.space = Function.update s.space pid ((s.space pid).clear page (page + left * 4096)) := by
  intro left
  induction left with
  | zero =>
    intro page s t vmap vmap' _ _ _ _ hloop
    obtain ⟨rfl, -⟩ := Prod.mk.inj (Option.some.inj hloop)
    rw [Nat.zero_mul, Nat.add_zero, Space.clear_self, Function.update_eq_self]
  | succ left ih =>
    intro page s t vmap vmap' h hrun hoff hsize hloop
    rw [Memory.unmapPages] at hloop
    obtain ⟨u, hunlink, hloop⟩ := Option.bind_eq_some_iff.mp hloop
    obtain ⟨used, -, hloop⟩ := Option.bind_eq_some_iff.mp hloop
    obtain ⟨_, -, hloop⟩ := Option.bind_eq_some_iff.mp hloop
    obtain ⟨map, hset, hloop⟩ := Option.bind_eq_some_iff.mp hloop
    obtain ⟨hlo, hlt, hmap⟩ := bitmapSet_eq_some hset
    rw [hoff] at hlo hlt
    obtain ⟨hmlo, hmhi, hd⟩ := didx_vmap hlo hlt hsize
    rw [userMmapAddr_eq] at hmlo
    rw [userStackTop_eq] at hmhi
    obtain ⟨hu, hsame, -⟩ := h.unlinkPage hrun hd hunlink
    have hpage := h.unlinkPage_space hrun (by rw [userExecAddr_eq]; omega) (by omega) hunlink
    have hnext : u32 (page + pageSize) = page + 4096 := by
      rw [pageSize_eq, u32_of_lt (by omega)]
    rw [hnext] at hloop
    have hrest := ih (page + 4096) u t map vmap' hu (by rw [hsame.running]; exact hrun) (by rw [hmap]; exact hoff)
      (by rw [hmap]; exact hsize) hloop
    rw [hrest, hpage, Function.update_idem, Function.update_self,
      Space.clear_clear _ (Nat.le_add_right page 4096) (Nat.le_add_right _ _),
      show page + 4096 + left * 4096 = page + (left + 1) * 4096 by omega]

/-- **`sys_brk`** takes the words behind the new end of the heap away. -/
theorem Sound.sysBrk_space {brk : ℕ} {ok : Bool} (h : s.Sound) (hcall : s.sysBrk pid brk = some (ok, t)) :
    ∃ top, t.space = Function.update s.space pid ((s.space pid).clear brk top) := by
  rw [Memory.sysBrk] at hcall
  obtain ⟨_, -, hcall⟩ := Option.bind_eq_some_iff.mp hcall
  obtain ⟨task, hrun, hcall⟩ := Option.bind_eq_some_iff.mp hcall
  obtain ⟨_, -, hcall⟩ := Option.bind_eq_some_iff.mp hcall
  obtain ⟨_, hrange, hcall⟩ := Option.bind_eq_some_iff.mp hcall
  rw [assert_eq_some] at hrange
  have hwf := h.wf hrun
  have hlo := hwf.endAddr
  have hold := hwf.brk
  have hwf' : Task.WF { task with brk := brk } := ⟨hlo, hrange.2, hwf.offset, hwf.size⟩
  have hsame : s.space = Function.update s.space pid ((s.space pid).clear brk brk) := by
    rw [Space.clear_self, Function.update_eq_self]
  by_cases hlt : brk < task.brk
  · rw [if_pos hlt] at hcall
    obtain ⟨u, hloop, hcall⟩ := Option.bind_eq_some_iff.mp hcall
    obtain ⟨-, rfl⟩ := Prod.mk.inj (Option.some.inj hcall)
    rw [userMmapAddr_eq] at hold
    have hcount : divRoundUp (task.brk - brk) pageSize = (task.brk - brk + 4095) / 4096 := by
      rw [pageSize_eq, divRoundUp_eq (by omega) (by omega)]
    have hbound : brk + divRoundUp (task.brk - brk) pageSize * 4096 < userMmapAddr + 4096 := by
      rw [hcount, userMmapAddr_eq]
      omega
    obtain ⟨hu, hsametasks, -⟩ := Sound.unlinkPages _ brk s u h hrun (by omega) hbound hloop
    have hent := (hu.setTask ((hsametasks.running pid).trans hrun) { task with brk := brk } rfl rfl rfl hwf').2
    exact ⟨_, (space_of_eq hent rfl).trans (Sound.unlinkPages_space _ brk s u h hrun (by omega) hbound hloop)⟩
  · rw [if_neg hlt] at hcall
    refine ⟨brk, ?_⟩
    by_cases hfree : s.freePages < idx (brk - task.brk)
    · rw [if_pos hfree] at hcall
      obtain ⟨-, rfl⟩ := Prod.mk.inj (Option.some.inj hcall)
      exact hsame
    · rw [if_neg hfree] at hcall
      obtain ⟨-, rfl⟩ := Prod.mk.inj (Option.some.inj hcall)
      exact (space_of_eq (h.setTask hrun { task with brk := brk } rfl rfl rfl hwf').2 rfl).trans hsame

/-- **`sys_munmap`** takes the words of its range away. -/
theorem Sound.sysMunmap_space (h : s.Sound) (hcall : s.sysMunmap pid addr length = some t) :
    t.space = Function.update s.space pid ((s.space pid).clear addr (addr + divRoundUp length pageSize * 4096)) := by
  rw [Memory.sysMunmap] at hcall
  obtain ⟨task, hrun, hcall⟩ := Option.bind_eq_some_iff.mp hcall
  obtain ⟨_, -, hcall⟩ := Option.bind_eq_some_iff.mp hcall
  obtain ⟨_, -, hcall⟩ := Option.bind_eq_some_iff.mp hcall
  obtain ⟨⟨u, vmap⟩, hloop, hcall⟩ := Option.bind_eq_some_iff.mp hcall
  obtain rfl := Option.some.inj hcall
  have hwf := h.wf hrun
  obtain ⟨hu, hsame, -, hoff, hsize⟩ :=
    Sound.unmapPages _ addr s u task.vmap vmap h hrun hwf.offset hwf.size hloop
  have hent := (hu.setTask ((hsame.running pid).trans hrun) { task with vmap := vmap } rfl rfl rfl
    ⟨hwf.endAddr, hwf.brk, hoff, hsize⟩).2
  exact (space_of_eq hent rfl).trans
    (Sound.unmapPages_space _ addr s u task.vmap vmap h hrun hwf.offset hwf.size hloop)

/-- Where `sys_mmap` maps when it is told. -/
theorem mmapAddr_of_ne {vmap vmap' : Bitmap} {count vaddr : ℕ} (hne : addr ≠ 0)
    (h : mmapAddr vmap addr count = some (vaddr, vmap')) : vaddr = addr := by
  rw [mmapAddr, if_neg hne] at h
  exact (Prod.mk.inj (Option.some.inj h)).1.symm

/-- **`sys_mmap`** maps its range, and reads a file into it. -/
theorem Sound.sysMmap_space {vaddr prot flags : ℕ} {file : Option (ℕ → ℕ → Option PageEntry)} (h : s.Sound)
    (hmay : file.isSome → ∀ task vaddr vmap, s.running pid = some task →
      mmapAddr task.vmap addr (divRoundUp length pageSize) = some (vaddr, vmap) →
      ∀ i < divRoundUp length pageSize, s.MayWrite (placeOf pid (vaddr + i * 4096)))
    (hcall : s.sysMmap pid addr length prot flags file = some (vaddr, t)) :
    ∃ b, (addr ≠ 0 → vaddr = addr) ∧
      Space.Mapped (s.space pid) b (flags &&& 1 ≠ 0) vaddr (vaddr + divRoundUp length pageSize * 4096) ∧
      t.space = Function.update s.space pid
        (file.elim b fun words => b.read words vaddr (vaddr + divRoundUp length pageSize * 4096)) := by
  obtain ⟨task, vmap, vmap', u, hrun, haddr, hloop, hend⟩ := sysMmap_cases hcall
  have hwf := h.wf hrun
  obtain ⟨hoff, hsize⟩ := mmapAddr_wf haddr
  rw [hwf.offset] at hoff
  have hsize' : vmap.size ≤ 4096 := hsize.trans_le hwf.size
  obtain ⟨hu, hsame, -, hoff', hsize'', hrange⟩ := Sound.mapPages _ vaddr s u vmap vmap' h hrun hoff hsize' hloop
  obtain ⟨hspace, hmapped, hev, halign⟩ :=
    Sound.mapPages_space _ vaddr s u vmap vmap' h hrun hoff hsize' hloop
  have hrunu : u.running pid = some task := (hsame.running pid).trans hrun
  obtain ⟨hset, hent⟩ := hu.setTask hrunu { task with vmap := vmap' } rfl rfl rfl
    ⟨hwf.endAddr, hwf.brk, hoff', hsize''⟩
  have hspaceu : (u.setTask pid (some { task with vmap := vmap' })).space = u.space := space_of_eq hent rfl
  refine ⟨u.space pid, fun hne => mmapAddr_of_ne hne haddr, hmapped, ?_⟩
  rcases hend with ⟨rfl, rfl⟩ | ⟨words, rfl, hread⟩
  · exact hspaceu.trans hspace
  · have hrun' := running_setTask_self (s := u) (c := pid) { task with vmap := vmap' } (running_eq_some.mp hrun).2
    have hreads := Sound.readPages_space _ vaddr _ t hset hrun' hrange halign (fun i hi => ?_) hread
    · rw [hreads, hspaceu, hspace, Function.update_idem, Function.update_self]
      rfl
    · refine (hmay rfl task vaddr vmap hrun haddr i hi).evolve (hev.trans fun r e he => ?_)
      exact Or.inl ⟨e, by rw [← hent]; exact he, rfl, id⟩

end Calls

end Memory

/-! ### Steps and runs -/

/-- A `sys_mmap` that may write, through `PROT_WRITE` or because it reads a file, meets no page that another entry
refers to, shared pages apart. -/
def MemoryOp.Careful (s : Memory) : MemoryOp → Prop
  | mmap pid addr length prot _ file => prot &&& 2 ≠ 0 ∨ file.isSome → ∀ task vaddr vmap, s.running pid = some task →
      Memory.mmapAddr task.vmap addr (divRoundUp length Memory.pageSize) = some (vaddr, vmap) →
      ∀ i < divRoundUp length Memory.pageSize, ∀ e,
        s.entryAt (Memory.placeOf pid (vaddr + i * 4096)) = some e →
        s.memoryMap e.index = 1 ∨ ∀ r e', s.entryAt r = some e' → e'.index = e.index → e'.shared = true
  | _ => True

/-- What is careful is safe. -/
theorem MemoryOp.Careful.safe {s : Memory} {op : MemoryOp} (h : op.Careful s) : op.Safe s := by
  cases op with
  | mmap pid addr length prot flags file => exact fun hprot => h (Or.inl hprot)
  | _ => trivial

namespace Memory

section Runs

variable {s t : Memory} {op : MemoryOp}

/-- **Each step is a step of the memories.** -/
theorem Sound.step_space (h : s.Sound) (hcow : s.Cow) (hlegal : op.Legal s) (hcareful : op.Careful s) {r : Unit}
    (hstep : op.step s = some (r, t)) : Spaces.Step s.space op t.space := by
  cases op with
  | fork pid =>
    obtain ⟨⟨child, u⟩, hfork, heq⟩ := Option.map_eq_some_iff.mp hstep
    obtain ⟨-, rfl⟩ := Prod.mk.inj heq
    obtain ⟨hfree, hspace⟩ := h.taskFork_space hfork
    rw [hspace]
    exact .fork hfree
  | exit pid =>
    obtain ⟨u, hexit, heq⟩ := Option.map_eq_some_iff.mp hstep
    obtain ⟨-, rfl⟩ := Prod.mk.inj heq
    rw [h.taskExit_space hexit]
    exact .own rfl rfl (by simp)
  | reap child =>
    obtain ⟨u, hreap, heq⟩ := Option.map_eq_some_iff.mp hstep
    obtain ⟨-, rfl⟩ := Prod.mk.inj heq
    rw [h.taskReap_space hreap]
    exact .reap
  | brk pid addr =>
    obtain ⟨⟨ok, u⟩, hcall, heq⟩ := Option.map_eq_some_iff.mp hstep
    obtain ⟨-, rfl⟩ := Prod.mk.inj heq
    obtain ⟨top, hspace⟩ := h.sysBrk_space hcall
    rw [hspace]
    exact .own rfl ⟨top, rfl⟩ (by simp)
  | mmap pid addr length prot flags file =>
    obtain ⟨⟨vaddr, u⟩, hcall, heq⟩ := Option.map_eq_some_iff.mp hstep
    obtain ⟨-, rfl⟩ := Prod.mk.inj heq
    have hmay : file.isSome → ∀ task vaddr vmap, s.running pid = some task →
        mmapAddr task.vmap addr (divRoundUp length pageSize) = some (vaddr, vmap) →
        ∀ i < divRoundUp length pageSize, s.MayWrite (placeOf pid (vaddr + i * 4096)) := by
      intro hfile task vaddr vmap hrun haddr i hi e he
      have hT := h.exact.tables.refs he
      obtain ⟨hr, hhigh, -⟩ := h.exact.tables.high hT
      rcases hcareful (Or.inr hfile) task vaddr vmap hrun haddr i hi e he with hone | hall
      · rw [h.exact.counts.count _ hhigh] at hone
        exact Or.inl fun r' hr' => eq_of_refCount_le_one hone.le hr hT (h.exact.tables.high hr').1 hr'
      · exact Or.inr fun he' => hall _ _ he'
    obtain ⟨b, haddr, hmapped, hspace⟩ := h.sysMmap_space hmay hcall
    rw [hspace]
    exact .own rfl ⟨vaddr, b, haddr, hmapped, rfl⟩ (by simp)
  | munmap pid addr length =>
    obtain ⟨u, hcall, heq⟩ := Option.map_eq_some_iff.mp hstep
    obtain ⟨-, rfl⟩ := Prod.mk.inj heq
    rw [h.sysMunmap_space hcall]
    exact .own rfl rfl (by simp)
  | fault pid vaddr present write =>
    obtain ⟨u, hfault, heq⟩ := Option.map_eq_some_iff.mp hstep
    obtain ⟨-, rfl⟩ := Prod.mk.inj heq
    obtain ⟨hlo, hhi⟩ := hlegal
    cases present with
    | true =>
      have hsame : u.space = Function.update s.space pid (s.space pid) := by
        rw [h.writeFault_space hlo hhi hfault, Function.update_eq_self]
      rw [hsame]
      exact .own rfl rfl (by simp)
    | false =>
      obtain ⟨hspace, hfilled⟩ := h.missing_space hlo hhi hfault
      rw [hspace]
      exact .own rfl hfilled (by simp)
  | link pid vaddr =>
    obtain ⟨task, hrun, hmap⟩ := Option.bind_eq_some_iff.mp hstep
    obtain ⟨u, hlink, heq⟩ := Option.map_eq_some_iff.mp hmap
    obtain ⟨-, rfl⟩ := Prod.mk.inj heq
    obtain ⟨hspace, hfilled⟩ := h.linkPage_space hrun hlegal.1 hlegal.2 hlink
    rw [hspace]
    exact .own rfl hfilled (by simp)
  | unlink pid vaddr =>
    obtain ⟨task, hrun, hmap⟩ := Option.bind_eq_some_iff.mp hstep
    obtain ⟨u, hunlink, heq⟩ := Option.map_eq_some_iff.mp hmap
    obtain ⟨-, rfl⟩ := Prod.mk.inj heq
    rw [h.unlinkPage_space hrun hlegal.1 hlegal.2 hunlink]
    exact .own rfl rfl (by simp)
  | store pid vaddr word =>
    obtain ⟨u, hstore, heq⟩ := Option.map_eq_some_iff.mp hstep
    obtain ⟨-, rfl⟩ := Prod.mk.inj heq
    rw [h.store_space hcow hlegal.1 hlegal.2 hstore]
    exact .own rfl rfl (by simp)

/-- **Each run is a run of the memories.** -/
theorem Sound.run_space : ∀ (ops : List MemoryOp) (s t : Memory), s.Sound → s.Cow →
    Run.Along MemoryOp.step (fun s op => op.Legal s ∧ op.Careful s) s ops → Run.exec MemoryOp.step s ops = some t →
      t.Sound ∧ t.Cow ∧ Spaces.Runs s.space ops t.space := by
  intro ops
  induction ops with
  | nil =>
    intro s t h hcow _ hrun
    obtain rfl := Option.some.inj hrun
    exact ⟨h, hcow, .nil⟩
  | cons op ops ih =>
    rintro s t h hcow ⟨⟨hlegal, hcareful⟩, hrest⟩ hrun
    obtain ⟨r, u, hstep, hexec⟩ := Run.exec_cons.mp hrun
    obtain ⟨ht, hcowt, hruns⟩ :=
      ih u t (h.step hlegal hstep) (hcow.step h hlegal hcareful.safe hstep) (hrest r u hstep) hexec
    exact ⟨ht, hcowt, .cons (h.step_space hcow hlegal hcareful hstep) hruns⟩

end Runs

end Memory

/-! ### A page that is shared -/

/-- The mark of a page, and a word of it. -/
def Memory.markAndWord (s : Memory) (pid vaddr : ℕ) : Option (Bool × PageEntry) := do
  let task ← s.running pid
  let e ← s.entryOf task.pde vaddr
  return (e.shared, s.mem e.index (vaddr % 4096 / 4))

/-- A word of a page that is not marked is the process' own. -/
theorem Memory.Sound.space_of_mark {s : Memory} (h : s.Sound) {pid vaddr : ℕ} {word : PageEntry} (huser : Memory.IsUser vaddr)
    (hmark : s.markAndWord pid vaddr = some (false, word)) : s.space pid vaddr = some word := by
  obtain ⟨task, hrun, hmark⟩ := Option.bind_eq_some_iff.mp hmark
  obtain ⟨e, he, hmark⟩ := Option.bind_eq_some_iff.mp hmark
  obtain ⟨hsh, hword⟩ := Prod.mk.inj (Option.some.inj hmark)
  have hent := Memory.entryAt_of_entryOf h.exact.tables hrun (Memory.didx_user huser.1 huser.2) he
  exact Memory.space_eq_some.mpr ⟨huser, e, hent, hsh, hword⟩

/-- The first task writes a page. -/
def firstWord : List MemoryOp := [.fault 1 0x1002000 false true, .store 1 0x1002000 (entryInit 7)]

/-- A process writes the page, which is shared. -/
def secondWord (pid : ℕ) : List MemoryOp := [.fault pid 0x1002000 true true, .store pid 0x1002000 (entryInit 8)]

theorem firstWord_along : Run.Along MemoryOp.step (fun s op => op.Legal s ∧ op.Careful s) bootMemory firstWord :=
  ⟨⟨⟨by decide, by decide⟩, trivial⟩, fun _ _ _ => ⟨⟨⟨by decide, by decide⟩, trivial⟩, fun _ _ _ => trivial⟩⟩

theorem secondWord_along (pid : ℕ) (t : Memory) :
    Run.Along MemoryOp.step (fun s op => op.Legal s ∧ op.Careful s) t (secondWord pid) :=
  ⟨⟨⟨by decide, by decide⟩, trivial⟩, fun _ _ _ => ⟨⟨⟨by decide, by decide⟩, trivial⟩, fun _ _ _ => trivial⟩⟩

/-- The states before the fork, behind it and when process `pid` has written, with the number of the child. -/
def forkStates (pid : ℕ) : Option (Memory × ℕ × Memory × Memory) := do
  let s ← Run.exec MemoryOp.step bootMemory firstWord
  let (child, t) ← s.taskFork 1
  let u ← Run.exec MemoryOp.step t (secondWord pid)
  return (s, child, t, u)

/-- What the states come to: the word is there before the fork, and the other process has written another one. -/
theorem forkStates_cases (pid : ℕ) (h : (forkStates pid).map (fun x => decide (x.2.1 = 0 ∧
      x.1.markAndWord 1 0x1002000 = some (false, entryInit 7) ∧
      x.2.2.2.load pid 0x1002000 = some (entryInit 8))) = some true) :
    ∃ s t u, Run.exec MemoryOp.step bootMemory firstWord = some s ∧ s.taskFork 1 = some (0, t) ∧
      Run.exec MemoryOp.step t (secondWord pid) = some u ∧ s.space 1 0x1002000 = some (entryInit 7) ∧
      u.load pid 0x1002000 = some (entryInit 8) := by
  obtain ⟨⟨s, child, t, u⟩, hstates, hfacts⟩ := Option.map_eq_some_iff.mp h
  obtain ⟨rfl, hw, hw'⟩ := of_decide_eq_true hfacts
  rw [forkStates] at hstates
  obtain ⟨s', hs, hstates⟩ := Option.bind_eq_some_iff.mp hstates
  obtain ⟨⟨c, t'⟩, ht, hstates⟩ := Option.bind_eq_some_iff.mp hstates
  obtain ⟨u', hu, hstates⟩ := Option.bind_eq_some_iff.mp hstates
  simp only [Option.pure_def, Option.some.injEq, Prod.mk.injEq] at hstates
  obtain ⟨rfl, rfl, rfl, rfl⟩ := hstates
  have hsound := (Memory.Sound.run_space _ _ _ bootMemory_boot.sound bootMemory_boot.cow firstWord_along hs).1
  exact ⟨s', t', u', hs, ht, hu, hsound.space_of_mark ⟨by decide, by decide⟩ hw, hw'⟩

/-! ### The memories along a run -/

section Theorems

variable {b s t u : Memory} {ops ops' : List MemoryOp} {pid child : ℕ}

/-- **Every run is a run of separate memories**: what the processes have of their own goes through the steps of a
machine that knows no pages, and that copies a memory at each fork. -/
theorem memoryRun_spaces (h : b.Boot)
    (hops : Run.Along MemoryOp.step (fun s op => op.Legal s ∧ op.Careful s) b ops)
    (hrun : Run.exec MemoryOp.step b ops = some t) : Spaces.Runs b.space ops t.space :=
  (Memory.Sound.run_space ops b t h.sound h.cow hops hrun).2.2

/-- The memories while a page is written, shared and written again. -/
theorem memoryRun_spaces_word : ∃ t, Run.exec MemoryOp.step bootMemory (firstWord ++ .fork 1 :: secondWord 1) = some t ∧
    Spaces.Runs bootMemory.space (firstWord ++ .fork 1 :: secondWord 1) t.space := by
  have hsome : (Run.exec MemoryOp.step bootMemory (firstWord ++ .fork 1 :: secondWord 1)).isSome = true := by
    decide +kernel
  obtain ⟨t, ht⟩ := Option.isSome_iff_exists.mp hsome
  have hops : Run.Along MemoryOp.step (fun s op => op.Legal s ∧ op.Careful s) bootMemory
      (firstWord ++ .fork 1 :: secondWord 1) :=
    Run.along_append.mpr ⟨firstWord_along, fun _ _ => ⟨⟨trivial, trivial⟩, fun _ t _ => secondWord_along 1 t⟩⟩
  exact ⟨t, ht, memoryRun_spaces bootMemory_boot hops ht⟩

/-- **Nobody changes the memory of another process.** While a process makes no step it goes on reading what it has of its
own, whatever the others do: they fork, exit, map files, fault and store. -/
theorem memoryRun_private (h : b.Boot)
    (hops : Run.Along MemoryOp.step (fun s op => op.Legal s ∧ op.Careful s) b ops)
    (hrun : Run.exec MemoryOp.step b ops = some s)
    (hops' : Run.Along MemoryOp.step (fun s op => op.Legal s ∧ op.Careful s) s ops')
    (hothers : ∀ op ∈ ops', op.actor ≠ some pid) (hrun' : Run.exec MemoryOp.step s ops' = some t) :
    ∀ vaddr word, s.space pid vaddr = some word → t.space pid vaddr = some word ∧ t.load pid vaddr = some word := by
  intro vaddr word hw
  obtain ⟨hs, hcow, -⟩ := Memory.Sound.run_space ops b s h.sound h.cow hops hrun
  obtain ⟨-, -, hruns⟩ := Memory.Sound.run_space ops' s t hs hcow hops' hrun'
  have hkeep := hruns.keep hothers hw
  exact ⟨hkeep, Memory.load_of_space hkeep⟩

/-- The child writes, and the parent reads the old word. -/
theorem memoryRun_private_word : ∃ s t u, Run.exec MemoryOp.step bootMemory firstWord = some s ∧
    s.taskFork 1 = some (0, t) ∧ Run.exec MemoryOp.step t (secondWord 0) = some u ∧
    u.load 1 0x1002000 = some (entryInit 7) ∧ u.load 0 0x1002000 = some (entryInit 8) := by
  obtain ⟨s, t, u, hs, ht, hu, hw, hw'⟩ := forkStates_cases 0 (by decide +kernel)
  have hrun : Run.exec MemoryOp.step bootMemory (firstWord ++ [.fork 1]) = some t := by
    rw [Run.exec_append, hs, Option.bind_some]
    exact Run.exec_cons.mpr ⟨(), t, congrArg (Option.map fun x : ℕ × Memory => ((), x.2)) ht, rfl⟩
  have hops : Run.Along MemoryOp.step (fun s op => op.Legal s ∧ op.Careful s) bootMemory (firstWord ++ [.fork 1]) :=
    Run.along_concat firstWord_along fun _ _ => ⟨trivial, trivial⟩
  have hsound := (Memory.Sound.run_space _ _ _ bootMemory_boot.sound bootMemory_boot.cow firstWord_along hs).1
  have hwt : t.space 1 0x1002000 = some (entryInit 7) := by
    rw [(hsound.taskFork_space ht).2, Function.update_of_ne (by decide)]
    exact hw
  have hothers : ∀ op ∈ secondWord 0, op.actor ≠ some 1 := by simp [secondWord, MemoryOp.actor]
  exact ⟨s, t, u, hs, ht, hu,
    (memoryRun_private bootMemory_boot hops hrun (secondWord_along 0 t) hothers hu _ _ hwt).2, hw'⟩

/-- **A fork takes a snapshot.** From any state that a run reaches, the child reads what the parent had of its own at the
fork, as long as it makes no step, whatever the parent and the others have done since. -/
theorem fork_snapshot (h : b.Boot)
    (hops : Run.Along MemoryOp.step (fun s op => op.Legal s ∧ op.Careful s) b ops)
    (hrun : Run.exec MemoryOp.step b ops = some s) (hfork : s.taskFork pid = some (child, t))
    (hops' : Run.Along MemoryOp.step (fun s op => op.Legal s ∧ op.Careful s) t ops')
    (hothers : ∀ op ∈ ops', op.actor ≠ some child) (hrun' : Run.exec MemoryOp.step t ops' = some u) :
    ∀ vaddr word, s.space pid vaddr = some word → u.load child vaddr = some word := by
  intro vaddr word hw
  obtain ⟨hs, hcow, -⟩ := Memory.Sound.run_space ops b s h.sound h.cow hops hrun
  obtain ⟨ht, hforked⟩ := hs.taskFork hfork
  obtain ⟨-, -, hruns⟩ := Memory.Sound.run_space ops' t u ht (hcow.fork hforked ht.exact) hops' hrun'
  refine Memory.load_of_space (hruns.keep hothers ?_)
  rw [(hs.taskFork_space hfork).2, Function.update_self]
  exact hw

/-- The parent writes, and the child reads the old word. -/
theorem fork_snapshot_word : ∃ s t u, Run.exec MemoryOp.step bootMemory firstWord = some s ∧
    s.taskFork 1 = some (0, t) ∧ Run.exec MemoryOp.step t (secondWord 1) = some u ∧
    u.load 0 0x1002000 = some (entryInit 7) ∧ u.load 1 0x1002000 = some (entryInit 8) := by
  obtain ⟨s, t, u, hs, ht, hu, hw, hw'⟩ := forkStates_cases 1 (by decide +kernel)
  have hothers : ∀ op ∈ secondWord 1, op.actor ≠ some 0 := by simp [secondWord, MemoryOp.actor]
  exact ⟨s, t, u, hs, ht, hu,
    fork_snapshot bootMemory_boot firstWord_along hs ht (secondWord_along 1 t) hothers hu _ _ hw, hw'⟩

end Theorems

end Onixs
