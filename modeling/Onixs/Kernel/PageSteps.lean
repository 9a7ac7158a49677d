import Onixs.Kernel.Tasks

/-!
# System calls and faults on the page tables

`sys_brk`, `sys_mmap`, `sys_munmap`, `page_fault`, single `link_page` and `unlink_page`
calls, and the stores of user programs: each keeps `Onixs.Memory.Sound`, and each is
described by what it does to the entries. Four kinds of change occur: entries go
(`Onixs.Memory.Shrunk`), fresh pages come (`Onixs.Memory.Grown`), the flags of one entry
change, and an entry is moved to a fresh copy of its page.
-/

namespace Onixs

namespace Memory

/-- Entries only go. -/
def Shrunk (s t : Memory) : Prop := ∀ {r e}, t.entryAt r = some e → s.entryAt r = some e

theorem didx_user {vaddr : ℕ} (hlo : userExecAddr ≤ vaddr) (hhi : vaddr < 0xFFC00000) :
    4 ≤ didx vaddr ∧ didx vaddr < 1023 := by
  rw [userExecAddr_eq] at hlo
  rw [didx]
  omega

theorem tidx_lt (vaddr : ℕ) : tidx vaddr < 1024 := Nat.mod_lt _ (by omega)

/-- The place of a user address. -/
def placeOf (pid vaddr : ℕ) : Place := (pid, didx vaddr, some (tidx vaddr))

theorem page_idx {vaddr : ℕ} (h : vaddr < 4294967296) : page (idx vaddr) = vaddr / 4096 * 4096 := by
  rw [page, idx, u32_of_lt (by omega)]

theorem placeOf_page {pid vaddr : ℕ} (h : vaddr < 4294967296) :
    placeOf pid (page (idx vaddr)) = placeOf pid vaddr := by
  rw [page_idx h, placeOf, placeOf, didx, didx, tidx, tidx]
  congr 1
  refine Prod.ext ?_ (congrArg some ?_)
  · simp only
    omega
  · omega

/-! ### Tasks that keep their pages -/

section SetTask

variable {s : Memory} {pid : ℕ} {task : Task}

/-- A task may change its heap and its mapping area. -/
theorem Sound.setTask (h : s.Sound) (hrun : s.running pid = some task) (task' : Task)
    (hkp : task'.kpages = task.kpages) (hpde : task'.pde = task.pde) (hdied : task'.died = task.died)
    (hwf : task'.WF) :
    (s.setTask pid (some task')).Sound ∧ (s.setTask pid (some task')).entryAt = s.entryAt := by
  have hlive : task'.died = false ∧ task'.pde ≠ kernelPageDir := by
    rw [hdied, hpde]
    exact (running_eq_some.mp hrun).2
  have hpdes : ∀ pid', (s.setTask pid (some task')).pdeOf pid' = s.pdeOf pid' := by
    intro pid'
    rcases eq_or_ne pid' pid with rfl | hne
    · rw [pdeOf_of_running (running_setTask_self task' hlive), pdeOf_of_running hrun, hpde]
    · exact pdeOf_setTask_of_ne _ hne
  obtain ⟨hent, htab⟩ := h.exact.tables.of_loose hpdes fun _ => Or.inr rfl
  have htarget : (s.setTask pid (some task')).target = s.target := by
    funext r
    rw [target, target, hent]
  have hheld : (s.setTask pid (some task')).held = s.held := by
    funext a
    obtain ⟨pid', j⟩ := a
    rcases eq_or_ne pid' pid with rfl | hne
    · rw [held_eq (a := (pid', j)) (if_pos rfl), held_eq (a := (pid', j)) (running_eq_some.mp hrun).1, hkp]
    · exact held_setTask_of_ne _ hne
  refine ⟨⟨⟨?_, ?_⟩, ?_, fun {pid' v} hv => ?_⟩, hent⟩
  · rw [htarget]
    exact htab
  · rw [htarget]
    exact h.exact.counts.congr rfl rfl
  · rw [hheld]
    exact h.marked.congr rfl
  · rcases eq_or_ne pid' pid with rfl | hne
    · rw [running_setTask_self task' hlive] at hv
      exact Option.some.inj hv ▸ hwf
    · rw [running, tasks_setTask, if_neg hne] at hv
      exact h.wf hv

/-- A step that leaves the tasks alone keeps the invariant when it keeps the counters exact. -/
theorem Sound.of_sameTasks {t : Memory} (h : s.Sound) (hexact : t.Exact) (hsame : SameTasks s t) :
    t.Sound := by
  have hheld : t.held = s.held := by
    funext a
    rw [held, held, hsame.tasks]
  refine ⟨hexact, ?_, fun {pid task} hrun => ?_⟩
  · rw [hheld]
    exact h.marked.congr hsame.kernelMap
  · have hrun' : s.running pid = some task := by rwa [running, ← hsame.tasks]
    exact h.wf hrun'

theorem SameTasks.running {t : Memory} (h : SameTasks s t) (pid : ℕ) :
    t.running pid = s.running pid := by
  rw [Memory.running, Memory.running, h.tasks]

end SetTask

/-! ### Stores of one entry -/

section Entry

variable {s : Memory} {pid pde d i : ℕ} {e : PageEntry}

/-- **The flags of an entry change.** -/
theorem Exact.setFlags (h : s.Exact) (hp : s.pdeOf pid = some pde) (hd : 4 ≤ d ∧ d < 1023)
    (he : s.entryAt (pid, d, some i) = some e) (e' : PageEntry) (hpres : e'.present = true) (hidx : e'.index = e.index) :
    (s.setWord (s.mem pde d).index i e').Exact ∧
      (s.setWord (s.mem pde d).index i e').entryAt
        = Function.update s.entryAt (pid, d, some i) (some e') := by
  obtain ⟨hr, pde', hp', hpresd, hi, -⟩ := entryAt_page.mp he
  obtain rfl := Option.some.inj (hp.symm.trans hp')
  have hlt := (page_mem_places.mp hr).2.2.2
  have hent := h.tables.entryAt_setWord hp hd hpresd hlt e'
  rw [PageEntry.get_of_present hpres] at hent
  have htarget : (s.setWord (s.mem pde d).index i e').target = s.target := by
    rw [target_update hent, Option.map_some, hidx]
    exact Function.update_eq_self_iff.mpr (target_eq_some.mpr ⟨e, he, rfl⟩).symm
  refine ⟨⟨?_, ?_⟩, hent⟩
  · rw [htarget]
    exact h.tables.setWord hp hd hpresd hlt fun _ => by rw [hidx]; exact h.tables.refs he
  · rw [htarget]
    exact h.counts.congr rfl rfl

/-- The references while an entry moves to a fresh page. -/
theorem Tables.move {T : Place → Option ℕ} (h : s.Tables T) (hp : s.pdeOf pid = some pde)
    (hd : 4 ≤ d ∧ d < 1023) (hpresd : (s.mem pde d).present = true) (hi : i < 1024) (e' : PageEntry)
    (hlo : 4096 ≤ e'.index) (hhi : e'.index < 1048576)
    (hfresh : ∀ r, T r ≠ some e'.index) :
    (s.setWord (s.mem pde d).index i e').Tables
      (Function.update T (pid, d, some i) (some e'.index)) := by
  obtain ⟨hent, -, hhigh⟩ := h.table_high hp hd hpresd
  -- first the entry goes, then the new one comes
  have hnone := h.entryAt_setWord hp hd hpresd hi zeroEntry
  have hzero := h.setWord hp hd hpresd hi (e := zeroEntry) fun hc => Bool.noConfusion hc
  obtain ⟨v, hv⟩ : ∃ v, v = s.setWord (s.mem pde d).index i zeroEntry := ⟨_, rfl⟩
  rw [← hv] at hnone hzero
  have hdir := (h.dir hp).2.2
  have hvd : v.mem pde = s.mem pde := by
    rw [hv]
    exact funext fun j => if_neg fun hc => by omega
  have hadd := hzero.add (page_mem_places.mpr ⟨(h.dir hp).1, hd.1, hd.2, hi⟩)
    (by rw [hnone, Function.update_self]; rfl) hlo hhi (fun _ _ => hfresh _) fun hc => absurd hc (by simp)
  have hpv : v.pdeOf pid = some pde := by rw [hv]; exact hp
  have hset := hadd.setWord hpv hd
    (by rw [hvd]; exact hpresd) hi (e := e') fun _ => Function.update_self _ _ _
  have htwice : v.setWord (s.mem pde d).index i e' = s.setWord (s.mem pde d).index i e' := by
    have hmem : (v.setWord (s.mem pde d).index i e').mem = (s.setWord (s.mem pde d).index i e').mem := by
      funext f j
      by_cases hc : f = (s.mem pde d).index ∧ j = i
      · exact (if_pos hc).trans (if_pos hc).symm
      · refine (if_neg hc).trans ((?_ : v.mem f j = s.mem f j).trans (if_neg hc).symm)
        rw [hv]
        exact if_neg hc
    calc v.setWord (s.mem pde d).index i e'
        = { s with mem := (v.setWord (s.mem pde d).index i e').mem } := by rw [hv]; rfl
      _ = s.setWord (s.mem pde d).index i e' := by rw [hmem]; rfl
  rw [hvd, htwice] at hset
  exact hset

end Entry

/-! ### Single pages -/

section Single

variable {s t : Memory} {pid vaddr : ℕ} {task : Task}

/-- Link one page. -/
theorem Sound.linkPage (h : s.Sound) (hrun : s.running pid = some task)
    (hd : 4 ≤ didx vaddr ∧ didx vaddr < 1023) (hlink : s.linkPage task.pde vaddr = some t) :
    t.Sound ∧ SameTasks s t ∧ Grown s t ∧ SameOthers s t pid ∧ ∃ e, t.entryAt (placeOf pid vaddr) = some e := by
  obtain ⟨hexact, hsame, hgrown, hothers, -, hsome⟩ := h.exact.linkPage (pdeOf_of_running hrun) hd hlink
  exact ⟨h.of_sameTasks hexact hsame, hsame, hgrown, hothers, Option.isSome_iff_exists.mp hsome⟩

/-- Unlink one page. -/
theorem Sound.unlinkPage (h : s.Sound) (hrun : s.running pid = some task)
    (hd : 4 ≤ didx vaddr ∧ didx vaddr < 1023) (hunlink : s.unlinkPage task.pde vaddr = some t) :
    t.Sound ∧ SameTasks s t ∧ Shrunk s t ∧ SameOthers s t pid := by
  obtain ⟨hexact, hsame, hothers, hshrunk⟩ := h.exact.unlinkPage (pdeOf_of_running hrun) hd hunlink
  exact ⟨h.of_sameTasks hexact hsame, hsame, hshrunk, hothers⟩

/-- Stores in pages of user memory change no entry. -/
theorem Sound.of_data (h : s.Sound) (htasks : t.tasks = s.tasks) (hmap : t.kernelMap = s.kernelMap)
    (hcount : t.memoryMap = s.memoryMap) (htotal : t.totalPages = s.totalPages) {f : ℕ}
    (hf : Loose s s.target f) (hmem : ∀ g, g ≠ f → t.mem g = s.mem g) :
    t.Sound ∧ t.entryAt = s.entryAt := by
  have hsame : SameTasks s t := ⟨htasks, hmap⟩
  obtain ⟨hent, htab⟩ := h.exact.tables.of_loose hsame.pdeOf fun g => by
    rcases eq_or_ne g f with rfl | hne
    · exact Or.inl hf
    · exact Or.inr (hmem g hne)
  have htarget : t.target = s.target := by
    funext r
    rw [target, target, hent]
  refine ⟨h.of_sameTasks ⟨?_, ?_⟩ hsame, hent⟩
  · rw [htarget]
    exact htab
  · rw [htarget]
    exact h.exact.counts.congr hcount htotal

/-- The frame the processor finds for a user address is that of the entry. -/
theorem entryAt_of_walk (h : s.Tables s.target) (hrun : s.running pid = some task) {f : ℕ}
    (hd : 4 ≤ didx vaddr ∧ didx vaddr < 1023) (hwalk : s.walk task.pde vaddr = some f) :
    ∃ e, s.entryAt (placeOf pid vaddr) = some e ∧ e.index = f ∧
      e = s.mem (s.mem task.pde (didx vaddr)).index (tidx vaddr) := by
  obtain ⟨hpresd, hpres, hidx⟩ := walk_eq_some.mp hwalk
  have hp := pdeOf_of_running hrun
  refine ⟨_, entryAt_page.mpr ⟨page_mem_places.mpr ⟨(h.dir hp).1, hd.1, hd.2, tidx_lt _⟩, _, hp, hpresd,
    rfl, hpres⟩, hidx, rfl⟩

/-- The entry the processor finds for a user address is the one at its place. -/
theorem entryAt_of_entryOf (h : s.Tables s.target) (hrun : s.running pid = some task) {e : PageEntry}
    (hd : 4 ≤ didx vaddr ∧ didx vaddr < 1023) (he : s.entryOf task.pde vaddr = some e) :
    s.entryAt (placeOf pid vaddr) = some e := by
  have hp := pdeOf_of_running hrun
  rw [entryOf] at he
  by_cases hpres : (s.mem task.pde (didx vaddr)).present = true ∧
      (s.mem (s.mem task.pde (didx vaddr)).index (tidx vaddr)).present = true
  · rw [if_pos hpres] at he
    exact entryAt_page.mpr ⟨page_mem_places.mpr ⟨(h.dir hp).1, hd.1, hd.2, tidx_lt _⟩, _, hp, hpres.1,
      Option.some.inj he, Option.some.inj he ▸ hpres.2⟩
  · rw [if_neg hpres] at he
    exact absurd he (by simp)

/-- **A store in user mode** changes a word of a page, and no entry. -/
theorem Sound.store (h : s.Sound) (hd : 4 ≤ didx vaddr ∧ didx vaddr < 1023) {word : PageEntry}
    (hstore : s.store pid vaddr word = some t) :
    t.Sound ∧ t.entryAt = s.entryAt ∧ ∃ e, s.entryAt (placeOf pid vaddr) = some e ∧ e.write = true ∧
      t = s.setWord e.index (vaddr % 4096 / 4) word := by
  rw [Memory.store] at hstore
  obtain ⟨task, hrun, hstore⟩ := Option.bind_eq_some_iff.mp hstore
  obtain ⟨e, he, hstore⟩ := Option.bind_eq_some_iff.mp hstore
  obtain ⟨_, hallow, hstore⟩ := Option.bind_eq_some_iff.mp hstore
  rw [assert_eq_some] at hallow
  obtain rfl := Option.some.inj hstore
  have hent := entryAt_of_entryOf h.exact.tables hrun hd he
  have hloose := h.exact.tables.loose_of_page (h.exact.tables.refs hent)
  obtain ⟨hsound, heq⟩ := h.of_data (t := s.setWord e.index (vaddr % 4096 / 4) word) rfl rfl rfl rfl
    hloose fun g hg => funext fun j => if_neg fun hc => hg hc.1
  exact ⟨hsound, heq, e, hent, hallow.2.2.2, rfl⟩

end Single

/-! ### Faults -/

section Fault

variable {s t : Memory} {pid vaddr : ℕ} {present write : Bool}

/-- **`page_fault`** links a fresh page, or makes the page writable: the page itself when the
counter is one, and a copy of it otherwise. -/
theorem Sound.pageFault (h : s.Sound) (hlo : userExecAddr ≤ vaddr) (hhi : vaddr < userStackTop)
    (hfault : s.pageFault pid vaddr present write = some t) :
    t.Sound ∧ SameOthers s t pid ∧ (Grown s t ∨ ∃ e e', s.entryAt (placeOf pid vaddr) = some e ∧ e.shared = false ∧
      t.entryAt = Function.update s.entryAt (placeOf pid vaddr) (some e') ∧
      ((e' = { e with write := true } ∧ ∀ r, s.target r = some e.index → r = placeOf pid vaddr) ∨
        ∀ r, s.target r ≠ some e'.index)) := by
  rw [userStackTop_eq] at hhi
  have hd := didx_user hlo (by omega)
  have hvaddr : vaddr < 4294967296 := by omega
  have hpage : placeOf pid (page (idx vaddr)) = placeOf pid vaddr := placeOf_page hvaddr
  simp only [placeOf, Prod.mk.injEq, Option.some.injEq, true_and] at hpage
  rw [Memory.pageFault] at hfault
  obtain ⟨task, hrun, hfault⟩ := Option.bind_eq_some_iff.mp hfault
  have hp := pdeOf_of_running hrun
  cases present with
  | false =>
    simp only [Bool.false_eq_true, reduceIte] at hfault
    obtain ⟨_, -, hlink⟩ := Option.bind_eq_some_iff.mp hfault
    obtain ⟨hsound, -, hgrown, hothers, -⟩ := h.linkPage hrun (by rw [hpage.1]; exact hd) hlink
    exact ⟨hsound, hothers, Or.inl hgrown⟩
  | true =>
    simp only [reduceIte] at hfault
    obtain ⟨_, -, hfault⟩ := Option.bind_eq_some_iff.mp hfault
    obtain ⟨⟨table, u⟩, hget, hfault⟩ := Option.bind_eq_some_iff.mp hfault
    obtain ⟨rfl, hpresd, rfl⟩ := h.exact.tables.getPte_false hp (by omega) hget
    obtain ⟨_, hpres, hfault⟩ := Option.bind_eq_some_iff.mp hfault
    obtain ⟨_, hshared, hfault⟩ := Option.bind_eq_some_iff.mp hfault
    obtain ⟨_, -, hfault⟩ := Option.bind_eq_some_iff.mp hfault
    obtain ⟨_, hpos, hfault⟩ := Option.bind_eq_some_iff.mp hfault
    rw [assert_eq_some] at hpres hshared hpos
    obtain ⟨e, he⟩ : ∃ e, e = u.mem (u.mem task.pde (didx vaddr)).index (tidx vaddr) := ⟨_, rfl⟩
    rw [← he] at hpres hshared hpos
    have hr : placeOf pid vaddr ∈ places :=
      page_mem_places.mpr ⟨(h.exact.tables.dir hp).1, hd.1, hd.2, tidx_lt _⟩
    have hent : u.entryAt (placeOf pid vaddr) = some e :=
      entryAt_page.mpr ⟨hr, _, hp, hpresd, he.symm, hpres⟩
    have hT := h.exact.tables.refs hent
    obtain ⟨-, hhigh, -⟩ := h.exact.tables.high hT
    rw [← he] at hfault
    by_cases hone : u.memoryMap e.index = 1
    · rw [if_pos hone] at hfault
      obtain rfl := Option.some.inj hfault
      obtain ⟨hexact, hupd⟩ := h.exact.setFlags hp hd hent { e with write := true } hpres rfl
      refine ⟨h.of_sameTasks hexact ⟨rfl, rfl⟩, (SameBut.of_update hupd).others, Or.inr ⟨e, _, hent, by simpa using hshared, hupd,
        Or.inl ⟨rfl, fun r hr' => ?_⟩⟩⟩
      rw [h.exact.counts.count _ hhigh] at hone
      exact eq_of_refCount_le_one hone.le hr hT (h.exact.tables.high hr').1 hr'
    · rw [if_neg hone] at hfault
      obtain ⟨⟨paddr, v⟩, hcopy, hfault⟩ := Option.bind_eq_some_iff.mp hfault
      have hwalk : u.walk task.pde (page (idx vaddr)) = some e.index := by
        rw [walk_eq_some, hpage.1, hpage.2, ← he]
        exact ⟨hpresd, hpres, rfl⟩
      obtain ⟨-, -, hdhigh⟩ := h.exact.tables.table_high hp hd hpresd
      obtain ⟨hplo, hphi, hfresh, hentv, htabv, ⟨hzero, hmap, htotal⟩, hsamev, hmem⟩ :=
        h.exact.tables.copyPage hp h.exact.counts hwalk (by rw [hpage.1]; omega) (by omega) hcopy
      have hpv : v.pdeOf pid = some task.pde := by rw [hsamev.pdeOf]; exact hp
      have hdir := (h.exact.tables.dir hp).2
      have hvd : v.mem task.pde = u.mem task.pde := by
        rw [hmem _ (by omega), if_neg (by omega)]
      have hnp : (u.mem task.pde (didx vaddr)).index ≠ paddr := fun heq => by
        obtain ⟨hentd, hTd, -⟩ := h.exact.tables.table_high hp hd hpresd
        exact hfresh _ (heq ▸ hTd)
      have hvt : v.mem (u.mem task.pde (didx vaddr)).index = u.mem (u.mem task.pde (didx vaddr)).index := by
        rw [hmem _ (by omega), if_neg hnp]
      rw [hvt, ← he] at hfault
      have hidx := entryInit_index hphi
      have hne : paddr ≠ e.index := by
        rintro rfl
        exact hfresh _ hT
      obtain ⟨w, hw⟩ : ∃ w, w = v.setCount e.index (v.memoryMap e.index - 1) := ⟨_, rfl⟩
      rw [← hw] at hfault
      have honly : OnlyCounts v w := by rw [hw]; exact onlyCounts_setCount _ _ _
      obtain rfl := Option.some.inj hfault
      -- the counter of the old page goes down, that of the new one up
      have hcounts : w.Counts (Function.update u.target (placeOf pid vaddr) (some paddr)) := by
        have hempty := h.exact.counts.empty hr hT hhigh
        have htaken := hempty.taken (t := w) (p := paddr) hr (Function.update_self _ _ _) hplo
          ((if_neg hne).trans hzero) ?_ (by rw [hw]; exact htotal)
        · rwa [Function.update_idem] at htaken
        · rw [hw]
          funext q
          change (if q = e.index then v.memoryMap e.index - 1 else v.memoryMap q) = if q = paddr then 1
            else if q = e.index then u.memoryMap e.index - 1 else u.memoryMap q
          have hmapq : ∀ q, v.memoryMap q = if q = paddr then 1 else u.memoryMap q := fun q => by
            rw [hmap]
            rfl
          rw [hmapq, hmapq, if_neg (Ne.symm hne)]
          rcases eq_or_ne q e.index with rfl | hq
          · rw [if_pos rfl, if_pos rfl, if_neg (Ne.symm hne)]
          · rw [if_neg hq, if_neg hq]
      have htabw := honly.tables htabv
      have hpw : w.pdeOf pid = some task.pde := by rw [honly.pdeOf]; exact hpv
      have hmemw : w.mem task.pde = u.mem task.pde := by rw [honly.mem, hvd]
      have hpresw : (w.mem task.pde (didx vaddr)).present = true := by rw [hmemw]; exact hpresd
      have hentw := htabw.entryAt_setWord hpw hd hpresw (tidx_lt vaddr) (entryInit paddr)
      have hmove := htabw.move hpw hd hpresw (tidx_lt vaddr) (entryInit paddr) (by rw [hidx]; exact hplo)
        (by rw [hidx]; exact hphi) (by rw [hidx]; exact hfresh)
      rw [hmemw, honly.entryAt, hentv, PageEntry.get_of_present (entryInit_present paddr)] at hentw
      rw [hmemw, hidx] at hmove
      have htarget := target_update hentw
      rw [Option.map_some, hidx] at htarget
      refine ⟨h.of_sameTasks ⟨?_, ?_⟩ ⟨honly.tasks.trans hsamev.tasks, honly.kernelMap.trans
        hsamev.kernelMap⟩, (SameBut.of_update hentw).others, Or.inr ⟨e, _, hent, by simpa using hshared, hentw, Or.inr ?_⟩⟩
      · rw [htarget]
        exact hmove
      · rw [htarget]
        exact hcounts.congr rfl rfl
      · rw [hidx]
        exact hfresh

end Fault

/-! ### System calls -/

section Loops

variable {pid : ℕ} {task : Task}

theorem Shrunk.refl (s : Memory) : Shrunk s s := fun he => he

theorem Shrunk.trans {s t u : Memory} (h : Shrunk s t) (h' : Shrunk t u) : Shrunk s u :=
  fun he => h (h' he)

/-- The loop of `sys_brk`. -/
theorem Sound.unlinkPages :
    ∀ (left page : ℕ) (s t : Memory), s.Sound → s.running pid = some task → userExecAddr ≤ page →
      page + left * 4096 < userMmapAddr + 4096 → unlinkPages task.pde left page s = some t →
      t.Sound ∧ SameTasks s t ∧ Shrunk s t ∧ SameOthers s t pid := by
  intro left
  induction left with
  | zero =>
    intro page s t h _ _ _ hloop
    obtain rfl := Option.some.inj hloop
    exact ⟨h, SameTasks.refl s, Shrunk.refl s, .of_eq rfl⟩
  | succ left ih =>
    intro page s t h hrun hlo hhi hloop
    rw [Memory.unlinkPages] at hloop
    obtain ⟨u, hunlink, hloop⟩ := Option.bind_eq_some_iff.mp hloop
    rw [userMmapAddr_eq] at hhi
    obtain ⟨hu, hsame, hshrunk, hothers⟩ := h.unlinkPage hrun (didx_user hlo (by omega)) hunlink
    obtain ⟨ht, hsame', hshrunk', hothers'⟩ := ih (page + pageSize) u t hu (by rw [hsame.running]; exact hrun)
      (by rw [pageSize_eq]; omega) (by rw [pageSize_eq, userMmapAddr_eq]; omega) hloop
    exact ⟨ht, hsame.trans hsame', hshrunk.trans hshrunk', hothers.trans hothers'⟩

/-- A page with a bit in `vmap` is a page of the mapping area. -/
theorem didx_vmap {page len : ℕ} (hoff : 32768 ≤ idx page) (hlt : (idx page - 32768) / 8 < len)
    (hlen : len ≤ 4096) : userMmapAddr ≤ page ∧ page < userStackTop ∧ 4 ≤ didx page ∧ didx page < 1023 := by
  rw [idx] at hoff hlt
  rw [userMmapAddr_eq, userStackTop_eq, didx]
  omega

/-- The loop of `sys_munmap`. -/
theorem Sound.unmapPages :
    ∀ (left page : ℕ) (s t : Memory) (vmap vmap' : Bitmap), s.Sound → s.running pid = some task →
      vmap.offset = 32768 → vmap.size ≤ 4096 → unmapPages task.pde left page s vmap = some (t, vmap') →
      t.Sound ∧ SameTasks s t ∧ (Shrunk s t ∧ SameOthers s t pid) ∧ vmap'.offset = 32768 ∧ vmap'.size ≤ 4096 := by
  intro left
  induction left with
  | zero =>
    intro page s t vmap vmap' h _ hoff hsize hloop
    obtain ⟨rfl, rfl⟩ := Prod.mk.inj (Option.some.inj hloop)
    exact ⟨h, SameTasks.refl s, ⟨Shrunk.refl s, .of_eq rfl⟩, hoff, hsize⟩
  | succ left ih =>
    intro page s t vmap vmap' h hrun hoff hsize hloop
    rw [Memory.unmapPages] at hloop
    obtain ⟨u, hunlink, hloop⟩ := Option.bind_eq_some_iff.mp hloop
    obtain ⟨used, -, hloop⟩ := Option.bind_eq_some_iff.mp hloop
    obtain ⟨_, -, hloop⟩ := Option.bind_eq_some_iff.mp hloop
    obtain ⟨map, hset, hloop⟩ := Option.bind_eq_some_iff.mp hloop
    obtain ⟨hlo, hlt, hmap⟩ := bitmapSet_eq_some hset
    rw [hoff] at hlo hlt
    obtain ⟨-, -, hd⟩ := didx_vmap hlo hlt hsize
    obtain ⟨hu, hsame, hshrunk, hothers⟩ := h.unlinkPage hrun hd hunlink
    obtain ⟨ht, hsame', ⟨hshrunk', hothers'⟩, hwf⟩ := ih _ u t map vmap' hu (by rw [hsame.running]; exact hrun)
      (by rw [hmap]; exact hoff) (by rw [hmap]; exact hsize) hloop
    exact ⟨ht, hsame.trans hsame', ⟨hshrunk.trans hshrunk', hothers.trans hothers'⟩, hwf⟩

/-- **One page of `sys_mmap`**: a page is linked and its flags are set. -/
theorem Sound.mapPage {s u v : Memory} {page table prot flags : ℕ} (h : s.Sound)
    (hrun : s.running pid = some task) (hd : 4 ≤ didx page ∧ didx page < 1023)
    (hlink : s.linkPage task.pde page = some u) (hget : u.getEntry task.pde page false = some (table, v)) :
    v = u ∧ Grown s u ∧ SameTasks s u ∧ SameOthers s u pid ∧
      (u.setWord table (tidx page) (mmapEntry prot flags (u.mem table (tidx page)))).Sound ∧
      ∃ e, u.entryAt (placeOf pid page) = some e ∧
        (u.setWord table (tidx page) (mmapEntry prot flags (u.mem table (tidx page)))).entryAt
          = Function.update u.entryAt (placeOf pid page) (some (mmapEntry prot flags e)) := by
  obtain ⟨hu, hsame, hgrown, hothers, e, he⟩ := h.linkPage hrun hd hlink
  have hp : u.pdeOf pid = some task.pde := by rw [hsame.pdeOf]; exact pdeOf_of_running hrun
  obtain ⟨rfl, -, rfl⟩ := hu.exact.tables.getPte_false hp (by omega) hget
  obtain ⟨-, pde', hp', -, hword, hpres⟩ := entryAt_page.mp he
  obtain rfl := Option.some.inj (hp.symm.trans hp')
  rw [hword]
  obtain ⟨hexact, hupd⟩ := hu.exact.setFlags hp hd he (mmapEntry prot flags e) hpres rfl
  exact ⟨rfl, hgrown, hsame, hothers, hu.of_sameTasks hexact ⟨rfl, rfl⟩, e, he, hupd⟩

/-- The loop of `sys_mmap`. -/
theorem Sound.mapPages {prot flags : ℕ} :
    ∀ (left page : ℕ) (s t : Memory) (vmap vmap' : Bitmap), s.Sound → s.running pid = some task →
      vmap.offset = 32768 → vmap.size ≤ 4096 →
      mapPages task.pde prot flags left page s vmap = some (t, vmap') →
      t.Sound ∧ SameTasks s t ∧ SameOthers s t pid ∧ vmap'.offset = 32768 ∧ vmap'.size ≤ 4096 ∧
        ∀ i < left, userMmapAddr ≤ page + i * 4096 ∧ page + i * 4096 < userStackTop := by
  intro left
  induction left with
  | zero =>
    intro page s t vmap vmap' h _ hoff hsize hloop
    obtain ⟨rfl, rfl⟩ := Prod.mk.inj (Option.some.inj hloop)
    exact ⟨h, SameTasks.refl s, .of_eq rfl, hoff, hsize, fun i hi => absurd hi (Nat.not_lt_zero i)⟩
  | succ left ih =>
    intro page s t vmap vmap' h hrun hoff hsize hloop
    rw [Memory.mapPages] at hloop
    obtain ⟨u, hlink, hloop⟩ := Option.bind_eq_some_iff.mp hloop
    obtain ⟨map, hset, hloop⟩ := Option.bind_eq_some_iff.mp hloop
    obtain ⟨⟨table, v⟩, hget, htail⟩ := Option.bind_eq_some_iff.mp hloop
    obtain ⟨hlo, hlt, hmap⟩ := bitmapSet_eq_some hset
    rw [hoff] at hlo hlt
    obtain ⟨hmlo, hmhi, hd⟩ := didx_vmap hlo hlt hsize
    obtain ⟨hvu, -, hsame, hothers, hsound, e, -, hent⟩ := Sound.mapPage h hrun hd hlink hget
    rw [hvu] at htail
    have hnext : u32 (page + pageSize) = page + 4096 := by
      rw [userStackTop_eq] at hmhi
      rw [pageSize_eq, u32_of_lt (by omega)]
    have hsame₁ : SameTasks s (u.setWord table (tidx page)
        (mmapEntry prot flags (u.mem table (tidx page)))) := hsame.trans ⟨rfl, rfl⟩
    simp only [hnext] at htail
    obtain ⟨ht, hsame', hothers', hoff', hsize', hrange⟩ := ih (page + 4096) _ t map vmap' hsound
      (by rw [hsame₁.running]; exact hrun) (by rw [hmap]; exact hoff) (by rw [hmap]; exact hsize) htail
    refine ⟨ht, hsame₁.trans hsame', (hothers.trans (SameBut.of_update hent).others).trans hothers', hoff', hsize', fun i hi => ?_⟩
    cases i with
    | zero => exact ⟨by omega, by omega⟩
    | succ i =>
      have := hrange i (by omega)
      omega

/-- The stores of `read` in mapped pages change no entry. -/
theorem Sound.readPages {words : ℕ → ℕ → Option PageEntry} :
    ∀ (left page : ℕ) (s t : Memory), s.Sound → s.running pid = some task →
      (∀ i < left, userMmapAddr ≤ page + i * 4096 ∧ page + i * 4096 < userStackTop) →
      readPages task.pde words left page s = some t →
      t.Sound ∧ SameTasks s t ∧ t.entryAt = s.entryAt := by
  intro left
  induction left with
  | zero =>
    intro page s t h _ _ hloop
    obtain rfl := Option.some.inj hloop
    exact ⟨h, SameTasks.refl s, rfl⟩
  | succ left ih =>
    intro page s t h hrun hrange hloop
    obtain ⟨hlo, hhi⟩ := hrange 0 (Nat.succ_pos left)
    rw [userMmapAddr_eq] at hlo
    rw [userStackTop_eq] at hhi
    have hd : 4 ≤ didx page ∧ didx page < 1023 := by
      rw [didx]
      omega
    rw [Memory.readPages] at hloop
    obtain ⟨f, hwalk, hloop⟩ := Option.bind_eq_some_iff.mp hloop
    obtain ⟨e, he, rfl, -⟩ := entryAt_of_walk h.exact.tables hrun hd hwalk
    obtain ⟨u, hu⟩ : ∃ u, u = s.setFrame e.index
      fun j => (words (idx page) j).getD (s.mem e.index j) := ⟨_, rfl⟩
    obtain ⟨hsound, hent⟩ := h.of_data (t := u) (by rw [hu]; rfl) (by rw [hu]; rfl) (by rw [hu]; rfl)
      (by rw [hu]; rfl) (h.exact.tables.loose_of_page (h.exact.tables.refs he)) fun g hg => by
        rw [hu]
        exact if_neg hg
    have hsame : SameTasks s u := ⟨by rw [hu]; rfl, by rw [hu]; rfl⟩
    have hnext : u32 (page + pageSize) = page + 4096 := by
      rw [pageSize_eq, u32_of_lt (by omega)]
    rw [← hu, hnext] at hloop
    obtain ⟨ht, hsame', hent'⟩ := ih (page + 4096) u t hsound (by rw [hsame.running]; exact hrun)
      (fun i hi => by
        have := hrange (i + 1) (by omega)
        omega) hloop
    exact ⟨ht, hsame.trans hsame', hent'.trans hent⟩

end Loops

section Calls

variable {s t : Memory} {pid addr length : ℕ}

/-- **`sys_brk`** takes entries away at most. -/
theorem Sound.sysBrk {brk : ℕ} {ok : Bool} (h : s.Sound) (hcall : s.sysBrk pid brk = some (ok, t)) :
    t.Sound ∧ Shrunk s t ∧ SameOthers s t pid := by
  rw [Memory.sysBrk] at hcall
  obtain ⟨_, -, hcall⟩ := Option.bind_eq_some_iff.mp hcall
  obtain ⟨task, hrun, hcall⟩ := Option.bind_eq_some_iff.mp hcall
  obtain ⟨_, -, hcall⟩ := Option.bind_eq_some_iff.mp hcall
  obtain ⟨_, hrange, hcall⟩ := Option.bind_eq_some_iff.mp hcall
  rw [assert_eq_some] at hrange
  have hwf := h.wf hrun
  have hlo := hwf.endAddr
  have hold := hwf.brk
  have hwf' : Task.WF { task with brk := brk } := ⟨hlo, hrange.2, hwf.offset, hwf.size⟩
  by_cases hlt : brk < task.brk
  · rw [if_pos hlt] at hcall
    obtain ⟨u, hloop, hcall⟩ := Option.bind_eq_some_iff.mp hcall
    obtain ⟨-, rfl⟩ := Prod.mk.inj (Option.some.inj hcall)
    rw [userMmapAddr_eq] at hold
    have hcount : divRoundUp (task.brk - brk) pageSize = (task.brk - brk + 4095) / 4096 := by
      rw [pageSize_eq, divRoundUp_eq (by omega) (by omega)]
    obtain ⟨hu, hsame, hshrunk, hothers⟩ := Sound.unlinkPages _ brk s u h hrun (by omega)
      (by rw [hcount, userMmapAddr_eq]; omega) hloop
    have hrun' : u.running pid = some task := by rw [hsame.running]; exact hrun
    obtain ⟨hsound, hent⟩ := hu.setTask hrun' { task with brk := brk } rfl rfl rfl hwf'
    exact ⟨hsound, fun he => hshrunk (by rw [← hent]; exact he), hothers.trans (.of_eq hent)⟩
  · rw [if_neg hlt] at hcall
    by_cases hfree : s.freePages < idx (brk - task.brk)
    · rw [if_pos hfree] at hcall
      obtain ⟨-, rfl⟩ := Prod.mk.inj (Option.some.inj hcall)
      exact ⟨h, Shrunk.refl s, .of_eq rfl⟩
    · rw [if_neg hfree] at hcall
      obtain ⟨-, rfl⟩ := Prod.mk.inj (Option.some.inj hcall)
      obtain ⟨hsound, hent⟩ := h.setTask hrun { task with brk := brk } rfl rfl rfl hwf'
      exact ⟨hsound, fun he => by rw [← hent]; exact he, .of_eq hent⟩

/-- **`sys_munmap`** takes entries away. -/
theorem Sound.sysMunmap (h : s.Sound) (hcall : s.sysMunmap pid addr length = some t) :
    t.Sound ∧ Shrunk s t ∧ SameOthers s t pid := by
  rw [Memory.sysMunmap] at hcall
  obtain ⟨task, hrun, hcall⟩ := Option.bind_eq_some_iff.mp hcall
  obtain ⟨_, -, hcall⟩ := Option.bind_eq_some_iff.mp hcall
  obtain ⟨_, -, hcall⟩ := Option.bind_eq_some_iff.mp hcall
  obtain ⟨⟨u, vmap⟩, hloop, hcall⟩ := Option.bind_eq_some_iff.mp hcall
  obtain rfl := Option.some.inj hcall
  have hwf := h.wf hrun
  obtain ⟨hu, hsame, ⟨hshrunk, hothers⟩, hoff, hsize⟩ :=
    Sound.unmapPages _ addr s u task.vmap vmap h hrun hwf.offset hwf.size hloop
  have hrun' : u.running pid = some task := by rw [hsame.running]; exact hrun
  obtain ⟨hsound, hent⟩ := hu.setTask hrun' { task with vmap := vmap } rfl rfl rfl
    ⟨hwf.endAddr, hwf.brk, hoff, hsize⟩
  exact ⟨hsound, fun he => hshrunk (by rw [← hent]; exact he), hothers.trans (.of_eq hent)⟩

/-- The room `sys_mmap` finds does not change where `vmap` lies. -/
theorem mmapAddr_wf {vmap vmap' : Bitmap} {count vaddr : ℕ}
    (haddr : mmapAddr vmap addr count = some (vaddr, vmap')) :
    vmap'.offset = vmap.offset ∧ vmap'.size = vmap.size := by
  rw [mmapAddr] at haddr
  split at haddr
  · obtain ⟨⟨index, map⟩, hscan, heq⟩ := Option.map_eq_some_iff.mp haddr
    obtain ⟨-, rfl⟩ := Prod.mk.inj heq
    rw [scanPage] at hscan
    obtain ⟨_, -, hscan⟩ := Option.bind_eq_some_iff.mp hscan
    obtain ⟨⟨index', map'⟩, hbitmap, hscan⟩ := Option.bind_eq_some_iff.mp hscan
    obtain ⟨_, -, hscan⟩ := Option.bind_eq_some_iff.mp hscan
    obtain ⟨-, rfl⟩ := Prod.mk.inj (Option.some.inj hscan)
    exact bitmapScan_same hbitmap
  · obtain ⟨-, rfl⟩ := Prod.mk.inj (Option.some.inj haddr)
    exact ⟨rfl, rfl⟩

/-- The steps of `sys_mmap`. -/
theorem sysMmap_cases {vaddr prot flags : ℕ} {file : Option (ℕ → ℕ → Option PageEntry)}
    (hcall : s.sysMmap pid addr length prot flags file = some (vaddr, t)) :
    ∃ task vmap vmap' u, s.running pid = some task ∧
      mmapAddr task.vmap addr (divRoundUp length pageSize) = some (vaddr, vmap) ∧
      mapPages task.pde prot flags (divRoundUp length pageSize) vaddr s vmap = some (u, vmap') ∧
      ((file = none ∧ t = u.setTask pid (some { task with vmap := vmap' })) ∨ ∃ words,
        file = some words ∧ readPages task.pde words (divRoundUp length pageSize) vaddr
          (u.setTask pid (some { task with vmap := vmap' })) = some t) := by
  rw [Memory.sysMmap] at hcall
  obtain ⟨_, -, hcall⟩ := Option.bind_eq_some_iff.mp hcall
  obtain ⟨task, hrun, hcall⟩ := Option.bind_eq_some_iff.mp hcall
  obtain ⟨⟨vaddr', vmap⟩, haddr, hcall⟩ := Option.bind_eq_some_iff.mp hcall
  obtain ⟨_, -, hcall⟩ := Option.bind_eq_some_iff.mp hcall
  obtain ⟨⟨u, vmap'⟩, hloop, hcall⟩ := Option.bind_eq_some_iff.mp hcall
  cases file with
  | none =>
    obtain ⟨rfl, rfl⟩ := Prod.mk.inj (Option.some.inj hcall)
    exact ⟨task, vmap, vmap', u, hrun, haddr, hloop, Or.inl ⟨rfl, rfl⟩⟩
  | some words =>
    obtain ⟨t', hread, hcall⟩ := Option.bind_eq_some_iff.mp hcall
    obtain ⟨rfl, rfl⟩ := Prod.mk.inj (Option.some.inj hcall)
    exact ⟨task, vmap, vmap', u, hrun, haddr, hloop, Or.inr ⟨words, rfl, hread⟩⟩

/-- **`sys_mmap`** does what its loop does to the entries. -/
theorem Sound.sysMmap {vaddr prot flags : ℕ} {file : Option (ℕ → ℕ → Option PageEntry)} (h : s.Sound)
    (hcall : s.sysMmap pid addr length prot flags file = some (vaddr, t)) :
    t.Sound ∧ SameOthers s t pid ∧ ∃ task vmap vmap' u, s.running pid = some task ∧
      mmapAddr task.vmap addr (divRoundUp length pageSize) = some (vaddr, vmap) ∧
      vmap.offset = 32768 ∧ vmap.size ≤ 4096 ∧
      Memory.mapPages task.pde prot flags (divRoundUp length pageSize) vaddr s vmap = some (u, vmap') ∧
      t.entryAt = u.entryAt := by
  obtain ⟨task, vmap, vmap', u, hrun, haddr, hloop, hend⟩ := sysMmap_cases hcall
  have hwf := h.wf hrun
  obtain ⟨hoff, hsize⟩ := mmapAddr_wf haddr
  rw [hwf.offset] at hoff
  have hsize' : vmap.size ≤ 4096 := hsize.trans_le hwf.size
  obtain ⟨hu, hsame, hothers, hoff', hsize'', hrange⟩ := Sound.mapPages _ vaddr s u vmap vmap' h hrun hoff hsize' hloop
  have hrunu : u.running pid = some task := by rw [hsame.running]; exact hrun
  obtain ⟨hset, hent⟩ := hu.setTask hrunu { task with vmap := vmap' } rfl rfl rfl
    ⟨hwf.endAddr, hwf.brk, hoff', hsize''⟩
  have hgoal : t.Sound ∧ t.entryAt = u.entryAt := by
    rcases hend with ⟨-, rfl⟩ | ⟨words, -, hread⟩
    · exact ⟨hset, hent⟩
    · have hrun' := running_setTask_self (s := u) (c := pid) { task with vmap := vmap' }
        (running_eq_some.mp hrun).2
      obtain ⟨ht, -, hent'⟩ := Sound.readPages _ vaddr _ t hset hrun' hrange hread
      exact ⟨ht, hent'.trans hent⟩
  exact ⟨hgoal.1, hothers.trans (.of_eq hgoal.2), task, vmap, vmap', u, hrun, haddr, hoff, hsize', hloop, hgoal.2⟩

end Calls

end Memory

end Onixs
