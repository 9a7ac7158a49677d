import Onixs.Kernel.PageTables

/-!
# Every page is counted

`memory_map` against the references of the page tables. `Onixs.Memory.Counts` says that
the counter of a user page is the number of places that refer to it, for the ghost
references `T` of `Onixs.Memory.Tables`; the kernel's own pages have the counter 1 that
`mapping_init` gives them and never lose it, so that `get_page` never hands one out.

The functions that change a counter are `get_page`, `put_page`, the increment of
`copy_pde` and the decrement of `page_fault`. Each fills or empties one place of `T`.
Around them `get_pte`, `link_page`, `unlink_page` and `copy_page` are specified by what they
do to the entries and to `T`.
-/

namespace Onixs

namespace Memory

/-- **The counters are exact**, for the references `T`. -/
structure Counts (s : Memory) (T : Place → Option ℕ) : Prop where
  /-- The counter of a user page. -/
  count : ∀ p, 4096 ≤ p → s.memoryMap p = refCount places T p
  /-- The counter of a kernel page. -/
  low : ∀ p < 4096, s.memoryMap p = 1
  /-- No counter is about to wrap. -/
  fits : ∀ p, s.memoryMap p < 255
  /-- Page numbers fit the field of an entry. -/
  total : s.totalPages ≤ 1048576

/-- Nothing changes but the counters. -/
structure OnlyCounts (s t : Memory) : Prop where
  /-- Memory. -/
  mem : t.mem = s.mem
  /-- The tasks. -/
  tasks : t.tasks = s.tasks
  /-- The kernel's bitmap. -/
  kernelMap : t.kernelMap = s.kernelMap
  /-- The number of pages. -/
  totalPages : t.totalPages = s.totalPages

theorem OnlyCounts.refl (s : Memory) : OnlyCounts s s := ⟨rfl, rfl, rfl, rfl⟩

theorem OnlyCounts.trans {s t u : Memory} (h : OnlyCounts s t) (h' : OnlyCounts t u) :
    OnlyCounts s u :=
  ⟨h'.mem.trans h.mem, h'.tasks.trans h.tasks, h'.kernelMap.trans h.kernelMap,
    h'.totalPages.trans h.totalPages⟩

section Counters

variable {s t : Memory} {T : Place → Option ℕ} {r : Place} {p : ℕ}

theorem OnlyCounts.pdeOf (h : OnlyCounts s t) (pid : ℕ) : t.pdeOf pid = s.pdeOf pid := by
  rw [Memory.pdeOf, Memory.pdeOf, running, running, h.tasks]

theorem OnlyCounts.entryAt (h : OnlyCounts s t) : t.entryAt = s.entryAt :=
  entryAt_congr h.pdeOf (fun _ _ _ _ _ _ => by rw [h.mem]) fun _ _ _ _ => by rw [h.mem]

theorem OnlyCounts.tables (h : OnlyCounts s t) (ht : s.Tables T) : t.Tables T :=
  (ht.of_loose h.pdeOf fun _ => Or.inr (by rw [h.mem])).2

theorem OnlyCounts.walk (h : OnlyCounts s t) (cr3 vaddr : ℕ) : t.walk cr3 vaddr = s.walk cr3 vaddr := by
  rw [Memory.walk, Memory.walk, h.mem]

theorem onlyCounts_setCount (s : Memory) (i n : ℕ) : OnlyCounts s (s.setCount i n) :=
  ⟨rfl, rfl, rfl, rfl⟩

/-- `put_page` writes in the counters only. -/
theorem putPage_only (hput : s.putPage p = some t) : OnlyCounts s t := by
  rw [Memory.putPage] at hput
  obtain ⟨_, -, hput⟩ := Option.bind_eq_some_iff.mp hput
  obtain ⟨_, -, hput⟩ := Option.bind_eq_some_iff.mp hput
  obtain ⟨_, -, hput⟩ := Option.bind_eq_some_iff.mp hput
  rw [← Option.some.inj hput]
  split
  · exact ⟨rfl, rfl, rfl, rfl⟩
  · exact ⟨rfl, rfl, rfl, rfl⟩

variable (h : s.Counts T)

include h

/-- The counters depend on nothing else. -/
theorem Counts.congr (hmap : t.memoryMap = s.memoryMap) (htotal : t.totalPages = s.totalPages) :
    t.Counts T :=
  ⟨by rw [hmap]; exact h.count, by rw [hmap]; exact h.low, by rw [hmap]; exact h.fits,
    by rw [htotal]; exact h.total⟩

/-- A page that some place refers to has a positive counter. -/
theorem Counts.pos (hr : r ∈ places) (hT : T r = some p) (hp : 4096 ≤ p) : 0 < s.memoryMap p := by
  rw [h.count p hp]
  exact refCount_pos hr hT

/-- A counter moves up with a place that is filled. -/
theorem Counts.fill (hr : r ∈ places) (hT : T r = none) (hp : 4096 ≤ p)
    (hfit : s.memoryMap p + 1 < 255) :
    (s.setCount p (s.memoryMap p + 1)).Counts (Function.update T r (some p)) := by
  have hmap : ∀ q, (s.setCount p (s.memoryMap p + 1)).memoryMap q
      = s.memoryMap q + if q = p then 1 else 0 := by
    intro q
    by_cases hq : q = p
    · subst hq
      rw [if_pos rfl]
      exact if_pos rfl
    · rw [if_neg hq]
      exact if_neg hq
  refine ⟨fun q hq => ?_, fun q hq => ?_, fun q => ?_, h.total⟩
  · rw [hmap, refCount_update_some hr hT, h.count q hq]
  · rw [hmap, if_neg (by omega), h.low q hq]
  · rw [hmap]
    have := h.fits q
    split
    · next heq =>
      rw [heq]
      exact hfit
    · exact this

/-- A counter moves down with a place that is emptied. -/
theorem Counts.empty (hr : r ∈ places) (hT : T r = some p) (hp : 4096 ≤ p) :
    (s.setCount p (s.memoryMap p - 1)).Counts (Function.update T r none) := by
  have hpos := h.pos hr hT hp
  have hmap : ∀ q, s.memoryMap q
      = (s.setCount p (s.memoryMap p - 1)).memoryMap q + if q = p then 1 else 0 := by
    intro q
    by_cases hq : q = p
    · subst hq
      rw [if_pos rfl]
      exact (Nat.sub_add_cancel hpos).symm.trans (congrArg (· + 1) (if_pos rfl).symm)
    · rw [if_neg hq]
      exact (if_neg hq).symm
  refine ⟨fun q hq => ?_, fun q hq => ?_, fun q => ?_, h.total⟩
  · have h1 := hmap q
    rw [h.count q hq, refCount_update_none hr hT] at h1
    exact (Nat.add_right_cancel h1).symm
  · have h1 := hmap q
    rw [if_neg (by omega), h.low q hq] at h1
    exact h1.symm
  · have h1 := hmap q
    have h2 := h.fits q
    omega

/-- **`get_page` hands out a user page that nothing refers to.** -/
theorem Counts.getPage (hget : s.getPage = some (p, t)) :
    4096 ≤ p ∧ p < 1048576 ∧ s.memoryMap p = 0 ∧ (∀ r' ∈ places, T r' ≠ some p) ∧ OnlyCounts s t ∧
      t.memoryMap = (s.setCount p 1).memoryMap := by
  rw [Memory.getPage] at hget
  obtain ⟨i, hfind, hget⟩ := Option.bind_eq_some_iff.mp hget
  obtain ⟨rfl, rfl⟩ := Prod.mk.inj (Option.some.inj hget)
  have hzero : s.memoryMap i = 0 := by simpa using List.find?_some hfind
  have hmem := List.mem_of_find?_eq_some hfind
  rw [List.mem_range'_1] at hmem
  have hlo : 4096 ≤ i := by
    by_contra hlt
    have := h.low i (by omega)
    omega
  have htotal := h.total
  have hno : ∀ r' ∈ places, T r' ≠ some i := by
    have hcount := h.count i hlo
    rw [hzero] at hcount
    exact refCount_eq_zero.mp hcount.symm
  exact ⟨hlo, by omega, hzero, hno, ⟨rfl, rfl, rfl, rfl⟩, rfl⟩

/-- The place the page is for. -/
theorem Counts.taken (hr : r ∈ places) (hT : T r = none) (hp : 4096 ≤ p) (hzero : s.memoryMap p = 0)
    (hmap : t.memoryMap = (s.setCount p 1).memoryMap) (htotal : t.totalPages = s.totalPages) :
    t.Counts (Function.update T r (some p)) := by
  have hfill := h.fill (p := p) hr hT hp (by omega)
  rw [hzero] at hfill
  exact hfill.congr hmap htotal

/-- **`put_page` takes one reference away.** -/
theorem Counts.putPage (hr : r ∈ places) (hT : T r = some p) (hp : 4096 ≤ p)
    (hput : s.putPage p = some t) : OnlyCounts s t ∧ t.Counts (Function.update T r none) := by
  have honly := putPage_only hput
  rw [Memory.putPage] at hput
  obtain ⟨_, -, hput⟩ := Option.bind_eq_some_iff.mp hput
  obtain ⟨_, -, hput⟩ := Option.bind_eq_some_iff.mp hput
  obtain ⟨_, -, hput⟩ := Option.bind_eq_some_iff.mp hput
  refine ⟨honly, (h.empty hr hT hp).congr ?_ honly.totalPages⟩
  rw [← Option.some.inj hput]
  split
  · rfl
  · rfl

end Counters

/-! ### Exact references -/

/-- **Well built tables whose pages are all counted.** -/
structure Exact (s : Memory) : Prop where
  /-- The tables. -/
  tables : s.Tables s.target
  /-- The counters. -/
  counts : s.Counts s.target

/-- What a step on page tables leaves alone. -/
structure SameTasks (s t : Memory) : Prop where
  /-- The tasks. -/
  tasks : t.tasks = s.tasks
  /-- The kernel's bitmap. -/
  kernelMap : t.kernelMap = s.kernelMap

theorem SameTasks.refl (s : Memory) : SameTasks s s := ⟨rfl, rfl⟩

theorem SameTasks.trans {s t u : Memory} (h : SameTasks s t) (h' : SameTasks t u) :
    SameTasks s u :=
  ⟨h'.tasks.trans h.tasks, h'.kernelMap.trans h.kernelMap⟩

theorem SameTasks.pdeOf {s t : Memory} (h : SameTasks s t) (pid : ℕ) : t.pdeOf pid = s.pdeOf pid := by
  rw [Memory.pdeOf, Memory.pdeOf, running, running, h.tasks]

theorem OnlyCounts.sameTasks {s t : Memory} (h : OnlyCounts s t) : SameTasks s t :=
  ⟨h.tasks, h.kernelMap⟩

/-- **Only fresh pages were linked** from `s` to `t`: an entry is an old one, or the only one
to its page. -/
structure Grown (s t : Memory) : Prop where
  /-- The old entries. -/
  keep : ∀ {r e}, s.entryAt r = some e → t.entryAt r = some e
  /-- The new entries. -/
  fresh : ∀ {r e}, t.entryAt r = some e → s.entryAt r = some e ∨ ∀ r', t.target r' = some e.index → r' = r

theorem Grown.of_eq {s t : Memory} (h : t.entryAt = s.entryAt) : Grown s t :=
  ⟨fun he => by rw [h]; exact he, fun he => Or.inl (by rw [← h]; exact he)⟩

theorem Grown.trans {s t u : Memory} (h : Grown s t) (h' : Grown t u) : Grown s u := by
  refine ⟨fun he => h'.keep (h.keep he), fun {r e} he => ?_⟩
  rcases h'.fresh he with hold | hnew
  · rcases h.fresh hold with hold' | hnew'
    · exact Or.inl hold'
    · refine Or.inr fun r' hr' => ?_
      obtain ⟨e', he', hidx⟩ := target_eq_some.mp hr'
      rcases h'.fresh he' with hold'' | hnew''
      · exact hnew' r' (target_eq_some.mpr ⟨e', hold'', hidx⟩)
      · exact (hnew'' r (target_eq_some.mpr ⟨e, he, hidx.symm⟩)).symm
  · exact Or.inr hnew

theorem target_update {s t : Memory} {r : Place} {v : Option PageEntry}
    (h : t.entryAt = Function.update s.entryAt r v) :
    t.target = Function.update s.target r (v.map PageEntry.index) := by
  funext r'
  rw [target, h]
  by_cases heq : r' = r
  · rw [heq, Function.update_self, Function.update_self]
  · rw [Function.update_of_ne heq, Function.update_of_ne heq, target]

/-- The entries stay, all but one. -/
def SameBut (s t : Memory) (r₀ : Place) : Prop := ∀ r, r ≠ r₀ → t.entryAt r = s.entryAt r

/-- **The entries of the other tasks stay.** -/
def SameOthers (s t : Memory) (pid : ℕ) : Prop := ∀ r, r.1 ≠ pid → t.entryAt r = s.entryAt r

section SameOthers

variable {s t u : Memory} {pid : ℕ}

theorem SameOthers.of_eq (h : t.entryAt = s.entryAt) : SameOthers s t pid := fun r _ => congrFun h r

theorem SameOthers.trans (h : SameOthers s t pid) (h' : SameOthers t u pid) : SameOthers s u pid :=
  fun r hr => (h' r hr).trans (h r hr)

theorem SameBut.others {r₀ : Place} (h : SameBut s t r₀) : SameOthers s t r₀.1 :=
  fun r hr => h r fun heq => hr (congrArg Prod.fst heq)

theorem SameBut.of_update {r₀ : Place} {v : Option PageEntry} (h : t.entryAt = Function.update s.entryAt r₀ v) :
    SameBut s t r₀ :=
  fun r hr => by rw [h, Function.update_of_ne hr]

end SameOthers

/-- A place filled with an entry to a page that nothing else refers to. -/
theorem Grown.of_update {s t : Memory} {r : Place} {e : PageEntry}
    (h : t.entryAt = Function.update s.entryAt r (some e)) (hnone : s.entryAt r = none)
    (hno : ∀ r', s.target r' ≠ some e.index) : Grown s t := by
  have hkeep : ∀ {r' e'}, s.entryAt r' = some e' → r' ≠ r := by
    rintro r' e' he rfl
    rw [hnone] at he
    exact absurd he (by simp)
  refine ⟨fun {r' e'} he => by rw [h, Function.update_of_ne (hkeep he)]; exact he, fun {r' e'} he => ?_⟩
  by_cases heq : r' = r
  · refine Or.inr fun r'' hr'' => ?_
    rw [h, heq, Function.update_self] at he
    obtain rfl := Option.some.inj he
    by_contra hne
    rw [target_update h, Function.update_of_ne (heq ▸ hne)] at hr''
    exact hno r'' hr''
  · rw [h, Function.update_of_ne heq] at he
    exact Or.inl he

section Pte

variable {s t : Memory} {T : Place → Option ℕ} {pid pde vaddr : ℕ} (hp : s.pdeOf pid = some pde)

include hp

/-- The table of the first four MiB is always there. -/
theorem Tables.getPte_zero (h : s.Tables T) : s.getPte pde 0 false = some (2, s) := by
  obtain ⟨hpres, hidx⟩ := h.kernel hp
  have hd : didx 0 = 0 := by decide
  rw [getPte, h.walk_pdeAddr hp, hd]
  simp only [Option.bind_eq_bind, Option.bind_some, hpres, or_true, assert_pos, reduceIte,
    h.walk_pteAddr hp (show 0 < 1024 by omega) hpres, hidx, Option.pure_def]

/-- A page table that is there is found. -/
theorem Tables.getPte_present (h : s.Tables T) (create : Bool) (hd : didx vaddr < 1024)
    (hpres : (s.mem pde (didx vaddr)).present = true) :
    s.getPte pde vaddr create = some ((s.mem pde (didx vaddr)).index, s) := by
  rw [getPte, h.walk_pdeAddr hp]
  simp only [Option.bind_eq_bind, Option.bind_some, hpres, or_true, assert_pos, reduceIte,
    h.walk_pteAddr hp hd hpres, Option.pure_def]

/-- Without `create`, `get_pte` only finds. -/
theorem Tables.getPte_false (h : s.Tables T) {table : ℕ} (hd : didx vaddr < 1024)
    (hget : s.getPte pde vaddr false = some (table, t)) :
    t = s ∧ (s.mem pde (didx vaddr)).present = true ∧ table = (s.mem pde (didx vaddr)).index := by
  cases hpres : (s.mem pde (didx vaddr)).present with
  | true =>
    rw [h.getPte_present hp false hd hpres] at hget
    obtain ⟨rfl, rfl⟩ := Prod.mk.inj (Option.some.inj hget)
    exact ⟨rfl, rfl, rfl⟩
  | false =>
    rw [Memory.getPte, h.walk_pdeAddr hp] at hget
    simp only [Option.bind_eq_bind, Option.bind_some, hpres] at hget
    obtain ⟨_, hassert, -⟩ := Option.bind_eq_some_iff.mp hget
    rw [assert_eq_some] at hassert
    exact absurd hassert (by simp)

/-- **`get_pte`** finds the table of a user address, or makes an empty one. -/
theorem Exact.getPte (h : s.Exact) (hd : 4 ≤ didx vaddr ∧ didx vaddr < 1023) {create : Bool}
    {table : ℕ} (hget : s.getPte pde vaddr create = some (table, t)) :
    t.Exact ∧ SameTasks s t ∧ Grown s t ∧ SameBut s t (pid, didx vaddr, none) ∧
      (t.mem pde (didx vaddr)).present = true ∧ table = (t.mem pde (didx vaddr)).index := by
  cases hpres : (s.mem pde (didx vaddr)).present with
  | true =>
    rw [h.tables.getPte_present hp create (by omega) hpres] at hget
    obtain ⟨rfl, rfl⟩ := Prod.mk.inj (Option.some.inj hget)
    exact ⟨h, SameTasks.refl _, Grown.of_eq rfl, fun _ _ => rfl, hpres, rfl⟩
  | false =>
    rw [Memory.getPte, h.tables.walk_pdeAddr hp] at hget
    simp only [Option.bind_eq_bind, Option.bind_some, hpres, Bool.false_eq_true, reduceIte] at hget
    obtain ⟨_, -, hget⟩ := Option.bind_eq_some_iff.mp hget
    obtain ⟨⟨page, u⟩, hpage, hget⟩ := Option.bind_eq_some_iff.mp hget
    obtain ⟨table', hwalk, hget⟩ := Option.bind_eq_some_iff.mp hget
    obtain ⟨rfl, rfl⟩ := Prod.mk.inj (Option.some.inj hget)
    have hr : (pid, didx vaddr, none) ∈ places := dir_mem_places.mpr ⟨(h.tables.dir hp).1, hd⟩
    have hnone : s.entryAt (pid, didx vaddr, none) = none := by
      refine Option.eq_none_iff_forall_not_mem.mpr fun e he => ?_
      obtain ⟨-, pde', hp', rfl, hpres'⟩ := entryAt_dir.mp he
      obtain rfl := Option.some.inj (hp.symm.trans hp')
      rw [hpres] at hpres'
      exact Bool.noConfusion hpres'
    have hT : s.target (pid, didx vaddr, none) = none := by rw [target, hnone]; rfl
    obtain ⟨hlo, hhi, hzero, hno, honly, hmap⟩ := h.counts.getPage hpage
    have hcounts := h.counts.taken hr hT hlo hzero hmap honly.totalPages
    have hno' : ∀ r', s.target r' ≠ some page := fun r' hr' => hno r' (h.tables.high hr').1 hr'
    have hu : u.Tables (Function.update s.target (pid, didx vaddr, none) (some page)) :=
      (honly.tables h.tables).add hr (by rw [honly.entryAt]; exact hnone) hlo hhi
        (fun _ _ => hno' _) fun _ => hno'
    have hpu : u.pdeOf pid = some pde := by rw [honly.pdeOf]; exact hp
    -- the table appears where the new directory entry says
    have hdir := (h.tables.dir hp).2
    have hlast := h.tables.last hp
    have htable : table' = page := by
      obtain ⟨-, -, hidx⟩ := walk_eq_some.mp hwalk
      have hself : (u.setWord pde (didx vaddr) (entryInit page)).mem pde 1023 = s.mem pde 1023 := by
        rw [← honly.mem]
        exact if_neg fun hc => by omega
      rw [didx_pteAddr (by omega), tidx_pteAddr (by omega), hself, hlast.2] at hidx
      rw [← hidx]
      exact (congrArg PageEntry.index (if_pos ⟨rfl, rfl⟩)).trans (entryInit_index hhi)
    subst htable
    obtain ⟨hent, htab⟩ := hu.newTable hpu hd (by rw [honly.mem]; exact hpres)
      (Function.update_self _ _ _)
    rw [honly.entryAt] at hent
    have htarget := target_update hent
    rw [Option.map_some, entryInit_index hhi] at htarget
    have hmem : ((u.setWord pde (didx vaddr) (entryInit table')).setFrame table'
        fun _ => zeroEntry).mem pde (didx vaddr) = entryInit table' :=
      (congrFun (if_neg (by omega)) _).trans (if_pos ⟨rfl, rfl⟩)
    refine ⟨⟨?_, ?_⟩, ⟨honly.tasks, honly.kernelMap⟩, ?_, SameBut.of_update hent, ?_, ?_⟩
    · rw [htarget]
      exact htab
    · rw [htarget]
      exact hcounts.congr rfl rfl
    · refine Grown.of_update hent hnone fun r' => ?_
      rw [entryInit_index hhi]
      exact hno' r'
    · rw [hmem]
      rfl
    · rw [hmem, entryInit_index hhi]

/-- **`link_page`** of a user page leaves a page there: the one there was, or a fresh one. -/
theorem Exact.linkPage (h : s.Exact) (hd : 4 ≤ didx vaddr ∧ didx vaddr < 1023)
    (hlink : s.linkPage pde vaddr = some t) :
    t.Exact ∧ SameTasks s t ∧ Grown s t ∧ SameOthers s t pid ∧ (t.mem pde (didx vaddr)).present = true ∧
      (t.entryAt (pid, didx vaddr, some (tidx vaddr))).isSome = true := by
  have htidx : tidx vaddr < 1024 := Nat.mod_lt _ (by omega)
  rw [Memory.linkPage] at hlink
  obtain ⟨_, -, hlink⟩ := Option.bind_eq_some_iff.mp hlink
  obtain ⟨⟨table, u⟩, hget, hlink⟩ := Option.bind_eq_some_iff.mp hlink
  obtain ⟨hu, hsame, hgrown, hbut, hpres, rfl⟩ := h.getPte hp hd hget
  have hpu : u.pdeOf pid = some pde := by rw [hsame.pdeOf]; exact hp
  have hr : (pid, didx vaddr, some (tidx vaddr)) ∈ places :=
    page_mem_places.mpr ⟨(h.tables.dir hp).1, hd.1, hd.2, htidx⟩
  cases hpage : (u.mem (u.mem pde (didx vaddr)).index (tidx vaddr)).present with
  | true =>
    simp only [hpage, reduceIte, Option.pure_def, Option.some.injEq] at hlink
    subst hlink
    refine ⟨hu, hsame, hgrown, hbut.others, hpres, ?_⟩
    rw [entryAt_page.mpr ⟨hr, pde, hpu, hpres, rfl, hpage⟩]
    rfl
  | false =>
    simp only [hpage, Bool.false_eq_true, reduceIte] at hlink
    obtain ⟨⟨page, v⟩, hgetPage, hlink⟩ := Option.bind_eq_some_iff.mp hlink
    have hnone : u.entryAt (pid, didx vaddr, some (tidx vaddr)) = none := by
      refine Option.eq_none_iff_forall_not_mem.mpr fun e he => ?_
      obtain ⟨-, pde', hp', -, rfl, hpres'⟩ := entryAt_page.mp he
      obtain rfl := Option.some.inj (hpu.symm.trans hp')
      rw [hpage] at hpres'
      exact Bool.noConfusion hpres'
    have hT : u.target (pid, didx vaddr, some (tidx vaddr)) = none := by rw [target, hnone]; rfl
    obtain ⟨hlo, hhi, hzero, hno, honly, hmap⟩ := hu.counts.getPage hgetPage
    have hcounts := hu.counts.taken hr hT hlo hzero hmap honly.totalPages
    have hno' : ∀ r', u.target r' ≠ some page := fun r' hr' => hno r' (hu.tables.high hr').1 hr'
    have hv : v.Tables (Function.update u.target (pid, didx vaddr, some (tidx vaddr)) (some page)) :=
      (honly.tables hu.tables).add hr (by rw [honly.entryAt]; exact hnone) hlo hhi
        (fun _ _ => hno' _) fun _ => hno'
    have hpv : v.pdeOf pid = some pde := by rw [honly.pdeOf]; exact hpu
    have hpresv : (v.mem pde (didx vaddr)).present = true := by rw [honly.mem]; exact hpres
    have hent := hv.entryAt_setWord hpv hd hpresv htidx (entryInit page)
    have htab := hv.setWord hpv hd hpresv htidx (e := entryInit page)
      fun _ => by rw [Function.update_self, entryInit_index hhi]
    rw [honly.entryAt, PageEntry.get_of_present (entryInit_present page), honly.mem] at hent
    rw [honly.mem] at htab
    have ht := Option.some.inj hlink
    subst ht
    have htarget := target_update hent
    rw [Option.map_some, entryInit_index hhi] at htarget
    refine ⟨⟨?_, ?_⟩, hsame.trans ⟨honly.tasks, honly.kernelMap⟩, hgrown.trans ?_,
      hbut.others.trans (SameBut.of_update hent).others, ?_, ?_⟩
    · rw [htarget]
      exact htab
    · rw [htarget]
      exact hcounts.congr rfl rfl
    · refine Grown.of_update hent hnone fun r' => ?_
      rw [entryInit_index hhi]
      exact hno' r'
    · have hdir := (h.tables.dir hp).2.2
      have hhigh := (hu.tables.table_high hpu hd hpres).2.2
      refine (congrArg PageEntry.present (if_neg fun hc => ?_)).trans hpresv
      omega
    · rw [hent, Function.update_self]
      rfl

/-- **`unlink_page`** of a user page takes its entry away, if there is one. -/
theorem Exact.unlinkPage (h : s.Exact) (hd : 4 ≤ didx vaddr ∧ didx vaddr < 1023)
    (hunlink : s.unlinkPage pde vaddr = some t) :
    t.Exact ∧ SameTasks s t ∧ SameOthers s t pid ∧ ∀ {r e}, t.entryAt r = some e → s.entryAt r = some e := by
  have htidx : tidx vaddr < 1024 := Nat.mod_lt _ (by omega)
  rw [Memory.unlinkPage] at hunlink
  obtain ⟨_, -, hunlink⟩ := Option.bind_eq_some_iff.mp hunlink
  rw [h.tables.walk_pdeAddr hp] at hunlink
  simp only [Option.bind_eq_bind, Option.bind_some] at hunlink
  cases hpres : (s.mem pde (didx vaddr)).present with
  | false =>
    simp only [hpres, Bool.not_false, reduceIte, Option.pure_def, Option.some.injEq] at hunlink
    subst hunlink
    exact ⟨h, SameTasks.refl _, .of_eq rfl, fun he => he⟩
  | true =>
    simp only [hpres, Bool.not_true, Bool.false_eq_true, reduceIte, getEntry,
      h.tables.getPte_present hp false (by omega) hpres, Option.bind_some] at hunlink
    cases hpage : (s.mem (s.mem pde (didx vaddr)).index (tidx vaddr)).present with
    | false =>
      simp only [hpage, Bool.not_false, reduceIte, Option.pure_def, Option.some.injEq] at hunlink
      subst hunlink
      exact ⟨h, SameTasks.refl _, .of_eq rfl, fun he => he⟩
    | true =>
      simp only [hpage, Bool.not_true, Bool.false_eq_true, reduceIte] at hunlink
      have hr : (pid, didx vaddr, some (tidx vaddr)) ∈ places :=
        page_mem_places.mpr ⟨(h.tables.dir hp).1, hd.1, hd.2, htidx⟩
      have hold := entryAt_page.mpr ⟨hr, pde, hp, hpres, rfl, hpage⟩
      have hT := h.tables.refs hold
      obtain ⟨e, he⟩ : ∃ e, e = { s.mem (s.mem pde (didx vaddr)).index (tidx vaddr) with
        present := false } := ⟨_, rfl⟩
      rw [← he] at hunlink
      have habs : e.present = false := by rw [he]
      have hent := h.tables.entryAt_setWord hp hd hpres htidx e
      have htab := h.tables.setWord hp hd hpres htidx (e := e) fun hc => by
        rw [habs] at hc
        exact Bool.noConfusion hc
      rw [PageEntry.get_of_absent habs] at hent
      have hcounts : (s.setWord (s.mem pde (didx vaddr)).index (tidx vaddr) e).Counts s.target :=
        h.counts.congr rfl rfl
      obtain ⟨honly, hcounts'⟩ := hcounts.putPage hr hT (h.tables.high hT).2.1 hunlink
      have hent' : t.entryAt = Function.update s.entryAt (pid, didx vaddr, some (tidx vaddr)) none := by
        rw [honly.entryAt, hent]
      have htarget := target_update hent'
      rw [Option.map_none] at htarget
      refine ⟨⟨?_, ?_⟩, ⟨honly.tasks, honly.kernelMap⟩, (SameBut.of_update hent').others, fun {r e'} he' => ?_⟩
      · rw [htarget]
        exact honly.tables (htab.drop (by rw [hent, Function.update_self]))
      · rw [htarget]
        exact hcounts'
      · rw [hent'] at he'
        by_cases heq : r = (pid, didx vaddr, some (tidx vaddr))
        · rw [heq, Function.update_self] at he'
          exact absurd he' (by simp)
        · rwa [Function.update_of_ne heq] at he'

/-- The steps of `copy_page`: the frame that `get_page` returns becomes a copy of the page. -/
theorem Tables.copyPage_eq (ht : s.Tables T) (hc : s.Counts T) {src page : ℕ} {u : Memory}
    (hwalk : s.walk pde vaddr = some src) (hidx : (s.mem pde (didx vaddr)).index ≠ 2) (hsrc : src ≠ 2)
    (hget : s.getPage = some (page, u)) :
    s.copyPage pde vaddr = some (page, ((u.setWord 2 0 (entryInit page)).setFrame page (s.mem src)).setWord 2 0
      { entryInit page with present := false }) := by
  have hdir := (ht.dir hp).2
  obtain ⟨hlo, hhi, -, -, honly, -⟩ := hc.getPage hget
  have hu : u.Tables T := honly.tables ht
  have hpu : u.pdeOf pid = some pde := by rw [honly.pdeOf]; exact hp
  have hmem2 : ∀ f, f ≠ 2 → (u.setWord 2 0 (entryInit page)).mem f = s.mem f := by
    intro f hf
    rw [← honly.mem]
    exact funext fun j => if_neg fun hc => hf hc.1
  have hword : (u.setWord 2 0 (entryInit page)).mem 2 0 = entryInit page := by
    rw [mem_setWord, if_pos ⟨rfl, rfl⟩]
  -- the source is where it was, and address 0 is the new frame
  have hsrc' : (u.setWord 2 0 (entryInit page)).walk pde vaddr = some src := by
    rw [walk_eq_some] at hwalk ⊢
    rw [hmem2 pde (by omega), hmem2 _ hidx]
    exact hwalk
  have hdst : (u.setWord 2 0 (entryInit page)).walk pde 0 = some page := by
    have hd0 : didx 0 = 0 := by decide
    have ht0 : tidx 0 = 0 := by decide
    obtain ⟨hpres, hidx2⟩ := ht.kernel hp
    rw [walk_eq_some, hd0, ht0, hmem2 pde (by omega), hidx2, hword]
    exact ⟨hpres, rfl, entryInit_index hhi⟩
  have hscratch : ((u.setWord 2 0 (entryInit page)).setFrame page (s.mem src)).mem 2 0 = entryInit page :=
    (congrFun (if_neg (by omega)) 0).trans hword
  rw [Memory.copyPage, hget]
  simp only [Option.bind_eq_bind, Option.bind_some, hu.getPte_zero hpu, hsrc', hdst, hmem2 src hsrc, hscratch,
    Option.pure_def]

/-- **`copy_page`** puts a copy of a page in a fresh frame; besides, only the scratch entry
for address 0 changes. -/
theorem Tables.copyPage (ht : s.Tables T) (hc : s.Counts T) {src p : ℕ} (hwalk : s.walk pde vaddr = some src)
    (hidx : (s.mem pde (didx vaddr)).index ≠ 2) (hsrc : src ≠ 2)
    (hcopy : s.copyPage pde vaddr = some (p, t)) :
    4096 ≤ p ∧ p < 1048576 ∧ (∀ r', T r' ≠ some p) ∧ t.entryAt = s.entryAt ∧ t.Tables T ∧
      (s.memoryMap p = 0 ∧ t.memoryMap = (s.setCount p 1).memoryMap ∧ t.totalPages = s.totalPages) ∧
      SameTasks s t ∧ ∀ f, f ≠ 2 → t.mem f = if f = p then s.mem src else s.mem f := by
  obtain ⟨⟨page, u⟩, hget, -⟩ := Option.bind_eq_some_iff.mp hcopy
  rw [ht.copyPage_eq hp hc hwalk hidx hsrc hget] at hcopy
  obtain ⟨rfl, ht'⟩ := Prod.mk.inj (Option.some.inj hcopy)
  obtain ⟨hlo, hhi, hzero, hno, honly, hmap⟩ := hc.getPage hget
  have hno' : ∀ r', T r' ≠ some page := fun r' hr' => hno r' (ht.high hr').1 hr'
  have hmem : ∀ f, f ≠ 2 → t.mem f = if f = page then s.mem src else s.mem f := by
    intro f hf
    rw [← ht']
    refine (funext fun j => if_neg fun hc => hf hc.1).trans ?_
    by_cases hfd : f = page
    · rw [if_pos hfd]
      exact if_pos hfd
    · rw [if_neg hfd, ← honly.mem]
      exact (if_neg hfd).trans (funext fun j => if_neg fun hc => hf hc.1)
  have hpdes : ∀ pid', t.pdeOf pid' = s.pdeOf pid' := fun pid' => by
    rw [← ht']
    exact honly.pdeOf pid'
  obtain ⟨hent, htab⟩ := ht.of_loose hpdes fun f => by
    by_cases hf : f = 2
    · refine Or.inl (ht.loose_of_lt (by omega) fun pid' hp' => ?_)
      have := (ht.dir hp').2.1
      omega
    · rw [hmem f hf]
      by_cases hfd : f = page
      · exact Or.inl (ht.loose_of_ge (hfd ▸ hlo) fun _ _ => hfd ▸ hno' _)
      · exact Or.inr (if_neg hfd)
  have hmap' : t.memoryMap = (s.setCount page 1).memoryMap := by rw [← ht']; exact hmap
  have htotal : t.totalPages = s.totalPages := by rw [← ht']; exact honly.totalPages
  have hsame : SameTasks s t := by
    rw [← ht']
    exact ⟨honly.tasks, honly.kernelMap⟩
  exact ⟨hlo, hhi, hno', hent, htab, ⟨hzero, hmap', htotal⟩, hsame, hmem⟩

end Pte

end Memory

end Onixs
