import Onixs.Kernel.PageRun

/-!
# Copy on write

After a fork parent and child share their pages, and no entry to a shared page may be
written unless the pages are marked shared on purpose (`Onixs.Memory.Cow`). Forks, faults,
`sys_brk` and `sys_munmap` keep this. `sys_mmap` does not: it sets the write bit of every
page of its range, also of a page that was there before and that another task refers to.
So the result holds along the runs in which no `sys_mmap` with `PROT_WRITE` meets such a page
(`Onixs.MemoryOp.Safe`, `Onixs.memoryRun_cow`).
-/

namespace Onixs

namespace Memory

/-- **No page is written behind the back of another task**: of two entries to one page, one may
be written only when both are marked shared. -/
def Cow (s : Memory) : Prop := ∀ r r' e e', s.entryAt r = some e → s.entryAt r' = some e' → r' ≠ r →
  e'.index = e.index → e.write = true → e.shared = true ∧ e'.shared = true

/-- The entry at `r` may be given the write bit: it is the only one to its page, or all of them
are marked shared. -/
def MayWrite (s : Memory) (r : Place) : Prop := ∀ e, s.entryAt r = some e →
  (∀ r', s.target r' = some e.index → r' = r) ∨
    ∀ {r' e'}, s.entryAt r' = some e' → e'.index = e.index → e'.shared = true

/-- The entries of `t` are those of `s`, with marks added perhaps, or the only ones to their
pages. -/
def Evolved (s t : Memory) : Prop := ∀ r e, t.entryAt r = some e →
  (∃ e₀, s.entryAt r = some e₀ ∧ e₀.index = e.index ∧ (e₀.shared = true → e.shared = true)) ∨
    ∀ r', t.target r' = some e.index → r' = r

section Steps

variable {s t u : Memory} {r : Place} {e e' : PageEntry}

theorem MayWrite.evolve (h : s.MayWrite r) (hev : Evolved s t) : t.MayWrite r := by
  intro e he
  rcases hev r e he with ⟨e₀, he₀, hidx, hmark⟩ | honly
  · rcases h e₀ he₀ with hone | hall
    · refine Or.inl fun r' hr' => ?_
      obtain ⟨e', he', hidx'⟩ := target_eq_some.mp hr'
      rcases hev r' e' he' with ⟨e₀', he₀', hidx₀, -⟩ | honly'
      · refine hone r' (target_eq_some.mpr ⟨e₀', he₀', ?_⟩)
        rw [hidx₀, hidx', hidx]
      · exact (honly' r (target_eq_some.mpr ⟨e, he, hidx'.symm⟩)).symm
    · refine Or.inr fun {r' e'} he' hidx' => ?_
      rcases hev r' e' he' with ⟨e₀', he₀', hidx₀, hmark'⟩ | honly'
      · exact hmark' (hall he₀' (hidx₀.trans (hidx'.trans hidx.symm)))
      · obtain rfl := honly' r (target_eq_some.mpr ⟨e, he, hidx'.symm⟩)
        obtain rfl := Option.some.inj (he.symm.trans he')
        exact hmark (hall he₀ rfl)
  · exact Or.inl honly

theorem Evolved.refl (s : Memory) : Evolved s s := fun _ e he => Or.inl ⟨e, he, rfl, id⟩

theorem Evolved.trans (h : Evolved s t) (h' : Evolved t u) : Evolved s u := by
  intro r e he
  rcases h' r e he with ⟨e₁, he₁, hidx, hmark⟩ | honly
  · rcases h r e₁ he₁ with ⟨e₀, he₀, hidx₀, hmark₀⟩ | honly
    · exact Or.inl ⟨e₀, he₀, hidx₀.trans hidx, fun hm => hmark (hmark₀ hm)⟩
    · refine Or.inr fun r' hr' => ?_
      obtain ⟨e', he', hidx'⟩ := target_eq_some.mp hr'
      rcases h' r' e' he' with ⟨e₁', he₁', hidx₁, -⟩ | honly'
      · refine honly r' (target_eq_some.mpr ⟨e₁', he₁', ?_⟩)
        rw [hidx₁, hidx', hidx]
      · exact (honly' r (target_eq_some.mpr ⟨e, he, hidx'.symm⟩)).symm
  · exact Or.inr honly

theorem Grown.evolved (h : Grown s t) : Evolved s t := by
  intro r e he
  rcases h.fresh he with hold | hnew
  · exact Or.inl ⟨e, hold, rfl, id⟩
  · exact Or.inr hnew

/-- Fresh pages keep the rule. -/
theorem Cow.grow (h : s.Cow) (hgrown : Grown s t) : t.Cow := by
  intro r r' e e' he he' hne hidx hw
  rcases hgrown.fresh he with hold | hnew
  · rcases hgrown.fresh he' with hold' | hnew'
    · exact h _ _ _ _ hold hold' hne hidx hw
    · exact absurd (hnew' r (target_eq_some.mpr ⟨e, he, hidx.symm⟩)).symm hne
  · exact absurd (hnew r' (target_eq_some.mpr ⟨e', he', hidx⟩)) hne

/-- Entries that go keep the rule. -/
theorem Cow.shrink (h : s.Cow) (hshrunk : Shrunk s t) : t.Cow :=
  fun r r' e e' he he' hne hidx hw => h r r' e e' (hshrunk he) (hshrunk he') hne hidx hw

theorem Cow.congr (h : s.Cow) (heq : t.entryAt = s.entryAt) : t.Cow :=
  h.shrink fun he => by rw [← heq]; exact he

/-- The flags of an entry may change if it stays marked and gets the write bit only when it may. -/
theorem Cow.setFlags (h : s.Cow) (he : s.entryAt r = some e)
    (hupd : t.entryAt = Function.update s.entryAt r (some e')) (hidx : e'.index = e.index)
    (hmark : e.shared = true → e'.shared = true) (hmay : e'.write = true → s.MayWrite r) : t.Cow := by
  intro r₁ r₂ e₁ e₂ he₁ he₂ hne hidx' hw
  rw [hupd] at he₁ he₂
  rcases eq_or_ne r₁ r with rfl | hne₁
  · rw [Function.update_self] at he₁
    obtain rfl := Option.some.inj he₁
    rw [Function.update_of_ne hne] at he₂
    rcases hmay hw e he with hone | hall
    · exact absurd (hone r₂ (target_eq_some.mpr ⟨e₂, he₂, hidx'.trans hidx⟩)) hne
    · exact ⟨hmark (hall he rfl), hall he₂ (hidx'.trans hidx)⟩
  · rw [Function.update_of_ne hne₁] at he₁
    rcases eq_or_ne r₂ r with rfl | hne₂
    · rw [Function.update_self] at he₂
      obtain rfl := Option.some.inj he₂
      obtain ⟨hm, hm'⟩ := h _ _ _ _ he₁ he hne (hidx.symm.trans hidx') hw
      exact ⟨hm, hmark hm'⟩
    · rw [Function.update_of_ne hne₂] at he₂
      exact h _ _ _ _ he₁ he₂ hne hidx' hw

theorem Evolved.setFlags (he : s.entryAt r = some e)
    (hupd : t.entryAt = Function.update s.entryAt r (some e')) (hidx : e'.index = e.index)
    (hmark : e.shared = true → e'.shared = true) : Evolved s t := by
  intro r₁ e₁ he₁
  rw [hupd] at he₁
  rcases eq_or_ne r₁ r with rfl | hne
  · rw [Function.update_self] at he₁
    obtain rfl := Option.some.inj he₁
    exact Or.inl ⟨e, he, hidx.symm, hmark⟩
  · rw [Function.update_of_ne hne] at he₁
    exact Or.inl ⟨e₁, he₁, rfl, id⟩

/-- An entry that moves to a fresh page keeps the rule. -/
theorem Cow.move (h : s.Cow) (hupd : t.entryAt = Function.update s.entryAt r (some e'))
    (hfresh : ∀ r', s.target r' ≠ some e'.index) : t.Cow := by
  intro r₁ r₂ e₁ e₂ he₁ he₂ hne hidx hw
  rw [hupd] at he₁ he₂
  rcases eq_or_ne r₁ r with rfl | hne₁
  · rw [Function.update_self] at he₁
    obtain rfl := Option.some.inj he₁
    rw [Function.update_of_ne hne] at he₂
    exact absurd (target_eq_some.mpr ⟨e₂, he₂, hidx⟩) (hfresh r₂)
  · rw [Function.update_of_ne hne₁] at he₁
    rcases eq_or_ne r₂ r with rfl | hne₂
    · rw [Function.update_self] at he₂
      obtain rfl := Option.some.inj he₂
      exact absurd (target_eq_some.mpr ⟨e₁, he₁, hidx.symm⟩) (hfresh r₁)
    · rw [Function.update_of_ne hne₂] at he₂
      exact h _ _ _ _ he₁ he₂ hne hidx hw

/-- After a fork every entry comes from an entry of the parent, which was shared, or is another
task's. -/
theorem Forked.origin {pid child : ℕ} (h : Forked s u pid child) {pid' d i : ℕ}
    (he : u.entryAt (pid', d, some i) = some e) :
    ∃ r₀ e₀, s.entryAt r₀ = some e₀ ∧ e₀.index = e.index ∧ e₀.shared = e.shared ∧
      ((pid' ≠ pid ∧ r₀ = (pid', d, some i) ∧ e = e₀) ∨ (r₀ = (pid, d, some i) ∧ e = e₀.share)) := by
  rcases eq_or_ne pid' pid with rfl | hp
  · rw [h.page] at he
    obtain ⟨e₀, he₀, rfl⟩ := Option.map_eq_some_iff.mp he
    exact ⟨_, e₀, he₀, (e₀.share_index).symm, (e₀.share_shared).symm, Or.inr ⟨rfl, rfl⟩⟩
  · rcases eq_or_ne pid' child with rfl | hc
    · rw [h.copy] at he
      obtain ⟨e₀, he₀, rfl⟩ := Option.map_eq_some_iff.mp he
      exact ⟨_, e₀, he₀, (e₀.share_index).symm, (e₀.share_shared).symm, Or.inr ⟨rfl, rfl⟩⟩
    · rw [h.other _ hp hc] at he
      exact ⟨_, e, he, rfl, rfl, Or.inl ⟨hp, rfl, rfl⟩⟩

theorem present_of_entryAt (he : s.entryAt r = some e) : e.present = true := by
  obtain ⟨pid, d, o⟩ := r
  cases o with
  | none => exact (entryAt_dir.mp he).2.choose_spec.2.2
  | some i => exact (entryAt_page.mp he).2.choose_spec.2.2.2

/-- **A fork keeps the rule.** -/
theorem Cow.fork {pid child : ℕ} (h : s.Cow) (hfork : Forked s u pid child) (hu : u.Exact) : u.Cow := by
  rintro ⟨pid₁, d₁, o₁⟩ ⟨pid₂, d₂, o₂⟩ e₁ e₂ he₁ he₂ hne hidx hw
  have hT₁ := hu.tables.refs he₁
  have hT₂ := hu.tables.refs he₂
  rw [hidx] at hT₂
  -- a page table has one entry only
  cases o₁ with
  | none => exact absurd (hu.tables.single hT₁ hT₂) hne
  | some i₁ =>
    cases o₂ with
    | none => exact absurd (hu.tables.single hT₂ hT₁).symm hne
    | some i₂ =>
      obtain ⟨r₁, e₁', hr₁, hidx₁, hmark₁, hcase₁⟩ := hfork.origin he₁
      obtain ⟨r₂, e₂', hr₂, hidx₂, hmark₂, hcase₂⟩ := hfork.origin he₂
      have hw' : e₁'.write = true := by
        rcases hcase₁ with ⟨-, -, rfl⟩ | ⟨-, rfl⟩
        · exact hw
        · exact PageEntry.write_of_share_write hw
      rcases eq_or_ne r₂ r₁ with heq | hne'
      · rw [heq] at hr₂
        obtain rfl := Option.some.inj (hr₁.symm.trans hr₂)
        rcases hcase₁ with ⟨hpid, rfl, -⟩ | ⟨-, rfl⟩
        · rcases hcase₂ with ⟨-, hr, -⟩ | ⟨hr, -⟩
          · exact absurd (heq.symm.trans hr).symm hne
          · exact absurd (congrArg Prod.fst (heq.symm.trans hr)) hpid
        · have hm := PageEntry.shared_of_share_write (present_of_entryAt hr₁) hw
          rw [hmark₁] at hm
          exact ⟨hm, by rw [← hmark₂, hmark₁]; exact hm⟩
      · obtain ⟨hm, hm'⟩ := h _ _ _ _ hr₁ hr₂ hne' (by rw [hidx₂, hidx, hidx₁]) hw'
        exact ⟨by rw [← hmark₁]; exact hm, by rw [← hmark₂]; exact hm'⟩

/-- The entries that an exit leaves are old ones. -/
theorem Exited.shrunk {pid : ℕ} (h : Exited s u pid) : Shrunk s u := by
  intro r e he
  rcases eq_or_ne r.1 pid with heq | hne
  · obtain ⟨pid', r'⟩ := r
    obtain rfl : pid' = pid := heq
    rw [entryAt_of_dead h.dead] at he
    exact absurd he (by simp)
  · rwa [h.other r hne] at he

/-- **The loop of `sys_mmap`** keeps the rule, if it may set the write bits it sets. -/
theorem Cow.mapPages {pid prot flags : ℕ} {task : Task} :
    ∀ (left page : ℕ) (s t : Memory) (vmap vmap' : Bitmap), s.Sound → s.Cow →
      s.running pid = some task → vmap.offset = 32768 → vmap.size ≤ 4096 →
      (prot &&& 2 ≠ 0 → ∀ i < left, s.MayWrite (placeOf pid (page + i * 4096))) →
      mapPages task.pde prot flags left page s vmap = some (t, vmap') → t.Cow := by
  intro left
  induction left with
  | zero =>
    intro page s t vmap vmap' _ hcow _ _ _ _ hloop
    obtain ⟨rfl, -⟩ := Prod.mk.inj (Option.some.inj hloop)
    exact hcow
  | succ left ih =>
    intro page s t vmap vmap' h hcow hrun hoff hsize hmay hloop
    rw [Memory.mapPages] at hloop
    obtain ⟨u, hlink, hloop⟩ := Option.bind_eq_some_iff.mp hloop
    obtain ⟨map, hset, hloop⟩ := Option.bind_eq_some_iff.mp hloop
    obtain ⟨⟨table, v⟩, hget, htail⟩ := Option.bind_eq_some_iff.mp hloop
    obtain ⟨hlo, hlt, hmap⟩ := bitmapSet_eq_some hset
    rw [hoff] at hlo hlt
    obtain ⟨-, hmhi, hd⟩ := didx_vmap hlo hlt hsize
    obtain ⟨hvu, hgrown, hsame, -, hsound, e, he, hupd⟩ := h.mapPage hrun hd hlink hget
    have hnext : u32 (page + pageSize) = page + 4096 := by
      rw [userStackTop_eq] at hmhi
      rw [pageSize_eq, u32_of_lt (by omega)]
    simp only [hvu, hnext] at htail
    have hmark : e.shared = true → (mmapEntry prot flags e).shared = true := fun hm => by
      rw [mmapEntry, hm]
      rfl
    have hcowu : u.Cow := Cow.grow hcow hgrown
    have hcow' : Cow _ := Cow.setFlags hcowu he hupd rfl hmark fun hw => by
      have hprot : prot &&& 2 ≠ 0 := by simpa [mmapEntry] using hw
      have hmay₀ := hmay hprot 0 (Nat.succ_pos left)
      rw [Nat.zero_mul, Nat.add_zero] at hmay₀
      exact MayWrite.evolve hmay₀ hgrown.evolved
    have hev := Evolved.trans hgrown.evolved (Evolved.setFlags he hupd rfl hmark)
    have hrun' := (hsame.trans (⟨rfl, rfl⟩ : SameTasks u (u.setWord table (tidx page)
      (mmapEntry prot flags (u.mem table (tidx page)))))).running pid
    refine ih (page + 4096) _ t map vmap' hsound hcow' (hrun'.trans hrun) (by rw [hmap]; exact hoff)
      (by rw [hmap]; exact hsize) (fun hprot i hi => ?_) htail
    have hi' := hmay hprot (i + 1) (by omega)
    rw [show page + (i + 1) * 4096 = page + 4096 + i * 4096 by omega] at hi'
    exact MayWrite.evolve hi' hev

end Steps

/-! ### Isolation -/

/-- The pages that several entries refer to and that are not all marked shared cannot be written
by anyone. -/
def Protected (s : Memory) (p : ℕ) : Prop := 1 < s.memoryMap p →
  (∃ r e, s.entryAt r = some e ∧ e.index = p ∧ e.shared = false) →
  ∀ r e, s.entryAt r = some e → e.index = p → e.write = false

/-- A store of one task through an entry that is not marked shared changes nothing another task
reads. -/
def Isolated (s : Memory) : Prop := ∀ pid pid' vaddr vaddr' word e t, pid ≠ pid' →
  userExecAddr ≤ vaddr → vaddr < 0xFFC00000 → userExecAddr ≤ vaddr' → vaddr' < 0xFFC00000 →
  s.entryAt (placeOf pid vaddr) = some e → e.shared = false → s.store pid vaddr word = some t →
  t.load pid' vaddr' = s.load pid' vaddr'

section Isolation

variable {s t : Memory}

theorem Cow.protect (h : s.Cow) (hs : s.Sound) {p : ℕ} (hp : 4096 ≤ p) : s.Protected p := by
  rintro hmany ⟨r₀, e₀, he₀, hidx₀, hmark⟩ r e he hidx
  rw [Bool.eq_false_iff]
  intro hw
  rcases eq_or_ne r₀ r with rfl | hne
  · obtain rfl := Option.some.inj (he₀.symm.trans he)
    rw [hs.exact.counts.count p hp] at hmany
    obtain ⟨r', -, hr', hne'⟩ := exists_ne_of_one_lt_refCount hmany r₀
    obtain ⟨e', he', hidx'⟩ := target_eq_some.mp hr'
    rw [(h _ _ _ _ he he' hne' (hidx'.trans hidx.symm) hw).1] at hmark
    exact Bool.noConfusion hmark
  · rw [(h _ _ _ _ he he₀ hne (hidx₀.trans hidx.symm) hw).2] at hmark
    exact Bool.noConfusion hmark

/-- A store in a page does not move the pages the processor finds. -/
theorem walk_setWord {T : Place → Option ℕ} (h : s.Tables T) {pid pde vaddr f i : ℕ} {word : PageEntry}
    (hp : s.pdeOf pid = some pde) (hd : 4 ≤ didx vaddr ∧ didx vaddr < 1023) (hf : Loose s T f) :
    (s.setWord f i word).walk pde vaddr = s.walk pde vaddr := by
  have hmem : ∀ g, g ≠ f → (s.setWord f i word).mem g = s.mem g := fun g hg =>
    funext fun j => if_neg fun hc => hg hc.1
  have hpde : pde ≠ f := by
    rintro rfl
    exact hf.1 pid hp
  rw [walk, walk, hmem pde hpde]
  cases hpres : (s.mem pde (didx vaddr)).present with
  | false => rfl
  | true =>
    obtain ⟨-, hT, -⟩ := h.table_high hp hd hpres
    have htable : (s.mem pde (didx vaddr)).index ≠ f := fun heq => hf.2 pid _ (heq ▸ hT)
    rw [hmem _ htable]

theorem Cow.isolate (h : s.Cow) (hs : s.Sound) : s.Isolated := by
  intro pid pid' vaddr vaddr' word e t hne hlo hhi hlo' hhi' he hmark hstore
  obtain ⟨-, -, e', he', hw, rfl⟩ := hs.store (didx_user hlo hhi) hstore
  obtain rfl := Option.some.inj (he.symm.trans he')
  have hloose := hs.exact.tables.loose_of_page (hs.exact.tables.refs he)
  have hrun : (s.setWord e.index (vaddr % 4096 / 4) word).running pid' = s.running pid' := rfl
  rw [load, load, hrun]
  cases hcase : s.running pid' with
  | none => rfl
  | some task =>
    have hd' := didx_user hlo' hhi'
    simp only [Option.bind_eq_bind, Option.bind_some,
      walk_setWord hs.exact.tables (pdeOf_of_running hcase) hd' hloose]
    cases hwalk : s.walk task.pde vaddr' with
    | none => rfl
    | some f =>
      obtain ⟨e₂, he₂, rfl, -⟩ := entryAt_of_walk hs.exact.tables hcase hd' hwalk
      have hplace : placeOf pid' vaddr' ≠ placeOf pid vaddr := fun heq =>
        hne (congrArg Prod.fst heq).symm
      -- the page written is another one
      have hidx : e₂.index ≠ e.index := fun heq => by
        rw [(h _ _ _ _ he he₂ hplace heq hw).1] at hmark
        exact Bool.noConfusion hmark
      exact congrArg some (if_neg fun hc => hidx hc.1)

end Isolation

end Memory

/-! ### Runs -/

/-- A `sys_mmap` with `PROT_WRITE` meets no page that another entry refers to, shared pages apart. -/
def MemoryOp.Safe (s : Memory) : MemoryOp → Prop
  | mmap pid addr length prot _ _ => prot &&& 2 ≠ 0 → ∀ task vaddr vmap, s.running pid = some task →
      Memory.mmapAddr task.vmap addr (divRoundUp length Memory.pageSize) = some (vaddr, vmap) →
      ∀ i < divRoundUp length Memory.pageSize, ∀ e,
        s.entryAt (Memory.placeOf pid (vaddr + i * 4096)) = some e →
        s.memoryMap e.index = 1 ∨ ∀ r e', s.entryAt r = some e' → e'.index = e.index → e'.shared = true
  | _ => True

namespace Memory

/-- **Each safe step keeps the rule.** -/
theorem Cow.step {s t : Memory} {op : MemoryOp} (h : s.Cow) (hs : s.Sound) (hlegal : op.Legal s)
    (hsafe : op.Safe s) {r : Unit} (hstep : op.step s = some (r, t)) : t.Cow := by
  cases op with
  | fork pid =>
    obtain ⟨⟨child, u⟩, hfork, heq⟩ := Option.map_eq_some_iff.mp hstep
    obtain ⟨-, rfl⟩ := Prod.mk.inj heq
    obtain ⟨hu, hforked⟩ := hs.taskFork hfork
    exact h.fork hforked hu.exact
  | exit pid =>
    obtain ⟨u, hexit, heq⟩ := Option.map_eq_some_iff.mp hstep
    obtain ⟨-, rfl⟩ := Prod.mk.inj heq
    exact h.shrink (hs.taskExit hexit).2.shrunk
  | reap child =>
    obtain ⟨u, hreap, heq⟩ := Option.map_eq_some_iff.mp hstep
    obtain ⟨-, rfl⟩ := Prod.mk.inj heq
    exact h.congr (hs.taskReap hreap).2
  | brk pid addr =>
    obtain ⟨⟨ok, u⟩, hcall, heq⟩ := Option.map_eq_some_iff.mp hstep
    obtain ⟨-, rfl⟩ := Prod.mk.inj heq
    exact h.shrink (hs.sysBrk hcall).2.1
  | mmap pid addr length prot flags file =>
    obtain ⟨⟨vaddr, u⟩, hcall, heq⟩ := Option.map_eq_some_iff.mp hstep
    obtain ⟨-, rfl⟩ := Prod.mk.inj heq
    obtain ⟨-, -, task, vmap, vmap', v, hrun, haddr, hoff, hsize, hloop, hent⟩ := hs.sysMmap hcall
    refine Cow.congr (Cow.mapPages _ vaddr s v vmap vmap' hs h hrun hoff hsize ?_ hloop) hent
    intro hprot i hi e he
    have hT := hs.exact.tables.refs he
    obtain ⟨hr, hhigh, -⟩ := hs.exact.tables.high hT
    rcases hsafe hprot task vaddr vmap hrun haddr i hi e he with hone | hall
    · rw [hs.exact.counts.count _ hhigh] at hone
      exact Or.inl fun r' hr' =>
        eq_of_refCount_le_one hone.le hr hT (hs.exact.tables.high hr').1 hr'
    · exact Or.inr fun he' => hall _ _ he'
  | munmap pid addr length =>
    obtain ⟨u, hcall, heq⟩ := Option.map_eq_some_iff.mp hstep
    obtain ⟨-, rfl⟩ := Prod.mk.inj heq
    exact h.shrink (hs.sysMunmap hcall).2.1
  | fault pid vaddr present write =>
    obtain ⟨u, hfault, heq⟩ := Option.map_eq_some_iff.mp hstep
    obtain ⟨-, rfl⟩ := Prod.mk.inj heq
    rcases (hs.pageFault hlegal.1 hlegal.2 hfault).2.2 with hgrown | ⟨e, e', he, -, hupd, hcase⟩
    · exact h.grow hgrown
    · rcases hcase with ⟨rfl, hone⟩ | hfresh
      · refine h.setFlags he hupd rfl id fun _ e₁ he₁ => Or.inl ?_
        obtain rfl := Option.some.inj (he.symm.trans he₁)
        exact hone
      · exact h.move hupd hfresh
  | link pid vaddr =>
    obtain ⟨task, hrun, hmap⟩ := Option.bind_eq_some_iff.mp hstep
    obtain ⟨u, hlink, heq⟩ := Option.map_eq_some_iff.mp hmap
    obtain ⟨-, rfl⟩ := Prod.mk.inj heq
    exact h.grow (hs.linkPage hrun (didx_user hlegal.1 hlegal.2) hlink).2.2.1
  | unlink pid vaddr =>
    obtain ⟨task, hrun, hmap⟩ := Option.bind_eq_some_iff.mp hstep
    obtain ⟨u, hunlink, heq⟩ := Option.map_eq_some_iff.mp hmap
    obtain ⟨-, rfl⟩ := Prod.mk.inj heq
    exact h.shrink (hs.unlinkPage hrun (didx_user hlegal.1 hlegal.2) hunlink).2.2.1
  | store pid vaddr word =>
    obtain ⟨u, hstore, heq⟩ := Option.map_eq_some_iff.mp hstep
    obtain ⟨-, rfl⟩ := Prod.mk.inj heq
    exact h.congr (hs.store (didx_user hlegal.1 hlegal.2) hstore).2.1

/-- At the start there is nothing to share. -/
theorem Boot.cow {s : Memory} (h : s.Boot) : s.Cow := by
  intro r r' e e' he
  rw [h.entryAt] at he
  exact absurd he (by simp)

end Memory

/-- **Copy-on-write isolation** along the runs whose `sys_mmap` calls are safe: in every state
reached, a page with several entries that are not all marked shared cannot be written, and a
store of one task through an unmarked entry changes nothing another task reads. -/
theorem memoryRun_cow {s t : Memory} (h : s.Boot) {ops : List MemoryOp}
    (hops : Run.Along MemoryOp.step (fun s op => op.Legal s ∧ op.Safe s) s ops)
    (hrun : Run.exec MemoryOp.step s ops = some t) :
    (∀ p, 4096 ≤ p → t.Protected p) ∧ t.Isolated := by
  obtain ⟨hs, hcow⟩ := Run.inv_of_exec (fun s : Memory => s.Sound ∧ s.Cow)
    (fun _ _ _ _ hs hl hstep => ⟨hs.1.step hl.1 hstep, Memory.Cow.step hs.2 hs.1 hl.1 hl.2 hstep⟩)
    ops s t ⟨h.sound, h.cow⟩ hops hrun
  exact ⟨fun p hp => Memory.Cow.protect hcow hs hp, Memory.Cow.isolate hcow hs⟩

/-- After a private page is mapped and the task forks, parent and child cannot write it. -/
theorem memoryRun_cow_fork : ∃ t,
    Run.exec MemoryOp.step bootMemory [.mmap 1 0x8000000 4096 3 2 none, .fork 1] = some t ∧
      (∀ p, 4096 ≤ p → t.Protected p) ∧ t.Isolated := by
  have hsome : (Run.exec MemoryOp.step bootMemory
      [.mmap 1 0x8000000 4096 3 2 none, .fork 1]).isSome = true := by decide +kernel
  obtain ⟨t, ht⟩ := Option.isSome_iff_exists.mp hsome
  have hsafe : (MemoryOp.mmap 1 0x8000000 4096 3 2 none).Safe bootMemory := by
    intro _ task vaddr vmap _ _ i _ e he
    rw [bootMemory_boot.entryAt] at he
    exact absurd he (by simp)
  have hops : Run.Along MemoryOp.step (fun s op => op.Legal s ∧ op.Safe s) bootMemory
      [.mmap 1 0x8000000 4096 3 2 none, .fork 1] :=
    ⟨⟨trivial, hsafe⟩, fun _ _ _ => ⟨⟨trivial, trivial⟩, fun _ _ _ => trivial⟩⟩
  exact ⟨t, ht, memoryRun_cow bootMemory_boot hops ht⟩

/-- What the run below comes to: the parent may write a page that the child has too. -/
def writesShared (t : Memory) : Prop :=
  t.pdeOf 1 = some 257 ∧ (t.mem 257 32).present = true ∧
    (t.mem (t.mem 257 32).index 0).present = true ∧ (t.mem (t.mem 257 32).index 0).write = true ∧
    (t.mem (t.mem 257 32).index 0).shared = false ∧
    4096 ≤ (t.mem (t.mem 257 32).index 0).index ∧
    t.memoryMap (t.mem (t.mem 257 32).index 0).index = 2

instance (t : Memory) : Decidable (writesShared t) := inferInstanceAs (Decidable (_ ∧ _))

/-- Mapping the same page again after the fork gives the parent the write bit back, while the
child still refers to the page. -/
theorem memoryRun_remap : ¬∀ ops t, Run.Along MemoryOp.step MemoryOp.Legal bootMemory ops →
    Run.exec MemoryOp.step bootMemory ops = some t → ∀ p, 4096 ≤ p → t.Protected p := by
  intro hall
  have hrun : (Run.exec MemoryOp.step bootMemory [.mmap 1 0x8000000 4096 3 2 none, .fork 1,
      .mmap 1 0x8000000 4096 3 2 none]).map (fun t => decide (writesShared t)) = some true := by
    decide +kernel
  obtain ⟨t, ht, hfacts⟩ := Option.map_eq_some_iff.mp hrun
  obtain ⟨hp, hdir, hpres, hw, hmark, hhigh, hcount⟩ := of_decide_eq_true hfacts
  have hplace : (1, 32, some 0) ∈ Memory.places :=
    Memory.page_mem_places.mpr ⟨by decide, by decide, by decide, by decide⟩
  have he := Memory.entryAt_page.mpr ⟨hplace, 257, hp, hdir, rfl, hpres⟩
  have hlegal : Run.Along MemoryOp.step MemoryOp.Legal bootMemory [.mmap 1 0x8000000 4096 3 2 none,
      .fork 1, .mmap 1 0x8000000 4096 3 2 none] :=
    ⟨trivial, fun _ _ _ => ⟨trivial, fun _ _ _ => ⟨trivial, fun _ _ _ => trivial⟩⟩⟩
  have hprot := hall _ t hlegal ht _ hhigh (by rw [hcount]; decide) ⟨_, _, he, rfl, hmark⟩ _ _ he rfl
  rw [hw] at hprot
  exact Bool.noConfusion hprot

end Onixs
