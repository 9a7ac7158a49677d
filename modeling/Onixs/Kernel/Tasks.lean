import Onixs.Kernel.AddressSpace
import Onixs.Kernel.KernelPages

/-!
# Making and undoing tasks

`task_fork`, `task_exit` and `task_waitpid` on the invariant of the memory manager,
`Onixs.Memory.Sound`: exact counters, kernel pages held once, and tasks whose heap and
mapping area are where they belong. What a fork does to the entries is
`Onixs.Memory.Forked`: the pages of parent and child are shared, all other entries stay.
-/

namespace Onixs

namespace Memory

/-- The heap and the mapping area of a user task. -/
structure Task.WF (task : Task) : Prop where
  /-- The program ends in user memory. -/
  endAddr : userExecAddr ≤ task.endAddr
  /-- The heap ends before the mapping area. -/
  brk : task.brk ≤ userMmapAddr
  /-- `vmap` starts with the mapping area. -/
  offset : task.vmap.offset = 32768
  /-- Its bits are in one page. -/
  size : task.vmap.size ≤ 4096

/-- **The invariant of the memory manager.** -/
structure Sound (s : Memory) : Prop where
  /-- Page tables and counters. -/
  exact : s.Exact
  /-- The kernel's own pages. -/
  marked : s.Marked s.held
  /-- The tasks. -/
  wf : ∀ {pid task}, s.running pid = some task → task.WF

/-! ### Running tasks -/

section Running

variable {s : Memory} {pid pde : ℕ} {task : Task}

theorem running_eq_some : s.running pid = some task ↔
    s.tasks pid = some task ∧ task.died = false ∧ task.pde ≠ kernelPageDir := by
  rw [running, Option.filter_eq_some_iff, Bool.and_eq_true, Bool.not_eq_true', bne_iff_ne]

theorem pdeOf_of_running (h : s.running pid = some task) : s.pdeOf pid = some task.pde := by
  rw [pdeOf, h]
  rfl

theorem pdeOf_eq_some : s.pdeOf pid = some pde ↔ ∃ task, s.running pid = some task ∧ task.pde = pde := by
  rw [pdeOf, Option.map_eq_some_iff]

theorem held_eq {a : ℕ × ℕ} (h : s.tasks a.1 = some task) : s.held a = task.kpages[a.2]? := by
  rw [held, h]
  rfl

theorem kpages_of_running (h : s.running pid = some task) :
    task.kpages = [task.page, task.pde, task.bits, task.pwd] := by
  obtain ⟨-, hdied, hpde⟩ := running_eq_some.mp h
  rw [Task.kpages, if_neg (by rw [hdied]; exact Bool.noConfusion), if_neg hpde]

/-- The pages of a task, by their kind. -/
theorem held_of_running (h : s.running pid = some task) (j : ℕ) :
    s.held (pid, j) = [task.page, task.pde, task.bits, task.pwd][j]? := by
  rw [held_eq (running_eq_some.mp h).1, kpages_of_running h]

/-- The directory of a task is one of the pages it holds. -/
theorem held_of_pdeOf (h : s.pdeOf pid = some pde) : s.held (pid, 1) = some pde := by
  obtain ⟨task, hrun, rfl⟩ := pdeOf_eq_some.mp h
  rw [held_of_running hrun]
  rfl

theorem tasks_setTask (c : ℕ) (v : Option Task) (pid : ℕ) :
    (s.setTask c v).tasks pid = if pid = c then v else s.tasks pid := rfl

theorem pdeOf_setTask_of_ne {c : ℕ} (v : Option Task) (h : pid ≠ c) :
    (s.setTask c v).pdeOf pid = s.pdeOf pid := by
  rw [pdeOf, pdeOf, running, running, tasks_setTask, if_neg h]

theorem running_setTask_self {c : ℕ} (v : Task) (h : v.died = false ∧ v.pde ≠ kernelPageDir) :
    (s.setTask c (some v)).running c = some v :=
  running_eq_some.mpr ⟨if_pos rfl, h⟩

theorem held_setTask_of_ne {c j : ℕ} (v : Option Task) (h : pid ≠ c) :
    (s.setTask c v).held (pid, j) = s.held (pid, j) := by
  rw [held, held, tasks_setTask, if_neg h]

end Running

/-! ### Entries by their place -/

section Entries

variable {s : Memory} {pid pde d t : ℕ}

theorem entryAt_of_notMem {r : Place} (h : r ∉ places) : s.entryAt r = none := if_neg h

theorem entryAt_dir_eq (hr : (pid, d, none) ∈ places) (hp : s.pdeOf pid = some pde) :
    s.entryAt (pid, d, none) = (s.mem pde d).get := by
  rw [entryAt, if_pos hr, hp, Option.bind_some]
  cases (s.mem pde d).get <;> rfl

theorem entryAt_page_eq (hr : (pid, d, some t) ∈ places) (hp : s.pdeOf pid = some pde)
    (hpres : (s.mem pde d).present = true) :
    s.entryAt (pid, d, some t) = (s.mem (s.mem pde d).index t).get := by
  rw [entryAt, if_pos hr, hp, Option.bind_some, PageEntry.get_of_present hpres, Option.bind_some]

theorem entryAt_page_absent (hp : s.pdeOf pid = some pde) (habs : (s.mem pde d).present = false) :
    s.entryAt (pid, d, some t) = none := by
  rw [entryAt, hp, Option.bind_some, PageEntry.get_of_absent habs]
  split <;> rfl

end Entries

/-! ### Fork -/

/-- **What a fork does to the entries.** -/
structure Forked (s u : Memory) (pid child : ℕ) : Prop where
  /-- The child is new. -/
  fresh : s.pdeOf child = none
  /-- The other tasks. -/
  other : ∀ r, r.1 ≠ pid → r.1 ≠ child → u.entryAt r = s.entryAt r
  /-- The directory of the parent. -/
  dir : ∀ d, u.entryAt (pid, d, none) = s.entryAt (pid, d, none)
  /-- The pages of the parent. -/
  page : ∀ d t, u.entryAt (pid, d, some t) = (s.entryAt (pid, d, some t)).map PageEntry.share
  /-- The pages of the child. -/
  copy : ∀ d t, u.entryAt (child, d, some t) = (s.entryAt (pid, d, some t)).map PageEntry.share

/-- The place of the child is free, and it is given a page. -/
theorem getFreeTask_cases {s s₁ : Memory} {child page : ℕ} (h : s.getFreeTask = some (child, page, s₁)) :
    child < 64 ∧ s.tasks child = none ∧ s.allocKpage 1 = some (page, s₁) := by
  rw [getFreeTask] at h
  obtain ⟨child', hfind, h⟩ := Option.bind_eq_some_iff.mp h
  obtain ⟨⟨page', s₁'⟩, hpage, h⟩ := Option.bind_eq_some_iff.mp h
  simp only [Option.pure_def, Option.some.injEq, Prod.mk.injEq] at h
  obtain ⟨rfl, rfl, rfl⟩ := h
  have hnone := List.find?_some hfind
  have hlt := List.mem_of_find?_eq_some hfind
  rw [List.mem_range, taskNumber_eq] at hlt
  exact ⟨hlt, Option.isNone_iff_eq_none.mp hnone, hpage⟩

/-- The steps of a fork. -/
theorem taskFork_cases {s u : Memory} {pid child : ℕ} (h : s.taskFork pid = some (child, u)) :
    ∃ task page bits pde pwd s₁ s₂ s₃ s₄ s₅, s.running pid = some task ∧ child < 64 ∧
      s.tasks child = none ∧ s.allocKpage 1 = some (page, s₁) ∧ s₁.allocKpage 1 = some (bits, s₂) ∧
      s₂.allocKpage 1 = some (pde, s₃) ∧
      copyTables task.pde pde 1019 4
        ((s₃.setFrame pde (s₃.mem task.pde)).setWord pde 1023 (entryInit pde)) = some s₄ ∧
      s₄.allocKpage 1 = some (pwd, s₅) ∧
      u = s₅.setTask child
        (some { task with page := page, bits := bits, pde := pde, pwd := pwd }) := by
  rw [taskFork] at h
  obtain ⟨task, hrun, h⟩ := Option.bind_eq_some_iff.mp h
  obtain ⟨⟨child', page, s₁⟩, hfree, h⟩ := Option.bind_eq_some_iff.mp h
  obtain ⟨⟨bits, s₂⟩, hbits, h⟩ := Option.bind_eq_some_iff.mp h
  obtain ⟨⟨pde, s₄⟩, hpde, h⟩ := Option.bind_eq_some_iff.mp h
  obtain ⟨⟨pwd, s₅⟩, hpwd, h⟩ := Option.bind_eq_some_iff.mp h
  obtain ⟨rfl, rfl⟩ := Prod.mk.inj (Option.some.inj h)
  obtain ⟨hlt, hnone, hpage⟩ := getFreeTask_cases hfree
  rw [copyPde] at hpde
  obtain ⟨⟨pde', s₃⟩, halloc, hpde⟩ := Option.bind_eq_some_iff.mp hpde
  obtain ⟨s₄', hcopy, hpde⟩ := Option.bind_eq_some_iff.mp hpde
  obtain ⟨rfl, rfl⟩ := Prod.mk.inj (Option.some.inj hpde)
  exact ⟨task, page, bits, pde', pwd, s₁, s₂, s₃, s₄', s₅, hrun, hlt, hnone, hpage, hbits, halloc, hcopy, hpwd, rfl⟩

section Fork

variable {s b v u : Memory} {pid cr3 child pde : ℕ} {T' : Place → Option ℕ}

/-- The new directory, before the loop of `copy_pde`. -/
theorem Exact.copying (h : s.Exact) (hp : s.pdeOf pid = some cr3) (hchild : s.pdeOf child = none)
    (hlt : child < 64) (hrange : 256 ≤ pde ∧ pde < 4096) (hfresh : ∀ pid', s.pdeOf pid' ≠ some pde)
    (htasks : b.tasks = s.tasks) (hmap : b.memoryMap = s.memoryMap)
    (htotal : b.totalPages = s.totalPages) (hmem : ∀ f, f ≠ pde → b.mem f = s.mem f)
    (hdir : ∀ d, d ≠ 1023 → b.mem pde d = s.mem cr3 d) :
    Copying b s.target pid cr3 child pde 4 := by
  have hpde : ∀ pid', b.pdeOf pid' = s.pdeOf pid' := fun pid' => by
    rw [pdeOf, pdeOf, running, running, htasks]
  have htab : b.Tables s.target := by
    refine (h.tables.of_loose hpde fun f => ?_).2
    rcases eq_or_ne f pde with rfl | hne
    · exact Or.inl (h.tables.loose_of_lt hrange.2 hfresh)
    · exact Or.inr (hmem f hne)
  have hne : cr3 ≠ pde := by
    rintro rfl
    exact hfresh pid hp
  refine ⟨htab, h.counts.congr hmap htotal, by rw [hpde]; exact hp, by rw [hpde]; exact hchild, hlt,
    hrange, fun pid' => by rw [hpde]; exact hfresh pid', fun d _ hd => ?_, fun d o _ => ?_⟩
  · rw [hdir d (by omega), hmem cr3 hne]
  · rw [target, entryAt_of_dead hchild]
    rfl

variable (h : s.Exact) (hb : Copying b s.target pid cr3 child pde 4)
  (hmem : ∀ f, f ≠ pde → b.mem f = s.mem f) (hpdes : ∀ pid', b.pdeOf pid' = s.pdeOf pid')
  (hc : Copied b s.target cr3 child pde 4 v T') (hv : u.mem = v.mem)
  (hchild : u.pdeOf child = some pde) (hother : ∀ pid', pid' ≠ child → u.pdeOf pid' = s.pdeOf pid')

include h hb hmem hpdes hc hv

/-- The directories of the other tasks, and of the parent, stay. -/
theorem Copied.dir_mem {pid' pde' : ℕ} (hp : s.pdeOf pid' = some pde') : u.mem pde' = s.mem pde' := by
  have hdir := (h.tables.dir hp).2
  have hne : pde' ≠ pde := by
    rintro rfl
    exact hb.pde_fresh pid' (by rw [hpdes]; exact hp)
  rw [hv, hc.kernel pde' hdir.2 (by omega) hne, hmem pde' hne]

/-- The tables of the parent are shared. -/
theorem Copied.table_share {d t : ℕ} (hd : 4 ≤ d ∧ d < 1023) (hpres : (s.mem cr3 d).present = true)
    (ht : t < 1024) :
    u.mem (s.mem cr3 d).index t = (s.mem (s.mem cr3 d).index t).share := by
  have hp : s.pdeOf pid = some cr3 := by rw [← hpdes]; exact hb.parent
  have hne : cr3 ≠ pde := by
    rintro rfl
    exact hb.pde_fresh pid hb.parent
  have hpde := hb.pde_range
  have hhigh := (h.tables.table_high hp hd hpres).2.2
  have hsh := hc.shared d hd.1 hd.2 (by rw [hmem cr3 hne]; exact hpres) t ht
  rw [hmem cr3 hne, hmem _ (by omega)] at hsh
  rw [hv, hsh]

/-- The tables of other tasks stay. -/
theorem Copied.table_other {pid' pde' d : ℕ} (hp : s.pdeOf pid' = some pde') (hne' : pid' ≠ pid)
    (hd : 4 ≤ d ∧ d < 1023) (hpres : (s.mem pde' d).present = true) :
    u.mem (s.mem pde' d).index = s.mem (s.mem pde' d).index := by
  have hp₀ : s.pdeOf pid = some cr3 := by rw [← hpdes]; exact hb.parent
  have hne : cr3 ≠ pde := by
    rintro rfl
    exact hb.pde_fresh pid hb.parent
  have hpde := hb.pde_range
  obtain ⟨-, hT, hhigh⟩ := h.tables.table_high hp hd hpres
  rw [hv, hc.frame _ _ hT fun d' hd' hd'' hpres' heq => ?_, hmem _ (by omega)]
  rw [hmem cr3 hne] at hpres' heq
  obtain ⟨-, hT', -⟩ := h.tables.table_high hp₀ ⟨hd', hd''⟩ hpres'
  rw [← heq] at hT'
  have hsame := h.tables.single hT' hT
  simp only [Prod.mk.injEq] at hsame
  exact hne' hsame.1

include hchild hother

/-- **The entries after `copy_pde`**, once the child is a task. -/
theorem Copied.forked : Forked s u pid child := by
  have hp : s.pdeOf pid = some cr3 := by rw [← hpdes]; exact hb.parent
  have hfresh : s.pdeOf child = none := by rw [← hpdes]; exact hb.child
  have hpc : pid ≠ child := by
    rintro rfl
    exact absurd (hp.symm.trans hfresh) (by simp)
  have hup : u.pdeOf pid = some cr3 := by rw [hother pid hpc]; exact hp
  have hcr3 := hc.dir_mem h hb hmem hpdes hv hp
  have hne : cr3 ≠ pde := by
    rintro rfl
    exact hb.pde_fresh pid hb.parent
  have hpid := (h.tables.dir hp).1
  refine ⟨hfresh, ?_, fun d => ?_, fun d t => ?_, fun d t => ?_⟩
  · rintro ⟨pid', d, o⟩ hpid' hpc'
    have hpde' := hother pid' hpc'
    by_cases hr : (pid', d, o) ∈ places
    swap
    · rw [entryAt_of_notMem hr, entryAt_of_notMem hr]
    obtain ⟨-, hd, hd', -⟩ := mem_places.mp hr
    cases hcase : s.pdeOf pid' with
    | none => rw [entryAt_of_dead hcase, entryAt_of_dead (hpde'.trans hcase)]
    | some pde' =>
      have hdir := hc.dir_mem h hb hmem hpdes hv hcase
      rw [hcase] at hpde'
      cases o with
      | none => rw [entryAt_dir_eq hr hcase, entryAt_dir_eq hr hpde', hdir]
      | some t =>
        cases hpres : (s.mem pde' d).present with
        | false =>
          rw [entryAt_page_absent hcase hpres, entryAt_page_absent hpde' (by rw [hdir]; exact hpres)]
        | true =>
          rw [entryAt_page_eq hr hcase hpres, entryAt_page_eq hr hpde' (by rw [hdir]; exact hpres), hdir,
            hc.table_other h hb hmem hpdes hv hcase hpid' ⟨hd, hd'⟩ hpres]
  · by_cases hr : (pid, d, none) ∈ places
    · rw [entryAt_dir_eq hr hp, entryAt_dir_eq hr hup, hcr3]
    · rw [entryAt_of_notMem hr, entryAt_of_notMem hr]
  · by_cases hr : (pid, d, some t) ∈ places
    swap
    · rw [entryAt_of_notMem hr, entryAt_of_notMem hr]
      rfl
    obtain ⟨-, hd, hd', ht⟩ := page_mem_places.mp hr
    cases hpres : (s.mem cr3 d).present with
    | false =>
      rw [entryAt_page_absent hp hpres, entryAt_page_absent hup (by rw [hcr3]; exact hpres)]
      rfl
    | true =>
      rw [entryAt_page_eq hr hp hpres, entryAt_page_eq hr hup (by rw [hcr3]; exact hpres), hcr3,
        hc.table_share h hb hmem hpdes hv ⟨hd, hd'⟩ hpres ht, PageEntry.share_get]
  · by_cases hr : (child, d, some t) ∈ places
    swap
    · rw [entryAt_of_notMem hr, entryAt_of_notMem]
      · rfl
      · rw [page_mem_places] at hr ⊢
        exact fun hc' => hr ⟨hb.child_lt, hc'.2⟩
    obtain ⟨-, hd, hd', ht⟩ := page_mem_places.mp hr
    have hr₀ : (pid, d, some t) ∈ places := page_mem_places.mpr ⟨hpid, hd, hd', ht⟩
    have hpde := hb.pde_range
    cases hpres : (s.mem cr3 d).present with
    | false =>
      have habs := (hc.absent d hd hd' (by rw [hmem cr3 hne]; exact hpres)).1
      rw [entryAt_page_absent hp hpres, entryAt_page_absent hchild (by rw [hv]; exact habs)]
      rfl
    | true =>
      obtain ⟨hpres', -, hpages⟩ := hc.present d hd hd' (by rw [hmem cr3 hne]; exact hpres)
      have hhigh := (h.tables.table_high hp ⟨hd, hd'⟩ hpres).2.2
      rw [entryAt_page_eq hr₀ hp hpres, entryAt_page_eq hr hchild (by rw [hv]; exact hpres'), hv,
        (hpages t ht).1, hmem cr3 hne, hmem _ (by omega), PageEntry.share_get]

/-- The references after `copy_pde` are those of its loop. -/
theorem Copied.target_eq : u.target = T' := by
  have hf := hc.forked h hb hmem hpdes hv hchild hother
  have hp : s.pdeOf pid = some cr3 := by rw [← hpdes]; exact hb.parent
  have hne : cr3 ≠ pde := by
    rintro rfl
    exact hb.pde_fresh pid hb.parent
  have hmap : ∀ x : Option PageEntry, (x.map PageEntry.share).map PageEntry.index = x.map PageEntry.index := by
    intro x
    rw [Option.map_map]
    exact congrFun (congrArg _ (funext PageEntry.share_index)) x
  have hnone : ∀ {r}, r ∉ places → T' r = none := fun {r} hr =>
    Option.eq_none_iff_forall_not_mem.mpr fun p hp => hr (hc.tables.high hp).1
  funext ⟨pid', d, o⟩
  rcases eq_or_ne pid' child with rfl | hpc
  · by_cases hr : (pid', d, o) ∈ places
    swap
    · rw [hnone hr, target, entryAt_of_notMem hr]
      rfl
    obtain ⟨-, hd, hd', ho⟩ := mem_places.mp hr
    cases hpres : (s.mem cr3 d).present with
    | false =>
      obtain ⟨habs, hT⟩ := hc.absent d hd hd' (by rw [hmem cr3 hne]; exact hpres)
      rw [hT o, target]
      cases o with
      | none => rw [entryAt_dir_eq hr hchild, hv, PageEntry.get_of_absent habs]; rfl
      | some t => rw [entryAt_page_absent hchild (by rw [hv]; exact habs)]; rfl
    | true =>
      obtain ⟨hpres', hT, hpages⟩ := hc.present d hd hd' (by rw [hmem cr3 hne]; exact hpres)
      cases o with
      | none =>
        rw [hT, target, entryAt_dir_eq hr hchild, hv, PageEntry.get_of_present hpres']
        rfl
      | some t =>
        have ht := ho t rfl
        have hhigh := (h.tables.table_high hp ⟨hd, hd'⟩ hpres).2.2
        have hpde := hb.pde_range
        have hr₀ : (pid, d, some t) ∈ places :=
          page_mem_places.mpr ⟨(h.tables.dir hp).1, hd, hd', ht⟩
        rw [(hpages t ht).2, target, hf.copy, hmap, entryAt_page_eq hr₀ hp hpres, hmem cr3 hne,
          hmem _ (by omega)]
  · have hT : T' (pid', d, o) = s.target (pid', d, o) := hc.other _ fun d' o' _ heq =>
      hpc (Prod.mk.inj heq).1
    rw [hT]
    rcases eq_or_ne pid' pid with rfl | hpid
    · cases o with
      | none => rw [target, target, hf.dir]
      | some t => rw [target, target, hf.page, hmap]
    · rw [target, target, hf.other _ hpid hpc]

/-- **Tables and counters after `copy_pde`.** -/
theorem Copied.exact (hself : b.mem pde 1023 = entryInit pde)
    (hzero : b.mem pde 0 = s.mem cr3 0) (hmap : u.memoryMap = v.memoryMap)
    (htotal : u.totalPages = v.totalPages) : u.Exact := by
  have htarget := hc.target_eq h hb hmem hpdes hv hchild hother
  have hp : s.pdeOf pid = some cr3 := by rw [← hpdes]; exact hb.parent
  have hpde := hb.pde_range
  have hcase : ∀ {pid' pde'}, u.pdeOf pid' = some pde' →
      (pid' = child ∧ pde' = pde) ∨ (pid' ≠ child ∧ s.pdeOf pid' = some pde') := by
    intro pid' pde' hp'
    rcases eq_or_ne pid' child with rfl | hne
    · exact Or.inl ⟨rfl, (Option.some.inj (hchild.symm.trans hp')).symm⟩
    · exact Or.inr ⟨hne, hother pid' hne ▸ hp'⟩
  have hno : ∀ pid', s.pdeOf pid' ≠ some pde := fun pid' => hpdes pid' ▸ hb.pde_fresh pid'
  refine ⟨⟨fun {pid' pde'} hp' => ?_, fun {pid' pid'' pde'} hp' hp'' => ?_, fun {pid' pde'} hp' => ?_,
    fun {pid' pde'} hp' => ?_, fun {r e} he => target_eq_some.mpr ⟨e, he, rfl⟩, ?_, ?_⟩, ?_⟩
  · rcases hcase hp' with ⟨rfl, rfl⟩ | ⟨-, hs⟩
    · exact ⟨hb.child_lt, hpde⟩
    · exact h.tables.dir hs
  · rcases hcase hp' with ⟨rfl, rfl⟩ | ⟨-, hs⟩
    · rcases hcase hp'' with ⟨rfl, -⟩ | ⟨-, hs'⟩
      · rfl
      · exact absurd hs' (hno pid'')
    · rcases hcase hp'' with ⟨rfl, rfl⟩ | ⟨-, hs'⟩
      · exact absurd hs (hno pid')
      · exact h.tables.inj hs hs'
  · rcases hcase hp' with ⟨rfl, rfl⟩ | ⟨-, hs⟩
    · rw [hv, hc.before 0 (by omega), hzero]
      exact h.tables.kernel hp
    · rw [hc.dir_mem h hb hmem hpdes hv hs]
      exact h.tables.kernel hs
  · rcases hcase hp' with ⟨rfl, rfl⟩ | ⟨-, hs⟩
    · rw [hv, hc.before 1023 (by omega), hself]
      exact ⟨entryInit_present _, entryInit_index (by omega)⟩
    · rw [hc.dir_mem h hb hmem hpdes hv hs]
      exact h.tables.last hs
  · rw [htarget]
    exact hc.tables.high
  · rw [htarget]
    exact hc.tables.single
  · rw [htarget]
    exact hc.counts.congr hmap htotal

end Fork

/-- The pages a task in the making holds do not concern the others. -/
theorem update_held_of_ne {K : ℕ × ℕ → Option ℕ} {c j : ℕ} {v : Option ℕ} {a : ℕ × ℕ} (h : a.1 ≠ c) :
    Function.update K (c, j) v a = K a :=
  Function.update_of_ne (fun heq => h (congrArg Prod.fst heq)) _ _

/-- What the child of a fork holds is what was taken for it. -/
theorem held_forked {s u : Memory} {child : ℕ} {task : Task} (hfree : s.tasks child = none)
    (htasks : ∀ pid, u.tasks pid = if pid = child then some task else s.tasks pid)
    (hlive : task.died = false ∧ task.pde ≠ kernelPageDir) :
    u.held = Function.update (Function.update (Function.update (Function.update s.held (child, 0) (some task.page))
      (child, 2) (some task.bits)) (child, 1) (some task.pde)) (child, 3) (some task.pwd) := by
  have hrun : u.running child = some task := running_eq_some.mpr ⟨(htasks child).trans (if_pos rfl), hlive⟩
  have hheld : ∀ j, s.held (child, j) = none := fun j => by
    rw [held, hfree]
    rfl
  funext a
  obtain ⟨pid, j⟩ := a
  rcases eq_or_ne pid child with rfl | hne
  · rw [held_of_running hrun]
    rcases j with _ | _ | _ | _ | j
    · simp
    · simp
    · simp
    · simp
    · simp [hheld]
  · rw [update_held_of_ne hne, update_held_of_ne hne, update_held_of_ne hne, update_held_of_ne hne, held, held,
      htasks, if_neg hne]

/-- The first two pages of a child. -/
theorem Sound.taskPages {s s₁ s₂ : Memory} {child page bits : ℕ} (h : s.Sound) (hfree : s.tasks child = none)
    (hpage : s.allocKpage 1 = some (page, s₁)) (hbits : s₁.allocKpage 1 = some (bits, s₂)) :
    (∃ m, s₂ = { s with kernelMap := m }) ∧
      s₂.Marked (Function.update (Function.update s.held (child, 0) (some page)) (child, 2) (some bits)) := by
  have hheld : ∀ j, s.held (child, j) = none := fun j => by rw [held, hfree]; rfl
  obtain ⟨-, -, -, hm₁, m₁, rfl⟩ := h.marked.allocKpage (a := (child, 0)) (hheld 0) hpage
  obtain ⟨-, -, -, hm₂, m₂, rfl⟩ := hm₁.allocKpage (a := (child, 2))
    (by rw [Function.update_of_ne (by simp)]; exact hheld 2) hbits
  exact ⟨⟨m₂, rfl⟩, hm₂⟩

section Forking

variable {s s₂ s₃ : Memory} {pid child page bits pde : ℕ} {task : Task} {m₂ : Bitmap} (h : s.Sound)
  (hrun : s.running pid = some task) (hlt : child < 64) (hfree : s.tasks child = none)
  (hs₂ : s₂ = { s with kernelMap := m₂ })
  (hm₂ : s₂.Marked (Function.update (Function.update s.held (child, 0) (some page)) (child, 2) (some bits)))
  (halloc : s₂.allocKpage 1 = some (pde, s₃))

include h hrun hlt hfree hs₂ hm₂ halloc

/-- **A fork before its loop**: two kernel pages have been taken for the child, and a third one is a copy of the
parent's directory. -/
theorem Sound.forking {b : Memory} (hb : b = (s₃.setFrame pde (s₃.mem task.pde)).setWord pde 1023 (entryInit pde)) :
    (∃ m, s₃ = { s with kernelMap := m }) ∧
      s₃.Marked (Function.update (Function.update (Function.update s.held (child, 0) (some page))
        (child, 2) (some bits)) (child, 1) (some pde)) ∧ Copying b s.target pid task.pde child pde 4 := by
  have hp := pdeOf_of_running hrun
  have hchild : s.pdeOf child = none := by rw [pdeOf, running, hfree]; rfl
  have hheld : ∀ j, s.held (child, j) = none := fun j => by rw [held, hfree]; rfl
  obtain ⟨hlo, hhi, hfresh, hm₃, m₃, rfl⟩ := hm₂.allocKpage (a := (child, 1))
    (by rw [Function.update_of_ne (by simp), Function.update_of_ne (by simp)]; exact hheld 1) halloc
  subst hs₂
  have hnodir : ∀ pid', s.pdeOf pid' ≠ some pde := by
    intro pid' hp'
    have hne : pid' ≠ child := by
      rintro rfl
      exact absurd (hp'.symm.trans hchild) (by simp)
    refine hfresh (pid', 1) ?_
    rw [update_held_of_ne hne, update_held_of_ne hne]
    exact held_of_pdeOf hp'
  refine ⟨⟨m₃, rfl⟩, hm₃, h.exact.copying hp hchild hlt ⟨hlo, hhi⟩ hnodir (by rw [hb]; rfl) (by rw [hb]; rfl)
    (by rw [hb]; rfl) (fun f hf => ?_) fun d hd => ?_⟩
  · rw [hb]
    exact (funext fun j => if_neg fun hc => hf hc.1).trans (if_neg hf)
  · rw [hb]
    exact (if_neg fun hc => hd hc.2).trans (congrFun (if_pos rfl) d)

/-- **A fork keeps the invariant**, whatever else has been marked in `kernel_map` between its calls of
`alloc_kpage`. -/
theorem Sound.forked {s₄ s₅ u : Memory} {pwd : ℕ} (hcopy : copyTables task.pde pde 1019 4
      ((s₃.setFrame pde (s₃.mem task.pde)).setWord pde 1023 (entryInit pde)) = some s₄)
    (hpwd : s₄.allocKpage 1 = some (pwd, s₅))
    (hu : u = s₅.setTask child (some { task with page := page, bits := bits, pde := pde, pwd := pwd })) :
    u.Sound ∧ Forked s u pid child := by
  obtain ⟨b, hb⟩ : ∃ b, b = (s₃.setFrame pde (s₃.mem task.pde)).setWord pde 1023 (entryInit pde) := ⟨_, rfl⟩
  obtain ⟨⟨m₃, rfl⟩, hm₃, hcopying⟩ := h.forking hrun hlt hfree hs₂ hm₂ halloc hb
  rw [← hb] at hcopy
  have hheld : ∀ j, s.held (child, j) = none := fun j => by rw [held, hfree]; rfl
  have hrange := hcopying.pde_range
  -- the directory is copied
  have hmem : ∀ f, f ≠ pde → b.mem f = s.mem f := fun f hf => by
    rw [hb]
    exact (funext fun j => if_neg fun hc => hf hc.1).trans (if_neg hf)
  have hdir : ∀ d, d ≠ 1023 → b.mem pde d = s.mem task.pde d := fun d hd => by
    rw [hb]
    exact (if_neg fun hc => hd hc.2).trans (congrFun (if_pos rfl) d)
  have hself : b.mem pde 1023 = entryInit pde := by
    rw [hb]
    exact if_pos ⟨rfl, rfl⟩
  have hpdes : ∀ pid', b.pdeOf pid' = s.pdeOf pid' := fun pid' => by rw [hb]; rfl
  obtain ⟨T', hc⟩ := copyTables_spec 1019 4 b s₄ s.target rfl (le_refl 4) hcopying hcopy
  obtain ⟨-, -, -, hm₅, m₅, rfl⟩ := (hm₃.congr (t := s₄)
    (by rw [hc.same.kernelMap, hb]; rfl)).allocKpage (a := (child, 3)) (by
      rw [Function.update_of_ne (by simp), Function.update_of_ne (by simp),
        Function.update_of_ne (by simp)]
      exact hheld 3) hpwd
  obtain ⟨task', htask'⟩ : ∃ task' : Task,
      task' = { task with page := page, bits := bits, pde := pde, pwd := pwd } := ⟨_, rfl⟩
  rw [← htask'] at hu
  have hdied : task'.died = false ∧ task'.pde ≠ kernelPageDir := by
    rw [htask', kernelPageDir]
    exact ⟨(running_eq_some.mp hrun).2.1, by simp only; omega⟩
  have htasks : ∀ pid', u.tasks pid' = if pid' = child then some task' else s.tasks pid' := by
    intro pid'
    rw [hu, tasks_setTask]
    refine congrArg (ite (pid' = child) (some task')) (congrFun (hc.same.tasks.trans ?_) pid')
    rw [hb]
    rfl
  have hrunc : u.running child = some task' :=
    running_eq_some.mpr ⟨(htasks child).trans (if_pos rfl), hdied⟩
  have hruno : ∀ pid', pid' ≠ child → u.running pid' = s.running pid' := fun pid' hne' => by
    rw [running, running, htasks, if_neg hne']
  have hpdec : u.pdeOf child = some pde := by
    rw [pdeOf_of_running hrunc, htask']
  have hpdeo : ∀ pid', pid' ≠ child → u.pdeOf pid' = s.pdeOf pid' := fun pid' hne' => by
    rw [pdeOf, pdeOf, hruno pid' hne']
  have hv : u.mem = s₄.mem := by rw [hu]; rfl
  refine ⟨⟨hc.exact h.exact hcopying hmem hpdes hv hpdec hpdeo hself (hdir 0 (by decide))
    (by rw [hu]; rfl) (by rw [hu]; rfl), ?_, fun {pid' v} hv' => ?_⟩,
    hc.forked h.exact hcopying hmem hpdes hv hpdec hpdeo⟩
  · rw [held_forked hfree htasks hdied, htask']
    exact hm₅.congr (by rw [hu]; rfl)
  · rcases eq_or_ne pid' child with rfl | hne'
    · have hwf := h.wf hrun
      rw [hrunc] at hv'
      rw [← Option.some.inj hv', htask']
      exact ⟨hwf.endAddr, hwf.brk, hwf.offset, hwf.size⟩
    · rw [hruno pid' hne'] at hv'
      exact h.wf hv'

end Forking

/-- **`task_fork` keeps the invariant.** -/
theorem Sound.taskFork {s u : Memory} {pid child : ℕ} (h : s.Sound)
    (hfork : s.taskFork pid = some (child, u)) : u.Sound ∧ Forked s u pid child := by
  obtain ⟨task, page, bits, pde, pwd, s₁, s₂, s₃, s₄, s₅, hrun, hlt, hfree, hpage, hbits, halloc, hcopy,
    hpwd, hu⟩ := taskFork_cases hfork
  obtain ⟨⟨m₂, hs₂⟩, hm₂⟩ := h.taskPages hfree hpage hbits
  exact h.forked hrun hlt hfree hs₂ hm₂ halloc hcopy hpwd hu

/-! ### Exit -/

/-- **Entries of one task are gone**, all others stay. -/
structure Exited (s u : Memory) (pid : ℕ) : Prop where
  /-- The task is no longer one. -/
  dead : u.pdeOf pid = none
  /-- The other tasks. -/
  other : ∀ r, r.1 ≠ pid → u.entryAt r = s.entryAt r

section Exit

variable {s t u : Memory} {pid : ℕ} {task : Task}

/-- The state after the first statement of `task_exit`. -/
theorem Exact.leaving (h : s.Exact) (hrun : s.running pid = some task)
    (ht : t = s.setTask pid (some { task with died := true })) :
    Leaving t s.target pid task.pde 4 ∧ Exited s t pid := by
  have hp := pdeOf_of_running hrun
  have hdead : t.pdeOf pid = none := by
    rw [ht, pdeOf, running, tasks_setTask, if_pos rfl]
    rfl
  have hother : ∀ pid', pid' ≠ pid → t.pdeOf pid' = s.pdeOf pid' := fun pid' hne => by
    rw [ht, pdeOf_setTask_of_ne _ hne]
  have hmem : t.mem = s.mem := by rw [ht]; rfl
  have hlive : ∀ {pid' pde}, t.pdeOf pid' = some pde → s.pdeOf pid' = some pde := by
    intro pid' pde hp'
    rcases eq_or_ne pid' pid with rfl | hne
    · exact absurd (hp'.symm.trans hdead) (by simp)
    · rwa [← hother pid' hne]
  have hent : ∀ r, r.1 ≠ pid → t.entryAt r = s.entryAt r := fun r hr => by
    rw [entryAt, entryAt, hother r.1 hr, hmem]
  refine ⟨⟨⟨fun hp' => h.tables.dir (hlive hp'), fun hp' hp'' => h.tables.inj (hlive hp') (hlive hp''),
    fun hp' => by rw [hmem]; exact h.tables.kernel (hlive hp'),
    fun hp' => by rw [hmem]; exact h.tables.last (hlive hp'), fun {r e} he => ?_, h.tables.high,
    h.tables.single⟩, h.counts.congr (by rw [ht]; rfl) (by rw [ht]; rfl), hdead,
    by rw [hmem]; exact h.tables.last hp, fun d hd hd' habs o => ?_, fun d hd hd' hpres => ?_⟩,
    hdead, hent⟩
  · rcases eq_or_ne r.1 pid with heq | hne
    · rw [entryAt, heq, hdead] at he
      split at he
      · exact absurd he (by simp)
      · exact absurd he (by simp)
    · rw [hent r hne] at he
      exact h.tables.refs he
  · rw [hmem] at habs
    rw [target]
    cases o with
    | none =>
      rw [entryAt_dir_eq (dir_mem_places.mpr ⟨(h.tables.dir hp).1, hd, hd'⟩) hp,
        PageEntry.get_of_absent habs]
      rfl
    | some i => rw [entryAt_page_absent hp habs]; rfl
  · rw [hmem] at hpres ⊢
    obtain ⟨-, hT, -⟩ := h.tables.table_high hp ⟨hd, hd'⟩ hpres
    refine ⟨hT, fun i hi => ?_⟩
    rw [target, entryAt_page_eq (page_mem_places.mpr ⟨(h.tables.dir hp).1, hd, hd', hi⟩) hp hpres]

/-- **`free_pde` gives all references of the task back.** -/
theorem Exact.freePde (h : s.Exact) (hrun : s.running pid = some task)
    (ht : t = s.setTask pid (some { task with died := true })) (hfree : t.freePde task = some u) :
    ∃ v, v.freeKpage task.pde 1 = some u ∧ v.Exact ∧ OnlyCounts t v ∧ Exited s v pid := by
  obtain ⟨hleave, hexit⟩ := h.leaving hrun ht
  rw [Memory.freePde] at hfree
  obtain ⟨_, -, hfree⟩ := Option.bind_eq_some_iff.mp hfree
  obtain ⟨pde, hwalk, htail⟩ := Option.bind_eq_some_iff.mp hfree
  obtain ⟨v, hput, hkpage⟩ := Option.bind_eq_some_iff.mp htail
  have hpde : pde = task.pde := by
    obtain ⟨-, -, hidx⟩ := walk_eq_some.mp hwalk
    have hd : didx pdeAddr = 1023 := by decide
    have hi : tidx pdeAddr = 1023 := by decide
    rw [hd, hi, hleave.last.2, hleave.last.2] at hidx
    exact hidx.symm
  subst hpde
  obtain ⟨T', hrel⟩ := putTables_spec 1019 4 t v s.target rfl hleave hput
  have hdead : v.pdeOf pid = none := by rw [hrel.only.pdeOf]; exact hexit.dead
  have hent : ∀ r, r.1 ≠ pid → v.entryAt r = s.entryAt r := fun r hr => by
    rw [hrel.only.entryAt]
    exact hexit.other r hr
  have htarget : v.target = T' := by
    funext ⟨pid', d, o⟩
    rcases eq_or_ne pid' pid with rfl | hne
    · rw [target, entryAt_of_dead hdead]
      by_cases hd : 4 ≤ d
      · exact (hrel.gone _ ⟨rfl, hd⟩).symm
      · refine (Option.eq_none_iff_forall_not_mem.mpr fun p hp => hd ?_).symm
        exact (mem_places.mp (hrel.tables.high hp).1).2.1
    · rw [hrel.other _ fun hc => hne hc.1, target, target, hent _ hne]
  refine ⟨v, hkpage, ⟨?_, ?_⟩, hrel.only, hdead, hent⟩
  · rw [htarget]
    exact hrel.tables
  · rw [htarget]
    exact hrel.counts

/-- A store in the kernel's bitmap changes no entry. -/
theorem Exact.congr_map (h : s.Exact) (map : Bitmap) :
    ({ s with kernelMap := map } : Memory).Exact :=
  ⟨(h.tables.of_loose (u := { s with kernelMap := map }) (fun _ => rfl) fun _ => Or.inr rfl).2,
    h.counts.congr rfl rfl⟩

/-- A task that exits keeps the page of its `task_t` only. -/
theorem held_exited (hrun : s.running pid = some task)
    (htasks : ∀ pid', u.tasks pid' = if pid' = pid then some { task with died := true } else s.tasks pid') :
    u.held = Function.update (Function.update (Function.update s.held (pid, 1) none) (pid, 2) none) (pid, 3) none := by
  have hheld := held_of_running hrun
  funext a
  obtain ⟨pid', j⟩ := a
  rcases eq_or_ne pid' pid with rfl | hne
  · rw [held_eq (a := (pid', j)) ((htasks pid').trans (if_pos rfl))]
    rcases j with _ | _ | _ | _ | j
    · simp [Task.kpages, hheld]
    · simp [Task.kpages]
    · simp [Task.kpages]
    · simp [Task.kpages]
    · simp [Task.kpages, hheld]
  · rw [update_held_of_ne hne, update_held_of_ne hne, update_held_of_ne hne, held, held, htasks, if_neg hne]

/-- **A task that leaves keeps the invariant**, once its pages have been given back. -/
theorem Sound.exited {v : Memory} {m : Bitmap} (h : s.Sound) (hrun : s.running pid = some task) (hexact : v.Exact)
    (honly : OnlyCounts (s.setTask pid (some { task with died := true })) v) (hout : Exited s v pid)
    (hu : u = { v with kernelMap := m }) (hm : u.Marked (Function.update (Function.update
      (Function.update s.held (pid, 1) none) (pid, 2) none) (pid, 3) none)) : u.Sound ∧ Exited s u pid := by
  have htasks : ∀ pid', u.tasks pid' = if pid' = pid then some { task with died := true }
      else s.tasks pid' := fun pid' => by
    rw [hu]
    exact congrFun honly.tasks pid'
  subst hu
  refine ⟨⟨hexact.congr_map m, ?_, fun {pid' task'} hrun' => ?_⟩, hout.dead, hout.other⟩
  · rw [held_exited hrun htasks]
    exact hm
  · rw [running_eq_some, htasks] at hrun'
    rcases eq_or_ne pid' pid with rfl | hne
    · rw [if_pos rfl] at hrun'
      obtain rfl := Option.some.inj hrun'.1
      exact absurd hrun'.2.1 Bool.noConfusion
    · rw [if_neg hne] at hrun'
      exact h.wf (running_eq_some.mpr hrun')

/-- **`task_exit` keeps the invariant.** -/
theorem Sound.taskExit (h : s.Sound) (hexit : s.taskExit pid = some u) :
    u.Sound ∧ Exited s u pid := by
  rw [Memory.taskExit] at hexit
  obtain ⟨task, hrun, hexit⟩ := Option.bind_eq_some_iff.mp hexit
  obtain ⟨s₁, hfree, hexit⟩ := Option.bind_eq_some_iff.mp hexit
  obtain ⟨s₂, hbits, hpwd⟩ := Option.bind_eq_some_iff.mp hexit
  obtain ⟨v, hpde, hexact, honly, hout⟩ := h.exact.freePde hrun rfl hfree
  have hheld := held_of_running hrun
  have hmv : v.Marked s.held := h.marked.congr (by rw [honly.kernelMap]; rfl)
  obtain ⟨hm₁, m₁, rfl⟩ := hmv.freeKpage (a := (pid, 1)) (by rw [hheld]; rfl) hpde
  obtain ⟨hm₂, m₂, rfl⟩ := hm₁.freeKpage (a := (pid, 2))
    (by rw [Function.update_of_ne (by simp), hheld]; rfl) hbits
  obtain ⟨hm₃, m₃, hu⟩ := hm₂.freeKpage (a := (pid, 3))
    (by rw [Function.update_of_ne (by simp), Function.update_of_ne (by simp), hheld]; rfl) hpwd
  exact h.exited hrun hexact honly hout hu hm₃

/-- The page of a dead task is the last it held. -/
theorem held_reaped (htask : s.tasks pid = some task) (hdied : task.died = true)
    (htasks : ∀ pid', u.tasks pid' = if pid' = pid then none else s.tasks pid') :
    u.held = Function.update s.held (pid, 0) none := by
  have hheld : ∀ j, s.held (pid, j) = [task.page][j]? := fun j => by
    rw [held_eq htask, Task.kpages, if_pos hdied]
  funext a
  obtain ⟨pid', j⟩ := a
  rcases eq_or_ne pid' pid with rfl | hne
  · rw [held, htasks, if_pos rfl]
    cases j with
    | zero => simp
    | succ j => simp [hheld]
  · rw [update_held_of_ne hne, held, held, htasks, if_neg hne]

/-- **Reaping a dead child keeps the invariant**, and the entries. -/
theorem Sound.taskReap (h : s.Sound) (hreap : s.taskReap pid = some u) :
    u.Sound ∧ u.entryAt = s.entryAt := by
  rw [Memory.taskReap] at hreap
  obtain ⟨task, htask, hreap⟩ := Option.bind_eq_some_iff.mp hreap
  obtain ⟨_, hdied, hfree⟩ := Option.bind_eq_some_iff.mp hreap
  rw [assert_eq_some] at hdied
  have hheld : ∀ j, s.held (pid, j) = [task.page][j]? := fun j => by
    rw [held_eq htask, Task.kpages, if_pos hdied]
  have hrun : ∀ pid', (s.setTask pid none).running pid' = s.running pid' := by
    intro pid'
    rw [running, running, tasks_setTask]
    rcases eq_or_ne pid' pid with rfl | hne
    · rw [if_pos rfl, htask]
      exact (if_neg (by simp [hdied])).symm
    · rw [if_neg hne]
  have hpdes : ∀ pid', (s.setTask pid none).pdeOf pid' = s.pdeOf pid' := fun pid' => by
    rw [pdeOf, pdeOf, hrun]
  obtain ⟨hent, htab⟩ := h.exact.tables.of_loose hpdes fun _ => Or.inr rfl
  have hm : (s.setTask pid none).Marked s.held := h.marked.congr rfl
  obtain ⟨hm', m, rfl⟩ := hm.freeKpage (a := (pid, 0)) (by rw [hheld]; rfl) hfree
  have hexact : (s.setTask pid none).Exact := by
    have htarget : (s.setTask pid none).target = s.target := by
      funext r
      rw [target, target, hent]
    refine ⟨?_, ?_⟩
    · rw [htarget]
      exact htab
    · rw [htarget]
      exact h.exact.counts.congr rfl rfl
  refine ⟨⟨hexact.congr_map m, ?_, fun {pid' task'} hrun' => h.wf ((hrun pid').symm.trans hrun')⟩, hent⟩
  rw [held_reaped (u := { s.setTask pid none with kernelMap := m }) htask hdied fun _ => rfl]
  exact hm'

end Exit

end Memory

end Onixs
