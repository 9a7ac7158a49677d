import Onixs.Kernel.Twins

/-!
# What a process finds in a fresh page

`get_page` hands out a page frame as it is, and neither `link_page` nor `sys_mmap` clears it: of all frames that are
taken, only page tables are cleared, by `get_pte`. So a process that gets a page may find there what another process
has left. The history of a run is followed here for the words that one process `A` has stored in its own pages
(`Onixs.Traced`): a word is marked until something else is stored over it. As long as no page that is mapped for a
process `B` holds a marked word (`Onixs.GivesClean`), `B` reads the same in every other run that differs in what `A`
stored (`Onixs.freshPages_same`); a single page that is not clean gives it away (`Onixs.freshPages_leak`).
-/

namespace Onixs

namespace Memory

/-! ### What stays where it is -/

/-- No place moves to another page. -/
def Stays (s t : Memory) : Prop := ∀ r g f, s.target r = some g → t.target r = some f → f = g

section Stays

variable {s t u : Memory} {pid : ℕ}

theorem Stays.of_keep (h : ∀ r g, s.target r = some g → t.target r = some g) : Stays s t :=
  fun r g _ hg hf => Option.some.inj (hf.symm.trans (h r g hg))

theorem Stays.of_target (h : t.target = s.target) : Stays s t :=
  .of_keep fun r g hg => by rw [h, hg]

theorem Stays.of_entryAt (h : t.entryAt = s.entryAt) : Stays s t :=
  .of_target (funext fun r => by rw [target, target, h])

theorem Shrunk.stays (h : Shrunk s t) : Stays s t := by
  intro r g f hg hf
  obtain ⟨e, he, rfl⟩ := target_eq_some.mp hf
  exact Option.some.inj ((target_eq_some.mpr ⟨e, h he, rfl⟩).symm.trans hg)

theorem Grown.target (h : Grown s t) {r : Place} {g : ℕ} (hg : s.target r = some g) : t.target r = some g := by
  obtain ⟨e, he, rfl⟩ := target_eq_some.mp hg
  exact target_eq_some.mpr ⟨e, h.keep he, rfl⟩

theorem Forked.stays {child : ℕ} (h : Forked s t pid child) : Stays s t := by
  refine .of_keep fun r g hg => ?_
  obtain ⟨q, d, o⟩ := r
  obtain ⟨e, he, rfl⟩ := target_eq_some.mp hg
  have hne : q ≠ child := by
    rintro rfl
    rw [entryAt_of_dead h.fresh] at he
    exact absurd he (by simp)
  by_cases hq : q = pid
  · subst hq
    cases o with
    | none => exact target_eq_some.mpr ⟨e, by rw [h.dir]; exact he, rfl⟩
    | some i => exact target_eq_some.mpr ⟨e.share, by rw [h.page, he]; rfl, e.share_index⟩
  · exact target_eq_some.mpr ⟨e, by rw [h.other _ hq hne]; exact he, rfl⟩

theorem Exited.stays (h : Exited s t pid) : Stays s t := by
  intro r g f hg hf
  have hne : r.1 ≠ pid := by
    intro heq
    obtain ⟨e, he, -⟩ := target_eq_some.mp hf
    rw [← heq] at h
    rw [entryAt_of_dead h.dead] at he
    exact absurd he (by simp)
  rw [target, h.other r hne] at hf
  exact Option.some.inj (hf.symm.trans hg)

/-- The loop of `sys_mmap` maps fresh pages and changes flags. -/
theorem Sound.mapPages_target {task : Task} {prot flags : ℕ} : ∀ (left page : ℕ) (s t : Memory) (vmap vmap' : Bitmap),
    s.Sound → s.running pid = some task → vmap.offset = 32768 → vmap.size ≤ 4096 →
    Memory.mapPages task.pde prot flags left page s vmap = some (t, vmap') →
      ∀ r g, s.target r = some g → t.target r = some g := by
  intro left
  induction left with
  | zero =>
    intro page s t vmap vmap' _ _ _ _ hloop r g hg
    obtain ⟨rfl, -⟩ := Prod.mk.inj (Option.some.inj hloop)
    exact hg
  | succ left ih =>
    intro page s t vmap vmap' h hrun hoff hsize hloop r g hg
    rw [Memory.mapPages] at hloop
    obtain ⟨u, hlink, hloop⟩ := Option.bind_eq_some_iff.mp hloop
    obtain ⟨map, hset, hloop⟩ := Option.bind_eq_some_iff.mp hloop
    obtain ⟨⟨table, v⟩, hget, htail⟩ := Option.bind_eq_some_iff.mp hloop
    obtain ⟨hlo, hlt, hmap⟩ := bitmapSet_eq_some hset
    rw [hoff] at hlo hlt
    obtain ⟨-, -, hd⟩ := didx_vmap hlo hlt hsize
    obtain ⟨rfl, hgrown, hsame, -, hsound, e, he, hent⟩ :=
      Sound.mapPage h hrun hd hlink hget
    refine ih _ _ t map vmap' hsound (hsame.running pid ▸ hrun) (by rw [hmap]; exact hoff)
      (by rw [hmap]; exact hsize) htail r g ?_
    have hv := hgrown.target hg
    by_cases hr : r = placeOf pid page
    · rw [hr, target_eq_some] at hv
      obtain ⟨e', he', rfl⟩ := hv
      obtain rfl := Option.some.inj (he.symm.trans he')
      rw [hr, target, hent, Function.update_self]
      rfl
    · rw [target, hent, Function.update_of_ne hr]
      exact hv

/-- **A step other than a fault moves no page.** -/
theorem Sound.step_stays {op : MemoryOp} (h : s.Sound) (hlegal : op.Legal s) {r : Unit}
    (hstep : op.step s = some (r, t)) (hop : ∀ pid vaddr present write, op ≠ .fault pid vaddr present write) :
    Stays s t := by
  cases op with
  | fork pid =>
    obtain ⟨⟨child, u⟩, hfork, heq⟩ := Option.map_eq_some_iff.mp hstep
    obtain ⟨-, rfl⟩ := Prod.mk.inj heq
    exact (h.taskFork hfork).2.stays
  | exit pid =>
    obtain ⟨u, hexit, heq⟩ := Option.map_eq_some_iff.mp hstep
    obtain ⟨-, rfl⟩ := Prod.mk.inj heq
    exact (h.taskExit hexit).2.stays
  | reap child =>
    obtain ⟨u, hreap, heq⟩ := Option.map_eq_some_iff.mp hstep
    obtain ⟨-, rfl⟩ := Prod.mk.inj heq
    exact .of_entryAt (h.taskReap hreap).2
  | brk pid addr =>
    obtain ⟨⟨ok, u⟩, hcall, heq⟩ := Option.map_eq_some_iff.mp hstep
    obtain ⟨-, rfl⟩ := Prod.mk.inj heq
    exact Shrunk.stays (h.sysBrk hcall).2.1
  | mmap pid addr length prot flags file =>
    obtain ⟨⟨vaddr, u⟩, hcall, heq⟩ := Option.map_eq_some_iff.mp hstep
    obtain ⟨-, rfl⟩ := Prod.mk.inj heq
    obtain ⟨-, -, task, vmap, vmap', v, hrun, -, hoff, hsize, hloop, hent⟩ := h.sysMmap hcall
    refine .of_keep fun r g hg => ?_
    rw [target, hent]
    exact Sound.mapPages_target _ vaddr s v vmap vmap' h hrun hoff hsize hloop r g hg
  | munmap pid addr length =>
    obtain ⟨u, hcall, heq⟩ := Option.map_eq_some_iff.mp hstep
    obtain ⟨-, rfl⟩ := Prod.mk.inj heq
    exact Shrunk.stays (h.sysMunmap hcall).2.1
  | fault pid vaddr present write => exact absurd rfl (hop pid vaddr present write)
  | link pid vaddr =>
    obtain ⟨task, hrun, hmap⟩ := Option.bind_eq_some_iff.mp hstep
    obtain ⟨u, hlink, heq⟩ := Option.map_eq_some_iff.mp hmap
    obtain ⟨-, rfl⟩ := Prod.mk.inj heq
    obtain ⟨-, -, hgrown, -⟩ := h.linkPage hrun (didx_user hlegal.1 hlegal.2) hlink
    exact .of_keep fun _ _ hg => hgrown.target hg
  | unlink pid vaddr =>
    obtain ⟨task, hrun, hmap⟩ := Option.bind_eq_some_iff.mp hstep
    obtain ⟨u, hunlink, heq⟩ := Option.map_eq_some_iff.mp hmap
    obtain ⟨-, rfl⟩ := Prod.mk.inj heq
    exact Shrunk.stays (h.unlinkPage hrun (didx_user hlegal.1 hlegal.2) hunlink).2.2.1
  | store pid vaddr word =>
    obtain ⟨u, hstore, heq⟩ := Option.map_eq_some_iff.mp hstep
    obtain ⟨-, rfl⟩ := Prod.mk.inj heq
    exact .of_entryAt (h.store (didx_user hlegal.1 hlegal.2) hstore).2.1

end Stays

/-- A fault moves the page at its own address at most, to a frame that nothing refers to. -/
theorem Sound.pageFault_target {s t : Memory} {pid vaddr : ℕ} {present write : Bool} (h : s.Sound)
    (hlo : userExecAddr ≤ vaddr) (hhi : vaddr < userStackTop) (hfault : s.pageFault pid vaddr present write = some t) :
    (∀ r, r ≠ placeOf pid vaddr → ∀ g, s.target r = some g → t.target r = some g) ∧
      ∀ g f, s.target (placeOf pid vaddr) = some g → t.target (placeOf pid vaddr) = some f →
        f = g ∨ ∀ r, s.target r ≠ some f := by
  obtain ⟨-, -, hgrown | ⟨e, e', he, -, hent, hcase⟩⟩ := h.pageFault hlo hhi hfault
  · exact ⟨fun r _ g hg => hgrown.target hg,
      fun g f hg hf => Or.inl (Option.some.inj (hf.symm.trans (hgrown.target hg)))⟩
  · refine ⟨fun r hr g hg => ?_, fun g f hg hf => ?_⟩
    · rw [target, hent, Function.update_of_ne hr]
      exact hg
    · rw [target, hent, Function.update_self] at hf
      rw [target, he] at hg
      obtain rfl := Option.some.inj hf
      obtain rfl := Option.some.inj hg
      rcases hcase with ⟨rfl, -⟩ | hfresh
      · exact Or.inl rfl
      · exact Or.inr hfresh

end Memory

/-! ### The history of a run -/

/-- The memory with its history. A process is known by its place in `task_table` and the number of processes that
have been made there before it. -/
structure Traced where
  /-- The memory. -/
  mem : Memory
  /-- How many processes have been made at each place of `task_table`. -/
  lives : ℕ → ℕ
  /-- The words that `A` stored last. -/
  mark : ℕ → ℕ → Prop

namespace Traced

/-- Nothing has happened yet. -/
def start (s : Memory) : Traced := ⟨s, fun _ => 0, fun _ _ => False⟩

/-- The process is the one at its place. -/
def Now (x : Traced) (A : ℕ × ℕ) : Prop := x.lives A.1 = A.2

/-- A word of a page that only `A` refers to. -/
def OwnWord (x : Traced) (A : ℕ × ℕ) (pid vaddr f i : ℕ) : Prop :=
  pid = A.1 ∧ x.Now A ∧ x.mem.WordAt pid vaddr f i ∧ x.mem.memoryMap f = 1

/-- The marked words after a step to `t`, page tables apart. -/
def stepMark (A : ℕ × ℕ) (x : Traced) (t : Memory) : MemoryOp → ℕ → ℕ → Prop
  | .store pid vaddr _ => fun f i => x.OwnWord A pid vaddr f i ∨ x.mark f i ∧ ¬x.mem.WordAt pid vaddr f i
  | .fault pid vaddr _ _ => x.mem.Moved t (Memory.placeOf pid vaddr) x.mark
  | .mmap pid addr length prot flags file => fun f i => x.mark f i ∧ ∀ words ∈ file, ∀ vaddr,
      x.mem.sysMmap pid addr length prot flags file = some (vaddr, t) →
        ¬t.Filled pid vaddr (divRoundUp length Memory.pageSize) words f i
  | _ => x.mark

/-- What a step to `t` adds to the history. A page table is cleared when it is made. -/
def next (A : ℕ × ℕ) (x : Traced) (op : MemoryOp) (t : Memory) : Traced where
  mem := t
  lives := fun pid => if (x.mem.tasks pid).isNone && (t.tasks pid).isSome then x.lives pid + 1 else x.lives pid
  mark := fun f i => stepMark A x t op f i ∧ ∀ pid d, t.target (pid, d, none) ≠ some f

/-- A step with its history. -/
def step (A : ℕ × ℕ) (x : Traced) (op : MemoryOp) : Option (Unit × Traced) :=
  (op.step x.mem).map fun r => ((), x.next A op r.2)

/-- The pages of `B` from page `lo` on hold no marked word. -/
def Clean (B : ℕ × ℕ) (lo : ℕ) (x : Traced) : Prop := x.Now B → ∀ vaddr f, lo ≤ Memory.idx vaddr →
  vaddr < Memory.userStackTop → x.mem.target (Memory.placeOf B.1 vaddr) = some f → ∀ i, ¬x.mark f i

end Traced

/-- **No page that the step maps for `B`**, at page `lo` or above, holds a word that `A` stored. -/
def GivesClean (A B : ℕ × ℕ) (lo : ℕ) (x : Traced) (op : MemoryOp) : Prop := ∀ r y, x.step A op = some (r, y) →
  y.Now B → ∀ vaddr f, lo ≤ Memory.idx vaddr → vaddr < Memory.userStackTop →
    x.mem.target (Memory.placeOf B.1 vaddr) = none → y.mem.target (Memory.placeOf B.1 vaddr) = some f →
      ∀ i, ¬y.mark f i

/-- **What may differ in the other run**: the word that `A` stores in a page of its own. -/
def Varies (A : ℕ × ℕ) (x : Traced) (op op' : MemoryOp) : Prop := op' = op ∨ ∃ vaddr word word',
  op = .store A.1 vaddr word ∧ op' = .store A.1 vaddr word' ∧ x.Now A ∧
    ∀ f, x.mem.target (Memory.placeOf A.1 vaddr) = some f → x.mem.memoryMap f = 1

theorem Varies.refl (A : ℕ × ℕ) (x : Traced) (op : MemoryOp) : Varies A x op op := Or.inl rfl

/-! ### Both runs -/

section Step

variable {A B : ℕ × ℕ} {lo : ℕ} {x y : Traced} {s' : Memory} {op op' : MemoryOp}

/-- Marks in page tables do not count. -/
theorem Memory.Twin.off_tables {M : ℕ → ℕ → Prop} {s s' : Memory} (h : Memory.Twin M s s') :
    Memory.Twin (fun f i => M f i ∧ ∀ pid d, s.target (pid, d, none) ≠ some f) s s' :=
  ⟨h.1, h.2.mono fun _ _ hD => ⟨⟨hD.1, hD.2.2⟩, hD.2⟩⟩

/-- **A step of both runs** leaves memories that differ in marked words at most. -/
theorem Traced.twin_step (h : Memory.Twin x.mark x.mem s') (hlegal : op.Legal x.mem) (hvaries : Varies A x op op') :
    Follows (fun p p' => Memory.Twin p.2.mark p.2.mem p'.2) (x.step A op) (op'.step s') := by
  suffices hfollows : Follows (fun p p' => Memory.Twin (stepMark A x p.2 op) p.2 p'.2) (op.step x.mem) (op'.step s') by
    rintro ⟨r, y⟩ hstep
    obtain ⟨⟨r', t⟩, ht, heq⟩ := Option.map_eq_some_iff.mp hstep
    obtain ⟨-, rfl⟩ := Prod.mk.inj heq
    obtain ⟨p', hp', htwin⟩ := hfollows _ ht
    exact ⟨p', hp', Memory.Twin.off_tables htwin⟩
  rcases hvaries with rfl | ⟨vaddr, word, word', rfl, rfl, hnow, hown⟩
  · cases op' with
    | fork pid => exact h.taskFork.map fun _ _ _ hab => hab
    | exit pid => exact h.taskExit.map fun _ _ _ hab => hab
    | reap child => exact h.taskReap.map fun _ _ _ hab => hab
    | brk pid addr => exact h.sysBrk.map fun _ _ _ hab => hab
    | mmap pid addr length prot flags file =>
      refine h.sysMmap.map fun a b hcall hab => Memory.Twin.mono hab fun f i hM => ?_
      refine ⟨hM.1, fun words hw vaddr hcall' => ?_⟩
      have hvaddr : a.1 = vaddr := congrArg Prod.fst (Option.some.inj (hcall.symm.trans hcall'))
      exact hvaddr ▸ hM.2 words hw
    | munmap pid addr length => exact h.sysMunmap.map fun _ _ _ hab => hab
    | fault pid vaddr present write => exact (h.pageFault hlegal.1 hlegal.2).map fun _ _ _ hab => hab
    | link pid vaddr =>
      rw [MemoryOp.step, MemoryOp.step, h.2.running]
      exact .bind_same fun task hrun =>
        (h.linkPage hrun (Memory.didx_user hlegal.1 hlegal.2)).map fun _ _ _ hab => hab
    | unlink pid vaddr =>
      rw [MemoryOp.step, MemoryOp.step, h.2.running]
      exact .bind_same fun task hrun =>
        (h.unlinkPage hrun (Memory.didx_user hlegal.1 hlegal.2)).map fun _ _ _ hab => hab
    | store pid vaddr word =>
      refine (h.store (Memory.didx_user hlegal.1 hlegal.2)).map fun a b _ hab => Memory.Twin.mono hab fun f i hM => ?_
      rcases hM with ⟨-, hne⟩ | hM
      · exact absurd rfl hne
      · exact Or.inr hM
  · refine (h.store (Memory.didx_user hlegal.1 hlegal.2)).map fun a b _ hab => Memory.Twin.mono hab fun f i hM => ?_
    exact hM.imp (fun hat => ⟨rfl, hnow, hat.1, hown f hat.1.1⟩) id

/-- **A step keeps the pages of `B` clean** when it gives `B` none that is not. -/
theorem Traced.clean_step (hne : A ≠ B) (h : x.mem.Sound) (hclean : x.Clean B lo) (hlegal : op.Legal x.mem)
    (hgives : GivesClean A B lo x op) {r : Unit} (hstep : x.step A op = some (r, y)) : y.Clean B lo := by
  intro hnow vaddr f hlo hhi htarget i hmark
  cases hg : x.mem.target (Memory.placeOf B.1 vaddr) with
  | none => exact hgives r y hstep hnow vaddr f hlo hhi hg htarget i hmark
  | some g =>
    obtain ⟨⟨r', t⟩, ht, heq⟩ := Option.map_eq_some_iff.mp hstep
    obtain ⟨-, rfl⟩ := Prod.mk.inj heq
    obtain ⟨e, he, -⟩ := Memory.target_eq_some.mp hg
    -- a process with pages is not a new one
    have hlive : x.Now B := by
      obtain ⟨-, pde, hp, -⟩ := Memory.entryAt_page.mp he
      obtain ⟨task, hrun, -⟩ := Memory.pdeOf_eq_some.mp hp
      have htask : (x.mem.tasks B.1).isNone = false := by
        rw [(Memory.running_eq_some.mp hrun).1]
        rfl
      have hlives : (x.next A op t).lives B.1 = x.lives B.1 := by
        simp only [next, htask, Bool.false_and, Bool.false_eq_true, reduceIte]
      exact hlives.symm.trans hnow
    have hold := hclean hlive vaddr g hlo hhi hg
    replace htarget : t.target (Memory.placeOf B.1 vaddr) = some f := htarget
    replace hmark : stepMark A x t op f i := hmark.1
    cases op with
    | fault pid vaddr' present write =>
      obtain ⟨t', hfault, heq⟩ := Option.map_eq_some_iff.mp ht
      obtain ⟨-, rfl⟩ := Prod.mk.inj heq
      obtain ⟨hother, hself⟩ := h.pageFault_target hlegal.1 hlegal.2 hfault
      by_cases hr : Memory.placeOf B.1 vaddr = Memory.placeOf pid vaddr'
      · rw [hr] at hg htarget
        rcases hmark with ⟨g', hg', -, hM⟩ | ⟨-, hnone | hne'⟩
        · obtain rfl := Option.some.inj (hg.symm.trans hg')
          exact hold i hM
        · rw [hnone] at hg
          exact absurd hg (by simp)
        · exact hne' htarget
      · obtain rfl := Option.some.inj ((hother _ hr g hg).symm.trans htarget)
        rcases hmark with ⟨g', hg', hf', hM⟩ | ⟨hM, -⟩
        · rcases hself g' g hg' hf' with rfl | hfresh
          · exact hold i hM
          · exact hfresh _ hg
        · exact hold i hM
    | store pid vaddr' word =>
      obtain rfl := h.step_stays hlegal ht (by simp) _ g f hg htarget
      rcases hmark with ⟨hpid, hnowA, hat, hone⟩ | ⟨hM, -⟩
      · -- the page is one of `A` only
        obtain ⟨hr, hhigh, -⟩ := h.exact.tables.high hat.1
        rw [h.exact.counts.count _ hhigh] at hone
        have hplace := eq_of_refCount_le_one hone.le hr hat.1 (h.exact.tables.high hg).1 hg
        have hfst : B.1 = A.1 := (congrArg Prod.fst hplace).trans hpid
        refine hne (Prod.ext hfst.symm ?_)
        rw [← hnowA, ← hlive, hfst]
      · exact hold i hM
    | mmap pid addr length prot flags file =>
      obtain rfl := h.step_stays hlegal ht (by simp) _ g f hg htarget
      exact hold i hmark.1
    | _ =>
      obtain rfl := h.step_stays hlegal ht (by simp) _ g f hg htarget
      exact hold i hmark

end Step

/-- A word of a page without marked words reads the same in both. -/
theorem Memory.Twin.load {M : ℕ → ℕ → Prop} {s s' : Memory} {pid vaddr : ℕ} (h : Memory.Twin M s s')
    (hlo : Memory.userExecAddr ≤ vaddr) (hhi : vaddr < Memory.userStackTop)
    (hclear : ∀ f, s.target (Memory.placeOf pid vaddr) = some f → ∀ i, ¬M f i) :
    s'.load pid vaddr = s.load pid vaddr := by
  rw [Memory.userStackTop_eq] at hhi
  have hd := Memory.didx_user hlo (by omega)
  rw [Memory.load, Memory.load, h.2.running]
  cases hrun : s.running pid with
  | none => rfl
  | some task =>
    have hp := Memory.pdeOf_of_running hrun
    have hoff := Memory.offTables_data s M
    have hwalk' : s'.walk task.pde vaddr = s.walk task.pde vaddr :=
      h.2.walk (hoff.low (h.1.exact.tables.dir hp).2.2) fun hpres =>
        hoff.table (h.1.exact.tables.table_high hp hd hpres).2.1
    simp only [Option.bind_eq_bind, Option.bind_some, hwalk']
    cases hwalk : s.walk task.pde vaddr with
    | none => rfl
    | some f =>
      obtain ⟨e, he, rfl, -⟩ := Memory.entryAt_of_walk h.1.exact.tables hrun hd hwalk
      have htarget := Memory.target_eq_some.mpr ⟨e, he, rfl⟩
      simp only [Option.bind_some, h.2.word fun hD => hclear _ htarget _ hD.1]

/-- The history is that of the run. -/
theorem Traced.exec_mem {A : ℕ × ℕ} : ∀ (ops : List MemoryOp) (x y : Traced), Run.exec (Traced.step A) x ops = some y →
    Run.exec MemoryOp.step x.mem ops = some y.mem := by
  intro ops
  induction ops with
  | nil => exact fun x y h => congrArg _ (congrArg Traced.mem (Option.some.inj h))
  | cons op ops ih =>
    intro x y h
    obtain ⟨r, z, hstep, hexec⟩ := Run.exec_cons.mp h
    obtain ⟨⟨r', t⟩, ht, heq⟩ := Option.map_eq_some_iff.mp hstep
    obtain ⟨-, rfl⟩ := Prod.mk.inj heq
    exact Run.exec_cons.mpr ⟨r', t, ht, ih _ y hexec⟩

/-- **No data leaks through fresh pages** while the pages that are mapped for `B`, at page `lo` or above, hold no word
that `A` stored: the other run gets as far, and `B` reads the same there in both. -/
theorem freshPages_same {A B : ℕ × ℕ} {lo : ℕ} (hne : A ≠ B) {s : Memory} (h : s.Boot) {ops ops' : List MemoryOp}
    (hlegal : Run.Along (Traced.step A) (fun x op => op.Legal x.mem) (.start s) ops)
    (hclean : Run.Along (Traced.step A) (GivesClean A B lo) (.start s) ops)
    (hpair : Run.Paired (Traced.step A) (Varies A) (.start s) ops ops') {x : Traced}
    (hrun : Run.exec (Traced.step A) (.start s) ops = some x) :
    Run.exec MemoryOp.step s ops = some x.mem ∧ ∃ t', Run.exec MemoryOp.step s ops' = some t' ∧
      (x.Now B → ∀ vaddr, Memory.userExecAddr ≤ vaddr → lo ≤ Memory.idx vaddr → vaddr < Memory.userStackTop →
        t'.load B.1 vaddr = x.mem.load B.1 vaddr) := by
  refine ⟨Traced.exec_mem ops _ x hrun, ?_⟩
  have hstart : Memory.Twin (Traced.start s).mark s s := ⟨h.sound, s.mem, rfl, fun _ _ _ => rfl⟩
  have hstep : ∀ (x : Traced) (s' : Memory) (op op' : MemoryOp), (Memory.Twin x.mark x.mem s' ∧ x.Clean B lo) →
      (op.Legal x.mem ∧ GivesClean A B lo x op) → Varies A x op op' →
      Follows (fun p p' => Memory.Twin p.2.mark p.2.mem p'.2 ∧ p.2.Clean B lo) (x.step A op) (op'.step s') :=
    fun x s' op op' hrel hcond hvaries => (Traced.twin_step hrel.1 hcond.1 hvaries).imp fun p p' hrun htwin =>
      ⟨htwin, Traced.clean_step hne hrel.1.1 hrel.2 hcond.1 hcond.2 hrun⟩
  obtain ⟨t', hexec, htwin, hend⟩ := Run.exec_of_paired _ hstep ops ops' (.start s) s
    ⟨hstart, fun _ _ _ _ _ _ _ hmark => hmark⟩ (hlegal.and hclean) hpair x hrun
  exact ⟨t', hexec, fun hnow vaddr hlo hidx hhi => htwin.load hlo hhi fun f hf => hend hnow vaddr f hidx hhi hf⟩

/-! ### Clean steps -/

section Clean

variable {A B : ℕ × ℕ} {lo : ℕ} {x y : Traced} {op : MemoryOp}

/-- Before `A` has stored anything, no word is marked. -/
theorem Traced.unmarked_step (h : ∀ f i, ¬x.mark f i) (hop : ∀ vaddr word, op ≠ .store A.1 vaddr word) {r : Unit}
    (hstep : x.step A op = some (r, y)) : ∀ f i, ¬y.mark f i := by
  obtain ⟨⟨r', t⟩, -, heq⟩ := Option.map_eq_some_iff.mp hstep
  obtain ⟨-, rfl⟩ := Prod.mk.inj heq
  rintro f i ⟨hmark, -⟩
  cases op with
  | fault pid vaddr present write =>
    rcases hmark with ⟨g, -, -, hM⟩ | ⟨hM, -⟩
    · exact h g i hM
    · exact h f i hM
  | store pid vaddr word =>
    rcases hmark with ⟨rfl, -⟩ | ⟨hM, -⟩
    · exact hop vaddr word rfl
    · exact h f i hM
  | mmap pid addr length prot flags file => exact h f i hmark.1
  | _ => exact h f i hmark

/-- Then every page is clean. -/
theorem GivesClean.of_unmarked (h : ∀ f i, ¬x.mark f i) (hop : ∀ vaddr word, op ≠ .store A.1 vaddr word) :
    GivesClean A B lo x op :=
  fun _ _ hstep _ _ f _ _ _ _ i => Traced.unmarked_step h hop hstep f i

/-- A store maps no page. -/
theorem GivesClean.of_store {pid vaddr : ℕ} {word : PageEntry} (h : x.mem.Sound)
    (hlegal : (MemoryOp.store pid vaddr word).Legal x.mem) : GivesClean A B lo x (.store pid vaddr word) := by
  intro r y hstep _ vaddr' f _ _ hnone hsome
  obtain ⟨⟨r', t⟩, ht, heq⟩ := Option.map_eq_some_iff.mp hstep
  obtain ⟨-, rfl⟩ := Prod.mk.inj heq
  obtain ⟨t', hstore, heq⟩ := Option.map_eq_some_iff.mp ht
  obtain ⟨-, rfl⟩ := Prod.mk.inj heq
  obtain ⟨-, hent, -⟩ := h.store (Memory.didx_user hlegal.1 hlegal.2) hstore
  replace hsome : t'.target (Memory.placeOf B.1 vaddr') = some f := hsome
  rw [Memory.target, hent] at hsome
  exact absurd (hnone.symm.trans hsome) (by simp)

end Clean

/-! ### Two runs on a small machine -/

/-- The first task makes another, and gets a page in its heap. -/
def onePage : List MemoryOp := [.fork 1, .fault 1 0x1002000 false true]

/-- Both tasks get a page in their heaps. -/
def twoPages : List MemoryOp := [.fork 1, .fault 0 0x1002000 false true, .fault 1 0x1002000 false true]

/-- The first task leaves, and the other one gets a page in its heap. -/
def nextPage : List MemoryOp := [.exit 1, .fault 0 0x1002000 false true]

/-- The first task has a page of its own in its heap. -/
theorem bootMemory_own {ops : List MemoryOp} {f : ℕ} {x : Traced}
    (hlegal : Run.Along MemoryOp.step MemoryOp.Legal bootMemory ops)
    (hops : (Run.exec (Traced.step (1, 0)) (.start bootMemory) ops).map (fun x =>
      (x.lives 1, (x.mem.running 1).map Memory.Task.pde, x.mem.walk 257 0x1002000, x.mem.memoryMap f))
      = some (0, some 257, some f, 1))
    (hx : Run.exec (Traced.step (1, 0)) (.start bootMemory) ops = some x) (word word' : PageEntry) :
    Varies (1, 0) x (.store 1 0x1002000 word) (.store 1 0x1002000 word') := by
  rw [hx] at hops
  simp only [Option.map_some, Option.some.injEq, Prod.mk.injEq, Option.map_eq_some_iff] at hops
  obtain ⟨hlives, ⟨task, hrun, hpde⟩, hwalk, hone⟩ := hops
  have hsound := bootMemory_boot.run hlegal (Traced.exec_mem ops _ x hx)
  refine Or.inr ⟨0x1002000, word, word', rfl, rfl, hlives, fun g hg => ?_⟩
  obtain ⟨e, he, hidx, -⟩ := Memory.entryAt_of_walk hsound.exact.tables hrun (by decide) (hpde ▸ hwalk)
  have htarget := Memory.target_eq_some.mpr ⟨e, he, hidx⟩
  rw [← Option.some.inj (htarget.symm.trans hg)]
  exact hone

/-- When both tasks have their pages before, the other one reads the same whatever the first one stores. -/
theorem freshPages_same_twoPages : ∃ x, Run.exec (Traced.step (1, 0)) (.start bootMemory)
      (twoPages ++ [.store 1 0x1002000 (entryInit 7)]) = some x ∧
    Run.exec MemoryOp.step bootMemory (twoPages ++ [.store 1 0x1002000 (entryInit 7)]) = some x.mem ∧
    ∃ t', Run.exec MemoryOp.step bootMemory (twoPages ++ [.store 1 0x1002000 (entryInit 8)]) = some t' ∧
      (x.Now (0, 1) → ∀ vaddr, Memory.userExecAddr ≤ vaddr → 0x1002 ≤ Memory.idx vaddr → vaddr < Memory.userStackTop →
        t'.load 0 vaddr = x.mem.load 0 vaddr) := by
  have hsome : (Run.exec (Traced.step (1, 0)) (.start bootMemory)
      (twoPages ++ [.store 1 0x1002000 (entryInit 7)])).isSome = true := by decide +kernel
  obtain ⟨x, hx⟩ := Option.isSome_iff_exists.mp hsome
  have hlegal : Run.Along MemoryOp.step MemoryOp.Legal bootMemory twoPages :=
    ⟨trivial, fun _ _ _ => ⟨⟨by decide, by decide⟩, fun _ _ _ => ⟨⟨by decide, by decide⟩, fun _ _ _ => trivial⟩⟩⟩
  have hlegal' : Run.Along (Traced.step (1, 0)) (fun x op => op.Legal x.mem) (.start bootMemory)
      (twoPages ++ [.store 1 0x1002000 (entryInit 7)]) :=
    ⟨trivial, fun _ _ _ => ⟨⟨by decide, by decide⟩, fun _ _ _ => ⟨⟨by decide, by decide⟩, fun _ _ _ =>
      ⟨⟨by decide, by decide⟩, fun _ _ _ => trivial⟩⟩⟩⟩
  have hpair : Run.Paired (Traced.step (1, 0)) (Varies (1, 0)) (.start bootMemory)
      (twoPages ++ [.store 1 0x1002000 (entryInit 7)]) (twoPages ++ [.store 1 0x1002000 (entryInit 8)]) :=
    Run.paired_of_one (Varies.refl (1, 0)) twoPages (.start bootMemory) fun y hy =>
      bootMemory_own (f := 4099) hlegal (by decide +kernel) hy _ _
  -- nothing is marked before the store, which maps no page
  have hstart : ∀ f i, ¬(Traced.start bootMemory).mark f i := fun _ _ h => h
  have hclean : Run.Along (Traced.step (1, 0)) (GivesClean (1, 0) (0, 1) 0x1002) (.start bootMemory)
      (twoPages ++ [.store 1 0x1002000 (entryInit 7)]) := by
    refine ⟨.of_unmarked hstart (by simp), fun _ x₁ h₁ => ?_⟩
    have hm₁ := Traced.unmarked_step hstart (by simp) h₁
    refine ⟨.of_unmarked hm₁ (by simp), fun _ x₂ h₂ => ?_⟩
    have hm₂ := Traced.unmarked_step hm₁ (by simp) h₂
    refine ⟨.of_unmarked hm₂ (by simp), fun _ x₃ h₃ => ?_⟩
    have hx₃ : Run.exec (Traced.step (1, 0)) (.start bootMemory) twoPages = some x₃ := by
      simp only [twoPages, Run.exec, h₁, h₂, h₃, Option.bind_some]
    have hmem : Run.exec MemoryOp.step bootMemory twoPages = some x₃.mem :=
      Traced.exec_mem twoPages (.start bootMemory) x₃ hx₃
    exact ⟨.of_store (bootMemory_boot.run hlegal hmem) ⟨by decide, by decide⟩, fun _ _ _ => trivial⟩
  exact ⟨x, hx, freshPages_same (by decide) bootMemory_boot hlegal' hclean hpair hx⟩

/-- **A page gives it away**: the first task stores a word in its heap and exits, and the other one reads that word in
the page it gets. -/
theorem freshPages_leak :
    Run.Paired (Traced.step (1, 0)) (Varies (1, 0)) (.start bootMemory)
      (onePage ++ .store 1 0x1002000 (entryInit 7) :: nextPage)
      (onePage ++ .store 1 0x1002000 (entryInit 8) :: nextPage) ∧
    ((Run.exec MemoryOp.step bootMemory (onePage ++ .store 1 0x1002000 (entryInit 7) :: nextPage)).bind fun t =>
      t.load 0 0x1002000) = some (entryInit 7) ∧
    ((Run.exec MemoryOp.step bootMemory (onePage ++ .store 1 0x1002000 (entryInit 8) :: nextPage)).bind fun t =>
      t.load 0 0x1002000) = some (entryInit 8) := by
  have hlegal : Run.Along MemoryOp.step MemoryOp.Legal bootMemory onePage :=
    ⟨trivial, fun _ _ _ => ⟨⟨by decide, by decide⟩, fun _ _ _ => trivial⟩⟩
  refine ⟨Run.paired_of_one (Varies.refl (1, 0)) onePage (.start bootMemory) fun x hx => ?_, by decide +kernel,
    by decide +kernel⟩
  exact bootMemory_own (f := 4097) hlegal (by decide +kernel) hx _ _

end Onixs
