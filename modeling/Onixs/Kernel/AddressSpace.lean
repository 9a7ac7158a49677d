import Onixs.Kernel.PageCounts

/-!
# Copying and releasing address spaces

The loops of `copy_pde` and `free_pde`. While `copy_pde` runs, the copy belongs to no task
yet; the references it makes are ghost references of the child's place in `task_table`
(`Onixs.Memory.copyTables_spec`). While `free_pde` runs, the task is no longer one, and its
references are given back one by one (`Onixs.Memory.putTables_spec`).
-/

namespace Onixs

/-- The entry as `copy_pde` leaves it: a page that is not shared loses its write bit. -/
def PageEntry.share (e : PageEntry) : PageEntry :=
  if e.present && !e.shared then { e with write := false } else e

@[simp] theorem PageEntry.share_present (e : PageEntry) : e.share.present = e.present := by
  rw [share]
  split <;> rfl

@[simp] theorem PageEntry.share_index (e : PageEntry) : e.share.index = e.index := by
  rw [share]
  split <;> rfl

@[simp] theorem PageEntry.share_shared (e : PageEntry) : e.share.shared = e.shared := by
  rw [share]
  split <;> rfl

theorem PageEntry.share_of_absent {e : PageEntry} (h : e.present = false) : e.share = e := by
  rw [share, h]
  rfl

theorem PageEntry.share_get (e : PageEntry) : e.share.get = e.get.map PageEntry.share := by
  rw [get, get, share_present]
  split <;> rfl

/-- After sharing, a page that may be written is a shared one. -/
theorem PageEntry.shared_of_share_write {e : PageEntry} (hpres : e.present = true)
    (h : e.share.write = true) : e.shared = true := by
  rw [share, hpres] at h
  by_contra hs
  rw [if_pos (by simpa using hs)] at h
  exact Bool.noConfusion h

theorem PageEntry.write_of_share_write {e : PageEntry} (h : e.share.write = true) : e.write = true := by
  rw [share] at h
  split at h
  · exact Bool.noConfusion h
  · exact h

namespace Memory

theorem setWord_self (s : Memory) (f i : ℕ) : s.setWord f i (s.mem f i) = s := by
  have hmem : (s.setWord f i (s.mem f i)).mem = s.mem := by
    funext f' j
    by_cases hc : f' = f ∧ j = i
    · obtain ⟨rfl, rfl⟩ := hc
      exact if_pos ⟨rfl, rfl⟩
    · exact if_neg hc
  calc s.setWord f i (s.mem f i) = { s with mem := (s.setWord f i (s.mem f i)).mem } := rfl
    _ = s := by rw [hmem]

theorem setWord_share {s : Memory} {f i : ℕ} {e : PageEntry} (he : s.mem f i = e)
    (hpres : e.present = true) :
    (if !e.shared then s.setWord f i { e with write := false } else s) = s.setWord f i e.share := by
  by_cases hs : e.shared = true
  · rw [PageEntry.share, if_neg (by rw [hs]; exact Bool.noConfusion),
      if_neg (by rw [hs, hpres]; exact Bool.noConfusion), ← he, setWord_self]
  · rw [Bool.not_eq_true] at hs
    rw [PageEntry.share, if_pos (by rw [hs]; rfl), if_pos (by rw [hs, hpres]; rfl)]

theorem sharePages_absent {s : Memory} {f left i : ℕ} (h : (s.mem f i).present = false) :
    sharePages f (left + 1) i s = sharePages f left (i + 1) s := by
  rw [sharePages]
  exact if_pos (by rw [h]; rfl)

theorem sharePages_present {s : Memory} {f left i : ℕ} {e : PageEntry} (he : s.mem f i = e)
    (h : e.present = true) :
    sharePages f (left + 1) i s = (assert (0 < s.memoryMap e.index)).bind fun _ =>
      (assert ((s.memoryMap e.index + 1) % 256 < 255)).bind fun _ => sharePages f left (i + 1)
        ((s.setWord f i e.share).setCount e.index ((s.memoryMap e.index + 1) % 256)) := by
  rw [sharePages, he, if_neg (by rw [h]; exact Bool.noConfusion), Option.bind_eq_bind]
  refine congrArg _ (funext fun _ => ?_)
  simp only [setWord_share he h]
  have hself : ∀ n, ((s.setWord f i e.share).setCount e.index n).memoryMap e.index = n :=
    fun n => if_pos rfl
  rw [hself]
  rfl

/-! ### Sharing the pages of a table -/

/-- What `copy_pde`'s inner loop does to entries `i, i + 1, …` of the table in frame `f`: the
entries are shared, and places `(c, d, ·)` refer to their pages too. -/
structure Shared (s : Memory) (T : Place → Option ℕ) (f c d i : ℕ) (u : Memory)
    (T' : Place → Option ℕ) : Prop where
  /-- The tables are well built. -/
  tables : u.Tables T'
  /-- The counters are exact. -/
  counts : u.Counts T'
  /-- The tasks stay. -/
  same : SameTasks s u
  /-- The other references stay. -/
  other : ∀ r, (∀ t, i ≤ t → r ≠ (c, d, some t)) → T' r = T r
  /-- The new references. -/
  refs : ∀ t, i ≤ t → t < 1024 → T' (c, d, some t) = (s.mem f t).get.map PageEntry.index
  /-- The other frames stay. -/
  frame : ∀ g, g ≠ f → u.mem g = s.mem g
  /-- The entries before `i` stay. -/
  before : ∀ t, t < i → u.mem f t = s.mem f t
  /-- The entries from `i` on are shared. -/
  entry : ∀ t, i ≤ t → t < 1024 → u.mem f t = (s.mem f t).share

section Share

variable {pid pde c d : ℕ}

theorem sharePages_spec (hd : 4 ≤ d ∧ d < 1023) (hc : c < 64) :
    ∀ (left i : ℕ) (s u : Memory) (T : Place → Option ℕ), i + left = 1024 → s.Tables T → s.Counts T →
      s.pdeOf pid = some pde → (s.mem pde d).present = true → s.pdeOf c = none →
      (∀ t, i ≤ t → T (c, d, some t) = none) →
      sharePages (s.mem pde d).index left i s = some u →
      ∃ T', Shared s T (s.mem pde d).index c d i u T' := by
  intro left
  induction left with
  | zero =>
    intro i s u T hi ht hcnt _ _ _ hnone h
    obtain rfl := Option.some.inj h
    exact ⟨T, ht, hcnt, SameTasks.refl _, fun _ _ => rfl, fun t hit hlt => absurd hlt (by omega),
      fun _ _ => rfl, fun _ _ => rfl, fun t hit hlt => absurd hlt (by omega)⟩
  | succ left ih =>
    intro i s u T hi ht hcnt hp hpres hchild hnone h
    have hdir := (ht.dir hp).2.2
    obtain ⟨-, hdT, hhigh⟩ := ht.table_high hp hd hpres
    obtain ⟨f, hf⟩ : ∃ f, f = (s.mem pde d).index := ⟨_, rfl⟩
    rw [← hf] at h hdT hhigh ⊢
    cases hent : (s.mem f i).present with
    | false =>
      rw [sharePages_absent hent, hf] at h
      obtain ⟨T', hsh⟩ := ih (i + 1) s u T (by omega) ht hcnt hp hpres hchild
        (fun t hit => hnone t (by omega)) h
      rw [← hf] at hsh
      refine ⟨T', hsh.tables, hsh.counts, hsh.same, fun r hr => hsh.other r fun t hit => hr t (by omega),
        fun t hit hlt => ?_, hsh.frame, fun t hlt => hsh.before t (by omega), fun t hit hlt => ?_⟩
      · rcases Nat.eq_or_lt_of_le hit with rfl | hlt'
        · rw [hsh.other _ fun t hit' => by simp; omega, hnone i (le_refl i),
            PageEntry.get_of_absent hent]
          rfl
        · exact hsh.refs t hlt' hlt
      · rcases Nat.eq_or_lt_of_le hit with rfl | hlt'
        · rw [hsh.before i (Nat.lt_succ_self i), PageEntry.share_of_absent hent]
        · exact hsh.entry t hlt' hlt
    | true =>
      obtain ⟨e, he⟩ : ∃ e, e = s.mem f i := ⟨_, rfl⟩
      rw [sharePages_present he.symm (he ▸ hent)] at h
      obtain ⟨_, -, h⟩ := Option.bind_eq_some_iff.mp h
      obtain ⟨_, hfit, h⟩ := Option.bind_eq_some_iff.mp h
      rw [assert_eq_some] at hfit
      have hpid := (ht.dir hp).1
      have hold : s.entryAt (pid, d, some i) = some (s.mem f i) :=
        entryAt_page.mpr ⟨page_mem_places.mpr ⟨hpid, hd.1, hd.2, by omega⟩, pde, hp, hpres,
          by rw [hf], hent⟩
      have hT := ht.refs hold
      obtain ⟨-, hlo, hhi⟩ := ht.high hT
      rw [← he] at hent hold hT hlo hhi
      -- the counter does not wrap
      have hlt := hcnt.fits e.index
      rw [Nat.mod_eq_of_lt (by omega)] at hfit h
      obtain ⟨v, hv⟩ : ∃ v, v = s.setWord f i e.share := ⟨_, rfl⟩
      rw [← hv] at h
      have hmap : v.memoryMap = s.memoryMap := by rw [hv]; rfl
      have hplace : (c, d, some i) ∈ places := page_mem_places.mpr ⟨hc, hd.1, hd.2, by omega⟩
      have htv : v.Tables T := by
        rw [hv, hf]
        refine ht.setWord hp hd hpres (by omega) fun _ => ?_
        rw [PageEntry.share_index]
        exact hT
      have hvc : v.pdeOf c = none := by rw [hv]; exact hchild
      have hnov : v.entryAt (c, d, some i) = none := by
        refine Option.eq_none_iff_forall_not_mem.mpr fun e' he' => ?_
        obtain ⟨-, pde', hp', -⟩ := entryAt_page.mp he'
        rw [hvc] at hp'
        exact absurd hp' (by simp)
      have hnodir : ∀ pid' d', T (pid', d', none) ≠ some e.index := by
        intro pid' d' hT'
        have := ht.single hT' hT
        simp at this
      have htv' := htv.add hplace hnov hlo hhi hnodir (fun hc => absurd hc (by simp))
      have hcv : (v.setCount e.index (s.memoryMap e.index + 1)).Counts
          (Function.update T (c, d, some i) (some e.index)) := by
        rw [← hmap]
        refine Counts.fill (hcnt.congr hmap (by rw [hv]; rfl)) hplace (hnone i (le_refl i)) hlo ?_
        rw [hmap]
        exact hfit
      obtain ⟨w, hw⟩ : ∃ w, w = v.setCount e.index (s.memoryMap e.index + 1) := ⟨_, rfl⟩
      have honly : OnlyCounts v w := by rw [hw]; exact onlyCounts_setCount _ _ _
      rw [← hw] at h hcv
      have hmemw : ∀ g, g ≠ f → w.mem g = s.mem g := by
        intro g hg
        rw [honly.mem, hv]
        exact funext fun j => if_neg fun hc => hg hc.1
      have hmemf : ∀ t, t ≠ i → w.mem f t = s.mem f t := by
        intro t hti
        rw [honly.mem, hv]
        exact if_neg fun hc => hti hc.2
      have hmemi : w.mem f i = e.share := by
        rw [honly.mem, hv]
        exact if_pos ⟨rfl, rfl⟩
      have hwd : w.mem pde = s.mem pde := hmemw pde (by omega)
      have hsame : SameTasks s w := ⟨by rw [honly.tasks, hv]; rfl, by rw [honly.kernelMap, hv]; rfl⟩
      rw [hf, ← hwd] at h
      obtain ⟨T', hsh⟩ := ih (i + 1) w u _ (by omega) (honly.tables htv') hcv
        (by rw [hsame.pdeOf]; exact hp) (by rw [hwd]; exact hpres) (by rw [hsame.pdeOf]; exact hchild)
        (fun t hit => by
          rw [Function.update_of_ne (by simp; omega)]
          exact hnone t (by omega)) h
      rw [hwd, ← hf] at hsh
      refine ⟨T', hsh.tables, hsh.counts, hsame.trans hsh.same, fun r hr => ?_, fun t hit hlt => ?_,
        fun g hg => ?_, fun t hlt => ?_, fun t hit hlt => ?_⟩
      · rw [hsh.other r fun t hit => hr t (by omega), Function.update_of_ne (hr i (le_refl i))]
      · rcases Nat.eq_or_lt_of_le hit with rfl | hlt'
        · rw [hsh.other _ fun t hit' => by simp; omega, Function.update_self, ← he,
            PageEntry.get_of_present hent]
          rfl
        · rw [hsh.refs t hlt' hlt, hmemf t (by omega)]
      · rw [hsh.frame g hg, hmemw g hg]
      · rw [hsh.before t (by omega), hmemf t (by omega)]
      · rcases Nat.eq_or_lt_of_le hit with rfl | hlt'
        · rw [hsh.before i (Nat.lt_succ_self i), hmemi, he]
        · rw [hsh.entry t hlt' hlt, hmemf t (by omega)]

end Share

/-! ### Copying the tables -/

/-- Before entry `i` of `copy_pde`'s outer loop: `cr3` is the directory of task `pid`, and frame
`pde` a copy of it, not yet the directory of a task, which is to be that of `c`. -/
structure Copying (s : Memory) (T : Place → Option ℕ) (pid cr3 c pde i : ℕ) : Prop where
  /-- The tables are well built. -/
  tables : s.Tables T
  /-- The counters are exact. -/
  counts : s.Counts T
  /-- The task that forks. -/
  parent : s.pdeOf pid = some cr3
  /-- The child is no task yet. -/
  child : s.pdeOf c = none
  /-- The child has a place in `task_table`. -/
  child_lt : c < 64
  /-- The new directory is a kernel page. -/
  pde_range : 256 ≤ pde ∧ pde < 4096
  /-- No task has it. -/
  pde_fresh : ∀ pid', s.pdeOf pid' ≠ some pde
  /-- The entries still to do are copies. -/
  todo : ∀ d, i ≤ d → d < 1023 → s.mem pde d = s.mem cr3 d
  /-- They make no references yet. -/
  unref : ∀ d o, i ≤ d → T (c, d, o) = none

/-- What `copy_pde`'s outer loop does to the entries `i, i + 1, …`: the tables of the parent are
shared, and the new directory has copies of them. -/
structure Copied (s : Memory) (T : Place → Option ℕ) (cr3 c pde i : ℕ) (u : Memory)
    (T' : Place → Option ℕ) : Prop where
  /-- The tables are well built. -/
  tables : u.Tables T'
  /-- The counters are exact. -/
  counts : u.Counts T'
  /-- The tasks stay. -/
  same : SameTasks s u
  /-- The other references stay. -/
  other : ∀ r, (∀ d o, i ≤ d → r ≠ (c, d, o)) → T' r = T r
  /-- The kernel's frames stay. -/
  kernel : ∀ f, f < 4096 → f ≠ 2 → f ≠ pde → u.mem f = s.mem f
  /-- The frames referred to stay, the parent's tables apart. -/
  frame : ∀ r f, T r = some f →
    (∀ d, i ≤ d → d < 1023 → (s.mem cr3 d).present = true → f ≠ (s.mem cr3 d).index) →
    u.mem f = s.mem f
  /-- The parent's tables are shared. -/
  shared : ∀ d, i ≤ d → d < 1023 → (s.mem cr3 d).present = true → ∀ t < 1024,
    u.mem (s.mem cr3 d).index t = (s.mem (s.mem cr3 d).index t).share
  /-- The rest of the new directory stays. -/
  before : ∀ d, d < i ∨ 1023 ≤ d → u.mem pde d = s.mem pde d
  /-- An absent table is absent in the copy. -/
  absent : ∀ d, i ≤ d → d < 1023 → (s.mem cr3 d).present = false →
    (u.mem pde d).present = false ∧ ∀ o, T' (c, d, o) = none
  /-- A table that is there is copied. -/
  present : ∀ d, i ≤ d → d < 1023 → (s.mem cr3 d).present = true →
    (u.mem pde d).present = true ∧ T' (c, d, none) = some (u.mem pde d).index ∧
      ∀ t < 1024, u.mem (u.mem pde d).index t = (s.mem (s.mem cr3 d).index t).share ∧
        T' (c, d, some t) = (s.mem (s.mem cr3 d).index t).get.map PageEntry.index

section Copy

variable {pid cr3 c pde : ℕ}

/-- A step of the loop: a table is shared and copied, and the copy stored in the new directory. -/
theorem Copying.copyTables_present {s : Memory} {T : Place → Option ℕ} {i left : ℕ}
    (h : Copying s T pid cr3 c pde i) (hi : i < 1023) (hpres : (s.mem cr3 i).present = true) :
    copyTables cr3 pde (left + 1) i s = (sharePages (s.mem cr3 i).index 1024 0 s).bind fun s₁ =>
      (s₁.copyPage cr3 (pteAddr i)).bind fun r => copyTables cr3 pde left (i + 1)
        (r.2.setWord pde i { r.2.mem pde i with index := r.1 % 1048576 }) := by
  rw [copyTables, h.todo i (le_refl i) hi, hpres]
  simp only [Bool.not_true, Bool.false_eq_true, reduceIte,
    h.tables.walk_pteAddr h.parent (show i < 1024 by omega) hpres, Option.bind_eq_bind, Option.bind_some]

/-- One table is shared and copied. -/
theorem Copying.step {s s₁ s₂ v : Memory} {T : Place → Option ℕ} {i p : ℕ}
    (h : Copying s T pid cr3 c pde i) (hi : 4 ≤ i ∧ i < 1023) (hpres : (s.mem cr3 i).present = true)
    (hshare : sharePages (s.mem cr3 i).index 1024 0 s = some s₁) (hpage : s₁.copyPage cr3 (pteAddr i) = some (p, s₂))
    (hv : v = s₂.setWord pde i { s₂.mem pde i with index := p % 1048576 }) :
    ∃ T₁, Copying v T₁ pid cr3 c pde (i + 1) ∧
      SameTasks s v ∧ (∀ r, (∀ o, r ≠ (c, i, o)) → T₁ r = T r) ∧ T₁ (c, i, none) = some p ∧
      (∀ r, T r ≠ some p) ∧ v.mem pde i = { s.mem cr3 i with index := p } ∧
      (∀ d, d ≠ i → v.mem pde d = s.mem pde d) ∧
      (∀ f, f ≠ 2 → f ≠ pde → f ≠ p → f ≠ (s.mem cr3 i).index → v.mem f = s.mem f) ∧
      ∀ t < 1024, v.mem (s.mem cr3 i).index t = (s.mem (s.mem cr3 i).index t).share ∧
        v.mem p t = (s.mem (s.mem cr3 i).index t).share ∧
        T₁ (c, i, some t) = (s.mem (s.mem cr3 i).index t).get.map PageEntry.index := by
  have hcr3 := (h.tables.dir h.parent).2
  have hpde := h.pde_range
  have hne : pde ≠ cr3 := by
    rintro rfl
    exact h.pde_fresh pid h.parent
  obtain ⟨-, hdT, hhigh⟩ := h.tables.table_high h.parent hi hpres
  obtain ⟨T', hsh⟩ := sharePages_spec hi h.child_lt 1024 0 s s₁ T rfl h.tables h.counts h.parent
    hpres h.child (fun t _ => h.unref i (some t) (le_refl i)) hshare
  -- the copy of the table
  have hp₁ : s₁.pdeOf pid = some cr3 := by rw [hsh.same.pdeOf]; exact h.parent
  have hmemcr3 : s₁.mem cr3 = s.mem cr3 := hsh.frame cr3 (by omega)
  have hplace : (c, i, none) ∈ places := dir_mem_places.mpr ⟨h.child_lt, hi⟩
  have hnone : T' (c, i, none) = none := by
    rw [hsh.other _ fun t _ => by simp]
    exact h.unref i none (le_refl i)
  have hlast := h.tables.last h.parent
  have hwalk : s₁.walk cr3 (pteAddr i) = some (s.mem cr3 i).index := by
    rw [hsh.tables.walk_pteAddr hp₁ (by omega) (by rw [hmemcr3]; exact hpres), hmemcr3]
  obtain ⟨hlo, hhi, hfresh, hent, htab, htaken, hsame, hmem⟩ := hsh.tables.copyPage hp₁ hsh.counts hwalk
    (by rw [didx_pteAddr (by omega), hmemcr3, hlast.2]; omega) (by omega) hpage
  have hcnt := hsh.counts.taken hplace hnone hlo htaken.1 htaken.2.1 htaken.2.2
  have hTp : ∀ r, T r ≠ some p := by
    intro r hr
    by_cases hrc : ∀ t, 0 ≤ t → r ≠ (c, i, some t)
    · exact hfresh r (by rw [hsh.other r hrc]; exact hr)
    · push Not at hrc
      obtain ⟨t, -, rfl⟩ := hrc
      rw [h.unref i (some t) (le_refl i)] at hr
      exact absurd hr (by simp)
  have hpT : p ≠ (s.mem cr3 i).index := by
    rintro rfl
    exact hTp _ hdT
  have hchild₂ : s₂.pdeOf c = none := by rw [hsame.pdeOf, hsh.same.pdeOf]; exact h.child
  have hnoent : s₂.entryAt (c, i, none) = none := by
    refine Option.eq_none_iff_forall_not_mem.mpr fun e he => ?_
    obtain ⟨-, pde', hp', -⟩ := entryAt_dir.mp he
    rw [hchild₂] at hp'
    exact absurd hp' (by simp)
  have htab₂ := htab.add hplace hnoent hlo hhi (fun _ _ => hfresh _) fun _ => hfresh
  -- the new directory entry
  have hmempde : ∀ d, s₂.mem pde d = s.mem pde d := fun d => by
    rw [hmem pde (by omega), if_neg (by omega), hsh.frame pde (by omega)]
  have hvother : ∀ f, f ≠ pde → v.mem f = s₂.mem f := fun f hf => by
    rw [hv]
    exact funext fun j => if_neg fun hc => hf hc.1
  have hvpde : ∀ d, d ≠ i → v.mem pde d = s.mem pde d := fun d hdi => by
    rw [← hmempde d, hv]
    exact if_neg fun hc => hdi hc.2
  have hvi : v.mem pde i = { s.mem cr3 i with index := p } := by
    rw [hv, hmempde, h.todo i (le_refl i) hi.2, Nat.mod_eq_of_lt hhi]
    exact if_pos ⟨rfl, rfl⟩
  have hvsame : SameTasks s v := (hsh.same.trans hsame).trans ⟨by rw [hv]; rfl, by rw [hv]; rfl⟩
  have hvtab := (htab₂.of_loose (u := v) (fun pid' => by rw [hv]; rfl) fun f => by
    by_cases hf : f = pde
    · refine Or.inl (htab₂.loose_of_lt (by omega) fun pid' hp' => ?_)
      rw [hsame.pdeOf, hsh.same.pdeOf, hf] at hp'
      exact h.pde_fresh pid' hp'
    · exact Or.inr (hvother f hf)).2
  have hframe : ∀ f, f ≠ 2 → f ≠ pde → f ≠ p → f ≠ (s.mem cr3 i).index → v.mem f = s.mem f :=
    fun f h2 hfp hfn hft => by rw [hvother f hfp, hmem f h2, if_neg hfn, hsh.frame f hft]
  have hcr3v : v.mem cr3 = s.mem cr3 := hframe cr3 (by omega) (Ne.symm hne) (by omega) (by omega)
  refine ⟨Function.update T' (c, i, none) (some p), ⟨hvtab, hcnt.congr (by rw [hv]; rfl)
    (by rw [hv]; rfl), ?_, ?_, h.child_lt, hpde, fun pid' => ?_, fun d hdi hd => ?_, fun d o hdi => ?_⟩,
    hvsame, fun r hr => ?_, Function.update_self _ _ _, hTp, hvi, hvpde, hframe, fun t ht => ?_⟩
  · rw [hvsame.pdeOf]
    exact h.parent
  · rw [hvsame.pdeOf]
    exact h.child
  · rw [hvsame.pdeOf]
    exact h.pde_fresh pid'
  · rw [hvpde d (by omega), h.todo d (by omega) hd, hcr3v]
  · rw [Function.update_of_ne (by simp; omega), hsh.other _ fun t _ => by simp; omega]
    exact h.unref d o (by omega)
  · rw [Function.update_of_ne (hr none), hsh.other r fun t _ => hr (some t)]
  · refine ⟨?_, ?_, ?_⟩
    · rw [hvother _ (by omega), hmem _ (by omega), if_neg (Ne.symm hpT)]
      exact hsh.entry t (Nat.zero_le t) ht
    · rw [hvother _ (by omega), hmem _ (by omega), if_pos rfl]
      exact hsh.entry t (Nat.zero_le t) ht
    · rw [Function.update_of_ne (by simp)]
      exact hsh.refs t (Nat.zero_le t) ht

/-- **The loop of `copy_pde`.** -/
theorem copyTables_spec :
    ∀ (left i : ℕ) (s u : Memory) (T : Place → Option ℕ), i + left = 1023 → 4 ≤ i →
      Copying s T pid cr3 c pde i → copyTables cr3 pde left i s = some u →
      ∃ T', Copied s T cr3 c pde i u T' := by
  intro left
  induction left with
  | zero =>
    intro i s u T hi _ h hcopy
    obtain rfl := Option.some.inj hcopy
    exact ⟨T, h.tables, h.counts, SameTasks.refl _, fun _ _ => rfl, fun _ _ _ _ => rfl,
      fun _ _ _ _ => rfl, fun d hid hd => absurd hd (by omega), fun _ _ => rfl,
      fun d hid hd => absurd hd (by omega), fun d hid hd => absurd hd (by omega)⟩
  | succ left ih =>
    intro i s u T hi hlo h hcopy
    have hcr3 := (h.tables.dir h.parent).2
    cases hpres : (s.mem cr3 i).present with
    | false =>
      rw [copyTables, h.todo i (le_refl i) (by omega), if_pos (by rw [hpres]; rfl)] at hcopy
      obtain ⟨T', hc⟩ := ih (i + 1) s u T (by omega) (by omega)
        ⟨h.tables, h.counts, h.parent, h.child, h.child_lt, h.pde_range, h.pde_fresh,
          fun d hid => h.todo d (by omega), fun d o hid => h.unref d o (by omega)⟩ hcopy
      refine ⟨T', hc.tables, hc.counts, hc.same, fun r hr => hc.other r fun d o hid => hr d o (by omega),
        hc.kernel, fun r f hf hno => hc.frame r f hf fun d hid hd hp => hno d (by omega) hd hp,
        fun d hid hd hp => ?_, fun d hd => hc.before d (by omega), fun d hid hd hp => ?_,
        fun d hid hd hp => ?_⟩
      · have hne : d ≠ i := by
          rintro rfl
          rw [hpres] at hp
          exact Bool.noConfusion hp
        exact hc.shared d (by omega) hd hp
      · rcases Nat.eq_or_lt_of_le hid with rfl | hlt
        · rw [hc.before i (by omega), h.todo i (le_refl i) hd]
          refine ⟨hpres, fun o => ?_⟩
          rw [hc.other _ fun d' o' hid' => by simp; omega]
          exact h.unref i o (le_refl i)
        · exact hc.absent d hlt hd hp
      · have hne : d ≠ i := by
          rintro rfl
          rw [hpres] at hp
          exact Bool.noConfusion hp
        exact hc.present d (by omega) hd hp
    | true =>
      rw [h.copyTables_present (by omega) hpres] at hcopy
      obtain ⟨s₁, hshare, hcopy⟩ := Option.bind_eq_some_iff.mp hcopy
      obtain ⟨⟨p, s₂⟩, hpage, hcopy⟩ := Option.bind_eq_some_iff.mp hcopy
      obtain ⟨v, heq⟩ : ∃ v, v = s₂.setWord pde i { s₂.mem pde i with index := p % 1048576 } := ⟨_, rfl⟩
      simp only [← heq] at hcopy
      obtain ⟨T₁, hv, hsame, hother, hTp, hfresh, hvi, hvpde, hframe, htable⟩ :=
        h.step ⟨hlo, by omega⟩ hpres hshare hpage heq
      obtain ⟨T', hc⟩ := ih (i + 1) v u T₁ (by omega) (by omega) hv hcopy
      have hne : pde ≠ cr3 := by
        rintro rfl
        exact h.pde_fresh pid h.parent
      have hhigh := (h.tables.table_high h.parent ⟨hlo, by omega⟩ hpres).2.2
      have hphigh := (hv.tables.high hTp).2.1
      have hcr3v : v.mem cr3 = s.mem cr3 := hframe cr3 (by omega) (Ne.symm hne) (by omega) (by omega)
      -- the tables of the parent are different frames, and the new frame is another
      have hdT : ∀ {d}, 4 ≤ d → d < 1023 → (s.mem cr3 d).present = true →
          T (pid, d, none) = some (s.mem cr3 d).index := fun h4 hd hp =>
        (h.tables.table_high h.parent ⟨h4, hd⟩ hp).2.1
      have hdiff : ∀ {d}, i < d → d < 1023 → (s.mem cr3 d).present = true →
          (s.mem cr3 d).index ≠ (s.mem cr3 i).index ∧ (s.mem cr3 d).index ≠ p := by
        intro d hid hd hp
        refine ⟨fun heq => ?_, fun heq => hfresh _ (heq ▸ hdT (by omega) hd hp)⟩
        have hs := h.tables.single (hdT hlo (by omega) hpres) (heq ▸ hdT (by omega) hd hp)
        simp only [Prod.mk.injEq, and_true, true_and] at hs
        omega
      have htab : ∀ {d}, i < d → d < 1023 → (s.mem cr3 d).present = true →
          v.mem (s.mem cr3 d).index = s.mem (s.mem cr3 d).index := by
        intro d hid hd hp
        have := (h.tables.table_high h.parent ⟨by omega, hd⟩ hp).2.2
        have hpde := h.pde_range
        exact hframe _ (by omega) (by omega) (hdiff hid hd hp).2 (hdiff hid hd hp).1
      have hlater : ∀ {f}, (∀ d, i < d → d < 1023 → (s.mem cr3 d).present = true →
          f ≠ (s.mem cr3 d).index) → ∀ d, i + 1 ≤ d → d < 1023 → (v.mem cr3 d).present = true →
          f ≠ (v.mem cr3 d).index := by
        intro f hf d hid hd hp
        rw [hcr3v] at hp ⊢
        exact hf d hid hd hp
      have hmemp : u.mem p = v.mem p :=
        hc.frame _ _ hTp (hlater fun d hid hd hp heq => (hdiff hid hd hp).2 heq.symm)
      have hmemi : u.mem (s.mem cr3 i).index = v.mem (s.mem cr3 i).index := by
        have hTi : T₁ (pid, i, none) = some (s.mem cr3 i).index := by
          rw [hother _ fun o => ?_]
          · exact hdT hlo (by omega) hpres
          · have hcp : pid ≠ c := by
              rintro rfl
              exact absurd (h.child.symm.trans h.parent) (by simp)
            simp [hcp]
        exact hc.frame _ _ hTi (hlater fun d hid hd hp heq => (hdiff hid hd hp).1 heq.symm)
      have hbi : u.mem pde i = { s.mem cr3 i with index := p } := by
        rw [hc.before i (by omega), hvi]
      refine ⟨T', hc.tables, hc.counts, hsame.trans hc.same, fun r hr => ?_, fun f hf h2 hfp => ?_,
        fun r f hf hno => ?_, fun d hid hd hp t ht => ?_, fun d hd => ?_, fun d hid hd hp => ?_,
        fun d hid hd hp => ?_⟩
      · rw [hc.other r fun d o hid => hr d o (by omega), hother r fun o => hr i o (le_refl i)]
      · rw [hc.kernel f hf h2 hfp, hframe f h2 hfp (by omega) (by omega)]
      · have hf4 := (h.tables.high hf).2.1
        have hpde := h.pde_range
        have hrc : ∀ o, r ≠ (c, i, o) := by
          rintro o rfl
          rw [h.unref i o (le_refl i)] at hf
          exact absurd hf (by simp)
        have hfp : f ≠ p := by
          rintro rfl
          exact hfresh r hf
        rw [hc.frame r f (by rw [hother r hrc]; exact hf)
            (hlater fun d hid hd hp => hno d (by omega) hd hp),
          hframe f (by omega) (by omega) hfp (hno i (le_refl i) (by omega) hpres)]
      · rcases Nat.eq_or_lt_of_le hid with rfl | hlt
        · rw [hmemi]
          exact (htable t ht).1
        · have := hc.shared d hlt hd (by rw [hcr3v]; exact hp) t ht
          rw [hcr3v, htab hlt hd hp] at this
          exact this
      · rw [hc.before d (by omega), hvpde d (by omega)]
      · have hlt : i < d := by
          rcases Nat.eq_or_lt_of_le hid with rfl | hlt
          · rw [hpres] at hp
            exact Bool.noConfusion hp
          · exact hlt
        exact hc.absent d hlt hd (by rw [hcr3v]; exact hp)
      · rcases Nat.eq_or_lt_of_le hid with rfl | hlt
        · rw [hbi]
          refine ⟨hpres, ?_, fun t ht => ⟨?_, ?_⟩⟩
          · rw [hc.other _ fun d' o' hid' => by simp; omega]
            exact hTp
          · rw [hmemp]
            exact (htable t ht).2.1
          · rw [hc.other _ fun d' o' hid' => by simp; omega]
            exact (htable t ht).2.2
        · have := hc.present d hlt hd (by rw [hcr3v]; exact hp)
          rw [hcr3v, htab hlt hd hp] at this
          exact this

end Copy

/-! ### Releasing the tables -/

/-- What the loops of `free_pde` do: the references at the places `R` are given back. -/
structure Released (s : Memory) (T : Place → Option ℕ) (R : Place → Prop) (u : Memory)
    (T' : Place → Option ℕ) : Prop where
  /-- The tables are well built. -/
  tables : u.Tables T'
  /-- The counters are exact. -/
  counts : u.Counts T'
  /-- Nothing else changes. -/
  only : OnlyCounts s u
  /-- The other references stay. -/
  other : ∀ r, ¬R r → T' r = T r
  /-- The references are gone. -/
  gone : ∀ r, R r → T' r = none

section Release

variable {s u v : Memory} {T T' T'' : Place → Option ℕ} {R R' : Place → Prop} {pid d : ℕ}

theorem Released.trans (h : Released s T R u T') (h' : Released u T' R' v T'') :
    Released s T (fun r => R r ∨ R' r) v T'' := by
  refine ⟨h'.tables, h'.counts, h.only.trans h'.only, fun r hr => ?_, fun r hr => ?_⟩
  · rw [not_or] at hr
    rw [h'.other r hr.2, h.other r hr.1]
  · by_cases hr' : R' r
    · exact h'.gone r hr'
    · rw [h'.other r hr', h.gone r (hr.resolve_right hr')]

/-- Only the places with references matter. -/
theorem Released.congr (h : Released s T R u T') (hR : ∀ r, R r → R' r)
    (hnone : ∀ r, R' r → ¬R r → T r = none) : Released s T R' u T' := by
  refine ⟨h.tables, h.counts, h.only, fun r hr => h.other r fun hc => hr (hR r hc), fun r hr => ?_⟩
  by_cases hr' : R r
  · exact h.gone r hr'
  · rw [h.other r hr', hnone r hr hr']

theorem entryAt_of_dead (h : s.pdeOf pid = none) (r : ℕ × Option ℕ) : s.entryAt (pid, r) = none := by
  rw [entryAt, h]
  split <;> rfl

/-- **`put_page`** for a place of a task that is no longer one. -/
theorem Released.putPage (ht : s.Tables T) (hc : s.Counts T) (hdead : s.pdeOf pid = none)
    {o : Option ℕ} {p : ℕ} (hT : T (pid, d, o) = some p) (hput : s.putPage p = some u) :
    Released s T (· = (pid, d, o)) u (Function.update T (pid, d, o) none) := by
  obtain ⟨hr, hlo, -⟩ := ht.high hT
  obtain ⟨honly, hcounts⟩ := hc.putPage hr hT hlo hput
  exact ⟨(honly.tables ht).drop (by rw [honly.entryAt]; exact entryAt_of_dead hdead _), hcounts, honly,
    fun r hr => Function.update_of_ne hr _ _, fun r hr => by rw [hr, Function.update_self]⟩

/-- **The inner loop of `free_pde`.** -/
theorem putPages_spec {f : ℕ} :
    ∀ (left i : ℕ) (s u : Memory) (T : Place → Option ℕ), i + left = 1024 → s.Tables T → s.Counts T →
      s.pdeOf pid = none →
      (∀ t, i ≤ t → t < 1024 → T (pid, d, some t) = (s.mem f t).get.map PageEntry.index) →
      putPages f left i s = some u →
      ∃ T', Released s T (fun r => ∃ t, i ≤ t ∧ t < 1024 ∧ r = (pid, d, some t)) u T' := by
  intro left
  induction left with
  | zero =>
    intro i s u T hi ht hc _ _ h
    obtain rfl := Option.some.inj h
    exact ⟨T, ht, hc, OnlyCounts.refl s, fun _ _ => rfl, fun _ ⟨t, hit, hlt, _⟩ => absurd hlt (by omega)⟩
  | succ left ih =>
    intro i s u T hi ht hc hdead hrefs h
    have hrefi := hrefs i (le_refl i) (by omega)
    rw [putPages] at h
    cases hent : (s.mem f i).present with
    | false =>
      rw [if_pos (by rw [hent]; rfl)] at h
      rw [PageEntry.get_of_absent hent] at hrefi
      obtain ⟨T', hrel⟩ := ih (i + 1) s u T (by omega) ht hc hdead
        (fun t hit => hrefs t (by omega)) h
      refine ⟨T', hrel.congr (fun r ⟨t, hit, hlt, hr⟩ => ⟨t, by omega, hlt, hr⟩) ?_⟩
      rintro r ⟨t, hit, hlt, rfl⟩ hno
      rcases Nat.eq_or_lt_of_le hit with rfl | hlt'
      · exact hrefi
      · exact absurd ⟨t, hlt', hlt, rfl⟩ hno
    | true =>
      rw [if_neg (by rw [hent]; exact Bool.noConfusion)] at h
      rw [PageEntry.get_of_present hent] at hrefi
      obtain ⟨_, -, h⟩ := Option.bind_eq_some_iff.mp h
      obtain ⟨v, hput, h⟩ := Option.bind_eq_some_iff.mp h
      have hone := Released.putPage ht hc hdead hrefi hput
      obtain ⟨T', hrel⟩ := ih (i + 1) v u _ (by omega) hone.tables hone.counts
        (by rw [hone.only.pdeOf]; exact hdead)
        (fun t hit hlt => by
          rw [Function.update_of_ne (by simp; omega), hone.only.mem]
          exact hrefs t (by omega) hlt) h
      refine ⟨T', (hone.trans hrel).congr ?_ ?_⟩
      · rintro r (rfl | ⟨t, hit, hlt, rfl⟩)
        · exact ⟨i, le_refl i, by omega, rfl⟩
        · exact ⟨t, by omega, hlt, rfl⟩
      · rintro r ⟨t, hit, hlt, rfl⟩ hno
        rw [not_or] at hno
        rcases Nat.eq_or_lt_of_le hit with rfl | hlt'
        · exact absurd rfl hno.1
        · exact absurd ⟨t, hlt', hlt, rfl⟩ hno.2

/-- Before entry `i` of `free_pde`'s outer loop: `pde` was the directory of task `pid`, whose
references from entry `i` on are still counted. -/
structure Leaving (s : Memory) (T : Place → Option ℕ) (pid pde i : ℕ) : Prop where
  /-- The tables are well built. -/
  tables : s.Tables T
  /-- The counters are exact. -/
  counts : s.Counts T
  /-- The task is no longer one. -/
  dead : s.pdeOf pid = none
  /-- The last entry of the directory is the directory. -/
  last : (s.mem pde 1023).present = true ∧ (s.mem pde 1023).index = pde
  /-- A table that is not there makes no references. -/
  absent : ∀ d, i ≤ d → d < 1023 → (s.mem pde d).present = false → ∀ o, T (pid, d, o) = none
  /-- A table that is there does. -/
  present : ∀ d, i ≤ d → d < 1023 → (s.mem pde d).present = true →
    T (pid, d, none) = some (s.mem pde d).index ∧
      ∀ t < 1024, T (pid, d, some t) = (s.mem (s.mem pde d).index t).get.map PageEntry.index

/-- The references of the later entries do not depend on the others. -/
theorem Leaving.of_released {pde i : ℕ} (h : Leaving s T pid pde i) (hrel : Released s T R u T')
    (hR : ∀ d o, i + 1 ≤ d → ¬R (pid, d, o)) : Leaving u T' pid pde (i + 1) := by
  have hmem := hrel.only.mem
  refine ⟨hrel.tables, hrel.counts, by rw [hrel.only.pdeOf]; exact h.dead, by rw [hmem]; exact h.last,
    fun d hid hd habs o => ?_, fun d hid hd hpres => ?_⟩
  · rw [hmem] at habs
    rw [hrel.other _ (hR d o hid)]
    exact h.absent d (by omega) hd habs o
  · rw [hmem] at hpres
    obtain ⟨hdir, hpages⟩ := h.present d (by omega) hd hpres
    rw [hmem, hrel.other _ (hR d none hid)]
    refine ⟨hdir, fun t ht => ?_⟩
    rw [hrel.other _ (hR d (some t) hid)]
    exact hpages t ht

/-- **The loop of `free_pde`.** -/
theorem putTables_spec {pde : ℕ} :
    ∀ (left i : ℕ) (s u : Memory) (T : Place → Option ℕ), i + left = 1023 →
      Leaving s T pid pde i → putTables pde pde left i s = some u →
      ∃ T', Released s T (fun r => r.1 = pid ∧ i ≤ r.2.1) u T' := by
  intro left
  induction left with
  | zero =>
    intro i s u T hi h hput
    obtain rfl := Option.some.inj hput
    have hnone : ∀ r, r.1 = pid ∧ i ≤ r.2.1 → T r = none := by
      rintro ⟨pid', d, o⟩ ⟨-, hid⟩
      refine Option.eq_none_iff_forall_not_mem.mpr fun p hp => ?_
      obtain ⟨-, -, hd, -⟩ := mem_places.mp (h.tables.high hp).1
      exact absurd hid (by simp only; omega)
    exact ⟨T, h.tables, h.counts, OnlyCounts.refl s, fun _ _ => rfl, hnone⟩
  | succ left ih =>
    intro i s u T hi h hput
    rw [putTables] at hput
    cases hpres : (s.mem pde i).present with
    | false =>
      rw [if_pos (by rw [hpres]; rfl)] at hput
      have habs := h.absent i (le_refl i) (by omega) hpres
      have hnil : Released s T (fun _ => False) s T :=
        ⟨h.tables, h.counts, OnlyCounts.refl s, fun _ _ => rfl, fun _ hf => hf.elim⟩
      obtain ⟨T', hrel⟩ := ih (i + 1) s u T (by omega) (h.of_released hnil fun _ _ _ hf => hf) hput
      refine ⟨T', hrel.congr (fun r ⟨hr, hid⟩ => ⟨hr, by omega⟩) ?_⟩
      rintro ⟨pid', d, o⟩ ⟨rfl, hid⟩ hno
      rcases Nat.eq_or_lt_of_le hid with rfl | hlt
      · exact habs o
      · exact absurd ⟨rfl, hlt⟩ hno
    | true =>
      rw [if_neg (by rw [hpres]; exact Bool.noConfusion)] at hput
      obtain ⟨hdir, hpages⟩ := h.present i (le_refl i) (by omega) hpres
      obtain ⟨table, hwalk, htail⟩ := Option.bind_eq_some_iff.mp hput
      obtain ⟨v, hput₁, htail'⟩ := Option.bind_eq_some_iff.mp htail
      obtain ⟨w, hput₂, hloop⟩ := Option.bind_eq_some_iff.mp htail'
      have htable : table = (s.mem pde i).index := by
        obtain ⟨-, -, hidx⟩ := walk_eq_some.mp hwalk
        rw [didx_pteAddr (by omega), tidx_pteAddr (by omega), h.last.2] at hidx
        exact hidx.symm
      subst htable
      -- first the pages of the table, then the table
      obtain ⟨T₁, hrel₁⟩ := putPages_spec (d := i) 1024 0 s v T rfl h.tables h.counts h.dead
        (fun t _ ht => hpages t ht) hput₁
      have hdir₁ : T₁ (pid, i, none) = some (v.mem pde i).index := by
        rw [hrel₁.other _ (by simp), hrel₁.only.mem]
        exact hdir
      have hrel₂ := hrel₁.trans (Released.putPage hrel₁.tables hrel₁.counts
        (by rw [hrel₁.only.pdeOf]; exact h.dead) hdir₁ hput₂)
      have hlater : Leaving w _ pid pde (i + 1) := h.of_released hrel₂ fun d o hid hR => by
        rcases hR with ⟨t, -, -, heq⟩ | heq
        · simp only [Prod.mk.injEq] at heq
          omega
        · simp only [Prod.mk.injEq] at heq
          omega
      obtain ⟨T', hrel⟩ := ih (i + 1) w u _ (by omega) hlater hloop
      refine ⟨T', (hrel₂.trans hrel).congr ?_ ?_⟩
      · rintro r ((⟨t, -, -, rfl⟩ | rfl) | ⟨hr, hid⟩)
        · exact ⟨rfl, le_refl i⟩
        · exact ⟨rfl, le_refl i⟩
        · exact ⟨hr, by omega⟩
      · rintro ⟨pid', d, o⟩ ⟨rfl, hid⟩ hno
        rcases Nat.eq_or_lt_of_le hid with rfl | hlt
        · refine Option.eq_none_iff_forall_not_mem.mpr fun p hp => hno (Or.inl ?_)
          cases o with
          | none => exact Or.inr rfl
          | some t =>
            have ht := (page_mem_places.mp (h.tables.high hp).1).2.2.2
            exact Or.inl ⟨t, Nat.zero_le t, ht, rfl⟩
        · exact absurd (Or.inr ⟨rfl, hlt⟩) hno

end Release

end Memory

end Onixs
