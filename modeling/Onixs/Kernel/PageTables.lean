import Mathlib.Data.Finset.Option
import Mathlib.Data.Finset.Prod
import Mathlib.Order.Interval.Finset.Nat
import Onixs.Common.RefCount
import Onixs.Kernel.Memory

/-!
# The page tables of all tasks

The user part of the address spaces, seen as one table: a *place* is a task, an entry of
its page directory and, for the entry of a page table, the place in that table
(`Onixs.Memory.Place`). `Onixs.Memory.entryAt` is the present entry at a place, and
`Onixs.Memory.target` the frame it refers to.

`Onixs.Memory.Tables` says that the tables are well built, against a *ghost* `T` of the
references that are counted. Between two operations `T` is `Onixs.Memory.target`; while an
address space is copied or released `T` has references that no live task has, those of
the copy that is not yet a task, or of the task that is no longer one. The file's
results are frame lemmas: what a store in a page table, a new page table, or a store
anywhere else does to the entries.
-/

namespace Onixs

/-- The entry, if it is present. -/
def PageEntry.get (e : PageEntry) : Option PageEntry := if e.present then some e else none

theorem PageEntry.get_eq_some {e e' : PageEntry} : e.get = some e' ↔ e.present = true ∧ e = e' := by
  rw [PageEntry.get]
  by_cases h : e.present = true
  · simp [h]
  · simp [h]

theorem PageEntry.get_of_present {e : PageEntry} (h : e.present = true) : e.get = some e := if_pos h

theorem PageEntry.get_of_absent {e : PageEntry} (h : e.present = false) : e.get = none :=
  if_neg (by rw [h]; exact Bool.noConfusion)

theorem entryInit_present (f : ℕ) : (entryInit f).present = true := rfl

theorem entryInit_index {f : ℕ} (h : f < 1048576) : (entryInit f).index = f := Nat.mod_eq_of_lt h

namespace Memory

/-! ### Places -/

/-- A task, an entry of its page directory, and an entry of the table found there. -/
abbrev Place : Type := ℕ × ℕ × Option ℕ

/-- The places of `n` tasks, with directory entries from `lo` to `hi` and tables of `k`
entries. -/
def placesOf (n lo hi k : ℕ) : Finset Place :=
  Finset.range n ×ˢ Finset.Ico lo hi ×ˢ Finset.insertNone (Finset.range k)

theorem mem_placesOf {n lo hi k pid d : ℕ} {o : Option ℕ} :
    (pid, d, o) ∈ placesOf n lo hi k ↔ pid < n ∧ lo ≤ d ∧ d < hi ∧ ∀ t, o = some t → t < k := by
  rw [placesOf, Finset.mem_product, Finset.mem_product, Finset.mem_insertNone]
  simp only [Finset.mem_Ico, Finset.mem_range, Option.mem_def, and_assoc]

/-- The places of the user part of the address spaces. -/
@[irreducible] def places : Finset Place := placesOf 64 4 1023 1024

theorem mem_places {pid d : ℕ} {o : Option ℕ} :
    (pid, d, o) ∈ places ↔ pid < 64 ∧ 4 ≤ d ∧ d < 1023 ∧ ∀ t, o = some t → t < 1024 := by
  unfold places
  exact mem_placesOf

theorem dir_mem_places {pid d : ℕ} : (pid, d, none) ∈ places ↔ pid < 64 ∧ 4 ≤ d ∧ d < 1023 := by
  rw [mem_places]
  simp

theorem page_mem_places {pid d t : ℕ} :
    (pid, d, some t) ∈ places ↔ pid < 64 ∧ 4 ≤ d ∧ d < 1023 ∧ t < 1024 := by
  rw [mem_places]
  simp

section View

variable (s : Memory)

/-- The page directory of a task that runs or may run. -/
def pdeOf (pid : ℕ) : Option ℕ := (s.running pid).map Task.pde

/-- The present entry at a place. -/
def entryAt (r : Place) : Option PageEntry :=
  if r ∈ places then
    (s.pdeOf r.1).bind fun pde => (s.mem pde r.2.1).get.bind fun dentry =>
      match r.2.2 with
      | none => some dentry
      | some t => (s.mem dentry.index t).get
  else none

/-- The frame a place refers to. -/
def target (r : Place) : Option ℕ := (s.entryAt r).map PageEntry.index

end View

section Entry

variable {s : Memory} {pid d t : ℕ} {e : PageEntry}

theorem mem_of_entryAt {r : Place} (h : s.entryAt r = some e) : r ∈ places := by
  by_contra hr
  rw [entryAt, if_neg hr] at h
  exact absurd h (by simp)

theorem entryAt_dir : s.entryAt (pid, d, none) = some e ↔
    (pid, d, none) ∈ places ∧ ∃ pde, s.pdeOf pid = some pde ∧ s.mem pde d = e ∧ e.present = true := by
  constructor
  · intro h
    have hmem := mem_of_entryAt h
    rw [entryAt, if_pos hmem] at h
    obtain ⟨pde, hpde, h⟩ := Option.bind_eq_some_iff.mp h
    obtain ⟨dentry, hd, h⟩ := Option.bind_eq_some_iff.mp h
    obtain ⟨hpres, hd⟩ := PageEntry.get_eq_some.mp hd
    obtain rfl := Option.some.inj h
    exact ⟨hmem, pde, hpde, hd, hd ▸ hpres⟩
  · rintro ⟨hmem, pde, hpde, rfl, hpres⟩
    rw [entryAt, if_pos hmem, hpde, Option.bind_some, PageEntry.get_of_present hpres,
      Option.bind_some]

theorem entryAt_page : s.entryAt (pid, d, some t) = some e ↔
    (pid, d, some t) ∈ places ∧ ∃ pde, s.pdeOf pid = some pde ∧ (s.mem pde d).present = true ∧
      s.mem (s.mem pde d).index t = e ∧ e.present = true := by
  constructor
  · intro h
    have hmem := mem_of_entryAt h
    rw [entryAt, if_pos hmem] at h
    obtain ⟨pde, hpde, h⟩ := Option.bind_eq_some_iff.mp h
    obtain ⟨dentry, hd, h⟩ := Option.bind_eq_some_iff.mp h
    obtain ⟨hpres, rfl⟩ := PageEntry.get_eq_some.mp hd
    obtain ⟨hpres', he⟩ := PageEntry.get_eq_some.mp h
    exact ⟨hmem, pde, hpde, hpres, he, he ▸ hpres'⟩
  · rintro ⟨hmem, pde, hpde, hpres, rfl, hpres'⟩
    rw [entryAt, if_pos hmem, hpde, Option.bind_some, PageEntry.get_of_present hpres,
      Option.bind_some]
    exact PageEntry.get_of_present hpres'

/-- The entries depend on the tasks, their directories and their tables only. -/
theorem entryAt_congr {u : Memory} (hpde : ∀ pid, u.pdeOf pid = s.pdeOf pid)
    (hdir : ∀ pid pde, s.pdeOf pid = some pde → ∀ d, 4 ≤ d → d < 1023 → u.mem pde d = s.mem pde d)
    (htab : ∀ pid d e, s.entryAt (pid, d, none) = some e → u.mem e.index = s.mem e.index) :
    u.entryAt = s.entryAt := by
  funext ⟨pid, d, o⟩
  by_cases hmem : (pid, d, o) ∈ places
  · obtain ⟨hpid, hlo, hhi, -⟩ := mem_places.mp hmem
    rw [entryAt, entryAt, if_pos hmem, if_pos hmem, hpde]
    cases hp : s.pdeOf pid with
    | none => rfl
    | some pde =>
      rw [Option.bind_some, Option.bind_some, hdir pid pde hp d hlo hhi]
      cases hd : (s.mem pde d).get with
      | none => rfl
      | some dentry =>
        obtain ⟨hpres, rfl⟩ := PageEntry.get_eq_some.mp hd
        have hent : s.entryAt (pid, d, none) = some (s.mem pde d) :=
          entryAt_dir.mpr ⟨dir_mem_places.mpr ⟨hpid, hlo, hhi⟩, pde, hp, rfl, hpres⟩
        rw [Option.bind_some, Option.bind_some, htab pid d _ hent]
  · rw [entryAt, entryAt, if_neg hmem, if_neg hmem]

theorem target_eq_some {r : Place} {p : ℕ} :
    s.target r = some p ↔ ∃ e, s.entryAt r = some e ∧ e.index = p := by
  rw [target, Option.map_eq_some_iff]

end Entry

/-! ### Well built tables -/

/-- **The page tables are well built**, with the references `T` counted. -/
structure Tables (s : Memory) (T : Place → Option ℕ) : Prop where
  /-- A page directory is a kernel page. -/
  dir : ∀ {pid pde}, s.pdeOf pid = some pde → pid < 64 ∧ 256 ≤ pde ∧ pde < 4096
  /-- Each task has its own. -/
  inj : ∀ {pid pid' pde}, s.pdeOf pid = some pde → s.pdeOf pid' = some pde → pid = pid'
  /-- The first entry of a directory is the table of the first four MiB. -/
  kernel : ∀ {pid pde}, s.pdeOf pid = some pde →
    (s.mem pde 0).present = true ∧ (s.mem pde 0).index = 2
  /-- The last entry of a directory is the directory. -/
  last : ∀ {pid pde}, s.pdeOf pid = some pde →
    (s.mem pde 1023).present = true ∧ (s.mem pde 1023).index = pde
  /-- The entries there are, are counted. -/
  refs : ∀ {r e}, s.entryAt r = some e → T r = some e.index
  /-- User memory is behind the kernel's. -/
  high : ∀ {r p}, T r = some p → r ∈ places ∧ 4096 ≤ p ∧ p < 1048576
  /-- A page table is referred to once. -/
  single : ∀ {pid d r p}, T (pid, d, none) = some p → T r = some p → r = (pid, d, none)

section Walk

variable {s : Memory} {T : Place → Option ℕ} (h : s.Tables T) {pid pde : ℕ}
  (hp : s.pdeOf pid = some pde)

theorem didx_pteAddr {d : ℕ} (hd : d < 1024) : didx (pteAddr d) = 1023 := by
  rw [didx, pteAddr]
  omega

theorem tidx_pteAddr {d : ℕ} (hd : d < 1024) : tidx (pteAddr d) = d := by
  rw [tidx, pteAddr]
  omega

theorem walk_eq_some {cr3 vaddr f : ℕ} : s.walk cr3 vaddr = some f ↔
    (s.mem cr3 (didx vaddr)).present = true ∧
      (s.mem (s.mem cr3 (didx vaddr)).index (tidx vaddr)).present = true ∧
      (s.mem (s.mem cr3 (didx vaddr)).index (tidx vaddr)).index = f := by
  rw [walk]
  simp only [Option.bind_eq_bind, Option.bind_eq_some_iff, assert_eq_some, exists_const,
    Option.pure_def, Option.some.injEq]

include h hp

theorem Tables.walk_pdeAddr : s.walk pde pdeAddr = some pde := by
  obtain ⟨hpres, hidx⟩ := h.last hp
  have hd : didx pdeAddr = 1023 := by decide
  have ht : tidx pdeAddr = 1023 := by decide
  rw [walk_eq_some, hd, ht, hidx]
  exact ⟨hpres, hpres, hidx⟩

theorem Tables.walk_pteAddr {d : ℕ} (hd : d < 1024) (hpres : (s.mem pde d).present = true) :
    s.walk pde (pteAddr d) = some (s.mem pde d).index := by
  obtain ⟨hpres', hidx⟩ := h.last hp
  rw [walk_eq_some, didx_pteAddr hd, tidx_pteAddr hd, hidx]
  exact ⟨hpres', hpres, rfl⟩

/-- The table of a directory entry is a frame behind the kernel's memory. -/
theorem Tables.table_high {d : ℕ} (hd : 4 ≤ d ∧ d < 1023) (hpres : (s.mem pde d).present = true) :
    s.entryAt (pid, d, none) = some (s.mem pde d) ∧ T (pid, d, none) = some (s.mem pde d).index ∧
      4096 ≤ (s.mem pde d).index := by
  have hent : s.entryAt (pid, d, none) = some (s.mem pde d) :=
    entryAt_dir.mpr ⟨dir_mem_places.mpr ⟨(h.dir hp).1, hd⟩, pde, hp, rfl, hpres⟩
  exact ⟨hent, h.refs hent, (h.high (h.refs hent)).2.1⟩

end Walk

/-! ### Stores -/

theorem mem_setWord (s : Memory) (f i : ℕ) (e : PageEntry) (g j : ℕ) :
    (s.setWord f i e).mem g j = if g = f ∧ j = i then e else s.mem g j := rfl

section Stores

variable {s : Memory} {T : Place → Option ℕ} (h : s.Tables T)

/-- A frame that is no page directory and no page table. -/
def Loose (s : Memory) (T : Place → Option ℕ) (f : ℕ) : Prop :=
  (∀ pid, s.pdeOf pid ≠ some f) ∧ ∀ pid d, T (pid, d, none) ≠ some f

include h

/-- A frame of the kernel that is no page directory is loose. -/
theorem Tables.loose_of_lt {f : ℕ} (hf : f < 4096) (hno : ∀ pid, s.pdeOf pid ≠ some f) :
    Loose s T f := by
  refine ⟨hno, fun pid d hT => ?_⟩
  have := (h.high hT).2.1
  omega

/-- A user frame that is no page table is loose. -/
theorem Tables.loose_of_ge {f : ℕ} (hf : 4096 ≤ f) (hno : ∀ pid d, T (pid, d, none) ≠ some f) :
    Loose s T f := by
  refine ⟨fun pid hp => ?_, hno⟩
  have := (h.dir hp).2.2
  omega

/-- The page of an entry is loose. -/
theorem Tables.loose_of_page {pid d t f : ℕ} (hT : T (pid, d, some t) = some f) : Loose s T f := by
  refine h.loose_of_ge (h.high hT).2.1 fun pid' d' hT' => ?_
  have := h.single hT' hT
  simp at this

/-- **Stores in loose frames change no entry.** -/
theorem Tables.of_loose {u : Memory} (hpde : ∀ pid, u.pdeOf pid = s.pdeOf pid)
    (hmem : ∀ f, Loose s T f ∨ u.mem f = s.mem f) : u.entryAt = s.entryAt ∧ u.Tables T := by
  have hdir : ∀ {pid pde}, s.pdeOf pid = some pde → u.mem pde = s.mem pde := by
    intro pid pde hp
    rcases hmem pde with hloose | heq
    · exact absurd hp (hloose.1 pid)
    · exact heq
  have hent : u.entryAt = s.entryAt := by
    refine entryAt_congr hpde (fun pid pde hp d _ _ => by rw [hdir hp]) fun pid d e he => ?_
    rcases hmem e.index with hloose | heq
    · exact absurd (h.refs he) (hloose.2 pid d)
    · exact heq
  refine ⟨hent, ?_, ?_, ?_, ?_, ?_, h.high, h.single⟩
  · intro pid pde hp
    exact h.dir (hpde pid ▸ hp)
  · intro pid pid' pde hp hp'
    exact h.inj (hpde pid ▸ hp) (hpde pid' ▸ hp')
  · intro pid pde hp
    rw [hpde] at hp
    rw [hdir hp]
    exact h.kernel hp
  · intro pid pde hp
    rw [hpde] at hp
    rw [hdir hp]
    exact h.last hp
  · intro r e he
    rw [hent] at he
    exact h.refs he

/-- A reference more: to a fresh frame, or from a page entry to a page. -/
theorem Tables.add {r : Place} {p : ℕ} (hr : r ∈ places) (hnone : s.entryAt r = none)
    (hlo : 4096 ≤ p) (hhi : p < 1048576) (hdir : ∀ pid d, T (pid, d, none) ≠ some p)
    (hfresh : r.2.2 = none → ∀ r', T r' ≠ some p) : s.Tables (Function.update T r (some p)) := by
  refine ⟨h.dir, h.inj, h.kernel, h.last, ?_, ?_, ?_⟩
  · intro r' e he
    rw [Function.update_of_ne (by rintro rfl; rw [hnone] at he; exact absurd he (by simp))]
    exact h.refs he
  · intro r' q hq
    by_cases heq : r' = r
    · subst heq
      rw [Function.update_self] at hq
      obtain rfl := Option.some.inj hq
      exact ⟨hr, hlo, hhi⟩
    · rw [Function.update_of_ne heq] at hq
      exact h.high hq
  · intro pid d r' q hq hq'
    by_cases heq : (pid, d, none) = r
    · subst heq
      rw [Function.update_self] at hq
      obtain rfl := Option.some.inj hq
      by_contra hne
      rw [Function.update_of_ne hne] at hq'
      exact hfresh rfl r' hq'
    · rw [Function.update_of_ne heq] at hq
      by_cases heq' : r' = r
      · subst heq'
        rw [Function.update_self] at hq'
        obtain rfl := Option.some.inj hq'
        exact absurd hq (hdir pid d)
      · rw [Function.update_of_ne heq'] at hq'
        exact h.single hq hq'

/-- A reference less, which no entry makes any more. -/
theorem Tables.drop {r : Place} (hnone : s.entryAt r = none) :
    s.Tables (Function.update T r none) := by
  have hof : ∀ {r' q}, Function.update T r none r' = some q → T r' = some q := by
    intro r' q hq
    by_cases heq : r' = r
    · rw [heq, Function.update_self] at hq
      exact absurd hq (by simp)
    · rwa [Function.update_of_ne heq] at hq
  refine ⟨h.dir, h.inj, h.kernel, h.last, ?_, fun hq => h.high (hof hq),
    fun hq hq' => h.single (hof hq) (hof hq')⟩
  intro r' e he
  rw [Function.update_of_ne (by rintro rfl; rw [hnone] at he; exact absurd he (by simp))]
  exact h.refs he

variable {pid pde d : ℕ} (hp : s.pdeOf pid = some pde) (hd : 4 ≤ d ∧ d < 1023)

include hp hd

/-- **A store in a page table changes the entry of its place.** -/
theorem Tables.entryAt_setWord (hpres : (s.mem pde d).present = true) {t : ℕ} (ht : t < 1024)
    (e : PageEntry) : (s.setWord (s.mem pde d).index t e).entryAt
      = Function.update s.entryAt (pid, d, some t) e.get := by
  obtain ⟨-, hT, hhigh⟩ := h.table_high hp hd hpres
  -- no directory lies in the frame of the table
  have hdir : ∀ {pid' pde'}, s.pdeOf pid' = some pde' →
      (s.setWord (s.mem pde d).index t e).mem pde' = s.mem pde' := by
    intro pid' pde' hp'
    have := (h.dir hp').2.2
    funext j
    exact if_neg fun hc => by omega
  funext ⟨pid', d', o⟩
  by_cases hmem : (pid', d', o) ∈ places
  swap
  · rw [entryAt, if_neg hmem, Function.update_of_ne, entryAt, if_neg hmem]
    rintro heq
    rw [heq] at hmem
    exact hmem (page_mem_places.mpr ⟨(h.dir hp).1, hd.1, hd.2, ht⟩)
  have hpde : (s.setWord (s.mem pde d).index t e).pdeOf pid' = s.pdeOf pid' := rfl
  cases hp' : s.pdeOf pid' with
  | none =>
    rw [Function.update_of_ne, entryAt, entryAt, hpde, hp']
    · rfl
    · rintro heq
      obtain ⟨rfl, -⟩ := Prod.mk.inj heq
      rw [hp] at hp'
      exact absurd hp' (by simp)
  | some pde' =>
    rw [entryAt, if_pos hmem, hpde, hp', Option.bind_some, hdir hp']
    cases hde : (s.mem pde' d').get with
    | none =>
      rw [Function.update_of_ne, entryAt, if_pos hmem, hp', Option.bind_some, hde]
      · rfl
      · rintro heq
        simp only [Prod.mk.injEq] at heq
        obtain ⟨rfl, rfl, -⟩ := heq
        obtain rfl := Option.some.inj (hp.symm.trans hp')
        rw [PageEntry.get_of_present hpres] at hde
        exact absurd hde (by simp)
    | some dentry =>
      obtain ⟨hpres', rfl⟩ := PageEntry.get_eq_some.mp hde
      rw [Option.bind_some]
      obtain ⟨hpid', hd', hd'', ho⟩ := mem_places.mp hmem
      obtain ⟨-, hT', -⟩ := h.table_high hp' ⟨hd', hd''⟩ hpres'
      cases o with
      | none =>
        rw [Function.update_of_ne (by simp), entryAt, if_pos hmem, hp', Option.bind_some, hde]
        rfl
      | some t' =>
        by_cases heq : (pid', d', some t') = (pid, d, some t)
        · rw [heq, Function.update_self]
          simp only [Prod.mk.injEq, Option.some.injEq] at heq
          obtain ⟨rfl, rfl, rfl⟩ := heq
          obtain rfl := Option.some.inj (hp.symm.trans hp')
          exact congrArg PageEntry.get (if_pos ⟨rfl, rfl⟩)
        · rw [Function.update_of_ne heq, entryAt, if_pos hmem, hp', Option.bind_some, hde]
          refine congrArg PageEntry.get (if_neg ?_)
          rintro ⟨hf, rfl⟩
          rw [hf] at hT'
          have hsame := h.single hT hT'
          simp only [Prod.mk.injEq, and_true] at hsame
          exact heq (by rw [hsame.1, hsame.2])

/-- The tables stay well built when the entry stored is counted. -/
theorem Tables.setWord (hpres : (s.mem pde d).present = true) {t : ℕ} (ht : t < 1024)
    {e : PageEntry} (he : e.present = true → T (pid, d, some t) = some e.index) :
    (s.setWord (s.mem pde d).index t e).Tables T := by
  obtain ⟨-, hT, hhigh⟩ := h.table_high hp hd hpres
  have hdir : ∀ {pid' pde'}, s.pdeOf pid' = some pde' →
      (s.setWord (s.mem pde d).index t e).mem pde' = s.mem pde' := by
    intro pid' pde' hp'
    have := (h.dir hp').2.2
    funext j
    exact if_neg fun hc => by omega
  refine ⟨h.dir, h.inj, ?_, ?_, ?_, h.high, h.single⟩
  · intro pid' pde' hp'
    rw [hdir hp']
    exact h.kernel hp'
  · intro pid' pde' hp'
    rw [hdir hp']
    exact h.last hp'
  · intro r e' he'
    rw [h.entryAt_setWord hp hd hpres ht] at he'
    by_cases heq : r = (pid, d, some t)
    · rw [heq, Function.update_self] at he'
      obtain ⟨hpres', rfl⟩ := PageEntry.get_eq_some.mp he'
      rw [heq]
      exact he hpres'
    · rw [Function.update_of_ne heq] at he'
      exact h.refs he'

/-- **A new page table is empty**: only the directory entry changes. -/
theorem Tables.newTable (habs : (s.mem pde d).present = false) {f : ℕ}
    (hT : T (pid, d, none) = some f) :
    ((s.setWord pde d (entryInit f)).setFrame f fun _ => zeroEntry).entryAt
        = Function.update s.entryAt (pid, d, none) (some (entryInit f)) ∧
      ((s.setWord pde d (entryInit f)).setFrame f fun _ => zeroEntry).Tables T := by
  obtain ⟨hplace, hlo, hhi⟩ := h.high hT
  have hidx := entryInit_index hhi
  obtain ⟨u, hu⟩ : ∃ u, u = (s.setWord pde d (entryInit f)).setFrame f fun _ => zeroEntry := ⟨_, rfl⟩
  have hpdes : ∀ pid', u.pdeOf pid' = s.pdeOf pid' := fun pid' => by rw [hu]; rfl
  -- directories change in the one entry only
  have hdir : ∀ {pid' pde' j}, s.pdeOf pid' = some pde' → (pid', j) ≠ (pid, d) →
      u.mem pde' j = s.mem pde' j := by
    intro pid' pde' j hp' hne
    have := (h.dir hp').2.2
    rw [hu]
    refine (congrFun (if_neg (by omega)) j).trans (if_neg ?_)
    rintro ⟨rfl, rfl⟩
    exact hne (by rw [h.inj hp' hp])
  have hnew : u.mem pde d = entryInit f := by
    have := (h.dir hp).2.2
    rw [hu]
    exact (congrFun (if_neg (by omega)) d).trans (if_pos ⟨rfl, rfl⟩)
  -- the other tables are other frames
  have htab : ∀ {pid' d' e}, s.entryAt (pid', d', none) = some e → u.mem e.index = s.mem e.index := by
    intro pid' d' e he
    obtain ⟨hmem', pde', hp', hpe, hpres'⟩ := entryAt_dir.mp he
    have hT' := h.refs he
    have hne : e.index ≠ f := by
      rintro rfl
      have hsame := h.single hT hT'
      simp only [Prod.mk.injEq, and_true] at hsame
      obtain ⟨rfl, rfl⟩ := hsame
      obtain rfl := Option.some.inj (hp.symm.trans hp')
      rw [← hpe, habs] at hpres'
      exact Bool.noConfusion hpres'
    have hge := (h.high hT').2.1
    have hlt := (h.dir hp).2.2
    rw [hu]
    refine (if_neg hne).trans (funext fun j => if_neg ?_)
    rintro ⟨hc, -⟩
    omega
  have hzero : ∀ t, u.mem f t = zeroEntry := fun t => by
    rw [hu]
    exact congrFun (if_pos rfl) t
  rw [← hu]
  have hent : u.entryAt = Function.update s.entryAt (pid, d, none) (some (entryInit f)) := by
    funext ⟨pid', d', o⟩
    by_cases hmem : (pid', d', o) ∈ places
    swap
    · rw [entryAt, if_neg hmem, Function.update_of_ne, entryAt, if_neg hmem]
      rintro heq
      rw [heq] at hmem
      exact hmem hplace
    obtain ⟨hpid', hd', hd'', ho⟩ := mem_places.mp hmem
    by_cases hsame : (pid', d') = (pid, d)
    · obtain ⟨rfl, rfl⟩ := Prod.mk.inj hsame
      rw [entryAt, if_pos hmem, hpdes, hp, Option.bind_some, hnew,
        PageEntry.get_of_present (entryInit_present f), Option.bind_some]
      cases o with
      | none => rw [Function.update_self]
      | some t =>
        rw [Function.update_of_ne (by simp), entryAt, if_pos hmem, hp, Option.bind_some,
          PageEntry.get_of_absent habs]
        change (u.mem (entryInit f).index t).get = none
        rw [hidx, hzero]
        rfl
    · rw [Function.update_of_ne (by rintro heq; exact hsame (by
        simp only [Prod.mk.injEq] at heq; rw [heq.1, heq.2.1])), entryAt, entryAt, if_pos hmem,
        if_pos hmem, hpdes]
      cases hp' : s.pdeOf pid' with
      | none => rfl
      | some pde' =>
        rw [Option.bind_some, Option.bind_some, hdir hp' hsame]
        cases hde : (s.mem pde' d').get with
        | none => rfl
        | some dentry =>
          obtain ⟨hpres', rfl⟩ := PageEntry.get_eq_some.mp hde
          have he : s.entryAt (pid', d', none) = some (s.mem pde' d') :=
            entryAt_dir.mpr ⟨dir_mem_places.mpr ⟨hpid', hd', hd''⟩, pde', hp', rfl, hpres'⟩
          rw [Option.bind_some, Option.bind_some, htab he]
  refine ⟨hent, ?_, ?_, ?_, ?_, ?_, h.high, h.single⟩
  · intro pid' pde' hp'
    exact h.dir (hpdes pid' ▸ hp')
  · intro pid' pid'' pde' hp' hp''
    exact h.inj (hpdes pid' ▸ hp') (hpdes pid'' ▸ hp'')
  · intro pid' pde' hp'
    rw [hpdes] at hp'
    rw [hdir hp' (by intro hc; have := (Prod.mk.inj hc).2; omega)]
    exact h.kernel hp'
  · intro pid' pde' hp'
    rw [hpdes] at hp'
    rw [hdir hp' (by intro hc; have := (Prod.mk.inj hc).2; omega)]
    exact h.last hp'
  · intro r e he
    rw [hent] at he
    by_cases heq : r = (pid, d, none)
    · rw [heq, Function.update_self] at he
      obtain rfl := Option.some.inj he
      rw [heq, hidx]
      exact hT
    · rw [Function.update_of_ne heq] at he
      exact h.refs he

end Stores

end Memory

end Onixs
