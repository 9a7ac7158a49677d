import Onixs.Common.TwoRuns
import Onixs.Kernel.PageRun

/-!
# Two memories that differ in data

Two states of the memory manager that agree but for some words (`Onixs.Memory.Alike`). As long as these words are in
no page directory and in no page table (`Onixs.Memory.OffTables`), the memory manager does not notice the difference:
what it does in the one state it does in the other, with the same result, and it leaves states that differ in these
words at most (`Onixs.Memory.Twin`). Only three things move the difference: a copy of a page has the words of the
page, a store of another word adds one, and what is stored alike in both takes one away.
-/

namespace Onixs

namespace Memory

/-- The states agree, but for the words in `D`. -/
def Alike (D : ℕ → ℕ → Prop) (s s' : Memory) : Prop :=
  ∃ m, s' = { s with mem := m } ∧ ∀ f i, ¬D f i → m f i = s.mem f i

/-- No word of the frame is in `D`. -/
def Clear (D : ℕ → ℕ → Prop) (f : ℕ) : Prop := ∀ i, ¬D f i

/-- The words in `D` are in user pages that are no page tables. -/
def OffTables (T : Place → Option ℕ) (D : ℕ → ℕ → Prop) : Prop :=
  ∀ f i, D f i → 4096 ≤ f ∧ ∀ pid d, T (pid, d, none) ≠ some f

section Alike

variable {D E : ℕ → ℕ → Prop} {s s' : Memory} {f : ℕ}

theorem Alike.mono (h : Alike D s s') (hD : ∀ f i, D f i → E f i) : Alike E s s' := by
  obtain ⟨m, rfl, hm⟩ := h
  exact ⟨m, rfl, fun f i hE => hm f i fun hd => hE (hD f i hd)⟩

theorem Alike.word (h : Alike D s s') {i : ℕ} (hf : ¬D f i) : s'.mem f i = s.mem f i := by
  obtain ⟨m, rfl, hm⟩ := h
  exact hm f i hf

theorem Alike.frame (h : Alike D s s') (hf : Clear D f) : s'.mem f = s.mem f :=
  funext fun i => h.word (hf i)

theorem Alike.memoryMap (h : Alike D s s') : s'.memoryMap = s.memoryMap := by
  obtain ⟨m, rfl, -⟩ := h
  rfl

theorem Alike.freePages (h : Alike D s s') : s'.freePages = s.freePages := by
  obtain ⟨m, rfl, -⟩ := h
  rfl

theorem Alike.tasks (h : Alike D s s') : s'.tasks = s.tasks := by
  obtain ⟨m, rfl, -⟩ := h
  rfl

theorem Alike.running (h : Alike D s s') (pid : ℕ) : s'.running pid = s.running pid := by
  rw [Memory.running, Memory.running, h.tasks]

theorem Alike.pdeOf (h : Alike D s s') (pid : ℕ) : s'.pdeOf pid = s.pdeOf pid := by
  rw [Memory.pdeOf, Memory.pdeOf, h.running]

/-! ### Stores -/

/-- The same word stored in both. -/
theorem Alike.setWord (h : Alike D s s') (f i : ℕ) (e : PageEntry) :
    Alike (fun g j => D g j ∧ ¬(g = f ∧ j = i)) (s.setWord f i e) (s'.setWord f i e) := by
  obtain ⟨m, rfl, hm⟩ := h
  refine ⟨_, rfl, fun g j hD => ?_⟩
  by_cases hgj : g = f ∧ j = i
  · exact (if_pos hgj).trans (if_pos hgj).symm
  · exact (if_neg hgj).trans ((hm g j fun hd => hD ⟨hd, hgj⟩).trans (if_neg hgj).symm)

/-- Two words stored in one place. -/
theorem Alike.setWords (h : Alike D s s') (f i : ℕ) (e e' : PageEntry) :
    Alike (fun g j => D g j ∨ g = f ∧ j = i) (s.setWord f i e) (s'.setWord f i e') := by
  obtain ⟨m, rfl, hm⟩ := h
  refine ⟨_, rfl, fun g j hD => ?_⟩
  rw [not_or] at hD
  exact (if_neg hD.2).trans ((hm g j hD.1).trans (if_neg hD.2).symm)

/-- Frames stored, which differ in the words of `W`. -/
theorem Alike.setFrame (h : Alike D s s') (f : ℕ) {words words' : ℕ → PageEntry} {W : ℕ → Prop}
    (hw : ∀ i, ¬W i → words' i = words i) :
    Alike (fun g j => if g = f then W j else D g j) (s.setFrame f words) (s'.setFrame f words') := by
  obtain ⟨m, rfl, hm⟩ := h
  refine ⟨_, rfl, fun g j hD => ?_⟩
  by_cases hg : g = f
  · simp only [if_pos hg] at hD
    exact (congrFun (if_pos hg) j).trans ((hw j hD).trans (congrFun (if_pos hg) j).symm)
  · simp only [if_neg hg] at hD
    exact (congrFun (if_neg hg) j).trans ((hm g j hD).trans (congrFun (if_neg hg) j).symm)

theorem Alike.setCount (h : Alike D s s') (i n : ℕ) : Alike D (s.setCount i n) (s'.setCount i n) := by
  obtain ⟨m, rfl, hm⟩ := h
  exact ⟨m, rfl, hm⟩

theorem Alike.setTask (h : Alike D s s') (pid : ℕ) (task : Option Task) :
    Alike D (s.setTask pid task) (s'.setTask pid task) := by
  obtain ⟨m, rfl, hm⟩ := h
  exact ⟨m, rfl, hm⟩

/-! ### Page frames and kernel pages -/

theorem Alike.getPage (h : Alike D s s') :
    Follows (fun a b => b.1 = a.1 ∧ Alike D a.2 b.2) s.getPage s'.getPage := by
  obtain ⟨m, rfl, hm⟩ := h
  exact .bind_same fun i _ => .some ⟨rfl, m, rfl, hm⟩

theorem Alike.putPage (h : Alike D s s') (i : ℕ) : Follows (Alike D) (s.putPage i) (s'.putPage i) := by
  obtain ⟨m, rfl, hm⟩ := h
  refine .bind_same fun _ _ => .bind_same fun _ _ => ?_
  by_cases hfree : (s.setCount i (s.memoryMap i - 1)).memoryMap i = 0
  · have hfree' : (({ s with mem := m } : Memory).setCount i (s.memoryMap i - 1)).memoryMap i = 0 := hfree
    simp only [hfree, hfree', reduceIte]
    exact .bind_same fun _ _ => .some ⟨m, rfl, hm⟩
  · have hfree' : ¬(({ s with mem := m } : Memory).setCount i (s.memoryMap i - 1)).memoryMap i = 0 := hfree
    simp only [hfree, hfree', reduceIte]
    exact .bind_same fun _ _ => .some ⟨m, rfl, hm⟩

theorem Alike.allocKpage (h : Alike D s s') (count : ℕ) :
    Follows (fun a b => b.1 = a.1 ∧ Alike D a.2 b.2) (s.allocKpage count) (s'.allocKpage count) := by
  obtain ⟨m, rfl, hm⟩ := h
  exact .bind_same fun _ _ => .bind_same fun _ _ => .some ⟨rfl, m, rfl, hm⟩

theorem Alike.freeKpage (h : Alike D s s') (index count : ℕ) :
    Follows (Alike D) (s.freeKpage index count) (s'.freeKpage index count) := by
  obtain ⟨m, rfl, hm⟩ := h
  exact .bind_same fun _ _ => .bind_same fun _ _ => .some ⟨m, rfl, hm⟩

theorem Alike.walk (h : Alike D s s') {cr3 vaddr : ℕ} (hcr3 : Clear D cr3)
    (htable : (s.mem cr3 (didx vaddr)).present = true → Clear D (s.mem cr3 (didx vaddr)).index) :
    s'.walk cr3 vaddr = s.walk cr3 vaddr := by
  rw [Memory.walk, Memory.walk, h.frame hcr3]
  cases hpres : (s.mem cr3 (didx vaddr)).present with
  | true => rw [h.frame (htable hpres)]
  | false => rfl

end Alike

/-! ### Page tables -/

section Tables

variable {D : ℕ → ℕ → Prop} {s s' : Memory} {T : Place → Option ℕ} {pid pde vaddr f : ℕ}

theorem OffTables.low (hD : OffTables T D) (hf : f < 4096) : Clear D f := by
  intro i hi
  have := (hD f i hi).1
  omega

theorem OffTables.table (hD : OffTables T D) {d : ℕ} (hT : T (pid, d, none) = some f) : Clear D f :=
  fun i hi => (hD f i hi).2 pid d hT

theorem OffTables.congr {T' : Place → Option ℕ} (hD : OffTables T D)
    (hT : ∀ pid d, T' (pid, d, none) = T (pid, d, none)) : OffTables T' D :=
  fun f i hi => ⟨(hD f i hi).1, fun pid d => by rw [hT]; exact (hD f i hi).2 pid d⟩

variable (h : Alike D s s') (hD : OffTables T D)

include h hD

/-- **The entries are the same** in both states. -/
theorem Alike.tables (ht : s.Tables T) : s'.entryAt = s.entryAt ∧ s'.Tables T := by
  refine ht.of_loose h.pdeOf fun f => ?_
  by_cases hf : Clear D f
  · exact Or.inr (h.frame hf)
  · rw [Clear, not_forall] at hf
    obtain ⟨i, hi⟩ := hf
    obtain ⟨hlo, hdirs⟩ := hD f i (not_not.mp hi)
    exact Or.inl (ht.loose_of_ge hlo hdirs)

omit hD in
theorem Alike.counts (hc : s.Counts T) : s'.Counts T := by
  obtain ⟨m, rfl, -⟩ := h
  exact hc.congr rfl rfl

/-- A page directory is the same in both states. -/
theorem Alike.dir (ht : s.Tables T) (hp : s.pdeOf pid = some pde) : s'.mem pde = s.mem pde :=
  h.frame (hD.low (ht.dir hp).2.2)

/-- **`copy_page`** copies the words in which the pages differ. -/
theorem Alike.copyPage (ht : s.Tables T) (hc : s.Counts T) (hp : s.pdeOf pid = some pde) {src : ℕ}
    (hwalk : s.walk pde vaddr = some src) (hidx : (s.mem pde (didx vaddr)).index ≠ 2) (hsrc : src ≠ 2)
    (htable : Clear D (s.mem pde (didx vaddr)).index) :
    Follows (fun a b => b.1 = a.1 ∧ Alike (fun f i => if f = a.1 then D src i else D f i) a.2 b.2)
      (s.copyPage pde vaddr) (s'.copyPage pde vaddr) := by
  rintro ⟨p, t⟩ hcopy
  obtain ⟨⟨page, u⟩, hget, -⟩ := Option.bind_eq_some_iff.mp hcopy
  obtain ⟨hlo, -⟩ := hc.getPage hget
  rw [ht.copyPage_eq hp hc hwalk hidx hsrc hget] at hcopy
  obtain ⟨rfl, rfl⟩ := Prod.mk.inj (Option.some.inj hcopy)
  obtain ⟨⟨page', u'⟩, hget', rfl, hu⟩ := h.getPage _ hget
  have hdir := h.dir hD ht hp
  have hp' : s'.pdeOf pid = some pde := by rw [h.pdeOf]; exact hp
  have hwalk' : s'.walk pde vaddr = some src := by
    rw [h.walk (hD.low (ht.dir hp).2.2) fun _ => htable]
    exact hwalk
  refine ⟨_, (h.tables hD ht).2.copyPage_eq hp' (h.counts hc) hwalk' (by rw [hdir]; exact hidx) hsrc hget', rfl, ?_⟩
  refine (((hu.setWord 2 0 _).setFrame page' (W := D src) fun i hi => h.word hi).setWord 2 0 _).mono ?_
  rintro f i ⟨hDf, -⟩
  by_cases hf : f = page'
  · simp only [if_pos hf] at hDf ⊢
    exact hDf
  · simp only [if_neg hf] at hDf ⊢
    exact hDf.1

end Tables

/-- The words of `M` that are in user pages and in no page table. -/
def data (s : Memory) (M : ℕ → ℕ → Prop) (f i : ℕ) : Prop :=
  M f i ∧ 4096 ≤ f ∧ ∀ pid d, s.target (pid, d, none) ≠ some f

theorem offTables_data (s : Memory) (M : ℕ → ℕ → Prop) : OffTables s.target (s.data M) := fun _ _ h => h.2

section Pages

variable {M : ℕ → ℕ → Prop} {s s' : Memory} {pid pde vaddr : ℕ} (h : s.Exact) (hp : s.pdeOf pid = some pde)
  (hd : 4 ≤ didx vaddr ∧ didx vaddr < 1023) (ha : Alike (s.data M) s s')

include h hp hd ha

/-- **`get_pte`** finds the same table in both states, or makes one. -/
theorem Exact.getPte_alike (create : Bool) :
    Follows (fun a b => b.1 = a.1 ∧ Alike (a.2.data M) a.2 b.2) (s.getPte pde vaddr create)
      (s'.getPte pde vaddr create) := by
  rintro ⟨table, t⟩ hget
  have hoff := offTables_data s M
  have htab' := (ha.tables hoff h.tables).2
  have hdir := ha.dir hoff h.tables hp
  have hp' : s'.pdeOf pid = some pde := by rw [ha.pdeOf]; exact hp
  obtain ⟨ht, hsame, -, hdirs, hpres', htable⟩ := h.getPte hp hd hget
  cases hpres : (s.mem pde (didx vaddr)).present with
  | true =>
    rw [h.tables.getPte_present hp create (by omega) hpres] at hget
    obtain ⟨rfl, rfl⟩ := Prod.mk.inj (Option.some.inj hget)
    refine ⟨_, htab'.getPte_present hp' create (by omega) (by rw [hdir]; exact hpres), ?_, ha⟩
    rw [hdir]
  | false =>
    rw [Memory.getPte, h.tables.walk_pdeAddr hp] at hget
    simp only [Option.bind_eq_bind, Option.bind_some, hpres, Bool.false_eq_true, reduceIte] at hget
    obtain ⟨_, hassert, hget⟩ := Option.bind_eq_some_iff.mp hget
    obtain ⟨⟨page, u⟩, hpage, hget⟩ := Option.bind_eq_some_iff.mp hget
    obtain ⟨table', hwalk, hget⟩ := Option.bind_eq_some_iff.mp hget
    obtain ⟨rfl, rfl⟩ := Prod.mk.inj (Option.some.inj hget)
    obtain ⟨⟨page', u'⟩, hpage', rfl, hu⟩ := ha.getPage _ hpage
    obtain ⟨-, -, -, -, honly, -⟩ := h.counts.getPage hpage
    have hset := hu.setWord pde (didx vaddr) (entryInit page')
    have hlow : ∀ {f}, f < 4096 → Clear (fun g j => s.data M g j ∧ ¬(g = pde ∧ j = didx vaddr)) f :=
      fun hf i hi => hoff.low hf i hi.1
    have hpde := (h.tables.dir hp).2.2
    -- the last entry of the directory is the directory
    have hself : ((u.setWord pde (didx vaddr) (entryInit page')).mem pde (didx (pteAddr (didx vaddr)))).index = pde := by
      rw [didx_pteAddr (by omega), mem_setWord, if_neg (by omega), honly.mem]
      exact (h.tables.last hp).2
    have hwalk' : (u'.setWord pde (didx vaddr) (entryInit page')).walk pde (pteAddr (didx vaddr)) = some table' := by
      rw [hset.walk (hlow hpde) fun _ => by rw [hself]; exact hlow hpde]
      exact hwalk
    refine ⟨(table', (u'.setWord pde (didx vaddr) (entryInit page')).setFrame table' fun _ => zeroEntry), ?_, rfl, ?_⟩
    · rw [Memory.getPte, htab'.walk_pdeAddr hp']
      simp only [Option.bind_eq_bind, Option.bind_some, hdir, hpres, Bool.false_eq_true, reduceIte, hassert, hpage',
        hwalk', Option.pure_def]
    · refine (hset.setFrame table' (W := fun _ => False) fun _ _ => rfl).mono fun f i hD => ?_
      by_cases hf : f = table'
      · exact absurd hD (by simp [hf])
      · simp only [if_neg hf] at hD
        refine ⟨hD.1.1, hD.1.2.1, fun pid' d' htarget => ?_⟩
        by_cases hplace : (pid', d') = (pid, didx vaddr)
        · obtain ⟨rfl, rfl⟩ := Prod.mk.inj hplace
          obtain ⟨-, hT, -⟩ := ht.tables.table_high (by rw [hsame.pdeOf]; exact hp) hd hpres'
          rw [htarget, ← htable] at hT
          exact hf (Option.some.inj hT)
        · rw [target, hdirs _ fun heq => hplace (by
            simp only [Prod.mk.injEq, and_true] at heq
            rw [heq.1, heq.2])] at htarget
          exact hD.1.2.2 pid' d' htarget

/-- **`link_page`** of a user page links the same page in both states. -/
theorem Exact.linkPage_alike :
    Follows (fun t t' => Alike (t.data M) t t') (s.linkPage pde vaddr) (s'.linkPage pde vaddr) := by
  intro t hlink
  rw [Memory.linkPage] at hlink
  obtain ⟨_, hassert, hlink⟩ := Option.bind_eq_some_iff.mp hlink
  obtain ⟨⟨table, u⟩, hget, hlink⟩ := Option.bind_eq_some_iff.mp hlink
  obtain ⟨⟨table', u'⟩, hget', heq, hu'⟩ := h.getPte_alike hp hd ha true _ hget
  obtain rfl : table' = table := heq
  replace hu' : Alike (u.data M) u u' := hu'
  obtain ⟨hu, hsame, -, -, hpres, htable⟩ := h.getPte hp hd hget
  have hpu : u.pdeOf pid = some pde := by rw [hsame.pdeOf]; exact hp
  obtain ⟨-, hT, -⟩ := hu.tables.table_high hpu hd hpres
  rw [← htable] at hT
  have hword : u'.mem table' = u.mem table' := hu'.frame ((offTables_data u M).table hT)
  rw [Memory.linkPage, hassert]
  simp only [Option.bind_eq_bind, Option.bind_some, getEntry, hget', hword]
  cases hpage : (u.mem table' (tidx vaddr)).present with
  | true =>
    simp only [hpage, reduceIte, Option.pure_def, Option.some.injEq] at hlink
    subst hlink
    exact ⟨u', by simp only [reduceIte, Option.pure_def], hu'⟩
  | false =>
    simp only [hpage, Bool.false_eq_true, reduceIte] at hlink
    obtain ⟨⟨page, v⟩, hgetPage, hlink⟩ := Option.bind_eq_some_iff.mp hlink
    obtain ⟨⟨page', v'⟩, hgetPage', heq, hv⟩ := hu'.getPage _ hgetPage
    obtain rfl : page' = page := heq
    obtain rfl := Option.some.inj hlink
    refine ⟨v'.setWord table' (tidx vaddr) (entryInit page'), ?_, ?_⟩
    · simp only [Bool.false_eq_true, reduceIte, hgetPage', Option.bind_some, Option.pure_def]
    · refine (Alike.setWord hv table' (tidx vaddr) (entryInit page')).mono fun f i hD => ?_
      obtain ⟨-, -, -, -, honly, -⟩ := hu.counts.getPage hgetPage
      have hent := (honly.tables hu.tables).entryAt_setWord (by rw [honly.pdeOf]; exact hpu) hd
        (by rw [honly.mem]; exact hpres) (tidx_lt vaddr) (entryInit page')
      rw [honly.mem, ← htable, honly.entryAt] at hent
      refine ⟨hD.1.1, hD.1.2.1, fun pid' d' htarget => hD.1.2.2 pid' d' ?_⟩
      rw [target, hent, Function.update_of_ne (by simp)] at htarget
      exact htarget

/-- **`unlink_page`** of a user page unlinks the same page in both states. -/
theorem Exact.unlinkPage_alike :
    Follows (fun t t' => Alike (t.data M) t t') (s.unlinkPage pde vaddr) (s'.unlinkPage pde vaddr) := by
  intro t hunlink
  have hoff := offTables_data s M
  have htab' := (ha.tables hoff h.tables).2
  have hdir := ha.dir hoff h.tables hp
  have hp' : s'.pdeOf pid = some pde := by rw [ha.pdeOf]; exact hp
  obtain ⟨-, -, -, hshrunk⟩ := h.unlinkPage hp hd hunlink
  rw [Memory.unlinkPage] at hunlink ⊢
  obtain ⟨_, hassert, hunlink⟩ := Option.bind_eq_some_iff.mp hunlink
  rw [h.tables.walk_pdeAddr hp] at hunlink
  simp only [Option.bind_eq_bind, Option.bind_some, hassert, htab'.walk_pdeAddr hp', hdir] at hunlink ⊢
  cases hpres : (s.mem pde (didx vaddr)).present with
  | false =>
    simp only [hpres, Bool.not_false, reduceIte, Option.pure_def, Option.some.injEq] at hunlink ⊢
    subst hunlink
    exact ⟨s', rfl, ha⟩
  | true =>
    obtain ⟨-, hT, -⟩ := h.tables.table_high hp hd hpres
    have hpres' : (s'.mem pde (didx vaddr)).present = true := by rw [hdir]; exact hpres
    have hword : s'.mem (s.mem pde (didx vaddr)).index = s.mem (s.mem pde (didx vaddr)).index :=
      ha.frame (hoff.table hT)
    simp only [hpres, Bool.not_true, Bool.false_eq_true, reduceIte, getEntry,
      h.tables.getPte_present hp false (by omega) hpres, Option.bind_some] at hunlink
    simp only [Bool.not_true, Bool.false_eq_true, reduceIte, getEntry,
      htab'.getPte_present hp' false (by omega) hpres', Option.bind_some, hdir, hword]
    cases hpage : (s.mem (s.mem pde (didx vaddr)).index (tidx vaddr)).present with
    | false =>
      simp only [hpage, Bool.not_false, reduceIte, Option.pure_def, Option.some.injEq] at hunlink ⊢
      subst hunlink
      exact ⟨s', rfl, ha⟩
    | true =>
      simp only [hpage, Bool.not_true, Bool.false_eq_true, reduceIte] at hunlink ⊢
      obtain ⟨t', ht', ht⟩ := ((ha.setWord _ _ _).putPage _) t hunlink
      refine ⟨t', ht', ht.mono fun f i hD => ?_⟩
      refine ⟨hD.1.1, hD.1.2.1, fun pid' d' htarget => hD.1.2.2 pid' d' ?_⟩
      obtain ⟨e, he, hidx⟩ := target_eq_some.mp htarget
      exact target_eq_some.mpr ⟨e, hshrunk he, hidx⟩

end Pages

end Memory

end Onixs
