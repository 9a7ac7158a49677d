import Onixs.Kernel.CopyOnWrite
import Onixs.Kernel.KernelStore

/-!
# The memories of the processes

What paging and copy on write are there for, said without pages: every process has a memory of its own, a word at each of
its addresses (`Onixs.Space`). A fork gives the child a copy of the memory of its parent, a store changes one word of one
memory, and no other step takes a word of one process to another (`Onixs.Spaces.Step`).

The memory of a process is read off the page tables (`Onixs.Memory.space`): the words of the pages it has and has not
marked shared. The file says what single pages do to it: linking, unlinking, the flags of an entry, and the copy that
`page_fault` makes, which changes nothing.
-/

namespace Onixs

/-- The memory of one process: the words at its addresses. -/
abbrev Space := ℕ → Option PageEntry

/-- The memories of all processes. -/
abbrev Spaces := ℕ → Space

namespace Space

/-- The memory of a process that has none. -/
def empty : Space := fun _ => none

/-- One word is stored. -/
def write (a : Space) (vaddr : ℕ) (word : PageEntry) : Space :=
  fun v => if v / 4 = vaddr / 4 then (a v).map fun _ => word else a v

/-- The words from `lo` to `hi` go. -/
def clear (a : Space) (lo hi : ℕ) : Space := fun v => if lo ≤ v ∧ v < hi then none else a v

/-- The words from `lo` to `hi` are read from a file, as far as `read` gets. -/
def read (a : Space) (words : ℕ → ℕ → Option PageEntry) (lo hi : ℕ) : Space := fun v =>
  if lo ≤ v ∧ v < hi then (a v).map (words (v / 4096) (v % 4096 / 4)).getD else a v

/-- Words come at the addresses from `lo` to `hi` that have none. -/
structure Filled (a b : Space) (lo hi : ℕ) : Prop where
  /-- The words there were. -/
  keep : ∀ {v w}, a v = some w → b v = some w
  /-- The other addresses. -/
  outside : ∀ {v}, ¬(lo ≤ v ∧ v < hi) → b v = a v

/-- The addresses from `lo` to `hi` are mapped. What is mapped as shared is not the process' own any more. -/
structure Mapped (a b : Space) (shared : Prop) (lo hi : ℕ) : Prop where
  /-- The words there were. -/
  keep : ∀ {v w}, ¬shared → a v = some w → b v = some w
  /-- The shared pages. -/
  gone : ∀ {v}, shared → lo ≤ v → v < hi → b v = none
  /-- The other addresses. -/
  outside : ∀ {v}, ¬(lo ≤ v ∧ v < hi) → b v = a v

section Lemmas

variable {a b c : Space} {lo mid hi : ℕ} {shared : Prop}

theorem clear_clear (a : Space) (hlo : lo ≤ mid) (hhi : mid ≤ hi) : (a.clear lo mid).clear mid hi = a.clear lo hi := by
  funext v
  by_cases h₁ : mid ≤ v ∧ v < hi
  · exact (if_pos h₁).trans (if_pos ⟨by omega, h₁.2⟩).symm
  · refine (if_neg h₁).trans ?_
    by_cases h₂ : lo ≤ v ∧ v < mid
    · exact (if_pos h₂).trans (if_pos ⟨h₂.1, by omega⟩).symm
    · exact (if_neg h₂).trans (if_neg (by omega)).symm

theorem clear_self (a : Space) (lo : ℕ) : a.clear lo lo = a := by
  funext v
  exact if_neg (by omega)

theorem read_read (a : Space) (words : ℕ → ℕ → Option PageEntry) (hlo : lo ≤ mid) (hhi : mid ≤ hi) :
    (a.read words lo mid).read words mid hi = a.read words lo hi := by
  funext v
  by_cases h₁ : mid ≤ v ∧ v < hi
  · refine (if_pos h₁).trans ((congrArg (Option.map _) (if_neg (by omega))).trans (if_pos ⟨by omega, h₁.2⟩).symm)
  · refine (if_neg h₁).trans ?_
    by_cases h₂ : lo ≤ v ∧ v < mid
    · exact (if_pos h₂).trans (if_pos ⟨h₂.1, by omega⟩).symm
    · exact (if_neg h₂).trans (if_neg (by omega)).symm

theorem read_self (a : Space) (words : ℕ → ℕ → Option PageEntry) (lo : ℕ) : a.read words lo lo = a := by
  funext v
  exact if_neg (by omega)

theorem Mapped.refl (a : Space) (shared : Prop) (lo : ℕ) : Mapped a a shared lo lo :=
  ⟨fun _ h => h, fun _ hlo hhi => absurd hhi (by omega), fun _ => rfl⟩

/-- One range behind another. -/
theorem Mapped.trans (h : Mapped a b shared lo mid) (h' : Mapped b c shared mid hi) (hlo : lo ≤ mid) (hhi : mid ≤ hi) :
    Mapped a c shared lo hi := by
  refine ⟨fun hno hw => h'.keep hno (h.keep hno hw), fun {v} hsh hv hv' => ?_, fun {v} hv => ?_⟩
  · rcases Nat.lt_or_ge v mid with hlt | hge
    · rw [h'.outside (by omega)]
      exact h.gone hsh hv hlt
    · exact h'.gone hsh hge hv'
  · rw [h'.outside (by omega), h.outside (by omega)]

end Lemmas

end Space

/-! ### Steps -/

/-- The process that makes a step. -/
def MemoryOp.actor : MemoryOp → Option ℕ
  | fork pid => some pid
  | exit pid => some pid
  | reap _ => none
  | brk pid _ => some pid
  | mmap pid _ _ _ _ _ => some pid
  | munmap pid _ _ => some pid
  | fault pid _ _ _ => some pid
  | link pid _ => some pid
  | unlink pid _ => some pid
  | store pid _ _ => some pid

/-- **What a step does to the memory of the process that makes it.** -/
def Space.Next (a : Space) : MemoryOp → Space → Prop
  | .exit _, b => b = Space.empty
  | .brk _ addr, b => ∃ top, b = a.clear addr top
  | .mmap _ addr length _ flags file, b => ∃ lo b', (addr ≠ 0 → lo = addr) ∧
      Mapped a b' (flags &&& 1 ≠ 0) lo (lo + divRoundUp length Memory.pageSize * 4096) ∧
      b = file.elim b' fun words => b'.read words lo (lo + divRoundUp length Memory.pageSize * 4096)
  | .munmap _ addr length, b => b = a.clear addr (addr + divRoundUp length Memory.pageSize * 4096)
  | .fault _ vaddr false _, b => Filled a b (vaddr / 4096 * 4096) (vaddr / 4096 * 4096 + 4096)
  | .link _ vaddr, b => Filled a b vaddr (vaddr + 4096)
  | .unlink _ vaddr, b => b = a.clear vaddr (vaddr + 4096)
  | .store _ vaddr word, b => b = a.write vaddr word
  | _, b => b = a

/-- **A step of the memories**: those of the processes that do not make it stay, and a fork copies one. -/
inductive Spaces.Step : Spaces → MemoryOp → Spaces → Prop where
  /-- `task_fork`. -/
  | fork {A : Spaces} {pid child : ℕ} (hfree : A child = Space.empty) :
      Step A (.fork pid) (Function.update A child (A pid))
  /-- `task_waitpid`. -/
  | reap {A : Spaces} {child : ℕ} : Step A (.reap child) A
  /-- The other steps. -/
  | own {A : Spaces} {op : MemoryOp} {pid : ℕ} {b : Space} (hactor : op.actor = some pid)
      (hnext : (A pid).Next op b) (hfork : op ≠ .fork pid) : Step A op (Function.update A pid b)

/-- A run of the memories. -/
inductive Spaces.Runs : Spaces → List MemoryOp → Spaces → Prop where
  /-- No steps. -/
  | nil {A : Spaces} : Runs A [] A
  /-- A step, and what comes behind it. -/
  | cons {A B C : Spaces} {op : MemoryOp} {ops : List MemoryOp} (hstep : Step A op B) (hrest : Runs B ops C) :
      Runs A (op :: ops) C

section Steps

variable {A B C : Spaces} {op : MemoryOp} {ops ops' : List MemoryOp} {pid vaddr : ℕ} {word : PageEntry}

/-- A step takes no word away from a process that does not make it. -/
theorem Spaces.Step.keep (h : Spaces.Step A op B) (hop : op.actor ≠ some pid) (hw : A pid vaddr = some word) :
    B pid vaddr = some word := by
  cases h with
  | @fork pid' child hfree =>
    have hne : pid ≠ child := by
      rintro rfl
      rw [hfree] at hw
      exact absurd hw (by simp [Space.empty])
    rwa [Function.update_of_ne hne]
  | reap => exact hw
  | own hactor _ _ =>
    rw [Function.update_of_ne]
    · exact hw
    · rintro rfl
      exact hop hactor

/-- A process that makes no step keeps its words. -/
theorem Spaces.Runs.keep (h : Spaces.Runs A ops B) (hops : ∀ op ∈ ops, op.actor ≠ some pid)
    (hw : A pid vaddr = some word) : B pid vaddr = some word := by
  induction h with
  | nil => exact hw
  | cons hstep _ ih =>
    exact ih (fun op hop => hops op (List.mem_cons_of_mem _ hop)) (hstep.keep (hops _ List.mem_cons_self) hw)

end Steps

/-! ### The memory of a process, in pages -/

namespace Memory

/-- An address of user memory. -/
def IsUser (vaddr : ℕ) : Prop := userExecAddr ≤ vaddr ∧ vaddr < 0xFFC00000

instance : DecidablePred IsUser := fun _ => inferInstanceAs (Decidable (_ ∧ _))

/-- The words of the pages that a process has and that it has not marked shared. -/
def space (s : Memory) : Spaces := fun pid vaddr =>
  if IsUser vaddr then
    (s.entryAt (placeOf pid vaddr)).bind fun e => if e.shared then none else some (s.mem e.index (vaddr % 4096 / 4))
  else none

/-- The data of the pages stays. -/
def SameData (s t : Memory) : Prop := ∀ pid d i f, s.target (pid, d, some i) = some f → t.mem f = s.mem f

section Space

variable {s t u : Memory} {pid vaddr v v' : ℕ} {word : PageEntry}

theorem space_eq_some : s.space pid v = some word ↔ IsUser v ∧ ∃ e, s.entryAt (placeOf pid v) = some e ∧
    e.shared = false ∧ s.mem e.index (v % 4096 / 4) = word := by
  rw [space]
  split
  case isTrue huser =>
    rw [Option.bind_eq_some_iff]
    constructor
    · rintro ⟨e, he, hword⟩
      cases hsh : e.shared with
      | true =>
        rw [if_pos hsh] at hword
        exact absurd hword (by simp)
      | false =>
        rw [if_neg (by rw [hsh]; decide)] at hword
        exact ⟨huser, e, he, hsh, Option.some.inj hword⟩
    · rintro ⟨-, e, he, hsh, rfl⟩
      exact ⟨e, he, if_neg (by rw [hsh]; decide)⟩
  case isFalse huser =>
    constructor
    · intro h
      exact absurd h (by simp)
    · rintro ⟨huser', -⟩
      exact absurd huser' huser

/-- What a process has of its own is what it reads. -/
theorem load_of_space (hw : s.space pid v = some word) : s.load pid v = some word := by
  obtain ⟨huser, e, he, -, rfl⟩ := space_eq_some.mp hw
  obtain ⟨-, pde, hp, hpresd, hword, hpres⟩ := entryAt_page.mp he
  obtain ⟨task, hrun, rfl⟩ := pdeOf_eq_some.mp hp
  have hwalk : s.walk task.pde v = some e.index :=
    walk_eq_some.mpr ⟨hpresd, by rw [hword]; exact hpres, by rw [hword]⟩
  rw [load, hrun, Option.bind_eq_bind, Option.bind_some, hwalk]
  rfl

/-- Two addresses have one place when they are on one page. -/
theorem placeOf_eq_iff (hv : IsUser v) (hv' : IsUser v') : placeOf pid v = placeOf pid v' ↔ v / 4096 = v' / 4096 := by
  obtain ⟨-, hhi⟩ := hv
  obtain ⟨-, hhi'⟩ := hv'
  rw [placeOf, placeOf, Prod.mk.injEq, Prod.mk.injEq, Option.some.injEq, didx, didx, tidx, tidx]
  omega

/-- The memory at an address depends on its entry and on the word. -/
theorem space_congr (hent : t.entryAt (placeOf pid v) = s.entryAt (placeOf pid v))
    (hdata : ∀ e, s.entryAt (placeOf pid v) = some e → e.shared = false →
      t.mem e.index (v % 4096 / 4) = s.mem e.index (v % 4096 / 4)) : t.space pid v = s.space pid v := by
  refine Option.ext fun word => ?_
  rw [space_eq_some, space_eq_some, hent]
  constructor
  · rintro ⟨huser, e, he, hsh, rfl⟩
    exact ⟨huser, e, he, hsh, (hdata e he hsh).symm⟩
  · rintro ⟨huser, e, he, hsh, rfl⟩
    exact ⟨huser, e, he, hsh, hdata e he hsh⟩

theorem SameData.mem_eq (h : SameData s t) {e : PageEntry} (he : s.entryAt (placeOf pid v) = some e) (i : ℕ) :
    t.mem e.index i = s.mem e.index i :=
  congrFun (h _ _ _ _ (target_eq_some.mpr ⟨e, he, rfl⟩)) i

/-- Entries that stay, with their data. -/
theorem SameData.space_eq (h : SameData s t) (hent : t.entryAt (placeOf pid v) = s.entryAt (placeOf pid v)) :
    t.space pid v = s.space pid v :=
  space_congr hent fun _ he _ => h.mem_eq he _

theorem SameData.of_mem (h : t.mem = s.mem) : SameData s t := fun _ _ _ _ _ => by rw [h]

/-- The other processes, when their entries stay. -/
theorem SameData.others (h : SameData s t) (hothers : SameOthers s t pid) :
    t.space = Function.update s.space pid (t.space pid) := by
  funext pid'
  rcases eq_or_ne pid' pid with rfl | hne
  · rw [Function.update_self]
  · rw [Function.update_of_ne hne]
    funext v
    exact h.space_eq (hothers _ hne)

theorem space_of_eq (hent : t.entryAt = s.entryAt) (hmem : t.mem = s.mem) : t.space = s.space := by
  funext pid v
  exact (SameData.of_mem hmem).space_eq (congrFun hent _)

/-- A process that is none has no memory. -/
theorem space_of_dead (h : s.pdeOf pid = none) : s.space pid = Space.empty := by
  funext v
  refine Option.eq_none_iff_forall_not_mem.mpr fun word hw => ?_
  obtain ⟨-, e, he, -⟩ := space_eq_some.mp hw
  rw [placeOf, entryAt_of_dead h] at he
  exact absurd he (by simp)

/-- The addresses of a page of user memory are those of one place. -/
theorem placeOf_in_page (hlo : userExecAddr ≤ vaddr) (hhi : vaddr < 0xFFC00000) (halign : vaddr % 4096 = 0)
    (hv : IsUser v) : placeOf pid v = placeOf pid vaddr ↔ vaddr ≤ v ∧ v < vaddr + 4096 := by
  rw [placeOf_eq_iff hv ⟨hlo, hhi⟩]
  omega

end Space

/-! ### Single pages -/

section Single

variable {s t : Memory} {pid pde vaddr page f d i : ℕ} {task : Task}

/-- **`link_page`** fills one place. -/
theorem Exact.linkPage_entry (h : s.Exact) (hp : s.pdeOf pid = some pde) (hd : 4 ≤ didx vaddr ∧ didx vaddr < 1023)
    (hlink : s.linkPage pde vaddr = some t) {r : Place} (hr : r ≠ placeOf pid vaddr) (hpage : r.2.2 ≠ none) :
    t.entryAt r = s.entryAt r := by
  rw [Memory.linkPage] at hlink
  obtain ⟨_, -, hlink⟩ := Option.bind_eq_some_iff.mp hlink
  obtain ⟨⟨table, u⟩, hget, hlink⟩ := Option.bind_eq_some_iff.mp hlink
  obtain ⟨hu, hsame, -, hbut, hpres, rfl⟩ := h.getPte hp hd hget
  have hold : u.entryAt r = s.entryAt r := hbut r fun heq => hpage (by rw [heq])
  simp only at hlink
  split at hlink
  · exact Option.some.inj hlink ▸ hold
  · obtain ⟨⟨page, v⟩, hgetPage, hlink⟩ := Option.bind_eq_some_iff.mp hlink
    obtain rfl := Option.some.inj hlink
    obtain ⟨-, -, -, -, honly, -⟩ := hu.counts.getPage hgetPage
    have hpv : v.pdeOf pid = some pde := by
      rw [honly.pdeOf, hsame.pdeOf]
      exact hp
    have hent := (honly.tables hu.tables).entryAt_setWord hpv hd (by rw [honly.mem]; exact hpres) (tidx_lt vaddr)
      (entryInit page)
    rw [honly.mem] at hent
    exact (congrFun hent r).trans ((Function.update_of_ne hr _ _).trans ((congrFun honly.entryAt r).trans hold))

/-- **`unlink_page`** empties one place. -/
theorem Exact.unlinkPage_entry (h : s.Exact) (hp : s.pdeOf pid = some pde) (hd : 4 ≤ didx vaddr ∧ didx vaddr < 1023)
    (hunlink : s.unlinkPage pde vaddr = some t) :
    t.entryAt = Function.update s.entryAt (placeOf pid vaddr) none ∧ SameData s t := by
  rw [Memory.unlinkPage] at hunlink
  obtain ⟨_, -, hunlink⟩ := Option.bind_eq_some_iff.mp hunlink
  rw [h.tables.walk_pdeAddr hp] at hunlink
  simp only [Option.bind_eq_bind, Option.bind_some] at hunlink
  have hr : placeOf pid vaddr ∈ places := page_mem_places.mpr ⟨(h.tables.dir hp).1, hd.1, hd.2, tidx_lt vaddr⟩
  cases hpres : (s.mem pde (didx vaddr)).present with
  | false =>
    simp only [hpres, Bool.not_false, reduceIte, Option.pure_def, Option.some.injEq] at hunlink
    subst hunlink
    exact ⟨(Function.update_eq_self_iff.mpr (entryAt_page_absent hp hpres).symm).symm, .of_mem rfl⟩
  | true =>
    simp only [hpres, Bool.not_true, Bool.false_eq_true, reduceIte, getEntry,
      h.tables.getPte_present hp false (by omega) hpres, Option.bind_some] at hunlink
    cases hpage : (s.mem (s.mem pde (didx vaddr)).index (tidx vaddr)).present with
    | false =>
      simp only [hpage, Bool.not_false, reduceIte, Option.pure_def, Option.some.injEq] at hunlink
      subst hunlink
      refine ⟨(Function.update_eq_self_iff.mpr ?_).symm, .of_mem rfl⟩
      rw [placeOf, entryAt_page_eq hr hp hpres, PageEntry.get_of_absent hpage]
    | true =>
      simp only [hpage, Bool.not_true, Bool.false_eq_true, reduceIte] at hunlink
      have honly := putPage_only hunlink
      have hent := h.tables.entryAt_setWord hp hd hpres (tidx_lt vaddr)
        { s.mem (s.mem pde (didx vaddr)).index (tidx vaddr) with present := false }
      refine ⟨by rw [honly.entryAt, hent]; rfl, fun pid' d i f hf => ?_⟩
      -- the entry is in a page table, and the frame is a page
      have hne : (s.mem pde (didx vaddr)).index ≠ f := fun heq =>
        (h.tables.loose_of_page hf).2 pid _ (heq ▸ (h.tables.table_high hp hd hpres).2.1)
      rw [honly.mem]
      exact funext fun j => if_neg fun hc => hne hc.1.symm

/-- What a place has in another state decides the memory of its page. -/
theorem SameData.space_page (hdata : SameData s t) (hlo : userExecAddr ≤ page) (hhi : page < 0xFFC00000)
    (halign : page % 4096 = 0) (hrest : ∀ r, r ≠ placeOf pid page → r.2.2 ≠ none → t.entryAt r = s.entryAt r) {v : ℕ}
    (hv : ¬(page ≤ v ∧ v < page + 4096)) : t.space pid v = s.space pid v := by
  by_cases huser : IsUser v
  · refine hdata.space_eq (hrest _ (fun heq => hv ((placeOf_in_page hlo hhi halign huser).mp heq)) ?_)
    simp [placeOf]
  · rw [space, space, if_neg huser, if_neg huser]

/-- The memories after a page has been linked. -/
theorem Sound.linkPage_space (h : s.Sound) (hrun : s.running pid = some task) (hlo : userExecAddr ≤ page)
    (hhi : page < 0xFFC00000) (hlink : s.linkPage task.pde page = some t) :
    t.space = Function.update s.space pid (t.space pid) ∧ Space.Filled (s.space pid) (t.space pid) page (page + 4096) := by
  have hp := pdeOf_of_running hrun
  have hd := didx_user hlo hhi
  have hdata : SameData s t := fun pid' d i f hf => h.exact.linkPage_data hp hd hlink hf
  obtain ⟨-, -, hgrown, hothers, -⟩ := h.linkPage hrun hd hlink
  have halign : page % 4096 = 0 := by
    rw [Memory.linkPage] at hlink
    obtain ⟨_, halign, -⟩ := Option.bind_eq_some_iff.mp hlink
    rw [assert_eq_some, pageSize_eq] at halign
    exact halign
  refine ⟨hdata.others hothers, fun {v w} hw => ?_, fun hv =>
    hdata.space_page hlo hhi halign (fun r hr hr' => h.exact.linkPage_entry hp hd hlink hr hr') hv⟩
  obtain ⟨huser, e, he, hsh, rfl⟩ := space_eq_some.mp hw
  exact space_eq_some.mpr ⟨huser, e, hgrown.keep he, hsh, hdata.mem_eq he _⟩

/-- The memories after a page has been unlinked. -/
theorem Sound.unlinkPage_space (h : s.Sound) (hrun : s.running pid = some task) (hlo : userExecAddr ≤ page)
    (hhi : page < 0xFFC00000) (hunlink : s.unlinkPage task.pde page = some t) :
    t.space = Function.update s.space pid ((s.space pid).clear page (page + 4096)) := by
  have hd := didx_user hlo hhi
  obtain ⟨hent, hdata⟩ := h.exact.unlinkPage_entry (pdeOf_of_running hrun) hd hunlink
  have halign : page % 4096 = 0 := by
    rw [Memory.unlinkPage] at hunlink
    obtain ⟨_, halign, -⟩ := Option.bind_eq_some_iff.mp hunlink
    rw [assert_eq_some, pageSize_eq] at halign
    exact halign
  have hothers : SameOthers s t pid := (SameBut.of_update hent).others
  rw [hdata.others hothers]
  congr 1
  funext v
  by_cases hv : page ≤ v ∧ v < page + 4096
  · refine (Option.eq_none_iff_forall_not_mem.mpr fun w hw => ?_).trans (if_pos hv).symm
    obtain ⟨huser, e, he, -⟩ := space_eq_some.mp hw
    rw [(placeOf_in_page hlo hhi halign huser).mpr hv, hent, Function.update_self] at he
    exact absurd he (by simp)
  · exact (hdata.space_page hlo hhi halign (fun r hr _ => SameBut.of_update hent r hr) hv).trans (if_neg hv).symm

/-- The memories after the flags of an entry have changed. -/
theorem Exact.setFlags_space (h : s.Exact) (hp : s.pdeOf pid = some pde) (hlo : userExecAddr ≤ page)
    (hhi : page < 0xFFC00000) (halign : page % 4096 = 0) {e e' : PageEntry} (he : s.entryAt (placeOf pid page) = some e)
    (hpres : e'.present = true) (hidx : e'.index = e.index) (ht : t = s.setWord (s.mem pde (didx page)).index (tidx page) e') :
    t.space = Function.update s.space pid (t.space pid) ∧
      (∀ v, ¬(page ≤ v ∧ v < page + 4096) → t.space pid v = s.space pid v) ∧
      ∀ v, page ≤ v → v < page + 4096 → t.space pid v = if e'.shared then none else
        if IsUser v then some (s.mem e.index (v % 4096 / 4)) else none := by
  have hd := didx_user hlo hhi
  obtain ⟨-, hent⟩ := h.setFlags hp hd he e' hpres hidx
  rw [← ht] at hent
  have hdata : SameData s t := fun pid' d i f hf => by
    obtain ⟨-, pde', hp', hpresd, -⟩ := entryAt_page.mp he
    obtain rfl := Option.some.inj (hp.symm.trans hp')
    have hne : (s.mem pde (didx page)).index ≠ f := fun heq =>
      (h.tables.loose_of_page hf).2 pid _ (heq ▸ (h.tables.table_high hp hd hpresd).2.1)
    rw [ht]
    exact funext fun j => if_neg fun hc => hne hc.1.symm
  refine ⟨hdata.others (SameBut.of_update hent).others, fun v hv =>
    hdata.space_page hlo hhi halign (fun r hr _ => SameBut.of_update hent r hr) hv, fun v hv hv' => ?_⟩
  by_cases huser : IsUser v
  swap
  · rw [space, if_neg huser, if_neg huser, ite_self]
  have hentv : t.entryAt (placeOf pid v) = some e' := by
    rw [(placeOf_in_page hlo hhi halign huser).mpr ⟨hv, hv'⟩, hent]
    exact Function.update_self _ _ _
  rw [space, if_pos huser, hentv, Option.bind_some, if_pos huser, hidx, hdata.mem_eq he]

end Single

end Memory

end Onixs
