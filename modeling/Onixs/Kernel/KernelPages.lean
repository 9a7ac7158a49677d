import Onixs.Kernel.Memory

/-!
# The kernel's own pages

`alloc_kpage` and `free_kpage` against the pages the tasks hold: the `task_t`, the bits of
`vmap`, the page directory and the name of the working directory. A *holding* is a task
and a number for the kind of page; `Onixs.Memory.Marked` says that each page held is marked
in `kernel_map` and held once, so that `alloc_kpage` hands out a page that nobody holds.
As with the references of `Onixs.Memory.Tables`, the holdings `K` are those of the tasks
(`Onixs.Memory.held`) between two operations, and others while a task is made or undone.
-/

namespace Onixs

open Bytes

namespace Memory

/-- **The pages held are marked**, and held once. -/
structure Marked (s : Memory) (K : ℕ × ℕ → Option ℕ) : Prop where
  /-- `kernel_map` starts behind the first MiB. -/
  offset : s.kernelMap.offset = 256
  /-- It ends with the kernel's memory. -/
  length : s.kernelMap.length = 480
  /-- Its bytes are there. -/
  size : 480 ≤ s.kernelMap.size
  /-- A page held is a page of the map, and marked. -/
  used : ∀ {a k}, K a = some k →
    256 ≤ k ∧ k < 4096 ∧ bitOf s.kernelMap.bits (k - 256) = true
  /-- Nobody else holds it. -/
  inj : ∀ {a b k}, K a = some k → K b = some k → a = b

/-- The kernel pages of a task. A dead one has its `task_t` only, a thread of the kernel has no
address space. -/
def Task.kpages (task : Task) : List ℕ :=
  if task.died then [task.page]
  else if task.pde = kernelPageDir then [task.page, task.pwd]
  else [task.page, task.pde, task.bits, task.pwd]

/-- The kernel pages all tasks hold. -/
def held (s : Memory) (a : ℕ × ℕ) : Option ℕ := (s.tasks a.1).bind fun task => task.kpages[a.2]?

section Holdings

variable {s t : Memory} {K : ℕ × ℕ → Option ℕ} {a : ℕ × ℕ} {k : ℕ} (h : s.Marked K)

include h

theorem Marked.congr (hmap : t.kernelMap = s.kernelMap) : t.Marked K :=
  ⟨by rw [hmap]; exact h.offset, by rw [hmap]; exact h.length, by rw [hmap]; exact h.size,
    by rw [hmap]; exact h.used, h.inj⟩

/-- **`alloc_kpage`** of one page hands out a page that nobody holds. -/
theorem Marked.allocKpage (ha : K a = none) (halloc : s.allocKpage 1 = some (k, t)) :
    256 ≤ k ∧ k < 4096 ∧ (∀ b, K b ≠ some k) ∧ t.Marked (Function.update K a (some k)) ∧
      ∃ map, t = { s with kernelMap := map } := by
  have hwf : s.kernelMap.WF := ⟨by rw [h.length]; exact h.size, by rw [h.length, h.offset]; decide⟩
  rw [Memory.allocKpage] at halloc
  obtain ⟨_, -, halloc⟩ := Option.bind_eq_some_iff.mp halloc
  obtain ⟨⟨index, map⟩, hscan, halloc⟩ := Option.bind_eq_some_iff.mp halloc
  obtain ⟨rfl, rfl⟩ := Prod.mk.inj (Option.some.inj halloc)
  rw [scanPage] at hscan
  obtain ⟨_, -, hscan⟩ := Option.bind_eq_some_iff.mp hscan
  obtain ⟨⟨index', map'⟩, hbitmap, hscan⟩ := Option.bind_eq_some_iff.mp hscan
  obtain ⟨_, hne, hscan⟩ := Option.bind_eq_some_iff.mp hscan
  rw [assert_eq_some] at hne
  obtain ⟨rfl, rfl⟩ := Prod.mk.inj (Option.some.inj hscan)
  rcases bitmapScan_cases hwf Nat.one_pos hbitmap with ⟨hEOF, -⟩ | ⟨p, hp, hfit, hclear, hmap⟩
  · exact absurd hEOF hne
  rw [h.offset] at hp
  rw [h.length] at hfit
  rw [clearRun_one] at hclear
  have hfresh : ∀ b, K b ≠ some index' := by
    intro b hb
    have hbit := (h.used hb).2.2
    rw [hp, Nat.add_sub_cancel, hclear] at hbit
    exact Bool.noConfusion hbit
  refine ⟨by omega, by omega, hfresh, ⟨?_, ?_, ?_, fun {b j} hb => ?_, fun {b c j} hb hc => ?_⟩, _, rfl⟩
  · rw [hmap]
    exact h.offset
  · rw [hmap]
    exact h.length
  · rw [hmap]
    exact h.size
  · rw [hmap]
    rcases eq_or_ne b a with rfl | hba
    · rw [Function.update_self] at hb
      obtain rfl := Option.some.inj hb
      refine ⟨by omega, by omega, (bitOf_setRun _ _ _ _).trans (if_pos ?_)⟩
      omega
    · rw [Function.update_of_ne hba] at hb
      obtain ⟨hlo, hhi, hbit⟩ := h.used hb
      refine ⟨hlo, hhi, (bitOf_setRun _ _ _ _).trans ?_⟩
      rw [hbit, ite_self]
  · rcases eq_or_ne b a with rfl | hba
    · rw [Function.update_self] at hb
      by_contra hbc
      rw [Function.update_of_ne (Ne.symm hbc), ← Option.some.inj hb] at hc
      exact hfresh c hc
    · rw [Function.update_of_ne hba] at hb
      rcases eq_or_ne c a with rfl | hca
      · rw [Function.update_self] at hc
        exact absurd (hb.trans hc.symm) (hfresh b)
      · rw [Function.update_of_ne hca] at hc
        exact h.inj hb hc

/-- **`free_kpage`** of a page held. -/
theorem Marked.freeKpage (ha : K a = some k) (hfree : s.freeKpage k 1 = some t) :
    t.Marked (Function.update K a none) ∧ ∃ map, t = { s with kernelMap := map } := by
  rw [Memory.freeKpage] at hfree
  obtain ⟨_, -, hfree⟩ := Option.bind_eq_some_iff.mp hfree
  obtain ⟨map, hreset, hfree⟩ := Option.bind_eq_some_iff.mp hfree
  obtain rfl := Option.some.inj hfree
  rw [resetPage] at hreset
  obtain ⟨_, -, hreset⟩ := Option.bind_eq_some_iff.mp hreset
  obtain ⟨_, -, hreset⟩ := Option.bind_eq_some_iff.mp hreset
  obtain ⟨map', hset, hreset⟩ := Option.bind_eq_some_iff.mp hreset
  obtain rfl := Option.some.inj hreset
  obtain ⟨-, -, rfl⟩ := bitmapSet_eq_some hset
  have hof : ∀ {b j}, Function.update K a none b = some j → b ≠ a ∧ K b = some j := by
    intro b j hb
    rcases eq_or_ne b a with rfl | hba
    · rw [Function.update_self] at hb
      exact absurd hb (by simp)
    · rw [Function.update_of_ne hba] at hb
      exact ⟨hba, hb⟩
  refine ⟨⟨h.offset, h.length, h.size, fun {b j} hb => ?_, fun hb hc => h.inj (hof hb).2 (hof hc).2⟩,
    _, rfl⟩
  obtain ⟨hba, hb⟩ := hof hb
  obtain ⟨hlo, hhi, hbit⟩ := h.used hb
  obtain ⟨hlo', -⟩ := h.used ha
  -- the bit that is cleared is another one
  have hne : j - 256 ≠ k - s.kernelMap.offset := by
    rw [h.offset]
    intro heq
    obtain rfl : j = k := by omega
    exact hba (h.inj hb ha)
  exact ⟨hlo, hhi, (bitOf_setBit_of_ne _ _ hne).trans hbit⟩

end Holdings

end Memory

end Onixs
