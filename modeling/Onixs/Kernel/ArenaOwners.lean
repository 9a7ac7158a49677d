import Mathlib.Data.Finset.Card
import Onixs.Kernel.Arena

/-!
# Who has which page

The pages of `kernel_map` that are marked belong to somebody: to a range that `alloc_kpage`
has handed out, to a large block, or to a small arena. `Onixs.PageOwners` is that of the
bitmap, and `Onixs.Heap.Held` says of the blocks, the free lists and the headers of the
arenas that they agree with the owners. Between two calls every small arena has a block in
use (`spare` is `none`); within `kmalloc` and `kfree` the arena at hand may have none.
-/

namespace Onixs

open Bytes

/-- Who has a page. -/
inductive Owner where
  /-- A range of pages. -/
  | range (start : ℕ)
  /-- A large block. -/
  | large (start : ℕ)
  /-- An arena with blocks of one size. -/
  | small (desc : ℕ)
deriving DecidableEq

/-- `count` pages get an owner, or lose theirs. -/
def assign (owner : ℕ → Option Owner) (page count : ℕ) (o : Option Owner) : ℕ → Option Owner :=
  fun p => if page ≤ p ∧ p < page + count then o else owner p

section Assign

variable {owner : ℕ → Option Owner} {page count p : ℕ} {o : Option Owner}

theorem assign_of_mem (h : page ≤ p) (h' : p < page + count) : assign owner page count o p = o :=
  if_pos ⟨h, h'⟩

theorem assign_of_notMem (h : ¬(page ≤ p ∧ p < page + count)) :
    assign owner page count o p = owner p := if_neg h

/-- Pages without an owner get one: the others keep theirs. -/
theorem assign_of_owned {w : Owner} (hfree : ∀ p, page ≤ p → p < page + count → owner p = none)
    (hp : owner p = some w) : assign owner page count o p = some w := by
  rw [assign_of_notMem fun hmem => ?_, hp]
  exact absurd (hp.symm.trans (hfree p hmem.1 hmem.2)) (by simp)

end Assign

/-! ### Blocks of a small arena -/

/-- Block `k` of a small arena. -/
def blockAt (page desc k : ℕ) : ℕ := page * Memory.pageSize + 16 + k * blockBytes desc

theorem blockBytes_pos (i : ℕ) : 16 ≤ blockBytes i := Nat.le_mul_of_pos_right _ (Nat.two_pow_pos i)

section BlockAt

variable {page page' desc k k' : ℕ}

/-- A block ends within its page. -/
theorem blockAt_fit (hk : k < arenaBlocks desc) : 16 + k * blockBytes desc + blockBytes desc ≤ 4096 := by
  have hle : (k + 1) * blockBytes desc ≤ 4080 :=
    (Nat.mul_le_mul_right _ hk).trans (Nat.div_mul_le_self 4080 (blockBytes desc))
  rw [Nat.succ_mul] at hle
  omega

theorem blockAt_div (hk : k < arenaBlocks desc) : blockAt page desc k / Memory.pageSize = page := by
  have hfit := blockAt_fit hk
  have hpos := blockBytes_pos desc
  rw [blockAt, Memory.pageSize_eq]
  omega

/-- Blocks at one place lie on one page. -/
theorem page_eq_of_blockAt {desc' : ℕ} (hk : k < arenaBlocks desc) (hk' : k' < arenaBlocks desc')
    (h : blockAt page desc k = blockAt page' desc' k') : page = page' :=
  (blockAt_div hk).symm.trans ((congrArg (· / Memory.pageSize) h).trans (blockAt_div hk'))

theorem blockAt_inj (h : blockAt page desc k = blockAt page desc k') : k = k' := by
  rw [blockAt, blockAt] at h
  exact Nat.eq_of_mul_eq_mul_right (Nat.lt_of_lt_of_le (by decide) (blockBytes_pos desc))
    (Nat.add_left_cancel h)

theorem blockAt_ne_zero : blockAt page desc k ≠ 0 := by
  rw [blockAt]
  omega

theorem arenaBlocks_le (desc : ℕ) : arenaBlocks desc ≤ 255 := by
  have h : 4080 / blockBytes desc ≤ 4080 / 16 := Nat.div_le_div_left (blockBytes_pos desc) (by decide)
  exact h

theorem arenaBlocks_pos (h : desc < descCount) : 0 < arenaBlocks desc := by
  have hle : blockBytes desc ≤ 4096 - 16 := by
    have hpow : 2 ^ desc ≤ 2 ^ 6 := Nat.pow_le_pow_right (by decide) (Nat.le_of_lt_succ h)
    rw [blockBytes]
    omega
  exact Nat.div_pos hle (Nat.lt_of_lt_of_le (by decide) (blockBytes_pos desc))

end BlockAt

/-- The descriptor `kmalloc` uses for a small block. -/
theorem descOf_spec {size : ℕ} (h : size ≤ 1024) :
    Heap.descOf size < descCount ∧ size ≤ blockBytes (Heap.descOf size) := by
  have hlast : (List.range descCount).find? (fun i => decide (size ≤ blockBytes i)) ≠ none := by
    intro hnone
    have hsix := List.find?_eq_none.mp hnone 6 (by decide)
    exact hsix (decide_eq_true (h.trans (by decide)))
  obtain ⟨i, hi⟩ := Option.ne_none_iff_exists'.mp hlast
  have hle := List.find?_some hi
  rw [Heap.descOf, hi, Option.getD_some]
  exact ⟨List.mem_range.mp (List.mem_of_find?_eq_some hi), of_decide_eq_true hle⟩

/-! ### Pages -/

/-- **Pages with an owner are marked.** -/
structure PageOwners (map : Bitmap) (owner : ℕ → Option Owner) : Prop where
  /-- `kernel_map` starts behind the first MiB. -/
  offset : map.offset = 256
  /-- It ends with the kernel's memory. -/
  length : map.length = 480
  /-- Its bytes are there. -/
  size : 480 ≤ map.size
  /-- A page with an owner is marked. -/
  used : ∀ {p o}, owner p = some o → 256 ≤ p ∧ p < 4096 ∧ bitOf map.bits (p - 256) = true

section Pages

variable {s t : Heap} {owner : ℕ → Option Owner} {page count : ℕ}

theorem PageOwners.wf {map : Bitmap} (h : PageOwners map owner) : map.WF :=
  ⟨h.length ▸ h.size, by rw [h.length, h.offset]; decide⟩

/-- **`alloc_kpage`** hands out pages without an owner. -/
theorem PageOwners.allocKpage (h : PageOwners s.kernelMap owner)
    (halloc : s.allocKpage count = some (page, t)) :
    0 < count ∧ page + count ≤ 4096 ∧ (∀ p, page ≤ p → p < page + count → owner p = none) ∧
      ∃ map, t = { s with kernelMap := map } ∧ ∀ o, PageOwners map (assign owner page count (some o)) := by
  obtain ⟨_, hcount, halloc⟩ := Option.bind_eq_some_iff.mp halloc
  obtain ⟨⟨page', map⟩, hscan, halloc⟩ := Option.bind_eq_some_iff.mp halloc
  obtain ⟨rfl, rfl⟩ := Prod.mk.inj (Option.some.inj halloc)
  obtain ⟨_, -, hscan⟩ := Option.bind_eq_some_iff.mp hscan
  obtain ⟨⟨page, map'⟩, hbitmap, hscan⟩ := Option.bind_eq_some_iff.mp hscan
  obtain ⟨_, hne, hscan⟩ := Option.bind_eq_some_iff.mp hscan
  obtain ⟨rfl, rfl⟩ := Prod.mk.inj (Option.some.inj hscan)
  have hpos := assert_eq_some.mp hcount
  obtain ⟨k, hk, hfit, hclear, -, hmap⟩ :=
    bitmapScan_first h.wf hpos hbitmap (assert_eq_some.mp hne)
  rw [h.offset] at hk
  rw [h.length] at hfit
  have hnone : ∀ p, page ≤ p → p < page + count → owner p = none := by
    intro p hp hp'
    cases ho : owner p with
    | none => rfl
    | some o =>
      have hbit := (h.used ho).2.2
      rw [hclear (p - 256) (by omega) (by omega)] at hbit
      exact absurd hbit (by decide)
  refine ⟨hpos, by omega, hnone, _, rfl, fun o => ⟨?_, ?_, ?_, fun {p w} hp => ?_⟩⟩
  · rw [hmap]
    exact h.offset
  · rw [hmap]
    exact h.length
  · rw [hmap]
    exact h.size
  · rw [hmap, bitOf_setRun]
    by_cases hmem : page ≤ p ∧ p < page + count
    · rw [if_pos (by omega)]
      exact ⟨by omega, by omega, rfl⟩
    · rw [assign_of_notMem hmem] at hp
      obtain ⟨hlo, hhi, hbit⟩ := h.used hp
      rw [hbit, ite_self]
      exact ⟨hlo, hhi, rfl⟩

/-- With enough free pages in a row it succeeds. -/
theorem PageOwners.exists_allocKpage (h : PageOwners s.kernelMap owner) (hcount : 0 < count) {k : ℕ}
    (hfit : k + count ≤ s.kernelMap.length * 8) (hclear : ClearRun s.kernelMap.bits k count) :
    ∃ page t, s.allocKpage count = some (page, t) := by
  obtain ⟨r, -, hfirst⟩ := bitmapScanLoop_start h.wf hcount
  cases r with
  | none => exact absurd hclear (hfirst k hfit)
  | some p =>
    obtain ⟨hfit', hclear', hleast⟩ := hfirst
    have hscan := bitmapScan_eq_some h.wf hcount hfit' hclear' hleast
    have hne : p + s.kernelMap.offset ≠ EOF := by
      rw [h.length] at hfit'
      rw [h.offset, EOF]
      omega
    refine ⟨p + s.kernelMap.offset,
      { s with kernelMap := { s.kernelMap with bits := setRun s.kernelMap.bits p count } }, ?_⟩
    rw [Heap.allocKpage, Memory.scanPage, assert_pos hcount, hscan]
    simp only [Option.bind_eq_bind, Option.bind_some, assert_pos hne]
    rfl

/-- `reset_page` of marked pages clears their bits. -/
theorem resetPage_eq : ∀ (left : ℕ) (map : Bitmap) (g : ℕ), g + left ≤ map.length * 8 →
    map.length ≤ map.size → (∀ j, g ≤ j → j < g + left → bitOf map.bits j = true) →
    ∃ bits, Memory.resetPage map (map.offset + g) left = some { map with bits := bits } ∧
      ∀ j, bitOf bits j = if g ≤ j ∧ j < g + left then false else bitOf map.bits j := by
  intro left
  induction left with
  | zero =>
    intro map g _ _ _
    exact ⟨map.bits, rfl, fun j => (if_neg (by omega)).symm⟩
  | succ left ih =>
    intro map g hfit hsize hset
    have hg : g / 8 < map.length := by omega
    have hkeep : ∀ j, g + 1 ≤ j → j < g + 1 + left →
        bitOf (setBit map.bits g false) j = true := by
      intro j hj hj'
      rw [bitOf_setBit_of_ne _ _ (by omega)]
      exact hset j (by omega) (by omega)
    obtain ⟨bits, hrest, hbits⟩ :=
      ih { map with bits := setBit map.bits g false } (g + 1) (by simp only; omega) hsize hkeep
    refine ⟨bits, ?_, fun j => ?_⟩
    · rw [Memory.resetPage, bitmapTest_eq map hg (by omega), hset g (le_refl g) (by omega)]
      simp only [Option.bind_eq_bind, Option.bind_some, assert_pos]
      rw [bitmapSet_eq map false (by omega), Option.bind_some]
      exact hrest
    · rw [hbits]
      by_cases hj : j = g
      · subst hj
        rw [if_neg (by omega), if_pos (by omega), bitOf_setBit_self]
      · simp only [bitOf_setBit_of_ne _ _ hj]
        exact if_congr (by omega) rfl rfl

/-- **`free_kpage`** of pages that have an owner. -/
theorem PageOwners.freeKpage (h : PageOwners s.kernelMap owner) (hcount : 0 < count) {o : Owner}
    (hown : ∀ p, page ≤ p → p < page + count → owner p = some o) :
    ∃ map, s.freeKpage page count = some { s with kernelMap := map } ∧
      PageOwners map (assign owner page count none) ∧
      ∀ p, page ≤ p → p < page + count → bitOf map.bits (p - 256) = false := by
  have hfirst := h.used (hown page (le_refl page) (by omega))
  have hlast := h.used (hown (page + count - 1) (by omega) (by omega))
  obtain ⟨bits, hreset, hbits⟩ := resetPage_eq count s.kernelMap (page - 256)
    (by rw [h.length]; omega) (h.length ▸ h.size) fun j hj hj' => by
      have hj := (h.used (hown (j + 256) (by omega) (by omega))).2.2
      rwa [Nat.add_sub_cancel] at hj
  rw [show s.kernelMap.offset + (page - 256) = page by rw [h.offset]; omega] at hreset
  refine ⟨{ s.kernelMap with bits := bits }, ?_, ⟨h.offset, h.length, h.size, fun {p w} hp => ?_⟩,
    fun p hp hp' => ?_⟩
  · rw [Heap.freeKpage, assert_pos hcount, hreset]
    rfl
  · by_cases hmem : page ≤ p ∧ p < page + count
    · rw [assign_of_mem hmem.1 hmem.2] at hp
      exact absurd hp (by simp)
    · rw [assign_of_notMem hmem] at hp
      obtain ⟨hlo, hhi, hbit⟩ := h.used hp
      refine ⟨hlo, hhi, (hbits (p - 256)).trans ?_⟩
      rw [if_neg (by omega), hbit]
  · exact (hbits (p - 256)).trans (if_pos (by omega))

end Pages

/-! ### Blocks -/

/-- Where a block in use lies. -/
inductive Placed (s : Heap) (owner : ℕ → Option Owner) (ptr size : ℕ) : Prop
  /-- In a small arena. -/
  | small {page desc k : ℕ} (hown : owner page = some (.small desc)) (hk : k < arenaBlocks desc)
      (hptr : ptr = blockAt page desc k) (hsize : size ≤ blockBytes desc) (hlow : size ≤ 1024)
  /-- In pages of its own. -/
  | large {page count : ℕ} (hcount : 0 < count) (hptr : ptr = page * Memory.pageSize + 16)
      (hhead : s.arenas page = { desc := none, count := count, large := 1, magic := onixsMagic })
      (hsize : size + 16 ≤ count * Memory.pageSize) (hhigh : 1024 < size)
      (hown : ∀ p, page ≤ p → p < page + count → owner p = some (.large page))

/-- The number of free blocks of a small arena. -/
def Heap.freeCount (s : Heap) (page desc : ℕ) : ℕ :=
  ((Finset.range (arenaBlocks desc)).filter fun k => blockAt page desc k ∈ s.freeList desc).card

/-- **The blocks, the free lists and the headers agree with the owners.** Each small arena but
`spare` has a block in use. -/
structure Heap.Held (s : Heap) (blocks ranges : List (ℕ × ℕ)) (owner : ℕ → Option Owner)
    (spare : Option ℕ) : Prop where
  /-- The pages of a range are its own. -/
  range : ∀ {page count}, (page, count) ∈ ranges →
    0 < count ∧ ∀ p, page ≤ p → p < page + count → owner p = some (.range page)
  /-- A range is handed out once. -/
  ranges_nodup : (ranges.map Prod.fst).Nodup
  /-- A block has a place. -/
  placed : ∀ {ptr size}, (ptr, size) ∈ blocks → Placed s owner ptr size
  /-- A block is handed out once. -/
  blocks_nodup : (blocks.map Prod.fst).Nodup
  /-- A list has blocks of small arenas, -/
  free : ∀ {desc b}, b ∈ s.freeList desc →
    ∃ page k, owner page = some (.small desc) ∧ k < arenaBlocks desc ∧ b = blockAt page desc k
  /-- each once. -/
  free_nodup : ∀ desc, (s.freeList desc).Nodup
  /-- The header of a small arena. -/
  header : ∀ {page desc}, owner page = some (.small desc) → s.arenas page
    = { desc := some desc, count := s.freeCount page desc, large := 0, magic := onixsMagic }
  /-- A block is free when it is not in use. -/
  free_iff : ∀ {page desc k}, owner page = some (.small desc) → k < arenaBlocks desc →
    (blockAt page desc k ∈ s.freeList desc ↔ blockAt page desc k ∉ blocks.map Prod.fst)
  /-- A small arena has a block in use. -/
  busy : ∀ {page desc}, owner page = some (.small desc) → spare ≠ some page →
    ∃ k < arenaBlocks desc, blockAt page desc k ∈ blocks.map Prod.fst

section Held

variable {s t : Heap} {blocks ranges : List (ℕ × ℕ)} {owner : ℕ → Option Owner} {spare : Option ℕ}
  {page count desc k ptr size : ℕ}

theorem Placed.congr (h : Placed s owner ptr size) {owner' : ℕ → Option Owner}
    (hown : ∀ p o, owner p = some o → (∀ a, o ≠ .range a) → owner' p = some o)
    (hhead : ∀ p a, owner p = some (.large a) → t.arenas p = s.arenas p) : Placed t owner' ptr size := by
  cases h with
  | small ho hk hptr hsize hlow => exact .small (hown _ _ ho (by simp)) hk hptr hsize hlow
  | @large page count hcount hptr hh hsize hhigh ho =>
    refine .large hcount hptr ((hhead page page (ho page (le_refl _) (by omega))).trans hh) hsize hhigh
      fun p hp hp' => hown p _ (ho p hp hp') (by simp)

/-- A large block is where no small one is. -/
theorem blockAt_ne_large {p : ℕ} (hlarge : owner page = some (.large p))
    (hsmall : owner k = some (.small desc)) {j : ℕ} (hj : j < arenaBlocks desc) :
    blockAt k desc j ≠ page * Memory.pageSize + 16 := by
  intro heq
  have hdiv : blockAt k desc j / Memory.pageSize = k := blockAt_div hj
  rw [heq, Memory.pageSize_eq] at hdiv
  obtain rfl : page = k := by omega
  exact absurd (hlarge.symm.trans hsmall) (by simp)

/-! ### Ranges -/

/-- **A range is handed out.** -/
theorem Heap.Held.alloc (h : s.Held blocks ranges owner spare) (hcount : 0 < count)
    (hfree : ∀ p, page ≤ p → p < page + count → owner p = none) (map : Bitmap) :
    ({ s with kernelMap := map } : Heap).Held blocks ((page, count) :: ranges)
      (assign owner page count (some (.range page))) spare := by
  have hsmall : ∀ {p i}, assign owner page count (some (.range page)) p = some (.small i) →
      owner p = some (.small i) := by
    intro p i hp
    by_cases hmem : page ≤ p ∧ p < page + count
    · rw [assign_of_mem hmem.1 hmem.2] at hp
      exact absurd hp (by simp)
    · rwa [assign_of_notMem hmem] at hp
  refine ⟨fun {a n} hmem => ?_, ?_, fun hmem => ?_, h.blocks_nodup, fun hb => ?_, h.free_nodup,
    fun hp => h.header (hsmall hp), fun hp hk => h.free_iff (hsmall hp) hk,
    fun hp hne => h.busy (hsmall hp) hne⟩
  · rcases List.mem_cons.mp hmem with heq | hmem
    · obtain ⟨rfl, rfl⟩ := Prod.mk.inj heq
      exact ⟨hcount, fun p hp hp' => assign_of_mem hp hp'⟩
    · obtain ⟨hn, hown⟩ := h.range hmem
      exact ⟨hn, fun p hp hp' => assign_of_owned hfree (hown p hp hp')⟩
  · refine List.nodup_cons.mpr ⟨fun hmem => ?_, h.ranges_nodup⟩
    obtain ⟨⟨a, n⟩, hin, rfl⟩ := List.mem_map.mp hmem
    obtain ⟨hn, hown⟩ := h.range hin
    exact absurd ((hfree a (le_refl a) (by omega)).symm.trans (hown a (le_refl a) (by omega))) (by simp)
  · exact (h.placed hmem).congr (fun p o hp _ => assign_of_owned hfree hp) fun _ _ _ => rfl
  · obtain ⟨p, k, hp, hk, rfl⟩ := h.free hb
    exact ⟨p, k, assign_of_owned hfree hp, hk, rfl⟩

/-- **A range is given back.** -/
theorem Heap.Held.release (h : s.Held blocks ranges owner spare) (hmem : (page, count) ∈ ranges)
    (map : Bitmap) : ({ s with kernelMap := map } : Heap).Held blocks (ranges.erase (page, count))
      (assign owner page count none) spare := by
  obtain ⟨hcount, hown⟩ := h.range hmem
  have hkeep : ∀ {p o}, owner p = some o → o ≠ .range page → assign owner page count none p = some o := by
    intro p o hp hne
    refine (assign_of_notMem fun hin => hne ?_).trans hp
    exact Option.some.inj (hp.symm.trans (hown p hin.1 hin.2))
  have hback : ∀ {p o}, assign owner page count none p = some o → owner p = some o := by
    intro p o hp
    by_cases hin : page ≤ p ∧ p < page + count
    · rw [assign_of_mem hin.1 hin.2] at hp
      exact absurd hp (by simp)
    · rwa [assign_of_notMem hin] at hp
  refine ⟨fun {a n} hmem' => ?_, (h.ranges_nodup.sublist (List.erase_sublist.map _)), fun hmem => ?_,
    h.blocks_nodup, fun hb => ?_, h.free_nodup, fun hp => h.header (hback hp),
    fun hp hk => h.free_iff (hback hp) hk, fun hp hne => h.busy (hback hp) hne⟩
  · -- another range starts elsewhere
    have hnodup : ranges.Nodup := h.ranges_nodup.of_map _
    obtain ⟨hne, hin⟩ := hnodup.mem_erase_iff.mp hmem'
    obtain ⟨hn, hown'⟩ := h.range hin
    have hstart : a ≠ page := by
      rintro rfl
      exact hne (List.inj_on_of_nodup_map h.ranges_nodup hin hmem rfl)
    exact ⟨hn, fun p hp hp' => hkeep (hown' p hp hp') (by simpa using hstart)⟩
  · exact (h.placed hmem).congr (fun p o hp hne => hkeep hp (hne page)) fun _ _ _ => rfl
  · obtain ⟨p, k, hp, hk, rfl⟩ := h.free hb
    exact ⟨p, k, hkeep hp (by simp), hk, rfl⟩

end Held

end Onixs
