import Onixs.Kernel.ArenaOwners

/-!
# The steps of the heap

What `kmalloc` and `kfree` do to the owners. A large block takes its pages and gives them back.
A small one is taken from the free list of its size, after a new arena has been cut up if the
list was empty, and put back into it; an arena that has no block in use any more is taken
out of the list, and its page is given back.
-/

namespace Onixs

open Bytes

section Steps

variable {s t : Heap} {blocks ranges : List (ℕ × ℕ)} {owner : ℕ → Option Owner} {spare : Option ℕ}
  {page count desc k ptr size : ℕ}

/-! ### Lists of blocks -/

theorem mem_release {b : ℕ} : b ∈ (blocks.filter fun c => c.1 ≠ ptr).map Prod.fst ↔
    b ∈ blocks.map Prod.fst ∧ b ≠ ptr := by
  rw [List.mem_map, List.mem_map]
  constructor
  · rintro ⟨c, hc, rfl⟩
    obtain ⟨hmem, hne⟩ := List.mem_filter.mp hc
    exact ⟨⟨c, hmem, rfl⟩, of_decide_eq_true hne⟩
  · rintro ⟨⟨c, hc, rfl⟩, hne⟩
    exact ⟨c, List.mem_filter.mpr ⟨hc, decide_eq_true hne⟩, rfl⟩

/-- Two places where a block can lie on a page that nobody has. -/
theorem Heap.Held.notMem (h : s.Held blocks ranges owner spare) (hnone : owner page = none)
    (hptr : ptr / Memory.pageSize = page) : ptr ∉ blocks.map Prod.fst := by
  intro hmem
  obtain ⟨⟨q, n⟩, hin, rfl⟩ := List.mem_map.mp hmem
  cases h.placed hin with
  | @small p i k hown hk hp =>
    simp only at hptr
    rw [hp, blockAt_div hk] at hptr
    rw [hptr, hnone] at hown
    exact absurd hown (by simp)
  | @large p c hc hp hhead hs hhigh hown =>
    simp only [Memory.pageSize_eq] at hp hptr
    obtain rfl : p = page := by omega
    exact absurd (hnone.symm.trans (hown p (le_refl p) (by omega))) (by simp)

/-! ### Large blocks -/

/-- **A large block is handed out.** -/
theorem Heap.Held.kmallocLarge (h : s.Held blocks ranges owner spare) (hcount : 0 < count)
    (hfree : ∀ p, page ≤ p → p < page + count → owner p = none) (hhigh : 1024 < size)
    (hsize : size + 16 ≤ count * Memory.pageSize) (map : Bitmap) :
    ((({ s with kernelMap := map } : Heap).clearPages page count).setArena page
        { desc := none, count := count, large := 1, magic := onixsMagic }).Held
      ((page * Memory.pageSize + 16, size) :: blocks) ranges
      (assign owner page count (some (.large page))) spare := by
  have hpage : owner page = none := hfree page (le_refl page) (by omega)
  have hback : ∀ {p o}, assign owner page count (some (.large page)) p = some o → o ≠ .large page →
      owner p = some o := by
    intro p o hp hne
    by_cases hmem : page ≤ p ∧ p < page + count
    · rw [assign_of_mem hmem.1 hmem.2] at hp
      exact absurd (Option.some.inj hp).symm hne
    · rwa [assign_of_notMem hmem] at hp
  -- the headers of pages that have an owner are not touched
  have hhead : ∀ {p o}, owner p = some o →
      ((({ s with kernelMap := map } : Heap).clearPages page count).setArena page
        { desc := none, count := count, large := 1, magic := onixsMagic }).arenas p = s.arenas p := by
    intro p o hp
    have hout : ¬(page ≤ p ∧ p < page + count) := fun hin =>
      absurd (hp.symm.trans (hfree p hin.1 hin.2)) (by simp)
    have hne : p ≠ page := fun heq => hout ⟨heq ▸ le_refl p, by omega⟩
    exact (if_neg hne).trans (if_neg hout)
  have hdiv : (page * Memory.pageSize + 16) / Memory.pageSize = page := by
    rw [Memory.pageSize_eq]
    omega
  refine ⟨fun hmem => ?_, h.ranges_nodup, fun {q n} hmem => ?_,
    List.nodup_cons.mpr ⟨h.notMem hpage hdiv, h.blocks_nodup⟩, fun hb => ?_, h.free_nodup,
    fun hp => ?_, fun {p i k} hp hk => ?_, fun hp hne => ?_⟩
  · obtain ⟨hn, hown⟩ := h.range hmem
    exact ⟨hn, fun p hp hp' => assign_of_owned hfree (hown p hp hp')⟩
  · rcases List.mem_cons.mp hmem with heq | hmem
    · obtain ⟨rfl, rfl⟩ := Prod.mk.inj heq
      exact .large hcount rfl (if_pos rfl) hsize hhigh fun p hp hp' => assign_of_mem hp hp'
    · exact (h.placed hmem).congr (fun p o hp _ => assign_of_owned hfree hp) fun p a hp => hhead hp
  · obtain ⟨p, k, hp, hk, rfl⟩ := h.free hb
    exact ⟨p, k, assign_of_owned hfree hp, hk, rfl⟩
  · have hp := hback hp (by simp)
    exact (hhead hp).trans (h.header hp)
  · have hp := hback hp (by simp)
    refine (h.free_iff hp hk).trans (not_congr ?_)
    rw [List.map_cons, List.mem_cons]
    refine (or_iff_right fun heq => ?_).symm
    -- a small block lies on another page
    have hq : blockAt p i k / Memory.pageSize = p := blockAt_div hk
    rw [heq, hdiv] at hq
    exact absurd (hp.symm.trans (hq ▸ hpage)) (by simp)
  · obtain ⟨k, hk, hmem⟩ := h.busy (hback hp (by simp)) hne
    exact ⟨k, hk, List.mem_cons_of_mem _ hmem⟩

/-- **A large block is given back.** -/
theorem Heap.Held.kfreeLarge (h : s.Held blocks ranges owner spare)
    (hptr : ptr = page * Memory.pageSize + 16) (hcount : 0 < count)
    (hown : ∀ p, page ≤ p → p < page + count → owner p = some (.large page)) (map : Bitmap) :
    ({ s with kernelMap := map } : Heap).Held (blocks.filter fun c => c.1 ≠ ptr) ranges
      (assign owner page count none) spare := by
  have hpage := hown page (le_refl page) (by omega)
  have hkeep : ∀ {p o}, owner p = some o → o ≠ .large page → assign owner page count none p = some o := by
    intro p o hp hne
    refine (assign_of_notMem fun hin => hne ?_).trans hp
    exact Option.some.inj (hp.symm.trans (hown p hin.1 hin.2))
  have hback : ∀ {p o}, assign owner page count none p = some o → owner p = some o := by
    intro p o hp
    by_cases hin : page ≤ p ∧ p < page + count
    · rw [assign_of_mem hin.1 hin.2] at hp
      exact absurd hp (by simp)
    · rwa [assign_of_notMem hin] at hp
  have hother : ∀ {p i k}, owner p = some (.small i) → k < arenaBlocks i → blockAt p i k ≠ ptr :=
    fun hp hk => hptr ▸ blockAt_ne_large hpage hp hk
  refine ⟨fun hmem => ?_, h.ranges_nodup, fun {q n} hmem => ?_,
    h.blocks_nodup.sublist (List.filter_sublist.map _), fun hb => ?_, h.free_nodup,
    fun hp => h.header (hback hp), fun hp hk => ?_, fun hp hne => ?_⟩
  · obtain ⟨hn, hown'⟩ := h.range hmem
    exact ⟨hn, fun p hp hp' => hkeep (hown' p hp hp') (by simp)⟩
  · obtain ⟨hmem, hne⟩ := List.mem_filter.mp hmem
    have hne : q ≠ ptr := of_decide_eq_true hne
    cases h.placed hmem with
    | small ho hk hp hs hlow => exact .small (hkeep ho (by simp)) hk hp hs hlow
    | @large a n' hn hp hhead hs hhigh ho =>
      refine .large hn hp hhead hs hhigh fun p hp' hp'' => hkeep (ho p hp' hp'') ?_
      rintro ⟨rfl⟩
      exact hne (hp.trans hptr.symm)
  · obtain ⟨p, k, hp, hk, rfl⟩ := h.free hb
    exact ⟨p, k, hkeep hp (by simp), hk, rfl⟩
  · rw [mem_release, not_and_or, not_not, or_iff_left (hother (hback hp) hk)]
    exact h.free_iff (hback hp) hk
  · obtain ⟨k, hk, hmem⟩ := h.busy (hback hp) hne
    exact ⟨k, hk, mem_release.mpr ⟨hmem, hother (hback hp) hk⟩⟩

/-! ### Cutting up an arena -/

theorem arenaGetBlock_eq (hdesc : (s.arenas page).desc = some desc) (hk : k < arenaBlocks desc) :
    s.arenaGetBlock page k = some (blockAt page desc k) := by
  rw [Heap.arenaGetBlock, hdesc]
  simp only [Option.bind_eq_bind, Option.bind_some, assert_pos hk]
  rfl

/-- `t` is `s` with another free list of one size. -/
structure OnlyList (s t : Heap) (desc : ℕ) : Prop where
  /-- The bitmap. -/
  kernelMap : t.kernelMap = s.kernelMap
  /-- The headers. -/
  arenas : t.arenas = s.arenas
  /-- The other lists. -/
  other : ∀ i, i ≠ desc → t.freeList i = s.freeList i

theorem OnlyList.setFreeList (s : Heap) (desc : ℕ) (l : List ℕ) : OnlyList s (s.setFreeList desc l) desc :=
  ⟨rfl, rfl, fun _ hi => if_neg hi⟩

theorem OnlyList.trans {u : Heap} (h : OnlyList s t desc) (h' : OnlyList t u desc) : OnlyList s u desc :=
  ⟨h'.kernelMap.trans h.kernelMap, h'.arenas.trans h.arenas, fun i hi => (h'.other i hi).trans (h.other i hi)⟩

theorem setFreeList_self (l : List ℕ) : (s.setFreeList desc l).freeList desc = l := if_pos rfl

/-- **The blocks of a new arena** are put into the list. -/
theorem pushBlocks_spec (page : ℕ) : ∀ (left i : ℕ) (s : Heap), (s.arenas page).desc = some desc →
    i + left = arenaBlocks desc → (s.freeList desc).Nodup →
    (∀ k, i ≤ k → k < arenaBlocks desc → blockAt page desc k ∉ s.freeList desc) →
    ∃ t, s.pushBlocks desc page left i = some t ∧ OnlyList s t desc ∧ (t.freeList desc).Nodup ∧
      ∀ b, b ∈ t.freeList desc ↔ b ∈ s.freeList desc ∨
        ∃ k, i ≤ k ∧ k < arenaBlocks desc ∧ b = blockAt page desc k := by
  intro left
  induction left with
  | zero =>
    intro i s _ hsum hnodup _
    refine ⟨s, rfl, ⟨rfl, rfl, fun _ _ => rfl⟩, hnodup, fun b => (or_iff_left ?_).symm⟩
    rintro ⟨k, hk, hk', -⟩
    omega
  | succ left ih =>
    intro i s hdesc hsum hnodup hout
    have hi : i < arenaBlocks desc := by omega
    have hnew := hout i (le_refl i) hi
    have hu : ((s.setFreeList desc (blockAt page desc i :: s.freeList desc)).freeList desc)
        = blockAt page desc i :: s.freeList desc := setFreeList_self _
    obtain ⟨t, hrun, honly, hnodup', hmem⟩ := ih (i + 1)
      (s.setFreeList desc (blockAt page desc i :: s.freeList desc)) hdesc (by omega)
      (by rw [hu]; exact List.nodup_cons.mpr ⟨hnew, hnodup⟩) fun k hk hk' => by
        rw [hu, List.mem_cons, not_or]
        exact ⟨fun heq => absurd (blockAt_inj heq) (by omega), hout k (by omega) hk'⟩
    refine ⟨t, ?_, (OnlyList.setFreeList s desc _).trans honly, hnodup', fun b => ?_⟩
    · rw [Heap.pushBlocks, arenaGetBlock_eq hdesc hi]
      simp only [Option.bind_eq_bind, Option.bind_some, Heap.listPush, assert_pos hnew, Option.pure_def]
      rw [hu, assert_pos List.mem_cons_self, Option.bind_some]
      exact hrun
    · rw [hmem, hu, List.mem_cons]
      constructor
      · rintro ((rfl | hb) | ⟨k, hk, hk', rfl⟩)
        · exact Or.inr ⟨i, le_refl i, hi, rfl⟩
        · exact Or.inl hb
        · exact Or.inr ⟨k, by omega, hk', rfl⟩
      · rintro (hb | ⟨k, hk, hk', rfl⟩)
        · exact Or.inl (Or.inr hb)
        · rcases eq_or_ne k i with rfl | hne
          · exact Or.inl (Or.inl rfl)
          · exact Or.inr ⟨k, by omega, hk', rfl⟩

/-- **The blocks of an arena** are taken out of the list. -/
theorem removeBlocks_spec (page : ℕ) : ∀ (left i : ℕ) (s : Heap), (s.arenas page).desc = some desc →
    i + left = arenaBlocks desc → (s.freeList desc).Nodup →
    (∀ k, i ≤ k → k < arenaBlocks desc → blockAt page desc k ∈ s.freeList desc) →
    ∃ t, s.removeBlocks desc page left i = some t ∧ OnlyList s t desc ∧ (t.freeList desc).Nodup ∧
      ∀ b, b ∈ t.freeList desc ↔ b ∈ s.freeList desc ∧
        ∀ k, i ≤ k → k < arenaBlocks desc → b ≠ blockAt page desc k := by
  intro left
  induction left with
  | zero =>
    intro i s _ hsum hnodup _
    refine ⟨s, rfl, ⟨rfl, rfl, fun _ _ => rfl⟩, hnodup, fun b => (and_iff_left ?_).symm⟩
    intro k hk hk'
    omega
  | succ left ih =>
    intro i s hdesc hsum hnodup hin
    have hi : i < arenaBlocks desc := by omega
    have hold := hin i (le_refl i) hi
    have hu : ((s.setFreeList desc ((s.freeList desc).erase (blockAt page desc i))).freeList desc)
        = (s.freeList desc).erase (blockAt page desc i) := setFreeList_self _
    obtain ⟨t, hrun, honly, hnodup', hmem⟩ := ih (i + 1)
      (s.setFreeList desc ((s.freeList desc).erase (blockAt page desc i))) hdesc (by omega)
      (by rw [hu]; exact hnodup.erase _) fun k hk hk' => by
        rw [hu, hnodup.mem_erase_iff]
        exact ⟨fun heq => absurd (blockAt_inj heq) (by omega), hin k (by omega) hk'⟩
    have hgone : blockAt page desc i ∉ (s.freeList desc).erase (blockAt page desc i) :=
      fun hc => (hnodup.mem_erase_iff.mp hc).1 rfl
    refine ⟨t, ?_, (OnlyList.setFreeList s desc _).trans honly, hnodup', fun b => ?_⟩
    · rw [Heap.removeBlocks, arenaGetBlock_eq hdesc hi]
      simp only [Option.bind_eq_bind, Option.bind_some, Heap.listRemove, assert_pos hold, Option.pure_def]
      rw [hu, assert_pos hgone, Option.bind_some]
      exact hrun
    · rw [hmem, hu, hnodup.mem_erase_iff]
      constructor
      · rintro ⟨⟨hne, hb⟩, hall⟩
        refine ⟨hb, fun k hk hk' => ?_⟩
        rcases eq_or_ne k i with rfl | hki
        · exact hne
        · exact hall k (by omega) hk'
      · rintro ⟨hb, hall⟩
        exact ⟨⟨hall i (le_refl i) hi, hb⟩, fun k hk hk' => hall k (by omega) hk'⟩

/-! ### Counting free blocks -/

theorem freeCount_congr (h : ∀ k < arenaBlocks desc,
    (blockAt page desc k ∈ t.freeList desc ↔ blockAt page desc k ∈ s.freeList desc)) :
    t.freeCount page desc = s.freeCount page desc := by
  refine congrArg Finset.card (Finset.filter_congr fun k hk => h k (Finset.mem_range.mp hk))

/-- One block less. -/
theorem freeCount_erase (hk : k < arenaBlocks desc) (hmem : blockAt page desc k ∈ s.freeList desc)
    (h : ∀ j < arenaBlocks desc,
      (blockAt page desc j ∈ t.freeList desc ↔ j ≠ k ∧ blockAt page desc j ∈ s.freeList desc)) :
    t.freeCount page desc + 1 = s.freeCount page desc := by
  have herase : (Finset.range (arenaBlocks desc)).filter (fun j => blockAt page desc j ∈ t.freeList desc)
      = ((Finset.range (arenaBlocks desc)).filter fun j => blockAt page desc j ∈ s.freeList desc).erase k := by
    ext j
    rw [Finset.mem_erase, Finset.mem_filter, Finset.mem_filter, Finset.mem_range]
    constructor
    · rintro ⟨hj, hin⟩
      obtain ⟨hne, hin⟩ := (h j hj).mp hin
      exact ⟨hne, hj, hin⟩
    · rintro ⟨hne, hj, hin⟩
      exact ⟨hj, (h j hj).mpr ⟨hne, hin⟩⟩
  rw [Heap.freeCount, herase]
  exact Finset.card_erase_add_one (Finset.mem_filter.mpr ⟨Finset.mem_range.mpr hk, hmem⟩)

/-- All blocks are free. -/
theorem freeCount_eq_iff : s.freeCount page desc = arenaBlocks desc ↔
    ∀ k < arenaBlocks desc, blockAt page desc k ∈ s.freeList desc := by
  have hcard := Finset.card_filter_eq_iff (s := Finset.range (arenaBlocks desc))
    (p := fun k => blockAt page desc k ∈ s.freeList desc)
  rw [Finset.card_range] at hcard
  rw [Heap.freeCount, hcard]
  exact forall_congr' fun k => imp_congr_left Finset.mem_range

theorem freeCount_le : s.freeCount page desc ≤ 255 := by
  refine (Finset.card_filter_le _ _).trans ?_
  rw [Finset.card_range]
  exact arenaBlocks_le desc

/-! ### Small blocks -/

/-- **A new arena** joins, with all its blocks free. -/
theorem Heap.Held.growArena (h : s.Held blocks ranges owner none) (hnil : s.freeList desc = [])
    (hnone : owner page = none) (map : Bitmap) :
    ∃ t, ((({ s with kernelMap := map } : Heap).clearPages page 1).setArena page
        { desc := some desc, count := arenaBlocks desc, large := 0, magic := onixsMagic }).pushBlocks
          desc page (arenaBlocks desc) 0 = some t ∧ t.kernelMap = map ∧
      (∀ b, b ∈ t.freeList desc ↔ ∃ k < arenaBlocks desc, b = blockAt page desc k) ∧
      t.Held blocks ranges (assign owner page 1 (some (.small desc))) (some page) := by
  have hfree : ∀ p, page ≤ p → p < page + 1 → owner p = none := by
    intro p hp hp'
    obtain rfl : p = page := by omega
    exact hnone
  obtain ⟨u, hu⟩ : ∃ u, u = (({ s with kernelMap := map } : Heap).clearPages page 1).setArena page
        { desc := some desc, count := arenaBlocks desc, large := 0, magic := onixsMagic } := ⟨_, rfl⟩
  have hupage : u.arenas page
      = { desc := some desc, count := arenaBlocks desc, large := 0, magic := onixsMagic } := by
    rw [hu]
    exact if_pos rfl
  have huother : ∀ {p}, p ≠ page → u.arenas p = s.arenas p := by
    intro p hp
    rw [hu]
    exact (if_neg hp).trans (if_neg (by omega))
  have hulist : u.freeList = s.freeList := by rw [hu]; rfl
  obtain ⟨t, hrun, honly, hnodup, hmem⟩ := pushBlocks_spec page (arenaBlocks desc) 0 u
    (by rw [hupage]) (Nat.zero_add _) (by rw [hulist]; exact h.free_nodup desc)
    fun k _ _ => by rw [hulist, hnil]; exact List.not_mem_nil
  have hlist : ∀ b, b ∈ t.freeList desc ↔ ∃ k < arenaBlocks desc, b = blockAt page desc k := by
    intro b
    rw [hmem, hulist, hnil]
    simp
  have hother : ∀ {p i}, owner p = some (.small i) → p ≠ page := fun hp heq =>
    absurd (hp.symm.trans (heq ▸ hnone)) (by simp)
  -- on the other pages nothing is free that was not
  have hsame : ∀ {p i k}, owner p = some (.small i) → k < arenaBlocks i →
      (blockAt p i k ∈ t.freeList i ↔ blockAt p i k ∈ s.freeList i) := by
    intro p i k hp hk
    rcases eq_or_ne i desc with rfl | hi
    · rw [hlist, hnil]
      refine iff_of_false ?_ List.not_mem_nil
      rintro ⟨j, hj, heq⟩
      exact hother hp (page_eq_of_blockAt hk hj heq)
    · rw [honly.other i hi, hulist]
  have hback : ∀ {p i}, assign owner page 1 (some (.small desc)) p = some (.small i) →
      (p = page ∧ i = desc) ∨ owner p = some (.small i) := by
    intro p i hp
    by_cases hin : page ≤ p ∧ p < page + 1
    · rw [assign_of_mem hin.1 hin.2] at hp
      have hi : desc = i := by simpa using hp
      exact Or.inl ⟨by omega, hi.symm⟩
    · rw [assign_of_notMem hin] at hp
      exact Or.inr hp
  have hnew : assign owner page 1 (some (.small desc)) page = some (.small desc) :=
    assign_of_mem (le_refl page) (Nat.lt_succ_self page)
  refine ⟨t, hu ▸ hrun, honly.kernelMap.trans (by rw [hu]; rfl), hlist, ⟨fun hm => ?_, h.ranges_nodup,
    fun hm => ?_, h.blocks_nodup, fun {i b} hb => ?_, fun i => ?_, fun {p i} hp => ?_,
    fun {p i k} hp hk => ?_, fun {p i} hp hne => ?_⟩⟩
  · obtain ⟨hn, hown⟩ := h.range hm
    exact ⟨hn, fun p hp hp' => assign_of_owned hfree (hown p hp hp')⟩
  · refine (h.placed hm).congr (fun p o hp _ => assign_of_owned hfree hp) fun p a hp => ?_
    rw [honly.arenas, huother fun heq => absurd (hp.symm.trans (heq ▸ hnone)) (by simp)]
  · rcases eq_or_ne i desc with rfl | hi
    · obtain ⟨k, hk, rfl⟩ := (hlist b).mp hb
      exact ⟨page, k, hnew, hk, rfl⟩
    · rw [honly.other i hi, hulist] at hb
      obtain ⟨p, k, hp, hk, rfl⟩ := h.free hb
      exact ⟨p, k, assign_of_owned hfree hp, hk, rfl⟩
  · rcases eq_or_ne i desc with rfl | hi
    · exact hnodup
    · rw [honly.other i hi, hulist]
      exact h.free_nodup i
  · rcases hback hp with ⟨rfl, rfl⟩ | hp
    · rw [honly.arenas, hupage, freeCount_eq_iff.mpr fun k hk => (hlist _).mpr ⟨k, hk, rfl⟩]
    · rw [honly.arenas, huother (hother hp), h.header hp, freeCount_congr fun k hk => hsame hp hk]
  · rcases hback hp with ⟨rfl, rfl⟩ | hp
    · exact iff_of_true ((hlist _).mpr ⟨k, hk, rfl⟩) (h.notMem hnone (blockAt_div hk))
    · exact (hsame hp hk).trans (h.free_iff hp hk)
  · rcases hback hp with ⟨rfl, rfl⟩ | hp
    · exact absurd rfl hne
    · exact h.busy hp (by simp)

/-- **A block is taken out of the list** and handed out. -/
theorem Heap.Held.pop (h : s.Held blocks ranges owner spare) {b : ℕ} {l : List ℕ}
    (hlist : s.freeList desc = b :: l) (hspare : ∀ p, spare = some p → b / Memory.pageSize = p)
    (hsize : size ≤ blockBytes desc) (hlow : size ≤ 1024) :
    (s.arenas (b / Memory.pageSize)).magic = onixsMagic ∧
    (s.arenas (b / Memory.pageSize)).large = 0 ∧
    ((s.setFreeList desc l).setArena (b / Memory.pageSize)
      { s.arenas (b / Memory.pageSize) with
        count := sub32 (s.arenas (b / Memory.pageSize)).count 1 }).Held
      ((b, size) :: blocks) ranges owner none := by
  have hb : b ∈ s.freeList desc := hlist ▸ List.mem_cons_self
  obtain ⟨page, k, hown, hk, rfl⟩ := h.free hb
  have hnodup := h.free_nodup desc
  rw [hlist] at hnodup
  obtain ⟨hout, hnodup⟩ := List.nodup_cons.mp hnodup
  rw [blockAt_div hk] at hspare ⊢
  have hhead := h.header hown
  refine ⟨by rw [hhead], by rw [hhead], ?_⟩
  obtain ⟨t, ht⟩ : ∃ t, t = (s.setFreeList desc l).setArena page
    { s.arenas page with count := sub32 (s.arenas page).count 1 } := ⟨_, rfl⟩
  rw [← ht]
  have htlist : t.freeList desc = l := by rw [ht]; exact setFreeList_self l
  have htother : ∀ {i}, i ≠ desc → t.freeList i = s.freeList i := fun hi => by rw [ht]; exact if_neg hi
  have htarena : ∀ {p}, p ≠ page → t.arenas p = s.arenas p := fun hp => by rw [ht]; exact if_neg hp
  -- one free block less, on this page
  have hmem : ∀ {p i j}, owner p = some (.small i) → j < arenaBlocks i →
      (blockAt p i j ∈ t.freeList i ↔ blockAt p i j ≠ blockAt page desc k ∧ blockAt p i j ∈ s.freeList i) := by
    intro p i j hp hj
    rcases eq_or_ne i desc with rfl | hi
    · rw [htlist, hlist, List.mem_cons]
      constructor
      · intro hin
        exact ⟨fun heq => hout (heq ▸ hin), Or.inr hin⟩
      · rintro ⟨hne, heq | hin⟩
        · exact absurd heq hne
        · exact hin
    · rw [htother hi]
      refine (and_iff_right fun heq => hi ?_).symm
      have hpage := page_eq_of_blockAt hk hj heq.symm
      have hsame := (hpage ▸ hown).symm.trans hp
      have heq' : desc = i := by simpa using hsame
      exact heq'.symm
  have hhere : ∀ j < arenaBlocks desc,
      (blockAt page desc j ∈ t.freeList desc ↔ j ≠ k ∧ blockAt page desc j ∈ s.freeList desc) := by
    intro j hj
    rw [hmem hown hj]
    exact and_congr_left' (not_congr ⟨blockAt_inj, fun heq => by rw [heq]⟩)
  have hfirst : blockAt page desc k ∉ blocks.map Prod.fst := (h.free_iff hown hk).mp hb
  refine ⟨h.range, h.ranges_nodup, fun {ptr n} hm => ?_, List.nodup_cons.mpr ⟨hfirst, h.blocks_nodup⟩,
    fun {i c} hc => ?_, fun i => ?_, fun {p i} hp => ?_, fun {p i j} hp hj => ?_, fun {p i} hp _ => ?_⟩
  · rcases List.mem_cons.mp hm with heq | hm
    · obtain ⟨rfl, rfl⟩ := Prod.mk.inj heq
      exact .small hown hk rfl hsize hlow
    · refine (h.placed hm).congr (fun p o hp _ => hp) fun p a hp => htarena ?_
      rintro rfl
      exact absurd (hp.symm.trans hown) (by simp)
  · refine h.free (?_ : c ∈ s.freeList i)
    rcases eq_or_ne i desc with rfl | hi
    · rw [htlist] at hc
      exact hlist ▸ List.mem_cons_of_mem _ hc
    · rwa [htother hi] at hc
  · rcases eq_or_ne i desc with rfl | hi
    · rwa [htlist]
    · rw [htother hi]
      exact h.free_nodup i
  · rcases eq_or_ne p page with rfl | hne
    · obtain rfl : desc = i := by simpa using hown.symm.trans hp
      have hcount := freeCount_erase hk hb hhere
      have hle : s.freeCount p desc ≤ 255 := freeCount_le
      rw [ht]
      refine (if_pos rfl).trans ?_
      rw [← ht, hhead, ← hcount]
      have hsub : sub32 (t.freeCount p desc + 1) 1 = t.freeCount p desc :=
        sub32_of_le (by omega) (Nat.le_add_left 1 _)
      simp only [hsub]
    · rw [htarena hne, h.header hp]
      have hsame : t.freeCount p i = s.freeCount p i := freeCount_congr fun j hj => by
        rw [hmem hp hj]
        exact and_iff_right fun heq => hne (page_eq_of_blockAt hj hk heq)
      rw [hsame]
  · rw [hmem hp hj, List.map_cons, List.mem_cons, not_or, h.free_iff hp hj]
  · rcases eq_or_ne p page with rfl | hne
    · obtain rfl : desc = i := by simpa using hown.symm.trans hp
      exact ⟨k, hk, List.mem_cons_self⟩
    · obtain ⟨j, hj, hin⟩ := h.busy hp fun hsp => hne (hspare p hsp).symm
      exact ⟨j, hj, List.mem_cons_of_mem _ hin⟩

/-- **A small block is put back**: its arena may be all free now. -/
theorem Heap.Held.push (h : s.Held blocks ranges owner none) (hown : owner page = some (.small desc))
    (hk : k < arenaBlocks desc) (hin : blockAt page desc k ∈ blocks.map Prod.fst) :
    ((s.setFreeList desc (blockAt page desc k :: s.freeList desc)).setArena page
      { s.arenas page with count := u32 ((s.arenas page).count + 1) }).Held
      (blocks.filter fun b => b.1 ≠ blockAt page desc k) ranges owner (some page) := by
  have hhead := h.header hown
  have hout : blockAt page desc k ∉ s.freeList desc := fun hc => (h.free_iff hown hk).mp hc hin
  obtain ⟨t, ht⟩ : ∃ t, t = (s.setFreeList desc (blockAt page desc k :: s.freeList desc)).setArena page
    { s.arenas page with count := u32 ((s.arenas page).count + 1) } := ⟨_, rfl⟩
  rw [← ht]
  have htlist : t.freeList desc = blockAt page desc k :: s.freeList desc := by
    rw [ht]
    exact setFreeList_self _
  have htother : ∀ {i}, i ≠ desc → t.freeList i = s.freeList i := fun hi => by rw [ht]; exact if_neg hi
  have htarena : ∀ {p}, p ≠ page → t.arenas p = s.arenas p := fun hp => by rw [ht]; exact if_neg hp
  have hmem : ∀ {i c}, c ∈ t.freeList i ↔ (i = desc ∧ c = blockAt page desc k) ∨ c ∈ s.freeList i := by
    intro i c
    rcases eq_or_ne i desc with rfl | hi
    · rw [htlist, List.mem_cons, and_iff_right rfl]
    · rw [htother hi, or_iff_right fun hc => hi hc.1]
  have hhere : ∀ j < arenaBlocks desc,
      (blockAt page desc j ∈ s.freeList desc ↔ j ≠ k ∧ blockAt page desc j ∈ t.freeList desc) := by
    intro j _
    rw [hmem]
    constructor
    · intro hc
      exact ⟨fun heq => hout (heq ▸ hc), Or.inr hc⟩
    · rintro ⟨hne, ⟨-, heq⟩ | hc⟩
      · exact absurd (blockAt_inj heq) hne
      · exact hc
  -- a block of another arena is not the one that is put back
  have hapart : ∀ {p i j}, owner p = some (.small i) → j < arenaBlocks i → p ≠ page →
      blockAt p i j ≠ blockAt page desc k := by
    intro p i j _ hj hp heq
    exact hp (page_eq_of_blockAt hj hk heq)
  refine ⟨h.range, h.ranges_nodup, fun {ptr n} hm => ?_,
    h.blocks_nodup.sublist (List.filter_sublist.map _), fun {i c} hc => ?_, fun i => ?_,
    fun {p i} hp => ?_, fun {p i j} hp hj => ?_, fun {p i} hp hne => ?_⟩
  · refine (h.placed (List.mem_of_mem_filter hm)).congr (fun p o hp _ => hp) fun p a hp => htarena ?_
    rintro rfl
    exact absurd (hp.symm.trans hown) (by simp)
  · rcases hmem.mp hc with ⟨rfl, rfl⟩ | hc
    · exact ⟨page, k, hown, hk, rfl⟩
    · exact h.free hc
  · rcases eq_or_ne i desc with rfl | hi
    · rw [htlist]
      exact List.nodup_cons.mpr ⟨hout, h.free_nodup i⟩
    · rw [htother hi]
      exact h.free_nodup i
  · rcases eq_or_ne p page with rfl | hne
    · obtain rfl : desc = i := by simpa using hown.symm.trans hp
      have hcount := freeCount_erase hk (hmem.mpr (Or.inl ⟨rfl, rfl⟩)) hhere
      have hle : s.freeCount p desc ≤ 255 := freeCount_le
      rw [ht]
      refine (if_pos rfl).trans ?_
      rw [← ht, hhead, ← hcount]
      have hadd : u32 (s.freeCount p desc + 1) = s.freeCount p desc + 1 := u32_of_lt (by omega)
      simp only [hadd]
    · rw [htarena hne, h.header hp]
      have hsame : t.freeCount p i = s.freeCount p i := freeCount_congr fun j hj => by
        rw [hmem, or_iff_right fun hc => hapart hp hj hne hc.2]
      rw [hsame]
  · rw [hmem, mem_release, not_and_or, not_not, h.free_iff hp hj]
    constructor
    · rintro (⟨rfl, heq⟩ | hc)
      · exact Or.inr heq
      · exact Or.inl hc
    · rintro (hc | heq)
      · exact Or.inr hc
      · refine Or.inl ⟨?_, heq⟩
        have hp' : p = page := page_eq_of_blockAt hj hk heq
        have hi : some (Owner.small i) = some (Owner.small desc) := hp.symm.trans (hp' ▸ hown)
        simpa using hi
  · obtain ⟨j, hj, hc⟩ := h.busy hp (by simp)
    exact ⟨j, hj, mem_release.mpr ⟨hc, hapart hp hj fun heq => hne (heq ▸ rfl)⟩⟩

/-- An arena that is not all free has a block in use. -/
theorem Heap.Held.keep (h : s.Held blocks ranges owner (some page))
    (hown : owner page = some (.small desc)) (hne : s.freeCount page desc ≠ arenaBlocks desc) :
    s.Held blocks ranges owner none := by
  refine { h with busy := fun {p i} hp _ => ?_ }
  by_cases hpage : some page = some p
  · obtain rfl : page = p := Option.some.inj hpage
    obtain rfl : desc = i := by simpa using hown.symm.trans hp
    rw [ne_eq, freeCount_eq_iff] at hne
    push Not at hne
    obtain ⟨k, hk, hout⟩ := hne
    exact ⟨k, hk, not_not.mp fun hc => hout ((h.free_iff hp hk).mpr hc)⟩
  · exact h.busy hp hpage

/-- **An arena that is all free is given back.** -/
theorem Heap.Held.dissolve (h : s.Held blocks ranges owner (some page))
    (hown : owner page = some (.small desc)) (hall : s.freeCount page desc = arenaBlocks desc) :
    ∃ t, s.removeBlocks desc page (arenaBlocks desc) 0 = some t ∧ t.kernelMap = s.kernelMap ∧
      ∀ map, ({ t with kernelMap := map } : Heap).Held blocks ranges (assign owner page 1 none) none := by
  have hfull := freeCount_eq_iff.mp hall
  obtain ⟨t, hrun, honly, hnodup, hmem⟩ := removeBlocks_spec page (arenaBlocks desc) 0 s
    (by rw [h.header hown]) (Nat.zero_add _) (h.free_nodup desc) fun k _ hk => hfull k hk
  have hback : ∀ {p o}, assign owner page 1 none p = some o → p ≠ page ∧ owner p = some o := by
    intro p o hp
    by_cases hin : page ≤ p ∧ p < page + 1
    · rw [assign_of_mem hin.1 hin.2] at hp
      exact absurd hp (by simp)
    · rw [assign_of_notMem hin] at hp
      exact ⟨by omega, hp⟩
  have hkeep : ∀ {p o}, owner p = some o → p ≠ page → assign owner page 1 none p = some o := by
    intro p o hp hne
    rw [assign_of_notMem (by omega), hp]
  -- the blocks of other arenas stay in the lists
  have hsame : ∀ {p i k}, p ≠ page → k < arenaBlocks i →
      (blockAt p i k ∈ t.freeList i ↔ blockAt p i k ∈ s.freeList i) := by
    intro p i k hp hk
    rcases eq_or_ne i desc with rfl | hi
    · rw [hmem]
      exact and_iff_left fun j _ hj heq => hp (page_eq_of_blockAt hk hj heq)
    · rw [honly.other i hi]
  refine ⟨t, hrun, honly.kernelMap, fun map => ⟨fun hm => ?_, h.ranges_nodup, fun {ptr n} hm => ?_,
    h.blocks_nodup, fun {i b} hb => ?_, fun i => ?_, fun {p i} hp => ?_, fun {p i k} hp hk => ?_,
    fun {p i} hp _ => ?_⟩⟩
  · obtain ⟨hn, hrange⟩ := h.range hm
    refine ⟨hn, fun p hp hp' => hkeep (hrange p hp hp') ?_⟩
    rintro rfl
    exact absurd ((hrange p hp hp').symm.trans hown) (by simp)
  · have hplaced := h.placed hm
    cases hplaced with
    | @small p i k ho hk hptr hsize hlow =>
      refine .small (hkeep ho ?_) hk hptr hsize hlow
      rintro rfl
      obtain rfl : desc = i := by simpa using hown.symm.trans ho
      exact (h.free_iff hown hk).mp (hfull k hk) (hptr ▸ List.mem_map_of_mem hm)
    | @large p n hn hptr hhead hsize hhigh ho =>
      refine .large hn hptr (by rw [← hhead]; exact congrFun honly.arenas p) hsize hhigh
        fun q hq hq' => hkeep (ho q hq hq') ?_
      rintro rfl
      exact absurd ((ho q hq hq').symm.trans hown) (by simp)
  · have hb' : b ∈ s.freeList i := by
      rcases eq_or_ne i desc with rfl | hi
      · exact ((hmem b).mp hb).1
      · rw [← honly.other i hi]
        exact hb
    obtain ⟨p, k, hp, hk, rfl⟩ := h.free hb'
    refine ⟨p, k, hkeep hp ?_, hk, rfl⟩
    rintro rfl
    obtain rfl : desc = i := by simpa using hown.symm.trans hp
    exact ((hmem _).mp hb).2 k (Nat.zero_le k) hk rfl
  · rcases eq_or_ne i desc with rfl | hi
    · exact hnodup
    · exact honly.other i hi ▸ h.free_nodup i
  · obtain ⟨hne, hp⟩ := hback hp
    have hcount : t.freeCount p i = s.freeCount p i := freeCount_congr fun j hj => hsame hne hj
    refine (congrFun honly.arenas p).trans ((h.header hp).trans ?_)
    rw [← hcount]
    rfl
  · obtain ⟨hne, hp⟩ := hback hp
    exact (hsame hne hk).trans (h.free_iff hp hk)
  · obtain ⟨hne, hp⟩ := hback hp
    exact h.busy hp fun heq => hne (Option.some.inj heq).symm

end Steps

end Onixs
