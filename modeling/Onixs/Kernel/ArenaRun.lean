import Onixs.Kernel.ArenaSteps

/-!
# Any use of the heap

Between two calls the owners agree with the bitmap and with the blocks (`HeapUse.Sound`),
and then things in use are apart: an address in one of them tells which one it is, by
the owner of its page and, on the page of a small arena, by the block it lies in. Every legal
call keeps this, so that it holds after any of them (`heapRun_apart`).
-/

namespace Onixs

open Bytes

section Sound

variable {s : HeapUse} {heap : Heap} {blocks ranges : List (ℕ × ℕ)} {owner : ℕ → Option Owner}
  {spare : Option ℕ} {page desc k ptr ptr' size size' addr : ℕ}

/-- **Somebody has the pages, and the blocks agree.** -/
def HeapUse.Sound (s : HeapUse) : Prop :=
  ∃ owner, PageOwners s.heap.kernelMap owner ∧ s.heap.Held s.blocks s.ranges owner none

/-- Nothing has been handed out yet. Some pages may be marked. -/
structure HeapUse.Start (s : HeapUse) : Prop where
  /-- `kernel_map` starts behind the first MiB. -/
  offset : s.heap.kernelMap.offset = 256
  /-- It ends with the kernel's memory. -/
  length : s.heap.kernelMap.length = 480
  /-- Its bytes are there. -/
  size : 480 ≤ s.heap.kernelMap.size
  /-- The free lists are empty. -/
  freeList : ∀ i, s.heap.freeList i = []
  /-- No block is in use. -/
  blocks : s.blocks = []
  /-- No page is in use. -/
  ranges : s.ranges = []

theorem HeapUse.Start.sound (h : s.Start) : s.Sound := by
  refine ⟨fun _ => none, ⟨h.offset, h.length, h.size, fun hp => absurd hp (by simp)⟩, ?_⟩
  rw [h.blocks, h.ranges]
  refine ⟨fun hm => absurd hm List.not_mem_nil, List.nodup_nil, fun hm => absurd hm List.not_mem_nil,
    List.nodup_nil, fun {i b} hb => ?_, fun i => ?_, fun hp => absurd hp (by simp),
    fun hp => absurd hp (by simp), fun hp => absurd hp (by simp)⟩
  · rw [h.freeList i] at hb
    exact absurd hb List.not_mem_nil
  · rw [h.freeList i]
    exact List.nodup_nil

/-! ### Where an address lies -/

/-- An address of a block in use: the owner of its page says which block it is. -/
theorem Placed.at (h : Placed heap owner ptr size) (hlo : ptr ≤ addr) (hhi : addr < ptr + size) :
    (∃ desc k, owner (addr / Memory.pageSize) = some (.small desc) ∧ k < arenaBlocks desc ∧
      ptr = blockAt (addr / Memory.pageSize) desc k ∧ size ≤ blockBytes desc) ∨
    ∃ page, owner (addr / Memory.pageSize) = some (.large page) ∧ ptr = page * Memory.pageSize + 16 := by
  cases h with
  | @small page desc k hown hk hptr hsize hlow =>
    have hfit := blockAt_fit hk
    have hpage : addr / Memory.pageSize = page := by
      rw [hptr, blockAt, Memory.pageSize_eq] at hlo hhi
      rw [Memory.pageSize_eq]
      omega
    exact Or.inl ⟨desc, k, hpage ▸ hown, hk, hpage ▸ hptr, hsize⟩
  | @large page count hcount hptr hhead hsize hhigh hown =>
    rw [Memory.pageSize_eq] at hptr hsize
    refine Or.inr ⟨page, hown _ ?_ ?_, hptr⟩
    · rw [Memory.pageSize_eq]
      omega
    · rw [Memory.pageSize_eq]
      omega

/-- Two blocks of an arena that have an address in common are one. -/
theorem blockAt_eq_of_mem {k k' : ℕ} (hlo : blockAt page desc k ≤ addr)
    (hhi : addr < blockAt page desc k + blockBytes desc) (hlo' : blockAt page desc k' ≤ addr)
    (hhi' : addr < blockAt page desc k' + blockBytes desc) : k = k' := by
  rw [blockAt] at hlo hhi hlo' hhi'
  -- block `k` ends where block `k + 1` starts
  have hlt : ∀ {a b : ℕ}, page * Memory.pageSize + 16 + a * blockBytes desc ≤ addr →
      addr < page * Memory.pageSize + 16 + b * blockBytes desc + blockBytes desc → a < b + 1 := by
    intro a b ha hb
    have hmul : a * blockBytes desc < (b + 1) * blockBytes desc := by
      rw [Nat.succ_mul]
      omega
    exact Nat.lt_of_mul_lt_mul_right hmul
  have hle := hlt hlo hhi'
  have hle' := hlt hlo' hhi
  omega

/-- **Two blocks in use** that have an address in common are one. -/
theorem Placed.unique (h : Placed heap owner ptr size) (h' : Placed heap owner ptr' size')
    (hlo : ptr ≤ addr) (hhi : addr < ptr + size) (hlo' : ptr' ≤ addr) (hhi' : addr < ptr' + size') :
    ptr = ptr' := by
  rcases h.at hlo hhi with ⟨desc, k, hown, hk, hptr, hsize⟩ | ⟨page, hown, hptr⟩
  · rcases h'.at hlo' hhi' with ⟨desc', k', hown', hk', hptr', hsize'⟩ | ⟨page', hown', hptr'⟩
    · obtain rfl : desc = desc' := by simpa using hown.symm.trans hown'
      obtain rfl : k = k' := by
        have hend : addr < ptr + blockBytes desc := by omega
        have hend' : addr < ptr' + blockBytes desc := by omega
        rw [hptr] at hlo hend
        rw [hptr'] at hlo' hend'
        exact blockAt_eq_of_mem hlo hend hlo' hend'
      exact hptr.trans hptr'.symm
    · exact absurd (hown.symm.trans hown') (by simp)
  · rcases h'.at hlo' hhi' with ⟨desc', k', hown', hk', hptr', hsize'⟩ | ⟨page', hown', hptr'⟩
    · exact absurd (hown.symm.trans hown') (by simp)
    · obtain rfl : page = page' := by simpa using hown.symm.trans hown'
      exact hptr.trans hptr'.symm

/-- An address of a range in use: the owner of its page says which range it is. -/
theorem Heap.Held.range_at {count : ℕ} (h : heap.Held blocks ranges owner spare)
    (hmem : (page, count) ∈ ranges) (hlo : page * Memory.pageSize ≤ addr)
    (hhi : addr < page * Memory.pageSize + count * Memory.pageSize) :
    owner (addr / Memory.pageSize) = some (.range page) := by
  rw [Memory.pageSize_eq] at hlo hhi
  refine (h.range hmem).2 _ ?_ ?_
  · rw [Memory.pageSize_eq]
    omega
  · rw [Memory.pageSize_eq]
    omega

/-- **What is in use is apart.** -/
theorem HeapUse.Sound.apart (h : s.Sound) : s.Apart := by
  obtain ⟨owner, hpages, hheld⟩ := h
  refine ⟨List.pairwise_append.mpr ⟨?_, ?_, ?_⟩, fun e he addr hlo hhi => ?_⟩
  · -- two blocks
    refine (List.pairwise_map.mp hheld.blocks_nodup).imp_of_mem fun {a b} ha hb hne addr => ?_
    rintro ⟨⟨hlo, hhi⟩, hlo', hhi'⟩
    exact hne ((hheld.placed ha).unique (hheld.placed hb) hlo hhi hlo' hhi')
  · -- two ranges
    refine List.pairwise_map.mpr ?_
    refine (List.pairwise_map.mp hheld.ranges_nodup).imp_of_mem fun {a b} ha hb hne addr => ?_
    rintro ⟨⟨hlo, hhi⟩, hlo', hhi'⟩
    have hsame := (hheld.range_at ha hlo hhi).symm.trans (hheld.range_at hb hlo' hhi')
    have heq : a.1 = b.1 := by simpa using hsame
    exact hne heq
  · -- a block and a range
    intro a ha b hb addr
    obtain ⟨r, hr, rfl⟩ := List.mem_map.mp hb
    rintro ⟨⟨hlo, hhi⟩, hlo', hhi'⟩
    have hrange := hheld.range_at hr hlo' hhi'
    rcases (hheld.placed ha).at hlo hhi with ⟨desc, k, hown, -⟩ | ⟨page, hown, -⟩
    · exact absurd (hown.symm.trans hrange) (by simp)
    · exact absurd (hown.symm.trans hrange) (by simp)
  · have hown : ∃ o, owner (addr / Memory.pageSize) = some o := by
      rcases List.mem_append.mp he with hb | hr
      · rcases (hheld.placed hb).at hlo hhi with ⟨desc, k, hown, -⟩ | ⟨page, hown, -⟩
        · exact ⟨_, hown⟩
        · exact ⟨_, hown⟩
      · obtain ⟨r, hin, rfl⟩ := List.mem_map.mp hr
        exact ⟨_, hheld.range_at hin hlo hhi⟩
    obtain ⟨o, hown⟩ := hown
    obtain ⟨hbase, -, hbit⟩ := hpages.used hown
    exact ⟨hbase, hbit⟩

/-! ### One call -/

/-- `kmalloc` of a small block, up to where it takes one out of the list. -/
theorem Heap.Held.ready (h : heap.Held blocks ranges owner none) (hp : PageOwners heap.kernelMap owner)
    (hserve : heap.freeList desc = [] → ∃ page t, heap.allocKpage 1 = some (page, t)) :
    ∃ u owner' spare, (if heap.freeList desc = [] then heap.growArena desc else some heap) = some u ∧
      PageOwners u.kernelMap owner' ∧ u.Held blocks ranges owner' spare ∧
      ∀ b l, u.freeList desc = b :: l → ∀ p, spare = some p → b / Memory.pageSize = p := by
  by_cases hnil : heap.freeList desc = []
  · obtain ⟨page, t, halloc⟩ := hserve hnil
    obtain ⟨-, -, hfree, map, rfl, howners⟩ := hp.allocKpage halloc
    obtain ⟨u, hrun, hmap, hlist, hheld⟩ :=
      h.growArena hnil (hfree page (le_refl page) (Nat.lt_succ_self page)) map
    refine ⟨u, _, some page, ?_, by rw [hmap]; exact howners (.small desc), hheld, ?_⟩
    · rw [if_pos hnil, Heap.growArena, halloc]
      exact hrun
    · rintro b l hcons p ⟨rfl⟩
      obtain ⟨k, hk, rfl⟩ := (hlist b).mp (hcons ▸ List.mem_cons_self)
      exact blockAt_div hk
  · refine ⟨heap, owner, none, if_neg hnil, hp, h, ?_⟩
    rintro b l - p ⟨⟩

/-- After that the list is not empty. -/
theorem freeList_ready {u : Heap} (hdesc : desc < descCount)
    (hready : (if heap.freeList desc = [] then heap.growArena desc else some heap) = some u)
    (h : heap.Held blocks ranges owner none) (hp : PageOwners heap.kernelMap owner) :
    u.freeList desc ≠ [] := by
  by_cases hnil : heap.freeList desc = []
  · rw [if_pos hnil] at hready
    obtain ⟨⟨page, t⟩, halloc, hpush⟩ := Option.bind_eq_some_iff.mp hready
    obtain ⟨-, -, hfree, map, rfl, -⟩ := hp.allocKpage halloc
    obtain ⟨v, hrun, -, hlist, -⟩ :=
      h.growArena hnil (hfree page (le_refl page) (Nat.lt_succ_self page)) map
    obtain rfl : v = u := Option.some.inj (hrun.symm.trans hpush)
    exact List.ne_nil_of_mem ((hlist _).mpr ⟨0, arenaBlocks_pos hdesc, rfl⟩)
  · rw [if_neg hnil] at hready
    exact Option.some.inj hready ▸ hnil

/-- What `kmalloc` of a small block does then. -/
theorem kmalloc_small {u : Heap} {b : ℕ} {l : List ℕ} (hsize : ¬1024 < size)
    (hready : (if heap.freeList (Heap.descOf size) = [] then heap.growArena (Heap.descOf size)
      else some heap) = some u)
    (hlist : u.freeList (Heap.descOf size) = b :: l)
    (hmagic : (u.arenas (b / Memory.pageSize)).magic = onixsMagic)
    (hsmall : (u.arenas (b / Memory.pageSize)).large = 0) :
    heap.kmalloc size = some (b, (u.setFreeList (Heap.descOf size) l).setArena (b / Memory.pageSize)
      { u.arenas (b / Memory.pageSize) with
        count := sub32 (u.arenas (b / Memory.pageSize)).count 1 }) := by
  have hpop : u.listPop (Heap.descOf size) = some (b, u.setFreeList (Heap.descOf size) l) := by
    rw [Heap.listPop, hlist]
  rw [Heap.kmalloc, if_neg hsize]
  by_cases hnil : heap.freeList (Heap.descOf size) = []
  · rw [if_pos hnil] at hready
    simp only [if_pos hnil, hready, hpop, Option.bind_eq_bind, Option.bind_some]
    rw [assert_pos ⟨hmagic, hsmall⟩]
    rfl
  · rw [if_neg hnil] at hready
    obtain rfl : heap = u := Option.some.inj hready
    simp only [if_neg hnil, hpop, Option.bind_eq_bind, Option.bind_some]
    rw [assert_pos ⟨hmagic, hsmall⟩]
    rfl

/-- **`alloc_kpage`.** -/
theorem HeapUse.Sound.alloc {count : ℕ} (h : s.Sound) (hlegal : s.Legal (.alloc count)) :
    ∃ t, s.step (.alloc count) = some ((), t) ∧ t.Sound := by
  obtain ⟨owner, hpages, hheld⟩ := h
  obtain ⟨hcount, k, hfit, hclear⟩ := hlegal
  obtain ⟨page, u, halloc⟩ := hpages.exists_allocKpage hcount hfit hclear
  obtain ⟨-, -, hfree, map, rfl, howners⟩ := hpages.allocKpage halloc
  refine ⟨_, by rw [HeapUse.step, halloc]; rfl, _, howners (.range page), hheld.alloc hcount hfree map⟩

/-- **`free_kpage`.** -/
theorem HeapUse.Sound.free {count : ℕ} (h : s.Sound) (hlegal : s.Legal (.free page count)) :
    ∃ t, s.step (.free page count) = some ((), t) ∧ t.Sound := by
  obtain ⟨owner, hpages, hheld⟩ := h
  obtain ⟨hcount, hown⟩ := hheld.range hlegal
  obtain ⟨map, hfree, hpages', -⟩ := hpages.freeKpage hcount hown
  exact ⟨_, by rw [HeapUse.step, hfree]; rfl, _, hpages', hheld.release hlegal map⟩

/-- **`kmalloc`.** -/
theorem HeapUse.Sound.kmalloc (h : s.Sound) (hlegal : s.Legal (.kmalloc size)) :
    ∃ t, s.step (.kmalloc size) = some ((), t) ∧ t.Sound := by
  obtain ⟨owner, hpages, hheld⟩ := h
  obtain ⟨hpos, hbound, hlarge, hsmall⟩ := hlegal
  by_cases hsize : 1024 < size
  · obtain ⟨k, hfit, hclear⟩ := hlarge hsize
    have hround : divRoundUp (size + 16) Memory.pageSize = (size + 16 + 4095) / 4096 := by
      rw [divRoundUp_eq (by decide) (by rw [Memory.pageSize_eq]; omega), Memory.pageSize_eq]
    obtain ⟨count, hcount⟩ : ∃ count, count = divRoundUp (size + 16) Memory.pageSize := ⟨_, rfl⟩
    rw [← hcount] at hfit hclear hround
    have hfits : size + 16 ≤ count * Memory.pageSize := by
      rw [Memory.pageSize_eq]
      omega
    have hcount' : 0 < count := by omega
    obtain ⟨page, u, halloc⟩ := hpages.exists_allocKpage hcount' hfit hclear
    obtain ⟨-, -, hfree, map, rfl, howners⟩ := hpages.allocKpage halloc
    refine ⟨⟨_, _, _⟩, ?_, _, howners (.large page), hheld.kmallocLarge hcount' hfree hsize hfits map⟩
    rw [HeapUse.step, Heap.kmalloc, if_pos hsize, Heap.kmallocLarge, u32_of_lt (by omega), ← hcount]
    simp only [halloc, Option.bind_eq_bind, Option.bind_some]
    rfl
  · have hlow : size ≤ 1024 := Nat.le_of_not_lt hsize
    obtain ⟨hdesc, hbytes⟩ := descOf_spec hlow
    obtain ⟨u, owner', spare, hready, hpages', hheld', hspare⟩ := hheld.ready hpages fun hnil => by
      obtain ⟨k, hfit, hclear⟩ := hsmall hlow hnil
      exact hpages.exists_allocKpage Nat.one_pos hfit hclear
    obtain ⟨b, l, hlist⟩ := List.exists_cons_of_ne_nil (freeList_ready hdesc hready hheld hpages)
    obtain ⟨hmagic, hsmall', hpop⟩ := hheld'.pop hlist (hspare b l hlist) hbytes hlow
    refine ⟨⟨_, _, _⟩, ?_, owner', ?_, hpop⟩
    · rw [HeapUse.step, kmalloc_small hsize hready hlist hmagic hsmall']
      rfl
    · exact hpages'

/-- **`kfree`.** The page of a small block is given back when no other block lies on it. -/
theorem HeapUse.Sound.kfree (h : s.Sound) (hlegal : s.Legal (.kfree ptr)) :
    ∃ t, s.step (.kfree ptr) = some ((), t) ∧ s.Returned (.kfree ptr) t ∧ t.Sound := by
  obtain ⟨owner, hpages, hheld⟩ := h
  obtain ⟨⟨ptr, size⟩, hmem, rfl⟩ := List.mem_map.mp hlegal
  have hplaced := hheld.placed hmem
  cases hplaced with
  | @large page count hcount hptr hhead hsize hhigh hown =>
    have hdiv : ptr / Memory.pageSize = page := by
      rw [hptr, Memory.pageSize_eq]
      omega
    obtain ⟨map, hfree, hpages', -⟩ := hpages.freeKpage hcount hown
    refine ⟨⟨_, _, _⟩, ?_, ?_, _, hpages', hheld.kfreeLarge hptr hcount hown map⟩
    · have hlarge : (s.heap.arenas page).large = 1 := by rw [hhead]
      have hmagic : (s.heap.arenas page).magic = onixsMagic := by rw [hhead]
      have hpagecount : (s.heap.arenas page).count = count := by rw [hhead]
      rw [HeapUse.step, Heap.kfree, assert_pos (by omega)]
      simp only [hdiv, Option.bind_eq_bind, Option.bind_some]
      rw [assert_pos (Or.inl hlarge), Option.bind_some, assert_pos hmagic, Option.bind_some,
        if_pos (by rw [hlarge]; exact Nat.one_ne_zero), hpagecount, hfree]
      rfl
    · rintro ptr' size' ⟨rfl⟩ hmem' hlow
      have heq := List.inj_on_of_nodup_map hheld.blocks_nodup hmem hmem' rfl
      have hsame : size = size' := (Prod.mk.inj heq).2
      omega
  | @small page desc k hown hk hptr hsize hlow =>
    subst hptr
    have hdiv : blockAt page desc k / Memory.pageSize = page := blockAt_div hk
    have hhead := hheld.header hown
    have hin : blockAt page desc k ∈ s.blocks.map Prod.fst := List.mem_map_of_mem hmem
    have hout : blockAt page desc k ∉ s.heap.freeList desc := fun hc => (hheld.free_iff hown hk).mp hc hin
    have hpush := hheld.push hown hk hin
    obtain ⟨u, hu⟩ : ∃ u, u = (s.heap.setFreeList desc
        (blockAt page desc k :: s.heap.freeList desc)).setArena page
      { s.heap.arenas page with count := u32 ((s.heap.arenas page).count + 1) } := ⟨_, rfl⟩
    rw [← hu] at hpush
    have hmap : u.kernelMap = s.heap.kernelMap := by rw [hu]; rfl
    have hcount : (u.arenas page).count = u.freeCount page desc := by rw [hpush.header hown]
    have hkfree : s.heap.kfree (blockAt page desc k) =
        if (u.arenas page).count = arenaBlocks desc then
          (u.removeBlocks desc page (arenaBlocks desc) 0).bind fun t => t.freeKpage page 1
        else some u := by
      have hlarge : (s.heap.arenas page).large = 0 := by rw [hhead]
      have hmagic : (s.heap.arenas page).magic = onixsMagic := by rw [hhead]
      have hdesc : (s.heap.arenas page).desc = some desc := by rw [hhead]
      rw [Heap.kfree, assert_pos blockAt_ne_zero]
      simp only [hdiv, Option.bind_eq_bind, Option.bind_some]
      rw [assert_pos (Or.inr hlarge), Option.bind_some, assert_pos hmagic, Option.bind_some,
        if_neg (not_not.mpr hlarge), hdesc, Option.bind_some, Heap.listPush, assert_pos hout, hu]
      rfl
    by_cases hall : u.freeCount page desc = arenaBlocks desc
    · -- its last block
      obtain ⟨t, hrun, htmap, hheld'⟩ := hpush.dissolve hown hall
      have hone : ∀ p, page ≤ p → p < page + 1 → owner p = some (.small desc) := by
        intro p hp hp'
        obtain rfl : p = page := by omega
        exact hown
      obtain ⟨map, hfree, hpages', hbits⟩ := (htmap.trans hmap ▸ hpages :
        PageOwners t.kernelMap owner).freeKpage Nat.one_pos hone
      refine ⟨⟨_, _, _⟩, ?_, ?_, _, hpages', hheld' map⟩
      · rw [HeapUse.step, hkfree, if_pos (hcount.trans hall), hrun, Option.bind_some, hfree]
        rfl
      · rintro ptr' size' ⟨rfl⟩ - -
        rw [hdiv]
        refine iff_of_false (fun hm => ?_) ?_
        · exact absurd (hm.2.symm.trans (hbits page (le_refl page) (Nat.lt_succ_self page))) (by decide)
        · rintro ⟨b, hb, hpage⟩
          exact (hheld' map).notMem (assign_of_mem (le_refl page) (Nat.lt_succ_self page)) hpage
            (List.mem_map_of_mem hb)
    · have hkeep := hpush.keep hown hall
      refine ⟨⟨_, _, _⟩, ?_, ?_, owner, hmap.symm ▸ hpages, hkeep⟩
      · rw [HeapUse.step, hkfree, if_neg (hcount ▸ hall)]
        rfl
      · rintro ptr' size' ⟨rfl⟩ - -
        rw [hdiv]
        obtain ⟨hbase, -, hbit⟩ := hpages.used hown
        refine iff_of_true ⟨hbase, hmap ▸ hbit⟩ ?_
        obtain ⟨j, hj, hmem'⟩ := hkeep.busy hown (by simp)
        obtain ⟨b, hb, heq⟩ := List.mem_map.mp hmem'
        exact ⟨b, hb, by rw [heq, blockAt_div hj]⟩

/-- A legal call. -/
theorem HeapUse.Sound.step {op : HeapOp} (h : s.Sound) (hlegal : s.Legal op) :
    ∃ r t, s.step op = some (r, t) ∧ (t.Apart ∧ s.Returned op t) ∧ t.Sound := by
  have hnone : ∀ {op'} (t : HeapUse), op = op' → (∀ ptr, op' ≠ .kfree ptr) → s.Returned op t := by
    rintro op' t rfl hne ptr size heq
    exact absurd heq (hne ptr)
  cases op with
  | alloc count =>
    obtain ⟨t, hstep, hsound⟩ := h.alloc hlegal
    exact ⟨(), t, hstep, ⟨hsound.apart, hnone t rfl (by simp)⟩, hsound⟩
  | free page count =>
    obtain ⟨t, hstep, hsound⟩ := h.free hlegal
    exact ⟨(), t, hstep, ⟨hsound.apart, hnone t rfl (by simp)⟩, hsound⟩
  | kmalloc size =>
    obtain ⟨t, hstep, hsound⟩ := h.kmalloc hlegal
    exact ⟨(), t, hstep, ⟨hsound.apart, hnone t rfl (by simp)⟩, hsound⟩
  | kfree ptr =>
    obtain ⟨t, hstep, hreturned, hsound⟩ := h.kfree hlegal
    exact ⟨(), t, hstep, ⟨hsound.apart, hreturned⟩, hsound⟩

end Sound

/-- **The heap.** No assertion fails in a run of legal calls; after each of them what is in use is
apart and on marked pages, and the page of a small block is given back with the last block
on it. -/
theorem heapRun_apart {s : HeapUse} (h : s.Start) {ops : List HeapOp}
    (hlegal : Run.Along HeapUse.step HeapUse.Legal s ops) :
    Run.Meets HeapUse.step (fun s op _ t => t.Apart ∧ s.Returned op t) s ops :=
  Run.meets_of_inv HeapUse.Sound (fun _ _ hs hop => hs.step hop) ops s h.sound hlegal

/-- The heap of a machine that has just been started, with all pages free. -/
def freshUse : HeapUse where
  heap :=
    { kernelMap := markedMap 0
      arenas := fun _ => zeroArena
      freeList := fun _ => [] }
  blocks := []
  ranges := []

theorem freshUse_start : freshUse.Start :=
  ⟨rfl, rfl, le_refl 480, fun _ => rfl, rfl, rfl⟩

/-- A block of two pages is handed out and given back. -/
theorem heapRun_apart_two : Run.Meets HeapUse.step (fun s op _ t => t.Apart ∧ s.Returned op t)
    freshUse [.kmalloc 5000, .kfree 1048592] := by
  have hcount : divRoundUp (5000 + 16) Memory.pageSize = 2 := by decide
  have hscan : bitmapScan (markedMap 0) 2 = some (0 + 256, markedMap (0 + 2)) :=
    bitmapScan_markedMap (by decide) (by decide)
  have hne : 0 + 256 ≠ EOF := by decide
  refine heapRun_apart freshUse_start ⟨⟨by decide, by decide, fun _ => ?_, fun h => absurd h (by decide)⟩,
    fun r t hstep => ⟨?_, fun _ _ _ => trivial⟩⟩
  · rw [hcount]
    exact ⟨0, by decide, (clearRun_markedMap (by decide)).mpr (le_refl 0)⟩
  · rw [HeapUse.step, Heap.kmalloc, if_pos (by decide), Heap.kmallocLarge, u32_of_lt (by decide), hcount,
      Heap.allocKpage, Memory.scanPage, show freshUse.heap.kernelMap = markedMap 0 from rfl, hscan] at hstep
    simp only [Option.bind_eq_bind, Option.bind_some, assert_pos hne, assert_pos Nat.two_pos] at hstep
    obtain ⟨-, rfl⟩ := Prod.mk.inj (Option.some.inj hstep)
    exact List.mem_cons_self

end Onixs
