import Mathlib.Data.Finset.Card
import Mathlib.Data.Finset.Image
import Onixs.Common.Run
import Onixs.Kernel.BufferPool

/-!
# One task and the buffer cache

A task that reads blocks, stores into the buffers it holds, writes them and gives them
back, with nothing else going on. `Onixs.CacheUser.last` records what it stored last; the
cache is transparent when every `bread` returns just that.

It is, for as long as there is a buffer for each block the task holds, the blocks are
below 2³¹ and no block is held more than 2³¹ times (`Onixs.cacheRun_transparent`). The two
bounds are where the 32-bit arithmetic of `bread` and `brelse` ends
(`Onixs.cacheRun_alias`).
-/

namespace Onixs

/-- A task that uses the cache. -/
structure CacheUser (D : Type) where
  /-- The cache. -/
  cache : Cache D
  /-- The buffers the task holds, each as often as it has read it. -/
  held : List ℕ
  /-- What was stored last, by device, block and sector of the block. -/
  last : ℕ → ℕ → ℕ → D

/-- What the task does. -/
inductive CacheOp (D : Type) where
  /-- `bread`. -/
  | bread (dev block : ℕ)
  /-- A store into the data of a buffer. -/
  | store (bf i : ℕ) (d : D)
  /-- `bwrite`. -/
  | bwrite (bf : ℕ)
  /-- `brelse`. -/
  | brelse (bf : ℕ)

namespace CacheUser

variable {D : Type}

/-- The block a buffer is for. -/
def key (s : CacheUser D) (bf : ℕ) : ℕ × ℕ := ((s.cache.buffers bf).dev, (s.cache.buffers bf).block)

/-- The blocks the task holds. -/
def blocks (s : CacheUser D) : Finset (ℕ × ℕ) := s.held.toFinset.image s.key

/-- The data of sector `i` has been replaced. -/
def record (s : CacheUser D) (bf i : ℕ) (d : D) : ℕ → ℕ → ℕ → D := fun dev block j =>
  if (dev, block) = s.key bf ∧ j = i then d else s.last dev block j

/-- A step. `bread` returns the buffer. -/
def step (s : CacheUser D) : CacheOp D → Option (Option ℕ × CacheUser D)
  | .bread dev block => (s.cache.bread 0 dev block).map fun r =>
      (some r.1, { s with cache := r.2, held := r.1 :: s.held })
  | .store bf i d => some (none, { s with cache := s.cache.store bf i d, last := s.record bf i d })
  | .bwrite bf => some (none, { s with cache := s.cache.bwrite bf })
  | .brelse bf => (s.cache.brelse bf).map fun t =>
      (none, { s with cache := t, held := s.held.erase bf })

/-- The task uses buffers it holds, and no more blocks at once than there are buffers. -/
def Legal (s : CacheUser D) : CacheOp D → Prop
  | .bread dev block => (insert (dev, block) s.blocks).card ≤ s.cache.cap
  | .store bf i _ => bf ∈ s.held ∧ i < 2
  | .bwrite bf => bf ∈ s.held
  | .brelse bf => bf ∈ s.held

/-- The block exists for a 32-bit sector number, and its counter does not overflow. -/
def Fits (s : CacheUser D) : CacheOp D → Prop
  | .bread dev block => block < 2147483648 ∧
      ∀ bf ∈ s.held, s.key bf = (dev, block) → s.held.count bf < 2147483648
  | _ => True

instance (s : CacheUser D) : (op : CacheOp D) → Decidable (s.Legal op)
  | .bread dev block => inferInstanceAs (Decidable ((insert (dev, block) s.blocks).card ≤ s.cache.cap))
  | .store bf i _ => inferInstanceAs (Decidable (bf ∈ s.held ∧ i < 2))
  | .bwrite bf => inferInstanceAs (Decidable (bf ∈ s.held))
  | .brelse bf => inferInstanceAs (Decidable (bf ∈ s.held))

instance (s : CacheUser D) : (op : CacheOp D) → Decidable (s.Fits op)
  | .bread dev block => inferInstanceAs (Decidable (block < 2147483648 ∧
      ∀ bf ∈ s.held, s.key bf = (dev, block) → s.held.count bf < 2147483648))
  | .store _ _ _ => inferInstanceAs (Decidable True)
  | .bwrite _ => inferInstanceAs (Decidable True)
  | .brelse _ => inferInstanceAs (Decidable True)

/-- **What is seen of the cache.** -/
structure Good (s : CacheUser D) : Prop where
  /-- A buffer is in the chain of its block. -/
  chain : ∀ {bf idx}, bf ∈ s.cache.hashTable idx →
    idx = Cache.hash (s.cache.buffers bf).dev (s.cache.buffers bf).block
  /-- It is there once. -/
  chain_nodup : ∀ idx, (s.cache.hashTable idx).Nodup
  /-- One buffer is hashed for a block. -/
  uniq : ∀ {bf bf' idx idx'}, bf ∈ s.cache.hashTable idx → bf' ∈ s.cache.hashTable idx' →
    s.key bf = s.key bf' → bf = bf'
  /-- The free list has the buffers with counter zero. -/
  free : ∀ {bf}, bf < s.cache.made → (bf ∈ s.cache.freeList ↔ (s.cache.buffers bf).count = 0)
  /-- Those are clean, and equal to their blocks. -/
  clean : ∀ {bf}, bf < s.cache.made → (s.cache.buffers bf).count = 0 →
    (s.cache.buffers bf).dirty = false ∧ ∀ i < 2, (s.cache.buffers bf).data i =
      s.cache.disk (s.cache.buffers bf).dev (Cache.sectorOf (s.cache.buffers bf).block i)

/-- **What a step does**: it leaves the cache in order, and `bread` returns a buffer of the block
with what was stored last. -/
def Post (s : CacheUser D) (op : CacheOp D) (r : Option ℕ) (t : CacheUser D) : Prop :=
  t.Good ∧ ∀ dev block, op = .bread dev block → ∃ bf, r = some bf ∧ t.key bf = (dev, block) ∧
    ∀ i < 2, (t.cache.buffers bf).data i = s.last dev block i

/-! ### The invariant -/

/-- The references to a buffer. -/
def refs (s : CacheUser D) (bf : ℕ) : ℕ := s.held.count bf

/-- **The cache holds what was stored last**, and so do the devices for the blocks that are not
hashed. -/
structure Transparent (s : CacheUser D) : Prop where
  /-- The lists are in order. -/
  pool : s.cache.Pool s.refs
  /-- Nobody waits. -/
  waitList : s.cache.waitList = []
  /-- All buffers have been read, and nobody is reading. -/
  ready : ∀ {bf}, bf < s.cache.made → (s.cache.buffers bf).valid = true ∧
    (s.cache.buffers bf).lock = none ∧ (s.cache.buffers bf).block < 2147483648
  /-- The buffers have what was stored last. -/
  cached : ∀ {bf}, bf < s.cache.made → ∀ i < 2, (s.cache.buffers bf).data i =
    s.last (s.cache.buffers bf).dev (s.cache.buffers bf).block i
  /-- What is clean is on the device. -/
  clean : ∀ {bf}, bf < s.cache.made → (s.cache.buffers bf).dirty = false → ∀ i < 2,
    (s.cache.buffers bf).data i =
      s.cache.disk (s.cache.buffers bf).dev (Cache.sectorOf (s.cache.buffers bf).block i)
  /-- The other blocks are on the device. -/
  uncached : ∀ {dev block}, block < 2147483648 → (∀ bf < s.cache.made, s.key bf ≠ (dev, block)) →
    ∀ i < 2, s.cache.disk dev (Cache.sectorOf block i) = s.last dev block i

variable {s t : CacheUser D} {bf dev block : ℕ}

theorem key_eq : s.key bf = (dev, block) ↔
    (s.cache.buffers bf).dev = dev ∧ (s.cache.buffers bf).block = block := Prod.mk_inj

section Invariant

variable (h : s.Transparent)

include h

/-- A buffer the task holds has been set up. -/
theorem Transparent.lt_of_held (hbf : bf ∈ s.held) : bf < s.cache.made := by
  by_contra hge
  have hzero : s.held.count bf = 0 := h.pool.refs_zero (Nat.le_of_not_lt hge)
  exact absurd hbf (List.count_eq_zero.mp hzero)

/-- With counters that have not overflowed the invariant is what can be seen. -/
theorem Transparent.good (hbound : ∀ bf, s.held.count bf < 4294967296) : s.Good := by
  have hcount : ∀ {bf}, bf < s.cache.made → (s.cache.buffers bf).count = s.refs bf := fun {bf} hlt =>
    (h.pool.count hlt).trans (u32_of_lt (hbound bf))
  refine ⟨fun {bf idx} hbf => (h.pool.mem_chain.mp hbf).2.symm, h.pool.chain_nodup,
    fun {bf bf' idx idx'} hbf hbf' hkey => ?_, fun {bf} hlt => ?_, fun {bf} hlt hzero => ?_⟩
  · obtain ⟨hdev, hblock⟩ := key_eq.mp hkey
    exact h.pool.uniq (h.pool.mem_chain.mp hbf).1 (h.pool.mem_chain.mp hbf').1 hdev hblock
  · rw [h.pool.mem_free, hcount hlt]
    exact and_iff_right hlt
  · rw [hcount hlt] at hzero
    have hdirty := (h.pool.clean hlt hzero).1
    exact ⟨hdirty, h.clean hlt hdirty⟩

/-- While there is a buffer for each block the task holds, `getblk` does not wait. -/
theorem Transparent.no_wait (hlegal : s.Legal (.bread dev block)) (hfull : s.cache.cap ≤ s.cache.made)
    (hempty : s.cache.freeList = [])
    (hno : ∀ b < s.cache.made, (s.cache.buffers b).dev = dev → (s.cache.buffers b).block ≠ block) :
    False := by
  have hheld : Finset.range s.cache.made ⊆ s.held.toFinset := by
    intro b hb
    rw [Finset.mem_range] at hb
    rw [List.mem_toFinset, ← List.count_pos_iff]
    by_contra hzero
    have hfree : b ∈ s.cache.freeList := h.pool.mem_free.mpr ⟨hb, Nat.eq_zero_of_not_pos hzero⟩
    rw [hempty] at hfree
    exact List.not_mem_nil hfree
  have hinj : Set.InjOn s.key (Finset.range s.cache.made) := by
    intro b hb b' hb' hkey
    obtain ⟨hd, hk⟩ := key_eq.mp hkey
    exact h.pool.uniq (Finset.mem_range.mp hb) (Finset.mem_range.mp hb') hd hk
  have hnew : (dev, block) ∉ (Finset.range s.cache.made).image s.key := by
    intro hmem
    obtain ⟨b, hb, hkey⟩ := Finset.mem_image.mp hmem
    obtain ⟨hd, hk⟩ := key_eq.mp hkey
    exact hno b (Finset.mem_range.mp hb) hd hk
  have hcard : s.cache.made + 1 ≤ (insert (dev, block) s.blocks).card := by
    calc s.cache.made + 1 = (insert (dev, block) ((Finset.range s.cache.made).image s.key)).card := by
          rw [Finset.card_insert_of_notMem hnew, Finset.card_image_of_injOn hinj, Finset.card_range]
      _ ≤ (insert (dev, block) s.blocks).card :=
          Finset.card_le_card (Finset.insert_subset_insert _ (Finset.image_subset_image hheld))
  have hle : (insert (dev, block) s.blocks).card ≤ s.cache.cap := hlegal
  omega

end Invariant

/-! ### `bread` -/

section Bread

variable {u : Cache D}

theorem refs_cons (u : Cache D) : ({ s with cache := u, held := bf :: s.held } : CacheUser D).refs =
    Function.update s.refs bf (s.refs bf + 1) := by
  funext b
  rw [refs]
  rcases eq_or_ne b bf with rfl | hne
  · rw [Function.update_self, List.count_cons_self, refs]
  · rw [Function.update_of_ne hne, List.count_cons_of_ne hne.symm, refs]

/-- **`bread` of a block that is hashed**: only a counter changes. -/
theorem Transparent.hit (h : s.Transparent) (hgot : s.cache.Got s.refs dev block bf u)
    (hlt : bf < s.cache.made)
    (hself : u.buffers bf = { s.cache.buffers bf with count := u32 ((s.cache.buffers bf).count + 1) }) :
    ({ s with cache := u, held := bf :: s.held } : CacheUser D).Transparent := by
  have hbuf : ∀ b, ∃ c, u.buffers b = { s.cache.buffers b with count := c } := by
    intro b
    rcases eq_or_ne b bf with rfl | hne
    · exact ⟨_, hself⟩
    · exact ⟨_, hgot.same.buffers b hne⟩
  have hmade : ∀ {b}, b < u.made ↔ b < s.cache.made := by
    intro b
    rcases eq_or_ne b bf with rfl | hne
    · exact iff_of_true hgot.lt hlt
    · exact hgot.same.made b hne
  refine ⟨?_, hgot.same.waitList.trans h.waitList, fun {b} hb => ?_, fun {b} hb => ?_, fun {b} hb => ?_,
    fun {dev' block'} hlow hno => ?_⟩
  · rw [refs_cons]
    exact hgot.pool
  · obtain ⟨c, hc⟩ := hbuf b
    simp only [hc]
    exact h.ready (hmade.mp hb)
  · obtain ⟨c, hc⟩ := hbuf b
    simp only [hc]
    exact h.cached (hmade.mp hb)
  · obtain ⟨c, hc⟩ := hbuf b
    simp only [hc, hgot.same.disk]
    exact h.clean (hmade.mp hb)
  · simp only [hgot.same.disk]
    refine h.uncached hlow fun b hb hkey => hno b (hmade.mpr hb) ?_
    obtain ⟨c, hc⟩ := hbuf b
    rw [key_eq] at hkey ⊢
    simp only [hc]
    exact hkey

/-- **`bread` of another block** reads it into a buffer that was not in use. -/
theorem Transparent.miss (h : s.Transparent) (hblock : block < 2147483648)
    (hgot : s.cache.Got s.refs dev block bf u) (hzero : s.refs bf = 0)
    (hno : ∀ b < s.cache.made, (s.cache.buffers b).dev = dev → (s.cache.buffers b).block ≠ block) :
    ({ s with cache := u.setBuffer bf (u.loaded bf), held := bf :: s.held } : CacheUser D).Transparent := by
  have hself : (u.setBuffer bf (u.loaded bf)).buffers bf = u.loaded bf := Cache.setBuffer_self _ _ _
  have hother : ∀ b, b ≠ bf → (u.setBuffer bf (u.loaded bf)).buffers b = s.cache.buffers b :=
    fun b hb => (Cache.setBuffer_of_ne _ _ _ hb).trans (hgot.same.buffers b hb)
  have hdisk : u.disk = s.cache.disk := hgot.same.disk
  have hdev : (u.loaded bf).dev = dev := hgot.key.1
  have hblk : (u.loaded bf).block = block := hgot.key.2
  have hdata : ∀ i < 2, (u.loaded bf).data i = s.cache.disk dev (Cache.sectorOf block i) := fun i hi => by
    rw [Cache.loaded_data i hi, hgot.key.1, hgot.key.2, hdisk]
  have hon : ∀ i < 2, s.cache.disk dev (Cache.sectorOf block i) = s.last dev block i := by
    refine h.uncached hblock fun b hb hkey => ?_
    obtain ⟨hd, hk⟩ := key_eq.mp hkey
    exact hno b hb hd hk
  refine ⟨?_, hgot.same.waitList.trans h.waitList, fun {b} hb => ?_, fun {b} hb => ?_, fun {b} hb hdirty => ?_,
    fun {dev' block'} hlow hout => ?_⟩
  · rw [refs_cons]
    have hrefs : Function.update s.refs bf (s.refs bf + 1) bf ≠ 0 := by
      rw [Function.update_self]
      exact Nat.succ_ne_zero _
    refine hgot.pool.store hrefs (fun b hb => Cache.setBuffer_of_ne _ _ _ hb) ?_ ?_ ?_ rfl rfl rfl rfl
    · rw [hself]
      rfl
    · rw [hself]
      rfl
    · rw [hself]
      rfl
  · rcases eq_or_ne b bf with rfl | hne
    · have hlow := hblock
      rw [← hblk, ← hself] at hlow
      exact ⟨congrArg Buffer.valid hself, congrArg Buffer.lock hself, hlow⟩
    · simp only [hother b hne]
      exact h.ready ((hgot.same.made b hne).mp hb)
  · rcases eq_or_ne b bf with rfl | hne
    · simp only [hself, hdev, hblk]
      exact fun i hi => (hdata i hi).trans (hon i hi)
    · simp only [hother b hne]
      exact h.cached ((hgot.same.made b hne).mp hb)
  · simp only [Cache.setBuffer_disk, hdisk]
    rcases eq_or_ne b bf with rfl | hne
    · simp only [hself, hdev, hblk]
      exact hdata
    · simp only [hother b hne] at hdirty ⊢
      exact h.clean ((hgot.same.made b hne).mp hb) hdirty
  · simp only [Cache.setBuffer_disk, hdisk]
    by_cases hold : ∀ b < s.cache.made, s.key b ≠ (dev', block')
    · exact h.uncached hlow hold
    -- the block was in the buffer that has been taken, which was clean
    push Not at hold
    obtain ⟨b, hb, hkey⟩ := hold
    obtain ⟨rfl, rfl⟩ := key_eq.mp hkey
    rcases eq_or_ne b bf with rfl | hne
    · intro i hi
      rw [← h.clean hb (h.pool.clean hb hzero).1 i hi]
      exact h.cached hb i hi
    · refine absurd (key_eq.mpr ?_) (hout b ((hgot.same.made b hne).mpr hb))
      exact ⟨congrArg Buffer.dev (hother b hne), congrArg Buffer.block (hother b hne)⟩

/-- What `getblk` found before `bread` returned. -/
theorem Transparent.got (h : s.Transparent) (hblock : block < 2147483648)
    (hgot : s.cache.Got s.refs dev block bf u) :
    ∃ v, (∀ task, s.cache.getblk dev block = some (some (bf, u)) →
        s.cache.bread task dev block = some (bf, v)) ∧
      ({ s with cache := v, held := bf :: s.held } : CacheUser D).Transparent ∧
      (v.buffers bf).dev = dev ∧ (v.buffers bf).block = block ∧ Cache.SameOutside s.cache v bf ∧
      (bf ∈ s.held → s.key bf = (dev, block)) := by
  rcases hgot.origin with ⟨hlt, hself⟩ | ⟨hzero, hvalid, -, hlock, hno⟩
  · have hvalid : (u.buffers bf).valid = true := by
      rw [hself]
      exact (h.ready hlt).1
    refine ⟨u, fun _ hget => Cache.bread_hit hget hvalid, h.hit hgot hlt hself, hgot.key.1, hgot.key.2,
      hgot.same, fun _ => ?_⟩
    have hkey := hgot.key
    rw [hself] at hkey
    exact key_eq.mpr hkey
  · refine ⟨_, fun _ hget => Cache.bread_miss hget hvalid hlock, h.miss hblock hgot hzero hno, ?_, ?_,
      hgot.same.trans (Cache.SameOutside.of_setBuffer _),
      fun hmem => absurd hmem (List.count_eq_zero.mp hzero)⟩
    · rw [Cache.setBuffer_self]
      exact hgot.key.1
    · rw [Cache.setBuffer_self]
      exact hgot.key.2

/-- **`bread`** returns a buffer of the block, and keeps the invariant. -/
theorem Transparent.bread (h : s.Transparent) (hblock : block < 2147483648)
    (hlegal : s.Legal (.bread dev block)) :
    ∃ bf u, s.cache.bread 0 dev block = some (bf, u) ∧
      ({ s with cache := u, held := bf :: s.held } : CacheUser D).Transparent ∧
      (u.buffers bf).dev = dev ∧ (u.buffers bf).block = block ∧ Cache.SameOutside s.cache u bf ∧
      (bf ∈ s.held → s.key bf = (dev, block)) := by
  rcases h.pool.getblk dev block with ⟨-, hfull, hempty, hno⟩ | ⟨bf, u, hget, hgot⟩
  · exact (h.no_wait hlegal hfull hempty hno).elim
  · obtain ⟨v, hread, hv⟩ := h.got hblock hgot
    exact ⟨bf, v, hread 0 hget, hv⟩

/-- What a `bread` that returns has done. -/
theorem Transparent.of_bread (h : s.Transparent) (hblock : block < 2147483648) {r : Option ℕ}
    (hstep : s.step (.bread dev block) = some (r, t)) :
    ∃ bf, r = some bf ∧ t.held = bf :: s.held ∧ t.Transparent ∧ t.key bf = (dev, block) ∧
      ∀ b ∈ s.held, t.key b = s.key b := by
  obtain ⟨⟨bf, v⟩, hread, heq⟩ := Option.map_eq_some_iff.mp hstep
  obtain ⟨rfl, rfl⟩ := Prod.mk.inj heq
  rcases h.pool.getblk dev block with ⟨hget, -⟩ | ⟨bf', u, hget, hgot⟩
  · rw [Cache.bread, hget] at hread
    exact absurd hread (by simp)
  obtain ⟨v', hread', hv, hdev, hblk, hsame, hold⟩ := h.got hblock hgot
  obtain ⟨rfl, rfl⟩ := Prod.mk.inj (Option.some.inj (hread.symm.trans (hread' 0 hget)))
  refine ⟨bf, rfl, rfl, hv, Prod.ext hdev hblk, fun b hb => ?_⟩
  rcases eq_or_ne b bf with rfl | hne
  · exact (Prod.ext hdev hblk : _ = (dev, block)).trans (hold hb).symm
  · exact congrArg (fun x : Buffer D => (x.dev, x.block)) (hsame.buffers b hne)

end Bread

/-! ### The other steps -/

section Stores

variable {u : Cache D} {i : ℕ} {d : D}

/-- What is stored is what was stored last. -/
theorem Transparent.store (h : s.Transparent) (hbf : bf ∈ s.held) :
    ({ s with cache := s.cache.store bf i d, last := s.record bf i d } : CacheUser D).Transparent := by
  have hlt := h.lt_of_held hbf
  have hself : (s.cache.store bf i d).buffers bf = { s.cache.buffers bf with
    data := Function.update (s.cache.buffers bf).data i d, dirty := true } := Cache.setBuffer_self _ _ _
  have hother : ∀ b, b ≠ bf → (s.cache.store bf i d).buffers b = s.cache.buffers b :=
    fun b hb => Cache.setBuffer_of_ne _ _ _ hb
  have hdev : ∀ b, ((s.cache.store bf i d).buffers b).dev = (s.cache.buffers b).dev ∧
      ((s.cache.store bf i d).buffers b).block = (s.cache.buffers b).block := by
    intro b
    rcases eq_or_ne b bf with rfl | hne
    · rw [hself]
      exact ⟨rfl, rfl⟩
    · rw [hother b hne]
      exact ⟨rfl, rfl⟩
  have hkey : ∀ b, ({ s with cache := s.cache.store bf i d, last := s.record bf i d } : CacheUser D).key b
      = s.key b := fun b => Prod.ext (hdev b).1 (hdev b).2
  refine ⟨?_, h.waitList, fun {b} hb => ?_, fun {b} hb j hj => ?_, fun {b} hb hdirty => ?_,
    fun {dev' block'} hlow hout j hj => ?_⟩
  · have hrefs : s.refs bf ≠ 0 := (List.count_pos_iff.mpr hbf).ne'
    refine h.pool.store hrefs hother ?_ ?_ ?_ rfl rfl rfl rfl
    · rw [hself]
    · rw [hself]
    · rw [hself]
  · rcases eq_or_ne b bf with rfl | hne
    · simp only [hself]
      exact h.ready hlt
    · simp only [hother b hne]
      exact h.ready hb
  · rcases eq_or_ne b bf with rfl | hne
    · simp only [hself, record, key, true_and]
      rcases eq_or_ne j i with rfl | hji
      · rw [Function.update_self, if_pos rfl]
      · rw [Function.update_of_ne hji, if_neg hji]
        exact h.cached hlt j hj
    · simp only [hother b hne, record]
      rw [if_neg]
      · exact h.cached hb j hj
      · rintro ⟨hk, -⟩
        obtain ⟨hdev, hblock⟩ := key_eq.mp hk.symm
        exact hne (h.pool.uniq hb hlt hdev.symm hblock.symm)
  · rcases eq_or_ne b bf with rfl | hne
    · simp only [hself] at hdirty
      exact Bool.noConfusion hdirty
    · simp only [hother b hne] at hdirty ⊢
      exact h.clean hb hdirty
  · have hnot : (dev', block') ≠ s.key bf := fun heq => hout bf hlt ((hkey bf).trans heq.symm)
    have hlast : s.record bf i d dev' block' j = s.last dev' block' j := if_neg fun hc => hnot hc.1
    refine Eq.trans ?_ hlast.symm
    exact h.uncached hlow (fun b hb hk => hout b hb ((hkey b).trans hk)) j hj

/-- **`bwrite`** puts the data of a buffer on the device. -/
theorem Transparent.bwrite (h : s.Transparent) (hbf : bf ∈ s.held) :
    ({ s with cache := s.cache.bwrite bf } : CacheUser D).Transparent ∧
      ((s.cache.bwrite bf).buffers bf).dirty = false := by
  cases hdirty : (s.cache.buffers bf).dirty with
  | false =>
    rw [Cache.bwrite_clean hdirty]
    exact ⟨h, hdirty⟩
  | true =>
    have hlt := h.lt_of_held hbf
    obtain ⟨u, hu⟩ : ∃ u, u = ((s.cache.writeSector bf 0).writeSector bf 1).requestDone bf := ⟨_, rfl⟩
    have hself : u.buffers bf = { s.cache.buffers bf with dirty := false, valid := true } := by
      rw [hu]
      exact Cache.setBuffer_self _ _ _
    have hother : ∀ b, b ≠ bf → u.buffers b = s.cache.buffers b := fun b hb => by
      rw [hu]
      exact Cache.setBuffer_of_ne _ _ _ hb
    have hmade : u.made = s.cache.made := by rw [hu]; rfl
    -- the two sectors of the block, and the others
    have hon : ∀ j < 2, u.disk (s.cache.buffers bf).dev (Cache.sectorOf (s.cache.buffers bf).block j)
        = (s.cache.buffers bf).data j := by
      intro j hj
      rw [hu, Cache.requestDone_disk, Cache.writeSector_disk, Cache.writeSector_disk]
      simp only [Cache.writeSector_buffers, true_and]
      obtain rfl | rfl : j = 0 ∨ j = 1 := by omega
      · have hne : Cache.sectorOf (s.cache.buffers bf).block 0 ≠ Cache.sectorOf (s.cache.buffers bf).block 1 := by
          rw [Cache.sectorOf, Cache.sectorOf]
          omega
        rw [if_neg hne, if_pos rfl]
      · rw [if_pos rfl]
    have hoff : ∀ dev' block', block' < 2147483648 → (dev', block') ≠ s.key bf → ∀ j < 2,
        u.disk dev' (Cache.sectorOf block' j) = s.cache.disk dev' (Cache.sectorOf block' j) := by
      intro dev' block' hlow hne j hj
      have hout : ∀ k < 2, ¬(dev' = (s.cache.buffers bf).dev ∧
          Cache.sectorOf block' j = Cache.sectorOf (s.cache.buffers bf).block k) := by
        rintro k hk ⟨rfl, hsec⟩
        exact hne (Prod.ext rfl (Cache.sectorOf_inj hlow (h.ready hlt).2.2 hj hk hsec).1)
      rw [hu, Cache.requestDone_disk, Cache.writeSector_disk, Cache.writeSector_disk]
      exact (if_neg (hout 1 Nat.one_lt_two)).trans (if_neg (hout 0 Nat.two_pos))
    have hdev : ∀ b, (u.buffers b).dev = (s.cache.buffers b).dev ∧
        (u.buffers b).block = (s.cache.buffers b).block := by
      intro b
      rcases eq_or_ne b bf with rfl | hne
      · rw [hself]
        exact ⟨rfl, rfl⟩
      · rw [hother b hne]
        exact ⟨rfl, rfl⟩
    have hkey : ∀ b, ({ s with cache := u } : CacheUser D).key b = s.key b :=
      fun b => Prod.ext (hdev b).1 (hdev b).2
    have hdata : ∀ b, (u.buffers b).data = (s.cache.buffers b).data := by
      intro b
      rcases eq_or_ne b bf with rfl | hne
      · rw [hself]
      · rw [hother b hne]
    rw [Cache.bwrite_dirty hdirty, ← hu]
    refine ⟨⟨?_, ?_, fun {b} hb => ?_, fun {b} hb => ?_, fun {b} hb hclean j hj => ?_,
      fun {dev' block'} hlow hout j hj => ?_⟩, by rw [hself]⟩
    · have hrefs : s.refs bf ≠ 0 := (List.count_pos_iff.mpr hbf).ne'
      refine h.pool.store hrefs hother ?_ ?_ ?_ hmade (by rw [hu]; rfl) (by rw [hu]; rfl)
        (by rw [hu]; rfl)
      · rw [hself]
      · rw [hself]
      · rw [hself]
    · rw [hu]
      exact h.waitList
    · rcases eq_or_ne b bf with rfl | hne
      · simp only [hself]
        exact ⟨trivial, (h.ready hlt).2⟩
      · simp only [hother b hne]
        exact h.ready (hmade ▸ hb)
    · simp only [hdata b, (hdev b).1, (hdev b).2]
      exact h.cached (hmade ▸ hb)
    · simp only [hdata b, (hdev b).1, (hdev b).2]
      rcases eq_or_ne b bf with rfl | hne
      · exact (hon j hj).symm
      · simp only [hother b hne] at hclean
        have hb' : b < s.cache.made := hmade ▸ hb
        have hne' : s.key b ≠ s.key bf := fun heq => by
          obtain ⟨hdev, hblock⟩ := key_eq.mp heq
          exact hne (h.pool.uniq hb' hlt hdev hblock)
        rw [hoff _ _ (h.ready hb').2.2 hne' j hj]
        exact h.clean hb' hclean j hj
    · have hne : (dev', block') ≠ s.key bf := fun heq =>
        hout bf (hmade.symm ▸ hlt) ((hkey bf).trans heq.symm)
      simp only [hoff dev' block' hlow hne j hj]
      exact h.uncached hlow (fun b hb hk => hout b (hmade.symm ▸ hb) ((hkey b).trans hk)) j hj

/-- **`brelse`** gives a reference back. -/
theorem Transparent.brelse (h : s.Transparent) (hbf : bf ∈ s.held) (hle : s.held.count bf ≤ 2147483648) :
    ∃ u, s.cache.brelse bf = some u ∧
      ({ s with cache := u, held := s.held.erase bf } : CacheUser D).Transparent := by
  obtain ⟨hw, hdirty⟩ := h.bwrite hbf
  have hlt := hw.lt_of_held hbf
  obtain ⟨u, hput, hpool, hsame, hmade, hself⟩ := hw.pool.putBuffer hlt (List.count_pos_iff.mpr hbf) hle
    (fun _ => ⟨hdirty, (hw.ready hlt).1, (hw.ready hlt).2.1⟩) (fun _ => hw.waitList)
  have hbuf : ∀ b, ∃ c, u.buffers b = { (s.cache.bwrite bf).buffers b with count := c } := by
    intro b
    rcases eq_or_ne b bf with rfl | hne
    · exact ⟨_, hself⟩
    · exact ⟨_, hsame.buffers b hne⟩
  refine ⟨u, hput, ?_, hsame.waitList.trans hw.waitList, fun {b} hb => ?_, fun {b} hb => ?_,
    fun {b} hb => ?_, fun {dev' block'} hlow hno => ?_⟩
  · have hrefs : ({ s with cache := u, held := s.held.erase bf } : CacheUser D).refs =
        Function.update s.refs bf (s.refs bf - 1) := by
      funext b
      rw [refs]
      rcases eq_or_ne b bf with rfl | hne
      · rw [Function.update_self, List.count_erase_self, refs]
      · rw [Function.update_of_ne hne, List.count_erase_of_ne hne, refs]
    rw [hrefs]
    exact hpool
  · obtain ⟨c, hc⟩ := hbuf b
    simp only [hc]
    exact hw.ready (hmade ▸ hb)
  · obtain ⟨c, hc⟩ := hbuf b
    simp only [hc]
    exact hw.cached (hmade ▸ hb)
  · obtain ⟨c, hc⟩ := hbuf b
    simp only [hc, hsame.disk]
    exact hw.clean (hmade ▸ hb)
  · simp only [hsame.disk]
    refine hw.uncached hlow fun b hb hkey => hno b (hmade.symm ▸ hb) ?_
    obtain ⟨c, hc⟩ := hbuf b
    rw [key_eq] at hkey ⊢
    simp only [hc]
    exact hkey

/-- What a step on a buffer the task holds has done. -/
theorem Transparent.of_release (h : s.Transparent) (hbf : bf ∈ s.held)
    (hle : s.held.count bf ≤ 2147483648) {r : Option ℕ} (hstep : s.step (.brelse bf) = some (r, t)) :
    t.held = s.held.erase bf ∧ t.Transparent ∧ ∀ b, t.key b = s.key b := by
  obtain ⟨u, hput, heq⟩ := Option.map_eq_some_iff.mp hstep
  obtain ⟨-, rfl⟩ := Prod.mk.inj heq
  obtain ⟨u', hput', ht⟩ := h.brelse hbf hle
  obtain rfl : u = u' := Option.some.inj (hput.symm.trans hput')
  exact ⟨rfl, ht, fun b => Prod.ext (Cache.brelse_key hput b).1 (Cache.brelse_key hput b).2⟩

end Stores

/-! ### Runs -/

/-- **After `buffer_init`**: no buffer has been set up, and nothing has been stored. -/
structure Start (s : CacheUser D) : Prop where
  /-- No buffer has been set up. -/
  made : s.cache.made = 0
  /-- There is room for one. -/
  cap : 0 < s.cache.cap
  /-- The hash table is empty. -/
  hashTable : ∀ idx, s.cache.hashTable idx = []
  /-- The free list is empty. -/
  freeList : s.cache.freeList = []
  /-- Nobody waits. -/
  waitList : s.cache.waitList = []
  /-- The task holds nothing. -/
  held : s.held = []
  /-- The devices have what they had. -/
  last : ∀ dev block i, s.last dev block i = s.cache.disk dev (Cache.sectorOf block i)

theorem Start.transparent (h : s.Start) : s.Transparent := by
  have hnone : ∀ {bf}, ¬bf < s.cache.made := fun {bf} hlt => by
    rw [h.made] at hlt
    exact Nat.not_lt_zero _ hlt
  have hrefs : ∀ bf, s.refs bf = 0 := fun bf => by rw [refs, h.held, List.count_nil]
  refine ⟨⟨by rw [h.made]; exact Nat.zero_le _, fun {bf idx} => ?_, fun idx => ?_,
    fun {bf bf'} hlt => absurd hlt hnone, fun {bf} => ?_, ?_, fun {bf} hlt => absurd hlt hnone,
    fun {bf} _ => hrefs bf, fun {bf} hlt => absurd hlt hnone⟩, h.waitList,
    fun {bf} hlt => absurd hlt hnone, fun {bf} hlt => absurd hlt hnone,
    fun {bf} hlt => absurd hlt hnone, fun {dev block} _ _ i _ => (h.last dev block i).symm⟩
  · rw [h.hashTable]
    exact iff_of_false List.not_mem_nil fun hc => hnone hc.1
  · rw [h.hashTable]
    exact List.nodup_nil
  · rw [h.freeList]
    exact iff_of_false List.not_mem_nil fun hc => hnone hc.1
  · rw [h.freeList]
    exact List.nodup_nil

/-- **Each step** of the task meets its specification and keeps the invariant. -/
theorem Transparent.step {op : CacheOp D} (h : s.Transparent)
    (hbound : ∀ bf, s.held.count bf ≤ 2147483648) (hlegal : s.Legal op) (hfits : s.Fits op) :
    ∃ r t, s.step op = some (r, t) ∧ s.Post op r t ∧ t.Transparent ∧
      ∀ bf, t.held.count bf ≤ 2147483648 := by
  have hgood : ∀ {t : CacheUser D}, t.Transparent → (∀ bf, t.held.count bf ≤ 2147483648) → t.Good :=
    fun {t} ht hb => ht.good fun bf => lt_of_le_of_lt (hb bf) (by decide)
  cases op with
  | bread dev block =>
    obtain ⟨bf, u, hread, ht, hdev, hblock, -, hold⟩ := h.bread hfits.1 hlegal
    have hb : ∀ b, (bf :: s.held).count b ≤ 2147483648 := by
      intro b
      rcases eq_or_ne b bf with rfl | hne
      · rw [List.count_cons_self]
        by_cases hbheld : b ∈ s.held
        · exact hfits.2 b hbheld (hold hbheld)
        · rw [List.count_eq_zero.mpr hbheld]
          decide
      · rw [List.count_cons_of_ne hne.symm]
        exact hbound b
    refine ⟨some bf, _, by rw [CacheUser.step, hread]; rfl, ⟨hgood ht hb, ?_⟩, ht, hb⟩
    rintro dev' block' heq
    obtain ⟨rfl, rfl⟩ := CacheOp.bread.inj heq
    refine ⟨bf, rfl, Prod.ext hdev hblock, fun i hi => ?_⟩
    have hdata := ht.cached (ht.lt_of_held List.mem_cons_self) i hi
    rwa [hdev, hblock] at hdata
  | store bf i d =>
    have ht := h.store hlegal.1 (i := i) (d := d)
    exact ⟨none, _, rfl, ⟨hgood ht hbound, fun _ _ heq => by cases heq⟩, ht, hbound⟩
  | bwrite bf =>
    have ht := (h.bwrite hlegal).1
    exact ⟨none, _, rfl, ⟨hgood ht hbound, fun _ _ heq => by cases heq⟩, ht, hbound⟩
  | brelse bf =>
    obtain ⟨u, hput, ht⟩ := h.brelse hlegal (hbound bf)
    have hb : ∀ b, (s.held.erase bf).count b ≤ 2147483648 := fun b =>
      (List.erase_sublist.count_le b).trans (hbound b)
    exact ⟨none, _, by rw [CacheUser.step, hput]; rfl,
      ⟨hgood ht hb, fun _ _ heq => by cases heq⟩, ht, hb⟩

end CacheUser

/-- **The buffer cache is transparent.** After `buffer_init`, as long as there is a buffer for each
block the task holds, no assertion fails, every `bread` returns what was stored last, and the
hash chains and the free list are in order. -/
theorem cacheRun_transparent {D : Type} {s : CacheUser D} (h : s.Start) {ops : List (CacheOp D)}
    (hlegal : Run.Along CacheUser.step CacheUser.Legal s ops)
    (hfits : Run.Along CacheUser.step CacheUser.Fits s ops) :
    Run.Meets CacheUser.step CacheUser.Post s ops := by
  refine Run.meets_of_inv (fun s => s.Transparent ∧ ∀ bf, s.held.count bf ≤ 2147483648)
    (fun s op hs hc => hs.1.step hs.2 hc.1 hc.2) ops s ⟨h.transparent, fun bf => ?_⟩ (hlegal.and hfits)
  rw [h.held, List.count_nil]
  exact Nat.zero_le _

/-- Room for one buffer, and devices full of zeros. -/
def bootCache : CacheUser ℕ where
  cache :=
    { buffers := fun _ => ⟨0, 0, 0, fun _ => 0, none, false, false⟩
      made := 0
      cap := 1
      hashTable := fun _ => []
      freeList := []
      waitList := []
      disk := fun _ _ => 0 }
  held := []
  last := fun _ _ _ => 0

theorem bootCache_start : bootCache.Start :=
  ⟨rfl, Nat.one_pos, fun _ => rfl, rfl, rfl, rfl, fun _ _ _ => rfl⟩

/-- A store, another block in the same buffer, and the first block again. -/
def evictRun : List (CacheOp ℕ) :=
  [.bread 0 0, .store 0 0 7, .brelse 0, .bread 0 1, .brelse 0, .bread 0 0]

theorem cacheRun_transparent_evict : Run.Meets CacheUser.step CacheUser.Post bootCache evictRun :=
  cacheRun_transparent bootCache_start (by decide +kernel) (by decide +kernel)

/-- A store into block 0, and block 2³¹ in the same buffer. -/
def aliasRun : List (CacheOp ℕ) := [.bread 0 0, .store 0 0 7, .brelse 0]

/-- Block 0, again and again. -/
def overflowRun (n : ℕ) : List (CacheOp ℕ) := List.replicate n (.bread 0 0)

/-- Any number of references to block 0 can be taken. -/
theorem overflowRun_held (n : ℕ) : Run.Along CacheUser.step CacheUser.Legal bootCache (overflowRun n) ∧
    ∃ t, Run.exec CacheUser.step bootCache (overflowRun n) = some t ∧ t.Transparent ∧
      t.held = List.replicate n 0 ∧ t.cache.cap = 1 ∧
      (0 < t.cache.made → t.key 0 = (0, 0)) ∧ t.cache.made ≤ 1 := by
  induction n with
  | zero =>
    exact ⟨trivial, _, rfl, bootCache_start.transparent, rfl, rfl, fun h => absurd h (Nat.not_lt_zero _),
      Nat.zero_le _⟩
  | succ n ih =>
    obtain ⟨halong, t, hexec, ht, hheld, hcap, hkey, hmade⟩ := ih
    have hlegal : t.Legal (.bread 0 0) := by
      have hsub : insert (0, 0) t.blocks ⊆ {(0, 0)} := by
        intro k hk
        rcases Finset.mem_insert.mp hk with rfl | hk
        · exact Finset.mem_singleton_self _
        · obtain ⟨b, hb, rfl⟩ := Finset.mem_image.mp hk
          rw [List.mem_toFinset] at hb
          have hlt := ht.lt_of_held hb
          obtain rfl : b = 0 := by omega
          rw [hkey hlt]
          exact Finset.mem_singleton_self _
      have hle := Finset.card_le_card hsub
      rw [Finset.card_singleton] at hle
      exact hle.trans hcap.ge
    obtain ⟨bf, u, hread, hu, hdev, hblock, hsame, -⟩ := ht.bread (by decide) hlegal
    have hstep : t.step (.bread 0 0) = some (some bf, { t with cache := u, held := bf :: t.held }) := by
      rw [CacheUser.step, hread]
      rfl
    have hle : u.made ≤ 1 := by
      have hroom := hu.pool.made_le
      rw [← hcap, ← hsame.cap]
      exact hroom
    have hlt : bf < u.made := hu.lt_of_held List.mem_cons_self
    obtain rfl : bf = 0 := by omega
    have hrun : overflowRun (n + 1) = overflowRun n ++ [.bread 0 0] := List.replicate_succ'
    rw [hrun]
    refine ⟨Run.along_concat halong fun t' ht' => ?_, _, ?_, hu, ?_, hsame.cap.trans hcap,
      fun _ => Prod.ext hdev hblock, hle⟩
    · obtain rfl : t = t' := Option.some.inj (hexec.symm.trans ht')
      exact hlegal
    · rw [Run.exec_append, hexec]
      simp only [Option.bind_some, Run.exec, hstep]
    · rw [List.replicate_succ, ← hheld]

/-- **Where 32-bit numbers end.** Block 2³¹ is read from the sectors of block 0, and the counter of a
block that was read 2³¹ + 1 times makes `brelse` fail. -/
theorem cacheRun_alias : bootCache.Start ∧
    (Run.Along CacheUser.step CacheUser.Legal bootCache (aliasRun ++ [.bread 0 2147483648]) ∧
      ¬Run.Meets CacheUser.step CacheUser.Post bootCache (aliasRun ++ [.bread 0 2147483648])) ∧
    (Run.Along CacheUser.step CacheUser.Legal bootCache (overflowRun 2147483649 ++ [.brelse 0]) ∧
      ¬Run.Meets CacheUser.step CacheUser.Post bootCache (overflowRun 2147483649 ++ [.brelse 0])) := by
  refine ⟨bootCache_start, ⟨by decide +kernel, fun hmeets => ?_⟩, ?_, fun hmeets => ?_⟩
  · obtain ⟨t, r, t', hexec, hstep, -, hread⟩ := hmeets.last
    obtain ⟨bf, rfl, -, hdata⟩ := hread 0 2147483648 rfl
    have hval : ((Run.exec CacheUser.step bootCache aliasRun).bind fun t =>
        (t.step (.bread 0 2147483648)).map fun p => (p.1, (p.2.cache.buffers 0).data 0,
          t.last 0 2147483648 0)) = some (some 0, 7, 0) := by decide +kernel
    rw [hexec, Option.bind_some, hstep] at hval
    simp only [Option.map_some, Option.some.injEq, Prod.mk.injEq] at hval
    obtain ⟨rfl, hseven, hzero⟩ := hval
    rw [hdata 0 Nat.two_pos, hzero] at hseven
    exact absurd hseven (by decide)
  · obtain ⟨halong, t, hexec, -, hheld, -⟩ := overflowRun_held 2147483649
    refine Run.along_concat halong fun t' ht' => ?_
    obtain rfl : t = t' := Option.some.inj (hexec.symm.trans ht')
    show 0 ∈ t.held
    rw [hheld]
    exact List.mem_replicate.mpr ⟨by decide, rfl⟩
  · obtain ⟨t, r, t', hexec, hstep, -⟩ := hmeets.last
    obtain ⟨-, u, hexec', hu, hheld, -⟩ := overflowRun_held 2147483649
    obtain rfl : t = u := Option.some.inj (hexec.symm.trans hexec')
    have hmem : 0 ∈ t.held := by
      rw [hheld]
      exact List.mem_replicate.mpr ⟨by decide, rfl⟩
    obtain ⟨hw, -⟩ := hu.bwrite hmem
    have hcount : t.held.count 0 = 2147483649 := by rw [hheld, List.count_replicate_self]
    have hnone : t.cache.brelse 0 = none :=
      hw.pool.putBuffer_overflow (hw.lt_of_held hmem) hcount
    rw [CacheUser.step, hnone] at hstep
    exact absurd hstep (by simp)

end Onixs
