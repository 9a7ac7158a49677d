import Onixs.Kernel.Buffer

/-!
# The lists of the buffer cache

The hash chains, the free list and the reference counts, against the references there are:
`refs bf` is how often buffer `bf` is in use. `Onixs.Cache.Pool` says that every
descriptor is hashed in the chain of its block, no block twice, and that the free list
holds those that are not in use. Under it no assertion of `getblk` fails
(`Onixs.Cache.Pool.getblk`), and none of `brelse` does unless a task waits for a buffer
(`Onixs.Cache.Pool.putBuffer`, `Onixs.Cache.putBuffer_waiting`).
-/

namespace Onixs

namespace Cache

variable {D : Type}

/-- **The lists are in order**, with `refs bf` references to buffer `bf`. -/
structure Pool (s : Cache D) (refs : ℕ → ℕ) : Prop where
  /-- There are no more descriptors than there is room for. -/
  made_le : s.made ≤ s.cap
  /-- A descriptor is in the chain of its block. -/
  mem_chain : ∀ {bf idx}, bf ∈ s.hashTable idx ↔
    bf < s.made ∧ hash (s.buffers bf).dev (s.buffers bf).block = idx
  /-- It is there once. -/
  chain_nodup : ∀ idx, (s.hashTable idx).Nodup
  /-- A block has one descriptor. -/
  uniq : ∀ {bf bf'}, bf < s.made → bf' < s.made → (s.buffers bf).dev = (s.buffers bf').dev →
    (s.buffers bf).block = (s.buffers bf').block → bf = bf'
  /-- The free list has the descriptors that are not in use. -/
  mem_free : ∀ {bf}, bf ∈ s.freeList ↔ bf < s.made ∧ refs bf = 0
  /-- It has each of them once. -/
  free_nodup : s.freeList.Nodup
  /-- The counters. -/
  count : ∀ {bf}, bf < s.made → (s.buffers bf).count = u32 (refs bf)
  /-- Only descriptors that have been set up are in use. -/
  refs_zero : ∀ {bf}, s.made ≤ bf → refs bf = 0
  /-- A buffer that is not in use is clean, and nobody holds its lock. -/
  clean : ∀ {bf}, bf < s.made → refs bf = 0 →
    (s.buffers bf).dirty = false ∧ (s.buffers bf).valid = true ∧ (s.buffers bf).lock = none

/-- What a step on buffer `bf` leaves alone. -/
structure SameOutside (s t : Cache D) (bf : ℕ) : Prop where
  /-- The devices. -/
  disk : t.disk = s.disk
  /-- The tasks that wait for a buffer. -/
  waitList : t.waitList = s.waitList
  /-- The room. -/
  cap : t.cap = s.cap
  /-- The other buffers. -/
  buffers : ∀ b, b ≠ bf → t.buffers b = s.buffers b
  /-- The other descriptors. -/
  made : ∀ b, b ≠ bf → (b < t.made ↔ b < s.made)

section Lists

variable {l : List ℕ} {a b : ℕ}

theorem mem_dropLast_iff (hl : l.Nodup) (ha : l.getLast? = some a) :
    b ∈ l.dropLast ↔ b ≠ a ∧ b ∈ l := by
  obtain ⟨l', rfl⟩ := List.getLast?_eq_some_iff.mp ha
  rw [List.dropLast_concat, List.mem_append, List.mem_singleton]
  have hnot : a ∉ l' := fun hmem => (List.nodup_append.mp hl).2.2 a hmem a (List.mem_singleton.mpr rfl) rfl
  constructor
  · intro hb
    exact ⟨fun heq => hnot (heq ▸ hb), Or.inl hb⟩
  · rintro ⟨hne, hb | hb⟩
    · exact hb
    · exact absurd hb hne

theorem nodup_dropLast (hl : l.Nodup) : l.dropLast.Nodup := hl.sublist (List.dropLast_sublist l)

end Lists

/-! ### Stores -/

section Stores

variable {s t : Cache D} {refs : ℕ → ℕ} {bf : ℕ}

theorem SameOutside.of_setBuffer (b : Buffer D) : SameOutside s (s.setBuffer bf b) bf :=
  ⟨rfl, rfl, rfl, fun _ hc => setBuffer_of_ne s bf b hc, fun _ _ => Iff.rfl⟩

theorem SameOutside.trans {u : Cache D} (h : SameOutside s t bf) (h' : SameOutside t u bf) :
    SameOutside s u bf :=
  ⟨h'.disk.trans h.disk, h'.waitList.trans h.waitList,
    h'.cap.trans h.cap, fun b hb => (h'.buffers b hb).trans (h.buffers b hb),
    fun b hb => (h'.made b hb).trans (h.made b hb)⟩

/-- **Stores in a buffer that is in use** leave the lists in order, the block and the counter of
the buffer apart. -/
theorem Pool.store (h : s.Pool refs) (hrefs : refs bf ≠ 0)
    (hother : ∀ b, b ≠ bf → t.buffers b = s.buffers b)
    (hdev : (t.buffers bf).dev = (s.buffers bf).dev)
    (hblock : (t.buffers bf).block = (s.buffers bf).block)
    (hcount : (t.buffers bf).count = (s.buffers bf).count) (hmade : t.made = s.made)
    (hcap : t.cap = s.cap) (htable : t.hashTable = s.hashTable) (hfree : t.freeList = s.freeList) :
    t.Pool refs := by
  have hkey : ∀ b, (t.buffers b).dev = (s.buffers b).dev ∧ (t.buffers b).block = (s.buffers b).block ∧
      (t.buffers b).count = (s.buffers b).count := by
    intro b
    rcases eq_or_ne b bf with rfl | hne
    · exact ⟨hdev, hblock, hcount⟩
    · rw [hother b hne]
      exact ⟨rfl, rfl, rfl⟩
  refine ⟨?_, fun {b idx} => ?_, fun idx => ?_, fun {b b'} hb hb' hd hk => ?_, fun {b} => ?_, ?_,
    fun {b} hb => ?_, fun {b} hb => ?_, fun {b} hb hr => ?_⟩
  · rw [hmade, hcap]
    exact h.made_le
  · rw [htable, hmade, (hkey b).1, (hkey b).2.1]
    exact h.mem_chain
  · rw [htable]
    exact h.chain_nodup idx
  · rw [hmade] at hb hb'
    rw [(hkey b).1, (hkey b').1] at hd
    rw [(hkey b).2.1, (hkey b').2.1] at hk
    exact h.uniq hb hb' hd hk
  · rw [hfree, hmade]
    exact h.mem_free
  · rw [hfree]
    exact h.free_nodup
  · rw [hmade] at hb
    rw [(hkey b).2.2]
    exact h.count hb
  · rw [hmade] at hb
    exact h.refs_zero hb
  · rw [hmade] at hb
    have hne : b ≠ bf := by
      rintro rfl
      exact hrefs hr
    rw [hother b hne]
    exact h.clean hb hr

end Stores

/-! ### Finding a buffer -/

section Lookup

variable {s t : Cache D} {refs : ℕ → ℕ} {bf dev block : ℕ} (h : s.Pool refs)

include h

/-- A hashed block is found. -/
theorem Pool.getFromHashTable_hit (hlt : bf < s.made) (hdev : (s.buffers bf).dev = dev)
    (hblock : (s.buffers bf).block = block) :
    s.getFromHashTable dev block = some (bf, { s with freeList := s.freeList.erase bf }) := by
  have hmem : bf ∈ s.hashTable (hash dev block) := h.mem_chain.mpr ⟨hlt, by rw [hdev, hblock]⟩
  rw [getFromHashTable]
  cases hfind : (s.hashTable (hash dev block)).find? fun bf =>
      (s.buffers bf).dev = dev ∧ (s.buffers bf).block = block with
  | none =>
    have hno := List.find?_eq_none.mp hfind bf hmem
    simp [hdev, hblock] at hno
  | some b =>
    have hkey := List.find?_some hfind
    simp only [decide_eq_true_eq] at hkey
    have hb := (h.mem_chain.mp (List.mem_of_find?_eq_some hfind)).1
    obtain rfl : b = bf := h.uniq hb hlt (hkey.1.trans hdev.symm) (hkey.2.trans hblock.symm)
    rfl

/-- A block that is not hashed is not found. -/
theorem Pool.getFromHashTable_miss
    (hno : ∀ b < s.made, (s.buffers b).dev = dev → (s.buffers b).block ≠ block) :
    s.getFromHashTable dev block = none := by
  have hfind : ((s.hashTable (hash dev block)).find? fun bf =>
      (s.buffers bf).dev = dev ∧ (s.buffers bf).block = block) = none := by
    refine List.find?_eq_none.mpr fun b hb => ?_
    rw [decide_eq_true_eq]
    exact fun hkey => hno b (h.mem_chain.mp hb).1 hkey.1 hkey.2
  rw [getFromHashTable, hfind]
  rfl

/-- **One more reference** to a buffer that is hashed. -/
theorem Pool.hit (hlt : bf < s.made) (hother : ∀ b, b ≠ bf → t.buffers b = s.buffers b)
    (hself : t.buffers bf = { s.buffers bf with count := u32 ((s.buffers bf).count + 1) })
    (hmade : t.made = s.made) (hcap : t.cap = s.cap) (htable : t.hashTable = s.hashTable)
    (hfree : t.freeList = s.freeList.erase bf) : t.Pool (Function.update refs bf (refs bf + 1)) := by
  have hkey : ∀ b, (t.buffers b).dev = (s.buffers b).dev ∧ (t.buffers b).block = (s.buffers b).block := by
    intro b
    rcases eq_or_ne b bf with rfl | hne
    · rw [hself]
      exact ⟨rfl, rfl⟩
    · rw [hother b hne]
      exact ⟨rfl, rfl⟩
  refine ⟨?_, fun {b idx} => ?_, fun idx => ?_, fun {b b'} hb hb' hd hk => ?_, fun {b} => ?_, ?_,
    fun {b} hb => ?_, fun {b} hb => ?_, fun {b} hb hr => ?_⟩
  · rw [hmade, hcap]
    exact h.made_le
  · rw [htable, hmade, (hkey b).1, (hkey b).2]
    exact h.mem_chain
  · rw [htable]
    exact h.chain_nodup idx
  · rw [hmade] at hb hb'
    rw [(hkey b).1, (hkey b').1] at hd
    rw [(hkey b).2, (hkey b').2] at hk
    exact h.uniq hb hb' hd hk
  · rw [hfree, hmade, h.free_nodup.mem_erase_iff, h.mem_free]
    rcases eq_or_ne b bf with rfl | hne
    · simp
    · rw [Function.update_of_ne hne]
      simp [hne]
  · rw [hfree]
    exact h.free_nodup.erase bf
  · rcases eq_or_ne b bf with rfl | hne
    · rw [hself, Function.update_self, h.count hlt, u32, u32, u32]
      exact Nat.mod_add_mod _ _ _
    · rw [hmade] at hb
      rw [hother b hne, Function.update_of_ne hne]
      exact h.count hb
  · rw [hmade] at hb
    rw [Function.update_of_ne (by omega)]
    exact h.refs_zero hb
  · have hne : b ≠ bf := by
      rintro rfl
      rw [Function.update_self] at hr
      exact absurd hr (Nat.succ_ne_zero _)
    rw [hmade] at hb
    rw [Function.update_of_ne hne] at hr
    rw [hother b hne]
    exact h.clean hb hr

end Lookup

/-! ### A buffer for another block -/

/-- **One descriptor is spare**: it is in no list, and the others are in order. -/
structure Spare (s : Cache D) (refs : ℕ → ℕ) (bf : ℕ) : Prop where
  /-- There are no more descriptors than there is room for. -/
  made_le : s.made ≤ s.cap
  /-- The descriptor has been set up. -/
  lt : bf < s.made
  /-- The others are in the chains of their blocks. -/
  mem_chain : ∀ {b idx}, b ∈ s.hashTable idx ↔
    b ≠ bf ∧ b < s.made ∧ hash (s.buffers b).dev (s.buffers b).block = idx
  /-- They are there once. -/
  chain_nodup : ∀ idx, (s.hashTable idx).Nodup
  /-- A block has one descriptor. -/
  uniq : ∀ {b b'}, b ≠ bf → b' ≠ bf → b < s.made → b' < s.made →
    (s.buffers b).dev = (s.buffers b').dev → (s.buffers b).block = (s.buffers b').block → b = b'
  /-- The free list has the others that are not in use. -/
  mem_free : ∀ {b}, b ∈ s.freeList ↔ b ≠ bf ∧ b < s.made ∧ refs b = 0
  /-- It has each of them once. -/
  free_nodup : s.freeList.Nodup
  /-- The counters. -/
  count : ∀ {b}, b < s.made → (s.buffers b).count = u32 (refs b)
  /-- Only descriptors that have been set up are in use. -/
  refs_zero : ∀ {b}, s.made ≤ b → refs b = 0
  /-- A buffer that is not in use is clean. -/
  clean : ∀ {b}, b ≠ bf → b < s.made → refs b = 0 →
    (s.buffers b).dirty = false ∧ (s.buffers b).valid = true ∧ (s.buffers b).lock = none
  /-- The spare one is not in use. -/
  refs_self : refs bf = 0
  /-- It has nothing to write. -/
  dirty : (s.buffers bf).dirty = false
  /-- It has not been read. -/
  valid : (s.buffers bf).valid = false
  /-- Nobody holds its lock. -/
  lock : (s.buffers bf).lock = none

section Take

variable {s : Cache D} {refs : ℕ → ℕ}

/-- The spare descriptor of `get_new_buffer`. -/
theorem Pool.getNewBuffer (h : s.Pool refs) (hroom : s.made < s.cap) :
    ∃ t, s.getNewBuffer = some (s.made, t) ∧ t.Spare refs s.made ∧ SameOutside s t s.made := by
  have hget : s.getNewBuffer = some (s.made, _) := if_pos hroom
  have hof : ∀ b, b ≠ s.made → (b < s.made + 1 ↔ b < s.made) := fun b hb => by omega
  refine ⟨_, hget, ?_, ⟨rfl, rfl, rfl, fun b hb => setBuffer_of_ne _ _ _ hb, hof⟩⟩
  refine ⟨hroom, Nat.lt_succ_self _, fun {b idx} => ?_, h.chain_nodup,
    fun {b b'} hne hne' hb hb' hdev hblock => ?_, fun {b} => ?_, h.free_nodup, fun {b} hb => ?_,
    fun {b} hb => h.refs_zero (Nat.le_of_succ_le hb), fun {b} hne hb hr => ?_, h.refs_zero (le_refl _),
    ?_, ?_, ?_⟩
  · simp only [setBuffer_hashTable, setBuffer_made, h.mem_chain]
    constructor
    · rintro ⟨hb, hidx⟩
      have hne : b ≠ s.made := hb.ne
      rw [setBuffer_of_ne _ _ _ hne]
      exact ⟨hne, (hof b hne).mpr hb, hidx⟩
    · rintro ⟨hne, hb, hidx⟩
      rw [setBuffer_of_ne _ _ _ hne] at hidx
      exact ⟨(hof b hne).mp hb, hidx⟩
  · simp only [setBuffer_made] at hb hb' hdev hblock
    rw [setBuffer_of_ne _ _ _ hne, setBuffer_of_ne _ _ _ hne'] at hdev hblock
    exact h.uniq ((hof b hne).mp hb) ((hof b' hne').mp hb') hdev hblock
  · simp only [setBuffer_freeList, setBuffer_made, h.mem_free]
    constructor
    · rintro ⟨hb, hr⟩
      exact ⟨hb.ne, (hof b hb.ne).mpr hb, hr⟩
    · rintro ⟨hne, hb, hr⟩
      exact ⟨(hof b hne).mp hb, hr⟩
  · simp only [setBuffer_made] at hb ⊢
    rcases eq_or_ne b s.made with rfl | hne
    · rw [setBuffer_self, h.refs_zero (le_refl _)]
      rfl
    · rw [setBuffer_of_ne _ _ _ hne]
      exact h.count ((hof b hne).mp hb)
  · simp only [setBuffer_made] at hb ⊢
    rw [setBuffer_of_ne _ _ _ hne]
    exact h.clean ((hof b hne).mp hb) hr
  · simp only [setBuffer_self]
  · simp only [setBuffer_self]
  · simp only [setBuffer_self]

/-- The spare descriptor of `get_free_buffer`: a new one, or the one that was released first. -/
theorem Pool.getFreeBuffer (h : s.Pool refs) :
    (s.getFreeBuffer = some none ∧ s.cap ≤ s.made ∧ s.freeList = []) ∨
      ∃ bf t, s.getFreeBuffer = some (some (bf, t)) ∧ t.Spare refs bf ∧ SameOutside s t bf := by
  rcases Nat.lt_or_ge s.made s.cap with hroom | hfull
  · obtain ⟨t, hget, hspare, hsame⟩ := h.getNewBuffer hroom
    refine Or.inr ⟨s.made, t, ?_, hspare, hsame⟩
    rw [Cache.getFreeBuffer, hget]
  have hnew : s.getNewBuffer = none := if_neg (Nat.not_lt.mpr hfull)
  cases hlast : s.freeList.getLast? with
  | none =>
    refine Or.inl ⟨?_, hfull, List.getLast?_eq_none_iff.mp hlast⟩
    rw [Cache.getFreeBuffer, hnew, hlast]
  | some bf =>
    obtain ⟨hlt, hrefs⟩ := h.mem_free.mp (List.mem_of_getLast? hlast)
    obtain ⟨hdirty, -, hlock⟩ := h.clean hlt hrefs
    obtain ⟨idx, hidx⟩ : ∃ idx, idx = hash (s.buffers bf).dev (s.buffers bf).block := ⟨_, rfl⟩
    have hchain : bf ∈ s.hashTable idx := h.mem_chain.mpr ⟨hlt, hidx.symm⟩
    obtain ⟨t, ht⟩ : ∃ t, t = (({ s with freeList := s.freeList.dropLast } : Cache D).setChain idx
        ((s.hashTable idx).erase bf)).setBuffer bf { s.buffers bf with valid := false } := ⟨_, rfl⟩
    have hother : ∀ b, b ≠ bf → t.buffers b = s.buffers b := fun b hb => by
      rw [ht]
      exact setBuffer_of_ne _ _ _ hb
    have hself : t.buffers bf = { s.buffers bf with valid := false } := by rw [ht, setBuffer_self]
    have hmade : t.made = s.made := by rw [ht]; rfl
    have hfree : t.freeList = s.freeList.dropLast := by rw [ht]; rfl
    have htable : ∀ {b i}, b ∈ t.hashTable i ↔ b ≠ bf ∧ b ∈ s.hashTable i := by
      intro b i
      have hval : t.hashTable = Function.update s.hashTable idx ((s.hashTable idx).erase bf) := by
        rw [ht]
        rfl
      rw [hval]
      rcases eq_or_ne i idx with rfl | hne
      · rw [Function.update_self, (h.chain_nodup i).mem_erase_iff]
      · rw [Function.update_of_ne hne]
        constructor
        · intro hb
          refine ⟨?_, hb⟩
          rintro rfl
          exact hne ((h.mem_chain.mp hb).2.symm.trans hidx.symm)
        · exact fun hb => hb.2
    refine Or.inr ⟨bf, t, ?_, ?_, ⟨by rw [ht]; rfl, by rw [ht]; rfl, by rw [ht]; rfl,
      hother, fun b _ => by rw [hmade]⟩⟩
    · rw [Cache.getFreeBuffer, hnew, hlast]
      simp only [hashRemove, ← hidx, assert_pos hchain, ht]
      rfl
    · refine ⟨?_, by rw [hmade]; exact hlt, fun {b i} => ?_, fun i => ?_,
        fun {b b'} hne hne' hb hb' hd hk => ?_, fun {b} => ?_, ?_, fun {b} hb => ?_,
        fun {b} hb => h.refs_zero (by rwa [hmade] at hb), fun {b} hne hb hr => ?_, hrefs, ?_, ?_, ?_⟩
      · rw [hmade, ht]
        exact h.made_le
      · rw [htable, h.mem_chain, hmade]
        constructor
        · rintro ⟨hne, hb, hi⟩
          rw [hother b hne]
          exact ⟨hne, hb, hi⟩
        · rintro ⟨hne, hb, hi⟩
          rw [hother b hne] at hi
          exact ⟨hne, hb, hi⟩
      · have hval : t.hashTable = Function.update s.hashTable idx ((s.hashTable idx).erase bf) := by
          rw [ht]
          rfl
        rw [hval]
        rcases eq_or_ne i idx with rfl | hne
        · rw [Function.update_self]
          exact (h.chain_nodup i).erase bf
        · rw [Function.update_of_ne hne]
          exact h.chain_nodup i
      · rw [hmade] at hb hb'
        rw [hother b hne, hother b' hne'] at hd hk
        exact h.uniq hb hb' hd hk
      · rw [hfree, mem_dropLast_iff h.free_nodup hlast, h.mem_free, hmade]
      · rw [hfree]
        exact nodup_dropLast h.free_nodup
      · rw [hmade] at hb
        rcases eq_or_ne b bf with rfl | hne
        · rw [hself]
          exact h.count hlt
        · rw [hother b hne]
          exact h.count hb
      · rw [hmade] at hb
        rw [hother b hne]
        exact h.clean hb hr
      · rw [hself]
        exact hdirty
      · rw [hself]
      · rw [hself]
        exact hlock

end Take

/-! ### `getblk` -/

/-- **What `getblk` returns**: the buffer that was hashed for the block, or a spare one that has
not been read. -/
structure Got (s : Cache D) (refs : ℕ → ℕ) (dev block bf : ℕ) (t : Cache D) : Prop where
  /-- The lists are in order, with one more reference. -/
  pool : t.Pool (Function.update refs bf (refs bf + 1))
  /-- The other buffers. -/
  same : SameOutside s t bf
  /-- The buffer has been set up. -/
  lt : bf < t.made
  /-- It is for the block. -/
  key : (t.buffers bf).dev = dev ∧ (t.buffers bf).block = block
  /-- A hit or a miss. -/
  origin : (bf < s.made ∧
      t.buffers bf = { s.buffers bf with count := u32 ((s.buffers bf).count + 1) }) ∨
    (refs bf = 0 ∧ (t.buffers bf).valid = false ∧ (t.buffers bf).dirty = false ∧
      (t.buffers bf).lock = none ∧
      ∀ b < s.made, (s.buffers b).dev = dev → (s.buffers b).block ≠ block)

section Getblk

variable {s : Cache D} {refs : ℕ → ℕ} {dev block : ℕ}

/-- A spare descriptor is given a block. -/
theorem Spare.locate {bf : ℕ} {t : Cache D} (h : s.Spare refs bf)
    (hno : ∀ b, b ≠ bf → b < s.made → (s.buffers b).dev = dev → (s.buffers b).block ≠ block)
    (ht : t = (s.setBuffer bf { s.buffers bf with dev := dev, block := block, count := 1 }).setChain
      (hash dev block) (bf :: s.hashTable (hash dev block))) :
    t.Pool (Function.update refs bf (refs bf + 1)) := by
  have hother : ∀ b, b ≠ bf → t.buffers b = s.buffers b := fun b hb => by
    rw [ht]
    exact setBuffer_of_ne _ _ _ hb
  have hself : t.buffers bf = { s.buffers bf with dev := dev, block := block, count := 1 } := by
    rw [ht]
    exact setBuffer_self _ _ _
  have hmade : t.made = s.made := by rw [ht]; rfl
  have hfree : t.freeList = s.freeList := by rw [ht]; rfl
  have hval : t.hashTable = Function.update s.hashTable (hash dev block)
      (bf :: s.hashTable (hash dev block)) := by
    rw [ht]
    rfl
  have hout : ∀ i, bf ∉ s.hashTable i := fun i hb => (h.mem_chain.mp hb).1 rfl
  have htable : ∀ {b i}, b ∈ t.hashTable i ↔ (b = bf ∧ i = hash dev block) ∨ b ∈ s.hashTable i := by
    intro b i
    rw [hval]
    rcases eq_or_ne i (hash dev block) with rfl | hne
    · rw [Function.update_self, List.mem_cons]
      simp
    · rw [Function.update_of_ne hne]
      simp [hne]
  refine ⟨?_, fun {b i} => ?_, fun i => ?_, fun {b b'} hb hb' hd hk => ?_, fun {b} => ?_, ?_,
    fun {b} hb => ?_, fun {b} hb => ?_, fun {b} hb hr => ?_⟩
  · rw [hmade, ht]
    exact h.made_le
  · rw [htable, h.mem_chain, hmade]
    rcases eq_or_ne b bf with rfl | hne
    · rw [hself]
      have hlt := h.lt
      simp [hlt, eq_comm]
    · rw [hother b hne]
      simp [hne]
  · rw [hval]
    rcases eq_or_ne i (hash dev block) with rfl | hne
    · rw [Function.update_self]
      exact List.nodup_cons.mpr ⟨hout _, h.chain_nodup _⟩
    · rw [Function.update_of_ne hne]
      exact h.chain_nodup i
  · rw [hmade] at hb hb'
    rcases eq_or_ne b bf with rfl | hne
    · rcases eq_or_ne b' b with rfl | hne'
      · rfl
      · rw [hself, hother b' hne'] at hd hk
        exact absurd hk.symm (hno b' hne' hb' hd.symm)
    · rcases eq_or_ne b' bf with rfl | hne'
      · rw [hself, hother b hne] at hd hk
        exact absurd hk (hno b hne hb hd)
      · rw [hother b hne, hother b' hne'] at hd hk
        exact h.uniq hne hne' hb hb' hd hk
  · rw [hfree, h.mem_free, hmade]
    rcases eq_or_ne b bf with rfl | hne
    · rw [Function.update_self]
      simp
    · rw [Function.update_of_ne hne]
      simp [hne]
  · rw [hfree]
    exact h.free_nodup
  · rw [hmade] at hb
    rcases eq_or_ne b bf with rfl | hne
    · rw [hself, Function.update_self, h.refs_self]
      rfl
    · rw [hother b hne, Function.update_of_ne hne]
      exact h.count hb
  · rw [hmade] at hb
    have hlt := h.lt
    rw [Function.update_of_ne (by omega)]
    exact h.refs_zero hb
  · rw [hmade] at hb
    have hne : b ≠ bf := by
      rintro rfl
      rw [Function.update_self] at hr
      exact absurd hr (Nat.succ_ne_zero _)
    rw [Function.update_of_ne hne] at hr
    rw [hother b hne]
    exact h.clean hne hb hr

/-- **`getblk` after a failed lookup** takes a spare descriptor, or waits when there is none. -/
theorem Pool.takeBuffer (h : s.Pool refs)
    (hno : ∀ b < s.made, (s.buffers b).dev = dev → (s.buffers b).block ≠ block) :
    (s.takeBuffer dev block = some none ∧ s.cap ≤ s.made ∧ s.freeList = []) ∨
      ∃ bf t, s.takeBuffer dev block = some (some (bf, t)) ∧ Got s refs dev block bf t := by
  rcases h.getFreeBuffer with ⟨hget, hfull, hempty⟩ | ⟨bf, u, hget, hspare, hsame⟩
  · refine Or.inl ⟨?_, hfull, hempty⟩
    rw [Cache.takeBuffer, hget]
    rfl
  have hcount : (u.buffers bf).count = 0 := by
    rw [hspare.count hspare.lt, hspare.refs_self]
    rfl
  have hout : bf ∉ u.hashTable (hash dev block) := fun hb => (hspare.mem_chain.mp hb).1 rfl
  obtain ⟨t, ht⟩ : ∃ t, t =
      (u.setBuffer bf { u.buffers bf with dev := dev, block := block, count := 1 }).setChain
        (hash dev block) (bf :: u.hashTable (hash dev block)) := ⟨_, rfl⟩
  have hself : t.buffers bf = { u.buffers bf with dev := dev, block := block, count := 1 } := by
    rw [ht]
    exact setBuffer_self _ _ _
  refine Or.inr ⟨bf, t, ?_, hspare.locate (fun b hne hb hd => ?_) ht, ?_, ?_, ?_, Or.inr ?_⟩
  · rw [Cache.takeBuffer, hget]
    simp only [Option.bind_eq_bind, Option.bind_some, assert_pos hcount, assert_pos hspare.dirty,
      hashLocate, setBuffer_self, setBuffer_hashTable, assert_pos hout, Option.pure_def, ht]
  · rw [hsame.buffers b hne] at hd ⊢
    exact hno b ((hsame.made b hne).mp hb) hd
  · refine hsame.trans ⟨by rw [ht]; rfl, by rw [ht]; rfl, by rw [ht]; rfl,
      fun b hb => ?_, fun b _ => by rw [ht]; rfl⟩
    rw [ht]
    exact setBuffer_of_ne _ _ _ hb
  · rw [ht]
    exact hspare.lt
  · rw [hself]
    exact ⟨rfl, rfl⟩
  · rw [hself]
    exact ⟨hspare.refs_self, hspare.valid, hspare.dirty, hspare.lock, hno⟩

/-- **`getblk`** finds the buffer of the block, takes another one for it, or waits when all are in
use. -/
theorem Pool.getblk (h : s.Pool refs) (dev block : ℕ) :
    (s.getblk dev block = some none ∧ s.cap ≤ s.made ∧ s.freeList = [] ∧
        ∀ b < s.made, (s.buffers b).dev = dev → (s.buffers b).block ≠ block) ∨
      ∃ bf t, s.getblk dev block = some (some (bf, t)) ∧ Got s refs dev block bf t := by
  by_cases hhit : ∃ bf < s.made, (s.buffers bf).dev = dev ∧ (s.buffers bf).block = block
  · obtain ⟨bf, hlt, hdev, hblock⟩ := hhit
    obtain ⟨t, ht⟩ : ∃ t, t = ({ s with freeList := s.freeList.erase bf } : Cache D).setBuffer bf
      { s.buffers bf with count := u32 ((s.buffers bf).count + 1) } := ⟨_, rfl⟩
    have hself : t.buffers bf = { s.buffers bf with count := u32 ((s.buffers bf).count + 1) } := by
      rw [ht, setBuffer_self]
    have hother : ∀ b, b ≠ bf → t.buffers b = s.buffers b := fun b hb => by
      rw [ht]
      exact setBuffer_of_ne _ _ _ hb
    refine Or.inr ⟨bf, t, ?_, h.hit hlt hother hself (by rw [ht]; rfl) (by rw [ht]; rfl)
      (by rw [ht]; rfl) (by rw [ht]; rfl), ⟨by rw [ht]; rfl, by rw [ht]; rfl, by rw [ht]; rfl,
      hother, fun b _ => by rw [ht]; rfl⟩, by rw [ht]; exact hlt, ?_,
      Or.inl ⟨hlt, hself⟩⟩
    · rw [Cache.getblk, h.getFromHashTable_hit hlt hdev hblock, ht]
    · rw [hself]
      exact ⟨hdev, hblock⟩
  · have hno : ∀ b < s.made, (s.buffers b).dev = dev → (s.buffers b).block ≠ block :=
      fun b hb hd hk => hhit ⟨b, hb, hd, hk⟩
    rw [Cache.getblk, h.getFromHashTable_miss hno]
    rcases h.takeBuffer hno with ⟨hget, hfull, hempty⟩ | hgot
    · exact Or.inl ⟨hget, hfull, hempty, hno⟩
    · exact Or.inr hgot

end Getblk

/-! ### `brelse` -/

section PutBuffer

variable {s t : Cache D} {refs : ℕ → ℕ} {bf : ℕ}

/-- **One reference less**: a buffer that is in use no more goes to the free list. -/
theorem Pool.put (h : s.Pool refs) (hlt : bf < s.made) (hpos : 0 < refs bf)
    (hclean : refs bf = 1 →
      (s.buffers bf).dirty = false ∧ (s.buffers bf).valid = true ∧ (s.buffers bf).lock = none)
    (hother : ∀ b, b ≠ bf → t.buffers b = s.buffers b)
    (hself : t.buffers bf = { s.buffers bf with count := u32 (refs bf - 1) })
    (hmade : t.made = s.made) (hcap : t.cap = s.cap) (htable : t.hashTable = s.hashTable)
    (hfree : t.freeList = if refs bf = 1 then bf :: s.freeList else s.freeList) :
    t.Pool (Function.update refs bf (refs bf - 1)) := by
  have hkey : ∀ b, (t.buffers b).dev = (s.buffers b).dev ∧ (t.buffers b).block = (s.buffers b).block := by
    intro b
    rcases eq_or_ne b bf with rfl | hne
    · rw [hself]
      exact ⟨rfl, rfl⟩
    · rw [hother b hne]
      exact ⟨rfl, rfl⟩
  have hout : bf ∉ s.freeList := fun hmem => hpos.ne' (h.mem_free.mp hmem).2
  refine ⟨?_, fun {b idx} => ?_, fun idx => ?_, fun {b b'} hb hb' hd hk => ?_, fun {b} => ?_, ?_,
    fun {b} hb => ?_, fun {b} hb => ?_, fun {b} hb hr => ?_⟩
  · rw [hmade, hcap]
    exact h.made_le
  · rw [htable, hmade, (hkey b).1, (hkey b).2]
    exact h.mem_chain
  · rw [htable]
    exact h.chain_nodup idx
  · rw [hmade] at hb hb'
    rw [(hkey b).1, (hkey b').1] at hd
    rw [(hkey b).2, (hkey b').2] at hk
    exact h.uniq hb hb' hd hk
  · have hmem : b ∈ t.freeList ↔ (refs bf = 1 ∧ b = bf) ∨ b ∈ s.freeList := by
      rw [hfree]
      split
      · next heq => simp [heq]
      · next hne => simp [hne]
    rw [hmem, hmade, h.mem_free]
    rcases eq_or_ne b bf with rfl | hne
    · rw [Function.update_self]
      omega
    · rw [Function.update_of_ne hne]
      simp [hne]
  · rw [hfree]
    split
    · exact List.nodup_cons.mpr ⟨hout, h.free_nodup⟩
    · exact h.free_nodup
  · rw [hmade] at hb
    rcases eq_or_ne b bf with rfl | hne
    · rw [hself, Function.update_self]
    · rw [hother b hne, Function.update_of_ne hne]
      exact h.count hb
  · rw [hmade] at hb
    rw [Function.update_of_ne (by omega)]
    exact h.refs_zero hb
  · rw [hmade] at hb
    rcases eq_or_ne b bf with rfl | hne
    · rw [Function.update_self] at hr
      rw [hself]
      exact hclean (by omega)
    · rw [Function.update_of_ne hne] at hr
      rw [hother b hne]
      exact h.clean hb hr

/-- **`brelse`** gives one reference back, unless that puts a buffer on the free list that a task
waits for. -/
theorem Pool.putBuffer (h : s.Pool refs) (hlt : bf < s.made) (hpos : 0 < refs bf)
    (hle : refs bf ≤ 2147483648) (hclean : refs bf = 1 →
      (s.buffers bf).dirty = false ∧ (s.buffers bf).valid = true ∧ (s.buffers bf).lock = none)
    (hwait : refs bf = 1 → s.waitList = []) :
    ∃ t, s.putBuffer bf = some t ∧ t.Pool (Function.update refs bf (refs bf - 1)) ∧
      SameOutside s t bf ∧ t.made = s.made ∧
      t.buffers bf = { s.buffers bf with count := u32 (refs bf - 1) } := by
  have hcount : sub32 (s.buffers bf).count 1 = refs bf - 1 := by
    rw [h.count hlt, u32_of_lt (by omega), sub32_of_le (by omega) hpos]
  have hu : u32 (refs bf - 1) = refs bf - 1 := u32_of_lt (by omega)
  obtain ⟨t, ht⟩ : ∃ t : Cache D, t = { s.setBuffer bf { s.buffers bf with count := refs bf - 1 } with
      freeList := if refs bf = 1 then bf :: s.freeList else s.freeList } := ⟨_, rfl⟩
  have hother : ∀ b, b ≠ bf → t.buffers b = s.buffers b := fun b hb => by
    rw [ht]
    exact setBuffer_of_ne _ _ _ hb
  have hself : t.buffers bf = { s.buffers bf with count := u32 (refs bf - 1) } := by
    rw [ht, hu]
    exact setBuffer_self _ _ _
  have hmade : t.made = s.made := by rw [ht]; rfl
  refine ⟨t, ?_, h.put hlt hpos hclean hother hself hmade (by rw [ht]; rfl) (by rw [ht]; rfl)
    (by rw [ht]), ⟨by rw [ht]; rfl, by rw [ht]; rfl, by rw [ht]; rfl, hother, fun b _ => by rw [hmade]⟩,
    hmade, hself⟩
  have hlt' : refs bf - 1 < 2147483648 := by omega
  rw [Cache.putBuffer]
  simp only [setBuffer_self, hcount, assert_pos hlt', Option.bind_eq_bind, Option.bind_some]
  by_cases hone : refs bf = 1
  · have hout : bf ∉ s.freeList := fun hmem => hpos.ne' (h.mem_free.mp hmem).2
    have hzero : ¬refs bf - 1 ≠ 0 := by omega
    rw [if_neg hzero, ht, if_pos hone]
    refine (congrArg (Option.bind · _) (assert_pos hout)).trans ?_
    simp only [Option.bind_some, setBuffer_waitList, hwait hone, List.getLast?_nil, Option.pure_def,
      setBuffer_freeList]
  · have hne : refs bf - 1 ≠ 0 := by omega
    rw [if_pos hne]
    simp only [Option.pure_def, ht, if_neg hone]
    rfl

/-- **A `brelse` that wakes a task up fails.** `list_popback` has unlinked the node of the task when
`task_unblock` removes it from its list. -/
theorem Pool.putBuffer_waiting (h : s.Pool refs) (hlt : bf < s.made) (hone : refs bf = 1)
    (hwait : s.waitList ≠ []) (hnodup : s.waitList.Nodup) : s.putBuffer bf = none := by
  have hcount : sub32 (s.buffers bf).count 1 = 0 := by
    rw [h.count hlt, hone]
    rfl
  have hout : bf ∉ s.freeList := fun hmem => by
    have hzero := (h.mem_free.mp hmem).2
    omega
  have hlast : s.waitList.getLast? = some (s.waitList.getLast hwait) := List.getLast?_eq_some_getLast hwait
  have hnot : s.waitList.getLast hwait ∉ s.waitList.dropLast :=
    fun hmem => ((mem_dropLast_iff hnodup hlast).mp hmem).1 rfl
  have hlt' : 0 < 2147483648 := by decide
  have hzero : ¬0 ≠ 0 := not_not.mpr rfl
  rw [Cache.putBuffer]
  simp only [setBuffer_self, hcount, assert_pos hlt', Option.bind_eq_bind, Option.bind_some]
  rw [if_neg hzero]
  refine (congrArg (Option.bind · _) (assert_pos hout)).trans ?_
  simp only [Option.bind_some, setBuffer_waitList, hlast, taskUnblock]
  exact congrArg (Option.bind · _) (assert_neg hnot)

/-- **A `brelse` of too many references fails**: the counter, an `int`, is negative. -/
theorem Pool.putBuffer_overflow (h : s.Pool refs) (hlt : bf < s.made) (hrefs : refs bf = 2147483649) :
    s.putBuffer bf = none := by
  have hcount : sub32 (s.buffers bf).count 1 = 2147483648 := by
    rw [h.count hlt, hrefs]
    rfl
  rw [Cache.putBuffer]
  simp only [setBuffer_self, hcount, lt_self_iff_false, assert_neg, not_false_eq_true, Option.bind_eq_bind,
    Option.bind_none]

end PutBuffer

end Cache

end Onixs
