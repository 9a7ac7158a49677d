import Onixs.Fs.MapBlock

/-!
# The zones a directory takes

`bmap` for the block behind the last one of a directory. `Onixs.Takes` is what taking a free zone changes, and
`Onixs.Mapped` what a call of `bmap` achieves for the entries that are there: the zone it returns is none that the
directory uses. A new index block is a zone with whatever is in it, and its first word is taken for the number of the
zone; `Onixs.SafeIndex` says when that does no harm.
-/

namespace Onixs

open Bytes

/-! ### Taking a zone -/

/-- A zone is marked used, and its number stored in a block. -/
def Fs.takeZone (s : Fs) (dev buf o z : ℕ) : Fs :=
  (s.setZbit dev (zonePos (s.superDesc dev) z) true).setBlk dev buf ((s.blk dev buf).putU16 o z)

/-- **What taking zone `z` changes**: a bit of the zone bitmap, and the word at offset `o` of block `buf`. -/
structure Takes (s t : Fs) (dev buf o z : ℕ) : Prop where
  /-- The super block table. -/
  superTable : t.superTable = s.superTable
  /-- The inode table. -/
  inodeTable : t.inodeTable = s.inodeTable
  /-- The blocks are in order. -/
  layout : Layout t dev
  /-- The super block is the same. -/
  desc : t.superDesc dev = s.superDesc dev
  /-- The bitmap blocks are the same. -/
  zmaps : t.zmaps dev = s.zmaps dev
  /-- The bitmap. -/
  bits : ∀ g, t.zbit dev g = if g = zonePos (s.superDesc dev) z then true else s.zbit dev g
  /-- The word. -/
  word : (t.blk dev buf).getU16 o = z
  /-- The other bytes. -/
  blk : ∀ y o', (∀ i, s.zmaps dev i ≠ some y) → (y = buf → o' ≠ o ∧ o' ≠ o + 1) → t.blk dev y o' = s.blk dev y o'

section Take

variable {s t u : Fs} {dev nr buf o z : ℕ} {p q : List ℕ}

theorem takes_takeZone (hl : Layout s dev) (hz : ZoneFree s dev z) (hbuf : ∀ i, s.zmaps dev i ≠ some buf)
    (hone : buf ≠ 1) : Takes s (s.takeZone dev buf o z) dev buf o z := by
  have hne : ∀ y, (∀ i, s.zmaps dev i ≠ some y) → y ≠ buf → (s.takeZone dev buf o z).blk dev y = s.blk dev y :=
    fun y hy hyb => by
      rw [Fs.takeZone, Fs.setBlk_blk_of_ne _ _ (Or.inr hyb), Fs.setZbit, setMapBit_blk_of_ne (Or.inr hy)]
  have hsuper : (s.takeZone dev buf o z).superTable = s.superTable := by
    rw [Fs.takeZone, Fs.setBlk_superTable, Fs.setZbit, setMapBit_superTable]
  have hself : (s.takeZone dev buf o z).blk dev buf = (s.blk dev buf).putU16 o z := Fs.setBlk_blk_self _ _ _ _
  obtain ⟨hlay, hdesc, hzmaps⟩ := hl.of_same hsuper (hne 1 hl.mounted.zmap_ne_one hone.symm)
  refine ⟨hsuper, ?_, hlay, hdesc, hzmaps, fun g => ?_, ?_, fun y o' hy ho => ?_⟩
  · rw [Fs.takeZone, Fs.setBlk_inodeTable, Fs.setZbit, setMapBit_inodeTable]
  · obtain ⟨b, hb⟩ := buffer_of_clear hz.2.2
    have honly := (OnlyZbit.of_setZbit hl.mounted hb true).bits g
    rw [Fs.zbit, hzmaps]
    refine Eq.trans ?_ honly
    rw [Fs.mapBit, Fs.mapBit]
    cases hg : s.zmaps dev (g / 8192) with
    | none => rfl
    | some b' =>
      have hb' : b' ≠ buf := fun hc => hbuf _ (hc ▸ hg)
      simp only [Fs.takeZone, Fs.setBlk_blk_of_ne _ _ (Or.inr hb')]
  · rw [hself, getU16_putU16_self, Nat.mod_eq_of_lt hz.lt]
  · by_cases hyb : y = buf
    · subst hyb
      rw [hself, putU16_of_ne _ _ (ho rfl).1 (ho rfl).2]
    · rw [hne y hy hyb]

/-- The zone is free no more; the other free zones are the same. -/
theorem Takes.free (h : Takes s t dev buf o z) (hz : ZoneFree s dev z) {y : ℕ} :
    ZoneFree t dev y ↔ ZoneFree s dev y ∧ y ≠ z := by
  have h1 := hz.1
  rw [ZoneFree, ZoneFree, h.desc, h.bits]
  constructor
  · rintro ⟨h2, h3, h4⟩
    split at h4
    · exact absurd h4 (by simp)
    · rename_i hpos
      exact ⟨⟨h2, h3, h4⟩, fun hc => hpos (hc ▸ rfl)⟩
  · rintro ⟨⟨h2, h3, h4⟩, hne⟩
    refine ⟨h2, h3, ?_⟩
    rw [if_neg (by simp only [zonePos]; omega)]
    exact h4

theorem Takes.zero (h : Takes s t dev buf o z) (h0 : s.zbit dev 0 = true) : t.zbit dev 0 = true := by
  rw [h.bits, h0, ite_self]

/-- **A pass of `bmap` over an empty word** takes the first free zone. -/
theorem bmapEntry_takes (hl : Layout s dev) (hzero : s.zbit dev 0 = true) (hex : ∃ z, ZoneFree s dev z)
    (hbuf : ∀ i, s.zmaps dev i ≠ some buf) (hone : buf ≠ 1) {array index : ℕ}
    (h0 : (s.blk dev buf).getU16 (array + 2 * index) = 0) :
    ∃ z t, FirstFree s dev z ∧ bmapEntry s dev buf array index true = some (z, t) ∧
      Takes s t dev buf (array + 2 * index) z := by
  obtain ⟨z, hz, hleast, hrun⟩ := balloc_of_free hl.mounted hzero hex
  refine ⟨z, _, ⟨hz, hleast⟩, ?_, takes_takeZone hl hz hbuf hone⟩
  have hkeep : (s.setZbit dev (zonePos (s.superDesc dev) z) true).blk dev buf = s.blk dev buf :=
    setMapBit_blk_of_ne (Or.inr hbuf) true
  rw [bmapEntry, if_pos ⟨h0, rfl⟩, hrun]
  simp only [Option.bind_eq_bind, Option.bind_some, hkeep, Fs.setBlk_blk_self, getU16_putU16_self,
    Nat.mod_eq_of_lt hz.lt, Option.pure_def, Fs.takeZone]

/-- A pass over a word that is not zero reads it. -/
theorem bmapEntry_read {create : Bool} {array index : ℕ} (h : (s.blk dev buf).getU16 (array + 2 * index) ≠ 0) :
    bmapEntry s dev buf array index create = some ((s.blk dev buf).getU16 (array + 2 * index), s) := by
  rw [bmapEntry, if_neg fun hc => h hc.1]
  rfl

/-! ### Reading a path -/

theorem IsSlot.of_suffix (hp : IsSlot p) (hq : q ≠ []) (hsuf : q <:+ p) : IsSlot q := by
  obtain ⟨l, rfl⟩ := hsuf
  exact hp.suffix hq l

/-- What a slot is reached through is an index block. -/
theorem IsSlot.node_of_suffix (hp : IsSlot p) (hq : q ≠ []) (hsuf : q <:+ p) (hne : q ≠ p) : IsNode q := by
  obtain ⟨l, rfl⟩ := hsuf
  obtain ⟨l', j, rfl⟩ : ∃ l' j, l = l' ++ [j] := by
    rcases List.eq_nil_or_concat l with rfl | ⟨l', j, rfl⟩
    · exact absurd rfl hne
    · exact ⟨l', j, by simp⟩
  rw [List.append_assoc] at hp
  exact ((isSlot_cons_iff hq).mp (hp.suffix (by simp) l')).2

theorem zoneAt_suffix_ne_zero (hq : q ≠ []) (hsuf : q <:+ p) (h : s.zoneAt dev nr p ≠ 0) : s.zoneAt dev nr q ≠ 0 := by
  obtain ⟨l, rfl⟩ := hsuf
  exact fun hc => h (IndexTree.get_append_of_null hq hc l)

theorem reached_of_ne_zero (h : s.zoneAt dev nr p ≠ 0) : Reached s dev nr p := fun _ i t heq =>
  zoneAt_suffix_ne_zero (by simp) (heq ▸ List.suffix_cons _ (i :: t)) h

/-- A slot that can be reached has zones on the way to it. -/
theorem Reached.ne_zero (h : Reached s dev nr p) (hq : q ≠ []) (hsuf : q <:+ p) (hne : q ≠ p) :
    s.zoneAt dev nr q ≠ 0 := by
  obtain ⟨l, rfl⟩ := hsuf
  obtain ⟨j, l, rfl⟩ := List.exists_cons_of_ne_nil (show l ≠ [] from fun hc => hne (by rw [hc]; rfl))
  obtain ⟨i, l', htail⟩ := List.exists_cons_of_ne_nil (show l ++ q ≠ [] by simp [hq])
  refine zoneAt_suffix_ne_zero hq ?_ (h j i l' (by rw [List.cons_append, htail]))
  rw [← htail]
  exact List.suffix_append l q

/-- **The zone in a slot is the same** when the words on the way to it are. -/
theorem zoneAt_same (hdesc : t.superDesc dev = s.superDesc dev) : ∀ {p : List ℕ},
    (∀ q, q ≠ [] → q <:+ p → Reached s dev nr q →
      t.blk dev (s.slotPlace dev nr q).1 (s.slotPlace dev nr q).2
        = s.blk dev (s.slotPlace dev nr q).1 (s.slotPlace dev nr q).2 ∧
      t.blk dev (s.slotPlace dev nr q).1 ((s.slotPlace dev nr q).2 + 1)
        = s.blk dev (s.slotPlace dev nr q).1 ((s.slotPlace dev nr q).2 + 1)) →
    t.zoneAt dev nr p = s.zoneAt dev nr p
  | [], _ => rfl
  | [r], h => by
    obtain ⟨h0, h1⟩ := h [r] (by simp) List.suffix_rfl (reached_root r)
    rw [zoneAt_root, zoneAt_root, Fs.rootZone, Fs.rootZone, hdesc]
    exact getU16_congr h0 h1
  | j :: i :: p, h => by
    have hpar : t.zoneAt dev nr (i :: p) = s.zoneAt dev nr (i :: p) :=
      zoneAt_same hdesc fun q hq hsuf => h q hq (hsuf.trans (List.suffix_cons _ _))
    by_cases hz : s.zoneAt dev nr (i :: p) = 0
    · rw [zoneAt_cons_of_null hz, zoneAt_cons_of_null (hpar.trans hz)]
    · obtain ⟨h0, h1⟩ := h (j :: i :: p) (by simp) List.suffix_rfl (reached_cons hz)
      rw [zoneAt_cons hz, zoneAt_cons (by rwa [hpar]), hpar]
      exact getU16_congr h0 h1

/-- The place of a slot is at an even offset. -/
theorem slotPlace_even (hi : InodePos (s.superDesc dev) nr) : ∀ p, (s.slotPlace dev nr p).2 % 2 = 0
  | [] => rfl
  | [r] => by
    have hlt : (s.superDesc dev).inodes < 65536 := getU16_lt _ _
    have hle := hi.2
    change (inodeOffset nr + 14 + 2 * r) % 2 = 0
    rw [inodeOffset_eq hi.1 (by omega)]
    omega
  | j :: i :: p => by
    change 2 * j % 2 = 0
    omega

end Take

/-! ### What `bmap` changes -/

/-- A byte of an empty slot on the way to slot `p`. -/
def PathByte (s : Fs) (dev nr : ℕ) (p : List ℕ) (y o : ℕ) : Prop :=
  ∃ q, q ≠ [] ∧ q <:+ p ∧ s.zoneAt dev nr q = 0 ∧ Reached s dev nr q ∧ y = (s.slotPlace dev nr q).1 ∧
    (o = (s.slotPlace dev nr q).2 ∨ o = (s.slotPlace dev nr q).2 + 1)

/-- **What `bmap` may change on the way to slot `p`**: the zone bitmap, the free zones, and the empty slots. -/
structure Grown (s t : Fs) (dev nr : ℕ) (p : List ℕ) : Prop where
  /-- The super block table. -/
  superTable : t.superTable = s.superTable
  /-- The inode table. -/
  inodeTable : t.inodeTable = s.inodeTable
  /-- The other bytes of the device. -/
  blk : ∀ y o, (∀ i, s.zmaps dev i ≠ some y) → ¬ZoneFree s dev y → ¬PathByte s dev nr p y o →
    t.blk dev y o = s.blk dev y o

section Grown

variable {s t u : Fs} {dev nr buf o z b : ℕ} {p q : List ℕ}

theorem Grown.refl (s : Fs) (dev nr : ℕ) (p : List ℕ) : Grown s s dev nr p := ⟨rfl, rfl, fun _ _ _ _ _ => rfl⟩

/-- The number of the zone is stored in an empty slot, -/
theorem Takes.grown (h : Takes s t dev (s.slotPlace dev nr q).1 (s.slotPlace dev nr q).2 z) (hq : q ≠ [])
    (hsuf : q <:+ p) (hempty : s.zoneAt dev nr q = 0) (hreach : Reached s dev nr q) : Grown s t dev nr p where
  superTable := h.superTable
  inodeTable := h.inodeTable
  blk y o hy _ hpath := h.blk y o hy fun hyb =>
    ⟨fun hc => hpath ⟨q, hq, hsuf, hempty, hreach, hyb, Or.inl hc⟩,
      fun hc => hpath ⟨q, hq, hsuf, hempty, hreach, hyb, Or.inr hc⟩⟩

/-- or in a zone that was free. -/
theorem Grown.takes (h : Grown s t dev nr p) (hzmaps : t.zmaps dev = s.zmaps dev) (hstep : Takes t u dev buf o z)
    (hfree : ZoneFree s dev buf) : Grown s u dev nr p where
  superTable := hstep.superTable.trans h.superTable
  inodeTable := hstep.inodeTable.trans h.inodeTable
  blk y o' hy hyf hpath := by
    rw [hstep.blk y o' (hzmaps ▸ hy) fun hyb => absurd (hyb ▸ hfree) hyf]
    exact h.blk y o' hy hyf hpath

section Kept

variable (hl : Layout s dev) (ht : TreeAt s dev nr) (hp : IsSlot p) (h : Grown s t dev nr p)

include ht hp in
/-- Such a byte is behind the fields of the descriptor, or in an index block. -/
theorem pathByte_cases {y : ℕ} (hpath : PathByte s dev nr p y o) :
    (y = inodeBlock (s.superDesc dev) nr ∧ inodeOffset nr + 14 ≤ o) ∨
      ∃ q, IsNode q ∧ DataZone s dev (s.zoneAt dev nr q) ∧ y = s.zoneAt dev nr q := by
  obtain ⟨q, hq, hsuf, -, hreach, rfl, ho⟩ := hpath
  rcases slotPlace_cases ht.nodes (hp.of_suffix hq hsuf) hreach with
    ⟨r, -, -, hplace⟩ | ⟨j, i, l, -, -, hnode, hdata, hplace⟩
  · rw [hplace] at ho ⊢
    exact Or.inl ⟨rfl, by dsimp only at ho; omega⟩
  · rw [hplace]
    exact Or.inr ⟨i :: l, hnode, hdata, rfl⟩

include hl ht hp h

omit hl in
/-- The blocks in front of the data zones are kept, but for the zone bitmap and the zones in the descriptor. -/
theorem Grown.front {y : ℕ} (hy : y < (s.superDesc dev).firstdatazone) (hmap : ∀ i, s.zmaps dev i ≠ some y)
    (ho : y = inodeBlock (s.superDesc dev) nr → o < inodeOffset nr + 14) : t.blk dev y o = s.blk dev y o := by
  refine h.blk y o hmap (fun hc => Nat.not_lt.mpr hc.1 hy) fun hpath => ?_
  obtain ⟨hyb, hle⟩ | ⟨q, -, hdata, hyq⟩ := pathByte_cases ht hp hpath
  · exact Nat.not_lt.mpr hle (ho hyb)
  · exact Nat.not_lt.mpr hdata.1 (hyq ▸ hy)

theorem Grown.layout : Layout t dev ∧ t.superDesc dev = s.superDesc dev ∧ t.zmaps dev = s.zmaps dev := by
  have hib := hl.inodeBlock_bounds ht.inode
  exact hl.of_same h.superTable (funext fun o => h.front ht hp (by omega) hl.mounted.zmap_ne_one fun hc => by omega)

theorem Grown.holds {i : ℕ} (hh : s.Holds dev nr i) : t.Holds dev nr i :=
  hh.of_same ⟨h.inodeTable, (h.layout hl ht hp).2.1⟩

/-- A slot that is taken keeps its word. -/
theorem Grown.word (hq : IsSlot q) (hne : s.zoneAt dev nr q ≠ 0) (ho : o = (s.slotPlace dev nr q).2 ∨
    o = (s.slotPlace dev nr q).2 + 1) :
    t.blk dev (s.slotPlace dev nr q).1 o = s.blk dev (s.slotPlace dev nr q).1 o := by
  have hreach := reached_of_ne_zero hne
  refine h.blk _ _ (zmap_ne_slotPlace hl ht.nodes hq hreach) (fun hc => ?_) fun hpath => ?_
  · rcases slotPlace_cases ht.nodes hq hreach with ⟨r, -, -, hplace⟩ | ⟨j, i, l, -, -, hnode, hdata, hplace⟩
    · have hib := hl.inodeBlock_bounds ht.inode
      rw [hplace] at hc
      exact Nat.not_lt.mpr hc.1 hib.2
    · rw [hplace] at hc
      exact hdata.ne_free hc rfl
  · -- the two words would be one, and it is zero
    obtain ⟨q', hq', hsuf, hempty, hreach', hblock, ho'⟩ := hpath
    have heven := slotPlace_even ht.inode q
    have heven' := slotPlace_even ht.inode q'
    have hoff : (s.slotPlace dev nr q).2 = (s.slotPlace dev nr q').2 := by omega
    rw [zoneAt_eq_getU16 hq hreach, hblock, hoff] at hne
    exact hne ((zoneAt_eq_getU16 (hp.of_suffix hq' hsuf) hreach').symm.trans hempty)

theorem Grown.zoneAt (hq : IsSlot q) (hne : s.zoneAt dev nr q ≠ 0) : t.zoneAt dev nr q = s.zoneAt dev nr q := by
  refine zoneAt_same (h.layout hl ht hp).2.1 fun q' hq' hsuf _ => ?_
  have hne' := zoneAt_suffix_ne_zero hq' hsuf hne
  exact ⟨h.word hl ht hp (hq.of_suffix hq' hsuf) hne' (Or.inl rfl),
    h.word hl ht hp (hq.of_suffix hq' hsuf) hne' (Or.inr rfl)⟩

/-- The blocks of the entries are kept. -/
theorem Grown.leaf (hq : IsSlot q) (hnode : ¬IsNode q) (hne : s.zoneAt dev nr q ≠ 0) :
    t.blk dev (s.zoneAt dev nr q) = s.blk dev (s.zoneAt dev nr q) := by
  have hdata := ht.zone q hq hne
  have hib := hl.inodeBlock_bounds ht.inode
  refine funext fun o => h.blk _ _ (hl.zmap_ne_zone hdata.1) (fun hc => hdata.ne_free hc rfl) fun hpath => ?_
  obtain ⟨hy, -⟩ | ⟨q', hnode', -, hy⟩ := pathByte_cases ht hp hpath
  · have h1 := hdata.1
    omega
  · obtain rfl := ht.inj q q' hq hnode'.isSlot hne hy
    exact hnode hnode'

end Kept

end Grown

/-! ### The zone `bmap` returns -/

/-- The zone is on the way to one of the first `b` blocks. -/
def Own (s : Fs) (dev nr b z : ℕ) : Prop := ∃ m < b, ∃ q, q ≠ [] ∧ q <:+ bmapSlot m ∧ s.zoneAt dev nr q = z

/-- **A word that may stand for the zone of block `b`**: none, or a zone behind the descriptors that is neither one of
the new index blocks nor on the way to `b` or to a block in front of it. -/
def NoHarm (s : Fs) (dev nr b : ℕ) (new : List ℕ) (w : ℕ) : Prop :=
  w = 0 ∨ (s.superDesc dev).firstdatazone ≤ w ∧ w ∉ new ∧ ¬Own s dev nr (b + 1) w

/-- **What is in a new index block does no harm** to block `b` and those in front. -/
def SafeIndex (s : Fs) (dev nr b : ℕ) : List ℕ → Prop
  | [j, r] => s.zoneAt dev nr [r] = 0 → ∀ z, FirstFree s dev z → NoHarm s dev nr b [z] (s.zoneEntry dev z j)
  | [k, j, r] =>
      (s.zoneAt dev nr [r] ≠ 0 → s.zoneAt dev nr [j, r] = 0 →
        ∀ z, FirstFree s dev z → NoHarm s dev nr b [z] (s.zoneEntry dev z k)) ∧
      (s.zoneAt dev nr [r] = 0 → ∀ z, FirstFree s dev z → s.zoneEntry dev z j = 0 ∧
        ∀ z', SecondFree s dev z' → NoHarm s dev nr b [z, z'] (s.zoneEntry dev z' k))
  | _ => True

/-- **Block `b` is in zone `z`**, and the zone is none that the blocks in front of it use. -/
structure Mapped (s t : Fs) (dev nr b z : ℕ) : Prop where
  /-- What has changed. -/
  grown : Grown s t dev nr (bmapSlot b)
  /-- The zone. -/
  zone : t.zoneAt dev nr (bmapSlot b) = z
  /-- It is behind the descriptors. -/
  lo : (s.superDesc dev).firstdatazone ≤ z
  /-- It is no index block on the way to it. -/
  path : ∀ q, q ≠ [] → q <:+ bmapSlot b → q ≠ bmapSlot b → (s.superDesc dev).firstdatazone ≤ t.zoneAt dev nr q ∧
    t.zoneAt dev nr q ≠ z
  /-- It is no zone of the blocks in front. -/
  apart : ¬Own s dev nr b z

section Mapped

variable {s t : Fs} {dev nr b z w k : ℕ} {p : List ℕ}

/-- Two blocks have different slots, and neither is on the way to the other. -/
theorem bmapSlot_suffix {m : ℕ} (hm : m < 262663) (hb : bmapSlot b <:+ bmapSlot m) : b = m := by
  by_contra hne
  have hnode := (isSlot_bmapSlot hm).node_of_suffix (fun hc => by
    rw [bmapSlot] at hc
    split at hc
    · exact absurd hc (by simp)
    · split at hc <;> exact absurd hc (by simp)) hb fun hc => hne (bmapSlot_inj hc)
  exact not_isNode_bmapSlot b hnode

/-- A free zone is none of the directory. -/
theorem not_own_of_free (ht : TreeAt s dev nr) (hb : b < 262663) (hblocks : ∀ m < b, s.zoneAt dev nr (bmapSlot m) ≠ 0)
    (hz : ZoneFree s dev z) : ¬Own s dev nr b z := by
  rintro ⟨m, hm, q, hq, hsuf, rfl⟩
  have hne := zoneAt_suffix_ne_zero hq hsuf (hblocks m hm)
  have hslot := (isSlot_bmapSlot (Nat.lt_trans hm hb)).of_suffix hq hsuf
  exact (ht.zone q hslot hne).ne_free hz rfl

theorem not_own_of_succ (h : ¬Own s dev nr (b + 1) z) : ¬Own s dev nr b z := by
  rintro ⟨m, hm, hq⟩
  exact h ⟨m, Nat.lt_succ_of_lt hm, hq⟩

/-- A slot that is taken has its index blocks. -/
theorem safeIndex_of_ne {b : ℕ} {p : List ℕ} (hne : s.zoneAt dev nr p ≠ 0) : SafeIndex s dev nr b p := by
  rcases p with - | ⟨k, - | ⟨j, - | ⟨r, - | ⟨x, l⟩⟩⟩⟩
  · trivial
  · trivial
  · exact fun h => absurd (zoneAt_cons_of_null h) hne
  · exact ⟨fun _ h => absurd (zoneAt_cons_of_null h) hne,
      fun h => absurd (zoneAt_cons_of_null (zoneAt_cons_of_null h)) hne⟩
  · trivial

/-- The block is there. -/
theorem mapped_of_ne (ht : TreeAt s dev nr) (hb : b < 262663) (hne : s.zoneAt dev nr (bmapSlot b) ≠ 0) :
    Mapped s s dev nr b (s.zoneAt dev nr (bmapSlot b)) where
  grown := .refl s dev nr _
  zone := rfl
  lo := (ht.zone _ (isSlot_bmapSlot hb) hne).1
  path q hq hsuf hqb := by
    have hslot := (isSlot_bmapSlot hb).of_suffix hq hsuf
    have hq0 := zoneAt_suffix_ne_zero hq hsuf hne
    exact ⟨(ht.zone q hslot hq0).1, fun hc => hqb (ht.inj q _ hslot (isSlot_bmapSlot hb) hq0 hc)⟩
  apart := by
    rintro ⟨m, hm, q, hq, hsuf, hz⟩
    have hslot := (isSlot_bmapSlot (Nat.lt_trans hm hb)).of_suffix hq hsuf
    obtain rfl := ht.inj q _ hslot (isSlot_bmapSlot hb) (by rwa [hz]) hz
    exact Nat.ne_of_gt hm (bmapSlot_suffix (Nat.lt_trans hm hb) hsuf)

variable (hl : Layout s dev) (ht : TreeAt s dev nr) (hzero : s.zbit dev 0 = true) (hb : b < 262663)
  (hblocks : ∀ m < b, s.zoneAt dev nr (bmapSlot m) ≠ 0)

include hl ht

/-- The words on the way to a slot are in no zone that was free. -/
theorem zoneAt_keep {s₁ : Fs} {p' : List ℕ} {z₁ : ℕ} (hp : IsSlot p) (hp' : IsSlot p') (hreach : Reached s dev nr p')
    (h : Grown s s₁ dev nr p) (hz₁ : ZoneFree s dev z₁) (hdesc : t.superDesc dev = s.superDesc dev)
    (hblk : ∀ y o, (∀ i, s.zmaps dev i ≠ some y) → y ≠ z₁ → t.blk dev y o = s₁.blk dev y o) :
    t.zoneAt dev nr p' = s₁.zoneAt dev nr p' := by
  obtain ⟨-, hdesc₁, -⟩ := h.layout hl ht hp
  refine zoneAt_same (hdesc.trans hdesc₁.symm) fun q hq hsuf _ => ?_
  have hplace : (∀ i, s.zmaps dev i ≠ some (s₁.slotPlace dev nr q).1) ∧ (s₁.slotPlace dev nr q).1 ≠ z₁ := by
    have hib := hl.inodeBlock_bounds ht.inode
    have hz := hz₁.1
    obtain ⟨j, q, rfl⟩ := List.exists_cons_of_ne_nil hq
    cases q with
    | nil =>
      rw [Fs.slotPlace, hdesc₁]
      exact ⟨hl.zmap_ne_inodeBlock ht.inode, by dsimp only; omega⟩
    | cons i l =>
      have hne : s.zoneAt dev nr (i :: l) ≠ 0 :=
        hreach.ne_zero (by simp) ((List.suffix_cons j _).trans hsuf) fun hc => by
          have hlen := hsuf.length_le
          rw [← hc, List.length_cons] at hlen
          exact Nat.not_succ_le_self _ hlen
      have hslot : IsSlot (i :: l) := (hp'.of_suffix hq hsuf).of_suffix (by simp) (List.suffix_cons j _)
      rw [Fs.slotPlace, h.zoneAt hl ht hp hslot hne]
      have hdata := ht.zone _ hslot hne
      exact ⟨hl.zmap_ne_zone hdata.1, hdata.ne_free hz₁⟩
  exact ⟨hblk _ _ hplace.1 hplace.2, hblk _ _ hplace.1 hplace.2⟩

/-- **The last pass of `bmap`**, in an index block that was a free zone: its word, or another free zone. -/
theorem Grown.last {s₁ : Fs} {z₁ : ℕ} (hp : IsSlot p) (h : Grown s s₁ dev nr p) (hz₁ : ZoneFree s dev z₁)
    (hword : (s₁.blk dev z₁).getU16 (0 + 2 * k) = s.zoneEntry dev z₁ k) (hzero₁ : s₁.zbit dev 0 = true)
    (hex : ∃ y, ZoneFree s₁ dev y) :
    ∃ z t, bmapEntry s₁ dev z₁ 0 k true = some (z, t) ∧ z ≠ 0 ∧ Grown s t dev nr p ∧ t.superDesc dev = s.superDesc dev ∧
      (t.blk dev z₁).getU16 (2 * k) = z ∧
      (∀ y o, (∀ i, s.zmaps dev i ≠ some y) → y ≠ z₁ → t.blk dev y o = s₁.blk dev y o) ∧
      (z = s.zoneEntry dev z₁ k ∨ s.zoneEntry dev z₁ k = 0 ∧ ZoneFree s₁ dev z) := by
  obtain ⟨hl₁, hdesc₁, hzmaps₁⟩ := h.layout hl ht hp
  by_cases h0 : s.zoneEntry dev z₁ k = 0
  · have hone : z₁ ≠ 1 := by
      have hib := hl.inodeBlock_bounds ht.inode
      have hz := hz₁.1
      omega
    obtain ⟨z, t, hz, hrun, htakes⟩ := bmapEntry_takes hl₁ hzero₁ hex
      (fun i => hzmaps₁ ▸ hl.zmap_ne_zone hz₁.1 i) hone (hword.trans h0)
    refine ⟨z, t, hrun, hz.1.pos hl₁, h.takes hzmaps₁ htakes hz₁, htakes.desc.trans hdesc₁, ?_, fun y o hy hne => ?_,
      Or.inr ⟨h0, hz.1⟩⟩
    · rw [← htakes.word, Nat.zero_add]
    · exact htakes.blk y o (hzmaps₁ ▸ hy) fun hc => absurd hc hne
  · refine ⟨_, s₁, bmapEntry_read (by rwa [hword]), by rwa [hword], h, hdesc₁, ?_, fun _ _ _ _ => rfl, Or.inl hword⟩
    rw [Nat.zero_add]

include hzero hb hblocks

/-- The slot is empty, but it is there. -/
theorem mapped_of_reached (hreach : Reached s dev nr (bmapSlot b)) (hempty : s.zoneAt dev nr (bmapSlot b) = 0)
    (hex : ∃ z, ZoneFree s dev z) :
    ∃ z t, bmapPath s dev nr true (bmapSlot b) = some (z, t) ∧ z ≠ 0 ∧ Mapped s t dev nr b z := by
  have hslot := isSlot_bmapSlot hb
  obtain ⟨z, hz, hrun⟩ := bmapPath_of_empty hl ht.nodes hzero hex _ hslot hreach hempty
  have htakes : Takes s (s.link dev nr (bmapSlot b) z) dev (s.slotPlace dev nr (bmapSlot b)).1
      (s.slotPlace dev nr (bmapSlot b)).2 z :=
    takes_takeZone hl hz.1 (zmap_ne_slotPlace hl ht.nodes hslot hreach) (slotPlace_ne_one hl ht.nodes hslot hreach)
  have hgrown := htakes.grown hslot.ne_nil List.suffix_rfl hempty hreach
  refine ⟨z, _, hrun, hz.1.pos hl, hgrown, ?_, hz.1.1, fun q hq hsuf hne => ?_, not_own_of_free ht hb hblocks hz.1⟩
  · rw [zoneAt_link hl ht.nodes hslot hreach hz.1.lt _ hslot fun l hne hc => hne (List.self_eq_append_left.mp hc),
      if_pos rfl]
  · have hq0 := hreach.ne_zero hq hsuf hne
    have hqs := hslot.of_suffix hq hsuf
    rw [hgrown.zoneAt hl ht hslot hqs hq0]
    exact ⟨(ht.zone q hqs hq0).1, (ht.zone q hqs hq0).ne_free hz.1⟩

omit hb hblocks in
/-- **A new index block** is a free zone with what is in it. -/
theorem link_node {p' : List ℕ} (hsuf : p' <:+ p) (hnode : IsNode p') (hreach : Reached s dev nr p')
    (hempty : s.zoneAt dev nr p' = 0) (hex : ∃ z, ZoneFree s dev z) :
    ∃ z₁ s₁, FirstFree s dev z₁ ∧ bmapPath s dev nr true p' = some (z₁, s₁) ∧
      Takes s s₁ dev (s.slotPlace dev nr p').1 (s.slotPlace dev nr p').2 z₁ ∧ Grown s s₁ dev nr p ∧
      s₁.zoneAt dev nr p' = z₁ ∧ ∀ y o, ZoneFree s dev y → s₁.blk dev y o = s.blk dev y o := by
  have hp' := hnode.isSlot
  obtain ⟨z₁, hz₁, hrun₁⟩ := bmapPath_of_empty hl ht.nodes hzero hex p' hp' hreach hempty
  have htakes : Takes s (s.link dev nr p' z₁) dev (s.slotPlace dev nr p').1 (s.slotPlace dev nr p').2 z₁ :=
    takes_takeZone hl hz₁.1 (zmap_ne_slotPlace hl ht.nodes hp' hreach) (slotPlace_ne_one hl ht.nodes hp' hreach)
  refine ⟨z₁, _, hz₁, hrun₁, htakes, htakes.grown hp'.ne_nil hsuf hempty hreach, ?_, fun y o hy => ?_⟩
  · rw [zoneAt_link hl ht.nodes hp' hreach hz₁.1.lt _ hp' fun l hne hc => hne (List.self_eq_append_left.mp hc), if_pos rfl]
  · refine htakes.blk y o (hl.zmap_ne_zone hy.1) fun hc => ?_
    have hib := hl.inodeBlock_bounds ht.inode
    have hlo := hy.1
    rcases slotPlace_cases ht.nodes hp' hreach with ⟨r, -, -, heq⟩ | ⟨j, i, l, -, -, -, hdata, heq⟩
    · rw [heq] at hc
      dsimp only at hc
      omega
    · rw [heq] at hc
      exact absurd hc (hdata.ne_free hy).symm

/-- The index block of the slot is a new one. -/
theorem mapped_of_node {p' : List ℕ} (hslot : bmapSlot b = k :: p') (hnode : IsNode p') (hreach : Reached s dev nr p')
    (hempty : s.zoneAt dev nr p' = 0) (hcard : 2 ≤ (freeZones s dev).card)
    (hsafe : ∀ z, FirstFree s dev z → NoHarm s dev nr b [z] (s.zoneEntry dev z k)) :
    ∃ z t, bmapPath s dev nr true (bmapSlot b) = some (z, t) ∧ z ≠ 0 ∧ Mapped s t dev nr b z := by
  have hp := isSlot_bmapSlot hb
  have hsuf : p' <:+ bmapSlot b := hslot ▸ List.suffix_cons k p'
  have hp' := hnode.isSlot
  obtain ⟨y, hy⟩ := Finset.card_pos.mp (Nat.lt_of_lt_of_le Nat.two_pos hcard)
  obtain ⟨z₁, s₁, hz₁, hrun₁, htakes, hgrown, hself, hblk₁⟩ :=
    link_node hl ht hzero hsuf hnode hreach hempty ⟨y, mem_freeZones.mp hy⟩
  have hword : (s₁.blk dev z₁).getU16 (0 + 2 * k) = s.zoneEntry dev z₁ k := by
    rw [Nat.zero_add]
    exact getU16_congr (hblk₁ _ _ hz₁.1) (hblk₁ _ _ hz₁.1)
  have hex : ∃ y, ZoneFree s₁ dev y := by
    obtain ⟨y, hy, hne⟩ := Finset.exists_mem_ne (Nat.lt_of_succ_le hcard) z₁
    exact ⟨y, (htakes.free hz₁.1).mpr ⟨mem_freeZones.mp hy, hne⟩⟩
  obtain ⟨z, t, hrun, hnz, ht', hdesc, hz, hkeep, hwhich⟩ :=
    hgrown.last hl ht hp hz₁.1 hword (htakes.zero hzero) hex
  have hpath : bmapPath s dev nr true (k :: p') = some (z, t) := by
    obtain ⟨i, l, rfl⟩ := List.exists_cons_of_ne_nil hp'.ne_nil
    rw [bmapPath, hrun₁]
    simp only [Option.bind_eq_bind, Option.bind_some]
    rw [if_neg (hz₁.1.pos hl)]
    exact hrun
  have hnodeAt : t.zoneAt dev nr p' = z₁ :=
    (zoneAt_keep hl ht hp hp' hreach hgrown hz₁.1 hdesc hkeep).trans hself
  have hharm : ZoneFree s dev z ∨ (s.superDesc dev).firstdatazone ≤ z ∧ ¬Own s dev nr (b + 1) z := by
    rcases hwhich with heq | ⟨-, hfree⟩
    · obtain hc | ⟨hle, -, hown⟩ := heq ▸ hsafe z₁ hz₁
      · exact absurd hc hnz
      · exact Or.inr ⟨hle, hown⟩
    · exact Or.inl ((htakes.free hz₁.1).mp hfree).1
  have hnew : z ≠ z₁ := by
    rcases hwhich with heq | ⟨-, hfree⟩
    · obtain hc | ⟨-, hmem, -⟩ := heq ▸ hsafe z₁ hz₁
      · exact absurd hc hnz
      · exact fun hc => hmem (List.mem_singleton.mpr hc)
    · exact ((htakes.free hz₁.1).mp hfree).2
  refine ⟨z, t, hslot ▸ hpath, hnz, ht', ?_, ?_, fun q hq hsufq hne => ?_, ?_⟩
  · rw [hslot]
    obtain ⟨i, l, rfl⟩ := List.exists_cons_of_ne_nil hp'.ne_nil
    rw [zoneAt_cons (by rw [hnodeAt]; exact hz₁.1.pos hl), hnodeAt]
    exact hz
  · exact hharm.elim (fun h => h.1) And.left
  · rw [hslot] at hsufq hne
    have hq' : q <:+ p' := (List.suffix_cons_iff.mp hsufq).resolve_left hne
    by_cases hqp : q = p'
    · rw [hqp, hnodeAt]
      exact ⟨hz₁.1.1, hnew.symm⟩
    · have hq0 := hreach.ne_zero hq hq' hqp
      have hqs := hp'.of_suffix hq hq'
      rw [ht'.zoneAt hl ht hp hqs hq0]
      refine ⟨(ht.zone q hqs hq0).1, fun hc => ?_⟩
      rcases hharm with hfree | ⟨-, hown⟩
      · exact (ht.zone q hqs hq0).ne_free hfree hc
      · exact hown ⟨b, Nat.lt_succ_self b, q, hq, hq'.trans hsuf, hc⟩
  · exact hharm.elim (not_own_of_free ht hb hblocks) fun h => not_own_of_succ h.2

/-- Both index blocks of the slot are new ones. -/
theorem mapped_of_double {j : ℕ} (hslot : bmapSlot b = [k, j, 8]) (hempty : s.zoneAt dev nr [8] = 0)
    (hcard : 3 ≤ (freeZones s dev).card)
    (hsafe : ∀ z, FirstFree s dev z → s.zoneEntry dev z j = 0 ∧
      ∀ z', SecondFree s dev z' → NoHarm s dev nr b [z, z'] (s.zoneEntry dev z' k)) :
    ∃ z t, bmapPath s dev nr true (bmapSlot b) = some (z, t) ∧ z ≠ 0 ∧ Mapped s t dev nr b z := by
  have hp := isSlot_bmapSlot hb
  have hroot : IsSlot [8] := IsNode.double.isSlot
  have hreach : Reached s dev nr [8] := reached_root 8
  have hsuf : [8] <:+ bmapSlot b := by
    rw [hslot]
    exact (List.suffix_cons j [8]).trans (List.suffix_cons k _)
  have hib := hl.inodeBlock_bounds ht.inode
  obtain ⟨y, hy⟩ := Finset.card_pos.mp (Nat.lt_of_lt_of_le (Nat.succ_pos 2) hcard)
  obtain ⟨z₁, s₁, hz₁, hrun₁, htakes, hgrown₁, hself₁, hblk₁⟩ :=
    link_node hl ht hzero hsuf .double hreach hempty ⟨y, mem_freeZones.mp hy⟩
  have hother : ∀ x, ∃ y, ZoneFree s dev y ∧ y ≠ z₁ ∧ y ≠ x := by
    intro x
    obtain ⟨y, hy⟩ : (((freeZones s dev).erase z₁).erase x).Nonempty := by
      refine Finset.card_pos.mp ?_
      have h1 := Finset.pred_card_le_card_erase (s := freeZones s dev) (a := z₁)
      have h2 := Finset.pred_card_le_card_erase (s := (freeZones s dev).erase z₁) (a := x)
      omega
    obtain ⟨hyx, hy⟩ := Finset.mem_erase.mp hy
    obtain ⟨hyz, hy⟩ := Finset.mem_erase.mp hy
    exact ⟨y, mem_freeZones.mp hy, hyz, hyx⟩
  obtain ⟨hj, hsecond⟩ := hsafe z₁ hz₁
  obtain ⟨-, hdesc₁, hzmaps₁⟩ := hgrown₁.layout hl ht hp
  -- the second index block goes into the empty word of the first
  obtain ⟨z₂, s₂, hz₂, hrun₂, htakes₂⟩ : ∃ z₂ s₂, FirstFree s₁ dev z₂ ∧ bmapEntry s₁ dev z₁ 0 j true = some (z₂, s₂) ∧
      Takes s₁ s₂ dev z₁ (0 + 2 * j) z₂ := bmapEntry_takes htakes.layout (htakes.zero hzero) (by
      obtain ⟨y, hy, hyz, -⟩ := hother 0
      exact ⟨y, (htakes.free hz₁.1).mpr ⟨hy, hyz⟩⟩)
    (fun i => hzmaps₁ ▸ hl.zmap_ne_zone hz₁.1.1 i) (by have h1 := hz₁.1.1; omega)
    ((getU16_congr (hblk₁ _ _ hz₁.1) (hblk₁ _ _ hz₁.1)).trans (by rw [Nat.zero_add]; exact hj))
  obtain ⟨hfree₂, hne₂⟩ := (htakes.free hz₁.1).mp hz₂.1
  have hsf : SecondFree s dev z₂ := ⟨hfree₂, z₁, hz₁, hne₂, fun y hy hyz => hz₂.2 y ((htakes.free hz₁.1).mpr ⟨hy, hyz⟩)⟩
  have hgrown₂ : Grown s s₂ dev nr (bmapSlot b) := hgrown₁.takes hzmaps₁ htakes₂ hz₁.1
  have hdesc₂ : s₂.superDesc dev = s.superDesc dev := htakes₂.desc.trans hdesc₁
  have hzone₂ : s₂.zoneAt dev nr [8] = z₁ := by
    refine (zoneAt_keep hl ht hp hroot hreach hgrown₁ hz₁.1 hdesc₂ fun y o hy hne => ?_).trans hself₁
    exact htakes₂.blk y o (hzmaps₁ ▸ hy) fun hc => absurd hc hne
  have hword₂ : (s₂.blk dev z₂).getU16 (0 + 2 * k) = s.zoneEntry dev z₂ k := by
    have hsame : ∀ o, s₂.blk dev z₂ o = s.blk dev z₂ o := fun o =>
      (htakes₂.blk _ _ (hzmaps₁ ▸ hl.zmap_ne_zone hfree₂.1) fun hc => absurd hc hne₂).trans (hblk₁ _ _ hfree₂)
    rw [Nat.zero_add]
    exact getU16_congr (hsame _) (hsame _)
  have hex₂ : ∃ y, ZoneFree s₂ dev y := by
    obtain ⟨y, hy, hyz, hy₂⟩ := hother z₂
    exact ⟨y, (htakes₂.free hz₂.1).mpr ⟨(htakes.free hz₁.1).mpr ⟨hy, hyz⟩, hy₂⟩⟩
  obtain ⟨z, t, hrun, hnz, ht', hdesc, hz, hkeep, hwhich⟩ :=
    hgrown₂.last hl ht hp hfree₂ hword₂ (htakes₂.zero (htakes.zero hzero)) hex₂
  have hnz₁ := hz₁.1.pos hl
  have hnz₂ := hfree₂.pos hl
  have hpath : bmapPath s dev nr true [k, j, 8] = some (z, t) := by
    rw [bmapPath, bmapPath, hrun₁]
    simp only [Option.bind_eq_bind, Option.bind_some]
    rw [if_neg hnz₁, hrun₂]
    simp only [Option.bind_some]
    rw [if_neg hnz₂]
    exact hrun
  have hzone : t.zoneAt dev nr [8] = z₁ :=
    (zoneAt_keep hl ht hp hroot hreach hgrown₂ hfree₂ hdesc hkeep).trans hzone₂
  have hzone' : t.zoneAt dev nr [j, 8] = z₂ := by
    have hsame : ∀ o, t.blk dev z₁ o = s₂.blk dev z₁ o := fun o =>
      hkeep z₁ o (hl.zmap_ne_zone hz₁.1.1) (Ne.symm hne₂)
    rw [zoneAt_cons (by rwa [hzone]), hzone, ← htakes₂.word, Nat.zero_add]
    exact getU16_congr (hsame _) (hsame _)
  have hharm : z ∉ [z₁, z₂] ∧ (ZoneFree s dev z ∨ (s.superDesc dev).firstdatazone ≤ z ∧ ¬Own s dev nr (b + 1) z) := by
    rcases hwhich with heq | ⟨-, hfree⟩
    · obtain hc | ⟨hle, hnew, hown⟩ := heq ▸ hsecond z₂ hsf
      · exact absurd hc hnz
      · exact ⟨hnew, Or.inr ⟨hle, hown⟩⟩
    · obtain ⟨hfree₁, hne⟩ := (htakes₂.free hz₂.1).mp hfree
      obtain ⟨hfree₀, hne'⟩ := (htakes.free hz₁.1).mp hfree₁
      exact ⟨by simp [hne, hne'], Or.inl hfree₀⟩
  obtain ⟨hnew, hharm⟩ := hharm
  simp only [List.mem_cons, List.not_mem_nil, or_false, not_or] at hnew
  refine ⟨z, t, hslot ▸ hpath, hnz, ht', ?_, ?_, fun q hq hsufq hne => ?_, ?_⟩
  · rw [hslot, zoneAt_cons (by rwa [hzone']), hzone']
    exact hz
  · exact hharm.elim (fun h => h.1) And.left
  · rw [hslot] at hsufq hne
    rcases List.suffix_cons_iff.mp ((List.suffix_cons_iff.mp hsufq).resolve_left hne) with rfl | hq'
    · rw [hzone']
      exact ⟨hfree₂.1, Ne.symm hnew.2⟩
    · obtain rfl := (List.suffix_cons_iff.mp hq').resolve_right fun hc => hq (List.suffix_nil.mp hc)
      rw [hzone]
      exact ⟨hz₁.1.1, Ne.symm hnew.1⟩
  · exact hharm.elim (not_own_of_free ht hb hblocks) fun h => not_own_of_succ h.2

/-- **`bmap` for the block behind the last one** returns a zone that the blocks in front of it do not use, if what is
in the index blocks it creates does no harm. -/
theorem bmap_mapped {i : ℕ} (hh : s.Holds dev nr i) (henough : Enough s dev nr (slotPath (bmapSlot b)))
    (hsafe : SafeIndex s dev nr b (bmapSlot b)) :
    ∃ z t, bmap s i b true = some (z, t) ∧ z ≠ 0 ∧ Mapped s t dev nr b z := by
  rw [bmap_eq_path hh hb]
  have hp := isSlot_bmapSlot hb
  by_cases hne : s.zoneAt dev nr (bmapSlot b) ≠ 0
  · exact ⟨_, s, bmapPath_of_ne true _ hp hne, hne, mapped_of_ne ht hb hne⟩
  have hempty : s.zoneAt dev nr (bmapSlot b) = 0 := not_not.mp hne
  by_cases hreach : Reached s dev nr (bmapSlot b)
  · refine mapped_of_reached hl ht hzero hb hblocks hreach hempty ?_
    have hcard := henough.card_le {bmapSlot b} fun q hq => by
      rw [Finset.mem_singleton.mp hq]
      exact ⟨hp.ne_nil, List.suffix_rfl, hempty⟩
    rw [Finset.card_singleton] at hcard
    obtain ⟨z, hz⟩ := Finset.card_pos.mp hcard
    exact ⟨z, mem_freeZones.mp hz⟩
  generalize hslot : bmapSlot b = p at hp hempty hreach hsafe henough
  cases hp with
  | root hr => exact absurd (reached_root _) hreach
  | middle hj => exact absurd (hslot ▸ .middle hj) (not_isNode_bmapSlot b)
  | @single j hj =>
    have h7 : s.zoneAt dev nr [7] = 0 := by
      by_contra h7
      exact hreach (reached_cons h7)
    have hcard := henough.card_le {[7], [j, 7]} fun q hq => by
      rcases Finset.mem_insert.mp hq with rfl | hq
      · exact ⟨by simp, List.suffix_cons j [7], h7⟩
      · rw [Finset.mem_singleton.mp hq]
        exact ⟨by simp, List.suffix_rfl, hempty⟩
    rw [Finset.card_pair (by simp)] at hcard
    exact hslot ▸ mapped_of_node hl ht hzero hb hblocks hslot .single (reached_root 7) h7 hcard (hsafe h7)
  | @double k j hk hj =>
    by_cases h8 : s.zoneAt dev nr [8] = 0
    · have hj0 : s.zoneAt dev nr [j, 8] = 0 := zoneAt_cons_of_null h8
      have hcard := henough.card_le {[8], [j, 8], [k, j, 8]} fun q hq => by
        rcases Finset.mem_insert.mp hq with rfl | hq
        · exact ⟨by simp, (List.suffix_cons j [8]).trans (List.suffix_cons k _), h8⟩
        · rcases Finset.mem_insert.mp hq with rfl | hq
          · exact ⟨by simp, List.suffix_cons k _, hj0⟩
          · rw [Finset.mem_singleton.mp hq]
            exact ⟨by simp, List.suffix_rfl, hempty⟩
      rw [Finset.card_insert_of_notMem (by simp), Finset.card_pair (by simp)] at hcard
      exact hslot ▸ mapped_of_double hl ht hzero hb hblocks hslot h8 hcard (hsafe.2 h8)
    · have hj0 : s.zoneAt dev nr [j, 8] = 0 := by
        by_contra hj0
        exact hreach (reached_cons hj0)
      have hcard := henough.card_le {[j, 8], [k, j, 8]} fun q hq => by
        rcases Finset.mem_insert.mp hq with rfl | hq
        · exact ⟨by simp, List.suffix_cons k _, hj0⟩
        · rw [Finset.mem_singleton.mp hq]
          exact ⟨by simp, List.suffix_rfl, hempty⟩
      rw [Finset.card_pair (by simp)] at hcard
      exact hslot ▸ mapped_of_node hl ht hzero hb hblocks hslot (.middle hj) (reached_cons h8) hj0 hcard (hsafe.1 h8 hj0)

end Mapped

end Onixs
