import Onixs.Common.Served
import Onixs.Fs.ReadWrite

/-!
# What nobody has written

The bytes of a file that no write has covered. They lie between the old end of the file and the offset of a write, and
what is there is what the zones had before, as `balloc` clears none of them; a block between the two that is not
mapped cannot be read at all. `Onixs.FillsGap` says when neither happens: which zone goes where is known before the
write, as `balloc` takes the first free one (`Onixs.Supplied`).
-/

namespace Onixs

open Bytes

/-! ### The zones a write takes -/

/-- The free zones, in order. -/
def freeList (s : Fs) (dev : ℕ) : List ℕ := (List.range (s.superDesc dev).zones).filter fun z => ZoneFree s dev z

section FreeList

variable {s t : Fs} {dev nr z : ℕ} {zs : List ℕ} {p : List ℕ}

theorem mem_freeList : z ∈ freeList s dev ↔ ZoneFree s dev z := by
  rw [freeList, List.mem_filter, List.mem_range, decide_eq_true_eq]
  exact ⟨fun h => h.2, fun h => ⟨h.2.1, h⟩⟩

theorem freeList_sorted (s : Fs) (dev : ℕ) : (freeList s dev).Pairwise (· < ·) :=
  List.pairwise_lt_range.filter _

/-- The first of them is the one that `balloc` takes. -/
theorem FirstFree.eq_head (h : FirstFree s dev z) {y : ℕ} (hlist : freeList s dev = y :: zs) : y = z := by
  have hy : FirstFree s dev y := by
    refine ⟨mem_freeList.mp (hlist ▸ List.mem_cons_self), fun x hx => ?_⟩
    rcases List.mem_cons.mp (hlist ▸ mem_freeList.mpr hx) with rfl | hmem
    · exact le_refl _
    · exact ((List.pairwise_cons.mp (hlist ▸ freeList_sorted s dev)).1 x hmem).le
  exact hy.unique h

/-- It is the only one that a link takes. -/
theorem freeList_link (hl : Layout s dev) (ht : TreeAt s dev nr) (hp : IsSlot p) (hreach : Reached s dev nr p)
    (hz : ZoneFree s dev z) (hlist : freeList s dev = z :: zs) : freeList (s.link dev nr p z) dev = zs := by
  have hdesc := (layout_link (z := z) hl ht.nodes hp hreach).2.1
  have hfree : ∀ y, ZoneFree (s.link dev nr p z) dev y ↔ y ≠ z ∧ ZoneFree s dev y := fun y => by
    rw [← mem_freeZones, freeZones_link hl ht hp hreach hz, Finset.mem_erase, mem_freeZones]
  have hne : ∀ y ∈ zs, y ≠ z := fun y hy =>
    ((List.pairwise_cons.mp (hlist ▸ freeList_sorted s dev)).1 y hy).ne'
  calc freeList (s.link dev nr p z) dev
      = (freeList s dev).filter fun y => decide (y ≠ z) := by
        rw [freeList, freeList, hdesc, List.filter_filter]
        exact List.filter_congr fun y _ => by simp only [hfree, Bool.decide_and]
    _ = zs.filter fun y => decide (y ≠ z) := by
        rw [hlist, List.filter_cons_of_neg (by simp)]
    _ = zs := List.filter_eq_self.mpr fun y hy => decide_eq_true (hne y hy)

end FreeList

/-- **The slots `ps` can be filled** with the first free zones: each of them gets one for which `P` holds, and those
that become index blocks read as empty ones. -/
structure Supplied (P : List ℕ → ℕ → Prop) (s : Fs) (dev nr : ℕ) (ps : List (List ℕ)) : Prop where
  /-- The blocks are in order. -/
  layout : Layout s dev
  /-- The tree is well formed. -/
  tree : TreeAt s dev nr
  /-- Position 0 stands for no zone. -/
  zero : s.zbit dev 0 = true
  /-- They are slots. -/
  slots : ∀ q ∈ ps, IsSlot q
  /-- What `P` says of an index block. -/
  blank : ∀ p z, IsNode p → ZoneFree s dev z → P p z → Blank s dev z
  /-- There are zones for all of them. -/
  served : Served P (fun p => s.zoneAt dev nr p ≠ 0) ps (freeList s dev)

/-- **A link serves the first of the slots.** -/
theorem supply_supplied (P : List ℕ → ℕ → Prop) (dev nr : ℕ) :
    Supply dev nr (fun ps s => Supplied P s dev nr ps) P where
  layout h := h.layout
  tree h := h.tree
  zero h := h.zero
  slots h := h.slots
  pass h hne :=
    ⟨h.layout, h.tree, h.zero, fun q hq => h.slots q (List.mem_cons_of_mem _ hq), h.blank, h.served.of_has hne⟩
  free h hempty := by
    obtain ⟨z, zs, hlist, -⟩ := h.served.of_not (not_not.mpr hempty)
    exact ⟨z, mem_freeList.mp (hlist ▸ List.mem_cons_self)⟩
  blank h hempty hz := by
    obtain ⟨y, zs, hlist, hP, -⟩ := h.served.of_not (not_not.mpr hempty)
    obtain rfl := hz.eq_head hlist
    exact ⟨hP, fun hnode => h.blank _ _ hnode hz.1 hP⟩
  link {p ps s z} h hreach hempty hz := by
    obtain ⟨y, zs, hlist, hP, hrest⟩ := h.served.of_not (not_not.mpr hempty)
    obtain rfl := hz.eq_head hlist
    have hslot := h.slots p List.mem_cons_self
    have hblank : IsNode p → Blank s dev y := fun hnode => h.blank p y hnode hz.1 hP
    have hgrows := grows_link h.layout h.tree hslot hreach hz.1 hempty hblank
    have htree := treeAt_link h.layout h.tree hslot hreach hz.1 hempty hblank
    refine ⟨(hgrows.layout h.layout h.tree.inode).1, htree, (hgrows.bits 0).mpr (Or.inl h.zero),
      fun q hq => h.slots q (List.mem_cons_of_mem _ hq), fun q x hnode hx hPx j hj => ?_, ?_⟩
    · have hfree := hgrows.free h.layout h.tree.inode hx
      rw [Fs.zoneEntry, hgrows.blk_of_free h.layout htree hfree hx]
      exact h.blank q x hnode hfree hPx j hj
    · rw [freeList_link h.layout h.tree hslot hreach hz.1 hlist]
      refine hrest.congr fun q hq => ?_
      rw [zoneAt_link_blank h.layout h.tree hslot hreach hz.1 hempty hblank (h.slots q (List.mem_cons_of_mem _ hq))]
      by_cases hqp : q = p
      · rw [if_pos hqp]
        exact iff_of_true (Or.inl hqp) (hz.1.pos h.layout)
      · rw [if_neg hqp]
        exact or_iff_right hqp
  same {ps s t} h hsame := by
    refine ⟨hsame.layout, hsame.treeAt h.tree, (hsame.zbit 0).trans h.zero, h.slots, fun q x hnode hx hPx => ?_, ?_⟩
    · exact hsame.blank (hsame.free.mp hx) (h.blank q x hnode (hsame.free.mp hx) hPx)
    · have hlist : freeList t dev = freeList s dev := by
        rw [freeList, freeList, hsame.desc]
        exact List.filter_congr fun y _ => by simp only [hsame.free]
      rw [hlist]
      exact h.served.congr fun q hq => by rw [hsame.tree q (h.slots q hq)]

/-! ### Writing behind the end -/

/-- **A zone that may go into slot `p`** in a write at `offset`, when the file ends at `size`: an index block has no
entries, and the first block of the write has zeros from the end of the file to `offset`. -/
def GapZone (s : Fs) (dev size offset : ℕ) (p : List ℕ) (z : ℕ) : Prop :=
  (IsNode p → Blank s dev z) ∧
    (p = bmapSlot (offset / 1024) →
      ∀ o, size ≤ o → o < offset → o / 1024 = offset / 1024 → s.blk dev z (o % 1024) = 0#8)

/-- **A write of `len` bytes at `offset` leaves no gap** but zeros. -/
structure FillsGap (s : Fs) (dev nr size offset len : ℕ) : Prop where
  /-- It ends in the largest file. -/
  fit : offset + len ≤ totalBlock * blockSize
  /-- There are zones for it. -/
  zones : Served (GapZone s dev size offset) (fun p => s.zoneAt dev nr p ≠ 0) (neededSlots offset len) (freeList s dev)
  /-- What is mapped behind the end has zeros. -/
  mapped : len ≠ 0 → ∀ o, size ≤ o → o < offset → s.HasBlock dev nr (o / 1024) → s.fileByte dev nr o = 0#8
  /-- What is not is in the block where the write begins. -/
  hole : len ≠ 0 → ∀ o, size ≤ o → o < offset → ¬s.HasBlock dev nr (o / 1024) → o / 1024 = offset / 1024

/-- **Entry `i` is a regular file in order.** -/
structure Regular (s : Fs) (dev nr i : ℕ) : Prop where
  /-- The blocks are in order. -/
  layout : Layout s dev
  /-- The tree is well formed. -/
  tree : TreeAt s dev nr
  /-- Position 0 stands for no zone. -/
  zero : s.zbit dev 0 = true
  /-- The inode is loaded. -/
  holds : s.Holds dev nr i
  /-- It is a regular file. -/
  isFile : isFile (s.inodeDesc i).mode = true

/-- **All of the file is there**, and what is not in `C` is zero. -/
structure Zeroed (s : Fs) (dev nr i : ℕ) (C : ℕ → Prop) : Prop where
  /-- The file is not too large. -/
  fit : (s.inodeDesc i).size ≤ totalBlock * blockSize
  /-- Its blocks are mapped. -/
  block : ∀ o < (s.inodeDesc i).size, s.HasBlock dev nr (o / 1024)
  /-- Its bytes. -/
  byte : ∀ o < (s.inodeDesc i).size, ¬C o → s.fileByte dev nr o = 0#8

section Write

variable {s t : Fs} {dev nr i len offset : ℕ} {F C : ℕ → Prop}

theorem Regular.owned (h : Regular s dev nr i) (hapart : ∀ nr', F nr' → nr' ≠ nr → Apart s dev nr nr') :
    Owned s dev nr i F := ⟨h.layout, h.tree, h.holds, hapart⟩

theorem FillsGap.supplied (h : Regular s dev nr i) {size : ℕ} (hfill : FillsGap s dev nr size offset len) :
    Supplied (GapZone s dev size offset) s dev nr (neededSlots offset len) := by
  refine ⟨h.layout, h.tree, h.zero, fun q hq => ?_, fun p z hnode _ hz => hz.1 hnode, hfill.zones⟩
  have hfit := hfill.fit
  rw [totalBlock_eq, blockSize_eq] at hfit
  obtain ⟨o, hlo, hhi, hq⟩ := mem_neededSlots hq
  obtain ⟨hne, l, hl⟩ := mem_slotPath.mp hq
  have hslot := isSlot_bmapSlot (b := o / 1024) (by omega)
  rw [← hl] at hslot
  exact hslot.suffix hne l

/-- **A write that leaves no gap** keeps zeros where nobody has written. -/
theorem Zeroed.inodeWrite (hs : Zeroed s dev nr i C) (h : Regular s dev nr i)
    (hapart : ∀ nr', F nr' → nr' ≠ nr → Apart s dev nr nr')
    (hfill : FillsGap s dev nr (s.inodeDesc i).size offset len) (buf : Bytes) :
    ∃ t, Onixs.inodeWrite s i buf len offset = some (len, t) ∧ Regular t dev nr i ∧
      (∀ nr', F nr' → nr' ≠ nr → Apart t dev nr nr' ∧ SameFile s t dev nr') ∧ OnDevice s t dev ∧
      Zeroed t dev nr i fun o => C o ∨ offset ≤ o ∧ o < offset + len := by
  have hfit := hfill.fit
  have hfit' := hs.fit
  rw [totalBlock_eq, blockSize_eq] at hfit hfit'
  obtain ⟨t, hrun, hot, hdevice, -, hwrote, hfirst⟩ := (supply_supplied _ dev nr).inodeWrite (h.owned hapart) buf
    (hfill.supplied h) h.isFile (by omega)
  have hsize := hwrote.size
  -- a byte of the file was there, or is written now, or lies in the gap
  have hwhere : ∀ o < (t.inodeDesc i).size, o < (s.inodeDesc i).size ∨ (offset ≤ o ∧ o < offset + len) ∨
      (s.inodeDesc i).size ≤ o ∧ o < offset ∧ len ≠ 0 := by
    intro o ho
    rw [hsize] at ho
    split at ho <;> omega
  have hold : ∀ o < (s.inodeDesc i).size, s.HasBlock dev nr (o / 1024) := hs.block
  refine ⟨t, hrun, ⟨hot.layout, hot.tree, hdevice.zbit 0 h.zero, hot.holds, by rw [hwrote.mode]; exact h.isFile⟩,
    fun nr' hF hne => ⟨hot.apart nr' hF hne, hwrote.other nr' hF hne⟩, hdevice, ?_, fun o ho => ?_, fun o ho hC => ?_⟩
  · rw [totalBlock_eq, blockSize_eq, hsize]
    split <;> omega
  · refine hwrote.block _ (by rw [hsize] at ho; split at ho <;> omega) ?_
    rcases hwhere o ho with hin | hrange | ⟨hlo, hhi, hlen⟩
    · exact Or.inl (hold o hin)
    · exact Or.inr ⟨o, hrange.1, hrange.2, rfl⟩
    · by_cases hblock : s.HasBlock dev nr (o / 1024)
      · exact Or.inl hblock
      · exact Or.inr ⟨offset, le_refl _, by omega, (hfill.hole hlen o hlo hhi hblock).symm⟩
  · have hb : o / 1024 < 262663 := by rw [hsize] at ho; split at ho <;> omega
    obtain ⟨hC, hout⟩ := not_or.mp hC
    rcases hwhere o ho with hin | hrange | ⟨hlo, hhi, hlen⟩
    · rw [hwrote.byte o hb (Or.inl (hold o hin)), if_neg hout]
      exact hs.byte o hin hC
    · exact absurd hrange hout
    · by_cases hblock : s.HasBlock dev nr (o / 1024)
      · rw [hwrote.byte o hb (Or.inl hblock), if_neg hout]
        exact hfill.mapped hlen o hlo hhi hblock
      · have hsame := hfill.hole hlen o hlo hhi hblock
        rcases hfirst hlen with hhas | ⟨z, hz, hkeep⟩
        · exact absurd (hsame ▸ hhas) hblock
        · rw [hkeep o hsame hout]
          exact hz.2 rfl o hlo hhi hsame

/-- **A read comes back**, and in front of the end it returns the bytes of the file. -/
theorem Zeroed.inodeRead (hs : Zeroed s dev nr i C) (h : Regular s dev nr i) (buf : Bytes) (len offset : ℕ) :
    ∃ n out t, Onixs.inodeRead s i buf len offset = some (n, out, t) ∧ (t = s ∨ t = s.setAtime i s.time) ∧
      (offset < (s.inodeDesc i).size → n = min len ((s.inodeDesc i).size - offset) ∧
        ∀ k < n, out k = s.fileByte dev nr (offset + k)) := by
  have hfit := hs.fit
  rw [totalBlock_eq, blockSize_eq] at hfit
  rw [Onixs.inodeRead, assert_pos (by rw [h.isFile, Bool.true_or])]
  simp only [Option.bind_eq_bind, Option.bind_some, Option.pure_def]
  by_cases hend : (s.inodeDesc i).size ≤ offset
  · rw [if_pos hend]
    exact ⟨EOF, buf, s, rfl, Or.inl rfl, fun hc => absurd hc (Nat.not_lt.mpr hend)⟩
  · obtain ⟨out, hrun, hout⟩ := inodeReadLoop_spec h.holds (min len ((s.inodeDesc i).size - offset)) buf 0 offset
      (by omega) fun o _ ho => hs.block o (by omega)
    rw [if_neg hend, hrun]
    simp only [Option.bind_some]
    refine ⟨_, out, _, rfl, Or.inr rfl, fun _ => ?_⟩
    rw [sub32_of_le (by omega) (Nat.le_add_right _ _), Nat.add_sub_cancel_left]
    refine ⟨rfl, fun k hk => ?_⟩
    rw [hout k, if_pos ⟨Nat.zero_le k, by omega⟩, Nat.sub_zero]

end Write

/-! ### Several files -/

/-- **The entries `I` are regular files**, in order and apart from each other: entry `i` is the inode of number
`(place i).2` of device `(place i).1`. -/
structure RegularFiles (s : Fs) (place : ℕ → ℕ × ℕ) (I : ℕ → Prop) : Prop where
  /-- The files. -/
  regular : ∀ i, I i → Regular s (place i).1 (place i).2 i
  /-- No two of them have a zone in common. -/
  apart : ∀ i, I i → ∀ j, I j → j ≠ i → (place j).1 = (place i).1 → (place j).2 ≠ (place i).2 ∧
    Apart s (place i).1 (place i).2 (place j).2

section Files

variable {s t : Fs} {place : ℕ → ℕ × ℕ} {I : ℕ → Prop} {dev dev' nr nr' i j : ℕ} {C : ℕ → Prop}

/-- **Another device** is the same. -/
theorem OnDevice.elsewhere (h : OnDevice s t dev) (hl : Layout s dev') (hne : dev' ≠ dev) :
    Layout t dev' ∧ (∀ g, t.zbit dev' g = s.zbit dev' g) ∧ ∀ nr, SameFile s t dev' nr := by
  obtain ⟨hlt, hdesc, hzmaps⟩ := hl.of_same h.superTable (h.other dev' 1 hne)
  refine ⟨hlt, fun g => ?_, fun nr => ⟨fun o _ => ?_, ?_, fun p _ _ => h.other dev' _ hne, hdesc⟩⟩
  · rw [Fs.zbit, Fs.zbit, hzmaps, Fs.mapBit, Fs.mapBit]
    simp only [h.other dev' _ hne]
  · rw [h.other dev' _ hne]
  · refine zoneAt_congr hdesc (fun o _ _ => ?_) fun p _ _ => h.other dev' _ hne
    rw [h.other dev' _ hne]

/-- A file that is the same stays in order. -/
theorem Regular.of_same (h : Regular s dev nr i) (hl : Layout t dev) (hsame : SameFile s t dev nr)
    (hdev : OnDevice s t dev') (hzbit : ∀ g, s.zbit dev g = true → t.zbit dev g = true) : Regular t dev nr i := by
  have hholds := h.holds.onDevice hdev hsame.super
  refine ⟨hl, ⟨?_, fun p hp hnz => ?_, fun p q hp hq hnz heq => ?_⟩, hzbit 0 h.zero, hholds, ?_⟩
  · rw [hsame.super]
    exact h.tree.inode
  · rw [hsame.tree p hp] at hnz ⊢
    obtain ⟨hlo, hhi, hbit⟩ := h.tree.zone p hp hnz
    rw [DataZone, hsame.super]
    exact ⟨hlo, hhi, hzbit _ hbit⟩
  · rw [hsame.tree p hp] at hnz heq
    rw [hsame.tree q hq] at heq
    exact h.tree.inj p q hp hq hnz heq
  · rw [(inodeDesc_congr h.holds hholds hsame.super fun o ho => hsame.desc o (by omega)).1]
    exact h.isFile

/-- It has the same in it. -/
theorem Zeroed.of_same (hs : Zeroed s dev nr i C) (h : Regular s dev nr i) (h' : Regular t dev nr i)
    (hsame : SameFile s t dev nr) : Zeroed t dev nr i C := by
  have hsize := (inodeDesc_congr h.holds h'.holds hsame.super fun o ho => hsame.desc o (by omega)).2
  have hfit := hs.fit
  rw [totalBlock_eq, blockSize_eq] at hfit
  refine ⟨hsize ▸ hs.fit, fun o ho => ?_, fun o ho hC => ?_⟩
  · rw [hsize] at ho
    rw [Fs.HasBlock, hsame.tree _ (isSlot_bmapSlot (by omega))]
    exact hs.block o ho
  · rw [hsize] at ho
    have hslot := isSlot_bmapSlot (b := o / 1024) (by omega)
    rw [Fs.fileByte, hsame.tree _ hslot, hsame.data _ hslot (hs.block o ho)]
    exact hs.byte o ho hC

/-- The other files of the device of entry `i`. -/
def Beside (place : ℕ → ℕ × ℕ) (I : ℕ → Prop) (i nr' : ℕ) : Prop :=
  ∃ j, I j ∧ j ≠ i ∧ (place j).1 = (place i).1 ∧ (place j).2 = nr'

theorem RegularFiles.beside (h : RegularFiles s place I) (hi : I i) :
    ∀ nr', Beside place I i nr' → nr' ≠ (place i).2 → Apart s (place i).1 (place i).2 nr' := by
  rintro _ ⟨j, hj, hji, hdev, rfl⟩ -
  exact (h.apart i hi j hj hji hdev).2

/-- **A step on one of the files** keeps the others. -/
theorem RegularFiles.step (h : RegularFiles s place I) (hi : I i) (hreg : Regular t (place i).1 (place i).2 i)
    (hdev : OnDevice s t (place i).1) (hother : ∀ nr', Beside place I i nr' → nr' ≠ (place i).2 →
      Apart t (place i).1 (place i).2 nr' ∧ SameFile s t (place i).1 nr') :
    RegularFiles t place I ∧ ∀ j, I j → j ≠ i → SameFile s t (place j).1 (place j).2 := by
  have hrest : ∀ j, I j → j ≠ i → Layout t (place j).1 ∧
      (∀ g, s.zbit (place j).1 g = true → t.zbit (place j).1 g = true) ∧
        SameFile s t (place j).1 (place j).2 := by
    intro j hj hji
    by_cases hsame : (place j).1 = (place i).1
    · rw [hsame]
      exact ⟨hreg.layout, hdev.zbit, (hother _ ⟨j, hj, hji, hsame, rfl⟩ (h.apart i hi j hj hji hsame).1).2⟩
    · obtain ⟨hl, hzbit, hfile⟩ := hdev.elsewhere (h.regular j hj).layout hsame
      exact ⟨hl, fun g hg => (hzbit g).trans hg, hfile _⟩
  have hregular : ∀ j, I j → Regular t (place j).1 (place j).2 j := by
    intro j hj
    by_cases hji : j = i
    · exact hji ▸ hreg
    · obtain ⟨hl, hzbit, hfile⟩ := hrest j hj hji
      exact (h.regular j hj).of_same hl hfile hdev hzbit
  refine ⟨⟨hregular, fun j hj k hk hkj hsame => ?_⟩, fun j hj hji => (hrest j hj hji).2.2⟩
  obtain ⟨hne, hapart⟩ := h.apart j hj k hk hkj hsame
  have hk' := hregular k hk
  rw [hsame] at hk'
  refine ⟨hne, hk'.tree.inode, hk'.tree.zone, fun p q hp hq hnz heq => ?_⟩
  by_cases hji : j = i
  · subst hji
    exact (hother _ ⟨k, hk, hkj, hsame, rfl⟩ hne).1.disjoint p q hp hq hnz heq
  · by_cases hki : k = i
    · subst hki
      have hzero : t.zoneAt (place k).1 (place k).2 q ≠ 0 := by
        rw [hsame, ← heq]
        exact hnz
      refine (hother _ ⟨j, hj, hji, hsame.symm, rfl⟩ hne.symm).1.disjoint q p hq hp hzero ?_
      rw [hsame]
      exact heq.symm
    · have hfj := (hrest j hj hji).2.2
      have hfk := (hrest k hk hki).2.2
      rw [hsame] at hfk
      rw [hfj.tree p hp] at hnz heq
      rw [hfk.tree q hq] at heq
      exact hapart.disjoint p q hp hq hnz heq

/-- **The files of `I` with what has been written**: the rest is zero. -/
structure FilesZeroed (s : Fs) (place : ℕ → ℕ × ℕ) (I : ℕ → Prop) (C : ℕ → ℕ → Prop) : Prop where
  /-- The files. -/
  files : RegularFiles s place I
  /-- What is in them. -/
  stored : ∀ i, I i → Zeroed s (place i).1 (place i).2 i (C i)

namespace FilesZeroed

variable {C : ℕ → ℕ → Prop} {len offset : ℕ} (h : FilesZeroed s place I C) (hi : I i)

include h hi

/-- **A write that leaves no gap.** -/
theorem inodeWrite (hfill : FillsGap s (place i).1 (place i).2 (s.inodeDesc i).size offset len) (buf : Bytes) :
    ∃ t, Onixs.inodeWrite s i buf len offset = some (len, t) ∧
      FilesZeroed t place I fun j o => C j o ∨ j = i ∧ offset ≤ o ∧ o < offset + len := by
  obtain ⟨t, hrun, hreg, hother, hdev, hs⟩ := (h.stored i hi).inodeWrite (h.files.regular i hi)
    (h.files.beside hi) hfill buf
  obtain ⟨hfiles, hrest⟩ := h.files.step hi hreg hdev hother
  refine ⟨t, hrun, hfiles, fun j hj => ?_⟩
  by_cases hji : j = i
  · subst hji
    exact ⟨hs.fit, hs.block, fun o ho hC => hs.byte o ho fun hc => hC (hc.imp_right fun hr => ⟨rfl, hr⟩)⟩
  · have hsame := (h.stored j hj).of_same (h.files.regular j hj) (hfiles.regular j hj) (hrest j hj hji)
    exact ⟨hsame.fit, hsame.block, fun o ho hC => hsame.byte o ho fun hc => hC (Or.inl hc)⟩

/-- **A read.** -/
theorem inodeRead (buf : Bytes) (len offset : ℕ) :
    ∃ n out t, Onixs.inodeRead s i buf len offset = some (n, out, t) ∧ FilesZeroed t place I C ∧
      (offset < (s.inodeDesc i).size → n = min len ((s.inodeDesc i).size - offset) ∧
        ∀ k < n, ¬C i (offset + k) → out k = 0#8) := by
  have hreg := h.files.regular i hi
  have hs := h.stored i hi
  obtain ⟨n, out, t, hrun, ht, hread⟩ := hs.inodeRead hreg buf len offset
  refine ⟨n, out, t, hrun, ?_, fun hlt => ⟨(hread hlt).1, fun k hk hC => ?_⟩⟩
  · rcases ht with rfl | rfl
    · exact h
    · obtain ⟨howned, hfree, hdev, hinode, hbyte, hother⟩ := setAtime_owned (hreg.owned (h.files.beside hi)) s.time
      have hreg' : Regular (s.setAtime i s.time) (place i).1 (place i).2 i :=
        ⟨howned.layout, howned.tree, hdev.zbit 0 hreg.zero, howned.holds, by rw [hinode]; exact hreg.isFile⟩
      obtain ⟨hfiles, hrest⟩ := h.files.step hi hreg' hdev fun nr' hF hne =>
        ⟨howned.apart nr' hF hne, hother nr' hF hne⟩
      refine ⟨hfiles, fun j hj => ?_⟩
      by_cases hji : j = i
      · subst hji
        have hfit := hs.fit
        rw [totalBlock_eq, blockSize_eq] at hfit
        refine ⟨by rw [hinode]; exact hs.fit, fun o ho => ?_, fun o ho hC => ?_⟩
        · rw [hinode] at ho
          rw [Fs.HasBlock, hfree.tree _ (isSlot_bmapSlot (by omega))]
          exact hs.block o ho
        · rw [hinode] at ho
          rw [hbyte o (by omega)]
          exact hs.byte o ho hC
      · exact (h.stored j hj).of_same (h.files.regular j hj) (hfiles.regular j hj) (hrest j hj hji)
  · obtain ⟨hn, hout⟩ := hread hlt
    rw [hout k hk]
    exact hs.byte _ (by omega) hC

end FilesZeroed

end Files

end Onixs
