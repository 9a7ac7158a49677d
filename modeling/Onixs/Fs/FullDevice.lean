import Onixs.Fs.ReadWrite

/-!
# A device without enough zones

What `bmap` and `inode_write` tell their caller when zones run out: nothing. `balloc` returns `EOF`
or stops at a bitmap buffer that is not there, `bmap` stores what it gets as a `uint16` and
returns it, and to `inode_write` any number but zero is a block. So a call that comes back has
returned a zone (`Onixs.bmap_create_ne_zero`), and one of `inode_write` the whole of its length
(`Onixs.inodeWriteLoop_count`): none reports that the device is full (`Onixs.full_never`).
-/

namespace Onixs

open Bytes

/-! ### The number of a block -/

section Create

variable {s t : Fs} {dev nr i : ℕ}

/-- What `balloc` returns, where it comes back: `EOF` or a number from the first data zone on. -/
theorem balloc_value (hl : Layout s dev) {z : ℕ} (h : balloc s dev = some (z, t)) :
    (z = EOF ∨ 3 ≤ z ∧ z < 65536) ∧ t.superTable = s.superTable ∧ t.blk dev 1 = s.blk dev 1 := by
  classical
  have hm := hl.mounted
  have hfirst := hl.inodes
  have himap := hm.imapBlocks.1
  have hzmap := hm.zmapBlocks.1
  have hzones : (s.superDesc dev).zones < 65536 := getU16_lt _ _
  by_cases hclear : ∃ g, s.zbit dev g = false
  · rw [balloc_found hm (Nat.find_spec hclear) fun g' hg' => by simpa using Nat.find_min hclear hg'] at h
    obtain ⟨_, hlt, h⟩ := Option.bind_eq_some_iff.mp h
    obtain ⟨rfl, rfl⟩ := Prod.mk.inj (Option.some.inj h)
    have hlt := assert_eq_some.mp hlt
    refine ⟨Or.inr ⟨by omega, by omega⟩, setMapBit_superTable s dev _ _ true, ?_⟩
    exact setMapBit_blk_of_ne (Or.inr hm.zmap_ne_one) true
  · have hfull : ∀ g, s.zbit dev g = true := fun g => by
      cases hg : s.zbit dev g with
      | true => rfl
      | false => exact absurd ⟨g, hg⟩ hclear
    rw [balloc_full hm hfull] at h
    split at h
    · obtain ⟨rfl, rfl⟩ := Prod.mk.inj (Option.some.inj h)
      exact ⟨Or.inl rfl, rfl, rfl⟩
    · exact absurd h (by simp)

/-- A number that an entry of 16 bits can hold is stored; `EOF` becomes the greatest of them. -/
theorem bmapEntry_value (hl : Layout s dev) {buf array index z : ℕ}
    (h : bmapEntry s dev buf array index true = some (z, t)) :
    z < 65536 ∧ (3 ≤ z ∨ z ≠ 0 ∧ z = (s.blk dev buf).getU16 (array + 2 * index)) ∧
      (buf ≠ 1 → Layout t dev) := by
  rw [bmapEntry] at h
  by_cases hempty : (s.blk dev buf).getU16 (array + 2 * index) = 0
  · rw [if_pos ⟨hempty, rfl⟩] at h
    obtain ⟨⟨zone, u⟩, hballoc, h⟩ := Option.bind_eq_some_iff.mp h
    obtain ⟨rfl, rfl⟩ := Prod.mk.inj (Option.some.inj h)
    obtain ⟨hvalue, htable, hblk⟩ := balloc_value hl hballoc
    rw [Fs.setBlk_blk_self, getU16_putU16_self]
    refine ⟨Nat.mod_lt _ (by decide), Or.inl ?_, fun hbuf => ?_⟩
    · rcases hvalue with rfl | ⟨hlo, hhi⟩
      · decide
      · rwa [Nat.mod_eq_of_lt hhi]
    · refine (Layout.of_same (t := u.setBlk dev buf _) hl htable ?_).1
      rw [Fs.setBlk_blk_of_ne u _ (Or.inr (Ne.symm hbuf)), hblk]
  · rw [if_neg fun hc => hempty hc.1] at h
    obtain ⟨rfl, rfl⟩ := Prod.mk.inj (Option.some.inj h)
    exact ⟨getU16_lt _ _, Or.inr ⟨hempty, rfl⟩, fun _ => hl⟩

/-- **A pass on a device whose bitmap is full**: with eight bitmap buffers the number of no zone is
stored, with fewer it stops. -/
theorem bmapEntry_full (hl : Layout s dev) (hfull : ∀ g, s.zbit dev g = true) {buf array index : ℕ}
    (hempty : (s.blk dev buf).getU16 (array + 2 * index) = 0) :
    bmapEntry s dev buf array index true = if (s.superDesc dev).zmapBlocks = 8 then
      some (65535, s.setBlk dev buf ((s.blk dev buf).putU16 (array + 2 * index) EOF)) else none := by
  rw [bmapEntry, if_pos ⟨hempty, rfl⟩, balloc_full hl.mounted hfull]
  split
  · simp only [Option.bind_eq_bind, Option.bind_some, Fs.setBlk_blk_self, getU16_putU16_self]
    rfl
  · rfl

/-- A pass of the loop never returns 0. -/
theorem bmapEntry_ne_zero (hl : Layout s dev) {buf array index z : ℕ}
    (h : bmapEntry s dev buf array index true = some (z, t)) : z ≠ 0 ∧ z < 65536 := by
  obtain ⟨hlt, hvalue, -⟩ := bmapEntry_value hl h
  refine ⟨?_, hlt⟩
  rcases hvalue with hge | ⟨hne, -⟩
  · omega
  · exact hne

/-- The first pass: what it returns is no block before the data zones. -/
theorem bmapPath_root (hl : Layout s dev) (ht : TreeAt s dev nr) {r z : ℕ} (hr : r < 9)
    (h : bmapPath s dev nr true [r] = some (z, t)) : 3 ≤ z ∧ z < 65536 ∧ Layout t dev := by
  have hplace := (hl.inodeBlock_bounds ht.inode).1
  obtain ⟨hlt, hvalue, hlayout⟩ := bmapEntry_value hl h
  refine ⟨?_, hlt, hlayout (by omega)⟩
  rcases hvalue with hge | ⟨hne, heq⟩
  · exact hge
  · have hzone := (ht.zone [r] (.root hr) (fun hc => hne (heq.trans hc))).1
    have hfirst := hl.inodes
    have himap := hl.mounted.imapBlocks.1
    have hzmap := hl.mounted.zmapBlocks.1
    have heq : z = s.zoneAt dev nr [r] := heq
    omega

/-- The second pass, in an index block that is there or was created. -/
theorem bmapPath_single (hl : Layout s dev) (ht : TreeAt s dev nr) {j r z : ℕ} (hr : r < 9)
    (h : bmapPath s dev nr true [j, r] = some (z, t)) : z ≠ 0 ∧ z < 65536 ∧ Layout t dev := by
  obtain ⟨⟨z₁, s₁⟩, hroot, h⟩ := Option.bind_eq_some_iff.mp h
  obtain ⟨hge, -, hl₁⟩ := bmapPath_root hl ht hr hroot
  have hne : z₁ ≠ 0 := by omega
  simp only [if_neg hne] at h
  obtain ⟨hz, hlt⟩ := bmapEntry_ne_zero hl₁ h
  exact ⟨hz, hlt, (bmapEntry_value hl₁ h).2.2 (by omega)⟩

/-- **`bmap` with `create` never returns 0**, and never `EOF`: where it comes back, it has a block to
name. -/
theorem bmap_create_ne_zero (hl : Layout s dev) (ht : TreeAt s dev nr) (hh : s.Holds dev nr i) {b z : ℕ}
    (hb : b < 262663) (h : bmap s i b true = some (z, t)) : z ≠ 0 ∧ z < 65536 := by
  rw [bmap_eq_path hh hb] at h
  have hslot := isSlot_bmapSlot hb
  generalize bmapSlot b = p at hslot h
  cases hslot with
  | root hr =>
    obtain ⟨hge, hlt, -⟩ := bmapPath_root hl ht hr h
    exact ⟨by omega, hlt⟩
  | single hj =>
    obtain ⟨hne, hlt, -⟩ := bmapPath_single hl ht (by decide) h
    exact ⟨hne, hlt⟩
  | middle hj =>
    obtain ⟨hne, hlt, -⟩ := bmapPath_single hl ht (by decide) h
    exact ⟨hne, hlt⟩
  | double hk hj =>
    obtain ⟨⟨z₁, s₁⟩, hmiddle, h⟩ := Option.bind_eq_some_iff.mp h
    obtain ⟨hne, -, hl₁⟩ := bmapPath_single hl ht (by decide) hmiddle
    simp only [if_neg hne] at h
    exact bmapEntry_ne_zero hl₁ h

end Create

/-! ### The number of bytes -/

/-- **The loop of `inode_write` has no way out** but to write everything. -/
theorem inodeWriteLoop_count {i : ℕ} (buf : Bytes) :
    ∀ (left : ℕ) (s t : Fs) (pos offset r : ℕ),
      inodeWriteLoop s i buf pos offset left = some (r, t) →
        r = offset + left ∧ (left = 0 ∨ offset + left ≤ 2147484672) := by
  intro left
  induction left using Nat.strong_induction_on with
  | _ left ih =>
    intro s t pos offset r h
    rw [inodeWriteLoop] at h
    by_cases hleft : left = 0
    · rw [dif_pos hleft] at h
      obtain ⟨rfl, rfl⟩ := Prod.mk.inj (Option.some.inj h)
      exact ⟨by omega, Or.inl hleft⟩
    · rw [dif_neg hleft] at h
      simp only [blockSize_eq] at h
      obtain ⟨u, hchunk, h⟩ := Option.bind_eq_some_iff.mp h
      -- a pass asserts that the offset has not become negative
      have hoffset : offset < 2147483648 := by
        rw [writeChunk] at hchunk
        obtain ⟨_, hlt, -⟩ := Option.bind_eq_some_iff.mp hchunk
        exact assert_eq_some.mp hlt
      rw [u32_of_lt (by omega)] at h
      obtain ⟨hr, hend⟩ := ih (left - min (1024 - offset % 1024) left) (by omega) u t _ _ r h
      omega

/-! ### A full device -/

/-- **What a call on a full device may do**: the zones it has stored are zones of the device, and the
other files are the same. -/
structure FullCall (s t : Fs) (dev nr : ℕ) : Prop where
  /-- The zones. -/
  zones : ∀ p, IsSlot p → t.zoneAt dev nr p ≠ s.zoneAt dev nr p →
    (s.superDesc dev).firstdatazone ≤ t.zoneAt dev nr p ∧ t.zoneAt dev nr p < (s.superDesc dev).zones
  /-- The other files. -/
  other : ∀ nr', nr' ≠ nr → SameFile s t dev nr'

/-- `inode_write` reports an error, or that it has not written everything. -/
def WriteReports (s : Fs) (dev nr i : ℕ) (buf : Bytes) (len offset : ℕ) : Prop :=
  ∃ n t, inodeWrite s i buf len offset = some (n, t) ∧ (n = EOF ∨ n < len) ∧ FullCall s t dev nr

/-- `bmap` with `create` reports that it has no block. -/
def BmapReports (s : Fs) (dev nr i b : ℕ) : Prop :=
  ∃ z t, bmap s i b true = some (z, t) ∧ (z = 0 ∨ z = EOF) ∧ FullCall s t dev nr

/-- What `inode_write` returns is the length. -/
theorem inodeWrite_count {s t : Fs} {i len offset n : ℕ} {buf : Bytes} (hlen : len < 4294967296)
    (h : inodeWrite s i buf len offset = some (n, t)) : n = len ∧ n ≠ EOF := by
  rw [inodeWrite] at h
  obtain ⟨_, -, h⟩ := Option.bind_eq_some_iff.mp h
  obtain ⟨⟨r, u⟩, hloop, h⟩ := Option.bind_eq_some_iff.mp h
  obtain ⟨rfl, rfl⟩ := Prod.mk.inj (Option.some.inj h)
  obtain ⟨rfl, hend⟩ := inodeWriteLoop_count buf len s u 0 offset r hloop
  rw [sub32, u32, EOF]
  omega

/-- **On a full device neither call does what it should**: one that needs more zones than are free
stops, or it comes back and reports nothing. -/
theorem full_never {s : Fs} {dev nr i : ℕ} (hl : Layout s dev) (ht : TreeAt s dev nr)
    (hh : s.Holds dev nr i) :
    (∀ buf len offset, len < 4294967296 → ¬Enough s dev nr (rangeSlots offset len) →
      ¬WriteReports s dev nr i buf len offset) ∧
    ∀ b < totalBlock, ¬Enough s dev nr (slotPath (bmapSlot b)) → ¬BmapReports s dev nr i b := by
  constructor
  · rintro buf len offset hlen - ⟨n, t, hrun, hreport, -⟩
    obtain ⟨rfl, hne⟩ := inodeWrite_count hlen hrun
    exact hreport.elim hne (Nat.lt_irrefl n)
  · rintro b hb - ⟨z, t, hrun, hreport, -⟩
    rw [totalBlock_eq] at hb
    obtain ⟨hne, hlt⟩ := bmap_create_ne_zero hl ht hh hb hrun
    rcases hreport with rfl | rfl
    · exact hne rfl
    · exact absurd hlt (by decide)

/-- The slots of the first nine blocks of a file. -/
def firstSlots : Finset (List ℕ) := {[0], [1], [2], [3], [4], [5], [6], [7], [0, 7], [1, 7]}

theorem firstSlots_subset {len : ℕ} (hlen : 8192 < len) : firstSlots ⊆ rangeSlots 0 len := by
  intro q hq
  have hblock : ∃ b < 9, q ∈ slotPath (bmapSlot b) := by
    revert q
    decide
  obtain ⟨b, hb, hmem⟩ := hblock
  have hdiv : b * 1024 / 1024 = b := Nat.mul_div_cancel b (by decide)
  exact mem_rangeSlots (o := b * 1024) (Nat.zero_le _) (by omega) (by rwa [hdiv])

theorem firstSlots_isSlot {q : List ℕ} (hq : q ∈ firstSlots) : IsSlot q := by
  simp only [firstSlots, Finset.mem_insert, Finset.mem_singleton] at hq
  rcases hq with rfl | rfl | rfl | rfl | rfl | rfl | rfl | rfl | rfl | rfl
  all_goals first | exact .root (by decide) | exact .single (by decide)

/-- Nine blocks and an index block are more than the eight zones that are free. -/
theorem fileFs_not_enough (stale : Bytes) {len : ℕ} (hlen : 8192 < len) :
    ¬Enough (fileFs stale) 1 2 (rangeSlots 0 len) := by
  intro henough
  have hfree : freeZones (fileFs stale) 1 ⊆ Finset.Ico 12 20 := fun z hz =>
    Finset.mem_Ico.mpr ((fileFs_free stale).mp (mem_freeZones.mp hz))
  have hcard := Finset.card_le_card hfree
  rw [Nat.card_Ico] at hcard
  have hneed : firstSlots ⊆ (rangeSlots 0 len).filter fun q => (fileFs stale).zoneAt 1 2 q = 0 := by
    intro q hq
    refine Finset.mem_filter.mpr ⟨firstSlots_subset hlen hq, ?_⟩
    exact fileFs_zoneAt stale (by decide) (by decide) (firstSlots_isSlot hq)
  have hcount := Finset.card_le_card hneed
  rw [show firstSlots.card = 10 by decide] at hcount
  rw [Enough] at henough
  omega

/-- Nine blocks are written to the empty file of a device with eight zones that are free. -/
theorem full_never_file : ¬WriteReports (fileFs fun _ => 0#8) 1 2 0 (fun _ => 65#8) 9216 0 :=
  (full_never (fileFs_layout _) (fileFs_tree _) (fileFs_holds _)).1 _ _ _ (by decide)
    (fileFs_not_enough _ (by decide))

/-- **The device of `Onixs.fileFs` is in order**, and a write that needs more zones than are free
neither comes back with an error nor with a short count. -/
theorem full_unreported : Layout (fileFs fun _ => 0#8) 1 ∧ TreeAt (fileFs fun _ => 0#8) 1 2 ∧
    (fileFs fun _ => 0#8).Holds 1 2 0 ∧ ¬Enough (fileFs fun _ => 0#8) 1 2 (rangeSlots 0 9216) ∧
    ¬WriteReports (fileFs fun _ => 0#8) 1 2 0 (fun _ => 65#8) 9216 0 := by
  refine ⟨fileFs_layout _, fileFs_tree _, fileFs_holds _, fileFs_not_enough _ (by decide), ?_⟩
  rintro ⟨n, t, hrun, hreport, -⟩
  obtain ⟨rfl, hne⟩ := inodeWrite_count (by decide) hrun
  exact hreport.elim hne (Nat.lt_irrefl _)

end Onixs
