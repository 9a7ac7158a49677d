import Onixs.Fs.MountPoint
import Onixs.Fs.Removed

/-!
# Taking a file out of a directory

What `sys_unlink` stores, in a forest in order: the number of the entry and the links of the file
(`Onixs.unlinkStores`), and with the last link `inode_truncate` and `ifree`. Together that is
`Onixs.Unlinked`, which leaves the forest in order, over any run of such calls.
-/

namespace Onixs

open Bytes

/-! ### Bits of the bitmaps -/

section Bits

variable {s t : Fs} {dev : ℕ}

theorem mapBit_kept {maps : ℕ → Option ℕ} (h : ∀ k b, maps k = some b → t.blk dev b = s.blk dev b) (g : ℕ) :
    t.mapBit dev maps g = s.mapBit dev maps g := by
  rw [Fs.mapBit, Fs.mapBit]
  cases hb : maps (g / 8192) with
  | none => rfl
  | some b =>
    simp only
    rw [h _ _ hb]

theorem zbit_kept (hlists : OnlyLists s t) (h : ∀ k b, s.zmaps dev k = some b → t.blk dev b = s.blk dev b) (g : ℕ) :
    t.zbit dev g = s.zbit dev g := by
  rw [Fs.zbit, Fs.zbit, (hlists.maps dev).2]
  exact mapBit_kept h g

theorem ibit_kept (hlists : OnlyLists s t) (h : ∀ k b, s.imaps dev k = some b → t.blk dev b = s.blk dev b) (g : ℕ) :
    t.ibit dev g = s.ibit dev g := by
  rw [Fs.ibit, Fs.ibit, (hlists.maps dev).1]
  exact mapBit_kept h g

variable (hl : Layout s dev)

include hl

theorem Layout.imap_bounds {k b : ℕ} (h : s.imaps dev k = some b) : 2 ≤ b ∧ b < 2 + (s.superDesc dev).imapBlocks := by
  rw [hl.mounted.imaps] at h
  split at h
  · have := Option.some.inj h
    omega
  · exact absurd h (by simp)

theorem Layout.zmap_bounds {k b : ℕ} (h : s.zmaps dev k = some b) : 2 + (s.superDesc dev).imapBlocks ≤ b ∧
    b < 2 + (s.superDesc dev).imapBlocks + (s.superDesc dev).zmapBlocks := by
  rw [hl.mounted.zmaps] at h
  split at h
  · have := Option.some.inj h
    omega
  · exact absurd h (by simp)

end Bits

/-! ### The first two stores -/

/-- `entry->nr = 0` and `inode->desc->nlinks--`. -/
def unlinkStores (s : Fs) (inode : ℕ) (entry : Dentry) : Fs :=
  (s.setDentryNr entry 0).setNlinks inode (((s.setDentryNr entry 0).inodeDesc inode).nlinks + 255)

theorem unlinkEntry_eq (s : Fs) (inode dir : ℕ) (entry : Dentry) : unlinkEntry s inode dir entry =
    if ((unlinkStores s inode entry).inodeDesc inode).nlinks = 0 then
      (inodeTruncate (unlinkStores s inode entry) inode).bind fun t =>
        (ifree t (t.inodeTable inode).dev (t.inodeTable inode).nr).bind fun t => nameRollback t (some inode) (some dir) 0
    else nameRollback (unlinkStores s inode entry) (some inode) (some dir) 0 := rfl

section Stores

variable {s u : Fs} {n : ℕ × ℕ} {k i ino : ℕ} (h : s.Tidy) (hn : s.TreeDir n) (hk : k < s.entries n.1 n.2)
  (hi : s.InTree (n.1, i)) (hfile : isDir (s.descOf n.1 i).mode = false) (hnr : s.dentryNr (s.entryOf n.1 n.2 k) = i)
  (hblk : u.blk = s.blk) (hlists : OnlyLists s u) (hh : u.Holds n.1 i ino)

theorem mode_of_bytes {s t : Fs} {dev nr : ℕ} (hsuper : t.superDesc dev = s.superDesc dev)
    (h0 : t.blk dev (inodeBlock (s.superDesc dev) nr) (inodeOffset nr + 0)
      = s.blk dev (inodeBlock (s.superDesc dev) nr) (inodeOffset nr + 0))
    (h1 : t.blk dev (inodeBlock (s.superDesc dev) nr) (inodeOffset nr + 1)
      = s.blk dev (inodeBlock (s.superDesc dev) nr) (inodeOffset nr + 1)) :
    (t.descOf dev nr).mode = (s.descOf dev nr).mode := by
  rw [Nat.add_zero] at h0
  rw [Fs.descOf, Fs.descOf, hsuper]
  simp only [readInodeDesc]
  exact getU16_congr h0 h1

/-- The number of the file. -/
theorem Fs.Tidy.numberPos (h : s.Tidy) (hi : s.InTree (n.1, i)) : InodePos (s.superDesc n.1) i := h.inodePos hi

include hblk hh in
theorem unlinkStores_within : Within (fun dev b o => dev = n.1 ∧
    ((b = s.zoneAt n.1 n.2 (bmapSlot (k / 64)) ∧ k % 64 * 16 ≤ o ∧ o < k % 64 * 16 + 2) ∨
      (b = inodeBlock (s.superDesc n.1) i ∧ o = inodeOffset i + 13))) u (unlinkStores u ino (s.entryOf n.1 n.2 k)) := by
  have hdesc := superDesc_of_same hblk n.1
  have hentry : Within (fun dev b o => dev = n.1 ∧
      ((b = s.zoneAt n.1 n.2 (bmapSlot (k / 64)) ∧ k % 64 * 16 ≤ o ∧ o < k % 64 * 16 + 2) ∨
        (b = inodeBlock (s.superDesc n.1) i ∧ o = inodeOffset i + 13))) u (u.setDentryNr (s.entryOf n.1 n.2 k) 0) := by
    refine .setDentryNr 0 ⟨rfl, Or.inl ⟨rfl, ?_, ?_⟩⟩ ⟨rfl, Or.inl ⟨rfl, ?_, ?_⟩⟩
    · exact Nat.le_refl _
    · exact Nat.lt_add_of_pos_right (by decide)
    · exact Nat.le_succ _
    · exact Nat.lt_succ_self _
  refine hentry.trans (.putDesc8 _ ⟨?_, Or.inr ⟨?_, ?_⟩⟩)
  · rw [hentry.only.inodeTable]
    exact hh.dev_eq
  · rw [hentry.only.inodeTable, hh.buf, hdesc]
  · rw [hentry.only.inodeTable, hh.desc]

/-- The entry's block is not that of the descriptor. -/
theorem Fs.Tidy.entry_ne_inodeBlock (h : s.Tidy) (hn : s.TreeDir n) (hk : k < s.entries n.1 n.2) {j : ℕ}
    (hj : InodePos (s.superDesc n.1) j) : s.zoneAt n.1 n.2 (bmapSlot (k / 64)) ≠ inodeBlock (s.superDesc n.1) j := by
  obtain ⟨-, -, hlo⟩ := h.entryZone hn hk
  have hib := (h.layoutOf hn.1).inodeBlock_bounds hj
  omega

include hblk hh in
theorem unlinkStores_touched {dev b o : ℕ} (hno : ¬Touched s n k i dev b o) :
    (unlinkStores u ino (s.entryOf n.1 n.2 k)).blk dev b o = s.blk dev b o := by
  refine ((unlinkStores_within hblk hh).same dev b o fun hc => hno ?_).trans (by rw [hblk])
  obtain ⟨rfl, ⟨hb, hge, hlt⟩ | ⟨hb, rfl⟩⟩ := hc
  · exact ⟨rfl, Or.inl ⟨hb, hge, hlt⟩⟩
  · exact ⟨rfl, Or.inr (Or.inl ⟨hb, by omega, by omega⟩)⟩

include hblk hlists hh in
theorem unlinkStores_lists : OnlyLists s (unlinkStores u ino (s.entryOf n.1 n.2 k)) :=
  hlists.trans (.of_superTable (unlinkStores_within hblk hh).only.superTable)

include h hn hk hi hblk hh

theorem unlinkStores_entry : (unlinkStores u ino (s.entryOf n.1 n.2 k)).dentryNr (s.entryOf n.1 n.2 k) = 0 := by
  have hpos : InodePos (s.superDesc n.1) i := h.inodePos hi
  have hne := h.entry_ne_inodeBlock hn hk hpos
  have hself : ((u.setDentryNr (s.entryOf n.1 n.2 k) 0).blk n.1 (s.zoneAt n.1 n.2 (bmapSlot (k / 64)))).getU16 (k % 64 * 16) = 0 := by
    rw [Fs.setDentryNr]
    change (Fs.blk (u.setBlk n.1 (s.zoneAt n.1 n.2 (bmapSlot (k / 64))) _) n.1 _).getU16 (k % 64 * 16) = 0
    rw [Fs.setBlk_blk_self]
    exact getU16_putU16_self _ _ _
  refine Eq.trans ?_ hself
  change (Fs.blk (Fs.setBlk _ (u.inodeTable ino).dev (u.inodeTable ino).buf _) n.1 (s.zoneAt n.1 n.2 (bmapSlot (k / 64)))).getU16 (k % 64 * 16) = _
  rw [Fs.setBlk_blk_of_ne]
  right
  rw [hh.buf, superDesc_of_same hblk]
  exact hne

theorem unlinkStores_nlinks : ((unlinkStores u ino (s.entryOf n.1 n.2 k)).descOf n.1 i).nlinks
    = ((s.descOf n.1 i).nlinks + 255) % 256 := by
  have hpos : InodePos (s.superDesc n.1) i := h.inodePos hi
  have hne := h.entry_ne_inodeBlock hn hk hpos
  have hdesc := superDesc_of_same hblk n.1
  have hbyte : (u.setDentryNr (s.entryOf n.1 n.2 k) 0).blk n.1 (inodeBlock (s.superDesc n.1) i)
      = s.blk n.1 (inodeBlock (s.superDesc n.1) i) := by
    rw [Fs.setDentryNr, ← hblk]
    exact Fs.setBlk_blk_of_ne _ _ (Or.inr (Ne.symm hne))
  have hlinks : ((u.setDentryNr (s.entryOf n.1 n.2 k) 0).inodeDesc ino).nlinks = (s.descOf n.1 i).nlinks := by
    rw [Fs.inodeDesc, Fs.descOf]
    change (readInodeDesc (Fs.blk _ (u.inodeTable ino).dev (u.inodeTable ino).buf) (u.inodeTable ino).desc).nlinks = _
    rw [hh.dev_eq, hh.buf, hh.desc, hdesc, hbyte]
  have hsuper := Touched.superDesc h hn hk hpos (fun _ _ _ hno => unlinkStores_touched hblk hh hno) n.1
  rw [Fs.descOf, hsuper, unlinkStores, hlinks]
  change (Bytes.getU8 (Fs.blk (Fs.setBlk _ (u.inodeTable ino).dev (u.inodeTable ino).buf _) n.1 _) (inodeOffset i + 13)) = _
  rw [hh.dev_eq, hh.buf, hdesc, Fs.setBlk_blk_self]
  change Bytes.getU8 (putU8 _ ((u.inodeTable ino).desc + 13) _) _ = _
  rw [hh.desc]
  exact getU8_putU8_self _ _ _

/-- The bitmaps, and the rest of the descriptor. -/
theorem unlinkStores_kept {dev b : ℕ} (hb : dev = n.1 → b < 2 + (s.superDesc n.1).imapBlocks + (s.superDesc n.1).zmapBlocks) :
    (unlinkStores u ino (s.entryOf n.1 n.2 k)).blk dev b = s.blk dev b := by
  have hpos : InodePos (s.superDesc n.1) i := h.inodePos hi
  obtain ⟨-, -, hlo⟩ := h.entryZone hn hk
  have hib := (h.layoutOf hn.1).inodeBlock_bounds hpos
  refine funext fun o => ((unlinkStores_within hblk hh).same dev b o fun hc => ?_).trans (by rw [hblk])
  obtain ⟨hdev, ⟨hz, -⟩ | ⟨hz, -⟩⟩ := hc
  · have := hb hdev
    omega
  · have := hb hdev
    omega

theorem unlinkStores_desc {o : ℕ} (ho : o ≠ 13) :
    (unlinkStores u ino (s.entryOf n.1 n.2 k)).blk n.1 (inodeBlock (s.superDesc n.1) i) (inodeOffset i + o)
      = s.blk n.1 (inodeBlock (s.superDesc n.1) i) (inodeOffset i + o) := by
  have hne := h.entry_ne_inodeBlock hn hk (h.numberPos hi)
  refine ((unlinkStores_within hblk hh).same _ _ _ fun hc => ?_).trans (by rw [hblk])
  obtain ⟨-, ⟨hz, -⟩ | ⟨-, heq⟩⟩ := hc
  · exact hne hz.symm
  · omega

include hlists

theorem unlinkStores_ibit (dev g : ℕ) : (unlinkStores u ino (s.entryOf n.1 n.2 k)).ibit dev g = s.ibit dev g := by
  refine ibit_kept (unlinkStores_lists hblk hlists hh) (fun j b hj => ?_) g
  refine unlinkStores_kept h hn hk hi hblk hh fun hdev => ?_
  subst hdev
  have := (h.layoutOf hn.1).imap_bounds hj
  omega

theorem unlinkStores_zbit (dev g : ℕ) : (unlinkStores u ino (s.entryOf n.1 n.2 k)).zbit dev g = s.zbit dev g := by
  refine zbit_kept (unlinkStores_lists hblk hlists hh) (fun j b hj => ?_) g
  refine unlinkStores_kept h hn hk hi hblk hh fun hdev => ?_
  subst hdev
  exact (h.layoutOf hn.1).zmap_lt hj

/-- **A file with more links** stays. -/
theorem unlinkStores_unlinked (hlast : (s.descOf n.1 i).nlinks ≠ 1) (hlinks : (s.descOf n.1 i).nlinks ≠ 0) :
    Unlinked s (unlinkStores u ino (s.entryOf n.1 n.2 k)) n k i := by
  have hsuper := Touched.superDesc h hn hk (h.numberPos hi) (fun _ _ _ hno => unlinkStores_touched hblk hh hno) n.1
  refine ⟨fun _ _ _ hno => unlinkStores_touched hblk hh hno, unlinkStores_entry h hn hk hi hblk hh, ?_, ?_,
    fun _ o _ ho => unlinkStores_desc h hn hk hi hblk hh ho, fun hc => absurd hc hlast, fun dev g => ?_, fun dev g => ?_⟩
  · have hlt : (s.descOf n.1 i).nlinks < 256 := getU8_lt _ _
    rw [unlinkStores_nlinks h hn hk hi hblk hh]
    omega
  · have h0 := unlinkStores_desc h hn hk hi hblk hh (o := 0) (by decide)
    have h1 := unlinkStores_desc h hn hk hi hblk hh (o := 1) (by decide)
    exact mode_of_bytes hsuper h0 h1
  · rw [unlinkStores_ibit h hn hk hi hblk hlists hh]
    simp only [hlast, and_false, not_false_eq_true, and_true]
  · rw [unlinkStores_zbit h hn hk hi hblk hlists hh]
    simp only [hlast, false_and, and_false, not_false_eq_true, and_true]

end Stores

/-! ### The last link -/

/-- **`inode_truncate`** of a well-formed file empties it. -/
theorem inodeTruncate_emptied {s : Fs} {dev nr i : ℕ} (hl : Layout s dev) (hsmall : (s.superDesc dev).zones ≤ 8192)
    (hh : s.Holds dev nr i) (ht : TreeAt s dev nr)
    (hmode : isFile (s.inodeDesc i).mode = true ∨ isDir (s.inodeDesc i).mode = true) :
    ∃ u, Emptying s u dev nr truncateSlots 9 ∧
      inodeTruncate s i = some ((u.setSize i 0).setMtime i (u.setSize i 0).time) := by
  obtain ⟨s₁, hdirect, h₁⟩ := emptying_direct hl hsmall ht hh 7 (Nat.le_refl 7)
  have hroot : ∀ q ∈ (List.range 7).map fun r => [r], IsSlot q ∧ ∃ r < 7, q ∈ IndexTree.below 512 0 [r] := by
    intro q hq
    obtain ⟨r, hr, rfl⟩ := List.mem_map.mp hq
    have hlt := List.mem_range.mp hr
    exact ⟨.root (by omega), r, hlt, IndexTree.mem_below_self 0 _⟩
  obtain ⟨s₂, hsingle, h₂⟩ := h₁.free hl hsmall ht (r := 7) 1 (by omega) (Nat.le_refl 7)
    (fun q hq => isSlot_of_below_single hq) fun q hq => by
      obtain ⟨hslot, r, hr, hmem⟩ := hroot q hq
      exact ⟨hslot, not_mem_below_of_ne (by omega) hmem⟩
  obtain ⟨s₃, hdouble, h₃⟩ := h₂.free hl hsmall ht (r := 8) 2 (by omega) (by omega)
    (fun q hq => isSlot_of_below_double hq) fun q hq => by
      rcases List.mem_append.mp hq with hq | hq
      · obtain ⟨hslot, r, hr, hmem⟩ := hroot q hq
        exact ⟨hslot, not_mem_below_of_ne (by omega) hmem⟩
      · exact ⟨isSlot_of_below_single hq, not_mem_below_of_ne (by decide) hq⟩
  refine ⟨_, (h₃.setZone hl hh (by decide)).setZone hl hh (by decide), ?_⟩
  have hnot : ¬(isFile (s.inodeDesc i).mode = false ∧ isDir (s.inodeDesc i).mode = false) := by
    rcases hmode with h | h <;> simp [h]
  simp only [inodeTruncate, if_neg hnot, hh.dev_eq, hh.buf, hh.desc]
  rw [show directBlock = 7 from rfl, hdirect]
  simp only [Option.bind_eq_bind, Option.bind_some, hsingle, hdouble]
  rfl

/-- **A state in the middle of a removal.** -/
structure Removing (s t : Fs) (n : ℕ × ℕ) (k i ino : ℕ) : Prop where
  /-- The super blocks. -/
  lists : OnlyLists s t
  /-- The entry of the inode table. -/
  holds : t.Holds n.1 i ino
  /-- Nothing is stored elsewhere. -/
  same : ∀ dev b o, ¬Touched s n k i dev b o → t.blk dev b o = s.blk dev b o

section Last

variable {s u v w t : Fs} {n : ℕ × ℕ} {k i ino : ℕ} (h : s.Tidy) (hn : s.TreeDir n) (hk : k < s.entries n.1 n.2)
  (hi : s.InTree (n.1, i))

theorem Removing.inodeDesc (hr : Removing s v n k i ino) : v.inodeDesc ino = v.descOf n.1 i := inodeDesc_eq hr.holds

include h hn hk hi

theorem Removing.superDesc (hr : Removing s v n k i ino) : v.superDesc n.1 = s.superDesc n.1 :=
  Touched.superDesc h hn hk (h.numberPos hi) hr.same n.1

theorem Removing.layout (hr : Removing s v n k i ino) : Layout v n.1 :=
  (h.layoutOf hn.1).of_lists (Touched.superBlk h hn hk (h.numberPos hi) hr.same n.1) hr.lists

theorem Removing.step (hr : Removing s v n k i ino) (hw : Within (Touched s n k i) v w) : Removing s w n k i ino := by
  have hsame : ∀ dev b o, ¬Touched s n k i dev b o → w.blk dev b o = s.blk dev b o := fun dev b o hno =>
    (hw.same dev b o hno).trans (hr.same dev b o hno)
  have hdesc := Touched.superDesc h hn hk (h.numberPos hi) hsame n.1
  exact ⟨hr.lists.trans (.of_superTable hw.only.superTable),
    hr.holds.of_same ⟨hw.only.inodeTable, hdesc.trans (hr.superDesc h hn hk hi).symm⟩, hsame⟩

/-- **The file is emptied** where the bitmap and its descriptor are. -/
theorem Removing.truncate (hr : Removing s v n k i ino) (hrun : inodeTruncate v ino = some w) :
    Within (fun dev b o => dev = n.1 ∧ ((∃ j, s.zmaps n.1 j = some b) ∨
      (b = inodeBlock (s.superDesc n.1) i ∧ inodeOffset i ≤ o ∧ o < inodeOffset i + 32))) v w := by
  refine Within.inodeTruncate (fun j b hj o => ?_) (fun o ho => ?_) hrun
  · rw [hr.holds.dev_eq] at hj ⊢
    rw [(hr.lists.maps n.1).2] at hj
    exact ⟨rfl, Or.inl ⟨j, hj⟩⟩
  · rw [hr.holds.dev_eq, hr.holds.buf, hr.holds.desc, hr.superDesc h hn hk hi]
    exact ⟨rfl, Or.inr ⟨rfl, by omega, by omega⟩⟩

theorem Removing.truncate_touched (hr : Removing s v n k i ino) (hrun : inodeTruncate v ino = some w) :
    Removing s w n k i ino := by
  refine hr.step h hn hk hi ((hr.truncate h hn hk hi hrun).mono fun dev b o hc => ?_)
  obtain ⟨rfl, ⟨j, hj⟩ | hdesc⟩ := hc
  · obtain ⟨hge, hlt⟩ := (h.layoutOf hn.1).zmap_bounds hj
    exact ⟨rfl, Or.inr (Or.inr ⟨by omega, hlt⟩)⟩
  · exact ⟨rfl, Or.inr (Or.inl hdesc)⟩

/-- `ifree`, when it fails no assertion. -/
theorem Removing.free (hr : Removing s v n k i ino) (hused : v.ibit n.1 i = true)
    (hrun : ifree v (v.inodeTable ino).dev (v.inodeTable ino).nr = some w) : OnlyIbit v n.1 i false w := by
  rw [hr.holds.dev_eq, hr.holds.nr_eq] at hrun
  have hl := hr.layout h hn hk hi
  obtain ⟨hdev, j, hj⟩ := hn.1.super
  have hsmall := (h.small hdev hj).2
  rw [← hr.superDesc h hn hk hi] at hsmall
  have hlt : i < (v.superDesc n.1).inodes := by
    obtain ⟨_, -, hfree⟩ := Option.bind_eq_some_iff.mp hrun
    obtain ⟨_, hassert, -⟩ := Option.bind_eq_some_iff.mp hfree
    exact assert_eq_some.mp hassert
  rw [ifree_of_lt hl.mounted hr.holds.pos hlt (Nat.lt_of_lt_of_le hlt hsmall) hused] at hrun
  obtain rfl := Option.some.inj hrun
  refine OnlyIbit.of_setIbit hl.mounted (b := 2) ?_ false
  have himap := hl.mounted.imapBlocks.1
  rw [show i / 8192 = 0 by omega, hl.mounted.imap_some (by omega)]

/-- The zones of the file are still there. -/
theorem Removing.zoneAt (hr : Removing s v n k i ino) (hreg : isFile (s.descOf n.1 i).mode = true)
    (hdesc : ∀ o, o ≠ 13 → v.blk n.1 (inodeBlock (s.superDesc n.1) i) (inodeOffset i + o)
      = s.blk n.1 (inodeBlock (s.superDesc n.1) i) (inodeOffset i + o)) {p : List ℕ} (hp : IsSlot p) :
    v.zoneAt n.1 i p = s.zoneAt n.1 i p :=
  Touched.zoneAt h hn hk (h.numberPos hi) hr.same hi (Or.inl hreg) hp fun o _ _ => hdesc o (by omega)

/-- **What `inode_truncate` frees.** Of what is no file nothing. -/
theorem Removing.truncated (hr : Removing s v n k i ino) (hfile : isDir (s.descOf n.1 i).mode = false)
    (hdesc : ∀ o, o ≠ 13 → v.blk n.1 (inodeBlock (s.superDesc n.1) i) (inodeOffset i + o)
      = s.blk n.1 (inodeBlock (s.superDesc n.1) i) (inodeOffset i + o))
    (hzbit : ∀ dev g, v.zbit dev g = s.zbit dev g) (hrun : inodeTruncate v ino = some w) :
    (∀ g, w.zbit n.1 g = true ↔ s.zbit n.1 g = true ∧ ¬(isFile (s.descOf n.1 i).mode = true ∧
      ∃ p, IsSlot p ∧ s.zoneAt n.1 i p ≠ 0 ∧ g = zonePos (s.superDesc n.1) (s.zoneAt n.1 i p))) ∧
    (isFile (s.descOf n.1 i).mode = true → (w.inodeDesc ino).size = 0 ∧ ∀ r < 9, (w.inodeDesc ino).zone r = 0) := by
  have hsuper := hr.superDesc h hn hk hi
  have hmode : (v.inodeDesc ino).mode = (s.descOf n.1 i).mode := by
    rw [hr.inodeDesc]
    exact mode_of_bytes hsuper (hdesc 0 (by decide)) (hdesc 1 (by decide))
  by_cases hreg : isFile (s.descOf n.1 i).mode = true
  · have htree := h.trees _ hi (Or.inl hreg)
    have hzone : ∀ {p}, IsSlot p → v.zoneAt n.1 i p = s.zoneAt n.1 i p := fun hp =>
      hr.zoneAt h hn hk hi hreg hdesc hp
    have htree' : TreeAt v n.1 i := by
      refine ⟨by rw [hsuper]; exact htree.inode, fun p hp => ?_, fun p q hp hq => ?_⟩
      · rw [hzone hp, DataZone, hsuper, hzbit]
        exact htree.zone p hp
      · rw [hzone hp, hzone hq]
        exact htree.inj p q hp hq
    have hl := hr.layout h hn hk hi
    obtain ⟨hdev, j, hj⟩ := hn.1.super
    have hsmall := (h.small hdev hj).1
    rw [← hsuper] at hsmall
    obtain ⟨x, hx, hrun'⟩ := inodeTruncate_emptied hl hsmall hr.holds htree' (Or.inl (hmode ▸ hreg))
    have htrunc := hx.truncated hl hr.holds
    rw [← Option.some.inj (hrun.symm.trans hrun')] at htrunc
    refine ⟨fun g => ?_, fun _ => ⟨htrunc.size, htrunc.zone⟩⟩
    by_cases hmem : ∃ p, IsSlot p ∧ s.zoneAt n.1 i p ≠ 0 ∧ g = zonePos (s.superDesc n.1) (s.zoneAt n.1 i p)
    · have hclear : w.zbit n.1 g = false := by
        obtain ⟨p, hp, hp0, rfl⟩ := hmem
        have hbit := htrunc.cleared p hp (by rw [hzone hp]; exact hp0)
        rwa [hzone hp, hsuper] at hbit
      rw [hclear]
      exact ⟨fun hc => Bool.noConfusion hc, fun hc => absurd ⟨hreg, hmem⟩ hc.2⟩
    · rw [htrunc.kept g fun p hp hp0 heq => hmem ?_, hzbit]
      · exact ⟨fun hbit => ⟨hbit, fun hc => hmem hc.2⟩, And.left⟩
      · rw [hzone hp] at hp0 heq
        rw [hsuper] at heq
        exact ⟨p, hp, hp0, heq⟩
  · have hno : isFile (v.inodeDesc ino).mode = false ∧ isDir (v.inodeDesc ino).mode = false := by
      rw [hmode]
      exact ⟨Bool.eq_false_iff.mpr hreg, hfile⟩
    rw [inodeTruncate, if_pos hno] at hrun
    obtain rfl := Option.some.inj hrun
    refine ⟨fun g => ?_, fun hc => absurd hc hreg⟩
    rw [hzbit]
    exact ⟨fun hbit => ⟨hbit, fun hc => hreg hc.1⟩, And.left⟩

/-- **The last link**: the file goes. -/
theorem Removing.unlinked_last (hfile : isDir (s.descOf n.1 i).mode = false) (hlast : (s.descOf n.1 i).nlinks = 1)
    (hblk : u.blk = s.blk) (hlists : OnlyLists s u) (hh : u.Holds n.1 i ino)
    (hv : unlinkStores u ino (s.entryOf n.1 n.2 k) = v) (htrunc : inodeTruncate v ino = some w)
    (hfree : ifree w (w.inodeTable ino).dev (w.inodeTable ino).nr = some t) :
    Unlinked s t n k i ∧ OnlyBlocks v t ∧ Removing s t n k i ino := by
  have hl := h.layoutOf hn.1
  have hpos := h.numberPos hi
  have hib := hl.inodeBlock_bounds hpos
  obtain ⟨-, -, hlo⟩ := h.entryZone hn hk
  have hdesc : ∀ o, o ≠ 13 → v.blk n.1 (inodeBlock (s.superDesc n.1) i) (inodeOffset i + o)
      = s.blk n.1 (inodeBlock (s.superDesc n.1) i) (inodeOffset i + o) := fun o ho =>
    hv ▸ unlinkStores_desc h hn hk hi hblk hh ho
  have hzbit : ∀ dev g, v.zbit dev g = s.zbit dev g := hv ▸ unlinkStores_zbit h hn hk hi hblk hlists hh
  have hibit : ∀ dev g, v.ibit dev g = s.ibit dev g := hv ▸ unlinkStores_ibit h hn hk hi hblk hlists hh
  have hlinks : (v.descOf n.1 i).nlinks = 0 := by
    rw [← hv, unlinkStores_nlinks h hn hk hi hblk hh, hlast]
  have hrv : Removing s v n k i ino := by
    have hrv : Removing s u n k i ino := ⟨hlists, hh, fun _ _ _ _ => by rw [hblk]⟩
    refine hrv.step h hn hk hi (hv ▸ (unlinkStores_within hblk hh).mono fun dev b o hc => ?_)
    obtain ⟨rfl, ⟨hb, hge, hlt⟩ | ⟨hb, rfl⟩⟩ := hc
    · exact ⟨rfl, Or.inl ⟨hb, hge, hlt⟩⟩
    · exact ⟨rfl, Or.inr (Or.inl ⟨hb, by omega, by omega⟩)⟩
  have hw := hrv.truncate h hn hk hi htrunc
  have hrw := hrv.truncate_touched h hn hk hi htrunc
  have hhead : HeadKept v w ino := by
    refine HeadKept.inodeTruncate (fun j _ => ?_) htrunc
    rw [hrv.holds.dev_eq, hrv.holds.buf, hrv.superDesc h hn hk hi, (hrv.lists.maps n.1).2]
    exact hl.zmap_ne_inodeBlock hpos j
  obtain ⟨hzone, hempty⟩ := hrv.truncated h hn hk hi hfile hdesc hzbit htrunc
  -- the inode bitmap is where `inode_truncate` does not store
  have hwibit : ∀ dev g, w.ibit dev g = s.ibit dev g := fun dev g => by
    rw [← hibit]
    refine ibit_kept (.of_superTable hw.only.superTable) (fun j b hj => funext fun o => hw.same _ _ _ fun hc => ?_) g
    rw [(hrv.lists.maps dev).1] at hj
    obtain ⟨rfl, ⟨j', hj'⟩ | ⟨rfl, -⟩⟩ := hc
    · have := hl.imap_bounds hj
      have := hl.zmap_bounds hj'
      omega
    · have := hl.imap_bounds hj
      omega
  have honly : OnlyIbit w n.1 i false t := hrw.free h hn hk hi (by rw [hwibit]; exact h.used _ hi) hfree
  have hlw := hrw.layout h hn hk hi
  have hout : ∀ dev b, (dev = n.1 → 2 + (s.superDesc n.1).imapBlocks ≤ b) → t.blk dev b = w.blk dev b := fun dev b hb => by
    refine honly.blk dev b (or_iff_not_imp_left.mpr fun hdev j hj => ?_)
    rw [(hrw.lists.maps n.1).1] at hj
    have := hl.imap_bounds hj
    have := hb (not_not.mp hdev)
    omega
  have honlyt : OnlyBlocks w t := ⟨honly.inodeTable, honly.superTable, honly.task, honly.time⟩
  have hrt : Removing s t n k i ino := by
    refine hrw.step h hn hk hi ⟨honlyt, fun dev b o hno => congrFun (honly.blk dev b ?_) o⟩
    refine or_iff_not_imp_left.mpr fun hdev j hj => hno ?_
    rw [(hrw.lists.maps n.1).1] at hj
    have := hl.imap_bounds hj
    exact ⟨not_not.mp hdev, Or.inr (Or.inr ⟨by omega, by omega⟩)⟩
  have htib : t.blk n.1 (inodeBlock (s.superDesc n.1) i) = w.blk n.1 (inodeBlock (s.superDesc n.1) i) :=
    hout _ _ fun _ => by omega
  have hbyte : ∀ o, (o < 4 ∨ 12 ≤ o ∧ o < 14) → t.blk n.1 (inodeBlock (s.superDesc n.1) i) (inodeOffset i + o)
      = v.blk n.1 (inodeBlock (s.superDesc n.1) i) (inodeOffset i + o) := fun o ho => by
    have hb := hhead.byte o ho
    rw [Fs.descBlk, Fs.descBlk, hhead.only.inodeTable, hrv.holds.dev_eq, hrv.holds.buf, hrv.holds.desc,
      hrv.superDesc h hn hk hi] at hb
    rw [htib]
    exact hb
  have hsuper := hrt.superDesc h hn hk hi
  have hwdesc : w.inodeDesc ino = t.descOf n.1 i := by
    rw [hrw.inodeDesc, Fs.descOf, Fs.descOf, hsuper, hrw.superDesc h hn hk hi, htib]
  refine ⟨⟨hrt.same, ?_, ?_, ?_, fun hc => absurd hlast hc, fun _ hreg => ?_, fun dev g => ?_, fun dev g => ?_⟩,
    hw.only.trans honlyt, hrt⟩
  · rw [← unlinkStores_entry h hn hk hi hblk hh, hv]
    refine congrArg (fun d : Bytes => d.getU16 (k % 64 * 16)) ((hout n.1 _ fun _ => ?_).trans ?_)
    · change _ ≤ s.zoneAt n.1 n.2 (bmapSlot (k / 64))
      omega
    · refine funext fun o => hw.same n.1 (s.zoneAt n.1 n.2 (bmapSlot (k / 64))) o fun hc => ?_
      obtain ⟨-, ⟨j', hj'⟩ | ⟨heq, -⟩⟩ := hc
      · have := hl.zmap_bounds hj'
        omega
      · omega
  · have h13 := hbyte 13 (by decide)
    have hnl : (t.descOf n.1 i).nlinks = (v.descOf n.1 i).nlinks := by
      rw [Fs.descOf, Fs.descOf, hsuper, hrv.superDesc h hn hk hi]
      exact congrArg BitVec.toNat h13
    rw [hnl, hlinks, hlast]
  · have h0 := (hbyte 0 (by decide)).trans (hdesc 0 (by decide))
    have h1 := (hbyte 1 (by decide)).trans (hdesc 1 (by decide))
    exact mode_of_bytes hsuper h0 h1
  · rw [← hwdesc]
    exact hempty hreg
  · by_cases hdev : dev = n.1
    · subst hdev
      rw [OnlyIbit.ibit hlw.mounted honly, hwibit]
      by_cases hg : g = i
      · simp [hg, hlast]
      · simp [hg]
    · have hsame : t.ibit dev g = w.ibit dev g :=
        ibit_kept (.of_superTable honly.superTable) (fun j b _ => hout dev b fun hc => absurd hc hdev) g
      rw [hsame, hwibit]
      simp [hdev]
  · have hsame : t.zbit dev g = w.zbit dev g := by
      refine zbit_kept (.of_superTable honly.superTable) (fun j b hj => hout dev b fun hc => ?_) g
      subst hc
      rw [(hrw.lists.maps n.1).2] at hj
      exact (hl.zmap_bounds hj).1
    rw [hsame]
    by_cases hdev : dev = n.1
    · subst hdev
      rw [hzone]
      simp only [hlast, true_and]
    · have hkept : w.zbit dev g = v.zbit dev g := by
        refine zbit_kept (.of_superTable hw.only.superTable) (fun j b _ => funext fun o => ?_) g
        exact hw.same _ _ _ fun hc => hdev hc.1
      rw [hkept, hzbit]
      simp [hdev]

end Last

/-! ### The call -/

/-- **Name and directory have been looked up**: entry `k` of directory `n` has the last name of the path, and the directory
and the inode of the entry are held. -/
structure Looked (s u : Fs) (path : CStr) (n : ℕ × ℕ) (k d ino : ℕ) : Prop where
  /-- The directory. -/
  opened : s.openDir path = some n
  /-- It is one. -/
  tree : s.TreeDir n
  /-- The entry. -/
  slot : s.slotOf n.1 n.2 (lastName path) = some k
  /-- What is held. -/
  walk : Walking s u [ino, d]
  /-- The super blocks. -/
  lists : OnlyLists s u
  /-- The directory in memory. -/
  dir : u.nodeOf d = n
  /-- The inode in memory. -/
  node : u.nodeOf ino = s.forest.down (n.1, s.dentryNr (s.entryOf n.1 n.2 k))

section Call

variable {s t u v : Fs} {path name rest : CStr} {n m : ℕ × ℕ} {k i d d' ino : ℕ} {entry : Dentry} {ret : ℤ}

theorem Walking.iputOpt {L : List ℕ} {o : Option ℕ} (hwf : s.WellFormed) (hroom : Room s.counts (L.length + 1))
    (h : Walking s u (o.toList ++ L)) (hrun : iputOpt u o = some t) : Walking s t L ∧ OnlyLists u t := by
  cases o with
  | none =>
    obtain rfl := Option.some.inj hrun
    exact ⟨h, .of_superTable rfl⟩
  | some i =>
    obtain ⟨v, hput, hv⟩ := Walking.iput hwf hroom h
    obtain rfl := Option.some.inj (hput.symm.trans hrun)
    exact ⟨hv, .iput hput⟩

/-- **The rollback gives everything back.** -/
theorem Walking.rollback (inode dir : Option ℕ) {r : ℤ} (hwf : s.WellFormed) (hroom : Room s.counts 2)
    (h : Walking s u (inode.toList ++ dir.toList)) (hrun : nameRollback u inode dir ret = some (r, t)) :
    Walking s t [] ∧ OnlyLists u t := by
  obtain ⟨v, hput, hrun⟩ := Option.bind_eq_some_iff.mp hrun
  obtain ⟨w, hput', hrun⟩ := Option.bind_eq_some_iff.mp hrun
  obtain ⟨-, rfl⟩ := Prod.mk.inj (Option.some.inj hrun)
  have hlen : dir.toList.length + 1 ≤ 2 := by
    cases dir with
    | none => exact Nat.le_succ 1
    | some d => exact Nat.le_refl 2
  obtain ⟨hv, hlists⟩ := h.iputOpt hwf (hroom.mono hlen) hput
  rw [← List.append_nil dir.toList] at hv
  obtain ⟨hw, hlists'⟩ := Walking.iputOpt (L := []) hwf (hroom.mono (Nat.le_succ 1)) hv hput'
  exact ⟨hw, hlists.trans hlists'⟩

/-- **`named`, `find_entry` and `iget`**, when each of them finds something. -/
theorem Looked.of_run (hwf : s.WellFormed) (hroom : Room s.counts 3) (hnamed : named s path = some (some (d, name), t))
    (hfind : findEntry t d name = some (d', some (entry, rest), u))
    (hget : iget u (u.inodeTable d').dev (u.dentryNr entry) = some (ino, v)) :
    ∃ n k, entry = s.entryOf n.1 n.2 k ∧ Looked s v path n k d' ino := by
  have htwo : Room s.counts 2 := hroom.mono (Nat.le_succ 2)
  have hpath : path ≠ [] := by
    rintro rfl
    exact absurd (Prod.mk.inj (Option.some.inj hnamed)).1 (by simp)
  have harr := (Walking.namedPath hwf htwo hpath).of_eq_some hnamed
  cases hgoal : (walkedNames path).foldlM s.forest.enter (s.nodeOf (pathStart s.task path)) with
  | none =>
    rw [hgoal] at harr
    exact absurd harr.1 (by simp)
  | some m =>
    rw [hgoal] at harr
    obtain ⟨i, hi, hw, hm, hdir⟩ := harr
    obtain ⟨rfl, rfl⟩ := Prod.mk.inj (Option.some.inj hi)
    subst hm
    obtain ⟨d₁, u₁, hfind₁, hu, hnode⟩ := hw.findEntry_last hwf htwo hdir (lastName_free path) rfl
    obtain ⟨rfl, hslot, rfl⟩ := Prod.mk.inj (Option.some.inj (hfind₁.symm.trans hfind)) |>.imp id Prod.mk.inj
    obtain ⟨k, hk, hentry⟩ := Option.map_eq_some_iff.mp hslot
    obtain ⟨rfl, -⟩ := Prod.mk.inj hentry
    have hopen : s.openDir path = some (s.forest.up (t.nodeOf d) (lastName path)) := by
      rw [Fs.openDir, hgoal]
      rfl
    have htree : s.TreeDir (s.forest.up (t.nodeOf d) (lastName path)) := hwf.up (hw.isNode hw.held.1 hw.held.2).1 hdir
    have hlists : OnlyLists s v := by
      have hinv := carried_onlyLists hwf.pinned
      have h₁ := hinv.named (L := []) hwf.pinned htwo ⟨(Walking.start hwf).holding, .of_superTable rfl⟩ hwf.starts hnamed
      have h₂ := hinv.findEntry (L := []) hwf.pinned h₁ htwo hfind
      have hdev := h₂.1.dev_ne List.mem_cons_self
      exact (hinv.iget (L := [d₁]) h₂ htwo hdev hget).2
    generalize s.forest.up (t.nodeOf d) (lastName path) = n at hnode hopen htree hk hget
    obtain ⟨hdev, ⟨k', hk'⟩, -⟩ := hnode ▸ hu.isNode hu.held.1 hu.held.2
    rw [show (u₁.inodeTable d₁).dev = n.1 from congrArg Prod.fst hnode] at hget
    obtain ⟨hv, -, hdown⟩ := (hu.iget_slot (L := [d₁]) hwf htwo (Nat.le_refl 1) hdev htree hk' hk).of_eq_some hget
    -- the directory is held while the inode is looked up
    have hpin : Pinned u₁.counts u₁ := hwf.pinned.walked hu.holding
    have hroom₁ : Room u₁.counts 1 := fun j hj => by
      have hcount := hu.holding.count j
      have hle : List.count j [d₁] ≤ 1 := List.count_le_length
      have hlt := hroom j hj
      rw [Fs.counts, hcount]
      omega
    have hkept := Holding.iget hpin (Holding.refl hu.holding.ok) hroom₁ hdev hget
    exact ⟨n, k, rfl, hopen, htree, hk, hv, hlists,
      (congrArg (fun p => (p.1, p.2.1)) (hkept.kept d₁ hu.held.2)).trans hnode, hdown⟩

theorem OnlyLists.symm (h : OnlyLists s t) : OnlyLists t s := fun k => by
  obtain ⟨l, hl⟩ := h k
  exact ⟨(s.superTable k).inodeList, by rw [hl]⟩

/-- A walk changes nothing of what a removal has left. -/
theorem Unlinked.walk (h : Unlinked s u n k i) (hblk : t.blk = u.blk) (hlists : OnlyLists u t) : Unlinked s t n k i where
  same dev b o hno := by rw [hblk, h.same dev b o hno]
  entry := by rw [dentryNr_of_blk hblk, h.entry]
  nlinks := by rw [descOf_of_blk hblk, h.nlinks]
  mode := by rw [descOf_of_blk hblk, h.mode]
  kept := by
    rw [hblk]
    exact h.kept
  emptied := by
    rw [descOf_of_blk hblk]
    exact h.emptied
  ibit dev g := by rw [ibit_of_blk hblk hlists, h.ibit]
  zbit dev g := by rw [zbit_of_blk hblk hlists, h.zbit]

/-- There are finitely many entries. -/
theorem Fs.Tidy.links_finite (h : s.Tidy) (m : ℕ × ℕ) : (s.links m).Finite := by
  refine Set.Finite.subset ((Set.finite_Iio 65536).prod (Set.finite_Iio 4294967296)) fun x hx => ?_
  obtain ⟨hdir, hlt, -⟩ := hx
  have hle := (h.inodePos hdir.1).2
  have hino : (s.superDesc (m.1, x.1).1).inodes < 65536 := getU16_lt _ _
  have hsize : (s.descOf m.1 x.1).size < 4294967296 := getU32_lt _ _
  have hentries : x.2 < 4294967296 := Nat.lt_of_lt_of_le hlt ((Nat.div_le_self _ 16).trans (Nat.le_of_lt hsize))
  exact Set.mem_prod.mpr ⟨Nat.lt_of_le_of_lt hle hino, hentries⟩

/-- A file with an entry has a link. -/
theorem Fs.Tidy.nlinks_pos (h : s.Tidy) (hn : s.TreeDir n) (hk : k < s.entries n.1 n.2)
    (hi : s.InTree (n.1, i)) (hfile : isDir (s.descOf n.1 i).mode = false)
    (hnr : s.dentryNr (s.entryOf n.1 n.2 k) = i) : (s.descOf n.1 i).nlinks ≠ 0 := by
  rw [show (s.descOf n.1 i).nlinks = (s.links (n.1, i)).ncard from h.links (n.1, i) hi hfile]
  exact Set.ncard_ne_zero_of_mem (show (n.2, k) ∈ s.links (n.1, i) from ⟨hn, hk, hnr⟩) (h.links_finite _)

/-- An inode that is no directory is that of the entry: what is mounted is a root. -/
theorem Looked.file (h : s.Tidy) (hl : Looked s u path n k d ino) (hfile : isDir (u.inodeDesc ino).mode = false) :
    u.nodeOf ino = (n.1, s.dentryNr (s.entryOf n.1 n.2 k)) := by
  have hnode := hl.node
  have hdesc := hl.walk.inodeDesc hl.walk.held.1 hl.walk.held.2
  rw [Fs.forest_down] at hnode
  cases hm : s.mountEntry (n.1, s.dentryNr (s.entryOf n.1 n.2 k)) with
  | none =>
    rw [hm] at hnode
    exact hnode
  | some m =>
    have hfound := List.find?_some hm
    rw [decide_eq_true_eq] at hfound
    obtain ⟨k', q, hk', -, hroot, hq⟩ :=
      h.wellFormed.mounts m (List.mem_range.mp (List.mem_of_find?_eq_some hm)) hfound.1
    obtain ⟨hqlt, hqused⟩ := h.wellFormed.pinned.iroot k' (getSuper_lt hk') q hroot
    have hqdev : (s.inodeTable q).dev ≠ EOF := mt (h.wellFormed.table.free_iff q hqlt).mp hqused
    rw [show (s.inodeTable q).dev = (s.inodeTable m).mount from congrArg Prod.fst hq] at hqdev
    rw [hm, Option.elim_some] at hnode
    rw [hdesc, hnode, h.roots hqdev hk'] at hfile
    exact Bool.noConfusion hfile

/-- **What is behind the stores**: the inodes are given back, and the forest is in order. -/
theorem Looked.finish (h : s.Tidy) (hroom : Room s.counts 3) (hl : Looked s u path n k d ino) (hk : k < s.entries n.1 n.2)
    (hi : s.InTree (n.1, i)) (hfile : isDir (s.descOf n.1 i).mode = false) (hnr : s.dentryNr (s.entryOf n.1 n.2 k) = i)
    (hv : Unlinked s v n k i) (honly : OnlyBlocks u v) (hrun : nameRollback v (some ino) (some d) 0 = some (ret, t)) :
    t.Tidy ∧ OnlyLists s t ∧ (∀ j, t.counts j = s.counts j) ∧ Unlinked s t n k i ∧ Walking { s with blk := v.blk } t [] := by
  have hlistsv : OnlyLists s v := hl.lists.trans (.of_superTable honly.superTable)
  have hs : Unlinked s { s with blk := v.blk } n k i := hv.walk rfl hlistsv.symm
  have honlys : OnlyBlocks s { s with blk := v.blk } := ⟨rfl, rfl, rfl, rfl⟩
  have htidy := hs.tidy h hl.tree hk hi hfile hnr honlys
  have hsuper : ∀ dev, v.superDesc dev = u.superDesc dev := fun dev =>
    (Touched.superDesc h hl.tree hk (h.numberPos hi) hv.same dev).trans (hl.walk.superDesc dev).symm
  have hold := (carried_holding h.wellFormed.pinned).blocks hl.walk.holding honly
  have hloaded := hl.walk.loaded
  have hwalk : Walking { s with blk := v.blk } v [ino, d] := by
    refine ⟨⟨hold.ok, hold.count, hold.lt, hold.kept, hold.supers⟩, ⟨?_, ?_, ?_, ?_⟩, rfl, ?_, fun j => ?_⟩
    · rw [honly.inodeTable, honly.superTable]
      simp only [Fs.getSuper_congr honly.superTable]
      exact hloaded.mem
    · rw [honly.inodeTable, honly.superTable]
      exact hloaded.dev_eq
    · rw [honly.inodeTable]
      exact fun j hj hused => (hloaded.holds j hj hused).of_same ⟨honly.inodeTable, hsuper _⟩
    · simp only [Fs.nodeOf, honly.inodeTable]
      exact hloaded.unique
    · exact honly.task.trans hl.walk.task
    · rw [honly.inodeTable]
      exact hl.walk.mount j
  have htwo : Room s.counts 2 := hroom.mono (Nat.le_succ 2)
  obtain ⟨hx, hlistsx⟩ := Walking.rollback (some ino) (some d) htidy.wellFormed htwo hwalk hrun
  refine ⟨htidy.walk hx (hlistsv.trans hlistsx), hlistsv.trans hlistsx, fun j => ?_, hv.walk hx.blk hlistsx, hx⟩
  exact (hx.holding.count j).trans (by rw [List.count_nil, Nat.add_zero]; rfl)

/-- **The end of the call** in a forest in order. -/
theorem Looked.unlinked (h : s.Tidy) (hroom : Room s.counts 3) (hl : Looked s u path n k d ino)
    (hfile : isDir (u.inodeDesc ino).mode = false) (hrun : unlinkEntry u ino d (s.entryOf n.1 n.2 k) = some (ret, t)) :
    k < s.entries n.1 n.2 ∧ s.InTree (n.1, s.dentryNr (s.entryOf n.1 n.2 k)) ∧
      isDir (s.descOf n.1 (s.dentryNr (s.entryOf n.1 n.2 k))).mode = false ∧
      ∃ v, t.Tidy ∧ OnlyLists s t ∧ (∀ j, t.counts j = s.counts j) ∧
        Unlinked s t n k (s.dentryNr (s.entryOf n.1 n.2 k)) ∧ Walking { s with blk := v } t [] := by
  have hk : k < s.entries n.1 n.2 := List.mem_range.mp (List.mem_of_find?_eq_some hl.slot)
  have hat : s.NameAt n.1 n.2 k (lastName path) := by simpa using List.find?_some hl.slot
  have hi : s.InTree (n.1, s.dentryNr (s.entryOf n.1 n.2 k)) := .child hl.tree.1 hl.tree.2 hk hat.1
  have hnode := hl.file h hfile
  have hdesc := hl.walk.inodeDesc hl.walk.held.1 hl.walk.held.2
  rw [hnode] at hdesc
  rw [hdesc] at hfile
  have hh : u.Holds n.1 (s.dentryNr (s.entryOf n.1 n.2 k)) ino := by
    have hh := hl.walk.loaded.holds ino hl.walk.held.1 hl.walk.held.2
    rw [show (u.inodeTable ino).dev = n.1 from congrArg Prod.fst hnode,
      show (u.inodeTable ino).nr = s.dentryNr (s.entryOf n.1 n.2 k) from congrArg Prod.snd hnode] at hh
    exact hh
  have hblk := hl.walk.blk
  refine ⟨hk, hi, hfile, ?_⟩
  generalize hnr : s.dentryNr (s.entryOf n.1 n.2 k) = i at hi hfile hh
  have hpos := h.nlinks_pos hl.tree hk hi hfile hnr
  have hlt : (s.descOf n.1 i).nlinks < 256 := getU8_lt _ _
  have hv := unlinkStores_nlinks h hl.tree hk hi hblk hh
  have hvdesc : (unlinkStores u ino (s.entryOf n.1 n.2 k)).inodeDesc ino
      = (unlinkStores u ino (s.entryOf n.1 n.2 k)).descOf n.1 i := by
    have honly := (unlinkStores_within hblk hh (k := k)).only
    have hsuper := Touched.superDesc h hl.tree hk (h.numberPos hi)
      (fun _ _ _ hno => unlinkStores_touched (k := k) hblk hh hno) n.1
    exact inodeDesc_eq (hh.of_same ⟨honly.inodeTable, hsuper.trans (hl.walk.superDesc n.1).symm⟩)
  rw [unlinkEntry_eq, hvdesc, hv] at hrun
  by_cases hlast : (s.descOf n.1 i).nlinks = 1
  · rw [hlast, if_pos rfl] at hrun
    obtain ⟨w, htrunc, hrun⟩ := Option.bind_eq_some_iff.mp hrun
    obtain ⟨x, hfree, hrun⟩ := Option.bind_eq_some_iff.mp hrun
    obtain ⟨hx, honly, -⟩ := Removing.unlinked_last h hl.tree hk hi hfile hlast hblk hl.lists hh rfl htrunc hfree
    have honlyx := (unlinkStores_within hblk hh (k := k)).only.trans honly
    exact ⟨x.blk, hl.finish h hroom hk hi hfile hnr hx honlyx hrun⟩
  · rw [if_neg (by omega)] at hrun
    have hx := unlinkStores_unlinked h hl.tree hk hi hblk hl.lists hh hlast hpos
    have honlyx := (unlinkStores_within hblk hh (k := k)).only
    exact ⟨_, hl.finish h hroom hk hi hfile hnr hx honlyx hrun⟩

/-- **What a call that returns 0 has looked up.** -/
theorem sysUnlink_looked (hwf : s.WellFormed) (hroom : Room s.counts 3) (hrun : sysUnlink s path = some (0, t)) :
    ∃ n k d ino u, Looked s u path n k d ino ∧ isDir (u.inodeDesc ino).mode = false ∧
      unlinkEntry u ino d (s.entryOf n.1 n.2 k) = some (0, t) := by
  have hfail : ∀ {s : Fs} {inode dir : Option ℕ}, nameRollback s inode dir (-1) ≠ some (0, t) := fun h =>
    absurd (nameRollback_ret h) (by decide)
  obtain ⟨⟨dir, s₁⟩, hnamed, hrun⟩ := Option.bind_eq_some_iff.mp hrun
  cases dir with
  | none => exact absurd hrun hfail
  | some p =>
    simp only at hrun
    split at hrun
    · exact absurd hrun hfail
    · obtain ⟨⟨d, found, s₂⟩, hfind, hrun⟩ := Option.bind_eq_some_iff.mp hrun
      cases found with
      | none => exact absurd hrun hfail
      | some e =>
        obtain ⟨⟨i, s₃⟩, hget, hrun⟩ := Option.bind_eq_some_iff.mp hrun
        simp only at hrun
        split at hrun
        · exact absurd hrun hfail
        · obtain ⟨n, k, hentry, hl⟩ := Looked.of_run hwf hroom hnamed hfind hget
          have hno := (not_or.mp ‹¬_›).1
          rw [hentry] at hrun
          exact ⟨n, k, d, i, s₃, hl, Bool.eq_false_iff.mpr hno, hrun⟩

/-- **A call that fails** has walked, and given everything back. -/
theorem sysUnlink_walking (hwf : s.WellFormed) (hroom : Room s.counts 3) (hrun : sysUnlink s path = some (ret, t))
    (hret : ret ≠ 0) : Walking s t [] ∧ OnlyLists s t := by
  have htwo : Room s.counts 2 := hroom.mono (Nat.le_succ 2)
  have hready := hwf.callReady hroom
  obtain ⟨⟨dir, s₁⟩, hnamed, hrun⟩ := Option.bind_eq_some_iff.mp hrun
  have hs₁ := hready.named (L := []) hready.start (Nat.zero_le 1) rfl hnamed
  rcases eq_or_ne path [] with rfl | hpath
  · obtain ⟨rfl, rfl⟩ := Prod.mk.inj (Option.some.inj hnamed)
    exact Walking.rollback none none hwf htwo (Walking.start hwf) hrun
  have harr := (Walking.namedPath hwf htwo hpath).of_eq_some hnamed
  cases hgoal : (walkedNames path).foldlM s.forest.enter (s.nodeOf (pathStart s.task path)) with
  | none =>
    rw [hgoal] at harr
    obtain ⟨rfl, hw⟩ := harr
    obtain ⟨ht, hlists⟩ := Walking.rollback none none hwf htwo hw hrun
    exact ⟨ht, hs₁.inv.2.trans hlists⟩
  | some m =>
    rw [hgoal] at harr
    obtain ⟨i, rfl, hw, rfl, hdir⟩ := harr
    simp only at hrun
    split at hrun
    · obtain ⟨ht, hlists⟩ := Walking.rollback none (some i) hwf htwo hw hrun
      exact ⟨ht, hs₁.inv.2.trans hlists⟩
    · obtain ⟨d, u, hfind, hu, -⟩ := hw.findEntry_last hwf htwo hdir (lastName_free path) rfl
      rw [hfind] at hrun
      have hs₂ := hready.findEntry (L := []) hs₁ (Nat.zero_le 1) hfind
      cases hslot : s.slotOf (s.forest.up (s₁.nodeOf i) (lastName path)).1 (s.forest.up (s₁.nodeOf i) (lastName path)).2
          (lastName path) with
      | none =>
        rw [hslot] at hrun
        obtain ⟨ht, hlists⟩ := Walking.rollback none (some d) hwf htwo hu hrun
        exact ⟨ht, hs₂.inv.2.trans hlists⟩
      | some k =>
        rw [hslot] at hrun hfind
        simp only [Option.map_some, Option.bind_eq_bind, Option.bind_some] at hrun
        obtain ⟨⟨ino, v⟩, hget, hrun⟩ := Option.bind_eq_some_iff.mp hrun
        obtain ⟨n, k', -, hl⟩ := Looked.of_run hwf hroom hnamed hfind hget
        simp only at hrun
        split at hrun
        · obtain ⟨ht, hlists⟩ := Walking.rollback (some ino) (some d) hwf htwo hl.walk hrun
          exact ⟨ht, hl.lists.trans hlists⟩
        · exact absurd (unlinkEntry_ret hrun) hret

end Call

/-- **The files that are left are what they were**, byte for byte. -/
def FilesKept (s t : Fs) : Prop := ∀ m, t.InTree m → s.InTree m ∧ (t.descOf m.1 m.2).mode = (s.descOf m.1 m.2).mode ∧
  (isFile (s.descOf m.1 m.2).mode = true → (t.descOf m.1 m.2).size = (s.descOf m.1 m.2).size ∧
    ∀ o, o / 1024 < totalBlock → t.fileByte m.1 m.2 o = s.fileByte m.1 m.2 o)

theorem FilesKept.trans {s t u : Fs} (h : FilesKept s t) (h' : FilesKept t u) : FilesKept s u := fun m hm => by
  obtain ⟨hmt, hmode', hkept'⟩ := h' m hm
  obtain ⟨hms, hmode, hkept⟩ := h m hmt
  refine ⟨hms, hmode'.trans hmode, fun hreg => ?_⟩
  obtain ⟨hsize, hbyte⟩ := hkept hreg
  obtain ⟨hsize', hbyte'⟩ := hkept' (by rw [hmode]; exact hreg)
  exact ⟨hsize'.trans hsize, fun o ho => (hbyte' o ho).trans (hbyte o ho)⟩

theorem FilesKept.of_blk {s t : Fs} (hblk : t.blk = s.blk) (hsuper : ∀ dev, t.getSuper dev = s.getSuper dev) :
    FilesKept s t := fun m hm => by
  refine ⟨InTree.of_blk hblk.symm (fun dev => (hsuper dev).symm) hm, by rw [descOf_of_blk hblk], fun _ => ⟨?_, fun o _ => ?_⟩⟩
  · rw [descOf_of_blk hblk]
  · rw [Fs.fileByte, Fs.fileByte, zoneAt_of_blk hblk, hblk]

/-- A file that has lost a link and not the last has kept the rest. -/
theorem Unlinked.filesKept {s t : Fs} {n : ℕ × ℕ} {k i : ℕ} (h : s.Tidy) (hn : s.TreeDir n) (hk : k < s.entries n.1 n.2)
    (hi : s.InTree (n.1, i)) (hfile : isDir (s.descOf n.1 i).mode = false) (hnr : s.dentryNr (s.entryOf n.1 n.2 k) = i)
    (hu : Unlinked s t n k i) (hlists : OnlyLists s t) : FilesKept s t := by
  have hpos := h.numberPos hi
  -- what is in the trees does not depend on the tables
  have hs : Unlinked s { s with blk := t.blk } n k i := hu.walk rfl hlists.symm
  have honly : OnlyBlocks s { s with blk := t.blk } := ⟨rfl, rfl, rfl, rfl⟩
  intro m hm
  have hms : ({ s with blk := t.blk } : Fs).InTree m :=
    InTree.of_blk (s := t) rfl (fun dev => (hlists.getSuper dev).symm) hm
  have hin := hs.inTree h hn hk hi hfile honly hms
  refine ⟨hin, hu.mode_eq h hn hk hi hin, fun hreg => ?_⟩
  have hmn : m ≠ n := by
    rintro rfl
    have hdir := hn.2
    rw [isDir, beq_iff_eq] at hdir
    rw [isFile, hdir] at hreg
    exact absurd hreg (by decide)
  have hsuper := Touched.superDesc h hn hk hpos hu.same m.1
  constructor
  · rcases eq_or_ne m (n.1, i) with rfl | hne
    · have hkept := hu.kept fun hlast => hs.gone h hn hk hi hfile hnr honly hlast hms
      change (t.descOf n.1 i).size = (s.descOf n.1 i).size
      rw [Fs.descOf, Fs.descOf, hsuper]
      refine getU32_congr fun o ho ho' => ?_
      have hb := hkept (o - inodeOffset i) (by omega) (by omega)
      rwa [show inodeOffset i + (o - inodeOffset i) = o by omega] at hb
    · exact (hu.sameDesc h hn hk hi hin hne).size
  · intro o ho
    rw [totalBlock_eq] at ho
    have hp := isSlot_bmapSlot ho
    have hzone : t.zoneAt m.1 m.2 (bmapSlot (o / 1024)) = s.zoneAt m.1 m.2 (bmapSlot (o / 1024)) :=
      hs.zoneAt h hn hk hi hfile hnr honly hms (Or.inl hreg) hp
    rw [Fs.fileByte, Fs.fileByte, hzone]
    by_cases h0 : s.zoneAt m.1 m.2 (bmapSlot (o / 1024)) = 0
    · -- a block that is not there is read from block 0, which is no place of a removal
      rw [h0]
      refine hu.same _ _ _ fun hc => ?_
      obtain ⟨-, -, hlo⟩ := h.entryZone hn hk
      have hib := (h.layoutOf hn.1).inodeBlock_bounds hpos
      have hz : s.zoneAt n.1 n.2 (bmapSlot (k / 64)) ≠ 0 := (h.entryZone hn hk).2.1
      obtain ⟨-, ⟨hb, -⟩ | ⟨hb, -⟩ | ⟨hb, -⟩⟩ := hc
      · exact hz hb.symm
      · omega
      · omega
    · rw [Touched.block h hn hk hpos hu.same hin (Or.inl hreg) hmn hp h0]

section Step

variable {s t u : Fs} {path : CStr} {ret : ℤ}

/-- **One call**, whatever it returns. -/
theorem sysUnlink_step (h : s.Tidy) (hroom : Room s.counts 3) (hrun : sysUnlink s path = some (ret, t)) :
    t.Tidy ∧ (∀ j, t.counts j = s.counts j) ∧ (∀ j, s.counts j ≠ 0 → t.nodeOf j = s.nodeOf j) ∧
      (∀ m, s.TreeDir m → t.TreeDir m) ∧ FilesKept s t := by
  by_cases hret : ret = 0
  · subst hret
    obtain ⟨n, k, d, ino, u, hl, hfile, hend⟩ := sysUnlink_looked h.wellFormed hroom hrun
    obtain ⟨hk, hi, hreg, v, ht, hlists, hcounts, hu, hw⟩ := hl.unlinked h hroom hfile hend
    have hs : Unlinked s { s with blk := t.blk } n k _ := hu.walk rfl hlists.symm
    refine ⟨ht, hcounts, fun j hj => hw.nodeOf hj, fun m hm => ?_, hu.filesKept h hl.tree hk hi hreg rfl hlists⟩
    have hd := (hs.treeDir_iff h hl.tree hk hi hreg rfl ⟨rfl, rfl, rfl, rfl⟩ (m := m)).mpr hm
    exact ⟨InTree.of_blk (s := { s with blk := t.blk }) rfl hlists.getSuper hd.1, hd.2⟩
  · obtain ⟨hw, hlists⟩ := sysUnlink_walking h.wellFormed hroom hrun hret
    refine ⟨h.walk hw hlists, fun j => ?_, fun j hj => hw.nodeOf hj, fun m hm => ⟨InTree.of_blk hw.blk hlists.getSuper hm.1, ?_⟩,
      .of_blk hw.blk hlists.getSuper⟩
    · exact (hw.holding.count j).trans (by rw [List.count_nil, Nat.add_zero])
    · rw [descOf_of_blk hw.blk]
      exact hm.2

end Step

/-- **A run of calls of `sys_unlink`** by tasks of a list, in any order, and whatever they return. -/
inductive UnlinkRun (tasks : List Task) (s : Fs) : Fs → Prop
  /-- Nothing has been called. -/
  | start : UnlinkRun tasks s s
  /-- One more call. -/
  | call {t u : Fs} {task : Task} {filename : CStr} {ret : ℤ} : UnlinkRun tasks s t → task ∈ tasks →
      sysUnlink { t with task := task } filename = some (ret, u) → UnlinkRun tasks s u

theorem sharedFs_fileZone {p : List ℕ} (hp : IsSlot p) : sharedFs.zoneAt 1 2 p = 0 := by
  have hroot : ∀ r < 9, sharedFs.zoneAt 1 2 [r] = 0 := by decide
  cases hp with
  | @root r hr => exact hroot r hr
  | single hj => exact zoneAt_cons_of_null (hroot 7 (by omega))
  | middle hj => exact zoneAt_cons_of_null (hroot 8 (by omega))
  | double hk hj => exact zoneAt_cons_of_null (zoneAt_cons_of_null (hroot 8 (by omega)))

theorem sharedFs_links : sharedFs.links (1, 2) = {(1, 2)} := by
  ext x
  rw [Fs.links, Set.mem_ofPred_eq, Set.mem_singleton_iff]
  constructor
  · rintro ⟨hdir, hlt, hnr⟩
    obtain ⟨-, hx⟩ := Prod.mk.inj (OneFile.treeDir (d := sharedBlocks) sharedFs_oneFile hdir)
    rw [hx, sharedFs_oneFile.entries] at hlt
    rw [hx, sharedFs_oneFile.entry x.2 hlt] at hnr
    have hlast : ∀ k < 3, [1, 1, 2].getD k 0 = 2 → k = 2 := by decide
    exact Prod.ext hx (hlast x.2 hlt hnr)
  · rintro rfl
    refine ⟨OneFile.rootDir (d := sharedBlocks) sharedFs_oneFile, ?_, ?_⟩
    · rw [sharedFs_oneFile.entries]
      decide
    · exact sharedFs_oneFile.entry 2 (by decide)

theorem sharedFs_tidy : sharedFs.Tidy := by
  have hdev : ∀ {dev k}, dev ≠ EOF → sharedFs.getSuper dev = some k → dev = 1 := fun hdev hk =>
    userFs_dev (d := sharedBlocks) hdev hk
  have hin : ∀ {n}, sharedFs.InTree n → n = (1, 1) ∨ n = (1, 2) := fun hn =>
    OneFile.inTree (d := sharedBlocks) sharedFs_oneFile hn
  refine ⟨sharedFs_wellFormed, fun hd hk => ?_, fun hd hk => ?_, fun hd hk => ?_, fun n hn _ => ?_,
    fun n m hn hm _ _ _ hne p q hp hq hp0 => ?_, fun n hn => ?_, fun n hn hfile => ?_⟩
  · rw [hdev hd hk]
    exact sharedFs_layout
  · rw [hdev hd hk, sharedFs_desc]
    decide
  · rw [hdev hd hk]
    exact sharedFs_oneFile.root
  · rcases hin hn with rfl | rfl
    · exact sharedFs_takesEntry.tree
    · refine ⟨by rw [sharedFs_desc]; exact ⟨by decide, by decide⟩, fun p hp hp0 => ?_, fun p q hp hq hp0 _ => ?_⟩
      · exact absurd (sharedFs_fileZone hp) hp0
      · exact absurd (sharedFs_fileZone hp) hp0
  · rcases hin hn with rfl | rfl
    · rcases hin hm with rfl | rfl
      · exact absurd rfl hne
      · rw [sharedFs_fileZone hq]
        exact hp0
    · exact absurd (sharedFs_fileZone hp) hp0
  · rcases hin hn with rfl | rfl
    · decide +kernel
    · decide +kernel
  · rcases hin hn with rfl | rfl
    · exact absurd (sharedFs_oneFile.root.symm.trans hfile) (by decide)
    · rw [sharedFs_links, Set.ncard_singleton]
      decide

theorem sharedFs_roomThree : Room sharedFs.counts 3 := fun j _ => by
  change ((rootFs sharedBlocks 8).inodeTable j).count + 3 < _
  rw [rootFs_inode]
  split
  · decide
  · decide

end Onixs
