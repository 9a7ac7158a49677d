import Onixs.Fs.Bmap
import Onixs.Fs.ZoneMap

/-!
# Linking a zone into a zone tree

What `bmap` does at an empty slot: it takes a free zone and stores its number in the
slot (`Onixs.Fs.link`). The zone tree of an inode is well formed
(`Onixs.TreeAt`) when the zones in its slots are data zones of the device, marked used,
and pairwise distinct. The first part of the file follows a link through the three
places it touches, a bitmap block, the slot, and – only by what it makes visible – the
contents of the zone: every slot outside the new zone is as before
(`Onixs.zoneAt_link`), and a slot inside it holds what was left there
(`Onixs.zoneAt_link_child`).

One pass of the loop of `bmap` is then either a read or a link of the first free zone
(`Onixs.bmapEntry_of_ne`, `Onixs.bmapEntry_link`).
-/

namespace Onixs

open Bytes

/-! ### The order of the blocks -/

/-- **The device is mounted and its blocks are in order**: the inode table follows the
bitmaps and ends before the first data zone. -/
structure Layout (s : Fs) (dev : ℕ) : Prop where
  /-- The device is mounted. -/
  mounted : Mounted s dev
  /-- The inode table ends before the first data zone. -/
  inodes : 2 + (s.superDesc dev).imapBlocks + (s.superDesc dev).zmapBlocks
    + ((s.superDesc dev).inodes + 31) / 32 ≤ (s.superDesc dev).firstdatazone

section Layout

variable {s : Fs} {dev nr : ℕ} (hl : Layout s dev)

include hl

theorem Layout.inodeBlock_bounds (h : InodePos (s.superDesc dev) nr) :
    2 + (s.superDesc dev).imapBlocks + (s.superDesc dev).zmapBlocks
        ≤ inodeBlock (s.superDesc dev) nr ∧
      inodeBlock (s.superDesc dev) nr < (s.superDesc dev).firstdatazone := by
  obtain ⟨h1, h2⟩ := h
  have hlt : (s.superDesc dev).inodes < 65536 := getU16_lt _ _
  have hi := hl.inodes
  rw [inodeBlock_eq h1 (by omega)]
  omega

theorem Layout.zmap_lt {i b : ℕ} (h : s.zmaps dev i = some b) :
    b < 2 + (s.superDesc dev).imapBlocks + (s.superDesc dev).zmapBlocks := by
  rw [hl.mounted.zmaps] at h
  split at h
  · have := Option.some.inj h
    omega
  · exact absurd h (by simp)

theorem Layout.zmap_ne_inodeBlock (h : InodePos (s.superDesc dev) nr) (i : ℕ) :
    s.zmaps dev i ≠ some (inodeBlock (s.superDesc dev) nr) := by
  intro hc
  have h1 := hl.zmap_lt hc
  have h2 := hl.inodeBlock_bounds h
  omega

/-- A data zone is no bitmap block. -/
theorem Layout.zmap_ne_zone {z : ℕ} (h : (s.superDesc dev).firstdatazone ≤ z) (i : ℕ) :
    s.zmaps dev i ≠ some z := by
  intro hc
  have h1 := hl.zmap_lt hc
  have h2 := hl.inodes
  omega

theorem Layout.of_same {t : Fs} (htable : t.superTable = s.superTable)
    (hblk : t.blk dev 1 = s.blk dev 1) :
    Layout t dev ∧ t.superDesc dev = s.superDesc dev ∧ t.zmaps dev = s.zmaps dev := by
  obtain ⟨hm, hdesc, hz, -⟩ := hl.mounted.of_same htable hblk
  exact ⟨⟨hm, by rw [hdesc]; exact hl.inodes⟩, hdesc, hz⟩

end Layout

/-! ### Well-formed zone trees -/

/-- Zone `z` is a data zone of the device and marked used. -/
def DataZone (s : Fs) (dev z : ℕ) : Prop :=
  (s.superDesc dev).firstdatazone ≤ z ∧ z < (s.superDesc dev).zones ∧
    s.zbit dev (zonePos (s.superDesc dev) z) = true

/-- The zones in the slots `S` of the inode's tree are data zones, and distinct. -/
structure ZonesAt (S : List ℕ → Prop) (s : Fs) (dev nr : ℕ) : Prop where
  /-- There is such an inode. -/
  inode : InodePos (s.superDesc dev) nr
  /-- A zone of the tree is a data zone. -/
  zone : ∀ p, S p → s.zoneAt dev nr p ≠ 0 → DataZone s dev (s.zoneAt dev nr p)
  /-- The zones of the tree are distinct. -/
  inj : ∀ p q, S p → S q → s.zoneAt dev nr p ≠ 0 → s.zoneAt dev nr p = s.zoneAt dev nr q → p = q

/-- The index blocks of the inode's tree are data zones, and distinct. -/
abbrev NodesAt : Fs → ℕ → ℕ → Prop := ZonesAt IsNode

/-- **A well-formed zone tree**: the zones of the inode are data zones, and distinct. -/
abbrev TreeAt : Fs → ℕ → ℕ → Prop := ZonesAt IsSlot

theorem ZonesAt.nodes {s : Fs} {dev nr : ℕ} (h : TreeAt s dev nr) : NodesAt s dev nr where
  inode := h.inode
  zone p hp := h.zone p hp.isSlot
  inj p q hp hq := h.inj p q hp.isSlot hq.isSlot

/-- A data zone in use is not a free one. -/
theorem DataZone.ne_free {s : Fs} {dev z z' : ℕ} (h : DataZone s dev z) (h' : ZoneFree s dev z') :
    z ≠ z' := by
  rintro rfl
  have h1 := h.2.2
  rw [h'.2.2] at h1
  exact Bool.noConfusion h1

namespace Fs

variable (s : Fs) (dev nr : ℕ)

/-- The block and the offset where a slot lies. -/
def slotPlace : List ℕ → ℕ × ℕ
  | [] => (0, 0)
  | [r] => (inodeBlock (s.superDesc dev) nr, inodeOffset nr + 14 + 2 * r)
  | j :: i :: p => (s.zoneAt dev nr (i :: p), 2 * j)

/-- The state with zone `z` marked used and its number stored in a slot. -/
def link (p : List ℕ) (z : ℕ) : Fs :=
  (s.setZbit dev (zonePos (s.superDesc dev) z) true).setBlk dev (s.slotPlace dev nr p).1
    ((s.blk dev (s.slotPlace dev nr p).1).putU16 (s.slotPlace dev nr p).2 z)

end Fs

/-- A slot that can be reached: no pointer on the way to it is null. -/
def Reached (s : Fs) (dev nr : ℕ) (p : List ℕ) : Prop :=
  ∀ j i t, p = j :: i :: t → s.zoneAt dev nr (i :: t) ≠ 0

/-! ### What a link changes -/

section Link

variable {s : Fs} {dev nr z : ℕ} {p : List ℕ} (hl : Layout s dev) (hn : NodesAt s dev nr)
  (hp : IsSlot p) (hreach : Reached s dev nr p) (hz : ZoneFree s dev z)

theorem ZoneFree.lt (hz : ZoneFree s dev z) : z < 65536 :=
  lt_trans hz.2.1 (getU16_lt _ _)

include hl in
theorem ZoneFree.pos (hz : ZoneFree s dev z) : z ≠ 0 := by
  have h1 := hl.mounted.firstdatazone
  have h2 := hz.1
  omega

include hl hn hp hreach

omit hl in
/-- A slot lies in the inode's descriptor or in an index block of the tree. -/
theorem slotPlace_cases :
    (∃ r < 9, p = [r] ∧ s.slotPlace dev nr p
        = (inodeBlock (s.superDesc dev) nr, inodeOffset nr + 14 + 2 * r)) ∨
      ∃ j i t, p = j :: i :: t ∧ j < 512 ∧ IsNode (i :: t) ∧ DataZone s dev (s.zoneAt dev nr (i :: t)) ∧
        s.slotPlace dev nr p = (s.zoneAt dev nr (i :: t), 2 * j) := by
  match p, hp with
  | [], hp => exact absurd rfl hp.ne_nil
  | [r], hp => exact Or.inl ⟨r, hp.root_lt, rfl, rfl⟩
  | j :: i :: t, hp =>
    obtain ⟨hj, hnode⟩ := (isSlot_cons_iff (by simp)).mp hp
    exact Or.inr ⟨j, i, t, rfl, hj, hnode, hn.zone _ hnode (hreach j i t rfl), rfl⟩

theorem zmap_ne_slotPlace (i : ℕ) : s.zmaps dev i ≠ some (s.slotPlace dev nr p).1 := by
  rcases slotPlace_cases hn hp hreach with ⟨r, -, -, heq⟩ | ⟨j, i', t, -, -, -, hdz, heq⟩
  · rw [heq]
    exact hl.zmap_ne_inodeBlock hn.inode i
  · rw [heq]
    exact hl.zmap_ne_zone hdz.1 i

omit hl hn hp hreach in
/-- A block that is neither a bitmap block nor holds the slot is left alone. -/
theorem link_blk_of_ne {dev' y : ℕ}
    (hy : dev' ≠ dev ∨ (∀ i, s.zmaps dev i ≠ some y) ∧ y ≠ (s.slotPlace dev nr p).1) :
    (s.link dev nr p z).blk dev' y = s.blk dev' y := by
  rw [Fs.link, Fs.setBlk_blk_of_ne _ _ (hy.imp_right And.right), Fs.setZbit,
    setMapBit_blk_of_ne (hy.imp_right And.left)]

omit hl hn hp hreach in
/-- In the block of the slot the slot is stored. -/
theorem link_blk_self :
    (s.link dev nr p z).blk dev (s.slotPlace dev nr p).1
      = (s.blk dev (s.slotPlace dev nr p).1).putU16 (s.slotPlace dev nr p).2 z := by
  rw [Fs.link, Fs.setBlk_blk_self]

omit hl hn hp hreach in
/-- A word outside the bitmap reads as before, unless it is the slot. -/
theorem getU16_link {y o : ℕ} (hy : ∀ i, s.zmaps dev i ≠ some y) (hz : z < 65536)
    (ho : y = (s.slotPlace dev nr p).1 →
      o = (s.slotPlace dev nr p).2 ∨ o + 2 ≤ (s.slotPlace dev nr p).2 ∨
        (s.slotPlace dev nr p).2 + 2 ≤ o) :
    ((s.link dev nr p z).blk dev y).getU16 o
      = if y = (s.slotPlace dev nr p).1 ∧ o = (s.slotPlace dev nr p).2 then z
        else (s.blk dev y).getU16 o := by
  by_cases hsame : y = (s.slotPlace dev nr p).1
  · subst hsame
    rw [link_blk_self]
    rcases ho rfl with heq | hdis
    · rw [if_pos ⟨rfl, heq⟩, heq, getU16_putU16_self, Nat.mod_eq_of_lt hz]
    · have hne : o ≠ (s.slotPlace dev nr p).2 := by omega
      rw [if_neg fun h => hne h.2, getU16_putU16_of_disjoint _ _ hdis]
  · rw [link_blk_of_ne (Or.inr ⟨hy, hsame⟩), if_neg fun h => hsame h.1]

omit hl hn hp hreach in
theorem link_superTable : (s.link dev nr p z).superTable = s.superTable := by
  rw [Fs.link, Fs.setBlk_superTable, Fs.setZbit, setMapBit_superTable]

omit hl hn hp hreach in
theorem link_inodeTable : (s.link dev nr p z).inodeTable = s.inodeTable := by
  rw [Fs.link, Fs.setBlk_inodeTable, Fs.setZbit, setMapBit_inodeTable]

omit hl hn hp hreach in
theorem link_task : (s.link dev nr p z).task = s.task := by
  rw [Fs.link, Fs.setBlk_task, Fs.setZbit, setMapBit_task]

omit hl hn hp hreach in
theorem link_time : (s.link dev nr p z).time = s.time := by
  rw [Fs.link, Fs.setBlk_time, Fs.setZbit, setMapBit_time]

theorem slotPlace_ne_one : (s.slotPlace dev nr p).1 ≠ 1 := by
  have h1 := hl.inodes
  rcases slotPlace_cases hn hp hreach with ⟨r, -, -, heq⟩ | ⟨j, i', t, -, -, -, hdz, heq⟩
  · have h2 := hl.inodeBlock_bounds hn.inode
    rw [heq]
    dsimp only
    omega
  · have h2 := hdz.1
    rw [heq]
    dsimp only
    omega

theorem layout_link : Layout (s.link dev nr p z) dev ∧
    (s.link dev nr p z).superDesc dev = s.superDesc dev ∧
    (s.link dev nr p z).zmaps dev = s.zmaps dev :=
  hl.of_same link_superTable
    (link_blk_of_ne (Or.inr ⟨hl.mounted.zmap_ne_one, (slotPlace_ne_one hl hn hp hreach).symm⟩))

/-- The bit of the zone is set, and no other bit changes. -/
theorem zbit_link (hz : ZoneFree s dev z) (g : ℕ) : (s.link dev nr p z).zbit dev g
    = if g = zonePos (s.superDesc dev) z then true else s.zbit dev g := by
  obtain ⟨b, hb⟩ := buffer_of_clear hz.2.2
  have honly := (OnlyZbit.of_setZbit hl.mounted hb true).bits g
  rw [Fs.zbit, (layout_link hl hn hp hreach).2.2]
  refine Eq.trans ?_ honly
  rw [Fs.mapBit, Fs.mapBit]
  cases hg : s.zmaps dev (g / 8192) with
  | none => rfl
  | some b' =>
    have hne : b' ≠ (s.slotPlace dev nr p).1 := fun hc =>
      zmap_ne_slotPlace hl hn hp hreach _ (hc ▸ hg)
    simp only [Fs.link, Fs.setBlk_blk_of_ne _ _ (Or.inr hne)]

/-- The entries of a data zone, after the link. -/
theorem zoneEntry_link {y j : ℕ} (hy : (s.superDesc dev).firstdatazone ≤ y) (hz : z < 65536) :
    (s.link dev nr p z).zoneEntry dev y j
      = if (y, 2 * j) = s.slotPlace dev nr p then z else s.zoneEntry dev y j := by
  rw [Fs.zoneEntry, getU16_link (hl.zmap_ne_zone hy) hz, Fs.zoneEntry]
  · simp only [Prod.ext_iff]
  · intro hsame
    rcases slotPlace_cases hn hp hreach with ⟨r, -, -, heq⟩ | ⟨j', i', t, -, -, -, hdz, heq⟩
    · have h2 := hl.inodeBlock_bounds hn.inode
      rw [hsame, heq] at hy
      dsimp only at hy
      omega
    · rw [heq]
      dsimp only
      omega

/-- The roots of an inode's tree, after a link in the tree of another or the same one. -/
theorem rootZone_link {nr' r : ℕ} (hnr' : InodePos (s.superDesc dev) nr') (hr : r < 9)
    (hz : z < 65536) :
    (s.link dev nr p z).rootZone dev nr' r
      = if nr' = nr ∧ p = [r] then z else s.rootZone dev nr' r := by
  have hlt : (s.superDesc dev).inodes < 65536 := getU16_lt _ _
  have h1 := hn.inode
  have hdesc := (layout_link (z := z) hl hn hp hreach).2.1
  have hb := hl.inodeBlock_bounds hnr'
  have hz' := hl.zmap_ne_inodeBlock hnr'
  rw [Fs.rootZone, Fs.rootZone, hdesc]
  rcases slotPlace_cases hn hp hreach with ⟨r', hr', rfl, heq⟩ | ⟨j', i', t, rfl, -, -, hdz, heq⟩
  · by_cases hnr : nr' = nr
    · subst hnr
      rw [getU16_link hz' hz fun _ => by rw [heq]; dsimp only; omega, heq]
      dsimp only
      by_cases hrr : r' = r
      · subst hrr
        rw [if_pos ⟨rfl, rfl⟩, if_pos ⟨rfl, rfl⟩]
      · rw [if_neg fun h => hrr (by omega), if_neg fun h => hrr (by simpa using h.2)]
    · have hapart : inodeBlock (s.superDesc dev) nr' = inodeBlock (s.superDesc dev) nr →
          inodeOffset nr' + 32 ≤ inodeOffset nr ∨ inodeOffset nr + 32 ≤ inodeOffset nr' :=
        fun h => inodeOffset_apart hnr'.1 (by have := hnr'.2; omega) h1.1 (by have := h1.2; omega) h hnr
      rw [getU16_link hz' hz fun h => by rw [heq] at h ⊢; have := hapart h; dsimp only; omega, heq]
      rw [if_neg fun h => by have := hapart h.1; have := h.2; dsimp only at this; omega,
        if_neg fun h => hnr h.1]
  · have hne : inodeBlock (s.superDesc dev) nr' ≠ (s.slotPlace dev nr (j' :: i' :: t)).1 := by
      rw [heq]
      have := hdz.1
      dsimp only
      omega
    rw [getU16_link hz' hz fun h => absurd h hne, if_neg fun h => hne h.1, if_neg fun h => by simp at h]

/-- **A link changes its own slot**, and no other that is not behind it. -/
theorem zoneAt_link (hz : z < 65536) : ∀ q, IsSlot q → (∀ l, l ≠ [] → q ≠ l ++ p) →
    (s.link dev nr p z).zoneAt dev nr q = if q = p then z else s.zoneAt dev nr q := by
  refine IndexTree.get_link IsSlot.closed hp.ne_nil hreach (fun r hr => ?_) fun j i t hs hnz => ?_
  · rw [rootZone_link hl hn hp hreach hn.inode hr.root_lt hz]
    by_cases hpr : p = [r]
    · rw [if_pos ⟨rfl, hpr⟩, if_pos hpr.symm]
    · rw [if_neg fun h => hpr h.2, if_neg (Ne.symm hpr)]
  · obtain ⟨hj, hnode⟩ := (isSlot_cons_iff (by simp)).mp hs
    have hdz : DataZone s dev (s.zoneAt dev nr (i :: t)) := hn.zone _ hnode hnz
    have hentry := zoneEntry_link hl hn hp hreach (y := s.zoneAt dev nr (i :: t)) (j := j) hdz.1 hz
    refine hentry.trans ?_
    rcases slotPlace_cases hn hp hreach with ⟨r', hr', rfl, heq⟩ |
      ⟨j', i', t', rfl, -, hnode', hdz', heq⟩
    · have hb := hl.inodeBlock_bounds hn.inode
      have hne : s.zoneAt dev nr (i :: t) ≠ inodeBlock (s.superDesc dev) nr := by
        have := hdz.1
        omega
      rw [heq, if_neg fun h => hne (Prod.ext_iff.mp h).1, if_neg (by simp)]
      rfl
    · by_cases hsame : j :: i :: t = j' :: i' :: t'
      · obtain ⟨rfl, rfl, rfl⟩ : j = j' ∧ i = i' ∧ t = t' := by simpa using hsame
        rw [heq, if_pos rfl, if_pos rfl]
      · rw [heq, if_neg ?_, if_neg hsame]
        · rfl
        · intro h
          obtain ⟨hy, hjj⟩ := Prod.ext_iff.mp h
          have heq' := hn.inj _ _ hnode hnode' hnz hy
          dsimp only at hjj
          exact hsame (by rw [heq', show j = j' by omega])

/-- **A slot inside the new zone** holds what the zone happens to contain. -/
theorem zoneAt_link_child (hz : ZoneFree s dev z) {j : ℕ} (hj : IsSlot (j :: p)) :
    (s.link dev nr p z).zoneAt dev nr (j :: p) = s.zoneEntry dev z j := by
  have hself : (s.link dev nr p z).zoneAt dev nr p = z := by
    rw [zoneAt_link hl hn hp hreach hz.lt p hp fun l hne h => hne (List.self_eq_append_left.mp h),
      if_pos rfl]
  obtain ⟨i, t, rfl⟩ := List.exists_cons_of_ne_nil hp.ne_nil
  rw [zoneAt_cons (by rw [hself]; exact hz.pos hl), hself,
    zoneEntry_link hl hn hp hreach hz.1 hz.lt, if_neg ?_]
  intro h
  -- the zone was free, so it holds no slot of the tree
  rcases slotPlace_cases hn hp hreach with ⟨r', hr', -, heq⟩ | ⟨j', i', t', -, -, -, hdz, heq⟩
  · have hb := hl.inodeBlock_bounds hn.inode
    have h1 := hz.1
    rw [heq] at h
    have := (Prod.ext_iff.mp h).1
    dsimp only at this
    omega
  · rw [heq] at h
    exact hdz.ne_free hz (Prod.ext_iff.mp h).1.symm

end Link

/-! ### What a link keeps -/

section Keep

variable {s : Fs} {dev nr z : ℕ} {p : List ℕ} (hl : Layout s dev) (ht : TreeAt s dev nr)
  (hp : IsSlot p) (hreach : Reached s dev nr p) (hz : ZoneFree s dev z)

include hl ht hp hreach hz

theorem dataZone_link {y : ℕ} (h : DataZone s dev y ∨ y = z) :
    DataZone (s.link dev nr p z) dev y := by
  rw [DataZone, (layout_link hl ht.nodes hp hreach).2.1, zbit_link hl ht.nodes hp hreach hz]
  rcases h with ⟨h1, h2, h3⟩ | rfl
  · refine ⟨h1, h2, ?_⟩
    split
    · rfl
    · exact h3
  · exact ⟨hz.1, hz.2.1, if_pos rfl⟩

/-- **Slots that change by the link only stay distinct data zones.** -/
theorem zonesAt_link {S : List ℕ → Prop} (hS : ∀ q, S q → IsSlot q)
    (hval : ∀ q, S q → (s.link dev nr p z).zoneAt dev nr q
      = if q = p then z else s.zoneAt dev nr q) :
    ZonesAt S (s.link dev nr p z) dev nr := by
  have hdesc := (layout_link (z := z) hl ht.nodes hp hreach).2.1
  refine ⟨by rw [hdesc]; exact ht.inode, fun q hq hnz => ?_, fun q q' hq hq' hnz heq => ?_⟩
  · rw [hval q hq] at hnz ⊢
    by_cases hqp : q = p
    · rw [if_pos hqp]
      exact dataZone_link hl ht hp hreach hz (Or.inr rfl)
    · rw [if_neg hqp] at hnz ⊢
      exact dataZone_link hl ht hp hreach hz (Or.inl (ht.zone q (hS q hq) hnz))
  · rw [hval q hq] at hnz heq
    rw [hval q' hq'] at heq
    by_cases hqp : q = p
    · by_cases hqp' : q' = p
      · rw [hqp, hqp']
      · rw [if_pos hqp, if_neg hqp'] at heq
        have hnz' : s.zoneAt dev nr q' ≠ 0 := by
          rw [← heq]
          exact hz.pos hl
        exact absurd heq.symm ((ht.zone q' (hS q' hq') hnz').ne_free hz)
    · rw [if_neg hqp] at hnz heq
      by_cases hqp' : q' = p
      · rw [if_pos hqp'] at heq
        exact absurd heq ((ht.zone q (hS q hq) hnz).ne_free hz)
      · rw [if_neg hqp'] at heq
        exact ht.inj q q' (hS q hq) (hS q' hq') hnz heq

end Keep

/-! ### One pass of the loop -/

/-- The zone `balloc` takes. -/
def FirstFree (s : Fs) (dev z : ℕ) : Prop :=
  ZoneFree s dev z ∧ ∀ z', ZoneFree s dev z' → z ≤ z'

theorem FirstFree.unique {s : Fs} {dev z z' : ℕ} (h : FirstFree s dev z) (h' : FirstFree s dev z') :
    z = z' :=
  Nat.le_antisymm (h.2 z' h'.1) (h'.2 z h.1)

section Pass

variable {s : Fs} {dev nr : ℕ} {p : List ℕ} (hl : Layout s dev) (hn : NodesAt s dev nr)
  (hp : IsSlot p) (hreach : Reached s dev nr p)

include hp hreach in
/-- The zone number in a slot that can be reached is read at its place. -/
theorem zoneAt_eq_getU16 : s.zoneAt dev nr p
    = (s.blk dev (s.slotPlace dev nr p).1).getU16 (s.slotPlace dev nr p).2 := by
  match p, hp, hreach with
  | [], hp, _ => exact absurd rfl hp.ne_nil
  | [r], _, _ => rfl
  | j :: i :: t, _, hreach => exact zoneAt_cons (hreach j i t rfl)

include hp hreach in
/-- A pass at a slot that is taken reads it. -/
theorem bmapEntry_of_ne {buf array index : ℕ} (create : Bool)
    (hplace : s.slotPlace dev nr p = (buf, array + 2 * index)) (h : s.zoneAt dev nr p ≠ 0) :
    bmapEntry s dev buf array index create = some (s.zoneAt dev nr p, s) := by
  have hread := zoneAt_eq_getU16 hp hreach
  rw [hplace] at hread
  dsimp only at hread
  rw [bmapEntry, ← hread, if_neg fun hc => h hc.1]
  rfl

include hl hn hp hreach in
/-- **A pass at an empty slot links the first free zone.** -/
theorem bmapEntry_link {buf array index : ℕ} (hzero : s.zbit dev 0 = true)
    (hex : ∃ z, ZoneFree s dev z) (hplace : s.slotPlace dev nr p = (buf, array + 2 * index))
    (h : s.zoneAt dev nr p = 0) :
    ∃ z, FirstFree s dev z ∧
      bmapEntry s dev buf array index true = some (z, s.link dev nr p z) := by
  obtain ⟨z, hz, hleast, hrun⟩ := balloc_of_free hl.mounted hzero hex
  refine ⟨z, ⟨hz, hleast⟩, ?_⟩
  have hread := zoneAt_eq_getU16 hp hreach
  have hmap := zmap_ne_slotPlace hl hn hp hreach
  rw [hplace] at hread hmap
  dsimp only at hread hmap
  have hkeep : (s.setZbit dev (zonePos (s.superDesc dev) z) true).blk dev buf = s.blk dev buf :=
    setMapBit_blk_of_ne (Or.inr hmap) true
  rw [bmapEntry, ← hread, if_pos ⟨h, rfl⟩, hrun]
  simp only [Option.bind_eq_bind, Option.bind_some, hkeep, Fs.setBlk_blk_self, getU16_putU16_self,
    Nat.mod_eq_of_lt hz.lt, Option.pure_def, Fs.link, hplace]

end Pass

end Onixs
