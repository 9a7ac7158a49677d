import Onixs.Fs.ReadWrite
import Onixs.Fs.WalkCounts

/-!
# Emptying a file

`inode_truncate` gives up the zones of a file one by one, an index block behind the zones it
refers to. What it reads on the way are index blocks, which no `bfree` changes; so the walk
is a row of `bfree`s of zones that can be told beforehand (`Onixs.inodeBfree_eq`). As the
zones of a well-formed tree are distinct, each of them finds the bit it clears set.
-/

namespace Onixs

open Bytes

/-- A row of `bfree`s. -/
def releaseZones (s : Fs) (dev : ℕ) (l : List ℕ) : Option Fs := l.foldlM (fun s z => bfree s dev z) s

/-- The zones in a list of slots. -/
def zonesIn (s : Fs) (dev nr : ℕ) (l : List (List ℕ)) : List ℕ :=
  (l.map (s.zoneAt dev nr)).filter fun z => z ≠ 0

/-- **The blocks a walk of the tree reads are the same**, and the device is. -/
structure SameZones (s t : Fs) (dev : ℕ) : Prop where
  /-- The table of super blocks. -/
  superTable : t.superTable = s.superTable
  /-- The super block of the device. -/
  super : t.blk dev 1 = s.blk dev 1
  /-- The blocks of the zones. -/
  zone : ∀ z, (s.superDesc dev).firstdatazone ≤ z → t.blk dev z = s.blk dev z

section Release

variable {s t u : Fs} {dev nr z : ℕ} {l : List ℕ}

theorem SameZones.refl (s : Fs) (dev : ℕ) : SameZones s s dev := ⟨rfl, rfl, fun _ _ => rfl⟩

theorem SameZones.superDesc (h : SameZones s t dev) : t.superDesc dev = s.superDesc dev := by
  rw [Fs.superDesc, Fs.superDesc, h.super]

theorem SameZones.trans (h : SameZones s t dev) (h' : SameZones t u dev) : SameZones s u dev where
  superTable := h'.superTable.trans h.superTable
  super := h'.super.trans h.super
  zone z hz := (h'.zone z (by rw [h.superDesc]; exact hz)).trans (h.zone z hz)

theorem SameZones.zoneEntry (h : SameZones s t dev) (hz : (s.superDesc dev).firstdatazone ≤ z) (j : ℕ) :
    t.zoneEntry dev z j = s.zoneEntry dev z j := by
  rw [Fs.zoneEntry, Fs.zoneEntry, h.zone z hz]

theorem freeLoop_blk {maps : ℕ → Option ℕ} {length idx b : ℕ} {offset : ℕ → ℕ} :
    ∀ left i, (∀ k < i + left, maps k ≠ some b) → freeLoop s dev maps length offset idx left i = some t →
      t.blk dev b = s.blk dev b
  | 0, _, _, h => absurd h (by simp [freeLoop])
  | left + 1, i, hb, h => by
    rw [freeLoop] at h
    split at h
    · exact freeLoop_blk left (i + 1) (fun k hk => hb k (by omega)) h
    · obtain ⟨buf, hbuf, h⟩ := Option.bind_eq_some_iff.mp h
      obtain ⟨-, -, -, rfl⟩ := freeBit_some h
      exact Fs.setBlk_blk_of_ne _ _ (Or.inr fun heq => hb i (by omega) (heq ▸ hbuf))

/-- **`bfree`** changes a block of the bitmap only. -/
theorem bfree_blk (h : bfree s dev z = some t) {b : ℕ} (hb : ∀ k < zmapNr, s.zmaps dev k ≠ some b) :
    t.blk dev b = s.blk dev b := by
  obtain ⟨sb, hsb, h⟩ := Option.bind_eq_some_iff.mp h
  obtain ⟨_, -, h⟩ := Option.bind_eq_some_iff.mp h
  rw [Fs.zmaps, hsb] at hb
  exact freeLoop_blk _ _ (fun k hk => hb k (by omega)) h

theorem releaseZones_append (s : Fs) (dev : ℕ) (l l' : List ℕ) :
    releaseZones s dev (l ++ l') = (releaseZones s dev l).bind fun t => releaseZones t dev l' :=
  List.foldlM_append

theorem releaseZones_cons (s : Fs) (dev z : ℕ) (l : List ℕ) :
    releaseZones s dev (z :: l) = (bfree s dev z).bind fun t => releaseZones t dev l :=
  List.foldlM_cons

theorem zmaps_congr (h : t.superTable = s.superTable) : t.zmaps dev = s.zmaps dev := by
  rw [Fs.zmaps, Fs.zmaps, Fs.getSuper_congr h, h]

/-- **A row of `bfree`s** changes blocks of the bitmap only. -/
theorem releaseZones_keeps : ∀ (l : List ℕ) (s : Fs), releaseZones s dev l = some t →
    OnlyBlocks s t ∧ ∀ b, (∀ i, s.zmaps dev i ≠ some b) → t.blk dev b = s.blk dev b
  | [], s, h => Option.some.inj h ▸ ⟨OnlyBlocks.refl s, fun _ _ => rfl⟩
  | z :: l, s, h => by
    rw [releaseZones_cons] at h
    obtain ⟨u, hfree, h⟩ := Option.bind_eq_some_iff.mp h
    have honly := bfree_onlyBlocks hfree
    obtain ⟨honly', hblk⟩ := releaseZones_keeps l u h
    refine ⟨honly.trans honly', fun b hb => ?_⟩
    rw [hblk b (by rw [zmaps_congr honly.superTable]; exact hb), bfree_blk hfree fun k _ => hb k]

theorem SameZones.of_release (hl : Layout s dev) (h : releaseZones s dev l = some t) : SameZones s t dev := by
  obtain ⟨honly, hblk⟩ := releaseZones_keeps l s h
  exact ⟨honly.superTable, hblk 1 hl.mounted.zmap_ne_one, fun z hz => hblk z (hl.zmap_ne_zone hz)⟩

theorem SameZones.layout (h : SameZones s t dev) (hl : Layout s dev) : Layout t dev :=
  (hl.of_same h.superTable h.super).1

/-! ### The walk -/

theorem zonesIn_append (l l' : List (List ℕ)) :
    zonesIn s dev nr (l ++ l') = zonesIn s dev nr l ++ zonesIn s dev nr l' := by
  rw [zonesIn, List.map_append, List.filter_append]
  rfl

theorem zonesIn_singleton (p : List ℕ) :
    zonesIn s dev nr [p] = if s.zoneAt dev nr p = 0 then [] else [s.zoneAt dev nr p] := by
  rw [zonesIn, List.map_singleton, List.filter_singleton]
  split <;> simp_all

/-- Behind an empty slot there is nothing to give up. -/
theorem zonesIn_of_null {level : ℕ} {p : List ℕ} (hp : p ≠ []) (h : s.zoneAt dev nr p = 0) :
    zonesIn s dev nr (IndexTree.below 512 level p) = [] := by
  refine List.filter_eq_nil_iff.mpr fun z hz => ?_
  obtain ⟨q, hq, rfl⟩ := List.mem_map.mp hz
  have hnull : s.zoneAt dev nr q = 0 := IndexTree.get_of_mem_below hp h hq
  simpa using hnull

/-- **`inode_bfree` is a row of `bfree`s** of the zones in the slots behind its own. -/
theorem inodeBfree_eq (hl : Layout s dev) (ht : TreeAt s dev nr) : ∀ level p (t : Fs) buf array index,
    (∀ q ∈ IndexTree.below 512 level p, IsSlot q) → SameZones s t dev → (∀ i, s.zmaps dev i ≠ some buf) → (t.blk dev buf).getU16 (array + 2 * index) = s.zoneAt dev nr p →
    inodeBfree dev level t buf array index
      = releaseZones t dev (zonesIn s dev nr (IndexTree.below 512 level p)) := by
  intro level
  induction level with
  | zero =>
    intro p t buf array index _ _ _ hword
    rw [inodeBfree, IndexTree.below, zonesIn_singleton]
    simp only [hword]
    split
    · rfl
    · rw [releaseZones_cons]
      cases bfree t dev (s.zoneAt dev nr p) <;> rfl
  | succ level ih =>
    intro p t buf array index hslots hsame hbuf hword
    have hchild : ∀ j < 512, ∀ q ∈ IndexTree.below 512 level (j :: p), IsSlot q := fun j hj q hq =>
      hslots q (IndexTree.mem_below_child hj hq)
    have hp : p ≠ [] := (hslots p (IndexTree.mem_below_self _ p)).ne_nil
    rw [inodeBfree]
    simp only [hword]
    by_cases hz : s.zoneAt dev nr p = 0
    · rw [if_pos hz, zonesIn_of_null hp hz]
      rfl
    · rw [if_neg hz]
      have hnode : IsNode p :=
        ((isSlot_cons_iff hp).mp (hchild 0 (by decide) _ (IndexTree.mem_below_self _ _))).2
      have hdata := ht.zone p hnode.isSlot hz
      -- the entries of the index block, one behind the other
      have hentries : ∀ (js : List ℕ) (v : Fs), (∀ j ∈ js, j < 512) → SameZones s v dev →
          js.foldlM (fun s' j => inodeBfree dev level s' (s.zoneAt dev nr p) 0 j) v = releaseZones v dev
            (zonesIn s dev nr (js.flatMap fun j => IndexTree.below 512 level (j :: p))) := by
        intro js
        induction js with
        | nil => exact fun v _ _ => rfl
        | cons j js ihj =>
          intro v hjs hv
          have hj := hjs j List.mem_cons_self
          have hread : (v.blk dev (s.zoneAt dev nr p)).getU16 (0 + 2 * j) = s.zoneAt dev nr (j :: p) := by
            obtain ⟨i, q, rfl⟩ := List.exists_cons_of_ne_nil hp
            rw [zoneAt_cons hz, Nat.zero_add]
            exact hv.zoneEntry hdata.1 j
          rw [List.foldlM_cons, List.flatMap_cons, zonesIn_append, releaseZones_append,
            ih (j :: p) v _ 0 j (hchild j hj) hv (hl.zmap_ne_zone hdata.1) hread]
          refine Option.bind_congr fun w hw => ?_
          exact ihj w (fun i hi => hjs i (List.mem_cons_of_mem j hi)) (hv.trans (.of_release (hv.layout hl) hw))
      rw [IndexTree.below, zonesIn_append, releaseZones_append, zonesIn_singleton, if_neg hz, blockIndexes_eq,
        hentries _ t (fun j hj => List.mem_range.mp hj) hsame]
      refine Option.bind_congr fun w hw => ?_
      -- the block of the slot has not changed meanwhile
      have hkeep := (releaseZones_keeps _ t hw).2 buf (by rw [zmaps_congr hsame.superTable]; exact hbuf)
      rw [hkeep, hword, releaseZones_cons]
      cases bfree w dev (s.zoneAt dev nr p) <;> rfl

/-! ### The bitmap -/

/-- **The bits of the zones in a list are clear**, and the others are what they were. -/
structure ZonesCleared (s t : Fs) (dev : ℕ) (l : List ℕ) : Prop where
  /-- A zone of the list is free. -/
  cleared : ∀ z ∈ l, t.zbit dev (zonePos (s.superDesc dev) z) = false
  /-- A position that belongs to no zone of the list is left alone. -/
  kept : ∀ g, (∀ z ∈ l, g ≠ zonePos (s.superDesc dev) z) → t.zbit dev g = s.zbit dev g

theorem ZonesCleared.refl (s : Fs) (dev : ℕ) : ZonesCleared s s dev [] := ⟨by simp, fun _ _ => rfl⟩

theorem ZonesCleared.trans {l' : List ℕ} (h : ZonesCleared s t dev l) (h' : ZonesCleared t u dev l')
    (hdesc : t.superDesc dev = s.superDesc dev) : ZonesCleared s u dev (l ++ l') := by
  have hsecond : ∀ z ∈ l', u.zbit dev (zonePos (s.superDesc dev) z) = false := fun z hz => by
    rw [← hdesc]
    exact h'.cleared z hz
  have hrest : ∀ g, (∀ z ∈ l', g ≠ zonePos (s.superDesc dev) z) → u.zbit dev g = t.zbit dev g := fun g hg =>
    h'.kept g (by rw [hdesc]; exact hg)
  refine ⟨fun z hz => ?_, fun g hg => ?_⟩
  · by_cases hagain : ∀ z' ∈ l', zonePos (s.superDesc dev) z ≠ zonePos (s.superDesc dev) z'
    · rcases List.mem_append.mp hz with hz | hz
      · rw [hrest _ hagain]
        exact h.cleared z hz
      · exact absurd rfl (hagain z hz)
    · push Not at hagain
      obtain ⟨z', hz', heq⟩ := hagain
      rw [heq]
      exact hsecond z' hz'
  · rw [hrest g fun z hz => hg z (List.mem_append_right l hz)]
    exact h.kept g fun z hz => hg z (List.mem_append_left l' hz)

/-- Different zones have different positions. -/
theorem zonePos_inj (hl : Layout s dev) {z' : ℕ} (hz : (s.superDesc dev).firstdatazone ≤ z)
    (hz' : (s.superDesc dev).firstdatazone ≤ z')
    (heq : zonePos (s.superDesc dev) z = zonePos (s.superDesc dev) z') : z = z' := by
  have h1 := hl.mounted.firstdatazone
  rw [zonePos, zonePos] at heq
  omega

/-- **`bfree`** of a zone in use, when the first buffer of the bitmap has all zones. -/
theorem bfree_data (hl : Layout s dev) (hsmall : (s.superDesc dev).zones ≤ 8192) (hz : DataZone s dev z) :
    ∃ t, bfree s dev z = some t ∧ ZonesCleared s t dev [z] := by
  obtain ⟨hlo, hlt, hused⟩ := hz
  have hm := hl.mounted
  have h1 := hm.firstdatazone
  have hfirst : zonePos (s.superDesc dev) z / 8192 = 0 := by
    rw [zonePos]
    omega
  have hin : zonePos (s.superDesc dev) z / 8192 < (s.superDesc dev).zmapBlocks := by
    rw [hfirst]
    exact hm.zmapBlocks.1
  refine ⟨_, bfree_of_same hm hlo hlt hused hin (by omega), ?_⟩
  have honly := OnlyZbit.of_setZbit hm (hm.zmap_some hin) false
  refine ⟨fun z' hz' => ?_, fun g hg => ?_⟩
  · rw [List.mem_singleton.mp hz', honly.zbit hm, if_pos rfl]
  · rw [honly.zbit hm, if_neg (hg z (List.mem_singleton_self z))]

/-- **A row of `bfree`s** of different zones in use succeeds. -/
theorem releaseZones_cleared : ∀ (l : List ℕ) (s : Fs), Layout s dev → (s.superDesc dev).zones ≤ 8192 → l.Nodup →
    (∀ z ∈ l, DataZone s dev z) → ∃ t, releaseZones s dev l = some t ∧ ZonesCleared s t dev l
  | [], s, _, _, _, _ => ⟨s, rfl, ZonesCleared.refl s dev⟩
  | z :: l, s, hl, hsmall, hnodup, hdata => by
    obtain ⟨hz, hnodup⟩ := List.nodup_cons.mp hnodup
    obtain ⟨u, hfree, hclear⟩ := bfree_data hl hsmall (hdata z List.mem_cons_self)
    have hsame : SameZones s u dev := by
      refine SameZones.of_release (l := [z]) hl ?_
      rw [releaseZones_cons, hfree]
      rfl
    have hdesc := hsame.superDesc
    have hdata' : ∀ z' ∈ l, DataZone u dev z' := by
      intro z' hz'
      obtain ⟨hlo, hlt, hused⟩ := hdata z' (List.mem_cons_of_mem z hz')
      refine ⟨by rw [hdesc]; exact hlo, by rw [hdesc]; exact hlt, ?_⟩
      rw [hdesc, hclear.kept]
      · exact hused
      · intro y hy heq
        rw [List.mem_singleton] at hy
        have := zonePos_inj hl hlo (hy ▸ (hdata z List.mem_cons_self).1) heq
        exact hz (hy ▸ this ▸ hz')
    obtain ⟨t, hrest, hclear'⟩ := releaseZones_cleared l u (hsame.layout hl) (by rw [hdesc]; exact hsmall) hnodup hdata'
    refine ⟨t, ?_, hclear.trans hclear' hdesc⟩
    rw [releaseZones_cons, hfree]
    exact hrest

end Release

/-! ### The call -/

/-- **A file that is being emptied**: the zones in the slots `l` are given up, and the first `k` entries of
the descriptor are clear. -/
structure Emptying (s t : Fs) (dev nr : ℕ) (l : List (List ℕ)) (k : ℕ) : Prop where
  /-- The zones and the tables. -/
  same : SameZones s t dev
  /-- The inodes in memory. -/
  inodeTable : t.inodeTable = s.inodeTable
  /-- The entries of the descriptor. -/
  roots : ∀ r < 9, t.rootZone dev nr r = if r < k then 0 else s.rootZone dev nr r
  /-- The bitmap. -/
  bits : ZonesCleared s t dev (zonesIn s dev nr l)

section Emptying

variable {s t : Fs} {dev nr i k : ℕ} {l : List (List ℕ)}

theorem Emptying.refl (s : Fs) (dev nr : ℕ) : Emptying s s dev nr [] 0 :=
  ⟨SameZones.refl s dev, rfl, fun _ _ => (if_neg (Nat.not_lt_zero _)).symm, ZonesCleared.refl s dev⟩

theorem Emptying.holds (h : Emptying s t dev nr l k) (hh : s.Holds dev nr i) : t.Holds dev nr i :=
  hh.of_same ⟨h.inodeTable, h.same.superDesc⟩

/-- The zones in different slots are different. -/
theorem nodup_zonesIn (ht : TreeAt s dev nr) (hslots : ∀ q ∈ l, IsSlot q) (hnodup : l.Nodup) :
    (zonesIn s dev nr l).Nodup := by
  rw [zonesIn, List.filter_map]
  refine (hnodup.filter _).map_on fun p hp q hq heq => ?_
  obtain ⟨hp, hnz⟩ := List.mem_filter.mp hp
  exact ht.inj p q (hslots p hp) (hslots q (List.mem_filter.mp hq).1) (by simpa using hnz) heq

theorem mem_zonesIn {z : ℕ} : z ∈ zonesIn s dev nr l ↔ ∃ p ∈ l, s.zoneAt dev nr p = z ∧ z ≠ 0 := by
  rw [zonesIn, List.mem_filter, List.mem_map]
  simp only [decide_eq_true_eq]
  constructor
  · rintro ⟨⟨p, hp, heq⟩, hnz⟩
    exact ⟨p, hp, heq, hnz⟩
  · rintro ⟨p, hp, heq, hnz⟩
    exact ⟨⟨p, hp, heq⟩, hnz⟩

/-- **The zones behind one more entry of the descriptor are given up.** -/
theorem Emptying.free (hl : Layout s dev) (hsmall : (s.superDesc dev).zones ≤ 8192) (ht : TreeAt s dev nr)
    (h : Emptying s t dev nr l k) {r : ℕ} (level : ℕ) (hr : r < 9) (hk : k ≤ r)
    (hslots : ∀ q ∈ IndexTree.below 512 level [r], IsSlot q)
    (hold : ∀ q ∈ l, IsSlot q ∧ q ∉ IndexTree.below 512 level [r]) :
    ∃ u, inodeBfree dev level t (inodeBlock (s.superDesc dev) nr) (inodeOffset nr + 14) r = some u ∧
      Emptying s u dev nr (l ++ IndexTree.below 512 level [r]) k := by
  have hdesc := h.same.superDesc
  have hword : (t.blk dev (inodeBlock (s.superDesc dev) nr)).getU16 (inodeOffset nr + 14 + 2 * r)
      = s.zoneAt dev nr [r] := by
    have hroot := h.roots r hr
    rw [Fs.rootZone, hdesc, if_neg (Nat.not_lt.mpr hk)] at hroot
    exact hroot
  have hdata : ∀ z ∈ zonesIn s dev nr (IndexTree.below 512 level [r]), DataZone t dev z := by
    intro z hz
    obtain ⟨p, hp, rfl, hnz⟩ := mem_zonesIn.mp hz
    obtain ⟨hlo, hlt, hused⟩ := ht.zone p (hslots p hp) hnz
    refine ⟨by rw [hdesc]; exact hlo, by rw [hdesc]; exact hlt, ?_⟩
    rw [hdesc, h.bits.kept]
    · exact hused
    · intro z' hz' heq
      obtain ⟨q, hq, rfl, hnz'⟩ := mem_zonesIn.mp hz'
      have hlo' := (ht.zone q (hold q hq).1 hnz').1
      have hpq := ht.inj p q (hslots p hp) (hold q hq).1 hnz (zonePos_inj hl hlo hlo' heq)
      exact (hold q hq).2 (hpq ▸ hp)
  obtain ⟨u, hrun, hclear⟩ := releaseZones_cleared _ t (h.same.layout hl) (by rw [hdesc]; exact hsmall)
    (nodup_zonesIn ht hslots (IndexTree.nodup_below level [r])) hdata
  obtain ⟨honly, hblk⟩ := releaseZones_keeps _ t hrun
  refine ⟨u, ?_, h.same.trans (.of_release (h.same.layout hl) hrun), honly.inodeTable.trans h.inodeTable,
    fun r' hr' => ?_, ?_⟩
  · rw [inodeBfree_eq hl ht level [r] t _ _ r hslots h.same (hl.zmap_ne_inodeBlock ht.inode) hword]
    exact hrun
  · have hkeep := hblk (inodeBlock (s.superDesc dev) nr) (by
      rw [zmaps_congr h.same.superTable]
      exact hl.zmap_ne_inodeBlock ht.inode)
    have hdesc' : u.superDesc dev = s.superDesc dev :=
      (SameZones.of_release (h.same.layout hl) hrun).superDesc.trans hdesc
    rw [← h.roots r' hr', Fs.rootZone, Fs.rootZone, hdesc', hdesc, hkeep]
  · rw [zonesIn_append]
    exact h.bits.trans hclear hdesc

/-- A store in the descriptor. -/
theorem Emptying.store (hl : Layout s dev) (hpos : InodePos (s.superDesc dev) nr) (h : Emptying s t dev nr l k)
    {u : Fs} {lo hi k' : ℕ} (honly : OnlyBytes t u dev (inodeBlock (s.superDesc dev) nr) lo hi)
    (htable : u.inodeTable = t.inodeTable)
    (hroots : ∀ r < 9, (u.blk dev (inodeBlock (s.superDesc dev) nr)).getU16 (inodeOffset nr + 14 + 2 * r)
      = if r < k' then 0 else s.rootZone dev nr r) : Emptying s u dev nr l k' := by
  have hbounds := hl.inodeBlock_bounds hpos
  have hone : inodeBlock (s.superDesc dev) nr ≠ 1 := by omega
  have hzbit : ∀ g, u.zbit dev g = t.zbit dev g := honly.zbit (h.same.layout hl) hone fun i => by
    rw [zmaps_congr h.same.superTable]
    exact hl.zmap_ne_inodeBlock hpos i
  have hsame : SameZones s u dev := by
    refine ⟨honly.superTable.trans h.same.superTable, (honly.blk (Ne.symm hone)).trans h.same.super, fun z hz => ?_⟩
    exact (honly.blk (by omega)).trans (h.same.zone z hz)
  refine ⟨hsame, htable.trans h.inodeTable, fun r hr => ?_, fun z hz => ?_, fun g hg => ?_⟩
  · rw [Fs.rootZone, hsame.superDesc]
    exact hroots r hr
  · rw [hzbit]
    exact h.bits.cleared z hz
  · rw [hzbit]
    exact h.bits.kept g hg

/-- `desc->zone[k] = 0`. -/
theorem Emptying.setZone (hl : Layout s dev) (hh : s.Holds dev nr i) (h : Emptying s t dev nr l k) (hk : k < 9) :
    Emptying s (t.setZone i k 0) dev nr l (k + 1) := by
  have hht := h.holds hh
  have hdesc := h.same.superDesc
  have hset : t.setZone i k 0 = t.setBlk dev (inodeBlock (s.superDesc dev) nr)
      ((t.blk dev (inodeBlock (s.superDesc dev) nr)).putU16 (inodeOffset nr + (14 + 2 * k)) 0) := by
    rw [Fs.setZone, Fs.putDesc16, Fs.setDescBlk, Fs.descBlk, hht.dev_eq, hht.buf, hht.desc, hdesc]
  have honly : OnlyBytes t (t.setZone i k 0) dev (inodeBlock (s.superDesc dev) nr) (inodeOffset nr + (14 + 2 * k))
      (inodeOffset nr + (14 + 2 * k) + 2) := by
    rw [hset]
    refine ⟨rfl, fun dev' b' o hout => ?_⟩
    by_cases hplace : dev' = dev ∧ b' = inodeBlock (s.superDesc dev) nr
    · obtain ⟨rfl, rfl⟩ := hplace
      have := hout rfl rfl
      rw [Fs.setBlk_blk_self]
      exact putU16_of_ne _ _ (by omega) (by omega)
    · rw [Fs.setBlk_blk_of_ne _ _ (not_and_or.mp hplace)]
  refine h.store hl ⟨hh.pos, hh.le⟩ honly (by rw [hset, Fs.setBlk_inodeTable]) fun r hr => ?_
  have hroot := h.roots r hr
  rw [Fs.rootZone, hdesc] at hroot
  rw [hset, Fs.setBlk_blk_self]
  rcases Nat.lt_trichotomy r k with hlt | rfl | hgt
  · rw [getU16_putU16_of_disjoint _ _ (by omega), hroot, if_pos hlt, if_pos (by omega)]
  · rw [show inodeOffset nr + 14 + 2 * r = inodeOffset nr + (14 + 2 * r) by omega, getU16_putU16_self,
      if_pos (Nat.lt_succ_self r)]
  · rw [getU16_putU16_of_disjoint _ _ (by omega), hroot, if_neg (by omega), if_neg (by omega)]

/-- A store in front of the entries. -/
theorem Emptying.putDesc32 (hl : Layout s dev) (hh : s.Holds dev nr i) (h : Emptying s t dev nr l k) {o : ℕ} (v : ℕ)
    (ho : o + 4 ≤ 14) : Emptying s (t.putDesc32 i o v) dev nr l k := by
  have hht := h.holds hh
  have honly := onlyBytes_putDesc32 hht v ho
  rw [h.same.superDesc] at honly
  refine h.store hl ⟨hh.pos, hh.le⟩ honly rfl fun r hr => ?_
  have hroot := h.roots r hr
  rw [Fs.rootZone, h.same.superDesc] at hroot
  rw [← hroot, putDesc32_eq hht, h.same.superDesc, Fs.setBlk_blk_self]
  exact getU16_congr (putU32_of_ne _ _ (by omega)) (putU32_of_ne _ _ (by omega))

/-- What `inode_truncate` does to an inode. -/
structure Truncated (s t : Fs) (dev nr i : ℕ) : Prop where
  /-- The zones of the tree are free, index blocks and data. -/
  cleared : ∀ p, IsSlot p → s.zoneAt dev nr p ≠ 0 →
    t.zbit dev (zonePos (s.superDesc dev) (s.zoneAt dev nr p)) = false
  /-- The rest of the bitmap is as it was. -/
  kept : ∀ g, (∀ p, IsSlot p → s.zoneAt dev nr p ≠ 0 → g ≠ zonePos (s.superDesc dev) (s.zoneAt dev nr p)) →
    t.zbit dev g = s.zbit dev g
  /-- The entries of the descriptor are clear. -/
  zone : ∀ r < 9, (t.inodeDesc i).zone r = 0
  /-- The file is empty. -/
  size : (t.inodeDesc i).size = 0

/-- The loop over the direct entries. -/
theorem emptying_direct (hl : Layout s dev) (hsmall : (s.superDesc dev).zones ≤ 8192) (ht : TreeAt s dev nr)
    (hh : s.Holds dev nr i) : ∀ n ≤ 7, ∃ t, (List.range n).foldlM (fun u k => do
        let u ← inodeBfree dev 0 u (inodeBlock (s.superDesc dev) nr) (inodeOffset nr + 14) k
        return u.setZone i k 0) s = some t ∧ Emptying s t dev nr ((List.range n).map fun r => [r]) n := by
  intro n
  induction n with
  | zero => exact fun _ => ⟨s, rfl, Emptying.refl s dev nr⟩
  | succ n ih =>
    intro hn
    obtain ⟨t, hrun, h⟩ := ih (by omega)
    obtain ⟨u, hfree, hu⟩ := h.free hl hsmall ht (r := n) 0 (by omega) (Nat.le_refl n)
      (fun q hq => by
        rw [List.mem_singleton.mp hq]
        exact .root (by omega))
      fun q hq => by
        obtain ⟨r, hr, rfl⟩ := List.mem_map.mp hq
        have hlt := List.mem_range.mp hr
        refine ⟨.root (by omega), fun hmem => ?_⟩
        have heq := (List.cons.inj (List.mem_singleton.mp hmem)).1
        omega
    refine ⟨u.setZone i n 0, ?_, ?_⟩
    · rw [List.range_succ, List.foldlM_append, hrun]
      simp only [Option.bind_eq_bind, Option.bind_some, List.foldlM_cons, List.foldlM_nil, hfree]
      rfl
    · rw [List.range_succ, List.map_append]
      exact hu.setZone hl hh (by omega)

/-- The slots behind the entry of the single index block. -/
theorem isSlot_of_below_single {q : List ℕ} (h : q ∈ IndexTree.below 512 1 [7]) : IsSlot q := by
  rw [IndexTree.below, List.mem_append, List.mem_flatMap] at h
  rcases h with ⟨j, hj, h⟩ | h
  · rw [List.mem_singleton.mp h]
    exact .single (List.mem_range.mp hj)
  · rw [List.mem_singleton.mp h]
    exact .root (by decide)

/-- The slots behind the entry of the double index block. -/
theorem isSlot_of_below_double {q : List ℕ} (h : q ∈ IndexTree.below 512 2 [8]) : IsSlot q := by
  rw [IndexTree.below, List.mem_append, List.mem_flatMap] at h
  rcases h with ⟨j, hj, h⟩ | h
  · rw [IndexTree.below, List.mem_append, List.mem_flatMap] at h
    rcases h with ⟨k, hk, h⟩ | h
    · rw [List.mem_singleton.mp h]
      exact .double (List.mem_range.mp hk) (List.mem_range.mp hj)
    · rw [List.mem_singleton.mp h]
      exact .middle (List.mem_range.mp hj)
  · rw [List.mem_singleton.mp h]
    exact .root (by decide)

/-- The slots in the order in which the zones behind them are given up. -/
def truncateSlots : List (List ℕ) :=
  (List.range 7).map (fun r => [r]) ++ IndexTree.below 512 1 [7] ++ IndexTree.below 512 2 [8]

/-- **The walk comes to the slots of the tree**, and to nothing else. -/
theorem mem_truncateSlots {q : List ℕ} : q ∈ truncateSlots ↔ IsSlot q := by
  rw [truncateSlots, List.mem_append, List.mem_append]
  constructor
  · rintro ((h | h) | h)
    · obtain ⟨r, hr, rfl⟩ := List.mem_map.mp h
      have hlt := List.mem_range.mp hr
      exact .root (by omega)
    · exact isSlot_of_below_single h
    · exact isSlot_of_below_double h
  · intro h
    cases h with
    | @root r hr =>
      rcases Nat.lt_or_ge r 7 with hlt | hge
      · exact Or.inl (Or.inl (List.mem_map.mpr ⟨r, List.mem_range.mpr hlt, rfl⟩))
      · obtain rfl | rfl : r = 7 ∨ r = 8 := by omega
        · exact Or.inl (Or.inr (IndexTree.mem_below_self 1 [7]))
        · exact Or.inr (IndexTree.mem_below_self 2 [8])
    | single hj => exact Or.inl (Or.inr (IndexTree.mem_below_child hj (IndexTree.mem_below_self 0 _)))
    | middle hj => exact Or.inr (IndexTree.mem_below_child hj (IndexTree.mem_below_self 1 _))
    | double hk hj =>
      exact Or.inr (IndexTree.mem_below_child hj (IndexTree.mem_below_child hk (IndexTree.mem_below_self 0 _)))

/-- Slots behind different entries of the descriptor are different. -/
theorem not_mem_below_of_ne {level level' r r' : ℕ} {q : List ℕ} (hne : r ≠ r')
    (h : q ∈ IndexTree.below 512 level [r]) : q ∉ IndexTree.below 512 level' [r'] := by
  intro h'
  have hsuffix := IndexTree.suffix_of_mem_below level _ q h
  have hsuffix' := IndexTree.suffix_of_mem_below level' _ q h'
  have heq := (List.suffix_of_suffix_length_le hsuffix hsuffix' (Nat.le_refl _)).eq_of_length rfl
  exact hne (List.cons.inj heq).1

/-- **A file that has been emptied.** -/
theorem Emptying.truncated (hl : Layout s dev) (hh : s.Holds dev nr i) (h : Emptying s t dev nr truncateSlots 9) :
    Truncated s ((t.setSize i 0).setMtime i (t.setSize i 0).time) dev nr i := by
  have h₁ : Emptying s (t.setSize i 0) dev nr truncateSlots 9 := h.putDesc32 hl hh 0 (by decide)
  have hh₁ := h₁.holds hh
  have h₂ : Emptying s ((t.setSize i 0).setMtime i (t.setSize i 0).time) dev nr truncateSlots 9 :=
    h₁.putDesc32 hl hh _ (by decide)
  have hh₂ := h₂.holds hh
  refine ⟨fun p hp hnz => ?_, fun g hg => ?_, fun r hr => ?_, ?_⟩
  · exact h₂.bits.cleared _ (mem_zonesIn.mpr ⟨p, mem_truncateSlots.mpr hp, rfl, hnz⟩)
  · refine h₂.bits.kept g fun z hz => ?_
    obtain ⟨p, hp, rfl, hnz⟩ := mem_zonesIn.mp hz
    exact hg p (mem_truncateSlots.mp hp) hnz
  · have hroot := h₂.roots r hr
    rw [if_pos hr, Fs.rootZone] at hroot
    rw [inodeDesc_eq hh₂]
    exact hroot
  · have hsize : ((t.setSize i 0).inodeDesc i).size = 0 := by
      rw [inodeDesc_eq hh₁, h₁.same.superDesc, Fs.setSize, putDesc32_eq (h.holds hh), h.same.superDesc,
        Fs.setBlk_blk_self]
      exact getU32_putU32_self _ _ _
    refine Eq.trans ?_ hsize
    rw [inodeDesc_eq hh₁, inodeDesc_eq hh₂, h₁.same.superDesc, h₂.same.superDesc, Fs.setMtime,
      putDesc32_eq hh₁, h₁.same.superDesc, Fs.setBlk_blk_self]
    exact getU32_congr fun k hk hk' => putU32_of_ne _ _ (by omega)

/-- **`inode_truncate` frees exactly the file**: for an inode of a file or directory whose tree refers to used
zones only, and to each of them once, the call fails no assertion, clears the bits of the zones of the
tree and of no other zone, and leaves the entries of the descriptor and the size 0. -/
theorem inodeTruncate_frees (hl : Layout s dev) (hsmall : (s.superDesc dev).zones ≤ 8192) (hh : s.Holds dev nr i)
    (ht : TreeAt s dev nr)
    (hmode : isFile (s.inodeDesc i).mode = true ∨ isDir (s.inodeDesc i).mode = true) :
    ∃ t, inodeTruncate s i = some t ∧ Truncated s t dev nr i := by
  obtain ⟨s₁, hdirect, h₁⟩ := emptying_direct hl hsmall ht hh 7 (Nat.le_refl 7)
  have hroot : ∀ q ∈ (List.range 7).map fun r => [r], IsSlot q ∧ ∃ r < 7, q ∈ IndexTree.below 512 0 [r] := by
    intro q hq
    obtain ⟨r, hr, rfl⟩ := List.mem_map.mp hq
    have hlt := List.mem_range.mp hr
    exact ⟨.root (by omega), r, hlt, IndexTree.mem_below_self 0 _⟩
  obtain ⟨s₂, hsingle, h₂⟩ := h₁.free hl hsmall ht (r := 7) 1 (by omega) (Nat.le_refl 7)
    (fun q hq => isSlot_of_below_single hq) fun q hq => by
      obtain ⟨hslot, r, hr, hmem⟩ := hroot q hq
      exact ⟨hslot, not_mem_below_of_ne (by omega) hmem⟩
  obtain ⟨s₃, hdouble, h₃⟩ := h₂.free hl hsmall ht (r := 8) 2 (by omega) (by omega)
    (fun q hq => isSlot_of_below_double hq) fun q hq => by
      rcases List.mem_append.mp hq with hq | hq
      · obtain ⟨hslot, r, hr, hmem⟩ := hroot q hq
        exact ⟨hslot, not_mem_below_of_ne (by omega) hmem⟩
      · exact ⟨isSlot_of_below_single hq, not_mem_below_of_ne (by decide) hq⟩
  have h₄ := (h₃.setZone hl hh (by decide)).setZone hl hh (by decide)
  refine ⟨_, ?_, h₄.truncated hl hh⟩
  have hnot : ¬(isFile (s.inodeDesc i).mode = false ∧ isDir (s.inodeDesc i).mode = false) := by
    rcases hmode with h | h <;> simp [h]
  simp only [inodeTruncate, if_neg hnot, hh.dev_eq, hh.buf, hh.desc]
  rw [show directBlock = 7 from rfl, hdirect]
  simp only [Option.bind_eq_bind, Option.bind_some, hsingle, hdouble]
  rfl

end Emptying

/-- The file of `Onixs.fileFs` with zone 12 for an index block. -/
def indexFs : Fs := (fileFs fun _ => 0#8).link 1 2 [7] 12

theorem fileFs_blank : Blank (fileFs fun _ => 0#8) 1 12 := fun j _ => by
  rw [Fs.zoneEntry, fileFs_blk _ (by decide), fileBlocks, if_neg (by decide), if_neg (by decide), if_pos rfl,
    getU16_zero]

/-- A file with an index block is emptied. -/
theorem inodeTruncate_frees_index : indexFs.zoneAt 1 2 [7] = 12 ∧
    ∃ t, inodeTruncate indexFs 0 = some t ∧ Truncated indexFs t 1 2 0 := by
  have hl := fileFs_layout fun _ => 0#8
  have ht := fileFs_tree fun _ => 0#8
  have hp : IsSlot [7] := .root (by decide)
  have hz : ZoneFree (fileFs fun _ => 0#8) 1 12 := (fileFs_free _).mpr (by decide)
  have hempty : (fileFs fun _ => 0#8).zoneAt 1 2 [7] = 0 := fileFs_zoneAt _ (by decide) (by decide) hp
  obtain ⟨hl', hdesc, -⟩ := layout_link (z := 12) hl ht.nodes hp (reached_root 7)
  have hh : indexFs.Holds 1 2 0 := (fileFs_holds _).of_same ⟨link_inodeTable, hdesc⟩
  have hmode : (indexFs.inodeDesc 0).mode = 0o100777 := by
    rw [inodeDesc_eq hh]
    simp only [readInodeDesc]
    have hblk : inodeBlock (indexFs.superDesc 1) 2 = 4 := by
      rw [indexFs, hdesc, fileFs_superDesc]
      decide
    have hplace : (fileFs fun _ => 0#8).slotPlace 1 2 [7] = (4, 60) := by
      rw [Fs.slotPlace, fileFs_superDesc]
      decide
    rw [hblk, show inodeOffset 2 = 32 by decide, indexFs, getU16_link, hplace, if_neg (by decide),
      fileFs_blk _ (by decide), fileBlocks, if_neg (by decide), if_pos rfl, getU16_putU16_self]
    · intro i
      have hzmap := hl.zmap_ne_inodeBlock ht.inode i
      rwa [fileFs_superDesc, show inodeBlock fileDesc 2 = 4 by decide] at hzmap
    · decide
    · rw [hplace]
      decide
  refine ⟨?_, inodeTruncate_frees hl' ?_ hh ?_ (Or.inl ?_)⟩
  · rw [indexFs, zoneAt_link_blank hl ht hp (reached_root 7) hz hempty (fun _ => fileFs_blank) hp, if_pos rfl]
  · rw [indexFs, hdesc, fileFs_superDesc]
    decide
  · exact treeAt_link hl ht hp (reached_root 7) hz hempty fun _ => fileFs_blank
  · rw [hmode]
    decide

end Onixs
