import Onixs.Fs.Disk
import Onixs.Fs.ReadWrite
import Onixs.Fs.TakeZone
import Onixs.Fs.WalkPath

/-!
# Adding an entry to a directory

`add_entry` passes over the entries in use and stores the name in the first one that is free, or behind the last
one. `Onixs.Added` is what the directory looks like then. All of it holds unless a new index block is needed, whose
contents are taken for the number of a zone (`Onixs.addEntry_added`).
-/

namespace Onixs

open Bytes

/-- One of the first `n` entries is free. -/
def FreeSlot (s : Fs) (dev nr n : ℕ) : Prop := ∃ j < n, s.dentryNr (s.entryOf dev nr j) = 0

/-- **Entry `k` has been added** to the `n` entries of a directory. -/
structure Added (s t : Fs) (dev nr n k : ℕ) : Prop where
  /-- It is a free one, -/
  reused : FreeSlot s dev nr n → k < n ∧ s.dentryNr (s.entryOf dev nr k) = 0
  /-- or the one behind the last. -/
  behind : ¬FreeSlot s dev nr n → k = n
  /-- It is not in use yet. -/
  free : t.dentryNr (t.entryOf dev nr k) = 0
  /-- The other entries are where they were, with their numbers and names. -/
  kept : ∀ j < n, j ≠ k → t.entryOf dev nr j = s.entryOf dev nr j ∧
    ∀ o < 16, t.blk dev (s.entryOf dev nr j).blk (j % 64 * 16 + o) = s.blk dev (s.entryOf dev nr j).blk (j % 64 * 16 + o)
  /-- The size stays the same, -/
  same : FreeSlot s dev nr n → (t.descOf dev nr).size = n * 16
  /-- or there is one entry more. -/
  more : ¬FreeSlot s dev nr n → (t.descOf dev nr).size = (n + 1) * 16

/-! ### Storing an entry -/

section Stored

variable {s t u w : Fs} {dev nr d z off : ℕ} {p : List ℕ}

/-- **What storing an entry changes**: its bytes, and two fields of the descriptor. -/
structure EntryStored (s t : Fs) (dev nr z off : ℕ) : Prop where
  /-- The super block is the same. -/
  desc : t.superDesc dev = s.superDesc dev
  /-- The other bytes are. -/
  blk : ∀ y o, (y = z → o < off ∨ off + 16 ≤ o) →
    (y = inodeBlock (s.superDesc dev) nr → o < inodeOffset nr + 4 ∨ inodeOffset nr + 12 ≤ o) →
    t.blk dev y o = s.blk dev y o

theorem superDesc_of_blk (h : t.blk dev 1 = s.blk dev 1) : t.superDesc dev = s.superDesc dev := by
  rw [Fs.superDesc, Fs.superDesc, h]

/-- A store in the block of the entry, and one in a field of the descriptor. -/
theorem stored_of (hh : w.Holds dev nr d) (hz : z ≠ 1) (hib : inodeBlock (w.superDesc dev) nr ≠ 1)
    (hzib : z ≠ inodeBlock (w.superDesc dev) nr) (off : ℕ) (D : Bytes) (hD : ∀ o, o < off ∨ off + 16 ≤ o → D o = w.blk dev z o)
    {f : ℕ} (hf : 4 ≤ f) (hf' : f + 4 ≤ 12) (v : ℕ) :
    EntryStored w ((w.setBlk dev z D).putDesc32 d f v) dev nr z off ∧ ((w.setBlk dev z D).putDesc32 d f v).blk dev z = D ∧
      ((w.setBlk dev z D).putDesc32 d f v).blk dev (inodeBlock (w.superDesc dev) nr)
        = (w.blk dev (inodeBlock (w.superDesc dev) nr)).putU32 (inodeOffset nr + f) v := by
  have hdesc : (w.setBlk dev z D).superDesc dev = w.superDesc dev :=
    superDesc_of_blk (Fs.setBlk_blk_of_ne _ _ (Or.inr hz.symm))
  have hfield := putDesc32_eq (hh.of_same (t := w.setBlk dev z D) ⟨rfl, hdesc⟩) f v
  rw [hdesc, Fs.setBlk_blk_of_ne _ _ (Or.inr hzib.symm)] at hfield
  rw [hfield]
  generalize hu : (w.setBlk dev z D).setBlk dev (inodeBlock (w.superDesc dev) nr)
    ((w.blk dev (inodeBlock (w.superDesc dev) nr)).putU32 (inodeOffset nr + f) v) = u
  have hzblk : u.blk dev z = D := by
    rw [← hu, Fs.setBlk_blk_of_ne _ _ (Or.inr hzib), Fs.setBlk_blk_self]
  have hiblk : u.blk dev (inodeBlock (w.superDesc dev) nr)
      = (w.blk dev (inodeBlock (w.superDesc dev) nr)).putU32 (inodeOffset nr + f) v := by
    rw [← hu, Fs.setBlk_blk_self]
  have hblk : ∀ y, y ≠ z → y ≠ inodeBlock (w.superDesc dev) nr → u.blk dev y = w.blk dev y := fun y hyz hyib => by
    rw [← hu, Fs.setBlk_blk_of_ne _ _ (Or.inr hyib), Fs.setBlk_blk_of_ne _ _ (Or.inr hyz)]
  refine ⟨⟨superDesc_of_blk (hblk 1 hz.symm hib.symm), fun y o hyz hyib => ?_⟩, hzblk, hiblk⟩
  by_cases hy : y = z
  · rw [hy, hzblk]
    exact hD o (hyz hy)
  · by_cases hy' : y = inodeBlock (w.superDesc dev) nr
    · have hout := hyib hy'
      rw [hy', hiblk]
      exact putU32_of_ne _ _ (by omega)
    · rw [hblk y hy hy']

/-- The end of the loop of `add_entry`: the name and the time. -/
theorem stored_name (hh : w.Holds dev nr d) (hz : z ≠ 1) (hib : inodeBlock (w.superDesc dev) nr ≠ 1)
    (hzib : z ≠ inodeBlock (w.superDesc dev) nr) (off : ℕ) (name : CStr) (v : ℕ) :
    EntryStored w ((w.setDentryName ⟨dev, z, off⟩ name).setMtime d v) dev nr z off ∧
      (((w.setDentryName ⟨dev, z, off⟩ name).setMtime d v).descOf dev nr).size = (w.descOf dev nr).size ∧
      ((w.setDentryName ⟨dev, z, off⟩ name).setMtime d v).dentryNr ⟨dev, z, off⟩ = w.dentryNr ⟨dev, z, off⟩ := by
  obtain ⟨hstored, hzblk, hiblk⟩ := stored_of hh hz hib hzib off
    (strncpy (w.blk dev z) (off + 2) name nameLen) (fun o ho => strncpy_outside (by omega))
    (show 4 ≤ 8 by omega) (by omega) v
  change EntryStored w ((w.setDentryName ⟨dev, z, off⟩ name).setMtime d v) dev nr z off at hstored
  change ((w.setDentryName ⟨dev, z, off⟩ name).setMtime d v).blk dev z = _ at hzblk
  change ((w.setDentryName ⟨dev, z, off⟩ name).setMtime d v).blk dev _ = _ at hiblk
  refine ⟨hstored, ?_, ?_⟩
  · rw [Fs.descOf, Fs.descOf, hstored.desc, hiblk]
    exact getU32_congr fun i _ hi => putU32_of_ne _ _ (by omega)
  · rw [Fs.dentryNr, Fs.dentryNr]
    dsimp only
    rw [hzblk]
    exact getU16_congr (strncpy_outside (by omega)) (strncpy_outside (by omega))

/-- The entry behind the last one becomes part of the directory. -/
theorem stored_grow (hh : w.Holds dev nr d) (hz : z ≠ 1) (hib : inodeBlock (w.superDesc dev) nr ≠ 1)
    (hzib : z ≠ inodeBlock (w.superDesc dev) nr) (off : ℕ) {size : ℕ} (hsize : size < 4294967296) :
    EntryStored w ((w.setDentryNr ⟨dev, z, off⟩ 0).setSize d size) dev nr z off ∧
      (((w.setDentryNr ⟨dev, z, off⟩ 0).setSize d size).descOf dev nr).size = size ∧
      ((w.setDentryNr ⟨dev, z, off⟩ 0).setSize d size).dentryNr ⟨dev, z, off⟩ = 0 := by
  obtain ⟨hstored, hzblk, hiblk⟩ := stored_of hh hz hib hzib off ((w.blk dev z).putU16 off 0)
    (fun o ho => putU16_of_ne _ _ (by omega) (by omega)) (show 4 ≤ 4 by omega) (by omega) size
  change EntryStored w ((w.setDentryNr ⟨dev, z, off⟩ 0).setSize d size) dev nr z off at hstored
  change ((w.setDentryNr ⟨dev, z, off⟩ 0).setSize d size).blk dev z = _ at hzblk
  change ((w.setDentryNr ⟨dev, z, off⟩ 0).setSize d size).blk dev _ = _ at hiblk
  refine ⟨hstored, ?_, ?_⟩
  · rw [Fs.descOf, hstored.desc, hiblk]
    exact (getU32_putU32_self _ _ _).trans (Nat.mod_eq_of_lt hsize)
  · rw [Fs.dentryNr]
    dsimp only
    rw [hzblk]
    exact getU16_putU16_self _ _ _

theorem EntryStored.trans (h : EntryStored s t dev nr z off) (h' : EntryStored t u dev nr z off) : EntryStored s u dev nr z off where
  desc := h'.desc.trans h.desc
  blk y o hyz hyib := (h'.blk y o hyz (h.desc ▸ hyib)).trans (h.blk y o hyz hyib)

/-- **A slot with no word in the block of the entry** is where it was. -/
theorem EntryStored.zoneAt (h : EntryStored s t dev nr z off) (hl : Layout s dev) (hi : InodePos (s.superDesc dev) nr)
    (hz : (s.superDesc dev).firstdatazone ≤ z)
    (hpath : ∀ q, q ≠ [] → q <:+ p → q ≠ p → (s.superDesc dev).firstdatazone ≤ s.zoneAt dev nr q ∧ s.zoneAt dev nr q ≠ z) :
    t.zoneAt dev nr p = s.zoneAt dev nr p := by
  have hib := hl.inodeBlock_bounds hi
  refine zoneAt_same h.desc fun q hq hsuf _ => ?_
  obtain ⟨j, q, rfl⟩ := List.exists_cons_of_ne_nil hq
  cases q with
  | nil =>
    have hroot : ∀ o, inodeOffset nr + 14 ≤ o → t.blk dev (inodeBlock (s.superDesc dev) nr) o
        = s.blk dev (inodeBlock (s.superDesc dev) nr) o := fun o ho =>
      h.blk _ _ (fun hc => by omega) fun _ => Or.inr (by omega)
    rw [Fs.slotPlace]
    exact ⟨hroot _ (by omega), hroot _ (by omega)⟩
  | cons i l =>
    have hne : i :: l ≠ p := fun hc => by
      have hlen := hsuf.length_le
      rw [← hc, List.length_cons] at hlen
      exact Nat.not_succ_le_self _ hlen
    obtain ⟨hlo, hnez⟩ := hpath (i :: l) (by simp) ((List.suffix_cons j _).trans hsuf) hne
    have hnode : ∀ o, t.blk dev (s.zoneAt dev nr (i :: l)) o = s.blk dev (s.zoneAt dev nr (i :: l)) o := fun o =>
      h.blk _ _ (fun hc => absurd hc hnez) fun hc => by omega
    rw [Fs.slotPlace]
    exact ⟨hnode _, hnode _⟩

end Stored

/-! ### The entries -/

/-- **Entry `k` has been stored** in the block that `bmap` has found or created for it. -/
def EntryPlaced (s t : Fs) (dev nr k : ℕ) : Prop := k / 64 < 262663 ∧
  ∃ z v, t.entryOf dev nr k = ⟨dev, z, k % 64 * 16⟩ ∧ Mapped s v dev nr (k / 64) z ∧ EntryStored v t dev nr z (k % 64 * 16)

section Entries

variable {s t v : Fs} {dev nr d n k z : ℕ} (hl : Layout s dev) (ht : TreeAt s dev nr)
  (hblocks : ∀ j < n, s.zoneAt dev nr (bmapSlot (j / 64)) ≠ 0)

include ht hblocks

/-- There are no more blocks than zones. -/
theorem entries_le : n ≤ 64 * 65536 := by
  by_contra hgt
  have hslot : ∀ m < 65537, IsSlot (bmapSlot m) ∧ s.zoneAt dev nr (bmapSlot m) ≠ 0 := fun m hm => by
    refine ⟨isSlot_bmapSlot (by omega), ?_⟩
    have hne := hblocks (m * 64) (by omega)
    rwa [Nat.mul_div_cancel m (by omega)] at hne
  have hmaps : ∀ m ∈ Finset.range 65537, s.zoneAt dev nr (bmapSlot m) ∈ Finset.range 65536 := fun m hm => by
    obtain ⟨hs, hne⟩ := hslot m (Finset.mem_range.mp hm)
    exact Finset.mem_range.mpr (Nat.lt_trans (ht.zone _ hs hne).2.1 (getU16_lt _ _))
  obtain ⟨m, hm, m', hm', hne, heq⟩ := Finset.exists_ne_map_eq_of_card_lt_of_maps_to (by simp) hmaps
  obtain ⟨hs, h0⟩ := hslot m (Finset.mem_range.mp hm)
  obtain ⟨hs', -⟩ := hslot m' (Finset.mem_range.mp hm')
  exact hne (bmapSlot_inj (ht.inj _ _ hs hs' h0 heq))

omit hblocks in
include hl in
/-- The entry is in the directory. -/
theorem zoneAt_stored (hm : Mapped s v dev nr (k / 64) z) (hk : k / 64 < 262663)
    (hst : EntryStored v t dev nr z (k % 64 * 16)) : t.zoneAt dev nr (bmapSlot (k / 64)) = z := by
  obtain ⟨hlv, hdesc, -⟩ := hm.grown.layout hl ht (isSlot_bmapSlot hk)
  rw [hst.zoneAt hlv (hdesc.symm ▸ ht.inode) (hdesc.symm ▸ hm.lo) (hdesc.symm ▸ hm.path), hm.zone]

include hl in
/-- **The other entries are kept.** -/
theorem kept_of_stored (hm : Mapped s v dev nr (k / 64) z) (hk : k / 64 < 262663)
    (hst : EntryStored v t dev nr z (k % 64 * 16))
    (hapart : ∀ j < n, ∀ q, q ≠ [] → q <:+ bmapSlot (j / 64) → s.zoneAt dev nr q = z → q = bmapSlot (k / 64)) :
    ∀ j < n, j ≠ k → t.entryOf dev nr j = s.entryOf dev nr j ∧
      ∀ o < 16, t.blk dev (s.entryOf dev nr j).blk (j % 64 * 16 + o)
        = s.blk dev (s.entryOf dev nr j).blk (j % 64 * 16 + o) := by
  intro j hj hne
  have hp := isSlot_bmapSlot hk
  obtain ⟨hlv, hdesc, -⟩ := hm.grown.layout hl ht hp
  have hjb : j / 64 < 262663 := by
    have hle := entries_le ht hblocks
    omega
  have hslot := isSlot_bmapSlot hjb
  have hzone := hblocks j hj
  have hpath : ∀ q, q ≠ [] → q <:+ bmapSlot (j / 64) → q ≠ bmapSlot (j / 64) →
      (v.superDesc dev).firstdatazone ≤ v.zoneAt dev nr q ∧ v.zoneAt dev nr q ≠ z := by
    intro q hq hsuf hqj
    have hq0 := zoneAt_suffix_ne_zero hq hsuf hzone
    have hqs := hslot.of_suffix hq hsuf
    rw [hdesc, hm.grown.zoneAt hl ht hp hqs hq0]
    refine ⟨(ht.zone q hqs hq0).1, fun hc => ?_⟩
    exact not_isNode_bmapSlot (k / 64) (hapart j hj q hq hsuf hc ▸ hslot.node_of_suffix hq hsuf hqj)
  have hsame : t.zoneAt dev nr (bmapSlot (j / 64)) = s.zoneAt dev nr (bmapSlot (j / 64)) := by
    rw [hst.zoneAt hlv (hdesc.symm ▸ ht.inode) (hdesc.symm ▸ hm.lo) hpath, hm.grown.zoneAt hl ht hp hslot hzone]
  refine ⟨by rw [Fs.entryOf, Fs.entryOf, hsame], fun o ho => ?_⟩
  have hib := hl.inodeBlock_bounds ht.inode
  have hdata := (ht.zone _ hslot hzone).1
  change t.blk dev (s.zoneAt dev nr (bmapSlot (j / 64))) _ = s.blk dev (s.zoneAt dev nr (bmapSlot (j / 64))) _
  rw [hst.blk _ _ (fun hc => ?_) fun hc => ?_, hm.grown.leaf hl ht hp hslot (not_isNode_bmapSlot _) hzone]
  · -- an entry of the same block
    have hblock := bmapSlot_inj (hapart j hj _ hslot.ne_nil List.suffix_rfl hc)
    omega
  · rw [hdesc] at hc
    omega

end Entries

/-! ### The loop -/

section Loop

variable {s t u v : Fs} {dev nr d n k z block : ℕ}

/-- A block that is there is found. -/
theorem entryBlock_there (hh : s.Holds dev nr d) (hk : k / 64 < 262663) (hne : s.zoneAt dev nr (bmapSlot (k / 64)) ≠ 0)
    (hprev : k % 64 ≠ 0 → block = s.zoneAt dev nr (bmapSlot (k / 64))) (create : Bool) :
    entryBlock s d k block create = some (s.zoneAt dev nr (bmapSlot (k / 64)), s) := by
  rw [entryBlock]
  by_cases hfirst : k % blockDentries = 0
  · rw [if_pos hfirst, show k / blockDentries = k / 64 from rfl, bmap_eq_path hh hk,
      bmapPath_of_ne create _ (isSlot_bmapSlot hk) hne]
    simp only [Option.bind_eq_bind, Option.bind_some]
    rw [assert_pos hne]
    rfl
  · rw [if_neg hfirst, hprev hfirst]
    rfl

/-- **The loop passes over the entries in use.** -/
theorem addEntryLoop_scan (name : CStr) (hh : s.Holds dev nr d) (hsize : (s.inodeDesc d).size = n * 16) (hn : n ≤ 64 * 65536)
    (hblocks : ∀ j < n, s.zoneAt dev nr (bmapSlot (j / 64)) ≠ 0) : ∀ m ≤ n,
    (∀ j < m, s.dentryNr (s.entryOf dev nr j) ≠ 0) → ∀ left,
    ∃ block, (m % 64 ≠ 0 → block = s.zoneAt dev nr (bmapSlot (m / 64))) ∧
      addEntryLoop d name (left + m) 0 0 s = addEntryLoop d name left m block s := by
  intro m
  induction m with
  | zero => exact fun _ _ left => ⟨0, fun hc => absurd rfl hc, rfl⟩
  | succ m ih =>
    intro hm hused left
    obtain ⟨block, hprev, hrun⟩ := ih (Nat.le_of_succ_le hm) (fun j hj => hused j (Nat.lt_succ_of_lt hj)) (left + 1)
    have hne := hblocks m hm
    have hin : ¬(s.inodeDesc d).size ≤ m * 16 := by omega
    have hnr : s.dentryNr ⟨dev, s.zoneAt dev nr (bmapSlot (m / 64)), m % blockDentries * 16⟩ ≠ 0 :=
      hused m (Nat.lt_succ_self m)
    refine ⟨s.zoneAt dev nr (bmapSlot (m / 64)), fun hmod => by rw [show (m + 1) / 64 = m / 64 by omega], ?_⟩
    rw [show left + (m + 1) = left + 1 + m by omega, hrun, addEntryLoop,
      entryBlock_there hh (by omega) hne hprev true]
    simp only [Option.bind_eq_bind, Option.bind_some, hh.dev_eq, growDir]
    rw [if_neg hin, if_pos hnr]

/-- The loop takes an entry that is free. -/
theorem addEntryLoop_take (name : CStr) (hblock : entryBlock s d k block true = some (z, v)) (hdev : (v.inodeTable d).dev = dev)
    (hfree : (growDir v d k ⟨dev, z, k % 64 * 16⟩).dentryNr ⟨dev, z, k % 64 * 16⟩ = 0) (left : ℕ) :
    ∃ time, addEntryLoop d name (left + 1) k block s = some (⟨dev, z, k % 64 * 16⟩,
      ((growDir v d k ⟨dev, z, k % 64 * 16⟩).setDentryName ⟨dev, z, k % 64 * 16⟩ name).setMtime d time) := by
  refine ⟨((growDir v d k ⟨dev, z, k % 64 * 16⟩).setDentryName ⟨dev, z, k % 64 * 16⟩ name).time, ?_⟩
  rw [addEntryLoop, hblock]
  simp only [Option.bind_eq_bind, Option.bind_some, hdev, show blockDentries = 64 from rfl]
  rw [if_neg (not_not_intro hfree)]
  rfl

/-- The first block behind an index block is one of those that need it. -/
theorem first_behind {m : ℕ} {q : List ℕ} (hnode : IsNode q) (hsuf : q <:+ bmapSlot m) :
    ∃ m' ≤ m, 0 :: q <:+ bmapSlot m' := by
  rw [bmapSlot] at hsuf
  cases hnode with
  | single =>
    split at hsuf
    · simp [List.suffix_cons_iff] at hsuf
      omega
    · split at hsuf
      · exact ⟨7, by omega, List.suffix_rfl⟩
      · simp [List.suffix_cons_iff] at hsuf
  | double =>
    split at hsuf
    · simp [List.suffix_cons_iff] at hsuf
      omega
    · split at hsuf
      · simp [List.suffix_cons_iff] at hsuf
      · exact ⟨519, by omega, List.suffix_cons 0 [0, 8]⟩
  | @middle j hj =>
    split at hsuf
    · simp [List.suffix_cons_iff] at hsuf
    · split at hsuf
      · simp [List.suffix_cons_iff] at hsuf
      · simp [List.suffix_cons_iff] at hsuf
        refine ⟨519 + 512 * j, by omega, ?_⟩
        rw [bmapSlot, if_neg (by omega), if_neg (by omega), show (519 + 512 * j - 519) % 512 = 0 by omega,
          show (519 + 512 * j - 519) / 512 = j by omega]

/-- What `bmap` leaves of the fields of the descriptor. -/
theorem Grown.descOf_size {p : List ℕ} (hl : Layout s dev) (ht : TreeAt s dev nr) (hp : IsSlot p)
    (h : Grown s v dev nr p) : (v.descOf dev nr).size = (s.descOf dev nr).size := by
  have hib := hl.inodeBlock_bounds ht.inode
  rw [Fs.descOf, Fs.descOf, (h.layout hl ht hp).2.1]
  exact getU32_congr fun o _ ho => h.front ht hp hib.2 (hl.zmap_ne_inodeBlock ht.inode) fun _ => by omega

variable (name : CStr) (hl : Layout s dev) (ht : TreeAt s dev nr) (hh : s.Holds dev nr d) (hsize : (s.descOf dev nr).size = n * 16)
  (hblocks : ∀ j < n, s.zoneAt dev nr (bmapSlot (j / 64)) ≠ 0)

include hl ht hh hsize hblocks

/-- **An entry below the end is taken.** -/
theorem added_below (hk : k < n) (hfree : s.dentryNr (s.entryOf dev nr k) = 0)
    (hused : ∀ j < k, s.dentryNr (s.entryOf dev nr j) ≠ 0) :
    ∃ t, addEntryLoop d name (n + 2) 0 0 s = some (t.entryOf dev nr k, t) ∧ Added s t dev nr n k ∧
      EntryPlaced s t dev nr k := by
  have hn := entries_le ht hblocks
  have hib := hl.inodeBlock_bounds ht.inode
  have hslot : FreeSlot s dev nr n := ⟨k, hk, hfree⟩
  have hne := hblocks k hk
  have hkb : k / 64 < 262663 := by omega
  have hm := mapped_of_ne ht hkb hne
  have hlo := hm.lo
  have hdesc : s.descOf dev nr = s.inodeDesc d := (inodeDesc_eq hh).symm
  obtain ⟨block, hprev, hscan⟩ :=
    addEntryLoop_scan name hh (hdesc ▸ hsize) hn hblocks k (Nat.le_of_lt hk) hused (n + 1 - k + 1)
  have hgrow : growDir s d k ⟨dev, s.zoneAt dev nr (bmapSlot (k / 64)), k % 64 * 16⟩ = s :=
    if_neg (by rw [← hdesc, hsize]; omega)
  obtain ⟨time, hrun⟩ := addEntryLoop_take name
    (entryBlock_there hh hkb hne hprev true) hh.dev_eq (by rw [hgrow]; exact hfree) (n + 1 - k)
  rw [hgrow] at hrun
  obtain ⟨hst, hsz, hnr⟩ := stored_name hh (by omega) (by omega)
    (show s.zoneAt dev nr (bmapSlot (k / 64)) ≠ inodeBlock (s.superDesc dev) nr by omega) (k % 64 * 16) name time
  generalize (s.setDentryName ⟨dev, s.zoneAt dev nr (bmapSlot (k / 64)), k % 64 * 16⟩ name).setMtime d time = t at hrun hst hsz hnr
  have hzone := zoneAt_stored hl ht hm hkb hst
  have hentry : t.entryOf dev nr k = ⟨dev, s.zoneAt dev nr (bmapSlot (k / 64)), k % 64 * 16⟩ := by rw [Fs.entryOf, hzone]
  refine ⟨t, ?_, ⟨fun _ => ⟨hk, hfree⟩, fun hno => absurd hslot hno, ?_,
    kept_of_stored hl ht hblocks hm hkb hst fun j hj q hq hsuf hc => ?_, fun _ => hsz.trans hsize,
    fun hno => absurd hslot hno⟩, hkb, _, s, hentry, hm, hst⟩
  · rw [hentry, ← hrun, ← hscan]
    exact congrArg (fun left => addEntryLoop d name left 0 0 s) (by omega)
  · rw [hentry, hnr]
    exact hfree
  · have hjs := (isSlot_bmapSlot (show j / 64 < 262663 by omega)).of_suffix hq hsuf
    exact ht.inj q _ hjs (isSlot_bmapSlot hkb) (by rwa [hc]) hc

/-- **The entry behind the last one is taken**, in the block `bmap` returns. -/
theorem behind_run {p : List ℕ} (hp : IsSlot p) (hused : ¬FreeSlot s dev nr n) (hg : Grown s v dev nr p)
    (hlo : (s.superDesc dev).firstdatazone ≤ z)
    (hblock : ∀ block, (n % 64 ≠ 0 → block = s.zoneAt dev nr (bmapSlot (n / 64))) →
      entryBlock s d n block true = some (z, v)) :
    ∃ t, addEntryLoop d name (n + 2) 0 0 s = some (⟨dev, z, n % 64 * 16⟩, t) ∧
      EntryStored v t dev nr z (n % 64 * 16) ∧ (t.descOf dev nr).size = (n + 1) * 16 ∧
      t.dentryNr ⟨dev, z, n % 64 * 16⟩ = 0 := by
  have hn := entries_le ht hblocks
  have hib := hl.inodeBlock_bounds ht.inode
  obtain ⟨-, hdescv, -⟩ := hg.layout hl ht hp
  have hhv := hg.holds hl ht hp hh
  have hdesc : s.descOf dev nr = s.inodeDesc d := (inodeDesc_eq hh).symm
  have hdesc' : v.descOf dev nr = v.inodeDesc d := (inodeDesc_eq hhv).symm
  have hsizev : (v.descOf dev nr).size = n * 16 := (hg.descOf_size hl ht hp).trans hsize
  have hall : ∀ j < n, s.dentryNr (s.entryOf dev nr j) ≠ 0 := fun j hj hc => hused ⟨j, hj, hc⟩
  obtain ⟨block, hprev, hscan⟩ := addEntryLoop_scan name hh (hdesc ▸ hsize) hn hblocks n (Nat.le_refl n) hall 2
  have hgrow : growDir v d n ⟨dev, z, n % 64 * 16⟩ = (v.setDentryNr ⟨dev, z, n % 64 * 16⟩ 0).setSize d ((n + 1) * 16) :=
    if_pos (by rw [← hdesc', hsizev])
  obtain ⟨hst, hsz, hnr⟩ := stored_grow hhv (by omega) (by rw [hdescv]; omega)
    (show z ≠ inodeBlock (v.superDesc dev) nr by rw [hdescv]; omega) (n % 64 * 16) (show (n + 1) * 16 < 4294967296 by omega)
  rw [← hgrow] at hst hsz hnr
  obtain ⟨time, hrun⟩ := addEntryLoop_take name (hblock block hprev) hhv.dev_eq hnr 1
  have hhw : (growDir v d n ⟨dev, z, n % 64 * 16⟩).Holds dev nr d := by
    refine hhv.of_same ⟨?_, hst.desc⟩
    rw [hgrow]
    rfl
  obtain ⟨hst', hsz', hnr'⟩ := stored_name hhw (by omega) (by rw [hst.desc, hdescv]; omega)
    (show z ≠ inodeBlock _ nr by rw [hst.desc, hdescv]; omega) (n % 64 * 16) name time
  refine ⟨_, ?_, hst.trans hst', hsz'.trans hsz, hnr'.trans hnr⟩
  rw [← hrun, ← hscan, Nat.add_comm]

/-- It is one more entry of the directory if the block is none that the others use. -/
theorem added_behind (hused : ¬FreeSlot s dev nr n) (hm : Mapped s v dev nr (n / 64) z)
    (hblock : ∀ block, (n % 64 ≠ 0 → block = s.zoneAt dev nr (bmapSlot (n / 64))) →
      entryBlock s d n block true = some (z, v))
    (hapart : ∀ j < n, ∀ q, q ≠ [] → q <:+ bmapSlot (j / 64) → s.zoneAt dev nr q = z → q = bmapSlot (n / 64)) :
    ∃ t, addEntryLoop d name (n + 2) 0 0 s = some (t.entryOf dev nr n, t) ∧ Added s t dev nr n n ∧
      EntryPlaced s t dev nr n := by
  have hnb : n / 64 < 262663 := by
    have hn := entries_le ht hblocks
    omega
  obtain ⟨t, hrun, hst, hsz, hnr⟩ :=
    behind_run name hl ht hh hsize hblocks (isSlot_bmapSlot hnb) hused hm.grown hm.lo hblock
  have hentry : t.entryOf dev nr n = ⟨dev, z, n % 64 * 16⟩ := by rw [Fs.entryOf, zoneAt_stored hl ht hm hnb hst]
  refine ⟨t, by rw [hentry, hrun], ⟨fun hc => absurd hc hused, fun _ => rfl, by rw [hentry, hnr],
    kept_of_stored hl ht hblocks hm hnb hst hapart, fun hc => absurd hc hused, fun _ => hsz⟩, hnb, z, v, hentry, hm, hst⟩

/-- **The loop adds an entry** if what is in the index blocks that are created does no harm. -/
theorem addEntryLoop_added (hzero : s.zbit dev 0 = true) (henough : Enough s dev nr (slotPath (bmapSlot (n / 64))))
    (hsafe : ¬FreeSlot s dev nr n → SafeIndex s dev nr (n / 64) (bmapSlot (n / 64))) :
    ∃ k t, addEntryLoop d name (n + 2) 0 0 s = some (t.entryOf dev nr k, t) ∧ Added s t dev nr n k ∧
      EntryPlaced s t dev nr k := by
  have hn := entries_le ht hblocks
  have hnb : n / 64 < 262663 := by omega
  by_cases hslot : FreeSlot s dev nr n
  · classical
    have hspec := Nat.find_spec hslot
    have hleast : ∀ j < Nat.find hslot, s.dentryNr (s.entryOf dev nr j) ≠ 0 := fun j hj hc =>
      Nat.find_min hslot hj ⟨Nat.lt_trans hj hspec.1, hc⟩
    exact ⟨_, added_below name hl ht hh hsize hblocks hspec.1 hspec.2 hleast⟩
  refine ⟨n, ?_⟩
  by_cases hmod : n % 64 = 0
  · have hbelow : ∀ m < n / 64, s.zoneAt dev nr (bmapSlot m) ≠ 0 := fun m hm => by
      have hne := hblocks (m * 64) (by omega)
      rwa [Nat.mul_div_cancel m (by omega)] at hne
    obtain ⟨z, v, hrun, hz, hm⟩ := bmap_mapped hl ht hzero hnb hbelow hh henough (hsafe hslot)
    refine added_behind name hl ht hh hsize hblocks hslot hm (fun block _ => ?_) fun j hj q hq hsuf hc => ?_
    · rw [entryBlock, if_pos (show n % blockDentries = 0 from hmod), show n / blockDentries = n / 64 from rfl, hrun]
      simp only [Option.bind_eq_bind, Option.bind_some]
      rw [assert_pos hz]
      rfl
    · exact absurd ⟨j / 64, by omega, q, hq, hsuf, hc⟩ hm.apart
  · -- the block is that of the entry before
    have hne : s.zoneAt dev nr (bmapSlot (n / 64)) ≠ 0 := by
      have hlast := hblocks (n - 1) (by omega)
      rwa [show (n - 1) / 64 = n / 64 by omega] at hlast
    refine added_behind name hl ht hh hsize hblocks hslot (mapped_of_ne ht hnb hne)
      (fun block hprev => entryBlock_there hh hnb hne hprev true) fun j hj q hq hsuf hc => ?_
    have hjs := (isSlot_bmapSlot (show j / 64 < 262663 by omega)).of_suffix hq hsuf
    exact ht.inj q _ hjs (isSlot_bmapSlot hnb) (by rwa [hc]) hc

/-- **What harms is seen**: an entry that has been added as it should be is not in a block of the directory. -/
theorem noHarm_of_added (hzero : s.zbit dev 0 = true) {p : List ℕ} (hslot : bmapSlot (n / 64) = 0 :: p)
    (hmod : n % 64 = 0) (hused : ¬FreeSlot s dev nr n) (hnode : IsNode p) (hreach : Reached s dev nr p)
    (hempty : s.zoneAt dev nr p = 0) {z : ℕ} (hz : FirstFree s dev z) (hw : s.zoneEntry dev z 0 ≠ 0)
    (hlo : (s.superDesc dev).firstdatazone ≤ s.zoneEntry dev z 0)
    (hadd : ∃ k t, addEntryLoop d name (n + 2) 0 0 s = some (t.entryOf dev nr k, t) ∧ Added s t dev nr n k) :
    s.zoneEntry dev z 0 ∉ [z] ∧ ¬Own s dev nr (n / 64 + 1) (s.zoneEntry dev z 0) := by
  have hn := entries_le ht hblocks
  have hnb : n / 64 < 262663 := by omega
  have hp := isSlot_bmapSlot hnb
  have hsuf : p <:+ bmapSlot (n / 64) := hslot ▸ List.suffix_cons 0 p
  obtain ⟨z₁, s₁, hz₁, hrun₁, htakes, hgrown, hself, hblk₁⟩ :=
    link_node hl ht hzero hsuf hnode hreach hempty ⟨z, hz.1⟩
  obtain rfl := hz.unique hz₁
  obtain ⟨hl₁, hdesc₁, -⟩ := hgrown.layout hl ht hp
  have hword : (s₁.blk dev z).getU16 (0 + 2 * 0) = s.zoneEntry dev z 0 :=
    getU16_congr (hblk₁ _ _ hz.1) (hblk₁ _ _ hz.1)
  generalize s.zoneEntry dev z 0 = w at hw hlo hword ⊢
  have hblock : ∀ block, (n % 64 ≠ 0 → block = s.zoneAt dev nr (bmapSlot (n / 64))) →
      entryBlock s d n block true = some (w, s₁) := by
    intro block _
    obtain ⟨i, l, rfl⟩ := List.exists_cons_of_ne_nil hnode.ne_nil
    have hentry : bmapEntry s₁ dev z 0 0 true = some (w, s₁) := by
      rw [← hword]
      exact bmapEntry_read (by rwa [hword])
    rw [entryBlock, if_pos (show n % blockDentries = 0 from hmod), show n / blockDentries = n / 64 from rfl,
      bmap_eq_path hh hnb, hslot, bmapPath, hrun₁]
    simp only [Option.bind_eq_bind, Option.bind_some]
    rw [if_neg (hz.1.pos hl), hentry, Option.bind_some]
    simp only
    rw [assert_pos hw]
    rfl
  obtain ⟨t, hrun, hst, -, hnr⟩ := behind_run name hl ht hh hsize hblocks hp hused hgrown hlo hblock
  obtain ⟨k, t', hrun', hadd⟩ := hadd
  obtain ⟨hentry, rfl⟩ := Prod.mk.inj (Option.some.inj (hrun.symm.trans hrun'))
  obtain rfl := hadd.behind hused
  have hzone : t.zoneAt dev nr (bmapSlot (k / 64)) = w := (congrArg Dentry.blk hentry).symm
  rw [hmod, Nat.zero_mul] at hst hnr
  have hnull : t.zoneEntry dev w 0 = 0 := hnr
  -- what is in front of the block of the entry is where it was
  have hkeep : ∀ q, IsSlot q → (∀ q', q' ≠ [] → q' <:+ q → q' ≠ q → (s.superDesc dev).firstdatazone ≤ s₁.zoneAt dev nr q' ∧
      s₁.zoneAt dev nr q' ≠ w) → t.zoneAt dev nr q = s₁.zoneAt dev nr q := fun q _ hq =>
    hst.zoneAt hl₁ (hdesc₁.symm ▸ ht.inode) (hdesc₁.symm ▸ hlo) (hdesc₁.symm ▸ hq)
  refine ⟨fun hmem => ?_, ?_⟩
  · -- the index block itself: its first word is the number of the new entry
    obtain rfl := List.mem_singleton.mp hmem
    have hpar : t.zoneAt dev nr p = w := by
      rw [hkeep p hnode.isSlot fun q hq hsufq hne => ?_, hself]
      have hq0 := hreach.ne_zero hq hsufq hne
      have hqs := hnode.isSlot.of_suffix hq hsufq
      rw [hgrown.zoneAt hl ht hp hqs hq0]
      exact ⟨(ht.zone q hqs hq0).1, (ht.zone q hqs hq0).ne_free hz.1⟩
    obtain ⟨i, l, rfl⟩ := List.exists_cons_of_ne_nil hnode.ne_nil
    rw [hslot, zoneAt_cons (by rwa [hpar]), hpar, hnull] at hzone
    exact hw hzone.symm
  · rintro ⟨m, hm, q, hq, hsufq, hqw⟩
    have hmb : m < 262663 := by omega
    have hqs := (isSlot_bmapSlot hmb).of_suffix hq hsufq
    have hq0 : s.zoneAt dev nr q ≠ 0 := by rwa [hqw]
    have hkept : ∀ m' < k / 64, t.zoneAt dev nr (bmapSlot m') = s.zoneAt dev nr (bmapSlot m') ∧
        s.zoneAt dev nr (bmapSlot m') ≠ 0 := fun m' hm' => by
      have hsame := congrArg Dentry.blk (hadd.kept (m' * 64) (by omega) (by omega)).1
      have hne := hblocks (m' * 64) (by omega)
      rw [Fs.entryOf, Fs.entryOf, Nat.mul_div_cancel m' (by omega)] at hsame
      rw [Nat.mul_div_cancel m' (by omega)] at hne
      exact ⟨hsame, hne⟩
    by_cases hqn : IsNode q
    · -- an index block: the pointer to the first block behind it is lost
      obtain ⟨m', hm', hsuf'⟩ := first_behind hqn hsufq
      have hthere : t.zoneAt dev nr (bmapSlot m') ≠ 0 := by
        rcases Nat.lt_or_eq_of_le (Nat.le_trans hm' (Nat.le_of_lt_succ hm)) with hlt | heq
        · rw [(hkept m' hlt).1]
          exact (hkept m' hlt).2
        · rwa [heq, hzone]
      have hpar : t.zoneAt dev nr q = w := by
        rw [hkeep q hqs fun q' hq' hsuf'' hne => ?_, hgrown.zoneAt hl ht hp hqs hq0, hqw]
        have hq'0 := zoneAt_suffix_ne_zero hq' hsuf'' hq0
        have hq's := hqs.of_suffix hq' hsuf''
        rw [hgrown.zoneAt hl ht hp hq's hq'0]
        exact ⟨(ht.zone q' hq's hq'0).1, fun hc => hne (ht.inj q' q hq's hqs hq'0 (hc.trans hqw.symm))⟩
      obtain ⟨i, l, rfl⟩ := List.exists_cons_of_ne_nil hq
      refine zoneAt_suffix_ne_zero (by simp) hsuf' hthere ?_
      rw [zoneAt_cons (by rwa [hpar]), hpar, hnull]
    · -- a block of entries: the first of them is not in use any more
      have hqm : q = bmapSlot m := by
        by_contra hne
        exact hqn ((isSlot_bmapSlot hmb).node_of_suffix hq hsufq hne)
      subst hqm
      have hlt : m < k / 64 := by
        refine Nat.lt_of_le_of_ne (Nat.le_of_lt_succ hm) fun heq => hq0 ?_
        obtain ⟨i, l, rfl⟩ := List.exists_cons_of_ne_nil hnode.ne_nil
        rw [heq, hslot, zoneAt_cons_of_null hempty]
      refine hused ⟨m * 64, by omega, ?_⟩
      obtain ⟨-, hbytes⟩ := hadd.kept (m * 64) (by omega) (by omega)
      have hblk : (s.entryOf dev nr (m * 64)).blk = w := by
        rw [Fs.entryOf, Nat.mul_div_cancel m (by omega)]
        exact hqw
      have hoff : m * 64 % 64 * 16 = 0 := by omega
      rw [hblk, hoff] at hbytes
      rw [Fs.dentryNr, hblk]
      change (s.blk dev w).getU16 (m * 64 % 64 * 16) = 0
      rw [hoff]
      exact (getU16_congr (hbytes 0 (by omega)) (hbytes 1 (by omega))).symm.trans hnr

/-- **Where one index block at most is created**, an entry is added as it should be only if that does no harm. -/
theorem safeIndex_of_added (hzero : s.zbit dev 0 = true) (hused : ¬FreeSlot s dev nr n)
    (hone : n / 64 < 519 ∨ s.zoneAt dev nr [8] ≠ 0)
    (hword : ∀ z, FirstFree s dev z → s.zoneEntry dev z 0 = 0 ∨ (s.superDesc dev).firstdatazone ≤ s.zoneEntry dev z 0)
    (hadd : ∃ k t, addEntryLoop d name (n + 2) 0 0 s = some (t.entryOf dev nr k, t) ∧ Added s t dev nr n k) :
    SafeIndex s dev nr (n / 64) (bmapSlot (n / 64)) := by
  have hn := entries_le ht hblocks
  have hp := isSlot_bmapSlot (show n / 64 < 262663 by omega)
  by_cases hne : s.zoneAt dev nr (bmapSlot (n / 64)) ≠ 0
  · exact safeIndex_of_ne hne
  have hmod : n % 64 = 0 := by
    by_contra hmod
    have hlast := hblocks (n - 1) (by omega)
    exact hne (by rwa [show (n - 1) / 64 = n / 64 by omega] at hlast)
  -- the block before is there
  have hbefore : 0 < n / 64 → s.zoneAt dev nr (bmapSlot (n / 64 - 1)) ≠ 0 := fun hpos => by
    have hlast := hblocks ((n / 64 - 1) * 64) (by omega)
    rwa [Nat.mul_div_cancel _ (by omega)] at hlast
  have hharm : ∀ p, bmapSlot (n / 64) = 0 :: p → IsNode p → Reached s dev nr p → s.zoneAt dev nr p = 0 →
      ∀ z, FirstFree s dev z → NoHarm s dev nr (n / 64) [z] (s.zoneEntry dev z 0) := by
    intro p hslot hnode hreach hempty z hz
    by_cases hw : s.zoneEntry dev z 0 = 0
    · exact Or.inl hw
    · have hlo := (hword z hz).resolve_left hw
      obtain ⟨hnew, hown⟩ :=
        noHarm_of_added name hl ht hh hsize hblocks hzero hslot hmod hused hnode hreach hempty hz hw hlo hadd
      exact Or.inr ⟨hlo, hnew, hown⟩
  by_cases hdirect : n / 64 < 7
  · rw [bmapSlot, if_pos hdirect]
    trivial
  by_cases hsingle : n / 64 < 519
  · have hslot : bmapSlot (n / 64) = [n / 64 - 7, 7] := by rw [bmapSlot, if_neg hdirect, if_pos hsingle]
    rw [hslot]
    intro h7 z hz
    have hfirst : n / 64 = 7 := by
      by_contra hfirst
      have hprev := hbefore (by omega)
      rw [bmapSlot, if_neg (by omega), if_pos (by omega)] at hprev
      exact hprev (zoneAt_cons_of_null h7)
    rw [show n / 64 - 7 = 0 by omega] at hslot ⊢
    exact hharm [7] hslot .single (reached_root 7) h7 z hz
  · have hslot : bmapSlot (n / 64) = [(n / 64 - 519) % 512, (n / 64 - 519) / 512, 8] := by
      rw [bmapSlot, if_neg hdirect, if_neg hsingle]
    have h8 : s.zoneAt dev nr [8] ≠ 0 := hone.resolve_left hsingle
    rw [hslot]
    refine ⟨fun _ hj z hz => ?_, fun hc => absurd hc h8⟩
    have hfirst : (n / 64 - 519) % 512 = 0 := by
      by_contra hfirst
      have hprev := hbefore (by omega)
      rw [bmapSlot, if_neg (by omega), if_neg (by omega), show (n / 64 - 1 - 519) / 512 = (n / 64 - 519) / 512 by omega] at hprev
      exact hprev (zoneAt_cons_of_null hj)
    rw [hfirst] at hslot ⊢
    have hjlt : (n / 64 - 519) / 512 < 512 := by omega
    exact hharm _ hslot (.middle hjlt) (reached_cons h8) hj z hz

end Loop

/-! ### `add_entry` -/

/-- A name that is not there goes to the loop. -/
theorem addEntry_eq_loop {s u : Fs} {dev nr i d n : ℕ} {name : CStr} (hfind : findEntry s i name = some (d, none, u))
    (hname : ∀ c ∈ name, isSeparator c = false) (hh : u.Holds dev nr d) (hsize : (u.descOf dev nr).size = n * 16) :
    addEntry s i name = addEntryLoop d name (n + 2) 0 0 u := by
  have hdesc : u.descOf dev nr = u.inodeDesc d := (inodeDesc_eq hh).symm
  have hall : ((name.take nameLen).all fun c => !isSeparator c) = true := by
    refine List.all_eq_true.mpr fun c hc => ?_
    rw [hname c (List.mem_of_mem_take hc)]
    rfl
  rw [addEntry, hfind]
  simp only [Option.bind_eq_bind, Option.bind_some]
  rw [assert_pos hall, ← hdesc, hsize, Nat.mul_div_cancel n (by omega)]
  rfl

/-- **`add_entry`** for a name that is not there, in the directory `find_entry` has looked in: if what is in the index
blocks that are created does no harm, an entry is added and the others are kept. Where at most one index block is
created, and its first word does not name a block in front of the data zones, that is needed too. -/
theorem addEntry_added_iff {s u : Fs} {dev nr i d n : ℕ} {name : CStr} (hfind : findEntry s i name = some (d, none, u))
    (hname : ∀ c ∈ name, isSeparator c = false) (hl : Layout u dev) (hzero : u.zbit dev 0 = true)
    (hh : u.Holds dev nr d) (ht : TreeAt u dev nr) (hsize : (u.descOf dev nr).size = n * 16)
    (hblocks : ∀ j < n, u.zoneAt dev nr (bmapSlot (j / 64)) ≠ 0)
    (henough : Enough u dev nr (slotPath (bmapSlot (n / 64)))) :
    ((¬FreeSlot u dev nr n → SafeIndex u dev nr (n / 64) (bmapSlot (n / 64))) →
        ∃ k t, addEntry s i name = some (t.entryOf dev nr k, t) ∧ Added u t dev nr n k) ∧
      (n / 64 < 519 ∨ u.zoneAt dev nr [8] ≠ 0 →
        (∀ z, FirstFree u dev z → u.zoneEntry dev z 0 = 0 ∨ (u.superDesc dev).firstdatazone ≤ u.zoneEntry dev z 0) →
        (∃ k t, addEntry s i name = some (t.entryOf dev nr k, t) ∧ Added u t dev nr n k) →
          ¬FreeSlot u dev nr n → SafeIndex u dev nr (n / 64) (bmapSlot (n / 64))) := by
  rw [addEntry_eq_loop hfind hname hh hsize]
  refine ⟨fun hsafe => ?_, fun hone hword hadd hused => safeIndex_of_added name hl ht hh hsize hblocks hzero hused hone hword hadd⟩
  obtain ⟨k, t, hrun, hadd, -⟩ := addEntryLoop_added name hl ht hh hsize hblocks hzero henough hsafe
  exact ⟨k, t, hrun, hadd⟩

/-! ### A directory of seven full blocks -/

/-- Block `b` of entries: `.` and `..`, and names of two letters and one for the block. -/
def longEntries (b : ℕ) : Bytes := fun o =>
  if o % 16 = 0 then if b = 5 ∧ o < 32 then 1#8 else 2#8
  else if o % 16 = 2 then if b = 5 ∧ o < 32 then 46#8 else BitVec.ofNat 8 (92 + b)
  else if o % 16 = 3 then if b = 5 ∧ o < 32 then if o < 16 then 0#8 else 46#8 else BitVec.ofNat 8 (97 + o / 256)
  else if o % 16 = 4 then if b = 5 ∧ o < 32 then 0#8 else BitVec.ofNat 8 (97 + o / 16 % 16)
  else 0#8

/-- The blocks of the device: zones 5 to 11 have the entries, zone 12 is the first that is free, and `w` is in
its first word. -/
def longBlocks (w b : ℕ) : Bytes :=
  if b = 3 then fun o => if o = 0 then 255#8 else 0#8
  else if b = 4 then
    (List.range 7).foldl (fun d r => d.putU16 (14 + 2 * r) (5 + r)) (putInodeDesc (fun _ => 0#8) 0 0o040755 7168 2 0)
  else if 5 ≤ b ∧ b < 12 then longEntries b
  else if b = 12 then putU16 (fun _ => 0#8) 0 w
  else fun _ => 0#8

/-- The device, mounted, with the directory in entry 0 of the inode table. -/
def longFs (w : ℕ) : Fs :=
  (deviceFs rootDesc (longBlocks w)).setInode 0
    { dev := 1, nr := 1, count := 1, buf := 4, desc := 0, atime := 0, ctime := 0, mount := 0 }

section Long

variable (w : ℕ)

theorem longFs_layout : Layout (longFs w) 1 ∧ (longFs w).superDesc 1 = rootDesc := by
  have hvalid : rootDesc.Valid := ⟨by decide, by decide, by decide, by decide, by decide, by decide⟩
  obtain ⟨hm, hdesc, -, -⟩ := (mounted_deviceFs hvalid (longBlocks w)).of_same (t := longFs w) rfl rfl
  have heq : (longFs w).superDesc 1 = rootDesc := hdesc.trans (deviceFs_superDesc hvalid (longBlocks w))
  refine ⟨⟨hm, ?_⟩, heq⟩
  rw [heq]
  decide

theorem longFs_blk {b : ℕ} (hb : b ≠ 1) : (longFs w).blk 1 b = longBlocks w b := by
  simp only [longFs, Fs.setInode_blk, deviceFs, if_neg hb]

theorem longFs_holds : (longFs w).Holds 1 1 0 := by
  have hdesc := (longFs_layout w).2
  refine ⟨by decide, ?_, rfl, rfl, ?_, ?_⟩
  · rw [hdesc]
    decide
  · rw [hdesc, show inodeBlock rootDesc 1 = 4 by decide]
    rfl
  · rw [show inodeOffset 1 = 0 by decide]
    rfl

theorem longFs_zbit (g : ℕ) (hg : g < 8192) : (longFs w).zbit 1 g = decide (g < 8) := by
  have hz := (longFs_layout w).1.mounted.zmaps (g / 8192)
  rw [(longFs_layout w).2, Nat.div_eq_of_lt hg, if_pos (by decide)] at hz
  rw [Fs.zbit, Fs.mapBit, Nat.div_eq_of_lt hg, hz, Nat.mod_eq_of_lt hg]
  simp only [show 2 + rootDesc.imapBlocks + 0 = 3 by decide]
  rw [longFs_blk w (by decide), longBlocks, if_pos rfl, bitOf]
  by_cases hlt : g < 8
  · have hbit : ∀ k < 8, (255#8).getLsbD k = true := by decide
    rw [Nat.div_eq_of_lt hlt, if_pos rfl, Nat.mod_eq_of_lt hlt, hbit g hlt, decide_eq_true hlt]
  · rw [if_neg (by omega), decide_eq_false hlt]
    simp

theorem longFs_free {z : ℕ} : ZoneFree (longFs w) 1 z ↔ 12 ≤ z ∧ z < 64 := by
  rw [ZoneFree, (longFs_layout w).2, zonePos]
  change 5 ≤ z ∧ z < 64 ∧ (longFs w).zbit 1 (z + 1 - 5) = false ↔ 12 ≤ z ∧ z < 64
  constructor
  · rintro ⟨h1, h2, h3⟩
    rw [longFs_zbit w _ (by omega), decide_eq_false_iff_not] at h3
    omega
  · rintro ⟨h1, h2⟩
    refine ⟨by omega, h2, ?_⟩
    rw [longFs_zbit w _ (by omega), decide_eq_false_iff_not]
    omega

theorem longFs_first : FirstFree (longFs w) 1 12 :=
  ⟨(longFs_free w).mpr (by decide), fun _ h => ((longFs_free w).mp h).1⟩

theorem longFs_desc : (longFs w).inodeDesc 0 = readInodeDesc (longBlocks 0 4) 0 := by
  rw [inodeDesc_eq (longFs_holds w), (longFs_layout w).2, show inodeBlock rootDesc 1 = 4 by decide,
    show inodeOffset 1 = 0 by decide, longFs_blk w (by decide)]
  rfl

theorem longFs_root {r : ℕ} (hr : r < 9) : (longFs w).zoneAt 1 1 [r] = if r < 7 then 5 + r else 0 := by
  have hwords : ∀ r < 9, (longBlocks 0 4).getU16 (0 + 14 + 2 * r) = if r < 7 then 5 + r else 0 := by decide
  rw [← hwords r hr, zoneAt_root, Fs.rootZone, (longFs_layout w).2, show inodeBlock rootDesc 1 = 4 by decide,
    show inodeOffset 1 = 0 by decide, longFs_blk w (by decide)]
  rfl

/-- Only the seven direct blocks are there. -/
theorem longFs_zoneAt {p : List ℕ} (hp : IsSlot p) (hne : (longFs w).zoneAt 1 1 p ≠ 0) :
    ∃ r < 7, p = [r] ∧ (longFs w).zoneAt 1 1 p = 5 + r := by
  have h7 : (longFs w).zoneAt 1 1 [7] = 0 := longFs_root w (by omega)
  have h8 : (longFs w).zoneAt 1 1 [8] = 0 := longFs_root w (by omega)
  cases hp with
  | @root r hr =>
    rw [longFs_root w hr] at hne ⊢
    split at hne
    · exact ⟨r, ‹_›, rfl, if_pos ‹_›⟩
    · exact absurd rfl hne
  | single hj => exact absurd (zoneAt_cons_of_null h7) hne
  | middle hj => exact absurd (zoneAt_cons_of_null h8) hne
  | double hk hj => exact absurd (zoneAt_cons_of_null (zoneAt_cons_of_null h8)) hne

theorem longFs_tree : TreeAt (longFs w) 1 1 where
  inode := by
    rw [(longFs_layout w).2]
    exact ⟨by decide, by decide⟩
  zone p hp hne := by
    obtain ⟨r, hr, -, heq⟩ := longFs_zoneAt w hp hne
    rw [heq, DataZone, (longFs_layout w).2, zonePos]
    change 5 ≤ 5 + r ∧ 5 + r < 64 ∧ (longFs w).zbit 1 (5 + r + 1 - 5) = true
    rw [longFs_zbit w _ (by omega), decide_eq_true_eq]
    omega
  inj p q hp hq hne heq := by
    obtain ⟨r, hr, rfl, hpr⟩ := longFs_zoneAt w hp hne
    obtain ⟨r', hr', rfl, hqr⟩ := longFs_zoneAt w hq (heq ▸ hne)
    rw [show r = r' by omega]

theorem longFs_block {j : ℕ} (hj : j < 448) : (longFs w).zoneAt 1 1 (bmapSlot (j / 64)) = 5 + j / 64 := by
  rw [bmapSlot, if_pos (by omega), longFs_root w (by omega), if_pos (by omega)]

/-- Every entry is in use, and has a name that begins with another letter. -/
theorem longFs_entry {j : ℕ} (hj : j < 448) : (longFs w).dentryNr ((longFs w).entryOf 1 1 j) ≠ 0 ∧
    matchName ((longFs w).blk 1 ((longFs w).entryOf 1 1 j).blk) (cstr ['x']) (j % 64 * 16 + 2) = none := by
  rw [Fs.dentryNr, Fs.entryOf, longFs_block w hj]
  dsimp only
  rw [longFs_blk w (by omega), longBlocks, if_neg (by omega), if_neg (by omega), if_pos (by omega)]
  have hnr : ∀ b < 12, ∀ i < 64, (longEntries b).getU16 (i * 16) ≠ 0 := by decide +kernel
  have hname : ∀ b < 12, 5 ≤ b → ∀ i < 64, matchName (longEntries b) (cstr ['x']) (i * 16 + 2) = none := by decide +kernel
  exact ⟨hnr _ (by omega) _ (by omega), hname _ (by omega) (by omega) _ (by omega)⟩

theorem longFs_findEntry : findEntry (longFs w) 0 (cstr ['x']) = some (0, none, longFs w) := by
  have hdir : isDir ((longFs w).inodeDesc 0).mode = true := by
    rw [longFs_desc]
    decide
  have hsize : ((longFs w).inodeDesc 0).size / 16 = 448 := by
    rw [longFs_desc]
    decide
  have hentries : (longFs w).entries 1 1 = 448 := by rw [Fs.entries, Fs.descOf, ← inodeDesc_eq (longFs_holds w), hsize]
  have hloop := findEntryLoop_findSome rfl (longFs_holds w) (fun k hk => by
    rw [hentries] at hk
    rw [longFs_block w hk, totalBlock_eq]
    exact ⟨by omega, by omega⟩) (cstr ['x']) 448 0 0 (by rw [hentries]) fun hc => absurd rfl hc
  have hnone : (List.range' 0 448).findSome? ((longFs w).entryMatch 1 1 (cstr ['x'])) = none := by
    refine List.findSome?_eq_none_iff.mpr fun k hk => ?_
    have hk := (List.mem_range'_1.mp hk).2
    obtain ⟨hnr, hmatch⟩ := longFs_entry w (show k < 448 by omega)
    rw [Fs.entryMatch, if_neg hnr, hmatch]
    rfl
  rw [hnone] at hloop
  have hcross : crossMount (longFs w) 0 (cstr ['x']) = some (0, longFs w) :=
    if_neg fun hc => absurd hc.1 (by decide)
  rw [findEntry, assert_pos hdir]
  simp only [Option.bind_eq_bind, Option.bind_some, hcross, hsize, hloop]
  rfl

theorem longFs_used : ¬FreeSlot (longFs w) 1 1 448 := by
  rintro ⟨j, hj, hc⟩
  exact (longFs_entry w hj).1 hc

theorem longFs_enough : Enough (longFs w) 1 1 (slotPath (bmapSlot (448 / 64))) := by
  have hsub : Finset.Ico 12 64 ⊆ freeZones (longFs w) 1 := fun z hz =>
    mem_freeZones.mpr ((longFs_free w).mpr (Finset.mem_Ico.mp hz))
  have hcard : (Finset.Ico 12 64).card ≤ _ := Finset.card_le_card hsub
  rw [Nat.card_Ico] at hcard
  exact le_trans (Finset.card_filter_le _ _) (le_trans (show _ ≤ 52 by decide) hcard)

theorem longFs_size : ((longFs w).descOf 1 1).size = 448 * 16 := by
  rw [Fs.descOf, ← inodeDesc_eq (longFs_holds w), longFs_desc]
  decide

theorem longFs_stale (hw : w < 65536) : (longFs w).zoneEntry 1 12 0 = w := by
  rw [Fs.zoneEntry, longFs_blk w (by decide), longBlocks, if_neg (by decide), if_neg (by decide), if_neg (by omega), if_pos rfl]
  exact (getU16_putU16_self _ _ _).trans (Nat.mod_eq_of_lt hw)

end Long

/-- On a device whose free zones are empty the entry behind seven full blocks is added. -/
theorem addEntry_added_long : ∃ k t, addEntry (longFs 0) 0 (cstr ['x']) = some (t.entryOf 1 1 k, t) ∧
    Added (longFs 0) t 1 1 448 k := by
  refine (addEntry_added_iff (longFs_findEntry 0) (sepFree_of_all rfl) (longFs_layout 0).1 ?_ (longFs_holds 0) (longFs_tree 0)
    (longFs_size 0) (fun j hj => by rw [longFs_block 0 hj]; omega) (longFs_enough 0)).1 fun _ _ z hz => ?_
  · rw [longFs_zbit 0 0 (by omega)]
    rfl
  · obtain rfl := hz.unique (longFs_first 0)
    exact Or.inl (longFs_stale 0 (by omega))

/-- **The first free zone was an index block**, and its first word is the number of the directory's first block: the
new entry is stored over the first one. -/
theorem addEntry_stale : findEntry (longFs 5) 0 (cstr ['x']) = some (0, none, longFs 5) ∧ Layout (longFs 5) 1 ∧
    (longFs 5).zbit 1 0 = true ∧ (longFs 5).Holds 1 1 0 ∧ TreeAt (longFs 5) 1 1 ∧
    ((longFs 5).descOf 1 1).size = 448 * 16 ∧ Enough (longFs 5) 1 1 (slotPath (bmapSlot (448 / 64))) ∧
    ¬∃ k t, addEntry (longFs 5) 0 (cstr ['x']) = some (t.entryOf 1 1 k, t) ∧ Added (longFs 5) t 1 1 448 k := by
  have hzero : (longFs 5).zbit 1 0 = true := by
    rw [longFs_zbit 5 0 (by omega)]
    rfl
  refine ⟨longFs_findEntry 5, (longFs_layout 5).1, hzero, longFs_holds 5, longFs_tree 5, longFs_size 5,
    longFs_enough 5, fun hadd => ?_⟩
  rw [addEntry_eq_loop (longFs_findEntry 5) (sepFree_of_all rfl) (longFs_holds 5) (longFs_size 5)] at hadd
  have hstale := longFs_stale 5 (by omega)
  obtain ⟨-, hown⟩ := noHarm_of_added (cstr ['x']) (longFs_layout 5).1 (longFs_tree 5) (longFs_holds 5) (longFs_size 5)
    (fun j hj => by rw [longFs_block 5 hj]; omega) hzero (show bmapSlot (448 / 64) = 0 :: [7] by decide) (by decide)
    (longFs_used 5) .single (reached_root 7) (longFs_root 5 (by omega)) (longFs_first 5) (by rw [hstale]; omega)
    (by rw [hstale, (longFs_layout 5).2]; decide) hadd
  rw [hstale] at hown
  exact hown ⟨0, by decide, [0], by simp, List.suffix_rfl, longFs_root 5 (by omega)⟩

end Onixs
