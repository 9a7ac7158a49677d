import Onixs.Lib.Bitmap
import Onixs.Fs.State

/-!
# Allocating zones and inodes

The allocators of `fs/bitmap.c`. A bitmap of the file system is a row of at most
eight buffers; `balloc` and `ialloc` walk them with one loop, and so do `bfree` and
`ifree`. The loops are written once, over the buffers, the number each gives to the
first bit of a buffer, and the bound they assert (`Onixs.allocLoop`,
`Onixs.freeLoop`); the four functions are those loops at their own values.

Against the numbering of the loops stands the position of a bit in the whole row:
bit `g` is bit `g % 8192` of buffer `g / 8192` (`Onixs.Fs.mapBit`). In these terms an
allocation takes the first clear position (`Onixs.allocLoop_found`) and calls it what
the loop's numbering calls it.
-/

namespace Onixs

open Bytes

/-! ### The functions -/

/-- The loop of `balloc` and `ialloc`: scan the buffers from `i` on for a clear bit. -/
def allocLoop (s : Fs) (dev : ℕ) (maps : ℕ → Option ℕ) (offset : ℕ → ℕ) (bound : ℕ) :
    ℕ → ℕ → Option (ℕ × Fs)
  | 0, _ => some (EOF, s)
  | left + 1, i => do
      let buf ← maps i
      let (bit, map) ← bitmapScan (bitmapMake (s.blk dev buf) blockSize blockSize (offset i)) 1
      if bit ≠ EOF then
        assert (bit < bound)
        return (bit, s.setBlk dev buf map.bits)
      allocLoop s dev maps offset bound left (i + 1)

/-- The body of the loop of `bfree` and `ifree`: clear the bit of `idx` in buffer `buf`,
whose first bit is number `offset`. -/
def freeBit (s : Fs) (dev buf length offset idx : ℕ) : Option Fs := do
  let map := bitmapMake (s.blk dev buf) blockSize length offset
  let used ← bitmapTest map idx
  assert used
  let map ← bitmapSet map idx false
  return s.setBlk dev buf map.bits

/-- The loop of `bfree` and `ifree`: the first buffer, from `i` on, that the comparison
selects. Past the last buffer the C code hands `bwrite` a pointer it never set. -/
def freeLoop (s : Fs) (dev : ℕ) (maps : ℕ → Option ℕ) (length : ℕ) (offset : ℕ → ℕ) (idx : ℕ) :
    ℕ → ℕ → Option Fs
  | 0, _ => none
  | left + 1, i =>
      if blockBits * (i + 1) < idx then
        freeLoop s dev maps length offset idx left (i + 1)
      else do
        let buf ← maps i
        freeBit s dev buf length (offset i) idx

/-- The number `balloc` and `bfree` give to the first bit of zone bitmap buffer `i`. -/
def zmapOffset (desc : SuperDesc) (i : ℕ) : ℕ := sub32 (i * blockBits + desc.firstdatazone) 1

/-- The number `ialloc` and `ifree` give to the first bit of inode bitmap buffer `i`. -/
def imapOffset (i : ℕ) : ℕ := i * blockSize

/-- `balloc`. -/
def balloc (s : Fs) (dev : ℕ) : Option (ℕ × Fs) := do
  let sb ← s.getSuper dev
  let desc := s.superDesc dev
  allocLoop s dev (s.superTable sb).zmaps (zmapOffset desc) desc.zones zmapNr 0

/-- `bfree`. -/
def bfree (s : Fs) (dev idx : ℕ) : Option Fs := do
  let sb ← s.getSuper dev
  let desc := s.superDesc dev
  assert (idx < desc.zones)
  freeLoop s dev (s.superTable sb).zmaps blockSize (zmapOffset desc) idx zmapNr 0

/-- `ialloc`. -/
def ialloc (s : Fs) (dev : ℕ) : Option (ℕ × Fs) := do
  let sb ← s.getSuper dev
  let desc := s.superDesc dev
  allocLoop s dev (s.superTable sb).imaps imapOffset desc.inodes imapNr 0

/-- `ifree`. -/
def ifree (s : Fs) (dev idx : ℕ) : Option Fs := do
  let sb ← s.getSuper dev
  let desc := s.superDesc dev
  assert (idx < desc.inodes)
  freeLoop s dev (s.superTable sb).imaps blockBits imapOffset idx imapNr 0

section Unfold

variable {s : Fs} {dev sb : ℕ} (hsb : s.getSuper dev = some sb)

include hsb

theorem balloc_of_super : balloc s dev = allocLoop s dev (s.superTable sb).zmaps
    (zmapOffset (s.superDesc dev)) (s.superDesc dev).zones zmapNr 0 := by
  rw [balloc, hsb, Option.bind_eq_bind, Option.bind_some]

theorem ialloc_of_super : ialloc s dev = allocLoop s dev (s.superTable sb).imaps imapOffset
    (s.superDesc dev).inodes imapNr 0 := by
  rw [ialloc, hsb, Option.bind_eq_bind, Option.bind_some]

theorem bfree_of_super {idx : ℕ} (h : idx < (s.superDesc dev).zones) :
    bfree s dev idx = freeLoop s dev (s.superTable sb).zmaps blockSize
      (zmapOffset (s.superDesc dev)) idx zmapNr 0 := by
  rw [bfree, hsb, Option.bind_eq_bind, Option.bind_some]
  simp only [assert_pos h, Option.bind_eq_bind, Option.bind_some]

theorem ifree_of_super {idx : ℕ} (h : idx < (s.superDesc dev).inodes) :
    ifree s dev idx = freeLoop s dev (s.superTable sb).imaps blockBits imapOffset idx imapNr 0 := by
  rw [ifree, hsb, Option.bind_eq_bind, Option.bind_some]
  simp only [assert_pos h, Option.bind_eq_bind, Option.bind_some]

end Unfold

/-! ### Positions in a row of buffers -/

/-- Bit `g` of a row of buffers. A buffer that is not there has no clear bit. -/
def Fs.mapBit (s : Fs) (dev : ℕ) (maps : ℕ → Option ℕ) (g : ℕ) : Bool :=
  match maps (g / 8192) with
  | none => true
  | some b => bitOf (s.blk dev b) (g % 8192)

/-- The state with bit `g` of a row of buffers set to `v`. -/
def Fs.setMapBit (s : Fs) (dev : ℕ) (maps : ℕ → Option ℕ) (g : ℕ) (v : Bool) : Fs :=
  match maps (g / 8192) with
  | none => s
  | some b => s.setBlk dev b (setBit (s.blk dev b) (g % 8192) v)

/-- The buffers of a row are distinct blocks. -/
def DistinctMaps (maps : ℕ → Option ℕ) : Prop :=
  ∀ i j b, maps i = some b → maps j = some b → i = j

section MapBit

variable {s : Fs} {dev : ℕ} {maps : ℕ → Option ℕ} {g b : ℕ}

theorem mapBit_of_buffer (h : maps (g / 8192) = some b) :
    s.mapBit dev maps g = bitOf (s.blk dev b) (g % 8192) := by
  rw [Fs.mapBit, h]

theorem setMapBit_of_buffer (h : maps (g / 8192) = some b) (v : Bool) :
    s.setMapBit dev maps g v = s.setBlk dev b (setBit (s.blk dev b) (g % 8192) v) := by
  rw [Fs.setMapBit, h]

theorem buffer_of_clear (h : s.mapBit dev maps g = false) : ∃ b, maps (g / 8192) = some b := by
  rw [Fs.mapBit] at h
  cases hb : maps (g / 8192) with
  | none =>
    rw [hb] at h
    exact Bool.noConfusion h
  | some b => exact ⟨b, rfl⟩

/-- **Setting a position changes that position only.** -/
theorem mapBit_setMapBit (hdist : DistinctMaps maps) (hb : maps (g / 8192) = some b) (v : Bool)
    (g' : ℕ) :
    (s.setMapBit dev maps g v).mapBit dev maps g' = if g' = g then v else s.mapBit dev maps g' := by
  rw [setMapBit_of_buffer hb, Fs.mapBit, Fs.mapBit]
  cases hb' : maps (g' / 8192) with
  | none =>
    have hne : g' ≠ g := by
      rintro rfl
      exact absurd (hb.symm.trans hb') (by simp)
    rw [if_neg hne]
  | some b' =>
    by_cases hsame : b' = b
    · subst hsame
      have hdiv : g' / 8192 = g / 8192 := hdist _ _ _ hb' hb
      simp only [Fs.setBlk_blk_self, bitOf_setBit]
      by_cases hg : g' = g
      · rw [if_pos (by rw [hg]), if_pos hg]
      · rw [if_neg (by omega), if_neg hg]
    · have hne : g' ≠ g := by
        rintro rfl
        rw [hb] at hb'
        exact hsame (Option.some.inj hb').symm
      simp only [Fs.setBlk_blk_of_ne _ _ (Or.inr hsame), if_neg hne]

theorem setMapBit_superTable (s : Fs) (dev : ℕ) (maps : ℕ → Option ℕ) (g : ℕ) (v : Bool) :
    (s.setMapBit dev maps g v).superTable = s.superTable := by
  rw [Fs.setMapBit]
  cases maps (g / 8192) <;> rfl

theorem setMapBit_inodeTable (s : Fs) (dev : ℕ) (maps : ℕ → Option ℕ) (g : ℕ) (v : Bool) :
    (s.setMapBit dev maps g v).inodeTable = s.inodeTable := by
  rw [Fs.setMapBit]
  cases maps (g / 8192) <;> rfl

theorem setMapBit_task (s : Fs) (dev : ℕ) (maps : ℕ → Option ℕ) (g : ℕ) (v : Bool) :
    (s.setMapBit dev maps g v).task = s.task := by
  rw [Fs.setMapBit]
  cases maps (g / 8192) <;> rfl

theorem setMapBit_time (s : Fs) (dev : ℕ) (maps : ℕ → Option ℕ) (g : ℕ) (v : Bool) :
    (s.setMapBit dev maps g v).time = s.time := by
  rw [Fs.setMapBit]
  cases maps (g / 8192) <;> rfl

/-- A block that is no buffer of the row is left alone. -/
theorem setMapBit_blk_of_ne {dev' b' : ℕ} (h : dev' ≠ dev ∨ ∀ i, maps i ≠ some b') (v : Bool) :
    (s.setMapBit dev maps g v).blk dev' b' = s.blk dev' b' := by
  rw [Fs.setMapBit]
  cases hb : maps (g / 8192) with
  | none => rfl
  | some b =>
    refine Fs.setBlk_blk_of_ne _ _ (h.imp_right fun hno hc => ?_)
    exact hno (g / 8192) (hc ▸ hb)

end MapBit

/-! ### What the loops do -/

section Loops

variable {s : Fs} {dev bound : ℕ} {maps : ℕ → Option ℕ} {offset : ℕ → ℕ}

/-- The bitmap the loops make of one buffer is well formed. -/
theorem wf_bitmapMake {d : Bytes} {o : ℕ} (h : o + 8192 < 4294967296) :
    (bitmapMake d blockSize blockSize o).WF := by
  refine ⟨le_refl _, ?_⟩
  simp only [bitmapMake, blockSize_eq]
  omega

/-- A buffer with no clear bit is passed over. -/
theorem allocLoop_full {left i b : ℕ} (hb : maps i = some b) (hoff : offset i + 8192 < 4294967296)
    (hfull : ∀ j < 8192, bitOf (s.blk dev b) j = true) :
    allocLoop s dev maps offset bound (left + 1) i
      = allocLoop s dev maps offset bound left (i + 1) := by
  have hscan : bitmapScan (bitmapMake (s.blk dev b) blockSize blockSize (offset i)) 1
      = some (EOF, bitmapMake (s.blk dev b) blockSize blockSize (offset i)) := by
    refine bitmapScan_eq_EOF (wf_bitmapMake hoff) Nat.one_pos fun t ht hclear => ?_
    rw [clearRun_one] at hclear
    have hset : bitOf (s.blk dev b) t = true := hfull t (by simp [bitmapMake] at ht; omega)
    rw [show (bitmapMake (s.blk dev b) blockSize blockSize (offset i)).bits = s.blk dev b from rfl,
      hset] at hclear
    exact Bool.noConfusion hclear
  rw [allocLoop, hb]
  simp only [Option.bind_eq_bind, Option.bind_some, hscan, ne_eq, not_true_eq_false, reduceIte]

/-- In a buffer with a clear bit the first one is taken. -/
theorem allocLoop_clear {left i b j : ℕ} (hb : maps i = some b)
    (hoff : offset i + 8192 < 4294967296) (hj : j < 8192) (hclear : bitOf (s.blk dev b) j = false)
    (hleast : ∀ j' < j, bitOf (s.blk dev b) j' = true) :
    allocLoop s dev maps offset bound (left + 1) i
      = (assert (j + offset i < bound)).bind fun _ =>
          some (j + offset i, s.setBlk dev b (setBit (s.blk dev b) j true)) := by
  have hscan : bitmapScan (bitmapMake (s.blk dev b) blockSize blockSize (offset i)) 1
      = some (j + offset i,
          bitmapMake (setBit (s.blk dev b) j true) blockSize blockSize (offset i)) := by
    refine bitmapScan_eq_some (wf_bitmapMake hoff) Nat.one_pos ?_ (clearRun_one.mpr hclear) ?_
    · simp [bitmapMake]
      omega
    · intro t ht hcl
      rw [clearRun_one] at hcl
      have hset : bitOf (s.blk dev b) t = true := hleast t ht
      rw [show (bitmapMake (s.blk dev b) blockSize blockSize (offset i)).bits = s.blk dev b
        from rfl, hset] at hcl
      exact Bool.noConfusion hcl
  have hne : j + offset i ≠ EOF := by
    rw [EOF]
    omega
  rw [allocLoop, hb]
  simp only [Option.bind_eq_bind, Option.bind_some, hscan, if_pos hne]
  rfl

/-- **The allocation loop takes the first clear position** `g`, under the number the
offsets give it, and stops if that number is out of bounds. -/
theorem allocLoop_found {g b : ℕ} (hb : maps (g / 8192) = some b)
    (hclear : s.mapBit dev maps g = false) (hleast : ∀ g' < g, s.mapBit dev maps g' = true)
    (hmaps : ∀ i < g / 8192, ∃ b, maps i = some b)
    (hoff : ∀ i ≤ g / 8192, offset i + 8192 < 4294967296) :
    ∀ left i, i ≤ g / 8192 → g / 8192 < i + left →
      allocLoop s dev maps offset bound left i
        = (assert (g % 8192 + offset (g / 8192) < bound)).bind fun _ =>
            some (g % 8192 + offset (g / 8192), s.setMapBit dev maps g true) := by
  intro left
  induction left with
  | zero => exact fun i hi hlt => absurd hlt (by omega)
  | succ left ih =>
    intro i hi hlt
    rcases Nat.eq_or_lt_of_le hi with heq | hlt'
    · rw [setMapBit_of_buffer hb, heq]
      rw [← heq] at hb
      refine allocLoop_clear (heq ▸ hb) (hoff _ (le_refl _)) (Nat.mod_lt _ (by omega)) ?_ ?_
      · rwa [mapBit_of_buffer (heq ▸ hb)] at hclear
      · intro j hj
        have hset := hleast (8192 * (g / 8192) + j) (by omega)
        rw [mapBit_of_buffer (b := b)] at hset
        · rwa [show (8192 * (g / 8192) + j) % 8192 = j by omega] at hset
        · rw [show (8192 * (g / 8192) + j) / 8192 = g / 8192 by omega]
          exact heq ▸ hb
    · obtain ⟨c, hc⟩ := hmaps i hlt'
      rw [allocLoop_full hc (hoff i hi)]
      · exact ih (i + 1) (by omega) (by omega)
      · intro j hj
        have hset := hleast (8192 * i + j) (by omega)
        rw [mapBit_of_buffer (b := c)] at hset
        · rwa [show (8192 * i + j) % 8192 = j by omega] at hset
        · rwa [show (8192 * i + j) / 8192 = i by omega]

/-- With no clear position the loop ends with `EOF` if it runs out of buffers to look at,
and stops at the first absent one otherwise. -/
theorem allocLoop_none (hfull : ∀ g, s.mapBit dev maps g = true) {k : ℕ}
    (hmaps : ∀ i < k, ∃ b, maps i = some b) (hnone : maps k = none)
    (hoff : ∀ i < k, offset i + 8192 < 4294967296) :
    ∀ left i, i ≤ k →
      allocLoop s dev maps offset bound left i = if i + left ≤ k then some (EOF, s) else none := by
  intro left
  induction left with
  | zero =>
    intro i hi
    rw [if_pos (by omega)]
    rfl
  | succ left ih =>
    intro i hi
    rcases Nat.eq_or_lt_of_le hi with rfl | hlt
    · rw [allocLoop, hnone, if_neg (by omega)]
      rfl
    · obtain ⟨b, hb⟩ := hmaps i hlt
      rw [allocLoop_full hb (hoff i hlt), ih (i + 1) (by omega)]
      · rw [show i + 1 + left = i + (left + 1) by omega]
      · intro j hj
        have hset := hfull (8192 * i + j)
        rw [mapBit_of_buffer (b := b)] at hset
        · rwa [show (8192 * i + j) % 8192 = j by omega] at hset
        · rwa [show (8192 * i + j) / 8192 = i by omega]

/-- The buffer the release loop selects for `idx`. -/
theorem freeLoop_select {length idx : ℕ} (hidx : 0 < idx) :
    ∀ left i, i ≤ (idx - 1) / 8192 → (idx - 1) / 8192 < i + left →
      freeLoop s dev maps length offset idx left i
        = (maps ((idx - 1) / 8192)).bind fun buf =>
            freeBit s dev buf length (offset ((idx - 1) / 8192)) idx := by
  intro left
  induction left with
  | zero => exact fun i hi hlt => absurd hlt (by omega)
  | succ left ih =>
    intro i hi hlt
    rw [freeLoop, blockBits_eq]
    rcases Nat.eq_or_lt_of_le hi with rfl | hlt'
    · rw [if_neg (by omega), Option.bind_eq_bind]
    · rw [if_pos (by omega)]
      exact ih (i + 1) (by omega) (by omega)

/-- A set bit of a buffer is cleared. -/
theorem freeBit_eq {b length o j idx : ℕ} (hidx : idx = o + j) (hj : j < 8192)
    (hlen : blockSize ≤ length) (hused : bitOf (s.blk dev b) j = true) :
    freeBit s dev b length o idx = some (s.setBlk dev b (setBit (s.blk dev b) j false)) := by
  subst hidx
  obtain ⟨map, hmap⟩ : ∃ map, map = bitmapMake (s.blk dev b) blockSize length o := ⟨_, rfl⟩
  have hin : j / 8 < blockSize := by
    rw [blockSize_eq]
    omega
  have htest : bitmapTest map (o + j) = some true := by
    rw [← hused, hmap]
    exact bitmapTest_eq (bitmapMake _ _ length o) (lt_of_lt_of_le hin hlen) hin
  have hset : bitmapSet map (o + j) false
      = some (bitmapMake (setBit (s.blk dev b) j false) blockSize length o) := by
    rw [hmap]
    exact bitmapSet_eq (bitmapMake _ _ length o) false hin
  rw [freeBit, ← hmap]
  simp only [htest, hset, Option.bind_eq_bind, Option.bind_some, assert_pos]
  rfl

/-- What is cleared is a bit of the buffer, at the place of `idx` after `offset`. -/
theorem freeBit_some {b length o idx : ℕ} {t : Fs} (h : freeBit s dev b length o idx = some t) :
    o ≤ idx ∧ (idx - o) / 8 < length ∧ idx - o < 8192 ∧
      t = s.setBlk dev b (setBit (s.blk dev b) (idx - o) false) := by
  rw [freeBit] at h
  obtain ⟨used, htest, h⟩ := Option.bind_eq_some_iff.mp h
  obtain ⟨_, -, h⟩ := Option.bind_eq_some_iff.mp h
  obtain ⟨map, hset, h⟩ := Option.bind_eq_some_iff.mp h
  rw [bitmapTest] at htest
  obtain ⟨_, hge, htest⟩ := Option.bind_eq_some_iff.mp htest
  obtain ⟨_, hlen, htest⟩ := Option.bind_eq_some_iff.mp htest
  obtain ⟨_, hsize, -⟩ := Option.bind_eq_some_iff.mp htest
  rw [assert_eq_some] at hge hlen hsize
  rw [bitmapMake] at hge hlen hsize
  simp only [blockSize_eq] at hge hlen hsize
  have hin : (idx - o) / 8 < blockSize := by rwa [blockSize_eq]
  have hset' : bitmapSet (bitmapMake (s.blk dev b) blockSize length o) (o + (idx - o)) false
      = some (bitmapMake (setBit (s.blk dev b) (idx - o) false) blockSize length o) :=
    bitmapSet_eq (bitmapMake _ _ length o) false hin
  rw [show o + (idx - o) = idx by omega, hset] at hset'
  refine ⟨hge, hlen, by omega, ?_⟩
  rw [Option.some.inj hset', bitmapMake] at h
  exact (Option.some.inj h).symm

end Loops

end Onixs
