import Mathlib.Data.Nat.Bitwise

/-!
# Byte areas

A byte area is what lies behind a C pointer: a byte for every offset. The file
gives the little-endian words a structure keeps in such an area, the two block
operations `memset` and `memcpy` (`Onixs.Bytes.fill` and `Onixs.Bytes.copy`), and the
reading of an area as a row of bits (`Onixs.Bytes.bitOf`), the low bit of a byte
first.

Every write comes with what it does to every read: the read at the written place
returns the value, a read elsewhere is what it was. Nothing else about the
representation is used afterwards.
-/

namespace Onixs

/-- A byte of memory. -/
abbrev Byte : Type := BitVec 8

/-- The bytes behind a pointer, by offset. -/
abbrev Bytes : Type := ℕ → Byte

namespace Bytes

variable (d : Bytes)

/-! ### Words -/

/-- The byte at offset `o`, as a number. -/
def getU8 (o : ℕ) : ℕ := (d o).toNat

/-- The little-endian 16-bit word at offset `o`. -/
def getU16 (o : ℕ) : ℕ := (d o).toNat + 256 * (d (o + 1)).toNat

/-- The little-endian 32-bit word at offset `o`. -/
def getU32 (o : ℕ) : ℕ := getU16 d o + 65536 * getU16 d (o + 2)

/-- Store a byte; the value is truncated as a C assignment truncates it. -/
def putU8 (o v : ℕ) : Bytes := fun i => if i = o then BitVec.ofNat 8 v else d i

/-- Store a little-endian 16-bit word. -/
def putU16 (o v : ℕ) : Bytes := putU8 (putU8 d o v) (o + 1) (v / 256)

/-- Store a little-endian 32-bit word. -/
def putU32 (o v : ℕ) : Bytes := putU16 (putU16 d o v) (o + 2) (v / 65536)

theorem putU8_self (o v : ℕ) : putU8 d o v o = BitVec.ofNat 8 v := by
  rw [putU8, if_pos rfl]

theorem putU8_of_ne {o i : ℕ} (v : ℕ) (h : i ≠ o) : putU8 d o v i = d i := by
  rw [putU8, if_neg h]

/-- A 16-bit store leaves the bytes outside its two alone. -/
theorem putU16_of_ne {o i : ℕ} (v : ℕ) (h : i ≠ o) (h' : i ≠ o + 1) :
    putU16 d o v i = d i := by
  rw [putU16, putU8_of_ne _ _ h', putU8_of_ne _ _ h]

/-- A 32-bit store leaves the bytes outside its four alone. -/
theorem putU32_of_ne {o i : ℕ} (v : ℕ) (h : i < o ∨ o + 4 ≤ i) :
    putU32 d o v i = d i := by
  rw [putU32, putU16_of_ne _ _ (by omega) (by omega), putU16_of_ne _ _ (by omega) (by omega)]

theorem getU16_lt (o : ℕ) : getU16 d o < 65536 := by
  have h0 : (d o).toNat < 2 ^ 8 := (d o).isLt
  have h1 : (d (o + 1)).toNat < 2 ^ 8 := (d (o + 1)).isLt
  rw [getU16]
  omega

theorem getU8_lt (o : ℕ) : getU8 d o < 256 := (d o).isLt

theorem getU32_lt (o : ℕ) : getU32 d o < 4294967296 := by
  have h0 := getU16_lt d o
  have h1 := getU16_lt d (o + 2)
  rw [getU32]
  omega

theorem getU16_congr {d d' : Bytes} {o : ℕ} (h : d o = d' o) (h' : d (o + 1) = d' (o + 1)) :
    getU16 d o = getU16 d' o := by
  rw [getU16, getU16, h, h']

theorem getU32_congr {d d' : Bytes} {o : ℕ} (h : ∀ i, o ≤ i → i < o + 4 → d i = d' i) :
    getU32 d o = getU32 d' o := by
  rw [getU32, getU32, getU16_congr (h o (by omega) (by omega)) (h (o + 1) (by omega) (by omega)),
    getU16_congr (h (o + 2) (by omega) (by omega)) (h (o + 3) (by omega) (by omega))]

@[simp] theorem getU8_putU8_self (o v : ℕ) : getU8 (putU8 d o v) o = v % 256 := by
  rw [getU8, putU8_self, BitVec.toNat_ofNat]

/-- **What is stored is read back**, cut to the width of the word. -/
@[simp] theorem getU16_putU16_self (o v : ℕ) : getU16 (putU16 d o v) o = v % 65536 := by
  have h0 : putU16 d o v o = BitVec.ofNat 8 v := by
    rw [putU16, putU8_of_ne _ _ (by omega), putU8_self]
  have h1 : putU16 d o v (o + 1) = BitVec.ofNat 8 (v / 256) := putU8_self _ _ _
  rw [getU16, h0, h1, BitVec.toNat_ofNat, BitVec.toNat_ofNat]
  omega

@[simp] theorem getU32_putU32_self (o v : ℕ) : getU32 (putU32 d o v) o = v % 4294967296 := by
  have h0 : getU16 (putU32 d o v) o = v % 65536 :=
    (getU16_congr (putU16_of_ne (putU16 d o v) _ (by omega) (by omega))
      (putU16_of_ne (putU16 d o v) _ (by omega) (by omega))).trans (getU16_putU16_self d o v)
  have h1 : getU16 (putU32 d o v) (o + 2) = v / 65536 % 65536 := getU16_putU16_self _ _ _
  rw [getU32, h0, h1]
  omega

/-- A 16-bit store leaves a disjoint 16-bit word alone. -/
theorem getU16_putU16_of_disjoint {o p : ℕ} (v : ℕ) (h : p + 2 ≤ o ∨ o + 2 ≤ p) :
    getU16 (putU16 d o v) p = getU16 d p :=
  getU16_congr (putU16_of_ne _ _ (by omega) (by omega)) (putU16_of_ne _ _ (by omega) (by omega))

@[simp] theorem getU16_zero (o : ℕ) : getU16 (fun _ => 0#8) o = 0 := by
  rw [getU16, BitVec.toNat_ofNat]

/-! ### Block operations -/

/-- `memset`: the `n` bytes from `o` on become `x`. -/
def fill (o n : ℕ) (x : Byte) : Bytes := fun i => if o ≤ i ∧ i < o + n then x else d i

/-- `memcpy`: the `n` bytes from `o` on become the first `n` bytes of `src`. -/
def copy (o n : ℕ) (src : Bytes) : Bytes := fun i => if o ≤ i ∧ i < o + n then src (i - o) else d i

theorem fill_of_mem {o n i : ℕ} (x : Byte) (h : o ≤ i) (h' : i < o + n) : fill d o n x i = x := by
  rw [fill, if_pos ⟨h, h'⟩]

theorem fill_of_notMem {o n i : ℕ} (x : Byte) (h : i < o ∨ o + n ≤ i) : fill d o n x i = d i := by
  rw [fill, if_neg (by omega)]

theorem copy_of_mem {o n i : ℕ} (src : Bytes) (h : o ≤ i) (h' : i < o + n) :
    copy d o n src i = src (i - o) := by
  rw [copy, if_pos ⟨h, h'⟩]

theorem copy_of_notMem {o n i : ℕ} (src : Bytes) (h : i < o ∨ o + n ≤ i) :
    copy d o n src i = d i := by
  rw [copy, if_neg (by omega)]

/-- A word inside the area that is copied is a word of the source. -/
theorem getU16_copy_of_mem {o n i : ℕ} (src : Bytes) (h : o ≤ i) (h' : i + 2 ≤ o + n) :
    getU16 (copy d o n src) i = getU16 src (i - o) := by
  rw [getU16, copy_of_mem d src h (by omega), copy_of_mem d src (by omega) (by omega), getU16, Nat.sub_add_comm h]

/-- A word outside of it is what it was. -/
theorem getU16_copy_of_notMem {o n i : ℕ} (src : Bytes) (h : i + 2 ≤ o ∨ o + n ≤ i) :
    getU16 (copy d o n src) i = getU16 d i :=
  getU16_congr (copy_of_notMem d src (by omega)) (copy_of_notMem d src (by omega))

/-! ### Bits -/

/-- Bit `g` of an area: bit `g % 8` of byte `g / 8`. -/
def bitOf (g : ℕ) : Bool := (d (g / 8)).getLsbD (g % 8)

/-- The area with bit `g` set to `v` and every other bit as it was. -/
def setBit (g : ℕ) (v : Bool) : Bytes := fun i =>
  if i = g / 8 then
    if v then d i ||| BitVec.twoPow 8 (g % 8) else d i &&& ~~~(BitVec.twoPow 8 (g % 8))
  else d i

/-- **A bit store changes one bit.** -/
theorem bitOf_setBit (g g' : ℕ) (v : Bool) :
    bitOf (setBit d g v) g' = if g' = g then v else bitOf d g' := by
  have hlt : g' % 8 < 8 := Nat.mod_lt _ (by omega)
  by_cases hb : g' / 8 = g / 8
  · by_cases hg : g' = g
    · subst hg
      rw [bitOf, setBit, if_pos rfl, if_pos rfl]
      cases v <;> simp [hlt]
    · have hne : ¬g' % 8 = g % 8 := by omega
      rw [bitOf, setBit, if_pos hb, if_neg hg, bitOf]
      cases v <;> simp [hlt, hne]
  · have hg : g' ≠ g := fun h => hb (h ▸ rfl)
    rw [bitOf, setBit, if_neg hb, if_neg hg, bitOf]

@[simp] theorem bitOf_setBit_self (g : ℕ) (v : Bool) : bitOf (setBit d g v) g = v := by
  rw [bitOf_setBit, if_pos rfl]

theorem bitOf_setBit_of_ne {g g' : ℕ} (v : Bool) (h : g' ≠ g) :
    bitOf (setBit d g v) g' = bitOf d g' := by
  rw [bitOf_setBit, if_neg h]

/-- A bit store leaves the bytes other than the bit's own alone. -/
theorem setBit_of_ne {g i : ℕ} (v : Bool) (h : i ≠ g / 8) : setBit d g v i = d i := by
  rw [setBit, if_neg h]

/-- A byte is zero when its eight bits are clear. -/
theorem eq_zero_of_bits {d : Bytes} {i : ℕ} (h : ∀ j < 8, bitOf d (8 * i + j) = false) :
    d i = 0#8 := by
  refine BitVec.eq_of_getLsbD_eq fun j hj => ?_
  have hb := h j hj
  rw [bitOf, show (8 * i + j) / 8 = i by omega, show (8 * i + j) % 8 = j by omega] at hb
  rw [hb, BitVec.getLsbD_zero]

/-- **An area is known by its bits.** -/
theorem ext_bits {d d' : Bytes} (h : ∀ g, bitOf d g = bitOf d' g) : d = d' := by
  funext i
  refine BitVec.eq_of_getLsbD_eq fun j hj => ?_
  have hbit := h (8 * i + j)
  rwa [bitOf, bitOf, show (8 * i + j) / 8 = i by omega, show (8 * i + j) % 8 = j by omega] at hbit

theorem bitOf_eq_false_of_zero {d : Bytes} {g : ℕ} (h : d (g / 8) = 0#8) : bitOf d g = false := by
  rw [bitOf, h, BitVec.getLsbD_zero]

/-- Every bit of an area of `0xFF` bytes is set. -/
theorem bitOf_ones (g : ℕ) : bitOf (fun _ => 255#8) g = true := by
  have hlt : g % 8 < 8 := Nat.mod_lt _ (by omega)
  rw [bitOf, show (255#8 : BitVec 8) = BitVec.allOnes 8 by decide, BitVec.getLsbD_allOnes]
  exact decide_eq_true hlt

end Bytes

end Onixs
