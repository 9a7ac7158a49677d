import Onixs.Lib.Types

/-!
# Bitmaps

`lib/bitmap.c`. A bitmap is a view of a byte buffer: the numbers from `offset` on
stand for its bits. `Onixs.Bitmap.size` is not a field of the C structure; it is the
number of bytes that really lie behind `bits`, and an access past it has no value
(`bitmap_test` checks `length`, which a caller may set to something else, and
`bitmap_set` checks no upper bound at all).

The file's result is that `bitmap_scan` is first fit: it returns the least start of
a run of `count` clear bits, sets that run and nothing else, and returns `EOF` when
there is none (`Onixs.bitmapScan_eq_some` and `Onixs.bitmapScan_eq_EOF`).
-/

namespace Onixs

open Bytes

/-- `bitmap_t`. -/
structure Bitmap where
  /-- The buffer. -/
  bits : Bytes
  /-- How many bytes the buffer has. -/
  size : ℕ
  /-- How many bytes the bitmap says it has. -/
  length : ℕ
  /-- The number of the first bit. -/
  offset : ℕ

/-- `bitmap_make`. -/
def bitmapMake (bits : Bytes) (size length offset : ℕ) : Bitmap where
  bits := bits
  size := size
  length := length
  offset := offset

/-- `bitmap_init`. -/
def bitmapInit (bits : Bytes) (size length start : ℕ) : Bitmap :=
  bitmapMake (fill bits 0 length 0#8) size length start

/-- `bitmap_test`. -/
def bitmapTest (map : Bitmap) (index : ℕ) : Option Bool := do
  assert (map.offset ≤ index)
  let idx := index - map.offset
  let bytes := idx / 8
  let bits := idx % 8
  assert (bytes < map.length)
  assert (bytes < map.size)
  return (map.bits bytes &&& 1#8 <<< bits) != 0#8

/-- `bitmap_set`. -/
def bitmapSet (map : Bitmap) (index : ℕ) (value : Bool) : Option Bitmap := do
  assert (map.offset ≤ index)
  let idx := index - map.offset
  let bytes := idx / 8
  let bits := idx % 8
  assert (bytes < map.size)
  return { map with
    bits := fun i =>
      if i = bytes then
        if value then map.bits i ||| 1#8 <<< bits else map.bits i &&& ~~~(1#8 <<< bits)
      else map.bits i }

/-- The first loop of `bitmap_scan`: look for `count` clear bits in a row, with `counter`
of them seen just before `nextBit`; the start of the run, or nothing when the bits run
out. -/
def bitmapScanLoop (map : Bitmap) (count : ℕ) : ℕ → ℕ → ℕ → Option (Option ℕ)
  | 0, _, _ => some none
  | bitsLeft + 1, nextBit, counter => do
      let set ← bitmapTest map (u32 (map.offset + nextBit))
      let counter := if !set then counter + 1 else 0
      let nextBit := nextBit + 1
      if counter = count then
        return some (nextBit - count)
      bitmapScanLoop map count bitsLeft nextBit counter

/-- The second loop of `bitmap_scan`: set `bitsLeft` bits from `nextBit` on. -/
def bitmapScanSet (map : Bitmap) : ℕ → ℕ → Option Bitmap
  | 0, _ => some map
  | bitsLeft + 1, nextBit => do
      let map ← bitmapSet map (u32 (map.offset + nextBit)) true
      bitmapScanSet map bitsLeft (nextBit + 1)

/-- `bitmap_scan`. -/
def bitmapScan (map : Bitmap) (count : ℕ) : Option (ℕ × Bitmap) := do
  let start ← bitmapScanLoop map count (u32 (map.length * 8)) 0 0
  match start with
  | none => return (EOF, map)
  | some start =>
      let map ← bitmapScanSet map count start
      return (u32 (start + map.offset), map)

/-! ### One bit -/

theorem bitmapTest_eq (map : Bitmap) {g : ℕ} (h : g / 8 < map.length) (h' : g / 8 < map.size) :
    bitmapTest map (map.offset + g) = some (bitOf map.bits g) := by
  have hmask : ∀ (x : Byte) (b : ℕ), b < 8 → ((x &&& 1#8 <<< b) != 0#8) = x.getLsbD b := by
    intro x b hb
    cases hx : x.getLsbD b with
    | true =>
      refine bne_iff_ne.mpr fun hc => ?_
      have hbit := congrArg (fun y => BitVec.getLsbD y b) hc
      simp [hb] at hbit
      rw [BitVec.getLsbD_eq_getElem hb] at hx
      rw [hbit] at hx
      exact Bool.noConfusion hx
    | false =>
      refine bne_eq_false_iff_eq.mpr (BitVec.eq_of_getLsbD_eq fun j hj => ?_)
      rw [BitVec.getLsbD_and, BitVec.getLsbD_zero, ← BitVec.twoPow_eq, BitVec.getLsbD_twoPow]
      by_cases hjb : b = j
      · rw [← hjb, hx, Bool.false_and]
      · simp [hjb]
  rw [bitmapTest, assert_pos (Nat.le_add_right _ _)]
  simp only [Nat.add_sub_cancel_left, Option.bind_eq_bind, Option.bind_some, assert_pos h,
    assert_pos h', hmask _ _ (Nat.mod_lt g (by omega)), bitOf, Option.pure_def]

theorem bitmapSet_eq (map : Bitmap) {g : ℕ} (v : Bool) (h : g / 8 < map.size) :
    bitmapSet map (map.offset + g) v = some { map with bits := setBit map.bits g v } := by
  rw [bitmapSet, assert_pos (Nat.le_add_right _ _)]
  simp only [Nat.add_sub_cancel_left, Option.bind_eq_bind, Option.bind_some, assert_pos h,
    Option.pure_def, Option.some.injEq, Bitmap.mk.injEq, and_true]
  funext i
  rw [setBit, BitVec.twoPow_eq]

/-! ### The scan -/

/-- The `n` bits from `s` on are clear. -/
def ClearRun (d : Bytes) (s n : ℕ) : Prop := ∀ i, s ≤ i → i < s + n → bitOf d i = false

/-- The area with the `n` bits from `s` on set. -/
def setRun (d : Bytes) (s : ℕ) : ℕ → Bytes
  | 0 => d
  | n + 1 => setRun (setBit d s true) (s + 1) n

theorem bitOf_setRun (d : Bytes) (s n g : ℕ) :
    bitOf (setRun d s n) g = if s ≤ g ∧ g < s + n then true else bitOf d g := by
  induction n generalizing d s with
  | zero => rw [setRun, if_neg (by omega)]
  | succ n ih =>
    rw [setRun, ih]
    by_cases hg : g = s
    · subst hg
      rw [if_neg (by omega), if_pos (by omega), bitOf_setBit_self]
    · by_cases hin : s + 1 ≤ g ∧ g < s + 1 + n
      · rw [if_pos hin, if_pos (by omega)]
      · rw [if_neg hin, if_neg (by omega), bitOf_setBit_of_ne _ _ hg]

theorem setRun_setRun (d : Bytes) (s n m : ℕ) : setRun (setRun d s n) (s + n) m = setRun d s (n + m) := by
  induction n generalizing d s with
  | zero => rw [setRun, Nat.add_zero, Nat.zero_add]
  | succ n ih =>
    rw [Nat.succ_add n m, setRun, setRun, show s + (n + 1) = s + 1 + n by omega]
    exact ih _ _

theorem clearRun_one {d : Bytes} {s : ℕ} : ClearRun d s 1 ↔ bitOf d s = false := by
  constructor
  · exact fun h => h s (le_refl s) (Nat.lt_succ_self s)
  · intro h i hi hi'
    obtain rfl : i = s := by omega
    exact h

section Scan

variable {map : Bitmap} {count : ℕ}

/-- The bitmap is one the kernel can make: its bytes are there, and its numbers fit a
`uint32`. -/
structure Bitmap.WF (map : Bitmap) : Prop where
  /-- The bytes the bitmap says it has are in the buffer. -/
  size : map.length ≤ map.size
  /-- No number of the bitmap wraps. -/
  range : map.offset + map.length * 8 < 4294967296

/-- What the search loop answers: the least start of a clear run inside the bitmap. -/
def FirstRun (d : Bytes) (bound count : ℕ) : Option ℕ → Prop
  | none => ∀ s, s + count ≤ bound → ¬ClearRun d s count
  | some s => s + count ≤ bound ∧ ClearRun d s count ∧ ∀ s' < s, ¬ClearRun d s' count

/-- **The search loop finds the first run.** The invariant: `counter` clear bits end just
before `nextBit` with a set bit (or the start of the map) before them, and no run of
`count` clear bits ends by `nextBit`. -/
theorem bitmapScanLoop_spec (hwf : map.WF) :
    ∀ bitsLeft nextBit counter, nextBit + bitsLeft = map.length * 8 → counter < count →
      counter ≤ nextBit → ClearRun map.bits (nextBit - counter) counter →
      (counter < nextBit → bitOf map.bits (nextBit - counter - 1) = true) →
      (∀ s, s + count ≤ nextBit → ¬ClearRun map.bits s count) →
      ∃ r, bitmapScanLoop map count bitsLeft nextBit counter = some r ∧
        FirstRun map.bits (map.length * 8) count r := by
  intro bitsLeft
  induction bitsLeft with
  | zero =>
    intro nextBit counter hlen _ _ _ _ hno
    exact ⟨none, rfl, fun s hs => hno s (by omega)⟩
  | succ left ih =>
    intro nextBit counter hlen hlt hle hrun hbefore hno
    have hsize := hwf.size
    have hrange := hwf.range
    have htest : bitmapTest map (u32 (map.offset + nextBit)) = some (bitOf map.bits nextBit) := by
      rw [u32_of_lt (by omega)]
      exact bitmapTest_eq map (by omega) (by omega)
    rw [bitmapScanLoop, htest]
    simp only [Option.bind_eq_bind, Option.bind_some]
    cases hb : bitOf map.bits nextBit with
    | true =>
      -- a set bit: the count starts again
      simp only [Bool.not_true, Bool.false_eq_true, reduceIte]
      rw [if_neg (by omega)]
      refine ih (nextBit + 1) 0 (by omega) (by omega) (by omega) ?_ ?_ ?_
      · exact fun i hi hi' => absurd hi' (by omega)
      · intro _
        simpa using hb
      · intro s hs hclear
        rcases Nat.lt_or_ge nextBit (s + count) with hin | hout
        · exact absurd (hclear nextBit (by omega) hin) (by rw [hb]; exact Bool.noConfusion)
        · exact hno s hout hclear
    | false =>
      simp only [Bool.not_false, reduceIte]
      have hrun' : ClearRun map.bits (nextBit - counter) (counter + 1) := by
        intro i hi hi'
        rcases Nat.lt_or_ge i nextBit with hlt' | hge
        · exact hrun i hi (by omega)
        · obtain rfl : i = nextBit := by omega
          exact hb
      by_cases hfull : counter + 1 = count
      · rw [if_pos hfull]
        refine ⟨some (nextBit + 1 - count), rfl, by omega, ?_, fun s' hs' => hno s' (by omega)⟩
        rw [show nextBit + 1 - count = nextBit - counter by omega, ← hfull]
        exact hrun'
      · rw [if_neg hfull]
        refine ih (nextBit + 1) (counter + 1) (by omega) (by omega) (by omega) ?_ ?_ ?_
        · rwa [show nextBit + 1 - (counter + 1) = nextBit - counter by omega]
        · intro _
          rw [show nextBit + 1 - (counter + 1) - 1 = nextBit - counter - 1 by omega]
          exact hbefore (by omega)
        · intro s hs hclear
          rcases Nat.lt_or_ge nextBit (s + count) with hin | hout
          · -- the run would reach back over the set bit before the counted ones
            have hset := hbefore (by omega)
            have hcl := hclear (nextBit - counter - 1) (by omega) (by omega)
            rw [hset] at hcl
            exact Bool.noConfusion hcl
          · exact hno s hout hclear

theorem bitmapScanSet_eq (n s : ℕ) :
    ∀ map : Bitmap, s + n ≤ 8 * map.size → map.offset + (s + n) ≤ 4294967296 →
      bitmapScanSet map n s = some { map with bits := setRun map.bits s n } := by
  induction n generalizing s with
  | zero => exact fun map _ _ => rfl
  | succ n ih =>
    intro map h h'
    rw [bitmapScanSet, u32_of_lt (by omega), bitmapSet_eq map true (by omega)]
    exact ih (s + 1) { map with bits := setBit map.bits s true } (by simp only; omega)
      (by simp only; omega)

theorem bitmapScanLoop_start (hwf : map.WF) (hcount : 0 < count) :
    ∃ r, bitmapScanLoop map count (u32 (map.length * 8)) 0 0 = some r ∧
      FirstRun map.bits (map.length * 8) count r := by
  have hrange := hwf.range
  rw [u32_of_lt (by omega)]
  exact bitmapScanLoop_spec hwf _ 0 0 (by omega) hcount (le_refl 0)
    (fun i _ hi' => absurd hi' (by omega)) (fun h => absurd h (lt_irrefl 0))
    fun s hs => absurd hs (by omega)

/-- **First fit**: the least clear run is returned and set. -/
theorem bitmapScan_eq_some (hwf : map.WF) (hcount : 0 < count) {s : ℕ}
    (hfit : s + count ≤ map.length * 8) (hclear : ClearRun map.bits s count)
    (hleast : ∀ s' < s, ¬ClearRun map.bits s' count) :
    bitmapScan map count
      = some (s + map.offset, { map with bits := setRun map.bits s count }) := by
  obtain ⟨r, hr, hfirst⟩ := bitmapScanLoop_start hwf hcount
  cases r with
  | none => exact absurd hclear (hfirst s hfit)
  | some t =>
    obtain ⟨htfit, htclear, htleast⟩ := hfirst
    obtain rfl : t = s := by
      rcases Nat.lt_trichotomy t s with hlt | heq | hgt
      · exact absurd htclear (hleast t hlt)
      · exact heq
      · exact absurd hclear (htleast s hgt)
    rw [bitmapScan, hr]
    simp only [Option.bind_eq_bind, Option.bind_some]
    have hsize := hwf.size
    have hrange := hwf.range
    have hnr : u32 (t + map.offset) = t + map.offset := u32_of_lt (by omega)
    rw [bitmapScanSet_eq count t map (by omega) (by omega), Option.bind_some, hnr]
    rfl

/-- **No run, no change**: the scan returns `EOF`. -/
theorem bitmapScan_eq_EOF (hwf : map.WF) (hcount : 0 < count)
    (hnone : ∀ s, s + count ≤ map.length * 8 → ¬ClearRun map.bits s count) :
    bitmapScan map count = some (EOF, map) := by
  obtain ⟨r, hr, hfirst⟩ := bitmapScanLoop_start hwf hcount
  cases r with
  | none =>
    rw [bitmapScan, hr]
    rfl
  | some t => exact absurd hfirst.2.1 (hnone t hfirst.1)

/-- What a scan can answer: nothing and no change, or a clear run, which is set. -/
theorem bitmapScan_cases (hwf : map.WF) (hcount : 0 < count) {k : ℕ} {map' : Bitmap}
    (h : bitmapScan map count = some (k, map')) :
    (k = EOF ∧ map' = map) ∨ ∃ s, k = s + map.offset ∧ s + count ≤ map.length * 8 ∧
      ClearRun map.bits s count ∧ map' = { map with bits := setRun map.bits s count } := by
  obtain ⟨r, hr, hfirst⟩ := bitmapScanLoop_start hwf hcount
  cases r with
  | none =>
    rw [bitmapScan_eq_EOF hwf hcount hfirst] at h
    obtain ⟨rfl, rfl⟩ := Prod.mk.inj (Option.some.inj h)
    exact Or.inl ⟨rfl, rfl⟩
  | some t =>
    obtain ⟨hfit, hclear, hleast⟩ := hfirst
    rw [bitmapScan_eq_some hwf hcount hfit hclear hleast] at h
    obtain ⟨rfl, rfl⟩ := Prod.mk.inj (Option.some.inj h)
    exact Or.inr ⟨t, rfl, hfit, hclear, rfl⟩

end Scan

/-! ### Single accesses -/

/-- A bit that is read is one of the bitmap's. -/
theorem bitmapTest_eq_some {map : Bitmap} {index : ℕ} {v : Bool}
    (h : bitmapTest map index = some v) :
    map.offset ≤ index ∧ (index - map.offset) / 8 < map.length ∧
      v = bitOf map.bits (index - map.offset) := by
  have h' := h
  rw [bitmapTest] at h'
  obtain ⟨_, hlo, h'⟩ := Option.bind_eq_some_iff.mp h'
  obtain ⟨_, hlen, h'⟩ := Option.bind_eq_some_iff.mp h'
  obtain ⟨_, hsize, -⟩ := Option.bind_eq_some_iff.mp h'
  rw [assert_eq_some] at hlo hlen hsize
  have heq := bitmapTest_eq map hlen hsize
  rw [Nat.add_sub_cancel' hlo, h] at heq
  exact ⟨hlo, hlen, Option.some.inj heq⟩

/-- A bit that is stored is one of the buffer's. -/
theorem bitmapSet_eq_some {map map' : Bitmap} {index : ℕ} {v : Bool}
    (h : bitmapSet map index v = some map') :
    map.offset ≤ index ∧ (index - map.offset) / 8 < map.size ∧
      map' = { map with bits := setBit map.bits (index - map.offset) v } := by
  have h' := h
  rw [bitmapSet] at h'
  obtain ⟨_, hlo, h'⟩ := Option.bind_eq_some_iff.mp h'
  obtain ⟨_, hsize, -⟩ := Option.bind_eq_some_iff.mp h'
  rw [assert_eq_some] at hlo hsize
  have heq := bitmapSet_eq map v hsize
  rw [Nat.add_sub_cancel' hlo, h] at heq
  exact ⟨hlo, hsize, Option.some.inj heq⟩

theorem bitmapScanSet_same :
    ∀ (left next : ℕ) (map map' : Bitmap), bitmapScanSet map left next = some map' →
      map'.offset = map.offset ∧ map'.size = map.size := by
  intro left
  induction left with
  | zero =>
    intro next map map' h
    obtain rfl := Option.some.inj h
    exact ⟨rfl, rfl⟩
  | succ left ih =>
    intro next map map' h
    rw [bitmapScanSet] at h
    obtain ⟨map₁, hset, hrest⟩ := Option.bind_eq_some_iff.mp h
    obtain ⟨-, -, hmap⟩ := bitmapSet_eq_some hset
    obtain ⟨hoff, hsize⟩ := ih (next + 1) map₁ map' hrest
    rw [hmap] at hoff hsize
    exact ⟨hoff, hsize⟩

/-- A scan stores bits only. -/
theorem bitmapScan_same {map map' : Bitmap} {count k : ℕ} (h : bitmapScan map count = some (k, map')) :
    map'.offset = map.offset ∧ map'.size = map.size := by
  rw [bitmapScan] at h
  obtain ⟨start, -, h⟩ := Option.bind_eq_some_iff.mp h
  cases start with
  | none =>
    obtain ⟨-, rfl⟩ := Prod.mk.inj (Option.some.inj h)
    exact ⟨rfl, rfl⟩
  | some s =>
    obtain ⟨map₁, hset, h⟩ := Option.bind_eq_some_iff.mp h
    obtain ⟨-, rfl⟩ := Prod.mk.inj (Option.some.inj h)
    exact bitmapScanSet_same _ _ _ _ hset

theorem bitmapScanSet_length :
    ∀ (left next : ℕ) (map map' : Bitmap), bitmapScanSet map left next = some map' →
      map'.length = map.length := by
  intro left
  induction left with
  | zero =>
    intro next map map' h
    exact congrArg Bitmap.length (Option.some.inj h).symm
  | succ left ih =>
    intro next map map' h
    obtain ⟨map₁, hset, hrest⟩ := Option.bind_eq_some_iff.mp h
    obtain ⟨-, -, hmap⟩ := bitmapSet_eq_some hset
    exact (ih (next + 1) map₁ map' hrest).trans (by rw [hmap])

theorem bitmapScan_length {map map' : Bitmap} {count k : ℕ} (h : bitmapScan map count = some (k, map')) :
    map'.length = map.length := by
  obtain ⟨start, -, h⟩ := Option.bind_eq_some_iff.mp h
  cases start with
  | none => exact congrArg Bitmap.length (Prod.mk.inj (Option.some.inj h)).2.symm
  | some s =>
    obtain ⟨map₁, hset, h⟩ := Option.bind_eq_some_iff.mp h
    rw [← (Prod.mk.inj (Option.some.inj h)).2]
    exact bitmapScanSet_length _ _ _ _ hset

/-- What a scan that does not fail answers is the first run. -/
theorem bitmapScan_first {map map' : Bitmap} {count k : ℕ} (hwf : map.WF) (hcount : 0 < count)
    (h : bitmapScan map count = some (k, map')) (hk : k ≠ EOF) :
    ∃ s, k = s + map.offset ∧ s + count ≤ map.length * 8 ∧ ClearRun map.bits s count ∧
      (∀ s' < s, ¬ClearRun map.bits s' count) ∧ map' = { map with bits := setRun map.bits s count } := by
  obtain ⟨r, hr, hfirst⟩ := bitmapScanLoop_start hwf hcount
  cases r with
  | none =>
    rw [bitmapScan_eq_EOF hwf hcount hfirst] at h
    exact absurd (Prod.mk.inj (Option.some.inj h)).1.symm hk
  | some t =>
    obtain ⟨hfit, hclear, hleast⟩ := hfirst
    rw [bitmapScan_eq_some hwf hcount hfit hclear hleast] at h
    obtain ⟨rfl, rfl⟩ := Prod.mk.inj (Option.some.inj h)
    exact ⟨t, rfl, hfit, hclear, hleast, rfl⟩

end Onixs
