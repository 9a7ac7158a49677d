import Mathlib.Order.Bounds.Basic
import Onixs.Common.Logged
import Onixs.Lib.Bitmap

/-!
# `bitmap_scan` with the bits it looks at

`Onixs.bitmapScan` once more, with the index of every call of `bitmap_test` and `bitmap_set` in a log. The scan is exact
first fit, and no index in its log lies outside the bitmap (`Onixs.bitmapScan_exact`).
-/

namespace Onixs

open Bytes

/-- The search loop, with the indices it tests. -/
def bitmapScanLoopLog (map : Bitmap) (count : ℕ) : ℕ → ℕ → ℕ → Logged ℕ (Option ℕ)
  | 0, _, _ => pure none
  | bitsLeft + 1, nextBit, counter => do
      let index := u32 (map.offset + nextBit)
      let set ← Logged.touch index (bitmapTest map index)
      let counter := if !set then counter + 1 else 0
      let nextBit := nextBit + 1
      if counter = count then
        return some (nextBit - count)
      bitmapScanLoopLog map count bitsLeft nextBit counter

/-- The loop that sets the bits, with their indices. -/
def bitmapScanSetLog (map : Bitmap) : ℕ → ℕ → Logged ℕ Bitmap
  | 0, _ => pure map
  | bitsLeft + 1, nextBit => do
      let index := u32 (map.offset + nextBit)
      let map ← Logged.touch index (bitmapSet map index true)
      bitmapScanSetLog map bitsLeft (nextBit + 1)

/-- `bitmap_scan`, with the indices it tests and sets. -/
def bitmapScanLog (map : Bitmap) (count : ℕ) : Logged ℕ (ℕ × Bitmap) := do
  let start ← bitmapScanLoopLog map count (u32 (map.length * 8)) 0 0
  match start with
  | none => return (EOF, map)
  | some start =>
      let map ← bitmapScanSetLog map count start
      return (u32 (start + map.offset), map)

/-! ### The log is that of the scan -/

theorem val_bitmapScanLoopLog (map : Bitmap) (count : ℕ) : ∀ bitsLeft nextBit counter,
    (bitmapScanLoopLog map count bitsLeft nextBit counter).val = bitmapScanLoop map count bitsLeft nextBit counter := by
  intro bitsLeft
  induction bitsLeft with
  | zero => exact fun _ _ => rfl
  | succ left ih =>
    intro nextBit counter
    rw [bitmapScanLoopLog, bitmapScanLoop, Logged.val_bind, Logged.val_touch]
    refine congrArg _ (funext fun set => ?_)
    dsimp only
    by_cases hfull : (if !set then counter + 1 else 0) = count
    · rw [if_pos hfull, if_pos hfull]
      rfl
    · rw [if_neg hfull, if_neg hfull]
      exact ih _ _

theorem val_bitmapScanSetLog : ∀ bitsLeft nextBit (map : Bitmap),
    (bitmapScanSetLog map bitsLeft nextBit).val = bitmapScanSet map bitsLeft nextBit := by
  intro bitsLeft
  induction bitsLeft with
  | zero => exact fun _ _ => rfl
  | succ left ih =>
    intro nextBit map
    rw [bitmapScanSetLog, bitmapScanSet, Logged.val_bind, Logged.val_touch]
    exact congrArg _ (funext fun map => ih _ map)

theorem val_bitmapScanLog (map : Bitmap) (count : ℕ) : (bitmapScanLog map count).val = bitmapScan map count := by
  rw [bitmapScanLog, bitmapScan, Logged.val_bind, val_bitmapScanLoopLog]
  refine congrArg _ (funext fun start => ?_)
  cases start with
  | none => rfl
  | some start =>
    dsimp only
    rw [Logged.val_bind, val_bitmapScanSetLog]
    rfl

section Exact

variable {map : Bitmap} {count : ℕ}

/-- The index of a bit of the bitmap. -/
def Bitmap.InRange (map : Bitmap) (index : ℕ) : Prop := map.offset ≤ index ∧ index < map.offset + 8 * map.length

/-- The bits that are tested are the bitmap's. -/
theorem all_bitmapScanLoopLog (hrange : map.offset + 8 * map.length < 2 ^ 31) :
    ∀ bitsLeft nextBit counter, nextBit + bitsLeft ≤ 8 * map.length →
      (bitmapScanLoopLog map count bitsLeft nextBit counter).All map.InRange := by
  intro bitsLeft
  induction bitsLeft with
  | zero => exact fun _ _ _ => Logged.all_pure _
  | succ left ih =>
    intro nextBit counter hbits
    have hindex : u32 (map.offset + nextBit) = map.offset + nextBit := u32_of_lt (by omega)
    rw [bitmapScanLoopLog]
    refine Logged.all_bind.mpr ⟨Logged.all_touch.mpr ?_, fun set _ => ?_⟩
    · rw [hindex]
      exact ⟨Nat.le_add_right _ _, by omega⟩
    · dsimp only
      by_cases hfull : (if !set then counter + 1 else 0) = count
      · rw [if_pos hfull]
        exact Logged.all_pure _
      · rw [if_neg hfull]
        exact ih _ _ (by omega)

/-- The bits that are set are those of the run. -/
theorem all_bitmapScanSetLog (P : ℕ → Prop) (offset : ℕ) : ∀ bitsLeft nextBit (map : Bitmap), map.offset = offset →
    offset + nextBit + bitsLeft < 2 ^ 31 → (∀ i, nextBit ≤ i → i < nextBit + bitsLeft → P (offset + i)) →
      (bitmapScanSetLog map bitsLeft nextBit).All P := by
  intro bitsLeft
  induction bitsLeft with
  | zero => exact fun _ _ _ _ _ => Logged.all_pure _
  | succ left ih =>
    intro nextBit map hoffset hrange hP
    have hindex : u32 (map.offset + nextBit) = offset + nextBit := by rw [hoffset, u32_of_lt (by omega)]
    rw [bitmapScanSetLog]
    refine Logged.all_bind.mpr ⟨Logged.all_touch.mpr ?_, fun map' hset => ?_⟩
    · rw [hindex]
      exact hP nextBit le_rfl (by omega)
    · obtain ⟨-, -, rfl⟩ := bitmapSet_eq_some hset
      exact ih _ _ hoffset (by omega) fun i hi hi' => hP i (by omega) (by omega)

/-- **The scan stays inside the bitmap.** -/
theorem all_bitmapScanLog (hsize : map.length ≤ map.size) (hrange : map.offset + 8 * map.length < 2 ^ 31)
    (hcount : 1 ≤ count) : (bitmapScanLog map count).All map.InRange := by
  have hwf : map.WF := ⟨hsize, by omega⟩
  rw [bitmapScanLog]
  refine Logged.all_bind.mpr ⟨?_, fun start hstart => ?_⟩
  · rw [u32_of_lt (by omega)]
    exact all_bitmapScanLoopLog hrange _ _ _ (by omega)
  · rw [val_bitmapScanLoopLog] at hstart
    obtain ⟨r, hr, hfirst⟩ := bitmapScanLoop_start hwf hcount
    obtain rfl := Option.some.inj (hstart.symm.trans hr)
    cases start with
    | none => exact Logged.all_pure _
    | some s =>
      have hfit := hfirst.1
      refine Logged.all_bind.mpr ⟨?_, fun map' _ => Logged.all_pure _⟩
      exact all_bitmapScanSetLog _ map.offset count s map rfl (by omega) fun i hi hi' => ⟨by omega, by omega⟩

/-- The starts of the runs of `count` clear bits. -/
def Bitmap.starts (map : Bitmap) (count : ℕ) : Set ℕ :=
  { s | s + count ≤ 8 * map.length ∧ ClearRun map.bits s count }

/-- **First fit, exactly**: `bitmap_scan` returns the least start of a run of `count` clear bits and changes the bits of
that run, from clear to set, and no other; without such a run it returns `EOF` and changes nothing. The indices it tests
and sets are those of the bitmap. -/
theorem bitmapScan_exact (hsize : map.length ≤ map.size) (hrange : map.offset + 8 * map.length < 2 ^ 31)
    (hcount : 1 ≤ count) :
    ((map.starts count).Nonempty → ∃ s map', IsLeast (map.starts count) s ∧
      bitmapScan map count = some (map.offset + s, map') ∧ map' = { map with bits := map'.bits } ∧
      (∀ g, bitOf map'.bits g ≠ bitOf map.bits g ↔ s ≤ g ∧ g < s + count) ∧
      ∀ g, s ≤ g → g < s + count → bitOf map.bits g = false ∧ bitOf map'.bits g = true) ∧
    (¬(map.starts count).Nonempty → bitmapScan map count = some (EOF, map)) ∧
    (bitmapScanLog map count).val = bitmapScan map count ∧ (bitmapScanLog map count).All map.InRange := by
  have hwf : map.WF := ⟨hsize, by omega⟩
  refine ⟨fun hsome => ?_, fun hnone => ?_, val_bitmapScanLog map count, all_bitmapScanLog hsize hrange hcount⟩
  · obtain ⟨s, hfit, hclear, hleast⟩ : ∃ s, FirstRun map.bits (map.length * 8) count (some s) := by
      obtain ⟨r, -, hfirst⟩ := bitmapScanLoop_start hwf hcount
      cases r with
      | none =>
        obtain ⟨s, hs, hclear⟩ := hsome
        exact absurd hclear (hfirst s (by omega))
      | some s => exact ⟨s, hfirst⟩
    have hscan := bitmapScan_eq_some hwf hcount hfit hclear hleast
    refine ⟨s, _, ⟨⟨by omega, hclear⟩, fun t ht => ?_⟩, by rw [hscan, Nat.add_comm], rfl, fun g => ?_,
      fun g hg hg' => ?_⟩
    · exact Nat.le_of_not_lt fun hlt => hleast t hlt ht.2
    · rw [bitOf_setRun]
      split
      next hin => exact iff_of_true (by rw [hclear g hin.1 hin.2]; exact Bool.noConfusion) hin
      next hout => exact iff_of_false (fun h => h rfl) hout
    · rw [bitOf_setRun, if_pos ⟨hg, hg'⟩]
      exact ⟨hclear g hg hg', rfl⟩
  · exact bitmapScan_eq_EOF hwf hcount fun s hs hclear => hnone ⟨s, by omega, hclear⟩

end Exact

/-- A bitmap of one byte whose two lowest bits are set. -/
def lowBitmap : Bitmap := bitmapMake (fun _ => 3#8) 1 1 100

theorem bitmapScan_exact_low :
    ((lowBitmap.starts 3).Nonempty → ∃ s map', IsLeast (lowBitmap.starts 3) s ∧
      bitmapScan lowBitmap 3 = some (lowBitmap.offset + s, map') ∧ map' = { lowBitmap with bits := map'.bits } ∧
      (∀ g, bitOf map'.bits g ≠ bitOf lowBitmap.bits g ↔ s ≤ g ∧ g < s + 3) ∧
      ∀ g, s ≤ g → g < s + 3 → bitOf lowBitmap.bits g = false ∧ bitOf map'.bits g = true) ∧
    (¬(lowBitmap.starts 3).Nonempty → bitmapScan lowBitmap 3 = some (EOF, lowBitmap)) ∧
    (bitmapScanLog lowBitmap 3).val = bitmapScan lowBitmap 3 ∧ (bitmapScanLog lowBitmap 3).All lowBitmap.InRange :=
  bitmapScan_exact (by decide) (by decide) (by decide)

end Onixs
