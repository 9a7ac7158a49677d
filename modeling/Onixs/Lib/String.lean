import Mathlib.Tactic.Linarith
import Onixs.Common.Logged
import Onixs.Common.Rows
import Onixs.Fs.Namei

/-!
# Copying bytes

`memcpy` of `lib/string.c`, and stores through a pointer. A pointer is an integer that is taken modulo `2^32` where it is used
(`Onixs.addr`), so that it may run below zero or over the end of memory and comes out at the other side. The log is
of the addresses that are written.
-/

namespace Onixs

open Bytes

/-- The address that a pointer is. -/
def addr (p : ℤ) : ℕ := (p % 4294967296).toNat

@[simp] theorem addr_natCast {a : ℕ} (h : a < 4294967296) : addr a = a := by
  rw [addr]
  omega

/-- Store a byte. -/
def storeByte (p : ℤ) (b : Byte) (m : Bytes) : Logged ℕ Bytes :=
  Logged.touch (addr p) (some fun i => if i = addr p then b else m i)

/-- Store a row of bytes, from its first one on. -/
def storeRow (p : ℤ) : List Byte → Bytes → Logged ℕ Bytes
  | [], m => pure m
  | b :: bs, m => do
      let m ← storeByte p b m
      storeRow (p + 1) bs m

/-- Store a word. -/
def storeWord (p : ℤ) (v : ℕ) : Bytes → Logged ℕ Bytes := storeRow p (word v)

/-- `memcpy` inside memory. -/
def memcpy (dest src : ℤ) : ℕ → Bytes → Logged ℕ Bytes
  | 0, m => pure m
  | count + 1, m => do
      let m ← storeByte dest (m (addr src)) m
      memcpy (dest + 1) (src + 1) count m

/-- The bytes of a string and its `EOS`. -/
def strBytes (str : CStr) : List Byte := str.map (fun c => c.1) ++ [0#8]

@[simp] theorem length_strBytes (str : CStr) : (strBytes str).length = str.length + 1 := by
  rw [strBytes, List.length_append, List.length_map, List.length_singleton]

/-! ### Where they write -/

/-- The `n` addresses from `p` on satisfy `P`. -/
def Spans (P : ℕ → Prop) (p : ℤ) (n : ℕ) : Prop := ∀ j : ℕ, j < n → P (addr (p + j))

section Log

variable {P : ℕ → Prop} {m : Bytes}

theorem spans_add {p : ℤ} {n k : ℕ} : Spans P p (n + k) ↔ Spans P p n ∧ Spans P (p + n) k := by
  constructor
  · intro h
    refine ⟨fun j hj => h j (by omega), fun j hj => ?_⟩
    have hj' := h (n + j) (by omega)
    rwa [Nat.cast_add, ← add_assoc] at hj'
  · rintro ⟨hlow, hhigh⟩ j hj
    by_cases hjn : j < n
    · exact hlow j hjn
    · have hj' := hhigh (j - n) (by omega)
      rwa [Nat.cast_sub (by omega), add_add_sub_cancel] at hj'

/-- The `n + k` addresses below `p`. -/
theorem spans_below {p : ℤ} {n k : ℕ} :
    Spans P (p - (n + k : ℕ)) (n + k) ↔ Spans P (p - (n + k : ℕ)) n ∧ Spans P (p - k) k := by
  rw [spans_add, show p - ((n + k : ℕ) : ℤ) + (n : ℤ) = p - (k : ℤ) by omega]

theorem all_storeRow {bs : List Byte} {p : ℤ} : (storeRow p bs m).All P ↔ Spans P p bs.length := by
  induction bs generalizing p m with
  | nil => exact iff_of_true (Logged.all_pure m) fun j hj => absurd hj (Nat.not_lt_zero j)
  | cons b bs ih =>
    rw [storeRow, Logged.all_bind, storeByte, Logged.all_touch]
    constructor
    · rintro ⟨hfirst, hrest⟩ j hj
      cases j with
      | zero => simpa using hfirst
      | succ j =>
        have h := ih.mp (hrest _ rfl) j (by simpa using hj)
        rwa [Nat.cast_succ, add_comm (j : ℤ), ← add_assoc]
    · intro h
      refine ⟨by simpa using h 0 (by simp), fun m' _ => ih.mpr fun j hj => ?_⟩
      have hj' := h (j + 1) (by simpa using hj)
      rwa [Nat.cast_succ, add_comm (j : ℤ), ← add_assoc] at hj'

theorem all_storeWord {v : ℕ} {p : ℤ} : (storeWord p v m).All P ↔ Spans P p 4 := all_storeRow

theorem all_memcpy {count : ℕ} {dest src : ℤ} : (memcpy dest src count m).All P ↔ Spans P dest count := by
  induction count generalizing dest src m with
  | zero => exact iff_of_true (Logged.all_pure m) fun j hj => absurd hj (Nat.not_lt_zero j)
  | succ count ih =>
    rw [memcpy, Logged.all_bind, storeByte, Logged.all_touch]
    constructor
    · rintro ⟨hfirst, hrest⟩ j hj
      cases j with
      | zero => simpa using hfirst
      | succ j =>
        have h := ih.mp (hrest _ rfl) j (by omega)
        rwa [Nat.cast_succ, add_comm (j : ℤ), ← add_assoc]
    · intro h
      refine ⟨by simpa using h 0 (by omega), fun m' _ => ih.mpr fun j hj => ?_⟩
      have hj' := h (j + 1) (by omega)
      rwa [Nat.cast_succ, add_comm (j : ℤ), ← add_assoc] at hj'

end Log

theorem storeRow_val (bs : List Byte) (p : ℤ) (m : Bytes) : ∃ m', (storeRow p bs m).val = some m' := by
  induction bs generalizing p m with
  | nil => exact ⟨m, rfl⟩
  | cons b bs ih => exact ih (p + 1) _

theorem storeWord_val (v : ℕ) (p : ℤ) (m : Bytes) : ∃ m', (storeWord p v m).val = some m' := storeRow_val _ p m

theorem memcpy_val (count : ℕ) (dest src : ℤ) (m : Bytes) : ∃ m', (memcpy dest src count m).val = some m' := by
  induction count generalizing dest src m with
  | zero => exact ⟨m, rfl⟩
  | succ count ih => exact ih (dest + 1) (src + 1) _

/-! ### What they write -/

section Val

variable {a o : ℕ} {bs : List Byte}

theorem storeByte_stored (b : Byte) (m : Bytes) (h : a < 4294967296) :
    ∃ m', (storeByte a b m).val = some m' ∧ StoredRow m a [b] m' := by
  refine ⟨_, rfl, ⟨?_, trivial⟩, fun i hi => ?_⟩
  · simp only [addr_natCast h, if_true]
  · rw [List.length_singleton] at hi
    simp only [addr_natCast h, if_neg (show ¬i = a by omega)]

/-- **A row that does not run over the end of memory** is stored where it should be. -/
theorem storeRow_stored (m : Bytes) (h : a + bs.length ≤ 4294967296) :
    ∃ m', (storeRow a bs m).val = some m' ∧ StoredRow m a bs m' := by
  induction bs generalizing a m with
  | nil => exact ⟨m, rfl, trivial, fun _ _ => rfl⟩
  | cons b bs ih =>
    rw [List.length_cons] at h
    obtain ⟨m₁, hbyte, hstored⟩ := storeByte_stored b m (show a < 4294967296 by omega)
    obtain ⟨m', hrow, hstored'⟩ := ih (a := a + 1) m₁ (by omega)
    refine ⟨m', ?_, ⟨?_, hstored'.holds⟩, fun i hi => ?_⟩
    · rw [storeRow, Logged.val_bind, hbyte, Option.bind_some]
      exact_mod_cast hrow
    · rw [hstored'.rest a (by omega)]
      exact hstored.holds.1
    · rw [List.length_cons] at hi
      rw [hstored'.rest i (by omega), hstored.rest i (by simp; omega)]

theorem storeWord_stored (v : ℕ) (m : Bytes) (h : a + 4 ≤ 4294967296) :
    ∃ m', (storeWord a v m).val = some m' ∧ StoredRow m a (word v) m' := storeRow_stored m h

/-- **A row is copied** to a place apart from it. -/
theorem memcpy_stored {m : Bytes} (hheld : Holds m o bs) (hapart : o + bs.length ≤ a ∨ a + bs.length ≤ o)
    (ho : o + bs.length ≤ 4294967296) (h : a + bs.length ≤ 4294967296) :
    ∃ m', (memcpy a o bs.length m).val = some m' ∧ StoredRow m a bs m' := by
  induction bs generalizing a o m with
  | nil => exact ⟨m, rfl, trivial, fun _ _ => rfl⟩
  | cons b bs ih =>
    rw [List.length_cons] at hapart ho h
    obtain ⟨m₁, hbyte, hstored⟩ := storeByte_stored b m (show a < 4294967296 by omega)
    have hheld₁ : Holds m₁ (o + 1) bs := hstored.keeps hheld.2 (by simp; omega)
    obtain ⟨m', hrow, hstored'⟩ := ih (a := a + 1) (o := o + 1) hheld₁ (by omega) (by omega) (by omega)
    refine ⟨m', ?_, ⟨?_, hstored'.holds⟩, fun i hi => ?_⟩
    · rw [List.length_cons, memcpy, Logged.val_bind, addr_natCast (by omega), hheld.1, hbyte, Option.bind_some]
      exact_mod_cast hrow
    · rw [hstored'.rest a (by omega)]
      exact hstored.holds.1
    · rw [List.length_cons] at hi
      rw [hstored'.rest i (by omega), hstored.rest i (by simp; omega)]

end Val

end Onixs
