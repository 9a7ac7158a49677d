import Mathlib.Data.List.Basic
import Onixs.Common.Bytes

/-!
# Rows of bytes in memory

A list of bytes that lies in memory from an address on (`Onixs.Bytes.Holds`), the rows of little-endian words
among them (`Onixs.Bytes.words`), and what a store of a row does to the rows elsewhere
(`Onixs.Bytes.StoredRow`).
-/

namespace Onixs

namespace Bytes

variable {m m' : Bytes} {a o : ℕ} {bs xs ys : List Byte}

/-- The bytes `bs` lie in memory from `a` on. -/
def Holds (m : Bytes) : ℕ → List Byte → Prop
  | _, [] => True
  | a, b :: bs => m a = b ∧ Holds m (a + 1) bs

theorem holds_append : Holds m a (xs ++ ys) ↔ Holds m a xs ∧ Holds m (a + xs.length) ys := by
  induction xs generalizing a with
  | nil => exact ⟨fun h => ⟨trivial, h⟩, And.right⟩
  | cons x xs ih =>
    rw [List.cons_append, Holds, Holds, ih, and_assoc, List.length_cons, Nat.add_right_comm, Nat.add_assoc a]

/-- A row is where it was when its bytes are. -/
theorem Holds.congr (h : Holds m a bs) (heq : ∀ i, a ≤ i → i < a + bs.length → m' i = m i) : Holds m' a bs := by
  induction bs generalizing a with
  | nil => exact trivial
  | cons b bs ih =>
    rw [List.length_cons] at heq
    exact ⟨(heq a (le_refl a) (by omega)).trans h.1, ih h.2 fun i hi hi' => heq i (by omega) (by omega)⟩

/-! ### Words -/

/-- The bytes of a 32-bit word, the low one first. -/
def word (v : ℕ) : List Byte :=
  [BitVec.ofNat 8 v, BitVec.ofNat 8 (v / 256), BitVec.ofNat 8 (v / 65536), BitVec.ofNat 8 (v / 16777216)]

/-- The bytes of a row of words. -/
def words (vs : List ℕ) : List Byte := vs.flatMap word

@[simp] theorem length_word (v : ℕ) : (word v).length = 4 := rfl

@[simp] theorem words_nil : words [] = [] := rfl

@[simp] theorem words_cons (v : ℕ) (vs : List ℕ) : words (v :: vs) = word v ++ words vs := rfl

theorem words_append (vs ws : List ℕ) : words (vs ++ ws) = words vs ++ words ws := List.flatMap_append

@[simp] theorem length_words (vs : List ℕ) : (words vs).length = 4 * vs.length := by
  induction vs with
  | nil => rfl
  | cons v vs ih => rw [words_cons, List.length_append, ih, length_word, List.length_cons, Nat.mul_succ, Nat.add_comm]

/-- A word that lies in memory is read there. -/
theorem Holds.getU32 {v : ℕ} (h : Holds m a (word v)) : getU32 m a = v % 4294967296 := by
  obtain ⟨h0, h1, h2, h3, -⟩ := h
  rw [Bytes.getU32, getU16, getU16, h0, h1, h2, h3]
  simp only [BitVec.toNat_ofNat]
  omega

/-- And so is each word of a row. -/
theorem Holds.getU32_words {vs : List ℕ} (h : Holds m a (words vs)) {i v : ℕ} (hi : vs[i]? = some v) :
    Bytes.getU32 m (a + 4 * i) = v % 4294967296 := by
  induction vs generalizing a i with
  | nil => simp at hi
  | cons w vs ih =>
    rw [words_cons, holds_append] at h
    cases i with
    | zero =>
      obtain rfl : w = v := by simpa using hi
      exact h.1.getU32
    | succ i =>
      rw [show a + 4 * (i + 1) = a + 4 + 4 * i by omega]
      exact ih h.2 (by simpa using hi)

/-! ### Stores -/

theorem holds_putU32 (m : Bytes) (a v : ℕ) : Holds (putU32 m a v) a (word v) := by
  refine ⟨?_, ?_, ?_, ?_, trivial⟩
  · rw [putU32, putU16_of_ne _ _ (by omega) (by omega), putU16, putU8_of_ne _ _ (by omega), putU8_self]
  · rw [putU32, putU16_of_ne _ _ (by omega) (by omega), putU16, putU8_self]
  · rw [putU32, putU16, putU8_of_ne _ _ (by omega), putU8_self]
  · rw [putU32, putU16, putU8_self, Nat.div_div_eq_div_mul]

/-- The row `bs` has been stored from `a` on. -/
structure StoredRow (m : Bytes) (a : ℕ) (bs : List Byte) (m' : Bytes) : Prop where
  /-- It is there. -/
  holds : Holds m' a bs
  /-- Elsewhere nothing has changed. -/
  rest : ∀ i, i < a ∨ a + bs.length ≤ i → m' i = m i

/-- A row elsewhere is where it was. -/
theorem StoredRow.keeps {cs : List Byte} (h : StoredRow m a bs m') (hkept : Holds m o cs)
    (hapart : o + cs.length ≤ a ∨ a + bs.length ≤ o) : Holds m' o cs :=
  hkept.congr fun i _ _ => h.rest i (by omega)

/-- Two stores side by side, the upper one first. -/
theorem StoredRow.below {m₁ : Bytes} (h : StoredRow m (a + xs.length) ys m₁) (h' : StoredRow m₁ a xs m') :
    StoredRow m a (xs ++ ys) m' where
  holds := holds_append.mpr ⟨h'.holds, h'.keeps h.holds (Or.inr (le_refl _))⟩
  rest i hi := by
    rw [List.length_append] at hi
    rw [h'.rest i (by omega), h.rest i (by omega)]

end Bytes

end Onixs
