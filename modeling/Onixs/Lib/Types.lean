import Onixs.Common.Bytes

/-!
# Types and assertions

What every file of the kernel shares: the constant `EOF`, seen through the unsigned
types `idx_t` and `dev_t` it is compared with, and `assert`.

A function that may stop is partial, with values in `Option`. It has no value when
an `assert` fails or `panic` is called – the kernel then spins for ever – and when
the C code leaves the memory object it was given (a null pointer, an access past
the end of a buffer), where C gives it no meaning.
-/

namespace Onixs

/-- `EOF`, that is `-1`, as an `idx_t`, a `dev_t` or a `uint32`. -/
def EOF : ℕ := 4294967295

/-- Wrap a number to a `uint32`. -/
def u32 (n : ℕ) : ℕ := n % 4294967296

/-- The difference of two `uint32` numbers, which wraps below zero. -/
def sub32 (a b : ℕ) : ℕ := u32 (a + 4294967296 - b)

theorem u32_of_lt {n : ℕ} (h : n < 4294967296) : u32 n = n := Nat.mod_eq_of_lt h

theorem sub32_of_le {a b : ℕ} (ha : a < 4294967296) (h : b ≤ a) : sub32 a b = a - b := by
  rw [sub32, u32]
  omega

/-- `div_round_up`. -/
def divRoundUp (num size : ℕ) : ℕ := sub32 (u32 (num + size)) 1 / size

theorem divRoundUp_eq {num size : ℕ} (hsize : 0 < size) (h : num + size < 4294967296) :
    divRoundUp num size = (num + (size - 1)) / size := by
  rw [divRoundUp, u32_of_lt h, sub32_of_le h (by omega), Nat.add_sub_assoc hsize]

/-- `assert`: no value when the condition fails. -/
def assert (p : Prop) [Decidable p] : Option Unit := if p then some () else none

theorem assert_pos {p : Prop} [Decidable p] (h : p) : assert p = some () := if_pos h

theorem assert_neg {p : Prop} [Decidable p] (h : ¬p) : assert p = none := if_neg h

@[simp] theorem assert_eq_some {p : Prop} [Decidable p] {u : Unit} :
    assert p = some u ↔ p := by
  by_cases h : p <;> simp [assert, h]

end Onixs
