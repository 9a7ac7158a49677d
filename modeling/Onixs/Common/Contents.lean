import Mathlib.Data.List.GetD

/-!
# Contents that are written at positions

A finite sequence of which any part can be read and written: what is written behind the end makes it longer, and what
is left out in front of that is filled. Two of them are the same when they are equally long and have the same elements,
where an element behind the end counts as filled (`Onixs.Contents.eq_of_getD`). A part that has been written is what is
read there (`Onixs.Contents.slice_splice`), and the rest is what it was.
-/

namespace Onixs

namespace Contents

variable {α : Type} {fill : α} {old new : List α} {o n k : ℕ}

/-- The sequence `old`, with `new` written over it from position `o` on. -/
def splice (fill : α) (old : List α) (o : ℕ) (new : List α) : List α :=
  if new.length = 0 then old
  else (old ++ List.replicate (o - old.length) fill).take o ++ new ++ old.drop (o + new.length)

/-- At most `n` elements from position `o` on. -/
def slice (old : List α) (o n : ℕ) : List α := (old.drop o).take n

/-- Two sequences with the same elements. -/
theorem eq_of_getD (fill : α) (hlength : old.length = new.length) (h : ∀ k < new.length, old.getD k fill = new.getD k fill) :
    old = new := by
  refine List.ext_getElem hlength fun k hk hk' => ?_
  have hget := h k hk'
  rwa [List.getD_eq_getElem _ _ hk, List.getD_eq_getElem _ _ hk'] at hget

theorem length_splice : (splice fill old o new).length
    = if new.length = 0 then old.length else max old.length (o + new.length) := by
  rw [splice]
  split
  · rfl
  · simp only [List.length_append, List.length_take, List.length_replicate, List.length_drop]
    omega

/-- **What is written is there, and the rest is what it was.** -/
theorem getD_splice : (splice fill old o new).getD k fill
    = if o ≤ k ∧ k < o + new.length then new.getD (k - o) fill else old.getD k fill := by
  rw [splice]
  by_cases hnew : new.length = 0
  · rw [if_pos hnew, if_neg (by omega)]
  have hfront : ((old ++ List.replicate (o - old.length) fill).take o).length = o := by
    simp only [List.length_take, List.length_append, List.length_replicate]
    omega
  rw [if_neg hnew, List.append_assoc]
  by_cases hk : k < o
  · -- in front: an old element, or one that is filled
    rw [if_neg (by omega), List.getD_append _ _ _ _ (by omega)]
    simp only [List.getD_eq_getElem?_getD, List.getElem?_take, if_pos hk, List.getElem?_append,
      List.getElem?_replicate]
    split
    · rfl
    · rw [if_pos (by omega), List.getElem?_eq_none (by omega)]
      rfl
  · rw [List.getD_append_right _ _ _ _ (by omega), hfront]
    by_cases hin : k < o + new.length
    · rw [if_pos ⟨by omega, hin⟩, List.getD_append _ _ _ _ (by omega)]
    · rw [if_neg (by omega), List.getD_append_right _ _ _ _ (by omega)]
      simp only [List.getD_eq_getElem?_getD, List.getElem?_drop]
      rw [show o + new.length + (k - o - new.length) = k by omega]

theorem length_slice : (slice old o n).length = min n (old.length - o) := by
  rw [slice, List.length_take, List.length_drop]

theorem getD_slice (fill : α) (old : List α) (o : ℕ) (hk : k < n) : (slice old o n).getD k fill = old.getD (o + k) fill := by
  rw [slice, List.getD_eq_getElem?_getD, List.getElem?_take, if_pos hk, List.getElem?_drop,
    List.getD_eq_getElem?_getD]

/-- **Reading back.** -/
theorem slice_splice (fill : α) (old new : List α) (o : ℕ) : slice (splice fill old o new) o new.length = new := by
  have hlength : (slice (splice fill old o new) o new.length).length = new.length := by
    rw [length_slice, length_splice]
    split <;> omega
  refine eq_of_getD fill hlength fun k hk => ?_
  rw [getD_slice _ _ _ hk, getD_splice, if_pos ⟨by omega, by omega⟩, Nat.add_sub_cancel_left]

/-- **Reading apart from it**, where there was something. -/
theorem slice_splice_of_disjoint (fill : α) (hapart : k + n ≤ o ∨ o + new.length ≤ k) (hold : k + n ≤ old.length) :
    slice (splice fill old o new) k n = slice old k n := by
  have hlength : (slice (splice fill old o new) k n).length = (slice old k n).length := by
    rw [length_slice, length_slice, length_splice]
    split <;> omega
  refine eq_of_getD fill hlength fun j hj => ?_
  rw [length_slice] at hj
  rw [getD_slice _ _ _ (by omega), getD_slice _ _ _ (by omega), getD_splice, if_neg (by omega)]

end Contents

end Onixs
