import Mathlib.Data.List.Basic
import Onixs.Lib.Types

/-!
# Sorted lists

The part of `lib/list.c` that keeps a list sorted by a key. A list of nodes is the list of the
structures they lie in; the nodes before and behind one of them are those that its `prev` and
`next` lead to, where the list has no node twice.
-/

namespace Onixs

/-- A `uint32` read as an `int`. -/
def int32 (n : ℕ) : ℤ := if n < 2147483648 then n else n - 4294967296

theorem int32_of_lt {n : ℕ} (h : n < 2147483648) : int32 n = n := if_pos h

section InsertSort

variable {α : Type} (key : α → ℤ)

/-- `list_insert_sort`: in front of the first node with a greater key. -/
def listInsertSort (node : α) : List α → List α
  | [] => [node]
  | ptr :: list => if key ptr > key node then node :: ptr :: list else ptr :: listInsertSort node list

variable {key} {node a : α} {list : List α}

theorem listInsertSort_perm : (listInsertSort key node list).Perm (node :: list) := by
  induction list with
  | nil => exact List.Perm.refl _
  | cons ptr list ih =>
    rw [listInsertSort]
    split
    · exact List.Perm.refl _
    · exact (ih.cons ptr).trans (List.Perm.swap node ptr list)

theorem mem_listInsertSort : a ∈ listInsertSort key node list ↔ a = node ∨ a ∈ list := by
  rw [listInsertSort_perm.mem_iff, List.mem_cons]

theorem listInsertSort_ne_nil : listInsertSort key node list ≠ [] :=
  List.ne_nil_of_mem (mem_listInsertSort.mpr (Or.inl rfl))

/-- **The list stays sorted.** -/
theorem pairwise_listInsertSort (h : list.Pairwise fun a b => key a ≤ key b) :
    (listInsertSort key node list).Pairwise fun a b => key a ≤ key b := by
  induction list with
  | nil => exact List.pairwise_singleton _ _
  | cons ptr list ih =>
    obtain ⟨hptr, hlist⟩ := List.pairwise_cons.mp h
    rw [listInsertSort]
    split
    next hgt =>
      refine List.pairwise_cons.mpr ⟨fun b hb => ?_, h⟩
      rcases List.mem_cons.mp hb with rfl | hb
      · exact Int.le_of_lt hgt
      · exact Int.le_trans (Int.le_of_lt hgt) (hptr b hb)
    next hle =>
      refine List.pairwise_cons.mpr ⟨fun b hb => ?_, ih hlist⟩
      rcases mem_listInsertSort.mp hb with rfl | hb
      · exact Int.not_lt.mp hle
      · exact hptr b hb

end InsertSort

/-! ### Neighbours -/

section Neighbours

variable {α : Type} [DecidableEq α]

/-- The nodes in front of one. -/
def listBefore (node : α) (list : List α) : List α := list.takeWhile (· ≠ node)

/-- The nodes behind one. -/
def listAfter (node : α) (list : List α) : List α := (list.dropWhile (· ≠ node)).tail

variable {node : α} {before after : List α}

theorem listBefore_append (h : node ∉ before) : listBefore node (before ++ node :: after) = before := by
  have hall : ∀ a ∈ before, decide (a ≠ node) = true := fun a ha =>
    decide_eq_true fun heq => h (heq ▸ ha)
  rw [listBefore, List.takeWhile_append_of_pos hall, List.takeWhile_cons_of_neg (by simp), List.append_nil]

theorem listAfter_append (h : node ∉ before) : listAfter node (before ++ node :: after) = after := by
  have hall : ∀ a ∈ before, decide (a ≠ node) = true := fun a ha =>
    decide_eq_true fun heq => h (heq ▸ ha)
  rw [listAfter, List.dropWhile_append_of_pos hall, List.dropWhile_cons_of_neg (by simp), List.tail_cons]

end Neighbours

end Onixs
