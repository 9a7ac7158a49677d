import Mathlib.Data.List.Perm.Lattice
import Mathlib.Logic.Function.Basic

/-!
# Slots that have been taken

A table of slots, of which some have been taken that were free before. Who gives back what it has taken, in whatever order,
leaves the table as it has been (`Onixs.Borrowed.eq_iff`).
-/

namespace Onixs

variable {ι α : Type*} {base table : ι → Option α} {held other : List ι} {i : ι} {a : α}

/-- **`held` are the slots that have been taken**: `table` differs from `base` there and nowhere else. -/
structure Borrowed (base : ι → Option α) (held : List ι) (table : ι → Option α) : Prop where
  /-- None has been taken twice. -/
  nodup : held.Nodup
  /-- The other slots. -/
  same : ∀ i ∉ held, table i = base i
  /-- They were free. -/
  free : ∀ i ∈ held, base i = none
  /-- They are in use. -/
  used : ∀ i ∈ held, table i ≠ none

namespace Borrowed

theorem refl (base : ι → Option α) : Borrowed base [] base where
  nodup := List.nodup_nil
  same _ _ := rfl
  free _ h := absurd h List.not_mem_nil
  used _ h := absurd h List.not_mem_nil

theorem perm (h : Borrowed base held table) (hperm : held.Perm other) : Borrowed base other table where
  nodup := hperm.nodup_iff.mp h.nodup
  same i hi := h.same i fun hmem => hi (hperm.mem_iff.mp hmem)
  free i hi := h.free i (hperm.mem_iff.mpr hi)
  used i hi := h.used i (hperm.mem_iff.mpr hi)

/-- A free slot is none of those taken. -/
theorem not_mem (h : Borrowed base held table) (hi : table i = none) : i ∉ held := fun hmem => h.used i hmem hi

/-- **The table is what it has been** exactly when nothing is left to give back. -/
theorem eq_iff (h : Borrowed base held table) : table = base ↔ held = [] := by
  constructor
  · intro heq
    refine List.eq_nil_iff_forall_not_mem.mpr fun i hi => ?_
    exact h.used i hi ((congrFun heq i).trans (h.free i hi))
  · intro hnil
    funext i
    exact h.same i (by rw [hnil]; exact List.not_mem_nil)

variable [DecidableEq ι]

/-- Take a slot. -/
theorem take (h : Borrowed base held table) (hi : table i = none) (a : α) :
    Borrowed base (i :: held) (Function.update table i (some a)) := by
  have hmem := h.not_mem hi
  refine ⟨List.nodup_cons.mpr ⟨hmem, h.nodup⟩, fun j hj => ?_, fun j hj => ?_, fun j hj => ?_⟩
  · rw [List.mem_cons, not_or] at hj
    obtain ⟨hne, hj⟩ := hj
    rw [Function.update_of_ne hne, h.same j hj]
  · rcases List.mem_cons.mp hj with rfl | hj
    · rw [← h.same j hmem, hi]
    · exact h.free j hj
  · rcases eq_or_ne j i with rfl | hne
    · rw [Function.update_self]
      exact Option.some_ne_none a
    · rw [Function.update_of_ne hne]
      exact h.used j ((List.mem_cons.mp hj).resolve_left hne)

/-- Give a slot back. -/
theorem give (h : Borrowed base (i :: held) table) : Borrowed base held (Function.update table i none) := by
  obtain ⟨hmem, hnodup⟩ := List.nodup_cons.mp h.nodup
  refine ⟨hnodup, fun j hj => ?_, fun j hj => h.free j (List.mem_cons_of_mem i hj), fun j hj => ?_⟩
  · rcases eq_or_ne j i with rfl | hne
    · rw [Function.update_self, h.free j List.mem_cons_self]
    · rw [Function.update_of_ne hne, h.same j fun hmem => (List.mem_cons.mp hmem).elim hne hj]
  · have hne : j ≠ i := fun heq => hmem (heq ▸ hj)
    rw [Function.update_of_ne hne]
    exact h.used j (List.mem_cons_of_mem i hj)

end Borrowed

end Onixs
