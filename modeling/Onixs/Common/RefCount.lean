import Mathlib.Algebra.BigOperators.Group.Finset.Basic
import Mathlib.Data.Finset.Card
import Mathlib.Data.Finset.Insert
import Mathlib.Logic.Function.Basic

/-!
# Counting references

A finite set `S` of places, each of which refers to an object or to nothing
(`T : R → Option P`). `Onixs.refCount S T p` is the number of places that refer to
`p`. The file says how the count moves when one place changes: filling an empty place
adds one to the count of the new object, emptying a place takes one from the count of
the old, and nothing else moves.

A program that keeps a counter with every object keeps it exact as long as each of its
counter updates is one of these two steps.
-/

namespace Onixs

variable {R P : Type} [DecidableEq P] (S : Finset R)

/-- The number of places in `S` that refer to `p`. -/
def refCount (T : R → Option P) (p : P) : ℕ := (S.filter fun r => T r = some p).card

variable {S} {T : R → Option P} {r : R} {p q : P}

theorem refCount_congr {T' : R → Option P} (h : ∀ r ∈ S, T' r = T r) (p : P) :
    refCount S T' p = refCount S T p :=
  congrArg Finset.card (Finset.filter_congr fun r hr => by rw [h r hr])

/-- An object without references has count zero, and conversely. -/
theorem refCount_eq_zero : refCount S T p = 0 ↔ ∀ r ∈ S, T r ≠ some p := by
  rw [refCount, Finset.card_eq_zero, Finset.filter_eq_empty_iff]

theorem refCount_pos (hr : r ∈ S) (h : T r = some p) : 0 < refCount S T p :=
  Nat.pos_of_ne_zero fun h0 => refCount_eq_zero.mp h0 r hr h

/-- With one reference only, there is no other place that refers to the object. -/
theorem eq_of_refCount_le_one {r' : R} (hle : refCount S T p ≤ 1) (hr : r ∈ S) (h : T r = some p)
    (hr' : r' ∈ S) (h' : T r' = some p) : r' = r :=
  Finset.card_le_one.mp hle r' (Finset.mem_filter.mpr ⟨hr', h'⟩) r (Finset.mem_filter.mpr ⟨hr, h⟩)

/-- With more than one reference, every place that refers to the object has another one. -/
theorem exists_ne_of_one_lt_refCount (hlt : 1 < refCount S T p) (r : R) :
    ∃ r' ∈ S, T r' = some p ∧ r' ≠ r := by
  obtain ⟨a, ha, b, hb, hab⟩ := Finset.one_lt_card.mp hlt
  rw [Finset.mem_filter] at ha hb
  by_cases har : a = r
  · exact ⟨b, hb.1, hb.2, fun hbr => hab (har.trans hbr.symm)⟩
  · exact ⟨a, ha.1, ha.2, har⟩

variable [DecidableEq R]

/-- **Emptying a place** takes one from the count of what it referred to. -/
theorem refCount_update_none (hr : r ∈ S) (h : T r = some q) (p : P) :
    refCount S T p = refCount S (Function.update T r none) p + if p = q then 1 else 0 := by
  have hfilter : S.filter (fun r' => Function.update T r none r' = some p)
      = (S.filter fun r' => T r' = some p).erase r := by
    ext r'
    rw [Finset.mem_erase, Finset.mem_filter, Finset.mem_filter]
    by_cases heq : r' = r
    · simp [heq]
    · simp [heq]
  rw [refCount, refCount, hfilter]
  by_cases hpq : p = q
  · subst hpq
    rw [if_pos rfl, Finset.card_erase_add_one (Finset.mem_filter.mpr ⟨hr, h⟩)]
  · rw [if_neg hpq, Finset.erase_eq_of_notMem, Nat.add_zero]
    rw [Finset.mem_filter, h, not_and]
    exact fun _ hc => hpq (Option.some.inj hc).symm

/-- **Filling an empty place** adds one to the count of what it refers to now. -/
theorem refCount_update_some (hr : r ∈ S) (h : T r = none) (p : P) :
    refCount S (Function.update T r (some q)) p = refCount S T p + if p = q then 1 else 0 := by
  have hback : Function.update (Function.update T r (some q)) r none = T := by
    rw [Function.update_idem, ← h, Function.update_eq_self]
  have hkey := refCount_update_none (T := Function.update T r (some q)) hr
    (Function.update_self r (some q) T) p
  rwa [hback] at hkey

/-- **One summand changes.** -/
theorem sum_add_of_eq_off {f g : R → ℕ} (hr : r ∈ S) (h : ∀ r' ∈ S, r' ≠ r → g r' = f r') :
    ∑ x ∈ S, g x + f r = ∑ x ∈ S, f x + g r := by
  have hrest : ∑ x ∈ S.erase r, g x = ∑ x ∈ S.erase r, f x :=
    Finset.sum_congr rfl fun x hx => h x (Finset.mem_of_mem_erase hx) (Finset.ne_of_mem_erase hx)
  rw [← Finset.add_sum_erase S f hr, ← Finset.add_sum_erase S g hr, hrest]
  omega

omit [DecidableEq P] in
/-- **A list of places**: filling an empty one adds what it refers to now to the references. -/
theorem filterMap_update_perm {l : List R} (hnodup : l.Nodup) (hr : r ∈ l) (h : T r = none) :
    (l.filterMap (Function.update T r (some q))).Perm (q :: l.filterMap T) := by
  obtain ⟨a, b, rfl⟩ := List.append_of_mem hr
  have hout : ∀ l' : List R, r ∉ l' → l'.filterMap (Function.update T r (some q)) = l'.filterMap T :=
    fun l' hnot => List.filterMap_congr fun x hx =>
      Function.update_of_ne (ne_of_mem_of_not_mem hx hnot) _ _
  have hab := List.nodup_middle.mp hnodup
  have hnot := (List.nodup_cons.mp hab).1
  rw [List.filterMap_append, List.filterMap_append, List.filterMap_cons_some (Function.update_self r _ T),
    List.filterMap_cons_none h, hout a fun hm => hnot (List.mem_append_left b hm),
    hout b fun hm => hnot (List.mem_append_right a hm)]
  exact List.perm_middle

end Onixs
