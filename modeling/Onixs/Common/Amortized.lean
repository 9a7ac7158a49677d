import Onixs.Common.Run
import Mathlib.Algebra.BigOperators.Group.Finset.Piecewise
import Mathlib.Algebra.Order.BigOperators.Group.Finset
import Mathlib.Algebra.Order.BigOperators.Group.List
import Mathlib.Algebra.Ring.Nat
import Mathlib.Data.List.Infix

/-!
# Potentials

To show that a machine gets somewhere, one gives its states a potential that every operation lowers by
what it pays, up to what it may gain: an operation that pays nothing need not make progress, and one
that gains may undo some. Either the run has been where it was to go, or what it has paid is at most
the potential at the start and what it has gained (`Onixs.Run.reached_or_paid`). When nothing is gained
and what is paid is exactly what the potential falls by, the potential is the time it takes
(`Onixs.Run.reached_exactly`).

A potential is often a sum over the parts of the state. A step that changes few of them is compared part
by part (`Onixs.Run.sum_add_le`, `Onixs.Run.sum_add_eq`).
-/

namespace Onixs

namespace Run

section Potential

variable {S Op R : Type} {step : S → Op → Option (R × S)} {Inv Done : S → Prop} {φ : S → ℕ} {legal : S → Op → Prop}
  {pay gain : Op → ℕ}

/-- The run has been in such a state. -/
def Reached (step : S → Op → Option (R × S)) (Done : S → Prop) (s : S) (ops : List Op) : Prop :=
  ∃ pre u, pre <+: ops ∧ exec step s pre = some u ∧ Done u

theorem Reached.cons {s s' : S} {op : Op} {ops : List Op} {r : R} (hstep : step s op = some (r, s'))
    (h : Reached step Done s' ops) : Reached step Done s (op :: ops) := by
  obtain ⟨pre, u, hpre, hexec, hu⟩ := h
  exact ⟨op :: pre, u, List.cons_prefix_cons.mpr ⟨rfl, hpre⟩, exec_cons.mpr ⟨r, s', hstep, hexec⟩, hu⟩

/-- A run whose legal steps do not stop has an end. -/
theorem exists_exec (hstep : ∀ s op, Inv s → legal s op → ∃ r t, step s op = some (r, t) ∧ Inv t) :
    ∀ ops s, Inv s → Along step legal s ops → ∃ t, exec step s ops = some t := by
  intro ops
  induction ops with
  | nil => exact fun s _ _ => ⟨s, rfl⟩
  | cons op ops ih =>
    rintro s hs ⟨hl, hrest⟩
    obtain ⟨r, s', hrun, hs'⟩ := hstep s op hs hl
    obtain ⟨t, ht⟩ := ih s' hs' (hrest r s' hrun)
    exact ⟨t, exec_cons.mpr ⟨r, s', hrun, ht⟩⟩

/-- **A run that has not arrived has not paid more** than the potential and what it has gained. -/
theorem reached_or_paid (hstep : ∀ s op r t, Inv s → legal s op → step s op = some (r, t) →
      Done t ∨ (Inv t ∧ φ t + pay op ≤ φ s + gain op)) :
    ∀ ops s t, Inv s → Along step legal s ops → exec step s ops = some t →
      Reached step Done s ops ∨ (Inv t ∧ φ t + (ops.map pay).sum ≤ φ s + (ops.map gain).sum) := by
  intro ops
  induction ops with
  | nil =>
    intro s t hs _ hexec
    obtain rfl := Option.some.inj hexec
    exact Or.inr ⟨hs, le_refl _⟩
  | cons op ops ih =>
    rintro s t hs ⟨hl, hrest⟩ hexec
    obtain ⟨r, s', hrun, hexec⟩ := exec_cons.mp hexec
    rcases hstep s op r s' hs hl hrun with hdone | ⟨hs', hle⟩
    · exact Or.inl ⟨[op], s', List.cons_prefix_cons.mpr ⟨rfl, List.nil_prefix⟩,
        exec_cons.mpr ⟨r, s', hrun, rfl⟩, hdone⟩
    · rcases ih s' t hs' (hrest r s' hrun) hexec with hreached | ⟨ht, hle'⟩
      · exact Or.inl (hreached.cons hrun)
      · refine Or.inr ⟨ht, ?_⟩
        simp only [List.map_cons, List.sum_cons]
        omega

/-- **The potential is the time it takes**, when each step pays one and gains nothing. -/
theorem reached_exactly {op : Op} (hpos : ∀ s, Inv s → 1 ≤ φ s) (hnot : ∀ s, Inv s → ¬Done s)
    (hstep : ∀ s r t, Inv s → legal s op → step s op = some (r, t) →
      (Done t ∧ φ s = 1) ∨ (Inv t ∧ φ t + 1 = φ s)) :
    ∀ n s t, Inv s → n ≤ φ s → Along step legal s (List.replicate n op) →
      exec step s (List.replicate n op) = some t → (Done t ↔ n = φ s) := by
  intro n
  induction n with
  | zero =>
    intro s t hs _ _ hexec
    obtain rfl := Option.some.inj hexec
    refine iff_of_false (hnot _ hs) ?_
    have := hpos _ hs
    omega
  | succ n ih =>
    rintro s t hs hle ⟨hl, hrest⟩ hexec
    obtain ⟨r, s', hrun, hexec⟩ := exec_cons.mp hexec
    rcases hstep s r s' hs hl hrun with ⟨hdone, hone⟩ | ⟨hs', hfall⟩
    · obtain rfl : n = 0 := by omega
      obtain rfl := Option.some.inj hexec
      exact iff_of_true hdone (by omega)
    · rw [ih s' t hs' (by omega) (hrest r s' hrun) hexec]
      omega

end Potential

section Sums

variable {ι : Type} [DecidableEq ι] {parts : Finset ι} {f g : ι → ℕ} {i k : ι} {paid gained : ℕ}

/-- One part pays, another may gain, and the rest do not grow. -/
theorem sum_add_le (hi : i ∈ parts) (hself : f i + paid ≤ g i)
    (hother : ∀ j ∈ parts, j ≠ i → f j ≤ g j + if j = k then gained else 0) :
    ∑ j ∈ parts, f j + paid ≤ ∑ j ∈ parts, g j + gained := by
  have hrest : ∑ j ∈ parts.erase i, f j ≤ ∑ j ∈ parts.erase i, (g j + if j = k then gained else 0) :=
    Finset.sum_le_sum fun j hj => hother j (Finset.mem_of_mem_erase hj) (Finset.ne_of_mem_erase hj)
  have hgained : ∑ j ∈ parts.erase i, (if j = k then gained else 0) ≤ gained := by
    rw [Finset.sum_ite_eq']
    split
    · exact le_refl _
    · exact Nat.zero_le _
  rw [Finset.sum_add_distrib] at hrest
  rw [← Finset.add_sum_erase parts f hi, ← Finset.add_sum_erase parts g hi]
  omega

/-- One part pays, and the rest stay. -/
theorem sum_add_eq (hi : i ∈ parts) (hself : f i + paid = g i) (hother : ∀ j ∈ parts, j ≠ i → f j = g j) :
    ∑ j ∈ parts, f j + paid = ∑ j ∈ parts, g j := by
  have hrest : ∑ j ∈ parts.erase i, f j = ∑ j ∈ parts.erase i, g j :=
    Finset.sum_congr rfl fun j hj => hother j (Finset.mem_of_mem_erase hj) (Finset.ne_of_mem_erase hj)
  rw [← Finset.add_sum_erase parts f hi, ← Finset.add_sum_erase parts g hi]
  omega

end Sums

end Run

end Onixs
