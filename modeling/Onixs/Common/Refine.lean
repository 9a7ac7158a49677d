import Mathlib.Data.List.Basic
import Onixs.Common.Run

/-!
# One machine does what another says

Runs with their answers: `Onixs.Refine.trace` is what the steps of a run return and the state at its end, when no step
fails. A machine refines a specification under a relation of their states when it answers every step the specification
allows as the specification does, and keeps the relation; its runs then give the same answers
(`Onixs.Refine.trace_of_step`). Where only some operations are legal, the legal runs of the machine do
(`Onixs.Refine.trace_along`).
-/

namespace Onixs

namespace Refine

variable {S A Op R : Type}

/-- The answers of a run and the state at its end. -/
def trace (step : S → Op → Option (R × S)) : S → List Op → Option (List R × S)
  | s, [] => some ([], s)
  | s, op :: ops => do
      let (r, s) ← step s op
      let (rs, s) ← trace step s ops
      return (r :: rs, s)

variable {step : S → Op → Option (R × S)} {spec : A → Op → Option (R × A)}

theorem trace_cons {s t : S} {op : Op} {ops : List Op} {rs : List R} :
    trace step s (op :: ops) = some (rs, t) ↔
      ∃ r s' rs', step s op = some (r, s') ∧ trace step s' ops = some (rs', t) ∧ rs = r :: rs' := by
  rw [trace]
  constructor
  · intro h
    obtain ⟨⟨r, s'⟩, hstep, h⟩ := Option.bind_eq_some_iff.mp h
    obtain ⟨⟨rs', t'⟩, hrest, h⟩ := Option.bind_eq_some_iff.mp h
    obtain ⟨rfl, rfl⟩ := Prod.mk.inj (Option.some.inj h)
    exact ⟨r, s', rs', hstep, hrest, rfl⟩
  · rintro ⟨r, s', rs', hstep, hrest, rfl⟩
    refine Option.bind_eq_some_iff.mpr ⟨(r, s'), hstep, ?_⟩
    exact Option.bind_eq_some_iff.mpr ⟨(rs', t), hrest, rfl⟩

/-- **Refinement of a step is refinement of runs.** -/
theorem trace_of_step (Rel : S → A → Prop)
    (hstep : ∀ s a op r b, Rel s a → spec a op = some (r, b) → ∃ t, step s op = some (r, t) ∧ Rel t b) :
    ∀ ops s a rs b, Rel s a → trace spec a ops = some (rs, b) → ∃ t, trace step s ops = some (rs, t) ∧ Rel t b := by
  intro ops
  induction ops with
  | nil =>
    intro s a rs b hrel h
    obtain ⟨rfl, rfl⟩ := Prod.mk.inj (Option.some.inj h)
    exact ⟨s, rfl, hrel⟩
  | cons op ops ih =>
    intro s a rs b hrel h
    obtain ⟨r, a', rs', hspec, hrest, rfl⟩ := trace_cons.mp h
    obtain ⟨s', hs', hrel'⟩ := hstep s a op r a' hrel hspec
    obtain ⟨t, ht, hrel''⟩ := ih s' a' rs' b hrel' hrest
    exact ⟨t, trace_cons.mpr ⟨r, s', rs', hs', ht, rfl⟩, hrel''⟩

/-- **Refinement of legal steps is refinement of legal runs.** -/
theorem trace_along (Rel : S → A → Prop) {legal : S → Op → Prop}
    (hstep : ∀ s a op, Rel s a → legal s op →
      ∃ r t b, step s op = some (r, t) ∧ spec a op = some (r, b) ∧ Rel t b) :
    ∀ ops s a, Rel s a → Run.Along step legal s ops →
      ∃ rs t b, trace step s ops = some (rs, t) ∧ trace spec a ops = some (rs, b) ∧ Rel t b := by
  intro ops
  induction ops with
  | nil => exact fun s a hrel _ => ⟨[], s, a, rfl, rfl, hrel⟩
  | cons op ops ih =>
    rintro s a hrel ⟨hlegal, hrest⟩
    obtain ⟨r, s', a', hs', ha', hrel'⟩ := hstep s a op hrel hlegal
    obtain ⟨rs, t, b, ht, hb, hrel''⟩ := ih s' a' hrel' (hrest r s' hs')
    exact ⟨r :: rs, t, b, trace_cons.mpr ⟨r, s', rs, hs', ht, rfl⟩, trace_cons.mpr ⟨r, a', rs, ha', hb, rfl⟩, hrel''⟩

end Refine

end Onixs
