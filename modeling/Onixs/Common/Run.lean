import Mathlib.Logic.Basic

/-!
# Runs of a partial machine

A machine whose step may stop: `step s op` is the result and the next state, or
nothing. The file says what it is for a property of single steps to hold all along
the run of a list of operations, and how an invariant carries such properties from
the step to the run.

Three readings of a run occur. `Onixs.Run.Along` follows the run as far as it goes
and asks something of every operation at the state it is given, which is how one says
that a run is legal; `Onixs.Run.Meets` asks in addition that the run never stops and
that every step satisfies a postcondition; `Onixs.Run.exec` is the state at the end.
-/

namespace Onixs

namespace Run

variable {S Op R : Type} (step : S → Op → Option (R × S))

/-- Every operation of the run satisfies `P` at the state where it is executed. -/
def Along (P : S → Op → Prop) : S → List Op → Prop
  | _, [] => True
  | s, op :: ops => P s op ∧ ∀ r s', step s op = some (r, s') → Along P s' ops

/-- No step of the run stops, and each satisfies the postcondition. -/
def Meets (post : S → Op → R → S → Prop) : S → List Op → Prop
  | _, [] => True
  | s, op :: ops => ∃ r s', step s op = some (r, s') ∧ post s op r s' ∧ Meets post s' ops

/-- The state after a run, if it does not stop. -/
def exec : S → List Op → Option S
  | s, [] => some s
  | s, op :: ops => (step s op).bind fun p => exec p.2 ops

variable {step}

theorem exec_cons {s : S} {op : Op} {ops : List Op} {t : S} :
    exec step s (op :: ops) = some t ↔
      ∃ r s', step s op = some (r, s') ∧ exec step s' ops = some t := by
  rw [exec, Option.bind_eq_some_iff]
  exact ⟨fun ⟨⟨r, s'⟩, h, h'⟩ => ⟨r, s', h, h'⟩, fun ⟨r, s', h, h'⟩ => ⟨(r, s'), h, h'⟩⟩

theorem exec_append (s : S) (ops ops' : List Op) :
    exec step s (ops ++ ops') = (exec step s ops).bind fun t => exec step t ops' := by
  induction ops generalizing s with
  | nil => rfl
  | cons op ops ih =>
    rw [List.cons_append, exec, exec, Option.bind_assoc]
    exact congrArg _ (funext fun p => ih p.2)

/-- **The step decides the run.** When, under an invariant, a legal step meets its
postcondition exactly under a condition, and a step that meets it keeps the invariant,
then a legal run meets the postcondition exactly when the condition holds all along. -/
theorem meets_iff_along (Inv : S → Prop) {legal cond : S → Op → Prop}
    {post : S → Op → R → S → Prop}
    (hstep : ∀ s op, Inv s → legal s op →
      ((∃ r s', step s op = some (r, s') ∧ post s op r s') ↔ cond s op))
    (hinv : ∀ s op r s', Inv s → legal s op → step s op = some (r, s') → post s op r s' → Inv s') :
    ∀ ops s, Inv s → Along step legal s ops → (Meets step post s ops ↔ Along step cond s ops) := by
  intro ops
  induction ops with
  | nil => exact fun s _ _ => Iff.rfl
  | cons op ops ih =>
    rintro s hs ⟨hl, hlegal⟩
    constructor
    · rintro ⟨r, s', hrun, hpost, hmeets⟩
      refine ⟨(hstep s op hs hl).mp ⟨r, s', hrun, hpost⟩, fun r₁ s₁ h₁ => ?_⟩
      obtain ⟨rfl, rfl⟩ : r = r₁ ∧ s' = s₁ := by simpa using hrun.symm.trans h₁
      exact (ih s' (hinv s op r s' hs hl hrun hpost) (hlegal r s' hrun)).mp hmeets
    · rintro ⟨hc, hcond⟩
      obtain ⟨r, s', hrun, hpost⟩ := (hstep s op hs hl).mpr hc
      exact ⟨r, s', hrun, hpost, (ih s' (hinv s op r s' hs hl hrun hpost) (hlegal r s' hrun)).mpr
        (hcond r s' hrun)⟩

/-- A condition that can be decided can be decided along a run. -/
instance Along.decidable {P : S → Op → Prop} [∀ s op, Decidable (P s op)] :
    ∀ s ops, Decidable (Along step P s ops)
  | _, [] => isTrue trivial
  | s, op :: ops =>
      have := fun s' => Along.decidable (P := P) s' ops
      decidable_of_iff
        (P s op ∧ ((step s op).elim true fun p => decide (Along step P p.2 ops)) = true) <| by
        refine and_congr_right fun _ => ?_
        cases step s op with
        | none => simp
        | some p =>
          constructor
          · intro h r s' hp
            obtain rfl := Option.some.inj hp
            exact of_decide_eq_true h
          · exact fun h => decide_eq_true (h p.1 p.2 rfl)

/-- What holds of every step holds along every run. -/
theorem along_of_forall {P : S → Op → Prop} (h : ∀ s op, P s op) : ∀ ops s, Along step P s ops
  | [], _ => trivial
  | _ :: ops, s => ⟨h s _, fun _ s' _ => along_of_forall h ops s'⟩

/-- Two conditions that hold along a run. -/
theorem Along.and {P Q : S → Op → Prop} {s : S} {ops : List Op} (h : Along step P s ops)
    (h' : Along step Q s ops) : Along step (fun s op => P s op ∧ Q s op) s ops := by
  induction ops generalizing s with
  | nil => exact trivial
  | cons op ops ih =>
    exact ⟨⟨h.1, h'.1⟩, fun r s' hrun => ih (h.2 r s' hrun) (h'.2 r s' hrun)⟩

/-- Two conditions that agree under an invariant agree along a run. -/
theorem along_congr (Inv : S → Prop) {P Q : S → Op → Prop}
    (hiff : ∀ s op, Inv s → (P s op ↔ Q s op))
    (hinv : ∀ s op r s', Inv s → step s op = some (r, s') → Inv s') :
    ∀ ops s, Inv s → (Along step P s ops ↔ Along step Q s ops) := by
  intro ops
  induction ops with
  | nil => exact fun _ _ => Iff.rfl
  | cons op ops ih =>
    intro s hs
    refine and_congr (hiff s op hs) (forall_congr' fun r => forall_congr' fun s' => ?_)
    exact imp_congr_right fun hstep => ih s' (hinv s op r s' hs hstep)

/-- The same along a legal run, where only legal steps need agree, and those that satisfy the condition
need keep the invariant. -/
theorem along_congr_of_legal (Inv : S → Prop) {legal P Q : S → Op → Prop}
    (hiff : ∀ s op, Inv s → legal s op → (P s op ↔ Q s op))
    (hinv : ∀ s op r s', Inv s → legal s op → P s op → step s op = some (r, s') → Inv s') :
    ∀ ops s, Inv s → Along step legal s ops → (Along step P s ops ↔ Along step Q s ops) := by
  intro ops
  induction ops with
  | nil => exact fun _ _ _ => Iff.rfl
  | cons op ops ih =>
    rintro s hs ⟨hl, hlegal⟩
    constructor
    · rintro ⟨hp, hrest⟩
      exact ⟨(hiff s op hs hl).mp hp, fun r s' hstep =>
        (ih s' (hinv s op r s' hs hl hp hstep) (hlegal r s' hstep)).mp (hrest r s' hstep)⟩
    · rintro ⟨hq, hrest⟩
      have hp := (hiff s op hs hl).mpr hq
      exact ⟨hp, fun r s' hstep =>
        (ih s' (hinv s op r s' hs hl hp hstep) (hlegal r s' hstep)).mpr (hrest r s' hstep)⟩

/-- A condition along a run of two parts. -/
theorem along_append {P : S → Op → Prop} {s : S} {ops ops' : List Op} :
    Along step P s (ops ++ ops') ↔ Along step P s ops ∧ ∀ t, exec step s ops = some t → Along step P t ops' := by
  induction ops generalizing s with
  | nil =>
    constructor
    · intro h
      exact ⟨trivial, fun t ht => Option.some.inj ht ▸ h⟩
    · rintro ⟨-, h⟩
      exact h s rfl
  | cons op ops ih =>
    constructor
    · rintro ⟨hop, hrest⟩
      refine ⟨⟨hop, fun r u hrun => (ih.mp (hrest r u hrun)).1⟩, fun t ht => ?_⟩
      obtain ⟨r, u, hrun, hexec⟩ := exec_cons.mp ht
      exact (ih.mp (hrest r u hrun)).2 t hexec
    · rintro ⟨⟨hop, hrest⟩, h⟩
      exact ⟨hop, fun r u hrun => ih.mpr ⟨hrest r u hrun, fun t ht => h t (exec_cons.mpr ⟨r, u, hrun, ht⟩)⟩⟩

/-- One more operation. -/
theorem along_concat {P : S → Op → Prop} {s : S} {ops : List Op} {op : Op} (h : Along step P s ops)
    (hlast : ∀ t, exec step s ops = some t → P t op) : Along step P s (ops ++ [op]) := by
  induction ops generalizing s with
  | nil => exact ⟨hlast s rfl, fun _ _ _ => trivial⟩
  | cons a ops ih =>
    exact ⟨h.1, fun r s' hrun => ih (h.2 r s' hrun) fun t ht => hlast t (exec_cons.mpr ⟨r, s', hrun, ht⟩)⟩

/-- The last step of a run that meets the postcondition meets it. -/
theorem Meets.last {post : S → Op → R → S → Prop} {s : S} {ops : List Op} {op : Op}
    (h : Meets step post s (ops ++ [op])) :
    ∃ t r t', exec step s ops = some t ∧ step t op = some (r, t') ∧ post t op r t' := by
  induction ops generalizing s with
  | nil =>
    obtain ⟨r, t', hrun, hpost, -⟩ := h
    exact ⟨s, r, t', rfl, hrun, hpost⟩
  | cons a ops ih =>
    obtain ⟨r, s', hrun, -, hmeets⟩ := h
    obtain ⟨t, r', t', hexec, hlast⟩ := ih hmeets
    exact ⟨t, r', t', exec_cons.mpr ⟨r, s', hrun, hexec⟩, hlast⟩

/-- A condition on the states that a run meets holds at its end. -/
theorem Meets.at_end {P : S → Prop} {s t : S} {ops : List Op} (h : Meets step (fun _ _ _ t => P t) s ops)
    (hs : P s) (hexec : exec step s ops = some t) : P t := by
  induction ops generalizing s with
  | nil => exact Option.some.inj hexec ▸ hs
  | cons op ops ih =>
    obtain ⟨r, s', hrun, hpost, hmeets⟩ := h
    obtain ⟨r', u, hrun', hexec⟩ := exec_cons.mp hexec
    obtain ⟨-, rfl⟩ := Prod.mk.inj (Option.some.inj (hrun.symm.trans hrun'))
    exact ih hmeets hpost hexec

/-- **A step that meets its postcondition and keeps the invariant** makes a run whose operations
satisfy the condition meet it all along. -/
theorem meets_of_inv (Inv : S → Prop) {cond : S → Op → Prop} {post : S → Op → R → S → Prop}
    (hstep : ∀ s op, Inv s → cond s op →
      ∃ r s', step s op = some (r, s') ∧ post s op r s' ∧ Inv s') :
    ∀ ops s, Inv s → Along step cond s ops → Meets step post s ops := by
  intro ops
  induction ops with
  | nil => exact fun _ _ _ => trivial
  | cons op ops ih =>
    rintro s hs ⟨hc, hrest⟩
    obtain ⟨r, s', hrun, hpost, hs'⟩ := hstep s op hs hc
    exact ⟨r, s', hrun, hpost, ih s' hs' (hrest r s' hrun)⟩

/-- **A property of the steps that the invariant gives** holds along a run whose operations satisfy the
condition. -/
theorem along_of_inv (Inv : S → Prop) {cond post : S → Op → Prop} (hpost : ∀ s op, Inv s → cond s op → post s op)
    (hinv : ∀ s op r s', Inv s → cond s op → step s op = some (r, s') → Inv s') :
    ∀ ops s, Inv s → Along step cond s ops → Along step post s ops := by
  intro ops
  induction ops with
  | nil => exact fun _ _ _ => trivial
  | cons op ops ih =>
    rintro s hs ⟨hc, hrest⟩
    exact ⟨hpost s op hs hc, fun r s' hrun => ih s' (hinv s op r s' hs hc hrun) (hrest r s' hrun)⟩

/-- **An invariant of the steps holds at the end of a run** whose operations all satisfy the
condition the step needs. -/
theorem inv_of_exec (Inv : S → Prop) {cond : S → Op → Prop}
    (hinv : ∀ s op r s', Inv s → cond s op → step s op = some (r, s') → Inv s') :
    ∀ ops s t, Inv s → Along step cond s ops → exec step s ops = some t → Inv t := by
  intro ops
  induction ops with
  | nil =>
    intro s t hs _ h
    exact Option.some.inj h ▸ hs
  | cons op ops ih =>
    rintro s t hs ⟨hc, hrest⟩ h
    obtain ⟨r, s', hrun, hexec⟩ := exec_cons.mp h
    exact ih s' t (hinv s op r s' hs hc hrun) (hrest r s' hrun) hexec

/-- **A property of every state a run reaches**, which the invariant gives, holds of them exactly when no operation
breaks it: the good ones keep the invariant, and behind any other the property fails. -/
theorem forall_reached_iff (Inv : S → Prop) {P : S → Prop} {legal : S → Op → Prop} {good : Op → Prop}
    (hP : ∀ s, Inv s → P s)
    (hgood : ∀ s op r s', Inv s → legal s op → good op → step s op = some (r, s') → Inv s')
    (hbad : ∀ s op r s', Inv s → legal s op → ¬good op → step s op = some (r, s') → ¬P s') :
    ∀ ops s t, Inv s → Along step legal s ops → exec step s ops = some t →
      ((∀ pre u, pre <+: ops → exec step s pre = some u → P u) ↔ ∀ op ∈ ops, good op) := by
  intro ops
  induction ops with
  | nil =>
    intro s t hs _ _
    refine iff_of_true (fun pre u hpre hexec => ?_) fun op hop => absurd hop List.not_mem_nil
    rw [List.prefix_nil.mp hpre] at hexec
    exact Option.some.inj hexec ▸ hP s hs
  | cons op ops ih =>
    rintro s t hs ⟨hl, hlegal⟩ hexec
    obtain ⟨r, s', hstep, hend⟩ := exec_cons.mp hexec
    constructor
    · intro h
      have hs' : P s' := h [op] s' (List.cons_prefix_cons.mpr ⟨rfl, List.nil_prefix⟩)
        (exec_cons.mpr ⟨r, s', hstep, rfl⟩)
      have hop : good op := Classical.byContradiction fun hop => hbad s op r s' hs hl hop hstep hs'
      have hrest := (ih s' t (hgood s op r s' hs hl hop hstep) (hlegal r s' hstep) hend).mp fun pre u hpre hu =>
        h (op :: pre) u (List.cons_prefix_cons.mpr ⟨rfl, hpre⟩) (exec_cons.mpr ⟨r, s', hstep, hu⟩)
      exact List.forall_mem_cons.mpr ⟨hop, hrest⟩
    · intro h pre u hpre hu
      obtain ⟨hop, hrest⟩ := List.forall_mem_cons.mp h
      cases pre with
      | nil => exact Option.some.inj hu ▸ hP s hs
      | cons a pre =>
        obtain ⟨rfl, hpre'⟩ := List.cons_prefix_cons.mp hpre
        obtain ⟨r', v, hstep', hu'⟩ := exec_cons.mp hu
        obtain ⟨-, rfl⟩ := Prod.mk.inj (Option.some.inj (hstep.symm.trans hstep'))
        exact (ih s' t (hgood s a r s' hs hl hop hstep) (hlegal r s' hstep) hend).mpr hrest pre u hpre' hu'

end Run

end Onixs
