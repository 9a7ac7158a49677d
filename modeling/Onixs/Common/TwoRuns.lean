import Onixs.Common.Run

/-!
# Two runs side by side

Two programs with values in `Option`, of which the second follows the first: where the first has a value the second has
one too, and the two values are related (`Onixs.Follows`). The rules follow the program. Two runs of a machine whose
operations correspond at the states of the first one (`Onixs.Run.Paired`) stay related when each step keeps them so
(`Onixs.Run.exec_of_paired`).
-/

namespace Onixs

variable {α β γ δ : Type}

/-- Where `x` has a value, `y` has a related one. -/
def Follows (R : α → β → Prop) (x : Option α) (y : Option β) : Prop := ∀ a, x = some a → ∃ b, y = some b ∧ R a b

namespace Follows

variable {R : α → β → Prop} {R' : γ → δ → Prop} {x : Option α} {y : Option β} {a : α} {b : β}

theorem some (h : R a b) : Follows R (some a) (Option.some b) :=
  fun _ ha => ⟨b, rfl, Option.some.inj ha ▸ h⟩

/-- **A step and then the rest.** -/
theorem bind {f : α → Option γ} {g : β → Option δ} (hx : Follows R x y)
    (hf : ∀ a b, x = Option.some a → R a b → Follows R' (f a) (g b)) : Follows R' (x.bind f) (y.bind g) := by
  intro c hc
  obtain ⟨a, ha, hc⟩ := Option.bind_eq_some_iff.mp hc
  obtain ⟨b, hb, hab⟩ := hx a ha
  obtain ⟨d, hd, hcd⟩ := hf a b ha hab c hc
  exact ⟨d, Option.bind_eq_some_iff.mpr ⟨b, hb, hd⟩, hcd⟩

/-- A step that is the same in both. -/
theorem bind_same {f : α → Option γ} {g : α → Option δ}
    (hf : ∀ a, x = Option.some a → Follows R' (f a) (g a)) : Follows R' (x.bind f) (x.bind g) := by
  intro c hc
  obtain ⟨a, ha, hc⟩ := Option.bind_eq_some_iff.mp hc
  obtain ⟨d, hd, hcd⟩ := hf a ha c hc
  exact ⟨d, Option.bind_eq_some_iff.mpr ⟨a, ha, hd⟩, hcd⟩

theorem imp {Q : α → β → Prop} (h : Follows R x y) (hR : ∀ a b, x = Option.some a → R a b → Q a b) :
    Follows Q x y := by
  intro a ha
  obtain ⟨b, hb, hab⟩ := h a ha
  exact ⟨b, hb, hR a b ha hab⟩

theorem map {f : α → γ} {g : β → δ} (h : Follows R x y) (hR : ∀ a b, x = Option.some a → R a b → R' (f a) (g b)) :
    Follows R' (x.map f) (y.map g) := by
  intro c hc
  obtain ⟨a, ha, rfl⟩ := Option.map_eq_some_iff.mp hc
  obtain ⟨b, hb, hab⟩ := h a ha
  exact ⟨g b, by rw [hb, Option.map_some], hR a b ha hab⟩

end Follows

namespace Run

variable {S T Op R R' : Type} {step : S → Op → Option (R × S)} {step' : T → Op → Option (R' × T)}

/-- **The operations of two runs correspond**, each pair at the state of the first run. -/
def Paired (step : S → Op → Option (R × S)) (V : S → Op → Op → Prop) : S → List Op → List Op → Prop
  | _, [], [] => True
  | s, op :: ops, op' :: ops' => V s op op' ∧ ∀ r t, step s op = some (r, t) → Paired step V t ops ops'
  | _, _, _ => False

/-- **Two runs side by side**: when each step of the second machine follows the corresponding step of the first, the
second run follows the first. -/
theorem exec_of_paired (Rel : S → T → Prop) {cond : S → Op → Prop} {V : S → Op → Op → Prop}
    (hstep : ∀ s s' op op', Rel s s' → cond s op → V s op op' →
      Follows (fun p p' => Rel p.2 p'.2) (step s op) (step' s' op')) :
    ∀ ops ops' s s', Rel s s' → Along step cond s ops → Paired step V s ops ops' →
      Follows Rel (exec step s ops) (exec step' s' ops') := by
  intro ops
  induction ops with
  | nil =>
    intro ops' s s' hrel _ hpair
    cases ops' with
    | nil => exact .some hrel
    | cons op' ops' => exact hpair.elim
  | cons op ops ih =>
    intro ops' s s' hrel halong hpair
    cases ops' with
    | nil => exact hpair.elim
    | cons op' ops' =>
      refine (hstep s s' op op' hrel halong.1 hpair.1).bind fun p p' hrun hrel' => ?_
      exact ih ops' p.2 p'.2 hrel' (halong.2 p.1 p.2 hrun) (hpair.2 p.1 p.2 hrun)

/-- **Runs that differ in one operation** are paired, where every operation corresponds to itself. -/
theorem paired_of_one {step : S → Op → Option (R × S)} {V : S → Op → Op → Prop} (hV : ∀ s op, V s op op) {op op' : Op}
    {post : List Op} : ∀ (pre : List Op) (s : S), (∀ t, exec step s pre = some t → V t op op') →
      Paired step V s (pre ++ op :: post) (pre ++ op' :: post) := by
  have hsame : ∀ (ops : List Op) (s : S), Paired step V s ops ops := by
    intro ops
    induction ops with
    | nil => exact fun _ => trivial
    | cons a ops ih => exact fun s => ⟨hV s a, fun _ t _ => ih t⟩
  intro pre
  induction pre with
  | nil => exact fun s h => ⟨h s rfl, fun _ t _ => hsame post t⟩
  | cons a pre ih =>
    intro s h
    exact ⟨hV s a, fun r u hrun => ih u fun t ht => h t (exec_cons.mpr ⟨r, u, hrun, ht⟩)⟩

end Run

end Onixs
