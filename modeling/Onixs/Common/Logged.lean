import Mathlib.Logic.Basic

/-!
# Computations with a log

A computation that may stop, with the list of what it has touched before: the accesses to an array,
for instance, with the one at which it stops as the last. What is said of every entry of the log goes
through the steps of the computation (`Onixs.Logged.all_bind`).
-/

namespace Onixs

/-- A value, if there is one, and what was touched on the way. -/
structure Logged (E α : Type) where
  /-- What was touched, in order. -/
  log : List E
  /-- The value. -/
  val : Option α

namespace Logged

variable {E α β : Type}

/-- A value without a trace. -/
def lift (o : Option α) : Logged E α := ⟨[], o⟩

/-- One touch, which may be the last. -/
def touch (e : E) (o : Option α) : Logged E α := ⟨[e], o⟩

instance : Monad (Logged E) where
  pure a := ⟨[], some a⟩
  bind x f := ⟨x.log ++ (x.val.elim [] fun a => (f a).log), x.val.bind fun a => (f a).val⟩

/-- Everything that was touched satisfies `P`. -/
def All (P : E → Prop) (x : Logged E α) : Prop := ∀ e ∈ x.log, P e

variable {P : E → Prop}

@[simp] theorem val_pure (a : α) : (pure a : Logged E α).val = some a := rfl

@[simp] theorem val_lift (o : Option α) : (lift o : Logged E α).val = o := rfl

@[simp] theorem val_touch (e : E) (o : Option α) : (touch e o).val = o := rfl

@[simp] theorem val_bind (x : Logged E α) (f : α → Logged E β) :
    (x >>= f).val = x.val.bind fun a => (f a).val := rfl

/-- A step that has a value and touches nothing. -/
theorem lift_some_bind (a : α) (f : α → Logged E β) : (lift (some a) >>= f) = f a := rfl

/-- A step that has a value and touches one thing. -/
theorem touch_some_bind (e : E) (a : α) (f : α → Logged E β) :
    (touch e (some a) >>= f) = ⟨e :: (f a).log, (f a).val⟩ := rfl

@[simp] theorem all_pure (a : α) : All P (pure a : Logged E α) :=
  fun _ he => absurd he (List.not_mem_nil)

@[simp] theorem all_lift (o : Option α) : All P (lift o : Logged E α) :=
  fun _ he => absurd he (List.not_mem_nil)

@[simp] theorem all_touch {e : E} {o : Option α} : All P (touch e o) ↔ P e := by
  simp [All, touch]

/-- **The log of two steps.** -/
theorem all_bind {x : Logged E α} {f : α → Logged E β} :
    All P (x >>= f) ↔ All P x ∧ ∀ a, x.val = some a → All P (f a) := by
  have hlog : (x >>= f).log = x.log ++ (x.val.elim [] fun a => (f a).log) := rfl
  rw [All, hlog]
  cases hx : x.val with
  | none => simp [All]
  | some a => simp [All, or_imp, forall_and]

/-- The log of two steps, the first with a value that is known. -/
theorem all_bind_of_val {x : Logged E α} {f : α → Logged E β} {a : α} (h : x.val = some a) :
    All P (x >>= f) ↔ All P x ∧ All P (f a) := by
  rw [all_bind]
  refine and_congr_right fun _ => ⟨fun hall => hall a h, fun hall b hb => ?_⟩
  obtain rfl := Option.some.inj (h.symm.trans hb)
  exact hall

/-- A last step that touches nothing. -/
theorem all_bind_pure {x : Logged E α} {g : α → β} : All P (x >>= fun a => pure (g a)) ↔ All P x := by
  rw [all_bind]
  exact and_iff_left fun a _ => all_pure (g a)

/-- The log of a step after a value that is known. -/
theorem all_lift_bind {o : Option α} {f : α → Logged E β} {a : α} (h : o = some a) :
    All P (lift o >>= f) ↔ All P (f a) := by
  rw [all_bind_of_val h, and_iff_right (all_lift o)]

end Logged

end Onixs
