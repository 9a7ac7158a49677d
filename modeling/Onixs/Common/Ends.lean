import Mathlib.Logic.Basic

/-!
# Programs that stop only for one reason

A program with values in `Option` stops when it has no value. `Onixs.Ends stop x post` says
that `x` stops in no other situation than `stop`, and that its value satisfies `post`
when it has one. The rules follow the program: a step, and then the rest under what the
step has established.
-/

namespace Onixs

variable {α β : Type} {stop : Prop} {x : Option α} {post : α → Prop}

/-- `x` has no value only if `stop`, and its value satisfies `post`. -/
def Ends (stop : Prop) (x : Option α) (post : α → Prop) : Prop :=
  (x = none ∧ stop) ∨ ∃ a, x = some a ∧ post a

namespace Ends

theorem some {a : α} (h : post a) : Ends stop (some a) post := Or.inr ⟨a, rfl, h⟩

theorem none (h : stop) : Ends stop (none : Option α) post := Or.inl ⟨rfl, h⟩

/-- **A step and then the rest.** -/
theorem bind {f : α → Option β} {post' : β → Prop} (hx : Ends stop x post)
    (hf : ∀ a, post a → Ends stop (f a) post') : Ends stop (x.bind f) post' := by
  rcases hx with ⟨rfl, hstop⟩ | ⟨a, rfl, ha⟩
  · exact none hstop
  · exact hf a ha

theorem imp {post' : α → Prop} (h : Ends stop x post) (hpost : ∀ a, post a → post' a) :
    Ends stop x post' :=
  Or.imp_right (fun ⟨a, hx, ha⟩ => ⟨a, hx, hpost a ha⟩) h

/-- A value satisfies the postcondition. -/
theorem of_eq_some {a : α} (h : Ends stop x post) (hx : x = Option.some a) : post a := by
  rcases h with ⟨hnone, -⟩ | ⟨b, hb, hpost⟩
  · exact absurd (hx.symm.trans hnone) (by simp)
  · exact Option.some.inj (hb.symm.trans hx) ▸ hpost

/-- There is a value when there is no reason to stop. -/
theorem exists_eq_some (h : Ends stop x post) (hstop : ¬stop) : ∃ a, x = Option.some a ∧ post a :=
  Or.resolve_left h fun hc => hstop hc.2

end Ends

end Onixs
