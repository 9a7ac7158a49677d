import Mathlib.Logic.Basic

/-!
# Taking from a list

Keys are passed over in order, some of them more than once. A key that has nothing yet takes the first value of a list,
and has it from then on. `Onixs.Served` says that the list suffices, and that each key gets a value it may have.
-/

namespace Onixs

variable {K V : Type} {P Q : K → V → Prop} {has has' : K → Prop} {k : K} {ks : List K} {v : V} {vs : List V}

/-- **Each of the keys `ks` that has nothing gets a value of the list `vs`**, in order, for which `P` holds. -/
inductive Served (P : K → V → Prop) : (K → Prop) → List K → List V → Prop
  /-- There are no more keys. -/
  | nil {has : K → Prop} {vs : List V} : Served P has [] vs
  /-- A key has something. -/
  | pass {has : K → Prop} {k : K} {ks : List K} {vs : List V} (h : has k) (hrest : Served P has ks vs) :
      Served P has (k :: ks) vs
  /-- A key takes the first value. -/
  | take {has : K → Prop} {k : K} {ks : List K} {v : V} {vs : List V} (h : ¬has k) (hP : P k v)
      (hrest : Served P (fun k' => k' = k ∨ has k') ks vs) : Served P has (k :: ks) (v :: vs)

namespace Served

theorem of_has (h : Served P has (k :: ks) vs) (hk : has k) : Served P has ks vs := by
  cases h with
  | pass _ hrest => exact hrest
  | take hnot => exact absurd hk hnot

theorem of_not (h : Served P has (k :: ks) vs) (hk : ¬has k) :
    ∃ v ws, vs = v :: ws ∧ P k v ∧ Served P (fun k' => k' = k ∨ has k') ks ws := by
  cases h with
  | pass h _ => exact absurd h hk
  | take _ hP hrest => exact ⟨_, _, rfl, hP, hrest⟩

/-- What the other keys have does not matter. -/
theorem congr (h : Served P has ks vs) (hiff : ∀ k ∈ ks, has k ↔ has' k) : Served P has' ks vs := by
  induction h generalizing has' with
  | nil => exact nil
  | pass hk _ ih =>
    exact pass ((hiff _ List.mem_cons_self).mp hk) (ih fun k hmem => hiff k (List.mem_cons_of_mem _ hmem))
  | take hk hP _ ih =>
    exact take (fun hc => hk ((hiff _ List.mem_cons_self).mpr hc)) hP
      (ih fun k hmem => or_congr_right (hiff k (List.mem_cons_of_mem _ hmem)))

end Served

end Onixs
