import Mathlib.Data.List.Infix

/-!
# Machines fed with a stream

A machine that takes a stream an element at a time and never stops. What is asked of it is asked after every beginning
of the stream.
-/

namespace Onixs

namespace Stream

variable {S T B : Type} {step : S → B → S} {step' : T → B → T}

/-- **A property after every beginning of a stream**, which a step keeps exactly under a condition, holds exactly when the
condition does before every element. -/
theorem forall_prefix_iff (Inv : S → Prop) {P : S → Prop} {G : S → B → Prop} (hP : ∀ s, Inv s → P s)
    (hstep : ∀ s b, Inv s → (P (step s b) ↔ G s b)) (hinv : ∀ s b, Inv s → P (step s b) → Inv (step s b)) :
    ∀ (bs : List B) (s : S), Inv s → ((∀ pre, pre <+: bs → P (pre.foldl step s)) ↔
      ∀ pre b, pre ++ [b] <+: bs → G (pre.foldl step s) b) := by
  intro bs
  induction bs with
  | nil =>
    intro s hs
    refine iff_of_true (fun pre hpre => ?_) fun pre b hpre => absurd hpre (by simp)
    rw [List.prefix_nil.mp hpre]
    exact hP s hs
  | cons b bs ih =>
    intro s hs
    constructor
    · intro h pre c hpre
      have hb : P (step s b) := h [b] (List.cons_prefix_cons.mpr ⟨rfl, List.nil_prefix⟩)
      cases pre with
      | nil =>
        obtain rfl : c = b := (List.cons_prefix_cons.mp hpre).1
        exact (hstep s c hs).mp hb
      | cons d pre =>
        obtain ⟨rfl, hrest⟩ := List.cons_prefix_cons.mp hpre
        refine (ih _ (hinv s d hs hb)).mp (fun pre' hpre' => ?_) pre c hrest
        exact h (d :: pre') (List.cons_prefix_cons.mpr ⟨rfl, hpre'⟩)
    · intro h pre hpre
      have hb : P (step s b) := (hstep s b hs).mpr (h [] b (List.cons_prefix_cons.mpr ⟨rfl, List.nil_prefix⟩))
      cases pre with
      | nil => exact hP s hs
      | cons d pre =>
        obtain ⟨rfl, hrest⟩ := List.cons_prefix_cons.mp hpre
        refine (ih _ (hinv s d hs hb)).mpr (fun pre' c hpre' => ?_) pre hrest
        exact h (d :: pre') c (List.cons_prefix_cons.mpr ⟨rfl, hpre'⟩)

/-- Two machines fed with the same stream are one machine. -/
theorem foldl_prod (bs : List B) (s : S) (t : T) :
    bs.foldl (fun p b => (step p.1 b, step' p.2 b)) (s, t) = (bs.foldl step s, bs.foldl step' t) := by
  induction bs generalizing s t with
  | nil => rfl
  | cons b bs ih => exact ih _ _

/-- Every stream comes in parts. -/
theorem forall_flatten {P : List B → Prop} : (∀ parts : List (List B), P parts.flatten) ↔ ∀ bs, P bs :=
  ⟨fun h bs => List.flatten_singleton (l := bs) ▸ h [bs], fun h parts => h parts.flatten⟩

end Stream

end Onixs
