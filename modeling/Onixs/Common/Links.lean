import Mathlib.Data.List.Chain
import Mathlib.Logic.Function.Basic

/-!
# Cells that point to each other

Cells with a pointer to the one before and a pointer to the one behind, either of which may be null. A row is a list of
cells each of which points to the next one and is pointed back to (`Onixs.Links.Row`). A cell that lies in no row is put
between two neighbours, and a cell is taken out from between its neighbours; what lies elsewhere does not change
(`Onixs.Links.Row.congr`).
-/

namespace Onixs

/-- Cells with their pointers. -/
structure Links (C : Type) where
  /-- The cell before. -/
  prev : C → Option C
  /-- The cell behind. -/
  next : C → Option C

namespace Links

variable {C : Type} {s t : Links C} {c d n x : C} {cs xs ys : List C}

/-- The cell `c` is right before `d`. -/
def Adj (s : Links C) (c d : C) : Prop := s.next c = some d ∧ s.prev d = some c

/-- **A row**: each cell is right before the next one. -/
def Row (s : Links C) (cs : List C) : Prop := cs.IsChain s.Adj

theorem row_append_cons_cons : s.Row (xs ++ c :: d :: ys) ↔ s.Row (xs ++ [c]) ∧ s.Adj c d ∧ s.Row (d :: ys) :=
  List.isChain_append_cons_cons

theorem row_cons_cons : s.Row (c :: d :: ys) ↔ s.Adj c d ∧ s.Row (d :: ys) := List.isChain_cons_cons

/-- **A row stays one** when the pointers inside it do. -/
theorem Row.congr (h : s.Row cs) (hnext : ∀ x ∈ cs.dropLast, t.next x = s.next x)
    (hprev : ∀ x ∈ cs.tail, t.prev x = s.prev x) : t.Row cs := by
  induction cs with
  | nil => exact List.IsChain.nil
  | cons c cs ih =>
    cases cs with
    | nil => exact List.IsChain.singleton c
    | cons d cs =>
      obtain ⟨⟨hc, hd⟩, hrest⟩ := row_cons_cons.mp h
      refine row_cons_cons.mpr ⟨⟨(hnext c (List.mem_cons_self ..)).trans hc, (hprev d (List.mem_cons_self ..)).trans hd⟩, ?_⟩
      exact ih hrest (fun x hx => hnext x (List.mem_cons_of_mem _ hx)) fun x hx => hprev x (List.mem_cons_of_mem _ hx)

/-- A row stays one when its cells keep their pointers. -/
theorem Row.congr_all (h : s.Row cs) (hsame : ∀ x ∈ cs, t.next x = s.next x ∧ t.prev x = s.prev x) : t.Row cs :=
  h.congr (fun x hx => (hsame x (List.dropLast_subset _ hx)).1) fun x hx => (hsame x (List.mem_of_mem_tail hx)).2

variable [DecidableEq C]

/-- The cell `n` is put between `c` and `d`. -/
def insert (s : Links C) (c n d : C) : Links C where
  prev := Function.update (Function.update s.prev n (some c)) d (some n)
  next := Function.update (Function.update s.next n (some d)) c (some n)

/-- The cell `n` is taken out from between `c` and `d`. -/
def remove (s : Links C) (c n d : C) : Links C where
  prev := Function.update (Function.update s.prev d (some c)) n none
  next := Function.update (Function.update s.next c (some d)) n none

theorem next_insert_of_ne (hc : x ≠ c) (hn : x ≠ n) : (s.insert c n d).next x = s.next x :=
  (Function.update_of_ne hc _ _).trans (Function.update_of_ne hn _ _)

theorem prev_insert_of_ne (hd : x ≠ d) (hn : x ≠ n) : (s.insert c n d).prev x = s.prev x :=
  (Function.update_of_ne hd _ _).trans (Function.update_of_ne hn _ _)

theorem next_remove_of_ne (hc : x ≠ c) (hn : x ≠ n) : (s.remove c n d).next x = s.next x :=
  (Function.update_of_ne hn _ _).trans (Function.update_of_ne hc _ _)

theorem prev_remove_of_ne (hd : x ≠ d) (hn : x ≠ n) : (s.remove c n d).prev x = s.prev x :=
  (Function.update_of_ne hn _ _).trans (Function.update_of_ne hd _ _)

/-- **A cell more**, between two neighbours. -/
theorem Row.insert (h : s.Row (xs ++ c :: d :: ys)) (hnodup : (xs ++ c :: d :: ys).Nodup) (hn : n ∉ xs ++ c :: d :: ys) :
    (s.insert c n d).Row (xs ++ c :: n :: d :: ys) := by
  obtain ⟨hleft, -, hright⟩ := row_append_cons_cons.mp h
  obtain ⟨hxs, hcd, hdisjoint⟩ := List.nodup_append.mp hnodup
  obtain ⟨hc, hdys⟩ := List.nodup_cons.mp hcd
  have hne : ∀ x ∈ xs ++ c :: d :: ys, x ≠ n := fun x hx heq => hn (heq ▸ hx)
  refine row_append_cons_cons.mpr ⟨hleft.congr (fun x hx => ?_) (fun x hx => ?_), ⟨Function.update_self _ _ _, ?_⟩,
    row_cons_cons.mpr ⟨⟨?_, Function.update_self _ _ _⟩, hright.congr (fun x hx => ?_) (fun x hx => ?_)⟩⟩
  · rw [List.dropLast_concat] at hx
    exact next_insert_of_ne (hdisjoint x hx c (by simp)) (hne x (List.mem_append_left _ hx))
  · have hx' := List.mem_of_mem_tail hx
    refine prev_insert_of_ne ?_ (hne x ?_)
    · rcases List.mem_append.mp hx' with hx' | hx'
      · exact hdisjoint x hx' d (by simp)
      · rw [List.mem_singleton.mp hx']
        exact fun heq => hc (heq ▸ List.mem_cons_self ..)
    · rcases List.mem_append.mp hx' with hx' | hx'
      · exact List.mem_append_left _ hx'
      · exact List.mem_append_right _ (List.mem_cons.mpr (Or.inl (List.mem_singleton.mp hx')))
  · exact (Function.update_of_ne (hne d (by simp)).symm _ _).trans (Function.update_self _ _ _)
  · exact (Function.update_of_ne (hne c (by simp)).symm _ _).trans (Function.update_self _ _ _)
  · have hx' := List.dropLast_subset _ hx
    exact next_insert_of_ne (fun heq => hc (heq ▸ hx')) (hne x (List.mem_append_right _ (List.mem_cons_of_mem _ hx')))
  · exact prev_insert_of_ne (fun heq => (List.nodup_cons.mp hdys).1 (heq ▸ hx))
      (hne x (List.mem_append_right _ (List.mem_cons_of_mem _ (List.mem_cons_of_mem _ hx))))

/-- **A cell less**: its neighbours become neighbours. -/
theorem Row.remove (h : s.Row (xs ++ c :: n :: d :: ys)) (hnodup : (xs ++ c :: n :: d :: ys).Nodup) :
    (s.remove c n d).Row (xs ++ c :: d :: ys) := by
  obtain ⟨hleft, -, hright⟩ := row_append_cons_cons.mp h
  have hright := (row_cons_cons.mp hright).2
  obtain ⟨hxs, hcnd, hdisjoint⟩ := List.nodup_append.mp hnodup
  obtain ⟨hc, hnd⟩ := List.nodup_cons.mp hcnd
  obtain ⟨hn, hd⟩ := List.nodup_cons.mp hnd
  have hcn : c ≠ n := fun heq => hc (heq ▸ List.mem_cons_self ..)
  have hcd : c ≠ d := fun heq => hc (heq ▸ List.mem_cons_of_mem _ (List.mem_cons_self ..))
  have hdn : d ≠ n := fun heq => hn (heq ▸ List.mem_cons_self ..)
  refine row_append_cons_cons.mpr ⟨hleft.congr (fun x hx => ?_) (fun x hx => ?_), ⟨?_, ?_⟩,
    hright.congr (fun x hx => ?_) (fun x hx => ?_)⟩
  · rw [List.dropLast_concat] at hx
    exact next_remove_of_ne (hdisjoint x hx c (by simp)) (hdisjoint x hx n (by simp))
  · rcases List.mem_append.mp (List.mem_of_mem_tail hx) with hx' | hx'
    · exact prev_remove_of_ne (hdisjoint x hx' d (by simp)) (hdisjoint x hx' n (by simp))
    · rw [List.mem_singleton.mp hx']
      exact prev_remove_of_ne hcd hcn
  · exact (Function.update_of_ne hcn _ _).trans (Function.update_self _ _ _)
  · exact (Function.update_of_ne hdn _ _).trans (Function.update_self _ _ _)
  · have hx' := List.dropLast_subset _ hx
    exact next_remove_of_ne (fun heq => hc (heq ▸ List.mem_cons_of_mem _ hx')) fun heq => hn (heq ▸ hx')
  · exact prev_remove_of_ne (fun heq => (List.nodup_cons.mp hd).1 (heq ▸ hx))
      fun heq => hn (heq ▸ List.mem_cons_of_mem _ hx)

end Links

end Onixs
