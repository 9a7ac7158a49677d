import Mathlib.Data.List.Nodup
import Mathlib.Data.Nat.Notation

/-!
# Index trees

A tree of pointers with a row of roots: `root r` is the pointer in root `r`, `entry v j`
the pointer in entry `j` of the node that `v` points to, and `0` is the null pointer. A
slot of the tree is named by the path to it, the last step first: `[r]` is root `r`, and
`j :: p` is entry `j` of the node that slot `p` points to. `Onixs.IndexTree.get` is the
pointer in a slot, null as soon as a pointer on the way is.

Two trees over the same paths are compared. `Onixs.IndexTree.get_congr` says that a slot
does not change when no pointer on the way does, and `Onixs.IndexTree.get_link` what
becomes of every slot when one empty slot is given a pointer: the slots outside the new
node are as they were. The slots of the new node itself hold whatever the node happens
to contain (`Onixs.IndexTree.get_cons`), which is why a node has to be cleared before it is
linked.

`Onixs.IndexTree.below` lists the slots a walk of the tree behind a slot comes to, with the
slot itself last, which is the order in which the nodes can be given up.
-/

namespace Onixs

namespace IndexTree

variable {V : Type} [Zero V] [DecidableEq V]

/-- The pointer in the slot at the end of a path. -/
def get (root : ℕ → V) (entry : V → ℕ → V) : List ℕ → V
  | [] => 0
  | [r] => root r
  | j :: i :: p => if get root entry (i :: p) = 0 then 0 else entry (get root entry (i :: p)) j

/-- The paths to the slots of a tree, with those of the nodes on the way. -/
def Closed (S : List ℕ → Prop) : Prop := ∀ j i p, S (j :: i :: p) → S (i :: p)

variable {root root' : ℕ → V} {entry entry' : V → ℕ → V} {S : List ℕ → Prop}

theorem get_cons {j i : ℕ} {p : List ℕ} (h : get root entry (i :: p) ≠ 0) :
    get root entry (j :: i :: p) = entry (get root entry (i :: p)) j := by
  rw [get, if_neg h]

theorem get_cons_of_null {j i : ℕ} {p : List ℕ} (h : get root entry (i :: p) = 0) :
    get root entry (j :: i :: p) = 0 := by
  rw [get, if_pos h]

/-- A pointer that is not null has none before it. -/
theorem get_tail_ne_zero {j i : ℕ} {p : List ℕ} (h : get root entry (j :: i :: p) ≠ 0) :
    get root entry (i :: p) ≠ 0 :=
  fun hc => h (get_cons_of_null hc)

/-- What lies behind a null pointer is null. -/
theorem get_append_of_null {p : List ℕ} (hp : p ≠ []) (h : get root entry p = 0) (q : List ℕ) :
    get root entry (q ++ p) = 0 := by
  induction q with
  | nil => exact h
  | cons j q ih =>
    obtain ⟨i, t, ht⟩ : ∃ i t, q ++ p = i :: t := by
      cases hq : q ++ p with
      | nil => exact absurd (List.append_eq_nil_iff.mp hq).2 hp
      | cons i t => exact ⟨i, t, rfl⟩
    rw [List.cons_append, ht]
    rw [ht] at ih
    exact get_cons_of_null ih

/-- **A slot depends on the pointers on the way only.** -/
theorem get_congr (hclosed : Closed S) (hroot : ∀ r, S [r] → root' r = root r)
    (hentry : ∀ j i p, S (j :: i :: p) → get root entry (i :: p) ≠ 0 →
      entry' (get root entry (i :: p)) j = entry (get root entry (i :: p)) j) :
    ∀ q, S q → get root' entry' q = get root entry q
  | [], _ => rfl
  | [r], h => hroot r h
  | j :: i :: p, h => by
    have ih := get_congr hclosed hroot hentry (i :: p) (hclosed j i p h)
    rw [get, get, ih]
    by_cases hz : get root entry (i :: p) = 0
    · rw [if_pos hz, if_pos hz]
    · rw [if_neg hz, if_neg hz, hentry j i p h hz]

/-- **A link changes its own slot only**, besides what the new node brings with it. -/
theorem get_link {p : List ℕ} {v : V} (hclosed : Closed S) (hp : p ≠ [])
    (hparent : ∀ j i t, p = j :: i :: t → get root entry (i :: t) ≠ 0)
    (hroot : ∀ r, S [r] → root' r = if [r] = p then v else root r)
    (hentry : ∀ j i t, S (j :: i :: t) → get root entry (i :: t) ≠ 0 →
      entry' (get root entry (i :: t)) j
        = if j :: i :: t = p then v else entry (get root entry (i :: t)) j) :
    ∀ q, S q → (∀ l, l ≠ [] → q ≠ l ++ p) →
      get root' entry' q = if q = p then v else get root entry q
  | [], _, _ => by rw [if_neg hp.symm, get, get]
  | [r], h, _ => by rw [get, get, hroot r h]
  | j :: i :: t, h, hout => by
    -- the node that holds the slot is neither `p` nor behind it, as the slot is not behind `p`
    have hne : i :: t ≠ p := fun hc => hout [j] (by simp) (by rw [hc, List.singleton_append])
    have ih := get_link hclosed hp hparent hroot hentry (i :: t) (hclosed j i t h)
      fun l hl hc => hout (j :: l) (by simp) (by rw [hc, List.cons_append])
    rw [if_neg hne] at ih
    rw [get, get, ih]
    by_cases hz : get root entry (i :: t) = 0
    · have hnp : j :: i :: t ≠ p := fun hc => hparent j i t hc.symm hz
      rw [if_pos hz, if_pos hz, if_neg hnp]
    · rw [if_neg hz, if_neg hz, hentry j i t h hz]

/-! ### The slots behind a slot -/

/-- The slots behind a slot, through `level` levels of nodes with `width` entries, and the slot. -/
def below (width : ℕ) : ℕ → List ℕ → List (List ℕ)
  | 0, p => [p]
  | level + 1, p => ((List.range width).flatMap fun j => below width level (j :: p)) ++ [p]

section Below

variable {width : ℕ}

theorem mem_below_self (level : ℕ) (p : List ℕ) : p ∈ below width level p := by
  cases level with
  | zero => exact List.mem_singleton_self p
  | succ level => exact List.mem_append_right _ (List.mem_singleton_self p)

theorem mem_below_child {level j : ℕ} {p q : List ℕ} (hj : j < width) (hq : q ∈ below width level (j :: p)) :
    q ∈ below width (level + 1) p :=
  List.mem_append_left _ (List.mem_flatMap.mpr ⟨j, List.mem_range.mpr hj, hq⟩)

theorem suffix_of_mem_below : ∀ level p q, q ∈ below width level p → p <:+ q
  | 0, p, q, h => by
    rw [below, List.mem_singleton] at h
    exact h ▸ List.suffix_rfl
  | level + 1, p, q, h => by
    rw [below, List.mem_append, List.mem_flatMap, List.mem_singleton] at h
    rcases h with ⟨j, -, h⟩ | rfl
    · exact (List.suffix_cons j p).trans (suffix_of_mem_below level (j :: p) q h)
    · exact List.suffix_rfl

/-- **A walk comes to each slot once.** -/
theorem nodup_below : ∀ level p, (below width level p).Nodup
  | 0, p => List.nodup_singleton p
  | level + 1, p => by
    rw [below, List.nodup_append]
    refine ⟨List.nodup_flatMap.mpr ⟨fun j _ => nodup_below level (j :: p), ?_⟩, List.nodup_singleton p, ?_⟩
    · refine List.nodup_range.imp fun {j j'} hne q hq hq' => hne ?_
      have h := suffix_of_mem_below level _ q hq
      have h' := suffix_of_mem_below level _ q hq'
      exact (List.cons.inj ((List.suffix_of_suffix_length_le h h' (Nat.le_refl _)).eq_of_length rfl)).1
    · intro q hq q' hq' heq
      obtain ⟨j, -, hq⟩ := List.mem_flatMap.mp hq
      have h := (suffix_of_mem_below level _ q hq).length_le
      rw [heq, List.mem_singleton.mp hq', List.length_cons] at h
      exact absurd h (Nat.not_succ_le_self _)

/-- Behind a null pointer there is nothing. -/
theorem get_of_mem_below {level : ℕ} {p q : List ℕ} (hp : p ≠ []) (h : get root entry p = 0)
    (hq : q ∈ below width level p) : get root entry q = 0 := by
  obtain ⟨l, rfl⟩ := suffix_of_mem_below level p q hq
  exact get_append_of_null hp h l

end Below

end IndexTree

end Onixs
