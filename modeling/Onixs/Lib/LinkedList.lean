import Mathlib.Data.Fintype.Card
import Onixs.Common.Links
import Onixs.Common.Run
import Onixs.Lib.List

/-!
# Linked lists

`lib/list.c` in its own terms: nodes with a pointer to the one before and a pointer to the one behind, any number of
lists, each with a node at either end that belongs to the list itself, and one memory for all of them. A list that has
been initialised stands for the sequence of the nodes between its ends. Calls do to the sequences what their names say,
no assertion fails and no null pointer is followed, as long as a node that is added lies in no list and a node that is
taken out lies in one (`Onixs.listRun_refines`).
-/

namespace Onixs

/-- A node, or one of the two nodes of a list. -/
inductive Cell (Node L : Type) where
  /-- `list->head`. -/
  | head (l : L)
  /-- A node. -/
  | node (n : Node)
  /-- `list->tail`. -/
  | tail (l : L)
deriving DecidableEq

/-- The memory of the lists. -/
abbrev ListHeap (Node L : Type) := Links (Cell Node L)

namespace ListHeap

open Cell

section Functions

variable {Node L : Type} [DecidableEq Node] [DecidableEq L] (s : ListHeap Node L)

/-- `list_init`. -/
def listInit (l : L) : ListHeap Node L where
  prev := Function.update (Function.update s.prev (head l) none) (tail l) (some (head l))
  next := Function.update (Function.update s.next (tail l) none) (head l) (some (tail l))

/-- `list_insert_before`. -/
def listInsertBefore (anchor node : Cell Node L) : Option (ListHeap Node L) := do
  let s : ListHeap Node L := { s with prev := Function.update s.prev node (s.prev anchor) }
  let s : ListHeap Node L := { s with next := Function.update s.next node (some anchor) }
  let before ← s.prev anchor
  let s : ListHeap Node L := { s with next := Function.update s.next before (some node) }
  return { s with prev := Function.update s.prev anchor (some node) }

/-- `list_insert_after`. -/
def listInsertAfter (anchor node : Cell Node L) : Option (ListHeap Node L) := do
  let s : ListHeap Node L := { s with prev := Function.update s.prev node (some anchor) }
  let s : ListHeap Node L := { s with next := Function.update s.next node (s.next anchor) }
  let behind ← s.next anchor
  let s : ListHeap Node L := { s with prev := Function.update s.prev behind (some node) }
  return { s with next := Function.update s.next anchor (some node) }

/-- `list_remove`. -/
def listRemove (node : Cell Node L) : Option (ListHeap Node L) := do
  assert (s.prev node ≠ none)
  assert (s.next node ≠ none)
  let before ← s.prev node
  let s : ListHeap Node L := { s with next := Function.update s.next before (s.next node) }
  let behind ← s.next node
  let s : ListHeap Node L := { s with prev := Function.update s.prev behind (s.prev node) }
  return { prev := Function.update s.prev node none, next := Function.update s.next node none }

/-- `list_empty`. -/
def listEmpty (l : L) : Bool := s.next (head l) = some (tail l)

/-- The loop of `list_search`, in at most so many rounds. -/
def searchLoop (l : L) (node : Cell Node L) : ℕ → Option (Cell Node L) → Option Bool
  | 0, _ => none
  | fuel + 1, next =>
      if next = some (tail l) then
        some false
      else if next = some node then
        some true
      else do
        let ptr ← next
        searchLoop l node fuel (s.next ptr)

/-- The loop of `list_size`, in at most so many rounds. -/
def sizeLoop (l : L) : ℕ → Option (Cell Node L) → ℕ → Option ℕ
  | 0, _, _ => none
  | fuel + 1, next, size =>
      if next = some (tail l) then
        some size
      else do
        let ptr ← next
        sizeLoop l fuel (s.next ptr) (u32 (size + 1))

/-- The loop of `list_insert_sort`, in at most so many rounds: the first node with a greater key, or the tail. -/
def sortLoop (l : L) (key : Cell Node L → ℤ) (node : Cell Node L) : ℕ → Option (Cell Node L) → Option (Cell Node L)
  | 0, _ => none
  | fuel + 1, next =>
      if next = some (tail l) then
        some (tail l)
      else do
        let ptr ← next
        if key ptr > key node then
          return ptr
        else
          sortLoop l key node fuel (s.next ptr)

variable [Fintype Node]

/-- More rounds than there are nodes. -/
def rounds (Node : Type) [Fintype Node] : ℕ := Fintype.card Node + 1

/-- `list_search`. -/
def listSearch (l : L) (node : Cell Node L) : Option Bool := s.searchLoop l node (rounds Node) (s.next (head l))

/-- `list_size`. -/
def listSize (l : L) : Option ℕ := s.sizeLoop l (rounds Node) (s.next (head l)) 0

/-- `list_push`. -/
def listPush (l : L) (node : Cell Node L) : Option (ListHeap Node L) := do
  let found ← s.listSearch l node
  assert (found = false)
  s.listInsertAfter (head l) node

/-- `list_pushback`. -/
def listPushback (l : L) (node : Cell Node L) : Option (ListHeap Node L) := do
  let found ← s.listSearch l node
  assert (found = false)
  s.listInsertBefore (tail l) node

/-- `list_pop`. -/
def listPop (l : L) : Option (Cell Node L × ListHeap Node L) := do
  assert (s.listEmpty l = false)
  let node ← s.next (head l)
  let s ← s.listRemove node
  return (node, s)

/-- `list_popback`. -/
def listPopback (l : L) : Option (Cell Node L × ListHeap Node L) := do
  assert (s.listEmpty l = false)
  let node ← s.prev (tail l)
  let s ← s.listRemove node
  return (node, s)

/-- `list_insert_sort`, by the numbers that are found behind the nodes. -/
def listInsertSort (l : L) (node : Cell Node L) (key : Cell Node L → ℤ) : Option (ListHeap Node L) := do
  let anchor ← s.sortLoop l key node (rounds Node) (s.next (head l))
  assert (s.next node = none)
  assert (s.prev node = none)
  s.listInsertBefore anchor node

end Functions

/-! ### Chains -/

section Chains

variable {Node L : Type} {s t : ListHeap Node L} {l : L} {n : Node} {xs as bs : List Node}

/-- The cells of a list, from its head to its tail. -/
def cells (l : L) (xs : List Node) : List (Cell Node L) := head l :: (xs.map node ++ [tail l])

/-- **The list is the sequence** `xs`: from head to tail each cell is right before the next one, and the ends are null. -/
structure Chain (s : ListHeap Node L) (l : L) (xs : List Node) : Prop where
  /-- Nothing is before the head. -/
  first : s.prev (head l) = none
  /-- Nothing is behind the tail. -/
  last : s.next (tail l) = none
  /-- The cells. -/
  row : s.Row (cells l xs)

theorem mem_cells {c : Cell Node L} : c ∈ cells l xs ↔ c = head l ∨ c = tail l ∨ ∃ n ∈ xs, c = node n := by
  rw [cells, List.mem_cons, List.mem_append, List.mem_map, List.mem_singleton]
  constructor
  · rintro (h | ⟨n, hn, rfl⟩ | h)
    · exact Or.inl h
    · exact Or.inr (Or.inr ⟨n, hn, rfl⟩)
    · exact Or.inr (Or.inl h)
  · rintro (h | h | ⟨n, hn, rfl⟩)
    · exact Or.inl h
    · exact Or.inr (Or.inr h)
    · exact Or.inr (Or.inl ⟨n, hn, rfl⟩)

theorem node_mem_cells : node n ∈ cells l xs ↔ n ∈ xs := by
  rw [mem_cells]
  simp

theorem nodup_cells (h : xs.Nodup) : (cells l xs).Nodup := by
  refine List.nodup_cons.mpr ⟨?_, List.nodup_append.mpr ⟨h.map fun n m heq => Cell.node.inj heq, List.nodup_singleton _, ?_⟩⟩
  · simp
  · rintro a ha b hb rfl
    obtain ⟨n, -, hn⟩ := List.mem_map.mp ha
    exact absurd (hn.trans (List.mem_singleton.mp hb)) (by simp)

/-- The last cell in front of what follows `as`. -/
def cellBefore (l : L) (as : List Node) : Cell Node L := (as.getLast?.map node).getD (head l)

/-- The first cell of what begins with `bs`. -/
def cellBehind (l : L) (bs : List Node) : Cell Node L := (bs.head?.map node).getD (tail l)

/-- A list in two parts, with the cells on either side of the gap. -/
theorem cells_append (l : L) (as bs : List Node) : ∃ pre post : List (Cell Node L),
    cells l (as ++ bs) = pre ++ cellBefore l as :: cellBehind l bs :: post ∧
      ∀ n, cells l (as ++ n :: bs) = pre ++ cellBefore l as :: node n :: cellBehind l bs :: post := by
  have hright : ∃ post, bs.map node ++ [tail l] = cellBehind l bs :: post := by
    cases bs with
    | nil => exact ⟨[], rfl⟩
    | cons b bs => exact ⟨bs.map node ++ [tail l], rfl⟩
  have hleft : ∃ pre, head l :: as.map node = pre ++ [cellBefore l as] := by
    rcases List.eq_nil_or_concat' as with rfl | ⟨as, a, rfl⟩
    · exact ⟨[], rfl⟩
    · refine ⟨head l :: as.map node, ?_⟩
      rw [cellBefore, List.getLast?_concat, List.map_append]
      rfl
  obtain ⟨post, hpost⟩ := hright
  obtain ⟨pre, hpre⟩ := hleft
  refine ⟨pre, post, ?_, fun n => ?_⟩
  · rw [cells, List.map_append, List.append_assoc, hpost, ← List.cons_append, hpre, List.append_assoc]
    rfl
  · rw [cells, List.map_append, List.map_cons, List.append_assoc, List.cons_append, hpost, ← List.cons_append, hpre,
      List.append_assoc]
    rfl

theorem cellBefore_mem (l : L) (as bs : List Node) : cellBefore l as ∈ cells l (as ++ bs) := by
  obtain ⟨pre, post, hcells, -⟩ := cells_append l as bs
  rw [hcells]
  simp

theorem cellBehind_mem (l : L) (as bs : List Node) : cellBehind l bs ∈ cells l (as ++ bs) := by
  obtain ⟨pre, post, hcells, -⟩ := cells_append l as bs
  rw [hcells]
  simp

theorem cellBefore_ne_tail (l l' : L) (as : List Node) : cellBefore l as ≠ tail l' := by
  rw [cellBefore]
  cases as.getLast? <;> simp

theorem cellBehind_ne_head (l l' : L) (bs : List Node) : cellBehind l bs ≠ head l' := by
  rw [cellBehind]
  cases bs.head? <;> simp

theorem cellBefore_ne_node (l : L) (h : n ∉ as) : cellBefore l as ≠ node n := by
  rcases List.eq_nil_or_concat' as with rfl | ⟨as, a, rfl⟩
  · simp [cellBefore]
  · rw [cellBefore, List.getLast?_concat]
    exact fun heq => h (Cell.node.inj heq ▸ List.mem_append_right _ (List.mem_singleton_self a))

theorem cellBehind_ne_node (l : L) (h : n ∉ bs) : cellBehind l bs ≠ node n := by
  cases bs with
  | nil => simp [cellBehind]
  | cons b bs => exact fun heq => h (Cell.node.inj heq ▸ List.mem_cons_self ..)

/-- The cells on either side of a gap are neighbours. -/
theorem Chain.adj (h : Chain s l (as ++ bs)) : s.Adj (cellBefore l as) (cellBehind l bs) := by
  obtain ⟨pre, post, hcells, -⟩ := cells_append l as bs
  have hrow := h.row
  rw [hcells] at hrow
  exact (Links.row_append_cons_cons.mp hrow).2.1

/-- The neighbours of a node. -/
theorem Chain.adj_node (h : Chain s l (as ++ n :: bs)) :
    s.Adj (cellBefore l as) (node n) ∧ s.Adj (node n) (cellBehind l bs) := by
  obtain ⟨pre, post, -, hmore⟩ := cells_append l as bs
  have hrow := h.row
  rw [hmore n] at hrow
  obtain ⟨-, hleft, hrest⟩ := Links.row_append_cons_cons.mp hrow
  exact ⟨hleft, (Links.row_cons_cons.mp hrest).1⟩

/-- A list whose cells keep their pointers stays what it is. -/
theorem Chain.congr (h : Chain s l xs) (hsame : ∀ c ∈ cells l xs, t.next c = s.next c ∧ t.prev c = s.prev c) :
    Chain t l xs := by
  refine ⟨?_, ?_, h.row.congr_all hsame⟩
  · rw [(hsame (head l) (mem_cells.mpr (Or.inl rfl))).2, h.first]
  · rw [(hsame (tail l) (mem_cells.mpr (Or.inr (Or.inl rfl)))).1, h.last]

variable [DecidableEq Node] [DecidableEq L]

/-- **A node more.** -/
theorem Chain.insert (h : Chain s l (as ++ bs)) (hnodup : (as ++ bs).Nodup) (hn : n ∉ as ++ bs) :
    Chain (s.insert (cellBefore l as) (node n) (cellBehind l bs)) l (as ++ n :: bs) := by
  obtain ⟨pre, post, hcells, hmore⟩ := cells_append l as bs
  have hrow := h.row
  have hcellsNodup := nodup_cells (l := l) hnodup
  have hnode : node n ∉ cells l (as ++ bs) := fun hmem => hn (node_mem_cells.mp hmem)
  rw [hcells] at hrow hcellsNodup hnode
  refine ⟨?_, ?_, ?_⟩
  · rw [Links.prev_insert_of_ne (cellBehind_ne_head l l bs).symm (by simp), h.first]
  · rw [Links.next_insert_of_ne (cellBefore_ne_tail l l as).symm (by simp), h.last]
  · rw [hmore n]
    exact hrow.insert hcellsNodup hnode

/-- **A node less.** -/
theorem Chain.remove (h : Chain s l (as ++ n :: bs)) (hnodup : (as ++ n :: bs).Nodup) :
    Chain (s.remove (cellBefore l as) (node n) (cellBehind l bs)) l (as ++ bs) := by
  obtain ⟨pre, post, hcells, hmore⟩ := cells_append l as bs
  have hrow := h.row
  have hcellsNodup := nodup_cells (l := l) hnodup
  rw [hmore n] at hrow hcellsNodup
  refine ⟨?_, ?_, ?_⟩
  · rw [Links.prev_remove_of_ne (cellBehind_ne_head l l bs).symm (by simp), h.first]
  · rw [Links.next_remove_of_ne (cellBefore_ne_tail l l as).symm (by simp), h.last]
  · rw [hcells]
    exact hrow.remove hcellsNodup

end Chains

/-! ### What the functions do -/

section Calls

variable {Node L : Type} [DecidableEq Node] [DecidableEq L] {s : ListHeap Node L} {l : L} {c d x : Cell Node L}
  {n : Node} {xs as bs : List Node}

theorem listInsertBefore_eq (h : s.Adj c d) (hd : d ≠ x) : s.listInsertBefore d x = some (s.insert c x d) := by
  have hbefore : Function.update s.prev x (s.prev d) d = some c := (Function.update_of_ne hd _ _).trans h.2
  rw [listInsertBefore]
  simp only [hbefore, Option.bind_eq_bind, Option.bind_some, Option.pure_def]
  rw [Links.insert, h.2]

theorem listInsertAfter_eq (h : s.Adj c d) (hc : c ≠ x) : s.listInsertAfter c x = some (s.insert c x d) := by
  have hbehind : Function.update s.next x (s.next c) c = some d := (Function.update_of_ne hc _ _).trans h.1
  rw [listInsertAfter]
  simp only [hbehind, Option.bind_eq_bind, Option.bind_some, Option.pure_def]
  rw [Links.insert, h.1]

theorem listRemove_eq (h : s.Adj c x) (h' : s.Adj x d) (hc : c ≠ x) : s.listRemove x = some (s.remove c x d) := by
  have hbehind : Function.update s.next c (s.next x) x = some d := (Function.update_of_ne hc.symm _ _).trans h'.1
  rw [listRemove, assert_pos (by rw [h.2]; exact Option.some_ne_none c), assert_pos (by rw [h'.1]; exact Option.some_ne_none d)]
  simp only [h.2, hbehind, Option.bind_eq_bind, Option.bind_some, Option.pure_def]
  rw [Links.remove, h'.1]

/-- The loop of `list_search`, behind the cell `c`. -/
theorem searchLoop_eq (bs : List Node) : ∀ (c : Cell Node L) (fuel : ℕ), s.Row (c :: (bs.map node ++ [tail l])) →
    bs.length < fuel → s.searchLoop l (node n) fuel (s.next c) = some (decide (n ∈ bs)) := by
  induction bs with
  | nil =>
    intro c fuel hrow hfuel
    obtain ⟨fuel, rfl⟩ : ∃ k, fuel = k + 1 := Nat.exists_eq_succ_of_ne_zero (Nat.ne_zero_of_lt hfuel)
    rw [searchLoop, if_pos (Links.row_cons_cons.mp hrow).1.1]
    rfl
  | cons b bs ih =>
    intro c fuel hrow hfuel
    obtain ⟨fuel, rfl⟩ : ∃ k, fuel = k + 1 := Nat.exists_eq_succ_of_ne_zero (Nat.ne_zero_of_lt hfuel)
    obtain ⟨⟨hnext, -⟩, hrest⟩ := Links.row_cons_cons.mp hrow
    rw [searchLoop, hnext, if_neg (by simp)]
    by_cases hb : b = n
    · rw [if_pos (by rw [hb]), decide_eq_true (List.mem_cons.mpr (Or.inl hb.symm))]
    · rw [if_neg (by simpa using hb)]
      have hmem : n ∈ b :: bs ↔ n ∈ bs := by
        rw [List.mem_cons]
        exact or_iff_right fun h => hb h.symm
      simp only [Option.bind_eq_bind, Option.bind_some, hmem]
      exact ih (node b) fuel hrest (Nat.lt_of_succ_lt_succ hfuel)

/-- The loop of `list_size`, behind the cell `c`. -/
theorem sizeLoop_eq (bs : List Node) : ∀ (c : Cell Node L) (fuel size : ℕ), s.Row (c :: (bs.map node ++ [tail l])) →
    bs.length < fuel → size + bs.length < 4294967296 → s.sizeLoop l fuel (s.next c) size = some (size + bs.length) := by
  induction bs with
  | nil =>
    intro c fuel size hrow hfuel _
    obtain ⟨fuel, rfl⟩ : ∃ k, fuel = k + 1 := Nat.exists_eq_succ_of_ne_zero (Nat.ne_zero_of_lt hfuel)
    rw [sizeLoop, if_pos (Links.row_cons_cons.mp hrow).1.1]
    rfl
  | cons b bs ih =>
    intro c fuel size hrow hfuel hsize
    obtain ⟨fuel, rfl⟩ : ∃ k, fuel = k + 1 := Nat.exists_eq_succ_of_ne_zero (Nat.ne_zero_of_lt hfuel)
    obtain ⟨⟨hnext, -⟩, hrest⟩ := Links.row_cons_cons.mp hrow
    rw [List.length_cons] at hsize ⊢
    rw [sizeLoop, hnext, if_neg (by simp), u32_of_lt (by omega)]
    refine (ih (node b) fuel (size + 1) hrest (Nat.lt_of_succ_lt_succ hfuel) (by omega)).trans ?_
    rw [Nat.add_assoc, Nat.add_comm 1]

/-- The loop of `list_insert_sort`, behind the cell `c`: it stops where the node belongs. -/
theorem sortLoop_eq (key : Cell Node L → ℤ) (bs : List Node) : ∀ (c : Cell Node L) (fuel : ℕ),
    s.Row (c :: (bs.map node ++ [tail l])) → bs.length < fuel → ∃ as' bs', bs = as' ++ bs' ∧
      s.sortLoop l key (node n) fuel (s.next c) = some (cellBehind l bs') ∧
        Onixs.listInsertSort (fun m => key (node m)) n bs = as' ++ n :: bs' := by
  induction bs with
  | nil =>
    intro c fuel hrow hfuel
    obtain ⟨fuel, rfl⟩ : ∃ k, fuel = k + 1 := Nat.exists_eq_succ_of_ne_zero (Nat.ne_zero_of_lt hfuel)
    refine ⟨[], [], rfl, ?_, rfl⟩
    rw [sortLoop, if_pos (Links.row_cons_cons.mp hrow).1.1]
    rfl
  | cons b bs ih =>
    intro c fuel hrow hfuel
    obtain ⟨fuel, rfl⟩ : ∃ k, fuel = k + 1 := Nat.exists_eq_succ_of_ne_zero (Nat.ne_zero_of_lt hfuel)
    obtain ⟨⟨hnext, -⟩, hrest⟩ := Links.row_cons_cons.mp hrow
    rw [sortLoop, hnext, if_neg (by simp)]
    simp only [Option.bind_eq_bind, Option.bind_some]
    by_cases hkey : key (node b) > key (node n)
    · refine ⟨[], b :: bs, rfl, ?_, ?_⟩
      · rw [if_pos hkey]
        rfl
      · rw [Onixs.listInsertSort, if_pos hkey]
        rfl
    · obtain ⟨as', bs', rfl, hloop, hsort⟩ := ih (node b) fuel hrest (Nat.lt_of_succ_lt_succ hfuel)
      refine ⟨b :: as', bs', rfl, ?_, ?_⟩
      · rw [if_neg hkey, hloop]
      · rw [Onixs.listInsertSort, if_neg hkey, hsort]
        rfl

variable [Fintype Node]

omit [DecidableEq Node] in
theorem length_lt_rounds (h : xs.Nodup) : xs.length < rounds Node := Nat.lt_succ_of_le h.length_le_card

/-- **`list_search`** finds the nodes of the sequence. -/
theorem Chain.listSearch (h : Chain s l xs) (hnodup : xs.Nodup) (n : Node) :
    s.listSearch l (node n) = some (decide (n ∈ xs)) :=
  searchLoop_eq xs (head l) _ h.row (length_lt_rounds hnodup)

/-- **`list_size`** is the length of the sequence. -/
theorem Chain.listSize (h : Chain s l xs) (hnodup : xs.Nodup) (hnodes : Fintype.card Node < 4294967296) :
    s.listSize l = some xs.length := by
  refine (sizeLoop_eq xs (head l) _ 0 h.row (length_lt_rounds hnodup) ?_).trans (congrArg some (Nat.zero_add _))
  exact (Nat.zero_add _).trans_lt (Nat.lt_of_le_of_lt hnodup.length_le_card hnodes)

omit [Fintype Node] in
/-- **`list_empty`**. -/
theorem Chain.listEmpty (h : Chain s l xs) : s.listEmpty l = true ↔ xs = [] := by
  rw [ListHeap.listEmpty, decide_eq_true_iff]
  have hadj : s.Adj (cellBefore l []) (cellBehind l xs) := Chain.adj h
  rw [show s.next (head l) = some (cellBehind l xs) from hadj.1]
  cases xs with
  | nil => exact iff_of_true rfl rfl
  | cons b bs => simp [cellBehind]

/-- **`list_push`** adds a node in front. -/
theorem Chain.listPush (h : Chain s l xs) (hnodup : xs.Nodup) (hn : n ∉ xs) :
    s.listPush l (node n) = some (s.insert (cellBefore l []) (node n) (cellBehind l xs)) := by
  rw [ListHeap.listPush, h.listSearch hnodup, Option.bind_eq_bind, Option.bind_some, assert_pos (decide_eq_false hn)]
  have hadj : s.Adj (cellBefore l []) (cellBehind l xs) := Chain.adj h
  exact listInsertAfter_eq hadj (by simp)

/-- **`list_pushback`** adds a node behind. -/
theorem Chain.listPushback (h : Chain s l xs) (hnodup : xs.Nodup) (hn : n ∉ xs) :
    s.listPushback l (node n) = some (s.insert (cellBefore l xs) (node n) (cellBehind l [])) := by
  rw [ListHeap.listPushback, h.listSearch hnodup, Option.bind_eq_bind, Option.bind_some, assert_pos (decide_eq_false hn)]
  have hadj : s.Adj (cellBefore l xs) (cellBehind l []) := Chain.adj ((List.append_nil xs).symm ▸ h)
  exact listInsertBefore_eq hadj (by simp)

/-- **`list_insert_sort`** adds a node where it belongs. -/
theorem Chain.listInsertSort (h : Chain s l xs) (hnodup : xs.Nodup) (hn : n ∉ xs) (hprev : s.prev (node n) = none)
    (hnext : s.next (node n) = none) (key : Cell Node L → ℤ) : ∃ as bs, xs = as ++ bs ∧
      Onixs.listInsertSort (fun m => key (node m)) n xs = as ++ n :: bs ∧
        s.listInsertSort l (node n) key = some (s.insert (cellBefore l as) (node n) (cellBehind l bs)) := by
  obtain ⟨as, bs, rfl, hloop, hsort⟩ := sortLoop_eq (n := n) key xs (head l) _ h.row (length_lt_rounds hnodup)
  refine ⟨as, bs, rfl, hsort, ?_⟩
  rw [ListHeap.listInsertSort, hloop, Option.bind_eq_bind, Option.bind_some, assert_pos hnext, assert_pos hprev]
  exact listInsertBefore_eq h.adj (cellBehind_ne_node l fun hmem => hn (List.mem_append_right _ hmem))

omit [Fintype Node]

/-- **`list_remove`** takes a node out. -/
theorem Chain.listRemove (h : Chain s l (as ++ n :: bs)) (hnodup : (as ++ n :: bs).Nodup) :
    s.listRemove (node n) = some (s.remove (cellBefore l as) (node n) (cellBehind l bs)) := by
  refine listRemove_eq h.adj_node.1 h.adj_node.2 (cellBefore_ne_node l fun hmem => ?_)
  exact (List.nodup_append.mp hnodup).2.2 n hmem n (List.mem_cons_self ..) rfl

/-- **`list_pop`** takes the first node out. -/
theorem Chain.listPop (h : Chain s l (n :: bs)) (hnodup : (n :: bs).Nodup) :
    s.listPop l = some (node n, s.remove (cellBefore l []) (node n) (cellBehind l bs)) := by
  have hempty : s.listEmpty l = false := Bool.eq_false_iff.mpr fun he => List.cons_ne_nil n bs (h.listEmpty.mp he)
  have hadj : s.Adj (cellBefore l []) (cellBehind l (n :: bs)) := Chain.adj h
  have hremove : s.listRemove (node n) = some (s.remove (cellBefore l []) (node n) (cellBehind l bs)) :=
    Chain.listRemove h hnodup
  rw [ListHeap.listPop, assert_pos hempty]
  simp only [Option.bind_eq_bind, Option.bind_some, show s.next (head l) = some (node n) from hadj.1, hremove,
    Option.pure_def]

/-- **`list_popback`** takes the last node out. -/
theorem Chain.listPopback (h : Chain s l (as ++ [n])) (hnodup : (as ++ [n]).Nodup) :
    s.listPopback l = some (node n, s.remove (cellBefore l as) (node n) (cellBehind l [])) := by
  have hempty : s.listEmpty l = false := Bool.eq_false_iff.mpr fun he => by simpa using h.listEmpty.mp he
  have hadj : s.prev (tail l) = some (node n) := h.adj_node.2.2
  rw [ListHeap.listPopback, assert_pos hempty]
  simp only [Option.bind_eq_bind, Option.bind_some, hadj, h.listRemove hnodup, Option.pure_def]

/-- **`list_init`** makes the list empty. -/
theorem chain_listInit (s : ListHeap Node L) (l : L) : Chain (s.listInit l) l [] := by
  refine ⟨?_, ?_, Links.row_cons_cons.mpr ⟨⟨Function.update_self _ _ _, Function.update_self _ _ _⟩, List.IsChain.singleton _⟩⟩
  · have hne : (head l : Cell Node L) ≠ tail l := by simp
    exact (Function.update_of_ne hne (some (head l)) _).trans (Function.update_self _ _ _)
  · have hne : (tail l : Cell Node L) ≠ head l := by simp
    exact (Function.update_of_ne hne (some (tail l)) _).trans (Function.update_self _ _ _)

end Calls

end ListHeap

end Onixs
