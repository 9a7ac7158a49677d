import Onixs.Lib.LinkedList

/-!
# Runs on linked lists

The lists as sequences (`Onixs.Sequences`), what the calls of `lib/list.c` do to them, and that the pointers in memory
keep up with it in every run (`Onixs.listRun_refines`).
-/

namespace Onixs

/-- A call of `lib/list.c` that changes the memory. -/
inductive ListOp (Node L : Type) where
  /-- `list_init`. -/
  | init (l : L)
  /-- `list_push`. -/
  | push (l : L) (n : Node)
  /-- `list_pushback`. -/
  | pushback (l : L) (n : Node)
  /-- `list_pop`. -/
  | pop (l : L)
  /-- `list_popback`. -/
  | popback (l : L)
  /-- `list_remove`. -/
  | remove (n : Node)
  /-- `list_insert_sort`, by the numbers that lie behind the nodes. -/
  | insertSort (l : L) (n : Node) (key : Cell Node L → ℤ)

/-- The lists that have been initialised, each as the sequence of its nodes. -/
abbrev Sequences (Node L : Type) := L → Option (List Node)

namespace Sequences

variable {Node L : Type} [DecidableEq Node] [DecidableEq L] (q : Sequences Node L)

/-- Change a sequence. -/
def modify (l : L) (f : List Node → List Node) : Sequences Node L := Function.update q l ((q l).map f)

/-- **What a call does to the sequences.** -/
def apply : ListOp Node L → Sequences Node L
  | .init l => Function.update q l (some [])
  | .push l n => q.modify l fun xs => n :: xs
  | .pushback l n => q.modify l fun xs => xs ++ [n]
  | .pop l => q.modify l List.tail
  | .popback l => q.modify l List.dropLast
  | .remove n => fun l => (q l).map fun xs => xs.erase n
  | .insertSort l n key => q.modify l (listInsertSort (fun m => key (.node m)) n)

/-- The node that a call returns. -/
def answer : ListOp Node L → Option Node
  | .pop l => (q l).bind List.head?
  | .popback l => (q l).bind List.getLast?
  | _ => none

/-- The node that a call takes out of its list. -/
def taken (op : ListOp Node L) : Option Node :=
  match op with
  | .remove n => some n
  | op => q.answer op

/-- A node lies in no list. -/
def Free (n : Node) : Prop := ∀ l xs, q l = some xs → n ∉ xs

end Sequences

namespace ListHeap

open Cell

variable {Node L : Type} [DecidableEq Node] [DecidableEq L] [Fintype Node]

/-- A call, with the pointer that it returns. -/
def run (s : ListHeap Node L) : ListOp Node L → Option (Option (Cell Node L) × ListHeap Node L)
  | .init l => some (none, s.listInit l)
  | .push l n => (s.listPush l (node n)).map fun t => (none, t)
  | .pushback l n => (s.listPushback l (node n)).map fun t => (none, t)
  | .pop l => (s.listPop l).map fun p => (some p.1, p.2)
  | .popback l => (s.listPopback l).map fun p => (some p.1, p.2)
  | .remove n => (s.listRemove (node n)).map fun t => (none, t)
  | .insertSort l n key => (s.listInsertSort l (node n) key).map fun t => (none, t)

/-- A call, with what it does to the sequences next to it. -/
def step (p : ListHeap Node L × Sequences Node L) (op : ListOp Node L) :
    Option (Option (Cell Node L) × (ListHeap Node L × Sequences Node L)) :=
  (p.1.run op).map fun r => (r.1, (r.2, p.2.apply op))

omit [Fintype Node] in
/-- **What may be called**: the lists have been initialised, a node that is added lies in no list and has null pointers, a
list that a node is popped from is not empty, and a node that is removed lies in a list. -/
def Legal (p : ListHeap Node L × Sequences Node L) : ListOp Node L → Prop
  | .init _ => True
  | .push l n => (∃ xs, p.2 l = some xs) ∧ p.2.Free n ∧ p.1.prev (node n) = none ∧ p.1.next (node n) = none
  | .pushback l n => (∃ xs, p.2 l = some xs) ∧ p.2.Free n ∧ p.1.prev (node n) = none ∧ p.1.next (node n) = none
  | .pop l => ∃ xs, p.2 l = some xs ∧ xs ≠ []
  | .popback l => ∃ xs, p.2 l = some xs ∧ xs ≠ []
  | .remove n => ∃ l xs, p.2 l = some xs ∧ n ∈ xs
  | .insertSort l n _ => (∃ xs, p.2 l = some xs) ∧ p.2.Free n ∧ p.1.prev (node n) = none ∧ p.1.next (node n) = none

/-- **The invariant**: each list is a chain of its sequence, no node lies in a list twice, and none in two lists. -/
structure Shaped (s : ListHeap Node L) (q : Sequences Node L) : Prop where
  /-- The chains. -/
  chain : ∀ {l xs}, q l = some xs → Chain s l xs
  /-- Once in a list. -/
  nodup : ∀ {l xs}, q l = some xs → xs.Nodup
  /-- In one list. -/
  apart : ∀ {l l' xs ys n}, q l = some xs → q l' = some ys → n ∈ xs → n ∈ ys → l = l'

section Shapes

variable {s t : ListHeap Node L} {q : Sequences Node L} {l : L} {n : Node} {xs as bs : List Node}

omit [Fintype Node]

omit [DecidableEq Node] in
/-- **One list changes**, and the cells of the others keep their pointers. -/
theorem Shaped.store (h : Shaped s q) (hchain : Chain t l xs) (hnodup : xs.Nodup)
    (hapart : ∀ n ∈ xs, ∀ l' ys, q l' = some ys → n ∈ ys → l' = l)
    (hframe : ∀ l' ys, l' ≠ l → q l' = some ys → ∀ c ∈ cells l' ys, t.next c = s.next c ∧ t.prev c = s.prev c) :
    Shaped t (Function.update q l (some xs)) := by
  have hback : ∀ {l' ys}, Function.update q l (some xs) l' = some ys → l' = l ∧ ys = xs ∨ l' ≠ l ∧ q l' = some ys := by
    intro l' ys hq
    by_cases hl : l' = l
    · rw [hl, Function.update_self] at hq
      exact Or.inl ⟨hl, (Option.some.inj hq).symm⟩
    · rw [Function.update_of_ne hl] at hq
      exact Or.inr ⟨hl, hq⟩
  refine ⟨fun {l' ys} hq => ?_, fun {l' ys} hq => ?_, fun {l₁ l₂ xs₁ xs₂ n} hq₁ hq₂ hn₁ hn₂ => ?_⟩
  · rcases hback hq with ⟨rfl, rfl⟩ | ⟨hl, hq⟩
    · exact hchain
    · exact (h.chain hq).congr (hframe l' ys hl hq)
  · rcases hback hq with ⟨-, rfl⟩ | ⟨-, hq⟩
    · exact hnodup
    · exact h.nodup hq
  · rcases hback hq₁ with ⟨rfl, rfl⟩ | ⟨-, hold₁⟩
    · rcases hback hq₂ with ⟨rfl, -⟩ | ⟨-, hold₂⟩
      · rfl
      · exact (hapart n hn₁ _ _ hold₂ hn₂).symm
    · rcases hback hq₂ with ⟨rfl, rfl⟩ | ⟨-, hold₂⟩
      · exact hapart n hn₂ _ _ hold₁ hn₁
      · exact h.apart hold₁ hold₂ hn₁ hn₂

omit [DecidableEq Node] [DecidableEq L] in
/-- Two lists have no cell in common. -/
theorem Shaped.cells_ne (h : Shaped s q) {l' : L} {ys : List Node} (hl : l' ≠ l) (hq : q l = some xs)
    (hq' : q l' = some ys) {c d : Cell Node L} (hc : c ∈ cells l' ys) (hd : d ∈ cells l xs) : c ≠ d := by
  rintro rfl
  rcases mem_cells.mp hc with rfl | rfl | ⟨n, hn, rfl⟩
  · exact hl (by simpa [mem_cells] using hd)
  · exact hl (by simpa [mem_cells] using hd)
  · exact hl (h.apart hq' hq hn (node_mem_cells.mp hd))

/-- **A node more** in one of the lists. -/
theorem Shaped.insert (h : Shaped s q) (hq : q l = some (as ++ bs)) (hn : q.Free n) :
    Shaped (s.insert (cellBefore l as) (node n) (cellBehind l bs)) (Function.update q l (some (as ++ n :: bs))) := by
  have hnodup := h.nodup hq
  have hnot := hn l _ hq
  have hperm : (as ++ n :: bs).Perm (n :: (as ++ bs)) := List.perm_middle
  refine h.store ((h.chain hq).insert hnodup hnot) ?_ (fun m hm l' ys hq' hm' => ?_) fun l' ys hl hq' c hc => ?_
  · exact hperm.nodup_iff.mpr (List.nodup_cons.mpr ⟨hnot, hnodup⟩)
  · rcases List.mem_cons.mp (hperm.mem_iff.mp hm) with rfl | hm
    · exact absurd hm' (hn l' ys hq')
    · exact h.apart hq' hq hm' hm
  · have hnode : c ≠ node n := fun heq => hn l' ys hq' (node_mem_cells.mp (heq ▸ hc))
    exact ⟨Links.next_insert_of_ne (h.cells_ne hl hq hq' hc (cellBefore_mem l as bs)) hnode,
      Links.prev_insert_of_ne (h.cells_ne hl hq hq' hc (cellBehind_mem l as bs)) hnode⟩

/-- **A node less** in one of the lists. -/
theorem Shaped.remove (h : Shaped s q) (hq : q l = some (as ++ n :: bs)) :
    Shaped (s.remove (cellBefore l as) (node n) (cellBehind l bs)) (Function.update q l (some (as ++ bs))) := by
  have hnodup := h.nodup hq
  have hperm : (as ++ n :: bs).Perm (n :: (as ++ bs)) := List.perm_middle
  have hsub : ∀ m ∈ as ++ bs, m ∈ as ++ n :: bs := fun m hm => hperm.mem_iff.mpr (List.mem_cons_of_mem _ hm)
  have hcells : ∀ {c}, c ∈ cells l (as ++ bs) → c ∈ cells l (as ++ n :: bs) := by
    intro c hc
    rcases mem_cells.mp hc with rfl | rfl | ⟨m, hm, rfl⟩
    · exact mem_cells.mpr (Or.inl rfl)
    · exact mem_cells.mpr (Or.inr (Or.inl rfl))
    · exact node_mem_cells.mpr (hsub m hm)
  refine h.store ((h.chain hq).remove hnodup) (List.nodup_cons.mp (hperm.nodup_iff.mp hnodup)).2
    (fun m hm l' ys hq' hm' => h.apart hq' hq hm' (hsub m hm)) fun l' ys hl hq' c hc => ?_
  have hnode : c ≠ node n := h.cells_ne hl hq hq' hc (node_mem_cells.mpr (hperm.mem_iff.mpr (List.mem_cons_self ..)))
  exact ⟨Links.next_remove_of_ne (h.cells_ne hl hq hq' hc (hcells (cellBefore_mem l as bs))) hnode,
    Links.prev_remove_of_ne (h.cells_ne hl hq hq' hc (hcells (cellBehind_mem l as bs))) hnode⟩

/-- **An empty list.** -/
theorem Shaped.listInit (h : Shaped s q) (l : L) : Shaped (s.listInit l) (Function.update q l (some [])) := by
  refine h.store (chain_listInit s l) List.nodup_nil (fun m hm => absurd hm List.not_mem_nil) fun l' ys hl hq' c hc => ?_
  have hends : c ≠ head l ∧ c ≠ tail l := by
    rcases mem_cells.mp hc with rfl | rfl | ⟨n, -, rfl⟩
    · simpa using hl
    · simpa using hl
    · simp
  exact ⟨(Function.update_of_ne hends.1 _ _).trans (Function.update_of_ne hends.2 _ _),
    (Function.update_of_ne hends.2 _ _).trans (Function.update_of_ne hends.1 _ _)⟩

end Shapes

/-! ### Steps and runs -/

/-- **What a call answers and leaves**: the pointer to the node that it takes from an end of a list; lists that are what
their sequences say, also for `list_search`, `list_empty` and `list_size`; null pointers in the node it has taken out; and,
from `list_insert_sort` on a list that is sorted, the node behind those with keys not greater than its own, which stay in
order. -/
structure Agrees (p : ListHeap Node L × Sequences Node L) (op : ListOp Node L) (r : Option (Cell Node L))
    (p' : ListHeap Node L × Sequences Node L) : Prop where
  /-- The node. -/
  answer : r = (p.2.answer op).map node
  /-- The chains. -/
  chain : ∀ l xs, p'.2 l = some xs → Chain p'.1 l xs ∧ (∀ n, p'.1.listSearch l (node n) = some (decide (n ∈ xs))) ∧
    (p'.1.listEmpty l = true ↔ xs = []) ∧ p'.1.listSize l = some xs.length
  /-- The node that is out. -/
  taken : ∀ n, p.2.taken op = some n → p'.1.prev (node n) = none ∧ p'.1.next (node n) = none
  /-- The node that is sorted in. -/
  sorted : ∀ l n key xs, op = .insertSort l n key → p.2 l = some xs →
    (xs.Pairwise fun a b => key (node a) ≤ key (node b)) →
      p'.2 l = some (xs.filter (fun a => key (node a) ≤ key (node n)) ++
        n :: xs.filter fun a => key (node n) < key (node a))

section Steps

variable {s t : ListHeap Node L} {q : Sequences Node L} {l : L} {n : Node} {xs as bs : List Node} {op : ListOp Node L}

/-- The lists of a memory of the right shape. -/
theorem Shaped.shows (h : Shaped s q) (hnodes : Fintype.card Node < 4294967296) : ∀ l xs, q l = some xs → Chain s l xs ∧
    (∀ n, s.listSearch l (node n) = some (decide (n ∈ xs))) ∧ (s.listEmpty l = true ↔ xs = []) ∧
      s.listSize l = some xs.length := by
  intro l xs hq
  have hchain := h.chain hq
  have hnodup := h.nodup hq
  exact ⟨hchain, hchain.listSearch hnodup, hchain.listEmpty, hchain.listSize hnodup hnodes⟩

/-- A sorted list takes a node behind those that are not greater. -/
theorem listInsertSort_eq_filter {α : Type} {key : α → ℤ} {a : α} {xs : List α}
    (h : xs.Pairwise fun x y => key x ≤ key y) : Onixs.listInsertSort key a xs =
      xs.filter (fun x => key x ≤ key a) ++ a :: xs.filter fun x => key a < key x := by
  induction xs with
  | nil => rfl
  | cons x xs ih =>
    obtain ⟨hx, hxs⟩ := List.pairwise_cons.mp h
    rw [Onixs.listInsertSort]
    by_cases hkey : key x > key a
    · -- the rest of the list is greater too
      have hle : ∀ y ∈ x :: xs, ¬key y ≤ key a := by
        intro y hy
        rcases List.mem_cons.mp hy with rfl | hy
        · exact Int.not_le.mpr hkey
        · exact Int.not_le.mpr (Int.lt_of_lt_of_le hkey (hx y hy))
      rw [if_pos hkey, List.filter_eq_nil_iff.mpr fun y hy => by simpa using hle y hy,
        List.filter_eq_self.mpr fun y hy => by simpa using Int.not_le.mp (hle y hy)]
      rfl
    · rw [if_neg hkey, ih hxs, List.filter_cons_of_pos (by simpa using Int.not_lt.mp hkey),
        List.filter_cons_of_neg (by simpa using Int.not_lt.mp hkey)]
      rfl

variable {p : ListHeap Node L × Sequences Node L} {r : Option (Cell Node L)}

/-- A call that has been run. -/
theorem step_of_run (hnodes : Fintype.card Node < 4294967296) (hrun : p.1.run op = some (r, t))
    (hshaped : Shaped t (p.2.apply op)) (hanswer : r = (p.2.answer op).map node)
    (htaken : ∀ n, p.2.taken op = some n → t.prev (node n) = none ∧ t.next (node n) = none) :
    ∃ r p', step p op = some (r, p') ∧ Agrees p op r p' ∧ Shaped p'.1 p'.2 := by
  refine ⟨r, (t, p.2.apply op), by rw [step, hrun]; rfl, ⟨hanswer, hshaped.shows hnodes, htaken, ?_⟩, hshaped⟩
  rintro l n key xs rfl hq hsorted
  rw [← listInsertSort_eq_filter hsorted]
  exact (Function.update_self _ _ _).trans (congrArg (Option.map _) hq)

/-- A call that adds a node. -/
theorem step_insert (hnodes : Fintype.card Node < 4294967296) (h : Shaped p.1 p.2) (hq : p.2 l = some (as ++ bs))
    (hn : p.2.Free n) (hrun : p.1.run op = some (none, p.1.insert (cellBefore l as) (node n) (cellBehind l bs)))
    (happly : p.2.apply op = Function.update p.2 l (some (as ++ n :: bs))) (htaken : p.2.taken op = none)
    (hanswer : p.2.answer op = none) :
    ∃ r p', step p op = some (r, p') ∧ Agrees p op r p' ∧ Shaped p'.1 p'.2 := by
  refine step_of_run hnodes hrun (happly ▸ h.insert hq hn) ?_ fun m hm => ?_
  · rw [hanswer]
    rfl
  · rw [htaken] at hm
    exact absurd hm (by simp)

/-- A call that takes a node out. -/
theorem step_remove (hnodes : Fintype.card Node < 4294967296) (h : Shaped p.1 p.2) (hq : p.2 l = some (as ++ n :: bs))
    (hrun : p.1.run op = some (r, p.1.remove (cellBefore l as) (node n) (cellBehind l bs)))
    (happly : p.2.apply op = Function.update p.2 l (some (as ++ bs))) (htaken : p.2.taken op = some n)
    (hanswer : r = (p.2.answer op).map node) :
    ∃ r p', step p op = some (r, p') ∧ Agrees p op r p' ∧ Shaped p'.1 p'.2 := by
  refine step_of_run hnodes hrun (happly ▸ h.remove hq) hanswer fun m hm => ?_
  rw [htaken] at hm
  obtain rfl := Option.some.inj hm
  exact ⟨Function.update_self _ _ _, Function.update_self _ _ _⟩

omit [DecidableEq Node] [Fintype Node] in
theorem modify_eq {f : List Node → List Node} (hq : q l = some xs) :
    q.modify l f = Function.update q l (some (f xs)) := by
  rw [Sequences.modify, hq]
  rfl

omit [Fintype Node] in
/-- A node that lies in one list is taken out of that one. -/
theorem apply_remove (h : Shaped s q) (hq : q l = some (as ++ n :: bs)) :
    q.apply (.remove n) = Function.update q l (some (as ++ bs)) := by
  have hnodup := h.nodup hq
  have has : n ∉ as := fun hmem => (List.nodup_append.mp hnodup).2.2 n hmem n (List.mem_cons_self ..) rfl
  funext l'
  change (q l').map (fun xs => xs.erase n) = _
  by_cases hl : l' = l
  · rw [hl, Function.update_self, hq, Option.map_some, List.erase_append_right _ has, List.erase_cons_head]
  · rw [Function.update_of_ne hl]
    cases hq' : q l' with
    | none => rfl
    | some ys =>
      have hys : n ∉ ys := fun hmem => hl (h.apart hq' hq hmem (List.mem_append_right _ (List.mem_cons_self ..)))
      rw [Option.map_some, List.erase_of_not_mem hys]

/-- **A step**: a legal call fails no assertion, answers as the sequences do, and keeps the invariant. -/
theorem step_legal (hnodes : Fintype.card Node < 4294967296) (h : Shaped p.1 p.2) (op : ListOp Node L)
    (hlegal : Legal p op) : ∃ r p', step p op = some (r, p') ∧ Agrees p op r p' ∧ Shaped p'.1 p'.2 := by
  cases op with
  | init l => exact step_of_run hnodes rfl (h.listInit l) rfl fun m hm => absurd hm (by simp [Sequences.taken, Sequences.answer])
  | push l n =>
    obtain ⟨⟨xs, hq⟩, hfree, -, -⟩ := hlegal
    have hrun := (h.chain hq).listPush (h.nodup hq) (hfree l xs hq)
    have hsplit : p.2 l = some ([] ++ xs) := hq
    exact step_insert hnodes h hsplit hfree (congrArg (Option.map _) hrun) (modify_eq hq) rfl rfl
  | pushback l n =>
    obtain ⟨⟨xs, hq⟩, hfree, -, -⟩ := hlegal
    have hrun := (h.chain hq).listPushback (h.nodup hq) (hfree l xs hq)
    have hsplit : p.2 l = some (xs ++ []) := (List.append_nil xs).symm ▸ hq
    exact step_insert hnodes h hsplit hfree (congrArg (Option.map _) hrun) (modify_eq hq) rfl rfl
  | pop l =>
    obtain ⟨xs, hq, hne⟩ := hlegal
    obtain ⟨n, bs, rfl⟩ := List.exists_cons_of_ne_nil hne
    have hrun := (h.chain hq).listPop (h.nodup hq)
    have hanswer : p.2.answer (.pop l) = some n := by rw [Sequences.answer, hq]; rfl
    have hsplit : p.2 l = some ([] ++ n :: bs) := hq
    exact step_remove hnodes h hsplit (congrArg (Option.map _) hrun) (modify_eq hq) hanswer (by rw [hanswer]; rfl)
  | popback l =>
    obtain ⟨xs, hq, hne⟩ := hlegal
    obtain ⟨as, n, rfl⟩ := (List.eq_nil_or_concat' xs).resolve_left hne
    have hrun := (h.chain hq).listPopback (h.nodup hq)
    have hanswer : p.2.answer (.popback l) = some n := by
      rw [Sequences.answer, hq, Option.bind_some, List.getLast?_concat]
    have hsplit : p.2 l = some (as ++ n :: []) := hq
    refine step_remove hnodes h hsplit (congrArg (Option.map _) hrun) ?_ hanswer (by rw [hanswer]; rfl)
    rw [Sequences.apply, modify_eq hq, List.dropLast_concat, List.append_nil]
  | remove n =>
    obtain ⟨l, xs, hq, hmem⟩ := hlegal
    obtain ⟨as, bs, rfl⟩ := List.append_of_mem hmem
    have hrun := (h.chain hq).listRemove (h.nodup hq)
    exact step_remove hnodes h hq (congrArg (Option.map _) hrun) (apply_remove h hq) rfl rfl
  | insertSort l n key =>
    obtain ⟨⟨xs, hq⟩, hfree, hprev, hnext⟩ := hlegal
    obtain ⟨as, bs, rfl, hsort, hrun⟩ := (h.chain hq).listInsertSort (h.nodup hq) (hfree l xs hq) hprev hnext key
    refine step_insert hnodes h hq hfree (congrArg (Option.map _) hrun) ?_ rfl rfl
    rw [Sequences.apply, modify_eq hq, hsort]

end Steps

end ListHeap

open ListHeap Run

/-- **Linked lists are sequences**: in a run of legal calls, on any number of lists and from a memory in which none has
been initialised, no call fails, and each answers and leaves what the sequences say. The nodes lie at different addresses
of 32 bits. -/
theorem listRun_refines {Node L : Type} [DecidableEq Node] [DecidableEq L] [Fintype Node]
    (hnodes : Fintype.card Node < 2 ^ 32) (s : ListHeap Node L) (ops : List (ListOp Node L))
    (hlegal : Along step Legal (s, fun _ => none) ops) : Meets step Agrees (s, fun _ => none) ops := by
  refine meets_of_inv (fun p => Shaped p.1 p.2) (fun p op h => step_legal hnodes h op) ops _ ⟨?_, ?_, ?_⟩ hlegal
  · exact fun h => absurd h (by simp)
  · exact fun h => absurd h (by simp)
  · exact fun h => absurd h (by simp)

/-- Nodes and one list that have not been used. -/
def freshHeap : ListHeap (Fin 3) Unit := ⟨fun _ => none, fun _ => none⟩

theorem listRun_refines_push : Meets step Agrees (freshHeap, fun _ => none) [.init (), .push () 1] := by
  refine listRun_refines (by decide) freshHeap _ ⟨trivial, fun r p hstep => ⟨?_, fun _ _ _ => trivial⟩⟩
  obtain ⟨-, rfl⟩ := Prod.mk.inj (Option.some.inj hstep)
  refine ⟨⟨[], rfl⟩, fun l xs hq => ?_, rfl, rfl⟩
  obtain rfl : [] = xs := Option.some.inj hq
  exact List.not_mem_nil

end Onixs
