import Mathlib.Data.Finset.Card
import Mathlib.Data.Finset.Dedup
import Onixs.Fs.ZoneTree

/-!
# Growing a zone tree

Several links in a row are summed up in `Onixs.Grows`: the tree keeps what it has, new
zones come from free ones, and nothing else changes. A link of a zone whose entries are
zero is such a step (`Onixs.grows_link`), and so are two in a row (`Onixs.Grows.trans`).

`bmap` with `create` along the path of a slot is such a step as long as there is a zone for every
empty slot, and those that become index blocks read as empty ones. `Onixs.Supply` says so of
whatever tells it, and `Onixs.Supply.bmapPath` is the step. One way to tell it is to count
(`Onixs.Ready`): the slots that are still empty, among a set the caller chooses, against the free zones, all of
which read as empty index blocks. A link takes one from each.
-/

namespace Onixs

open Bytes

/-! ### Free zones -/

instance (s : Fs) (dev z : ℕ) : Decidable (ZoneFree s dev z) :=
  inferInstanceAs (Decidable (_ ∧ _ ∧ _))

/-- The free zones of the device. -/
def freeZones (s : Fs) (dev : ℕ) : Finset ℕ :=
  (Finset.range (s.superDesc dev).zones).filter fun z => ZoneFree s dev z

theorem mem_freeZones {s : Fs} {dev z : ℕ} : z ∈ freeZones s dev ↔ ZoneFree s dev z := by
  rw [freeZones, Finset.mem_filter, Finset.mem_range]
  exact ⟨fun h => h.2, fun h => ⟨h.2.1, h⟩⟩

/-- A zone that reads as an empty index block. -/
def Blank (s : Fs) (dev z : ℕ) : Prop := ∀ j < 512, s.zoneEntry dev z j = 0

/-- The zones a walk to a slot may have to create. -/
def slotPath (p : List ℕ) : Finset (List ℕ) := (p.tails.filter fun q => q ≠ []).toFinset

theorem mem_slotPath {p q : List ℕ} : q ∈ slotPath p ↔ q ≠ [] ∧ q <:+ p := by
  rw [slotPath, List.mem_toFinset, List.mem_filter, List.mem_tails, decide_eq_true_eq, and_comm]

/-- There are as many free zones as slots of `N` that are empty. -/
def Enough (s : Fs) (dev nr : ℕ) (N : Finset (List ℕ)) : Prop :=
  (N.filter fun q => s.zoneAt dev nr q = 0).card ≤ (freeZones s dev).card

/-! ### A link of an empty zone -/

section Link

variable {s : Fs} {dev nr z : ℕ} {p : List ℕ} (hl : Layout s dev) (ht : TreeAt s dev nr)
  (hp : IsSlot p) (hreach : Reached s dev nr p) (hz : ZoneFree s dev z)
  (hempty : s.zoneAt dev nr p = 0) (hblank : IsNode p → Blank s dev z)

include hl ht hp hreach hz hempty hblank in
/-- **A link of an empty zone changes one slot.** -/
theorem zoneAt_link_blank {q : List ℕ} (hq : IsSlot q) :
    (s.link dev nr p z).zoneAt dev nr q = if q = p then z else s.zoneAt dev nr q := by
  by_cases hout : ∀ l, l ≠ [] → q ≠ l ++ p
  · exact zoneAt_link hl ht.nodes hp hreach hz.lt q hq hout
  · -- a slot behind `p` was empty, and the new zone has nothing for it
    obtain ⟨l, hne, rfl⟩ : ∃ l, l ≠ [] ∧ q = l ++ p := by
      by_contra hno
      exact hout fun l hl hq => hno ⟨l, hl, hq⟩
    obtain ⟨j, hj⟩ := hq.of_append hp.ne_nil l hne
    have hnode := ((isSlot_cons_iff hp.ne_nil).mp hj).2
    have hold : s.zoneAt dev nr (l ++ p) = 0 := IndexTree.get_append_of_null hp.ne_nil hempty l
    rw [if_neg fun h => hne (List.self_eq_append_left.mp h.symm), hold]
    rcases List.eq_nil_or_concat l with rfl | ⟨l', k, rfl⟩
    · exact absurd rfl hne
    · rw [List.concat_append] at hq ⊢
      have hk : IsSlot (k :: p) := hq.suffix (by simp) l'
      refine IndexTree.get_append_of_null (by simp) ?_ l'
      refine (zoneAt_link_child hl ht.nodes hp hreach hz hk).trans ?_
      exact hblank hnode k ((isSlot_cons_iff hp.ne_nil).mp hk).1

include hl ht hp hreach hz hempty hblank in
/-- The tree stays well formed. -/
theorem treeAt_link : TreeAt (s.link dev nr p z) dev nr :=
  zonesAt_link hl ht hp hreach hz (fun _ hq => hq) fun _ hq =>
    zoneAt_link_blank hl ht hp hreach hz hempty hblank hq

include hl ht hp hreach hz in
/-- The zone is free no more; the other free zones are the same. -/
theorem freeZones_link : freeZones (s.link dev nr p z) dev = (freeZones s dev).erase z := by
  have hdesc := (layout_link (z := z) hl ht.nodes hp hreach).2.1
  ext y
  rw [mem_freeZones, Finset.mem_erase, mem_freeZones, ZoneFree, hdesc,
    zbit_link hl ht.nodes hp hreach hz]
  have h1 := hz.1
  constructor
  · rintro ⟨h2, h3, h4⟩
    split at h4
    · exact Bool.noConfusion h4
    · rename_i hne
      exact ⟨fun hc => hne (hc ▸ rfl), h2, h3, h4⟩
  · rintro ⟨hne, h2, h3, h4⟩
    refine ⟨h2, h3, ?_⟩
    rw [if_neg ?_, h4]
    rw [zonePos, zonePos]
    omega

end Link

/-! ### Growth -/

/-- **The tree of an inode has grown**: it keeps what it has, new zones come from free ones,
and nothing else changes. -/
structure Grows (s t : Fs) (dev nr : ℕ) : Prop where
  /-- The super block table. -/
  superTable : t.superTable = s.superTable
  /-- The inode table. -/
  inodeTable : t.inodeTable = s.inodeTable
  /-- The running task. -/
  task : t.task = s.task
  /-- The clock. -/
  time : t.time = s.time
  /-- The other devices. -/
  other : ∀ dev' y, dev' ≠ dev → t.blk dev' y = s.blk dev' y
  /-- The blocks before the data zones, the inode's own zone numbers apart. -/
  front : ∀ y, y < (s.superDesc dev).firstdatazone → (∀ i, s.zmaps dev i ≠ some y) →
    ∀ o, (y = inodeBlock (s.superDesc dev) nr →
      o < inodeOffset nr + 14 ∨ inodeOffset nr + 32 ≤ o) → t.blk dev y o = s.blk dev y o
  /-- The data zones that are no index blocks of the tree. -/
  data : ∀ y, (s.superDesc dev).firstdatazone ≤ y →
    (∀ p, IsNode p → t.zoneAt dev nr p ≠ y) → t.blk dev y = s.blk dev y
  /-- What the tree has stays. -/
  kept : ∀ p, IsSlot p → s.zoneAt dev nr p ≠ 0 → t.zoneAt dev nr p = s.zoneAt dev nr p
  /-- What it gets was free. -/
  fresh : ∀ p, IsSlot p → t.zoneAt dev nr p ≠ s.zoneAt dev nr p →
    ZoneFree s dev (t.zoneAt dev nr p)
  /-- The bits of what it gets are set, and no others. -/
  bits : ∀ g, t.zbit dev g = true ↔ s.zbit dev g = true ∨
    ∃ p, IsSlot p ∧ t.zoneAt dev nr p ≠ s.zoneAt dev nr p ∧
      zonePos (s.superDesc dev) (t.zoneAt dev nr p) = g

theorem Grows.refl (s : Fs) (dev nr : ℕ) : Grows s s dev nr where
  superTable := rfl
  inodeTable := rfl
  task := rfl
  time := rfl
  other _ _ _ := rfl
  front _ _ _ _ _ := rfl
  data _ _ _ := rfl
  kept _ _ _ := rfl
  fresh _ _ h := absurd rfl h
  bits _ := ⟨Or.inl, fun h => h.elim id fun ⟨_, _, hne, _⟩ => absurd rfl hne⟩

section Grows

variable {s t u : Fs} {dev nr : ℕ} (hl : Layout s dev) (hi : InodePos (s.superDesc dev) nr)

include hl hi in
theorem Grows.layout (h : Grows s t dev nr) :
    Layout t dev ∧ t.superDesc dev = s.superDesc dev ∧ t.zmaps dev = s.zmaps dev := by
  have hb := hl.inodeBlock_bounds hi
  have h1 := hl.mounted.firstdatazone
  refine hl.of_same h.superTable (funext fun o => ?_)
  exact h.front 1 (by omega) hl.mounted.zmap_ne_one o fun hc => by omega

include hl hi in
/-- What is free afterwards was free before. -/
theorem Grows.free (h : Grows s t dev nr) {z : ℕ} (hz : ZoneFree t dev z) : ZoneFree s dev z := by
  obtain ⟨h1, h2, h3⟩ := hz
  rw [(h.layout hl hi).2.1] at h1 h2 h3
  refine ⟨h1, h2, ?_⟩
  by_contra hset
  have := (h.bits (zonePos (s.superDesc dev) z)).mpr (Or.inl (by simpa using hset))
  rw [h3] at this
  exact Bool.noConfusion this

include hl in
theorem Grows.ne_zero (h : Grows s t dev nr) {p : List ℕ} (hp : IsSlot p)
    (hne : t.zoneAt dev nr p ≠ s.zoneAt dev nr p) : t.zoneAt dev nr p ≠ 0 :=
  (h.fresh p hp hne).pos hl

include hl hi in
/-- **Two growths in a row are one.** -/
theorem Grows.trans (h : Grows s t dev nr) (h' : Grows t u dev nr) : Grows s u dev nr := by
  obtain ⟨hlt, hdesc, hz⟩ := h.layout hl hi
  have h1 := hl.mounted.firstdatazone
  refine ⟨h'.superTable.trans h.superTable, h'.inodeTable.trans h.inodeTable,
    h'.task.trans h.task, h'.time.trans h.time,
    fun dev' y hne => (h'.other dev' y hne).trans (h.other dev' y hne), ?_, ?_, ?_, ?_, ?_⟩
  · intro y hy hmap o ho
    have hstep := h'.front y (by rwa [hdesc]) (by rwa [hz]) o (by rwa [hdesc])
    exact hstep.trans (h.front y hy hmap o ho)
  · intro y hy hno
    have hstep := h'.data y (by rwa [hdesc]) hno
    refine hstep.trans (h.data y hy fun p hp heq => hno p hp ?_)
    rw [h'.kept p hp.isSlot (by rw [heq]; omega), heq]
  · intro p hp hnz
    have hstep := h.kept p hp hnz
    exact (h'.kept p hp (hstep ▸ hnz)).trans hstep
  · intro p hp hne
    by_cases heq : u.zoneAt dev nr p = t.zoneAt dev nr p
    · rw [heq] at hne ⊢
      exact h.fresh p hp hne
    · exact h.free hl hi (h'.fresh p hp heq)
  · intro g
    rw [h'.bits, h.bits, hdesc]
    constructor
    · rintro ((hs | ⟨p, hp, hne, hg⟩) | ⟨p, hp, hne, hg⟩)
      · exact Or.inl hs
      · have hkept := h'.kept p hp (h.ne_zero hl hp hne)
        exact Or.inr ⟨p, hp, by rwa [hkept], by rwa [hkept]⟩
      · refine Or.inr ⟨p, hp, fun hc => hne ?_, hg⟩
        -- were the slot back to what it was, the first growth had changed it for good
        by_contra hut
        by_cases hts : t.zoneAt dev nr p = s.zoneAt dev nr p
        · exact hne (hc.trans hts.symm)
        · exact hne (h'.kept p hp (h.ne_zero hl hp hts))
    · rintro (hs | ⟨p, hp, hne, hg⟩)
      · exact Or.inl (Or.inl hs)
      · by_cases heq : u.zoneAt dev nr p = t.zoneAt dev nr p
        · exact Or.inl (Or.inr ⟨p, hp, by rwa [← heq], by rwa [← heq]⟩)
        · exact Or.inr ⟨p, hp, heq, hg⟩

/-- **A link of an empty zone is a growth.** -/
theorem grows_link {z : ℕ} {p : List ℕ} (hl : Layout s dev) (ht : TreeAt s dev nr) (hp : IsSlot p)
    (hreach : Reached s dev nr p) (hz : ZoneFree s dev z) (hempty : s.zoneAt dev nr p = 0)
    (hblank : IsNode p → Blank s dev z) : Grows s (s.link dev nr p z) dev nr := by
  have hval := fun {q : List ℕ} => zoneAt_link_blank (q := q) hl ht hp hreach hz hempty hblank
  have hplace := slotPlace_cases ht.nodes hp hreach
  refine ⟨link_superTable, link_inodeTable, link_task, link_time,
    fun dev' y hne => link_blk_of_ne (Or.inl hne), ?_, ?_, ?_, ?_, ?_⟩
  · intro y hy hmap o ho
    by_cases hsame : y = (s.slotPlace dev nr p).1
    · subst hsame
      rw [link_blk_self]
      rcases hplace with ⟨r, hr, -, heq⟩ | ⟨j, i, t, -, -, -, hdz, heq⟩
      · rw [heq] at ho ⊢
        have := ho rfl
        exact putU16_of_ne _ _ (by dsimp only; omega) (by dsimp only; omega)
      · have := hdz.1
        rw [heq] at hy
        dsimp only at hy
        omega
    · rw [link_blk_of_ne (Or.inr ⟨hmap, hsame⟩)]
  · intro y hy hno
    refine link_blk_of_ne (Or.inr ⟨hl.zmap_ne_zone hy, ?_⟩)
    rcases hplace with ⟨r, hr, -, heq⟩ | ⟨j, i, t, rfl, -, hnode, hdz, heq⟩
    · have := hl.inodeBlock_bounds ht.inode
      rw [heq]
      dsimp only
      omega
    · rw [heq]
      refine fun hc => hno _ hnode ?_
      rw [hval hnode.isSlot, if_neg (by simp)]
      exact hc.symm
  · intro q hq hnz
    rw [hval hq, if_neg]
    rintro rfl
    exact hnz hempty
  · intro q hq hne
    rw [hval hq] at hne ⊢
    by_cases hqp : q = p
    · rw [if_pos hqp]
      exact hz
    · rw [if_neg hqp] at hne
      exact absurd rfl hne
  · intro g
    rw [zbit_link hl ht.nodes hp hreach hz]
    constructor
    · intro h
      by_cases hg : g = zonePos (s.superDesc dev) z
      · refine Or.inr ⟨p, hp, ?_, ?_⟩
        · rw [hval hp, if_pos rfl, hempty]
          exact hz.pos hl
        · rw [hval hp, if_pos rfl, hg]
      · rw [if_neg hg] at h
        exact Or.inl h
    · rintro (h | ⟨q, hq, hne, hg⟩)
      · rw [h, ite_self]
      · rw [hval hq] at hne hg
        by_cases hqp : q = p
        · rw [if_pos hqp] at hg
          rw [if_pos hg.symm]
        · rw [if_neg hqp] at hne
          exact absurd rfl hne

end Grows

/-- A zone that is still free has what it had. -/
theorem Grows.blk_of_free {s t : Fs} {dev nr z : ℕ} (hl : Layout s dev) (ht : TreeAt t dev nr) (h : Grows s t dev nr)
    (hz : ZoneFree s dev z) (hz' : ZoneFree t dev z) : t.blk dev z = s.blk dev z :=
  -- a zone that is still free is no index block
  h.data z hz.1 fun q hq hc => (ht.zone q hq.isSlot (by
    rw [hc]
    exact hz.pos hl)).ne_free hz' hc

/-! ### The way to a slot -/

/-- The slots on the way to a slot, from the root on. -/
def slotsTo : List ℕ → List (List ℕ)
  | [] => []
  | j :: p => slotsTo p ++ [j :: p]

theorem mem_slotsTo {q : List ℕ} : ∀ {p : List ℕ}, q ∈ slotsTo p ↔ q ≠ [] ∧ q <:+ p
  | [] => iff_of_false List.not_mem_nil fun h => h.1 (List.suffix_nil.mp h.2)
  | j :: p => by
    rw [slotsTo, List.mem_append, mem_slotsTo, List.mem_singleton, List.suffix_cons_iff]
    constructor
    · rintro (⟨hne, hsuf⟩ | rfl)
      · exact ⟨hne, Or.inr hsuf⟩
      · exact ⟨by simp, Or.inl rfl⟩
    · rintro ⟨hne, rfl | hsuf⟩
      · exact Or.inr rfl
      · exact Or.inl ⟨hne, hsuf⟩

/-- **What the growth of a tree depends on is the same**: the tree, the bitmap and the free zones. -/
structure SameFree (s t : Fs) (dev nr : ℕ) : Prop where
  /-- The blocks are in order. -/
  layout : Layout t dev
  /-- The super block. -/
  desc : t.superDesc dev = s.superDesc dev
  /-- The bitmap. -/
  zbit : ∀ g, t.zbit dev g = s.zbit dev g
  /-- The tree. -/
  tree : ∀ p, IsSlot p → t.zoneAt dev nr p = s.zoneAt dev nr p
  /-- What is in the free zones. -/
  blk : ∀ z, ZoneFree s dev z → t.blk dev z = s.blk dev z

namespace SameFree

variable {s t : Fs} {dev nr : ℕ} (h : SameFree s t dev nr)

include h

theorem free {z : ℕ} : ZoneFree t dev z ↔ ZoneFree s dev z := by
  rw [ZoneFree, ZoneFree, h.desc, h.zbit]

theorem freeZones : freeZones t dev = Onixs.freeZones s dev := by
  ext z
  rw [mem_freeZones, mem_freeZones, h.free]

theorem blank {z : ℕ} (hz : ZoneFree s dev z) (hblank : Blank s dev z) : Blank t dev z := fun j hj => by
  rw [Fs.zoneEntry, h.blk z hz]
  exact hblank j hj

theorem trans {u : Fs} (h' : SameFree t u dev nr) : SameFree s u dev nr where
  layout := h'.layout
  desc := h'.desc.trans h.desc
  zbit g := (h'.zbit g).trans (h.zbit g)
  tree p hp := (h'.tree p hp).trans (h.tree p hp)
  blk z hz := (h'.blk z (h.free.mpr hz)).trans (h.blk z hz)

theorem treeAt (ht : TreeAt s dev nr) : TreeAt t dev nr := by
  refine ⟨?_, fun p hp hnz => ?_, fun p q hp hq hnz heq => ?_⟩
  · rw [h.desc]
    exact ht.inode
  · rw [h.tree p hp] at hnz ⊢
    have hz := ht.zone p hp hnz
    rwa [DataZone, h.desc, h.zbit]
  · rw [h.tree p hp] at hnz heq
    rw [h.tree q hq] at heq
    exact ht.inj p q hp hq hnz heq

end SameFree

/-- **Ready to fill slots**: where `R ps s` holds, the slots `ps` can be passed over from state `s` on, one after the
other. An empty one takes the first free zone, of which it may be known what `P` says. -/
structure Supply (dev nr : ℕ) (R : List (List ℕ) → Fs → Prop) (P : List ℕ → ℕ → Prop) : Prop where
  /-- The blocks are in order. -/
  layout : ∀ {ps s}, R ps s → Layout s dev
  /-- The tree is well formed. -/
  tree : ∀ {ps s}, R ps s → TreeAt s dev nr
  /-- Position 0 of the bitmap stands for no zone. -/
  zero : ∀ {ps s}, R ps s → s.zbit dev 0 = true
  /-- What is passed over are slots. -/
  slots : ∀ {ps s}, R ps s → ∀ q ∈ ps, IsSlot q
  /-- A slot may be taken already. -/
  pass : ∀ {p ps s}, R (p :: ps) s → s.zoneAt dev nr p ≠ 0 → R ps s
  /-- For an empty one there is a zone. -/
  free : ∀ {p ps s}, R (p :: ps) s → s.zoneAt dev nr p = 0 → ∃ z, ZoneFree s dev z
  /-- The zone reads as an empty index block if it becomes one. -/
  blank : ∀ {p ps s z}, R (p :: ps) s → s.zoneAt dev nr p = 0 → FirstFree s dev z → P p z ∧ (IsNode p → Blank s dev z)
  /-- The other slots can still be passed over. -/
  link : ∀ {p ps s z}, R (p :: ps) s → Reached s dev nr p → s.zoneAt dev nr p = 0 → FirstFree s dev z →
    R ps (s.link dev nr p z)
  /-- Where the same things are free this is the same. -/
  same : ∀ {ps s t}, R ps s → SameFree s t dev nr → R ps t

section Supply

variable {s : Fs} {dev nr : ℕ} {R : List (List ℕ) → Fs → Prop} {P : List ℕ → ℕ → Prop} {p : List ℕ} {ps : List (List ℕ)}
  (hR : Supply dev nr R P)

include hR

/-- **A pass of the loop grows the tree by at most its slot.** -/
theorem Supply.entry (h : R (p :: ps) s) (hreach : Reached s dev nr p) {buf array index : ℕ}
    (hplace : s.slotPlace dev nr p = (buf, array + 2 * index)) :
    ∃ t, bmapEntry s dev buf array index true = some (t.zoneAt dev nr p, t) ∧ t.zoneAt dev nr p ≠ 0 ∧
      Grows s t dev nr ∧ R ps t ∧ (s.zoneAt dev nr p = 0 → P p (t.zoneAt dev nr p)) ∧
      ∀ q, IsSlot q → q ≠ p → t.zoneAt dev nr q = s.zoneAt dev nr q := by
  have hslot := hR.slots h p List.mem_cons_self
  by_cases hempty : s.zoneAt dev nr p = 0
  · obtain ⟨z, hz, hrun⟩ := bmapEntry_link (hR.layout h) (hR.tree h).nodes hslot hreach (hR.zero h)
      (hR.free h hempty) hplace hempty
    obtain ⟨hP, hblank⟩ := hR.blank h hempty hz
    have hval := fun {q : List ℕ} =>
      zoneAt_link_blank (q := q) (hR.layout h) (hR.tree h) hslot hreach hz.1 hempty hblank
    have hself : (s.link dev nr p z).zoneAt dev nr p = z := by rw [hval hslot, if_pos rfl]
    refine ⟨s.link dev nr p z, ?_, ?_, grows_link (hR.layout h) (hR.tree h) hslot hreach hz.1 hempty hblank,
      hR.link h hreach hempty hz, fun _ => ?_, fun q hq hne => ?_⟩
    · rw [hrun, hself]
    · rw [hself]
      exact hz.1.pos (hR.layout h)
    · rwa [hself]
    · rw [hval hq, if_neg hne]
  · exact ⟨s, bmapEntry_of_ne hslot hreach true hplace hempty, hempty, Grows.refl s dev nr, hR.pass h hempty,
      fun hc => absurd hc hempty, fun _ _ _ => rfl⟩

/-- **`bmap` with `create` grows the tree along the path of its slot.** -/
theorem Supply.bmapPath : ∀ p, IsSlot p → ∀ {ps s}, R (slotsTo p ++ ps) s →
    ∃ t, bmapPath s dev nr true p = some (t.zoneAt dev nr p, t) ∧ t.zoneAt dev nr p ≠ 0 ∧ Grows s t dev nr ∧ R ps t ∧
      (s.zoneAt dev nr p = 0 → P p (t.zoneAt dev nr p)) ∧
      ∀ q, IsSlot q → ¬q <:+ p → t.zoneAt dev nr q = s.zoneAt dev nr q
  | [], hp, _, _, _ => absurd rfl hp.ne_nil
  | [r], _, ps, s, h => by
    obtain ⟨t, hrun, hnz, hgrows, hready, hP, hrest⟩ := hR.entry (p := [r]) h (fun j i t ht => by simp at ht) rfl
    exact ⟨t, hrun, hnz, hgrows, hready, hP, fun q hq hne => hrest q hq fun hc => hne (hc ▸ List.suffix_refl _)⟩
  | j :: i :: p, hp, ps, s, h => by
    rw [slotsTo, List.append_assoc] at h
    obtain ⟨t, hrun, hnz, hgrows, hready, -, hrest⟩ := Supply.bmapPath (i :: p) (IsSlot.closed j i p hp) h
    have hreach : Reached t dev nr (j :: i :: p) := fun j' i' p' heq => by
      obtain ⟨-, rfl, rfl⟩ : j = j' ∧ i = i' ∧ p = p' := by simpa using heq
      exact hnz
    have hplace : t.slotPlace dev nr (j :: i :: p) = (t.zoneAt dev nr (i :: p), 0 + 2 * j) := by
      rw [Nat.zero_add]
      rfl
    obtain ⟨u, hrun', hnz', hgrows', hready', hP', hrest'⟩ := hR.entry hready hreach hplace
    have hself : ¬j :: i :: p <:+ i :: p := fun hc => absurd hc.length_le (by simp)
    refine ⟨u, ?_, hnz', hgrows.trans (hR.layout h) (hR.tree h).inode hgrows', hready', fun hempty => ?_,
      fun q hq hne => ?_⟩
    · rw [Onixs.bmapPath, hrun]
      simp only [Option.bind_eq_bind, Option.bind_some]
      rw [if_neg hnz, hrun']
    · exact hP' ((hrest _ hp hself).trans hempty)
    · rw [hrest' q hq fun hc => hne (hc ▸ List.suffix_refl _)]
      exact hrest q hq fun hc => hne (hc.trans (List.suffix_cons j _))

end Supply

/-! ### Counting the free zones -/

/-- **Ready to grow**: the tree is well formed, position 0 of the bitmap is set, the free zones
read as empty index blocks, and there are as many of them as empty slots in `N`. -/
structure Ready (s : Fs) (dev nr : ℕ) (N : Finset (List ℕ)) : Prop where
  /-- The blocks are in order. -/
  layout : Layout s dev
  /-- The tree is well formed. -/
  tree : TreeAt s dev nr
  /-- Position 0 stands for no zone. -/
  zero : s.zbit dev 0 = true
  /-- The free zones read as empty index blocks. -/
  blank : ∀ z, ZoneFree s dev z → Blank s dev z
  /-- `N` is a set of slots. -/
  slots : ∀ q ∈ N, IsSlot q
  /-- There are enough of them. -/
  enough : Enough s dev nr N

section Ready

variable {s t : Fs} {dev nr : ℕ} {N : Finset (List ℕ)}

/-- A link takes one from the empty slots and one from the free zones. -/
theorem Ready.link (h : Ready s dev nr N) {p : List ℕ} (hp : p ∈ N) (hreach : Reached s dev nr p)
    {z : ℕ} (hz : ZoneFree s dev z) (hempty : s.zoneAt dev nr p = 0) :
    Ready (s.link dev nr p z) dev nr N := by
  have hslot := h.slots p hp
  have hblank : IsNode p → Blank s dev z := fun _ => h.blank z hz
  have hgrows := grows_link h.layout h.tree hslot hreach hz hempty hblank
  have htree := treeAt_link h.layout h.tree hslot hreach hz hempty hblank
  obtain ⟨hlay, hdesc, -⟩ := layout_link (z := z) h.layout h.tree.nodes hslot hreach
  have hfilter : (N.filter fun q => (s.link dev nr p z).zoneAt dev nr q = 0)
      = (N.filter fun q => s.zoneAt dev nr q = 0).erase p := by
    ext q
    simp only [Finset.mem_filter, Finset.mem_erase]
    constructor
    · rintro ⟨hq, hval⟩
      rw [zoneAt_link_blank h.layout h.tree hslot hreach hz hempty hblank (h.slots q hq)] at hval
      by_cases hqp : q = p
      · rw [if_pos hqp] at hval
        exact absurd hval (hz.pos h.layout)
      · rw [if_neg hqp] at hval
        exact ⟨hqp, hq, hval⟩
    · rintro ⟨hqp, hq, hval⟩
      refine ⟨hq, ?_⟩
      rw [zoneAt_link_blank h.layout h.tree hslot hreach hz hempty hblank (h.slots q hq), if_neg hqp, hval]
  refine ⟨hlay, htree, ?_, fun y hy j hj => ?_, h.slots, ?_⟩
  · rw [zbit_link h.layout h.tree.nodes hslot hreach hz, h.zero, ite_self]
  · have hfree := hgrows.free h.layout h.tree.inode hy
    rw [Fs.zoneEntry, hgrows.blk_of_free h.layout htree hfree hy]
    exact h.blank y hfree j hj
  · rw [Enough, hfilter, freeZones_link h.layout h.tree hslot hreach hz,
      Finset.card_erase_of_mem (Finset.mem_filter.mpr ⟨hp, hempty⟩),
      Finset.card_erase_of_mem (mem_freeZones.mpr hz)]
    exact Nat.sub_le_sub_right h.enough 1

/-- With an empty slot in `N` there is a free zone. -/
theorem Ready.exists_free (h : Ready s dev nr N) {p : List ℕ} (hp : p ∈ N)
    (hempty : s.zoneAt dev nr p = 0) : ∃ z, ZoneFree s dev z := by
  have hpos : 0 < (N.filter fun q => s.zoneAt dev nr q = 0).card :=
    Finset.card_pos.mpr ⟨p, Finset.mem_filter.mpr ⟨hp, hempty⟩⟩
  obtain ⟨z, hz⟩ := Finset.card_pos.mp (lt_of_lt_of_le hpos h.enough)
  exact ⟨z, mem_freeZones.mp hz⟩

theorem Ready.of_same (h : Ready s dev nr N) (hsame : SameFree s t dev nr) : Ready t dev nr N where
  layout := hsame.layout
  tree := hsame.treeAt h.tree
  zero := (hsame.zbit 0).trans h.zero
  blank z hz := hsame.blank (hsame.free.mp hz) (h.blank z (hsame.free.mp hz))
  slots := h.slots
  enough := by
    have hfilter : (N.filter fun q => t.zoneAt dev nr q = 0) = N.filter fun q => s.zoneAt dev nr q = 0 :=
      Finset.filter_congr fun q hq => by rw [hsame.tree q (h.slots q hq)]
    rw [Enough, hsame.freeZones, hfilter]
    exact h.enough

/-- **Who is ready to grow can fill the slots of `N`** in any order. -/
theorem supply_ready (dev nr : ℕ) (N : Finset (List ℕ)) :
    Supply dev nr (fun ps s => Ready s dev nr N ∧ ∀ q ∈ ps, q ∈ N) fun _ _ => True where
  layout h := h.1.layout
  tree h := h.1.tree
  zero h := h.1.zero
  slots h q hq := h.1.slots q (h.2 q hq)
  pass h _ := ⟨h.1, fun q hq => h.2 q (List.mem_cons_of_mem _ hq)⟩
  free h hempty := h.1.exists_free (h.2 _ List.mem_cons_self) hempty
  blank h _ hz := ⟨trivial, fun _ => h.1.blank _ hz.1⟩
  link h hreach hempty hz :=
    ⟨h.1.link (h.2 _ List.mem_cons_self) hreach hz.1 hempty, fun q hq => h.2 q (List.mem_cons_of_mem _ hq)⟩
  same h hsame := ⟨h.1.of_same hsame, h.2⟩

end Ready

end Onixs
