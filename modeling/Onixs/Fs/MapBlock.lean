import Mathlib.Order.Interval.Finset.Nat
import Onixs.Fs.ZoneGrow

/-!
# Mapping one block

What `bmap` with `create` has to do (`Onixs.MapsBlock`): return a zone that was mapped
at the block or free, leave it mapped, and leave every other block mapped as it was.

`balloc` does not clear a zone, and `bmap` takes a zone it has just got for an index
block as it is. Whatever an earlier file left in it shows up as mapped blocks. So the
function does its duty as long as it creates no index block (a direct block, or an index
block that is there), and when it creates one, depending on the contents of the zone
that is first free: `Onixs.bmapPath_node` computes the outcome for any contents, and
`Onixs.CleanIndex` is the condition. When two index blocks are created, the condition
asks the same of the second and that the first be empty.
-/

namespace Onixs

open Bytes

/-! ### The property and the condition -/

/-- **`bmap` maps block `b` and nothing else.** -/
def MapsBlock (s : Fs) (dev i b : ℕ) : Prop :=
  ∃ z t, bmap s i b true = some (z, t) ∧ z ≠ 0 ∧
    (bmap s i b false = some (z, s) ∨ ZoneFree s dev z) ∧ bmap t i b false = some (z, t) ∧
    ∀ b' < totalBlock, b' ≠ b →
      (bmap t i b' false).map Prod.fst = (bmap s i b' false).map Prod.fst

/-- The second zone `balloc` takes. -/
def SecondFree (s : Fs) (dev z : ℕ) : Prop :=
  ZoneFree s dev z ∧ ∃ z₁, FirstFree s dev z₁ ∧ z ≠ z₁ ∧
    ∀ z', ZoneFree s dev z' → z' ≠ z₁ → z ≤ z'

/-- A zone that reads as an empty index block but for entry `j`, which may hold a free zone. -/
def BlankBut (s : Fs) (dev z j : ℕ) : Prop :=
  (∀ k < 512, k ≠ j → s.zoneEntry dev z k = 0) ∧
    (s.zoneEntry dev z j = 0 ∨ ZoneFree s dev (s.zoneEntry dev z j))

/-- **The index blocks that the walk to a slot creates come from zones with nothing in them**,
but for the entry of the slot itself. -/
def CleanIndex (s : Fs) (dev nr : ℕ) : List ℕ → Prop
  | [j, r] => s.zoneAt dev nr [r] = 0 → ∀ z, FirstFree s dev z → BlankBut s dev z j
  | [k, j, r] =>
      (s.zoneAt dev nr [r] ≠ 0 → s.zoneAt dev nr [j, r] = 0 →
        ∀ z, FirstFree s dev z → BlankBut s dev z k) ∧
      (s.zoneAt dev nr [r] = 0 → (∀ z, FirstFree s dev z → Blank s dev z) ∧
        ∀ z, SecondFree s dev z → BlankBut s dev z k)
  | _ => True

/-! ### The walk, slot by slot -/

section Walk

variable {s : Fs} {dev nr : ℕ}

theorem reached_cons {j i : ℕ} {p : List ℕ} (h : s.zoneAt dev nr (i :: p) ≠ 0) :
    Reached s dev nr (j :: i :: p) := fun j' i' p' heq => by
  obtain ⟨-, rfl, rfl⟩ : j = j' ∧ i = i' ∧ p = p' := by simpa using heq
  exact h

theorem reached_root (r : ℕ) : Reached s dev nr [r] := fun _ _ _ heq => by simp at heq

/-- The walk to a slot that is taken reads it. -/
theorem bmapPath_of_ne (create : Bool) :
    ∀ p, IsSlot p → s.zoneAt dev nr p ≠ 0 →
      bmapPath s dev nr create p = some (s.zoneAt dev nr p, s)
  | [], hp, _ => absurd rfl hp.ne_nil
  | [r], hp, h => bmapEntry_of_ne hp (reached_root r) create rfl h
  | j :: i :: p, hp, h => by
    have hpar : s.zoneAt dev nr (i :: p) ≠ 0 := IndexTree.get_tail_ne_zero h
    have hplace : s.slotPlace dev nr (j :: i :: p) = (s.zoneAt dev nr (i :: p), 0 + 2 * j) := by
      rw [Nat.zero_add]
      rfl
    rw [bmapPath, bmapPath_of_ne create (i :: p) (IsSlot.closed j i p hp) hpar]
    simp only [Option.bind_eq_bind, Option.bind_some]
    rw [if_neg hpar, bmapEntry_of_ne hp (reached_cons hpar) create hplace h]

/-- The walk to an empty slot that can be reached links the first free zone. -/
theorem bmapPath_of_empty (hl : Layout s dev) (hn : NodesAt s dev nr) (hzero : s.zbit dev 0 = true)
    (hex : ∃ z, ZoneFree s dev z) :
    ∀ p, IsSlot p → Reached s dev nr p → s.zoneAt dev nr p = 0 →
      ∃ z, FirstFree s dev z ∧ bmapPath s dev nr true p = some (z, s.link dev nr p z)
  | [], hp, _, _ => absurd rfl hp.ne_nil
  | [r], hp, hreach, h => bmapEntry_link hl hn hp hreach hzero hex rfl h
  | j :: i :: p, hp, hreach, h => by
    have hpar : s.zoneAt dev nr (i :: p) ≠ 0 := hreach j i p rfl
    have hplace : s.slotPlace dev nr (j :: i :: p) = (s.zoneAt dev nr (i :: p), 0 + 2 * j) := by
      rw [Nat.zero_add]
      rfl
    obtain ⟨z, hz, hrun⟩ := bmapEntry_link hl hn hp hreach hzero hex hplace h
    refine ⟨z, hz, ?_⟩
    rw [bmapPath, bmapPath_of_ne true (i :: p) (IsSlot.closed j i p hp) hpar]
    simp only [Option.bind_eq_bind, Option.bind_some]
    rw [if_neg hpar, hrun]

/-- After the walk to the node, the walk goes on as if it started there. -/
theorem bmapPath_resume {t : Fs} {i : ℕ} {p : List ℕ} (j : ℕ)
    (hrun : bmapPath s dev nr true (i :: p) = some (t.zoneAt dev nr (i :: p), t))
    (hp : IsSlot (i :: p)) (hnz : t.zoneAt dev nr (i :: p) ≠ 0) :
    bmapPath s dev nr true (j :: i :: p) = bmapPath t dev nr true (j :: i :: p) := by
  rw [bmapPath, bmapPath, hrun, bmapPath_of_ne true (i :: p) hp hnz]

end Walk

/-! ### What a call achieves -/

/-- The tables that say where a tree is are the same. -/
def SameTables (s t : Fs) (dev : ℕ) : Prop :=
  t.inodeTable = s.inodeTable ∧ t.superDesc dev = s.superDesc dev

/-- What `bmap` has to achieve at a slot, as the zone tree shows it. -/
def Outcome (s t : Fs) (dev nr : ℕ) (p : List ℕ) : Prop :=
  t.zoneAt dev nr p ≠ 0 ∧
    (t.zoneAt dev nr p = s.zoneAt dev nr p ∨ ZoneFree s dev (t.zoneAt dev nr p)) ∧
    ∀ q, IsSlot q → ¬IsNode q → q ≠ p → t.zoneAt dev nr q = s.zoneAt dev nr q

theorem Fs.Holds.of_same {s t : Fs} {dev nr i : ℕ} (h : s.Holds dev nr i)
    (hsame : SameTables s t dev) : t.Holds dev nr i := by
  obtain ⟨hi, hd⟩ := hsame
  exact ⟨h.pos, hd ▸ h.le, hi ▸ h.dev_eq, hi ▸ h.nr_eq, by rw [hi, hd]; exact h.buf, hi ▸ h.desc⟩

/-- **The property of `bmap` is the outcome of the walk.** -/
theorem mapsBlock_iff_outcome {s t : Fs} {dev nr i b : ℕ} (hh : s.Holds dev nr i)
    (hb : b < 262663)
    (hrun : bmapPath s dev nr true (bmapSlot b) = some (t.zoneAt dev nr (bmapSlot b), t))
    (hsame : SameTables s t dev) : MapsBlock s dev i b ↔ Outcome s t dev nr (bmapSlot b) := by
  have hht := hh.of_same hsame
  have hold : bmap s i b false = some (s.zoneAt dev nr (bmapSlot b), s) := bmap_false hh hb
  have hnew : bmap t i b false = some (t.zoneAt dev nr (bmapSlot b), t) := bmap_false hht hb
  have hcall : bmap s i b true = some (t.zoneAt dev nr (bmapSlot b), t) :=
    (bmap_eq_path hh hb true).trans hrun
  constructor
  · rintro ⟨z, u, hbmap, hnz, hwhich, hagain, hrest⟩
    obtain ⟨rfl, rfl⟩ : t.zoneAt dev nr (bmapSlot b) = z ∧ t = u := by
      simpa using hcall.symm.trans hbmap
    refine ⟨hnz, hwhich.imp_left fun h => ?_, fun q hq hqn hne => ?_⟩
    · rw [hold] at h
      exact (Prod.ext_iff.mp (Option.some.inj h)).1.symm
    · obtain ⟨b', hb', rfl⟩ := hq.eq_bmapSlot hqn
      have hrest' := hrest b' (by rwa [totalBlock_eq]) fun hc => hne (hc ▸ rfl)
      rw [bmap_false hht hb', bmap_false hh hb'] at hrest'
      exact Option.some.inj hrest'
  · rintro ⟨hnz, hwhich, hrest⟩
    refine ⟨_, t, hcall, hnz, hwhich.imp_left fun h => ?_, hnew, fun b' hb' hne => ?_⟩
    · rw [hold, h]
    · rw [totalBlock_eq] at hb'
      rw [bmap_false hht hb', bmap_false hh hb']
      simp only [Option.map_some]
      rw [hrest _ (isSlot_bmapSlot hb') (not_isNode_bmapSlot b') fun hc => hne (bmapSlot_inj hc)]

section Places

variable {s : Fs} {dev nr : ℕ}

theorem sameTables_link (hl : Layout s dev) (hn : NodesAt s dev nr) {p : List ℕ} (hp : IsSlot p)
    (hreach : Reached s dev nr p) (z : ℕ) : SameTables s (s.link dev nr p z) dev :=
  ⟨link_inodeTable, (layout_link hl hn hp hreach).2.1⟩

/-- The walk to a slot of an index block that is there, or to a root. -/
theorem outcome_of_reached (hl : Layout s dev) (hn : NodesAt s dev nr) (hzero : s.zbit dev 0 = true)
    {p : List ℕ} (hex : s.zoneAt dev nr p = 0 → ∃ z, ZoneFree s dev z) (hp : IsSlot p)
    (hnode : ¬IsNode p) (hreach : Reached s dev nr p) :
    ∃ t, bmapPath s dev nr true p = some (t.zoneAt dev nr p, t) ∧ SameTables s t dev ∧
      Outcome s t dev nr p := by
  by_cases hempty : s.zoneAt dev nr p = 0
  · obtain ⟨z, hz, hrun⟩ := bmapPath_of_empty hl hn hzero (hex hempty) p hp hreach hempty
    have hval : ∀ q, IsSlot q → (s.link dev nr p z).zoneAt dev nr q
        = if q = p then z else s.zoneAt dev nr q := fun q hq =>
      zoneAt_link hl hn hp hreach hz.1.lt q hq fun l hne hc => by
        obtain ⟨j, hj⟩ := (hc ▸ hq : IsSlot (l ++ p)).of_append hp.ne_nil l hne
        exact hnode ((isSlot_cons_iff hp.ne_nil).mp hj).2
    have hself := (hval p hp).trans (if_pos rfl)
    refine ⟨s.link dev nr p z, by rw [hrun, hself], sameTables_link hl hn hp hreach z, ?_,
      Or.inr ?_, fun q hq _ hne => ?_⟩
    · rw [hself]
      exact hz.1.pos hl
    · rw [hself]
      exact hz.1
    · rw [hval q hq, if_neg hne]
  · exact ⟨s, bmapPath_of_ne true p hp hempty, ⟨rfl, rfl⟩, hempty, Or.inl rfl, fun _ _ _ _ => rfl⟩

/-- Linking a zone as a last index block leaves the index blocks distinct data zones, whatever
the zone contains. -/
theorem nodesAt_link (hl : Layout s dev) (ht : TreeAt s dev nr) {p : List ℕ} (hp : IsNode p)
    (hlast : p ≠ [8]) (hreach : Reached s dev nr p) {z : ℕ} (hz : ZoneFree s dev z) :
    NodesAt (s.link dev nr p z) dev nr :=
  zonesAt_link hl ht hp.isSlot hreach hz (fun _ hq => hq.isSlot) fun q hq =>
    zoneAt_link hl ht.nodes hp.isSlot hreach hz.lt q hq.isSlot fun _ hne hc =>
      hlast (IsNode.eq_of_append hne hp.ne_nil (hc ▸ hq))

/-- **The walk through an index block that it creates**, whatever the block contains: the zone
of the slot is what the block has in its entry, or a second free zone, and the other entries
are what the block has there. -/
theorem bmapPath_node (hl : Layout s dev) (ht : TreeAt s dev nr) (hzero : s.zbit dev 0 = true)
    {k : ℕ} {p : List ℕ} (hp : IsNode p) (hlast : p ≠ [8]) (hk : k < 512)
    (hreach : Reached s dev nr p) (hempty : s.zoneAt dev nr p = 0)
    (hcard : 2 ≤ (freeZones s dev).card) :
    ∃ z t, FirstFree s dev z ∧
      bmapPath s dev nr true (k :: p) = some (t.zoneAt dev nr (k :: p), t) ∧ SameTables s t dev ∧
      t.zoneAt dev nr (k :: p) ≠ 0 ∧
      (t.zoneAt dev nr (k :: p) = s.zoneEntry dev z k ∨
        s.zoneEntry dev z k = 0 ∧ ZoneFree s dev (t.zoneAt dev nr (k :: p))) ∧
      (∀ k' < 512, k' ≠ k → t.zoneAt dev nr (k' :: p) = s.zoneEntry dev z k') ∧
      ∀ q, IsSlot q → ¬IsNode q → (∀ k', q ≠ k' :: p) → t.zoneAt dev nr q = s.zoneAt dev nr q := by
  have hslot := hp.isSlot
  have hpos : ∃ z, ZoneFree s dev z := by
    obtain ⟨z, hz⟩ := Finset.card_pos.mp (lt_of_lt_of_le Nat.two_pos hcard)
    exact ⟨z, mem_freeZones.mp hz⟩
  obtain ⟨z, hz, hrun⟩ := bmapPath_of_empty hl ht.nodes hzero hpos p hslot hreach hempty
  have hl₁ := (layout_link (z := z) hl ht.nodes hslot hreach).1
  have hn₁ := nodesAt_link hl ht hp hlast hreach hz.1
  have hself : (s.link dev nr p z).zoneAt dev nr p = z := by
    rw [zoneAt_link hl ht.nodes hslot hreach hz.1.lt p hslot
      fun l hne hc => hne (List.self_eq_append_left.mp hc), if_pos rfl]
  have hchild : ∀ k' < 512, (s.link dev nr p z).zoneAt dev nr (k' :: p) = s.zoneEntry dev z k' :=
    fun k' hk' => zoneAt_link_child hl ht.nodes hslot hreach hz.1
      ((isSlot_cons_iff hslot.ne_nil).mpr ⟨hk', hp⟩)
  have hother : ∀ q, IsSlot q → ¬IsNode q → (∀ k', q ≠ k' :: p) →
      (s.link dev nr p z).zoneAt dev nr q = s.zoneAt dev nr q := by
    intro q hq hqn hqp
    rw [zoneAt_link hl ht.nodes hslot hreach hz.1.lt q hq, if_neg fun hc : q = p => hqn (hc ▸ hp)]
    rintro l hne rfl
    obtain ⟨a, l', rfl⟩ := List.exists_cons_of_ne_nil hne
    cases l' with
    | nil => exact hqp a rfl
    | cons x l' =>
      have hx := ((isSlot_cons_iff (by simp)).mp hq).2
      exact hlast (IsNode.eq_of_append (by simp) hslot.ne_nil hx)
  have hfree := freeZones_link hl ht hslot hreach hz.1
  have hzero₁ : (s.link dev nr p z).zbit dev 0 = true := by
    rw [zbit_link hl ht.nodes hslot hreach hz.1, hzero, ite_self]
  have hpos₁ : ∃ z', ZoneFree (s.link dev nr p z) dev z' := by
    have hcard₁ : 0 < (freeZones (s.link dev nr p z) dev).card := by
      rw [hfree, Finset.card_erase_of_mem (mem_freeZones.mpr hz.1)]
      omega
    obtain ⟨z', hz'⟩ := Finset.card_pos.mp hcard₁
    exact ⟨z', mem_freeZones.mp hz'⟩
  have hkslot : IsSlot (k :: p) := (isSlot_cons_iff hslot.ne_nil).mpr ⟨hk, hp⟩
  have hknode : ¬IsNode (k :: p) := fun h =>
    hlast (IsNode.eq_of_append (l := [k]) (by simp) hslot.ne_nil h)
  have htab₁ := sameTables_link hl ht.nodes hslot hreach z
  generalize hs₁ : s.link dev nr p z = s₁ at *
  have hnz₁ : s₁.zoneAt dev nr p ≠ 0 := by
    rw [hself]
    exact hz.1.pos hl
  obtain ⟨i, t, rfl⟩ := List.exists_cons_of_ne_nil hslot.ne_nil
  rw [bmapPath_resume k (by rw [hrun, hself]) hslot hnz₁]
  obtain ⟨t', hrun', htab, hnz', hwhich, hrest⟩ := outcome_of_reached hl₁ hn₁ hzero₁
    (fun _ => hpos₁) hkslot hknode (reached_cons hnz₁)
  refine ⟨z, t', hz, hrun', ⟨htab.1.trans htab₁.1, htab.2.trans htab₁.2⟩, hnz', ?_, fun k' hk' hne => ?_, fun q hq hqn hqp => ?_⟩
  · rw [← hchild k hk]
    by_cases he : s₁.zoneAt dev nr (k :: i :: t) = 0
    · refine Or.inr ⟨he, ?_⟩
      rcases hwhich with hw | hw
      · exact absurd (hw.trans he) hnz'
      · have herase := mem_freeZones.mpr hw
        rw [hfree] at herase
        exact mem_freeZones.mp (Finset.mem_of_mem_erase herase)
    · have hread := bmapPath_of_ne true _ hkslot he
      rw [hrun'] at hread
      exact Or.inl (Prod.ext_iff.mp (Option.some.inj hread)).1
  · have hk'slot : IsSlot (k' :: i :: t) := (isSlot_cons_iff (by simp)).mpr ⟨hk', hp⟩
    rw [hrest _ hk'slot (fun h => hlast (IsNode.eq_of_append (l := [k']) (by simp) (by simp) h))
      (by simpa using hne), hchild k' hk']
  · rw [hrest q hq hqn (hqp k), hother q hq hqn hqp]

/-- **Creating one index block goes well exactly when its zone has nothing in it**, but for the
entry of the slot. -/
theorem outcome_node_iff (hl : Layout s dev) (ht : TreeAt s dev nr) (hzero : s.zbit dev 0 = true)
    {k : ℕ} {p : List ℕ} (hp : IsNode p) (hlast : p ≠ [8]) (hk : k < 512)
    (hreach : Reached s dev nr p) (hempty : s.zoneAt dev nr p = 0)
    (hcard : 2 ≤ (freeZones s dev).card) :
    ∃ t, bmapPath s dev nr true (k :: p) = some (t.zoneAt dev nr (k :: p), t) ∧
      SameTables s t dev ∧
      (Outcome s t dev nr (k :: p) ↔ ∀ z, FirstFree s dev z → BlankBut s dev z k) := by
  obtain ⟨z, t, hz, hrun, htab, hnz, hwhich, hentry, hrest⟩ :=
    bmapPath_node hl ht hzero hp hlast hk hreach hempty hcard
  have hnull : ∀ k', s.zoneAt dev nr (k' :: p) = 0 := fun k' =>
    IndexTree.get_append_of_null hp.ne_nil hempty [k']
  have hknode : ∀ k', ¬IsNode (k' :: p) := fun k' h =>
    hlast (IsNode.eq_of_append (l := [k']) (by simp) hp.ne_nil h)
  refine ⟨t, hrun, htab, ?_, ?_⟩
  · rintro ⟨-, hwhich', hrest'⟩ z' hz'
    obtain rfl := hz.unique hz'
    refine ⟨fun k' hk' hne => ?_, ?_⟩
    · rw [← hentry k' hk' hne, hrest' _ ((isSlot_cons_iff hp.ne_nil).mpr ⟨hk', hp⟩) (hknode k')
        (by simpa using hne), hnull]
    · rcases hwhich with heq | ⟨he, -⟩
      · rcases hwhich' with hold | hfree
        · exact absurd (hold.trans (hnull k)) hnz
        · exact Or.inr (heq ▸ hfree)
      · exact Or.inl he
  · intro hblank
    obtain ⟨hothers, hown⟩ := hblank z hz
    refine ⟨hnz, Or.inr ?_, fun q hq hqn hne => ?_⟩
    · rcases hwhich with heq | ⟨-, hfree⟩
      · rw [heq]
        exact hown.resolve_left fun he => hnz (heq.trans he)
      · exact hfree
    · by_cases hqp : ∃ k', q = k' :: p
      · obtain ⟨k', rfl⟩ := hqp
        have hk' := ((isSlot_cons_iff hp.ne_nil).mp hq).1
        have hkne : k' ≠ k := fun hc => hne (hc ▸ rfl)
        rw [hentry k' hk' hkne, hothers k' hk' hkne, hnull]
      · exact hrest q hq hqn fun k' hc => hqp ⟨k', hc⟩

/-- **Creating two index blocks goes well** when the first comes from an empty zone and the
second from one with nothing in it but the entry of the slot. -/
theorem outcome_double (hl : Layout s dev) (ht : TreeAt s dev nr) (hzero : s.zbit dev 0 = true)
    {k j : ℕ} (hk : k < 512) (hj : j < 512) (hempty : s.zoneAt dev nr [8] = 0)
    (hcard : 3 ≤ (freeZones s dev).card) (hfirst : ∀ z, FirstFree s dev z → Blank s dev z)
    (hsecond : ∀ z, SecondFree s dev z → BlankBut s dev z k) :
    ∃ t, bmapPath s dev nr true [k, j, 8] = some (t.zoneAt dev nr [k, j, 8], t) ∧
      SameTables s t dev ∧ Outcome s t dev nr [k, j, 8] := by
  have hroot : IsSlot [8] := IsNode.double.isSlot
  have hreach : Reached s dev nr [8] := reached_root 8
  have hpos : ∃ z, ZoneFree s dev z := by
    obtain ⟨z, hz⟩ := Finset.card_pos.mp (lt_of_lt_of_le (by omega) hcard)
    exact ⟨z, mem_freeZones.mp hz⟩
  obtain ⟨z, hz, hrun⟩ := bmapPath_of_empty hl ht.nodes hzero hpos [8] hroot hreach hempty
  have hblank : IsNode [8] → Blank s dev z := fun _ => hfirst z hz
  have hval := fun {q : List ℕ} => zoneAt_link_blank (q := q) hl ht hroot hreach hz.1 hempty hblank
  have hl₁ := (layout_link (z := z) hl ht.nodes hroot hreach).1
  have ht₁ := treeAt_link hl ht hroot hreach hz.1 hempty hblank
  have hzero₁ : (s.link dev nr [8] z).zbit dev 0 = true := by
    rw [zbit_link hl ht.nodes hroot hreach hz.1, hzero, ite_self]
  have hself : (s.link dev nr [8] z).zoneAt dev nr [8] = z := by
    rw [hval hroot, if_pos rfl]
  have hnz₁ : (s.link dev nr [8] z).zoneAt dev nr [8] ≠ 0 := by
    rw [hself]
    exact hz.1.pos hl
  have hnull : ∀ q, q ≠ [] → s.zoneAt dev nr (q ++ [8]) = 0 := fun q _ =>
    IndexTree.get_append_of_null (by simp) hempty q
  have hempty₁ : (s.link dev nr [8] z).zoneAt dev nr [j, 8] = 0 := by
    rw [hval (.middle hj), if_neg (by simp)]
    exact hnull [j] (by simp)
  have hfree := freeZones_link hl ht hroot hreach hz.1
  have hcard₁ : 2 ≤ (freeZones (s.link dev nr [8] z) dev).card := by
    rw [hfree, Finset.card_erase_of_mem (mem_freeZones.mpr hz.1)]
    omega
  have hfree₁ : ∀ y, ZoneFree (s.link dev nr [8] z) dev y ↔ y ≠ z ∧ ZoneFree s dev y := fun y => by
    rw [← mem_freeZones, hfree, Finset.mem_erase, mem_freeZones]
  obtain ⟨z', t, hz', hrun', htab, hnz, hwhich, hentry, hrest⟩ :=
    bmapPath_node hl₁ ht₁ hzero₁ (.middle hj) (by simp) hk (reached_cons hnz₁) hempty₁ hcard₁
  obtain ⟨hne, hfree'⟩ := (hfree₁ z').mp hz'.1
  -- the zone taken second holds what it held before the call
  have hsame : ∀ k', (s.link dev nr [8] z).zoneEntry dev z' k' = s.zoneEntry dev z' k' := fun k' => by
    rw [zoneEntry_link hl ht.nodes hroot hreach hfree'.1 hz.1.lt, if_neg]
    intro hc
    have h1 := (Prod.ext_iff.mp hc).1
    have h2 := (hl.inodeBlock_bounds ht.inode).2
    have h3 := hfree'.1
    simp only [Fs.slotPlace] at h1
    omega
  simp only [hsame] at hwhich hentry
  obtain ⟨hothers, hown⟩ := hsecond z'
    ⟨hfree', z, hz, hne, fun y hy hyz => hz'.2 y ((hfree₁ y).mpr ⟨hyz, hy⟩)⟩
  have htab₁ := sameTables_link hl ht.nodes hroot hreach z
  have hwalk : bmapPath s dev nr true [k, j, 8]
      = bmapPath (s.link dev nr [8] z) dev nr true [k, j, 8] := by
    rw [bmapPath, bmapPath_resume j (by rw [hrun, hself]) hroot hnz₁, ← bmapPath]
  refine ⟨t, hwalk.trans hrun', ⟨htab.1.trans htab₁.1, htab.2.trans htab₁.2⟩, hnz, Or.inr ?_,
    fun q hq hqn hqne => ?_⟩
  · rcases hwhich with heq | ⟨-, hfr⟩
    · rw [heq]
      exact hown.resolve_left fun he => hnz (heq.trans he)
    · exact ((hfree₁ _).mp hfr).2
  · by_cases hqp : ∃ k', q = [k', j, 8]
    · obtain ⟨k', rfl⟩ := hqp
      have hk' := ((isSlot_cons_iff (by simp)).mp hq).1
      have hkne : k' ≠ k := fun hc => hqne (hc ▸ rfl)
      rw [hentry k' hk' hkne, hothers k' hk' hkne]
      exact (hnull [k', j] (by simp)).symm
    · rw [hrest q hq hqn fun k' hc => hqp ⟨k', hc⟩, hval hq,
        if_neg fun hc : q = [8] => hqn (hc ▸ .double)]

/-- Enough free zones for the empty slots on the way. -/
theorem Enough.card_le {p : List ℕ} (h : Enough s dev nr (slotPath p)) (F : Finset (List ℕ))
    (hF : ∀ q ∈ F, q ≠ [] ∧ q <:+ p ∧ s.zoneAt dev nr q = 0) :
    F.card ≤ (freeZones s dev).card := by
  refine le_trans (Finset.card_le_card fun q hq => ?_) h
  obtain ⟨hne, hsuf, hnull⟩ := hF q hq
  exact Finset.mem_filter.mpr ⟨mem_slotPath.mpr ⟨hne, hsuf⟩, hnull⟩

end Places

/-! ### The result -/

section Main

variable {s : Fs} {dev nr i b : ℕ}

/-- A slot that is reached, and is that of a logical block, is mapped without further ado. -/
theorem mapsBlock_of_reached (hl : Layout s dev) (hzero : s.zbit dev 0 = true)
    (hh : s.Holds dev nr i) (ht : TreeAt s dev nr) (hb : b < 262663)
    (henough : Enough s dev nr (slotPath (bmapSlot b)))
    (hreach : Reached s dev nr (bmapSlot b)) : MapsBlock s dev i b := by
  have hslot := isSlot_bmapSlot hb
  obtain ⟨t, hrun, htab, hout⟩ := outcome_of_reached hl ht.nodes hzero (fun hempty => by
    have hcard := henough.card_le {bmapSlot b} fun q hq => by
      rw [Finset.mem_singleton.mp hq]
      exact ⟨hslot.ne_nil, List.suffix_refl _, hempty⟩
    rw [Finset.card_singleton] at hcard
    obtain ⟨z, hz⟩ := Finset.card_pos.mp hcard
    exact ⟨z, mem_freeZones.mp hz⟩) hslot (not_isNode_bmapSlot b) hreach
  exact (mapsBlock_iff_outcome hh hb hrun htab).mpr hout

/-- One index block to create: the property holds exactly when its zone is clean. -/
theorem mapsBlock_node_iff (hl : Layout s dev) (hzero : s.zbit dev 0 = true)
    (hh : s.Holds dev nr i) (ht : TreeAt s dev nr) (hb : b < 262663)
    (henough : Enough s dev nr (slotPath (bmapSlot b))) {k : ℕ} {p : List ℕ}
    (hslot : bmapSlot b = k :: p) (hp : IsNode p) (hlast : p ≠ [8]) (hreach : Reached s dev nr p)
    (hempty : s.zoneAt dev nr p = 0) :
    MapsBlock s dev i b ↔ ∀ z, FirstFree s dev z → BlankBut s dev z k := by
  have hk : k < 512 := ((isSlot_cons_iff hp.ne_nil).mp (hslot ▸ isSlot_bmapSlot hb)).1
  have hcard := henough.card_le {p, k :: p} fun q hq => by
    rcases Finset.mem_insert.mp hq with rfl | hq
    · exact ⟨hp.ne_nil, hslot ▸ List.suffix_cons k q, hempty⟩
    · rw [Finset.mem_singleton.mp hq]
      exact ⟨by simp, hslot ▸ List.suffix_refl _,
        IndexTree.get_append_of_null hp.ne_nil hempty [k]⟩
  rw [Finset.card_pair (by simp)] at hcard
  obtain ⟨t, hrun, htab, hiff⟩ := outcome_node_iff hl ht hzero hp hlast hk hreach hempty hcard
  rw [← hslot] at hrun hiff
  exact (mapsBlock_iff_outcome hh hb hrun htab).trans hiff

/-- **`bmap` with `create` maps its block and nothing else when the index blocks it creates come
from clean zones, and, where it creates at most one, only then.** On a device in order, for an
inode with a well-formed zone tree, and with a free zone for every empty slot on the way. -/
theorem bmap_mapsBlock_iff (hl : Layout s dev) (hzero : s.zbit dev 0 = true)
    (hh : s.Holds dev nr i) (ht : TreeAt s dev nr) (hb : b < totalBlock)
    (henough : Enough s dev nr (slotPath (bmapSlot b))) :
    (CleanIndex s dev nr (bmapSlot b) → MapsBlock s dev i b) ∧
      (b < 519 ∨ s.zoneAt dev nr [8] ≠ 0 → MapsBlock s dev i b →
        CleanIndex s dev nr (bmapSlot b)) := by
  rw [totalBlock_eq] at hb
  have hsplit : (∃ r, bmapSlot b = [r]) ∨ (∃ j, bmapSlot b = [j, 7] ∧ b < 519) ∨
      ∃ k < 512, ∃ j < 512, bmapSlot b = [k, j, 8] ∧ ¬b < 519 := by
    by_cases h7 : b < 7
    · exact Or.inl ⟨b, by rw [bmapSlot, if_pos h7]⟩
    · by_cases h519 : b < 519
      · exact Or.inr (Or.inl ⟨b - 7, by rw [bmapSlot, if_neg h7, if_pos h519], h519⟩)
      · exact Or.inr (Or.inr ⟨(b - 519) % 512, by omega, (b - 519) / 512, by omega,
          by rw [bmapSlot, if_neg h7, if_neg h519], h519⟩)
  rcases hsplit with ⟨r, hslot⟩ | ⟨j, hslot, -⟩ | ⟨k, hk, j, hj, hslot, hdouble⟩
  · -- a direct block
    have hmaps := mapsBlock_of_reached hl hzero hh ht hb henough (hslot ▸ reached_root r)
    refine ⟨fun _ => hmaps, fun _ _ => ?_⟩
    rw [hslot]
    trivial
  · by_cases hempty : s.zoneAt dev nr [7] = 0
    · have hiff := mapsBlock_node_iff hl hzero hh ht hb henough hslot .single (by simp)
        (reached_root 7) hempty
      rw [hiff, hslot]
      exact ⟨fun h => h hempty, fun _ h _ => h⟩
    · have hmaps := mapsBlock_of_reached hl hzero hh ht hb henough (hslot ▸ reached_cons hempty)
      refine ⟨fun _ => hmaps, fun _ _ => ?_⟩
      rw [hslot]
      exact fun h => absurd h hempty
  · by_cases htop : s.zoneAt dev nr [8] = 0
    · -- two index blocks to create
      refine ⟨fun hclean => ?_, fun h => (h.resolve_left hdouble htop).elim⟩
      rw [hslot] at hclean
      obtain ⟨hfirst, hsecond⟩ := hclean.2 htop
      have hnull : ∀ q : List ℕ, s.zoneAt dev nr (q ++ [8]) = 0 := fun q =>
        IndexTree.get_append_of_null (by simp) htop q
      have hcard := henough.card_le {[8], [j, 8], [k, j, 8]} fun q hq => by
        rw [hslot]
        rcases Finset.mem_insert.mp hq with rfl | hq
        · exact ⟨by simp, (List.suffix_cons j _).trans (List.suffix_cons k _), hnull []⟩
        · rcases Finset.mem_insert.mp hq with rfl | hq
          · exact ⟨by simp, List.suffix_cons k _, hnull [j]⟩
          · rw [Finset.mem_singleton.mp hq]
            exact ⟨by simp, List.suffix_refl _, hnull [k, j]⟩
      rw [Finset.card_insert_of_notMem (by simp), Finset.card_pair (by simp)] at hcard
      obtain ⟨t, hrun, htab, hout⟩ :=
        outcome_double hl ht hzero hk hj htop hcard hfirst hsecond
      rw [← hslot] at hrun hout
      exact (mapsBlock_iff_outcome hh hb hrun htab).mpr hout
    · by_cases hmid : s.zoneAt dev nr [j, 8] = 0
      · have hiff := mapsBlock_node_iff hl hzero hh ht hb henough hslot (.middle hj) (by simp)
          (reached_cons htop) hmid
        rw [hiff, hslot]
        exact ⟨fun h => h.1 htop hmid, fun _ h => ⟨fun _ _ => h, fun h0 => absurd h0 htop⟩⟩
      · have hmaps := mapsBlock_of_reached hl hzero hh ht hb henough (hslot ▸ reached_cons hmid)
        refine ⟨fun _ => hmaps, fun _ _ => ?_⟩
        rw [hslot]
        exact ⟨fun _ h0 => absurd h0 hmid, fun h0 => absurd h0 htop⟩

end Main

/-! ### A device with one empty file -/

/-- The descriptor of a device of 1000 blocks, the first data zone being 5. -/
def fileDesc : SuperDesc where
  inodes := 32
  zones := 1000
  imapBlocks := 1
  zmapBlocks := 1
  firstdatazone := 5
  magic := 0x137F

/-- Its blocks: zones 12 to 19 are free, the first of them with contents `stale`, and inode 2 is
an empty regular file. -/
def fileBlocks (stale : Bytes) (b : ℕ) : Bytes :=
  if b = 3 then fun i => if i = 1 then 0#8 else 255#8
  else if b = 4 then putU16 (fun _ => 0#8) 32 0o100777
  else if b = 12 then stale
  else fun _ => 0#8

/-- The device, mounted, with the file in entry 0 of the inode table. -/
def fileFs (stale : Bytes) : Fs :=
  (deviceFs fileDesc (fileBlocks stale)).setInode 0
    { dev := 1, nr := 2, count := 1, buf := 4, desc := 32, atime := 0, ctime := 0, mount := 0 }

section File

variable (stale : Bytes)

theorem fileDesc_valid : fileDesc.Valid :=
  ⟨by decide, by decide, by decide, by decide, by decide, by decide⟩

theorem fileFs_superDesc : (fileFs stale).superDesc 1 = fileDesc :=
  deviceFs_superDesc fileDesc_valid (fileBlocks stale)

theorem fileFs_layout : Layout (fileFs stale) 1 := by
  obtain ⟨hm, hdesc, -, -⟩ :=
    (mounted_deviceFs fileDesc_valid (fileBlocks stale)).of_same (t := fileFs stale) rfl rfl
  refine ⟨hm, ?_⟩
  rw [hdesc, deviceFs_superDesc fileDesc_valid]
  decide

theorem fileFs_blk {b : ℕ} (hb : b ≠ 1) : (fileFs stale).blk 1 b = fileBlocks stale b := by
  simp only [fileFs, Fs.setInode_blk, deviceFs, if_neg hb]

theorem fileFs_zbit (g : ℕ) : (fileFs stale).zbit 1 g = !decide (8 ≤ g ∧ g < 16) := by
  have hz := (fileFs_layout stale).mounted.zmaps (g / 8192)
  rw [fileFs_superDesc] at hz
  rw [Fs.zbit, Fs.mapBit, hz]
  by_cases hg : g / 8192 < 1
  · have hmod : g % 8192 = g := Nat.mod_eq_of_lt (by omega)
    rw [show fileDesc.zmapBlocks = 1 by decide, if_pos hg]
    simp only [show 2 + fileDesc.imapBlocks + g / 8192 = 3 by rw [fileDesc]; dsimp only; omega]
    rw [fileFs_blk stale (by decide), fileBlocks, if_pos rfl, hmod, bitOf]
    have hlt : g % 8 < 8 := Nat.mod_lt _ (by decide)
    by_cases h : 8 ≤ g ∧ g < 16
    · rw [if_pos (by omega), decide_eq_true h, BitVec.getLsbD_zero, Bool.not_true]
    · rw [if_neg (by omega), decide_eq_false h, show (255#8 : BitVec 8) = BitVec.allOnes 8 by decide,
        BitVec.getLsbD_allOnes, decide_eq_true hlt, Bool.not_false]
  · rw [show fileDesc.zmapBlocks = 1 by decide, if_neg hg, decide_eq_false (by omega), Bool.not_false]

theorem fileFs_zero : (fileFs stale).zbit 1 0 = true := by
  rw [fileFs_zbit]
  decide

theorem fileFs_free {z : ℕ} : ZoneFree (fileFs stale) 1 z ↔ 12 ≤ z ∧ z < 20 := by
  rw [ZoneFree, fileFs_zbit, fileFs_superDesc, zonePos, fileDesc]
  simp only [Bool.not_eq_false', decide_eq_true_eq]
  omega

theorem fileFs_holds : (fileFs stale).Holds 1 2 0 := by
  refine ⟨by decide, ?_, rfl, rfl, ?_, ?_⟩
  · rw [fileFs_superDesc]
    decide
  · rw [fileFs_superDesc, show inodeBlock fileDesc 2 = 4 by decide]
    rfl
  · rw [show inodeOffset 2 = 32 by decide]
    rfl

theorem fileFs_rootZone {nr r : ℕ} (hnr : 1 ≤ nr) (hnr' : nr ≤ 32) (hr : r < 9) :
    (fileFs stale).rootZone 1 nr r = 0 := by
  have hblk : inodeBlock fileDesc nr = 4 := by
    rw [inodeBlock_eq hnr (by omega), fileDesc]
    dsimp only
    omega
  rw [Fs.rootZone, fileFs_superDesc, hblk, inodeOffset_eq hnr (by omega), fileFs_blk stale (by decide),
    fileBlocks, if_neg (by decide), if_pos rfl, getU16_putU16_of_disjoint _ _ (by omega), getU16_zero]

theorem fileFs_zoneAt {nr : ℕ} {p : List ℕ} (hnr : 1 ≤ nr) (hnr' : nr ≤ 32) (hp : IsSlot p) :
    (fileFs stale).zoneAt 1 nr p = 0 := by
  have hroot : ∀ r < 9, (fileFs stale).zoneAt 1 nr [r] = 0 := fun r hr =>
    fileFs_rootZone stale hnr hnr' hr
  cases hp with
  | root hr => exact hroot _ hr
  | single hj => exact zoneAt_cons_of_null (hroot 7 (by decide))
  | middle hj => exact zoneAt_cons_of_null (hroot 8 (by decide))
  | double hk hj => exact zoneAt_cons_of_null (zoneAt_cons_of_null (hroot 8 (by decide)))

theorem fileFs_tree : TreeAt (fileFs stale) 1 2 where
  inode := by
    rw [fileFs_superDesc]
    exact ⟨by decide, by decide⟩
  zone _ hp h := absurd (fileFs_zoneAt stale (by decide) (by decide) hp) h
  inj _ _ hp _ h := absurd (fileFs_zoneAt stale (by decide) (by decide) hp) h

/-- Eight free zones are enough for up to eight empty slots. -/
theorem fileFs_enough {N : Finset (List ℕ)} (hN : N.card ≤ 8) : Enough (fileFs stale) 1 2 N := by
  have hsub : Finset.Ico 12 20 ⊆ freeZones (fileFs stale) 1 := fun z hz =>
    mem_freeZones.mpr ((fileFs_free stale).mpr (Finset.mem_Ico.mp hz))
  have hcard : (Finset.Ico 12 20).card ≤ _ := Finset.card_le_card hsub
  rw [Nat.card_Ico] at hcard
  exact le_trans (Finset.card_filter_le _ _) (le_trans hN hcard)

theorem fileFs_first : FirstFree (fileFs stale) 1 12 :=
  ⟨(fileFs_free stale).mpr (by decide), fun _ h => ((fileFs_free stale).mp h).1⟩

end File

/-- On a device whose free zones are cleared block 7 is mapped as it should be. -/
theorem bmap_mapsBlock_clean : MapsBlock (fileFs fun _ => 0#8) 1 0 7 := by
  refine (bmap_mapsBlock_iff (fileFs_layout _) (fileFs_zero _) (fileFs_holds _) (fileFs_tree _)
    (by rw [totalBlock_eq]; decide) (fileFs_enough _ (by decide))).1 ?_
  intro _ z hz
  have hzero : ∀ j, (fileFs fun _ => 0#8).zoneEntry 1 12 j = 0 := fun j => by
    rw [Fs.zoneEntry, fileFs_blk _ (by decide), fileBlocks, if_neg (by decide), if_neg (by decide),
      if_pos rfl, getU16_zero]
  obtain rfl := hz.unique (fileFs_first _)
  exact ⟨fun k _ _ => hzero k, Or.inl (hzero _)⟩

/-- **Stale contents become mapped blocks**: with a zone of old text first in line, mapping block
7 maps the other blocks of the new index block as well. -/
theorem bmap_maps_stale : Layout (fileFs fun _ => 65#8) 1 ∧ (fileFs fun _ => 65#8).zbit 1 0 = true ∧
    (fileFs fun _ => 65#8).Holds 1 2 0 ∧ TreeAt (fileFs fun _ => 65#8) 1 2 ∧
    Enough (fileFs fun _ => 65#8) 1 2 (slotPath (bmapSlot 7)) ∧
    ¬MapsBlock (fileFs fun _ => 65#8) 1 0 7 := by
  refine ⟨fileFs_layout _, fileFs_zero _, fileFs_holds _, fileFs_tree _,
    fileFs_enough _ (by decide), ?_⟩
  rw [mapsBlock_node_iff (fileFs_layout _) (fileFs_zero _) (fileFs_holds _) (fileFs_tree _)
    (by decide) (fileFs_enough _ (by decide)) (show bmapSlot 7 = [0, 7] by decide) .single (by simp)
    (reached_root 7) (fileFs_zoneAt _ (by decide) (by decide) (.root (by decide)))]
  intro h
  have hentry := (h 12 (fileFs_first _)).1 1 (by decide) (by decide)
  rw [Fs.zoneEntry, fileFs_blk _ (by decide), fileBlocks, if_neg (by decide), if_neg (by decide),
    if_pos rfl, getU16] at hentry
  exact absurd hentry (by decide)

end Onixs
