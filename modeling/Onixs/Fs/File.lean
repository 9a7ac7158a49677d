import Onixs.Fs.ZoneGrow

/-!
# Files on a device

A file is the descriptor of its inode, its zone tree, and the contents of the zones.
`Onixs.Fs.fileByte` is the byte at a position of the file, and `Onixs.SameFile` says that
nothing of a file has changed.

Two kinds of steps change a file: its tree grows (`Onixs.Grows`), and bytes of one block
are stored (`Onixs.OnlyBytes`), which is a data block of the file or the block of its
descriptor. For each the file says what becomes of the tree and of what its further growth
depends on (`Onixs.Owned.of_grows`, `Onixs.Owned.of_onlyBytes`), and that another file, whose zones are apart from
the first one's (`Onixs.Apart`), is not touched.
-/

namespace Onixs

open Bytes

/-! ### What a file is -/

/-- The byte at position `o` of the file. -/
def Fs.fileByte (s : Fs) (dev nr o : ℕ) : Byte :=
  s.blk dev (s.zoneAt dev nr (bmapSlot (o / 1024))) (o % 1024)

/-- Block `b` of the file is mapped. -/
def Fs.HasBlock (s : Fs) (dev nr b : ℕ) : Prop := s.zoneAt dev nr (bmapSlot b) ≠ 0

/-- **Nothing of the file has changed**: neither its descriptor, nor its zone tree, nor the
contents of its zones. -/
structure SameFile (s t : Fs) (dev nr : ℕ) : Prop where
  /-- The descriptor. -/
  desc : ∀ o < 32, t.blk dev (inodeBlock (s.superDesc dev) nr) (inodeOffset nr + o)
    = s.blk dev (inodeBlock (s.superDesc dev) nr) (inodeOffset nr + o)
  /-- The zone tree. -/
  tree : ∀ p, IsSlot p → t.zoneAt dev nr p = s.zoneAt dev nr p
  /-- The contents of the zones. -/
  data : ∀ p, IsSlot p → s.zoneAt dev nr p ≠ 0 →
    t.blk dev (s.zoneAt dev nr p) = s.blk dev (s.zoneAt dev nr p)
  /-- The place of the descriptor. -/
  super : t.superDesc dev = s.superDesc dev

theorem SameFile.trans {s t u : Fs} {dev nr : ℕ} (h : SameFile s t dev nr)
    (h' : SameFile t u dev nr) : SameFile s u dev nr where
  desc o ho := by rw [← h.desc o ho, ← h.super, h'.desc o ho]
  tree p hp := (h'.tree p hp).trans (h.tree p hp)
  data p hp hnz := by rw [← h.data p hp hnz, ← h.tree p hp, h'.data p hp (by rwa [h.tree p hp])]
  super := h'.super.trans h.super

theorem SameFile.refl (s : Fs) (dev nr : ℕ) : SameFile s s dev nr where
  desc _ _ := rfl
  tree _ _ := rfl
  data _ _ _ := rfl
  super := rfl

/-- **The zones of inode `nr'` are data zones, and none of them belongs to `nr`.** -/
structure Apart (s : Fs) (dev nr nr' : ℕ) : Prop where
  /-- There is such an inode. -/
  inode : InodePos (s.superDesc dev) nr'
  /-- Its zones are data zones. -/
  zone : ∀ p, IsSlot p → s.zoneAt dev nr' p ≠ 0 → DataZone s dev (s.zoneAt dev nr' p)
  /-- They are not among those of `nr`. -/
  disjoint : ∀ p q, IsSlot p → IsSlot q → s.zoneAt dev nr p ≠ 0 →
    s.zoneAt dev nr p ≠ s.zoneAt dev nr' q

/-- A tree whose roots and index blocks are the same is the same. -/
theorem zoneAt_congr {s t : Fs} {dev nr : ℕ} (hdesc : t.superDesc dev = s.superDesc dev)
    (hroot : ∀ o, 14 ≤ o → o < 32 → t.blk dev (inodeBlock (s.superDesc dev) nr) (inodeOffset nr + o)
      = s.blk dev (inodeBlock (s.superDesc dev) nr) (inodeOffset nr + o))
    (hnode : ∀ p, IsNode p → s.zoneAt dev nr p ≠ 0 →
      t.blk dev (s.zoneAt dev nr p) = s.blk dev (s.zoneAt dev nr p)) :
    ∀ p, IsSlot p → t.zoneAt dev nr p = s.zoneAt dev nr p := by
  refine IndexTree.get_congr IsSlot.closed (fun r hr => ?_) fun j i p hs hnz => ?_
  · have hlt := hr.root_lt
    rw [Fs.rootZone, Fs.rootZone, hdesc]
    have h0 := hroot (14 + 2 * r) (by omega) (by omega)
    have h1 := hroot (14 + 2 * r + 1) (by omega) (by omega)
    rw [← Nat.add_assoc] at h0
    rw [← Nat.add_assoc, ← Nat.add_assoc] at h1
    exact getU16_congr h0 h1
  · have hsame := hnode (i :: p) ((isSlot_cons_iff (by simp)).mp hs).2 hnz
    change (t.blk dev (s.zoneAt dev nr (i :: p))).getU16 (2 * j)
      = (s.blk dev (s.zoneAt dev nr (i :: p))).getU16 (2 * j)
    rw [hsame]

/-! ### Growth and the other files -/

section Grows

variable {s t : Fs} {dev nr nr' : ℕ}

/-- **The growth of one file does not touch another.** -/
theorem Grows.sameFile (hl : Layout s dev) (hi : InodePos (s.superDesc dev) nr)
    (h : Grows s t dev nr) (ha : Apart s dev nr nr') (hne : nr' ≠ nr) : SameFile s t dev nr' := by
  have hdesc := (h.layout hl hi).2.1
  have hlt : (s.superDesc dev).inodes < 65536 := getU16_lt _ _
  have hpos := hl.mounted.firstdatazone
  have hfront : ∀ o < 32, t.blk dev (inodeBlock (s.superDesc dev) nr') (inodeOffset nr' + o)
      = s.blk dev (inodeBlock (s.superDesc dev) nr') (inodeOffset nr' + o) := by
    intro o ho
    refine h.front _ (hl.inodeBlock_bounds ha.inode).2 (hl.zmap_ne_inodeBlock ha.inode) _ fun hb => ?_
    have h1 := ha.inode.2
    have h2 := hi.2
    have := inodeOffset_apart ha.inode.1 (by omega) hi.1 (by omega) hb hne
    omega
  have hdata : ∀ p, IsSlot p → s.zoneAt dev nr' p ≠ 0 →
      t.blk dev (s.zoneAt dev nr' p) = s.blk dev (s.zoneAt dev nr' p) := by
    intro p hp hnz
    have hz := ha.zone p hp hnz
    refine h.data _ hz.1 fun q hq heq => ?_
    by_cases hold : t.zoneAt dev nr q = s.zoneAt dev nr q
    · have hq0 : s.zoneAt dev nr q = s.zoneAt dev nr' p := hold.symm.trans heq
      exact ha.disjoint q p hq.isSlot hp (fun hc => hnz (hq0.symm.trans hc)) hq0
    · -- what the first file got was free, and so not a zone of the second
      exact hz.ne_free (h.fresh q hq.isSlot hold) heq.symm
  exact ⟨hfront, zoneAt_congr hdesc (fun o _ => hfront o) fun p hp => hdata p hp.isSlot, hdata, hdesc⟩

theorem DataZone.of_grows (hl : Layout s dev) (hi : InodePos (s.superDesc dev) nr)
    (h : Grows s t dev nr) {z : ℕ} (hz : DataZone s dev z) : DataZone t dev z := by
  rw [DataZone, (h.layout hl hi).2.1]
  exact ⟨hz.1, hz.2.1, (h.bits _).mpr (Or.inl hz.2.2)⟩

/-- The zones of the two files stay apart. -/
theorem Grows.apart (hl : Layout s dev) (hi : InodePos (s.superDesc dev) nr)
    (h : Grows s t dev nr) (ha : Apart s dev nr nr') (hne : nr' ≠ nr) : Apart t dev nr nr' := by
  have hsame := h.sameFile hl hi ha hne
  refine ⟨by rw [hsame.super]; exact ha.inode, fun p hp hnz => ?_, fun p q hp hq hnz heq => ?_⟩
  · rw [hsame.tree p hp] at hnz ⊢
    exact (ha.zone p hp hnz).of_grows hl hi h
  · rw [hsame.tree q hq] at heq
    by_cases hold : t.zoneAt dev nr p = s.zoneAt dev nr p
    · rw [hold] at hnz heq
      exact ha.disjoint p q hp hq hnz heq
    · exact (ha.zone q hq (heq ▸ hnz)).ne_free (h.fresh p hp hold) heq.symm

/-- The data blocks a file has keep their contents when it grows. -/
theorem Grows.blk_of_kept (hl : Layout s dev) (htree : TreeAt t dev nr) (h : Grows s t dev nr)
    {p : List ℕ} (hp : IsSlot p) (hn : ¬IsNode p) (hz : (s.superDesc dev).firstdatazone ≤
      t.zoneAt dev nr p) : t.blk dev (t.zoneAt dev nr p) = s.blk dev (t.zoneAt dev nr p) := by
  have hpos := hl.mounted.firstdatazone
  refine h.data _ hz fun q hq heq => ?_
  have := htree.inj q p hq.isSlot hp (by omega) heq
  exact hn (this ▸ hq)

end Grows

/-! ### Stores to one block -/

/-- Bytes `lo` to `hi` of block `b` may have changed, and no others. -/
structure OnlyBytes (s t : Fs) (dev b lo hi : ℕ) : Prop where
  /-- The super block table. -/
  superTable : t.superTable = s.superTable
  /-- The other bytes. -/
  byte : ∀ dev' b' o, (dev' = dev → b' = b → o < lo ∨ hi ≤ o) → t.blk dev' b' o = s.blk dev' b' o

section OnlyBytes

variable {s t : Fs} {dev nr b lo hi : ℕ} (h : OnlyBytes s t dev b lo hi)

include h

theorem OnlyBytes.blk {b' : ℕ} (hne : b' ≠ b) : t.blk dev b' = s.blk dev b' :=
  funext fun o => h.byte dev b' o fun _ hc => absurd hc hne

theorem OnlyBytes.zbit (hl : Layout s dev) (hb : b ≠ 1) (hmap : ∀ i, s.zmaps dev i ≠ some b)
    (g : ℕ) : t.zbit dev g = s.zbit dev g := by
  obtain ⟨-, -, hz⟩ := hl.of_same h.superTable (h.blk (Ne.symm hb))
  rw [Fs.zbit, Fs.zbit, hz, Fs.mapBit, Fs.mapBit]
  cases hg : s.zmaps dev (g / 8192) with
  | none => rfl
  | some c =>
    have hne : c ≠ b := fun hc => hmap _ (hc ▸ hg)
    simp only [h.blk hne]

/-- **A store outside the tree keeps it, and what its growth depends on.** -/
theorem OnlyBytes.sameFree (hl : Layout s dev) (hb : b ≠ 1) (hmap : ∀ i, s.zmaps dev i ≠ some b)
    (hroot : b = inodeBlock (s.superDesc dev) nr → hi ≤ inodeOffset nr + 14)
    (hnode : ∀ p, IsNode p → s.zoneAt dev nr p ≠ 0 → s.zoneAt dev nr p ≠ b)
    (hfree : ∀ z, ZoneFree s dev z → z ≠ b) : SameFree s t dev nr := by
  obtain ⟨hlt, hdesc, -⟩ := hl.of_same h.superTable (h.blk (Ne.symm hb))
  refine ⟨hlt, hdesc, fun g => h.zbit hl hb hmap g, ?_, fun z hz => h.blk (hfree z hz)⟩
  refine zoneAt_congr hdesc (fun o ho _ => h.byte _ _ _ fun _ hc => ?_) fun p hp hnz => h.blk (hnode p hp hnz)
  have := hroot hc.symm
  omega

/-- A store outside a file leaves it the same. -/
theorem SameFile.of_onlyBytes (hl : Layout s dev) (hb : b ≠ 1)
    (hdesc : b = inodeBlock (s.superDesc dev) nr → hi ≤ inodeOffset nr ∨ inodeOffset nr + 32 ≤ lo)
    (hzone : ∀ p, IsSlot p → s.zoneAt dev nr p ≠ 0 → s.zoneAt dev nr p ≠ b) :
    SameFile s t dev nr := by
  have hd := (hl.of_same h.superTable (h.blk (Ne.symm hb))).2.1
  have hfront : ∀ o < 32, t.blk dev (inodeBlock (s.superDesc dev) nr) (inodeOffset nr + o)
      = s.blk dev (inodeBlock (s.superDesc dev) nr) (inodeOffset nr + o) := fun o ho =>
    h.byte _ _ _ fun _ hc => by
      have := hdesc hc.symm
      omega
  have hdata : ∀ p, IsSlot p → s.zoneAt dev nr p ≠ 0 →
      t.blk dev (s.zoneAt dev nr p) = s.blk dev (s.zoneAt dev nr p) := fun p hp hnz =>
    h.blk (hzone p hp hnz)
  exact ⟨hfront, zoneAt_congr hd (fun o _ => hfront o) fun p hp => hdata p hp.isSlot, hdata, hd⟩

end OnlyBytes

/-! ### A file that is being written -/

/-- **A step that keeps to one device**: of the inode table it changes no more than counts and times, and of the zone
bitmap it clears nothing. -/
structure OnDevice (s t : Fs) (dev : ℕ) : Prop where
  /-- The super block table. -/
  superTable : t.superTable = s.superTable
  /-- The inode table. -/
  inode : ∀ j, (t.inodeTable j).dev = (s.inodeTable j).dev ∧ (t.inodeTable j).nr = (s.inodeTable j).nr ∧
    (t.inodeTable j).buf = (s.inodeTable j).buf ∧ (t.inodeTable j).desc = (s.inodeTable j).desc
  /-- The other devices. -/
  other : ∀ dev' y, dev' ≠ dev → t.blk dev' y = s.blk dev' y
  /-- The zones in use. -/
  zbit : ∀ g, s.zbit dev g = true → t.zbit dev g = true

theorem OnDevice.refl (s : Fs) (dev : ℕ) : OnDevice s s dev where
  superTable := rfl
  inode _ := ⟨rfl, rfl, rfl, rfl⟩
  other _ _ _ := rfl
  zbit _ h := h

theorem OnDevice.trans {s t u : Fs} {dev : ℕ} (h : OnDevice s t dev) (h' : OnDevice t u dev) : OnDevice s u dev where
  superTable := h'.superTable.trans h.superTable
  inode j := by
    obtain ⟨hdev, hnr, hbuf, hdesc⟩ := h.inode j
    rw [← hdev, ← hnr, ← hbuf, ← hdesc]
    exact h'.inode j
  other dev' y hne := (h'.other dev' y hne).trans (h.other dev' y hne)
  zbit g hg := h'.zbit g (h.zbit g hg)

theorem Grows.onDevice {s t : Fs} {dev nr : ℕ} (h : Grows s t dev nr) : OnDevice s t dev where
  superTable := h.superTable
  inode j := by
    rw [h.inodeTable]
    exact ⟨rfl, rfl, rfl, rfl⟩
  other := h.other
  zbit g hg := (h.bits g).mpr (Or.inl hg)

/-- **Inode `nr` is loaded as entry `i`**: its tree is well formed, and its zones are apart from those of the other
files in `F`. -/
structure Owned (s : Fs) (dev nr i : ℕ) (F : ℕ → Prop) : Prop where
  /-- The blocks are in order. -/
  layout : Layout s dev
  /-- The tree is well formed. -/
  tree : TreeAt s dev nr
  /-- The inode is loaded. -/
  holds : s.Holds dev nr i
  /-- The other files have other zones. -/
  apart : ∀ nr', F nr' → nr' ≠ nr → Apart s dev nr nr'

/-- **Inode `nr` is loaded as entry `i` and can be written**: it is ready to grow by the slots
`N`, and its zones are apart from those of the other files in `F`. -/
structure Writing (s : Fs) (dev nr i : ℕ) (N : Finset (List ℕ)) (F : ℕ → Prop) : Prop where
  /-- The tree can grow. -/
  ready : Ready s dev nr N
  /-- The inode is loaded. -/
  holds : s.Holds dev nr i
  /-- The other files have other zones. -/
  apart : ∀ nr', F nr' → nr' ≠ nr → Apart s dev nr nr'

/-- The bytes of a file's own: those of one of its data blocks, or those of its descriptor
before the zone numbers. -/
def OwnBytes (s : Fs) (dev nr b lo hi : ℕ) : Prop :=
  (∃ p, IsSlot p ∧ ¬IsNode p ∧ s.zoneAt dev nr p ≠ 0 ∧ b = s.zoneAt dev nr p) ∨
    b = inodeBlock (s.superDesc dev) nr ∧ lo = inodeOffset nr ∧ hi = inodeOffset nr + 14

section Owned

variable {s t : Fs} {dev nr i : ℕ} {N : Finset (List ℕ)} {F : ℕ → Prop}

theorem Writing.owned (h : Writing s dev nr i N F) : Owned s dev nr i F :=
  ⟨h.ready.layout, h.ready.tree, h.holds, h.apart⟩

theorem Fs.Holds.onDevice {dev' : ℕ} (h : s.Holds dev nr i) (hstep : OnDevice s t dev')
    (hdesc : t.superDesc dev = s.superDesc dev) : t.Holds dev nr i := by
  obtain ⟨h1, h2, h3, h4, h5, h6⟩ := h
  obtain ⟨hd, hn, hb, ho⟩ := hstep.inode i
  exact ⟨h1, by rwa [hdesc], by rwa [hd], by rwa [hn], by rwa [hb, hdesc], by rwa [ho]⟩

/-- **A store to the file's own bytes** keeps its tree and what its growth depends on, and touches no other file. -/
theorem Owned.of_onlyBytes (h : Owned s dev nr i F) {b lo hi : ℕ}
    (ho : OnlyBytes s t dev b lo hi) (hown : OwnBytes s dev nr b lo hi)
    (hinode : ∀ j, (t.inodeTable j).dev = (s.inodeTable j).dev ∧
      (t.inodeTable j).nr = (s.inodeTable j).nr ∧ (t.inodeTable j).buf = (s.inodeTable j).buf ∧
      (t.inodeTable j).desc = (s.inodeTable j).desc) :
    Owned t dev nr i F ∧ SameFree s t dev nr ∧ OnDevice s t dev ∧ ∀ nr', F nr' → nr' ≠ nr → SameFile s t dev nr' := by
  have hl := h.layout
  have ht := h.tree
  have hib := hl.inodeBlock_bounds ht.inode
  have hpos := hl.mounted.firstdatazone
  have hgeom := hl.inodes
  have hlt : (s.superDesc dev).inodes < 65536 := getU16_lt _ _
  -- where the stored bytes are not
  have hb1 : b ≠ 1 := by
    rcases hown with ⟨p, hp, -, hnz, rfl⟩ | ⟨rfl, -, -⟩
    · have := (ht.zone p hp hnz).1
      omega
    · omega
  have hmap : ∀ k, s.zmaps dev k ≠ some b := by
    rcases hown with ⟨p, hp, -, hnz, rfl⟩ | ⟨rfl, -, -⟩
    · exact hl.zmap_ne_zone (ht.zone p hp hnz).1
    · exact hl.zmap_ne_inodeBlock ht.inode
  have hroot : b = inodeBlock (s.superDesc dev) nr → hi ≤ inodeOffset nr + 14 := by
    rcases hown with ⟨p, hp, -, hnz, rfl⟩ | ⟨-, -, rfl⟩
    · intro hc
      have := (ht.zone p hp hnz).1
      omega
    · exact fun _ => le_refl _
  have hnode : ∀ p, IsNode p → s.zoneAt dev nr p ≠ 0 → s.zoneAt dev nr p ≠ b := by
    intro q hq hqnz
    rcases hown with ⟨p, hp, hn, hnz, rfl⟩ | ⟨rfl, -, -⟩
    · exact fun hc => hn (ht.inj q p hq.isSlot hp hqnz hc ▸ hq)
    · have := (ht.zone q hq.isSlot hqnz).1
      omega
  have hfree : ∀ z, ZoneFree s dev z → z ≠ b := by
    intro z hz
    rcases hown with ⟨p, hp, hn, hnz, rfl⟩ | ⟨rfl, -, -⟩
    · exact ((ht.zone p hp hnz).ne_free hz).symm
    · have := hz.1
      omega
  have hfrees := ho.sameFree hl hb1 hmap hroot hnode hfree
  have hdevice : OnDevice s t dev := ⟨ho.superTable, hinode,
    fun dev' y hne => funext fun o => ho.byte dev' y o fun hc => absurd hc hne, fun g hg => (hfrees.zbit g).trans hg⟩
  have hsame : ∀ nr', F nr' → nr' ≠ nr → SameFile s t dev nr' := by
    intro nr' hF hne
    have ha := h.apart nr' hF hne
    refine SameFile.of_onlyBytes ho hl hb1 (fun hc => ?_) fun q hq hqnz hc => ?_
    · rcases hown with ⟨p, hp, -, hnz, hbp⟩ | ⟨hbi, hlo, hhi⟩
      · have h1 := (ht.zone p hp hnz).1
        have h2 := hl.inodeBlock_bounds ha.inode
        omega
      · have h1 := ha.inode.2
        have h2 := ht.inode.2
        have := inodeOffset_apart ha.inode.1 (by omega) ht.inode.1 (by omega) (hc.symm.trans hbi) hne
        omega
    · rcases hown with ⟨p, hp, -, hnz, hbp⟩ | ⟨hbi, -, -⟩
      · exact ha.disjoint p q hp hq hnz (hbp.symm.trans hc.symm)
      · have := (ha.zone q hq hqnz).1
        omega
  refine ⟨⟨hfrees.layout, hfrees.treeAt ht, h.holds.onDevice hdevice hfrees.desc, fun nr' hF hne => ?_⟩, hfrees,
    hdevice, hsame⟩
  have ha := h.apart nr' hF hne
  have hs := hsame nr' hF hne
  refine ⟨by rw [hfrees.desc]; exact ha.inode, fun p hp hnz => ?_, fun p q hp hq hnz => ?_⟩
  · rw [hs.tree p hp] at hnz ⊢
    have hz := ha.zone p hp hnz
    rwa [DataZone, hfrees.desc, hfrees.zbit]
  · rw [hfrees.tree p hp] at hnz ⊢
    rw [hs.tree q hq]
    exact ha.disjoint p q hp hq hnz

/-- Growth keeps a file and touches no other. -/
theorem Owned.of_grows (h : Owned s dev nr i F) (hg : Grows s t dev nr) (ht : TreeAt t dev nr) :
    Owned t dev nr i F ∧ ∀ nr', F nr' → nr' ≠ nr → SameFile s t dev nr' := by
  have hi := h.tree.inode
  obtain ⟨hlt, hdesc, -⟩ := hg.layout h.layout hi
  exact ⟨⟨hlt, ht, h.holds.onDevice hg.onDevice hdesc, fun nr' hF hne => hg.apart h.layout hi (h.apart nr' hF hne) hne⟩,
    fun nr' hF hne => hg.sameFile h.layout hi (h.apart nr' hF hne) hne⟩

end Owned

end Onixs
