import Mathlib.Data.Set.Card
import Onixs.Fs.Remove

/-!
# What a removal leaves

A call that takes an entry out of a directory stores in few places: the number of the entry, the descriptor of the file and,
when that has lost its last link, the bitmaps (`Onixs.Touched`). What lies elsewhere is as it was (`Onixs.Within`), and in a
forest whose files have no zone in common (`Onixs.Fs.Tidy`) that is every other directory and every other file.
-/

namespace Onixs

open Bytes

/-! ### Stores in given places -/

/-- **Only bytes in places of `P` differ.** -/
structure Within (P : ℕ → ℕ → ℕ → Prop) (s t : Fs) : Prop where
  /-- The tables. -/
  only : OnlyBlocks s t
  /-- The bytes. -/
  same : ∀ dev b o, ¬P dev b o → t.blk dev b o = s.blk dev b o

section Within

variable {P Q : ℕ → ℕ → ℕ → Prop} {s t u : Fs} {dev b o nr i : ℕ}

theorem Within.refl (P : ℕ → ℕ → ℕ → Prop) (s : Fs) : Within P s s := ⟨.refl s, fun _ _ _ _ => rfl⟩

theorem Within.trans (h : Within P s t) (h' : Within P t u) : Within P s u :=
  ⟨h.only.trans h'.only, fun dev b o hP => (h'.same dev b o hP).trans (h.same dev b o hP)⟩

theorem Within.mono (h : Within P s t) (hPQ : ∀ dev b o, P dev b o → Q dev b o) : Within Q s t :=
  ⟨h.only, fun dev b o hQ => h.same dev b o fun hP => hQ (hPQ dev b o hP)⟩

theorem Within.setBlk {d : Bytes} (h : ∀ o, ¬P dev b o → d o = s.blk dev b o) : Within P s (s.setBlk dev b d) := by
  refine ⟨.setBlk s dev b d, fun dev' b' o hP => ?_⟩
  by_cases hplace : dev' = dev ∧ b' = b
  · obtain ⟨rfl, rfl⟩ := hplace
    rw [Fs.setBlk_blk_self]
    exact h o hP
  · exact congrFun (Fs.setBlk_blk_of_ne _ _ (not_and_or.mp hplace)) o

/-- A store through `inode->desc`. -/
theorem Within.putDesc8 (v : ℕ) (h : P (s.inodeTable i).dev (s.inodeTable i).buf ((s.inodeTable i).desc + o)) :
    Within P s (s.putDesc8 i o v) :=
  .setBlk fun _ hP => putU8_of_ne _ _ fun hc => hP (hc ▸ h)

theorem Within.putDesc16 (v : ℕ) (h : ∀ j < 2, P (s.inodeTable i).dev (s.inodeTable i).buf ((s.inodeTable i).desc + o + j)) :
    Within P s (s.putDesc16 i o v) :=
  .setBlk fun o' hP => putU16_of_ne _ _ (fun hc => hP (hc ▸ h 0 (by omega))) fun hc => hP (hc ▸ h 1 (by omega))

theorem Within.putDesc32 (v : ℕ) (h : ∀ j < 4, P (s.inodeTable i).dev (s.inodeTable i).buf ((s.inodeTable i).desc + o + j)) :
    Within P s (s.putDesc32 i o v) := by
  refine .setBlk fun o' hP => putU32_of_ne _ _ ?_
  by_contra hin
  refine hP ?_
  have hj := h (o' - ((s.inodeTable i).desc + o)) (by omega)
  rwa [show (s.inodeTable i).desc + o + (o' - ((s.inodeTable i).desc + o)) = o' by omega] at hj

/-- Storing the number of an entry. -/
theorem Within.setDentryNr {e : Dentry} (v : ℕ) (h : P e.dev e.blk e.off) (h' : P e.dev e.blk (e.off + 1)) :
    Within P s (s.setDentryNr e v) :=
  .setBlk fun _ hP => putU16_of_ne _ _ (fun hc => hP (hc ▸ h)) fun hc => hP (hc ▸ h')

theorem Within.freeLoop {maps : ℕ → Option ℕ} {length idx : ℕ} {offset : ℕ → ℕ} :
    ∀ left i, (∀ k b, maps k = some b → ∀ o, P dev b o) → freeLoop s dev maps length offset idx left i = some t →
      Within P s t
  | 0, _, _, h => absurd h (by simp [Onixs.freeLoop])
  | left + 1, i, hP, h => by
    rw [Onixs.freeLoop] at h
    split at h
    · exact Within.freeLoop left (i + 1) hP h
    · obtain ⟨buf, hbuf, h⟩ := Option.bind_eq_some_iff.mp h
      obtain ⟨-, -, -, rfl⟩ := freeBit_some h
      exact .setBlk fun o hno => absurd (hP i buf hbuf o) hno

theorem Within.bfree {z : ℕ} (hP : ∀ k b, s.zmaps dev k = some b → ∀ o, P dev b o) (h : bfree s dev z = some t) :
    Within P s t := by
  obtain ⟨sb, hsb, h⟩ := Option.bind_eq_some_iff.mp h
  obtain ⟨_, -, h⟩ := Option.bind_eq_some_iff.mp h
  rw [Fs.zmaps, hsb] at hP
  exact Within.freeLoop _ _ hP h

theorem Within.ifree (hP : ∀ k b, s.imaps dev k = some b → ∀ o, P dev b o) (h : ifree s dev nr = some t) :
    Within P s t := by
  obtain ⟨sb, hsb, h⟩ := Option.bind_eq_some_iff.mp h
  obtain ⟨_, -, h⟩ := Option.bind_eq_some_iff.mp h
  rw [Fs.imaps, hsb] at hP
  exact Within.freeLoop _ _ hP h

theorem Within.foldlM {f : Fs → ℕ → Option Fs} : ∀ (l : List ℕ) (v : Fs),
    (∀ k ∈ l, ∀ v w, OnlyBlocks s v → f v k = some w → Within P v w) → OnlyBlocks s v → l.foldlM f v = some t →
      Within P v t
  | [], v, _, _, h => Option.some.inj h ▸ .refl P v
  | k :: l, v, hf, hv, h => by
    rw [List.foldlM_cons] at h
    obtain ⟨w, hk, h⟩ := Option.bind_eq_some_iff.mp h
    have hw := hf k List.mem_cons_self v w hv hk
    exact hw.trans (Within.foldlM l w (fun k hk => hf k (List.mem_cons_of_mem _ hk)) (hv.trans hw.only) h)

theorem Within.inodeBfree (hP : ∀ k b, s.zmaps dev k = some b → ∀ o, P dev b o) : ∀ level (v w : Fs) buf array index,
    OnlyBlocks s v → inodeBfree dev level v buf array index = some w → Within P v w := by
  have hbfree : ∀ (v w : Fs) z, OnlyBlocks s v → Onixs.bfree v dev z = some w → Within P v w := fun v w z hv h => by
    refine Within.bfree ?_ h
    rw [zmaps_congr hv.superTable]
    exact hP
  intro level
  induction level with
  | zero =>
    intro v w buf array index hv h
    rw [Onixs.inodeBfree] at h
    split at h
    · exact Option.some.inj h ▸ .refl P v
    · exact hbfree _ _ _ hv h
  | succ level ih =>
    intro v w buf array index hv h
    rw [Onixs.inodeBfree] at h
    split at h
    · exact Option.some.inj h ▸ .refl P v
    · obtain ⟨x, hfold, h⟩ := Option.bind_eq_some_iff.mp h
      have hx := Within.foldlM _ v (fun k _ v w hv hk => ih v w _ _ k hv hk) hv hfold
      exact hx.trans (hbfree _ _ _ (hv.trans hx.only) h)

/-- **`inode_truncate`** stores in the descriptor and in the zone bitmap. -/
theorem Within.inodeTruncate (hP : ∀ k b, s.zmaps (s.inodeTable i).dev k = some b → ∀ o, P (s.inodeTable i).dev b o)
    (hdesc : ∀ o < 32, P (s.inodeTable i).dev (s.inodeTable i).buf ((s.inodeTable i).desc + o))
    (h : inodeTruncate s i = some t) : Within P s t := by
  have hplace : ∀ {v : Fs}, OnlyBlocks s v → ∀ o < 32,
      P (v.inodeTable i).dev (v.inodeTable i).buf ((v.inodeTable i).desc + o) := fun hv o ho => by
    rw [hv.inodeTable]
    exact hdesc o ho
  have hzone : ∀ {v : Fs} k, OnlyBlocks s v → k < 9 → Within P v (v.setZone i k 0) := fun k hv hk =>
    .putDesc16 0 fun j hj => by
      rw [Nat.add_assoc]
      exact hplace hv _ (by omega)
  rw [Onixs.inodeTruncate] at h
  simp only at h
  split at h
  · exact Option.some.inj h ▸ .refl P s
  · obtain ⟨s₁, h₁, h⟩ := Option.bind_eq_some_iff.mp h
    obtain ⟨s₂, h₂, h⟩ := Option.bind_eq_some_iff.mp h
    obtain ⟨s₃, h₃, h⟩ := Option.bind_eq_some_iff.mp h
    obtain rfl := Option.some.inj h
    have hdirect : Within P s s₁ := by
      refine Within.foldlM _ s (fun k hk v w hv hstep => ?_) (.refl s) h₁
      obtain ⟨x, hx, hstep⟩ := Option.bind_eq_some_iff.mp hstep
      have hwithin := Within.inodeBfree hP _ _ _ _ _ _ hv hx
      have hlt : k < 7 := by
        rw [List.mem_range, directBlock_eq] at hk
        exact hk
      exact Option.some.inj hstep ▸ hwithin.trans (hzone k (hv.trans hwithin.only) (by omega))
    have hsingle := hdirect.trans (Within.inodeBfree hP _ _ _ _ _ _ hdirect.only h₂)
    have hdouble := hsingle.trans (Within.inodeBfree hP _ _ _ _ _ _ hsingle.only h₃)
    have hzones := (hdouble.trans (hzone directBlock hdouble.only (by decide)))
    have hzones' := hzones.trans (hzone (directBlock + 1) hzones.only (by decide))
    have hsize := hzones'.trans (.putDesc32 (o := 4) 0 fun j hj => by
      rw [Nat.add_assoc]
      exact hplace hzones'.only _ (by omega))
    exact hsize.trans (.putDesc32 (o := 8) _ fun j hj => by
      rw [Nat.add_assoc]
      exact hplace hsize.only _ (by omega))

end Within

/-! ### Well-formed trees with the same directories -/

/-- **A forest stays well-formed** when the tables, but for the lists, and the directories stay. -/
theorem Fs.WellFormed.of_same {s t : Fs} (h : s.WellFormed) (hold : Holding s.counts s t []) (hlists : OnlyLists s t)
    (hloaded : t.Loaded) (hmount : ∀ j, (t.inodeTable j).mount = (s.inodeTable j).mount) (htask : t.task = s.task)
    (htree : ∀ n, t.TreeDir n ↔ s.TreeDir n) (hdirs : ∀ n, t.TreeDir n → t.IsDirectory n) : t.WellFormed := by
  have hcount : ∀ j, (t.inodeTable j).count = (s.inodeTable j).count := fun j =>
    (hold.count j).trans (by rw [List.count_nil, Nat.add_zero, Fs.counts])
  have hnode : ∀ {j}, (s.inodeTable j).count ≠ 0 → t.nodeOf j = s.nodeOf j := fun hj =>
    congrArg (fun p => (p.1, p.2.1)) (hold.kept _ hj)
  have hroot : ∀ k, (t.superTable k).iroot = (s.superTable k).iroot := fun k => by
    obtain ⟨l, hl⟩ := hlists k
    rw [hl]
  have himount : ∀ k, (t.superTable k).imount = (s.superTable k).imount := fun k => by
    obtain ⟨l, hl⟩ := hlists k
    rw [hl]
  have hsuper : ∀ k, (t.superTable k).dev = (s.superTable k).dev := fun k => by
    obtain ⟨l, hl⟩ := hlists k
    rw [hl]
  refine ⟨hold.ok, hloaded, ⟨fun k hk m hm => ?_, fun k hk m hm => ?_, fun k hk m hm hnr k' hk' => ?_⟩, ?_,
    fun i hi hne => ?_, fun k hk hdev => ?_, hdirs, ?_, ?_, ?_⟩
  · rw [hroot] at hm
    rw [hcount]
    exact h.pinned.iroot k hk m hm
  · rw [himount] at hm
    rw [hcount]
    exact h.pinned.imount k hk m hm
  · rw [himount] at hm ⊢
    have hm' := hnode (h.pinned.imount k hk m hm).2
    rw [show (t.inodeTable m).nr = (s.inodeTable m).nr from congrArg Prod.snd hm'] at hnr
    rw [show (t.inodeTable m).dev = (s.inodeTable m).dev from congrArg Prod.fst hm', hlists.getSuper] at hk'
    exact h.pinned.top k hk m hm hnr k' hk'
  · rw [hcount]
    exact h.bottom
  · rw [hmount] at hne ⊢
    obtain ⟨k, r, hk, him, hir, hr⟩ := h.mounts i hi hne
    have hr' := hnode (h.pinned.iroot k (getSuper_lt hk) r hir).2
    exact ⟨k, r, by rw [hlists.getSuper]; exact hk, by rw [himount]; exact him, by rw [hroot]; exact hir, hr'.trans hr⟩
  · rw [hsuper] at hdev
    obtain ⟨m, hm, hdir⟩ := h.mounted k hk hdev
    refine ⟨m, by rw [himount]; exact hm, ?_⟩
    rw [htree, hnode (h.pinned.imount k hk m hm).2]
    exact hdir
  · rw [htask]
    simp only [hcount]
    exact h.starts
  · rw [htask, htree, hnode h.starts.iroot.2]
    exact h.iroot
  · rw [htask, htree, hnode h.starts.ipwd.2]
    exact h.ipwd

/-! ### Forests whose files are apart -/

namespace Fs

variable (s : Fs)

/-- The inode has a tree of zones. The entries in the descriptor of a device are none. -/
def HasZones (n : ℕ × ℕ) : Prop := isFile (s.descOf n.1 n.2).mode = true ∨ isDir (s.descOf n.1 n.2).mode = true

/-- The entries of directories that carry the number of an inode. -/
def links (n : ℕ × ℕ) : Set (ℕ × ℕ) :=
  {x | s.TreeDir (n.1, x.1) ∧ x.2 < s.entries n.1 x.1 ∧ s.dentryNr (s.entryOf n.1 x.1 x.2) = n.2}

/-- **A forest in order**: the bitmaps mark what is in use, no zone is in use twice, and a file has as many links as there
are entries with its number. -/
structure Tidy (s : Fs) : Prop where
  /-- The trees. -/
  wellFormed : s.WellFormed
  /-- The blocks of the devices. -/
  layout : ∀ {dev k}, dev ≠ EOF → s.getSuper dev = some k → Layout s dev
  /-- One block of each bitmap has all bits. -/
  small : ∀ {dev k}, dev ≠ EOF → s.getSuper dev = some k → (s.superDesc dev).zones ≤ 8192 ∧ (s.superDesc dev).inodes ≤ 8192
  /-- The root of a device is a directory. -/
  roots : ∀ {dev k}, dev ≠ EOF → s.getSuper dev = some k → isDir (s.descOf dev 1).mode = true
  /-- The zones of a file are in use, and different. -/
  trees : ∀ n, s.InTree n → s.HasZones n → TreeAt s n.1 n.2
  /-- Files have no zone in common. -/
  apart : ∀ n m, s.InTree n → s.InTree m → s.HasZones n → s.HasZones m → n.1 = m.1 → n ≠ m →
    ∀ p q, IsSlot p → IsSlot q → s.zoneAt n.1 n.2 p ≠ 0 → s.zoneAt n.1 n.2 p ≠ s.zoneAt m.1 m.2 q
  /-- The inodes are in use. -/
  used : ∀ n, s.InTree n → s.ibit n.1 n.2 = true
  /-- The links. -/
  links : ∀ n, s.InTree n → isDir (s.descOf n.1 n.2).mode = false → (s.descOf n.1 n.2).nlinks = (s.links n).ncard

variable {s} {n m : ℕ × ℕ} {k : ℕ}

theorem InTree.super (h : s.InTree n) : n.1 ≠ EOF ∧ ∃ k, s.getSuper n.1 = some k := by
  induction h with
  | root hdev hk => exact ⟨hdev, _, hk⟩
  | child _ _ _ _ ih => exact ih

theorem TreeDir.hasZones (h : s.TreeDir n) : s.HasZones n := Or.inr h.2

section Tidy

variable (h : s.Tidy)

include h

theorem Tidy.layoutOf (hn : s.InTree n) : Layout s n.1 := by
  obtain ⟨hdev, k, hk⟩ := hn.super
  exact h.layout hdev hk

/-- A node of the forest is an inode. -/
theorem Tidy.inodePos (hn : s.InTree n) : InodePos (s.superDesc n.1) n.2 := by
  cases hn with
  | root hdev hk => exact (h.trees _ (.root hdev hk) (Or.inr (h.roots hdev hk))).inode
  | child hn hdir hk hnr =>
    exact ⟨Nat.pos_of_ne_zero hnr, (h.wellFormed.dirs _ ⟨hn, hdir⟩).nodes _ hk hnr⟩

/-- The block of an entry is a data zone. -/
theorem Tidy.entryZone (hn : s.TreeDir n) (hk : k < s.entries n.1 n.2) : IsSlot (bmapSlot (k / 64)) ∧
    s.zoneAt n.1 n.2 (bmapSlot (k / 64)) ≠ 0 ∧ (s.superDesc n.1).firstdatazone ≤ s.zoneAt n.1 n.2 (bmapSlot (k / 64)) := by
  obtain ⟨hlt, hne⟩ := (h.wellFormed.dirs n hn).blocks k hk
  rw [totalBlock_eq] at hlt
  have hslot := isSlot_bmapSlot hlt
  exact ⟨hslot, hne, ((h.trees n hn.1 hn.hasZones).zone _ hslot hne).1⟩

end Tidy

end Fs

/-- **The places where a removal stores**: the number of entry `k` of directory `n`, the descriptor of inode `i` of the same
device, and the bitmaps. -/
def Touched (s : Fs) (n : ℕ × ℕ) (k i dev b o : ℕ) : Prop := dev = n.1 ∧
  ((b = s.zoneAt n.1 n.2 (bmapSlot (k / 64)) ∧ k % 64 * 16 ≤ o ∧ o < k % 64 * 16 + 2) ∨
    (b = inodeBlock (s.superDesc n.1) i ∧ inodeOffset i ≤ o ∧ o < inodeOffset i + 32) ∨
    2 ≤ b ∧ b < 2 + (s.superDesc n.1).imapBlocks + (s.superDesc n.1).zmapBlocks)

section Frame

variable {s t : Fs} {n m : ℕ × ℕ} {k i : ℕ} (h : s.Tidy) (hn : s.TreeDir n) (hk : k < s.entries n.1 n.2)
  (hi : InodePos (s.superDesc n.1) i) (ht : ∀ dev b o, ¬Touched s n k i dev b o → t.blk dev b o = s.blk dev b o)

include h hn hk hi ht

theorem Touched.superBlk (dev : ℕ) : t.blk dev 1 = s.blk dev 1 := by
  obtain ⟨-, -, hlo⟩ := h.entryZone hn hk
  have hl := h.layoutOf hn.1
  have hib := hl.inodeBlock_bounds hi
  refine funext fun o => ht dev 1 o fun hc => ?_
  obtain ⟨-, ⟨hb, -⟩ | ⟨hb, -⟩ | ⟨hb, -⟩⟩ := hc
  · omega
  · omega
  · omega

/-- The super blocks are the same. -/
theorem Touched.superDesc (dev : ℕ) : t.superDesc dev = s.superDesc dev :=
  superDesc_of_blk (Touched.superBlk h hn hk hi ht dev)

/-- **Other descriptors are the same.** -/
theorem Touched.descByte {dev nr : ℕ} (hnr : InodePos (s.superDesc dev) nr) (hl : Layout s dev)
    (hne : (dev, nr) ≠ (n.1, i)) {o : ℕ} (ho : o < 32) :
    t.blk dev (inodeBlock (s.superDesc dev) nr) (inodeOffset nr + o)
      = s.blk dev (inodeBlock (s.superDesc dev) nr) (inodeOffset nr + o) := by
  refine ht _ _ _ fun hc => ?_
  obtain ⟨rfl, hc⟩ := hc
  obtain ⟨-, -, hlo⟩ := h.entryZone hn hk
  have hib := hl.inodeBlock_bounds hnr
  have hlt : (s.superDesc n.1).inodes < 65536 := getU16_lt _ _
  have hne' : nr ≠ i := fun heq => hne (by rw [heq])
  obtain ⟨hpos, hle⟩ := hnr
  obtain ⟨hpos', hle'⟩ := hi
  rcases hc with ⟨hb, -⟩ | ⟨hb, hge, hlt'⟩ | ⟨-, hb⟩
  · omega
  · have hapart := inodeOffset_apart hpos (by omega) hpos' (by omega) hb hne'
    omega
  · omega

omit h hn hk in
/-- A data zone other than that of the entry is the same. -/
theorem Touched.zone {dev z : ℕ} (hl : Layout s dev) (hz : (s.superDesc dev).firstdatazone ≤ z)
    (hne : dev = n.1 → z ≠ s.zoneAt n.1 n.2 (bmapSlot (k / 64))) : t.blk dev z = s.blk dev z := by
  refine funext fun o => ht _ _ _ fun hc => ?_
  obtain ⟨rfl, hc⟩ := hc
  have hib := hl.inodeBlock_bounds hi
  rcases hc with ⟨hb, -⟩ | ⟨hb, -⟩ | ⟨-, hb⟩
  · exact hne rfl hb
  · omega
  · omega

/-- **The zones of a file are where they were**, if its descriptor says so. -/
theorem Touched.zoneAt (hm : s.InTree m) (hz : s.HasZones m) {p : List ℕ} (hp : IsSlot p)
    (hdesc : ∀ o, 14 ≤ o → o < 32 → t.blk m.1 (inodeBlock (s.superDesc m.1) m.2) (inodeOffset m.2 + o)
      = s.blk m.1 (inodeBlock (s.superDesc m.1) m.2) (inodeOffset m.2 + o)) :
    t.zoneAt m.1 m.2 p = s.zoneAt m.1 m.2 p := by
  obtain ⟨hslot, hzone, -⟩ := h.entryZone hn hk
  refine zoneAt_congr (Touched.superDesc h hn hk hi ht m.1) hdesc (fun q hq hq0 => ?_) p hp
  have htree := h.trees m hm hz
  refine Touched.zone hi ht (h.layoutOf hm) (htree.zone q hq.isSlot hq0).1 fun hdev heq => ?_
  rcases eq_or_ne m n with rfl | hmn
  · exact not_isNode_bmapSlot (k / 64) (htree.inj _ _ hq.isSlot hslot hq0 heq ▸ hq)
  · exact h.apart m n hm hn.1 hz hn.hasZones hdev hmn q _ hq.isSlot hslot hq0 heq

/-- **The content of the others is the same.** -/
theorem Touched.block (hm : s.InTree m) (hz : s.HasZones m) (hne : m ≠ n) {p : List ℕ} (hp : IsSlot p)
    (hp0 : s.zoneAt m.1 m.2 p ≠ 0) : t.blk m.1 (s.zoneAt m.1 m.2 p) = s.blk m.1 (s.zoneAt m.1 m.2 p) := by
  obtain ⟨hslot, hzone, -⟩ := h.entryZone hn hk
  refine Touched.zone hi ht (h.layoutOf hm) ((h.trees m hm hz).zone p hp hp0).1 fun hdev heq => ?_
  exact h.apart m n hm hn.1 hz hn.hasZones hdev hne p _ hp hslot hp0 heq

/-- **Entries of directories**, byte by byte: only the number of entry `k` of `n` differs. -/
theorem Touched.entryByte (hm : s.TreeDir m) {j x : ℕ} (hj : j < s.entries m.1 m.2) (hx : j % 64 * 16 ≤ x)
    (hx' : x < j % 64 * 16 + 16) (hne : m = n → j = k → k % 64 * 16 + 2 ≤ x) :
    t.blk m.1 (s.zoneAt m.1 m.2 (bmapSlot (j / 64))) x = s.blk m.1 (s.zoneAt m.1 m.2 (bmapSlot (j / 64))) x := by
  refine ht _ _ _ fun hc => ?_
  obtain ⟨hdev, hc⟩ := hc
  obtain ⟨hslot, hzone, hlo⟩ := h.entryZone hm hj
  obtain ⟨hslot', -, -⟩ := h.entryZone hn hk
  have hib := (h.layoutOf hn.1).inodeBlock_bounds hi
  rw [show s.superDesc m.1 = s.superDesc n.1 by rw [hdev]] at hlo
  rcases hc with ⟨hb, hge, hlt⟩ | ⟨hb, -⟩ | ⟨-, hb⟩
  · -- two entries in one block are two entries of one directory
    rcases eq_or_ne m n with rfl | hmn
    · have hblock := bmapSlot_inj ((h.trees m hm.1 hm.hasZones).inj _ _ hslot hslot' hzone hb)
      have := hne rfl (by omega)
      omega
    · exact h.apart m n hm.1 hn.1 hm.hasZones hn.hasZones hdev hmn _ _ hslot hslot' hzone hb
  · omega
  · omega

theorem Touched.entryOf (hm : s.TreeDir m) (hne : m ≠ (n.1, i)) {j : ℕ} (hj : j < s.entries m.1 m.2) :
    t.entryOf m.1 m.2 j = s.entryOf m.1 m.2 j := by
  rw [Fs.entryOf, Fs.entryOf, Touched.zoneAt h hn hk hi ht hm.1 hm.hasZones (h.entryZone hm hj).1 fun o _ ho =>
    Touched.descByte h hn hk hi ht (h.inodePos hm.1) (h.layoutOf hm.1) hne ho]

theorem Touched.dentryNr (hm : s.TreeDir m) {j : ℕ} (hj : j < s.entries m.1 m.2) (hne : ¬(m = n ∧ j = k)) :
    t.dentryNr (s.entryOf m.1 m.2 j) = s.dentryNr (s.entryOf m.1 m.2 j) := by
  have hbyte : ∀ x, j % 64 * 16 ≤ x → x < j % 64 * 16 + 16 → t.blk m.1 (s.zoneAt m.1 m.2 (bmapSlot (j / 64))) x
      = s.blk m.1 (s.zoneAt m.1 m.2 (bmapSlot (j / 64))) x := fun x hx hx' =>
    Touched.entryByte h hn hk hi ht hm hj hx hx' fun hm' hj' => absurd ⟨hm', hj'⟩ hne
  change (t.blk m.1 _).getU16 (j % 64 * 16) = (s.blk m.1 _).getU16 (j % 64 * 16)
  exact getU16_congr (hbyte _ (Nat.le_refl _) (by omega)) (hbyte _ (by omega) (by omega))

/-- **Nothing of the other files has changed**, nor of the other directories. -/
theorem Touched.sameFile (hm : s.InTree m) (hz : s.HasZones m) (hne : m ≠ (n.1, i)) (hmn : m ≠ n) : SameFile s t m.1 m.2 where
  desc _ ho := Touched.descByte h hn hk hi ht (h.inodePos hm) (h.layoutOf hm) hne ho
  tree _ hp := Touched.zoneAt h hn hk hi ht hm hz hp fun _ _ ho =>
    Touched.descByte h hn hk hi ht (h.inodePos hm) (h.layoutOf hm) hne ho
  data _ hp hp0 := Touched.block h hn hk hi ht hm hz hmn hp hp0
  super := Touched.superDesc h hn hk hi ht m.1

end Frame

/-! ### Descriptors -/

/-- **The same descriptor.** Of the entries for zones there are nine. -/
structure SameDesc (d d' : InodeDesc) : Prop where
  /-- Type and permissions. -/
  mode : d'.mode = d.mode
  /-- Owner. -/
  uid : d'.uid = d.uid
  /-- Size. -/
  size : d'.size = d.size
  /-- Time of the last change. -/
  mtime : d'.mtime = d.mtime
  /-- Group. -/
  gid : d'.gid = d.gid
  /-- Links. -/
  nlinks : d'.nlinks = d.nlinks
  /-- Zones. -/
  zone : ∀ r < 9, d'.zone r = d.zone r

theorem SameDesc.permits {d d' : InodeDesc} (h : SameDesc d d') (task : Task) (mask : ℕ) :
    permits task d' mask = permits task d mask := by
  rw [Onixs.permits, Onixs.permits, h.nlinks, h.uid, h.gid, h.mode]

theorem sameDesc_of_bytes {d d' : Bytes} {o : ℕ} (h : ∀ i < 32, d' (o + i) = d (o + i)) :
    SameDesc (readInodeDesc d o) (readInodeDesc d' o) where
  mode := getU16_congr (h 0 (by omega)) (h 1 (by omega))
  uid := getU16_congr (h 2 (by omega)) (h 3 (by omega))
  size := getU32_congr fun i hi hi' => by
    have hb := h (i - o) (by omega)
    rwa [show o + (i - o) = i by omega] at hb
  mtime := getU32_congr fun i hi hi' => by
    have hb := h (i - o) (by omega)
    rwa [show o + (i - o) = i by omega] at hb
  gid := congrArg BitVec.toNat (h 12 (by omega))
  nlinks := congrArg BitVec.toNat (h 13 (by omega))
  zone r hr := by
    have hb := h (14 + 2 * r) (by omega)
    have hb' := h (14 + 2 * r + 1) (by omega)
    rw [← Nat.add_assoc] at hb
    rw [← Nat.add_assoc, ← Nat.add_assoc] at hb'
    exact getU16_congr hb hb'

theorem SameFile.sameDesc {s t : Fs} {dev nr : ℕ} (h : SameFile s t dev nr) : SameDesc (s.descOf dev nr) (t.descOf dev nr) := by
  rw [Fs.descOf, Fs.descOf, h.super]
  exact sameDesc_of_bytes h.desc

theorem HasName.congr {d d' : Bytes} : ∀ {name : CStr} {o : ℕ}, (∀ x, o ≤ x → x ≤ o + name.length → d' x = d x) →
    HasName d o name → HasName d' o name
  | [], o, hsame, h => (hsame o (Nat.le_refl o) (Nat.le_refl o)).trans h
  | c :: name, o, hsame, h => by
    refine ⟨(hsame o (Nat.le_refl o) (by omega)).trans h.1, HasName.congr (fun x hx hx' => ?_) h.2⟩
    refine hsame x (by omega) ?_
    rw [List.length_cons]
    omega

/-! ### The last link -/

/-- **An entry of a file has been taken out**: its number is clear, and the file has one link less. The file goes with its
last link; its inode and its zones are free then. -/
structure Unlinked (s t : Fs) (n : ℕ × ℕ) (k i : ℕ) : Prop where
  /-- Nothing is stored elsewhere. -/
  same : ∀ dev b o, ¬Touched s n k i dev b o → t.blk dev b o = s.blk dev b o
  /-- The entry. -/
  entry : t.dentryNr (s.entryOf n.1 n.2 k) = 0
  /-- The links. -/
  nlinks : (t.descOf n.1 i).nlinks + 1 = (s.descOf n.1 i).nlinks
  /-- The type of the file. -/
  mode : (t.descOf n.1 i).mode = (s.descOf n.1 i).mode
  /-- A file with more links keeps the rest of its descriptor. -/
  kept : (s.descOf n.1 i).nlinks ≠ 1 → ∀ o < 32, o ≠ 13 →
    t.blk n.1 (inodeBlock (s.superDesc n.1) i) (inodeOffset i + o)
      = s.blk n.1 (inodeBlock (s.superDesc n.1) i) (inodeOffset i + o)
  /-- A file without links is empty. -/
  emptied : (s.descOf n.1 i).nlinks = 1 → isFile (s.descOf n.1 i).mode = true →
    (t.descOf n.1 i).size = 0 ∧ ∀ r < 9, (t.descOf n.1 i).zone r = 0
  /-- The inodes in use. -/
  ibit : ∀ dev g, t.ibit dev g = true ↔
    s.ibit dev g = true ∧ ¬(dev = n.1 ∧ g = i ∧ (s.descOf n.1 i).nlinks = 1)
  /-- The zones in use. -/
  zbit : ∀ dev g, t.zbit dev g = true ↔
    s.zbit dev g = true ∧ ¬(dev = n.1 ∧ (s.descOf n.1 i).nlinks = 1 ∧ isFile (s.descOf n.1 i).mode = true ∧
      ∃ p, IsSlot p ∧ s.zoneAt n.1 i p ≠ 0 ∧ g = zonePos (s.superDesc n.1) (s.zoneAt n.1 i p))

section Unlinked

variable {s t : Fs} {n m : ℕ × ℕ} {k i : ℕ} (h : s.Tidy) (hn : s.TreeDir n) (hk : k < s.entries n.1 n.2)
  (hi : s.InTree (n.1, i)) (hfile : isDir (s.descOf n.1 i).mode = false) (hnr : s.dentryNr (s.entryOf n.1 n.2 k) = i)
  (hu : Unlinked s t n k i) (honly : OnlyBlocks s t)

include hfile in
theorem Unlinked.dir_ne (hm : s.TreeDir m) : m ≠ (n.1, i) := fun heq => by
  have hdir := hm.2
  rw [heq, hfile] at hdir
  exact Bool.noConfusion hdir

include h hn hk hi hu

theorem Unlinked.sameDesc (hm : s.InTree m) (hne : m ≠ (n.1, i)) : SameDesc (s.descOf m.1 m.2) (t.descOf m.1 m.2) := by
  have ht := hu.same
  have hpos : InodePos (s.superDesc n.1) i := h.inodePos hi
  rw [Fs.descOf, Fs.descOf, Touched.superDesc h hn hk hpos ht]
  exact sameDesc_of_bytes fun o ho => Touched.descByte h hn hk hpos ht (h.inodePos hm) (h.layoutOf hm) hne ho

theorem Unlinked.mode_eq (hm : s.InTree m) : (t.descOf m.1 m.2).mode = (s.descOf m.1 m.2).mode := by
  rcases eq_or_ne m (n.1, i) with rfl | hne
  · exact hu.mode
  · exact (hu.sameDesc h hn hk hi hm hne).mode

include hfile

theorem Unlinked.entries (hm : s.TreeDir m) : t.entries m.1 m.2 = s.entries m.1 m.2 := by
  have hne := Unlinked.dir_ne hfile hm
  rw [Fs.entries, Fs.entries, (hu.sameDesc h hn hk hi hm.1 hne).size]

theorem Unlinked.entryOf (hm : s.TreeDir m) {j : ℕ} (hj : j < s.entries m.1 m.2) :
    t.entryOf m.1 m.2 j = s.entryOf m.1 m.2 j :=
  have hpos : InodePos (s.superDesc n.1) i := h.inodePos hi
  Touched.entryOf h hn hk hpos hu.same hm (Unlinked.dir_ne hfile hm) hj

/-- The entries of directories, but for the one that has been taken out. -/
theorem Unlinked.dentryNr (hm : s.TreeDir m) {j : ℕ} (hj : j < s.entries m.1 m.2) :
    t.dentryNr (t.entryOf m.1 m.2 j) = if m = n ∧ j = k then 0 else s.dentryNr (s.entryOf m.1 m.2 j) := by
  rw [hu.entryOf h hn hk hi hfile hm hj]
  split
  · obtain ⟨rfl, rfl⟩ := ‹m = n ∧ j = k›
    exact hu.entry
  · have hpos : InodePos (s.superDesc n.1) i := h.inodePos hi
    exact Touched.dentryNr h hn hk hpos hu.same hm hj ‹_›

include honly

/-- **What is in the trees was there before.** -/
theorem Unlinked.inTree (hm : t.InTree m) : s.InTree m := by
  induction hm with
  | root hdev hk' =>
    rw [Fs.getSuper_congr honly.superTable] at hk'
    exact .root hdev hk'
  | @child m j _ hdir hj hj0 ih =>
    rw [hu.mode_eq h hn hk hi ih] at hdir
    have hm : s.TreeDir m := ⟨ih, hdir⟩
    rw [hu.entries h hn hk hi hfile hm] at hj
    rw [hu.dentryNr h hn hk hi hfile hm hj] at hj0 ⊢
    split at hj0
    · exact absurd rfl hj0
    · rw [if_neg ‹_›]
      exact .child ih hdir hj hj0

include hnr

/-- **The directories are still there.** -/
theorem Unlinked.treeDir (hm : s.InTree m) (hdir : isDir (s.descOf m.1 m.2).mode = true) : t.TreeDir m := by
  refine ⟨?_, by rw [hu.mode_eq h hn hk hi hm]; exact hdir⟩
  induction hm with
  | root hdev hk' =>
    rw [← Fs.getSuper_congr honly.superTable] at hk'
    exact .root hdev hk'
  | @child m j hm hmdir hj hj0 ih =>
    have hd : s.TreeDir m := ⟨hm, hmdir⟩
    have hentry := hu.dentryNr h hn hk hi hfile hd hj
    -- the entry that has been taken out is that of a file
    rw [if_neg (fun hc => by
      obtain ⟨rfl, rfl⟩ := hc
      rw [hnr, hfile] at hdir
      exact Bool.noConfusion hdir)] at hentry
    rw [← hentry] at hj0 ⊢
    refine .child (ih hmdir) ?_ ?_ hj0
    · rw [hu.mode_eq h hn hk hi hm]
      exact hmdir
    · rw [hu.entries h hn hk hi hfile hd]
      exact hj

theorem Unlinked.treeDir_iff : t.TreeDir m ↔ s.TreeDir m := by
  constructor
  · intro hm
    have hin := hu.inTree h hn hk hi hfile honly hm.1
    exact ⟨hin, by rw [← hu.mode_eq h hn hk hi hin]; exact hm.2⟩
  · exact fun hm => hu.treeDir h hn hk hi hfile hnr honly hm.1 hm.2

/-- **The links of the others are the same**, and the file has lost that one. -/
theorem Unlinked.links (hm : m.2 ≠ 0) : t.links m = if m = (n.1, i) then s.links m \ {(n.2, k)} else s.links m := by
  have hmem : ∀ x, x ∈ t.links m ↔ x ∈ s.links m ∧ ¬(m.1 = n.1 ∧ x = (n.2, k)) := by
    intro x
    rw [Fs.links, Fs.links, Set.mem_ofPred_eq, Set.mem_ofPred_eq, hu.treeDir_iff h hn hk hi hfile hnr honly]
    constructor
    · rintro ⟨hd, hx, heq⟩
      rw [hu.entries h hn hk hi hfile hd] at hx
      rw [hu.dentryNr h hn hk hi hfile hd hx] at heq
      split at heq
      · exact absurd heq.symm hm
      · refine ⟨⟨hd, hx, heq⟩, fun hc => ‹¬_› ?_⟩
        obtain ⟨hdev, rfl⟩ := hc
        exact ⟨by rw [hdev], rfl⟩
    · rintro ⟨⟨hd, hx, heq⟩, hno⟩
      refine ⟨hd, by rw [hu.entries h hn hk hi hfile hd]; exact hx, ?_⟩
      rw [hu.dentryNr h hn hk hi hfile hd hx, if_neg ?_]
      · exact heq
      · rintro ⟨hmn, hxk⟩
        obtain ⟨m₁, nr⟩ := m
        obtain ⟨x₁, x₂⟩ := x
        obtain ⟨rfl, rfl⟩ := Prod.mk.inj hmn
        exact hno ⟨rfl, by rw [show x₂ = k from hxk]⟩
  ext x
  rw [hmem]
  split
  · rw [Set.mem_sdiff, Set.mem_singleton_iff, ‹m = (n.1, i)›]
    simp only [true_and]
  · rename_i hne
    refine ⟨And.left, fun hx => ⟨hx, fun hc => hne ?_⟩⟩
    obtain ⟨hdev, rfl⟩ := hc
    obtain ⟨-, -, heq⟩ := hx
    rw [hdev, hnr] at heq
    exact Prod.ext hdev heq.symm

/-- A file that has lost its last link is in no directory. -/
theorem Unlinked.gone (hlast : (s.descOf n.1 i).nlinks = 1) : ¬t.InTree (n.1, i) := by
  have hpos : InodePos (s.superDesc n.1) i := h.inodePos hi
  have hlinks := hu.links h hn hk hi hfile hnr honly (m := (n.1, i)) (Nat.ne_of_gt hpos.1)
  rw [if_pos rfl] at hlinks
  have hmem : (n.2, k) ∈ s.links (n.1, i) := ⟨hn, hk, hnr⟩
  obtain ⟨x, hx⟩ := Set.ncard_eq_one.mp ((h.links _ hi hfile).symm.trans hlast)
  have hnone : t.links (n.1, i) = ∅ := by
    rw [hx, Set.mem_singleton_iff] at hmem
    rw [hlinks, hx, hmem, Set.sdiff_self]
  intro hin
  generalize hm : ((n.1, i) : ℕ × ℕ) = m at hin
  cases hin with
  | root hdev hk' =>
    obtain ⟨hdev', rfl⟩ := Prod.mk.inj hm
    rw [Fs.getSuper_congr honly.superTable] at hk'
    rw [hdev', h.roots hdev hk'] at hfile
    exact Bool.noConfusion hfile
  | @child m j hin hdir hj hj0 =>
    obtain ⟨hdev', hj'⟩ := Prod.mk.inj hm
    have hlink : (m.2, j) ∈ t.links (n.1, i) := by
      refine ⟨?_, ?_, ?_⟩
      · rw [hdev']
        exact ⟨hin, hdir⟩
      · rw [hdev']
        exact hj
      · rw [hdev']
        exact hj'.symm
    rw [hnone] at hlink
    exact hlink

/-- The zones of the files that are left. -/
theorem Unlinked.zoneAt (hm : t.InTree m) (hz : s.HasZones m) {p : List ℕ} (hp : IsSlot p) :
    t.zoneAt m.1 m.2 p = s.zoneAt m.1 m.2 p := by
  have hpos : InodePos (s.superDesc n.1) i := h.inodePos hi
  have hin := hu.inTree h hn hk hi hfile honly hm
  refine Touched.zoneAt h hn hk hpos hu.same hin hz hp fun o ho ho' => ?_
  rcases eq_or_ne m (n.1, i) with rfl | hne
  · refine hu.kept (fun hlast => hu.gone h hn hk hi hfile hnr honly hlast hm) o ho' (by omega)
  · exact Touched.descByte h hn hk hpos hu.same (h.inodePos hin) (h.layoutOf hin) hne ho'

/-- The zones that are left are in use. -/
theorem Unlinked.zone_used (hm : t.InTree m) (hz : s.HasZones m) {p : List ℕ} (hp : IsSlot p)
    (hp0 : s.zoneAt m.1 m.2 p ≠ 0) : t.zbit m.1 (zonePos (s.superDesc m.1) (s.zoneAt m.1 m.2 p)) = true := by
  have hin := hu.inTree h hn hk hi hfile honly hm
  obtain ⟨hlo, -, hbit⟩ := (h.trees m hin hz).zone p hp hp0
  refine (hu.zbit _ _).mpr ⟨hbit, ?_⟩
  rintro ⟨hdev, hlast, hreg, q, hq, hq0, heq⟩
  have hne : m ≠ (n.1, i) := fun hc => hu.gone h hn hk hi hfile hnr honly hlast (hc ▸ hm)
  have hlo' := ((h.trees _ hi (Or.inl hreg)).zone q hq hq0).1
  rw [hdev] at hlo heq
  have hsame := zonePos_inj (h.layoutOf hi) hlo hlo' heq
  exact h.apart m (n.1, i) hin hi hz (Or.inl hreg) hdev hne p q hp hq hp0 (by rw [hdev]; exact hsame)

theorem Unlinked.isDirectory (hm : t.TreeDir m) : t.IsDirectory m := by
  have hd := (hu.treeDir_iff h hn hk hi hfile hnr honly).mp hm
  have hold := h.wellFormed.dirs m hd
  have hpos : InodePos (s.superDesc n.1) i := h.inodePos hi
  have hwithin := hu.same
  refine ⟨fun j hj => ?_, fun j hj hj0 => ?_, fun j hj hj0 => ?_⟩
  · rw [hu.entries h hn hk hi hfile hd] at hj
    obtain ⟨hlt, hne⟩ := hold.blocks j hj
    refine ⟨hlt, ?_⟩
    rw [hu.zoneAt h hn hk hi hfile hnr honly hm.1 hd.hasZones (h.entryZone hd hj).1]
    exact hne
  · rw [hu.entries h hn hk hi hfile hd] at hj
    have hentry := hu.dentryNr h hn hk hi hfile hd hj
    rw [hentry] at hj0
    split at hj0
    · exact absurd rfl hj0
    · rw [if_neg ‹_›] at hentry
      obtain ⟨name, hname, hlen, hsep, hat⟩ := hold.named j hj hj0
      refine ⟨name, hname, hlen, hsep, by rw [hentry]; exact hj0, ?_⟩
      rw [hu.entryOf h hn hk hi hfile hd hj]
      rw [nameLen] at hlen
      refine HasName.congr (fun x hx hx' => ?_) hat.2
      exact Touched.entryByte h hn hk hpos hwithin hd hj (by omega) (by omega) fun hmn hjk =>
        absurd ⟨hmn, hjk⟩ ‹¬(m = n ∧ j = k)›
  · rw [hu.entries h hn hk hi hfile hd] at hj
    rw [hu.dentryNr h hn hk hi hfile hd hj] at hj0 ⊢
    rw [Touched.superDesc h hn hk hpos hwithin]
    split at hj0
    · exact absurd rfl hj0
    · rw [if_neg ‹_›]
      exact hold.nodes j hj hj0

/-- **Taking out an entry leaves the forest in order.** -/
theorem Unlinked.tidy : t.Tidy := by
  have hpos : InodePos (s.superDesc n.1) i := h.inodePos hi
  have hwithin := hu.same
  have hdesc := Touched.superDesc h hn hk hpos hwithin
  have hin : ∀ {m}, t.InTree m → s.InTree m := fun hm => hu.inTree h hn hk hi hfile honly hm
  have hmode : ∀ {m}, t.InTree m → (t.descOf m.1 m.2).mode = (s.descOf m.1 m.2).mode := fun hm =>
    hu.mode_eq h hn hk hi (hin hm)
  have hzones : ∀ {m}, t.InTree m → t.HasZones m → s.HasZones m := fun hm hz => by
    rw [Fs.HasZones, hmode hm] at hz
    exact hz
  have hzone : ∀ {m}, t.InTree m → t.HasZones m → ∀ {p}, IsSlot p → t.zoneAt m.1 m.2 p = s.zoneAt m.1 m.2 p :=
    fun hm hz _ hp => hu.zoneAt h hn hk hi hfile hnr honly hm (hzones hm hz) hp
  have hlists : OnlyLists s t := .of_superTable honly.superTable
  have hloaded := h.wellFormed.loaded
  refine ⟨h.wellFormed.of_same ?_ hlists ⟨?_, ?_, ?_, ?_⟩ (fun j => by rw [honly.inodeTable]) honly.task
      (fun m => hu.treeDir_iff h hn hk hi hfile hnr honly) (fun m hm => hu.isDirectory h hn hk hi hfile hnr honly hm),
    fun hdev hk' => ?_, fun hdev hk' => ?_, fun hdev hk' => ?_, fun m hm hz => ?_, fun m m' hm hm' hz hz' hdev hne p q hp hq hp0 => ?_,
    fun m hm => ?_, fun m hm hmfile => ?_⟩
  · exact (carried_holding h.wellFormed.pinned).blocks (Holding.refl h.wellFormed.table) honly
  · rw [honly.inodeTable, honly.superTable]
    simp only [Fs.getSuper_congr honly.superTable]
    exact hloaded.mem
  · rw [honly.inodeTable, honly.superTable]
    exact hloaded.dev_eq
  · rw [honly.inodeTable]
    exact fun j hj hused => (hloaded.holds j hj hused).of_same ⟨honly.inodeTable, hdesc _⟩
  · simp only [Fs.nodeOf, honly.inodeTable]
    exact hloaded.unique
  · rw [hlists.getSuper] at hk'
    exact (h.layout hdev hk').of_lists (Touched.superBlk h hn hk hpos hwithin _) hlists
  · rw [hlists.getSuper] at hk'
    rw [hdesc]
    exact h.small hdev hk'
  · rw [hlists.getSuper] at hk'
    rw [hu.mode_eq h hn hk hi (.root hdev hk')]
    exact h.roots hdev hk'
  · have htree := h.trees m (hin hm) (hzones hm hz)
    refine ⟨by rw [hdesc]; exact htree.inode, fun p hp hp0 => ?_, fun p q hp hq hp0 heq => ?_⟩
    · rw [hzone hm hz hp] at hp0 ⊢
      obtain ⟨hlo, hlt, -⟩ := htree.zone p hp hp0
      rw [DataZone, hdesc]
      exact ⟨hlo, hlt, hu.zone_used h hn hk hi hfile hnr honly hm (hzones hm hz) hp hp0⟩
    · rw [hzone hm hz hp] at hp0 heq
      rw [hzone hm hz hq] at heq
      exact htree.inj p q hp hq hp0 heq
  · rw [hzone hm hz hp] at hp0 ⊢
    rw [hzone hm' hz' hq]
    exact h.apart m m' (hin hm) (hin hm') (hzones hm hz) (hzones hm' hz') hdev hne p q hp hq hp0
  · refine (hu.ibit _ _).mpr ⟨h.used m (hin hm), ?_⟩
    rintro ⟨hdev, hnr', hlast⟩
    exact hu.gone h hn hk hi hfile hnr honly hlast ((Prod.ext hdev hnr' : m = (n.1, i)) ▸ hm)
  · rw [hmode hm] at hmfile
    have hold := h.links m (hin hm) hmfile
    rw [hu.links h hn hk hi hfile hnr honly (Nat.ne_of_gt (h.inodePos (hin hm)).1)]
    split
    · subst m
      have hlink := hu.nlinks
      rw [Set.ncard_sdiff_singleton_of_mem (show (n.2, k) ∈ s.links (n.1, i) from ⟨hn, hk, hnr⟩), ← hold]
      exact (Nat.sub_eq_of_eq_add hlink.symm).symm
    · rw [← hold]
      exact (hu.sameDesc h hn hk hi (hin hm) ‹_›).nlinks

end Unlinked

/-! ### Walks -/

section Walks

variable {s t u v : Fs} {n m : ℕ × ℕ} {dev nr k i d : ℕ}

/-- What is in the trees is in the blocks. -/
theorem InTree.of_blk (hblk : t.blk = s.blk) (hsuper : ∀ dev, t.getSuper dev = s.getSuper dev) (h : s.InTree m) :
    t.InTree m := by
  induction h with
  | root hdev hk => exact .root hdev ((hsuper _).trans hk)
  | @child m j _ hdir hj hj0 ih =>
    have hentry : t.entryOf m.1 m.2 j = s.entryOf m.1 m.2 j := by rw [Fs.entryOf, Fs.entryOf, zoneAt_of_blk hblk]
    have hdentry : t.dentryNr (t.entryOf m.1 m.2 j) = s.dentryNr (s.entryOf m.1 m.2 j) := by
      rw [hentry, dentryNr_of_blk hblk]
    have hentries : t.entries m.1 m.2 = s.entries m.1 m.2 := by rw [Fs.entries, Fs.entries, descOf_of_blk hblk]
    rw [← hdentry] at hj0 ⊢
    refine .child ih ?_ ?_ hj0
    · rw [descOf_of_blk hblk]
      exact hdir
    · rw [hentries]
      exact hj

/-- **A forest in order is a matter of the blocks**, and of the tables in memory. -/
theorem Fs.Tidy.of_blk (h : s.Tidy) (hblk : t.blk = s.blk) (hlists : OnlyLists s t)
    (hwf : (∀ n, t.TreeDir n ↔ s.TreeDir n) → (∀ n, t.TreeDir n → t.IsDirectory n) → t.WellFormed) : t.Tidy := by
  have hdesc := superDesc_of_same hblk
  have hdescOf := descOf_of_blk hblk
  have hzone : ∀ {dev nr} p, t.zoneAt dev nr p = s.zoneAt dev nr p := fun p => zoneAt_of_blk hblk p
  have hentry : ∀ dev nr k, t.entryOf dev nr k = s.entryOf dev nr k := fun dev nr k => by
    rw [Fs.entryOf, Fs.entryOf, hzone]
  have hentries : ∀ dev nr, t.entries dev nr = s.entries dev nr := fun dev nr => by
    rw [Fs.entries, Fs.entries, hdescOf]
  have hdentry := dentryNr_of_blk hblk
  have htree : ∀ m, t.InTree m ↔ s.InTree m := fun m =>
    ⟨InTree.of_blk hblk.symm fun dev => (hlists.getSuper dev).symm, InTree.of_blk hblk hlists.getSuper⟩
  have hdir : ∀ m, t.TreeDir m ↔ s.TreeDir m := fun m => by rw [Fs.TreeDir, Fs.TreeDir, htree, hdescOf]
  have hlinks : ∀ m, t.links m = s.links m := fun m => by
    ext x
    rw [Fs.links, Fs.links, Set.mem_ofPred_eq, Set.mem_ofPred_eq, hdir, hentries, hentry, hdentry]
  have hzones : ∀ m, t.HasZones m ↔ s.HasZones m := fun m => by rw [Fs.HasZones, Fs.HasZones, hdescOf]
  refine ⟨hwf hdir fun m hm => ?_, fun hdev hk => ?_,
    fun hdev hk => ?_, fun hdev hk => ?_, fun m hm hz => ?_, fun m m' hm hm' hz hz' hdev hne p q hp hq hp0 => ?_,
    fun m hm => ?_, fun m hm hfile => ?_⟩
  · obtain ⟨hblocks, hnamed, hnodes⟩ := h.wellFormed.dirs m ((hdir m).mp hm)
    refine ⟨?_, ?_, ?_⟩
    · simp only [hentries, hzone]
      exact hblocks
    · simp only [hentries, hentry, hdentry, Fs.NameAt, hblk]
      exact hnamed
    · simp only [hentries, hentry, hdentry, hdesc]
      exact hnodes
  · rw [hlists.getSuper] at hk
    exact (h.layout hdev hk).of_lists (by rw [hblk]) hlists
  · rw [hlists.getSuper] at hk
    rw [hdesc]
    exact h.small hdev hk
  · rw [hlists.getSuper] at hk
    rw [hdescOf]
    exact h.roots hdev hk
  · obtain ⟨hinode, hdata, hinj⟩ := h.trees m ((htree m).mp hm) ((hzones m).mp hz)
    refine ⟨by rw [hdesc]; exact hinode, fun p hp => ?_, fun p q hp hq => ?_⟩
    · rw [hzone, DataZone, hdesc, zbit_of_blk hblk hlists]
      exact hdata p hp
    · rw [hzone, hzone]
      exact hinj p q hp hq
  · rw [hzone] at hp0 ⊢
    rw [hzone]
    exact h.apart m m' ((htree m).mp hm) ((htree m').mp hm') ((hzones m).mp hz) ((hzones m').mp hz') hdev hne p q hp hq hp0
  · rw [ibit_of_blk hblk hlists]
    exact h.used m ((htree m).mp hm)
  · rw [hdescOf] at hfile ⊢
    rw [hlinks]
    exact h.links m ((htree m).mp hm) hfile

/-- **A walk leaves the forest in order.** -/
theorem Fs.Tidy.walk (h : s.Tidy) (hw : Walking s t []) (hlists : OnlyLists s t) : t.Tidy :=
  h.of_blk hw.blk hlists (h.wellFormed.of_same hw.holding hlists hw.loaded hw.mount hw.task)

/-- Another task may run. -/
theorem Fs.Tidy.withTask (h : s.Tidy) {task : Task} (hstarts : TaskDirs s.counts task)
    (hroot : s.TreeDir (s.nodeOf task.iroot)) (hpwd : s.TreeDir (s.nodeOf task.ipwd)) :
    ({ s with task := task } : Fs).Tidy := by
  have hwf := h.wellFormed
  refine h.of_blk rfl (.of_superTable rfl) fun htree hdirs => ?_
  refine ⟨⟨hwf.table.free_iff, hwf.table.used, hwf.table.nodup⟩, ⟨hwf.loaded.mem, hwf.loaded.dev_eq, fun j hj hused => ?_,
    hwf.loaded.unique⟩, ⟨hwf.pinned.iroot, hwf.pinned.imount, hwf.pinned.top⟩, hwf.bottom, hwf.mounts, fun k hk hdev => ?_,
    hdirs, hstarts, (htree _).mpr hroot, (htree _).mpr hpwd⟩
  · exact (hwf.loaded.holds j hj hused).of_same ⟨rfl, rfl⟩
  · obtain ⟨m, hm, hdir⟩ := hwf.mounted k hk hdev
    exact ⟨m, hm, (htree _).mpr hdir⟩

end Walks

end Onixs
