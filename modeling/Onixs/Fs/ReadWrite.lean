import Mathlib.Data.Finset.Union
import Onixs.Fs.File
import Onixs.Fs.MapBlock

/-!
# Reading and writing a file

`inode_read` and `inode_write` of `fs/inode.c`: loops over the blocks of a range of the
file. A pass of the write loop is `Onixs.writeChunk`; it maps the block, stores its part
of the buffer and moves the end of the file. What it does to the file is
`Onixs.Wrote`, a relation that two passes in a row satisfy again
(`Onixs.Wrote.trans`), so that the loop as a whole does (`Onixs.Supply.inodeWriteLoop`), as long as
there is a zone for every slot it passes over.
The read loop changes nothing and collects the bytes of the file
(`Onixs.inodeReadLoop_spec`).

Offsets are the `uint32` values of the C variable of type `off_t`. A negative one has no
pass: its block number is out of range or its place in the block is before the buffer.
-/

namespace Onixs

open Bytes

/-! ### The functions -/

/-- The loop of `inode_read`. It fills `buf` from `pos` on with `left` bytes of the file from
`offset` on. -/
def inodeReadLoop (s : Fs) (i : ℕ) (buf : Bytes) (pos offset left : ℕ) :
    Option (Bytes × ℕ × Fs) :=
  if _h : left = 0 then some (buf, offset, s)
  else
    (assert (offset < 2147483648)).bind fun _ =>
    (bmap s i (offset / blockSize) false).bind fun r =>
    (assert (r.1 ≠ 0)).bind fun _ =>
      let start := offset % blockSize
      let chars := min (blockSize - start) left
      let data := r.2.blk (r.2.inodeTable i).dev r.1
      inodeReadLoop r.2 i (buf.copy pos chars fun k => data (start + k)) (pos + chars)
        (u32 (offset + chars)) (left - chars)
termination_by left
decreasing_by
  simp only [blockSize_eq]
  omega

/-- `inode_read`: the buffer with the bytes read, and the number of bytes or `EOF`. -/
def inodeRead (s : Fs) (i : ℕ) (buf : Bytes) (len offset : ℕ) : Option (ℕ × Bytes × Fs) := do
  let desc := s.inodeDesc i
  assert (isFile desc.mode || isDir desc.mode)
  if desc.size ≤ offset then
    return (EOF, buf, s)
  let (buf, offset', s) ← inodeReadLoop s i buf 0 offset (min len (desc.size - offset))
  return (sub32 offset' offset, buf, s.setAtime i s.time)

/-- One pass of the loop of `inode_write`: `chars` bytes of `buf` from `pos` on go to the file
at `offset`. -/
def writeChunk (s : Fs) (i : ℕ) (buf : Bytes) (pos offset chars : ℕ) : Option Fs := do
  assert (offset < 2147483648)
  let (nr, s) ← bmap s i (offset / blockSize) true
  assert (nr ≠ 0)
  let dev := (s.inodeTable i).dev
  let start := offset % blockSize
  let s := s.setBlk dev nr ((s.blk dev nr).copy start chars fun k => buf (pos + k))
  let offset := u32 (offset + chars)
  if (s.inodeDesc i).size < offset then
    return s.setSize i offset
  return s

/-- The loop of `inode_write`. -/
def inodeWriteLoop (s : Fs) (i : ℕ) (buf : Bytes) (pos offset left : ℕ) : Option (ℕ × Fs) :=
  if _h : left = 0 then some (offset, s)
  else
    let chars := min (blockSize - offset % blockSize) left
    (writeChunk s i buf pos offset chars).bind fun s =>
      inodeWriteLoop s i buf (pos + chars) (u32 (offset + chars)) (left - chars)
termination_by left
decreasing_by
  simp only [blockSize_eq]
  omega

/-- `inode_write`: the number of bytes written. -/
def inodeWrite (s : Fs) (i : ℕ) (buf : Bytes) (len offset : ℕ) : Option (ℕ × Fs) := do
  assert (isFile (s.inodeDesc i).mode)
  let (offset', s) ← inodeWriteLoop s i buf 0 offset len
  return (sub32 offset' offset, (s.setAtime i s.time).setMtime i s.time)

/-! ### Stores in the descriptor -/

section Desc

variable {s : Fs} {dev nr i : ℕ} (h : s.Holds dev nr i)

include h

theorem inodeDesc_eq : s.inodeDesc i
    = readInodeDesc (s.blk dev (inodeBlock (s.superDesc dev) nr)) (inodeOffset nr) := by
  rw [Fs.inodeDesc, h.dev_eq, h.buf, h.desc]

theorem putDesc32_eq (o v : ℕ) : s.putDesc32 i o v = s.setBlk dev (inodeBlock (s.superDesc dev) nr)
    ((s.blk dev (inodeBlock (s.superDesc dev) nr)).putU32 (inodeOffset nr + o) v) := by
  rw [Fs.putDesc32, Fs.setDescBlk, Fs.descBlk, h.dev_eq, h.buf, h.desc]

theorem onlyBytes_putDesc32 {o : ℕ} (v : ℕ) (ho : o + 4 ≤ 14) :
    OnlyBytes s (s.putDesc32 i o v) dev (inodeBlock (s.superDesc dev) nr) (inodeOffset nr)
      (inodeOffset nr + 14) := by
  rw [putDesc32_eq h]
  refine ⟨rfl, fun dev' b' o' hout => ?_⟩
  by_cases hplace : dev' = dev ∧ b' = inodeBlock (s.superDesc dev) nr
  · obtain ⟨rfl, rfl⟩ := hplace
    have := hout rfl rfl
    rw [Fs.setBlk_blk_self]
    exact putU32_of_ne _ _ (by omega)
  · rw [Fs.setBlk_blk_of_ne _ _ (not_and_or.mp hplace)]

end Desc

theorem onlyBytes_setAtime (s : Fs) (i v dev b lo hi : ℕ) :
    OnlyBytes s (s.setAtime i v) dev b lo hi := ⟨rfl, fun _ _ _ _ => rfl⟩

theorem onlyBytes_copy (s : Fs) (dev b a n : ℕ) (src : Bytes) :
    OnlyBytes s (s.setBlk dev b ((s.blk dev b).copy a n src)) dev b a (a + n) := by
  refine ⟨rfl, fun dev' b' o hout => ?_⟩
  by_cases hplace : dev' = dev ∧ b' = b
  · obtain ⟨rfl, rfl⟩ := hplace
    rw [Fs.setBlk_blk_self]
    exact copy_of_notMem _ _ (hout rfl rfl)
  · rw [Fs.setBlk_blk_of_ne _ _ (not_and_or.mp hplace)]

/-! ### What a write does -/

/-- **The `n` bytes of the file from `offset` on have become `data`**: the file reaches at
least to their end, the rest of it reads as before, and so do the other files. -/
structure Wrote (s t : Fs) (dev nr i : ℕ) (F : ℕ → Prop) (offset n : ℕ) (data : Bytes) : Prop where
  /-- The type of the file. -/
  mode : (t.inodeDesc i).mode = (s.inodeDesc i).mode
  /-- The size. -/
  size : (t.inodeDesc i).size
    = if n = 0 then (s.inodeDesc i).size else max (s.inodeDesc i).size (offset + n)
  /-- The blocks that are mapped. -/
  block : ∀ b < 262663,
    (s.HasBlock dev nr b ∨ ∃ o, offset ≤ o ∧ o < offset + n ∧ o / 1024 = b) → t.HasBlock dev nr b
  /-- The bytes. -/
  byte : ∀ o, o / 1024 < 262663 →
    (s.HasBlock dev nr (o / 1024) ∨ offset ≤ o ∧ o < offset + n) →
    t.fileByte dev nr o
      = if offset ≤ o ∧ o < offset + n then data (o - offset) else s.fileByte dev nr o
  /-- The other files. -/
  other : ∀ nr', F nr' → nr' ≠ nr → SameFile s t dev nr'

section Wrote

variable {s t u : Fs} {dev nr i : ℕ} {F : ℕ → Prop}

theorem Wrote.refl (s : Fs) (dev nr i : ℕ) (F : ℕ → Prop) (offset : ℕ) (data : Bytes) :
    Wrote s s dev nr i F offset 0 data where
  mode := rfl
  size := rfl
  block _ _ h := h.elim id fun ⟨_, h1, h2, _⟩ => absurd h2 (by omega)
  byte _ _ _ := by rw [if_neg (by omega)]
  other _ _ _ := SameFile.refl s dev _

/-- **Two writes in a row are one.** -/
theorem Wrote.trans {offset n m : ℕ} {data : Bytes} (hn : 0 < n)
    (h : Wrote s t dev nr i F offset n data)
    (h' : Wrote t u dev nr i F (offset + n) m fun k => data (n + k)) :
    Wrote s u dev nr i F offset (n + m) data where
  mode := h'.mode.trans h.mode
  size := by
    have hn0 : n ≠ 0 := by omega
    have hnm : n + m ≠ 0 := by omega
    rw [h'.size, h.size, if_neg hn0, if_neg hnm]
    by_cases hm : m = 0
    · rw [if_pos hm, hm, Nat.add_zero]
    · rw [if_neg hm]
      omega
  block b hb hwhich := by
    refine h'.block b hb ?_
    rcases hwhich with hold | ⟨o, h1, h2, h3⟩
    · exact Or.inl (h.block b hb (Or.inl hold))
    · by_cases ho : o < offset + n
      · exact Or.inl (h.block b hb (Or.inr ⟨o, h1, ho, h3⟩))
      · exact Or.inr ⟨o, by omega, by omega, h3⟩
  byte o ho hwhich := by
    by_cases h2 : offset + n ≤ o ∧ o < offset + n + m
    · rw [h'.byte o ho (Or.inr h2), if_pos h2, if_pos (by omega)]
      rw [show n + (o - (offset + n)) = o - offset by omega]
    · have hin : s.HasBlock dev nr (o / 1024) ∨ offset ≤ o ∧ o < offset + n := by
        rcases hwhich with hold | hrange
        · exact Or.inl hold
        · exact Or.inr (by omega)
      have ht : t.HasBlock dev nr (o / 1024) := h.block _ ho
        (hin.imp_right fun hr => ⟨o, hr.1, hr.2, rfl⟩)
      rw [h'.byte o ho (Or.inl ht), if_neg h2, h.byte o ho hin]
      by_cases h1 : offset ≤ o ∧ o < offset + n
      · rw [if_pos h1, if_pos (by omega)]
      · rw [if_neg h1, if_neg (by omega)]
  other nr' hF hne := (h.other nr' hF hne).trans (h'.other nr' hF hne)

/-- A step after the write that keeps the file and its size. -/
theorem Wrote.touch {offset n : ℕ} {data : Bytes} (h : Wrote s t dev nr i F offset n data)
    (hmode : (u.inodeDesc i).mode = (t.inodeDesc i).mode)
    (hsize : (u.inodeDesc i).size = (t.inodeDesc i).size)
    (htree : ∀ p, IsSlot p → u.zoneAt dev nr p = t.zoneAt dev nr p)
    (hbyte : ∀ o, o / 1024 < 262663 → t.HasBlock dev nr (o / 1024) →
      u.fileByte dev nr o = t.fileByte dev nr o)
    (hother : ∀ nr', F nr' → nr' ≠ nr → SameFile t u dev nr') :
    Wrote s u dev nr i F offset n data where
  mode := hmode.trans h.mode
  size := hsize.trans h.size
  block b hb hwhich := by
    rw [Fs.HasBlock, htree _ (isSlot_bmapSlot hb)]
    exact h.block b hb hwhich
  byte o ho hwhich := by
    rw [hbyte o ho (h.block _ ho (hwhich.imp_right fun hr => ⟨o, hr.1, hr.2, rfl⟩))]
    exact h.byte o ho hwhich
  other nr' hF hne := (h.other nr' hF hne).trans (hother nr' hF hne)

end Wrote

/-! ### One pass of the write loop -/

section Chunk

variable {s t : Fs} {dev nr i : ℕ} {F : ℕ → Prop}

/-- The fields of a descriptor before the zone numbers depend on its first 14 bytes. -/
theorem inodeDesc_congr (hs : s.Holds dev nr i) (ht : t.Holds dev nr i)
    (hdesc : t.superDesc dev = s.superDesc dev)
    (hbyte : ∀ o < 14, t.blk dev (inodeBlock (s.superDesc dev) nr) (inodeOffset nr + o)
      = s.blk dev (inodeBlock (s.superDesc dev) nr) (inodeOffset nr + o)) :
    (t.inodeDesc i).mode = (s.inodeDesc i).mode ∧ (t.inodeDesc i).size = (s.inodeDesc i).size := by
  have h0 := hbyte 0 (by omega)
  have h1 := hbyte 1 (by omega)
  rw [Nat.add_zero] at h0
  rw [inodeDesc_eq hs, inodeDesc_eq ht, hdesc]
  simp only [readInodeDesc]
  refine ⟨getU16_congr h0 h1, getU32_congr fun k hk hk' => ?_⟩
  have := hbyte (k - inodeOffset nr) (by omega)
  rwa [show inodeOffset nr + (k - inodeOffset nr) = k by omega] at this

/-- **Mapping the block of a pass**: nothing is lost. -/
theorem Owned.grown (h : Owned s dev nr i F) (hgrows : Grows s t dev nr) (ht : TreeAt t dev nr) :
    (t.inodeDesc i).mode = (s.inodeDesc i).mode ∧ (t.inodeDesc i).size = (s.inodeDesc i).size ∧
      (∀ b < 262663, s.HasBlock dev nr b → t.HasBlock dev nr b) ∧
      ∀ o, o / 1024 < 262663 → s.HasBlock dev nr (o / 1024) → t.fileByte dev nr o = s.fileByte dev nr o := by
  have hl := h.layout
  have hi := h.tree.inode
  have hot := (h.of_grows hgrows ht).1
  obtain ⟨hmode, hsize⟩ := inodeDesc_congr h.holds hot.holds (hgrows.layout hl hi).2.1 fun o ho =>
    hgrows.front _ (hl.inodeBlock_bounds hi).2 (hl.zmap_ne_inodeBlock hi) _ fun _ => by omega
  refine ⟨hmode, hsize, fun b hb hold => ?_, fun o ho hold => ?_⟩
  · rw [Fs.HasBlock, hgrows.kept _ (isSlot_bmapSlot hb) hold]
    exact hold
  · have hkept := hgrows.kept _ (isSlot_bmapSlot ho) hold
    have hz := (h.tree.zone _ (isSlot_bmapSlot ho) hold).1
    rw [← hkept] at hz
    have hblk := hgrows.blk_of_kept hl ht (isSlot_bmapSlot ho) (not_isNode_bmapSlot _) hz
    rw [Fs.fileByte, Fs.fileByte, hblk, hkept]

/-- **Storing the part of a pass**: the bytes of one block change, and nothing else. -/
theorem copy_owned (h : Owned s dev nr i F) {b a n : ℕ} (hb : b < 262663)
    (hblock : s.HasBlock dev nr b) (hn : a + n ≤ 1024) (src : Bytes) (t : Fs)
    (ht : t = s.setBlk dev (s.zoneAt dev nr (bmapSlot b))
      ((s.blk dev (s.zoneAt dev nr (bmapSlot b))).copy a n src)) :
    Owned t dev nr i F ∧ SameFree s t dev nr ∧ OnDevice s t dev ∧ (t.inodeDesc i).mode = (s.inodeDesc i).mode ∧
      (t.inodeDesc i).size = (s.inodeDesc i).size ∧
      (∀ o, o / 1024 < 262663 → s.HasBlock dev nr (o / 1024) → t.fileByte dev nr o
        = if b * 1024 + a ≤ o ∧ o < b * 1024 + a + n then src (o - (b * 1024 + a))
          else s.fileByte dev nr o) ∧
      ∀ nr', F nr' → nr' ≠ nr → SameFile s t dev nr' := by
  have hslot := isSlot_bmapSlot hb
  have hl := h.layout
  have hib := (hl.inodeBlock_bounds h.tree.inode).2
  have hz := h.tree.zone _ hslot hblock
  have honly := onlyBytes_copy s dev (s.zoneAt dev nr (bmapSlot b)) a n src
  rw [← ht] at honly
  obtain ⟨hot, hsame, hdevice, hother⟩ := h.of_onlyBytes honly
    (Or.inl ⟨_, hslot, not_isNode_bmapSlot b, hblock, rfl⟩) fun j => by
      rw [ht]
      exact ⟨rfl, rfl, rfl, rfl⟩
  obtain ⟨hmode, hsize⟩ := inodeDesc_congr h.holds hot.holds hsame.desc fun o _ =>
    honly.byte _ _ _ fun _ hc => absurd hc (by have := hz.1; omega)
  refine ⟨hot, hsame, hdevice, hmode, hsize, fun o ho hold => ?_, hother⟩
  rw [Fs.fileByte, Fs.fileByte, hsame.tree _ (isSlot_bmapSlot ho)]
  by_cases hblk : o / 1024 = b
  · rw [hblk, ht, Fs.setBlk_blk_self]
    by_cases hin : b * 1024 + a ≤ o ∧ o < b * 1024 + a + n
    · rw [copy_of_mem _ _ (by omega) (by omega), if_pos hin]
      rw [show o % 1024 - a = o - (b * 1024 + a) by omega]
    · rw [copy_of_notMem _ _ (by omega), if_neg hin]
  · -- another block has another zone
    have hne : s.zoneAt dev nr (bmapSlot (o / 1024)) ≠ s.zoneAt dev nr (bmapSlot b) := fun hc =>
      hblk (bmapSlot_inj (h.tree.inj _ _ (isSlot_bmapSlot ho) hslot hold hc))
    rw [honly.blk hne, if_neg (by omega)]

/-- A 32-bit field of the descriptor after the type is no part of the contents. -/
theorem putDesc32_owned (h : Owned s dev nr i F) {o : ℕ} (v : ℕ) (ho : 4 ≤ o)
    (ho' : o + 4 ≤ 14) :
    Owned (s.putDesc32 i o v) dev nr i F ∧ SameFree s (s.putDesc32 i o v) dev nr ∧ OnDevice s (s.putDesc32 i o v) dev ∧
      ((s.putDesc32 i o v).inodeDesc i).mode = (s.inodeDesc i).mode ∧
      (∀ k, k / 1024 < 262663 → s.HasBlock dev nr (k / 1024) →
        (s.putDesc32 i o v).fileByte dev nr k = s.fileByte dev nr k) ∧
      (∀ nr', F nr' → nr' ≠ nr → SameFile s (s.putDesc32 i o v) dev nr') ∧
      (s.putDesc32 i o v).inodeDesc i = readInodeDesc
        ((s.blk dev (inodeBlock (s.superDesc dev) nr)).putU32 (inodeOffset nr + o) v)
        (inodeOffset nr) := by
  have hib := (h.layout.inodeBlock_bounds h.tree.inode).2
  have honly := onlyBytes_putDesc32 h.holds v ho'
  obtain ⟨hot, hsame, hdevice, hother⟩ := h.of_onlyBytes honly (Or.inr ⟨rfl, rfl, rfl⟩)
    fun j => ⟨rfl, rfl, rfl, rfl⟩
  have hinode : (s.putDesc32 i o v).inodeDesc i = readInodeDesc
      ((s.blk dev (inodeBlock (s.superDesc dev) nr)).putU32 (inodeOffset nr + o) v)
      (inodeOffset nr) := by
    rw [inodeDesc_eq hot.holds, hsame.desc, putDesc32_eq h.holds, Fs.setBlk_blk_self]
  refine ⟨hot, hsame, hdevice, ?_, fun k hk hold => ?_, hother, hinode⟩
  · rw [hinode, inodeDesc_eq h.holds]
    simp only [readInodeDesc]
    exact getU16_congr (putU32_of_ne _ _ (by omega)) (putU32_of_ne _ _ (by omega))
  · have hz := (h.tree.zone _ (isSlot_bmapSlot hk) hold).1
    rw [Fs.fileByte, Fs.fileByte, hsame.tree _ (isSlot_bmapSlot hk), honly.blk (by omega)]

/-- Storing the size stores the size. -/
theorem setSize_size (h : Owned s dev nr i F) {v : ℕ} (hv : v < 4294967296) :
    ((s.setSize i v).inodeDesc i).size = v := by
  obtain ⟨-, -, -, -, -, -, hinode⟩ := putDesc32_owned h v (show 4 ≤ 4 by omega) (by omega)
  rw [Fs.setSize, hinode]
  exact (getU32_putU32_self _ _ _).trans (Nat.mod_eq_of_lt hv)

/-- Storing the time of the last change leaves the size. -/
theorem setMtime_size (h : Owned s dev nr i F) (v : ℕ) :
    ((s.setMtime i v).inodeDesc i).size = (s.inodeDesc i).size := by
  obtain ⟨-, -, -, -, -, -, hinode⟩ := putDesc32_owned h v (show 4 ≤ 8 by omega) (by omega)
  rw [Fs.setMtime, hinode, inodeDesc_eq h.holds]
  simp only [readInodeDesc]
  exact getU32_congr fun k hk hk' => putU32_of_ne _ _ (by omega)

/-- The time of the last access is not stored in the descriptor. -/
theorem setAtime_owned (h : Owned s dev nr i F) (v : ℕ) :
    Owned (s.setAtime i v) dev nr i F ∧ SameFree s (s.setAtime i v) dev nr ∧ OnDevice s (s.setAtime i v) dev ∧
      (s.setAtime i v).inodeDesc i = s.inodeDesc i ∧
      (∀ k, k / 1024 < 262663 → (s.setAtime i v).fileByte dev nr k = s.fileByte dev nr k) ∧
      ∀ nr', F nr' → nr' ≠ nr → SameFile s (s.setAtime i v) dev nr' := by
  obtain ⟨hot, hsame, hdevice, hother⟩ := h.of_onlyBytes
    (onlyBytes_setAtime s i v dev _ _ _) (Or.inr ⟨rfl, rfl, rfl⟩) fun j => by
      by_cases hj : j = i
      · subst hj
        rw [Fs.setAtime, Fs.setInode_self]
        exact ⟨rfl, rfl, rfl, rfl⟩
      · rw [Fs.setAtime, Fs.setInode_of_ne _ _ hj]
        exact ⟨rfl, rfl, rfl, rfl⟩
  refine ⟨hot, hsame, hdevice, ?_, fun k hk => ?_, hother⟩
  · rw [inodeDesc_eq hot.holds, inodeDesc_eq h.holds, hsame.desc, Fs.setAtime, Fs.setInode_blk]
  · rw [Fs.fileByte, Fs.fileByte, hsame.tree _ (isSlot_bmapSlot hk), Fs.setAtime, Fs.setInode_blk]

/-- **One pass writes its bytes** in the block that `bmap` has mapped. -/
theorem writeChunk_spec {s₁ : Fs} (h : Owned s dev nr i F) (buf : Bytes) (pos : ℕ) {offset chars : ℕ}
    (hchars : 0 < chars) (hfit : offset % 1024 + chars ≤ 1024) (hb : offset / 1024 < 262663)
    (hbmap : bmap s i (offset / 1024) true = some (s₁.zoneAt dev nr (bmapSlot (offset / 1024)), s₁))
    (hhas : s₁.HasBlock dev nr (offset / 1024)) (hgrows : Grows s s₁ dev nr) (htree₁ : TreeAt s₁ dev nr) :
    ∃ t, writeChunk s i buf pos offset chars = some t ∧ Owned t dev nr i F ∧ SameFree s₁ t dev nr ∧ OnDevice s t dev ∧
      Wrote s t dev nr i F offset chars (fun k => buf (pos + k)) ∧
      ∀ o, o / 1024 = offset / 1024 → ¬(offset ≤ o ∧ o < offset + chars) →
        t.fileByte dev nr o = s₁.fileByte dev nr o := by
  obtain ⟨hmode₁, hsize₁, hblock₁, hbyte₁⟩ := h.grown hgrows htree₁
  obtain ⟨hw₁, hother₁⟩ := h.of_grows hgrows htree₁
  obtain ⟨s₂, hs₂⟩ : ∃ s₂, s₂ = s₁.setBlk dev (s₁.zoneAt dev nr (bmapSlot (offset / 1024)))
    ((s₁.blk dev (s₁.zoneAt dev nr (bmapSlot (offset / 1024)))).copy (offset % 1024) chars
      fun k => buf (pos + k)) := ⟨_, rfl⟩
  obtain ⟨hw₂, hsame₂, hdev₂, hmode₂, hsize₂, hbyte₂, hother₂⟩ := copy_owned hw₁ hb hhas hfit _ s₂ hs₂
  have htree₂ := hsame₂.tree
  have hlt : offset + chars < 4294967296 := by omega
  have hwhole : offset / 1024 * 1024 + offset % 1024 = offset := Nat.div_add_mod' offset 1024
  rw [hwhole] at hbyte₂
  -- the file after the store, before its end is moved
  have hkey : ∀ u : Fs, (u.inodeDesc i).mode = (s₂.inodeDesc i).mode →
      (u.inodeDesc i).size = max (s.inodeDesc i).size (offset + chars) →
      (∀ p, IsSlot p → u.zoneAt dev nr p = s₂.zoneAt dev nr p) →
      (∀ o, o / 1024 < 262663 → s₂.HasBlock dev nr (o / 1024) →
        u.fileByte dev nr o = s₂.fileByte dev nr o) →
      (∀ nr', F nr' → nr' ≠ nr → SameFile s₂ u dev nr') →
      Wrote s u dev nr i F offset chars (fun k => buf (pos + k)) ∧
        ∀ o, o / 1024 = offset / 1024 → ¬(offset ≤ o ∧ o < offset + chars) →
          u.fileByte dev nr o = s₁.fileByte dev nr o := by
    intro u hmode hsize htree hbyte hother
    have hhas₁ : ∀ b < 262663, (s.HasBlock dev nr b ∨ ∃ o, offset ≤ o ∧ o < offset + chars ∧
        o / 1024 = b) → s₁.HasBlock dev nr b := by
      rintro b hb' (hold | ⟨o, h1, h2, h3⟩)
      · exact hblock₁ b hb' hold
      · obtain rfl : offset / 1024 = b := by omega
        exact hhas
    have hboth : ∀ o, o / 1024 < 262663 → s₁.HasBlock dev nr (o / 1024) → u.fileByte dev nr o
        = if offset ≤ o ∧ o < offset + chars then buf (pos + (o - offset)) else s₁.fileByte dev nr o := by
      intro o ho h₁
      have h₂ : s₂.HasBlock dev nr (o / 1024) := by
        rw [Fs.HasBlock, htree₂ _ (isSlot_bmapSlot ho)]
        exact h₁
      rw [hbyte o ho h₂, hbyte₂ o ho h₁]
    refine ⟨⟨hmode.trans (hmode₂.trans hmode₁), by rw [hsize, if_neg (by omega)],
      fun b hb' hwhich => ?_, fun o ho hwhich => ?_, fun nr' hF hne =>
        ((hother₁ nr' hF hne).trans (hother₂ nr' hF hne)).trans (hother nr' hF hne)⟩, fun o ho hout => ?_⟩
    · rw [Fs.HasBlock, htree _ (isSlot_bmapSlot hb'), htree₂ _ (isSlot_bmapSlot hb')]
      exact hhas₁ b hb' hwhich
    · rw [hboth o ho (hhas₁ _ ho (hwhich.imp_right fun hr => ⟨o, hr.1, hr.2, rfl⟩))]
      by_cases hin : offset ≤ o ∧ o < offset + chars
      · rw [if_pos hin, if_pos hin]
      · rw [if_neg hin, if_neg hin, hbyte₁ o ho (hwhich.resolve_right hin)]
    · rw [hboth o (by rwa [ho]) (by rwa [ho]), if_neg hout]
  have hne : s₁.zoneAt dev nr (bmapSlot (offset / 1024)) ≠ 0 := hhas
  have hrun : writeChunk s i buf pos offset chars
      = if (s₂.inodeDesc i).size < offset + chars then some (s₂.setSize i (offset + chars))
        else some s₂ := by
    rw [writeChunk, assert_pos (show offset < 2147483648 by omega)]
    simp only [Option.bind_eq_bind, Option.bind_some, blockSize_eq, hbmap, assert_pos hne,
      hw₁.holds.dev_eq, u32_of_lt hlt, ← hs₂, Option.pure_def]
  rw [hrun, hsize₂, hsize₁]
  by_cases hgrow : (s.inodeDesc i).size < offset + chars
  · obtain ⟨hw₃, hsame₃, hdev₃, hmode₃, hbyte₃, hother₃, -⟩ :=
      putDesc32_owned hw₂ (offset + chars) (show 4 ≤ 4 by omega) (by omega)
    have hsize₃ := setSize_size hw₂ hlt
    rw [if_pos hgrow]
    exact ⟨_, rfl, hw₃, hsame₂.trans hsame₃, hgrows.onDevice.trans (hdev₂.trans hdev₃),
      hkey _ hmode₃ (by rw [hsize₃]; omega) hsame₃.tree hbyte₃ hother₃⟩
  · rw [if_neg hgrow]
    exact ⟨s₂, rfl, hw₂, hsame₂, hgrows.onDevice.trans hdev₂, hkey s₂ rfl (by rw [hsize₂, hsize₁]; omega)
      (fun _ _ => rfl) (fun _ _ _ => rfl) fun _ _ _ => SameFile.refl s₂ dev _⟩

end Chunk

/-! ### The loops -/

/-- The slots that a write of `len` bytes at `offset` passes over, in order. -/
def neededSlots (offset len : ℕ) : List (List ℕ) :=
  if len = 0 then []
  else (List.range' (offset / 1024) ((offset + len - 1) / 1024 + 1 - offset / 1024)).flatMap fun b =>
    slotsTo (bmapSlot b)

/-- The slots of a pass, and those of the rest. -/
theorem neededSlots_pass {offset len chars : ℕ} (hchars : chars = min (1024 - offset % 1024) len) (hlen : len ≠ 0) :
    neededSlots offset len = slotsTo (bmapSlot (offset / 1024)) ++ neededSlots (offset + chars) (len - chars) := by
  have hcount : (offset + len - 1) / 1024 + 1 - offset / 1024 = (offset + len - 1) / 1024 - offset / 1024 + 1 := by
    omega
  rw [neededSlots, if_neg hlen, hcount, List.range'_succ, List.flatMap_cons, neededSlots]
  congr 1
  by_cases hlast : len - chars = 0
  · rw [if_pos hlast, show (offset + len - 1) / 1024 - offset / 1024 = 0 by omega]
    rfl
  · have hrest : (offset + chars + (len - chars) - 1) / 1024 + 1 - (offset / 1024 + 1)
        = (offset + len - 1) / 1024 - offset / 1024 := by omega
    rw [if_neg hlast, show (offset + chars) / 1024 = offset / 1024 + 1 by omega, hrest]

theorem mem_neededSlots {offset len : ℕ} {q : List ℕ} (h : q ∈ neededSlots offset len) :
    ∃ o, offset ≤ o ∧ o < offset + len ∧ q ∈ slotPath (bmapSlot (o / 1024)) := by
  rw [neededSlots] at h
  by_cases hlen : len = 0
  · rw [if_pos hlen] at h
    exact absurd h List.not_mem_nil
  · rw [if_neg hlen] at h
    obtain ⟨b, hb, hq⟩ := List.mem_flatMap.mp h
    obtain ⟨hlo, hhi⟩ := List.mem_range'_1.mp hb
    refine ⟨max offset (b * 1024), by omega, by omega, ?_⟩
    rw [show max offset (b * 1024) / 1024 = b by omega]
    exact mem_slotPath.mpr (mem_slotsTo.mp hq)

/-- **The first block of a write** was mapped before, or has come as a zone of which `P` holds; of that zone it has what
the write leaves. -/
def FirstBlock (s t : Fs) (dev nr : ℕ) (P : List ℕ → ℕ → Prop) (offset len : ℕ) : Prop :=
  s.HasBlock dev nr (offset / 1024) ∨ ∃ z, P (bmapSlot (offset / 1024)) z ∧
    ∀ o, o / 1024 = offset / 1024 → ¬(offset ≤ o ∧ o < offset + len) → t.fileByte dev nr o = s.blk dev z (o % 1024)

section Loops

variable {s : Fs} {dev nr i : ℕ} {F : ℕ → Prop} {R : List (List ℕ) → Fs → Prop} {P : List ℕ → ℕ → Prop}

/-- **One pass of the write loop**, with what the others need still there. -/
theorem Supply.writeChunk (hR : Supply dev nr R P) (h : Owned s dev nr i F) (buf : Bytes) (pos : ℕ) {offset chars : ℕ}
    {ps : List (List ℕ)} (hready : R (slotsTo (bmapSlot (offset / 1024)) ++ ps) s) (hchars : 0 < chars)
    (hfit : offset % 1024 + chars ≤ 1024) (hb : offset / 1024 < 262663) :
    ∃ t, Onixs.writeChunk s i buf pos offset chars = some t ∧ Owned t dev nr i F ∧ OnDevice s t dev ∧ R ps t ∧
      Wrote s t dev nr i F offset chars (fun k => buf (pos + k)) ∧ FirstBlock s t dev nr P offset chars := by
  have hslot := isSlot_bmapSlot hb
  obtain ⟨s₁, hrun, hnz, hgrows, hready₁, hP, -⟩ := hR.bmapPath _ hslot hready
  have htree₁ := hR.tree hready₁
  obtain ⟨t, hchunk, hot, hsame, hdevice, hwrote, hrest⟩ := writeChunk_spec h buf pos hchars hfit hb
    ((bmap_eq_path h.holds hb true).trans hrun) hnz hgrows htree₁
  refine ⟨t, hchunk, hot, hdevice, hR.same hready₁ hsame, hwrote, ?_⟩
  by_cases hold : s.HasBlock dev nr (offset / 1024)
  · exact Or.inl hold
  · have hempty : s.zoneAt dev nr (bmapSlot (offset / 1024)) = 0 := not_not.mp hold
    refine Or.inr ⟨_, hP hempty, fun o ho hout => ?_⟩
    have hfresh := hgrows.fresh _ hslot fun hc => hnz (hc.trans hempty)
    rw [hrest o ho hout, Fs.fileByte, ho,
      hgrows.blk_of_kept h.layout htree₁ hslot (not_isNode_bmapSlot _) hfresh.1]

/-- **The write loop writes what is left of the buffer.** -/
theorem Supply.inodeWriteLoop (hR : Supply dev nr R P) (buf : Bytes) :
    ∀ (left : ℕ) {s : Fs} (pos offset : ℕ), Owned s dev nr i F → R (neededSlots offset left) s →
      offset + left ≤ 268966912 →
      ∃ t, Onixs.inodeWriteLoop s i buf pos offset left = some (offset + left, t) ∧
        Owned t dev nr i F ∧ OnDevice s t dev ∧ R [] t ∧ Wrote s t dev nr i F offset left (fun k => buf (pos + k)) ∧
        (left ≠ 0 → FirstBlock s t dev nr P offset left) := by
  intro left
  induction left using Nat.strong_induction_on with
  | _ left ih =>
    intro s pos offset h hready hfit
    rw [Onixs.inodeWriteLoop]
    by_cases hleft : left = 0
    · subst hleft
      rw [dif_pos rfl]
      exact ⟨s, rfl, h, OnDevice.refl s dev, hready, Wrote.refl s dev nr i F offset _, fun hc => absurd rfl hc⟩
    · rw [dif_neg hleft]
      simp only [blockSize_eq]
      obtain ⟨chars, hchars⟩ : ∃ chars, chars = min (1024 - offset % 1024) left := ⟨_, rfl⟩
      rw [← hchars]
      have hfits : offset % 1024 + chars ≤ 1024 := by omega
      have hpos : 0 < chars := by omega
      rw [neededSlots_pass hchars hleft] at hready
      obtain ⟨t, hrun, hot, hdevice, hreadyt, hwrote, hfirst⟩ :=
        hR.writeChunk h buf pos hready hpos hfits (by omega)
      obtain ⟨u, hrun', hou, hdevice', hreadyu, hwrote', -⟩ :=
        ih (left - chars) (by omega) (pos + chars) (offset + chars) hot hreadyt (by omega)
      have hassoc : (fun k => buf (pos + chars + k)) = fun k => (fun k => buf (pos + k)) (chars + k) :=
        funext fun k => by rw [Nat.add_assoc]
      rw [hassoc] at hwrote'
      have htotal : chars + (left - chars) = left := by omega
      have hboth := hwrote.trans (by omega) hwrote'
      rw [htotal] at hboth
      refine ⟨u, ?_, hou, hdevice.trans hdevice', hreadyu, hboth, fun _ => ?_⟩
      · rw [hrun, Option.bind_some, u32_of_lt (by omega), hrun']
        rw [show offset + chars + (left - chars) = offset + left by omega]
      · refine hfirst.imp_right fun ⟨z, hz, hbyte⟩ => ⟨z, hz, fun o ho hout => ?_⟩
        have hblock : t.HasBlock dev nr (o / 1024) :=
          hwrote.block _ (by omega) (Or.inr ⟨offset, le_refl _, by omega, ho.symm⟩)
        rw [hwrote'.byte o (by omega) (Or.inl hblock), if_neg (by omega)]
        exact hbyte o ho (by omega)

/-- **`inode_write` writes the buffer**, as long as the slots it passes over can be filled. -/
theorem Supply.inodeWrite (hR : Supply dev nr R P) (h : Owned s dev nr i F) (buf : Bytes) {len offset : ℕ}
    (hready : R (neededSlots offset len) s) (hfile : isFile (s.inodeDesc i).mode = true)
    (hfit : offset + len ≤ 268966912) :
    ∃ t, Onixs.inodeWrite s i buf len offset = some (len, t) ∧ Owned t dev nr i F ∧ OnDevice s t dev ∧ R [] t ∧
      Wrote s t dev nr i F offset len buf ∧ (len ≠ 0 → FirstBlock s t dev nr P offset len) := by
  obtain ⟨u, hloop, hou, hdevice, hready', hwrote, hfirst⟩ :=
    hR.inodeWriteLoop buf len 0 offset h hready hfit
  obtain ⟨hot₁, hsame₁, hdevice₁, hinode₁, hbyte₁, hother₁⟩ := setAtime_owned hou u.time
  obtain ⟨hot, hsame, hdevice₂, hmode, hbyte, hother, -⟩ :=
    putDesc32_owned hot₁ u.time (show 4 ≤ 8 by omega) (by omega)
  have hboth := (hwrote.touch (by rw [hinode₁]) (by rw [hinode₁]) hsame₁.tree (fun o ho _ => hbyte₁ o ho)
    hother₁).touch hmode (setMtime_size hot₁ u.time) hsame.tree hbyte hother
  simp only [Nat.zero_add] at hboth
  refine ⟨(u.setAtime i u.time).setMtime i u.time, ?_, hot, hdevice.trans (hdevice₁.trans hdevice₂),
    hR.same (hR.same hready' hsame₁) hsame, hboth, fun hlen => ?_⟩
  · rw [Onixs.inodeWrite, assert_pos hfile]
    simp only [Option.bind_eq_bind, Option.bind_some, hloop, Option.pure_def,
      sub32_of_le (show offset + len < 4294967296 by omega) (Nat.le_add_right offset len), Nat.add_sub_cancel_left]
  · refine (hfirst hlen).imp_right fun ⟨z, hz, hkeep⟩ => ⟨z, hz, fun o ho hout => ?_⟩
    have hblock : u.HasBlock dev nr (o / 1024) :=
      hwrote.block _ (by omega) (Or.inr ⟨offset, le_refl _, by omega, ho.symm⟩)
    have hblock₁ : (u.setAtime i u.time).HasBlock dev nr (o / 1024) := by
      rw [Fs.HasBlock, hsame₁.tree _ (isSlot_bmapSlot (by omega))]
      exact hblock
    exact ((hbyte o (by omega) hblock₁).trans (hbyte₁ o (by omega))).trans (hkeep o ho hout)

/-- **The read loop collects the bytes of the file** and changes nothing. -/
theorem inodeReadLoop_spec (h : s.Holds dev nr i) :
    ∀ (left : ℕ) (buf : Bytes) (pos offset : ℕ), offset + left ≤ 268966912 →
      (∀ o, offset ≤ o → o < offset + left → s.HasBlock dev nr (o / 1024)) →
      ∃ buf', inodeReadLoop s i buf pos offset left = some (buf', offset + left, s) ∧
        ∀ k, buf' k = if pos ≤ k ∧ k < pos + left then s.fileByte dev nr (offset + (k - pos))
          else buf k := by
  intro left
  induction left using Nat.strong_induction_on with
  | _ left ih =>
    intro buf pos offset hfit hblock
    rw [inodeReadLoop]
    by_cases hleft : left = 0
    · subst hleft
      rw [dif_pos rfl]
      exact ⟨buf, rfl, fun k => by rw [if_neg (by omega)]⟩
    · rw [dif_neg hleft]
      have hb : offset / 1024 < 262663 := by omega
      have hne : s.zoneAt dev nr (bmapSlot (offset / 1024)) ≠ 0 :=
        hblock offset (le_refl _) (by omega)
      simp only [blockSize_eq, bmap_false h hb, Option.bind_some, h.dev_eq,
        assert_pos (show offset < 2147483648 by omega), assert_pos hne]
      obtain ⟨chars, hchars⟩ : ∃ chars, chars = min (1024 - offset % 1024) left := ⟨_, rfl⟩
      rw [← hchars, u32_of_lt (by omega)]
      obtain ⟨buf', hrun, hbuf'⟩ := ih (left - chars) (by omega)
        (buf.copy pos chars fun k =>
          s.blk dev (s.zoneAt dev nr (bmapSlot (offset / 1024))) (offset % 1024 + k))
        (pos + chars) (offset + chars) (by omega) fun o h1 h2 => hblock o (by omega) (by omega)
      refine ⟨buf', ?_, fun k => ?_⟩
      · rw [hrun, show offset + chars + (left - chars) = offset + left by omega]
      · rw [hbuf']
        by_cases hlate : pos + chars ≤ k ∧ k < pos + chars + (left - chars)
        · rw [if_pos hlate, if_pos (by omega)]
          rw [show offset + chars + (k - (pos + chars)) = offset + (k - pos) by omega]
        · rw [if_neg hlate]
          by_cases hin : pos ≤ k ∧ k < pos + left
          · -- a byte of this pass, in the block of `offset`
            rw [if_pos hin, copy_of_mem _ _ (by omega) (by omega), Fs.fileByte]
            rw [show (offset + (k - pos)) / 1024 = offset / 1024 by omega,
              show (offset + (k - pos)) % 1024 = offset % 1024 + (k - pos) by omega]
          · rw [if_neg hin, copy_of_notMem _ _ (by omega)]

/-- **`inode_read` returns the bytes of the file**, up to its end. -/
theorem inodeRead_spec (h : s.Holds dev nr i) (hfile : isFile (s.inodeDesc i).mode = true)
    {len offset : ℕ} (out : Bytes) (hlen : 1 ≤ len) (hend : offset + len ≤ (s.inodeDesc i).size)
    (hfit : offset + len ≤ 268966912)
    (hblock : ∀ o, offset ≤ o → o < offset + len → s.HasBlock dev nr (o / 1024)) :
    ∃ out', inodeRead s i out len offset = some (len, out', s.setAtime i s.time) ∧
      ∀ k < len, out' k = s.fileByte dev nr (offset + k) := by
  obtain ⟨out', hrun, hout'⟩ := inodeReadLoop_spec h len out 0 offset hfit hblock
  refine ⟨out', ?_, fun k hk => ?_⟩
  · have hnot : ¬(s.inodeDesc i).size ≤ offset := by omega
    rw [inodeRead, assert_pos (by rw [hfile, Bool.true_or])]
    simp only [Option.bind_eq_bind, Option.bind_some, if_neg hnot,
      show min len ((s.inodeDesc i).size - offset) = len by omega, hrun, Option.pure_def,
      sub32_of_le (show offset + len < 4294967296 by omega) (Nat.le_add_right offset len),
      Nat.add_sub_cancel_left]
  · rw [hout', if_pos (by omega), Nat.sub_zero]

end Loops

/-! ### Writing and reading back -/

/-- The slots that a write of `len` bytes at `offset` may have to fill. -/
def rangeSlots (offset len : ℕ) : Finset (List ℕ) :=
  (Finset.range (offset + len)).biUnion fun o =>
    if offset ≤ o then slotPath (bmapSlot (o / 1024)) else ∅

theorem mem_rangeSlots {offset len o : ℕ} {q : List ℕ} (h : offset ≤ o) (h' : o < offset + len)
    (hq : q ∈ slotPath (bmapSlot (o / 1024))) : q ∈ rangeSlots offset len :=
  Finset.mem_biUnion.mpr ⟨o, Finset.mem_range.mpr h', by rwa [if_pos h]⟩

/-- What `inode_read` gives for the byte at position `o`. -/
def readByte (s : Fs) (i o : ℕ) : Option Byte :=
  (inodeRead s i (fun _ => 0#8) 1 o).map fun r => r.2.1 0

/-- **Writing a file and reading it back.** A regular file, loaded as entry `i`, whose blocks up
to its end are mapped; a device ready to give it the zones it needs (`Onixs.Writing`); a range
that fits the largest size, wherever it starts. `inode_write` writes all of
the buffer and extends the file as far as needed, `inode_read` of the range gives the buffer
back, every other byte below the old end reads as before, and nothing of any other file has
changed. -/
theorem inodeWrite_readBack {s : Fs} {dev nr i len offset : ℕ} {F : ℕ → Prop} (buf : Bytes)
    (hw : Writing s dev nr i (rangeSlots offset len) F)
    (hfile : isFile (s.inodeDesc i).mode = true)
    (hblocks : ∀ b, b * 1024 < (s.inodeDesc i).size → b < totalBlock ∧ s.HasBlock dev nr b)
    (hlen : 1 ≤ len) (hfit : offset + len ≤ totalBlock * blockSize) :
    ∃ t, inodeWrite s i buf len offset = some (len, t) ∧
      (t.inodeDesc i).size = max (s.inodeDesc i).size (offset + len) ∧
      (∀ out, ∃ out' u, inodeRead t i out len offset = some (len, out', u) ∧
        ∀ k < len, out' k = buf k) ∧
      (∀ o < (s.inodeDesc i).size, (o < offset ∨ offset + len ≤ o) →
        readByte t i o = readByte s i o ∧ readByte s i o = some (s.fileByte dev nr o)) ∧
      ∀ nr', F nr' → nr' ≠ nr → SameFile s t dev nr' := by
  rw [totalBlock_eq, blockSize_eq] at hfit
  obtain ⟨t, hrun, hot, -, -, hboth, -⟩ := (supply_ready dev nr (rangeSlots offset len)).inodeWrite hw.owned buf
    ⟨hw.ready, fun q hq => by
      obtain ⟨o, hlo, hhi, hq⟩ := mem_neededSlots hq
      exact mem_rangeSlots hlo hhi hq⟩ hfile (by omega)
  have htsize : (t.inodeDesc i).size = max (s.inodeDesc i).size (offset + len) := by
    rw [hboth.size, if_neg (by omega)]
  have htfile : isFile (t.inodeDesc i).mode = true := by rw [hboth.mode, hfile]
  have hold : ∀ o < (s.inodeDesc i).size, o / 1024 < 262663 ∧ s.HasBlock dev nr (o / 1024) :=
    fun o ho => by
      obtain ⟨hb, hblock⟩ := hblocks (o / 1024) (by omega)
      rw [totalBlock_eq] at hb
      exact ⟨hb, hblock⟩
  refine ⟨t, hrun, htsize, fun out => ?_, fun o ho hout => ?_, hboth.other⟩
  · obtain ⟨out', hread, hbytes⟩ := inodeRead_spec hot.holds htfile out hlen (by omega) (by omega)
      fun o h1 h2 => hboth.block _ (by omega) (Or.inr ⟨o, h1, h2, rfl⟩)
    refine ⟨out', _, hread, fun k hk => ?_⟩
    rw [hbytes k hk, hboth.byte _ (by omega) (Or.inr ⟨by omega, by omega⟩), if_pos ⟨by omega, by omega⟩,
      Nat.add_sub_cancel_left]
  · have hone : ∀ {v : Fs}, v.Holds dev nr i → isFile (v.inodeDesc i).mode = true →
        o < (v.inodeDesc i).size → v.HasBlock dev nr (o / 1024) →
        readByte v i o = some (v.fileByte dev nr o) := by
      intro v hv hvf hvo hvb
      obtain ⟨out', hread, hbytes⟩ := inodeRead_spec hv hvf (fun _ => 0#8) (le_refl 1) hvo
        (by have := (hold o ho).1; omega) fun o' h1 h2 => by
          rwa [show o' = o by omega]
      have h0 := hbytes 0 Nat.one_pos
      rw [Nat.add_zero] at h0
      rw [readByte, hread, Option.map_some]
      exact congrArg some h0
    have hs := hone hw.holds hfile ho (hold o ho).2
    have ht' := hone hot.holds htfile (by omega) (hboth.block _ (hold o ho).1 (Or.inl (hold o ho).2))
    rw [hboth.byte o (hold o ho).1 (Or.inl (hold o ho).2), if_neg (by omega)] at ht'
    exact ⟨ht'.trans hs.symm, hs⟩

/-- The file of `Onixs.fileFs` is a regular one, and empty. -/
theorem fileFs_inodeDesc (stale : Bytes) : isFile ((fileFs stale).inodeDesc 0).mode = true ∧
    ((fileFs stale).inodeDesc 0).size = 0 := by
  have hinode := inodeDesc_eq (fileFs_holds stale)
  rw [fileFs_superDesc, show inodeBlock fileDesc 2 = 4 by decide, show inodeOffset 2 = 32 by decide,
    fileFs_blk _ (by decide), fileBlocks, if_neg (by decide), if_pos rfl] at hinode
  rw [hinode]
  refine ⟨?_, ?_⟩
  · rw [readInodeDesc, getU16_putU16_self]
    decide
  · simp only [readInodeDesc]
    rw [getU32, getU16_putU16_of_disjoint _ _ (by decide),
      getU16_putU16_of_disjoint _ _ (by decide), getU16_zero, getU16_zero]

/-- A line is written to the empty file of `Onixs.fileFs`, next to the empty inode 3. -/
theorem inodeWrite_readBack_line :
    ∃ t, inodeWrite (fileFs fun _ => 0#8) 0 (fun _ => 65#8) 5 0 = some (5, t) ∧
      (t.inodeDesc 0).size = max ((fileFs fun _ => 0#8).inodeDesc 0).size (0 + 5) ∧
      (∀ out, ∃ out' u, inodeRead t 0 out 5 0 = some (5, out', u) ∧ ∀ k < 5, out' k = 65#8) ∧
      (∀ o < ((fileFs fun _ => 0#8).inodeDesc 0).size, (o < 0 ∨ 0 + 5 ≤ o) →
        readByte t 0 o = readByte (fileFs fun _ => 0#8) 0 o ∧
          readByte (fileFs fun _ => 0#8) 0 o = some ((fileFs fun _ => 0#8).fileByte 1 2 o)) ∧
      ∀ nr', nr' = 3 → nr' ≠ 2 → SameFile (fileFs fun _ => 0#8) t 1 nr' := by
  have hslots : ∀ q ∈ rangeSlots 0 5, q = [0] := by decide
  refine inodeWrite_readBack (fun _ => 65#8) ⟨⟨fileFs_layout _, fileFs_tree _, fileFs_zero _, ?_, ?_, ?_⟩,
    fileFs_holds _, ?_⟩ ?_ ?_ (by decide) ?_
  · intro z hz j _
    obtain ⟨h1, h2⟩ := (fileFs_free _).mp hz
    rw [Fs.zoneEntry, fileFs_blk _ (by omega), fileBlocks, if_neg (by omega), if_neg (by omega),
      ite_self, getU16_zero]
  · exact fun q hq => hslots q hq ▸ .root (by decide)
  · exact fileFs_enough _ (by decide)
  · rintro nr' rfl -
    refine ⟨?_, fun p hp hnz => absurd (fileFs_zoneAt _ (by decide) (by decide) hp) hnz,
      fun p q hp _ hnz => absurd (fileFs_zoneAt _ (by decide) (by decide) hp) hnz⟩
    rw [fileFs_superDesc]
    exact ⟨by decide, by decide⟩
  · exact (fileFs_inodeDesc _).1
  · intro b hb
    rw [(fileFs_inodeDesc _).2] at hb
    omega
  · rw [totalBlock_eq, blockSize_eq]
    decide

end Onixs
