import Onixs.Fs.Bitmap

/-!
# The bitmaps of a mounted file system

What `read_super` leaves behind for a device (`Onixs.Mounted`): a super block entry
whose inode bitmap is blocks `2, 3, …` and whose zone bitmap is the blocks after
them. On such a device the four allocators are computed outright, in terms of the
positions of the two bitmaps.

* Position `g` of the zone bitmap stands for zone `g + firstdatazone - 1`: this is
  `balloc`'s numbering, and `balloc` takes the first clear position. `bfree` finds
  the position of its zone only when the buffer it selects is the right one
  (`Onixs.bfree_of_same`), and stops otherwise (`Onixs.bfree_of_ne`).
* Position `g` of the inode bitmap stands for inode `g`, as the super block's sizes
  and `ifree`'s comparison have it. `ialloc` takes the first clear position too, but
  calls it `g` only in the first buffer (`Onixs.ialloc_found`).
-/

namespace Onixs

open Bytes

/-! ### Bitmaps of a device -/

namespace Fs

variable (s : Fs) (dev : ℕ)

/-- The buffers of the device's zone bitmap. -/
def zmaps : ℕ → Option ℕ :=
  match s.getSuper dev with
  | none => fun _ => none
  | some sb => (s.superTable sb).zmaps

/-- The buffers of the device's inode bitmap. -/
def imaps : ℕ → Option ℕ :=
  match s.getSuper dev with
  | none => fun _ => none
  | some sb => (s.superTable sb).imaps

/-- Bit `g` of the device's zone bitmap. -/
def zbit (g : ℕ) : Bool := s.mapBit dev (s.zmaps dev) g

/-- Bit `g` of the device's inode bitmap. -/
def ibit (g : ℕ) : Bool := s.mapBit dev (s.imaps dev) g

/-- The state with bit `g` of the zone bitmap set to `v`. -/
def setZbit (g : ℕ) (v : Bool) : Fs := s.setMapBit dev (s.zmaps dev) g v

/-- The state with bit `g` of the inode bitmap set to `v`. -/
def setIbit (g : ℕ) (v : Bool) : Fs := s.setMapBit dev (s.imaps dev) g v

end Fs

/-- **A mounted device**: its super block is in the table, and its bitmap buffers are
those `read_super` reads. -/
structure Mounted (s : Fs) (dev : ℕ) : Prop where
  /-- The super block is in the table. -/
  super : ∃ sb, s.getSuper dev = some sb
  /-- The inode bitmap is blocks `2, 3, …`. -/
  imaps : ∀ i, s.imaps dev i = if i < (s.superDesc dev).imapBlocks then some (2 + i) else none
  /-- The zone bitmap follows it. -/
  zmaps : ∀ i, s.zmaps dev i = if i < (s.superDesc dev).zmapBlocks
    then some (2 + (s.superDesc dev).imapBlocks + i) else none
  /-- The inode bitmap has between one and eight blocks. -/
  imapBlocks : 1 ≤ (s.superDesc dev).imapBlocks ∧ (s.superDesc dev).imapBlocks ≤ imapNr
  /-- The zone bitmap has between one and eight blocks. -/
  zmapBlocks : 1 ≤ (s.superDesc dev).zmapBlocks ∧ (s.superDesc dev).zmapBlocks ≤ zmapNr
  /-- Zone 0 is no data zone: a zone pointer of 0 means no zone. -/
  firstdatazone : 1 ≤ (s.superDesc dev).firstdatazone

/-- Position `g` of the zone bitmap belongs to a zone, that is, one of `[firstdatazone,
zones)`. -/
def ZonePos (desc : SuperDesc) (g : ℕ) : Prop := 1 ≤ g ∧ g + desc.firstdatazone - 1 < desc.zones

/-- Position `g` of the inode bitmap belongs to an inode, that is, one of `1..inodes`. -/
def InodePos (desc : SuperDesc) (g : ℕ) : Prop := 1 ≤ g ∧ g ≤ desc.inodes

/-- The position of zone `z` in `balloc`'s numbering. -/
def zonePos (desc : SuperDesc) (z : ℕ) : ℕ := z + 1 - desc.firstdatazone

/-- **Position `g` of a bitmap becomes `v` and nothing else changes**: no other position, no
block outside the bitmap, no table. -/
structure OnlyBit (s : Fs) (dev : ℕ) (maps : ℕ → Option ℕ) (g : ℕ) (v : Bool) (t : Fs) :
    Prop where
  /-- The positions of the bitmap. -/
  bits : ∀ g', t.mapBit dev maps g' = if g' = g then v else s.mapBit dev maps g'
  /-- The other blocks. -/
  blk : ∀ dev' b, (dev' ≠ dev ∨ ∀ i, maps i ≠ some b) → t.blk dev' b = s.blk dev' b
  /-- The super block table. -/
  superTable : t.superTable = s.superTable
  /-- The inode table. -/
  inodeTable : t.inodeTable = s.inodeTable
  /-- The running task. -/
  task : t.task = s.task
  /-- The clock. -/
  time : t.time = s.time

theorem OnlyBit.of_setMapBit {s : Fs} {dev : ℕ} {maps : ℕ → Option ℕ} (hdist : DistinctMaps maps)
    {g b : ℕ} (hb : maps (g / 8192) = some b) (v : Bool) :
    OnlyBit s dev maps g v (s.setMapBit dev maps g v) where
  bits := mapBit_setMapBit hdist hb v
  blk _ _ h := setMapBit_blk_of_ne h v
  superTable := setMapBit_superTable s dev maps g v
  inodeTable := setMapBit_inodeTable s dev maps g v
  task := setMapBit_task s dev maps g v
  time := setMapBit_time s dev maps g v

theorem imapOffset_eq (i : ℕ) : imapOffset i = i * 1024 := by
  rw [imapOffset, blockSize_eq]

section Mounted

variable {s : Fs} {dev : ℕ} (hm : Mounted s dev)

include hm

theorem Mounted.distinct_zmaps : DistinctMaps (s.zmaps dev) := by
  intro i j b hi hj
  rw [hm.zmaps] at hi hj
  split at hi
  · split at hj
    · have h1 := Option.some.inj hi
      have h2 := Option.some.inj hj
      omega
    · exact absurd hj (by simp)
  · exact absurd hi (by simp)

theorem Mounted.distinct_imaps : DistinctMaps (s.imaps dev) := by
  intro i j b hi hj
  rw [hm.imaps] at hi hj
  split at hi
  · split at hj
    · have h1 := Option.some.inj hi
      have h2 := Option.some.inj hj
      omega
    · exact absurd hj (by simp)
  · exact absurd hi (by simp)

theorem Mounted.zmap_ne_one (i : ℕ) : s.zmaps dev i ≠ some 1 := by
  rw [hm.zmaps]
  split
  · simp only [ne_eq, Option.some.injEq]
    omega
  · simp

theorem Mounted.imap_ne_one (i : ℕ) : s.imaps dev i ≠ some 1 := by
  rw [hm.imaps]
  split
  · simp only [ne_eq, Option.some.injEq]
    omega
  · simp

theorem Mounted.zmap_ne_imap {i j b : ℕ} (hi : s.zmaps dev i = some b) : s.imaps dev j ≠ some b := by
  rw [hm.zmaps] at hi
  rw [hm.imaps]
  split at hi
  · have hb := Option.some.inj hi
    split
    · simp only [ne_eq, Option.some.injEq]
      omega
    · simp
  · exact absurd hi (by simp)

theorem Mounted.zmap_some {i : ℕ} (h : i < (s.superDesc dev).zmapBlocks) :
    s.zmaps dev i = some (2 + (s.superDesc dev).imapBlocks + i) := by
  rw [hm.zmaps, if_pos h]

theorem Mounted.imap_some {i : ℕ} (h : i < (s.superDesc dev).imapBlocks) :
    s.imaps dev i = some (2 + i) := by
  rw [hm.imaps, if_pos h]

/-- A clear position of the zone bitmap lies in one of its blocks. -/
theorem Mounted.zpos_lt {g : ℕ} (h : s.zbit dev g = false) :
    g / 8192 < (s.superDesc dev).zmapBlocks := by
  obtain ⟨b, hb⟩ := buffer_of_clear h
  rw [hm.zmaps] at hb
  split at hb
  · assumption
  · exact absurd hb (by simp)

/-- A clear position of the inode bitmap lies in one of its blocks. -/
theorem Mounted.ipos_lt {g : ℕ} (h : s.ibit dev g = false) :
    g / 8192 < (s.superDesc dev).imapBlocks := by
  obtain ⟨b, hb⟩ := buffer_of_clear h
  rw [hm.imaps] at hb
  split at hb
  · assumption
  · exact absurd hb (by simp)

/-- A state with the same super block table and the same block 1 has the device mounted, with
the same descriptor and the same buffers. -/
theorem Mounted.of_same {t : Fs} (htable : t.superTable = s.superTable)
    (hblk : t.blk dev 1 = s.blk dev 1) :
    Mounted t dev ∧ t.superDesc dev = s.superDesc dev ∧ t.zmaps dev = s.zmaps dev ∧
      t.imaps dev = s.imaps dev := by
  have hget := Fs.getSuper_congr htable dev
  have hdesc : t.superDesc dev = s.superDesc dev := by rw [Fs.superDesc, Fs.superDesc, hblk]
  have hz : t.zmaps dev = s.zmaps dev := by rw [Fs.zmaps, Fs.zmaps, hget, htable]
  have hi : t.imaps dev = s.imaps dev := by rw [Fs.imaps, Fs.imaps, hget, htable]
  exact ⟨⟨by rw [hget]; exact hm.super, by rw [hi, hdesc]; exact hm.imaps,
    by rw [hz, hdesc]; exact hm.zmaps, by rw [hdesc]; exact hm.imapBlocks,
    by rw [hdesc]; exact hm.zmapBlocks, by rw [hdesc]; exact hm.firstdatazone⟩, hdesc, hz, hi⟩

/-- A step that changes one position of a bitmap leaves the device mounted. -/
theorem OnlyBit.mounted {maps : ℕ → Option ℕ} (hne : ∀ i, maps i ≠ some 1) {g : ℕ} {v : Bool}
    {t : Fs} (h : OnlyBit s dev maps g v t) :
    Mounted t dev ∧ t.superDesc dev = s.superDesc dev ∧ t.zmaps dev = s.zmaps dev ∧
      t.imaps dev = s.imaps dev :=
  hm.of_same h.superTable (h.blk dev 1 (Or.inr hne))

/-! ### The zone allocator -/

/-- The offset of a zone bitmap buffer, where nothing wraps. -/
theorem Mounted.zmapOffset_eq {i : ℕ} (hi : i < 65536) :
    zmapOffset (s.superDesc dev) i = i * 8192 + (s.superDesc dev).firstdatazone - 1 := by
  have h1 := hm.firstdatazone
  have h2 : (s.superDesc dev).firstdatazone < 65536 := getU16_lt _ _
  rw [zmapOffset, blockBits_eq, sub32_of_le (by omega) (by omega)]

theorem Mounted.balloc_eq_loop : balloc s dev = allocLoop s dev (s.zmaps dev)
    (zmapOffset (s.superDesc dev)) (s.superDesc dev).zones 8 0 := by
  obtain ⟨sb, hsb⟩ := hm.super
  have hz : s.zmaps dev = (s.superTable sb).zmaps := by rw [Fs.zmaps, hsb]
  rw [balloc_of_super hsb, hz, zmapNr_eq]

/-- **`balloc` takes the first clear position**, and stops when that is no zone. -/
theorem balloc_found {g : ℕ} (hclear : s.zbit dev g = false)
    (hleast : ∀ g' < g, s.zbit dev g' = true) :
    balloc s dev = (assert (g + (s.superDesc dev).firstdatazone - 1 < (s.superDesc dev).zones)).bind
      fun _ => some (g + (s.superDesc dev).firstdatazone - 1, s.setZbit dev g true) := by
  have hk := hm.zmapBlocks.2
  rw [zmapNr_eq] at hk
  have hg := hm.zpos_lt hclear
  have h1 := hm.firstdatazone
  have h2 : (s.superDesc dev).firstdatazone < 65536 := getU16_lt _ _
  have hnum : g % 8192 + zmapOffset (s.superDesc dev) (g / 8192)
      = g + (s.superDesc dev).firstdatazone - 1 := by
    rw [hm.zmapOffset_eq (by omega)]
    omega
  rw [hm.balloc_eq_loop, allocLoop_found (hm.zmap_some hg) hclear hleast
    (fun i hi => ⟨_, hm.zmap_some (by omega)⟩)
    (fun i hi => by rw [hm.zmapOffset_eq (by omega)]; omega) 8 0 (by omega) (by omega), hnum,
    Fs.setZbit]

/-- With every position set `balloc` returns `EOF` when all eight buffers are there, and
stops at the first absent one otherwise. -/
theorem balloc_full (hfull : ∀ g, s.zbit dev g = true) :
    balloc s dev = if (s.superDesc dev).zmapBlocks = 8 then some (EOF, s) else none := by
  have hk := hm.zmapBlocks.2
  rw [zmapNr_eq] at hk
  have h2 : (s.superDesc dev).firstdatazone < 65536 := getU16_lt _ _
  have hnone : s.zmaps dev (s.superDesc dev).zmapBlocks = none := by
    rw [hm.zmaps, if_neg (lt_irrefl _)]
  rw [hm.balloc_eq_loop, allocLoop_none hfull (fun i hi => ⟨_, hm.zmap_some hi⟩) hnone
    (fun i hi => by rw [hm.zmapOffset_eq (by omega)]; omega) 8 0 (Nat.zero_le _)]
  by_cases h8 : (s.superDesc dev).zmapBlocks = 8
  · rw [if_pos (by omega), if_pos h8]
  · rw [if_neg (by omega), if_neg h8]

theorem Mounted.bfree_eq {z : ℕ} (hz : z < (s.superDesc dev).zones) (h0 : 0 < z) :
    bfree s dev z = (s.zmaps dev ((z - 1) / 8192)).bind fun buf =>
      freeBit s dev buf blockSize (zmapOffset (s.superDesc dev) ((z - 1) / 8192)) z := by
  have hlt : (s.superDesc dev).zones < 65536 := getU16_lt _ _
  obtain ⟨sb, hsb⟩ := hm.super
  have hmaps : s.zmaps dev = (s.superTable sb).zmaps := by rw [Fs.zmaps, hsb]
  rw [bfree_of_super hsb hz, ← hmaps, zmapNr_eq,
    freeLoop_select h0 8 0 (Nat.zero_le _) (by omega)]

/-- **`bfree` clears the position of its zone** when the buffer it selects is the one
`balloc`'s numbering puts the zone in. -/
theorem bfree_of_same {z : ℕ} (hlo : (s.superDesc dev).firstdatazone ≤ z)
    (hz : z < (s.superDesc dev).zones) (hused : s.zbit dev (zonePos (s.superDesc dev) z) = true)
    (hin : zonePos (s.superDesc dev) z / 8192 < (s.superDesc dev).zmapBlocks)
    (hsame : zonePos (s.superDesc dev) z / 8192 = (z - 1) / 8192) :
    bfree s dev z = some (s.setZbit dev (zonePos (s.superDesc dev) z) false) := by
  have hk := hm.zmapBlocks.2
  rw [zmapNr_eq] at hk
  have h1 := hm.firstdatazone
  have hb := hm.zmap_some hin
  have hnum : z = zmapOffset (s.superDesc dev) (zonePos (s.superDesc dev) z / 8192)
      + zonePos (s.superDesc dev) z % 8192 := by
    rw [hm.zmapOffset_eq (by omega), zonePos]
    omega
  rw [Fs.zbit, mapBit_of_buffer hb] at hused
  rw [hm.bfree_eq hz (by omega), ← hsame, hb, Option.bind_some,
    freeBit_eq hnum (Nat.mod_lt _ (by omega)) (le_refl _) hused,
    Fs.setZbit, setMapBit_of_buffer hb]

/-- **`bfree` stops** when it selects another buffer: the number of the zone lies below the
numbers of that buffer, or just above them. -/
theorem bfree_of_ne {z : ℕ} (hlo : (s.superDesc dev).firstdatazone ≤ z)
    (hz : z < (s.superDesc dev).zones)
    (hne : zonePos (s.superDesc dev) z / 8192 ≠ (z - 1) / 8192) : bfree s dev z = none := by
  have h1 := hm.firstdatazone
  have hlt : (s.superDesc dev).zones < 65536 := getU16_lt _ _
  refine Option.eq_none_iff_forall_not_mem.mpr fun t ht => ?_
  rw [Option.mem_def, hm.bfree_eq hz (by omega)] at ht
  obtain ⟨b, -, ht⟩ := Option.bind_eq_some_iff.mp ht
  obtain ⟨hge, hlen, -, -⟩ := freeBit_some ht
  rw [hm.zmapOffset_eq (by omega)] at hge hlen
  rw [blockSize_eq] at hlen
  rw [zonePos] at hne
  omega

/-! ### The inode allocator -/

theorem Mounted.ialloc_eq_loop : ialloc s dev
    = allocLoop s dev (s.imaps dev) imapOffset (s.superDesc dev).inodes 8 0 := by
  obtain ⟨sb, hsb⟩ := hm.super
  have hi : s.imaps dev = (s.superTable sb).imaps := by rw [Fs.imaps, hsb]
  rw [ialloc_of_super hsb, hi, imapNr_eq]

/-- **`ialloc` takes the first clear position** `g` and calls it `g % 8192 + g / 8192 *
1024`; it stops when that is not below the number of inodes. -/
theorem ialloc_found {g : ℕ} (hclear : s.ibit dev g = false)
    (hleast : ∀ g' < g, s.ibit dev g' = true) :
    ialloc s dev = (assert (g % 8192 + g / 8192 * 1024 < (s.superDesc dev).inodes)).bind
      fun _ => some (g % 8192 + g / 8192 * 1024, s.setIbit dev g true) := by
  have hk := hm.imapBlocks.2
  rw [imapNr_eq] at hk
  have hg := hm.ipos_lt hclear
  rw [hm.ialloc_eq_loop, allocLoop_found (hm.imap_some hg) hclear hleast
    (fun i hi => ⟨_, hm.imap_some (by omega)⟩) (fun i hi => by rw [imapOffset, blockSize_eq]; omega)
    8 0 (by omega) (by omega), imapOffset, blockSize_eq, Fs.setIbit]

theorem Mounted.ifree_eq {nr : ℕ} (hnr : nr < (s.superDesc dev).inodes) (h0 : 0 < nr) :
    ifree s dev nr = (s.imaps dev ((nr - 1) / 8192)).bind fun buf =>
      freeBit s dev buf blockBits (imapOffset ((nr - 1) / 8192)) nr := by
  have hlt : (s.superDesc dev).inodes < 65536 := getU16_lt _ _
  obtain ⟨sb, hsb⟩ := hm.super
  have hmaps : s.imaps dev = (s.superTable sb).imaps := by rw [Fs.imaps, hsb]
  rw [ifree_of_super hsb hnr, ← hmaps, imapNr_eq,
    freeLoop_select h0 8 0 (Nat.zero_le _) (by omega)]

/-- **`ifree` clears the position of its inode** in the first buffer. -/
theorem ifree_of_lt {nr : ℕ} (h0 : 0 < nr) (hnr : nr < (s.superDesc dev).inodes)
    (h8 : nr < 8192) (hused : s.ibit dev nr = true) :
    ifree s dev nr = some (s.setIbit dev nr false) := by
  have h1 := hm.imapBlocks.1
  have hzero : nr / 8192 = 0 := by omega
  have hb : s.imaps dev (nr / 8192) = some 2 := by
    rw [hzero, hm.imap_some (by omega)]
  have hmod : nr % 8192 = nr := Nat.mod_eq_of_lt h8
  rw [Fs.ibit, mapBit_of_buffer hb, hmod] at hused
  rw [hm.ifree_eq hnr h0, show (nr - 1) / 8192 = nr / 8192 by omega, hb, Option.bind_some,
    freeBit_eq (j := nr) (by rw [imapOffset_eq]; omega) h8 (by rw [blockSize_eq, blockBits_eq]; omega) hused,
    Fs.setIbit, setMapBit_of_buffer hb, hmod]

/-- **Past the first buffer `ifree` clears another bit**, when it does not stop. -/
theorem ifree_of_ge {nr : ℕ} (hnr : nr < (s.superDesc dev).inodes) (h8 : 8192 ≤ nr) {t : Fs}
    (h : ifree s dev nr = some t) :
    ∃ g b, s.imaps dev (g / 8192) = some b ∧ g ≠ nr ∧ t = s.setIbit dev g false := by
  rw [hm.ifree_eq hnr (by omega)] at h
  obtain ⟨b, hb, h⟩ := Option.bind_eq_some_iff.mp h
  obtain ⟨hge, -, hlt, rfl⟩ := freeBit_some h
  rw [imapOffset_eq] at hge hlt ⊢
  obtain ⟨i, hi⟩ : ∃ i, (nr - 1) / 8192 = i := ⟨_, rfl⟩
  rw [hi] at hb hge hlt ⊢
  have hdiv : (8192 * i + (nr - i * 1024)) / 8192 = i := by omega
  have hb' : s.imaps dev ((8192 * i + (nr - i * 1024)) / 8192) = some b := by rwa [hdiv]
  refine ⟨8192 * i + (nr - i * 1024), b, hb', by omega, ?_⟩
  rw [Fs.setIbit, setMapBit_of_buffer hb',
    show (8192 * i + (nr - i * 1024)) % 8192 = nr - i * 1024 by omega]

end Mounted

/-! ### A device with given blocks -/

/-- The super block with descriptor `desc`. -/
def superBytes (desc : SuperDesc) : Bytes :=
  putU16 (putU16 (putU16 (putU16 (putU16 (putU16 (fun _ => 0#8) 0 desc.inodes) 2 desc.zones)
    4 desc.imapBlocks) 6 desc.zmapBlocks) 8 desc.firstdatazone) 16 desc.magic

/-- Device 1, mounted alone, with super block descriptor `desc` and the blocks `d` besides. -/
def deviceFs (desc : SuperDesc) (d : ℕ → Bytes) : Fs where
  blk _ b := if b = 1 then superBytes desc else d b
  superTable i :=
    { dev := if i = 0 then 1 else EOF
      count := 1
      imaps := fun j => if j < desc.imapBlocks then some (2 + j) else none
      zmaps := fun j => if j < desc.zmapBlocks then some (2 + desc.imapBlocks + j) else none
      inodeList := []
      iroot := none
      imount := none }
  inodeTable _ :=
    { dev := EOF, nr := 0, count := 0, buf := 0, desc := 0, atime := 0, ctime := 0, mount := 0 }
  task := { uid := 0, gid := 0, umask := 0, ipwd := 0, iroot := 0 }
  time := 0

/-- A descriptor whose fields fit their words, of a device with bitmaps of one to eight
blocks. -/
structure SuperDesc.Valid (desc : SuperDesc) : Prop where
  /-- The number of inodes. -/
  inodes : desc.inodes < 65536
  /-- The number of blocks. -/
  zones : desc.zones < 65536
  /-- The size of the inode bitmap. -/
  imapBlocks : 1 ≤ desc.imapBlocks ∧ desc.imapBlocks ≤ 8
  /-- The size of the zone bitmap. -/
  zmapBlocks : 1 ≤ desc.zmapBlocks ∧ desc.zmapBlocks ≤ 8
  /-- The first data zone. -/
  firstdatazone : 1 ≤ desc.firstdatazone ∧ desc.firstdatazone < 65536
  /-- The magic number. -/
  magic : desc.magic < 65536

section Device

variable {desc : SuperDesc} (hv : desc.Valid) (d : ℕ → Bytes)

include hv

theorem readSuperDesc_superBytes : readSuperDesc (superBytes desc) = desc := by
  have h4 := hv.imapBlocks
  have h6 := hv.zmapBlocks
  have hread : ∀ {o v : ℕ} {e : Bytes}, v < 65536 → getU16 (putU16 e o v) o = v := fun h => by
    rw [getU16_putU16_self, Nat.mod_eq_of_lt h]
  simp only [readSuperDesc, superBytes, getU16_putU16_of_disjoint, Nat.reduceAdd, Nat.reduceLeDiff,
    true_or, hread hv.inodes, hread hv.zones, hread hv.firstdatazone.2, hread hv.magic,
    hread (show desc.imapBlocks < 65536 by omega), hread (show desc.zmapBlocks < 65536 by omega)]

theorem deviceFs_superDesc : (deviceFs desc d).superDesc 1 = desc := by
  simp only [Fs.superDesc, deviceFs, reduceIte, readSuperDesc_superBytes hv]

omit hv in
theorem deviceFs_getSuper : (deviceFs desc d).getSuper 1 = some 0 := by
  rw [Fs.getSuper, superNr_eq, show List.range 16 = 0 :: List.range' 1 15 by decide,
    List.find?_cons_of_pos]
  simp [deviceFs]

/-- The device is mounted. -/
theorem mounted_deviceFs : Mounted (deviceFs desc d) 1 := by
  have hdesc := deviceFs_superDesc hv d
  have hget : (deviceFs desc d).getSuper 1 = some 0 := deviceFs_getSuper d
  refine ⟨⟨0, hget⟩, fun i => ?_, fun i => ?_, ?_, ?_, ?_⟩
  · rw [hdesc, Fs.imaps, hget]
    rfl
  · rw [hdesc, Fs.zmaps, hget]
    rfl
  · rw [hdesc, imapNr_eq]
    exact hv.imapBlocks
  · rw [hdesc, zmapNr_eq]
    exact hv.zmapBlocks
  · rw [hdesc]
    exact hv.firstdatazone.1

/-- A position of a zone bitmap whose blocks are all ones is set. -/
theorem zbit_deviceFs (g : ℕ) : (deviceFs desc fun _ _ => 255#8).zbit 1 g = true := by
  have hm := mounted_deviceFs hv fun _ _ => 255#8
  rw [Fs.zbit, Fs.mapBit]
  cases hb : (deviceFs desc fun _ _ => 255#8).zmaps 1 (g / 8192) with
  | none => rfl
  | some b =>
    have hne : b ≠ 1 := fun h => hm.zmap_ne_one _ (h ▸ hb)
    simp only [deviceFs, if_neg hne]
    exact bitOf_ones _

/-- A position of an inode bitmap whose blocks are all ones is set. -/
theorem ibit_deviceFs (g : ℕ) : (deviceFs desc fun _ _ => 255#8).ibit 1 g = true := by
  have hm := mounted_deviceFs hv fun _ _ => 255#8
  rw [Fs.ibit, Fs.mapBit]
  cases hb : (deviceFs desc fun _ _ => 255#8).imaps 1 (g / 8192) with
  | none => rfl
  | some b =>
    have hne : b ≠ 1 := fun h => hm.imap_ne_one _ (h ▸ hb)
    simp only [deviceFs, if_neg hne]
    exact bitOf_ones _

end Device

end Onixs
