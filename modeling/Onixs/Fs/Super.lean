import Mathlib.Data.Finset.Card
import Mathlib.Data.Int.Notation
import Mathlib.Order.Interval.Finset.Nat
import Onixs.Fs.Bmap

/-!
# Super blocks and formatting

`fs/super.c`: `read_super`, which leaves a device in the state
`Onixs.Mounted` describes, and `devmkfs`, which formats a device.

The bitmaps `devmkfs` leaves behind are never those of an empty file system
(`Onixs.devmkfs_lastZone`): of the tails of the two maps, the second is filled in
`sb->imaps[desc->zmap_blocks - 1]`, a buffer of the *inode* bitmap. The tail of the
zone bitmap, most of its last block, stays as clear as the block was made before
the first allocation. The proof counts bytes. The rest of `devmkfs` changes no more
than 36 bytes of any one block (`Onixs.Sparse`), wherever its stores go.
-/

namespace Onixs

open Bytes

/-! ### The functions -/

/-- `BLOCK_SECS`. -/
def blockSecs : ℕ := 2

/-- `ZEROPAD`, which `read_super` takes for the bound of the zone bitmap. -/
def zeropad : ℕ := 2

/-- `get_free_super`. -/
def getFreeSuper (s : Fs) : Option ℕ := s.getSuper EOF

/-- An `int` as a `uint32`. -/
def ofInt (n : ℤ) : ℕ := (n % 4294967296).toNat

/-- `strcpy`, of the characters of a string without their `EOS`. -/
def strcpy (d : Bytes) (o : ℕ) : List ℕ → Bytes
  | [] => d.putU8 o 0
  | c :: str => strcpy (d.putU8 o c) (o + 1) str

/-- The row of `n` buffers of the blocks from `idx` on. -/
def bufferRow (idx n : ℕ) : ℕ → Option ℕ := fun i => if i < n then some (idx + i) else none

/-- Store a 16-bit field of `sb->desc`. -/
def Fs.putSuper16 (s : Fs) (dev o v : ℕ) : Fs := s.setBlk dev 1 ((s.blk dev 1).putU16 o v)

/-- Store a 32-bit field of `sb->desc`. -/
def Fs.putSuper32 (s : Fs) (dev o v : ℕ) : Fs := s.setBlk dev 1 ((s.blk dev 1).putU32 o v)

/-- `read_super`. -/
def readSuper (s : Fs) (dev : ℕ) : Option (ℕ × Fs) :=
  match s.getSuper dev with
  | some sb => some (sb, s.setSuper sb { s.superTable sb with
      count := u32 ((s.superTable sb).count + 1) })
  | none => do
      let sb ← getFreeSuper s
      let desc := s.superDesc dev
      assert (desc.magic = minix1Magic)
      -- the asserts of the two loops, at the last turn of each
      assert (desc.imapBlocks ≤ imapNr)
      assert (desc.zmapBlocks ≤ zeropad)
      return (sb, s.setSuper sb { s.superTable sb with
        dev := dev
        count := 1
        imaps := bufferRow 2 desc.imapBlocks
        zmaps := bufferRow (2 + desc.imapBlocks) desc.zmapBlocks })

/-- The two loops of `devmkfs` that read the bitmap blocks: clear `n` blocks from `idx`
on. -/
def clearMaps (s : Fs) (dev idx : ℕ) : ℕ → Fs
  | 0 => s
  | n + 1 =>
      let s := clearMaps s dev idx n
      s.setBlk dev (idx + n) ((s.blk dev (idx + n)).fill 0 blockSize 0#8)

/-- The loop of `devmkfs` that makes up the first byte of a tail. -/
def tailByte : ℕ → ℕ → ℕ → ℕ
  | 0, _, data => data
  | remain + 1, bits, data => tailByte remain (bits / 2) (data ||| bits)

/-- The body of the loop of `devmkfs` over the two maps: fill the tail of block `map`, from
bit `count` on. -/
def fillTail (s : Fs) (dev map : ℕ) (count : ℤ) : Option Fs := do
  let offset := count.tmod blockBits
  let start := offset.tdiv 8
  -- the pointer must not leave the block
  assert (0 ≤ start)
  let d := (s.blk dev map).fill (start.toNat + 1) (blockSize - start.toNat - 1) 255#8
  return s.setBlk dev map
    (d.putU8 start.toNat (tailByte (8 - offset.tmod 8).toNat 0x80 0))

/-- The two directory entries of a new root directory. -/
def rootEntries (d : Bytes) (nr : ℕ) : Bytes :=
  let d := d.fill 0 blockSize 0#8
  let d := (strcpy d 2 [0x2E]).putU16 0 nr
  (strcpy d 18 [0x2E, 0x2E]).putU16 16 nr

/-- `devmkfs` up to the first allocation: the super block and two cleared bitmaps. `sectors`
is what the device says its size is. -/
def mkfsSuper (s : Fs) (dev total icount : ℕ) : Option (ℕ × ℤ × Fs) := do
  let sb ← getFreeSuper s
  let s := s.setSuper sb { s.superTable sb with dev := dev, count := 1 }
  let s := s.putSuper16 dev 2 total
  let inodeBlocks := divRoundUp (u32 (icount * 32)) blockSize
  let s := s.putSuper16 dev 0 icount
  let s := s.putSuper16 dev 4 (divRoundUp icount blockBits)
  let imapBlocks := (s.superDesc dev).imapBlocks
  let zcount : ℤ := total - imapBlocks - inodeBlocks - 2
  let s := s.putSuper16 dev 6 (divRoundUp (ofInt zcount) blockSize)
  let zmapBlocks := (s.superDesc dev).zmapBlocks
  let s := s.putSuper16 dev 8 (2 + imapBlocks + zmapBlocks + inodeBlocks)
  let s := s.putSuper16 dev 10 0
  let s := s.putSuper32 dev 12 (u32 (blockBits * totalBlock))
  let s := s.putSuper16 dev 16 minix1Magic
  let n := min imapBlocks imapNr
  let m := min zmapBlocks zmapNr
  let s := clearMaps (clearMaps s dev 2 n) dev (2 + n) m
  return (sb, zcount, s.setSuper sb { s.superTable sb with
    imaps := bufferRow 2 n
    zmaps := bufferRow (2 + n) m })

/-- The buffer `sb->imaps[n - 1]`. -/
def lastImap (s : Fs) (sb n : ℕ) : Option ℕ := do
  assert (n ≠ 0)
  (s.superTable sb).imaps (n - 1)

/-- `devmkfs` from the first allocation to the tails of the maps. -/
def mkfsMaps (s : Fs) (dev sb icount : ℕ) (zcount : ℤ) : Option Fs := do
  let (_, s) ← balloc s dev
  let (_, s) ← ialloc s dev
  let (_, s) ← ialloc s dev
  let map0 ← lastImap s sb (s.superDesc dev).imapBlocks
  let map1 ← lastImap s sb (s.superDesc dev).zmapBlocks
  let s ← fillTail s dev map0 (icount + 1)
  fillTail s dev map1 zcount

/-- The rest of `devmkfs`: the root directory. -/
def mkfsRoot (s : Fs) (dev sb : ℕ) : Option Fs := do
  let (iroot, s) ← newInode s dev 1
  let s := s.setSuper sb { s.superTable sb with iroot := some iroot }
  let s := s.setMode iroot (newMode s ||| 0o040000)
  let s := s.setSize iroot 32
  let s := s.setNlinks iroot 2
  let (zone, s) ← bmap s iroot 0 true
  return s.setBlk dev zone (rootEntries (s.blk dev zone) (s.inodeTable iroot).nr)

/-- `devmkfs`. `sectors` is the size the device gives. The C function has no `return`, so
what it returns says nothing. -/
def devmkfs (s : Fs) (dev sectors icount : ℕ) : Option Fs := do
  let total := sectors / blockSecs
  assert (total ≠ 0)
  assert (icount < total)
  let icount := if icount = 0 then total / 3 else icount
  let (sb, zcount, s) ← mkfsSuper s dev total icount
  let s ← mkfsMaps s dev sb icount zcount
  mkfsRoot s dev sb

/-! ### Nearly clear blocks -/

/-- **All bytes of a block but at most `n` are zero.** -/
def Sparse (n : ℕ) (d : Bytes) : Prop :=
  ∃ T : Finset ℕ, T.card ≤ n ∧ ∀ i < 1024, i ∉ T → d i = 0#8

namespace Sparse

variable {n : ℕ} {d : Bytes}

theorem mono {m : ℕ} (h : Sparse n d) (hnm : n ≤ m) : Sparse m d := by
  obtain ⟨T, hcard, hzero⟩ := h
  exact ⟨T, hcard.trans hnm, hzero⟩

/-- A change of one byte. -/
theorem of_byte {d' : Bytes} (o : ℕ) (h : Sparse n d) (hd : ∀ i, i ≠ o → d' i = d i) :
    Sparse (n + 1) d' := by
  obtain ⟨T, hcard, hzero⟩ := h
  refine ⟨insert o T, (Finset.card_insert_le o T).trans (by omega), fun i hi hT => ?_⟩
  rw [Finset.mem_insert, not_or] at hT
  rw [hd i hT.1]
  exact hzero i hi hT.2

theorem putU8 (h : Sparse n d) (o v : ℕ) : Sparse (n + 1) (d.putU8 o v) :=
  h.of_byte o fun _ hi => putU8_of_ne d v hi

theorem putU16 (h : Sparse n d) (o v : ℕ) : Sparse (n + 2) (d.putU16 o v) :=
  (h.putU8 o v).putU8 (o + 1) (v / 256)

theorem putU32 (h : Sparse n d) (o v : ℕ) : Sparse (n + 4) (d.putU32 o v) :=
  (h.putU16 o v).putU16 (o + 2) (v / 65536)

theorem setBit (h : Sparse n d) (g : ℕ) (v : Bool) : Sparse (n + 1) (d.setBit g v) :=
  h.of_byte (g / 8) fun _ hi => setBit_of_ne d v hi

theorem strcpy (h : Sparse n d) (o : ℕ) (str : List ℕ) :
    Sparse (n + str.length + 1) (strcpy d o str) := by
  induction str generalizing n d o with
  | nil => exact h.putU8 o 0
  | cons c str ih =>
    have := ih (h.putU8 o c) (o + 1)
    rwa [List.length_cons, show n + (str.length + 1) + 1 = n + 1 + str.length + 1 by omega]

theorem clear (d : Bytes) : Sparse n (d.fill 0 blockSize 0#8) := by
  refine ⟨∅, Nat.zero_le _, fun i hi _ => fill_of_mem d 0#8 (Nat.zero_le i) ?_⟩
  rw [blockSize_eq]
  omega

theorem rootEntries (nr : ℕ) : Sparse (n + 9) (rootEntries d nr) := by
  have h := (((clear (n := n) d).strcpy 2 [0x2E]).putU16 0 nr).strcpy 18 [0x2E, 0x2E]
  exact h.putU16 16 nr

/-- A byte past the first 128 is zero, for want of more bytes that are not. -/
theorem exists_zero (h : Sparse n d) (hn : n < 896) : ∃ i, 128 ≤ i ∧ i < 1024 ∧ d i = 0#8 := by
  by_contra hno
  push Not at hno
  obtain ⟨T, hcard, hzero⟩ := h
  have hsub : Finset.Ico 128 1024 ⊆ T := by
    intro i hi
    rw [Finset.mem_Ico] at hi
    by_contra hT
    exact hno i hi.1 hi.2 (hzero i hi.2 hT)
  have := Finset.card_le_card hsub
  rw [Nat.card_Ico] at this
  omega

end Sparse

/-! ### What each step changes in a block -/

section Frame

variable {s t : Fs} {dev b n : ℕ}

/-- A store in one block, of something sparse where that block was. -/
theorem sparse_setBlk {dev' b' m : ℕ} {d : Bytes} (h : Sparse n (s.blk dev b)) (hnm : n ≤ m)
    (hd : Sparse n (s.blk dev' b') → Sparse m d) : Sparse m ((s.setBlk dev' b' d).blk dev b) := by
  by_cases hsame : dev = dev' ∧ b = b'
  · obtain ⟨rfl, rfl⟩ := hsame
    rw [Fs.setBlk_blk_self]
    exact hd h
  · rw [Fs.setBlk_blk_of_ne s d (not_and_or.mp hsame)]
    exact h.mono hnm

theorem Sparse.putDesc8 (h : Sparse n (s.blk dev b)) (i o v : ℕ) :
    Sparse (n + 1) ((s.putDesc8 i o v).blk dev b) :=
  sparse_setBlk h (by omega) fun h' => h'.putU8 _ v

theorem Sparse.putDesc16 (h : Sparse n (s.blk dev b)) (i o v : ℕ) :
    Sparse (n + 2) ((s.putDesc16 i o v).blk dev b) :=
  sparse_setBlk h (by omega) fun h' => h'.putU16 _ v

theorem Sparse.putDesc32 (h : Sparse n (s.blk dev b)) (i o v : ℕ) :
    Sparse (n + 4) ((s.putDesc32 i o v).blk dev b) :=
  sparse_setBlk h (by omega) fun h' => h'.putU32 _ v

theorem Sparse.setAtime (h : Sparse n (s.blk dev b)) (i v : ℕ) :
    Sparse n ((s.setAtime i v).blk dev b) := h

theorem bitmapSet_some {map m : Bitmap} {index : ℕ} {v : Bool}
    (h : bitmapSet map index v = some m) :
    m.bits = map.bits.setBit (index - map.offset) v := by
  have hge : map.offset ≤ index := by
    rw [bitmapSet] at h
    obtain ⟨_, hge, -⟩ := Option.bind_eq_some_iff.mp h
    exact assert_eq_some.mp hge
  have hin : (index - map.offset) / 8 < map.size := by
    rw [bitmapSet] at h
    obtain ⟨_, -, h⟩ := Option.bind_eq_some_iff.mp h
    obtain ⟨_, hin, -⟩ := Option.bind_eq_some_iff.mp h
    exact assert_eq_some.mp hin
  have hset := bitmapSet_eq map v hin
  rw [Nat.add_sub_cancel' hge, h] at hset
  rw [Option.some.inj hset]

/-- A scan for one bit sets one bit, at most. -/
theorem Sparse.bitmapScan {map m : Bitmap} {bit : ℕ} (hs : Sparse n map.bits)
    (h : bitmapScan map 1 = some (bit, m)) : Sparse (n + 1) m.bits := by
  rw [Onixs.bitmapScan] at h
  obtain ⟨start, -, h⟩ := Option.bind_eq_some_iff.mp h
  cases start with
  | none =>
    rw [← (Prod.mk.inj (Option.some.inj h)).2]
    exact hs.mono (Nat.le_succ n)
  | some start =>
    obtain ⟨m', hset, h⟩ := Option.bind_eq_some_iff.mp h
    obtain ⟨m'', hset, hm'⟩ := Option.bind_eq_some_iff.mp hset
    rw [← (Prod.mk.inj (Option.some.inj h)).2, ← Option.some.inj hm', bitmapSet_some hset]
    exact hs.setBit _ true

/-- What an allocation stores is a bitmap after a scan for one bit. -/
theorem allocLoop_some {maps : ℕ → Option ℕ} {dev : ℕ} {offset : ℕ → ℕ} {bound z : ℕ} :
    ∀ left i, allocLoop s dev maps offset bound left i = some (z, t) →
      t = s ∨ ∃ buf o bit map,
        bitmapScan (bitmapMake (s.blk dev buf) blockSize blockSize o) 1 = some (bit, map) ∧
          t = s.setBlk dev buf map.bits
  | 0, i, h => by
    rw [allocLoop] at h
    exact Or.inl (Prod.mk.inj (Option.some.inj h)).2.symm
  | left + 1, i, h => by
    rw [allocLoop] at h
    obtain ⟨buf, -, h⟩ := Option.bind_eq_some_iff.mp h
    obtain ⟨⟨bit, map⟩, hscan, h⟩ := Option.bind_eq_some_iff.mp h
    by_cases hbit : bit ≠ EOF
    · simp only [if_pos hbit] at h
      obtain ⟨_, -, h⟩ := Option.bind_eq_some_iff.mp h
      exact Or.inr ⟨buf, _, bit, map, hscan, (Prod.mk.inj (Option.some.inj h)).2.symm⟩
    · simp only [if_neg hbit] at h
      exact allocLoop_some left (i + 1) h

/-- An allocation changes one byte, at most. -/
theorem Sparse.allocLoop {maps : ℕ → Option ℕ} {dev' : ℕ} {offset : ℕ → ℕ} {bound z left i : ℕ}
    (hs : Sparse n (s.blk dev b)) (h : allocLoop s dev' maps offset bound left i = some (z, t)) :
    Sparse (n + 1) (t.blk dev b) := by
  obtain rfl | ⟨buf, o, bit, map, hscan, rfl⟩ := allocLoop_some left i h
  · exact hs.mono (Nat.le_succ n)
  · exact sparse_setBlk hs (Nat.le_succ n) fun h' => h'.bitmapScan hscan

theorem allocLoop_superTable {maps : ℕ → Option ℕ} {offset : ℕ → ℕ} {bound z left i : ℕ}
    (h : allocLoop s dev maps offset bound left i = some (z, t)) : t.superTable = s.superTable := by
  obtain rfl | ⟨buf, o, bit, map, -, rfl⟩ := allocLoop_some left i h
  · rfl
  · rfl

theorem balloc_superTable {z : ℕ} (h : balloc s dev = some (z, t)) :
    t.superTable = s.superTable := by
  rw [balloc] at h
  obtain ⟨sb, -, h⟩ := Option.bind_eq_some_iff.mp h
  exact allocLoop_superTable h

theorem ialloc_superTable {nr : ℕ} (h : ialloc s dev = some (nr, t)) :
    t.superTable = s.superTable := by
  rw [ialloc] at h
  obtain ⟨sb, -, h⟩ := Option.bind_eq_some_iff.mp h
  exact allocLoop_superTable h

theorem Sparse.balloc {dev' z : ℕ} (hs : Sparse n (s.blk dev b))
    (h : balloc s dev' = some (z, t)) : Sparse (n + 1) (t.blk dev b) := by
  rw [Onixs.balloc] at h
  obtain ⟨sb, -, h⟩ := Option.bind_eq_some_iff.mp h
  exact hs.allocLoop h

theorem Sparse.ialloc {dev' nr : ℕ} (hs : Sparse n (s.blk dev b))
    (h : ialloc s dev' = some (nr, t)) : Sparse (n + 1) (t.blk dev b) := by
  rw [Onixs.ialloc] at h
  obtain ⟨sb, -, h⟩ := Option.bind_eq_some_iff.mp h
  exact hs.allocLoop h

/-- `iput` changes no block. -/
theorem iput_blk {i : ℕ} (h : iput s i = some t) : t.blk = s.blk := by
  rw [iput] at h
  dsimp only at h
  split at h
  · rw [← Option.some.inj h]
    rfl
  · rw [putFreeInode] at h
    obtain ⟨_, -, h⟩ := Option.bind_eq_some_iff.mp h
    obtain ⟨_, -, h⟩ := Option.bind_eq_some_iff.mp h
    rw [← Option.some.inj h]
    rfl

theorem fitInode_blk {i k : ℕ} (h : fitInode s i = some (k, t)) : t.blk = s.blk := by
  rw [fitInode] at h
  split at h
  · rw [← (Prod.mk.inj (Option.some.inj h)).2]
  · obtain ⟨sb, -, h⟩ := Option.bind_eq_some_iff.mp h
    obtain ⟨s', hput, h⟩ := Option.bind_eq_some_iff.mp h
    obtain ⟨root, -, h⟩ := Option.bind_eq_some_iff.mp h
    rw [← (Prod.mk.inj (Option.some.inj h)).2, Fs.setInode_blk, iput_blk hput]

/-- `iget` changes no block. -/
theorem iget_blk {dev nr i : ℕ} (h : iget s dev nr = some (i, t)) : t.blk = s.blk := by
  rw [iget] at h
  obtain ⟨found, -, h⟩ := Option.bind_eq_some_iff.mp h
  cases found with
  | some k =>
    exact (fitInode_blk (s := s.setInode k _) h).trans (Fs.setInode_blk s k _)
  | none =>
    obtain ⟨sb, -, h⟩ := Option.bind_eq_some_iff.mp h
    obtain ⟨_, -, h⟩ := Option.bind_eq_some_iff.mp h
    obtain ⟨k, -, h⟩ := Option.bind_eq_some_iff.mp h
    rw [← (Prod.mk.inj (Option.some.inj h)).2]
    rfl

/-- A new inode writes 14 bytes of its descriptor. -/
theorem Sparse.newInode {dev' nr i : ℕ} (hs : Sparse n (s.blk dev b))
    (h : newInode s dev' nr = some (i, t)) : Sparse (n + 14) (t.blk dev b) := by
  rw [Onixs.newInode] at h
  obtain ⟨⟨k, s'⟩, hget, h⟩ := Option.bind_eq_some_iff.mp h
  rw [← iget_blk hget] at hs
  rw [← (Prod.mk.inj (Option.some.inj h)).2]
  -- mode, uid, size, then mtime, gid and nlinks
  have h1 := ((hs.putDesc16 k 0 (newMode s')).putDesc16 k 2 s'.task.uid).putDesc32 k 4 0
  exact (((h1.setAtime k s'.time).putDesc32 k 8 s'.time).putDesc8 k 12 s'.task.gid).putDesc8 k 13 1

theorem Sparse.bmapEntry {dev' buf array index z : ℕ} {create : Bool} (hs : Sparse n (s.blk dev b))
    (h : bmapEntry s dev' buf array index create = some (z, t)) : Sparse (n + 3) (t.blk dev b) := by
  rw [Onixs.bmapEntry] at h
  split at h
  · obtain ⟨⟨zone, s'⟩, hballoc, h⟩ := Option.bind_eq_some_iff.mp h
    rw [← (Prod.mk.inj (Option.some.inj h)).2]
    exact sparse_setBlk (hs.balloc hballoc) (by omega) fun h' => h'.putU16 _ _
  · rw [← (Prod.mk.inj (Option.some.inj h)).2]
    exact hs.mono (by omega)

/-- The first block of a file is in `zone[0]`. -/
theorem bmap_zero (i : ℕ) (create : Bool) : bmap s i 0 create
    = bmapEntry s (s.inodeTable i).dev (s.inodeTable i).buf ((s.inodeTable i).desc + 14) 0 create := by
  rw [bmap, assert_pos (by rw [totalBlock_eq]; omega)]
  rw [directBlock_eq]
  rfl

theorem Sparse.mkfsRoot {dev' sb : ℕ} (hs : Sparse n (s.blk dev b))
    (h : mkfsRoot s dev' sb = some t) : Sparse (n + 33) (t.blk dev b) := by
  rw [Onixs.mkfsRoot] at h
  obtain ⟨⟨iroot, s1⟩, hnew, h⟩ := Option.bind_eq_some_iff.mp h
  obtain ⟨⟨zone, s2⟩, hbmap, h⟩ := Option.bind_eq_some_iff.mp h
  rw [bmap_zero] at hbmap
  have h0 := hs.newInode hnew
  have h1 : Sparse (n + 14) ((s1.setSuper sb
      { s1.superTable sb with iroot := some iroot }).blk dev b) := h0
  have h2 := (h1.putDesc16 iroot 0 (newMode s1 ||| 0o040000)).putDesc32 iroot 4 32
  rw [← Option.some.inj h]
  exact sparse_setBlk ((h2.putDesc8 iroot 13 2).bmapEntry hbmap) (by omega) fun _ => rootEntries _

theorem fillTail_blk_of_ne {map : ℕ} {count : ℤ} (h : fillTail s dev map count = some t)
    (hne : b ≠ map) : t.blk dev b = s.blk dev b := by
  rw [fillTail] at h
  obtain ⟨_, -, h⟩ := Option.bind_eq_some_iff.mp h
  rw [← Option.some.inj h, Fs.setBlk_blk_of_ne _ _ (Or.inr hne)]

theorem lastImap_mem {sb k b : ℕ} (h : lastImap s sb k = some b) :
    ∃ i, (s.superTable sb).imaps i = some b := by
  rw [lastImap] at h
  obtain ⟨_, -, h⟩ := Option.bind_eq_some_iff.mp h
  exact ⟨_, h⟩

/-- The tails are filled in buffers of the inode bitmap: any other block keeps all its bytes
but the three that the allocations may change. -/
theorem Sparse.mkfsMaps {sb icount : ℕ} {zcount : ℤ} (hs : Sparse n (s.blk dev b))
    (hb : ∀ i, (s.superTable sb).imaps i ≠ some b) (h : mkfsMaps s dev sb icount zcount = some t) :
    Sparse (n + 3) (t.blk dev b) := by
  rw [Onixs.mkfsMaps] at h
  obtain ⟨⟨z, s1⟩, h1, h⟩ := Option.bind_eq_some_iff.mp h
  obtain ⟨⟨i, s2⟩, h2, h⟩ := Option.bind_eq_some_iff.mp h
  obtain ⟨⟨j, s3⟩, h3, h⟩ := Option.bind_eq_some_iff.mp h
  obtain ⟨map0, hm0, h⟩ := Option.bind_eq_some_iff.mp h
  obtain ⟨map1, hm1, h⟩ := Option.bind_eq_some_iff.mp h
  obtain ⟨s4, h4, h5⟩ := Option.bind_eq_some_iff.mp h
  have htable : s3.superTable = s.superTable := by
    rw [ialloc_superTable h3, ialloc_superTable h2, balloc_superTable h1]
  have hne : ∀ {k map}, lastImap s3 sb k = some map → b ≠ map := by
    rintro k map hk rfl
    obtain ⟨i, hi⟩ := lastImap_mem hk
    rw [htable] at hi
    exact hb i hi
  rw [fillTail_blk_of_ne h5 (hne hm1), fillTail_blk_of_ne h4 (hne hm0)]
  exact ((hs.balloc h1).ialloc h2).ialloc h3

end Frame

/-! ### The size of a formatted device -/

/-- The super block of a device of `total` blocks formatted for `icount` inodes, a third of
the blocks when `icount` is 0. -/
def mkfsDesc (total icount : ℕ) : SuperDesc :=
  let inodes := if icount = 0 then total / 3 else icount
  let inodeBlocks := (inodes + 31) / 32
  let imapBlocks := (inodes + 8191) / 8192
  let zmapBlocks := (total - imapBlocks - inodeBlocks - 2 + 1023) / 1024
  { inodes := inodes
    zones := total
    imapBlocks := imapBlocks
    zmapBlocks := zmapBlocks
    firstdatazone := 2 + imapBlocks + zmapBlocks + inodeBlocks
    magic := minix1Magic }

/-- **The sizes that can be formatted**: the numbers fit the 16-bit fields, the bitmaps fit
the eight buffers there are for each, and some block is left for data. -/
structure Formattable (total icount : ℕ) : Prop where
  /-- The number of blocks. -/
  total_le : total ≤ 65535
  /-- The number of inodes asked for. -/
  icount_lt : icount = 0 ∨ icount < total
  /-- The inode bitmap. -/
  imapBlocks : (mkfsDesc total icount).imapBlocks ≤ imapNr
  /-- The zone bitmap. -/
  zmapBlocks : (mkfsDesc total icount).zmapBlocks ≤ zmapNr
  /-- The data area is not empty. -/
  data : (mkfsDesc total icount).firstdatazone < total

/-- **The bitmaps of an empty file system**: of the positions of the inode bitmap those of
inodes `2..inodes` are clear, and of the positions of the zone bitmap those of all data
zones but the first. -/
structure ExactMaps (t : Fs) (dev : ℕ) (desc : SuperDesc) : Prop where
  /-- The inode bitmap. -/
  imap : ∀ i < 8192 * desc.imapBlocks,
    t.mapBit dev (bufferRow 2 desc.imapBlocks) i = false ↔ 2 ≤ i ∧ i ≤ desc.inodes
  /-- The zone bitmap. -/
  zmap : ∀ j < 8192 * desc.zmapBlocks,
    t.mapBit dev (bufferRow (2 + desc.imapBlocks) desc.zmapBlocks) j = false ↔
      2 ≤ j ∧ j ≤ desc.zones - desc.firstdatazone

section ClearMaps

variable (s : Fs) (dev idx : ℕ)

theorem clearMaps_superTable (n : ℕ) : (clearMaps s dev idx n).superTable = s.superTable := by
  induction n with
  | zero => rfl
  | succ n ih => rw [clearMaps, Fs.setBlk_superTable, ih]

theorem clearMaps_blk_of_notMem {b : ℕ} :
    ∀ n, b < idx ∨ idx + n ≤ b → (clearMaps s dev idx n).blk dev b = s.blk dev b
  | 0, _ => rfl
  | n + 1, h => by
    rw [clearMaps, Fs.setBlk_blk_of_ne _ _ (Or.inr (by omega)),
      clearMaps_blk_of_notMem n (by omega)]

theorem clearMaps_blk_of_mem {b : ℕ} (hlo : idx ≤ b) :
    ∀ n, b < idx + n → (clearMaps s dev idx n).blk dev b = (s.blk dev b).fill 0 blockSize 0#8
  | 0, h => absurd h (by omega)
  | n + 1, h => by
    rw [clearMaps]
    by_cases hb : b = idx + n
    · rw [hb, Fs.setBlk_blk_self, clearMaps_blk_of_notMem s dev idx n (Or.inr (le_refl _))]
    · rw [Fs.setBlk_blk_of_ne _ _ (Or.inr hb), clearMaps_blk_of_mem hlo n (by omega)]

end ClearMaps

/-! ### The super block of a formatted device -/

section Sizes

variable {total icount : ℕ} (hf : Formattable total icount)

include hf

theorem Formattable.inodes_lt : (mkfsDesc total icount).inodes < 65536 := by
  have h1 := hf.total_le
  have h2 := hf.icount_lt
  simp only [mkfsDesc]
  split <;> omega

theorem Formattable.divRoundUp_imap :
    divRoundUp (mkfsDesc total icount).inodes blockBits = (mkfsDesc total icount).imapBlocks := by
  have hn := hf.inodes_lt
  rw [blockBits_eq, divRoundUp_eq (by omega) (by omega)]
  rfl

theorem Formattable.divRoundUp_inode :
    divRoundUp (u32 ((mkfsDesc total icount).inodes * 32)) blockSize
      = ((mkfsDesc total icount).inodes + 31) / 32 := by
  have hn := hf.inodes_lt
  rw [blockSize_eq, u32_of_lt (by omega), divRoundUp_eq (by omega) (by omega)]
  omega

/-- The number of blocks left for the zone bitmap and the data. -/
def mkfsZcount (total icount : ℕ) : ℕ :=
  total - (mkfsDesc total icount).imapBlocks - ((mkfsDesc total icount).inodes + 31) / 32 - 2

omit hf in
theorem mkfsDesc_zmapBlocks (total icount : ℕ) :
    (mkfsDesc total icount).zmapBlocks = (mkfsZcount total icount + 1023) / 1024 := rfl

omit hf in
theorem mkfsDesc_firstdatazone (total icount : ℕ) : (mkfsDesc total icount).firstdatazone
    = 2 + (mkfsDesc total icount).imapBlocks + (mkfsDesc total icount).zmapBlocks
        + ((mkfsDesc total icount).inodes + 31) / 32 := rfl

theorem Formattable.zcount_eq : (total : ℤ) - (mkfsDesc total icount).imapBlocks
    - (((mkfsDesc total icount).inodes + 31) / 32 : ℕ) - 2 = mkfsZcount total icount := by
  have h := hf.data
  rw [mkfsDesc_firstdatazone] at h
  rw [mkfsZcount]
  omega

theorem Formattable.divRoundUp_zmap :
    divRoundUp (ofInt (mkfsZcount total icount)) blockSize = (mkfsDesc total icount).zmapBlocks := by
  have h := hf.total_le
  have hz : mkfsZcount total icount ≤ total := by
    rw [mkfsZcount]
    omega
  have hof : ofInt (mkfsZcount total icount) = mkfsZcount total icount := by
    rw [ofInt]
    omega
  rw [hof, blockSize_eq, divRoundUp_eq (by omega) (by omega), mkfsDesc_zmapBlocks]

end Sizes

/-- Block 1 after `devmkfs` has filled in the super block. -/
def mkfsBytes (d : Bytes) (total icount : ℕ) : Bytes :=
  let desc := mkfsDesc total icount
  let d := ((d.putU16 2 total).putU16 0 desc.inodes).putU16 4 desc.imapBlocks
  let d := (d.putU16 6 desc.zmapBlocks).putU16 8 desc.firstdatazone
  ((d.putU16 10 0).putU32 12 (u32 (blockBits * totalBlock))).putU16 16 minix1Magic

theorem readSuperDesc_mkfsBytes (hf : Formattable total icount) (d : Bytes) :
    readSuperDesc (mkfsBytes d total icount) = mkfsDesc total icount := by
  have hi := hf.imapBlocks
  have hz := hf.zmapBlocks
  have ht := hf.total_le
  have hfdz := hf.data
  rw [imapNr_eq] at hi
  rw [zmapNr_eq] at hz
  have hread : ∀ {o v : ℕ} {e : Bytes}, v < 65536 → getU16 (putU16 e o v) o = v := fun h => by
    rw [getU16_putU16_self, Nat.mod_eq_of_lt h]
  simp only [readSuperDesc, mkfsBytes, putU32, getU16_putU16_of_disjoint, Nat.reduceAdd,
    Nat.reduceLeDiff, true_or, or_true, hread hf.inodes_lt, hread (show total < 65536 by omega),
    hread (show (mkfsDesc total icount).imapBlocks < 65536 by omega),
    hread (show (mkfsDesc total icount).zmapBlocks < 65536 by omega),
    hread (show (mkfsDesc total icount).firstdatazone < 65536 by omega),
    hread (show minix1Magic < 65536 by rw [minix1Magic_eq]; omega)]
  rfl

/-- The state in which `devmkfs` starts to allocate: a super block with the sizes of the
device, and bitmaps all clear. -/
def mkfsCleared (s : Fs) (dev sb total icount : ℕ) : Fs :=
  let desc := mkfsDesc total icount
  let s := (s.setSuper sb { s.superTable sb with dev := dev, count := 1 }).setBlk dev 1
    (mkfsBytes (s.blk dev 1) total icount)
  let s := clearMaps (clearMaps s dev 2 desc.imapBlocks) dev (2 + desc.imapBlocks) desc.zmapBlocks
  s.setSuper sb { s.superTable sb with
    imaps := bufferRow 2 desc.imapBlocks
    zmaps := bufferRow (2 + desc.imapBlocks) desc.zmapBlocks }

section MkfsSuper

variable (s : Fs) (dev sb : ℕ) {total icount : ℕ} (hf : Formattable total icount)

include hf

theorem mkfsSuper_eq : mkfsSuper s dev total (mkfsDesc total icount).inodes
    = (getFreeSuper s).map fun sb =>
        (sb, (mkfsZcount total icount : ℤ), mkfsCleared s dev sb total icount) := by
  have hi := hf.imapBlocks
  have hz := hf.zmapBlocks
  rw [imapNr_eq] at hi
  rw [zmapNr_eq] at hz
  rw [mkfsSuper]
  cases getFreeSuper s with
  | none => rfl
  | some sb =>
    simp only [Option.bind_eq_bind, Option.bind_some, Option.map_some, Option.pure_def,
      Fs.superDesc, readSuperDesc, Fs.putSuper16, Fs.putSuper32, Fs.setBlk_blk_self,
      Fs.setBlk_setBlk, Fs.setSuper_blk, getU16_putU16_self, hf.divRoundUp_imap,
      hf.divRoundUp_inode, Nat.mod_eq_of_lt (show (mkfsDesc total icount).imapBlocks < 65536 by omega),
      Nat.mod_eq_of_lt (show (mkfsDesc total icount).zmapBlocks < 65536 by omega), hf.zcount_eq,
      hf.divRoundUp_zmap, imapNr_eq, zmapNr_eq, min_eq_left hi, min_eq_left hz]
    rfl

theorem mkfsCleared_superDesc : (mkfsCleared s dev sb total icount).superDesc dev
    = mkfsDesc total icount := by
  rw [Fs.superDesc, mkfsCleared, Fs.setSuper_blk, clearMaps_blk_of_notMem _ _ _ _ (by omega),
    clearMaps_blk_of_notMem _ _ _ _ (by omega), Fs.setBlk_blk_self, readSuperDesc_mkfsBytes hf]

/-- Formatting a device of a size that fits. -/
theorem devmkfs_eq {sectors : ℕ} (hsec : sectors / 2 = total) : devmkfs s dev sectors icount
    = (getFreeSuper s).bind fun sb => (mkfsMaps (mkfsCleared s dev sb total icount) dev sb
        (mkfsDesc total icount).inodes (mkfsZcount total icount)).bind fun s => mkfsRoot s dev sb := by
  have hdata := hf.data
  have hlt : icount < total := by
    have := hf.icount_lt
    omega
  have hinodes : (if icount = 0 then total / 3 else icount) = (mkfsDesc total icount).inodes := rfl
  rw [devmkfs, blockSecs, hsec, assert_pos (by omega), assert_pos hlt, hinodes]
  simp only [Option.bind_eq_bind, Option.bind_some, mkfsSuper_eq s dev hf]
  cases getFreeSuper s <;> rfl

omit hf in
theorem mkfsCleared_imaps : ((mkfsCleared s dev sb total icount).superTable sb).imaps
    = bufferRow 2 (mkfsDesc total icount).imapBlocks := by
  simp only [mkfsCleared, Fs.setSuper_self]

omit hf in
/-- The bitmap blocks are clear. -/
theorem sparse_mkfsCleared {b : ℕ} (hlo : 2 ≤ b)
    (hb : b < 2 + (mkfsDesc total icount).imapBlocks + (mkfsDesc total icount).zmapBlocks) :
    Sparse 0 ((mkfsCleared s dev sb total icount).blk dev b) := by
  rw [mkfsCleared, Fs.setSuper_blk]
  by_cases h : 2 + (mkfsDesc total icount).imapBlocks ≤ b
  · rw [clearMaps_blk_of_mem _ _ _ h _ hb]
    exact Sparse.clear _
  · rw [clearMaps_blk_of_notMem _ _ _ _ (Or.inl (by omega)),
      clearMaps_blk_of_mem _ _ _ hlo _ (by omega)]
    exact Sparse.clear _

end MkfsSuper

/-! ### The zone bitmap is left open at its end -/

section LastZmap

variable {s t : Fs} {dev sectors icount total : ℕ}

/-- **`devmkfs` leaves the last block of the zone bitmap clear**, up to 36 bytes. -/
theorem devmkfs_lastZmap (hf : Formattable total icount) (hsec : sectors / 2 = total)
    (h : devmkfs s dev sectors icount = some t) :
    Sparse 36 (t.blk dev (1 + (mkfsDesc total icount).imapBlocks
      + (mkfsDesc total icount).zmapBlocks)) := by
  have hdata := hf.data
  have hz := mkfsDesc_zmapBlocks total icount
  rw [mkfsDesc_firstdatazone] at hdata
  rw [mkfsZcount] at hz
  rw [devmkfs_eq s dev hf hsec] at h
  obtain ⟨sb, -, h⟩ := Option.bind_eq_some_iff.mp h
  obtain ⟨s2, h2, h⟩ := Option.bind_eq_some_iff.mp h
  have hs : Sparse 0 ((mkfsCleared s dev sb total icount).blk dev
      (1 + (mkfsDesc total icount).imapBlocks + (mkfsDesc total icount).zmapBlocks)) :=
    sparse_mkfsCleared s dev sb (by omega) (by omega)
  refine (hs.mkfsMaps (fun i hi => ?_) h2).mkfsRoot h
  rw [mkfsCleared_imaps, bufferRow] at hi
  split at hi
  · have := Option.some.inj hi
    omega
  · exact absurd hi (by simp)

/-- A sparse last block has a clear position behind the last zone. -/
theorem exists_clear_zpos (hf : Formattable total icount)
    (h : Sparse 36 (t.blk dev (1 + (mkfsDesc total icount).imapBlocks
      + (mkfsDesc total icount).zmapBlocks))) :
    ∃ j < 8192 * (mkfsDesc total icount).zmapBlocks,
      t.mapBit dev (bufferRow (2 + (mkfsDesc total icount).imapBlocks)
        (mkfsDesc total icount).zmapBlocks) j = false ∧
      total - (mkfsDesc total icount).firstdatazone < j := by
  have hdata := hf.data
  have hfdz := mkfsDesc_firstdatazone total icount
  have hz := mkfsDesc_zmapBlocks total icount
  have hle := hf.zmapBlocks
  rw [mkfsZcount] at hz
  rw [zmapNr_eq] at hle
  obtain ⟨i, hi, hi', hzero⟩ := h.exists_zero (by omega)
  obtain ⟨k, hk⟩ : ∃ k, (mkfsDesc total icount).zmapBlocks = k + 1 :=
    Nat.exists_eq_succ_of_ne_zero (by omega)
  rw [hk] at hzero ⊢
  have hmap : bufferRow (2 + (mkfsDesc total icount).imapBlocks) (k + 1) ((8192 * k + 8 * i) / 8192)
      = some (1 + (mkfsDesc total icount).imapBlocks + (k + 1)) := by
    rw [bufferRow, if_pos (by omega)]
    exact congrArg some (by omega)
  refine ⟨8192 * k + 8 * i, by omega, ?_, by omega⟩
  rw [mapBit_of_buffer hmap]
  refine bitOf_eq_false_of_zero ?_
  rw [show (8192 * k + 8 * i) % 8192 / 8 = i by omega]
  exact hzero

/-- **Formatting never leaves exact bitmaps.** Whatever the state and the size, when `devmkfs`
returns at all some position of the zone bitmap behind the last zone is clear. -/
theorem devmkfs_not_exactMaps (s : Fs) (dev sectors icount : ℕ)
    (hf : Formattable (sectors / 2) icount) :
    ¬∃ t, devmkfs s dev sectors icount = some t ∧
      ExactMaps t dev (mkfsDesc (sectors / 2) icount) := by
  rintro ⟨t, ht, hexact⟩
  obtain ⟨j, hj, hclear, hlt⟩ := exists_clear_zpos hf (devmkfs_lastZmap hf rfl ht)
  exact absurd ((hexact.zmap j hj).mp hclear).2 (Nat.not_le_of_lt hlt)

end LastZmap

/-- A machine with nothing mounted and only zeros on its devices. -/
def blankFs : Fs where
  blk _ _ _ := 0#8
  superTable _ :=
    { dev := EOF, count := 0, imaps := fun _ => none, zmaps := fun _ => none, inodeList := [],
      iroot := none, imount := none }
  inodeTable _ :=
    { dev := EOF, nr := 0, count := 0, buf := 0, desc := 0, atime := 0, ctime := 0, mount := 0 }
  task := { uid := 0, gid := 0, umask := 0, ipwd := 0, iroot := 0 }
  time := 0

/-- A device of 300 blocks can be formatted for 100 inodes. -/
theorem formattable_300 : Formattable 300 100 := by
  refine ⟨?_, Or.inr ?_, ?_, ?_, ?_⟩ <;> decide

/-- On it the last block of the zone bitmap, block 3, has a clear position behind zone 299. -/
theorem devmkfs_openTail : Formattable 300 100 ∧ ∀ t, devmkfs blankFs 1 600 100 = some t →
    ¬ExactMaps t 1 (mkfsDesc 300 100) := by
  refine ⟨formattable_300, fun t ht hexact => ?_⟩
  obtain ⟨j, hj, hclear, hlt⟩ := exists_clear_zpos formattable_300
    (devmkfs_lastZmap formattable_300 rfl ht)
  exact absurd ((hexact.zmap j hj).mp hclear).2 (Nat.not_le_of_lt hlt)

theorem devmkfs_not_exactMaps_blank : ¬∃ t, devmkfs blankFs 1 600 100 = some t ∧
    ExactMaps t 1 (mkfsDesc 300 100) :=
  devmkfs_not_exactMaps blankFs 1 600 100 formattable_300

end Onixs
