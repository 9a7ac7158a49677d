import Onixs.Fs.Bitmap

/-!
# Inodes in memory

The inode table of `fs/inode.c`: `iget` and `iput` with the reference counts, and
`new_inode`, which fills in the descriptor of a freshly allocated inode.

A node of the list `sb->inode_list` is the index of an entry of the inode table. The
field `pipi` and the two waiting tasks of `inode_t` are left out: a pipe's inode comes
from `get_pipe_inode` and never reaches the functions of this file.

`Onixs.Fs.Holds` says that an entry of the table is the inode `nr` of a device, with its
descriptor where `iget` finds it. What the file-system functions do through `inode->desc`
is a store in that place.
-/

namespace Onixs

open Bytes

/-! ### Stores through `inode->desc` -/

namespace Fs

variable (s : Fs)

/-- The block that holds the descriptor of inode `i`. -/
def descBlk (i : ℕ) : Bytes := s.blk (s.inodeTable i).dev (s.inodeTable i).buf

/-- Replace the block that holds the descriptor of inode `i`. -/
def setDescBlk (i : ℕ) (d : Bytes) : Fs := s.setBlk (s.inodeTable i).dev (s.inodeTable i).buf d

/-- Store a byte of the descriptor of inode `i`. -/
def putDesc8 (i o v : ℕ) : Fs :=
  s.setDescBlk i ((s.descBlk i).putU8 ((s.inodeTable i).desc + o) v)

/-- Store a 16-bit field of the descriptor of inode `i`. -/
def putDesc16 (i o v : ℕ) : Fs :=
  s.setDescBlk i ((s.descBlk i).putU16 ((s.inodeTable i).desc + o) v)

/-- Store a 32-bit field of the descriptor of inode `i`. -/
def putDesc32 (i o v : ℕ) : Fs :=
  s.setDescBlk i ((s.descBlk i).putU32 ((s.inodeTable i).desc + o) v)

/-- Store `desc->mode`. -/
def setMode (i v : ℕ) : Fs := s.putDesc16 i 0 v

/-- Store `desc->uid`. -/
def setUid (i v : ℕ) : Fs := s.putDesc16 i 2 v

/-- Store `desc->size`. -/
def setSize (i v : ℕ) : Fs := s.putDesc32 i 4 v

/-- Store `desc->mtime`. -/
def setMtime (i v : ℕ) : Fs := s.putDesc32 i 8 v

/-- Store `desc->gid`. -/
def setGid (i v : ℕ) : Fs := s.putDesc8 i 12 v

/-- Store `desc->nlinks`. -/
def setNlinks (i v : ℕ) : Fs := s.putDesc8 i 13 v

/-- Store `desc->zone[j]`. -/
def setZone (i j v : ℕ) : Fs := s.putDesc16 i (14 + 2 * j) v

/-- Store `inode->atime`. -/
def setAtime (i v : ℕ) : Fs := s.setInode i { s.inodeTable i with atime := v }

end Fs

/-! ### The functions -/

/-- `get_free_inode`. -/
def getFreeInode (s : Fs) : Option ℕ :=
  (List.range inodeNr).find? fun i => (s.inodeTable i).dev = EOF

/-- `put_free_inode`. -/
def putFreeInode (s : Fs) (i : ℕ) : Option Fs := do
  assert (i ≠ 0)
  assert ((s.inodeTable i).count = 0)
  return s.setInode i { s.inodeTable i with dev := EOF }

/-- `find_inode`. -/
def findInode (s : Fs) (dev nr : ℕ) : Option (Option ℕ) := do
  let sb ← s.getSuper dev
  return (s.superTable sb).inodeList.find? fun i => (s.inodeTable i).nr = nr

/-- `inode_block`. -/
def inodeBlock (desc : SuperDesc) (nr : ℕ) : ℕ :=
  2 + desc.imapBlocks + desc.zmapBlocks + sub32 nr 1 / blockInodes

/-- The offset of the descriptor of inode `nr` in its block: `sizeof(inode_desc_t)` is 32. -/
def inodeOffset (nr : ℕ) : ℕ := sub32 nr 1 % blockInodes * 32

/-- `list_remove` of the list node of inode `i`. -/
def removeInode (s : Fs) (i : ℕ) : Fs :=
  { s with superTable := fun k =>
      { s.superTable k with inodeList := (s.superTable k).inodeList.erase i } }

/-- `iput`. -/
def iput (s : Fs) (i : ℕ) : Option Fs := do
  let s := s.setInode i { s.inodeTable i with count := sub32 (s.inodeTable i).count 1 }
  if (s.inodeTable i).count ≠ 0 then
    return s
  putFreeInode (removeInode s i) i

/-- `fit_inode`. -/
def fitInode (s : Fs) (i : ℕ) : Option (ℕ × Fs) := do
  if (s.inodeTable i).mount = 0 then
    return (i, s)
  let sb ← s.getSuper (s.inodeTable i).mount
  let s ← iput s i
  let root ← (s.superTable sb).iroot
  return (root, s.setInode root { s.inodeTable root with count := u32 ((s.inodeTable root).count + 1) })

/-- `iget`. -/
def iget (s : Fs) (dev nr : ℕ) : Option (ℕ × Fs) := do
  match ← findInode s dev nr with
  | some i =>
      let node := s.inodeTable i
      fitInode (s.setInode i { node with count := u32 (node.count + 1), atime := s.time }) i
  | none =>
      let sb ← s.getSuper dev
      let desc := s.superDesc dev
      assert (nr ≤ desc.inodes)
      let i ← getFreeInode s
      let s := s.setSuper sb { s.superTable sb with inodeList := i :: (s.superTable sb).inodeList }
      let buf := inodeBlock desc nr
      let node :=
        { s.inodeTable i with
          dev := dev
          nr := nr
          count := u32 ((s.inodeTable i).count + 1)
          buf := buf
          desc := inodeOffset nr
          ctime := (s.blk dev buf).getU32 (inodeOffset nr + 8)
          atime := s.time }
      return (i, s.setInode i node)

/-- The permission bits a new inode gets: `0777 & ~task->umask`. -/
def newMode (s : Fs) : ℕ := 0o777 &&& (0xFFFF ^^^ s.task.umask)

/-- `new_inode`. -/
def newInode (s : Fs) (dev nr : ℕ) : Option (ℕ × Fs) := do
  let (i, s) ← iget s dev nr
  let s := s.setMode i (newMode s)
  let s := s.setUid i s.task.uid
  let s := s.setSize i 0
  let s := (s.setAtime i s.time).setMtime i s.time
  let s := s.setGid i s.task.gid
  let s := s.setNlinks i 1
  return (i, s)

/-! ### Inodes that are loaded -/

/-- **Entry `i` of the inode table is inode `nr` of `dev`**, its descriptor where `iget` finds
it. -/
structure Fs.Holds (s : Fs) (dev nr i : ℕ) : Prop where
  /-- Inode numbers start at 1. -/
  pos : 1 ≤ nr
  /-- There is such an inode. -/
  le : nr ≤ (s.superDesc dev).inodes
  /-- The device. -/
  dev_eq : (s.inodeTable i).dev = dev
  /-- The number. -/
  nr_eq : (s.inodeTable i).nr = nr
  /-- The block of the descriptor. -/
  buf : (s.inodeTable i).buf = inodeBlock (s.superDesc dev) nr
  /-- The place of the descriptor. -/
  desc : (s.inodeTable i).desc = inodeOffset nr

theorem inodeBlock_eq {desc : SuperDesc} {nr : ℕ} (h : 1 ≤ nr) (h' : nr < 65536) :
    inodeBlock desc nr = 2 + desc.imapBlocks + desc.zmapBlocks + (nr - 1) / 32 := by
  rw [inodeBlock, blockInodes_eq, sub32_of_le (by omega) h]

theorem inodeOffset_eq {nr : ℕ} (h : 1 ≤ nr) (h' : nr < 65536) :
    inodeOffset nr = (nr - 1) % 32 * 32 := by
  rw [inodeOffset, blockInodes_eq, sub32_of_le (by omega) h]

/-- Two inodes of one block have their descriptors apart. -/
theorem inodeOffset_apart {desc : SuperDesc} {nr nr' : ℕ} (h : 1 ≤ nr) (hlt : nr < 65536)
    (h' : 1 ≤ nr') (hlt' : nr' < 65536) (hblk : inodeBlock desc nr = inodeBlock desc nr')
    (hne : nr ≠ nr') :
    inodeOffset nr + 32 ≤ inodeOffset nr' ∨ inodeOffset nr' + 32 ≤ inodeOffset nr := by
  rw [inodeBlock_eq h hlt, inodeBlock_eq h' hlt'] at hblk
  rw [inodeOffset_eq h hlt, inodeOffset_eq h' hlt']
  omega

end Onixs
