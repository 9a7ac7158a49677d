import Onixs.Lib.Types

/-!
# The state of the file system

The tables of `include/onixs/fs.h` and the blocks of the devices. The blocks are
seen through the buffer cache: `Onixs.Fs.blk dev b` is what `bread(dev, b)->data`
shows, a store through a buffer's `data` is an `Onixs.Fs.setBlk`, and `brelse` and
`bwrite`, which move bytes between the cache and the device, change nothing that
can be seen here. That the cache has this behaviour is the subject of
`Onixs.Kernel.BufferRun`.

A pointer into a table is the index of the entry. The descriptors `super_desc_t`
and `inode_desc_t` live in blocks; `Onixs.readSuperDesc` and `Onixs.readInodeDesc`
decode them, and a store to a field is a store of its bytes.
-/

namespace Onixs

open Bytes

/-! ### Constants -/

/-- `BLOCK_SIZE`. -/
def blockSize : ℕ := 1024

/-- `BLOCK_BITS`. -/
def blockBits : ℕ := 8192

/-- `BLOCK_INODES`. -/
def blockInodes : ℕ := 32

/-- `BLOCK_DENTRIES`. -/
def blockDentries : ℕ := 64

/-- `BLOCK_INDEXES`. -/
def blockIndexes : ℕ := 512

/-- `DIRECT_BLOCK`. -/
def directBlock : ℕ := 7

/-- `INDIRECT1_BLOCK`. -/
def indirect1Block : ℕ := 512

/-- `INDIRECT2_BLOCK`. -/
def indirect2Block : ℕ := 262144

/-- `TOTAL_BLOCK`. -/
def totalBlock : ℕ := 262663

/-- `IMAP_NR`. -/
def imapNr : ℕ := 8

/-- `ZMAP_NR`. -/
def zmapNr : ℕ := 8

/-- `SUPER_NR`. -/
def superNr : ℕ := 16

/-- `INODE_NR`. -/
def inodeNr : ℕ := 64

/-- `MINIX1_MAGIC`. -/
def minix1Magic : ℕ := 0x137F

/-! The values, as rewriting rules: unfolding a constant inside an arithmetic goal would have
the kernel count up to it. -/

@[simp] theorem blockSize_eq : blockSize = 1024 := by decide

@[simp] theorem blockBits_eq : blockBits = 8192 := by decide

@[simp] theorem blockInodes_eq : blockInodes = 32 := by decide

@[simp] theorem blockDentries_eq : blockDentries = 64 := by decide

@[simp] theorem blockIndexes_eq : blockIndexes = 512 := by decide

@[simp] theorem directBlock_eq : directBlock = 7 := by decide

@[simp] theorem indirect1Block_eq : indirect1Block = 512 := by decide

@[simp] theorem indirect2Block_eq : indirect2Block = 262144 := by decide

@[simp] theorem totalBlock_eq : totalBlock = 262663 := by decide

@[simp] theorem imapNr_eq : imapNr = 8 := by decide

@[simp] theorem zmapNr_eq : zmapNr = 8 := by decide

@[simp] theorem superNr_eq : superNr = 16 := by decide

@[simp] theorem inodeNr_eq : inodeNr = 64 := by decide

@[simp] theorem minix1Magic_eq : minix1Magic = 0x137F := by decide

/-! ### Descriptors in blocks -/

/-- `super_desc_t`. -/
structure SuperDesc where
  /-- Number of inodes. -/
  inodes : ℕ
  /-- Number of blocks. -/
  zones : ℕ
  /-- Blocks of the inode bitmap. -/
  imapBlocks : ℕ
  /-- Blocks of the zone bitmap. -/
  zmapBlocks : ℕ
  /-- First data block. -/
  firstdatazone : ℕ
  /-- Magic number. -/
  magic : ℕ

/-- The super block descriptor at the start of a block. -/
def readSuperDesc (d : Bytes) : SuperDesc where
  inodes := d.getU16 0
  zones := d.getU16 2
  imapBlocks := d.getU16 4
  zmapBlocks := d.getU16 6
  firstdatazone := d.getU16 8
  magic := d.getU16 16

/-- `inode_desc_t`. -/
structure InodeDesc where
  /-- Type and permission bits. -/
  mode : ℕ
  /-- Owner. -/
  uid : ℕ
  /-- Size in bytes. -/
  size : ℕ
  /-- Time of the last change. -/
  mtime : ℕ
  /-- Group. -/
  gid : ℕ
  /-- Number of links. -/
  nlinks : ℕ
  /-- Direct zones (0 to 6), the indirect one (7) and the double indirect one (8). -/
  zone : ℕ → ℕ

/-- The inode descriptor at offset `o` of a block. -/
def readInodeDesc (d : Bytes) (o : ℕ) : InodeDesc where
  mode := d.getU16 o
  uid := d.getU16 (o + 2)
  size := d.getU32 (o + 4)
  mtime := d.getU32 (o + 8)
  gid := d.getU8 (o + 12)
  nlinks := d.getU8 (o + 13)
  zone := fun i => d.getU16 (o + 14 + 2 * i)

/-- `ISFILE`. -/
def isFile (mode : ℕ) : Bool := mode &&& 0o170000 == 0o100000

/-- `ISDIR`. -/
def isDir (mode : ℕ) : Bool := mode &&& 0o170000 == 0o040000

/-! ### Tables in memory -/

/-- `super_block_t`. The descriptor is block 1 of `dev`; a bitmap buffer is given by its
block number. -/
structure SuperBlock where
  /-- Device, `EOF` in a free entry. -/
  dev : ℕ
  /-- Reference count. -/
  count : ℕ
  /-- Buffers of the inode bitmap. -/
  imaps : ℕ → Option ℕ
  /-- Buffers of the zone bitmap. -/
  zmaps : ℕ → Option ℕ
  /-- The inodes of the device that are in memory. -/
  inodeList : List ℕ
  /-- Root directory. -/
  iroot : Option ℕ
  /-- The directory it is mounted on. -/
  imount : Option ℕ

/-- `inode_t`. The descriptor `desc` points into block `buf` of `dev`. -/
structure Inode where
  /-- Device, `EOF` in a free entry. -/
  dev : ℕ
  /-- Number of the inode. -/
  nr : ℕ
  /-- Reference count. -/
  count : ℕ
  /-- Block that holds the descriptor. -/
  buf : ℕ
  /-- Offset of the descriptor in that block. -/
  desc : ℕ
  /-- Time of the last access. -/
  atime : ℕ
  /-- Time of the last change. -/
  ctime : ℕ
  /-- Device mounted here. -/
  mount : ℕ

/-- What the file system reads of the running task. -/
structure Task where
  /-- User. -/
  uid : ℕ
  /-- Group. -/
  gid : ℕ
  /-- Permissions withheld from new files. -/
  umask : ℕ
  /-- Working directory. -/
  ipwd : ℕ
  /-- Root directory. -/
  iroot : ℕ

/-- The file system: the blocks of every device, the two tables, the running task and the
clock. -/
structure Fs where
  /-- Contents of block `b` of device `dev`. -/
  blk : ℕ → ℕ → Bytes
  /-- `super_table`. -/
  superTable : ℕ → SuperBlock
  /-- `inode_table`. -/
  inodeTable : ℕ → Inode
  /-- `running_task()`. -/
  task : Task
  /-- `time()`. -/
  time : ℕ

namespace Fs

variable (s : Fs)

/-! ### Stores -/

/-- Replace a block. -/
def setBlk (dev b : ℕ) (d : Bytes) : Fs :=
  { s with blk := fun dev' b' => if dev' = dev ∧ b' = b then d else s.blk dev' b' }

/-- Replace an entry of the inode table. -/
def setInode (i : ℕ) (inode : Inode) : Fs :=
  { s with inodeTable := fun j => if j = i then inode else s.inodeTable j }

/-- Replace an entry of the super block table. -/
def setSuper (i : ℕ) (sb : SuperBlock) : Fs :=
  { s with superTable := fun j => if j = i then sb else s.superTable j }

@[simp] theorem setBlk_blk_self (dev b : ℕ) (d : Bytes) : (s.setBlk dev b d).blk dev b = d :=
  if_pos ⟨rfl, rfl⟩

theorem setBlk_blk_of_ne {dev b dev' b' : ℕ} (d : Bytes) (h : dev' ≠ dev ∨ b' ≠ b) :
    (s.setBlk dev b d).blk dev' b' = s.blk dev' b' :=
  if_neg fun hc => h.elim (fun hn => hn hc.1) fun hn => hn hc.2

/-- Of two stores in one block the second counts. -/
theorem setBlk_setBlk (dev b : ℕ) (d d' : Bytes) :
    (s.setBlk dev b d).setBlk dev b d' = s.setBlk dev b d' := by
  simp only [setBlk, mk.injEq, and_true]
  funext dev' b'
  split <;> rfl

@[simp] theorem setBlk_superTable (dev b : ℕ) (d : Bytes) :
    (s.setBlk dev b d).superTable = s.superTable := rfl

@[simp] theorem setBlk_inodeTable (dev b : ℕ) (d : Bytes) :
    (s.setBlk dev b d).inodeTable = s.inodeTable := rfl

@[simp] theorem setBlk_task (dev b : ℕ) (d : Bytes) : (s.setBlk dev b d).task = s.task := rfl

@[simp] theorem setBlk_time (dev b : ℕ) (d : Bytes) : (s.setBlk dev b d).time = s.time := rfl

@[simp] theorem setInode_blk (i : ℕ) (inode : Inode) : (s.setInode i inode).blk = s.blk := rfl

@[simp] theorem setInode_superTable (i : ℕ) (inode : Inode) :
    (s.setInode i inode).superTable = s.superTable := rfl

@[simp] theorem setInode_self (i : ℕ) (inode : Inode) :
    (s.setInode i inode).inodeTable i = inode := if_pos rfl

theorem setInode_of_ne {i j : ℕ} (inode : Inode) (h : j ≠ i) :
    (s.setInode i inode).inodeTable j = s.inodeTable j := if_neg h

/-- Of two stores in one entry the second counts. -/
theorem setInode_setInode (i : ℕ) (inode inode' : Inode) :
    (s.setInode i inode).setInode i inode' = s.setInode i inode' := by
  simp only [setInode, mk.injEq, and_true, true_and]
  funext j
  split <;> rfl

@[simp] theorem setInode_task (i : ℕ) (inode : Inode) : (s.setInode i inode).task = s.task := rfl

@[simp] theorem setSuper_blk (i : ℕ) (sb : SuperBlock) : (s.setSuper i sb).blk = s.blk := rfl

@[simp] theorem setSuper_inodeTable (i : ℕ) (sb : SuperBlock) :
    (s.setSuper i sb).inodeTable = s.inodeTable := rfl

@[simp] theorem setSuper_self (i : ℕ) (sb : SuperBlock) :
    (s.setSuper i sb).superTable i = sb := if_pos rfl

theorem setSuper_of_ne {i j : ℕ} (sb : SuperBlock) (h : j ≠ i) :
    (s.setSuper i sb).superTable j = s.superTable j := if_neg h

/-- Of two stores in one entry the second counts. -/
theorem setSuper_setSuper (i : ℕ) (sb sb' : SuperBlock) :
    (s.setSuper i sb).setSuper i sb' = s.setSuper i sb' := by
  simp only [setSuper, mk.injEq, and_true, true_and]
  funext j
  split <;> rfl

/-- Storing what is there changes nothing. -/
theorem setSuper_eq_self (i : ℕ) : s.setSuper i (s.superTable i) = s := by
  have htable : (fun j => if j = i then s.superTable i else s.superTable j) = s.superTable := by
    funext j
    split
    next heq => rw [heq]
    next => rfl
  rw [setSuper, htable]

/-! ### Looking things up -/

/-- `get_super`: the first entry of the table for the device. -/
def getSuper (dev : ℕ) : Option ℕ :=
  (List.range superNr).find? fun i => (s.superTable i).dev = dev

/-- `sb->desc` of the super block of device `dev`. -/
def superDesc (dev : ℕ) : SuperDesc := readSuperDesc (s.blk dev 1)

/-- `inode->desc`. -/
def inodeDesc (i : ℕ) : InodeDesc :=
  readInodeDesc (s.blk (s.inodeTable i).dev (s.inodeTable i).buf) (s.inodeTable i).desc

theorem getSuper_congr {s s' : Fs} (h : s'.superTable = s.superTable) (dev : ℕ) :
    s'.getSuper dev = s.getSuper dev := by
  rw [getSuper, getSuper, h]

/-- The entry `get_super` finds is an entry of that device. -/
theorem dev_of_getSuper {s : Fs} {dev sb : ℕ} (h : s.getSuper dev = some sb) :
    (s.superTable sb).dev = dev := by
  have := List.find?_some h
  simpa using this

theorem superDesc_setBlk_of_ne {dev b dev' : ℕ} (d : Bytes) (h : dev' ≠ dev ∨ b ≠ 1) :
    (s.setBlk dev b d).superDesc dev' = s.superDesc dev' := by
  rw [superDesc, superDesc, setBlk_blk_of_ne s d (h.imp_right Ne.symm)]

end Fs

/-- What a store in the table of super blocks leaves as it was. -/
theorem superTable_setSuper {t : Fs} {k : ℕ} {sb : SuperBlock} {α : Type} (f : SuperBlock → α)
    (h : f sb = f (t.superTable k)) (k' : ℕ) : f ((t.setSuper k sb).superTable k') = f (t.superTable k') := by
  rcases eq_or_ne k' k with rfl | hne
  · rw [Fs.setSuper_self, h]
  · rw [Fs.setSuper_of_ne _ _ hne]

end Onixs
