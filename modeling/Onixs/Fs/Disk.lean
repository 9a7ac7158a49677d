import Onixs.Fs.Holding
import Onixs.Fs.Mounted

/-!
# Laying out a device

Blocks with given contents: a block of directory entries and a block of inode descriptors,
stored field by field, and `Onixs.rootFs`, a device with such blocks whose root directory
is mounted at the top of the tree, as `mount_root` leaves it.
-/

namespace Onixs

open Bytes

/-- A C string with the characters of a list. -/
def cstr (l : List Char) : CStr :=
  l.filterMap fun c => if h : BitVec.ofNat 8 c.toNat ≠ 0#8 then some ⟨_, h⟩ else none

/-- A directory block with the entries of a list from entry `k` on. -/
def dirBytes : ℕ → List (ℕ × CStr) → Bytes
  | _, [] => fun _ => 0#8
  | k, (nr, name) :: l => strncpy ((dirBytes (k + 1) l).putU16 (16 * k) nr) (16 * k + 2) name nameLen

/-- The descriptor of an inode with one zone, stored at offset `o`. -/
def putInodeDesc (d : Bytes) (o mode size nlinks zone : ℕ) : Bytes :=
  (((d.putU16 o mode).putU32 (o + 4) size).putU8 (o + 13) nlinks).putU16 (o + 14) zone

/-- A block of such descriptors, from inode `k` of the block on. -/
def inodeBytes : ℕ → List (ℕ × ℕ × ℕ × ℕ) → Bytes
  | _, [] => fun _ => 0#8
  | k, (mode, size, nlinks, zone) :: l => putInodeDesc (inodeBytes (k + 1) l) (32 * k) mode size nlinks zone

/-- The blocks of a device with a program `/a`. -/
def programBlocks (b : ℕ) : Bytes :=
  if b = 4 then inodeBytes 0 [(0o040755, 48, 2, 5), (0o100755, 0, 1, 0), (0o020600, 0, 1, 3)]
  else if b = 5 then
    dirBytes 0 [(1, cstr ['.']), (1, cstr ['.', '.']), (2, cstr ['a'])]
  else fun _ => 0#8

/-- A device of 64 blocks: the bitmaps are blocks 2 and 3, the inodes are in block 4. -/
def rootDesc : SuperDesc where
  inodes := 32
  zones := 64
  imapBlocks := 1
  zmapBlocks := 1
  firstdatazone := 5
  magic := 0x137F

/-- Device 1 with blocks `d` and its root directory in entry 0 of the inode table, which has
`count` references. -/
def rootFs (d : ℕ → Bytes) (count : ℕ) : Fs :=
  let s := deviceFs rootDesc d
  let s := s.setInode 0
    { dev := 1, nr := 1, count := count, buf := 4, desc := 0, atime := 0, ctime := 0, mount := 0 }
  s.setSuper 0 { s.superTable 0 with inodeList := [0], iroot := some 0, imount := some 0 }

section Root

variable {d : ℕ → Bytes} {count : ℕ}

theorem rootFs_inode (j : ℕ) : ((rootFs d count).inodeTable j).count = if j = 0 then count else 0 := by
  rcases eq_or_ne j 0 with rfl | hne
  · rfl
  · rw [if_neg hne]
    exact congrArg Inode.count (Fs.setInode_of_ne _ _ hne)

theorem rootFs_dev (j : ℕ) : ((rootFs d count).inodeTable j).dev = if j = 0 then 1 else EOF := by
  rcases eq_or_ne j 0 with rfl | hne
  · rfl
  · rw [if_neg hne]
    exact congrArg Inode.dev (Fs.setInode_of_ne _ _ hne)

theorem rootFs_super (d : ℕ → Bytes) (count k : ℕ) : ((rootFs d count).superTable k).iroot = (if k = 0 then some 0 else none) ∧
    ((rootFs d count).superTable k).imount = (if k = 0 then some 0 else none) ∧
    ((rootFs d count).superTable k).inodeList = if k = 0 then [0] else [] := by
  rcases eq_or_ne k 0 with rfl | hne
  · exact ⟨rfl, rfl, rfl⟩
  · rw [if_neg hne, if_neg hne]
    have hold : (rootFs d count).superTable k = (deviceFs rootDesc d).superTable k :=
      Fs.setSuper_of_ne _ _ hne
    rw [hold]
    exact ⟨rfl, rfl, rfl⟩

theorem rootFs_getSuper : (rootFs d count).getSuper 1 = some 0 := by
  rw [Fs.getSuper, superNr_eq, show List.range 16 = 0 :: List.range' 1 15 by decide,
    List.find?_cons_of_pos]
  simp [rootFs, deviceFs]

theorem rootFs_mount (j : ℕ) : ((rootFs d count).inodeTable j).mount = 0 := by
  rcases eq_or_ne j 0 with rfl | hne
  · rfl
  · exact congrArg Inode.mount (Fs.setInode_of_ne _ _ hne)

theorem rootFs_used {j : ℕ} (h : ((rootFs d count).inodeTable j).count ≠ 0) : j = 0 := by
  rw [rootFs_inode] at h
  by_contra hne
  exact h (if_neg hne)

theorem rootFs_superDev (k : ℕ) : ((rootFs d count).superTable k).dev = if k = 0 then 1 else EOF := by
  rcases eq_or_ne k 0 with rfl | hne
  · rfl
  · rw [if_neg hne]
    have hold : (rootFs d count).superTable k = (deviceFs rootDesc d).superTable k :=
      Fs.setSuper_of_ne _ _ hne
    rw [hold]
    exact if_neg hne

theorem rootFs_superCount (k : ℕ) : ((rootFs d count).superTable k).count = 1 := by
  rcases eq_or_ne k 0 with rfl | hne
  · rfl
  · have hold : (rootFs d count).superTable k = (deviceFs rootDesc d).superTable k :=
      Fs.setSuper_of_ne _ _ hne
    rw [hold]
    rfl

theorem mem_rootFs_list {k j : ℕ} (h : j ∈ ((rootFs d count).superTable k).inodeList) : k = 0 ∧ j = 0 := by
  obtain ⟨-, -, hlist⟩ := rootFs_super d count k
  rw [hlist] at h
  split at h
  next hk => exact ⟨hk, List.mem_singleton.mp h⟩
  next => exact absurd h List.not_mem_nil

/-- The tables of a device at the top of the tree. -/
theorem rootFs_tableOk (hcount : count ≠ 0) : TableOk (rootFs d count) := by
  refine ⟨fun j hj => ?_, fun k j hj => ?_, fun k => ?_⟩
  · rw [rootFs_dev, rootFs_inode]
    split <;> simp [EOF, hcount]
  · obtain ⟨-, rfl⟩ := mem_rootFs_list hj
    exact ⟨by decide, hcount⟩
  · obtain ⟨-, -, hlist⟩ := rootFs_super d count k
    rw [hlist]
    split <;> simp

theorem rootFs_pinned (hcount : count ≠ 0) :
    Pinned (fun j => ((rootFs d count).inodeTable j).count) (rootFs d count) := by
  refine ⟨fun k _ m hm => ?_, fun k _ m hm => ?_, fun k _ m hm _ k' hk' => ?_⟩
  all_goals obtain ⟨hroot, hmount, -⟩ := rootFs_super d count k
  · rw [hroot] at hm
    split at hm
    · exact Option.some.inj hm ▸ ⟨by decide, hcount⟩
    · exact absurd hm (by simp)
  · rw [hmount] at hm
    split at hm
    · exact Option.some.inj hm ▸ ⟨by decide, hcount⟩
    · exact absurd hm (by simp)
  · rw [hmount] at hm
    split at hm
    · obtain rfl := Option.some.inj hm
      have hk0 : (rootFs d count).getSuper 1 = some k' := hk'
      rw [rootFs_getSuper] at hk0
      exact Option.some.inj hk0 ▸ rfl
    · exact absurd hm (by simp)

end Root

end Onixs
