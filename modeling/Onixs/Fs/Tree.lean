import Onixs.Common.Forest
import Onixs.Fs.WalkCounts

/-!
# The trees on the devices

What the blocks of the mounted devices say, as a forest (`Onixs.Forest`) whose nodes are the
inodes, given by device and number: the entries of a directory with their names, the
directories a task may walk through, and the mounts. `Onixs.WellFormed` collects what a
walk relies on, and `Onixs.Path` is a path as the components it is made of.
-/

namespace Onixs

open Bytes

/-- The string `name` with its `EOS` at offset `o`. -/
def HasName (d : Bytes) : ℕ → CStr → Prop
  | o, [] => d o = 0#8
  | o, c :: name => d o = c.1 ∧ HasName d (o + 1) name

instance HasName.decidable (d : Bytes) : ∀ o name, Decidable (HasName d o name)
  | o, [] => inferInstanceAs (Decidable (d o = 0#8))
  | o, _ :: name =>
      have := HasName.decidable d (o + 1) name
      inferInstanceAs (Decidable (_ ∧ _))

/-- `"."`. -/
def dotName : CStr := [⟨46#8, by decide⟩]

/-- `".."`. -/
def dotDotName : CStr := [⟨46#8, by decide⟩, ⟨46#8, by decide⟩]

namespace Fs

variable (s : Fs)

/-! ### Directories -/

/-- The descriptor of inode `nr` of `dev`. -/
def descOf (dev nr : ℕ) : InodeDesc :=
  readInodeDesc (s.blk dev (inodeBlock (s.superDesc dev) nr)) (inodeOffset nr)

/-- Entry `k` of directory `nr` of `dev`. -/
def entryOf (dev nr k : ℕ) : Dentry := ⟨dev, s.zoneAt dev nr (bmapSlot (k / 64)), k % 64 * 16⟩

/-- Entry `k` is in use and has the given name. -/
def NameAt (dev nr k : ℕ) (name : CStr) : Prop :=
  s.dentryNr (s.entryOf dev nr k) ≠ 0 ∧
    HasName (s.blk dev (s.entryOf dev nr k).blk) (k % 64 * 16 + 2) name

instance (dev nr k : ℕ) (name : CStr) : Decidable (s.NameAt dev nr k name) :=
  inferInstanceAs (Decidable (_ ∧ _))

/-- The number of entries of a directory. -/
def entries (dev nr : ℕ) : ℕ := (s.descOf dev nr).size / 16

/-- The first entry in use with the given name. -/
def slotOf (dev nr : ℕ) (name : CStr) : Option ℕ :=
  (List.range (s.entries dev nr)).find? fun k => s.NameAt dev nr k name

/-! ### Mounts -/

/-- The inode in an entry of the inode table. -/
def nodeOf (i : ℕ) : ℕ × ℕ := ((s.inodeTable i).dev, (s.inodeTable i).nr)

/-- The directory a device is mounted on. -/
def mountPoint (dev : ℕ) : Option ℕ := (s.getSuper dev).bind fun k => (s.superTable k).imount

/-- The entry of the inode table for a node with a device mounted on it. -/
def mountEntry (n : ℕ × ℕ) : Option ℕ :=
  (List.range inodeNr).find? fun i => (s.inodeTable i).mount ≠ 0 ∧ s.nodeOf i = n

/-- **The forest of the mounted trees**, as the running task sees it. -/
def forest : Forest (ℕ × ℕ) CStr where
  child n name := (s.slotOf n.1 n.2 name).map fun k => (n.1, s.dentryNr (s.entryOf n.1 n.2 k))
  up n name := if name = dotDotName ∧ n.2 = 1 then (s.mountPoint n.1).elim n s.nodeOf else n
  down n := (s.mountEntry n).elim n fun i => ((s.inodeTable i).mount, 1)
  pass n := isDir (s.descOf n.1 n.2).mode && permits s.task (s.descOf n.1 n.2) pExec

theorem forest_child (n : ℕ × ℕ) (name : CStr) : s.forest.child n name
    = (s.slotOf n.1 n.2 name).map fun k => (n.1, s.dentryNr (s.entryOf n.1 n.2 k)) := rfl

theorem forest_up (n : ℕ × ℕ) (name : CStr) : s.forest.up n name
    = if name = dotDotName ∧ n.2 = 1 then (s.mountPoint n.1).elim n s.nodeOf else n := rfl

theorem forest_down (n : ℕ × ℕ) : s.forest.down n
    = (s.mountEntry n).elim n fun i => ((s.inodeTable i).mount, 1) := rfl

theorem forest_pass (n : ℕ × ℕ) : s.forest.pass n
    = (isDir (s.descOf n.1 n.2).mode && permits s.task (s.descOf n.1 n.2) pExec) := rfl

/-! ### Well-formed trees -/

/-- An inode number of a mounted device. -/
def IsNode (n : ℕ × ℕ) : Prop := n.1 ≠ EOF ∧ (∃ k, s.getSuper n.1 = some k) ∧
  1 ≤ n.2 ∧ n.2 ≤ (s.superDesc n.1).inodes

/-- The nodes of the trees on the mounted devices. -/
inductive InTree : ℕ × ℕ → Prop
  /-- The root of a device. -/
  | root {dev k : ℕ} : dev ≠ EOF → s.getSuper dev = some k → InTree (dev, 1)
  /-- An entry of a directory. -/
  | child {n : ℕ × ℕ} {k : ℕ} : InTree n → isDir (s.descOf n.1 n.2).mode = true →
      k < s.entries n.1 n.2 → s.dentryNr (s.entryOf n.1 n.2 k) ≠ 0 →
      InTree (n.1, s.dentryNr (s.entryOf n.1 n.2 k))

/-- A directory of one of the trees. -/
def TreeDir (n : ℕ × ℕ) : Prop := s.InTree n ∧ isDir (s.descOf n.1 n.2).mode = true

/-- **A directory that can be searched**: its blocks are there, and the names in use are not
empty, have no separator and end within their field. -/
structure IsDirectory (n : ℕ × ℕ) : Prop where
  /-- Its blocks are allocated. -/
  blocks : ∀ k < s.entries n.1 n.2, k / 64 < totalBlock ∧ s.zoneAt n.1 n.2 (bmapSlot (k / 64)) ≠ 0
  /-- Its entries have names. -/
  named : ∀ k < s.entries n.1 n.2, s.dentryNr (s.entryOf n.1 n.2 k) ≠ 0 →
    ∃ name : CStr, name ≠ [] ∧ name.length < nameLen ∧ (∀ c ∈ name, isSeparator c = false) ∧
      s.NameAt n.1 n.2 k name
  /-- Its entries are inodes. -/
  nodes : ∀ k < s.entries n.1 n.2, s.dentryNr (s.entryOf n.1 n.2 k) ≠ 0 →
    s.dentryNr (s.entryOf n.1 n.2 k) ≤ (s.superDesc n.1).inodes

/-- **Entries of the inode table in use** are in the list of their device, and no inode has two. -/
structure Loaded (s : Fs) : Prop where
  /-- The list of the device has the entry, -/
  mem : ∀ i < inodeNr, (s.inodeTable i).count ≠ 0 →
    ∃ k, s.getSuper (s.inodeTable i).dev = some k ∧ i ∈ (s.superTable k).inodeList
  /-- and no other device has. -/
  dev_eq : ∀ k, ∀ i ∈ (s.superTable k).inodeList, (s.inodeTable i).dev = (s.superTable k).dev
  /-- The descriptor has been found. -/
  holds : ∀ i < inodeNr, (s.inodeTable i).count ≠ 0 →
    s.Holds (s.inodeTable i).dev (s.inodeTable i).nr i
  /-- An inode is in memory once. -/
  unique : ∀ i < inodeNr, ∀ j < inodeNr, (s.inodeTable i).count ≠ 0 → (s.inodeTable j).count ≠ 0 →
    s.nodeOf i = s.nodeOf j → i = j

/-- **A forest of mounted, well-formed trees.** -/
structure WellFormed (s : Fs) : Prop where
  /-- The inode table. -/
  table : TableOk s
  /-- The inodes in memory. -/
  loaded : s.Loaded
  /-- What the super blocks point to is in use. -/
  pinned : Pinned (fun j => (s.inodeTable j).count) s
  /-- Entry 0, which `put_free_inode` refuses, is in use. -/
  bottom : (s.inodeTable 0).count ≠ 0
  /-- An inode with a device mounted on it is the mount point of that device. -/
  mounts : ∀ i < inodeNr, (s.inodeTable i).mount ≠ 0 → ∃ k r,
    s.getSuper (s.inodeTable i).mount = some k ∧ (s.superTable k).imount = some i ∧
    (s.superTable k).iroot = some r ∧ s.nodeOf r = ((s.inodeTable i).mount, 1)
  /-- Every device is mounted, on a directory. -/
  mounted : ∀ k < superNr, (s.superTable k).dev ≠ EOF →
    ∃ m, (s.superTable k).imount = some m ∧ s.TreeDir (s.nodeOf m)
  /-- The directories can be searched. -/
  dirs : ∀ n, s.TreeDir n → s.IsDirectory n
  /-- The running task has directories. -/
  starts : TaskDirs (fun j => (s.inodeTable j).count) s.task
  /-- Its root is a directory, -/
  iroot : s.TreeDir (s.nodeOf s.task.iroot)
  /-- and so is its working directory. -/
  ipwd : s.TreeDir (s.nodeOf s.task.ipwd)

/-- Two entries of the inode table are free. -/
def TwoFree (s : Fs) : Prop := ∃ a < inodeNr, ∃ b < inodeNr, a ≠ b ∧
  (s.inodeTable a).dev = EOF ∧ (s.inodeTable b).dev = EOF

end Fs

/-! ### Paths -/

/-- **A path**: a separator in front or none, names with a separator behind each, and one more name
or none. -/
structure Path where
  /-- The separator in front. -/
  lead : Option CChar
  /-- The names with their separators. -/
  dirs : List (CStr × CChar)
  /-- The name behind the last separator, which is empty if there is none. -/
  last : CStr
  /-- What is in front is a separator. -/
  lead_sep : ∀ c ∈ lead, isSeparator c = true
  /-- Names in front of a separator. -/
  dirs_name : ∀ p ∈ dirs, p.1 ≠ [] ∧ (∀ c ∈ p.1, isSeparator c = false) ∧ isSeparator p.2 = true
  /-- The last name. -/
  last_name : ∀ c ∈ last, isSeparator c = false
  /-- There is something. -/
  nonempty : lead = none → dirs ≠ [] ∨ last ≠ []

namespace Path

/-- The characters of names with their separators, and of a last name. -/
def tail : List (CStr × CChar) → CStr → CStr
  | [], last => last
  | (name, sep) :: dirs, last => name ++ sep :: tail dirs last

/-- The characters of a path. -/
def chars (p : Path) : CStr := p.lead.toList ++ tail p.dirs p.last

/-- Where the walk begins. -/
def start (p : Path) (task : Task) : ℕ := if p.lead.isSome then task.iroot else task.ipwd

/-- The names that are walked through. -/
def names (p : Path) : List CStr := p.dirs.map Prod.fst

/-- The name that is only looked up. -/
def final (p : Path) : Option CStr := if p.last = [] then none else some p.last

/-- **The inode a path leads to.** -/
def target (p : Path) (s : Fs) : Option (ℕ × ℕ) :=
  s.forest.walk (s.nodeOf (p.start s.task)) p.names p.final

end Path

end Onixs
