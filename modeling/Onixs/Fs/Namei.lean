import Onixs.Fs.Bmap

/-!
# Looking up a path

The functions of `fs/namei.c` up to `inode_open`, with `strrsep` and `strncpy` of
`lib/string.c` and `inode_truncate` of `fs/inode.c`.

A path is a C string: the characters in front of `EOS` (`Onixs.CStr`). A pointer into it
is what is left of the string from there on, so that two pointers into one string are
equal when the rests are. A `dentry_t *` is the block of the buffer it points into and an
offset (`Onixs.Dentry`). A directory is read block by block; `Onixs.entryBlock` is the
statement that the loops over its entries begin with.
-/

namespace Onixs

open Bytes

/-! ### Strings -/

/-- A character of a C string: a byte other than `EOS`. -/
abbrev CChar : Type := { c : Byte // c ≠ 0#8 }

/-- A C string, without the `EOS` at its end. -/
abbrev CStr : Type := List CChar

/-- `IS_SEPARATOR`. -/
def isSeparator (c : CChar) : Bool := c.1 == 47#8 || c.1 == 92#8

/-- `strrsep`, as far as `named` uses it: the string from its last separator on. -/
def strrsep : CStr → Option CStr
  | [] => none
  | c :: cs =>
      match strrsep cs with
      | some right => some right
      | none => if isSeparator c then some (c :: cs) else none

/-- The loop of `strncpy`: store `count` more characters of `src` from `o` on. Behind the last
one `o` is `dest + count`. -/
def strncpy (d : Bytes) (o : ℕ) : CStr → ℕ → Bytes
  | _, 0 => d.putU8 (o - 1) 0
  | [], _ + 1 => d.putU8 o 0
  | c :: src, count + 1 => strncpy (d.putU8 o c.1.toNat) (o + 1) src count

/-- **`strncpy`** stores in its field only. -/
theorem strncpy_outside {i : ℕ} : ∀ {src : CStr} {count : ℕ} {d : Bytes} {o : ℕ}, i < o ∨ o + count < i →
    strncpy d o src (count + 1) i = d i
  | [], _, _, o, h => putU8_of_ne _ _ (by omega)
  | c :: src, 0, d, o, h => by
    rw [strncpy, strncpy, Nat.add_sub_cancel, putU8_of_ne _ _ (by omega), putU8_of_ne _ _ (by omega)]
  | c :: src, count + 1, d, o, h => by
    rw [strncpy, strncpy_outside (by omega), putU8_of_ne _ _ (by omega)]

/-- `match_name` with the entry name at `o`: what `*next` becomes. -/
def matchName (d : Bytes) : CStr → ℕ → Option CStr
  | [], o => if d o = 0#8 then some [] else none
  | c :: name, o =>
      if d o = 0#8 then
        if isSeparator c then some name else none
      else if c.1 = d o then matchName d name (o + 1) else none

/-- The string literal `".."`. -/
def dotDot : Bytes := fun o => if o < 2 then 46#8 else 0#8

/-! ### Entries of directories -/

/-- `NAME_LEN`. -/
def nameLen : ℕ := 14

/-- A `dentry_t *`. -/
structure Dentry where
  /-- Device of the buffer. -/
  dev : ℕ
  /-- Block of the buffer. -/
  blk : ℕ
  /-- Offset in `data`. -/
  off : ℕ
deriving DecidableEq

namespace Fs

variable (s : Fs)

/-- `entry->nr`. -/
def dentryNr (e : Dentry) : ℕ := (s.blk e.dev e.blk).getU16 e.off

/-- Store `entry->nr`. -/
def setDentryNr (e : Dentry) (v : ℕ) : Fs :=
  s.setBlk e.dev e.blk ((s.blk e.dev e.blk).putU16 e.off v)

/-- `strncpy(entry->name, name, NAME_LEN)`. -/
def setDentryName (e : Dentry) (name : CStr) : Fs :=
  s.setBlk e.dev e.blk (strncpy (s.blk e.dev e.blk) (e.off + 2) name nameLen)

/-- `inode->count++`. -/
def addCount (i : ℕ) : Fs :=
  s.setInode i { s.inodeTable i with count := u32 ((s.inodeTable i).count + 1) }

end Fs

/-- `iput`, which does nothing with a null pointer. -/
def iputOpt (s : Fs) : Option ℕ → Option Fs
  | none => some s
  | some i => iput s i

/-- The block of entry `i` of a directory. It is looked up when `entry` is at the end of a
buffer, which is every 64 entries; `block` is that of the entry before. -/
def entryBlock (s : Fs) (dir i block : ℕ) (create : Bool) : Option (ℕ × Fs) := do
  if i % blockDentries = 0 then
    let (block, s) ← bmap s dir (i / blockDentries) create
    assert (block ≠ 0)
    return (block, s)
  return (block, s)

/-- The loop of `find_entry` from entry `i` on, with `left` entries to go. -/
def findEntryLoop (dir : ℕ) (name : CStr) : ℕ → ℕ → ℕ → Fs → Option (Option (Dentry × CStr) × Fs)
  | 0, _, _, s => some (none, s)
  | left + 1, i, block, s => do
      let (block, s) ← entryBlock s dir i block false
      let entry : Dentry := ⟨(s.inodeTable dir).dev, block, i % blockDentries * 16⟩
      match matchName (s.blk entry.dev entry.blk) name (entry.off + 2) with
      | some next =>
          if s.dentryNr entry ≠ 0 then
            return (some (entry, next), s)
          findEntryLoop dir name left (i + 1) block s
      | none => findEntryLoop dir name left (i + 1) block s

/-- The first statement of `find_entry`: `..` of a mounted root is looked up in the directory
the root is mounted on. -/
def crossMount (s : Fs) (dir : ℕ) (name : CStr) : Option (ℕ × Fs) := do
  if (matchName dotDot name 0).isSome ∧ (s.inodeTable dir).nr = 1 then
    let sb ← s.getSuper (s.inodeTable dir).dev
    let imount ← (s.superTable sb).imount
    let s ← iput (s.addCount imount) dir
    return (imount, s)
  return (dir, s)

/-- `find_entry`: the directory `*dir` in the end, and the entry with `*next`. -/
def findEntry (s : Fs) (dir : ℕ) (name : CStr) :
    Option (ℕ × Option (Dentry × CStr) × Fs) := do
  assert (isDir (s.inodeDesc dir).mode)
  let (dir, s) ← crossMount s dir name
  let entries := (s.inodeDesc dir).size / 16
  let (result, s) ← findEntryLoop dir name entries 0 0 s
  return (dir, result, s)

theorem findEntry_some {s t : Fs} {dir d : ℕ} {name : CStr} {r : Option (Dentry × CStr)}
    (h : findEntry s dir name = some (d, r, t)) :
    isDir (s.inodeDesc dir).mode = true ∧ ∃ s', crossMount s dir name = some (d, s') ∧
      findEntryLoop d name ((s'.inodeDesc d).size / 16) 0 0 s' = some (r, t) := by
  obtain ⟨_, hdir, h⟩ := Option.bind_eq_some_iff.mp h
  obtain ⟨⟨d', s'⟩, hcross, h⟩ := Option.bind_eq_some_iff.mp h
  obtain ⟨⟨r', t'⟩, hloop, h⟩ := Option.bind_eq_some_iff.mp h
  simp only [Option.pure_def, Option.some.injEq, Prod.mk.injEq] at h
  obtain ⟨rfl, rfl, rfl⟩ := h
  exact ⟨assert_eq_some.mp hdir, s', hcross, hloop⟩

/-- In `add_entry`, entry `i` becomes part of the directory if it is behind its end. -/
def growDir (s : Fs) (dir i : ℕ) (entry : Dentry) : Fs :=
  if (s.inodeDesc dir).size ≤ i * 16 then (s.setDentryNr entry 0).setSize dir ((i + 1) * 16) else s

/-- The loop of `add_entry` from entry `i` on. The first entry behind the end is taken, so the
loop makes no more than `left` passes. -/
def addEntryLoop (dir : ℕ) (name : CStr) : ℕ → ℕ → ℕ → Fs → Option (Dentry × Fs)
  | 0, _, _, _ => none
  | left + 1, i, block, s => do
      let (block, s) ← entryBlock s dir i block true
      let entry : Dentry := ⟨(s.inodeTable dir).dev, block, i % blockDentries * 16⟩
      let s := growDir s dir i entry
      if s.dentryNr entry ≠ 0 then
        addEntryLoop dir name left (i + 1) block s
      else
        let s := s.setDentryName entry name
        return (entry, s.setMtime dir s.time)

/-- `add_entry`. Its `find_entry` works on a copy of the pointer `dir`. -/
def addEntry (s : Fs) (dir : ℕ) (name : CStr) : Option (Dentry × Fs) := do
  let (dir, found, s) ← findEntry s dir name
  match found with
  | some (entry, _) => return (entry, s)
  | none =>
      assert ((name.take nameLen).all fun c => !isSeparator c)
      addEntryLoop dir name ((s.inodeDesc dir).size / 16 + 2) 0 0 s

/-! ### Walking -/

/-- `P_EXEC`. -/
def pExec : ℕ := 1

/-- `P_WRITE`. -/
def pWrite : ℕ := 2

/-- `KERNEL_USER`. -/
def kernelUser : ℕ := 0

/-- What `permission` tests of a task and a descriptor. -/
def permits (task : Task) (desc : InodeDesc) (mask : ℕ) : Bool :=
  if desc.nlinks = 0 then false
  else if task.uid = kernelUser then true
  else
    let mode :=
      if task.uid = desc.uid then desc.mode >>> 6
      else if task.gid = desc.gid then desc.mode >>> 3
      else desc.mode
    mode &&& mask &&& 7 == mask

/-- `permission`. -/
def permission (s : Fs) (i mask : ℕ) : Bool := permits s.task (s.inodeDesc i) mask

/-- The loop of `named`. Each pass but the last shortens `left`. -/
def namedLoop (right : CStr) : ℕ → ℕ → CStr → Fs → Option (Option (ℕ × CStr) × Fs)
  | 0, _, _, _ => none
  | passes + 1, inode, left, s => do
      let (inode, found, s) ← findEntry s inode left
      match found with
      | none =>
          let s ← iput s inode
          return (none, s)
      | some (entry, next) =>
          let dev := (s.inodeTable inode).dev
          let s ← iput s inode
          let (inode, s) ← iget s dev (s.dentryNr entry)
          if isDir (s.inodeDesc inode).mode = false ∨ permission s inode pExec = false then
            let s ← iput s inode
            return (none, s)
          if right = next then
            return (some (inode, next), s)
          namedLoop right passes inode next s

/-- `named`: the directory of the last component, and `*next`. -/
def named (s : Fs) (pathname : CStr) : Option (Option (ℕ × CStr) × Fs) :=
  match pathname with
  | [] => some (none, s)
  | c :: path =>
      let (inode, left) := if isSeparator c then (s.task.iroot, path) else (s.task.ipwd, c :: path)
      let s := s.addCount inode
      if left = [] then some (some (inode, left), s)
      else
        match strrsep left with
        | none => some (some (inode, left), s)
        | some right => namedLoop right.tail (left.length + 1) inode left s

/-- `named` from the directory where the walk begins. -/
def namedFrom (s : Fs) (inode : ℕ) (left : CStr) : Option (Option (ℕ × CStr) × Fs) :=
  if left = [] then some (some (inode, left), s.addCount inode)
  else
    match strrsep left with
    | none => some (some (inode, left), s.addCount inode)
    | some right => namedLoop right.tail (left.length + 1) inode left (s.addCount inode)

theorem named_cons (s : Fs) (c : CChar) (path : CStr) : named s (c :: path)
    = if isSeparator c then namedFrom s s.task.iroot path else namedFrom s s.task.ipwd (c :: path) := by
  rw [named]
  cases isSeparator c <;> rfl

theorem namedFrom_of_none {s : Fs} {inode : ℕ} {left : CStr} (h : strrsep left = none) :
    namedFrom s inode left = some (some (inode, left), s.addCount inode) := by
  rw [namedFrom, h]
  exact ite_self _

theorem namedFrom_of_some {s : Fs} {inode : ℕ} {left right : CStr} (h : strrsep left = some right) :
    namedFrom s inode left = namedLoop right.tail (left.length + 1) inode left (s.addCount inode) := by
  have hleft : left ≠ [] := fun hc => by
    rw [hc] at h
    exact absurd h (by simp [strrsep])
  rw [namedFrom, if_neg hleft, h]

/-- `namei`. -/
def namei (s : Fs) (pathname : CStr) : Option (Option ℕ × Fs) := do
  let (dir, s) ← named s pathname
  match dir with
  | none => return (none, s)
  | some (dir, name) =>
      if name = [] then
        return (some dir, s)
      let (dir, found, s) ← findEntry s dir name
      match found with
      | none =>
          let s ← iput s dir
          return (none, s)
      | some (entry, _) =>
          let (inode, s) ← iget s (s.inodeTable dir).dev (s.dentryNr entry)
          let s ← iput s dir
          return (some inode, s)

/-! ### Emptying a file -/

/-- `inode_bfree` for entry `index` of the array at offset `array` of block `buf`. -/
def inodeBfree (dev : ℕ) : ℕ → Fs → ℕ → ℕ → ℕ → Option Fs
  | 0, s, buf, array, index =>
      let zone := (s.blk dev buf).getU16 (array + 2 * index)
      if zone = 0 then some s else bfree s dev zone
  | level + 1, s, buf, array, index =>
      let zone := (s.blk dev buf).getU16 (array + 2 * index)
      if zone = 0 then some s
      else do
        let s ← (List.range blockIndexes).foldlM (fun s i => inodeBfree dev level s zone 0 i) s
        bfree s dev ((s.blk dev buf).getU16 (array + 2 * index))

/-- `inode_truncate`. -/
def inodeTruncate (s : Fs) (i : ℕ) : Option Fs := do
  let mode := (s.inodeDesc i).mode
  if isFile mode = false ∧ isDir mode = false then
    return s
  let node := s.inodeTable i
  let array := node.desc + 14
  let s ← (List.range directBlock).foldlM (fun s k => do
    let s ← inodeBfree node.dev 0 s node.buf array k
    return s.setZone i k 0) s
  let s ← inodeBfree node.dev 1 s node.buf array directBlock
  let s ← inodeBfree node.dev 2 s node.buf array (directBlock + 1)
  let s := (s.setZone i directBlock 0).setZone i (directBlock + 1) 0
  let s := s.setSize i 0
  return s.setMtime i s.time

/-! ### Opening -/

/-- `O_CREAT`. -/
def oCreat : ℕ := 0o100

/-- `O_TRUNC`. -/
def oTrunc : ℕ := 0o1000

/-- `ACC_MODE`. -/
def accMode (flag : ℕ) : ℕ := [4, 2, 6, 7].getD (flag &&& 3) 0

/-- `IFREG`. -/
def ifReg : ℕ := 0o100000

/-- The end of `inode_open`, when it has failed. -/
def openRollback (s : Fs) (dir : ℕ) (inode : Option ℕ) : Option (Option ℕ × Fs) := do
  let s ← iput s dir
  let s ← iputOpt s inode
  return (none, s)

/-- In `inode_open`, an inode opened with `O_TRUNC` is emptied. -/
def openTruncate (s : Fs) (inode flag : ℕ) : Option Fs :=
  if flag &&& oTrunc ≠ 0 then inodeTruncate s inode else some s

/-- `inode_open` from the label `makeup` on. -/
def openMakeup (s : Fs) (dir inode flag : ℕ) : Option (Option ℕ × Fs) := do
  if permission s inode (accMode flag) = false then
    openRollback s dir (some inode)
  else if isDir (s.inodeDesc inode).mode ∧ flag &&& 3 ≠ 0 then
    openRollback s dir (some inode)
  else
    let s := s.setAtime inode s.time
    let s ← openTruncate s inode flag
    let s ← iput s dir
    return (some inode, s)

/-- `inode_open` for a name that is not there. -/
def openCreate (s : Fs) (dir : ℕ) (name : CStr) (flag mode : ℕ) : Option (Option ℕ × Fs) := do
  if flag &&& oCreat = 0 then
    openRollback s dir none
  else if permission s dir pWrite = false then
    openRollback s dir none
  else
    let (entry, s) ← addEntry s dir name
    let dev := (s.inodeTable dir).dev
    let (nr, s) ← ialloc s dev
    let s := s.setDentryNr entry nr
    let (inode, s) ← newInode s dev (s.dentryNr entry)
    let s := s.setMode inode (mode &&& newMode s ||| ifReg)
    openMakeup s dir inode flag

/-- `inode_open`. -/
def inodeOpen (s : Fs) (pathname : CStr) (flag mode : ℕ) : Option (Option ℕ × Fs) := do
  let (dir, s) ← named s pathname
  match dir with
  | none => return (none, s)
  | some (dir, name) =>
      if name = [] then
        return (some dir, s)
      let flag := if flag &&& oTrunc ≠ 0 ∧ flag &&& 3 = 0 then flag ||| 2 else flag
      let (dir, found, s) ← findEntry s dir name
      match found with
      | some (entry, _) =>
          let (inode, s) ← iget s (s.inodeTable dir).dev (s.dentryNr entry)
          openMakeup s dir inode flag
      | none => openCreate s dir name flag mode

end Onixs
