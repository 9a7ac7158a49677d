import Onixs.Fs.Mount

/-!
# Making names

The calls of `fs/namei.c` that store a directory entry: `sys_link`, `sys_mkdir` and
`sys_mknod`. What they have taken they give back behind the label `rollback`, also when
nothing has failed (`Onixs.nameRollback`). They move counts of inodes and write blocks;
the super blocks and the mounts stay as they are.
-/

namespace Onixs

open Bytes

/-- `ISCHR`. -/
def isChr (mode : ℕ) : Bool := mode &&& 0o170000 == 0o020000

/-- `IFDIR`. -/
def ifDir : ℕ := 0o040000

/-! ### The functions -/

/-- The label `rollback`, with the value of `ret`. -/
def nameRollback (s : Fs) (inode dir : Option ℕ) (ret : ℤ) : Option (ℤ × Fs) := do
  let s ← iputOpt s inode
  let s ← iputOpt s dir
  return (ret, s)

/-- The end of `sys_link`: the entry, and one link more. -/
def linkEntry (s : Fs) (inode dir : ℕ) (name : CStr) : Option (ℤ × Fs) := do
  let (entry, s) ← addEntry s dir name
  let s := s.setDentryNr entry (s.inodeTable inode).nr
  let s := s.setNlinks inode ((s.inodeDesc inode).nlinks + 1)
  let s := s.setInode inode { s.inodeTable inode with ctime := s.time }
  nameRollback s (some inode) (some dir) 0

/-- `sys_link`, which looks the new name up twice. -/
def sysLink (s : Fs) (oldname newname : CStr) : Option (ℤ × Fs) := do
  let (inode, s) ← namei s oldname
  match inode with
  | none => nameRollback s none none (-1)
  | some inode =>
      if isDir (s.inodeDesc inode).mode then
        nameRollback s (some inode) none (-1)
      else
        let (dir, s) ← named s newname
        match dir with
        | none => nameRollback s (some inode) none (-1)
        | some (dir, name) =>
            if name = [] ∨ (s.inodeTable dir).dev ≠ (s.inodeTable inode).dev ∨ permission s dir pWrite = false then
              nameRollback s (some inode) (some dir) (-1)
            else
              let (dir, found, s) ← findEntry s dir name
              if found.isSome then
                nameRollback s (some inode) (some dir) (-1)
              else
                let (dir, found, s) ← findEntry s dir name
                if found.isSome then
                  nameRollback s (some inode) (some dir) (-1)
                else linkEntry s inode dir name

/-- A new entry of a directory with a new inode. -/
def newEntry (s : Fs) (dir : ℕ) (name : CStr) : Option (ℕ × Fs) := do
  let (entry, s) ← addEntry s dir name
  let dev := (s.inodeTable dir).dev
  let (nr, s) ← ialloc s dev
  let s := s.setDentryNr entry nr
  newInode s dev (s.dentryNr entry)

/-- What `sys_mknod` stores in the new inode; only a device has a number. -/
def setNode (s : Fs) (inode mode dev : ℕ) : Fs :=
  let s := s.setMode inode mode
  if isBlk mode || isChr mode then s.setZone inode 0 dev else s

/-- `sys_mknod`. -/
def sysMknod (s : Fs) (filename : CStr) (mode dev : ℕ) : Option (ℤ × Fs) := do
  let (dir, s) ← named s filename
  match dir with
  | none => nameRollback s none none (-1)
  | some (dir, name) =>
      if name = [] ∨ permission s dir pWrite = false then
        nameRollback s none (some dir) (-1)
      else
        let (dir, found, s) ← findEntry s dir name
        if found.isSome then
          nameRollback s none (some dir) (-1)
        else
          let (inode, s) ← newEntry s dir name
          nameRollback (setNode s inode mode dev) (some inode) (some dir) 0

/-- The two entries of a new directory. Both get the number of the directory it is in. -/
def mkdirEntries (d : Bytes) (nr : ℕ) : Bytes :=
  let d := (strcpy d 2 [0x2E]).putU16 0 nr
  (strcpy d 18 [0x2E, 0x2E]).putU16 16 nr

/-- The end of `sys_mkdir`: the new directory. -/
def mkdirEntry (s : Fs) (dir : ℕ) (name : CStr) (mode : ℕ) : Option (ℤ × Fs) := do
  let (inode, s) ← newEntry s dir name
  let s := s.setMode inode (mode &&& newMode s ||| ifDir)
  let s := s.setSize inode 32
  let s := s.setNlinks inode 2
  let s := s.setNlinks dir ((s.inodeDesc dir).nlinks + 1)
  let dev := (s.inodeTable inode).dev
  let (zone, s) ← bmap s inode 0 true
  let s := s.setBlk dev zone (mkdirEntries (s.blk dev zone) (s.inodeTable dir).nr)
  nameRollback s (some inode) (some dir) 0

/-- `sys_mkdir`. -/
def sysMkdir (s : Fs) (pathname : CStr) (mode : ℕ) : Option (ℤ × Fs) := do
  let (dir, s) ← named s pathname
  match dir with
  | none => nameRollback s none none (-1)
  | some (dir, name) =>
      if name = [] ∨ permission s dir pWrite = false then
        nameRollback s none (some dir) (-1)
      else
        let (dir, found, s) ← findEntry s dir name
        if found.isSome then
          nameRollback s none (some dir) (-1)
        else mkdirEntry s dir name mode

/-! ### The super blocks and the mounts -/

namespace SameMounts

variable {s t u : Fs} {i dir : ℕ} {name : CStr} {ret r : ℤ}

theorem addEntry {e : Dentry} (hrun : addEntry s dir name = some (e, t)) : SameMounts s t := by
  obtain ⟨⟨d, found, u⟩, hfind, hrun⟩ := Option.bind_eq_some_iff.mp hrun
  have hsame := findEntry hfind
  cases found with
  | some p =>
    obtain ⟨-, rfl⟩ := Prod.mk.inj (Option.some.inj hrun)
    exact hsame
  | none =>
    obtain ⟨_, -, hrun⟩ := Option.bind_eq_some_iff.mp hrun
    exact hsame.trans (of_blocks (addEntryLoop_onlyBlocks _ _ _ _ hrun))

theorem newInode {d nr j : ℕ} (hrun : newInode s d nr = some (j, t)) : SameMounts s t := by
  obtain ⟨⟨i, u⟩, hget, hrun⟩ := Option.bind_eq_some_iff.mp hrun
  obtain ⟨rfl, rfl⟩ := Prod.mk.inj (Option.some.inj hrun)
  have hblocks : ∀ v : Fs, SameMounts u v → ∀ dev b d, SameMounts u (v.setBlk dev b d) := fun v hv dev b d =>
    hv.trans (of_blocks (OnlyBlocks.setBlk v dev b d))
  refine (iget hget).trans (hblocks _ (hblocks _ (hblocks _ ?_ _ _ _) _ _ _) _ _ _)
  exact (hblocks _ (hblocks _ (hblocks _ (refl u) _ _ _) _ _ _) _ _ _).trans (setInode rfl)

theorem nameRollback {inode d : Option ℕ} (hrun : nameRollback s inode d ret = some (r, t)) : SameMounts s t := by
  obtain ⟨u, hput, hrun⟩ := Option.bind_eq_some_iff.mp hrun
  obtain ⟨v, hput', hrun⟩ := Option.bind_eq_some_iff.mp hrun
  obtain ⟨-, rfl⟩ := Prod.mk.inj (Option.some.inj hrun)
  exact (iputOpt hput).trans (iputOpt hput')

theorem setBlk (s : Fs) (dev b : ℕ) (d : Bytes) : SameMounts s (s.setBlk dev b d) :=
  of_blocks (OnlyBlocks.setBlk s dev b d)

theorem newEntry {j : ℕ} (hrun : newEntry s dir name = some (j, t)) : SameMounts s t := by
  obtain ⟨⟨e, u⟩, hadd, hrun⟩ := Option.bind_eq_some_iff.mp hrun
  obtain ⟨⟨nr, v⟩, halloc, hrun⟩ := Option.bind_eq_some_iff.mp hrun
  exact (((addEntry hadd).trans (of_blocks (ialloc_onlyBlocks halloc))).trans (setBlk v _ _ _)).trans
    (newInode hrun)

theorem linkEntry {dir : ℕ} (hrun : linkEntry s i dir name = some (r, t)) : SameMounts s t := by
  obtain ⟨⟨e, u⟩, hadd, hrun⟩ := Option.bind_eq_some_iff.mp hrun
  refine (addEntry hadd).trans (SameMounts.trans ?_ (nameRollback hrun))
  exact ((setBlk u _ _ _).trans (setBlk _ _ _ _)).trans (setInode rfl)

theorem setNode (s : Fs) (i mode dev : ℕ) : SameMounts s (setNode s i mode dev) := by
  rw [Onixs.setNode]
  split
  · exact (setBlk s _ _ _).trans (setBlk _ _ _ _)
  · exact setBlk s _ _ _

theorem sysMknod {path : CStr} {mode dev : ℕ} (hrun : sysMknod s path mode dev = some (r, t)) :
    SameMounts s t := by
  obtain ⟨⟨d, u⟩, hname, hrun⟩ := Option.bind_eq_some_iff.mp hrun
  have h₁ := named hname
  cases d with
  | none => exact h₁.trans (nameRollback hrun)
  | some p =>
    simp only at hrun
    split at hrun
    · exact h₁.trans (nameRollback hrun)
    · obtain ⟨⟨d', found, v⟩, hfind, hrun⟩ := Option.bind_eq_some_iff.mp hrun
      have h₂ := h₁.trans (findEntry hfind)
      simp only at hrun
      split at hrun
      · exact h₂.trans (nameRollback hrun)
      · obtain ⟨⟨j, w⟩, hnew, hrun⟩ := Option.bind_eq_some_iff.mp hrun
        exact ((h₂.trans (newEntry hnew)).trans (setNode w j mode dev)).trans (nameRollback hrun)

theorem mkdirEntry {mode : ℕ} (hrun : mkdirEntry s dir name mode = some (r, t)) : SameMounts s t := by
  obtain ⟨⟨j, u⟩, hnew, hrun⟩ := Option.bind_eq_some_iff.mp hrun
  obtain ⟨⟨zone, v⟩, hmap, hrun⟩ := Option.bind_eq_some_iff.mp hrun
  refine (newEntry hnew).trans (SameMounts.trans ?_ (nameRollback hrun))
  refine SameMounts.trans ?_ ((of_blocks (bmap_onlyBlocks hmap)).trans (setBlk v _ _ _))
  exact (((setBlk u _ _ _).trans (setBlk _ _ _ _)).trans (setBlk _ _ _ _)).trans (setBlk _ _ _ _)

theorem sysMkdir {path : CStr} {mode : ℕ} (hrun : sysMkdir s path mode = some (r, t)) : SameMounts s t := by
  obtain ⟨⟨d, u⟩, hname, hrun⟩ := Option.bind_eq_some_iff.mp hrun
  have h₁ := named hname
  cases d with
  | none => exact h₁.trans (nameRollback hrun)
  | some p =>
    simp only at hrun
    split at hrun
    · exact h₁.trans (nameRollback hrun)
    · obtain ⟨⟨d', found, v⟩, hfind, hrun⟩ := Option.bind_eq_some_iff.mp hrun
      have h₂ := h₁.trans (findEntry hfind)
      simp only at hrun
      split at hrun
      · exact h₂.trans (nameRollback hrun)
      · exact h₂.trans (mkdirEntry hrun)

theorem sysLink {oldname newname : CStr} (hrun : sysLink s oldname newname = some (r, t)) : SameMounts s t := by
  obtain ⟨⟨inode, u⟩, hname, hrun⟩ := Option.bind_eq_some_iff.mp hrun
  have h₁ := namei hname
  cases inode with
  | none => exact h₁.trans (nameRollback hrun)
  | some inode =>
    simp only at hrun
    split at hrun
    · exact h₁.trans (nameRollback hrun)
    · obtain ⟨⟨d, v⟩, hnamed, hrun⟩ := Option.bind_eq_some_iff.mp hrun
      have h₂ := h₁.trans (named hnamed)
      cases d with
      | none => exact h₂.trans (nameRollback hrun)
      | some p =>
        simp only at hrun
        split at hrun
        · exact h₂.trans (nameRollback hrun)
        · obtain ⟨⟨d₁, found, w⟩, hfind, hrun⟩ := Option.bind_eq_some_iff.mp hrun
          have h₃ := h₂.trans (findEntry hfind)
          simp only at hrun
          split at hrun
          · exact h₃.trans (nameRollback hrun)
          · obtain ⟨⟨d₂, found', x⟩, hfind', hrun⟩ := Option.bind_eq_some_iff.mp hrun
            have h₄ := h₃.trans (findEntry hfind')
            simp only at hrun
            split at hrun
            · exact h₄.trans (nameRollback hrun)
            · exact h₄.trans (linkEntry hrun)

end SameMounts

end Onixs
