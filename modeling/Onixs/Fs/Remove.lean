import Onixs.Fs.FailedOpen
import Onixs.Fs.Make

/-!
# Removing names

The calls of `fs/namei.c` that take an entry out of a directory: `sys_unlink`, and `sys_rmdir` with `is_empty`.
With those of `Onixs.Fs.Make` they are the calls that return 0 or `EOF` and work on names (`Onixs.NameCall`). All of
them look everything up before they store anything, so that a call that returns `EOF` changes nothing
(`Onixs.nameCall_failed`).
-/

namespace Onixs

open Bytes

/-- `ISVTX`. -/
def isVtx : ℕ := 0o1000

/-! ### The functions -/

/-- The end of `sys_unlink`: the entry goes, and with the last link the file. -/
def unlinkEntry (s : Fs) (inode dir : ℕ) (entry : Dentry) : Option (ℤ × Fs) := do
  let s := s.setDentryNr entry 0
  let s := s.setNlinks inode ((s.inodeDesc inode).nlinks + 255)
  if (s.inodeDesc inode).nlinks = 0 then
    let s ← inodeTruncate s inode
    let s ← ifree s (s.inodeTable inode).dev (s.inodeTable inode).nr
    nameRollback s (some inode) (some dir) 0
  else
    nameRollback s (some inode) (some dir) 0

/-- `sys_unlink`. Without links the file is only reported. -/
def sysUnlink (s : Fs) (filename : CStr) : Option (ℤ × Fs) := do
  let (dir, s) ← named s filename
  match dir with
  | none => nameRollback s none none (-1)
  | some (dir, name) =>
      if name = [] ∨ permission s dir pWrite = false then
        nameRollback s none (some dir) (-1)
      else
        let (dir, found, s) ← findEntry s dir name
        match found with
        | none => nameRollback s none (some dir) (-1)
        | some (entry, _) =>
            let (inode, s) ← iget s (s.inodeTable dir).dev (s.dentryNr entry)
            let desc := s.inodeDesc inode
            if isDir desc.mode = true ∨ desc.mode &&& isVtx ≠ 0 ∧ s.task.uid ≠ desc.uid then
              nameRollback s (some inode) (some dir) (-1)
            else unlinkEntry s inode dir entry

/-- The loop of `is_empty` from entry `i` on, with `left` entries to go: how many are in use. -/
def isEmptyLoop (inode : ℕ) : ℕ → ℕ → ℕ → ℕ → Fs → Option (ℕ × Fs)
  | 0, _, _, count, s => some (count, s)
  | left + 1, i, block, count, s => do
      let (block, s) ← entryBlock s inode i block false
      let entry : Dentry := ⟨(s.inodeTable inode).dev, block, i % blockDentries * 16⟩
      isEmptyLoop inode left (i + 1) block (if s.dentryNr entry ≠ 0 then count + 1 else count) s

/-- `is_empty`. A directory with fewer than two entries in use is reported, and is not empty. -/
def isEmpty (s : Fs) (inode : ℕ) : Option (Bool × Fs) := do
  assert (isDir (s.inodeDesc inode).mode)
  let entries := (s.inodeDesc inode).size / 16
  if entries < 2 ∨ (s.inodeDesc inode).zone 0 = 0 then
    return (false, s)
  let (count, s) ← isEmptyLoop inode entries 0 0 0 s
  if count < 2 then
    return (false, s)
  return (count == 2, s)

/-- The end of `sys_rmdir`: the directory goes, and its entry. -/
def removeDir (s : Fs) (inode dir : ℕ) (entry : Dentry) : Option (ℤ × Fs) := do
  assert ((s.inodeDesc inode).nlinks = 2)
  let s ← inodeTruncate s inode
  let s ← ifree s (s.inodeTable inode).dev (s.inodeTable inode).nr
  let s := s.setNlinks inode 0
  let s := s.setInode inode { s.inodeTable inode with nr := 0 }
  let s := s.setNlinks dir ((s.inodeDesc dir).nlinks + 255)
  let s := s.setInode dir { s.inodeTable dir with ctime := s.time, atime := s.time }
  let s := s.setMtime dir s.time
  assert (0 < (s.inodeDesc dir).nlinks)
  nameRollback (s.setDentryNr entry 0) (some inode) (some dir) 0

/-- What `sys_rmdir` refuses, but for directories that are not empty. -/
def refusesRmdir (s : Fs) (inode dir : ℕ) : Prop :=
  inode = dir ∨ isDir (s.inodeDesc inode).mode = false ∨
    ((s.inodeDesc dir).mode &&& isVtx ≠ 0 ∧ s.task.uid ≠ (s.inodeDesc inode).uid) ∨
    (s.inodeTable dir).dev ≠ (s.inodeTable inode).dev ∨ 1 < (s.inodeTable inode).count

instance (s : Fs) (inode dir : ℕ) : Decidable (refusesRmdir s inode dir) :=
  inferInstanceAs (Decidable (_ ∨ _ ∨ _ ∨ _ ∨ _))

/-- `sys_rmdir`. -/
def sysRmdir (s : Fs) (pathname : CStr) : Option (ℤ × Fs) := do
  let (dir, s) ← named s pathname
  match dir with
  | none => nameRollback s none none (-1)
  | some (dir, name) =>
      if name = [] ∨ permission s dir pWrite = false then
        nameRollback s none (some dir) (-1)
      else
        let (dir, found, s) ← findEntry s dir name
        match found with
        | none => nameRollback s none (some dir) (-1)
        | some (entry, _) =>
            let (inode, s) ← iget s (s.inodeTable dir).dev (s.dentryNr entry)
            if refusesRmdir s inode dir then
              nameRollback s (some inode) (some dir) (-1)
            else
              let (empty, s) ← isEmpty s inode
              if empty = false then
                nameRollback s (some inode) (some dir) (-1)
              else removeDir s inode dir entry

/-- A call that works on names and returns 0 or `EOF`. -/
inductive NameCall where
  /-- `sys_link`. -/
  | link (oldname newname : CStr)
  /-- `sys_unlink`. -/
  | unlink (filename : CStr)
  /-- `sys_mknod`. -/
  | mknod (filename : CStr) (mode dev : ℕ)
  /-- `sys_mkdir`. -/
  | mkdir (pathname : CStr) (mode : ℕ)
  /-- `sys_rmdir`. -/
  | rmdir (pathname : CStr)

/-- The call. -/
def NameCall.run (s : Fs) : NameCall → Option (ℤ × Fs)
  | link oldname newname => sysLink s oldname newname
  | unlink filename => sysUnlink s filename
  | mknod filename mode dev => sysMknod s filename mode dev
  | mkdir pathname mode => sysMkdir s pathname mode
  | rmdir pathname => sysRmdir s pathname

/-! ### A search stores nothing -/

section Search

variable {s t u : Fs} {dir dev i block : ℕ} {name path : CStr}

theorem bmapEntry_search {buf array index z : ℕ} (h : bmapEntry s dev buf array index false = some (z, t)) : t = s := by
  rw [bmapEntry, if_neg (fun hc => Bool.noConfusion hc.2)] at h
  exact (Prod.mk.inj (Option.some.inj h)).2.symm

theorem bmapLoop_search {z : ℕ} : ∀ level (s : Fs) buf array index block divider,
    bmapLoop dev false level s buf array index block divider = some (z, t) → t = s := by
  intro level
  induction level with
  | zero => exact fun s buf array index _ _ h => bmapEntry_search h
  | succ level ih =>
    intro s buf array index block divider h
    obtain ⟨⟨zone, s'⟩, hentry, hrest⟩ := Option.bind_eq_some_iff.mp h
    obtain rfl := bmapEntry_search hentry
    simp only at hrest
    split at hrest
    · exact (Prod.mk.inj (Option.some.inj hrest)).2.symm
    · exact ih _ _ _ _ _ _ hrest

/-- **`bmap` without `create`** changes nothing. -/
theorem bmap_search {z : ℕ} (h : bmap s i block false = some (z, t)) : t = s := by
  rw [bmap] at h
  obtain ⟨_, -, h⟩ := Option.bind_eq_some_iff.mp h
  simp only at h
  split at h
  · exact bmapLoop_search _ _ _ _ _ _ _ h
  · split at h
    · exact bmapLoop_search _ _ _ _ _ _ _ h
    · obtain ⟨_, -, h⟩ := Option.bind_eq_some_iff.mp h
      exact bmapLoop_search _ _ _ _ _ _ _ h

theorem entryBlock_search {z : ℕ} (h : entryBlock s dir i block false = some (z, t)) : t = s := by
  rw [entryBlock] at h
  split at h
  · obtain ⟨⟨b, s'⟩, hmap, h⟩ := Option.bind_eq_some_iff.mp h
    obtain ⟨_, -, h⟩ := Option.bind_eq_some_iff.mp h
    obtain ⟨-, rfl⟩ := Prod.mk.inj (Option.some.inj h)
    exact bmap_search hmap
  · exact (Prod.mk.inj (Option.some.inj h)).2.symm

theorem findEntryLoop_search {r : Option (Dentry × CStr)} : ∀ left i block (s : Fs),
    findEntryLoop dir name left i block s = some (r, t) → t = s := by
  intro left
  induction left with
  | zero => exact fun i block s h => (Prod.mk.inj (Option.some.inj h)).2.symm
  | succ left ih =>
    intro i block s h
    obtain ⟨⟨b, s'⟩, hblock, hrest⟩ := Option.bind_eq_some_iff.mp h
    obtain rfl := entryBlock_search hblock
    simp only at hrest
    split at hrest
    · split at hrest
      · exact (Prod.mk.inj (Option.some.inj hrest)).2.symm
      · exact ih _ _ _ hrest
    · exact ih _ _ _ hrest

theorem isEmptyLoop_search {r : ℕ} : ∀ left i block count (s : Fs),
    isEmptyLoop dir left i block count s = some (r, t) → t = s := by
  intro left
  induction left with
  | zero => exact fun i block count s h => (Prod.mk.inj (Option.some.inj h)).2.symm
  | succ left ih =>
    intro i block count s h
    obtain ⟨⟨b, s'⟩, hblock, hrest⟩ := Option.bind_eq_some_iff.mp h
    obtain rfl := entryBlock_search hblock
    exact ih _ _ _ _ hrest

/-- **`is_empty` changes nothing.** -/
theorem isEmpty_search {empty : Bool} (h : isEmpty s i = some (empty, t)) : t = s := by
  obtain ⟨_, -, h⟩ := Option.bind_eq_some_iff.mp h
  simp only at h
  split at h
  · exact (Prod.mk.inj (Option.some.inj h)).2.symm
  · obtain ⟨⟨count, u⟩, hloop, hrest⟩ := Option.bind_eq_some_iff.mp h
    obtain rfl := isEmptyLoop_search _ _ _ _ _ hloop
    simp only at hrest
    split at hrest
    · exact (Prod.mk.inj (Option.some.inj hrest)).2.symm
    · exact (Prod.mk.inj (Option.some.inj hrest)).2.symm

theorem iputOpt_blk {o : Option ℕ} (h : iputOpt s o = some t) : t.blk = s.blk := by
  cases o with
  | none => exact Option.some.inj h ▸ rfl
  | some i => exact iput_blk h

theorem findEntry_blk {d : ℕ} {r : Option (Dentry × CStr)} (h : findEntry s dir name = some (d, r, t)) :
    t.blk = s.blk := by
  obtain ⟨-, u, hcross, hloop⟩ := findEntry_some h
  obtain rfl := findEntryLoop_search _ _ _ _ hloop
  rw [crossMount] at hcross
  split at hcross
  · obtain ⟨k, -, hcross⟩ := Option.bind_eq_some_iff.mp hcross
    obtain ⟨m, -, hcross⟩ := Option.bind_eq_some_iff.mp hcross
    obtain ⟨v, hput, hcross⟩ := Option.bind_eq_some_iff.mp hcross
    obtain ⟨-, rfl⟩ := Prod.mk.inj (Option.some.inj hcross)
    exact (iput_blk hput).trans (Fs.setInode_blk s m _)
  · exact (Prod.mk.inj (Option.some.inj hcross)).2 ▸ rfl

theorem namedLoop_blk {right : CStr} {r : Option (ℕ × CStr)} : ∀ passes inode left (s : Fs),
    namedLoop right passes inode left s = some (r, t) → t.blk = s.blk := by
  intro passes
  induction passes with
  | zero => exact fun inode left s h => absurd h (by simp [namedLoop])
  | succ passes ih =>
    intro inode left s h
    obtain ⟨⟨d, found, s₁⟩, hfind, h⟩ := Option.bind_eq_some_iff.mp h
    have h₁ := findEntry_blk hfind
    cases found with
    | none =>
      obtain ⟨s₂, hput, h⟩ := Option.bind_eq_some_iff.mp h
      obtain ⟨-, rfl⟩ := Prod.mk.inj (Option.some.inj h)
      exact (iput_blk hput).trans h₁
    | some e =>
      obtain ⟨s₂, hput, h⟩ := Option.bind_eq_some_iff.mp h
      obtain ⟨⟨i, s₃⟩, hget, h⟩ := Option.bind_eq_some_iff.mp h
      have h₃ := ((iget_blk hget).trans (iput_blk hput)).trans h₁
      simp only at h
      split at h
      · obtain ⟨s₄, hput', h⟩ := Option.bind_eq_some_iff.mp h
        obtain ⟨-, rfl⟩ := Prod.mk.inj (Option.some.inj h)
        exact (iput_blk hput').trans h₃
      · split at h
        · exact (Prod.mk.inj (Option.some.inj h)).2 ▸ h₃
        · exact (ih _ _ _ h).trans h₃

/-- **`named` stores nothing.** -/
theorem named_blk {r : Option (ℕ × CStr)} (h : named s path = some (r, t)) : t.blk = s.blk := by
  have hfrom : ∀ i left, namedFrom s i left = some (r, t) → t.blk = s.blk := by
    intro i left h
    cases hsep : strrsep left with
    | none =>
      rw [namedFrom_of_none hsep] at h
      exact (Prod.mk.inj (Option.some.inj h)).2 ▸ rfl
    | some right =>
      rw [namedFrom_of_some hsep] at h
      exact (namedLoop_blk _ _ _ _ h).trans (Fs.setInode_blk s i _)
  cases path with
  | nil => exact (Prod.mk.inj (Option.some.inj h)).2 ▸ rfl
  | cons c path =>
    rw [named_cons] at h
    split at h
    · exact hfrom _ _ h
    · exact hfrom _ _ h

/-- **`namei` stores nothing.** -/
theorem namei_blk {r : Option ℕ} (h : namei s path = some (r, t)) : t.blk = s.blk := by
  obtain ⟨⟨d, s₁⟩, hnamed, h⟩ := Option.bind_eq_some_iff.mp h
  have h₁ := named_blk hnamed
  cases d with
  | none => exact (Prod.mk.inj (Option.some.inj h)).2 ▸ h₁
  | some p =>
    simp only at h
    split at h
    · exact (Prod.mk.inj (Option.some.inj h)).2 ▸ h₁
    · obtain ⟨⟨d', found, s₂⟩, hfind, h⟩ := Option.bind_eq_some_iff.mp h
      have h₂ := (findEntry_blk hfind).trans h₁
      cases found with
      | none =>
        obtain ⟨s₃, hput, h⟩ := Option.bind_eq_some_iff.mp h
        obtain ⟨-, rfl⟩ := Prod.mk.inj (Option.some.inj h)
        exact (iput_blk hput).trans h₂
      | some e =>
        obtain ⟨⟨i, s₃⟩, hget, h⟩ := Option.bind_eq_some_iff.mp h
        obtain ⟨s₄, hput, h⟩ := Option.bind_eq_some_iff.mp h
        obtain ⟨-, rfl⟩ := Prod.mk.inj (Option.some.inj h)
        exact ((iput_blk hput).trans (iget_blk hget)).trans h₂

end Search

/-! ### Calls that fail -/

/-- **From `s` to `t` something has been looked up**, and the inodes of `L` are held. -/
structure Searched (s t : Fs) (L : List ℕ) : Prop where
  /-- The references and the super blocks. -/
  inv : Holding s.counts s t L ∧ OnlyLists s t
  /-- The blocks. -/
  blk : t.blk = s.blk

/-- **What the calls rely on**: the tables are in order, and there is room for what a call holds at one time. -/
structure CallReady (s : Fs) : Prop where
  /-- The inode table. -/
  table : TableOk s
  /-- The super blocks. -/
  pinned : Pinned s.counts s
  /-- The directories of the running task. -/
  dirs : TaskDirs s.counts s.task
  /-- The counters. -/
  room : Room s.counts 3

/-- **A call that returns `EOF`** has changed nothing. -/
def Failed (s t : Fs) (r : ℤ) : Prop := r = -1 ∧ Untouched s t ∧ t.blk = s.blk

theorem nameRollback_ret {s t : Fs} {inode dir : Option ℕ} {ret r : ℤ} (h : nameRollback s inode dir ret = some (r, t)) :
    r = ret := by
  obtain ⟨u, -, h⟩ := Option.bind_eq_some_iff.mp h
  obtain ⟨v, -, h⟩ := Option.bind_eq_some_iff.mp h
  exact (Prod.mk.inj (Option.some.inj h)).1.symm

theorem unlinkEntry_ret {s t : Fs} {inode dir : ℕ} {entry : Dentry} {r : ℤ}
    (h : unlinkEntry s inode dir entry = some (r, t)) : r = 0 := by
  simp only [unlinkEntry] at h
  split at h
  · obtain ⟨u, -, h⟩ := Option.bind_eq_some_iff.mp h
    obtain ⟨v, -, h⟩ := Option.bind_eq_some_iff.mp h
    exact nameRollback_ret h
  · exact nameRollback_ret h

theorem removeDir_ret {s t : Fs} {inode dir : ℕ} {entry : Dentry} {r : ℤ}
    (h : removeDir s inode dir entry = some (r, t)) : r = 0 := by
  obtain ⟨_, -, h⟩ := Option.bind_eq_some_iff.mp h
  obtain ⟨u, -, h⟩ := Option.bind_eq_some_iff.mp h
  obtain ⟨v, -, h⟩ := Option.bind_eq_some_iff.mp h
  obtain ⟨_, -, h⟩ := Option.bind_eq_some_iff.mp h
  exact nameRollback_ret h

section Failed

variable {s t u : Fs} {L : List ℕ} {i d : ℕ} {name path : CStr} {ret r : ℤ} (h : CallReady s)

include h

theorem CallReady.start : Searched s s [] := ⟨⟨.refl h.table, .of_superTable rfl⟩, rfl⟩

theorem CallReady.named {dir : Option (ℕ × CStr)} (hs : Searched s t L) (hlen : L.length ≤ 1) (htask : t.task = s.task)
    (hrun : named t path = some (dir, u)) : Searched s u (heldBy dir ++ L) := by
  have hroom : Room s.counts (L.length + 2) := h.room.mono (by omega)
  refine ⟨(carried_onlyLists h.pinned).named h.pinned hroom hs.inv ?_ hrun, (named_blk hrun).trans hs.blk⟩
  rw [htask]
  exact h.dirs

theorem CallReady.findEntry {found : Option (Dentry × CStr)} {dir : ℕ} (hs : Searched s t (d :: L)) (hlen : L.length ≤ 1)
    (hrun : findEntry t d name = some (dir, found, u)) : Searched s u (dir :: L) := by
  have hroom : Room s.counts (L.length + 2) := h.room.mono (by omega)
  exact ⟨(carried_onlyLists h.pinned).findEntry h.pinned hs.inv hroom hrun, (findEntry_blk hrun).trans hs.blk⟩

/-- The inode of an entry is on the device of the directory. -/
theorem CallReady.iget {nr : ℕ} (hs : Searched s t [d]) (hrun : iget t (t.inodeTable d).dev nr = some (i, u)) :
    Searched s u [i, d] := by
  have hdev := hs.inv.1.dev_ne List.mem_cons_self
  exact ⟨(carried_onlyLists h.pinned).iget (L := [d]) hs.inv (h.room.mono (Nat.le_succ 2)) hdev hrun,
    (iget_blk hrun).trans hs.blk⟩

/-- **The rollback gives everything back.** -/
theorem CallReady.rollback (inode dir : Option ℕ) (hs : Searched s t (inode.toList ++ dir.toList))
    (hrun : nameRollback t inode dir (-1) = some (r, u)) : Failed s u r := by
  obtain ⟨v, hput, hrun⟩ := Option.bind_eq_some_iff.mp hrun
  obtain ⟨w, hput', hrun⟩ := Option.bind_eq_some_iff.mp hrun
  obtain ⟨rfl, rfl⟩ := Prod.mk.inj (Option.some.inj hrun)
  have hinv := carried_onlyLists h.pinned
  have hlen : dir.toList.length + 1 ≤ 3 := by
    cases dir with
    | none => exact Nat.le_add_left 1 2
    | some d => exact Nat.le_succ 2
  have hv := hinv.iputOpt hs.inv (h.room.mono hlen) hput
  have hw := hinv.iputOpt (L := []) (by rwa [List.append_nil]) (h.room.mono (by decide)) hput'
  have hblk : w.blk = s.blk := ((iputOpt_blk hput').trans (iputOpt_blk hput)).trans hs.blk
  refine ⟨rfl, .of_blk hblk hw.2 fun j => ?_, hblk⟩
  exact (hw.1.count j).trans (by rw [List.count_nil, Nat.add_zero])

/-- `sys_unlink` returns `EOF` behind a rollback, or goes on to take the entry out. -/
theorem CallReady.sysUnlink (hrun : sysUnlink s path = some (r, t)) : Failed s t r ∨ r = 0 := by
  obtain ⟨⟨dir, s₁⟩, hnamed, hrun⟩ := Option.bind_eq_some_iff.mp hrun
  have h₁ := h.named h.start (Nat.zero_le 1) rfl hnamed
  cases dir with
  | none => exact Or.inl (h.rollback none none h₁ hrun)
  | some p =>
    simp only at hrun
    split at hrun
    · exact Or.inl (h.rollback none (some p.1) h₁ hrun)
    · obtain ⟨⟨d, found, s₂⟩, hfind, hrun⟩ := Option.bind_eq_some_iff.mp hrun
      have h₂ := h.findEntry (L := []) h₁ (Nat.zero_le 1) hfind
      cases found with
      | none => exact Or.inl (h.rollback none (some d) h₂ hrun)
      | some e =>
        obtain ⟨⟨i, s₃⟩, hget, hrun⟩ := Option.bind_eq_some_iff.mp hrun
        simp only at hrun
        split at hrun
        · exact Or.inl (h.rollback (some i) (some d) (h.iget h₂ hget) hrun)
        · exact Or.inr (unlinkEntry_ret hrun)

/-- `sys_rmdir` returns `EOF` behind a rollback, or goes on to take the directory out. -/
theorem CallReady.sysRmdir (hrun : sysRmdir s path = some (r, t)) : Failed s t r ∨ r = 0 := by
  obtain ⟨⟨dir, s₁⟩, hnamed, hrun⟩ := Option.bind_eq_some_iff.mp hrun
  have h₁ := h.named h.start (Nat.zero_le 1) rfl hnamed
  cases dir with
  | none => exact Or.inl (h.rollback none none h₁ hrun)
  | some p =>
    simp only at hrun
    split at hrun
    · exact Or.inl (h.rollback none (some p.1) h₁ hrun)
    · obtain ⟨⟨d, found, s₂⟩, hfind, hrun⟩ := Option.bind_eq_some_iff.mp hrun
      have h₂ := h.findEntry (L := []) h₁ (Nat.zero_le 1) hfind
      cases found with
      | none => exact Or.inl (h.rollback none (some d) h₂ hrun)
      | some e =>
        obtain ⟨⟨i, s₃⟩, hget, hrun⟩ := Option.bind_eq_some_iff.mp hrun
        have h₃ := h.iget h₂ hget
        simp only at hrun
        split at hrun
        · exact Or.inl (h.rollback (some i) (some d) h₃ hrun)
        · obtain ⟨⟨empty, s₄⟩, hempty, hrest⟩ := Option.bind_eq_some_iff.mp hrun
          obtain rfl := isEmpty_search hempty
          simp only at hrest
          split at hrest
          · exact Or.inl (h.rollback (some i) (some d) h₃ hrest)
          · exact Or.inr (removeDir_ret hrest)

/-- `sys_mknod` returns `EOF` behind a rollback, or goes on to make the entry. -/
theorem CallReady.sysMknod {mode dev : ℕ} (hrun : sysMknod s path mode dev = some (r, t)) : Failed s t r ∨ r = 0 := by
  obtain ⟨⟨dir, s₁⟩, hnamed, hrun⟩ := Option.bind_eq_some_iff.mp hrun
  have h₁ := h.named h.start (Nat.zero_le 1) rfl hnamed
  cases dir with
  | none => exact Or.inl (h.rollback none none h₁ hrun)
  | some p =>
    simp only at hrun
    split at hrun
    · exact Or.inl (h.rollback none (some p.1) h₁ hrun)
    · obtain ⟨⟨d, found, s₂⟩, hfind, hrun⟩ := Option.bind_eq_some_iff.mp hrun
      have h₂ := h.findEntry (L := []) h₁ (Nat.zero_le 1) hfind
      simp only at hrun
      split at hrun
      · exact Or.inl (h.rollback none (some d) h₂ hrun)
      · obtain ⟨⟨i, s₃⟩, -, hrun⟩ := Option.bind_eq_some_iff.mp hrun
        exact Or.inr (nameRollback_ret hrun)

/-- `sys_mkdir` returns `EOF` behind a rollback, or goes on to make the directory. -/
theorem CallReady.sysMkdir {mode : ℕ} (hrun : sysMkdir s path mode = some (r, t)) : Failed s t r ∨ r = 0 := by
  obtain ⟨⟨dir, s₁⟩, hnamed, hrun⟩ := Option.bind_eq_some_iff.mp hrun
  have h₁ := h.named h.start (Nat.zero_le 1) rfl hnamed
  cases dir with
  | none => exact Or.inl (h.rollback none none h₁ hrun)
  | some p =>
    simp only at hrun
    split at hrun
    · exact Or.inl (h.rollback none (some p.1) h₁ hrun)
    · obtain ⟨⟨d, found, s₂⟩, hfind, hrun⟩ := Option.bind_eq_some_iff.mp hrun
      have h₂ := h.findEntry (L := []) h₁ (Nat.zero_le 1) hfind
      simp only at hrun
      split at hrun
      · exact Or.inl (h.rollback none (some d) h₂ hrun)
      · obtain ⟨⟨i, s₃⟩, -, hrun⟩ := Option.bind_eq_some_iff.mp hrun
        obtain ⟨⟨zone, s₄⟩, -, hrun⟩ := Option.bind_eq_some_iff.mp hrun
        exact Or.inr (nameRollback_ret hrun)

/-- `sys_link` returns `EOF` behind a rollback, or goes on to make the entry. -/
theorem CallReady.sysLink {newname : CStr} (hrun : sysLink s path newname = some (r, t)) : Failed s t r ∨ r = 0 := by
  obtain ⟨⟨inode, s₁⟩, hname, hrun⟩ := Option.bind_eq_some_iff.mp hrun
  have h₁ : Searched s s₁ (inode.toList ++ []) := by
    have hroom : Room s.counts 2 := h.room.mono (Nat.le_succ 2)
    exact ⟨(carried_onlyLists h.pinned).namei (L := []) h.pinned hroom h.start.inv h.dirs hname, namei_blk hname⟩
  cases inode with
  | none => exact Or.inl (h.rollback none none h₁ hrun)
  | some i =>
    simp only at hrun
    split at hrun
    · exact Or.inl (h.rollback (some i) none h₁ hrun)
    · obtain ⟨⟨dir, s₂⟩, hnamed, hrun⟩ := Option.bind_eq_some_iff.mp hrun
      have h₂ := h.named (L := [i]) h₁ (Nat.le_refl 1) (SameMounts.namei hname).task hnamed
      cases dir with
      | none => exact Or.inl (h.rollback (some i) none h₂ hrun)
      | some p =>
        have hswap : ∀ {u : Fs} {d : ℕ}, Searched s u [d, i] → Searched s u ((some i).toList ++ (some d).toList) :=
          fun hu => ⟨⟨hu.inv.1.perm (List.Perm.swap _ _ _), hu.inv.2⟩, hu.blk⟩
        simp only at hrun
        split at hrun
        · exact Or.inl (h.rollback _ _ (hswap h₂) hrun)
        · obtain ⟨⟨d, found, s₃⟩, hfind, hrun⟩ := Option.bind_eq_some_iff.mp hrun
          have h₃ := h.findEntry h₂ (Nat.le_refl 1) hfind
          simp only at hrun
          split at hrun
          · exact Or.inl (h.rollback _ _ (hswap h₃) hrun)
          · obtain ⟨⟨d', found', s₄⟩, hfind', hrun⟩ := Option.bind_eq_some_iff.mp hrun
            have h₄ := h.findEntry h₃ (Nat.le_refl 1) hfind'
            simp only at hrun
            split at hrun
            · exact Or.inl (h.rollback _ _ (hswap h₄) hrun)
            · obtain ⟨⟨e, s₅⟩, -, hrun⟩ := Option.bind_eq_some_iff.mp hrun
              exact Or.inr (nameRollback_ret hrun)

end Failed

/-- **A call that fails changes nothing**: `sys_link`, `sys_unlink`, `sys_mknod`, `sys_mkdir` and `sys_rmdir` return 0 or
`EOF`, and with `EOF` every block of every device, every entry in use, every bitmap, every size and the content of
every file, and every count of an inode are what they were before. -/
theorem nameCall_failed {s t : Fs} {call : NameCall} {r : ℤ} (h : CallReady s) (hrun : call.run s = some (r, t)) :
    r = 0 ∨ r = -1 ∧ Untouched s t ∧ ∀ dev b, t.blk dev b = s.blk dev b := by
  have hcall : Failed s t r ∨ r = 0 := by
    cases call with
    | link oldname newname => exact h.sysLink hrun
    | unlink filename => exact h.sysUnlink hrun
    | mknod filename mode dev => exact h.sysMknod hrun
    | mkdir pathname mode => exact h.sysMkdir hrun
    | rmdir pathname => exact h.sysRmdir hrun
  rcases hcall with ⟨hr, hsame, hblk⟩ | hr
  · exact Or.inr ⟨hr, hsame, fun dev b => by rw [hblk]⟩
  · exact Or.inl hr

/-- A forest of well-formed trees is ready. -/
theorem Fs.WellFormed.callReady {s : Fs} (h : s.WellFormed) (hroom : Room s.counts 3) : CallReady s :=
  ⟨h.table, h.pinned, h.starts, hroom⟩

theorem treeFs_callReady : CallReady treeFs := by
  refine treeFs_wellFormed.callReady fun j _ => ?_
  rw [Fs.counts, treeFs, rootFs_inode]
  split
  · decide
  · decide

/-- The file `/a` is no directory, and is still there. -/
theorem nameCall_failed_file : ∃ r t, (NameCall.rmdir (cstr ['/', 'a'])).run treeFs = some (r, t) ∧ r ≠ 0 ∧
    (r = 0 ∨ r = -1 ∧ Untouched treeFs t ∧ ∀ dev b, t.blk dev b = treeFs.blk dev b) := by
  have hcall : ((NameCall.rmdir (cstr ['/', 'a'])).run treeFs).map Prod.fst = some (-1) := by decide +kernel
  obtain ⟨⟨r, t⟩, hrun, hr⟩ := Option.map_eq_some_iff.mp hcall
  exact ⟨r, t, hrun, by rw [show r = -1 from hr]; decide, nameCall_failed treeFs_callReady hrun⟩

end Onixs
