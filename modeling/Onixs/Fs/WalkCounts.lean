import Onixs.Fs.Holding

/-!
# Counts along a walk

What `named`, `namei` and `inode_open` do to the reference counts, in the terms of
`Onixs.Holding`: a walk that returns an inode holds that inode and no other, a walk that
fails holds none. The contents of the directories do not matter for this, nor what is
stored in the blocks on the way (`Onixs.OnlyBlocks`).

A walk keeps more than the counts. `Onixs.Carried` says what a property of the state and of
the inodes held has to be kept by, and each function gets its lemma for all such properties;
`Onixs.carried_holding` is the counts alone.
-/

namespace Onixs

open Bytes

/-- **Only blocks differ**: the tables, the running task and the clock are the same. -/
structure OnlyBlocks (s t : Fs) : Prop where
  /-- The inode table. -/
  inodeTable : t.inodeTable = s.inodeTable
  /-- The super block table. -/
  superTable : t.superTable = s.superTable
  /-- The running task. -/
  task : t.task = s.task
  /-- The clock. -/
  time : t.time = s.time

namespace OnlyBlocks

variable {s t u : Fs}

theorem refl (s : Fs) : OnlyBlocks s s := ⟨rfl, rfl, rfl, rfl⟩

theorem trans (h : OnlyBlocks s t) (h' : OnlyBlocks t u) : OnlyBlocks s u where
  inodeTable := h'.inodeTable.trans h.inodeTable
  superTable := h'.superTable.trans h.superTable
  task := h'.task.trans h.task
  time := h'.time.trans h.time

theorem setBlk (s : Fs) (dev b : ℕ) (d : Bytes) : OnlyBlocks s (s.setBlk dev b d) := ⟨rfl, rfl, rfl, rfl⟩

/-- A loop of steps that only change blocks. -/
theorem foldlM {f : Fs → ℕ → Option Fs} (hf : ∀ s i t, f s i = some t → OnlyBlocks s t) :
    ∀ (l : List ℕ) {s t : Fs}, l.foldlM f s = some t → OnlyBlocks s t
  | [], s, t, h => Option.some.inj h ▸ refl s
  | i :: l, s, t, h => by
    obtain ⟨u, hu, h⟩ := Option.bind_eq_some_iff.mp h
    exact (hf s i u hu).trans (foldlM hf l h)

end OnlyBlocks

section Blocks

variable {s t : Fs} {dev : ℕ}

theorem allocLoop_onlyBlocks {maps : ℕ → Option ℕ} {offset : ℕ → ℕ} {bound : ℕ} {r : ℕ} :
    ∀ left i, allocLoop s dev maps offset bound left i = some (r, t) → OnlyBlocks s t := by
  intro left
  induction left with
  | zero =>
    intro i h
    obtain ⟨-, rfl⟩ := Prod.mk.inj (Option.some.inj h)
    exact .refl s
  | succ left ih =>
    intro i h
    rw [allocLoop] at h
    obtain ⟨b, -, h⟩ := Option.bind_eq_some_iff.mp h
    obtain ⟨⟨bit, map⟩, -, h⟩ := Option.bind_eq_some_iff.mp h
    simp only at h
    split at h
    · obtain ⟨_, -, h⟩ := Option.bind_eq_some_iff.mp h
      obtain ⟨-, rfl⟩ := Prod.mk.inj (Option.some.inj h)
      exact .setBlk s dev b map.bits
    · exact ih (i + 1) h

theorem balloc_onlyBlocks {z : ℕ} (h : balloc s dev = some (z, t)) : OnlyBlocks s t := by
  obtain ⟨_, -, h⟩ := Option.bind_eq_some_iff.mp h
  exact allocLoop_onlyBlocks zmapNr 0 h

theorem ialloc_onlyBlocks {nr : ℕ} (h : ialloc s dev = some (nr, t)) : OnlyBlocks s t := by
  obtain ⟨_, -, h⟩ := Option.bind_eq_some_iff.mp h
  exact allocLoop_onlyBlocks imapNr 0 h

theorem freeLoop_onlyBlocks {maps : ℕ → Option ℕ} {length : ℕ} {offset : ℕ → ℕ} {idx : ℕ} :
    ∀ left i, freeLoop s dev maps length offset idx left i = some t → OnlyBlocks s t := by
  intro left
  induction left with
  | zero =>
    intro i h
    exact absurd h (by simp [freeLoop])
  | succ left ih =>
    intro i h
    rw [freeLoop] at h
    split at h
    · exact ih (i + 1) h
    · obtain ⟨b, -, h⟩ := Option.bind_eq_some_iff.mp h
      obtain ⟨-, -, -, rfl⟩ := freeBit_some h
      exact .setBlk s dev b _

theorem bfree_onlyBlocks {z : ℕ} (h : bfree s dev z = some t) : OnlyBlocks s t := by
  obtain ⟨_, -, h⟩ := Option.bind_eq_some_iff.mp h
  obtain ⟨_, -, h⟩ := Option.bind_eq_some_iff.mp h
  exact freeLoop_onlyBlocks zmapNr 0 h

theorem bmapEntry_onlyBlocks {buf array index z : ℕ} {create : Bool}
    (h : bmapEntry s dev buf array index create = some (z, t)) : OnlyBlocks s t := by
  rw [bmapEntry] at h
  split at h
  · obtain ⟨⟨zone, s'⟩, halloc, h⟩ := Option.bind_eq_some_iff.mp h
    obtain ⟨-, rfl⟩ := Prod.mk.inj (Option.some.inj h)
    exact (balloc_onlyBlocks halloc).trans (.setBlk s' dev buf _)
  · obtain ⟨-, rfl⟩ := Prod.mk.inj (Option.some.inj h)
    exact .refl s

theorem bmapLoop_onlyBlocks {create : Bool} {z : ℕ} : ∀ level (s : Fs) buf array index block divider,
    bmapLoop dev create level s buf array index block divider = some (z, t) → OnlyBlocks s t := by
  intro level
  induction level with
  | zero => exact fun s buf array index _ _ h => bmapEntry_onlyBlocks h
  | succ level ih =>
    intro s buf array index block divider h
    obtain ⟨⟨zone, s'⟩, hentry, h⟩ := Option.bind_eq_some_iff.mp h
    have hfirst := bmapEntry_onlyBlocks hentry
    simp only at h
    split at h
    · obtain ⟨-, rfl⟩ := Prod.mk.inj (Option.some.inj h)
      exact hfirst
    · exact hfirst.trans (ih s' _ _ _ _ _ h)

theorem bmap_onlyBlocks {i b z : ℕ} {create : Bool} (h : bmap s i b create = some (z, t)) :
    OnlyBlocks s t := by
  rw [bmap] at h
  obtain ⟨_, -, h⟩ := Option.bind_eq_some_iff.mp h
  simp only at h
  split at h
  · exact bmapLoop_onlyBlocks _ _ _ _ _ _ _ h
  · split at h
    · exact bmapLoop_onlyBlocks _ _ _ _ _ _ _ h
    · obtain ⟨_, -, h⟩ := Option.bind_eq_some_iff.mp h
      exact bmapLoop_onlyBlocks _ _ _ _ _ _ _ h

theorem entryBlock_onlyBlocks {dir i block z : ℕ} {create : Bool}
    (h : entryBlock s dir i block create = some (z, t)) : OnlyBlocks s t := by
  rw [entryBlock] at h
  split at h
  · obtain ⟨⟨b, s'⟩, hmap, h⟩ := Option.bind_eq_some_iff.mp h
    obtain ⟨_, -, h⟩ := Option.bind_eq_some_iff.mp h
    obtain ⟨-, rfl⟩ := Prod.mk.inj (Option.some.inj h)
    exact bmap_onlyBlocks hmap
  · obtain ⟨-, rfl⟩ := Prod.mk.inj (Option.some.inj h)
    exact .refl s

theorem findEntryLoop_onlyBlocks {dir : ℕ} {name : CStr} {r : Option (Dentry × CStr)} :
    ∀ left i block (s : Fs), findEntryLoop dir name left i block s = some (r, t) → OnlyBlocks s t := by
  intro left
  induction left with
  | zero =>
    intro i block s h
    obtain ⟨-, rfl⟩ := Prod.mk.inj (Option.some.inj h)
    exact .refl s
  | succ left ih =>
    intro i block s h
    obtain ⟨⟨b, s'⟩, hblock, h⟩ := Option.bind_eq_some_iff.mp h
    have hfirst := entryBlock_onlyBlocks hblock
    simp only at h
    split at h
    · split at h
      · obtain ⟨-, rfl⟩ := Prod.mk.inj (Option.some.inj h)
        exact hfirst
      · exact hfirst.trans (ih _ _ s' h)
    · exact hfirst.trans (ih _ _ s' h)

theorem growDir_onlyBlocks (s : Fs) (dir i : ℕ) (e : Dentry) : OnlyBlocks s (growDir s dir i e) := by
  rw [growDir]
  split
  · exact (OnlyBlocks.setBlk s _ _ _).trans (.setBlk _ _ _ _)
  · exact .refl s

theorem addEntryLoop_onlyBlocks {dir : ℕ} {name : CStr} {e : Dentry} :
    ∀ left i block (s : Fs), addEntryLoop dir name left i block s = some (e, t) → OnlyBlocks s t := by
  intro left
  induction left with
  | zero =>
    intro i block s h
    exact absurd h (by simp [addEntryLoop])
  | succ left ih =>
    intro i block s h
    obtain ⟨⟨b, s'⟩, hblock, h⟩ := Option.bind_eq_some_iff.mp h
    have hfirst := entryBlock_onlyBlocks hblock
    simp only at h
    have hgrow := hfirst.trans (growDir_onlyBlocks s' dir i ⟨(s'.inodeTable dir).dev, b, i % blockDentries * 16⟩)
    split at h
    · exact hgrow.trans (ih _ _ _ h)
    · obtain ⟨-, rfl⟩ := Prod.mk.inj (Option.some.inj h)
      exact hgrow.trans ((OnlyBlocks.setBlk _ _ _ _).trans (.setBlk _ _ _ _))

theorem inodeBfree_onlyBlocks : ∀ level (s t : Fs) buf array index,
    inodeBfree dev level s buf array index = some t → OnlyBlocks s t := by
  intro level
  induction level with
  | zero =>
    intro s t buf array index h
    rw [inodeBfree] at h
    split at h
    · exact Option.some.inj h ▸ .refl s
    · exact bfree_onlyBlocks h
  | succ level ih =>
    intro s t buf array index h
    rw [inodeBfree] at h
    split at h
    · exact Option.some.inj h ▸ .refl s
    · obtain ⟨u, hfold, h⟩ := Option.bind_eq_some_iff.mp h
      exact (OnlyBlocks.foldlM (fun s i t => ih s t _ _ i) _ hfold).trans (bfree_onlyBlocks h)

theorem inodeTruncate_onlyBlocks {i : ℕ} (h : inodeTruncate s i = some t) : OnlyBlocks s t := by
  rw [inodeTruncate] at h
  simp only at h
  split at h
  · exact Option.some.inj h ▸ .refl s
  · obtain ⟨s₁, h₁, h⟩ := Option.bind_eq_some_iff.mp h
    obtain ⟨s₂, h₂, h⟩ := Option.bind_eq_some_iff.mp h
    obtain ⟨s₃, h₃, h⟩ := Option.bind_eq_some_iff.mp h
    obtain rfl := Option.some.inj h
    have hdirect : OnlyBlocks s s₁ := by
      refine OnlyBlocks.foldlM (fun s k t hstep => ?_) _ h₁
      obtain ⟨u, hu, hstep⟩ := Option.bind_eq_some_iff.mp hstep
      exact Option.some.inj hstep ▸ (inodeBfree_onlyBlocks _ _ _ _ _ _ hu).trans (.setBlk _ _ _ _)
    refine hdirect.trans ((inodeBfree_onlyBlocks _ _ _ _ _ _ h₂).trans
      ((inodeBfree_onlyBlocks _ _ _ _ _ _ h₃).trans ?_))
    exact (OnlyBlocks.setBlk _ _ _ _).trans ((OnlyBlocks.setBlk _ _ _ _).trans
      ((OnlyBlocks.setBlk _ _ _ _).trans (.setBlk _ _ _ _)))

end Blocks

section Walk

variable {c : ℕ → ℕ} {s t u : Fs} {L : List ℕ} {dir : ℕ} {name : CStr}

/-- **Only blocks and times differ**. -/
structure OnlyTimes (t u : Fs) : Prop where
  /-- The entries of the inode table have their identity and their count. -/
  node : ∀ j, (u.inodeTable j).ident = (t.inodeTable j).ident ∧ (u.inodeTable j).count = (t.inodeTable j).count
  /-- The super block table. -/
  superTable : u.superTable = t.superTable
  /-- The running task. -/
  task : u.task = t.task

theorem OnlyBlocks.onlyTimes (h : OnlyBlocks t u) : OnlyTimes t u :=
  ⟨fun j => by rw [h.inodeTable]; exact ⟨rfl, rfl⟩, h.superTable, h.task⟩

theorem OnlyTimes.setAtime (t : Fs) (i v : ℕ) : OnlyTimes t (t.setAtime i v) := by
  refine ⟨fun j => ?_, rfl, rfl⟩
  rcases eq_or_ne j i with rfl | hne
  · rw [Fs.setAtime, Fs.setInode_self]
    exact ⟨rfl, rfl⟩
  · rw [Fs.setAtime, Fs.setInode_of_ne _ _ hne]
    exact ⟨rfl, rfl⟩

/-- The inodes held at the end of `named`. -/
def heldBy (r : Option (ℕ × CStr)) : List ℕ := (r.map Prod.fst).toList

/-- The directories a walk of the running task starts from are in use. -/
structure TaskDirs (c : ℕ → ℕ) (task : Task) : Prop where
  /-- The root directory. -/
  iroot : task.iroot < inodeNr ∧ c task.iroot ≠ 0
  /-- The working directory. -/
  ipwd : task.ipwd < inodeNr ∧ c task.ipwd ≠ 0

end Walk

/-! ### Properties a walk keeps -/

/-- **A property of the state and of the inodes held** that every step of a walk keeps. -/
structure Carried (c : ℕ → ℕ) (s : Fs) (Inv : Fs → List ℕ → Prop) : Prop where
  /-- The counts are part of it. -/
  holding : ∀ {t L}, Inv t L → Holding c s t L
  /-- The order of the list is not, -/
  perm : ∀ {t L L'}, Inv t L → L.Perm L' → Inv t L'
  /-- nor are the blocks and the times. -/
  congr : ∀ {t u L}, Inv t L → OnlyTimes t u → Inv u L
  /-- `iput` gives an inode back. -/
  iput : ∀ {t u i L}, Inv t (i :: L) → Room c (L.length + 1) → iput t i = some u → Inv u L
  /-- `iget` takes one. -/
  iget : ∀ {t u dev nr r L}, Inv t L → Room c (L.length + 1) → dev ≠ EOF →
    iget t dev nr = some (r, u) → Inv u (r :: L)
  /-- So does `inode->count++`. -/
  addCount : ∀ {t i L}, Inv t L → Room c (L.length + 1) → i < inodeNr → c i ≠ 0 →
    Inv (t.addCount i) (i :: L)

/-- The counts alone are such a property. -/
theorem carried_holding {c : ℕ → ℕ} {s : Fs} (hpin : Pinned c s) : Carried c s (Holding c s) where
  holding h := h
  perm h hperm := h.perm hperm
  congr h hsame := h.congr hsame.node hsame.superTable
  iput h hroom hrun := h.iput hroom hrun
  iget h hroom hdev hrun := h.iget hpin hroom hdev hrun
  addCount h hroom hlt hc := h.addCount hroom hlt (h.used_of_pinned hc)

namespace Carried

variable {c : ℕ → ℕ} {s t u : Fs} {Inv : Fs → List ℕ → Prop} {L : List ℕ} {dir : ℕ} {name : CStr}

theorem blocks (hinv : Carried c s Inv) (h : Inv t L) (honly : OnlyBlocks t u) : Inv u L :=
  hinv.congr h honly.onlyTimes

/-- A store through `inode->desc`. -/
theorem setDescBlk (hinv : Carried c s Inv) (h : Inv t L) (i : ℕ) (d : Bytes) : Inv (t.setDescBlk i d) L :=
  hinv.blocks h (.setBlk _ _ _ _)

theorem iputOpt (hinv : Carried c s Inv) {o : Option ℕ} (h : Inv t (o.toList ++ L))
    (hroom : Room c (L.length + 1)) (hrun : iputOpt t o = some u) : Inv u L := by
  cases o with
  | none => exact Option.some.inj hrun ▸ h
  | some i => exact hinv.iput h hroom hrun

/-- **Crossing a mount point trades the root for the directory it is mounted on.** -/
theorem crossMount (hinv : Carried c s Inv) (hpin : Pinned c s) (h : Inv t (dir :: L))
    (hroom : Room c (L.length + 2)) {d : ℕ} (hrun : crossMount t dir name = some (d, u)) :
    Inv u (d :: L) := by
  rw [Onixs.crossMount] at hrun
  split at hrun
  · obtain ⟨k, hk, hrun⟩ := Option.bind_eq_some_iff.mp hrun
    obtain ⟨m, hm, hrun⟩ := Option.bind_eq_some_iff.mp hrun
    obtain ⟨t', hput, hrun⟩ := Option.bind_eq_some_iff.mp hrun
    obtain ⟨rfl, rfl⟩ := Prod.mk.inj (Option.some.inj hrun)
    rw [(hinv.holding h).imount] at hm
    obtain ⟨hlt, hused⟩ := hpin.imount k (getSuper_lt hk) m hm
    exact hinv.iput (hinv.perm (hinv.addCount h hroom hlt hused) (List.Perm.swap dir m L)) hroom hput
  · obtain ⟨rfl, rfl⟩ := Prod.mk.inj (Option.some.inj hrun)
    exact h

/-- **`find_entry` holds the directory it looked in.** -/
theorem findEntry (hinv : Carried c s Inv) (hpin : Pinned c s) (h : Inv t (dir :: L))
    (hroom : Room c (L.length + 2)) {d : ℕ} {r : Option (Dentry × CStr)}
    (hrun : findEntry t dir name = some (d, r, u)) : Inv u (d :: L) := by
  obtain ⟨-, t', hcross, hloop⟩ := findEntry_some hrun
  exact hinv.blocks (hinv.crossMount hpin h hroom hcross) (findEntryLoop_onlyBlocks _ _ _ _ hloop)

/-- **The walk holds the directory it has got to.** -/
theorem namedLoop (hinv : Carried c s Inv) (hpin : Pinned c s) (hroom : Room c (L.length + 2))
    {right : CStr} {r : Option (ℕ × CStr)} : ∀ passes (t : Fs) inode left, Inv t (inode :: L) →
      namedLoop right passes inode left t = some (r, u) → Inv u (heldBy r ++ L) := by
  have hroom₁ := hroom.mono (Nat.le_succ (L.length + 1))
  intro passes
  induction passes with
  | zero =>
    intro t inode left _ hrun
    exact absurd hrun (by simp [Onixs.namedLoop])
  | succ passes ih =>
    intro t inode left h hrun
    obtain ⟨⟨d, found, t₁⟩, hfind, hrun⟩ := Option.bind_eq_some_iff.mp hrun
    have h₁ := hinv.findEntry hpin h hroom hfind
    cases found with
    | none =>
      obtain ⟨t₂, hput, hrun⟩ := Option.bind_eq_some_iff.mp hrun
      obtain ⟨rfl, rfl⟩ := Prod.mk.inj (Option.some.inj hrun)
      exact hinv.iput h₁ hroom₁ hput
    | some e =>
      obtain ⟨t₂, hput, hrun⟩ := Option.bind_eq_some_iff.mp hrun
      obtain ⟨⟨i, t₃⟩, hget, hrun⟩ := Option.bind_eq_some_iff.mp hrun
      have hdev := (hinv.holding h₁).dev_ne List.mem_cons_self
      have h₃ := hinv.iget (hinv.iput h₁ hroom₁ hput) hroom₁ hdev hget
      simp only at hrun
      split at hrun
      · obtain ⟨t₄, hput', hrun⟩ := Option.bind_eq_some_iff.mp hrun
        obtain ⟨rfl, rfl⟩ := Prod.mk.inj (Option.some.inj hrun)
        exact hinv.iput h₃ hroom₁ hput'
      · split at hrun
        · obtain ⟨rfl, rfl⟩ := Prod.mk.inj (Option.some.inj hrun)
          exact h₃
        · exact ih t₃ i e.2 h₃ hrun

/-- **`named` holds the directory it returns.** -/
theorem named (hinv : Carried c s Inv) (hpin : Pinned c s) (hroom : Room c (L.length + 2)) (h : Inv t L)
    (hdirs : TaskDirs c t.task) {path : CStr} {r : Option (ℕ × CStr)}
    (hrun : named t path = some (r, u)) : Inv u (heldBy r ++ L) := by
  have hroom₁ := hroom.mono (Nat.le_succ (L.length + 1))
  cases path with
  | nil =>
    obtain ⟨rfl, rfl⟩ := Prod.mk.inj (Option.some.inj hrun)
    exact h
  | cons ch path =>
    have hwalk : ∀ {i : ℕ} {left : CStr}, i < inodeNr ∧ c i ≠ 0 → namedFrom t i left = some (r, u) →
        Inv u (heldBy r ++ L) := by
      intro i left hi hrun
      have hstart := hinv.addCount h hroom₁ hi.1 hi.2
      cases hsep : strrsep left with
      | none =>
        rw [namedFrom_of_none hsep] at hrun
        obtain ⟨rfl, rfl⟩ := Prod.mk.inj (Option.some.inj hrun)
        exact hstart
      | some right =>
        rw [namedFrom_of_some hsep] at hrun
        exact hinv.namedLoop hpin hroom _ _ _ _ hstart hrun
    rw [named_cons] at hrun
    split at hrun
    · exact hwalk hdirs.iroot hrun
    · exact hwalk hdirs.ipwd hrun

/-- **`namei` adds one reference to the inode it returns**, and moves no other count. -/
theorem namei (hinv : Carried c s Inv) (hpin : Pinned c s) (hroom : Room c (L.length + 2)) (h : Inv t L)
    (hdirs : TaskDirs c t.task) {path : CStr} {r : Option ℕ} (hrun : namei t path = some (r, u)) :
    Inv u (r.toList ++ L) := by
  have hroom₁ := hroom.mono (Nat.le_succ (L.length + 1))
  obtain ⟨⟨dir, t₁⟩, hnamed, hrun⟩ := Option.bind_eq_some_iff.mp hrun
  have h₁ := hinv.named hpin hroom h hdirs hnamed
  cases dir with
  | none =>
    obtain ⟨rfl, rfl⟩ := Prod.mk.inj (Option.some.inj hrun)
    exact h₁
  | some p =>
    simp only at hrun
    split at hrun
    · obtain ⟨rfl, rfl⟩ := Prod.mk.inj (Option.some.inj hrun)
      exact h₁
    · obtain ⟨⟨d, found, t₂⟩, hfind, hrun⟩ := Option.bind_eq_some_iff.mp hrun
      have h₂ : Inv t₂ (d :: L) := hinv.findEntry hpin h₁ hroom hfind
      cases found with
      | none =>
        obtain ⟨t₃, hput, hrun⟩ := Option.bind_eq_some_iff.mp hrun
        obtain ⟨rfl, rfl⟩ := Prod.mk.inj (Option.some.inj hrun)
        exact hinv.iput h₂ hroom₁ hput
      | some e =>
        obtain ⟨⟨i, t₃⟩, hget, hrun⟩ := Option.bind_eq_some_iff.mp hrun
        obtain ⟨t₄, hput, hrun⟩ := Option.bind_eq_some_iff.mp hrun
        obtain ⟨rfl, rfl⟩ := Prod.mk.inj (Option.some.inj hrun)
        have hdev := (hinv.holding h₂).dev_ne List.mem_cons_self
        exact hinv.iput (hinv.perm (hinv.iget h₂ hroom hdev hget) (List.Perm.swap d i L)) hroom hput

/-! ### Opening -/

/-- **A second `find_entry` for the same name stays in the directory**: the directory a root is
mounted on is no root itself, except at the top, where it is mounted on itself. -/
theorem crossMount_again (hinv : Carried c s Inv) (hpin : Pinned c s) (h : Inv t (dir :: L)) (hroom : Room c (L.length + 2))
    {d d' : ℕ} {u' v : Fs} (hrun : Onixs.crossMount t dir name = some (d, u)) (honly : OnlyBlocks u u')
    (hrun' : Onixs.crossMount u' d name = some (d', v)) : d' = d := by
  have hu := hinv.holding (hinv.blocks (hinv.crossMount hpin h hroom hrun) honly)
  rw [Onixs.crossMount] at hrun hrun'
  split at hrun'
  · rename_i hcross
    obtain ⟨k', hk', hrun'⟩ := Option.bind_eq_some_iff.mp hrun'
    obtain ⟨m', hm', hrun'⟩ := Option.bind_eq_some_iff.mp hrun'
    obtain ⟨v', -, hrun'⟩ := Option.bind_eq_some_iff.mp hrun'
    obtain ⟨rfl, -⟩ := Prod.mk.inj (Option.some.inj hrun')
    split at hrun
    · obtain ⟨k, hk, hrun⟩ := Option.bind_eq_some_iff.mp hrun
      obtain ⟨m, hm, hrun⟩ := Option.bind_eq_some_iff.mp hrun
      obtain ⟨t', -, hrun⟩ := Option.bind_eq_some_iff.mp hrun
      obtain ⟨rfl, -⟩ := Prod.mk.inj (Option.some.inj hrun)
      rw [(hinv.holding h).imount] at hm
      have hident := hu.kept m (hpin.imount k (getSuper_lt hk) m hm).2
      rw [show (u'.inodeTable m).dev = (s.inodeTable m).dev from congrArg Prod.fst hident,
        hu.getSuper] at hk'
      have htop := hpin.top k (getSuper_lt hk) m hm ((congrArg (fun p => p.2.1) hident).symm.trans hcross.2) k' hk'
      rw [hu.imount, htop] at hm'
      exact (Option.some.inj hm').symm
    · rename_i hstay
      obtain ⟨rfl, rfl⟩ := Prod.mk.inj (Option.some.inj hrun)
      rw [honly.inodeTable] at hcross
      exact absurd hcross hstay
  · exact (Prod.mk.inj (Option.some.inj hrun')).1.symm

/-- **`add_entry` keeps the directory it was given**, if its name does not lead out of it. -/
theorem addEntry (hinv : Carried c s Inv) (hpin : Pinned c s) (h : Inv t (dir :: L))
    (hroom : Room c (L.length + 2)) (hstay : ∀ d v, Onixs.crossMount t dir name = some (d, v) → d = dir)
    {e : Dentry} (hrun : addEntry t dir name = some (e, u)) : Inv u (dir :: L) := by
  obtain ⟨⟨d, found, t₁⟩, hfind, hrun⟩ := Option.bind_eq_some_iff.mp hrun
  have h₁ := hinv.findEntry hpin h hroom hfind
  obtain ⟨-, t', hcross, -⟩ := findEntry_some hfind
  obtain rfl := hstay d t' hcross
  cases found with
  | some p =>
    obtain ⟨-, rfl⟩ := Prod.mk.inj (Option.some.inj hrun)
    exact h₁
  | none =>
    obtain ⟨_, -, hrun⟩ := Option.bind_eq_some_iff.mp hrun
    exact hinv.blocks h₁ (addEntryLoop_onlyBlocks _ _ _ _ hrun)

theorem newInode (hinv : Carried c s Inv) (h : Inv t L) (hroom : Room c (L.length + 1))
    {dev nr i : ℕ} (hdev : dev ≠ EOF) (hrun : newInode t dev nr = some (i, u)) : Inv u (i :: L) := by
  obtain ⟨⟨i', t₁⟩, hget, hrun⟩ := Option.bind_eq_some_iff.mp hrun
  obtain ⟨rfl, rfl⟩ := Prod.mk.inj (Option.some.inj hrun)
  have h₁ := hinv.iget h hroom hdev hget
  refine hinv.setDescBlk (hinv.setDescBlk (hinv.setDescBlk (hinv.congr ?_ (.setAtime _ _ _)) _ _) _ _) _ _
  exact hinv.setDescBlk (hinv.setDescBlk (hinv.setDescBlk h₁ _ _) _ _) _ _

theorem openRollback (hinv : Carried c s Inv) {inode : Option ℕ} (h : Inv t (dir :: (inode.toList ++ L)))
    (hroom : Room c (L.length + 2)) {r : Option ℕ} (hrun : openRollback t dir inode = some (r, u)) :
    Inv u (r.toList ++ L) := by
  obtain ⟨t₁, hput, hrun⟩ := Option.bind_eq_some_iff.mp hrun
  obtain ⟨t₂, hput', hrun⟩ := Option.bind_eq_some_iff.mp hrun
  obtain ⟨rfl, rfl⟩ := Prod.mk.inj (Option.some.inj hrun)
  have hlen : (inode.toList ++ L).length + 1 ≤ L.length + 2 := by
    cases inode with
    | none => exact Nat.le_succ _
    | some i => exact Nat.le_refl _
  exact hinv.iputOpt (hinv.iput h (hroom.mono hlen) hput) (hroom.mono (Nat.le_succ _)) hput'

theorem openMakeup (hinv : Carried c s Inv) {inode flag : ℕ} (h : Inv t (inode :: dir :: L))
    (hroom : Room c (L.length + 2)) {r : Option ℕ} (hrun : openMakeup t dir inode flag = some (r, u)) :
    Inv u (r.toList ++ L) := by
  have hback : ∀ {r : Option ℕ}, Onixs.openRollback t dir (some inode) = some (r, u) → Inv u (r.toList ++ L) :=
    fun hrun => hinv.openRollback (hinv.perm h (List.Perm.swap dir inode L)) hroom hrun
  rw [Onixs.openMakeup] at hrun
  split at hrun
  · exact hback hrun
  · split at hrun
    · exact hback hrun
    · simp only at hrun
      obtain ⟨t₁, htrunc, hrun⟩ := Option.bind_eq_some_iff.mp hrun
      obtain ⟨t₂, hput, hrun⟩ := Option.bind_eq_some_iff.mp hrun
      obtain ⟨rfl, rfl⟩ := Prod.mk.inj (Option.some.inj hrun)
      have h₁ : Inv t₁ (inode :: dir :: L) := by
        refine hinv.blocks (hinv.congr h (.setAtime t inode t.time)) ?_
        rw [openTruncate] at htrunc
        split at htrunc
        · exact inodeTruncate_onlyBlocks htrunc
        · exact Option.some.inj htrunc ▸ .refl _
      exact hinv.iput (hinv.perm h₁ (List.Perm.swap dir inode L)) hroom hput

theorem openCreate (hinv : Carried c s Inv) (hpin : Pinned c s) {flag mode : ℕ} (h : Inv t (dir :: L))
    (hroom : Room c (L.length + 2)) (hstay : ∀ d v, Onixs.crossMount t dir name = some (d, v) → d = dir)
    {r : Option ℕ} (hrun : openCreate t dir name flag mode = some (r, u)) : Inv u (r.toList ++ L) := by
  rw [Onixs.openCreate] at hrun
  split at hrun
  · exact hinv.openRollback h hroom hrun
  · split at hrun
    · exact hinv.openRollback h hroom hrun
    · obtain ⟨⟨e, t₁⟩, hadd, hrun⟩ := Option.bind_eq_some_iff.mp hrun
      obtain ⟨⟨nr, t₂⟩, halloc, hrun⟩ := Option.bind_eq_some_iff.mp hrun
      obtain ⟨⟨i, t₃⟩, hnew, hrun⟩ := Option.bind_eq_some_iff.mp hrun
      have h₁ := hinv.addEntry hpin h hroom hstay hadd
      have h₂ : Inv (t₂.setDentryNr e nr) (dir :: L) :=
        hinv.blocks (hinv.blocks h₁ (ialloc_onlyBlocks halloc)) (.setBlk _ _ _ _)
      have h₃ := hinv.newInode h₂ hroom ((hinv.holding h₁).dev_ne List.mem_cons_self) hnew
      exact hinv.openMakeup (hinv.setDescBlk h₃ _ _) hroom hrun

/-- **`inode_open` adds one reference to the inode it returns**, and moves no other count. -/
theorem inodeOpen (hinv : Carried c s Inv) (hpin : Pinned c s) (hroom : Room c (L.length + 2)) (h : Inv t L)
    (hdirs : TaskDirs c t.task) {path : CStr} {flag mode : ℕ} {r : Option ℕ}
    (hrun : inodeOpen t path flag mode = some (r, u)) : Inv u (r.toList ++ L) := by
  obtain ⟨⟨dir, t₁⟩, hnamed, hrun⟩ := Option.bind_eq_some_iff.mp hrun
  have h₁ := hinv.named hpin hroom h hdirs hnamed
  cases dir with
  | none =>
    obtain ⟨rfl, rfl⟩ := Prod.mk.inj (Option.some.inj hrun)
    exact h₁
  | some p =>
    simp only at hrun
    split at hrun
    · obtain ⟨rfl, rfl⟩ := Prod.mk.inj (Option.some.inj hrun)
      exact h₁
    · obtain ⟨⟨d, found, t₂⟩, hfind, hrun⟩ := Option.bind_eq_some_iff.mp hrun
      have h₂ : Inv t₂ (d :: L) := hinv.findEntry hpin h₁ hroom hfind
      cases found with
      | some e =>
        obtain ⟨⟨i, t₃⟩, hget, hrun⟩ := Option.bind_eq_some_iff.mp hrun
        exact hinv.openMakeup (hinv.iget h₂ hroom ((hinv.holding h₂).dev_ne List.mem_cons_self) hget) hroom hrun
      | none =>
        obtain ⟨-, t', hcross, hloop⟩ := findEntry_some hfind
        refine hinv.openCreate hpin h₂ hroom (fun d' v hcross' => ?_) hrun
        exact hinv.crossMount_again hpin h₁ hroom hcross (findEntryLoop_onlyBlocks _ _ _ _ hloop) hcross'

end Carried

end Onixs
