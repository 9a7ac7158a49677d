import Onixs.Fs.AddEntry
import Onixs.Fs.EntryNames
import Onixs.Fs.InodeMap
import Onixs.Fs.LookupBuffers
import Onixs.Fs.OpenMode

/-!
# Opens that fail

`inode_open` stores the entry and the inode of a new file before it checks the permission the flags ask for, and its
rollback gives references back and nothing else. An open that fails changes nothing, unless it has come as far as
creating a file (`Onixs.Creates`): then the bit of the inode stays set (`Onixs.inodeOpen_untouched_iff`).
-/

namespace Onixs

open Bytes

/-! ### What an open may change -/

/-- The name and the number of an entry in use. -/
def Fs.LiveEntry (s : Fs) (dev nr : ℕ) (name : CStr) (i : ℕ) : Prop :=
  i ≠ 0 ∧ ∃ k < s.entries dev nr, s.dentryNr (s.entryOf dev nr k) = i ∧
    fieldName (s.blk dev (s.entryOf dev nr k).blk) nameLen ((s.entryOf dev nr k).off + 2) = name

/-- **Nothing has changed** on the devices, and no count of an inode. -/
structure Untouched (s t : Fs) : Prop where
  /-- The entries in use. -/
  entries : ∀ dev nr name i, t.LiveEntry dev nr name i ↔ s.LiveEntry dev nr name i
  /-- The inode bitmaps. -/
  ibit : ∀ dev g, t.ibit dev g = s.ibit dev g
  /-- The zone bitmaps. -/
  zbit : ∀ dev g, t.zbit dev g = s.zbit dev g
  /-- The sizes of the files. -/
  size : ∀ dev nr, (t.descOf dev nr).size = (s.descOf dev nr).size
  /-- What is in them. -/
  content : ∀ dev nr o, t.fileByte dev nr o = s.fileByte dev nr o
  /-- The references. -/
  counts : ∀ j, t.counts j = s.counts j

/-- **Of the super blocks only the lists of inodes differ.** -/
def OnlyLists (s t : Fs) : Prop := ∀ k, ∃ l, t.superTable k = { s.superTable k with inodeList := l }

namespace OnlyLists

variable {s t u : Fs} {i dev : ℕ}

theorem of_superTable (h : t.superTable = s.superTable) : OnlyLists s t := fun k => ⟨(s.superTable k).inodeList, by rw [h]⟩

theorem trans (h : OnlyLists s t) (h' : OnlyLists t u) : OnlyLists s u := by
  intro k
  obtain ⟨l, hl⟩ := h k
  obtain ⟨l', hl'⟩ := h' k
  exact ⟨l', by rw [hl', hl]⟩

theorem iput (hput : iput s i = some t) : OnlyLists s t := by
  rw [Onixs.iput] at hput
  simp only at hput
  split at hput
  · obtain rfl := Option.some.inj hput
    exact of_superTable rfl
  · obtain ⟨_, -, hput⟩ := Option.bind_eq_some_iff.mp hput
    obtain ⟨_, -, hput⟩ := Option.bind_eq_some_iff.mp hput
    obtain rfl := Option.some.inj hput
    exact fun k => ⟨_, rfl⟩

theorem fitInode {r : ℕ} (hrun : fitInode s i = some (r, t)) : OnlyLists s t := by
  rw [Onixs.fitInode] at hrun
  split at hrun
  · obtain ⟨-, rfl⟩ := Prod.mk.inj (Option.some.inj hrun)
    exact of_superTable rfl
  · obtain ⟨k, -, hrun⟩ := Option.bind_eq_some_iff.mp hrun
    obtain ⟨u, hput, hrun⟩ := Option.bind_eq_some_iff.mp hrun
    obtain ⟨r', -, hrun⟩ := Option.bind_eq_some_iff.mp hrun
    obtain ⟨rfl, rfl⟩ := Prod.mk.inj (Option.some.inj hrun)
    exact (iput hput).trans (of_superTable rfl)

theorem iget {nr r : ℕ} (hrun : iget s dev nr = some (r, t)) : OnlyLists s t := by
  obtain ⟨found, -, hrun⟩ := Option.bind_eq_some_iff.mp hrun
  cases found with
  | some i =>
    have hcount : OnlyLists s (s.setInode i { s.inodeTable i with
        count := u32 ((s.inodeTable i).count + 1), atime := s.time }) := of_superTable rfl
    exact hcount.trans (fitInode hrun)
  | none =>
    obtain ⟨k, -, hrun⟩ := Option.bind_eq_some_iff.mp hrun
    obtain ⟨_, -, hrun⟩ := Option.bind_eq_some_iff.mp hrun
    obtain ⟨i, -, hrun⟩ := Option.bind_eq_some_iff.mp hrun
    obtain ⟨-, rfl⟩ := Prod.mk.inj (Option.some.inj hrun)
    intro k'
    rcases eq_or_ne k' k with rfl | hne
    · exact ⟨_, Fs.setSuper_self _ _ _⟩
    · exact ⟨(s.superTable k').inodeList, Fs.setSuper_of_ne _ _ hne⟩

theorem getSuper (h : OnlyLists s t) (dev : ℕ) : t.getSuper dev = s.getSuper dev := by
  rw [Fs.getSuper, Fs.getSuper]
  refine congrArg (fun p => List.find? p _) (funext fun k => ?_)
  obtain ⟨l, hl⟩ := h k
  rw [hl]

/-- The bitmaps are in the blocks they were in. -/
theorem maps (h : OnlyLists s t) (dev : ℕ) : t.imaps dev = s.imaps dev ∧ t.zmaps dev = s.zmaps dev := by
  rw [Fs.imaps, Fs.imaps, Fs.zmaps, Fs.zmaps, h.getSuper]
  cases s.getSuper dev with
  | none => exact ⟨rfl, rfl⟩
  | some k =>
    obtain ⟨l, hl⟩ := h k
    change (t.superTable k).imaps = (s.superTable k).imaps ∧ (t.superTable k).zmaps = (s.superTable k).zmaps
    rw [hl]
    exact ⟨rfl, rfl⟩

end OnlyLists

/-- Every walk keeps the rest of the super blocks. -/
theorem carried_onlyLists {c : ℕ → ℕ} {s : Fs} (hpin : Pinned c s) :
    Carried c s fun t L => Holding c s t L ∧ OnlyLists s t := by
  have hinv := carried_holding hpin
  exact ⟨fun h => h.1, fun h hperm => ⟨hinv.perm h.1 hperm, h.2⟩,
    fun h hsame => ⟨hinv.congr h.1 hsame, h.2.trans (.of_superTable hsame.superTable)⟩,
    fun h hroom hrun => ⟨hinv.iput h.1 hroom hrun, h.2.trans (.iput hrun)⟩,
    fun h hroom hdev hrun => ⟨hinv.iget h.1 hroom hdev hrun, h.2.trans (.iget hrun)⟩,
    fun h hroom hlt hc => ⟨hinv.addCount h.1 hroom hlt hc, h.2.trans (.of_superTable rfl)⟩⟩

section Untouched

variable {s t : Fs}

theorem ibit_of_blk (hblk : t.blk = s.blk) (hmaps : OnlyLists s t) (dev g : ℕ) : t.ibit dev g = s.ibit dev g := by
  rw [Fs.ibit, Fs.ibit, (hmaps.maps dev).1, Fs.mapBit, Fs.mapBit, hblk]

theorem zbit_of_blk (hblk : t.blk = s.blk) (hmaps : OnlyLists s t) (dev g : ℕ) : t.zbit dev g = s.zbit dev g := by
  rw [Fs.zbit, Fs.zbit, (hmaps.maps dev).2, Fs.mapBit, Fs.mapBit, hblk]

theorem superDesc_of_same (hblk : t.blk = s.blk) (dev : ℕ) : t.superDesc dev = s.superDesc dev := by
  rw [Fs.superDesc, Fs.superDesc, hblk]

theorem descOf_of_blk (hblk : t.blk = s.blk) (dev nr : ℕ) : t.descOf dev nr = s.descOf dev nr := by
  rw [Fs.descOf, Fs.descOf, superDesc_of_same hblk, hblk]

/-- **Where the blocks are the same** there is not much that may differ. -/
theorem Untouched.of_blk (hblk : t.blk = s.blk) (hmaps : OnlyLists s t) (hcounts : ∀ j, t.counts j = s.counts j) :
    Untouched s t where
  entries dev nr name i := by
    rw [Fs.LiveEntry, Fs.LiveEntry, Fs.entries, Fs.entries, descOf_of_blk hblk]
    simp only [dentryNr_of_blk hblk, Fs.entryOf, zoneAt_of_blk hblk, hblk]
  ibit := ibit_of_blk hblk hmaps
  zbit := zbit_of_blk hblk hmaps
  size dev nr := by rw [descOf_of_blk hblk]
  content dev nr o := by rw [Fs.fileByte, Fs.fileByte, zoneAt_of_blk hblk, hblk]
  counts := hcounts

end Untouched

/-! ### The walk -/

/-- The name behind the last separator of a path. -/
def lastName (path : CStr) : CStr := (components (pathRest path)).2

/-- The directory the last name of a path is looked up in, if the walk gets there. -/
def Fs.openDir (s : Fs) (path : CStr) : Option (ℕ × ℕ) :=
  ((walkedNames path).foldlM s.forest.enter (s.nodeOf (pathStart s.task path))).map fun m => s.forest.up m (lastName path)

/-- **An open comes to create a file**: it is told to, the last name is not there, and the directory may be written. -/
def Creates (s : Fs) (path : CStr) (flag : ℕ) : Prop :=
  flag &&& oCreat ≠ 0 ∧ lastName path ≠ [] ∧ ∃ n, s.openDir path = some n ∧ s.slotOf n.1 n.2 (lastName path) = none ∧
    permits s.task (s.descOf n.1 n.2) pWrite = true

section Walk

variable {s t u v : Fs} {i d flag mode : ℕ} {path name : CStr} {m n : ℕ × ℕ}

theorem lastName_free (path : CStr) : ∀ c ∈ lastName path, isSeparator c = false := (components_spec (pathRest path)).2.2

theorem named_eq_from (hpath : path ≠ []) : named s path = namedFrom s (pathStart s.task path) (pathRest path) := by
  obtain ⟨c, path, rfl⟩ := List.exists_cons_of_ne_nil hpath
  rw [named_cons, pathStart, pathRest, List.head?_cons, Option.any_some]
  cases isSeparator c <;> rfl

/-- **`named`**, for any string. -/
theorem Walking.namedPath (hwf : s.WellFormed) (hroom : Room s.counts 2) (hpath : path ≠ []) :
    Ends (¬s.TwoFree) (Onixs.named s path) (Arrived s (lastName path)
      ((walkedNames path).foldlM s.forest.enter (s.nodeOf (pathStart s.task path)))) := by
  have hone : Room s.counts 1 := hroom.mono (Nat.le_succ 1)
  have hdir : s.TreeDir (s.nodeOf (pathStart s.task path)) := by
    rw [pathStart]
    split
    · exact hwf.iroot
    · exact hwf.ipwd
  have hpos : pathStart s.task path < inodeNr ∧ s.counts (pathStart s.task path) ≠ 0 := by
    rw [pathStart]
    split
    · exact hwf.starts.iroot
    · exact hwf.starts.ipwd
  rw [named_eq_from hpath, walkedNames, lastName]
  generalize pathStart s.task path = i at hdir hpos ⊢
  have h : Walking s (s.addCount i) [i] := (Walking.start hwf).addCount (L := []) hone hpos.1 hpos.2
  have hnode : (s.addCount i).nodeOf i = s.nodeOf i := nodeOf_setInode (by rfl) _
  obtain ⟨htail, hdirs, hlast⟩ := components_spec (pathRest path)
  generalize (components (pathRest path)).2 = last at htail hlast ⊢
  generalize (components (pathRest path)).1 = dirs at htail hdirs ⊢
  rw [← htail]
  cases dirs with
  | nil =>
    have hgo : Arrived s last (some (s.nodeOf i)) (some (i, last), s.addCount i) := ⟨i, rfl, h, hnode, hdir⟩
    rw [Path.tail, namedFrom_of_none (strrsep_of_name hlast)]
    exact Ends.some hgo
  | cons q dirs =>
    obtain ⟨sep', hright⟩ := strrsep_tail hlast hdirs
    have hlen := length_le_tail last (q :: dirs)
    rw [List.length_cons] at hlen
    rw [namedFrom_of_some hright]
    have hloop := Walking.namedLoop last hwf hroom dirs q.1 q.2 ((Path.tail (q :: dirs) last).length + 1) i _ hdirs
      (by omega) h (hnode ▸ hdir)
    rw [hnode] at hloop
    exact hloop

/-- A name does not lead up twice: the directory a root is mounted on is no root, but at the top. -/
theorem Fs.forest_up_up (hwf : s.WellFormed) (m : ℕ × ℕ) (name : CStr) :
    s.forest.up (s.forest.up m name) name = s.forest.up m name := by
  by_cases hup : name = dotDotName ∧ m.2 = 1
  · rw [forest_up s m name, if_pos hup]
    cases hpoint : s.mountPoint m.1 with
    | none =>
      rw [Option.elim_none, forest_up, if_pos hup, hpoint]
      rfl
    | some j =>
      rw [Option.elim_some, forest_up]
      by_cases htop : name = dotDotName ∧ (s.nodeOf j).2 = 1
      · obtain ⟨k, hk, hj⟩ := Option.bind_eq_some_iff.mp hpoint
        rw [if_pos htop, Fs.mountPoint]
        cases hk' : s.getSuper (s.nodeOf j).1 with
        | none => rfl
        | some k' =>
          rw [Option.bind_some, hwf.pinned.top k (getSuper_lt hk) j hj htop.2 k' hk']
          rfl
      · rw [if_neg htop]
  · rw [forest_up s m name, if_neg hup, forest_up, if_neg hup]

/-- The flags a file is opened with have `O_CREAT` if those that were given have. -/
theorem openFlag_creat (flag : ℕ) :
    (if flag &&& oTrunc ≠ 0 ∧ flag &&& 3 = 0 then flag ||| 2 else flag) &&& oCreat = flag &&& oCreat := by
  split
  · rw [Nat.and_or_distrib_right]
    exact Nat.or_zero _
  · rfl

theorem Walking.openRollback {o : Option ℕ} {r : Option ℕ} (hwf : s.WellFormed) (hroom : Room s.counts 2)
    (h : Walking s u (d :: o.toList)) (hrun : openRollback u d o = some (r, t)) : Walking s t [] := by
  have hlen : o.toList.length ≤ 1 := by
    cases o with
    | none => exact Nat.zero_le 1
    | some i => exact Nat.le_refl 1
  obtain ⟨v, hput, hv⟩ := h.iput hwf (hroom.mono (Nat.succ_le_succ hlen))
  obtain ⟨v', hput₁, hrun⟩ := Option.bind_eq_some_iff.mp hrun
  obtain rfl := Option.some.inj (hput.symm.trans hput₁)
  obtain ⟨w, hput', hrun⟩ := Option.bind_eq_some_iff.mp hrun
  obtain ⟨-, rfl⟩ := Prod.mk.inj (Option.some.inj hrun)
  cases o with
  | none => exact Option.some.inj hput' ▸ hv
  | some i =>
    obtain ⟨x, hput₂, hx⟩ := Walking.iput (L := []) hwf (hroom.mono (Nat.le_succ 1)) hv
    exact Option.some.inj (hput₂.symm.trans hput') ▸ hx

/-- Where the checks fail there is a rollback. -/
theorem openMakeup_none (hrun : openMakeup u d i flag = some (none, t)) :
    openRollback u d (some i) = some (none, t) := by
  rw [openMakeup] at hrun
  split at hrun
  · exact hrun
  · split at hrun
    · exact hrun
    · obtain ⟨v, -, hrun⟩ := Option.bind_eq_some_iff.mp hrun
      obtain ⟨w, -, hrun⟩ := Option.bind_eq_some_iff.mp hrun
      exact absurd (Prod.mk.inj (Option.some.inj hrun)).1 (by simp)

/-- **An open that has failed** has walked and given everything back; or it has come to create a file. -/
theorem inodeOpen_none (hwf : s.WellFormed) (hroom : Room s.counts 2) (hrun : inodeOpen s path flag mode = some (none, t)) :
    (¬Creates s path flag ∧ Walking s t []) ∨
      Creates s path flag ∧ ∃ n d u flag', s.openDir path = some n ∧ s.slotOf n.1 n.2 (lastName path) = none ∧
        s.TreeDir n ∧ Walking s u [d] ∧ OnlyLists s u ∧ u.nodeOf d = n ∧ s.forest.up n (lastName path) = n ∧
        (∀ d' v, crossMount u d (lastName path) = some (d', v) → d' = d) ∧ flag' &&& oCreat ≠ 0 ∧
        permission u d pWrite = true ∧ openCreate u d (lastName path) flag' mode = some (none, t) := by
  rcases eq_or_ne path [] with rfl | hpath
  · obtain ⟨-, rfl⟩ := Prod.mk.inj (Option.some.inj hrun)
    exact Or.inl ⟨fun hc => hc.2.1 rfl, Walking.start hwf⟩
  have hone : Room s.counts 1 := hroom.mono (Nat.le_succ 1)
  obtain ⟨⟨dir, t₁⟩, hnamed, hrun⟩ := Option.bind_eq_some_iff.mp hrun
  have harr := (Walking.namedPath hwf hroom hpath).of_eq_some hnamed
  cases hgoal : (walkedNames path).foldlM s.forest.enter (s.nodeOf (pathStart s.task path)) with
  | none =>
    rw [hgoal] at harr
    obtain ⟨rfl, hw⟩ := harr
    obtain ⟨-, rfl⟩ := Prod.mk.inj (Option.some.inj hrun)
    refine Or.inl ⟨fun hc => ?_, hw⟩
    obtain ⟨-, -, n, hn, -⟩ := hc
    rw [Fs.openDir, hgoal] at hn
    exact absurd hn (by simp)
  | some m =>
    rw [hgoal] at harr
    obtain ⟨i, rfl, hw, rfl, hdir⟩ := harr
    simp only at hrun
    split at hrun
    · exact absurd (Prod.mk.inj (Option.some.inj hrun)).1 (by simp)
    obtain ⟨d, u, hfind, hu, hnode⟩ := hw.findEntry_last hwf hroom hdir (lastName_free path) rfl
    have hopen : s.openDir path = some (s.forest.up (t₁.nodeOf i) (lastName path)) := by
      rw [Fs.openDir, hgoal]
      rfl
    have hstay : ∀ d' v, crossMount u d (lastName path) = some (d', v) → d' = d := by
      obtain ⟨-, t', hcross, hloop⟩ := findEntry_some hfind
      exact fun d' v hcross' => (carried_holding hwf.pinned).crossMount_again hwf.pinned hw.holding hroom hcross
        (findEntryLoop_onlyBlocks _ _ _ _ hloop) hcross'
    have hlists : OnlyLists s u := by
      have hinv := carried_onlyLists hwf.pinned
      have h₁ := hinv.named (L := []) hwf.pinned hroom ⟨(Walking.start hwf).holding, .of_superTable rfl⟩ hwf.starts hnamed
      exact (hinv.findEntry hwf.pinned h₁ hroom hfind).2
    have hup := s.forest_up_up hwf (t₁.nodeOf i) (lastName path)
    have htree : s.TreeDir (s.forest.up (t₁.nodeOf i) (lastName path)) := hwf.up (hw.isNode hw.held.1 hw.held.2).1 hdir
    generalize s.forest.up (t₁.nodeOf i) (lastName path) = n at hfind hnode hopen hup htree
    obtain ⟨hdev, ⟨k', hk'⟩, -⟩ := hnode ▸ hu.isNode hu.held.1 hu.held.2
    have hflag := openFlag_creat flag
    generalize (if flag &&& oTrunc ≠ 0 ∧ flag &&& 3 = 0 then flag ||| 2 else flag) = flag' at hrun hflag
    have hdevu : (u.inodeTable d).dev = n.1 := congrArg Prod.fst hnode
    have hperm : permission u d pWrite = permits s.task (s.descOf n.1 n.2) pWrite := by
      rw [permission, hu.task, hu.inodeDesc hu.held.1 hu.held.2, hnode]
    cases hslot : s.slotOf n.1 n.2 (lastName path) with
    | some k =>
      rw [hfind, hslot] at hrun
      simp only [Option.map_some, Option.bind_eq_bind, Option.bind_some, hdevu] at hrun
      obtain ⟨⟨r, v⟩, hget, hrun⟩ := Option.bind_eq_some_iff.mp hrun
      obtain ⟨hv, -, -⟩ := (hu.iget_slot (L := [d]) hwf hroom (Nat.le_refl 1) hdev htree hk' hslot).of_eq_some hget
      refine Or.inl ⟨fun hc => ?_, (hv.perm (List.Perm.swap d r [])).openRollback hwf hroom (openMakeup_none hrun)⟩
      obtain ⟨-, -, n', hn', hslot', -⟩ := hc
      obtain rfl := Option.some.inj (hopen.symm.trans hn')
      exact absurd (hslot.symm.trans hslot') (by simp)
    | none =>
      rw [hfind, hslot] at hrun
      simp only [Option.map_none, Option.bind_eq_bind, Option.bind_some] at hrun
      have hno : ∀ {x : Fs}, openRollback u d none = some (none, x) → Walking s x [] := fun h =>
        Walking.openRollback hwf hroom (o := none) hu h
      by_cases hcreat : flag &&& oCreat = 0
      · rw [openCreate, if_pos (hflag.trans hcreat)] at hrun
        exact Or.inl ⟨fun hc => hc.1 hcreat, hno hrun⟩
      by_cases hwrite : permits s.task (s.descOf n.1 n.2) pWrite = true
      · exact Or.inr ⟨⟨hcreat, ‹_›, n, hopen, hslot, hwrite⟩, n, d, u, flag', hopen, hslot, htree, hu, hlists, hnode, hup, hstay,
          fun hc => hcreat (hflag.symm.trans hc), hperm.trans hwrite, hrun⟩
      · have hdenied : permission u d pWrite = false := hperm.trans (by simpa using hwrite)
        rw [openCreate, if_neg (fun hc => hcreat (hflag.symm.trans hc)), if_pos hdenied] at hrun
        refine Or.inl ⟨fun hc => ?_, hno hrun⟩
        obtain ⟨-, -, n', hn', -, hwrite'⟩ := hc
        obtain rfl := Option.some.inj (hopen.symm.trans hn')
        exact hwrite hwrite'

end Walk

/-! ### A file that is created -/

/-- **An entry can be added to the directory** as it should be, and there is an inode for it. -/
structure TakesEntry (s : Fs) (dev nr : ℕ) : Prop where
  /-- The device. -/
  layout : Layout s dev
  /-- Bit 0 of its bitmaps is in use, as it stands for nothing. -/
  zero : s.zbit dev 0 = true ∧ s.ibit dev 0 = true
  /-- An inode is free. -/
  inode : ∃ i, InodeFree s dev i
  /-- The blocks of the directory. -/
  tree : TreeAt s dev nr
  /-- There are only whole entries. -/
  size : (s.descOf dev nr).size = s.entries dev nr * 16
  /-- There are zones for a new block. -/
  enough : Enough s dev nr (slotPath (bmapSlot (s.entries dev nr / 64)))
  /-- What is in the first free zones does no harm. -/
  safe : ¬FreeSlot s dev nr (s.entries dev nr) →
    SafeIndex s dev nr (s.entries dev nr / 64) (bmapSlot (s.entries dev nr / 64))

section Create

variable {s t u v : Fs} {dev nr b d i z k : ℕ}

theorem Layout.of_lists (hl : Layout s dev) (hblk : t.blk dev 1 = s.blk dev 1) (hmaps : OnlyLists s t) : Layout t dev := by
  have hdesc := superDesc_of_blk hblk
  obtain ⟨himaps, hzmaps⟩ := hmaps.maps dev
  refine ⟨⟨?_, ?_, ?_, ?_, ?_, ?_⟩, ?_⟩
  · rw [hmaps.getSuper]
    exact hl.mounted.super
  · rw [himaps, hdesc]
    exact hl.mounted.imaps
  · rw [hzmaps, hdesc]
    exact hl.mounted.zmaps
  · rw [hdesc]
    exact hl.mounted.imapBlocks
  · rw [hdesc]
    exact hl.mounted.zmapBlocks
  · rw [hdesc]
    exact hl.mounted.firstdatazone
  · rw [hdesc]
    exact hl.inodes

/-- What is in the index blocks that would be created. -/
theorem safeIndex_of_lists (hblk : t.blk = s.blk) (hmaps : OnlyLists s t) (p : List ℕ) :
    SafeIndex t dev nr b p ↔ SafeIndex s dev nr b p := by
  have hdesc := superDesc_of_same hblk dev
  have hzone : t.zoneAt dev nr = s.zoneAt dev nr := funext fun p => zoneAt_of_blk hblk p
  have hword : t.zoneEntry dev = s.zoneEntry dev := funext fun z => funext fun j => by rw [Fs.zoneEntry, Fs.zoneEntry, hblk]
  have hfree : ZoneFree t dev = ZoneFree s dev := funext fun z => by rw [ZoneFree, ZoneFree, hdesc, zbit_of_blk hblk hmaps]
  have hfirst : FirstFree t dev = FirstFree s dev := funext fun z => by rw [FirstFree, FirstFree, hfree]
  have hsecond : SecondFree t dev = SecondFree s dev := funext fun z => by rw [SecondFree, SecondFree, hfree, hfirst]
  have hown : Own t dev nr (b + 1) = Own s dev nr (b + 1) := funext fun z => by rw [Own, Own, hzone]
  have hharm : NoHarm t dev nr b = NoHarm s dev nr b := funext fun l => funext fun w => by
    rw [NoHarm, NoHarm, hdesc, hown]
  rcases p with _ | ⟨i, _ | ⟨j, _ | ⟨k, _ | ⟨l, p⟩⟩⟩⟩
  · exact Iff.rfl
  · exact Iff.rfl
  · rw [SafeIndex, SafeIndex, hzone, hfirst, hharm, hword]
  · rw [SafeIndex, SafeIndex, hzone, hfirst, hsecond, hharm, hword]
  · exact Iff.rfl

/-- A walk changes nothing of that. -/
theorem TakesEntry.of_lists (h : TakesEntry s dev nr) (hblk : t.blk = s.blk) (hmaps : OnlyLists s t) :
    TakesEntry t dev nr := by
  have hdesc := superDesc_of_same hblk dev
  have hentries : t.entries dev nr = s.entries dev nr := by rw [Fs.entries, Fs.entries, descOf_of_blk hblk]
  have hzone : t.zoneAt dev nr = s.zoneAt dev nr := funext fun p => zoneAt_of_blk hblk p
  have hentry : ∀ k, t.entryOf dev nr k = s.entryOf dev nr k := fun k => by rw [Fs.entryOf, Fs.entryOf, hzone]
  have hfree : ZoneFree t dev = ZoneFree s dev := funext fun z => by rw [ZoneFree, ZoneFree, hdesc, zbit_of_blk hblk hmaps]
  have hslot : FreeSlot t dev nr = FreeSlot s dev nr := funext fun n => by
    rw [FreeSlot, FreeSlot]
    simp only [hentry, dentryNr_of_blk hblk]
  have hfrees : freeZones t dev = freeZones s dev := Finset.ext fun z => by
    rw [mem_freeZones, mem_freeZones, hfree]
  refine ⟨h.layout.of_lists (by rw [hblk]) hmaps, ?_, ?_, ⟨?_, fun p hp => ?_, ?_⟩, ?_, ?_, ?_⟩
  · rw [zbit_of_blk hblk hmaps, ibit_of_blk hblk hmaps]
    exact h.zero
  · simp only [InodeFree, hdesc, ibit_of_blk hblk hmaps]
    exact h.inode
  · rw [hdesc]
    exact h.tree.inode
  · rw [hzone, DataZone, hdesc, zbit_of_blk hblk hmaps]
    exact h.tree.zone p hp
  · rw [hzone]
    exact h.tree.inj
  · rw [descOf_of_blk hblk, hentries]
    exact h.size
  · rw [Enough, hentries, hzone, hfrees]
    exact h.enough
  · rw [hslot, hentries]
    exact fun hno => (safeIndex_of_lists hblk hmaps _).mpr (h.safe hno)

/-- **The blocks of the device in front of `b` are the same**, and the descriptors in memory are behind it. -/
structure FrontKept (s t : Fs) (dev b : ℕ) : Prop where
  /-- The blocks. -/
  blk : ∀ y < b, t.blk dev y = s.blk dev y
  /-- The super blocks. -/
  lists : OnlyLists s t
  /-- The descriptors. -/
  descs : ∀ j < inodeNr, (t.inodeTable j).dev = dev → b ≤ (t.inodeTable j).buf

namespace FrontKept

theorem setDescBlk (h : FrontKept s t dev b) (hi : i < inodeNr) (d : Bytes) : FrontKept s (t.setDescBlk i d) dev b := by
  refine ⟨fun y hy => ?_, h.lists.trans (.of_superTable rfl), h.descs⟩
  rw [← h.blk y hy, Fs.setDescBlk]
  by_cases hdev : (t.inodeTable i).dev = dev
  · have hle := h.descs i hi hdev
    exact Fs.setBlk_blk_of_ne _ _ (Or.inr (by omega))
  · exact Fs.setBlk_blk_of_ne _ _ (Or.inl (Ne.symm hdev))

/-- An entry of the inode table gets another count or other times. -/
theorem setInode (h : FrontKept s t dev b) {node : Inode} (hdev : node.dev = (t.inodeTable i).dev ∨ node.dev = EOF)
    (hbuf : node.buf = (t.inodeTable i).buf) (hne : dev ≠ EOF) : FrontKept s (t.setInode i node) dev b := by
  refine ⟨h.blk, h.lists.trans (.of_superTable rfl), fun j hj hjdev => ?_⟩
  rcases eq_or_ne j i with rfl | hji
  · rw [Fs.setInode_self] at hjdev ⊢
    rw [hbuf]
    refine h.descs j hj ?_
    rcases hdev with hdev | hdev
    · exact hdev.symm.trans hjdev
    · exact absurd (hjdev.symm.trans hdev) hne
  · rw [Fs.setInode_of_ne _ _ hji] at hjdev ⊢
    exact h.descs j hj hjdev

theorem setAtime (h : FrontKept s t dev b) (hne : dev ≠ EOF) (i v : ℕ) : FrontKept s (t.setAtime i v) dev b :=
  h.setInode (Or.inl rfl) rfl hne

theorem iput (h : FrontKept s t dev b) (hne : dev ≠ EOF) (hput : iput t i = some u) : FrontKept s u dev b := by
  rw [Onixs.iput] at hput
  simp only at hput
  split at hput
  · obtain rfl := Option.some.inj hput
    exact h.setInode (Or.inl rfl) rfl hne
  · obtain ⟨_, -, hput⟩ := Option.bind_eq_some_iff.mp hput
    obtain ⟨_, -, hput⟩ := Option.bind_eq_some_iff.mp hput
    obtain rfl := Option.some.inj hput
    have hcount : FrontKept s (t.setInode i { t.inodeTable i with count := sub32 (t.inodeTable i).count 1 }) dev b :=
      h.setInode (Or.inl rfl) rfl hne
    have hremove : FrontKept s (removeInode (t.setInode i { t.inodeTable i with count := sub32 (t.inodeTable i).count 1 }) i) dev b :=
      ⟨hcount.blk, hcount.lists.trans fun _ => ⟨_, rfl⟩, hcount.descs⟩
    exact hremove.setInode (Or.inr rfl) rfl hne

theorem fitInode {r : ℕ} (h : FrontKept s t dev b) (hne : dev ≠ EOF) (hrun : fitInode t i = some (r, u)) :
    FrontKept s u dev b := by
  rw [Onixs.fitInode] at hrun
  split at hrun
  · obtain ⟨-, rfl⟩ := Prod.mk.inj (Option.some.inj hrun)
    exact h
  · obtain ⟨k, -, hrun⟩ := Option.bind_eq_some_iff.mp hrun
    obtain ⟨v, hput, hrun⟩ := Option.bind_eq_some_iff.mp hrun
    obtain ⟨r', -, hrun⟩ := Option.bind_eq_some_iff.mp hrun
    obtain ⟨-, rfl⟩ := Prod.mk.inj (Option.some.inj hrun)
    exact (h.iput hne hput).setInode (Or.inl rfl) rfl hne

theorem iget {r D : ℕ} (h : FrontKept s t dev b) (hne : dev ≠ EOF) (hib : b ≤ inodeBlock (t.superDesc D) nr)
    (hrun : iget t D nr = some (r, u)) : FrontKept s u dev b := by
  obtain ⟨found, -, hrun⟩ := Option.bind_eq_some_iff.mp hrun
  cases found with
  | some i =>
    have hcount : FrontKept s (t.setInode i { t.inodeTable i with
        count := u32 ((t.inodeTable i).count + 1), atime := t.time }) dev b := h.setInode (Or.inl rfl) rfl hne
    exact hcount.fitInode hne hrun
  | none =>
    obtain ⟨k, -, hrun⟩ := Option.bind_eq_some_iff.mp hrun
    obtain ⟨_, -, hrun⟩ := Option.bind_eq_some_iff.mp hrun
    obtain ⟨i, -, hrun⟩ := Option.bind_eq_some_iff.mp hrun
    obtain ⟨-, rfl⟩ := Prod.mk.inj (Option.some.inj hrun)
    refine ⟨h.blk, h.lists.trans fun k' => ?_, fun j hj hjdev => ?_⟩
    · rcases eq_or_ne k' k with rfl | hk
      · exact ⟨_, Fs.setSuper_self _ _ _⟩
      · exact ⟨(t.superTable k').inodeList, Fs.setSuper_of_ne _ _ hk⟩
    · rcases eq_or_ne j i with rfl | hji
      · rw [Fs.setInode_self]
        exact hib
      · rw [Fs.setInode_of_ne _ _ hji] at hjdev ⊢
        exact h.descs j hj hjdev

/-- The descriptor of the inode that is taken is filled in. -/
theorem newInode {D : ℕ} (h : FrontKept s t dev b) (hne : dev ≠ EOF) (hib : b ≤ inodeBlock (t.superDesc D) nr) (hi : i < inodeNr)
    (hrun : newInode t D nr = some (i, u)) : FrontKept s u dev b := by
  obtain ⟨⟨i', v⟩, hget, hrun⟩ := Option.bind_eq_some_iff.mp hrun
  obtain ⟨rfl, rfl⟩ := Prod.mk.inj (Option.some.inj hrun)
  have hv := h.iget hne hib hget
  refine setDescBlk (setDescBlk (setDescBlk (setAtime ?_ hne _ _) hi _) hi _) hi _
  exact setDescBlk (setDescBlk (setDescBlk hv hi _) hi _) hi _

theorem openRollback {o r : Option ℕ} (h : FrontKept s t dev b) (hne : dev ≠ EOF) (hrun : openRollback t d o = some (r, u)) :
    FrontKept s u dev b := by
  obtain ⟨v, hput, hrun⟩ := Option.bind_eq_some_iff.mp hrun
  obtain ⟨w, hput', hrun⟩ := Option.bind_eq_some_iff.mp hrun
  obtain ⟨-, rfl⟩ := Prod.mk.inj (Option.some.inj hrun)
  have hv := h.iput hne hput
  cases o with
  | none => exact Option.some.inj hput' ▸ hv
  | some i => exact hv.iput hne hput'

end FrontKept

/-- Storing an entry leaves the inode bitmap alone. -/
theorem EntryPlaced.front (hl : Layout s dev) (ht : TreeAt s dev nr) (h : EntryPlaced s t dev nr k) :
    (s.superDesc dev).firstdatazone ≤ (t.entryOf dev nr k).blk ∧
      ∀ y < 2 + (s.superDesc dev).imapBlocks, t.blk dev y = s.blk dev y := by
  obtain ⟨hk, z, v, hentry, hm, hst⟩ := h
  have hp := isSlot_bmapSlot hk
  obtain ⟨-, hdesc, -⟩ := hm.grown.layout hl ht hp
  have hib := hl.inodeBlock_bounds ht.inode
  have hlo := hm.lo
  rw [hentry]
  refine ⟨hlo, fun y hy => funext fun o => ?_⟩
  have hyib : y ≠ inodeBlock (v.superDesc dev) nr := by
    rw [hdesc]
    omega
  rw [hst.blk y o (fun hc => by omega) fun hc => absurd hc hyib]
  refine hm.grown.front ht hp (by omega) (fun i hc => ?_) fun hc => by omega
  rw [hl.mounted.zmaps] at hc
  split at hc
  · have heq := Option.some.inj hc
    omega
  · exact absurd hc (by simp)

theorem ibit_of_front (hm : Mounted s dev) (hmaps : t.imaps dev = s.imaps dev)
    (h : ∀ y < 2 + (s.superDesc dev).imapBlocks, t.blk dev y = s.blk dev y) (g : ℕ) : t.ibit dev g = s.ibit dev g := by
  rw [Fs.ibit, Fs.ibit, hmaps, Fs.mapBit, Fs.mapBit]
  cases himap : s.imaps dev (g / 8192) with
  | none => rfl
  | some y =>
    rw [hm.imaps] at himap
    split at himap
    · have heq := Option.some.inj himap
      exact congrArg (fun d : Bytes => d.bitOf (g % 8192)) (h y (by omega))
    · exact absurd himap (by simp)

/-- **`add_entry` in an open** adds its entry behind the descriptors, and keeps the inode bitmap. -/
theorem addEntry_open {n : ℕ × ℕ} {name : CStr} {e : Dentry} (hwf : s.WellFormed) (hroom : Room s.counts 2)
    (hu : Walking s u [d]) (hlists : OnlyLists s u) (hnode : u.nodeOf d = n) (htree : s.TreeDir n)
    (hup : s.forest.up n name = n) (hslot : s.slotOf n.1 n.2 name = none) (hname : ∀ c ∈ name, isSeparator c = false)
    (hstay : ∀ d' v, crossMount u d name = some (d', v) → d' = d) (htakes : TakesEntry s n.1 n.2)
    (hrun : addEntry u d name = some (e, t)) :
    ∃ w, Walking s w [d] ∧ w.nodeOf d = n ∧ OnlyBlocks w t ∧ OnlyLists s t ∧ e.dev = n.1 ∧
      (s.superDesc n.1).firstdatazone ≤ e.blk ∧ ∀ y < 2 + (s.superDesc n.1).imapBlocks, t.blk n.1 y = s.blk n.1 y := by
  -- the second look finds what the first has found
  obtain ⟨d', w, hfind, hw, hnodew⟩ := hu.findEntry_last hwf hroom (hnode ▸ htree) hname rfl
  rw [hnode, hup] at hnodew
  rw [hnode, hup, hslot, Option.map_none] at hfind
  obtain ⟨-, w', hcross, -⟩ := findEntry_some hfind
  obtain rfl := hstay d' w' hcross
  have hlistsw : OnlyLists s w :=
    ((carried_onlyLists hwf.pinned).findEntry (L := []) hwf.pinned ⟨hu.holding, hlists⟩ hroom hfind).2
  have htakesw := htakes.of_lists hw.blk hlistsw
  have hh : w.Holds n.1 n.2 d' := hnodew ▸ hw.loaded.holds d' hw.held.1 hw.held.2
  have hblocks : ∀ j < w.entries n.1 n.2, w.zoneAt n.1 n.2 (bmapSlot (j / 64)) ≠ 0 := fun j hj => by
    rw [Fs.entries, descOf_of_blk hw.blk] at hj
    rw [zoneAt_of_blk hw.blk]
    exact ((hwf.dirs n htree).blocks j hj).2
  rw [addEntry_eq_loop hfind hname hh htakesw.size] at hrun
  obtain ⟨k, t', hloop, -, hplaced⟩ := addEntryLoop_added name htakesw.layout htakesw.tree hh htakesw.size hblocks
    htakesw.zero.1 htakesw.enough htakesw.safe
  obtain ⟨rfl, rfl⟩ := Prod.mk.inj (Option.some.inj (hloop.symm.trans hrun))
  have honly := addEntryLoop_onlyBlocks _ _ _ _ hrun
  obtain ⟨hz, hfront⟩ := hplaced.front htakesw.layout htakesw.tree
  rw [superDesc_of_same hw.blk] at hz hfront
  exact ⟨w, hw, hnodew, honly, hlistsw.trans (.of_superTable honly.superTable), rfl, hz,
    fun y hy => (hfront y hy).trans (congrFun (congrFun hw.blk n.1) y)⟩

/-- **A file that has been created stays**: the bit of its inode was clear, and is set in the end. -/
theorem openCreate_ibit {n : ℕ × ℕ} {name : CStr} {flag mode : ℕ} (hwf : s.WellFormed) (hroom : Room s.counts 2)
    (hu : Walking s u [d]) (hlists : OnlyLists s u) (hnode : u.nodeOf d = n) (htree : s.TreeDir n)
    (hup : s.forest.up n name = n) (hslot : s.slotOf n.1 n.2 name = none) (hname : ∀ c ∈ name, isSeparator c = false)
    (hstay : ∀ d' v, crossMount u d name = some (d', v) → d' = d) (htakes : TakesEntry s n.1 n.2)
    (hflag : flag &&& oCreat ≠ 0) (hperm : permission u d pWrite = true)
    (hrun : openCreate u d name flag mode = some (none, t)) : ∃ g, s.ibit n.1 g = false ∧ t.ibit n.1 g = true := by
  rw [openCreate, if_neg hflag, if_neg (by simp [hperm])] at hrun
  obtain ⟨⟨e, t₁⟩, hadd, hrun₁⟩ := Option.bind_eq_some_iff.mp hrun
  obtain ⟨⟨i, t₂⟩, halloc, hrun₂⟩ := Option.bind_eq_some_iff.mp hrun₁
  obtain ⟨⟨r, t₃⟩, hnew, hmakeup⟩ := Option.bind_eq_some_iff.mp hrun₂
  have honlyi := ialloc_onlyBlocks halloc
  clear hrun hrun₁ hrun₂
  obtain ⟨w, hw, hnodew, honly, hlists₁, hedev, hz, hfront⟩ :=
    addEntry_open hwf hroom hu hlists hnode htree hup hslot hname hstay htakes hadd
  have hl := htakes.layout
  have hne : n.1 ≠ EOF := (hnode ▸ hu.isNode hu.held.1 hu.held.2).1
  have hdev : (t₁.inodeTable d).dev = n.1 := by
    rw [honly.inodeTable]
    exact congrArg Prod.fst hnodew
  simp only [hdev] at halloc hnew
  have hdesc₁ := superDesc_of_blk (hfront 1 (by omega))
  have hl₁ := hl.of_lists (hfront 1 (by omega)) hlists₁
  have hbits : ∀ g, t₁.ibit n.1 g = s.ibit n.1 g := ibit_of_front hl.mounted (hlists₁.maps n.1).1 hfront
  -- the inode that is allocated
  obtain ⟨i₀, hpos₀, hi₀⟩ := htakes.inode
  obtain ⟨g, hg, -, hialloc⟩ := ialloc_of_free hl₁.mounted ⟨i₀, hdesc₁ ▸ hpos₀, (hbits i₀).trans hi₀⟩
  have hg0 : g ≠ 0 := by
    rintro rfl
    rw [hbits, htakes.zero.2] at hg
    exact Bool.noConfusion hg
  rw [hialloc] at halloc
  obtain ⟨_, hlt, halloc⟩ := Option.bind_eq_some_iff.mp halloc
  rw [assert_eq_some, hdesc₁] at hlt
  obtain ⟨hi, rfl⟩ := Prod.mk.inj (Option.some.inj halloc)
  rw [hi] at hlt
  have hi0 : 1 ≤ i := by omega
  have hi16 : (s.superDesc n.1).inodes < 65536 := getU16_lt _ _
  obtain ⟨y, hy⟩ := buffer_of_clear hg
  have honly₂ : OnlyIbit t₁ n.1 g true (t₁.setIbit n.1 g true) := OnlyIbit.of_setIbit hl₁.mounted hy true
  obtain ⟨hm₂, hdesc₂, -, -⟩ := OnlyBit.mounted hl₁.mounted hl₁.mounted.imap_ne_one honly₂
  generalize t₁.setIbit n.1 g true = t₂ at hnew honly₂ honlyi hm₂ hdesc₂
  have hdesc := hdesc₂.trans hdesc₁
  have hinodes := hl.inodes
  -- from there on the inode bitmap is left alone
  have hkept : FrontKept t₂ (t₂.setDentryNr e i) n.1 (2 + (s.superDesc n.1).imapBlocks) := by
    refine ⟨fun y hy => Fs.setBlk_blk_of_ne _ _ (Or.inr (by omega)), .of_superTable rfl, fun j hj hjdev => ?_⟩
    change (t₂.inodeTable j).dev = n.1 at hjdev
    change _ ≤ (t₂.inodeTable j).buf
    rw [honly₂.inodeTable, honly.inodeTable] at hjdev ⊢
    have hused : (w.inodeTable j).count ≠ 0 := fun hc => hne (hjdev.symm.trans ((hw.holding.ok.free_iff j hj).mpr hc))
    have hh := hw.loaded.holds j hj hused
    rw [hjdev] at hh
    rw [hh.buf, hw.superDesc]
    exact Nat.le_trans (Nat.le_add_right _ _) (hl.inodeBlock_bounds ⟨hh.pos, hw.superDesc n.1 ▸ hh.le⟩).1
  have hnr : (t₂.setDentryNr e i).dentryNr e = i := by
    rw [Fs.dentryNr, Fs.setDentryNr, Fs.setBlk_blk_self, getU16_putU16_self, Nat.mod_eq_of_lt (by omega)]
  have hib : 2 + (s.superDesc n.1).imapBlocks ≤ inodeBlock ((t₂.setDentryNr e i).superDesc n.1) ((t₂.setDentryNr e i).dentryNr e) := by
    rw [hnr, superDesc_of_blk (hkept.blk 1 (by omega)), hdesc]
    exact Nat.le_trans (Nat.le_add_right _ _) (hl.inodeBlock_bounds ⟨hi0, by omega⟩).1
  have hinv := carried_holding hwf.pinned
  have hold : Holding s.counts s (t₂.setDentryNr e i) [d] :=
    hinv.blocks (hinv.blocks hw.holding (honly.trans honlyi)) (.setBlk _ _ _ _)
  have hr : r < inodeNr := (hinv.newInode hold hroom hne hnew).lt r List.mem_cons_self
  have hfinal := ((hkept.newInode hne hib hr hnew).setDescBlk hr _).openRollback hne (openMakeup_none hmakeup)
  refine ⟨g, (hbits g).symm.trans hg, ?_⟩
  rw [ibit_of_front hm₂ (hfinal.lists.maps n.1).1 (by rw [hdesc]; exact hfinal.blk), honly₂.ibit hl₁.mounted, if_pos rfl]

/-! ### `inode_open` -/

/-- **An open that fails changes nothing** unless it comes to create a file: in a forest of well-formed trees, for any
string, flags and mode. Where the directory can take the entry, a file that is created stays, and that is a change. -/
theorem inodeOpen_untouched_iff {path : CStr} {flag mode : ℕ} (hwf : s.WellFormed) (hroom : Room s.counts 2)
    (hrun : inodeOpen s path flag mode = some (none, t)) :
    (¬Creates s path flag → Untouched s t) ∧
      ((∀ n, s.openDir path = some n → TakesEntry s n.1 n.2) → Untouched s t → ¬Creates s path flag) := by
  rcases inodeOpen_none hwf hroom hrun with ⟨hno, hw⟩ | ⟨hcreates, n, d, u, flag', hopen, hslot, htree, hu, hlists, hnode, hup,
    hstay, hflag, hperm, hcreate⟩
  · have hlists : OnlyLists s t := ((carried_onlyLists hwf.pinned).inodeOpen (L := []) hwf.pinned hroom
      ⟨(Walking.start hwf).holding, .of_superTable rfl⟩ hwf.starts hrun).2
    exact ⟨fun _ => .of_blk hw.blk hlists hw.holding.count, fun _ _ => hno⟩
  · refine ⟨fun hno => absurd hcreates hno, fun htakes hsame => ?_⟩
    obtain ⟨g, hclear, hset⟩ := openCreate_ibit hwf hroom hu hlists hnode htree hup hslot (lastName_free path) hstay
      (htakes n hopen) hflag hperm hcreate
    rw [hsame.ibit, hclear] at hset
    exact absurd hset Bool.false_ne_true

end Create

/-! ### A directory anyone may write -/

/-- The blocks of the device: inodes 1 and 2 and zone 5 are in use, the root directory may be written by all. -/
def sharedBlocks (b : ℕ) : Bytes :=
  if b = 2 then fun o => if o = 0 then 7#8 else 0#8
  else if b = 3 then fun o => if o = 0 then 3#8 else 0#8
  else if b = 4 then inodeBytes 0 [(0o040777, 48, 2, 5), (0o100755, 0, 1, 0)]
  else programBlocks b

/-- The device, and a task of an ordinary user. -/
def sharedFs : Fs := userFs sharedBlocks { uid := 1000, gid := 1000, umask := 0o22, ipwd := 0, iroot := 0 }

theorem sharedFs_oneFile : OneFile sharedFs := by
  refine ⟨by decide, by decide, by decide, by decide, by decide, by decide, ?_, by decide⟩
  exact ⟨by decide, by decide, rfl, rfl, by decide, by decide⟩

theorem sharedFs_wellFormed : sharedFs.WellFormed := OneFile.wellFormed (d := sharedBlocks) sharedFs_oneFile rfl rfl

theorem sharedFs_room : Room sharedFs.counts 2 := treeFs_room

/-- The open of `/x` for writing, with a mode of 0: the file is created, and then may not be written. -/
theorem sharedFs_run : (inodeOpen sharedFs (cstr ['/', 'x']) 0o101 0).map (fun r => (r.1, r.2.ibit 1 3)) = some (none, true) := by
  decide +kernel

theorem sharedFs_desc : sharedFs.superDesc 1 = rootDesc :=
  deviceFs_superDesc ⟨by decide, by decide, by decide, by decide, by decide, by decide⟩ sharedBlocks

theorem sharedFs_layout : Layout sharedFs 1 := by
  have hget : sharedFs.getSuper 1 = some 0 := rootFs_getSuper
  refine ⟨⟨⟨0, hget⟩, fun i => ?_, fun i => ?_, ?_, ?_, ?_⟩, ?_⟩
  · rw [sharedFs_desc, Fs.imaps, hget]
    rfl
  · rw [sharedFs_desc, Fs.zmaps, hget]
    rfl
  all_goals
    rw [sharedFs_desc]
    decide

/-- The one block of the directory is zone 5. -/
theorem sharedFs_zoneAt {p : List ℕ} (hp : IsSlot p) (hne : sharedFs.zoneAt 1 1 p ≠ 0) : p = [0] ∧ sharedFs.zoneAt 1 1 p = 5 := by
  have hroot : ∀ r < 9, sharedFs.zoneAt 1 1 [r] = if r = 0 then 5 else 0 := by decide
  cases hp with
  | @root r hr =>
    rw [hroot r hr] at hne ⊢
    split at hne
    · exact ⟨by rw [‹r = 0›], if_pos ‹r = 0›⟩
    · exact absurd rfl hne
  | single hj => exact absurd (zoneAt_cons_of_null (hroot 7 (by omega))) hne
  | middle hj => exact absurd (zoneAt_cons_of_null (hroot 8 (by omega))) hne
  | double hk hj => exact absurd (zoneAt_cons_of_null (zoneAt_cons_of_null (hroot 8 (by omega)))) hne

theorem sharedFs_takesEntry : TakesEntry sharedFs 1 1 where
  layout := sharedFs_layout
  zero := by decide +kernel
  inode := ⟨3, by rw [sharedFs_desc]; exact ⟨by decide, by decide⟩, by decide +kernel⟩
  tree := by
    refine ⟨by rw [sharedFs_desc]; exact ⟨by decide, by decide⟩, fun p hp hne => ?_, fun p q hp hq hne heq => ?_⟩
    · rw [(sharedFs_zoneAt hp hne).2, DataZone, sharedFs_desc]
      exact ⟨by decide, by decide, by decide +kernel⟩
    · rw [(sharedFs_zoneAt hp hne).1, (sharedFs_zoneAt hq (heq ▸ hne)).1]
  size := by decide
  enough := by
    have hnone : ((slotPath (bmapSlot (sharedFs.entries 1 1 / 64))).filter fun q => sharedFs.zoneAt 1 1 q = 0) = ∅ := by decide
    rw [Enough, hnone]
    exact Nat.zero_le _
  safe _ := by
    rw [show bmapSlot (sharedFs.entries 1 1 / 64) = [0] by decide]
    trivial

/-- Without `O_CREAT` the open of `/x` fails and changes nothing; with it, and a mode of 0, it fails and does. -/
theorem inodeOpen_untouched_shared :
    (∃ t, inodeOpen sharedFs (cstr ['/', 'x']) 1 0 = some (none, t) ∧ Untouched sharedFs t) ∧
      ∀ t, inodeOpen sharedFs (cstr ['/', 'x']) 0o101 0 = some (none, t) → ¬Untouched sharedFs t := by
  constructor
  · have hfail : (inodeOpen sharedFs (cstr ['/', 'x']) 1 0).map Prod.fst = some none := by decide +kernel
    obtain ⟨⟨r, t⟩, hrun, rfl⟩ := Option.map_eq_some_iff.mp hfail
    exact ⟨t, hrun, (inodeOpen_untouched_iff sharedFs_wellFormed sharedFs_room hrun).1 fun hc => hc.1 (by decide)⟩
  · intro t hrun hsame
    have hopen : sharedFs.openDir (cstr ['/', 'x']) = some (1, 1) := by decide +kernel
    refine (inodeOpen_untouched_iff sharedFs_wellFormed sharedFs_room hrun).2 (fun n hn => ?_) hsame
      ⟨by decide, by decide, (1, 1), hopen, by decide +kernel, by decide +kernel⟩
    rw [← Option.some.inj (hopen.symm.trans hn)]
    exact sharedFs_takesEntry

/-- **A file nobody has asked for**: the open of `/x` for writing with a mode of 0 fails, and inode 3 is in use. -/
theorem inodeOpen_created : sharedFs.WellFormed ∧ Room sharedFs.counts 2 ∧
    ∃ t, inodeOpen sharedFs (cstr ['/', 'x']) 0o101 0 = some (none, t) ∧ ¬Untouched sharedFs t := by
  refine ⟨sharedFs_wellFormed, sharedFs_room, ?_⟩
  obtain ⟨⟨r, t⟩, hrun, heq⟩ := Option.map_eq_some_iff.mp sharedFs_run
  obtain ⟨rfl, hset⟩ := Prod.mk.inj heq
  have hclear : sharedFs.ibit 1 3 = false := by decide +kernel
  refine ⟨t, hrun, fun hsame => ?_⟩
  rw [hsame.ibit, hclear] at hset
  exact absurd hset Bool.false_ne_true

end Onixs
