import Onixs.Fs.Mount
import Onixs.Fs.Super
import Onixs.Fs.Truncate
import Onixs.Fs.WalkPath

/-!
# What `inode_open` has checked

At its end `inode_open` tests the permission the flags ask for, and that a directory is only read
(`Onixs.openMakeup`). It does not get there when `named` has come to the end of the path: then it
returns the directory, and the only test has been that of the walk. That is so for the paths
that end in a separator (`Onixs.named_next`), and for no others.
-/

namespace Onixs

open Bytes

/-! ### The end of the path -/

/-- A path whose last character is a separator. -/
def endsInSeparator (path : CStr) : Bool := path.getLast?.any isSeparator

section Strings

variable {path right : CStr}

theorem endsInSeparator_append (pre : CStr) (h : path ≠ []) :
    endsInSeparator (pre ++ path) = endsInSeparator path := by
  rw [endsInSeparator, endsInSeparator, List.getLast?_append_of_ne_nil _ h]

/-- A string without separators does not end in one. -/
theorem endsInSeparator_of_none (h : ∀ c ∈ path, isSeparator c = false) : endsInSeparator path = false := by
  rw [endsInSeparator]
  cases hlast : path.getLast? with
  | none => rfl
  | some c => exact h c (List.mem_of_getLast? hlast)

/-- **`strrsep`** splits the string at its last separator, or finds none. -/
theorem strrsep_cases : ∀ path : CStr,
    (strrsep path = none ∧ ∀ c ∈ path, isSeparator c = false) ∨
      ∃ pre sep rest, path = pre ++ sep :: rest ∧ strrsep path = some (sep :: rest) ∧
        isSeparator sep = true ∧ ∀ c ∈ rest, isSeparator c = false
  | [] => Or.inl ⟨rfl, fun _ hc => absurd hc List.not_mem_nil⟩
  | c :: path => by
    rcases strrsep_cases path with ⟨hnone, hfree⟩ | ⟨pre, sep, rest, rfl, hsome, hsep, hrest⟩
    · cases hc : isSeparator c with
      | true => exact Or.inr ⟨[], c, path, rfl, by rw [strrsep, hnone, hc]; rfl, hc, hfree⟩
      | false =>
        refine Or.inl ⟨by rw [strrsep, hnone, hc]; rfl, fun c' hc' => ?_⟩
        rcases List.mem_cons.mp hc' with rfl | hc'
        · exact hc
        · exact hfree c' hc'
    · exact Or.inr ⟨c :: pre, sep, rest, rfl, by rw [strrsep, hsome], hsep, hrest⟩

/-- Behind the last separator nothing is left exactly when the string ends in it. -/
theorem strrsep_tail_iff (h : strrsep path = some right) : right.tail = [] ↔ endsInSeparator path = true := by
  rcases strrsep_cases path with ⟨hnone, -⟩ | ⟨pre, sep, rest, rfl, hsome, hsep, hrest⟩
  · exact absurd (hnone.symm.trans h) (by simp)
  · obtain rfl := Option.some.inj (hsome.symm.trans h)
    rw [endsInSeparator_append pre (by simp), List.tail_cons]
    cases rest with
    | nil => exact iff_of_true rfl hsep
    | cons c rest =>
      refine iff_of_false (by simp) ?_
      rw [show sep :: c :: rest = [sep] ++ (c :: rest) from rfl, endsInSeparator_append [sep] (by simp),
        endsInSeparator_of_none hrest]
      exact Bool.false_ne_true

end Strings

section Walk

variable {s t : Fs} {d : ℕ} {name : CStr}

theorem addCount_ident (s : Fs) (i j : ℕ) : ((s.addCount i).inodeTable j).ident = (s.inodeTable j).ident := by
  rcases eq_or_ne j i with rfl | hne
  · rw [Fs.addCount, Fs.setInode_self]
    rfl
  · rw [Fs.addCount, Fs.setInode_of_ne _ _ hne]

/-- A descriptor is where the entry says it is. -/
theorem inodeDesc_of_ident {i : ℕ} (hident : (t.inodeTable i).ident = (s.inodeTable i).ident)
    (hblk : t.blk = s.blk) : t.inodeDesc i = s.inodeDesc i := by
  simp only [Inode.ident, Prod.mk.injEq] at hident
  obtain ⟨hdev, -, hbuf, hdesc, -⟩ := hident
  rw [Fs.inodeDesc, Fs.inodeDesc, hblk, hdev, hbuf, hdesc]

/-- The loop stops where it was told to, in a directory. -/
theorem namedLoop_dir {right : CStr} : ∀ passes (s : Fs) inode left,
    namedLoop right passes inode left s = some (some (d, name), t) →
      name = right ∧ isDir (t.inodeDesc d).mode = true := by
  intro passes
  induction passes with
  | zero => exact fun s inode left h => absurd h (by simp [namedLoop])
  | succ passes ih =>
    intro s inode left h
    obtain ⟨⟨dir, found, s₁⟩, -, h⟩ := Option.bind_eq_some_iff.mp h
    cases found with
    | none =>
      obtain ⟨s₂, -, h⟩ := Option.bind_eq_some_iff.mp h
      exact absurd h (by simp)
    | some e =>
      obtain ⟨s₂, -, h⟩ := Option.bind_eq_some_iff.mp h
      obtain ⟨⟨i, s₃⟩, -, h⟩ := Option.bind_eq_some_iff.mp h
      simp only at h
      split at h
      · obtain ⟨s₄, -, h⟩ := Option.bind_eq_some_iff.mp h
        exact absurd h (by simp)
      · rename_i hpass
        rw [not_or] at hpass
        split at h
        · rename_i hright
          obtain ⟨heq, rfl⟩ := Prod.mk.inj (Option.some.inj h)
          obtain ⟨rfl, rfl⟩ := Prod.mk.inj (Option.some.inj heq)
          exact ⟨hright.symm, by simpa using hpass.1⟩
        · exact ih s₃ i e.2 h

/-- **`named` leaves nothing of the path** exactly when it ends in a separator, and what it returns
then is a directory. -/
theorem named_next {path : CStr} (hroot : isDir (s.inodeDesc s.task.iroot).mode = true)
    (h : named s path = some (some (d, name), t)) :
    (name = [] ↔ endsInSeparator path = true) ∧ (name = [] → isDir (t.inodeDesc d).mode = true) := by
  -- a walk from a directory with something of the path left
  have hwalk : ∀ {i : ℕ} {left : CStr}, left ≠ [] → namedFrom s i left = some (some (d, name), t) →
      (name = [] ↔ endsInSeparator left = true) ∧ (name = [] → isDir (t.inodeDesc d).mode = true) := by
    intro i left hleft h
    rcases strrsep_cases left with ⟨hnone, hfree⟩ | ⟨-, sep, rest, -, hsome, -, -⟩
    · rw [namedFrom_of_none hnone] at h
      obtain ⟨heq, -⟩ := Prod.mk.inj (Option.some.inj h)
      obtain ⟨-, rfl⟩ := Prod.mk.inj (Option.some.inj heq)
      rw [endsInSeparator_of_none hfree]
      exact ⟨iff_of_false hleft Bool.false_ne_true, fun hc => absurd hc hleft⟩
    · rw [namedFrom_of_some hsome] at h
      obtain ⟨rfl, hdir⟩ := namedLoop_dir _ _ _ _ h
      exact ⟨strrsep_tail_iff hsome, fun _ => hdir⟩
  cases path with
  | nil => exact absurd h (by simp [named])
  | cons c path =>
    rw [named_cons] at h
    split at h
    · rename_i hc
      by_cases hpath : path = []
      · subst hpath
        obtain ⟨heq, rfl⟩ := Prod.mk.inj (Option.some.inj h)
        obtain ⟨rfl, rfl⟩ := Prod.mk.inj (Option.some.inj heq)
        refine ⟨iff_of_true rfl hc, fun _ => ?_⟩
        rw [inodeDesc_of_ident (addCount_ident s _ _) rfl]
        exact hroot
      · rw [show c :: path = [c] ++ path from rfl, endsInSeparator_append [c] hpath]
        exact hwalk hpath h
    · exact hwalk (by simp) h

end Walk

/-! ### What truncating leaves -/

/-- **Only blocks differ, and of the descriptor of inode `i` not what `permission` reads**: the type and
the owner in front of the size, the group and the links behind the times. -/
structure HeadKept (s t : Fs) (i : ℕ) : Prop where
  /-- The tables. -/
  only : OnlyBlocks s t
  /-- The bytes. -/
  byte : ∀ o, (o < 4 ∨ 12 ≤ o ∧ o < 14) →
    t.descBlk i ((s.inodeTable i).desc + o) = s.descBlk i ((s.inodeTable i).desc + o)

namespace HeadKept

variable {s t u : Fs} {i : ℕ}

theorem refl (s : Fs) (i : ℕ) : HeadKept s s i := ⟨OnlyBlocks.refl s, fun _ _ => rfl⟩

theorem trans (h : HeadKept s t i) (h' : HeadKept t u i) : HeadKept s u i := by
  refine ⟨h.only.trans h'.only, fun o ho => ?_⟩
  have hstep := h'.byte o ho
  rw [h.only.inodeTable] at hstep
  exact hstep.trans (h.byte o ho)

/-- A block of the bitmap is not that of the descriptor. -/
theorem bfree {z : ℕ} (hmaps : ∀ k < zmapNr, s.zmaps (s.inodeTable i).dev k ≠ some (s.inodeTable i).buf)
    (h : bfree s (s.inodeTable i).dev z = some t) : HeadKept s t i := by
  have honly := bfree_onlyBlocks h
  refine ⟨honly, fun o _ => ?_⟩
  rw [Fs.descBlk, Fs.descBlk, honly.inodeTable, bfree_blk h hmaps]

/-- A loop of such steps. -/
theorem foldlM {f : Fs → ℕ → Option Fs}
    (hf : ∀ u j v, OnlyBlocks s u → f u j = some v → HeadKept u v i) :
    ∀ (l : List ℕ) {u : Fs}, OnlyBlocks s u → l.foldlM f u = some t → HeadKept u t i
  | [], u, _, h => Option.some.inj h ▸ refl u i
  | j :: l, u, hu, h => by
    obtain ⟨v, hv, h⟩ := Option.bind_eq_some_iff.mp h
    have hstep := hf u j v hu hv
    exact hstep.trans (foldlM hf l (hu.trans hstep.only) h)

/-- The descriptor is in no block of the zone bitmap. -/
def Apart (s : Fs) (i : ℕ) : Prop :=
  ∀ k < zmapNr, s.zmaps (s.inodeTable i).dev k ≠ some (s.inodeTable i).buf

theorem apart_congr (h : Apart s i) (hnode : (t.inodeTable i).ident = (s.inodeTable i).ident)
    (hmaps : ∀ dev, t.zmaps dev = s.zmaps dev) : Apart t i := by
  simp only [Inode.ident, Prod.mk.injEq] at hnode
  obtain ⟨hdev, -, hbuf, -, -⟩ := hnode
  rw [Apart, hdev, hbuf, hmaps]
  exact h

theorem apart_blocks (h : Apart s i) (honly : OnlyBlocks s t) : Apart t i :=
  apart_congr h (by rw [honly.inodeTable]) fun _ => zmaps_congr honly.superTable

theorem inodeBfree (h : Apart s i) : ∀ level (u t : Fs) buf array index, OnlyBlocks s u →
    Onixs.inodeBfree (s.inodeTable i).dev level u buf array index = some t → HeadKept u t i := by
  have hfree : ∀ {u t : Fs} {z : ℕ}, OnlyBlocks s u →
      Onixs.bfree u (s.inodeTable i).dev z = some t → HeadKept u t i := by
    intro u t z hu hrun
    rw [← hu.inodeTable] at hrun
    exact HeadKept.bfree (apart_blocks h hu) hrun
  intro level
  induction level with
  | zero =>
    intro u t buf array index hu hrun
    rw [Onixs.inodeBfree] at hrun
    split at hrun
    · exact Option.some.inj hrun ▸ refl u i
    · exact hfree hu hrun
  | succ level ih =>
    intro u t buf array index hu hrun
    rw [Onixs.inodeBfree] at hrun
    split at hrun
    · exact Option.some.inj hrun ▸ refl u i
    · obtain ⟨v, hfold, hrun⟩ := Option.bind_eq_some_iff.mp hrun
      have hkept := HeadKept.foldlM (fun u' j v' hu' hstep => ih u' v' _ _ j hu' hstep) _ hu hfold
      exact hkept.trans (hfree (hu.trans hkept.only) hrun)

/-- A store in the descriptor behind the links. -/
theorem setZone (s : Fs) (j v : ℕ) : HeadKept s (s.setZone i j v) i := by
  refine ⟨.setBlk _ _ _ _, fun o ho => ?_⟩
  have hself : (s.setZone i j v).descBlk i
      = (s.descBlk i).putU16 ((s.inodeTable i).desc + (14 + 2 * j)) v := Fs.setBlk_blk_self _ _ _ _
  rw [hself]
  exact putU16_of_ne _ _ (by omega) (by omega)

/-- A store between the owner and the group. -/
theorem putDesc32 (s : Fs) {o : ℕ} (v : ℕ) (ho : 4 ≤ o) (ho' : o + 4 ≤ 12) :
    HeadKept s (s.putDesc32 i o v) i := by
  refine ⟨.setBlk _ _ _ _, fun k hk => ?_⟩
  have hself : (s.putDesc32 i o v).descBlk i
      = (s.descBlk i).putU32 ((s.inodeTable i).desc + o) v := Fs.setBlk_blk_self _ _ _ _
  rw [hself]
  exact putU32_of_ne _ _ (by omega)

/-- **`inode_truncate`** leaves what `permission` reads. -/
theorem inodeTruncate (h : Apart s i) (hrun : Onixs.inodeTruncate s i = some t) : HeadKept s t i := by
  rw [Onixs.inodeTruncate] at hrun
  simp only at hrun
  split at hrun
  · exact Option.some.inj hrun ▸ refl s i
  · obtain ⟨s₁, h₁, hrun⟩ := Option.bind_eq_some_iff.mp hrun
    obtain ⟨s₂, h₂, hrun⟩ := Option.bind_eq_some_iff.mp hrun
    obtain ⟨s₃, h₃, hrun⟩ := Option.bind_eq_some_iff.mp hrun
    obtain rfl := Option.some.inj hrun
    have hk₁ : HeadKept s s₁ i := by
      refine HeadKept.foldlM (fun u k v hu hstep => ?_) _ (OnlyBlocks.refl s) h₁
      obtain ⟨w, hw, hstep⟩ := Option.bind_eq_some_iff.mp hstep
      obtain rfl := Option.some.inj hstep
      exact (HeadKept.inodeBfree h _ _ _ _ _ _ hu hw).trans (setZone w k 0)
    have hk₂ := HeadKept.inodeBfree h _ _ _ _ _ _ hk₁.only h₂
    have hk₃ := HeadKept.inodeBfree h _ _ _ _ _ _ (hk₁.trans hk₂).only h₃
    refine ((hk₁.trans hk₂).trans hk₃).trans ?_
    refine ((setZone s₃ directBlock 0).trans (setZone _ (directBlock + 1) 0)).trans ?_
    have hsize : HeadKept ((s₃.setZone i directBlock 0).setZone i (directBlock + 1) 0) _ i :=
      putDesc32 _ 0 (le_refl 4) (by omega)
    exact hsize.trans (putDesc32 _ _ (by omega) (by omega))

end HeadKept

/-- What is given back is another entry, or the entry stays what it is. -/
theorem ident_iput {t u : Fs} {i j : ℕ} (hput : iput t i = some u) (hj : (u.inodeTable j).count ≠ 0) :
    (u.inodeTable j).ident = (t.inodeTable j).ident := by
  rw [Onixs.iput] at hput
  simp only at hput
  have hcount : ∀ n, ((t.setInode i { t.inodeTable i with count := n }).inodeTable j).ident
      = (t.inodeTable j).ident := by
    intro n
    rcases eq_or_ne j i with rfl | hne
    · rw [Fs.setInode_self]
      rfl
    · rw [Fs.setInode_of_ne _ _ hne]
  split at hput
  · obtain rfl := Option.some.inj hput
    exact hcount _
  · obtain ⟨_, -, hput⟩ := Option.bind_eq_some_iff.mp hput
    obtain ⟨_, h0, hput⟩ := Option.bind_eq_some_iff.mp hput
    obtain rfl := Option.some.inj hput
    have hne : j ≠ i := by
      rintro rfl
      have hzero := assert_eq_some.mp h0
      refine hj ?_
      rw [Fs.setInode_self]
      exact hzero
    rw [Fs.setInode_of_ne _ _ hne]
    exact hcount _

/-- The bitmap blocks of the devices are the same. -/
theorem iput_zmaps {t u : Fs} {i : ℕ} (hput : iput t i = some u) (dev : ℕ) : u.zmaps dev = t.zmaps dev := by
  have hsuper : ∀ k, (u.superTable k).zmaps = (t.superTable k).zmaps := by
    intro k
    rw [iput] at hput
    simp only at hput
    split at hput
    · rw [← Option.some.inj hput]
      rfl
    · obtain ⟨_, -, hput⟩ := Option.bind_eq_some_iff.mp hput
      obtain ⟨_, -, hput⟩ := Option.bind_eq_some_iff.mp hput
      rw [← Option.some.inj hput]
      rfl
  rw [Fs.zmaps, Fs.zmaps, (SameMounts.iput hput).getSuper]
  cases t.getSuper dev with
  | none => rfl
  | some k => exact hsuper k

/-! ### What has been checked -/

section Checks

variable {s t u : Fs} {i j dir flag : ℕ}

/-- What `permission` reads is the same. -/
theorem HeadKept.permits (h : HeadKept s t i) : (t.inodeDesc i).mode = (s.inodeDesc i).mode ∧
    ∀ task mask, permits task (t.inodeDesc i) mask = permits task (s.inodeDesc i) mask := by
  have hbyte : ∀ o, (o < 4 ∨ 12 ≤ o ∧ o < 14) → t.blk (s.inodeTable i).dev (s.inodeTable i).buf
      ((s.inodeTable i).desc + o) = s.blk (s.inodeTable i).dev (s.inodeTable i).buf ((s.inodeTable i).desc + o) := by
    intro o ho
    have hkept := h.byte o ho
    rw [Fs.descBlk, Fs.descBlk, h.only.inodeTable] at hkept
    exact hkept
  have h0 := hbyte 0 (by omega)
  have h1 := hbyte 1 (by omega)
  have h2 := hbyte 2 (by omega)
  have h3 := hbyte 3 (by omega)
  have h12 := hbyte 12 (by omega)
  have h13 := hbyte 13 (by omega)
  have hmode : (t.inodeDesc i).mode = (s.inodeDesc i).mode := by
    simp only [Fs.inodeDesc, readInodeDesc, Bytes.getU16, h.only.inodeTable]
    rw [h1]
    exact congrArg (fun b : BitVec 8 => b.toNat + 256 * _) h0
  have huid : (t.inodeDesc i).uid = (s.inodeDesc i).uid := by
    simp only [Fs.inodeDesc, readInodeDesc, Bytes.getU16, h.only.inodeTable, Nat.add_assoc]
    rw [h2, h3]
  have hgid : (t.inodeDesc i).gid = (s.inodeDesc i).gid := by
    simp only [Fs.inodeDesc, readInodeDesc, Bytes.getU8, h.only.inodeTable, h12]
  have hnlinks : (t.inodeDesc i).nlinks = (s.inodeDesc i).nlinks := by
    simp only [Fs.inodeDesc, readInodeDesc, Bytes.getU8, h.only.inodeTable, h13]
  exact ⟨hmode, fun task mask => by rw [Onixs.permits, Onixs.permits, hmode, huid, hgid, hnlinks]⟩

theorem openRollback_ne {inode : Option ℕ} : ¬openRollback s dir inode = some (some j, t) := by
  intro hrun
  obtain ⟨t₁, -, hrun⟩ := Option.bind_eq_some_iff.mp hrun
  obtain ⟨t₂, -, hrun⟩ := Option.bind_eq_some_iff.mp hrun
  exact Option.some_ne_none j (Prod.mk.inj (Option.some.inj hrun)).1.symm

theorem openMakeup_some (hrun : openMakeup s dir i flag = some (some j, t)) :
    j = i ∧ permission s i (accMode flag) = true ∧ (flag &&& 3 ≠ 0 → isDir (s.inodeDesc i).mode = false) ∧
      ∃ u, openTruncate (s.setAtime i s.time) i flag = some u ∧ iput u dir = some t := by
  rw [openMakeup] at hrun
  split at hrun
  · exact absurd hrun openRollback_ne
  · rename_i hperm
    split at hrun
    · exact absurd hrun openRollback_ne
    · rename_i hdir
      obtain ⟨u, htrunc, hrun⟩ := Option.bind_eq_some_iff.mp hrun
      obtain ⟨v, hput, hrun⟩ := Option.bind_eq_some_iff.mp hrun
      obtain ⟨heq, rfl⟩ := Prod.mk.inj (Option.some.inj hrun)
      refine ⟨(Option.some.inj heq).symm, by simpa using hperm, fun hflag => ?_, u, htrunc, hput⟩
      rw [not_and, not_not] at hdir
      exact Bool.eq_false_iff.mpr fun hd => hflag (hdir hd)

/-- **No inode in memory has its descriptor in a block of a zone bitmap.** `read_super` takes the
blocks of the bitmaps in front of those of the inodes. -/
def DescsApart (s : Fs) : Prop := ∀ i < inodeNr, (s.inodeTable i).count ≠ 0 → HeadKept.Apart s i

/-- **From `makeup` on**, the inode is returned with the permission the flags ask for, and not for
writing if it is a directory. -/
theorem openMakeup_checked (hlt : i < inodeNr) (hcount : (t.inodeTable i).count ≠ 0) (hapart : DescsApart t)
    (hflag : flag &&& 3 ≠ 0) (hrun : openMakeup s dir i flag = some (some j, t)) :
    j = i ∧ permission t i (accMode flag) = true ∧ isDir (t.inodeDesc i).mode = false := by
  obtain ⟨rfl, hperm, hdir, u, htrunc, hput⟩ := openMakeup_some hrun
  have hident := ident_iput hput hcount
  have hblk : t.blk = u.blk := iput_blk hput
  have htask : t.task = u.task := (SameMounts.iput hput).task
  have hkept : HeadKept (s.setAtime j s.time) u j := by
    rw [openTruncate] at htrunc
    split at htrunc
    · refine HeadKept.inodeTruncate ?_ htrunc
      have honly := inodeTruncate_onlyBlocks htrunc
      refine HeadKept.apart_congr (hapart j hlt hcount) ?_ fun dev => ?_
      · rw [hident, honly.inodeTable]
      · rw [iput_zmaps hput, zmaps_congr honly.superTable]
    · exact Option.some.inj htrunc ▸ .refl _ _
  have hdesc : t.inodeDesc j = u.inodeDesc j := inodeDesc_of_ident hident hblk
  have hstart : (s.setAtime j s.time).inodeDesc j = s.inodeDesc j := by
    rw [Fs.inodeDesc, Fs.inodeDesc, Fs.setAtime, Fs.setInode_self]
    rfl
  obtain ⟨hmode, hpermits⟩ := hkept.permits
  refine ⟨rfl, ?_, ?_⟩
  · rw [permission, htask, hkept.only.task, hdesc, hpermits, hstart]
    exact hperm
  · rw [hdesc, hmode, hstart]
    exact hdir hflag

/-- What `inode_open` returns comes from `makeup`, or is what `named` has returned with nothing left of
the path. -/
theorem inodeOpen_some {path : CStr} {mode : ℕ} (hflag : flag &&& 3 ≠ 0)
    (hrun : inodeOpen s path flag mode = some (some j, t)) :
    ∃ d name u, named s path = some (some (d, name), u) ∧
      ((name = [] ∧ j = d ∧ t = u) ∨ (name ≠ [] ∧ ∃ v e i, openMakeup v e i flag = some (some j, t))) := by
  obtain ⟨⟨dir, u⟩, hnamed, hrun⟩ := Option.bind_eq_some_iff.mp hrun
  cases dir with
  | none => exact absurd (Prod.mk.inj (Option.some.inj hrun)).1 (by simp)
  | some p =>
    obtain ⟨d, name⟩ := p
    refine ⟨d, name, u, hnamed, ?_⟩
    simp only at hrun
    split at hrun
    · rename_i hname
      obtain ⟨heq, rfl⟩ := Prod.mk.inj (Option.some.inj hrun)
      exact Or.inl ⟨hname, (Option.some.inj heq).symm, rfl⟩
    · rename_i hname
      rw [if_neg fun h => hflag h.2] at hrun
      obtain ⟨⟨e, found, v⟩, -, hrun⟩ := Option.bind_eq_some_iff.mp hrun
      refine Or.inr ⟨hname, ?_⟩
      cases found with
      | some x =>
        obtain ⟨⟨i, w⟩, -, hrun⟩ := Option.bind_eq_some_iff.mp hrun
        exact ⟨w, e, i, hrun⟩
      | none =>
        simp only [openCreate] at hrun
        split at hrun
        · exact absurd hrun openRollback_ne
        · split at hrun
          · exact absurd hrun openRollback_ne
          · obtain ⟨⟨entry, w₁⟩, -, hrun⟩ := Option.bind_eq_some_iff.mp hrun
            obtain ⟨⟨nr, w₂⟩, -, hrun⟩ := Option.bind_eq_some_iff.mp hrun
            obtain ⟨⟨i, w₃⟩, -, hrun⟩ := Option.bind_eq_some_iff.mp hrun
            exact ⟨_, e, i, hrun⟩

/-- **Opening for writing** gives no directory, and asks for the permission, unless the path ends in a
separator: then it is a directory that is open. -/
theorem inodeOpen_checked {path : CStr} {mode : ℕ} (hroot : isDir (s.inodeDesc s.task.iroot).mode = true)
    (hlt : j < inodeNr) (hcount : (t.inodeTable j).count ≠ 0) (hapart : DescsApart t) (hflag : flag &&& 3 ≠ 0)
    (hrun : inodeOpen s path flag mode = some (some j, t)) :
    if endsInSeparator path then isDir (t.inodeDesc j).mode = true
    else isDir (t.inodeDesc j).mode = false ∧ permission t j (accMode flag) = true := by
  obtain ⟨d, name, u, hnamed, hcases⟩ := inodeOpen_some hflag hrun
  obtain ⟨hends, hdir⟩ := named_next hroot hnamed
  rcases hcases with ⟨hname, rfl, rfl⟩ | ⟨hname, v, e, i, hmakeup⟩
  · rw [if_pos (hends.mp hname)]
    exact hdir hname
  · rw [if_neg fun h => hname (hends.mpr h)]
    obtain ⟨rfl, -⟩ := openMakeup_some hmakeup
    exact (openMakeup_checked hlt hcount hapart hflag hmakeup).2.symm

end Checks

end Onixs
