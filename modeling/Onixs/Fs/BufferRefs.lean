import Mathlib.Algebra.BigOperators.Group.Finset.Basic
import Onixs.Fs.Listed

/-!
# The references to the buffers

The file system with the reference counts of its buffers: `bread` takes a buffer and `brelse` gives it back,
an inode in memory has the buffer of its descriptor, and `find_entry` returns with that of the entry it has found.
The functions are those of `fs/` up to a look-up, with the same results (each has its lemma here); what
they do to the counts is said with a list of the buffers that are held, on top of those of the inodes
(`Onixs.Buffers.Refs`).
-/

namespace Onixs

open Bytes

/-- The file system and the reference counts of the buffers, by device and block. -/
structure Buffers where
  /-- Blocks and tables. -/
  fs : Fs
  /-- `bf->count`. -/
  refs : ℕ × ℕ → ℕ

namespace Buffers

/-! ### Taking and giving back -/

/-- `bread`, and `buf->count += 1`. -/
def bread (s : Buffers) (p : ℕ × ℕ) : Buffers := { s with refs := Function.update s.refs p (s.refs p + 1) }

/-- `brelse`. -/
def brelse (s : Buffers) (p : ℕ × ℕ) : Option Buffers := do
  assert (s.refs p ≠ 0)
  return { s with refs := Function.update s.refs p (s.refs p - 1) }

/-- `brelse`, which does nothing with a null pointer. -/
def brelseOpt (s : Buffers) : Option (ℕ × ℕ) → Option Buffers
  | none => some s
  | some p => s.brelse p

/-- The file system changes, the counts do not. -/
def setFs (s : Buffers) (fs : Fs) : Buffers := { s with fs := fs }

/-- The loop of `bmap`. -/
def bmapLoop (dev : ℕ) (create : Bool) :
    ℕ → Buffers → ℕ → ℕ → ℕ → ℕ → ℕ → Option (ℕ × Buffers)
  | 0, s, buf, array, index, _, _ => do
      let (zone, fs) ← bmapEntry s.fs dev buf array index create
      let s ← (s.setFs fs).brelse (dev, buf)
      return (zone, s)
  | level + 1, s, buf, array, index, block, divider => do
      let (zone, fs) ← bmapEntry s.fs dev buf array index create
      let s ← (s.setFs fs).brelse (dev, buf)
      if zone = 0 then
        return (zone, s)
      bmapLoop dev create level (s.bread (dev, zone)) zone 0 (block / divider) (block % divider)
        (divider / blockIndexes)

/-- `bmap`. -/
def bmap (s : Buffers) (i block : ℕ) (create : Bool) : Option (ℕ × Buffers) := do
  assert (block < totalBlock)
  let node := s.fs.inodeTable i
  let array := node.desc + 14
  let s := s.bread (node.dev, node.buf)
  if block < directBlock then
    bmapLoop node.dev create 0 s node.buf array block block 1
  else
    let block := block - directBlock
    if block < indirect1Block then
      bmapLoop node.dev create 1 s node.buf array directBlock block 1
    else
      let block := block - indirect1Block
      assert (block < indirect2Block)
      bmapLoop node.dev create 2 s node.buf array (directBlock + 1) block blockIndexes

/-- `iput`. -/
def iput (s : Buffers) (i : ℕ) : Option Buffers := do
  let node := s.fs.inodeTable i
  let s := s.setFs (s.fs.setInode i { node with count := sub32 node.count 1 })
  if (s.fs.inodeTable i).count ≠ 0 then
    return s
  let s ← s.brelse (node.dev, node.buf)
  let fs ← putFreeInode (removeInode s.fs i) i
  return s.setFs fs

/-- `iput`, which does nothing with a null pointer. -/
def iputOpt (s : Buffers) : Option ℕ → Option Buffers
  | none => some s
  | some i => s.iput i

/-- `fit_inode`. -/
def fitInode (s : Buffers) (i : ℕ) : Option (ℕ × Buffers) := do
  if (s.fs.inodeTable i).mount = 0 then
    return (i, s)
  let sb ← s.fs.getSuper (s.fs.inodeTable i).mount
  let s ← s.iput i
  let root ← (s.fs.superTable sb).iroot
  return (root, s.setFs (s.fs.addCount root))

/-- `iget`. -/
def iget (s : Buffers) (dev nr : ℕ) : Option (ℕ × Buffers) := do
  match ← findInode s.fs dev nr with
  | some i =>
      let node := s.fs.inodeTable i
      (s.setFs (s.fs.setInode i { node with count := u32 (node.count + 1), atime := s.fs.time })).fitInode i
  | none =>
      let (i, fs) ← Onixs.iget s.fs dev nr
      return (i, (s.setFs fs).bread (dev, inodeBlock (s.fs.superDesc dev) nr))

/-- The buffer of entry `i` of a directory, and the one before given back. -/
def entryBlock (s : Buffers) (dir i : ℕ) (buf : Option (ℕ × ℕ)) : Option (Option (ℕ × ℕ) × Buffers) := do
  if i % blockDentries = 0 then
    let s ← s.brelseOpt buf
    let (block, s) ← s.bmap dir (i / blockDentries) false
    assert (block ≠ 0)
    let p := ((s.fs.inodeTable dir).dev, block)
    return (some p, s.bread p)
  return (buf, s)

/-- The loop of `find_entry`. It returns with the buffer of the entry. -/
def findEntryLoop (dir : ℕ) (name : CStr) :
    ℕ → ℕ → Option (ℕ × ℕ) → Buffers → Option (Option (Dentry × CStr) × Buffers)
  | 0, _, buf, s => do
      let s ← s.brelseOpt buf
      return (none, s)
  | left + 1, i, buf, s => do
      let (buf, s) ← s.entryBlock dir i buf
      let (dev, block) ← buf
      let entry : Dentry := ⟨dev, block, i % blockDentries * 16⟩
      match matchName (s.fs.blk entry.dev entry.blk) name (entry.off + 2) with
      | some next =>
          if s.fs.dentryNr entry ≠ 0 then
            return (some (entry, next), s)
          findEntryLoop dir name left (i + 1) buf s
      | none => findEntryLoop dir name left (i + 1) buf s

/-- The first statement of `find_entry`. -/
def crossMount (s : Buffers) (dir : ℕ) (name : CStr) : Option (ℕ × Buffers) := do
  if (matchName dotDot name 0).isSome ∧ (s.fs.inodeTable dir).nr = 1 then
    let sb ← s.fs.getSuper (s.fs.inodeTable dir).dev
    let imount ← (s.fs.superTable sb).imount
    let s ← (s.setFs (s.fs.addCount imount)).iput dir
    return (imount, s)
  return (dir, s)

/-- `find_entry`. -/
def findEntry (s : Buffers) (dir : ℕ) (name : CStr) : Option (ℕ × Option (Dentry × CStr) × Buffers) := do
  assert (isDir (s.fs.inodeDesc dir).mode)
  let (dir, s) ← s.crossMount dir name
  let entries := (s.fs.inodeDesc dir).size / 16
  let (result, s) ← findEntryLoop dir name entries 0 none s
  return (dir, result, s)

/-- The buffer of an entry. -/
def bufferOf (e : Dentry) : ℕ × ℕ := (e.dev, e.blk)

/-- The loop of `named`, with the buffer of the entry before. -/
def namedLoop (right : CStr) :
    ℕ → ℕ → CStr → Option (ℕ × ℕ) → Buffers → Option (Option (ℕ × CStr) × Buffers)
  | 0, _, _, _, _ => none
  | passes + 1, inode, left, buf, s => do
      let s ← s.brelseOpt buf
      let (inode, found, s) ← s.findEntry inode left
      match found with
      | none =>
          let s ← s.iput inode
          return (none, s)
      | some (entry, next) =>
          let dev := (s.fs.inodeTable inode).dev
          let s ← s.iput inode
          let (inode, s) ← s.iget dev (s.fs.dentryNr entry)
          if isDir (s.fs.inodeDesc inode).mode = false ∨ permission s.fs inode pExec = false then
            let s ← s.iput inode
            return (none, s)
          if right = next then
            -- the `brelse` in front of the label `success` is not reached
            return (some (inode, next), s)
          namedLoop right passes inode next (some (bufferOf entry)) s

/-- `named`. -/
def named (s : Buffers) (pathname : CStr) : Option (Option (ℕ × CStr) × Buffers) :=
  match pathname with
  | [] => some (none, s)
  | c :: path =>
      let (inode, left) := if isSeparator c then (s.fs.task.iroot, path) else (s.fs.task.ipwd, c :: path)
      let s := s.setFs (s.fs.addCount inode)
      if left = [] then some (some (inode, left), s)
      else
        match strrsep left with
        | none => some (some (inode, left), s)
        | some right => namedLoop right.tail (left.length + 1) inode left none s

/-- `namei`. -/
def namei (s : Buffers) (pathname : CStr) : Option (Option ℕ × Buffers) := do
  let (dir, s) ← s.named pathname
  match dir with
  | none => return (none, s)
  | some (dir, name) =>
      if name = [] then
        return (some dir, s)
      let (dir, found, s) ← s.findEntry dir name
      match found with
      | none =>
          let s ← s.iput dir
          return (none, s)
      | some (entry, _) =>
          let (inode, s) ← s.iget (s.fs.inodeTable dir).dev (s.fs.dentryNr entry)
          let s ← s.iput dir
          let s ← s.brelse (bufferOf entry)
          return (some inode, s)

end Buffers

/-! ### What is held -/

/-- The references of an entry of the inode table to a buffer. -/
def Inode.pins (node : Inode) (p : ℕ × ℕ) : ℕ := if node.count ≠ 0 ∧ (node.dev, node.buf) = p then 1 else 0

/-- The references of the inodes in memory to a buffer. -/
def Fs.pins (s : Fs) (p : ℕ × ℕ) : ℕ := ∑ j ∈ Finset.range inodeNr, (s.inodeTable j).pins p

/-- **The references to the buffers**: those of the inodes, those of the list, and `base` others. -/
def Buffers.Refs (base : ℕ × ℕ → ℕ) (B : List (ℕ × ℕ)) (s : Buffers) : Prop :=
  ∀ p, s.refs p = base p + B.count p + s.fs.pins p

section Refs

variable {base : ℕ × ℕ → ℕ} {B : List (ℕ × ℕ)} {s t : Buffers} {u : Fs} {c : ℕ → ℕ} {s₀ : Fs} {L : List ℕ}
  {i dev nr r : ℕ} {p : ℕ × ℕ}

theorem pins_congr {t u : Fs} (h : u.inodeTable = t.inodeTable) : u.pins p = t.pins p := by
  rw [Fs.pins, Fs.pins, h]

/-- Another entry. -/
theorem pins_setInode (t : Fs) (hlt : i < inodeNr) (node : Inode) (p : ℕ × ℕ) :
    (t.setInode i node).pins p + (t.inodeTable i).pins p = t.pins p + node.pins p := by
  have hmem := Finset.mem_range.mpr hlt
  rw [Fs.pins, Fs.pins, ← Finset.add_sum_erase _ _ hmem, ← Finset.add_sum_erase _ (fun j => (t.inodeTable j).pins p) hmem,
    Fs.setInode_self]
  have hother : ∑ j ∈ (Finset.range inodeNr).erase i, ((t.setInode i node).inodeTable j).pins p
      = ∑ j ∈ (Finset.range inodeNr).erase i, (t.inodeTable j).pins p := by
    refine Finset.sum_congr rfl fun j hj => ?_
    rw [Fs.setInode_of_ne _ _ (Finset.ne_of_mem_erase hj)]
  rw [hother]
  omega

theorem pins_of_zero {node : Inode} (h0 : node.count = 0) (p : ℕ × ℕ) : node.pins p = 0 := if_neg fun h => h.1 h0

/-- An entry that is not in use any more. -/
theorem pins_zero {t : Fs} (hlt : i < inodeNr) {node : Inode} (h0 : node.count = 0) (p : ℕ × ℕ) :
    (t.setInode i node).pins p = t.pins p - (t.inodeTable i).pins p := by
  have hset := pins_setInode t hlt node p
  rw [pins_of_zero h0] at hset
  omega

/-- It does not matter how the entry is given up. -/
theorem pins_release (t : Fs) (hlt : i < inodeNr) {a b : Inode} (ha : a.count = 0) (hb : b.count = 0) (p : ℕ × ℕ) :
    ((removeInode t i).setInode i a).pins p = (t.setInode i b).pins p := by
  have hsame : (removeInode t i).pins p = t.pins p := pins_congr rfl
  rw [pins_zero hlt ha, pins_zero hlt hb, hsame]
  rfl

/-- An entry in use stays in use, and what it is. -/
theorem pins_retain {t : Fs} (node : Inode) (hlt : i < inodeNr) (hused : (t.inodeTable i).count ≠ 0)
    (hident : node.ident = (t.inodeTable i).ident) (hcount : node.count ≠ 0) (p : ℕ × ℕ) :
    (t.setInode i node).pins p = t.pins p := by
  have hsame : node.pins p = (t.inodeTable i).pins p := by
    rw [Inode.pins, Inode.pins, show node.dev = (t.inodeTable i).dev from congrArg Prod.fst hident,
      show node.buf = (t.inodeTable i).buf from congrArg (fun p => p.2.2.1) hident]
    exact if_congr (by simp [hused, hcount]) rfl rfl
  have hset := pins_setInode t hlt node p
  omega

namespace Buffers

theorem Refs.perm {B' : List (ℕ × ℕ)} (h : Refs base B s) (hperm : B.Perm B') : Refs base B' s := fun p => by
  rw [← hperm.count_eq]
  exact h p

theorem Refs.setFs (h : Refs base B s) (hpins : ∀ p, u.pins p = s.fs.pins p) : Refs base B (s.setFs u) := fun p =>
  (h p).trans (congrArg _ (hpins p).symm)

theorem Refs.bread (h : Refs base B s) (p : ℕ × ℕ) : Refs base (p :: B) (s.bread p) := by
  intro q
  have hq := h q
  rcases eq_or_ne q p with rfl | hne
  · change Function.update s.refs q (s.refs q + 1) q = _ + s.fs.pins q
    rw [Function.update_self, List.count_cons_self]
    omega
  · change Function.update s.refs p (s.refs p + 1) q = _ + s.fs.pins q
    rw [Function.update_of_ne hne, List.count_cons_of_ne (Ne.symm hne)]
    exact hq

/-- **`brelse`** gives a buffer back that is held. -/
theorem Refs.brelse (h : Refs base (p :: B) s) : ∃ t, s.brelse p = some t ∧ t.fs = s.fs ∧ Refs base B t := by
  have hpos := h p
  rw [List.count_cons_self] at hpos
  refine ⟨{ s with refs := Function.update s.refs p (s.refs p - 1) }, ?_, rfl, fun q => ?_⟩
  · rw [Buffers.brelse, assert_pos (by omega)]
    rfl
  · have hq := h q
    change Function.update s.refs p (s.refs p - 1) q = _ + s.fs.pins q
    rcases eq_or_ne q p with rfl | hne
    · rw [Function.update_self]
      omega
    · rw [Function.update_of_ne hne]
      rwa [List.count_cons_of_ne (Ne.symm hne)] at hq

theorem Refs.brelseOpt {o : Option (ℕ × ℕ)} (h : Refs base (o.toList ++ B) s) :
    ∃ t, s.brelseOpt o = some t ∧ t.fs = s.fs ∧ Refs base B t := by
  cases o with
  | none => exact ⟨s, rfl, rfl, h⟩
  | some p => exact h.brelse

/-! ### The functions -/

theorem brelse_bread (s : Buffers) (p : ℕ × ℕ) (u : Fs) : ((s.bread p).setFs u).brelse p = some (s.setFs u) := by
  have hback : Function.update (Function.update s.refs p (s.refs p + 1)) p
      (Function.update s.refs p (s.refs p + 1) p - 1) = s.refs := by
    rw [Function.update_self, Nat.add_sub_cancel, Function.update_idem, Function.update_eq_self]
  rw [Buffers.brelse, Buffers.setFs, Buffers.bread, assert_pos (by simp)]
  simp only [hback]
  rfl

theorem bmapLoop_refs {create : Bool} {z : ℕ} : ∀ level (s : Buffers) buf array index block divider,
    Onixs.bmapLoop dev create level s.fs buf array index block divider = some (z, u) →
    bmapLoop dev create level (s.bread (dev, buf)) buf array index block divider = some (z, s.setFs u) := by
  intro level
  induction level with
  | zero =>
    intro s buf array index block divider hrun
    have hentry : bmapEntry s.fs dev buf array index create = some (z, u) := hrun
    rw [bmapLoop, show (s.bread (dev, buf)).fs = s.fs from rfl, hentry]
    simp only [Option.bind_eq_bind, Option.bind_some, brelse_bread]
    rfl
  | succ level ih =>
    intro s buf array index block divider hrun
    obtain ⟨⟨zone, fs⟩, hentry, hrun⟩ := Option.bind_eq_some_iff.mp hrun
    rw [bmapLoop, show (s.bread (dev, buf)).fs = s.fs from rfl, hentry]
    simp only [Option.bind_eq_bind, Option.bind_some, brelse_bread] at hrun ⊢
    by_cases hzone : zone = 0
    · rw [if_pos hzone] at hrun ⊢
      obtain ⟨rfl, rfl⟩ := Prod.mk.inj (Option.some.inj hrun)
      rfl
    · rw [if_neg hzone] at hrun ⊢
      exact ih (s.setFs fs) _ _ _ _ _ hrun

/-- **`bmap`** gives back every buffer it takes. -/
theorem bmap_refs {b z : ℕ} {create : Bool} (hrun : Onixs.bmap s.fs i b create = some (z, u)) :
    s.bmap i b create = some (z, s.setFs u) := by
  obtain ⟨_, hb, hrun⟩ := Option.bind_eq_some_iff.mp hrun
  rw [Buffers.bmap, hb]
  simp only [Option.bind_eq_bind, Option.bind_some] at hrun ⊢
  split at hrun
  · rw [if_pos ‹_›]
    exact bmapLoop_refs _ _ _ _ _ _ _ hrun
  · rw [if_neg ‹_›]
    split at hrun
    · rw [if_pos ‹_›]
      exact bmapLoop_refs _ _ _ _ _ _ _ hrun
    · obtain ⟨_, hb', hrun⟩ := Option.bind_eq_some_iff.mp hrun
      rw [if_neg ‹_›, hb', Option.bind_some]
      exact bmapLoop_refs _ _ _ _ _ _ _ hrun

/-- **`iput`** gives the buffer of the descriptor back with the last reference. -/
theorem Refs.iput (h : Refs base B s) (hlt : i < inodeNr) (hpos : (s.fs.inodeTable i).count ≠ 0)
    (hsmall : (s.fs.inodeTable i).count < 4294967296) (hrun : Onixs.iput s.fs i = some u) :
    ∃ t, s.iput i = some t ∧ t.fs = u ∧ Refs base B t := by
  have hcases := iput_eq_cases hpos hsmall hrun
  have hsub : sub32 (s.fs.inodeTable i).count 1 = (s.fs.inodeTable i).count - 1 := sub32_of_le hsmall (by omega)
  rw [Onixs.iput, hsub] at hrun
  rw [Buffers.iput, hsub]
  simp only [Buffers.setFs, Fs.setInode_self] at hrun ⊢
  rcases hcases with ⟨hlast, rfl⟩ | ⟨hlast, hu⟩
  · have hleft : (s.fs.inodeTable i).count - 1 ≠ 0 := by omega
    have hpins : ∀ q, (s.fs.setInode i { s.fs.inodeTable i with count := (s.fs.inodeTable i).count - 1 }).pins q
        = s.fs.pins q := pins_retain _ hlt hpos rfl hleft
    rw [if_pos hleft]
    exact ⟨_, rfl, rfl, h.setFs hpins⟩
  · have hzero : (s.fs.inodeTable i).count - 1 = 0 := by omega
    rw [if_neg (not_not_intro hzero)] at hrun ⊢
    generalize hv : s.fs.setInode i { s.fs.inodeTable i with count := (s.fs.inodeTable i).count - 1 } = v at hrun ⊢
    -- the reference of the entry is now that of the caller
    have hheld : Refs base (((s.fs.inodeTable i).dev, (s.fs.inodeTable i).buf) :: B) (s.setFs v) := by
      intro q
      have hset := pins_setInode s.fs hlt { s.fs.inodeTable i with count := (s.fs.inodeTable i).count - 1 } q
      have hnew : ({ s.fs.inodeTable i with count := (s.fs.inodeTable i).count - 1 } : Inode).pins q = 0 :=
        pins_of_zero hzero q
      rw [hv, hnew, Inode.pins] at hset
      have hq := h q
      change s.refs q = _ + v.pins q
      rcases eq_or_ne q ((s.fs.inodeTable i).dev, (s.fs.inodeTable i).buf) with rfl | hne
      · rw [if_pos ⟨hpos, rfl⟩] at hset
        rw [List.count_cons_self]
        omega
      · rw [if_neg fun hc => hne hc.2.symm] at hset
        rw [List.count_cons_of_ne (Ne.symm hne)]
        omega
    have hpins : ∀ q, u.pins q = v.pins q := fun q => by
      rw [hu, ← hv]
      exact pins_release s.fs hlt rfl hzero q
    obtain ⟨t, hrel, hfs, ht⟩ := hheld.brelse
    change t.fs = v at hfs
    refine ⟨t.setFs u, ?_, rfl, ht.setFs fun q => by rw [hpins, hfs]⟩
    rw [Buffers.setFs] at hrel
    rw [hrel]
    simp only [Option.bind_eq_bind, Option.bind_some, hfs]
    rw [show putFreeInode (removeInode v i) i = some u from hrun]
    rfl

theorem Refs.iputOpt {o : Option ℕ} (h : Refs base B s) (hold : Holding c s₀ s.fs (o.toList ++ L))
    (hroom : Room c (L.length + 1)) (hrun : Onixs.iputOpt s.fs o = some u) :
    ∃ t, s.iputOpt o = some t ∧ t.fs = u ∧ Refs base B t := by
  cases o with
  | none => exact ⟨s, rfl, Option.some.inj hrun, h⟩
  | some i => exact h.iput (hold.lt i List.mem_cons_self) hold.count_pos (hold.count_lt hroom) hrun

/-- Another reference to an inode in use takes no buffer. -/
theorem Refs.addCount (h : Refs base B s) (hold : Holding c s₀ s.fs L) (hroom : Room c (L.length + 1)) (hlt : i < inodeNr)
    (hused : (s.fs.inodeTable i).count ≠ 0) : Refs base B (s.setFs (s.fs.addCount i)) := by
  refine h.setFs (pins_retain _ hlt hused rfl ?_)
  change u32 ((s.fs.inodeTable i).count + 1) ≠ 0
  rw [u32_of_lt (hold.room hroom hlt)]
  exact Nat.succ_ne_zero _

theorem Refs.fitInode (hpin : Pinned c s₀) (h : Refs base B s) (hold : Holding c s₀ s.fs (i :: L))
    (hroom : Room c (L.length + 1)) (hrun : Onixs.fitInode s.fs i = some (r, u)) :
    ∃ t, s.fitInode i = some (r, t) ∧ t.fs = u ∧ Refs base B t := by
  rw [Onixs.fitInode] at hrun
  rw [Buffers.fitInode]
  by_cases hm : (s.fs.inodeTable i).mount = 0
  · rw [if_pos hm] at hrun ⊢
    obtain ⟨rfl, rfl⟩ := Prod.mk.inj (Option.some.inj hrun)
    exact ⟨s, rfl, rfl, h⟩
  · rw [if_neg hm] at hrun ⊢
    obtain ⟨k, hk, hrun⟩ := Option.bind_eq_some_iff.mp hrun
    obtain ⟨v, hput, hrun⟩ := Option.bind_eq_some_iff.mp hrun
    obtain ⟨root, hroot, hrun⟩ := Option.bind_eq_some_iff.mp hrun
    obtain ⟨rfl, rfl⟩ := Prod.mk.inj (Option.some.inj hrun)
    obtain ⟨t, hput', rfl, ht⟩ := h.iput (hold.lt i List.mem_cons_self) hold.count_pos (hold.count_lt hroom) hput
    have hold' := hold.iput hroom hput
    have hpinned := hroot
    rw [hold'.iroot] at hpinned
    obtain ⟨hlt, hused⟩ := hpin.iroot k (getSuper_lt hk) root hpinned
    refine ⟨_, ?_, rfl, ht.addCount hold' hroom hlt (hold'.used_of_pinned hused)⟩
    simp only [Option.bind_eq_bind, hk, Option.bind_some, hput', hroot]
    rfl

/-- **`iget`** takes the buffer of the descriptor with the first reference. -/
theorem Refs.iget (hpin : Pinned c s₀) (h : Refs base B s) (hold : Holding c s₀ s.fs L) (hroom : Room c (L.length + 1))
    (hrun : Onixs.iget s.fs dev nr = some (r, u)) :
    ∃ t, s.iget dev nr = some (r, t) ∧ t.fs = u ∧ Refs base B t := by
  have hget := hrun
  rw [Onixs.iget] at hrun
  obtain ⟨found, hfind, hrun⟩ := Option.bind_eq_some_iff.mp hrun
  rw [Buffers.iget, hfind]
  cases found with
  | some i =>
    obtain ⟨k, -, hmem, -⟩ := findInode_some hfind
    obtain ⟨hlt, hused⟩ := hold.ok.used k i hmem
    have hcount : u32 ((s.fs.inodeTable i).count + 1) = (s.fs.inodeTable i).count + 1 := u32_of_lt (hold.room hroom hlt)
    have hold' : Holding c s₀ (s.fs.setInode i { s.fs.inodeTable i with
        count := u32 ((s.fs.inodeTable i).count + 1), atime := s.fs.time }) (i :: L) := hold.retain hlt hused rfl hcount
    have hmore : u32 ((s.fs.inodeTable i).count + 1) ≠ 0 := by
      rw [hcount]
      exact Nat.succ_ne_zero _
    have h' : Refs base B (s.setFs (s.fs.setInode i { s.fs.inodeTable i with
        count := u32 ((s.fs.inodeTable i).count + 1), atime := s.fs.time })) :=
      h.setFs (pins_retain _ hlt hused rfl hmore)
    exact h'.fitInode hpin hold' hroom hrun
  | none =>
    obtain ⟨k, hk, hrun⟩ := Option.bind_eq_some_iff.mp hrun
    obtain ⟨_, -, hrun⟩ := Option.bind_eq_some_iff.mp hrun
    obtain ⟨i, hfree, hrun⟩ := Option.bind_eq_some_iff.mp hrun
    obtain ⟨rfl, rfl⟩ := Prod.mk.inj (Option.some.inj hrun)
    obtain ⟨hlt, hdev⟩ := getFreeInode_some hfree
    have h0 := (hold.ok.free_iff i hlt).mp hdev
    refine ⟨(s.setFs (withFresh s.fs k i dev nr)).bread (dev, inodeBlock (s.fs.superDesc dev) nr), ?_, rfl, fun q => ?_⟩
    · simp only [Option.bind_eq_bind, Option.bind_some]
      rw [hget]
      rfl
    · -- the buffer is taken for the entry
      have hset := pins_setInode (s.fs.setSuper k
        { s.fs.superTable k with inodeList := i :: (s.fs.superTable k).inodeList }) hlt (freshInode s.fs i dev nr) q
      have hsame : (s.fs.setSuper k
        { s.fs.superTable k with inodeList := i :: (s.fs.superTable k).inodeList }).pins q = s.fs.pins q := pins_congr rfl
      have hone : (freshInode s.fs i dev nr).count ≠ 0 := by
        rw [freshInode, h0]
        exact Nat.one_ne_zero
      rw [hsame, Fs.setSuper_inodeTable, pins_of_zero h0, Inode.pins] at hset
      have hq := h q
      change Function.update s.refs _ (s.refs _ + 1) q = _ + (withFresh s.fs k i dev nr).pins q
      change (withFresh s.fs k i dev nr).pins q + 0 = _ at hset
      rcases eq_or_ne q (dev, inodeBlock (s.fs.superDesc dev) nr) with rfl | hne
      · rw [if_pos ⟨hone, rfl⟩] at hset
        rw [Function.update_self]
        omega
      · rw [if_neg fun hc => hne hc.2.symm] at hset
        rw [Function.update_of_ne hne]
        omega

/-- **The buffer of a directory's block** takes the place of the one before. -/
theorem Refs.entryBlock {dir block z : ℕ} {o : Option (ℕ × ℕ)} (h : Refs base (o.toList ++ B) s)
    (hbefore : i % blockDentries ≠ 0 → o = some ((s.fs.inodeTable dir).dev, block))
    (hrun : Onixs.entryBlock s.fs dir i block false = some (z, u)) :
    ∃ t, s.entryBlock dir i o = some (some ((s.fs.inodeTable dir).dev, z), t) ∧ t.fs = u ∧
      Refs base (((s.fs.inodeTable dir).dev, z) :: B) t := by
  rw [Onixs.entryBlock] at hrun
  rw [Buffers.entryBlock]
  by_cases hfirst : i % blockDentries = 0
  · rw [if_pos hfirst] at hrun ⊢
    obtain ⟨⟨z', v⟩, hmap, hrun⟩ := Option.bind_eq_some_iff.mp hrun
    obtain ⟨_, hz, hrun⟩ := Option.bind_eq_some_iff.mp hrun
    obtain ⟨rfl, rfl⟩ := Prod.mk.inj (Option.some.inj hrun)
    obtain ⟨s', hrel, hfs, h'⟩ := h.brelseOpt
    rw [← hfs] at hmap
    have honly := bmap_onlyBlocks hmap
    have hv : Refs base B (s'.setFs v) := h'.setFs fun q => pins_congr honly.inodeTable
    refine ⟨(s'.setFs v).bread ((s.fs.inodeTable dir).dev, z'), ?_, rfl, hv.bread _⟩
    rw [hrel]
    simp only [Option.bind_eq_bind, Option.bind_some, bmap_refs hmap]
    rw [hz, Option.bind_some, show (s'.setFs v).fs.inodeTable = s.fs.inodeTable by rw [← hfs]; exact honly.inodeTable]
    rfl
  · rw [if_neg hfirst] at hrun ⊢
    obtain ⟨rfl, rfl⟩ := Prod.mk.inj (Option.some.inj hrun)
    obtain rfl := hbefore hfirst
    exact ⟨s, rfl, rfl, h⟩

/-- **The loop of `find_entry`** holds the buffer of the entry it has found, and no other. -/
theorem Refs.findEntryLoop {dir : ℕ} {name : CStr} {e : Option (Dentry × CStr)} :
    ∀ left i block o (s : Buffers), Refs base (o.toList ++ B) s →
    (i % blockDentries ≠ 0 → o = some ((s.fs.inodeTable dir).dev, block)) →
    Onixs.findEntryLoop dir name left i block s.fs = some (e, u) →
    ∃ t, s.findEntryLoop dir name left i o = some (e, t) ∧ t.fs = u ∧
      Refs base ((e.map fun e => bufferOf e.1).toList ++ B) t := by
  intro left
  induction left with
  | zero =>
    intro i block o s h _ hrun
    obtain ⟨rfl, rfl⟩ := Prod.mk.inj (Option.some.inj hrun)
    obtain ⟨t, hrel, hfs, ht⟩ := h.brelseOpt
    refine ⟨t, ?_, hfs, ht⟩
    rw [Buffers.findEntryLoop, hrel]
    rfl
  | succ left ih =>
    intro i block o s h hbefore hrun
    obtain ⟨⟨z, v⟩, hblock, hrun⟩ := Option.bind_eq_some_iff.mp hrun
    obtain ⟨t, hblock', rfl, ht⟩ := h.entryBlock hbefore hblock
    have htable := (entryBlock_onlyBlocks hblock).inodeTable
    -- the loop goes on with the buffer of this entry
    have hnext : Onixs.findEntryLoop dir name left (i + 1) z t.fs = some (e, u) →
        ∃ t', t.findEntryLoop dir name left (i + 1) (some ((s.fs.inodeTable dir).dev, z)) = some (e, t') ∧ t'.fs = u ∧
          Refs base ((e.map fun e => bufferOf e.1).toList ++ B) t' :=
      ih (i + 1) z (some ((s.fs.inodeTable dir).dev, z)) t ht fun _ => by rw [htable]
    rw [Buffers.findEntryLoop, hblock']
    simp only [Option.bind_eq_bind, Option.bind_some, htable] at hrun ⊢
    cases hmatch : matchName (t.fs.blk (s.fs.inodeTable dir).dev z) name (i % blockDentries * 16 + 2) with
    | none =>
      rw [hmatch] at hrun
      exact hnext hrun
    | some next =>
      rw [hmatch] at hrun
      dsimp only at hrun ⊢
      by_cases hnr : t.fs.dentryNr ⟨(s.fs.inodeTable dir).dev, z, i % blockDentries * 16⟩ ≠ 0
      · rw [if_pos hnr] at hrun ⊢
        obtain ⟨rfl, rfl⟩ := Prod.mk.inj (Option.some.inj hrun)
        exact ⟨t, rfl, rfl, ht⟩
      · rw [if_neg hnr] at hrun ⊢
        exact hnext hrun

theorem Refs.crossMount {dir d : ℕ} {name : CStr} (hpin : Pinned c s₀) (h : Refs base B s)
    (hold : Holding c s₀ s.fs (dir :: L)) (hroom : Room c (L.length + 2))
    (hrun : Onixs.crossMount s.fs dir name = some (d, u)) :
    ∃ t, s.crossMount dir name = some (d, t) ∧ t.fs = u ∧ Refs base B t := by
  rw [Onixs.crossMount] at hrun
  rw [Buffers.crossMount]
  split at hrun
  · rename_i hcross
    obtain ⟨k, hk, hrun⟩ := Option.bind_eq_some_iff.mp hrun
    obtain ⟨m, hm, hrun⟩ := Option.bind_eq_some_iff.mp hrun
    obtain ⟨v, hput, hrun⟩ := Option.bind_eq_some_iff.mp hrun
    obtain ⟨rfl, rfl⟩ := Prod.mk.inj (Option.some.inj hrun)
    have hpinned := hm
    rw [hold.imount] at hpinned
    obtain ⟨hlt, hused⟩ := hpin.imount k (getSuper_lt hk) m hpinned
    have hmore := hold.addCount hroom hlt (hold.used_of_pinned hused)
    have hswap : Holding c s₀ (s.fs.addCount m) (dir :: m :: L) := hmore.perm (List.Perm.swap dir m L)
    obtain ⟨t, hput', hfs, ht⟩ := (h.addCount hold hroom hlt (hold.used_of_pinned hused)).iput
      (hswap.lt dir List.mem_cons_self) hswap.count_pos (hswap.count_lt hroom) hput
    refine ⟨t, ?_, hfs, ht⟩
    rw [if_pos hcross, hk]
    simp only [Option.bind_eq_bind, Option.bind_some, hm]
    rw [hput']
    rfl
  · rename_i hcross
    obtain ⟨rfl, rfl⟩ := Prod.mk.inj (Option.some.inj hrun)
    exact ⟨s, if_neg hcross, rfl, h⟩

/-- **`find_entry`** comes back with the buffer of the entry it has found. -/
theorem Refs.findEntry {dir d : ℕ} {name : CStr} {e : Option (Dentry × CStr)} (hpin : Pinned c s₀) (h : Refs base B s)
    (hold : Holding c s₀ s.fs (dir :: L)) (hroom : Room c (L.length + 2))
    (hrun : Onixs.findEntry s.fs dir name = some (d, e, u)) :
    ∃ t, s.findEntry dir name = some (d, e, t) ∧ t.fs = u ∧
      Refs base ((e.map fun e => bufferOf e.1).toList ++ B) t := by
  obtain ⟨hdir, v, hcross, hloop⟩ := findEntry_some hrun
  obtain ⟨t, hcross', rfl, ht⟩ := h.crossMount hpin hold hroom hcross
  obtain ⟨t', hloop', hfs, ht'⟩ := Refs.findEntryLoop _ 0 0 none t ht (fun hc => absurd (Nat.zero_mod _) hc) hloop
  refine ⟨t', ?_, hfs, ht'⟩
  rw [Buffers.findEntry, assert_pos hdir]
  simp only [Option.bind_eq_bind, Option.bind_some, hcross', hloop']
  rfl

end Buffers

end Refs

end Onixs
