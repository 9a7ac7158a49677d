import Onixs.Common.IndexTree
import Onixs.Fs.Inode

/-!
# The zone tree of an inode

`bmap` of `fs/bitmap.c`. The nine entries of `desc->zone` are the roots of an index tree
(`Onixs.IndexTree`) whose nodes are blocks of 512 zone numbers. `Onixs.Fs.zoneAt` is
the zone number in a slot of it, `Onixs.bmapSlot` the slot of a logical block, and
`Onixs.bmapLoop` the loop of the source.

The loop goes from the root to the slot, with `block` and `divider` for the way that is
left. Read along the path of the slot it is `Onixs.bmapPath`, which treats the levels
alike; that the two are the same is `Onixs.bmap_eq_path`. A call without `create` reads
the slot (`Onixs.bmap_false`).
-/

namespace Onixs

open Bytes

/-! ### The function -/

/-- One pass of the loop of `bmap`: create `array[index]` if it is missing and that is
wanted. `array` is at offset `array` of block `buf`. -/
def bmapEntry (s : Fs) (dev buf array index : ℕ) (create : Bool) : Option (ℕ × Fs) := do
  if (s.blk dev buf).getU16 (array + 2 * index) = 0 ∧ create then
    let (zone, s) ← balloc s dev
    let s := s.setBlk dev buf ((s.blk dev buf).putU16 (array + 2 * index) zone)
    return ((s.blk dev buf).getU16 (array + 2 * index), s)
  return ((s.blk dev buf).getU16 (array + 2 * index), s)

/-- The loop of `bmap`. -/
def bmapLoop (dev : ℕ) (create : Bool) :
    ℕ → Fs → ℕ → ℕ → ℕ → ℕ → ℕ → Option (ℕ × Fs)
  | 0, s, buf, array, index, _, _ => bmapEntry s dev buf array index create
  | level + 1, s, buf, array, index, block, divider => do
      let (zone, s) ← bmapEntry s dev buf array index create
      if zone = 0 then
        return (zone, s)
      bmapLoop dev create level s zone 0 (block / divider) (block % divider) (divider / blockIndexes)

/-- `bmap`. -/
def bmap (s : Fs) (i block : ℕ) (create : Bool) : Option (ℕ × Fs) := do
  assert (block < totalBlock)
  let node := s.inodeTable i
  let array := node.desc + 14
  if block < directBlock then
    bmapLoop node.dev create 0 s node.buf array block block 1
  else
    let block := block - directBlock
    if block < indirect1Block then
      bmapLoop node.dev create 1 s node.buf array directBlock block 1
    else
      let block := block - indirect1Block
      assert (block < indirect2Block)
      bmapLoop node.dev create 2 s node.buf array (directBlock + 1) block blockIndexes

/-! ### Slots -/

/-- The slots of a zone tree: the nine roots, the 512 entries of the single indirect block
and of the double indirect one, and the entries of the blocks the latter points to. -/
inductive IsSlot : List ℕ → Prop where
  /-- An entry of `desc->zone`. -/
  | root {r : ℕ} (hr : r < 9) : IsSlot [r]
  /-- An entry of the single indirect block. -/
  | single {j : ℕ} (hj : j < 512) : IsSlot [j, 7]
  /-- An entry of the double indirect block. -/
  | middle {j : ℕ} (hj : j < 512) : IsSlot [j, 8]
  /-- An entry of a block below the double indirect one. -/
  | double {k j : ℕ} (hk : k < 512) (hj : j < 512) : IsSlot [k, j, 8]

theorem IsSlot.closed : IndexTree.Closed IsSlot := by
  intro j i p h
  cases h with
  | single hj => exact .root (by omega)
  | middle hj => exact .root (by omega)
  | double hk hj => exact .middle hj

theorem IsSlot.entry_lt {j i : ℕ} {p : List ℕ} (h : IsSlot (j :: i :: p)) : j < 512 := by
  cases h with
  | single hj => exact hj
  | middle hj => exact hj
  | double hk hj => exact hk

theorem IsSlot.root_lt {r : ℕ} (h : IsSlot [r]) : r < 9 := by
  cases h with
  | root hr => exact hr

theorem IsSlot.ne_nil {p : List ℕ} (h : IsSlot p) : p ≠ [] := by
  cases h <;> simp

/-- The slot of a logical block. -/
def bmapSlot (b : ℕ) : List ℕ :=
  if b < 7 then [b] else if b < 519 then [b - 7, 7] else [(b - 519) % 512, (b - 519) / 512, 8]

theorem isSlot_bmapSlot {b : ℕ} (h : b < 262663) : IsSlot (bmapSlot b) := by
  rw [bmapSlot]
  split
  · exact .root (by omega)
  · split
    · exact .single (by omega)
    · exact .double (by omega) (by omega)

theorem bmapSlot_inj {b b' : ℕ} (h : bmapSlot b = bmapSlot b') : b = b' := by
  rw [bmapSlot, bmapSlot] at h
  split at h
  · split at h
    · simpa using h
    · split at h <;> simp at h
  · split at h
    · split at h
      · simp at h
      · split at h
        · simp at h
          omega
        · simp at h
    · split at h
      · simp at h
      · split at h
        · simp at h
        · simp at h
          omega

/-- A slot behind `p` has a slot just behind `p` on its way. -/
theorem IsSlot.of_append {p : List ℕ} (hp : p ≠ []) :
    ∀ l, l ≠ [] → IsSlot (l ++ p) → ∃ j, IsSlot (j :: p)
  | [], hl, _ => absurd rfl hl
  | [j], _, h => ⟨j, h⟩
  | j :: i :: l, _, h => IsSlot.of_append hp (i :: l) (by simp) (IsSlot.closed j i (l ++ p) h)

theorem IsSlot.suffix {p : List ℕ} (hp : p ≠ []) : ∀ l, IsSlot (l ++ p) → IsSlot p
  | [], h => h
  | [j], h => by
    obtain ⟨i, t, rfl⟩ := List.exists_cons_of_ne_nil hp
    exact IsSlot.closed j i t h
  | j :: i :: l, h => IsSlot.suffix hp (i :: l) (IsSlot.closed j i (l ++ p) h)

/-- The slots that hold the number of an index block. -/
inductive IsNode : List ℕ → Prop where
  /-- The single indirect block. -/
  | single : IsNode [7]
  /-- The double indirect block. -/
  | double : IsNode [8]
  /-- A block below the double indirect one. -/
  | middle {j : ℕ} (hj : j < 512) : IsNode [j, 8]

/-- The entries of the index blocks are slots. -/
theorem isSlot_cons_iff {j : ℕ} {p : List ℕ} (hp : p ≠ []) :
    IsSlot (j :: p) ↔ j < 512 ∧ IsNode p := by
  constructor
  · intro h
    cases h with
    | root hr => exact absurd rfl hp
    | single hj => exact ⟨hj, .single⟩
    | middle hj => exact ⟨hj, .double⟩
    | double hk hj => exact ⟨hk, .middle hj⟩
  · rintro ⟨hj, h⟩
    cases h with
    | single => exact .single hj
    | double => exact .middle hj
    | middle hi => exact .double hj hi

theorem IsNode.isSlot {p : List ℕ} (h : IsNode p) : IsSlot p := by
  cases h with
  | single => exact .root (by omega)
  | double => exact .root (by omega)
  | middle hj => exact .middle hj

theorem IsNode.ne_nil {p : List ℕ} (h : IsNode p) : p ≠ [] := h.isSlot.ne_nil

/-- Only the double indirect block has index blocks behind it. -/
theorem IsNode.eq_of_append {l p : List ℕ} (hl : l ≠ []) (hp : p ≠ []) (h : IsNode (l ++ p)) :
    p = [8] := by
  obtain ⟨a, l', rfl⟩ := List.exists_cons_of_ne_nil hl
  rw [List.cons_append] at h
  generalize hq : l' ++ p = q at h
  cases h with
  | single => exact absurd (List.append_eq_nil_iff.mp hq).2 hp
  | double => exact absurd (List.append_eq_nil_iff.mp hq).2 hp
  | middle hj =>
    cases l' with
    | nil => exact hq
    | cons x l'' =>
      rw [List.cons_append] at hq
      exact absurd (List.append_eq_nil_iff.mp (List.cons.inj hq).2).2 hp

/-- The slot of a logical block holds the number of a data zone. -/
theorem not_isNode_bmapSlot (b : ℕ) : ¬IsNode (bmapSlot b) := by
  intro h
  rw [bmapSlot] at h
  split at h
  · generalize hx : [b] = x at h
    cases h <;> simp at hx <;> omega
  · split at h
    · generalize hx : [b - 7, 7] = x at h
      cases h <;> simp at hx
    · generalize hx : [(b - 519) % 512, (b - 519) / 512, 8] = x at h
      cases h <;> simp at hx

/-- Every slot that holds no index block is that of a logical block. -/
theorem IsSlot.eq_bmapSlot {p : List ℕ} (h : IsSlot p) (hn : ¬IsNode p) :
    ∃ b < 262663, p = bmapSlot b := by
  cases h with
  | @root r hr =>
    have h7 : r ≠ 7 := fun hc => hn (hc ▸ .single)
    have h8 : r ≠ 8 := fun hc => hn (hc ▸ .double)
    exact ⟨r, by omega, by rw [bmapSlot, if_pos (by omega)]⟩
  | @single j hj =>
    refine ⟨j + 7, by omega, ?_⟩
    rw [bmapSlot, if_neg (by omega), if_pos (by omega), Nat.add_sub_cancel]
  | middle hj => exact absurd (.middle hj) hn
  | @double k j hk hj =>
    refine ⟨512 * j + k + 519, by omega, ?_⟩
    rw [bmapSlot, if_neg (by omega), if_neg (by omega), Nat.add_sub_cancel]
    rw [show (512 * j + k) % 512 = k by omega, show (512 * j + k) / 512 = j by omega]

namespace Fs

variable (s : Fs) (dev nr : ℕ)

/-- Entry `j` of the zones of the inode's descriptor. -/
def rootZone (r : ℕ) : ℕ :=
  (s.blk dev (inodeBlock (s.superDesc dev) nr)).getU16 (inodeOffset nr + 14 + 2 * r)

/-- Entry `j` of the block `z`, taken as an index block. -/
def zoneEntry (z j : ℕ) : ℕ := (s.blk dev z).getU16 (2 * j)

/-- The zone number in a slot of the inode's zone tree. -/
def zoneAt (p : List ℕ) : ℕ := IndexTree.get (s.rootZone dev nr) (s.zoneEntry dev) p

end Fs

/-! ### The loop along the path -/

/-- `bmap` along the path of a slot. -/
def bmapPath (s : Fs) (dev nr : ℕ) (create : Bool) : List ℕ → Option (ℕ × Fs)
  | [] => none
  | [r] =>
      bmapEntry s dev (inodeBlock (s.superDesc dev) nr) (inodeOffset nr + 14) r create
  | j :: i :: p => do
      let (zone, s) ← bmapPath s dev nr create (i :: p)
      if zone = 0 then
        return (zone, s)
      bmapEntry s dev zone 0 j create

section Path

variable {s : Fs} {dev nr i : ℕ}

theorem zoneAt_root (r : ℕ) : s.zoneAt dev nr [r] = s.rootZone dev nr r := rfl

theorem zoneAt_cons {j k : ℕ} {p : List ℕ} (h : s.zoneAt dev nr (k :: p) ≠ 0) :
    s.zoneAt dev nr (j :: k :: p) = s.zoneEntry dev (s.zoneAt dev nr (k :: p)) j :=
  IndexTree.get_cons h

theorem zoneAt_cons_of_null {j k : ℕ} {p : List ℕ} (h : s.zoneAt dev nr (k :: p) = 0) :
    s.zoneAt dev nr (j :: k :: p) = 0 :=
  IndexTree.get_cons_of_null h

/-- **The loop goes along the path of the slot.** -/
theorem bmap_eq_path (h : s.Holds dev nr i) {b : ℕ} (hb : b < 262663) (create : Bool) :
    bmap s i b create = bmapPath s dev nr create (bmapSlot b) := by
  have hlt : b < totalBlock := by rwa [totalBlock_eq]
  rw [bmap, assert_pos hlt, bmapSlot]
  simp only [Option.bind_eq_bind, Option.bind_some, h.dev_eq, h.buf, h.desc, directBlock_eq,
    indirect1Block_eq, indirect2Block_eq, blockIndexes_eq]
  by_cases hdirect : b < 7
  · rw [if_pos hdirect, if_pos hdirect]
    rfl
  · rw [if_neg hdirect, if_neg hdirect]
    by_cases hsingle : b < 519
    · rw [if_pos (by omega), if_pos hsingle]
      simp only [bmapLoop, bmapPath, Option.bind_eq_bind, Nat.div_one]
    · rw [if_neg (by omega), if_neg hsingle, assert_pos (by omega)]
      simp only [bmapLoop, bmapPath, blockIndexes_eq, Option.bind_eq_bind, Option.bind_some,
        Nat.div_one, Nat.sub_sub, Nat.reduceAdd, Option.bind_assoc, Nat.reduceDiv]
      refine congrArg _ (funext fun zs => ?_)
      by_cases hz : zs.1 = 0
      · simp only [if_pos hz, Option.pure_def, Option.bind_some]
      · simp only [if_neg hz]

theorem bmapEntry_false (buf array index : ℕ) :
    bmapEntry s dev buf array index false = some ((s.blk dev buf).getU16 (array + 2 * index), s) := by
  rw [bmapEntry, if_neg (by simp)]
  rfl

/-- A call without `create` only reads. -/
theorem bmapPath_false :
    ∀ p, p ≠ [] → bmapPath s dev nr false p = some (s.zoneAt dev nr p, s)
  | [], hp => absurd rfl hp
  | [r], _ => bmapEntry_false _ _ _
  | j :: i :: p, _ => by
    rw [bmapPath, bmapPath_false (i :: p) (by simp)]
    simp only [Option.bind_eq_bind, Option.bind_some]
    by_cases hz : s.zoneAt dev nr (i :: p) = 0
    · rw [if_pos hz, zoneAt_cons_of_null hz, hz]
      rfl
    · rw [if_neg hz, bmapEntry_false, zoneAt_cons hz, Nat.zero_add]
      rfl

/-- **`bmap` without `create` reads the slot of its block.** -/
theorem bmap_false (h : s.Holds dev nr i) {b : ℕ} (hb : b < 262663) :
    bmap s i b false = some (s.zoneAt dev nr (bmapSlot b), s) := by
  rw [bmap_eq_path h hb, bmapPath_false _ (isSlot_bmapSlot hb).ne_nil]

end Path

end Onixs
