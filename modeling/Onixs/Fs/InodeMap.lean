import Mathlib.Data.Nat.Find
import Onixs.Common.Run
import Onixs.Fs.Mounted

/-!
# Runs of the inode allocator

Any sequence of `ialloc`, called while some inode is free, and of `ifree` on
allocated inodes. What is asked of a step (`Onixs.InodeOp.Post`): `ialloc` returns a
number of `1..inodes` that was free and marks it and nothing else; `ifree nr` clears
the bit of `nr` and nothing else.

Two slips limit where the code does this. The buffers are numbered `i * BLOCK_SIZE`
and not `i * BLOCK_BITS`, so that past the first buffer another number is returned, or
another bit cleared; and the bound is `idx < inodes`, so that the last inode can be
neither handed out nor released. `Onixs.InodeOp.Agrees` says that a step meets
neither: `ialloc` has a free inode below both bounds, and so takes one, and `ifree` is
about such an inode.
-/

namespace Onixs

open Bytes

/-- The operations of the inode allocator. -/
inductive InodeOp where
  /-- Allocate an inode. -/
  | ialloc : InodeOp
  /-- Release an inode. -/
  | ifree (nr : ℕ) : InodeOp

/-- One step of the inode allocator; `ifree` returns nothing of interest. -/
def inodeStep (dev : ℕ) (s : Fs) : InodeOp → Option (ℕ × Fs)
  | .ialloc => ialloc s dev
  | .ifree nr => (ifree s dev nr).map fun t => (0, t)

/-- Inode `nr` is one of the device's and its bit is clear. -/
def InodeFree (s : Fs) (dev nr : ℕ) : Prop :=
  InodePos (s.superDesc dev) nr ∧ s.ibit dev nr = false

/-- Inode `nr` is one of the device's, its position is in the bitmap, and its bit is set. -/
def InodeUsed (s : Fs) (dev nr : ℕ) : Prop :=
  InodePos (s.superDesc dev) nr ∧ nr / 8192 < (s.superDesc dev).imapBlocks ∧
    s.ibit dev nr = true

/-- The inode bitmap marks free only numbers of `1..inodes`. -/
def FreeAreInodes (s : Fs) (dev : ℕ) : Prop :=
  ∀ nr, s.ibit dev nr = false → InodePos (s.superDesc dev) nr

/-- Position `nr` of the inode bitmap becomes `v` and nothing else changes. -/
def OnlyIbit (s : Fs) (dev nr : ℕ) (v : Bool) (t : Fs) : Prop := OnlyBit s dev (s.imaps dev) nr v t

namespace InodeOp

/-- `ialloc` is called while an inode is free, `ifree` on one that is allocated. -/
def Legal (dev : ℕ) (s : Fs) : InodeOp → Prop
  | ialloc => ∃ nr, InodeFree s dev nr
  | ifree nr => InodeUsed s dev nr

/-- What a step has to do. -/
def Post (dev : ℕ) (s : Fs) : InodeOp → ℕ → Fs → Prop
  | ialloc, r, t => InodeFree s dev r ∧ OnlyIbit s dev r true t
  | ifree nr, _, t => OnlyIbit s dev nr false t

/-- When a step does it: a free inode, or the inode to release, that is in the first bitmap
block and is not the last inode. -/
def Agrees (dev : ℕ) (s : Fs) : InodeOp → Prop
  | ialloc => ∃ nr, InodeFree s dev nr ∧ nr < blockBits ∧ nr < (s.superDesc dev).inodes
  | ifree nr => nr < blockBits ∧ nr < (s.superDesc dev).inodes

end InodeOp

/-! ### One step -/

section Step

variable {s : Fs} {dev : ℕ}

theorem OnlyIbit.of_setIbit (hm : Mounted s dev) {nr b : ℕ}
    (hb : s.imaps dev (nr / 8192) = some b) (v : Bool) :
    OnlyIbit s dev nr v (s.setIbit dev nr v) :=
  OnlyBit.of_setMapBit hm.distinct_imaps hb v

theorem OnlyIbit.ibit (hm : Mounted s dev) {nr : ℕ} {v : Bool} {t : Fs}
    (h : OnlyIbit s dev nr v t) (nr' : ℕ) :
    t.ibit dev nr' = if nr' = nr then v else s.ibit dev nr' := by
  rw [Fs.ibit, (OnlyBit.mounted hm hm.imap_ne_one h).2.2.2]
  exact h.bits nr'

/-- **What `ialloc` does with a free inode**: it takes the least free inode `g`, and calls it
`g % 8192 + g / 8192 * 1024`. -/
theorem ialloc_of_free (hm : Mounted s dev) (hex : ∃ nr, InodeFree s dev nr) :
    ∃ g, s.ibit dev g = false ∧ (∀ g' < g, s.ibit dev g' = true) ∧
      ialloc s dev = (assert (g % 8192 + g / 8192 * 1024 < (s.superDesc dev).inodes)).bind
        fun _ => some (g % 8192 + g / 8192 * 1024, s.setIbit dev g true) := by
  classical
  obtain ⟨nr, -, hnr⟩ := hex
  have hclear : ∃ g, s.ibit dev g = false := ⟨nr, hnr⟩
  have hg : s.ibit dev (Nat.find hclear) = false := Nat.find_spec hclear
  have hleast : ∀ g' < Nat.find hclear, s.ibit dev g' = true := fun g' hg' => by
    simpa using Nat.find_min hclear hg'
  exact ⟨Nat.find hclear, hg, hleast, ialloc_found hm hg hleast⟩

/-- The number an allocation returns is the inode it marks only in the first bitmap block. -/
theorem ialloc_meets_iff (hm : Mounted s dev) (hfree : FreeAreInodes s dev)
    (hex : ∃ nr, InodeFree s dev nr) :
    (∃ r t, ialloc s dev = some (r, t) ∧ InodeOp.ialloc.Post dev s r t) ↔
      InodeOp.ialloc.Agrees dev s := by
  obtain ⟨g, hg, hleast, hrun⟩ := ialloc_of_free hm hex
  obtain ⟨b, hb⟩ := buffer_of_clear hg
  have honly : OnlyIbit s dev g true (s.setIbit dev g true) := OnlyIbit.of_setIbit hm hb true
  rw [hrun]
  constructor
  · rintro ⟨r, t, h, hpost⟩
    obtain ⟨_, hlt, h⟩ := Option.bind_eq_some_iff.mp h
    obtain ⟨rfl, rfl⟩ := Prod.mk.injEq _ _ _ _ ▸ Option.some.inj h
    rw [assert_eq_some] at hlt
    -- the bit of the number returned was clear and is set, so it is the one that changed
    have hsame : g % 8192 + g / 8192 * 1024 = g := by
      by_contra hne
      have hset := hpost.2.ibit hm (g % 8192 + g / 8192 * 1024)
      rw [if_pos rfl, honly.ibit hm, if_neg hne, hpost.1.2] at hset
      exact Bool.noConfusion hset
    refine ⟨g, ⟨hfree g hg, hg⟩, ?_, ?_⟩
    · rw [blockBits_eq]
      omega
    · omega
  · rintro ⟨nr, ⟨-, hnr⟩, h8, hlt⟩
    have hle : g ≤ nr := by
      by_contra hgt
      rw [hleast nr (by omega)] at hnr
      exact Bool.noConfusion hnr
    rw [blockBits_eq] at h8
    have hsame : g % 8192 + g / 8192 * 1024 = g := by omega
    rw [hsame, assert_pos (by omega)]
    exact ⟨g, s.setIbit dev g true, rfl, ⟨hfree g hg, hg⟩, honly⟩

/-- `ifree` clears the bit of its inode only in the first bitmap block, below the last inode. -/
theorem ifree_meets_iff (hm : Mounted s dev) {nr : ℕ} (hused : InodeUsed s dev nr) :
    (∃ r t, inodeStep dev s (.ifree nr) = some (r, t) ∧ (InodeOp.ifree nr).Post dev s r t) ↔
      (InodeOp.ifree nr).Agrees dev s := by
  obtain ⟨⟨h0, -⟩, hin, hbit⟩ := hused
  constructor
  · rintro ⟨r, t, h, hpost⟩
    obtain ⟨t', hrun, h⟩ := Option.map_eq_some_iff.mp h
    obtain ⟨-, rfl⟩ := Prod.mk.injEq _ _ _ _ ▸ h
    have hlt : nr < (s.superDesc dev).inodes := by
      by_contra hge
      obtain ⟨sb, hsb⟩ := hm.super
      rw [ifree, hsb, Option.bind_eq_bind, Option.bind_some] at hrun
      simp only [assert_neg hge, Option.bind_eq_bind, Option.bind_none] at hrun
      exact absurd hrun (by simp)
    refine ⟨?_, hlt⟩
    rw [blockBits_eq]
    by_contra hge
    obtain ⟨g, b, hb, hne, rfl⟩ := ifree_of_ge hm hlt (by omega) hrun
    have hclear := OnlyIbit.ibit hm hpost nr
    rw [if_pos rfl, (OnlyIbit.of_setIbit hm hb false).ibit hm, if_neg (Ne.symm hne), hbit] at hclear
    exact Bool.noConfusion hclear
  · rintro ⟨h8, hlt⟩
    rw [blockBits_eq] at h8
    refine ⟨0, s.setIbit dev nr false, ?_, OnlyIbit.of_setIbit hm (hm.imap_some hin) false⟩
    rw [inodeStep, ifree_of_lt hm h0 hlt h8 hbit, Option.map_some]

/-- **A step does its duty exactly on the first bitmap block, below the last inode.** -/
theorem inodeStep_meets_iff (hm : Mounted s dev) (hfree : FreeAreInodes s dev) (op : InodeOp)
    (hlegal : op.Legal dev s) :
    (∃ r t, inodeStep dev s op = some (r, t) ∧ op.Post dev s r t) ↔ op.Agrees dev s := by
  cases op with
  | ialloc => exact ialloc_meets_iff hm hfree hlegal
  | ifree nr => exact ifree_meets_iff hm hlegal

/-- A step that does its duty leaves the device as the next step needs it. -/
theorem inodeStep_inv (hm : Mounted s dev) (hfree : FreeAreInodes s dev) {op : InodeOp}
    (hlegal : op.Legal dev s) {r : ℕ} {t : Fs} (hpost : op.Post dev s r t) :
    Mounted t dev ∧ FreeAreInodes t dev := by
  have hkeep : ∀ {nr : ℕ} {v : Bool}, OnlyIbit s dev nr v t → InodePos (s.superDesc dev) nr →
      Mounted t dev ∧ FreeAreInodes t dev := by
    intro nr v h hpos
    obtain ⟨hmt, hdesc, -, -⟩ := OnlyBit.mounted hm hm.imap_ne_one h
    refine ⟨hmt, fun nr' hnr' => ?_⟩
    rw [hdesc]
    rw [h.ibit hm] at hnr'
    split at hnr'
    · rename_i heq
      exact heq ▸ hpos
    · exact hfree nr' hnr'
  cases op with
  | ialloc => exact hkeep hpost.2 hpost.1.1
  | ifree nr => exact hkeep hpost hlegal.1

end Step

/-! ### Any run -/

/-- **The inode allocator is right exactly on the runs that stay in the first bitmap block,
below the last inode.** On a mounted device whose bitmap marks free only numbers of
`1..inodes`, a run of `ialloc` with an inode free and of `ifree` on allocated inodes never
stops and does at every step what it has to, if and only if every step of it satisfies
`Onixs.InodeOp.Agrees`. -/
theorem inodeRun_meets_iff {s : Fs} {dev : ℕ} (hm : Mounted s dev) (hfree : FreeAreInodes s dev)
    (ops : List InodeOp) (hlegal : Run.Along (inodeStep dev) (fun t op => op.Legal dev t) s ops) :
    Run.Meets (inodeStep dev) (fun t op => op.Post dev t) s ops ↔
      Run.Along (inodeStep dev) (fun t op => op.Agrees dev t) s ops :=
  Run.meets_iff_along (fun t => Mounted t dev ∧ FreeAreInodes t dev)
    (fun _ op hinv hl => inodeStep_meets_iff hinv.1 hinv.2 op hl)
    (fun _ _ _ _ hinv hl _ hpost => inodeStep_inv hinv.1 hinv.2 hl hpost) ops s ⟨hm, hfree⟩ hlegal

/-! ### A device with every inode in use -/

/-- The descriptor of a device of 9000 inodes, with two inode bitmap blocks. -/
def inodeDesc9000 : SuperDesc where
  inodes := 9000
  zones := 20000
  imapBlocks := 2
  zmapBlocks := 3
  firstdatazone := 289
  magic := 0x137F

/-- The device, with a bitmap that marks every inode used. -/
def inodeDevice : Fs := deviceFs inodeDesc9000 fun _ _ => 255#8

theorem inodeDesc9000_valid : inodeDesc9000.Valid :=
  ⟨by decide, by decide, by decide, by decide, by decide, by decide⟩

theorem inodeDevice_mounted : Mounted inodeDevice 1 := mounted_deviceFs inodeDesc9000_valid _

theorem inodeDevice_superDesc : inodeDevice.superDesc 1 = inodeDesc9000 :=
  deviceFs_superDesc inodeDesc9000_valid _

theorem inodeDevice_freeAreInodes : FreeAreInodes inodeDevice 1 := fun g hg =>
  absurd ((ibit_deviceFs inodeDesc9000_valid g).symm.trans hg) Bool.noConfusion

theorem inodeDevice_used {nr : ℕ} (h0 : 1 ≤ nr) (h : nr ≤ 9000) : InodeUsed inodeDevice 1 nr := by
  refine ⟨⟨h0, ?_⟩, ?_, ibit_deviceFs inodeDesc9000_valid _⟩
  · rwa [inodeDevice_superDesc]
  · rw [inodeDevice_superDesc]
    simp only [inodeDesc9000]
    omega

theorem inodeDevice_legal {nr : ℕ} (h0 : 1 ≤ nr) (h : nr ≤ 9000) :
    Run.Along (inodeStep 1) (fun t op => op.Legal 1 t) inodeDevice [.ifree nr] :=
  ⟨inodeDevice_used h0 h, fun _ _ _ => trivial⟩

/-- An inode of the first bitmap block is released as it should be. -/
theorem inodeRun_release : Run.Meets (inodeStep 1) (fun t op => op.Post 1 t) inodeDevice
    [.ifree 100] := by
  refine (inodeRun_meets_iff inodeDevice_mounted inodeDevice_freeAreInodes [.ifree 100]
    (inodeDevice_legal (by decide) (by decide))).mpr ⟨⟨?_, ?_⟩, fun _ _ _ => trivial⟩
  · rw [blockBits_eq]
    decide
  · rw [inodeDevice_superDesc]
    decide

/-- **Two inodes that cannot be released**: number 8500, for which another bit is cleared, and
number 9000, the last one, for which the assertion fails. -/
theorem inodeRun_stops : Mounted inodeDevice 1 ∧ FreeAreInodes inodeDevice 1 ∧
    Run.Along (inodeStep 1) (fun t op => op.Legal 1 t) inodeDevice [.ifree 8500] ∧
    ¬Run.Meets (inodeStep 1) (fun t op => op.Post 1 t) inodeDevice [.ifree 8500] ∧
    Run.Along (inodeStep 1) (fun t op => op.Legal 1 t) inodeDevice [.ifree 9000] ∧
    ¬Run.Meets (inodeStep 1) (fun t op => op.Post 1 t) inodeDevice [.ifree 9000] := by
  refine ⟨inodeDevice_mounted, inodeDevice_freeAreInodes,
    inodeDevice_legal (by decide) (by decide), ?_, inodeDevice_legal (by decide) (by decide), ?_⟩
  · rintro ⟨r, t, hstep, hpost, -⟩
    have hagrees := (ifree_meets_iff inodeDevice_mounted
      (inodeDevice_used (by decide) (by decide))).mp ⟨r, t, hstep, hpost⟩
    exact absurd hagrees.1 (by rw [blockBits_eq]; decide)
  · rintro ⟨r, t, hstep, hpost, -⟩
    have hagrees := (ifree_meets_iff inodeDevice_mounted
      (inodeDevice_used (by decide) (by decide))).mp ⟨r, t, hstep, hpost⟩
    exact absurd hagrees.2 (by rw [inodeDevice_superDesc]; decide)

end Onixs
