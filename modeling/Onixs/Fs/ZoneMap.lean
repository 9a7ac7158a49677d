import Mathlib.Data.Nat.Find
import Onixs.Common.Run
import Onixs.Fs.Mounted

/-!
# Runs of the zone allocator

Any sequence of `balloc` and `bfree` on a mounted device. What is asked of a step
(`Onixs.ZoneOp.Post`): it does not stop; `balloc` returns a zone of
`[firstdatazone, zones)` that was free and marks it and nothing else, or returns
`EOF` and changes nothing when no zone is free; `bfree z` clears the one position that
stands for `z`.

The code does this exactly under `Onixs.ZoneOp.Agrees`. A `balloc` on a full device
must find all eight buffers present, or its `assert(buf)` fails. A `bfree` must be
about a zone that its comparison `idx > BLOCK_BITS * (i + 1)` and `balloc`'s numbering
`i * BLOCK_BITS + firstdatazone - 1` put in the same buffer: the former forgets that
the numbers start at `firstdatazone`, so that it fails for the zones between
`8192 * i + 1` and `8192 * i + firstdatazone - 2`.
-/

namespace Onixs

open Bytes

/-- The operations of the zone allocator. -/
inductive ZoneOp where
  /-- Allocate a zone. -/
  | balloc : ZoneOp
  /-- Release a zone. -/
  | bfree (z : ℕ) : ZoneOp

/-- One step of the zone allocator; `bfree` returns nothing of interest. -/
def zoneStep (dev : ℕ) (s : Fs) : ZoneOp → Option (ℕ × Fs)
  | .balloc => balloc s dev
  | .bfree z => (bfree s dev z).map fun t => (0, t)

/-- Zone `z` is one of the device's and its bit is clear. -/
def ZoneFree (s : Fs) (dev z : ℕ) : Prop :=
  (s.superDesc dev).firstdatazone ≤ z ∧ z < (s.superDesc dev).zones ∧
    s.zbit dev (zonePos (s.superDesc dev) z) = false

/-- Zone `z` is one of the device's, its position is in the bitmap, and its bit is set. -/
def ZoneUsed (s : Fs) (dev z : ℕ) : Prop :=
  (s.superDesc dev).firstdatazone ≤ z ∧ z < (s.superDesc dev).zones ∧
    zonePos (s.superDesc dev) z / 8192 < (s.superDesc dev).zmapBlocks ∧
    s.zbit dev (zonePos (s.superDesc dev) z) = true

/-- The zone bitmap marks free only zones of `[firstdatazone, zones)`. -/
def FreeAreZones (s : Fs) (dev : ℕ) : Prop :=
  ∀ g, s.zbit dev g = false → ZonePos (s.superDesc dev) g

/-- Position `g` of the zone bitmap becomes `v` and nothing else changes. -/
def OnlyZbit (s : Fs) (dev g : ℕ) (v : Bool) (t : Fs) : Prop := OnlyBit s dev (s.zmaps dev) g v t

namespace ZoneOp

/-- `bfree` is called on a zone that is allocated. -/
def Legal (dev : ℕ) (s : Fs) : ZoneOp → Prop
  | balloc => True
  | bfree z => ZoneUsed s dev z

/-- What a step has to do. -/
def Post (dev : ℕ) (s : Fs) : ZoneOp → ℕ → Fs → Prop
  | balloc, r, t =>
      (ZoneFree s dev r ∧ OnlyZbit s dev (zonePos (s.superDesc dev) r) true t) ∨
        ((∀ z, ¬ZoneFree s dev z) ∧ r = EOF ∧ t = s)
  | bfree z, _, t => OnlyZbit s dev (zonePos (s.superDesc dev) z) false t

/-- When a step does it: a free zone or all eight buffers for `balloc`; for `bfree`, the same
buffer by its comparison and by `balloc`'s numbering. -/
def Agrees (dev : ℕ) (s : Fs) : ZoneOp → Prop
  | balloc => (∃ z, ZoneFree s dev z) ∨ (s.superDesc dev).zmapBlocks = zmapNr
  | bfree z => zonePos (s.superDesc dev) z / blockBits = (z - 1) / blockBits

end ZoneOp

/-! ### One step -/

section Step

variable {s : Fs} {dev : ℕ}

theorem OnlyZbit.of_setZbit (hm : Mounted s dev) {g b : ℕ} (hb : s.zmaps dev (g / 8192) = some b)
    (v : Bool) : OnlyZbit s dev g v (s.setZbit dev g v) :=
  OnlyBit.of_setMapBit hm.distinct_zmaps hb v

theorem OnlyZbit.zbit (hm : Mounted s dev) {g : ℕ} {v : Bool} {t : Fs}
    (h : OnlyZbit s dev g v t) (g' : ℕ) :
    t.zbit dev g' = if g' = g then v else s.zbit dev g' := by
  rw [Fs.zbit, (OnlyBit.mounted hm hm.zmap_ne_one h).2.2.1]
  exact h.bits g'

/-- A position that belongs to a zone is the position of that zone. -/
theorem zonePos_of_zonePos {desc : SuperDesc} (h1 : 1 ≤ desc.firstdatazone) {g : ℕ} :
    zonePos desc (g + desc.firstdatazone - 1) = g := by
  rw [zonePos]
  omega

theorem zoneFree_iff (hm : Mounted s dev) {g : ℕ} (hpos : ZonePos (s.superDesc dev) g) :
    ZoneFree s dev (g + (s.superDesc dev).firstdatazone - 1) ↔ s.zbit dev g = false := by
  obtain ⟨h1, h2⟩ := hpos
  have hf := hm.firstdatazone
  rw [ZoneFree, zonePos_of_zonePos hf]
  exact ⟨fun h => h.2.2, fun h => ⟨by omega, h2, h⟩⟩

/-- Position 0 stands for no zone. -/
theorem FreeAreZones.zero (hfree : FreeAreZones s dev) : s.zbit dev 0 = true := by
  cases h : s.zbit dev 0 with
  | true => rfl
  | false => exact absurd (hfree 0 h).1 (by omega)

/-- **`balloc` with a free zone** takes the least one, as long as position 0 is set. -/
theorem balloc_of_free (hm : Mounted s dev) (hzero : s.zbit dev 0 = true)
    (hex : ∃ z, ZoneFree s dev z) :
    ∃ z, ZoneFree s dev z ∧ (∀ z', ZoneFree s dev z' → z ≤ z') ∧
      balloc s dev = some (z, s.setZbit dev (zonePos (s.superDesc dev) z) true) := by
  classical
  obtain ⟨z, hlo, hz, hbit⟩ := hex
  have hclear : ∃ g, s.zbit dev g = false := ⟨_, hbit⟩
  obtain ⟨g, hgdef⟩ : ∃ g, g = Nat.find hclear := ⟨_, rfl⟩
  have hg : s.zbit dev g = false := hgdef ▸ Nat.find_spec hclear
  have hleast : ∀ g' < g, s.zbit dev g' = true := fun g' hg' => by
    rw [hgdef] at hg'
    simpa using Nat.find_min hclear hg'
  have hle : ∀ z', ZoneFree s dev z' → g ≤ zonePos (s.superDesc dev) z' := fun z' hz' =>
    hgdef ▸ Nat.find_min' hclear hz'.2.2
  have hpos : 1 ≤ g := by
    rcases Nat.eq_zero_or_pos g with rfl | hpos
    · rw [hzero] at hg
      exact Bool.noConfusion hg
    · exact hpos
  have hf := hm.firstdatazone
  have hgz := hle z ⟨hlo, hz, hbit⟩
  have hin : ZonePos (s.superDesc dev) g := ⟨hpos, by rw [zonePos] at hgz; omega⟩
  refine ⟨g + (s.superDesc dev).firstdatazone - 1, (zoneFree_iff hm hin).mpr hg, ?_, ?_⟩
  · intro z' hz'
    have := hle z' hz'
    have hlo' := hz'.1
    rw [zonePos] at this
    omega
  · rw [balloc_found hm hg hleast, assert_pos hin.2, Option.bind_some, zonePos_of_zonePos hf]

/-- With no free zone every position is set. -/
theorem zbit_of_full (hm : Mounted s dev) (hfree : FreeAreZones s dev)
    (hnone : ∀ z, ¬ZoneFree s dev z) (g : ℕ) : s.zbit dev g = true := by
  cases hg : s.zbit dev g with
  | true => rfl
  | false => exact absurd ((zoneFree_iff hm (hfree g hg)).mpr hg) (hnone _)

/-- **A step does its duty exactly when the two computations agree.** -/
theorem zoneStep_meets_iff (hm : Mounted s dev) (hfree : FreeAreZones s dev) (op : ZoneOp)
    (hlegal : op.Legal dev s) :
    (∃ r t, zoneStep dev s op = some (r, t) ∧ op.Post dev s r t) ↔ op.Agrees dev s := by
  cases op with
  | balloc =>
    by_cases hex : ∃ z, ZoneFree s dev z
    · refine ⟨fun _ => Or.inl hex, fun _ => ?_⟩
      obtain ⟨z, hz, -, hrun⟩ := balloc_of_free hm hfree.zero hex
      obtain ⟨b, hb⟩ := buffer_of_clear hz.2.2
      exact ⟨_, _, hrun, Or.inl ⟨hz, OnlyZbit.of_setZbit hm hb true⟩⟩
    · have hnone : ∀ z, ¬ZoneFree s dev z := fun z hz => hex ⟨z, hz⟩
      have hrun := balloc_full hm (zbit_of_full hm hfree hnone)
      constructor
      · rintro ⟨r, t, h, -⟩
        rw [zoneStep, hrun] at h
        split at h
        · exact Or.inr (by rwa [zmapNr_eq])
        · exact absurd h (by simp)
      · rintro (h | h)
        · exact absurd h hex
        · rw [zmapNr_eq] at h
          rw [if_pos h] at hrun
          exact ⟨EOF, s, hrun, Or.inr ⟨hnone, rfl, rfl⟩⟩
  | bfree z =>
    obtain ⟨hlo, hz, hin, hused⟩ := hlegal
    rw [ZoneOp.Agrees, blockBits_eq]
    by_cases hsame : zonePos (s.superDesc dev) z / 8192 = (z - 1) / 8192
    · refine ⟨fun _ => hsame, fun _ => ⟨0, s.setZbit dev (zonePos (s.superDesc dev) z) false, ?_, ?_⟩⟩
      · rw [zoneStep, bfree_of_same hm hlo hz hused hin hsame, Option.map_some]
      · exact OnlyZbit.of_setZbit hm (hm.zmap_some hin) false
    · refine ⟨?_, fun h => absurd h hsame⟩
      rintro ⟨r, t, h, -⟩
      rw [zoneStep, bfree_of_ne hm hlo hz hsame] at h
      exact absurd h (by simp)

/-- A step that does its duty leaves the device as the next step needs it. -/
theorem zoneStep_inv (hm : Mounted s dev) (hfree : FreeAreZones s dev) {op : ZoneOp}
    (hlegal : op.Legal dev s) {r : ℕ} {t : Fs} (hpost : op.Post dev s r t) :
    Mounted t dev ∧ FreeAreZones t dev := by
  have hkeep : ∀ {g : ℕ} {v : Bool}, OnlyZbit s dev g v t →
      (v = false → ZonePos (s.superDesc dev) g) → Mounted t dev ∧ FreeAreZones t dev := by
    intro g v h hv
    obtain ⟨hmt, hdesc, -, -⟩ := OnlyBit.mounted hm hm.zmap_ne_one h
    refine ⟨hmt, fun g' hg' => ?_⟩
    rw [hdesc]
    rw [h.zbit hm] at hg'
    split at hg'
    · rename_i heq
      exact heq ▸ hv hg'
    · exact hfree g' hg'
  cases op with
  | balloc =>
    rcases hpost with ⟨-, h⟩ | ⟨-, -, rfl⟩
    · exact hkeep h fun hc => Bool.noConfusion hc
    · exact ⟨hm, hfree⟩
  | bfree z =>
    obtain ⟨hlo, hz, -, -⟩ := hlegal
    have hf := hm.firstdatazone
    refine hkeep hpost fun _ => ⟨?_, ?_⟩
    · rw [zonePos]
      omega
    · rw [zonePos]
      omega

end Step

/-! ### Any run -/

/-- **The zone allocator is right exactly on the runs where its two numberings agree.** On a
mounted device whose bitmap marks free only zones of `[firstdatazone, zones)`, a run of
`balloc` and of `bfree` on allocated zones never stops and does at every step what it has to,
if and only if every step of it satisfies `Onixs.ZoneOp.Agrees`. -/
theorem zoneRun_meets_iff {s : Fs} {dev : ℕ} (hm : Mounted s dev) (hfree : FreeAreZones s dev)
    (ops : List ZoneOp) (hlegal : Run.Along (zoneStep dev) (fun t op => op.Legal dev t) s ops) :
    Run.Meets (zoneStep dev) (fun t op => op.Post dev t) s ops ↔
      Run.Along (zoneStep dev) (fun t op => op.Agrees dev t) s ops :=
  Run.meets_iff_along (fun t => Mounted t dev ∧ FreeAreZones t dev)
    (fun _ op hinv hl => zoneStep_meets_iff hinv.1 hinv.2 op hl)
    (fun _ _ _ _ hinv hl _ hpost => zoneStep_inv hinv.1 hinv.2 hl hpost) ops s ⟨hm, hfree⟩ hlegal

/-! ### A device with every zone in use -/

/-- The descriptor of a device of 10000 blocks with two zone bitmap blocks. -/
def zoneDesc : SuperDesc where
  inodes := 3000
  zones := 10000
  imapBlocks := 1
  zmapBlocks := 2
  firstdatazone := 99
  magic := 0x137F

/-- The device, with a bitmap that marks every zone used. -/
def zoneDevice : Fs := deviceFs zoneDesc fun _ _ => 255#8

theorem zoneDesc_valid : zoneDesc.Valid :=
  ⟨by decide, by decide, by decide, by decide, by decide, by decide⟩

theorem zoneDevice_mounted : Mounted zoneDevice 1 := mounted_deviceFs zoneDesc_valid _

theorem zoneDevice_superDesc : zoneDevice.superDesc 1 = zoneDesc :=
  deviceFs_superDesc zoneDesc_valid _

theorem zoneDevice_freeAreZones : FreeAreZones zoneDevice 1 := fun g hg =>
  absurd ((zbit_deviceFs zoneDesc_valid g).symm.trans hg) Bool.noConfusion

theorem zoneDevice_used {z : ℕ} (hlo : 99 ≤ z) (hz : z < 10000) : ZoneUsed zoneDevice 1 z := by
  refine ⟨?_, ?_, ?_, zbit_deviceFs zoneDesc_valid _⟩
  · rwa [zoneDevice_superDesc]
  · rwa [zoneDevice_superDesc]
  · rw [zoneDevice_superDesc]
    simp only [zonePos, zoneDesc]
    omega

theorem zoneDevice_legal {z : ℕ} (hlo : 99 ≤ z) (hz : z < 10000) :
    Run.Along (zoneStep 1) (fun t op => op.Legal 1 t) zoneDevice [.bfree z] :=
  ⟨zoneDevice_used hlo hz, fun _ _ _ => trivial⟩

/-- A zone far from the boundary is released as it should be. -/
theorem zoneRun_release : Run.Meets (zoneStep 1) (fun t op => op.Post 1 t) zoneDevice
    [.bfree 150] := by
  refine (zoneRun_meets_iff zoneDevice_mounted zoneDevice_freeAreZones [.bfree 150]
    (zoneDevice_legal (by decide) (by decide))).mpr ⟨?_, fun _ _ _ => trivial⟩
  change zonePos (zoneDevice.superDesc 1) 150 / blockBits = (150 - 1) / blockBits
  rw [zoneDevice_superDesc, blockBits_eq]
  decide

/-- **Neither operation is always right**: `bfree` stops on zone 8193 of the device, which is in
use, and `balloc` stops instead of returning `EOF`. -/
theorem zoneRun_stops : Mounted zoneDevice 1 ∧ FreeAreZones zoneDevice 1 ∧
    Run.Along (zoneStep 1) (fun t op => op.Legal 1 t) zoneDevice [.bfree 8193] ∧
    ¬Run.Meets (zoneStep 1) (fun t op => op.Post 1 t) zoneDevice [.bfree 8193] ∧
    Run.Along (zoneStep 1) (fun t op => op.Legal 1 t) zoneDevice [.balloc] ∧
    ¬Run.Meets (zoneStep 1) (fun t op => op.Post 1 t) zoneDevice [.balloc] := by
  refine ⟨zoneDevice_mounted, zoneDevice_freeAreZones, zoneDevice_legal (by decide) (by decide),
    ?_, ⟨trivial, fun _ _ _ => trivial⟩, ?_⟩
  · rintro ⟨r, t, hstep, -, -⟩
    have hne : zonePos (zoneDevice.superDesc 1) 8193 / 8192 ≠ (8193 - 1) / 8192 := by
      rw [zoneDevice_superDesc]
      decide
    obtain ⟨hlo, hz, -, -⟩ := zoneDevice_used (z := 8193) (by decide) (by decide)
    rw [zoneStep, bfree_of_ne zoneDevice_mounted hlo hz hne] at hstep
    exact absurd hstep (by simp)
  · rintro ⟨r, t, hstep, -, -⟩
    rw [zoneStep, balloc_full zoneDevice_mounted (zbit_deviceFs zoneDesc_valid),
      zoneDevice_superDesc, if_neg (by decide)] at hstep
    exact absurd hstep (by simp)

end Onixs
