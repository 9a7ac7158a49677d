import Onixs.Fs.SuperTable

/-!
# What `read_super` accepts

The two loops of `read_super` share an index of blocks (`Onixs.readMaps`). The first is bounded by
`IMAP_NR`; the second by `ZEROPAD`, a flag of `vsprintf` that is 2, and not by `ZMAP_NR`. The entry
it fills was given back by `put_super`, which leaves both pointers in it
(`Onixs.putSuper_recycled`), or was never used.
-/

namespace Onixs

variable {s t : Fs} {dev k : ℕ}

/-! ### The loops -/

/-- The loop of `read_super` over a bitmap of `blocks` blocks, of which `left` are to be read. It
returns the row and the next block. `bread` returns a buffer, so that the `break` is not taken. -/
def readMaps (bound : ℕ) : ℕ → ℕ → (ℕ → Option ℕ) → ℕ → Option ((ℕ → Option ℕ) × ℕ)
  | 0, _, maps, idx => some (maps, idx)
  | left + 1, i, maps, idx => do
      assert (i < bound)
      readMaps bound left (i + 1) (Function.update maps i (some idx)) (idx + 1)

/-- `read_super` of a device that is not in the table, with its loops. -/
def readSuperLoops (s : Fs) (dev : ℕ) : Option (ℕ × Fs) := do
  let sb ← getFreeSuper s
  let desc := s.superDesc dev
  let s := s.setSuper sb { s.superTable sb with dev := dev, count := 1 }
  assert (desc.magic = minix1Magic)
  let (imaps, idx) ← readMaps imapNr desc.imapBlocks 0 (fun _ => none) 2
  let (zmaps, _) ← readMaps zeropad desc.zmapBlocks 0 (fun _ => none) idx
  return (sb, s.setSuper sb { s.superTable sb with imaps := imaps, zmaps := zmaps })

/-- **What the loop does** from turn `i` on: it stops before a block past the bound, and else fills the
row up to `i + left`. -/
theorem readMaps_eq (bound start : ℕ) :
    ∀ left i, readMaps bound left i (bufferRow start i) (start + i)
      = if left = 0 ∨ i + left ≤ bound then some (bufferRow start (i + left), start + (i + left)) else none
  | 0, i => by
    rw [if_pos (Or.inl rfl)]
    rfl
  | left + 1, i => by
    have hrow : Function.update (bufferRow start i) i (some (start + i)) = bufferRow start (i + 1) := by
      funext j
      rcases eq_or_ne j i with rfl | hne
      · rw [Function.update_self, bufferRow, if_pos (Nat.lt_succ_self j)]
      · rw [Function.update_of_ne hne, bufferRow, bufferRow]
        exact if_congr (by omega) rfl rfl
    rw [readMaps, hrow]
    by_cases hlt : i < bound
    · rw [assert_pos hlt, Option.bind_eq_bind, Option.bind_some, Nat.add_assoc start i 1,
        readMaps_eq bound start left (i + 1), show i + 1 + left = i + (left + 1) by omega]
      exact if_congr (by omega) rfl rfl
    · rw [assert_neg hlt, if_neg (by omega)]
      rfl

/-- The loop over a whole bitmap. -/
theorem readMaps_all (bound start n : ℕ) :
    readMaps bound n 0 (fun _ => none) start
      = if n ≤ bound then some (bufferRow start n, start + n) else none := by
  have hrun := readMaps_eq bound start n 0
  rw [show bufferRow start 0 = fun _ => none from rfl, Nat.add_zero, Nat.zero_add] at hrun
  rw [hrun]
  exact if_congr (by omega) rfl rfl

/-- **`read_super` with its loops** is the function without them. -/
theorem readSuperLoops_eq (hnone : s.getSuper dev = none) : readSuperLoops s dev = readSuper s dev := by
  rw [readSuper, hnone, readSuperLoops]
  cases getFreeSuper s with
  | none => rfl
  | some sb =>
    simp only [Option.bind_eq_bind, Option.bind_some, readMaps_all, Fs.setSuper_self, Fs.setSuper_setSuper]
    by_cases hi : (s.superDesc dev).imapBlocks ≤ imapNr
    · by_cases hz : (s.superDesc dev).zmapBlocks ≤ zeropad
      · rw [assert_pos hi, assert_pos hz, if_pos hi]
        simp only [Option.bind_some, if_pos hz]
      · rw [assert_pos hi, assert_neg hz, if_pos hi]
        simp only [Option.bind_some, if_neg hz]
        rfl
    · rw [assert_neg hi, if_neg hi]
      rfl

/-! ### The entry -/

/-- **An entry `put_super` gives back** keeps both pointers, to inodes that may be others by now. -/
theorem putSuper_recycled (hlast : (s.superTable k).count = 1) (hput : putSuper s k = some t) :
    (t.superTable k).dev = EOF ∧ (t.superTable k).iroot = (s.superTable k).iroot ∧
      (t.superTable k).imount = (s.superTable k).imount := by
  have hzero : (s.superTable k).count - 1 = 0 := by omega
  rw [putSuper, assert_pos (by omega), Option.bind_eq_bind, Option.bind_some] at hput
  simp only [hzero, ne_eq, not_true_eq_false, if_false, Fs.setSuper_self, Fs.setSuper_setSuper] at hput
  obtain ⟨u, hmount, hroot⟩ := Option.bind_eq_some_iff.mp hput
  have hsame := (SameMounts.iputOpt hmount).trans (SameMounts.iputOpt hroot)
  refine ⟨(hsame.dev k).trans ?_, (hsame.iroot k).trans ?_, (hsame.imount k).trans ?_⟩
  all_goals rw [Fs.setSuper_self]

/-- **What `read_super` should do** with a device that is not in the table. -/
def ReadSuperMeets (s : Fs) (dev : ℕ) : Prop :=
  ∃ sb t, readSuper s dev = some (sb, t) ∧
    (t.superTable sb).dev = dev ∧ (t.superTable sb).count = 1 ∧
    (∀ i < (s.superDesc dev).imapBlocks, (t.superTable sb).imaps i = some (2 + i)) ∧
    (∀ j < (s.superDesc dev).zmapBlocks,
      (t.superTable sb).zmaps j = some (2 + (s.superDesc dev).imapBlocks + j)) ∧
    (t.superTable sb).iroot = none ∧ (t.superTable sb).imount = none

/-- **`read_super` does what it should** with a device whose zone bitmap has one block or two, if the
first free entry of the table is one that has no pointers left in it. -/
theorem readSuper_iff (hnone : s.getSuper dev = none) (hmagic : (s.superDesc dev).magic = minix1Magic)
    (himap : (s.superDesc dev).imapBlocks ≤ imapNr) :
    ReadSuperMeets s dev ↔ (s.superDesc dev).zmapBlocks ≤ zeropad ∧
      ∃ sb, getFreeSuper s = some sb ∧ (s.superTable sb).iroot = none ∧ (s.superTable sb).imount = none := by
  have heq : readSuper s dev = (getFreeSuper s).bind fun sb =>
      (assert ((s.superDesc dev).zmapBlocks ≤ zeropad)).bind fun _ =>
        some (sb, s.setSuper sb { s.superTable sb with
          dev := dev
          count := 1
          imaps := bufferRow 2 (s.superDesc dev).imapBlocks
          zmaps := bufferRow (2 + (s.superDesc dev).imapBlocks) (s.superDesc dev).zmapBlocks }) := by
    rw [readSuper, hnone]
    simp only [assert_pos hmagic, assert_pos himap, Option.bind_eq_bind, Option.bind_some]
    rfl
  rw [ReadSuperMeets, heq]
  constructor
  · rintro ⟨sb, t, hread, -, -, -, -, hroot, hmount⟩
    obtain ⟨sb', hfree, hread⟩ := Option.bind_eq_some_iff.mp hread
    obtain ⟨_, hz, hread⟩ := Option.bind_eq_some_iff.mp hread
    obtain ⟨rfl, rfl⟩ := Prod.mk.inj (Option.some.inj hread)
    rw [Fs.setSuper_self] at hroot hmount
    exact ⟨assert_eq_some.mp hz, sb', hfree, hroot, hmount⟩
  · rintro ⟨hz, sb, hfree, hroot, hmount⟩
    rw [hfree, assert_pos hz]
    refine ⟨sb, _, rfl, ?_⟩
    rw [Fs.setSuper_self]
    exact ⟨rfl, rfl, fun i hi => if_pos hi, fun j hj => if_pos hj, hroot, hmount⟩

/-- A device whose zone bitmap has three blocks. -/
def largeDesc : SuperDesc where
  inodes := 32
  zones := 20000
  imapBlocks := 1
  zmapBlocks := 3
  firstdatazone := 7
  magic := 0x137F

/-- Device 1 with descriptor `desc` and no super block in the table. -/
def freshFs (desc : SuperDesc) : Fs :=
  (deviceFs desc fun _ _ => 0#8).setSuper 0 { (deviceFs desc fun _ _ => 0#8).superTable 1 with count := 0 }

theorem freshFs_superDesc {desc : SuperDesc} (hv : desc.Valid) : (freshFs desc).superDesc 1 = desc :=
  deviceFs_superDesc hv fun _ _ => 0#8

/-- A device with one block of each bitmap. -/
theorem readSuper_iff_root : ReadSuperMeets (freshFs rootDesc) 1 := by
  have hdesc : (freshFs rootDesc).superDesc 1 = rootDesc := freshFs_superDesc rootDesc_valid
  refine (readSuper_iff (by decide) ?_ ?_).mpr ⟨?_, 0, by decide, rfl, rfl⟩
  all_goals rw [hdesc]; decide

/-- `zmap_blocks` is 3, which is less than `ZMAP_NR`, and `read_super` stops. -/
theorem readSuper_stops : ¬ReadSuperMeets (freshFs largeDesc) 1 := by
  have hdesc : (freshFs largeDesc).superDesc 1 = largeDesc := freshFs_superDesc
    ⟨by decide, by decide, by decide, by decide, by decide, by decide⟩
  rintro ⟨sb, t, hread, -⟩
  have hstop : readSuper (freshFs largeDesc) 1 = none := by
    rw [readSuper, show (freshFs largeDesc).getSuper 1 = none by decide,
      show getFreeSuper (freshFs largeDesc) = some 0 by decide, hdesc]
    rfl
  exact absurd (hstop.symm.trans hread) (by simp)

end Onixs
