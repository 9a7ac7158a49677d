import Mathlib.Logic.Function.Basic
import Onixs.Common.Run
import Onixs.Fs.DevInit
import Onixs.Fs.MountErrors

/-!
# The table of super blocks

Whether each device has at most one super block, and the free entries are clean, in every
state that formatting, mounting and unmounting lead to. `devmkfs` takes a new entry also for
a device that has one, and `sys_umount` gives up a reference it has not taken when it fails;
as long as neither happens the table stays in order (`Onixs.mountRun_inOrder`).

Of an entry only its `Onixs.SuperBlock.state` matters here, so the calls are described by
what they store there: `Onixs.Fs.states` with one value replaced.
-/

namespace Onixs

/-- What the entries of the table are, as far as `get_super` and `put_super` go. -/
def Fs.states (s : Fs) : ℕ → ℕ × ℕ × Option ℕ × Option ℕ := fun k => (s.superTable k).state

/-- **An entry in order**: in use it has references, free it is clean. -/
structure EntryOk (p : ℕ × ℕ × Option ℕ × Option ℕ) : Prop where
  /-- A device has references. -/
  used : p.1 ≠ EOF → 0 < p.2.1
  /-- A free entry has nothing. -/
  free : p.1 = EOF → p.2.1 = 0 ∧ p.2.2.1 = none ∧ p.2.2.2 = none
  /-- One reference is that of the mount, and there is one more at most. -/
  bound : p.2.1 ≤ 1 + p.2.2.2.toList.length

/-- **The table in order**. -/
structure TableInOrder (f : ℕ → ℕ × ℕ × Option ℕ × Option ℕ) : Prop where
  /-- Each entry is. -/
  entry : ∀ k < superNr, EntryOk (f k)
  /-- No device has two. -/
  unique : ∀ k < superNr, ∀ k' < superNr, (f k).1 = (f k').1 → (f k).1 ≠ EOF → k = k'

section Table

variable {f : ℕ → ℕ × ℕ × Option ℕ × Option ℕ} {p : ℕ × ℕ × Option ℕ × Option ℕ} {s t : Fs} {k dev : ℕ}

/-- Another value in one entry. -/
theorem TableInOrder.update (h : TableInOrder f) (hp : EntryOk p)
    (hfresh : p.1 ≠ EOF → ∀ k' < superNr, k' ≠ k → (f k').1 ≠ p.1) : TableInOrder (Function.update f k p) := by
  refine ⟨fun k' hk' => ?_, fun k₁ h₁ k₂ h₂ heq hne => ?_⟩
  · rcases eq_or_ne k' k with rfl | hne
    · rwa [Function.update_self]
    · rw [Function.update_of_ne hne]
      exact h.entry k' hk'
  · rcases eq_or_ne k₁ k with rfl | hne₁
    · rcases eq_or_ne k₂ k₁ with rfl | hne₂
      · rfl
      · rw [Function.update_self] at heq hne
        rw [Function.update_of_ne hne₂] at heq
        exact absurd heq.symm (hfresh hne k₂ h₂ hne₂)
    · rw [Function.update_of_ne hne₁] at heq hne
      rcases eq_or_ne k₂ k with rfl | hne₂
      · rw [Function.update_self] at heq
        exact absurd heq (hfresh (heq ▸ hne) k₁ h₁ hne₁)
      · rw [Function.update_of_ne hne₂] at heq
        exact h.unique k₁ h₁ k₂ h₂ heq hne

/-- The entry of a device stays its entry, or becomes free. -/
theorem TableInOrder.update_same (h : TableInOrder f) (hk : k < superNr) (hp : EntryOk p)
    (hdev : p.1 ≠ EOF → p.1 = (f k).1) : TableInOrder (Function.update f k p) :=
  h.update hp fun hne k' hk' hne' heq =>
    hne' (h.unique k' hk' k hk (heq.trans (hdev hne)) (heq ▸ hne))

/-- An entry of a device that has none. -/
theorem TableInOrder.update_fresh (h : TableInOrder s.states) (hp : EntryOk p) (hnone : s.getSuper p.1 = none) :
    TableInOrder (Function.update s.states k p) :=
  h.update hp fun _ k' hk' _ heq =>
    List.find?_eq_none.mp hnone k' (List.mem_range.mpr hk') (decide_eq_true heq)

theorem states_setSuper (s : Fs) (k : ℕ) (sb : SuperBlock) :
    (s.setSuper k sb).states = Function.update s.states k sb.state := by
  funext k'
  rcases eq_or_ne k' k with rfl | hne
  · rw [Function.update_self, Fs.states, Fs.setSuper_self]
  · rw [Function.update_of_ne hne, Fs.states, Fs.setSuper_of_ne _ _ hne]
    rfl

theorem SameMounts.states (h : SameMounts s t) : t.states = s.states := funext h.supers

theorem states_congr (h : t.superTable = s.superTable) : t.states = s.states :=
  funext fun k => congrArg (fun f => (f k).state) h

/-- The buffers of the bitmaps do not matter. -/
theorem states_setMaps (h : t.superTable = s.superTable) (k : ℕ) (imaps zmaps : ℕ → Option ℕ) :
    (t.setSuper k { t.superTable k with imaps := imaps, zmaps := zmaps }).states = s.states := by
  refine Eq.trans (funext fun k' => ?_) (states_congr h)
  refine superTable_setSuper SuperBlock.state ?_ k'
  rfl

theorem states_setIroot (s : Fs) (k : ℕ) (i : Option ℕ) : (s.setIroot k i).states
    = Function.update s.states k ((s.states k).1, (s.states k).2.1, i, (s.states k).2.2.2) :=
  states_setSuper s k _

theorem states_setImount (s : Fs) (k : ℕ) (i : Option ℕ) : (s.setImount k i).states
    = Function.update s.states k ((s.states k).1, (s.states k).2.1, (s.states k).2.2.1, i) :=
  states_setSuper s k _

theorem states_setMount (s : Fs) (i dev : ℕ) : (s.setMount i dev).states = s.states := rfl

/-! ### What the functions store -/

/-- **`read_super`** takes a reference to the entry of the device, or a free entry. -/
theorem readSuper_states (hrun : readSuper s dev = some (k, t)) :
    (s.getSuper dev = some k ∧ t.states = Function.update s.states k
        (dev, u32 ((s.states k).2.1 + 1), (s.states k).2.2.1, (s.states k).2.2.2)) ∨
      (s.getSuper dev = none ∧ getFreeSuper s = some k ∧ t.states = Function.update s.states k
        (dev, 1, (s.states k).2.2.1, (s.states k).2.2.2)) := by
  rw [readSuper] at hrun
  cases hk : s.getSuper dev with
  | some k' =>
    rw [hk] at hrun
    obtain ⟨rfl, rfl⟩ := Prod.mk.inj (Option.some.inj hrun)
    refine Or.inl ⟨rfl, (states_setSuper s k' _).trans ?_⟩
    rw [← Fs.dev_of_getSuper hk]
    rfl
  | none =>
    rw [hk] at hrun
    obtain ⟨k', hfree, hrun⟩ := Option.bind_eq_some_iff.mp hrun
    obtain ⟨_, -, hrun⟩ := Option.bind_eq_some_iff.mp hrun
    obtain ⟨_, -, hrun⟩ := Option.bind_eq_some_iff.mp hrun
    obtain ⟨_, -, hrun⟩ := Option.bind_eq_some_iff.mp hrun
    obtain ⟨rfl, rfl⟩ := Prod.mk.inj (Option.some.inj hrun)
    exact Or.inr ⟨rfl, hfree, states_setSuper s k' _⟩

/-- **`put_super`** gives one back, and the entry with the last. -/
theorem putSuper_states (hrun : putSuper s k = some t) : 0 < (s.states k).2.1 ∧
    t.states = Function.update s.states k (if (s.states k).2.1 - 1 = 0 then EOF else (s.states k).1,
      (s.states k).2.1 - 1, (s.states k).2.2.1, (s.states k).2.2.2) := by
  obtain ⟨_, hpos, hrun⟩ := Option.bind_eq_some_iff.mp hrun
  refine ⟨assert_eq_some.mp hpos, ?_⟩
  simp only at hrun
  split at hrun
  next hmore =>
    obtain rfl := Option.some.inj hrun
    rw [show (if (s.states k).2.1 - 1 = 0 then EOF else (s.states k).1) = (s.states k).1 from if_neg hmore]
    exact states_setSuper s k _
  next hlast =>
    obtain ⟨u, hput, hrun⟩ := Option.bind_eq_some_iff.mp hrun
    rw [(SameMounts.iputOpt hrun).states, (SameMounts.iputOpt hput).states, Fs.setSuper_setSuper, states_setSuper,
      Fs.setSuper_self, show (if (s.states k).2.1 - 1 = 0 then EOF else (s.states k).1) = EOF from
        if_pos (not_not.mp hlast)]
    rfl

theorem fillTail_onlyBlocks {map : ℕ} {count : ℤ} (hrun : fillTail s dev map count = some t) : OnlyBlocks s t := by
  obtain ⟨_, -, hrun⟩ := Option.bind_eq_some_iff.mp hrun
  exact Option.some.inj hrun ▸ OnlyBlocks.setBlk s _ _ _

theorem mkfsMaps_onlyBlocks {sb icount : ℕ} {zcount : ℤ} (hrun : mkfsMaps s dev sb icount zcount = some t) :
    OnlyBlocks s t := by
  obtain ⟨⟨z, s₁⟩, h₁, hrun⟩ := Option.bind_eq_some_iff.mp hrun
  obtain ⟨⟨i, s₂⟩, h₂, hrun⟩ := Option.bind_eq_some_iff.mp hrun
  obtain ⟨⟨j, s₃⟩, h₃, hrun⟩ := Option.bind_eq_some_iff.mp hrun
  obtain ⟨map0, -, hrun⟩ := Option.bind_eq_some_iff.mp hrun
  obtain ⟨map1, -, hrun⟩ := Option.bind_eq_some_iff.mp hrun
  obtain ⟨s₄, h₄, h₅⟩ := Option.bind_eq_some_iff.mp hrun
  exact ((((balloc_onlyBlocks h₁).trans (ialloc_onlyBlocks h₂)).trans (ialloc_onlyBlocks h₃)).trans
    (fillTail_onlyBlocks h₄)).trans (fillTail_onlyBlocks h₅)

/-- The entry `devmkfs` takes. -/
theorem mkfsSuper_states {total icount sb : ℕ} {zcount : ℤ}
    (hrun : mkfsSuper s dev total icount = some (sb, zcount, t)) : getFreeSuper s = some sb ∧
      t.states = Function.update s.states sb (dev, 1, (s.states sb).2.2.1, (s.states sb).2.2.2) := by
  obtain ⟨k, hfree, hrun⟩ := Option.bind_eq_some_iff.mp hrun
  obtain ⟨rfl, hpair⟩ := Prod.mk.inj (Option.some.inj hrun)
  obtain ⟨-, rfl⟩ := Prod.mk.inj hpair
  refine ⟨hfree, (states_setMaps (s := s.setSuper k { s.superTable k with dev := dev, count := 1 }) ?_ k _ _).trans
    (states_setSuper s k _)⟩
  exact (clearMaps_superTable _ _ _ _).trans (clearMaps_superTable _ _ _ _)

/-- **`devmkfs`** takes a free entry. -/
theorem devmkfs_states {sectors icount : ℕ} (hrun : devmkfs s dev sectors icount = some t) :
    ∃ k r, getFreeSuper s = some k ∧
      t.states = Function.update s.states k (dev, 1, some r, (s.states k).2.2.2) := by
  obtain ⟨_, -, hrun⟩ := Option.bind_eq_some_iff.mp hrun
  obtain ⟨_, -, hrun⟩ := Option.bind_eq_some_iff.mp hrun
  obtain ⟨⟨k, zcount, u⟩, hsuper, hrun⟩ := Option.bind_eq_some_iff.mp hrun
  obtain ⟨v, hmaps, hroot⟩ := Option.bind_eq_some_iff.mp hrun
  obtain ⟨hfree, hsuper⟩ := mkfsSuper_states hsuper
  obtain ⟨⟨r, w⟩, hnew, hroot⟩ := Option.bind_eq_some_iff.mp hroot
  obtain ⟨⟨zone, x⟩, hmap, hroot⟩ := Option.bind_eq_some_iff.mp hroot
  obtain rfl := Option.some.inj hroot
  refine ⟨k, r, hfree, ?_⟩
  refine ((SameMounts.of_blocks (bmap_onlyBlocks hmap)).states.trans (states_setIroot w k (some r))).trans ?_
  rw [(SameMounts.newInode hnew).states, (SameMounts.of_blocks (mkfsMaps_onlyBlocks hmaps)).states, hsuper,
    Function.update_idem, Function.update_self]

/-! ### The calls -/

/-- A free entry is one in order. -/
theorem TableInOrder.of_free (h : TableInOrder s.states) (hfree : getFreeSuper s = some k) :
    k < superNr ∧ (s.states k).2.1 = 0 ∧ (s.states k).2.2.1 = none ∧ (s.states k).2.2.2 = none := by
  have hlt := getSuper_lt hfree
  exact ⟨hlt, (h.entry k hlt).free (Fs.dev_of_getSuper hfree)⟩

/-- **Formatting** a device that has no entry. -/
theorem TableInOrder.devmkfs {sectors icount : ℕ} (h : TableInOrder s.states) (hdev : dev ≠ EOF)
    (hnone : s.getSuper dev = none) (hrun : devmkfs s dev sectors icount = some t) :
    ∃ k r, k < superNr ∧ t.states = Function.update s.states k (dev, 1, some r, none) ∧ TableInOrder t.states := by
  obtain ⟨k, r, hfree, hstates⟩ := devmkfs_states hrun
  obtain ⟨hlt, -, -, hnomount⟩ := h.of_free hfree
  rw [hnomount] at hstates
  refine ⟨k, r, hlt, hstates, ?_⟩
  rw [hstates]
  exact h.update_fresh ⟨fun _ => Nat.one_pos, fun heq => absurd heq hdev, Nat.le_refl 1⟩ hnone

/-- **A device gets its mount point**, whether it has an entry or not. -/
theorem TableInOrder.mount {n : ℕ} {r j : Option ℕ} (h : TableInOrder s.states) (hk : k < superNr) (hdev : dev ≠ EOF)
    (hentry : s.getSuper dev = some k ∨ s.getSuper dev = none) (hn : 0 < n ∧ n ≤ 2) (hj : j.isSome) :
    TableInOrder (Function.update s.states k (dev, n, r, j)) := by
  have hp : EntryOk (dev, n, r, j) := by
    obtain ⟨i, rfl⟩ := Option.isSome_iff_exists.mp hj
    exact ⟨fun _ => hn.1, fun heq => absurd heq hdev, hn.2⟩
  rcases hentry with hsome | hnone
  · exact h.update_same hk hp fun _ => (Fs.dev_of_getSuper hsome).symm
  · exact h.update_fresh hp hnone

/-- **The entry `read_super` gives** has one reference more; it is that of the device, or was free. -/
theorem TableInOrder.readSuper (h : TableInOrder s.states) (hrun : readSuper s dev = some (k, t)) :
    k < superNr ∧ (s.getSuper dev = some k ∨ s.getSuper dev = none) ∧ ∃ n, 0 < n ∧
      n ≤ 2 + (s.states k).2.2.2.toList.length ∧
      t.states = Function.update s.states k (dev, n, (s.states k).2.2.1, (s.states k).2.2.2) ∧
      ((s.states k).2.2.2.isSome → s.getSuper dev = some k ∧ n = (s.states k).2.1 + 1) := by
  rcases readSuper_states hrun with ⟨hk, hstates⟩ | ⟨hnone, hfree, hstates⟩
  · have hlt := getSuper_lt hk
    have hbound := (h.entry k hlt).bound
    have hsmall : (s.states k).2.2.2.toList.length ≤ 1 := by
      cases (s.states k).2.2.2 <;> simp
    rw [u32_of_lt (by omega)] at hstates
    exact ⟨hlt, Or.inl hk, _, Nat.succ_pos _, by omega, hstates, fun _ => ⟨hk, rfl⟩⟩
  · obtain ⟨hlt, -, -, hnomount⟩ := h.of_free hfree
    refine ⟨hlt, Or.inr hnone, 1, Nat.one_pos, by omega, hstates, fun hsome => ?_⟩
    rw [hnomount] at hsome
    exact absurd hsome (by simp)

theorem mountRollback_states {d e : Option ℕ} {r : ℤ} (hrun : mountRollback s none d e = some (r, t)) :
    t.states = s.states := by
  obtain ⟨v, hput, hrun⟩ := Option.bind_eq_some_iff.mp hrun
  obtain ⟨w, hput', hrun⟩ := Option.bind_eq_some_iff.mp hrun
  obtain ⟨-, rfl⟩ := Prod.mk.inj (Option.some.inj hrun)
  exact (SameMounts.iputOpt hput').states.trans (SameMounts.iputOpt hput).states

theorem umountRollback_states {d : Option ℕ} {a r : ℤ} (hrun : umountRollback s none d a = some (r, t)) :
    t.states = s.states := by
  obtain ⟨v, hput, hrun⟩ := Option.bind_eq_some_iff.mp hrun
  obtain ⟨-, rfl⟩ := Prod.mk.inj (Option.some.inj hrun)
  exact (SameMounts.iputOpt hput).states

/-- **Mounting** keeps the table in order: a device that is mounted gets its reference back. -/
theorem TableInOrder.mountDevice {i j : ℕ} {r : ℤ} (h : TableInOrder s.states) (hdev : dev ≠ EOF)
    (hrun : mountDevice s i j dev = some (r, t)) : TableInOrder t.states := by
  obtain ⟨⟨k, u⟩, hread, hrun⟩ := Option.bind_eq_some_iff.mp hrun
  obtain ⟨hlt, hdevice, n, hpos, hle, hstates, hbusy⟩ := h.readSuper hread
  have hself : u.states k = (dev, n, (s.states k).2.2.1, (s.states k).2.2.2) := by
    rw [hstates, Function.update_self]
  have himount : (u.superTable k).imount = (s.states k).2.2.2 := congrArg (fun p => p.2.2.2) hself
  simp only [himount] at hrun
  split at hrun
  next hsome =>
    obtain ⟨hk, hn⟩ := hbusy hsome
    have hsame : (s.states k).1 = dev := Fs.dev_of_getSuper hk
    have hcount := (h.entry k hlt).used (by rw [hsame]; exact hdev)
    obtain ⟨v, hput, hrun⟩ := Option.bind_eq_some_iff.mp hrun
    obtain ⟨-, hback⟩ := putSuper_states hput
    have hrest : t.states = v.states := mountRollback_states (s := v) (d := some i) (e := some j) hrun
    have hless : (s.states k).2.1 = n - 1 := by omega
    have hid : s.states k = (dev, n - 1, (s.states k).2.2.1, (s.states k).2.2.2) :=
      Prod.ext hsame (Prod.ext hless rfl)
    rw [hrest, hback, hself, if_neg (by omega : ¬n - 1 = 0), hstates, Function.update_idem, ← hid, Function.update_eq_self]
    exact h
  next hnone =>
    obtain ⟨⟨r', v⟩, hget, hrun⟩ := Option.bind_eq_some_iff.mp hrun
    obtain ⟨w, hput, hrun⟩ := Option.bind_eq_some_iff.mp hrun
    obtain ⟨-, rfl⟩ := Prod.mk.inj (Option.some.inj hrun)
    rw [Option.not_isSome_iff_eq_none] at hnone
    rw [hnone] at hle
    rw [(SameMounts.iput hput).states, states_setMount, states_setImount, states_setIroot,
      (SameMounts.iget hget).states, hstates]
    simp only [Function.update_idem, Function.update_self]
    exact h.mount hlt hdev hdevice ⟨hpos, hle⟩ rfl

theorem TableInOrder.sysMount {devname dirname : CStr} {r : ℤ} (h : TableInOrder s.states)
    (hrun : sysMount s devname dirname = some (r, t)) : TableInOrder t.states := by
  obtain ⟨⟨d, u⟩, hname, hrun⟩ := Option.bind_eq_some_iff.mp hrun
  have h₁ : TableInOrder u.states := by
    rw [(SameMounts.namei hname).states]
    exact h
  cases d with
  | none =>
    rw [mountRollback_states hrun]
    exact h₁
  | some i =>
    simp only at hrun
    split at hrun
    · rw [mountRollback_states hrun]
      exact h₁
    · obtain ⟨⟨e, v⟩, hname', hrun⟩ := Option.bind_eq_some_iff.mp hrun
      obtain ⟨j, -, hrun⟩ := Option.bind_eq_some_iff.mp hrun
      have h₂ : TableInOrder v.states := by
        rw [(SameMounts.namei hname').states]
        exact h₁
      have hzone : (u.inodeDesc i).zone 0 ≠ EOF :=
        Nat.ne_of_lt (Nat.lt_trans (Bytes.getU16_lt _ _) (by decide))
      simp only at hrun
      split at hrun
      · rw [mountRollback_states hrun]
        exact h₂
      · split at hrun
        · rw [mountRollback_states hrun]
          exact h₂
        · exact h₂.mountDevice hzone hrun

/-- **A reference given up**, with the pointers the entry has then: what is left is in order when the
pointers are gone with the last reference. -/
theorem TableInOrder.putSuper (ir im : Option ℕ) {f : ℕ → ℕ × ℕ × Option ℕ × Option ℕ} (h : TableInOrder f)
    (hk : k < superNr) (hstates : s.states = Function.update f k ((f k).1, (f k).2.1, ir, im)) (hbound : (f k).2.1 - 1 ≤ 1 + im.toList.length)
    (hclean : (f k).2.1 = 1 → ir = none ∧ im = none) (hrun : putSuper s k = some t) :
    TableInOrder t.states := by
  obtain ⟨hpos, hput⟩ := putSuper_states hrun
  have hself : s.states k = ((f k).1, (f k).2.1, ir, im) := by
    rw [hstates, Function.update_self]
  rw [hself] at hput hpos
  have hdev : (f k).1 ≠ EOF := fun heq => Nat.ne_of_gt hpos ((h.entry k hk).free heq).1
  rw [hput, hstates, Function.update_idem]
  simp only at hpos ⊢
  refine h.update_same hk ⟨fun hne => ?_, fun heq => ?_, hbound⟩ fun hne => ?_
  · by_contra hzero
    exact hne (if_pos (Nat.eq_zero_of_not_pos hzero))
  · by_cases hlast : (f k).2.1 - 1 = 0
    · exact ⟨hlast, hclean (by omega)⟩
    · exact absurd ((if_neg hlast).symm.trans heq) hdev
  · by_cases hlast : (f k).2.1 - 1 = 0
    · exact absurd (if_pos hlast) hne
    · exact if_neg hlast

/-- A failing call gives up the last reference only if the entry points nowhere. -/
def UmountClean (s : Fs) (target : CStr) : Prop :=
  ∀ i t k, Onixs.namei s target = some (some i, t) → umountTarget t i = true →
    t.getSuper (umountDev t i) = some k →
    (t.superTable k).imount = none ∨ 1 < (t.superTable k).inodeList.length →
    (t.superTable k).count = 1 → (t.superTable k).iroot = none ∧ (t.superTable k).imount = none

theorem TableInOrder.umountSuper {i : ℕ} {r : ℤ} (h : TableInOrder s.states) (hclean : ∀ k, s.getSuper (umountDev s i) = some k →
      (s.superTable k).imount = none ∨ 1 < (s.superTable k).inodeList.length → (s.superTable k).count = 1 →
      (s.superTable k).iroot = none ∧ (s.superTable k).imount = none)
    (hrun : umountSuper s i = some (r, t)) : TableInOrder t.states := by
  obtain ⟨k, hk, hrun⟩ := Option.bind_eq_some_iff.mp hrun
  have hlt := getSuper_lt hk
  have hbound := (h.entry k hlt).bound
  -- a failing call
  have hfail : ∀ {v : Fs} {r : ℤ}, (s.superTable k).imount = none ∨ 1 < (s.superTable k).inodeList.length →
      umountRollback s (some k) (some i) (-1) = some (r, v) → TableInOrder v.states := by
    intro v r hwhy hback
    obtain ⟨u, hput, hback⟩ := Option.bind_eq_some_iff.mp hback
    rw [umountRollback_states (s := u) (d := some i) (a := -1) hback]
    refine h.putSuper _ _ hlt (Function.update_eq_self k s.states).symm (Nat.le_trans (Nat.sub_le _ _) hbound) (fun hone => ?_) hput
    exact hclean k hk hwhy hone
  cases hm : (s.superTable k).imount with
  | none =>
    simp only [hm] at hrun
    exact hfail (Or.inl hm) hrun
  | some m =>
    simp only [hm] at hrun
    split at hrun
    next hlong => exact hfail (Or.inr hlong) hrun
    next =>
      obtain ⟨u, hroot, hrun⟩ := Option.bind_eq_some_iff.mp hrun
      obtain ⟨v, hmount, hrun⟩ := Option.bind_eq_some_iff.mp hrun
      obtain ⟨w, hput, hrun⟩ := Option.bind_eq_some_iff.mp hrun
      rw [umountRollback_states (s := w) (d := some i) (a := 0) hrun]
      have hsome : (s.states k).2.2.2 = some m := hm
      rw [hsome] at hbound
      refine h.putSuper none none hlt ?_ (by simpa using hbound) (fun _ => ⟨rfl, rfl⟩) hput
      rw [states_setImount, (SameMounts.iput hmount).states, states_setMount, states_setIroot,
        (SameMounts.iputOpt hroot).states]
      simp only [Function.update_idem, Function.update_self]

theorem TableInOrder.sysUmount {target : CStr} {r : ℤ} (h : TableInOrder s.states) (hclean : UmountClean s target)
    (hrun : sysUmount s target = some (r, t)) : TableInOrder t.states := by
  obtain ⟨⟨d, u⟩, hname, hrun⟩ := Option.bind_eq_some_iff.mp hrun
  have h₁ : TableInOrder u.states := by
    rw [(SameMounts.namei hname).states]
    exact h
  cases d with
  | none =>
    rw [umountRollback_states hrun]
    exact h₁
  | some i =>
    simp only at hrun
    split at hrun
    next htarget => exact h₁.umountSuper (fun k => hclean i u k hname htarget) hrun
    next =>
      rw [umountRollback_states hrun]
      exact h₁

theorem TableInOrder.sysMkfs {sectors : ℕ → Option ℕ} {devname : CStr} {icount : ℕ} (h : TableInOrder s.states)
    (hnone : ∀ i u, Onixs.namei s devname = some (some i, u) → isBlk (u.inodeDesc i).mode = true →
      s.getSuper ((u.inodeDesc i).zone 0) = none)
    (hrun : sysMkfs sectors s devname icount = some t) : TableInOrder t.states := by
  obtain ⟨⟨d, u⟩, hname, hrun⟩ := Option.bind_eq_some_iff.mp hrun
  have hsame := SameMounts.namei hname
  have h₁ : TableInOrder u.states := by
    rw [hsame.states]
    exact h
  cases d with
  | none =>
    obtain rfl := Option.some.inj hrun
    exact h₁
  | some i =>
    simp only at hrun
    split at hrun
    next =>
      rw [(SameMounts.iput hrun).states]
      exact h₁
    next hblk =>
      obtain ⟨_, -, hrun⟩ := Option.bind_eq_some_iff.mp hrun
      obtain ⟨n, -, hrun⟩ := Option.bind_eq_some_iff.mp hrun
      obtain ⟨v, hmkfs, hput⟩ := Option.bind_eq_some_iff.mp hrun
      have hzone : (u.inodeDesc i).zone 0 ≠ EOF :=
        Nat.ne_of_lt (Nat.lt_trans (Bytes.getU16_lt _ _) (by decide))
      have hfresh : u.getSuper ((u.inodeDesc i).zone 0) = none := by
        rw [hsame.getSuper]
        exact hnone i u hname (Bool.eq_true_of_not_eq_false hblk)
      obtain ⟨-, -, -, -, h₂⟩ := h₁.devmkfs hzone hfresh hmkfs
      rw [(SameMounts.iput hput).states]
      exact h₂

/-- **`dev_init`** mounts a memory disk that has no entry. -/
theorem TableInOrder.mountDev {d : DeviceEntry} (h : TableInOrder s.states) (hnone : s.getSuper d.dev = none)
    (hrun : mountDev d s = some t) : TableInOrder t.states := by
  obtain ⟨⟨r, s₁⟩, hmkdir, hrun⟩ := Option.bind_eq_some_iff.mp hrun
  obtain ⟨n, -, hrun⟩ := Option.bind_eq_some_iff.mp hrun
  obtain ⟨s₂, hmkfs, hrun⟩ := Option.bind_eq_some_iff.mp hrun
  obtain ⟨⟨k, s₃⟩, hread, hrun⟩ := Option.bind_eq_some_iff.mp hrun
  obtain ⟨⟨iroot, s₄⟩, hget, hrun⟩ := Option.bind_eq_some_iff.mp hrun
  obtain ⟨⟨imount, s₅⟩, hname, hrun⟩ := Option.bind_eq_some_iff.mp hrun
  obtain ⟨m, himount, hrun⟩ := Option.bind_eq_some_iff.mp hrun
  obtain rfl := Option.some.inj hrun
  have hdev : d.dev ≠ EOF := Nat.ne_of_lt (Nat.lt_trans d.lt (by decide))
  have hsame := SameMounts.sysMkdir hmkdir
  have h₁ : TableInOrder s₁.states := by
    rw [hsame.states]
    exact h
  obtain ⟨k', r', hlt', hstates, h₂⟩ := h₁.devmkfs hdev ((hsame.getSuper _).trans hnone) hmkfs
  have hself : s₂.states k' = (d.dev, 1, some r', none) := by
    rw [hstates, Function.update_self]
  -- `read_super` finds the entry `devmkfs` has taken
  rcases readSuper_states hread with ⟨hk, hread⟩ | ⟨hnone', -⟩
  · have hlt := getSuper_lt hk
    have hsome : (s₂.states k).1 = d.dev := Fs.dev_of_getSuper hk
    obtain rfl := h₂.unique k hlt k' hlt' (by rw [hsome, hself]) (by rw [hsome]; exact hdev)
    rw [states_setMount, states_setImount, (SameMounts.namei hname).states, states_setIroot,
      (SameMounts.iget hget).states, hread, hself]
    simp only [Function.update_idem, Function.update_self]
    exact h₂.mount hlt hdev (Or.inl hk) ⟨by decide, by decide⟩ (Option.isSome_iff_exists.mpr ⟨m, himount⟩)
  · have hfound := List.find?_eq_none.mp hnone' k' (List.mem_range.mpr hlt')
    exact absurd (decide_eq_true (congrArg Prod.fst hself)) hfound

end Table

/-! ### Runs -/

/-- The calls that work on the table. -/
inductive MountOp where
  /-- `sys_mkfs`. -/
  | mkfs (devname : CStr) (icount : ℕ)
  /-- `sys_mount`. -/
  | mount (devname dirname : CStr)
  /-- `sys_umount`. -/
  | umount (target : CStr)
  /-- `dev_init`. -/
  | devInit

/-- A call, with what it returns; of `sys_mkfs` and `dev_init` that says nothing. -/
def mountStep (devices : List DeviceEntry) (s : Fs) : MountOp → Option (ℤ × Fs)
  | .mkfs devname icount => (sysMkfs (sectorCount devices) s devname icount).map fun t => (0, t)
  | .mount devname dirname => sysMount s devname dirname
  | .umount target => sysUmount s target
  | .devInit => (devInit devices s).map fun p => (0, p.2)

/-- A call that keeps the table in order: nothing is formatted that has an entry, and no entry that points
somewhere is given up by a failing `sys_umount`. -/
def MountOp.Fits (devices : List DeviceEntry) (s : Fs) : MountOp → Prop
  | .mkfs devname _ => ∀ i u, namei s devname = some (some i, u) → isBlk (u.inodeDesc i).mode = true →
      s.getSuper ((u.inodeDesc i).zone 0) = none
  | .mount _ _ => True
  | .umount target => UmountClean s target
  | .devInit => ∀ d, deviceFind devices .ramdisk 0 = some d → s.getSuper d.dev = none

/-- **One super block per device**: no device has two entries, and an entry is free exactly when it is
clean. -/
structure OnePerDevice (s : Fs) : Prop where
  /-- The entries in use are those of different devices. -/
  unique : ∀ k < superNr, ∀ k' < superNr, (s.superTable k).dev = (s.superTable k').dev →
    (s.superTable k).dev ≠ EOF → k = k'
  /-- The free entries are those with no count and no pointers. -/
  free_iff : ∀ k < superNr, (s.superTable k).dev = EOF ↔
    (s.superTable k).count = 0 ∧ (s.superTable k).iroot = none ∧ (s.superTable k).imount = none

theorem TableInOrder.onePerDevice {s : Fs} (h : TableInOrder s.states) : OnePerDevice s := by
  refine ⟨h.unique, fun k hk => ⟨(h.entry k hk).free, fun hclean => ?_⟩⟩
  by_contra hused
  exact Nat.ne_of_gt ((h.entry k hk).used hused) hclean.1

/-- **Each call keeps the table in order.** -/
theorem mountStep_inOrder {devices : List DeviceEntry} {s t : Fs} {op : MountOp} {r : ℤ}
    (h : TableInOrder s.states) (hfits : op.Fits devices s) (hrun : mountStep devices s op = some (r, t)) :
    TableInOrder t.states := by
  cases op with
  | mkfs devname icount =>
    obtain ⟨u, hcall, heq⟩ := Option.map_eq_some_iff.mp hrun
    obtain ⟨-, rfl⟩ := Prod.mk.inj heq
    exact h.sysMkfs hfits hcall
  | mount devname dirname => exact h.sysMount hrun
  | umount target => exact h.sysUmount hfits hrun
  | devInit =>
    obtain ⟨⟨files, u⟩, hcall, heq⟩ := Option.map_eq_some_iff.mp hrun
    obtain ⟨-, rfl⟩ := Prod.mk.inj heq
    obtain ⟨d, v, hfind, hmount, hsame⟩ := SameMounts.devInit hcall
    rw [hsame.states]
    exact h.mountDev (hfits d hfind) hmount

/-- **At boot** the table is in order, with an entry for the root device. -/
theorem superInit_inOrder {s t : Fs} {dev : ℕ} (hzero : ∀ k < superNr, (s.superTable k).count = 0) (hdev : dev ≠ EOF)
    (hrun : superInit s dev = some t) : TableInOrder t.states := by
  obtain ⟨⟨k, u⟩, hread, hrun⟩ := Option.bind_eq_some_iff.mp hrun
  obtain ⟨⟨iroot, v⟩, hget, hrun⟩ := Option.bind_eq_some_iff.mp hrun
  obtain ⟨⟨imount, w⟩, hget', hrun⟩ := Option.bind_eq_some_iff.mp hrun
  obtain rfl := Option.some.inj hrun
  have hstart : TableInOrder { s with superTable := fun k =>
      { s.superTable k with dev := EOF, inodeList := [], iroot := none, imount := none } }.states := by
    refine ⟨fun k hk => ⟨fun hne => absurd rfl hne, fun _ => ⟨hzero k hk, rfl, rfl⟩, ?_⟩,
      fun _ _ _ _ _ hne => absurd rfl hne⟩
    exact Nat.le_trans (Nat.le_of_eq (hzero k hk)) (Nat.zero_le _)
  obtain ⟨hlt, hdevice, n, hpos, hle, hstates, -⟩ := hstart.readSuper hread
  rw [states_setImount, (SameMounts.iget hget').states, states_setIroot, (SameMounts.iget hget).states, hstates]
  simp only [Function.update_idem, Function.update_self]
  exact hstart.mount hlt hdev hdevice ⟨hpos, hle⟩ rfl

/-- The tasks there are at boot. -/
def createTasks (s : Fs) : ℕ → Fs
  | 0 => s
  | n + 1 => taskCreate (createTasks s n)

theorem createTasks_states (s : Fs) : ∀ n, (createTasks s n).states = s.states
  | 0 => rfl
  | n + 1 => createTasks_states s n

/-- **One super block per device, in every state** that a run from boot leads to whose calls all fit. -/
theorem mountRun_inOrder {devices : List DeviceEntry} {s₀ s t : Fs} {dev n : ℕ} {ops : List MountOp}
    (hzero : ∀ k < superNr, (s₀.superTable k).count = 0) (hdev : dev ≠ EOF) (hboot : superInit s₀ dev = some s)
    (hfits : Run.Along (mountStep devices) (fun u op => op.Fits devices u) (createTasks s n) ops)
    (hrun : Run.exec (mountStep devices) (createTasks s n) ops = some t) : OnePerDevice t := by
  have hinv := Run.inv_of_exec (fun u => TableInOrder u.states)
    (fun _ _ _ _ h hop hstep => mountStep_inOrder h hop hstep)
    ops (createTasks s n) t ?_ hfits hrun
  · exact hinv.onePerDevice
  · rw [createTasks_states]
    exact superInit_inOrder hzero hdev hboot

/-- Device 1 with blocks `d`, before the kernel has started. -/
def coldFs (d : ℕ → Bytes) : Fs :=
  { deviceFs rootDesc d with superTable := fun _ =>
    { dev := 0, count := 0, imaps := fun _ => none, zmaps := fun _ => none, inodeList := [], iroot := none,
      imount := none } }

/-- That device behind the loop of `super_init`. -/
def clearFs (d : ℕ → Bytes) : Fs :=
  { coldFs d with superTable := fun k =>
    { (coldFs d).superTable k with dev := EOF, inodeList := [], iroot := none, imount := none } }

theorem rootDesc_valid : rootDesc.Valid := by
  refine ⟨?_, ?_, ?_, ?_, ?_, ?_⟩ <;> decide

theorem clearFs_superDesc (d : ℕ → Bytes) (sb : SuperBlock) : ((clearFs d).setSuper 0 sb).superDesc 1 = rootDesc :=
  deviceFs_superDesc rootDesc_valid d

/-- The entry of the root device while `mount_root` fills it in. -/
def startedSuper (list : List ℕ) (iroot imount : Option ℕ) : SuperBlock :=
  { dev := 1, count := 1, imaps := bufferRow 2 1, zmaps := bufferRow 3 1, inodeList := list, iroot := iroot,
    imount := imount }

/-- The root directory, with `count` references. -/
def startedInode (d : ℕ → Bytes) (count : ℕ) : Inode :=
  { dev := 1, nr := 1, count := count, buf := 4, desc := 0, atime := 0, ctime := (d 4).getU32 8, mount := 0 }

theorem clearFs_readSuper (d : ℕ → Bytes) :
    readSuper (clearFs d) 1 = some (0, (clearFs d).setSuper 0 (startedSuper [] none none)) := by
  have hdesc : (clearFs d).superDesc 1 = rootDesc := deviceFs_superDesc rootDesc_valid d
  have hnone : (clearFs d).getSuper 1 = none := by rfl
  have hfree : getFreeSuper (clearFs d) = some 0 := by rfl
  rw [readSuper, hnone]
  simp only [hfree, hdesc, Option.bind_eq_bind, Option.bind_some]
  rfl

theorem clearFs_iget (d : ℕ → Bytes) : iget ((clearFs d).setSuper 0 (startedSuper [] none none)) 1 1
    = some (0, ((clearFs d).setSuper 0 (startedSuper [0] none none)).setInode 0 (startedInode d 1)) := by
  rw [iget_fresh (k := 0) (by rfl) (by rfl) (by rw [clearFs_superDesc]; decide),
    show getFreeInode ((clearFs d).setSuper 0 _) = some 0 from rfl]
  rw [Option.map_some, withFresh, Fs.setSuper_setSuper, freshInode, clearFs_superDesc]
  rfl

theorem started_iget (d : ℕ → Bytes) :
    iget (((clearFs d).setSuper 0 (startedSuper [0] (some 0) none)).setInode 0 (startedInode d 1)) 1 1
      = some (0, ((clearFs d).setSuper 0 (startedSuper [0] (some 0) none)).setInode 0 (startedInode d 2)) := by
  have hfind : findInode (((clearFs d).setSuper 0 (startedSuper [0] (some 0) none)).setInode 0 (startedInode d 1)) 1 1
    = some (some 0) := by rfl
  rw [iget, hfind]
  simp only [Option.bind_eq_bind, Option.bind_some, Fs.setInode_setInode, Fs.setInode_self]
  rfl

/-- The state behind `super_init`. -/
def startedFs (d : ℕ → Bytes) (count : ℕ) : Fs :=
  ((clearFs d).setSuper 0 (startedSuper [0] (some 0) (some 0))).setInode 0 (startedInode d count)

theorem startedFs_superInit (d : ℕ → Bytes) : superInit (coldFs d) 1 = some (startedFs d 2) := by
  have hclear : superInit (coldFs d) 1 = mountRoot (clearFs d) 1 := rfl
  have hiroot : (((clearFs d).setSuper 0 (startedSuper [0] none none)).setInode 0 (startedInode d 1)).setIroot 0 (some 0)
    = ((clearFs d).setSuper 0 (startedSuper [0] (some 0) none)).setInode 0 (startedInode d 1) :=
    congrArg (fun t => t.setInode 0 (startedInode d 1)) ((clearFs d).setSuper_setSuper 0 _ _)
  rw [hclear, mountRoot, clearFs_readSuper]
  simp only [Option.bind_eq_bind, Option.bind_some]
  rw [clearFs_iget]
  simp only [Option.bind_some]
  rw [hiroot, started_iget]
  exact congrArg (fun t => some (t.setInode 0 (startedInode d 2))) ((clearFs d).setSuper_setSuper 0 _ _)

/-- Three tasks hold six references more. -/
theorem startedFs_tasks (d : ℕ → Bytes) : createTasks (startedFs d 2) 3 = startedFs d 8 := by
  simp only [createTasks, taskCreate, Fs.addCount, startedFs, Fs.setInode_setInode, Fs.setInode_self]
  rfl
/-- A `sys_mount` that fails leaves the table in order. -/
theorem mountRun_inOrder_mount : ∃ t, Run.exec (mountStep []) (createTasks (startedFs (mountBlocks 1) 2) 3)
    [.mount (cstr ['/', 'm']) (cstr ['/', 'm'])] = some t ∧ OnePerDevice t := by
  have hrun : (Run.exec (mountStep []) (startedFs (mountBlocks 1) 8)
      [.mount (cstr ['/', 'm']) (cstr ['/', 'm'])]).isSome = true := by decide
  rw [← startedFs_tasks] at hrun
  obtain ⟨t, hexec⟩ := Option.isSome_iff_exists.mp hrun
  have hfits : Run.Along (mountStep []) (fun u op => op.Fits [] u) (createTasks (startedFs (mountBlocks 1) 2) 3)
      [.mount (cstr ['/', 'm']) (cstr ['/', 'm'])] := ⟨trivial, fun _ _ _ => trivial⟩
  exact ⟨t, hexec, mountRun_inOrder (fun _ _ => rfl) (by decide) (startedFs_superInit _) hfits hexec⟩

set_option maxRecDepth 10000 in
/-- **The root device by its name** is refused by `sys_umount`, but its entry is free behind the call, with
both pointers. -/
theorem umount_root_unclean : ∃ s t, superInit (coldFs (mountBlocks 1)) 1 = some s ∧
    Run.exec (mountStep []) (createTasks s 3) [.umount (cstr ['/', 'b'])] = some t ∧ ¬OnePerDevice t := by
  have hrun : ((Run.exec (mountStep []) (startedFs (mountBlocks 1) 8) [.umount (cstr ['/', 'b'])]).map fun t =>
      ((t.superTable 0).dev, (t.superTable 0).imount)) = some (EOF, some 0) := by decide
  rw [← startedFs_tasks] at hrun
  obtain ⟨t, hexec, heq⟩ := Option.map_eq_some_iff.mp hrun
  obtain ⟨hdev, himount⟩ := Prod.mk.inj heq
  refine ⟨_, t, startedFs_superInit _, hexec, fun hone => ?_⟩
  have hclean := ((hone.free_iff 0 (by decide)).mp hdev).2.2
  rw [himount] at hclean
  exact absurd hclean (by simp)

end Onixs
