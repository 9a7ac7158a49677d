import Onixs.Fs.Mount
import Onixs.Fs.WalkTree

/-!
# Inodes in the lists of their devices

`Onixs.Listed` says that an inode in memory is in the list of the super block of its device,
and once. A walk keeps that, whatever the directories contain, as long as it keeps the
counts (`Onixs.carried_listed`).
-/

namespace Onixs

section Listed

variable {c : ℕ → ℕ} {s t u : Fs} {L : List ℕ} {i k dev nr : ℕ}

/-- The tables say the same about which entries are in use and in which lists they are. -/
theorem TableOk.congr (h : TableOk t)
    (hnode : ∀ j, (u.inodeTable j).dev = (t.inodeTable j).dev ∧ (u.inodeTable j).count = (t.inodeTable j).count)
    (hlist : ∀ k, (u.superTable k).inodeList = (t.superTable k).inodeList) : TableOk u := by
  refine ⟨fun j hj => ?_, fun k j hj => ?_, fun k => ?_⟩
  · rw [(hnode j).1, (hnode j).2]
    exact h.free_iff j hj
  · rw [hlist] at hj
    rw [(hnode j).2]
    exact h.used k j hj
  · rw [hlist]
    exact h.nodup k

theorem Listed.congr (h : Listed t)
    (hnode : ∀ j, u.nodeOf j = t.nodeOf j ∧ (u.inodeTable j).count = (t.inodeTable j).count)
    (hsuper : ∀ k, (u.superTable k).dev = (t.superTable k).dev ∧
      (u.superTable k).inodeList = (t.superTable k).inodeList) : Listed u := by
  have hget : ∀ d, u.getSuper d = t.getSuper d := by
    intro d
    rw [Fs.getSuper, Fs.getSuper]
    exact congrArg (fun p => List.find? p _) (funext fun k => by rw [(hsuper k).1])
  have hdev : ∀ j, (u.inodeTable j).dev = (t.inodeTable j).dev := fun j => congrArg Prod.fst (hnode j).1
  refine ⟨fun j hj hj' => ?_, fun k j hj => ?_, fun j hj j' hj' hc hc' heq => ?_⟩
  · rw [(hnode j).2] at hj'
    obtain ⟨k, hk, hmem⟩ := h.mem j hj hj'
    refine ⟨k, ?_, ?_⟩
    · rw [hdev, hget]
      exact hk
    · rw [(hsuper k).2]
      exact hmem
  · rw [(hsuper k).2] at hj
    rw [hdev, (hsuper k).1]
    exact h.dev_eq k j hj
  · rw [(hnode j).2] at hc
    rw [(hnode j').2] at hc'
    rw [(hnode j).1, (hnode j').1] at heq
    exact h.unique j hj j' hj' hc hc' heq

/-- Only blocks and times change. -/
theorem Listed.times (h : Listed t) (hsame : OnlyTimes t u) : Listed u := by
  refine h.congr (fun j => ⟨?_, (hsame.node j).2⟩) fun k => by rw [hsame.superTable]; exact ⟨rfl, rfl⟩
  exact congrArg (fun p => (p.1, p.2.1)) (hsame.node j).1

/-- What `iput` leaves behind, when it comes back. -/
theorem iput_eq_cases (hpos : (t.inodeTable i).count ≠ 0) (hsmall : (t.inodeTable i).count < 4294967296)
    (hrun : iput t i = some u) :
    ((t.inodeTable i).count ≠ 1 ∧
        u = t.setInode i { t.inodeTable i with count := (t.inodeTable i).count - 1 }) ∨
      ((t.inodeTable i).count = 1 ∧
        u = (removeInode t i).setInode i { t.inodeTable i with count := 0, dev := EOF }) := by
  have hbottom : i = 0 → (t.inodeTable i).count ≠ 1 := by
    rintro rfl hone
    rw [iput, hone] at hrun
    simp only [Fs.setInode_self] at hrun
    rw [show sub32 1 1 = 0 by decide, if_neg (not_not_intro rfl), putFreeInode,
      assert_neg (not_not_intro rfl)] at hrun
    exact absurd hrun (by simp)
  obtain ⟨v, hv, hcases⟩ := iput_cases hpos hsmall hbottom
  obtain rfl := Option.some.inj (hv.symm.trans hrun)
  exact hcases

theorem Listed.iput_of_lt (h : Listed t) (hold : Holding c s t (i :: L))
    (hsmall : (t.inodeTable i).count < 4294967296) (hrun : iput t i = some u) : Listed u := by
  rcases iput_eq_cases hold.count_pos hsmall hrun with ⟨-, rfl⟩ | ⟨-, rfl⟩
  · exact h.setInode rfl fun _ => hold.count_pos
  · exact h.release hold.ok rfl

theorem Listed.iput (h : Listed t) (hold : Holding c s t (i :: L)) (hroom : Room c (L.length + 1))
    (hrun : iput t i = some u) : Listed u := h.iput_of_lt hold (hold.count_lt hroom) hrun

theorem Listed.addCount (h : Listed t) (hused : (t.inodeTable i).count ≠ 0) : Listed (t.addCount i) :=
  h.setInode rfl fun _ => hused

theorem Listed.fitInode {r : ℕ} (h : Listed t) (hpin : Pinned c s) (hold : Holding c s t (i :: L))
    (hroom : Room c (L.length + 1)) (hrun : fitInode t i = some (r, u)) : Listed u := by
  rw [Onixs.fitInode] at hrun
  split at hrun
  · obtain ⟨-, rfl⟩ := Prod.mk.inj (Option.some.inj hrun)
    exact h
  · obtain ⟨k, hk, hrun⟩ := Option.bind_eq_some_iff.mp hrun
    obtain ⟨t', hput, hrun⟩ := Option.bind_eq_some_iff.mp hrun
    obtain ⟨root, hroot, hrun⟩ := Option.bind_eq_some_iff.mp hrun
    obtain ⟨-, rfl⟩ := Prod.mk.inj (Option.some.inj hrun)
    have hold' := hold.iput hroom hput
    rw [hold'.iroot] at hroot
    exact (h.iput hold hroom hput).addCount
      (hold'.used_of_pinned (hpin.iroot k (getSuper_lt hk) root hroot).2)

/-- What `find_inode` does not find is not in memory. -/
theorem Listed.absent (h : Listed t) (hfind : findInode t dev nr = some none) (hk : t.getSuper dev = some k) :
    ∀ j < inodeNr, (t.inodeTable j).count ≠ 0 → t.nodeOf j ≠ (dev, nr) := by
  intro j hj hused hnode
  obtain ⟨k', hk', hmem⟩ := h.mem j hj hused
  rw [show (t.inodeTable j).dev = dev from congrArg Prod.fst hnode, hk] at hk'
  obtain rfl := Option.some.inj hk'
  obtain ⟨k'', hk'', hnone⟩ := Option.bind_eq_some_iff.mp hfind
  obtain rfl := Option.some.inj (hk''.symm.trans hk)
  have hnot := List.find?_eq_none.mp (Option.some.inj hnone) j hmem
  exact hnot (decide_eq_true (congrArg Prod.snd hnode))

theorem Listed.iget {r : ℕ} (h : Listed t) (hpin : Pinned c s) (hold : Holding c s t L)
    (hroom : Room c (L.length + 1)) (hrun : iget t dev nr = some (r, u)) : Listed u := by
  obtain ⟨found, hfind, hrun'⟩ := Option.bind_eq_some_iff.mp hrun
  cases found with
  | some i =>
    obtain ⟨k, -, hmem, -⟩ := findInode_some hfind
    obtain ⟨hlt, hused⟩ := hold.ok.used k i hmem
    have hold' : Holding c s (t.setInode i { t.inodeTable i with
        count := u32 ((t.inodeTable i).count + 1), atime := t.time }) (i :: L) :=
      hold.retain hlt hused rfl (u32_of_lt (hold.room hroom hlt))
    have h' : Listed (t.setInode i { t.inodeTable i with
        count := u32 ((t.inodeTable i).count + 1), atime := t.time }) := h.setInode rfl fun _ => hused
    exact h'.fitInode hpin hold' hroom hrun'
  | none =>
    obtain ⟨k, hk, hrest⟩ := Option.bind_eq_some_iff.mp hrun'
    obtain ⟨_, hle, hrest⟩ := Option.bind_eq_some_iff.mp hrest
    rw [iget_fresh hfind hk (assert_eq_some.mp hle)] at hrun
    obtain ⟨i, hfree, heq⟩ := Option.map_eq_some_iff.mp hrun
    obtain ⟨rfl, rfl⟩ := Prod.mk.inj heq
    exact h.fresh hold.ok hk hfree (h.absent hfind hk)

end Listed

/-! ### Along a walk -/

/-- **The counts and the lists** are kept by a walk. -/
theorem carried_listed {c : ℕ → ℕ} {s : Fs} (hpin : Pinned c s) :
    Carried c s fun t L => Holding c s t L ∧ Listed t where
  holding h := h.1
  perm h hperm := ⟨h.1.perm hperm, h.2⟩
  congr h hsame := ⟨(carried_holding hpin).congr h.1 hsame, h.2.times hsame⟩
  iput h hroom hrun := ⟨h.1.iput hroom hrun, h.2.iput h.1 hroom hrun⟩
  iget h hroom hdev hrun := ⟨h.1.iget hpin hroom hdev hrun, h.2.iget hpin h.1 hroom hrun⟩
  addCount h hroom hlt hc :=
    ⟨h.1.addCount hroom hlt (h.1.used_of_pinned hc), h.2.addCount (h.1.used_of_pinned hc)⟩

end Onixs
