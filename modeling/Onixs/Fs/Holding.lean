import Onixs.Fs.Namei

/-!
# References while a path is walked

A walk takes references to inodes and gives them back. `Onixs.Holding c s t L` says that
in state `t`, which has come out of `s`, the walk holds the inodes of the list `L`: the
count of an inode is its count in `c`, where `c` stands for everybody else, and one more
for each place it has in `L`. `iget` adds an inode to the list, `iput` takes one from it,
and nothing else moves a count; so what a function does to the counts can be read off the
list it ends with.

The inodes the super blocks point to are never released during a walk (`Onixs.Pinned`),
which is what the crossing of a mount point rests on.
-/

namespace Onixs

open Bytes

/-! ### The inode table -/

/-- **The entries in use are those with a count**, and the lists of the super blocks have no
others. -/
structure TableOk (s : Fs) : Prop where
  /-- An entry is free when it has no references. -/
  free_iff : ∀ i < inodeNr, (s.inodeTable i).dev = EOF ↔ (s.inodeTable i).count = 0
  /-- A list has entries in use. -/
  used : ∀ k, ∀ i ∈ (s.superTable k).inodeList, i < inodeNr ∧ (s.inodeTable i).count ≠ 0
  /-- A list has each entry once. -/
  nodup : ∀ k, (s.superTable k).inodeList.Nodup

/-- The inodes the super blocks point to are in use. A directory that is the root of a device and
has one mounted on it can only be the root of the whole tree, which is mounted on itself. -/
structure Pinned (c : ℕ → ℕ) (s : Fs) : Prop where
  /-- Root directories. -/
  iroot : ∀ k < superNr, ∀ m, (s.superTable k).iroot = some m → m < inodeNr ∧ c m ≠ 0
  /-- Mount points. -/
  imount : ∀ k < superNr, ∀ m, (s.superTable k).imount = some m → m < inodeNr ∧ c m ≠ 0
  /-- A mount point with number 1. -/
  top : ∀ k < superNr, ∀ m, (s.superTable k).imount = some m → (s.inodeTable m).nr = 1 →
    ∀ k', s.getSuper (s.inodeTable m).dev = some k' → (s.superTable k').imount = some m

/-- There is room for `n` more references in every counter. -/
def Room (c : ℕ → ℕ) (n : ℕ) : Prop := ∀ j < inodeNr, c j + n < 4294967296

theorem Room.mono {c : ℕ → ℕ} {m n : ℕ} (h : Room c n) (hle : m ≤ n) : Room c m := fun j hj =>
  Nat.lt_of_le_of_lt (Nat.add_le_add_left hle (c j)) (h j hj)

/-- What identifies an inode: all fields but the count and the times. -/
def Inode.ident (node : Inode) : ℕ × ℕ × ℕ × ℕ × ℕ :=
  (node.dev, node.nr, node.buf, node.desc, node.mount)

/-- What a super block points to. -/
def SuperBlock.ident (sb : SuperBlock) : ℕ × Option ℕ × Option ℕ := (sb.dev, sb.iroot, sb.imount)

/-- **In `t` the inodes of `L` are held** on top of the references in `c`, which are to inodes
that are in `t` what they were in `s`. -/
structure Holding (c : ℕ → ℕ) (s t : Fs) (L : List ℕ) : Prop where
  /-- The table. -/
  ok : TableOk t
  /-- The counts. -/
  count : ∀ j, (t.inodeTable j).count = c j + L.count j
  /-- What is held is in the table. -/
  lt : ∀ i ∈ L, i < inodeNr
  /-- What others use has not changed. -/
  kept : ∀ j, c j ≠ 0 → (t.inodeTable j).ident = (s.inodeTable j).ident
  /-- The super blocks point where they pointed. -/
  supers : ∀ k, (t.superTable k).ident = (s.superTable k).ident

section Holding

variable {c : ℕ → ℕ} {s t u : Fs} {L : List ℕ} {i dir : ℕ}

theorem Holding.refl (hok : TableOk s) : Holding (fun j => (s.inodeTable j).count) s s [] where
  ok := hok
  count j := by simp
  lt := by simp
  kept _ _ := rfl
  supers _ := rfl

theorem Holding.perm {L' : List ℕ} (h : Holding c s t L) (hperm : L.Perm L') : Holding c s t L' where
  ok := h.ok
  count j := by rw [← hperm.count_eq]; exact h.count j
  lt i hi := h.lt i (hperm.mem_iff.mpr hi)
  kept := h.kept
  supers := h.supers

/-- A step that leaves the tables alone, but for the times. -/
theorem Holding.congr (h : Holding c s t L)
    (hnode : ∀ j, (u.inodeTable j).ident = (t.inodeTable j).ident ∧
      (u.inodeTable j).count = (t.inodeTable j).count)
    (hsuper : u.superTable = t.superTable) : Holding c s u L where
  ok := by
    refine ⟨fun j hj => ?_, fun k j hj => ?_, fun k => ?_⟩
    · rw [(hnode j).2, ← h.ok.free_iff j hj]
      exact Eq.congr_left (congrArg Prod.fst (hnode j).1)
    · rw [(hnode j).2]
      exact h.ok.used k j (hsuper ▸ hj)
    · rw [hsuper]
      exact h.ok.nodup k
  count j := (hnode j).2.trans (h.count j)
  lt := h.lt
  kept j hj := (hnode j).1.trans (h.kept j hj)
  supers k := by rw [hsuper]; exact h.supers k

theorem Holding.count_pos (h : Holding c s t (i :: L)) : (t.inodeTable i).count ≠ 0 := by
  rw [h.count, List.count_cons_self]
  omega

/-- What is held belongs to a device. -/
theorem Holding.dev_ne (h : Holding c s t L) (hi : i ∈ L) : (t.inodeTable i).dev ≠ EOF := by
  intro hdev
  have h0 := (h.ok.free_iff i (h.lt i hi)).mp hdev
  have hpos := List.count_pos_iff.mpr hi
  rw [h.count] at h0
  omega

theorem Holding.used_of_pinned (h : Holding c s t L) (hi : c i ≠ 0) :
    (t.inodeTable i).count ≠ 0 := by
  rw [h.count]
  omega

theorem Holding.getSuper (h : Holding c s t L) (dev : ℕ) : t.getSuper dev = s.getSuper dev := by
  rw [Fs.getSuper, Fs.getSuper]
  refine congrArg (fun p => List.find? p _) (funext fun k => ?_)
  rw [show (t.superTable k).dev = (s.superTable k).dev from congrArg Prod.fst (h.supers k)]

theorem Holding.imount (h : Holding c s t L) (k : ℕ) :
    (t.superTable k).imount = (s.superTable k).imount :=
  congrArg (fun p => p.2.2) (h.supers k)

theorem Holding.iroot (h : Holding c s t L) (k : ℕ) :
    (t.superTable k).iroot = (s.superTable k).iroot :=
  congrArg (fun p => p.2.1) (h.supers k)

theorem Holding.room (h : Holding c s t L) (hroom : Room c (L.length + 1)) {j : ℕ}
    (hlt : j < inodeNr) : (t.inodeTable j).count + 1 < 4294967296 := by
  have hle := List.count_le_length (a := j) (l := L)
  have hj := hroom j hlt
  rw [h.count]
  omega

/-! ### One reference more, one less -/

/-- The counts after one reference more to `i`. -/
theorem count_setInode_cons (h : Holding c s t L) {node : Inode}
    (hcount : node.count = (t.inodeTable i).count + 1) (j : ℕ) :
    ((t.setInode i node).inodeTable j).count = c j + (i :: L).count j := by
  rcases eq_or_ne j i with rfl | hne
  · rw [Fs.setInode_self, hcount, h.count, List.count_cons_self]
    omega
  · rw [Fs.setInode_of_ne _ _ hne, h.count, List.count_cons_of_ne (Ne.symm hne)]

/-- **One reference more to an inode in use.** The entry may get another time. -/
theorem Holding.retain (h : Holding c s t L) (hlt : i < inodeNr) (hused : (t.inodeTable i).count ≠ 0)
    {node : Inode} (hident : node.ident = (t.inodeTable i).ident)
    (hcount : node.count = (t.inodeTable i).count + 1) :
    Holding c s (t.setInode i node) (i :: L) where
  ok := by
    refine ⟨fun j hj => ?_, fun k j hj => ?_, h.ok.nodup⟩
    · rcases eq_or_ne j i with rfl | hne
      · rw [Fs.setInode_self, show node.dev = (t.inodeTable j).dev from congrArg Prod.fst hident,
          hcount]
        have := h.ok.free_iff j hj
        constructor
        · exact fun hdev => absurd (this.mp hdev) hused
        · exact fun h0 => absurd h0 (Nat.succ_ne_zero _)
      · rw [Fs.setInode_of_ne _ _ hne]
        exact h.ok.free_iff j hj
    · refine ⟨(h.ok.used k j hj).1, ?_⟩
      rw [count_setInode_cons h hcount, Nat.add_comm]
      have := (h.ok.used k j hj).2
      rw [h.count] at this
      have hle := (List.sublist_cons_self i L).count_le j
      omega
  count := count_setInode_cons h hcount
  lt j hj := (List.mem_cons.mp hj).elim (fun heq => heq ▸ hlt) (h.lt j)
  kept j hj := by
    rcases eq_or_ne j i with rfl | hne
    · rw [Fs.setInode_self, hident]
      exact h.kept j hj
    · rw [Fs.setInode_of_ne _ _ hne]
      exact h.kept j hj
  supers := h.supers

theorem Holding.addCount (h : Holding c s t L) (hroom : Room c (L.length + 1)) (hlt : i < inodeNr)
    (hused : (t.inodeTable i).count ≠ 0) : Holding c s (t.addCount i) (i :: L) :=
  h.retain hlt hused rfl (u32_of_lt (h.room hroom hlt))

/-- What is left of a list when an entry is taken out of it. -/
theorem mem_removeInode {k j : ℕ} (hnodup : ∀ k, (t.superTable k).inodeList.Nodup) :
    j ∈ ((removeInode t i).superTable k).inodeList ↔ j ≠ i ∧ j ∈ (t.superTable k).inodeList :=
  (hnodup k).mem_erase_iff

/-- **`iput` gives one reference back**, and the entry too if it was the last. -/
theorem Holding.iput_of_lt (h : Holding c s t (i :: L)) (hsmall : (t.inodeTable i).count < 4294967296)
    (hrun : iput t i = some u) : Holding c s u L := by
  have hpos := h.count_pos
  have hlt := h.lt i List.mem_cons_self
  have hsub : sub32 (t.inodeTable i).count 1 = (t.inodeTable i).count - 1 := sub32_of_le hsmall (by omega)
  have hcount : ∀ j, ((t.setInode i { t.inodeTable i with count := (t.inodeTable i).count - 1
      }).inodeTable j).count = c j + L.count j := by
    intro j
    rcases eq_or_ne j i with rfl | hne
    · rw [Fs.setInode_self]
      simp only [h.count, List.count_cons_self]
      omega
    · rw [Fs.setInode_of_ne _ _ hne, h.count, List.count_cons_of_ne (Ne.symm hne)]
  rw [Onixs.iput, hsub] at hrun
  simp only [Fs.setInode_self] at hrun
  by_cases hlast : (t.inodeTable i).count - 1 = 0
  · rw [if_neg (not_not_intro hlast), putFreeInode] at hrun
    obtain ⟨_, -, hrun⟩ := Option.bind_eq_some_iff.mp hrun
    obtain ⟨_, -, hrun⟩ := Option.bind_eq_some_iff.mp hrun
    obtain rfl := Option.some.inj hrun
    have hs0 : c i = 0 := by
      have := hcount i
      rw [Fs.setInode_self] at this
      simp only [hlast] at this
      omega
    refine ⟨⟨fun j hj => ?_, fun k j hj => ?_, fun k => (h.ok.nodup k).erase i⟩, fun j => ?_,
      fun j hj => h.lt j (List.mem_cons_of_mem i hj), fun j hj => ?_, h.supers⟩
    · rcases eq_or_ne j i with rfl | hne
      · rw [Fs.setInode_self]
        simp only [removeInode, Fs.setInode_self, true_iff]
        exact hlast
      · rw [Fs.setInode_of_ne _ _ hne]
        simp only [removeInode, Fs.setInode_of_ne _ _ hne]
        exact h.ok.free_iff j hj
    · obtain ⟨hne, hmem⟩ := (mem_removeInode h.ok.nodup).mp hj
      rw [Fs.setInode_of_ne _ _ hne]
      simp only [removeInode, Fs.setInode_of_ne _ _ hne]
      exact h.ok.used k j hmem
    · rw [← hcount j]
      rcases eq_or_ne j i with rfl | hne
      · rw [Fs.setInode_self]
        rfl
      · rw [Fs.setInode_of_ne _ _ hne]
        rfl
    · have hne : j ≠ i := fun heq => hj (heq ▸ hs0)
      rw [Fs.setInode_of_ne _ _ hne]
      simp only [removeInode, Fs.setInode_of_ne _ _ hne]
      exact h.kept j hj
  · rw [if_pos hlast] at hrun
    obtain rfl := Option.some.inj hrun
    refine ⟨⟨fun j hj => ?_, fun k j hj => ⟨(h.ok.used k j hj).1, ?_⟩, h.ok.nodup⟩, hcount,
      fun j hj => h.lt j (List.mem_cons_of_mem i hj), fun j hj => ?_, h.supers⟩
    · rcases eq_or_ne j i with rfl | hne
      · rw [Fs.setInode_self]
        simp only [h.ok.free_iff j hj]
        omega
      · rw [Fs.setInode_of_ne _ _ hne]
        exact h.ok.free_iff j hj
    · rcases eq_or_ne j i with rfl | hne
      · rw [Fs.setInode_self]
        exact hlast
      · rw [Fs.setInode_of_ne _ _ hne]
        exact (h.ok.used k j hj).2
    · rcases eq_or_ne j i with rfl | hne
      · rw [Fs.setInode_self]
        exact h.kept j hj
      · rw [Fs.setInode_of_ne _ _ hne]
        exact h.kept j hj

theorem Holding.count_lt (h : Holding c s t (i :: L)) (hroom : Room c (L.length + 1)) :
    (t.inodeTable i).count < 4294967296 := by
  have hi := hroom i (h.lt i List.mem_cons_self)
  have hle : List.count i (i :: L) ≤ L.length + 1 := List.count_le_length
  rw [h.count]
  omega

theorem Holding.iput (h : Holding c s t (i :: L)) (hroom : Room c (L.length + 1))
    (hrun : iput t i = some u) : Holding c s u L := h.iput_of_lt (h.count_lt hroom) hrun

theorem Holding.iputOpt {o : Option ℕ} (h : Holding c s t (o.toList ++ L))
    (hroom : Room c (L.length + 1)) (hrun : iputOpt t o = some u) : Holding c s u L := by
  cases o with
  | none => exact Option.some.inj hrun ▸ h
  | some i => exact h.iput hroom hrun

/-! ### Taking an inode -/

theorem getSuper_lt {dev k : ℕ} (h : t.getSuper dev = some k) : k < superNr :=
  List.mem_range.mp (List.mem_of_find?_eq_some h)

theorem getFreeInode_some (h : getFreeInode t = some i) : i < inodeNr ∧ (t.inodeTable i).dev = EOF := by
  refine ⟨List.mem_range.mp (List.mem_of_find?_eq_some h), ?_⟩
  simpa using List.find?_some h

/-- The list `find_inode` finds an entry in. -/
theorem findInode_some {dev nr : ℕ} (h : findInode t dev nr = some (some i)) :
    ∃ k, t.getSuper dev = some k ∧ i ∈ (t.superTable k).inodeList ∧ (t.inodeTable i).nr = nr := by
  obtain ⟨k, hk, h⟩ := Option.bind_eq_some_iff.mp h
  have hfind := Option.some.inj h
  exact ⟨k, hk, List.mem_of_find?_eq_some hfind, by simpa using List.find?_some hfind⟩

/-- **`fit_inode` trades the inode for the root mounted on it.** -/
theorem Holding.fitInode (hpin : Pinned c s) (h : Holding c s t (i :: L)) (hroom : Room c (L.length + 1))
    {r : ℕ} (hrun : fitInode t i = some (r, u)) : Holding c s u (r :: L) := by
  rw [Onixs.fitInode] at hrun
  by_cases hm : (t.inodeTable i).mount = 0
  · rw [if_pos hm] at hrun
    obtain ⟨rfl, rfl⟩ := Prod.mk.inj (Option.some.inj hrun)
    exact h
  · rw [if_neg hm] at hrun
    obtain ⟨k, hk, hrun⟩ := Option.bind_eq_some_iff.mp hrun
    obtain ⟨t', hput, hrun⟩ := Option.bind_eq_some_iff.mp hrun
    obtain ⟨root, hroot, hrun⟩ := Option.bind_eq_some_iff.mp hrun
    obtain ⟨rfl, rfl⟩ := Prod.mk.inj (Option.some.inj hrun)
    have h' := h.iput hroom hput
    rw [h'.iroot] at hroot
    obtain ⟨hlt, hused⟩ := hpin.iroot k (getSuper_lt hk) root hroot
    exact h'.addCount hroom hlt (h'.used_of_pinned hused)

/-- The entry `iget` fills in for an inode that is not in memory. -/
def freshInode (t : Fs) (i dev nr : ℕ) : Inode :=
  { t.inodeTable i with
    dev := dev
    nr := nr
    count := u32 ((t.inodeTable i).count + 1)
    buf := inodeBlock (t.superDesc dev) nr
    desc := inodeOffset nr
    ctime := (t.blk dev (inodeBlock (t.superDesc dev) nr)).getU32 (inodeOffset nr + 8)
    atime := t.time }

/-- The inode table with that entry. -/
def withFresh (t : Fs) (k i dev nr : ℕ) : Fs :=
  (t.setSuper k { t.superTable k with inodeList := i :: (t.superTable k).inodeList }).setInode i
    (freshInode t i dev nr)

/-- `iget` for an inode that is not in memory. -/
theorem iget_fresh (hfind : findInode t dev nr = some none) (hk : t.getSuper dev = some k)
    (hle : nr ≤ (t.superDesc dev).inodes) :
    iget t dev nr = (getFreeInode t).map fun i => (i, withFresh t k i dev nr) := by
  rw [iget, hfind]
  simp only [Option.bind_eq_bind, Option.bind_some, hk, assert_pos hle]
  cases getFreeInode t <;> rfl

theorem withFresh_self (t : Fs) (k i dev nr : ℕ) :
    (withFresh t k i dev nr).inodeTable i = freshInode t i dev nr := Fs.setInode_self _ _ _

theorem withFresh_of_ne (t : Fs) (k dev nr : ℕ) {j : ℕ} (h : j ≠ i) :
    (withFresh t k i dev nr).inodeTable j = t.inodeTable j := Fs.setInode_of_ne _ _ h

theorem withFresh_super (t : Fs) (k i dev nr k' : ℕ) :
    ((withFresh t k i dev nr).superTable k').ident = (t.superTable k').ident := by
  rw [withFresh, Fs.setInode_superTable]
  rcases eq_or_ne k' k with rfl | hne
  · rw [Fs.setSuper_self]
    rfl
  · rw [Fs.setSuper_of_ne _ _ hne]

/-- The new entry is at the head of the list of its device. -/
theorem mem_withFresh {k dev nr k' j : ℕ} : j ∈ ((withFresh t k i dev nr).superTable k').inodeList ↔
    (j = i ∧ k' = k) ∨ j ∈ (t.superTable k').inodeList := by
  rw [withFresh, Fs.setInode_superTable]
  rcases eq_or_ne k' k with rfl | hne
  · rw [Fs.setSuper_self, List.mem_cons]
    simp
  · rw [Fs.setSuper_of_ne _ _ hne]
    simp [hne]

/-- **An inode that is loaded** is held by the one who had it loaded. -/
theorem Holding.fresh (h : Holding c s t L) {k dev nr : ℕ} (hdev : dev ≠ EOF) (hfree : getFreeInode t = some i) :
    Holding c s (withFresh t k i dev nr) (i :: L) := by
  obtain ⟨hlt, hfree⟩ := getFreeInode_some hfree
  have h0 := (h.ok.free_iff i hlt).mp hfree
  have hone : (freshInode t i dev nr).count = 1 := by rw [freshInode, h0]; rfl
  have hout : ∀ k, i ∉ (t.superTable k).inodeList := fun k hmem => (h.ok.used k i hmem).2 h0
  obtain ⟨hs0, hL0⟩ : c i = 0 ∧ L.count i = 0 := Nat.add_eq_zero_iff.mp ((h.count i).symm.trans h0)
  refine ⟨⟨fun j hj => ?_, fun k' j hj => ?_, fun k' => ?_⟩, fun j => ?_, fun j hj => ?_,
    fun j hj => ?_, fun k' => ?_⟩
  · rcases eq_or_ne j i with rfl | hne
    · rw [withFresh_self, hone]
      exact ⟨fun hc => absurd hc hdev, fun hc => absurd hc Nat.one_ne_zero⟩
    · rw [withFresh_of_ne _ _ _ _ hne]
      exact h.ok.free_iff j hj
  · rcases mem_withFresh.mp hj with ⟨rfl, -⟩ | hj'
    · rw [withFresh_self, hone]
      exact ⟨hlt, Nat.one_ne_zero⟩
    · have hne : j ≠ i := fun heq => hout k' (heq ▸ hj')
      rw [withFresh_of_ne _ _ _ _ hne]
      exact h.ok.used k' j hj'
  · rw [withFresh, Fs.setInode_superTable]
    rcases eq_or_ne k' k with rfl | hne
    · rw [Fs.setSuper_self]
      exact List.nodup_cons.mpr ⟨hout k', h.ok.nodup k'⟩
    · rw [Fs.setSuper_of_ne _ _ hne]
      exact h.ok.nodup k'
  · rcases eq_or_ne j i with rfl | hne
    · rw [withFresh_self, hone, List.count_cons_self, hs0, hL0]
    · rw [withFresh_of_ne _ _ _ _ hne, List.count_cons_of_ne (Ne.symm hne)]
      exact h.count j
  · exact (List.mem_cons.mp hj).elim (fun heq => heq ▸ hlt) (h.lt j)
  · have hne : j ≠ i := fun heq => hj (heq ▸ hs0)
    rw [withFresh_of_ne _ _ _ _ hne]
    exact h.kept j hj
  · exact (withFresh_super _ _ _ _ _ k').trans (h.supers k')

/-- **`iget` takes one reference.** -/
theorem Holding.iget (hpin : Pinned c s) (h : Holding c s t L) (hroom : Room c (L.length + 1))
    {dev nr r : ℕ} (hdev : dev ≠ EOF) (hrun : iget t dev nr = some (r, u)) :
    Holding c s u (r :: L) := by
  rw [Onixs.iget] at hrun
  obtain ⟨found, hfind, hrun⟩ := Option.bind_eq_some_iff.mp hrun
  cases found with
  | some i =>
    obtain ⟨k, -, hmem, -⟩ := findInode_some hfind
    obtain ⟨hlt, hused⟩ := h.ok.used k i hmem
    have h' : Holding c s (t.setInode i { t.inodeTable i with
        count := u32 ((t.inodeTable i).count + 1), atime := t.time }) (i :: L) :=
      h.retain hlt hused rfl (u32_of_lt (h.room hroom hlt))
    exact h'.fitInode hpin hroom hrun
  | none =>
    obtain ⟨k, hk, hrun⟩ := Option.bind_eq_some_iff.mp hrun
    obtain ⟨_, -, hrun⟩ := Option.bind_eq_some_iff.mp hrun
    obtain ⟨i, hfree, hrun⟩ := Option.bind_eq_some_iff.mp hrun
    obtain ⟨rfl, rfl⟩ := Prod.mk.inj (Option.some.inj hrun)
    exact h.fresh hdev hfree

end Holding

end Onixs
