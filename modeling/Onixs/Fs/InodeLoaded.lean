import Onixs.Common.Run
import Onixs.Fs.InodeSteps

/-!
# Inodes that `iget` returns

Every run of tasks that call `iget` and `iput`. `iget` puts an entry into the list of the
super block before it has read the block of the descriptor; an `iget` of the same inode in
between finds the entry and returns it with whatever its pointers were before
(`Onixs.inodeTasks_stale`). When no inode is looked up while it is being loaded, what `iget`
returns is loaded, for as long as the task has it (`Onixs.inodeTasks_loaded`).
-/

namespace Onixs

namespace InodeTasks

variable {D : Type} {s t : InodeTasks D} {pins base : ℕ → ℕ} {task i dev nr : ℕ}

/-- `find_inode` finds an entry of the device that has been read, unless a task is loading it. -/
theorem Sound.found (h : s.Sound pins base) (happart : s.Apart (.iget task dev nr))
    (hfind : s.findInode dev nr = some (some i)) :
    i < inodeNr ∧ (s.slots i).dev ≠ EOF ∧ ¬s.Loading i := by
  obtain ⟨sb, hsb, hlook⟩ := Option.bind_eq_some_iff.mp hfind
  have hlook := Option.some.inj hlook
  obtain ⟨hi, hdev⟩ := h.listed dev sb hsb i (List.mem_of_find?_eq_some hlook)
  have hnr : (s.slots i).nr = nr := by simpa using List.find?_some hlook
  refine ⟨hi, ?_, ?_⟩
  · rintro heof
    rw [← hdev, heof, h.eof] at hsb
    exact absurd hsb (by simp)
  · rintro ⟨r, hr, rfl, hload⟩
    obtain ⟨-, hrdev, hrnr, -⟩ := h.ref r hr
    exact happart r hr hload ⟨hrdev.symm.trans hdev, hrnr.symm.trans hnr⟩

/-- `get_free_inode` finds a free entry. -/
theorem getFreeInode_spec (hfree : s.getFreeInode = some i) : i < inodeNr ∧ (s.slots i).dev = EOF :=
  ⟨List.mem_range.mp (List.mem_of_find?_eq_some hfree), by simpa using List.find?_some hfree⟩

/-- **`iget` up to the point where it blocks.** -/
theorem Sound.iget (h : s.Sound pins base) (hidle : s.phase task = .idle) (hcounted : ∀ i < inodeNr,
    (s.slots i).count < 4294967295) (happart : s.Apart (.iget task dev nr))
    (hstep : s.iget task dev nr = some t) : t.Sound pins base := by
  have hfrom : ∀ j, s.phase task ≠ .loading j := fun j hc => by
    rw [hidle] at hc
    simp at hc
  obtain ⟨o, hfind, hstep⟩ := Option.bind_eq_some_iff.mp hstep
  cases o with
  | some i =>
    obtain ⟨hi, hdev, hnot⟩ := h.found happart hfind
    have hadd := h.addRef hi hdev hnot (hcounted i hi) hfrom
    simp only at hstep
    split at hstep
    · obtain rfl := Option.some.inj hstep
      exact hadd
    · obtain ⟨_, -, hstep⟩ := Option.bind_eq_some_iff.mp hstep
      obtain rfl := Option.some.inj hstep
      have hmem : (⟨task, i, (s.slots i).dev, (s.slots i).nr⟩ : InodeRef) ∈ (s.addRef task i).held :=
        List.mem_cons_self
      refine hadd.goto hfrom (fun j hc => by simp at hc) fun j hj => ?_
      have hji : i = j := by simpa using hj
      subst hji
      exact ⟨⟨_, hmem, rfl, rfl⟩, hadd.not_loading hmem (hfrom i)⟩
  | none =>
    obtain ⟨sb, hsb, hstep⟩ := Option.bind_eq_some_iff.mp hstep
    obtain ⟨_, -, hstep⟩ := Option.bind_eq_some_iff.mp hstep
    obtain ⟨i, hget, hstep⟩ := Option.bind_eq_some_iff.mp hstep
    obtain ⟨hi, hfree⟩ := getFreeInode_spec hget
    exact h.take hsb hi hfree hfrom (Option.some.inj hstep).symm

/-- A task that was blocked in `iput` or `fit_inode` goes on. -/
theorem Sound.back {r₀ : InodeRef} (h : s.Sound pins base) (hfrom : ∀ j, s.phase r₀.task ≠ .loading j)
    (hr₀ : r₀ ∈ s.held) (hnot : ¬s.Loading r₀.slot)
    (hstep : (s.goto r₀.task .idle).release r₀.task r₀.slot = some t) :
    t.Sound pins base ∧ t.phase r₀.task = .idle ∧
      ∀ j < inodeNr, (t.slots j).count ≤ (s.slots j).count := by
  have hgoto : (s.goto r₀.task .idle).Sound pins base :=
    h.goto hfrom (fun j hc => by simp at hc) fun j hc => by simp at hc
  have hnot' : ¬(s.goto r₀.task .idle).Loading r₀.slot := by
    rintro ⟨r, hr, hslot, hload⟩
    refine hnot ⟨r, hr, hslot, ?_⟩
    rcases eq_or_ne r.task r₀.task with heq | hne
    · rw [heq, goto_self] at hload
      simp at hload
    · rwa [goto_of_ne _ hne] at hload
  obtain ⟨ht, hphase, hcounts⟩ := hgoto.release hr₀ hnot' (goto_self _) hstep
  exact ⟨ht, by rw [hphase, goto_self], hcounts⟩

/-- **Each step keeps the invariant**, as long as no inode is looked up while a task loads it. -/
theorem Sound.step {op : IgetOp D} {r : Unit} (h : s.Sound pins base) (hlegal : s.Legal op)
    (hcounted : s.Counted op) (happart : s.Apart op) (hstep : s.step op = some (r, t)) :
    t.Sound pins base := by
  cases op with
  | iget task dev nr =>
    obtain ⟨t', higet, heq⟩ := Option.map_eq_some_iff.mp hstep
    obtain ⟨-, rfl⟩ := Prod.mk.inj heq
    exact h.iget hlegal hcounted happart higet
  | iput task i =>
    obtain ⟨hidle, r₀, hr₀, rfl, rfl⟩ := hlegal
    obtain ⟨-, rfl⟩ := Prod.mk.inj (Option.some.inj hstep)
    have hfrom : ∀ j, s.phase r₀.task ≠ .loading j := fun j hc => by
      rw [hidle] at hc
      simp at hc
    refine h.goto hfrom (fun j hc => by simp at hc) fun j hj => ?_
    have hji : r₀.slot = j := by simpa using hj
    subst hji
    exact ⟨⟨r₀, hr₀, rfl, rfl⟩, h.not_loading hr₀ (hfrom _)⟩
  | store task i k d =>
    obtain ⟨hidle, ⟨r₀, hr₀, rfl, rfl⟩, hk⟩ := hlegal
    obtain ⟨-, rfl⟩ := Prod.mk.inj (Option.some.inj hstep)
    obtain ⟨hi, hdev, -, hne⟩ := h.ref r₀ hr₀
    have hnot := h.not_loading hr₀ fun hc => by
      rw [hidle] at hc
      simp at hc
    have hmem := h.mem_bufs hi (hdev.symm ▸ hne) hnot
    exact h.ofUser (h.cache.store hmem) rfl fun b =>
      Prod.ext (Cache.store_key _ _ _ _ b).1 (Cache.store_key _ _ _ _ b).2
  | resume task =>
    obtain ⟨t', hresume, heq⟩ := Option.map_eq_some_iff.mp hstep
    obtain ⟨-, rfl⟩ := Prod.mk.inj heq
    rw [InodeTasks.resume] at hresume
    cases hphase : s.phase task with
    | idle => exact absurd hphase hlegal
    | loading i =>
      rw [hphase] at hresume
      exact h.load hphase hresume
    | releasing i =>
      rw [hphase] at hresume
      obtain ⟨⟨r₀, hr₀, rfl, rfl⟩, hnot⟩ := h.waiting task i (Or.inl hphase)
      exact (h.back (fun j hc => by rw [hphase] at hc; simp at hc) hr₀ hnot hresume).1
    | crossing i =>
      rw [hphase] at hresume
      obtain ⟨⟨r₀, hr₀, rfl, rfl⟩, hnot⟩ := h.waiting task i (Or.inr hphase)
      obtain ⟨u, hrel, hresume⟩ := Option.bind_eq_some_iff.mp hresume
      obtain ⟨sb, hsb, hresume⟩ := Option.bind_eq_some_iff.mp hresume
      obtain ⟨root, hroot, hresume⟩ := Option.bind_eq_some_iff.mp hresume
      obtain rfl := Option.some.inj hresume
      obtain ⟨hu, hidle, hcounts⟩ :=
        h.back (fun j hc => by rw [hphase] at hc; simp at hc) hr₀ hnot hrel
      obtain ⟨hlt, hpins⟩ := hu.root _ sb hsb root hroot
      refine hu.addRef hlt (fun hc => hpins.ne' (hu.free root hlt hc).2) (hu.not_loading_of_pins hpins)
        (lt_of_le_of_lt (hcounts root hlt) (hcounted root hlt)) fun j hc => ?_
      rw [hidle] at hc
      simp at hc

/-- The reference that `iget` takes stands for the inode it was asked for. -/
theorem Sound.iget_ref (h : s.Sound pins base) (hstep : s.iget task dev nr = some t) :
    ∃ i, t.held = ⟨task, i, dev, nr⟩ :: s.held := by
  obtain ⟨o, hfind, hstep⟩ := Option.bind_eq_some_iff.mp hstep
  cases o with
  | some i =>
    obtain ⟨sb, hsb, hlook⟩ := Option.bind_eq_some_iff.mp hfind
    have hlook := Option.some.inj hlook
    obtain ⟨-, hdev⟩ := h.listed dev sb hsb i (List.mem_of_find?_eq_some hlook)
    have hnr : (s.slots i).nr = nr := by simpa using List.find?_some hlook
    have hheld : (s.addRef task i).held = ⟨task, i, dev, nr⟩ :: s.held := by
      rw [← hdev, ← hnr]
      rfl
    simp only at hstep
    split at hstep
    · obtain rfl := Option.some.inj hstep
      exact ⟨i, hheld⟩
    · obtain ⟨_, -, hstep⟩ := Option.bind_eq_some_iff.mp hstep
      obtain rfl := Option.some.inj hstep
      exact ⟨i, hheld⟩
  | none =>
    obtain ⟨sb, -, hstep⟩ := Option.bind_eq_some_iff.mp hstep
    obtain ⟨_, -, hstep⟩ := Option.bind_eq_some_iff.mp hstep
    obtain ⟨i, -, hstep⟩ := Option.bind_eq_some_iff.mp hstep
    obtain rfl := Option.some.inj hstep
    refine ⟨i, ?_⟩
    simp [InodeTasks.goto, InodeTasks.addRef, setSlot]

/-- **No task is in a function of the table**, and the entries are those the super blocks refer
to. -/
structure Start (s : InodeTasks D) (pins base : ℕ → ℕ) : Prop where
  /-- The entries and the cache are in order. -/
  sound : s.Sound pins base
  /-- All tasks are in no function. -/
  idle : ∀ task, s.phase task = .idle
  /-- They have no references. -/
  held : s.held = []

end InodeTasks

/-- **`iget` never exposes an inode that is not loaded** when no inode is looked up while a task
loads it: in every state a run of any number of tasks reaches, the descriptor of each inode a
task has is the entry of that inode in a valid buffer with the block of the inode, and what
`iget` returns stands for the inode it was asked for. -/
theorem inodeTasks_loaded {D : Type} {s t : InodeTasks D} {pins base : ℕ → ℕ} (h : s.Start pins base)
    {ops : List (IgetOp D)} (hlegal : Run.Along InodeTasks.step InodeTasks.Legal s ops)
    (hcounted : Run.Along InodeTasks.step InodeTasks.Counted s ops)
    (happart : Run.Along InodeTasks.step InodeTasks.Apart s ops)
    (hrun : Run.exec InodeTasks.step s ops = some t) :
    (∀ r ∈ t.held, t.phase r.task ≠ .loading r.slot → t.Loaded r.slot r.dev r.nr) ∧
      ∀ task dev nr u, t.iget task dev nr = some u → ∃ i, u.held = ⟨task, i, dev, nr⟩ :: t.held := by
  have ht : t.Sound pins base := Run.inv_of_exec (fun s => s.Sound pins base)
    (fun s op r u hs hc hstep => hs.step hc.1.1 hc.1.2 hc.2 hstep) ops s t h.sound
    ((hlegal.and hcounted).and happart) hrun
  refine ⟨fun r hr hphase => ?_, fun task dev nr u hget => ht.iget_ref hget⟩
  obtain ⟨hi, hdev, hnr, hne⟩ := ht.ref r hr
  have hloaded := ht.loaded hi (hdev.symm ▸ hne) (ht.not_loading hr hphase)
  rwa [hdev, hnr] at hloaded

/-- Room for four buffers. -/
def bootBuffers : CacheUser ℕ := { bootCache with cache := { bootCache.cache with cap := 4 } }

theorem bootBuffers_start : bootBuffers.Start :=
  ⟨rfl, by decide, fun _ => rfl, rfl, rfl, rfl, fun _ _ _ => rfl⟩

/-- An empty table over an empty cache, with device 1 mounted. -/
def bootInodes : InodeTasks ℕ where
  user := bootBuffers
  slots := fun _ => ⟨EOF, 0, 0, 0, (0, 0), 0⟩
  supers := fun dev => if dev = 1 then some ⟨⟨64, 512, 1, 1, 6, 0x137F⟩, [], none⟩ else none
  phase := fun _ => .idle
  held := []

theorem bootInodes_supers {dev : ℕ} {sb : SuperSlot} (hsb : bootInodes.supers dev = some sb) :
    sb = ⟨⟨64, 512, 1, 1, 6, 0x137F⟩, [], none⟩ := by
  rcases eq_or_ne dev 1 with rfl | hne
  · exact (Option.some.inj hsb).symm
  · have hnone : bootInodes.supers dev = none := if_neg hne
    exact absurd (hnone.symm.trans hsb) (by simp)

theorem bootInodes_start : bootInodes.Start (fun _ => 0) fun _ => 0 := by
  refine ⟨⟨bootBuffers_start.transparent, fun _ => by decide, fun bf => ?_, fun i _ => ⟨rfl, ?_⟩,
    fun _ _ _ => ⟨rfl, rfl⟩, fun i _ hused => absurd rfl hused, fun dev sb hsb i hi => ?_,
    fun dev sb hsb => ?_, by decide, fun dev sb hsb => ?_, fun dev sb hsb i hi => ?_,
    fun r hr => absurd hr List.not_mem_nil, fun _ _ hc => by simp [bootInodes] at hc,
    fun _ _ hc => by simp [bootInodes] at hc⟩, fun _ => rfl, rfl⟩
  · have hnone : ∀ i ∈ Finset.range inodeNr, bootInodes.bufOf i ≠ some bf := fun i _ => by
      rw [InodeTasks.bufOf_free rfl]
      simp
    rw [refCount_eq_zero.mpr hnone]
    rfl
  · simp [InodeTasks.refs, bootInodes]
  · rw [bootInodes_supers hsb] at hi
    exact absurd hi List.not_mem_nil
  · rw [bootInodes_supers hsb]
    exact List.nodup_nil
  · rw [bootInodes_supers hsb]
    decide
  · rw [bootInodes_supers hsb] at hi
    simp at hi

/-- Task 0 has the root directory. -/
def rootRun : List (IgetOp ℕ) := [.iget 0 1 1, .resume 0]

/-- Two tasks get inode 34 one after the other. -/
theorem inodeTasks_loaded_turn : ∃ t,
    Run.exec InodeTasks.step bootInodes (rootRun ++ [.iget 1 1 34, .resume 1, .iget 2 1 34]) = some t ∧
      t.Loaded 1 1 34 := by
  have hval : (Run.exec InodeTasks.step bootInodes (rootRun ++ [.iget 1 1 34, .resume 1, .iget 2 1 34])).map
      (fun t => (t.held, t.phase 2)) =
      some ([⟨2, 1, 1, 34⟩, ⟨1, 1, 1, 34⟩, ⟨0, 0, 1, 1⟩], .idle) := by decide +kernel
  obtain ⟨t, ht, hobs⟩ := Option.map_eq_some_iff.mp hval
  obtain ⟨hheld, hphase⟩ := Prod.mk.inj hobs
  refine ⟨t, ht, (inodeTasks_loaded bootInodes_start (by decide +kernel) (by decide +kernel)
    (by decide +kernel) ht).1 ⟨2, 1, 1, 34⟩ (hheld ▸ List.mem_cons_self) ?_⟩
  rw [hphase]
  simp

/-- **A stale inode**: task 2 asks for inode 34 while task 1 reads its block. -/
theorem inodeTasks_stale : bootInodes.Start (fun _ => 0) (fun _ => 0) ∧
    Run.Along InodeTasks.step InodeTasks.Legal bootInodes (rootRun ++ [.iget 1 1 34, .iget 2 1 34]) ∧
    ∃ t, Run.exec InodeTasks.step bootInodes (rootRun ++ [.iget 1 1 34, .iget 2 1 34]) = some t ∧
      t.phase 2 = .idle ∧ (⟨2, 1, 1, 34⟩ : InodeRef) ∈ t.held ∧ ¬t.Loaded 1 1 34 := by
  have hval : (Run.exec InodeTasks.step bootInodes (rootRun ++ [.iget 1 1 34, .iget 2 1 34])).map
      (fun t => (t.held, t.phase 2, (t.slots 1).desc, (t.slots 1).buf)) =
      some ([⟨2, 1, 1, 34⟩, ⟨1, 1, 1, 34⟩, ⟨0, 0, 1, 1⟩], .idle, (0, 0), 0) := by decide +kernel
  obtain ⟨t, ht, hobs⟩ := Option.map_eq_some_iff.mp hval
  simp only [Prod.mk.injEq] at hobs
  obtain ⟨hheld, hphase, hdesc, hbuf⟩ := hobs
  refine ⟨bootInodes_start, by decide +kernel, t, ht, hphase, hheld ▸ List.mem_cons_self, fun hloaded => ?_⟩
  have heq := hloaded.desc_eq
  rw [hdesc, hbuf] at heq
  exact absurd heq (by decide)

end Onixs
