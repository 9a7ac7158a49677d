import Onixs.Kernel.PipeFiles

/-!
# Pipes give back what they take

The count of a pipe's inode is the number of open files on it (`Onixs.PipeMachine.users`), so that
`put_pipe_inode` gives the page and the entry back with the last of them. What is left of a pipe is the
block of its `fifo_t`.
-/

namespace Onixs

open Bytes

/-! ### The heap -/

namespace Heap

variable {s t : Heap} {page size ptr : ℕ} {owner : ℕ → Option Owner}

theorem allocKpage_allocated (h : PageOwners s.kernelMap fun _ => none) (halloc : s.allocKpage 1 = some (page, t)) :
    ¬s.Allocated page ∧ (∀ p, t.Allocated p ↔ s.Allocated p ∨ p = page) ∧
      PageOwners t.kernelMap fun _ => none := by
  rw [allocKpage] at halloc
  obtain ⟨_, -, halloc⟩ := Option.bind_eq_some_iff.mp halloc
  obtain ⟨⟨page', map⟩, hscan, halloc⟩ := Option.bind_eq_some_iff.mp halloc
  obtain ⟨rfl, rfl⟩ := Prod.mk.inj (Option.some.inj halloc)
  rw [Memory.scanPage] at hscan
  obtain ⟨_, -, hscan⟩ := Option.bind_eq_some_iff.mp hscan
  obtain ⟨⟨page, map'⟩, hbitmap, hscan⟩ := Option.bind_eq_some_iff.mp hscan
  obtain ⟨_, hne, hscan⟩ := Option.bind_eq_some_iff.mp hscan
  obtain ⟨rfl, rfl⟩ := Prod.mk.inj (Option.some.inj hscan)
  obtain ⟨k, hk, hfit, hclear, -, hmap⟩ := bitmapScan_first h.wf Nat.one_pos hbitmap (assert_eq_some.mp hne)
  rw [h.offset] at hk
  subst hk
  refine ⟨fun hused => ?_, fun p => ?_, ⟨?_, ?_, ?_, fun hp => absurd hp (by simp)⟩⟩
  · have hbit := hused.2
    rw [hclear (k + 256 - 256) (by omega) (by omega)] at hbit
    exact absurd hbit (by decide)
  · simp only [Allocated, hmap, bitOf_setRun]
    by_cases hp : k ≤ p - 256 ∧ p - 256 < k + 1
    · rw [if_pos hp]
      constructor
      · rintro ⟨hlo, -⟩
        exact Or.inr (by omega)
      · rintro (⟨hlo, -⟩ | rfl)
        · exact ⟨hlo, rfl⟩
        · exact ⟨by omega, rfl⟩
    · rw [if_neg hp]
      exact ⟨Or.inl, fun h => h.resolve_right fun heq => hp (by omega)⟩
  · rw [hmap]
    exact h.offset
  · rw [hmap]
    exact h.length
  · rw [hmap]
    exact h.size

theorem freeKpage_allocated (h : PageOwners s.kernelMap fun _ => none) (hfree : s.freeKpage page 1 = some t) :
    s.Allocated page ∧ (∀ p, t.Allocated p ↔ s.Allocated p ∧ p ≠ page) ∧ PageOwners t.kernelMap fun _ => none := by
  rw [freeKpage] at hfree
  obtain ⟨_, -, hfree⟩ := Option.bind_eq_some_iff.mp hfree
  obtain ⟨map, hreset, hfree⟩ := Option.bind_eq_some_iff.mp hfree
  obtain rfl := Option.some.inj hfree
  rw [Memory.resetPage] at hreset
  obtain ⟨used, htest, hreset⟩ := Option.bind_eq_some_iff.mp hreset
  obtain ⟨_, hused, hreset⟩ := Option.bind_eq_some_iff.mp hreset
  obtain ⟨map', hset, hreset⟩ := Option.bind_eq_some_iff.mp hreset
  obtain rfl := Option.some.inj hreset
  obtain ⟨hlo, -, hbit⟩ := bitmapTest_eq_some htest
  obtain ⟨-, -, rfl⟩ := bitmapSet_eq_some hset
  rw [assert_eq_some] at hused
  rw [h.offset] at hlo hbit
  refine ⟨⟨hlo, hbit ▸ hused⟩, fun p => ?_, ⟨h.offset, h.length, h.size, fun hp => absurd hp (by simp)⟩⟩
  simp only [Allocated, h.offset]
  by_cases hp : p - 256 = page - 256
  · rw [hp, bitOf_setBit_self]
    exact iff_of_false (fun h => absurd h.2 (by decide)) fun h => h.2 (by omega)
  · rw [bitOf_setBit_of_ne _ _ hp]
    exact ⟨fun h => ⟨h, fun heq => hp (by rw [heq])⟩, And.left⟩

theorem pushBlocks_kernelMap {desc arena : ℕ} : ∀ (left i : ℕ) {s t : Heap},
    pushBlocks desc arena left i s = some t → t.kernelMap = s.kernelMap := by
  intro left
  induction left with
  | zero =>
    intro i s t h
    rw [← Option.some.inj h]
  | succ left ih =>
    intro i s t h
    obtain ⟨block, -, h⟩ := Option.bind_eq_some_iff.mp h
    obtain ⟨u, hpush, h⟩ := Option.bind_eq_some_iff.mp h
    obtain ⟨_, -, hpush⟩ := Option.bind_eq_some_iff.mp hpush
    obtain rfl := Option.some.inj hpush
    obtain ⟨_, -, h⟩ := Option.bind_eq_some_iff.mp h
    exact (ih (i + 1) h).trans rfl

/-- The end of `kmalloc` leaves `kernel_map` alone. -/
theorem popBlock_kernelMap {desc : ℕ} (h : (s.listPop desc).bind (fun x =>
      (assert ((x.2.arenas (x.1 / Memory.pageSize)).magic = onixsMagic ∧
        (x.2.arenas (x.1 / Memory.pageSize)).large = 0)).bind fun _ =>
      pure (x.1, x.2.setArena (x.1 / Memory.pageSize) { x.2.arenas (x.1 / Memory.pageSize) with
        count := sub32 (x.2.arenas (x.1 / Memory.pageSize)).count 1 })) = some (ptr, t)) :
    t.kernelMap = s.kernelMap := by
  obtain ⟨⟨block, v⟩, hpop, h⟩ := Option.bind_eq_some_iff.mp h
  obtain ⟨_, -, h⟩ := Option.bind_eq_some_iff.mp h
  obtain ⟨-, rfl⟩ := Prod.mk.inj (Option.some.inj h)
  rw [listPop] at hpop
  split at hpop
  · exact absurd hpop (by simp)
  · obtain ⟨-, rfl⟩ := Prod.mk.inj (Option.some.inj hpop)
    rfl

/-- **A small block takes a page at most**, when there is no free block. -/
theorem kmalloc_allocated (h : PageOwners s.kernelMap fun _ => none) (hsize : ¬1024 < size)
    (hk : s.kmalloc size = some (ptr, t)) :
    (∀ p ∈ s.arenaPages size, ¬s.Allocated p) ∧ (∀ p, t.Allocated p ↔ s.Allocated p ∨ p ∈ s.arenaPages size) ∧
      PageOwners t.kernelMap fun _ => none := by
  rw [kmalloc, if_neg hsize] at hk
  simp only [Option.bind_eq_bind] at hk
  rw [arenaPages]
  by_cases hnil : s.freeList (descOf size) = []
  · rw [if_pos hnil] at hk ⊢
    obtain ⟨u, hgrow, hk⟩ := Option.bind_eq_some_iff.mp hk
    rw [growArena] at hgrow
    obtain ⟨⟨page, w⟩, halloc, hgrow⟩ := Option.bind_eq_some_iff.mp hgrow
    have hsame : t.kernelMap = w.kernelMap :=
      (popBlock_kernelMap hk).trans ((pushBlocks_kernelMap _ _ hgrow).trans rfl)
    obtain ⟨hfree, hall, howners⟩ := allocKpage_allocated h halloc
    rw [halloc]
    simp only [Option.toList_some, List.map_cons, List.map_nil, List.mem_singleton]
    refine ⟨fun p hp => hp ▸ hfree, fun p => ?_, hsame ▸ howners⟩
    rw [← hall p, Allocated, Allocated, hsame]
  · rw [if_neg hnil] at hk ⊢
    have hsame : t.kernelMap = s.kernelMap := popBlock_kernelMap hk
    refine ⟨fun p hp => absurd hp List.not_mem_nil, fun p => ?_, hsame ▸ h⟩
    rw [Allocated, Allocated, hsame]
    exact (or_iff_left List.not_mem_nil).symm

end Heap

/-! ### The pages of a run -/

/-- **What a run has taken**: from `s` to `t` the pages in `held` and those in `B`, and no others, and no block
has been given back. -/
structure PagesTaken (s t : PipeMachine) (B : List ℕ) : Prop where
  /-- The map. -/
  map : PageOwners t.heap.kernelMap fun _ => none
  /-- The pages. -/
  pages : ∀ p, t.heap.Allocated p ↔ s.heap.Allocated p ∨ p ∈ t.held ∨ p ∈ B
  /-- They were free before. -/
  fresh : ∀ p, p ∈ t.held ∨ p ∈ B → ¬s.heap.Allocated p
  /-- They are different pages. -/
  apart : ∀ p ∈ B, p ∉ t.held
  /-- Those of `B` are different from one another. -/
  nodup : B.Nodup
  /-- The blocks. -/
  blocks : ∀ b ∈ s.blocks, b ∈ t.blocks

namespace PagesTaken

variable {s t u : PipeMachine} {B B' : List ℕ} {page ptr size : ℕ}

theorem perm (h : PagesTaken s t B) (hperm : B.Perm B') : PagesTaken s t B' where
  map := h.map
  pages p := by rw [h.pages p, hperm.mem_iff]
  fresh p hp := h.fresh p (by rwa [hperm.mem_iff])
  apart p hp := h.apart p (hperm.mem_iff.mpr hp)
  nodup := hperm.nodup_iff.mp h.nodup
  blocks := h.blocks

/-- Only the heap and what has been taken matter. -/
theorem congr (h : PagesTaken s t B) (hheap : u.heap = t.heap) (hheld : u.held = t.held) (hblocks : u.blocks = t.blocks) :
    PagesTaken s u B := by
  obtain ⟨hmap, hpages, hfresh, hapart, hnodup, hb⟩ := h
  rw [← hheap] at hmap
  rw [← hheap, ← hheld] at hpages
  rw [← hheld] at hfresh hapart
  rw [← hblocks] at hb
  exact ⟨hmap, hpages, hfresh, hapart, hnodup, hb⟩

/-- **A page** that is taken. -/
theorem alloc (h : PagesTaken s t B) (halloc : t.allocKpage = some (page, u)) :
    PagesTaken s u (page :: B) ∧ u = { t with heap := u.heap } := by
  obtain ⟨⟨page', heap⟩, hpage, halloc⟩ := Option.bind_eq_some_iff.mp halloc
  obtain ⟨rfl, rfl⟩ := Prod.mk.inj (Option.some.inj halloc)
  obtain ⟨hfree, hall, hmap⟩ := Heap.allocKpage_allocated h.map hpage
  have hnew := mt (h.pages page').mpr hfree
  rw [not_or, not_or] at hnew
  refine ⟨⟨hmap, fun p => ?_, fun p hp => ?_, fun p hp => ?_, List.nodup_cons.mpr ⟨hnew.2.2, h.nodup⟩, h.blocks⟩, rfl⟩
  · change heap.Allocated p ↔ _
    rw [hall p, h.pages p, List.mem_cons]
    tauto
  · rcases hp with hp | hp
    · exact h.fresh p (Or.inl hp)
    · rcases List.mem_cons.mp hp with rfl | hp
      · exact hnew.1
      · exact h.fresh p (Or.inr hp)
  · rcases List.mem_cons.mp hp with rfl | hp
    · exact hnew.2.1
    · exact h.apart p hp

/-- A page in hand stays with a task. -/
theorem keep (h : PagesTaken s t (page :: B)) : PagesTaken s { t with held := page :: t.held } B where
  map := h.map
  pages p := by
    rw [h.pages p, List.mem_cons, List.mem_cons]
    tauto
  fresh p hp := h.fresh p (by
    rw [List.mem_cons] at hp ⊢
    tauto)
  apart p hp hheld := by
    rcases List.mem_cons.mp hheld with rfl | hheld
    · exact (List.nodup_cons.mp h.nodup).1 hp
    · exact h.apart p (List.mem_cons_of_mem _ hp) hheld
  nodup := (List.nodup_cons.mp h.nodup).2
  blocks := h.blocks

/-- A page of a new task. -/
theorem taskPage (h : PagesTaken s t B) (htask : t.taskPage = some u) :
    PagesTaken s u B ∧ u = { t with heap := u.heap, held := u.held } := by
  obtain ⟨⟨page, v⟩, halloc, htask⟩ := Option.bind_eq_some_iff.mp htask
  obtain rfl := Option.some.inj htask
  obtain ⟨hv, hsame⟩ := h.alloc halloc
  refine ⟨hv.keep, ?_⟩
  rw [hsame]

/-- **A small block**. -/
theorem kmalloc (h : PagesTaken s t B) (hsize : ¬1024 < size) (hk : t.kmalloc size = some (ptr, u)) :
    PagesTaken s u B ∧ u = { t with heap := u.heap, held := u.held, blocks := u.blocks } := by
  obtain ⟨⟨ptr', heap⟩, hblock, hk⟩ := Option.bind_eq_some_iff.mp hk
  obtain ⟨rfl, rfl⟩ := Prod.mk.inj (Option.some.inj hk)
  obtain ⟨hfree, hall, hmap⟩ := Heap.kmalloc_allocated h.map hsize hblock
  have hnew : ∀ p ∈ t.heap.arenaPages size, ¬s.heap.Allocated p ∧ p ∉ t.held ∧ p ∉ B := fun p hp => by
    have hp := mt (h.pages p).mpr (hfree p hp)
    rwa [not_or, not_or] at hp
  refine ⟨⟨hmap, fun p => ?_, fun p hp => ?_, fun p hp hheld => ?_, h.nodup, fun b hb => ?_⟩, rfl⟩
  · change heap.Allocated p ↔ _
    rw [hall p, h.pages p, List.mem_append]
    tauto
  · rw [List.mem_append] at hp
    rcases hp with (hp | hp) | hp
    · exact (hnew p hp).1
    · exact h.fresh p (Or.inl hp)
    · exact h.fresh p (Or.inr hp)
  · rcases List.mem_append.mp hheld with hp' | hp'
    · exact (hnew p hp').2.2 hp
    · exact h.apart p hp hp'
  · exact List.mem_cons_of_mem _ (h.blocks b hb)

/-- **A page that is given back.** -/
theorem free (h : PagesTaken s t (page :: B)) {heap : Heap} (hfree : t.heap.freeKpage page 1 = some heap) :
    PagesTaken s { t with heap := heap } B := by
  obtain ⟨hlast, hall, hmap⟩ := Heap.freeKpage_allocated h.map hfree
  obtain ⟨hout, hnodup⟩ := List.nodup_cons.mp h.nodup
  refine ⟨hmap, fun p => ?_, fun p hp => h.fresh p (hp.imp_right (List.mem_cons_of_mem _)),
    fun p hp => h.apart p (List.mem_cons_of_mem _ hp), hnodup, h.blocks⟩
  change heap.Allocated p ↔ _
  rw [hall p, h.pages p, List.mem_cons]
  constructor
  · rintro ⟨hp | hp | hp | hp, hne⟩
    · exact Or.inl hp
    · exact Or.inr (Or.inl hp)
    · exact absurd hp hne
    · exact Or.inr (Or.inr hp)
  · rintro (hp | hp | hp)
    · exact ⟨Or.inl hp, fun heq => h.fresh page (Or.inr (List.mem_cons_self ..)) (heq ▸ hp)⟩
    · exact ⟨Or.inr (Or.inl hp), fun heq => h.apart page (List.mem_cons_self ..) (heq ▸ hp)⟩
    · exact ⟨Or.inr (Or.inr (Or.inr hp)), fun heq => hout (heq ▸ hp)⟩

end PagesTaken

/-! ### The files on an inode -/

namespace OpenFiles

variable {s t : OpenFiles} {pid f f₀ f₁ i inode : ℕ} {fd : ℤ}

theorem fds_of_tasks (h : t.tasks = s.tasks) : t.fds f = s.fds f := by
  simp only [fds, fileList, h]

/-- Entry `f` has a descriptor, and inode `i`. -/
def OnInode (s : OpenFiles) (i f : ℕ) : Prop := 0 < s.fds f ∧ (s.fileTable f).inode = some i

instance (s : OpenFiles) (i f : ℕ) : Decidable (s.OnInode i f) := inferInstanceAs (Decidable (_ ∧ _))

/-- **The open files on an inode.** -/
def users (s : OpenFiles) (i : ℕ) : ℕ := ((Finset.range fileNr).filter (s.OnInode i)).card

theorem users_congr (h : ∀ f < fileNr, (t.OnInode i f ↔ s.OnInode i f)) : t.users i = s.users i :=
  congrArg Finset.card (Finset.filter_congr fun f hf => h f (Finset.mem_range.mp hf))

theorem users_eq_zero : s.users i = 0 ↔ ∀ f < fileNr, ¬s.OnInode i f := by
  rw [users, Finset.card_eq_zero, Finset.filter_eq_empty_iff]
  exact forall_congr' fun f => imp_congr_left Finset.mem_range

/-- Two files more. -/
theorem users_pair (hne : f₀ ≠ f₁) (h₀ : f₀ < fileNr) (h₁ : f₁ < fileNr)
    (h : ∀ f, t.OnInode i f ↔ f = f₀ ∨ f = f₁) : t.users i = 2 := by
  rw [users, ← Finset.card_pair hne]
  refine congrArg Finset.card (Finset.ext fun f => ?_)
  rw [Finset.mem_filter, Finset.mem_range, h f, Finset.mem_insert, Finset.mem_singleton]
  refine and_iff_right_of_imp ?_
  rintro (rfl | rfl)
  · exact h₀
  · exact h₁

/-- A file less. -/
theorem users_erase (hf : f < fileNr) (hon : s.OnInode i f) (h : ∀ g, t.OnInode i g ↔ s.OnInode i g ∧ g ≠ f) :
    t.users i + 1 = s.users i := by
  have hmem : f ∈ (Finset.range fileNr).filter (s.OnInode i) := Finset.mem_filter.mpr ⟨Finset.mem_range.mpr hf, hon⟩
  have herase : (Finset.range fileNr).filter (t.OnInode i) = ((Finset.range fileNr).filter (s.OnInode i)).erase f := by
    refine Finset.ext fun g => ?_
    rw [Finset.mem_filter, Finset.mem_erase, Finset.mem_filter, h g, ← and_assoc, and_comm]
  rw [users, herase, users]
  exact Finset.card_erase_add_one hmem

/-- **`sys_pipe`** puts two files on the inode. -/
theorem Counted.sysPipe_onInode {r : ℕ × ℕ} (h : Counted s [] []) (hpipe : s.sysPipe pid inode = some (r, t)) :
    ∃ f₀ f₁, f₀ ≠ f₁ ∧ f₀ < fileNr ∧ f₁ < fileNr ∧ s.fds f₀ = 0 ∧ s.fds f₁ = 0 ∧
      (∀ f, 0 < t.fds f ↔ 0 < s.fds f ∨ f = f₀ ∨ f = f₁) ∧
      ∀ f, (t.fileTable f).inode = if f = f₀ ∨ f = f₁ then some inode else (s.fileTable f).inode := by
  obtain ⟨p, hrun, hpipe⟩ := Option.bind_eq_some_iff.mp hpipe
  obtain ⟨fd₀, hfd₀, hpipe⟩ := Option.bind_eq_some_iff.mp hpipe
  obtain ⟨⟨f₀, u₀⟩, hget₀, hpipe⟩ := Option.bind_eq_some_iff.mp hpipe
  obtain ⟨fd₁, hfd₁, hpipe⟩ := Option.bind_eq_some_iff.mp hpipe
  obtain ⟨⟨f₁, u₁⟩, hget₁, hpipe⟩ := Option.bind_eq_some_iff.mp hpipe
  obtain ⟨-, heq⟩ := Prod.mk.inj (Option.some.inj hpipe)
  obtain ⟨hp, hdead⟩ := running_eq_some.mp hrun
  have hpid := h.pid_lt hp
  obtain ⟨hfd₀, hfree₀⟩ := Processes.taskGetFd_some hfd₀
  obtain ⟨hfd₁, hfree₁⟩ := Processes.taskGetFd_some hfd₁
  -- the first entry and its descriptor
  obtain ⟨hu₀, hlt₀, hzero₀, heq₀⟩ := h.getFile hget₀
  have htasks₀ : u₀.tasks = s.tasks := by rw [heq₀]; rfl
  have hp₀ : u₀.tasks pid = some p := by rw [htasks₀, hp]
  have hfds₀ : ∀ f, (u₀.setProcess pid (some { p with files := Function.update p.files fd₀ (some f₀) })).fds f
      = s.fds f + if f = f₀ then 1 else 0 := fun f => by
    rw [fds_setDescriptor hpid hp₀ hfd₀ hfree₀, fds_of_tasks htasks₀]
  have hset₀ : Counted (u₀.setProcess pid (some { p with files := Function.update p.files fd₀ (some f₀) })) [] [] :=
    hu₀.setDescriptor hp₀ hfd₀ hfree₀ hlt₀ fun g => by
      simp [count_singleton_ite]
  -- the second
  obtain ⟨hu₁, hlt₁, hzero₁, heq₁⟩ := hset₀.getFile hget₁
  have hp₁ : u₁.tasks pid = some { p with files := Function.update p.files fd₀ (some f₀) } := by
    rw [heq₁]
    exact setProcess_self u₀ pid _
  have hfds₁ := fds_setDescriptor (f := f₁) hpid hp₁ hfd₁ hfree₁
  have htasks₁ : u₁.tasks = (u₀.setProcess pid
      (some { p with files := Function.update p.files fd₀ (some f₀) })).tasks := by rw [heq₁]; rfl
  have hsame : ∀ f, u₁.fds f = s.fds f + if f = f₀ then 1 else 0 := fun f => (fds_of_tasks htasks₁).trans (hfds₀ f)
  rw [hfds₀] at hzero₁
  have hne : f₀ ≠ f₁ := fun heq => by
    rw [if_pos heq.symm] at hzero₁
    omega
  rw [if_neg (Ne.symm hne), Nat.add_zero] at hzero₁
  have htasks : t.tasks = (u₁.setProcess pid (some { p with
      files := Function.update (Function.update p.files fd₀ (some f₀)) fd₁ (some f₁) })).tasks := by
    rw [← heq]
    rfl
  refine ⟨f₀, f₁, hne, hlt₀, hlt₁, hzero₀, hzero₁, fun f => ?_, fun f => ?_⟩
  · rw [fds_of_tasks htasks, hfds₁, hsame]
    by_cases h₀ : f = f₀
    · rw [if_pos h₀]
      exact iff_of_true (by omega) (Or.inr (Or.inl h₀))
    · by_cases h₁ : f = f₁
      · rw [if_pos h₁]
        exact iff_of_true (by omega) (Or.inr (Or.inr h₁))
      · rw [if_neg h₀, if_neg h₁]
        simp [h₀, h₁]
  · have hinode₀ : (u₀.fileTable f).inode = (s.fileTable f).inode := by
      rw [heq₀]
      exact addFile_inode s f₀ f
    have hinode₁ : (u₁.fileTable f).inode = (s.fileTable f).inode := by
      rw [heq₁, ← hinode₀]
      exact addFile_inode (u₀.setProcess pid _) f₁ f
    rw [← heq]
    by_cases h₁ : f = f₁
    · rw [h₁, setFile_self, if_pos (Or.inr rfl)]
    · rw [setFile_of_ne _ _ h₁]
      by_cases h₀ : f = f₀
      · rw [h₀, setFile_self, if_pos (Or.inl rfl)]
      · rw [setFile_of_ne _ _ h₀, if_neg (not_or.mpr ⟨h₀, h₁⟩)]
        exact hinode₁

/-- **`sys_dup`** opens no file. -/
theorem Counted.dupfd_onInode {arg : ℕ} {r : ℤ} (h : Counted s [] []) (hdup : s.dupfd pid fd arg = some (r, t)) :
    (∀ f, 0 < t.fds f ↔ 0 < s.fds f) ∧ ∀ f, (t.fileTable f).inode = (s.fileTable f).inode := by
  obtain ⟨-, htook, hzero⟩ := h.dupfd hdup
  refine ⟨fun f => ⟨fun hpos => ?_, fun hpos => hpos.trans_le (htook.fds_le f)⟩, fun f => ?_⟩
  · by_contra hno
    have := hzero f (by omega)
    omega
  · obtain ⟨p, -, hdup⟩ := Option.bind_eq_some_iff.mp hdup
    split at hdup
    · obtain ⟨-, rfl⟩ := Prod.mk.inj (Option.some.inj hdup)
      rfl
    · obtain ⟨slot, -, hdup⟩ := Option.bind_eq_some_iff.mp hdup
      split at hdup
      · obtain ⟨-, rfl⟩ := Prod.mk.inj (Option.some.inj hdup)
        rfl
      · split at hdup
        · obtain ⟨-, rfl⟩ := Prod.mk.inj (Option.some.inj hdup)
          rfl
        · obtain ⟨-, rfl⟩ := Prod.mk.inj (Option.some.inj hdup)
          exact addFile_inode _ _ f

/-- **`task_fork`** opens no file. -/
theorem Counted.taskFork_onInode {child : ℕ} (h : Counted s [] []) (hfork : s.taskFork pid = some (child, t)) :
    (∀ f, 0 < t.fds f ↔ 0 < s.fds f) ∧ ∀ f, (t.fileTable f).inode = (s.fileTable f).inode := by
  obtain ⟨p, hrun, hfork⟩ := Option.bind_eq_some_iff.mp hfork
  obtain ⟨c, hfind, hfork⟩ := Option.bind_eq_some_iff.mp hfork
  obtain ⟨-, rfl⟩ := Prod.mk.inj (Option.some.inj hfork)
  have hp := (running_eq_some.mp hrun).1
  have hc : c < taskNumber := List.mem_range.mp (List.mem_of_find?_eq_some hfind)
  have hnone : s.tasks c = none := by simpa using List.find?_some hfind
  have hlist : s.fileList c = [] := by rw [fileList, hnone]; rfl
  refine ⟨fun f => ?_, fun f => addAll_inode _ _ f⟩
  have hfds : ∀ f, ((List.range taskFileNr).foldl (fun s fd => ((p.files fd).elim s s.addFile))
      (s.setProcess c (some { p with ppid := pid }))).fds f = s.fds f + p.fileList.count f := by
    intro f
    have hmove := fds_setProcess (s := s) hc (some { p with ppid := pid }) f
    rw [hlist, List.count_nil] at hmove
    rw [fds_of_tasks (addAll_same _ _).1]
    change _ + 0 = _ + p.fileList.count f at hmove
    omega
  rw [hfds]
  constructor
  · intro hpos
    by_cases hmem : f ∈ p.fileList
    · exact fds_pos (h.pid_lt hp) (by rwa [fileList_of_tasks hp])
    · rw [List.count_eq_zero_of_not_mem hmem] at hpos
      omega
  · intro hpos
    omega

/-- **`sys_close`** gives a descriptor back, and calls `iput` for the last one. -/
theorem Counted.sysClose_onInode (h : Counted s [] []) (hclose : s.sysClose pid fd = some t) :
    t = s ∨ ∃ p slot f, s.tasks pid = some p ∧ fdSlot fd = some slot ∧ p.files slot = some f ∧ f < fileNr ∧
      (∀ g, t.fds g + (if g = f then 1 else 0) = s.fds g) ∧
      (∀ g, (t.fileTable g).inode = (s.fileTable g).inode) ∧
      t.calls = s.calls ++ if s.fds f = 1 then [.iput f (s.fileTable f).inode] else [] := by
  obtain ⟨_, -, hclose⟩ := Option.bind_eq_some_iff.mp hclose
  obtain ⟨p, hp, hclose⟩ := Option.bind_eq_some_iff.mp hclose
  obtain ⟨slot, hslot, hclose⟩ := Option.bind_eq_some_iff.mp hclose
  cases hf : p.files slot with
  | none =>
    rw [hf] at hclose
    exact Or.inl (Option.some.inj hclose).symm
  | some f =>
    rw [hf] at hclose
    obtain ⟨_, -, hclose⟩ := Option.bind_eq_some_iff.mp hclose
    obtain ⟨u, hput, hclose⟩ := Option.bind_eq_some_iff.mp hclose
    obtain rfl := Option.some.inj hclose
    obtain ⟨-, htasks, hinode, hcalls⟩ := h.putFile hput
    have hmem := Processes.mem_fileList (Processes.fdSlot_some hslot) hf
    have hflt : f < fileNr := h.files_lt pid f (by rw [fileList_of_tasks hp]; exact hmem)
    have hcount := h.count f hflt
    simp only [List.count_nil, Nat.add_zero] at hcount
    refine Or.inr ⟨p, slot, f, hp, hslot, hf, hflt, fun g => ?_, hinode, ?_⟩
    · rw [fds_clearDescriptor (h.pid_lt hp) (by rw [htasks, hp]) (Processes.fdSlot_some hslot) hf]
      exact fds_of_tasks htasks
    · rw [← hcount]
      exact hcalls

end OpenFiles

/-! ### Runs -/

namespace PipeMachine

variable {s t u : PipeMachine} {pid i j : ℕ} {fd : ℤ} {files : OpenFiles}

/-- **What a run keeps.** A pipe's count is the number of open files on it; the other entries of the inode
table are in use where they were at the start. -/
structure Kept (s t : PipeMachine) : Prop where
  /-- The file table. -/
  counted : t.files.Counted [] []
  /-- The inodes of open files. -/
  rooted : ∀ j f, t.files.OnInode j f → t.Used j
  /-- The pipes are different. -/
  nodup : t.made.Nodup
  /-- Their entries were free. -/
  fresh : ∀ i ∈ t.made, ¬s.Used i
  /-- A pipe. -/
  pipe : ∀ i ∈ t.made, t.Used i ∧ (t.inodes i).pipi = true ∧ (t.inodes i).count = t.files.users i ∧
    0 < t.files.users i
  /-- The other entries. -/
  used : ∀ i, i ∉ t.made → (t.Used i ↔ s.Used i)
  /-- The pages. -/
  taken : PagesTaken s t (t.made.map fun i => (t.inodes i).buf)

theorem Start.kept (h : s.Start) : Kept s s := by
  obtain ⟨hcounted, hrooted, hmap, hheld, hmade⟩ := h
  have hnone : ∀ i, i ∉ s.made := fun i => by
    rw [hmade]
    exact List.not_mem_nil
  refine ⟨hcounted, fun j f hon => hrooted f j hon.1 hon.2, by rw [hmade]; exact List.nodup_nil,
    fun i hi => absurd hi (hnone i), fun i hi => absurd hi (hnone i), fun _ _ => Iff.rfl, ?_⟩
  rw [hmade, List.map_nil]
  refine ⟨hmap, fun p => ?_, fun p hp => ?_, fun p hp => absurd hp List.not_mem_nil, List.nodup_nil, fun _ => id⟩
  · simp [hheld]
  · simp [hheld] at hp

/-- The files change, but not which of them are open. -/
theorem Kept.setFiles (h : Kept s t) (hcounted : files.Counted [] [])
    (hon : ∀ j f, files.OnInode j f ↔ t.files.OnInode j f) : Kept s { t with files := files } where
  counted := hcounted
  rooted j f hf := h.rooted j f ((hon j f).mp hf)
  nodup := h.nodup
  fresh := h.fresh
  pipe i hi := by
    have husers : files.users i = t.files.users i := OpenFiles.users_congr fun f _ => hon i f
    change _ ∧ _ ∧ _ = files.users i ∧ 0 < files.users i
    rw [husers]
    exact h.pipe i hi
  used := h.used
  taken := h.taken.congr rfl rfl rfl

/-- Pages and blocks are taken. -/
theorem Kept.setHeap (h : Kept s t) (htaken : PagesTaken s u (t.made.map fun i => (t.inodes i).buf))
    (hsame : u = { t with heap := u.heap, held := u.held, blocks := u.blocks }) : Kept s u := by
  obtain ⟨files, inodes, heap, blocks, held, made⟩ := u
  obtain ⟨rfl, rfl, rfl⟩ : files = t.files ∧ inodes = t.inodes ∧ made = t.made := by
    simp only [mk.injEq] at hsame
    exact ⟨hsame.1, hsame.2.1, hsame.2.2.2.2.2⟩
  exact ⟨h.counted, h.rooted, h.nodup, h.fresh, h.pipe, h.used, htaken⟩

theorem Kept.sysDup (h : Kept s t) (hdup : t.sysDup pid fd = some u) : Kept s u := by
  obtain ⟨⟨r, files⟩, hfiles, heq⟩ := Option.bind_eq_some_iff.mp hdup
  obtain rfl := Option.some.inj heq
  obtain ⟨hfds, hinode⟩ := h.counted.dupfd_onInode hfiles
  exact h.setFiles (h.counted.dupfd hfiles).1 fun j f => by
    rw [OpenFiles.OnInode, OpenFiles.OnInode, hfds, hinode]

/-- **`task_fork`** takes pages and a block for the child. -/
theorem Kept.taskFork (h : Kept s t) (hfork : t.taskFork pid = some u) : Kept s u := by
  rw [PipeMachine.taskFork] at hfork
  obtain ⟨⟨child, files⟩, hfiles, hfork⟩ := Option.bind_eq_some_iff.mp hfork
  obtain ⟨a, ha, hfork⟩ := Option.bind_eq_some_iff.mp hfork
  obtain ⟨⟨ptr, b⟩, hb, hfork⟩ := Option.bind_eq_some_iff.mp hfork
  obtain ⟨c, hc, hfork⟩ := Option.bind_eq_some_iff.mp hfork
  obtain ⟨d, hd, hfork⟩ := Option.bind_eq_some_iff.mp hfork
  obtain ⟨e, he, hfork⟩ := Option.bind_eq_some_iff.mp hfork
  obtain rfl := Option.some.inj hfork
  obtain ⟨ha, hsa⟩ := h.taken.taskPage ha
  obtain ⟨hb, hsb⟩ := ha.kmalloc (by decide) hb
  obtain ⟨hc, hsc⟩ := hb.taskPage hc
  obtain ⟨hd, hsd⟩ := hc.taskPage hd
  obtain ⟨he, hse⟩ := hd.taskPage he
  have hkept : Kept s e := h.setHeap he (by rw [hse, hsd, hsc, hsb, hsa])
  have hsame : e.files = t.files := by rw [hse, hsd, hsc, hsb, hsa]
  obtain ⟨hfds, hinode⟩ := h.counted.taskFork_onInode hfiles
  exact hkept.setFiles (h.counted.taskFork hfiles).1 fun j f => by
    rw [hsame, OpenFiles.OnInode, OpenFiles.OnInode, hfds, hinode]

/-- **`get_pipe_inode`** takes a free entry, a page and a block. -/
theorem Kept.getPipeInode (h : Kept s t) (hget : t.getPipeInode = some (i, u)) :
    ¬t.Used i ∧ u.files = t.files ∧ u.made = i :: t.made ∧ ∃ node : PipeInode,
      u.inodes = Function.update t.inodes i node ∧ node.dev ≠ EOF ∧ node.pipi = true ∧ node.count = 2 ∧
      PagesTaken s u (node.buf :: t.made.map fun i => (t.inodes i).buf) := by
  rw [PipeMachine.getPipeInode] at hget
  obtain ⟨i', hfind, hget⟩ := Option.bind_eq_some_iff.mp hget
  obtain ⟨⟨fifo, a⟩, ha, hget⟩ := Option.bind_eq_some_iff.mp hget
  obtain ⟨⟨page, b⟩, hb, hget⟩ := Option.bind_eq_some_iff.mp hget
  obtain ⟨rfl, rfl⟩ := Prod.mk.inj (Option.some.inj hget)
  obtain ⟨ha, hsa⟩ := h.taken.kmalloc (by decide) ha
  obtain ⟨hb, hsb⟩ := ha.alloc hb
  have hfree : ¬t.Used i' := by simpa [Used] using List.find?_some hfind
  have hinodes : b.inodes = t.inodes := by rw [hsb, hsa]
  have hmade : b.made = t.made := by rw [hsb, hsa]
  refine ⟨hfree, by rw [hsb, hsa]; rfl, congrArg _ hmade, _, congrArg (Function.update · i' _) hinodes, ?_, rfl, rfl,
    hb.congr rfl rfl rfl⟩
  change 4294967294 ≠ EOF
  decide

/-- **`sys_pipe`** makes a pipe with two open files. -/
theorem Kept.sysPipe (h : Kept s t) (hpipe : t.sysPipe pid = some u) : Kept s u := by
  rw [PipeMachine.sysPipe] at hpipe
  obtain ⟨⟨i, v⟩, hget, hpipe⟩ := Option.bind_eq_some_iff.mp hpipe
  obtain ⟨⟨r, files⟩, hfiles, hpipe⟩ := Option.bind_eq_some_iff.mp hpipe
  obtain rfl := Option.some.inj hpipe
  obtain ⟨hfree, hsame, hmade, node, hinodes, hdev, hpipi, hcount, htaken⟩ := h.getPipeInode hget
  -- no open file is on the entry
  have hnew : i ∉ t.made := fun hi => hfree (h.pipe i hi).1
  have hnone : ∀ f, ¬t.files.OnInode i f := fun f hf => hfree (h.rooted i f hf)
  rw [hsame] at hfiles
  obtain ⟨hcounted, -⟩ := h.counted.sysPipe hfiles
  obtain ⟨f₀, f₁, hne, hlt₀, hlt₁, hzero₀, hzero₁, hfds, hinode⟩ := h.counted.sysPipe_onInode hfiles
  have hon : ∀ j f, files.OnInode j f ↔ t.files.OnInode j f ∨ j = i ∧ (f = f₀ ∨ f = f₁) := by
    intro j f
    rw [OpenFiles.OnInode, OpenFiles.OnInode, hfds, hinode]
    by_cases hf : f = f₀ ∨ f = f₁
    · have hzero : t.files.fds f = 0 := by
        rcases hf with rfl | rfl
        · exact hzero₀
        · exact hzero₁
      rw [if_pos hf, hzero]
      simp only [Nat.lt_irrefl, false_or, false_and, Option.some.injEq, hf, true_and, and_true]
      exact eq_comm
    · rw [if_neg hf]
      simp only [hf, or_false, and_false]
  have husers : files.users i = 2 := OpenFiles.users_pair hne hlt₀ hlt₁ fun f => by
    rw [hon]
    simp [hnone f]
  have hothers : ∀ j, j ≠ i → files.users j = t.files.users j := fun j hj =>
    OpenFiles.users_congr fun f _ => by
      rw [hon]
      simp [hj]
  have hself : v.inodes i = node := by rw [hinodes, Function.update_self]
  have hrest : ∀ j, j ≠ i → v.inodes j = t.inodes j := fun j hj => by
    rw [hinodes, Function.update_of_ne hj]
  have hused : ∀ j, v.Used j ↔ j = i ∨ t.Used j := by
    intro j
    by_cases hj : j = i
    · rw [hj, Used, hself]
      exact iff_of_true hdev (Or.inl rfl)
    · rw [Used, hrest j hj]
      exact (or_iff_right hj).symm
  refine ⟨hcounted, fun j f hf => (hused j).mpr ?_, ?_, fun j hj => ?_, fun j hj => ?_, fun j hj => ?_, ?_⟩
  · rcases (hon j f).mp hf with hf | ⟨rfl, -⟩
    · exact Or.inr (h.rooted j f hf)
    · exact Or.inl rfl
  · change v.made.Nodup
    rw [hmade]
    exact List.nodup_cons.mpr ⟨hnew, h.nodup⟩
  · change j ∈ v.made at hj
    rw [hmade] at hj
    rcases List.mem_cons.mp hj with rfl | hj
    · exact mt (h.used j hnew).mpr hfree
    · exact h.fresh j hj
  · change j ∈ v.made at hj
    rw [hmade] at hj
    change v.Used j ∧ (v.inodes j).pipi = true ∧ (v.inodes j).count = files.users j ∧ 0 < files.users j
    by_cases hji : j = i
    · rw [hji, hused, hself, husers]
      exact ⟨Or.inl rfl, hpipi, hcount, Nat.two_pos⟩
    · obtain ⟨hu, hp, hc, hpos⟩ := h.pipe j ((List.mem_cons.mp hj).resolve_left hji)
      rw [hused, hrest j hji, hothers j hji]
      exact ⟨Or.inr hu, hp, hc, hpos⟩
  · change j ∉ v.made at hj
    rw [hmade, List.mem_cons, not_or] at hj
    exact (hused j).trans ((or_iff_right hj.1).trans (h.used j hj.2))
  · have hbufs : v.made.map (fun j => (v.inodes j).buf) = node.buf :: t.made.map fun j => (t.inodes j).buf := by
      rw [hmade, List.map_cons, hself]
      refine congrArg _ (List.map_congr_left fun j hj => ?_)
      rw [hrest j fun heq => hnew (heq ▸ hj)]
    rw [← hbufs] at htaken
    exact htaken.congr rfl rfl rfl

@[simp] theorem setInode_self (t : PipeMachine) (i : ℕ) (inode : PipeInode) :
    (t.setInode i inode).inodes i = inode := by
  simp [setInode]

theorem setInode_of_ne (t : PipeMachine) (inode : PipeInode) (h : j ≠ i) :
    (t.setInode i inode).inodes j = t.inodes j := by
  simp [setInode, h]

/-- A file on pipe `i` has been closed: there is one less on it. -/
structure Closed (t : PipeMachine) (i : ℕ) (files : OpenFiles) : Prop where
  /-- The file table. -/
  counted : files.Counted [] []
  /-- No file has been opened. -/
  onInode : ∀ j f, files.OnInode j f → t.files.OnInode j f
  /-- The pipe. -/
  users : files.users i + 1 = t.files.users i
  /-- The other inodes. -/
  others : ∀ j, j ≠ i → files.users j = t.files.users j

theorem closed_of_onInode {f : ℕ} (hcounted : files.Counted [] []) (hf : f < fileNr) (hfile : t.files.OnInode i f)
    (hon : ∀ j g, files.OnInode j g ↔ t.files.OnInode j g ∧ g ≠ f) : t.Closed i files where
  counted := hcounted
  onInode j g hg := ((hon j g).mp hg).1
  users := OpenFiles.users_erase hf hfile (hon i)
  others j hj := OpenFiles.users_congr fun g _ => by
    rw [hon]
    refine and_iff_left_of_imp fun hg heq => hj ?_
    rw [heq] at hg
    exact Option.some.inj (hg.2.symm.trans hfile.2)

/-- A pipe with a file less. -/
theorem Kept.less (h : Kept s t) (hclosed : t.Closed i u.files) (hpos : 0 < u.files.users i)
    (hmade : u.made = t.made) (hcount : (u.inodes i).count = u.files.users i)
    (hself : (u.inodes i).dev = (t.inodes i).dev ∧ (u.inodes i).buf = (t.inodes i).buf ∧
      (u.inodes i).pipi = (t.inodes i).pipi)
    (hrest : ∀ j, j ≠ i → u.inodes j = t.inodes j)
    (htaken : PagesTaken s u (t.made.map fun j => (t.inodes j).buf)) : Kept s u := by
  have hsame : ∀ j, (u.inodes j).dev = (t.inodes j).dev ∧ (u.inodes j).buf = (t.inodes j).buf := fun j => by
    by_cases hji : j = i
    · rw [hji]
      exact ⟨hself.1, hself.2.1⟩
    · rw [hrest j hji]
      exact ⟨rfl, rfl⟩
  have hused : ∀ j, u.Used j ↔ t.Used j := fun j => by rw [Used, Used, (hsame j).1]
  refine ⟨hclosed.counted, fun j g hg => (hused j).mpr (h.rooted j g (hclosed.onInode j g hg)), hmade ▸ h.nodup,
    fun j hj => h.fresh j (hmade ▸ hj), fun j hj => ?_, fun j hj => (hused j).trans (h.used j (hmade ▸ hj)), ?_⟩
  · rw [hmade] at hj
    rw [hused]
    obtain ⟨hu, hp, hc, hjpos⟩ := h.pipe j hj
    by_cases hji : j = i
    · rw [hji] at hu hp ⊢
      exact ⟨hu, hself.2.2.trans hp, hcount, hpos⟩
    · rw [hrest j hji, hclosed.others j hji]
      exact ⟨hu, hp, hc, hjpos⟩
  · rw [hmade, List.map_congr_left fun j _ => (hsame j).2]
    exact htaken

/-- The last file has been closed, and the pipe is given back. -/
theorem Kept.last (h : Kept s t) (hi : i ∈ t.made) (hclosed : t.Closed i u.files) (hzero : u.files.users i = 0)
    (hmade : u.made = t.made.erase i) (hself : ¬u.Used i) (hrest : ∀ j, j ≠ i → u.inodes j = t.inodes j)
    (htaken : PagesTaken s u ((t.made.erase i).map fun j => (t.inodes j).buf)) : Kept s u := by
  have hnone : ∀ g, ¬u.files.OnInode i g := fun g hg => by
    have hlt : g < fileNr := by
      by_contra hge
      have hpos := hg.1
      rw [hclosed.counted.fds_eq_zero (Nat.not_lt.mp hge)] at hpos
      exact absurd hpos (Nat.lt_irrefl 0)
    exact OpenFiles.users_eq_zero.mp hzero g hlt hg
  have herase : ∀ j, j ∈ u.made ↔ j ≠ i ∧ j ∈ t.made := fun j => by
    rw [hmade]
    exact h.nodup.mem_erase_iff
  have hsame : ∀ j, j ≠ i → (u.Used j ↔ t.Used j) := fun j hj => by rw [Used, Used, hrest j hj]
  refine ⟨hclosed.counted, fun j g hg => ?_, hmade ▸ h.nodup.erase i, fun j hj => h.fresh j ((herase j).mp hj).2,
    fun j hj => ?_, fun j hj => ?_, ?_⟩
  · have hji : j ≠ i := fun heq => hnone g (heq ▸ hg)
    exact (hsame j hji).mpr (h.rooted j g (hclosed.onInode j g hg))
  · obtain ⟨hji, hj⟩ := (herase j).mp hj
    rw [hsame j hji, hrest j hji, hclosed.others j hji]
    exact h.pipe j hj
  · rw [herase, not_and] at hj
    by_cases hji : j = i
    · rw [hji]
      exact iff_of_false hself (h.fresh i hi)
    · rw [hsame j hji]
      exact h.used j (hj hji)
  · rw [← hmade] at htaken
    rw [List.map_congr_left fun j hj => by rw [hrest j ((herase j).mp hj).1]]
    exact htaken

/-- **`put_pipe_inode`** when a file on the pipe has been closed: with the last one the page and the entry are
given back. -/
theorem Kept.putPipeInode (h : Kept s t) (hi : i ∈ t.made) (hclosed : t.Closed i files)
    (hput : PipeMachine.putPipeInode { t with files := files } i = some u) : Kept s u := by
  obtain ⟨-, -, hcount, hpos⟩ := h.pipe i hi
  have hle : t.files.users i ≤ fileNr := (Finset.card_filter_le _ _).trans_eq (Finset.card_range _)
  have hdown := hclosed.users
  have hsub : sub32 (t.inodes i).count 1 = files.users i := by
    rw [hcount, sub32_of_le (hle.trans_lt (by decide)) hpos]
    omega
  rw [PipeMachine.putPipeInode] at hput
  simp only [setInode_self, hsub] at hput
  by_cases hzero : files.users i = 0
  · -- the last file
    rw [if_neg (not_not.mpr hzero)] at hput
    obtain ⟨_, -, hput⟩ := Option.bind_eq_some_iff.mp hput
    obtain ⟨_, -, hput⟩ := Option.bind_eq_some_iff.mp hput
    obtain ⟨heap, hfree, hput⟩ := Option.bind_eq_some_iff.mp hput
    obtain ⟨v, hv, hput⟩ := Option.bind_eq_some_iff.mp hput
    have hu := Option.some.inj hput
    obtain ⟨_, -, hv⟩ := Option.bind_eq_some_iff.mp hv
    obtain ⟨_, -, hv⟩ := Option.bind_eq_some_iff.mp hv
    obtain rfl := Option.some.inj hv
    have htaken := h.taken.perm ((List.perm_cons_erase hi).map fun j => (t.inodes j).buf)
    rw [List.map_cons] at htaken
    have hfiles : u.files = files := by
      rw [← hu]
      rfl
    refine h.last hi (hfiles ▸ hclosed) (hfiles ▸ hzero) (by rw [← hu]; rfl) ?_ (fun j hj => ?_)
      ((htaken.free hfree).congr (by rw [← hu]; rfl) (by rw [← hu]; rfl) (by rw [← hu]; rfl))
    · rw [← hu, Used, setInode_self]
      exact fun hne => hne rfl
    · rw [← hu]
      simp [setInode_of_ne _ _ hj]
  · rw [if_pos hzero] at hput
    have hu := Option.some.inj hput
    have hfiles : u.files = files := by
      rw [← hu]
      rfl
    refine h.less (hfiles ▸ hclosed) (hfiles ▸ Nat.pos_of_ne_zero hzero) (by rw [← hu]; rfl) ?_ ?_ (fun j hj => ?_)
      (h.taken.congr (by rw [← hu]; rfl) (by rw [← hu]; rfl) (by rw [← hu]; rfl))
    · rw [hfiles, ← hu, setInode_self]
    · rw [← hu, setInode_self]
      exact ⟨rfl, rfl, rfl⟩
    · rw [← hu, setInode_of_ne _ _ hj]

/-- **`sys_close`** of a descriptor of a pipe of the run. -/
theorem Kept.sysClose (h : Kept s t) (hlegal : t.Legal (.close pid fd)) (hclose : t.sysClose pid fd = some u) :
    Kept s u := by
  rw [PipeMachine.sysClose] at hclose
  obtain ⟨_, -, hclose⟩ := Option.bind_eq_some_iff.mp hclose
  obtain ⟨files, hfiles, hputs⟩ := Option.bind_eq_some_iff.mp hclose
  have h₀ : OpenFiles.Counted { t.files with calls := [] } [] [] :=
    ⟨h.counted.count, h.counted.files_lt, h.counted.tasks_lt⟩
  have hcounted := (h₀.sysClose hfiles).1
  rcases h₀.sysClose_onInode hfiles with rfl | ⟨p, slot, f, hp, hslot, hopen, hf, hfds, hinode, hcalls⟩
  · obtain rfl := Option.some.inj hputs
    exact h.setFiles hcounted fun _ _ => Iff.rfl
  obtain ⟨i, hi, hfile⟩ := hlegal p slot f hp hslot hopen
  have hold : ∀ g, OpenFiles.fds { t.files with calls := [] } g = t.files.fds g := fun g => OpenFiles.fds_of_tasks rfl
  have hfds : ∀ g, files.fds g + (if g = f then 1 else 0) = t.files.fds g := fun g => (hfds g).trans (hold g)
  have hself := hfds f
  rw [if_pos rfl] at hself
  rw [hold, List.nil_append] at hcalls
  by_cases hlast : t.files.fds f = 1
  · rw [if_pos hlast, hfile] at hcalls
    rw [hcalls, iputs, PipeMachine.iput] at hputs
    simp only [(h.pipe i hi).2.1, if_true] at hputs
    obtain ⟨v, hput, hputs⟩ := Option.bind_eq_some_iff.mp hputs
    obtain rfl := Option.some.inj hputs
    refine h.putPipeInode hi (closed_of_onInode hcounted hf ⟨by omega, hfile⟩ fun j g => ?_) hput
    rw [OpenFiles.OnInode, OpenFiles.OnInode, hinode]
    by_cases hg : g = f
    · rw [hg]
      exact iff_of_false (fun h => by have := h.1; omega) fun h => h.2 rfl
    · have hsame := hfds g
      rw [if_neg hg, Nat.add_zero] at hsame
      rw [hsame]
      exact (and_iff_left hg).symm
  · rw [if_neg hlast] at hcalls
    rw [hcalls] at hputs
    obtain rfl := Option.some.inj hputs
    refine h.setFiles hcounted fun j g => ?_
    rw [OpenFiles.OnInode, OpenFiles.OnInode, hinode]
    refine and_congr_left fun _ => ?_
    have hsame := hfds g
    by_cases hg : g = f
    · rw [hg]
      omega
    · rw [if_neg hg, Nat.add_zero] at hsame
      rw [hsame]

/-- **Every call keeps it.** -/
theorem Kept.step {op : PipeFileOp} {r : Unit} (h : Kept s t) (hlegal : t.Legal op) (hstep : t.step op = some (r, u)) :
    Kept s u := by
  cases op with
  | pipe pid =>
    obtain ⟨v, hcall, heq⟩ := Option.map_eq_some_iff.mp hstep
    obtain ⟨-, rfl⟩ := Prod.mk.inj heq
    exact h.sysPipe hcall
  | dup pid fd =>
    obtain ⟨v, hcall, heq⟩ := Option.map_eq_some_iff.mp hstep
    obtain ⟨-, rfl⟩ := Prod.mk.inj heq
    exact h.sysDup hcall
  | fork pid =>
    obtain ⟨v, hcall, heq⟩ := Option.map_eq_some_iff.mp hstep
    obtain ⟨-, rfl⟩ := Prod.mk.inj heq
    exact h.taskFork hcall
  | close pid fd =>
    obtain ⟨v, hcall, heq⟩ := Option.map_eq_some_iff.mp hstep
    obtain ⟨-, rfl⟩ := Prod.mk.inj heq
    exact h.sysClose hlegal hcall

/-- When all descriptors are closed, no pipe of the run is left. -/
theorem Kept.made_eq_nil (h : Kept s t) (hclosed : t.AllClosed) : t.made = [] := by
  refine List.eq_nil_iff_forall_not_mem.mpr fun i hi => ?_
  have hzero : t.files.users i = 0 := OpenFiles.users_eq_zero.mpr fun f _ hon => by
    have hpos := hon.1
    rw [hclosed f i hi hon.2] at hpos
    exact absurd hpos (Nat.lt_irrefl 0)
  have hpos := (h.pipe i hi).2.2.2
  omega

end PipeMachine

instance PipeMachine.Legal.decidable (s : PipeMachine) : ∀ op, Decidable (s.Legal op)
  | .close pid fd => decidable_of_iff (((s.files.tasks pid).all fun p => (fdSlot fd).all fun slot =>
      (p.files slot).all fun f => s.made.any fun i => (s.files.fileTable f).inode = some i) = true) <| by
        simp only [Option.all_eq_true, List.any_eq_true, decide_eq_true_eq]
        exact ⟨fun h p slot f hp hslot hf => h p hp slot hslot f hf, fun h p hp slot hslot f hf => h p slot f hp hslot hf⟩
  | .pipe _ | .dup _ _ | .fork _ => inferInstanceAs (Decidable True)

/-- The tasks of `task_init`, with a page of small blocks of which two are free. -/
def pipeBoot : PipeMachine where
  files := bootFiles id id
  inodes i := { dev := if i < 3 then 1 else EOF, count := 3, buf := 0, desc := 0, pipi := false, rxwaiter := none,
                txwaiter := none }
  heap :=
    { kernelMap := markedMap 1
      arenas := fun _ => { desc := some 0, count := 2, large := 0, magic := onixsMagic }
      freeList := fun i => if i = 0 then [1048592, 1048608] else [] }
  blocks := (List.range 253).map fun k => 1048624 + 16 * k
  held := []
  made := []

/-- A task makes a pipe and forks, and both tasks close their ends. -/
def pipeOps : List PipeFileOp := [.pipe 1, .fork 1, .close 1 3, .close 1 4, .close 3 3, .close 3 4]

theorem pipeBoot_start : pipeBoot.Start where
  counted := OpenFiles.boot_counted id id
  rooted f j hpos hinode := by
    change (if f < 3 then some (id f) else none) = some j at hinode
    split at hinode
    · next hlt =>
      obtain rfl := Option.some.inj hinode
      change (if f < 3 then 1 else EOF) ≠ EOF
      rw [if_pos hlt]
      decide
    · exact absurd hinode (by simp)
  map := ⟨rfl, rfl, le_refl 480, fun hp => absurd hp (by simp)⟩
  held := rfl
  made := rfl

/-- What the run leaves: a block for the pipe and one for the child, and four pages of the child. -/
theorem pipeOps_exec : ∃ t, Run.exec PipeMachine.step pipeBoot pipeOps = some t ∧ t.made = [] ∧
    t.heap.Allocated 258 ∧ 1048592 ∈ t.blocks := by
  have hexec : (Run.exec PipeMachine.step pipeBoot pipeOps).any (fun t => decide (t.made = [] ∧
      (256 ≤ 258 ∧ bitOf t.heap.kernelMap.bits (258 - 256) = true) ∧ 1048592 ∈ t.blocks)) = true := by
    decide +kernel
  obtain ⟨t, ht, hfacts⟩ := (Option.any_eq_true _ _).mp hexec
  obtain ⟨hmade, hpage, hblock⟩ := of_decide_eq_true hfacts
  exact ⟨t, ht, hmade, hpage, hblock⟩

end Onixs
