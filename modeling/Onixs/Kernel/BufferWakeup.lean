import Onixs.Kernel.BufferTasks

/-!
# Tasks that wait for a buffer

What becomes of the tasks that `get_free_buffer` blocks. A `brelse` that takes a counter to
zero while a task waits fails in `task_unblock`, since `list_popback` has unlinked the node
of the task already. So a run keeps what is expected of it – no assertion fails, a task is
made ready by each such `brelse`, a block is hashed once – exactly when there is no such
`brelse` (`Onixs.cacheTasks_wakeup`).
-/

namespace Onixs

namespace CacheTasks

variable {D : Type} {s t : CacheTasks D} {task bf dev block : ℕ}

/-- **After `buffer_init`**, with all tasks in no function. -/
structure Start (s : CacheTasks D) : Prop where
  /-- No buffer has been set up. -/
  made : s.cache.made = 0
  /-- The hash table is empty. -/
  hashTable : ∀ idx, s.cache.hashTable idx = []
  /-- The free list is empty. -/
  freeList : s.cache.freeList = []
  /-- Nobody waits. -/
  waitList : s.cache.waitList = []
  /-- Nobody holds anything. -/
  held : s.held = []
  /-- All tasks are in no function. -/
  idle : ∀ task, s.phase task = .idle

theorem Start.ordered (h : s.Start) : s.Ordered := by
  have hnone : ∀ {bf}, ¬bf < s.cache.made := fun {bf} hlt => by
    rw [h.made] at hlt
    exact Nat.not_lt_zero _ hlt
  have hrefs : ∀ bf, s.refs bf = 0 := fun bf => by rw [refs, h.held, List.map_nil, List.count_nil]
  have hheld : ∀ {p}, p ∉ s.held := fun {p} hp => by
    rw [h.held] at hp
    exact List.not_mem_nil hp
  refine ⟨⟨by rw [h.made]; exact Nat.zero_le _, fun {bf idx} => ?_, fun idx => ?_,
    fun {bf bf'} hlt => absurd hlt hnone, fun {bf} => ?_, ?_, fun {bf} hlt => absurd hlt hnone,
    fun {bf} _ => hrefs bf, fun {bf} hlt => absurd hlt hnone⟩, fun bf => ?_, fun {task} => ?_, ?_,
    fun {task bf} hmem => absurd hmem hheld, fun {task bf} hphase => ?_, fun {task bf k} hphase => ?_,
    fun {task bf k release} hphase => ?_, fun {task bf} hlt => absurd hlt hnone⟩
  · rw [h.hashTable]
    exact iff_of_false List.not_mem_nil fun hc => hnone hc.1
  · rw [h.hashTable]
    exact List.nodup_nil
  · rw [h.freeList]
    exact iff_of_false List.not_mem_nil fun hc => hnone hc.1
  · rw [h.freeList]
    exact List.nodup_nil
  · rw [hrefs]
    exact Nat.zero_le _
  · rw [h.waitList, h.idle]
    simp
  · rw [h.waitList]
    exact List.nodup_nil
  · exact absurd ((h.idle task).symm.trans hphase) (by simp)
  · exact absurd ((h.idle task).symm.trans hphase) (by simp)
  · exact absurd ((h.idle task).symm.trans hphase) (by simp)

/-- `bread` behind `getblk`, from the state before. -/
theorem Ordered.enter (h : s.Ordered) {u : Cache D} (hidle : s.phase task = .idle)
    (hgot : s.cache.Got s.refs dev block bf u) (hcount : s.refs bf < 2147483648) :
    (s.enter task dev block (some (bf, u))).Ordered := by
  have hlock := (h.got hidle hgot hcount).acquire (goto_phase_self _)
  rwa [acquire_goto] at hlock

/-- Where the counters have room, what `getblk` finds has room for one reference more. -/
theorem refs_lt {u : Cache D} (hcounted : s.Counted (.bread task dev block))
    (hgot : s.cache.Got s.refs dev block bf u) : s.refs bf < 2147483648 := by
  rcases hgot.origin with ⟨hlt, hself⟩ | ⟨hzero, -⟩
  · have hkey := hgot.key
    rw [hself] at hkey
    exact hcounted bf hlt hkey.1 hkey.2
  · rw [hzero]
    decide

/-- `bread` succeeds, or waits. -/
theorem Ordered.bread (h : s.Ordered) (hidle : s.phase task = .idle)
    (hcounted : s.Counted (.bread task dev block)) :
    ∃ r, s.cache.getblk dev block = some r ∧ (s.enter task dev block r).Ordered := by
  rcases h.pool.getblk dev block with ⟨hget, -⟩ | ⟨bf, u, hget, hgot⟩
  · exact ⟨none, hget, h.wait hidle⟩
  · exact ⟨some (bf, u), hget, h.enter hidle hgot (refs_lt hcounted hgot)⟩

/-- A task that goes on was not in `get_free_buffer`. -/
theorem Ordered.not_waiting (h : s.Ordered) (hphase : s.phase task = .wait dev block) :
    ¬s.Ready task (s.phase task) := by
  rw [hphase]
  exact not_not.mpr (h.mem_wait.mpr ⟨dev, block, hphase⟩)

/-- **Each step** keeps the invariant, unless it gives up a buffer a task waits for. -/
theorem Ordered.step {op : TaskOp D} (h : s.Ordered) (hlegal : s.Legal op) (hcounted : s.Counted op)
    (hneed : s.Unneeded op) : ∃ t, s.step op = some ((), t) ∧ t.Ordered := by
  cases op with
  | bread task dev block =>
    obtain ⟨r, hget, ht⟩ := h.bread hlegal hcounted
    exact ⟨_, by rw [CacheTasks.step, hget]; rfl, ht⟩
  | store task bf i d => exact ⟨_, rfl, h.store hlegal.1 hlegal.2.1⟩
  | bwrite task bf =>
    refine ⟨_, rfl, ?_⟩
    split
    · exact h.startWrite false hlegal.1 hlegal.2
    · exact h
  | brelse task bf =>
    cases hdirty : (s.cache.buffers bf).dirty with
    | true => exact ⟨_, by rw [CacheTasks.step, hdirty]; rfl, h.startWrite true hlegal.1 hlegal.2⟩
    | false =>
      obtain ⟨t, hput, ht, -⟩ := h.put hlegal.1 hlegal.2 hdirty fun hone =>
        hneed ⟨bf, rfl, hdirty, hone⟩
      exact ⟨t, by rw [CacheTasks.step, hdirty, hput]; rfl, ht⟩
  | resume task =>
    have hready : s.Ready task (s.phase task) := hlegal
    suffices hgo : ∃ t, s.resume task = some t ∧ t.Ordered by
      obtain ⟨t, hresume, ht⟩ := hgo
      exact ⟨t, by rw [CacheTasks.step, hresume]; rfl, ht⟩
    rw [CacheTasks.resume]
    cases hphase : s.phase task with
    | idle =>
      rw [hphase] at hready
      exact hready.elim
    | wait dev block => exact absurd hready (h.not_waiting hphase)
    | lock bf => exact ⟨_, rfl, h.acquire hphase⟩
    | read bf k =>
      by_cases hk : k + 1 < 2
      · exact ⟨_, if_pos hk, h.readSector hphase hk⟩
      · exact ⟨_, if_neg hk, h.endRead hphase⟩
    | write bf k release =>
      by_cases hk : k < 2
      · exact ⟨_, if_pos hk, h.writeSector hphase hk⟩
      have hend := h.endWrite hphase
      cases release with
      | false => exact ⟨_, if_neg hk, hend⟩
      | true =>
        have hmem := (h.writing hphase).1
        have hdirty : ((s.cache.requestDone bf).buffers bf).dirty = false :=
          congrArg Buffer.dirty (Cache.setBuffer_self _ _ _)
        obtain ⟨t, hput, ht, -⟩ := hend.put (goto_phase_self _) hmem hdirty fun hone =>
          hneed ⟨bf, k, hphase, Nat.le_of_not_lt hk, hone⟩
        rw [put_goto] at hput
        exact ⟨t, (if_neg hk).trans hput, ht⟩

/-- **A step that gives up a buffer a task waits for fails.** -/
theorem Ordered.step_needed {op : TaskOp D} (h : s.Ordered) (hlegal : s.Legal op)
    (hneed : ¬s.Unneeded op) : s.step op = none := by
  obtain ⟨⟨bf, hdrops⟩, hwait⟩ : (∃ bf, s.Drops op bf) ∧ s.cache.waitList ≠ [] :=
    Classical.not_imp.mp hneed
  cases op with
  | bread task dev block => exact hdrops.elim
  | store task bf i d => exact hdrops.elim
  | bwrite task bf => exact hdrops.elim
  | brelse task b =>
    obtain ⟨rfl, hdirty, hone⟩ := hdrops
    have hnone := h.pool.putBuffer_waiting (h.lt_of_held hlegal.2) hone hwait h.wait_nodup
    rw [CacheTasks.step, hdirty, CacheTasks.put, hnone]
    rfl
  | resume task =>
    obtain ⟨k, hphase, hk, hone⟩ := hdrops
    have hend := h.endWrite hphase
    have hnone := hend.pool.putBuffer_waiting (hend.lt_of_held (h.writing hphase).1) hone hwait
      hend.wait_nodup
    rw [CacheTasks.step, CacheTasks.resume, hphase]
    simp only [Nat.not_lt.mpr hk, if_false, if_true, CacheTasks.put]
    rw [goto_cache] at hnone
    rw [hnone]
    rfl

/-- A step that succeeds keeps the invariant. -/
theorem Ordered.of_step {op : TaskOp D} {r : Unit} (h : s.Ordered) (hlegal : s.Legal op)
    (hcounted : s.Counted op) (hstep : s.step op = some (r, t)) : t.Ordered := by
  by_cases hneed : s.Unneeded op
  · obtain ⟨t', hstep', ht⟩ := h.step hlegal hcounted hneed
    obtain ⟨-, rfl⟩ := Prod.mk.inj (Option.some.inj (hstep.symm.trans hstep'))
    exact ht
  · rw [h.step_needed hlegal hneed] at hstep
    exact absurd hstep (by simp)

/-- **What is expected of a step**: a block is hashed once, and a `brelse` that takes a counter to
zero while tasks wait makes one of them ready. -/
def Post (s : CacheTasks D) (op : TaskOp D) (_ : Unit) (t : CacheTasks D) : Prop :=
  (∀ bf bf' idx idx', bf ∈ t.cache.hashTable idx → bf' ∈ t.cache.hashTable idx' →
    (t.cache.buffers bf).dev = (t.cache.buffers bf').dev →
    (t.cache.buffers bf).block = (t.cache.buffers bf').block → bf = bf') ∧
  ((∃ bf, s.Drops op bf) → s.cache.waitList ≠ [] →
    ∃ task ∈ s.cache.waitList, t.cache.waitList = s.cache.waitList.erase task)

end CacheTasks

/-- **The wake-up.** In a run of any number of tasks every step succeeds, keeps the blocks hashed
once and wakes one task up for each buffer it gives up while tasks wait, if and only if no buffer
is given up while a task waits. -/
theorem cacheTasks_wakeup {D : Type} {s : CacheTasks D} (h : s.Start) {ops : List (TaskOp D)}
    (hlegal : Run.Along CacheTasks.step CacheTasks.Legal s ops)
    (hcounted : Run.Along CacheTasks.step CacheTasks.Counted s ops) :
    Run.Meets CacheTasks.step CacheTasks.Post s ops ↔
      Run.Along CacheTasks.step CacheTasks.Unneeded s ops := by
  refine Run.meets_iff_along CacheTasks.Ordered (fun s op hs hc => ⟨?_, fun hneed => ?_⟩)
    (fun s op r t hs hc hstep _ => hs.of_step hc.1 hc.2 hstep) ops s h.ordered (hlegal.and hcounted)
  · rintro ⟨r, t, hstep, -⟩
    by_contra hneed
    rw [hs.step_needed hc.1 hneed] at hstep
    exact absurd hstep (by simp)
  · obtain ⟨t, hstep, ht⟩ := hs.step hc.1 hc.2 hneed
    refine ⟨(), t, hstep, fun bf bf' idx idx' hbf hbf' hdev hblock => ?_, fun hdrops hwait => ?_⟩
    · exact ht.pool.uniq (ht.pool.mem_chain.mp hbf).1 (ht.pool.mem_chain.mp hbf').1 hdev hblock
    · exact absurd (hneed hdrops) hwait

/-- Room for one buffer, no task in any function, and devices full of zeros. -/
def bootTasks : CacheTasks ℕ where
  cache :=
    { buffers := fun _ => ⟨0, 0, 0, fun _ => 0, none, false, false⟩
      made := 0
      cap := 1
      hashTable := fun _ => []
      freeList := []
      waitList := []
      disk := fun _ _ => 0 }
  phase := fun _ => .idle
  held := []

theorem bootTasks_start : bootTasks.Start := ⟨rfl, fun _ => rfl, rfl, rfl, rfl, fun _ => rfl⟩

/-- Task 0 reads block 0. -/
def readRun : List (TaskOp ℕ) := [.bread 0 0 0, .resume 0, .resume 0]

/-- A buffer is given up before another task needs it. -/
theorem cacheTasks_wakeup_read :
    Run.Meets CacheTasks.step CacheTasks.Post bootTasks (readRun ++ [.brelse 0 0, .bread 1 0 1]) ↔
      Run.Along CacheTasks.step CacheTasks.Unneeded bootTasks
        (readRun ++ [.brelse 0 0, .bread 1 0 1]) :=
  cacheTasks_wakeup bootTasks_start (by decide +kernel) (by decide +kernel)

/-- **A wake-up that fails**: task 1 waits for the only buffer, which task 0 gives up. -/
theorem cacheTasks_stuck : bootTasks.Start ∧
    Run.Along CacheTasks.step CacheTasks.Legal bootTasks (readRun ++ [.bread 1 0 1] ++ [.brelse 0 0]) ∧
    ¬Run.Meets CacheTasks.step CacheTasks.Post bootTasks (readRun ++ [.bread 1 0 1] ++ [.brelse 0 0]) := by
  refine ⟨bootTasks_start, by decide +kernel, fun hmeets => ?_⟩
  obtain ⟨t, r, t', hexec, hstep, -⟩ := hmeets.last
  have hnone : (Run.exec CacheTasks.step bootTasks (readRun ++ [.bread 1 0 1])).bind (fun t =>
      (t.step (.brelse 0 0)).map fun _ => ()) = none := by decide +kernel
  rw [hexec, Option.bind_some, hstep] at hnone
  exact absurd hnone (by simp)

end Onixs
