import Onixs.Common.Run
import Onixs.Lib.Types

/-!
# Locks

`kernel/mutex.c`, with any number of tasks. `mutex_lock` and `mutex_unlock` run with interrupts
disabled, so that others run in them only where a task is blocked or yields; anywhere else a
task may be preempted, and a step is one statement of `lock_acquire` or `lock_release`. A task
is at a place in these functions, `LockPhase`.

`LockTasks.depth` is kept for the statements: how often a task has acquired the lock, and not
released it yet.
-/

namespace Onixs

/-- Where a task is. -/
inductive LockPhase where
  /-- In neither function. -/
  | out
  /-- In `lock_acquire`, at the test of the holder. -/
  | acquire
  /-- In `lock_acquire`, at `lock->repeat++`. -/
  | again
  /-- In `mutex_lock`, at the loop. -/
  | lock
  /-- In `mutex_lock`, behind `task_block`, `TASK_BLOCKED`. -/
  | blocked
  /-- In `mutex_lock`, behind `task_block`, `TASK_READY`. -/
  | ready
  /-- In `lock_acquire`, behind `mutex_lock`. -/
  | hold
  /-- In `lock_acquire`, at the assertion. -/
  | check
  /-- In `lock_acquire`, at `lock->repeat = 1`. -/
  | first
  /-- In `lock_release`, at the first assertion. -/
  | release
  /-- In `lock_release`, at the test of `lock->repeat`. -/
  | test
  /-- In `lock_release`, at `lock->repeat--`. -/
  | less
  /-- In `lock_release`, at the second assertion. -/
  | last
  /-- In `lock_release`, at `lock->holder = NULL`. -/
  | drop
  /-- In `lock_release`, at `lock->repeat = 0`. -/
  | reset
  /-- In `lock_release`, at `mutex_unlock`. -/
  | unlock
  /-- In `mutex_unlock`, behind `task_yield`. -/
  | yielded
deriving DecidableEq

/-- A lock and the tasks. -/
structure LockTasks where
  /-- `lock->holder`. -/
  holder : Option ℕ
  /-- `lock->repeat`. -/
  repeats : ℕ
  /-- `lock->mutex.value`. -/
  value : Bool
  /-- `lock->mutex.waiters`. -/
  waiters : List ℕ
  /-- Where each task is. -/
  phase : ℕ → LockPhase
  /-- How deep each task is. -/
  depth : ℕ → ℕ

/-- What a task does. -/
inductive LockOp where
  /-- It calls `lock_acquire`. -/
  | acquire (task : ℕ)
  /-- It calls `lock_release`. -/
  | release (task : ℕ)
  /-- It goes on. -/
  | go (task : ℕ)

namespace LockTasks

variable (s : LockTasks)

/-- A task is somewhere else. -/
def goto (task : ℕ) (phase : LockPhase) : LockTasks :=
  { s with phase := fun t => if t = task then phase else s.phase t }

/-- A task is so deep. -/
def setDepth (task depth : ℕ) : LockTasks :=
  { s with depth := fun t => if t = task then depth else s.depth t }

/-- The loop of `mutex_lock`, up to `task_block` or to the end of the function. -/
def mutexLock (task : ℕ) : LockTasks :=
  if s.value = true then
    { s with waiters := task :: s.waiters }.goto task .blocked
  else
    { s with value := true }.goto task .hold

/-- `task_unblock`, of a task in the list. -/
def unblock (task : ℕ) : Option LockTasks := do
  assert (task ∈ s.waiters ∧ s.phase task = .blocked)
  return { s with waiters := s.waiters.erase task }.goto task .ready

/-- `mutex_unlock`, up to `task_yield` or to its end. -/
def mutexUnlock (task : ℕ) : Option LockTasks := do
  assert (s.value = true)
  let s := { s with value := false }
  match s.waiters.getLast? with
  | none => return s.goto task .out
  | some waiter => do
      let s ← s.unblock waiter
      return s.goto task .yielded

/-- A statement of a task. -/
def go (task : ℕ) : Option LockTasks :=
  match s.phase task with
  | .out => none
  | .acquire => some (s.goto task (if s.holder = some task then .again else .lock))
  | .again => some (({ s with repeats := u32 (s.repeats + 1) }.setDepth task (s.depth task + 1)).goto task .out)
  | .lock => some (s.mutexLock task)
  | .blocked => none
  | .ready => some (s.mutexLock task)
  | .hold => some ({ s with holder := some task }.goto task .check)
  | .check => do
      assert (s.repeats = 0)
      return s.goto task .first
  | .first => some (({ s with repeats := 1 }.setDepth task (s.depth task + 1)).goto task .out)
  | .release => do
      assert (s.holder = some task)
      return s.goto task .test
  | .test => some (s.goto task (if 1 < s.repeats then .less else .last))
  | .less => some (({ s with repeats := s.repeats - 1 }.setDepth task (s.depth task - 1)).goto task .out)
  | .last => do
      assert (s.repeats = 1)
      return s.goto task .drop
  | .drop => some (({ s with holder := none }.setDepth task (s.depth task - 1)).goto task .reset)
  | .reset => some ({ s with repeats := 0 }.goto task .unlock)
  | .unlock => s.mutexUnlock task
  | .yielded => some (s.goto task .out)

/-- A step. No value means that an assertion fails. -/
def step : LockOp → Option (Unit × LockTasks)
  | .acquire task => some ((), s.goto task .acquire)
  | .release task => some ((), s.goto task .release)
  | .go task => (s.go task).map fun t => ((), t)

/-- Calls are properly nested, and a task that goes on is in one of the functions, and not blocked. -/
def Legal : LockOp → Prop
  | .acquire task => s.phase task = .out
  | .release task => s.phase task = .out ∧ 0 < s.depth task
  | .go task => s.phase task ≠ .out ∧ s.phase task ≠ .blocked

/-- The counter has room for one nesting more. -/
def Shallow : LockOp → Prop
  | .acquire task => s.depth task + 1 < 4294967296
  | .release _ => True
  | .go _ => True

/-- After `lock_init`, and no task in one of the functions. -/
structure Start : Prop where
  /-- Nobody holds it. -/
  holder : s.holder = none
  /-- The counter. -/
  repeats : s.repeats = 0
  /-- The mutex. -/
  value : s.value = false
  /-- Nobody waits. -/
  waiters : s.waiters = []
  /-- All tasks are elsewhere. -/
  phase : ∀ task, s.phase task = .out
  /-- They have nothing to release. -/
  depth : ∀ task, s.depth task = 0

/-- A task owns the lock, or is about to in `lock_acquire`, or still does in `lock_release`. -/
def Has (task : ℕ) : Prop :=
  0 < s.depth task ∨ s.phase task = .hold ∨ s.phase task = .check ∨ s.phase task = .first ∨
    s.phase task = .reset ∨ s.phase task = .unlock

/-- **What a lock is for.** -/
structure Safe : Prop where
  /-- One task at most is between `lock_acquire` and the `lock_release` that belongs to it. -/
  alone : ∀ {task task'}, 0 < s.depth task → 0 < s.depth task' → task = task'
  /-- It is the holder, with its depth. -/
  owner : ∀ {task}, 0 < s.depth task → s.holder = some task ∧ s.repeats = s.depth task
  /-- The mutex is locked when some task has it. -/
  value : s.value = true ↔ ∃ task, s.Has task
  /-- Where tasks wait, the mutex is locked, or one of them has been made ready. -/
  wake : s.waiters ≠ [] → s.value = true ∨ ∃ task, s.phase task = .ready

/-! ### What every step keeps -/

/-- What is known of a task by the place where it is. -/
def Local (holder : Option ℕ) (repeats depth task : ℕ) : LockPhase → Prop
  | .out => True
  | .acquire => depth + 1 < 4294967296
  | .again => 0 < depth ∧ depth + 1 < 4294967296
  | .lock | .blocked | .ready | .yielded => depth = 0
  | .hold => depth = 0 ∧ holder = none ∧ repeats = 0
  | .check | .first => depth = 0 ∧ holder = some task ∧ repeats = 0
  | .release | .test => 0 < depth
  | .less => 1 < depth
  | .last | .drop => depth = 1
  | .reset => depth = 0 ∧ holder = none
  | .unlock => depth = 0 ∧ holder = none ∧ repeats = 0

/-- **The invariant.** -/
structure Sound : Prop where
  /-- One task at most has the lock. -/
  alone : ∀ {task task'}, s.Has task → s.Has task' → task = task'
  /-- The mutex is locked when some task has it. -/
  value : s.value = true ↔ ∃ task, s.Has task
  /-- A task that is deep is the holder. -/
  deep : ∀ {task}, 0 < s.depth task →
    s.holder = some task ∧ s.repeats = s.depth task ∧ s.depth task < 4294967296
  /-- Each task by its place. -/
  here : ∀ task, Local s.holder s.repeats (s.depth task) task (s.phase task)
  /-- Nobody has it. -/
  free : (∀ task, ¬s.Has task) → s.holder = none ∧ s.repeats = 0
  /-- The tasks in the list are blocked. -/
  mem_waiters : ∀ {task}, task ∈ s.waiters ↔ s.phase task = .blocked
  /-- Each once. -/
  nodup : s.waiters.Nodup
  /-- Nobody waits in vain. -/
  wake : s.waiters ≠ [] → s.value = true ∨ ∃ task, s.phase task = .ready

end LockTasks

namespace LockTasks

variable {s t : LockTasks} {task : ℕ} {p : LockPhase} {d : ℕ} {op : LockOp}

theorem Start.sound (h : s.Start) : s.Sound := by
  have hnot : ∀ task, ¬s.Has task := fun task hhas => by
    rw [Has, h.depth, h.phase] at hhas
    simp at hhas
  refine ⟨fun hhas => absurd hhas (hnot _), ?_, fun {task} hpos => ?_, fun task => ?_,
    fun _ => ⟨h.holder, h.repeats⟩, fun {task} => ?_, by rw [h.waiters]; exact List.nodup_nil,
    fun hne => absurd h.waiters hne⟩
  · rw [h.value]
    exact iff_of_false (by simp) fun ⟨task, hhas⟩ => hnot task hhas
  · exact absurd (Or.inl hpos) (hnot task)
  · rw [h.phase]
    exact trivial
  · rw [h.waiters, h.phase]
    simp

theorem Sound.safe (h : s.Sound) : s.Safe :=
  ⟨fun hpos hpos' => h.alone (Or.inl hpos) (Or.inl hpos'), fun hpos => ⟨(h.deep hpos).1, (h.deep hpos).2.1⟩,
    h.value, h.wake⟩

/-- Of a task that has not got the lock, nothing is known of the holder. -/
theorem Local.congr {holder holder' : Option ℕ} {repeats repeats' : ℕ} (hnot : ¬s.Has task)
    (h : Local holder repeats (s.depth task) task (s.phase task)) :
    Local holder' repeats' (s.depth task) task (s.phase task) := by
  rw [Has] at hnot
  cases hphase : s.phase task <;> rw [hphase] at h hnot <;> first | exact h | simp at hnot

/-- A task goes from one place to another, and nothing happens to the mutex. -/
structure Moves (s t : LockTasks) (task : ℕ) (p : LockPhase) (d : ℕ) : Prop where
  /-- The places. -/
  phase : ∀ i, t.phase i = if i = task then p else s.phase i
  /-- The depths. -/
  depth : ∀ i, t.depth i = if i = task then d else s.depth i
  /-- The mutex. -/
  value : t.value = s.value
  /-- Its list. -/
  waiters : t.waiters = s.waiters

/-- The depth stays. -/
theorem Moves.stay (hphase : ∀ i, t.phase i = if i = task then p else s.phase i) (hdepth : t.depth = s.depth)
    (hvalue : t.value = s.value) (hwaiters : t.waiters = s.waiters) : Moves s t task p (s.depth task) := by
  refine ⟨hphase, fun i => ?_, hvalue, hwaiters⟩
  rw [hdepth]
  split
  next heq => rw [heq]
  next => rfl

/-- Whether a task has the lock depends on its depth and its place. -/
theorem has_congr {i : ℕ} (hphase : t.phase i = s.phase i) (hdepth : t.depth i = s.depth i) :
    t.Has i ↔ s.Has i := by
  rw [Has, Has, hphase, hdepth]

/-- **A step outside the mutex** that neither gets the lock nor gives it up. -/
theorem Sound.move (h : s.Sound) (hmoves : Moves s t task p d) (hblocked : s.phase task ≠ .blocked)
    (hready : s.phase task ≠ .ready) (hp : p ≠ .blocked)
    (hkeep : ¬s.Has task → t.holder = s.holder ∧ t.repeats = s.repeats) (hhas : t.Has task ↔ s.Has task)
    (hdeep : 0 < d → t.holder = some task ∧ t.repeats = d ∧ d < 4294967296)
    (hlocal : Local t.holder t.repeats d task p) : t.Sound := by
  have hself : t.phase task = p := (hmoves.phase task).trans (if_pos rfl)
  have hselfdepth : t.depth task = d := (hmoves.depth task).trans (if_pos rfl)
  have hother : ∀ {i}, i ≠ task → t.phase i = s.phase i := fun hi => (hmoves.phase _).trans (if_neg hi)
  have hotherdepth : ∀ {i}, i ≠ task → t.depth i = s.depth i := fun hi => (hmoves.depth _).trans (if_neg hi)
  have hiff : ∀ i, t.Has i ↔ s.Has i := by
    intro i
    rcases eq_or_ne i task with rfl | hi
    · exact hhas
    · exact has_congr (hother hi) (hotherdepth hi)
  -- when another task has the lock, nothing has changed for it
  have hsame : ∀ {i}, i ≠ task → s.Has i → t.holder = s.holder ∧ t.repeats = s.repeats :=
    fun hi hhasi => hkeep fun hc => hi (h.alone hhasi hc)
  refine ⟨fun hi hj => h.alone ((hiff _).mp hi) ((hiff _).mp hj), ?_, fun {i} hpos => ?_, fun i => ?_,
    fun hnone => ?_, fun {i} => ?_, hmoves.waiters ▸ h.nodup, fun hne => ?_⟩
  · rw [hmoves.value, h.value]
    exact exists_congr fun i => (hiff i).symm
  · rcases eq_or_ne i task with rfl | hi
    · rw [hselfdepth] at hpos ⊢
      exact hdeep hpos
    · rw [hotherdepth hi] at hpos ⊢
      obtain ⟨hholder, hrepeats⟩ := hsame hi (Or.inl hpos)
      rw [hholder, hrepeats]
      exact h.deep hpos
  · rcases eq_or_ne i task with rfl | hi
    · rw [hself, hselfdepth]
      exact hlocal
    · rw [hother hi, hotherdepth hi]
      by_cases hhasi : s.Has i
      · obtain ⟨hholder, hrepeats⟩ := hsame hi hhasi
        rw [hholder, hrepeats]
        exact h.here i
      · exact Local.congr hhasi (h.here i)
  · have hnot : ∀ i, ¬s.Has i := fun i hc => hnone i ((hiff i).mpr hc)
    obtain ⟨hholder, hrepeats⟩ := hkeep (hnot task)
    rw [hholder, hrepeats]
    exact h.free hnot
  · rw [hmoves.waiters, h.mem_waiters]
    rcases eq_or_ne i task with rfl | hi
    · rw [hself]
      exact iff_of_false hblocked hp
    · rw [hother hi]
  · rw [hmoves.waiters] at hne
    rw [hmoves.value]
    refine (h.wake hne).imp_right fun ⟨i, hi⟩ => ⟨i, ?_⟩
    rw [hother, hi]
    rintro rfl
    exact hready hi

/-- **`mutex_lock`** of a task that has not got the lock. -/
theorem Sound.mutexLock (h : s.Sound) (hphase : s.phase task = .lock ∨ s.phase task = .ready) :
    (s.mutexLock task).Sound := by
  have hdepth : s.depth task = 0 := by
    have hhere := h.here task
    rcases hphase with hphase | hphase <;> rw [hphase] at hhere <;> exact hhere
  have hnot : ¬s.Has task := by
    rw [Has, hdepth]
    rcases hphase with hphase | hphase <;> simp [hphase]
  rw [LockTasks.mutexLock]
  by_cases hvalue : s.value = true
  · -- it waits
    rw [if_pos hvalue]
    obtain ⟨t, ht⟩ : ∃ t, t = { s with waiters := task :: s.waiters }.goto task .blocked := ⟨_, rfl⟩
    rw [← ht]
    have hself : t.phase task = .blocked := by rw [ht]; exact if_pos rfl
    have hother : ∀ {i}, i ≠ task → t.phase i = s.phase i := fun hi => by rw [ht]; exact if_neg hi
    have htdepth : t.depth = s.depth := by rw [ht]; rfl
    have htvalue : t.value = true := by rw [ht]; exact hvalue
    have htwaiters : t.waiters = task :: s.waiters := by rw [ht]; rfl
    have hholder : t.holder = s.holder := by rw [ht]; rfl
    have hrepeats : t.repeats = s.repeats := by rw [ht]; rfl
    have hiff : ∀ i, t.Has i ↔ s.Has i := by
      intro i
      rcases eq_or_ne i task with rfl | hi
      · refine iff_of_false (fun hc => ?_) hnot
        rw [Has, hself, htdepth, hdepth] at hc
        simp at hc
      · exact has_congr (hother hi) (congrFun htdepth i)
    refine ⟨fun hi hj => h.alone ((hiff _).mp hi) ((hiff _).mp hj), ?_, fun {i} hpos => ?_, fun i => ?_,
      fun hnone => ?_, fun {i} => ?_, ?_, fun _ => Or.inl htvalue⟩
    · obtain ⟨i, hi⟩ := h.value.mp hvalue
      exact iff_of_true htvalue ⟨i, (hiff i).mpr hi⟩
    · rw [hholder, hrepeats, htdepth]
      rw [htdepth] at hpos
      exact h.deep hpos
    · rw [hholder, hrepeats, htdepth]
      rcases eq_or_ne i task with rfl | hi
      · rw [hself]
        exact hdepth
      · rw [hother hi]
        exact h.here i
    · rw [hholder, hrepeats]
      exact h.free fun i hc => hnone i ((hiff i).mpr hc)
    · rw [htwaiters, List.mem_cons, h.mem_waiters]
      rcases eq_or_ne i task with rfl | hi
      · exact iff_of_true (Or.inl rfl) hself
      · rw [hother hi, or_iff_right hi]
    · rw [htwaiters]
      refine List.nodup_cons.mpr ⟨fun hmem => ?_, h.nodup⟩
      have hblocked := h.mem_waiters.mp hmem
      rcases hphase with hphase | hphase <;> rw [hphase] at hblocked <;> exact absurd hblocked (by simp)
  · -- it gets the lock
    rw [if_neg hvalue]
    have hnobody : ∀ i, ¬s.Has i := fun i hc => hvalue (h.value.mpr ⟨i, hc⟩)
    obtain ⟨hholder, hrepeats⟩ := h.free hnobody
    obtain ⟨t, ht⟩ : ∃ t, t = { s with value := true }.goto task .hold := ⟨_, rfl⟩
    rw [← ht]
    have hself : t.phase task = .hold := by rw [ht]; exact if_pos rfl
    have hother : ∀ {i}, i ≠ task → t.phase i = s.phase i := fun hi => by rw [ht]; exact if_neg hi
    have htdepth : t.depth = s.depth := by rw [ht]; rfl
    have htvalue : t.value = true := by rw [ht]; rfl
    have htwaiters : t.waiters = s.waiters := by rw [ht]; rfl
    have hholder' : t.holder = none := by rw [ht]; exact hholder
    have hrepeats' : t.repeats = 0 := by rw [ht]; exact hrepeats
    have hhas : t.Has task := Or.inr (Or.inl hself)
    have honly : ∀ {i}, t.Has i → i = task := by
      intro i hi
      by_contra hne
      exact hnobody i ((has_congr (hother hne) (congrFun htdepth i)).mp hi)
    refine ⟨fun hi hj => (honly hi).trans (honly hj).symm, iff_of_true htvalue ⟨task, hhas⟩, fun {i} hpos => ?_,
      fun i => ?_, fun hnone => absurd hhas (hnone task), fun {i} => ?_, htwaiters ▸ h.nodup,
      fun _ => Or.inl htvalue⟩
    · rw [htdepth] at hpos
      exact absurd (Or.inl hpos) (hnobody i)
    · rw [htdepth]
      rcases eq_or_ne i task with rfl | hi
      · rw [hself]
        exact ⟨hdepth, hholder', hrepeats'⟩
      · rw [hother hi]
        exact Local.congr (hnobody i) (h.here i)
    · rw [htwaiters, h.mem_waiters]
      rcases eq_or_ne i task with rfl | hi
      · rw [hself]
        rcases hphase with hphase | hphase <;> simp [hphase]
      · rw [hother hi]

/-- **`mutex_unlock`.** -/
theorem Sound.mutexUnlock (h : s.Sound) (hphase : s.phase task = .unlock) :
    ∃ t, s.mutexUnlock task = some t ∧ t.Sound := by
  have hhas : s.Has task := by simp [Has, hphase]
  have hvalue : s.value = true := h.value.mpr ⟨task, hhas⟩
  obtain ⟨hdepth, hholder, hrepeats⟩ : s.depth task = 0 ∧ s.holder = none ∧ s.repeats = 0 := by
    have hhere := h.here task
    rw [hphase] at hhere
    exact hhere
  have hnot : ∀ {i}, i ≠ task → ¬s.Has i := fun hi hc => hi (h.alone hc hhas)
  -- whatever the last place of the task: nobody has the lock then
  have hdone : ∀ {t : LockTasks}, t.depth = s.depth → t.value = false → t.holder = s.holder →
      t.repeats = s.repeats → (t.phase task = .out ∨ t.phase task = .yielded) →
      (∀ i, i ≠ task → t.phase i = s.phase i ∨ (s.phase i = .blocked ∧ t.phase i = .ready)) →
      (∀ {i}, i ∈ t.waiters ↔ t.phase i = .blocked) → t.waiters.Nodup →
      (t.waiters ≠ [] → ∃ i, t.phase i = .ready) → t.Sound := by
    intro t htdepth htvalue htholder htrepeats hself hother hmem hnodup hwake
    have hnobody : ∀ i, ¬t.Has i := by
      intro i hc
      rcases eq_or_ne i task with rfl | hi
      · rw [Has, htdepth, hdepth] at hc
        rcases hself with hself | hself <;> simp [hself] at hc
      · rcases hother i hi with hsame | ⟨hblocked, hready⟩
        · exact hnot hi ((has_congr hsame (congrFun htdepth i)).mp hc)
        · rw [Has, htdepth, hready] at hc
          have hzero := h.here i
          rw [hblocked] at hzero
          have hzero' : s.depth i = 0 := hzero
          simp [hzero'] at hc
    refine ⟨fun hi => absurd hi (hnobody _), ?_, fun {i} hpos => absurd (Or.inl hpos) (hnobody i), fun i => ?_,
      fun _ => ⟨htholder.trans hholder, htrepeats.trans hrepeats⟩, hmem, hnodup, fun hne => Or.inr (hwake hne)⟩
    · rw [htvalue]
      exact iff_of_false (by simp) fun ⟨i, hi⟩ => hnobody i hi
    · rw [htholder, htrepeats, htdepth]
      rcases eq_or_ne i task with rfl | hi
      · rcases hself with hself | hself <;> rw [hself]
        · exact trivial
        · exact hdepth
      · have hhere := h.here i
        rcases hother i hi with hsame | ⟨hblocked, hready⟩
        · rw [hsame]
          exact hhere
        · rw [hready]
          rw [hblocked] at hhere
          exact hhere
  cases hlast : s.waiters.getLast? with
  | none =>
    have hnil : s.waiters = [] := List.getLast?_eq_none_iff.mp hlast
    obtain ⟨u, hu⟩ : ∃ u, u = { s with value := false }.goto task .out := ⟨_, rfl⟩
    have huself : u.phase task = .out := by rw [hu]; exact if_pos rfl
    have huother : ∀ i, i ≠ task → u.phase i = s.phase i := fun i hi => by rw [hu]; exact if_neg hi
    have huwaiters : u.waiters = s.waiters := by rw [hu]; rfl
    refine ⟨u, ?_, hdone (by rw [hu]; rfl) (by rw [hu]; rfl) (by rw [hu]; rfl) (by rw [hu]; rfl) (Or.inl huself)
      (fun i hi => Or.inl (huother i hi)) (fun {i} => ?_) (huwaiters ▸ h.nodup)
      fun hne => absurd (huwaiters.trans hnil) hne⟩
    · simp only [LockTasks.mutexUnlock, assert_pos hvalue, Option.bind_eq_bind, Option.bind_some, hlast]
      rw [hu]
      rfl
    · rw [huwaiters, h.mem_waiters]
      rcases eq_or_ne i task with rfl | hi
      · rw [huself, hphase]
        simp
      · rw [huother i hi]
  | some waiter =>
    have hmem : waiter ∈ s.waiters := List.mem_of_getLast? hlast
    have hblocked := h.mem_waiters.mp hmem
    have hne : waiter ≠ task := by
      rintro rfl
      exact absurd (hphase.symm.trans hblocked) (by simp)
    obtain ⟨u, hu⟩ : ∃ u, u = ({ s with value := false, waiters := s.waiters.erase waiter }.goto waiter
      .ready).goto task .yielded := ⟨_, rfl⟩
    have huself : u.phase task = .yielded := by rw [hu]; exact if_pos rfl
    have huwaiter : u.phase waiter = .ready := by
      rw [hu]
      exact (if_neg hne).trans (if_pos rfl)
    have huother : ∀ {i}, i ≠ task → i ≠ waiter → u.phase i = s.phase i := fun hi hi' => by
      rw [hu]
      exact (if_neg hi).trans (if_neg hi')
    have huwaiters : u.waiters = s.waiters.erase waiter := by rw [hu]; rfl
    refine ⟨u, ?_, hdone (by rw [hu]; rfl) (by rw [hu]; rfl) (by rw [hu]; rfl) (by rw [hu]; rfl) (Or.inr huself)
      (fun i hi => ?_) (fun {i} => ?_) ?_ fun _ => ⟨waiter, huwaiter⟩⟩
    · simp only [LockTasks.mutexUnlock, assert_pos hvalue, Option.bind_eq_bind, Option.bind_some, hlast, unblock]
      rw [assert_pos ⟨hmem, hblocked⟩, hu]
      rfl
    · rcases eq_or_ne i waiter with rfl | hi'
      · exact Or.inr ⟨hblocked, huwaiter⟩
      · exact Or.inl (huother hi hi')
    · rw [huwaiters, h.nodup.mem_erase_iff]
      rcases eq_or_ne i task with rfl | hi
      · rw [huself, h.mem_waiters, hphase]
        simp
      · rcases eq_or_ne i waiter with rfl | hi'
        · rw [huwaiter]
          simp
        · rw [huother hi hi', and_iff_right hi', h.mem_waiters]
    · rw [huwaiters]
      exact h.nodup.erase _

end LockTasks

end Onixs
