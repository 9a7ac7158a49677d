import Onixs.Common.Run
import Onixs.Kernel.BufferPool

/-!
# Many tasks and the buffer cache

Any number of tasks that call `bread`, store into the buffers they hold, and call `bwrite`
and `brelse`. A task runs until it blocks: in `get_free_buffer` when all buffers are in
use, before the lock of a buffer that another task reads, and in `device_request`, which
blocks behind the requests of other tasks, before each sector it reads and after each
sector it writes. `Onixs.Phase` is where a task stands.

`Onixs.CacheTasks.Ordered` is what holds at every such point of the lists, the locks and
the flags. It is kept by every step that does not end in a failing assertion.
-/

namespace Onixs

/-- Where a task stands. -/
inductive Phase where
  /-- In no function of the cache. -/
  | idle
  /-- In `get_free_buffer`, for the block. -/
  | wait (dev block : ℕ)
  /-- In `bread`, before the lock of the buffer. -/
  | lock (bf : ℕ)
  /-- In the `device_request` of `bread`, after `k` sectors. -/
  | read (bf k : ℕ)
  /-- In the `device_request` of `bwrite`, after `k` sectors; `brelse` called it, or not. -/
  | write (bf k : ℕ) (release : Bool)
deriving DecidableEq

/-- The cache and the tasks that use it. -/
structure CacheTasks (D : Type) where
  /-- The cache. -/
  cache : Cache D
  /-- Where each task stands. -/
  phase : ℕ → Phase
  /-- The references, with the task and the buffer of each. -/
  held : List (ℕ × ℕ)

/-- What a task does next. -/
inductive TaskOp (D : Type) where
  /-- Call `bread`. -/
  | bread (task dev block : ℕ)
  /-- Store into the data of a buffer. -/
  | store (task bf i : ℕ) (d : D)
  /-- Call `bwrite`. -/
  | bwrite (task bf : ℕ)
  /-- Call `brelse`. -/
  | brelse (task bf : ℕ)
  /-- Go on after it was blocked. -/
  | resume (task : ℕ)

namespace CacheTasks

variable {D : Type} (s : CacheTasks D)

/-- The references to a buffer. -/
def refs (bf : ℕ) : ℕ := (s.held.map Prod.snd).count bf

/-- A task gets to another place. -/
def goto (task : ℕ) (phase : Phase) : CacheTasks D :=
  { s with phase := Function.update s.phase task phase }

/-- `bread` behind `getblk`. When the data is there, a lock that is taken is given back at once. -/
def acquire (task bf : ℕ) : CacheTasks D :=
  if (s.cache.buffers bf).valid then s.goto task .idle
  else if (s.cache.buffers bf).lock = none then
    { s with cache := s.cache.setLock bf (some task) }.goto task (.read bf 0)
  else s.goto task (.lock bf)

/-- What `getblk` has found. -/
def enter (task dev block : ℕ) : Option (ℕ × Cache D) → CacheTasks D
  | none => { s with cache := { s.cache with waitList := task :: s.cache.waitList } }.goto task
      (.wait dev block)
  | some (bf, u) => { s with cache := u, held := (task, bf) :: s.held }.acquire task bf

/-- `brelse` behind `bwrite`. -/
def put (task bf : ℕ) : Option (CacheTasks D) :=
  (s.cache.putBuffer bf).map fun u =>
    { s with cache := u, held := s.held.erase (task, bf) }.goto task .idle

/-- A task goes on. -/
def resume (task : ℕ) : Option (CacheTasks D) :=
  match s.phase task with
  | .idle => none
  | .wait dev block => (s.cache.takeBuffer dev block).map (s.enter task dev block)
  | .lock bf => some (s.acquire task bf)
  | .read bf k =>
      let s := { s with cache := s.cache.readSector bf k }
      if k + 1 < 2 then some (s.goto task (.read bf (k + 1)))
      else some ({ s with cache := (s.cache.requestDone bf).setLock bf none }.goto task .idle)
  | .write bf k release =>
      if k < 2 then
        some ({ s with cache := s.cache.writeSector bf k }.goto task (.write bf (k + 1) release))
      else
        let s := { s with cache := s.cache.requestDone bf }
        if release then s.put task bf else some (s.goto task .idle)

/-- A step. No value means that an assertion fails. -/
def step : TaskOp D → Option (Unit × CacheTasks D)
  | .bread task dev block => (s.cache.getblk dev block).map fun r => ((), s.enter task dev block r)
  | .store _ bf i d => some ((), { s with cache := s.cache.store bf i d })
  | .bwrite task bf =>
      some ((), if (s.cache.buffers bf).dirty then s.goto task (.write bf 0 false) else s)
  | .brelse task bf =>
      if (s.cache.buffers bf).dirty then some ((), s.goto task (.write bf 0 true))
      else (s.put task bf).map fun t => ((), t)
  | .resume task => (s.resume task).map fun t => ((), t)

/-- A task at this place can go on. -/
def Ready (task : ℕ) : Phase → Prop
  | .idle => False
  | .wait _ _ => task ∉ s.cache.waitList
  | .lock bf => (s.cache.buffers bf).lock = none
  | .read _ _ => True
  | .write _ _ _ => True

/-- A task that is in no function uses a buffer it holds; another goes on when it is not blocked. -/
def Legal : TaskOp D → Prop
  | .bread task _ _ => s.phase task = .idle
  | .store task bf i _ => s.phase task = .idle ∧ (task, bf) ∈ s.held ∧ i < 2
  | .bwrite task bf => s.phase task = .idle ∧ (task, bf) ∈ s.held
  | .brelse task bf => s.phase task = .idle ∧ (task, bf) ∈ s.held
  | .resume task => s.Ready task (s.phase task)

instance (task : ℕ) : (phase : Phase) → Decidable (s.Ready task phase)
  | .idle => inferInstanceAs (Decidable False)
  | .wait _ _ => inferInstanceAs (Decidable (task ∉ s.cache.waitList))
  | .lock bf => inferInstanceAs (Decidable ((s.cache.buffers bf).lock = none))
  | .read _ _ => inferInstanceAs (Decidable True)
  | .write _ _ _ => inferInstanceAs (Decidable True)

instance : (op : TaskOp D) → Decidable (s.Legal op)
  | .bread task _ _ => inferInstanceAs (Decidable (s.phase task = .idle))
  | .store task bf i _ => inferInstanceAs (Decidable (s.phase task = .idle ∧ (task, bf) ∈ s.held ∧ i < 2))
  | .bwrite task bf => inferInstanceAs (Decidable (s.phase task = .idle ∧ (task, bf) ∈ s.held))
  | .brelse task bf => inferInstanceAs (Decidable (s.phase task = .idle ∧ (task, bf) ∈ s.held))
  | .resume task => inferInstanceAs (Decidable (s.Ready task (s.phase task)))

/-- No counter overflows. -/
def Counted : TaskOp D → Prop
  | .bread _ dev block => ∀ bf < s.cache.made, (s.cache.buffers bf).dev = dev →
      (s.cache.buffers bf).block = block → s.refs bf < 2147483648
  | _ => True

instance : (op : TaskOp D) → Decidable (s.Counted op)
  | .bread _ dev block => inferInstanceAs (Decidable (∀ bf < s.cache.made,
      (s.cache.buffers bf).dev = dev → (s.cache.buffers bf).block = block → s.refs bf < 2147483648))
  | .store _ _ _ _ => inferInstanceAs (Decidable True)
  | .bwrite _ _ => inferInstanceAs (Decidable True)
  | .brelse _ _ => inferInstanceAs (Decidable True)
  | .resume _ => inferInstanceAs (Decidable True)

/-- The buffer whose counter the step takes to zero, if any. -/
def Drops : TaskOp D → ℕ → Prop
  | .brelse _ bf, b => b = bf ∧ (s.cache.buffers bf).dirty = false ∧ s.refs bf = 1
  | .resume task, b => ∃ k, s.phase task = .write b k true ∧ 2 ≤ k ∧ s.refs b = 1
  | _, _ => False

/-- No buffer is given up while a task waits for one. -/
def Unneeded (op : TaskOp D) : Prop := (∃ bf, s.Drops op bf) → s.cache.waitList = []

/-- How many sectors of the buffer a task at this place has written. -/
def written (bf : ℕ) : Phase → ℕ
  | .write b k _ => if b = bf then k else 0
  | _ => 0

/-- Blocks have sectors of their own, and no sector is stored into that a `bwrite` in progress has
written already. -/
def Undisturbed : TaskOp D → Prop
  | .bread _ _ block => block < 2147483648
  | .store _ bf i _ => ∀ p ∈ s.held, written bf (s.phase p.1) ≤ i
  | _ => True

instance : (op : TaskOp D) → Decidable (s.Undisturbed op)
  | .bread _ _ block => inferInstanceAs (Decidable (block < 2147483648))
  | .store _ bf i _ => inferInstanceAs (Decidable (∀ p ∈ s.held, written bf (s.phase p.1) ≤ i))
  | .bwrite _ _ => inferInstanceAs (Decidable True)
  | .brelse _ _ => inferInstanceAs (Decidable True)
  | .resume _ => inferInstanceAs (Decidable True)

/-! ### The invariant -/

/-- **The lists, the locks and the flags are in order.** -/
structure Ordered : Prop where
  /-- The lists are. -/
  pool : s.cache.Pool s.refs
  /-- No counter has overflowed. -/
  bound : ∀ bf, s.refs bf ≤ 2147483648
  /-- The tasks that wait are in the list. -/
  mem_wait : ∀ {task}, task ∈ s.cache.waitList ↔ ∃ dev block, s.phase task = .wait dev block
  /-- They are there once. -/
  wait_nodup : s.cache.waitList.Nodup
  /-- A buffer in use has been read, unless who holds it is about to read it. -/
  valid : ∀ {task bf}, (task, bf) ∈ s.held → (s.cache.buffers bf).valid = true ∨
    s.phase task = .lock bf ∨ ∃ k, s.phase task = .read bf k
  /-- A task before a lock holds the buffer. -/
  locking : ∀ {task bf}, s.phase task = .lock bf → (task, bf) ∈ s.held
  /-- A task that reads holds the buffer and its lock. -/
  reading : ∀ {task bf k}, s.phase task = .read bf k → (task, bf) ∈ s.held ∧
    (s.cache.buffers bf).lock = some task ∧ (s.cache.buffers bf).valid = false ∧ k < 2
  /-- A task that writes holds the buffer. -/
  writing : ∀ {task bf k release}, s.phase task = .write bf k release → (task, bf) ∈ s.held ∧
    (s.cache.buffers bf).valid = true ∧ k ≤ 2
  /-- Who holds a lock is reading. -/
  locked : ∀ {task bf}, bf < s.cache.made → (s.cache.buffers bf).lock = some task →
    ∃ k, s.phase task = .read bf k

variable {s} {t : CacheTasks D} {task bf dev block : ℕ}

theorem refs_pos (h : (task, bf) ∈ s.held) : 0 < s.refs bf :=
  List.count_pos_iff.mpr (List.mem_map.mpr ⟨(task, bf), h, rfl⟩)

theorem exists_held (h : 0 < s.refs bf) : ∃ task, (task, bf) ∈ s.held := by
  obtain ⟨⟨task, b⟩, hmem, rfl⟩ := List.mem_map.mp (List.count_pos_iff.mp h)
  exact ⟨task, hmem⟩

/-- A buffer that is held has been set up. -/
theorem Ordered.lt_of_held (h : s.Ordered) (hmem : (task, bf) ∈ s.held) : bf < s.cache.made := by
  by_contra hge
  exact (refs_pos hmem).ne' (h.pool.refs_zero (Nat.le_of_not_lt hge))

/-- A buffer that has been read is not locked. -/
theorem Ordered.unlocked (h : s.Ordered) (hlt : bf < s.cache.made)
    (hvalid : (s.cache.buffers bf).valid = true) : (s.cache.buffers bf).lock = none := by
  cases hlock : (s.cache.buffers bf).lock with
  | none => rfl
  | some task =>
    obtain ⟨k, hphase⟩ := h.locked hlt hlock
    exact absurd ((h.reading hphase).2.2.1.symm.trans hvalid) (by simp)

/-- What a task that is in no function holds has been read. -/
theorem Ordered.valid_of_idle (h : s.Ordered) (hidle : s.phase task = .idle)
    (hmem : (task, bf) ∈ s.held) : (s.cache.buffers bf).valid = true := by
  rcases h.valid hmem with hvalid | hphase | ⟨k, hphase⟩
  · exact hvalid
  · exact absurd (hidle.symm.trans hphase) (by simp)
  · exact absurd (hidle.symm.trans hphase) (by simp)

/-- A place that has to do with no other buffer. -/
def At (bf : ℕ) : Phase → Prop
  | .idle => True
  | .wait _ _ => False
  | .lock b => b = bf
  | .read b _ => b = bf
  | .write b _ _ => b = bf

/-- **A step of one task on one buffer it holds.** -/
structure Local (s t : CacheTasks D) (task bf : ℕ) (phase : Phase) : Prop where
  /-- The task holds the buffer. -/
  mem : (task, bf) ∈ s.held
  /-- It was at the buffer. -/
  source : At bf (s.phase task)
  /-- It stays there. -/
  target : At bf phase
  /-- The place it gets to. -/
  phases : t.phase = Function.update s.phase task phase
  /-- References do not change. -/
  held : t.held = s.held
  /-- Nor do the other buffers. -/
  other : ∀ b, b ≠ bf → t.cache.buffers b = s.cache.buffers b
  /-- Nor the block and the counter of the buffer. -/
  key : (t.cache.buffers bf).dev = (s.cache.buffers bf).dev ∧
    (t.cache.buffers bf).block = (s.cache.buffers bf).block ∧
    (t.cache.buffers bf).count = (s.cache.buffers bf).count
  /-- Nor the lists. -/
  lists : t.cache.made = s.cache.made ∧ t.cache.cap = s.cache.cap ∧
    t.cache.hashTable = s.cache.hashTable ∧ t.cache.freeList = s.cache.freeList ∧
    t.cache.waitList = s.cache.waitList
  /-- A buffer that has been read stays so. -/
  valid : (s.cache.buffers bf).valid = true → (t.cache.buffers bf).valid = true
  /-- If it has not been read, the task is about to. -/
  invalid : (t.cache.buffers bf).valid = true ∨ phase = .lock bf ∨ ∃ k, phase = .read bf k
  /-- Nobody else's reading is disturbed. -/
  undisturbed : ∀ u, u ≠ task → (s.cache.buffers bf).lock = some u →
    (t.cache.buffers bf).lock = some u ∧ (t.cache.buffers bf).valid = (s.cache.buffers bf).valid
  /-- If the task reads, it has the lock. -/
  reading : ∀ k, phase = .read bf k →
    (t.cache.buffers bf).lock = some task ∧ (t.cache.buffers bf).valid = false ∧ k < 2
  /-- If the task writes, the buffer has been read. -/
  writing : ∀ k release, phase = .write bf k release → (t.cache.buffers bf).valid = true ∧ k ≤ 2
  /-- Who has the lock now. -/
  locked : ∀ u, (t.cache.buffers bf).lock = some u →
    (u = task ∧ ∃ k, phase = .read bf k) ∨ (u ≠ task ∧ (s.cache.buffers bf).lock = some u)

section LocalStep

variable {phase : Phase} (h : s.Ordered) (hl : Local s t task bf phase)

include hl

theorem Local.phase_self : t.phase task = phase := by
  rw [hl.phases]
  exact Function.update_self _ _ _

theorem Local.phase_of_ne {u : ℕ} (hne : u ≠ task) : t.phase u = s.phase u := by
  rw [hl.phases]
  exact Function.update_of_ne hne _ _

/-- Where the task stands now has to do with the buffer. -/
theorem Local.eq_of_target {b : ℕ} (hb : At b phase) (hidle : phase ≠ .idle) : b = bf := by
  have htarget := hl.target
  cases phase with
  | idle => exact absurd rfl hidle
  | wait dev block => exact hb.elim
  | lock c => exact hb.symm.trans htarget
  | read c k => exact hb.symm.trans htarget
  | write c k release => exact hb.symm.trans htarget

include h

/-- **A local step keeps the invariant.** -/
theorem Ordered.local : t.Ordered := by
  obtain ⟨hmade, hcap, htable, hfree, hwait⟩ := hl.lists
  have hrefs : t.refs = s.refs := by
    funext b
    rw [refs, refs, hl.held]
  have hvalid : ∀ b, (s.cache.buffers b).valid = true → (t.cache.buffers b).valid = true := by
    intro b hb
    rcases eq_or_ne b bf with rfl | hne
    · exact hl.valid hb
    · rwa [hl.other b hne]
  refine ⟨?_, fun b => ?_, fun {u} => ?_, ?_, fun {u b} hu => ?_, fun {u b} hu => ?_, fun {u b k} hu => ?_,
    fun {u b k release} hu => ?_, fun {u b} hb hlock => ?_⟩
  · rw [hrefs]
    exact h.pool.store (refs_pos hl.mem).ne' hl.other hl.key.1 hl.key.2.1 hl.key.2.2 hmade hcap htable hfree
  · rw [hrefs]
    exact h.bound b
  · rw [hwait, h.mem_wait]
    rcases eq_or_ne u task with rfl | hne
    · rw [hl.phase_self]
      constructor
      · rintro ⟨dev, block, hphase⟩
        have hsource := hl.source
        rw [hphase] at hsource
        exact hsource.elim
      · rintro ⟨dev, block, rfl⟩
        exact hl.target.elim
    · rw [hl.phase_of_ne hne]
  · rw [hwait]
    exact h.wait_nodup
  · rw [hl.held] at hu
    rcases eq_or_ne u task with rfl | hne
    · rw [hl.phase_self]
      rcases eq_or_ne b bf with rfl | hbne
      · exact hl.invalid
      · -- before the step the task was at `bf`, and not about to read `b`
        have hsource := hl.source
        rcases h.valid hu with hb | hphase | ⟨k, hphase⟩
        · exact Or.inl (hvalid b hb)
        · rw [hphase] at hsource
          exact absurd hsource hbne
        · rw [hphase] at hsource
          exact absurd hsource hbne
    · rw [hl.phase_of_ne hne]
      rcases h.valid hu with hb | hphase
      · exact Or.inl (hvalid b hb)
      · exact Or.inr hphase
  · rw [hl.held]
    rcases eq_or_ne u task with rfl | hne
    · rw [hl.phase_self] at hu
      subst hu
      obtain rfl : b = bf := hl.eq_of_target rfl (by simp)
      exact hl.mem
    · rw [hl.phase_of_ne hne] at hu
      exact h.locking hu
  · rw [hl.held]
    rcases eq_or_ne u task with rfl | hne
    · rw [hl.phase_self] at hu
      subst hu
      obtain rfl : b = bf := hl.eq_of_target rfl (by simp)
      exact ⟨hl.mem, hl.reading k rfl⟩
    · rw [hl.phase_of_ne hne] at hu
      obtain ⟨hmem, hlock, hinv, hk⟩ := h.reading hu
      refine ⟨hmem, ?_⟩
      rcases eq_or_ne b bf with rfl | hbne
      · obtain ⟨hlock', hvalid'⟩ := hl.undisturbed u hne hlock
        exact ⟨hlock', hvalid'.trans hinv, hk⟩
      · rw [hl.other b hbne]
        exact ⟨hlock, hinv, hk⟩
  · rw [hl.held]
    rcases eq_or_ne u task with rfl | hne
    · rw [hl.phase_self] at hu
      subst hu
      obtain rfl : b = bf := hl.eq_of_target rfl (by simp)
      exact ⟨hl.mem, hl.writing k release rfl⟩
    · rw [hl.phase_of_ne hne] at hu
      obtain ⟨hmem, hb, hk⟩ := h.writing hu
      exact ⟨hmem, hvalid b hb, hk⟩
  · rw [hmade] at hb
    rcases eq_or_ne b bf with rfl | hbne
    · rcases hl.locked u hlock with ⟨rfl, hphase⟩ | ⟨hne, hlock'⟩
      · rw [hl.phase_self]
        exact hphase
      · rw [hl.phase_of_ne hne]
        exact h.locked hb hlock'
    · rw [hl.other b hbne] at hlock
      obtain ⟨k, hphase⟩ := h.locked hb hlock
      have hne : u ≠ task := by
        rintro rfl
        have hsource := hl.source
        rw [hphase] at hsource
        exact hbne hsource
      rw [hl.phase_of_ne hne]
      exact ⟨k, hphase⟩

end LocalStep

/-! ### The steps -/

section Steps

variable (h : s.Ordered)

@[simp] theorem goto_cache (phase : Phase) : (s.goto task phase).cache = s.cache := rfl

@[simp] theorem goto_held (phase : Phase) : (s.goto task phase).held = s.held := rfl

@[simp] theorem goto_goto (phase phase' : Phase) :
    (s.goto task phase).goto task phase' = s.goto task phase' := by
  rw [goto, goto, goto]
  simp only [Function.update_idem]

@[simp] theorem acquire_goto (phase : Phase) : (s.goto task phase).acquire task bf = s.acquire task bf := by
  have hlock : ({ s.goto task phase with cache := s.cache.setLock bf (some task) } : CacheTasks D).goto
      task (.read bf 0) = { s with cache := s.cache.setLock bf (some task) }.goto task (.read bf 0) :=
    goto_goto (s := { s with cache := s.cache.setLock bf (some task) }) phase _
  rw [acquire, acquire, goto_cache, goto_goto, goto_goto, hlock]

@[simp] theorem put_goto (phase : Phase) : (s.goto task phase).put task bf = s.put task bf := by
  rw [CacheTasks.put, CacheTasks.put, goto_cache]
  refine congrArg (Option.map · _) (funext fun u => ?_)
  exact goto_goto (s := { s with cache := u, held := s.held.erase (task, bf) }) _ _

theorem goto_phase_self (phase : Phase) : (s.goto task phase).phase task = phase :=
  Function.update_self _ _ _

theorem goto_phase_of_ne {u : ℕ} (phase : Phase) (hne : u ≠ task) :
    (s.goto task phase).phase u = s.phase u :=
  Function.update_of_ne hne _ _

include h

/-- A step that leaves the lock and the flag of the buffer alone. -/
theorem Ordered.plain {phase : Phase} (hmem : (task, bf) ∈ s.held) (hsource : At bf (s.phase task))
    (hphases : t.phase = Function.update s.phase task phase) (hheld : t.held = s.held)
    (hother : ∀ b, b ≠ bf → t.cache.buffers b = s.cache.buffers b)
    (hkey : (t.cache.buffers bf).dev = (s.cache.buffers bf).dev ∧
      (t.cache.buffers bf).block = (s.cache.buffers bf).block ∧
      (t.cache.buffers bf).count = (s.cache.buffers bf).count)
    (hlists : t.cache.made = s.cache.made ∧ t.cache.cap = s.cache.cap ∧
      t.cache.hashTable = s.cache.hashTable ∧ t.cache.freeList = s.cache.freeList ∧
      t.cache.waitList = s.cache.waitList)
    (hlock : (t.cache.buffers bf).lock = (s.cache.buffers bf).lock)
    (hflag : (t.cache.buffers bf).valid = (s.cache.buffers bf).valid)
    (hphase : phase = .idle ∧ (s.cache.buffers bf).valid = true ∨
      (∃ k release, phase = .write bf k release ∧ k ≤ 2 ∧ (s.cache.buffers bf).valid = true) ∨
      (∃ k k', s.phase task = .read bf k ∧ phase = .read bf k' ∧ k' < 2) ∨
      phase = .lock bf ∧ ∀ k, s.phase task ≠ .read bf k) : t.Ordered := by
  have hlt := h.lt_of_held hmem
  have hfree : (s.cache.buffers bf).valid = true → (t.cache.buffers bf).lock = none :=
    fun hvalid => hlock.trans (h.unlocked hlt hvalid)
  refine h.local ⟨hmem, hsource, ?_, hphases, hheld, hother, hkey, hlists, fun hvalid => hflag.trans hvalid,
    ?_, fun u _ hu => ⟨hlock.trans hu, hflag⟩, ?_, ?_, ?_⟩
  · rcases hphase with ⟨rfl, -⟩ | ⟨k, release, rfl, -⟩ | ⟨k, k', -, rfl, -⟩ | ⟨rfl, -⟩
    · exact trivial
    · exact rfl
    · exact rfl
    · exact rfl
  · rcases hphase with ⟨rfl, hvalid⟩ | ⟨k, release, rfl, -, hvalid⟩ | ⟨k, k', -, rfl, -⟩ | ⟨rfl, -⟩
    · exact Or.inl (hflag.trans hvalid)
    · exact Or.inl (hflag.trans hvalid)
    · exact Or.inr (Or.inr ⟨k', rfl⟩)
    · exact Or.inr (Or.inl rfl)
  · rintro k rfl
    rcases hphase with ⟨heq, -⟩ | ⟨k, release, heq, -⟩ | ⟨k, k', hread, heq, hlt'⟩ | ⟨heq, -⟩
    · exact absurd heq (by simp)
    · exact absurd heq (by simp)
    · obtain ⟨-, hl, hv, -⟩ := h.reading hread
      obtain ⟨-, rfl⟩ := Phase.read.inj heq
      exact ⟨hlock.trans hl, hflag.trans hv, hlt'⟩
    · exact absurd heq (by simp)
  · rintro k release rfl
    rcases hphase with ⟨heq, -⟩ | ⟨k, release, heq, hk, hvalid⟩ | ⟨k, k', -, heq, -⟩ | ⟨heq, -⟩
    · exact absurd heq (by simp)
    · obtain ⟨-, rfl, -⟩ := Phase.write.inj heq
      exact ⟨hflag.trans hvalid, hk⟩
    · exact absurd heq (by simp)
    · exact absurd heq (by simp)
  · intro u hu
    rcases eq_or_ne u task with rfl | hne
    · obtain ⟨k, hread⟩ := h.locked hlt (hlock.symm.trans hu)
      rcases hphase with ⟨-, hvalid⟩ | ⟨k, release, -, -, hvalid⟩ | ⟨k, k', -, rfl, -⟩ | ⟨-, hno⟩
      · exact absurd ((hfree hvalid).symm.trans hu) (by simp)
      · exact absurd ((hfree hvalid).symm.trans hu) (by simp)
      · exact Or.inl ⟨rfl, k', rfl⟩
      · exact absurd hread (hno k)
    · exact Or.inr ⟨hne, hlock.symm.trans hu⟩

/-- A store into a buffer. -/
theorem Ordered.store {i : ℕ} {d : D} (hidle : s.phase task = .idle) (hmem : (task, bf) ∈ s.held) :
    ({ s with cache := s.cache.store bf i d } : CacheTasks D).Ordered := by
  have hself : (s.cache.store bf i d).buffers bf = { s.cache.buffers bf with
    data := Function.update (s.cache.buffers bf).data i d, dirty := true } := Cache.setBuffer_self _ _ _
  have hphase : s.phase = Function.update s.phase task .idle := by rw [← hidle, Function.update_eq_self]
  refine h.plain hmem ?_ hphase rfl (fun b hb => Cache.setBuffer_of_ne _ _ _ hb) ?_
    ⟨rfl, rfl, rfl, rfl, rfl⟩ ?_ ?_ (Or.inl ⟨rfl, h.valid_of_idle hidle hmem⟩)
  · rw [hidle]
    exact trivial
  · simp only [hself, and_self]
  · simp only [hself]
  · simp only [hself]

/-- A `bwrite` begins. -/
theorem Ordered.startWrite (release : Bool) (hidle : s.phase task = .idle)
    (hmem : (task, bf) ∈ s.held) : (s.goto task (.write bf 0 release)).Ordered := by
  refine h.plain hmem ?_ rfl rfl (fun _ _ => rfl) ⟨rfl, rfl, rfl⟩ ⟨rfl, rfl, rfl, rfl, rfl⟩ rfl rfl
    (Or.inr (Or.inl ⟨0, release, rfl, Nat.zero_le _, h.valid_of_idle hidle hmem⟩))
  rw [hidle]
  exact trivial

/-- A sector is written. -/
theorem Ordered.writeSector {k : ℕ} {release : Bool} (hphase : s.phase task = .write bf k release)
    (hk : k < 2) : ({ s with cache := s.cache.writeSector bf k }.goto task
      (.write bf (k + 1) release)).Ordered := by
  obtain ⟨hmem, hvalid, -⟩ := h.writing hphase
  refine h.plain hmem ?_ rfl rfl (fun _ _ => rfl) ⟨rfl, rfl, rfl⟩ ⟨rfl, rfl, rfl, rfl, rfl⟩ rfl rfl
    (Or.inr (Or.inl ⟨k + 1, release, rfl, hk, hvalid⟩))
  rw [hphase]
  exact rfl

/-- A `bwrite` ends. -/
theorem Ordered.endWrite {k : ℕ} {release : Bool} (hphase : s.phase task = .write bf k release) :
    ({ s with cache := s.cache.requestDone bf }.goto task .idle).Ordered := by
  obtain ⟨hmem, hvalid, -⟩ := h.writing hphase
  have hself : (s.cache.requestDone bf).buffers bf =
    { s.cache.buffers bf with dirty := false, valid := true } := Cache.setBuffer_self _ _ _
  refine h.plain hmem ?_ rfl rfl (fun b hb => Cache.setBuffer_of_ne _ _ _ hb) ?_
    ⟨rfl, rfl, rfl, rfl, rfl⟩ ?_ ?_ (Or.inl ⟨rfl, hvalid⟩)
  · rw [hphase]
    exact rfl
  · simp only [goto_cache, hself, and_self]
  · simp only [goto_cache, hself]
  · simp only [goto_cache, hself, hvalid]

/-- A sector is read. -/
theorem Ordered.readSector {k : ℕ} (hphase : s.phase task = .read bf k) (hk : k + 1 < 2) :
    ({ s with cache := s.cache.readSector bf k }.goto task (.read bf (k + 1))).Ordered := by
  obtain ⟨hmem, -⟩ := h.reading hphase
  have hself : (s.cache.readSector bf k).buffers bf = { s.cache.buffers bf with
      data := Function.update (s.cache.buffers bf).data k
        (s.cache.disk (s.cache.buffers bf).dev (Cache.sectorOf (s.cache.buffers bf).block k)) } :=
    Cache.setBuffer_self _ _ _
  refine h.plain hmem ?_ rfl rfl (fun b hb => Cache.setBuffer_of_ne _ _ _ hb) ?_
    ⟨rfl, rfl, rfl, rfl, rfl⟩ ?_ ?_ (Or.inr (Or.inr (Or.inl ⟨k, k + 1, hphase, rfl, hk⟩)))
  · rw [hphase]
    exact rfl
  · simp only [goto_cache, hself, and_self]
  · simp only [goto_cache, hself]
  · simp only [goto_cache, hself]

/-- The last sector is read, and the lock is given back. -/
theorem Ordered.endRead {k : ℕ} (hphase : s.phase task = .read bf k) :
    ({ s with cache := ((s.cache.readSector bf k).requestDone bf).setLock bf none }.goto task
      .idle).Ordered := by
  obtain ⟨hmem, hlock, -⟩ := h.reading hphase
  obtain ⟨b, hb⟩ : ∃ b, b = { s.cache.buffers bf with
      data := Function.update (s.cache.buffers bf).data k (s.cache.disk (s.cache.buffers bf).dev
        (Cache.sectorOf (s.cache.buffers bf).block k)), dirty := false, valid := true, lock := none } :=
    ⟨_, rfl⟩
  have hcache : ((s.cache.readSector bf k).requestDone bf).setLock bf none = s.cache.setBuffer bf b := by
    rw [hb]
    simp only [Cache.readSector, Cache.requestDone, Cache.setLock, Cache.setBuffer_self,
      Cache.setBuffer_setBuffer]
  rw [hcache]
  have hself : (s.cache.setBuffer bf b).buffers bf = b := Cache.setBuffer_self _ _ _
  have hvalid : b.valid = true := by rw [hb]
  have hnone : b.lock = none := by rw [hb]
  have hl : Local s ({ s with cache := s.cache.setBuffer bf b }.goto task .idle) task bf .idle := by
    refine ⟨hmem, ?_, trivial, rfl, rfl, fun c hc => Cache.setBuffer_of_ne _ _ _ hc, ?_,
      ⟨rfl, rfl, rfl, rfl, rfl⟩, fun _ => ?_, Or.inl ?_, fun u hu hlock' => ?_, fun _ hc => (by cases hc),
      fun _ _ hc => (by cases hc), fun u hu => ?_⟩
    · rw [hphase]
      exact rfl
    · rw [goto_cache, hself, hb]
      exact ⟨rfl, rfl, rfl⟩
    · rw [goto_cache, hself, hvalid]
    · rw [goto_cache, hself, hvalid]
    · exact absurd (Option.some.inj (hlock'.symm.trans hlock)) hu
    · rw [goto_cache, hself, hnone] at hu
      exact absurd hu (by simp)
  exact h.local hl

/-- `bread` behind `getblk`. -/
theorem Ordered.acquire (hphase : s.phase task = .lock bf) : (s.acquire task bf).Ordered := by
  have hmem := h.locking hphase
  have hat : At bf (s.phase task) := by
    rw [hphase]
    exact rfl
  rw [CacheTasks.acquire]
  by_cases hvalid : (s.cache.buffers bf).valid = true
  · rw [if_pos hvalid]
    exact h.plain hmem hat rfl rfl (fun _ _ => rfl) ⟨rfl, rfl, rfl⟩ ⟨rfl, rfl, rfl, rfl, rfl⟩ rfl rfl
      (Or.inl ⟨rfl, hvalid⟩)
  rw [if_neg hvalid]
  by_cases hlock : (s.cache.buffers bf).lock = none
  · rw [if_pos hlock]
    have hself : (s.cache.setLock bf (some task)).buffers bf =
      { s.cache.buffers bf with lock := some task } := Cache.setBuffer_self _ _ _
    have hfalse : (s.cache.buffers bf).valid = false := Bool.eq_false_iff.mpr hvalid
    have htarget : At bf (.read bf 0) := rfl
    refine h.local ⟨hmem, hat, htarget, rfl, rfl, fun c hc => Cache.setBuffer_of_ne _ _ _ hc, ?_,
      ⟨rfl, rfl, rfl, rfl, rfl⟩, fun hv => absurd hv hvalid, Or.inr (Or.inr ⟨0, rfl⟩), fun u _ hu => ?_,
      fun k hk => ?_, fun _ _ hc => (by cases hc), fun u hu => ?_⟩
    · simp only [goto_cache, hself, and_self]
    · exact absurd (hlock.symm.trans hu) (by simp)
    · obtain ⟨-, rfl⟩ := Phase.read.inj hk
      simp only [goto_cache, hself, hfalse, Nat.two_pos, and_self]
    · rw [goto_cache, hself] at hu
      exact Or.inl ⟨(Option.some.inj hu).symm, 0, rfl⟩
  · rw [if_neg hlock]
    exact h.plain hmem hat rfl rfl (fun _ _ => rfl) ⟨rfl, rfl, rfl⟩ ⟨rfl, rfl, rfl, rfl, rfl⟩ rfl rfl
      (Or.inr (Or.inr (Or.inr ⟨rfl, fun k hk => by rw [hphase] at hk; cases hk⟩)))

/-- `getblk` has found a buffer, which the task is about to lock. -/
theorem Ordered.got {u : Cache D} (hidle : s.phase task = .idle)
    (hgot : s.cache.Got s.refs dev block bf u) (hcount : s.refs bf < 2147483648) :
    ({ s with cache := u, held := (task, bf) :: s.held }.goto task (.lock bf) : CacheTasks D).Ordered := by
  obtain ⟨t, ht⟩ : ∃ t : CacheTasks D,
      t = { s with cache := u, held := (task, bf) :: s.held }.goto task (.lock bf) := ⟨_, rfl⟩
  have hcache : t.cache = u := by rw [ht]; rfl
  have hheld : t.held = (task, bf) :: s.held := by rw [ht]; rfl
  have hself : t.phase task = .lock bf := by
    rw [ht]
    exact goto_phase_self _
  have hother : ∀ {v}, v ≠ task → t.phase v = s.phase v := fun {v} hv => by
    rw [ht]
    exact goto_phase_of_ne _ hv
  have hrefs : t.refs = Function.update s.refs bf (s.refs bf + 1) := by
    funext b
    rw [refs, hheld, List.map_cons]
    rcases eq_or_ne b bf with rfl | hne
    · rw [Function.update_self, List.count_cons_self, refs]
    · rw [Function.update_of_ne hne, List.count_cons_of_ne hne.symm, refs]
  -- a buffer that was held is the same, the counter apart
  have hkeep : ∀ {v b}, (v, b) ∈ s.held → ∃ c, u.buffers b = { s.cache.buffers b with count := c } := by
    intro v b hv
    rcases eq_or_ne b bf with rfl | hne
    · rcases hgot.origin with ⟨-, hbuf⟩ | ⟨hzero, -⟩
      · exact ⟨_, hbuf⟩
      · exact absurd hzero (refs_pos hv).ne'
    · exact ⟨_, hgot.same.buffers b hne⟩
  rw [← ht]
  refine ⟨?_, fun b => ?_, fun {v} => ?_, ?_, fun {v b} hv => ?_, fun {v b} hv => ?_, fun {v b k} hv => ?_,
    fun {v b k release} hv => ?_, fun {v b} hb hlock => ?_⟩
  · rw [hcache, hrefs]
    exact hgot.pool
  · rw [hrefs]
    rcases eq_or_ne b bf with rfl | hne
    · rw [Function.update_self]
      exact hcount
    · rw [Function.update_of_ne hne]
      exact h.bound b
  · rw [hcache, hgot.same.waitList, h.mem_wait]
    rcases eq_or_ne v task with rfl | hne
    · rw [hself, hidle]
      simp
    · rw [hother hne]
  · rw [hcache, hgot.same.waitList]
    exact h.wait_nodup
  · rw [hcache]
    rw [hheld, List.mem_cons, Prod.mk.injEq] at hv
    rcases hv with ⟨rfl, rfl⟩ | hv
    · exact Or.inr (Or.inl hself)
    · obtain ⟨c, hc⟩ := hkeep hv
      rw [hc]
      rcases h.valid hv with hvalid | hphase
      · exact Or.inl hvalid
      · rcases eq_or_ne v task with rfl | hne
        · rw [hidle] at hphase
          simp at hphase
        · rw [hother hne]
          exact Or.inr hphase
  · rw [hheld]
    rcases eq_or_ne v task with rfl | hne
    · rw [hself] at hv
      obtain rfl := Phase.lock.inj hv
      exact List.mem_cons_self
    · rw [hother hne] at hv
      exact List.mem_cons_of_mem _ (h.locking hv)
  · rw [hheld, hcache]
    rcases eq_or_ne v task with rfl | hne
    · rw [hself] at hv
      exact absurd hv (by simp)
    · rw [hother hne] at hv
      obtain ⟨hmem, hrest⟩ := h.reading hv
      obtain ⟨c, hc⟩ := hkeep hmem
      rw [hc]
      exact ⟨List.mem_cons_of_mem _ hmem, hrest⟩
  · rw [hheld, hcache]
    rcases eq_or_ne v task with rfl | hne
    · rw [hself] at hv
      exact absurd hv (by simp)
    · rw [hother hne] at hv
      obtain ⟨hmem, hrest⟩ := h.writing hv
      obtain ⟨c, hc⟩ := hkeep hmem
      rw [hc]
      exact ⟨List.mem_cons_of_mem _ hmem, hrest⟩
  · rw [hcache] at hb hlock
    have hread : ∃ k, s.phase v = .read b k := by
      rcases eq_or_ne b bf with rfl | hne
      · rcases hgot.origin with ⟨hlt, hbuf⟩ | ⟨-, -, -, hnone, -⟩
        · rw [hbuf] at hlock
          exact h.locked hlt hlock
        · exact absurd (hnone.symm.trans hlock) (by simp)
      · rw [hgot.same.buffers b hne] at hlock
        exact h.locked ((hgot.same.made b hne).mp hb) hlock
    obtain ⟨k, hphase⟩ := hread
    have hne : v ≠ task := by
      rintro rfl
      exact absurd (hidle.symm.trans hphase) (by simp)
    rw [hother hne]
    exact ⟨k, hphase⟩

/-- There is no buffer, and the task waits. -/
theorem Ordered.wait (hidle : s.phase task = .idle) : (s.enter task dev block none).Ordered := by
  obtain ⟨t, ht⟩ : ∃ t, t = s.enter task dev block none := ⟨_, rfl⟩
  have hself : t.phase task = .wait dev block := by
    rw [ht]
    exact goto_phase_self _
  have hother : ∀ {v}, v ≠ task → t.phase v = s.phase v := fun {v} hv => by
    rw [ht]
    exact goto_phase_of_ne _ hv
  have hwait : t.cache.waitList = task :: s.cache.waitList := by rw [ht]; rfl
  have hnot : task ∉ s.cache.waitList := fun hmem => by
    obtain ⟨dev', block', hphase⟩ := h.mem_wait.mp hmem
    exact absurd (hidle.symm.trans hphase) (by simp)
  have hbuf : t.cache.buffers = s.cache.buffers := by rw [ht]; rfl
  have hheld : t.held = s.held := by rw [ht]; rfl
  rw [← ht]
  refine ⟨?_, fun b => ?_, fun {v} => ?_, ?_, fun {v b} hv => ?_, fun {v b} hv => ?_, fun {v b k} hv => ?_,
    fun {v b k release} hv => ?_, fun {v b} hb hlock => ?_⟩
  · have hpool := h.pool
    rw [ht]
    exact ⟨hpool.made_le, hpool.mem_chain, hpool.chain_nodup, hpool.uniq, hpool.mem_free, hpool.free_nodup,
      hpool.count, hpool.refs_zero, hpool.clean⟩
  · rw [refs, hheld]
    exact h.bound b
  · rw [hwait, List.mem_cons, h.mem_wait]
    rcases eq_or_ne v task with rfl | hne
    · rw [hself]
      exact iff_of_true (Or.inl rfl) ⟨dev, block, rfl⟩
    · rw [hother hne]
      exact or_iff_right hne
  · rw [hwait]
    exact List.nodup_cons.mpr ⟨hnot, h.wait_nodup⟩
  · rw [hheld] at hv
    rw [hbuf]
    rcases eq_or_ne v task with rfl | hne
    · exact Or.inl (h.valid_of_idle hidle hv)
    · rw [hother hne]
      exact h.valid hv
  · rcases eq_or_ne v task with rfl | hne
    · exact absurd (hself.symm.trans hv) (by simp)
    · rw [hheld]
      rw [hother hne] at hv
      exact h.locking hv
  · rcases eq_or_ne v task with rfl | hne
    · exact absurd (hself.symm.trans hv) (by simp)
    · rw [hheld, hbuf]
      rw [hother hne] at hv
      exact h.reading hv
  · rcases eq_or_ne v task with rfl | hne
    · exact absurd (hself.symm.trans hv) (by simp)
    · rw [hheld, hbuf]
      rw [hother hne] at hv
      exact h.writing hv
  · rw [hbuf] at hlock
    have hb' : b < s.cache.made := by
      rw [ht] at hb
      exact hb
    obtain ⟨k, hphase⟩ := h.locked hb' hlock
    have hne : v ≠ task := by
      rintro rfl
      exact absurd (hidle.symm.trans hphase) (by simp)
    rw [hother hne]
    exact ⟨k, hphase⟩

/-- **`brelse` behind `bwrite`**, when no task waits for the buffer. -/
theorem Ordered.put (hidle : s.phase task = .idle) (hmem : (task, bf) ∈ s.held)
    (hdirty : (s.cache.buffers bf).dirty = false) (hwait : s.refs bf = 1 → s.cache.waitList = []) :
    ∃ t, s.put task bf = some t ∧ t.Ordered ∧ t.phase = s.phase ∧ t.held = s.held.erase (task, bf) ∧
      Cache.SameOutside s.cache t.cache bf ∧ t.cache.made = s.cache.made ∧
      ∃ c, t.cache.buffers bf = { s.cache.buffers bf with count := c } := by
  have hlt := h.lt_of_held hmem
  have hvalid := h.valid_of_idle hidle hmem
  obtain ⟨u, hput, hpool, hsame, hmade, hself⟩ := h.pool.putBuffer hlt (refs_pos hmem) (h.bound bf)
    (fun _ => ⟨hdirty, hvalid, h.unlocked hlt hvalid⟩) hwait
  obtain ⟨t, ht⟩ : ∃ t : CacheTasks D,
      t = { s with cache := u, held := s.held.erase (task, bf) }.goto task .idle := ⟨_, rfl⟩
  have hcache : t.cache = u := by rw [ht]; rfl
  have hheld : t.held = s.held.erase (task, bf) := by rw [ht]; rfl
  have hphase : t.phase = s.phase := by
    rw [ht, goto]
    simp only [← hidle, Function.update_eq_self]
  have hkeep : ∀ b, ∃ c, u.buffers b = { s.cache.buffers b with count := c } := by
    intro b
    rcases eq_or_ne b bf with rfl | hne
    · exact ⟨_, hself⟩
    · exact ⟨_, hsame.buffers b hne⟩
  have hsub : ∀ {v b}, (v, b) ∈ t.held → (v, b) ∈ s.held := fun {v b} hv => by
    rw [hheld] at hv
    exact List.mem_of_mem_erase hv
  have hsup : ∀ {v b}, v ≠ task → (v, b) ∈ s.held → (v, b) ∈ t.held := fun {v b} hv hb => by
    rw [hheld]
    refine (List.mem_erase_of_ne ?_).mpr hb
    rintro heq
    exact hv (Prod.mk.inj heq).1
  have hrefs : t.refs = Function.update s.refs bf (s.refs bf - 1) := by
    have hperm := (List.perm_cons_erase hmem).map Prod.snd
    funext b
    have hcount := hperm.count_eq b
    rw [List.map_cons] at hcount
    rw [refs, hheld]
    rcases eq_or_ne b bf with rfl | hne
    · rw [List.count_cons_self] at hcount
      rw [Function.update_self, refs, hcount, Nat.add_sub_cancel]
    · rw [List.count_cons_of_ne hne.symm] at hcount
      rw [Function.update_of_ne hne, refs, hcount]
  refine ⟨t, ?_, ?_, hphase, hheld, by rw [hcache]; exact hsame, by rw [hcache]; exact hmade,
    by rw [hcache]; exact ⟨_, hself⟩⟩
  · rw [CacheTasks.put, hput, ht]
    rfl
  refine ⟨?_, fun b => ?_, fun {v} => ?_, ?_, fun {v b} hv => ?_, fun {v b} hv => ?_, fun {v b k} hv => ?_,
    fun {v b k release} hv => ?_, fun {v b} hb hlock => ?_⟩
  · rw [hcache, hrefs]
    exact hpool
  · rw [hrefs]
    rcases eq_or_ne b bf with rfl | hne
    · rw [Function.update_self]
      exact (Nat.sub_le _ _).trans (h.bound b)
    · rw [Function.update_of_ne hne]
      exact h.bound b
  · rw [hcache, hsame.waitList, hphase]
    exact h.mem_wait
  · rw [hcache, hsame.waitList]
    exact h.wait_nodup
  · rw [hcache, hphase]
    obtain ⟨c, hc⟩ := hkeep b
    rw [hc]
    exact h.valid (hsub hv)
  · rw [hphase] at hv
    refine hsup ?_ (h.locking hv)
    rintro rfl
    exact absurd (hidle.symm.trans hv) (by simp)
  · rw [hphase] at hv
    obtain ⟨hmem', hrest⟩ := h.reading hv
    obtain ⟨c, hc⟩ := hkeep b
    rw [hcache, hc]
    refine ⟨hsup ?_ hmem', hrest⟩
    rintro rfl
    exact absurd (hidle.symm.trans hv) (by simp)
  · rw [hphase] at hv
    obtain ⟨hmem', hrest⟩ := h.writing hv
    obtain ⟨c, hc⟩ := hkeep b
    rw [hcache, hc]
    refine ⟨hsup ?_ hmem', hrest⟩
    rintro rfl
    exact absurd (hidle.symm.trans hv) (by simp)
  · rw [hcache] at hb hlock
    obtain ⟨c, hc⟩ := hkeep b
    rw [hc] at hlock
    rw [hphase]
    exact h.locked (hmade ▸ hb) hlock

end Steps

end CacheTasks

end Onixs
