import Onixs.Common.Run
import Onixs.Lib.Queue

/-!
# Reading characters

`serial_read` of `kernel/serial.c` and `keyboard_read` of `kernel/keyboard.c`, with any number of tasks, and the
interrupts that put characters into the ring. A task takes the lock, and is blocked with it where the ring is empty;
others wait for the lock. A system call runs with interrupts disabled, so that a step is all that a task does up to the
next place where it is blocked or yields, or to its return.

`CharReader.asked`, `CharReader.arrived`, `CharReader.part` and `CharReader.done` are kept for the statements: how many
characters a call is to take, the characters that have been put into the ring, those that the call with the lock has
taken, and the calls that are through with those they have taken.
-/

namespace Onixs

open Bytes

/-- What one of the two functions has and the other has not. -/
structure CharDevice where
  /-- An assertion that no other task waits for a character. -/
  checks : Bool
  /-- What the interrupt makes of a character. -/
  convert : Byte → Byte

/-- The serial line: a carriage return becomes a line feed. -/
def serial : CharDevice where
  checks := true
  convert ch := if ch = 13#8 then 10#8 else ch

/-- The keyboard. Which character a key gives is `Onixs.Keyboard.handler`. -/
def keyboard : CharDevice where
  checks := false
  convert ch := ch

/-- Where a task is. The number says how many characters the call has still to take. -/
inductive ReadPhase where
  /-- In neither function. -/
  | idle
  /-- In `mutex_lock`, behind `task_block`, `TASK_BLOCKED`. -/
  | waiting (left : ℕ)
  /-- In `mutex_lock`, behind `task_block`, `TASK_READY`. -/
  | woken (left : ℕ)
  /-- With the lock, behind `task_block`, `TASK_BLOCKED`. -/
  | blocked (left : ℕ)
  /-- With the lock, behind `task_block`, `TASK_READY`. -/
  | ready (left : ℕ)
  /-- In `mutex_unlock`, behind `task_yield`. -/
  | yielded
deriving DecidableEq

/-- The task has the lock. -/
def ReadPhase.Inside : ReadPhase → Prop
  | .blocked _ | .ready _ => True
  | _ => False

/-- The task waits for the lock. -/
def ReadPhase.Waits : ReadPhase → Prop
  | .waiting _ => True
  | _ => False

/-- The task is on its way to the lock. -/
def ReadPhase.Woken : ReadPhase → Prop
  | .woken _ => True
  | _ => False

/-- **How many characters are missing**, when the call has been asked for so many, and has taken so many if it has the
lock. -/
def ReadPhase.Counts (asked taken : ℕ) : ReadPhase → Prop
  | .waiting left | .woken left => left = asked
  | .blocked left | .ready left => left + taken = asked
  | .idle | .yielded => True

theorem ReadPhase.Counts.of_outside {p : ReadPhase} {asked taken : ℕ} (h : p.Counts asked taken) (hout : ¬p.Inside)
    (taken' : ℕ) : p.Counts asked taken' := by
  cases p with
  | blocked | ready => exact absurd trivial hout
  | idle | waiting | woken | yielded => exact h

/-- The ring, its lock and the tasks. -/
structure CharReader where
  /-- `rx_fifo`, or `fifo`. -/
  fifo : Fifo
  /-- `rx_waiter`, or `waiter`. -/
  waiter : Option ℕ
  /-- `lock.holder`. -/
  holder : Option ℕ
  /-- `lock.repeat`. -/
  repeats : ℕ
  /-- `lock.mutex.value`. -/
  value : Bool
  /-- `lock.mutex.waiters`. -/
  waiters : List ℕ
  /-- Where each task is. -/
  phase : ℕ → ReadPhase
  /-- How many characters the call of a task is to take. -/
  asked : ℕ → ℕ
  /-- The characters that have come. -/
  arrived : List Byte
  /-- What the call with the lock has taken. -/
  part : List Byte
  /-- The calls that are through: the task, how many characters it was to take, and those that it has. -/
  done : List (ℕ × ℕ × List Byte)

namespace CharReader

variable (dev : CharDevice) (s : CharReader)

/-- A task is somewhere else. -/
def goto (task : ℕ) (phase : ReadPhase) : CharReader :=
  { s with phase := fun t => if t = task then phase else s.phase t }

/-- `task_unblock`, of a task in the list of the mutex. -/
def unblock (task : ℕ) : Option CharReader := do
  assert (task ∈ s.waiters)
  match s.phase task with
  | .waiting left => return { s with waiters := s.waiters.erase task }.goto task (.woken left)
  | _ => none

/-- `mutex_unlock`, up to `task_yield` or to its end. -/
def mutexUnlock (task : ℕ) : Option CharReader := do
  assert (s.value = true)
  let s := { s with value := false }
  match s.waiters.getLast? with
  | none => return s.goto task .idle
  | some waiter => do
      let s ← s.unblock waiter
      return s.goto task .yielded

/-- `lock_release`. -/
def lockRelease (task : ℕ) : Option CharReader := do
  assert (s.holder = some task)
  if 1 < s.repeats then
    return { s with repeats := s.repeats - 1 }.goto task .idle
  assert (s.repeats = 1)
  mutexUnlock { s with holder := none, repeats := 0 } task

/-- The loops of the two functions, and what comes behind them. -/
def readLoop (task : ℕ) : ℕ → CharReader → Option CharReader
  | 0, s => lockRelease { s with done := s.done ++ [(task, s.asked task, s.part)], part := [] } task
  | left + 1, s =>
      if s.fifo.empty then do
        assert (dev.checks = true → s.waiter = none)
        return { s with waiter := some task }.goto task (.blocked (left + 1))
      else do
        let (byte, fifo) ← s.fifo.get
        readLoop task left { s with fifo := fifo, part := s.part ++ [byte] }

/-- `mutex_lock`, the rest of `lock_acquire`, and the loops. -/
def mutexLock (task left : ℕ) : Option CharReader :=
  if s.value = true then
    some ({ s with waiters := task :: s.waiters }.goto task (.waiting left))
  else do
    assert (s.repeats = 0)
    readLoop dev task left { s with value := true, holder := some task, repeats := 1 }

/-- A task is to take so many characters. -/
def ask (task count : ℕ) : CharReader := { s with asked := fun t => if t = task then count else s.asked t }

/-- What the two functions do: `lock_acquire`, and the loops. -/
def read (task count : ℕ) : Option CharReader :=
  let s := s.ask task count
  if s.holder = some task then
    readLoop dev task count { s with repeats := u32 (s.repeats + 1) }
  else
    s.mutexLock dev task count

/-- The end of the two handlers, with the character that has come. -/
def receive (ch : Byte) : Option CharReader := do
  let fifo ← s.fifo.put (dev.convert ch)
  let s := { s with fifo := fifo, arrived := s.arrived ++ [dev.convert ch] }
  match s.waiter with
  | none => return s
  | some task =>
      match s.phase task with
      | .blocked left => return { s with waiter := none }.goto task (.ready left)
      | _ => none

/-- `serial_read`. -/
def serialRead (task count : ℕ) : Option CharReader := s.read serial task count

/-- `recv_data`. -/
def recvData (ch : Byte) : Option CharReader := s.receive serial ch

/-- `keyboard_read`. -/
def keyboardRead (task count : ℕ) : Option CharReader := s.read keyboard task count

end CharReader

/-- What a task does, or the device. -/
inductive CharOp where
  /-- A task calls `serial_read`, or `keyboard_read`. -/
  | read (task count : ℕ)
  /-- The scheduler picks it, and `task_block` or `task_yield` returns. -/
  | resume (task : ℕ)
  /-- An interrupt, with a character. -/
  | receive (ch : Byte)

namespace CharReader

variable (dev : CharDevice) (s : CharReader)

/-- A step. No value means that an assertion fails. -/
def step : CharOp → Option (Unit × CharReader)
  | .read task count => (s.read dev task count).map fun t => ((), t)
  | .resume task =>
      match s.phase task with
      | .woken left => (s.mutexLock dev task left).map fun t => ((), t)
      | .ready left => (readLoop dev task left s).map fun t => ((), t)
      | .yielded => some ((), s.goto task .idle)
      | _ => none
  | .receive ch => (s.receive dev ch).map fun t => ((), t)

/-- A task makes a call when it is in none, and goes on when it is `TASK_READY`. -/
def Legal : CharOp → Prop
  | .read task _ => s.phase task = .idle
  | .resume task => s.phase task = .yielded ∨ (∃ left, s.phase task = .woken left) ∨ ∃ left, s.phase task = .ready left
  | .receive _ => True

/-- **The ring has room** for a character that comes. -/
def Clear : CharOp → Prop
  | .receive _ => s.fifo.size + 1 < s.fifo.length
  | _ => True

/-- After `fifo_init` and `lock_init`, and no task in one of the functions. -/
structure Start : Prop where
  /-- The ring. -/
  fifo : ∃ buf length, 2 ≤ length ∧ s.fifo = fifoInit buf length
  /-- Nobody waits for a character. -/
  waiter : s.waiter = none
  /-- The lock. -/
  lock : s.holder = none ∧ s.repeats = 0 ∧ s.value = false ∧ s.waiters = []
  /-- All tasks are elsewhere. -/
  phase : ∀ task, s.phase task = .idle
  /-- No character has come or gone. -/
  fresh : s.arrived = [] ∧ s.part = [] ∧ s.done = []

/-- **Where the characters are**: with the calls that are through, one after the other, with the call that has the lock,
and in the ring. -/
def stream : List Byte := s.done.flatMap (·.2.2) ++ s.part ++ s.fifo.contents

/-- **What the lock and the waiter are for.** -/
structure Calm : Prop where
  /-- One call at most takes characters. -/
  alone : ∀ {task task'}, (s.phase task).Inside → (s.phase task').Inside → task = task'
  /-- It is not blocked where there is one. -/
  blocked : ∀ {task left}, s.phase task = .blocked left → s.waiter = some task ∧ s.fifo.contents = []
  /-- Who waits for the lock waits for a task that has it, or for one on its way to it. -/
  waits : ∀ {task}, (s.phase task).Waits → ∃ other, (s.phase other).Inside ∨ (s.phase other).Woken
  /-- Characters are taken in the order in which they have come, each at most once. -/
  kept : s.stream.Sublist s.arrived
  /-- A call that is through has taken as many as it was to take. -/
  whole : ∀ d ∈ s.done, d.2.2.length = d.2.1

/-! ### What every step keeps -/

/-- The lock is free. -/
structure Free : Prop where
  /-- The mutex. -/
  value : s.value = false
  /-- Its holder. -/
  holder : s.holder = none
  /-- Its counter. -/
  repeats : s.repeats = 0
  /-- Nobody waits for a character. -/
  waiter : s.waiter = none
  /-- Nothing is half read. -/
  part : s.part = []
  /-- Nobody has it. -/
  outside : ∀ t, ¬(s.phase t).Inside

/-- A task has the lock. -/
structure Held (task : ℕ) : Prop where
  /-- The mutex. -/
  value : s.value = true
  /-- Its holder. -/
  holder : s.holder = some task
  /-- Its counter. -/
  repeats : s.repeats = 1
  /-- Nobody else has it. -/
  outside : ∀ t ≠ task, ¬(s.phase t).Inside

/-- Where the task with the lock is: blocked at an empty ring, or ready. -/
def Stops (task : ℕ) : Prop :=
  (∃ left, s.phase task = .blocked left) ∧ s.waiter = some task ∧ s.fifo.size = 0 ∨
    (∃ left, s.phase task = .ready left) ∧ s.waiter = none

/-- The list of the mutex has the tasks of `P` that wait, and these are right about what is missing. -/
structure Listed (P : ℕ → Prop) : Prop where
  /-- The tasks. -/
  mem : ∀ t, P t → (t ∈ s.waiters ↔ (s.phase t).Waits)
  /-- Each of them once. -/
  nodup : s.waiters.Nodup
  /-- What is missing. -/
  counts : ∀ t, P t → (s.phase t).Counts (s.asked t) s.part.length

/-- **The invariant.** -/
structure Sound : Prop where
  /-- The ring. -/
  wf : s.fifo.WF
  /-- The list of the mutex. -/
  listed : s.Listed fun _ => True
  /-- The lock. -/
  lock : s.Free ∨ ∃ task, s.Held task ∧ s.Stops task
  /-- Where tasks wait, somebody has the lock, or is on the way to it. -/
  wake : s.waiters ≠ [] → s.value = true ∨ ∃ t, (s.phase t).Woken
  /-- The characters. -/
  kept : s.stream.Sublist s.arrived
  /-- The calls that are through. -/
  whole : ∀ d ∈ s.done, d.2.2.length = d.2.1

/-- A task runs with the lock. -/
structure Runs (task : ℕ) : Prop where
  /-- The ring. -/
  wf : s.fifo.WF
  /-- The list of the mutex. -/
  listed : s.Listed fun t => t ≠ task
  /-- It is not in there. -/
  notMem : task ∉ s.waiters
  /-- The lock. -/
  held : s.Held task
  /-- Nobody waits for a character. -/
  waiter : s.waiter = none
  /-- The characters. -/
  kept : s.stream.Sublist s.arrived
  /-- The calls that are through. -/
  whole : ∀ d ∈ s.done, d.2.2.length = d.2.1

/-- A step of a task that leaves the characters where they are, or takes some of them. -/
structure Took (t : CharReader) : Prop where
  /-- The characters are still there. -/
  stream : t.stream = s.stream
  /-- No other has come. -/
  arrived : t.arrived = s.arrived

variable {s} {t : CharReader} {task : ℕ} {p : ReadPhase}

theorem goto_phase_self : (s.goto task p).phase task = p := if_pos rfl

theorem goto_phase_of_ne {i : ℕ} (h : i ≠ task) : (s.goto task p).phase i = s.phase i := if_neg h

/-- **What holds of every task** where one of them is put elsewhere. -/
theorem forall_goto {Q : ℕ → ReadPhase → Prop} (hself : Q task p) (hother : ∀ i ≠ task, Q i (s.phase i)) (i : ℕ) :
    Q i ((s.goto task p).phase i) := by
  by_cases hi : i = task
  · subst hi
    rw [goto_phase_self]
    exact hself
  · rw [goto_phase_of_ne hi]
    exact hother i hi

theorem outside_goto (hp : ¬p.Inside) (hother : ∀ i ≠ task, ¬(s.phase i).Inside) (i : ℕ) :
    ¬((s.goto task p).phase i).Inside :=
  forall_goto (Q := fun _ q => ¬q.Inside) hp hother i

theorem Took.trans {u : CharReader} (h : s.Took t) (h' : t.Took u) : s.Took u :=
  ⟨h'.stream.trans h.stream, h'.arrived.trans h.arrived⟩

theorem Took.kept (h : s.Took t) (hs : s.stream.Sublist s.arrived) : t.stream.Sublist t.arrived := by
  rw [h.stream, h.arrived]
  exact hs

/-- The list is that of a task that is put elsewhere, and not among those that wait. -/
theorem Listed.goto (h : s.Listed fun t => t ≠ task) (hmem : task ∉ s.waiters) (hp : ¬p.Waits)
    (hcounts : p.Counts (s.asked task) s.part.length) : (s.goto task p).Listed fun _ => True := by
  refine ⟨fun i _ => ?_, h.nodup, fun i _ => ?_⟩
  · exact forall_goto (Q := fun j q => j ∈ s.waiters ↔ q.Waits) (iff_of_false hmem hp) h.mem i
  · exact forall_goto (Q := fun j q => q.Counts (s.asked j) s.part.length) hcounts h.counts i

/-! ### Giving the lock back -/

/-- **`lock_release`** leaves the lock free, and somebody on the way to it if there is somebody. -/
theorem Runs.lockRelease (h : s.Runs task) (hpart : s.part = []) :
    ∃ t, s.lockRelease task = some t ∧ t.Sound ∧ s.Took t := by
  have hne : ¬1 < s.repeats := by
    rw [h.held.repeats]
    exact Nat.lt_irrefl 1
  rw [CharReader.lockRelease, assert_pos h.held.holder]
  simp only [Option.bind_eq_bind, Option.bind_some, if_neg hne, assert_pos h.held.repeats]
  rw [mutexUnlock, assert_pos h.held.value]
  simp only [Option.bind_eq_bind, Option.bind_some]
  cases hlast : s.waiters.getLast? with
  | none =>
    have hnil : s.waiters = [] := List.getLast?_eq_none_iff.mp hlast
    have hlisted : CharReader.Listed { s with holder := none, repeats := 0, value := false } fun t => t ≠ task :=
      ⟨h.listed.mem, h.listed.nodup, h.listed.counts⟩
    refine ⟨_, rfl, ⟨h.wf, hlisted.goto h.notMem id trivial, Or.inl ?_, fun hc => absurd hnil hc, h.kept, h.whole⟩,
      ⟨rfl, rfl⟩⟩
    exact ⟨rfl, rfl, rfl, h.waiter, hpart, outside_goto id h.held.outside⟩
  | some w =>
    have hw : w ∈ s.waiters := List.mem_of_getLast? hlast
    have hwt : w ≠ task := fun hc => h.notMem (hc ▸ hw)
    obtain ⟨left, hphase⟩ : ∃ left, s.phase w = .waiting left := by
      have hwaits := (h.listed.mem w hwt).mp hw
      cases hp : s.phase w with
      | waiting left => exact ⟨left, rfl⟩
      | _ =>
        rw [hp] at hwaits
        exact hwaits.elim
    simp only [unblock, assert_pos hw, hphase, Option.bind_eq_bind, Option.bind_some, Option.pure_def]
    have hcounts := h.listed.counts w hwt
    rw [hphase] at hcounts
    refine ⟨_, rfl, ⟨h.wf, ?_, Or.inl ⟨rfl, rfl, rfl, h.waiter, hpart, outside_goto id fun i hi => ?_⟩,
      fun _ => Or.inr ⟨w, ?_⟩, h.kept, h.whole⟩, ⟨rfl, rfl⟩⟩
    · -- the waiter leaves the list, and is woken
      refine Listed.goto ⟨fun i hi => ?_, h.listed.nodup.erase w, fun i hi => ?_⟩
        (fun hc => h.notMem (List.mem_of_mem_erase hc)) id trivial
      · refine forall_goto (Q := fun j q => j ≠ task → (j ∈ s.waiters.erase w ↔ q.Waits)) (fun _ => ?_)
          (fun j hj hjt => ?_) i hi
        · exact iff_of_false (fun hc => (h.listed.nodup.mem_erase_iff.mp hc).1 rfl) id
        · exact (List.mem_erase_of_ne hj).trans (h.listed.mem j hjt)
      · exact forall_goto (p := .woken left) (Q := fun j q => j ≠ task → q.Counts (s.asked j) s.part.length)
          (fun _ => hcounts) (fun j _ hjt => h.listed.counts j hjt) i hi
    · exact forall_goto (Q := fun j q => j ≠ task → ¬q.Inside) (fun _ => id) (fun j _ hjt => h.held.outside j hjt) i hi
    · rw [goto_phase_of_ne hwt, goto_phase_self]
      trivial

/-! ### Taking characters -/

/-- The tasks without the lock, when the call with the lock takes something. -/
theorem Runs.counts (h : s.Runs task) (taken : ℕ) (i : ℕ) (hi : i ≠ task) : (s.phase i).Counts (s.asked i) taken :=
  (h.listed.counts i hi).of_outside (h.held.outside i hi) taken

/-- **The loop** ends where the ring is empty, or with the lock given back. -/
theorem Runs.readLoop (dev : CharDevice) : ∀ {left : ℕ} {s : CharReader}, s.Runs task →
    left + s.part.length = s.asked task → ∃ t, CharReader.readLoop dev task left s = some t ∧ t.Sound ∧ s.Took t := by
  intro left
  induction left with
  | zero =>
    intro s h hcount
    rw [Nat.zero_add] at hcount
    have htook : s.Took { s with done := s.done ++ [(task, s.asked task, s.part)], part := [] } := by
      refine ⟨?_, rfl⟩
      simp only [stream, List.flatMap_append, List.flatMap_cons, List.flatMap_nil, List.append_nil]
    have hruns : CharReader.Runs { s with done := s.done ++ [(task, s.asked task, s.part)], part := [] } task := by
      refine ⟨h.wf, ⟨h.listed.mem, h.listed.nodup, h.counts 0⟩, h.notMem,
        ⟨h.held.value, h.held.holder, h.held.repeats, h.held.outside⟩, h.waiter, htook.kept h.kept, fun d hd => ?_⟩
      rcases List.mem_append.mp hd with hd | hd
      · exact h.whole d hd
      · rw [List.mem_singleton.mp hd]
        exact hcount
    obtain ⟨t, hrun, ht, htook'⟩ := hruns.lockRelease rfl
    exact ⟨t, hrun, ht, htook.trans htook'⟩
  | succ left ih =>
    intro s h hcount
    rw [CharReader.readLoop]
    by_cases hempty : s.fifo.empty = true
    · rw [if_pos hempty, assert_pos fun _ => h.waiter]
      refine ⟨_, rfl, ⟨h.wf, ?_, Or.inr ⟨task, ⟨h.held.value, h.held.holder, h.held.repeats, fun i hi => ?_⟩,
        Or.inl ⟨⟨left + 1, goto_phase_self⟩, rfl, h.wf.empty_iff.mp hempty⟩⟩, fun _ => Or.inl h.held.value, h.kept,
        h.whole⟩, ⟨rfl, rfl⟩⟩
      · have hlisted : CharReader.Listed { s with waiter := some task } fun t => t ≠ task :=
          ⟨h.listed.mem, h.listed.nodup, h.listed.counts⟩
        exact hlisted.goto h.notMem id hcount
      · rw [goto_phase_of_ne hi]
        exact h.held.outside i hi
    · have hne : s.fifo.size ≠ 0 := fun hc => hempty (h.wf.empty_iff.mpr hc)
      obtain ⟨byte, fifo, hget, hwf, -, hcontents⟩ := h.wf.get hne
      have htook : s.Took { s with fifo := fifo, part := s.part ++ [byte] } := by
        refine ⟨?_, rfl⟩
        simp only [stream, hcontents, List.append_assoc, List.singleton_append]
      have hruns : CharReader.Runs { s with fifo := fifo, part := s.part ++ [byte] } task :=
        ⟨hwf, ⟨h.listed.mem, h.listed.nodup, h.counts _⟩, h.notMem,
          ⟨h.held.value, h.held.holder, h.held.repeats, h.held.outside⟩, h.waiter, htook.kept h.kept, h.whole⟩
      have hcount' : left + (s.part ++ [byte]).length = s.asked task := by
        rw [List.length_append, List.length_singleton]
        omega
      rw [if_neg hempty, hget]
      obtain ⟨t, hrun, ht, htook'⟩ := ih hruns hcount'
      exact ⟨t, hrun, ht, htook.trans htook'⟩

theorem Stops.inside (h : s.Stops task) : (s.phase task).Inside := by
  rcases h with ⟨⟨left, hp⟩, -⟩ | ⟨⟨left, hp⟩, -⟩ <;>
  · rw [hp]
    trivial

theorem Sound.notMem (h : s.Sound) (hp : ¬(s.phase task).Waits) : task ∉ s.waiters :=
  fun hc => hp ((h.listed.mem task trivial).mp hc)

/-- **The task that has the lock**, when it is blocked or ready. -/
theorem Sound.held (h : s.Sound) (hp : (s.phase task).Inside) : s.Held task ∧ s.Stops task := by
  rcases h.lock with hfree | ⟨other, hheld, hstops⟩
  · exact absurd hp (hfree.outside task)
  · by_cases hne : task = other
    · exact hne ▸ ⟨hheld, hstops⟩
    · exact absurd hp (hheld.outside task hne)

/-- **`mutex_lock`**, and what follows when the lock was free. -/
theorem Sound.mutexLock (dev : CharDevice) (h : s.Sound) (hin : ¬(s.phase task).Inside)
    (hwaits : ¬(s.phase task).Waits) {left : ℕ} (hcount : left = s.asked task) :
    ∃ t, s.mutexLock dev task left = some t ∧ t.Sound ∧ s.Took t := by
  have hmem := h.notMem hwaits
  rw [CharReader.mutexLock]
  rcases h.lock with hfree | ⟨other, hheld, hstops⟩
  · have hruns : CharReader.Runs { s with value := true, holder := some task, repeats := 1 } task :=
      ⟨h.wf, ⟨fun i _ => h.listed.mem i trivial, h.listed.nodup, fun i _ => h.listed.counts i trivial⟩, hmem,
        ⟨rfl, rfl, rfl, fun i _ => hfree.outside i⟩, hfree.waiter, h.kept, h.whole⟩
    have hcount' : left + s.part.length = s.asked task := by
      rw [hfree.part, hcount]
      rfl
    obtain ⟨t, hrun, ht, htook⟩ := hruns.readLoop dev hcount'
    rw [if_neg (by rw [hfree.value]; simp), assert_pos hfree.repeats]
    exact ⟨t, hrun, ht, ⟨htook.stream, htook.arrived⟩⟩
  · have hne : other ≠ task := fun hc => hin (hc ▸ hstops.inside)
    rw [if_pos hheld.value]
    refine ⟨_, rfl, ⟨h.wf, ⟨fun i _ => ?_, List.nodup_cons.mpr ⟨hmem, h.listed.nodup⟩, fun i _ => ?_⟩, Or.inr ⟨other,
      ⟨hheld.value, hheld.holder, hheld.repeats, fun i hi => ?_⟩, ?_⟩, fun _ => Or.inl hheld.value, h.kept, h.whole⟩,
      ⟨rfl, rfl⟩⟩
    · exact forall_goto (p := .waiting left) (Q := fun j q => j ∈ task :: s.waiters ↔ q.Waits)
        (iff_of_true List.mem_cons_self trivial)
        (fun j hj => (List.mem_cons.trans (or_iff_right hj)).trans (h.listed.mem j trivial)) i
    · exact forall_goto (p := .waiting left) (Q := fun j q => q.Counts (s.asked j) s.part.length) hcount
        (fun j _ => h.listed.counts j trivial) i
    · exact forall_goto (Q := fun j q => j ≠ other → ¬q.Inside) (fun _ => id) (fun j _ => hheld.outside j) i hi
    · rw [Stops, goto_phase_of_ne hne]
      exact hstops

/-- A task that is in none of the functions may ask for something. -/
theorem Sound.ask (h : s.Sound) (hidle : s.phase task = .idle) (count : ℕ) : (s.ask task count).Sound := by
  refine ⟨h.wf, ⟨h.listed.mem, h.listed.nodup, fun i _ => ?_⟩, ?_, h.wake, h.kept, h.whole⟩
  · have hcounts := h.listed.counts i trivial
    by_cases hi : i = task
    · subst hi
      have hphase : (s.ask i count).phase i = .idle := hidle
      rw [hphase]
      trivial
    · have hasked : (s.ask task count).asked i = s.asked i := if_neg hi
      rw [hasked]
      exact hcounts
  · rcases h.lock with hfree | ⟨other, hheld, hstops⟩
    · exact Or.inl ⟨hfree.value, hfree.holder, hfree.repeats, hfree.waiter, hfree.part, hfree.outside⟩
    · exact Or.inr ⟨other, ⟨hheld.value, hheld.holder, hheld.repeats, hheld.outside⟩, hstops⟩

/-- **A call.** -/
theorem Sound.read (dev : CharDevice) (h : s.Sound) (hidle : s.phase task = .idle) (count : ℕ) :
    ∃ t, s.read dev task count = some t ∧ t.Sound ∧ s.Took t := by
  have hin : ¬(s.phase task).Inside := by
    rw [hidle]
    exact id
  have hwaits : ¬(s.phase task).Waits := by
    rw [hidle]
    exact id
  have hholder : (s.ask task count).holder ≠ some task := by
    rcases h.lock with hfree | ⟨other, hheld, hstops⟩
    · exact fun hc => absurd (hfree.holder.symm.trans hc) (by simp)
    · exact fun hc => hin (Option.some.inj (hheld.holder.symm.trans hc) ▸ hstops.inside)
  have hasked : count = (s.ask task count).asked task := (if_pos rfl).symm
  obtain ⟨t, hrun, ht, htook⟩ := (h.ask hidle count).mutexLock dev hin hwaits hasked
  refine ⟨t, ?_, ht, ⟨htook.stream, htook.arrived⟩⟩
  rw [CharReader.read]
  simp only [if_neg hholder, hrun]

/-- **The task with the lock goes on.** -/
theorem Sound.ready (dev : CharDevice) (h : s.Sound) {left : ℕ} (hready : s.phase task = .ready left) :
    ∃ t, CharReader.readLoop dev task left s = some t ∧ t.Sound ∧ s.Took t := by
  have hin : (s.phase task).Inside := by
    rw [hready]
    trivial
  obtain ⟨hheld, hstops⟩ := h.held hin
  have hwaiter : s.waiter = none := by
    rcases hstops with ⟨⟨left', hp⟩, -⟩ | ⟨-, hwaiter⟩
    · exact absurd (hp.symm.trans hready) (by simp)
    · exact hwaiter
  have hruns : s.Runs task :=
    ⟨h.wf, ⟨fun i _ => h.listed.mem i trivial, h.listed.nodup, fun i _ => h.listed.counts i trivial⟩,
      h.notMem (by rw [hready]; exact id), hheld, hwaiter, h.kept, h.whole⟩
  have hcounts := h.listed.counts task trivial
  rw [hready] at hcounts
  exact hruns.readLoop dev hcounts

/-- **The task that gave the lock back** returns. -/
theorem Sound.yielded (h : s.Sound) (hyielded : s.phase task = .yielded) : (s.goto task .idle).Sound := by
  have hlisted : s.Listed fun t => t ≠ task :=
    ⟨fun i _ => h.listed.mem i trivial, h.listed.nodup, fun i _ => h.listed.counts i trivial⟩
  have hother : ∀ i, ((s.goto task .idle).phase i).Inside → (s.phase i).Inside :=
    forall_goto (Q := fun j q => q.Inside → (s.phase j).Inside) False.elim fun _ _ => id
  refine ⟨h.wf, hlisted.goto (h.notMem (by rw [hyielded]; exact id)) id trivial, ?_, fun hne => ?_, h.kept, h.whole⟩
  · rcases h.lock with hfree | ⟨other, hheld, hstops⟩
    · exact Or.inl ⟨hfree.value, hfree.holder, hfree.repeats, hfree.waiter, hfree.part,
        fun i hi => hfree.outside i (hother i hi)⟩
    · have hne : other ≠ task := by
        rintro rfl
        have hin := hstops.inside
        rw [hyielded] at hin
        exact hin
      refine Or.inr ⟨other, ⟨hheld.value, hheld.holder, hheld.repeats,
        fun i hi hin => hheld.outside i hi (hother i hin)⟩, ?_⟩
      rw [Stops, goto_phase_of_ne hne]
      exact hstops
  · refine (h.wake hne).imp_right fun ⟨i, hi⟩ => ⟨i, ?_⟩
    have hit : i ≠ task := by
      rintro rfl
      rw [hyielded] at hi
      exact hi
    rwa [goto_phase_of_ne hit]

/-! ### Characters that come -/

/-- `fifo_put` on a ring with room, and on a full one. -/
theorem put_cases {fifo : Fifo} (h : fifo.WF) (byte : Byte) : ∃ u, fifo.put byte = some u ∧ u.WF ∧
    u.contents = (if fifo.size + 1 < fifo.length then fifo.contents else fifo.contents.tail) ++ [byte] := by
  by_cases hroom : fifo.size + 1 < fifo.length
  · obtain ⟨u, hput, hwf, -, hcontents⟩ := h.put hroom byte
    exact ⟨u, hput, hwf, by rw [if_pos hroom, hcontents]⟩
  · have hlt := h.size_lt
    obtain ⟨u, hput, hwf, -, hcontents⟩ := h.put_full (by omega) byte
    exact ⟨u, hput, hwf, by rw [if_neg hroom, hcontents]⟩

/-- What a character does to the stream. -/
structure Came (s : CharReader) (byte : Byte) (t : CharReader) : Prop where
  /-- It has come. -/
  arrived : t.arrived = s.arrived ++ [byte]
  /-- It is there, behind the others, but for the oldest in the ring when there is no room. -/
  stream : t.stream = s.done.flatMap (·.2.2) ++ s.part ++
    (if s.fifo.size + 1 < s.fifo.length then s.fifo.contents else s.fifo.contents.tail) ++ [byte]

theorem Came.kept {byte : Byte} (h : s.Came byte t) (hs : s.stream.Sublist s.arrived) : t.stream.Sublist t.arrived := by
  rw [h.arrived, h.stream]
  refine List.Sublist.append (List.Sublist.trans ?_ hs) (List.Sublist.refl _)
  rw [CharReader.stream]
  refine List.Sublist.append (List.Sublist.refl _) ?_
  split
  · exact List.Sublist.refl _
  · exact List.tail_sublist _

/-- **A character comes**, and wakes the task that waits for one. -/
theorem Sound.receive (dev : CharDevice) (h : s.Sound) (ch : Byte) :
    ∃ t, s.receive dev ch = some t ∧ t.Sound ∧ s.Came (dev.convert ch) t := by
  obtain ⟨fifo, hput, hwf, hcontents⟩ := put_cases h.wf (dev.convert ch)
  have hcame : s.Came (dev.convert ch) { s with fifo := fifo, arrived := s.arrived ++ [dev.convert ch] } := by
    refine ⟨rfl, ?_⟩
    simp only [stream, hcontents, List.append_assoc]
  rw [CharReader.receive, hput]
  simp only [Option.bind_eq_bind, Option.bind_some]
  cases hw : s.waiter with
  | none =>
    refine ⟨_, rfl, ⟨hwf, ⟨h.listed.mem, h.listed.nodup, h.listed.counts⟩, ?_, h.wake, hcame.kept h.kept, h.whole⟩,
      ⟨hcame.arrived, hcame.stream⟩⟩
    rcases h.lock with hfree | ⟨other, hheld, hstops⟩
    · exact Or.inl ⟨hfree.value, hfree.holder, hfree.repeats, rfl, hfree.part, hfree.outside⟩
    · refine Or.inr ⟨other, ⟨hheld.value, hheld.holder, hheld.repeats, hheld.outside⟩, Or.inr ?_⟩
      rcases hstops with ⟨-, hwaiter, -⟩ | ⟨hready, -⟩
      · exact absurd (hw.symm.trans hwaiter) (by simp)
      · exact ⟨hready, rfl⟩
  | some task =>
    obtain ⟨left, hblocked, hheld⟩ : ∃ left, s.phase task = .blocked left ∧ s.Held task := by
      rcases h.lock with hfree | ⟨other, hheld, ⟨⟨left, hp⟩, hwaiter, -⟩ | ⟨-, hwaiter⟩⟩
      · exact absurd (hfree.waiter.symm.trans hw) (by simp)
      · obtain rfl := Option.some.inj (hw.symm.trans hwaiter)
        exact ⟨left, hp, hheld⟩
      · exact absurd (hwaiter.symm.trans hw) (by simp)
    have hlisted : CharReader.Listed
        { s with fifo := fifo, arrived := s.arrived ++ [dev.convert ch], waiter := none } fun t => t ≠ task :=
      ⟨fun i _ => h.listed.mem i trivial, h.listed.nodup, fun i _ => h.listed.counts i trivial⟩
    have hcounts := h.listed.counts task trivial
    rw [hblocked] at hcounts
    simp only [hblocked, Option.pure_def]
    refine ⟨_, rfl, ⟨hwf, hlisted.goto (h.notMem (by rw [hblocked]; exact id)) id hcounts, Or.inr ⟨task,
      ⟨hheld.value, hheld.holder, hheld.repeats, fun i hi => ?_⟩, Or.inr ⟨⟨left, goto_phase_self⟩, rfl⟩⟩,
      fun _ => Or.inl hheld.value, hcame.kept h.kept, h.whole⟩, ⟨hcame.arrived, hcame.stream⟩⟩
    rw [goto_phase_of_ne hi]
    exact hheld.outside i hi

/-! ### Runs -/

/-- The characters that come with an operation. -/
def chars (dev : CharDevice) : CharOp → List Byte
  | .receive ch => [dev.convert ch]
  | _ => []

/-- **What a step does**: the characters that come are put behind the others, as long as there is room. -/
theorem Sound.step (dev : CharDevice) (h : s.Sound) {op : CharOp} (hlegal : s.Legal op) :
    ∃ t, s.step dev op = some ((), t) ∧ t.Sound ∧ t.arrived = s.arrived ++ chars dev op ∧
      (s.Clear op → t.stream = s.stream ++ chars dev op) ∧ (¬s.Clear op → t.stream.length ≤ s.stream.length) := by
  have htook : ∀ {t : CharReader}, s.Took t → t.arrived = s.arrived ++ [] ∧ (True → t.stream = s.stream ++ []) ∧
      (¬True → t.stream.length ≤ s.stream.length) := by
    intro t h
    refine ⟨?_, fun _ => ?_, fun hc => absurd trivial hc⟩
    · rw [List.append_nil, h.arrived]
    · rw [List.append_nil, h.stream]
  cases op with
  | read task count =>
    obtain ⟨t, hrun, ht, hsame⟩ := h.read dev hlegal count
    exact ⟨t, by rw [CharReader.step, hrun]; rfl, ht, htook hsame⟩
  | resume task =>
    rcases hlegal with hyielded | ⟨left, hwoken⟩ | ⟨left, hready⟩
    · exact ⟨_, by rw [CharReader.step, hyielded], h.yielded hyielded, htook ⟨rfl, rfl⟩⟩
    · have hin : ¬(s.phase task).Inside := by
        rw [hwoken]
        exact id
      have hwaits : ¬(s.phase task).Waits := by
        rw [hwoken]
        exact id
      have hcounts := h.listed.counts task trivial
      rw [hwoken] at hcounts
      obtain ⟨t, hrun, ht, hsame⟩ := h.mutexLock dev hin hwaits hcounts
      refine ⟨t, ?_, ht, htook hsame⟩
      rw [CharReader.step, hwoken]
      change Option.map _ (s.mutexLock dev task left) = _
      rw [hrun]
      rfl
    · obtain ⟨t, hrun, ht, hsame⟩ := h.ready dev hready
      refine ⟨t, ?_, ht, htook hsame⟩
      rw [CharReader.step, hready]
      change Option.map _ (readLoop dev task left s) = _
      rw [hrun]
      rfl
  | receive ch =>
    obtain ⟨t, hrun, ht, hcame⟩ := h.receive dev ch
    refine ⟨t, by rw [CharReader.step, hrun]; rfl, ht, hcame.arrived, fun hroom => ?_, fun hroom => ?_⟩
    · have hroom' : s.fifo.size + 1 < s.fifo.length := hroom
      rw [hcame.stream, if_pos hroom']
      rfl
    · have hnot : ¬s.fifo.size + 1 < s.fifo.length := hroom
      have hfull : s.fifo.contents.length ≠ 0 := by
        have hlength := h.wf.length
        rw [Fifo.length_contents]
        omega
      rw [hcame.stream, if_neg hnot, CharReader.stream]
      simp only [List.length_append, List.length_tail, List.length_singleton]
      omega

theorem Start.sound (h : s.Start) : s.Sound := by
  obtain ⟨buf, length, hlength, hfifo⟩ := h.fifo
  obtain ⟨hholder, hrepeats, hvalue, hwaiters⟩ := h.lock
  obtain ⟨harrived, hpart, hdone⟩ := h.fresh
  have hout : ∀ t, ¬(s.phase t).Inside := by
    intro t
    rw [h.phase t]
    exact id
  refine ⟨hfifo ▸ Fifo.wf_fifoInit hlength, ⟨fun t _ => ?_, by rw [hwaiters]; exact List.nodup_nil, fun t _ => ?_⟩,
    Or.inl ⟨hvalue, hholder, hrepeats, h.waiter, hpart, hout⟩, fun hc => absurd hwaiters hc, ?_, fun d hd => ?_⟩
  · rw [hwaiters, h.phase t]
    exact iff_of_false List.not_mem_nil id
  · rw [h.phase t]
    trivial
  · rw [stream, hdone, hpart, hfifo, Fifo.contents_fifoInit]
    exact List.nil_sublist _
  · rw [hdone] at hd
    exact absurd hd List.not_mem_nil

theorem Start.stream (h : s.Start) : s.stream = s.arrived := by
  obtain ⟨buf, length, -, hfifo⟩ := h.fifo
  obtain ⟨harrived, hpart, hdone⟩ := h.fresh
  rw [CharReader.stream, harrived, hdone, hpart, hfifo, Fifo.contents_fifoInit]
  rfl

/-- **The invariant is what the lock and the waiter are for.** -/
theorem Sound.calm (h : s.Sound) : s.Calm where
  alone {task task'} hin hin' := by
    by_contra hne
    exact (h.held hin).1.outside task' (Ne.symm hne) hin'
  blocked {task left} hblocked := by
    have hin : (s.phase task).Inside := by
      rw [hblocked]
      trivial
    rcases (h.held hin).2 with ⟨-, hwaiter, hsize⟩ | ⟨⟨left', hready⟩, -⟩
    · exact ⟨hwaiter, List.eq_nil_of_length_eq_zero (Fifo.length_contents.trans hsize)⟩
    · exact absurd (hready.symm.trans hblocked) (by simp)
  waits {task} hwaits := by
    have hmem := (h.listed.mem task trivial).mpr hwaits
    rcases h.wake (List.ne_nil_of_mem hmem) with hvalue | ⟨other, hwoken⟩
    · rcases h.lock with hfree | ⟨other, -, hstops⟩
      · exact absurd (hfree.value.symm.trans hvalue) (by simp)
      · exact ⟨other, Or.inl hstops.inside⟩
    · exact ⟨other, Or.inr hwoken⟩
  kept := h.kept
  whole := h.whole

end CharReader

/-- A ring of so many bytes, and nobody there. -/
def freshReader (length : ℕ) : CharReader where
  fifo := fifoInit (fun _ => 0#8) length
  waiter := none
  holder := none
  repeats := 0
  value := false
  waiters := []
  phase _ := .idle
  asked _ := 0
  arrived := []
  part := []
  done := []

theorem freshReader_start {length : ℕ} (h : 2 ≤ length) : (freshReader length).Start :=
  ⟨⟨_, length, h, rfl⟩, rfl, ⟨rfl, rfl, rfl, rfl⟩, fun _ => rfl, ⟨rfl, rfl, rfl⟩⟩

instance (s : CharReader) : (op : CharOp) → Decidable (s.Legal op)
  | .read task _ => inferInstanceAs (Decidable (s.phase task = .idle))
  | .resume task =>
      match hp : s.phase task with
      | .yielded => isTrue (Or.inl hp)
      | .woken left => isTrue (Or.inr (Or.inl ⟨left, hp⟩))
      | .ready left => isTrue (Or.inr (Or.inr ⟨left, hp⟩))
      | .idle | .waiting _ | .blocked _ => isFalse (by simp [CharReader.Legal, hp])
  | .receive _ => isTrue trivial

instance (s : CharReader) : (op : CharOp) → Decidable (s.Clear op)
  | .receive _ => inferInstanceAs (Decidable (s.fifo.size + 1 < s.fifo.length))
  | .read _ _ | .resume _ => isTrue trivial

/-- A task waits for a character, another one for the lock, and a line comes. -/
def twoReaders : List CharOp :=
  [.read 1 1, .read 2 1, .receive 65#8, .resume 1, .receive 13#8, .resume 2, .resume 1]

/-- **No character is taken twice, and nobody sleeps on one**: in every run of `serial_read`, or of `keyboard_read`, by
any tasks, among any interrupts, no assertion fails; one call at most takes characters at a time, in the order in which
they come; it is blocked only while the ring is empty, and where tasks wait for the lock, some task has it or is on its
way to it; and a call that is through has taken as many characters as it was to take. -/
theorem charRun_calm (dev : CharDevice) (s : CharReader) (h : s.Start) (ops : List CharOp)
    (hlegal : Run.Along (fun s op => CharReader.step dev s op) CharReader.Legal s ops) :
    Run.Meets (fun s op => CharReader.step dev s op) (fun _ _ _ t => t.Calm) s ops := by
  refine Run.meets_of_inv CharReader.Sound (fun s op hs hl => ?_) ops s h.sound hlegal
  obtain ⟨t, hrun, ht, -⟩ := hs.step dev hl
  exact ⟨(), t, hrun, ht.calm, ht⟩

theorem charRun_calm_two : Run.Meets (fun s op => CharReader.step serial s op) (fun _ _ _ t => t.Calm) (freshReader 64)
    twoReaders :=
  charRun_calm serial (freshReader 64) (freshReader_start (by decide)) twoReaders (by decide +kernel)

/-- **Every character reaches a call**: in every such run the characters that have come are, in order, those of the
calls that are through, one call after the other, those of the call that has the lock, and those in the ring, exactly as
long as no character comes while the ring is full. -/
theorem charRun_stream_iff (dev : CharDevice) (s : CharReader) (h : s.Start) (ops : List CharOp)
    (hlegal : Run.Along (fun s op => CharReader.step dev s op) CharReader.Legal s ops) :
    Run.Meets (fun s op => CharReader.step dev s op) (fun _ _ _ t => t.stream = t.arrived) s ops ↔
      Run.Along (fun s op => CharReader.step dev s op) CharReader.Clear s ops := by
  refine Run.meets_iff_along (fun s => s.Sound ∧ s.stream = s.arrived) (fun s op hs hl => ?_)
    (fun s op r t hs hl hrun hpost => ?_) ops s ⟨h.sound, h.stream⟩ hlegal
  · obtain ⟨t, hrun, -, harrived, hroom, hfull⟩ := hs.1.step dev hl
    constructor
    · rintro ⟨r, t', hrun', hpost⟩
      obtain ⟨-, rfl⟩ := Prod.mk.inj (Option.some.inj (hrun.symm.trans hrun'))
      by_contra hc
      have hle := hfull hc
      -- a character has come, and no more are there than before
      have hlength := congrArg List.length (hpost.trans harrived)
      rw [hs.2] at hle
      cases op with
      | receive ch =>
        rw [CharReader.chars, List.length_append, List.length_singleton] at hlength
        omega
      | read | resume => exact hc trivial
    · intro hclear
      exact ⟨(), t, hrun, by rw [hroom hclear, harrived, hs.2]⟩
  · obtain ⟨t', hrun', ht, -⟩ := hs.1.step dev hl
    obtain ⟨-, rfl⟩ := Prod.mk.inj (Option.some.inj (hrun.symm.trans hrun'))
    exact ⟨ht, hpost⟩

theorem charRun_stream_iff_two : Run.Meets (fun s op => CharReader.step serial s op)
    (fun _ _ _ t => t.stream = t.arrived) (freshReader 64) twoReaders :=
  (charRun_stream_iff serial (freshReader 64) (freshReader_start (by decide)) twoReaders (by decide +kernel)).mpr
    (by decide +kernel)

end Onixs
