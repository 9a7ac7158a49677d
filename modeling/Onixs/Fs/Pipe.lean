import Onixs.Common.Run
import Onixs.Lib.Fifo

/-!
# Pipes

`fs/pipe.c`, with any number of tasks. A task that finds the ring empty, or full, is blocked
in the middle of `pipe_read`, or `pipe_write`, and goes on there when it has been unblocked
and the scheduler picks it. Between these points nobody else runs, so that a step is all
that a task does up to the next of them, or to its return.

`Pipe.sent` and `Pipe.received` are kept for the statements: the bytes that have been put
into the ring, and those that have been taken out with the task whose buffer they are in.
-/

namespace Onixs

open Bytes

/-- What is left of a call. -/
inductive PipeCall where
  /-- `pipe_read`, with so many bytes to go. -/
  | read (left : ℕ)
  /-- `pipe_write`, with these bytes to go. -/
  | write (bytes : List Byte)
deriving DecidableEq

/-- Where a task is. -/
inductive PipePhase where
  /-- In neither function. -/
  | idle
  /-- Behind `task_block`, `TASK_BLOCKED`. -/
  | blocked (call : PipeCall)
  /-- Behind `task_block`, `TASK_READY`. -/
  | ready (call : PipeCall)
deriving DecidableEq

/-- The inode of a pipe, and the tasks. -/
structure Pipe where
  /-- `inode->desc`. -/
  fifo : Fifo
  /-- `inode->rxwaiter`. -/
  rxwaiter : Option ℕ
  /-- `inode->txwaiter`. -/
  txwaiter : Option ℕ
  /-- Where each task is. -/
  phase : ℕ → PipePhase
  /-- The bytes that have been put into the ring. -/
  sent : List Byte
  /-- The bytes that have been taken, and by whom. -/
  received : List (ℕ × Byte)

namespace Pipe

variable (s : Pipe)

/-- A task is somewhere else. -/
def goto (task : ℕ) (phase : PipePhase) : Pipe :=
  { s with phase := fun t => if t = task then phase else s.phase t }

theorem goto_phase_self {task : ℕ} {phase : PipePhase} : (s.goto task phase).phase task = phase := if_pos rfl

theorem goto_phase_of_ne {task t : ℕ} {phase : PipePhase} (h : t ≠ task) :
    (s.goto task phase).phase t = s.phase t := if_neg h

/-- `task_unblock`, which takes the task out of the list of blocked ones. -/
def unblock (task : ℕ) : Option Pipe :=
  match s.phase task with
  | .blocked call => some (s.goto task (.ready call))
  | _ => none

/-- The end of a round of `pipe_read`. -/
def wakeWriter : Option Pipe :=
  match s.txwaiter with
  | none => some s
  | some task => do
      let s ← s.unblock task
      return { s with txwaiter := none }

/-- The end of a round of `pipe_write`. -/
def wakeReader : Option Pipe :=
  match s.rxwaiter with
  | none => some s
  | some task => do
      let s ← s.unblock task
      return { s with rxwaiter := none }

/-- A round of `pipe_read`, from `fifo_get` on. -/
def readByte (task : ℕ) : Option Pipe := do
  let (byte, fifo) ← s.fifo.get
  wakeWriter { s with fifo := fifo, received := s.received ++ [(task, byte)] }

/-- A round of `pipe_write`, from `fifo_put` on. -/
def writeByte (byte : Byte) : Option Pipe := do
  let fifo ← s.fifo.put byte
  wakeReader { s with fifo := fifo, sent := s.sent ++ [byte] }

/-- The loop of `pipe_read`. -/
def readLoop (task : ℕ) : ℕ → Pipe → Option Pipe
  | 0, s => some (s.goto task .idle)
  | left + 1, s =>
      if s.fifo.empty then do
        assert (s.rxwaiter = none)
        return { s with rxwaiter := some task }.goto task (.blocked (.read (left + 1)))
      else do
        let s ← s.readByte task
        readLoop task left s

/-- The loop of `pipe_write`. -/
def writeLoop (task : ℕ) : List Byte → Pipe → Option Pipe
  | [], s => some (s.goto task .idle)
  | byte :: bytes, s =>
      if s.fifo.full then do
        assert (s.txwaiter = none)
        return s.goto task (.blocked (.write (byte :: bytes)))
      else do
        let s ← s.writeByte byte
        writeLoop task bytes s

end Pipe

/-- What a task does. -/
inductive PipeOp where
  /-- It calls `pipe_read`. -/
  | read (task : ℕ) (count : ℤ)
  /-- It calls `pipe_write`, with `count` bytes in `buf`. -/
  | write (task : ℕ) (buf : Bytes) (count : ℤ)
  /-- The scheduler picks it, and `task_block` returns. -/
  | resume (task : ℕ)

namespace Pipe

variable (s : Pipe)

/-- What `pipe_write` puts into the ring. -/
def bytesOf (buf : Bytes) (count : ℤ) : List Byte := (List.range count.toNat).map buf

/-- A task runs until it is blocked or returns. No value means that an assertion fails. -/
def step : PipeOp → Option (Unit × Pipe)
  | .read task count => (readLoop task count.toNat s).map fun t => ((), t)
  | .write task buf count => (writeLoop task (bytesOf buf count) s).map fun t => ((), t)
  | .resume task =>
      match s.phase task with
      | .ready (.read (left + 1)) =>
          ((s.readByte task).bind (readLoop task left)).map fun t => ((), t)
      | .ready (.write (byte :: bytes)) =>
          ((s.writeByte byte).bind (writeLoop task bytes)).map fun t => ((), t)
      | _ => none

/-- A task makes a call when it is in none, and goes on when it is `TASK_READY`. -/
def Legal : PipeOp → Prop
  | .read task _ => s.phase task = .idle
  | .write task _ _ => s.phase task = .idle
  | .resume task => ∃ call, s.phase task = .ready call

/-- After `sys_pipe`: an empty ring, and all tasks elsewhere. -/
structure Start : Prop where
  /-- `get_pipe_inode` has set the ring up. -/
  fifo : ∃ buf, s.fifo = fifoInit buf 4096
  /-- No reader waits. -/
  rxwaiter : s.rxwaiter = none
  /-- No writer waits. -/
  txwaiter : s.txwaiter = none
  /-- No task is in a call. -/
  phase : ∀ task, s.phase task = .idle
  /-- No byte has been put into the ring. -/
  sent : s.sent = []
  /-- No byte has been taken. -/
  received : s.received = []

/-- **Integrity**: the bytes that were taken are the first ones that were put into the ring, in
their order. -/
def Delivered : Prop := s.received.map Prod.snd <+: s.sent

/-- A reader does not find the ring empty while another one waits, and one that goes on finds a
byte. -/
def Clear : PipeOp → Prop
  | .read _ count => count.toNat ≤ s.fifo.size ∨ s.rxwaiter = none
  | .write _ _ _ => True
  | .resume task => ∀ left, s.phase task = .ready (.read left) →
      0 < s.fifo.size ∧ (left ≤ s.fifo.size ∨ s.rxwaiter = none)

instance (op : PipeOp) : Decidable (s.Legal op) :=
  match op with
  | .read task _ => inferInstanceAs (Decidable (s.phase task = .idle))
  | .write task _ _ => inferInstanceAs (Decidable (s.phase task = .idle))
  | .resume task =>
      match h : s.phase task with
      | .ready call => isTrue ⟨call, h⟩
      | .idle => isFalse (by simp [Legal, h])
      | .blocked _ => isFalse (by simp [Legal, h])

instance (op : PipeOp) : Decidable (s.Clear op) :=
  match op with
  | .read _ count => inferInstanceAs (Decidable (count.toNat ≤ s.fifo.size ∨ s.rxwaiter = none))
  | .write _ _ _ => isTrue trivial
  | .resume task =>
      match h : s.phase task with
      | .ready (.read left) =>
          decidable_of_iff (0 < s.fifo.size ∧ (left ≤ s.fifo.size ∨ s.rxwaiter = none)) (by simp [Clear, h])
      | .ready (.write _) => isTrue (by simp [Clear, h])
      | .idle => isTrue (by simp [Clear, h])
      | .blocked _ => isTrue (by simp [Clear, h])

/-! ### What every step keeps -/

/-- **The invariant.** What was put into the ring has been taken or is in it; a reader that waits
is blocked; nobody is ever registered as a writer that waits, so that only readers become
ready. -/
structure Sound : Prop where
  /-- The ring is well-formed. -/
  wf : s.fifo.WF
  /-- No byte is lost, and none is there twice. -/
  sent : s.sent = s.received.map Prod.snd ++ s.fifo.contents
  /-- No writer is registered. -/
  txwaiter : s.txwaiter = none
  /-- The reader that is registered is blocked. -/
  rxwaiter : ∀ {task}, s.rxwaiter = some task → ∃ left, s.phase task = .blocked (.read (left + 1))
  /-- Only readers are ready. -/
  ready : ∀ {task call}, s.phase task = .ready call → ∃ left, call = .read (left + 1)

variable {s} {task : ℕ}

theorem Start.sound (h : s.Start) : s.Sound := by
  obtain ⟨buf, hfifo⟩ := h.fifo
  refine ⟨hfifo ▸ Fifo.wf_fifoInit (by decide), ?_, h.txwaiter, fun {task} hw => ?_, fun {task call} hp => ?_⟩
  · rw [h.sent, h.received, hfifo, Fifo.contents_fifoInit]
    rfl
  · exact absurd (h.rxwaiter.symm.trans hw) (by simp)
  · exact absurd ((h.phase task).symm.trans hp) (by simp)

theorem Sound.delivered (h : s.Sound) : s.Delivered := by
  rw [Delivered, h.sent]
  exact List.prefix_append _ _

theorem wakeWriter_of_none (h : s.txwaiter = none) : s.wakeWriter = some s := by
  rw [wakeWriter.eq_def, h]

theorem wakeReader_of_none (h : s.rxwaiter = none) : s.wakeReader = some s := by
  rw [wakeReader.eq_def, h]

/-- A task that is not the reader registered goes somewhere, but not to being ready. -/
theorem Sound.goto (h : s.Sound) (hrx : s.rxwaiter ≠ some task) {phase : PipePhase}
    (hphase : ∀ call, phase ≠ .ready call) : (s.goto task phase).Sound := by
  refine ⟨h.wf, h.sent, h.txwaiter, fun {t} hw => ?_, fun {t call} hp => ?_⟩
  · have hne : t ≠ task := fun heq => hrx (heq ▸ hw)
    rw [goto_phase_of_ne s hne]
    exact h.rxwaiter hw
  · by_cases heq : t = task
    · rw [heq, goto_phase_self] at hp
      exact absurd hp (hphase call)
    · rw [goto_phase_of_ne s heq] at hp
      exact h.ready hp

/-- A task that runs is not the reader registered. -/
theorem Sound.rxwaiter_ne (h : s.Sound) (hphase : ∀ call, s.phase task ≠ .blocked call) :
    s.rxwaiter ≠ some task := by
  intro hw
  obtain ⟨left, hblocked⟩ := h.rxwaiter hw
  exact hphase _ hblocked

/-! ### Reading -/

/-- **A byte is taken.** -/
theorem Sound.readByte (h : s.Sound) (task : ℕ) (hne : s.fifo.size ≠ 0) :
    ∃ t, s.readByte task = some t ∧ t.Sound ∧ t.fifo.size + 1 = s.fifo.size ∧
      t.fifo.length = s.fifo.length ∧ t.rxwaiter = s.rxwaiter ∧ t.phase = s.phase := by
  obtain ⟨byte, fifo, hget, hwf, hlength, hcontents⟩ := h.wf.get hne
  refine ⟨{ s with fifo := fifo, received := s.received ++ [(task, byte)] }, ?_,
    ⟨hwf, ?_, h.txwaiter, h.rxwaiter, h.ready⟩, ?_, hlength, rfl, rfl⟩
  · rw [Pipe.readByte, hget]
    exact wakeWriter_of_none h.txwaiter
  · rw [h.sent, hcontents, List.map_append, List.append_assoc]
    rfl
  · rw [← Fifo.length_contents, ← Fifo.length_contents, hcontents]
    rfl

/-- How `pipe_read` leaves the pipe: the task has returned, or it waits at an empty ring. -/
structure ReadEnd (task : ℕ) (s t : Pipe) : Prop where
  /-- The invariant. -/
  sound : t.Sound
  /-- The length of the ring. -/
  length : t.fifo.length = s.fifo.length
  /-- The other tasks are where they were. -/
  other : ∀ i, i ≠ task → t.phase i = s.phase i
  /-- The task. -/
  stop : (t.phase task = .idle ∧ t.rxwaiter = s.rxwaiter) ∨
    ((∃ left, t.phase task = .blocked (.read left)) ∧ t.rxwaiter = some task ∧ t.fifo.size = 0)

/-- **The loop of `pipe_read`** ends where the ring has enough bytes or no other reader waits. -/
theorem Sound.readLoop : ∀ {left : ℕ} {s : Pipe}, s.Sound → s.rxwaiter ≠ some task →
    (left ≤ s.fifo.size ∨ s.rxwaiter = none) →
    ∃ t, Pipe.readLoop task left s = some t ∧ ReadEnd task s t := by
  intro left
  induction left with
  | zero =>
    intro s h hrx _
    exact ⟨_, rfl, h.goto hrx (by simp), rfl, fun i hi => goto_phase_of_ne s hi,
      Or.inl ⟨goto_phase_self s, rfl⟩⟩
  | succ left ih =>
    intro s h hrx hclear
    by_cases hzero : s.fifo.size = 0
    · -- it waits
      have hnone : s.rxwaiter = none := hclear.resolve_left (by omega)
      refine ⟨{ s with rxwaiter := some task }.goto task (.blocked (.read (left + 1))), ?_,
        ⟨h.wf, h.sent, h.txwaiter, fun {t} hw => ⟨left, ?_⟩, fun {t call} hp => ?_⟩, rfl,
        fun i hi => if_neg hi, Or.inr ⟨⟨left + 1, if_pos rfl⟩, rfl, hzero⟩⟩
      · rw [Pipe.readLoop, if_pos (h.wf.empty_iff.mpr hzero), assert_pos hnone]
        rfl
      · obtain rfl : task = t := Option.some.inj hw
        exact if_pos rfl
      · by_cases heq : t = task
        · have hblocked : PipePhase.blocked (.read (left + 1)) = .ready call := (if_pos heq).symm.trans hp
          exact absurd hblocked (by simp)
        · exact h.ready ((if_neg heq).symm.trans hp)
    · obtain ⟨t, hread, ht, hsize, hlength, hwaiter, hphase⟩ := h.readByte task hzero
      have hclear' : left ≤ t.fifo.size ∨ t.rxwaiter = none :=
        hwaiter ▸ hclear.imp_left fun hle => by omega
      obtain ⟨u, hloop, hu⟩ := ih ht (hwaiter ▸ hrx) hclear'
      refine ⟨u, ?_, hu.sound, hu.length.trans hlength, fun i hi => (hu.other i hi).trans (congrFun hphase i),
        hwaiter ▸ hu.stop⟩
      rw [Pipe.readLoop, if_neg (mt h.wf.empty_iff.mp hzero), hread]
      exact hloop

/-- Elsewhere an assertion fails: a second reader would have to wait. -/
theorem Sound.readLoop_eq_none : ∀ {left : ℕ} {s : Pipe}, s.Sound → s.fifo.size < left →
    s.rxwaiter ≠ none → Pipe.readLoop task left s = none := by
  intro left
  induction left with
  | zero => exact fun _ hlt => absurd hlt (Nat.not_lt_zero _)
  | succ left ih =>
    intro s h hlt hrx
    by_cases hzero : s.fifo.size = 0
    · rw [Pipe.readLoop, if_pos (h.wf.empty_iff.mpr hzero), assert_neg hrx]
      rfl
    · obtain ⟨t, hread, ht, hsize, -, hwaiter, -⟩ := h.readByte task hzero
      rw [Pipe.readLoop, if_neg (mt h.wf.empty_iff.mp hzero), hread]
      exact ih ht (by omega) (hwaiter ▸ hrx)

/-! ### Writing -/

/-- **A byte is put into the ring**, and the reader that waits becomes ready. -/
theorem Sound.writeByte (h : s.Sound) (hroom : s.fifo.size + 1 < s.fifo.length) (byte : Byte) :
    ∃ t, s.writeByte byte = some t ∧ t.Sound ∧ t.fifo.size = s.fifo.size + 1 ∧
      t.fifo.length = s.fifo.length ∧ t.rxwaiter = none ∧ ∀ task,
        (∀ call, s.phase task ≠ .blocked call) ∨ s.rxwaiter ≠ some task → t.phase task = s.phase task := by
  obtain ⟨fifo, hput, hwf, hlength, hcontents⟩ := h.wf.put hroom byte
  have hsize : fifo.size = s.fifo.size + 1 := by
    rw [← Fifo.length_contents, ← Fifo.length_contents, hcontents, List.length_append]
    rfl
  have hsent : s.sent ++ [byte] = s.received.map Prod.snd ++ fifo.contents := by
    rw [h.sent, hcontents, List.append_assoc]
  cases hrx : s.rxwaiter with
  | none =>
    refine ⟨{ s with fifo := fifo, sent := s.sent ++ [byte] }, ?_,
      ⟨hwf, hsent, h.txwaiter, h.rxwaiter, h.ready⟩, hsize, hlength, hrx, fun _ _ => rfl⟩
    rw [Pipe.writeByte, hput]
    exact wakeReader_of_none hrx
  | some reader =>
    obtain ⟨left, hblocked⟩ := h.rxwaiter hrx
    refine ⟨{ { s with fifo := fifo, sent := s.sent ++ [byte] }.goto reader (.ready (.read (left + 1))) with
      rxwaiter := none }, ?_, ⟨hwf, hsent, h.txwaiter, fun {t} hw => absurd hw (by simp),
      fun {t call} hp => ?_⟩, hsize, hlength, rfl, fun t ht => if_neg ?_⟩
    · rw [Pipe.writeByte, hput, Option.bind_eq_bind, Option.bind_some, wakeReader]
      simp only [hrx, unblock, hblocked]
      rfl
    · by_cases heq : t = reader
      · have hready : PipePhase.ready (.read (left + 1)) = .ready call := (if_pos heq).symm.trans hp
        exact ⟨left, (PipePhase.ready.inj hready).symm⟩
      · exact h.ready ((if_neg heq).symm.trans hp)
    · rintro rfl
      exact ht.elim (fun hc => hc _ hblocked) fun hc => hc rfl

/-- **The loop of `pipe_write`** ends. -/
theorem Sound.writeLoop : ∀ {bytes : List Byte} {s : Pipe}, s.Sound → s.rxwaiter ≠ some task →
    ∃ t, Pipe.writeLoop task bytes s = some t ∧ t.Sound := by
  intro bytes
  induction bytes with
  | nil => exact fun h hrx => ⟨_, rfl, h.goto hrx (by simp)⟩
  | cons byte bytes ih =>
    intro s h hrx
    by_cases hfull : s.fifo.full
    · refine ⟨s.goto task (.blocked (.write (byte :: bytes))), ?_, h.goto hrx (by simp)⟩
      rw [Pipe.writeLoop, if_pos hfull, assert_pos h.txwaiter]
      rfl
    · have hroom : s.fifo.size + 1 < s.fifo.length := by
        have hlt := h.wf.size_lt
        have hne := mt h.wf.full_iff.mpr hfull
        omega
      obtain ⟨t, hwrite, ht, -, -, hnone, -⟩ := h.writeByte hroom byte
      obtain ⟨u, hloop, hu⟩ := ih ht (by rw [hnone]; simp)
      refine ⟨u, ?_, hu⟩
      rw [Pipe.writeLoop, if_neg hfull, hwrite]
      exact hloop

end Pipe

end Onixs
