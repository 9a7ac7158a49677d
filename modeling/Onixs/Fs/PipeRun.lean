import Onixs.Fs.Pipe

/-!
# Runs of readers and writers of a pipe

Where several tasks read from a pipe, an assertion fails as soon as one of them would have
to wait while another does, or goes on at a ring that has been emptied since it was made
ready; up to there what was taken is a prefix of what was put (`Onixs.pipeRun_delivered_iff`).

Where one task reads and one writes, no assertion fails. But `pipe_write` does not store the
task in `txwaiter`, so that a writer that does not find room for all its bytes is blocked for
ever (`Onixs.pipeRun_registered_iff`).
-/

namespace Onixs

open Bytes

namespace Pipe

variable {s : Pipe} {task rx tx : ℕ} {op : PipeOp}

/-! ### Any number of tasks -/

theorem ne_blocked_of_idle (h : s.phase task = .idle) (call : PipeCall) : s.phase task ≠ .blocked call := by
  rw [h]
  simp

/-- A task goes on in `pipe_read`. -/
theorem Sound.resume (h : s.Sound) {left : ℕ} (hphase : s.phase task = .ready (.read (left + 1)))
    (hclear : s.Clear (.resume task)) :
    ∃ t, s.step (.resume task) = some ((), t) ∧ ReadEnd task s t := by
  obtain ⟨hpos, hroom⟩ := hclear (left + 1) hphase
  obtain ⟨t, hread, ht, hsize, hlength, hwaiter, hsame⟩ := h.readByte task (Nat.pos_iff_ne_zero.mp hpos)
  have hrx : t.rxwaiter ≠ some task := hwaiter ▸ h.rxwaiter_ne (by simp [hphase])
  have hroom' : left ≤ t.fifo.size ∨ t.rxwaiter = none := hwaiter ▸ hroom.imp_left fun hle => by omega
  obtain ⟨u, hloop, hu⟩ := ht.readLoop hrx hroom'
  refine ⟨u, ?_, hu.sound, hu.length.trans hlength, fun i hi => (hu.other i hi).trans (congrFun hsame i),
    hwaiter ▸ hu.stop⟩
  simp only [Pipe.step, hphase, hread, Option.bind_some, hloop, Option.map_some]

/-- A task goes on at a ring that has been emptied, or has to wait a second time while another
one does. -/
theorem Sound.resume_eq_none (h : s.Sound) {left : ℕ} (hphase : s.phase task = .ready (.read (left + 1)))
    (hclear : ¬s.Clear (.resume task)) : s.step (.resume task) = none := by
  simp only [Pipe.step, hphase]
  by_cases hzero : s.fifo.size = 0
  · rw [Pipe.readByte, h.wf.get_eq_none hzero]
    rfl
  · obtain ⟨t, hread, ht, hsize, -, hwaiter, -⟩ := h.readByte task hzero
    have hmany : ¬(left + 1 ≤ s.fifo.size ∨ s.rxwaiter = none) := fun hroom => hclear fun n hn => by
      obtain rfl : left + 1 = n := by simpa using hphase.symm.trans hn
      exact ⟨Nat.pos_of_ne_zero hzero, hroom⟩
    obtain ⟨hlt, hrx⟩ := not_or.mp hmany
    rw [hread, Option.bind_some, ht.readLoop_eq_none (by omega) (hwaiter ▸ hrx)]
    rfl

/-- **A step** succeeds where it is clear, and keeps the invariant. -/
theorem Sound.step (h : s.Sound) (hlegal : s.Legal op) (hclear : s.Clear op) :
    ∃ t, s.step op = some ((), t) ∧ t.Sound := by
  cases op with
  | read task count =>
    have hrx := h.rxwaiter_ne (ne_blocked_of_idle hlegal)
    obtain ⟨t, hloop, ht⟩ := h.readLoop hrx hclear
    exact ⟨t, by rw [Pipe.step, hloop]; rfl, ht.sound⟩
  | write task buf count =>
    have hrx := h.rxwaiter_ne (ne_blocked_of_idle hlegal)
    obtain ⟨t, hloop, ht⟩ : ∃ t, Pipe.writeLoop task (bytesOf buf count) s = some t ∧ t.Sound :=
      h.writeLoop hrx
    exact ⟨t, by rw [Pipe.step, hloop]; rfl, ht⟩
  | resume task =>
    obtain ⟨call, hphase⟩ := hlegal
    obtain ⟨left, rfl⟩ := h.ready hphase
    obtain ⟨t, hstep, ht⟩ := h.resume hphase hclear
    exact ⟨t, hstep, ht.sound⟩

/-- Elsewhere an assertion fails. -/
theorem Sound.step_eq_none (h : s.Sound) (hlegal : s.Legal op) (hclear : ¬s.Clear op) :
    s.step op = none := by
  cases op with
  | read task count =>
    obtain ⟨hlt, hrx⟩ := not_or.mp hclear
    rw [Pipe.step, h.readLoop_eq_none (Nat.lt_of_not_le hlt) hrx]
    rfl
  | write task buf count => exact absurd trivial hclear
  | resume task =>
    obtain ⟨call, hphase⟩ := hlegal
    obtain ⟨left, rfl⟩ := h.ready hphase
    exact h.resume_eq_none hphase hclear

/-- **Any run**, from any state that satisfies the invariant. -/
theorem Sound.meets_iff (h : s.Sound) {ops : List PipeOp} (hlegal : Run.Along Pipe.step Legal s ops) :
    Run.Meets Pipe.step (fun _ _ _ t => t.Delivered) s ops ↔ Run.Along Pipe.step Clear s ops := by
  refine Run.meets_iff_along Sound (fun s op hs hop => ⟨?_, fun hclear => ?_⟩) ?_ ops s h hlegal
  · rintro ⟨r, t, hstep, -⟩
    by_contra hclear
    exact absurd ((hs.step_eq_none hop hclear).symm.trans hstep) (by simp)
  · obtain ⟨t, hstep, ht⟩ := hs.step hop hclear
    exact ⟨(), t, hstep, ht.delivered⟩
  · intro s op r t hs hop hstep _
    by_cases hclear : s.Clear op
    · obtain ⟨u, hstep', hu⟩ := hs.step hop hclear
      obtain ⟨-, rfl⟩ := Prod.mk.inj (Option.some.inj (hstep'.symm.trans hstep))
      exact hu
    · exact absurd ((hs.step_eq_none hop hclear).symm.trans hstep) (by simp)

end Pipe

/-- **Integrity of a pipe.** No assertion fails in a run, and at each of its steps what has been
taken out of the ring is a prefix of what has been put into it, if and only if no reader finds
the ring empty while another one waits, or when it goes on. -/
theorem pipeRun_delivered_iff {s : Pipe} (h : s.Start) {ops : List PipeOp}
    (hlegal : Run.Along Pipe.step Pipe.Legal s ops) :
    Run.Meets Pipe.step (fun _ _ _ t => t.Delivered) s ops ↔ Run.Along Pipe.step Pipe.Clear s ops :=
  h.sound.meets_iff hlegal

/-- A pipe that has just been made. -/
def freshPipe : Pipe where
  fifo := fifoInit (fun _ => 0) 4096
  rxwaiter := none
  txwaiter := none
  phase := fun _ => .idle
  sent := []
  received := []

theorem freshPipe_start : freshPipe.Start :=
  ⟨⟨_, rfl⟩, rfl, rfl, fun _ => rfl, rfl, rfl⟩

/-- A reader waits, and a writer comes with a byte. -/
theorem pipeRun_delivered_byte : Run.Meets Pipe.step (fun _ _ _ t => t.Delivered) freshPipe
    [.read 1 1, .write 2 (fun _ => 7) 1, .resume 1] :=
  (pipeRun_delivered_iff freshPipe_start (by decide)).mpr (by decide)

/-- **A reader that goes on after another one has taken its byte**, and one that would have to wait
while another does. -/
theorem pipeRun_overtaken :
    (Run.Along Pipe.step Pipe.Legal freshPipe [.read 1 1, .write 2 (fun _ => 7) 1, .read 3 1, .resume 1] ∧
      ¬Run.Meets Pipe.step (fun _ _ _ t => t.Delivered) freshPipe
        [.read 1 1, .write 2 (fun _ => 7) 1, .read 3 1, .resume 1]) ∧
    Run.Along Pipe.step Pipe.Legal freshPipe [.read 1 1, .read 3 1] ∧
      ¬Run.Meets Pipe.step (fun _ _ _ t => t.Delivered) freshPipe [.read 1 1, .read 3 1] := by
  have hnot : ∀ {ops}, Run.Along Pipe.step Pipe.Legal freshPipe ops →
      ¬Run.Along Pipe.step Pipe.Clear freshPipe ops →
      ¬Run.Meets Pipe.step (fun _ _ _ t => t.Delivered) freshPipe ops :=
    fun hlegal hclear hmeets => hclear ((freshPipe_start.sound.meets_iff hlegal).mp hmeets)
  exact ⟨⟨by decide, hnot (by decide) (by decide)⟩, by decide, hnot (by decide) (by decide)⟩

/-! ### One reader and one writer -/

namespace Pipe

variable {s t : Pipe} {task rx tx : ℕ} {op : PipeOp}

/-- Only task `rx` reads, and only task `tx` writes. -/
def Between (rx tx : ℕ) : PipeOp → Prop
  | .read task _ => task = rx
  | .write task _ _ => task = tx
  | .resume _ => True

/-- **A task that is blocked is registered**, so that the next byte at the other end makes it
ready. -/
structure Registered (rx tx : ℕ) (s : Pipe) : Prop where
  /-- The writer. -/
  writer : ∀ call, s.phase tx = .blocked call → s.txwaiter = some tx ∧
    ∀ t, s.readByte rx = some t → t.phase tx = .ready call
  /-- The reader. -/
  reader : ∀ call, s.phase rx = .blocked call → s.rxwaiter = some rx ∧
    ∀ byte t, s.writeByte byte = some t → t.phase rx = .ready call

/-- A writer comes with no more bytes than there is room for. -/
def Fits (s : Pipe) : PipeOp → Prop
  | .write _ _ count => s.fifo.size + count.toNat + 1 ≤ s.fifo.length
  | _ => True

/-- **The invariant of one reader and one writer.** The writer is never in the middle of its call;
the reader is registered as long as it is blocked, and finds a byte when it goes on. -/
structure Paired (rx : ℕ) (s : Pipe) : Prop where
  /-- The invariant. -/
  sound : s.Sound
  /-- The writer, and every other task. -/
  other : ∀ task, task ≠ rx → s.phase task = .idle
  /-- The reader, blocked. -/
  blocked : ∀ {call}, s.phase rx = .blocked call → s.rxwaiter = some rx
  /-- The reader, ready. -/
  ready : ∀ {call}, s.phase rx = .ready call → s.rxwaiter = none ∧ 0 < s.fifo.size

theorem Start.paired (h : s.Start) (rx : ℕ) : s.Paired rx :=
  ⟨h.sound, fun task _ => h.phase task, fun hp => absurd ((h.phase rx).symm.trans hp) (by simp),
    fun hp => absurd ((h.phase rx).symm.trans hp) (by simp)⟩

/-- The reader that is registered is the only one there is. -/
theorem Paired.rxwaiter (h : s.Paired rx) (hw : s.rxwaiter = some task) : task = rx := by
  by_contra hne
  obtain ⟨left, hblocked⟩ := h.sound.rxwaiter hw
  exact absurd ((h.other task hne).symm.trans hblocked) (by simp)

/-- The reader is not registered when it is not blocked. -/
theorem Paired.rxwaiter_none (h : s.Paired rx) (hphase : ∀ call, s.phase rx ≠ .blocked call) :
    s.rxwaiter = none := by
  cases hw : s.rxwaiter with
  | none => rfl
  | some task => exact absurd (h.rxwaiter hw ▸ hw) (h.sound.rxwaiter_ne hphase)

/-- Where `pipe_read` leaves it. -/
theorem Paired.readEnd (h : s.Paired rx) (ht : ReadEnd rx s t) : t.Paired rx := by
  refine ⟨ht.sound, fun task hne => (ht.other task hne).trans (h.other task hne), fun hp => ?_, fun hp => ?_⟩
  · rcases ht.stop with ⟨hidle, -⟩ | ⟨-, hw, -⟩
    · exact absurd (hidle.symm.trans hp) (by simp)
    · exact hw
  · rcases ht.stop with ⟨hidle, -⟩ | ⟨⟨left, hblocked⟩, -⟩
    · exact absurd (hidle.symm.trans hp) (by simp)
    · exact absurd (hblocked.symm.trans hp) (by simp)

/-- The byte that makes the reader ready. -/
theorem writeByte_phase {byte : Byte} {call : PipeCall} (hw : s.rxwaiter = some rx)
    (hblocked : s.phase rx = .blocked call) (hwrite : s.writeByte byte = some t) :
    t.phase rx = .ready call := by
  obtain ⟨fifo, -, hwake⟩ := Option.bind_eq_some_iff.mp hwrite
  rw [wakeReader.eq_def] at hwake
  simp only [hw] at hwake
  obtain ⟨u, hunblock, hwake⟩ := Option.bind_eq_some_iff.mp hwake
  rw [unblock.eq_def] at hunblock
  simp only [hblocked] at hunblock
  obtain rfl := Option.some.inj hunblock
  obtain rfl := Option.some.inj hwake
  exact if_pos rfl

theorem Paired.registered (h : s.Paired rx) (hne : rx ≠ tx) : s.Registered rx tx := by
  refine ⟨fun call hp => ?_, fun call hp => ⟨h.blocked hp, fun byte t hwrite => ?_⟩⟩
  · exact absurd ((h.other tx hne.symm).symm.trans hp) (by simp)
  · exact writeByte_phase (h.blocked hp) hp hwrite

/-- **A byte comes**, and the reader that waits becomes ready. -/
theorem Paired.writeByte (h : s.Paired rx) (hroom : s.fifo.size + 1 < s.fifo.length) (byte : Byte) :
    ∃ t, s.writeByte byte = some t ∧ t.Paired rx ∧ t.fifo.size = s.fifo.size + 1 ∧
      t.fifo.length = s.fifo.length := by
  obtain ⟨t, hwrite, ht, hsize, hlength, hnone, hsame⟩ := h.sound.writeByte hroom byte
  refine ⟨t, hwrite, ⟨ht, fun task hne => ?_, fun {call} hp => ?_, fun _ => ⟨hnone, by omega⟩⟩, hsize, hlength⟩
  · rw [hsame task (Or.inl (by simp [h.other task hne]))]
    exact h.other task hne
  · by_cases hw : s.rxwaiter = some rx
    · obtain ⟨left, hblocked⟩ := h.sound.rxwaiter hw
      exact absurd ((writeByte_phase hw hblocked hwrite).symm.trans hp) (by simp)
    · rw [hsame rx (Or.inr hw)] at hp
      exact absurd (h.blocked hp) hw

/-- **`pipe_write` of bytes that fit** returns. -/
theorem Paired.writeLoop (hne : rx ≠ tx) : ∀ {bytes : List Byte} {s : Pipe}, s.Paired rx →
    s.fifo.size + bytes.length + 1 ≤ s.fifo.length →
    ∃ t, Pipe.writeLoop tx bytes s = some t ∧ t.Paired rx := by
  intro bytes
  induction bytes with
  | nil =>
    intro s h _
    have hrx : s.rxwaiter ≠ some tx := fun hw => hne (h.rxwaiter hw).symm
    refine ⟨s.goto tx .idle, rfl, h.sound.goto hrx (by simp), fun task htask => ?_, fun hp => ?_, fun hp => ?_⟩
    · by_cases heq : task = tx
      · rw [heq, goto_phase_self]
      · rw [goto_phase_of_ne s heq]
        exact h.other task htask
    · rw [goto_phase_of_ne s hne] at hp
      exact h.blocked hp
    · rw [goto_phase_of_ne s hne] at hp
      exact h.ready hp
  | cons byte bytes ih =>
    intro s h hfit
    rw [List.length_cons] at hfit
    have hnotfull : ¬s.fifo.full := fun hfull => by
      have := h.sound.wf.full_iff.mp hfull
      omega
    obtain ⟨t, hwrite, ht, hsize, hlength⟩ := h.writeByte (by omega) byte
    obtain ⟨u, hloop, hu⟩ := ih ht (by omega)
    refine ⟨u, ?_, hu⟩
    rw [Pipe.writeLoop, if_neg hnotfull, hwrite]
    exact hloop

/-- **`pipe_write` of bytes that do not fit** blocks the writer, and nobody knows. -/
theorem Paired.writeLoop_blocked : ∀ {bytes : List Byte} {s : Pipe}, s.Paired rx →
    s.fifo.length ≤ s.fifo.size + bytes.length →
    ∃ t call, Pipe.writeLoop tx bytes s = some t ∧ t.phase tx = .blocked call ∧ t.txwaiter = none := by
  intro bytes
  induction bytes with
  | nil =>
    intro s h hfit
    exact absurd h.sound.wf.size_lt (Nat.not_lt.mpr hfit)
  | cons byte bytes ih =>
    intro s h hfit
    rw [List.length_cons] at hfit
    by_cases hfull : s.fifo.full
    · refine ⟨s.goto tx (.blocked (.write (byte :: bytes))), _, ?_, goto_phase_self s, h.sound.txwaiter⟩
      rw [Pipe.writeLoop, if_pos hfull, assert_pos h.sound.txwaiter]
      rfl
    · have hroom : s.fifo.size + 1 < s.fifo.length := by
        have hlt := h.sound.wf.size_lt
        have hnot := mt h.sound.wf.full_iff.mpr hfull
        omega
      obtain ⟨t, hwrite, ht, hsize, hlength⟩ := h.writeByte hroom byte
      obtain ⟨u, call, hloop, hu⟩ := ih ht (by omega)
      refine ⟨u, call, ?_, hu⟩
      rw [Pipe.writeLoop, if_neg hfull, hwrite]
      exact hloop

theorem length_bytesOf (buf : Bytes) (count : ℤ) : (bytesOf buf count).length = count.toNat := by
  rw [bytesOf, List.length_map, List.length_range]

/-- **A step** where the bytes fit. -/
theorem Paired.step (h : s.Paired rx) (hne : rx ≠ tx) (hlegal : s.Legal op) (hbetween : Between rx tx op)
    (hfits : s.Fits op) : ∃ t, s.step op = some ((), t) ∧ t.Paired rx := by
  cases op with
  | read task count =>
    obtain rfl : task = rx := hbetween
    have hidle := ne_blocked_of_idle hlegal
    have hnone := h.rxwaiter_none hidle
    obtain ⟨t, hloop, ht⟩ : ∃ t, Pipe.readLoop task count.toNat s = some t ∧ ReadEnd task s t :=
      h.sound.readLoop (h.sound.rxwaiter_ne hidle) (Or.inr hnone)
    exact ⟨t, by rw [Pipe.step, hloop]; rfl, h.readEnd ht⟩
  | write task buf count =>
    obtain rfl : task = tx := hbetween
    obtain ⟨t, hloop, ht⟩ : ∃ t, Pipe.writeLoop task (bytesOf buf count) s = some t ∧ t.Paired rx :=
      h.writeLoop hne (by rw [length_bytesOf]; exact hfits)
    exact ⟨t, by rw [Pipe.step, hloop]; rfl, ht⟩
  | resume task =>
    obtain ⟨call, hphase⟩ := hlegal
    obtain rfl : task = rx := by
      by_contra hother
      exact absurd ((h.other task hother).symm.trans hphase) (by simp)
    obtain ⟨left, rfl⟩ := h.sound.ready hphase
    obtain ⟨hnone, hpos⟩ := h.ready hphase
    obtain ⟨t, hstep, ht⟩ := h.sound.resume hphase fun _ _ => ⟨hpos, Or.inr hnone⟩
    exact ⟨t, hstep, h.readEnd ht⟩

/-- Elsewhere the writer is blocked, and not registered. -/
theorem Paired.stranded (h : s.Paired rx) (hbetween : Between rx tx op)
    (hfits : ¬s.Fits op) : ∃ t, s.step op = some ((), t) ∧ ¬t.Registered rx tx := by
  cases op with
  | read task count => exact absurd trivial hfits
  | write task buf count =>
    obtain rfl : task = tx := hbetween
    have hmany : ¬s.fifo.size + count.toNat + 1 ≤ s.fifo.length := hfits
    obtain ⟨t, call, hloop, hblocked, hnone⟩ : ∃ t call, Pipe.writeLoop task (bytesOf buf count) s = some t ∧
        t.phase task = .blocked call ∧ t.txwaiter = none :=
      h.writeLoop_blocked (by rw [length_bytesOf]; omega)
    refine ⟨t, by rw [Pipe.step, hloop]; rfl, fun hreg => ?_⟩
    exact absurd (hnone.symm.trans (hreg.writer call hblocked).1) (by simp)
  | resume task => exact absurd trivial hfits

/-- **Any run** of one reader and one writer, from any state that satisfies the invariant. -/
theorem Paired.meets_iff (h : s.Paired rx) (hne : rx ≠ tx) {ops : List PipeOp}
    (hlegal : Run.Along Pipe.step (fun s op => s.Legal op ∧ Between rx tx op) s ops) :
    Run.Meets Pipe.step (fun _ _ _ t => t.Registered rx tx) s ops ↔ Run.Along Pipe.step Fits s ops := by
  refine Run.meets_iff_along (Paired rx) (fun s op hs hop => ⟨?_, fun hfits => ?_⟩) ?_ ops s h hlegal
  · rintro ⟨r, t, hstep, hreg⟩
    by_contra hfits
    obtain ⟨u, hstep', hnot⟩ := hs.stranded hop.2 hfits
    obtain ⟨-, rfl⟩ := Prod.mk.inj (Option.some.inj (hstep'.symm.trans hstep))
    exact hnot hreg
  · obtain ⟨t, hstep, ht⟩ := hs.step hne hop.1 hop.2 hfits
    exact ⟨(), t, hstep, ht.registered hne⟩
  · intro s op r t hs hop hstep hreg
    by_cases hfits : s.Fits op
    · obtain ⟨u, hstep', hu⟩ := hs.step hne hop.1 hop.2 hfits
      obtain ⟨-, rfl⟩ := Prod.mk.inj (Option.some.inj (hstep'.symm.trans hstep))
      exact hu
    · obtain ⟨u, hstep', hnot⟩ := hs.stranded hop.2 hfits
      obtain ⟨-, rfl⟩ := Prod.mk.inj (Option.some.inj (hstep'.symm.trans hstep))
      exact absurd hreg hnot

instance (op : PipeOp) : Decidable (Between rx tx op) :=
  match op with
  | .read task _ => inferInstanceAs (Decidable (task = rx))
  | .write task _ _ => inferInstanceAs (Decidable (task = tx))
  | .resume _ => isTrue trivial

instance (s : Pipe) (op : PipeOp) : Decidable (s.Fits op) :=
  match op with
  | .read _ _ => isTrue trivial
  | .write _ _ count => inferInstanceAs (Decidable (s.fifo.size + count.toNat + 1 ≤ s.fifo.length))
  | .resume _ => isTrue trivial

end Pipe

/-- **One reader and one writer of a pipe.** No assertion fails, and after each step a task that is
blocked is registered, so that the next byte at the other end makes it ready, if and only if
the writer never comes with more bytes than there is room for. -/
theorem pipeRun_registered_iff {s : Pipe} (h : s.Start) {rx tx : ℕ} (hne : rx ≠ tx) {ops : List PipeOp}
    (hlegal : Run.Along Pipe.step (fun s op => s.Legal op ∧ Pipe.Between rx tx op) s ops) :
    Run.Meets Pipe.step (fun _ _ _ t => t.Registered rx tx) s ops ↔ Run.Along Pipe.step Pipe.Fits s ops :=
  (h.paired rx).meets_iff hne hlegal

/-- The reader waits, and goes on when a byte has come. -/
theorem pipeRun_registered_byte : Run.Meets Pipe.step (fun _ _ _ t => t.Registered 1 2) freshPipe
    [.read 1 1, .write 2 (fun _ => 7) 1, .resume 1] :=
  (pipeRun_registered_iff freshPipe_start (by decide) (by decide)).mpr (by decide)

/-- **A writer that comes with as many bytes as the buffer holds** is not registered. -/
theorem pipeRun_stranded :
    Run.Along Pipe.step (fun s op => s.Legal op ∧ Pipe.Between 1 2 op) freshPipe [.write 2 (fun _ => 7) 4096] ∧
      ¬Run.Meets Pipe.step (fun _ _ _ t => t.Registered 1 2) freshPipe [.write 2 (fun _ => 7) 4096] := by
  have hlegal : Run.Along Pipe.step (fun s op => s.Legal op ∧ Pipe.Between 1 2 op) freshPipe
      [.write 2 (fun _ => 7) 4096] := ⟨⟨rfl, rfl⟩, fun _ _ _ => trivial⟩
  refine ⟨hlegal, fun hmeets => ?_⟩
  have hfits := (((freshPipe_start.paired 1).meets_iff (by decide) hlegal).mp hmeets).1
  exact absurd hfits (by decide)

end Onixs
