import Onixs.Common.Refine
import Onixs.Lib.Fifo

/-!
# The ring is a queue that drops its oldest byte

What pipes, the keyboard and the serial line rest on: a ring over a buffer of `length` bytes is a queue of `length - 1`
bytes. A put on the full queue drops the oldest byte first, a get takes the oldest, and there is no get on the empty
queue. `Onixs.Fifo.refines_queue` says that runs of `fifo_put` and `fifo_get` answer as runs of the queue do.
-/

namespace Onixs

/-- What is done with a queue. -/
inductive QueueOp (α : Type) where
  /-- Add an element. -/
  | put (x : α)
  /-- Take the oldest element. -/
  | get

namespace Queue

variable {α : Type} {cap : ℕ}

/-- **The queue** of at most `cap` elements, oldest first. -/
def step (cap : ℕ) (q : List α) : QueueOp α → Option (Option α × List α)
  | .put x => some (none, (if q.length = cap then q.tail else q) ++ [x])
  | .get => q.head?.map fun x => (some x, q.tail)

end Queue

namespace Fifo

/-- A call of `fifo_put` or `fifo_get`. -/
def step (fifo : Fifo) : QueueOp Byte → Option (Option Byte × Fifo)
  | .put byte => (fifo.put byte).map fun fifo => (none, fifo)
  | .get => fifo.get.map fun p => (some p.1, p.2)

variable {fifo t : Fifo} {byte : Byte}

theorem WF.size_eq_zero_iff (h : fifo.WF) : fifo.empty = true ↔ fifo.contents.length = 0 := by
  rw [h.empty_iff, length_contents]

/-- A ring that is not full has room. -/
theorem makeRoom_of_not_full (h : fifo.full = false) {fuel : ℕ} : makeRoom (fuel + 1) fifo = some fifo := by
  rw [makeRoom, h]
  rfl

/-- **`fifo_put`** on a full ring drops the oldest byte. -/
theorem WF.put_full (h : fifo.WF) (hfull : fifo.size + 1 = fifo.length) (byte : Byte) :
    ∃ t, fifo.put byte = some t ∧ t.WF ∧ t.length = fifo.length ∧ t.contents = fifo.contents.tail ++ [byte] := by
  have hlength := h.length
  obtain ⟨old, u, hget, hu, hulength, hcontents⟩ := h.get (by omega)
  have husize : u.size + 1 = fifo.size := by
    rw [← length_contents, ← length_contents, hcontents, List.length_cons]
  have hufull : u.full = false := by
    rw [Bool.eq_false_iff, ne_eq, hu.full_iff]
    omega
  -- the get makes room, and the put is one on what it leaves
  have hroom : makeRoom fifo.length fifo = makeRoom u.length u := by
    obtain ⟨fuel, hfuel⟩ := Nat.exists_eq_add_of_le' hlength
    rw [hulength, hfuel, makeRoom_of_not_full hufull, makeRoom, if_pos (h.full_iff.mpr hfull), hget]
    exact makeRoom_of_not_full hufull
  have hput : fifo.put byte = u.put byte := by rw [Fifo.put, Fifo.put, hroom]
  obtain ⟨t, ht, htwf, htlength, htcontents⟩ := hu.put (by omega) byte
  refine ⟨t, hput.trans ht, htwf, htlength.trans hulength, ?_⟩
  rw [htcontents, hcontents, List.tail_cons]

/-- The ring is the queue `q`. -/
def Is (length : ℕ) (fifo : Fifo) (q : List Byte) : Prop := fifo.WF ∧ fifo.length = length ∧ fifo.contents = q

/-- **A call** does what the queue does. -/
theorem Is.step {length : ℕ} {q q' : List Byte} {op : QueueOp Byte} {r : Option Byte} (h : Is length fifo q)
    (hq : Queue.step (length - 1) q op = some (r, q')) : ∃ t, fifo.step op = some (r, t) ∧ Is length t q' := by
  obtain ⟨hwf, rfl, rfl⟩ := h
  have hlength := hwf.length
  have hlt := hwf.size_lt
  cases op with
  | put byte =>
    obtain ⟨rfl, rfl⟩ := Prod.mk.inj (Option.some.inj hq)
    rw [length_contents]
    by_cases hfull : fifo.size + 1 = fifo.length
    · obtain ⟨t, ht, htwf, htlength, hcontents⟩ := hwf.put_full hfull byte
      rw [if_pos (by omega)]
      exact ⟨t, Option.map_eq_some_iff.mpr ⟨t, ht, rfl⟩, htwf, htlength, hcontents⟩
    · obtain ⟨t, ht, htwf, htlength, hcontents⟩ := hwf.put (by omega) byte
      rw [if_neg (by omega)]
      exact ⟨t, Option.map_eq_some_iff.mpr ⟨t, ht, rfl⟩, htwf, htlength, hcontents⟩
  | get =>
    obtain ⟨x, hhead, hx⟩ := Option.map_eq_some_iff.mp hq
    obtain ⟨rfl, rfl⟩ := Prod.mk.inj hx
    have hne : fifo.size ≠ 0 := by
      intro hzero
      rw [← length_contents, List.length_eq_zero_iff] at hzero
      rw [hzero] at hhead
      exact absurd hhead (by simp)
    obtain ⟨byte, t, ht, htwf, htlength, hcontents⟩ := hwf.get hne
    rw [hcontents] at hhead ⊢
    obtain rfl := Option.some.inj hhead
    exact ⟨t, Option.map_eq_some_iff.mpr ⟨(byte, t), ht, rfl⟩, htwf, htlength, rfl⟩

/-- **The ring is the queue**: after `fifo_init`, a run that the queue allows, which is one that takes nothing from the
empty queue, fails no assertion and answers as the queue does. At its end both positions lie in the buffer, the bytes
in the ring are those of the queue, and `fifo_full` and `fifo_empty` say how many there are. -/
theorem refines_queue {buf : Bytes} {length : ℕ} (hlength : 2 ≤ length) {ops : List (QueueOp Byte)}
    {rs : List (Option Byte)} {q : List Byte} (hrun : Refine.trace (Queue.step (length - 1)) [] ops = some (rs, q)) :
    ∃ t : Fifo, Refine.trace Fifo.step (fifoInit buf length) ops = some (rs, t) ∧ t.length = length ∧
      t.head < length ∧ t.tail < length ∧ t.contents = q ∧ q.length ≤ length - 1 ∧
      (t.full = true ↔ q.length = length - 1) ∧ (t.empty = true ↔ q.length = 0) := by
  have hstep : ∀ (s : Fifo) (q : List Byte) (op : QueueOp Byte) (r : Option Byte) (q' : List Byte), Is length s q →
      Queue.step (length - 1) q op = some (r, q') → ∃ t, s.step op = some (r, t) ∧ Is length t q' :=
    fun _ _ _ _ _ h hq => h.step hq
  obtain ⟨t, ht, hwf, hlen, rfl⟩ := Refine.trace_of_step (Is length) hstep ops
    (fifoInit buf length) [] rs q ⟨wf_fifoInit hlength, rfl, rfl⟩ hrun
  have hlt := hwf.size_lt
  refine ⟨t, ht, hlen, hlen ▸ hwf.head, hlen ▸ hwf.tail, rfl, ?_, ?_, hwf.size_eq_zero_iff⟩
  · rw [length_contents]
    omega
  · rw [hwf.full_iff, length_contents]
    omega

theorem refines_queue_three : ∃ t : Fifo,
    Refine.trace Fifo.step (fifoInit (fun _ => 0#8) 3) [.put 1#8, .put 2#8, .put 3#8, .get] =
      some ([none, none, none, some 2#8], t) ∧ t.length = 3 ∧ t.head < 3 ∧ t.tail < 3 ∧ t.contents = [3#8] ∧
      [3#8].length ≤ 3 - 1 ∧ (t.full = true ↔ [3#8].length = 3 - 1) ∧ (t.empty = true ↔ [3#8].length = 0) :=
  refines_queue (by decide) rfl

end Fifo

end Onixs
