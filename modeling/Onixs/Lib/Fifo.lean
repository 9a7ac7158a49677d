import Onixs.Lib.Types

/-!
# The ring of bytes

`lib/fifo.c`. A `fifo_t` is a buffer with a position where the next byte is put and one where
the next is taken; it is full with one byte less than the buffer holds. `Fifo.contents` are
the bytes in it, oldest first: `fifo_get` takes the first of them and `fifo_put` adds one
behind the last.

Positions are below the length, so that `pos + 1` does not wrap.
-/

namespace Onixs

open Bytes

/-- `fifo_t`. -/
structure Fifo where
  /-- The buffer. -/
  buf : Bytes
  /-- Its length. -/
  length : ℕ
  /-- Where the next byte is put. -/
  head : ℕ
  /-- Where the next byte is taken. -/
  tail : ℕ

/-- `fifo_init`. -/
def fifoInit (buf : Bytes) (length : ℕ) : Fifo where
  buf := buf
  length := length
  head := 0
  tail := 0

namespace Fifo

variable (fifo : Fifo)

/-- `fifo_next`. -/
def next (pos : ℕ) : ℕ := (pos + 1) % fifo.length

/-- `fifo_full`. -/
def full : Bool := fifo.tail = fifo.next fifo.head

/-- `fifo_empty`. -/
def empty : Bool := fifo.head = fifo.tail

/-- `fifo_get`. -/
def get : Option (Byte × Fifo) := do
  assert (fifo.empty = false)
  return (fifo.buf fifo.tail, { fifo with tail := fifo.next fifo.tail })

/-- The loop of `fifo_put` that makes room, in at most so many rounds. -/
def makeRoom : ℕ → Fifo → Option Fifo
  | 0, _ => none
  | fuel + 1, fifo =>
      if fifo.full then do
        let (_, fifo) ← fifo.get
        makeRoom fuel fifo
      else
        some fifo

/-- `fifo_put`. -/
def put (byte : Byte) : Option Fifo := do
  let fifo ← makeRoom fifo.length fifo
  return { fifo with
    buf := fun i => if i = fifo.head then byte else fifo.buf i
    head := fifo.next fifo.head }

/-- How many bytes are in the ring. -/
def size : ℕ := if fifo.tail ≤ fifo.head then fifo.head - fifo.tail else fifo.head + fifo.length - fifo.tail

/-- **The bytes in the ring**, oldest first. -/
def contents : List Byte := (List.range fifo.size).map fun i => fifo.buf ((fifo.tail + i) % fifo.length)

/-- The positions lie in the buffer, which has room for a byte. -/
structure WF : Prop where
  /-- The buffer has room for a byte. -/
  length : 2 ≤ fifo.length
  /-- The place to put a byte. -/
  head : fifo.head < fifo.length
  /-- The place to take one. -/
  tail : fifo.tail < fifo.length

variable {fifo}

theorem wf_fifoInit {buf : Bytes} {length : ℕ} (h : 2 ≤ length) : (fifoInit buf length).WF :=
  ⟨h, Nat.lt_of_lt_of_le Nat.two_pos h, Nat.lt_of_lt_of_le Nat.two_pos h⟩

@[simp] theorem contents_fifoInit {buf : Bytes} {length : ℕ} : (fifoInit buf length).contents = [] := rfl

@[simp] theorem length_contents : fifo.contents.length = fifo.size := by
  rw [contents, List.length_map, List.length_range]

/-- A position a few places on, which goes round the end once. -/
theorem add_mod_eq {a b n : ℕ} (ha : a < n) (hb : b ≤ n) :
    (a + b) % n = if a + b < n then a + b else a + b - n := by
  split
  next hlt => exact Nat.mod_eq_of_lt hlt
  next hge => rw [Nat.mod_eq_sub_mod (by omega), Nat.mod_eq_of_lt (by omega)]

theorem WF.next_eq (h : fifo.WF) {pos : ℕ} (hpos : pos < fifo.length) :
    fifo.next pos = if pos + 1 < fifo.length then pos + 1 else 0 := by
  rw [next, add_mod_eq hpos (by have := h.length; omega)]
  split
  · rfl
  · omega

theorem WF.size_lt (h : fifo.WF) : fifo.size < fifo.length := by
  have hhead := h.head
  have htail := h.tail
  rw [size]
  split <;> omega

theorem WF.empty_iff (h : fifo.WF) : fifo.empty = true ↔ fifo.size = 0 := by
  have hhead := h.head
  have htail := h.tail
  rw [empty, decide_eq_true_iff, size]
  split <;> omega

theorem WF.full_iff (h : fifo.WF) : fifo.full = true ↔ fifo.size + 1 = fifo.length := by
  have hlength := h.length
  have hhead := h.head
  have htail := h.tail
  rw [full, decide_eq_true_iff, h.next_eq h.head, size]
  split <;> split <;> omega

/-- **`fifo_get`** takes the oldest byte. -/
theorem WF.get (h : fifo.WF) (hne : fifo.size ≠ 0) :
    ∃ byte t, fifo.get = some (byte, t) ∧ t.WF ∧ t.length = fifo.length ∧
      fifo.contents = byte :: t.contents := by
  have hlength := h.length
  have hhead := h.head
  have htail := h.tail
  have hempty : fifo.empty = false := by
    rw [Bool.eq_false_iff, ne_eq, h.empty_iff]
    exact hne
  refine ⟨fifo.buf fifo.tail, { fifo with tail := fifo.next fifo.tail }, ?_,
    ⟨h.length, h.head, Nat.mod_lt _ (by omega)⟩, rfl, ?_⟩
  · rw [Fifo.get, assert_pos hempty]
    rfl
  · have hsize : fifo.size = { fifo with tail := fifo.next fifo.tail : Fifo }.size + 1 := by
      rw [size] at hne
      rw [size, size]
      simp only [h.next_eq htail]
      split <;> split <;> split <;> split at hne <;> omega
    rw [contents, hsize, List.range_succ_eq_map, List.map_cons, Nat.add_zero, Nat.mod_eq_of_lt htail,
      List.map_map, contents]
    refine congrArg _ (List.map_congr_left fun i _ => congrArg fifo.buf ?_)
    rw [next, Nat.mod_add_mod, Nat.add_assoc, Nat.add_comm 1 i]

/-- An empty ring has no byte to take. -/
theorem WF.get_eq_none (h : fifo.WF) (hzero : fifo.size = 0) : fifo.get = none := by
  rw [Fifo.get, h.empty_iff.mpr hzero]
  rfl

/-- **`fifo_put`** of a byte that fits adds it behind the others. -/
theorem WF.put (h : fifo.WF) (hroom : fifo.size + 1 < fifo.length) (byte : Byte) :
    ∃ t, fifo.put byte = some t ∧ t.WF ∧ t.length = fifo.length ∧
      t.contents = fifo.contents ++ [byte] := by
  have hlength := h.length
  have hhead := h.head
  have htail := h.tail
  have hfull : fifo.full = false := by
    rw [Bool.eq_false_iff, ne_eq, h.full_iff]
    omega
  have hroom' : makeRoom fifo.length fifo = some fifo := by
    rw [show fifo.length = (fifo.length - 1) + 1 by omega, makeRoom, hfull]
    rfl
  obtain ⟨t, ht⟩ : ∃ t : Fifo, t = { fifo with
    buf := fun i => if i = fifo.head then byte else fifo.buf i
    head := fifo.next fifo.head } := ⟨_, rfl⟩
  have hsize : t.size = fifo.size + 1 := by
    rw [size] at hroom
    rw [ht, size, size]
    simp only [h.next_eq hhead]
    split <;> split <;> split <;> split at hroom <;> omega
  -- the byte is put where the others end
  have hplace : ∀ i ≤ fifo.size, (fifo.tail + i) % fifo.length = fifo.head ↔ i = fifo.size := by
    intro i hi
    have hlt := h.size_lt
    rw [add_mod_eq htail (by omega)]
    rw [size] at hi hlt ⊢
    split <;> split <;> split at hi <;> omega
  refine ⟨t, ?_, ⟨by rw [ht]; exact hlength, by rw [ht]; exact Nat.mod_lt _ (by omega),
    by rw [ht]; exact htail⟩, by rw [ht], ?_⟩
  · rw [Fifo.put, hroom', ht]
    rfl
  · rw [contents, hsize, List.range_succ, List.map_append, List.map_singleton, ht]
    congr 1
    · refine List.map_congr_left fun i hi => if_neg ?_
      have hlt := List.mem_range.mp hi
      rw [hplace i (by omega)]
      omega
    · exact congrArg (fun b => [b]) (if_pos ((hplace fifo.size (le_refl _)).mpr rfl))

end Fifo

end Onixs
