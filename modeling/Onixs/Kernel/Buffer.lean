import Mathlib.Data.List.Basic
import Mathlib.Data.Nat.Bitwise
import Mathlib.Logic.Function.Basic
import Onixs.Lib.Types

/-!
# The buffer cache

`kernel/buffer.c`, with the lists of `lib/list.c` and `task_unblock` (`kernel/task.c`) as
far as buffers use them. A `buffer_t` is known by its number, counted from `buffer_start`;
`Onixs.Cache.made` of them have been set up, and `Onixs.Cache.cap` fit between the
descriptors and the data areas. A list is the list of the numbers of its members, first
member first. The links of a node are null when it is in no list: `buffer_init` finds
descriptors that are zero, and `list_remove` clears the links.

A block is two sectors, whose contents are of any type `D`, and a device is a function of
the sector number; `device_request` moves the sectors one after the other. Two things end
a function early: an assertion that fails, and a `task_block`. A function that can block
returns `some none` when it does.
-/

namespace Onixs

/-- `buffer_t`. -/
structure Buffer (D : Type) where
  /-- The device. -/
  dev : ℕ
  /-- The block. -/
  block : ℕ
  /-- The reference count, an `int`: its 32 bits as a natural number. -/
  count : ℕ
  /-- The data area, by sectors. -/
  data : ℕ → D
  /-- The holder of the lock. -/
  lock : Option ℕ
  /-- The data is newer than the device's. -/
  dirty : Bool
  /-- The data has been read. -/
  valid : Bool

/-- The variables of `kernel/buffer.c` and the devices. -/
structure Cache (D : Type) where
  /-- The descriptors. -/
  buffers : ℕ → Buffer D
  /-- `buffer_count`. -/
  made : ℕ
  /-- How many descriptors there is room for. -/
  cap : ℕ
  /-- `hash_table`. -/
  hashTable : ℕ → List ℕ
  /-- `free_list`. -/
  freeList : List ℕ
  /-- `wait_list`. -/
  waitList : List ℕ
  /-- The sectors of each device. -/
  disk : ℕ → ℕ → D

namespace Cache

variable {D : Type} (s : Cache D)

/-- `HASH_COUNT`. -/
def hashCount : ℕ := 203

/-- `BLOCK_SECS`. -/
def blockSecs : ℕ := 2

/-- `hash`. -/
def hash (dev block : ℕ) : ℕ := (dev ^^^ block) % hashCount

/-- The number of sector `i` of a block, as `bread` and `bwrite` compute it. -/
def sectorOf (block i : ℕ) : ℕ := u32 (block * blockSecs) + i

/-- Store a descriptor. -/
def setBuffer (bf : ℕ) (b : Buffer D) : Cache D :=
  { s with buffers := Function.update s.buffers bf b }

section SetBuffer

variable (bf : ℕ) (b : Buffer D)

@[simp] theorem setBuffer_made : (s.setBuffer bf b).made = s.made := rfl

@[simp] theorem setBuffer_cap : (s.setBuffer bf b).cap = s.cap := rfl

@[simp] theorem setBuffer_hashTable : (s.setBuffer bf b).hashTable = s.hashTable := rfl

@[simp] theorem setBuffer_freeList : (s.setBuffer bf b).freeList = s.freeList := rfl

@[simp] theorem setBuffer_waitList : (s.setBuffer bf b).waitList = s.waitList := rfl

@[simp] theorem setBuffer_disk : (s.setBuffer bf b).disk = s.disk := rfl

@[simp] theorem setBuffer_self : (s.setBuffer bf b).buffers bf = b := Function.update_self _ _ _

@[simp] theorem setBuffer_setBuffer (b' : Buffer D) :
    (s.setBuffer bf b).setBuffer bf b' = s.setBuffer bf b' := by
  rw [setBuffer, setBuffer, setBuffer]
  simp only [Function.update_idem]

theorem setBuffer_of_ne {c : ℕ} (h : c ≠ bf) : (s.setBuffer bf b).buffers c = s.buffers c :=
  Function.update_of_ne h _ _

end SetBuffer

/-- Store a hash chain. -/
def setChain (idx : ℕ) (chain : List ℕ) : Cache D :=
  { s with hashTable := Function.update s.hashTable idx chain }

/-! ### Finding a buffer -/

/-- `get_from_hash_table`. -/
def getFromHashTable (dev block : ℕ) : Option (ℕ × Cache D) := do
  let bf ← (s.hashTable (hash dev block)).find? fun bf =>
    (s.buffers bf).dev = dev ∧ (s.buffers bf).block = block
  return (bf, { s with freeList := s.freeList.erase bf })

/-- `hash_locate`. -/
def hashLocate (bf : ℕ) : Option (Cache D) := do
  let idx := hash (s.buffers bf).dev (s.buffers bf).block
  assert (bf ∉ s.hashTable idx)
  return s.setChain idx (bf :: s.hashTable idx)

/-- `hash_remove`. -/
def hashRemove (bf : ℕ) : Option (Cache D) := do
  let idx := hash (s.buffers bf).dev (s.buffers bf).block
  assert (bf ∈ s.hashTable idx)
  return s.setChain idx ((s.hashTable idx).erase bf)

/-- `get_new_buffer`. -/
def getNewBuffer : Option (ℕ × Cache D) :=
  if s.made < s.cap then
    let bf := s.made
    let s := s.setBuffer bf { s.buffers bf with
      dev := EOF, block := 0, count := 0, dirty := false, valid := false, lock := none }
    some (bf, { s with made := s.made + 1 })
  else none

/-- `get_free_buffer`, up to the `task_block`. -/
def getFreeBuffer : Option (Option (ℕ × Cache D)) :=
  match s.getNewBuffer with
  | some r => some (some r)
  | none =>
      match s.freeList.getLast? with
      | none => some none
      | some bf => do
          let s := { s with freeList := s.freeList.dropLast }
          let s ← s.hashRemove bf
          return some (bf, s.setBuffer bf { s.buffers bf with valid := false })

/-- `getblk` after the lookup has failed. -/
def takeBuffer (dev block : ℕ) : Option (Option (ℕ × Cache D)) := do
  match ← s.getFreeBuffer with
  | none => return none
  | some (bf, s) =>
      assert ((s.buffers bf).count = 0)
      assert ((s.buffers bf).dirty = false)
      let s := s.setBuffer bf { s.buffers bf with dev := dev, block := block, count := 1 }
      let s ← s.hashLocate bf
      return some (bf, s)

/-- `getblk`. -/
def getblk (dev block : ℕ) : Option (Option (ℕ × Cache D)) :=
  match s.getFromHashTable dev block with
  | some (bf, s) =>
      some (some (bf, s.setBuffer bf
        { s.buffers bf with count := u32 ((s.buffers bf).count + 1) }))
  | none => s.takeBuffer dev block

/-! ### Device requests -/

/-- `device_request` reads sector `i` of a buffer. -/
def readSector (bf i : ℕ) : Cache D :=
  let b := s.buffers bf
  s.setBuffer bf { b with data := Function.update b.data i (s.disk b.dev (sectorOf b.block i)) }

/-- `device_request` writes sector `i` of a buffer. -/
def writeSector (bf i : ℕ) : Cache D :=
  let b := s.buffers bf
  let sectors := Function.update (s.disk b.dev) (sectorOf b.block i) (b.data i)
  { s with disk := Function.update s.disk b.dev sectors }

/-- The two stores after a `device_request`. -/
def requestDone (bf : ℕ) : Cache D :=
  s.setBuffer bf { s.buffers bf with dirty := false, valid := true }

/-- Take or give back the lock of a buffer. -/
def setLock (bf : ℕ) (holder : Option ℕ) : Cache D :=
  s.setBuffer bf { s.buffers bf with lock := holder }

section Sectors

variable (bf i : ℕ)

@[simp] theorem writeSector_buffers : (s.writeSector bf i).buffers = s.buffers := rfl

@[simp] theorem readSector_disk : (s.readSector bf i).disk = s.disk := rfl

@[simp] theorem requestDone_disk : (s.requestDone bf).disk = s.disk := rfl

/-- A sector of a device after a sector of a buffer has been written. -/
theorem writeSector_disk (dev x : ℕ) : (s.writeSector bf i).disk dev x =
    if dev = (s.buffers bf).dev ∧ x = sectorOf (s.buffers bf).block i then (s.buffers bf).data i
    else s.disk dev x := by
  rw [writeSector]
  rcases eq_or_ne dev (s.buffers bf).dev with rfl | hdev
  · rcases eq_or_ne x (sectorOf (s.buffers bf).block i) with rfl | hx
    · simp
    · simp [hx]
  · simp [hdev]

/-- Below block 2³¹ two blocks have no sector in common. -/
theorem sectorOf_inj {b b' i j : ℕ} (hb : b < 2147483648) (hb' : b' < 2147483648) (hi : i < 2)
    (hj : j < 2) (h : sectorOf b i = sectorOf b' j) : b = b' ∧ i = j := by
  rw [sectorOf, sectorOf, blockSecs, u32_of_lt (by omega), u32_of_lt (by omega)] at h
  omega

end Sectors

/-! ### The functions of the interface -/

/-- `bread` by a task that nothing makes wait. -/
def bread (task dev block : ℕ) : Option (ℕ × Cache D) := do
  let (bf, s) ← (← s.getblk dev block)
  if (s.buffers bf).valid then
    return (bf, s)
  assert ((s.buffers bf).lock = none)
  let s := s.setLock bf (some task)
  let s := ((s.readSector bf 0).readSector bf 1).requestDone bf
  return (bf, s.setLock bf none)

/-- `bwrite`. -/
def bwrite (bf : ℕ) : Cache D :=
  if (s.buffers bf).dirty then ((s.writeSector bf 0).writeSector bf 1).requestDone bf else s

/-- `task_unblock` of a task that waits for a buffer. `list_remove` asserts that the node of the
task is linked, and `task_block` that it was in no list before `wait_list`. -/
def taskUnblock (task : ℕ) : Option (Cache D) := do
  assert (task ∈ s.waitList)
  return { s with waitList := s.waitList.erase task }

/-- `brelse` after the data has been written. -/
def putBuffer (bf : ℕ) : Option (Cache D) := do
  let s := s.setBuffer bf { s.buffers bf with count := sub32 (s.buffers bf).count 1 }
  assert ((s.buffers bf).count < 2147483648)
  if (s.buffers bf).count ≠ 0 then
    return s
  assert (bf ∉ s.freeList)
  let s := { s with freeList := bf :: s.freeList }
  match s.waitList.getLast? with
  | none => return s
  | some task =>
      let s := { s with waitList := s.waitList.dropLast }
      s.taskUnblock task

/-- `brelse`. -/
def brelse (bf : ℕ) : Option (Cache D) := (s.bwrite bf).putBuffer bf

/-- A store into the data of a buffer, which sets `dirty`. -/
def store (bf i : ℕ) (d : D) : Cache D :=
  let b := s.buffers bf
  s.setBuffer bf { b with data := Function.update b.data i d, dirty := true }

section Bread

variable {s} {t : Cache D} {task dev block bf : ℕ}

/-- What `device_request` leaves in a buffer it has read. -/
def loaded (t : Cache D) (bf : ℕ) : Buffer D :=
  let b := t.buffers bf
  { b with
    data := Function.update (Function.update b.data 0 (t.disk b.dev (sectorOf b.block 0))) 1
      (t.disk b.dev (sectorOf b.block 1)),
    lock := none, dirty := false, valid := true }

theorem loaded_data (i : ℕ) (hi : i < 2) : (t.loaded bf).data i =
    t.disk (t.buffers bf).dev (sectorOf (t.buffers bf).block i) := by
  obtain rfl | rfl : i = 0 ∨ i = 1 := by omega
  · rfl
  · rfl

/-- `bread` of a block whose data is there. -/
theorem bread_hit (hget : s.getblk dev block = some (some (bf, t))) (hvalid : (t.buffers bf).valid = true) :
    s.bread task dev block = some (bf, t) := by
  rw [bread, hget]
  simp only [Option.bind_eq_bind, Option.bind_some, hvalid, if_pos, Option.pure_def]

/-- `bread` of another block. -/
theorem bread_miss (hget : s.getblk dev block = some (some (bf, t)))
    (hvalid : (t.buffers bf).valid = false) (hlock : (t.buffers bf).lock = none) :
    s.bread task dev block = some (bf, t.setBuffer bf (t.loaded bf)) := by
  rw [bread, hget]
  simp only [Option.bind_eq_bind, Option.bind_some, hvalid, Bool.false_eq_true, if_false, assert_pos hlock,
    Option.pure_def, setLock, readSector, requestDone, setBuffer_self, setBuffer_setBuffer, setBuffer_disk]
  rfl

/-- `bwrite` of a dirty buffer. -/
theorem bwrite_dirty (hdirty : (s.buffers bf).dirty = true) :
    s.bwrite bf = ((s.writeSector bf 0).writeSector bf 1).requestDone bf := if_pos hdirty

/-- `bwrite` of a clean buffer. -/
theorem bwrite_clean (hdirty : (s.buffers bf).dirty = false) : s.bwrite bf = s := by
  rw [bwrite, hdirty]
  rfl

theorem bwrite_key (s : Cache D) (bf b : ℕ) : ((s.bwrite bf).buffers b).dev = (s.buffers b).dev ∧
    ((s.bwrite bf).buffers b).block = (s.buffers b).block := by
  rw [bwrite]
  split
  · rcases eq_or_ne b bf with rfl | hne
    · rw [requestDone, setBuffer_self]
      exact ⟨rfl, rfl⟩
    · rw [requestDone, setBuffer_of_ne _ _ _ hne]
      exact ⟨rfl, rfl⟩
  · exact ⟨rfl, rfl⟩

theorem store_key (s : Cache D) (bf i : ℕ) (d : D) (b : ℕ) :
    ((s.store bf i d).buffers b).dev = (s.buffers b).dev ∧
      ((s.store bf i d).buffers b).block = (s.buffers b).block := by
  rcases eq_or_ne b bf with rfl | hne
  · rw [store, setBuffer_self]
    exact ⟨rfl, rfl⟩
  · rw [store, setBuffer_of_ne _ _ _ hne]
    exact ⟨rfl, rfl⟩

/-- `brelse` changes the counter of a buffer only. -/
theorem putBuffer_buffers (h : s.putBuffer bf = some t) : t.buffers =
    (s.setBuffer bf { s.buffers bf with count := sub32 (s.buffers bf).count 1 }).buffers := by
  rw [putBuffer] at h
  obtain ⟨_, -, h⟩ := Option.bind_eq_some_iff.mp h
  split at h
  · rw [← Option.some.inj h]
  obtain ⟨_, -, h⟩ := Option.bind_eq_some_iff.mp h
  simp only at h
  split at h
  · rw [← Option.some.inj h]
  · obtain ⟨_, -, h⟩ := Option.bind_eq_some_iff.mp h
    rw [← Option.some.inj h]

/-- Stores and releases leave the block of every buffer alone. -/
theorem brelse_key (h : s.brelse bf = some t) (b : ℕ) :
    (t.buffers b).dev = (s.buffers b).dev ∧ (t.buffers b).block = (s.buffers b).block := by
  have hwrite : ((s.bwrite bf).buffers b).dev = (s.buffers b).dev ∧
      ((s.bwrite bf).buffers b).block = (s.buffers b).block := bwrite_key s bf b
  rw [putBuffer_buffers h]
  rcases eq_or_ne b bf with rfl | hne
  · rw [setBuffer_self]
    exact hwrite
  · rw [setBuffer_of_ne _ _ _ hne]
    exact hwrite

end Bread

end Cache

end Onixs
