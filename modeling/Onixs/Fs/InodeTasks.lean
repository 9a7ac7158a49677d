import Onixs.Common.RefCount
import Onixs.Fs.Inode
import Onixs.Kernel.BufferRun

/-!
# Many tasks and the inode table

`iget` and `iput` called by any number of tasks. A task can lose the processor in `iget`
where it reads the block of the descriptor, behind the point where the entry is in the list
of the super block, and in `iput` and `fit_inode` where the block is written.
`Onixs.InodePhase` is where a task stands. `Onixs.Kernel.BufferRun` is the cache underneath:
what a `bread` or a `bwrite` does to it is done when the call returns.

The entries are those of `iget`: pipes, which have no block, and the times of an inode are
left out.
-/

namespace Onixs

/-- `inode_t`, with its pointers into the cache. -/
structure InodeSlot where
  /-- Device, `EOF` in a free entry. -/
  dev : ℕ
  /-- Number of the inode. -/
  nr : ℕ
  /-- Reference count. -/
  count : ℕ
  /-- The buffer `buf`. -/
  buf : ℕ
  /-- The buffer and the place in its data that `desc` points to. -/
  desc : ℕ × ℕ
  /-- Device mounted here. -/
  mount : ℕ

/-- `super_block_t`, as far as `iget` reads it. -/
structure SuperSlot where
  /-- The descriptor. -/
  desc : SuperDesc
  /-- The inodes of the device that are in memory. -/
  inodeList : List ℕ
  /-- Root directory. -/
  iroot : Option ℕ

/-- Where a task stands. -/
inductive InodePhase where
  /-- In no function of the inode table. -/
  | idle
  /-- In `iget`, in the `bread` of an entry it has taken. -/
  | loading (i : ℕ)
  /-- In `iput`, in the `bwrite`. -/
  | releasing (i : ℕ)
  /-- In the `iput` of `fit_inode`, in the `bwrite`. -/
  | crossing (i : ℕ)
deriving DecidableEq

/-- A reference to an entry that a task has, and the inode it stands for. -/
structure InodeRef where
  /-- The task. -/
  task : ℕ
  /-- The entry. -/
  slot : ℕ
  /-- The device. -/
  dev : ℕ
  /-- The number. -/
  nr : ℕ
deriving DecidableEq

/-- The inode table, the cache, and the tasks that use them. -/
structure InodeTasks (D : Type) where
  /-- The cache, with the buffers in use. -/
  user : CacheUser D
  /-- `inode_table`. -/
  slots : ℕ → InodeSlot
  /-- What `get_super` finds. -/
  supers : ℕ → Option SuperSlot
  /-- Where each task stands. -/
  phase : ℕ → InodePhase
  /-- The references the tasks have. -/
  held : List InodeRef

/-- What a task does next. -/
inductive IgetOp (D : Type) where
  /-- Call `iget`. -/
  | iget (task dev nr : ℕ)
  /-- Call `iput`. -/
  | iput (task i : ℕ)
  /-- Store into the block of an inode, which sets `dirty`. -/
  | store (task i k : ℕ) (d : D)
  /-- Go on after it was blocked. -/
  | resume (task : ℕ)

namespace InodeTasks

variable {D : Type} (s : InodeTasks D)

/-- Store an entry. -/
def setSlot (i : ℕ) (slot : InodeSlot) : InodeTasks D :=
  { s with slots := Function.update s.slots i slot }

/-- A task gets to another place. -/
def goto (task : ℕ) (phase : InodePhase) : InodeTasks D :=
  { s with phase := Function.update s.phase task phase }

/-- One reference more. -/
def addRef (task i : ℕ) : InodeTasks D :=
  let slot := s.slots i
  let s := s.setSlot i { slot with count := u32 (slot.count + 1) }
  { s with held := ⟨task, i, slot.dev, slot.nr⟩ :: s.held }

/-- `find_inode`. -/
def findInode (dev nr : ℕ) : Option (Option ℕ) := do
  let sb ← s.supers dev
  return sb.inodeList.find? fun i => (s.slots i).nr = nr

/-- `get_free_inode`. -/
def getFreeInode : Option ℕ := (List.range inodeNr).find? fun i => (s.slots i).dev = EOF

/-- `iget` up to the point where it blocks, or to its end. -/
def iget (task dev nr : ℕ) : Option (InodeTasks D) := do
  match ← s.findInode dev nr with
  | some i =>
      let s := s.addRef task i
      if (s.slots i).mount = 0 then
        return s
      assert ((s.supers (s.slots i).mount).isSome)
      return s.goto task (.crossing i)
  | none =>
      let sb ← s.supers dev
      assert (nr ≤ sb.desc.inodes)
      let i ← s.getFreeInode
      let s := s.setSlot i { s.slots i with dev := dev, nr := nr }
      let s := s.addRef task i
      let s := { s with supers := Function.update s.supers dev (some { sb with inodeList := i :: sb.inodeList }) }
      return s.goto task (.loading i)

/-- `iget` behind the `bread`. -/
def load (task i : ℕ) : Option (InodeTasks D) := do
  let slot := s.slots i
  let sb ← s.supers slot.dev
  let (r, user) ← s.user.step (.bread slot.dev (inodeBlock sb.desc slot.nr))
  let bf ← r
  let s := { s with user := user }
  let s := s.setSlot i { slot with buf := bf, desc := (bf, sub32 slot.nr 1 % blockInodes) }
  return s.goto task .idle

/-- `iput` behind the `bwrite`. -/
def release (task i : ℕ) : Option (InodeTasks D) := do
  let slot := s.slots i
  let (_, user) ← s.user.step (.bwrite slot.buf)
  let s := { s with user := user, held := s.held.erase ⟨task, i, slot.dev, slot.nr⟩ }
  let s := s.setSlot i { slot with count := sub32 slot.count 1 }
  if (s.slots i).count ≠ 0 then
    return s
  let (_, user) ← s.user.step (.brelse slot.buf)
  let s := { s with user := user }
  let sb ← s.supers slot.dev
  assert (i ∈ sb.inodeList)
  let s := { s with
    supers := Function.update s.supers slot.dev (some { sb with inodeList := sb.inodeList.erase i }) }
  assert (i ≠ 0)
  return s.setSlot i { s.slots i with dev := EOF }

/-- A task goes on. -/
def resume (task : ℕ) : Option (InodeTasks D) :=
  match s.phase task with
  | .idle => none
  | .loading i => s.load task i
  | .releasing i => (s.goto task .idle).release task i
  | .crossing i => do
      let mount := (s.slots i).mount
      let s ← (s.goto task .idle).release task i
      let sb ← s.supers mount
      let root ← sb.iroot
      return s.addRef task root

/-- A step. No value means that an assertion fails, or that there is no entry or no buffer left. -/
def step : IgetOp D → Option (Unit × InodeTasks D)
  | .iget task dev nr => (s.iget task dev nr).map fun t => ((), t)
  | .iput task i => some ((), s.goto task (.releasing i))
  | .store _ i k d => (s.user.step (.store (s.slots i).buf k d)).map fun r => ((), { s with user := r.2 })
  | .resume task => (s.resume task).map fun t => ((), t)

/-- The references to an entry. -/
def refs (i : ℕ) : ℕ := (s.held.map InodeRef.slot).count i

/-- A task that is in no function uses an inode it has; another goes on. -/
def Legal : IgetOp D → Prop
  | .iget task _ _ => s.phase task = .idle
  | .iput task i => s.phase task = .idle ∧ ∃ r ∈ s.held, r.task = task ∧ r.slot = i
  | .store task i k _ => s.phase task = .idle ∧ (∃ r ∈ s.held, r.task = task ∧ r.slot = i) ∧ k < 2
  | .resume task => s.phase task ≠ .idle

/-- No counter overflows. -/
def Counted (_ : IgetOp D) : Prop := ∀ i < inodeNr, (s.slots i).count < 4294967295

/-- No inode is looked up while a task loads it. -/
def Apart : IgetOp D → Prop
  | .iget _ dev nr => ∀ r ∈ s.held, s.phase r.task = .loading r.slot → ¬(r.dev = dev ∧ r.nr = nr)
  | _ => True

instance : (op : IgetOp D) → Decidable (s.Legal op)
  | .iget task _ _ => inferInstanceAs (Decidable (s.phase task = .idle))
  | .iput task i => inferInstanceAs (Decidable (s.phase task = .idle ∧
      ∃ r ∈ s.held, r.task = task ∧ r.slot = i))
  | .store task i k _ => inferInstanceAs (Decidable (s.phase task = .idle ∧
      (∃ r ∈ s.held, r.task = task ∧ r.slot = i) ∧ k < 2))
  | .resume task => inferInstanceAs (Decidable (s.phase task ≠ .idle))

instance (op : IgetOp D) : Decidable (s.Counted op) :=
  inferInstanceAs (Decidable (∀ i < inodeNr, (s.slots i).count < 4294967295))

instance : (op : IgetOp D) → Decidable (s.Apart op)
  | .iget _ dev nr => inferInstanceAs (Decidable
      (∀ r ∈ s.held, s.phase r.task = .loading r.slot → ¬(r.dev = dev ∧ r.nr = nr)))
  | .iput _ _ => inferInstanceAs (Decidable True)
  | .store _ _ _ _ => inferInstanceAs (Decidable True)
  | .resume _ => inferInstanceAs (Decidable True)

/-- **Entry `i` is inode `nr` of `dev`**: its descriptor is where it should be. -/
structure Loaded (i dev nr : ℕ) : Prop where
  /-- The device. -/
  dev_eq : (s.slots i).dev = dev
  /-- The number. -/
  nr_eq : (s.slots i).nr = nr
  /-- `desc` points to the entry of the inode in the data of `buf`. -/
  desc_eq : (s.slots i).desc = ((s.slots i).buf, sub32 nr 1 % blockInodes)
  /-- `buf` holds the block of the inode. -/
  key_eq : ∃ sb, s.supers dev = some sb ∧ s.user.key (s.slots i).buf = (dev, inodeBlock sb.desc nr)
  /-- It has been read. -/
  valid : (s.user.cache.buffers (s.slots i).buf).valid = true

/-! ### The invariant -/

/-- Entry `i` has been taken and not been read. -/
def Loading (i : ℕ) : Prop := ∃ r ∈ s.held, r.slot = i ∧ s.phase r.task = .loading i

instance (i : ℕ) : Decidable (s.Loading i) :=
  inferInstanceAs (Decidable (∃ r ∈ s.held, r.slot = i ∧ s.phase r.task = .loading i))

/-- The buffer entry `i` has a reference to. -/
def bufOf (i : ℕ) : Option ℕ :=
  if (s.slots i).dev = EOF ∨ s.Loading i then none else some (s.slots i).buf

/-- **Entries that have been read are what they stand for.** Beside the tasks the super blocks
refer to entries, `pins i` times to entry `i`, and `base bf` references to buffer `bf` are not for
an inode. -/
structure Sound (pins base : ℕ → ℕ) : Prop where
  /-- The cache is in order. -/
  cache : s.user.Transparent
  /-- There is room for the references of the table. -/
  room : ∀ bf, base bf + 64 ≤ 2147483648
  /-- Each entry has a reference to its buffer. -/
  bufs : ∀ bf, s.user.held.count bf = base bf + refCount (Finset.range inodeNr) s.bufOf bf
  /-- The counters, which have not overflowed. -/
  count : ∀ i < inodeNr, (s.slots i).count = s.refs i + pins i ∧ s.refs i + pins i < 4294967296
  /-- Nobody refers to a free entry. -/
  free : ∀ i < inodeNr, (s.slots i).dev = EOF → s.refs i = 0 ∧ pins i = 0
  /-- The descriptor of an entry that has been read. -/
  placed : ∀ i < inodeNr, (s.slots i).dev ≠ EOF → ¬s.Loading i →
    (s.slots i).desc = ((s.slots i).buf, sub32 (s.slots i).nr 1 % blockInodes) ∧
    ∃ sb, s.supers (s.slots i).dev = some sb ∧
      s.user.key (s.slots i).buf = ((s.slots i).dev, inodeBlock sb.desc (s.slots i).nr)
  /-- The list of a super block has entries of its device. -/
  listed : ∀ dev sb, s.supers dev = some sb → ∀ i ∈ sb.inodeList, i < inodeNr ∧ (s.slots i).dev = dev
  /-- Each of them once. -/
  nodup : ∀ dev sb, s.supers dev = some sb → sb.inodeList.Nodup
  /-- There is no super block for `EOF`. -/
  eof : s.supers EOF = none
  /-- The fields of a super block descriptor have 16 bits. -/
  sized : ∀ dev sb, s.supers dev = some sb → sb.desc.imapBlocks < 65536 ∧ sb.desc.zmapBlocks < 65536
  /-- A super block refers to its root directory. -/
  root : ∀ dev sb, s.supers dev = some sb → ∀ i, sb.iroot = some i → i < inodeNr ∧ 0 < pins i
  /-- What a reference stands for. -/
  ref : ∀ r ∈ s.held, r.slot < inodeNr ∧ (s.slots r.slot).dev = r.dev ∧ (s.slots r.slot).nr = r.nr ∧
    r.dev ≠ EOF
  /-- Only the task that loads an entry refers to it. -/
  loading : ∀ task i, s.phase task = .loading i → (∃ r ∈ s.held, r.task = task ∧ r.slot = i) ∧
    pins i = 0 ∧ ∀ r ∈ s.held, r.slot = i → r.task = task
  /-- What a task gives back has been read. -/
  waiting : ∀ task i, s.phase task = .releasing i ∨ s.phase task = .crossing i →
    (∃ r ∈ s.held, r.task = task ∧ r.slot = i) ∧ ¬s.Loading i

variable {s} {t : InodeTasks D} {pins base : ℕ → ℕ} {task i dev nr : ℕ}

theorem refs_pos {r : InodeRef} (h : r ∈ s.held) : 0 < s.refs r.slot :=
  List.count_pos_iff.mpr (List.mem_map.mpr ⟨r, h, rfl⟩)

theorem bufOf_eq (hdev : (s.slots i).dev ≠ EOF) (hload : ¬s.Loading i) :
    s.bufOf i = some (s.slots i).buf := if_neg (not_or.mpr ⟨hdev, hload⟩)

theorem bufOf_loading (hload : s.Loading i) : s.bufOf i = none := if_pos (Or.inr hload)

theorem bufOf_congr (hdev : (t.slots i).dev = (s.slots i).dev) (hbuf : (t.slots i).buf = (s.slots i).buf)
    (hload : t.Loading i ↔ s.Loading i) : t.bufOf i = s.bufOf i := by
  by_cases hno : (s.slots i).dev = EOF ∨ s.Loading i
  · have hno' : (t.slots i).dev = EOF ∨ t.Loading i := by rwa [hdev, hload]
    rw [bufOf, bufOf, if_pos hno, if_pos hno']
  · have hno' : ¬((t.slots i).dev = EOF ∨ t.Loading i) := by rwa [hdev, hload]
    rw [bufOf, bufOf, if_neg hno, if_neg hno', hbuf]

theorem bufOf_free (hdev : (s.slots i).dev = EOF) : s.bufOf i = none := if_pos (Or.inl hdev)

section Facts

variable (h : s.Sound pins base)

include h

/-- The buffer of an entry that has been read is in use. -/
theorem Sound.mem_bufs (hi : i < inodeNr) (hdev : (s.slots i).dev ≠ EOF) (hload : ¬s.Loading i) :
    (s.slots i).buf ∈ s.user.held := by
  refine List.count_pos_iff.mp ?_
  rw [h.bufs]
  have hpos := refCount_pos (Finset.mem_range.mpr hi) (bufOf_eq hdev hload)
  omega

/-- The references to a buffer fit its counter. -/
theorem Sound.bufs_le (bf : ℕ) : s.user.held.count bf ≤ 2147483648 := by
  have hroom := h.room bf
  have hcard : refCount (Finset.range inodeNr) s.bufOf bf ≤ 64 := by
    refine (Finset.card_filter_le _ _).trans ?_
    rw [Finset.card_range, inodeNr_eq]
  rw [h.bufs]
  omega

/-- An entry that has been read is loaded. -/
theorem Sound.loaded (hi : i < inodeNr) (hdev : (s.slots i).dev ≠ EOF) (hload : ¬s.Loading i) :
    s.Loaded i (s.slots i).dev (s.slots i).nr := by
  obtain ⟨hdesc, hkey⟩ := h.placed i hi hdev hload
  exact ⟨rfl, rfl, hdesc, hkey, (h.cache.ready (h.cache.lt_of_held (h.mem_bufs hi hdev hload))).1⟩

/-- A task that is not loading refers to entries that have been read. -/
theorem Sound.not_loading {r : InodeRef} (hr : r ∈ s.held) (hphase : s.phase r.task ≠ .loading r.slot) :
    ¬s.Loading r.slot := by
  rintro ⟨r', hr', hslot, hload⟩
  have htask := (h.loading _ _ hload).2.2 r hr rfl
  exact hphase (htask ▸ hload)

/-- An entry of a super block has been read. -/
theorem Sound.not_loading_of_pins (hpins : 0 < pins i) : ¬s.Loading i := by
  rintro ⟨r, -, -, hload⟩
  exact hpins.ne' (h.loading _ _ hload).2.1

end Facts

end InodeTasks

end Onixs
