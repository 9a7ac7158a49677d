import Onixs.Common.Run
import Onixs.Lib.List

/-!
# Requests to a disk

`device_request` in `kernel/device.c`, for one disk and its partitions. A request is put into
the list of the disk, sorted by its sector; a task that finds others there is blocked until
the task in front of it in the elevator has made it ready. `do_request` may block as well, as
the drivers wait for the disk, so that a task executes its request from one step to another.

A request is known by its place in memory, `Request.node`. What `kmalloc` returns here has been
set to zero behind the node of a free block, or left so by `list_remove`, as no other structure
has blocks of this size; so `list_insert_sort` finds a node that is in no list.
-/

namespace Onixs

/-- `enum device_type_t`. -/
inductive DeviceType where
  /-- `DEV_NULL`. -/
  | null
  /-- `DEV_CHAR`. -/
  | char
  /-- `DEV_BLOCK`. -/
  | block
deriving DecidableEq

/-- What `device_request` reads of a `device_t`. -/
structure Device where
  /-- Its type. -/
  type : DeviceType
  /-- The disk of a partition, or zero. -/
  parent : ℕ
  /-- What `device_ioctl` returns for `DEV_CMD_SECTOR_START`. -/
  sectorStart : ℕ

/-- `REQ_READ` and `REQ_WRITE`. -/
inductive RequestType where
  /-- `REQ_READ`. -/
  | read
  /-- `REQ_WRITE`. -/
  | write
deriving DecidableEq

/-- `request_t`. -/
structure Request where
  /-- Where it lies. -/
  node : ℕ
  /-- The disk. -/
  dev : ℕ
  /-- Whether it reads or writes. -/
  type : RequestType
  /-- The first sector. -/
  idx : ℕ
  /-- How many sectors. -/
  count : ℕ
  /-- The flags. -/
  flags : ℤ
  /-- The buffer. -/
  buf : ℕ
  /-- The task that waits, if it does. -/
  task : Option ℕ
deriving DecidableEq

/-- `device->direct`. -/
inductive Direct where
  /-- `DIRECT_UP`. -/
  | up
  /-- `DIRECT_DOWN`. -/
  | down
deriving DecidableEq

/-- How far a request is. -/
inductive Stage where
  /-- Its task is behind `task_block`, `TASK_BLOCKED`. -/
  | waiting
  /-- Its task is behind `task_block`, `TASK_READY`. -/
  | ready
  /-- Its task is in `do_request`. -/
  | executing
deriving DecidableEq

/-- Where a task is. -/
inductive DiskPhase where
  /-- Not in `device_request`. -/
  | idle
  /-- In `device_request`, with a request. -/
  | call (req : Request) (stage : Stage)
deriving DecidableEq

/-- A disk and the tasks. -/
structure Disk where
  /-- The table of devices. -/
  devices : ℕ → Device
  /-- The number of the disk. -/
  dev : ℕ
  /-- `device->request_list`. -/
  requestList : List Request
  /-- `device->direct`. -/
  direct : Direct
  /-- Where each task is. -/
  phase : ℕ → DiskPhase
  /-- How many requests have been made. -/
  made : ℕ
  /-- The requests that `do_request` has been called for, in that order. -/
  served : List Request

/-- What a task does. -/
inductive DiskOp where
  /-- It calls `device_request`. -/
  | issue (task dev buf count idx : ℕ) (flags : ℤ) (type : RequestType)
  /-- The scheduler picks it, and `task_block` returns. -/
  | resume (task : ℕ)
  /-- `do_request` returns. -/
  | finish (task : ℕ)

namespace Disk

variable (s : Disk)

/-- A task is somewhere else. -/
def goto (task : ℕ) (phase : DiskPhase) : Disk :=
  { s with phase := fun t => if t = task then phase else s.phase t }

/-- `device_get`. -/
def deviceGet (dev : ℕ) : Option Device := do
  assert (dev < 64)
  assert ((s.devices dev).type ≠ .null)
  return s.devices dev

/-- `do_request` is called. -/
def doRequest (task : ℕ) (req : Request) : Disk :=
  { s with served := s.served ++ [req] }.goto task (.call req .executing)

/-- The next request, and the disk with its direction. -/
def requestNextreq (req : Request) : Option Request × Disk :=
  let prev := (listBefore req s.requestList).getLast?
  let next := (listAfter req s.requestList).head?
  let direct :=
    if s.direct = .up ∧ next = none then .down
    else if s.direct = .down ∧ prev = none then .up
    else s.direct
  (match direct with
    | .up => next
    | .down => prev, { s with direct := direct })

/-- `task_unblock`. -/
def unblock (task : ℕ) : Option Disk :=
  match s.phase task with
  | .call req .waiting => some (s.goto task (.call req .ready))
  | _ => none

/-- `device_request`, up to `task_block` or into `do_request`. -/
def deviceRequest (task dev buf count idx : ℕ) (flags : ℤ) (type : RequestType) : Option Disk := do
  let device ← s.deviceGet dev
  -- the assertion assigns
  let s := { s with devices := fun d => if d = dev then { device with type := .block } else s.devices d }
  let offset := u32 (idx + (← s.deviceGet dev).sectorStart)
  let disk ← if device.parent ≠ 0 then (s.deviceGet device.parent).map fun _ => device.parent else some dev
  let empty := s.requestList.isEmpty
  let req : Request :=
    { node := s.made, dev := disk, type := type, idx := offset, count := count % 256, flags := flags,
      buf := buf, task := if empty then none else some task }
  let s := { s with
    requestList := listInsertSort (fun r => int32 r.idx) req s.requestList
    made := s.made + 1 }
  if empty then
    return s.doRequest task req
  else
    return s.goto task (.call req .waiting)

/-- `device_request`, behind `do_request`. -/
def requestDone (task : ℕ) (req : Request) : Option Disk := do
  let (nextreq, s) := s.requestNextreq req
  let s := { s with requestList := s.requestList.erase req }
  match nextreq with
  | none => return s.goto task .idle
  | some nextreq => do
      let owner ← nextreq.task
      let s ← s.unblock owner
      return s.goto task .idle

/-- A task runs until it is blocked, is in `do_request`, or returns. No value means that an assertion
fails. -/
def step : DiskOp → Option (Unit × Disk)
  | .issue task dev buf count idx flags type =>
      (s.deviceRequest task dev buf count idx flags type).map fun t => ((), t)
  | .resume task =>
      match s.phase task with
      | .call req .ready => some ((), s.doRequest task req)
      | _ => none
  | .finish task =>
      match s.phase task with
      | .call req .executing => (s.requestDone task req).map fun t => ((), t)
      | _ => none

end Disk

end Onixs
