import Onixs.Common.Run
import Onixs.Lib.List

/-!
# Tasks and the scheduler

`kernel/task.c`: the table of tasks, the lists their nodes are linked in, and the functions that
change the state of a task. A task is its slot of `task_table`, which is its number. `Sched.lists`
has the lists of tasks: `block_list`, `sleep_list`, and those that other files keep, such as
the waiters of a mutex. That a node is linked is that its `prev` and `next` are not null.

The resources of a task (its memory, its files) are in other files of this project; here `task_exit`
gives them back in one step, or, where `SchedOp.die` and `SchedOp.leave` take its place, with
anything else in between. `magic` is set when a task is made and copied by `task_fork`, and is left
out with the assertions on it. `SchedTask.serial`, `Sched.exited` and `Sched.returned` are kept for
the statements: they tell apart the tasks that have had one number.
-/

namespace Onixs

/-- `enum task_state_t`. -/
inductive TaskState where
  /-- `TASK_INIT`. -/
  | init
  /-- `TASK_RUNNING`. -/
  | running
  /-- `TASK_READY`. -/
  | ready
  /-- `TASK_BLOCKED`. -/
  | blocked
  /-- `TASK_SLEEPING`. -/
  | sleeping
  /-- `TASK_WAITTING`. -/
  | waitting
  /-- `TASK_DIED`. -/
  | died
deriving DecidableEq

/-- What the functions of `kernel/task.c` below read of a `task_t`. -/
structure SchedTask where
  /-- The state. -/
  state : TaskState
  /-- The list the node is linked in. -/
  node : Option ℕ
  /-- The priority. -/
  priority : ℕ
  /-- The ticks that are left, or when it wakes up. -/
  ticks : ℤ
  /-- When it last ran. -/
  jiffies : ℕ
  /-- The number. -/
  pid : ℕ
  /-- The number of the parent. -/
  ppid : ℕ
  /-- The child it waits for, or `-1`. -/
  waitpid : ℤ
  /-- What it passed to `task_exit`. -/
  status : ℤ
  /-- How many tasks were made before it. -/
  serial : ℕ
deriving DecidableEq

/-- The tasks. -/
structure Sched where
  /-- `task_table`. -/
  table : ℕ → Option SchedTask
  /-- `running_task()`. -/
  current : ℕ
  /-- The lists of tasks. -/
  lists : ℕ → List ℕ
  /-- `jiffies`. -/
  jiffies : ℕ
  /-- How many tasks have been made. -/
  made : ℕ
  /-- The tasks that have called `task_exit`, with their status. -/
  exited : List (ℕ × ℤ)
  /-- The tasks that `task_waitpid` has returned, with their status. -/
  returned : List (ℕ × ℤ)

/-- What a function returns. -/
inductive SchedRet where
  /-- Nothing. -/
  | unit
  /-- The number of a child that has been made. -/
  | forked (pid : ℕ)
  /-- The number of a child that has died, and its status. -/
  | reaped (pid : ℕ) (status : ℤ)
  /-- `-1`. -/
  | noChild
  /-- Nothing yet: the task waits. -/
  | waits
deriving DecidableEq

namespace Sched

/-- `TASK_NUMBER`. -/
def taskNumber : ℕ := 64

/-- `block_list`. -/
def blockList : ℕ := 0

/-- `sleep_list`. -/
def sleepList : ℕ := 1

/-- `jiffy`. -/
def jiffy : ℕ := 10

/-- `idle_task`, as its number. -/
def idleTask : ℕ := 0

/-- An `int` read as a `uint32`. -/
def unsigned (n : ℤ) : ℕ := (n % 4294967296).toNat

variable (s : Sched)

/-- Change a task. -/
def modify (i : ℕ) (f : SchedTask → SchedTask) : Sched :=
  { s with table := fun j => if j = i then (s.table j).map f else s.table j }

/-- Store a list. -/
def setList (list : ℕ) (tasks : List ℕ) : Sched :=
  { s with lists := fun l => if l = list then tasks else s.lists l }

/-! ### Choosing a task -/

/-- `task_getFreeTask`, as the number of the slot. Without one, it panics. -/
def getFreeTask : Option ℕ := (List.range taskNumber).find? fun i => s.table i = none

/-- A task that is to run before another one. -/
def Before (ptr task : SchedTask) : Prop :=
  task.ticks < ptr.ticks ∨ (task.ticks = ptr.ticks ∧ ptr.jiffies < task.jiffies)

instance (ptr task : SchedTask) : Decidable (Before ptr task) :=
  inferInstanceAs (Decidable (_ ∨ _))

/-- The loop of `task_searchTask`, over these slots. -/
def searchLoop (state : TaskState) : List ℕ → Option (ℕ × SchedTask) → Option (ℕ × SchedTask)
  | [], best => best
  | i :: slots, best =>
      match s.table i with
      | none => searchLoop state slots best
      | some ptr =>
          if ptr.state = state ∧ i ≠ s.current then
            match best with
            | none => searchLoop state slots (some (i, ptr))
            | some (j, task) =>
                searchLoop state slots (if Before ptr task then some (i, ptr) else some (j, task))
          else
            searchLoop state slots best

/-- `task_searchTask`. -/
def searchTask (state : TaskState) : Option ℕ :=
  match s.searchLoop state (List.range taskNumber) none with
  | some (i, _) => some i
  | none => if state = .ready then some idleTask else none

/-- `schedule`. -/
def schedule : Option Sched := do
  let next ← s.searchTask .ready
  let _ ← s.table next
  let s := s.modify s.current fun task => if task.state = .running then { task with state := .ready } else task
  let s := s.modify next fun task => { task with state := .running }
  return { s with current := next }

/-! ### Blocking a task -/

/-- `task_block`, of the running task. -/
def taskBlock (list : ℕ) (state : TaskState) : Option Sched := do
  let task ← s.table s.current
  assert (task.node = none)
  assert (state ≠ .ready ∧ state ≠ .running)
  assert (s.current ∉ s.lists list)
  let s := s.setList list (s.current :: s.lists list)
  let s := s.modify s.current fun task => { task with node := some list, state := state }
  s.schedule

/-- `task_unblock`. -/
def taskUnblock (i : ℕ) : Option Sched := do
  let task ← s.table i
  let list ← task.node
  let s := s.setList list ((s.lists list).erase i)
  return s.modify i fun task => { task with node := none, state := .ready }

/-- The loop of `task_wakeup`, over these tasks. -/
def wakeLoop : List ℕ → Sched → Option Sched
  | [], s => some s
  | i :: tasks, s => do
      let task ← s.table i
      if s.jiffies < unsigned task.ticks then
        return s
      else
        let s ← (s.modify i fun task => { task with ticks := 0 }).taskUnblock i
        wakeLoop tasks s

/-- `task_wakeup`. -/
def taskWakeup : Option Sched := wakeLoop (s.lists sleepList) s

/-- `task_sleep`. -/
def taskSleep (ms : ℕ) : Option Sched := do
  let ticks := if 0 < ms / jiffy then ms / jiffy else 1
  let task ← s.table s.current
  let s := s.modify s.current fun task => { task with ticks := int32 (u32 (s.jiffies + ticks)) }
  assert (task.node = none)
  let s := s.setList sleepList
    (listInsertSort (fun i => ((s.table i).map SchedTask.ticks).getD 0) s.current (s.lists sleepList))
  let s := s.modify s.current fun task => { task with node := some sleepList, state := .sleeping }
  s.schedule

/-- `clock_handler`. -/
def clockHandler : Option Sched := do
  let s := { s with jiffies := u32 (s.jiffies + 1) }
  let s ← s.taskWakeup
  let s := s.modify s.current fun task => { task with jiffies := s.jiffies, ticks := task.ticks - 1 }
  let task ← s.table s.current
  if task.ticks = 0 then
    (s.modify s.current fun task => { task with ticks := int32 task.priority }).schedule
  else
    return s

/-! ### The life of a task -/

/-- `task_fork`. -/
def taskFork : Option (SchedRet × Sched) := do
  let task ← s.table s.current
  assert (task.node = none ∧ task.state = .running)
  let pid ← s.getFreeTask
  let child := { task with
    pid := pid, ppid := task.pid, ticks := int32 task.priority, state := .ready, serial := s.made }
  return (.forked pid, { s with
    table := fun i => if i = pid then some child else s.table i
    made := s.made + 1 })

/-- `task_exit`, up to where the resources are given back. -/
def die (status : ℤ) : Option Sched := do
  let task ← s.table s.current
  assert (task.node = none ∧ task.state = .running)
  return { s.modify s.current fun task => { task with state := .died, status := status } with
    exited := s.exited ++ [(task.serial, status)] }

/-- The children of a task become those of its parent. -/
def reparent (pid ppid : ℕ) : Sched :=
  { s with table := fun i => if i < taskNumber then
      (s.table i).map fun child => if child.ppid = pid then { child with ppid := ppid } else child
    else s.table i }

/-- A parent that waits for this task goes on. -/
def wakeParent (pid ppid : ℕ) : Option Sched := do
  let parent ← s.table ppid
  if parent.state = .waitting ∧ (parent.waitpid = -1 ∨ parent.waitpid = pid) then
    s.taskUnblock ppid
  else
    return s

/-- `task_exit`, behind that. -/
def leave : Option Sched := do
  let task ← s.table s.current
  let s := s.reparent task.pid task.ppid
  let s ← s.wakeParent task.pid task.ppid
  s.schedule

/-- Slot `i` has a child of task `ppid` that `task_waitpid` asks for. -/
def Matches (ppid : ℕ) (pid : ℤ) (i : ℕ) : Prop :=
  ∃ ptr, s.table i = some ptr ∧ ptr.ppid = ppid ∧ ¬(pid ≠ ptr.pid ∧ pid ≠ -1)

/-- The child in slot `i` has died. -/
def Died (i : ℕ) : Prop := ∃ ptr, s.table i = some ptr ∧ ptr.state = .died

instance (i : ℕ) : Decidable (s.Died i) :=
  match h : s.table i with
  | none => isFalse (by simp [Died, h])
  | some ptr => decidable_of_iff (ptr.state = .died) (by simp [Died, h])

instance (ppid : ℕ) (pid : ℤ) (i : ℕ) : Decidable (s.Matches ppid pid i) :=
  match h : s.table i with
  | none => isFalse (by simp [Matches, h])
  | some ptr => decidable_of_iff (ptr.ppid = ppid ∧ ¬(pid ≠ ptr.pid ∧ pid ≠ -1)) (by simp [Matches, h])

/-- The slots `task_waitpid` goes through. -/
def waitSlots : List ℕ := List.range' 2 (taskNumber - 2)

/-- A round of `task_waitpid`: it returns, or the task waits and then goes round again. -/
def taskWaitpid (pid : ℤ) : Option (SchedRet × Sched) := do
  let task ← s.table s.current
  match waitSlots.find? fun i => s.Matches task.pid pid i ∧ s.Died i with
  | some i => do
      let child ← s.table i
      return (.reaped child.pid child.status, { s with
        table := fun j => if j = i then none else s.table j
        returned := s.returned ++ [(child.serial, child.status)] })
  | none =>
      if waitSlots.any fun i => s.Matches task.pid pid i then do
        let s ← (s.modify s.current fun task => { task with waitpid := pid }).taskBlock blockList .waitting
        return (.waits, s)
      else
        return (.noChild, s)

end Sched

/-- A call, or an interrupt. -/
inductive SchedOp where
  /-- `task_yield`, that is `schedule`. -/
  | schedule
  /-- `task_block`, of the running task. -/
  | block (list : ℕ)
  /-- `task_unblock`. -/
  | unblock (i : ℕ)
  /-- `task_sleep`. -/
  | sleep (ms : ℕ)
  /-- `task_wakeup`. -/
  | wakeup
  /-- `clock_handler`. -/
  | clock
  /-- `task_fork`. -/
  | fork
  /-- A round of `task_waitpid`. -/
  | waitpid (pid : ℤ)
  /-- `task_exit`. -/
  | exit (status : ℤ)
  /-- `task_exit`, up to where the resources are given back. -/
  | die (status : ℤ)
  /-- `task_exit`, behind that. -/
  | leave

namespace Sched

variable (s : Sched)

/-- A call. No value means that an assertion fails, or the kernel panics. -/
def step : SchedOp → Option (SchedRet × Sched)
  | .schedule => s.schedule.map fun t => (.unit, t)
  | .block list => (s.taskBlock list .blocked).map fun t => (.unit, t)
  | .unblock i => (s.taskUnblock i).map fun t => (.unit, t)
  | .sleep ms => (s.taskSleep ms).map fun t => (.unit, t)
  | .wakeup => s.taskWakeup.map fun t => (.unit, t)
  | .clock => s.clockHandler.map fun t => (.unit, t)
  | .fork => s.taskFork
  | .waitpid pid => s.taskWaitpid pid
  | .exit status => ((s.die status).bind leave).map fun t => (.unit, t)
  | .die status => (s.die status).map fun t => (.unit, t)
  | .leave => s.leave.map fun t => (.unit, t)

/-- What `task_create` makes. -/
def taskCreate (priority serial : ℕ) : SchedTask where
  state := .ready
  node := none
  priority := priority
  ticks := priority
  jiffies := 0
  pid := serial
  ppid := 0
  waitpid := 0
  status := 0
  serial := serial

/-- After `task_init`: the tasks idle, init and test are ready. The task that runs is not in the
table. -/
def taskInit (jiffies : ℕ) : Sched where
  table := fun i =>
    if i = 0 then some (taskCreate 1 0) else if i = 1 then some (taskCreate 5 1)
    else if i = 2 then some (taskCreate 5 2) else none
  current := 99
  lists := fun _ => []
  jiffies := jiffies
  made := 3
  exited := []
  returned := []

/-- The first task has been scheduled. -/
def Start : Prop := ∃ jiffies, (taskInit jiffies).schedule = some s

end Sched

end Onixs
