import Onixs.Common.Logged
import Onixs.Kernel.InodeReferences

/-!
# The bounds of descriptors

A file descriptor is an `int`, and `task->files` an array of 16 entries between `umask` and `magic`.
The seven calls that take a descriptor test it each in its own way: `sys_read` and `sys_write` not at
all, `sys_lseek` and `sys_close` from above, `sys_fstat` and `dupfd` from above with one entry too
many. Here every access to the array is logged, the one that leaves it being the last, and each
call stays inside exactly for the descriptors its test leaves room for
(`Onixs.fdCall_inside_iff`).
-/

namespace Onixs

/-- An index of `task->files` is in the array. -/
def InFiles (fd : ℤ) : Prop := 0 ≤ fd ∧ fd < taskFileNr

/-- The accesses to `task->files`. -/
abbrev FdLog := Logged ℤ

namespace Processes

/-- `task->files[fd]`. -/
def fdGet (p : Process) (fd : ℤ) : FdLog (Option ℕ) := Logged.touch fd ((fdSlot fd).map p.files)

/-- `task->files[fd] = file`. -/
def fdSet (p : Process) (fd : ℤ) (file : Option ℕ) : FdLog Process :=
  Logged.touch fd ((fdSlot fd).map fun slot => { p with files := Function.update p.files slot file })

variable (s : Processes)

/-- `sys_read` and `sys_write` up to `assert(file)`; what follows accesses no descriptor. -/
def accessFile (pid : ℕ) (fd : ℤ) : FdLog ℕ := do
  let p ← Logged.lift (s.running pid)
  let file ← fdGet p fd
  Logged.lift file

/-- `sys_lseek` up to `assert(file->inode)`; what follows accesses no descriptor. -/
def accessLseek (pid : ℕ) (fd : ℤ) : FdLog ℕ := do
  Logged.lift (assert (fd < taskFileNr))
  let p ← Logged.lift (s.running pid)
  let file ← fdGet p fd
  let f ← Logged.lift file
  Logged.lift (s.fileTable f).inode

/-- `sys_close`, with `task_put_fd`. -/
def accessClose (pid : ℕ) (fd : ℤ) : FdLog Processes := do
  Logged.lift (assert (fd < taskFileNr))
  let p ← Logged.lift (s.running pid)
  let file ← fdGet p fd
  match file with
  | none => return s
  | some f =>
      Logged.lift (assert ((s.fileTable f).inode.isSome))
      let s ← Logged.lift (s.putFile f)
      Logged.lift (assert (fd < taskFileNr))
      let p ← fdSet p fd none
      return s.setProcess pid (some p)

/-- The loop of `dupfd`: the first free descriptor from `arg` on, with `left` to look at. -/
def accessFree (p : Process) : ℕ → ℕ → FdLog (Option ℕ)
  | 0, _ => pure none
  | left + 1, arg => do
      let file ← fdGet p arg
      if file.isNone then
        return some arg
      accessFree p left (arg + 1)

/-- `dupfd`. -/
def accessDupfd (pid : ℕ) (fd : ℤ) (arg : ℕ) : FdLog (ℤ × Processes) := do
  let p ← Logged.lift (s.running pid)
  if taskFileNr < fd then
    return (-1, s)
  let file ← fdGet p fd
  if file.isNone then
    return (-1, s)
  let free ← accessFree p (taskFileNr - arg) arg
  match free with
  | none => return (-1, s)
  | some arg =>
      let file ← fdGet p fd
      let p ← fdSet p arg file
      let file ← fdGet p arg
      let f ← Logged.lift file
      return (arg, (s.setProcess pid (some p)).addFile f)

/-- `sys_fstat` up to `assert(!inode)`; what follows accesses no descriptor. -/
def accessFstat (pid : ℕ) (fd : ℤ) : FdLog (Option ℕ) := do
  if taskFileNr < fd then
    return none
  let p ← Logged.lift (s.running pid)
  fdGet p fd

end Processes

/-- A call that takes a descriptor. -/
inductive FdCall where
  /-- `sys_read`. -/
  | read (fd : ℤ)
  /-- `sys_write`. -/
  | write (fd : ℤ)
  /-- `sys_lseek`. -/
  | lseek (fd : ℤ)
  /-- `sys_close`. -/
  | close (fd : ℤ)
  /-- `sys_dup`. -/
  | dup (fd : ℤ)
  /-- `sys_dup2`. -/
  | dup2 (oldfd newfd : ℤ)
  /-- `sys_fstat`. -/
  | fstat (fd : ℤ)

namespace FdCall

/-- A call by task `pid`, as far as it accesses `task->files`. -/
def run (s : Processes) (pid : ℕ) : FdCall → FdLog Unit
  | read fd | write fd => do
      let _ ← s.accessFile pid fd
      return
  | lseek fd => do
      let _ ← s.accessLseek pid fd
      return
  | close fd => do
      let _ ← s.accessClose pid fd
      return
  | dup fd => do
      let _ ← s.accessDupfd pid fd 0
      return
  | dup2 oldfd newfd => do
      let s ← s.accessClose pid newfd
      let _ ← s.accessDupfd pid oldfd newfd.toNat
      return
  | fstat fd => do
      let _ ← s.accessFstat pid fd
      return

/-- **The descriptors a call has room for.** -/
def Bounded (s : Processes) (pid : ℕ) : FdCall → Prop
  | read fd | write fd => InFiles fd
  | lseek fd | close fd => 0 ≤ fd
  | dup fd | fstat fd => 0 ≤ fd ∧ fd ≠ taskFileNr
  | dup2 oldfd newfd => 0 ≤ newfd ∧
      (taskFileNr ≤ newfd ∨ s.sysClose pid newfd = none ∨ (0 ≤ oldfd ∧ oldfd ≠ taskFileNr))

end FdCall

theorem fdSlot_eq {fd : ℤ} (h : InFiles fd) : fdSlot fd = some fd.toNat := if_pos h

theorem inFiles_natCast {fd : ℕ} (h : fd < taskFileNr) : InFiles (fd : ℤ) :=
  ⟨Int.natCast_nonneg fd, Int.ofNat_lt.mpr h⟩

namespace Processes

open Logged

variable {s : Processes} {pid : ℕ} {p : Process} {fd : ℤ}

theorem val_fdGet (h : InFiles fd) : (fdGet p fd).val = some (p.files fd.toNat) := by
  rw [fdGet, val_touch, fdSlot_eq h]
  rfl

/-- What follows an access to the array is about the descriptor that is there. -/
theorem inside_fdGet {β : Type} {f : Option ℕ → FdLog β} :
    All InFiles (fdGet p fd >>= f) ↔ InFiles fd ∧ All InFiles (f (p.files fd.toNat)) := by
  rw [all_bind, fdGet, all_touch]
  refine and_congr_right fun h => ?_
  rw [← fdGet, val_fdGet h]
  constructor
  · exact fun hall => hall _ rfl
  · intro hall a ha
    obtain rfl := Option.some.inj ha
    exact hall

theorem inside_fdSet {β : Type} {file : Option ℕ} {f : Process → FdLog β} :
    All InFiles (fdSet p fd file >>= f) ↔
      InFiles fd ∧ All InFiles (f { p with files := Function.update p.files fd.toNat file }) := by
  rw [all_bind, fdSet, all_touch]
  refine and_congr_right fun h => ?_
  rw [val_touch, fdSlot_eq h]
  constructor
  · exact fun hall => hall _ rfl
  · intro hall a ha
    obtain rfl := Option.some.inj ha
    exact hall

/-- Steps that access nothing. -/
theorem inside_lift {β γ : Type} {o : Option γ} {f : γ → FdLog β} :
    All InFiles (lift o >>= f) ↔ ∀ a, o = some a → All InFiles (f a) := by
  rw [all_bind, and_iff_right (all_lift o)]
  rfl

/-- `sys_read` and `sys_write`. -/
theorem inside_accessFile (hrun : s.running pid = some p) :
    All InFiles (s.accessFile pid fd) ↔ InFiles fd := by
  rw [accessFile, all_lift_bind hrun, inside_fdGet, and_iff_left (all_lift _)]

/-- `sys_lseek`. -/
theorem inside_accessLseek (hrun : s.running pid = some p) :
    All InFiles (s.accessLseek pid fd) ↔ 0 ≤ fd := by
  rw [accessLseek, inside_lift]
  by_cases hlt : fd < taskFileNr
  · rw [assert_pos hlt]
    constructor
    · intro hall
      have hall := hall () rfl
      rw [all_lift_bind hrun, inside_fdGet] at hall
      exact hall.1.1
    · intro hpos _ _
      rw [all_lift_bind hrun, inside_fdGet]
      exact ⟨⟨hpos, hlt⟩, inside_lift.mpr fun _ _ => all_lift _⟩
  · rw [assert_neg hlt]
    refine iff_of_true (fun _ h => absurd h (by simp)) (by rw [taskFileNr] at hlt; omega)

/-- `sys_close`. -/
theorem inside_accessClose (hrun : s.running pid = some p) :
    All InFiles (s.accessClose pid fd) ↔ 0 ≤ fd := by
  rw [accessClose, inside_lift]
  by_cases hlt : fd < taskFileNr
  · rw [assert_pos hlt]
    constructor
    · intro hall
      have hall := hall () rfl
      rw [all_lift_bind hrun, inside_fdGet] at hall
      exact hall.1.1
    · intro hpos _ _
      rw [all_lift_bind hrun, inside_fdGet]
      refine ⟨⟨hpos, hlt⟩, ?_⟩
      cases p.files fd.toNat with
      | none => exact all_pure _
      | some f =>
        refine inside_lift.mpr fun _ _ => inside_lift.mpr fun t _ => inside_lift.mpr fun _ _ => ?_
        exact inside_fdSet.mpr ⟨⟨hpos, hlt⟩, all_pure _⟩
  · rw [assert_neg hlt]
    refine iff_of_true (fun _ h => absurd h (by simp)) (by rw [taskFileNr] at hlt; omega)

/-- With its log `sys_close` is what it was without. -/
theorem val_accessClose (hrun : s.running pid = some p) :
    (s.accessClose pid fd).val = s.sysClose pid fd := by
  have htask : s.tasks pid = some p := (running_eq_some.mp hrun).1
  rw [accessClose, sysClose, val_bind, val_lift, htask]
  by_cases hlt : fd < taskFileNr
  · rw [assert_pos hlt, Option.bind_some, Option.bind_eq_bind, Option.bind_some, Option.bind_eq_bind,
      Option.bind_some, val_bind, val_lift, hrun, Option.bind_some]
    by_cases hin : InFiles fd
    · rw [val_bind, val_fdGet hin, Option.bind_some, fdSlot_eq hin, Option.bind_eq_bind, Option.bind_some]
      cases p.files fd.toNat with
      | none => rfl
      | some f =>
        simp only [val_bind, val_lift, Option.bind_eq_bind, fdSet, val_touch, fdSlot_eq hin, Option.map_some,
          Option.bind_some]
        rfl
    · have hslot : fdSlot fd = none := if_neg hin
      rw [val_bind, fdGet, val_touch, hslot]
      rfl
  · rw [assert_neg hlt]
    rfl

/-- The loop of `dupfd` stays inside. -/
theorem inside_accessFree : ∀ (left arg : ℕ), arg + left ≤ taskFileNr →
    All InFiles (accessFree p left arg) ∧ ∀ fd, (accessFree p left arg).val = some (some fd) → fd < taskFileNr := by
  intro left
  induction left with
  | zero => exact fun arg _ => ⟨all_pure _, fun fd h => absurd (Option.some.inj h) (by simp)⟩
  | succ left ih =>
    intro arg h
    have hin : InFiles (arg : ℤ) := inFiles_natCast (by omega)
    rw [accessFree]
    obtain ⟨hall, hval⟩ := ih (arg + 1) (by omega)
    refine ⟨inside_fdGet.mpr ⟨hin, ?_⟩, fun fd hfd => ?_⟩
    · split
      · exact all_pure _
      · exact hall
    · rw [val_bind, val_fdGet hin, Option.bind_some] at hfd
      split at hfd
      · obtain rfl := Option.some.inj (Option.some.inj hfd)
        omega
      · exact hval fd hfd

/-- `dupfd`. -/
theorem inside_accessDupfd {arg : ℕ} (hrun : s.running pid = some p) (harg : arg ≤ taskFileNr) :
    All InFiles (s.accessDupfd pid fd arg) ↔ 0 ≤ fd ∧ fd ≠ taskFileNr := by
  rw [accessDupfd, all_lift_bind hrun]
  by_cases hbig : (taskFileNr : ℤ) < fd
  · rw [if_pos hbig]
    exact iff_of_true (all_pure _) ⟨by omega, by omega⟩
  · rw [if_neg hbig, inside_fdGet]
    have hin : InFiles fd ↔ 0 ≤ fd ∧ fd ≠ taskFileNr := by
      rw [InFiles]
      omega
    rw [hin]
    refine and_iff_left_of_imp fun hfd => ?_
    rw [← hin] at hfd
    split
    · exact all_pure _
    · obtain ⟨hall, hval⟩ := inside_accessFree (p := p) (taskFileNr - arg) arg (by omega)
      refine all_bind.mpr ⟨hall, fun free hfree => ?_⟩
      cases free with
      | none => exact all_pure _
      | some slot =>
        have hslot := inFiles_natCast (hval slot hfree)
        exact inside_fdGet.mpr ⟨hfd, inside_fdSet.mpr ⟨hslot, inside_fdGet.mpr
          ⟨hslot, inside_lift.mpr fun _ _ => all_pure _⟩⟩⟩

/-- A task that closes a descriptor runs on. -/
theorem running_sysClose {t : Processes} (hrun : s.running pid = some p) (hclose : s.sysClose pid fd = some t) :
    ∃ q, t.running pid = some q := by
  obtain ⟨htask, hdied⟩ := running_eq_some.mp hrun
  rw [sysClose] at hclose
  obtain ⟨_, -, hclose⟩ := Option.bind_eq_some_iff.mp hclose
  obtain ⟨q, hq, hclose⟩ := Option.bind_eq_some_iff.mp hclose
  obtain rfl := Option.some.inj (htask.symm.trans hq)
  obtain ⟨slot, -, hclose⟩ := Option.bind_eq_some_iff.mp hclose
  cases hfile : p.files slot with
  | none =>
    rw [hfile] at hclose
    exact ⟨p, Option.some.inj hclose ▸ hrun⟩
  | some f =>
    rw [hfile] at hclose
    obtain ⟨_, -, hclose⟩ := Option.bind_eq_some_iff.mp hclose
    obtain ⟨u, -, hclose⟩ := Option.bind_eq_some_iff.mp hclose
    obtain rfl := Option.some.inj hclose
    exact ⟨_, running_eq_some.mpr ⟨setProcess_self u pid _, hdied⟩⟩

end Processes

open Logged Processes

/-- **A call stays inside of `task->files`** exactly for the descriptors it has room for. -/
theorem fdCall_inside_iff {s : Processes} {pid : ℕ} {p : Process} (hrun : s.running pid = some p) (call : FdCall) :
    Logged.All InFiles (call.run s pid) ↔ call.Bounded s pid := by
  cases call with
  | read fd => rw [FdCall.run, all_bind, inside_accessFile hrun]; exact and_iff_left fun _ _ => all_pure _
  | write fd => rw [FdCall.run, all_bind, inside_accessFile hrun]; exact and_iff_left fun _ _ => all_pure _
  | lseek fd => rw [FdCall.run, all_bind, inside_accessLseek hrun]; exact and_iff_left fun _ _ => all_pure _
  | close fd => rw [FdCall.run, all_bind, inside_accessClose hrun]; exact and_iff_left fun _ _ => all_pure _
  | dup fd =>
    rw [FdCall.run, all_bind, inside_accessDupfd hrun (Nat.zero_le _)]
    exact and_iff_left fun _ _ => all_pure _
  | fstat fd =>
    rw [FdCall.run, all_bind, accessFstat]
    refine (and_iff_left fun _ _ => all_pure _).trans ?_
    by_cases hbig : (taskFileNr : ℤ) < fd
    · rw [if_pos hbig]
      exact iff_of_true (all_pure _) ⟨by omega, by omega⟩
    · rw [if_neg hbig, all_lift_bind hrun, fdGet, all_touch, InFiles, FdCall.Bounded]
      omega
  | dup2 oldfd newfd =>
    rw [FdCall.run, all_bind, inside_accessClose hrun, val_accessClose hrun]
    refine and_congr_right fun hnew => ?_
    cases hclose : s.sysClose pid newfd with
    | none => exact iff_of_true (fun _ h => absurd h (by simp)) (Or.inr (Or.inl rfl))
    | some t =>
      obtain ⟨q, hq⟩ := running_sysClose hrun hclose
      have hlt : newfd < taskFileNr := by
        obtain ⟨_, hlt, -⟩ := Option.bind_eq_some_iff.mp hclose
        exact assert_eq_some.mp hlt
      have hdup : All InFiles (t.accessDupfd pid oldfd newfd.toNat) ↔ 0 ≤ oldfd ∧ oldfd ≠ taskFileNr :=
        inside_accessDupfd hq (by omega)
      constructor
      · intro hall
        exact Or.inr (Or.inr (hdup.mp (all_bind.mp (hall t rfl)).1))
      · rintro (hge | hnone | hold) u hu
        · omega
        · exact absurd hnone (by simp)
        · obtain rfl := Option.some.inj hu
          exact all_bind.mpr ⟨hdup.mpr hold, fun _ _ => all_pure _⟩

/-- The console of the tasks that are there from boot on. -/
theorem fdCall_inside_console :
    (bootProcesses fun _ _ => 0#8).running 2 = some (bootProcess 2) ∧
      (Logged.All InFiles ((FdCall.read 0).run (bootProcesses fun _ _ => 0#8) 2) ↔
        (FdCall.read 0).Bounded (bootProcesses fun _ _ => 0#8) 2) :=
  ⟨rfl, fdCall_inside_iff (p := bootProcess 2) rfl (.read 0)⟩

/-- **`magic` is taken for a file** by four calls with descriptor 16, and what is in front of the array by
all of them with descriptor -1. -/
theorem fdCall_outside :
    ((FdCall.read 16).run (bootProcesses fun _ _ => 0#8) 2).log = [16] ∧
      ((FdCall.write 16).run (bootProcesses fun _ _ => 0#8) 2).log = [16] ∧
      ((FdCall.dup 16).run (bootProcesses fun _ _ => 0#8) 2).log = [16] ∧
      ((FdCall.fstat 16).run (bootProcesses fun _ _ => 0#8) 2).log = [16] ∧
      (∀ call ∈ [FdCall.read (-1), .write (-1), .lseek (-1), .close (-1), .dup (-1), .dup2 0 (-1), .fstat (-1)],
        (call.run (bootProcesses fun _ _ => 0#8) 2).log = [-1]) ∧
      ¬∀ (s : Processes) (pid : ℕ) (call : FdCall), Logged.All InFiles (call.run s pid) := by
  have hread : ((FdCall.read 16).run (bootProcesses fun _ _ => 0#8) 2).log = [16] := rfl
  refine ⟨hread, rfl, rfl, rfl, fun call hcall => ?_, fun hall => ?_⟩
  · simp only [List.mem_cons, List.not_mem_nil, or_false] at hcall
    rcases hcall with rfl | rfl | rfl | rfl | rfl | rfl | rfl
    · rfl
    · rfl
    · rfl
    · rfl
    · rfl
    · rfl
    · rfl
  · have hin := hall (bootProcesses fun _ _ => 0#8) 2 (.read 16) 16 (by rw [hread]; exact List.mem_singleton_self _)
    exact absurd hin.2 (by decide)

end Onixs
