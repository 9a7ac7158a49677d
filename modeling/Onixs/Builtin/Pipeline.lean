import Onixs.Builtin.Redirect
import Onixs.Common.Borrowed
import Onixs.Kernel.TaskFiles

/-!
# A command in the shell

`builtin_exec` of `builtin/utils/osh.c` in the process of the shell: the files of the redirections, a pipe and a child for
each stage of the pipeline, and the wait for the children. Before each call of the shell the other tasks, its children
among them, do what they like. The shell ends a call with the descriptors it has begun with, and without a child
that nobody has waited for, unless a program is missing: then it returns where it stands (`Onixs.Osh.builtinExec_iff`).

The name and the arguments of a program are left out; only its process reads them.
-/

namespace Onixs

open OpenFiles

namespace Osh

/-! ### Calls -/

/-- What happens before a call of the shell, and what the file system answers to it. -/
structure Turn where
  /-- What the other tasks do. -/
  others : List FileOp
  /-- What `inode_open` finds. -/
  opened : Option Opened
  /-- What `get_pipe_inode` gives. -/
  inode : ℕ

/-- The shell and the rest of the system. -/
structure Shell where
  /-- Files and tasks. -/
  kernel : OpenFiles
  /-- The calls to come. -/
  script : List Turn
  /-- The children that have been forked. -/
  forked : List ℕ
  /-- The children that have been waited for. -/
  waited : List ℕ

section Calls

variable (world : OpenFiles → FileOp → Bool) (sh : ℕ)

/-- The other tasks do what `world` lets them. -/
def others (ops : List FileOp) (k : OpenFiles) : Option OpenFiles :=
  ops.foldlM (fun k op => do
    assert (op.caller ≠ sh ∧ world k op = true)
    let (_, k) ← fileStep k op
    return k) k

/-- A call of the shell. -/
def call {α : Type} (f : Turn → OpenFiles → Option (α × OpenFiles)) (s : Shell) : Option (α × Shell) :=
  match s.script with
  | [] => none
  | turn :: script => do
      let k ← others world sh turn.others s.kernel
      let (r, k) ← f turn k
      return (r, { s with kernel := k, script := script })

/-- `open` and `close`. -/
def shellCalls : FileCalls Shell where
  opens _ flags _ s := call world sh (fun turn k => k.sysOpen sh turn.opened flags) s
  close fd s := do
    let (_, s) ← call world sh (fun _ k => (k.sysClose sh fd).map fun k => ((), k)) s
    return s

/-- `pipe`. -/
def pipe (s : Shell) : Option ((ℕ × ℕ) × Shell) := call world sh (fun turn k => k.sysPipe sh turn.inode) s

/-- `fork`. -/
def fork (s : Shell) : Option (ℕ × Shell) := do
  let (child, s) ← call world sh (fun _ k => k.taskFork sh) s
  return (child, { s with forked := child :: s.forked })

/-- A child that has exited, the one `task_waitpid` comes to first. -/
def deadChild (k : OpenFiles) : Option ℕ :=
  (List.range' 2 (taskNumber - 2)).find? fun child => (k.tasks child).any fun p => p.ppid == sh && p.died

/-- `task_waitpid` for any child, when the time has come for it to return: a child has exited, or there is none. -/
def waitAny (k : OpenFiles) : Option (Option ℕ × OpenFiles) :=
  match deadChild sh k with
  | some child => some (some child, k.setProcess child none)
  | none =>
      if (List.range' 2 (taskNumber - 2)).any (fun child => (k.tasks child).any fun p => p.ppid == sh) then none
      else some (none, k)

/-- `waitpid` with -1. -/
def waitpid (s : Shell) : Option (Option ℕ × Shell) := do
  let (child, s) ← call world sh (fun _ k => waitAny sh k) s
  return (child, { s with waited := child.toList ++ s.waited })

/-! ### The command -/

/-- `builtin_command` in the shell. -/
def builtinCommand (infd outfd errfd : ℤ) (s : Shell) : Option (ℕ × Shell) := do
  let (pid, s) ← fork world sh s
  let s ← closeFile (shellCalls world sh) infd s
  let s ← closeFile (shellCalls world sh) outfd s
  let s ← closeFile (shellCalls world sh) errfd s
  return (pid, s)

/-- What the loop of `builtin_exec` goes on with. -/
structure Stage where
  /-- `p`, which tells that a program is to come. -/
  p : Bool
  /-- `infd`. -/
  infd : ℤ
  /-- `count`. -/
  count : ℕ

/-- The loop of `builtin_exec`; `found` says which programs `stat` finds, and without one there is no stage at the end. -/
def execLoop (found : ℕ → Bool) : List (Option CStr) → Stage → Shell → Option (Option Stage × Shell)
  | [], st, s => some (some st, s)
  | none :: argv, st, s => execLoop found argv st s
  | some arg :: argv, st, s =>
      if st.p = false ∧ arg = cstr ['|'] then do
        let (pipefd, s) ← pipe world sh s
        let (_, s) ← builtinCommand world sh st.infd pipefd.2 (-1) s
        execLoop found argv ⟨true, pipefd.1, st.count + 1⟩ s
      else if st.p = false then
        execLoop found argv st s
      else if found st.count = false then
        some (none, s)
      else
        execLoop found argv { st with p := false } s

/-- The loop at the end of `builtin_exec`. -/
def waitLoop : ℕ → Shell → Option Shell
  | 0, s => some s
  | n + 1, s => do
      let (_, s) ← waitpid world sh s
      waitLoop n s

/-- `builtin_exec`; `found` says of each stage of the pipeline whether `stat` finds its program. -/
def builtinExec (found : ℕ → Bool) (argv : List CStr) (s : Shell) : Option Shell := do
  let (ret, argv, dupfd, s) ← dupfile (shellCalls world sh) argv { s with forked := [], waited := [] }
  if ret = -1 then
    return s
  let (st, s) ← execLoop world sh found argv ⟨true, dupfd.infd, 0⟩ s
  match st with
  | none => return s
  | some st => do
      let (_, s) ← builtinCommand world sh st.infd dupfd.outfd dupfd.errfd s
      waitLoop world sh (st.count + 1) s

end Calls

/-! ### What a command should leave -/

/-- **The shell has what it had**: its descriptors, and no child that has been forked and not been waited for. -/
structure Balanced (sh : ℕ) (s t : Shell) : Prop where
  /-- The descriptors. -/
  files : (t.kernel.tasks sh).map Process.files = (s.kernel.tasks sh).map Process.files
  /-- The children. -/
  children : ∀ child ∈ t.forked, child ∈ t.waited

/-- What the shell begins with: it runs, beside the first two tasks, and has no children. -/
structure Alone (sh : ℕ) (k : OpenFiles) : Prop where
  /-- The shell. -/
  running : k.running sh ≠ none
  /-- The first two tasks. -/
  low : ∀ c < 2, k.tasks c ≠ none
  /-- No children. -/
  children : ∀ c, ¬k.IsChild sh c

/-- The children of the shell wait for their own. -/
def Orderly (world : OpenFiles → FileOp → Bool) (sh : ℕ) : Prop := ∀ k op, world k op = true → ¬k.Gives sh op

/-- How many files are redirected. -/
def fileCount (argv : List CStr) : ℕ :=
  [forInput, forOutput, forError].countP fun kind => (lastOf kind (redirections argv)).isSome

/-- How many programs the loop of `builtin_exec` looks for if it finds them all. -/
def programs : List (Option CStr) → Bool → ℕ
  | [], _ => 0
  | none :: argv, p => programs argv p
  | some arg :: argv, p =>
      if p = false then programs argv (decide (arg = cstr ['|'])) else programs argv false + 1

/-! ### Between two calls -/

/-- **What holds between two calls of the shell**: beside the descriptors it has begun with it has those of `held`, and
its children are `children`. -/
structure Keeps (sh : ℕ) (base : ℕ → Option ℕ) (held children : List ℕ) (k : OpenFiles) : Prop where
  /-- The descriptors. -/
  files : ∃ p, k.running sh = some p ∧ Borrowed base held p.files
  /-- The children. -/
  isChild : ∀ c, k.IsChild sh c ↔ c ∈ children
  /-- Each child is one. -/
  nodup : children.Nodup
  /-- Where `task_waitpid` looks for them. -/
  range : ∀ c ∈ children, c ∈ List.range' 2 (taskNumber - 2)
  /-- The first two tasks. -/
  low : ∀ c < 2, k.tasks c ≠ none

section Kernel

variable {world : OpenFiles → FileOp → Bool} {sh : ℕ} {base : ℕ → Option ℕ} {held other children : List ℕ}
  {k k' : OpenFiles} {p : Process} {fd : ℤ}

theorem Keeps.perm (h : Keeps sh base held children k) (hperm : held.Perm other) : Keeps sh base other children k := by
  obtain ⟨p, hp, hfiles⟩ := h.files
  exact { h with files := ⟨p, hp, hfiles.perm hperm⟩ }

theorem Keeps.undisturbed (h : Keeps sh base held children k) (hsame : Undisturbed sh k k') : Keeps sh base held children k' where
  files := by
    obtain ⟨p, hp, hfiles⟩ := h.files
    obtain ⟨q, hq, heq⟩ := hsame.running p hp
    exact ⟨q, hq, heq ▸ hfiles⟩
  isChild c := (hsame.children c).trans (h.isChild c)
  nodup := h.nodup
  range := h.range
  low c hc := hsame.low c hc (h.low c hc)

/-- **The other tasks** change nothing of it. -/
theorem Keeps.others (horderly : Orderly world sh) {ops : List FileOp} (h : Keeps sh base held children k)
    (hothers : others world sh ops k = some k') : Keeps sh base held children k' := by
  induction ops generalizing k with
  | nil =>
    obtain rfl := Option.some.inj hothers
    exact h
  | cons op ops ih =>
    obtain ⟨k₁, hfirst, hrest⟩ := Option.bind_eq_some_iff.mp hothers
    obtain ⟨_, hmay, hfirst⟩ := Option.bind_eq_some_iff.mp hfirst
    obtain ⟨⟨r, k₂⟩, hstep, hfirst⟩ := Option.bind_eq_some_iff.mp hfirst
    obtain rfl := Option.some.inj hfirst
    obtain ⟨hne, hworld⟩ := assert_eq_some.mp hmay
    exact ih (h.undisturbed (fileStep_undisturbed hne (horderly k op hworld) hstep)) hrest

/-- The shell gets other descriptors. -/
theorem Keeps.setFiles {files : ℕ → Option ℕ} (h : Keeps sh base held children k) (hp : k.running sh = some p)
    (hfiles : Borrowed base other files)
    (htasks : k'.tasks = Function.update k.tasks sh (some { p with files := files })) :
    Keeps sh base other children k' := by
  obtain ⟨hsh, hdead⟩ := running_eq_some.mp hp
  refine ⟨⟨{ p with files := files }, running_eq_some.mpr ⟨?_, hdead⟩, hfiles⟩, fun c => Iff.trans ?_ (h.isChild c),
    h.nodup, h.range, fun c hc => ?_⟩
  · rw [htasks, Function.update_self]
  · rw [IsChild, IsChild, htasks]
    refine and_congr_right fun _ => ?_
    rcases eq_or_ne c sh with rfl | hne
    · rw [Function.update_self, hsh]
      simp
    · rw [Function.update_of_ne hne]
  · rw [htasks]
    rcases eq_or_ne c sh with rfl | hne
    · rw [Function.update_self]
      exact Option.some_ne_none _
    · rw [Function.update_of_ne hne]
      exact h.low c hc

/-- **`open`** takes a descriptor, if it returns one. -/
theorem Keeps.sysOpen {opened : Option Opened} {flags : ℕ} (h : Keeps sh base held children k)
    (hopen : k.sysOpen sh opened flags = some (fd, k')) :
    Keeps sh base ((fdSlot fd).toList ++ held) children k' ∧ (fd = -1 ↔ opened = none) := by
  obtain ⟨q, hq, hfiles⟩ := h.files
  obtain ⟨p, hp, hcases⟩ := sysOpen_tasks hopen
  obtain rfl := Option.some.inj (hp.symm.trans hq)
  obtain ⟨hnone, rfl, rfl⟩ | ⟨slot, f, hsome, hlt, hfree, rfl, htasks⟩ := hcases
  · exact ⟨h, iff_of_true rfl hnone⟩
  · rw [fdSlot_natCast hlt]
    exact ⟨h.setFiles hp (hfiles.take hfree f) htasks, iff_of_false (by omega) hsome⟩

/-- **`close`** gives a descriptor back. -/
theorem Keeps.sysClose (h : Keeps sh base ((fdSlot fd).toList ++ held) children k)
    (hclose : k.sysClose sh fd = some k') : Keeps sh base held children k' := by
  obtain ⟨q, hq, hfiles⟩ := h.files
  obtain ⟨p, slot, hp, hslot, htasks⟩ := sysClose_some hclose
  obtain rfl := Option.some.inj (hp.symm.trans (running_eq_some.mp hq).1)
  rw [hslot] at hfiles
  exact h.setFiles hq hfiles.give htasks

/-- **`pipe`** takes two descriptors. -/
theorem Keeps.sysPipe {inode r w : ℕ} (h : Keeps sh base held children k)
    (hpipe : k.sysPipe sh inode = some ((r, w), k')) :
    r < taskFileNr ∧ w < taskFileNr ∧ Keeps sh base (w :: r :: held) children k' := by
  obtain ⟨q, hq, hfiles⟩ := h.files
  obtain ⟨p, f, g, hp, hr, hw, hfree, hfree', htasks⟩ := sysPipe_tasks hpipe
  obtain rfl := Option.some.inj (hp.symm.trans hq)
  exact ⟨hr, hw, h.setFiles hp ((hfiles.take hfree f).take hfree' g) htasks⟩

/-- **`fork`** gives the shell a child. -/
theorem Keeps.taskFork {child : ℕ} (h : Keeps sh base held children k) (hfork : k.taskFork sh = some (child, k')) :
    Keeps sh base held (child :: children) k' := by
  obtain ⟨q, hq, hfiles⟩ := h.files
  obtain ⟨p, hp, hlt, hfree, htasks⟩ := taskFork_tasks hfork
  obtain rfl := Option.some.inj (hp.symm.trans hq)
  obtain ⟨hsh, hdead⟩ := running_eq_some.mp hp
  have hne : sh ≠ child := by
    rintro rfl
    exact absurd (hfree.symm.trans hsh) (by simp)
  have hnew : child ∉ children := fun hmem => by
    obtain ⟨-, r, hr, -⟩ := (h.isChild child).mpr hmem
    exact absurd (hfree.symm.trans hr) (by simp)
  have hlow : 2 ≤ child := by
    by_contra hlt
    exact h.low child (by omega) hfree
  refine ⟨⟨p, running_eq_some.mpr ⟨?_, hdead⟩, hfiles⟩, fun c => ?_, List.nodup_cons.mpr ⟨hnew, h.nodup⟩, fun c hc => ?_,
    fun c hc => ?_⟩
  · rw [htasks, Function.update_of_ne hne, hsh]
  · rw [List.mem_cons, ← h.isChild c, IsChild, IsChild, htasks]
    rcases eq_or_ne c child with rfl | hc
    · rw [Function.update_self]
      exact iff_of_true ⟨hlt, _, rfl, rfl⟩ (Or.inl rfl)
    · rw [Function.update_of_ne hc]
      exact (or_iff_right hc).symm
  · rcases List.mem_cons.mp hc with rfl | hc
    · rw [List.mem_range'_1]
      omega
    · exact h.range c hc
  · rw [htasks, Function.update_of_ne (by omega)]
    exact h.low c hc

/-- **`waitpid`** takes the record of a child, if there is one. -/
theorem Keeps.waitAny {r : Option ℕ} (h : Keeps sh base held children k) (hsome : children ≠ [])
    (hwait : waitAny sh k = some (r, k')) :
    ∃ child ∈ children, r = some child ∧ Keeps sh base held (children.erase child) k' := by
  rw [Osh.waitAny] at hwait
  split at hwait
  · rename_i child hdead
    obtain ⟨rfl, rfl⟩ := Prod.mk.inj (Option.some.inj hwait)
    rw [deadChild] at hdead
    obtain ⟨q, hq, hdied⟩ := (Option.any_eq_true _ _).mp
      (List.find?_some (p := fun child => (k.tasks child).any fun p => p.ppid == sh && p.died) hdead)
    simp only [Bool.and_eq_true, beq_iff_eq] at hdied
    have hlt : child < taskNumber := by
      have hrange := List.mem_range'_1.mp (List.mem_of_find?_eq_some hdead)
      rw [taskNumber] at hrange ⊢
      omega
    have hmem : child ∈ children := (h.isChild child).mp ⟨hlt, q, hq, hdied.1⟩
    obtain ⟨p, hp, hfiles⟩ := h.files
    have hne : sh ≠ child := by
      rintro rfl
      obtain ⟨hsh, hlive⟩ := running_eq_some.mp hp
      obtain rfl := Option.some.inj (hq.symm.trans hsh)
      exact Bool.false_ne_true (hlive.symm.trans hdied.2)
    have hlow : 2 ≤ child := (List.mem_range'_1.mp (h.range child hmem)).1
    refine ⟨child, hmem, rfl, ⟨p, ?_, hfiles⟩, fun c => ?_, h.nodup.erase child,
      fun c hc => h.range c (List.mem_of_mem_erase hc), fun c hc => ?_⟩
    · rw [running_eq_some] at hp ⊢
      rw [setProcess_of_ne _ _ hne]
      exact hp
    · rw [h.nodup.mem_erase_iff, ← h.isChild c, IsChild, IsChild]
      rcases eq_or_ne c child with rfl | hc
      · rw [setProcess_self]
        simp
      · rw [setProcess_of_ne _ _ hc]
        exact (and_iff_right hc).symm
    · rw [setProcess_of_ne _ _ (by omega)]
      exact h.low c hc
  · split at hwait
    · exact absurd hwait (by simp)
    · rename_i hnone
      obtain ⟨c, hc⟩ := List.exists_mem_of_ne_nil _ hsome
      obtain ⟨-, q, hq, hppid⟩ := (h.isChild c).mpr hc
      exact absurd (List.any_eq_true.mpr ⟨c, h.range c hc, (Option.any_eq_true _ _).mpr ⟨q, hq, by simpa using hppid⟩⟩)
        hnone

end Kernel

/-! ### Functions of the shell -/

/-- The slot of a descriptor that is not `EOF`. -/
def slots (fd : ℤ) : List ℕ := (fdSlot fd).toList

@[simp] theorem slots_eof : slots (-1) = [] := rfl

/-- **The shell holds** the descriptors of `held`, and all its children are written down. -/
def Holding (sh : ℕ) (base : ℕ → Option ℕ) (held : List ℕ) (s : Shell) : Prop :=
  Keeps sh base held s.forked s.kernel

section Functions

variable {world : OpenFiles → FileOp → Bool} {sh : ℕ} {base : ℕ → Option ℕ} {held children : List ℕ} {s t : Shell}
  {fd : ℤ}

/-- **A call** comes after what the other tasks do. -/
theorem call_keeps {α : Type} {f : Turn → OpenFiles → Option (α × OpenFiles)} {r : α} (horderly : Orderly world sh)
    (h : Keeps sh base held children s.kernel) (hcall : call world sh f s = some (r, t)) :
    ∃ turn k, s.script = turn :: t.script ∧ Keeps sh base held children k ∧ f turn k = some (r, t.kernel) ∧
      t.forked = s.forked ∧ t.waited = s.waited := by
  rw [call] at hcall
  split at hcall
  · exact absurd hcall (by simp)
  · rename_i turn script hscript
    obtain ⟨k, hothers, hcall⟩ := Option.bind_eq_some_iff.mp hcall
    obtain ⟨⟨r', k'⟩, hf, hcall⟩ := Option.bind_eq_some_iff.mp hcall
    obtain ⟨rfl, rfl⟩ := Prod.mk.inj (Option.some.inj hcall)
    exact ⟨turn, k, hscript, h.others horderly hothers, hf, rfl, rfl⟩

/-- **An `open` of `dupfile`** takes a descriptor if there is a file and it can be opened. -/
theorem Holding.openFile {file : Option CStr} {flags : ℕ} {r : Option ℤ} (horderly : Orderly world sh)
    (h : Holding sh base held s) (hopen : openFile (shellCalls world sh) file flags s = some (r, t)) :
    t.script = s.script.drop file.toList.length ∧ t.forked = s.forked ∧
      ((r = none ∧ Holding sh base held t ∧ ∃ turn ∈ s.script.take file.toList.length, turn.opened = none) ∨
        ∃ fd, r = some fd ∧ Holding sh base (slots fd ++ held) t ∧ (slots fd).length = file.toList.length ∧
          ∀ turn ∈ s.script.take file.toList.length, turn.opened ≠ none) := by
  cases file with
  | none =>
    obtain ⟨rfl, rfl⟩ := Prod.mk.inj (Option.some.inj hopen)
    exact ⟨rfl, rfl, Or.inr ⟨-1, rfl, h, rfl, fun turn hturn => absurd hturn List.not_mem_nil⟩⟩
  | some file =>
    obtain ⟨⟨fd, u⟩, hcall, hopen⟩ := Option.bind_eq_some_iff.mp hopen
    obtain ⟨rfl, rfl⟩ := Prod.mk.inj (Option.some.inj hopen)
    obtain ⟨turn, k, hscript, hk, hsys, hforked, -⟩ := call_keeps horderly h hcall
    obtain ⟨hkeeps, hfd⟩ := hk.sysOpen hsys
    have hu : Holding sh base (slots fd ++ held) u := by
      rw [Holding, hforked]
      exact hkeeps
    have htake : s.script.take (some file).toList.length = [turn] := by rw [hscript]; rfl
    rw [htake]
    refine ⟨by rw [hscript]; rfl, hforked, ?_⟩
    by_cases hne : fd = -1
    · subst hne
      exact Or.inl ⟨if_pos rfl, hu, turn, List.mem_singleton_self turn, hfd.mp rfl⟩
    · obtain ⟨p, -, ⟨-, heof, -⟩ | ⟨slot, f, -, hlt, -, rfl, -⟩⟩ := sysOpen_tasks hsys
      · exact absurd heof hne
      · refine Or.inr ⟨_, if_neg hne, hu, ?_, fun turn' hturn' => ?_⟩
        · rw [slots, fdSlot_natCast hlt]
          rfl
        · rw [List.mem_singleton.mp hturn']
          exact fun hnone => hne (hfd.mpr hnone)

/-- **A `close`** gives a descriptor back. -/
theorem Holding.closeFile (horderly : Orderly world sh) (h : Holding sh base (slots fd ++ held) s)
    (hclose : closeFile (shellCalls world sh) fd s = some t) : Holding sh base held t ∧ t.forked = s.forked := by
  rw [Osh.closeFile] at hclose
  split at hclose
  · rename_i heof
    subst heof
    obtain rfl := Option.some.inj hclose
    exact ⟨h, rfl⟩
  · obtain ⟨⟨_, u⟩, hcall, hclose⟩ := Option.bind_eq_some_iff.mp hclose
    obtain rfl := Option.some.inj hclose
    obtain ⟨turn, k, -, hk, hsys, hforked, -⟩ := call_keeps horderly h hcall
    obtain ⟨k', hclose, heq⟩ := Option.map_eq_some_iff.mp hsys
    obtain ⟨-, rfl⟩ := Prod.mk.inj heq
    refine ⟨?_, hforked⟩
    rw [Holding, hforked]
    exact hk.sysClose hclose

/-- **A pipe** takes two descriptors. -/
theorem Holding.pipe {r w : ℕ} (horderly : Orderly world sh) (h : Holding sh base held s)
    (hpipe : pipe world sh s = some ((r, w), t)) :
    slots r = [r] ∧ slots w = [w] ∧ Holding sh base (w :: r :: held) t ∧ t.forked = s.forked := by
  obtain ⟨turn, k, -, hk, hsys, hforked, -⟩ := call_keeps horderly h hpipe
  obtain ⟨hr, hw, hkeeps⟩ := hk.sysPipe hsys
  refine ⟨by rw [slots, fdSlot_natCast hr]; rfl, by rw [slots, fdSlot_natCast hw]; rfl, ?_, hforked⟩
  rw [Holding, hforked]
  exact hkeeps

/-- **`builtin_command`** forks a child and gives the descriptors of its stage back. -/
theorem Holding.builtinCommand {infd outfd errfd : ℤ} {pid : ℕ} (horderly : Orderly world sh)
    (h : Holding sh base (slots infd ++ (slots outfd ++ (slots errfd ++ held))) s)
    (hrun : builtinCommand world sh infd outfd errfd s = some (pid, t)) :
    Holding sh base held t ∧ t.forked.length = s.forked.length + 1 := by
  obtain ⟨⟨child, s₁⟩, hfork, hrun⟩ := Option.bind_eq_some_iff.mp hrun
  obtain ⟨⟨child', s₀⟩, hcall, hfork⟩ := Option.bind_eq_some_iff.mp hfork
  obtain ⟨rfl, rfl⟩ := Prod.mk.inj (Option.some.inj hfork)
  obtain ⟨s₂, hin, hrun⟩ := Option.bind_eq_some_iff.mp hrun
  obtain ⟨s₃, hout, hrun⟩ := Option.bind_eq_some_iff.mp hrun
  obtain ⟨s₄, herr, hrun⟩ := Option.bind_eq_some_iff.mp hrun
  obtain ⟨-, rfl⟩ := Prod.mk.inj (Option.some.inj hrun)
  obtain ⟨turn, k, -, hk, hsys, hforked, -⟩ := call_keeps horderly h hcall
  have h₁ : Holding sh base (slots infd ++ (slots outfd ++ (slots errfd ++ held)))
      { s₀ with forked := child' :: s₀.forked } := by
    rw [Holding, hforked]
    exact hk.taskFork hsys
  obtain ⟨h₂, heq₂⟩ := Holding.closeFile horderly h₁ hin
  obtain ⟨h₃, heq₃⟩ := Holding.closeFile horderly h₂ hout
  obtain ⟨h₄, heq₄⟩ := Holding.closeFile horderly h₃ herr
  refine ⟨h₄, ?_⟩
  rw [heq₄, heq₃, heq₂, List.length_cons, hforked]

/-- **The wait for the children**: as often as there are children waits for each of them. -/
theorem waitLoop_keeps (horderly : Orderly world sh) : ∀ (n : ℕ) {children : List ℕ} {s : Shell},
    Keeps sh base held children s.kernel → children.length = n → waitLoop world sh n s = some t →
      Keeps sh base held [] t.kernel ∧ t.forked = s.forked ∧ (∀ c ∈ children, c ∈ t.waited) ∧
        ∀ c ∈ s.waited, c ∈ t.waited := by
  intro n
  induction n with
  | zero =>
    intro children s h hlen hrun
    obtain rfl := Option.some.inj hrun
    obtain rfl := List.length_eq_zero_iff.mp hlen
    exact ⟨h, rfl, fun c hc => absurd hc List.not_mem_nil, fun c hc => hc⟩
  | succ n ih =>
    intro children s h hlen hrun
    obtain ⟨⟨r, s₁⟩, hwait, hrun⟩ := Option.bind_eq_some_iff.mp hrun
    obtain ⟨⟨r', s₀⟩, hcall, hwait⟩ := Option.bind_eq_some_iff.mp hwait
    obtain ⟨rfl, rfl⟩ := Prod.mk.inj (Option.some.inj hwait)
    obtain ⟨turn, k, -, hk, hsys, hforked, hwaited⟩ := call_keeps horderly h hcall
    obtain ⟨child, hmem, rfl, h₁⟩ := hk.waitAny (List.ne_nil_of_length_eq_add_one hlen) hsys
    obtain ⟨hend, hforked', hchildren, hbefore⟩ :=
      ih (s := { s₀ with waited := child :: s₀.waited }) h₁ (by rw [List.length_erase_of_mem hmem, hlen, Nat.add_sub_cancel]) hrun
    refine ⟨hend, hforked'.trans hforked, fun c hc => ?_, fun c hc => ?_⟩
    · rcases eq_or_ne c child with rfl | hne
      · exact hbefore c List.mem_cons_self
      · exact hchildren c ((List.mem_erase_of_ne hne).mpr hc)
    · exact hbefore c (List.mem_cons_of_mem child (hwaited ▸ hc))

/-- What `dupfile` opens, by the words of the command. -/
theorem dupfileLoop_files (argv : List CStr) :
    fileCount argv = (dupfileLoop argv ⟨0, 0, none, none, none⟩).2.infile.toList.length +
      (dupfileLoop argv ⟨0, 0, none, none, none⟩).2.outfile.toList.length +
      (dupfileLoop argv ⟨0, 0, none, none, none⟩).2.errfile.toList.length := by
  have hone : ∀ x : Option (Operator × CStr), (x.map Prod.snd).toList.length = if x.isSome then 1 else 0 := by
    intro x
    cases x with
    | none => rfl
    | some r => rfl
  rw [dupfileLoop_snd, foldl_store, hone, hone, hone, fileCount, List.countP_cons, List.countP_cons, List.countP_cons,
    List.countP_nil]
  omega

/-- **`dupfile`** takes a descriptor for each file, or gives those it has taken back and returns `EOF`. -/
theorem Holding.dupfile {argv : List CStr} {argv' : List (Option CStr)} {ret : ℤ} {dupfd : Dupfd}
    (horderly : Orderly world sh) (h : Holding sh base [] s)
    (hrun : dupfile (shellCalls world sh) argv s = some (ret, argv', dupfd, t)) :
    t.forked = s.forked ∧
      ((ret = -1 ∧ Holding sh base [] t ∧ ∃ turn ∈ s.script.take (fileCount argv), turn.opened = none) ∨
      ret = 0 ∧ argv' = (dupfileLoop argv ⟨0, 0, none, none, none⟩).1 ∧
        Holding sh base (slots dupfd.infd ++ (slots dupfd.outfd ++ slots dupfd.errfd)) t ∧
        (slots dupfd.infd ++ (slots dupfd.outfd ++ slots dupfd.errfd)).length = fileCount argv ∧
        ∀ turn ∈ s.script.take (fileCount argv), turn.opened ≠ none) := by
  rw [dupfileLoop_files]
  rw [Osh.dupfile] at hrun
  generalize dupfileLoop argv ⟨0, 0, none, none, none⟩ = loop at hrun ⊢
  obtain ⟨argv'', r⟩ := loop
  simp only at hrun ⊢
  -- the rollback closes what has been opened
  have hback : ∀ (fds : Dupfd) {u : Shell},
      Holding sh base (slots fds.infd ++ (slots fds.outfd ++ (slots fds.errfd ++ []))) u →
      rollback (shellCalls world sh) argv'' fds u = some (ret, argv', dupfd, t) →
        t.forked = u.forked ∧ ret = -1 ∧ Holding sh base [] t := by
    intro fds u hu hclose
    obtain ⟨hret, u₁, u₂, hin, hout, herr⟩ := rollback_some hclose
    obtain ⟨h₁, heq₁⟩ := Holding.closeFile horderly hu hin
    obtain ⟨h₂, heq₂⟩ := Holding.closeFile horderly h₁ hout
    obtain ⟨h₃, heq₃⟩ := Holding.closeFile horderly h₂ herr
    exact ⟨heq₃.trans (heq₂.trans heq₁), hret, h₃⟩
  rw [List.take_add, List.take_add]
  simp only [List.mem_append]
  obtain ⟨⟨infd, s₁⟩, hin, hrun⟩ := Option.bind_eq_some_iff.mp hrun
  obtain ⟨hscript₁, hforked₁, ⟨rfl, h₁, turn, hturn, hopened⟩ | ⟨fd₀, rfl, h₁, hlen₁, hopened₁⟩⟩ :=
    Holding.openFile horderly h hin
  · obtain ⟨hforked, hret, ht⟩ := hback ⟨-1, -1, -1⟩ (by simpa using h₁) hrun
    exact ⟨hforked.trans hforked₁, Or.inl ⟨hret, ht, turn, Or.inl (Or.inl hturn), hopened⟩⟩
  obtain ⟨⟨outfd, s₂⟩, hout, hrun⟩ := Option.bind_eq_some_iff.mp hrun
  obtain ⟨hscript₂, hforked₂, ⟨rfl, h₂, turn, hturn, hopened⟩ | ⟨fd₁, rfl, h₂, hlen₂, hopened₂⟩⟩ :=
    Holding.openFile horderly h₁ hout
  · obtain ⟨hforked, hret, ht⟩ := hback ⟨fd₀, -1, -1⟩ (by simpa using h₂) hrun
    rw [hscript₁] at hturn
    exact ⟨hforked.trans (hforked₂.trans hforked₁), Or.inl ⟨hret, ht, turn, Or.inl (Or.inr hturn), hopened⟩⟩
  obtain ⟨⟨errfd, s₃⟩, herr, hrun⟩ := Option.bind_eq_some_iff.mp hrun
  obtain ⟨-, hforked₃, ⟨rfl, h₃, turn, hturn, hopened⟩ | ⟨fd₂, rfl, h₃, hlen₃, hopened₃⟩⟩ :=
    Holding.openFile horderly h₂ herr
  · have hperm : (slots fd₁ ++ (slots fd₀ ++ [])).Perm (slots fd₀ ++ (slots fd₁ ++ (slots (-1) ++ []))) := by
      simp only [slots_eof, List.append_nil]
      exact List.perm_append_comm
    obtain ⟨hforked, hret, ht⟩ := hback ⟨fd₀, fd₁, -1⟩ (h₃.perm hperm) hrun
    rw [hscript₂, hscript₁, List.drop_drop] at hturn
    exact ⟨hforked.trans (hforked₃.trans (hforked₂.trans hforked₁)), Or.inl ⟨hret, ht, turn, Or.inr hturn, hopened⟩⟩
  obtain ⟨hret, hend⟩ := Prod.mk.inj (Option.some.inj hrun)
  obtain ⟨hargv, hend⟩ := Prod.mk.inj hend
  obtain ⟨rfl, rfl⟩ := Prod.mk.inj hend
  refine ⟨hforked₃.trans (hforked₂.trans hforked₁), Or.inr ⟨hret.symm, hargv.symm, h₃.perm ?_, ?_, ?_⟩⟩
  · simp only [List.append_nil]
    exact (List.perm_append_comm.trans (List.Perm.append_right _ List.perm_append_comm)).trans
      (by rw [List.append_assoc])
  · rw [List.length_append, List.length_append, hlen₁, hlen₂, hlen₃, Nat.add_assoc]
  · rintro turn ((hturn | hturn) | hturn)
    · exact hopened₁ turn hturn
    · exact hopened₂ turn (hscript₁ ▸ hturn)
    · rw [← List.drop_drop, ← hscript₁, ← hscript₂] at hturn
      exact hopened₃ turn hturn

/-- The stage whose program the loop of `builtin_exec` looks for next. -/
def Stage.next (st : Stage) : ℕ := if st.p then st.count else st.count + 1

/-- **The loop of `builtin_exec`** goes on with what it holds for the next stage, and finds all its programs; or it returns
where one is missing. Then it holds what it has begun with, if it is the first, or one end of a pipe at least. -/
theorem Holding.execLoop {found : ℕ → Bool} {tail : List ℕ} (horderly : Orderly world sh) :
    ∀ (argv : List (Option CStr)) (st : Stage) {s : Shell} {r : Option Stage},
      Holding sh base (slots st.infd ++ tail) s → execLoop world sh found argv st s = some (r, t) →
        (∃ st', r = some st' ∧ Holding sh base (slots st'.infd ++ tail) t ∧
          t.forked.length + st.count = s.forked.length + st'.count ∧
          ∀ k, st.next ≤ k → k < st.next + programs argv st.p → found k = true) ∨
        (r = none ∧ (∃ k, st.next ≤ k ∧ k < st.next + programs argv st.p ∧ found k = false) ∧
          ∃ held, Holding sh base held t ∧ ((held ≠ [] ∧ (st.p = true → found st.count = true)) ∨
            (held = slots st.infd ++ tail ∧ t.forked = s.forked ∧ st.p = true ∧ found st.count = false))) := by
  intro argv
  induction argv with
  | nil =>
    intro st s r h hrun
    obtain ⟨rfl, rfl⟩ := Prod.mk.inj (Option.some.inj hrun)
    exact Or.inl ⟨st, rfl, h, rfl, fun k hle hlt => absurd hlt (by simpa [programs] using hle)⟩
  | cons arg argv ih =>
    intro st s r h hrun
    obtain ⟨p, infd, count⟩ := st
    cases arg with
    | none => exact ih _ h hrun
    | some arg =>
      rw [Osh.execLoop] at hrun
      cases p with
      | false =>
        by_cases hpipe : arg = cstr ['|']
        · -- a stage ends
          rw [if_pos ⟨rfl, hpipe⟩] at hrun
          rw [programs, if_pos rfl, decide_eq_true hpipe]
          obtain ⟨⟨⟨rd, wr⟩, s₁⟩, hcall, hrun⟩ := Option.bind_eq_some_iff.mp hrun
          obtain ⟨⟨pid, s₂⟩, hcommand, hrun⟩ := Option.bind_eq_some_iff.mp hrun
          obtain ⟨hrd, hwr, h₁, hforked₁⟩ := Holding.pipe horderly h hcall
          have hperm : (wr :: rd :: (slots infd ++ tail)).Perm
              (slots infd ++ (slots wr ++ (slots (-1) ++ (slots rd ++ tail)))) := by
            rw [hrd, hwr]
            exact (List.perm_middle.trans (List.perm_middle.cons wr)).symm
          obtain ⟨h₂, hforked₂⟩ := Holding.builtinCommand horderly (h₁.perm hperm) hcommand
          have hnext : Stage.next ⟨false, infd, count⟩ = Stage.next ⟨true, (rd : ℤ), count + 1⟩ := rfl
          rw [hnext]
          rcases ih _ h₂ hrun with ⟨st', hr, ht, hforked, hfound⟩ | ⟨hr, hmissing, held, ht, hheld⟩
          · refine Or.inl ⟨st', hr, ht, ?_, hfound⟩
            simp only at hforked ⊢
            rw [hforked₂, hforked₁] at hforked
            omega
          · refine Or.inr ⟨hr, hmissing, held, ht, Or.inl ?_⟩
            refine ⟨?_, fun hp => absurd hp (by simp)⟩
            rcases hheld with ⟨hne, -⟩ | ⟨rfl, -⟩
            · exact hne
            · rw [hrd]
              exact List.cons_ne_nil _ _
        · rw [if_neg fun hand => hpipe hand.2, if_pos rfl] at hrun
          rw [programs, if_pos rfl, decide_eq_false hpipe]
          exact ih _ h hrun
      | true =>
        rw [if_neg fun hand => absurd hand.1 (by simp), if_neg (by simp)] at hrun
        rw [programs, if_neg (by simp)]
        split at hrun
        · -- the program is missing
          rename_i hmissing
          obtain ⟨rfl, rfl⟩ := Prod.mk.inj (Option.some.inj hrun)
          exact Or.inr ⟨rfl, ⟨count, le_rfl, Nat.lt_add_of_pos_right (Nat.succ_pos _), hmissing⟩, _, h,
            Or.inr ⟨rfl, rfl, rfl, hmissing⟩⟩
        · rename_i hfirst
          have hnext : Stage.next ⟨false, infd, count⟩ = Stage.next ⟨true, infd, count⟩ + 1 := rfl
          rcases ih ⟨false, infd, count⟩ h hrun with
            ⟨st', hr, ht, hforked, hfound⟩ | ⟨hr, ⟨k, hle, hlt, hk⟩, held, ht, hheld⟩
          · refine Or.inl ⟨st', hr, ht, hforked, fun k hle hlt => ?_⟩
            rcases hle.eq_or_lt with rfl | hle
            · exact Bool.not_eq_false _ ▸ hfirst
            · exact hfound k (by rw [hnext]; omega) (by rw [hnext]; simp only at hlt ⊢; omega)
          · refine Or.inr ⟨hr, ⟨k, by omega, by simp only at hlt ⊢; omega, hk⟩, held, ht, ?_⟩
            rcases hheld with ⟨hne, -⟩ | ⟨-, -, hp, -⟩
            · exact Or.inl ⟨hne, fun _ => Bool.not_eq_false _ ▸ hfirst⟩
            · exact absurd hp (by simp)

/-- The descriptors are what they have been exactly when none is held. -/
theorem Keeps.files_iff {p : Process} (hp : s.kernel.running sh = some p)
    (h : Keeps sh p.files held children t.kernel) :
    (t.kernel.tasks sh).map Process.files = (s.kernel.tasks sh).map Process.files ↔ held = [] := by
  obtain ⟨q, hq, hfiles⟩ := h.files
  rw [(running_eq_some.mp hq).1, (running_eq_some.mp hp).1, Option.map_some, Option.map_some, Option.some_inj]
  exact hfiles.eq_iff

/-- **A command leaves the shell what it had** exactly when a file of its redirections cannot be opened, or all its programs
are there, or the first one is missing and nothing is redirected. -/
theorem builtinExec_iff {found : ℕ → Bool} {argv : List CStr} (horderly : Orderly world sh) (halone : Alone sh s.kernel)
    (hrun : builtinExec world sh found argv s = some t) :
    Balanced sh s t ↔ (∃ turn ∈ s.script.take (fileCount argv), turn.opened = none) ∨
      (∀ k < programs (dupfileLoop argv ⟨0, 0, none, none, none⟩).1 true, found k = true) ∨
      (found 0 = false ∧ fileCount argv = 0) := by
  obtain ⟨p, hp⟩ := Option.ne_none_iff_exists'.mp halone.running
  have hstart : Holding sh p.files [] { s with forked := [], waited := [] } :=
    ⟨⟨p, hp, .refl _⟩, fun c => iff_of_false (halone.children c) List.not_mem_nil, List.nodup_nil,
      fun c hc => absurd hc List.not_mem_nil, halone.low⟩
  obtain ⟨⟨ret, argv', dupfd, s₁⟩, hdup, hrun⟩ := Option.bind_eq_some_iff.mp hrun
  obtain ⟨hforked₁, ⟨rfl, h₁, hfail⟩ | ⟨rfl, rfl, h₁, hlen, hopened⟩⟩ := Holding.dupfile horderly hstart hdup
  · obtain rfl := Option.some.inj hrun
    refine iff_of_true ⟨(Keeps.files_iff hp h₁).mpr rfl, fun child hchild => ?_⟩ (Or.inl hfail)
    rw [hforked₁] at hchild
    exact absurd hchild List.not_mem_nil
  · rw [or_iff_right fun ⟨turn, hturn, hnone⟩ => hopened turn hturn hnone]
    obtain ⟨⟨st, s₂⟩, hloop, hrun⟩ := Option.bind_eq_some_iff.mp hrun
    rcases Holding.execLoop horderly _ ⟨true, dupfd.infd, 0⟩ h₁ hloop with
      ⟨st', rfl, h₂, hforked₂, hfound⟩ | ⟨rfl, ⟨k, -, hlt, hk⟩, held, h₂, hheld⟩
    · obtain ⟨⟨pid, s₃⟩, hcommand, hrun⟩ := Option.bind_eq_some_iff.mp hrun
      rw [← List.append_nil (slots dupfd.errfd)] at h₂
      obtain ⟨h₃, hforked₃⟩ := Holding.builtinCommand horderly h₂ hcommand
      rw [hforked₁] at hforked₂
      simp only [List.length_nil, Nat.add_zero, Nat.zero_add] at hforked₂
      obtain ⟨hend, hforked₄, hwaited, -⟩ := waitLoop_keeps horderly _ h₃ (by rw [hforked₃, hforked₂]) hrun
      refine iff_of_true ⟨(Keeps.files_iff hp hend).mpr rfl, fun child hchild => ?_⟩ (Or.inl fun k hlt => ?_)
      · exact hwaited child (hforked₄ ▸ hchild)
      · exact hfound k (Nat.zero_le k) (by rw [Stage.next, if_pos rfl, Nat.zero_add]; exact hlt)
    · obtain rfl := Option.some.inj hrun
      rw [Stage.next, if_pos rfl, Nat.zero_add] at hlt
      rw [or_iff_right fun hall => Bool.false_ne_true (hk.symm.trans (hall k hlt))]
      rcases hheld with ⟨hne, hfirst⟩ | ⟨rfl, hforked₂, -, hfirst⟩
      · refine iff_of_false (fun h => hne ((Keeps.files_iff hp h₂).mp h.files)) fun h => ?_
        exact Bool.false_ne_true (h.1.symm.trans (hfirst rfl))
      · rw [← hlen, List.length_eq_zero_iff, and_iff_right hfirst, ← Keeps.files_iff hp h₂]
        refine ⟨fun h => h.files, fun h => ⟨h, fun child hchild => ?_⟩⟩
        rw [hforked₂, hforked₁] at hchild
        exact absurd hchild List.not_mem_nil

end Functions

/-! ### Two commands -/

/-- A world in which no task exits before its children. -/
def waitsFirst (k : OpenFiles) : FileOp → Bool
  | .exit pid => !(List.range taskNumber).any fun c => (k.tasks c).any fun p => p.ppid == pid
  | _ => true

theorem waitsFirst_orderly (sh : ℕ) : Orderly waitsFirst sh := by
  intro k op hworld hgives
  cases op with
  | exit pid =>
    obtain ⟨-, c, hlt, p, hp, hppid⟩ := hgives
    rw [waitsFirst, List.any_eq_true.mpr ⟨c, List.mem_range.mpr hlt, (Option.any_eq_true _ _).mpr ⟨p, hp, by simp [hppid]⟩⟩]
      at hworld
    exact absurd hworld (by simp)
  | _ => exact hgives

/-- The shell is the third task of `task_init`. -/
def bootShell (script : List Turn) : Shell := ⟨bootFiles id id, script, [], []⟩

theorem bootShell_alone (script : List Turn) : Alone 2 (bootShell script).kernel := by
  refine ⟨by simp [bootShell, bootFiles, OpenFiles.running, bootProcess, assert], fun c hc => ?_, fun c hchild => ?_⟩
  · rw [show (bootShell script).kernel.tasks c = some (bootProcess c) from if_pos (by omega)]
    exact Option.some_ne_none _
  · obtain ⟨-, p, hp, hppid⟩ := hchild
    change (if c < 3 then some (bootProcess c) else none) = some p at hp
    split at hp
    · obtain rfl := Option.some.inj hp
      exact absurd hppid (by simp [bootProcess])
    · exact absurd hp (by simp)

/-- A program whose process exits before the shell waits. -/
theorem builtinExec_iff_one : ∃ t,
    builtinExec waitsFirst 2 (fun _ => true) [cstr ['a']] (bootShell [⟨[], none, 0⟩, ⟨[.exit 3], none, 0⟩]) = some t ∧
    (Balanced 2 (bootShell [⟨[], none, 0⟩, ⟨[.exit 3], none, 0⟩]) t ↔
      (∃ turn ∈ (bootShell [⟨[], none, 0⟩, ⟨[.exit 3], none, 0⟩]).script.take (fileCount [cstr ['a']]),
        turn.opened = none) ∨
      (∀ k < programs (dupfileLoop [cstr ['a']] ⟨0, 0, none, none, none⟩).1 true, (fun _ => true) k = true) ∨
      ((fun _ => true) 0 = false ∧ fileCount [cstr ['a']] = 0)) := by
  have hrun : (builtinExec waitsFirst 2 (fun _ => true) [cstr ['a']]
      (bootShell [⟨[], none, 0⟩, ⟨[.exit 3], none, 0⟩])).isSome = true := by
    decide +kernel
  obtain ⟨t, ht⟩ := Option.isSome_iff_exists.mp hrun
  exact ⟨t, ht, builtinExec_iff (waitsFirst_orderly 2) (bootShell_alone _) ht⟩

/-- **A pipe that stays open**: with `a | b` and without a program `b` the shell returns with a descriptor of the pipe, and
nobody waits for the process of `a`. -/
theorem builtinExec_unbalanced : ∃ t,
    builtinExec waitsFirst 2 (fun k => k == 0) [cstr ['a'], cstr ['|'], cstr ['b']]
      (bootShell [⟨[], none, 9⟩, ⟨[], none, 0⟩, ⟨[], none, 0⟩]) = some t ∧
    t.forked = [3] ∧ t.waited = [] ∧ ¬Balanced 2 (bootShell [⟨[], none, 9⟩, ⟨[], none, 0⟩, ⟨[], none, 0⟩]) t := by
  have hrun : (builtinExec waitsFirst 2 (fun k => k == 0) [cstr ['a'], cstr ['|'], cstr ['b']]
      (bootShell [⟨[], none, 9⟩, ⟨[], none, 0⟩, ⟨[], none, 0⟩])).any
        (fun t => decide (t.forked = [3] ∧ t.waited = [])) = true := by
    decide +kernel
  obtain ⟨t, ht, hfacts⟩ := (Option.any_eq_true _ _).mp hrun
  obtain ⟨hforked, hwaited⟩ := of_decide_eq_true hfacts
  refine ⟨t, ht, hforked, hwaited, fun h => ?_⟩
  have hchild := h.children 3 (by rw [hforked]; exact List.mem_singleton_self 3)
  rw [hwaited] at hchild
  exact absurd hchild List.not_mem_nil

end Osh

end Onixs
