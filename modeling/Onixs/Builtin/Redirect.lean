import Mathlib.Data.List.Induction
import Mathlib.Logic.Relation
import Onixs.Kernel.WriteOpen

/-!
# The redirections of a command

`dupfile` of `builtin/utils/osh.c` takes the operators out of the words of a command and opens the files behind them, with
three `open` that share what the operators have stored. `2>>` stores its `O_APPEND` where `>>` does, from where `>` does
not take it away, and the file for errors is opened with `O_RDONLY` (`Onixs.Osh.dupfile_iff`).
-/

namespace Onixs

namespace Osh

/-! ### The words -/

/-- What the loop of `dupfile` stores. -/
structure Redirects where
  /-- `outappend`. -/
  outappend : ℕ
  /-- `errappend`. -/
  errappend : ℕ
  /-- `infile`. -/
  infile : Option CStr
  /-- `outfile`. -/
  outfile : Option CStr
  /-- `errfile`. -/
  errfile : Option CStr

/-- `O_RDONLY`. -/
def oRdonly : ℕ := 0

/-- `O_WRONLY`. -/
def oWronly : ℕ := 1

/-- `O_APPEND`. -/
def oAppend : ℕ := 0o2000

/-- The loop of `dupfile`, which also clears operators in `argv`. -/
def dupfileLoop : List CStr → Redirects → List (Option CStr) × Redirects
  | [], r => ([], r)
  | [arg], r => ([some arg], r)
  | arg :: file :: argv, r =>
      if arg = cstr ['<'] then
        let (argv, r) := dupfileLoop argv { r with infile := some file }
        (none :: some file :: argv, r)
      else if arg = cstr ['>'] then
        let (argv, r) := dupfileLoop argv { r with outfile := some file }
        (none :: some file :: argv, r)
      else if arg = cstr ['>', '>'] then
        let (argv, r) := dupfileLoop argv { r with outfile := some file, outappend := oAppend }
        (none :: some file :: argv, r)
      else if arg = cstr ['2', '>'] then
        let (argv, r) := dupfileLoop argv { r with errfile := some file }
        (none :: some file :: argv, r)
      else if arg = cstr ['2', '>', '>'] then
        let (argv, r) := dupfileLoop argv { r with errfile := some file, outappend := oAppend }
        (none :: some file :: argv, r)
      else
        let (argv, r) := dupfileLoop (file :: argv) r
        (some arg :: argv, r)

/-! ### The files -/

/-- `open` and `close`. -/
structure FileCalls (σ : Type) where
  /-- `open`. -/
  opens : CStr → ℕ → ℕ → σ → Option (ℤ × σ)
  /-- `close`. -/
  close : ℤ → σ → Option σ

/-- `dupfd`. -/
structure Dupfd where
  /-- `dupfd[0]`. -/
  infd : ℤ
  /-- `dupfd[1]`. -/
  outfd : ℤ
  /-- `dupfd[2]`. -/
  errfd : ℤ

section Calls

variable {σ : Type} (calls : FileCalls σ)

/-- One of the three `open` of `dupfile`: what stands in `dupfd` afterwards, or `none` if it has failed. -/
def openFile (file : Option CStr) (flags : ℕ) (s : σ) : Option (Option ℤ × σ) :=
  match file with
  | none => some (some (-1), s)
  | some file => do
      let (fd, s) ← calls.opens file flags 0o755 s
      return (if fd = -1 then none else some fd, s)

/-- `close` of a descriptor that is not `EOF`. -/
def closeFile (fd : ℤ) (s : σ) : Option σ := if fd = -1 then some s else calls.close fd s

/-- The end of `dupfile` where an `open` has failed. -/
def rollback (argv : List (Option CStr)) (dupfd : Dupfd) (s : σ) :
    Option (ℤ × List (Option CStr) × Dupfd × σ) := do
  let s ← closeFile calls dupfd.infd s
  let s ← closeFile calls dupfd.outfd s
  let s ← closeFile calls dupfd.errfd s
  return (-1, argv, dupfd, s)

/-- `dupfile`, which returns `argv` and `dupfd` too. What it prints is left out. -/
def dupfile (argv : List CStr) (s : σ) : Option (ℤ × List (Option CStr) × Dupfd × σ) := do
  let (argv, r) := dupfileLoop argv ⟨0, 0, none, none, none⟩
  let (infd, s) ← openFile calls r.infile (oRdonly ||| r.outappend ||| oCreat) s
  match infd with
  | none => rollback calls argv ⟨-1, -1, -1⟩ s
  | some infd =>
      let (outfd, s) ← openFile calls r.outfile (oWronly ||| r.outappend ||| oCreat) s
      match outfd with
      | none => rollback calls argv ⟨infd, -1, -1⟩ s
      | some outfd =>
          let (errfd, s) ← openFile calls r.errfile (oRdonly ||| r.errappend ||| oCreat) s
          match errfd with
          | none => rollback calls argv ⟨infd, outfd, -1⟩ s
          | some errfd => return (0, argv, ⟨infd, outfd, errfd⟩, s)

end Calls

/-! ### What the words say -/

/-- An operator. -/
inductive Operator where
  /-- `<`. -/
  | input
  /-- `>`. -/
  | output
  /-- `>>`. -/
  | append
  /-- `2>`. -/
  | error
  /-- `2>>`. -/
  | errorAppend
deriving DecidableEq

/-- The operator that a word is. -/
def operator (word : CStr) : Option Operator :=
  if word = cstr ['<'] then some .input
  else if word = cstr ['>'] then some .output
  else if word = cstr ['>', '>'] then some .append
  else if word = cstr ['2', '>'] then some .error
  else if word = cstr ['2', '>', '>'] then some .errorAppend
  else none

/-- **The redirections of a command**, each with the file behind its operator. -/
def redirections : List CStr → List (Operator × CStr)
  | [] => []
  | [_] => []
  | word :: file :: words =>
      match operator word with
      | some o => (o, file) :: redirections words
      | none => redirections (file :: words)

/-- The last redirection with an operator of some kind. -/
def lastOf (kind : Operator → Bool) (l : List (Operator × CStr)) : Option (Operator × CStr) :=
  (l.filter fun r => kind r.1).getLast?

/-- `<`. -/
def forInput (o : Operator) : Bool := o = .input

/-- `>` and `>>`. -/
def forOutput (o : Operator) : Bool := o = .output || o = .append

/-- `2>` and `2>>`. -/
def forError (o : Operator) : Bool := o = .error || o = .errorAppend

/-- `>>`. -/
def appends (o : Operator) : Bool := o = .append

/-! ### What the loop stores -/

/-- What the loop stores for an operator with a file behind it. -/
def Redirects.store (r : Redirects) : Operator × CStr → Redirects
  | (.input, file) => { r with infile := some file }
  | (.output, file) => { r with outfile := some file }
  | (.append, file) => { r with outfile := some file, outappend := oAppend }
  | (.error, file) => { r with errfile := some file }
  | (.errorAppend, file) => { r with errfile := some file, outappend := oAppend }

/-- **The loop stores the redirections** one after the other. -/
theorem dupfileLoop_snd (argv : List CStr) (r : Redirects) :
    (dupfileLoop argv r).2 = (redirections argv).foldl Redirects.store r := by
  induction argv using redirections.induct generalizing r with
  | case1 => rfl
  | case2 word => rfl
  | case3 word file words o ho ih =>
    rw [redirections, ho, List.foldl_cons, ← ih]
    rw [operator] at ho
    rw [dupfileLoop]
    split at ho
    · rename_i hword
      rw [if_pos hword, ← Option.some.inj ho]
      rfl
    · rename_i hin
      rw [if_neg hin]
      split at ho
      · rename_i hword
        rw [if_pos hword, ← Option.some.inj ho]
        rfl
      · rename_i hout
        rw [if_neg hout]
        split at ho
        · rename_i hword
          rw [if_pos hword, ← Option.some.inj ho]
          rfl
        · rename_i happ
          rw [if_neg happ]
          split at ho
          · rename_i hword
            rw [if_pos hword, ← Option.some.inj ho]
            rfl
          · rename_i herr
            rw [if_neg herr]
            split at ho
            · rename_i hword
              rw [if_pos hword, ← Option.some.inj ho]
              rfl
            · exact absurd ho (by simp)
  | case4 word file words ho ih =>
    rw [redirections, ho, ← ih]
    simp only [operator, ite_eq_iff, reduceCtorEq, and_false, false_or] at ho
    obtain ⟨hin, hout, happ, herr, herrapp, -⟩ := ho
    rw [dupfileLoop, if_neg hin, if_neg hout, if_neg happ, if_neg herr, if_neg herrapp]

section Last

variable {kind : Operator → Bool} {l : List (Operator × CStr)} {x : Operator × CStr}

theorem lastOf_concat : lastOf kind (l ++ [x]) = if kind x.1 then some x else lastOf kind l := by
  rw [lastOf, List.filter_append, List.filter_singleton]
  cases kind x.1 with
  | true => exact List.getLast?_concat
  | false => exact congrArg List.getLast? (List.append_nil _)

theorem lastOf_mem (h : lastOf kind l = some x) : x ∈ l ∧ kind x.1 = true :=
  List.mem_filter.mp (List.mem_of_getLast? h)

theorem lastOf_eq_none : lastOf kind l = none ↔ ∀ r ∈ l, ¬kind r.1 = true := by
  rw [lastOf, List.getLast?_eq_none_iff, List.filter_eq_nil_iff]

/-- **What the loop has stored** at its end: of each kind the last file, and `O_APPEND` if there has been a `>>` or a
`2>>` at all. -/
theorem foldl_store (l : List (Operator × CStr)) :
    l.foldl Redirects.store ⟨0, 0, none, none, none⟩ =
      ⟨if lastOf appends l = none ∧ lastOf (fun o => o = .errorAppend) l = none then 0 else oAppend, 0,
        (lastOf forInput l).map Prod.snd, (lastOf forOutput l).map Prod.snd, (lastOf forError l).map Prod.snd⟩ := by
  induction l using List.reverseRecOn with
  | nil => rfl
  | append_singleton l x ih =>
    obtain ⟨o, file⟩ := x
    rw [List.foldl_append, ih, List.foldl_cons, List.foldl_nil]
    simp only [lastOf_concat]
    cases o with
    | input => rfl
    | output => rfl
    | append => simp [Redirects.store, appends, forInput, forOutput, forError]
    | error => rfl
    | errorAppend => simp [Redirects.store, appends, forInput, forOutput, forError]

end Last

/-! ### What `dupfile` opens -/

section Opens

variable {σ : Type} {calls : FileCalls σ} {argv : List CStr} {argv' : List (Option CStr)} {dupfd : Dupfd}
  {s t : σ} {file : Option CStr} {flags : ℕ} {fd : ℤ}

/-- What `open` has done where it has not failed. -/
theorem openFile_some (hopen : openFile calls file flags s = some (some fd, t)) :
    (file = none ∧ fd = -1 ∧ t = s) ∨
      ∃ path, file = some path ∧ calls.opens path flags 0o755 s = some (fd, t) ∧ fd ≠ -1 := by
  cases file with
  | none =>
    obtain ⟨hfd, rfl⟩ := Prod.mk.inj (Option.some.inj hopen)
    exact Or.inl ⟨rfl, (Option.some.inj hfd).symm, rfl⟩
  | some path =>
    obtain ⟨⟨fd', t'⟩, hcall, hopen⟩ := Option.bind_eq_some_iff.mp hopen
    obtain ⟨hfd, rfl⟩ := Prod.mk.inj (Option.some.inj hopen)
    split at hfd
    · exact absurd hfd (by simp)
    · rename_i hne
      obtain rfl := Option.some.inj hfd
      exact Or.inr ⟨path, rfl, hcall, hne⟩

/-- The rollback closes the descriptors and returns `EOF`. -/
theorem rollback_some {argv'' : List (Option CStr)} {fds : Dupfd} {ret : ℤ}
    (hback : rollback calls argv'' fds s = some (ret, argv', dupfd, t)) : ret = -1 ∧ ∃ u v,
      closeFile calls fds.infd s = some u ∧ closeFile calls fds.outfd u = some v ∧
        closeFile calls fds.errfd v = some t := by
  obtain ⟨u, hin, hback⟩ := Option.bind_eq_some_iff.mp hback
  obtain ⟨v, hout, hback⟩ := Option.bind_eq_some_iff.mp hback
  obtain ⟨w, herr, hback⟩ := Option.bind_eq_some_iff.mp hback
  obtain ⟨hret, hend⟩ := Prod.mk.inj (Option.some.inj hback)
  obtain rfl := (Prod.mk.inj (Prod.mk.inj hend).2).2
  exact ⟨hret.symm, u, v, hin, hout, herr⟩

/-- **What `dupfile` has opened** where it returns 0. -/
theorem dupfile_zero (hrun : dupfile calls argv s = some (0, argv', dupfd, t)) :
    ∃ u v, openFile calls (dupfileLoop argv ⟨0, 0, none, none, none⟩).2.infile
        (oRdonly ||| (dupfileLoop argv ⟨0, 0, none, none, none⟩).2.outappend ||| oCreat) s = some (some dupfd.infd, u) ∧
      openFile calls (dupfileLoop argv ⟨0, 0, none, none, none⟩).2.outfile
        (oWronly ||| (dupfileLoop argv ⟨0, 0, none, none, none⟩).2.outappend ||| oCreat) u =
          some (some dupfd.outfd, v) ∧
      openFile calls (dupfileLoop argv ⟨0, 0, none, none, none⟩).2.errfile
        (oRdonly ||| (dupfileLoop argv ⟨0, 0, none, none, none⟩).2.errappend ||| oCreat) v =
          some (some dupfd.errfd, t) := by
  obtain ⟨⟨infd, u⟩, hin, hrun⟩ := Option.bind_eq_some_iff.mp hrun
  cases infd with
  | none =>
    exact absurd (rollback_some hrun).1 (by decide)
  | some infd =>
    obtain ⟨⟨outfd, v⟩, hout, hrun⟩ := Option.bind_eq_some_iff.mp hrun
    cases outfd with
    | none =>
      exact absurd (rollback_some hrun).1 (by decide)
    | some outfd =>
      obtain ⟨⟨errfd, w⟩, herr, hrun⟩ := Option.bind_eq_some_iff.mp hrun
      cases errfd with
      | none =>
        exact absurd (rollback_some hrun).1 (by decide)
      | some errfd =>
        obtain ⟨-, hrun⟩ := Prod.mk.inj (Option.some.inj hrun)
        obtain ⟨-, hrun⟩ := Prod.mk.inj hrun
        obtain ⟨rfl, rfl⟩ := Prod.mk.inj hrun
        exact ⟨u, v, hin, hout, herr⟩

end Opens

end Osh

namespace Processes

variable {s t u v : Processes} {pid f i : ℕ} {fd : ℤ} {path : CStr} {flags : ℕ}

/-- A task comes from one state to another by opening files. -/
def Opening (pid : ℕ) : Processes → Processes → Prop :=
  Relation.ReflTransGen fun s t => ∃ path flags fd, s.sysOpen pid path flags 0o755 = some (fd, t) ∧ fd ≠ -1

/-- Descriptor `fd` of the task points at entry `f` of the file table. -/
def Points (s : Processes) (pid : ℕ) (fd : ℤ) (f : ℕ) : Prop :=
  ∃ p slot, s.running pid = some p ∧ fdSlot fd = some slot ∧ p.files slot = some f

/-- **Descriptor `fd` is open on the file that `path` names**: the call of `open` that has returned it has found the inode
of its entry there. -/
def OpenOn (pid : ℕ) (s t : Processes) (path : CStr) (fd : ℤ) (f : ℕ) : Prop :=
  t.Points pid fd f ∧ ∃ u v p i fs flags, Opening pid s u ∧ u.sysOpen pid path flags 0o755 = some (fd, v) ∧
    Opening pid v t ∧ u.running pid = some p ∧ inodeOpen (u.asTask p) path flags 0o755 = some (some i, fs) ∧
    (t.fileTable f).inode = some i

theorem Points.unique {g : ℕ} (hf : s.Points pid fd f) (hg : s.Points pid fd g) : g = f := by
  obtain ⟨p, slot, hp, hslot, hf⟩ := hf
  obtain ⟨q, slot', hq, hslot', hg⟩ := hg
  obtain rfl := Option.some.inj (hp.symm.trans hq)
  obtain rfl := Option.some.inj (hslot.symm.trans hslot')
  exact Option.some.inj (hg.symm.trans hf)

/-- A descriptor that is open on an entry with a count. -/
structure Live (s : Processes) (pid : ℕ) (fd : ℤ) (f : ℕ) (file : File) : Prop where
  /-- The descriptor. -/
  points : s.Points pid fd f
  /-- The entry. -/
  entry : s.fileTable f = file
  /-- It is in use. -/
  count : file.count ≠ 0

/-- **The descriptor that `open` returns**, with an entry for the flags. -/
theorem sysOpen_live (hopen : s.sysOpen pid path flags 0o755 = some (fd, t)) (hfd : fd ≠ -1) :
    ∃ p i fs f file, s.running pid = some p ∧ inodeOpen (s.asTask p) path flags 0o755 = some (some i, fs) ∧
      t.Live pid fd f file ∧ file.inode = some i ∧ file.flags = flags := by
  obtain ⟨p, hrun, hopen⟩ := Option.bind_eq_some_iff.mp hopen
  obtain ⟨⟨inode, fs⟩, hinode, hopen⟩ := Option.bind_eq_some_iff.mp hopen
  cases inode with
  | none => exact absurd (Prod.mk.inj (Option.some.inj hopen)).1.symm hfd
  | some i =>
    obtain ⟨slot, hslot, hopen⟩ := Option.bind_eq_some_iff.mp hopen
    obtain ⟨f, -, hopen⟩ := Option.bind_eq_some_iff.mp hopen
    obtain ⟨rfl, rfl⟩ := Prod.mk.inj (Option.some.inj hopen)
    have hlt := List.mem_range.mp (taskGetFd_some hslot).1
    refine ⟨p, i, fs, f, _, hrun, hinode, ⟨⟨{ p with files := Function.update p.files slot (some f) }, slot, ?_, ?_,
      Function.update_self _ _ _⟩, setFile_self _ _ _, Nat.one_ne_zero⟩, rfl, rfl⟩
    · exact running_eq_some.mpr ⟨Function.update_self _ _ _, (running_eq_some.mp hrun).2⟩
    · rw [fdSlot, if_pos ⟨by omega, by omega⟩, Int.toNat_natCast]

/-- **A descriptor stays what it is** when the task opens one more file. -/
theorem Live.sysOpen {fd' : ℤ} {file : File} (h : s.Live pid fd f file)
    (hopen : s.sysOpen pid path flags 0o755 = some (fd', t)) (hfd : fd' ≠ -1) : t.Live pid fd f file := by
  obtain ⟨q, place, hq, hplace, hf⟩ := h.points
  obtain ⟨p, hrun, hopen⟩ := Option.bind_eq_some_iff.mp hopen
  obtain rfl := Option.some.inj (hrun.symm.trans hq)
  obtain ⟨⟨inode, fs⟩, hinode, hopen⟩ := Option.bind_eq_some_iff.mp hopen
  cases inode with
  | none => exact absurd (Prod.mk.inj (Option.some.inj hopen)).1.symm hfd
  | some i =>
    obtain ⟨slot, hslot, hopen⟩ := Option.bind_eq_some_iff.mp hopen
    obtain ⟨g, hg, hopen⟩ := Option.bind_eq_some_iff.mp hopen
    obtain ⟨rfl, rfl⟩ := Prod.mk.inj (Option.some.inj hopen)
    have hplace_ne : place ≠ slot := by
      rintro rfl
      exact absurd (hf.symm.trans (taskGetFd_some hslot).2) (by simp)
    have hne : f ≠ g := by
      rintro rfl
      have hfree : (s.fileTable f).count = 0 := by
        rw [getFile] at hg
        exact of_decide_eq_true (List.find?_some (p := fun f => decide ((s.fileTable f).count = 0)) hg)
      exact h.count (h.entry ▸ hfree)
    refine ⟨⟨{ p with files := Function.update p.files slot (some g) }, place, ?_, hplace, ?_⟩, ?_, h.count⟩
    · exact running_eq_some.mpr ⟨Function.update_self _ _ _, (running_eq_some.mp hrun).2⟩
    · exact (Function.update_of_ne hplace_ne _ _).trans hf
    · exact (setFile_of_ne _ _ hne).trans h.entry

/-- The descriptor stays what it is as long as the task opens files. -/
theorem Live.opening {file : File} (h : s.Live pid fd f file) (hopen : Opening pid s t) : t.Live pid fd f file := by
  induction hopen with
  | refl => exact h
  | tail _ hlast ih =>
    obtain ⟨path, flags, fd', hcall, hfd⟩ := hlast
    exact ih.sysOpen hcall hfd

end Processes

namespace Osh

/-- The calls of a task. -/
def taskCalls (pid : ℕ) : FileCalls Processes where
  opens path flags mode s := s.sysOpen pid path flags mode
  close fd s := s.sysClose pid fd

/-- `fd` stands for a redirection: it is `EOF` without one, and open on the file with the flags it should have. -/
def StandsFor (pid : ℕ) (s t : Processes) (fd : ℤ) (good : Operator → ℕ → Prop) : Option (Operator × CStr) → Prop
  | none => fd = -1
  | some (o, path) => ∃ f, Processes.OpenOn pid s t path fd f ∧ good o (t.fileTable f).flags

/-- `sys_read` does not refuse a descriptor with these flags. -/
def Readable (flags : ℕ) : Prop := flags &&& 3 ≠ 1

/-- `sys_write` does not refuse a descriptor with these flags. -/
def Writable (flags : ℕ) : Prop := flags &&& 3 ≠ 0

/-- A descriptor for appending. -/
def Appending (flags : ℕ) : Prop := flags &&& oAppend ≠ 0

instance (flags : ℕ) : Decidable (Readable flags) := inferInstanceAs (Decidable (_ ≠ _))

instance (flags : ℕ) : Decidable (Writable flags) := inferInstanceAs (Decidable (_ ≠ _))

instance (flags : ℕ) : Decidable (Appending flags) := inferInstanceAs (Decidable (_ ≠ _))

/-- **The descriptors are what the words of the command say.** -/
structure Redirected (pid : ℕ) (s t : Processes) (argv : List CStr) (dupfd : Dupfd) : Prop where
  /-- `dupfd[0]`. -/
  input : StandsFor pid s t dupfd.infd (fun _ flags => Readable flags) (lastOf forInput (redirections argv))
  /-- `dupfd[1]`. -/
  output : StandsFor pid s t dupfd.outfd (fun o flags => Writable flags ∧ (Appending flags ↔ o = .append))
    (lastOf forOutput (redirections argv))
  /-- `dupfd[2]`. -/
  error : StandsFor pid s t dupfd.errfd (fun o flags => Writable flags ∧ (Appending flags ↔ o = .errorAppend))
    (lastOf forError (redirections argv))

section Redirected

variable {pid : ℕ} {s t u v : Processes} {fd : ℤ} {flags : ℕ}
  {x : Option (Operator × CStr)} {argv : List CStr} {argv' : List (Option CStr)} {dupfd : Dupfd}

/-- The state in which an `open` of `dupfile` leaves the task. -/
theorem openFile_opening {file : Option CStr} (hopen : openFile (taskCalls pid) file flags s = some (some fd, t)) :
    Processes.Opening pid s t := by
  obtain ⟨-, -, rfl⟩ | ⟨path, -, hcall, hfd⟩ := openFile_some hopen
  · exact Relation.ReflTransGen.refl
  · exact Relation.ReflTransGen.single ⟨path, flags, fd, hcall, hfd⟩

/-- **A descriptor stands for its redirection** exactly when its flags are those it should have. -/
theorem standsFor_iff (good : Operator → ℕ → Prop) (hbefore : Processes.Opening pid s u)
    (hopen : openFile (taskCalls pid) (x.map Prod.snd) flags u = some (some fd, v))
    (hafter : Processes.Opening pid v t) :
    StandsFor pid s t fd good x ↔ ∀ r, x = some r → good r.1 flags := by
  cases x with
  | none =>
    obtain ⟨-, hfd, -⟩ | ⟨path, hpath, -⟩ := openFile_some hopen
    · exact iff_of_true hfd fun r hr => absurd hr (by simp)
    · exact absurd hpath (by simp)
  | some r =>
    obtain ⟨o, path⟩ := r
    obtain ⟨hnone, -⟩ | ⟨path', hpath, hcall, hfd⟩ := openFile_some hopen
    · exact absurd hnone (by simp)
    · obtain rfl := Option.some.inj hpath
      obtain ⟨p, i, fs, f, file, hrun, hinode, hlive, hfile, hflags⟩ := Processes.sysOpen_live hcall hfd
      have hend := hlive.opening hafter
      constructor
      · rintro ⟨g, ⟨hpoints, -⟩, hgood⟩ r hr
        obtain rfl := hend.points.unique hpoints
        obtain rfl := Option.some.inj hr
        rwa [hend.entry, hflags] at hgood
      · intro hgood
        refine ⟨f, ⟨hend.points, u, v, p, i, fs, flags, hbefore, hcall, hafter, hrun, hinode, ?_⟩, ?_⟩
        · rw [hend.entry, hfile]
        · rw [hend.entry, hflags]
          exact hgood _ rfl

/-- **`dupfile` opens what the command says** exactly when nothing is redirected for errors, and no `>>` comes before the
last `>` if that is the last operator for output. -/
theorem dupfile_iff (hrun : dupfile (taskCalls pid) argv s = some (0, argv', dupfd, t)) :
    Redirected pid s t argv dupfd ↔ lastOf forError (redirections argv) = none ∧
      ∀ file, lastOf forOutput (redirections argv) = some (.output, file) →
        lastOf appends (redirections argv) = none := by
  obtain ⟨u, v, hin, hout, herr⟩ := dupfile_zero hrun
  rw [dupfileLoop_snd, foldl_store] at hin hout herr
  simp only at hin hout herr
  have hinput := standsFor_iff (fun _ flags => Readable flags) .refl hin
    ((openFile_opening hout).trans (openFile_opening herr))
  have houtput := standsFor_iff (fun o flags => Writable flags ∧ (Appending flags ↔ o = .append))
    (openFile_opening hin) hout (openFile_opening herr)
  have herror := standsFor_iff (fun o flags => Writable flags ∧ (Appending flags ↔ o = .errorAppend))
    ((openFile_opening hin).trans (openFile_opening hout)) herr .refl
  constructor
  · intro h
    refine ⟨Option.eq_none_iff_forall_ne_some.mpr fun r hr => ?_, fun file hlast => ?_⟩
    · exact absurd (herror.mp h.error r hr).1 (by decide)
    · by_contra hsome
      have hgood := (houtput.mp h.output _ hlast).2
      rw [if_neg fun hnone => hsome hnone.1] at hgood
      exact absurd (hgood.mp (by decide)) (by simp)
  · rintro ⟨hnone, hplain⟩
    refine ⟨hinput.mpr fun r _ => ?_, houtput.mpr ?_, herror.mpr fun r hr => absurd (hnone.symm.trans hr) (by simp)⟩
    · split
      · decide
      · decide
    · rintro ⟨o, file⟩ hlast
      obtain ⟨hmem, hkind⟩ := lastOf_mem hlast
      cases o with
      | output =>
        have herrors : lastOf (fun o => o = .errorAppend) (redirections argv) = none :=
          lastOf_eq_none.mpr fun r hr ho => lastOf_eq_none.mp hnone r hr (by simp [forError, of_decide_eq_true ho])
        rw [if_pos ⟨hplain file hlast, herrors⟩]
        exact ⟨by decide, iff_of_false (by decide) (by simp)⟩
      | append =>
        rw [if_neg fun h => lastOf_eq_none.mp h.1 _ hmem rfl]
        exact ⟨by decide, iff_of_true (by decide) rfl⟩
      | input => exact absurd hkind (by simp [forOutput])
      | error => exact absurd hkind (by simp [forOutput])
      | errorAppend => exact absurd hkind (by simp [forOutput])

end Redirected

/-- A program whose input is redirected. -/
theorem dupfile_iff_input : ∃ argv' dupfd t,
    dupfile (taskCalls 0) [cstr ['<'], cstr ['/', 'a']] (bootProcesses programBlocks) = some (0, argv', dupfd, t) ∧
    (Redirected 0 (bootProcesses programBlocks) t [cstr ['<'], cstr ['/', 'a']] dupfd ↔
      lastOf forError (redirections [cstr ['<'], cstr ['/', 'a']]) = none ∧
        ∀ file, lastOf forOutput (redirections [cstr ['<'], cstr ['/', 'a']]) = some (.output, file) →
          lastOf appends (redirections [cstr ['<'], cstr ['/', 'a']]) = none) := by
  have hrun : (dupfile (taskCalls 0) [cstr ['<'], cstr ['/', 'a']] (bootProcesses programBlocks)).any
      (fun r => decide (r.1 = 0)) = true := by
    decide +kernel
  obtain ⟨⟨ret, argv', dupfd, t⟩, hrun, hret⟩ := (Option.any_eq_true _ _).mp hrun
  obtain rfl := of_decide_eq_true hret
  exact ⟨argv', dupfd, t, hrun, dupfile_iff hrun⟩

/-- **Errors are not written**: `2> /a` opens the file with `O_RDONLY`. -/
theorem dupfile_readonly : ∃ argv' dupfd t,
    dupfile (taskCalls 0) [cstr ['2', '>'], cstr ['/', 'a']] (bootProcesses programBlocks) = some (0, argv', dupfd, t) ∧
    ¬Redirected 0 (bootProcesses programBlocks) t [cstr ['2', '>'], cstr ['/', 'a']] dupfd := by
  have hrun : (dupfile (taskCalls 0) [cstr ['2', '>'], cstr ['/', 'a']] (bootProcesses programBlocks)).any
      (fun r => decide (r.1 = 0 ∧ r.2.2.1.errfd = 3 ∧ (r.2.2.2.fileTable 3).flags = 0o100) &&
        (r.2.2.2.running 0).any fun p => p.files 3 = some 3) = true := by
    decide +kernel
  obtain ⟨⟨ret, argv', dupfd, t⟩, hrun, hfacts⟩ := (Option.any_eq_true _ _).mp hrun
  obtain ⟨hfacts, htask⟩ := (Bool.and_eq_true _ _).mp hfacts
  obtain ⟨rfl, herrfd, hflags⟩ := of_decide_eq_true hfacts
  obtain ⟨p, hp, hfile⟩ := (Option.any_eq_true _ _).mp htask
  refine ⟨argv', dupfd, t, hrun, fun h => ?_⟩
  obtain ⟨f, ⟨hpoints, -⟩, hwritable, -⟩ := h.error
  obtain rfl := Processes.Points.unique ⟨p, 3, hp, by rw [herrfd]; rfl, of_decide_eq_true hfile⟩ hpoints
  rw [hflags] at hwritable
  exact absurd hwritable (by decide)

end Osh

end Onixs
