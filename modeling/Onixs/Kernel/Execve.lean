import Onixs.Kernel.KernelMap
import Onixs.Lib.String

/-!
# Copying the arguments of a program

`copy_argv_envp` of `kernel/execve.c`. It lays the stack of the new program out in four kernel pages, downwards from their
end: the strings of `envp`, those of `argv`, the file name, then the tables of pointers to them and `argc`. The tables are
built in one more page, with the addresses that the strings will have in the program. The whole is then copied to the top
of the user stack.

The bytes are those of the address space the task runs in, and the log has the address of every byte that is
written. `argv` and `envp` are `none` where the pointer is `NULL`. The strings are taken as they are at the call: they lie in
the user's memory, where the first store inside the three areas is that of the last `memcpy`. The only check
comes behind all the other stores; what lies outside the areas is known exactly (`Onixs.Execve.copyArgvEnvp_inBounds_iff`).
-/

namespace Onixs

open Bytes Memory

namespace Execve

/-! ### The code -/

/-- `count_argv`. -/
def countArgv (argv : Option (List CStr)) : ℕ := argv.elim 0 List.length

/-- The pages and the two pointers into them. -/
structure Copying where
  /-- Memory. -/
  mem : Bytes
  /-- `ktop`. -/
  ktop : ℤ
  /-- `utop`. -/
  utop : ℤ

/-- A string is copied, and its address stored at `slot`. -/
def copyStr (slot : ℤ) (str : CStr) (c : Copying) : Logged ℕ Copying := do
  let len : ℤ := str.length + 1
  let ktop := c.ktop - len
  let utop := c.utop - len
  let mem ← storeRow ktop (strBytes str) c.mem
  let mem ← storeWord slot (addr utop) mem
  return { mem := mem, ktop := ktop, utop := utop }

/-- The loops over `envp` and over `argv`, from the last string to the first. -/
def copyStrs (table : ℤ) : List CStr → Copying → Logged ℕ Copying
  | [], c => pure c
  | str :: strs, c => do
      let c ← copyStrs (table + 4) strs c
      copyStr table str c

/-- The tables and `argc` are copied in front of the strings. -/
def copyTables (argvk : ℤ) (argc envc : ℕ) (c : Copying) : Logged ℕ (Bytes × ℤ) := do
  let envpk := argvk + 4 * argc + 4
  let ktop := c.ktop - 4 * (envc + 1)
  let m ← memcpy ktop envpk (4 * (envc + 1)) c.mem
  let ktop := ktop - 4 * (argc + 1)
  let m ← memcpy ktop argvk (4 * (argc + 1)) m
  let ktop := ktop - 4
  let m ← storeWord ktop argc m
  return (m, ktop)

/-- `copy_argv_envp` between the allocations and the `assert`: memory and `ktop`. -/
def layImage (pagesEnd argvk : ℤ) (filename : CStr) (argv envp : Option (List CStr)) (m : Bytes) :
    Logged ℕ (Bytes × ℤ) := do
  let argc := countArgv argv + 1
  let envc := countArgv envp
  let m ← storeWord (argvk + 4 * argc) 0 m
  let envpk := argvk + 4 * argc + 4
  let m ← storeWord (envpk + 4 * envc) 0 m
  let c ← copyStrs envpk (envp.getD []) { mem := m, ktop := pagesEnd, utop := userStackTop }
  let c ← copyStrs (argvk + 4) (argv.getD []) c
  let c ← copyStr argvk filename c
  copyTables argvk argc envc c

/-- `copy_argv_envp`: the address on the user stack, and what has become of `kernel_map` and of memory. -/
def copyArgvEnvp (s : Memory) (filename : CStr) (argv envp : Option (List CStr)) (m : Bytes) :
    Logged ℕ (ℕ × Memory × Bytes) := do
  let (pages, s) ← .lift (s.allocKpage 4)
  let pagesEnd := page pages + 4 * pageSize
  let (argvk, s) ← .lift (s.allocKpage 1)
  let (m, ktop) ← layImage pagesEnd (page argvk) filename argv envp m
  .lift (assert (page pages < addr ktop))
  let len := sub32 pagesEnd (addr ktop)
  let utop : ℤ := userStackTop - len
  let m ← memcpy utop ktop len m
  let s ← .lift (s.freeKpage argvk 1)
  let s ← .lift (s.freeKpage pages 4)
  return (addr utop, s, m)

/-! ### Sizes -/

/-- The bytes of the strings. -/
def strsSize (strs : List CStr) : ℕ := (strs.flatMap strBytes).length

/-- The bytes of the tables. -/
def tableSize (argv envp : Option (List CStr)) : ℕ := 4 * (countArgv argv + 2) + 4 * (countArgv envp + 1)

/-- The bytes of the image: the strings, the tables and `argc`. -/
def imageSize (filename : CStr) (argv envp : Option (List CStr)) : ℕ :=
  strsSize (filename :: argv.getD []) + strsSize (envp.getD []) + tableSize argv envp + 4

@[simp] theorem strsSize_nil : strsSize [] = 0 := rfl

@[simp] theorem strsSize_cons (str : CStr) (strs : List CStr) :
    strsSize (str :: strs) = str.length + 1 + strsSize strs := by
  rw [strsSize, List.flatMap_cons, List.length_append, length_strBytes, strsSize]

theorem length_getD (argv : Option (List CStr)) : (argv.getD []).length = countArgv argv := by
  cases argv with
  | none => rfl
  | some strs => rfl

/-! ### What is written -/

section Log

variable {P : ℕ → Prop} {c : Copying}

theorem copyStr_val (slot : ℤ) (str : CStr) (c : Copying) :
    ∃ c', (copyStr slot str c).val = some c' ∧ c'.ktop = c.ktop - strsSize [str] ∧
      c'.utop = c.utop - strsSize [str] := by
  obtain ⟨m₁, h₁⟩ := storeRow_val (strBytes str) (c.ktop - (str.length + 1)) c.mem
  obtain ⟨m₂, h₂⟩ := storeWord_val (addr (c.utop - (str.length + 1))) slot m₁
  refine ⟨⟨m₂, c.ktop - (str.length + 1), c.utop - (str.length + 1)⟩, ?_, ?_, ?_⟩
  · rw [copyStr, Logged.val_bind, h₁, Option.bind_some, Logged.val_bind, h₂]
    rfl
  · simp
  · simp

theorem copyStrs_val (strs : List CStr) (table : ℤ) (c : Copying) :
    ∃ c', (copyStrs table strs c).val = some c' ∧ c'.ktop = c.ktop - strsSize strs ∧
      c'.utop = c.utop - strsSize strs := by
  induction strs generalizing table with
  | nil => exact ⟨c, rfl, by simp, by simp⟩
  | cons str strs ih =>
    obtain ⟨c₁, h₁, hk₁, hu₁⟩ := ih (table + 4)
    obtain ⟨c₂, h₂, hk₂, hu₂⟩ := copyStr_val table str c₁
    rw [strsSize_cons, strsSize_nil] at hk₂ hu₂
    refine ⟨c₂, ?_, ?_, ?_⟩
    · rw [copyStrs, Logged.val_bind, h₁, Option.bind_some, h₂]
    · rw [hk₂, hk₁, strsSize_cons]
      omega
    · rw [hu₂, hu₁, strsSize_cons]
      omega

theorem all_copyStr {slot : ℤ} {str : CStr} :
    (copyStr slot str c).All P ↔ Spans P (c.ktop - strsSize [str]) (strsSize [str]) ∧ Spans P slot 4 := by
  rw [copyStr]
  obtain ⟨m, hrow⟩ := storeRow_val (strBytes str) (c.ktop - (str.length + 1)) c.mem
  rw [Logged.all_bind_of_val hrow, Logged.all_bind_pure, all_storeWord, all_storeRow, length_strBytes, strsSize_cons, strsSize_nil, Nat.add_zero, Nat.cast_succ]

/-- **A loop over strings** writes below `ktop` and into its table. -/
theorem all_copyStrs {table : ℤ} {strs : List CStr} :
    (copyStrs table strs c).All P ↔
      Spans P (c.ktop - strsSize strs) (strsSize strs) ∧ Spans P table (4 * strs.length) := by
  induction strs generalizing table with
  | nil =>
    exact iff_of_true (Logged.all_pure c)
      ⟨fun j hj => absurd hj (Nat.not_lt_zero j), fun j hj => absurd hj (Nat.not_lt_zero j)⟩
  | cons str strs ih =>
    obtain ⟨c₁, h₁, hk₁, -⟩ := copyStrs_val strs (table + 4) c
    have hsize : strsSize (str :: strs) = strsSize [str] + strsSize strs := by
      rw [strsSize_cons, strsSize_cons, strsSize_nil, Nat.add_zero]
    have hktop : c₁.ktop - (strsSize [str] : ℤ) = c.ktop - ((strsSize [str] + strsSize strs : ℕ) : ℤ) := by
      omega
    rw [copyStrs, Logged.all_bind_of_val h₁, ih, all_copyStr, hktop, List.length_cons, Nat.mul_succ,
      Nat.add_comm (4 * strs.length), spans_add, hsize, spans_below]
    tauto

/-- **The tables** are written in front of the strings. -/
theorem copyTables_log (argvk : ℤ) (argc envc : ℕ) (c : Copying) :
    (∃ m, (copyTables argvk argc envc c).val = some (m, c.ktop - (4 + 4 * (argc + 1) + 4 * (envc + 1) : ℕ))) ∧
      ∀ P, (copyTables argvk argc envc c).All P ↔
        Spans P (c.ktop - (4 + 4 * (argc + 1) + 4 * (envc + 1) : ℕ)) (4 + 4 * (argc + 1) + 4 * (envc + 1)) := by
  obtain ⟨m₁, h₁⟩ := memcpy_val (4 * (envc + 1)) (c.ktop - 4 * (envc + 1)) (argvk + 4 * argc + 4) c.mem
  obtain ⟨m₂, h₂⟩ := memcpy_val (4 * (argc + 1)) (c.ktop - 4 * (envc + 1) - 4 * (argc + 1)) argvk m₁
  obtain ⟨m₃, h₃⟩ := storeWord_val argc (c.ktop - 4 * (envc + 1) - 4 * (argc + 1) - 4) m₂
  constructor
  · refine ⟨m₃, ?_⟩
    rw [copyTables, Logged.val_bind, h₁, Option.bind_some, Logged.val_bind, h₂, Option.bind_some, Logged.val_bind, h₃]
    refine congrArg (fun k => some (m₃, k)) ?_
    omega
  · intro P
    have henv : c.ktop - 4 * ((envc : ℤ) + 1) = c.ktop - ((4 * (envc + 1) : ℕ) : ℤ) := by omega
    have hargv : c.ktop - ((4 * (envc + 1) : ℕ) : ℤ) - 4 * ((argc : ℤ) + 1) =
        c.ktop - ((4 * (argc + 1) + 4 * (envc + 1) : ℕ) : ℤ) := by omega
    have hargc : c.ktop - ((4 * (argc + 1) + 4 * (envc + 1) : ℕ) : ℤ) - 4 =
        c.ktop - ((4 + (4 * (argc + 1) + 4 * (envc + 1)) : ℕ) : ℤ) := by omega
    rw [copyTables, Logged.all_bind_of_val h₁, Logged.all_bind_of_val h₂, Logged.all_bind_pure, all_memcpy, all_memcpy,
      all_storeWord, henv, hargv, hargc, Nat.add_assoc 4, spans_below, spans_below]
    tauto

/-- **What is laid out** is written below the end of the pages and into the table. -/
theorem layImage_log (pagesEnd argvk : ℤ) (filename : CStr) (argv envp : Option (List CStr)) (m : Bytes) :
    (∃ m', (layImage pagesEnd argvk filename argv envp m).val =
      some (m', pagesEnd - imageSize filename argv envp)) ∧
    ∀ P, (layImage pagesEnd argvk filename argv envp m).All P ↔
      Spans P (pagesEnd - imageSize filename argv envp) (imageSize filename argv envp) ∧
        Spans P argvk (tableSize argv envp) := by
  obtain ⟨m₁, h₁⟩ := storeWord_val 0 (argvk + 4 * ((countArgv argv + 1 : ℕ) : ℤ)) m
  obtain ⟨m₂, h₂⟩ := storeWord_val 0 (argvk + 4 * ((countArgv argv + 1 : ℕ) : ℤ) + 4 + 4 * (countArgv envp : ℤ)) m₁
  obtain ⟨c₁, h₃, hk₁, -⟩ := copyStrs_val (envp.getD []) (argvk + 4 * ((countArgv argv + 1 : ℕ) : ℤ) + 4)
    { mem := m₂, ktop := pagesEnd, utop := userStackTop }
  obtain ⟨c₂, h₄, hk₂, -⟩ := copyStrs_val (argv.getD []) (argvk + 4) c₁
  obtain ⟨c₃, h₅, hk₃, -⟩ := copyStr_val argvk filename c₂
  obtain ⟨⟨m₃, h₆⟩, hall⟩ := copyTables_log argvk (countArgv argv + 1) (countArgv envp) c₃
  dsimp only at hk₁
  have hsize : imageSize filename argv envp =
      4 + 4 * (countArgv argv + 1 + 1) + 4 * (countArgv envp + 1) +
        (strsSize [filename] + (strsSize (argv.getD []) + strsSize (envp.getD []))) := by
    rw [imageSize, tableSize, strsSize_cons, strsSize_cons, strsSize_nil]
    omega
  have hktop : c₃.ktop - ((4 + 4 * (countArgv argv + 1 + 1) + 4 * (countArgv envp + 1) : ℕ) : ℤ) =
      pagesEnd - (imageSize filename argv envp : ℤ) := by omega
  constructor
  · refine ⟨m₃, ?_⟩
    rw [layImage, Logged.val_bind, h₁, Option.bind_some, Logged.val_bind, h₂, Option.bind_some, Logged.val_bind, h₃,
      Option.bind_some, Logged.val_bind, h₄, Option.bind_some, Logged.val_bind, h₅, Option.bind_some, h₆, hktop]
  · intro P
    have htable : tableSize argv envp = 4 + (4 * countArgv argv + (4 + (4 * countArgv envp + 4))) := by
      rw [tableSize]
      omega
    have hargv : c₁.ktop - (strsSize (argv.getD []) : ℤ) =
        pagesEnd - ((strsSize (argv.getD []) + strsSize (envp.getD []) : ℕ) : ℤ) := by omega
    have hname : c₂.ktop - (strsSize [filename] : ℤ) =
        pagesEnd - ((strsSize [filename] + (strsSize (argv.getD []) + strsSize (envp.getD [])) : ℕ) : ℤ) := by omega
    have hend : argvk + 4 + ((4 * countArgv argv : ℕ) : ℤ) = argvk + 4 * ((countArgv argv + 1 : ℕ) : ℤ) := by omega
    have hslots : Spans P argvk (tableSize argv envp) ↔ Spans P argvk 4 ∧ Spans P (argvk + 4) (4 * countArgv argv) ∧
        Spans P (argvk + 4 * ((countArgv argv + 1 : ℕ) : ℤ)) 4 ∧
        Spans P (argvk + 4 * ((countArgv argv + 1 : ℕ) : ℤ) + 4) (4 * countArgv envp) ∧
        Spans P (argvk + 4 * ((countArgv argv + 1 : ℕ) : ℤ) + 4 + 4 * (countArgv envp : ℤ)) 4 := by
      rw [htable, spans_add, spans_add, spans_add, spans_add, Nat.cast_ofNat, hend, Nat.cast_mul 4 (countArgv envp),
        Nat.cast_ofNat]
    rw [layImage, Logged.all_bind_of_val h₁, Logged.all_bind_of_val h₂, Logged.all_bind_of_val h₃,
      Logged.all_bind_of_val h₄, Logged.all_bind_of_val h₅, all_storeWord, all_storeWord, all_copyStrs, all_copyStrs,
      all_copyStr, hall, hktop, hargv, hname, length_getD, length_getD]
    rw [hslots, hsize, spans_below, spans_below, spans_below]
    tauto

/-- **The writes of `copy_argv_envp`**, when there are pages for it. -/
theorem all_copyArgvEnvp {s s₁ s₂ : Memory} {pages argvk : ℕ} {filename : CStr} {argv envp : Option (List CStr)}
    {m : Bytes} (hpages : s.allocKpage 4 = some (pages, s₁)) (hargvk : s₁.allocKpage 1 = some (argvk, s₂)) :
    (copyArgvEnvp s filename argv envp m).All P ↔
      (Spans P ((page pages + 4 * pageSize : ℕ) - imageSize filename argv envp) (imageSize filename argv envp) ∧
        Spans P (page argvk) (tableSize argv envp)) ∧
      (page pages < addr ((page pages + 4 * pageSize : ℕ) - imageSize filename argv envp) →
        Spans P (userStackTop - sub32 (page pages + 4 * pageSize)
            (addr ((page pages + 4 * pageSize : ℕ) - imageSize filename argv envp)))
          (sub32 (page pages + 4 * pageSize)
            (addr ((page pages + 4 * pageSize : ℕ) - imageSize filename argv envp)))) := by
  obtain ⟨⟨m', hval⟩, hall⟩ := layImage_log (page pages + 4 * pageSize : ℕ) (page argvk) filename argv envp m
  rw [copyArgvEnvp, Logged.all_lift_bind hpages]
  dsimp only
  rw [Logged.all_lift_bind hargvk]
  dsimp only
  rw [Logged.all_bind_of_val hval, hall]
  dsimp only
  refine and_congr_right fun _ => ?_
  rw [Logged.all_bind, and_iff_right (Logged.all_lift _), Logged.val_lift]
  constructor
  · intro hrest hlt
    exact all_memcpy.mp (Logged.all_bind.mp (hrest () (assert_pos hlt))).1
  · intro hspan u hu
    refine Logged.all_bind.mpr ⟨all_memcpy.mpr (hspan (assert_eq_some.mp hu)), fun m _ => ?_⟩
    exact Logged.all_bind.mpr ⟨Logged.all_lift _, fun s _ =>
      Logged.all_bind.mpr ⟨Logged.all_lift _, fun s' _ => Logged.all_pure _⟩⟩

end Log

/-! ### Staying in bounds -/

/-- The four pages of the image, the page of the tables, and the top four pages of the user stack. -/
def InAreas (pages argvk i : ℕ) : Prop :=
  (page pages ≤ i ∧ i < page pages + 4 * pageSize) ∨ (page argvk ≤ i ∧ i < page argvk + pageSize) ∨
    (userStackTop - 4 * pageSize ≤ i ∧ i < userStackTop)

/-- Whatever the call writes is in the areas that it was given. -/
def InBounds (s : Memory) (filename : CStr) (argv envp : Option (List CStr)) (m : Bytes) : Prop :=
  ∀ i ∈ (copyArgvEnvp s filename argv envp m).log, ∃ pages s₁ argvk s₂,
    s.allocKpage 4 = some (pages, s₁) ∧ s₁.allocKpage 1 = some (argvk, s₂) ∧ InAreas pages argvk i

/-- There are four free pages in a row, and one more. -/
def PagesLeft (s : Memory) : Prop :=
  ∃ index i, s.FreePages index 4 ∧ s.FreePages i 1 ∧ (i < index ∨ index + 4 ≤ i)

section Bounds

variable {s s₁ s₂ : Memory} {pages argvk : ℕ} {filename : CStr} {argv envp : Option (List CStr)} {m : Bytes}

/-- **Where the two allocations lie.** The page of the tables is none of the four pages, and not the one in front of
them, which would have made an earlier run. -/
theorem pages_apart (h : s.Kmap) (hpages : s.allocKpage 4 = some (pages, s₁))
    (hargvk : s₁.allocKpage 1 = some (argvk, s₂)) :
    (256 ≤ pages ∧ pages + 4 ≤ 4096) ∧ (256 ≤ argvk ∧ argvk < 4096) ∧ (argvk + 1 < pages ∨ pages + 4 ≤ argvk) := by
  obtain ⟨⟨hlo, hhi, hrun⟩, hleast, h₁⟩ := h.allocKpage hpages
  obtain ⟨hfree, -, -⟩ := h₁.allocKpage hargvk
  obtain ⟨⟨hlo', hhi', hrun'⟩, hout⟩ := (h.freePages_alloc hpages argvk).mp hfree
  rw [show idx memoryBase = 256 from rfl] at hlo hlo' hrun hrun'
  rw [show idx kernelMemorySize = 4096 from rfl] at hhi hhi'
  refine ⟨⟨hlo, hhi⟩, ⟨hlo', by omega⟩, ?_⟩
  by_cases hnext : argvk + 1 = pages
  · have hstart : pages - 256 = argvk - 256 + 1 := by omega
    rw [hstart] at hrun
    refine absurd ⟨hlo', ?_, fun i hi hi' => ?_⟩ (hleast argvk (by omega))
    · rw [show idx kernelMemorySize = 4096 from rfl]
      omega
    · rw [show idx memoryBase = 256 from rfl] at hi hi'
      rcases hi.eq_or_lt with hfirst | hlater
      · rw [← hfirst]
        exact hrun' _ (le_refl _) (Nat.lt_succ_self _)
      · exact hrun i hlater (Nat.lt_succ_of_lt hi')
  · omega

theorem page_eq {index : ℕ} (h : index < 4096) : page index = index * 4096 := by
  rw [page, u32_of_lt (by omega)]

/-- With the pages there, the writes stay in the areas exactly when the tables fit in a page and the image in four. -/
theorem all_inAreas_iff (h : s.Kmap) (hpages : s.allocKpage 4 = some (pages, s₁))
    (hargvk : s₁.allocKpage 1 = some (argvk, s₂)) :
    (copyArgvEnvp s filename argv envp m).All (InAreas pages argvk) ↔
      tableSize argv envp ≤ 4096 ∧ imageSize filename argv envp ≤ 16384 := by
  obtain ⟨⟨hlo, hhi⟩, ⟨hlo', hhi'⟩, hapart⟩ := pages_apart h hpages hargvk
  rw [all_copyArgvEnvp hpages hargvk, page_eq (show pages < 4096 by omega), page_eq hhi', pageSize_eq, userStackTop_eq]
  generalize imageSize filename argv envp = T
  generalize tableSize argv envp = N
  have hareas : ∀ i, InAreas pages argvk i ↔ (pages * 4096 ≤ i ∧ i < pages * 4096 + 16384) ∨
      (argvk * 4096 ≤ i ∧ i < argvk * 4096 + 4096) ∨ (268419072 ≤ i ∧ i < 268435456) := by
    intro i
    rw [InAreas, page_eq (show pages < 4096 by omega), page_eq hhi', pageSize_eq, userStackTop_eq]
  constructor
  · rintro ⟨⟨himage, htable⟩, -⟩
    constructor
    · by_contra hN
      -- the byte behind the page of the tables
      have hout := (hareas _).mp (htable 4096 (by omega))
      rw [addr] at hout
      omega
    · by_contra hT
      -- the byte in front of the four pages
      have hout := (hareas _).mp (himage (T - 16385) (by omega))
      rw [addr] at hout
      omega
  · rintro ⟨hN, hT⟩
    refine ⟨⟨fun j hj => (hareas _).mpr (Or.inl ?_), fun j hj => (hareas _).mpr (Or.inr (Or.inl ?_))⟩, ?_⟩
    · rw [addr]
      omega
    · rw [addr]
      omega
    · have hktop : addr (((pages * 4096 + 4 * 4096 : ℕ) : ℤ) - T) = pages * 4096 + 16384 - T := by
        rw [addr]
        omega
      have hlen : sub32 (pages * 4096 + 4 * 4096) (pages * 4096 + 16384 - T) = T := by
        rw [sub32, u32]
        omega
      rw [hktop, hlen]
      refine fun _ j hj => (hareas _).mpr (Or.inr (Or.inr ?_))
      rw [addr]
      omega

/-- The two allocations succeed exactly when there are pages for them. -/
theorem pagesLeft_iff (h : s.Kmap) : PagesLeft s ↔ ∃ pages s₁ argvk s₂,
    s.allocKpage 4 = some (pages, s₁) ∧ s₁.allocKpage 1 = some (argvk, s₂) := by
  constructor
  · rintro ⟨index, i, hindex, hi, hout⟩
    obtain ⟨pages, s₁, hpages⟩ := h.exists_allocKpage (by omega) hindex
    obtain ⟨-, hleast, h₁⟩ := h.allocKpage hpages
    have hle : pages ≤ index := Nat.le_of_not_lt fun hlt => hleast index hlt hindex
    have hfree : ∃ k, s₁.FreePages k 1 := by
      by_cases hin : i < pages ∨ pages + 4 ≤ i
      · exact ⟨i, (h.freePages_alloc hpages i).mpr ⟨hi, hin⟩⟩
      · -- then the run is another one, and its last page is still free
        refine ⟨index + 3, (h.freePages_alloc hpages _).mpr ⟨⟨?_, ?_, fun g hg hg' => ?_⟩, Or.inr (by omega)⟩⟩
        · exact le_trans hindex.1 (Nat.le_add_right _ _)
        · exact hindex.2.1
        · have hlo := hindex.1
          rw [show idx memoryBase = 256 from rfl] at hlo hg hg'
          exact hindex.2.2 g (le_trans (Nat.sub_le_sub_right (Nat.le_add_right _ _) _) hg)
            (lt_of_lt_of_le hg' (by rw [show idx memoryBase = 256 from rfl]; omega))
    obtain ⟨k, hk⟩ := hfree
    obtain ⟨argvk, s₂, hargvk⟩ := h₁.exists_allocKpage (by omega) hk
    exact ⟨pages, s₁, argvk, s₂, hpages, hargvk⟩
  · rintro ⟨pages, s₁, argvk, s₂, hpages, hargvk⟩
    obtain ⟨hrun, -, h₁⟩ := h.allocKpage hpages
    obtain ⟨hfree, hout⟩ := (h.freePages_alloc hpages argvk).mp (h₁.allocKpage hargvk).1
    exact ⟨pages, argvk, hrun, hfree, hout⟩

/-- **When the arguments stay in bounds.** -/
theorem inBounds_iff (h : s.Kmap) : InBounds s filename argv envp m ↔
    ¬PagesLeft s ∨ tableSize argv envp ≤ 4096 ∧ imageSize filename argv envp ≤ 16384 := by
  by_cases hleft : PagesLeft s
  · obtain ⟨pages, s₁, argvk, s₂, hpages, hargvk⟩ := (pagesLeft_iff h).mp hleft
    rw [← all_inAreas_iff h hpages hargvk (m := m), or_iff_right (not_not.mpr hleft)]
    constructor
    · intro hin i hi
      obtain ⟨pages', s₁', argvk', s₂', hpages', hargvk', hareas⟩ := hin i hi
      obtain ⟨rfl, rfl⟩ := Prod.mk.inj (Option.some.inj (hpages.symm.trans hpages'))
      obtain ⟨rfl, rfl⟩ := Prod.mk.inj (Option.some.inj (hargvk.symm.trans hargvk'))
      exact hareas
    · exact fun hall i hi => ⟨pages, s₁, argvk, s₂, hpages, hargvk, hall i hi⟩
  · refine iff_of_true ?_ (Or.inl hleft)
    exact Logged.all_bind.mpr ⟨Logged.all_lift _, fun a hpages => Logged.all_bind.mpr ⟨Logged.all_lift _,
      fun b hargvk => absurd ((pagesLeft_iff h).mpr ⟨a.1, a.2, b.1, b.2, hpages, hargvk⟩) hleft⟩⟩

end Bounds

/-- **Arguments stay in bounds exactly when they fit.** In every state of the kernel's pages that calls to `alloc_kpage`
and `free_kpage` lead to, all that `copy_argv_envp` writes is in the areas that it is given exactly when there are no pages
for it, or the tables fit in one page and the image in four. -/
theorem copyArgvEnvp_inBounds_iff {s₀ s₁ s : Memory} {bits : Bytes} {ops : List KpageOp}
    (hinit : s₀.memoryMapInit bits = some s₁) (hrun : Run.exec KpageOp.step s₁ ops = some s) (filename : CStr)
    (argv envp : Option (List CStr)) (m : Bytes) :
    InBounds s filename argv envp m ↔
      ¬PagesLeft s ∨ tableSize argv envp ≤ 4096 ∧ imageSize filename argv envp ≤ 16384 :=
  inBounds_iff (Kmap.exec (Kmap.init hinit) hrun)

/-- A short command line stays in bounds. -/
theorem copyArgvEnvp_inBounds_short : ∃ s, blankMemory.memoryMapInit (fun _ => 0#8) = some s ∧
    InBounds s [⟨97#8, by decide⟩] (some [[⟨98#8, by decide⟩], []]) none fun _ => 0#8 :=
  ⟨markedMemory 2, blankMemory_init,
    (copyArgvEnvp_inBounds_iff blankMemory_init (show Run.exec KpageOp.step _ [] = _ from rfl) _ _ _ _).mpr
      (Or.inr ⟨by decide, by decide⟩)⟩

/-- There are pages behind `memory_map_init`. -/
theorem pagesLeft_markedMemory : PagesLeft (markedMemory 2) :=
  ⟨258, 262, ⟨by decide, by decide, (clearRun_markedMap (by decide)).mpr (by decide)⟩,
    ⟨by decide, by decide, (clearRun_markedMap (by decide)).mpr (by decide)⟩, Or.inr (by decide)⟩

/-- **One argument of 16384 bytes, or 1100 empty ones, leave the areas.** -/
theorem copyArgvEnvp_outOfBounds : ∃ s, blankMemory.memoryMapInit (fun _ => 0#8) = some s ∧
    ¬InBounds s [] (some [List.replicate 16384 ⟨97#8, by decide⟩]) none (fun _ => 0#8) ∧
    ¬InBounds s [] (some (List.replicate 1100 [])) none fun _ => 0#8 := by
  have hkmap := Kmap.init blankMemory_init
  refine ⟨markedMemory 2, blankMemory_init, fun hin => ?_, fun hin => ?_⟩
  · obtain hnone | ⟨-, hsize⟩ := (inBounds_iff hkmap).mp hin
    · exact hnone pagesLeft_markedMemory
    · rw [imageSize, Option.getD_some, strsSize_cons, strsSize_cons, List.length_replicate] at hsize
      omega
  · obtain hnone | ⟨hsize, -⟩ := (inBounds_iff hkmap).mp hin
    · exact hnone pagesLeft_markedMemory
    · rw [tableSize, countArgv, Option.elim_some, List.length_replicate] at hsize
      omega

end Execve

end Onixs
