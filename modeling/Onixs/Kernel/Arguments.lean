import Onixs.Kernel.Execve

/-!
# The arguments a program gets

What `copy_argv_envp` lays out is read by `_start` (`builtin/crt/crt.asm`) and by `__libc_start_main`
(`builtin/crt/crt1.c`). The image is one row of bytes (`Onixs.Execve.image`): `argc`, the two tables with a null word behind
each, and the strings in order. The kernel fills the row from its end, with the addresses the strings will have; the
program reads it from its beginning.
-/

namespace Onixs

open Bytes Memory

namespace Execve

/-! ### The program's side -/

/-- Push a word: memory and the stack pointer. -/
def push (st : Bytes × ℕ) (v : ℕ) : Bytes × ℕ := (st.1.putU32 (sub32 st.2 4) v, sub32 st.2 4)

/-- `_start`, up to and with the `call` of `__libc_start_main`: memory and the stack pointer. `back` is the address behind
the call. -/
def start (eax edx init fini main back : ℕ) (m : Bytes) (esp : ℕ) : Bytes × ℕ :=
  let esi := m.getU32 esp
  let esp := u32 (esp + 4)
  let ecx := esp
  let esp := esp - esp % 16
  [eax, sub32 esp 4, edx, init, fini, ecx, esi, main, back].foldl push (m, esp)

/-- The call of `main`. -/
structure MainCall where
  /-- Memory. -/
  mem : Bytes
  /-- `argc`. -/
  argc : ℕ
  /-- `argv`. -/
  argv : ℕ
  /-- `envp`. -/
  envp : ℕ

/-- The parameter `i` of a function that has just been called. -/
def param (st : Bytes × ℕ) (i : ℕ) : ℕ := st.1.getU32 (u32 (st.2 + 4 + 4 * i))

/-- `__libc_start_main`, as far as the call of `main`. -/
def libcStartMain (st : Bytes × ℕ) : MainCall where
  mem := st.1
  argc := param st 1
  argv := param st 2
  envp := u32 (param st 2 + 4 * param st 1 + 4)

/-- A string lies in the image that begins at `top`. -/
def StrAt (m : Bytes) (top p : ℕ) (str : CStr) : Prop :=
  top ≤ p ∧ p + (str.length + 1) ≤ userStackTop ∧ Holds m p (strBytes str)

/-- A table of pointers to strings of the image, with a null pointer at its end. -/
structure TableAt (m : Bytes) (top p : ℕ) (strs : List CStr) : Prop where
  /-- The strings. -/
  entry : ∀ i str, strs[i]? = some str → StrAt m top (m.getU32 (p + 4 * i)) str
  /-- The null pointer. -/
  null : m.getU32 (p + 4 * strs.length) = 0

/-! ### The image -/

/-- The addresses of strings that lie one behind the other. -/
def addrs (p : ℕ) : List CStr → List ℕ
  | [] => []
  | str :: strs => p :: addrs (p + (str.length + 1)) strs

@[simp] theorem length_addrs (strs : List CStr) (p : ℕ) : (addrs p strs).length = strs.length := by
  induction strs generalizing p with
  | nil => rfl
  | cons str strs ih => rw [addrs, List.length_cons, ih, List.length_cons]

theorem addrs_append (xs ys : List CStr) (p : ℕ) : addrs p (xs ++ ys) = addrs p xs ++ addrs (p + strsSize xs) ys := by
  induction xs generalizing p with
  | nil => rfl
  | cons x xs ih => rw [List.cons_append, addrs, ih, addrs, strsSize_cons, Nat.add_assoc, List.cons_append]

/-- Both tables, for strings from `p` on. -/
def tables (p : ℕ) (args envs : List CStr) : List ℕ :=
  addrs p args ++ [0] ++ (addrs (p + strsSize args) envs ++ [0])

/-- The image of the arguments, with the strings at `p`. -/
def image (p : ℕ) (args envs : List CStr) : List Byte :=
  word args.length ++ words (tables p args envs) ++ (args ++ envs).flatMap strBytes

theorem strsSize_append (xs ys : List CStr) : strsSize (xs ++ ys) = strsSize xs + strsSize ys := by
  rw [strsSize, List.flatMap_append, List.length_append, strsSize, strsSize]

/-- Each of the addresses is that of its string. -/
theorem holds_addrs {m : Bytes} {strs : List CStr} {p i q : ℕ} {str : CStr}
    (h : Holds m p (strs.flatMap strBytes)) (hstr : strs[i]? = some str) (hq : (addrs p strs)[i]? = some q) :
    p ≤ q ∧ q + (str.length + 1) ≤ p + strsSize strs ∧ Holds m q (strBytes str) := by
  induction strs generalizing p i with
  | nil => simp at hstr
  | cons s strs ih =>
    rw [List.flatMap_cons, holds_append, length_strBytes] at h
    rw [strsSize_cons]
    cases i with
    | zero =>
      obtain rfl : s = str := by simpa using hstr
      obtain rfl : p = q := by simpa [addrs] using hq
      exact ⟨le_refl _, by omega, h.1⟩
    | succ i =>
      obtain ⟨hlo, hhi, hheld⟩ := ih h.2 (by simpa using hstr) (by simpa [addrs] using hq)
      exact ⟨by omega, by omega, hheld⟩

/-! ### The kernel's side -/

/-- A row of bytes and a table have been stored. -/
structure Laid (m : Bytes) (k : ℕ) (bs : List Byte) (a : ℕ) (ws : List Byte) (m' : Bytes) : Prop where
  /-- The bytes. -/
  bytes : Holds m' k bs
  /-- The table. -/
  table : Holds m' a ws
  /-- Elsewhere nothing has changed. -/
  rest : ∀ i, i < k ∨ k + bs.length ≤ i → i < a ∨ a + ws.length ≤ i → m' i = m i

section Kernel

variable {m m₁ m' : Bytes} {k u a o : ℕ} {bs cs vs ws : List Byte} {c : Copying}

theorem Laid.keeps (h : Laid m k bs a ws m') (hkept : Holds m o cs) (hbytes : o + cs.length ≤ k ∨ k + bs.length ≤ o)
    (htable : o + cs.length ≤ a ∨ a + ws.length ≤ o) : Holds m' o cs :=
  hkept.congr fun i _ _ => h.rest i (by omega) (by omega)

/-- Two rows and their tables side by side, the upper ones first. -/
theorem Laid.below (h : Laid m (k + bs.length) cs (a + vs.length) ws m₁) (h' : Laid m₁ k bs a vs m')
    (hapart : a + (vs ++ ws).length ≤ k ∨ k + (bs ++ cs).length ≤ a) : Laid m k (bs ++ cs) a (vs ++ ws) m' where
  bytes := by
    rw [List.length_append, List.length_append] at hapart
    exact holds_append.mpr ⟨h'.bytes, h'.keeps h.bytes (by omega) (by omega)⟩
  table := by
    rw [List.length_append, List.length_append] at hapart
    exact holds_append.mpr ⟨h'.table, h'.keeps h.table (by omega) (by omega)⟩
  rest i hi hi' := by
    rw [List.length_append] at hi hi'
    rw [h'.rest i (by omega) (by omega), h.rest i (by omega) (by omega)]

theorem copyStr_laid {str : CStr} (hk : c.ktop = (k + (str.length + 1) : ℕ)) (hu : c.utop = (u + (str.length + 1) : ℕ))
    (hkb : k + (str.length + 1) ≤ 4294967296) (hub : u < 4294967296) (hab : a + 4 ≤ 4294967296)
    (hapart : a + 4 ≤ k ∨ k + (str.length + 1) ≤ a) :
    ∃ m', (copyStr a str c).val = some { mem := m', ktop := k, utop := u } ∧
      Laid c.mem k (strBytes str) a (word u) m' := by
  have hktop : c.ktop - ((str.length : ℤ) + 1) = (k : ℤ) := by omega
  have hutop : c.utop - ((str.length : ℤ) + 1) = (u : ℤ) := by omega
  obtain ⟨m₁, hrow, hstored⟩ := storeRow_stored c.mem
    (show k + (strBytes str).length ≤ 4294967296 by rwa [length_strBytes])
  obtain ⟨m', hword, hstored'⟩ := storeWord_stored u m₁ hab
  refine ⟨m', ?_, ⟨?_, hstored'.holds, fun i hi hi' => ?_⟩⟩
  · rw [copyStr, hktop, hutop, Logged.val_bind, hrow, Option.bind_some, Logged.val_bind, addr_natCast hub, hword]
    rfl
  · exact hstored'.keeps hstored.holds (by rw [length_strBytes, length_word]; omega)
  · rw [hstored'.rest i hi', hstored.rest i hi]

/-- **A loop over strings** lays them out below `ktop`, with their addresses in the table. -/
theorem copyStrs_laid (strs : List CStr) (hk : c.ktop = (k + strsSize strs : ℕ)) (hu : c.utop = (u + strsSize strs : ℕ))
    (hkb : k + strsSize strs ≤ 4294967296) (hub : u + strsSize strs < 4294967296)
    (hab : a + 4 * strs.length ≤ 4294967296) (hapart : a + 4 * strs.length ≤ k ∨ k + strsSize strs ≤ a) :
    ∃ m', (copyStrs a strs c).val = some { mem := m', ktop := k, utop := u } ∧
      Laid c.mem k (strs.flatMap strBytes) a (words (addrs u strs)) m' := by
  induction strs generalizing k u a with
  | nil =>
    refine ⟨c.mem, ?_, trivial, trivial, fun _ _ _ => rfl⟩
    rw [copyStrs, ← show c.ktop = k from hk, ← show c.utop = u from hu]
    rfl
  | cons str strs ih =>
    rw [strsSize_cons] at hk hu hkb hub hapart
    rw [List.length_cons] at hab hapart
    obtain ⟨m₁, hrest, hlaid⟩ := ih (k := k + (str.length + 1)) (u := u + (str.length + 1)) (a := a + 4)
      (by omega) (by omega) (by omega) (by omega) (by omega) (by omega)
    obtain ⟨m', hstr, hlaid'⟩ := copyStr_laid (c := ⟨m₁, (k + (str.length + 1) : ℕ), (u + (str.length + 1) : ℕ)⟩)
      (k := k) (u := u) (a := a) rfl rfl (by omega) (by omega) (by omega) (by omega)
    refine ⟨m', ?_, ?_⟩
    · rw [copyStrs, show (a : ℤ) + 4 = ((a + 4 : ℕ) : ℤ) by omega, Logged.val_bind, hrest, Option.bind_some, hstr]
    · rw [List.flatMap_cons, addrs, words_cons]
      refine Laid.below ?_ hlaid' ?_
      · rw [length_strBytes]
        exact hlaid
      · rw [List.length_append, List.length_append, length_strBytes, length_word, length_words, length_addrs,
          show (strs.flatMap strBytes).length = strsSize strs from rfl]
        omega

/-- **The tables** are copied in front of what is there. -/
theorem copyTables_laid (argc envc : ℕ) {args envs : List ℕ} (hk : c.ktop = (k + 4 + 4 * args.length + 4 * envs.length : ℕ))
    (hargs : args.length = argc + 1) (henvs : envs.length = envc + 1)
    (htable : Holds c.mem a (words (args ++ envs)))
    (hbytes : Holds c.mem (k + 4 + 4 * args.length + 4 * envs.length) bs)
    (hkb : k + 4 + 4 * args.length + 4 * envs.length ≤ 4294967296) (hab : a + 4 * args.length + 4 * envs.length ≤ 4294967296)
    (hapart : a + 4 * args.length + 4 * envs.length ≤ k ∨ k + 4 + 4 * args.length + 4 * envs.length ≤ a) :
    ∃ m', (copyTables a argc envc c).val = some (m', (k : ℤ)) ∧
      Holds m' k (word argc ++ words (args ++ envs) ++ bs) := by
  rw [words_append, holds_append, length_words] at htable
  obtain ⟨m₁, henv, hs₁⟩ := memcpy_stored (o := a + 4 * args.length) (a := k + 4 + 4 * args.length) htable.2
    (by rw [length_words]; omega) (by rw [length_words]; omega) (by rw [length_words]; omega)
  have hargs₁ : Holds m₁ a (words args) := hs₁.keeps htable.1 (by rw [length_words, length_words]; omega)
  obtain ⟨m₂, harg, hs₂⟩ := memcpy_stored (o := a) (a := k + 4) hargs₁
    (by rw [length_words]; omega) (by rw [length_words]; omega) (by rw [length_words]; omega)
  obtain ⟨m₃, hargc, hs₃⟩ := storeWord_stored (a := k) argc m₂ (by omega)
  rw [length_words] at henv harg
  have hbytes₃ : Holds m₃ (k + 4 + 4 * args.length + 4 * envs.length) bs := by
    refine hs₃.keeps (hs₂.keeps (hs₁.keeps hbytes ?_) ?_) ?_
    · rw [length_words]
      omega
    · rw [length_words]
      omega
    · rw [length_word]
      omega
  have hrow : StoredRow m₁ k (word argc ++ words args) m₃ := hs₂.below hs₃
  have hrow' : Holds m₃ (k + 4 + 4 * args.length) (words envs) :=
    hrow.keeps hs₁.holds (by simp only [List.length_append, length_word, length_words]; omega)
  refine ⟨m₃, ?_, ?_⟩
  · have henvk : ((k + 4 + 4 * args.length + 4 * envs.length : ℕ) : ℤ) - 4 * ((envc : ℤ) + 1) =
        ((k + 4 + 4 * args.length : ℕ) : ℤ) := by omega
    have hargk : ((k + 4 + 4 * args.length : ℕ) : ℤ) - 4 * ((argc : ℤ) + 1) = ((k + 4 : ℕ) : ℤ) := by omega
    have hargck : ((k + 4 : ℕ) : ℤ) - 4 = (k : ℤ) := by omega
    have henvpk : (a : ℤ) + 4 * (argc : ℤ) + 4 = ((a + 4 * args.length : ℕ) : ℤ) := by omega
    rw [copyTables, hk]
    dsimp only
    rw [henvk, hargk, hargck, henvpk, ← henvs, ← hargs, Logged.val_bind, henv, Option.bind_some, Logged.val_bind, harg,
      Option.bind_some, Logged.val_bind, hargc]
    rfl
  · rw [words_append, ← List.append_assoc, holds_append, holds_append]
    refine ⟨⟨hrow.holds, ?_⟩, ?_⟩
    · rwa [List.length_append, length_word, length_words, ← Nat.add_assoc]
    · rwa [List.length_append, List.length_append, length_word, length_words, length_words, ← Nat.add_assoc,
        ← Nat.add_assoc]

/-- The image has the size it should. -/
theorem imageSize_eq (filename : CStr) (argv envp : Option (List CStr)) {args envs : List CStr}
    (hargs : args = filename :: argv.getD []) (henvs : envs = envp.getD []) :
    imageSize filename argv envp =
      4 + 4 * (args.length + 1) + 4 * (envs.length + 1) + (strsSize args + strsSize envs) := by
  rw [hargs, henvs, imageSize, tableSize, List.length_cons, length_getD, length_getD]
  omega

/-- **What `copy_argv_envp` lays out** is the image. -/
theorem layImage_laid {m : Bytes} {filename : CStr} {argv envp : Option (List CStr)} {args envs : List CStr}
    (hargs : args = filename :: argv.getD []) (henvs : envs = envp.getD [])
    (hu : userStackTop = u + (strsSize args + strsSize envs))
    (hkb : k + imageSize filename argv envp ≤ 4294967296) (hab : a + tableSize argv envp ≤ 4294967296)
    (hapart : a + tableSize argv envp ≤ k ∨ k + imageSize filename argv envp ≤ a) :
    ∃ m', (layImage (k + imageSize filename argv envp : ℕ) a filename argv envp m).val = some (m', (k : ℤ)) ∧
      Holds m' k (image u args envs) := by
  have hargc : args.length = countArgv argv + 1 := by rw [hargs, List.length_cons, length_getD]
  have henvc : envs.length = countArgv envp := by rw [henvs, length_getD]
  have htable : tableSize argv envp = 4 * (args.length + 1) + 4 * (envs.length + 1) := by
    rw [tableSize, hargc, henvc]
  rw [imageSize_eq filename argv envp hargs henvs] at hkb hapart ⊢
  rw [htable] at hab hapart
  generalize hS : k + 4 + 4 * (args.length + 1) + 4 * (envs.length + 1) = S at *
  -- the null words
  obtain ⟨m₁, h₁, hs₁⟩ := storeWord_stored (a := a + 4 * args.length) 0 m (by omega)
  obtain ⟨m₂, h₂, hs₂⟩ := storeWord_stored (a := a + 4 * args.length + 4 + 4 * envs.length) 0 m₁ (by omega)
  -- the strings
  obtain ⟨m₃, h₃, hl₃⟩ := copyStrs_laid envs (k := S + strsSize args) (u := u + strsSize args)
    (a := a + 4 * args.length + 4)
    (c := { mem := m₂, ktop := (S + (strsSize args + strsSize envs) : ℕ), utop := (userStackTop : ℕ) })
    (by dsimp only; omega) (by dsimp only; omega) (by omega) (by rw [userStackTop_eq] at hu; omega) (by omega) (by omega)
  obtain ⟨m₄, h₄, hl₄⟩ := copyStrs_laid args (k := S) (u := u) (a := a)
    (c := { mem := m₃, ktop := (S + strsSize args : ℕ), utop := (u + strsSize args : ℕ) })
    rfl rfl (by omega) (by rw [userStackTop_eq] at hu; omega) (by omega) (by omega)
  rw [hargs, copyStrs, Logged.val_bind] at h₄
  obtain ⟨c, h₄, h₅⟩ := Option.bind_eq_some_iff.mp h₄
  have hlen₃ : (envs.flatMap strBytes).length = strsSize envs := rfl
  have hlen₄ : (args.flatMap strBytes).length = strsSize args := rfl
  have hnull : Holds m₄ (a + 4 * args.length) (word 0) := by
    refine hl₄.keeps (hl₃.keeps (hs₂.keeps hs₁.holds ?_) ?_ ?_) ?_ ?_
    all_goals
      simp only [length_words, length_addrs, length_word, hlen₃, hlen₄]
      omega
  have henvs' : Holds m₄ (a + 4 * args.length + 4) (words (addrs (u + strsSize args) envs)) := by
    refine hl₄.keeps hl₃.table ?_ ?_
    all_goals
      simp only [length_words, length_addrs, hlen₄]
      omega
  have hnull' : Holds m₄ (a + 4 * args.length + 4 + 4 * envs.length) (word 0) := by
    refine hl₄.keeps (hl₃.keeps hs₂.holds ?_ ?_) ?_ ?_
    all_goals
      simp only [length_words, length_addrs, length_word, hlen₃, hlen₄]
      omega
  have hrow : Holds m₄ a (words (tables u args envs)) := by
    simp only [tables, words_append, holds_append, length_words, List.length_append, length_addrs, List.length_singleton]
    rw [Nat.mul_one, ← Nat.add_assoc]
    exact ⟨⟨hl₄.table, hnull⟩, henvs', hnull'⟩
  have hstrs : Holds m₄ S ((args ++ envs).flatMap strBytes) := by
    rw [List.flatMap_append, holds_append]
    refine ⟨hl₄.bytes, hl₄.keeps hl₃.bytes ?_ ?_⟩
    · omega
    · rw [length_words, length_addrs]
      omega
  have htop : k + 4 + 4 * (addrs u args ++ [0]).length + 4 * (addrs (u + strsSize args) envs ++ [0]).length = S := by
    rw [List.length_append, List.length_append, length_addrs, length_addrs, List.length_singleton, hS]
  obtain ⟨m₅, h₆, himage⟩ := copyTables_laid args.length envs.length (k := k) (a := a)
    (c := { mem := m₄, ktop := (S : ℕ), utop := (u : ℕ) })
    (by rw [htop]) (by simp) (by simp) hrow (by rw [htop]; exact hstrs) (by omega) (by simp; omega) (by simp; omega)
  refine ⟨m₅, ?_, himage⟩
  have hargvk : (a : ℤ) + 4 * ((countArgv argv + 1 : ℕ) : ℤ) = ((a + 4 * args.length : ℕ) : ℤ) := by omega
  have henvpk : ((a + 4 * args.length : ℕ) : ℤ) + 4 = ((a + 4 * args.length + 4 : ℕ) : ℤ) := by omega
  have hlast : ((a + 4 * args.length + 4 : ℕ) : ℤ) + 4 * (countArgv envp : ℤ) =
      ((a + 4 * args.length + 4 + 4 * envs.length : ℕ) : ℤ) := by omega
  have hend : k + (4 + 4 * (args.length + 1) + 4 * (envs.length + 1) + (strsSize args + strsSize envs)) =
      S + (strsSize args + strsSize envs) := by omega
  rw [layImage]
  dsimp only
  rw [hargvk, henvpk, hlast, hend, ← hargc, ← henvc, ← henvs, Logged.val_bind, h₁, Option.bind_some, Logged.val_bind, h₂,
    Option.bind_some, Logged.val_bind, h₃, Option.bind_some, Logged.val_bind]
  rw [← hargs] at h₄
  rw [h₄, Option.bind_some, Logged.val_bind, h₅, Option.bind_some, h₆]

/-- The pages can be given back. -/
theorem free_pages {s s₁ s₂ : Memory} {pages argvk : ℕ} (h : s.Kmap) (hpages : s.allocKpage 4 = some (pages, s₁))
    (hargvk : s₁.allocKpage 1 = some (argvk, s₂)) :
    ∃ s₃ s₄, s₂.freeKpage argvk 1 = some s₃ ∧ s₃.freeKpage pages 4 = some s₄ := by
  obtain ⟨-, -, hapart⟩ := pages_apart h hpages hargvk
  have hk₁ := (h.allocKpage hpages).2.2
  have hk₂ := (hk₁.allocKpage hargvk).2.2
  obtain ⟨p, rfl, hfit, -, -, rfl⟩ := h.allocKpage_first hpages
  obtain ⟨q, rfl, hfit', -, -, rfl⟩ := hk₁.allocKpage_first hargvk
  have hq : ∀ i, q + 256 ≤ i → i < q + 256 + 1 →
      bitOf (setRun (setRun s.kernelMap.bits p 4) q 1) (i - 256) = true := by
    intro i hi hi'
    rw [bitOf_setRun, if_pos (by omega)]
  obtain ⟨s₃, hfree, hrest⟩ := hk₂.exists_freeKpage Nat.one_pos (by omega) (by omega) hq
  have hp : ∀ i, p + 256 ≤ i → i < p + 256 + 4 → bitOf s₃.kernelMap.bits (i - 256) = true := by
    intro i hi hi'
    rw [hrest i (by omega) (by omega), bitOf_setRun, if_neg (by omega), bitOf_setRun, if_pos (by omega)]
  obtain ⟨s₄, hfree', -⟩ := (hk₂.freeKpage hfree).exists_freeKpage (by omega) (by omega) (by omega) hp
  exact ⟨s₃, s₄, hfree, hfree'⟩

/-- **The image arrives on the user stack.** -/
theorem copyArgvEnvp_image {s : Memory} (h : s.Kmap) (hleft : PagesLeft s) {filename : CStr}
    {argv envp : Option (List CStr)} (htable : tableSize argv envp ≤ 4096)
    (himage : imageSize filename argv envp < 16384) (m : Bytes) :
    ∃ t m', (copyArgvEnvp s filename argv envp m).val = some (userStackTop - imageSize filename argv envp, t, m') ∧
      Holds m' (userStackTop - imageSize filename argv envp)
        (image (userStackTop - (strsSize (filename :: argv.getD []) + strsSize (envp.getD [])))
          (filename :: argv.getD []) (envp.getD [])) := by
  obtain ⟨pages, s₁, argvk, s₂, hpages, hargvk⟩ := (pagesLeft_iff h).mp hleft
  obtain ⟨⟨hlo, hhi⟩, ⟨hlo', hhi'⟩, hapart⟩ := pages_apart h hpages hargvk
  have hsize := imageSize_eq filename argv envp rfl rfl
  generalize hstrs : strsSize (filename :: argv.getD []) + strsSize (envp.getD []) = S at *
  generalize hT : imageSize filename argv envp = T at *
  have htop := userStackTop_eq
  -- the image in the kernel
  have hend : page pages + 4 * pageSize = pages * 4096 + 16384 - T + T := by
    rw [page_eq (by omega), pageSize_eq]
    omega
  obtain ⟨m₁, hlay, hheld⟩ := layImage_laid (k := pages * 4096 + 16384 - T) (u := userStackTop - S) (a := argvk * 4096)
    (m := m) (rfl : filename :: argv.getD [] = _) (rfl : envp.getD [] = _) (by rw [hstrs]; omega) (by rw [hT]; omega)
    (by omega) (by rw [hT]; omega)
  rw [hT] at hlay
  -- and on the stack
  have hlen : (image (userStackTop - S) (filename :: argv.getD []) (envp.getD [])).length = T := by
    rw [image, List.length_append, List.length_append, length_word, length_words, tables, List.length_append,
      List.length_append, List.length_append, length_addrs, length_addrs, List.length_singleton,
      show ((filename :: argv.getD [] ++ envp.getD []).flatMap strBytes).length = _ from strsSize_append _ _, hstrs]
    omega
  obtain ⟨m₂, hcopy, hs₂⟩ := memcpy_stored (a := userStackTop - T) hheld (by omega) (by omega) (by omega)
  rw [hlen] at hcopy
  -- the pages are given back
  obtain ⟨s₃, s₄, hfree, hfree'⟩ := free_pages h hpages hargvk
  have hktop : addr (((pages * 4096 + 16384 - T : ℕ) : ℤ)) = pages * 4096 + 16384 - T := addr_natCast (by omega)
  have hbound : page pages < pages * 4096 + 16384 - T := by
    rw [page_eq (by omega)]
    exact Nat.lt_sub_of_add_lt (by omega)
  have hlength : sub32 (pages * 4096 + 16384 - T + T) (pages * 4096 + 16384 - T) = T := by
    rw [sub32_of_le (by omega) (by omega), Nat.add_sub_cancel_left]
  have hutop : (userStackTop : ℤ) - (T : ℤ) = ((userStackTop - T : ℕ) : ℤ) := by omega
  refine ⟨s₄, m₂, ?_, hs₂.holds⟩
  rw [copyArgvEnvp, Logged.val_bind, Logged.val_lift, hpages, Option.bind_some]
  dsimp only
  rw [Logged.val_bind, Logged.val_lift, hargvk, Option.bind_some]
  dsimp only
  rw [hend, page_eq hhi', Logged.val_bind, hlay, Option.bind_some]
  dsimp only
  rw [hktop, Logged.val_bind, Logged.val_lift, assert_pos hbound, Option.bind_some, hlength, hutop, Logged.val_bind, hcopy,
    Option.bind_some, Logged.val_bind, Logged.val_lift, hfree, Option.bind_some, Logged.val_bind, Logged.val_lift, hfree',
    Option.bind_some, Logged.val_pure, addr_natCast (by omega)]

end Kernel

/-! ### What the program reads -/

section Program

variable {m m' : Bytes} {top u : ℕ} {args envs : List CStr}

/-- Words that are pushed lie below the stack pointer, the last one first. -/
theorem foldl_push (vs : List ℕ) (m : Bytes) {esp : ℕ} (hroom : 4 * vs.length ≤ esp) (hesp : esp < 4294967296) :
    ∃ m', vs.foldl push (m, esp) = (m', esp - 4 * vs.length) ∧
      StoredRow m (esp - 4 * vs.length) (words vs.reverse) m' := by
  induction vs generalizing m esp with
  | nil => exact ⟨m, rfl, trivial, fun _ _ => rfl⟩
  | cons v vs ih =>
    rw [List.length_cons] at hroom ⊢
    have hpush : push (m, esp) v = (m.putU32 (esp - 4) v, esp - 4) := by
      rw [push, sub32_of_le hesp (by omega)]
    have hstored : StoredRow m (esp - 4) (word v) (m.putU32 (esp - 4) v) :=
      ⟨holds_putU32 m _ v, fun i hi => putU32_of_ne m v hi⟩
    obtain ⟨m', hrest, hstored'⟩ := ih (m.putU32 (esp - 4) v) (show 4 * vs.length ≤ esp - 4 by omega) (by omega)
    have hesp' : esp - 4 - 4 * vs.length = esp - 4 * (vs.length + 1) := by omega
    rw [hesp'] at hrest hstored'
    refine ⟨m', ?_, ?_⟩
    · rw [List.foldl_cons, hpush, hrest]
    · rw [List.reverse_cons, words_append, words_cons, words_nil, List.append_nil]
      refine StoredRow.below ?_ hstored'
      rw [length_words, List.length_reverse, show esp - 4 * (vs.length + 1) + 4 * vs.length = esp - 4 by omega]
      exact hstored

/-- **`_start` finds the arguments**, and leaves the image behind `argc` as it is. -/
theorem start_reads (eax edx init fini main back : ℕ) (hargc : m.getU32 top = args.length) (hroom : 64 ≤ top)
    (hfit : top + 4 * args.length + 8 < 4294967296) :
    ∃ m' lo, (∃ bs, StoredRow m lo bs m' ∧ lo + bs.length ≤ top + 4) ∧
      libcStartMain (start eax edx init fini main back m top) =
        { mem := m', argc := args.length, argv := top + 4, envp := top + 4 + 4 * args.length + 4 } := by
  have hlen : args.length < 4294967296 := by omega
  have hwrap : u32 (top + 4) = top + 4 := u32_of_lt (by omega)
  have hmod : (top + 4) % 16 < 16 := Nat.mod_lt _ (by omega)
  obtain ⟨m', hpushed, hstored⟩ := foldl_push
    [eax, sub32 (top + 4 - (top + 4) % 16) 4, edx, init, fini, top + 4, args.length, main, back] m
    (show 36 ≤ top + 4 - (top + 4) % 16 by omega) (by omega)
  have hlength : [eax, sub32 (top + 4 - (top + 4) % 16) 4, edx, init, fini, top + 4, args.length, main, back].length = 9 :=
    rfl
  rw [hlength] at hpushed hstored
  generalize hlo : top + 4 - (top + 4) % 16 - 4 * 9 = lo at *
  refine ⟨m', lo, ⟨_, hstored, ?_⟩, ?_⟩
  · rw [length_words, List.length_reverse, hlength]
    omega
  · have hone : param (m', lo) 1 = args.length := by
      rw [param, u32_of_lt (by dsimp only; omega), show lo + 4 + 4 * 1 = lo + 4 * 2 by omega,
        hstored.holds.getU32_words (show _ = some args.length from rfl), Nat.mod_eq_of_lt hlen]
    have htwo : param (m', lo) 2 = top + 4 := by
      rw [param, u32_of_lt (by dsimp only; omega), show lo + 4 + 4 * 2 = lo + 4 * 3 by omega,
        hstored.holds.getU32_words (show _ = some (top + 4) from rfl), Nat.mod_eq_of_lt (by omega)]
    rw [start, hargc, hwrap, hpushed, libcStartMain, hone, htwo, u32_of_lt (by omega)]

/-- A table and its strings. -/
theorem tableAt_of_holds {p q : ℕ} {strs : List CStr} (hwords : Holds m p (words (addrs q strs ++ [0])))
    (hbytes : Holds m q (strs.flatMap strBytes)) (hlo : top ≤ q) (hhi : q + strsSize strs ≤ userStackTop) :
    TableAt m top p strs where
  entry i str hstr := by
    have hi : i < strs.length := (List.getElem?_eq_some_iff.mp hstr).1
    obtain ⟨v, hv⟩ : ∃ v, (addrs q strs)[i]? = some v :=
      ⟨_, List.getElem?_eq_getElem (by rwa [length_addrs])⟩
    obtain ⟨hvlo, hvhi, hheld⟩ := holds_addrs hbytes hstr hv
    have hread : m.getU32 (p + 4 * i) = v := by
      rw [hwords.getU32_words (show _ = some v by rw [List.getElem?_append_left (by rwa [length_addrs]), hv])]
      rw [userStackTop_eq] at hhi
      exact Nat.mod_eq_of_lt (by omega)
    rw [hread]
    exact ⟨by omega, by omega, hheld⟩
  null := by
    have hlast : (addrs q strs ++ [0])[strs.length]? = some 0 := by
      rw [List.getElem?_append_right (by rw [length_addrs]), length_addrs, Nat.sub_self]
      rfl
    rw [hwords.getU32_words hlast, Nat.zero_mod]

/-- **The program reads what the image says.** -/
theorem start_image (eax edx init fini main back : ℕ)
    (hheld : Holds m top (image u args envs)) (hroom : 64 ≤ top)
    (hu : u = top + 4 + 4 * (args.length + 1) + 4 * (envs.length + 1))
    (htop : u + (strsSize args + strsSize envs) = userStackTop) {call : MainCall}
    (hcall : call = libcStartMain (start eax edx init fini main back m top)) :
    call.argc = args.length ∧ TableAt call.mem top call.argv args ∧ TableAt call.mem top call.envp envs := by
  have hsize := userStackTop_eq
  rw [image, List.append_assoc, holds_append] at hheld
  obtain ⟨hargc, hrest⟩ := hheld
  have hargc' : m.getU32 top = args.length := by rw [hargc.getU32, Nat.mod_eq_of_lt (by omega)]
  obtain ⟨m', lo, ⟨bs, hstored, hlow⟩, hreads⟩ := start_reads eax edx init fini main back hargc' hroom (by omega)
  obtain rfl := hcall.trans hreads
  -- the words that are pushed lie below the tables
  have hrest' := hstored.keeps hrest (Or.inr hlow)
  rw [length_word, holds_append, tables, words_append, holds_append, length_words, List.length_append, length_addrs,
    List.length_singleton, List.flatMap_append, holds_append] at hrest'
  have hstrs : top + 4 + (words (addrs u args ++ [0]) ++ words (addrs (u + strsSize args) envs ++ [0])).length = u := by
    simp only [List.length_append, length_words, length_addrs, List.length_singleton]
    omega
  rw [hstrs] at hrest'
  obtain ⟨⟨hargs, henvs⟩, hbytes, hbytes'⟩ := hrest'
  exact ⟨rfl, tableAt_of_holds hargs hbytes (by omega) (by omega),
    tableAt_of_holds henvs hbytes' (by omega) (by omega)⟩

end Program

/-- **The arguments arrive.** In every state of the kernel's pages that calls to `alloc_kpage` and `free_kpage` lead to, for
arguments whose tables fit in a page and whose image is smaller than four, `copy_argv_envp` returns when there are pages
for it; and from the address it returns `_start` and `__libc_start_main` call `main` with the file name, the strings of
`argv` and those of `envp`, each inside the image, in tables with a null pointer at their end. -/
theorem copyArgvEnvp_passes {s₀ s₁ s : Memory} {bits : Bytes} {ops : List KpageOp}
    (hinit : s₀.memoryMapInit bits = some s₁) (hrun : Run.exec KpageOp.step s₁ ops = some s) {filename : CStr}
    {argv envp : Option (List CStr)} (htable : tableSize argv envp ≤ 4096)
    (himage : imageSize filename argv envp < 16384) (m : Bytes) :
    (PagesLeft s → ∃ r, (copyArgvEnvp s filename argv envp m).val = some r) ∧
    ∀ top t m', (copyArgvEnvp s filename argv envp m).val = some (top, t, m') →
      ∀ eax edx init fini main back call, call = libcStartMain (start eax edx init fini main back m' top) →
        call.argc = 1 + countArgv argv ∧ TableAt call.mem top call.argv (filename :: argv.getD []) ∧
          TableAt call.mem top call.envp (envp.getD []) := by
  have hkmap : s.Kmap := Kmap.exec (Kmap.init hinit) hrun
  constructor
  · intro hleft
    obtain ⟨t, m', hval, -⟩ := copyArgvEnvp_image hkmap hleft htable himage m
    exact ⟨_, hval⟩
  · intro top t m' hval eax edx init fini main back call hcall
    have hleft : PagesLeft s := by
      obtain ⟨⟨pages, t₁⟩, hpages, hrest⟩ := Option.bind_eq_some_iff.mp hval
      obtain ⟨⟨argvk, t₂⟩, hargvk, -⟩ := Option.bind_eq_some_iff.mp hrest
      exact (pagesLeft_iff hkmap).mpr ⟨pages, t₁, argvk, t₂, hpages, hargvk⟩
    obtain ⟨t', m₁, hval', hheld⟩ := copyArgvEnvp_image hkmap hleft htable himage m
    obtain ⟨rfl, hpair⟩ := Prod.mk.inj (Option.some.inj (hval.symm.trans hval'))
    obtain ⟨rfl, rfl⟩ := Prod.mk.inj hpair
    have hsize := imageSize_eq filename argv envp rfl rfl
    have htop := userStackTop_eq
    obtain ⟨hargc, hargs, henvs⟩ := start_image eax edx init fini main back hheld (by omega) (by omega) (by omega) hcall
    rw [List.length_cons, length_getD, Nat.add_comm] at hargc
    exact ⟨hargc, hargs, henvs⟩

/-- A short command line arrives. -/
theorem copyArgvEnvp_passes_short : ∃ r,
    (copyArgvEnvp (markedMemory 2) [⟨97#8, by decide⟩] (some [[⟨98#8, by decide⟩], []]) none fun _ => 0#8).val = some r :=
  (copyArgvEnvp_passes blankMemory_init (show Run.exec KpageOp.step _ [] = _ from rfl) (by decide) (by decide) _).1
    pagesLeft_markedMemory

end Execve

end Onixs
