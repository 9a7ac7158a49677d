import Onixs.Common.Logged
import Onixs.Common.Rows
import Onixs.Common.Words

/-!
# The words of a command

`cmd_parse` of `builtin/utils/osh.c` cuts a line into words where it is: the separator behind a word becomes its `\0`.
It stops after `MAX_ARG_NR` words and then stores `NULL` behind the last one, which with `MAX_ARG_NR` words or more is
behind `argv` (`Onixs.Osh.cmdParse_iff`).
-/

namespace Onixs

open Bytes Words

namespace Osh

/-- `MAX_ARG_NR`. -/
def maxArgNr : ℕ := 16

/-- What `cmd_parse` works on. Pointers into the command are counted from its beginning. -/
structure Parsed where
  /-- The command. -/
  cmd : Bytes
  /-- `argv`. -/
  argv : ℕ → Option ℕ
  /-- `next`. -/
  next : ℕ
  /-- `argc`. -/
  argc : ℕ

/-- A store to `argv`. -/
def setArg (i : ℕ) (p : Option ℕ) (argv : ℕ → Option ℕ) : Logged ℕ (ℕ → Option ℕ) :=
  Logged.touch i (some (Function.update argv i p))

/-- The loop of `cmd_parse` that goes on to the next word, in at most so many rounds. -/
def skipTokens (cmd : Bytes) (token : Byte) : ℕ → ℕ → Option ℕ
  | 0, _ => none
  | fuel + 1, next => if cmd next = token then skipTokens cmd token fuel (next + 1) else some next

/-- The loop of `cmd_parse` that goes on to the end of a word, in at most so many rounds. -/
def skipWord (cmd : Bytes) (token : Byte) : ℕ → ℕ → Option ℕ
  | 0, _ => none
  | fuel + 1, next =>
      if cmd next ≠ 0#8 ∧ cmd next ≠ token then skipWord cmd token fuel (next + 1) else some next

/-- The loop of `cmd_parse`, in at most so many rounds. -/
def cmdParseLoop (token : Byte) : ℕ → Parsed → Logged ℕ Parsed
  | 0, _ => Logged.lift none
  | fuel + 1, s =>
      if s.cmd s.next ≠ 0#8 ∧ s.argc < maxArgNr then do
        let next ← Logged.lift (skipTokens s.cmd token fuel s.next)
        if s.cmd next = 0#8 then
          return { s with next := next }
        else do
          let argv ← setArg s.argc (some next) s.argv
          let next ← Logged.lift (skipWord s.cmd token fuel next)
          if s.cmd next ≠ 0#8 then
            cmdParseLoop token fuel ⟨Function.update s.cmd next 0#8, argv, next + 1, s.argc + 1⟩
          else
            cmdParseLoop token fuel ⟨s.cmd, argv, next, s.argc + 1⟩
      else
        return s

/-- `cmd_parse`, which returns `argc`. -/
def cmdParse (cmd : Bytes) (argv : ℕ → Option ℕ) (token : Byte) (fuel : ℕ) : Logged ℕ Parsed := do
  let s ← cmdParseLoop token fuel ⟨cmd, argv, 0, 0⟩
  let argv ← setArg s.argc none s.argv
  return { s with argv := argv }

/-- **The call does what it should** with the line `l`: it stores to `argv` only, returns how many words there are, at
most `MAX_ARG_NR`, and so many entries of `argv` point to the words, each of which has a `\0` behind it. -/
def Parses (x : Logged ℕ Parsed) (token : Byte) (l : List Byte) : Prop :=
  x.All (· < maxArgNr) ∧ ∃ s, x.val = some s ∧ s.argc = min (words token 0 l).length maxArgNr ∧
    ∀ i p word, i < s.argc → (words token 0 l)[i]? = some (p, word) → s.argv i = some p ∧ Holds s.cmd p (word ++ [0#8])

section Loops

variable {cmd : Bytes} {token : Byte} {fuel next : ℕ} {r : List Byte}

/-- The separators are skipped. -/
theorem skipTokens_eq (hcmd : Holds cmd next (r ++ [0#8])) (hzero : 0#8 ∉ r) (hr : r ≠ [] ∨ token ≠ 0#8)
    (hfuel : r.length < fuel) :
    skipTokens cmd token fuel next = some (next + (r.takeWhile (· = token)).length) := by
  induction r generalizing next fuel with
  | nil =>
    obtain ⟨fuel, rfl⟩ : ∃ k, fuel = k + 1 := Nat.exists_eq_succ_of_ne_zero (Nat.ne_zero_of_lt hfuel)
    have htoken : cmd next ≠ token := fun h => hr.elim (fun h => h rfl) fun h' => h' (h.symm.trans hcmd.1)
    rw [skipTokens, if_neg htoken]
    rfl
  | cons c r ih =>
    obtain ⟨fuel, rfl⟩ : ∃ k, fuel = k + 1 := Nat.exists_eq_succ_of_ne_zero (Nat.ne_zero_of_lt hfuel)
    have hc : cmd next = c := hcmd.1
    rw [skipTokens, hc]
    by_cases htoken : c = token
    · have hnonzero : token ≠ 0#8 := fun h => hzero (List.mem_cons.mpr (Or.inl (htoken.trans h).symm))
      rw [if_pos htoken, List.takeWhile_cons_of_pos (by simpa using htoken),
        ih hcmd.2 (fun h => hzero (List.mem_cons_of_mem _ h)) (Or.inr hnonzero) (by simpa using hfuel),
        List.length_cons, Nat.add_assoc, Nat.add_comm 1]
    · rw [if_neg htoken, List.takeWhile_cons_of_neg (by simpa using htoken)]
      rfl

/-- The word is skipped. -/
theorem skipWord_eq (hcmd : Holds cmd next (r ++ [0#8])) (hzero : 0#8 ∉ r) (hfuel : r.length < fuel) :
    skipWord cmd token fuel next = some (next + (r.takeWhile (· ≠ token)).length) := by
  induction r generalizing next fuel with
  | nil =>
    obtain ⟨fuel, rfl⟩ : ∃ k, fuel = k + 1 := Nat.exists_eq_succ_of_ne_zero (Nat.ne_zero_of_lt hfuel)
    rw [skipWord, if_neg fun h => h.1 hcmd.1]
    rfl
  | cons c r ih =>
    obtain ⟨fuel, rfl⟩ : ∃ k, fuel = k + 1 := Nat.exists_eq_succ_of_ne_zero (Nat.ne_zero_of_lt hfuel)
    have hc : cmd next = c := hcmd.1
    have hnonzero : c ≠ 0#8 := fun h => hzero (List.mem_cons.mpr (Or.inl h.symm))
    rw [skipWord, hc]
    by_cases htoken : c = token
    · rw [if_neg fun h => h.2 htoken, List.takeWhile_cons_of_neg (by simpa using htoken)]
      rfl
    · rw [if_pos ⟨hnonzero, htoken⟩, List.takeWhile_cons_of_pos (by simpa using htoken),
        ih hcmd.2 (fun h => hzero (List.mem_cons_of_mem _ h)) (by simpa using hfuel),
        List.length_cons, Nat.add_assoc, Nat.add_comm 1]

/-- What the loop does with the rest `r` of a line. -/
structure ParsesRest (token : Byte) (r : List Byte) (s t : Parsed) : Prop where
  /-- How many words there are then. -/
  argc : t.argc = min (s.argc + (words token s.next r).length) maxArgNr
  /-- The words before them are left alone. -/
  before : ∀ i < s.argc, t.argv i = s.argv i
  /-- What is in front of the rest is left alone. -/
  front : ∀ a < s.next, t.cmd a = s.cmd a
  /-- The words. -/
  words : ∀ i p word, s.argc + i < maxArgNr → (words token s.next r)[i]? = some (p, word) →
    t.argv (s.argc + i) = some p ∧ Holds t.cmd p (word ++ [0#8])

/-- No words, and nothing to do. -/
theorem ParsesRest.nil {s : Parsed} (hargc : s.argc ≤ maxArgNr) (hwords : Words.words token s.next r = []) (n : ℕ) :
    ParsesRest token r s { s with next := n } := by
  refine ⟨?_, fun _ _ => rfl, fun _ _ => rfl, fun i p word _ h => ?_⟩
  · rw [hwords, List.length_nil, Nat.add_zero, Nat.min_eq_left hargc]
  · rw [hwords] at h
    exact absurd h (by simp)

/-- The first word, and what the loop does with those behind it. -/
theorem ParsesRest.cons {s u t : Parsed} {p : ℕ} {word rest : List Byte}
    (hwords : Words.words token s.next r = (p, word) :: Words.words token u.next rest) (hargc : u.argc = s.argc + 1)
    (hargv : u.argv = Function.update s.argv s.argc (some p))
    (hcmd : ∀ a < s.next, u.cmd a = s.cmd a) (hheld : Holds t.cmd p (word ++ [0#8])) (hnext : s.next ≤ u.next)
    (h : ParsesRest token rest u t) : ParsesRest token r s t := by
  refine ⟨?_, fun i hi => ?_, fun a ha => ?_, fun i q w hi hw => ?_⟩
  · rw [h.argc, hwords, List.length_cons, hargc, Nat.add_assoc, Nat.add_comm 1]
  · rw [h.before i (by omega), hargv, Function.update_of_ne (by omega)]
  · rw [h.front a (by omega), hcmd a ha]
  · rw [hwords] at hw
    cases i with
    | zero =>
      obtain ⟨rfl, rfl⟩ := Prod.mk.inj (Option.some.inj hw)
      refine ⟨?_, hheld⟩
      rw [Nat.add_zero, h.before s.argc (by omega), hargv, Function.update_self]
    | succ i =>
      have hw' := h.words i q w (by omega) hw
      rwa [hargc, Nat.add_assoc, Nat.add_comm 1] at hw'

/-- At the end of the command the loop is over. -/
theorem cmdParseLoop_end {s : Parsed} (h : s.cmd s.next = 0#8) : cmdParseLoop token (fuel + 1) s = pure s := by
  rw [cmdParseLoop, if_neg fun hgo => hgo.1 h]

theorem all_touch_cons {α : Type} {x : Logged ℕ α} {i : ℕ} (hi : i < maxArgNr) (hx : x.All (· < maxArgNr)) :
    (Logged.mk (i :: x.log) x.val).All (· < maxArgNr) := by
  intro j hj
  rcases List.mem_cons.mp hj with rfl | hj
  · exact hi
  · exact hx j hj

/-- The call does what it should with the rest `r` of a line. -/
def Serves (token : Byte) (r : List Byte) (s : Parsed) (x : Logged ℕ Parsed) : Prop :=
  x.All (· < maxArgNr) ∧ ∃ t, x.val = some t ∧ ParsesRest token r s t

/-- **A round** that finds the word which begins with `c` at `p`. -/
theorem serves_word {s : Parsed} {c : Byte} {r₂ : List Byte} {p : ℕ}
    (ih : ∀ (r : List Byte) (s : Parsed), Holds s.cmd s.next (r ++ [0#8]) → 0#8 ∉ r → r.length + 2 ≤ fuel →
      s.argc ≤ maxArgNr → Serves token r s (cmdParseLoop token fuel s))
    (hcmd : Holds s.cmd p (c :: r₂ ++ [0#8])) (hzero : 0#8 ∉ c :: r₂) (hc : c ≠ token)
    (hfuel : (c :: r₂).length + 1 ≤ fuel) (hargc : s.argc < maxArgNr)
    (hwords : Words.words token s.next r = Words.words token p (c :: r₂)) (hp : s.next ≤ p) :
    Serves token r s (do
      let argv ← setArg s.argc (some p) s.argv
      let next ← Logged.lift (skipWord s.cmd token fuel p)
      if s.cmd next ≠ 0#8 then
        cmdParseLoop token fuel ⟨Function.update s.cmd next 0#8, argv, next + 1, s.argc + 1⟩
      else
        cmdParseLoop token fuel ⟨s.cmd, argv, next, s.argc + 1⟩) := by
  obtain ⟨word, hword⟩ : ∃ word, word = c :: r₂.takeWhile (· ≠ token) := ⟨_, rfl⟩
  obtain ⟨rest, hrest⟩ : ∃ rest, rest = r₂.dropWhile (· ≠ token) := ⟨_, rfl⟩
  have hparts : c :: r₂ = word ++ rest := by
    rw [hword, hrest, List.cons_append, List.takeWhile_append_dropWhile]
  have hskip : skipWord s.cmd token fuel p = some (p + word.length) := by
    rw [skipWord_eq hcmd hzero (by omega), List.takeWhile_cons_of_pos (by simpa using hc), ← hword]
  have hlength : word.length + rest.length = r₂.length + 1 := by
    rw [← List.length_append, ← hparts, List.length_cons]
  rw [List.length_cons] at hfuel
  rw [Words.words_cons hc, ← hword, ← hrest, show p + 1 + (r₂.takeWhile (· ≠ token)).length = p + word.length by
    rw [hword, List.length_cons]; omega] at hwords
  rw [hparts, List.append_assoc, holds_append] at hcmd
  rw [hparts, List.mem_append, not_or] at hzero
  obtain ⟨hheld, hend⟩ := hcmd
  rw [setArg, Logged.touch_some_bind, hskip, Logged.lift_some_bind]
  cases rest with
  | nil =>
    -- the word is the last one, and has the `\0` of the command behind it
    obtain ⟨fuel, rfl⟩ := Nat.exists_eq_add_of_le' (show 1 ≤ fuel by omega)
    rw [if_neg (not_not_intro hend.1), cmdParseLoop_end hend.1]
    refine ⟨all_touch_cons hargc (Logged.all_pure _), _, rfl, ?_⟩
    refine ParsesRest.cons (u := ⟨s.cmd, Function.update s.argv s.argc (some p), p + word.length, s.argc + 1⟩) hwords rfl rfl
      (fun _ _ => rfl) (holds_append.mpr ⟨hheld, hend⟩) (by simp only; omega) ?_
    exact ParsesRest.nil (show s.argc + 1 ≤ maxArgNr from hargc) Words.words_nil _
  | cons d rest =>
    have hd : d = token := by
      have hfirst := List.head?_dropWhile_not (· ≠ token) r₂
      rw [← hrest] at hfirst
      simpa using hfirst
    have hnonzero : s.cmd (p + word.length) ≠ 0#8 := fun h => hzero.2 (List.mem_cons.mpr (Or.inl (h.symm.trans hend.1)))
    rw [hd, Words.words_sep] at hwords
    rw [if_pos hnonzero]
    rw [List.length_cons] at hlength
    obtain ⟨hall, t, hval, hparses⟩ := ih rest
      ⟨Function.update s.cmd (p + word.length) 0#8, Function.update s.argv s.argc (some p), p + word.length + 1, s.argc + 1⟩
      (hend.2.congr fun i hi _ => Function.update_of_ne (Nat.ne_of_gt hi) _ _)
      (fun h => hzero.2 (List.mem_cons_of_mem _ h)) (by omega) hargc
    refine ⟨all_touch_cons hargc hall, t, hval, ?_⟩
    refine hparses.cons hwords rfl rfl (fun a ha => Function.update_of_ne (by omega) _ _) ?_ (by simp only; omega)
    -- the loop leaves the word and the `\0` behind it alone
    have hfront : ∀ a, a < p + word.length + 1 → t.cmd a = Function.update s.cmd (p + word.length) 0#8 a := hparses.front
    refine holds_append.mpr ⟨hheld.congr fun i _ hi => ?_, ?_, trivial⟩
    · rw [hfront i (by omega), Function.update_of_ne (by omega)]
    · rw [hfront _ (Nat.lt_succ_self _), Function.update_self]

/-- **The loop**: it stores to `argv` only, and does what it should with what is left of the line. -/
theorem cmdParseLoop_spec : ∀ (fuel : ℕ) (r : List Byte) (s : Parsed), Holds s.cmd s.next (r ++ [0#8]) → 0#8 ∉ r →
    r.length + 2 ≤ fuel → s.argc ≤ maxArgNr → Serves token r s (cmdParseLoop token fuel s) := by
  intro fuel
  induction fuel with
  | zero => exact fun r s _ _ hfuel _ => absurd hfuel (by omega)
  | succ fuel ih =>
    intro r s hcmd hzero hfuel hargc
    by_cases hgo : s.cmd s.next ≠ 0#8 ∧ s.argc < maxArgNr
    · have hr : r ≠ [] := by
        rintro rfl
        exact hgo.1 hcmd.1
      obtain ⟨a, ha⟩ : ∃ a, a = r.takeWhile (· = token) := ⟨_, rfl⟩
      obtain ⟨r₁, hr₁⟩ : ∃ r₁, r₁ = r.dropWhile (· = token) := ⟨_, rfl⟩
      have hparts : r = a ++ r₁ := by rw [ha, hr₁, List.takeWhile_append_dropWhile]
      have hskip : skipTokens s.cmd token fuel s.next = some (s.next + a.length) := by
        rw [ha]
        exact skipTokens_eq hcmd hzero (Or.inl hr) (by omega)
      have hwords : Words.words token s.next r = Words.words token (s.next + a.length) r₁ := by
        rw [ha, hr₁]
        exact words_dropWhile token r s.next
      have hlength : r.length = a.length + r₁.length := by rw [hparts, List.length_append]
      have hheld : Holds s.cmd (s.next + a.length) (r₁ ++ [0#8]) := by
        rw [hparts, List.append_assoc, holds_append] at hcmd
        exact hcmd.2
      rw [hparts, List.mem_append, not_or] at hzero
      rw [cmdParseLoop, if_pos hgo, hskip, Logged.lift_some_bind]
      cases r₁ with
      | nil =>
        -- nothing but separators
        rw [if_pos hheld.1]
        exact ⟨Logged.all_pure _, _, rfl, ParsesRest.nil hargc (hwords.trans Words.words_nil) _⟩
      | cons c r₂ =>
        have hc : c ≠ token := by
          have hfirst := List.head?_dropWhile_not (· = token) r
          rw [← hr₁] at hfirst
          simpa using hfirst
        have hnonzero : s.cmd (s.next + a.length) ≠ 0#8 := fun h =>
          hzero.2 (List.mem_cons.mpr (Or.inl (h.symm.trans hheld.1)))
        rw [if_neg hnonzero]
        exact serves_word ih hheld hzero.2 hc (by omega) hgo.2 hwords (Nat.le_add_right _ _)
    · rw [cmdParseLoop, if_neg hgo]
      refine ⟨Logged.all_pure _, s, rfl, ?_⟩
      by_cases hend : s.cmd s.next = 0#8
      · have hr : r = [] := by
          cases r with
          | nil => rfl
          | cons c r => exact absurd (List.mem_cons.mpr (Or.inl (hend.symm.trans hcmd.1))) hzero
        exact ParsesRest.nil hargc (by rw [hr, Words.words_nil]) s.next
      · -- `argv` is full
        have hfull : s.argc = maxArgNr := le_antisymm hargc (Nat.le_of_not_lt fun hlt => hgo ⟨hend, hlt⟩)
        refine ⟨?_, fun _ _ => rfl, fun _ _ => rfl, fun i p word hi _ => absurd hi (by omega)⟩
        omega

end Loops

/-- **When a command is cut as it should be**: `cmd_parse` stores to `argv` only, and finds the words, exactly when there
are less than `MAX_ARG_NR` of them. -/
theorem cmdParse_iff {cmd : Bytes} {l : List Byte} (hcmd : Holds cmd 0 (l ++ [0#8])) (hzero : 0#8 ∉ l)
    (argv : ℕ → Option ℕ) (token : Byte) {fuel : ℕ} (hfuel : l.length + 2 ≤ fuel) :
    Parses (cmdParse cmd argv token fuel) token l ↔ (words token 0 l).length < maxArgNr := by
  obtain ⟨hall, t, hval, hargc, -, -, hwords⟩ := cmdParseLoop_spec fuel l ⟨cmd, argv, 0, 0⟩ hcmd hzero hfuel (Nat.zero_le _)
  have hargc : t.argc = min (words token 0 l).length maxArgNr := hargc.trans (by rw [Nat.zero_add])
  have hlog : (cmdParse cmd argv token fuel).All (· < maxArgNr) ↔ t.argc < maxArgNr := by
    rw [cmdParse, Logged.all_bind_of_val hval, and_iff_right hall]
    exact Logged.all_bind_pure.trans Logged.all_touch
  have hresult : (cmdParse cmd argv token fuel).val = some { t with argv := Function.update t.argv t.argc none } := by
    rw [cmdParse, Logged.val_bind, hval]
    rfl
  have hlt : t.argc < maxArgNr ↔ (words token 0 l).length < maxArgNr := by omega
  rw [Parses, hlog, hlt]
  refine and_iff_left ⟨_, hresult, hargc, fun i p word hi hw => ?_⟩
  have hi : i < t.argc := hi
  obtain ⟨hpoint, hheld⟩ := hwords i p word (by simp only; omega) hw
  rw [Nat.zero_add] at hpoint
  exact ⟨(Function.update_of_ne (by omega) _ _).trans hpoint, hheld⟩

/-- The bytes of a line, with a `\0` behind it and nothing else. -/
def lineBytes (l : List Byte) : Bytes := fun i => l.getD i 0#8

theorem cmdParse_iff_two : Parses (cmdParse (lineBytes [0x61#8, 0x20#8, 0x62#8]) (fun _ => none) 0x20#8 5) 0x20#8
      [0x61#8, 0x20#8, 0x62#8] ↔ (words 0x20#8 0 [0x61#8, 0x20#8, 0x62#8]).length < maxArgNr :=
  cmdParse_iff (show Holds _ 0 [0x61#8, 0x20#8, 0x62#8, 0#8] from ⟨rfl, rfl, rfl, rfl, trivial⟩) (by decide) _ _
    (by decide)

/-- Sixteen words of one letter. -/
def sixteenWords : List Byte := (List.replicate 16 [0x61#8, 0x20#8]).flatten

/-- **A pointer behind `argv`**: sixteen words. -/
theorem cmdParse_overrun : ¬Parses (cmdParse (lineBytes sixteenWords) (fun _ => none) 0x20#8 34) 0x20#8 sixteenWords := by
  rintro ⟨hall, -⟩
  exact absurd (hall 16 (by decide +kernel)) (by decide)

end Osh

end Onixs
