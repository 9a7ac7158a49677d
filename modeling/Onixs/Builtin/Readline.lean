import Mathlib.Data.List.Infix
import Mathlib.Data.List.TakeWhile
import Mathlib.Logic.Function.Basic
import Onixs.Common.Logged
import Onixs.Common.Rows
import Onixs.Lib.Types

/-!
# A line for the shell

`readline` of `builtin/utils/osh.c` reads bytes into a buffer of `count` bytes and edits them there. The byte that ends
the line is stored behind the others: on a newline it takes the place of the newline, and when the buffer is full it is
stored at `count`, behind the buffer. The function writes inside its buffer, and leaves the edited line there on a
newline, exactly when the line never grows to `count` bytes (`Onixs.Osh.readline_iff`).
-/

namespace Onixs

open Bytes

namespace Osh

/-- `\n`. -/
def newline : Byte := 0x0A#8

/-- `\r`. -/
def carriageReturn : Byte := 0x0D#8

/-- `\b`. -/
def backspace : Byte := 0x08#8

/-- `\t`. -/
def tab : Byte := 0x09#8

/-- A store to the buffer. -/
def store (idx : ℕ) (b : Byte) (buf : Bytes) : Logged ℕ Bytes := Logged.touch idx (some (Function.update buf idx b))

/-- The loop of `readline` and what is behind it. The input is what `read` returns: a byte, or nothing when it fails; the
call waits where the input ends. The result says whether there was a newline. The echo is left out. -/
def readlineLoop (count : ℕ) : List (Option Byte) → ℕ → Bytes → Logged ℕ (Bool × Bytes)
  | [], idx, buf =>
      if idx < count then
        Logged.lift none
      else do
        let buf ← store idx 0#8 buf
        return (false, buf)
  | none :: _, idx, buf => do
      let buf ← store idx 0#8 buf
      return (false, buf)
  | some ch :: input, idx, buf =>
      if idx < count then do
        let buf ← store idx ch buf
        if ch = newline ∨ ch = carriageReturn then do
          let buf ← store idx 0#8 buf
          return (true, buf)
        else if ch = backspace then
          if buf 0 ≠ backspace then
            readlineLoop count input (sub32 idx 1) buf
          else
            readlineLoop count input idx buf
        else if ch = tab then
          readlineLoop count input idx buf
        else
          readlineLoop count input (idx + 1) buf
      else do
        let buf ← store idx 0#8 buf
        return (false, buf)

/-- `readline`. -/
def readline (buf : Bytes) (count : ℕ) (input : List (Option Byte)) : Logged ℕ (Bool × Bytes) :=
  readlineLoop count input 0 buf

/-! ### Editing -/

/-- A byte edits a line. -/
def editByte (l : List Byte) (ch : Byte) : List Byte :=
  if ch = backspace then l.dropLast else if ch = tab then l else l ++ [ch]

/-- **The edited line.** -/
def edit (bs : List Byte) : List Byte := bs.foldl editByte []

/-- The byte does not end the line. -/
def Within (ch : Byte) : Prop := ¬(ch = newline ∨ ch = carriageReturn)

instance (ch : Byte) : Decidable (Within ch) := inferInstanceAs (Decidable (¬_))

/-- The bytes in front of the one that ends the line. -/
def line : List (Option Byte) → List Byte
  | some ch :: input => if Within ch then ch :: line input else []
  | _ => []

/-- **The call does what it should**: it writes inside the buffer, and on a newline the buffer holds the edited line, as
much of it as there is room for, and a `\0`. -/
def Edits (buf : Bytes) (count : ℕ) (input : List (Option Byte)) : Prop :=
  (readline buf count input).All (· < count) ∧
    ∀ buf', (readline buf count input).val = some (true, buf') →
      Holds buf' 0 ((edit (line input)).take (count - 1) ++ [0#8])

section Editing

variable {count idx : ℕ} {buf : Bytes} {l : List Byte} {ch : Byte} {input : List (Option Byte)}

theorem all_store : (store idx ch buf).All (· < count) ↔ idx < count := Logged.all_touch

/-- A backspace is never part of the line. -/
theorem backspace_notMem (h : backspace ∉ l) (ch : Byte) : backspace ∉ editByte l ch := by
  rw [editByte]
  split
  · exact fun hmem => h (List.mem_of_mem_dropLast hmem)
  next hback =>
    split
    · exact h
    · exact fun hmem => (List.mem_append.mp hmem).elim h fun hlast => hback (List.mem_singleton.mp hlast).symm

/-- A store behind a row. -/
theorem holds_update (h : Holds buf 0 l) (ch : Byte) : Holds (Function.update buf l.length ch) 0 (l ++ [ch]) := by
  rw [holds_append]
  refine ⟨h.congr fun i _ hi => Function.update_of_ne (by omega) _ _, ?_, trivial⟩
  rw [Nat.zero_add, Function.update_self]

/-- A full line is ended behind the buffer. -/
theorem not_all_readlineLoop (h : ¬idx < count) : ¬(readlineLoop count input idx buf).All (· < count) := by
  have hend : ¬(do let buf ← store idx 0#8 buf; return (false, buf) : Logged ℕ (Bool × Bytes)).All (· < count) := by
    intro hall
    exact h (all_store.mp (Logged.all_bind_pure.mp hall))
  cases input with
  | nil => rwa [readlineLoop, if_neg h]
  | cons ch input =>
    cases ch with
    | none => exact hend
    | some ch => rwa [readlineLoop, if_neg h]

/-- The rest of the call, from a line `l` on. -/
def EditsFrom (count : ℕ) (input : List (Option Byte)) (l : List Byte) (buf : Bytes) : Prop :=
  (readlineLoop count input l.length buf).All (· < count) ∧
    ∀ buf', (readlineLoop count input l.length buf).val = some (true, buf') →
      Holds buf' 0 (((line input).foldl editByte l).take (count - 1) ++ [0#8])

/-- **The byte that ends a line.** -/
theorem editsFrom_newline (hlt : l.length < count) (hbuf : Holds buf 0 l) (hch : ¬Within ch) :
    EditsFrom count (some ch :: input) l buf := by
  have hch' : ch = newline ∨ ch = carriageReturn := not_not.mp hch
  rw [EditsFrom, readlineLoop, if_pos hlt]
  simp only [if_pos hch', line, if_neg hch, List.foldl_nil]
  constructor
  · refine Logged.all_bind.mpr ⟨all_store.mpr hlt, fun buf₁ _ => ?_⟩
    exact Logged.all_bind_pure.mpr (all_store.mpr hlt)
  · intro buf' hval
    obtain ⟨-, rfl⟩ := Prod.mk.inj (Option.some.inj hval)
    rw [List.take_of_length_le (by omega), Function.update_idem]
    exact holds_update hbuf 0#8

theorem store_bind_congr {f g : Bytes → Logged ℕ (Bool × Bytes)}
    (h : f (Function.update buf idx ch) = g (Function.update buf idx ch)) :
    (store idx ch buf >>= f) = (store idx ch buf >>= g) := by
  change Logged.mk (idx :: (f _).log) (f _).val = Logged.mk (idx :: (g _).log) (g _).val
  rw [h]

/-- A line that is not empty lies in the buffer with its first byte. -/
theorem first_mem (hbuf : Holds buf 0 l) (hne : l ≠ []) : buf 0 ∈ l := by
  cases l with
  | nil => exact absurd rfl hne
  | cons b l => exact List.mem_cons.mpr (Or.inl hbuf.1)

/-- **A byte that does not end the line** edits it. -/
theorem readlineLoop_within (hlt : l.length < count) (hcount : count < 4294967296) (hbuf : Holds buf 0 l)
    (hback : backspace ∉ l) (hch : Within ch) : readlineLoop count (some ch :: input) l.length buf =
      (do let buf ← store l.length ch buf; readlineLoop count input (editByte l ch).length buf) := by
  rw [readlineLoop, if_pos hlt]
  refine store_bind_congr ?_
  rw [if_neg hch, editByte]
  by_cases hb : ch = backspace
  · rw [if_pos hb, if_pos hb]
    rcases List.eq_nil_or_concat' l with rfl | ⟨l', b, rfl⟩
    · have hfirst : Function.update buf ([] : List Byte).length ch 0 = backspace := (Function.update_self _ _ _).trans hb
      rw [if_neg (not_not_intro hfirst)]
      rfl
    · -- the line is not empty, and does not begin with a backspace
      have hfirst : Function.update buf (l' ++ [b]).length ch 0 ≠ backspace := by
        rw [Function.update_of_ne (by simp)]
        exact fun heq => hback (heq ▸ first_mem hbuf (by simp))
      rw [if_pos hfirst, List.dropLast_concat, sub32_of_le (by omega) (by simp)]
      simp
  · rw [if_neg hb, if_neg hb]
    by_cases ht : ch = tab
    · rw [if_pos ht, if_pos ht]
    · rw [if_neg ht, if_neg ht, List.length_append, List.length_singleton]

/-- The buffer has the edited line. -/
theorem holds_editByte (hbuf : Holds buf 0 l) : Holds (Function.update buf l.length ch) 0 (editByte l ch) := by
  have hall := holds_update hbuf ch
  rw [editByte]
  split
  · rcases List.eq_nil_or_concat' l with rfl | ⟨l, b, rfl⟩
    · exact trivial
    · rw [List.dropLast_concat]
      exact (holds_append.mp (holds_append.mp hall).1).1
  · split
    · exact (holds_append.mp hall).1
    · exact hall

/-- **From any line on**: the rest of the call does what it should exactly when the line stays shorter than the buffer. -/
theorem editsFrom_iff (hcount : count < 4294967296) : ∀ (input : List (Option Byte)) (l : List Byte) (buf : Bytes),
    l.length < count → Holds buf 0 l → backspace ∉ l →
      (EditsFrom count input l buf ↔ ∀ pre, pre <+: line input → (pre.foldl editByte l).length < count) := by
  intro input
  induction input with
  | nil =>
    intro l buf hlt _ _
    refine iff_of_true ?_ fun pre hpre => ?_
    · rw [EditsFrom, readlineLoop, if_pos hlt]
      exact ⟨Logged.all_lift _, fun _ h => absurd h (by simp)⟩
    · rw [List.prefix_nil.mp hpre]
      exact hlt
  | cons ch input ih =>
    intro l buf hlt hbuf hback
    cases ch with
    | none =>
      refine iff_of_true ?_ fun pre hpre => ?_
      · refine ⟨Logged.all_bind_pure.mpr (all_store.mpr hlt), fun buf' hval => ?_⟩
        exact absurd (Prod.mk.inj (Option.some.inj hval)).1 Bool.noConfusion
      · rw [List.prefix_nil.mp hpre]
        exact hlt
    | some ch =>
      by_cases hch : Within ch
      · have hedit : EditsFrom count (some ch :: input) l buf ↔
            EditsFrom count input (editByte l ch) (Function.update buf l.length ch) := by
          rw [EditsFrom, EditsFrom, readlineLoop_within hlt hcount hbuf hback hch, Logged.all_bind_of_val rfl,
            and_iff_right (all_store.mpr hlt), line, if_pos hch]
          rfl
        have hline : (∀ pre, pre <+: line (some ch :: input) → (pre.foldl editByte l).length < count) ↔
            ∀ pre, pre <+: line input → (pre.foldl editByte (editByte l ch)).length < count := by
          rw [line, if_pos hch]
          refine ⟨fun h pre hpre => h (ch :: pre) ((List.prefix_cons_inj ch).mpr hpre), fun h pre hpre => ?_⟩
          cases pre with
          | nil => exact hlt
          | cons b pre =>
            obtain ⟨rfl, hrest⟩ := List.cons_prefix_cons.mp hpre
            exact h pre hrest
        rw [hedit, hline]
        by_cases hfull : (editByte l ch).length < count
        · exact ih _ _ hfull (holds_editByte hbuf) (backspace_notMem hback ch)
        · exact iff_of_false (fun h => not_all_readlineLoop hfull h.1) fun h => hfull (h [] List.nil_prefix)
      · refine iff_of_true (editsFrom_newline hlt hbuf hch) fun pre hpre => ?_
        rw [line, if_neg hch] at hpre
        rw [List.prefix_nil.mp hpre]
        exact hlt

end Editing

/-- **When a line is read as it should be**: `readline` writes inside its buffer and leaves the edited line there on a
newline, exactly when the line is shorter than the buffer all the time. -/
theorem readline_iff {count : ℕ} (hpos : 1 ≤ count) (hcount : count < 2 ^ 32) (buf : Bytes)
    (input : List (Option Byte)) :
    Edits buf count input ↔ ∀ pre, pre <+: line input → (edit pre).length < count :=
  editsFrom_iff hcount input [] buf hpos trivial List.not_mem_nil

theorem readline_iff_short : Edits (fun _ => 0#8) 4 [some 0x61#8, some backspace, some 0x62#8, some newline] ↔
    ∀ pre, pre <+: line [some 0x61#8, some backspace, some 0x62#8, some newline] → (edit pre).length < 4 :=
  readline_iff (by decide) (by decide) _ _

/-- **A byte behind the buffer**: two bytes for a buffer of two. -/
theorem readline_overrun : ¬Edits (fun _ => 0#8) 2 [some 0x61#8, some 0x62#8, some newline] := by
  rintro ⟨hall, -⟩
  exact absurd (hall 2 (by decide)) (by decide)

end Osh

end Onixs
