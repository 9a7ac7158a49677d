import Onixs.Common.Bytes
import Onixs.Common.Stream
import Onixs.Lib.Types

/-!
# The console

`kernel/console.c`: a window of 25 rows of 80 cells in the video memory, which moves by 26 rows when the text
leaves it, until the memory is used up, and then goes back to its beginning. The window is the one that the
registers of the CRT say.

The test of `scroll_up` lets the window move when the rows that it copies fit behind it, without the last, which
`console_clearline` then erases behind the end of the memory. So the accesses stay in the memory until the third scroll
(`Onixs.Console.State.writeAll_inBounds_iff`).
-/

namespace Onixs

namespace Console

open Bytes

/-- `MEM_BASE`. -/
def memBase : ℕ := 753664

/-- `MEM_SIZE`. -/
def memSize : ℕ := 16384

/-- `MEM_END`. -/
def memEnd : ℕ := memBase + memSize

/-- `WIDTH`. -/
def width : ℕ := 80

/-- `HEIGHT`. -/
def height : ℕ := 25

/-- `ROW_SIZE`. -/
def rowSize : ℕ := width * 2

/-- `SCR_SIZE`. -/
def scrSize : ℕ := rowSize * height

/-- `CONSOLE_PAGE_SIZE`, in cells. -/
def consolePageSize : ℕ := 1040 * 2

/-- `CRT_BLOCK`. -/
def crtBlock : ℕ := 13600

/-- `CRT_ATTR`. -/
def crtAttr : ℕ := 7

/-- `NUL`. -/
def nul : Byte := 0#8

/-- `BS`. -/
def bs : Byte := 8#8

/-- `LF`. -/
def lf : Byte := 10#8

/-- `FF`. -/
def ff : Byte := 12#8

/-- `CR`. -/
def cr : Byte := 13#8

/-- `DEL`. -/
def del : Byte := 127#8

/-- What a register of the CRT holds after a number is put out, a byte at a time. -/
def crtWord (v : ℕ) : ℕ := v / 256 % 256 * 256 + v % 256

theorem crtWord_of_lt {v : ℕ} (h : v < 65536) : crtWord v = v := by
  rw [crtWord]
  omega

/-- The console. -/
structure State where
  /-- The memory, by address. -/
  mem : Bytes
  /-- `screen`, the first cell of the window. -/
  screen : ℕ
  /-- `cursor`, a cell. -/
  cursor : ℕ
  /-- `x`. -/
  x : ℕ
  /-- `y`. -/
  y : ℕ
  /-- The register of the CRT with the first cell that is shown. -/
  start : ℕ
  /-- The register of the CRT with the cursor. -/
  place : ℕ
  /-- The parts of the memory that were read or written, by address and length. -/
  accesses : List (ℕ × ℕ)

namespace State

/-- The cell number `i` of the video memory. -/
def cell (s : State) (i : ℕ) : ℕ := getU16 s.mem (memBase + 2 * i)

/-- `*(ptr + i) = v`. -/
def putCell (s : State) (i v : ℕ) : State :=
  { s with mem := putU16 s.mem (memBase + 2 * i) v, accesses := s.accesses ++ [(memBase + 2 * i, 2)] }

/-- `memcpy`, of places that do not overlap. -/
def memcpy (s : State) (dest src count : ℕ) : State :=
  { s with mem := copy s.mem dest count fun k => s.mem (src + k),
           accesses := s.accesses ++ [(src, count), (dest, count)] }

/-- The window and the cursor, somewhere else. -/
def moveTo (s : State) (screen cursor : ℕ) : State := { s with screen := screen, cursor := cursor }

/-- A loop that stores `v` in `n` cells. -/
def putCells (v : ℕ) : ℕ → ℕ → State → State
  | 0, _, s => s
  | n + 1, i, s => putCells v n (i + 1) (s.putCell i v)

/-- `set_screen`. -/
def setScreen (s : State) : State := { s with start := crtWord s.screen }

/-- `set_cursor`. -/
def setCursor (s : State) : State :=
  { s with place := crtWord s.cursor, x := (s.cursor - s.screen) % width, y := (s.cursor - s.screen) / width }

/-- `console_clearline`. -/
def consoleClearline (s : State) : State := putCells crtBlock width s.cursor s

/-- `scroll_up`. -/
def scrollUp (s : State) : State :=
  let s :=
    if consolePageSize * 2 + s.screen * 2 + rowSize < memSize then
      let s := s.memcpy (memBase + consolePageSize * 2 + s.screen * 2) (memBase + s.screen * 2 + rowSize)
        (scrSize - rowSize)
      (s.moveTo (s.screen + consolePageSize) (s.cursor + consolePageSize)).consoleClearline
    else
      let s := s.memcpy memBase (memBase + s.screen * 2 + rowSize) (scrSize - rowSize)
      (s.moveTo 0 (s.cursor - s.screen)).consoleClearline
  s.setScreen.setCursor

/-- `command_bs`. -/
def commandBs (s : State) : State :=
  if s.x ≠ 0 then
    let s := { s with cursor := s.cursor - 1 }
    (s.putCell s.cursor crtBlock).setCursor
  else s

/-- `command_del`. -/
def commandDel (s : State) : State := s.putCell s.cursor crtBlock

/-- `command_cr`. -/
def commandCr (s : State) : State := { s with cursor := s.cursor - s.x }.setCursor

/-- `command_lf`. -/
def commandLf (s : State) : State :=
  if s.y + 1 < height then { s with cursor := s.cursor + width }.setCursor else s.scrollUp

/-- `(CRT_ATTR << 8) | ch`, stored as a `uint16`. A `char` is signed. -/
def attributed (ch : Byte) : ℕ := (BitVec.ofNat 16 (crtAttr <<< 8) ||| ch.signExtend 16).toNat

/-- The default of `console_write`. -/
def writeChar (s : State) (ch : Byte) : State :=
  let s := s.putCell s.cursor (attributed ch)
  if s.cursor - s.screen = 80 * 25 - 1 then s.commandCr.commandLf
  else (s.moveTo s.screen (s.cursor + 1)).setCursor

/-- A pass of the loop of `console_write`. -/
def writeByte (s : State) (ch : Byte) : State :=
  if ch = nul then s
  else if ch = lf then s.commandCr.commandLf
  else if ch = cr then s.commandCr
  else if ch = bs then s.commandBs
  else if ch = del then s.commandDel
  else if ch = ff then s.commandLf
  else s.writeChar ch

/-- The loop of `console_write`, which counts its passes and the test that ends it. -/
def writeLoop : ℕ → List Byte → State → ℕ × State
  | nr, [], s => (u32 (nr + 1), s)
  | nr, ch :: buf, s => writeLoop (u32 (nr + 1)) buf (s.writeByte ch)

/-- `console_write`: the number that it returns, and the console. -/
def consoleWrite (s : State) (buf : List Byte) : ℕ × State := writeLoop 0 buf s

/-- `console_clear`. -/
def consoleClear (s : State) : State :=
  let s := { s with screen := 0, cursor := 0, x := 0, y := 0 }
  putCells (crtBlock &&& 255 ||| crtAttr <<< 8) (memSize / 2) 0 s.setScreen.setCursor

/-- The console after `console_clear`, of some memory. -/
def cleared (mem : Bytes) : State := consoleClear ⟨mem, 0, 0, 0, 0, 0, 0, []⟩

/-- The console after some calls of `console_write`. -/
def writeAll (s : State) (calls : List (List Byte)) : State := calls.foldl (fun s buf => (s.consoleWrite buf).2) s

/-! ### Cells -/

section Cells

variable {s : State} {i j n v : ℕ}

theorem cell_setScreen (s : State) (i : ℕ) : s.setScreen.cell i = s.cell i := by rw [cell, setScreen, cell]

theorem cell_setCursor (s : State) (i : ℕ) : s.setCursor.cell i = s.cell i := by rw [cell, setCursor, cell]

theorem cell_moveTo (s : State) (screen cursor i : ℕ) : (s.moveTo screen cursor).cell i = s.cell i := by
  rw [cell, moveTo, cell]

theorem cell_putCell (s : State) (i j v : ℕ) : (s.putCell i v).cell j = if j = i then v % 65536 else s.cell j := by
  rw [cell, putCell]
  split_ifs with h
  · rw [h, getU16_putU16_self]
  · rw [getU16_putU16_of_disjoint _ _ (by omega), cell]

theorem cell_putCells (v : ℕ) (n i : ℕ) (s : State) (j : ℕ) :
    (putCells v n i s).cell j = if i ≤ j ∧ j < i + n then v % 65536 else s.cell j := by
  induction n generalizing i s with
  | zero => rw [putCells, if_neg (by omega)]
  | succ n ih =>
    rw [putCells, ih, cell_putCell]
    split_ifs <;> first | rfl | omega

/-- The loop changes the memory only. -/
theorem putCells_eq (v n i : ℕ) (s : State) : putCells v n i s =
    { s with mem := (putCells v n i s).mem, accesses := (putCells v n i s).accesses } := by
  induction n generalizing i s with
  | zero => rfl
  | succ n ih =>
    rw [putCells, ih]
    rfl

/-- `memcpy` of whole cells. -/
theorem cell_memcpy (s : State) {dest src count d e n : ℕ} (hdest : dest = memBase + 2 * d)
    (hsrc : src = memBase + 2 * e) (hcount : count = 2 * n) (j : ℕ) :
    (s.memcpy dest src count).cell j = if d ≤ j ∧ j < d + n then s.cell (e + (j - d)) else s.cell j := by
  subst hdest hsrc hcount
  rw [cell, memcpy]
  simp only
  split_ifs with h
  · have hplace : memBase + 2 * e + (memBase + 2 * j - (memBase + 2 * d)) = memBase + 2 * (e + (j - d)) := by omega
    rw [getU16_copy_of_mem _ _ (by omega) (by omega), cell, ← hplace]
    rfl
  · rw [getU16_copy_of_notMem _ _ (by omega), cell]

end Cells

/-! ### Accesses -/

/-- Every access is in the video memory. -/
def Within (s : State) : Prop := ∀ p ∈ s.accesses, memBase ≤ p.1 ∧ p.1 + p.2 ≤ memEnd

section Accesses

variable {s : State} {i n v : ℕ}

theorem within_setScreen : s.setScreen.Within ↔ s.Within := by rw [Within, setScreen, Within]

theorem within_setCursor : s.setCursor.Within ↔ s.Within := by rw [Within, setCursor, Within]

theorem within_moveTo {screen cursor : ℕ} : (s.moveTo screen cursor).Within ↔ s.Within := by
  rw [Within, moveTo, Within]

theorem within_putCell : (s.putCell i v).Within ↔ s.Within ∧ i < 8192 := by
  have hmem : memEnd = memBase + 16384 := rfl
  simp only [Within, putCell, List.forall_mem_append, List.forall_mem_singleton, hmem]
  refine and_congr_right fun _ => ?_
  omega

theorem within_putCells : (putCells v n i s).Within ↔ s.Within ∧ (n = 0 ∨ i + n ≤ 8192) := by
  induction n generalizing i s with
  | zero => simp [putCells]
  | succ n ih =>
    rw [putCells, ih, within_putCell, and_assoc]
    refine and_congr_right fun _ => ?_
    omega

theorem within_memcpy {dest src count d e : ℕ} (hdest : dest = memBase + 2 * d)
    (hsrc : src = memBase + 2 * e) (hcount : count = 2 * n) :
    (s.memcpy dest src count).Within ↔ s.Within ∧ e + n ≤ 8192 ∧ d + n ≤ 8192 := by
  have hmem : memEnd = memBase + 16384 := rfl
  subst hdest hsrc hcount
  simp only [Within, memcpy, List.forall_mem_append, List.forall_mem_cons, List.not_mem_nil, false_imp_iff,
    implies_true, and_true, hmem]
  refine and_congr_right fun _ => ?_
  omega

end Accesses

/-! ### The window -/

/-- The window is the `k`-th, and the cursor its cell number `q`. -/
structure At (s : State) (k q : ℕ) : Prop where
  screen_eq : s.screen = 2080 * k
  cursor_eq : s.cursor = 2080 * k + q
  x_eq : s.x = q % 80
  y_eq : s.y = q / 80
  start_eq : s.start = s.screen
  place_eq : s.place = s.cursor
  window_lt : k < 4
  cursor_lt : q < 2000

/-- The window after this one. -/
def nextWindow (k : ℕ) : ℕ := if k < 3 then k + 1 else 0

section Window

variable {s : State} {k q : ℕ}

theorem start_setScreen (h : s.screen < 65536) : s.setScreen.start = s.setScreen.screen := by
  rw [setScreen]
  exact crtWord_of_lt h

/-- `set_cursor` of a cursor in the window. -/
theorem at_setCursor (hscreen : s.screen = 2080 * k) (hcursor : s.cursor = 2080 * k + q) (hstart : s.start = s.screen)
    (hk : k < 4) (hq : q < 2000) : s.setCursor.At k q := by
  have hdelta : s.cursor - s.screen = q := by omega
  have hplace : crtWord s.cursor = s.cursor := crtWord_of_lt (by omega)
  refine ⟨hscreen, hcursor, ?_, ?_, hstart, hplace, hk, hq⟩
  · rw [setCursor, hdelta, width]
  · rw [setCursor, hdelta, width]

/-- **`command_cr`**: the first cell of the row. -/
theorem At.commandCr (h : s.At k q) : s.commandCr.At k (q - q % 80) := by
  have hq := h.cursor_lt
  have hcursor : s.cursor - s.x = 2080 * k + (q - q % 80) := by
    rw [h.cursor_eq, h.x_eq]
    omega
  exact at_setCursor h.screen_eq hcursor h.start_eq h.window_lt (by omega)

theorem At.putCells (h : s.At k q) (v n i : ℕ) : (State.putCells v n i s).At k q := by
  rw [putCells_eq]
  exact ⟨h.screen_eq, h.cursor_eq, h.x_eq, h.y_eq, h.start_eq, h.place_eq, h.window_lt, h.cursor_lt⟩

/-- The number of the next window is the test of `scroll_up`. -/
theorem scrollUp_eq (h : s.At k q) : s.scrollUp =
    ((s.memcpy (memBase + 2 * (2080 * nextWindow k)) (memBase + 2 * (2080 * k + 80)) (2 * 1920)).moveTo
      (2080 * nextWindow k) (2080 * nextWindow k + q)).consoleClearline.setScreen.setCursor := by
  have hk := h.window_lt
  have hsrc : memBase + s.screen * 2 + rowSize = memBase + 2 * (2080 * k + 80) := by
    rw [h.screen_eq, rowSize, width]
    omega
  have hcount : scrSize - rowSize = 2 * 1920 := rfl
  rw [scrollUp, hsrc, hcount, nextWindow]
  by_cases hlt : k < 3
  · have hroom : consolePageSize * 2 + s.screen * 2 + rowSize < memSize := by
      rw [h.screen_eq, consolePageSize, rowSize, width, memSize]
      omega
    have hdest : memBase + consolePageSize * 2 + s.screen * 2 = memBase + 2 * (2080 * (k + 1)) := by
      rw [h.screen_eq, consolePageSize]
      omega
    have hscreen : s.screen + consolePageSize = 2080 * (k + 1) := by
      rw [h.screen_eq, consolePageSize]
      omega
    have hcursor : s.cursor + consolePageSize = 2080 * (k + 1) + q := by
      rw [h.cursor_eq, consolePageSize]
      omega
    rw [if_pos hroom, if_pos hlt, hdest]
    simp only [memcpy, hscreen, hcursor]
  · have hroom : ¬consolePageSize * 2 + s.screen * 2 + rowSize < memSize := by
      rw [h.screen_eq, consolePageSize, rowSize, width, memSize]
      omega
    have hcursor : s.cursor - s.screen = 2080 * 0 + q := by
      rw [h.cursor_eq, h.screen_eq]
      omega
    rw [if_neg hroom, if_neg hlt]
    simp only [memcpy, hcursor, Nat.mul_zero, Nat.add_zero]

theorem nextWindow_lt (k : ℕ) : nextWindow k < 4 := by
  unfold nextWindow
  split_ifs <;> omega

/-- **`scroll_up`** goes to the next window. -/
theorem At.scrollUp (h : s.At k q) : s.scrollUp.At (nextWindow k) q := by
  have hk := nextWindow_lt k
  have hstart : crtWord (2080 * nextWindow k) = 2080 * nextWindow k := crtWord_of_lt (by omega)
  rw [scrollUp_eq h, consoleClearline, putCells_eq]
  exact at_setCursor rfl rfl hstart hk h.cursor_lt

/-- **The rows after `scroll_up`**: all but the last are the ones below, and the last is blank from the cursor
on. -/
theorem cell_scrollUp (h : s.At k q) (hrow : 1920 ≤ q) {j : ℕ} (hj : j < 2000) :
    s.scrollUp.cell (2080 * nextWindow k + j) = if j < 1920 then s.cell (2080 * k + 80 + j)
      else if j < q then s.cell (2080 * nextWindow k + j) else crtBlock := by
  rw [scrollUp_eq h, cell_setCursor, cell_setScreen, consoleClearline, cell_putCells, cell_moveTo, moveTo,
    cell_memcpy s rfl rfl rfl, Nat.add_sub_cancel_left, width]
  simp only
  by_cases hcopied : j < 1920
  · rw [if_neg (by omega), if_pos (by omega), if_pos hcopied]
  · rw [if_neg hcopied]
    by_cases hleft : j < q
    · rw [if_neg (by omega), if_neg (by omega), if_pos hleft]
    · rw [if_pos (by omega), if_neg hleft]
      rfl

/-- **The accesses of `scroll_up`** are in the memory when the window was the first or the second. -/
theorem within_scrollUp (h : s.At k q) (hrow : 1920 ≤ q) : s.scrollUp.Within ↔ s.Within ∧ k ≤ 1 := by
  have hk := h.window_lt
  have hq := h.cursor_lt
  rw [scrollUp_eq h, within_setCursor, within_setScreen, consoleClearline, within_putCells, within_moveTo,
    within_memcpy rfl rfl rfl, moveTo, width, nextWindow, and_assoc]
  refine and_congr_right fun _ => ?_
  simp only
  have hwidth : ¬80 = 0 := by decide
  rw [or_iff_right hwidth]
  split_ifs <;> omega

theorem cell_commandCr (s : State) (i : ℕ) : s.commandCr.cell i = s.cell i := by
  rw [State.commandCr, cell_setCursor, cell, cell]

theorem commandLf_of_last (h : s.At k q) (hrow : 1920 ≤ q) : s.commandLf = s.scrollUp := by
  rw [State.commandLf, h.y_eq, height, if_neg (by omega)]

/-- **`command_lf`** goes to the cell below, or stays in the last row of the next window. -/
theorem At.commandLf (h : s.At k q) :
    s.commandLf.At (if q < 1920 then k else nextWindow k) (if q < 1920 then q + 80 else q) := by
  have hq := h.cursor_lt
  rw [State.commandLf, h.y_eq, height]
  by_cases hrow : q < 1920
  · have hcursor : s.cursor + width = 2080 * k + (q + 80) := by rw [h.cursor_eq, width, Nat.add_assoc]
    rw [if_pos (by omega), if_pos hrow, if_pos hrow]
    exact at_setCursor h.screen_eq hcursor h.start_eq h.window_lt (by omega)
  · rw [if_neg (by omega), if_neg hrow, if_neg hrow]
    exact h.scrollUp

theorem within_commandLf (h : s.At k q) : s.commandLf.Within ↔ s.Within ∧ (1920 ≤ q → k ≤ 1) := by
  have hq := h.cursor_lt
  rw [State.commandLf, h.y_eq, height]
  by_cases hrow : q < 1920
  · rw [if_pos (by omega), within_setCursor]
    exact ⟨fun hwithin => ⟨hwithin, fun hle => absurd hrow (Nat.not_lt.mpr hle)⟩, And.left⟩
  · rw [if_neg (by omega), within_scrollUp h (Nat.not_lt.mp hrow)]
    exact and_congr_right fun _ => ⟨fun hk _ => hk, fun hk => hk (Nat.not_lt.mp hrow)⟩

theorem within_commandCr : s.commandCr.Within ↔ s.Within := by
  rw [State.commandCr, within_setCursor]
  exact Iff.rfl

end Window

/-! ### A byte -/

/-- A byte that is shown as a character. -/
def Ordinary (ch : Byte) : Prop := ch ≠ nul ∧ ch ≠ lf ∧ ch ≠ cr ∧ ch ≠ bs ∧ ch ≠ del ∧ ch ≠ ff

/-- **The byte makes the console scroll**: it goes below the last row. -/
def Scrolls (s : State) (ch : Byte) : Prop :=
  s.y + 1 = height ∧ (ch = lf ∨ ch = ff ∨ Ordinary ch ∧ s.x + 1 = width)

section Byte

variable {s : State} {k q : ℕ} {ch : Byte}

/-- The cases of `console_write`. -/
theorem writeByte_cases (P : State → Prop) (hnul : ch = nul → P s) (hlf : ch = lf → P s.commandCr.commandLf)
    (hcr : ch = cr → P s.commandCr) (hbs : ch = bs → P s.commandBs) (hdel : ch = del → P s.commandDel)
    (hff : ch = ff → P s.commandLf) (hchar : Ordinary ch → P (s.writeChar ch)) : P (s.writeByte ch) := by
  rw [writeByte]
  split_ifs with h₁ h₂ h₃ h₄ h₅ h₆
  · exact hnul h₁
  · exact hlf h₂
  · exact hcr h₃
  · exact hbs h₄
  · exact hdel h₅
  · exact hff h₆
  · exact hchar ⟨h₁, h₂, h₃, h₄, h₅, h₆⟩

theorem scrolls_command (h : s.At k q) (hch : ch = lf ∨ ch = ff) : Scrolls s ch ↔ 1920 ≤ q := by
  have hq := h.cursor_lt
  have hbyte : ch = lf ∨ ch = ff ∨ Ordinary ch ∧ s.x + 1 = width := hch.imp_right .inl
  rw [Scrolls, h.y_eq, height, and_iff_left hbyte]
  omega

theorem scrolls_ordinary (h : s.At k q) (hch : Ordinary ch) : Scrolls s ch ↔ q = 1999 := by
  have hq := h.cursor_lt
  rw [Scrolls, or_iff_right hch.2.1, or_iff_right hch.2.2.2.2.2, and_iff_right hch, h.x_eq, h.y_eq, height, width]
  omega

theorem not_scrolls (hch : ch = nul ∨ ch = cr ∨ ch = bs ∨ ch = del) : ¬Scrolls s ch := by
  rintro ⟨-, h | h | ⟨h, -⟩⟩
  · rcases hch with rfl | rfl | rfl | rfl <;> exact absurd h (by decide)
  · rcases hch with rfl | rfl | rfl | rfl <;> exact absurd h (by decide)
  · obtain ⟨h₁, -, h₂, h₃, h₄, -⟩ := h
    exact hch.elim h₁ fun hch => hch.elim h₂ fun hch => hch.elim h₃ h₄

theorem At.putCell (h : s.At k q) (i v : ℕ) : (s.putCell i v).At k q := by
  rw [State.putCell]
  exact ⟨h.screen_eq, h.cursor_eq, h.x_eq, h.y_eq, h.start_eq, h.place_eq, h.window_lt, h.cursor_lt⟩

/-- **A character** goes to the next cell, from the last one of the window to the beginning of the last row of the
next window. -/
theorem At.writeChar (h : s.At k q) (ch : Byte) :
    (s.writeChar ch).At (if q < 1999 then k else nextWindow k) (if q < 1999 then q + 1 else 1920) := by
  have hput := h.putCell s.cursor (attributed ch)
  have hq := h.cursor_lt
  rw [State.writeChar, hput.cursor_eq, hput.screen_eq]
  by_cases hlast : q < 1999
  · rw [if_neg (by omega), if_pos hlast, if_pos hlast]
    exact at_setCursor rfl (Nat.add_assoc _ _ _) (hput.start_eq.trans hput.screen_eq) h.window_lt (by omega)
  · have hlf := hput.commandCr.commandLf
    rw [if_neg (by omega), if_neg (by omega)] at hlf
    rw [if_pos (by omega), if_neg hlast, if_neg hlast]
    have hlastRow : q - q % 80 = 1920 := by omega
    rwa [hlastRow] at hlf

/-- `command_bs` goes to the cell before, but not in the first column. -/
theorem At.commandBs (h : s.At k q) : s.commandBs.At k (if q % 80 = 0 then q else q - 1) := by
  have hq := h.cursor_lt
  rw [State.commandBs, h.x_eq]
  by_cases hx : q % 80 = 0
  · rw [if_neg (not_not.mpr hx), if_pos hx]
    exact h
  · have hcursor : s.cursor - 1 = 2080 * k + (q - 1) := by
      rw [h.cursor_eq]
      omega
    rw [if_pos hx, if_neg hx]
    exact at_setCursor (q := q - 1) h.screen_eq hcursor h.start_eq h.window_lt (by omega)

/-- **The cursor stays in the window**, which goes on with a byte that makes the console scroll. -/
theorem At.writeByte (h : s.At k q) (ch : Byte) :
    ∃ k' q', (s.writeByte ch).At k' q' ∧ (k' = k ∨ k' = nextWindow k ∧ Scrolls s ch) := by
  have hq := h.cursor_lt
  have hbottom : 1920 ≤ q → s.y + 1 = height := fun hrow => by
    rw [h.y_eq, height]
    omega
  refine writeByte_cases (fun t => ∃ k' q', t.At k' q' ∧ (k' = k ∨ k' = nextWindow k ∧ Scrolls s ch))
    (fun _ => ⟨k, q, h, .inl rfl⟩) (fun hch => ?_) (fun _ => ⟨k, _, h.commandCr, .inl rfl⟩)
    (fun _ => ⟨k, _, h.commandBs, .inl rfl⟩) (fun _ => ⟨k, q, h.putCell _ _, .inl rfl⟩) (fun hch => ?_) (fun hch => ?_)
  · refine ⟨_, _, h.commandCr.commandLf, ?_⟩
    split_ifs with hrow
    · exact .inl rfl
    · exact .inr ⟨rfl, hbottom (by omega), .inl hch⟩
  · refine ⟨_, _, h.commandLf, ?_⟩
    split_ifs with hrow
    · exact .inl rfl
    · exact .inr ⟨rfl, hbottom (by omega), .inr (.inl hch)⟩
  · refine ⟨_, _, h.writeChar ch, ?_⟩
    split_ifs with hlast
    · exact .inl rfl
    · have hx : s.x + 1 = width := by
        rw [h.x_eq, width]
        omega
      exact .inr ⟨rfl, hbottom (by omega), .inr (.inr ⟨hch, hx⟩)⟩

theorem within_writeChar (h : s.At k q) (hk : k ≤ 2) (ch : Byte) :
    (s.writeChar ch).Within ↔ s.Within ∧ (q = 1999 → k ≤ 1) := by
  have hput := h.putCell s.cursor (attributed ch)
  have hq := h.cursor_lt
  have hcell : (s.putCell s.cursor (attributed ch)).Within ↔ s.Within := by
    rw [within_putCell, h.cursor_eq]
    exact and_iff_left (by omega)
  rw [State.writeChar, hput.cursor_eq, hput.screen_eq]
  by_cases hlast : q = 1999
  · rw [if_pos (by omega), within_commandLf hput.commandCr, within_commandCr, hcell]
    refine and_congr_right fun _ => ⟨fun hk _ => hk (by omega), fun hk _ => hk hlast⟩
  · rw [if_neg (by omega), within_setCursor, within_moveTo, hcell]
    exact ⟨fun hwithin => ⟨hwithin, fun heq => absurd heq hlast⟩, And.left⟩

/-- **The accesses of a byte** are in the memory, in one of the first three windows, unless it makes the console scroll from the
third. -/
theorem within_writeByte (h : s.At k q) (hk : k ≤ 2) (ch : Byte) :
    (s.writeByte ch).Within ↔ s.Within ∧ (Scrolls s ch → k ≤ 1) := by
  have hq := h.cursor_lt
  have hstay : ¬Scrolls s ch → (s.Within ↔ s.Within ∧ (Scrolls s ch → k ≤ 1)) := fun hno =>
    ⟨fun hwithin => ⟨hwithin, fun hyes => absurd hyes hno⟩, And.left⟩
  refine writeByte_cases (fun t => t.Within ↔ s.Within ∧ (Scrolls s ch → k ≤ 1)) (fun hch => ?_) (fun hch => ?_)
    (fun hch => ?_) (fun hch => ?_) (fun hch => ?_) (fun hch => ?_) (fun hch => ?_)
  · exact hstay (not_scrolls (.inl hch))
  · rw [within_commandLf h.commandCr, within_commandCr, scrolls_command h (.inl hch)]
    refine and_congr_right fun _ => imp_congr_left ?_
    omega
  · rw [within_commandCr]
    exact hstay (not_scrolls (.inr (.inl hch)))
  · rw [commandBs]
    split_ifs with hx
    · rw [within_setCursor, within_putCell, and_iff_left]
      · exact hstay (not_scrolls (.inr (.inr (.inl hch))))
      · simp only
        rw [h.cursor_eq]
        omega
    · exact hstay (not_scrolls (.inr (.inr (.inl hch))))
  · rw [commandDel, within_putCell, and_iff_left]
    · exact hstay (not_scrolls (.inr (.inr (.inr hch))))
    · rw [h.cursor_eq]
      omega
  · rw [within_commandLf h, scrolls_command h (.inr hch)]
  · rw [within_writeChar h hk, scrolls_ordinary h hch]

end Byte

/-! ### Calls -/

section Calls

theorem writeLoop_eq (nr : ℕ) (buf : List Byte) (s : State) :
    writeLoop nr buf s = (u32 (nr + buf.length + 1), buf.foldl writeByte s) := by
  induction buf generalizing nr s with
  | nil => rfl
  | cons ch buf ih =>
    rw [writeLoop, ih, List.length_cons, List.foldl_cons]
    refine Prod.ext ?_ rfl
    simp only [u32]
    omega

/-- **The calls** write the stream of their bytes. -/
theorem writeAll_eq (s : State) (calls : List (List Byte)) : s.writeAll calls = calls.flatten.foldl writeByte s := by
  induction calls generalizing s with
  | nil => rfl
  | cons buf calls ih =>
    rw [List.flatten_cons, List.foldl_append, ← ih]
    exact congrArg (fun p => writeAll p.2 calls) (writeLoop_eq 0 buf s)

theorem at_cleared (mem : Bytes) : (cleared mem).At 0 0 := by
  have hscreen : 0 < 65536 := by decide
  rw [cleared, consoleClear]
  exact (at_setCursor (k := 0) (q := 0) rfl rfl (start_setScreen hscreen) (by decide) (by decide)).putCells _ _ _

theorem within_cleared (mem : Bytes) : (cleared mem).Within := by
  rw [cleared, consoleClear, within_putCells, within_setCursor, within_setScreen]
  exact ⟨fun p hp => absurd hp List.not_mem_nil, .inr (by decide)⟩

/-- **The accesses are in the video memory, and the cursor is in the window.** -/
def InBounds (s : State) : Prop := s.Within ∧ s.screen ≤ s.cursor ∧ s.cursor < s.screen + width * height

/-- **The window after the next one ends in the memory**, when the byte makes the console scroll. -/
def Guarded (s : State) (ch : Byte) : Prop := Scrolls s ch → (s.screen + consolePageSize) * 2 + scrSize ≤ memSize

/-- The window is one of the first three. -/
def Inv (s : State) : Prop := ∃ k q, s.At k q ∧ k ≤ 2 ∧ s.Within

variable {s : State} {ch : Byte}

theorem At.inBounds_iff {k q : ℕ} (h : s.At k q) : s.InBounds ↔ s.Within := by
  have hq := h.cursor_lt
  rw [InBounds, h.cursor_eq, h.screen_eq, width, height]
  exact and_iff_left ⟨by omega, by omega⟩

theorem Inv.inBounds (h : s.Inv) : s.InBounds := by
  obtain ⟨k, q, hat, -, hwithin⟩ := h
  exact hat.inBounds_iff.mpr hwithin

theorem At.guarded_iff {k q : ℕ} (h : s.At k q) : s.Guarded ch ↔ (Scrolls s ch → k ≤ 1) := by
  rw [Guarded, h.screen_eq, consolePageSize, scrSize, rowSize, width, height, memSize]
  refine imp_congr_right fun _ => ?_
  omega

/-- **A byte keeps the bounds** exactly when it does not make the console scroll from the third window. -/
theorem Inv.inBounds_writeByte (h : s.Inv) : (s.writeByte ch).InBounds ↔ s.Guarded ch := by
  obtain ⟨k, q, hat, hk, hwithin⟩ := h
  obtain ⟨k', q', hat', -⟩ := hat.writeByte ch
  rw [hat'.inBounds_iff, within_writeByte hat hk, hat.guarded_iff, and_iff_right hwithin]

theorem Inv.writeByte (h : s.Inv) (hbounds : (s.writeByte ch).InBounds) : (s.writeByte ch).Inv := by
  have hguarded := h.inBounds_writeByte.mp hbounds
  obtain ⟨k, q, hat, hk, hwithin⟩ := h
  obtain ⟨k', q', hat', hnext⟩ := hat.writeByte ch
  refine ⟨k', q', hat', ?_, hat'.inBounds_iff.mp hbounds⟩
  rcases hnext with rfl | ⟨rfl, hscrolls⟩
  · exact hk
  · have hle := hat.guarded_iff.mp hguarded hscrolls
    rw [nextWindow]
    split_ifs
    · omega
    · exact Nat.zero_le _

/-- **The bounds of the console over every run** of calls after `console_clear`: after every byte all accesses have been in the
video memory, and the cursor is in the window, exactly when no byte made the console scroll into a window that ends behind the
memory. -/
theorem writeAll_inBounds_iff (mem : Bytes) (calls : List (List Byte)) :
    (∀ calls', calls'.flatten <+: calls.flatten → ((cleared mem).writeAll calls').InBounds) ↔
      ∀ calls' ch, calls'.flatten ++ [ch] <+: calls.flatten → ((cleared mem).writeAll calls').Guarded ch := by
  have hinv : (cleared mem).Inv := ⟨0, 0, at_cleared mem, by decide, within_cleared mem⟩
  have hstream : (∀ pre, pre <+: calls.flatten → (pre.foldl State.writeByte (cleared mem)).InBounds) ↔
      ∀ pre ch, pre ++ [ch] <+: calls.flatten → (pre.foldl State.writeByte (cleared mem)).Guarded ch :=
    Stream.forall_prefix_iff Inv (fun _ => Inv.inBounds) (fun _ _ => Inv.inBounds_writeByte)
      (fun _ _ => Inv.writeByte) calls.flatten (cleared mem) hinv
  simp only [writeAll_eq]
  rwa [Stream.forall_flatten (P := fun pre => pre <+: calls.flatten → (pre.foldl State.writeByte (cleared mem)).InBounds),
    Stream.forall_flatten (P := fun pre => ∀ ch, pre ++ [ch] <+: calls.flatten →
      (pre.foldl State.writeByte (cleared mem)).Guarded ch)]

/-- Line feeds go down to the last row, and then from window to window. -/
theorem at_lineFeeds (mem : Bytes) {n : ℕ} (hn : n ≤ 26) :
    ((List.replicate n lf).foldl State.writeByte (cleared mem)).At (n - 24) (80 * min n 24) := by
  induction n with
  | zero =>
    rw [List.replicate_zero, List.foldl_nil, Nat.zero_sub, Nat.zero_min, Nat.mul_zero]
    exact at_cleared mem
  | succ n ih =>
    have hlf := (ih (by omega)).commandCr.commandLf
    rw [List.replicate_succ', List.foldl_append, List.foldl_cons, List.foldl_nil]
    have hwindow : (if 80 * min n 24 - 80 * min n 24 % 80 < 1920 then n - 24 else nextWindow (n - 24)) = n + 1 - 24 := by
      rw [nextWindow]
      split_ifs <;> omega
    have hplace : (if 80 * min n 24 - 80 * min n 24 % 80 < 1920 then 80 * min n 24 - 80 * min n 24 % 80 + 80
        else 80 * min n 24 - 80 * min n 24 % 80) = 80 * min (n + 1) 24 := by
      split_ifs <;> omega
    rw [hwindow, hplace] at hlf
    exact hlf

/-- **The wrong cells**: the twenty-seventh line feed makes the console scroll for the third time, and erases cells behind the
end of the memory. -/
theorem writeAll_outOfBounds : ¬∀ calls' : List (List Byte), calls'.flatten <+: [List.replicate 27 lf].flatten →
    ((cleared fun _ => 0#8).writeAll calls').InBounds := by
  intro h
  have hat := at_lineFeeds (fun _ => 0#8) (n := 26) le_rfl
  obtain ⟨k', q', hat', -⟩ := hat.writeByte lf
  have hbounds := h [List.replicate 27 lf] (List.prefix_rfl)
  rw [writeAll_eq, List.flatten_singleton, List.replicate_succ', List.foldl_append, List.foldl_cons,
    List.foldl_nil] at hbounds
  have hwithin := (within_writeByte hat (by decide) lf).mp (hat'.inBounds_iff.mp hbounds)
  have hrow : 1920 ≤ 80 * min 26 24 := by omega
  have hle := hwithin.2 ((scrolls_command hat (.inl rfl)).mpr hrow)
  omega

end Calls

end State

end Console

end Onixs
