import Onixs.Kernel.Console

/-!
# The console as a terminal

A terminal of 25 rows of 80 cells, and the console as an implementation of it. The console shows the terminal
after every byte exactly when no byte above 127 is shown, whose sign `console_write` spreads over the attribute, and no
form feed scrolls from behind cells that are not blank, since `console_clearline` begins at the cursor
(`Onixs.consoleRun_iff`). The number that `console_write` returns is one too many in every call.
-/

namespace Onixs

open Console Console.State

/-- A terminal. -/
structure Terminal where
  /-- The cells, by row and column. -/
  cells : ℕ → ℕ → ℕ
  /-- The row of the cursor. -/
  row : ℕ
  /-- The column of the cursor. -/
  col : ℕ

namespace Terminal

/-- A cell becomes `v`. -/
def put (t : Terminal) (v : ℕ) : Terminal :=
  { t with cells := fun r c => if r = t.row ∧ c = t.col then v else t.cells r c }

/-- A row down. Below the last row, all rows move up by one and the new last row is blank. -/
def down (t : Terminal) : Terminal :=
  if t.row + 1 < height then { t with row := t.row + 1 }
  else { t with cells := fun r c => if r + 1 < height then t.cells (r + 1) c else crtBlock }

/-- The first column. -/
def home (t : Terminal) : Terminal := { t with col := 0 }

/-- The cell to the left becomes blank, if there is one. -/
def back (t : Terminal) : Terminal := if 0 < t.col then { t with col := t.col - 1 }.put crtBlock else t

/-- The next cell, with wrap. -/
def advance (t : Terminal) : Terminal := if t.col + 1 < width then { t with col := t.col + 1 } else t.home.down

/-- A byte. -/
def feed (t : Terminal) (ch : Byte) : Terminal :=
  if ch = nul then t
  else if ch = lf then t.home.down
  else if ch = cr then t.home
  else if ch = bs then t.back
  else if ch = del then t.put crtBlock
  else if ch = ff then t.down
  else (t.put (crtAttr <<< 8 ||| ch.toNat)).advance

/-- The terminal after `console_clear`. -/
def cleared : Terminal where
  cells := fun _ _ => crtAttr <<< 8 ||| 32
  row := 0
  col := 0

end Terminal

/-- **The console shows the terminal**, in the window and with the cursor of the CRT. -/
structure Shows (s : State) (t : Terminal) : Prop where
  row_lt : t.row < height
  col_lt : t.col < width
  place_eq : s.place = s.start + (width * t.row + t.col)
  cell_eq : ∀ r < height, ∀ c < width, s.cell (s.start + (width * r + c)) = t.cells r c

/-- The first cell of the window after `scroll_up`. -/
def nextScreen (s : State) : ℕ :=
  if consolePageSize * 2 + s.screen * 2 + rowSize < memSize then s.screen + consolePageSize else 0

/-- **The byte is shown as the terminal does**: it is no character above 127, and no form feed that scrolls from
behind cells that are not blank in the next window. -/
def Clean (s : State) (ch : Byte) : Prop :=
  (Ordinary ch → ch.toNat < 128) ∧
    (ch = ff → Scrolls s ch → ∀ j < s.x, s.cell (nextScreen s + width * (height - 1) + j) = crtBlock)

section Steps

variable {s : State} {t : Terminal} {k q : ℕ}

/-- The cells of a terminal, row after row. -/
def Terminal.line (t : Terminal) (j : ℕ) : ℕ := t.cells (j / 80) (j % 80)

/-- What is shown, by the place in the window. -/
theorem shows_at_iff (h : s.At k q) :
    Shows s t ↔ (t.row = q / 80 ∧ t.col = q % 80) ∧ ∀ j < 2000, s.cell (2080 * k + j) = t.line j := by
  have hq := h.cursor_lt
  constructor
  · rintro ⟨hrow, hcol, hplace, hcell⟩
    rw [h.place_eq, h.cursor_eq, h.start_eq, h.screen_eq, width] at hplace
    rw [width] at hcol
    refine ⟨by omega, fun j hj => ?_⟩
    have hline := hcell (j / 80) (Nat.div_lt_of_lt_mul hj) (j % 80) (Nat.mod_lt _ (by decide))
    rwa [h.start_eq, h.screen_eq, width, Nat.div_add_mod] at hline
  · rintro ⟨⟨hrow, hcol⟩, hline⟩
    refine ⟨?_, ?_, ?_, fun r hr c hc => ?_⟩
    · rw [hrow, height]
      omega
    · rw [hcol, width]
      omega
    · rw [h.place_eq, h.cursor_eq, h.start_eq, h.screen_eq, hrow, hcol, width, Nat.div_add_mod]
    · rw [height] at hr
      rw [width] at hc
      rw [h.start_eq, h.screen_eq, width, hline _ (by omega), Terminal.line]
      congr 1
      · omega
      · omega

theorem Terminal.line_put (v : ℕ) (hrow : t.row = q / 80) (hcol : t.col = q % 80) (j : ℕ) :
    (t.put v).line j = if j = q then v else t.line j := by
  have hplace : (j / 80 = t.row ∧ j % 80 = t.col) ↔ j = q := by omega
  rw [line, put]
  simp only [hplace, line]

/-- **A cell** is shown when what is stored is what it becomes. -/
theorem shows_putCell_iff (h : s.At k q) (hs : Shows s t) {v v' : ℕ} :
    Shows (s.putCell s.cursor v) (t.put v') ↔ v % 65536 = v' := by
  have hq := h.cursor_lt
  obtain ⟨⟨hrow, hcol⟩, hline⟩ := (shows_at_iff h).mp hs
  rw [shows_at_iff (h.putCell _ _)]
  constructor
  · rintro ⟨-, hcells⟩
    have hcell := hcells q hq
    rwa [cell_putCell, h.cursor_eq, if_pos rfl, Terminal.line_put v' hrow hcol, if_pos rfl] at hcell
  · rintro rfl
    refine ⟨⟨hrow, hcol⟩, fun j hj => ?_⟩
    rw [cell_putCell, h.cursor_eq, Terminal.line_put _ hrow hcol, hline j hj]
    simp only [Nat.add_left_cancel_iff]

/-- The rows of a terminal that goes below its last row. -/
theorem Terminal.line_down (hlast : ¬t.row + 1 < height) (j : ℕ) :
    t.down.line j = if j < 1920 then t.line (80 + j) else crtBlock := by
  have hnext : j / 80 + 1 = (80 + j) / 80 := by omega
  have hsame : j % 80 = (80 + j) % 80 := by omega
  have hrows : j / 80 + 1 < 25 ↔ j < 1920 := by omega
  rw [down, if_neg hlast, line, line, height]
  simp only [hrows]
  rw [hnext, hsame]

/-- The next cell but from the last. -/
theorem Terminal.advance_eq (hrow : t.row = q / 80) (hcol : t.col = q % 80) (hlast : q < 1999) :
    t.advance = { t with row := (q + 1) / 80, col := (q + 1) % 80 } := by
  rw [advance, hcol, width]
  by_cases hwrap : q % 80 + 1 < 80
  · have hrow' : t.row = (q + 1) / 80 := by omega
    have hcol' : q % 80 + 1 = (q + 1) % 80 := by omega
    rw [if_pos hwrap, hcol', ← hrow']
  · have hrow' : t.row + 1 = (q + 1) / 80 := by omega
    have hcol' : 0 = (q + 1) % 80 := by omega
    rw [if_neg hwrap, down, home, height]
    simp only
    rw [if_pos (by omega), hrow', ← hcol']

/-- **CR** is the first column. -/
theorem shows_commandCr (h : s.At k q) (hs : Shows s t) : Shows s.commandCr t.home := by
  obtain ⟨⟨hrow, hcol⟩, hline⟩ := (shows_at_iff h).mp hs
  refine (shows_at_iff h.commandCr).mpr ⟨⟨?_, ?_⟩, fun j hj => ?_⟩
  · rw [Terminal.home, hrow]
    omega
  · rw [Terminal.home]
    simp only
    omega
  · rw [cell_commandCr]
    exact hline j hj

/-- **A row down** is shown when the cells of the new last row that `console_clearline` leaves out are blank. -/
theorem shows_commandLf_iff (h : s.At k q) (hs : Shows s t) :
    Shows s.commandLf t.down ↔
      (1920 ≤ q → ∀ j < q - 1920, s.cell (2080 * nextWindow k + (1920 + j)) = crtBlock) := by
  have hq := h.cursor_lt
  obtain ⟨⟨hrow, hcol⟩, hline⟩ := (shows_at_iff h).mp hs
  rw [shows_at_iff h.commandLf]
  by_cases hlast : q < 1920
  · have hdown : t.down = { t with row := t.row + 1 } := by
      rw [Terminal.down, hrow, height, if_pos (by omega)]
    have hcells : ∀ i, s.commandLf.cell i = s.cell i := fun i => by
      rw [commandLf, h.y_eq, height, if_pos (by omega), cell_setCursor]
      rfl
    rw [if_pos hlast, if_pos hlast, hdown]
    refine iff_of_true ⟨⟨?_, ?_⟩, fun j hj => ?_⟩ fun hle => absurd hlast (Nat.not_lt.mpr hle)
    · simp only
      omega
    · simp only
      omega
    · rw [hcells]
      exact hline j hj
  · have hdown : t.down = { t with cells := fun r c => if r + 1 < height then t.cells (r + 1) c else crtBlock } := by
      rw [Terminal.down, hrow, height, if_neg (by omega)]
    have hlf := commandLf_of_last h (Nat.not_lt.mp hlast)
    have hlineDown := Terminal.line_down (t := t) (by rw [hrow, height]; omega)
    rw [if_neg hlast, if_neg hlast, hlf]
    constructor
    · rintro ⟨-, hcells⟩ - j hj
      have hcell := hcells (1920 + j) (by omega)
      rwa [cell_scrollUp h (Nat.not_lt.mp hlast) (by omega), hlineDown, if_neg (by omega), if_pos (by omega),
        if_neg (by omega)] at hcell
    · intro hblank
      refine ⟨⟨by rw [hdown]; exact hrow, by rw [hdown]; exact hcol⟩, fun j hj => ?_⟩
      rw [cell_scrollUp h (Nat.not_lt.mp hlast) hj, hlineDown]
      split_ifs with hcopied hleft
      · rw [Nat.add_assoc]
        exact hline _ (by omega)
      · have hcell := hblank (Nat.not_lt.mp hlast) (j - 1920) (by omega)
        rwa [Nat.add_sub_cancel' (Nat.not_lt.mp hcopied)] at hcell
      · rfl

/-- **The next cell** is shown. -/
theorem shows_advance (h : s.At k q) (hs : Shows s t) (hlast : q < 1999) :
    Shows (s.moveTo s.screen (s.cursor + 1)).setCursor t.advance := by
  obtain ⟨⟨hrow, hcol⟩, hline⟩ := (shows_at_iff h).mp hs
  have hat : (s.moveTo s.screen (s.cursor + 1)).setCursor.At k (q + 1) :=
    at_setCursor h.screen_eq (by rw [moveTo, h.cursor_eq, Nat.add_assoc]) h.start_eq h.window_lt (by omega)
  rw [Terminal.advance_eq hrow hcol hlast]
  refine (shows_at_iff hat).mpr ⟨⟨rfl, rfl⟩, fun j hj => ?_⟩
  rw [cell_setCursor, cell_moveTo]
  exact hline j hj

/-- **BS** erases the cell to the left, if there is one. -/
theorem shows_commandBs (h : s.At k q) (hs : Shows s t) :
    Shows s.commandBs t.back := by
  have hq := h.cursor_lt
  obtain ⟨⟨hrow, hcol⟩, hline⟩ := (shows_at_iff h).mp hs
  have hat := h.commandBs
  rw [commandBs, h.x_eq] at hat ⊢
  rw [Terminal.back, hcol]
  by_cases hx : q % 80 = 0
  · rw [if_neg (not_not.mpr hx), if_neg (by omega)]
    exact hs
  · rw [if_pos hx, if_neg hx] at hat
    rw [if_pos hx, if_pos (Nat.pos_of_ne_zero hx)]
    refine (shows_at_iff hat).mpr ⟨⟨?_, ?_⟩, fun j hj => ?_⟩
    · rw [Terminal.put]
      simp only
      omega
    · rw [Terminal.put]
      simp only
      omega
    · have hput := Terminal.line_put (t := { t with col := q % 80 - 1 }) (q := q - 1) crtBlock (by simp only; omega)
        (by simp only; omega) j
      rw [hput, cell_setCursor, cell_putCell, h.cursor_eq]
      have hplace : 2080 * k + j = 2080 * k + q - 1 ↔ j = q - 1 := by omega
      simp only [hplace]
      split_ifs
      · rfl
      · exact hline j hj

/-- **What is stored for a character** is what is shown, up to 127. -/
theorem attributed_eq_iff (ch : Byte) : attributed ch % 65536 = crtAttr <<< 8 ||| ch.toNat ↔ ch.toNat < 128 := by
  revert ch
  decide

/-- **LF** is the beginning of the next row. -/
theorem shows_lineFeed (h : s.At k q) (hs : Shows s t) : Shows s.commandCr.commandLf t.home.down := by
  have hq := h.cursor_lt
  exact (shows_commandLf_iff h.commandCr (shows_commandCr h hs)).mpr fun _ j hj => absurd hj (by omega)

/-- **A character** is shown exactly when it is not above 127. -/
theorem shows_writeChar_iff (h : s.At k q) (hs : Shows s t) (ch : Byte) :
    Shows (s.writeChar ch) (t.put (crtAttr <<< 8 ||| ch.toNat)).advance ↔ ch.toNat < 128 := by
  have hq := h.cursor_lt
  have hput := h.putCell s.cursor (attributed ch)
  have hshows : Shows (s.putCell s.cursor (attributed ch)) (t.put (crtAttr <<< 8 ||| ch.toNat)) ↔ _ :=
    shows_putCell_iff h hs
  obtain ⟨⟨hrow, hcol⟩, -⟩ := (shows_at_iff h).mp hs
  have hline := Terminal.line_put (crtAttr <<< 8 ||| ch.toNat) hrow hcol
  have hcell : (s.putCell s.cursor (attributed ch)).cell (2080 * k + q) = attributed ch % 65536 := by
    rw [cell_putCell, h.cursor_eq, if_pos rfl]
  have hat := h.writeChar ch
  rw [← attributed_eq_iff]
  rw [writeChar, hput.cursor_eq, hput.screen_eq] at hat ⊢
  by_cases hlast : q < 1999
  · rw [if_pos hlast, if_pos hlast, if_neg (by omega)] at hat
    rw [if_neg (by omega)]
    constructor
    · intro hfinal
      have hcells := ((shows_at_iff hat).mp hfinal).2 q hq
      rw [cell_setCursor, cell_moveTo, hcell,
        Terminal.advance_eq (t := t.put (crtAttr <<< 8 ||| ch.toNat)) hrow hcol hlast] at hcells
      exact hcells.trans ((hline q).trans (if_pos rfl))
    · intro heq
      have hnext := shows_advance hput (hshows.mpr heq) hlast
      rwa [hput.screen_eq, hput.cursor_eq] at hnext
  · rw [if_neg hlast, if_neg hlast, if_pos (by omega)] at hat
    have hadvance : (t.put (crtAttr <<< 8 ||| ch.toNat)).advance = (t.put (crtAttr <<< 8 ||| ch.toNat)).home.down := by
      rw [Terminal.advance, if_neg]
      change ¬t.col + 1 < 80
      omega
    rw [if_pos (by omega), hadvance]
    constructor
    · intro hfinal
      -- the character is now at the end of the row before the last
      have hcells := ((shows_at_iff hat).mp hfinal).2 1919 (by decide)
      have hbottom : ¬(t.put (crtAttr <<< 8 ||| ch.toNat)).home.row + 1 < height := by
        change ¬t.row + 1 < 25
        omega
      have hplace : 2080 * k + 80 + 1919 = 2080 * k + q := by omega
      have hend : 80 + 1919 = q := by omega
      rw [commandLf_of_last hput.commandCr (by omega), cell_scrollUp hput.commandCr (by omega) (by decide),
        if_pos (by decide), cell_commandCr, hplace, hcell, Terminal.line_down hbottom, if_pos (by decide), hend] at hcells
      exact hcells.trans ((hline q).trans (if_pos rfl))
    · exact fun heq => shows_lineFeed hput (hshows.mpr heq)

/-- A byte that is no character and no form feed is shown. -/
theorem clean_command {ch : Byte} (hch : ¬Ordinary ch) (hff : ch ≠ ff) : Clean s ch :=
  ⟨fun h => absurd h hch, fun h => absurd h hff⟩

/-- **A byte is shown** as the terminal does exactly when it is clean. -/
theorem shows_writeByte_iff (h : s.At k q) (hs : Shows s t) (ch : Byte) :
    Shows (s.writeByte ch) (t.feed ch) ↔ Clean s ch := by
  have hq := h.cursor_lt
  rw [writeByte, Terminal.feed]
  split_ifs with h₁ h₂ h₃ h₄ h₅ h₆
  · exact iff_of_true hs (clean_command (fun hch => hch.1 h₁) (h₁ ▸ by decide))
  · exact iff_of_true (shows_lineFeed h hs) (clean_command (fun hch => hch.2.1 h₂) (h₂ ▸ by decide))
  · exact iff_of_true (shows_commandCr h hs) (clean_command (fun hch => hch.2.2.1 h₃) (h₃ ▸ by decide))
  · exact iff_of_true (shows_commandBs h hs) (clean_command (fun hch => hch.2.2.2.1 h₄) (h₄ ▸ by decide))
  · exact iff_of_true ((shows_putCell_iff h hs).mpr rfl) (clean_command (fun hch => hch.2.2.2.2.1 h₅) (h₅ ▸ by decide))
  · have hx : s.x = q % 80 := h.x_eq
    have hnext : nextScreen s = 2080 * nextWindow k := by
      rw [nextScreen, nextWindow, h.screen_eq, consolePageSize, rowSize, width, memSize]
      split_ifs <;> omega
    have hrow : width * (height - 1) = 1920 := rfl
    rw [shows_commandLf_iff h hs, Clean, scrolls_command h (.inr h₆), hx, hnext, hrow]
    constructor
    · exact fun hblank => ⟨fun hch => absurd h₆ hch.2.2.2.2.2, fun _ hlast j hj => by
        rw [Nat.add_assoc]
        exact hblank hlast j (by omega)⟩
    · rintro ⟨-, hblank⟩ hlast j hj
      rw [← Nat.add_assoc]
      exact hblank h₆ hlast j (by omega)
  · rw [shows_writeChar_iff h hs, Clean]
    exact ⟨fun hlt => ⟨fun _ => hlt, fun hff => absurd hff h₆⟩, fun hclean => hclean.1 ⟨h₁, h₂, h₃, h₄, h₅, h₆⟩⟩

end Steps

/-! ### Runs -/

section Runs

/-- The terminal after a stream. -/
def Terminal.feedAll (t : Terminal) (bs : List Byte) : Terminal := bs.foldl Terminal.feed t

/-- Every call returned the number of bytes it was given. -/
def Returns (s : State) (calls : List (List Byte)) : Prop :=
  ∀ pre buf post, calls = pre ++ buf :: post → ((s.writeAll pre).consoleWrite buf).1 = buf.length

variable {mem : Bytes}

theorem shows_cleared (mem : Bytes) : Shows (State.cleared mem) Terminal.cleared := by
  refine (shows_at_iff (at_cleared mem)).mpr ⟨⟨rfl, rfl⟩, fun j hj => ?_⟩
  rw [State.cleared, consoleClear, cell_putCells, memSize, if_pos (by omega)]
  rfl

/-- The console and the terminal, fed with a byte. -/
def bothFeed (p : State × Terminal) (ch : Byte) : State × Terminal := (p.1.writeByte ch, p.2.feed ch)

/-- The console is in one of its windows and shows the terminal. -/
def Together (p : State × Terminal) : Prop := (∃ k q, p.1.At k q) ∧ Shows p.1 p.2

theorem together_of_at {s : State} {t : Terminal} {k q : ℕ} (hat : s.At k q) (hs : Shows s t) : Together (s, t) :=
  ⟨⟨k, q, hat⟩, hs⟩

theorem Together.shows_iff {p : State × Terminal} (h : Together p) (ch : Byte) :
    Shows (bothFeed p ch).1 (bothFeed p ch).2 ↔ Clean p.1 ch := by
  obtain ⟨⟨k, q, hat⟩, hshows⟩ := h
  exact shows_writeByte_iff hat hshows ch

theorem Together.feed {p : State × Terminal} {ch : Byte} (h : Together p)
    (hshows : Shows (bothFeed p ch).1 (bothFeed p ch).2) : Together (bothFeed p ch) := by
  obtain ⟨⟨k, q, hat⟩, -⟩ := h
  obtain ⟨k', q', hat', -⟩ := hat.writeByte ch
  exact ⟨⟨k', q', hat'⟩, hshows⟩

/-- The console shows the terminal after every byte exactly when every byte is clean. -/
theorem shows_writeAll_iff (mem : Bytes) (calls : List (List Byte)) :
    (∀ calls', calls'.flatten <+: calls.flatten →
      Shows ((State.cleared mem).writeAll calls') (Terminal.cleared.feedAll calls'.flatten)) ↔
      ∀ calls' ch, calls'.flatten ++ [ch] <+: calls.flatten → Clean ((State.cleared mem).writeAll calls') ch := by
  have hstart : Together (State.cleared mem, Terminal.cleared) :=
    together_of_at (at_cleared mem) (shows_cleared mem)
  have hstream : (∀ pre, pre <+: calls.flatten →
        Shows (pre.foldl bothFeed (State.cleared mem, Terminal.cleared)).1
          (pre.foldl bothFeed (State.cleared mem, Terminal.cleared)).2) ↔
      ∀ pre ch, pre ++ [ch] <+: calls.flatten → Clean (pre.foldl bothFeed (State.cleared mem, Terminal.cleared)).1 ch :=
    Stream.forall_prefix_iff Together (fun _ h => h.2) (fun _ ch h => h.shows_iff ch) (fun _ _ h => h.feed)
      calls.flatten (State.cleared mem, Terminal.cleared) hstart
  have hboth : ∀ pre : List Byte, pre.foldl bothFeed (State.cleared mem, Terminal.cleared) =
      (pre.foldl State.writeByte (State.cleared mem), pre.foldl Terminal.feed Terminal.cleared) := fun pre =>
    Stream.foldl_prod pre _ _
  simp only [hboth] at hstream
  simp only [writeAll_eq, Terminal.feedAll]
  rwa [Stream.forall_flatten (P := fun pre => pre <+: calls.flatten →
      Shows (pre.foldl State.writeByte (State.cleared mem)) (pre.foldl Terminal.feed Terminal.cleared)),
    Stream.forall_flatten (P := fun pre => ∀ ch, pre ++ [ch] <+: calls.flatten →
      Clean (pre.foldl State.writeByte (State.cleared mem)) ch)]

/-- `console_write` counts one more byte than it was given. -/
theorem consoleWrite_ne (s : State) (buf : List Byte) : (s.consoleWrite buf).1 ≠ buf.length := by
  rw [consoleWrite, writeLoop_eq]
  simp only [u32]
  omega

theorem returns_iff (s : State) (calls : List (List Byte)) : Returns s calls ↔ calls = [] := by
  constructor
  · intro h
    cases calls with
    | nil => rfl
    | cons buf calls => exact absurd (h [] buf calls rfl) (consoleWrite_ne _ _)
  · rintro rfl pre buf post h
    exact absurd h.symm (by simp)

/-- **The console against the terminal, over every run** of calls after `console_clear`: it shows the terminal after every
byte exactly when every byte is clean; and since no call returns the number of its bytes, it does what it should exactly
when it is not called. -/
theorem consoleRun_iff (mem : Bytes) (calls : List (List Byte)) :
    ((∀ calls', calls'.flatten <+: calls.flatten →
        Shows ((State.cleared mem).writeAll calls') (Terminal.cleared.feedAll calls'.flatten)) ↔
      ∀ calls' ch, calls'.flatten ++ [ch] <+: calls.flatten → Clean ((State.cleared mem).writeAll calls') ch) ∧
    (((∀ calls', calls'.flatten <+: calls.flatten →
        Shows ((State.cleared mem).writeAll calls') (Terminal.cleared.feedAll calls'.flatten)) ∧
      Returns (State.cleared mem) calls) ↔ calls = []) := by
  refine ⟨shows_writeAll_iff mem calls, fun h => (returns_iff _ _).mp h.2, ?_⟩
  rintro rfl
  refine ⟨(shows_writeAll_iff mem []).mpr fun calls' ch h => absurd (List.prefix_nil.mp h) (by simp), ?_⟩
  exact (returns_iff _ _).mpr rfl

/-- **The wrong cell and the wrong number**: a byte of 200 is shown with attribute 255, and a call with one byte returns two. -/
theorem consoleRun_wrong :
    ¬Shows ((State.cleared fun _ => 0#8).writeAll [[200#8]]) (Terminal.cleared.feedAll [200#8]) ∧
      ¬Returns (State.cleared fun _ => 0#8) [[65#8]] := by
  refine ⟨fun h => ?_, fun h => absurd ((returns_iff _ _).mp h) (by simp)⟩
  rw [writeAll_eq, List.flatten_singleton, List.foldl_cons, List.foldl_nil, Terminal.feedAll, List.foldl_cons,
    List.foldl_nil] at h
  have hclean := (shows_writeByte_iff (at_cleared fun _ => 0#8) (shows_cleared fun _ => 0#8) (200#8)).mp h
  have hordinary : Ordinary 200#8 := by
    unfold Ordinary
    decide
  exact absurd (hclean.1 hordinary) (by decide)

end Runs

end Onixs
