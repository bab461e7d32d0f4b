/-
  Uboot.Common.LcdConsole

  The console on an enabled display: `lcd_putc` of common/lcd.c, next to a reference terminal.

  The screen is a grid of cells, one for each character; a blank cell shows the background.
-/

import Mathlib.Logic.Function.Basic
import Uboot.Lib.Run

namespace Uboot.Common.LcdConsole

open Uboot.Lib

-- ============================================================================
-- The console
-- ============================================================================

/-- CONSOLE_ROWS and CONSOLE_COLS -/
structure Size where
  rows : Nat
  cols : Nat
  rows_pos : 0 < rows
  cols_pos : 0 < cols

/-- What a blank cell shows. -/
def blank : UInt8 := 0x20

/-- `console_row`, `console_col` and the cells of the screen, by row and column. -/
structure Console where
  row : Int
  col : Int
  cell : Int → Int → UInt8

variable (size : Size)

namespace Console

/-- `lcd_putc_xy`, at a cell. -/
def lcdPutcXy (c : Console) (ch : UInt8) : Console :=
  { c with cell := fun (row col : Int) => if row = c.row ∧ col = c.col then ch else c.cell row col }

/-- `console_scrollup` -/
def consoleScrollup (c : Console) : Console :=
  let copied := fun (row col : Int) => if 0 ≤ row ∧ row + 1 < (size.rows : Int) then c.cell (row + 1) col else c.cell row col
  { c with cell := fun row col => if row = (size.rows : Int) - 1 then blank else copied row col }

/-- `console_back` -/
def consoleBack (c : Console) : Console :=
  let c := { c with col := c.col - 1 }
  let c :=
    if c.col < 0 then
      let c := { c with col := (size.cols : Int) - 1, row := c.row - 1 }
      if c.row < 0 then { c with row := 0 } else c
    else c
  c.lcdPutcXy blank

/-- `console_newline` -/
def consoleNewline (c : Console) : Console :=
  let c := { c with row := c.row + 1, col := 0 }
  if c.row ≥ (size.rows : Int) then
    let c := c.consoleScrollup size
    { c with row := c.row - 1 }
  else c

/-- `lcd_putc` -/
def lcdPutc (c : Console) (ch : UInt8) : Console :=
  if ch = 0x0d then { c with col := 0 }
  else if ch = 0x0a then c.consoleNewline size
  else if ch = 0x09 then
    -- `console_col &= ~7`
    let c := { c with col := (c.col + 8) / 8 * 8 }
    if c.col ≥ (size.cols : Int) then c.consoleNewline size else c
  else if ch = 0x08 then c.consoleBack size
  else
    let c := c.lcdPutcXy ch
    let c := { c with col := c.col + 1 }
    if c.col ≥ (size.cols : Int) then c.consoleNewline size else c

end Console

-- ============================================================================
-- The reference terminal
-- ============================================================================

/-- A terminal whose cursor is on the screen. -/
structure Terminal where
  row : Fin size.rows
  col : Fin size.cols
  cell : Fin size.rows → Fin size.cols → UInt8

namespace Terminal

variable {size} (t : Terminal size)

def draw (ch : UInt8) : Terminal size :=
  { t with cell := fun row col => if row = t.row ∧ col = t.col then ch else t.cell row col }

def firstCol : Fin size.cols := ⟨0, size.cols_pos⟩

/-- The screen one line up. -/
def scroll : Terminal size :=
  { t with cell := fun row col => if h : row + 1 < size.rows then t.cell ⟨row + 1, h⟩ col else blank }

/-- To the start of the next line. -/
def newline : Terminal size :=
  if h : t.row + 1 < size.rows then { t with row := ⟨t.row + 1, h⟩, col := firstCol } else { t.scroll with col := firstCol }

/-- To a column of this line, or the next line where there is none. -/
def toCol (col : Nat) : Terminal size := if h : col < size.cols then { t with col := ⟨col, h⟩ } else t.newline

/-- To the cell before, if there is one. -/
def back : Terminal size :=
  if h : 0 < t.col.val then draw { t with col := ⟨t.col - 1, by omega⟩ } blank
  else if h : 0 < t.row.val then
    draw { t with row := ⟨t.row - 1, by omega⟩, col := ⟨size.cols - 1, Nat.sub_one_lt_of_lt size.cols_pos⟩ } blank
  else t

def putc (ch : UInt8) : Terminal size :=
  if ch = 0x0d then { t with col := firstCol }
  else if ch = 0x0a then t.newline
  else if ch = 0x09 then t.toCol ((t.col / 8 + 1) * 8)
  else if ch = 0x08 then t.back
  else (t.draw ch).toCol (t.col + 1)

end Terminal

/-- The console shows what the terminal has. -/
structure Shows {size : Size} (c : Console) (t : Terminal size) : Prop where
  row : c.row = t.row.val
  col : c.col = t.col.val
  cell : ∀ (row : Fin size.rows) (col : Fin size.cols), c.cell row.val col.val = t.cell row col

/-- The character is not a backspace in the home position; on a display with one column it may be,
    while the cell there is blank. -/
def NotBackAtHome {size : Size} (t : Terminal size) (ch : UInt8) : Prop :=
  ch = 0x08 → t.row.val = 0 → t.col.val = 0 → size.cols = 1 ∧ t.cell t.row t.col = blank

-- ============================================================================
-- A character
-- ============================================================================

section Step

variable {size} {c : Console} {t : Terminal size}

theorem shows_draw (h : Shows c t) (ch : UInt8) : Shows (c.lcdPutcXy ch) (t.draw ch) where
  row := h.row
  col := h.col
  cell row col := by
    have hat : ((row.val : Int) = c.row ∧ (col.val : Int) = c.col) ↔ row = t.row ∧ col = t.col := by
      rw [h.row, h.col, Fin.ext_iff, Fin.ext_iff]
      omega
    exact if_congr hat rfl (h.cell row col)

theorem shows_scroll (h : Shows c t) : Shows (c.consoleScrollup size) t.scroll where
  row := h.row
  col := h.col
  cell row col := by
    have hrow := row.isLt
    rw [Console.consoleScrollup, Terminal.scroll]
    dsimp only
    split
    · rw [dif_neg (by omega)]
    · rename_i hlast
      have hnext : row.val + 1 < size.rows := by omega
      rw [dif_pos hnext, if_pos (by omega)]
      exact h.cell ⟨row + 1, hnext⟩ col

/-- Behind the last line the screen moves up. -/
theorem shows_newline (hrow : c.row = t.row.val)
    (hcell : ∀ row col, c.cell (Fin.val row) (Fin.val col) = t.cell row col) :
    Shows (c.consoleNewline size) t.newline := by
  rw [Console.consoleNewline, Terminal.newline]
  dsimp only
  split
  · rename_i hlast
    rw [dif_neg (by omega)]
    have hscroll := shows_scroll (c := { row := t.row.val, col := t.col.val, cell := c.cell }) (t := t) ⟨rfl, rfl, hcell⟩
    refine ⟨?_, rfl, hscroll.cell⟩
    change c.row + 1 - 1 = t.row.val
    omega
  · rename_i hlast
    rw [dif_pos (by omega)]
    refine ⟨?_, rfl, hcell⟩
    change c.row + 1 = ((t.row.val + 1 : Nat) : Int)
    omega

theorem shows_toCol (hrow : c.row = t.row.val) (hcell : ∀ row col, c.cell (Fin.val row) (Fin.val col) = t.cell row col)
    {col : Nat} (hcol : c.col = col) :
    Shows (if c.col ≥ (size.cols : Int) then c.consoleNewline size else c) (t.toCol col) := by
  rw [Terminal.toCol]
  split
  · rw [dif_neg (by omega)]
    exact shows_newline hrow hcell
  · rw [dif_pos (by omega)]
    exact ⟨hrow, hcol, hcell⟩

/-- Back from another cell than the first one. -/
theorem shows_back (h : Shows c t) (hhome : t.row.val ≠ 0 ∨ t.col.val ≠ 0) : Shows (c.consoleBack size) t.back := by
  have hrow := h.row
  have hcol := h.col
  have hcols := size.cols_pos
  rw [Console.consoleBack, Terminal.back]
  dsimp only
  split
  · rename_i hfirst
    rw [dif_neg (by omega), dif_pos (by omega), if_neg (by omega)]
    apply shows_draw
    refine ⟨?_, ?_, h.cell⟩
    · dsimp only
      omega
    · dsimp only
      omega
  · rename_i hfirst
    rw [dif_pos (by omega)]
    apply shows_draw
    refine ⟨hrow, ?_, h.cell⟩
    dsimp only
    omega

/-- In the home position the console goes to the end of the first line. -/
theorem shows_back_home_iff (h : Shows c t) (hrow : t.row.val = 0) (hcol : t.col.val = 0) :
    Shows (c.consoleBack size) t.back ↔ size.cols = 1 ∧ t.cell t.row t.col = blank := by
  have hcrow := h.row
  have hccol := h.col
  have hcols := size.cols_pos
  rw [Console.consoleBack, Terminal.back, dif_neg (by omega), dif_neg (by omega)]
  dsimp only
  rw [if_pos (by omega), if_pos (by omega)]
  constructor
  · intro hback
    have hend : ((size.cols : Int) - 1) = t.col.val := hback.col
    have hcell := hback.cell t.row t.col
    refine ⟨by omega, hcell.symm.trans (if_pos ⟨?_, ?_⟩)⟩
    · exact congrArg Nat.cast hrow
    · exact hend.symm
  · rintro ⟨hone, hblank⟩
    refine ⟨?_, ?_, fun row col => ?_⟩
    · exact (congrArg Nat.cast hrow).symm
    · change ((size.cols : Int) - 1) = t.col.val
      omega
    · have hlast := col.isLt
      rw [Console.lcdPutcXy]
      dsimp only
      split
      · rename_i hat
        have hsame : row = t.row ∧ col = t.col := ⟨Fin.ext (by omega), Fin.ext (by omega)⟩
        rw [hsame.1, hsame.2, hblank]
      · exact h.cell row col

theorem shows_putc_iff (h : Shows c t) (ch : UInt8) : Shows (c.lcdPutc size ch) (t.putc ch) ↔ NotBackAtHome t ch := by
  have hother : ch ≠ 0x08 → (Shows (c.lcdPutc size ch) (t.putc ch) →
      (Shows (c.lcdPutc size ch) (t.putc ch) ↔ NotBackAtHome t ch)) :=
    fun hne hshows => iff_of_true hshows fun hback => absurd hback hne
  have hrow := h.row
  have hcol := h.col
  by_cases hcr : ch = 0x0d
  · apply hother (hcr ▸ by decide)
    rw [Console.lcdPutc, Terminal.putc, if_pos hcr, if_pos hcr]
    exact ⟨hrow, rfl, h.cell⟩
  by_cases hlf : ch = 0x0a
  · apply hother (hlf ▸ by decide)
    rw [Console.lcdPutc, Terminal.putc, if_neg hcr, if_neg hcr, if_pos hlf, if_pos hlf]
    exact shows_newline hrow h.cell
  by_cases htab : ch = 0x09
  · apply hother (htab ▸ by decide)
    rw [Console.lcdPutc, Terminal.putc, if_neg hcr, if_neg hcr, if_neg hlf, if_neg hlf, if_pos htab, if_pos htab]
    apply shows_toCol (c := { c with col := (c.col + 8) / 8 * 8 }) hrow h.cell
    dsimp only
    omega
  by_cases hbs : ch = 0x08
  · rw [Console.lcdPutc, Terminal.putc, if_neg hcr, if_neg hcr, if_neg hlf, if_neg hlf, if_neg htab, if_neg htab,
      if_pos hbs, if_pos hbs, NotBackAtHome]
    by_cases hhome : t.row.val = 0 ∧ t.col.val = 0
    · rw [shows_back_home_iff h hhome.1 hhome.2]
      exact ⟨fun hok _ _ _ => hok, fun hok => hok hbs hhome.1 hhome.2⟩
    · refine iff_of_true (shows_back h (by omega)) fun _ hr hc => absurd ⟨hr, hc⟩ hhome
  · apply hother hbs
    rw [Console.lcdPutc, Terminal.putc, if_neg hcr, if_neg hcr, if_neg hlf, if_neg hlf, if_neg htab, if_neg htab,
      if_neg hbs, if_neg hbs]
    have hdraw := shows_draw h ch
    apply shows_toCol (c := { c.lcdPutcXy ch with col := c.col + 1 }) hdraw.row hdraw.cell
    dsimp only
    omega

end Step

-- ============================================================================
-- All characters
-- ============================================================================

instance {size : Size} (t : Terminal size) (ch : UInt8) : Decidable (NotBackAtHome t ch) :=
  inferInstanceAs (Decidable (_ → _))

/-- The cursor is on the screen. -/
def Console.Inside (c : Console) : Prop := (0 ≤ c.row ∧ c.row < size.rows) ∧ 0 ≤ c.col ∧ c.col < size.cols

theorem inside_newline {size : Size} {c : Console} (hrow : 0 ≤ c.row ∧ c.row < size.rows) :
    (c.consoleNewline size).Inside size := by
  have hcols := size.cols_pos
  rw [Console.consoleNewline]
  dsimp only
  split
  · rw [Console.consoleScrollup, Console.Inside]
    dsimp only
    omega
  · rw [Console.Inside]
    dsimp only
    omega

/-- No character takes the cursor off the screen. -/
theorem inside_lcdPutc {size : Size} {c : Console} (h : c.Inside size) (ch : UInt8) :
    (c.lcdPutc size ch).Inside size := by
  have hrows := size.rows_pos
  have hcols := size.cols_pos
  have hrow := h.1
  have hcol := h.2
  rw [Console.lcdPutc]
  split
  · exact ⟨hrow, Int.le_refl 0, Int.ofNat_lt.mpr hcols⟩
  split
  · exact inside_newline hrow
  split
  · dsimp only
    split
    · exact inside_newline hrow
    · rw [Console.Inside]
      dsimp only
      omega
  split
  · rw [Console.consoleBack, Console.lcdPutcXy, Console.Inside]
    dsimp only
    split
    · split <;> dsimp only <;> omega
    · dsimp only
      omega
  · dsimp only
    split
    · exact inside_newline hrow
    · rename_i hlast
      change ¬c.col + 1 ≥ (size.cols : Int) at hlast
      refine ⟨hrow, ?_, Int.not_le.mp hlast⟩
      change 0 ≤ c.col + 1
      omega

/-- The cursor stays on the screen, whatever is put out. -/
theorem inside_run {size : Size} {c : Console} (h : c.Inside size) (chs : List UInt8) :
    (run (Console.lcdPutc size) c chs).Inside size := by
  have hstep : ∀ (c : Console) (ch : UInt8), c.Inside size → (c.lcdPutc size ch).Inside size :=
    fun _ ch hc => inside_lcdPutc hc ch
  exact run_invariant_all hstep h chs

/-- The console and the terminal, side by side. -/
def putBoth {size : Size} (s : Console × Terminal size) (ch : UInt8) : Console × Terminal size :=
  (s.1.lcdPutc size ch, s.2.putc ch)

theorem run_putBoth {size : Size} (c : Console) (t : Terminal size) (chs : List UInt8) :
    run putBoth (c, t) chs = (run (Console.lcdPutc size) c chs, run Terminal.putc t chs) := by
  induction chs generalizing c t with
  | nil => rfl
  | cons ch chs ih => exact ih _ _

theorem guarded_putBoth {size : Size} {guard : Terminal size → UInt8 → Prop} (c : Console) (t : Terminal size)
    (chs : List UInt8) : Guarded putBoth (fun s ch => guard s.2 ch) (c, t) chs ↔ Guarded Terminal.putc guard t chs := by
  induction chs generalizing c t with
  | nil => exact Iff.rfl
  | cons ch chs ih => exact and_congr_right fun _ => ih _ _

/-- **`lcd_putc`.**  From any screen and cursor on, the console shows after each character what the
    reference terminal has, just when no backspace comes in the home position. -/
theorem lcdPutc_refines_iff {size : Size} (c : Console) (t : Terminal size) (h : Shows c t) (chs : List UInt8) :
    (∀ k, Shows (run (Console.lcdPutc size) c (chs.take k)) (run Terminal.putc t (chs.take k))) ↔
      Guarded Terminal.putc NotBackAtHome t chs := by
  have hrule := @forall_take_iff_guarded _ _ putBoth (fun s ch => NotBackAtHome s.2 ch) (fun _ => True)
    (fun s => Shows s.1 s.2) (fun _ _ _ _ => trivial) (fun _ ch _ hs => shows_putc_iff hs ch) (c, t) chs trivial
  simp only [run_putBoth] at hrule
  rw [hrule, guarded_putBoth, and_iff_right h]

/-- One row of two columns. -/
def twoColumns : Size := ⟨1, 2, by decide, by decide⟩

def blankTerminal : Terminal twoColumns := ⟨⟨0, by decide⟩, ⟨0, by decide⟩, fun _ _ => blank⟩

def blankConsole : Console := ⟨0, 0, fun _ _ => blank⟩

theorem shows_blank : Shows blankConsole blankTerminal := ⟨rfl, rfl, fun _ _ => rfl⟩

/-- A backspace takes the cursor to the end of the line. -/
theorem not_shows_back_home :
    ¬∀ k, Shows (run (Console.lcdPutc twoColumns) blankConsole ([0x08].take k))
      (run Terminal.putc blankTerminal ([0x08].take k)) := by
  intro h
  have hstep := (shows_putc_iff shows_blank 0x08).mp (h 1)
  exact absurd (hstep rfl rfl rfl).1 (by decide)

/-- A character, and back over it. -/
theorem shows_back_over :
    Shows (run (Console.lcdPutc twoColumns) blankConsole [0x61, 0x08]) (run Terminal.putc blankTerminal [0x61, 0x08]) :=
  (lcdPutc_refines_iff blankConsole blankTerminal shows_blank [0x61, 0x08]).mpr (by decide) 2

end Uboot.Common.LcdConsole
