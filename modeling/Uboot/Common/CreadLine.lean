/-
  Uboot.Common.CreadLine

  The line editor of common/main.c: `cread_line` with `cread_add_char`, the history
  (`cread_add_to_hist`, `hist_prev`, `hist_next`) and the length that
  `readline_into_buffer` passes for the console buffer.

  `char` is unsigned and automatic completion is not configured, as on this board.
  Echo is left out.  The editor is a machine that reads one key after the other; a
  call of `cread_line` is an input of its own, so that a run goes through any number
  of calls and the history they leave to each other.
-/

import Uboot.Lib.Run
import Uboot.Lib.Ram
import Uboot.LibGeneric.Vsprintf

namespace Uboot.Common.CreadLine

open Uboot.Lib Uboot.LibGeneric

-- ============================================================================
-- State
-- ============================================================================

/-- `CONFIG_SYS_CBSIZE`, the size of `console_buffer`. -/
def cbsize : Nat := 256

/-- `MAX_CMDBUF_SIZE`, the length `readline_into_buffer` passes. -/
def maxCmdbufSize : Nat := 256

def histMax : Nat := 20

/-- `HIST_SIZE`. -/
def histSize : Nat := maxCmdbufSize

/-- The history: `lines` is the array `hist_lines`, slot `i` begins at `i * histSize`.
    `cur` is `none` for -1. -/
structure History where
  lines : Ram
  max : Nat
  addIdx : Nat
  cur : Option Nat

/-- The locals of `cread_line`.  `esc` is what `esc_save` holds, `esc_len` its length. -/
structure Line where
  num : Nat
  eolNum : Nat
  insert : Bool
  esc : List UInt8

/-- The console: the buffer, the history, and the line while `cread_line` runs. -/
structure Console where
  buf : Ram
  hist : History
  line : Option Line

/-- What the buffer holds when `cread_line` is called: a string shorter than the
    buffer.  What lies behind its end is `junk`. -/
structure InitLine where
  junk : Mem UInt8
  text : List UInt8
  no_nul : 0 ∉ text
  length_lt : text.length < cbsize

/-- A call of `cread_line`, or a key. -/
inductive Input
  | call (i : InitLine)
  | key (c : UInt8)

-- ============================================================================
-- Definitions from the source: the history
-- ============================================================================

/-- The string that begins at slot `i`.  One that has no end inside the array is cut
    at the end of the array. -/
def History.slot (h : History) (i : Nat) : List UInt8 :=
  cstr (h.lines.cells.read (i * histSize) ((histMax - i) * histSize))

def creadAddToHist (h : History) (line : List UInt8) : History :=
  let addIdx := if h.addIdx + 1 ≥ histMax then 0 else h.addIdx + 1
  { h with
    lines := h.lines.store (h.addIdx * histSize) (line ++ [0])
    addIdx := addIdx
    max := if addIdx > h.max then addIdx else h.max }

/-- `hist_prev`: the history with `hist_cur` moved, and the line, if there is one. -/
def histPrev (h : History) : History × Option (List UInt8) :=
  match h.cur with
  | none => (h, none)
  | some oldCur =>
    let cur := if oldCur = 0 then h.max else oldCur - 1
    if cur = h.addIdx then (h, none) else ({ h with cur := some cur }, some (h.slot cur))

def histNext (h : History) : History × Option (List UInt8) :=
  match h.cur with
  | none => (h, none)
  | some cur =>
    if cur = h.addIdx then (h, none)
    else
      let cur := if cur + 1 > h.max then 0 else cur + 1
      ({ h with cur := some cur }, some (if cur = h.addIdx then [] else h.slot cur))

-- ============================================================================
-- Definitions from the source: editing
-- ============================================================================

/-- `memmove (&buf[dst], &buf[src], n)`. -/
def memmove (r : Ram) (dst src n : Nat) : Ram := r.store dst (r.cells.read src n)

/-- `cread_add_char` with `len` the length passed to `cread_line`. -/
def creadAddChar (ichar : UInt8) (insert : Bool) (len : Nat) (buf : Ram) (l : Line) : Ram × Line :=
  let grows := insert = true ∨ l.num = l.eolNum
  -- room ???
  if grows ∧ l.eolNum > len - 1 then (buf, l)
  else
    let eolNum := if grows then l.eolNum + 1 else l.eolNum
    let wlen := eolNum - l.num
    let buf := if insert = true ∧ wlen > 1 then memmove buf (l.num + 1) l.num (wlen - 1) else buf
    (buf.store l.num [ichar], { l with num := l.num + 1, eolNum := eolNum })

/-- `cread_add_str`. -/
def creadAddStr (str : List UInt8) (insert : Bool) (len : Nat) (buf : Ram) (l : Line) : Ram × Line :=
  str.foldl (fun s c => creadAddChar c insert len s.1 s.2) (buf, l)

/-- What a key does: the cases of the `switch`. -/
inductive Command
  | home
  | abort
  | right
  | left
  | delete
  | killEol
  | endOfLine
  | toggleInsert
  | killLine
  | backspace
  | histPrev
  | histNext
  | escape
  | char
  deriving DecidableEq, Repr

def command (ichar : UInt8) : Command :=
  match ichar.toNat with
  | 0x1b => .escape
  | 1 => .home
  | 3 => .abort
  | 6 => .right
  | 2 => .left
  | 4 => .delete
  | 11 => .killEol
  | 5 => .endOfLine
  | 15 => .toggleInsert
  | 24 => .killLine
  | 21 => .killLine
  | 255 => .backspace
  | 127 => .backspace
  | 8 => .backspace
  | 16 => .histPrev
  | 14 => .histNext
  | _ => .char

/-- The end of an escape sequence `ESC [ c` that is handled. -/
def arrow (ichar : UInt8) : Option Command :=
  match ichar.toNat with
  | 68 => some .left
  | 67 => some .right
  | 72 => some .home
  | 65 => some .histPrev
  | 66 => some .histNext
  | _ => none

/-- A line of the history takes the place of the current one. -/
def copyHistLine (s : Console) (l : Line) (r : History × Option (List UInt8)) : Console :=
  match r with
  | (h, none) => { s with hist := h, line := some { l with esc := [] } }
  | (h, some hline) =>
    { buf := s.buf.store 0 (hline ++ [0])
      hist := h
      line := some { l with num := hline.length, eolNum := hline.length, esc := [] } }

/-- The `switch` of `cread_line`. -/
def execute (s : Console) (l : Line) (ichar : UInt8) : Command → Console
  | .escape => { s with line := some { l with esc := [ichar] } }
  | .home => { s with line := some { l with num := 0 } }
  | .abort => { s with buf := s.buf.store 0 [0], line := none }
  | .right => { s with line := some (if l.num < l.eolNum then { l with num := l.num + 1 } else l) }
  | .left => { s with line := some (if l.num ≠ 0 then { l with num := l.num - 1 } else l) }
  | .delete =>
    if l.num < l.eolNum then
      let wlen := l.eolNum - l.num - 1
      { s with
        buf := if wlen ≠ 0 then memmove s.buf l.num (l.num + 1) wlen else s.buf
        line := some { l with eolNum := l.eolNum - 1 } }
    else { s with line := some l }
  | .killEol => { s with line := some { l with eolNum := min l.eolNum l.num } }
  | .endOfLine => { s with line := some { l with num := max l.num l.eolNum } }
  | .toggleInsert => { s with line := some { l with insert := !l.insert } }
  | .killLine => { s with line := some { l with num := 0, eolNum := 0 } }
  | .backspace =>
    if l.num ≠ 0 then
      { s with
        buf := memmove s.buf (l.num - 1) l.num (l.eolNum - l.num)
        line := some { l with num := l.num - 1, eolNum := l.eolNum - 1 } }
    else { s with line := some l }
  | .histPrev => copyHistLine s l (histPrev s.hist)
  | .histNext => copyHistLine s l (histNext s.hist)
  | .char =>
    let r := creadAddChar ichar l.insert maxCmdbufSize s.buf l
    { s with buf := r.1, line := some r.2 }

/-- What follows the loop: the end of the line is marked, and unless it is empty or
    begins with `!` the line goes to the history. -/
def finish (s : Console) (l : Line) : Console :=
  let buf := s.buf.store l.eolNum [0]
  let line := cstr (buf.cells.read 0 (l.eolNum + 1))
  let hist := if buf.cells 0 ≠ 0 ∧ buf.cells 0 ≠ 33 then creadAddToHist s.hist line else s.hist
  { buf := buf, hist := { hist with cur := some hist.addIdx }, line := none }

def isEnter (ichar : UInt8) : Bool := ichar = 10 || ichar = 13

/-- One turn of the loop of `cread_line`. -/
def key (s : Console) (l : Line) (ichar : UInt8) : Console :=
  if isEnter ichar then finish s l
  else
    match l.esc with
    | [] => execute s l ichar (command ichar)
    | [_] =>
      if ichar = 91 then { s with line := some { l with esc := l.esc ++ [ichar] } }
      else
        -- an escape that begins no sequence is text; the key behind it is lost
        let r := creadAddStr l.esc l.insert maxCmdbufSize s.buf l
        { s with buf := r.1, line := some { r.2 with esc := [] } }
    | esc =>
      match arrow ichar with
      | some cmd => execute s { l with esc := [] } ichar cmd
      | none =>
        let r := creadAddStr (esc ++ [ichar]) l.insert maxCmdbufSize s.buf l
        { s with buf := r.1, line := some { r.2 with esc := [] } }

/-- The head of `cread_line`: what the buffer holds is entered as if it were typed. -/
def call (s : Console) (i : InitLine) : Console :=
  let buf : Ram := { s.buf with cells := i.junk.write 0 (i.text ++ [0]) }
  let r := creadAddStr i.text true maxCmdbufSize buf ⟨0, 0, true, []⟩
  { s with buf := r.1, line := some r.2 }

/-- The editor reads an input.  Keys that come while no call is active are not read. -/
def step (s : Console) : Input → Console
  | .call i => call s i
  | .key c =>
    match s.line with
    | none => s
    | some l => key s l c

/-- The console after `hist_init`. -/
def start (cells lines : Mem UInt8) : Console where
  buf := ⟨cells, []⟩
  hist :=
    { lines := ⟨fun a => if a % histSize = 0 then 0 else lines a, []⟩
      max := 0, addIdx := 0, cur := none }
  line := none

-- ============================================================================
-- Safety
-- ============================================================================

/-- The console buffer, as a range. -/
def bufRange : Extent := ⟨0, cbsize⟩

/-- No write has left the console buffer, and every line copied to the history fitted
    a slot, its terminator included. -/
structure Safe (s : Console) : Prop where
  buf : s.buf.WritesIn bufRange
  hist : ∀ w ∈ s.hist.lines.log, w.len ≤ histSize

/-- A line is not entered when it takes the whole buffer. -/
def EntersShort (s : Console) : Input → Prop
  | .call _ => True
  | .key c => isEnter c = true → ∀ l ∈ s.line, l.eolNum < cbsize

instance decidableEntersShort (s : Console) : ∀ i, Decidable (EntersShort s i)
  | .call _ => inferInstanceAs (Decidable True)
  | .key c => inferInstanceAs (Decidable (isEnter c = true → ∀ l ∈ s.line, l.eolNum < cbsize))

/-- Every slot holds a string that ends inside it, and the indices are in range. -/
structure History.Ok (h : History) : Prop where
  ends : ∀ i < histMax, ∃ k < histSize, h.lines.cells (i * histSize + k) = 0
  max : h.max < histMax
  addIdx : h.addIdx < histMax
  cur : ∀ c ∈ h.cur, c < histMax

/-- The cursor is inside the line and the line inside the buffer. -/
structure Line.Ok (l : Line) : Prop where
  num_le : l.num ≤ l.eolNum
  eolNum_le : l.eolNum ≤ cbsize

/-- What every guarded run keeps. -/
structure Inv (s : Console) : Prop where
  safe : Safe s
  hist : s.hist.Ok
  line : ∀ l ∈ s.line, l.Ok

-- ============================================================================
-- Editing keeps the line inside the buffer
-- ============================================================================

section Edit

variable {r : Ram} {l : Line} {h : History}

theorem writesIn_store {a : Nat} {bs : List UInt8} (hr : r.WritesIn bufRange)
    (h : a + bs.length ≤ cbsize) : (r.store a bs).WritesIn bufRange :=
  hr.store fun _ => ⟨Nat.zero_le _, by simpa [bufRange, Extent.stop] using h⟩

theorem writesIn_memmove {dst src n : Nat} (hr : r.WritesIn bufRange) (h : dst + n ≤ cbsize) :
    (memmove r dst src n).WritesIn bufRange :=
  writesIn_store hr (by simpa using h)

/-- A character is refused when the line takes the whole buffer; else there is room
    for the line one longer. -/
theorem creadAddChar_ok (c : UInt8) (insert : Bool) (hr : r.WritesIn bufRange) (hl : l.Ok) :
    (creadAddChar c insert maxCmdbufSize r l).1.WritesIn bufRange ∧
      (creadAddChar c insert maxCmdbufSize r l).2.Ok := by
  have hn := hl.num_le
  have he := hl.eolNum_le
  simp only [cbsize] at he
  rw [creadAddChar]
  by_cases hgrow : insert = true ∨ l.num = l.eolNum
  · by_cases hfull : l.eolNum > maxCmdbufSize - 1
    · rw [if_pos ⟨hgrow, hfull⟩]
      exact ⟨hr, hl⟩
    · simp only [hgrow, hfull, and_false, if_false, if_true]
      simp only [maxCmdbufSize] at hfull
      refine ⟨writesIn_store ?_ (by simp [cbsize]; omega), ⟨by simp; omega, by simp [cbsize]; omega⟩⟩
      split
      · exact writesIn_memmove hr (by simp only [cbsize]; omega)
      · exact hr
  · -- overwriting a character that is there
    obtain ⟨hins, hne⟩ := not_or.mp hgrow
    simp only [hgrow, if_false]
    simp only [hins, false_and, if_false]
    exact ⟨writesIn_store hr (by simp [cbsize]; omega), ⟨by simp; omega, by simpa [cbsize] using he⟩⟩

theorem creadAddStr_ok (str : List UInt8) (insert : Bool) (hr : r.WritesIn bufRange) (hl : l.Ok) :
    (creadAddStr str insert maxCmdbufSize r l).1.WritesIn bufRange ∧
      (creadAddStr str insert maxCmdbufSize r l).2.Ok := by
  induction str generalizing r l with
  | nil => exact ⟨hr, hl⟩
  | cons c cs ih =>
    obtain ⟨hr', hl'⟩ := creadAddChar_ok c insert hr hl
    exact ih hr' hl'

/-- A string ends at the first zero. -/
theorem cstr_length_le {bs : List UInt8} {k : Nat} (h : bs[k]? = some 0) : (cstr bs).length ≤ k := by
  induction bs generalizing k with
  | nil => simp at h
  | cons b bs ih =>
    cases k with
    | zero =>
      have hb : b = 0 := by simpa using h
      simp [cstr, hb]
    | succ k =>
      have hrest := ih (k := k) (by simpa using h)
      rw [cstr, List.takeWhile_cons]
      split
      · exact Nat.succ_le_succ hrest
      · exact Nat.zero_le _

/-- A recalled line fits the buffer. -/
theorem History.Ok.slot_lt (hh : h.Ok) {i : Nat} (hi : i < histMax) : (h.slot i).length < cbsize := by
  obtain ⟨k, hk, hz⟩ := hh.ends i hi
  have hspan : k < (histMax - i) * histSize := by
    simp only [histMax, histSize, maxCmdbufSize] at *
    omega
  have hget : (h.lines.cells.read (i * histSize) ((histMax - i) * histSize))[k]? = some 0 := by
    rw [List.getElem?_eq_getElem (by simpa using hspan), Mem.getElem_read, hz]
  have hle := cstr_length_le hget
  simp only [History.slot, histSize, maxCmdbufSize, cbsize] at *
  omega

/-- Recalling moves `hist_cur` only. -/
theorem histPrev_lines (h : History) : (histPrev h).1.lines = h.lines := by
  rw [histPrev]
  split
  · rfl
  · simp only
    generalize (if _ = 0 then h.max else _) = cur
    split <;> rfl

theorem histNext_lines (h : History) : (histNext h).1.lines = h.lines := by
  rw [histNext]
  split
  · rfl
  · split <;> rfl

theorem histPrev_ok (hh : h.Ok) :
    (histPrev h).1.Ok ∧ ∀ hline ∈ (histPrev h).2, hline.length < cbsize := by
  rw [histPrev]
  cases hc : h.cur with
  | none => exact ⟨hh, fun _ hl => absurd hl (by simp)⟩
  | some c =>
    have hlt : (if c = 0 then h.max else c - 1) < histMax := by
      have := hh.cur c hc
      have := hh.max
      split <;> omega
    simp only
    generalize (if c = 0 then h.max else c - 1) = cur at hlt ⊢
    split
    · exact ⟨hh, fun _ hl => absurd hl (by simp)⟩
    · refine ⟨⟨hh.ends, hh.max, hh.addIdx, by simpa using hlt⟩, ?_⟩
      intro hline hl
      rw [← Option.some.inj hl]
      exact hh.slot_lt hlt

theorem histNext_ok (hh : h.Ok) :
    (histNext h).1.Ok ∧ ∀ hline ∈ (histNext h).2, hline.length < cbsize := by
  rw [histNext]
  cases hc : h.cur with
  | none => exact ⟨hh, fun _ hl => absurd hl (by simp)⟩
  | some c =>
    have hlt : (if c + 1 > h.max then 0 else c + 1) < histMax := by
      have hm := hh.max
      simp only [histMax] at *
      split <;> omega
    simp only
    generalize (if c + 1 > h.max then 0 else c + 1) = cur at hlt ⊢
    split
    · exact ⟨hh, fun _ hl => absurd hl (by simp)⟩
    · refine ⟨⟨hh.ends, hh.max, hh.addIdx, by simpa using hlt⟩, ?_⟩
      intro hline hl
      rw [← Option.some.inj hl]
      split
      · simp [cbsize]
      · exact hh.slot_lt hlt

/-- Recalling a line that fits leaves it in the buffer. -/
theorem copyHistLine_inv {s : Console} {p : History × Option (List UInt8)} (hs : Safe s) (hl : l.Ok)
    (hlines : p.1.lines = s.hist.lines) (hp : p.1.Ok) (hlt : ∀ hline ∈ p.2, hline.length < cbsize) :
    Inv (copyHistLine s l p) := by
  obtain ⟨h, none | hline⟩ := p
  · exact ⟨⟨hs.buf, by rw [copyHistLine, hlines]; exact hs.hist⟩, hp,
      fun l' hl' => by rw [← Option.some.inj hl']; exact ⟨hl.num_le, hl.eolNum_le⟩⟩
  · have hlen : hline.length < cbsize := hlt hline rfl
    refine ⟨⟨writesIn_store hs.buf ?_, ?_⟩, hp, ?_⟩
    · simpa using Nat.succ_le_of_lt hlen
    · rw [copyHistLine, hlines]
      exact hs.hist
    · intro l' hl'
      rw [← Option.some.inj hl']
      exact ⟨Nat.le_refl _, Nat.le_of_lt hlen⟩

/-- No command but Enter can break the invariant. -/
theorem execute_inv {s : Console} (h : Inv s) (hl : l.Ok) (c : UInt8) (cmd : Command) :
    Inv (execute s l c cmd) := by
  obtain ⟨hsafe, hhist, -⟩ := h
  have hn := hl.num_le
  have he := hl.eolNum_le
  -- the commands that leave the buffer alone only have to keep the line in order
  have hkeep : ∀ l' : Line, l'.Ok → Inv { s with line := some l' } := fun l' hl' =>
    ⟨⟨hsafe.buf, hsafe.hist⟩, hhist, fun _ h => by rw [← Option.some.inj h]; exact hl'⟩
  cases cmd with
  | escape => exact hkeep _ ⟨hn, he⟩
  | home => exact hkeep _ ⟨Nat.zero_le _, he⟩
  | abort =>
    exact ⟨⟨writesIn_store hsafe.buf (by simp [cbsize]), hsafe.hist⟩, hhist, fun _ h => absurd h (by simp [execute])⟩
  | right =>
    refine hkeep _ ?_
    split
    · exact ⟨by simpa using ‹_›, he⟩
    · exact hl
  | left =>
    refine hkeep _ ?_
    split
    · exact ⟨Nat.le_trans (Nat.sub_le _ _) hn, he⟩
    · exact hl
  | delete =>
    rw [execute]
    split
    · refine ⟨⟨?_, hsafe.hist⟩, hhist, ?_⟩
      · simp only
        split
        · exact writesIn_memmove hsafe.buf (by omega)
        · exact hsafe.buf
      · intro l' hl'
        rw [← Option.some.inj hl']
        exact ⟨by simp; omega, by simp; omega⟩
    · exact hkeep _ hl
  | killEol => exact hkeep _ ⟨by simp; omega, by simp; omega⟩
  | endOfLine => exact hkeep _ ⟨by simp; omega, he⟩
  | toggleInsert => exact hkeep _ ⟨hn, he⟩
  | killLine => exact hkeep _ ⟨Nat.le_refl _, Nat.zero_le _⟩
  | backspace =>
    rw [execute]
    split
    · refine ⟨⟨writesIn_memmove hsafe.buf (by omega), hsafe.hist⟩, hhist, ?_⟩
      intro l' hl'
      rw [← Option.some.inj hl']
      exact ⟨by simp; omega, by simp; omega⟩
    · exact hkeep _ hl
  | histPrev =>
    obtain ⟨hok, hlt⟩ := histPrev_ok hhist
    exact copyHistLine_inv hsafe hl (histPrev_lines _) hok hlt
  | histNext =>
    obtain ⟨hok, hlt⟩ := histNext_ok hhist
    exact copyHistLine_inv hsafe hl (histNext_lines _) hok hlt
  | char =>
    obtain ⟨hbuf, hline⟩ := creadAddChar_ok c l.insert hsafe.buf hl
    exact ⟨⟨hbuf, hsafe.hist⟩, hhist, fun l' hl' => by rw [← Option.some.inj hl']; exact hline⟩

/-- A line short of the slot goes to the history, and the other slots stay. -/
theorem creadAddToHist_ok (hh : h.Ok) {line : List UInt8} (hlen : line.length < histSize) :
    (creadAddToHist h line).Ok := by
  have hmax := hh.max
  have hadd := hh.addIdx
  have hnext : (if h.addIdx + 1 ≥ histMax then 0 else h.addIdx + 1) < histMax := by
    split <;> simp only [histMax] at * <;> omega
  refine ⟨fun i hi => ?_, ?_, hnext, hh.cur⟩
  · by_cases hi' : i = h.addIdx
    · refine ⟨line.length, hlen, ?_⟩
      rw [hi']
      have hin : line.length < (line ++ [(0 : UInt8)]).length := by simp
      simp only [creadAddToHist, Ram.store_cells]
      rw [Mem.write_inside h.lines.cells hin]
      simp
    · obtain ⟨k, hk, hz⟩ := hh.ends i hi
      refine ⟨k, hk, ?_⟩
      simp only [creadAddToHist, Ram.store_cells]
      rw [Mem.write_outside, hz]
      simp only [List.length_append, List.length_singleton, histSize, maxCmdbufSize] at *
      omega
  · simp only [creadAddToHist]
    generalize (if h.addIdx + 1 ≥ histMax then 0 else h.addIdx + 1) = addIdx at hnext ⊢
    split <;> omega

/-- Enter ends a line that leaves room for the terminator. -/
theorem finish_inv {s : Console} (h : Inv s) (hl : l.eolNum < cbsize) : Inv (finish s l) := by
  obtain ⟨hsafe, hhist, -⟩ := h
  have hbuf : (s.buf.store l.eolNum [0]).WritesIn bufRange :=
    writesIn_store hsafe.buf (by simpa using Nat.succ_le_of_lt hl)
  have hlen : (cstr ((s.buf.store l.eolNum [0]).cells.read 0 (l.eolNum + 1))).length < histSize := by
    have hlast : ((s.buf.store l.eolNum [0]).cells.read 0 (l.eolNum + 1))[l.eolNum]? = some 0 := by
      rw [List.getElem?_eq_getElem (by simp), Mem.getElem_read, Nat.zero_add]
      exact congrArg some (Mem.write_inside s.buf.cells (i := 0) (by simp))
    exact Nat.lt_of_le_of_lt (cstr_length_le hlast) hl
  have hadded := creadAddToHist_ok hhist hlen
  simp only [finish]
  split
  · refine ⟨⟨hbuf, ?_⟩, ⟨hadded.ends, hadded.max, hadded.addIdx, ?_⟩, fun _ h => absurd h (by simp)⟩
    · intro w hw
      rcases List.mem_append.mp hw with hw | hw
      · exact hsafe.hist w hw
      · rw [List.mem_singleton.mp hw]
        simp only [List.length_append, List.length_singleton]
        omega
    · intro c hc
      rw [← Option.some.inj hc]
      exact hadded.addIdx
  · refine ⟨⟨hbuf, hsafe.hist⟩, ⟨hhist.ends, hhist.max, hhist.addIdx, ?_⟩, fun _ h => absurd h (by simp)⟩
    intro c hc
    rw [← Option.some.inj hc]
    exact hhist.addIdx

end Edit

-- ============================================================================
-- Runs
-- ============================================================================

section Runs

variable {s : Console}

/-- One guarded input keeps the invariant. -/
theorem step_inv (i : Input) (h : Inv s) (hg : EntersShort s i) : Inv (step s i) := by
  obtain ⟨hsafe, hhist, hline⟩ := h
  cases i with
  | call i =>
    have hempty : (⟨0, 0, true, []⟩ : Line).Ok := ⟨Nat.le_refl _, Nat.zero_le _⟩
    obtain ⟨hbuf, hl⟩ := creadAddStr_ok i.text true (r := { s.buf with cells := i.junk.write 0 (i.text ++ [0]) })
      hsafe.buf hempty
    exact ⟨⟨hbuf, hsafe.hist⟩, hhist, fun l hl' => by rw [← Option.some.inj hl']; exact hl⟩
  | key c =>
    cases hs : s.line with
    | none =>
      rw [step, hs]
      exact ⟨hsafe, hhist, hline⟩
    | some l =>
      have hl : l.Ok := hline l hs
      have hinv : Inv s := ⟨hsafe, hhist, hline⟩
      -- text that comes of a broken escape sequence
      have htext (str : List UInt8) :
          Inv { s with
            buf := (creadAddStr str l.insert maxCmdbufSize s.buf l).1
            line := some { (creadAddStr str l.insert maxCmdbufSize s.buf l).2 with esc := [] } } := by
        obtain ⟨hbuf, hok⟩ := creadAddStr_ok str l.insert hsafe.buf hl
        exact ⟨⟨hbuf, hsafe.hist⟩, hhist,
          fun l' hl' => by rw [← Option.some.inj hl']; exact ⟨hok.num_le, hok.eolNum_le⟩⟩
      rw [step, hs]
      simp only [key]
      split
      · rename_i henter
        exact finish_inv hinv (hg henter l hs)
      · split
        · exact execute_inv hinv hl c _
        · split
          · exact ⟨⟨hsafe.buf, hsafe.hist⟩, hhist,
              fun l' hl' => by rw [← Option.some.inj hl']; exact ⟨hl.num_le, hl.eolNum_le⟩⟩
          · exact htext _
        · split
          · exact execute_inv hinv (l := { l with esc := [] }) ⟨hl.num_le, hl.eolNum_le⟩ c _
          · exact htext _

/-- A line that takes the whole buffer is ended outside it. -/
theorem finish_unsafe {l : Line} (h : l.eolNum = cbsize) : ¬ Safe (finish s l) := by
  intro hsafe
  have hmem : (⟨cbsize, 1⟩ : Extent) ∈ (finish s l).buf.log := by
    simp [finish, h]
  have hsub := hsafe.buf _ hmem
  have hin : cbsize ∈ bufRange.cells := hsub (by simp [Extent.stop])
  simp [bufRange, Extent.stop] at hin

/-- `b` has recorded all that `a` has. -/
def Extends (a b : Console) : Prop :=
  a.buf.log <+: b.buf.log ∧ a.hist.lines.log <+: b.hist.lines.log

theorem Extends.safe {a b : Console} (h : Extends a b) (hb : Safe b) : Safe a :=
  ⟨fun w hw => hb.buf w (h.1.subset hw), fun w hw => hb.hist w (h.2.subset hw)⟩

theorem creadAddChar_log (c : UInt8) (insert : Bool) (r : Ram) (l : Line) :
    r.log <+: (creadAddChar c insert maxCmdbufSize r l).1.log := by
  rw [creadAddChar]
  split
  · exact List.prefix_refl _
  · refine List.IsPrefix.trans ?_ (List.prefix_append _ _)
    generalize (if insert = true ∨ l.num = l.eolNum then l.eolNum + 1 else l.eolNum) = eolNum
    split
    · exact List.prefix_append _ _
    · exact List.prefix_refl _

theorem creadAddStr_log (str : List UInt8) (insert : Bool) (r : Ram) (l : Line) :
    r.log <+: (creadAddStr str insert maxCmdbufSize r l).1.log := by
  induction str generalizing r l with
  | nil => exact List.prefix_refl _
  | cons c cs ih => exact (creadAddChar_log c insert r l).trans (ih ..)

theorem execute_extends (l : Line) (c : UInt8) (cmd : Command) : Extends s (execute s l c cmd) := by
  have hsame {h : History × Option (List UInt8)} (hh : h.1.lines = s.hist.lines) :
      Extends s (copyHistLine s l h) := by
    obtain ⟨h, none | hline⟩ := h
    · exact ⟨List.prefix_refl _, (congrArg (s.hist.lines.log <+: ·.log) hh).mpr (List.prefix_refl _)⟩
    · exact ⟨List.prefix_append _ _, (congrArg (s.hist.lines.log <+: ·.log) hh).mpr (List.prefix_refl _)⟩
  cases cmd with
  | delete =>
    rw [execute]
    split
    · refine ⟨?_, List.prefix_refl _⟩
      simp only
      split
      · exact List.prefix_append _ _
      · exact List.prefix_refl _
    · exact ⟨List.prefix_refl _, List.prefix_refl _⟩
  | backspace =>
    rw [execute]
    split
    · exact ⟨List.prefix_append _ _, List.prefix_refl _⟩
    · exact ⟨List.prefix_refl _, List.prefix_refl _⟩
  | histPrev => exact hsame (histPrev_lines _)
  | histNext => exact hsame (histNext_lines _)
  | abort => exact ⟨List.prefix_append _ _, List.prefix_refl _⟩
  | char => exact ⟨creadAddChar_log .., List.prefix_refl _⟩
  | _ => exact ⟨List.prefix_refl _, List.prefix_refl _⟩

/-- What has been written stays recorded. -/
theorem step_extends (i : Input) : Extends s (step s i) := by
  cases i with
  | call i =>
    exact ⟨creadAddStr_log i.text true { s.buf with cells := i.junk.write 0 (i.text ++ [0]) } _,
      List.prefix_refl _⟩
  | key c =>
    rw [step]
    split
    · exact ⟨List.prefix_refl _, List.prefix_refl _⟩
    · rename_i l _
      rw [key]
      split
      · simp only [finish]
        split
        · exact ⟨List.prefix_append _ _, List.prefix_append _ _⟩
        · exact ⟨List.prefix_append _ _, List.prefix_refl _⟩
      · split
        · exact execute_extends ..
        · split
          · exact ⟨List.prefix_refl _, List.prefix_refl _⟩
          · exact ⟨creadAddStr_log .., List.prefix_refl _⟩
        · split
          · exact execute_extends ..
          · exact ⟨creadAddStr_log .., List.prefix_refl _⟩

theorem run_extends (is : List Input) : Extends s (run step s is) := by
  induction is generalizing s with
  | nil => exact ⟨List.prefix_refl _, List.prefix_refl _⟩
  | cons i is ih =>
    obtain ⟨hbuf, hhist⟩ := step_extends (s := s) i
    exact ⟨hbuf.trans ih.1, hhist.trans ih.2⟩

/-- From a state of the invariant a run is safe exactly when it is guarded. -/
theorem safe_run_iff (h : Inv s) (is : List Input) :
    Safe (run step s is) ↔ Guarded step EntersShort s is := by
  induction is generalizing s with
  | nil => exact ⟨fun _ => trivial, fun _ => h.safe⟩
  | cons i is ih =>
    rw [run_cons, guarded_cons]
    by_cases hg : EntersShort s i
    · rw [ih (step_inv i h hg), and_iff_right hg]
    · refine ⟨fun hsafe => ?_, fun hguard => absurd hguard.1 hg⟩
      -- the guard fails only at Enter, with the line as long as the buffer
      cases i with
      | call i => exact absurd trivial hg
      | key c =>
        simp only [EntersShort, not_forall] at hg
        obtain ⟨henter, l, hl, hlong⟩ := hg
        have hfull : l.eolNum = cbsize := Nat.le_antisymm (h.line l hl).eolNum_le (Nat.le_of_not_lt hlong)
        have hstep : step s (.key c) = finish s l := by
          simp only [step, show s.line = some l from hl, key, henter, if_true]
        exact absurd ((run_extends is).safe hsafe) (hstep ▸ finish_unsafe hfull)

/-- The console begins in order: every slot holds the empty line. -/
theorem start_inv (cells lines : Mem UInt8) : Inv (start cells lines) where
  safe := ⟨fun w hw => absurd hw List.not_mem_nil, fun w hw => absurd hw List.not_mem_nil⟩
  hist :=
    { ends := fun i _ => ⟨0, by decide, by simp [start]⟩
      max := Nat.zero_lt_succ _
      addIdx := Nat.zero_lt_succ _
      cur := fun c hc => absurd hc (by simp [start]) }
  line := fun l hl => absurd hl (by simp [start])

/-- **Bounds of the line editor.** Over any number of calls and any keys, no write
    leaves the console buffer and every line copied to the history fits its slot,
    exactly when Enter is never pressed on a line as long as the buffer. -/
theorem safe_iff_entersShort (cells lines : Mem UInt8) (is : List Input) :
    Safe (run step (start cells lines) is) ↔ Guarded step EntersShort (start cells lines) is :=
  safe_run_iff (start_inv cells lines) is

/-- An empty buffer. -/
def emptyLine : InitLine := ⟨fun _ => 0, [], by simp, by decide⟩

/-- 256 letters and Enter: the terminator is the byte behind the buffer. -/
theorem full_line_overflows :
    ¬ Safe (run step (start (fun _ => 0) fun _ => 0)
      (.call emptyLine :: (List.replicate 256 (.key 97) ++ [.key 13]))) := by
  rw [safe_run_iff (start_inv _ _)]
  decide +kernel

end Runs

end Uboot.Common.CreadLine
