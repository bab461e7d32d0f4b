/-
  Uboot.Common.CreadEdit

  The line editor against a reference.  The reference edits a list of characters with
  a cursor and recalls lines from the list of `CreadHistory`; it has no buffer and no
  limit.  As long as its text stays below the length that `cread_line` is given, the
  console buffer shows that text, and `num` that cursor, after every key.
-/

import Uboot.Common.CreadHistory
import Mathlib.Tactic.IntervalCases

namespace Uboot.Common.CreadLine

open Uboot.Lib Uboot.LibGeneric

-- ============================================================================
-- The reference
-- ============================================================================

/-- A text with a cursor in it. -/
structure Editor where
  text : List UInt8
  cursor : Nat
  insert : Bool

/-- The lines entered before, the text that is being edited, and the one that was left
    last. -/
structure Session where
  history : Recall
  editor : Option Editor
  left : Option (List UInt8)

def Editor.char (e : Editor) (c : UInt8) : Editor :=
  { e with
    text := if e.insert ∨ e.cursor = e.text.length then e.text.insertIdx e.cursor c
      else e.text.set e.cursor c
    cursor := e.cursor + 1 }

def Editor.backspace (e : Editor) : Editor :=
  if e.cursor = 0 then e else { e with text := e.text.eraseIdx (e.cursor - 1), cursor := e.cursor - 1 }

/-- A line that is recalled takes the place of the text. -/
def Session.recalled (s : Session) (e : Editor) (op : HistOp) : Session :=
  match s.history.step op with
  | (r, none) => { s with history := r, editor := some e }
  | (r, some line) => { s with history := r, editor := some { e with text := line, cursor := line.length } }

/-- What a key means.  No key that is read as text is an escape. -/
def Session.execute (s : Session) (e : Editor) (c : UInt8) : Command → Session
  | .escape => s
  | .home => { s with editor := some { e with cursor := 0 } }
  | .abort => { s with editor := none, left := some [] }
  | .right => { s with editor := some { e with cursor := min (e.cursor + 1) e.text.length } }
  | .left => { s with editor := some { e with cursor := e.cursor - 1 } }
  | .delete => { s with editor := some { e with text := e.text.eraseIdx e.cursor } }
  | .killEol => { s with editor := some { e with text := e.text.take e.cursor } }
  | .endOfLine => { s with editor := some { e with cursor := e.text.length } }
  | .toggleInsert => { s with editor := some { e with insert := !e.insert } }
  | .killLine => { s with editor := some { e with text := [], cursor := 0 } }
  | .backspace => { s with editor := some e.backspace }
  | .histPrev => s.recalled e .prev
  | .histNext => s.recalled e .next
  | .char => { s with editor := some (e.char c) }

/-- A text is entered into the history unless it is empty or begins with `!`. -/
def enterOp (text : List UInt8) : HistOp :=
  if (cstr text).head?.getD 0 ≠ 0 ∧ (cstr text).head?.getD 0 ≠ 33 then
    .enter ⟨cstr text, cstr_noNul text⟩
  else .discard

/-- Enter. -/
def Session.finish (s : Session) (e : Editor) : Session :=
  { history := (s.history.step (enterOp e.text)).1, editor := none, left := some e.text }

def Session.step (s : Session) : Input → Session
  | .call i => { s with editor := some ⟨i.text, i.text.length, true⟩ }
  | .key c =>
    match s.editor with
    | none => s
    | some e => if isEnter c then s.finish e else s.execute e c (command c)

def Session.start : Session := ⟨.empty, none, none⟩

/-- The text is below the length limit. -/
def Session.Below (s : Session) : Prop := ∀ e ∈ s.editor, e.text.length < maxCmdbufSize

-- ============================================================================
-- The console shows the session
-- ============================================================================

/-- The locals of `cread_line` show the editor. -/
structure LineShows (buf : Ram) (l : Line) (e : Editor) : Prop where
  num : l.num = e.cursor
  eolNum : l.eolNum = e.text.length
  text : buf.cells.read 0 l.eolNum = e.text
  insert : l.insert = e.insert
  esc : l.esc = []
  cursor_le : e.cursor ≤ e.text.length

structure Shows (s : Console) (t : Session) : Prop where
  hist : Ring s.hist t.history
  line : Option.Rel (LineShows s.buf) s.line t.editor
  left : t.editor = none → ∀ text ∈ t.left, s.buf.cells.read 0 (text.length + 1) = text ++ [0]

section Shows

variable {buf : Ram} {l : Line} {e : Editor}

theorem LineShows.take (h : LineShows buf l e) {i : Nat} (hi : i ≤ e.text.length) :
    e.text.take i = buf.cells.read 0 i := by
  rw [← h.text, Mem.take_read _ (by rw [h.eolNum]; exact hi)]

theorem LineShows.drop (h : LineShows buf l e) {i : Nat} (hi : i ≤ e.text.length) :
    e.text.drop i = buf.cells.read i (e.text.length - i) := by
  have hread := Mem.drop_read buf.cells (a := 0) hi
  rw [← h.eolNum, h.text, h.eolNum, Nat.zero_add] at hread
  exact hread

/-- Moving the rest of the line down over position `i` takes out the character there. -/
theorem LineShows.moved_down (h : LineShows buf l e) {i : Nat} (hi : i < e.text.length) :
    (memmove buf i (i + 1) (e.text.length - (i + 1))).cells.read 0 (e.text.length - 1) =
      e.text.eraseIdx i := by
  rw [List.eraseIdx_eq_take_drop_succ, h.take hi.le, h.drop hi, memmove, Ram.store_cells,
    Mem.read_write_inside _ (Nat.zero_le i) (by simp; omega), Mem.read_length,
    show 0 + (e.text.length - 1) - (i + (e.text.length - (i + 1))) = 0 by omega, Nat.sub_zero]
  exact List.append_nil _

/-- A character stored at the cursor. -/
theorem LineShows.stored (h : LineShows buf l e) (c : UInt8) (hi : e.cursor < e.text.length) :
    (buf.store e.cursor [c]).cells.read 0 e.text.length = e.text.set e.cursor c := by
  rw [List.set_eq_take_append_cons_drop, if_pos hi, h.take hi.le, h.drop hi, Ram.store_cells,
    Mem.read_write_inside _ (Nat.zero_le _) (by simp; omega), Nat.sub_zero]
  simp

theorem insertIdx_eq_take_drop {α : Type} (xs : List α) {i : Nat} (hi : i ≤ xs.length) (x : α) :
    xs.insertIdx i x = xs.take i ++ x :: xs.drop i := by
  obtain ⟨xs₁, xs₂, rfl, rfl, hxs⟩ := List.exists_of_modifyTailIdx (List.cons x) hi
  rw [List.take_left, List.drop_left]
  exact hxs

/-- A character stored at the cursor, with the rest of the line moved up before it. -/
theorem LineShows.inserted (h : LineShows buf l e) (c : UInt8) :
    ((if e.text.length + 1 - e.cursor > 1 then
        memmove buf (e.cursor + 1) e.cursor (e.text.length + 1 - e.cursor - 1) else buf).store
          e.cursor [c]).cells.read 0 (e.text.length + 1) = e.text.insertIdx e.cursor c := by
  have hcur := h.cursor_le
  rw [insertIdx_eq_take_drop _ hcur, h.take hcur, h.drop hcur, Ram.store_cells,
    Mem.read_write_inside _ (Nat.zero_le _) (by simp; omega), List.append_assoc]
  congr 1
  · apply Mem.read_congr
    intro x _ hx
    split
    · exact Mem.write_outside _ (by omega)
    · rfl
  · rw [List.singleton_append, List.length_singleton,
      show 0 + (e.text.length + 1) - (e.cursor + 1) = e.text.length - e.cursor by omega]
    congr 1
    split
    · have hread := @Mem.read_write _ buf.cells (e.cursor + 1)
        (buf.cells.read e.cursor (e.text.length + 1 - e.cursor - 1))
      rw [Mem.read_length, show e.text.length + 1 - e.cursor - 1 = e.text.length - e.cursor by omega]
        at hread
      rw [memmove, Ram.store_cells, show e.text.length + 1 - e.cursor - 1 = e.text.length - e.cursor by omega]
      exact hread
    · rw [show e.text.length - e.cursor = 0 by omega]
      rfl

/-- A character that is typed, while there is room. -/
theorem creadAddChar_shows (h : LineShows buf l e) (c : UInt8) (hroom : e.text.length < maxCmdbufSize) :
    LineShows (creadAddChar c l.insert maxCmdbufSize buf l).1
      (creadAddChar c l.insert maxCmdbufSize buf l).2 (e.char c) := by
  have hcur := h.cursor_le
  have hfits : ¬ e.text.length > maxCmdbufSize - 1 := by omega
  rw [creadAddChar, Editor.char, h.insert, h.num, h.eolNum]
  simp only [hfits, and_false, if_false]
  by_cases hgrow : e.insert = true ∨ e.cursor = e.text.length
  · have hmove : (e.insert = true ∧ e.text.length + 1 - e.cursor > 1) ↔
        e.text.length + 1 - e.cursor > 1 := by
      refine ⟨And.right, fun hlong => ⟨hgrow.resolve_right fun hend => ?_, hlong⟩⟩
      omega
    have hlen : (e.text.insertIdx e.cursor c).length = e.text.length + 1 :=
      List.length_insertIdx_of_le_length hcur c
    simp only [hmove, hgrow, if_true]
    exact ⟨rfl, hlen.symm, h.inserted c, rfl, h.esc, by simp only [hlen]; omega⟩
  · -- overwriting the character at the cursor
    obtain ⟨hins, hend⟩ := not_or.mp hgrow
    have hlt : e.cursor < e.text.length := Nat.lt_of_le_of_ne hcur hend
    simp only [hgrow, if_false]
    rw [if_neg fun hmove => hins hmove.1]
    exact ⟨rfl, (List.length_set ..).symm, h.stored c hlt, rfl, h.esc, by rw [List.length_set]; exact hlt⟩

/-- The character at position `i` is taken out, and the cursor left there. -/
theorem LineShows.erased (h : LineShows buf l e) {i : Nat} (hi : i < e.text.length) {buf' : Ram}
    (hbuf : buf'.cells = (memmove buf i (i + 1) (e.text.length - (i + 1))).cells) :
    LineShows buf' { l with num := i, eolNum := l.eolNum - 1 }
      { e with text := e.text.eraseIdx i, cursor := i } := by
  have hlen : (e.text.eraseIdx i).length = e.text.length - 1 := List.length_eraseIdx_of_lt hi
  refine ⟨rfl, by simp only [h.eolNum, hlen], ?_, h.insert, h.esc, by simp only [hlen]; omega⟩
  simp only [h.eolNum, hbuf]
  exact h.moved_down hi

/-- The text with which `cread_line` is called is typed in. -/
theorem creadAddStr_shows (str : List UInt8) (h : LineShows buf l e) (hins : e.insert = true)
    (hend : e.cursor = e.text.length) (hroom : e.text.length + str.length ≤ maxCmdbufSize) :
    LineShows (creadAddStr str true maxCmdbufSize buf l).1 (creadAddStr str true maxCmdbufSize buf l).2
      ⟨e.text ++ str, e.text.length + str.length, true⟩ := by
  induction str generalizing buf l e with
  | nil =>
    rw [List.append_nil, List.length_nil, Nat.add_zero, ← hend, ← hins]
    exact h
  | cons c cs ih =>
    rw [List.length_cons] at hroom
    have hchar := creadAddChar_shows h c (by omega)
    have he : e.char c = ⟨e.text ++ [c], e.text.length + 1, true⟩ := by
      rw [Editor.char, if_pos (.inl hins), hend, List.insertIdx_length_self, hins]
    rw [h.insert, hins, he] at hchar
    have hrest := ih hchar rfl (by simp) (by simp; omega)
    simp only [List.append_assoc, List.singleton_append, List.length_append, List.length_singleton]
      at hrest
    rw [List.length_cons, show e.text.length + (cs.length + 1) = e.text.length + 1 + cs.length by omega]
    exact hrest

/-- A line that is recalled. -/
theorem copyHistLine_shows {s : Console} {t : Session} {op : HistOp}
    (hl : LineShows s.buf l e) {r : History × Option (List UInt8)}
    (hout : r.2 = (t.history.step op).2) (hring : Ring r.1 (t.history.step op).1) :
    Shows (copyHistLine s l r) (t.recalled e op) := by
  obtain ⟨h, line⟩ := r
  rw [Session.recalled]
  generalize t.history.step op = q at hout hring
  obtain ⟨q, line'⟩ := q
  simp only at hout hring
  subst hout
  cases line with
  | none =>
    have hesc : { l with esc := [] } = l := by rw [← hl.esc]
    exact ⟨hring, .some (by rw [hesc]; exact hl), fun h => absurd h (by simp)⟩
  | some line =>
    refine ⟨hring, .some ⟨rfl, rfl, ?_, hl.insert, rfl, Nat.le_refl _⟩, fun h => absurd h (by simp)⟩
    have hread := @Mem.read_write _ s.buf.cells 0 (line ++ [0])
    rw [List.length_append, List.length_singleton, Mem.read_add] at hread
    exact (List.append_inj hread (by simp)).1

/-- Every key but Enter and the escape does to the buffer what it means. -/
theorem execute_shows {s : Console} {t : Session} (hs : Ring s.hist t.history)
    (hl : LineShows s.buf l e) (hroom : e.text.length < maxCmdbufSize) (c : UInt8) {cmd : Command}
    (hcmd : cmd ≠ .escape) : Shows (execute s l c cmd) (t.execute e c cmd) := by
  have hcur := hl.cursor_le
  -- the keys that leave buffer and history alone
  have hkeep {l' : Line} {e' : Editor} (h : LineShows s.buf l' e') :
      Shows { s with line := some l' } { t with editor := some e' } :=
    ⟨hs, .some h, fun h => absurd h (by simp)⟩
  cases cmd with
  | escape => exact absurd rfl hcmd
  | home => exact hkeep ⟨rfl, hl.eolNum, hl.text, hl.insert, hl.esc, Nat.zero_le _⟩
  | abort =>
    refine ⟨hs, .none, fun _ text htext => ?_⟩
    rw [← Option.some.inj htext]
    exact @Mem.read_write _ s.buf.cells 0 [0]
  | right =>
    refine hkeep ?_
    split
    · exact ⟨by simp only [hl.num, hl.eolNum] at *; omega, hl.eolNum, hl.text, hl.insert, hl.esc, Nat.min_le_right _ _⟩
    · exact ⟨by simp only [hl.num, hl.eolNum] at *; omega, hl.eolNum, hl.text, hl.insert, hl.esc, Nat.min_le_right _ _⟩
  | left =>
    refine hkeep ?_
    split
    · exact ⟨by simp only [hl.num], hl.eolNum, hl.text, hl.insert, hl.esc, Nat.le_trans (Nat.sub_le _ _) hcur⟩
    · exact ⟨by simp only [hl.num] at *; omega, hl.eolNum, hl.text, hl.insert, hl.esc, Nat.le_trans (Nat.sub_le _ _) hcur⟩
  | delete =>
    rw [execute, Session.execute, hl.num, hl.eolNum]
    by_cases hlt : e.cursor < e.text.length
    · rw [if_pos hlt]
      have hbuf : (if e.text.length - e.cursor - 1 ≠ 0 then
          memmove s.buf e.cursor (e.cursor + 1) (e.text.length - e.cursor - 1) else s.buf).cells =
            (memmove s.buf e.cursor (e.cursor + 1) (e.text.length - (e.cursor + 1))).cells := by
        rw [show e.text.length - e.cursor - 1 = e.text.length - (e.cursor + 1) by omega]
        split
        · rfl
        · rename_i hlast
          rw [not_not.mp hlast, memmove, Ram.store_cells]
          exact (Mem.write_nil _).symm
      have hline := hl.erased hlt hbuf
      rw [hl.eolNum] at hline
      exact ⟨hs, .some hline, fun h => absurd h (by simp)⟩
    · rw [if_neg hlt, List.eraseIdx_eq_self.mpr (Nat.le_of_not_lt hlt)]
      exact hkeep hl
  | killEol =>
    have hmin : min l.eolNum l.num = e.cursor := by rw [hl.num, hl.eolNum]; omega
    refine hkeep ⟨hl.num, ?_, ?_, hl.insert, hl.esc, ?_⟩
    · simp only [hmin, List.length_take, Nat.min_eq_left hcur]
    · simp only [hmin]
      exact (hl.take hcur).symm
    · simp only [List.length_take, Nat.min_eq_left hcur, Nat.le_refl]
  | endOfLine =>
    refine hkeep ⟨?_, hl.eolNum, hl.text, hl.insert, hl.esc, Nat.le_refl _⟩
    simp only [hl.num, hl.eolNum, Nat.max_eq_right hcur]
  | toggleInsert => exact hkeep ⟨hl.num, hl.eolNum, hl.text, by simp only [hl.insert], hl.esc, hcur⟩
  | killLine => exact hkeep ⟨rfl, rfl, rfl, hl.insert, hl.esc, Nat.le_refl _⟩
  | backspace =>
    rw [execute, Session.execute, Editor.backspace, hl.num, hl.eolNum]
    by_cases hzero : e.cursor = 0
    · rw [if_neg (not_not.mpr hzero), if_pos hzero]
      exact hkeep hl
    · rw [if_pos hzero, if_neg hzero]
      have hmoved : (memmove s.buf (e.cursor - 1) e.cursor (e.text.length - e.cursor)).cells =
          (memmove s.buf (e.cursor - 1) (e.cursor - 1 + 1) (e.text.length - (e.cursor - 1 + 1))).cells := by
        rw [show e.cursor - 1 + 1 = e.cursor by omega]
      have hline := hl.erased (i := e.cursor - 1) (by omega) hmoved
      rw [hl.eolNum] at hline
      exact ⟨hs, .some hline, fun h => absurd h (by simp)⟩
  | histPrev =>
    obtain ⟨hout, hring⟩ := histPrev_ring hs
    exact copyHistLine_shows hl hout hring
  | histNext =>
    obtain ⟨hout, hring⟩ := histNext_ring hs
    exact copyHistLine_shows hl hout hring
  | char => exact ⟨hs, .some (creadAddChar_shows hl c hroom), fun h => absurd h (by simp [Session.execute])⟩

/-- Enter leaves the text with its NUL, and enters it into the history or not. -/
theorem finish_shows {s : Console} {t : Session} (hs : Ring s.hist t.history)
    (hl : LineShows s.buf l e) (hroom : e.text.length < maxCmdbufSize) :
    Shows (finish s l) (t.finish e) := by
  have htext : (s.buf.store e.text.length [0]).cells.read 0 (e.text.length + 1) = e.text ++ [0] := by
    have happ := @Mem.read_write_append _ s.buf.cells 0 e.text.length [0] e.text
      (by rw [← hl.eolNum]; exact hl.text)
    rw [Nat.zero_add] at happ
    exact happ
  have hfirst : (s.buf.store e.text.length [0]).cells 0 = (cstr e.text).head?.getD 0 := by
    have hget : (s.buf.store e.text.length [0]).cells 0 = (e.text ++ [0])[0] := by
      rw [← List.getElem_of_eq htext (by simp), Mem.getElem_read]
    rw [hget]
    cases e.text with
    | nil => rfl
    | cons c cs => by_cases hc : c = 0 <;> simp [cstr, hc]
  have hshort : (cstr e.text).length < histSize :=
    Nat.lt_of_le_of_lt (List.takeWhile_prefix _).length_le hroom
  rw [finish, Session.finish, enterOp, hl.eolNum]
  simp only [hfirst, htext, cstr_append_nul]
  refine ⟨?_, .none, fun _ text htext' => ?_⟩
  · split
    · exact creadAddToHist_ring hs (cstr_noNul _) hshort
    · exact rewind_ring hs
  · rw [← Option.some.inj htext']
    exact htext

end Shows

-- ============================================================================
-- Runs
-- ============================================================================

theorem command_eq_escape {c : UInt8} (h : command c = .escape) : c = 0x1b := by
  rw [command] at h
  split at h
  · rename_i hc
    exact UInt8.toNat_inj.mp hc
  all_goals cases h

/-- One input keeps console and session together, while the text is below the limit. -/
theorem step_shows {s : Console} {t : Session} (h : Shows s t) (ht : t.Below) (i : Input)
    (hi : i ≠ .key 0x1b) : Shows (step s i) (t.step i) := by
  obtain ⟨hring, hline, hleft⟩ := h
  cases i with
  | call i =>
    have hempty : LineShows { s.buf with cells := i.junk.write 0 (i.text ++ [0]) } ⟨0, 0, true, []⟩
        ⟨[], 0, true⟩ := ⟨rfl, rfl, rfl, rfl, rfl, Nat.le_refl _⟩
    have hstr := creadAddStr_shows i.text hempty rfl rfl
      (by rw [List.length_nil, Nat.zero_add]; exact Nat.le_of_lt i.length_lt)
    rw [List.nil_append, List.length_nil, Nat.zero_add] at hstr
    exact ⟨hring, .some hstr, fun h => absurd h (by simp [Session.step])⟩
  | key c =>
    rw [step, Session.step]
    cases hs : s.line with
    | none =>
      rw [hs] at hline
      cases he : t.editor with
      | none => exact ⟨hring, by rw [hs, he]; exact .none, hleft⟩
      | some e => rw [he] at hline; cases hline
    | some l =>
      rw [hs] at hline
      cases he : t.editor with
      | none => rw [he] at hline; cases hline
      | some e =>
        rw [he] at hline
        obtain ⟨hl⟩ := hline
        have hroom := ht e he
        simp only [key, hl.esc]
        split
        · exact finish_shows hring hl hroom
        · refine execute_shows hring hl hroom c fun hesc => hi ?_
          rw [command_eq_escape hesc]

theorem start_shows (cells lines : Mem UInt8) : Shows (start cells lines) .start :=
  ⟨start_ring cells lines, .none, fun _ _ h => absurd h (by simp [Session.start])⟩

/-- **The line editor is the reference editor.** Over any number of calls and any keys
    but the escape, as long as the text stays below the length limit, the buffer shows
    the text of the reference and `num` its cursor after every input. -/
theorem shows_run (cells lines : Mem UInt8) (is : List Input) (hkeys : ∀ i ∈ is, i ≠ .key 0x1b)
    (hbelow : ∀ k, (run Session.step .start (is.take k)).Below) (k : Nat) :
    Shows (run step (start cells lines) (is.take k)) (run Session.step .start (is.take k)) := by
  induction k with
  | zero => exact start_shows cells lines
  | succ k ih =>
    by_cases hk : k < is.length
    · rw [List.take_add_one, List.getElem?_eq_getElem hk, Option.toList_some, run_append, run_append]
      exact step_shows ih (hbelow k) is[k] (hkeys _ (List.getElem_mem hk))
    · rw [List.take_of_length_le (by omega)] at ih ⊢
      exact ih

instance (s : Session) : Decidable s.Below :=
  inferInstanceAs (Decidable (∀ e ∈ s.editor, e.text.length < maxCmdbufSize))

/-- `ab`, one character to the left, and `c`. -/
def typed : List Input := .call emptyLine :: [97, 98, 2, 99].map .key

theorem typed_below (k : Nat) : (run Session.step .start (typed.take k)).Below := by
  by_cases hk : k < 5
  · interval_cases k <;> decide +kernel
  · rw [List.take_of_length_le (show typed.length ≤ k by simp [typed]; omega)]
    decide +kernel

/-- The console shows `acb` then, with the cursor before the `b`. -/
theorem shows_run_typed :
    Shows (run step (start (fun _ => 0) fun _ => 0) (typed.take 5))
      (run Session.step .start (typed.take 5)) :=
  shows_run (fun _ => 0) (fun _ => 0) typed (by simp [typed]) typed_below 5

example : (run Session.step .start (typed.take 5)).editor.map Editor.text = some [97, 99, 98] := by
  decide +kernel

end Uboot.Common.CreadLine
