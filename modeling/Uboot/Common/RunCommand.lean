/-
  Uboot.Common.RunCommand

  `run_command` of common/main.c without the hush parser: the line is cut at its
  separators, macros are replaced in each piece, `parse_line` cuts the result into
  words, and the command the first word names is called with them.

  What a command does, and what the environment and the console say meanwhile, is the
  board's.  Every turn of the loop of `run_command` is recorded.  Console output is
  left out.
-/

import Uboot.Common.ProcessMacros
import Mathlib.Data.Bool.AllAny

namespace Uboot.Common.RunCommand

open Uboot.Lib Uboot.LibGeneric Uboot.Common.ProcessMacros

-- ============================================================================
-- `parse_line`
-- ============================================================================

/-- A blank or a tab. -/
def isBlank (c : UInt8) : Bool := c = 32 || c = 9

/-- The locals of `parse_line` and what it changes: the line in its buffer and `argv`. -/
structure Parse where
  buf : List UInt8
  argv : Mem (Option Nat)
  nargs : Nat
  line : Nat

/-- `while ((*line == ' ') || (*line == '\t'))` -/
def skipBlanks (buf : List UInt8) (line : Nat) : Nat :=
  line + ((buf.drop line).takeWhile isBlank).length

/-- `while (*line && (*line != ' ') && (*line != '\t'))` -/
def endOfWord (buf : List UInt8) (line : Nat) : Nat :=
  line + ((buf.drop line).takeWhile fun c => c ≠ 0 && !isBlank c).length

/-- `while (nargs < CONFIG_SYS_MAXARGS)`, with the number of turns that are left.  When
    there is none there are too many arguments. -/
def parseLoop : Nat → Parse → Parse
  | 0, s => s
  | room + 1, s =>
    let line := skipBlanks s.buf s.line
    if s.buf.getD line 0 = 0 then { s with argv := s.argv.write s.nargs [none], line := line }
    else
      let argv := s.argv.write s.nargs [some line]
      let stop := endOfWord s.buf line
      if s.buf.getD stop 0 = 0 then
        { s with argv := argv.write (s.nargs + 1) [none], nargs := s.nargs + 1, line := stop }
      else
        parseLoop room
          { buf := s.buf.set stop 0, argv := argv, nargs := s.nargs + 1, line := stop + 1 }

/-- `parse_line`, with `CONFIG_SYS_MAXARGS` as `maxArgs`. -/
def parseLine (maxArgs : Nat) (buf : List UInt8) (argv : Mem (Option Nat)) : Parse :=
  parseLoop maxArgs ⟨buf, argv, 0, 0⟩

-- ============================================================================
-- Words
-- ============================================================================

/-- The blank-separated words of a text. -/
def words (text : List UInt8) : List (List UInt8) := (text.splitOnP isBlank).filter (· ≠ [])

section Words

variable {b : UInt8} {bl w text : List UInt8}

theorem words_blanks (hbl : ∀ c ∈ bl, isBlank c = true) (text : List UInt8) :
    words (bl ++ text) = words text := by
  induction bl with
  | nil => rfl
  | cons c cs ih =>
    obtain ⟨hc, hcs⟩ := List.forall_mem_cons.mp hbl
    rw [← ih hcs, words, List.cons_append, ← List.nil_append (c :: (cs ++ text)),
      List.splitOnP_append_cons_of_forall_mem (by simp) c hc]
    rfl

theorem words_of_blank (hbl : ∀ c ∈ bl, isBlank c = true) : words bl = [] := by
  have h := words_blanks hbl []
  rw [List.append_nil] at h
  exact h

theorem words_word (hw : ∀ c ∈ w, isBlank c = false) (hne : w ≠ []) : words w = [w] := by
  rw [words, List.splitOnP_eq_singleton hw]
  simp [hne]

theorem words_cons (hw : ∀ c ∈ w, isBlank c = false) (hne : w ≠ []) (hb : isBlank b = true)
    (text : List UInt8) : words (w ++ b :: text) = w :: words text := by
  rw [words, List.splitOnP_append_cons_of_forall_mem hw b hb]
  simp [hne, words]

/-- A text is blank, or it has a first word, behind which it ends or goes on. -/
theorem word_cases (text : List UInt8) :
    ∃ bl, (∀ c ∈ bl, isBlank c = true) ∧
      (text = bl ∨ ∃ w, w ≠ [] ∧ (∀ c ∈ w, isBlank c = false) ∧
        (text = bl ++ w ∨ ∃ b rest, isBlank b = true ∧ text = bl ++ (w ++ b :: rest))) := by
  refine ⟨text.takeWhile isBlank, fun c hc => List.all_eq_true.mp List.all_takeWhile c hc, ?_⟩
  have htext := List.takeWhile_append_dropWhile (p := isBlank) (l := text)
  cases hrest : text.dropWhile isBlank with
  | nil =>
    rw [hrest, List.append_nil] at htext
    exact .inl htext.symm
  | cons c cs =>
    have hc : isBlank c = false := by
      have hhead := List.head_dropWhile_not isBlank (l := text) (by rw [hrest]; simp)
      simpa [hrest] using hhead
    right
    refine ⟨(c :: cs).takeWhile (!isBlank ·), by simp [hc], ?_, ?_⟩
    · intro x hx
      simpa using List.all_eq_true.mp List.all_takeWhile x hx
    · have hword := List.takeWhile_append_dropWhile (p := (!isBlank ·)) (l := c :: cs)
      cases hnext : (c :: cs).dropWhile (!isBlank ·) with
      | nil =>
        rw [hnext, List.append_nil] at hword
        exact .inl (by rw [hword, ← hrest, htext])
      | cons b rest =>
        have hb : isBlank b = true := by
          have hhead := List.head_dropWhile_not (!isBlank ·) (l := c :: cs) (by rw [hnext]; simp)
          simpa [hnext] using hhead
        rw [hnext] at hword
        exact .inr ⟨b, rest, hb, by rw [hword, ← hrest, htext]⟩

/-- A word is made of characters of the text. -/
theorem mem_of_words (text : List UInt8) : ∀ w ∈ words text, ∀ c ∈ w, c ∈ text := by
  induction hn : text.length using Nat.strong_induction_on generalizing text with
  | _ n ih =>
    subst hn
    obtain ⟨bl, hbl, rfl | ⟨w, hne, hw, rfl | ⟨b, rest, hb, rfl⟩⟩⟩ := word_cases text
    · simp [words_of_blank hbl]
    · rw [words_blanks hbl, words_word hw hne]
      simp only [List.mem_singleton, forall_eq]
      exact fun c hc => List.mem_append_right _ hc
    · rw [words_blanks hbl, words_cons hw hne hb, List.forall_mem_cons]
      refine ⟨fun c hc => by simp [hc], fun w' hw' c hc => ?_⟩
      have hlt : rest.length < (bl ++ (w ++ b :: rest)).length := by
        simp only [List.length_append, List.length_cons]
        omega
      have hrest := ih rest.length hlt rest rfl w' hw' c hc
      simp [hrest]

/-- A scan stops at the first character that is not looked for. -/
theorem takeWhile_stop {p : UInt8 → Bool} {x : UInt8} {xs rest : List UInt8} (hxs : ∀ c ∈ xs, p c = true)
    (hx : p x = false) : (xs ++ x :: rest).takeWhile p = xs := by
  rw [List.takeWhile_append_of_pos hxs, List.takeWhile_cons, hx]
  exact List.append_nil xs

end Words

-- ============================================================================
-- The turns of `parse_line`
-- ============================================================================

section Parse

variable {A Z bl w text : List UInt8} {b x : UInt8} {s : Parse} {room : Nat}

theorem getD_at (A R : List UInt8) (x : UInt8) : (A ++ x :: R).getD A.length 0 = x := by simp

theorem skipBlanks_at (hbl : ∀ c ∈ bl, isBlank c = true) (hx : isBlank x = false) :
    skipBlanks (A ++ (bl ++ x :: Z)) A.length = (A ++ bl).length := by
  rw [skipBlanks, List.drop_left, takeWhile_stop hbl hx, List.length_append]

theorem endOfWord_at (hw : ∀ c ∈ w, isBlank c = false) (hnul : 0 ∉ w) (hx : x = 0 ∨ isBlank x = true) :
    endOfWord (A ++ (w ++ x :: Z)) A.length = (A ++ w).length := by
  have hall : ∀ c ∈ w, (c ≠ 0 && !isBlank c) = true := by
    intro c hc
    have hc0 : c ≠ 0 := fun h => hnul (h ▸ hc)
    simp [hw c hc, hc0]
  have hstop : (x ≠ 0 && !isBlank x) = false := by rcases hx with rfl | hx <;> simp [*]
  rw [endOfWord, List.drop_left, takeWhile_stop hall hstop, List.length_append]

/-- Nothing but blanks is left: the list of arguments ends here. -/
theorem parseLoop_blank (hbl : ∀ c ∈ bl, isBlank c = true) (hbuf : s.buf = A ++ (bl ++ 0 :: Z))
    (hline : s.line = A.length) :
    parseLoop (room + 1) s =
      { s with argv := s.argv.write s.nargs [none], line := (A ++ bl).length } := by
  have hskip : skipBlanks s.buf s.line = (A ++ bl).length := by
    rw [hbuf, hline]
    exact skipBlanks_at hbl (by decide)
  have hend : s.buf.getD (A ++ bl).length 0 = 0 := by
    rw [hbuf, ← List.append_assoc]
    exact getD_at _ _ _
  rw [parseLoop]
  simp only [hskip, hend, if_true]

/-- A word that ends the line is the last argument. -/
theorem parseLoop_last (hbl : ∀ c ∈ bl, isBlank c = true) (hw : ∀ c ∈ w, isBlank c = false)
    (hne : w ≠ []) (hnul : 0 ∉ w) (hbuf : s.buf = A ++ (bl ++ (w ++ 0 :: Z)))
    (hline : s.line = A.length) :
    parseLoop (room + 1) s =
      { s with
        argv := (s.argv.write s.nargs [some (A ++ bl).length]).write (s.nargs + 1) [none]
        nargs := s.nargs + 1
        line := (A ++ bl ++ w).length } := by
  obtain ⟨c, cs, rfl⟩ := List.exists_cons_of_ne_nil hne
  have hc : isBlank c = false := hw c List.mem_cons_self
  have hc0 : c ≠ 0 := fun h => hnul (h ▸ List.mem_cons_self)
  have hskip : skipBlanks s.buf s.line = (A ++ bl).length := by
    rw [hbuf, hline]
    exact skipBlanks_at hbl hc
  have hbuf' : s.buf = (A ++ bl) ++ ((c :: cs) ++ 0 :: Z) := by rw [hbuf, List.append_assoc]
  have hstart : s.buf.getD (A ++ bl).length 0 = c := by
    rw [hbuf']
    exact getD_at _ _ _
  have hend : endOfWord s.buf (A ++ bl).length = (A ++ bl ++ (c :: cs)).length := by
    rw [hbuf']
    exact endOfWord_at hw hnul (.inl rfl)
  have hstop : s.buf.getD (A ++ bl ++ (c :: cs)).length 0 = 0 := by
    rw [hbuf', ← List.append_assoc]
    exact getD_at _ _ _
  rw [parseLoop]
  simp only [hskip, hstart, if_neg hc0, hend, hstop, if_true]

/-- Behind any other word the blank is overwritten, and the line goes on. -/
theorem parseLoop_next (hbl : ∀ c ∈ bl, isBlank c = true) (hw : ∀ c ∈ w, isBlank c = false)
    (hne : w ≠ []) (hnul : 0 ∉ w) (hb : isBlank b = true)
    (hbuf : s.buf = A ++ (bl ++ (w ++ b :: (text ++ 0 :: Z)))) (hline : s.line = A.length) :
    parseLoop (room + 1) s =
      parseLoop room
        { buf := A ++ bl ++ w ++ [0] ++ (text ++ 0 :: Z)
          argv := s.argv.write s.nargs [some (A ++ bl).length]
          nargs := s.nargs + 1
          line := (A ++ bl ++ w ++ [0]).length } := by
  obtain ⟨c, cs, rfl⟩ := List.exists_cons_of_ne_nil hne
  have hc : isBlank c = false := hw c List.mem_cons_self
  have hc0 : c ≠ 0 := fun h => hnul (h ▸ List.mem_cons_self)
  have hb0 : b ≠ 0 := by
    rintro rfl
    exact absurd hb (by decide)
  have hskip : skipBlanks s.buf s.line = (A ++ bl).length := by
    rw [hbuf, hline]
    exact skipBlanks_at hbl hc
  have hbuf' : s.buf = (A ++ bl) ++ ((c :: cs) ++ b :: (text ++ 0 :: Z)) := by
    rw [hbuf, List.append_assoc]
  have hstart : s.buf.getD (A ++ bl).length 0 = c := by
    rw [hbuf']
    exact getD_at _ _ _
  have hend : endOfWord s.buf (A ++ bl).length = (A ++ bl ++ (c :: cs)).length := by
    rw [hbuf']
    exact endOfWord_at hw hnul (.inr hb)
  have hstop : s.buf.getD (A ++ bl ++ (c :: cs)).length 0 = b := by
    rw [hbuf', ← List.append_assoc]
    exact getD_at _ _ _
  have hset : s.buf.set (A ++ bl ++ (c :: cs)).length 0 =
      A ++ bl ++ (c :: cs) ++ [0] ++ (text ++ 0 :: Z) := by
    rw [hbuf', ← List.append_assoc]
    simp
  have hlen : (A ++ bl ++ (c :: cs) ++ [0]).length = (A ++ bl ++ (c :: cs)).length + 1 :=
    List.length_append
  rw [parseLoop, hlen]
  simp only [hskip, hstart, if_neg hc0, hend, hstop, if_neg hb0, hset]

/-- The list of arguments is closed: there is room for a further one, or the last one
    ends the line. -/
def Closed (room : Nat) (text : List UInt8) : Prop :=
  (words text).length < room ∨
    (words text).length = room ∧ ∃ c ∈ text.getLast?, isBlank c = false

theorem closed_next (hbl : ∀ c ∈ bl, isBlank c = true) (hw : ∀ c ∈ w, isBlank c = false)
    (hne : w ≠ []) (hb : isBlank b = true) :
    Closed (room + 1) (bl ++ (w ++ b :: text)) ↔ Closed room text := by
  rw [Closed, Closed, words_blanks hbl, words_cons hw hne hb, List.length_cons]
  cases text with
  | nil => simp [words, hb]
  | cons c cs =>
    have hlast : (bl ++ (w ++ b :: c :: cs)).getLast? = (c :: cs).getLast? := by
      have hsome := List.getLast?_eq_some_getLast (List.cons_ne_nil c cs)
      rw [List.getLast?_append, List.getLast?_append, List.getLast?_cons_cons, hsome, Option.some_or,
        Option.some_or]
    rw [hlast]
    simp only [Nat.add_lt_add_iff_right, Nat.add_right_cancel_iff]

/-- What a parse that began in `s` has made of `text`: the words there is room for, each
    where `argv` points, and behind them the NULL if the list is closed. -/
structure Parsed (s : Parse) (room : Nat) (A text : List UInt8) (r : Parse) : Prop where
  nargs : r.nargs = s.nargs + min (words text).length room
  buf : ∃ rest, r.buf = A ++ rest
  args : ∀ i (hi : i < (words text).length), i < room →
    ∃ p rest, r.argv (s.nargs + i) = some p ∧ r.buf.drop p = (words text)[i] ++ 0 :: rest
  closed : Closed room text → r.argv r.nargs = none
  open_ : ¬ Closed room text → r.argv (s.nargs + room) = s.argv (s.nargs + room)
  before : ∀ x < s.nargs, r.argv x = s.argv x

theorem write_single {α : Type} (m : Mem α) (a x : Nat) (v : α) :
    m.write a [v] x = if x = a then v else m x := by
  by_cases hx : x = a
  · subst hx
    simpa using @Mem.write_inside _ m x [v] 0 (by simp)
  · rw [if_neg hx, m.write_outside (by simp only [List.length_singleton]; omega)]

/-- There is no room left: nothing is parsed. -/
theorem parsed_noRoom (hbuf : s.buf = A ++ (text ++ 0 :: Z)) : Parsed s 0 A text (parseLoop 0 s) := by
  have hopen : ¬ Closed 0 text := by
    rintro (h | ⟨h, c, hc, hcb⟩)
    · exact Nat.not_lt_zero _ h
    · -- a text without words ends in a blank, if at all
      obtain ⟨bl, hbl, rfl | ⟨w, hne, hw, rfl | ⟨b, rest, hb, rfl⟩⟩⟩ := word_cases text
      · rw [hbl c (List.mem_of_getLast? hc)] at hcb
        exact absurd hcb (by simp)
      · rw [words_blanks hbl, words_word hw hne] at h
        simp at h
      · rw [words_blanks hbl, words_cons hw hne hb] at h
        simp at h
  exact
    { nargs := by simp [parseLoop]
      buf := ⟨_, hbuf⟩
      args := fun i _ hi => absurd hi (Nat.not_lt_zero i)
      closed := fun h => absurd h hopen
      open_ := fun _ => rfl
      before := fun _ _ => rfl }

/-- Only blanks are left. -/
theorem parsed_blank (hbl : ∀ c ∈ bl, isBlank c = true) (hbuf : s.buf = A ++ (bl ++ 0 :: Z))
    (hline : s.line = A.length) : Parsed s (room + 1) A bl (parseLoop (room + 1) s) := by
  rw [parseLoop_blank hbl hbuf hline]
  have hwords := words_of_blank hbl
  exact
    { nargs := by simp [hwords]
      buf := ⟨_, hbuf⟩
      args := fun i hi => absurd hi (by simp [hwords])
      closed := fun _ => by simp only [write_single, if_true]
      open_ := fun h => absurd (.inl (by simp [hwords])) h
      before := fun x hx => by simp only [write_single, if_neg (Nat.ne_of_lt hx)] }

/-- The list is closed behind a word that ends the line. -/
theorem closed_last (hbl : ∀ c ∈ bl, isBlank c = true) (hw : ∀ c ∈ w, isBlank c = false) (hne : w ≠ []) :
    Closed (room + 1) (bl ++ w) := by
  have hwords : words (bl ++ w) = [w] := by rw [words_blanks hbl, words_word hw hne]
  have hlast : (bl ++ w).getLast? = some (w.getLast hne) := by
    rw [List.getLast?_append, List.getLast?_eq_some_getLast hne, Option.some_or]
  rw [Closed, hwords, hlast]
  by_cases hroom : room = 0
  · exact .inr ⟨by simp [hroom], _, rfl, hw _ (List.getLast_mem hne)⟩
  · exact .inl (by simp; omega)

/-- A word that ends the line. -/
theorem parsed_last (hbl : ∀ c ∈ bl, isBlank c = true) (hw : ∀ c ∈ w, isBlank c = false) (hne : w ≠ [])
    (hnul : 0 ∉ w) (hbuf : s.buf = A ++ (bl ++ (w ++ 0 :: Z))) (hline : s.line = A.length) :
    Parsed s (room + 1) A (bl ++ w) (parseLoop (room + 1) s) := by
  rw [parseLoop_last hbl hw hne hnul hbuf hline]
  have hwords : words (bl ++ w) = [w] := by rw [words_blanks hbl, words_word hw hne]
  refine
    { nargs := by simp [hwords]
      buf := ⟨_, hbuf⟩
      args := fun i hi _ => ?_
      closed := fun _ => by simp only [write_single, if_true]
      open_ := fun h => absurd (closed_last hbl hw hne) h
      before := fun x hx => ?_ }
  · have hi0 : i = 0 := by simpa [hwords] using hi
    subst hi0
    refine ⟨(A ++ bl).length, Z, ?_, ?_⟩
    · simp only [write_single, Nat.add_zero, if_true, if_neg (Nat.ne_of_lt (Nat.lt_succ_self s.nargs))]
    · simp only [hbuf, hwords, List.getElem_cons_zero, ← List.append_assoc A bl]
      exact List.drop_left ..
  · simp only [write_single]
    rw [if_neg (by omega), if_neg (by omega)]

/-- A word in front of others: it is the next argument, and the rest is parsed behind it. -/
theorem Parsed.next {r : Parse} (hbl : ∀ c ∈ bl, isBlank c = true) (hw : ∀ c ∈ w, isBlank c = false)
    (hne : w ≠ []) (hb : isBlank b = true)
    (h : Parsed ⟨A ++ bl ++ w ++ [0] ++ (text ++ 0 :: Z), s.argv.write s.nargs [some (A ++ bl).length], s.nargs + 1,
      (A ++ bl ++ w ++ [0]).length⟩ room (A ++ bl ++ w ++ [0]) text r) :
    Parsed s (room + 1) A (bl ++ (w ++ b :: text)) r := by
  have hwords : words (bl ++ (w ++ b :: text)) = w :: words text := by
    rw [words_blanks hbl, words_cons hw hne hb]
  obtain ⟨hnargs, ⟨behind, hbehind⟩, hargs, hclosed, hopen, hbefore⟩ := h
  dsimp only at hnargs hargs hopen hbefore
  refine
    { nargs := ?_
      buf := ⟨_, by rw [hbehind, List.append_assoc, List.append_assoc, List.append_assoc]⟩
      args := fun i hi hroom => ?_
      closed := fun h => hclosed ((closed_next hbl hw hne hb).mp h)
      open_ := fun h => ?_
      before := fun x hx => ?_ }
  · rw [hnargs, hwords, List.length_cons]
    omega
  · cases i with
    | zero =>
      refine ⟨(A ++ bl).length, behind, ?_, ?_⟩
      · rw [Nat.add_zero, hbefore s.nargs (Nat.lt_succ_self _)]
        simp only [write_single, if_true]
      · simp only [hwords, List.getElem_cons_zero, hbehind]
        rw [List.append_assoc (A ++ bl), List.append_assoc (A ++ bl), List.drop_left]
        simp
    | succ i =>
      have hi' : i < (words text).length := by simpa [hwords] using hi
      obtain ⟨p, tail, hp, hdrop⟩ := hargs i hi' (Nat.lt_of_succ_lt_succ hroom)
      refine ⟨p, tail, ?_, ?_⟩
      · rw [← hp]
        exact congrArg r.argv (by omega)
      · rw [hdrop]
        simp only [hwords, List.getElem_cons_succ]
  · have hopen := hopen fun h' => h ((closed_next hbl hw hne hb).mpr h')
    simp only [write_single] at hopen
    rw [if_neg (by omega)] at hopen
    rw [show s.nargs + (room + 1) = s.nargs + 1 + room by omega, hopen]
  · rw [hbefore x (by omega)]
    simp only [write_single, if_neg (Nat.ne_of_lt hx)]

/-- **The word loop.** -/
theorem parseLoop_parsed (hnul : 0 ∉ text) (hbuf : s.buf = A ++ (text ++ 0 :: Z))
    (hline : s.line = A.length) : Parsed s room A text (parseLoop room s) := by
  induction room generalizing s A text with
  | zero => exact parsed_noRoom hbuf
  | succ room ih =>
    obtain ⟨bl, hbl, rfl | ⟨w, hne, hw, rfl | ⟨b, rest, hb, rfl⟩⟩⟩ := word_cases text
    · exact parsed_blank hbl hbuf hline
    · rw [List.append_assoc] at hbuf
      exact parsed_last hbl hw hne (fun h => hnul (List.mem_append_right _ h)) hbuf hline
    · have hsplit : bl ++ (w ++ b :: rest) ++ 0 :: Z = bl ++ (w ++ b :: (rest ++ 0 :: Z)) := by simp
      rw [hsplit] at hbuf
      rw [parseLoop_next hbl hw hne (fun h => hnul (by simp [h])) hb hbuf hline]
      exact (ih (fun h => hnul (by simp [h])) rfl rfl).next hbl hw hne hb

end Parse

-- ============================================================================
-- `run_command`
-- ============================================================================

/-- `cmd_tbl_t`.  `bootd` stands for `cmd == do_bootd`. -/
structure CmdTbl where
  name : List UInt8
  maxargs : Nat
  repeatable : Nat
  bootd : Bool

/-- `CMD_FLAG_BOOTD`. -/
def flagBootd : Nat := 2

/-- The board: its command table, and what the environment, the commands and the console
    do to the rest of its state `σ`.  A command is handed `argc`, `argv` and the buffer
    that `argv` points into. -/
structure Board (σ : Type) where
  maxArgs : Nat
  maxArgs_pos : 0 < maxArgs
  table : List CmdTbl
  getenv : σ → List UInt8 → Option (List UInt8)
  cmd : CmdTbl → Nat → Parse → σ → Int × σ
  clearCtrlc : σ → σ
  hadCtrlc : σ → Bool

/-- The commands whose name begins with `cmd`, up to its first dot. -/
def candidates (table : List CmdTbl) (cmd : List UInt8) : List CmdTbl :=
  table.filter fun c => (cmd.takeWhile (· ≠ 46)).isPrefixOf c.name

/-- `find_cmd_tbl`: the first full match, or the only abbreviation. -/
def findCmd (table : List CmdTbl) (cmd : List UInt8) : Option CmdTbl :=
  match (candidates table cmd).find? fun c => (cmd.takeWhile (· ≠ 46)).length = c.name.length with
  | some c => some c
  | none =>
    match candidates table cmd with
    | [c] => some c
    | _ => none

/-- The locals of `run_command` that live through a turn of its loop, and the board. -/
structure Vars (σ : Type) where
  world : σ
  finaltoken : List UInt8
  argv : Mem (Option Nat)
  flag : Nat
  repeatable : Nat
  rc : Int

/-- A turn of the loop: what it began with, what `process_macros` made of the token, what
    `parse_line` made of that, the command that was called, and what it ended with. -/
structure Turn (σ : Type) where
  before : Vars σ
  buf : List UInt8
  parse : Parse
  called : Option CmdTbl
  after : Vars σ

/-- The text of the turn: what is in `finaltoken` for `parse_line`. -/
def Turn.text {σ : Type} (t : Turn σ) : List UInt8 := cstr t.buf

/-- `argv[0]`, as `find_cmd` reads it. -/
def Parse.arg0 (p : Parse) : List UInt8 := ((p.argv 0).map fun q => cstr (p.buf.drop q)).getD []

variable {σ : Type}

/-- The command a turn calls, with the flags it is called with. -/
def selectCmd (b : Board σ) (flag : Nat) (p : Parse) : Option (CmdTbl × Nat) :=
  if p.nargs = 0 then none
  else
    match findCmd b.table p.arg0 with
    | none => none
    | some cmdtp =>
      if p.nargs > cmdtp.maxargs then none
      else if cmdtp.bootd then
        if flag &&& flagBootd ≠ 0 then none else some (cmdtp, flag ||| flagBootd)
      else some (cmdtp, flag)

/-- The body of `while (*str)`, for one token. -/
def turn (b : Board σ) (v : Vars σ) (token : List UInt8) : Turn σ :=
  let r := processMacros (b.getenv v.world) token 0 fun x => v.finaltoken.getD x 0
  let buf := r.cells.read 0 cbsize
  let p := parseLine b.maxArgs buf v.argv
  let v' := { v with finaltoken := p.buf, argv := p.argv }
  match selectCmd b v.flag p with
  | none => ⟨v, buf, p, none, { v' with rc := -1 }⟩
  | some (cmdtp, flag) =>
    let ret := b.cmd cmdtp flag p v.world
    ⟨v, buf, p, some cmdtp,
      { v' with
        world := ret.2
        flag := flag
        repeatable := v.repeatable &&& cmdtp.repeatable
        rc := if ret.1 ≠ 0 then -1 else v.rc }⟩

/-- The search for a separator from `sep` on: how far it is.  `first` says that `sep` is
    still at the start of the token, `prev` is the character before it. -/
def sepLoop (inquotes first : Bool) (prev : UInt8) : List UInt8 → Nat
  | [] => 0
  | c :: sep =>
    let inquotes := if c = quote ∧ prev ≠ backslash then !inquotes else inquotes
    if inquotes = false ∧ c = 59 ∧ first = false ∧ prev ≠ backslash then 0
    else 1 + sepLoop inquotes false c sep

/-- `return rc ? rc : repeatable` -/
def Vars.result (v : Vars σ) : Int := if v.rc ≠ 0 then v.rc else v.repeatable

/-- The loop of `run_command`: what it returns, and its turns.  `prev` is the character
    before the token. -/
def runLoop (b : Board σ) : Nat → Vars σ → UInt8 → List UInt8 → Int × List (Turn σ)
  | 0, v, _, _ => (v.result, [])
  | fuel + 1, v, prev, str =>
    if str = [] then (v.result, [])
    else
      let n := sepLoop false true prev str
      let t := turn b v (str.take n)
      if t.called.isSome ∧ b.hadCtrlc t.after.world then (-1, [t])
      else
        let r := runLoop b fuel t.after 0 (str.drop (n + 1))
        (r.1, t :: r.2)

/-- `run_command`, with what its locals and the byte before `cmdbuf` happen to hold. -/
def runCommand (b : Board σ) (cmd : Option (List UInt8)) (flag : Nat) (world : σ)
    (finaltoken : List UInt8) (argv : Mem (Option Nat)) (before : UInt8) : Int × List (Turn σ) :=
  match cmd with
  | none => (-1, [])
  | some cmd =>
    if cmd = [] ∨ cbsize ≤ cmd.length then (-1, [])
    else runLoop b cmd.length ⟨b.clearCtrlc world, finaltoken, argv, flag, 1, 0⟩ before cmd

/-- There is fuel for every turn. -/
theorem runLoop_fuel (b : Board σ) {fuel : Nat} {v : Vars σ} {prev : UInt8} {str : List UInt8}
    (h : str.length ≤ fuel) : runLoop b (fuel + 1) v prev str = runLoop b fuel v prev str := by
  induction fuel generalizing v prev str with
  | zero =>
    rw [List.eq_nil_of_length_eq_zero (Nat.le_zero.mp h)]
    rfl
  | succ fuel ih =>
    rw [runLoop, runLoop]
    by_cases hnil : str = []
    · rw [if_pos hnil, if_pos hnil]
    · have hpos := List.length_pos_iff.mpr hnil
      have hrest (v : Vars σ) (n : Nat) :
          runLoop b (fuel + 1) v 0 (str.drop (n + 1)) = runLoop b fuel v 0 (str.drop (n + 1)) :=
        ih (by rw [List.length_drop]; omega)
      simp only [if_neg hnil, hrest]

-- ============================================================================
-- Arguments that are not cut off
-- ============================================================================

/-- `parse_line` has found every word of the text, and closed the list. -/
structure Turn.Parses (t : Turn σ) : Prop where
  nargs : t.parse.nargs = (words t.text).length
  args : ∀ i (hi : i < (words t.text).length),
    ∃ p rest, t.parse.argv i = some p ∧ t.parse.buf.drop p = (words t.text)[i] ++ 0 :: rest
  null : t.parse.argv t.parse.nargs = none

/-- Up to `CONFIG_SYS_MAXARGS` words are parsed; with more the turn calls no command, and
    `run_command` returns `result`, -1. -/
@[irreducible]
def Turn.Good (b : Board σ) (t : Turn σ) (result : Int) : Prop :=
  if (words t.text).length ≤ b.maxArgs then t.Parses else t.called = none ∧ result = -1

/-- As many words as there is room for must end the line (or the slot behind them hold a
    NULL already); where there are more, the command must be unknown, take fewer
    arguments, or be a `bootd` inside of `bootd`. -/
@[irreducible]
def Turn.Fits (b : Board σ) (t : Turn σ) : Prop :=
  if (words t.text).length ≤ b.maxArgs then
    (words t.text).length < b.maxArgs ∨ (∃ c ∈ t.text.getLast?, isBlank c = false) ∨
      t.before.argv b.maxArgs = none
  else
    ∀ cmdtp ∈ findCmd b.table ((words t.text).headD []),
      cmdtp.maxargs < b.maxArgs ∨ cmdtp.bootd = true ∧ t.before.flag &&& flagBootd ≠ 0

section Turn

variable (b : Board σ) (v : Vars σ) (token : List UInt8)

theorem turn_buf (b : Board σ) (v : Vars σ) (token : List UInt8) :
    ∃ Z, (turn b v token).buf = (turn b v token).text ++ 0 :: Z := by
  have hbuf : (turn b v token).buf =
      (processMacros (b.getenv v.world) token 0 fun x => v.finaltoken.getD x 0).cells.read 0 cbsize := by
    simp only [turn]
    split <;> rfl
  obtain ⟨txt, hlen, htxt⟩ := processMacros_line (b.getenv v.world) token 0
    fun x => v.finaltoken.getD x 0
  obtain ⟨k, hk⟩ := Nat.exists_eq_add_of_le (Nat.succ_le_of_lt hlen)
  have hmem : (0 : UInt8) ∈ (turn b v token).buf := by
    rw [hbuf, hk, Mem.read_add, htxt]
    simp
  exact ⟨_, eq_takeWhile_cons hmem⟩

theorem turn_parse : (turn b v token).parse = parseLine b.maxArgs (turn b v token).buf v.argv := by
  simp only [turn]
  split <;> rfl

theorem turn_before : (turn b v token).before = v := by
  simp only [turn]
  split <;> rfl

/-- What `parse_line` does in a turn. -/
theorem turn_parsed :
    Parsed ⟨(turn b v token).buf, v.argv, 0, 0⟩ b.maxArgs [] (turn b v token).text
      (turn b v token).parse := by
  obtain ⟨Z, hbuf⟩ := turn_buf b v token
  rw [turn_parse]
  exact parseLoop_parsed (cstr_noNul _) hbuf rfl

theorem turn_called : (turn b v token).called = (selectCmd b v.flag (turn b v token).parse).map Prod.fst := by
  rw [turn_parse]
  simp only [turn]
  split
  · rename_i h
    simp only at h ⊢
    rw [h]
    rfl
  · rename_i h
    simp only at h ⊢
    rw [h]
    rfl

/-- With the list of words closed, or a NULL behind a full one, `parse_line` is right. -/
theorem turn_parses_iff (hle : (words (turn b v token).text).length ≤ b.maxArgs) :
    (turn b v token).Parses ↔
      Closed b.maxArgs (turn b v token).text ∨ v.argv b.maxArgs = none := by
  have h := turn_parsed b v token
  generalize turn b v token = t at h hle ⊢
  obtain ⟨hnargs, -, hargs, hclosed, hopen, -⟩ := h
  simp only [Nat.zero_add, Nat.min_eq_left hle] at hnargs hargs hopen
  have hall : ∀ i (hi : i < (words t.text).length), ∃ p rest, t.parse.argv i = some p ∧
      t.parse.buf.drop p = (words t.text)[i] ++ 0 :: rest :=
    fun i hi => hargs i hi (Nat.lt_of_lt_of_le hi hle)
  by_cases hc : Closed b.maxArgs t.text
  · exact ⟨fun _ => .inl hc, fun _ => ⟨hnargs, hall, hclosed hc⟩⟩
  · have hfull : (words t.text).length = b.maxArgs :=
      Nat.le_antisymm hle (Nat.le_of_not_lt fun h => hc (.inl h))
    rw [or_iff_right hc, ← hopen hc, ← hfull, ← hnargs]
    exact ⟨Turn.Parses.null, fun hnull => ⟨hnargs, hall, hnull⟩⟩

/-- With too many words the turn calls no command just where none may be called with as
    many as there is room for. -/
theorem called_eq_none_iff (hgt : b.maxArgs < (words (turn b v token).text).length) :
    (turn b v token).called = none ↔
      ∀ cmdtp ∈ findCmd b.table ((words (turn b v token).text).headD []),
        cmdtp.maxargs < b.maxArgs ∨ cmdtp.bootd = true ∧ v.flag &&& flagBootd ≠ 0 := by
  have h := turn_parsed b v token
  rw [turn_called, Option.map_eq_none_iff]
  generalize turn b v token = t at h hgt ⊢
  have hpos := b.maxArgs_pos
  obtain ⟨hnargs, -, hargs, -⟩ := h
  simp only [Nat.zero_add, Nat.min_eq_right hgt.le] at hnargs hargs
  have harg0 : t.parse.arg0 = (words t.text).headD [] := by
    obtain ⟨p, rest, hp, hdrop⟩ := hargs 0 (Nat.lt_trans hpos hgt) hpos
    have hnul : (0 : UInt8) ∉ (words t.text)[0] := fun hmem =>
      cstr_noNul t.buf (mem_of_words t.text _ (List.getElem_mem (Nat.lt_trans hpos hgt)) 0 hmem)
    rw [Parse.arg0, hp, Option.map_some, hdrop, cstr_append hnul, Option.getD_some, List.headD_eq_head?_getD,
      List.head?_eq_getElem?, List.getElem?_eq_getElem (Nat.lt_trans hpos hgt), Option.getD_some]
  rw [selectCmd, hnargs, if_neg (Nat.ne_of_gt hpos), harg0]
  cases hcmd : findCmd b.table ((words t.text).headD []) with
  | none => simp
  | some cmdtp =>
    simp only [Option.mem_def, Option.some.injEq, forall_eq']
    by_cases hmax : cmdtp.maxargs < b.maxArgs
    · simp [hmax]
    · rw [if_neg hmax, or_iff_right hmax]
      cases hboot : cmdtp.bootd
      · simp
      · by_cases hflag : v.flag &&& flagBootd = 0 <;> simp [hflag]

end Turn

-- ============================================================================
-- Runs of `run_command`
-- ============================================================================

section Run

variable {b : Board σ} {fuel : Nat} {v : Vars σ} {prev : UInt8} {str : List UInt8} {t : Turn σ}

theorem turn_rc (token : List UInt8) (h : v.rc = -1 ∨ (turn b v token).called = none) :
    (turn b v token).after.rc = -1 := by
  simp only [turn] at h ⊢
  split at h
  · rfl
  · simp only [Option.some_ne_none, or_false] at h
    simp only [h, ite_self]

/-- Once `rc` is -1 it stays, and is returned. -/
theorem runLoop_of_rc (h : v.rc = -1) : (runLoop b fuel v prev str).1 = -1 := by
  have hresult : v.result = -1 := by rw [Vars.result, h]; rfl
  induction fuel generalizing v prev str with
  | zero => exact hresult
  | succ fuel ih =>
    rw [runLoop]
    split
    · exact hresult
    · dsimp only
      split
      · rfl
      · have hrc := turn_rc (b := b) (str.take (sepLoop false true prev str)) (.inl h)
        exact ih hrc (by rw [Vars.result, hrc]; rfl)

/-- Every turn of a run is one of a token; a turn that calls no command makes the run
    return -1. -/
theorem mem_runLoop (h : t ∈ (runLoop b fuel v prev str).2) :
    (∃ v token, t = turn b v token) ∧ (t.called = none → (runLoop b fuel v prev str).1 = -1) := by
  induction fuel generalizing v prev str with
  | zero => simp [runLoop] at h
  | succ fuel ih =>
    rw [runLoop] at h ⊢
    split at h
    · simp at h
    · rename_i hne
      rw [if_neg hne]
      dsimp only at h ⊢
      split at h
      · rename_i hstop
        rw [if_pos hstop]
        exact ⟨⟨v, _, List.mem_singleton.mp h⟩, fun _ => rfl⟩
      · rename_i hstop
        rw [if_neg hstop]
        rcases List.mem_cons.mp h with rfl | h
        · exact ⟨⟨v, _, rfl⟩, fun hnone => runLoop_of_rc (turn_rc _ (.inr hnone))⟩
        · exact ih h

theorem good_iff_fits (token : List UInt8) {result : Int}
    (hresult : (turn b v token).called = none → result = -1) :
    (turn b v token).Good b result ↔ (turn b v token).Fits b := by
  rw [Turn.Good, Turn.Fits, turn_before]
  split
  · rename_i hle
    rw [turn_parses_iff b v token hle, Closed]
    by_cases hlt : (words (turn b v token).text).length < b.maxArgs
    · simp [hlt]
    · have heq : (words (turn b v token).text).length = b.maxArgs := by omega
      simp [heq]
  · rename_i hgt
    rw [and_iff_left_of_imp hresult, called_eq_none_iff b v token (Nat.lt_of_not_le hgt)]

/-- **Argument splitting.** In every run of `run_command` a turn splits its words, or is
    refused with -1 when there are too many, exactly when its text fits. -/
theorem runCommand_good_iff (b : Board σ) (cmd : Option (List UInt8)) (flag : Nat) (world : σ)
    (finaltoken : List UInt8) (argv : Mem (Option Nat)) (before : UInt8) :
    ∀ t ∈ (runCommand b cmd flag world finaltoken argv before).2,
      t.Good b (runCommand b cmd flag world finaltoken argv before).1 ↔ t.Fits b := by
  intro t ht
  rw [runCommand.eq_def] at ht ⊢
  cases cmd with
  | none => exact absurd ht List.not_mem_nil
  | some cmd =>
    dsimp only at ht ⊢
    split at ht
    · exact absurd ht List.not_mem_nil
    · rename_i hcmd
      rw [if_neg hcmd]
      obtain ⟨⟨v, token, rfl⟩, hresult⟩ := mem_runLoop ht
      exact good_iff_fits token hresult

/-- A line without a separator is one turn. -/
theorem runCommand_single {line : List UInt8} {flag : Nat} {world : σ} {finaltoken : List UInt8}
    {argv : Mem (Option Nat)} {before : UInt8} (hne : line ≠ []) (hlen : line.length < cbsize)
    (hsep : sepLoop false true before line = line.length) :
    (runCommand b (some line) flag world finaltoken argv before).2 =
      [turn b ⟨b.clearCtrlc world, finaltoken, argv, flag, 1, 0⟩ line] := by
  obtain ⟨n, hn⟩ := Nat.exists_eq_succ_of_ne_zero (Nat.ne_of_gt (List.length_pos_iff.mpr hne))
  have hend (v : Vars σ) : (runLoop b n v 0 []).2 = [] := by cases n <;> rfl
  rw [runCommand, if_neg (by rintro (h | h) <;> [exact hne h; omega]), hn, runLoop, if_neg hne, hsep]
  dsimp only
  rw [List.take_length, List.drop_of_length_le (Nat.le_succ _)]
  split
  · rfl
  · rw [hend]

/-- What a token without macros, quotes and escapes leaves for `parse_line`. -/
theorem turn_text_plain {token : List UInt8}
    (hplain : ∀ c ∈ token, c ≠ backslash ∧ c ≠ quote ∧ c ≠ dollar ∧ c ≠ 0)
    (hlen : token.length < cbsize) : (turn b v token).text = token := by
  obtain ⟨k, hk⟩ := Nat.exists_eq_add_of_le (Nat.succ_le_of_lt hlen)
  have hline := (processMacros_plain (b.getenv v.world) 0 (fun x => v.finaltoken.getD x 0)
    (fun c hc => ⟨(hplain c hc).1, (hplain c hc).2.1, (hplain c hc).2.2.1⟩) hlen).2
  have hnul : (0 : UInt8) ∉ token := fun h => (hplain 0 h).2.2.2 rfl
  have hbuf : (turn b v token).buf =
      (processMacros (b.getenv v.world) token 0 fun x => v.finaltoken.getD x 0).cells.read 0 cbsize := by
    simp only [turn]
    split <;> rfl
  rw [Turn.text, hbuf, hk, Mem.read_add, hline, List.append_assoc, List.singleton_append,
    cstr_append hnul]

end Run

instance (b : Board σ) (t : Turn σ) : Decidable (t.Fits b) := by
  unfold Turn.Fits
  infer_instance

/-- A board with `echo`, which takes as many arguments as there may be. -/
def echoBoard : Board Unit where
  maxArgs := 16
  maxArgs_pos := by decide
  table := [⟨ascii "echo", 16, 1, false⟩]
  getenv _ _ := none
  cmd _ _ _ _ := (0, ())
  clearCtrlc := id
  hadCtrlc _ := false

/-- A call of `run_command` on a stack that holds no NULL. -/
def echoRun (line : List UInt8) : Int × List (Turn Unit) :=
  runCommand echoBoard (some line) 0 () [] (fun _ => some 0) 0

def echoTurn (line : List UInt8) : Turn Unit :=
  turn echoBoard ⟨(), [], fun _ => some 0, 0, 1, 0⟩ line

def shortEcho : List UInt8 := ascii "echo a  b "

theorem shortEcho_text : (echoTurn shortEcho).text = shortEcho :=
  turn_text_plain (List.all_iff_forall_prop.mp (by decide)) (by decide)

theorem shortEcho_turns : (echoRun shortEcho).2 = [echoTurn shortEcho] :=
  runCommand_single (by decide) (by decide) (by decide)

/-- A short line is split. -/
theorem runCommand_good_echo : (echoTurn shortEcho).Good echoBoard (echoRun shortEcho).1 := by
  have hmem : echoTurn shortEcho ∈ (echoRun shortEcho).2 := by
    rw [shortEcho_turns]
    exact List.mem_singleton_self _
  refine (runCommand_good_iff echoBoard (some shortEcho) 0 () [] (fun _ => some 0) 0 _ hmem).mpr ?_
  rw [Turn.Fits, shortEcho_text, if_pos (by decide)]
  exact .inl (by decide)

/-- `echo` and 16 arguments. -/
def longEcho : List UInt8 := ascii "echo 1 2 3 4 5 6 7 8 9 10 11 12 13 14 15 16"

theorem longEcho_text : (echoTurn longEcho).text = longEcho :=
  turn_text_plain (List.all_iff_forall_prop.mp (by decide)) (by decide)

theorem longEcho_turns : (echoRun longEcho).2 = [echoTurn longEcho] :=
  runCommand_single (by decide) (by decide) (by decide)

/-- The last argument is cut off, and the command is called. -/
theorem longEcho_cut_off : ¬ ∀ t ∈ (echoRun longEcho).2, t.Good echoBoard (echoRun longEcho).1 := by
  rw [longEcho_turns]
  intro h
  have hwords : (words longEcho).length = 17 := by decide
  have hgood := h _ (List.mem_singleton_self _)
  rw [Turn.Good, longEcho_text, hwords, if_neg (by decide)] at hgood
  have hnone := called_eq_none_iff echoBoard ⟨(), [], fun _ => some 0, 0, 1, 0⟩ longEcho
  rw [← echoTurn, longEcho_text, hwords] at hnone
  have hcalled := (hnone (by decide)).mp hgood.1
  exact absurd hcalled (by decide)

end Uboot.Common.RunCommand
