/-
  Uboot.Common.FastbootEnv

  `parse_env` of common/cmd_fastboot.c: an image of the environment, as fastboot has
  downloaded it, is taken apart in place, once without saving and once with.

  What is given to `save_env` is recorded, as the C strings it is.  What `save_env`
  does with them is not modelled.
-/

import Uboot.Lib.Holds
import Uboot.LibGeneric.Vsprintf

namespace Uboot.Common.FastbootEnv

open Uboot.Lib Uboot.LibGeneric

-- ============================================================================
-- `parse_env`
-- ============================================================================

def isNewline (c : UInt8) : Bool := c = 13 || c = 10

def isBlank (c : UInt8) : Bool := c = 32 || c = 9

def isSpace (c : UInt8) : Bool := isBlank c || isNewline c

def backslash : UInt8 := 92

/-- What `save_env` is given: the variable, and the value or NULL. -/
abbrev Setting := List UInt8 × Option (List UInt8)

/-- The locals of `parse_env`, the transfer buffer, and what was saved. -/
structure Parse where
  buff : Mem UInt8
  commentStart : Bool
  var : Option Nat
  varEnd : Option Nat
  val : Option Nat
  valEnd : Option Nat
  sets : Nat
  saved : List Setting

/-- The string at `p`.  The buffer ends in a NUL when there is something to save. -/
def stringAt (size : Nat) (buff : Mem UInt8) (p : Nat) : List UInt8 := cstr (buff.read p (size + 1 - p))

/-- `save_env (ptn, var, val)` -/
def saveEnv (size var : Nat) (s : Parse) : Parse :=
  { s with saved := s.saved ++ [(stringAt size s.buff var, s.val.map (stringAt size s.buff))] }

/-- `*p = '\0'`, where there is a `p`. -/
def endAt (p : Option Nat) (buff : Mem UInt8) : Mem UInt8 :=
  match p with
  | none => buff
  | some p => buff.write p [0]

/-- A backslash in front of the end of a line, and the end, become blanks. -/
def escape (buff : Mem UInt8) (i : Nat) : Mem UInt8 :=
  let buff :=
    -- dos
    if buff i = 13 ∧ buff (i + 1) = 10 then buff.write (i + 1) [32] else buff
  (buff.write i [32]).write (i - 1) [32]

/-- The chain of tests on `buff[i]`; an error is the internal one. -/
def scan (save : Bool) (size : Nat) (s : Parse) (i : Nat) : Except Parse Parse :=
  let c := s.buff i
  match s.var with
  | none =>
    let commentStart := s.commentStart || c = 35
    if commentStart then .ok { s with commentStart := !isNewline c }
    else if !isSpace c then .ok { s with var := some i }
    else .ok s
  | some var =>
    if (s.varEnd = none ∨ s.val = none) ∧ isNewline c then
      let s := if save then saveEnv size var { s with buff := s.buff.write i [0] } else s
      .ok { s with var := none, varEnd := none, sets := s.sets + 1 }
    else if s.varEnd = none then
      if isBlank c then .ok { s with varEnd := some i } else .ok s
    else if s.val = none then
      if !isBlank c then .ok { s with val := some i } else .ok s
    else if s.valEnd = none then
      if isNewline c then
        if s.buff (i - 1) = backslash then .ok { s with buff := escape s.buff i }
        else .ok { s with valEnd := some i }
      else .ok s
    else .error s

/-- The end of the loop's body: a pair is ready when `val_end` is set. -/
def ready (save : Bool) (size : Nat) (s : Parse) : Parse :=
  match s.var, s.valEnd with
  | some var, some _ =>
    let s :=
      if save then saveEnv size var { s with buff := endAt s.valEnd (endAt s.varEnd s.buff) } else s
    { s with var := none, varEnd := none, val := none, valEnd := none, sets := s.sets + 1 }
  | _, _ => s

def step (save : Bool) (size : Nat) (s : Parse) (i : Nat) : Except Parse Parse :=
  (scan save size s i).map (ready save size)

/-- `for (i = 0; i < size; i++)`, with the number of turns that are left. -/
def loop (save : Bool) (size : Nat) : Nat → Nat → Parse → Except Parse Parse
  | 0, _, s => .ok s
  | n + 1, i, s =>
    match step save size s i with
    | .error s => .error s
    | .ok s => loop save size n (i + 1) s

/-- The corner case: no end of line at the end of the input. -/
def finish (save : Bool) (size : Nat) (s : Parse) : Parse :=
  match s.var, s.valEnd with
  | some var, none =>
    let s := if save then saveEnv size var { s with buff := endAt s.varEnd s.buff } else s
    { s with sets := s.sets + 1 }
  | _, _ => s

/-- What `parse_env` leaves; `err` is what it prints into `err_string` when it returns 1. -/
structure Result where
  err : Option String
  buff : Mem UInt8
  saved : List Setting

/-- `parse_env`, of the first `size` bytes of the transfer buffer. -/
def parseEnv (save : Bool) (size : Nat) (buff : Mem UInt8) : Result :=
  let buff := if save then buff.write size [0] else buff
  match loop save size size 0 ⟨buff, false, none, none, none, none, 0, []⟩ with
  | .error s => ⟨some "Internal Error", s.buff, s.saved⟩
  | .ok s =>
    let s := finish save size s
    ⟨if s.sets = 0 then some "No variables set" else none, s.buff, s.saved⟩

-- ============================================================================
-- The format
-- ============================================================================

/-- A variable of an image: its name, the blanks behind it, the rest of its line (with
    lines that are continued), and whether an end of line follows. -/
structure Entry where
  name : List UInt8
  gap : List UInt8
  raw : List UInt8
  closed : Bool

/-- A value in which the ends of lines are escaped: they become blanks, with the
    backslash in front. -/
def join : List UInt8 → List UInt8
  | [] => []
  | c :: cs => (if isNewline c ∨ c = backslash ∧ cs.head?.any isNewline then 32 else c) :: join cs

/-- The variable and its value; an empty value is none. -/
def Entry.pair (e : Entry) : Setting := (e.name, if e.raw = [] then none else some (join e.raw))

/-- The text from the first variable on, behind blank lines and comments. -/
def start : Bool → List UInt8 → List UInt8
  | _, [] => []
  | comment, c :: cs =>
    if comment || c = 35 then start (!isNewline c) cs
    else if isSpace c then start false cs
    else c :: cs

/-- The rest of a value, behind the character `prev`, and what follows.  An end of line
    is escaped by a backslash; the line feed of a DOS end of line is so with it. -/
def value : UInt8 → List UInt8 → List UInt8 × List UInt8
  | _, [] => ([], [])
  | prev, c :: cs =>
    if isNewline c then
      if prev = backslash then
        let r := value (if c = 13 ∧ cs.head? = some 10 then backslash else 32) cs
        (c :: r.1, r.2)
      else ([], c :: cs)
    else
      let r := value c cs
      (c :: r.1, r.2)

/-- The variable that a text begins with, and what is behind its line. -/
def readEntry (text : List UInt8) : Entry × List UInt8 :=
  let name := text.takeWhile (!isSpace ·)
  let behind := text.dropWhile (!isSpace ·)
  let gap := behind.takeWhile isBlank
  match behind.dropWhile isBlank with
  | [] => (⟨name, gap, [], false⟩, [])
  | c :: cs =>
    if isNewline c then (⟨name, gap, [], true⟩, cs)
    else
      let r := value c cs
      (⟨name, gap, c :: r.1, r.2 ≠ []⟩, r.2.tail)

def entriesLoop : Nat → List UInt8 → List Entry
  | 0, _ => []
  | fuel + 1, text =>
    match start false text with
    | [] => []
    | c :: cs =>
      let r := readEntry (c :: cs)
      r.1 :: entriesLoop fuel r.2

/-- The variables of an image. -/
def entries (text : List UInt8) : List Entry := entriesLoop text.length text

/-- What is asked of `parse_env`: the first pass leaves the buffer alone, the second one
    reports an error just when the first one has, and otherwise saves the variables. -/
structure Parses (size : Nat) (buff : Mem UInt8) : Prop where
  unchanged : (parseEnv false size buff).buff = buff
  agree : (parseEnv true size (parseEnv false size buff).buff).err = none ↔
    (parseEnv false size buff).err = none
  saves : (parseEnv false size buff).err = none →
    (parseEnv true size (parseEnv false size buff).buff).saved =
      (entries (buff.read 0 size)).map Entry.pair

/-- No end of line is escaped, no blanks stand between the name of a variable without a
    value and the end of its line, and there are no NULs. -/
structure Entry.Exact (e : Entry) : Prop where
  unescaped : ∀ c ∈ e.raw, isNewline c = false
  tight : e.raw = [] → e.closed = true → e.gap = []
  name_nul : 0 ∉ e.name
  raw_nul : 0 ∉ e.raw

-- ============================================================================
-- Characters
-- ============================================================================

theorem blank_not_newline {c : UInt8} (h : isBlank c = true) : isNewline c = false := by
  simp only [isBlank, Bool.or_eq_true, decide_eq_true_eq] at h
  rcases h with rfl | rfl <;> rfl

theorem blank_ne_nul {c : UInt8} (h : isBlank c = true) : c ≠ 0 := by
  rintro rfl
  exact absurd h (by decide)

-- ============================================================================
-- One character
-- ============================================================================

section Step

variable {save : Bool} {size i v : Nat} {s s' : Parse}

theorem ready_of_none (h : s.valEnd = none) : ready save size s = s := by
  simp [ready, h]

theorem step_of_scan (h : scan save size s i = .ok s') (hend : s'.valEnd = none) :
    step save size s i = .ok s' := by
  rw [step, h, Except.map, ready_of_none hend]

/-- What `var_end` and `val` point to is looked for only from `var` on. -/
structure Idle (s : Parse) : Prop where
  var : s.var = none
  varEnd : s.varEnd = none
  val : s.val = none
  valEnd : s.valEnd = none

theorem step_comment (h : Idle s) (hc : (s.commentStart || s.buff i = 35) = true) :
    step save size s i = .ok { s with commentStart := !isNewline (s.buff i) } := by
  apply step_of_scan
  · simp only [scan, h.var, hc, if_true]
  · exact h.valEnd

theorem step_space (h : Idle s) (hc : (s.commentStart || s.buff i = 35) = false)
    (hspace : isSpace (s.buff i) = true) : step save size s i = .ok s := by
  apply step_of_scan
  · simp [scan, h.var, hc, hspace]
  · exact h.valEnd

theorem step_var (h : Idle s) (hc : (s.commentStart || s.buff i = 35) = false)
    (hspace : isSpace (s.buff i) = false) : step save size s i = .ok { s with var := some i } := by
  apply step_of_scan
  · simp [scan, h.var, hc, hspace]
  · exact h.valEnd

/-- Inside of a name. -/
theorem step_name (hvar : s.var = some v) (hend : s.varEnd = none) (hvend : s.valEnd = none)
    (hc : isSpace (s.buff i) = false) : step save size s i = .ok s := by
  simp only [isSpace, Bool.or_eq_false_iff] at hc
  apply step_of_scan
  · simp [scan, hvar, hend, hc.1, hc.2]
  · exact hvend

/-- The first blank behind a name. -/
theorem step_gap (hvar : s.var = some v) (hend : s.varEnd = none) (hvend : s.valEnd = none)
    (hc : isBlank (s.buff i) = true) : step save size s i = .ok { s with varEnd := some i } := by
  apply step_of_scan
  · simp [scan, hvar, hend, hc, blank_not_newline hc]
  · exact hvend

/-- The other blanks. -/
theorem step_blank (hvar : s.var = some v) (hend : s.varEnd.isSome) (hval : s.val = none)
    (hvend : s.valEnd = none) (hc : isBlank (s.buff i) = true) : step save size s i = .ok s := by
  obtain ⟨e, he⟩ := Option.isSome_iff_exists.mp hend
  apply step_of_scan
  · simp [scan, hvar, he, hval, hc, blank_not_newline hc]
  · exact hvend

/-- The first character of a value. -/
theorem step_val (hvar : s.var = some v) (hend : s.varEnd.isSome) (hval : s.val = none)
    (hvend : s.valEnd = none) (hc : isSpace (s.buff i) = false) :
    step save size s i = .ok { s with val := some i } := by
  obtain ⟨e, he⟩ := Option.isSome_iff_exists.mp hend
  simp only [isSpace, Bool.or_eq_false_iff] at hc
  apply step_of_scan
  · simp [scan, hvar, he, hval, hc.1, hc.2]
  · exact hvend

/-- Inside of a value. -/
theorem step_value (hvar : s.var = some v) (hend : s.varEnd.isSome) (hval : s.val.isSome)
    (hvend : s.valEnd = none) (hc : isNewline (s.buff i) = false) : step save size s i = .ok s := by
  obtain ⟨e, he⟩ := Option.isSome_iff_exists.mp hend
  obtain ⟨w, hw⟩ := Option.isSome_iff_exists.mp hval
  apply step_of_scan
  · simp [scan, hvar, he, hw, hvend, hc]
  · exact hvend

/-- An end of line without a value. -/
theorem step_unset (hvar : s.var = some v) (hval : s.val = none) (hvend : s.valEnd = none)
    (hc : isNewline (s.buff i) = true) :
    step save size s i = .ok
      { (if save then saveEnv size v { s with buff := s.buff.write i [0] } else s) with
        var := none, varEnd := none, sets := s.sets + 1 } := by
  apply step_of_scan
  · simp only [scan, hvar, hval, hc, or_true, and_self, if_true]
    cases save <;> rfl
  · cases save <;> exact hvend

/-- The end of a value. -/
theorem step_close (hvar : s.var = some v) (hend : s.varEnd.isSome) (hval : s.val.isSome)
    (hvend : s.valEnd = none) (hc : isNewline (s.buff i) = true) (hprev : s.buff (i - 1) ≠ backslash) :
    step save size s i = .ok
      { (if save then saveEnv size v { s with buff := (endAt s.varEnd s.buff).write i [0] } else s) with
        var := none, varEnd := none, val := none, valEnd := none, sets := s.sets + 1 } := by
  obtain ⟨e, he⟩ := Option.isSome_iff_exists.mp hend
  obtain ⟨w, hw⟩ := Option.isSome_iff_exists.mp hval
  have hscan : scan save size s i = .ok { s with valEnd := some i } := by
    simp [scan, hvar, he, hw, hvend, hc, hprev]
  rw [step, hscan, Except.map]
  cases save <;> simp [ready, hvar, hvend, endAt, saveEnv, he, hw]

/-- An escaped end of line. -/
theorem step_escape (hvar : s.var = some v) (hend : s.varEnd.isSome) (hval : s.val.isSome)
    (hvend : s.valEnd = none) (hc : isNewline (s.buff i) = true) (hprev : s.buff (i - 1) = backslash) :
    step save size s i = .ok { s with buff := escape s.buff i } := by
  obtain ⟨e, he⟩ := Option.isSome_iff_exists.mp hend
  obtain ⟨w, hw⟩ := Option.isSome_iff_exists.mp hval
  apply step_of_scan
  · simp [scan, hvar, he, hw, hvend, hc, hprev]
  · exact hvend

end Step

-- ============================================================================
-- The format, cut into pieces
-- ============================================================================

section Format

variable {c prev : UInt8} {t w rest name gap : List UInt8}

theorem start_cons {comment : Bool} {cs : List UInt8} (h : start comment t = c :: cs) :
    isSpace c = false ∧ c ≠ 35 := by
  induction t generalizing comment with
  | nil => exact absurd h (by simp [start])
  | cons x xs ih =>
    rw [start] at h
    split at h
    · exact ih h
    · rename_i hcomment
      split at h
      · exact ih h
      · rename_i hspace
        obtain ⟨rfl, rfl⟩ := List.cons.inj h
        simp only [Bool.or_eq_true, decide_eq_true_eq, not_or] at hcomment
        exact ⟨by simpa using hspace, hcomment.2⟩

/-- A value ends at an end of line that is not escaped. -/
theorem value_stop (hw : ∀ x ∈ w, isNewline x = false)
    (hend : rest = [] ∨ ∃ nl cs, rest = nl :: cs ∧ isNewline nl = true ∧
      (prev :: w).getLast (List.cons_ne_nil _ _) ≠ backslash) :
    value prev (w ++ rest) = (w, rest) := by
  induction w generalizing prev with
  | nil =>
    rcases hend with rfl | ⟨nl, cs, rfl, hnl, hlast⟩
    · rfl
    · rw [List.getLast_singleton] at hlast
      rw [List.nil_append, value, if_pos hnl, if_neg hlast]
  | cons x xs ih =>
    obtain ⟨hx, hxs⟩ := List.forall_mem_cons.mp hw
    rw [List.cons_append, value, hx, if_neg (by simp)]
    dsimp only
    rw [ih hxs hend]

/-- An escaped end of line is part of the value. -/
theorem value_escaped {nl : UInt8} {cs : List UInt8} (hw : ∀ x ∈ w, isNewline x = false)
    (hnl : isNewline nl = true) (hlast : (prev :: w).getLast (List.cons_ne_nil _ _) = backslash) :
    nl ∈ (value prev (w ++ nl :: cs)).1 := by
  induction w generalizing prev with
  | nil =>
    rw [List.getLast_singleton] at hlast
    rw [List.nil_append, value, if_pos hnl, if_pos hlast]
    exact List.mem_cons_self
  | cons x xs ih =>
    obtain ⟨hx, hxs⟩ := List.forall_mem_cons.mp hw
    rw [List.cons_append, value, hx, if_neg (by simp)]
    exact List.mem_cons_of_mem _ (ih hxs hlast)

/-- A list, split behind the characters that satisfy `p`. -/
theorem split_while (p : UInt8 → Bool) (t : List UInt8) :
    ∃ w r, t = w ++ r ∧ (∀ x ∈ w, p x = true) ∧ (r = [] ∨ ∃ x xs, r = x :: xs ∧ p x = false) ∧
      t.takeWhile p = w ∧ t.dropWhile p = r := by
  refine ⟨_, _, List.takeWhile_append_dropWhile.symm, fun x hx => List.all_eq_true.mp List.all_takeWhile x hx,
    ?_, rfl, rfl⟩
  cases hr : t.dropWhile p with
  | nil => exact .inl rfl
  | cons x xs =>
    refine .inr ⟨x, xs, rfl, ?_⟩
    have hhead := List.head_dropWhile_not p (l := t) (by rw [hr]; simp)
    simpa [hr] using hhead

/-- The pieces of a variable without a value, and of one with. -/
inductive Pieces (t name gap : List UInt8) : Entry × List UInt8 → Prop
  | bare (ht : t = name ++ (gap ++ [])) : Pieces t name gap (⟨name, gap, [], false⟩, [])
  | unset (nl : UInt8) (rest : List UInt8) (ht : t = name ++ (gap ++ nl :: rest))
      (hnl : isNewline nl = true) : Pieces t name gap (⟨name, gap, [], true⟩, rest)
  | open_ (v : UInt8) (w : List UInt8) (ht : t = name ++ (gap ++ v :: (w ++ []))) (hgap : gap ≠ [])
      (hv : isSpace v = false) (hw : ∀ x ∈ w, isNewline x = false) :
      Pieces t name gap (⟨name, gap, v :: w, false⟩, [])
  | closed (v : UInt8) (w : List UInt8) (nl : UInt8) (rest : List UInt8)
      (ht : t = name ++ (gap ++ v :: (w ++ nl :: rest))) (hgap : gap ≠ []) (hv : isSpace v = false)
      (hw : ∀ x ∈ w, isNewline x = false) (hnl : isNewline nl = true)
      (hlast : (v :: w).getLast (List.cons_ne_nil _ _) ≠ backslash) :
      Pieces t name gap (⟨name, gap, v :: w, true⟩, rest)
  | escaped (v : UInt8) (w : List UInt8) (nl : UInt8) (cs : List UInt8) (e : Entry × List UInt8)
      (ht : t = name ++ (gap ++ v :: (w ++ nl :: cs))) (hgap : gap ≠ []) (hv : isSpace v = false)
      (hw : ∀ x ∈ w, isNewline x = false) (hnl : isNewline nl = true)
      (hlast : (v :: w).getLast (List.cons_ne_nil _ _) = backslash) (hmem : nl ∈ e.1.raw) :
      Pieces t name gap e

theorem readEntry_pieces (hc : isSpace c = false) (cs : List UInt8) :
    ∃ name gap, name.head? = some c ∧ (∀ x ∈ name, isSpace x = false) ∧ (∀ x ∈ gap, isBlank x = true) ∧
      Pieces (c :: cs) name gap (readEntry (c :: cs)) := by
  obtain ⟨name, behind, ht, hname, hbehind, htake, hdrop⟩ := split_while (!isSpace ·) (c :: cs)
  obtain ⟨gap, r, hsplit, hgap, hr, htake', hdrop'⟩ := split_while isBlank behind
  have hhead : name.head? = some c := by
    rw [← htake, List.takeWhile_cons, if_pos (by simp [hc])]
    rfl
  refine ⟨name, gap, hhead, fun x hx => by simpa using hname x hx, hgap, ?_⟩
  rw [readEntry, htake, hdrop, htake', hdrop']
  rcases hr with rfl | ⟨v, vs, rfl, hv⟩
  · exact .bare (by rw [ht, hsplit])
  · dsimp only
    cases hnl : isNewline v
    · have hvspace : isSpace v = false := by simp [isSpace, hv, hnl]
      have hgapne : gap ≠ [] := by
        rintro rfl
        rw [List.nil_append] at hsplit
        rcases hbehind with h | ⟨x, xs, h, hx⟩
        · rw [h] at hsplit
          exact absurd hsplit (by simp)
        · rw [h] at hsplit
          obtain ⟨rfl, -⟩ := List.cons.inj hsplit
          simp [hvspace] at hx
      obtain ⟨w, rest, hvs, hw, hrest, -, -⟩ := split_while (!isNewline ·) vs
      have hw' : ∀ x ∈ w, isNewline x = false := fun x hx => by simpa using hw x hx
      have ht' : c :: cs = name ++ (gap ++ v :: (w ++ rest)) := by rw [ht, hsplit, hvs]
      rw [if_neg (by simp)]
      rcases hrest with rfl | ⟨nl, rest, rfl, hend⟩
      · have hval := @value_stop v w [] hw' (.inl rfl)
        rw [hvs, hval]
        exact .open_ v w ht' hgapne hvspace hw'
      · have hend : isNewline nl = true := by simpa using hend
        by_cases hlast : (v :: w).getLast (List.cons_ne_nil _ _) = backslash
        · have hmem := @value_escaped v w nl rest hw' hend hlast
          exact .escaped v w nl rest _ ht' hgapne hvspace hw' hend hlast
            (List.mem_cons_of_mem _ (by rw [hvs]; exact hmem))
        · have hval := @value_stop v w (nl :: rest) hw' (.inr ⟨nl, rest, rfl, hend, hlast⟩)
          rw [hvs, hval]
          exact .closed v w nl rest ht' hgapne hvspace hw' hend hlast
    · rw [if_pos rfl]
      exact .unset v vs (by rw [ht, hsplit]) hnl

end Format

-- ============================================================================
-- The phases of the scanner
-- ============================================================================

section Loop

variable {save : Bool} {size i : Nat} {s : Parse} {t w r : List UInt8}

/-- Characters that leave the state as it is. -/
theorem loop_skip {p : UInt8 → Bool} (hstep : ∀ j, p (s.buff j) = true → step save size s j = .ok s)
    (hw : ∀ c ∈ w, p c = true) (hread : s.buff.Holds i (w ++ r)) :
    loop save size (w ++ r).length i s = loop save size r.length (i + w.length) s := by
  induction w generalizing i with
  | nil => rfl
  | cons c cs ih =>
    obtain ⟨hc, hcs⟩ := List.forall_mem_cons.mp hw
    rw [List.cons_append, Mem.holds_cons] at hread
    rw [List.cons_append, List.length_cons, loop, hstep i (by rw [hread.1]; exact hc)]
    dsimp only
    rw [ih hcs hread.2, List.length_cons, Nat.add_assoc, Nat.add_comm 1]

/-- One character. -/
theorem loop_cons {c : UInt8} {s' : Parse} (hstep : step save size s i = .ok s') :
    loop save size (c :: r).length i s = loop save size r.length (i + 1) s' := by
  rw [List.length_cons, loop, hstep]

/-- Blank lines and comments. -/
theorem loop_start (h : Idle s) (hread : s.buff.Holds i t) :
    ∃ w k, t = w ++ start s.commentStart t ∧
      loop save size t.length i s =
        loop save size (start s.commentStart t).length (i + w.length) { s with commentStart := k } ∧
      (start s.commentStart t ≠ [] → k = false) := by
  induction t generalizing i s with
  | nil => exact ⟨[], s.commentStart, rfl, rfl, fun h => absurd rfl h⟩
  | cons c cs ih =>
    obtain ⟨hc, hcs⟩ := Mem.holds_cons.mp hread
    rw [start]
    by_cases hcomment : (s.commentStart || c = 35) = true
    · rw [if_pos hcomment]
      obtain ⟨w, k, hw, hloop, hk⟩ := ih (i := i + 1) (s := { s with commentStart := !isNewline c })
        ⟨h.var, h.varEnd, h.val, h.valEnd⟩ hcs
      refine ⟨c :: w, k, by rw [List.cons_append, ← hw], ?_, hk⟩
      rw [loop_cons (step_comment h (by rw [hc]; exact hcomment)), hc, hloop, List.length_cons, Nat.add_assoc,
        Nat.add_comm 1]
    · rw [if_neg hcomment]
      have hcomment' : (s.commentStart || c = 35) = false := by simpa using hcomment
      have hnone : s.commentStart = false := (Bool.or_eq_false_iff.mp hcomment').1
      by_cases hspace : isSpace c = true
      · rw [if_pos hspace]
        obtain ⟨w, k, hw, hloop, hk⟩ := ih (i := i + 1) h hcs
        rw [hnone] at hw hloop hk
        refine ⟨c :: w, k, by rw [List.cons_append, ← hw], ?_, hk⟩
        rw [loop_cons (step_space h (by rw [hc]; exact hcomment') (by rw [hc]; exact hspace)), hloop,
          List.length_cons, Nat.add_assoc, Nat.add_comm 1]
      · rw [if_neg hspace]
        refine ⟨[], false, rfl, ?_, fun _ => rfl⟩
        rw [← hnone]
        rfl

/-- The name of a variable, and the blanks behind it. -/
theorem loop_name {name gap : List UInt8} {c : UInt8} (h : Idle s) (hcomment : s.commentStart = false)
    (hhead : name.head? = some c) (hc : c ≠ 35) (hname : ∀ x ∈ name, isSpace x = false)
    (hgap : ∀ x ∈ gap, isBlank x = true) (hread : s.buff.Holds i (name ++ (gap ++ r))) :
    loop save size (name ++ (gap ++ r)).length i s =
      loop save size r.length (i + name.length + gap.length)
        { s with var := some i, varEnd := if gap = [] then none else some (i + name.length) } := by
  obtain ⟨cs, rfl⟩ : ∃ cs, name = c :: cs := by
    cases name with
    | nil => exact absurd hhead (by simp)
    | cons x xs => exact ⟨xs, by rw [Option.some.inj hhead]⟩
  obtain ⟨hcspace, hcs⟩ := List.forall_mem_cons.mp hname
  rw [List.cons_append, Mem.holds_cons] at hread
  have hvar : step save size s i = .ok { s with var := some i } :=
    step_var h (by simp [hread.1, hcomment, hc]) (by rw [hread.1]; exact hcspace)
  rw [List.cons_append, loop_cons hvar]
  have hskip := @loop_skip save size (i + 1) { s with var := some i } cs (gap ++ r) (!isSpace ·)
    (fun j hj => step_name rfl h.varEnd h.valEnd (by simpa using hj)) (fun x hx => by simp [hcs x hx])
    hread.2
  rw [hskip, show i + 1 + cs.length = i + (c :: cs).length by rw [List.length_cons]; omega]
  have hread' := (Mem.holds_append.mp hread.2).2
  rw [show i + 1 + cs.length = i + (c :: cs).length by rw [List.length_cons]; omega] at hread'
  cases gap with
  | nil =>
    rw [if_pos rfl, ← h.varEnd]
    rfl
  | cons b bs =>
    obtain ⟨hb, hbs⟩ := List.forall_mem_cons.mp hgap
    rw [List.cons_append, Mem.holds_cons] at hread'
    have hend : step save size { s with var := some i } (i + (c :: cs).length) =
        .ok { s with var := some i, varEnd := some (i + (c :: cs).length) } :=
      step_gap rfl h.varEnd h.valEnd (by rw [hread'.1]; exact hb)
    rw [List.cons_append, loop_cons hend, if_neg (List.cons_ne_nil _ _)]
    have hskip := @loop_skip save size (i + (c :: cs).length + 1)
      { s with var := some i, varEnd := some (i + (c :: cs).length) } bs r isBlank
      (fun j hj => step_blank rfl rfl h.val h.valEnd hj) hbs hread'.2
    rw [hskip, List.length_cons (a := b), Nat.add_assoc _ 1, Nat.add_comm 1]

end Loop

-- ============================================================================
-- What is saved
-- ============================================================================

/-- What `parse_env` passes to `save_env` for a variable: with an end of line behind the
    name, the blanks before that are part of it. -/
def Entry.passed (e : Entry) : Setting :=
  (cstr (if e.raw = [] ∧ e.closed = true then e.name ++ e.gap else e.name),
    if e.raw = [] then none else some (cstr e.raw))

/-- What a part of `parse_env` has added. -/
structure Added (save : Bool) (s s' : Parse) (es : List Entry) : Prop where
  sets : s'.sets = s.sets + es.length
  saved : save = true → s'.saved = s.saved ++ es.map Entry.passed
  buff : save = false → s'.buff = s.buff

section Entry

variable {save : Bool} {size i : Nat} {s s' s'' : Parse} {t w r : List UInt8} {m : Mem UInt8}

theorem Added.trans {es es' : List Entry} (h : Added save s s' es) (h' : Added save s' s'' es') :
    Added save s s'' (es ++ es') where
  sets := by rw [h'.sets, h.sets, List.length_append, Nat.add_assoc]
  saved hsave := by rw [h'.saved hsave, h.saved hsave, List.map_append, List.append_assoc]
  buff hsave := by rw [h'.buff hsave, h.buff hsave]

theorem stringAt_eq {p : Nat} (hread : m.Holds p w) (hnul : m (p + w.length) = 0)
    (hsize : p + w.length ≤ size) : stringAt size m p = cstr w := by
  obtain ⟨k, hk⟩ := Nat.exists_eq_add_of_le hsize
  have hcells : m.read p (size + 1 - p) = w ++ 0 :: m.read (p + w.length + 1) k := by
    have hlen : size + 1 - p = w.length + (1 + k) := by omega
    have hzero : m.read (p + w.length) 1 = [0] := by
      rw [← hnul]
      rfl
    rw [hlen, Mem.read_add, Mem.read_add, hread, hzero]
    rfl
  rw [stringAt, hcells, cstr_append_nul]

/-- A string in front of what is overwritten. -/
theorem stringAt_write {p : Nat} (hread : m.Holds p w) (hsize : p + w.length ≤ size) :
    stringAt size (m.write (p + w.length) [0]) p = cstr w := by
  refine stringAt_eq (hread.congr fun x _ hx => m.write_outside (.inl hx)) ?_ hsize
  exact m.write_inside (i := 0) (by simp)

theorem finish_idle (h : Idle s) : finish save size s = s := by simp [finish, h.var]

/-- A variable at the end of the input. -/
theorem finish_var {v : Nat} (hvar : s.var = some v) (hvend : s.valEnd = none) :
    finish save size s =
      { (if save then saveEnv size v { s with buff := endAt s.varEnd s.buff } else s) with
        sets := s.sets + 1 } := by
  cases save <;> simp [finish, hvar, hvend, saveEnv]

/-- A variable whose line ends: what is behind the line is as it was. -/
structure Closes (save : Bool) (s s' : Parse) (e : Entry) (stop : Nat) : Prop where
  idle : Idle s'
  comment : s'.commentStart = false
  added : Added save s s' [e]
  behind : ∀ x, stop ≤ x → s'.buff x = s.buff x

/-- The state behind the name of a variable at `v`, and behind its blanks. -/
structure Named (s s' : Parse) (v : Nat) (varEnd : Option Nat) : Prop where
  var : s'.var = some v
  varEnd : s'.varEnd = varEnd
  val : s'.val = none
  valEnd : s'.valEnd = none
  comment : s'.commentStart = false
  buff : s'.buff = s.buff
  sets : s'.sets = s.sets
  saved : s'.saved = s.saved

section Pieces

variable {name gap : List UInt8} {nl v : UInt8} {rest : List UInt8}

/-- The input ends behind a name. -/
theorem Named.bare (h : Named s s' i (if gap = [] then none else some (i + name.length)))
    (hread : s.buff.Holds i name) (hsize : i + name.length + gap.length = size)
    (hnul : save = true → s.buff size = 0) :
    Added save s (finish save size s') [⟨name, gap, [], false⟩] := by
  have hstr (hsave : save = true) :
      stringAt size (endAt (if gap = [] then none else some (i + name.length)) s.buff) i = cstr name := by
    split
    · rename_i hgap
      rw [hgap, List.length_nil, Nat.add_zero] at hsize
      exact stringAt_eq hread (by rw [hsize]; exact hnul hsave) (by omega)
    · exact stringAt_write hread (by omega)
  rw [finish_var h.var h.valEnd]
  exact
    { sets := by rw [h.sets]; rfl
      saved := fun hsave => by
        simp [hsave, saveEnv, h.varEnd, h.buff, h.saved, h.val, hstr hsave, Entry.passed]
      buff := fun hsave => by simp [hsave, h.buff] }

/-- The line ends behind a name. -/
theorem Named.unset {varEnd : Option Nat} (h : Named s s' i varEnd) (hread : s.buff.Holds i (name ++ gap))
    (hsize : i + name.length + gap.length < size)
    (hat : isNewline (s.buff (i + name.length + gap.length)) = true) :
    ∃ s'', step save size s' (i + name.length + gap.length) = .ok s'' ∧
      Closes save s s'' ⟨name, gap, [], true⟩ (i + name.length + gap.length + 1) := by
  have hfits : i + (name ++ gap).length ≤ size := by
    rw [List.length_append]
    omega
  have hstr := stringAt_write hread hfits
  rw [List.length_append, ← Nat.add_assoc] at hstr
  refine ⟨_, step_unset h.var h.val h.valEnd (by rw [h.buff]; exact hat), ?_⟩
  exact
    { idle := by cases save <;> exact ⟨rfl, rfl, h.val, h.valEnd⟩
      comment := by cases save <;> exact h.comment
      added :=
        { sets := by rw [h.sets]; rfl
          saved := fun hsave => by simp [hsave, saveEnv, h.buff, h.saved, h.val, hstr, Entry.passed]
          buff := fun hsave => by simp [hsave, h.buff] }
      behind := fun x hx => by
        cases save
        · simp [h.buff]
        · simp only [if_true, saveEnv, h.buff]
          exact s.buff.write_outside (.inr (by simpa using hx)) }

/-- The state behind the first character of a value, too. -/
structure Valued (s s' : Parse) (name gap : List UInt8) (i : Nat) : Prop where
  var : s'.var = some i
  varEnd : s'.varEnd = some (i + name.length)
  val : s'.val = some (i + name.length + gap.length)
  valEnd : s'.valEnd = none
  comment : s'.commentStart = false
  buff : s'.buff = s.buff
  sets : s'.sets = s.sets
  saved : s'.saved = s.saved

/-- The strings of a variable, as they stand once the ends are set. -/
theorem strings_eq (hgap : gap ≠ []) (hname : s.buff.Holds i name)
    (hval : s.buff.Holds (i + name.length + gap.length) w)
    (hsize : i + name.length + gap.length + w.length ≤ size) (hm : ∀ x, x ≠ i + name.length →
      x < i + name.length + gap.length + w.length → m x = s.buff x)
    (hend : m (i + name.length) = 0) (hvend : m (i + name.length + gap.length + w.length) = 0) :
    stringAt size m i = cstr name ∧ stringAt size m (i + name.length + gap.length) = cstr w := by
  have hpos := List.length_pos_iff.mpr hgap
  constructor
  · exact stringAt_eq (hname.congr fun x _ hx => hm x (by omega) (by omega)) hend (by omega)
  · exact stringAt_eq (hval.congr fun x hlo hhi => hm x (by omega) hhi) hvend hsize

/-- The input ends behind a value. -/
theorem Valued.open_ (h : Valued s s' name gap i) (hgap : gap ≠ []) (hname : s.buff.Holds i name)
    (hval : s.buff.Holds (i + name.length + gap.length) (v :: w))
    (hsize : i + name.length + gap.length + (v :: w).length = size) (hnul : save = true → s.buff size = 0) :
    Added save s (finish save size s') [⟨name, gap, v :: w, false⟩] := by
  have hpos := List.length_pos_iff.mpr hgap
  rw [finish_var h.var h.valEnd]
  exact
    { sets := by rw [h.sets]; rfl
      saved := fun hsave => by
        obtain ⟨hstr, hstr'⟩ := @strings_eq size i s (v :: w) (s.buff.write (i + name.length) [0]) name gap
          hgap hname hval (by omega)
          (fun x hx _ => s.buff.write_outside (by rw [List.length_singleton]; omega))
          (s.buff.write_inside (i := 0) (by simp))
          (by rw [hsize, Mem.write_outside _ (.inr (by rw [List.length_singleton]; omega)), hnul hsave])
        simp [hsave, saveEnv, h.varEnd, h.buff, h.saved, h.val, endAt, hstr, hstr', Entry.passed]
      buff := fun hsave => by simp [hsave, h.buff] }

/-- The line ends behind a value. -/
theorem Valued.closed (h : Valued s s' name gap i) (hgap : gap ≠ []) (hname : s.buff.Holds i name)
    (hval : s.buff.Holds (i + name.length + gap.length) (v :: w))
    (hsize : i + name.length + gap.length + (v :: w).length < size)
    (hat : isNewline (s.buff (i + name.length + gap.length + (v :: w).length)) = true)
    (hlast : (v :: w).getLast (List.cons_ne_nil _ _) ≠ backslash) :
    ∃ s'', step save size s' (i + name.length + gap.length + (v :: w).length) = .ok s'' ∧
      Closes save s s'' ⟨name, gap, v :: w, true⟩ (i + name.length + gap.length + (v :: w).length + 1) := by
  have hpos := List.length_pos_iff.mpr hgap
  have hlen : 0 < (v :: w).length := Nat.succ_pos _
  have hprev : s'.buff (i + name.length + gap.length + (v :: w).length - 1) ≠ backslash := by
    have hcell := hval.getElem (i := (v :: w).length - 1) (by omega)
    rw [h.buff, Nat.add_sub_assoc hlen, hcell, ← List.getLast_eq_getElem]
    exact hlast
  refine ⟨_, step_close h.var (by rw [h.varEnd]; rfl) (by rw [h.val]; rfl) h.valEnd
    (by rw [h.buff]; exact hat) hprev, ?_⟩
  obtain ⟨hstr, hstr'⟩ := @strings_eq size i s (v :: w)
    ((s.buff.write (i + name.length) [0]).write (i + name.length + gap.length + (v :: w).length) [0]) name gap
    hgap hname hval (by omega)
    (fun x hx hlt => by
      rw [Mem.write_outside _ (.inl hlt), Mem.write_outside _ (by rw [List.length_singleton]; omega)])
    (by rw [Mem.write_outside _ (.inl (by omega))]; exact s.buff.write_inside (i := 0) (by simp))
    (Mem.write_inside _ (i := 0) (by simp))
  exact
    { idle := by cases save <;> exact ⟨rfl, rfl, rfl, rfl⟩
      comment := by cases save <;> exact h.comment
      added :=
        { sets := by rw [h.sets]; rfl
          saved := fun hsave => by
            simp only [hsave, if_true, saveEnv, h.varEnd, h.buff, h.saved, h.val, endAt, hstr, hstr',
              Option.map_some]
            simp [Entry.passed]
          buff := fun hsave => by simp [hsave, h.buff] }
      behind := fun x hx => by
        cases save
        · simp [h.buff]
        · simp only [if_true, saveEnv, h.buff, h.varEnd, endAt]
          rw [Mem.write_outside _ (.inr (by rw [List.length_singleton]; exact hx)),
            Mem.write_outside _ (.inr (by rw [List.length_singleton]; omega))] }

end Pieces

section Run

variable {name gap : List UInt8} {c v : UInt8}

/-- Up to what is behind the blanks. -/
theorem loop_named (h : Idle s) (hcomment : s.commentStart = false) (hhead : name.head? = some c)
    (hc : c ≠ 35) (hname : ∀ x ∈ name, isSpace x = false) (hgap : ∀ x ∈ gap, isBlank x = true)
    (hread : s.buff.Holds i (name ++ (gap ++ r))) :
    ∃ s₁, Named s s₁ i (if gap = [] then none else some (i + name.length)) ∧
      loop save size (name ++ (gap ++ r)).length i s =
        loop save size r.length (i + name.length + gap.length) s₁ :=
  ⟨{ s with var := some i, varEnd := if gap = [] then none else some (i + name.length) },
    ⟨rfl, rfl, h.val, h.valEnd, hcomment, rfl, rfl, rfl⟩,
    loop_name h hcomment hhead hc hname hgap hread⟩

/-- Up to what is behind a value. -/
theorem loop_valued (h : Idle s) (hcomment : s.commentStart = false) (hhead : name.head? = some c)
    (hc : c ≠ 35) (hname : ∀ x ∈ name, isSpace x = false) (hgap : ∀ x ∈ gap, isBlank x = true)
    (hgapne : gap ≠ []) (hv : isSpace v = false) (hw : ∀ x ∈ w, isNewline x = false)
    (hread : s.buff.Holds i (name ++ (gap ++ v :: (w ++ r)))) :
    ∃ s₂, Valued s s₂ name gap i ∧
      loop save size (name ++ (gap ++ v :: (w ++ r))).length i s =
        loop save size r.length (i + name.length + gap.length + (v :: w).length) s₂ := by
  obtain ⟨s₁, hnamed, hloop⟩ := @loop_named save size i s _ name gap c h hcomment hhead hc hname hgap hread
  rw [← List.append_assoc, Mem.holds_append, Mem.holds_cons, List.length_append, ← Nat.add_assoc] at hread
  obtain ⟨-, hat, hrest⟩ := hread
  have hend : s₁.varEnd = some (i + name.length) := by rw [hnamed.varEnd, if_neg hgapne]
  have hstep := @step_val save size (i + name.length + gap.length) i s₁ hnamed.var
    (by rw [hend]; rfl) hnamed.val hnamed.valEnd (by rw [hnamed.buff, hat]; exact hv)
  refine ⟨{ s₁ with val := some (i + name.length + gap.length) }, ⟨hnamed.var, hend, rfl, hnamed.valEnd,
    hnamed.comment, hnamed.buff, hnamed.sets, hnamed.saved⟩, ?_⟩
  rw [← hnamed.buff] at hrest
  have hskip := @loop_skip save size (i + name.length + gap.length + 1)
    { s₁ with val := some (i + name.length + gap.length) } w r (!isNewline ·)
    (fun j hj => step_value hnamed.var (by rw [hend]; rfl) rfl hnamed.valEnd (by simpa using hj))
    (fun x hx => by simp [hw x hx]) hrest
  rw [hloop, loop_cons hstep, hskip, List.length_cons (a := v), Nat.add_assoc _ 1, Nat.add_comm 1]

/-- **One variable.** -/
theorem loop_entry {e : Entry × List UInt8} (h : Idle s) (hcomment : s.commentStart = false)
    (hhead : name.head? = some c) (hc : c ≠ 35) (hname : ∀ x ∈ name, isSpace x = false)
    (hgap : ∀ x ∈ gap, isBlank x = true) (hpieces : Pieces t name gap e)
    (hplain : ∀ x ∈ e.1.raw, isNewline x = false) (hread : s.buff.Holds i t)
    (hsize : i + t.length = size) (hnul : save = true → s.buff size = 0) :
    (∃ s', loop save size t.length i s = loop save size e.2.length (size - e.2.length) s' ∧
        Closes save s s' e.1 (size - e.2.length)) ∨
      e.2 = [] ∧ ∃ s', loop save size t.length i s = .ok s' ∧ Added save s (finish save size s') [e.1] := by
  cases hpieces with
  | bare ht =>
    subst ht
    obtain ⟨s₁, hnamed, hloop⟩ := @loop_named save size i s _ name gap c h hcomment hhead hc hname hgap hread
    rw [Mem.holds_append] at hread
    rw [List.length_append, List.append_nil] at hsize
    exact .inr ⟨rfl, s₁, hloop, hnamed.bare hread.1 (by omega) hnul⟩
  | unset nl rest ht hnl =>
    subst ht
    obtain ⟨s₁, hnamed, hloop⟩ := @loop_named save size i s _ name gap c h hcomment hhead hc hname hgap hread
    rw [← List.append_assoc, Mem.holds_append, Mem.holds_cons, List.length_append, ← Nat.add_assoc] at hread
    rw [List.length_append, List.length_append, List.length_cons] at hsize
    obtain ⟨s', hstep, hcloses⟩ : ∃ s', step save size s₁ (i + name.length + gap.length) = .ok s' ∧
        Closes save s s' ⟨name, gap, [], true⟩ (i + name.length + gap.length + 1) :=
      hnamed.unset hread.1 (by omega) (by rw [hread.2.1]; exact hnl)
    have hstop : size - rest.length = i + name.length + gap.length + 1 := by omega
    refine .inl ⟨s', ?_, by rw [hstop]; exact hcloses⟩
    rw [hloop, loop_cons hstep, hstop]
  | open_ v w ht hgapne hv hw =>
    subst ht
    obtain ⟨s₂, hs₂, hrun⟩ := @loop_valued save size i s w [] name gap c v h hcomment hhead hc hname hgap
      hgapne hv hw hread
    rw [List.append_nil, Mem.holds_append, Mem.holds_append] at hread
    rw [List.append_nil, List.length_append, List.length_append] at hsize
    exact .inr ⟨rfl, s₂, hrun, hs₂.open_ hgapne hread.1 hread.2.2 (by omega) hnul⟩
  | closed v w nl rest ht hgapne hv hw hnl hlast =>
    subst ht
    obtain ⟨s₂, hs₂, hrun⟩ := @loop_valued save size i s w (nl :: rest) name gap c v h hcomment hhead hc hname
      hgap hgapne hv hw hread
    rw [← List.cons_append, Mem.holds_append, Mem.holds_append, Mem.holds_append] at hread
    rw [← List.cons_append, List.length_append, List.length_append, List.length_append,
      List.length_cons (a := nl)] at hsize
    obtain ⟨hread, -, hval, hrest⟩ := hread
    have hat := (Mem.holds_cons.mp hrest).1
    obtain ⟨s', hstep, hcloses⟩ :
        ∃ s', step save size s₂ (i + name.length + gap.length + (v :: w).length) = .ok s' ∧
          Closes save s s' ⟨name, gap, v :: w, true⟩ (i + name.length + gap.length + (v :: w).length + 1) :=
      hs₂.closed hgapne hread hval (by omega) (by rw [hat]; exact hnl) hlast
    have hstop : size - rest.length = i + name.length + gap.length + (v :: w).length + 1 := by omega
    refine .inl ⟨s', ?_, by rw [hstop]; exact hcloses⟩
    rw [hrun, loop_cons hstep, hstop]
  | escaped v w nl cs e ht hgapne hv hw hnl hlast hmem =>
    rw [hplain nl hmem] at hnl
    exact absurd hnl (by simp)

/-- What is behind a variable. -/
theorem Pieces.rest {name gap : List UInt8} {c : UInt8} {e : Entry × List UInt8} (h : Pieces t name gap e)
    (hhead : name.head? = some c) (hplain : ∀ x ∈ e.1.raw, isNewline x = false) :
    ∃ front, front ≠ [] ∧ t = front ++ e.2 := by
  have hname : name ≠ [] := by
    rintro rfl
    exact absurd hhead (by simp)
  cases h with
  | bare ht => exact ⟨name ++ gap, by simp [hname], by rw [ht]; simp⟩
  | unset nl rest ht hnl => exact ⟨name ++ gap ++ [nl], by simp, by rw [ht]; simp⟩
  | open_ v w ht hgapne hv hw => exact ⟨name ++ gap ++ v :: w, by simp, by rw [ht]; simp⟩
  | closed v w nl rest ht hgapne hv hw hnl hlast =>
    exact ⟨name ++ gap ++ v :: w ++ [nl], by simp, by rw [ht]; simp⟩
  | escaped v w nl cs e ht hgapne hv hw hnl hlast hmem =>
    rw [hplain nl hmem] at hnl
    exact absurd hnl (by simp)

theorem entriesLoop_nil {fuel : Nat} (h : start false t = []) : entriesLoop fuel t = [] := by
  cases fuel with
  | zero => rfl
  | succ fuel => rw [entriesLoop, h]

theorem entriesLoop_cons {fuel : Nat} {c : UInt8} {cs : List UInt8} (h : start false t = c :: cs) :
    entriesLoop (fuel + 1) t =
      (readEntry (c :: cs)).1 :: entriesLoop fuel (readEntry (c :: cs)).2 := by
  rw [entriesLoop, h]

/-- Where the next variable begins. -/
theorem loop_toEntry {cs : List UInt8} (h : Idle s) (hcomment : s.commentStart = false) (hread : s.buff.Holds i t)
    (hsize : i + t.length = size) (hstart : start false t = c :: cs) :
    ∃ p, p + (c :: cs).length = size ∧ (c :: cs).length ≤ t.length ∧ s.buff.Holds p (c :: cs) ∧
      loop save size t.length i s = loop save size (c :: cs).length p s := by
  obtain ⟨w, k, ht, hloop, hk⟩ := @loop_start save size i s t h hread
  rw [hcomment, hstart] at ht hloop hk
  obtain rfl : k = false := hk (List.cons_ne_nil _ _)
  have hthis : ({ s with commentStart := false } : Parse) = s := by rw [← hcomment]
  have hlen := congrArg List.length ht
  rw [List.length_append] at hlen
  rw [hthis] at hloop
  rw [ht, Mem.holds_append] at hread
  exact ⟨i + w.length, by omega, by omega, hread.2, hloop⟩

/-- What is behind a variable still stands there. -/
theorem holds_behind {s' : Parse} {front rest : List UInt8} (hread : s.buff.Holds i (front ++ rest))
    (hsize : i + (front ++ rest).length = size) (hbehind : ∀ x, size - rest.length ≤ x → s'.buff x = s.buff x) :
    s'.buff.Holds (size - rest.length) rest := by
  rw [Mem.holds_append] at hread
  rw [List.length_append] at hsize
  have hrest := hread.2
  rw [show i + front.length = size - rest.length by omega] at hrest
  exact hrest.congr fun x hx _ => hbehind x hx

/-- **The scanner.** Where no end of line is escaped it adds the variables of the text. -/
theorem run_entries {fuel : Nat} (hfuel : t.length ≤ fuel) (h : Idle s) (hcomment : s.commentStart = false)
    (hread : s.buff.Holds i t) (hsize : i + t.length = size) (hnul : save = true → s.buff size = 0)
    (hplain : ∀ e ∈ entriesLoop fuel t, ∀ x ∈ e.raw, isNewline x = false) :
    ∃ s', loop save size t.length i s = .ok s' ∧
      Added save s (finish save size s') (entriesLoop fuel t) := by
  have hnothing : Added save s s [] := ⟨rfl, fun _ => (List.append_nil _).symm, fun _ => rfl⟩
  induction fuel generalizing t i s with
  | zero =>
    rw [List.eq_nil_of_length_eq_zero (Nat.le_zero.mp hfuel)]
    exact ⟨s, rfl, by rw [finish_idle h]; exact hnothing⟩
  | succ fuel ih =>
    cases hstart : start false t with
    | nil =>
      obtain ⟨w, k, -, hloop, -⟩ := @loop_start save size i s t h hread
      rw [hcomment, hstart] at hloop
      have hidle : Idle { s with commentStart := k } := ⟨h.var, h.varEnd, h.val, h.valEnd⟩
      refine ⟨_, hloop, ?_⟩
      rw [finish_idle hidle, entriesLoop_nil hstart]
      exact ⟨hnothing.sets, hnothing.saved, hnothing.buff⟩
    | cons c cs =>
      rw [entriesLoop_cons hstart] at hplain ⊢
      obtain ⟨hspace, hc⟩ := start_cons hstart
      obtain ⟨p, hp, hshort, hat, hloop⟩ := @loop_toEntry save size i s t c cs h hcomment hread hsize hstart
      obtain ⟨name, gap, hhead, hname, hgap, hpieces⟩ := readEntry_pieces hspace cs
      obtain ⟨hplain, hplain'⟩ := List.forall_mem_cons.mp hplain
      obtain ⟨front, hfront, hrest⟩ := hpieces.rest hhead hplain
      have hlen : (c :: cs).length = front.length + (readEntry (c :: cs)).2.length := by
        rw [← List.length_append, ← hrest]
      have hpos := List.length_pos_iff.mpr hfront
      rw [hloop]
      rcases loop_entry h hcomment hhead hc hname hgap hpieces hplain hat hp hnul with
        ⟨s', hentry, hcloses⟩ | ⟨hnil, s', hentry, hadded⟩
      · rw [hentry]
        have hread' := holds_behind (hrest ▸ hat) (hrest ▸ hp) hcloses.behind
        obtain ⟨s'', hrun, hadded⟩ := ih (by omega) hcloses.idle hcloses.comment hread' (by omega)
          (fun hsave => by rw [hcloses.behind _ (by omega), hnul hsave]) hplain'
          ⟨rfl, fun _ => (List.append_nil _).symm, fun _ => rfl⟩
        exact ⟨s'', hrun, hcloses.added.trans hadded⟩
      · refine ⟨s', hentry, ?_⟩
        rw [hnil, entriesLoop_nil rfl]
        exact hadded

end Run

-- ============================================================================
-- Escaped ends of lines
-- ============================================================================

theorem escape_blank {x : Nat} (h : m x = 32) : escape m i x = 32 := by
  have hwrite (m : Mem UInt8) (a : Nat) (hm : m x = 32) : m.write a [32] x = 32 := by
    by_cases ha : x = a
    · subst ha
      exact m.write_inside (i := 0) (by simp)
    · rw [m.write_outside (by rw [List.length_singleton]; omega), hm]
  rw [escape]
  split
  · exact hwrite _ _ (hwrite _ _ (hwrite _ _ h))
  · exact hwrite _ _ (hwrite _ _ h)

/-- Without saving only escapes change the buffer, and there is no internal error. -/
theorem scan_check (h : s.valEnd = none) :
    ∃ s', scan false size s i = .ok s' ∧ (s'.var = none → s'.valEnd = none) ∧
      (s'.buff = s.buff ∨ s'.buff = escape s.buff i) := by
  simp only [scan, Bool.false_eq_true, if_false]
  split
  · split
    · exact ⟨_, rfl, fun _ => h, .inl rfl⟩
    · split
      · exact ⟨_, rfl, fun _ => h, .inl rfl⟩
      · exact ⟨_, rfl, fun _ => h, .inl rfl⟩
  · rename_i var hvar
    split
    · exact ⟨_, rfl, fun _ => h, .inl rfl⟩
    · split
      · split
        · exact ⟨_, rfl, fun _ => h, .inl rfl⟩
        · exact ⟨_, rfl, fun _ => h, .inl rfl⟩
      · split
        · split
          · exact ⟨_, rfl, fun _ => h, .inl rfl⟩
          · exact ⟨_, rfl, fun _ => h, .inl rfl⟩
        · split
          · split
            · exact ⟨_, rfl, fun _ => h, .inr rfl⟩
            · exact ⟨_, rfl, fun hnone => absurd (hvar.symm.trans hnone) (by simp), .inl rfl⟩
          · exact ⟨_, rfl, fun _ => h, .inl rfl⟩

theorem ready_check (h : s.var = none → s.valEnd = none) :
    (ready false size s).valEnd = none ∧ (ready false size s).buff = s.buff := by
  cases hend : s.valEnd with
  | none => simp [ready, hend]
  | some e =>
    cases hvar : s.var with
    | none =>
      rw [h hvar] at hend
      exact absurd hend (by simp)
    | some v => simp [ready, hend, hvar]

/-- A pass that does not save comes to its end, and blanks stay blanks. -/
theorem loop_check {n : Nat} (h : s.valEnd = none) :
    ∃ s', loop false size n i s = .ok s' ∧ ∀ x, s.buff x = 32 → s'.buff x = 32 := by
  induction n generalizing i s with
  | zero => exact ⟨s, rfl, fun _ hx => hx⟩
  | succ n ih =>
    obtain ⟨s', hscan, hvar, hbuff⟩ := @scan_check size i s h
    obtain ⟨hend, hready⟩ := @ready_check size s' hvar
    obtain ⟨s'', hloop, hkeep⟩ := ih (i := i + 1) hend
    refine ⟨s'', ?_, fun x hx => hkeep x ?_⟩
    · rw [loop, step, hscan, Except.map]
      exact hloop
    · rw [hready]
      rcases hbuff with hbuff | hbuff <;> rw [hbuff]
      · exact hx
      · exact escape_blank hx

/-- A variable whose raw value has an end of line is one with an escaped one. -/
theorem Pieces.exists_escaped {name gap : List UInt8} {e : Entry × List UInt8} (h : Pieces t name gap e)
    {x : UInt8} (hx : x ∈ e.1.raw) (hnl : isNewline x = true) :
    ∃ v w nl cs, t = name ++ (gap ++ v :: (w ++ nl :: cs)) ∧ gap ≠ [] ∧ isSpace v = false ∧
      (∀ x ∈ w, isNewline x = false) ∧ isNewline nl = true ∧
      (v :: w).getLast (List.cons_ne_nil _ _) = backslash := by
  have hplain {v : UInt8} {w : List UInt8} (hv : isSpace v = false) (hw : ∀ x ∈ w, isNewline x = false)
      (hx : x ∈ v :: w) : False := by
    rcases List.mem_cons.mp hx with rfl | hx
    · simp [isSpace, hnl] at hv
    · rw [hw x hx] at hnl
      exact absurd hnl (by simp)
  cases h with
  | bare => exact absurd hx List.not_mem_nil
  | unset => exact absurd hx List.not_mem_nil
  | open_ v w ht hgapne hv hw => exact (hplain hv hw hx).elim
  | closed v w nl rest ht hgapne hv hw => exact (hplain hv hw hx).elim
  | escaped v w nl cs e ht hgapne hv hw hnl' hlast =>
    exact ⟨v, w, nl, cs, ht, hgapne, hv, hw, hnl', hlast⟩

/-- The pass over a variable with an escaped end of line changes a backslash. -/
theorem loop_escaped {name gap w cs : List UInt8} {c v nl : UInt8} (h : Idle s)
    (hcomment : s.commentStart = false) (hhead : name.head? = some c) (hc : c ≠ 35)
    (hname : ∀ x ∈ name, isSpace x = false) (hgap : ∀ x ∈ gap, isBlank x = true) (hgapne : gap ≠ [])
    (hv : isSpace v = false) (hw : ∀ x ∈ w, isNewline x = false) (hnl : isNewline nl = true)
    (hlast : (v :: w).getLast (List.cons_ne_nil _ _) = backslash)
    (hread : s.buff.Holds i (name ++ (gap ++ v :: (w ++ nl :: cs)))) :
    ∃ s' x, loop false size (name ++ (gap ++ v :: (w ++ nl :: cs))).length i s = .ok s' ∧
      s.buff x = backslash ∧ s'.buff x = 32 := by
  obtain ⟨s₂, hs₂, hrun⟩ := @loop_valued false size i s w (nl :: cs) name gap c v h hcomment hhead hc hname
    hgap hgapne hv hw hread
  rw [← List.cons_append, Mem.holds_append, Mem.holds_append, Mem.holds_append] at hread
  obtain ⟨-, -, hval, hrest⟩ := hread
  have hat := (Mem.holds_cons.mp hrest).1
  have hlen : 0 < (v :: w).length := Nat.succ_pos _
  have hprev : s.buff (i + name.length + gap.length + (v :: w).length - 1) = backslash := by
    have hcell := hval.getElem (i := (v :: w).length - 1) (by omega)
    rw [Nat.add_sub_assoc hlen, hcell, ← List.getLast_eq_getElem]
    exact hlast
  have hstep := @step_escape false size (i + name.length + gap.length + (v :: w).length) i s₂ hs₂.var
    (by rw [hs₂.varEnd]; rfl) (by rw [hs₂.val]; rfl) hs₂.valEnd (by rw [hs₂.buff, hat]; exact hnl)
    (by rw [hs₂.buff]; exact hprev)
  obtain ⟨s', hloop, hkeep⟩ := @loop_check size (i + name.length + gap.length + (v :: w).length + 1)
    { s₂ with buff := escape s₂.buff (i + name.length + gap.length + (v :: w).length) } cs.length hs₂.valEnd
  refine ⟨s', i + name.length + gap.length + (v :: w).length - 1, ?_, hprev, hkeep _ ?_⟩
  · rw [hrun, loop_cons hstep, hloop]
  · exact Mem.write_inside _ (i := 0) (by simp)

/-- **A pass over a text with an escaped end of line changes it.** -/
theorem run_escaped {fuel : Nat} (hfuel : t.length ≤ fuel) (h : Idle s) (hcomment : s.commentStart = false)
    (hread : s.buff.Holds i t) (hsize : i + t.length = size)
    (hescaped : ∃ e ∈ entriesLoop fuel t, ∃ x ∈ e.raw, isNewline x = true) :
    ∃ s' x, loop false size t.length i s = .ok s' ∧ s.buff x = backslash ∧ s'.buff x = 32 := by
  induction fuel generalizing t i s with
  | zero =>
    obtain ⟨e, he, -⟩ := hescaped
    exact absurd he List.not_mem_nil
  | succ fuel ih =>
    cases hstart : start false t with
    | nil =>
      obtain ⟨e, he, -⟩ := hescaped
      rw [entriesLoop_nil hstart] at he
      exact absurd he List.not_mem_nil
    | cons c cs =>
      rw [entriesLoop_cons hstart] at hescaped
      obtain ⟨hspace, hc⟩ := start_cons hstart
      obtain ⟨p, hp, hshort, hat, hloop⟩ := @loop_toEntry false size i s t c cs h hcomment hread hsize hstart
      obtain ⟨name, gap, hhead, hname, hgap, hpieces⟩ := readEntry_pieces hspace cs
      rw [hloop]
      by_cases hplain : ∀ x ∈ (readEntry (c :: cs)).1.raw, isNewline x = false
      · obtain ⟨front, hfront, hrest⟩ := hpieces.rest hhead hplain
        have hlen : (c :: cs).length = front.length + (readEntry (c :: cs)).2.length := by
          rw [← List.length_append, ← hrest]
        have hpos := List.length_pos_iff.mpr hfront
        have hescaped : ∃ e ∈ entriesLoop fuel (readEntry (c :: cs)).2, ∃ x ∈ e.raw, isNewline x = true := by
          obtain ⟨e, he, x, hx, hnl⟩ := hescaped
          rcases List.mem_cons.mp he with rfl | he
          · rw [hplain x hx] at hnl
            exact absurd hnl (by simp)
          · exact ⟨e, he, x, hx, hnl⟩
        rcases @loop_entry false size _ s _ name gap c _ h hcomment hhead hc hname hgap hpieces hplain
          hat hp (fun hsave => absurd hsave (by simp)) with ⟨s', hentry, hcloses⟩ | ⟨hnil, -⟩
        · have hread' := holds_behind (hrest ▸ hat) (hrest ▸ hp) hcloses.behind
          obtain ⟨s'', x, hrun, hbefore, hafter⟩ :=
            ih (by omega) hcloses.idle hcloses.comment hread' (by omega) hescaped
          rw [hcloses.added.buff rfl] at hbefore
          exact ⟨s'', x, by rw [hentry, hrun], hbefore, hafter⟩
        · obtain ⟨e, he, -⟩ := hescaped
          rw [hnil, entriesLoop_nil rfl] at he
          exact absurd he List.not_mem_nil
      · push Not at hplain
        obtain ⟨x, hx, hnl⟩ := hplain
        obtain ⟨v, w', nl, cs', ht', hgapne, hv, hw, hnl', hlast⟩ :=
          hpieces.exists_escaped hx (by simpa using hnl)
        rw [ht'] at hat ⊢
        exact loop_escaped h hcomment hhead hc hname hgap hgapne hv hw hnl' hlast hat

end Entry

-- ============================================================================
-- Exact variables
-- ============================================================================

section Exact

variable {e : Entry} {w t : List UInt8} {size : Nat} {buff : Mem UInt8}

theorem cstr_eq_self_iff : cstr w = w ↔ 0 ∉ w := by
  constructor
  · intro h
    rw [← h]
    exact cstr_noNul w
  · intro h
    rw [← cstr_append_nul w [], cstr_append h]

/-- A name is passed with the blanks behind it unless there are none. -/
theorem cstr_append_eq_iff {name gap : List UInt8} (hgap : ∀ x ∈ gap, isBlank x = true) :
    cstr (name ++ gap) = name ↔ gap = [] ∧ 0 ∉ name := by
  constructor
  · intro h
    have hnul : 0 ∉ name := by
      rw [← h]
      exact cstr_noNul _
    refine ⟨?_, hnul⟩
    have hall : 0 ∉ name ++ gap := by
      rw [List.mem_append, not_or]
      exact ⟨hnul, fun h0 => blank_ne_nul (hgap 0 h0) rfl⟩
    rw [cstr_eq_self_iff.mpr hall] at h
    simpa using h
  · rintro ⟨rfl, hnul⟩
    rw [List.append_nil, cstr_eq_self_iff]
    exact hnul

theorem join_plain (h : ∀ x ∈ w, isNewline x = false) : join w = w := by
  induction w with
  | nil => rfl
  | cons c cs ih =>
    obtain ⟨hc, hcs⟩ := List.forall_mem_cons.mp h
    have hnext : cs.head?.any isNewline = false := by
      cases cs with
      | nil => rfl
      | cons d ds => exact hcs d List.mem_cons_self
    rw [join, ih hcs, hc, hnext]
    simp

/-- What is passed for a variable without escaped ends of lines is right exactly if the
    variable is exact. -/
theorem passed_eq_pair_iff (hgap : ∀ x ∈ e.gap, isBlank x = true) (hplain : ∀ x ∈ e.raw, isNewline x = false) :
    e.passed = e.pair ↔ e.Exact := by
  have hname : cstr (if e.raw = [] ∧ e.closed = true then e.name ++ e.gap else e.name) = e.name ↔
      (e.raw = [] → e.closed = true → e.gap = []) ∧ 0 ∉ e.name := by
    by_cases hunset : e.raw = [] ∧ e.closed = true
    · rw [if_pos hunset, cstr_append_eq_iff hgap]
      exact ⟨fun h => ⟨fun _ _ => h.1, h.2⟩, fun h => ⟨h.1 hunset.1 hunset.2, h.2⟩⟩
    · rw [if_neg hunset, cstr_eq_self_iff]
      exact ⟨fun h => ⟨fun h₁ h₂ => absurd ⟨h₁, h₂⟩ hunset, h⟩, fun h => h.2⟩
  have hval : (if e.raw = [] then none else some (cstr e.raw)) =
      (if e.raw = [] then none else some (join e.raw)) ↔ 0 ∉ e.raw := by
    by_cases hraw : e.raw = []
    · simp [hraw]
    · rw [if_neg hraw, if_neg hraw, join_plain hplain, Option.some.injEq, cstr_eq_self_iff]
  rw [Entry.passed, Entry.pair, Prod.mk.injEq, hname, hval]
  exact ⟨fun h => ⟨hplain, h.1.1, h.1.2, h.2⟩, fun h => ⟨⟨h.tight, h.name_nul⟩, h.raw_nul⟩⟩

theorem gap_blank {fuel : Nat} (he : e ∈ entriesLoop fuel t) : ∀ x ∈ e.gap, isBlank x = true := by
  induction fuel generalizing t with
  | zero => exact absurd he List.not_mem_nil
  | succ fuel ih =>
    cases hstart : start false t with
    | nil =>
      rw [entriesLoop_nil hstart] at he
      exact absurd he List.not_mem_nil
    | cons c cs =>
      rw [entriesLoop_cons hstart] at he
      rcases List.mem_cons.mp he with rfl | he
      · obtain ⟨name, gap, -, -, hgap, hpieces⟩ := readEntry_pieces (start_cons hstart).1 cs
        have hsame : (readEntry (c :: cs)).1.gap =
            ((c :: cs).dropWhile (!isSpace ·)).takeWhile isBlank := by
          rw [readEntry]
          dsimp only
          split
          · rfl
          · split <;> rfl
        rw [hsame]
        exact fun x hx => List.all_eq_true.mp List.all_takeWhile x hx
      · exact ih he

-- ============================================================================
-- Both passes
-- ============================================================================

/-- The state that a pass begins in. -/
def Parse.init (buff : Mem UInt8) : Parse := ⟨buff, false, none, none, none, none, 0, []⟩

theorem idle_init (buff : Mem UInt8) : Idle (Parse.init buff) := ⟨rfl, rfl, rfl, rfl⟩

/-- A pass over a text without escaped ends of lines. -/
theorem parseEnv_plain (save : Bool)
    (hplain : ∀ e ∈ entries (buff.read 0 size), ∀ x ∈ e.raw, isNewline x = false) :
    ((parseEnv save size buff).err = none ↔ entries (buff.read 0 size) ≠ []) ∧
      (save = true → (parseEnv save size buff).saved = (entries (buff.read 0 size)).map Entry.passed) ∧
      (save = false → (parseEnv save size buff).buff = buff) := by
  have hlen : (buff.read 0 size).length = size := buff.read_length
  have hread : (if save then buff.write size [0] else buff).Holds 0 (buff.read 0 size) := by
    refine Mem.Holds.congr (m := buff) (by rw [Mem.Holds, hlen]) fun x _ hx => ?_
    cases save
    · rfl
    · exact buff.write_outside (.inl (by omega))
  have hnul : save = true → (if save then buff.write size [0] else buff) size = 0 := by
    intro hsave
    rw [if_pos hsave]
    exact buff.write_inside (i := 0) (by simp)
  obtain ⟨s', hloop, hadded⟩ := run_entries (Nat.le_refl _)
    (idle_init (if save then buff.write size [0] else buff)) rfl hread (by rw [Nat.zero_add, hlen]) hnul hplain
  rw [hlen] at hloop
  rw [parseEnv]
  dsimp only
  rw [show (⟨if save then buff.write size [0] else buff, false, none, none, none, none, 0, []⟩ : Parse) =
    Parse.init (if save then buff.write size [0] else buff) from rfl, hloop]
  dsimp only
  refine ⟨?_, fun hsave => ?_, fun hsave => ?_⟩
  · rw [hadded.sets]
    simp [Parse.init, entries]
  · rw [hadded.saved hsave]
    rfl
  · rw [hadded.buff hsave, hsave]
    rfl

/-- A pass over a text with an escaped end of line, without saving. -/
theorem parseEnv_escaped
    (hescaped : ∃ e ∈ entries (buff.read 0 size), ∃ x ∈ e.raw, isNewline x = true) :
    (parseEnv false size buff).buff ≠ buff := by
  have hlen : (buff.read 0 size).length = size := buff.read_length
  obtain ⟨s', x, hloop, hbefore, hafter⟩ := run_escaped (Nat.le_refl _) (idle_init buff) rfl
    (by rw [Mem.Holds, hlen]; rfl) (by rw [Nat.zero_add]) hescaped
  have hbuff : (finish false (buff.read 0 size).length s').buff = s'.buff := by
    rw [finish]
    split <;> rfl
  rw [hlen] at hloop hbuff
  intro h
  have hx := congrFun h x
  rw [parseEnv] at hx
  simp only [Bool.false_eq_true, if_false] at hx
  rw [show (⟨buff, false, none, none, none, none, 0, []⟩ : Parse) = Parse.init buff from rfl, hloop] at hx
  dsimp only at hx
  rw [hbuff, hafter] at hx
  rw [Parse.init] at hbefore
  dsimp only at hbefore
  rw [hbefore] at hx
  exact absurd hx (by decide)

/-- **The image of an environment.** The first pass leaves the buffer alone, and the
    second one saves what the image says, exactly if all of its variables are exact. -/
theorem parses_iff (size : Nat) (buff : Mem UInt8) :
    Parses size buff ↔ ∀ e ∈ entries (buff.read 0 size), e.Exact := by
  constructor
  · intro h
    have hplain : ∀ e ∈ entries (buff.read 0 size), ∀ x ∈ e.raw, isNewline x = false := by
      by_contra hnot
      push Not at hnot
      obtain ⟨e, he, x, hx, hnl⟩ := hnot
      exact parseEnv_escaped ⟨e, he, x, hx, by simpa using hnl⟩ h.unchanged
    obtain ⟨herr, -, -⟩ := @parseEnv_plain size buff false hplain
    obtain ⟨-, hsaved, -⟩ := @parseEnv_plain size buff true hplain
    intro e he
    have hsaves := h.saves (herr.mpr (List.ne_nil_of_mem he))
    rw [h.unchanged, hsaved rfl] at hsaves
    exact (passed_eq_pair_iff (gap_blank he) (hplain e he)).mp (List.map_inj_left.mp hsaves e he)
  · intro h
    have hplain := fun e he => (h e he).unescaped
    obtain ⟨herr, -, hbuff⟩ := @parseEnv_plain size buff false hplain
    obtain ⟨herr', hsaved, -⟩ := @parseEnv_plain size buff true hplain
    exact
      { unchanged := hbuff rfl
        agree := by rw [hbuff rfl, herr, herr']
        saves := by
          intro _
          rw [hbuff rfl, hsaved rfl]
          exact List.map_inj_left.mpr fun e he => (passed_eq_pair_iff (gap_blank he) (hplain e he)).mpr (h e he) }

/-- A continued value. -/
theorem not_parses_escaped : ¬ Parses 7 fun x => (ascii "a b\\\nc\n").getD x 0 := by
  intro h
  have hx := congrFun h.unchanged 3
  exact absurd hx (by decide)

end Exact

end Uboot.Common.FastbootEnv
