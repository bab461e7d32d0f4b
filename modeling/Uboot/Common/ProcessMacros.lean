/-
  Uboot.Common.ProcessMacros

  `process_macros` of common/main.c, which replaces `$(name)` and `${name}` in a
  command line: a scanner of four states that looks back one character for
  escapes.  The environment is a lookup from names to values.
-/

import Uboot.Lib.Ram
import Uboot.LibGeneric.Vsprintf
import Mathlib.Data.List.TakeWhile

namespace Uboot.Common.ProcessMacros

open Uboot.Lib Uboot.LibGeneric

/-- `CONFIG_SYS_CBSIZE` -/
def cbsize : Nat := 256

def backslash : UInt8 := 92

def quote : UInt8 := 39

def dollar : UInt8 := 36

theorem quote_ne_backslash : quote ≠ backslash := by decide

theorem dollar_ne_backslash : dollar ≠ backslash := by decide

theorem dollar_ne_quote : dollar ≠ quote := by decide

/-- `(` or `{` -/
def isOpen (c : UInt8) : Bool := c = 40 || c = 123

/-- `)` or `}` -/
def isClose (c : UInt8) : Bool := c = 41 || c = 125

-- ============================================================================
-- The scanner
-- ============================================================================

/-- `state`: waiting for an unescaped `$`, for the opening and the closing bracket behind
    one, for the quote that ends quoted text. -/
inductive State
  | waitDollar
  | waitOpen
  | waitClose
  | waitQuote
  deriving DecidableEq

/-- The local variables.  `varnameStart` is the line from the name on. -/
structure Scan where
  prev : UInt8
  state : State
  varnameStart : List UInt8
  output : Nat
  outputcnt : Nat
  ram : Ram

/-- `*(output++) = c; outputcnt--;` -/
def Scan.put (s : Scan) (c : UInt8) : Scan :=
  { s with output := s.output + 1, outputcnt := s.outputcnt - 1, ram := s.ram.store s.output [c] }

/-- The loop that copies a value into the line. -/
def copyVal (s : Scan) : List UInt8 → Scan
  | [] => s
  | c :: envval => if s.outputcnt = 0 then s else copyVal (s.put c) envval

/-- The `switch`: character `c`, with `input` behind it. -/
def scanChar (getenv : List UInt8 → Option (List UInt8)) (s : Scan) (c : UInt8)
    (input : List UInt8) : Scan :=
  match s.state with
  | .waitDollar =>
    if c = quote ∧ s.prev ≠ backslash then { s with state := .waitQuote }
    else if c = dollar ∧ s.prev ≠ backslash then { s with state := .waitOpen }
    else s.put c
  | .waitOpen =>
    if isOpen c then { s with state := .waitClose, varnameStart := input }
    else
      let s := { s with state := .waitDollar }.put dollar
      if s.outputcnt ≠ 0 then s.put c else s
  | .waitClose =>
    if isClose c then
      let envcnt := s.varnameStart.length - input.length - 1
      let envval := getenv (s.varnameStart.take envcnt)
      { copyVal s (cstr (envval.getD [])) with state := .waitDollar }
    else s
  | .waitQuote =>
    if c = quote ∧ s.prev ≠ backslash then { s with state := .waitDollar } else s.put c

/-- The main loop.  Outside quoted text a backslash hides the character behind it, unless
    the character before it was one; at the end of the line the loop ends there. -/
def loop (getenv : List UInt8 → Option (List UInt8)) (s : Scan) : List UInt8 → Scan
  | [] => s
  | c :: input =>
    if s.outputcnt = 0 then s
    else if s.state ≠ .waitQuote ∧ c = backslash ∧ s.prev ≠ backslash then
      match input with
      | [] => s
      | c :: input => loop getenv { scanChar getenv { s with prev := backslash } c input with prev := c } input
    else loop getenv { scanChar getenv s c input with prev := c } input

/-- `process_macros (input, output)`: memory after the call, with the ranges it stored to. -/
def processMacros (getenv : List UInt8 → Option (List UInt8)) (input : List UInt8) (output : Nat)
    (m : Mem UInt8) : Ram :=
  let s := loop getenv ⟨0, .waitDollar, [], output, cbsize, ⟨m, []⟩⟩ input
  if s.outputcnt ≠ 0 then s.ram.store s.output [0] else s.ram.store (s.output - 1) [0]

-- ============================================================================
-- The reference
-- ============================================================================

/-- A bracketed name at the head of the line, and what follows it. -/
def bracketed : List UInt8 → Option (List UInt8 × List UInt8)
  | c :: line =>
    if c = 40 ∧ 41 ∈ line then some (line.takeWhile (· ≠ 41), (line.dropWhile (· ≠ 41)).tail)
    else if c = 123 ∧ 125 ∈ line then some (line.takeWhile (· ≠ 125), (line.dropWhile (· ≠ 125)).tail)
    else none
  | [] => none

/-- A line up to the first `b`, and what follows it. -/
theorem eq_takeWhile_cons {b : UInt8} {line : List UInt8} (hb : b ∈ line) :
    line = line.takeWhile (· ≠ b) ++ b :: (line.dropWhile (· ≠ b)).tail := by
  have hne : line.dropWhile (· ≠ b) ≠ [] := by
    intro hnil
    have hall := List.dropWhile_eq_nil_iff.mp hnil b hb
    simp at hall
  have hhead := List.head_dropWhile_not (· ≠ b) hne
  have hcons := List.cons_head_tail hne
  have hb' : (line.dropWhile (· ≠ b)).head hne = b := by simpa using hhead
  rw [hb'] at hcons
  rw [hcons, List.takeWhile_append_dropWhile]

theorem bracketed_eq {line name rest : List UInt8} (h : bracketed line = some (name, rest)) :
    ∃ a b, line = a :: (name ++ b :: rest) ∧ isOpen a ∧ isClose b := by
  rw [bracketed.eq_def] at h
  split at h
  · rename_i c line
    split at h
    · rename_i hc
      obtain ⟨rfl, rfl⟩ := Prod.mk.inj (Option.some.inj h)
      exact ⟨c, 41, by rw [← eq_takeWhile_cons hc.2], by simp [isOpen, hc.1], by decide⟩
    · split at h
      · rename_i hc
        obtain ⟨rfl, rfl⟩ := Prod.mk.inj (Option.some.inj h)
        exact ⟨c, 125, by rw [← eq_takeWhile_cons hc.2], by simp [isOpen, hc.1], by decide⟩
      · exact absurd h (Option.some_ne_none _).symm
  · exact absurd h (Option.some_ne_none _).symm

theorem bracketed_length {line name rest : List UInt8} (h : bracketed line = some (name, rest)) :
    rest.length < line.length := by
  obtain ⟨a, b, rfl, -⟩ := bracketed_eq h
  simp only [List.length_cons, List.length_append]
  omega

/-- Quoted text and what follows its closing quote; without one it goes on to the end. -/
def unquoted (line : List UInt8) : List UInt8 × List UInt8 :=
  (line.takeWhile (· ≠ quote), (line.dropWhile (· ≠ quote)).tail)

theorem unquoted_length (line : List UInt8) : (unquoted line).2.length ≤ line.length := by
  have hle := (List.dropWhile_suffix (· ≠ quote) (l := line)).length_le
  simp only [unquoted, List.length_tail]
  omega

/-- The reference expansion of a line. -/
def expand (getenv : List UInt8 → Option (List UInt8)) : List UInt8 → List UInt8
  | [] => []
  | c :: line =>
    if c = backslash then
      match line with
      | [] => [c]
      | x :: line => x :: expand getenv line
    else if c = quote then
      have := unquoted_length line
      (unquoted line).1 ++ expand getenv (unquoted line).2
    else if c = dollar then
      match h : bracketed line with
      | some (name, rest) =>
        have := bracketed_length h
        cstr ((getenv name).getD []) ++ expand getenv rest
      | none => c :: expand getenv line
    else c :: expand getenv line
  termination_by line => line.length

/-- The condition on a line, from a point on where the character before was an escaped
    backslash (`esc`) or not. -/
def Clean (esc : Bool) : List UInt8 → Prop
  | [] => True
  | c :: line =>
    if c = backslash then
      esc = false ∧
        match line with
        | [] => False
        | x :: line => Clean (x = backslash) line
    else if c = quote then
      have := unquoted_length line
      esc = false ∧ (quote ∈ line → (unquoted line).1.getLast? ≠ some backslash) ∧
        Clean false (unquoted line).2
    else if c = dollar then
      match h : bracketed line with
      | some (name, rest) =>
        have := bracketed_length h
        esc = false ∧ (∀ x ∈ name, isClose x = false) ∧ Clean false rest
      | none =>
        -- a `$` that is copied
        if esc then Clean false line
        else
          match line with
          | [] => False
          | d :: line =>
            if d = quote ∨ isOpen d then False
            else if d = backslash then
              match line with
              | [] => False
              | x :: line => isOpen x = false ∧ Clean (x = backslash) line
            else if d = dollar then bracketed line = none ∧ Clean false line
            else Clean false line
    else Clean false line
  termination_by line => line.length
  decreasing_by all_goals simp only [List.length_cons]; omega

section Reference

variable {getenv : List UInt8 → Option (List UInt8)} {line name rest : List UInt8} {c x : UInt8}
variable {esc : Bool}

theorem expand_nil : expand getenv [] = [] := by rw [expand.eq_def]

theorem expand_backslash :
    expand getenv (backslash :: x :: line) = x :: expand getenv line := by
  rw [expand.eq_def]
  dsimp only
  rw [if_pos rfl]

theorem expand_quote : expand getenv (quote :: line) =
    (unquoted line).1 ++ expand getenv (unquoted line).2 := by
  rw [expand.eq_def]
  dsimp only
  rw [if_neg quote_ne_backslash, if_pos rfl]

theorem expand_var (h : bracketed line = some (name, rest)) :
    expand getenv (dollar :: line) = cstr ((getenv name).getD []) ++ expand getenv rest := by
  rw [expand.eq_def]
  dsimp only
  rw [if_neg dollar_ne_backslash, if_neg dollar_ne_quote, if_pos rfl]
  split
  · rename_i hsome
    obtain ⟨rfl, rfl⟩ := Prod.mk.inj (Option.some.inj (h.symm.trans hsome))
    rfl
  · rename_i hnone
    exact absurd (h.symm.trans hnone) (Option.some_ne_none _)

theorem expand_dollar (h : bracketed line = none) :
    expand getenv (dollar :: line) = dollar :: expand getenv line := by
  rw [expand.eq_def]
  dsimp only
  rw [if_neg dollar_ne_backslash, if_neg dollar_ne_quote, if_pos rfl]
  split
  · rename_i hsome
    exact absurd (hsome.symm.trans h) (Option.some_ne_none _)
  · rfl

theorem expand_char (hslash : c ≠ backslash) (hquote : c ≠ quote) (hdollar : c ≠ dollar) :
    expand getenv (c :: line) = c :: expand getenv line := by
  rw [expand.eq_def]
  dsimp only
  rw [if_neg hslash, if_neg hquote, if_neg hdollar]

theorem clean_backslash (h : Clean esc (backslash :: line)) :
    esc = false ∧ ∃ x rest, line = x :: rest ∧ Clean (x = backslash) rest := by
  rw [Clean.eq_def] at h
  dsimp only at h
  rw [if_pos rfl] at h
  cases line with
  | nil => exact absurd h.2 not_false
  | cons x rest => exact ⟨h.1, x, rest, rfl, h.2⟩

theorem clean_quote (h : Clean esc (quote :: line)) :
    esc = false ∧ (quote ∈ line → (unquoted line).1.getLast? ≠ some backslash) ∧
      Clean false (unquoted line).2 := by
  rw [Clean.eq_def] at h
  dsimp only at h
  rw [if_neg quote_ne_backslash, if_pos rfl] at h
  exact h

theorem clean_var (hvar : bracketed line = some (name, rest)) (h : Clean esc (dollar :: line)) :
    esc = false ∧ (∀ x ∈ name, isClose x = false) ∧ Clean false rest := by
  rw [Clean.eq_def] at h
  dsimp only at h
  rw [if_neg dollar_ne_backslash, if_neg dollar_ne_quote, if_pos rfl] at h
  split at h
  · rename_i hsome
    obtain ⟨rfl, rfl⟩ := Prod.mk.inj (Option.some.inj (hvar.symm.trans hsome))
    exact h
  · rename_i hnone
    exact absurd (hvar.symm.trans hnone) (Option.some_ne_none _)

/-- An escaped `$`, or the cases of the character behind one that is copied. -/
theorem clean_dollar (hvar : bracketed line = none) (h : Clean esc (dollar :: line)) :
    (esc = true ∧ Clean false line) ∨
      ∃ d rest, line = d :: rest ∧ esc = false ∧ d ≠ quote ∧ isOpen d = false ∧
        ((d = backslash ∧ ∃ x rest', rest = x :: rest' ∧ isOpen x = false ∧
            Clean (x = backslash) rest') ∨
          (d = dollar ∧ bracketed rest = none ∧ Clean false rest) ∨
          (d ≠ backslash ∧ d ≠ dollar ∧ Clean false rest)) := by
  rw [Clean.eq_def] at h
  dsimp only at h
  rw [if_neg dollar_ne_backslash, if_neg dollar_ne_quote, if_pos rfl] at h
  split at h
  · rename_i hsome
    exact absurd (hsome.symm.trans hvar) (Option.some_ne_none _)
  · split at h
    · rename_i hesc
      exact .inl ⟨hesc, h⟩
    · rename_i hesc
      refine .inr ?_
      cases line with
      | nil => exact absurd h not_false
      | cons d rest =>
        dsimp only at h
        split at h
        · exact absurd h not_false
        · rename_i hd
          obtain ⟨hquote, hopen⟩ := not_or.mp hd
          refine ⟨d, rest, rfl, Bool.eq_false_iff.mpr hesc, hquote, Bool.eq_false_iff.mpr hopen, ?_⟩
          split at h
          · rename_i hslash
            cases rest with
            | nil => exact absurd h not_false
            | cons x rest => exact .inl ⟨hslash, x, rest, rfl, h⟩
          · rename_i hslash
            split at h
            · rename_i hdollar
              exact .inr (.inl ⟨hdollar, h⟩)
            · rename_i hdollar
              exact .inr (.inr ⟨hslash, hdollar, h⟩)

theorem clean_char (hslash : c ≠ backslash) (hquote : c ≠ quote) (hdollar : c ≠ dollar)
    (h : Clean esc (c :: line)) : Clean false line := by
  rw [Clean.eq_def] at h
  dsimp only at h
  rw [if_neg hslash, if_neg hquote, if_neg hdollar] at h
  exact h

/-- A line with an opening quote falls into the quoted text and, when there is one, the closing
    quote. -/
theorem unquoted_eq (line : List UInt8) :
    quote ∉ (unquoted line).1 ∧
      ((quote ∈ line ∧ line = (unquoted line).1 ++ quote :: (unquoted line).2) ∨
        (quote ∉ line ∧ line = (unquoted line).1 ∧ (unquoted line).2 = [])) := by
  have hnot : quote ∉ (unquoted line).1 := fun hmem => by
    have := List.mem_takeWhile_imp hmem
    simp at this
  refine ⟨hnot, ?_⟩
  by_cases hq : quote ∈ line
  · exact .inl ⟨hq, eq_takeWhile_cons hq⟩
  · have hall : ∀ x ∈ line, decide (x ≠ quote) = true := fun x hx =>
      decide_eq_true (fun heq => hq (heq ▸ hx))
    have hdrop : line.dropWhile (· ≠ quote) = [] := List.dropWhile_eq_nil_iff.mpr hall
    refine .inr ⟨hq, (List.takeWhile_eq_self_iff.mpr hall).symm, ?_⟩
    rw [unquoted, hdrop]
    rfl

end Reference

-- ============================================================================
-- The output buffer
-- ============================================================================

section Buffer

variable {getenv : List UInt8 → Option (List UInt8)} {s : Scan} {base : Nat}
variable {txt val line rest : List UInt8} {c : UInt8}

/-- `txt` has been written to the buffer at `base`, and nothing outside it. -/
structure Wrote (base : Nat) (txt : List UInt8) (s : Scan) : Prop where
  output : s.output = base + txt.length
  outputcnt : s.outputcnt + txt.length = cbsize
  text : s.ram.cells.read base txt.length = txt
  inside : s.ram.WritesIn ⟨base, cbsize⟩

theorem Wrote.congr {s' : Scan} (h : Wrote base txt s) (hout : s'.output = s.output)
    (hcnt : s'.outputcnt = s.outputcnt) (hram : s'.ram = s.ram) : Wrote base txt s' :=
  ⟨hout.trans h.output, by rw [hcnt]; exact h.outputcnt, by rw [hram]; exact h.text,
    by rw [hram]; exact h.inside⟩

theorem Wrote.put (h : Wrote base txt s) (hcnt : s.outputcnt ≠ 0) (c : UInt8) :
    Wrote base (txt ++ [c]) (s.put c) := by
  have hout := h.output
  have hleft := h.outputcnt
  refine ⟨?_, ?_, ?_, ?_⟩
  · simp only [Scan.put, List.length_append, List.length_singleton]
    omega
  · simp only [Scan.put, List.length_append, List.length_singleton]
    omega
  · simp only [Scan.put, Ram.store_cells, List.length_append, hout]
    exact Mem.read_write_append _ h.text
  · simp only [Scan.put]
    refine h.inside.store fun _ => ?_
    simp only [Extent.stop, List.length_singleton]
    omega

/-- The copy of a value stops at the end of the buffer. -/
theorem Wrote.copyVal : ∀ {val txt : List UInt8} {s : Scan}, Wrote base txt s →
    Wrote base (txt ++ val.take s.outputcnt) (copyVal s val)
  | [], txt, s, h => by
    rw [List.take_nil, List.append_nil]
    exact h
  | c :: val, txt, s, h => by
    rw [ProcessMacros.copyVal]
    split
    · rename_i hzero
      rw [hzero, List.take_zero, List.append_nil]
      exact h
    · rename_i hcnt
      obtain ⟨n, hn⟩ := Nat.exists_eq_succ_of_ne_zero hcnt
      have hnext : Wrote base (txt ++ [c] ++ val.take (s.put c).outputcnt)
        (ProcessMacros.copyVal (s.put c) val) := Wrote.copyVal (h.put hcnt c)
      have hleft : (s.put c).outputcnt = n := by
        rw [Scan.put, hn]
        rfl
      rw [hleft, List.append_assoc] at hnext
      rw [hn, List.take_succ_cons]
      exact hnext

variable (getenv) in
/-- One character writes inside the buffer. -/
theorem wrote_scanChar (h : Wrote base txt s) (hcnt : s.outputcnt ≠ 0) (c : UInt8)
    (input : List UInt8) : ∃ more, Wrote base (txt ++ more) (scanChar getenv s c input) := by
  have hsame : ∀ state varnameStart, ∃ more,
      Wrote base (txt ++ more) { s with state := state, varnameStart := varnameStart } := by
    intro state varnameStart
    refine ⟨[], ?_⟩
    rw [List.append_nil]
    exact h.congr rfl rfl rfl
  rw [scanChar]
  cases hstate : s.state with
  | waitDollar =>
    dsimp only
    split
    · exact hsame _ _
    · split
      · exact hsame _ _
      · exact ⟨[c], h.put hcnt c⟩
  | waitOpen =>
    dsimp only
    split
    · exact hsame _ _
    · have hput : Wrote base (txt ++ [dollar]) ({ s with state := .waitDollar }.put dollar) :=
        @Wrote.put { s with state := .waitDollar } base txt (h.congr rfl rfl rfl) hcnt dollar
      split
      · rename_i hcnt'
        exact ⟨[dollar] ++ [c], by rw [← List.append_assoc]; exact hput.put hcnt' c⟩
      · exact ⟨[dollar], hput⟩
  | waitClose =>
    dsimp only
    split
    · have hval : Wrote base _ (copyVal s (cstr ((getenv
          (s.varnameStart.take (s.varnameStart.length - input.length - 1))).getD []))) := h.copyVal
      exact ⟨_, hval.congr rfl rfl rfl⟩
    · exact ⟨[], by rw [List.append_nil]; exact h⟩
  | waitQuote =>
    dsimp only
    split
    · exact hsame _ _
    · exact ⟨[c], h.put hcnt c⟩

/-- **Safety.**  Whatever the line is, the scan writes inside the buffer. -/
theorem wrote_loop (getenv : List UInt8 → Option (List UInt8)) (line : List UInt8) :
    ∀ (s : Scan) (txt : List UInt8), Wrote base txt s →
      ∃ more, Wrote base (txt ++ more) (loop getenv s line) := by
  have hnone : ∀ {s : Scan} {txt : List UInt8}, Wrote base txt s → ∃ more, Wrote base (txt ++ more) s :=
    fun h => ⟨[], by rw [List.append_nil]; exact h⟩
  intro s
  fun_induction loop getenv s line with
  | case1 s => exact fun txt h => hnone h
  | case2 s c input hzero => exact fun txt h => hnone h
  | case3 s c hcnt hesc => exact fun txt h => hnone h
  | case4 s c hcnt hesc x input ih =>
    intro txt h
    have hprev : Wrote base txt { s with prev := backslash } := h.congr rfl rfl rfl
    obtain ⟨more, hmore⟩ := wrote_scanChar getenv hprev hcnt x input
    obtain ⟨more', hmore'⟩ := ih (txt ++ more) (hmore.congr rfl rfl rfl)
    exact ⟨more ++ more', by rw [← List.append_assoc]; exact hmore'⟩
  | case5 s c input hcnt hesc ih =>
    intro txt h
    obtain ⟨more, hmore⟩ := wrote_scanChar getenv h hcnt c input
    obtain ⟨more', hmore'⟩ := ih (txt ++ more) (hmore.congr rfl rfl rfl)
    exact ⟨more ++ more', by rw [← List.append_assoc]; exact hmore'⟩

end Buffer

-- ============================================================================
-- The scan of a clean line
-- ============================================================================

section Scan

variable {getenv : List UInt8 → Option (List UInt8)} {s : Scan} {base : Nat}
variable {txt val line rest name full : List UInt8} {a b c d x : UInt8} {esc : Bool}

/-- One round of the loop on a character that is not hidden. -/
theorem loop_char (hcnt : s.outputcnt ≠ 0) (input : List UInt8)
    (h : s.state = .waitQuote ∨ c ≠ backslash ∨ s.prev = backslash) :
    loop getenv s (c :: input) = loop getenv { scanChar getenv s c input with prev := c } input := by
  rw [loop.eq_def]
  dsimp only
  rw [if_neg hcnt, if_neg]
  rintro ⟨h₁, h₂, h₃⟩
  exact h.elim h₁ fun h => h.elim (fun hc => hc h₂) h₃

/-- One round of the loop on a backslash and the character it hides. -/
theorem loop_hidden (hcnt : s.outputcnt ≠ 0) (hstate : s.state ≠ .waitQuote)
    (hprev : s.prev ≠ backslash) (x : UInt8) (input : List UInt8) :
    loop getenv s (backslash :: x :: input) =
      loop getenv { scanChar getenv { s with prev := backslash } x input with prev := x } input := by
  rw [loop.eq_def]
  dsimp only
  rw [if_neg hcnt, if_pos ⟨hstate, rfl, hprev⟩]

theorem Wrote.cnt_ne_zero (h : Wrote base txt s) (hlen : txt.length < cbsize) : s.outputcnt ≠ 0 := by
  have hcnt := h.outputcnt
  omega

variable (getenv rest) in
/-- Quoted text is copied. -/
theorem loop_quoted : ∀ (q : List UInt8) (s : Scan) (txt : List UInt8), s.state = .waitQuote →
    Wrote base txt s → quote ∉ q → txt.length + q.length < cbsize →
      ∃ s', loop getenv s (q ++ rest) = loop getenv s' rest ∧ s'.state = .waitQuote ∧
        s'.prev = q.getLast?.getD s.prev ∧ Wrote base (txt ++ q) s'
  | [], s, txt, hstate, h, _, _ => ⟨s, rfl, hstate, rfl, by rw [List.append_nil]; exact h⟩
  | c :: q, s, txt, hstate, h, hq, hlen => by
    rw [List.length_cons] at hlen
    obtain ⟨hc, hq⟩ := List.ne_and_not_mem_of_not_mem_cons hq
    have hcnt := h.cnt_ne_zero (by omega)
    have hscan : scanChar getenv s c (q ++ rest) = s.put c := by
      rw [scanChar, hstate]
      dsimp only
      rw [if_neg fun hboth => hc hboth.1.symm]
    have hput : Wrote base (txt ++ [c]) { s.put c with prev := c } :=
      (h.put hcnt c).congr rfl rfl rfl
    obtain ⟨s', hloop, hstate', hprev, hwrote⟩ := loop_quoted q { s.put c with prev := c } (txt ++ [c])
      hstate hput hq (by rw [List.length_append, List.length_singleton]; omega)
    refine ⟨s', ?_, hstate', ?_, ?_⟩
    · rw [List.cons_append, loop_char hcnt _ (.inl hstate), hscan]
      exact hloop
    · rw [hprev, List.getLast?_cons, Option.getD_some]
    · rw [List.append_assoc] at hwrote
      exact hwrote

variable (getenv full) in
/-- The rest of a name up to its bracket.  Hidden or not, a character is looked at for the
    bracket only. -/
theorem loop_name (hb : isClose b) : ∀ (n : Nat) (name : List UInt8), name.length ≤ n →
    ∀ s : Scan, s.state = .waitClose → s.varnameStart = full ++ b :: rest →
      (∀ x ∈ name, isClose x = false) → s.outputcnt ≠ 0 → Wrote base txt s →
        ∃ s', loop getenv s (name ++ b :: rest) = loop getenv s' rest ∧ s'.state = .waitDollar ∧
          s'.prev = b ∧ Wrote base (txt ++ (cstr ((getenv full).getD [])).take s.outputcnt) s' := by
  have hbslash : b ≠ backslash := by
    rintro rfl
    exact absurd hb (by decide)
  -- the bracket itself, wherever the character before it has left the look-back
  have hbracket : ∀ (s : Scan), s.state = .waitClose → s.varnameStart = full ++ b :: rest →
      scanChar getenv s b rest =
        { copyVal s (cstr ((getenv full).getD [])) with state := .waitDollar } := by
    intro s hstate hstart
    have hcnt : s.varnameStart.length - rest.length - 1 = full.length := by
      rw [hstart, List.length_append, List.length_cons]
      omega
    rw [scanChar, hstate]
    dsimp only
    rw [if_pos hb, hcnt, hstart, List.take_left]
  have hother : ∀ (s : Scan) (x : UInt8) (input : List UInt8), s.state = .waitClose →
      isClose x = false → scanChar getenv s x input = s := by
    intro s x input hstate hx
    rw [scanChar, hstate]
    dsimp only
    rw [if_neg (by rw [hx]; exact Bool.false_ne_true)]
  intro n
  induction n with
  | zero =>
    intro name hlen s hstate hstart _ hcnt h
    obtain rfl := List.eq_nil_of_length_eq_zero (Nat.le_zero.mp hlen)
    refine ⟨_, loop_char hcnt rest (.inr (.inl hbslash)), ?_, rfl, ?_⟩
    · rw [hbracket s hstate hstart]
    · rw [hbracket s hstate hstart]
      exact h.copyVal.congr rfl rfl rfl
  | succ n ih =>
    intro name hlen s hstate hstart hname hcnt h
    cases name with
    | nil => exact ih [] (Nat.zero_le n) s hstate hstart hname hcnt h
    | cons c name =>
      rw [List.length_cons] at hlen
      by_cases hhidden : c = backslash ∧ s.prev ≠ backslash
      · obtain ⟨rfl, hprev⟩ := hhidden
        have hprev' : Wrote base txt { s with prev := backslash } := h.congr rfl rfl rfl
        have hquote : s.state ≠ .waitQuote := by rw [hstate]; exact State.noConfusion
        cases name with
        | nil =>
          refine ⟨_, loop_hidden hcnt hquote hprev b rest, ?_, rfl, ?_⟩
          · rw [hbracket { s with prev := backslash } hstate hstart]
          · rw [hbracket { s with prev := backslash } hstate hstart]
            exact hprev'.copyVal.congr rfl rfl rfl
        | cons x name =>
          rw [List.length_cons] at hlen
          have hx := hname x (List.mem_cons_of_mem _ List.mem_cons_self)
          have hnext := ih name (by omega) { s with prev := x } hstate hstart
            (fun y hy => hname y (List.mem_cons_of_mem _ (List.mem_cons_of_mem _ hy))) hcnt
            (h.congr rfl rfl rfl)
          obtain ⟨s', hloop, hrest⟩ := hnext
          refine ⟨s', ?_, hrest⟩
          rw [List.cons_append, List.cons_append, loop_hidden hcnt hquote hprev,
            hother { s with prev := backslash } x _ hstate hx]
          exact hloop
      · have hseen : s.state = .waitQuote ∨ c ≠ backslash ∨ s.prev = backslash := by
          by_cases hc : c = backslash
          · exact .inr (.inr (not_not.mp fun hp => hhidden ⟨hc, hp⟩))
          · exact .inr (.inl hc)
        have hnext := ih name (by omega) { s with prev := c } hstate hstart
          (fun y hy => hname y (List.mem_cons_of_mem _ hy)) hcnt (h.congr rfl rfl rfl)
        obtain ⟨s', hloop, hrest⟩ := hnext
        refine ⟨s', ?_, hrest⟩
        rw [List.cons_append, loop_char hcnt _ hseen, hother s c _ hstate (hname c List.mem_cons_self)]
        exact hloop

theorem scanChar_put (hstate : s.state = .waitDollar)
    (h : s.prev = backslash ∨ (c ≠ quote ∧ c ≠ dollar)) (input : List UInt8) :
    scanChar getenv s c input = s.put c := by
  rw [scanChar, hstate]
  dsimp only
  rw [if_neg, if_neg]
  · rintro ⟨hc, hprev⟩
    exact h.elim hprev fun hne => hne.2 hc
  · rintro ⟨hc, hprev⟩
    exact h.elim hprev fun hne => hne.1 hc

variable (getenv) in
/-- A `$` that turned out to start no name is copied, and the character behind it too. -/
theorem wrote_dollar (h : Wrote base txt s) (hlen : txt.length + 1 < cbsize)
    (hstate : s.state = .waitOpen) (hopen : isOpen c = false) (input : List UInt8) :
    (scanChar getenv s c input).state = .waitDollar ∧
      Wrote base (txt ++ [dollar, c]) (scanChar getenv s c input) := by
  have hput : Wrote base (txt ++ [dollar]) ({ s with state := .waitDollar }.put dollar) :=
    @Wrote.put { s with state := .waitDollar } base txt (h.congr rfl rfl rfl)
      (h.cnt_ne_zero (by omega)) dollar
  have hcnt := hput.cnt_ne_zero (by rw [List.length_append, List.length_singleton]; exact hlen)
  have hput' := hput.put hcnt c
  rw [List.append_assoc] at hput'
  rw [scanChar, hstate]
  dsimp only
  rw [if_neg (by rw [hopen]; exact Bool.false_ne_true), if_pos hcnt]
  exact ⟨rfl, hput'⟩

variable (getenv) in
/-- A quote opens quoted text, which is copied up to the closing quote or the end of the line. -/
theorem loop_quote (hstate : s.state = .waitDollar) (hprev : s.prev ≠ backslash)
    (hlast : quote ∈ line → (unquoted line).1.getLast? ≠ some backslash) (h : Wrote base txt s)
    (hlen : txt.length + (unquoted line).1.length < cbsize) :
    ∃ s', loop getenv s (quote :: line) = loop getenv s' (unquoted line).2 ∧
      Wrote base (txt ++ (unquoted line).1) s' ∧
      ((unquoted line).2 = [] ∨ (s'.state = .waitDollar ∧ s'.prev = quote)) := by
  obtain ⟨hnot, hline⟩ := unquoted_eq line
  have hopen : loop getenv s (quote :: line) =
      loop getenv { s with state := .waitQuote, prev := quote } line := by
    rw [loop_char (h.cnt_ne_zero (by omega)) _ (.inr (.inl quote_ne_backslash)), scanChar, hstate]
    dsimp only
    rw [if_pos ⟨rfl, hprev⟩]
  have hquoted := fun rest => loop_quoted getenv rest (unquoted line).1
    { s with state := .waitQuote, prev := quote } txt rfl (h.congr rfl rfl rfl) hnot hlen
  rcases hline with ⟨hmem, hline⟩ | ⟨hmem, hline, hnil⟩
  · obtain ⟨s', hloop, hstate', hprev', hwrote⟩ := hquoted (quote :: (unquoted line).2)
    have hback : s'.prev ≠ backslash := by
      rw [hprev']
      cases hget : (unquoted line).1.getLast? with
      | none => exact quote_ne_backslash
      | some last => exact fun heq => hlast hmem (hget.trans (congrArg some heq))
    refine ⟨{ s' with state := .waitDollar, prev := quote }, ?_, hwrote.congr rfl rfl rfl,
      .inr ⟨rfl, rfl⟩⟩
    rw [← hline] at hloop
    rw [hopen, hloop, loop_char, scanChar, hstate']
    · dsimp only
      rw [if_pos ⟨rfl, hback⟩]
    · exact hwrote.cnt_ne_zero (by rw [List.length_append]; exact hlen)
    · exact .inl hstate'
  · obtain ⟨s', hloop, -, -, hwrote⟩ := hquoted []
    rw [List.append_nil, ← hline] at hloop
    exact ⟨s', by rw [hopen, hloop, hnil], hwrote, .inl hnil⟩

variable (getenv) in
/-- A `$`, a bracket and a name are replaced by the value, as far as it fits. -/
theorem loop_var (hstate : s.state = .waitDollar) (hprev : s.prev ≠ backslash)
    (hvar : bracketed line = some (name, rest)) (hname : ∀ x ∈ name, isClose x = false)
    (h : Wrote base txt s) (hlen : txt.length < cbsize) :
    ∃ s', loop getenv s (dollar :: line) = loop getenv s' rest ∧ s'.state = .waitDollar ∧
      s'.prev ≠ backslash ∧
      Wrote base (txt ++ (cstr ((getenv name).getD [])).take s.outputcnt) s' := by
  obtain ⟨a, b, rfl, ha, hb⟩ := bracketed_eq hvar
  have hcnt := h.cnt_ne_zero hlen
  have hopen : loop getenv s (dollar :: a :: (name ++ b :: rest)) =
      loop getenv { s with state := .waitClose, varnameStart := name ++ b :: rest, prev := a }
        (name ++ b :: rest) := by
    rw [loop_char hcnt _ (.inr (.inl dollar_ne_backslash)), scanChar, hstate]
    dsimp only
    rw [if_neg fun hboth => dollar_ne_quote hboth.1, if_pos ⟨rfl, hprev⟩, loop_char]
    · rw [scanChar]
      dsimp only
      rw [if_pos ha]
    · exact hcnt
    · refine .inr (.inl ?_)
      rintro rfl
      exact absurd ha (by decide)
  obtain ⟨s', hloop, hstate', hprev', hwrote⟩ := loop_name getenv name hb
    name.length name (Nat.le_refl _)
    { s with state := .waitClose, varnameStart := name ++ b :: rest, prev := a } rfl rfl hname hcnt
    (h.congr rfl rfl rfl)
  refine ⟨s', hopen.trans hloop, hstate', ?_, hwrote⟩
  rw [hprev']
  rintro rfl
  exact absurd hb (by decide)

variable (getenv rest) in
/-- A `$` behind which no name starts is copied with the character behind it, which a backslash
    may hide. -/
theorem loop_dollar (hstate : s.state = .waitDollar) (hprev : s.prev ≠ backslash)
    (h : Wrote base txt s) (hlen : txt.length + 1 < cbsize) (hopen : isOpen c = false)
    (hline : (line = c :: rest ∧ c ≠ backslash) ∨ line = backslash :: c :: rest) :
    ∃ s', loop getenv s (dollar :: line) = loop getenv s' rest ∧ s'.state = .waitDollar ∧
      s'.prev = c ∧ Wrote base (txt ++ [dollar, c]) s' := by
  have hcnt := h.cnt_ne_zero (by omega)
  have hdollar : loop getenv s (dollar :: line) =
      loop getenv { s with state := .waitOpen, prev := dollar } line := by
    rw [loop_char hcnt _ (.inr (.inl dollar_ne_backslash)), scanChar, hstate]
    dsimp only
    rw [if_neg fun hboth => dollar_ne_quote hboth.1, if_pos ⟨rfl, hprev⟩]
  have hround : ∀ prev, ∃ s', s' = { scanChar getenv
        { s with state := .waitOpen, prev := prev } c rest with prev := c } ∧
      s'.state = .waitDollar ∧ s'.prev = c ∧ Wrote base (txt ++ [dollar, c]) s' := by
    intro prev
    obtain ⟨hstate', hwrote⟩ := wrote_dollar getenv
      (s := { s with state := .waitOpen, prev := prev }) (h.congr rfl rfl rfl) hlen rfl hopen rest
    exact ⟨_, rfl, hstate', rfl, hwrote.congr rfl rfl rfl⟩
  rcases hline with ⟨rfl, hslash⟩ | rfl
  · obtain ⟨s', heq, hs'⟩ := hround dollar
    refine ⟨s', ?_, hs'⟩
    rw [hdollar, loop_char, heq]
    · exact hcnt
    · exact .inr (.inl hslash)
  · obtain ⟨s', heq, hs'⟩ := hround backslash
    refine ⟨s', ?_, hs'⟩
    rw [hdollar, loop_hidden, heq]
    · exact hcnt
    · exact State.noConfusion
    · exact dollar_ne_backslash

variable (getenv) in
/-- A dollar that opens no reference: copied alone when escaped, else with the character it
    is tested with. -/
theorem round_dollar (hstate : s.state = .waitDollar) (h : Wrote base txt s)
    (hvar : bracketed line = none) (hclean : Clean (s.prev = backslash) (dollar :: line))
    (hlen : txt.length + (expand getenv (dollar :: line)).length < cbsize) :
    ∃ more rest s', rest.length ≤ line.length ∧
      expand getenv (dollar :: line) = more ++ expand getenv rest ∧
      loop getenv s (dollar :: line) = loop getenv s' rest ∧ s'.state = .waitDollar ∧
      Wrote base (txt ++ more) s' ∧ Clean (s'.prev = backslash) rest := by
  rw [expand_dollar hvar, List.length_cons] at hlen
  rcases clean_dollar hvar hclean with
    ⟨hesc, hclean'⟩ | ⟨d, rest, rfl, hesc, hdquote, hopen, hcase⟩
  · -- an escaped one
    have hcnt := h.cnt_ne_zero (by omega)
    refine ⟨[dollar], line, { s.put dollar with prev := dollar }, Nat.le_refl _,
      expand_dollar hvar, ?_, ?_,
      (h.put hcnt dollar).congr rfl rfl rfl, ?_⟩
    · rw [loop_char hcnt _ (.inr (.inl dollar_ne_backslash)),
        scanChar_put hstate (.inl (of_decide_eq_true hesc))]
    · exact hstate
    · rw [decide_eq_false dollar_ne_backslash]
      exact hclean'
  have hprev := of_decide_eq_false hesc
  rcases hcase with
    ⟨rfl, x, rest', rfl, hx, hclean'⟩ | ⟨rfl, hnone, hclean'⟩ | ⟨hdslash, hddollar, hclean'⟩
  · rw [expand_backslash, List.length_cons] at hlen
    obtain ⟨s', hloop, hstate', hback, hwrote⟩ := loop_dollar getenv rest'
      hstate hprev h (by omega) hx (.inr rfl)
    refine ⟨[dollar, x], rest', s', by simp only [List.length_cons]; omega, ?_, hloop, hstate',
      hwrote, ?_⟩
    · rw [expand_dollar hvar, expand_backslash]
      rfl
    · rw [hback]
      exact hclean'
  · rw [expand_dollar hnone, List.length_cons] at hlen
    obtain ⟨s', hloop, hstate', hback, hwrote⟩ := loop_dollar getenv rest
      hstate hprev h (by omega) hopen (.inl ⟨rfl, dollar_ne_backslash⟩)
    refine ⟨[dollar, dollar], rest, s', Nat.le_succ _, ?_, hloop, hstate', hwrote, ?_⟩
    · rw [expand_dollar hvar, expand_dollar hnone]
      rfl
    · rw [hback, decide_eq_false dollar_ne_backslash]
      exact hclean'
  · rw [expand_char hdslash hdquote hddollar, List.length_cons] at hlen
    obtain ⟨s', hloop, hstate', hback, hwrote⟩ := loop_dollar getenv rest
      hstate hprev h (by omega) hopen (.inl ⟨rfl, hdslash⟩)
    refine ⟨[dollar, d], rest, s', Nat.le_succ _, ?_, hloop, hstate', hwrote, ?_⟩
    · rw [expand_dollar hvar, expand_char hdslash hdquote hddollar]
      rfl
    · rw [hback, decide_eq_false hdslash]
      exact hclean'

/-- **The scan of a clean line.**  By induction on the line, which is at most `n` long; between
    two rounds the look-back is a backslash exactly behind an escaped one. -/
theorem loop_clean (getenv : List UInt8 → Option (List UInt8)) :
    ∀ (n : Nat) (line : List UInt8), line.length ≤ n → ∀ (s : Scan) (txt : List UInt8),
      s.state = .waitDollar → Wrote base txt s → Clean (s.prev = backslash) line →
        txt.length + (expand getenv line).length < cbsize →
          Wrote base (txt ++ expand getenv line) (loop getenv s line) := by
  intro n
  induction n with
  | zero =>
    intro line hline s txt _ h _ _
    obtain rfl := List.eq_nil_of_length_eq_zero (Nat.le_zero.mp hline)
    rw [expand_nil, List.append_nil, loop]
    exact h
  | succ n ih =>
    intro line hline s txt hstate h hclean hlen
    -- what the rest of the line adds once `more` has been written for its head
    have hrest : ∀ {more : List UInt8} {rest : List UInt8} {s' : Scan}, rest.length ≤ n →
        s'.state = .waitDollar → Wrote base (txt ++ more) s' →
        Clean (s'.prev = backslash) rest →
        txt.length + (more ++ expand getenv rest).length < cbsize →
          Wrote base (txt ++ (more ++ expand getenv rest)) (loop getenv s' rest) := by
      intro more rest s' hshort hstate' hwrote hclean' hfits
      rw [List.length_append] at hfits
      rw [← List.append_assoc]
      exact ih rest hshort s' _ hstate' hwrote hclean' (by rw [List.length_append]; omega)
    cases line with
    | nil =>
      rw [expand_nil, List.append_nil, loop]
      exact h
    | cons c line =>
    rw [List.length_cons] at hline
    by_cases hslash : c = backslash
    · -- a hidden character
      subst hslash
      obtain ⟨hesc, x, rest, rfl, hclean'⟩ := clean_backslash hclean
      have hcnt := h.cnt_ne_zero (by omega)
      rw [List.length_cons] at hline
      rw [expand_backslash] at hlen ⊢
      rw [loop_hidden hcnt (by rw [hstate]; exact State.noConfusion) (of_decide_eq_false hesc),
        scanChar_put (s := { s with prev := backslash }) hstate (.inl rfl)]
      have hput := @Wrote.put { s with prev := backslash } base txt (h.congr rfl rfl rfl) hcnt x
      exact @hrest [x] rest _ (by omega) hstate (hput.congr rfl rfl rfl) hclean' hlen
    by_cases hquote : c = quote
    · subst hquote
      obtain ⟨hesc, hlast, hclean'⟩ := clean_quote hclean
      have hshort := unquoted_length line
      rw [expand_quote] at hlen ⊢
      obtain ⟨s', hloop, hwrote, hend⟩ := loop_quote getenv hstate
        (of_decide_eq_false hesc) hlast h (by rw [List.length_append] at hlen; omega)
      rw [hloop]
      rcases hend with hnil | ⟨hstate', hprev⟩
      · rw [hnil, expand_nil, List.append_nil, loop]
        exact hwrote
      · refine hrest (by omega) hstate' hwrote ?_ hlen
        rw [hprev]
        exact hclean'
    by_cases hdollar : c = dollar
    · subst hdollar
      cases hvar : bracketed line with
      | some nameRest =>
        obtain ⟨name, rest⟩ := nameRest
        obtain ⟨hesc, hname, hclean'⟩ := clean_var hvar hclean
        have hshort := bracketed_length hvar
        rw [expand_var hvar] at hlen ⊢
        obtain ⟨s', hloop, hstate', hprev, hwrote⟩ := loop_var getenv hstate
          (of_decide_eq_false hesc) hvar hname h (by omega)
        -- the whole value fits
        have hcnt := h.outputcnt
        rw [List.take_of_length_le (by rw [List.length_append] at hlen; omega)] at hwrote
        rw [hloop]
        refine hrest (by omega) hstate' hwrote ?_ hlen
        rw [decide_eq_false hprev]
        exact hclean'
      | none =>
        obtain ⟨more, rest, s', hshort, hexpand, hloop, hstate', hwrote, hclean'⟩ :=
          round_dollar getenv hstate h hvar hclean hlen
        rw [hexpand] at hlen ⊢
        rw [hloop]
        exact hrest (by omega) hstate' hwrote hclean' hlen
    · -- a character that means nothing
      have hcnt := h.cnt_ne_zero (by omega)
      have hclean' := clean_char hslash hquote hdollar hclean
      rw [expand_char hslash hquote hdollar] at hlen ⊢
      rw [loop_char hcnt _ (.inr (.inl hslash)), scanChar_put hstate (.inr ⟨hquote, hdollar⟩)]
      refine @hrest [c] line _ (by omega) hstate ((h.put hcnt c).congr rfl rfl rfl) ?_ hlen
      rw [decide_eq_false hslash]
      exact hclean'

end Scan

-- ============================================================================
-- The call
-- ============================================================================

/-- The buffer at `output` holds the line `txt` and its NUL, which fit. -/
def Line (r : Ram) (output : Nat) (txt : List UInt8) : Prop :=
  txt.length < cbsize ∧ r.cells.read output (txt.length + 1) = txt ++ [0]

/-- The call against the reference: it stores inside the buffer, leaves a line there, and the
    line is the expansion of `input` when that fits. -/
structure Expanded (getenv : List UInt8 → Option (List UInt8)) (input : List UInt8) (output : Nat)
    (r : Ram) : Prop where
  inside : r.WritesIn ⟨output, cbsize⟩
  nul : ∃ txt, Line r output txt
  expansion : (expand getenv input).length < cbsize → Line r output (expand getenv input)

section Call

variable {getenv : List UInt8 → Option (List UInt8)} {base : Nat} {txt : List UInt8} {s : Scan}

/-- The NUL behind the text when there is room for it. -/
theorem Wrote.line (h : Wrote base txt s) (hlen : txt.length < cbsize) :
    Line (s.ram.store s.output [0]) base txt := by
  refine ⟨hlen, ?_⟩
  rw [Ram.store_cells, h.output]
  exact Mem.read_write_append _ h.text

/-- The NUL over the last character when there is not. -/
theorem Wrote.cut_line (h : Wrote base txt s) (hfull : s.outputcnt = 0) :
    ∃ cut, Line (s.ram.store (s.output - 1) [0]) base cut := by
  have hcnt := h.outputcnt
  have hout := h.output
  have hpos : 0 < cbsize := by decide
  obtain ⟨n, hn⟩ := Nat.exists_eq_succ_of_ne_zero (n := txt.length) (by omega)
  have htext : s.ram.cells.read base n = txt.take n := by
    have hread := congrArg (List.take n) h.text
    rw [hn, Nat.succ_eq_add_one, Mem.read_add,
      List.take_append_of_le_length (by rw [Mem.read_length]),
      List.take_of_length_le (by rw [Mem.read_length])] at hread
    exact hread
  have hlen : (txt.take n).length = n := by
    rw [List.length_take]
    omega
  refine ⟨txt.take n, by omega, ?_⟩
  rw [Ram.store_cells, hlen, hout, show base + txt.length - 1 = base + n by omega]
  exact Mem.read_write_append _ htext

theorem wrote_start (base : Nat) (m : Mem UInt8) :
    Wrote base [] ⟨0, .waitDollar, [], base, cbsize, ⟨m, []⟩⟩ :=
  ⟨rfl, rfl, rfl, fun _ hw => absurd hw List.not_mem_nil⟩

/-- Whatever the line and the environment are, the call leaves a line. -/
theorem processMacros_line (getenv : List UInt8 → Option (List UInt8)) (input : List UInt8)
    (output : Nat) (m : Mem UInt8) : ∃ txt, Line (processMacros getenv input output m) output txt := by
  obtain ⟨txt, hwrote⟩ := wrote_loop getenv input _ _ (wrote_start output m)
  rw [List.nil_append] at hwrote
  have hcnt := hwrote.outputcnt
  rw [processMacros]
  split
  · exact ⟨txt, hwrote.line (by omega)⟩
  · rename_i hfull
    exact hwrote.cut_line (not_not.mp hfull)

/-- Text without macros, quotes and escapes is copied. -/
theorem wrote_plain (getenv : List UInt8 → Option (List UInt8)) {input : List UInt8}
    (hplain : ∀ c ∈ input, c ≠ backslash ∧ c ≠ quote ∧ c ≠ dollar) (hstate : s.state = .waitDollar)
    (h : Wrote base txt s) (hlen : txt.length + input.length < cbsize) :
    Wrote base (txt ++ input) (loop getenv s input) := by
  induction input generalizing s txt with
  | nil =>
    rw [List.append_nil]
    exact h
  | cons c input ih =>
    obtain ⟨⟨hslash, hquote, hdollar⟩, hplain⟩ := List.forall_mem_cons.mp hplain
    rw [List.length_cons] at hlen
    have hcnt : s.outputcnt ≠ 0 := h.cnt_ne_zero (by omega)
    rw [loop_char hcnt input (.inr (.inl hslash)), scanChar_put hstate (.inr ⟨hquote, hdollar⟩),
      List.append_cons]
    exact ih hplain hstate ((h.put hcnt c).congr rfl rfl rfl)
      (by rw [List.length_append, List.length_singleton]; omega)

theorem processMacros_plain (getenv : List UInt8 → Option (List UInt8)) {input : List UInt8}
    (output : Nat) (m : Mem UInt8)
    (hplain : ∀ c ∈ input, c ≠ backslash ∧ c ≠ quote ∧ c ≠ dollar) (hlen : input.length < cbsize) :
    Line (processMacros getenv input output m) output input := by
  have hwrote := wrote_plain getenv hplain rfl (wrote_start output m)
    (by rw [List.length_nil, Nat.zero_add]; exact hlen)
  rw [List.nil_append] at hwrote
  rw [processMacros, if_pos (hwrote.cnt_ne_zero hlen)]
  exact hwrote.line hlen

/-- **Macro expansion.**  Whatever the line and the environment are, the call stores inside the
    buffer and leaves a line there; for a clean line that is the reference expansion. -/
theorem processMacros_expanded (getenv : List UInt8 → Option (List UInt8)) (input : List UInt8)
    (output : Nat) (m : Mem UInt8) :
    (processMacros getenv input output m).WritesIn ⟨output, cbsize⟩ ∧
      (∃ txt, Line (processMacros getenv input output m) output txt) ∧
      (Clean false input → Expanded getenv input output (processMacros getenv input output m)) := by
  have hstart := wrote_start output m
  obtain ⟨txt, hwrote⟩ := wrote_loop getenv input _ _ hstart
  rw [List.nil_append] at hwrote
  have hcnt := hwrote.outputcnt
  have hout := hwrote.output
  have hpos : 0 < cbsize := by decide
  have hinside : (processMacros getenv input output m).WritesIn ⟨output, cbsize⟩ := by
    rw [processMacros]
    split
    · refine hwrote.inside.store fun _ => ?_
      simp only [Extent.stop, List.length_singleton]
      omega
    · refine hwrote.inside.store fun _ => ?_
      simp only [Extent.stop, List.length_singleton]
      omega
  have hnul := processMacros_line getenv input output m
  refine ⟨hinside, hnul, fun hclean => ⟨hinside, hnul, fun hfits => ?_⟩⟩
  have hall := loop_clean getenv input.length input (Nat.le_refl _) _ [] rfl hstart hclean
    (by rw [List.length_nil, Nat.zero_add]; exact hfits)
  rw [List.nil_append] at hall
  rw [processMacros]
  rw [if_pos (hall.cnt_ne_zero hfits)]
  exact hall.line hfits

end Call

/-- An environment with one variable, `x`. -/
def oneVariable : List UInt8 → Option (List UInt8) := fun name =>
  if name = ascii "x" then some (ascii "hi") else none

/-- A line with an escaped `$`, a variable and a quoted one. -/
theorem processMacros_expanded_line :
    Expanded oneVariable (ascii "\\$${x}'$(x)'") 16
      (processMacros oneVariable (ascii "\\$${x}'$(x)'") 16 fun _ => 0) := by
  refine (processMacros_expanded oneVariable (ascii "\\$${x}'$(x)'") 16 fun _ => 0).2.2 ?_
  have hline : ascii "\\$${x}'$(x)'" =
      backslash :: dollar :: dollar :: 123 :: 120 :: 125 :: quote :: ascii "$(x)'" := by decide
  have hvar : bracketed (123 :: 120 :: 125 :: quote :: ascii "$(x)'") =
      some ([120], quote :: ascii "$(x)'") := by decide
  have hquoted : Clean false (quote :: ascii "$(x)'") := by
    rw [Clean.eq_def]
    refine ⟨rfl, fun _ => by decide, ?_⟩
    rw [show (unquoted (ascii "$(x)'")).2 = [] by decide, Clean.eq_def]
    trivial
  have hreplaced : Clean false (dollar :: 123 :: 120 :: 125 :: quote :: ascii "$(x)'") := by
    rw [Clean.eq_def]
    dsimp only
    rw [if_neg dollar_ne_backslash, if_neg dollar_ne_quote, if_pos rfl]
    split
    · rename_i hsome
      obtain ⟨rfl, rfl⟩ := Prod.mk.inj (Option.some.inj (hvar.symm.trans hsome))
      have hname : isClose 120 = false := by decide
      exact ⟨rfl, fun x hx => List.mem_singleton.mp hx ▸ hname, hquoted⟩
    · rename_i hnone
      exact absurd (hvar.symm.trans hnone) (Option.some_ne_none _)
  rw [hline, Clean.eq_def]
  exact ⟨rfl, hreplaced⟩

/-- Behind an escaped backslash the variable is not replaced. -/
theorem escaped_backslash_escapes :
    ¬ ∀ (getenv : List UInt8 → Option (List UInt8)) (input : List UInt8) (output : Nat)
      (m : Mem UInt8), 0 ∉ input → input.length < cbsize →
        Expanded getenv input output (processMacros getenv input output m) := by
  intro hall
  have hexp := (hall oneVariable (ascii "\\\\$(x)") 0 (fun _ => 0) (by decide) (by decide)).expansion
  have hline : expand oneVariable (ascii "\\\\$(x)") = ascii "\\hi" := by
    have hvar : bracketed (ascii "(x)") = some (ascii "x", []) := by decide
    have hvalue : cstr ((oneVariable (ascii "x")).getD []) = ascii "hi" := by decide
    calc expand oneVariable (backslash :: backslash :: dollar :: ascii "(x)")
        = backslash :: (ascii "hi" ++ []) := by
          rw [expand_backslash, expand_var hvar, hvalue, expand_nil]
      _ = ascii "\\hi" := by decide
  rw [hline] at hexp
  exact absurd (hexp (by decide)).2 (by decide +kernel)

end Uboot.Common.ProcessMacros
