/-
  Uboot.Common.Iomux

  Console multiplexing: `iomux_doenv` of common/iomux.c, with `search_device` and `console_assign` of
  common/console.c.

  A device is known by its place in the list of the registered ones.  Its `start` has one result.
  Whether an allocation succeeds is left open.
-/

import Mathlib.Logic.Function.Basic
import Uboot.Lib.FirstMentions

namespace Uboot.Common.Iomux

open Uboot.Lib

-- ============================================================================
-- Devices
-- ============================================================================

def stdin : Int := 0
def stdout : Int := 1
def stderr : Int := 2

def DEV_FLAGS_INPUT : UInt32 := 1
def DEV_FLAGS_OUTPUT : UInt32 := 2

/-- `struct stdio_dev`; `start` is what its function returns, if it has one. -/
structure StdioDev where
  name : List UInt8
  flags : UInt32
  start : Option Int

/-- What is registered: the stdio devices and, with CONFIG_SERIAL_MULTI, the serial ones. -/
structure Registry where
  devs : List StdioDev
  serialMulti : Bool
  serialDevices : List (List UInt8)

/-- `stdio_devices`, `console_devices` and `cd_count`, by file. -/
structure Consoles where
  stdioDevices : Int → Option Nat
  consoleDevices : Int → Option (List Nat)
  cdCount : Int → Nat

variable (reg : Registry)

/-- `stdio_get_by_name` -/
def stdioGetByName (name : List UInt8) : Option Nat := reg.devs.findIdx? fun dev => dev.name = name

/-- `search_device` -/
def searchDevice (flags : UInt32) (name : List UInt8) : Option Nat :=
  (stdioGetByName reg name).filter fun d => reg.devs[d]?.any fun dev => dev.flags &&& flags ≠ 0

/-- The switch on the file, in `iomux_doenv` and in `console_assign`. -/
def ioFlag (file : Int) : Option UInt32 :=
  if file = stdin then some DEV_FLAGS_INPUT
  else if file = stdout ∨ file = stderr then some DEV_FLAGS_OUTPUT
  else none

/-- `console_setfile`, for a valid file. -/
def consoleSetfile (c : Consoles) (file : Int) (d : Nat) : Int × Consoles :=
  let error := (reg.devs[d]?.bind StdioDev.start).getD 0
  -- if it's not started dont use it
  if error < 0 then (error, c) else (error, { c with stdioDevices := Function.update c.stdioDevices file (some d) })

/-- `console_assign` -/
def consoleAssign (c : Consoles) (file : Int) (devname : List UInt8) : Int × Consoles :=
  match ioFlag file with
  | none => (-1, c)
  | some flag =>
    match searchDevice reg flag devname with
    | some d => consoleSetfile reg c file d
    | none => (-1, c)

local instance lawfulBEq_name : LawfulBEq (List UInt8) := inferInstance

/-- `serial_assign` -/
def serialAssign (name : List UInt8) : Int := if name ∈ reg.serialDevices then 0 else 1

-- ============================================================================
-- iomux_doenv
-- ============================================================================

/-- `,` -/
def comma : UInt8 := 44

/-- The first loop: one more than there are commas. -/
def countDevices (s : List UInt8) : Nat :=
  match h : s.idxOf? comma with
  | some k => countDevices (s.drop (k + 1)) + 1
  | none => 1
termination_by s.length
decreasing_by
  have hne : s ≠ [] := by
    rintro rfl
    cases h
  have hpos := List.length_pos_of_ne_nil hne
  rw [List.length_drop]
  omega

/-- The second loop: the strings that `start` points to. -/
def startOf (s : List UInt8) : List (List UInt8) :=
  match h : s.idxOf? comma with
  | some k => s.take k :: startOf (s.drop (k + 1))
  | none => [s]
termination_by s.length
decreasing_by
  have hne : s ≠ [] := by
    rintro rfl
    cases h
  have hpos := List.length_pos_of_ne_nil hne
  rw [List.length_drop]
  omega

/-- The loop over the names: `cons_set`, and the consoles. -/
def selectLoop (console : Int) (flag : UInt32) : List (List UInt8) → List Nat → Consoles → List Nat × Consoles
  | [], consSet, c => (consSet, c)
  | name :: names, consSet, c =>
    match searchDevice reg flag name with
    | none => selectLoop console flag names consSet c
    | some dev =>
      -- prevent multiple entries for a device
      if dev ∈ consSet then selectLoop console flag names consSet c
      else
        let (ret, c) := consoleAssign reg c console name
        if ret < 0 then selectLoop console flag names consSet c
        else if reg.serialMulti ∧ serialAssign reg name < 0 then selectLoop console flag names consSet c
        else selectLoop console flag names (consSet ++ [dev]) c

/-- The allocations that succeed. -/
structure Alloc where
  strdup : Bool
  malloc : Bool
  calloc : Bool
  realloc : Bool

/-- `iomux_doenv` -/
def iomuxDoenv (a : Alloc) (c : Consoles) (console : Int) (arg : List UInt8) : Int × Consoles :=
  if !a.strdup || !a.malloc || !a.calloc then (1, c)
  else
    match ioFlag console with
    | none => (1, c)
    | some flag =>
      let (consSet, c) := selectLoop reg console flag (startOf arg) [] c
      -- failed to set any console
      if consSet.length = 0 then (1, c)
      else if !a.realloc then (1, { c with consoleDevices := Function.update c.consoleDevices console none })
      else
        (0, { c with
          consoleDevices := Function.update c.consoleDevices console (some consSet)
          cdCount := Function.update c.cdCount console consSet.length })

-- ============================================================================
-- What the call owes its caller
-- ============================================================================

/-- What the start of a device returns; 0 if it has none. -/
def startError (d : Nat) : Int := (reg.devs[d]?.bind StdioDev.start).getD 0

/-- The device of this name, if there is one for the direction that can be assigned. -/
def namedDevice (flag : UInt32) (name : List UInt8) : Option Nat :=
  (searchDevice reg flag name).filter fun d => 0 ≤ startError reg d

/-- The devices that the argument mentions. -/
def mentions (console : Int) (arg : List UInt8) : List Nat :=
  match ioFlag console with
  | none => []
  | some flag => (arg.splitOn comma).filterMap (namedDevice reg flag)

/-- On success the list of the console is what is mentioned, each device once and in the order of
    the first mention; on failure the list and the count are as before. -/
structure Right (c : Consoles) (console : Int) (arg : List UInt8) (out : Int × Consoles) : Prop where
  done : out.1 = 0 → ∃ l, FirstMentions (mentions reg console arg) l ∧
    out.2.consoleDevices console = some l ∧ out.2.cdCount console = l.length
  failed : out.1 ≠ 0 → out.2.consoleDevices console = c.consoleDevices console ∧
    out.2.cdCount console = c.cdCount console

/-- The list that there is would be lost: the new one is not empty, and `realloc` fails for it. -/
def LosesList (a : Alloc) (c : Consoles) (console : Int) (arg : List UInt8) : Prop :=
  (a.strdup = true ∧ a.malloc = true ∧ a.calloc = true) ∧ a.realloc = false ∧
    mentions reg console arg ≠ [] ∧ c.consoleDevices console ≠ none

-- ============================================================================
-- The names
-- ============================================================================

/-- The argument around its first comma. -/
theorem eq_of_idxOf_comma {s : List UInt8} {k : Nat} (h : s.idxOf? comma = some k) :
    comma ∉ s.take k ∧ s = s.take k ++ comma :: s.drop (k + 1) := by
  obtain ⟨hk, hat, hbefore⟩ := List.idxOf?_eq_some_iff.1 h
  constructor
  · intro hmem
    obtain ⟨j, hj, hcomma⟩ := List.getElem_of_mem hmem
    rw [List.getElem_take] at hcomma
    rw [List.length_take] at hj
    exact hbefore j (by omega) hcomma
  · rw [← hat, List.getElem_cons_drop, List.take_append_drop]

theorem startOf_eq (s : List UInt8) : startOf s = s.splitOn comma := by
  fun_induction startOf s with
  | case1 s k h ih =>
    obtain ⟨hno, hs⟩ := eq_of_idxOf_comma h
    conv_rhs => rw [hs, List.splitOn_append_cons_self_of_not_mem hno]
    rw [ih]
  | case2 s h => rw [List.splitOn_eq_singleton (by simpa [List.idxOf?_eq_none_iff] using h)]

/-- The array `start` has an entry for each name. -/
theorem length_startOf (s : List UInt8) : (startOf s).length = countDevices s := by
  fun_induction startOf s with
  | case1 s k h ih =>
    rw [countDevices]
    split
    · next k' h' =>
      obtain rfl := Option.some.inj (h.symm.trans h')
      rw [List.length_cons, ih]
    · next h' => cases h.symm.trans h'
  | case2 s h =>
    rw [countDevices]
    split
    · next k' h' => cases h.symm.trans h'
    · rfl

-- ============================================================================
-- The loop over the names
-- ============================================================================

theorem serialAssign_nonneg (name : List UInt8) : ¬ serialAssign reg name < 0 := by
  rw [serialAssign]
  split <;> decide

variable {reg}

/-- A device that is found is assigned if its start does not fail. -/
theorem consoleAssign_eq {c : Consoles} {console : Int} {flag : UInt32} {name : List UInt8} {d : Nat}
    (hflag : ioFlag console = some flag) (hd : searchDevice reg flag name = some d) :
    consoleAssign reg c console name = consoleSetfile reg c console d := by
  rw [consoleAssign, hflag]
  dsimp only
  rw [hd]

theorem consoleSetfile_fst (c : Consoles) (console : Int) (d : Nat) :
    (consoleSetfile reg c console d).1 = startError reg d := by
  rw [consoleSetfile, startError]
  split <;> rfl

/-- Only `stdio_devices` changes. -/
theorem consoleSetfile_snd (c : Consoles) (console : Int) (d : Nat) :
    (consoleSetfile reg c console d).2.consoleDevices = c.consoleDevices ∧
      (consoleSetfile reg c console d).2.cdCount = c.cdCount := by
  rw [consoleSetfile]
  split <;> exact ⟨rfl, rfl⟩

theorem namedDevice_of_nonneg {flag : UInt32} {name : List UInt8} {d : Nat} (hd : searchDevice reg flag name = some d)
    (hok : 0 ≤ startError reg d) : namedDevice reg flag name = some d := by
  rw [namedDevice, hd, Option.filter_some, if_pos (decide_eq_true hok)]

theorem namedDevice_of_neg {flag : UInt32} {name : List UInt8} {d : Nat} (hd : searchDevice reg flag name = some d)
    (herror : startError reg d < 0) : namedDevice reg flag name = none := by
  rw [namedDevice, hd, Option.filter_some, if_neg]
  rw [decide_eq_true_eq]
  exact Int.not_le.2 herror

/-- **The loop** collects what the names mention. -/
theorem selectLoop_spec {console : Int} {flag : UInt32} (hflag : ioFlag console = some flag)
    {names : List (List UInt8)} {ms consSet : List Nat} {c : Consoles} (h : FirstMentions ms consSet)
    (hstart : ∀ d ∈ ms, 0 ≤ startError reg d) :
    FirstMentions (ms ++ names.filterMap (namedDevice reg flag)) (selectLoop reg console flag names consSet c).1 ∧
      (selectLoop reg console flag names consSet c).2.consoleDevices = c.consoleDevices ∧
      (selectLoop reg console flag names consSet c).2.cdCount = c.cdCount := by
  induction names generalizing ms consSet c with
  | nil =>
    rw [List.filterMap_nil, List.append_nil]
    exact ⟨h, rfl, rfl⟩
  | cons name names ih =>
    rw [selectLoop]
    cases hd : searchDevice reg flag name with
    | none =>
      rw [List.filterMap_cons_none (by rw [namedDevice, hd]; rfl)]
      exact ih h hstart
    | some dev =>
      dsimp only
      by_cases hrep : dev ∈ consSet
      · have hm := (h.mem_iff dev).1 hrep
        rw [if_pos hrep, List.filterMap_cons_some (namedDevice_of_nonneg hd (hstart dev hm)), List.append_cons]
        refine ih (h.again hrep) fun d hdm => hstart d ?_
        rcases List.mem_append.1 hdm with hdm | hdm
        · exact hdm
        · exact List.mem_singleton.1 hdm ▸ hm
      · obtain ⟨hdevices, hcount⟩ := @consoleSetfile_snd reg c console dev
        rw [if_neg hrep, consoleAssign_eq hflag hd, consoleSetfile_fst]
        by_cases herror : startError reg dev < 0
        · rw [if_pos herror, List.filterMap_cons_none (namedDevice_of_neg hd herror), ← hdevices, ← hcount]
          exact ih h hstart
        · rw [if_neg herror, if_neg (fun hserial => serialAssign_nonneg reg name hserial.2),
            List.filterMap_cons_some (namedDevice_of_nonneg hd (Int.not_lt.1 herror)), List.append_cons,
            ← hdevices, ← hcount]
          refine ih (h.first hrep) fun d hdm => ?_
          rcases List.mem_append.1 hdm with hdm | hdm
          · exact hstart d hdm
          · exact List.mem_singleton.1 hdm ▸ Int.not_lt.1 herror

-- ============================================================================
-- The call
-- ============================================================================

/-- **`iomux_doenv`** is right just when it does not lose the list that there is. -/
theorem right_iff (reg : Registry) (a : Alloc) (c : Consoles) (console : Int) (arg : List UInt8) :
    Right reg c console arg (iomuxDoenv reg a c console arg) ↔ ¬ LosesList reg a c console arg := by
  have hsame : Right reg c console arg (1, c) := ⟨fun h => absurd h Int.one_ne_zero, fun _ => ⟨rfl, rfl⟩⟩
  rw [iomuxDoenv]
  by_cases halloc : (!a.strdup || !a.malloc || !a.calloc) = true
  · rw [if_pos halloc]
    refine iff_of_true hsame fun hloses => ?_
    obtain ⟨hstrdup, hmalloc, hcalloc⟩ := hloses.1
    rw [hstrdup, hmalloc, hcalloc] at halloc
    exact absurd halloc (by decide)
  rw [if_neg halloc]
  cases hflag : ioFlag console with
  | none =>
    refine iff_of_true hsame fun hloses => hloses.2.2.1 ?_
    rw [mentions, hflag]
  | some flag =>
    obtain ⟨hlist, hdevices, hcount⟩ :=
      @selectLoop_spec reg console flag hflag (startOf arg) [] [] c .nil (fun d hd => absurd hd List.not_mem_nil)
    have hmentions : mentions reg console arg = (startOf arg).filterMap (namedDevice reg flag) := by
      rw [mentions, hflag, startOf_eq]
    rw [List.nil_append, ← hmentions] at hlist
    dsimp only
    generalize selectLoop reg console flag (startOf arg) [] c = out at *
    by_cases hempty : out.1.length = 0
    · rw [if_pos hempty]
      refine iff_of_true ⟨fun h => absurd h Int.one_ne_zero, fun _ => ⟨by rw [hdevices], by rw [hcount]⟩⟩ ?_
      intro hloses
      exact hloses.2.2.1 (hlist.eq_nil_iff.1 (List.eq_nil_of_length_eq_zero hempty))
    rw [if_neg hempty]
    cases hrealloc : a.realloc with
    | true =>
      rw [if_neg (by decide)]
      refine iff_of_true ⟨fun _ => ⟨out.1, hlist, Function.update_self .., Function.update_self ..⟩,
        fun h => absurd rfl h⟩ fun hloses => ?_
      exact absurd (hrealloc.symm.trans hloses.2.1) (by decide)
    | false =>
      -- the pointer is overwritten with NULL
      rw [if_pos (by decide)]
      have hnonempty : mentions reg console arg ≠ [] := fun hnil => hempty (by rw [hlist.eq_nil_iff.2 hnil]; rfl)
      have hok : a.strdup = true ∧ a.malloc = true ∧ a.calloc = true := by simpa [and_assoc] using halloc
      have hnew : Function.update out.2.consoleDevices console none console = none := Function.update_self ..
      constructor
      · intro hright hloses
        have hlost := (hright.failed Int.one_ne_zero).1
        exact hloses.2.2.2 (hlost.symm.trans hnew)
      · intro hkeeps
        have hnull : c.consoleDevices console = none := by
          by_contra hlist
          exact hkeeps ⟨hok, hrealloc, hnonempty, hlist⟩
        exact ⟨fun h => absurd h Int.one_ne_zero, fun _ => ⟨hnew.trans hnull.symm, by rw [hcount]⟩⟩

/-- One serial line, registered for both directions. -/
def serialOnly : Registry where
  devs := [⟨[115], DEV_FLAGS_INPUT ||| DEV_FLAGS_OUTPUT, none⟩]
  serialMulti := false
  serialDevices := []

/-- The console of `stdout` is the serial line, and `realloc` fails when it is set again. -/
theorem not_right :
    ¬ ∀ (reg : Registry) (a : Alloc) (c : Consoles) (console : Int) (arg : List UInt8),
      Right reg c console arg (iomuxDoenv reg a c console arg) := by
  intro hall
  have hkeeps := (right_iff serialOnly ⟨true, true, true, false⟩ ⟨fun _ => some 0, fun _ => some [0], fun _ => 1⟩
    stdout [115]).1 (hall ..)
  refine hkeeps ⟨⟨rfl, rfl, rfl⟩, rfl, ?_, by decide⟩
  rw [mentions]
  decide

end Uboot.Common.Iomux
