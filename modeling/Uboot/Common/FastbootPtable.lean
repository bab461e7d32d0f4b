/-
  Uboot.Common.FastbootPtable

  The partitions that the environment variable `fbparts` adds to the static ones,
  common/cmd_fastboot.c: `memparse`, `add_partition_from_environment` and
  `check_against_static_partition`, which is to keep the new partitions off the
  static ones.

  `unsigned int` and `unsigned long` are 32 bits wide.  Console output is left out.
-/

import Uboot.Lib.Extent
import Uboot.LibGeneric.Vsprintf

namespace Uboot.Common.FastbootPtable

open Uboot.Lib Uboot.LibGeneric

-- ============================================================================
-- State
-- ============================================================================

/-- `MAX_PTN`. -/
def maxPtn : Nat := 16

/-- `fastboot_ptentry`. -/
structure Ptentry where
  name : List UInt8
  start : Nat
  length : Nat
  flags : Nat
  start_lt : start < 4294967296
  length_lt : length < 4294967296
  deriving DecidableEq

theorem zero_lt_word : 0 < 4294967296 := by decide

/-- The bytes of the partition.  They may go on beyond 32 bits. -/
def Ptentry.range (p : Ptentry) : Extent := ⟨p.start, p.length⟩

-- ============================================================================
-- Definitions from the source
-- ============================================================================

/-- The tests of the loop of `check_against_static_partition`, in their order. -/
def conflicts (ptn c : Ptentry) : Bool :=
  if ptn.length = 0 then true
  else if c.start ≤ ptn.start ∧ ptn.start < u32 (c.start + c.length) then true
  else if c.start < u32 (ptn.start + ptn.length) ∧
      u32 (ptn.start + ptn.length) ≤ u32 (c.start + c.length) then true
  else ptn.name = c.name

/-- `check_against_static_partition`, with the static partitions as a list.  The loop
    that runs to the end of them accepts. -/
def checkAgainstStaticPartition (ptn : Ptentry) : List Ptentry → Bool
  | [] => true
  | c :: cs => if conflicts ptn c then false else checkAgainstStaticPartition ptn cs

/-- `memparse`: the number and what follows it. -/
def memparse (s : List UInt8) : Nat × List UInt8 :=
  let ret := simpleStrtoul s 0
  match strtoulEndp s 0 with
  | 77 :: endptr => (u32 (u32 (ret * 1024) * 1024), endptr)
  | 109 :: endptr => (u32 (u32 (ret * 1024) * 1024), endptr)
  | 75 :: endptr => (u32 (ret * 1024), endptr)
  | 107 :: endptr => (u32 (ret * 1024), endptr)
  | endptr => (ret, endptr)

/-- The options behind the name, with the `FASTBOOT_PTENTRY_FLAGS_WRITE_..` each sets. -/
def options : List (List UInt8 × Nat) :=
  [(ascii "i", 0x100), (ascii "yaffs", 0x200), (ascii "swecc", 0x80), (ascii "hwecc", 0x40)]

/-- `while (1)`: the options, with `|` between them. -/
def optionsLoop : Nat → List UInt8 → Nat → Nat × List UInt8
  | 0, s, flags => (flags, s)
  | fuel + 1, s, flags =>
    match options.find? fun o => o.1.isPrefixOf s with
    | none => (flags, s)
    | some (o, flag) =>
      let s := s.drop o.length
      optionsLoop fuel (if s.head? = some 124 then s.tail else s) (flags ||| flag)

theorem memparse_lt (s : List UInt8) : (memparse s).1 < 4294967296 := by
  rw [memparse]
  split
  · exact u32_lt _
  · exact u32_lt _
  · exact u32_lt _
  · exact u32_lt _
  · exact simpleStrtoul_lt s 0

/-- `fastboot_flash_add_ptn`. -/
def flashAddPtn (ptable : List Ptentry) (ptn : Ptentry) : List Ptentry :=
  if ptable.length < maxPtn then ptable ++ [ptn] else ptable

/-- The partition a definition `size@offset(name)options` stands for, and what follows
    it.  `none` is the return of an error. -/
def parsePartition (s : List UInt8) : Option (Ptentry × List UInt8) :=
  let size := memparse s
  if size.1 = 0 then none
  else
    match size.2 with
    | 64 :: s =>
      let offset := memparse s
      match offset.2 with
      | 40 :: s =>
        -- `strchr (name, ')')`
        if 41 ∈ s then
          let name := s.takeWhile (· ≠ 41)
          let opts := optionsLoop s.length (s.drop (name.length + 1)) 0
          if 16 ≤ name.length then none
          else
            some ({ name, start := offset.1, length := size.1, flags := opts.1
                    start_lt := memparse_lt _, length_lt := memparse_lt _ }, opts.2)
        else none
      | _ => none
    | _ => none

/-- `add_partition_from_environment`, on the table as it stands. -/
def addPartitionFromEnvironment (statics ptable : List Ptentry) (s : List UInt8) :
    Option (List Ptentry × List UInt8) :=
  match parsePartition s with
  | none => none
  | some (part, s) =>
    some (if checkAgainstStaticPartition part statics then flashAddPtn ptable part else ptable, s)

/-- The loop of `set_partition_table` over the text of `fbparts`.  An error resets the
    table to the static partitions. -/
def addLoop (statics : List Ptentry) : Nat → List Ptentry → List UInt8 → List Ptentry
  | 0, ptable, _ => ptable
  | fuel + 1, ptable, s =>
    if s = [] then ptable
    else
      match addPartitionFromEnvironment statics ptable s with
      | none => statics
      | some (ptable, s) =>
        addLoop statics fuel ptable (s.dropWhile (· ∈ [32, 9, 10, 13, 44]))

/-- The table `set_partition_table` makes of the static partitions and `fbparts`. -/
def setPartitionTable (statics : List Ptentry) (fbparts : List UInt8) : List Ptentry :=
  if fbparts.length < 4096 then addLoop statics fbparts.length statics fbparts else statics

-- ============================================================================
-- What a test can see
-- ============================================================================

/-- The request meets the static partition in one of the ways the code looks for: it
    is empty, it has the name of the partition, or its first byte or the byte before
    its end, taken in 32 bits, lies in the partition. -/
def Meets (ptn c : Ptentry) : Prop :=
  ptn.length = 0 ∨ ptn.name = c.name ∨
    c.range.stop < 4294967296 ∧
      (ptn.start ∈ c.range.cells ∨
        0 < u32 ptn.range.stop ∧ u32 ptn.range.stop - 1 ∈ c.range.cells)

/-- The static partition is out of sight of the tests: it lies inside the request with
    room on both sides, or goes on beyond 32 bits from a byte before the request's end. -/
def Hidden (ptn c : Ptentry) : Prop :=
  0 < c.length ∧
    (c.range.stop < 4294967296 ∧ ptn.start < c.start ∧ c.range.stop < ptn.range.stop ∨
      4294967296 ≤ c.range.stop ∧ c.start < ptn.range.stop)

instance (ptn c : Ptentry) : Decidable (Meets ptn c) :=
  inferInstanceAs (Decidable (_ ∨ _ ∨ _ ∧ ((_ ∧ _) ∨ _ ∧ (_ ∧ _))))

instance (ptn c : Ptentry) : Decidable (Hidden ptn c) :=
  inferInstanceAs (Decidable (_ ∧ (_ ∧ _ ∧ _ ∨ _ ∧ _)))

theorem conflicts_iff_meets (ptn c : Ptentry) : conflicts ptn c = true ↔ Meets ptn c := by
  have hs := ptn.start_lt
  have hl := ptn.length_lt
  have hcs := c.start_lt
  have hcl := c.length_lt
  have hstart : (c.start ≤ ptn.start ∧ ptn.start < u32 (c.start + c.length)) ↔
      c.range.stop < 4294967296 ∧ ptn.start ∈ c.range.cells := by
    simp only [Extent.mem_cells, Extent.stop, Ptentry.range, u32]
    omega
  have hend : (c.start < u32 (ptn.start + ptn.length) ∧
        u32 (ptn.start + ptn.length) ≤ u32 (c.start + c.length)) ↔
      c.range.stop < 4294967296 ∧
        (0 < u32 ptn.range.stop ∧ u32 ptn.range.stop - 1 ∈ c.range.cells) := by
    simp only [Extent.mem_cells, Extent.stop, Ptentry.range, u32]
    omega
  rw [conflicts, Meets, and_or_left, ← hstart, ← hend]
  simp only [Bool.if_true_left, Bool.or_eq_true, decide_eq_true_eq]
  grind

/-- Two ranges that the tests let pass meet only where the static one is hidden. -/
theorem not_disjoint_iff_hidden {ptn c : Ptentry} (h : ¬ Meets ptn c) :
    ¬ Disjoint ptn.range.cells c.range.cells ↔ Hidden ptn c := by
  have hs := ptn.start_lt
  have hl := ptn.length_lt
  have hcs := c.start_lt
  have hcl := c.length_lt
  simp only [Meets, Extent.mem_cells, Extent.stop, Ptentry.range, u32, not_or, not_and] at h
  obtain ⟨hlen, -, h⟩ := h
  rw [Set.not_disjoint_iff]
  simp only [Hidden, Extent.mem_cells, Extent.stop, Ptentry.range]
  constructor
  · rintro ⟨x, hx, hy⟩
    omega
  · intro hh
    exact ⟨max ptn.start c.start, by omega, by omega⟩

-- ============================================================================
-- Protection of the static partitions
-- ============================================================================

/-- The request is let pass only where it overlaps no static partition. -/
def Protected (ptn : Ptentry) (statics : List Ptentry) : Prop :=
  checkAgainstStaticPartition ptn statics = true →
    ∀ c ∈ statics, Disjoint ptn.range.cells c.range.cells

theorem check_eq_true_iff (ptn : Ptentry) (statics : List Ptentry) :
    checkAgainstStaticPartition ptn statics = true ↔ ∀ c ∈ statics, ¬ Meets ptn c := by
  induction statics with
  | nil => simp [checkAgainstStaticPartition]
  | cons c cs ih =>
    rw [checkAgainstStaticPartition, List.forall_mem_cons, ← ih, ← conflicts_iff_meets]
    cases conflicts ptn c <;> simp

/-- **Static partitions.** The check protects them exactly when the request meets one
    of them in a way it looks for, or none of them is hidden inside the request. -/
theorem protected_iff (ptn : Ptentry) (statics : List Ptentry) :
    Protected ptn statics ↔ (∃ c ∈ statics, Meets ptn c) ∨ ∀ c ∈ statics, ¬ Hidden ptn c := by
  rw [Protected, check_eq_true_iff]
  by_cases hmeets : ∃ c ∈ statics, Meets ptn c
  · have hrefused : ¬ ∀ c ∈ statics, ¬ Meets ptn c := by simpa using hmeets
    exact ⟨fun _ => .inl hmeets, fun _ h => absurd h hrefused⟩
  · have haccepted : ∀ c ∈ statics, ¬ Meets ptn c := by simpa using hmeets
    rw [or_iff_right hmeets]
    constructor
    · intro h c hc hhidden
      exact (not_disjoint_iff_hidden (haccepted c hc)).mpr hhidden (h haccepted c hc)
    · intro h _ c hc
      by_contra hmeet
      exact h c hc ((not_disjoint_iff_hidden (haccepted c hc)).mp hmeet)

/-- A static partition of one megabyte behind the first. -/
def bootloader : Ptentry := ⟨ascii "bootloader", 0x100000, 0x100000, 0, by decide, by decide⟩

/-- A request for four megabytes from the start on. -/
def wholeRange : Ptentry := ⟨ascii "data", 0, 0x400000, 0, zero_lt_word, by decide⟩

/-- The request that holds the whole static partition is let pass. -/
theorem wholeRange_not_protected : ¬ Protected wholeRange [bootloader] := by
  intro h
  have hdisj := h (by decide +kernel) bootloader (by simp)
  rw [Set.disjoint_left] at hdisj
  exact hdisj (a := 0x100000) (by simp [wholeRange, Ptentry.range, Extent.stop])
    (by simp [bootloader, Ptentry.range, Extent.stop])

-- ============================================================================
-- The table that `fbparts` leaves
-- ============================================================================

section Table

variable {statics ptable : List Ptentry} {s : List UInt8}

/-- A partition of the table is static or has passed the check. -/
def Checked (statics ptable : List Ptentry) : Prop :=
  ∀ p ∈ ptable, p ∈ statics ∨ checkAgainstStaticPartition p statics = true

theorem checked_statics : Checked statics statics := fun _ hp => .inl hp

/-- One definition adds what passes the check, or nothing. -/
theorem addPartitionFromEnvironment_checked {r : List Ptentry × List UInt8}
    (h : Checked statics ptable) (hr : addPartitionFromEnvironment statics ptable s = some r) :
    Checked statics r.1 := by
  rw [addPartitionFromEnvironment] at hr
  cases hp : parsePartition s with
  | none => simp [hp] at hr
  | some ps =>
    rw [hp] at hr
    rw [← Option.some.inj hr]
    simp only [flashAddPtn]
    split
    · rename_i hcheck
      split
      · intro q hq
        rcases List.mem_append.mp hq with hq | hq
        · exact h q hq
        · rw [List.mem_singleton.mp hq]
          exact .inr hcheck
      · exact h
    · exact h

theorem addLoop_checked (fuel : Nat) (h : Checked statics ptable) :
    Checked statics (addLoop statics fuel ptable s) := by
  induction fuel generalizing ptable s with
  | zero => exact h
  | succ fuel ih =>
    rw [addLoop]
    split
    · exact h
    · cases hr : addPartitionFromEnvironment statics ptable s with
      | none => exact checked_statics
      | some r => exact ih (addPartitionFromEnvironment_checked h hr)

/-- Whatever `fbparts` says, a partition of the table that overlaps a static one hides
    a static one. -/
theorem setPartitionTable_overlap (fbparts : List UInt8) {p c : Ptentry}
    (hp : p ∈ setPartitionTable statics fbparts) (hnew : p ∉ statics) (hc : c ∈ statics)
    (hmeet : ¬ Disjoint p.range.cells c.range.cells) : Hidden p c := by
  have hchecked : Checked statics (setPartitionTable statics fbparts) := by
    rw [setPartitionTable]
    split
    · exact addLoop_checked _ checked_statics
    · exact checked_statics
  have hpass := (hchecked p hp).resolve_left hnew
  exact (not_disjoint_iff_hidden ((check_eq_true_iff p statics).mp hpass c hc)).mp hmeet

/-- The request as it is written in `fbparts`. -/
example : (setPartitionTable [bootloader] (ascii "4M@0(data)")).map Ptentry.name =
    [ascii "bootloader", ascii "data"] := by decide +kernel

end Table

end Uboot.Common.FastbootPtable
