/-
  Uboot.Drivers.NandOpts

  `nand_write_opts`, for images without OOB data, and `nand_read_opts` of
  drivers/mtd/nand/nand_util.c.

  The chip is what its driver answers: `block_isbad` for an offset, and the status of `write` and
  of `read` for the page at an offset.  Both functions look for bad blocks with the same loops, the
  writer over virtual erase blocks of `blockalign` blocks.
-/

import Uboot.Lib.Align
import Uboot.Lib.Pages

namespace Uboot.Drivers.NandOpts

open Uboot.Lib

-- ============================================================================
-- The chip
-- ============================================================================

/-- `nand_info_t`, with the answers of its driver. -/
structure Chip where
  writesize : Nat
  oobsize : Nat
  erasesize : Nat
  size : Nat
  blockIsbad : Int → Int
  write : Nat → Int
  read : Nat → Int
  /-- mtd.h: "It is illegal to have writesize = 0." -/
  writesize_pos : 0 < writesize
  writesize_dvd : writesize ∣ erasesize
  erasesize_pos : 0 < erasesize
  /-- The largest erase block that nand_base.c sets up has 512 KiB. -/
  erasesize_le : erasesize ≤ 1073741824
  /-- `size` is compared with a signed offset of 64 bits. -/
  size_lt : size < 9223372036854775808
  /-- nand_base.c: `offs > mtd->size`, both unsigned, is `-EINVAL`. -/
  isbad_outside : ∀ offs : Int, offs < 0 ∨ size < offs → blockIsbad offs < 0

/-- The page sizes both functions know. -/
def Chip.Known (chip : Chip) : Prop :=
  chip.oobsize = 16 ∧ chip.writesize = 512 ∨ chip.oobsize = 8 ∧ chip.writesize = 256 ∨
    chip.oobsize = 64 ∧ chip.writesize = 2048 ∨
    (chip.oobsize = 128 ∨ chip.oobsize = 218) ∧ chip.writesize = 4096

instance (chip : Chip) : Decidable chip.Known := by
  unfold Chip.Known
  infer_instance

/-- `MAX_PAGE_SIZE`, the size of `data_buf` -/
def maxPageSize : Nat := 2048

/-- An `unsigned long` in an `int`. -/
def i32 (x : Nat) : Int :=
  if u32 x < 2147483648 then u32 x else u32 x - 4294967296

/-- An `int` in an `unsigned long`. -/
def ulong (x : Int) : Nat := (x % 4294967296).toNat

-- ============================================================================
-- Looking for bad blocks
-- ============================================================================

/-- A virtual erase block: its size, and what the scan adds to `offs`, where `none` is a
    division by 0. -/
structure Virtual where
  size : Nat
  step : Option Nat
  size_pos : 0 < size
  size_le : size ≤ 1073741824
  step_pos : ∀ step' ∈ step, 0 < step'

/-- `mtdoffset & (~size+1)` -/
def Virtual.start (virt : Virtual) (mtdoffset : Nat) : Nat := mtdoffset &&& (4294967296 - virt.size)

/-- How the scan of a virtual erase block ends. -/
inductive Scan
  | failed
  | divByZero
  | done (baderaseblock : Bool)
deriving DecidableEq

/-- The loop over the blocks of a virtual erase block that ends at `last`. -/
def scanBlocks (chip : Chip) (virt : Virtual) (last offs : Int) (baderaseblock : Bool) : Scan :=
  let ret := chip.blockIsbad offs
  if ret < 0 then .failed
  else
    match h : virt.step with
    | none => .divByZero
    | some step =>
      have := virt.step_pos step h
      if offs + step < last then scanBlocks chip virt last (offs + step) (baderaseblock || ret == 1)
      else .done (baderaseblock || ret == 1)
  termination_by (last - offs).toNat

/-- The scan of the virtual erase block around `mtdoffset`: `blockstart` is an `int`, and
    `blockstart + size` an `unsigned long`. -/
def scan (chip : Chip) (virt : Virtual) (mtdoffset : Nat) : Scan :=
  scanBlocks chip virt (u32 (virt.start mtdoffset + virt.size)) (i32 (virt.start mtdoffset)) false

variable {chip : Chip} {virt : Virtual} {mtdoffset : Nat}

namespace Virtual

theorem start_lt (virt : Virtual) (mtdoffset : Nat) : virt.start mtdoffset < 4294967296 := by
  have hsize := virt.size_pos
  exact Nat.lt_of_le_of_lt Nat.and_le_right (by omega)

theorem start_le (virt : Virtual) (mtdoffset : Nat) : virt.start mtdoffset ≤ mtdoffset := Nat.and_le_left

theorem lt_start_add (virt : Virtual) (h : mtdoffset < 4294967296) :
    mtdoffset < virt.start mtdoffset + virt.size := by
  have hpos := virt.size_pos
  have hle := virt.size_le
  have hsum := and_neg_add_and_pred h hpos (by omega)
  have hrest : mtdoffset &&& (virt.size - 1) ≤ virt.size - 1 := Nat.and_le_right
  rw [start]
  omega

/-- The start of the virtual erase block behind lies behind. -/
theorem start_lt_start (virt : Virtual) (h : virt.start mtdoffset < 2147483648) :
    virt.start mtdoffset < virt.start (virt.start mtdoffset + virt.size) := by
  have hle := virt.size_le
  have hlt := virt.lt_start_add (show virt.start mtdoffset + virt.size < 4294967296 by omega)
  omega

end Virtual

theorem i32_of_lt {x : Nat} (h : x < 2147483648) : i32 x = x := by
  rw [i32, u32]
  split <;> omega

theorem i32_neg {x : Nat} (hle : 2147483648 ≤ x) (hlt : x < 4294967296) : i32 x < 0 := by
  rw [i32, u32]
  split <;> omega

theorem ulong_i32 {x : Nat} (h : x < 4294967296) : ulong (i32 x) = x := by
  rw [ulong, i32, u32]
  split <;> omega

theorem ulong_ofNat (x : Nat) : ulong x = u32 x := by
  simp only [ulong, u32]
  omega

theorem scanBlocks_failed {last offs : Int} {bad : Bool} (h : chip.blockIsbad offs < 0) :
    scanBlocks chip virt last offs bad = .failed := by
  rw [scanBlocks]
  exact if_pos h

/-- No block from 2 GiB on can be looked up. -/
theorem scan_failed (h : 2147483648 ≤ virt.start mtdoffset) : scan chip virt mtdoffset = .failed :=
  scanBlocks_failed (chip.isbad_outside _ (.inl (i32_neg h (virt.start_lt _))))

theorem start_lt_of_done {bad : Bool} (h : scan chip virt mtdoffset = .done bad) :
    virt.start mtdoffset < 2147483648 := by
  by_contra hge
  rw [scan_failed (Nat.not_lt.mp hge)] at h
  cases h

/-- `blockstart + size` as `mtdoffset` -/
theorem ulong_next (h : virt.start mtdoffset < 2147483648) :
    ulong (i32 (virt.start mtdoffset) + virt.size) = virt.start mtdoffset + virt.size := by
  have hle := virt.size_le
  rw [i32_of_lt h, ← Int.natCast_add, ulong_ofNat, u32_of_lt (by omega)]

/-- How the search for a virtual erase block without a bad block ends: with `blockstart` and
    `mtdoffset`, or not. -/
inductive Search
  | failed
  | divByZero
  | found (blockstart : Int) (mtdoffset : Nat)

/-- The loop that looks for such a block, from `mtdoffset` on. -/
def skipBad (chip : Chip) (virt : Virtual) (blockstart : Int) (mtdoffset : Nat) : Search :=
  if ulong blockstart = virt.start mtdoffset then .found blockstart mtdoffset
  else
    let blockstart' := i32 (virt.start mtdoffset)
    match _h : scan chip virt mtdoffset with
    | .failed => .failed
    | .divByZero => .divByZero
    | .done false => skipBad chip virt blockstart' mtdoffset
    | .done true => skipBad chip virt blockstart' (ulong (blockstart' + virt.size))
  termination_by if ulong blockstart = virt.start mtdoffset then 0 else 4294967297 - virt.start mtdoffset
  decreasing_by
  · rename_i hnew
    have hlt := virt.start_lt mtdoffset
    rw [if_pos (ulong_i32 hlt), if_neg hnew]
    omega
  · rename_i hnew
    have hlow := start_lt_of_done _h
    have hlt := virt.start_lt mtdoffset
    have hbehind := virt.start_lt_start hlow
    rw [ulong_next hlow, ulong_i32 hlt, if_neg hnew, if_neg (by omega)]
    omega

-- ============================================================================
-- Writing
-- ============================================================================

/-- `nand_write_options_t` without `writeoob`, and without what changes the OOB layout only. -/
structure WriteOptions (chip : Chip) where
  length : Nat
  offset : Nat
  quiet : Bool
  forceyaffs : Bool
  pad : Bool
  blockalign : Nat
  length_lt : length < 4294967296
  offset_lt : offset < 4294967296
  /-- nand.h: "1|2|4 set multiple of eraseblocks to align to" -/
  blockalign_le : chip.erasesize * blockalign ≤ 1073741824

/-- How `nand_write_opts` ends: with a value and the pages that were written, with a division
    by 0, with a copy outside `data_buf`, or with `imglen` below the least `int`. -/
inductive Wrote
  | ret (value : Int) (log : List (Nat × List UInt8))
  | divByZero
  | overrun
  | overflow

/-- `erasesize_blockalign`, and the step of the scan. -/
def WriteOptions.virtual (opts : WriteOptions chip) : Virtual where
  size := if opts.blockalign = 0 then chip.erasesize else u32 (chip.erasesize * opts.blockalign)
  step :=
    if opts.blockalign = 0 then none
    else some (u32 (chip.erasesize * opts.blockalign) / opts.blockalign)
  size_pos := by
    have hpos := chip.erasesize_pos
    have hle := opts.blockalign_le
    split
    · exact hpos
    · rw [u32_of_lt (by omega)]
      exact Nat.mul_pos hpos (by omega)
  size_le := by
    have hle := opts.blockalign_le
    split
    · exact chip.erasesize_le
    · rwa [u32_of_lt (by omega)]
  step_pos := by
    have hle := opts.blockalign_le
    intro step' hstep
    split at hstep
    · cases hstep
    · obtain rfl := Option.some.inj hstep
      rw [u32_of_lt (by omega), Nat.mul_div_cancel _ (by omega)]
      exact chip.erasesize_pos

/-- `restoreoob`: the end of the function, which all its exits share. -/
def restoreoob (imglen : Int) (log : List (Nat × List UInt8)) : Wrote :=
  .ret (if 0 < imglen then -1 else 0) log

/-- Whether the page is filled up with `0xff`. -/
def padded (opts : WriteOptions chip) (imglen : Int) : Bool := opts.pad && imglen < chip.writesize

/-- `readlen` -/
def readlen (opts : WriteOptions chip) (imglen : Int) : Int :=
  if padded opts imglen then imglen else chip.writesize

theorem readlen_pos {opts : WriteOptions chip} {imglen : Int} (hne : imglen ≠ 0)
    (hcopy : ¬ readlen opts imglen < 0) : 0 < readlen opts imglen := by
  have hpos := chip.writesize_pos
  by_cases hpad : padded opts imglen
  · rw [readlen, if_pos hpad] at hcopy ⊢
    omega
  · rw [readlen, if_neg hpad]
    omega

/-- The loop over the pages. -/
def writeLoop (chip : Chip) (opts : WriteOptions chip) (imglen : Int) (mtdoffset : Nat)
    (blockstart : Int) (buffer : List UInt8) (log : List (Nat × List UInt8)) : Wrote :=
  if _hmore : imglen ≠ 0 ∧ mtdoffset < chip.size then
    match skipBad chip opts.virtual blockstart mtdoffset with
    | .failed => restoreoob imglen log
    | .divByZero => .divByZero
    | .found blockstart mtdoffset =>
      -- `memset` up to the end of the page, and `memcpy` of `readlen` bytes
      if _hcopy : readlen opts imglen < 0 ∨ maxPageSize < readlen opts imglen ∨
          padded opts imglen ∧ maxPageSize < chip.writesize then .overrun
      else
        let data_buf := (buffer.take (readlen opts imglen).toNat).rightpad chip.writesize 0xff
        if chip.write mtdoffset ≠ 0 then restoreoob imglen log
        else if _hover : imglen - readlen opts imglen < -2147483648 then .overflow
        -- the progress in percent
        else if opts.quiet = false ∧ opts.length = 0 then .divByZero
        else
          writeLoop chip opts (imglen - readlen opts imglen) (u32 (mtdoffset + chip.writesize)) blockstart
            (buffer.drop (readlen opts imglen).toNat) (log ++ [(mtdoffset, data_buf)])
  else restoreoob imglen log
  termination_by (imglen + 2147483648).toNat
  decreasing_by
  have hread := readlen_pos _hmore.1 fun hneg => _hcopy (.inl hneg)
  omega

/-- `nand_write_opts` -/
def nandWriteOpts (chip : Chip) (opts : WriteOptions chip) (buffer : List UInt8) : Wrote :=
  if ¬ chip.Known then .ret (-1) []
  else if chip.oobsize = 8 ∧ opts.forceyaffs then restoreoob 0 []
  else
    let imglen := i32 opts.length
    if ¬ opts.pad ∧ imglen.tmod chip.writesize ≠ 0 then restoreoob imglen []
    else if (chip.size + 18446744073709551616 - opts.offset) % 18446744073709551616 <
        ulong (imglen.tdiv chip.writesize * chip.writesize) then restoreoob imglen []
    else writeLoop chip opts imglen opts.offset (-1) buffer []

-- ============================================================================
-- Reading
-- ============================================================================

/-- `nand_read_options_t` without `readoob` -/
structure ReadOptions where
  length : Nat
  offset : Nat
  quiet : Bool

/-- How `nand_read_opts` ends: with a value and what it put into the buffer, with a division by 0,
    or with a page outside `data_buf`. -/
inductive Loaded
  | ret (value : Int) (buffer : List UInt8)
  | divByZero
  | overrun

/-- The single erase block that `nand_read_opts` works with. -/
def Chip.single (chip : Chip) : Virtual where
  size := chip.erasesize
  step := some chip.erasesize
  size_pos := chip.erasesize_pos
  size_le := chip.erasesize_le
  step_pos := fun _ h => Option.some.inj h ▸ chip.erasesize_pos

/-- The loop over the pages.  `imglen` is the `int` as it is compared with the `size_t readlen`. -/
def readLoop (chip : Chip) (opts : ReadOptions) (flash : Mem UInt8) (imglen mtdoffset : Nat)
    (blockstart : Int) (buffer : List UInt8) : Loaded :=
  if hmore : imglen ≠ 0 ∧ mtdoffset < chip.size then
    match skipBad chip chip.single blockstart mtdoffset with
    | .failed => .ret (-1) buffer
    | .divByZero => .divByZero
    | .found blockstart mtdoffset =>
      if maxPageSize < chip.writesize then .overrun
      else if chip.read mtdoffset ≠ 0 then .ret (-1) buffer
      else
        let data_buf := flash.read mtdoffset chip.writesize
        let readlen := min imglen chip.writesize
        if opts.quiet = false ∧ opts.length = 0 then .divByZero
        else
          readLoop chip opts flash (imglen - readlen) (u32 (mtdoffset + chip.writesize)) blockstart
            (buffer ++ data_buf.take readlen)
  else .ret (if 0 < i32 imglen then -1 else 0) buffer
  termination_by imglen
  decreasing_by
  have hpos := chip.writesize_pos
  omega

/-- `nand_read_opts` -/
def nandReadOpts (chip : Chip) (opts : ReadOptions) (flash : Mem UInt8) : Loaded :=
  if ¬ chip.Known then .ret (-1) []
  else if (chip.size + 18446744073709551616 - opts.offset) % 18446744073709551616 <
      ulong ((i32 opts.length).tdiv chip.writesize * chip.writesize) then .ret (-1) []
  else readLoop chip opts flash opts.length opts.offset (-1) []

end Uboot.Drivers.NandOpts
