/-
  Uboot.Drivers.NandUtil

  `nand_write_skip_bad` and `nand_read_skip_bad` of drivers/mtd/nand/nand_util.c,
  over `nand_write`, `nand_read` and `nand_block_isbad` of nand_base.c.

  The chip is what reports on the pages it programs and reads.  A loop that need
  not end takes fuel and returns `none` when that runs out.
-/

import Uboot.Lib.Ram
import Uboot.Lib.Usable

namespace Uboot.Drivers.NandUtil

open Uboot.Lib

def einval : Int := 22

def eio : Int := 5

def euclean : Int := 117

theorem einval_ne : -einval ≠ 0 := by decide

theorem eio_ne : -eio ≠ 0 := by decide

-- ============================================================================
-- The device
-- ============================================================================

/-- `nand_info_t`: the sizes, which are powers of two, and the bad block table.  Entry
    `blocks` of the table is what stands behind its end. -/
structure Nand where
  eraseShift : Nat
  writeShift : Nat
  blocks : Nat
  bbt : Nat → Bool
  writeShift_le : writeShift ≤ eraseShift
  /-- `erasesize` is a `u_int32_t`. -/
  eraseShift_lt : eraseShift < 32

namespace Nand

def erasesize (nand : Nand) : Nat := 2 ^ nand.eraseShift

def writesize (nand : Nand) : Nat := 2 ^ nand.writeShift

def size (nand : Nand) : Nat := nand.blocks * nand.erasesize

/-- A block the table does not mark. -/
def good (nand : Nand) (block : Nat) : Bool := !nand.bbt block

end Nand

/-- `nand_block_isbad` of nand_base.c -/
def nandBlockIsbad (nand : Nand) (offs : Nat) : Int :=
  if nand.size < offs then -einval else if nand.bbt (offs / nand.erasesize) then 1 else 0

/-- The chip under the driver: `write_page` with its status, `nand_check_wp`, and the pages in
    which a read corrects flipped bits.  A page it reports as programmed holds the data. -/
structure Chip (nand : Nand) where
  writePage : Mem UInt8 → Nat → List UInt8 → Mem UInt8 × Bool
  writeProtected : Bool
  corrected : Nat → Bool
  writePage_outside : ∀ m page bs x,
    x < page * nand.writesize ∨ (page + 1) * nand.writesize ≤ x → (writePage m page bs).1 x = m x
  writePage_holds : ∀ m page bs, bs.length = nand.writesize → (writePage m page bs).2 = true →
    (writePage m page bs).1.read (page * nand.writesize) nand.writesize = bs

variable {nand : Nand}

/-- The loop of `nand_do_write_ops` over the pages: its status, the pages left, and the flash
    with the pages it touched. -/
def nandDoWriteOps (chip : Chip nand) : Nat → Ram → Nat → List UInt8 → Int × Nat × Ram
  | 0, ram, _, _ => (0, 0, ram)
  | writelen + 1, ram, page, buf =>
    let written := chip.writePage ram.cells page (buf.take nand.writesize)
    let ram := ⟨written.1, ram.log ++ [⟨page * nand.writesize, nand.writesize⟩]⟩
    if written.2 then nandDoWriteOps chip writelen ram (page + 1) (buf.drop nand.writesize)
    else (-eio, writelen + 1, ram)

/-- `nand_write`: the status, `*retlen`, and the flash.  `*retlen` is the variable that `len`
    was read from.  The callers pass whole pages. -/
def nandWrite (chip : Chip nand) (ram : Ram) (to_ len : Nat) (buf : List UInt8) : Int × Nat × Ram :=
  if nand.size < to_ + len then (-einval, len, ram)
  else if len = 0 then (0, len, ram)
  else if chip.writeProtected then (-eio, 0, ram)
  else
    let r := nandDoWriteOps chip (len / nand.writesize) ram (to_ / nand.writesize) buf
    (r.1, len - r.2.1 * nand.writesize, r.2.2)

/-- `nand_read`: the status, `*retlen`, and the bytes. -/
def nandRead (chip : Chip nand) (m : Mem UInt8) (from_ len : Nat) : Int × Nat × List UInt8 :=
  if nand.size < from_ + len then (-einval, len, [])
  else if len = 0 then (0, len, [])
  else
    let first := from_ / nand.writesize
    let pages := List.range' first ((from_ + len - 1) / nand.writesize + 1 - first)
    (if pages.any chip.corrected then -euclean else 0, len, m.read from_ len)

-- ============================================================================
-- Skipping bad blocks
-- ============================================================================

/-- `offset & (nand->erasesize - 1)` -/
def blockOffset (nand : Nand) (offset : Nat) : Nat := offset &&& (nand.erasesize - 1)

/-- `offset & ~(nand->erasesize - 1)`: the mask is an unsigned int, so the result has 32 bits. -/
def blockStart (nand : Nand) (offset : Nat) : Nat := offset &&& (4294967296 - nand.erasesize)

theorem erasesize_pos (nand : Nand) : 0 < nand.erasesize := Nat.two_pow_pos _

theorem blockOffset_eq (nand : Nand) (offset : Nat) :
    blockOffset nand offset = offset % nand.erasesize :=
  Nat.and_two_pow_sub_one_eq_mod offset nand.eraseShift

theorem blockOffset_lt (nand : Nand) (offset : Nat) : blockOffset nand offset < nand.erasesize := by
  rw [blockOffset_eq]
  exact Nat.mod_lt _ (erasesize_pos nand)

/-- The loop of `get_len_incl_bad`, with `size_t` of 32 bits. -/
def lenInclBadLoop (nand : Nand) (length offset lenExclBad lenInclBad : Nat) : Nat :=
  if lenExclBad < length then
    have := blockOffset_lt nand offset
    let blockLen := nand.erasesize - blockOffset nand offset
    let lenExclBad' :=
      if nandBlockIsbad nand (blockStart nand offset) = 0 then u32 (lenExclBad + blockLen)
      else lenExclBad
    let lenInclBad' := u32 (lenInclBad + blockLen)
    if nand.size ≤ offset + blockLen then lenInclBad'
    else lenInclBadLoop nand length (offset + blockLen) lenExclBad' lenInclBad'
  else lenInclBad
  termination_by nand.size - offset

/-- `get_len_incl_bad` -/
def getLenInclBad (nand : Nand) (offset length : Nat) : Nat := lenInclBadLoop nand length offset 0 0

/-- What `nand_write_skip_bad` leaves: its value, `*length`, and the flash. -/
structure Written where
  rval : Int
  length : Nat
  ram : Ram

/-- The loop of `nand_write_skip_bad`. -/
def writeLoop (chip : Chip nand) (length : Nat) :
    Nat → Nat → Nat → List UInt8 → Ram → Option Written
  | 0, _, _, _, _ => none
  | fuel + 1, offset, leftToWrite, buffer, ram =>
    if leftToWrite = 0 then some ⟨0, length, ram⟩
    else
      let room := nand.erasesize - blockOffset nand offset
      if nandBlockIsbad nand (blockStart nand offset) ≠ 0 then
        writeLoop chip length fuel (offset + room) leftToWrite buffer ram
      else
        let writeSize := if leftToWrite < room then leftToWrite else room
        let r := nandWrite chip ram offset writeSize buffer
        if r.1 ≠ 0 then some ⟨r.1, length - leftToWrite, r.2.2⟩
        else
          writeLoop chip length fuel (offset + r.2.1) (leftToWrite - r.2.1) (buffer.drop r.2.1)
            r.2.2

/-- `nand_write_skip_bad (nand, offset, &length, buffer)` -/
def nandWriteSkipBad (chip : Chip nand) (fuel : Nat) (ram : Ram) (offset length : Nat)
    (buffer : List UInt8) : Option Written :=
  if offset &&& (nand.writesize - 1) ≠ 0 ∨ length &&& (nand.writesize - 1) ≠ 0 then
    some ⟨-einval, length, ram⟩
  else
    let lenInclBad := getLenInclBad nand offset length
    if nand.size < offset + lenInclBad then some ⟨-einval, length, ram⟩
    else if lenInclBad = length then
      let r := nandWrite chip ram offset length buffer
      some ⟨r.1, r.2.1, r.2.2⟩
    else writeLoop chip length fuel offset length buffer ram

/-- What `nand_read_skip_bad` leaves: its value, `*length`, and the buffer. -/
structure Loaded where
  rval : Int
  length : Nat
  bytes : List UInt8

/-- The loop of `nand_read_skip_bad`. -/
def readLoop (chip : Chip nand) (m : Mem UInt8) (length : Nat) :
    Nat → Nat → Nat → List UInt8 → Option Loaded
  | 0, _, _, _ => none
  | fuel + 1, offset, leftToRead, bytes =>
    if leftToRead = 0 then some ⟨0, length, bytes⟩
    else
      let room := nand.erasesize - blockOffset nand offset
      if nandBlockIsbad nand (blockStart nand offset) ≠ 0 then
        readLoop chip m length fuel (offset + room) leftToRead bytes
      else
        let readLength := if leftToRead < room then leftToRead else room
        let r := nandRead chip m offset readLength
        if r.1 ≠ 0 ∧ r.1 ≠ -euclean then some ⟨r.1, length - leftToRead, bytes ++ r.2.2⟩
        else
          readLoop chip m length fuel (offset + r.2.1) (leftToRead - r.2.1) (bytes ++ r.2.2)

/-- `nand_read_skip_bad (nand, offset, &length, buffer)` -/
def nandReadSkipBad (chip : Chip nand) (fuel : Nat) (m : Mem UInt8) (offset length : Nat) :
    Option Loaded :=
  let lenInclBad := getLenInclBad nand offset length
  if nand.size < offset + lenInclBad then some ⟨-einval, length, []⟩
  else if lenInclBad = length then
    let r := nandRead chip m offset length
    some ⟨if r.1 = 0 ∨ r.1 = -euclean then 0 else r.1, r.2.1, r.2.2⟩
  else readLoop chip m length fuel offset length []

-- ============================================================================
-- The specification
-- ============================================================================

/-- The addresses of the good blocks from `offset` up to `stop`. -/
def goodAddrs (nand : Nand) (offset stop : Nat) : List Nat :=
  usable nand.erasesize nand.good offset stop

/-- What the callers rely on.  `r` is what a write of `buffer` at `offset` left. -/
structure Outcome (chip : Chip nand) (offset : Nat) (buffer : List UInt8) (r : Written) : Prop where
  touched : ∀ w ∈ r.ram.log, ∀ x ∈ w.cells, x < nand.size ∧ nand.good (x / nand.erasesize) = true
  lies : r.rval = 0 →
    ((goodAddrs nand offset nand.size).take buffer.length).map r.ram.cells = buffer
  readBack : r.rval = 0 → ∃ fuel length,
    nandReadSkipBad chip fuel r.ram.cells offset buffer.length = some ⟨0, length, buffer⟩
  refused : (goodAddrs nand offset nand.size).length < buffer.length → r.rval ≠ 0

/-- The write ends, and as it should. -/
def Skips (chip : Chip nand) (m : Mem UInt8) (offset : Nat) (buffer : List UInt8) : Prop :=
  ∃ fuel r, nandWriteSkipBad chip fuel ⟨m, []⟩ offset buffer.length buffer = some r ∧
    Outcome chip offset buffer r

/-- The blocks whose addresses the mask does not cut. -/
def low (nand : Nand) : Nat := min nand.size 4294967296

/-- When the two functions do what their callers rely on: the arguments are refused, the good
    blocks hold the data below 4 GiB, or the data is too long in a way that shows. -/
def Holdable (nand : Nand) (offset length : Nat) : Prop :=
  ¬ (nand.writesize ∣ offset ∧ nand.writesize ∣ length) ∨
  nand.size ≤ offset ∨
  length ≤ (goodAddrs nand offset (low nand)).length ∨
  (nand.size ≤ 4294967296 ∧ length ≠ nand.size - offset ∧
    ((∃ block < nand.blocks, nand.good block = true) ∨
      (nand.size < 4294967296 ∧ nand.good nand.blocks = true)))

-- ============================================================================
-- Blocks and masks
-- ============================================================================

section Blocks

variable {offset x : Nat}

theorem erasesize_dvd_mask (nand : Nand) : nand.erasesize ∣ 4294967296 :=
  Nat.pow_dvd_pow 2 (Nat.le_of_lt nand.eraseShift_lt)

theorem writesize_dvd (nand : Nand) : nand.writesize ∣ nand.erasesize :=
  Nat.pow_dvd_pow 2 nand.writeShift_le

theorem erasesize_dvd_size (nand : Nand) : nand.erasesize ∣ nand.size := Dvd.intro_left _ rfl

theorem erasesize_dvd_low (nand : Nand) : nand.erasesize ∣ low nand := by
  rw [low]
  rcases Nat.le_total nand.size 4294967296 with h | h
  · rw [Nat.min_eq_left h]
    exact erasesize_dvd_size nand
  · rw [Nat.min_eq_right h]
    exact erasesize_dvd_mask nand

theorem blockStart_eq (nand : Nand) (offset : Nat) :
    blockStart nand offset = offset % 4294967296 / nand.erasesize * nand.erasesize := by
  have hlt := nand.eraseShift_lt
  have hmask : 4294967296 - nand.erasesize =
      (2 ^ (32 - nand.eraseShift) - 1) * 2 ^ nand.eraseShift := by
    rw [Nat.sub_mul, ← Nat.pow_add, Nat.sub_add_cancel (Nat.le_of_lt hlt), Nat.one_mul]
    rfl
  rw [blockStart, hmask, Nand.erasesize, show (4294967296 : Nat) = 2 ^ 32 from rfl]
  apply Nat.eq_of_testBit_eq
  intro i
  rw [Nat.testBit_and, Nat.testBit_mul_two_pow, Nat.testBit_two_pow_sub_one,
    Nat.testBit_mul_two_pow, Nat.testBit_div_two_pow, Nat.testBit_mod_two_pow]
  by_cases hi : nand.eraseShift ≤ i
  · rw [Nat.sub_add_cancel hi, decide_eq_true hi,
      show decide (i - nand.eraseShift < 32 - nand.eraseShift) = decide (i < 32) from
        decide_eq_decide.mpr (by omega)]
    cases offset.testBit i <;> cases decide (i < 32) <;> rfl
  · rw [decide_eq_false hi, Bool.false_and, Bool.false_and, Bool.and_false]

/-- The block that is looked up for an offset, in the table's numbering. -/
theorem isbad_blockStart (nand : Nand) (offset : Nat) :
    nandBlockIsbad nand (blockStart nand offset) = 0 ↔
      blockStart nand offset ≤ nand.size ∧
        nand.good (offset % 4294967296 / nand.erasesize) = true := by
  have hdiv : blockStart nand offset / nand.erasesize = offset % 4294967296 / nand.erasesize := by
    rw [blockStart_eq, Nat.mul_div_cancel _ (erasesize_pos nand)]
  rw [nandBlockIsbad, hdiv, Nand.good]
  split
  · rename_i hbeyond
    exact iff_of_false (by decide) fun h => absurd h.1 (by omega)
  · rename_i hinside
    cases nand.bbt (offset % 4294967296 / nand.erasesize) with
    | true => exact iff_of_false (by decide) fun h => absurd h.2 (by decide)
    | false => exact iff_of_true rfl ⟨by omega, rfl⟩

/-- Below 4 GiB the right block is looked up. -/
theorem isbad_low (h : offset < low nand) :
    nandBlockIsbad nand (blockStart nand offset) = 0 ↔ nand.good (offset / nand.erasesize) = true := by
  have hsize : offset < nand.size := Nat.lt_of_lt_of_le h (Nat.min_le_left _ _)
  have hmask : offset < 4294967296 := Nat.lt_of_lt_of_le h (Nat.min_le_right _ _)
  have hle : blockStart nand offset ≤ nand.size := by
    rw [blockStart_eq, Nat.mod_eq_of_lt hmask]
    exact Nat.le_trans (Nat.div_mul_le_self _ _) (Nat.le_of_lt hsize)
  rw [isbad_blockStart, Nat.mod_eq_of_lt hmask]
  exact and_iff_right hle

theorem isbad_of_bad (h : offset < low nand) (hgood : nand.good (offset / nand.erasesize) = false) :
    nandBlockIsbad nand (blockStart nand offset) ≠ 0 := by
  intro hseen
  rw [isbad_low h, hgood] at hseen
  exact Bool.false_ne_true hseen

theorem isbad_of_good (h : offset < low nand) (hgood : nand.good (offset / nand.erasesize) = true) :
    ¬ nandBlockIsbad nand (blockStart nand offset) ≠ 0 :=
  not_not.mpr ((isbad_low h).mpr hgood)

theorem goodAddrs_low (nand : Nand) (offset : Nat) :
    ∃ rest, goodAddrs nand offset nand.size = goodAddrs nand offset (low nand) ++ rest := by
  rcases Nat.le_total offset (low nand) with h | h
  · exact ⟨_, usable_append h (Nat.min_le_left _ _)⟩
  · exact ⟨goodAddrs nand offset nand.size, by
      rw [show goodAddrs nand offset (low nand) = [] from usable_of_le h, List.nil_append]⟩

theorem goodAddrs_good (hoffset : offset < low nand)
    (hgood : nand.good (offset / nand.erasesize) = true) :
    goodAddrs nand offset (low nand) =
      List.range' offset (nand.erasesize - blockOffset nand offset) ++
        goodAddrs nand (offset + (nand.erasesize - blockOffset nand offset)) (low nand) := by
  rw [blockOffset_eq]
  exact usable_good_block (erasesize_dvd_low nand) hoffset hgood

theorem goodAddrs_bad (hoffset : offset < low nand)
    (hbad : nand.good (offset / nand.erasesize) = false) :
    goodAddrs nand offset (low nand) =
      goodAddrs nand (offset + (nand.erasesize - blockOffset nand offset)) (low nand) := by
  rw [blockOffset_eq]
  exact usable_bad_block (erasesize_dvd_low nand) hoffset hbad

theorem room_le (hoffset : offset < low nand) :
    offset + (nand.erasesize - blockOffset nand offset) ≤ low nand := by
  rw [blockOffset_eq]
  exact block_end_le (erasesize_dvd_low nand) hoffset

/-- Where there is something left that fits, the low blocks have not come to their end. -/
theorem low_of_fits {left : Nat} (hleft : left ≠ 0)
    (hfits : left ≤ (goodAddrs nand offset (low nand)).length) : offset < low nand := by
  refine Nat.lt_of_not_le fun hle => hleft ?_
  rw [goodAddrs, usable_of_le hle] at hfits
  exact Nat.le_zero.mp hfits

/-- The head of the good addresses is what one round takes, then the head of the rest. -/
theorem take_goodAddrs {left size : Nat} (hoffset : offset < low nand)
    (hgood : nand.good (offset / nand.erasesize) = true)
    (hsize : size = if left < nand.erasesize - blockOffset nand offset then left
      else nand.erasesize - blockOffset nand offset) :
    (goodAddrs nand offset (low nand)).take left =
      List.range' offset size ++
        (goodAddrs nand (offset + size) (low nand)).take (left - size) := by
  rw [goodAddrs_good hoffset hgood, List.take_append, List.length_range', hsize]
  split
  · rename_i hleft
    rw [List.take_range'_of_length_ge (Nat.le_of_lt hleft), Nat.sub_self,
      Nat.sub_eq_zero_of_le (Nat.le_of_lt hleft), List.take_zero, List.take_zero]
  · rename_i hleft
    rw [List.take_range'_of_length_le (Nat.le_of_not_lt hleft)]

/-- One round of a loop takes something, no more than there is, and leaves a rest that fits. -/
theorem round_size {left size : Nat} (hoffset : offset < low nand)
    (hgood : nand.good (offset / nand.erasesize) = true) (hleft : left ≠ 0)
    (hfits : left ≤ (goodAddrs nand offset (low nand)).length)
    (hsize : size = if left < nand.erasesize - blockOffset nand offset then left
      else nand.erasesize - blockOffset nand offset) :
    (0 < size ∧ size ≤ left ∧ size ≤ nand.erasesize - blockOffset nand offset) ∧
      left - size ≤ (goodAddrs nand (offset + size) (low nand)).length := by
  have hroom : 0 < nand.erasesize - blockOffset nand offset := Nat.sub_pos_of_lt (blockOffset_lt nand offset)
  have htake := congrArg List.length (take_goodAddrs hoffset hgood hsize)
  rw [List.length_take, List.length_append, List.length_range', List.length_take] at htake
  refine ⟨?_, by omega⟩
  rw [hsize]
  split
  · omega
  · omega

theorem dvd_room (hoffset : nand.writesize ∣ offset) :
    nand.writesize ∣ nand.erasesize - blockOffset nand offset := by
  rw [blockOffset_eq]
  exact Nat.dvd_sub (writesize_dvd nand) ((Nat.dvd_mod_iff (writesize_dvd nand)).mpr hoffset)

theorem room_pos (nand : Nand) (offset : Nat) : 0 < nand.erasesize - blockOffset nand offset :=
  Nat.sub_pos_of_lt (blockOffset_lt nand offset)

end Blocks

-- ============================================================================
-- Programming and reading pages
-- ============================================================================

/-- What an attempt to write `bs` at `a` leaves: the pages touched, the bytes outside, and, with
    status 0, the data. -/
structure Programs (ram : Ram) (a : Nat) (bs : List UInt8) (status : Int) (ram' : Ram) : Prop where
  log : ∀ w ∈ ram'.log, w ∈ ram.log ∨ ∀ x ∈ w.cells, a ≤ x ∧ x < a + bs.length
  outside : ∀ x, x < a ∨ a + bs.length ≤ x → ram'.cells x = ram.cells x
  holds : status = 0 → ram'.cells.read a bs.length = bs

/-- By induction on the pages.  A page that fails ends the write. -/
theorem nandDoWriteOps_spec (chip : Chip nand) :
    ∀ (n : Nat) (ram : Ram) (page : Nat) (buf : List UInt8), buf.length = n * nand.writesize →
      Programs ram (page * nand.writesize) buf (nandDoWriteOps chip n ram page buf).1
          (nandDoWriteOps chip n ram page buf).2.2 ∧
        ((nandDoWriteOps chip n ram page buf).1 = 0 →
          (nandDoWriteOps chip n ram page buf).2.1 = 0) := by
  intro n
  induction n with
  | zero =>
    intro ram page buf hbuf
    rw [Nat.zero_mul] at hbuf
    obtain rfl := List.eq_nil_of_length_eq_zero hbuf
    exact ⟨⟨fun w hw => .inl hw, fun x _ => rfl, fun _ => rfl⟩, fun _ => rfl⟩
  | succ n ih =>
    intro ram page buf hbuf
    rw [Nat.succ_mul] at hbuf
    have hhead : (buf.take nand.writesize).length = nand.writesize := by
      rw [List.length_take]
      omega
    have houtside := chip.writePage_outside ram.cells page (buf.take nand.writesize)
    have hholds := chip.writePage_holds ram.cells page (buf.take nand.writesize) hhead
    have hpage : (page + 1) * nand.writesize = page * nand.writesize + nand.writesize :=
      Nat.succ_mul _ _
    rw [nandDoWriteOps]
    split
    · rename_i hok
      obtain ⟨ram', hram'⟩ : ∃ ram', ram' = Ram.mk
          (chip.writePage ram.cells page (buf.take nand.writesize)).1
          (ram.log ++ [⟨page * nand.writesize, nand.writesize⟩]) := ⟨_, rfl⟩
      have hcells : ram'.cells = (chip.writePage ram.cells page (buf.take nand.writesize)).1 := by
        rw [hram']
      have hlog : ram'.log = ram.log ++ [⟨page * nand.writesize, nand.writesize⟩] := by rw [hram']
      have hlen : (buf.drop nand.writesize).length = n * nand.writesize := by
        rw [List.length_drop]
        omega
      obtain ⟨hnext, hleft⟩ := ih ram' (page + 1) (buf.drop nand.writesize) hlen
      rw [← hram']
      refine ⟨⟨?_, ?_, ?_⟩, hleft⟩
      · intro w hw
        rcases hnext.log w hw with hw | hw
        · rw [hlog, List.mem_append, List.mem_singleton] at hw
          rcases hw with hw | rfl
          · exact .inl hw
          · refine .inr fun x hx => ?_
            rw [Extent.mem_cells, Extent.stop] at hx
            dsimp only at hx
            omega
        · refine .inr fun x hx => ?_
          have := hw x hx
          omega
      · intro x hx
        rw [hnext.outside x (by omega), hcells]
        exact houtside x (by omega)
      · intro hstatus
        have hrest := hnext.holds hstatus
        have hfirst := hholds hok
        have hkept : (nandDoWriteOps chip n ram' (page + 1)
            (buf.drop nand.writesize)).2.2.cells.read (page * nand.writesize) nand.writesize =
              ram'.cells.read (page * nand.writesize) nand.writesize :=
          Mem.read_congr fun x _ hx => hnext.outside x (.inl (by rw [hpage]; exact hx))
        rw [hlen, hpage] at hrest
        rw [hbuf, Nat.add_comm (n * _), Mem.read_add, hkept, hcells, hfirst, hrest,
          List.take_append_drop]
    · refine ⟨⟨?_, ?_, fun h => absurd h eio_ne⟩, fun h => absurd h eio_ne⟩
      · intro w hw
        rw [List.mem_append, List.mem_singleton] at hw
        rcases hw with hw | rfl
        · exact .inl hw
        · refine .inr fun x hx => ?_
          rw [Extent.mem_cells, Extent.stop] at hx
          dsimp only at hx
          omega
      · intro x hx
        exact houtside x (by omega)

/-- The pages of a longer buffer are those of its head. -/
theorem nandDoWriteOps_take (chip : Chip nand) :
    ∀ (n : Nat) (ram : Ram) (page : Nat) (buf : List UInt8),
      nandDoWriteOps chip n ram page (buf.take (n * nand.writesize)) =
        nandDoWriteOps chip n ram page buf := by
  intro n
  induction n with
  | zero => exact fun _ _ _ => rfl
  | succ n ih =>
    intro ram page buf
    have hhead : (buf.take ((n + 1) * nand.writesize)).take nand.writesize =
        buf.take nand.writesize := by
      rw [List.take_take, Nat.min_eq_left (Nat.le_mul_of_pos_left _ (Nat.succ_pos n))]
    have htail : (buf.take ((n + 1) * nand.writesize)).drop nand.writesize =
        (buf.drop nand.writesize).take (n * nand.writesize) := by
      rw [List.drop_take, Nat.succ_mul, Nat.add_sub_cancel]
    rw [nandDoWriteOps, nandDoWriteOps, hhead, htail, ih]

/-- A write of whole pages inside the device. -/
theorem nandWrite_spec (chip : Chip nand) (ram : Ram) {a len : Nat} {buf : List UInt8}
    (hsize : a + len ≤ nand.size) (ha : nand.writesize ∣ a) (hlen : nand.writesize ∣ len)
    (hbuf : len ≤ buf.length) :
    Programs ram a (buf.take len) (nandWrite chip ram a len buf).1
        (nandWrite chip ram a len buf).2.2 ∧
      ((nandWrite chip ram a len buf).1 = 0 → (nandWrite chip ram a len buf).2.1 = len) := by
  have hsame : ∀ status : Int, (status = 0 → len = 0) → Programs ram a (buf.take len) status ram := by
    intro status hstatus
    refine ⟨fun w hw => .inl hw, fun x _ => rfl, fun hzero => ?_⟩
    rw [hstatus hzero]
    rfl
  rw [nandWrite, if_neg (by omega)]
  split
  · rename_i hzero
    exact ⟨hsame 0 fun _ => hzero, fun _ => rfl⟩
  · rename_i hzero
    split
    · exact ⟨hsame _ fun h => absurd h eio_ne, fun h => absurd h eio_ne⟩
    · have hpages : len / nand.writesize * nand.writesize = len := Nat.div_mul_cancel hlen
      have hpage : a / nand.writesize * nand.writesize = a := Nat.div_mul_cancel ha
      obtain ⟨hprog, hleft⟩ := nandDoWriteOps_spec chip (len / nand.writesize) ram
        (a / nand.writesize) (buf.take len) (by rw [List.length_take, hpages]; omega)
      have htake := nandDoWriteOps_take chip (len / nand.writesize) ram (a / nand.writesize) buf
      rw [hpages] at htake
      rw [htake, hpage] at hprog
      rw [htake] at hleft
      dsimp only
      refine ⟨hprog, fun hstatus => ?_⟩
      rw [hleft hstatus, Nat.zero_mul, Nat.sub_zero]

/-- A read inside the device gives the bytes, and at most reports corrected ones. -/
theorem nandRead_spec (chip : Chip nand) (m : Mem UInt8) {a len : Nat}
    (hsize : a + len ≤ nand.size) :
    ((nandRead chip m a len).1 = 0 ∨ (nandRead chip m a len).1 = -euclean) ∧
      (nandRead chip m a len).2 = (len, m.read a len) := by
  rw [nandRead, if_neg (by omega)]
  split
  · rename_i hzero
    rw [hzero]
    exact ⟨.inl rfl, rfl⟩
  · dsimp only
    refine ⟨?_, rfl⟩
    split
    · exact .inr rfl
    · exact .inl rfl

-- ============================================================================
-- The loops where the good blocks hold the data
-- ============================================================================

section Loops

variable {chip : Chip nand} {m : Mem UInt8} {length offset left : Nat} {buffer : List UInt8}
variable {ram : Ram}

/-- A list of pages touched, `old` before, that are good ones inside the device. -/
def Touched (nand : Nand) (old log : List Extent) : Prop :=
  ∀ w ∈ log, w ∈ old ∨ ∀ x ∈ w.cells, x < nand.size ∧ nand.good (x / nand.erasesize) = true

/-- What the write loop does from `offset` on. -/
structure Wrote (nand : Nand) (offset : Nat) (buffer : List UInt8) (ram : Ram) (r : Written) :
    Prop where
  touched : Touched nand ram.log r.ram.log
  kept : ∀ x < offset, r.ram.cells x = ram.cells x
  holds : r.rval = 0 →
    ((goodAddrs nand offset (low nand)).take buffer.length).map r.ram.cells = buffer

/-- A write into one good block touches only that. -/
theorem touched_block {a : Nat} {bs : List UInt8} {status : Int} {ram' : Ram}
    (h : Programs ram a bs status ram') (hoffset : a < nand.size)
    (hgood : nand.good (a / nand.erasesize) = true)
    (hlen : bs.length ≤ nand.erasesize - blockOffset nand a) :
    Touched nand ram.log ram'.log := by
  intro w hw
  rcases h.log w hw with hw | hw
  · exact .inl hw
  · refine .inr fun x hx => ?_
    obtain ⟨hax, hx⟩ := hw x hx
    rw [blockOffset_eq] at hlen
    have hend := block_end_le (erasesize_dvd_size nand) hoffset
    rw [div_of_block hax (by omega)]
    exact ⟨by omega, hgood⟩

theorem Touched.trans {old mid log : List Extent} (h₁ : Touched nand old mid)
    (h₂ : Touched nand mid log) : Touched nand old log := by
  intro w hw
  rcases h₂ w hw with hw | hw
  · exact h₁ w hw
  · exact .inr hw

/-- **The write loop.**  By induction on what lies before the end of the low blocks: in a bad
    block nothing happens, a good one takes what it can. -/
theorem writeLoop_spec (chip : Chip nand) (length : Nat) :
    ∀ (n offset left : Nat) (buffer : List UInt8) (ram : Ram), low nand - offset ≤ n →
      nand.writesize ∣ offset → nand.writesize ∣ left → buffer.length = left →
      left ≤ (goodAddrs nand offset (low nand)).length →
        ∃ fuel r, writeLoop chip length fuel offset left buffer ram = some r ∧
          Wrote nand offset buffer ram r := by
  intro n
  induction n with
  | zero =>
    intro offset left buffer ram hn _ _ hbuf hfits
    rw [goodAddrs, usable_of_le (by omega), List.length_nil, Nat.le_zero] at hfits
    subst hfits
    obtain rfl := List.eq_nil_of_length_eq_zero hbuf
    exact ⟨1, ⟨0, length, ram⟩, rfl, fun w hw => .inl hw, fun _ _ => rfl, fun _ => rfl⟩
  | succ n ih =>
    intro offset left buffer ram hn hoffset hleft hbuf hfits
    by_cases hzero : left = 0
    · subst hzero
      obtain rfl := List.eq_nil_of_length_eq_zero hbuf
      exact ⟨1, ⟨0, length, ram⟩, rfl, fun w hw => .inl hw, fun _ _ => rfl, fun _ => rfl⟩
    have hlow := low_of_fits hzero hfits
    have hsize : low nand ≤ nand.size := Nat.min_le_left _ _
    have hroom := room_pos nand offset
    have hend := room_le hlow
    have hdvd := dvd_room hoffset
    have hdvd' := (Nat.dvd_add hoffset hdvd)
    cases hgood : nand.good (offset / nand.erasesize) with
    | false =>
      have hbad := isbad_of_bad hlow hgood
      rw [goodAddrs_bad hlow hgood] at hfits
      obtain ⟨fuel, r, hloop, hwrote⟩ := ih
        (offset + (nand.erasesize - blockOffset nand offset)) left buffer ram (by omega) hdvd' hleft
        hbuf hfits
      refine ⟨fuel + 1, r, ?_, hwrote.touched, fun x hx => hwrote.kept x (by omega), ?_⟩
      · rw [writeLoop, if_neg hzero, if_pos hbad]
        exact hloop
      · rw [goodAddrs_bad hlow hgood]
        exact hwrote.holds
    | true =>
      have hseen := isbad_of_good hlow hgood
      obtain ⟨size, hsizeEq⟩ : ∃ size, size = if left < nand.erasesize - blockOffset nand offset
        then left else nand.erasesize - blockOffset nand offset := ⟨_, rfl⟩
      obtain ⟨⟨hsizePos, hsizeLeft, hsizeRoom⟩, hnextFits⟩ := round_size hlow hgood hzero hfits hsizeEq
      have hsizeDvd : nand.writesize ∣ size := by
        rw [hsizeEq]
        split
        · exact hleft
        · exact hdvd
      obtain ⟨hprog, hret⟩ := nandWrite_spec chip ram (a := offset) (by omega) hoffset hsizeDvd
        (hsizeLeft.trans_eq hbuf.symm)
      have hbsLen : (buffer.take size).length = size := by
        rw [List.length_take]
        omega
      have htouched := touched_block hprog (by omega) hgood (by rw [hbsLen]; exact hsizeRoom)
      by_cases hstatus : (nandWrite chip ram offset size buffer).1 = 0
      · obtain ⟨fuel, r, hloop, hwrote⟩ := ih (offset + size) (left - size) (buffer.drop size)
          (nandWrite chip ram offset size buffer).2.2 (by omega) (Nat.dvd_add hoffset hsizeDvd)
          (Nat.dvd_sub hleft hsizeDvd) (by rw [List.length_drop, hbuf]) hnextFits
        have hread : r.ram.cells.read offset size = buffer.take size := by
          have hholds := hprog.holds hstatus
          rw [hbsLen] at hholds
          rw [← hholds]
          exact Mem.read_congr fun x _ hx => hwrote.kept x hx
        refine ⟨fuel + 1, r, ?_, htouched.trans hwrote.touched, ?_, fun hzero' => ?_⟩
        · rw [writeLoop, if_neg hzero, if_neg hseen, ← hsizeEq, if_neg (not_not.mpr hstatus),
            hret hstatus]
          exact hloop
        · intro x hx
          rw [hwrote.kept x (by omega)]
          exact hprog.outside x (.inl hx)
        · have hrest := hwrote.holds hzero'
          rw [List.length_drop, hbuf] at hrest
          rw [hbuf, take_goodAddrs hlow hgood hsizeEq, List.map_append, hrest, Mem.map_range',
            hread, List.take_append_drop]
      · refine ⟨1, ⟨_, length - left, _⟩, ?_, htouched, fun x hx => hprog.outside x (.inl hx),
          fun h => absurd h hstatus⟩
        rw [writeLoop, if_neg hzero, if_neg hseen, ← hsizeEq, if_pos hstatus]

/-- **The read loop.**  It gathers the same addresses. -/
theorem readLoop_spec (chip : Chip nand) (m : Mem UInt8) (length : Nat) :
    ∀ (n offset left : Nat) (bytes : List UInt8), low nand - offset ≤ n →
      left ≤ (goodAddrs nand offset (low nand)).length →
        ∃ fuel, readLoop chip m length fuel offset left bytes =
          some ⟨0, length, bytes ++ ((goodAddrs nand offset (low nand)).take left).map m⟩ := by
  intro n
  induction n with
  | zero =>
    intro offset left bytes hn hfits
    rw [goodAddrs, usable_of_le (by omega), List.length_nil, Nat.le_zero] at hfits
    subst hfits
    rw [List.take_zero, List.map_nil, List.append_nil]
    exact ⟨1, rfl⟩
  | succ n ih =>
    intro offset left bytes hn hfits
    by_cases hzero : left = 0
    · subst hzero
      rw [List.take_zero, List.map_nil, List.append_nil]
      exact ⟨1, rfl⟩
    have hlow := low_of_fits hzero hfits
    have hsize : low nand ≤ nand.size := Nat.min_le_left _ _
    have hroom := room_pos nand offset
    have hend := room_le hlow
    cases hgood : nand.good (offset / nand.erasesize) with
    | false =>
      have hbad := isbad_of_bad hlow hgood
      rw [goodAddrs_bad hlow hgood] at hfits ⊢
      obtain ⟨fuel, hloop⟩ := ih (offset + (nand.erasesize - blockOffset nand offset)) left bytes
        (by omega) hfits
      refine ⟨fuel + 1, ?_⟩
      rw [readLoop, if_neg hzero, if_pos hbad]
      exact hloop
    | true =>
      have hseen := isbad_of_good hlow hgood
      obtain ⟨size, hsizeEq⟩ : ∃ size, size = if left < nand.erasesize - blockOffset nand offset
        then left else nand.erasesize - blockOffset nand offset := ⟨_, rfl⟩
      obtain ⟨⟨hsizePos, hsizeLeft, hsizeRoom⟩, hnext⟩ := round_size hlow hgood hzero hfits hsizeEq
      have hinside : offset + size ≤ nand.size := by omega
      obtain ⟨hstatus, hread⟩ := nandRead_spec chip m hinside
      obtain ⟨fuel, hloop⟩ := ih (offset + size) (left - size) (bytes ++ m.read offset size)
        (by omega) hnext
      refine ⟨fuel + 1, ?_⟩
      rw [readLoop, if_neg hzero, if_neg hseen, ← hsizeEq,
        if_neg fun h => hstatus.elim h.1 h.2, hread]
      rw [take_goodAddrs hlow hgood hsizeEq, List.map_append, Mem.map_range', ← List.append_assoc]
      exact hloop

end Loops

-- ============================================================================
-- The length with bad blocks
-- ============================================================================

section Length

variable {offset cur length : Nat}

variable (nand) in
/-- One more block counts whole or not at all. -/
theorem goodAddrs_next (hcur : offset ≤ cur) :
    (goodAddrs nand offset (cur + (nand.erasesize - blockOffset nand cur))).length =
      (goodAddrs nand offset cur).length +
        if nand.good (cur / nand.erasesize) = true then nand.erasesize - blockOffset nand cur
        else 0 := by
  have hroom := room_pos nand cur
  have hdvd := dvd_block_end (a := cur) (erasesize_pos nand)
  rw [← blockOffset_eq] at hdvd
  rw [goodAddrs, usable_append hcur (Nat.le_add_right cur _), List.length_append]
  congr 1
  split
  · rename_i hgood
    rw [usable_good_block hdvd (by omega) hgood, ← blockOffset_eq, usable_of_le (Nat.le_refl _),
      List.append_nil, List.length_range']
  · rename_i hgood
    rw [usable_bad_block hdvd (by omega) (Bool.eq_false_iff.mpr hgood), ← blockOffset_eq,
      usable_of_le (Nat.le_refl _), List.length_nil]

theorem goodAddrs_length_le : (goodAddrs nand offset cur).length ≤ cur - offset := usable_length_le

/-- What one block adds to the length without bad blocks. -/
theorem exclBad_next (hcur : offset ≤ cur) (hlow : cur < low nand)
    (hnowrap : (goodAddrs nand offset (cur + (nand.erasesize - blockOffset nand cur))).length <
      4294967296) :
    (if nandBlockIsbad nand (blockStart nand cur) = 0 then
      u32 ((goodAddrs nand offset cur).length + (nand.erasesize - blockOffset nand cur))
      else (goodAddrs nand offset cur).length) =
        (goodAddrs nand offset (cur + (nand.erasesize - blockOffset nand cur))).length := by
  rw [goodAddrs_next nand hcur] at hnowrap ⊢
  simp only [isbad_low hlow]
  split
  · rename_i hgood
    rw [if_pos hgood] at hnowrap
    exact u32_of_lt hnowrap
  · rfl

/-- **The first pass.**  When the good blocks hold the data and the length with bad blocks is the
    length, the data goes into one range without a bad block.  By induction on what lies before
    the end of the low blocks. -/
theorem lenInclBadLoop_spec (hlength : length < 4294967296)
    (hfits : length ≤ (goodAddrs nand offset (low nand)).length) :
    ∀ (n cur : Nat), low nand - cur ≤ n → offset ≤ cur → cur ≤ low nand →
      (goodAddrs nand offset cur).length < length →
      lenInclBadLoop nand length cur (goodAddrs nand offset cur).length (u32 (cur - offset)) =
        length →
      (goodAddrs nand offset (low nand)).take length = List.range' offset length ∧
        offset + length ≤ low nand := by
  intro n
  induction n with
  | zero =>
    intro cur hn _ hlow hshort _
    rw [show cur = low nand by omega] at hshort
    omega
  | succ n ih =>
    intro cur hn hcur hlow hshort hresult
    have hlt : cur < low nand := by
      refine Nat.lt_of_le_of_ne hlow fun heq => ?_
      rw [heq] at hshort
      omega
    have hmask : low nand ≤ 4294967296 := Nat.min_le_right _ _
    have hsize : low nand ≤ nand.size := Nat.min_le_left _ _
    have hroom := room_pos nand cur
    have hend := room_le hlt
    obtain ⟨cur', hcur'⟩ : ∃ cur', cur' = cur + (nand.erasesize - blockOffset nand cur) := ⟨_, rfl⟩
    have hbound : (goodAddrs nand offset cur').length ≤ cur' - offset := goodAddrs_length_le
    have hincl : u32 (u32 (cur - offset) + (nand.erasesize - blockOffset nand cur)) =
        u32 (cur' - offset) := by
      rw [u32_add_left, hcur', Nat.sub_add_comm hcur]
    rw [lenInclBadLoop, if_pos hshort] at hresult
    dsimp only at hresult
    rw [hincl, ← hcur'] at hresult
    rw [← hcur'] at hend
    have hexcl := exclBad_next hcur hlt
    rw [← hcur'] at hexcl
    by_cases hmore : (goodAddrs nand offset cur').length < length
    · -- the data does not end here, so there are more low blocks
      have hne : cur' ≠ low nand := fun heq => by
        rw [heq] at hmore
        omega
      rw [hexcl (by omega), if_neg (by omega)] at hresult
      exact ih cur' (by omega) (by omega) hend hmore hresult
    by_cases hwhole : (goodAddrs nand offset cur').length = cur' - offset
    · -- the data ends here, without a bad block before
      have hrange : goodAddrs nand offset cur' = List.range' offset (cur' - offset) :=
        usable_eq_range' hwhole.ge
      refine ⟨?_, by omega⟩
      rw [goodAddrs, usable_append (c := cur') (by omega) hend, ← goodAddrs, hrange,
        List.take_append_of_le_length (by rw [List.length_range']; omega),
        List.take_range'_of_length_ge (by omega)]
    · -- the data ends here, and the length with bad blocks is larger
      rw [hexcl (by omega)] at hresult
      have hout : u32 (cur' - offset) = length := by
        split at hresult
        · exact hresult
        · rw [lenInclBadLoop, if_neg hmore] at hresult
          exact hresult
      rcases Nat.lt_or_ge (cur' - offset) 4294967296 with hnowrap | hwrap
      · rw [u32_of_lt hnowrap] at hout
        omega
      · rw [show cur' - offset = 4294967296 by omega] at hout
        have hzero : u32 4294967296 = 0 := by decide
        omega

end Length

-- ============================================================================
-- Where the two functions do what their callers rely on
-- ============================================================================

section Holds

variable {chip : Chip nand} {m : Mem UInt8} {offset : Nat} {buffer : List UInt8}

theorem misaligned_iff (nand : Nand) (offset length : Nat) :
    (offset &&& (nand.writesize - 1) ≠ 0 ∨ length &&& (nand.writesize - 1) ≠ 0) ↔
      ¬ (nand.writesize ∣ offset ∧ nand.writesize ∣ length) := by
  rw [Nand.writesize, Nat.and_two_pow_sub_one_eq_mod, Nat.and_two_pow_sub_one_eq_mod,
    Nat.dvd_iff_mod_eq_zero, Nat.dvd_iff_mod_eq_zero, not_and_or]

/-- A refused write. -/
theorem outcome_refused (chip : Chip nand) (m : Mem UInt8) (offset : Nat) (buffer : List UInt8) :
    Outcome chip offset buffer ⟨-einval, buffer.length, ⟨m, []⟩⟩ :=
  ⟨fun _ hw => absurd hw List.not_mem_nil, fun h => absurd h einval_ne, fun h => absurd h einval_ne,
    fun _ => einval_ne⟩

theorem nandWriteSkipBad_aligned (chip : Chip nand) (fuel : Nat) (ram : Ram) {offset : Nat}
    {buffer : List UInt8}
    (haligned : nand.writesize ∣ offset ∧ nand.writesize ∣ buffer.length) :
    nandWriteSkipBad chip fuel ram offset buffer.length buffer =
      if nand.size < offset + getLenInclBad nand offset buffer.length then
        some ⟨-einval, buffer.length, ram⟩
      else if getLenInclBad nand offset buffer.length = buffer.length then
        some ⟨(nandWrite chip ram offset buffer.length buffer).1,
          (nandWrite chip ram offset buffer.length buffer).2.1,
          (nandWrite chip ram offset buffer.length buffer).2.2⟩
      else writeLoop chip buffer.length fuel offset buffer.length buffer ram := by
  rw [nandWriteSkipBad, if_neg]
  rw [misaligned_iff]
  exact not_not.mpr haligned

/-- The fast path, over a range without a bad block. -/
theorem skips_fast (hsize : offset + buffer.length ≤ nand.size)
    (haligned : nand.writesize ∣ offset ∧ nand.writesize ∣ buffer.length)
    (hincl : getLenInclBad nand offset buffer.length = buffer.length)
    (hfits : buffer.length ≤ (goodAddrs nand offset nand.size).length)
    (hrange : (goodAddrs nand offset nand.size).take buffer.length =
      List.range' offset buffer.length) : Skips chip m offset buffer := by
  obtain ⟨hprog, hret⟩ := nandWrite_spec chip ⟨m, []⟩ hsize haligned.1 haligned.2 (Nat.le_refl _)
  rw [List.take_length] at hprog
  have hcall : nandWriteSkipBad chip 0 ⟨m, []⟩ offset buffer.length buffer =
      some ⟨(nandWrite chip ⟨m, []⟩ offset buffer.length buffer).1,
        (nandWrite chip ⟨m, []⟩ offset buffer.length buffer).2.1,
        (nandWrite chip ⟨m, []⟩ offset buffer.length buffer).2.2⟩ := by
    rw [nandWriteSkipBad_aligned chip 0 _ haligned, if_neg (by omega), if_pos hincl]
  refine ⟨0, _, hcall, ?_, ?_, ?_, fun hshort => absurd hfits (Nat.not_le_of_lt hshort)⟩
  · intro w hw x hx
    rcases hprog.log w hw with hw | hw
    · exact absurd hw List.not_mem_nil
    · have hmem : x ∈ List.range' offset buffer.length := List.mem_range'_1.mpr (hw x hx)
      rw [← hrange] at hmem
      obtain ⟨hx, hgood⟩ := mem_usable.mp (List.mem_of_mem_take hmem)
      exact ⟨hx.2, hgood⟩
  · intro hstatus
    rw [hrange, Mem.map_range']
    exact hprog.holds hstatus
  · intro hstatus
    obtain ⟨hok, hread⟩ := nandRead_spec chip
      (nandWrite chip ⟨m, []⟩ offset buffer.length buffer).2.2.cells hsize
    refine ⟨0, buffer.length, ?_⟩
    rw [nandReadSkipBad, hincl, if_neg (by omega), if_pos rfl]
    dsimp only
    rw [if_pos hok, hread, hprog.holds hstatus]

/-- The loop, where the good low blocks hold the data. -/
theorem skips_loop (haligned : nand.writesize ∣ offset ∧ nand.writesize ∣ buffer.length)
    (hincl : getLenInclBad nand offset buffer.length ≠ buffer.length)
    (hsize : ¬ nand.size < offset + getLenInclBad nand offset buffer.length)
    (hfits : buffer.length ≤ (goodAddrs nand offset (low nand)).length) :
    Skips chip m offset buffer := by
  obtain ⟨rest, hrest⟩ := goodAddrs_low nand offset
  have htake : (goodAddrs nand offset nand.size).take buffer.length =
      (goodAddrs nand offset (low nand)).take buffer.length := by
    rw [hrest, List.take_append_of_le_length hfits]
  obtain ⟨fuel, r, hloop, hwrote⟩ := writeLoop_spec chip buffer.length _ offset buffer.length buffer
    ⟨m, []⟩ (Nat.le_refl _) haligned.1 haligned.2 rfl hfits
  refine ⟨fuel, r, ?_, ?_, ?_, ?_, ?_⟩
  · rw [nandWriteSkipBad_aligned chip fuel _ haligned, if_neg hsize, if_neg hincl]
    exact hloop
  · intro w hw
    exact (hwrote.touched w hw).resolve_left List.not_mem_nil
  · intro hstatus
    rw [htake]
    exact hwrote.holds hstatus
  · intro hstatus
    obtain ⟨fuel', hread⟩ := readLoop_spec chip r.ram.cells buffer.length _ offset buffer.length []
      (Nat.le_refl _) hfits
    refine ⟨fuel', buffer.length, ?_⟩
    rw [nandReadSkipBad, if_neg hsize, if_neg hincl, hread, hwrote.holds hstatus]
    rfl
  · intro hshort
    rw [hrest, List.length_append] at hshort
    omega

theorem skips_of_fits (hlength : buffer.length < 4294967296)
    (haligned : nand.writesize ∣ offset ∧ nand.writesize ∣ buffer.length)
    (hfits : buffer.length ≤ (goodAddrs nand offset (low nand)).length) :
    Skips chip m offset buffer := by
  by_cases hsize : nand.size < offset + getLenInclBad nand offset buffer.length
  · have hcall : nandWriteSkipBad chip 0 ⟨m, []⟩ offset buffer.length buffer =
        some ⟨-einval, buffer.length, ⟨m, []⟩⟩ := by
      rw [nandWriteSkipBad_aligned chip 0 _ haligned, if_pos hsize]
    exact ⟨0, _, hcall, outcome_refused chip m offset buffer⟩
  by_cases hincl : getLenInclBad nand offset buffer.length = buffer.length
  · obtain ⟨rest, hrest⟩ := goodAddrs_low nand offset
    have hfits' : buffer.length ≤ (goodAddrs nand offset nand.size).length := by
      rw [hrest, List.length_append]
      omega
    refine skips_fast (by omega) haligned hincl hfits' ?_
    rw [hrest, List.take_append_of_le_length hfits]
    rcases Nat.eq_zero_or_pos buffer.length with hzero | hpos
    · rw [hzero]
      rfl
    · have hlow : offset < low nand := by
        refine Nat.lt_of_not_le fun hle => ?_
        rw [goodAddrs, usable_of_le hle, List.length_nil] at hfits
        omega
      have hstart : (goodAddrs nand offset offset).length = 0 := by
        rw [goodAddrs, usable_of_le (Nat.le_refl _), List.length_nil]
      refine (lenInclBadLoop_spec hlength hfits _ offset (Nat.le_refl _) (Nat.le_refl _)
        (Nat.le_of_lt hlow) (by omega) ?_).1
      rw [hstart, Nat.sub_self]
      exact hincl
  · exact skips_loop haligned hincl hsize hfits

theorem skips_of_misaligned
    (h : ¬ (nand.writesize ∣ offset ∧ nand.writesize ∣ buffer.length)) :
    Skips chip m offset buffer := by
  have hcall : nandWriteSkipBad chip 0 ⟨m, []⟩ offset buffer.length buffer =
      some ⟨-einval, buffer.length, ⟨m, []⟩⟩ := by
    rw [nandWriteSkipBad, if_pos ((misaligned_iff nand offset buffer.length).mpr h)]
  exact ⟨0, _, hcall, outcome_refused chip m offset buffer⟩

theorem room_lt (nand : Nand) (offset : Nat) :
    nand.erasesize - blockOffset nand offset < 4294967296 := by
  have hlt : nand.erasesize < 2 ^ 32 := Nat.pow_lt_pow_right (by decide) nand.eraseShift_lt
  exact Nat.lt_of_le_of_lt (Nat.sub_le _ _) hlt

/-- Behind the device the length with bad blocks is the rest of one block, which is too much. -/
theorem skips_of_outside (hlength : buffer.length < 4294967296)
    (haligned : nand.writesize ∣ offset ∧ nand.writesize ∣ buffer.length)
    (hsize : nand.size ≤ offset) : Skips chip m offset buffer := by
  rcases Nat.eq_zero_or_pos buffer.length with hzero | hpos
  · exact skips_of_fits hlength haligned (by rw [hzero]; exact Nat.zero_le _)
  · have hroom := room_pos nand offset
    have hincl : getLenInclBad nand offset buffer.length =
        nand.erasesize - blockOffset nand offset := by
      rw [getLenInclBad, lenInclBadLoop, if_pos hpos]
      dsimp only
      rw [if_pos (by omega), Nat.zero_add, u32_of_lt (room_lt nand offset)]
    have hcall : nandWriteSkipBad chip 0 ⟨m, []⟩ offset buffer.length buffer =
        some ⟨-einval, buffer.length, ⟨m, []⟩⟩ := by
      rw [nandWriteSkipBad_aligned chip 0 _ haligned, hincl, if_pos (by omega)]
    exact ⟨0, _, hcall, outcome_refused chip m offset buffer⟩

end Holds

-- ============================================================================
-- Data that does not fit
-- ============================================================================

section TooLong

variable {chip : Chip nand} {m : Mem UInt8} {offset length : Nat} {buffer : List UInt8}

theorem low_eq (hsmall : nand.size ≤ 4294967296) : low nand = nand.size := Nat.min_eq_left hsmall

/-- The first pass stops at the end of the device. -/
theorem lenInclBadLoop_tooLong (hsmall : nand.size ≤ 4294967296) (hlength : length < 4294967296)
    (hshort : (goodAddrs nand offset nand.size).length < length) :
    ∀ (n cur : Nat), nand.size - cur ≤ n → offset ≤ cur → cur < nand.size →
      lenInclBadLoop nand length cur (goodAddrs nand offset cur).length (u32 (cur - offset)) =
        u32 (nand.size - offset) := by
  intro n
  induction n with
  | zero => exact fun cur hn _ hcur => absurd hcur (by omega)
  | succ n ih =>
    intro cur hn hcur hsize
    have hlow := low_eq hsmall
    have hlt : cur < low nand := by omega
    have hend := room_le hlt
    have hroom := room_pos nand cur
    have hle : ∀ {cur : Nat}, offset ≤ cur → cur ≤ nand.size →
        (goodAddrs nand offset cur).length < length := by
      intro cur h₁ h₂
      rw [goodAddrs, usable_append h₁ h₂, List.length_append] at hshort
      exact Nat.lt_of_le_of_lt (Nat.le_add_right _ _) hshort
    obtain ⟨cur', hcur'⟩ : ∃ cur', cur' = cur + (nand.erasesize - blockOffset nand cur) := ⟨_, rfl⟩
    have hincl : u32 (u32 (cur - offset) + (nand.erasesize - blockOffset nand cur)) =
        u32 (cur' - offset) := by
      rw [u32_add_left, hcur', Nat.sub_add_comm hcur]
    rw [lenInclBadLoop, if_pos (hle hcur (Nat.le_of_lt hsize))]
    dsimp only
    rw [hincl, ← hcur']
    rw [← hcur'] at hend
    split
    · rw [show cur' = nand.size by omega]
    · have hnowrap := @hle cur' (by omega) (by omega)
      have hexcl := exclBad_next hcur hlt (by rw [← hcur']; omega)
      rw [← hcur'] at hexcl
      rw [hexcl]
      exact ih cur' (by omega) (by omega) (by omega)

theorem getLenInclBad_tooLong (hsmall : nand.size ≤ 4294967296) (hlength : length < 4294967296)
    (hsize : offset < nand.size) (hshort : (goodAddrs nand offset nand.size).length < length) :
    getLenInclBad nand offset length = u32 (nand.size - offset) := by
  have hstart : (goodAddrs nand offset offset).length = 0 := by
    rw [goodAddrs, usable_of_le (Nat.le_refl _), List.length_nil]
  have hloop := lenInclBadLoop_tooLong hsmall hlength hshort _ offset (Nat.le_refl _)
    (Nat.le_refl _) hsize
  rw [hstart, Nat.sub_self] at hloop
  exact hloop

/-- Behind the device the loop goes on to the first lookup that finds a good block. -/
theorem writeLoop_beyond (chip : Chip nand) (length : Nat) {left : Nat} (hleft : left ≠ 0)
    (buffer : List UInt8) (ram : Ram) :
    ∀ (d offset : Nat), nand.erasesize ∣ offset → nand.size ≤ offset →
      nandBlockIsbad nand (blockStart nand (offset + d * nand.erasesize)) = 0 →
        ∃ fuel r, writeLoop chip length fuel offset left buffer ram = some r ∧ r.rval ≠ 0 ∧
          r.ram = ram := by
  have hgood : ∀ offset, nand.size ≤ offset → nandBlockIsbad nand (blockStart nand offset) = 0 →
      ∃ fuel r, writeLoop chip length fuel offset left buffer ram = some r ∧ r.rval ≠ 0 ∧
        r.ram = ram := by
    intro offset hsize hseen
    have hroom := room_pos nand offset
    refine ⟨1, ⟨-einval, length - left, ram⟩, ?_, einval_ne, rfl⟩
    have hbeyond : nand.size < offset + if left < nand.erasesize - blockOffset nand offset then left
        else nand.erasesize - blockOffset nand offset := by
      split
      · omega
      · omega
    rw [writeLoop, if_neg hleft, if_neg (not_not.mpr hseen)]
    dsimp only
    rw [nandWrite, if_pos hbeyond, if_pos einval_ne]
  intro d
  induction d with
  | zero =>
    intro offset _ hsize hseen
    rw [Nat.zero_mul, Nat.add_zero] at hseen
    exact hgood offset hsize hseen
  | succ d ih =>
    intro offset hdvd hsize hseen
    by_cases hhere : nandBlockIsbad nand (blockStart nand offset) = 0
    · exact hgood offset hsize hhere
    · have hstep : nand.erasesize - blockOffset nand offset = nand.erasesize := by
        rw [blockOffset_eq, Nat.mod_eq_zero_of_dvd hdvd, Nat.sub_zero]
      obtain ⟨fuel, r, hloop, hr⟩ := ih (offset + nand.erasesize) (Nat.dvd_add hdvd (Nat.dvd_refl _))
        (by omega) (by rw [Nat.add_assoc, Nat.add_comm nand.erasesize, ← Nat.succ_mul]; exact hseen)
      refine ⟨fuel + 1, r, ?_, hr⟩
      rw [writeLoop, if_neg hleft, if_pos hhere, hstep]
      exact hloop

/-- Data that does not fit: the loop fills the good blocks, walks off the device and fails there. -/
theorem writeLoop_tooLong (chip : Chip nand) (length : Nat) (hsmall : nand.size ≤ 4294967296) {d : Nat}
    (hseen : nandBlockIsbad nand (blockStart nand (nand.size + d * nand.erasesize)) = 0) :
    ∀ (n offset left : Nat) (buffer : List UInt8) (ram : Ram), nand.size - offset ≤ n →
      offset ≤ nand.size → nand.writesize ∣ offset → buffer.length = left →
      (goodAddrs nand offset nand.size).length < left →
        ∃ fuel r, writeLoop chip length fuel offset left buffer ram = some r ∧ r.rval ≠ 0 ∧
          Touched nand ram.log r.ram.log := by
  have hlow := low_eq hsmall
  have hbeyond : ∀ (left : Nat) (buffer : List UInt8) (ram : Ram), left ≠ 0 →
      ∃ fuel r, writeLoop chip length fuel nand.size left buffer ram = some r ∧ r.rval ≠ 0 ∧
        Touched nand ram.log r.ram.log := by
    intro left buffer ram hleft
    obtain ⟨fuel, r, hloop, hrval, hram⟩ := writeLoop_beyond chip length hleft buffer ram d nand.size
      (erasesize_dvd_size nand) (Nat.le_refl _) hseen
    exact ⟨fuel, r, hloop, hrval, fun w hw => .inl (by rw [hram] at hw; exact hw)⟩
  intro n
  induction n with
  | zero =>
    intro offset left buffer ram hn hoffset _ _ hshort
    obtain rfl : offset = nand.size := by omega
    exact hbeyond left buffer ram (by omega)
  | succ n ih =>
    intro offset left buffer ram hn hoffset hdvd hbuf hshort
    rcases Nat.eq_or_lt_of_le hoffset with rfl | hlt
    · exact hbeyond left buffer ram (by omega)
    have hlt' : offset < low nand := by omega
    have hzero : left ≠ 0 := by omega
    have hroom := room_pos nand offset
    have hend := room_le hlt'
    have hnextDvd := Nat.dvd_add hdvd (dvd_room hdvd)
    rw [← hlow] at hshort
    cases hgood : nand.good (offset / nand.erasesize) with
    | false =>
      have hbad := isbad_of_bad hlt' hgood
      rw [goodAddrs_bad hlt' hgood, hlow] at hshort
      obtain ⟨fuel, r, hloop, hr⟩ := ih (offset + (nand.erasesize - blockOffset nand offset)) left
        buffer ram (by omega) (by omega) hnextDvd hbuf hshort
      refine ⟨fuel + 1, r, ?_, hr⟩
      rw [writeLoop, if_neg hzero, if_pos hbad]
      exact hloop
    | true =>
      have hhere := isbad_of_good hlt' hgood
      rw [goodAddrs_good hlt' hgood, List.length_append, List.length_range', hlow] at hshort
      have hfull : (if left < nand.erasesize - blockOffset nand offset then left
          else nand.erasesize - blockOffset nand offset) =
            nand.erasesize - blockOffset nand offset := if_neg (by omega)
      have hlen : (buffer.take (nand.erasesize - blockOffset nand offset)).length =
          nand.erasesize - blockOffset nand offset := by
        rw [List.length_take]
        omega
      have hbufLe : nand.erasesize - blockOffset nand offset ≤ buffer.length := by omega
      obtain ⟨hprog, hret⟩ := nandWrite_spec chip ram (hend.trans_eq hlow) hdvd (dvd_room hdvd) hbufLe
      have htouched := touched_block hprog hlt hgood hlen.le
      by_cases hstatus : (nandWrite chip ram offset
          (nand.erasesize - blockOffset nand offset) buffer).1 = 0
      · obtain ⟨fuel, r, hloop, hrval, hr⟩ := ih
          (offset + (nand.erasesize - blockOffset nand offset))
          (left - (nand.erasesize - blockOffset nand offset))
          (buffer.drop (nand.erasesize - blockOffset nand offset))
          (nandWrite chip ram offset (nand.erasesize - blockOffset nand offset) buffer).2.2
          (by omega) (by omega) hnextDvd (by rw [List.length_drop, hbuf]) (by omega)
        refine ⟨fuel + 1, r, ?_, hrval, htouched.trans hr⟩
        rw [writeLoop, if_neg hzero, if_neg hhere, hfull, if_neg (not_not.mpr hstatus), hret hstatus]
        exact hloop
      · refine ⟨1, ⟨_, length - left, _⟩, ?_, hstatus, htouched⟩
        rw [writeLoop, if_neg hzero, if_neg hhere, hfull, if_pos hstatus]

/-- Some lookup behind the device finds a good block: one of the device's, once the mask has cut
    the offset, or the table's entry behind its end. -/
theorem exists_lookup (hsmall : nand.size ≤ 4294967296)
    (h : (∃ block < nand.blocks, nand.good block = true) ∨
      (nand.size < 4294967296 ∧ nand.good nand.blocks = true)) :
    ∃ d, nandBlockIsbad nand (blockStart nand (nand.size + d * nand.erasesize)) = 0 := by
  have hpos := erasesize_pos nand
  rcases h with ⟨block, hblock, hgood⟩ | ⟨hsize, hgood⟩
  · have hblock' : block * nand.erasesize + nand.erasesize ≤ nand.size := by
      rw [← Nat.succ_mul]
      exact Nat.mul_le_mul_right _ hblock
    obtain ⟨k, hk⟩ := erasesize_dvd_mask nand
    -- the block's own offset, 4 GiB higher
    have hle : nand.blocks ≤ k + block := by
      have hmul : nand.blocks * nand.erasesize ≤ k * nand.erasesize := by
        rw [Nat.mul_comm k, ← hk]
        exact hsmall
      exact Nat.le_trans (Nat.le_of_mul_le_mul_right hmul hpos) (Nat.le_add_right _ _)
    refine ⟨k + block - nand.blocks, ?_⟩
    have hoffset : nand.size + (k + block - nand.blocks) * nand.erasesize =
        4294967296 + block * nand.erasesize := by
      rw [Nand.size, ← Nat.add_mul, Nat.add_sub_cancel' hle, Nat.add_mul, hk,
        Nat.mul_comm nand.erasesize]
    have hmod : (4294967296 + block * nand.erasesize) % 4294967296 = block * nand.erasesize := by
      rw [Nat.add_mod_left, Nat.mod_eq_of_lt (by omega)]
    rw [hoffset, isbad_blockStart, blockStart_eq, hmod, Nat.mul_div_cancel _ hpos]
    exact ⟨by omega, hgood⟩
  · refine ⟨0, ?_⟩
    rw [Nat.zero_mul, Nat.add_zero, isbad_blockStart, blockStart_eq, Nat.mod_eq_of_lt hsize,
      Nand.size, Nat.mul_div_cancel _ hpos]
    exact ⟨Nat.le_refl _, hgood⟩

/-- The length with bad blocks, a whole device of 4 GiB included, shows that the data is too long. -/
theorem u32_rest_ne (hsmall : nand.size ≤ 4294967296)
    (hshort : (goodAddrs nand offset nand.size).length < length) (hne : length ≠ nand.size - offset) :
    u32 (nand.size - offset) ≠ length := by
  rcases Nat.lt_or_ge (nand.size - offset) 4294967296 with hlt | hge
  · rw [u32_of_lt hlt]
    exact hne.symm
  · rw [show nand.size - offset = 4294967296 by omega]
    have hzero : u32 4294967296 = 0 := by decide
    omega

theorem skips_of_tooLong (hlength : buffer.length < 4294967296)
    (haligned : nand.writesize ∣ offset ∧ nand.writesize ∣ buffer.length)
    (hsize : offset < nand.size) (hsmall : nand.size ≤ 4294967296)
    (hshort : (goodAddrs nand offset nand.size).length < buffer.length)
    (hne : buffer.length ≠ nand.size - offset)
    (hgood : (∃ block < nand.blocks, nand.good block = true) ∨
      (nand.size < 4294967296 ∧ nand.good nand.blocks = true)) :
    Skips chip m offset buffer := by
  obtain ⟨d, hseen⟩ := exists_lookup hsmall hgood
  have hincl := getLenInclBad_tooLong hsmall hlength hsize hshort
  have hle : u32 (nand.size - offset) ≤ nand.size - offset := Nat.mod_le _ _
  have hslow := u32_rest_ne hsmall hshort hne
  obtain ⟨fuel, r, hloop, hrval, htouched⟩ := writeLoop_tooLong chip buffer.length hsmall hseen _
    offset buffer.length buffer ⟨m, []⟩ (Nat.le_refl _) (Nat.le_of_lt hsize) haligned.1 rfl hshort
  refine ⟨fuel, r, ?_, fun w hw => (htouched w hw).resolve_left List.not_mem_nil,
    fun h => absurd h hrval, fun h => absurd h hrval, fun _ => hrval⟩
  rw [nandWriteSkipBad_aligned chip fuel _ haligned, hincl, if_neg (by omega), if_neg hslow]
  exact hloop

end TooLong

-- ============================================================================
-- Where they do not
-- ============================================================================

/-- A chip on which every page can be written. -/
def perfectChip (nand : Nand) : Chip nand where
  writePage m page bs := (m.write (page * nand.writesize) (bs.take nand.writesize), true)
  writeProtected := false
  corrected _ := false
  writePage_outside := by
    intro m page bs x hx
    rw [Nat.succ_mul] at hx
    apply Mem.write_outside
    rw [List.length_take]
    omega
  writePage_holds := by
    intro m page bs hbs _
    rw [← hbs, List.take_length]
    exact Mem.read_write _

section Fails

variable {m : Mem UInt8} {offset : Nat} {buffer : List UInt8}

theorem nandDoWriteOps_perfect :
    ∀ (n : Nat) (ram : Ram) (page : Nat) (buf : List UInt8),
      (nandDoWriteOps (perfectChip nand) n ram page buf).1 = 0 := by
  intro n
  induction n with
  | zero => exact fun _ _ _ => rfl
  | succ n ih =>
    intro ram page buf
    rw [nandDoWriteOps]
    split
    · exact ih _ _ _
    · rename_i hfail
      exact absurd rfl hfail

theorem nandWrite_perfect (ram : Ram) {len : Nat} (hsize : offset + len ≤ nand.size) :
    (nandWrite (perfectChip nand) ram offset len buffer).1 = 0 := by
  rw [nandWrite, if_neg (by omega)]
  split
  · rfl
  · split
    · rename_i hwp
      exact absurd hwp Bool.false_ne_true
    · exact nandDoWriteOps_perfect _ _ _ _

/-- Without a good block to find, the loop does not end. -/
theorem writeLoop_none (chip : Chip nand) (length : Nat) {left : Nat} (hleft : left ≠ 0)
    (hbad : ∀ offset, nandBlockIsbad nand (blockStart nand offset) ≠ 0) :
    ∀ (fuel offset : Nat) (buffer : List UInt8) (ram : Ram),
      writeLoop chip length fuel offset left buffer ram = none := by
  intro fuel
  induction fuel with
  | zero => exact fun _ _ _ => rfl
  | succ fuel ih =>
    intro offset buffer ram
    rw [writeLoop, if_neg hleft, if_pos (hbad offset)]
    exact ih _ _ _

theorem lookup_bad
    (h : ¬ ((∃ block < nand.blocks, nand.good block = true) ∨
      (nand.size < 4294967296 ∧ nand.good nand.blocks = true))) (offset : Nat) :
    nandBlockIsbad nand (blockStart nand offset) ≠ 0 := by
  obtain ⟨hnone, hend⟩ := not_or.mp h
  intro hseen
  obtain ⟨hle, hgood⟩ := (isbad_blockStart nand offset).mp hseen
  rw [blockStart_eq, Nand.size] at hle
  have hblock := Nat.le_of_mul_le_mul_right hle (erasesize_pos nand)
  rcases Nat.eq_or_lt_of_le hblock with heq | hlt
  · refine hend ⟨?_, by rw [← heq]; exact hgood⟩
    have hdown := Nat.div_mul_le_self (offset % 4294967296) nand.erasesize
    rw [heq] at hdown
    exact Nat.lt_of_le_of_lt hdown (Nat.mod_lt _ (by decide))
  · exact hnone ⟨_, hlt, hgood⟩

/-- Outside the condition even a chip without a failing page goes wrong: it is written over bad
    blocks, or the loop does not end. -/
theorem not_skips_perfect (hlength : buffer.length < 4294967296) (hsmall : nand.size ≤ 4294967296)
    (h : ¬ Holdable nand offset buffer.length) :
    ¬ Skips (perfectChip nand) m offset buffer := by
  rintro ⟨fuel, r, hcall, hout⟩
  obtain ⟨hmisaligned, h⟩ := not_or.mp h
  obtain ⟨houtside, h⟩ := not_or.mp h
  obtain ⟨hunfit, hrest⟩ := not_or.mp h
  have haligned := not_not.mp hmisaligned
  have hsize : offset < nand.size := Nat.lt_of_not_le houtside
  have hshort := Nat.lt_of_not_le hunfit
  rw [low_eq hsmall] at hshort
  rw [nandWriteSkipBad_aligned _ fuel _ haligned,
    getLenInclBad_tooLong hsmall hlength hsize hshort] at hcall
  have hle : u32 (nand.size - offset) ≤ nand.size - offset := Nat.mod_le _ _
  rw [if_neg (by omega)] at hcall
  by_cases heq : buffer.length = nand.size - offset
  · rw [← heq, u32_of_lt hlength, if_pos rfl] at hcall
    refine hout.refused hshort ?_
    rw [← Option.some.inj hcall]
    exact nandWrite_perfect _ (by omega)
  · rw [if_neg (u32_rest_ne hsmall hshort heq),
      writeLoop_none _ _ (by omega) (lookup_bad fun hgood => hrest ⟨hsmall, heq, hgood⟩)] at hcall
    exact absurd hcall (Option.some_ne_none _).symm

end Fails

/-- **Skipping bad blocks.**  Under the condition the write ends, touches only good blocks inside
    the device, and, when it returns 0, what it wrote is read back; otherwise data that does not
    fit is refused.  On a device of up to 4 GiB the condition is necessary too. -/
theorem skips_iff_holdable (nand : Nand) (offset : Nat) (buffer : List UInt8)
    (hlength : buffer.length < 4294967296) :
    (Holdable nand offset buffer.length →
      ∀ (chip : Chip nand) (m : Mem UInt8), Skips chip m offset buffer) ∧
    (nand.size ≤ 4294967296 →
      (∀ (chip : Chip nand) (m : Mem UInt8), Skips chip m offset buffer) →
        Holdable nand offset buffer.length) := by
  constructor
  · intro h chip m
    by_cases haligned : nand.writesize ∣ offset ∧ nand.writesize ∣ buffer.length
    · by_cases hfits : buffer.length ≤ (goodAddrs nand offset (low nand)).length
      · exact skips_of_fits hlength haligned hfits
      · rcases h with hno | houtside | hno | ⟨hsmall, hne, hgood⟩
        · exact absurd haligned hno
        · exact skips_of_outside hlength haligned houtside
        · exact absurd hno hfits
        · rcases Nat.lt_or_ge offset nand.size with hsize | hsize
          · rw [low_eq hsmall] at hfits
            exact skips_of_tooLong hlength haligned hsize hsmall (Nat.lt_of_not_le hfits) hne hgood
          · exact skips_of_outside hlength haligned hsize
    · exact skips_of_misaligned haligned
  · intro hsmall hall
    by_contra h
    exact not_skips_perfect hlength hsmall h (hall (perfectChip nand) fun _ => 0)

instance (nand : Nand) (offset length : Nat) : Decidable (Holdable nand offset length) :=
  inferInstanceAs (Decidable (_ ∨ _))

/-- Three blocks of two pages, of which the middle one is bad. -/
def threeBlocks : Nand where
  eraseShift := 2
  writeShift := 1
  blocks := 3
  bbt block := block = 1
  writeShift_le := by decide
  eraseShift_lt := by decide

/-- A page of the first block and the last block hold three pages. -/
theorem skips_threeBlocks :
    Skips (perfectChip threeBlocks) (fun _ => 0) 2 [1, 2, 3, 4, 5, 6] :=
  (skips_iff_holdable threeBlocks 2 [1, 2, 3, 4, 5, 6] (by decide)).1
    (.inr (.inr (.inl (by decide)))) _ _

/-- Data as long as the device is written over the bad block. -/
theorem whole_device_not_skips :
    ¬ ∀ (nand : Nand) (chip : Chip nand) (m : Mem UInt8) (offset : Nat) (buffer : List UInt8),
      buffer.length < 4294967296 → nand.writesize ∣ offset → nand.writesize ∣ buffer.length →
        Skips chip m offset buffer := by
  intro hall
  have hnot : ¬ Skips (perfectChip threeBlocks) (fun _ => 0) 0 (List.replicate 12 7) :=
    not_skips_perfect (by decide) (by decide) (by decide)
  exact hnot (hall threeBlocks _ _ 0 _ (by decide) (by decide) (by decide))

end Uboot.Drivers.NandUtil
