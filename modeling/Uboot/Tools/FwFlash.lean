/-
  Uboot.Tools.FwFlash

  `flash_read_buf` and `flash_write_buf` of tools/env/fw_env.c on both kinds of flash:
  NAND, taken block by block with the bad ones skipped, and NOR, where all of the range
  is to be erased and written at once.

  The environment may begin anywhere in a sector, so the sectors around it are read, the
  environment is laid over them, and they are written back.  System calls succeed.
-/

import Uboot.Lib.Usable
import Uboot.Common.EnvNand

namespace Uboot.Tools.FwFlash

open Uboot.Lib Uboot.LibGeneric Uboot.Common

-- ============================================================================
-- Definitions from the source
-- ============================================================================

/-- `MTD_NORFLASH` and `MTD_NANDFLASH`. -/
inductive MtdType
  | nor
  | nand
deriving DecidableEq

/-- An entry of `envdevices` with the device it names. -/
structure FlashDev where
  mtdType : MtdType
  /-- `DEVESIZE`. -/
  eraseSize : Nat
  /-- `DEVOFFSET`. -/
  devOffset : Nat
  /-- `ENVSECTORS`. -/
  envSectors : Nat
  /-- `MEMGETBADBLOCK`, by the number of the block. -/
  badBlock : Nat → Bool
  eraseSize_pos : 0 < eraseSize

variable (d : FlashDev)

/-- The block of this number may be used. -/
def FlashDev.good (block : Nat) : Bool := !(d.mtdType = .nand && d.badBlock block)

/-- `flash_bad_block` -/
def flashBadBlock (blockstart : Nat) : Bool := !d.good (blockstart / d.eraseSize)

/-- `offset & ~(DEVESIZE (dev) - 1)`, of a size that is a power of two. -/
def blockOf (offset : Nat) : Nat := offset / d.eraseSize * d.eraseSize

/-- `top_of_range`, of NAND and of every write. -/
def topOfRange : Nat := blockOf d d.devOffset + d.envSectors * d.eraseSize

/-- Fuel for the loops: every round but the last goes on by a block. -/
def rounds (blockstart : Nat) : Nat := (topOfRange d - blockstart) / d.eraseSize + 2

/-- The loop of `flash_read_buf`: the bytes processed, or `none` for the return of -1. -/
def readLoop (blocklen top count : Nat) (m : Mem UInt8) :
    Nat → Nat → Nat → Nat → List UInt8 → Option (List UInt8)
  | 0, _, _, _, _ => none
  | fuel + 1, blockstart, blockSeek, readlen, processed =>
    if processed.length < count then
      let rc := flashBadBlock d blockstart
      if top < blockstart + blockSeek + readlen then none
      else if rc then
        readLoop blocklen top count m fuel (blockstart + blocklen) blockSeek readlen processed
      else
        let processed := processed ++ m.read (blockstart + blockSeek) readlen
        readLoop blocklen top count m fuel (blockstart + blocklen) 0
          (min blocklen (count - processed.length)) processed
    else some processed

/-- `flash_read_buf`: what it reads into the buffer, whose length it returns. -/
def flashReadBuf (m : Mem UInt8) (count offset : Nat) : Option (List UInt8) :=
  let blockstart := blockOf d offset
  let blockSeek := offset - blockstart
  match d.mtdType with
  | .nand =>
    readLoop d d.eraseSize (topOfRange d) count m (rounds d blockstart) blockstart blockSeek
      (min count (d.eraseSize - blockSeek)) []
  | .nor =>
    readLoop d 0 (offset + count) count m (rounds d blockstart) blockstart blockSeek count []

/-- The loop of `flash_write_buf`: each round erases and writes `erasesize` bytes, and
    counts a block. -/
def writeLoop (erasesize top writeTotal : Nat) (data : Mem UInt8) :
    Nat → Nat → Nat → Mem UInt8 → Option Nat × Mem UInt8
  | 0, _, _, m => (none, m)
  | fuel + 1, blockstart, processed, m =>
    if processed < writeTotal then
      let rc := flashBadBlock d blockstart
      if top < blockstart + erasesize then (none, m)
      else if rc then
        writeLoop erasesize top writeTotal data fuel (blockstart + d.eraseSize) processed m
      else
        writeLoop erasesize top writeTotal data fuel (blockstart + d.eraseSize)
          (processed + d.eraseSize)
          (nandWrite (m.fill blockstart erasesize 0xFF) blockstart (data.read processed erasesize))
    else (some processed, m)

/-- `write_total`: from the start of the first block to the end of the last. -/
def writeTotal (count offset : Nat) : Nat :=
  (offset - blockOf d offset + count + d.eraseSize - 1) / d.eraseSize * d.eraseSize

/-- `flash_write_buf`: what it returns, `none` for -1, and the flash.  `ram` is the memory
    that `data` points to, but for what is stored there: that of `malloc`, or what lies
    behind `buf`. -/
def flashWriteBuf (m ram : Mem UInt8) (buf : List UInt8) (offset : Nat) : Option Nat × Mem UInt8 :=
  let top := topOfRange d
  let eraseOffset := blockOf d offset
  let eraseLen := top - eraseOffset
  let blockSeek := offset - eraseOffset
  let total := writeTotal d buf.length offset
  let erasesize := if d.mtdType = .nand then d.eraseSize else eraseLen
  if buf.length < total then
    match flashReadBuf d m total eraseOffset with
    | none => (none, m)
    | some old =>
      if old.length ≠ total then (none, m)
      else
        writeLoop d erasesize top total ((ram.write 0 old).write blockSeek buf) (rounds d eraseOffset)
          eraseOffset 0 m
  else writeLoop d erasesize top total (ram.write 0 buf) (rounds d eraseOffset) eraseOffset 0 m

-- ============================================================================
-- Where the environment is
-- ============================================================================

/-- The bytes of the good sectors from that of `offset` to the end of the range. -/
def area (offset : Nat) : List Nat := usable d.eraseSize d.good (blockOf d offset) (topOfRange d)

/-- The bytes of `count` bytes of data at `offset`. -/
def places (count offset : Nat) : List Nat :=
  ((area d offset).drop (offset - blockOf d offset)).take count

/-- The range has good sectors for all that is written. -/
def Enough (count offset : Nat) : Prop := writeTotal d count offset ≤ (area d offset).length

/-- What is asked of both functions: the write succeeds, what was written is read, and
    every other byte stays. -/
structure Stores (m ram : Mem UInt8) (buf : List UInt8) (offset : Nat) : Prop where
  succeeds : (flashWriteBuf d m ram buf offset).1 ≠ none
  reads : flashReadBuf d (flashWriteBuf d m ram buf offset).2 buf.length offset = some buf
  keeps : ∀ x, x ∉ places d buf.length offset → (flashWriteBuf d m ram buf offset).2 x = m x

-- ============================================================================
-- Blocks
-- ============================================================================

section Blocks

variable {d : FlashDev} {blockstart top offset : Nat}

theorem dvd_blockOf (d : FlashDev) (offset : Nat) : d.eraseSize ∣ blockOf d offset :=
  Nat.dvd_mul_left ..

theorem dvd_topOfRange (d : FlashDev) : d.eraseSize ∣ topOfRange d :=
  Nat.dvd_add (dvd_blockOf d _) (Nat.dvd_mul_left ..)

theorem blockOf_le (d : FlashDev) (offset : Nat) : blockOf d offset ≤ offset := Nat.div_mul_le_self ..

theorem lt_blockOf (d : FlashDev) (offset : Nat) : offset < blockOf d offset + d.eraseSize :=
  Nat.lt_div_mul_add d.eraseSize_pos

theorem blockOf_of_dvd (h : d.eraseSize ∣ offset) : blockOf d offset = offset := Nat.div_mul_cancel h

/-- A block that begins in the range ends in it. -/
theorem block_le_top (hstart : d.eraseSize ∣ blockstart) (htop : d.eraseSize ∣ top)
    (hlt : blockstart < top) : blockstart + d.eraseSize ≤ top := by
  have h := block_end_le htop hlt
  rwa [Nat.mod_eq_zero_of_dvd hstart, Nat.sub_zero] at h

theorem usable_bad (hstart : d.eraseSize ∣ blockstart) (htop : d.eraseSize ∣ top)
    (hlt : blockstart < top) (hbad : flashBadBlock d blockstart = true) :
    usable d.eraseSize d.good blockstart top =
      usable d.eraseSize d.good (blockstart + d.eraseSize) top := by
  have h := @usable_bad_block d.eraseSize d.good blockstart top htop hlt (by simpa [flashBadBlock] using hbad)
  rwa [Nat.mod_eq_zero_of_dvd hstart, Nat.sub_zero] at h

theorem usable_good (hstart : d.eraseSize ∣ blockstart) (htop : d.eraseSize ∣ top)
    (hlt : blockstart < top) (hgood : ¬ flashBadBlock d blockstart = true) :
    usable d.eraseSize d.good blockstart top =
      List.range' blockstart d.eraseSize ++
        usable d.eraseSize d.good (blockstart + d.eraseSize) top := by
  have h := @usable_good_block d.eraseSize d.good blockstart top htop hlt (by simpa [flashBadBlock] using hgood)
  rwa [Nat.mod_eq_zero_of_dvd hstart, Nat.sub_zero] at h

/-- Where bytes are left there is a block left. -/
theorem lt_of_usable {n : Nat} (hn : 0 < n) (h : n ≤ (usable d.eraseSize d.good blockstart top).length) :
    blockstart < top := by
  by_contra hge
  rw [usable_of_le (Nat.le_of_not_lt hge), List.length_nil] at h
  omega

/-- Fuel for one block less. -/
theorem fuel_next {fuel : Nat} (hle : blockstart + d.eraseSize ≤ top)
    (hfuel : top - blockstart < (fuel + 1) * d.eraseSize) :
    top - (blockstart + d.eraseSize) < fuel * d.eraseSize := by
  rw [Nat.add_mul, Nat.one_mul] at hfuel
  omega

theorem fuel_rounds (d : FlashDev) (blockstart : Nat) :
    topOfRange d - blockstart < rounds d blockstart * d.eraseSize := by
  have h := Nat.lt_div_mul_add (a := topOfRange d - blockstart) d.eraseSize_pos
  rw [rounds, Nat.add_mul]
  omega

/-- NOR flash has no bad blocks. -/
theorem good_nor (hd : d.mtdType = .nor) (block : Nat) : d.good block = true := by simp [FlashDev.good, hd]

theorem area_nor (hd : d.mtdType = .nor) (offset : Nat) :
    area d offset = List.range' (blockOf d offset) (topOfRange d - blockOf d offset) :=
  usable_of_good fun _ _ _ => good_nor hd _

end Blocks

-- ============================================================================
-- Reading
-- ============================================================================

section Read

variable {d : FlashDev} {m : Mem UInt8} {fuel blockstart top offset seek count : Nat}

theorem take_range' (a n k : Nat) : (List.range' a n).take k = List.range' a (min n k) := by
  rcases Nat.le_total n k with h | h
  · rw [List.take_range'_of_length_le h, Nat.min_eq_left h]
  · rw [List.take_range'_of_length_ge h, Nat.min_eq_right h]

/-- **The read loop.**  By induction on the blocks left: a bad one leaves what is to be read
    as it was, of a good one the loop takes what is left of it, or of the data. -/
theorem readLoop_eq {processed : List UInt8} (hstart : d.eraseSize ∣ blockstart)
    (htop : d.eraseSize ∣ top) (hseek : seek < d.eraseSize)
    (hfuel : top - blockstart < fuel * d.eraseSize) (hle : processed.length ≤ count)
    (hfits : seek + (count - processed.length) ≤ (usable d.eraseSize d.good blockstart top).length) :
    readLoop d d.eraseSize top count m fuel blockstart seek
        (min (d.eraseSize - seek) (count - processed.length)) processed =
      some (processed ++ (((usable d.eraseSize d.good blockstart top).drop seek).take
        (count - processed.length)).map m) := by
  induction fuel generalizing blockstart seek processed with
  | zero => exact absurd hfuel (by simp)
  | succ fuel ih =>
    rw [readLoop]
    by_cases hgo : processed.length < count
    · have hlt : blockstart < top := lt_of_usable (by omega) hfits
      have hend := block_le_top hstart htop hlt
      have hnext : d.eraseSize ∣ blockstart + d.eraseSize := Nat.dvd_add hstart (Nat.dvd_refl _)
      dsimp only
      rw [if_pos hgo, if_neg (by omega)]
      by_cases hbad : flashBadBlock d blockstart = true
      · rw [usable_bad hstart htop hlt hbad] at hfits ⊢
        rw [if_pos hbad]
        exact ih hnext hseek (fuel_next hend hfuel) hle hfits
      · rw [usable_good hstart htop hlt hbad, List.length_append, List.length_range'] at hfits
        rw [usable_good hstart htop hlt hbad, if_neg hbad]
        have hblock : ((List.range' blockstart d.eraseSize).drop seek).length = d.eraseSize - seek := by
          simp
        rw [List.drop_append_of_le_length (by rw [List.length_range']; omega), List.take_append, hblock,
          List.drop_range', Nat.mul_one, List.map_append, take_range', Mem.map_range']
        have hlen : (processed ++ m.read (blockstart + seek)
            (min (d.eraseSize - seek) (count - processed.length))).length =
              processed.length + min (d.eraseSize - seek) (count - processed.length) := by
          rw [List.length_append, Mem.read_length]
        have hrest := @ih (blockstart + d.eraseSize) 0 (processed ++ m.read (blockstart + seek)
            (min (d.eraseSize - seek) (count - processed.length))) hnext d.eraseSize_pos
          (fuel_next hend hfuel) (by omega) (by omega)
        have hleft : count - (processed.length + min (d.eraseSize - seek) (count - processed.length)) =
            count - processed.length - (d.eraseSize - seek) := by omega
        rw [hlen, Nat.sub_zero, List.drop_zero, hleft] at hrest
        rw [hlen, hleft, hrest, List.append_assoc]
    · rw [if_neg hgo, Nat.sub_eq_zero_of_le (Nat.le_of_not_lt hgo), List.take_zero, List.map_nil,
        List.append_nil]

/-- `flash_read_buf` reads the data where they are. -/
theorem flashReadBuf_eq (m : Mem UInt8)
    (hfits : offset - blockOf d offset + count ≤ (area d offset).length) :
    flashReadBuf d m count offset = some ((places d count offset).map m) := by
  have hseek := lt_blockOf d offset
  have hblock := blockOf_le d offset
  rw [flashReadBuf]
  cases htype : d.mtdType with
  | nand =>
    have h := @readLoop_eq d m (rounds d (blockOf d offset)) (blockOf d offset) (topOfRange d)
      (offset - blockOf d offset) count [] (dvd_blockOf d offset) (dvd_topOfRange d) (by omega)
      (fuel_rounds d _) (Nat.zero_le _) hfits
    rw [List.length_nil, Nat.sub_zero, Nat.min_comm] at h
    exact h
  | nor =>
    -- one round takes all, a second one ends
    have hplaces : (places d count offset).map m = m.read offset count := by
      rw [area_nor htype, List.length_range'] at hfits
      rw [places, area_nor htype, List.drop_range', Nat.mul_one, take_range', Mem.map_range',
        Nat.add_sub_cancel' hblock, Nat.min_eq_right (by omega)]
    have hgood : flashBadBlock d (blockOf d offset) = false := by simp [flashBadBlock, good_nor htype]
    rw [hplaces]
    dsimp only
    rw [rounds, readLoop]
    by_cases hcount : 0 < count
    · rw [List.length_nil, if_pos hcount]
      dsimp only
      rw [if_neg (by omega), hgood, if_neg (by simp), readLoop, List.nil_append, Mem.read_length,
        if_neg (Nat.lt_irrefl _), show blockOf d offset + (offset - blockOf d offset) = offset by omega]
    · obtain rfl : count = 0 := by omega
      rw [List.length_nil, if_neg (Nat.lt_irrefl _)]
      rfl

end Read

-- ============================================================================
-- Writing
-- ============================================================================

section Write

variable {d : FlashDev} {m ram data : Mem UInt8} {fuel blockstart top offset total processed count : Nat}
variable {buf : List UInt8}

/-- To erase and to program is to store. -/
theorem nandWrite_fill {a n : Nat} {bs : List UInt8} (h : bs.length = n) :
    nandWrite (m.fill a n 0xFF) a bs = m.write a bs := by
  funext x
  by_cases hx : x < a ∨ a + bs.length ≤ x
  · rw [nandWrite_outside hx, Mem.fill_outside _ (by omega), Mem.write_outside _ hx]
  · obtain ⟨i, rfl⟩ := Nat.exists_eq_add_of_le (show a ≤ x by omega)
    have hi : i < bs.length := by omega
    have hread := @read_nandWrite (m.fill a n 0xFF) a bs fun j hj =>
      Mem.fill_inside _ (by omega) (by omega)
    have hat := (List.ext_getElem_iff.mp hread).2 i (by rw [Mem.read_length]; exact hi) hi
    rw [Mem.getElem_read] at hat
    rw [hat, Mem.write_inside _ hi]

/-- **The write loop**, taking a block in every round: it stores the data in the good bytes
    in front, and nothing else. -/
theorem writeLoop_stores (hstart : d.eraseSize ∣ blockstart) (htop : d.eraseSize ∣ top)
    (htotal : d.eraseSize ∣ total) (hprocessed : d.eraseSize ∣ processed)
    (hfuel : top - blockstart < fuel * d.eraseSize) (hle : processed ≤ total)
    (hfits : total - processed ≤ (usable d.eraseSize d.good blockstart top).length) :
    ∃ m', writeLoop d d.eraseSize top total data fuel blockstart processed m = (some total, m') ∧
      ((usable d.eraseSize d.good blockstart top).take (total - processed)).map m' =
        data.read processed (total - processed) ∧
      ∀ x, x ∉ (usable d.eraseSize d.good blockstart top).take (total - processed) → m' x = m x := by
  induction fuel generalizing blockstart processed m with
  | zero => exact absurd hfuel (by simp)
  | succ fuel ih =>
    rw [writeLoop]
    by_cases hgo : processed < total
    · have hlt : blockstart < top := lt_of_usable (by omega) hfits
      have hend := block_le_top hstart htop hlt
      have hnext : d.eraseSize ∣ blockstart + d.eraseSize := Nat.dvd_add hstart (Nat.dvd_refl _)
      have hmore : d.eraseSize ≤ total - processed :=
        Nat.le_of_dvd (by omega) (Nat.dvd_sub htotal hprocessed)
      dsimp only
      rw [if_pos hgo, if_neg (by omega)]
      by_cases hbad : flashBadBlock d blockstart = true
      · rw [usable_bad hstart htop hlt hbad] at hfits ⊢
        rw [if_pos hbad]
        exact ih hnext hprocessed (fuel_next hend hfuel) hle hfits
      · rw [usable_good hstart htop hlt hbad, List.length_append, List.length_range'] at hfits
        rw [usable_good hstart htop hlt hbad, if_neg hbad, nandWrite_fill (Mem.read_length ..)]
        obtain ⟨m', hrun, hstored, hkept⟩ :=
          ih (m := m.write blockstart (data.read processed d.eraseSize)) hnext
            (Nat.dvd_add hprocessed (Nat.dvd_refl _)) (fuel_next hend hfuel) (by omega) (by omega)
        have hleft : total - (processed + d.eraseSize) = total - processed - d.eraseSize := by omega
        rw [hleft] at hstored hkept
        -- the later rounds are behind this block
        have hbehind : ∀ x, x < blockstart + d.eraseSize →
            m' x = m.write blockstart (data.read processed d.eraseSize) x := by
          intro x hx
          refine hkept x fun hmem => ?_
          have hge := (mem_usable.mp (List.mem_of_mem_take hmem)).1.1
          omega
        refine ⟨m', hrun, ?_, fun x hx => ?_⟩
        · have hblock : m'.read blockstart d.eraseSize = data.read processed d.eraseSize := by
            have hwrite := @Mem.read_write _ m blockstart (data.read processed d.eraseSize)
            rw [Mem.read_length] at hwrite
            rw [Mem.read_congr fun x _ hx => hbehind x hx, hwrite]
          have hsplit : total - processed = d.eraseSize + (total - processed - d.eraseSize) := by omega
          rw [List.take_append, List.length_range', List.map_append, take_range', Mem.map_range',
            Nat.min_eq_left hmore, hstored, hblock, ← Mem.read_add, ← hsplit]
        · rw [List.take_append, List.length_range', List.mem_append, not_or,
            List.take_range'_of_length_le hmore, List.mem_range'_1] at hx
          rw [hkept x hx.2, Mem.write_outside _ (by rw [Mem.read_length]; omega)]
    · have hdone : total = processed := by omega
      rw [if_neg hgo, hdone, Nat.sub_self, List.take_zero]
      exact ⟨m, rfl, rfl, fun _ _ => rfl⟩

/-- The sectors that are written hold the data and what is around them. -/
theorem le_writeTotal (d : FlashDev) (count offset : Nat) :
    offset - blockOf d offset + count ≤ writeTotal d count offset := by
  have h := Nat.lt_div_mul_add (a := offset - blockOf d offset + count + d.eraseSize - 1) d.eraseSize_pos
  rw [writeTotal]
  omega

theorem dvd_writeTotal (d : FlashDev) (count offset : Nat) :
    d.eraseSize ∣ writeTotal d count offset := Nat.dvd_mul_left ..

/-- A part of some cells is replaced. -/
theorem replaced {front part behind : List Nat} {m m' : Mem UInt8} (hlen : part.length = buf.length)
    (h : (front ++ part ++ behind).map m' = front.map m ++ buf ++ behind.map m) :
    part.map m' = buf ∧ ∀ x, x ∈ front ∨ x ∈ behind → m' x = m x := by
  rw [List.map_append, List.map_append] at h
  obtain ⟨hfront, hbehind⟩ := List.append_inj h (by
    rw [List.length_append, List.length_append, List.length_map, List.length_map, List.length_map, hlen])
  obtain ⟨hfront, hpart⟩ := List.append_inj hfront (by rw [List.length_map, List.length_map])
  refine ⟨hpart, fun x hx => ?_⟩
  rcases hx with hx | hx
  · exact List.map_inj_left.mp hfront x hx
  · exact List.map_inj_left.mp hbehind x hx

/-- `flash_read_buf` of the sectors that are to be written. -/
theorem flashReadBuf_sectors (m : Mem UInt8) (henough : Enough d count offset) :
    flashReadBuf d m (writeTotal d count offset) (blockOf d offset) =
      some (((area d offset).take (writeTotal d count offset)).map m) := by
  have hblock := blockOf_of_dvd (dvd_blockOf d offset)
  rw [flashReadBuf_eq m (by rw [hblock, Nat.sub_self, Nat.zero_add, area, hblock]; exact henough),
    places, area, hblock, Nat.sub_self, List.drop_zero]
  rfl

/-- The data that `flash_write_buf` writes: the sectors as they were, `buf` laid over them. -/
theorem read_data {old : List UInt8} {seek : Nat} (hold : old.length = total)
    (hfits : seek + buf.length ≤ total) :
    ((ram.write 0 old).write seek buf).read 0 total =
      old.take seek ++ buf ++ old.drop (seek + buf.length) := by
  have hread := @Mem.read_write _ ram 0 old
  rw [hold] at hread
  rw [Mem.read_write_inside _ (Nat.zero_le _) (by omega), Nat.sub_zero, Nat.zero_add,
    ← Mem.take_read _ (show seek ≤ total by omega), hread]
  congr 1
  have hdrop := Mem.drop_read (ram.write 0 old) (a := 0) (n := total) (i := seek + buf.length) hfits
  rw [hread, Nat.zero_add] at hdrop
  exact hdrop.symm

/-- **Taking a block in every round, `flash_write_buf` stores.** -/
theorem stores_of_blocks (henough : Enough d buf.length offset)
    (herase : (if d.mtdType = .nand then d.eraseSize else topOfRange d - blockOf d offset) = d.eraseSize) :
    Stores d m ram buf offset := by
  have hle := le_writeTotal d buf.length offset
  have henough' : writeTotal d buf.length offset ≤ (area d offset).length := henough
  have hread := flashReadBuf_sectors m henough
  generalize hseek : offset - blockOf d offset = seek at hle
  generalize htotal : writeTotal d buf.length offset = total at hle henough' hread
  generalize hsectors : (area d offset).take total = sectors at hread
  have hlen : sectors.length = total := by
    rw [← hsectors]
    exact List.length_take_of_le henough'
  -- what the loop is given, whichever branch is taken
  obtain ⟨data, hrun, hdata⟩ : ∃ data : Mem UInt8,
      flashWriteBuf d m ram buf offset =
        writeLoop d d.eraseSize (topOfRange d) total data (rounds d (blockOf d offset))
          (blockOf d offset) 0 m ∧
      data.read 0 total =
        (sectors.take seek).map m ++ buf ++ (sectors.drop (seek + buf.length)).map m := by
    simp only [flashWriteBuf, herase, hseek, htotal, hread, List.map_take, List.map_drop]
    split
    · rw [if_neg (by rw [List.length_map, hlen]; exact fun h => h rfl)]
      exact ⟨_, rfl, read_data (by rw [List.length_map, hlen]) hle⟩
    · obtain rfl : total = buf.length := by omega
      obtain rfl : seek = 0 := by omega
      refine ⟨_, rfl, ?_⟩
      rw [List.take_zero, List.nil_append, Nat.zero_add, Mem.read_write,
        List.drop_of_length_le (by rw [List.length_map, hlen]), List.append_nil]
  have hdvd : d.eraseSize ∣ total := htotal ▸ dvd_writeTotal d _ _
  obtain ⟨m', hloop, hstored, hkept⟩ :=
    @writeLoop_stores d m data (rounds d (blockOf d offset)) (blockOf d offset) (topOfRange d) total 0
      (dvd_blockOf d offset) (dvd_topOfRange d) hdvd (Nat.dvd_zero _) (fuel_rounds d _)
      (Nat.zero_le _) henough'
  rw [Nat.sub_zero, ← area, hsectors] at hstored hkept
  -- the sectors in three parts: in front of the data, the data, behind them
  have hplaces : places d buf.length offset = (sectors.drop seek).take buf.length := by
    rw [places, hseek, ← hsectors, List.drop_take, List.take_take, Nat.min_eq_left (by omega)]
  have hsplit : sectors.take seek ++ places d buf.length offset ++ sectors.drop (seek + buf.length) =
      sectors := by
    rw [hplaces, ← List.take_add, List.take_append_drop]
  obtain ⟨hpart, hrest⟩ := @replaced buf (sectors.take seek) (places d buf.length offset)
    (sectors.drop (seek + buf.length)) m m'
    (by rw [hplaces, List.length_take, List.length_drop]; omega)
    (by rw [hsplit, hstored, hdata])
  exact
    { succeeds := by
        rw [hrun, hloop]
        exact Option.some_ne_none _
      reads := by
        rw [hrun, hloop, flashReadBuf_eq m' (by omega), hpart]
      keeps := by
        intro x hx
        rw [hrun, hloop]
        by_cases hmem : x ∈ sectors
        · rw [← hsplit, List.mem_append, List.mem_append] at hmem
          exact hrest x (by grind)
        · exact hkept x hmem }

end Write

-- ============================================================================
-- NOR flash
-- ============================================================================

section Nor

variable {d : FlashDev} {m data : Mem UInt8} {count offset total : Nat}

/-- The first round erases and writes all of the range. -/
theorem writeLoop_nor (hd : d.mtdType = .nor) (htotal : 0 < total)
    (hlt : blockOf d offset < topOfRange d) :
    writeLoop d (topOfRange d - blockOf d offset) (topOfRange d) total data
        (rounds d (blockOf d offset)) (blockOf d offset) 0 m =
      writeLoop d (topOfRange d - blockOf d offset) (topOfRange d) total data
        ((topOfRange d - blockOf d offset) / d.eraseSize + 1) (blockOf d offset + d.eraseSize) d.eraseSize
        (m.write (blockOf d offset) (data.read 0 (topOfRange d - blockOf d offset))) := by
  have hgood : flashBadBlock d (blockOf d offset) = false := by simp [flashBadBlock, good_nor hd]
  rw [rounds, writeLoop, if_pos htotal]
  dsimp only
  rw [if_neg (by omega), hgood, if_neg (by simp), nandWrite_fill (Mem.read_length ..), Nat.zero_add]

/-- With data left, the second round finds itself at the end of the range. -/
theorem writeLoop_nor_aborts (hd : d.mtdType = .nor) (htotal : d.eraseSize < total)
    (hlt : blockOf d offset < topOfRange d) :
    (writeLoop d (topOfRange d - blockOf d offset) (topOfRange d) total data
      (rounds d (blockOf d offset)) (blockOf d offset) 0 m).1 = none := by
  have hpos := d.eraseSize_pos
  rw [writeLoop_nor hd (by omega) hlt, writeLoop, if_pos htotal]
  dsimp only
  rw [if_pos (by omega)]

/-- Data of one sector are written with all of the range. -/
theorem writeLoop_nor_one (hd : d.mtdType = .nor) (htotal : total = d.eraseSize)
    (hlt : blockOf d offset < topOfRange d) :
    writeLoop d (topOfRange d - blockOf d offset) (topOfRange d) total data
        (rounds d (blockOf d offset)) (blockOf d offset) 0 m =
      (some d.eraseSize,
        m.write (blockOf d offset) (data.read 0 (topOfRange d - blockOf d offset))) := by
  have hpos := d.eraseSize_pos
  rw [writeLoop_nor hd (by omega) hlt, writeLoop, htotal, if_neg (Nat.lt_irrefl _)]

/-- `flash_write_buf` of flash that holds zeros, with ones in the memory behind the data,
    fails or leaves a one in the second sector of the range. -/
theorem not_stores_nor (hd : d.mtdType = .nor) (henough : Enough d count offset)
    (htotal : writeTotal d count offset ≠ 0) (htop : topOfRange d ≠ blockOf d offset + d.eraseSize) :
    ¬ Stores d (fun _ => 0) (fun _ => 1) (List.replicate count 0) offset := by
  have hpos := d.eraseSize_pos
  have hlt : blockOf d offset < topOfRange d := lt_of_usable (Nat.pos_of_ne_zero htotal) henough
  have hend := block_le_top (dvd_blockOf d offset) (dvd_topOfRange d) hlt
  have hend := block_le_top (Nat.dvd_add (dvd_blockOf d offset) (Nat.dvd_refl _)) (dvd_topOfRange d)
    (Nat.lt_of_le_of_ne hend htop.symm)
  have hsize := Nat.le_of_dvd (Nat.pos_of_ne_zero htotal) (dvd_writeTotal d count offset)
  have hle := le_writeTotal d count offset
  have hlen : (List.replicate count (0 : UInt8)).length = count := List.length_replicate
  have hread := flashReadBuf_sectors (fun _ => 0) henough
  -- the ones begin where the sectors that are written end
  obtain ⟨data, hrun, hdata⟩ : ∃ data : Mem UInt8,
      flashWriteBuf d (fun _ => 0) (fun _ => 1) (List.replicate count 0) offset =
        writeLoop d (topOfRange d - blockOf d offset) (topOfRange d) (writeTotal d count offset) data
          (rounds d (blockOf d offset)) (blockOf d offset) 0 (fun _ => 0) ∧
      data (writeTotal d count offset) = 1 := by
    have hold : (((area d offset).take (writeTotal d count offset)).map fun _ => (0 : UInt8)).length =
        writeTotal d count offset := by
      rw [List.length_map]
      exact List.length_take_of_le henough
    simp only [flashWriteBuf, hlen, hd, reduceCtorEq, if_false, hread]
    split
    · rw [if_neg fun h => h hold]
      exact ⟨_, rfl, by
        rw [Mem.write_outside _ (.inr (by rw [hlen]; exact hle)), Mem.write_outside _ (.inr (by omega))]⟩
    · exact ⟨_, rfl, by rw [Mem.write_outside _ (.inr (by omega))]⟩
  intro h
  rcases Nat.eq_or_lt_of_le hsize with hone | hmore
  · have hkeeps := h.keeps (blockOf d offset + d.eraseSize) (by
      rw [places, area_nor hd, hlen, List.drop_range', Nat.mul_one, take_range', List.mem_range'_1]
      omega)
    have hlong : d.eraseSize < (data.read 0 (topOfRange d - blockOf d offset)).length := by
      rw [Mem.read_length]
      omega
    rw [hrun, writeLoop_nor_one hd hone.symm hlt] at hkeeps
    dsimp only at hkeeps
    rw [Mem.write_inside _ hlong, Mem.getElem_read, Nat.zero_add, hone, hdata] at hkeeps
    exact absurd hkeeps (by decide)
  · refine h.succeeds ?_
    rw [hrun]
    exact writeLoop_nor_aborts hd hmore hlt

/-- Where there is nothing to write the flash stays. -/
theorem stores_nothing {ram : Mem UInt8} {buf : List UInt8} (hzero : writeTotal d buf.length offset = 0) :
    Stores d m ram buf offset := by
  have hle := le_writeTotal d buf.length offset
  have hnil : buf = [] := List.eq_nil_of_length_eq_zero (by omega)
  have hrun : flashWriteBuf d m ram buf offset = (some 0, m) := by
    simp only [flashWriteBuf, hzero, Nat.not_lt_zero, if_false]
    rw [rounds, writeLoop, if_neg (Nat.lt_irrefl 0)]
  exact
    { succeeds := by
        rw [hrun]
        exact Option.some_ne_none 0
      reads := by
        rw [hrun, flashReadBuf_eq m (by omega), places, hnil, List.length_nil, List.take_zero]
        rfl
      keeps := by
        intro x _
        rw [hrun] }

/-- **The environment on flash.** With enough good sectors in the range, what is written
    is read back and nothing else changes, exactly if the flash is NAND, or there is
    nothing to write, or the range ends with the first sector written. -/
theorem stores_iff (henough : Enough d count offset) :
    (∀ (m ram : Mem UInt8) (buf : List UInt8), buf.length = count → Stores d m ram buf offset) ↔
      d.mtdType = .nand ∨ writeTotal d count offset = 0 ∨
        topOfRange d = blockOf d offset + d.eraseSize := by
  constructor
  · intro h
    cases hd : d.mtdType with
    | nand => exact .inl rfl
    | nor =>
      by_contra hnot
      simp only [reduceCtorEq, false_or, not_or] at hnot
      exact not_stores_nor hd henough hnot.1 hnot.2 (h _ _ _ List.length_replicate)
  · rintro h m ram buf rfl
    by_cases hd : d.mtdType = .nand
    · exact stores_of_blocks henough (if_pos hd)
    · rcases h with h | hzero | htop
      · exact absurd h hd
      · exact stores_nothing hzero
      · refine stores_of_blocks henough ?_
        rw [if_neg hd, htop, Nat.add_sub_cancel_left]

end Nor

instance (d : FlashDev) (count offset : Nat) : Decidable (Enough d count offset) := by
  unfold Enough
  infer_instance

/-- A device with sectors of 32 bytes and four of them for the environment, the second of
    which would be bad. -/
def fourSectors (mtdType : MtdType) : FlashDev where
  mtdType
  eraseSize := 32
  devOffset := 64
  envSectors := 4
  badBlock block := block = 3
  eraseSize_pos := Nat.succ_pos _

theorem stores_nand_four :
    Stores (fourSectors .nand) (fun _ => 0) (fun _ => 1) (List.replicate 40 7) 80 :=
  (stores_iff (by decide)).mpr (.inl rfl) _ _ _ List.length_replicate

/-- An environment in two of the sectors of NOR flash. -/
theorem not_stores_nor_four :
    Enough (fourSectors .nor) 40 80 ∧
      ¬ Stores (fourSectors .nor) (fun _ => 0) (fun _ => 1) (List.replicate 40 0) 80 := by
  have henough : Enough (fourSectors .nor) 40 80 := by decide +kernel
  exact ⟨henough, not_stores_nor rfl henough (by decide) (by decide)⟩

end Uboot.Tools.FwFlash
