/-
  Uboot.Common.Eeprom

  How `eeprom_read` and `eeprom_write` of common/cmd_eeprom.c split an access into I2C transfers.

  `i2c_read` and `i2c_write` are parameters, by what they return.  The build is one without
  CONFIG_SPI, CONFIG_SYS_I2C_FRAM and CONFIG_SYS_EEPROM_X40430.
-/

import Mathlib.Data.Nat.Bitwise
import Uboot.Lib.Extent

namespace Uboot.Common.Eeprom

open Uboot.Lib (Extent)

-- ============================================================================
-- The loop
-- ============================================================================

/-- The configuration of a board. -/
structure Config where
  /-- CONFIG_SYS_I2C_EEPROM_ADDR_LEN -/
  addrLen : Nat
  /-- I2C_RXTX_LEN -/
  rxtxLen : Nat
  /-- CONFIG_SYS_EEPROM_PAGE_WRITE_BITS, where it is defined -/
  pageWriteBits : Option Nat
  addrLen_eq : addrLen = 1 ∨ addrLen = 2
  rxtxLen_pos : 0 < rxtxLen
  pageWriteBits_le : ∀ b, pageWriteBits = some b → b ≤ 8

namespace Config

variable (cfg : Config)

/-- `addr[0]`: the block number with the device address in it. -/
def chip (devAddr offset : Nat) : UInt8 :=
  (if cfg.addrLen = 1 then .ofNat (offset >>> 8) else .ofNat (offset >>> 16)) ||| .ofNat devAddr

/-- The number of bytes in `addr`. -/
def alen : Nat := if cfg.addrLen = 1 then 2 else 3

/-- `maxlen` of a read. -/
def readMaxlen (offset : Nat) : Nat :=
  let blkOff := offset &&& 0xff
  let maxlen := 0x100 - blkOff
  if maxlen > cfg.rxtxLen then cfg.rxtxLen else maxlen

/-- `maxlen` of a write. -/
def writeMaxlen (offset : Nat) : Nat :=
  let blkOff := offset &&& 0xff
  let maxlen :=
    match cfg.pageWriteBits with
    | some bits => (1 <<< bits) - (blkOff &&& ((1 <<< bits) - 1))
    | none => 0x100 - blkOff
  if maxlen > cfg.rxtxLen then cfg.rxtxLen else maxlen

/-- The size of a write page: that of a block, where no page bits are defined. -/
def pageSize : Nat :=
  match cfg.pageWriteBits with
  | some bits => 2 ^ bits
  | none => 0x100

/-- What is left of a page of `size` bytes, up to what a transfer may have. -/
def room (size offset : Nat) : Nat := min (size - offset % size) cfg.rxtxLen

theorem readMaxlen_eq (offset : Nat) : cfg.readMaxlen offset = cfg.room 0x100 offset := by
  have hblk : offset &&& 0xff = offset % 0x100 := Nat.and_two_pow_sub_one_eq_mod offset 8
  rw [readMaxlen, room, hblk]
  split <;> omega

theorem writeMaxlen_eq (offset : Nat) : cfg.writeMaxlen offset = cfg.room cfg.pageSize offset := by
  have hblk : offset &&& 0xff = offset % 2 ^ 8 := Nat.and_two_pow_sub_one_eq_mod offset 8
  rw [writeMaxlen, room, pageSize, hblk]
  split
  · rename_i bits hbits
    have hdvd : 2 ^ bits ∣ 2 ^ 8 := Nat.pow_dvd_pow 2 (cfg.pageWriteBits_le bits hbits)
    rw [Nat.one_shiftLeft, Nat.and_two_pow_sub_one_eq_mod, Nat.mod_mod_of_dvd _ hdvd]
    split <;> omega
  · split <;> omega

theorem pageSize_pos : 0 < cfg.pageSize := by
  rw [pageSize]
  split
  · exact Nat.two_pow_pos _
  · decide

theorem room_pos {size : Nat} (hsize : 0 < size) (offset : Nat) : 0 < cfg.room size offset :=
  Nat.lt_min.mpr ⟨Nat.sub_pos_of_lt (Nat.mod_lt offset hsize), cfg.rxtxLen_pos⟩

theorem readMaxlen_pos (offset : Nat) : 0 < cfg.readMaxlen offset :=
  cfg.readMaxlen_eq offset ▸ cfg.room_pos (by decide) offset

theorem writeMaxlen_pos (offset : Nat) : 0 < cfg.writeMaxlen offset :=
  cfg.writeMaxlen_eq offset ▸ cfg.room_pos cfg.pageSize_pos offset

end Config

/-- A call `i2c_read (chip, addr, alen, buffer, len)`, or one of `i2c_write`. -/
structure Transfer where
  chip : UInt8
  addr : Nat
  alen : Nat
  buffer : Nat
  len : Nat
  deriving DecidableEq

/-- The calls, in order, and what the function returns. -/
structure Access where
  transfers : List Transfer
  rcode : Int

/-- The loop of both functions, with the bound of a transfer that each computes. -/
def transferLoop (cfg : Config) (maxlen : Nat → Nat) (hmaxlen : ∀ offset, 0 < maxlen offset) (i2c : Transfer → Int)
    (devAddr last offset buffer : Nat) (rcode : Int) : Access :=
  if _h : offset < last then
    let len := if last - offset > maxlen offset then maxlen offset else last - offset
    let t : Transfer := ⟨cfg.chip devAddr offset, offset, cfg.alen - 1, buffer, len⟩
    let rest := transferLoop cfg maxlen hmaxlen i2c devAddr last (offset + len) (buffer + len)
      (if i2c t ≠ 0 then 1 else rcode)
    ⟨t :: rest.transfers, rest.rcode⟩
  else ⟨[], rcode⟩
termination_by last - offset
decreasing_by
  have hpos := hmaxlen offset
  split <;> omega

/-- `eeprom_read` -/
def eepromRead (cfg : Config) (i2cRead : Transfer → Int) (devAddr offset buffer cnt : Nat) : Access :=
  transferLoop cfg cfg.readMaxlen cfg.readMaxlen_pos i2cRead devAddr ((offset + cnt) % 2 ^ 32) offset buffer 0

/-- `eeprom_write` -/
def eepromWrite (cfg : Config) (i2cWrite : Transfer → Int) (devAddr offset buffer cnt : Nat) : Access :=
  transferLoop cfg cfg.writeMaxlen cfg.writeMaxlen_pos i2cWrite devAddr ((offset + cnt) % 2 ^ 32) offset buffer 0

-- ============================================================================
-- The split
-- ============================================================================

/-- The number of the EEPROM's address selector for a byte, next to the device address. -/
def selector (cfg : Config) (devAddr offset : Nat) : UInt8 :=
  .ofNat (offset / 256 ^ cfg.addrLen) ||| .ofNat devAddr

/-- The transfers cover the bytes from `offset` up to `last` of the EEPROM and those of the buffer, in
    order, and none goes from a page of `size` bytes to the next. -/
structure Splits (cfg : Config) (size devAddr offset last buffer : Nat) (ts : List Transfer) : Prop where
  offsets : Extent.Chain offset (ts.map fun t => ⟨t.addr, t.len⟩) last
  buffers : Extent.Chain buffer (ts.map fun t => ⟨t.buffer, t.len⟩) (buffer + (last - offset))
  each : ∀ t ∈ ts, 0 < t.len ∧ t.len ≤ cfg.rxtxLen ∧ t.addr / size = (t.addr + t.len - 1) / size ∧
    t.chip = selector cfg devAddr t.addr ∧ t.alen = cfg.addrLen

variable {cfg : Config} {maxlen : Nat → Nat} {hmaxlen : ∀ offset, 0 < maxlen offset} {i2c : Transfer → Int}
  {size devAddr last offset buffer len : Nat} {rcode : Int}

theorem chip_eq_selector : cfg.chip devAddr offset = selector cfg devAddr offset := by
  rw [Config.chip, selector]
  obtain h | h := cfg.addrLen_eq
  · rw [h, if_pos rfl, Nat.shiftRight_eq_div_pow]
    rfl
  · rw [h, if_neg (by decide), Nat.shiftRight_eq_div_pow]
    rfl

theorem alen_sub_one : cfg.alen - 1 = cfg.addrLen := by
  rw [Config.alen]
  obtain h | h := cfg.addrLen_eq <;> rw [h] <;> rfl

/-- A transfer no longer than what is left of its page stays there. -/
theorem same_page (hsize : 0 < size) (hpos : 0 < len) (hlen : len ≤ size - offset % size) :
    offset / size = (offset + len - 1) / size := by
  have hmod := Nat.mod_lt offset hsize
  have hdiv := Nat.div_add_mod offset size
  have hsplit : offset + len - 1 = offset % size + (len - 1) + size * (offset / size) := by omega
  have hwithin : (offset % size + (len - 1)) / size = 0 := Nat.div_eq_of_lt (by omega)
  rw [hsplit, Nat.add_mul_div_left _ _ hsize, hwithin, Nat.zero_add]

theorem splits_transferLoop (hsize : 0 < size) (hroom : ∀ offset, maxlen offset = cfg.room size offset)
    (hle : offset ≤ last) :
    Splits cfg size devAddr offset last buffer
      (transferLoop cfg maxlen hmaxlen i2c devAddr last offset buffer rcode).transfers := by
  induction hleft : last - offset using Nat.strong_induction_on generalizing offset buffer rcode with
  | _ left ih =>
    rw [transferLoop]
    split
    · rename_i hlt
      have hpos := hmaxlen offset
      have hbound : maxlen offset ≤ size - offset % size ∧ maxlen offset ≤ cfg.rxtxLen := by
        rw [hroom]
        exact ⟨Nat.min_le_left _ _, Nat.min_le_right _ _⟩
      dsimp only
      -- the length of the transfer
      generalize hlen : (if last - offset > maxlen offset then maxlen offset else last - offset) = len
      have hlenpos : 0 < len ∧ len ≤ last - offset ∧ len ≤ maxlen offset := by
        rw [← hlen]
        split <;> omega
      obtain ⟨hlenpos, hlenlast, hlenmax⟩ := hlenpos
      have hrest := @ih (last - (offset + len)) (by omega) (offset + len) (buffer + len)
        (if i2c ⟨cfg.chip devAddr offset, offset, cfg.alen - 1, buffer, len⟩ ≠ 0 then 1 else rcode) (by omega) rfl
      refine ⟨⟨rfl, hrest.offsets⟩, ⟨rfl, ?_⟩, List.forall_mem_cons.mpr ⟨?_, hrest.each⟩⟩
      · have hend : buffer + len + (last - (offset + len)) = buffer + (last - offset) := by omega
        exact hend ▸ hrest.buffers
      · exact ⟨hlenpos, hlenmax.trans hbound.2, same_page hsize hlenpos (hlenmax.trans hbound.1), chip_eq_selector,
          alen_sub_one⟩
    · rename_i hge
      obtain rfl : offset = last := by omega
      refine ⟨rfl, ?_, fun _ ht => (List.not_mem_nil ht).elim⟩
      exact (Nat.add_zero buffer).symm.trans (congrArg (buffer + ·) (Nat.sub_self offset).symm)

theorem rcode_transferLoop :
    (transferLoop cfg maxlen hmaxlen i2c devAddr last offset buffer rcode).rcode = 0 ↔
      rcode = 0 ∧ ∀ t ∈ (transferLoop cfg maxlen hmaxlen i2c devAddr last offset buffer rcode).transfers, i2c t = 0 := by
  induction hleft : last - offset using Nat.strong_induction_on generalizing offset buffer rcode with
  | _ left ih =>
    rw [transferLoop]
    split
    · rename_i hlt
      have hpos := hmaxlen offset
      dsimp only
      generalize hlen : (if last - offset > maxlen offset then maxlen offset else last - offset) = len
      have hlenpos : 0 < len := by
        rw [← hlen]
        split <;> omega
      rw [List.forall_mem_cons, @ih (last - (offset + len)) (by omega) (offset + len) (buffer + len) _ rfl]
      split
      · rename_i hfail
        exact iff_of_false (fun h => Int.one_ne_zero h.1) fun h => hfail h.2.1
      · rename_i hok
        rw [and_iff_right (not_not.mp hok)]
    · exact (and_iff_left fun _ ht => (List.not_mem_nil ht).elim).symm

/-- One address byte, transfers of up to 128 bytes and write pages of 16. -/
def pages16 : Config where
  addrLen := 1
  rxtxLen := 128
  pageWriteBits := some 4
  addrLen_eq := .inl rfl
  rxtxLen_pos := by decide
  pageWriteBits_le b hb := by
    cases hb
    decide

end Uboot.Common.Eeprom
