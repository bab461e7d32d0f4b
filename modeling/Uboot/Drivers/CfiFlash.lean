/-
  Uboot.Drivers.CfiFlash

  Writing to a CFI flash: `write_buff` of drivers/mtd/cfi_flash.c and the functions under it.

  Programming is what the chip does with the words it is given: each becomes the AND of what was
  there and what is written, and the status that follows is good.  The command set is one of those
  that the driver knows.  A little-endian build is one without CONFIG_SYS_WRITE_SWAPPED_DATA.
-/

import Uboot.Lib.ByteOrder
import Uboot.Lib.Extent
import Uboot.Lib.Mem

namespace Uboot.Drivers.CfiFlash

open Uboot.Lib

def ERR_OK : Int := 0
def ERR_NOT_ERASED : Int := 2

-- ============================================================================
-- The chip
-- ============================================================================

/-- FLASH_CFI_8BIT to FLASH_CFI_64BIT -/
inductive Width
  | bits8
  | bits16
  | bits32
  | bits64

/-- The shift of a width. -/
def Width.shift : Width → Nat
  | bits8 => 0
  | bits16 => 1
  | bits32 => 2
  | bits64 => 3

/-- The number of bytes of a width. -/
def Width.bytes (w : Width) : Nat := 2 ^ w.shift

theorem Width.bytes_pos (w : Width) : 0 < w.bytes := Nat.two_pow_pos _

theorem Width.and_sub_one (w : Width) (x : Nat) : x &&& (w.bytes - 1) = x % w.bytes := Nat.and_two_pow_sub_one_eq_mod x _

/-- What `flash_info_t` says of how a chip is written, and how the driver is built. -/
structure FlashInfo where
  portwidth : Width
  chipwidth : Width
  /-- bytes in the write buffer of a chip -/
  bufferSize : Nat
  byteOrder : ByteOrder
  /-- CONFIG_SYS_FLASH_USE_BUFFER_WRITE -/
  useBufferWrite : Bool
  bufferSize_ok : useBufferWrite = true → bufferSize ≠ 1 →
    0 < portwidth.bytes / chipwidth.bytes * bufferSize ∧
      portwidth.bytes ∣ portwidth.bytes / chipwidth.bytes * bufferSize

namespace FlashInfo

variable (info : FlashInfo)

/-- The width of the port, in bytes. -/
abbrev width : Nat := info.portwidth.bytes

/-- `buffered_size` -/
def bufferedSize : Nat := info.portwidth.bytes / info.chipwidth.bytes * info.bufferSize

/-- `cfiword_t`, as far as the port is wide. -/
abbrev Word : Type := BitVec (8 * info.width)

/-- `flash_read8` to `flash_read64`, from the flash or from memory. -/
def flashRead (m : Mem UInt8) (addr : Nat) : info.Word := info.byteOrder.ofBytes info.width fun o => m (addr + o)

/-- `flash_add_byte`; in a word of one byte it leaves `c` only. -/
def flashAddByte (cword : info.Word) (c : UInt8) : info.Word := info.byteOrder.shiftIn cword c

/-- The chip programs a word. -/
def program (m : Mem UInt8) (dest : Nat) (cword : info.Word) : Mem UInt8 := fun x =>
  if dest ≤ x ∧ x < dest + info.width then m x &&& info.byteOrder.byteAt cword (x - dest) else m x

-- ============================================================================
-- flash_write_cfiword, flash_write_cfibuffer
-- ============================================================================

/-- `flash_write_cfiword` -/
def flashWriteCfiword (m : Mem UInt8) (dest : Nat) (cword : info.Word) : Mem UInt8 × Int :=
  if info.flashRead m dest &&& cword = cword then (info.program m dest cword, ERR_OK) else (m, ERR_NOT_ERASED)

/-- The first loop of `flash_write_cfibuffer`: its `flag`. -/
def checkBuffer (m src : Mem UInt8) : Nat → Nat → Nat → Bool
  | 0, _, _ => false
  | cnt + 1, dst2, s =>
    if info.flashRead m dst2 &&& info.flashRead src s = info.flashRead src s then
      true -- `flag` ends the loop
    else checkBuffer m src cnt (dst2 + info.width) (s + info.width)

/-- The chip programs the words of its buffer. -/
def programBuffer (m src : Mem UInt8) : Nat → Nat → Nat → Mem UInt8
  | 0, _, _ => m
  | cnt + 1, dst, s =>
    programBuffer (info.program m dst (info.flashRead src s)) src cnt (dst + info.width) (s + info.width)

/-- `flash_write_cfibuffer`, with the bytes from `src` number `s` on. -/
def flashWriteCfibuffer (m src : Mem UInt8) (dest s len : Nat) : Mem UInt8 × Int :=
  let cnt := len >>> info.portwidth.shift
  if info.checkBuffer m src cnt dest s then (info.programBuffer m src cnt dest s, ERR_OK) else (m, ERR_NOT_ERASED)

theorem shiftRight_shift (len : Nat) : len >>> info.portwidth.shift = len / info.width := Nat.shiftRight_eq_div_pow _ _

/-- A buffer that is written has a word at least. -/
theorem width_le_of_cfibuffer {m src : Mem UInt8} {dest s len : Nat}
    (h : ¬(info.flashWriteCfibuffer m src dest s len).2 ≠ ERR_OK) : info.width ≤ len := by
  by_contra hlt
  rw [flashWriteCfibuffer, shiftRight_shift, Nat.div_eq_of_lt (Nat.lt_of_not_le hlt)] at h
  rw [checkBuffer, if_neg Bool.false_ne_true] at h
  exact h (show ERR_NOT_ERASED ≠ ERR_OK by decide)

-- ============================================================================
-- write_buff
-- ============================================================================

/-- What `write_buff` leaves: the flash, its value, and the buffers that were written. -/
structure Written where
  flash : Mem UInt8
  ret : Int
  buffers : List Extent

/-- `cword` after `flash_add_byte` for each of the bytes.  `cword.l = 0` before them clears up to 32
    bits; `init` is what a word has then, by its address. -/
def cword (init : Nat → info.Word) (wp : Nat) (bytes : List UInt8) : info.Word := bytes.foldl info.flashAddByte (init wp)

/-- The tail of `write_buff`. -/
def writeTail (init : Nat → info.Word) (src m : Mem UInt8) (wp s cnt : Nat) : Mem UInt8 × Int :=
  if cnt = 0 then (m, 0)
  else
    let k := min info.width cnt
    info.flashWriteCfiword m wp (info.cword init wp (src.read s k ++ m.read (wp + k) (info.width - k)))

/-- `i` of the loop: up to the next boundary of the write buffer, or up to the end. -/
def bufferLen (wp cnt : Nat) : Nat :=
  let i := info.bufferedSize - wp % info.bufferedSize
  if i > cnt then cnt else i

/-- The loop of `write_buff` over the aligned part, and the tail. -/
def writeAligned (init : Nat → info.Word) (src m : Mem UInt8) (wp s cnt : Nat) : Written :=
  if _hcnt : info.width ≤ cnt then
    if info.useBufferWrite = false ∨ info.bufferSize = 1 then
      let r := info.flashWriteCfiword m wp (info.cword init wp (src.read s info.width))
      if r.2 ≠ ERR_OK then ⟨r.1, r.2, []⟩
      else writeAligned init src r.1 (wp + info.width) (s + info.width) (cnt - info.width)
    else
      let i := info.bufferLen wp cnt
      let r := info.flashWriteCfibuffer m src wp s i
      if _hret : r.2 ≠ ERR_OK then ⟨r.1, r.2, []⟩
      else
        let k := i - (i &&& (info.width - 1))
        let rest := writeAligned init src r.1 (wp + k) (s + k) (cnt - k)
        { rest with buffers := ⟨wp, (i >>> info.portwidth.shift) * info.width⟩ :: rest.buffers }
  else
    let r := info.writeTail init src m wp s cnt
    ⟨r.1, r.2, []⟩
termination_by cnt
decreasing_by
  · have hpos : 0 < info.width := info.portwidth.bytes_pos
    omega
  · have hpos : 0 < info.width := info.portwidth.bytes_pos
    have hword := info.width_le_of_cfibuffer _hret
    have hmod : info.bufferLen wp cnt % info.portwidth.bytes < info.width := Nat.mod_lt _ hpos
    rw [info.portwidth.and_sub_one]
    omega

/-- `write_buff` -/
def writeBuff (init : Nat → info.Word) (src m : Mem UInt8) (addr cnt : Nat) : Written :=
  let wp := addr - (addr &&& (info.width - 1))
  let aln := addr - wp
  if aln ≠ 0 then
    let k := min (info.width - aln) cnt
    let rest := cnt - k
    let fill := if rest = 0 then info.width - (aln + k) else 0
    let bytes := m.read wp aln ++ src.read 0 k ++ m.read (wp + (aln + k)) fill
    let r := info.flashWriteCfiword m wp (info.cword init wp bytes)
    if r.2 ≠ ERR_OK then ⟨r.1, r.2, []⟩ else info.writeAligned init src r.1 (wp + (aln + k + fill)) k rest
  else info.writeAligned init src m wp 0 cnt

end FlashInfo

end Uboot.Drivers.CfiFlash
