/-
  Uboot.LibGeneric.Crc32

  The checksum of lib_generic/crc32.c on a little-endian machine: the table that
  `make_crc_table` fills, `crc32_no_comp` with its bytes up to the next word
  boundary, its words and its last bytes, and `crc32`.

  An environment is checked at another address than it was summed at, so the
  result that matters is that the address of the buffer plays no part.
-/

import Mathlib.Data.UInt

namespace Uboot.LibGeneric

/-! ## Definitions from the source -/

/-- The terms of the polynomial but x^32, `p` of `make_crc_table`. -/
def crcTerms : List UInt32 := [0, 1, 2, 4, 5, 7, 8, 10, 11, 12, 16, 22, 23, 26]

/-- The exclusive-or pattern made from `p`. -/
def crcPoly : UInt32 := crcTerms.foldl (fun poly n => poly ||| (1 : UInt32) <<< (31 - n)) 0

def crcShift (c : UInt32) : UInt32 := if c &&& 1 ≠ 0 then crcPoly ^^^ c >>> 1 else c >>> 1

/-- `crc_table[n]` as `make_crc_table` fills it. -/
def crcTable (n : UInt32) : UInt32 := Nat.repeat crcShift 8 n

example : crcPoly = 0xedb88320 ∧ crcTable 1 = 0x77073096 ∧ crcTable 255 = 0x2d02ef8d := by
  decide +kernel

/-- `DO_CRC(x)` for little-endian words. -/
def doCrc (crc x : UInt32) : UInt32 := crcTable ((crc ^^^ x) &&& 255) ^^^ crc >>> 8

/-- `DO_CRC` of one byte. -/
def crcByte (crc : UInt32) (b : UInt8) : UInt32 := doCrc crc b.toUInt32

/-- The loop of `crc32_no_comp` over the bytes before the first word boundary. -/
def crcAlignLoop : Nat → UInt32 → List UInt8 → UInt32 × List UInt8
  | _, crc, [] => (crc, [])
  | addr, crc, b :: bs =>
    if addr % 4 = 0 then (crc, b :: bs) else crcAlignLoop (addr + 1) (crcByte crc b) bs

/-- Four bytes loaded as one word. -/
def crcWord (b0 b1 b2 b3 : UInt8) : UInt32 :=
  UInt32.ofNat (b0.toNat + 256 * b1.toNat + 65536 * b2.toNat + 16777216 * b3.toNat)

/-- The word loop of `crc32_no_comp`, then its last few bytes. -/
def crcWordLoop : UInt32 → List UInt8 → UInt32
  | crc, b0 :: b1 :: b2 :: b3 :: bs =>
    crcWordLoop (doCrc (doCrc (doCrc (doCrc (crc ^^^ crcWord b0 b1 b2 b3) 0) 0) 0) 0) bs
  | crc, bs => bs.foldl crcByte crc

/-- `crc32_no_comp` of a buffer at `addr`. -/
def crc32NoComp (addr : Nat) (crc : UInt32) (buf : List UInt8) : UInt32 :=
  let r := crcAlignLoop addr crc buf
  crcWordLoop r.1 r.2

/-- `crc32` of a buffer at `addr`. -/
def crc32At (addr : Nat) (crc : UInt32) (buf : List UInt8) : UInt32 :=
  crc32NoComp addr (crc ^^^ 0xffffffff) buf ^^^ 0xffffffff

/-! ## The address of the buffer plays no part -/

/-- A word is folded in from its low byte on: one round takes the low byte and
    leaves the rest of the word, moved down. -/
theorem doCrc_zero_xor (crc w : UInt32) :
    doCrc (crc ^^^ w) 0 = doCrc crc (w &&& 255) ^^^ w >>> 8 := by
  have hidx : (crc ^^^ w ^^^ 0) &&& 255 = (crc ^^^ (w &&& 255)) &&& 255 := by
    apply UInt32.toBitVec_inj.mp
    ext i
    simp only [UInt32.toBitVec_and, UInt32.toBitVec_xor, BitVec.getElem_and, BitVec.getElem_xor]
    cases (UInt32.toBitVec 255)[i] <;> simp
  have hshr : (crc ^^^ w) >>> 8 = crc >>> 8 ^^^ w >>> 8 := by
    apply UInt32.toBitVec_inj.mp
    simp only [UInt32.toBitVec_shiftRight, UInt32.toBitVec_xor, BitVec.ushiftRight_eq',
      BitVec.ushiftRight_xor_distrib]
  rw [doCrc, doCrc, hidx, hshr, UInt32.xor_assoc]

theorem toNat_shiftRight_eight (w : UInt32) : (w >>> 8).toNat = w.toNat / 256 := by
  simp [UInt32.toNat_shiftRight, Nat.shiftRight_eq_div_pow]

theorem toNat_and_low (w : UInt32) : (w &&& 255).toNat = w.toNat % 256 := by
  rw [UInt32.toNat_and]
  exact Nat.and_two_pow_sub_one_eq_mod w.toNat 8

/-- The low byte of a word, and what a shift by a byte leaves of it. -/
theorem low_byte {w : UInt32} {b : UInt8} {n : Nat} (h : w.toNat = b.toNat + 256 * n) :
    w &&& 255 = b.toUInt32 ∧ (w >>> 8).toNat = n := by
  have hb := b.toNat_lt
  constructor
  · apply UInt32.toNat_inj.mp
    rw [toNat_and_low, UInt8.toNat_toUInt32]
    omega
  · rw [toNat_shiftRight_eight]
    omega

/-- Four rounds on a word are four bytes. -/
theorem doCrc_word (crc : UInt32) (b0 b1 b2 b3 : UInt8) :
    doCrc (doCrc (doCrc (doCrc (crc ^^^ crcWord b0 b1 b2 b3) 0) 0) 0) 0 =
      [b0, b1, b2, b3].foldl crcByte crc := by
  have hw : (crcWord b0 b1 b2 b3).toNat =
      b0.toNat + 256 * (b1.toNat + 256 * (b2.toNat + 256 * (b3.toNat + 256 * 0))) := by
    have h0 := b0.toNat_lt
    have h1 := b1.toNat_lt
    have h2 := b2.toNat_lt
    have h3 := b3.toNat_lt
    rw [crcWord, UInt32.toNat_ofNat']
    omega
  generalize crcWord b0 b1 b2 b3 = w at hw
  obtain ⟨e0, h1⟩ := low_byte hw
  obtain ⟨e1, h2⟩ := low_byte h1
  obtain ⟨e2, h3⟩ := low_byte h2
  obtain ⟨e3, h4⟩ := low_byte h3
  have hz : w >>> 8 >>> 8 >>> 8 >>> 8 = 0 := UInt32.toNat_inj.mp h4
  rw [doCrc_zero_xor, doCrc_zero_xor, doCrc_zero_xor, doCrc_zero_xor, e0, e1, e2, e3, hz,
    UInt32.xor_zero]
  rfl

theorem crcWordLoop_eq (crc : UInt32) (buf : List UInt8) :
    crcWordLoop crc buf = buf.foldl crcByte crc := by
  fun_induction crcWordLoop crc buf with
  | case1 crc b0 b1 b2 b3 bs ih =>
    rw [ih, doCrc_word]
    simp only [List.foldl_cons, List.foldl_nil]
  | case2 => rfl

theorem crcAlignLoop_eq (addr : Nat) (crc : UInt32) (buf : List UInt8) :
    (crcAlignLoop addr crc buf).2.foldl crcByte (crcAlignLoop addr crc buf).1 =
      buf.foldl crcByte crc := by
  fun_induction crcAlignLoop addr crc buf with
  | case1 => rfl
  | case2 => rfl
  | case3 addr crc b bs h ih => rw [ih, List.foldl_cons]

/-- **The checksum reads the buffer byte by byte**, wherever the buffer stands. -/
theorem crc32At_eq (addr : Nat) (crc : UInt32) (buf : List UInt8) :
    crc32At addr crc buf = buf.foldl crcByte (crc ^^^ 0xffffffff) ^^^ 0xffffffff := by
  rw [crc32At, crc32NoComp, crcWordLoop_eq, crcAlignLoop_eq]

/-- Two copies of a buffer have one checksum. -/
theorem crc32At_addr (addr addr' : Nat) (crc : UInt32) (buf : List UInt8) :
    crc32At addr crc buf = crc32At addr' crc buf := by
  rw [crc32At_eq, crc32At_eq]

example : crc32At 1 0 ("123456789".toList.map fun c => UInt8.ofNat c.toNat) = 0xcbf43926 := by
  decide +kernel

end Uboot.LibGeneric
