/-
  Uboot.Drivers.MmcCsd

  The fields of a 128-bit card register, as `UNSTUFF_BITS` of drivers/mmc/mmc.c cuts them out
  of the four words of a response.
-/

import Mathlib.Data.Nat.Bitwise

namespace Uboot.Drivers.MmcCsd

/-- The four words of a response; the first has the highest bits. -/
structure Resp where
  w0 : UInt32
  w1 : UInt32
  w2 : UInt32
  w3 : UInt32

/-- `resp[i]` -/
def Resp.word (resp : Resp) : Nat → UInt32
  | 0 => resp.w0
  | 1 => resp.w1
  | 2 => resp.w2
  | _ => resp.w3

/-- `UNSTUFF_BITS (resp, start, size)` -/
def unstuffBits (resp : Resp) (start size : Nat) : UInt32 :=
  let mask : UInt32 := (if size < 32 then 1 <<< UInt32.ofNat size else 0) - 1
  let off := 3 - start / 32
  let shft := start % 32
  let res := resp.word off >>> UInt32.ofNat shft
  let res := if size + shft > 32 then res ||| resp.word (off - 1) <<< UInt32.ofNat ((32 - shft) % 32) else res
  res &&& mask

/-- The register as a number. -/
def Resp.register (resp : Resp) : Nat :=
  4294967296 * (4294967296 * (4294967296 * resp.w0.toNat + resp.w1.toNat) + resp.w2.toNat) + resp.w3.toNat

/-- The bits from `start` on, as the standards number them. -/
def Resp.field (resp : Resp) (start size : Nat) : Nat := resp.register / 2 ^ start % 2 ^ size

theorem Resp.field_lt (resp : Resp) (start size : Nat) : resp.field start size < 2 ^ size :=
  Nat.mod_lt _ (Nat.two_pow_pos size)

/-- A bit of the register is a bit of one of the words. -/
theorem Resp.testBit_register (resp : Resp) {j : Nat} (h : j < 128) :
    resp.register.testBit j = (resp.word (3 - j / 32)).toNat.testBit (j % 32) := by
  have hstep : ∀ (a : Nat) (w : UInt32) (i : Nat), (4294967296 * a + w.toNat).testBit i =
      if i < 32 then w.toNat.testBit i else a.testBit (i - 32) := by
    intro a w i
    exact Nat.testBit_two_pow_mul_add a w.toNat_lt i
  rw [Resp.register, hstep, hstep, hstep]
  by_cases h1 : j < 32
  · rw [if_pos h1, Nat.div_eq_of_lt h1, Nat.mod_eq_of_lt h1]
    rfl
  by_cases h2 : j < 64
  · rw [if_neg h1, if_pos (by omega), show j / 32 = 1 by omega, show j % 32 = j - 32 by omega]
    rfl
  by_cases h3 : j < 96
  · rw [if_neg h1, if_neg (by omega), if_pos (by omega), show j / 32 = 2 by omega, show j % 32 = j - 32 - 32 by omega]
    rfl
  · rw [if_neg h1, if_neg (by omega), if_neg (by omega), show j / 32 = 3 by omega,
      show j % 32 = j - 32 - 32 - 32 by omega]
    rfl

theorem mask_toNat {size : Nat} (h : size ≤ 32) :
    ((if size < 32 then (1 : UInt32) <<< UInt32.ofNat size else 0) - 1).toNat = 2 ^ size - 1 := by
  by_cases hlt : size < 32
  · have hpow : 2 ^ size < 2 ^ 32 := Nat.pow_lt_pow_right (by decide) hlt
    have hone : ((1 : UInt32) <<< UInt32.ofNat size).toNat = 2 ^ size := by
      have hnum : (UInt32.ofNat size).toNat % 32 = size := by
        rw [UInt32.toNat_ofNat']
        omega
      rw [UInt32.toNat_shiftLeft, hnum, show (1 : UInt32).toNat = 1 from rfl, Nat.one_shiftLeft,
        Nat.mod_eq_of_lt hpow]
    rw [if_pos hlt, UInt32.toNat_sub_of_le, hone]
    · rfl
    · rw [UInt32.le_iff_toNat_le, hone]
      exact Nat.two_pow_pos size
  · obtain rfl : size = 32 := by omega
    rfl

theorem testBit_shiftRight (w : UInt32) {s : Nat} (h : s < 32) (i : Nat) :
    (w >>> UInt32.ofNat s).toNat.testBit i = w.toNat.testBit (s + i) := by
  have hs : (UInt32.ofNat s).toNat % 32 = s := by
    rw [UInt32.toNat_ofNat']
    omega
  rw [UInt32.toNat_shiftRight, hs, Nat.testBit_shiftRight]

theorem testBit_shiftLeft (w : UInt32) {t i : Nat} (h : t < 32) (hi : i < 32) :
    (w <<< UInt32.ofNat t).toNat.testBit i = (decide (t ≤ i) && w.toNat.testBit (i - t)) := by
  have ht : (UInt32.ofNat t).toNat % 32 = t := by
    rw [UInt32.toNat_ofNat']
    omega
  rw [UInt32.toNat_shiftLeft, ht, Nat.testBit_mod_two_pow, decide_eq_true hi, Bool.true_and, Nat.testBit_shiftLeft]

theorem testBit_of_ge (w : UInt32) {i : Nat} (h : 32 ≤ i) : w.toNat.testBit i = false :=
  Nat.testBit_lt_two_pow (w.toNat_lt.trans_le (Nat.pow_le_pow_right (by decide) h))

/-- The macro cuts out the bits it is asked for, also where they straddle two words. -/
theorem unstuffBits_toNat (resp : Resp) {start size : Nat} (hsize : size ≤ 32) (hend : start + size ≤ 128) :
    (unstuffBits resp start size).toNat = resp.field start size := by
  apply Nat.eq_of_testBit_eq
  intro i
  rw [Resp.field, Nat.testBit_mod_two_pow, Nat.testBit_div_two_pow, unstuffBits]
  rw [UInt32.toNat_and, mask_toNat hsize, Nat.testBit_and, Nat.testBit_two_pow_sub_one, Bool.and_comm]
  by_cases hi : i < size
  · rw [decide_eq_true hi, Bool.true_and, Bool.true_and, Resp.testBit_register resp (by omega)]
    have hs : start % 32 < 32 := Nat.mod_lt _ (by decide)
    by_cases hin : start % 32 + i < 32
    · -- the bit is in the first word
      rw [show (i + start) / 32 = start / 32 by omega, show (i + start) % 32 = start % 32 + i by omega]
      split
      · rw [UInt32.toNat_or, Nat.testBit_or, testBit_shiftRight _ hs, testBit_shiftLeft _ (by omega) (by omega),
          decide_eq_false (by omega), Bool.false_and, Bool.or_false]
      · rw [testBit_shiftRight _ hs]
    · rw [if_pos (by omega), UInt32.toNat_or, Nat.testBit_or, testBit_shiftRight _ hs, testBit_of_ge _ (by omega),
        Bool.false_or, testBit_shiftLeft _ (by omega) (by omega), decide_eq_true (by omega), Bool.true_and,
        show (i + start) / 32 = start / 32 + 1 by omega,
        show (i + start) % 32 = i - (32 - start % 32) % 32 by omega, Nat.sub_sub]
  · rw [decide_eq_false hi, Bool.false_and, Bool.false_and]

end Uboot.Drivers.MmcCsd
