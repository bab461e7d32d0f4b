/-
  Uboot.Lib.Align

  Rounding an address up to a multiple, and the bit operations that do it: a field
  cut out by a mask is a quotient, and setting the low bits of `x - 1` leads to the
  next multiple of a power of two.

  Nothing here names the boot loader.
-/

import Mathlib.Algebra.Order.Ring.Nat

namespace Uboot.Lib

/-- The least multiple of `n` not below `x`. -/
def alignUp (x n : Nat) : Nat := (x + (n - 1)) / n * n

section Align

variable {x y n k : Nat}

theorem dvd_alignUp : n ∣ alignUp x n := Nat.dvd_mul_left _ _

theorem le_alignUp (hn : 0 < n) : x ≤ alignUp x n := by
  have hdiv := Nat.div_add_mod (x + (n - 1)) n
  have hmod := Nat.mod_lt (x + (n - 1)) hn
  rw [Nat.mul_comm] at hdiv
  rw [alignUp]
  omega

theorem alignUp_le (hxy : x ≤ y) (hy : n ∣ y) : alignUp x n ≤ y := by
  obtain ⟨q, rfl⟩ := hy
  rcases Nat.eq_zero_or_pos n with rfl | hn
  · rw [alignUp, Nat.mul_zero]
    exact Nat.zero_le _
  rw [alignUp, Nat.mul_comm n q]
  apply Nat.mul_le_mul_right
  apply Nat.le_of_lt_succ
  rw [Nat.div_lt_iff_lt_mul hn, Nat.succ_mul, Nat.mul_comm q n]
  omega

/-- A multiple behind another one is `n` behind it. -/
theorem add_le_of_dvd (hx : n ∣ x) (hy : n ∣ y) (h : x < y) : x + n ≤ y := by
  have hle := Nat.le_of_dvd (Nat.sub_pos_of_lt h) (Nat.dvd_sub hy hx)
  omega

/-- The multiple that is less than `n` above. -/
theorem alignUp_eq (hn : 0 < n) (hy : n ∣ y) (hxy : x ≤ y) (hyx : y < x + n) : alignUp x n = y := by
  apply Nat.le_antisymm (alignUp_le hxy hy)
  by_contra hlt
  have hnext := add_le_of_dvd dvd_alignUp hy (Nat.lt_of_not_le hlt)
  have hle := le_alignUp (x := x) hn
  omega

/-- From `x` up to the end of its block of `k`. -/
theorem div_eq_of_sub_mod_le (hxy : x ≤ y) (hy : y < x + n) (hn : n ≤ k - x % k) : y / k = x / k := by
  have hpos : 0 < k := by omega
  have hdiv := Nat.div_add_mod x k
  rw [Nat.mul_comm] at hdiv
  apply Nat.div_eq_of_lt_le
  · omega
  · rw [Nat.succ_mul]
    omega

-- ============================================================================
-- Bits
-- ============================================================================

/-- A field of `n` bits cut out in place. -/
theorem and_field : x &&& ((2 ^ n - 1) * 2 ^ k) = x / 2 ^ k % 2 ^ n * 2 ^ k := by
  apply Nat.eq_of_testBit_eq
  intro i
  rw [Nat.testBit_and, Nat.testBit_mul_two_pow, Nat.testBit_two_pow_sub_one,
    Nat.testBit_mul_two_pow, Nat.testBit_mod_two_pow, Nat.testBit_div_two_pow]
  by_cases hi : k ≤ i
  · rw [Nat.sub_add_cancel hi]
    cases x.testBit i <;> simp [hi]
  · simp [hi]

/-- Setting the low `k` bits. -/
theorem or_low : x ||| (2 ^ k - 1) = x / 2 ^ k * 2 ^ k + (2 ^ k - 1) := by
  have hlt : 2 ^ k - 1 < 2 ^ k := Nat.sub_lt (Nat.two_pow_pos k) Nat.one_pos
  rw [Nat.mul_comm, Nat.two_pow_add_eq_or_of_lt hlt]
  apply Nat.eq_of_testBit_eq
  intro i
  rw [Nat.testBit_or, Nat.testBit_or, Nat.testBit_two_pow_mul, Nat.testBit_div_two_pow,
    Nat.testBit_two_pow_sub_one]
  by_cases hi : i < k
  · simp [hi]
  · rw [Nat.sub_add_cancel (Nat.le_of_not_lt hi)]
    simp [hi, Nat.le_of_not_lt hi]

/-- The usual way to round up: step back, set the low bits, step on. -/
theorem pred_or_low_succ (hx : 0 < x) : ((x - 1) ||| (2 ^ k - 1)) + 1 = alignUp x (2 ^ k) := by
  have hpos := Nat.two_pow_pos k
  have hdiv : (x + (2 ^ k - 1)) / 2 ^ k = (x - 1) / 2 ^ k + 1 := by
    rw [show x + (2 ^ k - 1) = x - 1 + 2 ^ k by omega, Nat.add_div_right _ hpos]
  rw [or_low, alignUp, hdiv, Nat.succ_mul]
  omega

/-- Masking with `-m` takes off what masking with `m - 1` leaves. -/
theorem and_neg_add_and_pred (hx : x < 4294967296) (hn : 0 < n) (hle : n ≤ 4294967296) :
    (x &&& (4294967296 - n)) + (x &&& (n - 1)) = x := by
  let a := BitVec.ofNat 32 x
  let b := BitVec.ofNat 32 (n - 1)
  have ha : a.toNat = x := by
    rw [BitVec.toNat_ofNat, Nat.mod_eq_of_lt hx]
  have hb : b.toNat = n - 1 := by
    rw [BitVec.toNat_ofNat, Nat.mod_eq_of_lt (by omega)]
  have hneg : (~~~b).toNat = 4294967296 - n := by
    rw [BitVec.toNat_not, hb]
    omega
  have hdisjoint : (a &&& ~~~b) &&& (a &&& b) = 0#32 := by
    ext i
    simp only [BitVec.getElem_and, BitVec.getElem_not, BitVec.getElem_zero]
    cases a[i] <;> cases b[i] <;> rfl
  have hor : (a &&& ~~~b) ||| (a &&& b) = a := by
    ext i
    simp only [BitVec.getElem_or, BitVec.getElem_and, BitVec.getElem_not]
    cases a[i] <;> cases b[i] <;> rfl
  have hadd := BitVec.toNat_add_of_and_eq_zero hdisjoint
  rwa [BitVec.add_eq_or_of_and_eq_zero _ _ hdisjoint, hor, BitVec.toNat_and, BitVec.toNat_and, ha, hneg,
    hb, eq_comm] at hadd

end Align
end Uboot.Lib
