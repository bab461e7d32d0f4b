/-
  Uboot.LibGeneric.Div64

  The 64 by 32 bit division of include/div64.h and lib_generic/div64.c: shift and
  subtract, after the high word has been reduced.
-/

import Mathlib.Tactic.Ring

namespace Uboot.LibGeneric

/-- The first loop of `__div64_32`: `b` and `d` are doubled while `b` is positive as an `int64_t`
    and below `rem`. -/
def div64Up (rem b d : UInt64) : UInt64 × UInt64 :=
  if 0 < b ∧ b < 0x8000000000000000 ∧ b < rem then div64Up rem (b + b) (d + d) else (b, d)
termination_by 2 ^ 64 - b.toNat
decreasing_by
  rename_i h
  have hpos : 0 < b.toNat := UInt64.lt_iff_toNat_lt.mp h.1
  have htop : b.toNat < 9223372036854775808 := UInt64.lt_iff_toNat_lt.mp h.2.1
  rw [UInt64.toNat_add]
  omega

theorem shiftRight_one (x : UInt64) : (x >>> 1).toNat = x.toNat / 2 := by
  rw [UInt64.toNat_shiftRight, Nat.shiftRight_eq_div_pow]
  rfl

/-- The second loop of `__div64_32`: the results are `rem` and `res`. -/
def div64Down (rem res b d : UInt64) : UInt64 × UInt64 :=
  let rem' := if b ≤ rem then rem - b else rem
  let res' := if b ≤ rem then res + d else res
  if d >>> 1 = 0 then (rem', res') else div64Down rem' res' (b >>> 1) (d >>> 1)
termination_by d.toNat
decreasing_by
  rename_i h
  have hne : (d >>> 1).toNat ≠ 0 := fun h0 => h (UInt64.toNat_inj.mp h0)
  rw [shiftRight_one] at hne ⊢
  omega

/-- `__div64_32`: the quotient, which goes to `*n`, and the remainder. -/
def div6432 (n : UInt64) (base : UInt32) : UInt64 × UInt32 :=
  let high := (n >>> 32).toUInt32
  -- reduce the thing a bit first
  let res := if base ≤ high then (high / base).toUInt64 <<< 32 else 0
  let rem := if base ≤ high then n - (high / base * base).toUInt64 <<< 32 else n
  let up := div64Up rem base.toUInt64 1
  let down := div64Down rem res up.1 up.2
  (down.2, down.1.toUInt32)

/-- `do_div`: the quotient, which goes to `n`, and the remainder. -/
def doDiv (n : UInt64) (base : UInt32) : UInt64 × UInt32 :=
  if n >>> 32 = 0 then ((n.toUInt32 / base).toUInt64, n.toUInt32 % base) else div6432 n base

-- ============================================================================
-- The two loops
-- ============================================================================

/-- `b` is the divisor shifted by some places and `d` is 1 shifted by as many. -/
structure Shifted (base : Nat) (b d : UInt64) : Prop where
  mul : b.toNat = base * d.toNat
  pow : ∃ k, d.toNat = 2 ^ k

theorem div64Up_spec (rem : UInt64) {b d : UInt64} {base : Nat} (hbase : 0 < base) (h : Shifted base b d) :
    Shifted base (div64Up rem b d).1 (div64Up rem b d).2 ∧
      rem.toNat < 2 * (div64Up rem b d).1.toNat := by
  induction b, d using div64Up.induct rem with
  | case1 b d hgo ih =>
    rw [div64Up, if_pos hgo]
    have htop : b.toNat < 9223372036854775808 := UInt64.lt_iff_toNat_lt.mp hgo.2.1
    obtain ⟨k, hk⟩ := h.pow
    have hle : d.toNat ≤ b.toNat := h.mul ▸ Nat.le_mul_of_pos_left _ hbase
    have hb : (b + b).toNat = 2 * b.toNat := by rw [UInt64.toNat_add]; omega
    have hd : (d + d).toNat = 2 * d.toNat := by rw [UInt64.toNat_add]; omega
    exact ih ⟨by rw [hb, hd, h.mul]; ring, k + 1, by rw [hd, hk]; ring⟩
  | case2 b d hstop =>
    rw [div64Up, if_neg hstop]
    refine ⟨h, ?_⟩
    obtain ⟨k, hk⟩ := h.pow
    have hpos : 0 < b.toNat := h.mul ▸ Nat.mul_pos hbase (hk ▸ Nat.two_pow_pos k)
    have hrem := rem.toNat_lt
    -- the loop stops at `rem`, or where the next doubling would leave the 64 bits
    by_contra hlt
    dsimp only at hlt
    have htop : b.toNat < 9223372036854775808 := by omega
    exact hstop ⟨UInt64.lt_iff_toNat_lt.mpr hpos, UInt64.lt_iff_toNat_lt.mpr htop,
      UInt64.lt_iff_toNat_lt.mpr (by omega)⟩

/-- The loop keeps `res * base + rem`. -/
theorem div64Down_spec {rem res b d : UInt64} {base total : Nat} (h : Shifted base b d)
    (hrem : rem.toNat < 2 * b.toNat) (htotal : total = res.toNat * base + rem.toNat)
    (hlt : total < 2 ^ 64) (hbase : 0 < base) :
    total = (div64Down rem res b d).2.toNat * base + (div64Down rem res b d).1.toNat ∧
      (div64Down rem res b d).1.toNat < base := by
  -- the subtraction leaves less than the shifted divisor
  have hkeep : total = (if b ≤ rem then res + d else res).toNat * base +
      (if b ≤ rem then rem - b else rem).toNat ∧ (if b ≤ rem then rem - b else rem).toNat < b.toNat := by
    split
    · next hle =>
      rw [UInt64.le_iff_toNat_le] at hle
      have hsub : (rem - b).toNat = rem.toNat - b.toNat := UInt64.toNat_sub_of_le _ _ hle
      have hadd : (res + d).toNat = res.toNat + d.toNat := by
        have hres : (res.toNat + d.toNat) * base ≤ total := by
          rw [htotal, Nat.add_mul, Nat.mul_comm d.toNat, ← h.mul]
          omega
        have := Nat.le_mul_of_pos_right (res.toNat + d.toNat) hbase
        rw [UInt64.toNat_add, Nat.mod_eq_of_lt (by omega)]
      rw [hsub, hadd, htotal, Nat.add_mul, Nat.mul_comm d.toNat, ← h.mul]
      omega
    · next hle =>
      rw [UInt64.le_iff_toNat_le] at hle
      exact ⟨htotal, by omega⟩
  obtain ⟨k, hk⟩ := h.pow
  rw [div64Down]
  split
  · next hd =>
    have hone : d.toNat / 2 = 0 := by rw [← shiftRight_one, hd]; rfl
    have hpos := Nat.two_pow_pos k
    have hb : b.toNat = base := by rw [h.mul, show d.toNat = 1 by omega, Nat.mul_one]
    exact ⟨hkeep.1, hb ▸ hkeep.2⟩
  · next hd =>
    have hne : d.toNat / 2 ≠ 0 := fun h0 => hd (UInt64.toNat_inj.mp ((shiftRight_one d).trans h0))
    obtain _ | k := k
    · omega
    have hhalf : d.toNat / 2 = 2 ^ k := by rw [hk, Nat.pow_succ]; omega
    have hb : b.toNat = 2 * (base * 2 ^ k) := by rw [h.mul, hk, Nat.pow_succ]; ring
    refine div64Down_spec ⟨?_, k, by rw [shiftRight_one, hhalf]⟩ ?_ hkeep.1 hlt hbase
    · rw [shiftRight_one, shiftRight_one, hhalf, hb]
      omega
    · rw [shiftRight_one]
      omega
termination_by d.toNat
decreasing_by
  rw [shiftRight_one]
  omega

-- ============================================================================
-- The division
-- ============================================================================

theorem high_toNat (n : UInt64) : (n >>> 32).toUInt32.toNat = n.toNat / 2 ^ 32 := by
  have hn := n.toNat_lt
  rw [UInt64.toNat_toUInt32, UInt64.toNat_shiftRight, Nat.shiftRight_eq_div_pow,
    show (32 : UInt64).toNat % 64 = 32 from rfl]
  exact Nat.mod_eq_of_lt (by omega)

theorem shiftLeft_high (x : UInt32) : (x.toUInt64 <<< 32).toNat = x.toNat * 2 ^ 32 := by
  have hx := x.toNat_lt
  rw [UInt64.toNat_shiftLeft, Nat.shiftLeft_eq, UInt32.toNat_toUInt64,
    show (32 : UInt64).toNat % 64 = 32 from rfl]
  exact Nat.mod_eq_of_lt (by omega)

theorem mul_add_div_mod {total q r base : Nat} (h : total = q * base + r) (hr : r < base) :
    q = total / base ∧ r = total % base := by
  rw [h, Nat.mul_comm, Nat.mul_add_div (by omega), Nat.mul_add_mod, Nat.div_eq_of_lt hr, Nat.mod_eq_of_lt hr]
  exact ⟨rfl, rfl⟩

/-- `__div64_32` divides. -/
theorem div6432_spec (n : UInt64) {base : UInt32} (hbase : base ≠ 0) :
    (div6432 n base).1.toNat = n.toNat / base.toNat ∧ (div6432 n base).2.toNat = n.toNat % base.toNat := by
  have hpos : 0 < base.toNat := Nat.pos_of_ne_zero fun h => hbase (UInt32.toNat_inj.mp h)
  have hlt := base.toNat_lt
  have hn := n.toNat_lt
  rw [div6432]
  set high := (n >>> 32).toUInt32 with hhigh
  set res := if base ≤ high then (high / base).toUInt64 <<< 32 else 0 with hres
  set rem := if base ≤ high then n - (high / base * base).toUInt64 <<< 32 else n with hrem
  -- the reduction keeps `res * base + rem`
  have hkeep : n.toNat = res.toNat * base.toNat + rem.toNat := by
    rw [hres, hrem]
    split
    · have hword : high.toNat = n.toNat / 2 ^ 32 := high_toNat n
      have hle : high.toNat / base.toNat * base.toNat ≤ high.toNat := Nat.div_mul_le_self _ _
      have hprod : (high / base * base).toNat = high.toNat / base.toNat * base.toNat := by
        rw [UInt32.toNat_mul, UInt32.toNat_div]
        exact Nat.mod_eq_of_lt (Nat.lt_of_le_of_lt hle high.toNat_lt)
      have hsub : ((high / base * base).toUInt64 <<< 32).toNat ≤ n.toNat := by
        rw [shiftLeft_high, hprod]
        omega
      rw [UInt64.toNat_sub_of_le _ _ (UInt64.le_iff_toNat_le.mpr hsub), shiftLeft_high, shiftLeft_high, hprod,
        UInt32.toNat_div, Nat.mul_right_comm]
      rw [shiftLeft_high, hprod] at hsub
      omega
    · simp
  have hup := div64Up_spec rem hpos (b := base.toUInt64) (d := 1) ⟨by simp, 0, rfl⟩
  have hdown := div64Down_spec hup.1 hup.2 hkeep hn hpos
  obtain ⟨hq, hr⟩ := mul_add_div_mod hdown.1 hdown.2
  refine ⟨hq, ?_⟩
  rw [UInt64.toNat_toUInt32, Nat.mod_eq_of_lt (by omega)]
  exact hr

/-- **`do_div`**: the quotient and the remainder. -/
theorem doDiv_spec (n : UInt64) (base : UInt32) (hbase : base ≠ 0) :
    (doDiv n base).1.toNat = n.toNat / base.toNat ∧ (doDiv n base).2.toNat = n.toNat % base.toNat := by
  rw [doDiv]
  split
  · next hsmall =>
    have hword : n.toUInt32.toNat = n.toNat := by
      have hzero : n.toNat / 2 ^ 32 = 0 := by rw [← high_toNat, hsmall]; rfl
      rw [UInt64.toNat_toUInt32]
      omega
    rw [UInt32.toNat_toUInt64, UInt32.toNat_div, UInt32.toNat_mod, hword]
    exact ⟨rfl, rfl⟩
  · exact div6432_spec n hbase

end Uboot.LibGeneric
