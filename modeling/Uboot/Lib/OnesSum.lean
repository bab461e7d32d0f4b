/-
  Uboot.Lib.OnesSum

  The one's complement sum of 16-bit words, as Internet checksums use it: addition that
  brings the carry back in.  It is addition modulo 65535 with a second zero, so the plain
  sum may be folded at the end, and the words may be taken in either byte order.

  Nothing here names the boot loader.
-/

import Uboot.Lib.Mem

namespace Uboot.Lib

/-- Adding the upper half of a number to the lower one. -/
def fold16 (s : Nat) : Nat := s % 65536 + s / 65536

/-- One's complement addition of two words. -/
def onesAdd (x y : Nat) : Nat := fold16 (x + y)

/-- The one's complement sum. -/
def onesSum (ws : List Nat) : Nat := ws.foldl onesAdd 0

/-- The words of a list of bytes, most significant byte first, with a zero added to an
    odd number of bytes. -/
def beWords : List UInt8 → List Nat
  | [] => []
  | [a] => [256 * a.toNat]
  | a :: b :: bs => (256 * a.toNat + b.toNat) :: beWords bs

/-- The same, least significant byte first. -/
def leWords : List UInt8 → List Nat
  | [] => []
  | [a] => [a.toNat]
  | a :: b :: bs => (a.toNat + 256 * b.toNat) :: leWords bs

/-- A message with its checksum in it is right when its one's complement sum is all
    ones. -/
def Verifies (bs : List UInt8) : Prop := onesSum (beWords bs) = 65535

instance (bs : List UInt8) : Decidable (Verifies bs) := inferInstanceAs (Decidable (_ = _))

section Fold

variable {s x y : Nat}

theorem fold16_mod (s : Nat) : fold16 s % 65535 = s % 65535 := by
  rw [fold16]
  omega

theorem fold16_eq_zero : fold16 s = 0 ↔ s = 0 := by
  rw [fold16]
  omega

/-- Two times are enough for 32 bits. -/
theorem fold16_fold16_lt (hs : s < 4294967296) : fold16 (fold16 s) < 65536 := by
  simp only [fold16]
  omega

theorem onesAdd_lt (hx : x < 65536) (hy : y < 65536) : onesAdd x y < 65536 := by
  rw [onesAdd, fold16]
  omega

/-- A folded number is the all-ones zero exactly when it stands for zero and is not made
    of zeros alone. -/
theorem eq_65535_iff {r : Nat} (hr : r < 65536) (hmod : r % 65535 = s % 65535) (hzero : r = 0 ↔ s = 0) :
    r = 65535 ↔ s % 65535 = 0 ∧ s ≠ 0 := by
  omega

end Fold

section Sum

variable {ws : List Nat}

theorem onesSum_spec (h : ∀ w ∈ ws, w < 65536) :
    onesSum ws < 65536 ∧ onesSum ws % 65535 = ws.sum % 65535 ∧ (onesSum ws = 0 ↔ ws.sum = 0) := by
  suffices haux : ∀ acc, acc < 65536 →
      ws.foldl onesAdd acc < 65536 ∧ ws.foldl onesAdd acc % 65535 = (acc + ws.sum) % 65535 ∧
        (ws.foldl onesAdd acc = 0 ↔ acc + ws.sum = 0) by
    have h0 := haux 0 (by decide)
    rw [Nat.zero_add] at h0
    exact h0
  intro acc hacc
  induction ws generalizing acc with
  | nil => simp [hacc]
  | cons w ws ih =>
    obtain ⟨hw, hws⟩ := List.forall_mem_cons.mp h
    obtain ⟨hlt, hmod, hzero⟩ := ih hws (onesAdd acc w) (onesAdd_lt hacc hw)
    have hadd : onesAdd acc w % 65535 = (acc + w) % 65535 := fold16_mod _
    have hadd0 : onesAdd acc w = 0 ↔ acc + w = 0 := fold16_eq_zero
    rw [List.foldl_cons, List.sum_cons]
    refine ⟨hlt, ?_, ?_⟩
    · rw [hmod]
      omega
    · rw [hzero]
      omega

end Sum

section Words

variable {bs cs : List UInt8}

theorem beWords_lt (bs : List UInt8) : ∀ w ∈ beWords bs, w < 65536 := by
  fun_induction beWords bs with
  | case1 => simp
  | case2 a =>
    have ha := a.toNat_lt
    simp only [List.mem_singleton, forall_eq]
    omega
  | case3 a b bs ih =>
    have ha := a.toNat_lt
    have hb := b.toNat_lt
    refine List.forall_mem_cons.mpr ⟨?_, ih⟩
    omega

/-- Swapping the bytes of every word multiplies by 256. -/
theorem sum_beWords (bs : List UInt8) :
    (beWords bs).sum % 65535 = 256 * (leWords bs).sum % 65535 ∧
      ((beWords bs).sum = 0 ↔ (leWords bs).sum = 0) := by
  fun_induction beWords bs with
  | case1 => simp [leWords]
  | case2 a => simp [leWords]
  | case3 a b bs ih =>
    simp only [leWords, List.sum_cons]
    omega

/-- The check does not depend on the byte order. -/
theorem verifies_iff : Verifies bs ↔ (leWords bs).sum % 65535 = 0 ∧ (leWords bs).sum ≠ 0 := by
  obtain ⟨hlt, hmod, hzero⟩ := onesSum_spec (beWords_lt bs)
  obtain ⟨hswap, hswap0⟩ := sum_beWords bs
  rw [Verifies, eq_65535_iff hlt hmod hzero]
  omega

theorem leWords_append (h : bs.length % 2 = 0) : leWords (bs ++ cs) = leWords bs ++ leWords cs := by
  fun_induction leWords bs with
  | case1 => rfl
  | case2 a => simp at h
  | case3 a b bs ih =>
    simp only [List.length_cons] at h
    rw [List.cons_append, List.cons_append, leWords, ih (by omega), List.cons_append]

/-- The words of a piece of memory. -/
theorem leWords_read (m : Mem UInt8) (a n : Nat) :
    leWords (m.read a (2 * n)) = (List.range n).map fun i => rd16 m (a + 2 * i) := by
  induction n with
  | zero => rfl
  | succ n ih =>
    have htwo : leWords (m.read (a + 2 * n) 2) = [rd16 m (a + 2 * n)] := rfl
    rw [Nat.mul_succ, Mem.read_add, leWords_append (by simp), ih, htwo, List.range_succ, List.map_append]
    rfl

end Words

end Uboot.Lib
