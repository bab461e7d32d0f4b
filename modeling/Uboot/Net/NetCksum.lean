/-
  Uboot.Net.NetCksum

  `NetCksum` of net/net.c as a one's complement sum: what it computes, when
  `NetCksumOk` accepts, and that a message whose checksum field has been filled in with
  the complement of its `NetCksum` comes out right.

  The checksum is a 16-bit store in the byte order of the CPU, the other fields of the
  headers go through `htons`.
-/

import Uboot.Lib.OnesSum
import Uboot.Lib.Holds
import Uboot.Net.NetReceive

namespace Uboot.Net.NetReceive

open Uboot.Lib

/-- The two bytes that a field holds after `= htons(v)`. -/
def htons (v : Nat) : List UInt8 := [UInt8.ofNat (v / 256), UInt8.ofNat v]

@[simp] theorem htons_length (v : Nat) : (htons v).length = 2 := rfl

section Fields

variable {m : Mem UInt8} {a v : Nat}

theorem ntohs_of_holds (h : m.Holds a (htons v)) : ntohs m a = v % 65536 := by
  have h0 : m a = UInt8.ofNat (v / 256) := h.getElem (i := 0) (by simp)
  have h1 : m (a + 1) = UInt8.ofNat v := h.getElem (i := 1) (by simp)
  simp only [ntohs, h0, h1, UInt8.toNat_ofNat']
  omega

theorem rd32_of_holds (h : m.Holds a (le32 v)) : rd32 m a = v % 4294967296 :=
  rd32_le32 fun _ hi => h.getElem hi

end Fields

section Cksum

variable {m : Mem UInt8} {a n : Nat}

theorem sum_words_le (m : Mem UInt8) (a n : Nat) :
    ((List.range n).map fun i => rd16 m (a + 2 * i)).sum ≤ 65535 * n := by
  induction n with
  | zero => simp
  | succ n ih =>
    have h0 := (m (a + 2 * n)).toNat_lt
    have h1 := (m (a + 2 * n + 1)).toNat_lt
    have hlast : rd16 m (a + 2 * n) ≤ 65535 := by
      rw [rd16]
      omega
    rw [List.range_succ, List.map_append, List.sum_append, List.map_singleton, List.sum_singleton,
      Nat.mul_succ]
    omega

/-- `NetCksum` of words that do not overflow an `unsigned long`. -/
theorem netCksum_spec (m : Mem UInt8) (a : Nat) (hn : n ≤ 65536) :
    netCksum m a n < 65536 ∧
      netCksum m a n % 65535 = (leWords (m.read a (2 * n))).sum % 65535 ∧
      (netCksum m a n = 0 ↔ (leWords (m.read a (2 * n))).sum = 0) := by
  have hle := sum_words_le m a n
  rw [leWords_read]
  generalize hs : ((List.range n).map fun i => rd16 m (a + 2 * i)).sum = s at hle
  have hfold : netCksum m a n = fold16 (fold16 s) := by
    have hlt := fold16_fold16_lt (s := s) (by omega)
    rw [netCksum, hs]
    exact Nat.mod_eq_of_lt hlt
  rw [hfold]
  refine ⟨fold16_fold16_lt (by omega), ?_, ?_⟩
  · rw [fold16_mod, fold16_mod]
  · rw [fold16_eq_zero, fold16_eq_zero]

theorem netCksumOk_iff (hn : n ≤ 65536) :
    netCksumOk m a n = true ↔ (leWords (m.read a (2 * n))).sum % 65535 = 0 := by
  obtain ⟨hlt, hmod, -⟩ := netCksum_spec m a hn
  rw [netCksumOk, decide_eq_true_eq, ← hmod]
  generalize netCksum m a n = c at hlt
  constructor
  · intro h
    obtain rfl | rfl : c = 0 ∨ c = 65535 := by omega
    all_goals rfl
  · intro h
    obtain rfl | rfl : c = 0 ∨ c = 65535 := by omega
    all_goals rfl

/-- A word of the message that was zero takes the complement of the sum. -/
theorem sum_leWords_fill {xs ys : List UInt8} (hxs : xs.length % 2 = 0) (v : Nat) :
    (leWords (xs ++ le16 v ++ ys)).sum = (leWords (xs ++ le16 0 ++ ys)).sum + v % 65536 := by
  have hword (w : Nat) : (leWords (le16 w)).sum = w % 65536 := by
    simp only [le16, leWords, List.sum_singleton, UInt8.toNat_ofNat']
    omega
  have hlen (w : Nat) : (xs ++ le16 w).length % 2 = 0 := by
    rw [List.length_append, le16_length]
    omega
  rw [leWords_append (hlen v), leWords_append (hlen 0), leWords_append hxs, leWords_append hxs]
  simp only [List.sum_append, hword]
  omega

/-- What `= ~NetCksum(..)` leaves in the checksum field. -/
def cksumField (m : Mem UInt8) (a n : Nat) : List UInt8 := le16 (65535 - netCksum m a n)

/-- **Filling in the checksum.**  The words that `NetCksum` has added up then sum to
    zero, but are not all zeros. -/
theorem sum_leWords_cksumField (hn : n ≤ 65536) {xs ys : List UInt8} (hxs : xs.length % 2 = 0)
    (h : m.Holds a (xs ++ le16 0 ++ ys)) (hlen : xs.length + 2 + ys.length = 2 * n) :
    (leWords (xs ++ cksumField m a n ++ ys)).sum % 65535 = 0 ∧
      (leWords (xs ++ cksumField m a n ++ ys)).sum ≠ 0 := by
  obtain ⟨hlt, hmod, hzero⟩ := netCksum_spec m a hn
  have hread : m.read a (2 * n) = xs ++ le16 0 ++ ys := by
    rw [← hlen]
    simpa [Mem.Holds, Nat.add_assoc] using h
  rw [hread] at hmod hzero
  rw [cksumField, sum_leWords_fill hxs]
  generalize netCksum m a n = c at hlt hmod hzero ⊢
  generalize (leWords (xs ++ le16 0 ++ ys)).sum = s at hmod hzero ⊢
  have hfield : (65535 - c) % 65536 = 65535 - c := Nat.mod_eq_of_lt (by omega)
  rw [hfield]
  constructor
  · omega
  · omega

/-- **The checksum of a message.**  `NetCksum` counts whole words, so the checksum is right
    over all of the message exactly when there is no odd byte behind them, or it is
    zero. -/
theorem verifies_cksumField (hn : n ≤ 65536) {xs ys : List UInt8} (hxs : xs.length % 2 = 0)
    (h : m.Holds a (xs ++ le16 0 ++ ys)) (hlen : n = (xs.length + 2 + ys.length) / 2) :
    Verifies (xs ++ cksumField m a n ++ ys) ↔ (ys.length % 2 = 1 → ys.getLast? = some 0) := by
  rw [verifies_iff]
  rcases Nat.mod_two_eq_zero_or_one ys.length with heven | hodd
  · have hsum := sum_leWords_cksumField hn hxs h (by omega)
    exact iff_of_true hsum fun hodd => absurd hodd (by omega)
  · -- all words but the odd byte, which counts as the low half of a word
    obtain ⟨zs, z, rfl⟩ := List.eq_nil_or_concat ys |>.resolve_left (by rintro rfl; simp at hodd)
    rw [List.length_concat] at hodd hlen
    rw [List.concat_eq_append] at h ⊢
    rw [← List.append_assoc, Mem.holds_append] at h
    have hsum := sum_leWords_cksumField hn hxs h.1 (by omega)
    have hz := z.toNat_lt
    have heven : (xs ++ cksumField m a n ++ zs).length % 2 = 0 := by
      simp only [List.length_append, cksumField, le16_length]
      omega
    rw [← List.append_assoc, leWords_append heven]
    have hzero : z = 0 ↔ z.toNat = 0 := by
      rw [← UInt8.toNat_inj]
      rfl
    simp only [List.sum_append, leWords, List.sum_singleton, List.getLast?_append, List.getLast?_singleton,
      Option.some_or, Option.some.injEq, List.length_append, List.length_singleton, hodd, true_imp_iff, hzero] at hsum ⊢
    omega

end Cksum

end Uboot.Net.NetReceive
