/-
  Uboot.Lib.ByteOrder

  Words of `n` bytes as a processor of either byte order has them in memory: the byte of a word at an
  offset, the word of some bytes, and a byte shifted into a word at its far end.

  Nothing here names the boot loader.
-/

import Mathlib.Data.List.GetD

namespace Uboot.Lib

/-- Where the low byte of a word is: at its first address or at its last. -/
inductive ByteOrder
  | little
  | big
  deriving DecidableEq

namespace ByteOrder

/-- The number, from the low end of a word of `n` bytes, of the byte at offset `o`. -/
def byteNum (e : ByteOrder) (n o : Nat) : Nat :=
  match e with
  | little => o
  | big => n - 1 - o

variable {e : ByteOrder} {n o i : Nat} {w v : BitVec (8 * n)}

theorem byteNum_lt (h : o < n) : e.byteNum n o < n := by
  cases e with
  | little => exact h
  | big =>
    rw [byteNum]
    omega

theorem byteNum_byteNum (h : o < n) : e.byteNum n (e.byteNum n o) = o := by
  cases e with
  | little => rfl
  | big =>
    simp only [byteNum]
    omega

/-- The byte of a word at offset `o`. -/
def byteAt (e : ByteOrder) (w : BitVec (8 * n)) (o : Nat) : UInt8 := .ofBitVec (w.extractLsb' (8 * e.byteNum n o) 8)

theorem getLsbD_byteAt (hi : i < 8) : (e.byteAt w o).toBitVec.getLsbD i = w.getLsbD (8 * e.byteNum n o + i) := by
  rw [byteAt, UInt8.toBitVec_ofBitVec, BitVec.getLsbD_extractLsb', decide_eq_true hi, Bool.true_and]

/-- Two bytes with the same bits. -/
theorem byte_ext {b c : UInt8} (h : ∀ i < 8, b.toBitVec.getLsbD i = c.toBitVec.getLsbD i) : b = c :=
  UInt8.toBitVec_inj.mp (BitVec.eq_of_getLsbD_eq h)

theorem byteAt_and : e.byteAt (w &&& v) o = e.byteAt w o &&& e.byteAt v o := by
  apply byte_ext
  intro i hi
  rw [UInt8.toBitVec_and, BitVec.getLsbD_and, getLsbD_byteAt hi, getLsbD_byteAt hi, getLsbD_byteAt hi, BitVec.getLsbD_and]

/-- Two words with the same bytes. -/
theorem word_ext (h : ∀ o < n, e.byteAt w o = e.byteAt v o) : w = v := by
  apply BitVec.eq_of_getLsbD_eq
  intro i hi
  have ho : i / 8 < n := by omega
  have hbit : 8 * e.byteNum n (e.byteNum n (i / 8)) + i % 8 = i := by
    rw [byteNum_byteNum ho]
    omega
  have hbyte := congrArg (·.toBitVec.getLsbD (i % 8)) (h _ (byteNum_lt (e := e) ho))
  rwa [getLsbD_byteAt (by omega), getLsbD_byteAt (by omega), hbit] at hbyte

/-- A byte shifted in behind the others: at the high end of a little-endian word, at the low end of a
    big-endian one. -/
def shiftIn (e : ByteOrder) (w : BitVec (8 * n)) (c : UInt8) : BitVec (8 * n) :=
  match e with
  | little => w >>> 8 ||| c.toBitVec.setWidth (8 * n) <<< (8 * (n - 1))
  | big => w <<< 8 ||| c.toBitVec.setWidth (8 * n)

/-- The others move up by one. -/
theorem byteAt_shiftIn {c : UInt8} (ho : o < n) :
    e.byteAt (e.shiftIn w c) o = if o + 1 = n then c else e.byteAt w (o + 1) := by
  apply byte_ext
  intro i hi
  rw [getLsbD_byteAt hi]
  cases e with
  | little =>
    rw [shiftIn, BitVec.getLsbD_or, BitVec.getLsbD_ushiftRight, BitVec.getLsbD_shiftLeft, BitVec.getLsbD_setWidth]
    simp only [byteNum]
    split
    · have hback : 8 * o + i - 8 * (n - 1) = i := by omega
      have hin : 8 * o + i < 8 * n ∧ ¬8 * o + i < 8 * (n - 1) ∧ i < 8 * n := by omega
      simp only [BitVec.getLsbD_of_ge w (8 + (8 * o + i)) (by omega), hback, hin, decide_true, decide_false,
        Bool.not_false, Bool.true_and, Bool.false_or]
    · have hnext : 8 + (8 * o + i) = 8 * (o + 1) + i := by omega
      have hin : 8 * o + i < 8 * (n - 1) := by omega
      simp only [getLsbD_byteAt hi, hnext, hin, decide_true, Bool.not_true, Bool.and_false, Bool.false_and, Bool.or_false,
        byteNum]
  | big =>
    rw [shiftIn, BitVec.getLsbD_or, BitVec.getLsbD_shiftLeft, BitVec.getLsbD_setWidth]
    simp only [byteNum]
    split
    · have hlow : n - 1 - o = 0 := by omega
      have hin : i < 8 * n := by omega
      simp only [hlow, Nat.mul_zero, Nat.zero_add, hi, hin, decide_true, Bool.not_true, Bool.and_false, Bool.false_and,
        Bool.false_or, Bool.true_and]
    · have hbefore : 8 * (n - 1 - o) + i - 8 = 8 * (n - 1 - (o + 1)) + i := by omega
      have hin : 8 * (n - 1 - o) + i < 8 * n ∧ ¬8 * (n - 1 - o) + i < 8 := by omega
      simp only [getLsbD_byteAt hi, hbefore, hin, decide_true, decide_false, Bool.not_false, Bool.true_and,
        BitVec.getLsbD_of_ge c.toBitVec (8 * (n - 1 - o) + i) (by omega), Bool.and_false, Bool.or_false, byteNum]

/-- Bytes shifted in one after another stand in their order at the end. -/
theorem byteAt_foldl_shiftIn {bs : List UInt8} (ho : o < n) (hn : bs.length ≤ n) :
    e.byteAt (bs.foldl e.shiftIn w) o =
      if o + bs.length < n then e.byteAt w (o + bs.length) else bs.getD (o + bs.length - n) 0 := by
  induction bs generalizing w with
  | nil => rw [List.foldl_nil, List.length_nil, if_pos (by omega), Nat.add_zero]
  | cons b bs ih =>
    rw [List.length_cons] at hn
    rw [List.foldl_cons, ih (by omega), List.length_cons]
    by_cases hbefore : o + bs.length < n
    · rw [if_pos hbefore, byteAt_shiftIn hbefore]
      by_cases hlast : o + bs.length + 1 = n
      · have hzero : o + (bs.length + 1) - n = 0 := by omega
        rw [if_pos hlast, if_neg (by omega), hzero, List.getD_cons_zero]
      · rw [if_neg hlast, if_pos (by omega), Nat.add_assoc]
    · have hsucc : o + (bs.length + 1) - n = o + bs.length - n + 1 := by omega
      rw [if_neg hbefore, if_neg (by omega), hsucc, List.getD_cons_succ]

/-- As many as the word has make it up, whatever it was before. -/
theorem byteAt_foldl_shiftIn_full {bs : List UInt8} (ho : o < n) (hn : bs.length = n) :
    e.byteAt (bs.foldl e.shiftIn w) o = bs.getD o 0 := by
  rw [byteAt_foldl_shiftIn ho (Nat.le_of_eq hn), if_neg (by omega), hn, Nat.add_sub_cancel]

/-- The word with byte `f o` at each offset `o`. -/
def ofBytes (e : ByteOrder) (n : Nat) (f : Nat → UInt8) : BitVec (8 * n) := ((List.range n).map f).foldl e.shiftIn 0

theorem byteAt_ofBytes {f : Nat → UInt8} (ho : o < n) : e.byteAt (e.ofBytes n f) o = f o := by
  rw [ofBytes, byteAt_foldl_shiftIn_full ho (by rw [List.length_map, List.length_range]),
    List.getD_eq_getElem _ _ (by rwa [List.length_map, List.length_range]), List.getElem_map, List.getElem_range]

end ByteOrder

end Uboot.Lib
