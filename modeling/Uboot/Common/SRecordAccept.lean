/-
  Uboot.Common.SRecordAccept

  Which lines `srec_decode` takes for a record, against the format that include/s_record.h
  describes.

  The decoder takes the length of a record from its byte count and never compares the
  count with the fields that it reads.
-/

import Uboot.Common.SRecord

namespace Uboot.Common.SRecord

open Uboot.Lib Uboot.LibGeneric

-- ============================================================================
-- The format
-- ============================================================================

/-- The bytes that the digits at the head of `text` stand for, two digits each. -/
def bytePairs : List UInt8 → List Nat
  | a :: b :: rest => if isXDigit a ∧ isXDigit b then (xDigit a * 16 + xDigit b) :: bytePairs rest else []
  | _ => []

/-- The types of records: the value that stands for the type and the length of the address. -/
def recordKind (v : UInt8) : Option (Int × Nat) :=
  match v.toNat with
  | 48 => some (srecStart, 2)
  | 49 => some (srecData2, 2)
  | 50 => some (srecData3, 3)
  | 51 => some (srecData4, 4)
  | 53 => some (srecCount, 2)
  | 55 => some (srecEnd4, 4)
  | 56 => some (srecEnd3, 3)
  | 57 => some (srecEnd2, 2)
  | _ => none

/-- The number that bytes stand for, the most significant one first. -/
def beValue (bytes : List Nat) : Nat := bytes.foldl (fun value b => value * 256 + b) 0

/-- `text` is the record `r`: type, byte count, address, data and checksum, and no byte behind
    them.  The count is that of the bytes behind it, the checksum the complement of the sum of all. -/
def IsRecord (text : List UInt8) (r : Srec) : Prop :=
  ∃ v rest k addr data,
    text = v :: rest ∧ recordKind v = some (r.type, k) ∧ addr.length = k ∧
    bytePairs rest = (k + data.length + 1) ::
      (addr ++ data ++ [255 - (k + data.length + 1 + addr.sum + data.sum) % 256]) ∧
    r.addr = beValue addr ∧ r.count = data.length ∧ r.data = data.map UInt8.ofNat

/-- The text after the first `S` of a line. -/
def textAfterS (line : List UInt8) : List UInt8 := (line.dropWhile (· ≠ 83)).tail

/-- The line is a record, or `srec_decode` does not take it for one. -/
def AcceptsRecords (line : List UInt8) : Prop :=
  ∀ r, srecDecode line = .ok r → IsRecord (textAfterS line) r ∧ 0 ≤ r.count ∧ r.count ≤ 252

-- ============================================================================
-- What the decoder reads
-- ============================================================================

theorem hex1Bin_eq (c : UInt8) : hex1Bin c = if isXDigit c then some (xDigit c) else none := by
  simp only [hex1Bin, isXDigit, xDigit, Bool.or_eq_true, Bool.and_eq_true, decide_eq_true_eq]
  simp only [UInt8.le_iff_toNat_le]
  have h48 : (48 : UInt8).toNat = 48 := rfl
  have h57 : (57 : UInt8).toNat = 57 := rfl
  have h65 : (65 : UInt8).toNat = 65 := rfl
  have h70 : (70 : UInt8).toNat = 70 := rfl
  have h97 : (97 : UInt8).toNat = 97 := rfl
  have h102 : (102 : UInt8).toNat = 102 := rfl
  simp only [h48, h57, h65, h70, h97, h102]
  split_ifs <;> first | omega | rfl

theorem hex2Bin_eq (input : List UInt8) : hex2Bin input = (bytePairs input).head? := by
  match input with
  | [] => rfl
  | [_] => rfl
  | a :: b :: rest =>
    simp only [hex2Bin, hex1Bin_eq, bytePairs]
    by_cases ha : isXDigit a = true <;> by_cases hb : isXDigit b = true <;> simp [ha, hb]

theorem bytePairs_drop {input : List UInt8} {b : Nat} {ps : List Nat} (h : bytePairs input = b :: ps) :
    bytePairs (input.drop 2) = ps := by
  match input with
  | [] => cases h
  | [_] => cases h
  | a :: b :: rest =>
    rw [bytePairs] at h
    split at h
    · exact (List.cons.inj h).2
    · cases h

theorem drop_pair (k : Nat) (input : List UInt8) : (input.drop 2).drop (2 * k) = input.drop (2 * (k + 1)) := by
  rw [List.drop_drop]
  congr 1
  omega

theorem readAddr_eq (k : Nat) (input : List UInt8) {addr chksum : Nat} (hc : chksum < 256) :
    readAddr k input addr chksum = if k ≤ (bytePairs input).length then
      some (((bytePairs input).take k).foldl (fun a b => u32 (a * 256 + b)) addr,
        (chksum + ((bytePairs input).take k).sum) % 256, input.drop (2 * k)) else none := by
  induction k generalizing input addr chksum with
  | zero => simp [readAddr, Nat.mod_eq_of_lt hc]
  | succ k ih =>
    rw [readAddr, hex2Bin_eq]
    cases hps : bytePairs input with
    | nil => simp
    | cons b ps =>
      simp only [List.head?_cons, ih (input.drop 2) (Nat.mod_lt _ (by decide : 0 < 256)), bytePairs_drop hps,
        List.length_cons, Nat.succ_le_succ_iff, List.take_succ_cons, List.foldl_cons, List.sum_cons,
        Nat.mod_add_mod, Nat.add_assoc, drop_pair]

theorem readData_eq (k : Nat) (input : List UInt8) {chksum : Nat} (hc : chksum < 256) :
    readData k input chksum = if k ≤ (bytePairs input).length then
      some (((bytePairs input).take k).map UInt8.ofNat, (chksum + ((bytePairs input).take k).sum) % 256,
        input.drop (2 * k)) else none := by
  induction k generalizing input chksum with
  | zero => simp [readData, Nat.mod_eq_of_lt hc]
  | succ k ih =>
    rw [readData, hex2Bin_eq]
    cases hps : bytePairs input with
    | nil => simp
    | cons b ps =>
      simp only [List.head?_cons, ih (input.drop 2) (Nat.mod_lt _ (by decide : 0 < 256)), bytePairs_drop hps,
        List.length_cons, Nat.succ_le_succ_iff, List.take_succ_cons, List.map_cons, List.sum_cons,
        Nat.mod_add_mod, Nat.add_assoc, drop_pair]
      split <;> rfl

theorem recordType_eq (v : UInt8) (n : Nat) : recordType v n =
    (recordKind v).map fun r => (r.1, r.2, if v = 53 then 0 else (n : Int) - (r.2 + 1)) := by
  have hcount : v = 53 ↔ v.toNat = 53 := ⟨fun h => h ▸ rfl, fun h => UInt8.toNat_inj.mp h⟩
  simp only [recordType, recordKind, hcount]
  split <;> simp_all

theorem addressLength_le {v : UInt8} {type : Int} {k : Nat} (h : recordKind v = some (type, k)) : 2 ≤ k ∧ k ≤ 4 := by
  rw [recordKind] at h
  split at h <;> simp_all <;> omega

theorem xDigit_lt {c : UInt8} (h : isXDigit c = true) : xDigit c < 16 := by
  simp only [isXDigit, xDigit, Bool.or_eq_true, Bool.and_eq_true, decide_eq_true_eq,
    UInt8.le_iff_toNat_le] at h ⊢
  split_ifs <;> grind

theorem bytePairs_lt {text : List UInt8} {b : Nat} (hb : b ∈ bytePairs text) : b < 256 := by
  match text with
  | [] => cases hb
  | [_] => cases hb
  | x :: y :: rest =>
    rw [bytePairs] at hb
    split at hb
    · next hx =>
      rcases List.mem_cons.mp hb with rfl | hb
      · have h1 := xDigit_lt hx.1
        have h2 := xDigit_lt hx.2
        omega
      · exact bytePairs_lt hb
    · cases hb

theorem bytePairs_drop_mul {k : Nat} {text : List UInt8} (h : k ≤ (bytePairs text).length) :
    bytePairs (text.drop (2 * k)) = (bytePairs text).drop k := by
  induction k generalizing text with
  | zero => rfl
  | succ k ih =>
    cases hps : bytePairs text with
    | nil =>
      rw [hps] at h
      cases h
    | cons b ps =>
      have hrest := bytePairs_drop hps
      rw [hps, List.length_cons] at h
      rw [← drop_pair, ih (by rw [hrest]; omega), hrest, List.drop_succ_cons]

/-- The address of a record has at most 32 bits. -/
theorem foldl_u32 {ps : List Nat} (hps : ∀ b ∈ ps, b < 256) (hlen : ps.length ≤ 4) :
    ps.foldl (fun a b => u32 (a * 256 + b)) 0 = beValue ps := by
  have hwrap : ∀ (ps : List Nat) (a : Nat), ps.foldl (fun a b => u32 (a * 256 + b)) (u32 a) =
      u32 (ps.foldl (fun a b => a * 256 + b) a) := by
    intro ps
    induction ps with
    | nil => intro a; rfl
    | cons b ps ih =>
      intro a
      have hstep : u32 (u32 a * 256 + b) = u32 (a * 256 + b) := by
        simp only [u32]
        omega
      rw [List.foldl_cons, List.foldl_cons, hstep, ih]
  have hbound : ∀ (ps : List Nat) (a : Nat), (∀ b ∈ ps, b < 256) →
      ps.foldl (fun a b => a * 256 + b) a < (a + 1) * 256 ^ ps.length := by
    intro ps
    induction ps with
    | nil => intro a _; simp
    | cons b ps ih =>
      intro a hps
      obtain ⟨hb, hps⟩ := List.forall_mem_cons.mp hps
      refine Nat.lt_of_lt_of_le (ih (a * 256 + b) hps) ?_
      rw [List.length_cons, Nat.pow_succ, Nat.mul_comm (256 ^ _) 256, ← Nat.mul_assoc]
      exact Nat.mul_le_mul_right _ (by omega)
  have hlt := hbound ps 0 hps
  have hpow : 256 ^ ps.length ≤ 256 ^ 4 := Nat.pow_le_pow_right (by decide) hlen
  exact (hwrap ps 0).trans (u32_of_lt (by omega))

/-- How many data bytes are read of a record with the byte count `n`. -/
def dataRead (v : UInt8) (k n : Nat) : Nat := if v = 53 then 0 else n - (k + 1)

theorem toNat_count (v : UInt8) (k n : Nat) :
    (if v = 53 then 0 else (n : Int) - (k + 1)).toNat = dataRead v k n := by
  rw [dataRead]
  split
  · rfl
  · omega

/-- The checksum is the complement of the sum of the bytes in front of it just when all of them sum up
    to 255. -/
theorem checksum_iff {ps : List Nat} {n k d : Nat} (hps : ∀ b ∈ ps, b < 256) (h : k + d < ps.length) :
    (n + (ps.take (k + d + 1)).sum) % 256 = 255 ↔
      ps[k + d] = 255 - (n + (ps.take k).sum + ((ps.drop k).take d).sum) % 256 := by
  have hlast := hps _ (List.getElem_mem h)
  rw [← List.take_append_getElem h, List.sum_append, List.sum_singleton, List.take_add, List.sum_append]
  omega

/-- The record that is taken from a text. -/
def recordRead (type : Int) (v : UInt8) (k n : Nat) (ps : List Nat) : Srec :=
  ⟨type, if v = 53 then 0 else (n : Int) - (k + 1), beValue (ps.take k),
    ((ps.drop k).take (dataRead v k n)).map UInt8.ofNat⟩

/-- All bytes that are read are there, and they sum up to 255. -/
def Passes (v : UInt8) (k n : Nat) (ps : List Nat) : Prop :=
  k + dataRead v k n < ps.length ∧ (n + (ps.take (k + dataRead v k n + 1)).sum) % 256 = 255

theorem srecDecode_of_pairs {line rest : List UInt8} {v : UInt8} {type : Int} {k n : Nat} {ps : List Nat}
    (htext : textAfterS line = v :: rest) (hkind : recordKind v = some (type, k)) (hps : bytePairs rest = n :: ps)
    (r : Srec) : srecDecode line = .ok r ↔ Passes v k n ps ∧ recordRead type v k n ps = r := by
  have hline : (line.dropWhile (· ≠ 83)).tail = v :: rest := htext
  rw [srecDecode, hline]
  have hinput := bytePairs_drop hps
  have hbytes : ∀ b ∈ ps, b < 256 := fun b hb => bytePairs_lt (hinput.symm ▸ hb)
  simp only [hex2Bin_eq, recordType_eq, hkind, hps, List.head?_cons, Option.map_some,
    readAddr_eq k _ (Nat.mod_lt n (by decide : 0 < 256)), hinput, Passes]
  by_cases hk : k ≤ ps.length
  · have hafter : bytePairs ((rest.drop 2).drop (2 * k)) = ps.drop k := by
      rw [bytePairs_drop_mul (by rwa [hinput]), hinput]
    have haddr := foldl_u32 (fun b hb => hbytes b (List.mem_of_mem_take hb))
      (show (ps.take k).length ≤ 4 by rw [List.length_take]; have := (addressLength_le hkind).2; omega)
    simp only [if_pos hk, readData_eq _ _ (Nat.mod_lt _ (by decide : 0 < 256)), toNat_count, hafter, haddr]
    by_cases hd : dataRead v k n ≤ (ps.drop k).length
    · have hend : (bytePairs (((rest.drop 2).drop (2 * k)).drop (2 * dataRead v k n))).head? =
          ps[k + dataRead v k n]? := by
        rw [bytePairs_drop_mul (by rwa [hafter]), hafter, List.drop_drop, List.head?_drop]
      simp only [if_pos hd, hend]
      rw [List.length_drop] at hd
      by_cases hlen : k + dataRead v k n < ps.length
      · have hsum := checksum_iff (n := n) hbytes hlen
        have hmod : ((n % 256 + (ps.take k).sum) % 256 + ((ps.drop k).take (dataRead v k n)).sum) % 256 =
            (n + (ps.take k).sum + ((ps.drop k).take (dataRead v k n)).sum) % 256 := by omega
        rw [List.getElem?_eq_getElem hlen, hmod]
        simp only [ne_eq, ite_not, ← hsum, hlen, true_and, recordRead]
        split
        · next h => simp [h]
        · next h => simp [h]
      · rw [List.getElem?_eq_none (by omega)]
        simp [hlen]
    · rw [List.length_drop] at hd
      simp [hd, show ¬ k + dataRead v k n < ps.length by omega]
  · simp [hk, show ¬ k + dataRead v k n < ps.length by omega]

/-- The decoder takes a line for a record. -/
theorem srecDecode_ok_iff {line : List UInt8} {r : Srec} : srecDecode line = .ok r ↔
    ∃ v rest type k n ps, textAfterS line = v :: rest ∧ recordKind v = some (type, k) ∧ bytePairs rest = n :: ps ∧
      Passes v k n ps ∧ recordRead type v k n ps = r := by
  constructor
  · intro h
    have hparts := h
    have hline : (line.dropWhile (· ≠ 83)).tail = textAfterS line := rfl
    rw [srecDecode, hline] at hparts
    cases htext : textAfterS line with
    | nil =>
      rw [htext] at hparts
      cases hparts
    | cons v rest =>
      simp only [htext, hex2Bin_eq, recordType_eq] at hparts
      cases hps : bytePairs rest with
      | nil =>
        rw [hps] at hparts
        cases hparts
      | cons n ps =>
        cases hkind : recordKind v with
        | none =>
          rw [hps, hkind] at hparts
          cases hparts
        | some tk =>
          exact ⟨v, rest, tk.1, tk.2, n, ps, rfl, hkind, hps, (srecDecode_of_pairs htext hkind hps r).mp h⟩
  · rintro ⟨v, rest, type, k, n, ps, htext, hkind, hps, h⟩
    exact (srecDecode_of_pairs htext hkind hps r).mpr h

-- ============================================================================
-- Where only records are taken
-- ============================================================================

/-- The byte count fits the fields that are read: it is at least that of the address and the checksum,
    and just that for a count record. -/
def CountFits (v : UInt8) (k n : Nat) : Prop := if v = 53 then n = k + 1 else k + 1 ≤ n

/-- When the bytes that are read sum up to 255, the byte count fits, and as many bytes follow. -/
def Counted (line : List UInt8) : Prop :=
  ∀ v rest type k n ps, textAfterS line = v :: rest → recordKind v = some (type, k) → bytePairs rest = n :: ps →
    Passes v k n ps → CountFits v k n ∧ ps.length = n

/-- **S-records.**  Whatever `srec_decode` takes for a record is one, just for the lines whose byte count
    fits when the sum is right. -/
theorem acceptsRecords_iff (line : List UInt8) : AcceptsRecords line ↔ Counted line := by
  constructor
  · intro h v rest type k n ps htext hkind hps hpass
    obtain ⟨⟨v', rest', k', addr, data, htext', hkind', hlen, hbytes, -, hcount, -⟩, -⟩ :=
      h _ ((srecDecode_of_pairs htext hkind hps _).mpr ⟨hpass, rfl⟩)
    obtain ⟨rfl, rfl⟩ := List.cons.inj (htext.symm.trans htext')
    obtain ⟨-, rfl⟩ := Prod.mk.inj (Option.some.inj (hkind.symm.trans hkind'))
    obtain ⟨rfl, rfl⟩ := List.cons.inj (hps.symm.trans hbytes)
    have hlength : (addr ++ data ++ [255 - (k + data.length + 1 + addr.sum + data.sum) % 256]).length =
        k + data.length + 1 := by simp [hlen, Nat.add_assoc]
    refine ⟨?_, hlength⟩
    simp only [recordRead] at hcount
    rw [CountFits]
    split
    · next hv =>
      rw [if_pos hv] at hcount
      omega
    · omega
  · intro h r hr
    obtain ⟨v, rest, type, k, n, ps, htext, hkind, hps, hpass, rfl⟩ := srecDecode_ok_iff.mp hr
    obtain ⟨hfits, hlength⟩ := h v rest type k n ps htext hkind hps hpass
    have hbytes : ∀ b ∈ n :: ps, b < 256 := fun b hb => bytePairs_lt (hps.symm ▸ hb)
    have hn := hbytes n List.mem_cons_self
    have hk := (addressLength_le hkind).1
    have hin : k + dataRead v k n < ps.length := hpass.1
    have hcounts : n = k + dataRead v k n + 1 ∧
        (if v = 53 then 0 else (n : Int) - (k + 1)) = dataRead v k n := by
      rw [CountFits] at hfits
      rw [dataRead]
      by_cases hv : v = 53
      · rw [if_pos hv] at hfits
        simp only [if_pos hv]
        omega
      · rw [if_neg hv] at hfits
        simp only [if_neg hv]
        omega
    obtain ⟨hd, hcount⟩ := hcounts
    have hdata : ((ps.drop k).take (dataRead v k n)).length = dataRead v k n := by
      rw [List.length_take, List.length_drop]
      omega
    have hlast := (checksum_iff (fun b hb => hbytes b (List.mem_cons_of_mem n hb)) hpass.1).mp hpass.2
    have hsplit : ps = ps.take k ++ (ps.drop k).take (dataRead v k n) ++ [ps[k + dataRead v k n]] := by
      rw [← List.take_add, List.take_append_getElem hin, List.take_of_length_le (by omega)]
    refine ⟨⟨v, rest, k, ps.take k, (ps.drop k).take (dataRead v k n), htext, hkind, ?_, ?_, rfl, ?_, rfl⟩, ?_, ?_⟩
    · rw [List.length_take]
      omega
    · rw [hps, hdata, ← hd, ← hlast, ← hsplit]
    · rw [hdata]
      exact hcount
    · simp only [recordRead, hcount]
      omega
    · simp only [recordRead, hcount]
      omega

/-- A byte count of 0 in front of an address and a checksum that fits: the data count is -3. -/
theorem not_acceptsRecords_shortCount : ¬ AcceptsRecords (ascii "S1000000FF") := by
  intro h
  have hr : srecDecode (ascii "S1000000FF") = .ok ⟨srecData2, -3, 0, []⟩ := by decide
  exact absurd (h _ hr).2.1 (by decide)

end Uboot.Common.SRecord
