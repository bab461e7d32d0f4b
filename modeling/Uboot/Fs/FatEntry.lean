/-
  Uboot.Fs.FatEntry

  `get_fatent` of fs/fat/fat.c with its buffer: six sectors of the table, which hold a whole
  number of entries of each type.

  An entry of a FAT32 table has 28 bits; the four above them are not cleared.  The length of
  the table is kept in 16 bits, and nothing is read into the buffer when they are all zero.
-/

import Uboot.Fs.Fat
import Uboot.Fs.FatDisk
import Uboot.Lib.Run
import Mathlib.Tactic.IntervalCases

namespace Uboot.Fs.FatEntry

open Uboot.Lib Uboot.Fs.Fat
open Uboot.Fs.FatDisk (Blocks Device blockBytes)

-- ============================================================================
-- The volume
-- ============================================================================

/-- A partition of a device with blocks of 512 bytes. -/
structure Volume where
  data : Blocks
  partOffset : Nat

/-- The bytes of the partition. -/
def Volume.bytes (v : Volume) : Mem UInt8 := fun x => v.data (u32 (x / 512 + v.partOffset)) (x % 512)

/-- A device that returns all blocks that are asked for. -/
def healthy : Device := ⟨512, fun _ cnt => cnt⟩

/-- What of `fsdata` says where the table is. -/
structure Table where
  fatsize : FatSize
  fatlength : Nat
  fatSect : Nat

/-- `do_fat_read` on the boot sector.  The fields of `fsdata` are `u16`. -/
def tableOf (m : Mem UInt8) (fatsize : FatSize) : Table where
  fatsize
  fatlength := (if fatsize = .fat32 then fat32Length m else fatLength m) % 65536
  fatSect := reserved m

-- ============================================================================
-- get_fatent
-- ============================================================================

/-- `fatbuf` and `fatbufnum`. -/
structure Window where
  fatbuf : Mem UInt8
  fatbufnum : Nat

/-- `FAT12BUFSIZE`, `FAT16BUFSIZE` and `FAT32BUFSIZE`: the entries in a buffer. -/
def bufSize : FatSize → Nat
  | .fat12 => 2048
  | .fat16 => 1536
  | .fat32 => 768

/-- The entry at `offset` of the buffer. -/
def entryAt (fatsize : FatSize) (fatbuf : Mem UInt8) (offset : Nat) : Nat :=
  match fatsize with
  | .fat32 => rd32 fatbuf (4 * offset)
  | .fat16 => rd16 fatbuf (2 * offset)
  | .fat12 =>
    let off16 := offset * 3 / 4
    let val1 := rd16 fatbuf (2 * off16)
    let val2 := rd16 fatbuf (2 * (off16 + 1))
    match offset &&& 0x3 with
    | 0 => val1 &&& 0xfff
    | 1 => (val2 &&& 0x00ff) <<< 4 ||| (val1 &&& 0xf000) >>> 12
    | 2 => (val2 &&& 0x000f) <<< 8 ||| (val1 &&& 0xff00) >>> 8
    | _ => (val1 &&& 0xfff0) >>> 4

/-- `get_fatent`. -/
def getFatent (v : Volume) (t : Table) (w : Window) (entry : UInt32) : Window × Nat :=
  let bufnum := entry.toNat / bufSize t.fatsize
  let offset := entry.toNat - bufnum * bufSize t.fatsize
  if bufnum ≠ w.fatbufnum then
    -- in bytes, but compared with a count of sectors
    let fatlength := t.fatlength * 512
    let startblock := u32 (bufnum * 6 + t.fatSect)
    let getsize := if fatlength < 6 then fatlength else 6
    let o := FatDisk.diskRead (some healthy) v.partOffset v.data startblock getsize 0 w.fatbuf
    if o.isError then (⟨o.mem, w.fatbufnum⟩, 0)
    else (⟨o.mem, bufnum⟩, entryAt t.fatsize o.mem offset)
  else (w, entryAt t.fatsize w.fatbuf offset)

/-- `fatbufnum = -1`, with whatever is in the buffer. -/
def fresh (fatbuf : Mem UInt8) : Window := ⟨fatbuf, 0xffffffff⟩

-- ============================================================================
-- What an entry is
-- ============================================================================

/-- The bits of the table that an entry takes up, and those of them that are its value. -/
def width : FatSize → Nat
  | .fat12 => 12
  | .fat16 => 16
  | .fat32 => 32

def valueBits : FatSize → Nat
  | .fat12 => 12
  | .fat16 => 16
  | .fat32 => 28

/-- The value of an entry: the bits from `width * entry` on, least significant first. -/
def value (fatsize : FatSize) (fat : Mem UInt8) (entry : Nat) : Nat :=
  let bit := width fatsize * entry
  rd32 fat (bit / 8) / 2 ^ (bit % 8) % 2 ^ valueBits fatsize

/-- The table on the volume. -/
def fatBytes (v : Volume) (t : Table) : Mem UInt8 := fun x => v.bytes (512 * t.fatSect + x)

/-- The lookup of an entry after others gives its value, whatever was in the buffer. -/
def Decodes (v : Volume) (t : Table) (earlier : List UInt32) (entry : UInt32) : Prop :=
  ∀ fatbuf, (getFatent v t (after (getFatent v t) (fresh fatbuf) earlier) entry).2 =
    value t.fatsize (fatBytes v t) entry.toNat

-- ============================================================================
-- One entry
-- ============================================================================

section Entry

theorem rd32_eq_rd16 (m : Mem UInt8) (a : Nat) : rd32 m a = rd16 m a + 65536 * rd16 m (a + 2) := by
  rw [rd32, rd16, rd16]
  ring

/-- Bits from two places side by side. -/
theorem shiftLeft_or {x y n : Nat} (hy : y < 2 ^ n) : x <<< n ||| y = x * 2 ^ n + y := by
  rw [← Nat.shiftLeft_add_eq_or_of_lt hy, Nat.shiftLeft_eq]

/-- The bits of a word above some of its bits. -/
theorem and_shiftRight {x n k : Nat} (hx : x < 2 ^ (n + k)) :
    (x &&& (2 ^ k - 1) * 2 ^ n) >>> n = x / 2 ^ n := by
  rw [Nat.shiftRight_and_distrib, Nat.shiftRight_eq_div_pow, Nat.shiftRight_eq_div_pow,
    Nat.mul_div_cancel _ (Nat.two_pow_pos n), Nat.and_two_pow_sub_one_eq_mod]
  refine Nat.mod_eq_of_lt (Nat.div_lt_of_lt_mul ?_)
  rwa [← Nat.pow_add]

/-- The four cases of a FAT12 entry. -/
theorem entryAt_fat12_cases (fatbuf : Mem UInt8) (offset : Nat) :
    entryAt .fat12 fatbuf offset =
      let val1 := rd16 fatbuf (2 * (offset * 3 / 4))
      let val2 := rd16 fatbuf (2 * (offset * 3 / 4 + 1))
      match offset % 4 with
      | 0 => val1 % 4096
      | 1 => val2 % 256 * 16 + val1 / 4096
      | 2 => val2 % 16 * 256 + val1 / 256
      | _ => val1 / 16 := by
  have h1 := rd16_lt fatbuf (2 * (offset * 3 / 4))
  have hmod : offset &&& 0x3 = offset % 4 := Nat.and_two_pow_sub_one_eq_mod offset 2
  simp only [entryAt, hmod]
  generalize rd16 fatbuf (2 * (offset * 3 / 4)) = val1 at h1
  generalize rd16 fatbuf (2 * (offset * 3 / 4 + 1)) = val2
  have hlt : offset % 4 < 4 := Nat.mod_lt _ (by omega)
  generalize offset % 4 = r at hlt
  have hhigh4 : (val1 &&& 0xf000) >>> 12 = val1 / 4096 := and_shiftRight (n := 12) (k := 4) h1
  have hhigh8 : (val1 &&& 0xff00) >>> 8 = val1 / 256 := and_shiftRight (n := 8) (k := 8) h1
  have hnext8 : val2 &&& 0x00ff = val2 % 256 := Nat.and_two_pow_sub_one_eq_mod val2 8
  have hnext4 : val2 &&& 0x000f = val2 % 16 := Nat.and_two_pow_sub_one_eq_mod val2 4
  interval_cases r
  · exact Nat.and_two_pow_sub_one_eq_mod val1 12
  · show (val2 &&& 0x00ff) <<< 4 ||| (val1 &&& 0xf000) >>> 12 = val2 % 256 * 2 ^ 4 + val1 / 4096
    rw [hnext8, hhigh4, shiftLeft_or (by omega)]
  · show (val2 &&& 0x000f) <<< 8 ||| (val1 &&& 0xff00) >>> 8 = val2 % 16 * 2 ^ 8 + val1 / 256
    rw [hnext4, hhigh8, shiftLeft_or (by omega)]
  · exact and_shiftRight (n := 4) (k := 12) h1

/-- A FAT12 entry is cut out of two words. -/
theorem entryAt_fat12 (fatbuf : Mem UInt8) (offset : Nat) :
    entryAt .fat12 fatbuf offset =
      rd32 fatbuf (2 * (offset * 3 / 4)) / 2 ^ (4 * (3 * (offset % 4) % 4)) % 4096 := by
  have h1 := rd16_lt fatbuf (2 * (offset * 3 / 4))
  have h2 := rd16_lt fatbuf (2 * (offset * 3 / 4) + 2)
  rw [entryAt_fat12_cases, rd32_eq_rd16]
  simp only [Nat.mul_add, Nat.mul_one]
  generalize rd16 fatbuf (2 * (offset * 3 / 4)) = val1 at h1
  generalize rd16 fatbuf (2 * (offset * 3 / 4) + 2) = val2 at h2
  have hlt : offset % 4 < 4 := Nat.mod_lt _ (by omega)
  generalize offset % 4 = r at hlt
  interval_cases r
  · show val1 % 4096 = (val1 + 65536 * val2) / 1 % 4096
    omega
  · show val2 % 256 * 16 + val1 / 4096 = (val1 + 65536 * val2) / 4096 % 4096
    omega
  · show val2 % 16 * 256 + val1 / 256 = (val1 + 65536 * val2) / 256 % 4096
    omega
  · show val1 / 16 = (val1 + 65536 * val2) / 16 % 4096
    omega

/-- Without the buffer an entry is looked up on the volume. -/
theorem getFatent_eq_entryAt (m : Mem UInt8) (fs : FsData) (entry : Nat) :
    Fat.getFatent m fs entry = entryAt fs.fatsize (fun x => m (512 * fs.fatSect + x)) entry := by
  rw [Fat.getFatent]
  cases fs.fatsize with
  | fat12 =>
    rw [entryAt_fat12_cases]
    rfl
  | fat16 => rfl
  | fat32 => rfl

/-- The bits of a word are those of the word one byte on. -/
theorem rd32_next (m : Mem UInt8) (a : Nat) :
    rd32 m a / 4096 % 4096 = rd32 m (a + 1) / 16 % 4096 ∧
      rd32 m a / 256 % 4096 = rd32 m (a + 1) % 4096 := by
  have h0 := (m a).toNat_lt
  have h1 := (m (a + 1)).toNat_lt
  have h2 := (m (a + 2)).toNat_lt
  have h3 := (m (a + 3)).toNat_lt
  simp only [rd32, Nat.add_assoc, Nat.reduceAdd]
  omega

theorem entryAt_fat12_eq_value (fat : Mem UInt8) (entry : Nat) :
    entryAt .fat12 fat entry = value .fat12 fat entry := by
  obtain ⟨q, r, hr, rfl⟩ : ∃ q r, r < 4 ∧ entry = 4 * q + r :=
    ⟨entry / 4, entry % 4, Nat.mod_lt _ (by omega), (Nat.div_add_mod _ _).symm⟩
  have hword : (4 * q + r) * 3 / 4 = 3 * q + r * 3 / 4 := by omega
  have hrem : (4 * q + r) % 4 = r := by omega
  have hbyte : 12 * (4 * q + r) / 8 = 6 * q + 3 * r / 2 := by omega
  have hbit : 12 * (4 * q + r) % 8 = 12 * r % 8 := by omega
  rw [entryAt_fat12, hword, hrem]
  simp only [value, width, valueBits, hbyte, hbit]
  interval_cases r
  · show rd32 fat (2 * (3 * q)) / 1 % 4096 = rd32 fat (6 * q) / 1 % 4096
    rw [show 2 * (3 * q) = 6 * q by omega]
  · show rd32 fat (2 * (3 * q)) / 4096 % 4096 = rd32 fat (6 * q + 1) / 16 % 4096
    rw [show 2 * (3 * q) = 6 * q by omega, (rd32_next fat (6 * q)).1]
  · show rd32 fat (2 * (3 * q + 1)) / 256 % 4096 = rd32 fat (6 * q + 3) / 1 % 4096
    rw [show 2 * (3 * q + 1) = 6 * q + 2 by omega, (rd32_next fat (6 * q + 2)).2, Nat.div_one]
  · show rd32 fat (2 * (3 * q + 2)) / 16 % 4096 = rd32 fat (6 * q + 4) / 16 % 4096
    rw [show 2 * (3 * q + 2) = 6 * q + 4 by omega]

/-- The entry is its value, unless bits above it are set. -/
theorem entryAt_eq_value_iff (fatsize : FatSize) (fat : Mem UInt8) (entry : Nat) :
    entryAt fatsize fat entry = value fatsize fat entry ↔
      (fatsize = .fat32 → rd32 fat (4 * entry) < 268435456) := by
  cases fatsize with
  | fat12 => exact iff_of_true (entryAt_fat12_eq_value fat entry) (by simp)
  | fat16 =>
    refine iff_of_true ?_ (by simp)
    have hlt := rd16_lt fat (2 * entry)
    have hbyte : 16 * entry / 8 = 2 * entry := by omega
    have hbit : 16 * entry % 8 = 0 := by omega
    simp only [entryAt, value, width, valueBits, hbyte, hbit, rd32_eq_rd16]
    omega
  | fat32 =>
    have hbyte : 32 * entry / 8 = 4 * entry := by omega
    have hbit : 32 * entry % 8 = 0 := by omega
    simp only [entryAt, value, width, valueBits, hbyte, hbit, true_imp_iff]
    omega

/-- A buffer of the table holds its entries whole. -/
theorem entryAt_window {fatsize : FatSize} {fatbuf fat : Mem UInt8} {bufnum offset : Nat}
    (hbuf : ∀ x < 3072, fatbuf x = fat (3072 * bufnum + x)) (hoffset : offset < bufSize fatsize) :
    entryAt fatsize fatbuf offset = entryAt fatsize fat (bufnum * bufSize fatsize + offset) := by
  have h16 : ∀ a b, b = 3072 * bufnum + a → a + 1 < 3072 → rd16 fatbuf a = rd16 fat b := by
    rintro a b rfl ha
    rw [rd16, rd16, hbuf a (by omega), hbuf (a + 1) ha, Nat.add_assoc]
  cases fatsize with
  | fat16 =>
    have hlt : offset < 1536 := hoffset
    exact h16 (2 * offset) _ (by simp only [bufSize]; omega) (by omega)
  | fat32 =>
    have hlt : offset < 768 := hoffset
    show rd32 fatbuf (4 * offset) = rd32 fat (4 * (bufnum * 768 + offset))
    rw [rd32_eq_rd16, rd32_eq_rd16, h16 (4 * offset) _ rfl (by omega),
      h16 (4 * offset + 2) _ rfl (by omega)]
    congr 2 <;> congr 1 <;> omega
  | fat12 =>
    have hlt : offset < 2048 := hoffset
    have hmod : ∀ n : Nat, n &&& 0x3 = n % 4 := fun n => Nat.and_two_pow_sub_one_eq_mod n 2
    have hrem : (bufnum * 2048 + offset) % 4 = offset % 4 := by omega
    have hval1 := h16 (2 * (offset * 3 / 4)) (2 * ((bufnum * 2048 + offset) * 3 / 4))
      (by omega) (by omega)
    -- the last entry of the buffer does not look at the word behind it
    have hval2 : offset % 4 ≠ 3 → rd16 fatbuf (2 * (offset * 3 / 4 + 1)) =
        rd16 fat (2 * ((bufnum * 2048 + offset) * 3 / 4 + 1)) := by
      intro h
      have hle : offset ≤ 2046 := by omega
      exact h16 _ _ (by omega) (by omega)
    simp only [entryAt, bufSize, hmod, hrem, hval1]
    have hr : offset % 4 < 4 := Nat.mod_lt _ (by omega)
    generalize offset % 4 = r at hval2 hr
    interval_cases r
    · rfl
    · simp only [hval2 (by decide)]
    · simp only [hval2 (by decide)]
    · rfl

end Entry

-- ============================================================================
-- The buffer
-- ============================================================================

section Buffer

variable {v : Volume} {t : Table} {w : Window} {entry : UInt32} {earlier : List UInt32}

/-- Blocks of the partition are its bytes. -/
theorem blockBytes_eq_read (v : Volume) (s n : Nat) :
    blockBytes 512 v.data (u32 (s + v.partOffset)) n = v.bytes.read (512 * s) (512 * n) := by
  induction n with
  | zero => rfl
  | succ n ih =>
    rw [FatDisk.blockBytes_add, ih, Nat.mul_succ, Mem.read_add]
    refine congrArg _ ?_
    have hblock : blockBytes 512 v.data (u32 (u32 (s + v.partOffset) + n)) 1 =
        (v.data (u32 (s + n + v.partOffset))).read 0 512 := by
      rw [blockBytes, List.range_one, List.flatMap_singleton, Nat.add_zero, u32_add_left,
        u32_u32, Nat.add_right_comm]
    rw [hblock]
    refine List.map_congr_left fun i hi => ?_
    have hlt := List.mem_range.mp hi
    rw [Volume.bytes, Nat.zero_add, show (512 * s + 512 * n + i) / 512 = s + n by omega,
      show (512 * s + 512 * n + i) % 512 = i by omega]

/-- What `disk_read` leaves in the buffer of a healthy device. -/
theorem diskRead_healthy (v : Volume) (startblock buf : Nat) (mem : Mem UInt8) {getsize : Nat}
    (h : getsize ≤ 164 * 0xc800) :
    let o := FatDisk.diskRead (some healthy) v.partOffset v.data startblock getsize buf mem
    o.isError = false ∧ o.mem = mem.write buf (v.bytes.read (512 * startblock) (512 * getsize)) := by
  have hint : ¬ FatDisk.toInt getsize < 0 := by
    rw [FatDisk.toInt, if_pos (by omega)]
    omega
  rw [← blockBytes_eq_read]
  by_cases hsmall : getsize < 0xc800
  · simp only [FatDisk.diskRead, if_pos hsmall, Device.blockRead, Device.call, healthy, Nat.min_self]
    exact ⟨decide_eq_false hint, trivial⟩
  · simp only [FatDisk.diskRead, if_neg hsmall]
    obtain ⟨hmem, hret⟩ := FatDisk.readPieces_mem healthy v.data
      (u32 (startblock + v.partOffset)) getsize buf mem (fun sizeTotal _ _ => .inr (u32_of_lt (by omega)))
      (FatDisk.healthy_calls (fun _ _ => rfl))
    exact ⟨decide_eq_false (by rw [hret]; exact hint), hmem⟩

/-- The buffer holds its part of the table, or nothing yet. -/
def Window.Holds (v : Volume) (t : Table) (w : Window) : Prop :=
  w.fatbufnum = 0xffffffff ∨ ∀ x < 3072, w.fatbuf x = fatBytes v t (3072 * w.fatbufnum + x)

theorem bufnum_lt (fatsize : FatSize) (entry : UInt32) : entry.toNat / bufSize fatsize < 5592406 := by
  have h := entry.toNat_lt
  cases fatsize <;> simp only [bufSize] <;> omega

/-- The sectors that are read. -/
def Table.getsize (t : Table) : Nat := if t.fatlength * 512 < 6 then t.fatlength * 512 else 6

/-- The buffer with another part of the table read into it. -/
def Window.refill (v : Volume) (t : Table) (w : Window) (bufnum : Nat) : Window where
  fatbuf := w.fatbuf.write 0 (v.bytes.read (512 * u32 (bufnum * 6 + t.fatSect)) (512 * t.getsize))
  fatbufnum := bufnum

/-- A buffer of a table with a length is read in whole. -/
theorem refill_fatbuf {bufnum : Nat} (h : bufnum < 5592406) (hlength : t.fatlength ≠ 0)
    (hfatSect : t.fatSect < 65536) :
    ∀ x < 3072, (w.refill v t bufnum).fatbuf x = fatBytes v t (3072 * bufnum + x) := by
  intro x hx
  have hsize : t.getsize = 6 := if_neg (by omega)
  have hstart : u32 (bufnum * 6 + t.fatSect) = bufnum * 6 + t.fatSect := u32_of_lt (by omega)
  have hfatbuf : (w.refill v t bufnum).fatbuf =
      w.fatbuf.write 0 (v.bytes.read (512 * (bufnum * 6 + t.fatSect)) (512 * 6)) := by
    rw [Window.refill, hsize, hstart]
  have hlt : x < (v.bytes.read (512 * (bufnum * 6 + t.fatSect)) (512 * 6)).length := by
    rw [Mem.read_length]
    omega
  have hin := Mem.write_inside w.fatbuf (a := 0) hlt
  rw [Nat.zero_add] at hin
  rw [hfatbuf, hin, Mem.getElem_read, fatBytes]
  exact congrArg v.bytes (by omega)

/-- Of one without, nothing. -/
theorem refill_unread (bufnum : Nat) (hlength : t.fatlength = 0) :
    (w.refill v t bufnum).fatbuf = w.fatbuf := by
  have hsize : t.getsize = 0 := by
    rw [Table.getsize, hlength]
    rfl
  have hfatbuf : (w.refill v t bufnum).fatbuf = w.fatbuf.write 0 [] := by
    rw [Window.refill, hsize]
    rfl
  rw [hfatbuf, Mem.write_nil]

theorem offset_lt (fatsize : FatSize) (n : Nat) :
    n - n / bufSize fatsize * bufSize fatsize < bufSize fatsize ∧
      n / bufSize fatsize * bufSize fatsize + (n - n / bufSize fatsize * bufSize fatsize) = n := by
  cases fatsize <;> simp only [bufSize] <;> omega

/-- A lookup in another part of the table. -/
theorem getFatent_refill (hother : entry.toNat / bufSize t.fatsize ≠ w.fatbufnum) :
    getFatent v t w entry = (w.refill v t (entry.toNat / bufSize t.fatsize),
      entryAt t.fatsize (w.refill v t (entry.toNat / bufSize t.fatsize)).fatbuf
        (entry.toNat - entry.toNat / bufSize t.fatsize * bufSize t.fatsize)) := by
  have hsize : t.getsize ≤ 164 * 0xc800 := by
    rw [Table.getsize]
    split <;> omega
  obtain ⟨herr, hmem⟩ := diskRead_healthy v
    (u32 (entry.toNat / bufSize t.fatsize * 6 + t.fatSect)) 0 w.fatbuf hsize
  have hstep : getFatent v t w entry =
      let o := FatDisk.diskRead (some healthy) v.partOffset v.data
        (u32 (entry.toNat / bufSize t.fatsize * 6 + t.fatSect)) t.getsize 0 w.fatbuf
      if o.isError then (⟨o.mem, w.fatbufnum⟩, 0)
      else (⟨o.mem, entry.toNat / bufSize t.fatsize⟩, entryAt t.fatsize o.mem
        (entry.toNat - entry.toNat / bufSize t.fatsize * bufSize t.fatsize)) :=
    if_pos hother
  rw [hstep]
  simp only [herr, hmem, Bool.false_eq_true, if_false]
  rfl

theorem getFatent_buffered (hsame : entry.toNat / bufSize t.fatsize = w.fatbufnum) :
    getFatent v t w entry = (w, entryAt t.fatsize w.fatbuf
      (entry.toNat - entry.toNat / bufSize t.fatsize * bufSize t.fatsize)) :=
  if_neg (not_not.mpr hsame)

/-- A lookup in a table whose length is not taken for 0: the buffer holds its part of the
    table, and the entry is the one on the volume. -/
theorem getFatent_step (entry : UInt32) (hlength : t.fatlength ≠ 0) (hfatSect : t.fatSect < 65536) (h : w.Holds v t) :
    (getFatent v t w entry).1.Holds v t ∧
      (getFatent v t w entry).2 = entryAt t.fatsize (fatBytes v t) entry.toNat := by
  have hnum := bufnum_lt t.fatsize entry
  obtain ⟨hoffset, hsum⟩ := offset_lt t.fatsize entry.toNat
  by_cases hsame : entry.toNat / bufSize t.fatsize = w.fatbufnum
  · have hbuf : ∀ x < 3072, w.fatbuf x =
        fatBytes v t (3072 * (entry.toNat / bufSize t.fatsize) + x) := by
      rcases h with hfresh | hbuf
      · omega
      · rw [hsame]
        exact hbuf
    have hval := entryAt_window hbuf hoffset
    rw [hsum] at hval
    rw [getFatent_buffered hsame]
    exact ⟨h, hval⟩
  · have hbuf := refill_fatbuf (v := v) (w := w) hnum hlength hfatSect
    have hval := entryAt_window hbuf hoffset
    rw [hsum] at hval
    rw [getFatent_refill hsame]
    exact ⟨.inr hbuf, hval⟩

/-- With a length of 0 nothing is read. -/
theorem getFatent_unread (v : Volume) (w : Window) (entry : UInt32) (hlength : t.fatlength = 0) :
    (getFatent v t w entry).1.fatbuf = w.fatbuf ∧
      ∃ offset, (getFatent v t w entry).2 = entryAt t.fatsize w.fatbuf offset := by
  by_cases hsame : entry.toNat / bufSize t.fatsize = w.fatbufnum
  · rw [getFatent_buffered hsame]
    exact ⟨rfl, _, rfl⟩
  · rw [getFatent_refill hsame, refill_unread _ hlength]
    exact ⟨rfl, _, rfl⟩

end Buffer

-- ============================================================================
-- Runs of lookups
-- ============================================================================

section Runs

variable {v : Volume} {t : Table}

theorem after_holds (hlength : t.fatlength ≠ 0) (hfatSect : t.fatSect < 65536) (fatbuf : Mem UInt8)
    (earlier : List UInt32) : (after (getFatent v t) (fresh fatbuf) earlier).Holds v t :=
  @run_invariant_all _ _ _ (Window.Holds v t) (fun _ _ h => (getFatent_step _ hlength hfatSect h).1)
    _ (.inl rfl) earlier

theorem after_unread (hlength : t.fatlength = 0) (fatbuf : Mem UInt8) (earlier : List UInt32) :
    (after (getFatent v t) (fresh fatbuf) earlier).fatbuf = fatbuf :=
  @run_invariant_all _ _ _ (fun w : Window => w.fatbuf = fatbuf)
    (fun _ _ h => (getFatent_unread _ _ _ hlength).1.trans h) _ rfl earlier

/-- An entry made up of what was in the buffer. -/
theorem entryAt_zero (fatsize : FatSize) (offset : Nat) : entryAt fatsize (fun _ => 0) offset = 0 := by
  cases fatsize with
  | fat12 => simp [entryAt_fat12, rd32]
  | fat16 => rfl
  | fat32 => rfl

theorem entryAt_ones (fatsize : FatSize) (offset : Nat) : entryAt fatsize (fun _ => 255) offset ≠ 0 := by
  have hbyte : (255 : UInt8).toNat = 255 := by decide
  cases fatsize with
  | fat12 =>
    have hones : ∀ a, rd32 (fun _ => 255) a = 0xffffffff := fun a => by simp only [rd32, hbyte]
    rw [entryAt_fat12, hones]
    have hr : offset % 4 < 4 := Nat.mod_lt _ (by omega)
    generalize offset % 4 = r at hr
    interval_cases r <;> decide
  | fat16 =>
    simp only [entryAt, rd16, hbyte]
    decide
  | fat32 =>
    simp only [entryAt, rd32, hbyte]
    decide

/-- The table as the boot sector describes it. -/
theorem tableOf_fatSect_lt (m : Mem UInt8) (fatsize : FatSize) : (tableOf m fatsize).fatSect < 65536 :=
  rd16_lt m 14

/-- What is returned is the entry on the volume, or made up of what was in the buffer. -/
theorem decodes_table_iff (hsect : t.fatSect < 65536) (earlier : List UInt32) (entry : UInt32) :
    Decodes v t earlier entry ↔ t.fatlength ≠ 0 ∧
      (t.fatsize = .fat32 → rd32 (fatBytes v t) (4 * entry.toNat) < 268435456) := by
  by_cases hlength : t.fatlength = 0
  · refine iff_of_false (fun h => ?_) fun h => h.1 hlength
    -- two buffers, and nothing is read into either
    have hzero := h fun _ => 0
    have hones := h fun _ => 255
    obtain ⟨o₁, ho₁⟩ := (getFatent_unread v (after (getFatent v t) (fresh fun _ => 0) earlier) entry
      hlength).2
    obtain ⟨o₂, ho₂⟩ := (getFatent_unread v (after (getFatent v t) (fresh fun _ => 255) earlier) entry
      hlength).2
    rw [ho₁, after_unread hlength, entryAt_zero] at hzero
    rw [ho₂, after_unread hlength, ← hzero] at hones
    exact entryAt_ones _ _ hones
  · rw [and_iff_right hlength]
    have hvalue := fun fatbuf => (getFatent_step entry hlength hsect
      (@after_holds v _ hlength hsect fatbuf earlier)).2
    simp only [Decodes, hvalue, forall_const]
    exact entryAt_eq_value_iff t.fatsize _ _

/-- The lengths of FAT12 and FAT16 tables fit. -/
theorem decodes_of_fatLength {fatsize : FatSize} (hsize : fatsize ≠ .fat32)
    (hlength : fatLength v.bytes ≠ 0) (earlier : List UInt32) (entry : UInt32) :
    Decodes v (tableOf v.bytes fatsize) earlier entry := by
  have hlt : fatLength v.bytes < 65536 := rd16_lt v.bytes 22
  refine (decodes_table_iff (tableOf_fatSect_lt _ _) earlier entry).mpr ⟨?_, fun h => absurd h hsize⟩
  rw [tableOf, if_neg hsize]
  dsimp only
  rwa [Nat.mod_eq_of_lt hlt]

/-- **FAT entries** are decoded right after any lookups just when the length of the table, cut
    to 16 bits, is not 0 and a FAT32 entry has no bits above its 28. -/
theorem decodes_entry_iff (v : Volume) (fatsize : FatSize) (earlier : List UInt32) (entry : UInt32) :
    Decodes v (tableOf v.bytes fatsize) earlier entry ↔
      (tableOf v.bytes fatsize).fatlength ≠ 0 ∧
        (fatsize = .fat32 →
          rd32 (fatBytes v (tableOf v.bytes fatsize)) (4 * entry.toNat) < 268435456) :=
  decodes_table_iff (tableOf_fatSect_lt _ _) earlier entry

end Runs

/-- A FAT32 volume with 65536 sectors in a table. -/
def largeTable : Volume where
  partOffset := 0
  data := fun s o =>
    if s = 0 then
      -- the sign, 32 reserved sectors, and a length whose low 16 bits are zero
      if 82 ≤ o then fat32Sign.getD (o - 82) 0
      else if o = 14 then 32 else if o = 38 then 1 else 0
    else if s = 32 then 1 else 0

theorem readBootsectandvi_largeTable : readBootsectandvi largeTable.bytes = some .fat32 := by
  decide +kernel

/-- Its entry 2 is 0x1010101, and what the buffer held is returned. -/
theorem not_decodes_largeTable :
    readBootsectandvi largeTable.bytes = some .fat32 ∧
      ¬ Decodes largeTable (tableOf largeTable.bytes .fat32) [] 2 := by
  refine ⟨readBootsectandvi_largeTable, fun h => ?_⟩
  have hzero := h fun _ => 0
  exact absurd hzero (by decide +kernel)

end Uboot.Fs.FatEntry
