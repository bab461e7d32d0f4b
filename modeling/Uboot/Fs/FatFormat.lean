/-
  Uboot.Fs.FatFormat

  The FAT32 formatter of fs/fat/fat.c: `write_pbr` (boot sector), `write_reserved`
  (FSINFO sector), `write_fat` (the two FATs) and `fat_format_device`.

  Layout of what is written, in sectors from the start of the partition:

      0            boot sector
      1            FSINFO
      2 .. 31      reserved, cleared
      32           first FAT, bspf sectors
      32 + bspf    second FAT, bspf sectors
      32 + 2 bspf  cluster 2, the root directory
-/

import Uboot.Lib.BlockDev

namespace Uboot.Fs.FatFormat

open Uboot.Lib

/-! ## Definitions from the source -/

/-- `disk_partition_t`, as far as the formatter reads it.  A partition lies in the
    32-bit block numbers of `lbaint_t`, so no sector number computed inside it wraps. -/
structure DiskPartition where
  start : Nat
  size : Nat
  size_lt : size < 4294967296
  fits : start + size ≤ 4294967296

/-- The sectors of the partition. -/
def DiskPartition.extent (p : DiskPartition) : Extent := ⟨p.start, p.size⟩

def reservedCnt : Nat := 32

/-- `setstr`: the characters of `src`, padded with blanks to `len`. -/
def setstr (src : List UInt8) (len : Nat) : List UInt8 :=
  (List.range len).map fun i => src.getD i 0x20

/-- Sectors per cluster by size class. -/
def spc (size : Nat) : Nat :=
  if size ≤ 0x20000 then 1
  else if size ≤ 0x40000 then 2
  else if size ≤ 0x80000 then 4
  else if size ≤ 0xFA0000 then 8
  else if size ≤ 0x1F40000 then 16
  else 32

/-- Sectors per FAT. -/
def fatSize (size : Nat) : Nat := size / (spc size * 128)

def zeros : Mem UInt8 := fun _ => 0

/-- The boot sector `write_pbr` builds. -/
def pbrImage (p : DiskPartition) : Mem UInt8 :=
  let img := zeros.write 0 [0xeb, 0x58, 0x90]
  let img := img.write 3 (setstr [83, 65, 77, 83, 85, 78, 71] 9)
  let img := img.write 11 (le16 512)
  let img := img.write 13 [UInt8.ofNat (spc p.size)]
  let img := img.write 14 (le16 reservedCnt)
  let img := img.write 16 [2]
  let img := img.write 17 (le16 0)
  let img := img.write 19 (le16 0)
  let img := img.write 21 [0xF8]
  let img := img.write 22 (le16 0)
  let img := img.write 24 (le16 0)
  let img := img.write 26 (le16 0)
  let img := img.write 28 (le32 0)
  let img := img.write 32 (le32 p.size)
  let img := img.write 36 (le32 (fatSize p.size))
  let img := img.write 40 (le16 0)
  let img := img.write 42 (le16 0)
  let img := img.write 44 (le32 2)
  let img := img.write 48 (le16 1)
  let img := img.write 50 (le16 0)
  let img := img.write 64 [0]
  let img := img.write 66 [0x29]
  let img := img.write 67 (le32 0x3333)
  let img := img.write 71 (setstr [78, 79, 32, 78, 65, 77, 69, 32] 11)
  let img := img.write 82 (setstr [70, 65, 84, 51, 50] 8)
  img.write 510 (le16 0xaa55)

/-- `write_pbr`: clears the reserved sectors, then refuses a partition below
    0x10000 sectors, else writes the boot sector and returns the FAT size. -/
def writePbr (d : BlockDev) (p : DiskPartition) : BlockDev × Option Nat :=
  let d := d.writeRun p.start 1 reservedCnt zeros
  if p.size < 0x10000 then (d, none)
  else (d.write p.start 1 (pbrImage p), some (fatSize p.size))

/-- The FSINFO sector `write_reserved` builds. -/
def fsInfoImage : Mem UInt8 :=
  let img := zeros.write 0 (le32 0x41615252)
  let img := img.write 484 (le32 0x61417272)
  let img := img.write 488 (le32 0xffffffff)
  let img := img.write 492 (le32 0x3)
  img.write 510 (le16 0xaa55)

def writeReserved (d : BlockDev) (p : DiskPartition) : BlockDev :=
  d.write (p.start + 1) 1 fsInfoImage

/-- The first sector of the first FAT: media, end mark, root directory. -/
def fatImage : Mem UInt8 :=
  ((zeros.write 0 (le32 0x0ffffff8)).write 4 (le32 0x0fffffff)).write 8 (le32 0x0fffffff)

/-- Passes of `for (i = 0; i < erase_block_cnt + 10; i += 16)`. -/
def eraseRuns (fatSize : Nat) : Nat := (fatSize * 2 + 10 + 15) / 16

/-- `write_fat`: clears both FATs and some sectors after them, sixteen at a time,
    then writes the first sector of the first FAT. -/
def writeFat (d : BlockDev) (p : DiskPartition) (fatSize : Nat) : BlockDev :=
  let d := d.writeRun (p.start + reservedCnt) 16 (eraseRuns fatSize) zeros
  d.write (p.start + reservedCnt) 1 fatImage

/-- `fat_format_device` on the partition `get_partition_info` reports.  `none` is
    the return value -1. -/
def fatFormatDevice (d : BlockDev) (p : DiskPartition) : BlockDev × Option Unit :=
  if d.disk 0 0x1fe ≠ 0x55 ∨ d.disk 0 0x1ff ≠ 0xaa then (d, none)
  else
    match writePbr d p with
    | (d, none) => (d, none)
    | (d, some fatSize) => (writeFat (writeReserved d p) p fatSize, some ())

/-! ## What a reader of the volume takes from the boot sector -/

/-- The fields of a FAT32 boot sector. -/
structure BootSector where
  spc : Nat
  res : Nat
  nft : Nat
  bsec : Nat
  bspf : Nat
  rdcl : Nat
  deriving DecidableEq, Repr

def bootSector (b : Mem UInt8) : BootSector where
  spc := (b 13).toNat
  res := rd16 b 14
  nft := (b 16).toNat
  bsec := rd32 b 32
  bspf := rd32 b 36
  rdcl := rd32 b 44

/-- Sectors before the first data cluster. -/
def BootSector.dataStart (b : BootSector) : Nat := b.res + b.nft * b.bspf

/-- Data clusters of the volume. -/
def BootSector.clusters (b : BootSector) : Nat := (b.bsec - b.dataStart) / b.spc

/-- First sector of the root directory. -/
def BootSector.rootStart (b : BootSector) : Nat := b.dataStart + (b.rdcl - 2) * b.spc

/-- What a freshly formatted volume is: nothing written outside the partition, the
    FAT copies alike, an entry for every cluster (two entries are reserved), and an
    empty root directory. -/
structure Formatted (p : DiskPartition) (d : BlockDev) : Prop where
  inside : d.WritesIn p.extent
  copies : let b := bootSector (d.disk p.start)
    ∀ i < b.bspf, ∀ o < 512,
      d.disk (p.start + b.res + i) o = d.disk (p.start + b.res + b.bspf + i) o
  covers : let b := bootSector (d.disk p.start)
    b.clusters + 2 ≤ b.bspf * (512 / 4)
  rootEmpty : let b := bootSector (d.disk p.start)
    ∀ i < b.spc, ∀ k < 512 / 32, d.disk (p.start + b.rootStart + i) (32 * k) = 0

/-! ## The boot sector -/

/-- The size classes, each with the size it begins above. -/
theorem spc_class (size : Nat) :
    spc size = 1 ∨ (spc size = 2 ∧ 0x20000 < size) ∨ (spc size = 4 ∧ 0x40000 < size) ∨
      (spc size = 8 ∧ 0x80000 < size) ∨ (spc size = 16 ∧ 0xFA0000 < size) ∨
      (spc size = 32 ∧ 0x1F40000 < size) := by
  simp only [spc]
  repeat' split
  all_goals omega

theorem spc_pos (size : Nat) : 0 < spc size := by
  have := spc_class size
  omega

theorem spc_le (size : Nat) : spc size ≤ 32 := by
  have := spc_class size
  omega

/-- From 32 MB on a FAT has at least 512 sectors. -/
theorem le_fatSize {size : Nat} (h : 0x10000 ≤ size) : 512 ≤ fatSize size := by
  rcases spc_class size with hs | ⟨hs, _⟩ | ⟨hs, _⟩ | ⟨hs, _⟩ | ⟨hs, _⟩ | ⟨hs, _⟩ <;>
    simp only [fatSize, hs] <;> omega

/-- The two FATs take at most a 64th of the partition. -/
theorem fatSize_le (size : Nat) : fatSize size * 128 ≤ size :=
  calc fatSize size * 128 ≤ size / 128 * 128 :=
        Nat.mul_le_mul_right _ (Nat.div_le_div_left (Nat.le_mul_of_pos_left _ (spc_pos _)) (by omega))
    _ ≤ size := Nat.div_mul_le_self ..

theorem bootSector_pbrImage (p : DiskPartition) :
    bootSector (pbrImage p) =
      { spc := spc p.size, res := 32, nft := 2, bsec := p.size, bspf := fatSize p.size
        rdcl := 2 } := by
  have hs := p.size_lt
  have hspc := spc_le p.size
  have hfat : fatSize p.size ≤ p.size := by have := fatSize_le p.size; omega
  simp only [bootSector, rd16, rd32, pbrImage, Mem.write, le16, le32, setstr, zeros]
  simp [reservedCnt]
  omega

/-! ## The disk after a format -/

/-- The writes of a format that is not refused. -/
def formatWrites (d : BlockDev) (p : DiskPartition) : BlockDev :=
  writeFat (writeReserved ((d.writeRun p.start 1 reservedCnt zeros).write p.start 1 (pbrImage p)) p)
    p (fatSize p.size)

/-- A format that returns 0 has made exactly these writes. -/
theorem fatFormatDevice_ok {d : BlockDev} {p : DiskPartition} {u : Unit}
    (h : (fatFormatDevice d p).2 = some u) : (fatFormatDevice d p).1 = formatWrites d p := by
  by_cases hm : d.disk 0 0x1fe ≠ 0x55 ∨ d.disk 0 0x1ff ≠ 0xaa
  · rw [fatFormatDevice, if_pos hm] at h
    exact absurd h (by simp)
  · by_cases hp : p.size < 0x10000
    · simp only [fatFormatDevice, if_neg hm, writePbr, if_pos hp] at h
      exact absurd h (by simp)
    · simp only [fatFormatDevice, if_neg hm, writePbr, if_neg hp, formatWrites]

variable {d : BlockDev} {p : DiskPartition}

/-- The boot sector survives the later writes. -/
theorem formatWrites_boot (h : 0x10000 ≤ p.size) (o : Nat) :
    (formatWrites d p).disk p.start o = pbrImage p o := by
  have hf := le_fatSize h
  rw [formatWrites, writeFat, writeReserved, BlockDev.write_outside _ (.inl (by simp [reservedCnt])),
    BlockDev.writeRun_outside _ (.inl (by simp [reservedCnt])),
    BlockDev.write_outside _ (.inl (by omega)),
    BlockDev.write_inside _ (Nat.le_refl _) (Nat.lt_succ_self _)]
  simp

/-- The first sector of the first FAT holds the three reserved entries. -/
theorem formatWrites_fat0 (o : Nat) :
    (formatWrites d p).disk (p.start + 32) o = fatImage o := by
  rw [formatWrites, writeFat, BlockDev.write_inside _ (by simp [reservedCnt]) (by simp [reservedCnt])]
  simp [reservedCnt]

/-- Every sector after that one is cleared, up to ten and more sectors past the
    second FAT. -/
theorem formatWrites_cleared {s : Nat} (h₁ : p.start + 32 < s)
    (h₂ : s < p.start + 32 + 16 * eraseRuns (fatSize p.size)) (o : Nat) :
    (formatWrites d p).disk s o = 0 := by
  have hz : ∀ x, zeros x = 0 := fun _ => rfl
  rw [formatWrites, writeFat, BlockDev.write_outside _ (.inr (by simp only [reservedCnt]; omega)),
    BlockDev.writeRun_inside _ hz (by simp only [reservedCnt]; omega)
      (by simp only [reservedCnt]; omega)]

theorem formatWrites_bootSector (h : 0x10000 ≤ p.size) :
    bootSector ((formatWrites d p).disk p.start) =
      { spc := spc p.size, res := 32, nft := 2, bsec := p.size, bspf := fatSize p.size
        rdcl := 2 } := by
  rw [← bootSector_pbrImage p]
  congr 1
  exact funext (formatWrites_boot h)

/-- Every write of a format lies inside the partition. -/
theorem formatWrites_inside (hd : d.log = []) (h : 0x10000 ≤ p.size) :
    (formatWrites d p).WritesIn p.extent := by
  have hf := fatSize_le p.size
  have h0 : d.WritesIn p.extent := by simp [BlockDev.WritesIn, hd]
  have hstop : p.extent.stop = p.start + p.size := rfl
  have hstart : p.extent.start = p.start := rfl
  simp only [formatWrites, writeFat, writeReserved, reservedCnt, eraseRuns]
  refine ((((h0.writeRun _ ?_ ?_).write _ ?_ ?_).write _ ?_ ?_).writeRun _ ?_ ?_).write _ ?_ ?_
  all_goals omega

/-- The FATs have an entry for every cluster of the volume. -/
theorem formatWrites_covers (h : 0x10000 ≤ p.size) :
    let b := bootSector ((formatWrites d p).disk p.start)
    b.clusters + 2 ≤ b.bspf * (512 / 4) := by
  rw [formatWrites_bootSector h]
  simp only [BootSector.clusters, BootSector.dataStart]
  rcases spc_class p.size with hs | ⟨hs, _⟩ | ⟨hs, _⟩ | ⟨hs, _⟩ | ⟨hs, _⟩ | ⟨hs, _⟩ <;>
    simp only [fatSize, hs] <;> omega

/-- Up to 8 GB the ten sectors cleared past the FATs take in the root directory. -/
theorem formatWrites_rootEmpty (h : 0x10000 ≤ p.size) (hs : p.size ≤ 0xFA0000) :
    let b := bootSector ((formatWrites d p).disk p.start)
    ∀ i < b.spc, ∀ k < 512 / 32,
      (formatWrites d p).disk (p.start + b.rootStart + i) (32 * k) = 0 := by
  have hf := le_fatSize h
  have hc := spc_class p.size
  rw [formatWrites_bootSector h]
  intro b i hi k _
  simp only [b] at hi
  apply formatWrites_cleared <;>
    simp only [b, BootSector.rootStart, BootSector.dataStart, eraseRuns] <;> omega

/-- **The two FATs never agree.** The first sector of the first FAT carries the
    reserved entries; the second FAT, which the boot sector announces, is left
    cleared. -/
theorem not_formatted {u : Unit} (hok : (fatFormatDevice d p).2 = some u) :
    ¬ Formatted p (fatFormatDevice d p).1 := by
  have hsize : 0x10000 ≤ p.size := by
    by_contra hlt
    by_cases hm : d.disk 0 0x1fe ≠ 0x55 ∨ d.disk 0 0x1ff ≠ 0xaa
    · simp [fatFormatDevice, hm] at hok
    · simp [fatFormatDevice, hm, writePbr, Nat.lt_of_not_le hlt] at hok
  intro h
  have hcopies := h.copies
  rw [fatFormatDevice_ok hok, formatWrites_bootSector hsize] at hcopies
  have hf := le_fatSize hsize
  have hfirst := hcopies 0 (by simp only; omega) 0 (by decide)
  simp only [Nat.add_zero] at hfirst
  rw [formatWrites_fat0, formatWrites_cleared (by omega) (by simp only [eraseRuns]; omega)] at hfirst
  exact absurd hfirst (by decide)

/-- A disk that holds nothing but the signature of a master boot record. -/
def signedDisk : BlockDev where
  disk s o := if s = 0 ∧ o = 0x1fe then 0x55 else if s = 0 ∧ o = 0x1ff then 0xaa else 0
  log := []

/-- A 64 MB partition from sector 63 on. -/
theorem not_formatted_64MB :
    (fatFormatDevice signedDisk ⟨63, 0x20000, by decide, by decide⟩).2 = some () ∧
      ¬ Formatted ⟨63, 0x20000, by decide, by decide⟩
        (fatFormatDevice signedDisk ⟨63, 0x20000, by decide, by decide⟩).1 :=
  ⟨by simp [fatFormatDevice, signedDisk, writePbr],
    not_formatted (u := ()) (by simp [fatFormatDevice, signedDisk, writePbr])⟩

/-- On a 32 MB partition the format returns 0, the first FAT begins with `0xf8` and
    the second with 0. -/
theorem fat_copies_differ_32MB :
    (fatFormatDevice signedDisk ⟨63, 0x10000, by decide, by decide⟩).2 = some () ∧
      ¬ Formatted ⟨63, 0x10000, by decide, by decide⟩
        (fatFormatDevice signedDisk ⟨63, 0x10000, by decide, by decide⟩).1 := by
  have hok : (fatFormatDevice signedDisk ⟨63, 0x10000, by decide, by decide⟩).2 = some () := by
    simp [fatFormatDevice, signedDisk, writePbr]
  refine ⟨hok, fun h => ?_⟩
  have hcopies := h.copies
  rw [fatFormatDevice_ok hok, formatWrites_bootSector (by decide)] at hcopies
  have hfirst := hcopies 0 (by decide) 0 (by decide)
  have h1 : (formatWrites signedDisk ⟨63, 0x10000, by decide, by decide⟩).disk (63 + 32) 0 = 0xf8 :=
    formatWrites_fat0 0
  have h2 : (formatWrites signedDisk ⟨63, 0x10000, by decide, by decide⟩).disk (63 + 32 + 512) 0 = 0 :=
    formatWrites_cleared (by decide) (by decide) 0
  exact absurd ((h1.symm.trans hfirst).trans h2) (by decide)

end Uboot.Fs.FatFormat
