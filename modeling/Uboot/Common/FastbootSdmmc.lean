/-
  Uboot.Common.FastbootSdmmc

  The fastboot partitions of an SD/MMC card, common/cmd_fastboot.c:
  `set_partition_table_sdmmc` takes four of them from the master boot record, in bytes,
  and `write_to_ptn_sdmmc` turns them back into sectors for the commands that write.

  The byte offsets are 32 bits wide, as are the sector numbers of the record.  Console
  output is left out, and what `movi` does with the other partitions.
-/

import Uboot.Common.MmcFdiskChs
import Uboot.Common.FastbootPtable
import Uboot.Common.DecompressExt4

namespace Uboot.Common.FastbootSdmmc

open Uboot.Lib Uboot.LibGeneric Uboot.Common.FastbootPtable
open Uboot.Common.MmcFdisk (PartitionInfo decodePartitionInfo entries)

-- ============================================================================
-- Definitions from the source
-- ============================================================================

/-- `CFG_FASTBOOT_SDMMC_BLOCKSIZE` -/
def sdmmcBlocksize : Nat := 512

/-- `FASTBOOT_PTENTRY_FLAGS_USE_MMC_CMD` -/
def useMmcCmd : Nat := 0x10000

/-- `FASTBOOT_PTENTRY_FLAGS_USE_MOVI_CMD` -/
def useMoviCmd : Nat := 0x20000

/-- The build options `CONFIG_FUSED` and `CONFIG_RECOVERY`. -/
structure Build where
  fused : Bool
  recovery : Bool

/-- `start`, `count` and `pid` of `set_partition_table_sdmmc`. -/
structure PartInfo where
  start : Int
  count : Int
  pid : Nat

/-- `get_mmc_part_info`.  When the record cannot be read, the variables keep what they
    have; nobody looks at the result. -/
def getMmcPartInfo (partInfo : PartitionInfo) (mbr : Option (Mem UInt8)) (partNum : Nat) (v : PartInfo) :
    PartInfo :=
  match mbr with
  | none => v
  | some mbr =>
    let read (off : Nat) : PartInfo :=
      let p := partInfo.decode mbr off
      ⟨p.blockStart, p.blockCount, p.partitionId⟩
    match partNum with
    | 1 => read 0x1BE
    | 2 => read 0x1CE
    | 3 => read 0x1DE
    | 4 => read 0x1EE
    | _ => v

/-- A partition with a place of its own on the card that only `movi` knows. -/
def moviEntry (name : String) (length : Nat) (h : length < 4294967296) : Ptentry :=
  ⟨ascii name, 0, length, useMoviCmd, zero_lt_word, h⟩

/-- The partitions that do not depend on the card. -/
def moviEntries (b : Build) : List Ptentry :=
  (if b.fused then [moviEntry "fwbl1" 0 zero_lt_word] else []) ++
    [moviEntry "bootloader" 0 zero_lt_word, moviEntry "kernel" 0 zero_lt_word,
      moviEntry "ramdisk" 0x300000 (by decide)] ++
    (if b.recovery then [moviEntry "Recovery" 0x600000 (by decide)] else [])

/-- The entry of a partition of the record: `start * CFG_FASTBOOT_SDMMC_BLOCKSIZE` and
    `count * CFG_FASTBOOT_SDMMC_BLOCKSIZE`, as `unsigned int`. -/
def mmcEntry (name : String) (v : PartInfo) : Ptentry :=
  ⟨ascii name, MmcFdisk.u32 (v.start * sdmmcBlocksize), MmcFdisk.u32 (v.count * sdmmcBlocksize), useMmcCmd,
    MmcFdisk.u32_lt _, MmcFdisk.u32_lt _⟩

/-- The partitions that are looked up in the record: name, number and type. -/
def mbrParts : List (String × Nat × Nat) :=
  [("system", 2, 0x83), ("userdata", 3, 0x83), ("cache", 4, 0x83), ("fat", 1, 0x0C)]

/-- The look-ups one after the other, up to `part_type_error`, with the return value. -/
def addMbrParts (partInfo : PartitionInfo) (mbr : Option (Mem UInt8)) :
    List (String × Nat × Nat) → PartInfo → List Ptentry → List Ptentry × Int
  | [], _, ptable => (ptable, 0)
  | (name, partNum, pid) :: parts, v, ptable =>
    let v := getMmcPartInfo partInfo mbr partNum v
    if v.pid ≠ pid then (ptable, -1)
    else addMbrParts partInfo mbr parts v (ptable ++ [mmcEntry name v])

/-- `set_partition_table_sdmmc`: the table and the return value.  `partInfo` and `v` are
    the local variables before anything is stored in them. -/
def setPartitionTableSdmmc (b : Build) (partInfo : PartitionInfo) (v : PartInfo)
    (mbr : Option (Mem UInt8)) : List Ptentry × Int :=
  addMbrParts partInfo mbr mbrParts v (moviEntries b)

/-- What `write_to_ptn_sdmmc` sets off. -/
inductive Flash
  | tooLarge
  /-- `mmc write`, with the numbers its arguments spell out. -/
  | mmcWrite (buffer start length : Nat)
  | writeCompressedExt4 (imgBase sectorBase : Nat)
  | movi
  /-- `while(1)` in `check_compress_ext4` -/
  | hang
  deriving DecidableEq

/-- `write_to_ptn_sdmmc`, for the image at `addr`. -/
def writeToPtnSdmmc (ram : Mem UInt8) (ptn : Ptentry) (addr size : Nat) : Flash :=
  if ptn.length ≠ 0 ∧ ptn.length < size then .tooLarge
  else if ptn.flags &&& useMmcCmd ≠ 0 then
    match DecompressExt4.checkCompressExt4 (DecompressExt4.fileHeader ram addr) ptn.length with
    | none => .hang
    | some 0 => .writeCompressedExt4 addr (ptn.start / sdmmcBlocksize)
    | some _ => .mmcWrite addr (ptn.start / sdmmcBlocksize) (ptn.length / sdmmcBlocksize)
  else .movi

-- ============================================================================
-- Back to sectors
-- ============================================================================

/-- Where a flash command writes: the sector it begins at and, if it says so, how many
    there are. -/
def Flash.Within (e : Extent) : Flash → Prop
  | .mmcWrite _ start length => start = e.start ∧ length = e.len
  | .writeCompressedExt4 _ sectorBase => sectorBase = e.start
  | _ => True

/-- The fastboot entry is the partition `e` of the record: divided by the block size it
    gives back the sectors, and a flash command goes there. -/
structure GivesBack (p : Ptentry) (e : Extent) : Prop where
  start : p.start / sdmmcBlocksize = e.start
  length : p.length / sdmmcBlocksize = e.len
  flash : ∀ ram addr size, (writeToPtnSdmmc ram p addr size).Within e

theorem writeToPtnSdmmc_within (ram : Mem UInt8) (p : Ptentry) (addr size : Nat) :
    (writeToPtnSdmmc ram p addr size).Within ⟨p.start / sdmmcBlocksize, p.length / sdmmcBlocksize⟩ := by
  rw [writeToPtnSdmmc]
  split
  · trivial
  · split
    · split
      · trivial
      · exact rfl
      · exact ⟨rfl, rfl⟩
    · trivial

theorem givesBack_iff (p : Ptentry) (e : Extent) :
    GivesBack p e ↔ p.start / sdmmcBlocksize = e.start ∧ p.length / sdmmcBlocksize = e.len := by
  constructor
  · exact fun h => ⟨h.start, h.length⟩
  · rintro ⟨hstart, hlen⟩
    refine ⟨hstart, hlen, fun ram addr size => ?_⟩
    have h := writeToPtnSdmmc_within ram p addr size
    rw [hstart, hlen] at h
    exact h

/-- Bytes and back: nine bits of the sector number are lost. -/
theorem sectors_of_bytes (x : Int) :
    MmcFdisk.u32 (MmcFdisk.i32 x * sdmmcBlocksize) / sdmmcBlocksize = MmcFdisk.u32 x % 8388608 := by
  simp only [MmcFdisk.u32, MmcFdisk.i32, Int.bmod, sdmmcBlocksize]
  split <;> omega

/-- The sectors of a partition are numbers that bytes can be counted for in 32 bits. -/
def SectorsFit (e : Extent) : Prop := e.start < 8388608 ∧ e.len < 8388608

section Table

variable {b : Build} {partInfo : PartitionInfo} {v : PartInfo} {mbr : Mem UInt8}

/-- What `get_mmc_part_info` reads at `off`. -/
def partInfoAt (mbr : Mem UInt8) (off : Nat) : PartInfo :=
  ⟨MmcFdisk.i32 (rd32 mbr (off + 8)), MmcFdisk.i32 (rd32 mbr (off + 12)), (mbr (off + 4)).toNat⟩

theorem getMmcPartInfo_some {partNum : Nat} (h₁ : 1 ≤ partNum) (h₂ : partNum ≤ 4) :
    getMmcPartInfo partInfo (some mbr) partNum v = partInfoAt mbr (0x1AE + 16 * partNum) := by
  obtain rfl | rfl | rfl | rfl : partNum = 1 ∨ partNum = 2 ∨ partNum = 3 ∨ partNum = 4 := by omega
  all_goals simp only [getMmcPartInfo, PartitionInfo.decode, partInfoAt]

/-- Look-ups that all find their type. -/
theorem addMbrParts_eq {parts : List (String × Nat × Nat)} {ptable : List Ptentry}
    (hparts : ∀ part ∈ parts, 1 ≤ part.2.1 ∧ part.2.1 ≤ 4)
    (h : (addMbrParts partInfo (some mbr) parts v ptable).2 = 0) :
    (addMbrParts partInfo (some mbr) parts v ptable).1 =
      ptable ++ parts.map fun part => mmcEntry part.1 (partInfoAt mbr (0x1AE + 16 * part.2.1)) := by
  induction parts generalizing v ptable with
  | nil => simp [addMbrParts]
  | cons part parts ih =>
    obtain ⟨name, partNum, pid⟩ := part
    obtain ⟨hpart, hparts⟩ := List.forall_mem_cons.mp hparts
    rw [addMbrParts, getMmcPartInfo_some hpart.1 hpart.2] at h ⊢
    dsimp only at h ⊢
    split at h
    · cases h
    · rename_i hpid
      rw [if_neg hpid, ih hparts h, List.append_assoc]
      rfl

/-- The fastboot partitions of the record, in the order of `entries`. -/
def mmcEntries (mbr : Mem UInt8) : List Ptentry :=
  mbrParts.map fun part => mmcEntry part.1 (partInfoAt mbr (0x1AE + 16 * part.2.1))

/-- A record whose types are right gives its four partitions. -/
theorem setPartitionTableSdmmc_eq (h : (setPartitionTableSdmmc b partInfo v (some mbr)).2 = 0) :
    (setPartitionTableSdmmc b partInfo v (some mbr)).1 = moviEntries b ++ mmcEntries mbr :=
  addMbrParts_eq (by decide) h

theorem givesBack_mmcEntry (name : String) (off : Nat) :
    GivesBack (mmcEntry name (partInfoAt mbr off)) (decodePartitionInfo mbr off) ↔
      SectorsFit (decodePartitionInfo mbr off) := by
  have hstart := rd32_lt mbr (off + 8)
  have hcount := rd32_lt mbr (off + 12)
  rw [givesBack_iff, mmcEntry, partInfoAt, decodePartitionInfo, SectorsFit]
  simp only [sectors_of_bytes, MmcFdisk.u32_natCast]
  omega

end Table

/-- **Partitions from the record.** Whenever the types in the record are right, a
    partition of the fastboot table that comes from it gives back the sectors of its
    entry exactly when its start and its length are below 2^23 sectors. -/
theorem mbr_givesBack_iff (b : Build) (partInfo : PartitionInfo) (v : PartInfo) (mbr : Mem UInt8)
    (h : (setPartitionTableSdmmc b partInfo v (some mbr)).2 = 0) :
    ∀ x ∈ ((setPartitionTableSdmmc b partInfo v (some mbr)).1.drop (moviEntries b).length).zip (entries mbr),
      GivesBack x.1 x.2 ↔ SectorsFit x.2 := by
  rw [setPartitionTableSdmmc_eq h, List.drop_left, mmcEntries, mbrParts, entries]
  simp only [List.map_cons, List.map_nil, List.zip_cons_cons, List.zip_nil_right, List.forall_mem_cons]
  refine ⟨?_, ?_, ?_, ?_, by simp⟩
  · exact givesBack_mmcEntry "system" 0x1CE
  · exact givesBack_mmcEntry "userdata" 0x1DE
  · exact givesBack_mmcEntry "cache" 0x1EE
  · exact givesBack_mmcEntry "fat" 0x1BE

/-- The record of a 16 GB card: 1 GB, 2 GB and 300 MB, the rest for the FAT partition. -/
def mbr16GB : Mem UInt8 :=
  let entry (id : Nat) (start count : Int) : PartitionInfo :=
    { bootable := 0, partitionId := id, cStart := 0, hStart := 1, sStart := 1, cEnd := 1023, hEnd := 254
      sEnd := 63, blockStart := start, blockCount := count, blockEnd := start + count - 1 }
  MmcFdisk.putEntries (entry 0x83 32768 2097152) (entry 0x83 2129920 4194304) (entry 0x83 6324224 614400)
    (entry 0x0C 6938624 23576576)

/-- Nothing has been stored in the variables. -/
def unset : PartInfo := ⟨0, 0, 0⟩

def unsetInfo : PartitionInfo := ⟨0, 0, 0, 0, 0, 0, 0, 0, 0, 0, 0⟩

theorem mbr16GB_types : (setPartitionTableSdmmc ⟨false, true⟩ unsetInfo unset (some mbr16GB)).2 = 0 := by
  decide +kernel

/-- The system partition is addressed. -/
theorem mbr16GB_system : GivesBack (mmcEntry "system" (partInfoAt mbr16GB 0x1CE)) ⟨32768, 2097152⟩ :=
  (mbr_givesBack_iff ⟨false, true⟩ unsetInfo unset mbr16GB mbr16GB_types
    (mmcEntry "system" (partInfoAt mbr16GB 0x1CE), ⟨32768, 2097152⟩) (by decide +kernel)).mpr
    ⟨by decide, by decide⟩

/-- The FAT partition of 11 GB is cut to 3 GB. -/
theorem mbr16GB_fat_cut :
    ¬ ∀ x ∈ ((setPartitionTableSdmmc ⟨false, true⟩ unsetInfo unset (some mbr16GB)).1.drop
        (moviEntries ⟨false, true⟩).length).zip (entries mbr16GB), GivesBack x.1 x.2 := by
  intro h
  have hfat := h (mmcEntry "fat" (partInfoAt mbr16GB 0x1BE), ⟨6938624, 23576576⟩) (by decide +kernel)
  exact absurd hfat.length (by decide +kernel)

end Uboot.Common.FastbootSdmmc
