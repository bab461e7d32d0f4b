/-
  Uboot.Fs.Ext2Format

  The writes of `ext2fs_format` in fs/ext2/ext2fs.c, from where `info` has the partition and the
  buffers are there.

  Modelled are the numbers of the layout and the sectors of each write, group by group in the order
  they are made.  What the buffers hold is a parameter, but for `zerobuf`.  Sector numbers and the
  counters of the journal are taken modulo 2^32; no other number of a partition gets there.
-/

import Uboot.Fs.FatFormat

namespace Uboot.Fs.Ext2Format

open Uboot.Lib
open Uboot.Fs.FatFormat (DiskPartition)

-- ============================================================================
-- The layout
-- ============================================================================

section Layout

variable (p : DiskPartition)

/-- `blk_group_num` -/
def blkGroupNum : Nat := if p.size % 0x40000 ≠ 0 then p.size / 0x40000 + 1 else p.size / 0x40000

/-- `total_blocks` -/
def totalBlocks : Nat := p.size / 8

/-- `total_inodes` -/
def totalInodes : Nat :=
  let inodes := totalBlocks p / 0x20
  let inodes :=
    if totalBlocks p % 0x20 ≠ 0 then
      if totalBlocks p > 0x8000 ∧ totalBlocks p < 0x10000 then inodes + 1 + 1 else inodes + 1
    else inodes
  let inodes := inodes * 0x20
  if totalBlocks p > 0x3E800 then inodes / 2 else inodes

/-- `inodes_per_group` -/
def inodesPerGroup : Nat := (u32 (usub (totalInodes p) 1 / blkGroupNum p + 1) / 0x20 + 1) * 0x20

/-- `inodes_per_group` of the superblock. -/
def sbInodesPerGroup : Nat := if totalBlocks p > 0x8000 then inodesPerGroup p else totalInodes p

/-- `reserved_gdt_blk` -/
def reservedGdtBlk : Nat := totalBlocks p >>> 12

/-- `is_revgdt`: the groups with a superblock and a descriptor table. -/
def isRevgdt (i : Nat) : Bool :=
  i == 0 ||
    if i < 10 then i % 2 != 0
    else if i > 20 && i < 30 then i == 25 || i == 27
    else if i > 40 && i < 50 then i == 49
    else false

/-- The blocks of a group before its bitmaps. -/
def revBlocks (i : Nat) : Nat := if isRevgdt i then reservedGdtBlk p + 2 else 0

/-- `start_blkbit_addr` -/
def startBlkbitAddr (i : Nat) : Nat := i * 0x8000 + revBlocks p i

/-- `start_indbit_addr` -/
def startIndbitAddr (i : Nat) : Nat := 1 + i * 0x8000 + revBlocks p i

/-- `start_indtable_addr` -/
def startIndtableAddr (i : Nat) : Nat := 2 + i * 0x8000 + revBlocks p i

/-- `first_inode_table_addr` -/
def firstInodeTableAddr : Nat := startIndtableAddr p 0

/-- `(addr * 8) + info.start` -/
def sector (addr : Nat) : Nat := u32 (addr * 8 + p.start)

/-- `info.start + (bgcnt * 0x8000 * 4096 / 512)`, in which the product is an `int`. -/
def superSector (bgcnt : Nat) : Nat :=
  (BitVec.ofNat 32 p.start + (BitVec.ofNat 32 bgcnt * 0x8000#32 * 4096#32).sdiv 512#32).toNat

/-- `root_data_blk`, before it is counted up. -/
def rootDataBlk : Nat :=
  inodesPerGroup p * 128 / 4096 +
    if totalBlocks p > 0x8000 then firstInodeTableAddr p else firstInodeTableAddr p - 1

-- ============================================================================
-- The journal
-- ============================================================================

/-- `default_journal_size`, as the `int` that it is stored in. -/
def defaultJournalSize (blockCnt : Nat) : Int :=
  if blockCnt < 2048 then -1
  else if blockCnt < 32768 then 1024
  else if blockCnt < 256 * 1024 then 4096
  else if blockCnt < 512 * 1024 then 8192
  else if blockCnt < 1024 * 1024 then 16384
  else 32768

/-- `jnl_blocks` -/
def jnlBlocks : Int :=
  let blocks := defaultJournalSize (totalBlocks p)
  let blocks := blocks + blocks.tdiv 1024
  if blocks ≥ 4096 then blocks + 2 else blocks

/-- `jnldata_start_addr` -/
def jnldataStartAddr : Nat :=
  if totalBlocks p > 0x8000 then firstInodeTableAddr p + inodesPerGroup p * 128 / 4096 + 6
  else firstInodeTableAddr p + inodesPerGroup p * 128 / 4096 + 5

/-- `indirect_pointer_addr` -/
def indirectPointerAddr : Nat := jnldataStartAddr p + 12

/-- `d_indirect_pointer_addr` -/
def dIndirectPointerAddr : Nat :=
  if defaultJournalSize (totalBlocks p) ≥ 4096 then jnldataStartAddr p + 0x400 + 13 else 0

/-- `remain_blocks` after a loop that counts it down, once for each of so many pointers, until it is zero. -/
def countDown : Nat → Nat → Nat
  | 0, remain => remain
  | n + 1, remain =>
    let remain := usub remain 1
    if remain = 0 then remain else countDown n remain

/-- `remain_blocks` when the indirect pointers are written. -/
def remainBlocks : Nat := countDown 1024 ((jnlBlocks p - 12) % 4294967296).toNat

/-- `needed_blocks` -/
def neededBlocks : Nat :=
  if totalBlocks p > 0x8000 ∧ remainBlocks p % 1024 ≠ 0 then remainBlocks p / 1024 + 1 else remainBlocks p / 1024

end Layout

-- ============================================================================
-- The writes
-- ============================================================================

/-- What the buffers hold when they are written: in a group, in a write of several, or both. -/
structure Images where
  img : Nat → Mem UInt8
  img2 : Nat → Mem UInt8
  reserveImg : Nat → Mem UInt8
  img3 : Nat → Mem UInt8
  img4 : Nat → Mem UInt8
  rootdata : Nat → Mem UInt8
  inodeData : Nat → Mem UInt8
  inodeData2 : Nat → Mem UInt8
  img5 : Mem UInt8

def zerobuf : Mem UInt8 := fun _ => 0

section Writes

variable (p : DiskPartition) (b : Images)

/-- "Erase to 0x00 to initialize inode table": `start_block` in each pass. -/
def eraseStarts : Nat → Nat → Nat → List Nat
  | 0, _, _ => []
  | n + 1, j, startBlock =>
    let startBlock := u32 (startBlock + j * 8)
    startBlock :: eraseStarts n (j + 1) startBlock

/-- The number of passes. -/
def eraseNum : Nat :=
  let indtBlknum := inodesPerGroup p * 128 / 4096 + 1
  indtBlknum / 80 + 4

/-- The writes that clear the inode table of a group. -/
def eraseWrites (bgcnt : Nat) : List BlockDev.Write :=
  (eraseStarts (eraseNum p) 0 (sector p (startIndtableAddr p bgcnt))).map fun startBlock => ⟨startBlock, 640, zerobuf⟩

/-- The superblock, the descriptor table and the reserved region. -/
def superWrites (bgcnt : Nat) : List BlockDev.Write :=
  let startBlock := superSector p bgcnt
  (if isRevgdt bgcnt then [⟨startBlock, 8, b.img bgcnt⟩, ⟨u32 (startBlock + 8), 8, b.img2 bgcnt⟩] else []) ++
    if bgcnt = 0 then
      (List.range (reservedGdtBlk p)).map fun k => ⟨u32 (startBlock + 8 + 8 * (k + 1)), 8, b.reserveImg k⟩
    else []

/-- The two bitmaps. -/
def bitmapWrites (bgcnt : Nat) : List BlockDev.Write :=
  [⟨sector p (startBlkbitAddr p bgcnt), 8, b.img3 bgcnt⟩, ⟨sector p (startIndbitAddr p bgcnt), 8, b.img4 bgcnt⟩]

/-- The root directory, `lost+found`, and the data of the 7th inode. -/
def rootWrites : List BlockDev.Write :=
  (List.range 6).map fun k => ⟨sector p (rootDataBlk p + k), 8, b.rootdata k⟩

/-- The data of the 8th inode: the journal's first block and its pointers. -/
def journalWrites : List BlockDev.Write :=
  [⟨sector p (jnldataStartAddr p), 8, b.inodeData 0⟩, ⟨sector p (indirectPointerAddr p), 8, b.inodeData 1⟩] ++
    if remainBlocks p ≠ 0 then
      (List.range (neededBlocks p)).map (fun j =>
        ⟨sector p (dIndirectPointerAddr p + 1 + j * 0x400 + j), 8, b.inodeData2 j⟩) ++
        [⟨sector p (dIndirectPointerAddr p), 8, b.inodeData 2⟩]
    else []

/-- The writes of a group. -/
def groupWrites (setJournaling : Bool) (bgcnt : Nat) : List BlockDev.Write :=
  superWrites p b bgcnt ++ bitmapWrites p b bgcnt ++ eraseWrites p bgcnt ++
    if bgcnt = 0 then
      rootWrites p b ++ (if setJournaling then journalWrites p b else []) ++
        [⟨sector p (startIndtableAddr p 0), 4, b.img5⟩]
    else []

/-- `ext2fs_format`.  The descriptors of all groups, of 32 bytes each, are put into `img2`, which has
    4096: without room for them what it does is undefined. -/
def ext2fsFormat (setJournaling : Bool) (d : BlockDev) : Option BlockDev :=
  if 32 * blkGroupNum p ≤ 4096 then
    some (d.writeAll ((List.range (blkGroupNum p)).flatMap (groupWrites p b setJournaling)))
  else none

end Writes

end Uboot.Fs.Ext2Format
