/-
  Uboot.Fs.Ext2

  Reading files of fs/ext2: `ext2fs_devread` of dev.c, and `ext2fs_read_block` and
  `ext2fs_read_file` of ext2fs.c with the two indirect blocks that they keep in globals.

  What stands outside is a parameter: the sectors of the partition, which `block_read` calls
  fail and what they leave in the buffer, and what `malloc` returns.  `unsigned int` and pointers
  have 32 bits, and the block device is set.  A log, which the code does not have, notes the reads.
-/

import Mathlib.Data.UInt
import Uboot.Lib.Ram

namespace Uboot.Fs.Ext2

open Uboot.Lib

-- ============================================================================
-- The device
-- ============================================================================

/-- `SECTOR_SIZE`. -/
def sectorSize : Nat := 512

/-- `INDIRECT_BLOCKS`. -/
def indirectBlocks : Nat := 12

/-- -1 as an `unsigned int`. -/
def minusOne : Nat := 4294967295

/-- The `int` that an `unsigned int` is converted to. -/
def toInt (n : Nat) : Int := if n < 2147483648 then n else n - 4294967296

/-- The surroundings of a run. -/
structure Env where
  /-- The bytes of the partition. -/
  bytes : Mem UInt8
  /-- `part_info.size`, in sectors. -/
  size : Nat
  size_lt : size < 4294967296
  /-- Whether the `k`-th call of `block_read` succeeds. -/
  ok : Nat → Bool
  /-- What it leaves in the buffer when it does not. -/
  junk : Nat → Mem UInt8
  /-- What the `k`-th call of `malloc` finds in the memory it returns. -/
  malloc : Nat → Option (Mem UInt8)

/-- The bytes that the `k`-th call of `block_read` leaves. -/
def Env.blockRead (e : Env) (k sector cnt : Nat) : List UInt8 :=
  if e.ok k then e.bytes.read (sectorSize * sector) (sectorSize * cnt)
  else (e.junk k).read 0 (sectorSize * cnt)

/-- How a call of `ext2fs_devread` ends: with 1, with 0, or in a `memcpy` of a negative
    length. -/
inductive Status
  | ok
  | error
  | lost
  deriving DecidableEq

/-- What a call of `ext2fs_devread` does. -/
structure DevRead where
  /-- The calls of `block_read` up to then. -/
  reads : Nat
  ram : Ram
  status : Status
  /-- The sectors are not in the partition, or a `block_read` has failed. -/
  failed : Bool

/-- The part of `ext2fs_devread` that starts at a sector boundary. -/
def devreadAligned (e : Env) (k sector byteLen : Nat) (ram : Ram) (buf : Nat) : DevRead :=
  let blockLen := sectorSize * (byteLen / sectorSize)
  let rest := byteLen % sectorSize
  if byteLen = 0 then ⟨k, ram, .ok, false⟩
  else if blockLen = 0 then
    -- the result of this `block_read` is not looked at
    ⟨k + 1, ram.store buf ((e.blockRead k sector 1).take byteLen), .ok, !e.ok k⟩
  else
    let ram := ram.store buf (e.blockRead k sector (byteLen / sectorSize))
    if !e.ok k then ⟨k + 1, ram, .error, true⟩
    else if rest ≠ 0 then
      let data := e.blockRead (k + 1) (sector + byteLen / sectorSize) 1
      if !e.ok (k + 1) then ⟨k + 2, ram, .error, true⟩
      else ⟨k + 2, ram.store (buf + blockLen) (data.take rest), .ok, false⟩
    else ⟨k + 1, ram, .ok, false⟩

/-- `ext2fs_devread`, when `k` calls of `block_read` have been made. -/
def ext2fsDevread (e : Env) (k : Nat) (sector : Int) (byteOffset : Nat) (byteLen : Int) (ram : Ram)
    (buf : Nat) : DevRead :=
  let last := sector + (byteOffset + byteLen - 1) / sectorSize
  -- a negative `last` is a huge number for the comparison
  if sector < 0 ∨ last < 0 ∨ e.size ≤ last then ⟨k, ram, .error, true⟩
  else
    let sector := sector.toNat + byteOffset / sectorSize
    let off := byteOffset % sectorSize
    if off ≠ 0 then
      if !e.ok k then ⟨k + 1, ram, .error, true⟩
      else if byteLen < 0 then ⟨k + 1, ram, .lost, false⟩
      else
        let first := min (sectorSize - off) byteLen.toNat
        let data := ((e.blockRead k sector 1).drop off).take first
        devreadAligned e (k + 1) (sector + 1) (byteLen.toNat - first) (ram.store buf data) (buf + first)
    else if byteLen < 0 then ⟨k, ram, .lost, false⟩
    else devreadAligned e k sector byteLen.toNat ram buf

-- ============================================================================
-- Blocks of a file
-- ============================================================================

/-- `data->sblock`; the blocks of ext2 have 1 KiB to 64 KiB. -/
structure Ext2Data where
  log2BlockSize : Nat
  log2BlockSize_le : log2BlockSize ≤ 6

/-- `LOG2_EXT2_BLOCK_SIZE`. -/
def Ext2Data.log2Blksz (d : Ext2Data) : Nat := d.log2BlockSize + 1

/-- `EXT2_BLOCK_SIZE`. -/
def Ext2Data.blksz (d : Ext2Data) : Nat := sectorSize * 2 ^ d.log2Blksz

/-- The numbers of an inode that reading needs. -/
structure Inode where
  size : UInt32
  dirBlocks : Fin indirectBlocks → UInt32
  indirBlock : UInt32
  doubleIndirBlock : UInt32

/-- `indir1_block`, `indir1_size` and `indir1_blkno`, or those of the second one. -/
structure Cache where
  block : Option (Mem UInt8)
  size : Nat
  blkno : Nat

/-- What an `ext2fs_devread` is for. -/
inductive ReadKind
  | indirect
  | doubleOuter
  | doubleInner
  | data
  deriving DecidableEq

/-- What is noted in the log: an `ext2fs_devread`, and that `ext2fs_read_file` gives up over a block because its
    number is negative. -/
inductive Event
  | read (kind : ReadKind) (status : Status) (failed : Bool)
  | refused
  deriving DecidableEq

/-- The globals, and how often `malloc` and `block_read` have been called. -/
structure Globals where
  indir1 : Cache
  indir2 : Cache
  mallocs : Nat
  reads : Nat
  log : List Event

/-- The globals after a read. -/
def Globals.note (g : Globals) (kind : ReadKind) (r : DevRead) : Globals :=
  { g with reads := r.reads, log := g.log ++ [.read kind r.status r.failed] }

/-- The globals after a block has been refused. -/
def Globals.refuse (g : Globals) : Globals := { g with log := g.log ++ [.refused] }

/-- A buffer of the size of a block, the calls of `malloc` up to then, and whether there was room for
    it. -/
def Cache.prepare (c : Cache) (e : Env) (blksz mallocs : Nat) : Cache × Nat × Bool :=
  match c.block with
  | none =>
    match e.malloc mallocs with
    | none => (c, mallocs + 1, false)
    | some m => (⟨some m, blksz, minusOne⟩, mallocs + 1, true)
  | some _ =>
    if blksz ≠ c.size then
      match e.malloc mallocs with
      | none => (⟨none, 0, minusOne⟩, mallocs + 1, false)
      | some m => (⟨some m, blksz, minusOne⟩, mallocs + 1, true)
    else (c, mallocs, true)

/-- The indirect block `ptr` in the buffer of `c`, where it is taken to be already when the sector is
    `known`; and whether it could be read. -/
def fetch (e : Env) (d : Ext2Data) (g : Globals) (kind : ReadKind) (c : Cache) (ptr known : Nat) :
    Globals × Cache × Bool :=
  let sector := u32 (ptr * 2 ^ d.log2Blksz)
  if sector ≠ known then
    let r := ext2fsDevread e g.reads (toInt sector) 0 d.blksz ⟨c.block.getD fun _ => 0, []⟩ 0
    let g := g.note kind r
    let c := { c with block := some r.ram.cells }
    if r.status = .error then (g, c, false) else (g, { c with blkno := sector }, true)
  else (g, c, true)

/-- The `i`-th number in the buffer. -/
def Cache.entry (c : Cache) (i : Nat) : Nat := rd32 (c.block.getD fun _ => 0) (4 * i)

/-- The single indirect case of `ext2fs_read_block`. -/
def readIndirect (e : Env) (d : Ext2Data) (g : Globals) (inode : Inode) (fileblock : Nat) : Globals × Int :=
  let p := g.indir1.prepare e d.blksz g.mallocs
  let g := { g with indir1 := p.1, mallocs := p.2.1 }
  if !p.2.2 then (g, -1)
  else
    let r := fetch e d g .indirect g.indir1 inode.indirBlock.toNat g.indir1.blkno
    let g := { r.1 with indir1 := r.2.1 }
    if !r.2.2 then (g, 0) else (g, toInt (g.indir1.entry (fileblock - indirectBlocks)))

/-- The double indirect case. -/
def readDoubleIndirect (e : Env) (d : Ext2Data) (g : Globals) (inode : Inode) (fileblock : Nat) : Globals × Int :=
  let perblock := d.blksz / 4
  let rblock := fileblock - (indirectBlocks + perblock)
  let p := g.indir1.prepare e d.blksz g.mallocs
  let g := { g with indir1 := p.1, mallocs := p.2.1 }
  if !p.2.2 then (g, -1)
  else
    let r := fetch e d g .doubleOuter g.indir1 inode.doubleIndirBlock.toNat g.indir1.blkno
    let g := { r.1 with indir1 := r.2.1 }
    if !r.2.2 then (g, -1)
    else
      let p := g.indir2.prepare e d.blksz g.mallocs
      let g := { g with indir2 := p.1, mallocs := p.2.1 }
      if !p.2.2 then (g, -1)
      else
        -- the number of the inner block is compared with that of the outer one
        let r := fetch e d g .doubleInner g.indir2 (g.indir1.entry (rblock / perblock)) g.indir1.blkno
        let g := { r.1 with indir2 := r.2.1 }
        if !r.2.2 then (g, -1) else (g, toInt (g.indir2.entry (rblock % perblock)))

/-- `ext2fs_read_block`. -/
def ext2fsReadBlock (e : Env) (d : Ext2Data) (g : Globals) (inode : Inode) (fileblock : Nat) : Globals × Int :=
  let perblock := d.blksz / 4
  if h : fileblock < indirectBlocks then (g, toInt (inode.dirBlocks ⟨fileblock, h⟩).toNat)
  else if fileblock < indirectBlocks + perblock then readIndirect e d g inode fileblock
  else if fileblock < indirectBlocks + perblock * (perblock + 1) then readDoubleIndirect e d g inode fileblock
  else (g, -1)

-- ============================================================================
-- Files
-- ============================================================================

/-- What a call of `ext2fs_read_file` does; no value is returned when a `memcpy` of a negative length is
    reached. -/
structure ReadFile where
  globals : Globals
  ram : Ram
  ret : Option Int

/-- The arguments of `ext2fs_read_file`, with the length cut to the size of the file. -/
structure FileRead where
  inode : Inode
  pos : Nat
  len : Nat
  /-- Both are 32 bits wide, and `pos` is not negative. -/
  pos_lt : pos < 2147483648
  len_lt : len < 4294967296

/-- `blockcnt`. -/
def FileRead.blockcnt (f : FileRead) (d : Ext2Data) : Nat :=
  u32 (u32 (f.len + f.pos) + d.blksz - 1) / d.blksz

/-- `skipfirst` for the block `i`. -/
def FileRead.skipfirst (f : FileRead) (d : Ext2Data) (i : Nat) : Nat :=
  if i = f.pos / d.blksz then f.pos % d.blksz else 0

/-- `blockend` for the block `i`, as the length that is read. -/
def FileRead.blockend (f : FileRead) (d : Ext2Data) (i : Nat) : Int :=
  let last := u32 (f.len + f.pos) % d.blksz
  let blockend := if i + 1 = f.blockcnt d ∧ last ≠ 0 then last else d.blksz
  (blockend : Int) - f.skipfirst d i

/-- The loop of `ext2fs_read_file` over `n` blocks from `i` on. -/
def readLoop (e : Env) (d : Ext2Data) (f : FileRead) : Nat → Nat → Globals → Ram → Nat → ReadFile
  | 0, _, g, ram, _ => ⟨g, ram, some (toInt f.len)⟩
  | n + 1, i, g, ram, buf =>
    let r := ext2fsReadBlock e d g f.inode i
    if r.2 < 0 then ⟨r.1.refuse, ram, some (-1)⟩
    else
      let blknr := u32 (r.2.toNat * 2 ^ d.log2Blksz)
      let next := buf + (d.blksz - f.skipfirst d i)
      if blknr ≠ 0 then
        let s := ext2fsDevread e r.1.reads (toInt blknr) (f.skipfirst d i) (f.blockend d i) ram buf
        let g := r.1.note .data s
        match s.status with
        | .ok => readLoop e d f n (i + 1) g s.ram next
        | .error => ⟨g, s.ram, some (-1)⟩
        | .lost => ⟨g, s.ram, none⟩
      else
        readLoop e d f n (i + 1) r.1 (ram.store buf (List.replicate (d.blksz - f.skipfirst d i) 0)) next

/-- `ext2fs_read_file`, once `len` is cut. -/
def FileRead.run (f : FileRead) (e : Env) (d : Ext2Data) (g : Globals) (ram : Ram) (buf : Nat) : ReadFile :=
  readLoop e d f (f.blockcnt d - f.pos / d.blksz) (f.pos / d.blksz) g ram buf

/-- `ext2fs_read_file`. -/
def ext2fsReadFile (e : Env) (d : Ext2Data) (g : Globals) (inode : Inode) (pos len : Nat)
    (hpos : pos < 2147483648) (hlen : len < 4294967296) (ram : Ram) (buf : Nat) : ReadFile :=
  FileRead.run ⟨inode, pos, min len inode.size.toNat, hpos, by omega⟩ e d g ram buf

-- ============================================================================
-- Sizes
-- ============================================================================

section Sizes

variable (d : Ext2Data)

theorem two_le_pow : 2 ≤ 2 ^ d.log2Blksz := by
  rw [Ext2Data.log2Blksz, Nat.pow_succ]
  have hpos := Nat.two_pow_pos d.log2BlockSize
  omega

theorem pow_le : 2 ^ d.log2Blksz ≤ 128 :=
  Nat.pow_le_pow_right (by decide) (Nat.succ_le_succ d.log2BlockSize_le)

theorem blksz_eq : d.blksz = 512 * 2 ^ d.log2Blksz := rfl

theorem toInt_of_lt {n : Nat} (h : n < 2147483648) : toInt n = n := if_pos h

theorem toInt_neg {n : Nat} (h : 2147483648 ≤ n) (hlt : n < 4294967296) : toInt n < 0 := by
  rw [toInt, if_neg (by omega)]
  omega

end Sizes

end Uboot.Fs.Ext2
