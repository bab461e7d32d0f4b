/-
  Uboot.Fs.Ext2Inode

  `ext2fs_read_inode` and `ext2fs_blockgroup` of fs/ext2/ext2fs.c: where the descriptor of a
  group and an inode are read, against where the superblock says that they are.

  The size of an inode that the superblock records is not looked at.
-/

import Uboot.Fs.Ext2ReadFile

namespace Uboot.Fs.Ext2Inode

open Uboot.Lib Uboot.Fs.Ext2

-- ============================================================================
-- The superblock
-- ============================================================================

/-- `data->sblock`, as far as an inode is found with it.  `1 << LOG2_BLOCK_SIZE` is an `int`. -/
structure Superblock where
  firstDataBlock : UInt32
  log2BlockSize : Nat
  log2BlockSize_le : log2BlockSize ≤ 20
  inodesPerGroup : UInt32
  /-- `inode_size`, which is 128 where `revision_level` is 0. -/
  inodeSize : UInt16

namespace Superblock

variable (sb : Superblock)

/-- `LOG2_EXT2_BLOCK_SIZE`. -/
def log2Blksz : Nat := sb.log2BlockSize + 1

/-- `EXT2_BLOCK_SIZE`. -/
def blksz : Nat := 2 ^ (sb.log2BlockSize + 10)

/-- `inodes_per_block`. -/
def inodesPerBlock : Nat := sb.blksz / 128

/-- The number of an inode from 0 on, after `ino--`. -/
def number (ino : UInt32) : Nat := (ino - 1).toNat

def group (ino : UInt32) : Nat := number ino / sb.inodesPerGroup.toNat

/-- The number of an inode in its group. -/
def index (ino : UInt32) : Nat := number ino % sb.inodesPerGroup.toNat

/-- Where the descriptor of the group of an inode is. -/
def descriptorAt (ino : UInt32) : Nat := (sb.firstDataBlock.toNat + 1) * sb.blksz + 32 * sb.group ino

/-- The inode in the table that starts at a block. -/
def inodeExtent (table : Nat) (ino : UInt32) : Extent :=
  ⟨table * sb.blksz + sb.inodeSize.toNat * sb.index ino, sb.inodeSize.toNat⟩

/-- That table. -/
def tableExtent (table : Nat) : Extent :=
  ⟨table * sb.blksz, sb.inodeSize.toNat * sb.inodesPerGroup.toNat⟩

end Superblock

-- ============================================================================
-- ext2fs_read_inode
-- ============================================================================

/-- The sector and the byte offset that `ext2fs_devread` is called with. -/
structure Request where
  sector : Int
  byteOffset : Int

namespace Request

/-- The byte of the partition where the read starts. -/
def place (q : Request) : Int := 512 * q.sector + q.byteOffset

/-- `ext2fs_devread` into a buffer at 0.  A negative offset goes to a sector before the given one. -/
def run (q : Request) (e : Env) (k byteLen : Nat) : DevRead :=
  if q.sector < 0 then ⟨k, ⟨fun _ => 0, []⟩, .error, true⟩
  else ext2fsDevread e k (q.sector + q.byteOffset / 512) (q.byteOffset % 512).toNat byteLen
    ⟨fun _ => 0, []⟩ 0

end Request

/-- What `ext2fs_blockgroup` asks for. -/
def blockgroupRequest (sb : Superblock) (ino : UInt32) : Request where
  sector := toInt (u32 ((sb.firstDataBlock.toNat + 1) * 2 ^ sb.log2Blksz))
  byteOffset := toInt (u32 (32 * sb.group ino))

/-- What `ext2fs_read_inode` asks for then. -/
def inodeRequest (sb : Superblock) (table : Nat) (ino : UInt32) : Request where
  sector := toInt (u32 ((table + sb.index ino / sb.inodesPerBlock) * 2 ^ sb.log2Blksz))
  byteOffset := toInt (u32 (128 * (sb.index ino % sb.inodesPerBlock)))

/-- What a call of `ext2fs_read_inode` does. -/
structure InodeRead where
  /-- The calls of `block_read` up to then. -/
  reads : Nat
  blockgroup : Request
  /-- `inode_table_id` and the second request, when the descriptor has been read. -/
  inode : Option (Nat × Request)
  /-- `*inode`, when 1 is returned. -/
  bytes : Option (Mem UInt8)

/-- `ext2fs_read_inode`; nothing comes back from a division by zero. -/
def ext2fsReadInode (e : Env) (k : Nat) (sb : Superblock) (ino : UInt32) : Option InodeRead :=
  if sb.inodesPerGroup = 0 then none
  else
    let q := blockgroupRequest sb ino
    let blkgrp := q.run e k 32
    if blkgrp.status ≠ .ok then some ⟨blkgrp.reads, q, none, none⟩
    else
      let table := rd32 blkgrp.ram.cells 8
      let q' := inodeRequest sb table ino
      let r := q'.run e blkgrp.reads 128
      if r.status ≠ .ok then some ⟨r.reads, q, some (table, q'), none⟩
      else some ⟨r.reads, q, some (table, q'), some r.ram.cells⟩

-- ============================================================================
-- Reading that inode
-- ============================================================================

/-- The descriptor is looked for at its place, and the 128 bytes are the first ones of the
    inode in the table that the descriptor gives. -/
structure Located (e : Env) (sb : Superblock) (ino : UInt32) (r : InodeRead) : Prop where
  blockgroup : r.blockgroup.place = sb.descriptorAt ino
  inode : ∀ table q, r.inode = some (table, q) →
    q.place = (sb.inodeExtent table ino).start ∧ 128 ≤ (sb.inodeExtent table ino).len
  bytes : ∀ m, r.bytes = some m → (∀ k, e.ok k = true) →
    m.read 0 128 = e.bytes.read (sb.inodeExtent (rd32 e.bytes (sb.descriptorAt ino + 8)) ino).start 128

/-- `ext2fs_read_inode` reads just that inode. -/
def Exact (e : Env) (k : Nat) (sb : Superblock) (ino : UInt32) : Prop :=
  ∃ r, ext2fsReadInode e k sb ino = some r ∧ Located e sb ino r

/-- Another inode that is read so, from the same table or from one that does not overlap it, is
    read from other bytes. -/
def Apart (e : Env) (k : Nat) (sb : Superblock) (ino : UInt32) : Prop :=
  ∀ k' ino' r r' table q table' q', ino' ≠ ino →
    ext2fsReadInode e k sb ino = some r → r.inode = some (table, q) →
    ext2fsReadInode e k' sb ino' = some r' → r'.inode = some (table', q') → Located e sb ino' r' →
    (sb.group ino = sb.group ino' → table = table') →
    (sb.group ino ≠ sb.group ino' → Disjoint (sb.tableExtent table).cells (sb.tableExtent table').cells) →
    q.place + 128 ≤ q'.place ∨ q'.place + 128 ≤ q.place

/-- `inode_table_id` in the descriptor at its place, as `block_read` gives it.  It is not seen
    that `block_read` has failed when the descriptor is the first one of a sector. -/
def tableOf (e : Env) (k : Nat) (sb : Superblock) (ino : UInt32) : Option Nat :=
  let a := sb.descriptorAt ino
  if a / 512 < e.size ∧ (a % 512 = 0 ∨ e.ok k = true) then
    some (rd32 (Mem.write (fun _ => 0) 0 (((e.blockRead k (a / 512) 1).drop (a % 512)).take 32)) 8)
  else none

/-- There are groups; the sectors of the descriptor and of the inode and the offset of the
    descriptor are an `int`; and the inode has 128 bytes, or it is the first one of its group
    and has more. -/
structure Suits (e : Env) (k : Nat) (sb : Superblock) (ino : UInt32) : Prop where
  groups : sb.inodesPerGroup ≠ 0
  sector : (sb.firstDataBlock.toNat + 1) * 2 ^ sb.log2Blksz < 2147483648
  offset : 32 * sb.group ino < 2147483648
  inode : ∀ table, tableOf e k sb ino = some table →
    (table + sb.index ino / sb.inodesPerBlock) * 2 ^ sb.log2Blksz < 2147483648 ∧
      (sb.inodeSize = 128 ∨ sb.index ino = 0 ∧ 128 ≤ sb.inodeSize.toNat)

-- ============================================================================
-- Places
-- ============================================================================

section Places

variable {n : Nat}

/-- A number that does not fit into an `int` comes out smaller by a multiple of 2^32. -/
theorem toInt_u32 (n : Nat) :
    toInt (u32 n) = n ∧ n < 2147483648 ∨ toInt (u32 n) + 4294967296 ≤ n ∧ 2147483648 ≤ n := by
  unfold toInt u32
  split <;> omega

variable {sb : Superblock} {ino : UInt32} {table : Nat}

theorem blksz_eq_sectors : sb.blksz = 512 * 2 ^ sb.log2Blksz := by
  rw [Superblock.blksz, Superblock.log2Blksz, show sb.log2BlockSize + 10 = 9 + (sb.log2BlockSize + 1) by omega,
    Nat.pow_add]

theorem blksz_eq_inodes : sb.blksz = 128 * sb.inodesPerBlock := by
  have hpow : sb.blksz = 128 * 2 ^ (sb.log2BlockSize + 3) := by
    rw [Superblock.blksz, show sb.log2BlockSize + 10 = 7 + (sb.log2BlockSize + 3) by omega, Nat.pow_add]
  rw [Superblock.inodesPerBlock, hpow, Nat.mul_div_cancel_left _ (by omega)]

theorem inodesPerBlock_lt : 0 < sb.inodesPerBlock ∧ 128 * sb.inodesPerBlock ≤ 1073741824 := by
  have hle : 2 ^ (sb.log2BlockSize + 10) ≤ 2 ^ 30 :=
    Nat.pow_le_pow_right (by omega) (by have := sb.log2BlockSize_le; omega)
  have hge : 2 ^ 10 ≤ 2 ^ (sb.log2BlockSize + 10) := Nat.pow_le_pow_right (by omega) (by omega)
  have heq := @blksz_eq_inodes sb
  rw [Superblock.blksz] at heq
  omega

theorem descriptorAt_eq : sb.descriptorAt ino =
    512 * ((sb.firstDataBlock.toNat + 1) * 2 ^ sb.log2Blksz) + 32 * sb.group ino := by
  rw [Superblock.descriptorAt, blksz_eq_sectors, Nat.mul_left_comm]

theorem blockgroup_place_iff : (blockgroupRequest sb ino).place = sb.descriptorAt ino ↔
    (sb.firstDataBlock.toNat + 1) * 2 ^ sb.log2Blksz < 2147483648 ∧ 32 * sb.group ino < 2147483648 := by
  rw [Request.place, blockgroupRequest, descriptorAt_eq]
  dsimp only
  have hsector := toInt_u32 ((sb.firstDataBlock.toNat + 1) * 2 ^ sb.log2Blksz)
  have hoffset := toInt_u32 (32 * sb.group ino)
  omega

/-- The inode's bytes in terms of the blocks of the table, for inodes of 128 bytes. -/
theorem inode_bytes : 512 * ((table + sb.index ino / sb.inodesPerBlock) * 2 ^ sb.log2Blksz) +
    128 * (sb.index ino % sb.inodesPerBlock) = table * sb.blksz + 128 * sb.index ino := by
  calc 512 * ((table + sb.index ino / sb.inodesPerBlock) * 2 ^ sb.log2Blksz) +
        128 * (sb.index ino % sb.inodesPerBlock)
      = (table + sb.index ino / sb.inodesPerBlock) * sb.blksz + 128 * (sb.index ino % sb.inodesPerBlock) := by
        rw [blksz_eq_sectors, Nat.mul_left_comm]
    _ = table * sb.blksz +
          128 * (sb.inodesPerBlock * (sb.index ino / sb.inodesPerBlock) + sb.index ino % sb.inodesPerBlock) := by
        rw [Nat.add_mul, Nat.mul_comm (sb.index ino / sb.inodesPerBlock), blksz_eq_inodes, Nat.mul_add,
          Nat.mul_assoc, Nat.add_assoc]
    _ = table * sb.blksz + 128 * sb.index ino := by rw [Nat.div_add_mod]

/-- Where the size of an inode is 128, or does not matter. -/
theorem mul_index (h : sb.inodeSize = 128 ∨ sb.index ino = 0) :
    sb.inodeSize.toNat * sb.index ino = 128 * sb.index ino := by
  obtain heq | hzero := h
  · rw [heq]
    rfl
  · rw [hzero, Nat.mul_zero, Nat.mul_zero]

/-- The request for an inode is for its place just when there are no more bits than an `int` has,
    and the inodes have the size that the code takes them to have. -/
theorem inode_place_iff : (inodeRequest sb table ino).place = (sb.inodeExtent table ino).start ↔
    (table + sb.index ino / sb.inodesPerBlock) * 2 ^ sb.log2Blksz < 2147483648 ∧
      (sb.inodeSize = 128 ∨ sb.index ino = 0) := by
  obtain ⟨hpos, hblock⟩ := @inodesPerBlock_lt sb
  have hmod := Nat.mod_lt (sb.index ino) hpos
  have hoffset := toInt_u32 (128 * (sb.index ino % sb.inodesPerBlock))
  have hsector := toInt_u32 ((table + sb.index ino / sb.inodesPerBlock) * 2 ^ sb.log2Blksz)
  have hbytes := @inode_bytes sb ino table
  have hindex : sb.index ino < 4294967296 := lt_of_le_of_lt (Nat.mod_le _ _) (UInt32.toNat_lt _)
  rw [Request.place, inodeRequest, Superblock.inodeExtent]
  dsimp only
  constructor
  · intro h
    have hsize : 128 * sb.index ino = sb.inodeSize.toNat * sb.index ino := by omega
    refine ⟨by omega, ?_⟩
    obtain heq | hzero := mul_eq_mul_right_iff.mp hsize
    · exact Or.inl (UInt16.toNat_inj.mp heq.symm)
    · exact Or.inr hzero
  · rintro ⟨hlt, hsize⟩
    rw [mul_index hsize]
    omega

end Places

-- ============================================================================
-- Reads within a sector
-- ============================================================================

section Within

variable {e : Env} {k len a : Nat} {q : Request}

/-- A few bytes of one sector. -/
theorem run_within (hplace : q.place = a) (hsector : 0 ≤ q.sector) (hpos : 0 < len) (hlt : len < 512)
    (hin : a % 512 + len ≤ 512) :
    q.run e k len =
      if e.size ≤ a / 512 then ⟨k, ⟨fun _ => 0, []⟩, .error, true⟩
      else if a % 512 = 0 ∨ e.ok k = true then
        ⟨k + 1, Ram.store ⟨fun _ => 0, []⟩ 0 (((e.blockRead k (a / 512) 1).drop (a % 512)).take len), .ok, !e.ok k⟩
      else ⟨k + 1, ⟨fun _ => 0, []⟩, .error, true⟩ := by
  rw [Request.place] at hplace
  have hdiv : q.sector + q.byteOffset / 512 = (a / 512 : Nat) := by omega
  have hmod : (q.byteOffset % 512).toNat = a % 512 := by omega
  rw [Request.run, if_neg (by omega), hdiv, hmod, ext2fsDevread]
  dsimp only
  have hlast : ((a / 512 : Nat) : Int) + ((a % 512 : Nat) + (len : Int) - 1) / (sectorSize : Nat) = (a / 512 : Nat) := by
    rw [sectorSize]
    omega
  have houtside : (((a / 512 : Nat) : Int) < 0 ∨ ((a / 512 : Nat) : Int) < 0 ∨ (e.size : Int) ≤ (a / 512 : Nat)) ↔
      e.size ≤ a / 512 := by omega
  rw [hlast]
  simp only [houtside]
  by_cases hsize : e.size ≤ a / 512
  · rw [if_pos hsize, if_pos hsize]
  rw [if_neg hsize, if_neg hsize]
  have hmodmod : a % 512 % sectorSize = a % 512 := Nat.mod_mod _ _
  have hdivzero : a % 512 / sectorSize = 0 := Nat.div_eq_of_lt (Nat.mod_lt _ (by decide))
  rw [hmodmod, hdivzero, Int.toNat_natCast, Int.toNat_natCast, show a / 512 + 0 = a / 512 from rfl]
  by_cases hzero : a % 512 = 0
  · rw [if_neg (not_not.mpr hzero), if_neg (by omega), if_pos (Or.inl hzero), devreadAligned]
    dsimp only
    rw [if_neg (by omega), if_pos (by rw [sectorSize]; omega), hzero, List.drop_zero]
  · rw [if_pos hzero]
    cases hok : e.ok k with
    | false => rw [if_pos (show (!false) = true from rfl), if_neg (by simp [hzero])]
    | true =>
      have hmin : min (sectorSize - a % 512) len = len := Nat.min_eq_right (by rw [sectorSize]; omega)
      rw [if_neg (by decide), if_neg (by omega), if_pos (Or.inr rfl), hmin, Nat.sub_self, devreadAligned]
      rfl

/-- When the device does not fail, they are the bytes at the place. -/
theorem run_within_bytes (hok : ∀ k, e.ok k = true) (hplace : q.place = a) (hsector : 0 ≤ q.sector)
    (hpos : 0 < len) (hlt : len < 512) (hin : a % 512 + len ≤ 512) (hstatus : (q.run e k len).status = .ok) :
    (q.run e k len).ram.cells.read 0 len = e.bytes.read a len := by
  rw [run_within hplace hsector hpos hlt hin] at hstatus ⊢
  by_cases hsize : e.size ≤ a / 512
  · rw [if_pos hsize] at hstatus
    cases hstatus
  rw [if_neg hsize, if_pos (Or.inr (hok k)), blockRead_ok hok, Mem.drop_read _ (by omega),
    Mem.take_read _ (by omega), Nat.div_add_mod]
  have hread := @Mem.read_write UInt8 (fun _ => 0) 0 (e.bytes.read a len)
  rw [Mem.read_length] at hread
  exact hread

end Within

-- ============================================================================
-- The two reads
-- ============================================================================

section Reads

variable {e : Env} {k : Nat} {sb : Superblock} {ino : UInt32} {r : InodeRead} {table : Nat} {q : Request}

/-- The read of the descriptor. -/
def blkgrpRead (e : Env) (k : Nat) (sb : Superblock) (ino : UInt32) : DevRead :=
  (blockgroupRequest sb ino).run e k 32

/-- What a call that comes back has done. -/
theorem ext2fsReadInode_some (h : ext2fsReadInode e k sb ino = some r) :
    sb.inodesPerGroup ≠ 0 ∧ r.blockgroup = blockgroupRequest sb ino ∧
      (∀ p, r.inode = some p ↔ (blkgrpRead e k sb ino).status = .ok ∧
        p = (rd32 (blkgrpRead e k sb ino).ram.cells 8,
          inodeRequest sb (rd32 (blkgrpRead e k sb ino).ram.cells 8) ino)) ∧
      ∀ m, r.bytes = some m → ∃ table q, r.inode = some (table, q) ∧
        (q.run e (blkgrpRead e k sb ino).reads 128).status = .ok ∧
        m = (q.run e (blkgrpRead e k sb ino).reads 128).ram.cells := by
  unfold ext2fsReadInode at h
  dsimp only at h
  rw [show (blockgroupRequest sb ino).run e k 32 = blkgrpRead e k sb ino from rfl] at h
  split_ifs at h with hgroups hgrp hinode
  · obtain rfl := Option.some.inj h
    exact ⟨hgroups, rfl, fun p => by simp [hgrp], fun m hm => by cases hm⟩
  · obtain rfl := Option.some.inj h
    exact ⟨hgroups, rfl, fun p => by simp [not_not.mp hgrp, eq_comm], fun m hm => by cases hm⟩
  · obtain rfl := Option.some.inj h
    refine ⟨hgroups, rfl, fun p => by simp [not_not.mp hgrp, eq_comm], fun m hm => ?_⟩
    obtain rfl := Option.some.inj hm
    exact ⟨_, _, rfl, not_not.mp hinode, rfl⟩

theorem exists_ext2fsReadInode (h : sb.inodesPerGroup ≠ 0) : ∃ r, ext2fsReadInode e k sb ino = some r := by
  unfold ext2fsReadInode
  rw [if_neg h]
  dsimp only
  split_ifs <;> exact ⟨_, rfl⟩

/-- A descriptor is within a sector. -/
theorem descriptorAt_within : sb.descriptorAt ino % 512 + 32 ≤ 512 := by
  rw [descriptorAt_eq]
  omega

/-- So is an inode of 128 bytes, or the first one of its group. -/
theorem inodeExtent_within (h : sb.inodeSize = 128 ∨ sb.index ino = 0) :
    (sb.inodeExtent table ino).start % 512 + 128 ≤ 512 := by
  have hbytes := @inode_bytes sb ino table
  rw [Superblock.inodeExtent, mul_index h]
  dsimp only
  omega

/-- When it is looked for at its place, the number in the descriptor is that of `tableOf`. -/
theorem tableOf_eq_some_iff (hplace : (blockgroupRequest sb ino).place = sb.descriptorAt ino) :
    tableOf e k sb ino = some table ↔
      (blkgrpRead e k sb ino).status = .ok ∧ table = rd32 (blkgrpRead e k sb ino).ram.cells 8 := by
  obtain ⟨hsector, -⟩ := blockgroup_place_iff.mp hplace
  have hnonneg : 0 ≤ (blockgroupRequest sb ino).sector := by
    rw [blockgroupRequest]
    have := toInt_u32 ((sb.firstDataBlock.toNat + 1) * 2 ^ sb.log2Blksz)
    dsimp only
    omega
  rw [blkgrpRead, run_within hplace hnonneg (by omega) (by omega) descriptorAt_within, tableOf]
  by_cases hsize : e.size ≤ sb.descriptorAt ino / 512
  · rw [if_pos hsize, if_neg (by omega)]
    simp
  · rw [if_neg hsize]
    by_cases hread : sb.descriptorAt ino % 512 = 0 ∨ e.ok k = true
    · rw [if_pos hread, if_pos ⟨by omega, hread⟩]
      simp [eq_comm]
    · rw [if_neg hread, if_neg (fun h => hread h.2)]
      simp

/-- On a device that does not fail it is the number on the disk. -/
theorem tableOf_ok (hok : ∀ k, e.ok k = true) (h : tableOf e k sb ino = some table) :
    table = rd32 e.bytes (sb.descriptorAt ino + 8) := by
  have hwithin := @descriptorAt_within sb ino
  rw [tableOf] at h
  split_ifs at h
  obtain rfl := Option.some.inj h
  rw [blockRead_ok hok, Mem.drop_read _ (by omega), Mem.take_read _ (by omega), Nat.div_add_mod]
  have hcell : ∀ i < 32, (Mem.write (fun _ => 0) 0 (e.bytes.read (sb.descriptorAt ino) 32)) (0 + i) =
      e.bytes (sb.descriptorAt ino + i) := by
    intro i hi
    rw [Mem.write_inside _ (by rw [Mem.read_length]; exact hi), Mem.getElem_read]
  have h8 := hcell 8 (by omega)
  have h9 := hcell 9 (by omega)
  have h10 := hcell 10 (by omega)
  have h11 := hcell 11 (by omega)
  rw [Nat.zero_add] at h8 h9 h10 h11
  rw [rd32, rd32, h8, h9, h10, h11]

end Reads

-- ============================================================================
-- The inode that is meant
-- ============================================================================

variable {e : Env} {k : Nat} {sb : Superblock} {ino : UInt32}

theorem number_injective {ino ino' : UInt32} (h : Superblock.number ino = Superblock.number ino') : ino = ino' :=
  (UInt32.sub_left_inj 1).mp (UInt32.toNat_inj.mp h)

/-- Distinct inodes of a group have distinct places in its table. -/
theorem index_ne {ino' : UInt32} (hne : ino' ≠ ino) (hgroup : sb.group ino = sb.group ino') :
    sb.index ino ≠ sb.index ino' := by
  intro hindex
  refine hne (number_injective ?_)
  rw [← Nat.div_add_mod (Superblock.number ino') sb.inodesPerGroup.toNat,
    ← Nat.div_add_mod (Superblock.number ino) sb.inodesPerGroup.toNat]
  rw [Superblock.group, Superblock.group] at hgroup
  rw [Superblock.index, Superblock.index] at hindex
  rw [hgroup, hindex]

/-- An inode is in the table. -/
theorem inodeExtent_subset (hgroups : sb.inodesPerGroup ≠ 0) (table : Nat) :
    (sb.inodeExtent table ino).cells ⊆ (sb.tableExtent table).cells := by
  have hpos : 0 < sb.inodesPerGroup.toNat :=
    Nat.pos_of_ne_zero fun h => hgroups (UInt32.toNat_inj.mp h)
  have hindex : sb.index ino + 1 ≤ sb.inodesPerGroup.toNat := Nat.mod_lt _ hpos
  have hmul := Nat.mul_le_mul_left sb.inodeSize.toNat hindex
  rw [Nat.mul_succ] at hmul
  intro x hx
  simp only [Superblock.inodeExtent, Superblock.tableExtent, Extent.mem_cells, Extent.stop] at hx ⊢
  omega

/-- Inodes that are read from where they are do not share bytes. -/
theorem apart_of_exact (h : Exact e k sb ino) : Apart e k sb ino := by
  intro k' ino' r r' table q table' q' hne hr hq hr' hq' hloc' hsame hdiff
  obtain ⟨r₀, hr₀, hloc⟩ := h
  obtain rfl := Option.some.inj (hr.symm.trans hr₀)
  obtain ⟨hplace, hlen⟩ := hloc.inode table q hq
  obtain ⟨hplace', hlen'⟩ := hloc'.inode table' q' hq'
  have hgroups := (ext2fsReadInode_some hr).1
  rw [hplace, hplace']
  by_cases hgroup : sb.group ino = sb.group ino'
  · obtain rfl := hsame hgroup
    simp only [Superblock.inodeExtent] at hlen ⊢
    obtain hlt | hlt := Nat.lt_or_gt_of_ne (index_ne hne hgroup)
    · have hmul := Nat.mul_le_mul_left sb.inodeSize.toNat (Nat.succ_le_of_lt hlt)
      rw [Nat.mul_succ] at hmul
      omega
    · have hmul := Nat.mul_le_mul_left sb.inodeSize.toNat (Nat.succ_le_of_lt hlt)
      rw [Nat.mul_succ] at hmul
      omega
  · -- the first byte of the later one would be in both tables
    have hdisjoint := (hdiff hgroup).mono (@inodeExtent_subset sb ino hgroups table)
      (@inodeExtent_subset sb ino' hgroups table')
    by_contra hboth
    have hmem : ∀ x, x ∈ (sb.inodeExtent table ino).cells → x ∉ (sb.inodeExtent table' ino').cells :=
      fun x hx => Set.disjoint_left.mp hdisjoint hx
    simp only [Extent.mem_cells, Extent.stop] at hmem
    have hmax := hmem (max (sb.inodeExtent table ino).start (sb.inodeExtent table' ino').start)
    omega

/-- **`ext2fs_read_inode`** reads just that inode, and no bytes of another one, when the numbers
    fit and the inodes have 128 bytes, or the inode is the first one of its group; and at no other
    time. -/
theorem exact_iff : Exact e k sb ino ∧ Apart e k sb ino ↔ Suits e k sb ino := by
  constructor
  · rintro ⟨⟨r, hr, hloc⟩, -⟩
    obtain ⟨hgroups, hblockgroup, hinode, -⟩ := ext2fsReadInode_some hr
    have hplace := hloc.blockgroup
    rw [hblockgroup] at hplace
    obtain ⟨hsector, hoffset⟩ := blockgroup_place_iff.mp hplace
    refine ⟨hgroups, hsector, hoffset, fun table htable => ?_⟩
    obtain ⟨hstatus, rfl⟩ := (tableOf_eq_some_iff hplace).mp htable
    obtain ⟨hinodeplace, hlen⟩ := hloc.inode _ _ ((hinode _).mpr ⟨hstatus, rfl⟩)
    obtain ⟨hfits, hsize⟩ := inode_place_iff.mp hinodeplace
    exact ⟨hfits, hsize.imp_right fun hzero => ⟨hzero, hlen⟩⟩
  · intro h
    obtain ⟨r, hr⟩ := @exists_ext2fsReadInode e k sb ino h.groups
    obtain ⟨-, hblockgroup, hinode, hbytes⟩ := ext2fsReadInode_some hr
    have hplace := blockgroup_place_iff.mpr ⟨h.sector, h.offset⟩
    have hexact : Exact e k sb ino := by
      refine ⟨r, hr, ⟨by rw [hblockgroup]; exact hplace, ?_, ?_⟩⟩
      · intro table q hq
        obtain ⟨hstatus, hp⟩ := (hinode _).mp hq
        obtain ⟨rfl, rfl⟩ := Prod.mk.inj hp
        obtain ⟨hfits, hsize⟩ := h.inode _ ((tableOf_eq_some_iff hplace).mpr ⟨hstatus, rfl⟩)
        refine ⟨inode_place_iff.mpr ⟨hfits, hsize.imp_right And.left⟩, ?_⟩
        obtain heq | ⟨-, hlen⟩ := hsize
        · show 128 ≤ sb.inodeSize.toNat
          rw [heq]
          decide
        · exact hlen
      · intro m hm hok
        obtain ⟨table, q, hq, hread, rfl⟩ := hbytes m hm
        obtain ⟨hstatus, hp⟩ := (hinode _).mp hq
        obtain ⟨htable, rfl⟩ := Prod.mk.inj hp
        have hdisk := (tableOf_eq_some_iff hplace).mpr ⟨hstatus, htable⟩
        obtain ⟨hfits, hsize⟩ := h.inode _ hdisk
        rw [← htable] at hread ⊢
        rw [← tableOf_ok hok hdisk]
        have hnonneg : 0 ≤ (inodeRequest sb table ino).sector := by
          rw [inodeRequest]
          have := toInt_u32 ((table + sb.index ino / sb.inodesPerBlock) * 2 ^ sb.log2Blksz)
          dsimp only
          omega
        exact run_within_bytes hok (inode_place_iff.mpr ⟨hfits, hsize.imp_right And.left⟩) hnonneg
          (by omega) (by omega) (inodeExtent_within (hsize.imp_right And.left)) hread
    exact ⟨hexact, apart_of_exact hexact⟩

-- The root directory of a file system with inodes of 256 bytes.

/-- Blocks of 1 KiB, and 32 inodes in a group. -/
def largeInodes : Superblock where
  firstDataBlock := 1
  log2BlockSize := 0
  log2BlockSize_le := by decide
  inodesPerGroup := 32
  inodeSize := 256

/-- The descriptor in block 2 gives block 5 for the inode table. -/
def largeInodesDisk : Env where
  bytes := fun x => if x = 2056 then 5 else 0
  size := 4096
  size_lt := by decide
  ok := fun _ => true
  junk := fun _ _ => 0
  malloc := fun _ => none

theorem not_exact_largeInodes :
    ¬ ∀ (e : Env) (k : Nat) (sb : Superblock) (ino : UInt32), Exact e k sb ino ∧ Apart e k sb ino := by
  intro h
  obtain ⟨r, hr, hloc⟩ := (h largeInodesDisk 0 largeInodes 2).1
  obtain ⟨-, -, hinode, -⟩ := ext2fsReadInode_some hr
  have hstatus : (blkgrpRead largeInodesDisk 0 largeInodes 2).status = .ok := by decide
  obtain ⟨hplace, -⟩ := hloc.inode _ _ ((hinode _).mpr ⟨hstatus, rfl⟩)
  obtain hsize | hindex := (inode_place_iff.mp hplace).2
  · exact absurd hsize (by decide)
  · exact absurd hindex (by decide)

end Uboot.Fs.Ext2Inode
