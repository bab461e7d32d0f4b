/-
  Uboot.Fs.Ext2FormatClear

  Which blocks of the inode tables `ext2fs_format` clears.

  The passes of the clearing loop each write 80 blocks, but pass `j` begins only `j` blocks behind the
  one before.  A table of more than 90 blocks keeps some of what was there.
-/

import Uboot.Fs.Ext2Format

namespace Uboot.Fs.Ext2Format

open Uboot.Lib
open Uboot.Fs.FatFormat (DiskPartition)

-- ============================================================================
-- The passes
-- ============================================================================

/-- The block of the table at which pass `j` begins. -/
def eraseBlock : Nat → Nat
  | 0 => 0
  | j + 1 => eraseBlock j + (j + 1)

theorem eraseBlock_mono {i j : Nat} (h : i ≤ j) : eraseBlock i ≤ eraseBlock j := by
  induction h with
  | refl => exact le_rfl
  | step _ ih => exact ih.trans (Nat.le_add_right _ _)

/-- Up to pass 80 no block is left out between two passes. -/
theorem exists_pass {n b : Nat} (hn : n ≤ 80) (hb : b < eraseBlock n + 80) :
    ∃ j ≤ n, eraseBlock j ≤ b ∧ b < eraseBlock j + 80 := by
  induction n with
  | zero => exact ⟨0, le_rfl, Nat.zero_le b, hb⟩
  | succ n ih =>
    by_cases hbefore : b < eraseBlock n + 80
    · obtain ⟨j, hj, hpass⟩ := ih (by omega) hbefore
      exact ⟨j, by omega, hpass⟩
    · refine ⟨n + 1, le_rfl, ?_, hb⟩
      rw [eraseBlock]
      omega

theorem mem_eraseStarts {n j s base v : Nat} (hs : u32 (s + j * 8) = u32 (base + 8 * eraseBlock j)) :
    v ∈ eraseStarts n j s ↔ ∃ i < n, v = u32 (base + 8 * eraseBlock (j + i)) := by
  induction n generalizing j s with
  | zero => exact iff_of_false List.not_mem_nil fun ⟨_, hi, _⟩ => Nat.not_lt_zero _ hi
  | succ n ih =>
    have hnext : u32 (u32 (s + j * 8) + (j + 1) * 8) = u32 (base + 8 * eraseBlock (j + 1)) := by
      rw [hs, u32_add_left, eraseBlock]
      congr 1
      omega
    rw [eraseStarts, List.mem_cons, ih hnext, hs]
    constructor
    · rintro (rfl | ⟨i, hi, rfl⟩)
      · exact ⟨0, Nat.succ_pos n, rfl⟩
      · exact ⟨i + 1, Nat.succ_lt_succ hi, by rw [Nat.add_right_comm, Nat.add_assoc]⟩
    · rintro ⟨i, hi, rfl⟩
      cases i with
      | zero => exact .inl rfl
      | succ i => exact .inr ⟨i, Nat.lt_of_succ_lt_succ hi, by rw [Nat.add_right_comm, Nat.add_assoc]⟩

-- ============================================================================
-- The numbers of a partition
-- ============================================================================

variable {p : DiskPartition}

/-- The groups are as many as the partition needs. -/
theorem blkGroupNum_bounds (p : DiskPartition) :
    p.size ≤ blkGroupNum p * 0x40000 ∧ blkGroupNum p * 0x40000 < p.size + 0x40000 := by
  rw [blkGroupNum]
  split <;> omega

theorem totalInodes_bounds (p : DiskPartition) :
    totalBlocks p ≤ 2 * totalInodes p + 1 ∧ totalInodes p ≤ totalBlocks p + 64 ∧
      (totalBlocks p ≤ 0x3E800 → totalBlocks p ≤ totalInodes p) ∧
      (totalBlocks p ≤ 0x8000 → totalInodes p = (totalBlocks p + 31) / 0x20 * 0x20) := by
  simp only [totalInodes]
  split <;> split <;> (try split) <;> omega

/-- The blocks that `inodesPerGroup` inodes take. -/
def groupBlocks (p : DiskPartition) : Nat := inodesPerGroup p * 128 / 4096

theorem inodesPerGroup_eq (h : 2048 ≤ totalBlocks p) :
    inodesPerGroup p = (((totalInodes p - 1) / blkGroupNum p + 1) / 0x20 + 1) * 0x20 := by
  have hsize := p.size_lt
  obtain ⟨hmany, hfew, _, _⟩ := totalInodes_bounds p
  have hdiv := Nat.div_le_self (totalInodes p - 1) (blkGroupNum p)
  rw [totalBlocks] at h hmany hfew
  rw [inodesPerGroup, usub_of_le (by omega) (by omega), u32_of_lt (by omega)]

theorem groupBlocks_eq (h : 2048 ≤ totalBlocks p) :
    groupBlocks p = ((totalInodes p - 1) / blkGroupNum p + 1) / 0x20 + 1 := by
  rw [groupBlocks, inodesPerGroup_eq h]
  omega

/-- The table that the superblock announces lacks at most one of them. -/
theorem groupBlocks_le (h : 2048 ≤ totalBlocks p) : groupBlocks p * 4096 ≤ sbInodesPerGroup p * 128 + 4096 := by
  have hdiv := Nat.div_le_self (totalInodes p - 1) (blkGroupNum p)
  obtain ⟨hmany, _, _, _⟩ := totalInodes_bounds p
  rw [sbInodesPerGroup]
  split
  · rw [groupBlocks]
    omega
  · rw [groupBlocks_eq h]
    omega

theorem groupBlocks_le_max (h : 2048 ≤ totalBlocks p) : groupBlocks p ≤ 1032 := by
  obtain ⟨hle, _⟩ := blkGroupNum_bounds p
  obtain ⟨_, hfew, _, _⟩ := totalInodes_bounds p
  have htotal : totalBlocks p = p.size / 8 := rfl
  have hmax : (totalInodes p - 1) / blkGroupNum p < 33000 := by
    rw [Nat.div_lt_iff_lt_mul (by omega)]
    omega
  rw [groupBlocks_eq h]
  omega

theorem le_groupBlocks (h : 2880 < totalBlocks p) : 92 ≤ groupBlocks p := by
  obtain ⟨hle, hlt⟩ := blkGroupNum_bounds p
  obtain ⟨hmany, _, hall, hsmall⟩ := totalInodes_bounds p
  have htotal : totalBlocks p = p.size / 8 := rfl
  have hmin : 2911 ≤ (totalInodes p - 1) / blkGroupNum p := by
    rw [Nat.le_div_iff_mul_le (by omega)]
    omega
  rw [groupBlocks_eq (by omega)]
  omega

theorem eraseNum_eq (p : DiskPartition) : eraseNum p = (groupBlocks p + 1) / 80 + 4 := rfl

theorem reservedGdtBlk_eq (p : DiskPartition) : reservedGdtBlk p = totalBlocks p / 4096 := Nat.shiftRight_eq_div_pow _ 12

theorem firstInodeTableAddr_eq (p : DiskPartition) : firstInodeTableAddr p = reservedGdtBlk p + 4 := by
  rw [firstInodeTableAddr, startIndtableAddr, revBlocks, if_pos (by decide)]
  omega

theorem rootDataBlk_bounds (p : DiskPartition) :
    firstInodeTableAddr p + groupBlocks p ≤ rootDataBlk p + 1 ∧
      rootDataBlk p ≤ firstInodeTableAddr p + groupBlocks p := by
  have hfirst := firstInodeTableAddr_eq p
  rw [rootDataBlk, ← groupBlocks]
  split <;> omega

theorem jnldataStartAddr_bounds (p : DiskPartition) :
    rootDataBlk p ≤ jnldataStartAddr p ∧ jnldataStartAddr p ≤ rootDataBlk p + 6 := by
  rw [rootDataBlk, jnldataStartAddr, ← groupBlocks]
  split <;> omega

theorem countDown_eq {n r : Nat} (hr : 0 < r) (hlt : r < 4294967296) : countDown n r = r - n := by
  induction n generalizing r with
  | zero => rfl
  | succ n ih =>
    rw [countDown, usub_of_le hr hlt]
    split
    · omega
    · rw [ih (by omega) (by omega)]
      omega

theorem remainBlocks_eq {n : Nat} (h : jnlBlocks p = n) (hn : 12 < n) (hmax : n < 4294967296) :
    remainBlocks p = n - 1036 := by
  have hstart : ((jnlBlocks p - 12) % 4294967296).toNat = n - 12 := by
    rw [h]
    omega
  rw [remainBlocks, hstart, countDown_eq (by omega) (by omega)]
  omega

/-- A small journal has indirect pointers only; no journal needs more than 32 blocks of others. -/
theorem journal_bounds (h : 2048 ≤ totalBlocks p) :
    neededBlocks p ≤ 32 ∧ (remainBlocks p ≠ 0 → dIndirectPointerAddr p = jnldataStartAddr p + 0x400 + 13) := by
  have hbounds : remainBlocks p ≤ 31766 ∧ (remainBlocks p ≠ 0 → 4096 ≤ defaultJournalSize (totalBlocks p)) := by
    have hsize : defaultJournalSize (totalBlocks p) = 1024 ∨ defaultJournalSize (totalBlocks p) = 4096 ∨
        defaultJournalSize (totalBlocks p) = 8192 ∨ defaultJournalSize (totalBlocks p) = 16384 ∨
        defaultJournalSize (totalBlocks p) = 32768 := by
      rw [defaultJournalSize, if_neg (Nat.not_lt.mpr h)]
      repeat' split
      all_goals omega
    have hblocks : jnlBlocks p = (1025 : Nat) ∧ defaultJournalSize (totalBlocks p) = 1024 ∨
        ∃ n : Nat, jnlBlocks p = n ∧ 1036 ≤ n ∧ n ≤ 32802 ∧ 4096 ≤ defaultJournalSize (totalBlocks p) := by
      rcases hsize with hd | hd | hd | hd | hd
      · exact .inl ⟨by rw [jnlBlocks, hd]; decide, hd⟩
      · exact .inr ⟨4102, by rw [jnlBlocks, hd]; decide, by decide, by decide, by omega⟩
      · exact .inr ⟨8202, by rw [jnlBlocks, hd]; decide, by decide, by decide, by omega⟩
      · exact .inr ⟨16402, by rw [jnlBlocks, hd]; decide, by decide, by decide, by omega⟩
      · exact .inr ⟨32802, by rw [jnlBlocks, hd]; decide, by decide, by decide, by omega⟩
    rcases hblocks with ⟨hn, _⟩ | ⟨n, hn, hmin, hmax, hlarge⟩
    · rw [remainBlocks_eq hn (by decide) (by decide)]
      exact ⟨by decide, fun h => absurd rfl h⟩
    · rw [remainBlocks_eq hn (by omega) (by omega)]
      exact ⟨by omega, fun _ => hlarge⟩
  constructor
  · rw [neededBlocks]
    split <;> omega
  · intro hremain
    exact if_pos (hbounds.2 hremain)

-- ============================================================================
-- Where the writes go
-- ============================================================================

/-- The write begins `c` sectors behind the start of the partition. -/
def PlacedAt (p : DiskPartition) (c : Nat) (w : BlockDev.Write) : Prop :=
  w.start = u32 (p.start + c) ∧ c + w.cnt ≤ 4294967296

variable {b : Images} {jn : Bool} {w : BlockDev.Write} {i c x : Nat}

/-- Sector numbers may wrap, but not into the partition. -/
theorem PlacedAt.covers_iff (h : PlacedAt p c w) (hx : x < p.size) : w.Covers (p.start + x) ↔ c ≤ x ∧ x < c + w.cnt := by
  obtain ⟨hstart, hcnt⟩ := h
  have hfits := p.fits
  rw [BlockDev.Write.Covers, hstart, u32]
  omega

theorem sector_eq (addr : Nat) : sector p addr = u32 (p.start + 8 * addr) := by
  rw [sector, Nat.add_comm, Nat.mul_comm]

/-- The groups with a superblock, as far as the descriptors of all have room. -/
theorem isRevgdt_cases (hrev : isRevgdt i = true) (hi : i < 128) : i ∈ [0, 1, 3, 5, 7, 9, 25, 27, 49] := by
  have hall : ∀ i < 128, isRevgdt i = true → i ∈ [0, 1, 3, 5, 7, 9, 25, 27, 49] := by decide
  exact hall i hi hrev

theorem superSector_eq (hrev : isRevgdt i = true) (hi : i < 128) :
    ∃ c, superSector p i = u32 (p.start + c) ∧ c + 16 ≤ 4294967296 ∧ (i = 0 → c = 0) ∧ (0 < i → 0x40000 ≤ c) := by
  have hall : ∀ i ∈ [0, 1, 3, 5, 7, 9, 25, 27, 49],
      ((BitVec.ofNat 32 i * 0x8000#32 * 4096#32).sdiv 512#32).toNat + 16 ≤ 4294967296 ∧
        (i = 0 → ((BitVec.ofNat 32 i * 0x8000#32 * 4096#32).sdiv 512#32).toNat = 0) ∧
        (0 < i → 0x40000 ≤ ((BitVec.ofNat 32 i * 0x8000#32 * 4096#32).sdiv 512#32).toNat) := by
    decide
  refine ⟨_, ?_, hall i (isRevgdt_cases hrev hi)⟩
  rw [superSector, BitVec.toNat_add, BitVec.toNat_ofNat, Nat.mod_add_mod]
  rfl

/-- What a write of a group is. -/
inductive GroupWrite (p : DiskPartition) (i c : Nat) (w : BlockDev.Write) : Prop
  /-- in front of the first inode table -/
  | before (hi : i = 0) (hc : c + w.cnt ≤ 8 * firstInodeTableAddr p)
  /-- a pass of the clearing loop -/
  | erase (hbuf : w.buf = zerobuf) (hcnt : w.cnt = 640) (j : Nat) (hj : j < eraseNum p)
      (hc : c = 8 * (startIndtableAddr p i + eraseBlock j))
  /-- the first inodes -/
  | inodes (hi : i = 0) (hc : c = 8 * firstInodeTableAddr p) (hcnt : w.cnt = 4)
  /-- behind the first inode table -/
  | behind (hi : i = 0) (hc : 8 * rootDataBlk p ≤ c)
  /-- in another group -/
  | other (hi : 0 < i) (hc : 0x40000 ≤ c)

theorem superWrites_cases (hi : i < 128) (hw : w ∈ superWrites p b i) (hsize : reservedGdtBlk p ≤ 1024) :
    ∃ c, PlacedAt p c w ∧ GroupWrite p i c w := by
  have hfirst := firstInodeTableAddr_eq p
  rw [superWrites, List.mem_append] at hw
  rcases hw with hw | hw
  · split at hw
    · rename_i hrev
      obtain ⟨c, hstart, hc, hzero, hpos⟩ := superSector_eq (p := p) hrev hi
      rw [List.mem_cons, List.mem_singleton] at hw
      rcases hw with rfl | rfl
      · refine ⟨c, ⟨hstart, by dsimp only; omega⟩, ?_⟩
        rcases Nat.eq_zero_or_pos i with hi0 | hi0
        · exact .before hi0 (by have := hzero hi0; dsimp only; omega)
        · exact .other hi0 (hpos hi0)
      · refine ⟨c + 8, ⟨?_, by dsimp only; omega⟩, ?_⟩
        · dsimp only
          rw [hstart, u32_add_left, Nat.add_assoc]
        rcases Nat.eq_zero_or_pos i with hi0 | hi0
        · exact .before hi0 (by have := hzero hi0; dsimp only; omega)
        · exact .other hi0 (by have := hpos hi0; omega)
    · exact absurd hw List.not_mem_nil
  · split at hw
    · rename_i hi0
      obtain ⟨c, hstart, hc, hzero, _⟩ := superSector_eq (p := p) (i := 0) (by decide) (by decide)
      obtain rfl := hzero rfl
      obtain ⟨k, hk, rfl⟩ := List.mem_map.mp hw
      have hlt := List.mem_range.mp hk
      subst hi0
      refine ⟨16 + 8 * k, ⟨?_, by dsimp only; omega⟩, .before rfl (by dsimp only; omega)⟩
      dsimp only
      rw [hstart, Nat.add_zero, Nat.add_assoc, u32_add_left]
      congr 1
      omega
    · exact absurd hw List.not_mem_nil

/-- A write to a block of the file system. -/
theorem placedAt_sector {addr cnt : Nat} {buf : Mem UInt8} (h : 8 * addr + cnt ≤ 4294967296) :
    PlacedAt p (8 * addr) ⟨sector p addr, cnt, buf⟩ := ⟨sector_eq addr, h⟩

theorem bitmapWrites_cases (hi : i < 128) (hw : w ∈ bitmapWrites p b i) (hsize : reservedGdtBlk p ≤ 1024) :
    ∃ c, PlacedAt p c w ∧ GroupWrite p i c w := by
  have hfirst := firstInodeTableAddr_eq p
  have hrev : revBlocks p i ≤ reservedGdtBlk p + 2 := by
    rw [revBlocks]
    split <;> omega
  have haddr : startIndbitAddr p i = startBlkbitAddr p i + 1 := by
    rw [startIndbitAddr, startBlkbitAddr]
    omega
  have hplace : startBlkbitAddr p i = i * 0x8000 + revBlocks p i := rfl
  rw [bitmapWrites, haddr, List.mem_cons, List.mem_singleton] at hw
  have hkind : ∀ addr, startBlkbitAddr p i ≤ addr → addr ≤ startBlkbitAddr p i + 1 → ∀ buf,
      GroupWrite p i (8 * addr) ⟨sector p addr, 8, buf⟩ := by
    intro addr hmin hmax buf
    rcases Nat.eq_zero_or_pos i with hi0 | hi0
    · exact .before hi0 (by dsimp only; subst hi0; omega)
    · exact .other hi0 (by omega)
  rcases hw with rfl | rfl
  · exact ⟨_, placedAt_sector (by omega), hkind _ le_rfl (by omega) _⟩
  · exact ⟨_, placedAt_sector (by omega), hkind _ (by omega) le_rfl _⟩

/-- The writes of a clearing loop. -/
theorem mem_eraseWrites :
    w ∈ eraseWrites p i ↔
      ∃ j < eraseNum p, w = ⟨u32 (p.start + 8 * (startIndtableAddr p i + eraseBlock j)), 640, zerobuf⟩ := by
  have hfirst : u32 (sector p (startIndtableAddr p i) + 0 * 8) =
      u32 (p.start + 8 * startIndtableAddr p i + 8 * eraseBlock 0) := by
    rw [sector_eq, Nat.zero_mul, Nat.add_zero, u32_u32, eraseBlock, Nat.mul_zero, Nat.add_zero]
  rw [eraseWrites, List.mem_map]
  constructor
  · rintro ⟨s, hs, rfl⟩
    obtain ⟨j, hj, rfl⟩ := (mem_eraseStarts hfirst).mp hs
    refine ⟨j, hj, ?_⟩
    rw [Nat.zero_add, Nat.add_assoc, ← Nat.mul_add]
  · rintro ⟨j, hj, rfl⟩
    refine ⟨_, (mem_eraseStarts hfirst).mpr ⟨j, hj, rfl⟩, ?_⟩
    rw [Nat.zero_add, Nat.add_assoc, ← Nat.mul_add]

theorem mem_groupWrites_of_erase (hw : w ∈ eraseWrites p i) : w ∈ groupWrites p b jn i :=
  List.mem_append_left _ (List.mem_append_right _ hw)

theorem eraseBlock_le (h : 2048 ≤ totalBlocks p) {j : Nat} (hj : j < eraseNum p) : eraseBlock j ≤ 120 := by
  have hmax := groupBlocks_le_max h
  rw [eraseNum_eq] at hj
  exact eraseBlock_mono (show j ≤ 15 by omega)

theorem startIndtableAddr_le (hi : i < 128) (hsize : reservedGdtBlk p ≤ 1024) : startIndtableAddr p i ≤ 128 * 0x8000 := by
  have hrev : revBlocks p i ≤ reservedGdtBlk p + 2 := by
    rw [revBlocks]
    split <;> omega
  rw [startIndtableAddr]
  omega

theorem placedAt_erase (h : 2048 ≤ totalBlocks p) (hsize : reservedGdtBlk p ≤ 1024) (hi : i < 128) {j : Nat}
    (hj : j < eraseNum p) :
    PlacedAt p (8 * (startIndtableAddr p i + eraseBlock j))
      ⟨u32 (p.start + 8 * (startIndtableAddr p i + eraseBlock j)), 640, zerobuf⟩ := by
  have htable := startIndtableAddr_le hi hsize
  have hblock := eraseBlock_le h hj
  exact ⟨rfl, by dsimp only; omega⟩

theorem groupWrites_cases (h : 2048 ≤ totalBlocks p) (hsize : reservedGdtBlk p ≤ 1024) (hi : i < 128)
    (hw : w ∈ groupWrites p b jn i) : ∃ c, PlacedAt p c w ∧ GroupWrite p i c w := by
  have htable := startIndtableAddr_le hi hsize
  have hroot := rootDataBlk_bounds p
  have hjnl := jnldataStartAddr_bounds p
  have hblocks := groupBlocks_le_max h
  have hfirst := firstInodeTableAddr_eq p
  obtain ⟨hneeded, hdirect⟩ := journal_bounds h
  rw [groupWrites, List.mem_append, List.mem_append, List.mem_append] at hw
  rcases hw with ((hw | hw) | hw) | hw
  · exact superWrites_cases hi hw hsize
  · exact bitmapWrites_cases hi hw hsize
  · obtain ⟨j, hj, rfl⟩ := mem_eraseWrites.mp hw
    exact ⟨_, placedAt_erase h hsize hi hj, .erase rfl rfl j hj rfl⟩
  · split at hw
    · rename_i hi0
      have hbehind : ∀ addr buf, rootDataBlk p ≤ addr → addr ≤ rootDataBlk p + 40000 →
          ∃ c, PlacedAt p c ⟨sector p addr, 8, buf⟩ ∧ GroupWrite p i c ⟨sector p addr, 8, buf⟩ :=
        fun addr buf hmin hmax => ⟨_, placedAt_sector (by omega), .behind hi0 (Nat.mul_le_mul_left 8 hmin)⟩
      rw [List.mem_append, List.mem_append, List.mem_singleton] at hw
      rcases hw with (hw | hw) | rfl
      · obtain ⟨k, hk, rfl⟩ := List.mem_map.mp hw
        have hlt := List.mem_range.mp hk
        exact hbehind _ _ (by omega) (by omega)
      · split at hw
        · rw [journalWrites, List.mem_append, List.mem_cons, List.mem_singleton] at hw
          rcases hw with (rfl | rfl) | hw
          · exact hbehind _ _ (by omega) (by omega)
          · exact hbehind _ _ (by rw [indirectPointerAddr]; omega) (by rw [indirectPointerAddr]; omega)
          · split at hw
            · rename_i hremain
              have hd := hdirect hremain
              rw [List.mem_append, List.mem_singleton] at hw
              rcases hw with hw | rfl
              · obtain ⟨k, hk, rfl⟩ := List.mem_map.mp hw
                have hlt := List.mem_range.mp hk
                exact hbehind _ _ (by omega) (by omega)
              · exact hbehind _ _ (by omega) (by omega)
            · exact absurd hw List.not_mem_nil
        · exact absurd hw List.not_mem_nil
      · exact ⟨_, placedAt_sector (by rw [← hi0]; omega), .inodes hi0 rfl rfl⟩
    · exact absurd hw List.not_mem_nil

-- ============================================================================
-- Cleared tables
-- ============================================================================

/-- After a format the inode tables hold zeros behind the first inodes, whatever was there, and they are
    cleared by writes inside the partition. -/
structure ClearsTables (p : DiskPartition) (setJournaling : Bool) : Prop where
  zero : ∀ (b : Images) (d : BlockDev), ∃ d', ext2fsFormat p b setJournaling d = some d' ∧
    ∀ i < blkGroupNum p, ∀ x < sbInodesPerGroup p * 128, (i = 0 → 2048 ≤ x) →
      d'.disk (p.start + 8 * startIndtableAddr p i + x / 512) (x % 512) = 0
  inside : ∀ i < blkGroupNum p, ∀ w ∈ eraseWrites p i, p.start ≤ w.start ∧ w.start + w.cnt ≤ p.start + p.size

/-- The numbers of a partition of up to 2880 blocks: one group, with its table from block 4 on. -/
structure Small (p : DiskPartition) : Prop where
  groups : blkGroupNum p = 1
  reserved : reservedGdtBlk p = 0
  first : startIndtableAddr p 0 = 4
  table : sbInodesPerGroup p * 128 + 4096 = groupBlocks p * 4096
  blocks : groupBlocks p ≤ 91
  size : 16384 ≤ p.size

theorem small_of_le (h : 2048 ≤ totalBlocks p) (hle : totalBlocks p ≤ 2880) : Small p := by
  have htotal : totalBlocks p = p.size / 8 := rfl
  have hgroups : blkGroupNum p = 1 := by
    obtain ⟨hmin, hmax⟩ := blkGroupNum_bounds p
    omega
  have hres : reservedGdtBlk p = 0 := by
    rw [reservedGdtBlk_eq]
    omega
  have hfirst := firstInodeTableAddr_eq p
  rw [hres] at hfirst
  have hinodes := (totalInodes_bounds p).2.2.2 (by omega)
  have hblocks := groupBlocks_eq h
  rw [hgroups, Nat.div_one] at hblocks
  have htable : sbInodesPerGroup p = totalInodes p := if_neg (by omega)
  exact ⟨hgroups, hres, hfirst, by omega, by omega, by omega⟩

/-- The passes get through a table of up to 90 blocks. -/
theorem le_passes (h : groupBlocks p ≤ 91) : groupBlocks p ≤ eraseBlock (eraseNum p - 1) + 81 := by
  have hpasses := eraseNum_eq p
  by_cases hfour : groupBlocks p < 79
  · exact Nat.le_trans (by omega) (Nat.add_le_add_right (eraseBlock_mono (show 3 ≤ eraseNum p - 1 by omega)) 81)
  · exact h.trans (Nat.add_le_add_right (eraseBlock_mono (show 4 ≤ eraseNum p - 1 by omega)) 81)

theorem clearsTables_of_le (h : 2048 ≤ totalBlocks p) (hle : totalBlocks p ≤ 2880) : ClearsTables p jn := by
  have hsmall := small_of_le h hle
  have hgroups := hsmall.groups
  have hres := hsmall.reserved
  have htable := hsmall.table
  have hblocks := hsmall.blocks
  have hsize := hsmall.size
  have hroot := (rootDataBlk_bounds p).1
  have hpasses := eraseNum_eq p
  rw [firstInodeTableAddr, hsmall.first] at hroot
  constructor
  · intro b d
    refine ⟨_, if_pos (by omega), fun i hi x hx hinode => ?_⟩
    obtain rfl : i = 0 := by omega
    have hpast := hinode rfl
    rw [hgroups, hsmall.first, Nat.add_assoc]
    apply BlockDev.writeAll_inside
    · -- only the passes write there
      intro w hw hcovers
      obtain ⟨i, hi, hw⟩ := List.mem_flatMap.mp hw
      have hi := List.mem_range.mp hi
      obtain ⟨c, hplace, hkind⟩ := groupWrites_cases h (by omega) (by omega) hw
      rw [hplace.covers_iff (by omega)] at hcovers
      cases hkind with
      | before _ hc =>
        rw [firstInodeTableAddr, hsmall.first] at hc
        omega
      | erase hbuf _ _ _ _ => rw [hbuf, zerobuf]
      | inodes _ hc hcnt =>
        rw [firstInodeTableAddr, hsmall.first] at hc
        omega
      | behind _ hc => omega
      | other hpos _ => omega
    · -- and one of them does
      have hcleared := le_passes hblocks
      obtain ⟨j, hj, hpass⟩ := exists_pass (n := eraseNum p - 1) (b := x / 4096) (by omega) (by omega)
      have hmem : ⟨u32 (p.start + 8 * (startIndtableAddr p 0 + eraseBlock j)), 640, zerobuf⟩ ∈ eraseWrites p 0 :=
        mem_eraseWrites.mpr ⟨j, by omega, rfl⟩
      have hplace := placedAt_erase (p := p) (i := 0) h (by omega) (by decide) (show j < eraseNum p by omega)
      refine .inl ⟨_, List.mem_flatMap.mpr ⟨0, List.mem_range.mpr Nat.one_pos, mem_groupWrites_of_erase hmem⟩, ?_⟩
      rw [hplace.covers_iff (by omega), hsmall.first]
      dsimp only
      omega
  · intro i hi w hw
    obtain rfl : i = 0 := by omega
    obtain ⟨j, hj, rfl⟩ := mem_eraseWrites.mp hw
    have hblock := eraseBlock_le h hj
    have hfits := p.fits
    rw [hsmall.first, u32_of_lt (by omega)]
    dsimp only
    omega

/-- The passes of a larger table end before it. -/
theorem passes_lt (h : 2880 < totalBlocks p) : eraseBlock (eraseNum p - 1) + 81 < groupBlocks p := by
  have hmin := le_groupBlocks h
  have hmax := groupBlocks_le_max (p := p) (by omega)
  have hpasses : eraseNum p - 1 = (groupBlocks p + 1) / 80 + 3 := rfl
  have hfew : ∀ k < 13, 2 ≤ k → eraseBlock (k + 3) + 82 < 80 * k := by decide
  have hone : eraseBlock 4 = 10 := rfl
  rw [hpasses]
  by_cases hk : (groupBlocks p + 1) / 80 = 1
  · rw [hk, hone]
    omega
  · have := hfew ((groupBlocks p + 1) / 80) (by omega) (by omega)
    omega

/-- The block right behind the last pass keeps what it had. -/
theorem not_clearsTables_of_lt (h : 2880 < totalBlocks p) : ¬ClearsTables p jn := by
  intro hclears
  let noImages : Images := ⟨fun _ => zerobuf, fun _ => zerobuf, fun _ => zerobuf, fun _ => zerobuf, fun _ => zerobuf,
    fun _ => zerobuf, fun _ => zerobuf, fun _ => zerobuf, zerobuf⟩
  obtain ⟨d', hd', hzero⟩ := hclears.zero noImages ⟨fun _ _ => 0xff, []⟩
  have htotal : totalBlocks p = p.size / 8 := rfl
  obtain ⟨hmin, hmax⟩ := blkGroupNum_bounds p
  have hroom : 32 * blkGroupNum p ≤ 4096 := by
    by_contra hno
    rw [ext2fsFormat, if_neg hno] at hd'
    cases hd'
  rw [ext2fsFormat, if_pos hroom] at hd'
  have hres := reservedGdtBlk_eq p
  have hfirst := firstInodeTableAddr_eq p
  have hroot := (rootDataBlk_bounds p).1
  have hpasses := passes_lt h
  have hblocks := groupBlocks_le_max (p := p) (by omega)
  have htable := groupBlocks_le (p := p) (by omega)
  have hlast := eraseBlock_le (p := p) (by omega)
    (show eraseNum p - 1 < eraseNum p from Nat.sub_lt (Nat.succ_pos _) Nat.one_pos)
  generalize hgap : eraseBlock (eraseNum p - 1) + 80 = gap
  have hkept : d'.disk (p.start + 8 * (firstInodeTableAddr p + gap)) 0 = 0xff := by
    rw [← Option.some.inj hd']
    apply BlockDev.writeAll_outside _
    intro w hw
    obtain ⟨i, hi, hw⟩ := List.mem_flatMap.mp hw
    have hi := List.mem_range.mp hi
    obtain ⟨c, hplace, hkind⟩ := groupWrites_cases (by omega) (by omega) (by omega) hw
    rw [hplace.covers_iff (by omega)]
    cases hkind with
    | before _ hc => omega
    | erase _ hcnt j hj hc =>
      have hbefore := eraseBlock_mono (show j ≤ eraseNum p - 1 by omega)
      rcases Nat.eq_zero_or_pos i with rfl | hpos
      · rw [← firstInodeTableAddr] at hc
        omega
      · rw [startIndtableAddr] at hc
        omega
    | inodes _ hc hcnt => omega
    | behind _ hc => omega
    | other _ hc => omega
  have hcleared := hzero 0 (by omega) (4096 * gap) (by omega) (by omega)
  rw [show 4096 * gap / 512 = 8 * gap by omega, show 4096 * gap % 512 = 0 by omega, ← firstInodeTableAddr, Nat.add_assoc,
    ← Nat.mul_add, hkept] at hcleared
  cases hcleared

/-- **The clearing of the inode tables.**  It is complete, and stays inside, just in partitions of up to
    2880 blocks. -/
theorem clearsTables_iff (p : DiskPartition) (setJournaling : Bool) (h : 2048 ≤ totalBlocks p) :
    ClearsTables p setJournaling ↔ totalBlocks p ≤ 2880 :=
  ⟨fun hclears => Nat.le_of_not_lt fun hlt => not_clearsTables_of_lt hlt hclears, clearsTables_of_le h⟩

/-- The largest, behind a first track of 63 sectors. -/
theorem clearsTables_2880 : ClearsTables ⟨63, 8 * 2880, by decide, by decide⟩ true :=
  (clearsTables_iff ⟨63, 8 * 2880, by decide, by decide⟩ true (by decide)).mpr (by decide)

/-- One block more. -/
theorem not_clearsTables_2881 :
    2048 ≤ totalBlocks ⟨63, 8 * 2881, by decide, by decide⟩ ∧ ¬ClearsTables ⟨63, 8 * 2881, by decide, by decide⟩ true :=
  ⟨by decide, not_clearsTables_of_lt (by decide)⟩

end Uboot.Fs.Ext2Format
