/-
  Uboot.Common.DecompressExt4

  Sparse ext4 images, common/decompress_ext4.c: `check_compress_ext4` looks at the header
  of the image, `write_compressed_ext4` writes its chunks to the partition.

  The image stands in RAM.  A chunk covers `chunk_size` blocks of 4096 bytes, eight
  sectors each; its header says where the next one is.
-/

import Uboot.Lib.BlockDev

namespace Uboot.Common.DecompressExt4

open Uboot.Lib

-- ============================================================================
-- Definitions from the source
-- ============================================================================

/-- `ext4_file_header`, as far as it is looked at. -/
structure FileHeader where
  magic : Nat
  major : Nat
  fileHeaderSize : Nat
  chunkHeaderSize : Nat
  blockSize : Nat
  totalBlocks : Nat
  totalChunks : Nat

def fileHeader (ram : Mem UInt8) (imgBase : Nat) : FileHeader where
  magic := rd32 ram imgBase
  major := rd16 ram (imgBase + 4)
  fileHeaderSize := rd16 ram (imgBase + 8)
  chunkHeaderSize := rd16 ram (imgBase + 10)
  blockSize := rd32 ram (imgBase + 12)
  totalBlocks := rd32 ram (imgBase + 16)
  totalChunks := rd32 ram (imgBase + 20)

/-- `ext4_chunk_header` -/
structure ChunkHeader where
  type : Nat
  chunkSize : Nat
  totalSize : Nat

def chunkHeader (ram : Mem UInt8) (imgBase : Nat) : ChunkHeader where
  type := rd16 ram imgBase
  chunkSize := rd32 ram (imgBase + 4)
  totalSize := rd32 ram (imgBase + 8)

/-- `EXT4_FILE_HEADER_SIZE` -/
def fileHeaderSize : Nat := 28

/-- `EXT4_CHUNK_HEADER_SIZE` -/
def chunkHeaderSize : Nat := 12

/-- `EXT4_FILE_BLOCK_SIZE` -/
def fileBlockSize : Nat := 0x1000

/-- `EXT4_CHUNK_TYPE_RAW` -/
def chunkRaw : Nat := 0xCAC1

/-- `EXT4_CHUNK_TYPE_FILL` -/
def chunkFill : Nat := 0xCAC2

/-- `check_compress_ext4`; `none` is `while(1)`, for an image that is too big. -/
def checkCompressExt4 (h : FileHeader) (partiSize : Nat) : Option Int :=
  if h.magic ≠ 0xED26FF3A then some (-1)
  else if h.major ≠ 1 then some (-1)
  else if h.fileHeaderSize ≠ fileHeaderSize then some (-1)
  else if h.chunkHeaderSize ≠ chunkHeaderSize then some (-1)
  else if h.blockSize ≠ fileBlockSize then some (-1)
  else if partiSize / h.blockSize < h.totalBlocks then none
  else some 0

/-- `write_raw_chunk`: 1 less what `run_command` returns for `mmc write`.  Where that
    fails, `fault` is what stands in the sectors afterwards. -/
def writeRawChunk (ram : Mem UInt8) (fault : Option (Mem UInt8)) (data sector sectorSize : Nat)
    (d : BlockDev) : Int × BlockDev :=
  match fault with
  | none => (1 - 1, d.write sector sectorSize fun x => ram (data + x))
  | some left => (1 - -1, d.write sector sectorSize left)

/-- `while(total_chunks)`; the attempt at each chunk may fail. -/
def writeLoop (ram : Mem UInt8) (blockSize : Nat) (fault : Nat → Option (Mem UInt8)) :
    Nat → Nat → Nat → BlockDev → Int × BlockDev
  | 0, _, _, d => (0, d)
  | totalChunks + 1, imgBase, sectorBase, d =>
    let h := chunkHeader ram imgBase
    let sectorSize := u32 (h.chunkSize * blockSize) / 512
    if h.type = chunkRaw then
      let r := writeRawChunk ram (fault totalChunks) (u32 (imgBase + chunkHeaderSize)) sectorBase
        sectorSize d
      if r.1 ≠ 0 then r
      else
        writeLoop ram blockSize fault totalChunks (u32 (imgBase + h.totalSize))
          (u32 (sectorBase + sectorSize)) r.2
    else
      -- `EXT4_CHUNK_TYPE_FILL`, `EXT4_CHUNK_TYPE_NONE` and all others
      writeLoop ram blockSize fault totalChunks (u32 (imgBase + h.totalSize))
        (u32 (sectorBase + sectorSize)) d

/-- `write_compressed_ext4` -/
def writeCompressedExt4 (ram : Mem UInt8) (imgBase sectorBase : Nat)
    (fault : Nat → Option (Mem UInt8)) (d : BlockDev) : Int × BlockDev :=
  let h := fileHeader ram imgBase
  writeLoop ram h.blockSize fault h.totalChunks (u32 (imgBase + fileHeaderSize)) sectorBase d

/-- The entry of the partition table, in bytes. -/
structure Ptentry where
  start : Nat
  length : Nat
  start_lt : start < 4294967296
  length_lt : length < 4294967296

/-- `ptn->start / CFG_FASTBOOT_SDMMC_BLOCKSIZE` -/
def Ptentry.sectorBase (ptn : Ptentry) : Nat := ptn.start / 512

/-- The whole sectors of the partition. -/
def Ptentry.sectors (ptn : Ptentry) : Nat := ptn.length / 512

-- ============================================================================
-- The decoded image
-- ============================================================================

/-- A chunk of an image: where its data are, and the blocks it covers, behind the
    `first` ones of the image. -/
structure Chunk where
  type : Nat
  data : Nat
  first : Nat
  blocks : Nat

/-- The chunks from `imgBase` on. -/
def chunks (ram : Mem UInt8) : Nat → Nat → Nat → List Chunk
  | 0, _, _ => []
  | totalChunks + 1, imgBase, first =>
    let h := chunkHeader ram imgBase
    ⟨h.type, u32 (imgBase + chunkHeaderSize), first, h.chunkSize⟩ ::
      chunks ram totalChunks (u32 (imgBase + h.totalSize)) (first + h.chunkSize)

def imageChunks (ram : Mem UInt8) (imgBase : Nat) : List Chunk :=
  chunks ram (fileHeader ram imgBase).totalChunks (u32 (imgBase + fileHeaderSize)) 0

/-- A byte of a decoded chunk: of its data, or of the word that fills it. -/
def Chunk.byte (ram : Mem UInt8) (c : Chunk) (j : Nat) : UInt8 :=
  if c.type = chunkFill then ram (c.data + j % 4) else ram (c.data + j)

/-- The chunk is on the disk. -/
def Chunk.On (ram : Mem UInt8) (base : Nat) (disk : Nat → Mem UInt8) (c : Chunk) : Prop :=
  ∀ j < c.blocks * 4096, disk (base + (c.first * 4096 + j) / 512) (j % 512) = c.byte ram j

/-- What is asked of `write_compressed_ext4`: it stays inside the partition, and after
    success every chunk that has contents is there. -/
structure Decodes (ram : Mem UInt8) (imgBase : Nat) (ptn : Ptentry)
    (fault : Nat → Option (Mem UInt8)) (disk : Nat → Mem UInt8) : Prop where
  inside : ∀ w ∈ (writeCompressedExt4 ram imgBase ptn.sectorBase fault ⟨disk, []⟩).2.log,
    ∀ s ∈ w.cells, ptn.sectorBase ≤ s ∧ s < ptn.sectorBase + ptn.sectors
  decoded : (writeCompressedExt4 ram imgBase ptn.sectorBase fault ⟨disk, []⟩).1 = 0 →
    ∀ c ∈ imageChunks ram imgBase, c.type = chunkRaw ∨ c.type = chunkFill →
      c.On ram ptn.sectorBase (writeCompressedExt4 ram imgBase ptn.sectorBase fault ⟨disk, []⟩).2.disk

/-- A raw chunk with blocks ends inside the partition, by the sizes of all the chunks
    before it. -/
def Chunk.RawFits (sectors : Nat) (c : Chunk) : Prop :=
  c.type = chunkRaw → c.blocks = 0 ∨ (c.first + c.blocks) * 8 ≤ sectors

/-- A chunk to fill has no blocks. -/
def Chunk.NoFill (c : Chunk) : Prop := c.type = chunkFill → c.blocks = 0

instance (sectors : Nat) (c : Chunk) : Decidable (c.RawFits sectors) := by
  unfold Chunk.RawFits
  infer_instance

instance (c : Chunk) : Decidable c.NoFill := by
  unfold Chunk.NoFill
  infer_instance

-- ============================================================================
-- One chunk
-- ============================================================================

section Chunk

variable {ram : Mem UInt8} {fault : Nat → Option (Mem UInt8)} {left : Option (Mem UInt8)}
variable {data sector sectorSize s o base sectors first size : Nat} {d : BlockDev}

theorem writeRawChunk_outside (h : s < sector ∨ sector + sectorSize ≤ s) :
    (writeRawChunk ram left data sector sectorSize d).2.disk s o = d.disk s o := by
  cases left <;> rw [writeRawChunk, d.write_outside h]

theorem writeRawChunk_log :
    (writeRawChunk ram left data sector sectorSize d).2.log = d.log ++ [⟨sector, sectorSize⟩] := by
  cases left <;> rfl

theorem writeRawChunk_ok (h : (writeRawChunk ram left data sector sectorSize d).1 = 0) :
    (writeRawChunk ram left data sector sectorSize d).2 =
      d.write sector sectorSize fun x => ram (data + x) := by
  cases left with
  | none => rfl
  | some left =>
    have hfailed : (1 - -1 : Int) = 0 := h
    exact absurd hfailed (by decide)

/-- `sector_base` is where the chunk belongs, as long as that lies in the partition. -/
def Tracks (base sectors sector first : Nat) : Prop := first * 8 ≤ sectors → sector = base + first * 8

/-- Sizes inside a partition do not overflow. -/
theorem sectorSize_eq (hsectors : sectors < 8388608) (h : size * 8 ≤ sectors) :
    u32 (size * fileBlockSize) / 512 = size * 8 := by
  rw [fileBlockSize, u32_of_lt (by omega)]
  omega

theorem Tracks.next (h : Tracks base sectors sector first) (hbase : base + sectors < 4294967296)
    (hsectors : sectors < 8388608) :
    Tracks base sectors (u32 (sector + u32 (size * fileBlockSize) / 512)) (first + size) := by
  intro hle
  have hsector := h (by omega)
  rw [sectorSize_eq hsectors (by omega), hsector, u32_of_lt (by omega)]
  ring

/-- Where a raw chunk that fits is written. -/
theorem Tracks.raw {c : Chunk} (h : Tracks base sectors sector c.first) (hsectors : sectors < 8388608)
    (htype : c.type = chunkRaw) (hfits : c.RawFits sectors) :
    u32 (c.blocks * fileBlockSize) / 512 = c.blocks * 8 ∧
      (c.blocks = 0 ∨ sector = base + c.first * 8 ∧ (c.first + c.blocks) * 8 ≤ sectors) := by
  rcases hfits htype with hzero | hle
  · rw [hzero]
    exact ⟨rfl, .inl rfl⟩
  · exact ⟨sectorSize_eq hsectors (by omega), .inr ⟨h (by omega), hle⟩⟩

end Chunk

-- ============================================================================
-- The chunk loop
-- ============================================================================

section Loop

variable {ram : Mem UInt8} {fault : Nat → Option (Mem UInt8)} {disk : Nat → Mem UInt8}
variable {n imgBase sector first base sectors s o : Nat} {d : BlockDev} {c : Chunk}

/-- Chunks stand in the order of the image. -/
theorem first_le_of_mem (h : c ∈ chunks ram n imgBase first) : first ≤ c.first := by
  induction n generalizing imgBase first with
  | zero => exact absurd h List.not_mem_nil
  | succ n ih =>
    rw [chunks] at h
    rcases List.mem_cons.mp h with rfl | h
    · exact Nat.le_refl _
    · exact Nat.le_trans (Nat.le_add_right ..) (ih h)

/-- Without a fault the loop succeeds. -/
theorem writeLoop_none (blockSize : Nat) :
    (writeLoop ram blockSize (fun _ => none) n imgBase sector d).1 = 0 := by
  induction n generalizing imgBase sector d with
  | zero => rfl
  | succ n ih =>
    rw [writeLoop]
    dsimp only
    split
    · rw [if_neg (fun h => h rfl)]
      exact ih
    · exact ih

/-- The loop adds to the log, and a sector that is in none of the ranges added stays. -/
theorem writeLoop_log (blockSize : Nat) :
    ∃ new, (writeLoop ram blockSize fault n imgBase sector d).2.log = d.log ++ new ∧
      ∀ s o, (∀ w ∈ new, s ∉ w.cells) →
        (writeLoop ram blockSize fault n imgBase sector d).2.disk s o = d.disk s o := by
  induction n generalizing imgBase sector d with
  | zero => exact ⟨[], (List.append_nil _).symm, fun _ _ _ => rfl⟩
  | succ n ih =>
    rw [writeLoop]
    dsimp only
    split
    · have hchunk (s o : Nat) (data size : Nat) (h : s ∉ (⟨sector, size⟩ : Extent).cells) :
          (writeRawChunk ram (fault n) data sector size d).2.disk s o = d.disk s o := by
        rw [Extent.mem_cells, Extent.stop] at h
        dsimp only at h
        exact writeRawChunk_outside (by omega)
      split
      · exact ⟨_, writeRawChunk_log, fun s o h => hchunk s o _ _ (h _ List.mem_cons_self)⟩
      · obtain ⟨new, hlog, hkeep⟩ := @ih
          (u32 (imgBase + (chunkHeader ram imgBase).totalSize))
          (u32 (sector + u32 ((chunkHeader ram imgBase).chunkSize * blockSize) / 512))
          ((writeRawChunk ram (fault n) (u32 (imgBase + chunkHeaderSize)) sector
            (u32 ((chunkHeader ram imgBase).chunkSize * blockSize) / 512) d).2)
        rw [writeRawChunk_log, List.append_assoc] at hlog
        refine ⟨_, hlog, fun s o h => ?_⟩
        rw [List.forall_mem_append] at h
        rw [hkeep s o h.2, hchunk s o _ _ (h.1 _ List.mem_cons_self)]
    · exact ih

section Fits

variable (hbase : base + sectors < 4294967296) (hsectors : sectors < 8388608)
include hbase hsectors

/-- Every range written lies inside the partition. -/
theorem writeLoop_inside (htracks : Tracks base sectors sector first)
    (hfits : ∀ c ∈ chunks ram n imgBase first, c.RawFits sectors) :
    ∀ w ∈ (writeLoop ram fileBlockSize fault n imgBase sector d).2.log,
      w ∈ d.log ∨ ∀ s ∈ w.cells, base ≤ s ∧ s < base + sectors := by
  induction n generalizing imgBase sector first d with
  | zero => exact fun w hw => .inl hw
  | succ n ih =>
    rw [chunks, List.forall_mem_cons] at hfits
    obtain ⟨hfits, hrest⟩ := hfits
    have hnext := @Tracks.next sector base sectors first (chunkHeader ram imgBase).chunkSize htracks hbase hsectors
    rw [writeLoop]
    dsimp only
    split
    · rename_i htype
      obtain ⟨hsize, hplace⟩ := htracks.raw hsectors htype hfits
      have hchunk (data : Nat) : ∀ w ∈ (writeRawChunk ram (fault n) data sector
          (u32 ((chunkHeader ram imgBase).chunkSize * fileBlockSize) / 512) d).2.log,
          w ∈ d.log ∨ ∀ s ∈ w.cells, base ≤ s ∧ s < base + sectors := by
        intro w hw
        rw [writeRawChunk_log, List.mem_append, List.mem_singleton, hsize] at hw
        rcases hw with hw | rfl
        · exact .inl hw
        · refine .inr fun s hs => ?_
          rw [Extent.mem_cells, Extent.stop] at hs
          dsimp only at hs hplace
          omega
      split
      · exact hchunk _
      · intro w hw
        rcases ih hnext hrest w hw with hw | hw
        · exact hchunk _ w hw
        · exact .inr hw
    · exact ih hnext hrest

/-- Nothing in front of a chunk is written from there on. -/
theorem writeLoop_before (htracks : Tracks base sectors sector first)
    (hfits : ∀ c ∈ chunks ram n imgBase first, c.RawFits sectors) (hs : s < base + first * 8) :
    (writeLoop ram fileBlockSize fault n imgBase sector d).2.disk s o = d.disk s o := by
  induction n generalizing imgBase sector first d with
  | zero => rfl
  | succ n ih =>
    rw [chunks, List.forall_mem_cons] at hfits
    obtain ⟨hfits, hrest⟩ := hfits
    have hnext := @Tracks.next sector base sectors first (chunkHeader ram imgBase).chunkSize htracks hbase hsectors
    rw [writeLoop]
    dsimp only
    split
    · rename_i htype
      obtain ⟨hsize, hplace⟩ := htracks.raw hsectors htype hfits
      dsimp only at hsize hplace
      rw [hsize] at hnext ⊢
      have hout : s < sector ∨ sector + (chunkHeader ram imgBase).chunkSize * 8 ≤ s := by omega
      split
      · exact writeRawChunk_outside hout
      · rw [ih hnext hrest (by omega), writeRawChunk_outside hout]
    · exact ih hnext hrest (by omega)

/-- **After success every raw chunk is on the disk.** -/
theorem writeLoop_raw (htracks : Tracks base sectors sector first)
    (hfits : ∀ c ∈ chunks ram n imgBase first, c.RawFits sectors)
    (hdone : (writeLoop ram fileBlockSize fault n imgBase sector d).1 = 0)
    (hc : c ∈ chunks ram n imgBase first) (htype : c.type = chunkRaw) :
    c.On ram base (writeLoop ram fileBlockSize fault n imgBase sector d).2.disk := by
  induction n generalizing imgBase sector first d with
  | zero => exact absurd hc List.not_mem_nil
  | succ n ih =>
    rw [chunks] at hc hfits
    rw [List.forall_mem_cons] at hfits
    obtain ⟨hfits, hrest⟩ := hfits
    have hnext := @Tracks.next sector base sectors first (chunkHeader ram imgBase).chunkSize htracks hbase hsectors
    rw [writeLoop] at hdone ⊢
    dsimp only at hdone ⊢
    rcases List.mem_cons.mp hc with rfl | hc
    · obtain ⟨hsize, hplace⟩ := htracks.raw hsectors htype hfits
      dsimp only at hsize hplace htype
      rw [if_pos htype] at hdone ⊢
      rw [hsize] at hdone hnext ⊢
      split at hdone
      · rename_i hfailed
        exact absurd hdone hfailed
      · rename_i hwritten
        rw [if_neg hwritten]
        intro j hj
        dsimp only at hj ⊢
        have hfill : ¬ (chunkHeader ram imgBase).type = chunkFill := by
          rw [htype]
          decide
        -- the chunks behind it leave it alone
        rw [writeLoop_before hbase hsectors hnext hrest (by omega),
          writeRawChunk_ok (not_not.mp hwritten), BlockDev.write_inside _ (by omega) (by omega), Chunk.byte,
          if_neg hfill]
        congr 1
        dsimp only
        omega
    · split at hdone
      · rename_i hraw
        rw [if_pos hraw]
        split at hdone
        · rename_i hfailed
          exact absurd hdone hfailed
        · rename_i hwritten
          rw [if_neg hwritten]
          exact ih hnext hrest hdone hc
      · rename_i hskip
        rw [if_neg hskip]
        exact ih hnext hrest hdone hc

/-- **A chunk to fill is passed over.** -/
theorem writeLoop_fill (htracks : Tracks base sectors sector first)
    (hfits : ∀ c ∈ chunks ram n imgBase first, c.RawFits sectors)
    (hc : c ∈ chunks ram n imgBase first) (htype : c.type = chunkFill)
    (hlo : base + c.first * 8 ≤ s) (hhi : s < base + (c.first + c.blocks) * 8) :
    (writeLoop ram fileBlockSize fault n imgBase sector d).2.disk s o = d.disk s o := by
  induction n generalizing imgBase sector first d with
  | zero => exact absurd hc List.not_mem_nil
  | succ n ih =>
    rw [chunks] at hc hfits
    rw [List.forall_mem_cons] at hfits
    obtain ⟨hfits, hrest⟩ := hfits
    have hnext := @Tracks.next sector base sectors first (chunkHeader ram imgBase).chunkSize htracks hbase hsectors
    rw [writeLoop]
    dsimp only
    rcases List.mem_cons.mp hc with rfl | hc
    · dsimp only at htype hhi
      rw [if_neg (by rw [htype]; decide)]
      exact writeLoop_before hbase hsectors hnext hrest hhi
    · have hbehind := first_le_of_mem hc
      split
      · rename_i hraw
        obtain ⟨hsize, hplace⟩ := htracks.raw hsectors hraw hfits
        dsimp only at hsize hplace
        rw [hsize] at hnext ⊢
        have hout : s < sector ∨ sector + (chunkHeader ram imgBase).chunkSize * 8 ≤ s := by omega
        split
        · exact writeRawChunk_outside hout
        · rw [ih hnext hrest hc, writeRawChunk_outside hout]
      · exact ih hnext hrest hc

end Fits

end Loop

-- ============================================================================
-- Images
-- ============================================================================

section Image

variable {ram : Mem UInt8} {imgBase : Nat} {ptn : Ptentry}

theorem Ptentry.sectors_lt (ptn : Ptentry) : ptn.sectors < 8388608 := by
  have h := ptn.length_lt
  rw [Ptentry.sectors]
  omega

theorem Ptentry.stop_lt (ptn : Ptentry) : ptn.sectorBase + ptn.sectors < 4294967296 := by
  have h := ptn.start_lt
  have hsectors := ptn.sectors_lt
  rw [Ptentry.sectorBase]
  omega

/-- An image that is accepted has blocks of 4096 bytes. -/
theorem blockSize_of_check {h : FileHeader} {partiSize : Nat} (hcheck : checkCompressExt4 h partiSize = some 0) :
    h.blockSize = fileBlockSize := by
  by_contra hne
  simp [checkCompressExt4, hne] at hcheck

theorem tracks_zero (base sectors : Nat) : Tracks base sectors base 0 := fun _ => rfl

/-- The write of an accepted image. -/
theorem writeCompressedExt4_eq (hcheck : checkCompressExt4 (fileHeader ram imgBase) ptn.length = some 0)
    (fault : Nat → Option (Mem UInt8)) (d : BlockDev) :
    writeCompressedExt4 ram imgBase ptn.sectorBase fault d =
      writeLoop ram fileBlockSize fault (fileHeader ram imgBase).totalChunks
        (u32 (imgBase + fileHeaderSize)) ptn.sectorBase d := by
  rw [writeCompressedExt4, blockSize_of_check hcheck]

theorem exists_byte_ne (v : UInt8) : ∃ v', v' ≠ v := by
  by_cases h : v = 0
  · exact ⟨1, by rw [h]; decide⟩
  · exact ⟨0, fun h' => h h'.symm⟩

/-- A sector of a chunk that is on the disk, whatever was there before, was written. -/
theorem written_of_decodes {c : Chunk} {j : Nat} (h : ∀ disk, Decodes ram imgBase ptn (fun _ => none) disk)
    (hcheck : checkCompressExt4 (fileHeader ram imgBase) ptn.length = some 0)
    (hc : c ∈ imageChunks ram imgBase) (htype : c.type = chunkRaw ∨ c.type = chunkFill)
    (hj : j < c.blocks * 4096) :
    ∃ disk : Nat → Mem UInt8,
      (writeCompressedExt4 ram imgBase ptn.sectorBase (fun _ => none) ⟨disk, []⟩).2.disk
          (ptn.sectorBase + (c.first * 4096 + j) / 512) (j % 512) ≠
        disk (ptn.sectorBase + (c.first * 4096 + j) / 512) (j % 512) ∧
      ∃ w ∈ (writeCompressedExt4 ram imgBase ptn.sectorBase (fun _ => none) ⟨disk, []⟩).2.log,
        ptn.sectorBase + (c.first * 4096 + j) / 512 ∈ w.cells := by
  obtain ⟨v, hv⟩ := exists_byte_ne (c.byte ram j)
  have hon := (h fun _ _ => v).decoded (by rw [writeCompressedExt4_eq hcheck, writeLoop_none]) c hc htype j hj
  have hne : (writeCompressedExt4 ram imgBase ptn.sectorBase (fun _ => none) ⟨fun _ _ => v, []⟩).2.disk
      (ptn.sectorBase + (c.first * 4096 + j) / 512) (j % 512) ≠ v := by
    rw [hon]
    exact hv.symm
  refine ⟨fun _ _ => v, hne, ?_⟩
  by_contra hnone
  push Not at hnone
  obtain ⟨new, hlog, hkeep⟩ := @writeLoop_log ram (fun _ => none) (fileHeader ram imgBase).totalChunks
    (u32 (imgBase + fileHeaderSize)) ptn.sectorBase ⟨fun _ _ => v, []⟩ fileBlockSize
  rw [writeCompressedExt4_eq hcheck] at hne hnone
  rw [hlog, List.nil_append] at hnone
  exact hne (hkeep _ _ hnone)

/-- **Sparse images.** For an image that `check_compress_ext4` accepts, every attempt to
    write it stays inside the partition, and every one that succeeds leaves it decoded
    there, exactly if all raw chunks fit and there is nothing to fill. -/
theorem decodes_iff (hcheck : checkCompressExt4 (fileHeader ram imgBase) ptn.length = some 0) :
    (∀ fault disk, Decodes ram imgBase ptn fault disk) ↔
      ∀ c ∈ imageChunks ram imgBase, c.RawFits ptn.sectors ∧ c.NoFill := by
  have htracks := tracks_zero ptn.sectorBase ptn.sectors
  constructor
  · intro h
    have hfits : ∀ c ∈ imageChunks ram imgBase, c.RawFits ptn.sectors := by
      intro c hc htype
      refine or_iff_not_imp_left.mpr fun hblocks => ?_
      -- its last sector is written, hence inside
      obtain ⟨disk, -, w, hw, hcell⟩ := written_of_decodes (j := c.blocks * 4096 - 1) (h _) hcheck hc
        (.inl htype) (by omega)
      have hinside := (h _ disk).inside w hw _ hcell
      omega
    intro c hc
    refine ⟨hfits c hc, fun htype => ?_⟩
    by_contra hblocks
    obtain ⟨disk, hne, -⟩ := written_of_decodes (j := 0) (h _) hcheck hc (.inr htype) (by omega)
    rw [writeCompressedExt4_eq hcheck] at hne
    exact hne (writeLoop_fill ptn.stop_lt ptn.sectors_lt htracks hfits hc htype (by omega) (by omega))
  · intro h fault disk
    have hfits := fun c hc => (h c hc).1
    exact
      { inside := by
          rw [writeCompressedExt4_eq hcheck]
          intro w hw
          rcases writeLoop_inside ptn.stop_lt ptn.sectors_lt htracks hfits w hw with hold | hin
          · exact absurd hold List.not_mem_nil
          · exact hin
        decoded := by
          rw [writeCompressedExt4_eq hcheck]
          intro hdone c hc htype
          rcases htype with hraw | hfill
          · exact writeLoop_raw ptn.stop_lt ptn.sectors_lt htracks hfits hdone hc hraw
          · intro j hj
            rw [(h c hc).2 hfill] at hj
            omega }

/-- An image of one chunk of one block, with sevens behind the headers. -/
def oneChunk (type totalSize : Nat) : Mem UInt8 := fun x =>
  (le32 0xED26FF3A ++ le16 1 ++ le16 0 ++ le16 28 ++ le16 12 ++ le32 4096 ++ le32 1 ++ le32 1 ++ le32 0 ++
    le16 type ++ le16 0 ++ le32 1 ++ le32 totalSize).getD x 7

def fourBlocks : Ptentry where
  start := 0x20000
  length := 0x4000
  start_lt := by decide
  length_lt := by decide

theorem decodes_raw : Decodes (oneChunk chunkRaw 4108) 0 fourBlocks (fun _ => none) fun _ _ => 0 :=
  (decodes_iff (by decide)).mpr (by decide) _ _

/-- A block of sevens that is to be filled, on a disk of zeros. -/
theorem not_decodes_fill :
    checkCompressExt4 (fileHeader (oneChunk chunkFill 16) 0) fourBlocks.length = some 0 ∧
      ¬ Decodes (oneChunk chunkFill 16) 0 fourBlocks (fun _ => none) fun _ _ => 0 := by
  refine ⟨by decide, fun h => ?_⟩
  have hchunks : imageChunks (oneChunk chunkFill 16) 0 = [⟨chunkFill, 40, 0, 1⟩] := by rfl
  have hon := h.decoded (by decide) ⟨chunkFill, 40, 0, 1⟩ (by simp [hchunks]) (.inr rfl) 0 (by decide)
  exact absurd hon (by decide)

end Image

end Uboot.Common.DecompressExt4
