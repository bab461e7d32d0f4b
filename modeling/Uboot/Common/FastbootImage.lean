/-
  Uboot.Common.FastbootImage

  What the `boot` and `flash:boot` commands of common/cmd_fastboot.c take from a downloaded boot
  image: the bytes they read, and the two parts they copy or hand to `write_to_ptn_sdmmc`.

  The partitions are those of `set_partition_table_sdmmc`; kernel and ramdisk go to the raw area
  through `movi`.  What `bootm` does with the copies is its own.
-/

import Uboot.Common.CmdMovi
import Uboot.Common.Fastboot
import Uboot.Common.FastbootSdmmc

namespace Uboot.Common.FastbootImage

open Uboot.Lib Uboot.LibGeneric Uboot.Common.Fastboot
open Uboot.Common.CmdMovi (RawArea moviBlksize sizeBlkcnt findImage)

-- ============================================================================
-- What the commands take
-- ============================================================================

/-- The bytes of memory a command reads of the image, and the parts of it that it copies or
    flashes, in order. -/
structure Taken where
  reads : Set Nat
  parts : List Extent

/-- The cells of some ranges. -/
def cover (es : List Extent) : Set Nat := {x | ∃ e ∈ es, x ∈ e.cells}

/-- The bytes `strlen` looks at. -/
def strlenReads (m : Mem UInt8) (a : Nat) : Set Nat := {x | a ≤ x ∧ ∀ y, a ≤ y → y < x → m y ≠ 0}

/-- `fb_hdr->kernel_size` and `fb_hdr->ramdisk_size` -/
def sizeFields : List Extent := [⟨transferBuffer + 8, 4⟩, ⟨transferBuffer + 16, 4⟩]

/-- `hdr->ih_magic` -/
def magicField : Extent := ⟨transferBuffer + pageSize, 4⟩

/-- `fb_hdr->cmdline` -/
def cmdline : Nat := transferBuffer + 64

/-- The sources of the copies of `boot`. -/
def bootParts (s : Globals) : List Extent :=
  [⟨transferBuffer + pageSize, kernelSize s.ram.cells⟩,
    ⟨ramdiskAddr (kernelSize s.ram.cells), ramdiskSize (copyKernel s.ram).cells⟩]

/-- `boot`.  After the copies the magic of the kernel is looked at, and the command line if it has
    one. -/
def bootTaken (s : Globals) : Taken :=
  if s.downloadBytes ≠ 0 ∧ pageSize < s.downloadBytes then
    let m := (copyRamdisk (copyKernel s.ram) (kernelSize s.ram.cells)).cells
    { reads := cover (sizeFields ++ bootParts s ++ [magicField]) ∪
        if hasImageMagic m then strlenReads m cmdline else ∅
      parts := bootParts s }
  else ⟨∅, []⟩

/-- The flash writes of `flash:boot`. -/
def flashCalls (b : Board) (s : Globals) : List Call := (flashBoot b s).calls.drop s.calls.length

/-- The part of the image a flash write is for. -/
def callPart : Call → Option Extent
  | .writeToPtn _ addr size => some ⟨addr, size⟩
  | _ => none

/-- The buffer of the `mmc write` that `do_movi` makes of a flash write, with the numbers its
    arguments spell out.  The ramdisk is rounded up to blocks, and of the kernel all blocks of its
    area are written, whatever its size. -/
def moviReads (t : RawArea) : Call → Option Extent
  | .writeToPtn ptn addr size =>
    if ptn.name = ascii "ramdisk" then
      let length := u32 (size + (FastbootSdmmc.sdmmcBlocksize - 1)) / FastbootSdmmc.sdmmcBlocksize *
        FastbootSdmmc.sdmmcBlocksize
      some ⟨addr, sizeBlkcnt length * moviBlksize⟩
    else some ⟨addr, (t.entry (findImage t 0x4)).usedBlk * moviBlksize⟩
  | _ => none

/-- `flash:boot` -/
def flashTaken (b : Board) (t : RawArea) (s : Globals) : Taken :=
  let parts := (flashCalls b s).filterMap callPart
  { reads := cover (sizeFields ++ parts ++ (flashCalls b s).filterMap (moviReads t))
    parts }

/-- A `boot` or a `flash:boot` command. -/
def taken (b : Board) (t : RawArea) (s : Globals) (p : Packet) : Taken :=
  if p.startsWith "boot" then bootTaken s
  else if s.downloadBytes = 0 then ⟨∅, []⟩ else flashTaken b t s

/-- The copies of `boot` are copies of its parts. -/
theorem copies_bootParts (s : Globals) :
    copyRamdisk (copyKernel s.ram) (kernelSize s.ram.cells) =
      ([addrKernel, addrRamdisk].zip (bootParts s)).foldl
        (fun r c => r.store c.1 (r.cells.read c.2.start c.2.len)) s.ram := rfl

-- ============================================================================
-- What they ought to take
-- ============================================================================

/-- The pages of `n` bytes. -/
def pages (n : Nat) : Nat := (n + (pageSize - 1)) / pageSize

/-- Where the ramdisk begins in the image: behind the header and the kernel, each in whole pages. -/
def ramdiskOff (kernel : Nat) : Nat := (1 + pages kernel) * pageSize

/-- The parts the header describes. -/
def imageParts (m : Mem UInt8) : List Extent :=
  [⟨transferBuffer + pageSize, kernelSize m⟩,
    ⟨transferBuffer + ramdiskOff (kernelSize m), ramdiskSize m⟩]

/-- Only bytes of the image are read, and the parts are those of the header and do not meet. -/
structure TakesImage (s : Globals) (t : Taken) : Prop where
  reads : t.reads ⊆ (Extent.mk transferBuffer s.downloadBytes).cells
  parts : t.parts = imageParts s.ram.cells
  apart : t.parts.Pairwise fun e e' => Disjoint e.cells e'.cells

/-- `FAIL` is the answer, and nothing has been copied or flashed. -/
structure Refuses (s s' : Globals) (t : Taken) : Prop where
  none : t.parts = []
  calls : s'.calls = s.calls
  answer : ∃ text, s'.sent = s.sent ++ ["FAIL" ++ text]

/-- A command takes the image or refuses it. -/
def Proper (b : Board) (t : RawArea) (s : Globals) (p : Packet) : Prop :=
  TakesImage s (taken b t s p) ∨ Refuses s (rxHandler b s p) (taken b t s p)

/-- The kernel lies inside the image, and so does a ramdisk of `len` bytes. -/
def PartsInside (s : Globals) (len : Nat) : Prop :=
  pageSize + kernelSize s.ram.cells ≤ s.downloadBytes ∧
    (len = 0 ∨ ramdiskOff (kernelSize s.ram.cells) + len ≤ s.downloadBytes)

/-- Memory after the kernel has been copied to its address. -/
def withKernel (m : Mem UInt8) : Mem UInt8 := m.copy addrKernel (transferBuffer + pageSize) (kernelSize m)

/-- Memory after both parts have been copied. -/
def withParts (m : Mem UInt8) : Mem UInt8 :=
  (withKernel m).copy addrRamdisk (transferBuffer + ramdiskOff (kernelSize m)) (ramdiskSize m)

/-- `boot`: the parts and the magic behind the header are inside the image.  The kernel is not copied
    over the size of the ramdisk, or without changing it, and where the command line is looked at, it
    ends inside the image. -/
structure BootImageFits (s : Globals) : Prop where
  magic : pageSize + 4 ≤ s.downloadBytes
  parts : PartsInside s (ramdiskSize s.ram.cells)
  size : ramdiskSize (withKernel s.ram.cells) = ramdiskSize s.ram.cells
  cmdline : hasImageMagic (withParts s.ram.cells) →
    ∃ n, 64 + n < s.downloadBytes ∧ withParts s.ram.cells (transferBuffer + 64 + n) = 0

/-- `flash:boot` on a card: the ramdisk is no larger than its partition, and the image holds its
    parts, the ramdisk up to a whole block, and as many bytes behind the header as the kernel's area. -/
structure FlashImageFits (s : Globals) : Prop where
  ramdisk : ramdiskSize s.ram.cells ≤ 0x300000
  area : pageSize + CmdMovi.partSizeKernel ≤ s.downloadBytes
  parts : PartsInside s ((ramdiskSize s.ram.cells + 511) / 512 * 512)

/-- The condition on a command. -/
def Fits (b : Board) (s : Globals) (p : Packet) : Prop :=
  if p.startsWith "boot" then pageSize < s.downloadBytes → BootImageFits s
  else s.downloadBytes ≠ 0 → b.omPin = .mmcsd ∨ b.omPin = .emmc → FlashImageFits s

-- ============================================================================
-- Ranges
-- ============================================================================

section Ranges

variable {es es' : List Extent} {e : Extent} {S : Set Nat} {m : Mem UInt8} {off len size : Nat}

theorem cover_subset_iff : cover es ⊆ S ↔ ∀ e ∈ es, e.cells ⊆ S :=
  ⟨fun h e he _ hx => h ⟨e, he, hx⟩, fun h _ ⟨e, he, hx⟩ => h e he hx⟩

/-- A range of the image, by its offset. -/
theorem part_inside_iff : (Extent.mk (transferBuffer + off) len).cells ⊆ (Extent.mk transferBuffer size).cells ↔
    len = 0 ∨ off + len ≤ size := by
  rw [Extent.cells_subset_iff]
  omega

/-- A string is looked at inside the image just when it ends there. -/
theorem strlenReads_inside_iff (hoff : off ≤ size) :
    strlenReads m (transferBuffer + off) ⊆ (Extent.mk transferBuffer size).cells ↔
      ∃ n, off + n < size ∧ m (transferBuffer + off + n) = 0 := by
  constructor
  · intro h
    by_contra hnone
    have hend : transferBuffer + size ∈ strlenReads m (transferBuffer + off) := by
      refine ⟨by omega, fun y hy hlt hzero => hnone ⟨y - (transferBuffer + off), by omega, ?_⟩⟩
      rwa [Nat.add_sub_cancel' hy]
    exact absurd (h hend).2 (Nat.lt_irrefl _)
  · rintro ⟨n, hn, hzero⟩ x ⟨hx, hfree⟩
    simp only [Extent.mem_cells, Extent.stop]
    refine ⟨by omega, ?_⟩
    by_contra hbeyond
    exact hfree (transferBuffer + off + n) (by omega) (by omega) hzero

theorem ramdiskAddr_eq {kernel : Nat} (h : kernel ≤ transferBufferSize) :
    ramdiskAddr kernel = transferBuffer + ramdiskOff kernel := by
  simp only [ramdiskAddr, ramdiskOff, pages, transferBufferSize, transferBuffer, pageSize, u32] at *
  omega

/-- The parts of a header stand one behind the other. -/
theorem imageParts_apart (m : Mem UInt8) :
    (imageParts m).Pairwise fun e e' => Disjoint e.cells e'.cells := by
  have hbefore : Extent.Before ⟨transferBuffer + pageSize, kernelSize m⟩
      ⟨transferBuffer + ramdiskOff (kernelSize m), ramdiskSize m⟩ := by
    simp only [Extent.Before, Extent.stop, ramdiskOff, pages, pageSize]
    omega
  rw [imageParts, List.pairwise_pair]
  exact hbefore.disjoint

end Ranges

-- ============================================================================
-- The boot command
-- ============================================================================

section Boot

variable {s : Globals}

theorem copyKernel_cells (r : Ram) : (copyKernel r).cells = withKernel r.cells :=
  (Mem.copy_eq_write r.cells _).symm

/-- What stands in memory when the magic is looked at. -/
theorem copies_cells (hkernel : kernelSize s.ram.cells ≤ transferBufferSize)
    (hsize : ramdiskSize (withKernel s.ram.cells) = ramdiskSize s.ram.cells) :
    (copyRamdisk (copyKernel s.ram) (kernelSize s.ram.cells)).cells = withParts s.ram.cells := by
  rw [copyRamdisk, Ram.store_cells, copyKernel_cells, hsize, ramdiskAddr_eq hkernel, ← Mem.copy_eq_write]
  rfl

theorem bootParts_eq_iff (hkernel : kernelSize s.ram.cells ≤ transferBufferSize) :
    bootParts s = imageParts s.ram.cells ↔
      ramdiskSize (withKernel s.ram.cells) = ramdiskSize s.ram.cells := by
  simp [bootParts, imageParts, copyKernel_cells, ramdiskAddr_eq hkernel]

theorem bootTaken_takes_iff (hb : pageSize < s.downloadBytes) (hlen : s.downloadBytes ≤ transferBufferSize) :
    TakesImage s (bootTaken s) ↔ BootImageFits s := by
  have hpos : s.downloadBytes ≠ 0 := by omega
  have hpage : (64 : Nat) ≤ pageSize := by decide
  rw [bootTaken, if_pos ⟨hpos, hb⟩]
  constructor
  · rintro ⟨hreads, hparts, -⟩
    obtain ⟨hcover, hline⟩ := Set.union_subset_iff.1 hreads
    rw [cover_subset_iff] at hcover
    have hk := part_inside_iff.1 (hcover ⟨transferBuffer + pageSize, kernelSize s.ram.cells⟩ (by simp [bootParts]))
    have hkernel : pageSize + kernelSize s.ram.cells ≤ s.downloadBytes := by omega
    have hle : kernelSize s.ram.cells ≤ transferBufferSize := by omega
    have hsize := (bootParts_eq_iff hle).1 hparts
    have hramdisk := part_inside_iff.1 (hcover ⟨transferBuffer + ramdiskOff (kernelSize s.ram.cells),
      ramdiskSize s.ram.cells⟩ (by dsimp only at hparts; simp [hparts, imageParts]))
    have hmagic := part_inside_iff.1 (hcover magicField (by simp))
    refine ⟨by omega, ⟨hkernel, hramdisk⟩, hsize, fun himage => ?_⟩
    rw [← copies_cells hle hsize] at himage ⊢
    rw [if_pos himage] at hline
    exact (strlenReads_inside_iff (by omega)).1 hline
  · rintro ⟨hmagic, ⟨hkernel, hramdisk⟩, hsize, hline⟩
    have hle : kernelSize s.ram.cells ≤ transferBufferSize := by omega
    have hparts := (bootParts_eq_iff hle).2 hsize
    refine ⟨Set.union_subset ?_ ?_, hparts, ?_⟩
    · rw [cover_subset_iff]
      simp only [hparts, sizeFields, imageParts, magicField, List.cons_append, List.nil_append, List.forall_mem_cons,
        List.not_mem_nil, false_implies, implies_true, and_true, part_inside_iff]
      omega
    · rw [copies_cells hle hsize]
      split
      · rename_i himage
        exact (strlenReads_inside_iff (by omega)).2 (hline himage)
      · exact Set.empty_subset _
    · rw [hparts]
      exact imageParts_apart _

/-- `boot` takes an image that fits, and refuses one that is no longer than its header. -/
theorem boot_proper_iff {b : Board} {t : RawArea} {p : Packet} (hd : s.downloadSize = 0)
    (hlen : s.downloadBytes ≤ transferBufferSize) (hp : p.startsWith "boot") :
    Proper b t s p ↔ (pageSize < s.downloadBytes → BootImageFits s) := by
  rw [Proper, taken, if_pos hp, rxHandler_boot hd hp]
  by_cases hb : pageSize < s.downloadBytes
  · have hpos : s.downloadBytes ≠ 0 := by omega
    have hparts : (bootTaken s).parts ≠ [] := by
      rw [bootTaken, if_pos ⟨hpos, hb⟩]
      exact List.cons_ne_nil _ _
    rw [← bootTaken_takes_iff hb hlen]
    exact ⟨fun h _ => h.resolve_right fun href => hparts href.none, fun h => .inl (h hb)⟩
  · refine iff_of_true (.inr ?_) fun h => absurd h hb
    rw [boot_short hb, bootTaken, if_neg fun h => hb h.2]
    exact ⟨rfl, rfl, "invalid boot image", rfl⟩

end Boot

-- ============================================================================
-- The flash command
-- ============================================================================

section Flash

variable {b : Board} {t : RawArea} {s : Globals} {p : Packet}

/-- An entry of the partition table, for `rx_handler`. -/
def ptEntry (p : FastbootPtable.Ptentry) : PtEntry := ⟨p.name, p.start, p.length, p.flags &&& 0x400 ≠ 0⟩

/-- The board as `fastboot_init` leaves it: the partitions of `set_partition_table_sdmmc`, the table of
    the raw area, and flash writes that leave the transfer buffer as it is. -/
structure Installed (b : Board) (t : RawArea) : Prop where
  ptable : ∃ build partInfo v mbr,
    b.ptable = (FastbootSdmmc.setPartitionTableSdmmc build partInfo v mbr).1.map ptEntry
  rawArea : ∃ host rest, CmdMovi.Layout host rest t
  buffer : ∀ ptn addr size m x, transferBuffer ≤ x → x < bufferEnd → b.after (.writeToPtn ptn addr size) m x = m x

/-- The look-ups add entries. -/
theorem addMbrParts_append (partInfo : MmcFdisk.PartitionInfo) (mbr : Option (Mem UInt8))
    (parts : List (String × Nat × Nat)) (v : FastbootSdmmc.PartInfo) (ptable : List FastbootPtable.Ptentry) :
    ∃ more, (FastbootSdmmc.addMbrParts partInfo mbr parts v ptable).1 = ptable ++ more := by
  induction parts generalizing v ptable with
  | nil => exact ⟨[], (List.append_nil _).symm⟩
  | cons part parts ih =>
    rw [FastbootSdmmc.addMbrParts]
    split
    · exact ⟨[], (List.append_nil _).symm⟩
    · obtain ⟨more, hmore⟩ := ih (FastbootSdmmc.getMmcPartInfo partInfo mbr part.2.1 v)
        (ptable ++ [FastbootSdmmc.mmcEntry part.1 (FastbootSdmmc.getMmcPartInfo partInfo mbr part.2.1 v)])
      exact ⟨_ :: more, by rw [hmore, List.append_assoc]; rfl⟩

def kernelPtn : PtEntry := ⟨ascii "kernel", 0, 0, false⟩

def ramdiskPtn : PtEntry := ⟨ascii "ramdisk", 0, 0x300000, false⟩

theorem Installed.findPtn (h : Installed b t) :
    Fastboot.findPtn b (ascii "kernel") = some kernelPtn ∧ Fastboot.findPtn b (ascii "ramdisk") = some ramdiskPtn := by
  obtain ⟨build, partInfo, v, mbr, hptable⟩ := h.ptable
  obtain ⟨more, hmore⟩ := addMbrParts_append partInfo mbr FastbootSdmmc.mbrParts v (FastbootSdmmc.moviEntries build)
  rw [Fastboot.findPtn, Fastboot.findPtn, hptable, FastbootSdmmc.setPartitionTableSdmmc, hmore]
  obtain ⟨fused, recovery⟩ := build
  cases fused <;> cases recovery <;> exact ⟨rfl, rfl⟩

theorem writePtn_card (hcard : b.omPin = .mmcsd ∨ b.omPin = .emmc) (ptn : PtEntry) (addr size ret : Nat) :
    writePtn b s ptn addr size ret =
      (s.call b (.writeToPtn ptn addr size), b.result (.writeToPtn ptn addr size) s.ram.cells) := by
  rcases hcard with h | h <;> rw [writePtn, h]

theorem writePtn_other (hcard : ¬(b.omPin = .mmcsd ∨ b.omPin = .emmc)) (ptn : PtEntry) (addr size ret : Nat) :
    writePtn b s ptn addr size ret = (s, ret) := by
  rw [writePtn]
  split
  · exact absurd (.inl ‹_›) hcard
  · exact absurd (.inr ‹_›) hcard
  · rfl
  · rfl

/-- The size of the ramdisk is read again after the kernel has been written. -/
theorem Installed.ramdiskSize_after (h : Installed b t) (ptn : PtEntry) (addr size : Nat) (m : Mem UInt8) :
    ramdiskSize (b.after (.writeToPtn ptn addr size) m) = ramdiskSize m := by
  have hend : transferBuffer + 20 ≤ bufferEnd := by decide
  exact rd32_congr fun x hx hlt => h.buffer ptn addr size m x (by omega) (by omega)

/-- What `flash:boot` comes to on this board. -/
theorem flashBoot_card (h : Installed b t) (hcard : b.omPin = .mmcsd ∨ b.omPin = .emmc) :
    ∃ text, (flashBoot b s).sent = s.sent ++ [text] ∧ (flashBoot b s).calls = s.calls ++
      .writeToPtn kernelPtn (transferBuffer + pageSize) (kernelSize s.ram.cells) ::
        if ramdiskSize s.ram.cells > 0x300000 then []
        else [.writeToPtn ramdiskPtn (ramdiskAddr (kernelSize s.ram.cells)) (ramdiskSize s.ram.cells)] := by
  obtain ⟨hkernel, hramdisk⟩ := h.findPtn
  have hfirst : ¬(kernelPtn.length ≠ 0 ∧ kernelSize s.ram.cells > kernelPtn.length) := fun hc => hc.1 rfl
  have hlength : ramdiskPtn.length ≠ 0 := by decide
  rw [flashBoot, hkernel, hramdisk]
  simp only [Option.getD_some, if_neg hfirst, writePtn_card hcard, Globals.call, h.ramdiskSize_after]
  by_cases hlarge : ramdiskSize s.ram.cells > 0x300000
  · rw [if_pos ⟨hlength, hlarge⟩, if_pos hlarge]
    exact ⟨_, rfl, rfl⟩
  · rw [if_neg fun hc => hlarge hc.2, if_neg hlarge]
    exact ⟨_, rfl, List.append_assoc _ _ _⟩

/-- Without a card nothing is written. -/
theorem flashBoot_other (h : Installed b t) (hcard : ¬(b.omPin = .mmcsd ∨ b.omPin = .emmc)) :
    (∃ text, (flashBoot b s).sent = s.sent ++ ["FAIL" ++ text]) ∧ (flashBoot b s).calls = s.calls := by
  obtain ⟨hkernel, hramdisk⟩ := h.findPtn
  have hfirst : ¬(kernelPtn.length ≠ 0 ∧ kernelSize s.ram.cells > kernelPtn.length) := fun hc => hc.1 rfl
  rw [flashBoot, hkernel, hramdisk]
  simp only [Option.getD_some, if_neg hfirst, writePtn_other hcard]
  split
  · exact ⟨⟨"image too large for partition", rfl⟩, rfl⟩
  · exact ⟨⟨"failed to flash partition", rfl⟩, rfl⟩

theorem flashCalls_card (h : Installed b t) (hcard : b.omPin = .mmcsd ∨ b.omPin = .emmc) :
    flashCalls b s = .writeToPtn kernelPtn (transferBuffer + pageSize) (kernelSize s.ram.cells) ::
      if ramdiskSize s.ram.cells > 0x300000 then []
      else [.writeToPtn ramdiskPtn (ramdiskAddr (kernelSize s.ram.cells)) (ramdiskSize s.ram.cells)] := by
  obtain ⟨-, -, hcalls⟩ := @flashBoot_card b t s h hcard
  rw [flashCalls, hcalls, List.drop_left]

/-- The blocks that are read for a kernel and for a ramdisk. -/
theorem moviReads_eq (h : Installed b t) (addr size : Nat) :
    moviReads t (.writeToPtn kernelPtn addr size) = some ⟨addr, CmdMovi.partSizeKernel⟩ ∧
      (size ≤ 0x300000 → moviReads t (.writeToPtn ramdiskPtn addr size) = some ⟨addr, (size + 511) / 512 * 512⟩) := by
  obtain ⟨host, rest, u, v, himage⟩ := h.rawArea
  obtain ⟨-, -, hfind, -, -⟩ := CmdMovi.findImage_entries himage
  obtain ⟨-, -, -, hentry, -⟩ := CmdMovi.entry_entries himage
  constructor
  · rw [moviReads, if_neg (by decide), hfind, hentry]
    rfl
  · intro hsize
    rw [moviReads, if_pos (by rfl)]
    have hround : u32 (size + (512 - 1)) = size + 511 := u32_of_lt (by omega)
    simp only [sizeBlkcnt, FastbootSdmmc.sdmmcBlocksize, moviBlksize, hround, Nat.mul_mod_left,
      Nat.mul_div_cancel _ (show 0 < 512 by decide), ne_eq, not_true_eq_false, if_false, Nat.add_zero]

theorem flashTaken_takes_iff (h : Installed b t) (hcard : b.omPin = .mmcsd ∨ b.omPin = .emmc)
    (hlen : s.downloadBytes ≤ transferBufferSize) :
    TakesImage s (flashTaken b t s) ↔ FlashImageFits s := by
  obtain ⟨hkernelReads, -⟩ := moviReads_eq h (transferBuffer + pageSize) (kernelSize s.ram.cells)
  obtain ⟨-, hramdiskReads⟩ := moviReads_eq h (ramdiskAddr (kernelSize s.ram.cells)) (ramdiskSize s.ram.cells)
  by_cases hlarge : ramdiskSize s.ram.cells > 0x300000
  · -- the kernel alone
    refine iff_of_false (fun htakes => ?_) fun hfits => by have := hfits.ramdisk; omega
    have hparts := htakes.parts
    rw [flashTaken, flashCalls_card h hcard, if_pos hlarge] at hparts
    simp [callPart, imageParts] at hparts
  · have hcalls := @flashCalls_card b t s h hcard
    rw [if_neg hlarge] at hcalls
    have htaken : flashTaken b t s = ⟨cover (sizeFields ++
        [⟨transferBuffer + pageSize, kernelSize s.ram.cells⟩,
          ⟨ramdiskAddr (kernelSize s.ram.cells), ramdiskSize s.ram.cells⟩] ++
        [⟨transferBuffer + pageSize, CmdMovi.partSizeKernel⟩,
          ⟨ramdiskAddr (kernelSize s.ram.cells), (ramdiskSize s.ram.cells + 511) / 512 * 512⟩]),
        [⟨transferBuffer + pageSize, kernelSize s.ram.cells⟩,
          ⟨ramdiskAddr (kernelSize s.ram.cells), ramdiskSize s.ram.cells⟩]⟩ := by
      rw [flashTaken, hcalls]
      simp [callPart, hkernelReads, hramdiskReads (Nat.not_lt.1 hlarge)]
    rw [htaken]
    constructor
    · rintro ⟨hreads, hparts, -⟩
      rw [cover_subset_iff] at hreads
      have hk := part_inside_iff.1 (hreads ⟨transferBuffer + pageSize, kernelSize s.ram.cells⟩ (by simp))
      have harea := part_inside_iff.1 (hreads ⟨transferBuffer + pageSize, CmdMovi.partSizeKernel⟩ (by simp))
      have hsize : CmdMovi.partSizeKernel ≠ 0 := by decide
      have hle : kernelSize s.ram.cells ≤ transferBufferSize := by omega
      have hramdisk := hreads
        ⟨ramdiskAddr (kernelSize s.ram.cells), (ramdiskSize s.ram.cells + 511) / 512 * 512⟩ (by simp)
      rw [ramdiskAddr_eq hle, part_inside_iff] at hramdisk
      exact ⟨by omega, by omega, by omega, hramdisk⟩
    · rintro ⟨-, harea, hkernel, hramdisk⟩
      have hle : kernelSize s.ram.cells ≤ transferBufferSize := by omega
      have hparts : [⟨transferBuffer + pageSize, kernelSize s.ram.cells⟩,
          ⟨ramdiskAddr (kernelSize s.ram.cells), ramdiskSize s.ram.cells⟩] = imageParts s.ram.cells := by
        rw [imageParts, ramdiskAddr_eq hle]
      refine ⟨?_, hparts, ?_⟩
      · have hpage : (2048 : Nat) ≤ pageSize := by decide
        rw [cover_subset_iff]
        simp only [sizeFields, List.cons_append, List.nil_append, List.forall_mem_cons, ramdiskAddr_eq hle,
          List.not_mem_nil, false_implies, implies_true, and_true, part_inside_iff]
        omega
      · dsimp only
        rw [hparts]
        exact imageParts_apart _

theorem startsWith_flash_not_boot (hp : p.startsWith "flash:") : p.startsWith "boot" = false :=
  not_startsWith hp (by decide) (by decide)

/-- `flash:boot` takes an image that fits, and does nothing where there is none or no card. -/
theorem flash_proper_iff (h : Installed b t) (hd : s.downloadSize = 0) (hlen : s.downloadBytes ≤ transferBufferSize)
    (hp : p.startsWith "flash:") (harg : p.arg 6 = ascii "boot") :
    Proper b t s p ↔ (s.downloadBytes ≠ 0 → b.omPin = .mmcsd ∨ b.omPin = .emmc → FlashImageFits s) := by
  rw [Proper, taken, if_neg (by rw [startsWith_flash_not_boot hp]; decide), rxHandler_flash hd hp, flash, if_pos harg]
  by_cases hnone : s.downloadBytes = 0
  · rw [if_pos hnone, if_pos hnone]
    exact iff_of_true (.inr ⟨rfl, rfl, "no image downloaded", rfl⟩) fun hne => absurd hnone hne
  rw [if_neg hnone, if_neg hnone]
  by_cases hcard : b.omPin = .mmcsd ∨ b.omPin = .emmc
  · have hparts : (flashTaken b t s).parts ≠ [] := by
      rw [flashTaken, flashCalls_card h hcard]
      exact List.cons_ne_nil _ _
    rw [← flashTaken_takes_iff h hcard hlen]
    exact ⟨fun hor _ _ => hor.resolve_right fun href => hparts href.none, fun hfits => .inl (hfits hnone hcard)⟩
  · obtain ⟨hsent, hcalls⟩ := @flashBoot_other b t s h hcard
    refine iff_of_true (.inr ⟨?_, hcalls, hsent⟩) fun _ hc => absurd hc hcard
    rw [flashTaken, flashCalls, hcalls, List.drop_length]
    rfl

end Flash

-- ============================================================================
-- Runs
-- ============================================================================

/-- What has been downloaded is in the transfer buffer. -/
structure Held (s : Globals) : Prop where
  bytes : s.downloadBytes ≤ transferBufferSize
  size : s.downloadSize ≠ 0 → s.downloadBytes ≤ s.downloadSize ∧ s.downloadSize ≤ transferBufferSize

theorem Held.samePoint {s s' : Globals} (h : Held s) (hs : SamePoint s s') : Held s' := by
  obtain ⟨-, hsize, hbytes⟩ := hs
  exact ⟨by rw [hbytes]; exact h.bytes, by rw [hbytes, hsize]; exact h.size⟩

theorem Held.rxData {s : Globals} {p : Packet} (h : Held s) (hd : s.downloadSize ≠ 0) : Held (rxData s p) := by
  obtain ⟨hle, hsize⟩ := h.size hd
  have hbig : transferBufferSize < 4294967296 := by decide
  have hroom : usub s.downloadSize s.downloadBytes = s.downloadSize - s.downloadBytes := usub_of_le hle (by omega)
  rw [Fastboot.rxData]
  split
  · exact h
  · simp only [hroom]
    generalize hn : (if p.size < s.downloadSize - s.downloadBytes then p.size
      else s.downloadSize - s.downloadBytes) = n
    have hnle : n ≤ s.downloadSize - s.downloadBytes := by
      rw [← hn]
      split <;> omega
    have hcount : u32 (s.downloadBytes + n) ≤ s.downloadSize := by
      rw [u32_of_lt (by omega)]
      omega
    split
    · exact ⟨hcount.trans hsize, fun hne => absurd rfl hne⟩
    · exact ⟨hcount.trans hsize, fun _ => ⟨hcount, hsize⟩⟩

theorem Held.download {s : Globals} {p : Packet} : Held (download s p) := by
  rw [Fastboot.download]
  dsimp only
  split
  · rename_i hzero
    exact ⟨Nat.zero_le _, fun hne => absurd hzero hne⟩
  · split
    · exact ⟨Nat.zero_le _, fun hne => absurd rfl hne⟩
    · rename_i hfit
      exact ⟨Nat.zero_le _, fun _ => ⟨Nat.zero_le _, Nat.le_of_not_lt hfit⟩⟩

/-- **Step lemma.** -/
theorem Held.step {b : Board} {s : Globals} {i : Input} (h : Held s) : Held (step b s i) := by
  cases i with
  | reset =>
    rw [Fastboot.step]
    split
    · exact ⟨Nat.zero_le _, fun hne => absurd rfl hne⟩
    · exact h
  | packet p =>
    rw [Fastboot.step]
    split
    · by_cases hd : s.downloadSize = 0
      · by_cases hr : p.startsWith "reboot"
        · rw [rxHandler_reboot hd hr]
          exact ⟨h.bytes, h.size⟩
        by_cases hl : p.startsWith "download:"
        · rw [rxHandler_download hd hl]
          exact Held.download
        · exact h.samePoint (rxHandler_other hd (by simpa using hr) (by simpa using hl)).1
      · rw [rxHandler, if_pos hd]
        exact h.rxData hd
    · exact h

/-- **Boot images.** After any run, a `boot` or `flash:boot` command reads only the download and takes the
    two parts its header describes, or refuses with nothing copied or flashed, just when the image fits. -/
theorem run_proper_iff {b : Board} {t : RawArea} (h : Installed b t) (cells : Mem UInt8) (is : List Input)
    {p : Packet} (hd : (run (step b) (start cells) is).downloadSize = 0)
    (hp : p.startsWith "boot" ∨ p.startsWith "flash:" ∧ p.arg 6 = ascii "boot") :
    Proper b t (run (step b) (start cells) is) p ↔ Fits b (run (step b) (start cells) is) p := by
  have hheld : Held (run (step b) (start cells) is) :=
    run_invariant_all (fun _ _ h => h.step) ⟨Nat.zero_le _, fun hne => absurd rfl hne⟩ is
  rcases hp with hboot | ⟨hflash, harg⟩
  · rw [boot_proper_iff hd hheld.bytes hboot, Fits, if_pos hboot]
  · rw [flash_proper_iff h hd hheld.bytes hflash harg, Fits, if_neg (by rw [startsWith_flash_not_boot hflash]; decide)]

/-- A board that boots from an SD card without partitions. -/
def sdBoard : Board :=
  { bareBoard with
    ptable := (FastbootSdmmc.setPartitionTableSdmmc ⟨false, true⟩ FastbootSdmmc.unsetInfo FastbootSdmmc.unset none).1.map
      ptEntry }

/-- The raw area of its card. -/
def sdTable : RawArea := CmdMovi.initRawAreaTable CmdMovi.sdCard CmdMovi.emptyTable

theorem installed_sdBoard : Installed sdBoard sdTable where
  ptable := ⟨_, _, _, _, rfl⟩
  rawArea := ⟨_, _, _, _, CmdMovi.layout_init CmdMovi.sdCard (by decide)⟩
  buffer _ _ _ _ _ _ _ := rfl

/-- A download of 2049 bytes. -/
def download2049 (v : UInt8) : List Input := [.packet (commandPacket "download:801"), .packet (dataPacket 2049 v)]

theorem run_proper_zeros :
    Proper sdBoard sdTable (run (step sdBoard) (start fun _ => 0) (download2049 0)) (commandPacket "boot") ↔
      Fits sdBoard (run (step sdBoard) (start fun _ => 0) (download2049 0)) (commandPacket "boot") :=
  run_proper_iff installed_sdBoard (fun _ => 0) (download2049 0) (by decide +kernel) (.inl (by decide))

/-- The header of 2049 bytes `0xff` asks for a kernel of 4 GB, and `boot` copies it. -/
theorem boot_beyond_download : ¬Proper sdBoard sdTable (run (step sdBoard) (start fun _ => 0xff) (download2049 0xff))
    (commandPacket "boot") := by
  have hd : (run (step sdBoard) (start fun _ => 0xff) (download2049 0xff)).downloadSize = 0 := by decide +kernel
  have hbytes : (run (step sdBoard) (start fun _ => 0xff) (download2049 0xff)).downloadBytes = 2049 := by decide +kernel
  have hlen : (run (step sdBoard) (start fun _ => 0xff) (download2049 0xff)).downloadBytes ≤ transferBufferSize := by
    rw [hbytes]
    decide
  have hkernel : kernelSize (run (step sdBoard) (start fun _ => 0xff) (download2049 0xff)).ram.cells = 0xffffffff := by
    decide +kernel
  rw [boot_proper_iff hd hlen (by decide)]
  intro hfits
  obtain ⟨hinside, -⟩ := (hfits (by rw [hbytes]; decide)).parts
  rw [hkernel, hbytes] at hinside
  exact absurd hinside (by decide)

end Uboot.Common.FastbootImage
