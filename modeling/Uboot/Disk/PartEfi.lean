/-
  Uboot.Disk.PartEfi

  The lookup of a partition in a GUID partition table, `get_partition_info_efi` of
  disk/part_efi.c, with the checks of the table in `is_gpt_valid`.

  `ulong` and `size_t` have 32 bits.  What C leaves undefined is a fault: to use bytes of a
  buffer that were not read from the disk, and to store through a null pointer.
-/

import Uboot.Disk.PartDos
import Uboot.LibGeneric.Crc32

namespace Uboot.Disk.PartEfi

open Uboot.Lib Uboot.LibGeneric
open Uboot.Disk.PartDos (PartitionInfo)

-- ============================================================================
-- Blocks
-- ============================================================================

inductive Fault
  | overrun
  | nullStore
  deriving DecidableEq, Repr

/-- A buffer; its first `length` bytes were read from the disk. -/
structure Blocks where
  bytes : Mem UInt8
  length : Nat

/-- Use `n` bytes from `off` on. -/
def Blocks.use (b : Blocks) (off n : Nat) : Except Fault (List UInt8) :=
  if off + n ≤ b.length then .ok (b.bytes.read off n) else .error .overrun

/-- `le64_to_int` -/
def le64ToInt (m : Mem UInt8) (a : Nat) : Nat := rd32 m a + 4294967296 * rd32 m (a + 4)

/-- `block_dev_desc_t`; `blockRead` says how many blocks a read gets. -/
structure BlockDevDesc where
  lba : Nat
  disk : Mem UInt8
  blockRead : Nat → Nat → Nat

/-- The blocks `start`, .. as they are read. -/
def BlockDevDesc.blocks (dev : BlockDevDesc) (start blkcnt : Nat) : Blocks where
  bytes i := dev.disk (512 * start + i)
  length := 512 * blkcnt

/-- `efi_crc32`; the address of a buffer plays no part. -/
def efiCrc32 (buf : List UInt8) : Nat := (crc32At 0 0 buf).toNat

-- ============================================================================
-- The header
-- ============================================================================

def gptHeaderSignature : Nat := 0x5452415020494645

/-- `gpt_header`, by the bytes of its fields. -/
structure GptHeader where
  bytes : Mem UInt8

namespace GptHeader

variable (h : GptHeader)

def signature : Nat := le64ToInt h.bytes 0
def headerSize : Nat := rd32 h.bytes 12
def headerCrc32 : Nat := rd32 h.bytes 16
def myLba : Nat := le64ToInt h.bytes 24
def firstUsableLba : Nat := le64ToInt h.bytes 40
def lastUsableLba : Nat := le64ToInt h.bytes 48
def partitionEntryLba : Nat := le64ToInt h.bytes 72
def numPartitionEntries : Nat := rd32 h.bytes 80
def sizeofPartitionEntry : Nat := rd32 h.bytes 84
def partitionEntryArrayCrc32 : Nat := rd32 h.bytes 88

/-- The header as it is summed: a block without the checksum. -/
def summed : Blocks where
  bytes := h.bytes.fill 16 4 0
  length := 512

end GptHeader

/-- The header in block `lba`. -/
def BlockDevDesc.header (dev : BlockDevDesc) (lba : Nat) : GptHeader := ⟨(dev.blocks lba 1).bytes⟩

-- ============================================================================
-- `is_gpt_valid`
-- ============================================================================

/-- `alloc_read_gpt_entries` -/
def allocReadGptEntries (dev : BlockDevDesc) (malloc : Nat → Bool) (head : GptHeader) : Option Blocks :=
  let count := u32 (head.numPartitionEntries * head.sizeofPartitionEntry)
  if count = 0 ∨ malloc count = false then none
  else if dev.blockRead (u32 head.partitionEntryLba) (count / 512) ≠ count / 512 then none
  else some (dev.blocks (u32 head.partitionEntryLba) (count / 512))

/-- `is_gpt_valid`; `pgptPte` says whether there is a pointer to store the entries through. -/
def isGptValid (dev : BlockDevDesc) (malloc : Nat → Bool) (lba : Nat) (pgptPte : Bool) :
    Except Fault (Option (GptHeader × Blocks)) :=
  if dev.blockRead lba 1 ≠ 1 then .ok none
  else
    let head := dev.header lba
    if head.signature ≠ gptHeaderSignature then .ok none
    else
      match head.summed.use 0 head.headerSize with
      | .error f => .error f
      | .ok buf =>
        if efiCrc32 buf ≠ head.headerCrc32 then .ok none
        else if head.myLba ≠ lba then .ok none
        else if head.firstUsableLba > dev.lba then .ok none
        else if head.lastUsableLba > dev.lba then .ok none
        else
          let pte := allocReadGptEntries dev malloc head
          if !pgptPte then .error .nullStore
          else
            match pte with
            | none => .ok none
            | some pte =>
              match pte.use 0 (u32 (head.numPartitionEntries * head.sizeofPartitionEntry)) with
              | .error f => .error f
              | .ok buf => .ok (if efiCrc32 buf ≠ head.partitionEntryArrayCrc32 then none else some (head, pte))

-- ============================================================================
-- `get_partition_info_efi`
-- ============================================================================

/-- The size of a `gpt_entry`. -/
def gptEntrySize : Nat := 128

/-- What is reported for the entry at `off`. -/
def partitionInfo (m : Mem UInt8) (off : Nat) (part : Int) : PartitionInfo where
  start := u32 (le64ToInt m (off + 32))
  size := usub (u32 (u32 (le64ToInt m (off + 40)) + 1)) (u32 (le64ToInt m (off + 32)))
  blksz := 512
  name := ascii "gpt" ++ ascii (toString part)
  type := ascii "U-Boot"

/-- `get_partition_info_efi`; `info` says whether there is a place for the result. -/
def getPartitionInfoEfi (devDesc : Option BlockDevDesc) (malloc : Nat → Bool) (part : Int) (info : Bool) :
    Except Fault (Int × Option PartitionInfo) :=
  match devDesc with
  | none => .ok (-1, none)
  | some dev =>
    if !info ∨ part < 1 then .ok (-1, none)
    else
      -- `pgpt_pte` is NULL
      match isGptValid dev malloc 1 false with
      | .error f => .error f
      | .ok none => .ok (-1, none)
      | .ok (some (_, pte)) =>
        let off := gptEntrySize * (part - 1).toNat
        match pte.use (off + 32) 16 with
        | .error f => .error f
        | .ok _ => .ok (0, some (partitionInfo pte.bytes off part))

-- ============================================================================
-- What it should do
-- ============================================================================

/-- The header in block `lba`, as a table has it. -/
structure HeaderValid (dev : BlockDevDesc) (lba : Nat) : Prop where
  signature : (dev.header lba).signature = gptHeaderSignature
  size : (dev.header lba).headerSize ≤ 512
  crc : efiCrc32 ((dev.header lba).summed.bytes.read 0 (dev.header lba).headerSize) = (dev.header lba).headerCrc32
  myLba : (dev.header lba).myLba = lba

/-- The header passes all checks: the usable blocks are on the disk as well. -/
structure HeaderPasses (dev : BlockDevDesc) (lba : Nat) : Prop extends HeaderValid dev lba where
  first : (dev.header lba).firstUsableLba ≤ dev.lba
  last : (dev.header lba).lastUsableLba ≤ dev.lba

/-- The disk from the first entry on. -/
def entries (dev : BlockDevDesc) (lba : Nat) : Mem UInt8 := (dev.blocks (dev.header lba).partitionEntryLba 0).bytes

/-- The checksum of the entries is right. -/
def EntriesValid (dev : BlockDevDesc) (lba : Nat) : Prop :=
  efiCrc32 ((entries dev lba).read 0 ((dev.header lba).numPartitionEntries * (dev.header lba).sizeofPartitionEntry)) =
    (dev.header lba).partitionEntryArrayCrc32

/-- **What `get_partition_info_efi` should do**: not run into a fault, and find only a partition
    that a valid table has, in the place where its header says that the entry is. -/
structure LookupRight (devDesc : Option BlockDevDesc) (malloc : Nat → Bool) (part : Int) (info : Bool) : Prop where
  safe : ∀ f, getPartitionInfoEfi devDesc malloc part info ≠ .error f
  found : ∀ i, getPartitionInfoEfi devDesc malloc part info = .ok (0, i) →
    ∃ dev, devDesc = some dev ∧ HeaderValid dev 1 ∧ EntriesValid dev 1 ∧ 1 ≤ part ∧
      part ≤ (dev.header 1).numPartitionEntries ∧
      i = some (partitionInfo (entries dev 1) ((dev.header 1).sizeofPartitionEntry * (part - 1).toNat) part)

/-- The lookups that are refused before the entries are read: with no device, no place for the
    result or a number below 1; and those of a disk that has no readable header with the signature,
    or one of at most 512 bytes that fails its other checks. -/
def Refused (devDesc : Option BlockDevDesc) (part : Int) (info : Bool) : Prop :=
  ∀ dev, devDesc = some dev → info = true → 1 ≤ part → dev.blockRead 1 1 = 1 →
    (dev.header 1).signature = gptHeaderSignature →
      (dev.header 1).headerSize ≤ 512 ∧ ¬HeaderPasses dev 1

-- ============================================================================
-- The checks
-- ============================================================================

theorem summed_use (head : GptHeader) (n : Nat) :
    head.summed.use 0 n = if n ≤ 512 then .ok (head.summed.bytes.read 0 n) else .error .overrun := by
  rw [Blocks.use, Nat.zero_add]
  rfl

section Checks

variable {dev : BlockDevDesc} {malloc : Nat → Bool} {lba : Nat} {pgptPte : Bool}

theorem isGptValid_unread (h : dev.blockRead lba 1 = 1 → (dev.header lba).signature ≠ gptHeaderSignature) :
    isGptValid dev malloc lba pgptPte = .ok none := by
  rw [isGptValid]
  dsimp only
  by_cases hread : dev.blockRead lba 1 = 1
  · rw [if_neg (not_not.2 hread), if_pos (h hread)]
  · rw [if_pos hread]

variable (hread : dev.blockRead lba 1 = 1) (hsig : (dev.header lba).signature = gptHeaderSignature)

include hread hsig

/-- The sum of a header that is longer than a block has bytes that were not read. -/
theorem isGptValid_overrun (hsize : 512 < (dev.header lba).headerSize) :
    isGptValid dev malloc lba pgptPte = .error .overrun := by
  rw [isGptValid]
  dsimp only
  rw [if_neg (not_not.2 hread), if_neg (not_not.2 hsig), summed_use, if_neg (by omega)]

theorem isGptValid_invalid (hsize : (dev.header lba).headerSize ≤ 512) (hfails : ¬HeaderPasses dev lba) :
    isGptValid dev malloc lba pgptPte = .ok none := by
  rw [isGptValid]
  dsimp only
  rw [if_neg (not_not.2 hread), if_neg (not_not.2 hsig), summed_use, if_pos hsize]
  dsimp only
  by_cases hcrc :
    efiCrc32 ((dev.header lba).summed.bytes.read 0 (dev.header lba).headerSize) = (dev.header lba).headerCrc32
  · by_cases hlba : (dev.header lba).myLba = lba
    · by_cases hfirst : (dev.header lba).firstUsableLba ≤ dev.lba
      · have hlast : ¬(dev.header lba).lastUsableLba ≤ dev.lba :=
          fun hlast => hfails ⟨⟨hsig, hsize, hcrc, hlba⟩, hfirst, hlast⟩
        rw [if_neg (not_not.2 hcrc), if_neg (not_not.2 hlba), if_neg (by omega), if_pos (by omega)]
      · rw [if_neg (not_not.2 hcrc), if_neg (not_not.2 hlba), if_pos (by omega)]
    · rw [if_neg (not_not.2 hcrc), if_pos hlba]
  · rw [if_pos hcrc]

omit hsig in
/-- A header that passes has the entries read, and there has to be a pointer for them. -/
theorem isGptValid_passes (hpasses : HeaderPasses dev lba) :
    isGptValid dev malloc lba pgptPte =
      if !pgptPte then .error .nullStore
      else
        match allocReadGptEntries dev malloc (dev.header lba) with
        | none => .ok none
        | some pte =>
          match pte.use 0 (u32 ((dev.header lba).numPartitionEntries * (dev.header lba).sizeofPartitionEntry)) with
          | .error f => .error f
          | .ok buf =>
            .ok (if efiCrc32 buf ≠ (dev.header lba).partitionEntryArrayCrc32 then none else some (dev.header lba, pte)) := by
  obtain ⟨⟨hsig, hsize, hcrc, hlba⟩, hfirst, hlast⟩ := hpasses
  rw [isGptValid]
  dsimp only
  rw [if_neg (not_not.2 hread), if_neg (not_not.2 hsig), summed_use, if_pos hsize]
  dsimp only
  rw [if_neg (not_not.2 hcrc), if_neg (not_not.2 hlba), if_neg (by omega), if_neg (by omega)]

end Checks

/-- **A table that `is_gpt_valid` accepts is valid**, when it has a pointer for the entries and
    their number of bytes and their place do not overflow: what it gives back are the entries, all
    of them read. -/
theorem isGptValid_sound {dev : BlockDevDesc} {malloc : Nat → Bool} {lba : Nat} {head : GptHeader} {pte : Blocks}
    (hcount : (dev.header lba).numPartitionEntries * (dev.header lba).sizeofPartitionEntry < 4294967296)
    (hplace : (dev.header lba).partitionEntryLba < 4294967296)
    (h : isGptValid dev malloc lba true = .ok (some (head, pte))) :
    HeaderPasses dev lba ∧ EntriesValid dev lba ∧ head = dev.header lba ∧ pte.bytes = entries dev lba ∧
      (dev.header lba).numPartitionEntries * (dev.header lba).sizeofPartitionEntry ≤ pte.length := by
  by_cases hunread : dev.blockRead lba 1 = 1 → (dev.header lba).signature ≠ gptHeaderSignature
  · rw [isGptValid_unread hunread] at h
    cases h
  push Not at hunread
  obtain ⟨hread, hsig⟩ := hunread
  by_cases hsize : (dev.header lba).headerSize ≤ 512
  swap
  · rw [isGptValid_overrun hread hsig (by omega)] at h
    cases h
  by_cases hpasses : HeaderPasses dev lba
  swap
  · rw [isGptValid_invalid hread hsig hsize hpasses] at h
    cases h
  refine ⟨hpasses, ?_⟩
  rw [isGptValid_passes hread hpasses, if_neg (by decide), u32_of_lt hcount] at h
  cases halloc : allocReadGptEntries dev malloc (dev.header lba) with
  | none =>
    rw [halloc] at h
    cases h
  | some pte' =>
    rw [halloc] at h
    dsimp only at h
    -- the entries are summed where they were read
    have hbytes : pte'.bytes = entries dev lba := by
      rw [allocReadGptEntries] at halloc
      split_ifs at halloc
      obtain rfl := Option.some.inj halloc
      rw [u32_of_lt hplace]
      rfl
    cases huse : pte'.use 0 ((dev.header lba).numPartitionEntries * (dev.header lba).sizeofPartitionEntry) with
    | error f =>
      rw [huse] at h
      cases h
    | ok buf =>
      rw [huse] at h
      dsimp only at h
      by_cases hcrc : efiCrc32 buf = (dev.header lba).partitionEntryArrayCrc32
      swap
      · rw [if_pos hcrc] at h
        cases h
      rw [if_neg (not_not.2 hcrc)] at h
      cases h
      rw [Blocks.use, Nat.zero_add] at huse
      split_ifs at huse with hinside
      cases huse
      rw [hbytes] at hcrc
      exact ⟨hcrc, rfl, hbytes, hinside⟩

/-- Without a pointer there is no way to a table. -/
theorem isGptValid_null (dev : BlockDevDesc) (malloc : Nat → Bool) (lba : Nat) :
    (isGptValid dev malloc lba false = .ok none ∧
        (dev.blockRead lba 1 = 1 → (dev.header lba).signature = gptHeaderSignature →
          (dev.header lba).headerSize ≤ 512 ∧ ¬HeaderPasses dev lba)) ∨
      (∃ f, isGptValid dev malloc lba false = .error f) ∧
        ¬(dev.blockRead lba 1 = 1 → (dev.header lba).signature = gptHeaderSignature →
          (dev.header lba).headerSize ≤ 512 ∧ ¬HeaderPasses dev lba) := by
  by_cases hunread : dev.blockRead lba 1 = 1 → (dev.header lba).signature ≠ gptHeaderSignature
  · exact Or.inl ⟨isGptValid_unread hunread, fun hread hsig => absurd hsig (hunread hread)⟩
  push Not at hunread
  obtain ⟨hread, hsig⟩ := hunread
  by_cases hsize : (dev.header lba).headerSize ≤ 512
  · by_cases hpasses : HeaderPasses dev lba
    · refine Or.inr ⟨⟨.nullStore, ?_⟩, fun h => (h hread hsig).2 hpasses⟩
      rw [isGptValid_passes hread hpasses]
      rfl
    · exact Or.inl ⟨isGptValid_invalid hread hsig hsize hpasses, fun _ _ => ⟨hsize, hpasses⟩⟩
  · exact Or.inr ⟨⟨.overrun, isGptValid_overrun hread hsig (by omega)⟩, fun h => hsize (h hread hsig).1⟩

theorem lookup_fault {dev : BlockDevDesc} {malloc : Nat → Bool} {part : Int} {f : Fault} (hpart : 1 ≤ part)
    (hfault : isGptValid dev malloc 1 false = .error f) : getPartitionInfoEfi (some dev) malloc part true = .error f := by
  rw [getPartitionInfoEfi]
  dsimp only
  rw [if_neg (by simpa using hpart), hfault]

/-- **`get_partition_info_efi` does what it should in just these lookups**, as its pointer for the
    entries is NULL. -/
theorem lookupRight_iff (devDesc : Option BlockDevDesc) (malloc : Nat → Bool) (part : Int) (info : Bool) :
    LookupRight devDesc malloc part info ↔ Refused devDesc part info := by
  cases devDesc with
  | none => exact iff_of_true ⟨fun _ => nofun, fun _ => nofun⟩ nofun
  | some dev =>
    by_cases hargs : info = true ∧ 1 ≤ part
    swap
    · have hbad : (!info) = true ∨ part < 1 := by
        cases info with
        | false => exact Or.inl rfl
        | true => exact Or.inr (by simpa using hargs)
      have hrun : getPartitionInfoEfi (some dev) malloc part info = .ok (-1, none) := by
        rw [getPartitionInfoEfi]
        dsimp only
        rw [if_pos hbad]
      refine iff_of_true ⟨fun _ => by rw [hrun]; nofun, fun _ => by rw [hrun]; nofun⟩ ?_
      exact fun _ _ hinfo hpart => absurd ⟨hinfo, hpart⟩ hargs
    obtain ⟨rfl, hpart⟩ := hargs
    have hrefused : Refused (some dev) part true ↔ (dev.blockRead 1 1 = 1 →
        (dev.header 1).signature = gptHeaderSignature → (dev.header 1).headerSize ≤ 512 ∧ ¬HeaderPasses dev 1) :=
      ⟨fun h => h dev rfl rfl hpart, fun h dev' hdev _ _ => Option.some.inj hdev ▸ h⟩
    rw [hrefused]
    rcases isGptValid_null dev malloc 1 with ⟨hnone, hrefuses⟩ | ⟨⟨f, hfault⟩, hreaches⟩
    · have hrun : getPartitionInfoEfi (some dev) malloc part true = .ok (-1, none) := by
        rw [getPartitionInfoEfi]
        dsimp only
        rw [if_neg (by simpa using hpart), hnone]
      exact iff_of_true ⟨fun _ => by rw [hrun]; nofun, fun _ => by rw [hrun]; nofun⟩ hrefuses
    · exact iff_of_false (fun h => h.safe f (lookup_fault hpart hfault)) hreaches

/-- A header of 92 bytes for four entries of 128 bytes from block 2 on. -/
def sampleHeader : List UInt8 :=
  le32 0x20494645 ++ le32 0x54524150 ++ le32 0x10000 ++ le32 92 ++ le32 0xa2382f35 ++ le32 0 ++ le32 1 ++ le32 0 ++
    le32 255 ++ le32 0 ++ le32 34 ++ le32 0 ++ le32 222 ++ le32 0 ++ List.replicate 16 0 ++ le32 2 ++ le32 0 ++
    le32 4 ++ le32 128 ++ le32 0x76cbcea5

/-- An entry with the blocks from 34 to 99. -/
def sampleEntry : List UInt8 :=
  le32 0xebd0a0a2 ++ le32 0x4433b9e5 ++ le32 0xb668c087 ++ le32 0xc79926b7 ++ (List.range 16).map UInt8.ofNat ++
    le32 34 ++ le32 0 ++ le32 99 ++ le32 0

/-- A disk of 256 blocks with a valid table. -/
def sampleDisk : BlockDevDesc where
  lba := 256
  disk := Mem.write (Mem.write (fun _ => 0) 512 sampleHeader) 1024 sampleEntry
  blockRead _ blkcnt := blkcnt

theorem sampleHeader_crc : efiCrc32 ((sampleDisk.header 1).summed.bytes.read 0 (48 + 44)) = 0xa2382f35 := by
  have hfirst : ((sampleDisk.header 1).summed.bytes.read 0 48).foldl crcByte (0 ^^^ 0xffffffff) = 0x33f03095 := by
    decide +kernel
  rw [efiCrc32, crc32At_eq, Mem.read_add, List.foldl_append, hfirst]
  decide +kernel

theorem sampleHeader_passes : HeaderPasses sampleDisk 1 where
  signature := by decide +kernel
  size := by decide +kernel
  crc := by
    have hsize : (sampleDisk.header 1).headerSize = 48 + 44 := by decide +kernel
    have hcrc : (sampleDisk.header 1).headerCrc32 = 0xa2382f35 := by decide +kernel
    rw [hsize, hcrc]
    exact sampleHeader_crc
  myLba := by decide +kernel
  first := by decide +kernel
  last := by decide +kernel

/-- The first partition of this table is looked up through the null pointer. -/
theorem not_lookupRight_sampleDisk : ¬LookupRight (some sampleDisk) (fun _ => true) 1 true := by
  intro h
  have hfault : isGptValid sampleDisk (fun _ => true) 1 false = .error .nullStore :=
    (isGptValid_passes rfl sampleHeader_passes).trans (if_pos rfl)
  exact h.safe _ (lookup_fault (by decide) hfault)

end Uboot.Disk.PartEfi
