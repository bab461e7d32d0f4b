/-
  Uboot.Disk.PartDos

  The DOS partition tables of disk/part_dos.c: `get_partition_info_extended`, which
  looks a partition up by number, and `print_partition_extended`, which lists them.
  Both walk from the master boot record along the chain of extended boot records;
  each counts partitions for itself and each keeps the sector its links are relative
  to.

  `int` and `ulong` are 32 bits wide, so sector numbers are taken modulo 2 ^ 32.  The
  walks recurse without a bound; the model takes the depth as an argument, and the
  results hold for every depth beyond the length of the chain.
-/

import Uboot.Lib.Mem
import Uboot.LibGeneric.Vsprintf

namespace Uboot.Disk.PartDos

open Uboot.Lib Uboot.LibGeneric

-- ============================================================================
-- Boot records
-- ============================================================================

/-- The sectors of a disk; a sector that cannot be read is `none`. -/
abbrev Sectors := Nat → Option (Mem UInt8)

/-- `dos_partition_t`, as far as it is read. -/
structure DosPartition where
  bootInd : Nat
  sysInd : Nat
  start4 : Nat
  size4 : Nat
  deriving DecidableEq, Repr

def dosPartTblOffset : Nat := 0x1be
def dosPartMagicOffset : Nat := 0x1fe
def dosPbrFstypeOffset : Nat := 0x36
def dosPbrMediaTypeOffset : Nat := 0x15

/-- Entry `i` of the partition table in a sector. -/
def partEntry (b : Mem UInt8) (i : Nat) : DosPartition where
  bootInd := (b (dosPartTblOffset + 16 * i)).toNat
  sysInd := (b (dosPartTblOffset + 16 * i + 4)).toNat
  start4 := rd32 b (dosPartTblOffset + 16 * i + 8)
  size4 := rd32 b (dosPartTblOffset + 16 * i + 12)

/-- The four entries of the partition table. -/
def partTable (b : Mem UInt8) : List DosPartition := (List.range 4).map (partEntry b)

def isExtended (partType : Nat) : Bool := partType = 0x5 || partType = 0xf || partType = 0x85

/-- The sector ends with 55 AA. -/
def signed (b : Mem UInt8) : Bool := b dosPartMagicOffset = 0x55 && b (dosPartMagicOffset + 1) = 0xaa

/-- `test_block_type`. -/
inductive BlockType
  | none
  | pbr
  | mbr
  deriving DecidableEq, Repr

def testBlockType (b : Mem UInt8) : BlockType :=
  if !signed b then .none
  else if b.read dosPbrFstypeOffset 3 = ascii "FAT" then .pbr
  else .mbr

-- ============================================================================
-- Lookup by number
-- ============================================================================

/-- `if_type`, as far as it selects a name. -/
inductive IfType
  | ide
  | sata
  | atapi
  | scsi
  | usb
  | doc
  | other
  deriving DecidableEq, Repr

/-- `block_dev_desc_t`. -/
structure BlockDevDesc where
  ifType : IfType
  dev : Nat
  lba : Nat
  disk : Sectors

/-- `disk_partition_t`. -/
structure PartitionInfo where
  start : Nat
  size : Nat
  blksz : Nat
  name : List UInt8
  type : List UInt8
  deriving DecidableEq, Repr

def IfType.tag : IfType → String
  | .ide | .sata | .atapi => "hd"
  | .scsi => "sd"
  | .usb => "usbd"
  | .doc => "docd"
  | .other => "xx"

/-- What is reported for entry `p` of the boot record in sector `extPartSector`. -/
def partitionInfo (dev : BlockDevDesc) (extPartSector partNum : Nat) (p : DosPartition) :
    PartitionInfo where
  start := u32 (extPartSector + p.start4)
  size := p.size4
  blksz := 512
  name := ascii dev.ifType.tag ++ [UInt8.ofNat (97 + dev.dev)] ++ ascii (toString partNum)
  type := ascii "U-Boot"

/-- `part_num` after an entry: a slot of the master boot record counts whatever it
    holds, in an extended boot record only a logical partition does. -/
def nextPartNum (extPartSector partNum : Nat) (p : DosPartition) : Nat :=
  if extPartSector = 0 ∨ (p.sysInd ≠ 0 ∧ isExtended p.sysInd = false) then partNum + 1 else partNum

/-- The first loop of `get_partition_info_extended`: the partition looked for, or the
    number the next boot record goes on with. -/
def findPart (dev : BlockDevDesc) (extPartSector whichPart : Nat) :
    List DosPartition → Nat → PartitionInfo ⊕ Nat
  | [], partNum => .inr partNum
  | p :: ps, partNum =>
    -- `boot_ind & ~0x80` drops the top bit
    if p.bootInd % 128 = 0 ∧ p.sysInd ≠ 0 ∧ partNum = whichPart ∧ isExtended p.sysInd = false then
      .inl (partitionInfo dev extPartSector partNum p)
    else findPart dev extPartSector whichPart ps (nextPartNum extPartSector partNum p)

/-- `get_partition_info_extended`; `none` is the return value -1. -/
def getPartitionInfoExtended (dev : BlockDevDesc) (whichPart : Nat) :
    Nat → Nat → Nat → Nat → Option PartitionInfo
  | 0, _, _, _ => none
  | depth + 1, extPartSector, relative, partNum =>
    match dev.disk extPartSector with
    | none => none
    | some buffer =>
      if signed buffer then
        match findPart dev extPartSector whichPart (partTable buffer) partNum with
        | .inl info => some info
        | .inr partNum =>
          -- the loop over the entries returns at the first extended one
          match (partTable buffer).find? fun p => isExtended p.sysInd with
          | some p =>
            let lbaStart := u32 (p.start4 + relative)
            getPartitionInfoExtended dev whichPart depth lbaStart
              (if extPartSector = 0 then lbaStart else relative) partNum
          | none => none
      else none

/-- `get_partition_info_dos`. -/
def getPartitionInfoDos (dev : BlockDevDesc) (depth part : Nat) : Option PartitionInfo :=
  getPartitionInfoExtended dev part depth 0 0 1

-- ============================================================================
-- The listing
-- ============================================================================

/-- A line `print_partition_extended` prints. -/
inductive PrintLine
  | part (partNum lbaStart lbaSize sysInd : Nat)
  | pbr (lba media : Nat)
  | badSignature (first second : UInt8)
  | cannotRead (sector : Nat)
  deriving DecidableEq, Repr

/-- The first loop of `print_partition_extended`: what is printed, and the number the
    next boot record goes on with. -/
def printParts (extPartSector : Nat) : List DosPartition → Nat → List PrintLine × Nat
  | [], partNum => ([], partNum)
  | p :: ps, partNum =>
    let rest := printParts extPartSector ps (nextPartNum extPartSector partNum p)
    if p.sysInd ≠ 0 ∧ (extPartSector = 0 ∨ isExtended p.sysInd = false) then
      (.part partNum (u32 (extPartSector + p.start4)) p.size4 p.sysInd :: rest.1, rest.2)
    else rest

/-- `print_partition_extended`. -/
def printPartitionExtended (dev : BlockDevDesc) : Nat → Nat → Nat → Nat → List PrintLine
  | 0, _, _, _ => []
  | depth + 1, extPartSector, relative, partNum =>
    match dev.disk extPartSector with
    | none => [.cannotRead extPartSector]
    | some buffer =>
      match testBlockType buffer with
      | .none => [.badSignature (buffer dosPartMagicOffset) (buffer (dosPartMagicOffset + 1))]
      | .pbr => [.pbr dev.lba (buffer dosPbrMediaTypeOffset).toNat]
      | .mbr =>
        let (lines, partNum) := printParts extPartSector (partTable buffer) partNum
        lines ++ (partTable buffer).flatMap fun p =>
          if isExtended p.sysInd then
            let lbaStart := u32 (p.start4 + relative)
            printPartitionExtended dev depth lbaStart
              (if extPartSector = 0 then lbaStart else relative) partNum
          else []

/-- `print_part_dos`. -/
def printPartDos (dev : BlockDevDesc) (depth : Nat) : List PrintLine :=
  printPartitionExtended dev depth 0 0 1

-- ============================================================================
-- The partitions of a disk
-- ============================================================================

/-- A numbered partition, by its absolute place on the disk. -/
structure Part where
  number : Nat
  start : Nat
  size : Nat
  deriving DecidableEq, Repr

/-- The entry describes a partition: it is neither empty nor extended. -/
def DosPartition.isData (p : DosPartition) : Bool := p.sysInd ≠ 0 && !isExtended p.sysInd

/-- Primary partitions are numbered by slot. -/
def primaries : Nat → List DosPartition → List Part
  | _, [] => []
  | n, p :: ps =>
    if p.isData then ⟨n, u32 p.start4, p.size4⟩ :: primaries (n + 1) ps else primaries (n + 1) ps

/-- The logical partitions of the boot record in sector `s` are numbered one after the
    other. -/
def logicals (s : Nat) : Nat → List DosPartition → List Part
  | _, [] => []
  | n, p :: ps =>
    if p.isData then ⟨n, u32 (s + p.start4), p.size4⟩ :: logicals s (n + 1) ps else logicals s n ps

/-- A chain of extended boot records, each with its sector. -/
abbrev EbrChain := List (Nat × Mem UInt8)

/-- The logical partitions of a chain, in its order. -/
def chainParts : Nat → EbrChain → List Part
  | _, [] => []
  | n, (s, b) :: rest =>
    logicals s n (partTable b) ++ chainParts (n + (logicals s n (partTable b)).length) rest

/-- All partitions: the four slots of the master boot record come first. -/
def parts (mbr : Mem UInt8) (chain : EbrChain) : List Part :=
  primaries 1 (partTable mbr) ++ chainParts 5 chain

/-- A boot record: signed, not the boot sector of a file system, the boot flags of its
    entries clear or set, and no second extended entry. -/
structure BootRecord (b : Mem UInt8) : Prop where
  signed : signed b = true
  notPbr : b.read dosPbrFstypeOffset 3 ≠ ascii "FAT"
  bootInd : ∀ p ∈ partTable b, p.bootInd = 0 ∨ p.bootInd = 0x80
  single : ((partTable b).filter fun p => isExtended p.sysInd).length ≤ 1

/-- The extended entry of `b` links to the head of the chain: `relative` sectors are
    added to it.  At the end of the chain there is no extended entry. -/
def LinksTo (relative : Nat) (b : Mem UInt8) : EbrChain → Prop
  | [] => (partTable b).find? (fun p => isExtended p.sysInd) = none
  | (s, _) :: _ => s ≠ 0 ∧
      ((partTable b).find? fun p => isExtended p.sysInd).map (fun p => u32 (p.start4 + relative)) = some s

/-- The boot records of the chain are on the disk and linked one to the next, relative
    to the extended partition in sector `ext`. -/
def ChainOn (d : Sectors) (ext : Nat) : EbrChain → Prop
  | [] => True
  | (s, b) :: rest => d s = some b ∧ BootRecord b ∧ LinksTo ext b rest ∧ ChainOn d ext rest

/-- A master boot record with a chain of extended boot records.  The first link holds a
    sector of the disk, the others are relative to the sector of the first. -/
structure WellFormed (d : Sectors) (mbr : Mem UInt8) (chain : EbrChain) : Prop where
  onDisk : d 0 = some mbr
  record : BootRecord mbr
  link : LinksTo 0 mbr chain
  chain : ChainOn d ((chain.head?.map Prod.fst).getD 0) chain

-- ============================================================================
-- One boot record
-- ============================================================================

/-- What a lookup reports for a partition. -/
def Part.info (dev : BlockDevDesc) (q : Part) : PartitionInfo where
  start := q.start
  size := q.size
  blksz := 512
  name := ascii dev.ifType.tag ++ [UInt8.ofNat (97 + dev.dev)] ++ ascii (toString q.number)
  type := ascii "U-Boot"

/-- The partition a printed line shows.  Extended partitions are printed as well. -/
def PrintLine.part? : PrintLine → Option Part
  | .part n start size sysInd => if isExtended sysInd then none else some ⟨n, start, size⟩
  | _ => none

section Record

variable {dev : BlockDevDesc} {s n which : Nat} {es : List DosPartition}

theorem isData_iff {p : DosPartition} :
    p.isData = true ↔ p.sysInd ≠ 0 ∧ isExtended p.sysInd = false := by
  simp [DosPartition.isData]

/-- Boot flags 0 and 0x80 pass the test of the lookup. -/
theorem bootInd_mod {p : DosPartition} (h : p.bootInd = 0 ∨ p.bootInd = 0x80) :
    p.bootInd % 128 = 0 := by
  omega

/-- The lookup in the master boot record finds the primary partition of that number;
    otherwise the count goes on behind the last slot. -/
theorem findPart_mbr (hb : ∀ p ∈ es, p.bootInd = 0 ∨ p.bootInd = 0x80) :
    findPart dev 0 which es n =
      match (primaries n es).find? (fun q => q.number = which) with
      | some q => .inl (q.info dev)
      | none => .inr (n + es.length) := by
  induction es generalizing n with
  | nil => rfl
  | cons p ps ih =>
    have hp := bootInd_mod (hb p List.mem_cons_self)
    have ih' := ih (n := n + 1) fun q hq => hb q (List.mem_cons_of_mem _ hq)
    have hnext : nextPartNum 0 n p = n + 1 := if_pos (.inl rfl)
    have hlen : n + (p :: ps).length = n + 1 + ps.length := by simp; omega
    rw [findPart, hnext, ih', hlen, primaries]
    by_cases hd : p.isData = true
    · obtain ⟨hs, he⟩ := isData_iff.mp hd
      by_cases hn : n = which
      · simp [hp, hs, he, hn, hd, partitionInfo, Part.info]
      · simp [hn, hd]
    · have hno : ¬ (p.bootInd % 128 = 0 ∧ p.sysInd ≠ 0 ∧ n = which ∧ isExtended p.sysInd = false) :=
        fun h => hd (isData_iff.mpr ⟨h.2.1, h.2.2.2⟩)
      rw [if_neg hno, if_neg hd]

/-- The same in an extended boot record, where only logical partitions count. -/
theorem findPart_ebr (hs : s ≠ 0) (hb : ∀ p ∈ es, p.bootInd = 0 ∨ p.bootInd = 0x80) :
    findPart dev s which es n =
      match (logicals s n es).find? (fun q => q.number = which) with
      | some q => .inl (q.info dev)
      | none => .inr (n + (logicals s n es).length) := by
  induction es generalizing n with
  | nil => rfl
  | cons p ps ih =>
    have hp := bootInd_mod (hb p List.mem_cons_self)
    have hps : ∀ q ∈ ps, q.bootInd = 0 ∨ q.bootInd = 0x80 := fun q hq => hb q (List.mem_cons_of_mem _ hq)
    rw [findPart, ih hps, logicals]
    by_cases hd : p.isData = true
    · have hdata := isData_iff.mp hd
      have hnext : nextPartNum s n p = n + 1 := if_pos (.inr hdata)
      by_cases hn : n = which
      · simp [hp, hdata.1, hdata.2, hn, hd, partitionInfo, Part.info]
      · have hlen : n + 1 + (logicals s (n + 1) ps).length =
            n + ((logicals s (n + 1) ps).length + 1) := by omega
        simp [hn, hd, hnext, hlen]
    · have hnext : nextPartNum s n p = n :=
        if_neg (not_or.mpr ⟨hs, fun h => hd (isData_iff.mpr h)⟩)
      have hno : ¬ (p.bootInd % 128 = 0 ∧ p.sysInd ≠ 0 ∧ n = which ∧ isExtended p.sysInd = false) :=
        fun h => hd (isData_iff.mpr ⟨h.2.1, h.2.2.2⟩)
      rw [if_neg hno, if_neg hd, hnext]

/-- Printing shows the primary partitions, and the count goes on behind the last slot. -/
theorem printParts_mbr :
    (printParts 0 es n).1.filterMap PrintLine.part? = primaries n es ∧
      (printParts 0 es n).2 = n + es.length := by
  induction es generalizing n with
  | nil => exact ⟨rfl, rfl⟩
  | cons p ps ih =>
    obtain ⟨hlines, hnum⟩ := ih (n := n + 1)
    have hnext : nextPartNum 0 n p = n + 1 := if_pos (.inl rfl)
    have hlen : n + (p :: ps).length = n + 1 + ps.length := by simp; omega
    rw [printParts, hnext, hlen, primaries]
    by_cases hs : p.sysInd = 0
    · simp [hs, DosPartition.isData, hlines, hnum]
    · by_cases he : isExtended p.sysInd = true
      -- the extended partition itself is printed, but is no partition
      · simp [hs, he, DosPartition.isData, PrintLine.part?, hlines, hnum]
      · simp [hs, he, DosPartition.isData, PrintLine.part?, hlines, hnum]

theorem printParts_ebr (h : s ≠ 0) :
    (printParts s es n).1.filterMap PrintLine.part? = logicals s n es ∧
      (printParts s es n).2 = n + (logicals s n es).length := by
  induction es generalizing n with
  | nil => exact ⟨rfl, rfl⟩
  | cons p ps ih =>
    rw [printParts, logicals]
    by_cases hd : p.isData = true
    · obtain ⟨hs, he⟩ := isData_iff.mp hd
      have hnext : nextPartNum s n p = n + 1 := if_pos (.inr ⟨hs, he⟩)
      obtain ⟨hlines, hnum⟩ := ih (n := n + 1)
      simp [hnext, hs, he, hd, PrintLine.part?, hlines, hnum]
      omega
    · have hno : ¬ (p.sysInd ≠ 0 ∧ isExtended p.sysInd = false) := fun h => hd (isData_iff.mpr h)
      have hnext : nextPartNum s n p = n := if_neg (not_or.mpr ⟨h, hno⟩)
      have hskip : ¬ (p.sysInd ≠ 0 ∧ (s = 0 ∨ isExtended p.sysInd = false)) :=
        fun hp => hno ⟨hp.1, hp.2.resolve_left h⟩
      obtain ⟨hlines, hnum⟩ := ih (n := n)
      rw [if_neg hskip, if_neg hd, hnext]
      exact ⟨hlines, hnum⟩

end Record

-- ============================================================================
-- The walk along the chain
-- ============================================================================

section Chain

variable {dev : BlockDevDesc} {ext s n which depth : Nat} {b : Mem UInt8} {rest : EbrChain}

theorem BootRecord.blockType (h : BootRecord b) : testBlockType b = .mbr := by
  simp [testBlockType, h.signed, h.notPbr]

/-- With one extended entry at most, following all of them is following the first. -/
theorem flatMap_extended {α : Type*} {es : List DosPartition} (f : DosPartition → List α)
    (h : (es.filter fun p => isExtended p.sysInd).length ≤ 1) :
    (es.flatMap fun p => if isExtended p.sysInd then f p else []) =
      match es.find? fun p => isExtended p.sysInd with
      | some p => f p
      | none => [] := by
  induction es with
  | nil => rfl
  | cons p ps ih =>
    rw [List.flatMap_cons, List.find?_cons]
    by_cases he : isExtended p.sysInd = true
    · have hnone : ∀ q ∈ ps, ¬ isExtended q.sysInd = true := by
        rw [List.filter_cons_of_pos (by exact he), List.length_cons] at h
        have hnil : (ps.filter fun q => isExtended q.sysInd) = [] :=
          List.eq_nil_of_length_eq_zero (by omega)
        simpa [List.filter_eq_nil_iff] using hnil
      have hrest : (ps.flatMap fun q => if isExtended q.sysInd then f q else []) = [] := by
        rw [List.flatMap_eq_nil_iff]
        intro q hq
        rw [if_neg (hnone q hq)]
      simp [he, hrest]
    · rw [List.filter_cons_of_neg (by exact he)] at h
      simp [he, ih h]

/-- Lookup from an extended boot record on. -/
theorem getPartitionInfoExtended_chain (hc : ChainOn dev.disk ext ((s, b) :: rest)) (hs : s ≠ 0)
    (hd : rest.length < depth) :
    getPartitionInfoExtended dev which depth s ext n =
      ((chainParts n ((s, b) :: rest)).find? fun q => q.number = which).map (Part.info dev) := by
  induction rest generalizing s b n depth with
  | nil =>
    obtain ⟨depth, rfl⟩ : ∃ k, depth = k + 1 := ⟨depth - 1, by omega⟩
    obtain ⟨hdisk, hrec, hlink, -⟩ := hc
    rw [getPartitionInfoExtended]
    simp only [hdisk, hrec.signed, if_true, findPart_ebr hs hrec.bootInd, chainParts,
      List.append_nil]
    cases hfind : (logicals s n (partTable b)).find? fun q => q.number = which with
    | some q => rfl
    | none => simp only [show (partTable b).find? (fun p => isExtended p.sysInd) = none from hlink]; rfl
  | cons t rest ih =>
    obtain ⟨t, b'⟩ := t
    obtain ⟨depth, rfl⟩ : ∃ k, depth = k + 1 := ⟨depth - 1, by omega⟩
    obtain ⟨hdisk, hrec, ⟨ht, hlink⟩, htail⟩ := hc
    obtain ⟨p, hp, rfl⟩ := Option.map_eq_some_iff.mp hlink
    rw [getPartitionInfoExtended, chainParts, List.find?_append]
    simp only [hdisk, hrec.signed, if_true, findPart_ebr hs hrec.bootInd]
    cases hfind : (logicals s n (partTable b)).find? fun q => q.number = which with
    | some q => rfl
    | none =>
      simp only [hp, if_neg hs]
      exact ih htail ht (by simp at hd; omega)

/-- The listing from an extended boot record on. -/
theorem printPartitionExtended_chain (hc : ChainOn dev.disk ext ((s, b) :: rest)) (hs : s ≠ 0)
    (hd : rest.length < depth) :
    (printPartitionExtended dev depth s ext n).filterMap PrintLine.part? =
      chainParts n ((s, b) :: rest) := by
  induction rest generalizing s b n depth with
  | nil =>
    obtain ⟨depth, rfl⟩ : ∃ k, depth = k + 1 := ⟨depth - 1, by omega⟩
    obtain ⟨hdisk, hrec, hlink, -⟩ := hc
    rw [printPartitionExtended]
    simp only [hdisk, hrec.blockType, flatMap_extended _ hrec.single,
      show (partTable b).find? (fun p => isExtended p.sysInd) = none from hlink]
    rw [List.append_nil, (printParts_ebr hs).1, chainParts, chainParts, List.append_nil]
  | cons t rest ih =>
    obtain ⟨t, b'⟩ := t
    obtain ⟨depth, rfl⟩ : ∃ k, depth = k + 1 := ⟨depth - 1, by omega⟩
    obtain ⟨hdisk, hrec, ⟨ht, hlink⟩, htail⟩ := hc
    obtain ⟨p, hp, rfl⟩ := Option.map_eq_some_iff.mp hlink
    rw [printPartitionExtended, chainParts]
    simp only [hdisk, hrec.blockType, flatMap_extended _ hrec.single, hp, if_neg hs]
    rw [List.filterMap_append, (printParts_ebr hs).1, (printParts_ebr hs).2]
    exact congrArg _ (ih htail ht (by simp at hd; omega))

/-- Numbers of primary partitions are those of slots, in order. -/
theorem primaries_sorted (n : Nat) (es : List DosPartition) :
    (primaries n es).Pairwise (fun q r => q.number < r.number) ∧
      ∀ q ∈ primaries n es, n ≤ q.number ∧ q.number < n + es.length := by
  induction es generalizing n with
  | nil => exact ⟨.nil, fun q hq => absurd hq List.not_mem_nil⟩
  | cons p ps ih =>
    obtain ⟨hsort, hbound⟩ := ih (n + 1)
    have hrest : ∀ q ∈ primaries (n + 1) ps, n < q.number ∧ q.number < n + (p :: ps).length := by
      intro q hq
      have := hbound q hq
      simp only [List.length_cons]
      omega
    rw [primaries]
    split
    · refine ⟨List.pairwise_cons.mpr ⟨fun q hq => (hrest q hq).1, hsort⟩, ?_⟩
      intro q hq
      rcases List.mem_cons.mp hq with rfl | hq
      · simp
      · exact ⟨Nat.le_of_lt (hrest q hq).1, (hrest q hq).2⟩
    · exact ⟨hsort, fun q hq => ⟨Nat.le_of_lt (hrest q hq).1, (hrest q hq).2⟩⟩

/-- Logical partitions of one boot record are numbered without a gap. -/
theorem logicals_sorted (s n : Nat) (es : List DosPartition) :
    (logicals s n es).Pairwise (fun q r => q.number < r.number) ∧
      ∀ q ∈ logicals s n es, n ≤ q.number ∧ q.number < n + (logicals s n es).length := by
  induction es generalizing n with
  | nil => exact ⟨.nil, fun q hq => absurd hq List.not_mem_nil⟩
  | cons p ps ih =>
    rw [logicals]
    split
    · obtain ⟨hsort, hbound⟩ := ih (n + 1)
      refine ⟨List.pairwise_cons.mpr ⟨fun q hq => (hbound q hq).1, hsort⟩, ?_⟩
      intro q hq
      rcases List.mem_cons.mp hq with rfl | hq
      · simp
      · have := hbound q hq
        simp only [List.length_cons]
        omega
    · exact ih n

/-- So are those of a chain. -/
theorem chainParts_sorted (n : Nat) (chain : EbrChain) :
    (chainParts n chain).Pairwise (fun q r => q.number < r.number) ∧
      ∀ q ∈ chainParts n chain, n ≤ q.number := by
  induction chain generalizing n with
  | nil => exact ⟨.nil, fun q hq => absurd hq List.not_mem_nil⟩
  | cons t rest ih =>
    obtain ⟨s, b⟩ := t
    obtain ⟨hsort, hbound⟩ := logicals_sorted s n (partTable b)
    obtain ⟨hrest, hlow⟩ := ih (n + (logicals s n (partTable b)).length)
    rw [chainParts]
    constructor
    · refine List.pairwise_append.mpr ⟨hsort, hrest, fun q hq r hr => ?_⟩
      have := (hbound q hq).2
      have := hlow r hr
      omega
    · intro q hq
      rcases List.mem_append.mp hq with hq | hq
      · exact (hbound q hq).1
      · have := hlow q hq
        omega

end Chain

-- ============================================================================
-- The partitions of a disk are the ones found and the ones listed
-- ============================================================================

section Lookup

variable {dev : BlockDevDesc} {mbr : Mem UInt8} {chain : EbrChain} {depth : Nat}

/-- No number is given twice. -/
theorem parts_sorted (mbr : Mem UInt8) (chain : EbrChain) :
    (parts mbr chain).Pairwise (fun q r => q.number < r.number) := by
  obtain ⟨hsort, hbound⟩ := primaries_sorted 1 (partTable mbr)
  obtain ⟨hrest, hlow⟩ := chainParts_sorted 5 chain
  refine List.pairwise_append.mpr ⟨hsort, hrest, fun q hq r hr => ?_⟩
  have hlast : q.number < 1 + 4 := (hbound q hq).2
  have := hlow r hr
  omega

/-- A lookup finds the first partition of its number. -/
theorem getPartitionInfoDos_eq (h : WellFormed dev.disk mbr chain) (hd : chain.length < depth)
    (which : Nat) :
    getPartitionInfoDos dev depth which =
      ((parts mbr chain).find? fun q => q.number = which).map (Part.info dev) := by
  obtain ⟨depth, rfl⟩ : ∃ k, depth = k + 1 := ⟨depth - 1, by omega⟩
  rw [getPartitionInfoDos, getPartitionInfoExtended, parts, List.find?_append]
  simp only [h.onDisk, h.record.signed, if_true, findPart_mbr h.record.bootInd]
  cases hfind : (primaries 1 (partTable mbr)).find? fun q => q.number = which with
  | some q => rfl
  | none =>
    have hlink := h.link
    cases chain with
    | nil =>
      simp only [show (partTable mbr).find? (fun p => isExtended p.sysInd) = none from hlink]
      rfl
    | cons t rest =>
      obtain ⟨s, b⟩ := t
      obtain ⟨hs, hlink⟩ := hlink
      obtain ⟨p, hp, rfl⟩ := Option.map_eq_some_iff.mp hlink
      simp only [hp]
      exact getPartitionInfoExtended_chain h.chain hs (by simpa using hd)

/-- The listing shows the partitions in order. -/
theorem printPartDos_parts (h : WellFormed dev.disk mbr chain) (hd : chain.length < depth) :
    (printPartDos dev depth).filterMap PrintLine.part? = parts mbr chain := by
  obtain ⟨depth, rfl⟩ : ∃ k, depth = k + 1 := ⟨depth - 1, by omega⟩
  rw [printPartDos, printPartitionExtended, parts]
  simp only [h.onDisk, h.record.blockType, flatMap_extended _ h.record.single]
  rw [List.filterMap_append, printParts_mbr.1, printParts_mbr.2]
  congr 1
  have hlink := h.link
  cases chain with
  | nil =>
    simp only [show (partTable mbr).find? (fun p => isExtended p.sysInd) = none from hlink]
    rfl
  | cons t rest =>
    obtain ⟨s, b⟩ := t
    obtain ⟨hs, hlink⟩ := hlink
    obtain ⟨p, hp, rfl⟩ := Option.map_eq_some_iff.mp hlink
    simp only [hp]
    exact printPartitionExtended_chain h.chain hs (by simpa using hd)

/-- **Partition lookup.** On a well-formed disk every partition is found under its
    number, with its absolute start and its size; every other number fails; and the
    listing shows the same partitions under the same numbers. -/
theorem partition_lookup (h : WellFormed dev.disk mbr chain) (hd : chain.length < depth) :
    (∀ q ∈ parts mbr chain, getPartitionInfoDos dev depth q.number = some (q.info dev)) ∧
      (∀ n, (∀ q ∈ parts mbr chain, q.number ≠ n) → getPartitionInfoDos dev depth n = none) ∧
      (printPartDos dev depth).filterMap PrintLine.part? = parts mbr chain := by
  refine ⟨fun q hq => ?_, fun n hn => ?_, printPartDos_parts h hd⟩
  · rw [getPartitionInfoDos_eq h hd]
    have hfirst : (parts mbr chain).find? (fun r => r.number = q.number) = some q := by
      obtain ⟨as, bs, hsplit⟩ := List.append_of_mem hq
      have hsort := parts_sorted mbr chain
      rw [hsplit] at hsort ⊢
      have hbefore : ∀ r ∈ as, r.number < q.number := fun r hr =>
        (List.pairwise_append.mp hsort).2.2 r hr q List.mem_cons_self
      have hskip : as.find? (fun r => r.number = q.number) = none := by
        rw [List.find?_eq_none]
        intro r hr
        simpa using Nat.ne_of_lt (hbefore r hr)
      simp [List.find?_append, hskip]
    rw [hfirst]
    rfl
  · rw [getPartitionInfoDos_eq h hd, List.find?_eq_none.mpr (by simpa using hn)]
    rfl

end Lookup

/-- A boot record with the given entries. -/
def bootSector (entries : List UInt8) : Mem UInt8 :=
  (Mem.write (fun _ => 0) dosPartTblOffset entries).write dosPartMagicOffset [0x55, 0xaa]

/-- An entry of a type, with its start and size below 256 sectors. -/
def entryBytes (sysInd start size : UInt8) : List UInt8 :=
  [0, 0, 0, 0, sysInd, 0, 0, 0, start, 0, 0, 0, size, 0, 0, 0]

/-- Slot 1 empty, a primary partition in slot 2, the extended one in slot 4. -/
def exampleMbr : Mem UInt8 :=
  bootSector (entryBytes 0 0 0 ++ entryBytes 0x83 2 8 ++ entryBytes 0 0 0 ++ entryBytes 5 20 60)

/-- Two extended boot records with one logical partition each. -/
def exampleChain : EbrChain :=
  [(20, bootSector (entryBytes 0x83 1 9 ++ entryBytes 5 30 20)), (50, bootSector (entryBytes 0x83 1 19))]

def exampleDev : BlockDevDesc where
  ifType := .other
  dev := 0
  lba := 80
  disk := fun s => if s = 0 then some exampleMbr
    else (exampleChain.find? fun t => t.1 = s).map Prod.snd

/-- Partitions 2, 5 and 6 at sectors 2, 21 and 51. -/
theorem partition_lookup_example :
    parts exampleMbr exampleChain = [⟨2, 2, 8⟩, ⟨5, 21, 9⟩, ⟨6, 51, 19⟩] ∧
      getPartitionInfoDos exampleDev 3 6 = some (Part.info exampleDev ⟨6, 51, 19⟩) := by
  have hparts : parts exampleMbr exampleChain = [⟨2, 2, 8⟩, ⟨5, 21, 9⟩, ⟨6, 51, 19⟩] := by
    decide +kernel
  have h : WellFormed exampleDev.disk exampleMbr exampleChain := by
    refine ⟨rfl, ⟨by decide +kernel, by decide +kernel, by decide +kernel, by decide +kernel⟩,
      ⟨by decide, by decide +kernel⟩, ?_⟩
    refine ⟨rfl, ⟨by decide +kernel, by decide +kernel, by decide +kernel, by decide +kernel⟩,
      ⟨by decide, by decide +kernel⟩, ?_⟩
    exact ⟨rfl, ⟨by decide +kernel, by decide +kernel, by decide +kernel, by decide +kernel⟩,
      (by decide +kernel : (partTable _).find? _ = none), trivial⟩
  exact ⟨hparts, (partition_lookup h (by decide)).1 ⟨6, 51, 19⟩ (by rw [hparts]; simp)⟩

end Uboot.Disk.PartDos
