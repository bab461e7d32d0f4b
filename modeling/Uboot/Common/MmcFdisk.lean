/-
  Uboot.Common.MmcFdisk

  The `fdisk -c` command of common/cmd_mmc_fdisk.c: from the block count of an
  SD/MMC card and the requested sizes it computes the four primary partitions and
  writes them into a master boot record.

  The source mixes `int` and `unsigned int`.  Block counts reach
  `make_mmc_partition` only when non-negative, so the geometry is kept in `Nat`;
  the two subtractions that can pass zero (`block_end`, `block_count` of the last
  partition) are `Int`, cut to 32 bits where the source stores them.
-/

import Uboot.Lib.Mem
import Uboot.Lib.Extent
import Mathlib.Tactic.IntervalCases

namespace Uboot.Common.MmcFdisk

open Uboot.Lib

/-! ## Constants -/

def blockSize : Nat := 512
def mb10 : Nat := 10 * 1024 * 1024
def mb300 : Nat := 300 * 1024 * 1024
def gb1 : Nat := 1024 * 1024 * 1024

/-- `_8_4GB`, the first block count that is addressed in LBA mode. -/
def gb8_4 : Nat := 1023 * 254 * 63

/-- `DISK_START`, the bytes reserved for the boot images (`RAW_AREA_SIZE`). -/
def diskStart : Nat := 16 * 1024 * 1024

/-- Conversion of a value to `unsigned int`. -/
def u32 (x : Int) : Nat := (x % 4294967296).toNat

/-- Conversion of a value to `int`. -/
def i32 (x : Int) : Int := Int.bmod x 4294967296

theorem u32_natCast (x : Nat) : u32 x = x % 4294967296 := by simp only [u32]; omega

/-- A value stored in an `int` keeps its 32-bit pattern. -/
theorem u32_i32 (x : Int) : u32 (i32 x) = u32 x := by
  simp only [i32, u32, Int.bmod]
  split <;> omega

/-! ## Geometry -/

inductive AddrMode
  | chs
  | lba
  deriving DecidableEq, Repr

/-- The geometry of the card: `SDInfo`. -/
structure SDInfo where
  cStart : Nat
  hStart : Nat
  sStart : Nat
  cEnd : Nat
  hEnd : Nat
  sEnd : Nat
  availableBlock : Nat
  unit : Nat
  totalBlockCount : Nat
  addrMode : AddrMode
  deriving DecidableEq, Repr

/-- The best geometry found so far by the search of `get_SDInfo`. -/
structure Search where
  diffMin : Nat
  cEnd : Nat
  hEnd : Nat
  sEnd : Nat
  deriving DecidableEq, Repr

/-- One pass of the inner loop: keep `(H, S)` when its cylinder count is at most
    1023 and no further from 1023 than the best so far. -/
def searchStep (blockCount : Nat) (b : Search) (h s : Nat) : Search :=
  let c := blockCount / (h * s)
  if c ≤ 1023 then
    let diff := 1023 - c
    if diff ≤ b.diffMin then { diffMin := diff, cEnd := c, hEnd := h, sEnd := s } else b
  else b

/-- The two nested loops over `H` in 1..255 and `S` in 1..63. -/
def search (blockCount : Nat) : Search :=
  (List.range' 1 255).foldl
    (fun b h => (List.range' 1 63).foldl (fun b s => searchStep blockCount b h s) b)
    { diffMin := 1023, cEnd := 0, hEnd := 0, sEnd := 0 }

def getSDInfo (blockCount : Nat) : SDInfo :=
  let mode := if blockCount ≥ gb8_4 then AddrMode.lba else AddrMode.chs
  let b := search blockCount
  let (c, h, s) := match mode with
    | .chs => (b.cEnd, b.hEnd, b.sEnd)
    | .lba => (1023, 254, 63)
  { cStart := 0, hStart := 1, sStart := 1
    cEnd := c, hEnd := h, sEnd := s
    totalBlockCount := blockCount
    availableBlock := c * h * s
    unit := h * s
    addrMode := mode }

/-- Blocks for `length` bytes: whole units in CHS mode (always one more than
    needed), whole blocks in LBA mode.  The parameter is an `unsigned int`, so a
    caller's wider value arrives cut to 32 bits. -/
def calcUnit (length : Nat) (sd : SDInfo) : Nat :=
  let length := u32 length
  match sd.addrMode with
  | .chs => u32 ((length / blockSize / sd.unit + 1) * sd.unit : Nat)
  | .lba => length / blockSize

/-! ## Partitions -/

/-- `PartitionInfo`. -/
structure PartitionInfo where
  bootable : Nat
  partitionId : Nat
  cStart : Int
  hStart : Int
  sStart : Int
  cEnd : Int
  hEnd : Int
  sEnd : Int
  blockStart : Int
  blockCount : Int
  blockEnd : Int
  deriving DecidableEq, Repr

/-- The `count` argument of `make_partitionInfo`: a number of blocks, or
    `BLOCK_END` for "up to 10 MB below the end". -/
inductive Count
  | blocks (n : Nat)
  | blockEnd
  deriving DecidableEq, Repr

def makePartitionInfo (bootable partitionId lbaStart : Nat) (count : Count) (sd : SDInfo) :
    PartitionInfo :=
  let blockStart : Int := i32 lbaStart
  match sd.addrMode with
  | .chs =>
    let unit : Int := sd.hEnd * sd.sEnd
    let temp := blockStart.tmod unit
    let cStart := blockStart.tdiv unit
    let hStart := temp.tdiv sd.sEnd
    let sStart := temp.tmod sd.sEnd + 1
    match count with
    | .blockEnd =>
      let blockEnd := i32 (sd.cEnd * sd.hEnd * sd.sEnd - calcUnit mb10 sd - 1)
      { bootable, partitionId, cStart, hStart, sStart, blockStart, blockEnd
        blockCount := i32 (blockEnd - blockStart + 1)
        cEnd := blockEnd.tdiv sd.unit
        hEnd := sd.hEnd - 1
        sEnd := sd.sEnd }
    | .blocks n =>
      let blockEnd := i32 (blockStart + i32 n - 1)
      let temp : Int := u32 (blockEnd.tmod sd.unit)
      { bootable, partitionId, cStart, hStart, sStart, blockStart, blockEnd
        blockCount := i32 n
        cEnd := blockEnd.tdiv sd.unit
        hEnd := temp.tdiv sd.sEnd
        sEnd := temp.tmod sd.sEnd + 1 }
  | .lba =>
    let blockEnd := match count with
      | .blockEnd => i32 (sd.totalBlockCount - calcUnit mb10 sd - 1)
      | .blocks n => i32 (blockStart + i32 n - 1)
    let blockCount := match count with
      | .blockEnd => i32 (blockEnd - blockStart + 1)
      | .blocks n => i32 n
    { bootable, partitionId, blockStart, blockCount, blockEnd
      cStart := 0, hStart := 1, sStart := 1
      cEnd := 1023, hEnd := 254, sEnd := 63 }

/-! ## Encoding -/

/-- An `int` stored through an `unsigned char` pointer. -/
def byte (x : Int) : UInt8 := UInt8.ofNat (u32 x)

def encodeChs (c h s : Int) : List UInt8 :=
  [byte h, byte (s + ((u32 c &&& 0x300) >>> 2 : Nat)), byte (u32 c &&& 0xFF : Nat)]

/-- The 16 bytes of a partition table entry. -/
def encodePartitionInfo (p : PartitionInfo) : List UInt8 :=
  byte p.bootable :: encodeChs p.cStart p.hStart p.sStart ++
    (byte p.partitionId :: encodeChs p.cEnd p.hEnd p.sEnd) ++
    le32 (u32 p.blockStart) ++ le32 (u32 p.blockCount)

@[simp] theorem encodePartitionInfo_length (p : PartitionInfo) :
    (encodePartitionInfo p).length = 16 := rfl

/-! ## The command -/

/-- What the command line asks for: `fdisk -c dev` takes the built-in sizes (the
    user partition depends on whether `dev` is the TF card, device 1),
    `fdisk -c dev sys user cache` gives the three sizes in MB. -/
inductive Request
  | builtin (tfCard : Bool)
  | sizes (sys user cache : Nat)
  deriving DecidableEq, Repr

/-- The byte lengths the three sizes stand for. -/
def Request.bytes : Request → Nat × Nat × Nat
  | .builtin tf => (gb1, if tf then mb300 else gb1, mb300)
  | .sizes sys user cache => (sys * 1024 * 1024, user * 1024 * 1024, cache * 1024 * 1024)

/-- First blocks of the four partitions, `block_start` at each call. -/
def starts (sd : SDInfo) (req : Request) : Nat × Nat × Nat × Nat :=
  let s0 := calcUnit diskStart sd
  let s1 := u32 (s0 + calcUnit req.bytes.1 sd : Nat)
  let s2 := u32 (s1 + calcUnit req.bytes.2.1 sd : Nat)
  let s3 := u32 (s2 + calcUnit req.bytes.2.2 sd : Nat)
  (s0, s1, s2, s3)

/-- The end of `make_mmc_partition`: a cleared sector with the signature and the
    four entries, the FAT partition in the first slot. -/
def putEntries (p0 p1 p2 p3 : PartitionInfo) : Mem UInt8 :=
  let mbr : Mem UInt8 := Mem.fill (fun _ => 0) 0 512 0
  let mbr := (mbr.write 510 [0x55]).write 511 [0xAA]
  (((mbr.write 0x1CE (encodePartitionInfo p0)).write 0x1DE (encodePartitionInfo p1)).write
    0x1EE (encodePartitionInfo p2)).write 0x1BE (encodePartitionInfo p3)

/-- The master boot record `make_mmc_partition` leaves in the caller's buffer. -/
def makeMmcPartition (totalBlockCount : Nat) (req : Request) : Mem UInt8 :=
  let sd := getSDInfo totalBlockCount
  let s := starts sd req
  putEntries
    (makePartitionInfo 0x00 0x83 s.1 (.blocks (calcUnit req.bytes.1 sd)) sd)
    (makePartitionInfo 0x00 0x83 s.2.1 (.blocks (calcUnit req.bytes.2.1 sd)) sd)
    (makePartitionInfo 0x00 0x83 s.2.2.1 (.blocks (calcUnit req.bytes.2.2 sd)) sd)
    (makePartitionInfo 0x00 0x0C s.2.2.2 .blockEnd sd)

/-- The blocks of the table entry at byte `off`, as `decode_partitionInfo` reads them. -/
def decodePartitionInfo (mbr : Mem UInt8) (off : Nat) : Extent :=
  { start := rd32 mbr (off + 8), len := rd32 mbr (off + 12) }

/-- The four entries in the order the code lays them out on the card:
    system, userdata, cache, and the FAT partition, which has the first slot. -/
def entries (mbr : Mem UInt8) : List Extent :=
  [0x1CE, 0x1DE, 0x1EE, 0x1BE].map (decodePartitionInfo mbr)

/-! ## What the search for a geometry finds -/

/-- A geometry the search has settled on. -/
structure Found (n : Nat) (b : Search) : Prop where
  h_pos : 1 ≤ b.hEnd
  h_le : b.hEnd ≤ 255
  s_pos : 1 ≤ b.sEnd
  s_le : b.sEnd ≤ 63
  c_eq : b.cEnd = n / (b.hEnd * b.sEnd)

theorem searchStep_found {n : Nat} {b : Search} {h s : Nat} (hh : 1 ≤ h ∧ h ≤ 255)
    (hs : 1 ≤ s ∧ s ≤ 63) (hb : b.diffMin = 1023 ∨ Found n b) :
    (searchStep n b h s).diffMin = 1023 ∨ Found n (searchStep n b h s) := by
  simp only [searchStep]
  split
  · split
    · exact .inr ⟨hh.1, hh.2, hs.1, hs.2, rfl⟩
    · exact hb
  · exact hb

/-- A pass that meets the cylinder bound settles on a geometry, unless an
    earlier one has. -/
theorem searchStep_settles {n : Nat} {b : Search} {h s : Nat} (hh : 1 ≤ h ∧ h ≤ 255)
    (hs : 1 ≤ s ∧ s ≤ 63) (hc : n / (h * s) ≤ 1023) (hb : b.diffMin = 1023 ∨ Found n b) :
    Found n (searchStep n b h s) := by
  simp only [searchStep, if_pos hc]
  split
  · exact ⟨hh.1, hh.2, hs.1, hs.2, rfl⟩
  · rcases hb with hb | hb
    · have := Nat.sub_le 1023 (n / (h * s))
      omega
    · exact hb

theorem foldl_found {α : Type} {n : Nat} {f : Search → α → Search} {P : α → Prop}
    (hf : ∀ b a, P a → b.diffMin = 1023 ∨ Found n b →
      (f b a).diffMin = 1023 ∨ Found n (f b a))
    (l : List α) (hl : ∀ a ∈ l, P a) (b : Search) (hb : b.diffMin = 1023 ∨ Found n b) :
    (l.foldl f b).diffMin = 1023 ∨ Found n (l.foldl f b) := by
  induction l generalizing b with
  | nil => exact hb
  | cons a l ih =>
    exact ih (fun x hx => hl x (List.mem_cons_of_mem _ hx)) _ (hf b a (hl a List.mem_cons_self) hb)

theorem inner_found {n : Nat} {h : Nat} (hh : 1 ≤ h ∧ h ≤ 255) (l : List Nat)
    (hl : ∀ s ∈ l, 1 ≤ s ∧ s ≤ 63) (b : Search) (hb : b.diffMin = 1023 ∨ Found n b) :
    (l.foldl (fun b s => searchStep n b h s) b).diffMin = 1023 ∨
      Found n (l.foldl (fun b s => searchStep n b h s) b) :=
  foldl_found (P := fun s => 1 ≤ s ∧ s ≤ 63)
    (fun _ _ hs hb => searchStep_found hh hs hb) l hl b hb

/-- Below 8.4 GB the search ends with a geometry: its last pass (255 heads, 63
    sectors) meets the cylinder bound. -/
theorem search_found {n : Nat} (hn : n < gb8_4) : Found n (search n) := by
  have hsplit : List.range' 1 255 = List.range' 1 254 ++ [255] := List.range'_1_concat ..
  have hsplit' : List.range' 1 63 = List.range' 1 62 ++ [63] := List.range'_1_concat ..
  have hmem : ∀ k, ∀ x ∈ List.range' 1 k, 1 ≤ x ∧ x ≤ k := by
    intro k x hx
    have := List.mem_range'_1.mp hx
    omega
  have houter := foldl_found (n := n) (P := fun h => 1 ≤ h ∧ h ≤ 255)
    (f := fun b h => (List.range' 1 63).foldl (fun b s => searchStep n b h s) b)
    (fun b h hh hb => inner_found hh _ (hmem 63) b hb)
    (List.range' 1 254) (fun h hh => by have := hmem 254 h hh; omega)
    { diffMin := 1023, cEnd := 0, hEnd := 0, sEnd := 0 } (.inl rfl)
  rw [search, hsplit, List.foldl_append, List.foldl_cons, List.foldl_nil]
  nth_rewrite 2 [hsplit']
  rw [List.foldl_append, List.foldl_cons, List.foldl_nil]
  refine searchStep_settles (by omega) (by omega) ?_ ?_
  · have : n / (255 * 63) < 1023 * 254 * 63 / (255 * 63) + 1 :=
      Nat.lt_succ_of_le (Nat.div_le_div_right (Nat.le_of_lt hn))
    omega
  · exact inner_found (by omega) _ (fun s hs => by have := hmem 62 s hs; omega) _ houter

/-! ## The geometry in the two modes -/

theorem getSDInfo_lba {n : Nat} (hn : gb8_4 ≤ n) :
    getSDInfo n =
      { cStart := 0, hStart := 1, sStart := 1, cEnd := 1023, hEnd := 254, sEnd := 63
        availableBlock := gb8_4, unit := 254 * 63, totalBlockCount := n, addrMode := .lba } := by
  have hmode : (if n ≥ gb8_4 then AddrMode.lba else AddrMode.chs) = .lba := if_pos hn
  simp only [getSDInfo, hmode]
  rfl

theorem getSDInfo_chs {n : Nat} (hn : n < gb8_4) :
    getSDInfo n =
      { cStart := 0, hStart := 1, sStart := 1
        cEnd := (search n).cEnd, hEnd := (search n).hEnd, sEnd := (search n).sEnd
        availableBlock := (search n).cEnd * (search n).hEnd * (search n).sEnd
        unit := (search n).hEnd * (search n).sEnd, totalBlockCount := n
        addrMode := .chs } := by
  have hmode : (if n ≥ gb8_4 then AddrMode.lba else AddrMode.chs) = .chs :=
    if_neg (Nat.not_le.mpr hn)
  simp only [getSDInfo, hmode]

/-- The block the last partition is measured back from: the last whole unit in
    CHS mode, the end of the card in LBA mode. -/
def limit (sd : SDInfo) : Nat :=
  match sd.addrMode with
  | .chs => sd.cEnd * sd.hEnd * sd.sEnd
  | .lba => sd.totalBlockCount

/-- The last whole unit lies on the card. -/
theorem limit_le (n : Nat) : limit (getSDInfo n) ≤ n := by
  by_cases hn : n < gb8_4
  · have hf := search_found hn
    rw [getSDInfo_chs hn]
    simp only [limit]
    rw [hf.c_eq, Nat.mul_assoc]
    exact Nat.div_mul_le_self ..
  · rw [getSDInfo_lba (by omega)]
    exact Nat.le_refl n

theorem calcUnit_lba {sd : SDInfo} (h : sd.addrMode = .lba) (x : Nat) :
    calcUnit x sd = x % 4294967296 / 512 := by
  simp only [calcUnit, h, u32_natCast, blockSize]

theorem calcUnit_chs {sd : SDInfo} (h : sd.addrMode = .chs) (hu : sd.unit ≤ 16065)
    (x : Nat) : calcUnit x sd = (x % 4294967296 / 512 / sd.unit + 1) * sd.unit := by
  have hle : x % 4294967296 / 512 / sd.unit * sd.unit ≤ x % 4294967296 / 512 :=
    Nat.div_mul_le_self ..
  simp only [calcUnit, h, u32_natCast, blockSize]
  apply Nat.mod_eq_of_lt
  rw [Nat.add_mul]
  omega

/-- An area never reaches 2^23 blocks and one more unit. -/
theorem calcUnit_le (n x : Nat) : calcUnit x (getSDInfo n) ≤ 8388608 + 16065 := by
  by_cases hn : n < gb8_4
  · have hf := search_found hn
    have hu : (search n).hEnd * (search n).sEnd ≤ 255 * 63 := Nat.mul_le_mul hf.h_le hf.s_le
    rw [getSDInfo_chs hn, calcUnit_chs rfl hu, Nat.add_mul]
    have := Nat.div_mul_le_self (x % 4294967296 / 512) ((search n).hEnd * (search n).sEnd)
    simp only
    omega
  · rw [getSDInfo_lba (by omega), calcUnit_lba rfl]
    omega

/-- The raw area is at least as long as the boot images need. -/
theorem le_calcUnit_diskStart (n : Nat) : 32768 ≤ calcUnit diskStart (getSDInfo n) := by
  by_cases hn : n < gb8_4
  · have hf := search_found hn
    have hu : (search n).hEnd * (search n).sEnd ≤ 255 * 63 := Nat.mul_le_mul hf.h_le hf.s_le
    have hpos : 0 < (search n).hEnd * (search n).sEnd := Nat.mul_pos hf.h_pos hf.s_pos
    rw [getSDInfo_chs hn, calcUnit_chs rfl hu, Nat.mul_comm]
    exact (Nat.lt_mul_div_succ (diskStart % 4294967296 / 512) hpos).le
  · rw [getSDInfo_lba (by omega), calcUnit_lba rfl]
    decide

/-! ## The entries that are written -/

theorem u32_lt (x : Int) : u32 x < 4294967296 := by simp only [u32]; omega

/-- A table entry reads back as the start and count it was made from. -/
theorem decodePartitionInfo_of_agree (mbr : Mem UInt8) (off : Nat) (p : PartitionInfo)
    (h : ∀ i (hi : i < (encodePartitionInfo p).length), mbr (off + i) = (encodePartitionInfo p)[i]) :
    decodePartitionInfo mbr off = ⟨u32 p.blockStart, u32 p.blockCount⟩ := by
  have hstart : rd32 mbr (off + 8) = u32 p.blockStart % 4294967296 := by
    apply rd32_le32
    intro i hi
    rw [le32_length] at hi
    rw [Nat.add_assoc, h (8 + i) (by simp only [encodePartitionInfo_length]; omega)]
    interval_cases i <;> rfl
  have hcount : rd32 mbr (off + 12) = u32 p.blockCount % 4294967296 := by
    apply rd32_le32
    intro i hi
    rw [le32_length] at hi
    rw [Nat.add_assoc, h (12 + i) (by simp only [encodePartitionInfo_length]; omega)]
    interval_cases i <;> rfl
  rw [decodePartitionInfo, hstart, hcount, Nat.mod_eq_of_lt (u32_lt _), Nat.mod_eq_of_lt (u32_lt _)]

theorem makePartitionInfo_blocks (b id s c : Nat) (sd : SDInfo) (hs : s < 2147483648)
    (hc : c < 2147483648) :
    u32 (makePartitionInfo b id s (.blocks c) sd).blockStart = s ∧
      u32 (makePartitionInfo b id s (.blocks c) sd).blockCount = c := by
  have hs' : u32 (i32 s) = s := by rw [u32_i32, u32_natCast]; omega
  have hc' : u32 (i32 c) = c := by rw [u32_i32, u32_natCast]; omega
  cases hm : sd.addrMode <;> simp only [makePartitionInfo, hm, hs', hc', and_self]

/-- The last partition: its count is what is left between its start and the
    10 MB below the limit, and a negative rest shows as its 32-bit pattern. -/
theorem makePartitionInfo_blockEnd (b id s : Nat) (sd : SDInfo) (hs : s < 2147483648) :
    u32 (makePartitionInfo b id s .blockEnd sd).blockStart = s ∧
      u32 (makePartitionInfo b id s .blockEnd sd).blockCount =
        u32 (limit sd - calcUnit mb10 sd - s) := by
  have hs' : u32 (i32 s) = s := by rw [u32_i32, u32_natCast]; omega
  have hmod (x : Int) : u32 (i32 (i32 (x - 1) - i32 s + 1)) = u32 (x - s) := by
    rw [u32_i32]
    simp only [i32, u32, Int.bmod]
    split <;> split <;> omega
  cases hm : sd.addrMode
  · have := hmod (sd.cEnd * sd.hEnd * sd.sEnd - calcUnit mb10 sd)
    simp only [makePartitionInfo, hm, hs', limit, this]
    push_cast
    exact ⟨trivial, rfl⟩
  · have := hmod (sd.totalBlockCount - calcUnit mb10 sd)
    simp only [makePartitionInfo, hm, hs', limit, this, and_self]

/-- The blocks of a partition as they stand in the table. -/
def PartitionInfo.extent (p : PartitionInfo) : Extent := ⟨u32 p.blockStart, u32 p.blockCount⟩

/-- The entries are written one after the other, none over another. -/
theorem entries_putEntries (p0 p1 p2 p3 : PartitionInfo) :
    entries (putEntries p0 p1 p2 p3) = [p0.extent, p1.extent, p2.extent, p3.extent] := by
  have outside {m : Mem UInt8} {p : PartitionInfo} {off x : Nat} (h : x < off ∨ off + 16 ≤ x) :
      m.write off (encodePartitionInfo p) x = m x := Mem.write_outside _ h
  have d0 := decodePartitionInfo_of_agree (putEntries p0 p1 p2 p3) 0x1CE p0
    (fun i hi => by
      rw [encodePartitionInfo_length] at hi
      rw [putEntries, outside (by omega), outside (by omega), outside (by omega),
        Mem.write_inside])
  have d1 := decodePartitionInfo_of_agree (putEntries p0 p1 p2 p3) 0x1DE p1
    (fun i hi => by
      rw [encodePartitionInfo_length] at hi
      rw [putEntries, outside (by omega), outside (by omega), Mem.write_inside])
  have d2 := decodePartitionInfo_of_agree (putEntries p0 p1 p2 p3) 0x1EE p2
    (fun i hi => by
      rw [encodePartitionInfo_length] at hi
      rw [putEntries, outside (by omega), Mem.write_inside])
  have d3 := decodePartitionInfo_of_agree (putEntries p0 p1 p2 p3) 0x1BE p3
    (fun i hi => by rw [putEntries, Mem.write_inside])
  simp only [entries, List.map_cons, List.map_nil, d0, d1, d2, d3, PartitionInfo.extent]

/-- Four areas laid end to end, the last one cut by the limit. -/
structure Areas where
  raw : Nat
  system : Nat
  user : Nat
  cache : Nat
  deriving DecidableEq, Repr

/-- The areas a request asks for, rounded to the card's units. -/
def areas (n : Nat) (req : Request) : Areas :=
  let sd := getSDInfo n
  { raw := calcUnit diskStart sd
    system := calcUnit req.bytes.1 sd
    user := calcUnit req.bytes.2.1 sd
    cache := calcUnit req.bytes.2.2 sd }

/-- The first block after the cache partition. -/
def Areas.fatStart (a : Areas) : Nat := a.raw + a.system + a.user + a.cache

theorem fatStart_le (n : Nat) (req : Request) : (areas n req).fatStart ≤ 4 * 8404673 := by
  have h0 := calcUnit_le n diskStart
  have h1 := calcUnit_le n req.bytes.1
  have h2 := calcUnit_le n req.bytes.2.1
  have h3 := calcUnit_le n req.bytes.2.2
  simp only [areas, Areas.fatStart]
  omega

theorem starts_eq (n : Nat) (req : Request) :
    let a := areas n req
    starts (getSDInfo n) req =
      (a.raw, a.raw + a.system, a.raw + a.system + a.user, a.fatStart) := by
  intro a
  have hle := fatStart_le n req
  simp only [areas, Areas.fatStart] at hle
  simp only [starts, u32_natCast, a, areas, Areas.fatStart, Prod.mk.injEq, true_and]
  omega

/-- The blocks the four entries name. -/
theorem entries_makeMmcPartition (n : Nat) (req : Request) :
    let a := areas n req
    entries (makeMmcPartition n req) =
      [⟨a.raw, a.system⟩, ⟨a.raw + a.system, a.user⟩, ⟨a.raw + a.system + a.user, a.cache⟩,
        ⟨a.fatStart,
          u32 (limit (getSDInfo n) - calcUnit mb10 (getSDInfo n) - a.fatStart)⟩] := by
  intro a
  have hle : a.raw + a.system + a.user + a.cache ≤ 4 * 8404673 := fatStart_le n req
  obtain ⟨b0, c0⟩ := makePartitionInfo_blocks 0x00 0x83 a.raw a.system (getSDInfo n)
    (by omega) (by omega)
  obtain ⟨b1, c1⟩ := makePartitionInfo_blocks 0x00 0x83 (a.raw + a.system) a.user (getSDInfo n)
    (by omega) (by omega)
  obtain ⟨b2, c2⟩ := makePartitionInfo_blocks 0x00 0x83 (a.raw + a.system + a.user) a.cache
    (getSDInfo n) (by omega) (by omega)
  obtain ⟨b3, c3⟩ := makePartitionInfo_blockEnd 0x00 0x0C a.fatStart (getSDInfo n)
    (by simp only [Areas.fatStart]; omega)
  simp only [makeMmcPartition, entries_putEntries, starts_eq n req, PartitionInfo.extent]
  simp only [a, areas] at b0 c0 b1 c1 b2 c2 b3 c3 ⊢
  simp only [b0, c0, b1, c1, b2, c2, b3, c3]

/-! ## When the table is usable -/

/-- A usable table: no entry empty, the entries in order and disjoint, all of them
    after the raw area and on the card. -/
structure LaidOut (n : Nat) (t : List Extent) : Prop where
  nonempty : ∀ e ∈ t, 0 < e.len
  ordered : t.Pairwise Extent.Before
  disjoint : t.Pairwise fun a b => Disjoint a.cells b.cells
  afterRaw : ∀ e ∈ t, diskStart / blockSize ≤ e.start
  onCard : ∀ e ∈ t, e.stop ≤ n

/-- The request fits the card.  From 8.4 GB on: each size, cut to 32 bits of bytes,
    is at least a block, and the raw area, the sizes and the 10 MB kept free at the
    end leave a block for the FAT partition.  Below: the same areas, each rounded up
    past a whole unit, leave a unit. -/
def Fits (n : Nat) (req : Request) : Prop :=
  let b0 := req.bytes.1 % 4294967296 / 512
  let b1 := req.bytes.2.1 % 4294967296 / 512
  let b2 := req.bytes.2.2 % 4294967296 / 512
  let u := (search n).hEnd * (search n).sEnd
  if gb8_4 ≤ n then
    0 < b0 ∧ 0 < b1 ∧ 0 < b2 ∧ 32768 + b0 + b1 + b2 + 20480 < n
  else
    32768 / u + b0 / u + b1 / u + b2 / u + 20480 / u + 5 < n / u

/-- The table is usable iff none of the three areas is empty and the limit leaves
    a block for the FAT partition: a negative rest becomes a count near 2^32. -/
theorem laidOut_iff_areas {n : Nat} (hn : n < 2147483648) (req : Request) :
    LaidOut n (entries (makeMmcPartition n req)) ↔
      0 < (areas n req).system ∧ 0 < (areas n req).user ∧ 0 < (areas n req).cache ∧
        (areas n req).fatStart + calcUnit mb10 (getSDInfo n) < limit (getSDInfo n) := by
  have hlim := limit_le n
  have hmb := calcUnit_le n mb10
  have hraw : 32768 ≤ (areas n req).raw := le_calcUnit_diskStart n
  have hfat := fatStart_le n req
  rw [entries_makeMmcPartition]
  generalize areas n req = a at *
  generalize calcUnit mb10 (getSDInfo n) = r at *
  generalize limit (getSDInfo n) = l at *
  simp only [Areas.fatStart] at *
  constructor
  · intro h
    obtain ⟨h0, h1, h2, h3, -⟩ := List.forall_mem_cons.mp h.nonempty |>.imp_right fun h =>
      List.forall_mem_cons.mp h |>.imp_right fun h =>
        List.forall_mem_cons.mp h |>.imp_right List.forall_mem_cons.mp
    have hon := h.onCard ⟨a.raw + a.system + a.user + a.cache,
      u32 (l - r - (a.raw + a.system + a.user + a.cache : Nat))⟩ (by simp)
    simp only [Extent.stop, u32] at h3 hon
    refine ⟨h0, h1, h2, ?_⟩
    omega
  · rintro ⟨h0, h1, h2, h3⟩
    have hcount : u32 (l - r - (a.raw + a.system + a.user + a.cache : Nat)) =
        l - r - (a.raw + a.system + a.user + a.cache) := by
      simp only [u32]
      omega
    have hord : List.Pairwise Extent.Before
        [⟨a.raw, a.system⟩, ⟨a.raw + a.system, a.user⟩, ⟨a.raw + a.system + a.user, a.cache⟩,
          ⟨a.raw + a.system + a.user + a.cache,
            u32 (l - r - (a.raw + a.system + a.user + a.cache : Nat))⟩] := by
      simp [Extent.Before, Extent.stop]
      omega
    refine ⟨?_, hord, hord.imp Extent.Before.disjoint, ?_, ?_⟩
    · simp only [List.forall_mem_cons, hcount]
      refine ⟨h0, h1, h2, ?_, by simp⟩
      omega
    · simp [diskStart, blockSize]
      omega
    · simp only [List.forall_mem_cons, Extent.stop, hcount]
      refine ⟨?_, ?_, ?_, ?_, by simp⟩ <;> omega

/-- The code writes a usable partition table exactly when the request fits. -/
theorem laidOut_iff_fits {n : Nat} (hn : n < 2147483648) (req : Request) :
    LaidOut n (entries (makeMmcPartition n req)) ↔ Fits n req := by
  have h0 : diskStart % 4294967296 / 512 = 32768 := by decide
  have h1 : mb10 % 4294967296 / 512 = 20480 := by decide
  rw [laidOut_iff_areas hn]
  by_cases hm : gb8_4 ≤ n
  · have hunit (x : Nat) : calcUnit x (getSDInfo n) = x % 4294967296 / 512 := by
      rw [getSDInfo_lba hm, calcUnit_lba rfl]
    have hlimit : limit (getSDInfo n) = n := by rw [getSDInfo_lba hm]; rfl
    simp only [Fits, if_pos hm, areas, Areas.fatStart, hunit, hlimit, h0, h1]
  · have hlt : n < gb8_4 := Nat.lt_of_not_le hm
    have hf := search_found hlt
    have hpos : 0 < (search n).hEnd * (search n).sEnd := Nat.mul_pos hf.h_pos hf.s_pos
    have hu : (search n).hEnd * (search n).sEnd ≤ 255 * 63 := Nat.mul_le_mul hf.h_le hf.s_le
    have hunit (x : Nat) : calcUnit x (getSDInfo n) =
        (x % 4294967296 / 512 / ((search n).hEnd * (search n).sEnd) + 1) *
          ((search n).hEnd * (search n).sEnd) := by
      rw [getSDInfo_chs hlt, calcUnit_chs rfl hu]
    have hlimit : limit (getSDInfo n) =
        n / ((search n).hEnd * (search n).sEnd) * ((search n).hEnd * (search n).sEnd) := by
      rw [getSDInfo_chs hlt]
      simp only [limit]
      rw [hf.c_eq, Nat.mul_assoc]
    simp only [Fits, if_neg hm, areas, Areas.fatStart, hunit, hlimit, h0, h1]
    generalize (search n).hEnd * (search n).sEnd = u at *
    rw [← Nat.add_mul, ← Nat.add_mul, ← Nat.add_mul, ← Nat.add_mul, Nat.mul_lt_mul_right hpos]
    simp only [Nat.mul_pos_iff_of_pos_right hpos, Nat.succ_pos, true_and]
    omega

/-- A 16 GB card and a request that fits it. -/
theorem laidOut_iff_fits_16GB :
    LaidOut 30535680 (entries (makeMmcPartition 30535680 (.sizes 1024 2048 300))) :=
  (laidOut_iff_fits (by decide) (.sizes 1024 2048 300)).mpr (by
    rw [Fits, if_pos (by decide)]
    decide)

/-- A system partition of 4096 MB is cut to nothing on its way into `calc_unit`,
    although a 16 GB card has room for it. -/
theorem system_4096MB_empty :
    ¬ LaidOut 30535680 (entries (makeMmcPartition 30535680 (.sizes 4096 1024 300))) := by
  intro h
  have h0 := h.nonempty ⟨32768, 0⟩ (by decide +kernel)
  exact absurd h0 (by decide)

/-! ## The size of one partition -/

/-- `count` blocks hold `mb` megabytes, and less than a cylinder besides. -/
def Covers (sd : SDInfo) (mb count : Nat) : Prop :=
  mb * 2048 ≤ count ∧ count < mb * 2048 + sd.unit

instance (sd : SDInfo) (mb count : Nat) : Decidable (Covers sd mb count) :=
  inferInstanceAs (Decidable (_ ∧ _))

/-- The size is below 4 GB, and on a card addressed by cylinders it is not a whole
    number of them. -/
def SizeFits (n mb : Nat) : Prop :=
  mb < 4096 ∧ (n < gb8_4 → ¬ (getSDInfo n).unit ∣ mb * 2048)

/-- The megabytes as blocks, once their bytes are cut to 32 bits. -/
theorem mb_blocks (mb : Nat) : mb * 1024 * 1024 % 4294967296 / 512 = mb % 4096 * 2048 := by
  omega

/-- Rounding past a whole unit leaves less than a unit only where there is a rest. -/
theorem round_lt_iff (u b : Nat) :
    (b / u + 1) * u < b + u ↔ ¬ u ∣ b := by
  have hdiv : u * (b / u) + b % u = b := Nat.div_add_mod b u
  have hcomm : (b / u + 1) * u = u * (b / u) + u := by rw [Nat.add_mul, Nat.one_mul, Nat.mul_comm]
  rw [hcomm, Nat.dvd_iff_mod_eq_zero]
  omega

theorem lt_round {u : Nat} (hu : 0 < u) (b : Nat) : b < (b / u + 1) * u := by
  rw [Nat.mul_comm]
  exact Nat.lt_mul_div_succ b hu

theorem covers_calcUnit_iff (n mb : Nat) :
    Covers (getSDInfo n) mb (calcUnit (mb * 1024 * 1024) (getSDInfo n)) ↔ SizeFits n mb := by
  by_cases hm : gb8_4 ≤ n
  · -- whole blocks: nothing is lost but what the 32 bits cut off
    have hunit : (getSDInfo n).unit = 254 * 63 := by rw [getSDInfo_lba hm]
    have hcount : calcUnit (mb * 1024 * 1024) (getSDInfo n) = mb % 4096 * 2048 := by
      rw [getSDInfo_lba hm, calcUnit_lba rfl, mb_blocks]
    rw [Covers, SizeFits, hcount, hunit]
    omega
  · have hlt : n < gb8_4 := Nat.lt_of_not_le hm
    have hf := search_found hlt
    have hpos : 0 < (search n).hEnd * (search n).sEnd := Nat.mul_pos hf.h_pos hf.s_pos
    have hle : (search n).hEnd * (search n).sEnd ≤ 255 * 63 := Nat.mul_le_mul hf.h_le hf.s_le
    have hunit : (getSDInfo n).unit = (search n).hEnd * (search n).sEnd := by rw [getSDInfo_chs hlt]
    have hcount : calcUnit (mb * 1024 * 1024) (getSDInfo n) =
        (mb % 4096 * 2048 / ((search n).hEnd * (search n).sEnd) + 1) *
          ((search n).hEnd * (search n).sEnd) := by
      rw [getSDInfo_chs hlt, calcUnit_chs rfl hle, mb_blocks]
    rw [Covers, SizeFits, hcount, hunit]
    generalize (search n).hEnd * (search n).sEnd = u at *
    have hround := round_lt_iff u (mb % 4096 * 2048)
    have hup := lt_round hpos (mb % 4096 * 2048)
    have hdown : mb % 4096 * 2048 / u * u ≤ mb % 4096 * 2048 := Nat.div_mul_le_self ..
    by_cases hmb : mb < 4096
    · rw [Nat.mod_eq_of_lt hmb] at hround hup ⊢
      rw [hround]
      exact ⟨fun h => ⟨hmb, fun _ => h.2⟩, fun h => ⟨hup.le, h.2 hlt⟩⟩
    · -- at least 4 GB are missing, more than a unit makes up for
      rw [Nat.add_mul]
      omega

/-- **The size that is asked for.** Each of the three partitions written into the
    table covers its size, with less than a cylinder to spare, exactly when the size
    stays below 4096 MB and is not a whole number of cylinders. -/
theorem covers_iff_sizeFits (n sys user cache : Nat) :
    ∀ p ∈ [sys, user, cache].zip (entries (makeMmcPartition n (.sizes sys user cache))),
      Covers (getSDInfo n) p.1 p.2.len ↔ SizeFits n p.1 := by
  rw [entries_makeMmcPartition]
  simp only [List.zip_cons_cons, List.forall_mem_cons, areas, Request.bytes]
  exact ⟨covers_calcUnit_iff n sys, covers_calcUnit_iff n user, covers_calcUnit_iff n cache, by simp⟩

/-- The system partition of 1 GB on a 16 GB card. -/
theorem covers_16GB : Covers (getSDInfo 30535680) 1024 2097152 :=
  (covers_iff_sizeFits 30535680 1024 2048 300 (1024, ⟨32768, 2097152⟩) (by decide +kernel)).mpr
    ⟨by decide, fun h => absurd h (by decide)⟩

/-- On a 16 GB card a system partition of 4097 MB gets 1 MB. -/
theorem system_4097MB_short :
    ¬ ∀ p ∈ [4097, 1024, 300].zip (entries (makeMmcPartition 30535680 (.sizes 4097 1024 300))),
      Covers (getSDInfo 30535680) p.1 p.2.len := by
  decide +kernel

end Uboot.Common.MmcFdisk
