/-
  Uboot.Common.MmcFdiskChs

  A partition stands twice in its table entry: as block numbers, which
  `decode_partitionInfo` reads back, and as the cylinder, head and sector of its first
  and of its last block.  On a card addressed by cylinders the two agree as long as the
  partition stays below cylinder 1024: the entry has ten bits for it.
-/

import Uboot.Common.MmcFdisk
import Uboot.Lib.Align
import Uboot.Lib.Holds

namespace Uboot.Common.MmcFdisk

open Uboot.Lib

/-! ## Reading an entry -/

/-- `decode_partitionInfo`: what it reads from the entry at `inp`, the rest of
    `*partInfo` as it was. -/
def PartitionInfo.decode (partInfo : PartitionInfo) (mbr : Mem UInt8) (inp : Nat) : PartitionInfo :=
  { partInfo with
    bootable := (mbr inp).toNat
    partitionId := (mbr (inp + 4)).toNat
    blockStart := i32 (rd32 mbr (inp + 8))
    blockCount := i32 (rd32 mbr (inp + 12)) }

/-- The block that the three bytes at `a` name on a card of this geometry. -/
def chsBlock (sd : SDInfo) (mbr : Mem UInt8) (a : Nat) : Option Nat :=
  let head := (mbr a).toNat
  let sector := (mbr (a + 1)).toNat % 64
  let cylinder := (mbr (a + 2)).toNat + 256 * ((mbr (a + 1)).toNat / 64)
  if head < sd.hEnd ∧ 1 ≤ sector ∧ sector ≤ sd.sEnd then
    some ((cylinder * sd.hEnd + head) * sd.sEnd + (sector - 1))
  else none

/-- The partitions `make_mmc_partition` computes, in the order of `entries`. -/
def partitions (totalBlockCount : Nat) (req : Request) : List PartitionInfo :=
  let sd := getSDInfo totalBlockCount
  let s := starts sd req
  [makePartitionInfo 0x00 0x83 s.1 (.blocks (calcUnit req.bytes.1 sd)) sd,
    makePartitionInfo 0x00 0x83 s.2.1 (.blocks (calcUnit req.bytes.2.1 sd)) sd,
    makePartitionInfo 0x00 0x83 s.2.2.1 (.blocks (calcUnit req.bytes.2.2 sd)) sd,
    makePartitionInfo 0x00 0x0C s.2.2.2 .blockEnd sd]

/-- The partitions with the places of their entries. -/
def slots (totalBlockCount : Nat) (req : Request) : List (Nat × PartitionInfo) :=
  [0x1CE, 0x1DE, 0x1EE, 0x1BE].zip (partitions totalBlockCount req)

/-- What the entry at `off` says is the partition `p`: reading it back gives the type,
    the start and the count, and in CHS mode the two triples name the first and the last
    block. -/
structure EntryGood (sd : SDInfo) (mbr : Mem UInt8) (off : Nat) (p : PartitionInfo) : Prop where
  decoded : ∀ old : PartitionInfo, old.decode mbr off =
    { old with
      bootable := p.bootable
      partitionId := p.partitionId
      blockStart := p.blockStart
      blockCount := p.blockCount }
  first : sd.addrMode = .chs → chsBlock sd mbr (off + 1) = some p.extent.start
  last : sd.addrMode = .chs → chsBlock sd mbr (off + 5) = some (p.extent.stop - 1)

/-- In CHS mode the partition begins and ends below cylinder 1024. -/
def BelowCylinder1024 (sd : SDInfo) (e : Extent) : Prop :=
  sd.addrMode = .chs → e.start < 1024 * sd.unit ∧ e.stop - 1 < 1024 * sd.unit

/-! ## The bytes of an entry -/

theorem putEntries_holds (p0 p1 p2 p3 : PartitionInfo) :
    ∀ e ∈ [0x1CE, 0x1DE, 0x1EE, 0x1BE].zip [p0, p1, p2, p3],
      (putEntries p0 p1 p2 p3).Holds e.1 (encodePartitionInfo e.2) := by
  have keep {m : Mem UInt8} {p q : PartitionInfo} {off off' : Nat} (h : off + 16 ≤ off' ∨ off' + 16 ≤ off)
      (hp : m.Holds off (encodePartitionInfo p)) :
      (m.write off' (encodePartitionInfo q)).Holds off (encodePartitionInfo p) :=
    hp.congr fun x _ hx => m.write_outside (by rw [encodePartitionInfo_length] at hx ⊢; omega)
  have put (m : Mem UInt8) (p : PartitionInfo) (off : Nat) :
      (m.write off (encodePartitionInfo p)).Holds off (encodePartitionInfo p) := m.read_write
  simp only [List.zip_cons_cons, List.zip_nil_right, List.forall_mem_cons]
  refine ⟨?_, ?_, ?_, put _ p3 _, by simp⟩
  · exact keep (by decide) (keep (by decide) (keep (by decide) (put _ p0 _)))
  · exact keep (by decide) (keep (by decide) (put _ p1 _))
  · exact keep (by decide) (put _ p2 _)

theorem slots_holds (n : Nat) (req : Request) :
    ∀ e ∈ slots n req, (makeMmcPartition n req).Holds e.1 (encodePartitionInfo e.2) :=
  putEntries_holds _ _ _ _

/-- An `int` survives the memory. -/
theorem i32_u32 (x : Int) : i32 (u32 x) = i32 x := by
  rw [i32, u32, Int.toNat_of_nonneg (Int.emod_nonneg _ (by decide)), i32]
  exact Int.emod_bmod x 4294967296

theorem i32_i32 (x : Int) : i32 (i32 x) = i32 x := Int.bmod_bmod

/-- The fields of a partition are what their types can hold. -/
structure PartitionInfo.Typed (p : PartitionInfo) : Prop where
  bootable : p.bootable < 256
  partitionId : p.partitionId < 256
  blockStart : i32 p.blockStart = p.blockStart
  blockCount : i32 p.blockCount = p.blockCount

theorem makePartitionInfo_typed {b id : Nat} (hb : b < 256) (hid : id < 256) (s : Nat) (c : Count)
    (sd : SDInfo) : (makePartitionInfo b id s c sd).Typed := by
  constructor <;> cases hm : sd.addrMode <;> cases c <;>
    simp only [makePartitionInfo, hm, hb, hid, i32_i32]

section Entry

variable {sd : SDInfo} {mbr : Mem UInt8} {off a : Nat} {p : PartitionInfo}

theorem byte_natCast (x : Nat) : (byte (x : Int)).toNat = x % 256 := by
  rw [byte, UInt8.toNat_ofNat', u32_natCast]
  omega

/-- **Round trip.** -/
theorem decode_of_holds (ht : p.Typed) (h : mbr.Holds off (encodePartitionInfo p))
    (old : PartitionInfo) :
    old.decode mbr off =
      { old with
        bootable := p.bootable
        partitionId := p.partitionId
        blockStart := p.blockStart
        blockCount := p.blockCount } := by
  have hextent := decodePartitionInfo_of_agree mbr off p fun i hi => h.getElem hi
  have hstart : rd32 mbr (off + 8) = u32 p.blockStart := congrArg Extent.start hextent
  have hcount : rd32 mbr (off + 12) = u32 p.blockCount := congrArg Extent.len hextent
  have hboot : mbr off = byte p.bootable := h.getElem (i := 0) (by simp)
  have hid : mbr (off + 4) = byte p.partitionId := h.getElem (i := 4) (by simp)
  rw [PartitionInfo.decode, hstart, hcount, hboot, hid, byte_natCast, byte_natCast,
    Nat.mod_eq_of_lt ht.bootable, Nat.mod_eq_of_lt ht.partitionId, i32_u32, ht.blockStart, i32_u32,
    ht.blockCount]

/-- A triple names a block below cylinder 1024. -/
theorem chsBlock_lt {x : Nat} (h : chsBlock sd mbr a = some x) : x < 1024 * (sd.hEnd * sd.sEnd) := by
  have hb1 := (mbr (a + 1)).toNat_lt
  have hb2 := (mbr (a + 2)).toNat_lt
  rw [chsBlock] at h
  split at h
  · rename_i hin
    obtain ⟨hhead, hone, hsector⟩ := hin
    rw [← Option.some.inj h]
    generalize hc : (mbr (a + 2)).toNat + 256 * ((mbr (a + 1)).toNat / 64) = c
    have hcyl : c + 1 ≤ 1024 := by omega
    have htrack : c * sd.hEnd + (mbr a).toNat + 1 ≤ (c + 1) * sd.hEnd := by
      rw [Nat.succ_mul]
      omega
    calc (c * sd.hEnd + (mbr a).toNat) * sd.sEnd + ((mbr (a + 1)).toNat % 64 - 1)
        < (c * sd.hEnd + (mbr a).toNat + 1) * sd.sEnd := by
          rw [Nat.succ_mul]
          omega
      _ ≤ (c + 1) * sd.hEnd * sd.sEnd := Nat.mul_le_mul_right _ htrack
      _ = (c + 1) * (sd.hEnd * sd.sEnd) := Nat.mul_assoc ..
      _ ≤ 1024 * (sd.hEnd * sd.sEnd) := Nat.mul_le_mul_right _ hcyl
  · cases h

/-- The two high bits of the cylinder above the sector. -/
theorem cylinder_high (c : Nat) : (c &&& 0x300) >>> 2 = 64 * (c / 256 % 4) := by
  have h : c &&& 0x300 = c / 256 % 4 * 256 := and_field (x := c) (n := 2) (k := 8)
  rw [h, Nat.shiftRight_eq_div_pow]
  omega

theorem cylinder_low (c : Nat) : c &&& 0xFF = c % 256 := Nat.and_two_pow_sub_one_eq_mod c 8

/-- **One triple.**  Below cylinder 1024 nothing of it is cut off. -/
theorem chsBlock_of_holds {c h s : Nat} (hc : c < 1024) (hh : h < sd.hEnd) (hh' : h < 256)
    (hs : 1 ≤ s) (hs' : s ≤ sd.sEnd) (hs'' : s < 64) (hholds : mbr.Holds a (encodeChs c h s)) :
    chsBlock sd mbr a = some ((c * sd.hEnd + h) * sd.sEnd + (s - 1)) := by
  have h0 : mbr a = byte h := hholds.getElem (i := 0) (by simp [encodeChs])
  have h1 : mbr (a + 1) = byte (s + ((u32 c &&& 0x300) >>> 2 : Nat)) :=
    hholds.getElem (i := 1) (by simp [encodeChs])
  have h2 : mbr (a + 2) = byte (u32 c &&& 0xFF : Nat) := hholds.getElem (i := 2) (by simp [encodeChs])
  have hu : u32 c = c := by
    rw [u32_natCast]
    omega
  have hb0 : (mbr a).toNat = h := by
    rw [h0, byte_natCast]
    omega
  have hb1 : (mbr (a + 1)).toNat = s + 64 * (c / 256) := by
    rw [h1, hu, cylinder_high, ← Int.natCast_add, byte_natCast]
    omega
  have hb2 : (mbr (a + 2)).toNat = c % 256 := by
    rw [h2, hu, cylinder_low, byte_natCast]
    omega
  have hsector : (s + 64 * (c / 256)) % 64 = s := by omega
  have hcylinder : c % 256 + 256 * ((s + 64 * (c / 256)) / 64) = c := by omega
  simp only [chsBlock, hb0, hb1, hb2, hsector, hcylinder]
  rw [if_pos ⟨hh, hs, hs'⟩]

/-- Block `b` in cylinder, head and sector. -/
def triple (sd : SDInfo) (b : Nat) : List UInt8 :=
  encodeChs (b / (sd.hEnd * sd.sEnd) : Nat) (b % (sd.hEnd * sd.sEnd) / sd.sEnd : Nat)
    (b % (sd.hEnd * sd.sEnd) % sd.sEnd + 1 : Nat)

/-- A geometry that the search can settle on. -/
structure SDInfo.Chs (sd : SDInfo) : Prop where
  h_pos : 1 ≤ sd.hEnd
  h_le : sd.hEnd ≤ 255
  s_pos : 1 ≤ sd.sEnd
  s_le : sd.sEnd ≤ 63
  unit : sd.unit = sd.hEnd * sd.sEnd

theorem getSDInfo_geometry {n : Nat} (h : (getSDInfo n).addrMode = .chs) : (getSDInfo n).Chs := by
  by_cases hn : n < gb8_4
  · have hf := search_found hn
    rw [getSDInfo_chs hn]
    exact ⟨hf.h_pos, hf.h_le, hf.s_pos, hf.s_le, rfl⟩
  · rw [getSDInfo_lba (Nat.le_of_not_lt hn)] at h
    cases h

theorem chsBlock_triple (hsd : sd.Chs) {b : Nat} (hb : b < 1024 * sd.unit) (hholds : mbr.Holds a (triple sd b)) :
    chsBlock sd mbr a = some b := by
  obtain ⟨hhpos, hhle, hspos, hsle, hunit⟩ := hsd
  rw [hunit] at hb
  have hpos : 0 < sd.hEnd * sd.sEnd := Nat.mul_pos hhpos hspos
  have hhead : b % (sd.hEnd * sd.sEnd) / sd.sEnd < sd.hEnd := by
    rw [Nat.div_lt_iff_lt_mul hspos]
    exact Nat.mod_lt _ hpos
  have hsector := Nat.mod_lt (b % (sd.hEnd * sd.sEnd)) hspos
  rw [chsBlock_of_holds ((Nat.div_lt_iff_lt_mul hpos).mpr hb) hhead (by omega) (by omega) (by omega)
    (by omega) hholds]
  -- the two digits of `b` to the bases `hEnd * sEnd` and `sEnd`
  congr 1
  have hcyl := Nat.div_add_mod b (sd.hEnd * sd.sEnd)
  have htrack := Nat.div_add_mod (b % (sd.hEnd * sd.sEnd)) sd.sEnd
  rw [Nat.add_sub_cancel, Nat.add_mul, Nat.mul_assoc, Nat.mul_comm (b / _), Nat.add_assoc,
    Nat.mul_comm (b % _ / _), htrack, hcyl]

/-- Where the triples stand. -/
theorem triples_of_holds (h : mbr.Holds off (encodePartitionInfo p)) :
    mbr.Holds (off + 1) (encodeChs p.cStart p.hStart p.sStart) ∧
      mbr.Holds (off + 5) (encodeChs p.cEnd p.hEnd p.sEnd) := by
  rw [encodePartitionInfo, Mem.holds_append, Mem.holds_append, Mem.holds_append, Mem.holds_cons,
    Mem.holds_cons] at h
  exact ⟨h.1.1.1.2, h.1.1.2.2⟩

/-- An entry whose triples are those of its first and last block, the latter at least as
    far as there are cylinders. -/
theorem entryGood_iff (hsd : sd.addrMode = .chs → sd.Chs) (ht : p.Typed)
    (h : mbr.Holds off (encodePartitionInfo p))
    (hfirst : sd.addrMode = .chs →
      encodeChs p.cStart p.hStart p.sStart = triple sd p.extent.start)
    (hlast : sd.addrMode = .chs → p.extent.stop - 1 < 1024 * sd.unit →
      encodeChs p.cEnd p.hEnd p.sEnd = triple sd (p.extent.stop - 1)) :
    EntryGood sd mbr off p ↔ BelowCylinder1024 sd p.extent := by
  obtain ⟨hstart, hend⟩ := triples_of_holds h
  constructor
  · intro hgood hm
    rw [(hsd hm).unit]
    exact ⟨chsBlock_lt (hgood.first hm), chsBlock_lt (hgood.last hm)⟩
  · intro hbelow
    refine ⟨decode_of_holds ht h, fun hm => ?_, fun hm => ?_⟩
    · rw [hfirst hm] at hstart
      exact chsBlock_triple (hsd hm) (hbelow hm).1 hstart
    · rw [hlast hm (hbelow hm).2] at hend
      exact chsBlock_triple (hsd hm) (hbelow hm).2 hend

end Entry

/-! ## The triples that `make_partitionInfo` computes -/

section Triples

variable {sd : SDInfo} (b id : Nat) {s n : Nat} {c : Count}

theorem i32_of_lt {x : Int} (h₁ : 0 ≤ x) (h₂ : x < 2147483648) : i32 x = x := by
  simp only [i32, Int.bmod]
  split <;> omega

/-- The first block. -/
theorem first_triple (hm : sd.addrMode = .chs) (hs : s < 2147483648) :
    let p := makePartitionInfo b id s c sd
    encodeChs p.cStart p.hStart p.sStart = triple sd s := by
  have hi : i32 (s : Int) = s := i32_of_lt (by omega) (by omega)
  cases c <;> simp only [makePartitionInfo, hm, hi, triple] <;> push_cast <;> rfl

theorem u32_tmod {e u : Nat} (he : e < 4294967296) : u32 ((e : Int).tmod u) = e % u := by
  rw [← Int.ofNat_tmod, u32_natCast, Nat.mod_eq_of_lt (Nat.lt_of_le_of_lt (Nat.mod_le e u) he)]

/-- The last block of a partition with a count. -/
theorem last_triple_blocks (hm : sd.addrMode = .chs) (hu : sd.unit = sd.hEnd * sd.sEnd) (hn : 0 < n)
    (hs : s + n < 2147483648) :
    let p := makePartitionInfo b id s (.blocks n) sd
    encodeChs p.cEnd p.hEnd p.sEnd = triple sd (s + n - 1) := by
  have hi : i32 (s : Int) = s := i32_of_lt (by omega) (by omega)
  have hj : i32 (n : Int) = n := i32_of_lt (by omega) (by omega)
  have hend : i32 ((s : Int) + n - 1) = (s + n - 1 : Nat) := by
    rw [i32_of_lt (by omega) (by omega)]
    omega
  simp only [makePartitionInfo, hm, hi, hj, hend, hu, triple]
  rw [u32_tmod (by omega)]
  push_cast
  rfl

/-- The last block of the partition that reaches up to 10 MB below the end.  It ends a
    cylinder. -/
theorem last_triple_blockEnd (hm : sd.addrMode = .chs) (hsd : sd.Chs)
    (hlt : calcUnit mb10 sd < limit sd) (hle : limit sd < 2147483648) :
    let p := makePartitionInfo b id s .blockEnd sd
    encodeChs p.cEnd p.hEnd p.sEnd = triple sd (limit sd - calcUnit mb10 sd - 1) := by
  obtain ⟨hhpos, hhle, hspos, hsle, hunit⟩ := hsd
  have hule : sd.unit ≤ 16065 := hunit ▸ Nat.mul_le_mul hhle hsle
  have hlimit : limit sd = sd.cEnd * (sd.hEnd * sd.sEnd) := by
    rw [limit, hm]
    exact Nat.mul_assoc ..
  have hend : i32 ((sd.cEnd : Int) * sd.hEnd * sd.sEnd - calcUnit mb10 sd - 1) =
      (limit sd - calcUnit mb10 sd - 1 : Nat) := by
    have hcast : ((limit sd : Nat) : Int) = sd.cEnd * sd.hEnd * sd.sEnd := by
      rw [hlimit, ← Nat.mul_assoc]
      push_cast
      rfl
    rw [← hcast, i32_of_lt (by omega) (by omega)]
    omega
  -- what is kept free is a number of whole cylinders, as is the limit
  obtain ⟨k, hk⟩ : ∃ k, limit sd - calcUnit mb10 sd = (k + 1) * (sd.hEnd * sd.sEnd) := by
    rw [calcUnit_chs hm hule, hunit, hlimit] at hlt ⊢
    have hlt' := Nat.lt_of_mul_lt_mul_right hlt
    obtain ⟨k, hk⟩ := Nat.exists_eq_add_of_lt hlt'
    refine ⟨k, ?_⟩
    rw [← Nat.sub_mul, hk]
    congr 1
    omega
  have hpos : 0 < sd.hEnd * sd.sEnd := Nat.mul_pos hhpos hspos
  have hblock : limit sd - calcUnit mb10 sd - 1 = k * (sd.hEnd * sd.sEnd) + (sd.hEnd * sd.sEnd - 1) := by
    rw [hk, Nat.succ_mul]
    omega
  have hcyl : (limit sd - calcUnit mb10 sd - 1) / (sd.hEnd * sd.sEnd) = k := by
    rw [hblock, Nat.mul_comm, Nat.mul_add_div hpos, Nat.div_eq_of_lt (by omega), Nat.add_zero]
  have hrest : (limit sd - calcUnit mb10 sd - 1) % (sd.hEnd * sd.sEnd) =
      (sd.hEnd - 1) * sd.sEnd + (sd.sEnd - 1) := by
    rw [hblock, Nat.mul_comm k, Nat.mul_add_mod, Nat.mod_eq_of_lt (by omega), Nat.sub_mul, Nat.one_mul]
    have hle : sd.sEnd ≤ sd.hEnd * sd.sEnd := Nat.le_mul_of_pos_left _ hhpos
    omega
  have hhead : ((sd.hEnd - 1) * sd.sEnd + (sd.sEnd - 1)) / sd.sEnd = sd.hEnd - 1 := by
    rw [Nat.mul_comm, Nat.mul_add_div hspos, Nat.div_eq_of_lt (by omega), Nat.add_zero]
  have hsector : ((sd.hEnd - 1) * sd.sEnd + (sd.sEnd - 1)) % sd.sEnd + 1 = sd.sEnd := by
    rw [Nat.mul_comm, Nat.mul_add_mod, Nat.mod_eq_of_lt (by omega)]
    omega
  have hquot : ((limit sd - calcUnit mb10 sd - 1 : Nat) : Int).tdiv (sd.hEnd * sd.sEnd : Nat) = k := by
    rw [← Int.ofNat_tdiv, hcyl]
  rw [triple, hcyl, hrest, hhead, hsector]
  simp only [makePartitionInfo, hm, hend, hunit, hquot]
  rw [Nat.cast_pred hhpos]

end Triples

/-! ## Every entry -/

section Slots

variable {n b id s c off : Nat} {mbr : Mem UInt8}

/-- In CHS mode no area is empty. -/
theorem calcUnit_pos (hm : (getSDInfo n).addrMode = .chs) (x : Nat) :
    0 < calcUnit x (getSDInfo n) := by
  have hsd := getSDInfo_geometry hm
  have hule : (getSDInfo n).unit ≤ 16065 := hsd.unit ▸ Nat.mul_le_mul hsd.h_le hsd.s_le
  have hpos : 0 < (getSDInfo n).unit := hsd.unit ▸ Nat.mul_pos hsd.h_pos hsd.s_pos
  rw [calcUnit_chs hm hule]
  exact Nat.mul_pos (Nat.succ_pos _) hpos

theorem good_blocks (hb : b < 256) (hid : id < 256) (hs : s + c < 2147483648)
    (hc : (getSDInfo n).addrMode = .chs → 0 < c)
    (h : mbr.Holds off (encodePartitionInfo (makePartitionInfo b id s (.blocks c) (getSDInfo n)))) :
    EntryGood (getSDInfo n) mbr off (makePartitionInfo b id s (.blocks c) (getSDInfo n)) ↔
      BelowCylinder1024 (getSDInfo n) (makePartitionInfo b id s (.blocks c) (getSDInfo n)).extent := by
  obtain ⟨hstart, hcount⟩ := makePartitionInfo_blocks b id s c (getSDInfo n) (by omega) (by omega)
  refine entryGood_iff getSDInfo_geometry (makePartitionInfo_typed hb hid ..) h (fun hm => ?_)
    fun hm _ => ?_
  · rw [PartitionInfo.extent, hstart]
    exact first_triple b id hm (by omega)
  · rw [PartitionInfo.extent, Extent.stop, hstart, hcount]
    exact last_triple_blocks b id hm (getSDInfo_geometry hm).unit (hc hm) hs

/-- The count of the last partition is below cylinder 1024 only where it is no negative
    number in disguise. -/
theorem good_blockEnd (hb : b < 256) (hid : id < 256) (hpos : 0 < s) (hs : s ≤ 4 * 8404673)
    (h : mbr.Holds off (encodePartitionInfo (makePartitionInfo b id s .blockEnd (getSDInfo n)))) :
    EntryGood (getSDInfo n) mbr off (makePartitionInfo b id s .blockEnd (getSDInfo n)) ↔
      BelowCylinder1024 (getSDInfo n) (makePartitionInfo b id s .blockEnd (getSDInfo n)).extent := by
  obtain ⟨hstart, hcount⟩ := makePartitionInfo_blockEnd b id s (getSDInfo n) (by omega)
  have hmb := calcUnit_le n mb10
  refine entryGood_iff getSDInfo_geometry (makePartitionInfo_typed hb hid ..) h (fun hm => ?_)
    fun hm hlast => ?_
  · rw [PartitionInfo.extent, hstart]
    exact first_triple b id hm (by omega)
  · have hsd := getSDInfo_geometry hm
    have hunit : (getSDInfo n).unit ≤ 16065 := hsd.unit ▸ Nat.mul_le_mul hsd.h_le hsd.s_le
    have hn : n < gb8_4 := by
      by_contra hn
      rw [getSDInfo_lba (Nat.le_of_not_lt hn)] at hm
      cases hm
    have hlimit : limit (getSDInfo n) < gb8_4 := Nat.lt_of_le_of_lt (limit_le n) hn
    rw [PartitionInfo.extent, Extent.stop, hstart, hcount] at hlast ⊢
    have hfits : calcUnit mb10 (getSDInfo n) + s ≤ limit (getSDInfo n) := by
      by_contra hfits
      simp only [u32, gb8_4] at hlast hlimit
      omega
    have hblock : s + u32 (limit (getSDInfo n) - calcUnit mb10 (getSDInfo n) - s) - 1 =
        limit (getSDInfo n) - calcUnit mb10 (getSDInfo n) - 1 := by
      simp only [u32, gb8_4] at hlimit ⊢
      omega
    rw [hblock]
    simp only [gb8_4] at hlimit
    exact last_triple_blockEnd b id hm hsd (by omega) (by omega)

end Slots

/-- **Table entries.** Of the four entries that the command writes, one reads back as its
    partition, and on a card addressed by cylinders its triples name the first and the
    last block, exactly when the partition stays below cylinder 1024. -/
theorem entries_good_iff (n : Nat) (req : Request) : ∀ e ∈ slots n req,
    EntryGood (getSDInfo n) (makeMmcPartition n req) e.1 e.2 ↔
      BelowCylinder1024 (getSDInfo n) e.2.extent := by
  have hle : (areas n req).raw + (areas n req).system + (areas n req).user + (areas n req).cache ≤
      4 * 8404673 := fatStart_le n req
  have hraw : 32768 ≤ (areas n req).raw := le_calcUnit_diskStart n
  have hholds := slots_holds n req
  simp only [slots, partitions, starts_eq n req, List.zip_cons_cons, List.zip_nil_right,
    List.forall_mem_cons] at hholds ⊢
  obtain ⟨h0, h1, h2, h3, -⟩ := hholds
  simp only [areas, Areas.fatStart] at hle hraw h0 h1 h2 h3 ⊢
  refine ⟨?_, ?_, ?_, ?_, by simp⟩
  · exact good_blocks (by decide) (by decide) (by omega) (fun hm => calcUnit_pos hm _) h0
  · exact good_blocks (by decide) (by decide) (by omega) (fun hm => calcUnit_pos hm _) h1
  · exact good_blocks (by decide) (by decide) (by omega) (fun hm => calcUnit_pos hm _) h2
  · exact good_blockEnd (by decide) (by decide) (by omega) (by omega) h3

/-- The cylinders of the geometry fit into ten bits. -/
theorem search_cEnd_le (n : Nat) : (search n).cEnd ≤ 1023 := by
  have hstep (h : Nat) (b : Search) (hb : b.cEnd ≤ 1023) (s : Nat) : (searchStep n b h s).cEnd ≤ 1023 := by
    simp only [searchStep]
    split
    · split
      · assumption
      · exact hb
    · exact hb
  exact List.foldlRecOn (motive := fun b : Search => b.cEnd ≤ 1023) _ _ (Nat.zero_le _) fun b hb h _ =>
    List.foldlRecOn (motive := fun b : Search => b.cEnd ≤ 1023) _ _ hb fun b hb s _ => hstep h b hb s

theorem partitions_extent (n : Nat) (req : Request) :
    (partitions n req).map PartitionInfo.extent = entries (makeMmcPartition n req) :=
  (entries_putEntries _ _ _ _).symm

section Cards

variable {n : Nat}

theorem unit_bounds (hm : (getSDInfo n).addrMode = .chs) :
    0 < (getSDInfo n).unit ∧ (getSDInfo n).unit ≤ 16065 := by
  have hsd := getSDInfo_geometry hm
  rw [hsd.unit]
  exact ⟨Nat.mul_pos hsd.h_pos hsd.s_pos, Nat.mul_le_mul hsd.h_le hsd.s_le⟩

/-- A built-in system partition that fits on the card stays below cylinder 1024. -/
theorem below_system (hbig : 2200000 ≤ n) (tf : Bool) :
    BelowCylinder1024 (getSDInfo n) (makePartitionInfo 0x00 0x83 (starts (getSDInfo n) (.builtin tf)).1
      (.blocks (calcUnit gb1 (getSDInfo n))) (getSDInfo n)).extent := by
  intro hm
  have hext := partitions_extent n (.builtin tf)
  rw [entries_makeMmcPartition, partitions, List.map_cons, List.cons_eq_cons] at hext
  simp only [Request.bytes] at hext
  rw [hext.1]
  obtain ⟨hpos, hule⟩ := unit_bounds hm
  have hc : n / (getSDInfo n).unit ≤ 1023 := by
    have hn : n < gb8_4 := by
      by_contra hn
      rw [getSDInfo_lba (Nat.le_of_not_lt hn)] at hm
      cases hm
    rw [getSDInfo_chs hn, ← (search_found hn).c_eq]
    exact search_cEnd_le n
  simp only [areas, Extent.stop, Request.bytes]
  rw [calcUnit_chs hm hule, calcUnit_chs hm hule, Nat.add_mul, Nat.add_mul]
  generalize (getSDInfo n).unit = u at *
  have hraw := Nat.div_mul_le_self (diskStart % 4294967296 / 512) u
  have hsys := Nat.div_mul_le_self (gb1 % 4294967296 / 512) u
  have hu : n < 1024 * u := (Nat.div_lt_iff_lt_mul hpos).mp (Nat.lt_succ_of_le hc)
  simp only [diskStart, gb1] at hraw hsys ⊢
  omega

/-- Three partitions of 4095 MB on a card addressed by cylinders: the cache ends beyond
    the last cylinder there can be. -/
theorem cache_cut (hm : (getSDInfo n).addrMode = .chs) : ¬ ∀ e ∈ slots n (.sizes 4095 4095 4095),
    EntryGood (getSDInfo n) (makeMmcPartition n (.sizes 4095 4095 4095)) e.1 e.2 := by
  intro h
  have hcache := h (0x1EE, _) (List.mem_cons_of_mem _ (List.mem_cons_of_mem _ (List.mem_cons_self ..)))
  have hlast := chsBlock_lt (hcache.last hm)
  have hext := partitions_extent n (.sizes 4095 4095 4095)
  rw [entries_makeMmcPartition, partitions, List.map_cons, List.cons_eq_cons, List.map_cons,
    List.cons_eq_cons, List.map_cons, List.cons_eq_cons] at hext
  rw [hext.2.2.1] at hlast
  obtain ⟨hpos, hule⟩ := unit_bounds hm
  simp only [areas, Extent.stop, Request.bytes, ← (getSDInfo_geometry hm).unit] at hlast
  rw [calcUnit_chs hm hule, calcUnit_chs hm hule] at hlast
  have hsize := lt_round hpos (4095 * 1024 * 1024 % 4294967296 / 512)
  omega

end Cards

/-- The system partition of a 4 GB card. -/
theorem entry_good_4GB : EntryGood (getSDInfo 7744512) (makeMmcPartition 7744512 (.builtin true)) 0x1CE
    (makePartitionInfo 0x00 0x83 (starts (getSDInfo 7744512) (.builtin true)).1
      (.blocks (calcUnit gb1 (getSDInfo 7744512))) (getSDInfo 7744512)) :=
  (entries_good_iff 7744512 (.builtin true) (0x1CE, _) (List.mem_cons_self ..)).mpr
    (below_system (by decide) true)

/-- Three partitions of 4095 MB on a 4 GB card. -/
theorem cache_4095MB_cut : ¬ ∀ e ∈ slots 7744512 (.sizes 4095 4095 4095),
    EntryGood (getSDInfo 7744512) (makeMmcPartition 7744512 (.sizes 4095 4095 4095)) e.1 e.2 :=
  cache_cut (by rw [getSDInfo_chs (by decide)])

end Uboot.Common.MmcFdisk
