/-
  Uboot.Common.MtdpartsValidate

  What `part_validate` of common/cmd_mtdparts.c guarantees about the partitions it
  accepts: a place inside the device, between boundaries of its erase blocks.

  The boundaries are those of `struct mtd_info`.  With one kind of erase block they are
  the multiples of its size, else those of the sectors of every region.
-/

import Uboot.Common.CmdMtdparts
import Mathlib.Data.List.Basic

namespace Uboot.Common.CmdMtdparts

open Uboot.Lib

-- ============================================================================
-- Boundaries
-- ============================================================================

/-- A sector of the region begins at `a`, or the last one ends there. -/
def EraseRegion.Boundary (r : EraseRegion) (a : Nat) : Prop :=
  ∃ j ≤ r.numblocks, a = r.offset + j * r.erasesize

/-- An erase block of the device begins or ends at `a`. -/
def MtdInfo.Boundary (mtd : MtdInfo) (a : Nat) : Prop :=
  if mtd.eraseregions = [] then mtd.erasesize ∣ a else ∃ r ∈ mtd.eraseregions, r.Boundary a

/-- The sectors of the regions lie in the 32 bits of an offset. -/
def MtdInfo.Addressable (mtd : MtdInfo) : Prop :=
  ∀ r ∈ mtd.eraseregions, r.offset < 4294967296 ∧ r.offset + r.numblocks * r.erasesize ≤ 4294967296

instance (mtd : MtdInfo) : Decidable mtd.Addressable :=
  inferInstanceAs (Decidable (∀ r ∈ mtd.eraseregions, _))

/-- The partition is not empty, lies inside the device, and both its ends are boundaries
    of erase blocks. -/
structure PartInfo.Placed (flash : Flash) (id : MtdIds) (part : PartInfo) : Prop where
  nonempty : 0 < part.size
  inside : part.offset + part.size ≤ id.size
  noWrap : part.offset + part.size < 4294967296
  aligned : ∃ mtd, flash id.type id.num = some mtd ∧ mtd.Boundary part.offset ∧
    mtd.Boundary (part.offset + part.size)

-- ============================================================================
-- The search for both ends
-- ============================================================================

section Regions

variable {mtd : MtdInfo} {a : Nat}

/-- A start that the loops compare with is a boundary; no sector starts behind 32 bits. -/
theorem boundary_of_start (haddr : mtd.Addressable)
    (h : a ∈ mtd.eraseregions.flatMap fun r =>
      (List.range r.numblocks).map fun j => u32 (r.offset + j * r.erasesize)) :
    ∃ r ∈ mtd.eraseregions, r.Boundary a := by
  obtain ⟨r, hr, hstart⟩ := List.mem_flatMap.mp h
  obtain ⟨j, hj, rfl⟩ := List.mem_map.mp hstart
  rw [List.mem_range] at hj
  obtain ⟨hoffset, hend⟩ := haddr r hr
  have hstep : (j + 1) * r.erasesize ≤ r.numblocks * r.erasesize := Nat.mul_le_mul_right _ hj
  rw [Nat.succ_mul] at hstep
  have hlt : r.offset + j * r.erasesize < 4294967296 := by
    rcases Nat.eq_zero_or_pos r.erasesize with hzero | hpos
    · rwa [hzero, Nat.mul_zero, Nat.add_zero]
    · omega
  exact ⟨r, hr, j, Nat.le_of_lt hj, u32_of_lt hlt⟩

/-- So is the place where `start` is left behind the loops, unless it has become 0. -/
theorem boundary_of_last (haddr : mtd.Addressable) (ha : 0 < a)
    (h : some a = mtd.eraseregions.getLast?.map fun r => u32 (r.offset + r.numblocks * r.erasesize)) :
    ∃ r ∈ mtd.eraseregions, r.Boundary a := by
  obtain ⟨r, hlast, hstart⟩ := Option.map_eq_some_iff.mp h.symm
  have hr : r ∈ mtd.eraseregions := List.mem_of_getLast? hlast
  obtain ⟨-, hend⟩ := haddr r hr
  refine ⟨r, hr, r.numblocks, Nat.le_refl _, ?_⟩
  simp only [u32] at hstart
  omega

end Regions

/-- `part_validate_eraseblock` on a partition that is not empty and does not wrap. -/
theorem boundaries_of_eraseblock {flash : Flash} {id : MtdIds} {part : PartInfo}
    (haddr : ∀ mtd, flash id.type id.num = some mtd → mtd.Addressable) (hpos : 0 < part.size)
    (hlt : part.offset + part.size < 4294967296) (h : partValidateEraseblock flash id part = true) :
    ∃ mtd, flash id.type id.num = some mtd ∧ mtd.Boundary part.offset ∧
      mtd.Boundary (part.offset + part.size) := by
  rw [partValidateEraseblock] at h
  cases hmtd : flash id.type id.num with
  | none => simp [hmtd] at h
  | some mtd =>
    refine ⟨mtd, rfl, ?_⟩
    rw [hmtd] at h
    simp only [MtdInfo.Boundary]
    by_cases huniform : mtd.eraseregions = []
    · simp only [if_pos huniform, Bool.and_eq_true, decide_eq_true_eq] at h ⊢
      have hoffset : mtd.erasesize ∣ part.offset := Nat.dvd_of_mod_eq_zero h.1
      exact ⟨hoffset, Nat.dvd_add hoffset (Nat.dvd_of_mod_eq_zero h.2)⟩
    · simp only [if_neg huniform, Bool.and_eq_true, Bool.or_eq_true, decide_eq_true_eq,
        u32_of_lt hlt] at h ⊢
      refine ⟨boundary_of_start (haddr mtd hmtd) h.1, ?_⟩
      rcases h.2 with hend | hend
      · exact boundary_of_start (haddr mtd hmtd) hend
      · exact boundary_of_last (haddr mtd hmtd) (by omega) hend

-- ============================================================================
-- What is accepted
-- ============================================================================

/-- The three comparisons of `part_validate`, on the size that has been filled in. -/
theorem range_of_validate {flash : Flash} {id : MtdIds} {part p : PartInfo}
    (hsize : part.size < 4294967296) (hoffset : part.offset < 4294967296)
    (h : partValidate flash id part = some p) :
    0 < p.size ∧ p.offset + p.size ≤ id.size ∧ partValidateEraseblock flash id p = true := by
  rw [partValidate] at h
  generalize hq : (if part.size = sizeRemaining then { part with size := usub id.size part.offset }
    else part) = q at h
  have hqsize : q.size < 4294967296 := by
    rw [← hq]
    split
    · exact u32_lt _
    · exact hsize
  have hqoffset : q.offset = part.offset := by
    rw [← hq]
    split <;> rfl
  simp only [Option.ite_none_left_eq_some, Option.ite_none_right_eq_some, Option.some.injEq] at h
  obtain ⟨-, hwrap, hinside, heraseblock, rfl⟩ := h
  -- a sum that has wrapped is below the offset
  simp only [u32] at hwrap hinside
  exact ⟨by omega, by omega, heraseblock⟩

/-- **What `part_validate` accepts** is a partition that is placed in the device. -/
theorem partValidate_placed {flash : Flash} {id : MtdIds} {part p : PartInfo}
    (hid : id.size < 4294967296) (hsize : part.size < 4294967296)
    (hoffset : part.offset < 4294967296)
    (haddr : ∀ mtd, flash id.type id.num = some mtd → mtd.Addressable)
    (h : partValidate flash id part = some p) : p.Placed flash id := by
  obtain ⟨hpos, hinside, heraseblock⟩ := range_of_validate hsize hoffset h
  have hlt : p.offset + p.size < 4294967296 := Nat.lt_of_le_of_lt hinside hid
  exact ⟨hpos, hinside, hlt, boundaries_of_eraseblock haddr hpos hlt heraseblock⟩

/-- A NOR chip of 2 MiB with eight small sectors below 31 large ones. -/
def bootNor : Flash := fun type num =>
  if type = .nor ∧ num = 0 then some ⟨0x10000, [⟨0, 0x2000, 8⟩, ⟨0x10000, 0x10000, 31⟩]⟩ else none

/-- A partition from the third small sector to the end of the chip. -/
theorem partValidate_placed_rest :
    PartInfo.Placed bootNor ⟨.nor, 0, 0x200000, []⟩ ⟨[], true, 0x1fc000, 0x4000, 0, false⟩ :=
  @partValidate_placed _ _ ⟨[], true, sizeRemaining, 0x4000, 0, false⟩ _ (by decide) (by decide)
    (by decide)
    (fun mtd h => by
      obtain rfl : _ = mtd := Option.some.inj h
      decide)
    (by decide +kernel)

end Uboot.Common.CmdMtdparts
