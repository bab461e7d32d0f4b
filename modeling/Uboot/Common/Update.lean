/-
  Uboot.Common.Update

  `update_flash` of common/update.c: a range of the flash is unprotected, erased and written, and
  protected again. The sectors that were protected are saved by one call of
  `update_flash_protect` and taken up by the next.

  Protection is by flags in memory, as without CONFIG_SYS_FLASH_PROTECTION. What the erase and the
  write step return is an argument.
-/

import Mathlib.Data.List.Basic
import Mathlib.Tactic.SplitIfs
import Uboot.Common.Flash

namespace Uboot.Common.Update

open Uboot.Common.Flash

-- ============================================================================
-- `flash_sect_roundb`
-- ============================================================================

/-- `sector_end_addr` -/
def sectorEndAddr (info : FlashInfo) (i : Nat) : UInt32 :=
  if i = info.sectorCount - 1 then info.start 0 + info.size - 1 else info.start (i + 1) - 1

/-- `flash_sect_roundb`: the end of the sector an address is in. -/
def flashSectRoundb (T : FlashTable) (addr : UInt32) : Option UInt32 :=
  (List.range T.bankCount).findSome? fun b =>
    (List.range (T.info b).sectorCount).findSome? fun i =>
      let last := sectorEndAddr (T.info b) i
      if addr ≤ last ∧ addr ≥ (T.info b).start i then some (if addr < last then last else addr) else none

-- ============================================================================
-- `update_flash_protect`
-- ============================================================================

/-- A flag is set. -/
def setFlag (p : Protect) (b i : Nat) (v : UInt8) : Protect := fun b' i' => if b' = b ∧ i' = i then v else p b' i'

/-- The flags, and those that are saved. -/
structure Flags where
  protect : Protect
  saved : Protect

/-- The range and the flags. -/
structure Progress extends Flags where
  addrFirst : UInt32
  addrLast : UInt32

/-- What is done to a sector. -/
def protectSector (T : FlashTable) (prot : UInt8) (b : Nat) (addrFirst addrLast : UInt32) (s : Flags) (i : Nat) : Flags :=
  let start := (T.info b).start i
  let saved := if prot = 0 ∧ start ≥ addrFirst ∧ start ≤ addrLast then setFlag s.saved b i (s.protect b i) else s.saved
  { protect := if saved b i = 1 then setFlag s.protect b i prot else s.protect, saved }

/-- What is done to a bank: the range is narrowed to it. -/
def protectBank (T : FlashTable) (prot : UInt8) (s : Progress) (b : Nat) : Progress :=
  let info := T.info b
  let addrLast := if s.addrLast > info.lastAddr then info.lastAddr else s.addrLast
  let addrFirst := if s.addrFirst < info.start 0 then info.start 0 else s.addrFirst
  { toFlags := (List.range info.sectorCount).foldl (protectSector T prot b addrFirst addrLast) s.toFlags
    addrFirst, addrLast }

/-- `update_flash_protect`, but for its `calloc`. -/
def updateFlashProtect (T : FlashTable) (prot : UInt8) (addrFirst addrLast : UInt32) (s : Flags) : Flags :=
  ((List.range T.bankCount).foldl (protectBank T prot) ⟨s, addrFirst, addrLast⟩).toFlags

-- ============================================================================
-- `update_flash`
-- ============================================================================

/-- What `update_flash` returns, the flags it leaves, and those the flash is erased with. -/
structure Outcome where
  ret : Int
  protect : Protect
  erasing : Option Protect

/-- `update_flash`; `allocated` says whether there is memory for the saved flags. -/
def updateFlash (T : FlashTable) (protect : Protect) (allocated : Bool) (erase write : Int)
    (addrFirst size : UInt32) : Outcome :=
  match flashSectRoundb T (addrFirst + size - 1) with
  | none => ⟨1, protect, none⟩
  | some addrLast =>
    if addrFirst ≥ addrLast then ⟨1, protect, none⟩
    else if !allocated then ⟨1, protect, none⟩
    else
      let s := updateFlashProtect T 0 addrFirst addrLast ⟨protect, fun _ _ => 0⟩
      if erase > 0 then ⟨1, s.protect, some s.protect⟩
      else if write > 0 then ⟨1, s.protect, some s.protect⟩
      else ⟨0, (updateFlashProtect T 1 addrFirst addrLast s).protect, some s.protect⟩

-- ============================================================================
-- What it should do
-- ============================================================================

/-- Bank `b` has a sector `i`. -/
def Sector (T : FlashTable) (b i : Nat) : Prop := b < T.bankCount ∧ i < (T.info b).sectorCount

/-- The sector is in the target range: it starts there, and its end is in the range because that
    is rounded up to the end of a sector. -/
def InTarget (T : FlashTable) (addrFirst size : UInt32) (b i : Nat) : Prop :=
  Sector T b i ∧ addrFirst ≤ (T.info b).start i ∧ (T.info b).start i ≤ addrFirst + size - 1

instance (T : FlashTable) (addrFirst size : UInt32) (b i : Nat) : Decidable (InTarget T addrFirst size b i) :=
  inferInstanceAs (Decidable ((_ ∧ _) ∧ _ ∧ _))

/-- **What `update_flash` should do**: leave all flags as they were, and erase with the flags of
    the target range cleared, and no others. -/
structure Restores (T : FlashTable) (protect : Protect) (allocated : Bool) (erase write : Int)
    (addrFirst size : UInt32) : Prop where
  restored : ∀ b i, Sector T b i → (updateFlash T protect allocated erase write addrFirst size).protect b i = protect b i
  unprotected : ∀ p, (updateFlash T protect allocated erase write addrFirst size).erasing = some p →
    ∀ b i, Sector T b i → p b i = if InTarget T addrFirst size b i then 0 else protect b i

/-- The calls that do: those that give up before they unprotect, and of the others those with all
    protected sectors of the target range in the first bank and with flag 1, which find either no
    such sector or no error. -/
def Handled (T : FlashTable) (protect : Protect) (allocated : Bool) (erase write : Int)
    (addrFirst size : UInt32) : Prop :=
  ∀ addrLast, flashSectRoundb T (addrFirst + size - 1) = some addrLast → addrFirst < addrLast → allocated = true →
    (∀ b i, InTarget T addrFirst size b i → protect b i ≠ 0 → b = 0 ∧ protect b i = 1) ∧
      ((erase ≤ 0 ∧ write ≤ 0) ∨ ∀ b i, InTarget T addrFirst size b i → protect b i = 0)

-- ============================================================================
-- The sector of an address
-- ============================================================================

section Roundb

variable {T : FlashTable} {addr addrLast : UInt32} {b i : Nat}

theorem toNat_sectorEndAddr {info : FlashInfo} (hi : i < info.sectorCount) :
    (sectorEndAddr info i).toNat + 1 = info.sectorEnd i := by
  rw [sectorEndAddr, FlashInfo.sectorEnd]
  split
  · exact info.toNat_lastAddr
  · have hlt := UInt32.lt_iff_toNat_lt.1 (info.start_lt i (by omega))
    have hone : (1 : UInt32).toNat = 1 := rfl
    rw [UInt32.toNat_sub_of_le _ _ (UInt32.le_iff_toNat_le.2 (by omega)), hone]
    omega

theorem flashSectRoundb_spec (h : flashSectRoundb T addr = some addrLast) :
    ∃ b i, Sector T b i ∧ ((T.info b).start i).toNat ≤ addr.toNat ∧ addr.toNat ≤ addrLast.toNat ∧
      addrLast.toNat < (T.info b).sectorEnd i := by
  obtain ⟨b, hb, h⟩ := List.exists_of_findSome?_eq_some h
  obtain ⟨i, hi, h⟩ := List.exists_of_findSome?_eq_some h
  have hb := List.mem_range.1 hb
  have hi := List.mem_range.1 hi
  have hend := toNat_sectorEndAddr hi
  dsimp only at h
  split_ifs at h with hin hlt
  all_goals
    obtain rfl := Option.some.inj h
    simp only [ge_iff_le, UInt32.le_iff_toNat_le, UInt32.lt_iff_toNat_lt] at *
    exact ⟨b, i, ⟨hb, hi⟩, by omega⟩

/-- No sector starts between an address and the end of its sector. -/
theorem start_le_roundb_iff (h : flashSectRoundb T addr = some addrLast) (hs : Sector T b i) :
    (T.info b).start i ≤ addrLast ↔ (T.info b).start i ≤ addr := by
  obtain ⟨b', i', ⟨hb', hi'⟩, hlow, hle, hhigh⟩ := flashSectRoundb_spec h
  rw [UInt32.le_iff_toNat_le, UInt32.le_iff_toNat_le]
  refine ⟨fun hstart => ?_, fun hstart => hstart.trans hle⟩
  by_contra hbehind
  have hlt := (T.info b).tiles.lt i hs.2
  -- it would start in the sector of the address, and so be that sector
  have hin' := FlashTable.inBank_of_sector (a := ((T.info b).start i).toNat) hb' hi' (by omega) (by omega)
  have hin := FlashTable.inBank_of_sector (a := ((T.info b).start i).toNat) hs.1 hs.2 (Nat.le_refl _) hlt
  obtain rfl := hin.unique hin'
  obtain rfl := (T.info b).tiles.unique hs.2 hi' (Nat.le_refl _) hlt (by omega) (hstart.trans_lt hhigh)
  omega

end Roundb

-- ============================================================================
-- The flags of a bank
-- ============================================================================

section Loops

variable {T : FlashTable} {prot : UInt8} {b m : Nat} {addrFirst addrLast : UInt32} {s : Flags}

/-- A sector is saved by the first call. -/
abbrev Saves (T : FlashTable) (prot : UInt8) (addrFirst addrLast : UInt32) (b i : Nat) : Prop :=
  prot = 0 ∧ (T.info b).start i ≥ addrFirst ∧ (T.info b).start i ≤ addrLast

theorem setFlag_apply (p : Protect) (v : UInt8) (b i b' i' : Nat) :
    setFlag p b i v b' i' = if b' = b ∧ i' = i then v else p b' i' := rfl

theorem saved_protectSector (i b' i' : Nat) :
    (protectSector T prot b addrFirst addrLast s i).saved b' i' =
      if (b' = b ∧ i' = i) ∧ Saves T prot addrFirst addrLast b i then s.protect b i else s.saved b' i' := by
  rw [protectSector]
  dsimp only
  split_ifs with hsel h h <;> simp_all [setFlag_apply]

theorem protect_protectSector (i b' i' : Nat) :
    (protectSector T prot b addrFirst addrLast s i).protect b' i' =
      if (b' = b ∧ i' = i) ∧ (protectSector T prot b addrFirst addrLast s i).saved b i = 1 then prot
      else s.protect b' i' := by
  have hset : ∀ saved : Protect, (if saved b i = 1 then setFlag s.protect b i prot else s.protect) b' i' =
      if (b' = b ∧ i' = i) ∧ saved b i = 1 then prot else s.protect b' i' := by
    intro saved
    split_ifs with hone h h <;> simp_all [setFlag_apply]
  exact hset _

/-- The first `m` sectors of a bank: each is handled by itself. -/
theorem sectors_spec (T : FlashTable) (prot : UInt8) (b : Nat) (addrFirst addrLast : UInt32) (s : Flags) (m : Nat) :
    (∀ b' i', ((List.range m).foldl (protectSector T prot b addrFirst addrLast) s).saved b' i' =
      if (b' = b ∧ i' < m) ∧ Saves T prot addrFirst addrLast b i' then s.protect b i' else s.saved b' i') ∧
    ∀ b' i', ((List.range m).foldl (protectSector T prot b addrFirst addrLast) s).protect b' i' =
      if (b' = b ∧ i' < m) ∧ ((List.range m).foldl (protectSector T prot b addrFirst addrLast) s).saved b i' = 1 then
        prot else s.protect b' i' := by
  induction m with
  | zero => simp
  | succ m ih =>
    obtain ⟨hsaved, hprotect⟩ := ih
    rw [List.range_succ, List.foldl_append, List.foldl_cons, List.foldl_nil]
    generalize (List.range m).foldl (protectSector T prot b addrFirst addrLast) s = r at hsaved hprotect
    have hm : r.protect b m = s.protect b m := by rw [hprotect, if_neg (by omega)]
    constructor
    · intro b' i'
      rw [saved_protectSector, hm, hsaved]
      by_cases hi : i' = m
      · subst hi
        simp
      · have : i' < m + 1 ↔ i' < m := by omega
        simp [hi, this]
    · intro b' i'
      rw [protect_protectSector, hprotect]
      by_cases hi : i' = m
      · subst hi
        simp
      · have : i' < m + 1 ↔ i' < m := by omega
        simp [hi, this, saved_protectSector]

end Loops

-- ============================================================================
-- The two calls
-- ============================================================================

section Calls

variable {T : FlashTable} {protect : Protect} {addrFirst addrLast : UInt32} {b i n : Nat}

/-- To narrow the range to a bank does not change which of its sectors start in it. -/
theorem saves_narrowed {prot : UInt8} (hi : i < (T.info b).sectorCount) :
    Saves T prot (if addrFirst < (T.info b).start 0 then (T.info b).start 0 else addrFirst)
        (if addrLast > (T.info b).lastAddr then (T.info b).lastAddr else addrLast) b i ↔
      Saves T prot addrFirst addrLast b i := by
  have hbase := FlashInfo.base_le_start hi
  have hlt := (T.info b).tiles.lt i hi
  have hend := FlashInfo.sectorEnd_le hi
  have hlast := (T.info b).toNat_lastAddr
  refine and_congr_right fun _ => ?_
  simp only [ge_iff_le, gt_iff_lt, UInt32.le_iff_toNat_le, UInt32.lt_iff_toNat_lt]
  split_ifs <;> omega

theorem saved_bank (prot : UInt8) (s : Progress) (b b' i : Nat) :
    (protectBank T prot s b).saved b' i =
      if (b' = b ∧ i < (T.info b).sectorCount) ∧ Saves T prot s.addrFirst s.addrLast b i then s.protect b i
      else s.saved b' i := by
  refine ((sectors_spec T prot b _ _ s.toFlags _).1 b' i).trans ?_
  by_cases hi : i < (T.info b).sectorCount
  · simp only [saves_narrowed hi]
  · simp [hi]

theorem protect_bank (prot : UInt8) (s : Progress) (b b' i : Nat) :
    (protectBank T prot s b).protect b' i =
      if (b' = b ∧ i < (T.info b).sectorCount) ∧ (protectBank T prot s b).saved b i = 1 then prot
      else s.protect b' i :=
  (sectors_spec T prot b _ _ s.toFlags _).2 b' i

/-- The end of the range goes down to that of the bank. -/
theorem addrLast_bank (prot : UInt8) (s : Progress) (b : Nat) :
    (protectBank T prot s b).addrLast ≤ (T.info b).lastAddr ∧ (protectBank T prot s b).addrLast ≤ s.addrLast := by
  rw [protectBank]
  dsimp only
  split_ifs with hgt
  · exact ⟨UInt32.le_refl _, UInt32.le_of_lt hgt⟩
  · exact ⟨UInt32.not_lt.1 hgt, UInt32.le_refl _⟩

/-- What the first call has done after `n` banks: only the first bank had sectors in the range, as
    its end then ends the range for the others. -/
structure Unprotected (T : FlashTable) (protect : Protect) (addrFirst addrLast : UInt32) (n : Nat) (s : Progress) :
    Prop where
  saved : ∀ b i, s.saved b i =
    if (b = 0 ∧ 0 < n) ∧ i < (T.info 0).sectorCount ∧ addrFirst ≤ (T.info 0).start i ∧ (T.info 0).start i ≤ addrLast then
      protect b i else 0
  flags : ∀ b i, s.protect b i = if s.saved b i = 1 then 0 else protect b i
  last : 0 < n → s.addrLast ≤ (T.info 0).lastAddr
  range : n = 0 → s.addrFirst = addrFirst ∧ s.addrLast = addrLast

/-- The first bank: what starts in the range is saved. -/
theorem Unprotected.first_bank {s : Progress} (h : Unprotected T protect addrFirst addrLast 0 s) :
    Unprotected T protect addrFirst addrLast 1 (protectBank T 0 s 0) := by
  obtain ⟨hfirst, hlast⟩ := h.range rfl
  have hzero : ∀ b i, s.saved b i = 0 := fun b i => by simp [h.saved]
  have hsame : ∀ b i, s.protect b i = protect b i := fun b i => by simp [h.flags, hzero]
  have hbank : ∀ b i, (protectBank T 0 s 0).saved b i =
      if (b = 0 ∧ 0 < 1) ∧ i < (T.info 0).sectorCount ∧ addrFirst ≤ (T.info 0).start i ∧
        (T.info 0).start i ≤ addrLast then protect b i else 0 := by
    intro b i
    rw [saved_bank, hzero, hsame, hfirst, hlast]
    split_ifs <;> simp_all
  refine ⟨hbank, fun b i => ?_, fun _ => (addrLast_bank 0 s 0).1, fun h => absurd h Nat.one_ne_zero⟩
  rw [protect_bank, hsame, hbank, hbank]
  split_ifs <;> simp_all

/-- The other banks: the range has ended. -/
theorem Unprotected.next_bank {s : Progress} (h : Unprotected T protect addrFirst addrLast n s) (hpos : 0 < n)
    (hn : n < T.bankCount) : Unprotected T protect addrFirst addrLast (n + 1) (protectBank T 0 s n) := by
  have hended := UInt32.le_iff_toNat_le.1 (h.last hpos)
  have hend := (T.info 0).toNat_lastAddr
  have hnext := T.tiles.hi_le_lo hpos hn
  have hbank : ∀ b i, (protectBank T 0 s n).saved b i = s.saved b i := by
    intro b i
    rw [saved_bank, if_neg]
    rintro ⟨⟨-, hi⟩, -, -, hstart⟩
    have hstart := UInt32.le_iff_toNat_le.1 hstart
    have hbase := FlashInfo.base_le_start hi
    omega
  have hunsaved : ∀ i, s.saved n i = 0 := fun i => by rw [h.saved, if_neg (by omega)]
  refine ⟨fun b i => ?_, fun b i => ?_, fun _ => UInt32.le_trans (addrLast_bank 0 s n).2 (h.last hpos),
    fun h => absurd h (Nat.succ_ne_zero n)⟩
  · rw [hbank, h.saved]
    simp [hpos]
  · rw [protect_bank, hbank, hbank, hunsaved, if_neg fun h => absurd h.2 (by decide), h.flags]

theorem unprotected_banks (hn : n ≤ T.bankCount) :
    Unprotected T protect addrFirst addrLast n
      ((List.range n).foldl (protectBank T 0) ⟨⟨protect, fun _ _ => 0⟩, addrFirst, addrLast⟩) := by
  induction n with
  | zero => exact ⟨by simp, by simp, fun h => absurd h (Nat.lt_irrefl 0), fun _ => ⟨rfl, rfl⟩⟩
  | succ n ih =>
    rw [List.range_succ, List.foldl_append]
    rcases Nat.eq_zero_or_pos n with rfl | hpos
    · exact (ih (by omega)).first_bank
    · exact (ih (by omega)).next_bank hpos (by omega)

/-- The second call sets the flags that are saved as 1. -/
theorem protected_banks (s : Progress) (n : Nat) :
    ((List.range n).foldl (protectBank T 1) s).saved = s.saved ∧
      ∀ b i, ((List.range n).foldl (protectBank T 1) s).protect b i =
        if (b < n ∧ i < (T.info b).sectorCount) ∧ s.saved b i = 1 then 1 else s.protect b i := by
  induction n with
  | zero => simp
  | succ n ih =>
    obtain ⟨hsaved, hflags⟩ := ih
    rw [List.range_succ, List.foldl_append, List.foldl_cons, List.foldl_nil]
    generalize (List.range n).foldl (protectBank T 1) s = r at hsaved hflags
    have hbank : (protectBank T 1 r n).saved = s.saved := by
      funext b i
      rw [saved_bank, if_neg fun h => absurd h.2.1 (by decide), hsaved]
    refine ⟨hbank, fun b i => ?_⟩
    rw [protect_bank, hbank, hflags]
    by_cases hb : b = n
    · subst hb
      simp
    · have : b < n + 1 ↔ b < n := by omega
      simp [hb, this]

/-- What the first call saves. -/
theorem saved_first_call (hs : Sector T b i) :
    (updateFlashProtect T 0 addrFirst addrLast ⟨protect, fun _ _ => 0⟩).saved b i =
      if b = 0 ∧ addrFirst ≤ (T.info b).start i ∧ (T.info b).start i ≤ addrLast then protect b i else 0 := by
  obtain ⟨hb, hi⟩ := hs
  have hcall : Unprotected T protect addrFirst addrLast T.bankCount _ := unprotected_banks (Nat.le_refl _)
  rw [updateFlashProtect, hcall.saved]
  by_cases h : b = 0
  · subst h
    simp [hb, hi]
  · simp [h]

/-- The first call clears what it saves as 1. -/
theorem protect_first_call (b i : Nat) :
    (updateFlashProtect T 0 addrFirst addrLast ⟨protect, fun _ _ => 0⟩).protect b i =
      if (updateFlashProtect T 0 addrFirst addrLast ⟨protect, fun _ _ => 0⟩).saved b i = 1 then 0 else protect b i := by
  have hcall : Unprotected T protect addrFirst addrLast T.bankCount _ := unprotected_banks (Nat.le_refl _)
  exact hcall.flags b i

/-- After the second call the flags are as they were. -/
theorem protect_second_call (hs : Sector T b i) :
    (updateFlashProtect T 1 addrFirst addrLast
      (updateFlashProtect T 0 addrFirst addrLast ⟨protect, fun _ _ => 0⟩)).protect b i = protect b i := by
  have hsaved : (updateFlashProtect T 0 addrFirst addrLast ⟨protect, fun _ _ => 0⟩).saved b i = _ := saved_first_call hs
  rw [updateFlashProtect, (protected_banks _ _).2, protect_first_call]
  split_ifs with hone hone'
  · rw [hone.2, eq_comm] at hsaved
    split_ifs at hsaved with hin
    · exact hsaved.symm
    · exact absurd hsaved (by decide)
  · exact absurd ⟨hs, hone'⟩ hone
  · rfl

end Calls

-- ============================================================================
-- When it does what it should
-- ============================================================================

section Result

variable {T : FlashTable} {protect : Protect} {allocated : Bool} {erase write : Int} {addrFirst addrLast size : UInt32}
  {b i : Nat}

theorem inTarget_iff (hround : flashSectRoundb T (addrFirst + size - 1) = some addrLast) (hs : Sector T b i) :
    InTarget T addrFirst size b i ↔ addrFirst ≤ (T.info b).start i ∧ (T.info b).start i ≤ addrLast := by
  rw [InTarget, start_le_roundb_iff hround hs]
  exact and_iff_right hs

/-- The flags that the flash is erased with. -/
theorem erasing_apply (hround : flashSectRoundb T (addrFirst + size - 1) = some addrLast) (hs : Sector T b i) :
    (updateFlashProtect T 0 addrFirst addrLast ⟨protect, fun _ _ => 0⟩).protect b i =
      if InTarget T addrFirst size b i ∧ b = 0 ∧ protect b i = 1 then 0 else protect b i := by
  rw [protect_first_call, saved_first_call hs]
  simp only [inTarget_iff hround hs]
  by_cases hin : b = 0 ∧ addrFirst ≤ (T.info b).start i ∧ (T.info b).start i ≤ addrLast
  · rw [if_pos hin]
    exact if_congr ⟨fun h => ⟨hin.2, hin.1, h⟩, fun h => h.2.2⟩ rfl rfl
  · rw [if_neg hin, if_neg (by decide), if_neg fun h => hin ⟨h.2.1, h.1⟩]

/-- Calls that reach the erase step. -/
theorem updateFlash_erasing (protect : Protect) (erase write : Int)
    (hround : flashSectRoundb T (addrFirst + size - 1) = some addrLast) (hlt : addrFirst < addrLast) :
    (updateFlash T protect true erase write addrFirst size).erasing =
        some (updateFlashProtect T 0 addrFirst addrLast ⟨protect, fun _ _ => 0⟩).protect ∧
      (updateFlash T protect true erase write addrFirst size).protect =
        if erase ≤ 0 ∧ write ≤ 0 then
          (updateFlashProtect T 1 addrFirst addrLast
            (updateFlashProtect T 0 addrFirst addrLast ⟨protect, fun _ _ => 0⟩)).protect
        else (updateFlashProtect T 0 addrFirst addrLast ⟨protect, fun _ _ => 0⟩).protect := by
  rw [updateFlash, hround]
  dsimp only
  rw [if_neg (UInt32.not_le.2 hlt), if_neg (by decide)]
  by_cases herase : erase > 0
  · rw [if_pos herase, if_neg (by omega)]
    exact ⟨rfl, rfl⟩
  · rw [if_neg herase]
    by_cases hwrite : write > 0
    · rw [if_pos hwrite, if_neg (by omega)]
      exact ⟨rfl, rfl⟩
    · rw [if_neg hwrite, if_pos (by omega)]
      exact ⟨rfl, rfl⟩

/-- Calls that give up before that leave everything as it was. -/
theorem restores_of_refused (h : ∀ addrLast, flashSectRoundb T (addrFirst + size - 1) = some addrLast →
    addrFirst < addrLast → allocated ≠ true) : Restores T protect allocated erase write addrFirst size := by
  have hrun : updateFlash T protect allocated erase write addrFirst size = ⟨1, protect, none⟩ := by
    rw [updateFlash]
    cases hround : flashSectRoundb T (addrFirst + size - 1) with
    | none => rfl
    | some addrLast =>
      dsimp only
      by_cases hge : addrFirst ≥ addrLast
      · rw [if_pos hge]
      · rw [if_neg hge, if_pos]
        simpa using h addrLast hround (UInt32.not_le.1 hge)
  exact ⟨fun b i _ => by rw [hrun], fun p hp => by rw [hrun] at hp; cases hp⟩

end Result

/-- **`update_flash` does what it should in just these calls.** -/
theorem restores_iff (T : FlashTable) (protect : Protect) (allocated : Bool) (erase write : Int)
    (addrFirst size : UInt32) :
    Restores T protect allocated erase write addrFirst size ↔
      Handled T protect allocated erase write addrFirst size := by
  by_cases hreach : ∃ addrLast, flashSectRoundb T (addrFirst + size - 1) = some addrLast ∧ addrFirst < addrLast ∧
      allocated = true
  swap
  · push Not at hreach
    exact iff_of_true (restores_of_refused hreach) fun addrLast hround hlt hall =>
      absurd hall (hreach addrLast hround hlt)
  obtain ⟨addrLast, hround, hlt, rfl⟩ := hreach
  obtain ⟨herasing, hprotect⟩ := updateFlash_erasing protect erase write hround hlt
  constructor
  · rintro ⟨hrestored, hunprotected⟩ - - - -
    have hflag : ∀ b i, InTarget T addrFirst size b i → protect b i ≠ 0 → b = 0 ∧ protect b i = 1 := by
      intro b i hin hne
      by_contra hnot
      have hcleared := hunprotected _ herasing b i hin.1
      rw [erasing_apply hround hin.1, if_neg fun h => hnot h.2, if_pos hin] at hcleared
      exact hne hcleared
    refine ⟨hflag, or_iff_not_imp_left.2 fun hfail b i hin => ?_⟩
    by_contra hne
    have hsame := hrestored b i hin.1
    rw [hprotect, if_neg hfail, erasing_apply hround hin.1, if_pos ⟨hin, hflag b i hin hne⟩] at hsame
    exact hne hsame.symm
  · intro h
    obtain ⟨hflag, hend⟩ := h addrLast hround hlt rfl
    refine ⟨fun b i hs => ?_, fun p hp b i hs => ?_⟩
    · rw [hprotect]
      split_ifs with hok
      · exact protect_second_call hs
      · rw [erasing_apply hround hs, if_neg]
        rintro ⟨hin, -, hone⟩
        rw [hend.resolve_left hok b i hin] at hone
        exact absurd hone (by decide)
    · rw [herasing] at hp
      obtain rfl := Option.some.inj hp
      rw [erasing_apply hround hs]
      by_cases hin : InTarget T addrFirst size b i
      · by_cases hzero : protect b i = 0
        · simp [hzero]
        · rw [if_pos ⟨hin, hflag b i hin hzero⟩, if_pos hin]
      · rw [if_neg fun h => hin h.1, if_neg hin]

/-- A bank of 128 KiB with two sectors. -/
def lowBank : FlashInfo where
  size := 0x20000
  sectorCount := 2
  start i := if i = 0 then 0x40000000 else 0x40010000
  sectorCount_pos := Nat.two_pos
  sectorCount_le := (by decide : 2 < 2 ^ 15).le
  start_lt i hi := by
    obtain rfl : i = 0 := Nat.lt_one_iff.mp (Nat.lt_of_succ_lt_succ hi)
    decide
  last_lt := by decide
  end_le := by decide

/-- The second sector is protected, and stays unprotected after the erase step has failed. -/
theorem not_restores_eraseFails :
    ¬Restores ⟨1, fun _ => lowBank, fun _ hb => absurd hb (Nat.not_lt.mpr (Nat.le_add_left 1 _))⟩
      (fun _ i => if i = 1 then 1 else 0) true 1 0 0x40010000 0x10000 := by
  intro h
  exact absurd (h.restored 0 1 ⟨by decide, by decide⟩) (by decide)

end Uboot.Common.Update
