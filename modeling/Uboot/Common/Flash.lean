/-
  Uboot.Common.Flash

  The banks of flash memory (include/flash.h) and where an address is in them: `addr2info` of
  common/flash.c.

  An address is 32 bits wide. The banks follow one another, as the comments of common/update.c ask
  for, and the last of them may end with the address space.
-/

import Mathlib.Algebra.Group.Nat.Defs
import Mathlib.Order.Nat
import Uboot.Lib.Tiles

namespace Uboot.Common.Flash

open Uboot.Lib (Tiles)

def ERR_OK : Int := 0
def ERR_PROTECTED : Int := 4
def ERR_INVAL : Int := 8

-- ============================================================================
-- The banks
-- ============================================================================

/-- What `flash_info_t` says of where the sectors of a chip are; `s_end`, a `short`, counts them. -/
structure FlashInfo where
  size : UInt32
  sectorCount : Nat
  start : Nat → UInt32
  sectorCount_pos : 0 < sectorCount
  sectorCount_le : sectorCount ≤ 2 ^ 15
  start_lt : ∀ i, i + 1 < sectorCount → start i < start (i + 1)
  last_lt : (start (sectorCount - 1)).toNat < (start 0).toNat + size.toNat
  end_le : (start 0).toNat + size.toNat ≤ 2 ^ 32

namespace FlashInfo

variable (info : FlashInfo)

/-- Where the bank ends, past its last byte. -/
def bankEnd : Nat := (info.start 0).toNat + info.size.toNat

/-- Where a sector ends, past its last byte. -/
def sectorEnd (i : Nat) : Nat := if i = info.sectorCount - 1 then info.bankEnd else (info.start (i + 1)).toNat

/-- The address of the last byte of the bank. -/
def lastAddr : UInt32 := info.start 0 + info.size - 1

end FlashInfo

/-- `flash_info`, as far as there are chips. -/
structure FlashTable where
  bankCount : Nat
  info : Nat → FlashInfo
  contiguous : ∀ b, b + 1 < bankCount → (info b).bankEnd = ((info (b + 1)).start 0).toNat

/-- The flags `info->protect[i]`, by bank and sector. -/
abbrev Protect := Nat → Nat → UInt8

/-- `addr2info` -/
def addr2info (T : FlashTable) (addr : UInt32) : Option Nat :=
  (List.range T.bankCount).find? fun b => decide (addr ≥ (T.info b).start 0) && decide (addr ≤ (T.info b).lastAddr)

-- ============================================================================
-- The sectors of a bank
-- ============================================================================

namespace FlashInfo

variable (info : FlashInfo)

theorem tiles : Tiles info.sectorCount (fun i => (info.start i).toNat) info.sectorEnd where
  lt i hi := by
    rw [sectorEnd]
    split
    · next h => exact h ▸ info.last_lt
    · exact UInt32.lt_iff_toNat_lt.1 (info.start_lt i (by omega))
  next i hi := if_neg (by omega)

theorem sectorEnd_last : info.sectorEnd (info.sectorCount - 1) = info.bankEnd := if_pos rfl

variable {info} {i : Nat}

theorem base_le_start (hi : i < info.sectorCount) : (info.start 0).toNat ≤ (info.start i).toNat :=
  info.tiles.lo_le_lo (Nat.zero_le i) hi

theorem sectorEnd_le (hi : i < info.sectorCount) : info.sectorEnd i ≤ info.bankEnd := by
  have hpos := info.sectorCount_pos
  have := info.tiles.hi_le_hi (Nat.le_sub_one_of_lt hi) (by omega)
  rwa [sectorEnd_last] at this

theorem base_lt_end (info : FlashInfo) : (info.start 0).toNat < info.bankEnd := by
  have := info.tiles.lt 0 info.sectorCount_pos
  exact this.trans_le (sectorEnd_le info.sectorCount_pos)

theorem size_pos (info : FlashInfo) : 0 < info.size.toNat := by
  have := info.base_lt_end
  rw [bankEnd] at this
  omega

theorem toNat_lastAddr (info : FlashInfo) : info.lastAddr.toNat + 1 = info.bankEnd := by
  have hpos := info.size_pos
  have hend := info.end_le
  rw [lastAddr, bankEnd, UInt32.toNat_sub, UInt32.toNat_add, show (1 : UInt32).toNat = 1 from rfl]
  omega

/-- The sum of base and size is the end of the bank, and 0 at the end of the address space. -/
theorem toNat_base_add_size (info : FlashInfo) :
    (info.start 0 + info.size).toNat = if info.bankEnd < 2 ^ 32 then info.bankEnd else 0 := by
  have hend := info.end_le
  rw [UInt32.toNat_add, bankEnd]
  split <;> omega

end FlashInfo

-- ============================================================================
-- The bank of an address
-- ============================================================================

namespace FlashTable

variable (T : FlashTable)

/-- Bank `b` is there and has a byte at `a`. -/
def InBank (b a : Nat) : Prop := b < T.bankCount ∧ ((T.info b).start 0).toNat ≤ a ∧ a < (T.info b).bankEnd

/-- There is flash at `a`. -/
def InFlash (a : Nat) : Prop := ∃ b, T.InBank b a

theorem tiles : Tiles T.bankCount (fun b => ((T.info b).start 0).toNat) (fun b => (T.info b).bankEnd) where
  lt b _ := (T.info b).base_lt_end
  next b hb := T.contiguous b hb

variable {T} {b b' a a' : Nat}

theorem InBank.unique (h : T.InBank b a) (h' : T.InBank b' a) : b = b' :=
  T.tiles.unique h.1 h'.1 h.2.1 h.2.2 h'.2.1 h'.2.2

theorem InBank.le (h : T.InBank b a) (h' : T.InBank b' a') (ha : a ≤ a') : b ≤ b' :=
  T.tiles.le_of_lt h.1 h.2.1 h'.2.2 ha

theorem InBank.lt_word (h : T.InBank b a) : a < 2 ^ 32 := h.2.2.trans_le (T.info b).end_le

theorem InFlash.lt_word (h : T.InFlash a) : a < 2 ^ 32 := h.elim fun _ => InBank.lt_word

/-- What is between two bytes of the flash is flash. -/
theorem InFlash.between (h : T.InFlash a) (h' : T.InFlash a') {x : Nat} (hl : a ≤ x) (hh : x ≤ a') : T.InFlash x := by
  obtain ⟨b, hb⟩ := h
  obtain ⟨b', hb'⟩ := h'
  obtain ⟨m, -, hm, hx⟩ :=
    T.tiles.exists_mem hb'.1 (hb.le hb' (hl.trans hh)) (hb.2.1.trans hl) (hh.trans_lt hb'.2.2)
  exact ⟨m, Nat.lt_of_le_of_lt hm hb'.1, hx⟩

/-- A byte of a sector of a bank is a byte of that bank. -/
theorem inBank_of_sector {i : Nat} (hb : b < T.bankCount) (hi : i < (T.info b).sectorCount)
    (hl : ((T.info b).start i).toNat ≤ a) (hh : a < (T.info b).sectorEnd i) : T.InBank b a :=
  ⟨hb, (FlashInfo.base_le_start hi).trans hl, hh.trans_le (FlashInfo.sectorEnd_le hi)⟩

end FlashTable

variable {T : FlashTable} {addr : UInt32} {b : Nat}

theorem in_bounds_iff (info : FlashInfo) (addr : UInt32) :
    (decide (addr ≥ info.start 0) && decide (addr ≤ info.lastAddr)) = true ↔
      (info.start 0).toNat ≤ addr.toNat ∧ addr.toNat < info.bankEnd := by
  have := info.toNat_lastAddr
  rw [Bool.and_eq_true, decide_eq_true_iff, decide_eq_true_iff, ge_iff_le, UInt32.le_iff_toNat_le,
    UInt32.le_iff_toNat_le]
  omega

/-- **`addr2info` finds the bank of an address**, also of one at the end of the address space. -/
theorem addr2info_eq_some_iff : addr2info T addr = some b ↔ T.InBank b addr.toNat := by
  constructor
  · intro h
    have hb := List.mem_range.1 (List.mem_of_find?_eq_some h)
    exact ⟨hb, (in_bounds_iff _ _).1 (List.find?_some (p := fun b =>
      decide (addr ≥ (T.info b).start 0) && decide (addr ≤ (T.info b).lastAddr)) h)⟩
  · intro h
    cases hfound : addr2info T addr with
    | none =>
      have := List.find?_eq_none.1 hfound b (List.mem_range.2 h.1)
      exact absurd ((in_bounds_iff _ _).2 h.2) this
    | some b' =>
      have hb := List.mem_range.1 (List.mem_of_find?_eq_some hfound)
      have := List.find?_some hfound
      exact congrArg some (FlashTable.InBank.unique ⟨hb, (in_bounds_iff _ _).1 this⟩ h)

theorem addr2info_eq_none_iff : addr2info T addr = none ↔ ¬T.InFlash addr.toNat := by
  rw [Option.eq_none_iff_forall_ne_some]
  constructor
  · rintro h ⟨b, hb⟩
    exact h b (addr2info_eq_some_iff.2 hb)
  · intro h b hb
    exact h ⟨b, addr2info_eq_some_iff.1 hb⟩

end Uboot.Common.Flash
