/-
  Uboot.Drivers.CfiFindSector

  Where an address is in a CFI flash: `find_sector` of drivers/mtd/cfi_flash.c, which starts at the
  sector it found last, in whichever bank that was.

  The array `start` of a bank is longer than its sectors; what it holds behind them is left open.
-/

import Mathlib.Order.Nat
import Uboot.Lib.Run
import Uboot.Lib.Tiles

namespace Uboot.Drivers.CfiFindSector

open Uboot.Lib

-- ============================================================================
-- The banks
-- ============================================================================

/-- What `flash_info_t` says of where the sectors of a bank are. -/
structure FlashInfo where
  sectorCount : Nat
  start : Nat → UInt32
  /-- past the last byte -/
  bankEnd : Nat
  sectorCount_pos : 0 < sectorCount
  start_lt : ∀ i, i + 1 < sectorCount → start i < start (i + 1)
  last_lt : (start (sectorCount - 1)).toNat < bankEnd

namespace FlashInfo

variable (info : FlashInfo)

/-- Where a sector ends, past its last byte. -/
def sectorEnd (i : Nat) : Nat := if i = info.sectorCount - 1 then info.bankEnd else (info.start (i + 1)).toNat

/-- Sector `i` of the bank has a byte at `addr`. -/
def Contains (addr : UInt32) (i : Nat) : Prop :=
  i < info.sectorCount ∧ info.start i ≤ addr ∧ addr.toNat < info.sectorEnd i

end FlashInfo

-- ============================================================================
-- find_sector
-- ============================================================================

/-- The first loop, upwards. -/
def searchUp (info : FlashInfo) (addr : UInt32) (sector : Nat) : Nat :=
  if info.start sector < addr ∧ sector < info.sectorCount - 1 then searchUp info addr (sector + 1) else sector
termination_by info.sectorCount - 1 - sector

/-- The second loop, downwards. -/
def searchDown (info : FlashInfo) (addr : UInt32) : Nat → Nat
  | 0 => 0
  | sector + 1 => if info.start (sector + 1) > addr then searchDown info addr sector else sector + 1

/-- `find_sector`; its result is the next `saved_sector`. -/
def findSector (info : FlashInfo) (addr : UInt32) (savedSector : Nat) : Nat :=
  searchDown info addr (searchUp info addr savedSector)

/-- A call with an address inside the bank. -/
structure Call where
  info : FlashInfo
  addr : UInt32
  start_le : info.start 0 ≤ addr
  lt_end : addr.toNat < info.bankEnd

/-- A call in the state `saved_sector`. -/
def call (savedSector : Nat) (c : Call) : Nat × Nat :=
  let sector := findSector c.info c.addr savedSector
  (sector, sector)

/-- The entries of `start` that the bank does not use, up to the saved sector, are above the address. -/
def Call.BehindAbove (savedSector : Nat) (c : Call) : Prop :=
  ∀ k, c.info.sectorCount ≤ k → k ≤ savedSector → c.addr < c.info.start k

-- ============================================================================
-- The sectors of a bank
-- ============================================================================

namespace FlashInfo

variable {info : FlashInfo} {addr : UInt32} {i : Nat}

theorem tiles (info : FlashInfo) : Tiles info.sectorCount (fun i => (info.start i).toNat) info.sectorEnd where
  lt i hi := by
    rw [sectorEnd]
    split
    · next h => exact h ▸ info.last_lt
    · exact UInt32.lt_iff_toNat_lt.1 (info.start_lt i (by omega))
  next i hi := if_neg (by omega)

/-- The sectors that start at or below an address of sector `i` are those up to `i`. -/
theorem Contains.start_le_iff (h : info.Contains addr i) {k : Nat} (hk : k < info.sectorCount) :
    info.start k ≤ addr ↔ k ≤ i := by
  obtain ⟨hi, hle, hlt⟩ := h
  constructor
  · intro hstart
    exact info.tiles.le_of_lt hk (UInt32.le_iff_toNat_le.1 hstart) hlt (Nat.le_refl _)
  · intro hki
    apply UInt32.le_iff_toNat_le.2
    exact (info.tiles.lo_le_lo hki hi).trans (UInt32.le_iff_toNat_le.1 hle)

end FlashInfo

/-- An address inside the bank is in a sector. -/
theorem Call.exists_contains (c : Call) : ∃ i, c.info.Contains c.addr i := by
  have hpos := c.info.sectorCount_pos
  have hend : c.addr.toNat < c.info.sectorEnd (c.info.sectorCount - 1) := by
    rw [FlashInfo.sectorEnd, if_pos rfl]
    exact c.lt_end
  obtain ⟨i, -, hi, hle, hlt⟩ :=
    c.info.tiles.exists_mem (show c.info.sectorCount - 1 < c.info.sectorCount by omega) (Nat.zero_le _)
      (UInt32.le_iff_toNat_le.1 c.start_le) hend
  exact ⟨i, by omega, UInt32.le_iff_toNat_le.2 hle, hlt⟩

-- ============================================================================
-- The loops
-- ============================================================================

section Loops

variable {info : FlashInfo} {addr : UInt32} {sector i : Nat}

/-- From a position behind the sectors the first loop does not move. -/
theorem searchUp_of_ge (h : info.sectorCount ≤ sector) : searchUp info addr sector = sector := by
  have hpos := info.sectorCount_pos
  rw [searchUp, if_neg (by omega)]

/-- From a sector of the bank the first loop ends at one that is not below the address's. -/
theorem searchUp_of_lt (hin : info.Contains addr i) (h : sector < info.sectorCount) :
    i ≤ searchUp info addr sector ∧ searchUp info addr sector < info.sectorCount := by
  fun_induction searchUp info addr sector with
  | case1 sector hgo ih => exact ih (by omega)
  | case2 sector hstop =>
    refine ⟨?_, h⟩
    by_cases hlast : sector < info.sectorCount - 1
    · -- stopped by its start, which is not below the address
      have hge : ¬ info.start sector < addr := fun hlt => hstop ⟨hlt, hlast⟩
      by_contra hbelow
      have hle := (hin.start_le_iff (k := i) hin.1).2 (Nat.le_refl i)
      have hlt : (info.start sector).toNat < (info.start i).toNat :=
        (info.tiles.lt sector h).trans_le (info.tiles.hi_le_lo (Nat.lt_of_not_le hbelow) hin.1)
      rw [UInt32.lt_iff_toNat_lt] at hge
      rw [UInt32.le_iff_toNat_le] at hle
      omega
    · have hi := hin.1
      omega

/-- The second loop ends at the last entry, up to where it starts, that is not above the address. -/
theorem searchDown_eq (hi : i ≤ sector) (hle : info.start i ≤ addr)
    (habove : ∀ k, i < k → k ≤ sector → addr < info.start k) : searchDown info addr sector = i := by
  induction sector with
  | zero =>
    rw [searchDown]
    omega
  | succ sector ih =>
    rw [searchDown]
    by_cases heq : i = sector + 1
    · rw [if_neg (by rw [← heq]; exact UInt32.not_lt.2 hle), heq]
    · rw [if_pos (habove (sector + 1) (by omega) (Nat.le_refl _))]
      exact ih (by omega) fun k hik hk => habove k hik (by omega)

/-- All entries that the second loop passes are above the address. -/
theorem lt_start_of_searchDown_lt {k : Nat} (hk : searchDown info addr sector < k) (hle : k ≤ sector) :
    addr < info.start k := by
  induction sector with
  | zero => omega
  | succ sector ih =>
    rw [searchDown] at hk
    split at hk
    · next habove =>
      by_cases heq : k = sector + 1
      · exact heq ▸ habove
      · exact ih hk (by omega)
    · omega

end Loops

-- ============================================================================
-- One call, and runs of calls
-- ============================================================================

/-- **One call.** -/
theorem contains_findSector_iff (savedSector : Nat) (c : Call) :
    c.info.Contains c.addr (findSector c.info c.addr savedSector) ↔ c.BehindAbove savedSector := by
  obtain ⟨i, hin⟩ := c.exists_contains
  have hstart := (hin.start_le_iff hin.1).2 (Nat.le_refl i)
  -- between the sector of the address and the last one
  have hbetween : ∀ k, i < k → k < c.info.sectorCount → c.addr < c.info.start k := by
    intro k hik hk
    have hnot := (hin.start_le_iff hk).not.2 (by omega)
    exact UInt32.not_le.1 hnot
  by_cases hsaved : savedSector < c.info.sectorCount
  · obtain ⟨hge, hlt⟩ := searchUp_of_lt hin hsaved
    have hfind : findSector c.info c.addr savedSector = i :=
      searchDown_eq hge hstart fun k hik hk => hbetween k hik (by omega)
    rw [hfind]
    exact ⟨fun _ k hk hks => absurd hks (by omega), fun _ => hin⟩
  · rw [findSector, searchUp_of_ge (Nat.not_lt.1 hsaved)]
    constructor
    · intro hfound k hk hks
      exact lt_start_of_searchDown_lt (Nat.lt_of_lt_of_le hfound.1 hk) hks
    · intro hbehind
      have hi := hin.1
      have hfind : searchDown c.info c.addr savedSector = i := by
        apply searchDown_eq (by omega) hstart
        intro k hik hk
        by_cases hcount : k < c.info.sectorCount
        · exact hbetween k hik hcount
        · exact hbehind k (Nat.not_lt.1 hcount) hk
      rw [hfind]
      exact hin

/-- **Runs.** All results of a sequence of calls are right just when at every call the entries that
    its bank does not use, up to the sector saved by then, are above the address. -/
theorem contains_answers_iff (savedSector : Nat) (cs : List Call) :
    List.Forall₂ (fun c sector => c.info.Contains c.addr sector) cs (answers call savedSector cs) ↔
      Guarded (fun saved c => (call saved c).1) (fun saved c => c.BehindAbove saved) savedSector cs :=
  answers_forall₂_iff_guarded (fun saved c => contains_findSector_iff saved c) savedSector cs

/-- Banks that have the same number of sectors do not mislead each other. -/
theorem contains_answers_of_sectorCount {n savedSector : Nat} {cs : List Call} (hsaved : savedSector < n)
    (hcs : ∀ c ∈ cs, c.info.sectorCount = n) :
    List.Forall₂ (fun c sector => c.info.Contains c.addr sector) cs (answers call savedSector cs) := by
  have hright : ∀ (saved : Nat) (c : Call), saved < n → c.info.sectorCount = n →
      c.info.Contains c.addr (call saved c).2 :=
    fun saved c h hn => (contains_findSector_iff saved c).2 fun k hk hks => absurd hks (by omega)
  have hinv : ∀ (saved : Nat) (c : Call), saved < n → c.info.sectorCount = n → (call saved c).1 < n :=
    fun saved c h hn => hn ▸ (hright saved c h hn).1
  exact answers_forall₂ hinv hright hsaved (guarded_of_forall hcs)

/-- Four sectors from 0 on. -/
def fourSectors : FlashInfo where
  sectorCount := 4
  start i := UInt32.ofNat (0x10000 * i)
  bankEnd := 0x40000
  sectorCount_pos := Nat.succ_pos _
  start_lt i hi := by
    obtain rfl | rfl | rfl : i = 0 ∨ i = 1 ∨ i = 2 := by omega
    all_goals decide
  last_lt := by decide

/-- Two sectors from 0x1000000 on; the rest of `start` is clear. -/
def twoSectors : FlashInfo where
  sectorCount := 2
  start i := if i = 0 then 0x1000000 else if i = 1 then 0x1010000 else 0
  bankEnd := 0x1020000
  sectorCount_pos := Nat.two_pos
  start_lt i hi := by
    obtain rfl : i = 0 := Nat.lt_one_iff.mp (Nat.lt_of_succ_lt_succ hi)
    decide
  last_lt := by decide

/-- The last sector of the larger bank, then the first of the smaller one. -/
theorem not_contains_answers :
    ¬ ∀ cs : List Call, List.Forall₂ (fun c sector => c.info.Contains c.addr sector) cs (answers call 0 cs) := by
  intro hall
  have h := (contains_answers_iff 0 _).1
    (hall [⟨fourSectors, 0x30000, by decide, by decide⟩, ⟨twoSectors, 0x1000000, by decide, by decide⟩])
  have hfirst : findSector fourSectors 0x30000 0 = 3 := by
    have hup : searchUp fourSectors 0x30000 0 = 3 := by
      rw [searchUp, if_pos (by decide), searchUp, if_pos (by decide), searchUp, if_pos (by decide), searchUp,
        if_neg (by decide)]
    rw [findSector, hup]
    decide
  have hsaved : 2 ≤ findSector fourSectors 0x30000 0 := by
    rw [hfirst]
    decide
  have hbehind := h.2.1 2 (Nat.le_refl 2) hsaved
  exact absurd hbehind (by decide)

end Uboot.Drivers.CfiFindSector
