/-
  Uboot.Common.ImageMove

  `memmove_wd` of common/image.c, as a watchdog has it: chunk by chunk from the start on. And what
  `bootm_load_os` of common/cmd_bootm.c makes of it for an image that is not compressed.
-/

import Mathlib.Data.PNat.Notation
import Uboot.LibGeneric.Memmove

namespace Uboot.Common.ImageMove

open Uboot.Lib (Mem)
open Uboot.LibGeneric (memmove memmove_eq_copy)

-- ============================================================================
-- The functions
-- ============================================================================

/-- `memmove_wd (dst, src, len, chunksz)`, with CONFIG_WATCHDOG or CONFIG_HW_WATCHDOG. -/
def memmoveWd (chunksz : ℕ+) (m : Mem UInt8) (dst src len : Nat) : Mem UInt8 :=
  if _h : len > 0 then
    let tail := if len > chunksz then (chunksz : Nat) else len
    memmoveWd chunksz (memmove m dst src tail) (dst + tail) (src + tail) (len - tail)
  else m
termination_by len
decreasing_by
  have hpos := chunksz.pos
  split <;> omega

def CHUNKSZ : ℕ+ := ⟨64 * 1024, by decide⟩

/-- What `image_info_t` says of where an image is and where it goes. -/
structure ImageInfo where
  start : Nat
  blobEnd : Nat
  imageStart : Nat
  imageLen : Nat
  load : Nat

def BOOTM_ERR_OVERLAP : Int := -2

/-- What `bootm_load_os` leaves: the memory, `*load_end` and its value. -/
structure Loaded where
  mem : Mem UInt8
  loadEnd : Nat
  ret : Int

/-- `bootm_load_os`, for an image with IH_COMP_NONE. -/
def bootmLoadOs (m : Mem UInt8) (os : ImageInfo) : Loaded :=
  let mem :=
    if os.load = os.start then m -- XIP
    else if os.load ≠ os.imageStart then memmoveWd CHUNKSZ m os.load os.imageStart os.imageLen
    else m
  let loadEnd := os.load + os.imageLen
  ⟨mem, loadEnd, if os.load < os.blobEnd ∧ loadEnd > os.start then BOOTM_ERR_OVERLAP else 0⟩

-- ============================================================================
-- Chunks
-- ============================================================================

/-- The area moves up by less than its length, in more than one chunk. -/
def Overtakes (chunksz : ℕ+) (dst src len : Nat) : Prop := src < dst ∧ dst < src + len ∧ (chunksz : Nat) < len

variable {chunksz : ℕ+} {m : Mem UInt8} {dst src len i : Nat}

/-- The first chunk, and the rest. -/
theorem memmoveWd_step (h : (chunksz : Nat) < len) :
    memmoveWd chunksz m dst src len =
      memmoveWd chunksz (m.copy dst src chunksz) (dst + chunksz) (src + chunksz) (len - chunksz) := by
  rw [memmoveWd, dif_pos (by omega)]
  dsimp only
  rw [if_pos h, memmove_eq_copy]

/-- One chunk is enough. -/
theorem memmoveWd_of_le (h : len ≤ chunksz) : memmoveWd chunksz m dst src len = m.copy dst src len := by
  rw [memmoveWd]
  split
  · dsimp only
    rw [if_neg (by omega), memmove_eq_copy, Nat.sub_self, memmoveWd, dif_neg (by omega)]
  · funext x
    exact (m.copy_outside (by omega)).symm

theorem memmoveWd_outside {x : Nat} (h : x < dst ∨ dst + len ≤ x) : memmoveWd chunksz m dst src len x = m x := by
  induction len using Nat.strong_induction_on generalizing m dst src with
  | _ len ih =>
    have hpos := chunksz.pos
    by_cases hlen : (chunksz : Nat) < len
    · rw [memmoveWd_step hlen, ih (len - chunksz) (by omega) (by omega), m.copy_outside (by omega)]
    · rw [memmoveWd_of_le (Nat.not_lt.mp hlen), m.copy_outside h]

/-- A byte that lies before the destination is moved as it is. -/
theorem memmoveWd_of_before (hi : i < len) (h : src + i < dst) :
    memmoveWd chunksz m dst src len (dst + i) = m (src + i) := by
  induction len using Nat.strong_induction_on generalizing m dst src i with
  | _ len ih =>
    have hpos := chunksz.pos
    by_cases hlen : (chunksz : Nat) < len
    · rw [memmoveWd_step hlen]
      by_cases hfirst : i < chunksz
      · rw [memmoveWd_outside (by omega), m.copy_inside (by omega) (by omega), Nat.add_sub_cancel_left]
      · obtain ⟨k, rfl⟩ := Nat.exists_eq_add_of_le (Nat.not_lt.mp hfirst)
        have hrest := @ih (len - chunksz) (by omega) (m.copy dst src chunksz) (dst + chunksz) (src + chunksz) k
          (by omega) (by omega)
        rw [Nat.add_assoc, Nat.add_assoc] at hrest
        rw [hrest, m.copy_outside (by omega)]
    · rw [memmoveWd_of_le (Nat.not_lt.mp hlen), m.copy_inside (by omega) (by omega), Nat.add_sub_cancel_left]

/-- Where no chunk overwrites what a later one moves, the chunks make one move. -/
theorem memmoveWd_eq_copy (h : dst ≤ src ∨ src + len ≤ dst) : memmoveWd chunksz m dst src len = m.copy dst src len := by
  induction len using Nat.strong_induction_on generalizing m dst src with
  | _ len ih =>
    have hpos := chunksz.pos
    by_cases hlen : (chunksz : Nat) < len
    · rw [memmoveWd_step hlen, ih (len - chunksz) (by omega) (by omega)]
      funext x
      by_cases hrest : dst + chunksz ≤ x ∧ x < dst + len
      · rw [Mem.copy_inside _ hrest.1 (by omega), m.copy_inside (by omega) hrest.2, m.copy_outside (by omega)]
        congr 1
        omega
      · rw [Mem.copy_outside _ (by omega)]
        by_cases hfirst : dst ≤ x ∧ x < dst + chunksz
        · rw [m.copy_inside hfirst.1 hfirst.2, m.copy_inside hfirst.1 (by omega)]
        · rw [m.copy_outside (by omega), m.copy_outside (by omega)]
    · exact memmoveWd_of_le (Nat.not_lt.mp hlen)

/-- A memory in which the byte that the first chunk overwrites is not the one that it puts there. -/
theorem exists_memmoveWd_ne (h : Overtakes chunksz dst src len) :
    ∃ m, ∃ i < len, memmoveWd chunksz m dst src len (dst + i) ≠ m (src + i) := by
  obtain ⟨hup, hmeet, hlen⟩ := h
  have hpos := chunksz.pos
  -- the first byte behind the first chunk that this chunk overwrites
  let i := max (dst - src) chunksz
  have hi : dst - src ≤ i ∧ (chunksz : Nat) ≤ i ∧ i < len ∧ src + i < dst + chunksz := by omega
  obtain ⟨hdist, hbehind, hlast, hhit⟩ := hi
  generalize i = i at hdist hbehind hlast hhit
  let m : Mem UInt8 := fun x => if x = src + i then 1 else 0
  refine ⟨m, i, hlast, ?_⟩
  obtain ⟨k, rfl⟩ := Nat.exists_eq_add_of_le hbehind
  have hrest := @memmoveWd_of_before chunksz (m.copy dst src chunksz) (dst + chunksz) (src + chunksz) (len - chunksz) k
    (by omega) (by omega)
  rw [Nat.add_assoc, Nat.add_assoc] at hrest
  rw [memmoveWd_step hlen, hrest, m.copy_inside (by omega) hhit]
  have hput : m (src + (src + (↑chunksz + k) - dst)) = 0 := if_neg (by omega)
  have hbyte : m (src + (↑chunksz + k)) = 1 := if_pos rfl
  rw [hput, hbyte]
  decide

-- ============================================================================
-- The move
-- ============================================================================

/-- The chunks leave every memory as one move of the whole area does. -/
def MovesAsOne (chunksz : ℕ+) (dst src len : Nat) : Prop :=
  ∀ m, memmoveWd chunksz m dst src len = memmove m dst src len

/-- `bootm_load_os` leaves the image at its load address, whatever the memory. -/
def PlacesImage (os : ImageInfo) : Prop :=
  ∀ m, (bootmLoadOs m os).mem.read os.load os.imageLen = m.read os.imageStart os.imageLen

theorem movesAsOne_of_not_overtakes (h : ¬Overtakes chunksz dst src len) : MovesAsOne chunksz dst src len := by
  intro m
  rw [memmove_eq_copy]
  by_cases hlen : len ≤ chunksz
  · exact memmoveWd_of_le hlen
  · rw [Overtakes] at h
    exact memmoveWd_eq_copy (by omega)

theorem not_movesAsOne_of_overtakes (h : Overtakes chunksz dst src len) : ¬MovesAsOne chunksz dst src len := by
  intro hone
  obtain ⟨m, i, hi, hne⟩ := exists_memmoveWd_ne h
  rw [hone m, memmove_eq_copy, m.copy_inside (by omega) (by omega), Nat.add_sub_cancel_left] at hne
  exact hne rfl

theorem placesImage_iff {os : ImageInfo} (hxip : os.load ≠ os.start) :
    PlacesImage os ↔ ¬Overtakes CHUNKSZ os.load os.imageStart os.imageLen := by
  by_cases hplace : os.load = os.imageStart
  · refine iff_of_true (fun m => ?_) fun h => Nat.ne_of_gt h.1 hplace
    rw [bootmLoadOs]
    dsimp only
    rw [if_neg hxip, if_neg (not_not.mpr hplace), hplace]
  · have hmem : ∀ m, (bootmLoadOs m os).mem = memmoveWd CHUNKSZ m os.load os.imageStart os.imageLen := by
      intro m
      rw [bootmLoadOs]
      dsimp only
      rw [if_neg hxip, if_pos hplace]
    constructor
    · intro h hovertakes
      obtain ⟨m, i, hi, hne⟩ := exists_memmoveWd_ne hovertakes
      have hread := congrArg (·[i]?) (h m)
      rw [hmem, List.getElem?_eq_getElem (by rwa [Mem.read_length]), List.getElem?_eq_getElem (by rwa [Mem.read_length]),
        Mem.getElem_read, Mem.getElem_read] at hread
      exact hne (Option.some.inj hread)
    · intro h m
      rw [hmem, movesAsOne_of_not_overtakes h m, memmove_eq_copy, Mem.copy_eq_write]
      have hread : (m.write os.load (m.read os.imageStart os.imageLen)).read os.load
          (m.read os.imageStart os.imageLen).length = m.read os.imageStart os.imageLen := Mem.read_write m
      rwa [Mem.read_length] at hread

/-- **`memmove_wd`.**  The chunks make one move, just when the area does not move up by less than its
    length in more than one of them; and `bootm_load_os`, which takes chunks of `CHUNKSZ`, leaves an
    image at its load address just then. -/
theorem memmoveWd_iff (chunksz : ℕ+) (dst src len : Nat) :
    (MovesAsOne chunksz dst src len ↔ ¬Overtakes chunksz dst src len) ∧
      ∀ os : ImageInfo, os.load ≠ os.start → (PlacesImage os ↔ ¬Overtakes CHUNKSZ os.load os.imageStart os.imageLen) := by
  refine ⟨⟨fun h hovertakes => not_movesAsOne_of_overtakes hovertakes h, movesAsOne_of_not_overtakes⟩, fun os => ?_⟩
  exact placesImage_iff

/-- Two bytes up by one, byte by byte. -/
theorem not_movesAsOne_up : ¬MovesAsOne 1 1 0 2 := not_movesAsOne_of_overtakes ⟨by decide, by decide, by decide⟩

/-- An image of 100000 bytes, to an address before it. -/
theorem placesImage_down : PlacesImage ⟨0x1000, 0x1000 + 64 + 100000, 0x1000 + 64, 100000, 0xf00⟩ :=
  ((memmoveWd_iff 1 0 0 0).2 ⟨0x1000, 0x1000 + 64 + 100000, 0x1000 + 64, 100000, 0xf00⟩ (by decide)).mpr fun h =>
    absurd h.1 (by decide)

end Uboot.Common.ImageMove
