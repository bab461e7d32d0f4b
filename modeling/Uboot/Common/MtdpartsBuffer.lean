/-
  Uboot.Common.MtdpartsBuffer

  `generate_mtdparts` and `generate_mtdparts_save` on the bytes of their buffer.

  The text begins with "mtdparts=", which `sprintf` writes before `maxlen` is looked at
  and which is never taken off it.  So the pieces behind it are allowed nine bytes more
  than there are.
-/

import Uboot.Common.CmdMtdparts
import Uboot.Lib.Ram
import Uboot.Lib.Holds

namespace Uboot.Common.CmdMtdparts

open Uboot.Lib Uboot.LibGeneric

-- ============================================================================
-- The functions
-- ============================================================================

/-- The pieces copied to `p`, each if it is no longer than what is left of `maxlen`; and
    `p` behind the last one, or `none` for the jump to `cleanup`. -/
def copyTo (ram : Ram) (p maxlen : Nat) : List (List UInt8) → Ram × Option Nat
  | [] => (ram, some p)
  | piece :: pieces =>
    if maxlen < piece.length then (ram, none)
    else copyTo (ram.store p piece) (p + piece.length) (maxlen - piece.length) pieces

/-- What a call leaves: the memory, and `p` behind the text if 0 is returned. -/
structure Generated where
  ram : Ram
  stop : Option Nat

/-- `generate_mtdparts`.  When it returns 1, `last_parts` has been emptied too. -/
def generateMtdpartsTo (cells : Mem UInt8) (buf : Nat) (buflen : UInt32)
    (devices : List MtdDevice) : Generated :=
  let ram : Ram := ⟨cells, []⟩
  if devices = [] then ⟨ram.store buf [0], some buf⟩
  else
    let maxlen := usub buflen.toNat 1
    let ram := ram.store buf (mtdpartsPrefix ++ [0])
    let r := copyTo ram (buf + mtdpartsPrefix.length) maxlen (devicesPieces devices)
    match r.2 with
    | none => ⟨r.1, none⟩
    | some p => ⟨r.1.store p [0], some p⟩

/-- What a call of `generate_mtdparts_save` leaves: the memory, whether it returns 0, and
    the variable `mtdparts`. -/
structure Saved where
  ram : Ram
  ok : Bool
  mtdparts : Option (List UInt8)

/-- `generate_mtdparts_save`. -/
def generateMtdpartsSave (cells : Mem UInt8) (buf : Nat) (buflen : UInt32)
    (devices : List MtdDevice) : Saved :=
  let g := generateMtdpartsTo cells buf buflen devices
  match g.stop with
  | none => ⟨g.ram, false, none⟩
  | some p =>
    if g.ram.cells buf ≠ 0 then
      ⟨g.ram, true, some ((g.ram.cells.read buf (p - buf)).takeWhile (· ≠ 0))⟩
    else ⟨g.ram, true, none⟩

-- ============================================================================
-- What is wanted of them
-- ============================================================================

/-- The whole text for a list of devices. -/
def mtdpartsText (devices : List MtdDevice) : List UInt8 :=
  if devices = [] then [] else mtdpartsPrefix ++ (devicesPieces devices).flatten

/-- Only the buffer is written to, and 0 is returned only with the whole text in it. -/
structure StaysInside (cells : Mem UInt8) (buf : Nat) (buflen : UInt32)
    (devices : List MtdDevice) : Prop where
  inside : (generateMtdpartsTo cells buf buflen devices).ram.WritesIn ⟨buf, buflen.toNat⟩
  complete : (generateMtdpartsSave cells buf buflen devices).ok = true →
    (mtdpartsText devices).length < buflen.toNat ∧
      (generateMtdpartsSave cells buf buflen devices).ram.cells.Holds buf (mtdpartsText devices ++ [0])

/-- The leading pieces that fit into `n` bytes together. -/
def fitting : Nat → List (List UInt8) → List (List UInt8)
  | _, [] => []
  | n, piece :: pieces => if n < piece.length then [] else piece :: fitting (n - piece.length) pieces

/-- What fits into `buflen - 1` bytes still fits with "mtdparts=" in front and, if it is
    everything, with a terminator behind it. -/
def RoomForPrefix (buflen : UInt32) (devices : List MtdDevice) : Prop :=
  if devices = [] then 1 ≤ buflen.toNat
  else
    let pieces := devicesPieces devices
    let copied := fitting (usub buflen.toNat 1) pieces
    10 ≤ buflen.toNat ∧
      9 + copied.flatten.length + (if copied = pieces then 1 else 0) ≤ buflen.toNat

instance (buflen : UInt32) (devices : List MtdDevice) : Decidable (RoomForPrefix buflen devices) :=
  inferInstanceAs (Decidable (ite _ _ _))

-- ============================================================================
-- The copies
-- ============================================================================

theorem mtdpartsPrefix_length : mtdpartsPrefix.length = 9 := by decide

section Copy

variable {pieces : List (List UInt8)}

/-- The loops copy the leading pieces that fit, and jump to `cleanup` unless these are
    all. -/
theorem copyTo_eq (ram : Ram) (p n : Nat) (pieces : List (List UInt8)) :
    ram.Stored p (fitting n pieces).flatten (copyTo ram p n pieces).1 ∧
      (copyTo ram p n pieces).2 =
        if fitting n pieces = pieces then some (p + pieces.flatten.length) else none := by
  induction pieces generalizing ram p n with
  | nil => exact ⟨ram.stored_nil p, rfl⟩
  | cons piece pieces ih =>
    by_cases hn : n < piece.length
    · simp only [copyTo, fitting, if_pos hn]
      exact ⟨ram.stored_nil p, rfl⟩
    · obtain ⟨hstored, hstop⟩ := ih (ram.store p piece) (p + piece.length) (n - piece.length)
      simp only [copyTo, fitting, if_neg hn, List.flatten_cons, List.cons.injEq, true_and,
        List.length_append]
      refine ⟨(ram.stored_store p piece).append hstored, ?_⟩
      rw [hstop, Nat.add_assoc]

/-- The pieces one behind the other, if they all fit. -/
theorem copyPieces_eq (n : Nat) (pieces : List (List UInt8)) :
    copyPieces n pieces = if fitting n pieces = pieces then some pieces.flatten else none := by
  induction pieces generalizing n with
  | nil => rfl
  | cons piece pieces ih =>
    by_cases hn : n < piece.length
    · simp [copyPieces, fitting, hn]
    · simp only [copyPieces, fitting, if_neg hn, ih, List.flatten_cons, List.cons.injEq, true_and]
      split <;> rfl

end Copy

section Generate

variable {cells : Mem UInt8} {buf : Nat} {buflen : UInt32} {devices : List MtdDevice}

/-- Everything fits: the whole text is left, with a terminator. -/
theorem generate_whole (h : devices ≠ [])
    (hfit : fitting (usub buflen.toNat 1) (devicesPieces devices) = devicesPieces devices) :
    (generateMtdpartsTo cells buf buflen devices).stop = some (buf + (mtdpartsText devices).length) ∧
      (generateMtdpartsTo cells buf buflen devices).ram.cells.Holds buf (mtdpartsText devices ++ [0]) ∧
      (generateMtdpartsTo cells buf buflen devices).ram.written =
        (Extent.mk buf 10).cells ∪ (Extent.mk buf ((mtdpartsText devices).length + 1)).cells := by
  have hcopy := copyTo_eq ((⟨cells, []⟩ : Ram).store buf (mtdpartsPrefix ++ [0]))
    (buf + mtdpartsPrefix.length) (usub buflen.toNat 1) (devicesPieces devices)
  rw [hfit, if_pos rfl] at hcopy
  obtain ⟨⟨hcells, hwritten⟩, hstop⟩ := hcopy
  have hlen : buf + mtdpartsPrefix.length + (devicesPieces devices).flatten.length =
      buf + (mtdpartsPrefix ++ (devicesPieces devices).flatten).length := by
    rw [List.length_append, Nat.add_assoc]
  simp only [generateMtdpartsTo, if_neg h, hstop, mtdpartsText, hlen]
  refine ⟨trivial, ?_, ?_⟩
  · have htext : (copyTo ((⟨cells, []⟩ : Ram).store buf (mtdpartsPrefix ++ [0]))
        (buf + mtdpartsPrefix.length) (usub buflen.toNat 1)
        (devicesPieces devices)).1.cells.Holds buf
          (mtdpartsPrefix ++ (devicesPieces devices).flatten) := by
      rw [hcells, Mem.holds_append]
      refine ⟨?_, Mem.holds_write _ _ _⟩
      have hprefix := (Mem.holds_write cells buf (mtdpartsPrefix ++ [0])).left
      exact hprefix.congr fun x _ hx => Mem.write_outside _ (.inl hx)
    rw [Mem.holds_append]
    exact ⟨htext.congr fun x _ hx => Mem.write_outside _ (.inl hx), Mem.holds_write _ _ _⟩
  · rw [Ram.written_store, hwritten, Ram.written_store]
    ext x
    simp [Ram.written, Extent.stop, mtdpartsPrefix_length]
    omega

/-- Something does not fit: the buffer has been written up to there. -/
theorem generate_cut (h : devices ≠ [])
    (hfit : fitting (usub buflen.toNat 1) (devicesPieces devices) ≠ devicesPieces devices) :
    (generateMtdpartsTo cells buf buflen devices).stop = none ∧
      (generateMtdpartsTo cells buf buflen devices).ram.written =
        (Extent.mk buf 10).cells ∪ (Extent.mk buf
          (9 + (fitting (usub buflen.toNat 1) (devicesPieces devices)).flatten.length)).cells := by
  have hcopy := copyTo_eq ((⟨cells, []⟩ : Ram).store buf (mtdpartsPrefix ++ [0]))
    (buf + mtdpartsPrefix.length) (usub buflen.toNat 1) (devicesPieces devices)
  rw [if_neg hfit] at hcopy
  obtain ⟨⟨-, hwritten⟩, hstop⟩ := hcopy
  simp only [generateMtdpartsTo, if_neg h, hstop, true_and]
  rw [hwritten, Ram.written_store]
  ext x
  simp [Ram.written, Extent.stop, mtdpartsPrefix_length]
  omega

/-- With the buffer that the commands have, the text is the one of the lists. -/
theorem generateMtdparts_eq (cells : Mem UInt8) (buf : Nat) (devices : List MtdDevice) :
    generateMtdparts devices =
      (generateMtdpartsTo cells buf 512 devices).stop.map fun _ => mtdpartsText devices := by
  by_cases h : devices = []
  · rw [generateMtdparts, if_pos h, generateMtdpartsTo, if_pos h, mtdpartsText, if_pos h]
    rfl
  · have hmaxlen : usub (UInt32.toNat 512) 1 = mtdpartsMaxlen - 1 := by decide
    rw [generateMtdparts, if_neg h, copyPieces_eq]
    by_cases hfit : fitting (mtdpartsMaxlen - 1) (devicesPieces devices) = devicesPieces devices
    · rw [if_pos hfit, (generate_whole h (hmaxlen ▸ hfit)).1, mtdpartsText, if_neg h]
      rfl
    · rw [if_neg hfit, (generate_cut h (hmaxlen ▸ hfit)).1]
      rfl

/-- The two ranges that are written lie in the buffer. -/
theorem union_subset_iff {n k : Nat} :
    (Extent.mk buf 10).cells ∪ (Extent.mk buf n).cells ⊆ (Extent.mk buf k).cells ↔ 10 ≤ k ∧ n ≤ k := by
  rw [Set.union_subset_iff, Extent.cells_subset_iff, Extent.cells_subset_iff]
  omega

theorem mtdpartsText_length (h : devices ≠ []) :
    (mtdpartsText devices).length = 9 + (devicesPieces devices).flatten.length := by
  rw [mtdpartsText, if_neg h, List.length_append, mtdpartsPrefix_length]

/-- What is written lies in the buffer just when there is room for the prefix too. -/
theorem writesIn_iff_room :
    (generateMtdpartsTo cells buf buflen devices).ram.WritesIn ⟨buf, buflen.toNat⟩ ↔
      RoomForPrefix buflen devices := by
  rw [Ram.writesIn_iff]
  by_cases h : devices = []
  · rw [generateMtdpartsTo, if_pos h, RoomForPrefix, if_pos h, Ram.written_store]
    have hnone : (⟨cells, []⟩ : Ram).written = ∅ := by simp [Ram.written]
    rw [hnone, Set.empty_union, Extent.cells_subset_iff, List.length_singleton]
    omega
  · simp only [RoomForPrefix, if_neg h]
    by_cases hfit : fitting (usub buflen.toNat 1) (devicesPieces devices) = devicesPieces devices
    · rw [(generate_whole h hfit).2.2, union_subset_iff, mtdpartsText_length h, hfit, if_pos rfl]
    · rw [(generate_cut h hfit).2, union_subset_iff, if_neg hfit, Nat.add_zero]

/-- 0 is returned only when everything has fitted, so the text is there. -/
theorem complete_of_ok (hroom : RoomForPrefix buflen devices)
    (hok : (generateMtdpartsSave cells buf buflen devices).ok = true) :
    (mtdpartsText devices).length < buflen.toNat ∧
      (generateMtdpartsSave cells buf buflen devices).ram.cells.Holds buf (mtdpartsText devices ++ [0]) := by
  have hram : (generateMtdpartsSave cells buf buflen devices).ram =
      (generateMtdpartsTo cells buf buflen devices).ram := by
    simp only [generateMtdpartsSave]
    split
    · rfl
    · split <;> rfl
  have hstop : (generateMtdpartsTo cells buf buflen devices).stop ≠ none := by
    intro hnone
    simp [generateMtdpartsSave, hnone] at hok
  rw [hram]
  by_cases h : devices = []
  · rw [RoomForPrefix, if_pos h] at hroom
    rw [mtdpartsText, if_pos h, generateMtdpartsTo, if_pos h]
    exact ⟨hroom, Mem.holds_write _ _ _⟩
  · simp only [RoomForPrefix, if_neg h] at hroom
    by_cases hfit : fitting (usub buflen.toNat 1) (devicesPieces devices) = devicesPieces devices
    · rw [hfit, if_pos rfl] at hroom
      refine ⟨?_, (generate_whole h hfit).2.1⟩
      rw [mtdpartsText_length h]
      omega
    · exact absurd (generate_cut h hfit).1 hstop

/-- **When the text stays inside its buffer.** -/
theorem staysInside_iff (cells : Mem UInt8) (buf : Nat) (buflen : UInt32)
    (devices : List MtdDevice) :
    StaysInside cells buf buflen devices ↔ RoomForPrefix buflen devices :=
  ⟨fun h => writesIn_iff_room.mp h.inside,
    fun h => ⟨writesIn_iff_room.mpr h, complete_of_ok h⟩⟩

end Generate

/-- A partition with a name of 460 letters, and behind it one with a name of `n`. -/
def longNames (n : Nat) : List MtdDevice :=
  [⟨⟨.nand, 0, 0x100000, ascii "n"⟩,
    [⟨List.replicate 460 97, false, 4096, 0, 0, true⟩,
      ⟨List.replicate n 98, false, 4096, 4096, 0, true⟩]⟩]

/-- In the 512 bytes that the commands have, a text of 512 leaves its terminator outside. -/
theorem not_staysInside_longNames : ¬ StaysInside (fun _ => 0) 0 512 (longNames 32) := by
  intro h
  have hroom : ¬ RoomForPrefix 512 (longNames 32) := by decide +kernel
  exact hroom (writesIn_iff_room.mp h.inside)

end Uboot.Common.CmdMtdparts
