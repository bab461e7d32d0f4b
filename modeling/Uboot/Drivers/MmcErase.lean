/-
  Uboot.Drivers.MmcErase

  The range `mmc_erase` of drivers/mmc/mmc.c tells a card to erase: the addresses of the first
  and of the last unit, in bytes or in blocks.

  A card erases whole units, from the one with the first address to the one with the last: single
  blocks on an SD card, erase groups on an MMC card.
-/

import Mathlib.Data.List.Infix
import Mathlib.Tactic.SplitIfs

namespace Uboot.Drivers.MmcErase

/-- A command and its argument. -/
structure Command where
  cmdidx : Nat
  cmdarg : UInt32

/-- What was sent, with the answers. -/
abbrev Log := List (Command × Int)

/-- `send_cmd` of the host. -/
abbrev Driver := Log → Command → Int

/-- `struct mmc`; `group` is the number of blocks in an erase group of the card. -/
structure Mmc where
  sd : Bool
  highCapacity : Bool
  group : Nat
  group_pos : 0 < group

-- ============================================================================
-- `mmc_erase`
-- ============================================================================

/-- The block count in units of an MMC card of high capacity, which are taken for 512 KiB. -/
def groupsOf (block : UInt32) : UInt32 :=
  if block < 1024 then
    if block < 512 then 1 else 2
  else if block % 1024 = 0 then block / 1024
  else block / 1024 + 1

/-- `start` and `block` as `mmc_erase` converts them. -/
def Mmc.converted (mmc : Mmc) (start block : UInt32) : UInt32 × UInt32 :=
  if !mmc.highCapacity then (start * 512, block * 512)
  else if !mmc.sd then (start, groupsOf block)
  else (start, block)

/-- Commands until one fails. -/
def sendAll (send : Driver) : Log → List Command → Int × Log
  | log, [] => (0, log)
  | log, cmd :: cmds =>
    let err := send log cmd
    if err ≠ 0 then (err, log ++ [(cmd, err)]) else sendAll send (log ++ [(cmd, err)]) cmds

/-- The commands of `mmc_erase`; `part` is 0 for the boot partition. -/
def Mmc.eraseCommands (mmc : Mmc) (part : Int) (start block : UInt32) : List Command :=
  let c := mmc.converted start block
  (if part = 0 then [⟨6, 0x03B34900⟩] else []) ++
    [⟨if mmc.sd then 32 else 35, c.1⟩, ⟨if mmc.sd then 33 else 36, c.1 + c.2⟩, ⟨38, 0⟩] ++
    if part = 0 then [⟨6, 0x03B34000⟩] else []

/-- `mmc_erase` -/
def mmcErase (send : Driver) (mmc : Mmc) (part : Int) (start block : UInt32) : Int × Log :=
  sendAll send [] (mmc.eraseCommands part start block)

-- ============================================================================
-- What a card erases
-- ============================================================================

/-- The blocks of a unit. -/
def Mmc.unit (mmc : Mmc) : Nat := if mmc.sd then 1 else mmc.group

/-- The block an address is in. -/
def Mmc.blockAt (mmc : Mmc) (arg : UInt32) : Nat := if mmc.highCapacity then arg.toNat else arg.toNat / 512

/-- The addresses that are set when a card is told to erase. -/
def eraseRange (cmds : List Command) : Option (UInt32 × UInt32) :=
  if cmds.any (·.cmdidx = 38) then
    (cmds.find? fun c => c.cmdidx = 32 ∨ c.cmdidx = 35).bind fun first =>
      (cmds.find? fun c => c.cmdidx = 33 ∨ c.cmdidx = 36).map fun last => (first.cmdarg, last.cmdarg)
  else none

/-- Block `b` is in the units from `first` to `last`. -/
def Mmc.Erases (mmc : Mmc) (first last : UInt32) (b : Nat) : Prop :=
  mmc.blockAt first / mmc.unit ≤ b / mmc.unit ∧ b / mmc.unit ≤ mmc.blockAt last / mmc.unit

/-- The range has the requested blocks, and is of the units they touch. -/
def Mmc.RangeRight (mmc : Mmc) (start block : UInt32) (first last : UInt32) : Prop :=
  (∀ b, start.toNat ≤ b → b < start.toNat + block.toNat → mmc.Erases first last b) ∧
    ∀ b, mmc.Erases first last b →
      ∃ b', start.toNat ≤ b' ∧ b' < start.toNat + block.toNat ∧ b' / mmc.unit = b / mmc.unit

/-- **What `mmc_erase` should do**, whatever the card answers. -/
def ErasesRight (mmc : Mmc) (part : Int) (start block : UInt32) : Prop :=
  ∀ (send : Driver) (first last : UInt32),
    eraseRange ((mmcErase send mmc part start block).2.map Prod.fst) = some (first, last) →
      mmc.RangeRight start block first last

-- ============================================================================
-- Units
-- ============================================================================

section Units

variable {G s n a e : Nat}

/-- The units between two that a request touches are touched. -/
theorem exists_in_unit (hG : 0 < G) (hn : n ≠ 0) {b : Nat} (hlow : s / G ≤ b / G) (hhigh : b / G ≤ (s + n - 1) / G) :
    ∃ b', s ≤ b' ∧ b' < s + n ∧ b' / G = b / G := by
  by_cases hs : s ≤ G * (b / G)
  · refine ⟨G * (b / G), hs, ?_, Nat.mul_div_cancel_left _ hG⟩
    have := Nat.mul_le_of_le_div G _ _ hhigh
    rw [Nat.mul_comm] at this
    omega
  · refine ⟨s, Nat.le_refl s, by omega, Nat.le_antisymm hlow ?_⟩
    rw [Nat.le_div_iff_mul_le hG, Nat.mul_comm]
    omega

/-- The range from `a` to `e` covers the request and what it touches just where its ends are in the
    first and the last unit of the request. -/
theorem units_iff (hG : 0 < G) :
    ((∀ b, s ≤ b → b < s + n → a / G ≤ b / G ∧ b / G ≤ e / G) ∧
      ∀ b, a / G ≤ b / G ∧ b / G ≤ e / G → ∃ b', s ≤ b' ∧ b' < s + n ∧ b' / G = b / G) ↔
    if n = 0 then e / G < a / G else a / G = s / G ∧ e / G = (s + n - 1) / G := by
  by_cases hn : n = 0
  · subst hn
    rw [if_pos rfl]
    constructor
    · rintro ⟨-, htouched⟩
      by_contra hle
      obtain ⟨b', hlow, hhigh, -⟩ := htouched a ⟨Nat.le_refl _, by omega⟩
      omega
    · intro hempty
      exact ⟨fun b hlow hhigh => by omega, fun b hb => by omega⟩
  · rw [if_neg hn]
    constructor
    · rintro ⟨hcovered, htouched⟩
      have hfirst := hcovered s (Nat.le_refl s) (by omega)
      have hlast := hcovered (s + n - 1) (by omega) (by omega)
      obtain ⟨b, hb, -, hba⟩ := htouched a ⟨Nat.le_refl _, hfirst.1.trans hfirst.2⟩
      obtain ⟨b', -, hb', hbe⟩ := htouched e ⟨hlast.1.trans hlast.2, Nat.le_refl _⟩
      have hsa := Nat.div_le_div_right (c := G) hb
      have hen := Nat.div_le_div_right (c := G) (show b' ≤ s + n - 1 by omega)
      omega
    · rintro ⟨hfirst, hlast⟩
      rw [hfirst, hlast]
      refine ⟨fun b hlow hhigh => ⟨Nat.div_le_div_right hlow, Nat.div_le_div_right (by omega)⟩, ?_⟩
      rintro b ⟨hlow, hhigh⟩
      exact exists_in_unit hG hn hlow hhigh

end Units

-- ============================================================================
-- The arguments
-- ============================================================================

theorem sendAll_commands (send : Driver) (log : Log) (cmds : List Command) :
    ∃ k, (sendAll send log cmds).2.map Prod.fst = log.map Prod.fst ++ cmds.take k := by
  induction cmds generalizing log with
  | nil => exact ⟨0, by simp [sendAll]⟩
  | cons cmd cmds ih =>
    rw [sendAll]
    split
    · exact ⟨1, by simp⟩
    · obtain ⟨k, hk⟩ := ih (log ++ [(cmd, send log cmd)])
      exact ⟨k + 1, by rw [hk]; simp⟩

theorem sendAll_success (log : Log) (cmds : List Command) :
    (sendAll (fun _ _ => 0) log cmds).2.map Prod.fst = log.map Prod.fst ++ cmds := by
  induction cmds generalizing log with
  | nil => simp [sendAll]
  | cons cmd cmds ih =>
    rw [sendAll, if_neg (not_not.mpr rfl), ih]
    simp

theorem eraseRange_commands (mmc : Mmc) (part : Int) (start block : UInt32) :
    eraseRange (mmc.eraseCommands part start block) =
      some ((mmc.converted start block).1, (mmc.converted start block).1 + (mmc.converted start block).2) := by
  rw [eraseRange, Mmc.eraseCommands]
  by_cases hpart : part = 0 <;> cases mmc.sd <;> simp [hpart]

/-- The addresses are set by the first commands. -/
theorem eraseRange_mono {cmds cmds' : List Command} (h : cmds <+: cmds') {range : UInt32 × UInt32}
    (hrange : eraseRange cmds = some range) : eraseRange cmds' = some range := by
  rw [eraseRange] at hrange ⊢
  split at hrange
  · next hany =>
    obtain ⟨c, hc, hidx⟩ := List.any_eq_true.mp hany
    rw [if_pos (List.any_eq_true.mpr ⟨c, h.subset hc, hidx⟩)]
    obtain ⟨first, hfirst, hmap⟩ := Option.bind_eq_some_iff.mp hrange
    obtain ⟨last, hlast, rfl⟩ := Option.map_eq_some_iff.mp hmap
    rw [h.find?_eq_some hfirst, Option.bind_some, h.find?_eq_some hlast, Option.map_some]
  · cases hrange

/-- Only the range of the converted arguments is ever erased. -/
theorem erasesRight_iff_range (mmc : Mmc) (part : Int) (start block : UInt32) :
    ErasesRight mmc part start block ↔ mmc.RangeRight start block (mmc.converted start block).1
      ((mmc.converted start block).1 + (mmc.converted start block).2) := by
  have hcommands := eraseRange_commands mmc part start block
  constructor
  · intro h
    refine h (fun _ _ => 0) _ _ ?_
    rw [mmcErase, sendAll_success]
    exact hcommands
  · intro h send first last hrange
    obtain ⟨k, hk⟩ := sendAll_commands send [] (mmc.eraseCommands part start block)
    rw [mmcErase, hk] at hrange
    have hsame := hcommands.symm.trans (eraseRange_mono (List.take_prefix k _) hrange)
    obtain ⟨rfl, rfl⟩ := Prod.mk.inj (Option.some.inj hsame)
    exact h

-- ============================================================================
-- When the range is right
-- ============================================================================

/-- The number of blocks that can be addressed. -/
def Mmc.addressable (mmc : Mmc) : Nat := if mmc.highCapacity then 4294967296 else 8388608

/-- How far the second address is behind the first one: the blocks, or the groups of an MMC card of high
    capacity. -/
def Mmc.distance (mmc : Mmc) (n : Nat) : Nat :=
  if mmc.highCapacity ∧ mmc.sd = false then
    if n < 512 then 1 else if n < 1024 then 2 else (n + 1023) / 1024
  else n

theorem groupsOf_toNat (block : UInt32) : (groupsOf block).toNat =
    if block.toNat < 512 then 1 else if block.toNat < 1024 then 2 else (block.toNat + 1023) / 1024 := by
  have hlt := block.toNat_lt
  have h1024 : block < 1024 ↔ block.toNat < 1024 := UInt32.lt_iff_toNat_lt
  have h512 : block < 512 ↔ block.toNat < 512 := UInt32.lt_iff_toNat_lt
  have hmod : block % 1024 = 0 ↔ block.toNat % 1024 = 0 := by
    rw [← UInt32.toNat_inj, UInt32.toNat_mod]
    rfl
  have hdiv : (block / 1024).toNat = block.toNat / 1024 := UInt32.toNat_div _ _
  rw [groupsOf]
  by_cases hsmall : block.toNat < 1024
  · rw [if_pos (h1024.mpr hsmall), if_pos hsmall]
    by_cases htiny : block.toNat < 512
    · rw [if_pos (h512.mpr htiny), if_pos htiny]
      rfl
    · rw [if_neg fun h => htiny (h512.mp h), if_neg htiny]
      rfl
  · rw [if_neg fun h => hsmall (h1024.mp h), if_neg (show ¬ block.toNat < 512 by omega), if_neg hsmall]
    by_cases hwhole : block.toNat % 1024 = 0
    · rw [if_pos (hmod.mpr hwhole), hdiv]
      omega
    · rw [if_neg fun h => hwhole (hmod.mp h), UInt32.toNat_add, hdiv, show (1 : UInt32).toNat = 1 from rfl]
      omega

/-- The blocks of the two addresses. -/
theorem blockAt_converted (mmc : Mmc) (start block : UInt32) :
    mmc.blockAt (mmc.converted start block).1 = start.toNat % mmc.addressable ∧
      mmc.blockAt ((mmc.converted start block).1 + (mmc.converted start block).2) =
        (start.toNat + mmc.distance block.toNat) % mmc.addressable := by
  have hs := start.toNat_lt
  have hb := block.toNat_lt
  rw [Mmc.converted, Mmc.blockAt, Mmc.blockAt, Mmc.addressable, Mmc.distance]
  by_cases hhigh : mmc.highCapacity = true
  · by_cases hsd : mmc.sd = true
    · simp [hhigh, hsd]
    · simp [hhigh, hsd, groupsOf_toNat]
  · simp [hhigh]
    omega

theorem addressable_gt_one (mmc : Mmc) : 1 < mmc.addressable := by
  rw [Mmc.addressable]
  split <;> decide

/-- On an SD card the second address is a block too far. -/
theorem not_erasesRight_sd {mmc : Mmc} (hsd : mmc.sd = true) (part : Int) (start block : UInt32) :
    ¬ ErasesRight mmc part start block := by
  obtain ⟨hfirst, hlast⟩ := blockAt_converted mmc start block
  have hunit : mmc.unit = 1 := if_pos hsd
  have hdistance : mmc.distance block.toNat = block.toNat := if_neg fun h => by rw [hsd] at h; cases h.2
  have hbig := addressable_gt_one mmc
  rw [erasesRight_iff_range]
  intro h
  have hunits := (units_iff (show 0 < mmc.unit by omega)).mp h
  rw [hfirst, hlast, hdistance, hunit] at hunits
  simp only [Nat.div_one] at hunits
  split at hunits
  · next hn =>
    rw [hn, Nat.add_zero] at hunits
    omega
  · next hn =>
    obtain ⟨-, hend⟩ := hunits
    by_cases hin : start.toNat + block.toNat < mmc.addressable
    · rw [Nat.mod_eq_of_lt hin] at hend
      omega
    · rw [Nat.mod_eq_sub_mod (by omega)] at hend
      have := Nat.mod_le (start.toNat + block.toNat - mmc.addressable) mmc.addressable
      omega

/-- **Erase range.**  It is right just on an MMC card where the two addresses can be represented and the
    second one is in the group of the last block (for no blocks: where it wraps in front of the first). -/
theorem erasesRight_iff (mmc : Mmc) (part : Int) (start block : UInt32) :
    ErasesRight mmc part start block ↔ mmc.sd = false ∧
      if block.toNat = 0 then
        (start.toNat + mmc.distance 0) % mmc.addressable / mmc.group < start.toNat % mmc.addressable / mmc.group
      else
        start.toNat % mmc.addressable / mmc.group = start.toNat / mmc.group ∧
          (start.toNat + mmc.distance block.toNat) % mmc.addressable / mmc.group =
            (start.toNat + block.toNat - 1) / mmc.group := by
  by_cases hsd : mmc.sd = true
  · exact iff_of_false (not_erasesRight_sd hsd part start block) fun h => by rw [hsd] at h; cases h.1
  · obtain ⟨hfirst, hlast⟩ := blockAt_converted mmc start block
    have hunit : mmc.unit = mmc.group := if_neg hsd
    have hunits := units_iff (s := start.toNat) (n := block.toNat)
      (a := mmc.blockAt (mmc.converted start block).1)
      (e := mmc.blockAt ((mmc.converted start block).1 + (mmc.converted start block).2)) mmc.group_pos
    rw [erasesRight_iff_range, Mmc.RangeRight]
    simp only [Mmc.Erases, hunit]
    rw [hunits, hfirst, hlast, eq_true (Bool.eq_false_iff.mpr hsd), true_and]
    split
    · next hn => rw [hn]
    · rfl

/-- An SD card that is told to erase its first block erases the second one too. -/
theorem not_erasesRight_oneBlock : ¬ ∀ (mmc : Mmc) (part : Int) (start block : UInt32),
    ErasesRight mmc part start block := fun h => not_erasesRight_sd rfl 1 0 1 (h ⟨true, true, 1, by decide⟩ 1 0 1)

end Uboot.Drivers.MmcErase
