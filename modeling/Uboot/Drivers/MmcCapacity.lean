/-
  Uboot.Drivers.MmcCapacity

  How many blocks a card has: `mmc_startup` of drivers/mmc/mmc.c decodes the CSD register, and
  the EXT_CSD of a new MMC card, and fills in the block device; `get_mmc_block_count` of
  common/cmd_mmc_fdisk.c counts blocks from the same fields.

  The driver's answers are given one by one.  Of the decoded registers only what the capacity
  is made of is kept.
-/

import Uboot.Drivers.MmcCsd
import Uboot.Common.MmcFdisk

namespace Uboot.Drivers.MmcCapacity

open Uboot.Drivers.MmcCsd Uboot.Common.MmcFdisk

-- ============================================================================
-- `mmc_startup`
-- ============================================================================

/-- `struct mmc` with `block_dev`. -/
structure Mmc where
  version : UInt32
  csd : Resp
  highCapacity : Bool
  readBlLen : UInt32
  writeBlLen : UInt32
  capacity : UInt32
  sectors : UInt32
  blksz : UInt32
  lba : UInt32

/-- `IS_SD` -/
def Mmc.isSd (host : Mmc) : Bool := host.version &&& 0x20000 ≠ 0

/-- `sd_decode_csd` -/
def sdDecodeCsd (host : Mmc) : Int × Mmc :=
  let csdStruct := unstuffBits host.csd 126 2
  if csdStruct = 0 then
    let e := unstuffBits host.csd 47 3
    let m := unstuffBits host.csd 62 12
    let capacity := (1 + m) <<< (e + 2)
    let readBlkbits := unstuffBits host.csd 80 4
    (0, { host with readBlLen := 512, writeBlLen := 512, capacity := capacity <<< (readBlkbits - 9) })
  else if csdStruct = 1 then
    let m := unstuffBits host.csd 48 22
    let capacity := (1 + m) <<< 10
    (0, { host with highCapacity := true, readBlLen := 512, writeBlLen := 512, capacity := capacity })
  else (-1, host)

/-- The versions by `mmca_vsn`; others leave the version as it is. -/
def mmcVersion (mmcaVsn version : UInt32) : UInt32 :=
  if mmcaVsn = 0 then 0x10012
  else if mmcaVsn = 1 then 0x10014
  else if mmcaVsn = 2 then 0x10022
  else if mmcaVsn = 3 then 0x10030
  else if mmcaVsn = 4 then 0x10040
  else version

/-- `mmc_decode_csd` -/
def mmcDecodeCsd (host : Mmc) : Int × Mmc :=
  if unstuffBits host.csd 126 2 > 3 then (-1, host)
  else
    let version := mmcVersion (unstuffBits host.csd 122 4) host.version
    let e := unstuffBits host.csd 47 3
    let m := unstuffBits host.csd 62 12
    let capacity := (1 + m) <<< (e + 2)
    let readBlkbits := unstuffBits host.csd 80 4
    let writeBlkbits := unstuffBits host.csd 22 4
    (0, { host with
      version := version, readBlLen := 1 <<< readBlkbits, writeBlLen := 1 <<< writeBlkbits, capacity := capacity })

/-- What the driver, the allocator and the steps that do not touch the capacity answer. -/
structure Answers where
  sendCid : Int
  sendRca : Int
  sendCsd : Int
  select : Int
  malloc : Bool
  switchTiming : Int
  switchWidth : Int
  sendExtCsd : Int
  changeFreq : Int
  setWidth : Int
  initPart : Int

/-- `EXT_CSD_SEC_CNT` -/
def secCount (extCsd : Nat → UInt8) : UInt32 :=
  (extCsd 212).toUInt32 ||| (extCsd 213).toUInt32 <<< 8 ||| (extCsd 214).toUInt32 <<< 16 |||
    (extCsd 215).toUInt32 <<< 24

/-- `mmc_read_ext_csd` -/
def mmcReadExtCsd (ans : Answers) (extCsd : Nat → UInt8) (host : Mmc) : Int × Mmc :=
  if host.version < 0x10040 then (0, host)
  else if !ans.malloc then (-1, host)
  else if ans.switchTiming ≠ 0 then (ans.switchTiming, host)
  else if ans.switchWidth ≠ 0 then (ans.switchWidth, host)
  else if ans.sendExtCsd ≠ 0 then
    -- the capacity that the CSD of a high capacity card gives
    if host.capacity = 4096 * 512 then (ans.sendExtCsd, host) else (0, host)
  else
    let extCsdStruct := extCsd 192
    if extCsdStruct > 5 ∧ extCsdStruct ≠ 7 then (-1, host)
    else if extCsdStruct ≥ 2 then
      let host := { host with sectors := secCount extCsd }
      if host.sectors ≠ 0 ∧ host.sectors > 0x400000 then
        (0, { host with highCapacity := true, capacity := host.sectors })
      else (0, { host with highCapacity := false })
    else (0, host)

/-- `mmc_startup` with a card that has these registers. -/
def mmcStartup (ans : Answers) (csd : Resp) (extCsd : Nat → UInt8) (host : Mmc) : Int × Mmc :=
  if ans.sendCid ≠ 0 then (ans.sendCid, host)
  else if ans.sendRca ≠ 0 then (ans.sendRca, host)
  else if ans.sendCsd ≠ 0 then (ans.sendCsd, host)
  else
    let host := { host with csd := csd }
    -- what the decoders return is not looked at
    let host := if host.isSd then (sdDecodeCsd host).2 else (mmcDecodeCsd host).2
    if ans.select ≠ 0 then (ans.select, host)
    else
      let r := if host.isSd then (0, host) else mmcReadExtCsd ans extCsd host
      if r.1 ≠ 0 then r
      else if ans.changeFreq ≠ 0 then (ans.changeFreq, r.2)
      else if ans.setWidth ≠ 0 then (ans.setWidth, r.2)
      else
        let host := { r.2 with blksz := 512, lba := r.2.capacity }
        if ans.initPart < 0 then (ans.initPart, host) else (0, host)

/-- `get_mmc_block_count` for a device that is found. -/
def getMmcBlockCount (host : Mmc) : Int := i32 (host.capacity * (host.readBlLen / 512)).toNat

-- ============================================================================
-- The standards
-- ============================================================================

/-- The bytes that `C_SIZE`, `C_SIZE_MULT` and `READ_BL_LEN` give. -/
def csdBytes (csd : Resp) : Nat := (csd.field 62 12 + 1) * 2 ^ (csd.field 47 3 + 2) * 2 ^ csd.field 80 4

/-- An SD card of version 1 or 2. -/
def StandardSd (csd : Resp) : Prop :=
  (csd.field 126 2 = 0 ∧ 9 ≤ csd.field 80 4 ∧ csd.field 80 4 ≤ 11) ∨
    (csd.field 126 2 = 1 ∧ csd.field 48 22 ≤ 0x3FFEFF)

/-- The bytes of an SD card. -/
def sdBytes (csd : Resp) : Nat :=
  if csd.field 126 2 = 0 then csdBytes csd else (csd.field 48 22 + 1) * (512 * 1024)

/-- The number of sectors in the EXT_CSD. -/
def sectorCount (extCsd : Nat → UInt8) : Nat :=
  (extCsd 212).toNat + 256 * (extCsd 213).toNat + 65536 * (extCsd 214).toNat + 16777216 * (extCsd 215).toNat

/-- The MMC card has an EXT_CSD with a sector count, and more than 2 GiB. -/
def Dense (csd : Resp) (extCsd : Nat → UInt8) : Prop :=
  csd.field 122 4 = 4 ∧ 2 ≤ (extCsd 192).toNat ∧ 4194304 < sectorCount extCsd

instance (csd : Resp) (extCsd : Nat → UInt8) : Decidable (Dense csd extCsd) := inferInstanceAs (Decidable (_ ∧ _))

/-- An MMC card.  With more than 2 GiB it has the largest capacity in its CSD. -/
structure StandardMmc (csd : Resp) (extCsd : Nat → UInt8) : Prop where
  version_le : csd.field 122 4 ≤ 4
  readBlLen_le : csd.field 80 4 ≤ 11
  dense : Dense csd extCsd → csd.field 62 12 = 4095 ∧ csd.field 47 3 = 7

/-- The bytes of an MMC card. -/
def mmcBytes (csd : Resp) (extCsd : Nat → UInt8) : Nat :=
  if Dense csd extCsd then sectorCount extCsd * 512 else csdBytes csd

/-- A card, by the standard it is said to follow. -/
def Standard (sd : Bool) (csd : Resp) (extCsd : Nat → UInt8) : Prop :=
  if sd then StandardSd csd else StandardMmc csd extCsd

/-- The bytes of a card. -/
def cardBytes (sd : Bool) (csd : Resp) (extCsd : Nat → UInt8) : Nat :=
  if sd then sdBytes csd else mmcBytes csd extCsd

/-- **What is known of a card's capacity**: the block device has all of its bytes, and
    `get_mmc_block_count` returns as many blocks. -/
def CapacityRight (host : Mmc) (bytes : Nat) : Prop :=
  host.blksz = 512 ∧ host.lba.toNat * 512 = bytes ∧ getMmcBlockCount host = host.lba.toNat

-- ============================================================================
-- The decoders
-- ============================================================================

section Decode

variable (host : Mmc)

theorem unstuff_eq_iff (resp : Resp) {start size : Nat} (hsize : size ≤ 32) (hend : start + size ≤ 128) (n : UInt32) :
    unstuffBits resp start size = n ↔ resp.field start size = n.toNat := by
  rw [← UInt32.toNat_inj, unstuffBits_toNat resp hsize hend]

/-- `(1 + m) << (e + 2)` does not overflow. -/
theorem capacity_toNat (csd : Resp) :
    ((1 + unstuffBits csd 62 12) <<< (unstuffBits csd 47 3 + 2)).toNat =
      (csd.field 62 12 + 1) * 2 ^ (csd.field 47 3 + 2) := by
  have hm := csd.field_lt 62 12
  have he := csd.field_lt 47 3
  have hpow : 2 ^ (csd.field 47 3 + 2) ≤ 2 ^ 9 := Nat.pow_le_pow_right (by decide) (by omega)
  have hle := Nat.mul_le_mul (show csd.field 62 12 + 1 ≤ 4096 by omega) hpow
  rw [UInt32.toNat_shiftLeft, UInt32.toNat_add, UInt32.toNat_add, unstuffBits_toNat _ (by decide) (by decide),
    unstuffBits_toNat _ (by decide) (by decide), show (1 : UInt32).toNat = 1 from rfl,
    show (2 : UInt32).toNat = 2 from rfl, Nat.shiftLeft_eq, Nat.mod_eq_of_lt (a := csd.field 47 3 + 2) (by omega),
    Nat.mod_eq_of_lt (a := csd.field 47 3 + 2) (by omega), Nat.mod_eq_of_lt (a := 1 + csd.field 62 12) (by omega),
    Nat.add_comm 1, Nat.mod_eq_of_lt (by omega)]

theorem sdDecodeCsd_spec (h : StandardSd host.csd) :
    (sdDecodeCsd host).2.capacity.toNat * 512 = sdBytes host.csd ∧ (sdDecodeCsd host).2.readBlLen = 512 ∧
      (sdDecodeCsd host).2.version = host.version := by
  have hstruct : ∀ n : UInt32, unstuffBits host.csd 126 2 = n ↔ host.csd.field 126 2 = n.toNat :=
    unstuff_eq_iff host.csd (by decide) (by decide)
  rcases h with ⟨hzero, hlow, hhigh⟩ | ⟨hone, hsize⟩
  · have hshift : (unstuffBits host.csd 80 4 - 9).toNat = host.csd.field 80 4 - 9 := by
      have hle : (9 : UInt32) ≤ unstuffBits host.csd 80 4 := by
        rw [UInt32.le_iff_toNat_le, unstuffBits_toNat _ (by decide) (by decide)]
        exact hlow
      rw [UInt32.toNat_sub_of_le _ _ hle, unstuffBits_toNat _ (by decide) (by decide)]
      rfl
    have hblocks : (host.csd.field 62 12 + 1) * 2 ^ (host.csd.field 47 3 + 2) * 2 ^ (host.csd.field 80 4 - 9) <
        4294967296 := by
      have hm := host.csd.field_lt 62 12
      have he := host.csd.field_lt 47 3
      have hmult : 2 ^ (host.csd.field 47 3 + 2) ≤ 2 ^ 9 := Nat.pow_le_pow_right (by decide) (by omega)
      have hlen : 2 ^ (host.csd.field 80 4 - 9) ≤ 2 ^ 2 := Nat.pow_le_pow_right (by decide) (by omega)
      have hle := Nat.mul_le_mul (Nat.mul_le_mul (show host.csd.field 62 12 + 1 ≤ 4096 by omega) hmult) hlen
      omega
    have hpow : 2 ^ (host.csd.field 80 4 - 9) * 512 = 2 ^ host.csd.field 80 4 := by
      rw [show 512 = 2 ^ 9 from rfl, ← Nat.pow_add]
      congr 1
      omega
    rw [sdDecodeCsd]
    dsimp only
    rw [if_pos ((hstruct 0).mpr hzero), sdBytes, if_pos hzero, csdBytes]
    refine ⟨?_, rfl, rfl⟩
    rw [UInt32.toNat_shiftLeft, hshift, capacity_toNat, Nat.shiftLeft_eq,
      Nat.mod_eq_of_lt (a := host.csd.field 80 4 - 9) (by omega), Nat.mod_eq_of_lt hblocks, Nat.mul_assoc, hpow]
  · rw [sdDecodeCsd]
    dsimp only
    rw [if_neg fun h0 => absurd ((hstruct 0).mp h0) (by rw [hone]; decide), if_pos ((hstruct 1).mpr hone), sdBytes,
      if_neg (by omega)]
    refine ⟨?_, rfl, rfl⟩
    rw [UInt32.toNat_shiftLeft, UInt32.toNat_add, unstuffBits_toNat _ (by decide) (by decide), Nat.shiftLeft_eq,
      show (1 : UInt32).toNat = 1 from rfl, show (10 : UInt32).toNat % 32 = 10 from rfl]
    omega

theorem mmcDecodeCsd_spec : (mmcDecodeCsd host).2.capacity.toNat =
      (host.csd.field 62 12 + 1) * 2 ^ (host.csd.field 47 3 + 2) ∧
    (mmcDecodeCsd host).2.readBlLen.toNat = 2 ^ host.csd.field 80 4 ∧
    (mmcDecodeCsd host).2.version = mmcVersion (unstuffBits host.csd 122 4) host.version := by
  have hstruct : ¬ unstuffBits host.csd 126 2 > 3 := by
    have hlt := host.csd.field_lt 126 2
    rw [gt_iff_lt, UInt32.lt_iff_toNat_lt, unstuffBits_toNat _ (by decide) (by decide),
      show (3 : UInt32).toNat = 3 from rfl]
    omega
  have hlen := host.csd.field_lt 80 4
  have hpow : 2 ^ host.csd.field 80 4 < 2 ^ 32 := Nat.pow_lt_pow_right (by decide) (by omega)
  rw [mmcDecodeCsd, if_neg hstruct]
  refine ⟨capacity_toNat host.csd, ?_, rfl⟩
  dsimp only
  rw [UInt32.toNat_shiftLeft, unstuffBits_toNat _ (by decide) (by decide), show (1 : UInt32).toNat = 1 from rfl,
    Nat.one_shiftLeft, Nat.mod_eq_of_lt (a := host.csd.field 80 4) (by omega), Nat.mod_eq_of_lt hpow]

/-- The four bytes of the sector count. -/
theorem secCount_toNat (extCsd : Nat → UInt8) : (secCount extCsd).toNat = sectorCount extCsd := by
  have hor : ∀ (x : UInt32) (b : UInt8) (k : UInt32), x.toNat < 2 ^ k.toNat → k.toNat ≤ 24 →
      (x ||| b.toUInt32 <<< k).toNat = x.toNat + b.toNat * 2 ^ k.toNat := by
    intro x b k hx hk
    have hb := b.toNat_lt
    have hpow : 2 ^ k.toNat ≤ 2 ^ 24 := Nat.pow_le_pow_right (by decide) hk
    have hle := Nat.mul_le_mul (show b.toNat ≤ 255 by omega) hpow
    rw [UInt32.toNat_or, UInt32.toNat_shiftLeft, UInt8.toNat_toUInt32, Nat.mod_eq_of_lt (a := k.toNat) (by omega),
      Nat.shiftLeft_eq, Nat.mod_eq_of_lt (by omega), Nat.or_comm, ← Nat.shiftLeft_eq,
      ← Nat.shiftLeft_add_eq_or_of_lt hx, Nat.shiftLeft_eq, Nat.add_comm]
  have h0 := (extCsd 212).toNat_lt
  have h1 := (extCsd 213).toNat_lt
  have h2 := (extCsd 214).toNat_lt
  have hfirst := hor (extCsd 212).toUInt32 (extCsd 213) 8 (by simpa using h0) (by decide)
  rw [UInt8.toNat_toUInt32, show (8 : UInt32).toNat = 8 from rfl] at hfirst
  have hsecond := hor _ (extCsd 214) 16 (by rw [hfirst, show (16 : UInt32).toNat = 16 from rfl]; omega) (by decide)
  rw [hfirst, show (16 : UInt32).toNat = 16 from rfl] at hsecond
  have hthird := hor _ (extCsd 215) 24 (by rw [hsecond, show (24 : UInt32).toNat = 24 from rfl]; omega) (by decide)
  rw [hsecond, show (24 : UInt32).toNat = 24 from rfl] at hthird
  rw [secCount, hthird, sectorCount]
  omega

/-- What a successful `mmc_read_ext_csd` makes of the capacity. -/
theorem mmcReadExtCsd_spec {ans : Answers} {extCsd : Nat → UInt8} (herr : (mmcReadExtCsd ans extCsd host).1 = 0) :
    (mmcReadExtCsd ans extCsd host).2.readBlLen = host.readBlLen ∧
      (¬ host.version < 0x10040 ∧ 2 ≤ (extCsd 192).toNat ∧ 4194304 < sectorCount extCsd →
        host.capacity = 4096 * 512 →
        (mmcReadExtCsd ans extCsd host).2.capacity.toNat = sectorCount extCsd) ∧
      (¬ (¬ host.version < 0x10040 ∧ 2 ≤ (extCsd 192).toNat ∧ 4194304 < sectorCount extCsd) →
        (mmcReadExtCsd ans extCsd host).2.capacity = host.capacity) := by
  have hrev : extCsd 192 ≥ 2 ↔ 2 ≤ (extCsd 192).toNat := UInt8.le_iff_toNat_le
  have hcount : (secCount extCsd ≠ 0 ∧ secCount extCsd > 0x400000) ↔ 4194304 < sectorCount extCsd := by
    rw [gt_iff_lt, UInt32.lt_iff_toNat_lt, ne_eq, ← UInt32.toNat_inj, secCount_toNat,
      show (0x400000 : UInt32).toNat = 4194304 from rfl, show (0 : UInt32).toNat = 0 from rfl]
    omega
  rw [mmcReadExtCsd] at herr ⊢
  dsimp only at herr ⊢
  split at herr
  · next hold =>
    rw [if_pos hold]
    exact ⟨rfl, fun h => absurd hold h.1, fun _ => rfl⟩
  next hnew =>
  rw [if_neg hnew]
  split at herr
  · cases herr
  next hmalloc =>
  rw [if_neg hmalloc]
  split at herr
  · next h => exact absurd herr h
  next htiming =>
  rw [if_neg htiming]
  split at herr
  · next h => exact absurd herr h
  next hwidth =>
  rw [if_neg hwidth]
  split at herr
  · next hsend =>
    rw [if_pos hsend]
    split at herr
    · exact absurd herr hsend
    · next hmagic =>
      rw [if_neg hmagic]
      exact ⟨rfl, fun _ h => absurd h hmagic, fun _ => rfl⟩
  next hsend =>
  rw [if_neg hsend]
  split at herr
  · cases herr
  next hknown =>
  rw [if_neg hknown]
  split at herr
  · next htwo =>
    rw [if_pos htwo]
    split at herr
    · next hdense =>
      rw [if_pos hdense]
      exact ⟨rfl, fun _ _ => secCount_toNat extCsd, fun h =>
        absurd ⟨hnew, hrev.mp htwo, hcount.mp hdense⟩ h⟩
    · next hsmall =>
      rw [if_neg hsmall]
      exact ⟨rfl, fun h => absurd (hcount.mpr h.2.2) hsmall, fun _ => rfl⟩
  · next hone =>
    rw [if_neg hone]
    exact ⟨rfl, fun h => absurd (hrev.mpr h.2.1) hone, fun _ => rfl⟩

end Decode

theorem isSd_sdDecodeCsd (host : Mmc) : (sdDecodeCsd host).2.isSd = host.isSd := by
  rw [sdDecodeCsd]
  dsimp only
  split
  · rfl
  · split <;> rfl

/-- A card is not taken for an SD card by its version. -/
theorem isSd_mmcDecodeCsd {host : Mmc} (h : host.isSd = false) : (mmcDecodeCsd host).2.isSd = false := by
  rw [Mmc.isSd, (mmcDecodeCsd_spec host).2.2, mmcVersion]
  split
  · rfl
  split
  · rfl
  split
  · rfl
  split
  · rfl
  split
  · rfl
  · exact h

/-- A command that would have ended the function with an error has not failed. -/
theorem of_err_ret {e : Int} {host m : Mmc} {r : Int × Mmc} (h : (if e ≠ 0 then (e, host) else r) = (0, m)) :
    r = (0, m) := by
  by_cases he : e ≠ 0
  · rw [if_pos he] at h
    exact absurd (Prod.mk.inj h).1 he
  · rwa [if_neg he] at h

/-- After a successful `mmc_startup` the block device has the capacity that was found. -/
theorem mmcStartup_spec {ans : Answers} {csd : Resp} {extCsd : Nat → UInt8} {host m : Mmc}
    (h : mmcStartup ans csd extCsd host = (0, m)) :
    ∃ r, m = { r with blksz := 512, lba := r.capacity } ∧
      (if host.isSd then (0, (sdDecodeCsd { host with csd := csd }).2)
        else mmcReadExtCsd ans extCsd (mmcDecodeCsd { host with csd := csd }).2) = (0, r) := by
  have hdecoded : ∀ hostCsd : Mmc, hostCsd.isSd = host.isSd →
      (if (if hostCsd.isSd then (sdDecodeCsd hostCsd).2 else (mmcDecodeCsd hostCsd).2).isSd then
        (0, if hostCsd.isSd then (sdDecodeCsd hostCsd).2 else (mmcDecodeCsd hostCsd).2)
      else mmcReadExtCsd ans extCsd (if hostCsd.isSd then (sdDecodeCsd hostCsd).2 else (mmcDecodeCsd hostCsd).2)) =
      if host.isSd then (0, (sdDecodeCsd hostCsd).2) else mmcReadExtCsd ans extCsd (mmcDecodeCsd hostCsd).2 := by
    intro hostCsd hsame
    rw [hsame]
    by_cases hsd : host.isSd = true
    · rw [if_pos hsd, if_pos hsd, isSd_sdDecodeCsd, hsame, if_pos hsd]
    · rw [if_neg hsd, if_neg hsd, isSd_mmcDecodeCsd (hsame.trans (Bool.eq_false_iff.mpr hsd)),
        if_neg Bool.false_ne_true]
  rw [mmcStartup] at h
  replace h := of_err_ret (of_err_ret (of_err_ret h))
  dsimp only at h
  replace h := of_err_ret h
  rw [hdecoded { host with csd := csd } rfl] at h
  generalize (if host.isSd then ((0 : Int), (sdDecodeCsd { host with csd := csd }).2)
    else mmcReadExtCsd ans extCsd (mmcDecodeCsd { host with csd := csd }).2) = r at h ⊢
  by_cases hok : r.1 ≠ 0
  · rw [if_pos hok] at h
    rw [h] at hok
    exact absurd rfl hok
  rw [if_neg hok] at h
  replace h := of_err_ret (of_err_ret h)
  by_cases hinit : ans.initPart < 0
  · rw [if_pos hinit] at h
    have := (Prod.mk.inj h).1
    omega
  · rw [if_neg hinit] at h
    exact ⟨_, (Prod.mk.inj h).2.symm, Prod.ext (not_not.mp hok) rfl⟩

-- ============================================================================
-- Capacity
-- ============================================================================

theorem mmcVersion_old_iff {csd : Resp} (h : csd.field 122 4 ≤ 4) (version : UInt32) :
    ¬ mmcVersion (unstuffBits csd 122 4) version < 0x10040 ↔ csd.field 122 4 = 4 := by
  have hvsn : ∀ n : UInt32, unstuffBits csd 122 4 = n ↔ csd.field 122 4 = n.toNat :=
    unstuff_eq_iff csd (by decide) (by decide)
  have hcases : csd.field 122 4 = 0 ∨ csd.field 122 4 = 1 ∨ csd.field 122 4 = 2 ∨ csd.field 122 4 = 3 ∨
      csd.field 122 4 = 4 := by omega
  rcases hcases with hf | hf | hf | hf | hf
  · rw [(hvsn 0).mpr hf, hf, show mmcVersion 0 version = 0x10012 from rfl]
    decide
  · rw [(hvsn 1).mpr hf, hf, show mmcVersion 1 version = 0x10014 from rfl]
    decide
  · rw [(hvsn 2).mpr hf, hf, show mmcVersion 2 version = 0x10022 from rfl]
    decide
  · rw [(hvsn 3).mpr hf, hf, show mmcVersion 3 version = 0x10030 from rfl]
    decide
  · rw [(hvsn 4).mpr hf, hf, show mmcVersion 4 version = 0x10040 from rfl]
    decide

/-- The block count is cut to an `int`. -/
theorem blockCount_eq_iff (n : Nat) (h : n < 4294967296) : i32 n = n ↔ n < 2147483648 := by
  rw [i32, Int.bmod]
  split <;> omega

theorem getMmcBlockCount_eq (host : Mmc) :
    getMmcBlockCount host = i32 (host.capacity.toNat * (host.readBlLen.toNat / 512) % 4294967296 : Nat) := by
  rw [getMmcBlockCount, UInt32.toNat_mul, UInt32.toNat_div]
  rfl

/-- An SD card. -/
theorem capacityRight_sd {csd : Resp} {host : Mmc} (hstd : StandardSd csd) (hcsd : host.csd = csd) :
    CapacityRight { (sdDecodeCsd host).2 with blksz := 512, lba := (sdDecodeCsd host).2.capacity } (sdBytes csd) ↔
      sdBytes csd < 1099511627776 := by
  subst hcsd
  obtain ⟨hbytes, hlen, -⟩ := sdDecodeCsd_spec host hstd
  have hlt := (sdDecodeCsd host).2.capacity.toNat_lt
  rw [CapacityRight, getMmcBlockCount_eq]
  dsimp only
  rw [hlen, show (512 : UInt32).toNat / 512 = 1 from rfl, Nat.mul_one, Nat.mod_eq_of_lt hlt,
    blockCount_eq_iff _ hlt, ← hbytes]
  simp
  omega

/-- A read length other than 512 gives another number. -/
theorem blocks_ne {n c : Nat} (hpos : 0 < n) (hlt : n < 4294967296) (hc : c = 0 ∨ c = 2 ∨ c = 4) :
    n * c % 4294967296 ≠ n := by
  intro h
  have hsplit := Nat.div_add_mod (n * c) 4294967296
  rw [h] at hsplit
  rcases hc with rfl | rfl | rfl
  · rw [Nat.mul_zero, Nat.zero_mod] at h
    omega
  · have hdvd : 4294967296 ∣ n :=
      ⟨n * 2 / 4294967296, (Nat.add_right_cancel (hsplit.trans (Nat.mul_two n))).symm⟩
    exact absurd (Nat.le_of_dvd hpos hdvd) (Nat.not_le_of_lt hlt)
  · have hdvd : 4294967296 ∣ n * 3 :=
      ⟨n * 4 / 4294967296, (Nat.add_right_cancel (hsplit.trans (Nat.mul_succ n 3))).symm⟩
    have hcoprime : Nat.Coprime 4294967296 3 := by decide
    exact absurd (Nat.le_of_dvd hpos (hcoprime.dvd_of_dvd_mul_right hdvd)) (Nat.not_le_of_lt hlt)

/-- An MMC card, where the CSD has `n` blocks of `2 ^ k` bytes and the capacity is `c`. -/
theorem capacityRight_mmc {r : Mmc} {k bytes : Nat} (hk : k ≤ 11) (hlen : r.readBlLen.toNat = 2 ^ k)
    (hpos : 0 < r.capacity.toNat) (hbytes : bytes = r.capacity.toNat * 512 ∨ bytes = r.capacity.toNat * 2 ^ k) :
    CapacityRight { r with blksz := 512, lba := r.capacity } bytes ↔ k = 9 ∧ bytes < 1099511627776 := by
  have hlt := r.capacity.toNat_lt
  rw [CapacityRight, getMmcBlockCount_eq]
  dsimp only
  rw [hlen]
  generalize r.capacity.toNat = n at *
  by_cases hnine : k = 9
  · subst hnine
    rw [show 2 ^ 9 / 512 = 1 from rfl, Nat.mul_one, Nat.mod_eq_of_lt hlt, blockCount_eq_iff n hlt]
    simp only [true_and]
    omega
  · refine iff_of_false ?_ fun h => hnine h.1
    rintro ⟨-, hlba, hcount⟩
    have hmod : ∀ x : Nat, i32 x % 4294967296 = x % 4294967296 := by
      intro x
      rw [i32, Int.bmod]
      split <;> omega
    have hcount' := congrArg (· % 4294967296) hcount
    rw [hmod] at hcount'
    have hnat : n * (2 ^ k / 512) % 4294967296 = n := by
      have hcast : n * (2 ^ k / 512) % 4294967296 % 4294967296 = n % 4294967296 := by exact_mod_cast hcount'
      rwa [Nat.mod_mod, Nat.mod_eq_of_lt hlt] at hcast
    rcases hbytes with hb | hb
    · -- the blocks are counted by a read length that is another one
      have hlarge : k < 9 ∨ k = 10 ∨ k = 11 := by omega
      rcases hlarge with hsmall | rfl | rfl
      · have hpow : 2 ^ k < 2 ^ 9 := Nat.pow_lt_pow_right (by decide) hsmall
        rw [Nat.div_eq_of_lt (show 2 ^ k < 512 from hpow)] at hnat
        exact blocks_ne hpos hlt (.inl rfl) hnat
      · exact blocks_ne hpos hlt (.inr (.inl rfl)) hnat
      · exact blocks_ne hpos hlt (.inr (.inr rfl)) hnat
    · have hsame : 2 ^ k = 2 ^ 9 := Nat.eq_of_mul_eq_mul_left hpos (hb.symm.trans hlba.symm)
      exact hnine (Nat.pow_right_injective (by decide) hsame)

/-- **Card capacity.** -/
theorem capacityRight_iff {ans : Answers} {csd : Resp} {extCsd : Nat → UInt8} {host m : Mmc}
    (hstd : Standard host.isSd csd extCsd) (h : mmcStartup ans csd extCsd host = (0, m)) :
    CapacityRight m (cardBytes host.isSd csd extCsd) ↔
      (host.isSd = true ∨ csd.field 80 4 = 9) ∧ cardBytes host.isSd csd extCsd < 1099511627776 := by
  obtain ⟨r, rfl, hr⟩ := mmcStartup_spec h
  rw [Standard] at hstd
  rw [cardBytes]
  by_cases hsd : host.isSd = true
  · rw [if_pos hsd] at hstd hr ⊢
    obtain rfl := (Prod.mk.inj hr).2
    rw [capacityRight_sd hstd rfl]
    simp [hsd]
  · rw [if_neg hsd] at hstd hr ⊢
    obtain ⟨hcap, hlen, hversion⟩ := mmcDecodeCsd_spec { host with csd := csd }
    dsimp only at hcap hlen hversion
    have herr : (mmcReadExtCsd ans extCsd (mmcDecodeCsd { host with csd := csd }).2).1 = 0 := by rw [hr]
    obtain ⟨hreadLen, hdense, hsparse⟩ := mmcReadExtCsd_spec _ herr
    rw [hr] at hreadLen hdense hsparse
    dsimp only at hreadLen hdense hsparse
    rw [hversion, mmcVersion_old_iff hstd.version_le] at hdense hsparse
    rw [← hreadLen] at hlen
    have hcsdPos : 0 < (csd.field 62 12 + 1) * 2 ^ (csd.field 47 3 + 2) :=
      Nat.mul_pos (Nat.succ_pos _) (Nat.two_pow_pos _)
    have hbytes : 0 < r.capacity.toNat ∧ (mmcBytes csd extCsd = r.capacity.toNat * 512 ∨
        mmcBytes csd extCsd = r.capacity.toNat * 2 ^ csd.field 80 4) := by
      rw [mmcBytes]
      by_cases hd : Dense csd extCsd
      · obtain ⟨hsize, hmult⟩ := hstd.dense hd
        have hmagic : (mmcDecodeCsd { host with csd := csd }).2.capacity = 4096 * 512 := by
          rw [← UInt32.toNat_inj, hcap, hsize, hmult]
          rfl
        rw [if_pos hd, hdense hd hmagic]
        exact ⟨by have := hd.2.2; omega, .inl rfl⟩
      · rw [if_neg hd, hsparse hd, hcap]
        exact ⟨hcsdPos, .inr rfl⟩
    rw [capacityRight_mmc hstd.readBlLen_le hlen hbytes.1 hbytes.2]
    simp [hsd]

/-- Every command succeeds. -/
def allWell : Answers := ⟨0, 0, 0, 0, true, 0, 0, 0, 0, 0, 0⟩

/-- A card that was found with some version. -/
def foundCard (version : UInt32) : Mmc := ⟨version, ⟨0, 0, 0, 0⟩, false, 0, 0, 0, 0, 0, 0⟩

/-- `CSD_STRUCTURE` 2, `SPEC_VERS` 4, `READ_BL_LEN` 10, `C_SIZE` 4095 and `C_SIZE_MULT` 7: 2 GiB. -/
def csdTwoGiB : Resp := ⟨0x90000000, 0x000A03FF, 0xC0038000, 0⟩

/-- `READ_BL_LEN` 9, `C_SIZE` 4095 and `C_SIZE_MULT` 7 of an SD card: 1 GiB. -/
def csdOneGiB : Resp := ⟨0, 0x000903FF, 0xC0038000, 0⟩

theorem capacityRight_oneGiB : Standard (foundCard 0x20010).isSd csdOneGiB (fun _ => 0) ∧
    ∃ m, mmcStartup allWell csdOneGiB (fun _ => 0) (foundCard 0x20010) = (0, m) ∧
      (CapacityRight m (cardBytes (foundCard 0x20010).isSd csdOneGiB fun _ => 0) ↔
        ((foundCard 0x20010).isSd = true ∨ csdOneGiB.field 80 4 = 9) ∧
          cardBytes (foundCard 0x20010).isSd csdOneGiB (fun _ => 0) < 1099511627776) := by
  have hstd : Standard (foundCard 0x20010).isSd csdOneGiB (fun _ => 0) := .inl (by decide)
  have hstartup : mmcStartup allWell csdOneGiB (fun _ => 0) (foundCard 0x20010) =
      (0, (mmcStartup allWell csdOneGiB (fun _ => 0) (foundCard 0x20010)).2) := rfl
  exact ⟨hstd, _, hstartup, capacityRight_iff hstd hstartup⟩

/-- An MMC card of 2 GiB is taken for one of half the size. -/
theorem not_capacityRight_twoGiB : ¬ ∀ (ans : Answers) (csd : Resp) (extCsd : Nat → UInt8) (host m : Mmc),
    Standard host.isSd csd extCsd → mmcStartup ans csd extCsd host = (0, m) →
      CapacityRight m (cardBytes host.isSd csd extCsd) := by
  intro h
  have hstd : Standard (foundCard 0x10000).isSd csdTwoGiB (fun _ => 0) := by
    refine ⟨by decide, by decide, ?_⟩
    intro hdense
    exact absurd hdense.2.1 (by decide)
  have hright := (h allWell csdTwoGiB (fun _ => 0) (foundCard 0x10000) _ hstd rfl).2.1
  revert hright
  decide

end Uboot.Drivers.MmcCapacity
