/-
  Uboot.Common.EnvNand

  The environment in NAND flash, common/env_nand.c, in one copy or in two.

  Flash is erased in blocks and written by clearing bits; bad blocks are skipped.
  The device is a memory of bytes: an erase sets the good blocks of its range, a
  write takes the bits of the data out of what stands there.  An erase or a write
  that fails, or that a loss of power cuts off, leaves the bytes it says it leaves.
-/

import Uboot.Common.EnvCommon

namespace Uboot.Common

open Uboot.Lib Uboot.LibGeneric

/-! ## The device -/

/-- Where the environment stands in the flash. -/
structure NandSite where
  /-- `erasesize` of `nand_info[0]`. -/
  erasesize : Nat
  /-- `nand_block_isbad`, of the block at an offset. -/
  bad : Nat → Bool
  /-- `CONFIG_ENV_OFFSET`. -/
  envOffset : Nat
  /-- `CONFIG_ENV_OFFSET_REDUND`. -/
  envOffsetRedund : Nat
  /-- `CONFIG_ENV_RANGE`. -/
  envRange : Nat
  erasesize_pos : 0 < erasesize
  range_pos : 0 < envRange

/-- The number of blocks a range of `len` bytes reaches into. -/
def NandSite.blocks (site : NandSite) (len : Nat) : Nat :=
  (len + site.erasesize - 1) / site.erasesize

/-- The bytes of the blocks of one copy. -/
def NandSite.span (site : NandSite) : Nat := site.blocks site.envRange * site.erasesize

/-- `nand_write`: programming clears bits. -/
def nandWrite (m : Mem UInt8) (offset : Nat) (bs : List UInt8) : Mem UInt8 := fun x =>
  if offset ≤ x then m x &&& bs.getD (x - offset) 0xFF else m x

/-- The loop of `nand_erase_opts`, over the blocks before `stop`. -/
def nandEraseLoop (site : NandSite) (stop : Nat) : Nat → Nat → Mem UInt8 → Mem UInt8
  | 0, _, m => m
  | fuel + 1, addr, m =>
    if addr < stop then
      nandEraseLoop site stop fuel (addr + site.erasesize)
        (if site.bad addr then m else m.fill addr site.erasesize 0xFF)
    else m

/-- `nand_erase_opts` of the range at `offset`, at least one block. -/
def nandEraseOpts (site : NandSite) (offset : Nat) (m : Mem UInt8) : Mem UInt8 :=
  nandEraseLoop site (offset + max site.envRange site.erasesize) (site.blocks site.envRange) offset m

/-! ## Definitions from the source -/

/-- `len` of `writeenv` and `readenv`: what one block takes. -/
def NandSite.chunk (site : NandSite) (cfg : EnvConfig) : Nat := min site.erasesize cfg.envSize

/-- The loop of `writeenv`: the flash and `amount_saved`. -/
def writeenvLoop (site : NandSite) (cfg : EnvConfig) (stop : Nat) (buf : List UInt8) :
    Nat → Nat → Nat → Mem UInt8 → Mem UInt8 × Nat
  | 0, _, amount, m => (m, amount)
  | fuel + 1, offset, amount, m =>
    if amount < cfg.envSize ∧ offset < stop then
      if site.bad offset then
        writeenvLoop site cfg stop buf fuel (offset + site.erasesize) amount m
      else
        writeenvLoop site cfg stop buf fuel (offset + site.erasesize) (amount + site.chunk cfg)
          (nandWrite m offset ((buf.drop amount).take (site.chunk cfg)))
    else (m, amount)

/-- `writeenv`: whether all of `buf` is saved, and the flash. -/
def writeenv (site : NandSite) (cfg : EnvConfig) (offset : Nat) (buf : List UInt8)
    (m : Mem UInt8) : Bool × Mem UInt8 :=
  let r := writeenvLoop site cfg (offset + site.envRange) buf (site.blocks site.envRange) offset 0 m
  (r.2 = cfg.envSize, r.1)

/-- The loop of `readenv`: the bytes loaded so far; their number is `amount_loaded`. -/
def readenvLoop (site : NandSite) (cfg : EnvConfig) (stop : Nat) (m : Mem UInt8) :
    Nat → Nat → List UInt8 → List UInt8
  | 0, _, loaded => loaded
  | fuel + 1, offset, loaded =>
    if loaded.length < cfg.envSize ∧ offset < stop then
      if site.bad offset then readenvLoop site cfg stop m fuel (offset + site.erasesize) loaded
      else
        readenvLoop site cfg stop m fuel (offset + site.erasesize)
          (loaded ++ m.read offset (site.chunk cfg))
    else loaded

/-- `readenv`: whether all of the environment is loaded, and the buffer, which holds
    `buf` before. -/
def readenv (site : NandSite) (cfg : EnvConfig) (m : Mem UInt8) (offset : Nat)
    (buf : List UInt8) : Bool × List UInt8 :=
  let loaded := readenvLoop site cfg (offset + site.envRange) m (site.blocks site.envRange) offset []
  (loaded.length = cfg.envSize, loaded ++ buf.drop loaded.length)

/-- The bytes of an `env_t`. -/
def Env.toBytes (cfg : EnvConfig) (env : Env) : List UInt8 :=
  le32 env.crc.toNat ++ (if cfg.redund then [env.flags] else []) ++ env.data

/-- A buffer as an `env_t`. -/
def Env.ofBytes (cfg : EnvConfig) (buf : List UInt8) : Env where
  crc := crcWord (buf.getD 0 0) (buf.getD 1 0) (buf.getD 2 0) (buf.getD 3 0)
  flags := if cfg.redund then buf.getD 4 0 else 0
  data := (buf.drop cfg.headerSize).take cfg.dataSize

/-- The environment in RAM, `gd->env_valid`, and the flash. -/
structure EnvState where
  env : Env
  envValid : Nat
  nand : Mem UInt8

/-- What goes wrong in a `saveenv`: the erase or the write fails, or is cut off, and
    leaves the flash so. -/
inductive Fault
  | none
  | erase (nand : Mem UInt8)
  | write (nand : Mem UInt8)

/-- The part both variants of `saveenv` share: erase the copy at `offset` and write
    the environment there. -/
def saveCopy (site : NandSite) (cfg : EnvConfig) (offset : Nat) (buf : List UInt8)
    (m : Mem UInt8) : Fault → Bool × Mem UInt8
  | .erase m' => (false, m')
  | .write m' => (false, m')
  | .none => writeenv site cfg offset buf (nandEraseOpts site offset m)

/-- `saveenv` without `CONFIG_ENV_OFFSET_REDUND`. -/
def saveenv (site : NandSite) (cfg : EnvConfig) (s : EnvState) (fault : Fault) : Int × EnvState :=
  if site.envRange < cfg.envSize then (1, s)
  else
    let r := saveCopy site cfg site.envOffset (s.env.toBytes cfg) s.nand fault
    (if r.1 then 0 else 1, { s with nand := r.2 })

/-- The copy that `saveenv` writes when `gd->env_valid` names the other. -/
def NandSite.target (site : NandSite) (envValid : Nat) : Nat :=
  if envValid = 1 then site.envOffsetRedund else site.envOffset

/-- `saveenv` with `CONFIG_ENV_OFFSET_REDUND`.  The serial is counted up first. -/
def saveenvRedund (site : NandSite) (cfg : EnvConfig) (s : EnvState) (fault : Fault) :
    Int × EnvState :=
  let env := { s.env with flags := s.env.flags + 1 }
  if site.envRange < cfg.envSize then (1, { s with env })
  else
    let r := saveCopy site cfg (site.target s.envValid) (env.toBytes cfg) s.nand fault
    if r.1 then (0, { env, envValid := if s.envValid = 2 then 1 else 2, nand := r.2 })
    else (1, { s with env, nand := r.2 })

/-- `use_default`, with what `set_default_env` does to `gd->env_valid`. -/
def useDefault (cfg : EnvConfig) (s : EnvState) : EnvState :=
  if cfg.dataSize < cfg.defaultEnvironment.length then s
  else { s with env := setDefaultEnv cfg s.env, envValid := 1 }

/-- `env_relocate_spec` without `CONFIG_ENV_OFFSET_REDUND`; `env_ptr` is a buffer that
    holds `heap`. -/
def envRelocateSpec (site : NandSite) (cfg : EnvConfig) (s : EnvState) (heap : List UInt8) :
    EnvState :=
  let r := readenv site cfg s.nand site.envOffset heap
  let env := Env.ofBytes cfg r.2
  if r.1 ∧ env.CrcOk then { s with env } else useDefault cfg { s with env }

/-- The serials of two good copies: which one is loaded. -/
def newerCopy (flags1 flags2 : UInt8) : Nat :=
  if flags1 = 255 ∧ flags2 = 0 then 2
  else if flags2 = 255 ∧ flags1 = 0 then 1
  else if flags2 < flags1 then 1
  else if flags1 < flags2 then 2
  else 1

/-- `env_relocate_spec` with `CONFIG_ENV_OFFSET_REDUND`; the two buffers hold `heap1`
    and `heap2` when they are allocated. -/
def envRelocateSpecRedund (site : NandSite) (cfg : EnvConfig) (s : EnvState)
    (heap1 heap2 : List UInt8) : EnvState :=
  let env1 := Env.ofBytes cfg (readenv site cfg s.nand site.envOffset heap1).2
  let env2 := Env.ofBytes cfg (readenv site cfg s.nand site.envOffsetRedund heap2).2
  if ¬ env1.CrcOk ∧ ¬ env2.CrcOk then useDefault cfg s
  else
    let envValid :=
      if ¬ env2.CrcOk then 1 else if ¬ env1.CrcOk then 2 else newerCopy env1.flags env2.flags
    { s with env := if envValid = 1 then env1 else env2, envValid }

/-! ## The bytes of an environment -/

theorem Env.toBytes_length (cfg : EnvConfig) (env : Env) :
    (env.toBytes cfg).length = cfg.headerSize + env.data.length := by
  cases hr : cfg.redund <;> simp [Env.toBytes, EnvConfig.headerSize, hr]
  omega

theorem crcWord_le32 (crc : UInt32) :
    crcWord (UInt8.ofNat crc.toNat) (UInt8.ofNat (crc.toNat / 256))
      (UInt8.ofNat (crc.toNat / 65536)) (UInt8.ofNat (crc.toNat / 16777216)) = crc := by
  apply UInt32.toNat_inj.mp
  have h := crc.toNat_lt
  simp only [crcWord, UInt32.toNat_ofNat', UInt8.toNat_ofNat']
  omega

/-- What is written is read back, except for a serial that is not stored. -/
theorem Env.ofBytes_toBytes {cfg : EnvConfig} {env : Env} (h : env.data.length = cfg.dataSize) :
    Env.ofBytes cfg (env.toBytes cfg) =
      { env with flags := if cfg.redund then env.flags else 0 } := by
  have hc : crcWord env.crc.toUInt8 (UInt8.ofNat (env.crc.toNat / 256))
      (UInt8.ofNat (env.crc.toNat / 65536)) (UInt8.ofNat (env.crc.toNat / 16777216)) = env.crc := by
    simpa using crcWord_le32 env.crc
  cases hr : cfg.redund <;>
    simp [Env.ofBytes, Env.toBytes, EnvConfig.headerSize, hr, le32, hc, ← h]

/-! ## Flash -/

theorem nandWrite_outside {m : Mem UInt8} {offset x : Nat} {bs : List UInt8}
    (h : x < offset ∨ offset + bs.length ≤ x) : nandWrite m offset bs x = m x := by
  by_cases hx : offset ≤ x
  · have hall : m x &&& 0xFF = m x := by
      apply UInt8.toBitVec_inj.mp
      rw [UInt8.toBitVec_and]
      exact BitVec.and_allOnes
    rw [nandWrite, if_pos hx, List.getD_eq_default _ _ (by omega), hall]
  · rw [nandWrite, if_neg hx]

/-- Writing to erased flash stores the data. -/
theorem read_nandWrite {m : Mem UInt8} {offset : Nat} {bs : List UInt8}
    (h : ∀ i, i < bs.length → m (offset + i) = 0xFF) :
    (nandWrite m offset bs).read offset bs.length = bs := by
  apply List.ext_getElem
  · simp
  · intro i h₁ h₂
    have hall : 0xFF &&& bs[i] = bs[i] := by
      apply UInt8.toBitVec_inj.mp
      rw [UInt8.toBitVec_and]
      exact BitVec.allOnes_and
    rw [Mem.getElem_read, nandWrite, if_pos (by omega), h i h₂, Nat.add_sub_cancel_left,
      List.getD_eq_getElem _ _ h₂, hall]

/-- The good blocks from `offset` on, of `n`, are erased as far as `stop`. -/
def Erased (site : NandSite) (stop n offset : Nat) (m : Mem UInt8) : Prop :=
  ∀ k, k < n → offset + k * site.erasesize < stop → site.bad (offset + k * site.erasesize) = false →
    ∀ i, i < site.erasesize → m (offset + k * site.erasesize + i) = 0xFF

/-- Block `k + 1` from one block is block `k` from the next. -/
theorem block_succ (site : NandSite) (offset k : Nat) :
    offset + (k + 1) * site.erasesize = offset + site.erasesize + k * site.erasesize := by ring

theorem Erased.next {site : NandSite} {stop n offset : Nat} {m m' : Mem UInt8}
    (h : Erased site stop (n + 1) offset m)
    (hm : ∀ x, offset + site.erasesize ≤ x → m' x = m x) :
    Erased site stop n (offset + site.erasesize) m' := by
  intro k hk hs hb i hi
  rw [← block_succ] at hs hb ⊢
  rw [hm _ (by rw [block_succ]; omega)]
  exact h (k + 1) (by omega) hs hb i hi

theorem nandEraseLoop_outside (site : NandSite) (stop fuel addr : Nat) (m : Mem UInt8) {x : Nat}
    (h : x < addr ∨ addr + fuel * site.erasesize ≤ x) :
    nandEraseLoop site stop fuel addr m x = m x := by
  induction fuel generalizing addr m with
  | zero => rfl
  | succ fuel ih =>
    have hstep : addr + (fuel + 1) * site.erasesize =
        addr + site.erasesize + fuel * site.erasesize := block_succ ..
    rw [nandEraseLoop]
    split
    · rw [ih _ _ (by omega)]
      split
      · rfl
      · exact Mem.fill_outside _ (by omega)
    · rfl

theorem nandEraseLoop_erased (site : NandSite) (stop fuel addr : Nat) (m : Mem UInt8) :
    Erased site stop fuel addr (nandEraseLoop site stop fuel addr m) := by
  induction fuel generalizing addr m with
  | zero => intro k hk; omega
  | succ fuel ih =>
    intro k hk hs hb i hi
    have hcond : addr < stop := by omega
    rw [nandEraseLoop, if_pos hcond]
    cases k with
    | zero =>
      -- the block of this round: the later rounds are behind it
      rw [Nat.zero_mul, Nat.add_zero] at hb ⊢
      rw [nandEraseLoop_outside _ _ _ _ _ (by omega), hb, if_neg (by simp),
        Mem.fill_inside _ (by omega) (by omega)]
    | succ k =>
      rw [block_succ] at hs hb ⊢
      exact ih _ _ k (by omega) hs hb i hi

theorem chunk_le (site : NandSite) (cfg : EnvConfig) : site.chunk cfg ≤ site.erasesize :=
  Nat.min_le_left ..

theorem writeenvLoop_outside (site : NandSite) (cfg : EnvConfig) (stop : Nat) (buf : List UInt8)
    (fuel offset amount : Nat) (m : Mem UInt8) {x : Nat}
    (h : x < offset ∨ offset + fuel * site.erasesize ≤ x) :
    (writeenvLoop site cfg stop buf fuel offset amount m).1 x = m x := by
  induction fuel generalizing offset amount m with
  | zero => rfl
  | succ fuel ih =>
    have hstep : offset + (fuel + 1) * site.erasesize =
        offset + site.erasesize + fuel * site.erasesize := block_succ ..
    have hchunk := chunk_le site cfg
    have hlen : ((buf.drop amount).take (site.chunk cfg)).length ≤ site.chunk cfg :=
      List.length_take_le ..
    rw [writeenvLoop]
    split
    · split
      · exact ih _ _ _ (by omega)
      · rw [ih _ _ _ (by omega), nandWrite_outside (by omega)]
    · rfl

theorem le_writeenvLoop (site : NandSite) (cfg : EnvConfig) (stop : Nat) (buf : List UInt8)
    (fuel offset amount : Nat) (m : Mem UInt8) :
    amount ≤ (writeenvLoop site cfg stop buf fuel offset amount m).2 := by
  induction fuel generalizing offset amount m with
  | zero => exact Nat.le_refl _
  | succ fuel ih =>
    rw [writeenvLoop]
    split
    · split
      · exact ih ..
      · exact Nat.le_trans (Nat.le_add_right ..) (ih ..)
    · exact Nat.le_refl _

/-- `readenv` finds what `writeenv` has saved: both skip the same blocks. -/
theorem readenvLoop_writeenvLoop {site : NandSite} {cfg : EnvConfig} {stop fuel offset amount : Nat}
    {buf : List UInt8} {m : Mem UInt8} (hbuf : buf.length = cfg.envSize)
    (hm : Erased site stop fuel offset m)
    (hdone : (writeenvLoop site cfg stop buf fuel offset amount m).2 = cfg.envSize) :
    readenvLoop site cfg stop (writeenvLoop site cfg stop buf fuel offset amount m).1 fuel offset
      (buf.take amount) = buf := by
  have hle := le_writeenvLoop site cfg stop buf fuel offset amount m
  induction fuel generalizing offset amount m with
  | zero =>
    have ha : amount = cfg.envSize := hdone
    rw [readenvLoop, List.take_of_length_le (by omega)]
  | succ fuel ih =>
    have hlen : (buf.take amount).length = amount := by rw [List.length_take]; omega
    by_cases hgo : amount < cfg.envSize ∧ offset < stop
    · rw [readenvLoop, hlen, if_pos hgo]
      rw [writeenvLoop, if_pos hgo] at hdone ⊢
      by_cases hb : site.bad offset
      · rw [if_pos hb] at hdone ⊢
        rw [if_pos hb]
        exact ih (hm.next fun _ _ => rfl) hdone (le_writeenvLoop ..)
      · rw [if_neg hb] at hdone ⊢
        rw [if_neg hb]
        have hchunk := chunk_le site cfg
        have hnext := le_writeenvLoop site cfg stop buf fuel (offset + site.erasesize)
          (amount + site.chunk cfg)
          (nandWrite m offset ((buf.drop amount).take (site.chunk cfg)))
        have hclen : ((buf.drop amount).take (site.chunk cfg)).length = site.chunk cfg := by
          rw [List.length_take, List.length_drop]; omega
        -- the later rounds leave this block alone, so the reader finds its chunk in it
        have hread : (writeenvLoop site cfg stop buf fuel (offset + site.erasesize)
            (amount + site.chunk cfg)
            (nandWrite m offset ((buf.drop amount).take (site.chunk cfg)))).1.read offset
              (site.chunk cfg) = (buf.drop amount).take (site.chunk cfg) := by
          rw [@Mem.read_congr _ _ _ _ (nandWrite m offset ((buf.drop amount).take (site.chunk cfg)))
            fun x _ hx => writeenvLoop_outside _ _ _ _ _ _ _ _ (.inl (by omega))]
          have h := @read_nandWrite m offset
            ((buf.drop amount).take (site.chunk cfg)) (by
              intro i hi
              have h0 := hm 0 (by omega) (by omega) (by simpa using hb) i (by omega)
              simpa using h0)
          rwa [hclen] at h
        rw [hread, ← List.take_add]
        apply ih _ hdone (by rwa [hdone] at hnext ⊢)
        exact hm.next fun x hx => nandWrite_outside (.inr (by omega))
    · rw [writeenvLoop, if_neg hgo] at hdone ⊢
      have ha : amount = cfg.envSize := hdone
      rw [readenvLoop, hlen, if_neg hgo, List.take_of_length_le (by omega)]

theorem readenvLoop_congr {site : NandSite} {cfg : EnvConfig} {stop fuel offset : Nat}
    {m m' : Mem UInt8} {loaded : List UInt8}
    (h : ∀ x, offset ≤ x → x < offset + fuel * site.erasesize → m x = m' x) :
    readenvLoop site cfg stop m fuel offset loaded = readenvLoop site cfg stop m' fuel offset loaded := by
  induction fuel generalizing offset loaded with
  | zero => rfl
  | succ fuel ih =>
    have hstep : offset + (fuel + 1) * site.erasesize =
        offset + site.erasesize + fuel * site.erasesize := block_succ ..
    have hchunk := chunk_le site cfg
    have hread : m.read offset (site.chunk cfg) = m'.read offset (site.chunk cfg) :=
      Mem.read_congr fun x h1 h2 => h x h1 (by omega)
    have hrest := fun l => @ih (offset + site.erasesize) l
      fun x h1 h2 => h x (by omega) (by omega)
    simp only [readenvLoop, hread, hrest]

/-- The blocks of the other copy read as before. -/
theorem readenv_congr {site : NandSite} {cfg : EnvConfig} {offset : Nat} {m m' : Mem UInt8}
    (h : ∀ x, offset ≤ x → x < offset + site.span → m x = m' x) (buf : List UInt8) :
    readenv site cfg m offset buf = readenv site cfg m' offset buf := by
  simp only [readenv, @readenvLoop_congr site cfg _ _ _ _ _ _ h]

/-- What a save without a fault leaves outside the blocks of its copy. -/
theorem saveCopy_outside (site : NandSite) (cfg : EnvConfig) (offset : Nat) (buf : List UInt8)
    (m : Mem UInt8) {x : Nat} (h : x < offset ∨ offset + site.span ≤ x) :
    (saveCopy site cfg offset buf m .none).2 x = m x := by
  simp only [saveCopy, writeenv]
  rw [writeenvLoop_outside _ _ _ _ _ _ _ _ h, nandEraseOpts, nandEraseLoop_outside _ _ _ _ _ h]

/-- What `writeenv` saves in erased blocks `readenv` loads, whatever the buffer held. -/
theorem readenv_writeenv {site : NandSite} {cfg : EnvConfig} {offset : Nat} {buf heap : List UInt8}
    {m : Mem UInt8} (hbuf : buf.length = cfg.envSize) (hheap : heap.length = cfg.envSize)
    (herased : Erased site (offset + site.envRange) (site.blocks site.envRange) offset m)
    (hdone : (writeenv site cfg offset buf m).1 = true) :
    readenv site cfg (writeenv site cfg offset buf m).2 offset heap = (true, buf) := by
  have hload := @readenvLoop_writeenvLoop _ _ _ _ _ 0 _ _ hbuf herased (by
    simpa [writeenv] using hdone)
  rw [List.take_zero] at hload
  rw [readenv, writeenv, hload]
  simp [hbuf, ← hheap]

/-- **A copy that was saved is loaded again.** -/
theorem readenv_saveCopy {site : NandSite} {cfg : EnvConfig} {offset : Nat} {buf : List UInt8}
    {m : Mem UInt8} (hbuf : buf.length = cfg.envSize)
    (hdone : (saveCopy site cfg offset buf m .none).1 = true) (heap : List UInt8)
    (hheap : heap.length = cfg.envSize) :
    readenv site cfg (saveCopy site cfg offset buf m .none).2 offset heap = (true, buf) := by
  have herased : Erased site (offset + site.envRange) (site.blocks site.envRange) offset
      (nandEraseOpts site offset m) := by
    intro k hk hs hb i hi
    exact nandEraseLoop_erased site _ _ offset m k hk (by omega) hb i hi
  exact readenv_writeenv hbuf hheap herased hdone

end Uboot.Common
