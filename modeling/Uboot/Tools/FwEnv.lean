/-
  Uboot.Tools.FwEnv

  The Linux side of the environment, tools/env/fw_env.c, on NAND flash with two copies:
  `env_init`, which selects a copy, and the write of `fw_setenv`.

  The flash is the one of the boot loader's own model, so that both programs can run on
  it in turn.  Both devices are NAND, hence the flag scheme is `FLAG_INCREMENTAL`; the
  tests for failing system calls are left out.
-/

import Uboot.Common.EnvRedundant

namespace Uboot.Tools

open Uboot.Lib Uboot.LibGeneric Uboot.Common

-- ============================================================================
-- Definitions from the source: the flash
-- ============================================================================

/-- A board with a redundant environment, and what `fw_env.config` and the build of
    the tool say about it.  The file describes the areas that the boot loader uses. -/
structure FwBoard extends RedundBoard where
  /-- `ENVSECTORS`, of both devices. -/
  sectors : Nat
  /-- `char` is a signed type. -/
  charSigned : Bool
  /-- The tool's own `default_environment`. -/
  fwDefault : List UInt8
  range_eq : site.envRange = sectors * site.erasesize
  aligned : site.erasesize ∣ site.envOffset
  aligned_redund : site.erasesize ∣ site.envOffsetRedund

/-- The loop of `flash_read_buf`: the bytes processed, or `none` for the return of -1.
    The fuel is one more than the blocks below `top`. -/
def flashReadLoop (site : NandSite) (top : Nat) (m : Mem UInt8) (count : Nat) :
    Nat → Nat → Nat → Nat → List UInt8 → Option (List UInt8)
  | 0, _, _, _, _ => none
  | fuel + 1, blockstart, blockSeek, readlen, processed =>
    if processed.length < count then
      -- the end of the range is tested before the block
      if top < blockstart + blockSeek + readlen then none
      else if site.bad blockstart then
        flashReadLoop site top m count fuel (blockstart + site.erasesize) blockSeek readlen processed
      else
        let processed := processed ++ m.read (blockstart + blockSeek) readlen
        flashReadLoop site top m count fuel (blockstart + site.erasesize) 0
          (min site.erasesize (count - processed.length)) processed
    else some processed

/-- `flash_read_buf` at an offset of the area that starts at `devoff`. -/
def flashReadBuf (site : NandSite) (sectors devoff : Nat) (m : Mem UInt8) (count offset : Nat) :
    Option (List UInt8) :=
  let blockstart := offset / site.erasesize * site.erasesize
  let blockSeek := offset - blockstart
  let top := devoff / site.erasesize * site.erasesize + sectors * site.erasesize
  flashReadLoop site top m count (sectors + 1) blockstart blockSeek
    (min count (site.erasesize - blockSeek)) []

/-- The loop of `flash_write_buf`: each good block is erased and written whole. -/
def flashWriteLoop (site : NandSite) (top : Nat) (data : List UInt8) :
    Nat → Nat → Nat → Mem UInt8 → Bool × Mem UInt8
  | 0, _, _, m => (false, m)
  | fuel + 1, blockstart, processed, m =>
    if processed < data.length then
      if top < blockstart + site.erasesize then (false, m)
      else if site.bad blockstart then
        flashWriteLoop site top data fuel (blockstart + site.erasesize) processed m
      else
        flashWriteLoop site top data fuel (blockstart + site.erasesize) (processed + site.erasesize)
          (nandWrite (m.fill blockstart site.erasesize 0xFF) blockstart
            ((data.drop processed).take site.erasesize))
    else (true, m)

/-- `flash_write_buf`.  What else stands in the blocks is read first and written back. -/
def flashWriteBuf (site : NandSite) (sectors devoff : Nat) (m : Mem UInt8) (buf : List UInt8)
    (offset : Nat) : Bool × Mem UInt8 :=
  let eraseOffset := offset / site.erasesize * site.erasesize
  let blockSeek := offset - eraseOffset
  let top := devoff / site.erasesize * site.erasesize + sectors * site.erasesize
  let writeTotal := (blockSeek + buf.length + site.erasesize - 1) / site.erasesize * site.erasesize
  if buf.length < writeTotal then
    match flashReadBuf site sectors devoff m writeTotal eraseOffset with
    | none => (false, m)
    | some data =>
      flashWriteLoop site top (data.take blockSeek ++ buf ++ data.drop (blockSeek + buf.length))
        (sectors + 1) eraseOffset 0 m
  else flashWriteLoop site top buf (sectors + 1) eraseOffset 0 m

-- ============================================================================
-- Definitions from the source: the two copies
-- ============================================================================

/-- A flag as a `char` holds it. -/
def charOf (signed : Bool) (flag : UInt8) : Int :=
  if signed then flag.toInt8.toInt else flag.toNat

/-- `dev_current` for two good copies, by the scheme `FLAG_INCREMENTAL`. -/
def incrementalDev (signed : Bool) (flag0 flag1 : UInt8) : Nat :=
  let flag0 := charOf signed flag0
  let flag1 := charOf signed flag1
  if (flag0 = 255 ∧ flag1 = 0) ∨ flag0 < flag1 then 1
  else if (flag1 = 255 ∧ flag0 = 0) ∨ flag1 < flag0 then 0
  else 0

/-- `DEVOFFSET`. -/
def FwBoard.devOffset (b : FwBoard) (dev : Nat) : Nat :=
  if dev = 0 then b.site.envOffset else b.site.envOffsetRedund

/-- `flash_io (O_RDONLY)`. -/
def FwBoard.flashRead (b : FwBoard) (m : Mem UInt8) (dev : Nat) : Option (List UInt8) :=
  flashReadBuf b.site b.sectors (b.devOffset dev) m b.cfg.envSize (b.devOffset dev)

/-- `env_init`: `dev_current` and the image it leaves in `environment`. -/
def envInit (b : FwBoard) (m : Mem UInt8) : Option (Nat × Env) := do
  let image0 := Env.ofBytes b.cfg (← b.flashRead m 0)
  let image1 := Env.ofBytes b.cfg (← b.flashRead m 1)
  if image0.CrcOk ∧ ¬ image1.CrcOk then some (0, image0)
  else if ¬ image0.CrcOk ∧ image1.CrcOk then some (1, image1)
  else if ¬ image0.CrcOk ∧ ¬ image1.CrcOk then
    some (0, { image0 with data := b.fwDefault ++ image0.data.drop b.fwDefault.length })
  else if incrementalDev b.charSigned image0.flags image1.flags = 1 then some (1, image1)
  else some (0, image0)

/-- The write of `fw_setenv`: `data` is the environment as it has changed it.  The
    image goes to the device that is not the current one, its flag counted up. -/
def fwSetenv (b : FwBoard) (m : Mem UInt8) (data : List UInt8) : Bool × Mem UInt8 :=
  match envInit b m with
  | none => (false, m)
  | some (devCurrent, image) =>
    let image : Env := { crc := envCrc data, flags := image.flags + 1, data }
    let devTarget := if devCurrent = 0 then 1 else 0
    flashWriteBuf b.site b.sectors (b.devOffset devTarget) m (image.toBytes b.cfg)
      (b.devOffset devTarget)

-- ============================================================================
-- Both programs skip the same blocks
-- ============================================================================

/-- How far two loops over the same blocks have come, `readenv` with `a` bytes of `size`
    and one of the loops here with `p` bytes of `count`: blocks no larger than the
    environment are taken whole by both, of a larger one `readenv` takes `size` bytes. -/
def InStep (erasesize size count a p : Nat) : Prop :=
  (erasesize ≤ size ∧ count = size ∧ p = a) ∨
    (size < erasesize ∧ size ≤ count ∧ count ≤ erasesize ∧ (a = 0 ∧ p = 0 ∨ a = size ∧ p = count))

section Loops

variable {site : NandSite} {cfg : EnvConfig} {top count n offset : Nat} {m m' : Mem UInt8}

/-- The first cells of a reading. -/
theorem read_take {a k : Nat} : (m.read a n).take k = m.read a (min k n) := by
  rw [Mem.read, Mem.read, ← List.map_take, List.take_range]

/-- What has been loaded only grows. -/
theorem le_readenvLoop (loaded : List UInt8) :
    loaded.length ≤ (readenvLoop site cfg top m n offset loaded).length := by
  rw [@readenvLoop_length _ _ _ _ _ _ m []]
  exact le_writeenvLoop ..

/-- A loop that loads everything finds room for the next chunk. -/
theorem chunk_fits {loaded : List UInt8} (hgo : loaded.length < cfg.envSize) (htop : offset < top)
    (hgood : site.bad offset = false)
    (hload : (readenvLoop site cfg top m (n + 1) offset loaded).length = cfg.envSize) :
    (readenvLoop site cfg top m n (offset + site.erasesize)
      (loaded ++ m.read offset (site.chunk cfg))).length = cfg.envSize ∧
    loaded.length + site.chunk cfg ≤ cfg.envSize := by
  rw [readenvLoop, if_pos ⟨hgo, htop⟩, hgood, if_neg (by simp)] at hload
  have hle := @le_readenvLoop site cfg top n (offset + site.erasesize) m
    (loaded ++ m.read offset (site.chunk cfg))
  rw [hload, List.length_append, Mem.read_length] at hle
  exact ⟨hload, hle⟩

/-- A loop that ends without a block left has loaded everything. -/
theorem full_of_no_block {loaded : List UInt8}
    (hload : (readenvLoop site cfg top m 0 offset loaded).length = cfg.envSize) :
    loaded.length = cfg.envSize := hload

/-- Where `readenv` loads a copy, `flash_read_buf` reads it, and as much of the last
    block as it is asked for. -/
theorem flashReadLoop_eq {loaded processed : List UInt8} (hsize : 0 < cfg.envSize)
    (htop : offset + n * site.erasesize = top)
    (hload : (readenvLoop site cfg top m n offset loaded).length = cfg.envSize)
    (hstep : InStep site.erasesize cfg.envSize count loaded.length processed.length)
    (hsame : loaded = processed.take cfg.envSize) :
    ∃ data, flashReadLoop site top m count (n + 1) offset 0
        (min site.erasesize (count - processed.length)) processed = some data ∧
      data.length = count ∧ data.take cfg.envSize = readenvLoop site cfg top m n offset loaded := by
  have hpos := site.erasesize_pos
  induction n generalizing offset loaded processed with
  | zero =>
    have hfull := full_of_no_block hload
    have hdone : ¬ processed.length < count := by
      rcases hstep with h | h <;> omega
    refine ⟨processed, by rw [flashReadLoop, if_neg hdone], ?_, hsame.symm⟩
    rcases hstep with h | h <;> omega
  | succ n ih =>
    rw [block_succ] at htop
    have hlt : offset < top := by omega
    by_cases hgo : loaded.length < cfg.envSize
    · have hgo' : processed.length < count := by rcases hstep with h | h <;> omega
      have hroom : ¬ top < offset + 0 + min site.erasesize (count - processed.length) := by omega
      have hread : readenvLoop site cfg top m (n + 1) offset loaded =
          if site.bad offset then readenvLoop site cfg top m n (offset + site.erasesize) loaded
          else readenvLoop site cfg top m n (offset + site.erasesize)
            (loaded ++ m.read offset (site.chunk cfg)) := by
        rw [readenvLoop, if_pos ⟨hgo, hlt⟩]
      rw [flashReadLoop, if_pos hgo', if_neg hroom, hread]
      by_cases hbad : site.bad offset = true
      · rw [hread, if_pos hbad] at hload
        rw [if_pos hbad, if_pos hbad]
        exact ih htop hload hstep hsame
      · obtain ⟨hload', hfit⟩ := chunk_fits hgo hlt (by simpa using hbad) hload
        rw [if_neg hbad, if_neg hbad]
        have hchunk : site.chunk cfg = min site.erasesize cfg.envSize := rfl
        refine ih htop hload' ?_ ?_
        · rw [List.length_append, List.length_append, Mem.read_length, Mem.read_length]
          rcases hstep with ⟨h1, h2, h3⟩ | ⟨h1, h2, h3, h4⟩
          · exact .inl ⟨h1, h2, by omega⟩
          · exact .inr ⟨h1, h2, h3, by omega⟩
        · -- the chunk is what `flash_read_buf` reads, or the part of it inside the environment
          have hlen : processed.length = loaded.length := by
            rcases hstep with h | h <;> omega
          have hwhole : processed.take cfg.envSize = processed :=
            List.take_of_length_le (by omega)
          rw [List.take_append, hwhole, Nat.add_zero, hsame, hwhole, read_take]
          congr 2
          rcases hstep with h | h <;> omega
    · have hdone : ¬ processed.length < count := by rcases hstep with h | h <;> omega
      have hstop : ¬ (loaded.length < cfg.envSize ∧ offset < top) := fun h => hgo h.1
      rw [readenvLoop, if_neg hstop] at hload ⊢
      refine ⟨processed, by rw [flashReadLoop, if_neg hdone], ?_, hsame.symm⟩
      rcases hstep with h | h <;> omega

/-- The blocks in front of the loop and behind `top` stay. -/
theorem flashWriteLoop_outside {data : List UInt8} {fuel processed x : Nat}
    (h : x < offset ∨ top ≤ x) :
    (flashWriteLoop site top data fuel offset processed m).2 x = m x := by
  induction fuel generalizing offset processed m with
  | zero => rfl
  | succ fuel ih =>
    have hlen : ((data.drop processed).take site.erasesize).length ≤ site.erasesize :=
      List.length_take_le ..
    rw [flashWriteLoop]
    split
    · split
      · rfl
      · split
        · exact ih (by omega)
        · rw [ih (by omega), nandWrite_outside (by omega), Mem.fill_outside _ (by omega)]
    · rfl

/-- A block that is erased and written whole holds what was written. -/
theorem read_flashBlock {bs : List UInt8} (hbs : bs.length = site.erasesize) {k : Nat}
    (hk : k ≤ site.erasesize) :
    (nandWrite (m.fill offset site.erasesize 0xFF) offset bs).read offset k = bs.take k := by
  have hwhole := @read_nandWrite (m.fill offset site.erasesize 0xFF) offset bs
    fun i hi => Mem.fill_inside _ (by omega) (by omega)
  have hcut := congrArg (List.take k) hwhole
  rwa [read_take, hbs, Nat.min_eq_left hk] at hcut

/-- The block that a round writes is left alone by the later ones, so `readenv` finds its chunk in it. -/
theorem flashWriteLoop_chunk {data : List UInt8} {processed : Nat} (hmore : processed + site.erasesize ≤ data.length)
    (fuel next : Nat) :
    (flashWriteLoop site top data fuel (offset + site.erasesize) next
        (nandWrite (m.fill offset site.erasesize 0xFF) offset
          ((data.drop processed).take site.erasesize))).2.read offset (site.chunk cfg) =
      (data.drop processed).take (site.chunk cfg) := by
  have hbs : ((data.drop processed).take site.erasesize).length = site.erasesize := by
    rw [List.length_take, List.length_drop]
    omega
  have hchunk : site.chunk cfg = min site.erasesize cfg.envSize := rfl
  have hcongr := @Mem.read_congr _ offset (site.chunk cfg) _ _ fun x _ hx =>
    @flashWriteLoop_outside site top (offset + site.erasesize)
      (nandWrite (m.fill offset site.erasesize 0xFF) offset
        ((data.drop processed).take site.erasesize)) data fuel next x (.inl (by omega))
  rw [hcongr, read_flashBlock hbs (by omega), List.take_take, hchunk]
  congr 1
  omega

/-- A whole block further, both loops are in step again. -/
theorem InStep.next {erasesize size count a p : Nat} (h : InStep erasesize size count a p) (ha : a < size)
    (hmore : p + erasesize ≤ count) : InStep erasesize size count (a + min erasesize size) (p + erasesize) := by
  rcases h with ⟨h1, h2, h3⟩ | ⟨h1, h2, h3, h4⟩
  · exact .inl ⟨h1, h2, by omega⟩
  · exact .inr ⟨h1, h2, h3, by omega⟩

/-- What is loaded stays the beginning of what is written. -/
theorem InStep.take {erasesize size a p : Nat} {data : List UInt8} (h : InStep erasesize size data.length a p)
    (ha : a < size) (hmore : p + erasesize ≤ data.length) :
    (data.take p).take size ++ (data.drop p).take (min erasesize size) =
      (data.take (p + erasesize)).take size := by
  rw [List.take_take, List.take_take]
  rcases h with ⟨h1, h2, h3⟩ | ⟨h1, h2, h3, h4⟩
  · rw [Nat.min_eq_left h1, Nat.min_eq_right (by omega), Nat.min_eq_right (by omega), ← List.take_add]
  · obtain rfl : p = 0 := by omega
    simp only [Nat.zero_add, Nat.min_zero, List.take_zero, List.nil_append, List.drop_zero]
    congr 1
    omega

/-- Where `readenv` loads a copy, `flash_write_buf` writes all of its data, and
    `readenv` then loads what was written. -/
theorem flashWriteLoop_eq {data loaded : List UInt8} {processed : Nat} {m₀ : Mem UInt8}
    (hsize : 0 < cfg.envSize) (htop : offset + n * site.erasesize = top)
    (hload : (readenvLoop site cfg top m₀ n offset loaded).length = cfg.envSize)
    (hblock : site.erasesize ∣ data.length) (hpblock : site.erasesize ∣ processed)
    (hstep : InStep site.erasesize cfg.envSize data.length loaded.length processed)
    (hsame : loaded = (data.take processed).take cfg.envSize) :
    let r := flashWriteLoop site top data (n + 1) offset processed m
    r.1 = true ∧ readenvLoop site cfg top r.2 n offset loaded = data.take cfg.envSize := by
  have hpos := site.erasesize_pos
  induction n generalizing offset loaded processed m with
  | zero =>
    have hfull := full_of_no_block hload
    have hdone : ¬ processed < data.length := by
      rcases hstep with h | h <;> omega
    rw [flashWriteLoop, if_neg hdone]
    refine ⟨rfl, ?_⟩
    rw [readenvLoop, hsame, List.take_of_length_le (l := data) (by omega)]
  | succ n ih =>
    rw [block_succ] at htop
    have hlt : offset < top := by omega
    by_cases hgo : loaded.length < cfg.envSize
    · have hgo' : processed < data.length := by rcases hstep with h | h <;> omega
      have hroom : ¬ top < offset + site.erasesize := by omega
      have hread : ∀ m, readenvLoop site cfg top m (n + 1) offset loaded =
          if site.bad offset then readenvLoop site cfg top m n (offset + site.erasesize) loaded
          else readenvLoop site cfg top m n (offset + site.erasesize)
            (loaded ++ m.read offset (site.chunk cfg)) := by
        intro m
        rw [readenvLoop, if_pos ⟨hgo, hlt⟩]
      rw [flashWriteLoop, if_pos hgo', if_neg hroom]
      dsimp only
      rw [hread]
      by_cases hbad : site.bad offset = true
      · rw [hread, if_pos hbad] at hload
        rw [if_pos hbad, if_pos hbad]
        exact ih htop hload hpblock hstep hsame
      · have hfit := chunk_fits hgo hlt (by simpa using hbad) hload
        rw [if_neg hbad, if_neg hbad]
        have hmore : processed + site.erasesize ≤ data.length := by
          have hle := Nat.le_of_dvd (by omega) (Nat.dvd_sub hblock hpblock)
          omega
        rw [flashWriteLoop_chunk hmore]
        have hload' := hfit.1
        have hlen : (loaded ++ (data.drop processed).take (site.chunk cfg)).length =
            loaded.length + min site.erasesize cfg.envSize := by
          rw [List.length_append, List.length_take, List.length_drop, NandSite.chunk]
          rcases hstep with h | h <;> omega
        rw [@readenvLoop_length _ _ _ _ _ _ m₀ [], List.length_append, Mem.read_length, NandSite.chunk, ← hlen,
          ← @readenvLoop_length _ _ _ _ _ m₀] at hload'
        refine ih htop hload' (Nat.dvd_add hpblock (Nat.dvd_refl _)) ?_ ?_
        · rw [hlen]
          exact hstep.next hgo hmore
        · rw [hsame, NandSite.chunk]
          exact hstep.take hgo hmore
    · have hdone : ¬ processed < data.length := by rcases hstep with h | h <;> omega
      have hstop : ¬ (loaded.length < cfg.envSize ∧ offset < top) := fun h => hgo h.1
      rw [flashWriteLoop, if_neg hdone]
      refine ⟨rfl, ?_⟩
      rw [readenvLoop, if_neg hstop, hsame, List.take_of_length_le (l := data) (by omega)]

/-- Blocks no larger than the environment are loaded whole. -/
theorem dvd_readenvLoop {loaded : List UInt8} (hes : site.erasesize ≤ cfg.envSize)
    (h : site.erasesize ∣ loaded.length) :
    site.erasesize ∣ (readenvLoop site cfg top m n offset loaded).length := by
  have hchunk : site.chunk cfg = site.erasesize := Nat.min_eq_left hes
  induction n generalizing offset loaded with
  | zero => exact h
  | succ n ih =>
    rw [readenvLoop]
    split
    · split
      · exact ih h
      · apply ih
        rw [List.length_append, Mem.read_length, hchunk]
        exact Nat.dvd_add h (Nat.dvd_refl _)
    · exact h

/-- No more is loaded than the blocks hold. -/
theorem readenvLoop_le (loaded : List UInt8) :
    (readenvLoop site cfg top m n offset loaded).length ≤ loaded.length + n * site.erasesize := by
  have hchunk := chunk_le site cfg
  induction n generalizing offset loaded with
  | zero => exact Nat.le_add_right ..
  | succ n ih =>
    have hstep : (n + 1) * site.erasesize = site.erasesize + n * site.erasesize := by ring
    have hskip := @ih (offset + site.erasesize) loaded
    have htake := @ih (offset + site.erasesize) (loaded ++ m.read offset (site.chunk cfg))
    rw [List.length_append, Mem.read_length] at htake
    rw [readenvLoop]
    split
    · split <;> omega
    · omega

end Loops

-- ============================================================================
-- One copy
-- ============================================================================

section Board

variable {b : FwBoard} {m : Mem UInt8} {dev : Nat}

theorem envSize_pos (b : FwBoard) : 0 < b.cfg.envSize := by
  have h := EnvConfig.header_add_data b.fits
  have hh : 0 < b.cfg.headerSize := by
    unfold EnvConfig.headerSize
    split <;> omega
  omega

theorem blocks_eq (b : FwBoard) :
    b.site.blocks (b.sectors * b.site.erasesize) = b.sectors := by
  have hpos := b.site.erasesize_pos
  rw [NandSite.blocks, Nat.add_sub_assoc (by omega), Nat.mul_comm,
    Nat.mul_add_div hpos, Nat.div_eq_of_lt (by omega), Nat.add_zero]

theorem devOffset_eq (hdev : dev = 0 ∨ dev = 1) : b.devOffset dev = b.offsetOf (dev + 1) := by
  rcases hdev with rfl | rfl <;> rfl

theorem devOffset_aligned (b : FwBoard) (dev : Nat) :
    b.devOffset dev / b.site.erasesize * b.site.erasesize = b.devOffset dev := by
  apply Nat.div_mul_cancel
  unfold FwBoard.devOffset
  split
  · exact b.aligned
  · exact b.aligned_redund

/-- What the boot loader's loop loads of a device, and how much. -/
theorem readCopy_loop (hdev : dev = 0 ∨ dev = 1)
    (h : (readCopy b.toRedundBoard m (dev + 1) []).1 = true) :
    let loaded := readenvLoop b.site b.cfg (b.devOffset dev + b.sectors * b.site.erasesize) m
      b.sectors (b.devOffset dev) []
    loaded.length = b.cfg.envSize ∧ (readCopy b.toRedundBoard m (dev + 1) []).2 = loaded := by
  simp only [readCopy, readenv, ← devOffset_eq hdev, b.range_eq, blocks_eq,
    decide_eq_true_eq] at h ⊢
  exact ⟨h, by rw [List.drop_nil, List.append_nil]⟩

/-- A copy that can be loaded fits in its range. -/
theorem envSize_le_range (hdev : dev = 0 ∨ dev = 1)
    (h : (readCopy b.toRedundBoard m (dev + 1) []).1 = true) : b.cfg.envSize ≤ b.site.envRange := by
  obtain ⟨hload, -⟩ := readCopy_loop hdev h
  rw [b.range_eq, ← hload]
  have hle := @readenvLoop_le b.site b.cfg (b.devOffset dev + b.sectors * b.site.erasesize) b.sectors
    (b.devOffset dev) m []
  rwa [List.length_nil, Nat.zero_add] at hle

/-- `flash_io` reads a copy that `readenv` can load. -/
theorem flashRead_eq (hdev : dev = 0 ∨ dev = 1)
    (h : (readCopy b.toRedundBoard m (dev + 1) []).1 = true) :
    b.flashRead m dev = some (readCopy b.toRedundBoard m (dev + 1) []).2 := by
  obtain ⟨hload, hbytes⟩ := readCopy_loop hdev h
  have hstep : InStep b.site.erasesize b.cfg.envSize b.cfg.envSize
      ([] : List UInt8).length ([] : List UInt8).length := by
    by_cases hes : b.site.erasesize ≤ b.cfg.envSize
    · exact .inl ⟨hes, rfl, rfl⟩
    · exact .inr ⟨by omega, by omega, by omega, .inl ⟨rfl, rfl⟩⟩
  obtain ⟨data, hread, hlen, hdata⟩ :=
    flashReadLoop_eq (envSize_pos b) rfl hload hstep List.take_nil.symm
  rw [FwBoard.flashRead, flashReadBuf]
  simp only [devOffset_aligned, Nat.sub_self, Nat.sub_zero]
  rw [Nat.min_comm]
  simp only [List.length_nil, Nat.sub_zero] at hread
  rw [hread, hbytes, ← hdata, List.take_of_length_le (by omega)]

/-- The blocks that a write of the environment takes: it fills them, or fits in one. -/
theorem writeTotal_eq (h : b.site.erasesize ≤ b.cfg.envSize → b.site.erasesize ∣ b.cfg.envSize) :
    (b.cfg.envSize + b.site.erasesize - 1) / b.site.erasesize * b.site.erasesize =
      if b.site.erasesize ≤ b.cfg.envSize then b.cfg.envSize else b.site.erasesize := by
  have hpos := b.site.erasesize_pos
  have hsize := envSize_pos b
  split
  · next hes =>
    obtain ⟨k, hk⟩ := h hes
    rw [hk, Nat.add_sub_assoc (by omega), Nat.mul_add_div hpos, Nat.div_eq_of_lt (by omega),
      Nat.add_zero, Nat.mul_comm]
  · next hes =>
    have hone : (b.cfg.envSize + b.site.erasesize - 1) / b.site.erasesize = 1 :=
      Nat.div_eq_of_lt_le (by omega) (by omega)
    rw [hone, Nat.one_mul]

/-- `flash_write_buf` of an environment to a copy that could be loaded: it succeeds,
    the copy then is what was written, and the rest of the flash stays. -/
theorem flashWriteBuf_eq (hdev : dev = 0 ∨ dev = 1)
    (h : (readCopy b.toRedundBoard m (dev + 1) []).1 = true) {buf : List UInt8}
    (hbuf : buf.length = b.cfg.envSize) :
    let r := flashWriteBuf b.site b.sectors (b.devOffset dev) m buf (b.devOffset dev)
    r.1 = true ∧ readCopy b.toRedundBoard r.2 (dev + 1) [] = (true, buf) ∧
      ∀ x, x < b.offsetOf (dev + 1) ∨ b.offsetOf (dev + 1) + b.site.span ≤ x → r.2 x = m x := by
  have hpos := b.site.erasesize_pos
  have hsize := envSize_pos b
  obtain ⟨hload, -⟩ := readCopy_loop hdev h
  have hdvd : b.site.erasesize ≤ b.cfg.envSize → b.site.erasesize ∣ b.cfg.envSize := by
    intro hes
    rw [← hload]
    exact dvd_readenvLoop hes (Nat.dvd_zero _)
  -- the data that the loop writes: the buffer, or a block that starts with it
  have hdata : ∃ data, flashWriteBuf b.site b.sectors (b.devOffset dev) m buf (b.devOffset dev) =
        flashWriteLoop b.site (b.devOffset dev + b.sectors * b.site.erasesize) data (b.sectors + 1)
          (b.devOffset dev) 0 m ∧
      data.take b.cfg.envSize = buf ∧ b.site.erasesize ∣ data.length ∧
      InStep b.site.erasesize b.cfg.envSize data.length 0 0 := by
    simp only [flashWriteBuf, devOffset_aligned, Nat.sub_self, Nat.zero_add, hbuf,
      writeTotal_eq hdvd, List.take_zero, List.nil_append]
    by_cases hes : b.site.erasesize ≤ b.cfg.envSize
    · refine ⟨buf, ?_, List.take_of_length_le (by omega), ?_, .inl ⟨hes, hbuf, rfl⟩⟩
      · rw [if_pos hes, if_neg (by omega)]
      · rw [hbuf]
        exact hdvd hes
    · have hstep : InStep b.site.erasesize b.cfg.envSize b.site.erasesize
          ([] : List UInt8).length ([] : List UInt8).length :=
        .inr ⟨by omega, by omega, by omega, .inl ⟨rfl, rfl⟩⟩
      obtain ⟨old, hread, hlen, -⟩ :=
        flashReadLoop_eq (envSize_pos b) rfl hload hstep List.take_nil.symm
      have hold : flashReadBuf b.site b.sectors (b.devOffset dev) m b.site.erasesize
          (b.devOffset dev) = some old := by
        rw [flashReadBuf]
        simp only [devOffset_aligned, Nat.sub_self, Nat.sub_zero]
        exact hread
      have hlength : (buf ++ old.drop b.cfg.envSize).length = b.site.erasesize := by
        rw [List.length_append, List.length_drop]
        omega
      refine ⟨buf ++ old.drop b.cfg.envSize, ?_, ?_, ?_, ?_⟩
      · rw [if_neg hes, if_pos (by omega), hold]
      · rw [← hbuf, List.take_left]
      · rw [hlength]
      · rw [hlength]
        exact .inr ⟨by omega, by omega, by omega, .inl ⟨rfl, rfl⟩⟩
  obtain ⟨data, heq, htake, hblock, hstep⟩ := hdata
  have hwrite := @flashWriteLoop_eq b.site b.cfg _ _ _ m data [] 0 m hsize rfl hload hblock
    (Nat.dvd_zero _) hstep (by simp)
  have hspan : b.site.span = b.sectors * b.site.erasesize := by
    rw [NandSite.span, b.range_eq, blocks_eq]
  dsimp only
  rw [heq]
  refine ⟨hwrite.1, ?_, ?_⟩
  · simp only [readCopy, readenv, ← devOffset_eq hdev, b.range_eq, blocks_eq]
    rw [hwrite.2, htake]
    simp [hbuf]
  · intro x hx
    rw [hspan, ← devOffset_eq hdev] at hx
    exact flashWriteLoop_outside hx

end Board

end Uboot.Tools
