/-
  Uboot.Common.EnvNandRange

  The limit of the environment in NAND flash: `writeenv` and `readenv` of
  common/env_nand.c walk the blocks that begin before `offset + CONFIG_ENV_RANGE`.

  Of a good block they take `min(blocksize, CONFIG_ENV_SIZE)` bytes without asking
  where those end.
-/

import Uboot.Common.EnvNand

namespace Uboot.Common

open Uboot.Lib

-- ============================================================================
-- Good blocks
-- ============================================================================

/-- How many of the first `k` blocks from `offset` are good. -/
def NandSite.good (site : NandSite) (offset k : Nat) : Nat :=
  (List.range k).countP fun i => !site.bad (offset + i * site.erasesize)

theorem good_succ (site : NandSite) (offset k : Nat) :
    site.good offset (k + 1) =
      (if site.bad offset then 0 else 1) + site.good (offset + site.erasesize) k := by
  have hshift : (fun i => !site.bad (offset + i * site.erasesize)) ∘ Nat.succ =
      fun i => !site.bad (offset + site.erasesize + i * site.erasesize) := by
    funext i
    rw [Function.comp_apply, Nat.succ_eq_add_one, block_succ]
  rw [NandSite.good, List.range_succ_eq_map, List.countP_cons, List.countP_map, hshift,
    Nat.zero_mul, Nat.add_zero, Nat.add_comm, NandSite.good]
  cases site.bad offset <;> rfl

/-- Of `n` blocks from `offset` on, every good one that the loop reaches, `amount` bytes
    done, has its share before `stop`. -/
def Inside (site : NandSite) (cfg : EnvConfig) (stop n offset amount : Nat) : Prop :=
  ∀ k, k < n → offset + k * site.erasesize < stop →
    site.bad (offset + k * site.erasesize) = false →
    amount + site.good offset k * site.chunk cfg < cfg.envSize →
    offset + k * site.erasesize + site.chunk cfg ≤ stop

section Loops

variable {site : NandSite} {cfg : EnvConfig} {stop n offset amount : Nat}

theorem Inside.next (h : Inside site cfg stop (n + 1) offset amount) :
    Inside site cfg stop n (offset + site.erasesize)
      (amount + if site.bad offset then 0 else site.chunk cfg) := by
  intro k hk hstop hgood hreach
  rw [← block_succ] at hstop hgood ⊢
  refine h (k + 1) (Nat.succ_lt_succ hk) hstop hgood ?_
  rw [good_succ, Nat.add_mul, ← Nat.add_assoc]
  cases hbad : site.bad offset <;> simpa [hbad] using hreach

/-- `writeenv` stops at the limit. -/
theorem writeenvLoop_limit {buf : List UInt8} {m : Mem UInt8} {x : Nat}
    (h : Inside site cfg stop n offset amount) (hx : stop ≤ x) :
    (writeenvLoop site cfg stop buf n offset amount m).1 x = m x := by
  induction n generalizing offset amount m with
  | zero => rfl
  | succ n ih =>
    rw [writeenvLoop]
    split
    · rename_i hgo
      have hnext := h.next
      cases hbad : site.bad offset
      · -- the share of this block ends before the limit
        have hend := h 0 n.succ_pos (by simpa using hgo.2) (by simpa using hbad)
          (by simpa [NandSite.good] using hgo.1)
        rw [Nat.zero_mul, Nat.add_zero] at hend
        have hlen : ((buf.drop amount).take (site.chunk cfg)).length ≤ site.chunk cfg :=
          List.length_take_le ..
        simp only [hbad, Bool.false_eq_true, if_false] at hnext ⊢
        rw [ih hnext, nandWrite_outside (.inr (by omega))]
      · simp only [hbad, if_true] at hnext ⊢
        exact ih hnext
    · rfl

/-- `readenv` depends on nothing beyond the limit. -/
theorem readenvLoop_limit {m m' : Mem UInt8} {loaded : List UInt8}
    (h : Inside site cfg stop n offset loaded.length)
    (hm : ∀ x, offset ≤ x → x < stop → m x = m' x) :
    readenvLoop site cfg stop m n offset loaded = readenvLoop site cfg stop m' n offset loaded := by
  induction n generalizing offset loaded with
  | zero => rfl
  | succ n ih =>
    rw [readenvLoop, readenvLoop]
    split
    · rename_i hgo
      have hnext := h.next
      have hm' : ∀ x, offset + site.erasesize ≤ x → x < stop → m x = m' x :=
        fun x hlo hhi => hm x (by omega) hhi
      cases hbad : site.bad offset
      · have hend := h 0 n.succ_pos (by simpa using hgo.2) (by simpa using hbad)
          (by simpa [NandSite.good] using hgo.1)
        rw [Nat.zero_mul, Nat.add_zero] at hend
        have hread : m.read offset (site.chunk cfg) = m'.read offset (site.chunk cfg) :=
          Mem.read_congr fun x hlo hhi => hm x hlo (by omega)
        simp only [hbad, Bool.false_eq_true, if_false] at hnext ⊢
        rw [hread]
        exact ih (by rwa [List.length_append, Mem.read_length]) hm'
      · simp only [hbad, if_true] at hnext ⊢
        exact ih hnext hm'
    · rfl

/-- What `writeenv` leaves in a good block that it reaches. -/
theorem writeenvLoop_block {buf : List UInt8} {m : Mem UInt8} {k i : Nat} (hk : k < n)
    (hstop : offset + k * site.erasesize < stop)
    (hgood : site.bad (offset + k * site.erasesize) = false)
    (hreach : amount + site.good offset k * site.chunk cfg < cfg.envSize)
    (hi : i < site.chunk cfg) :
    (writeenvLoop site cfg stop buf n offset amount m).1 (offset + k * site.erasesize + i) =
      m (offset + k * site.erasesize + i) &&&
        buf.getD (amount + site.good offset k * site.chunk cfg + i) 0xFF := by
  have hchunk := chunk_le site cfg
  induction n generalizing offset amount m k with
  | zero => exact absurd hk (Nat.not_lt_zero k)
  | succ n ih =>
    have hgo : amount < cfg.envSize ∧ offset < stop := ⟨by omega, by omega⟩
    rw [writeenvLoop, if_pos hgo]
    cases k with
    | zero =>
      rw [Nat.zero_mul, Nat.add_zero] at hgood ⊢
      -- the later rounds are behind this block
      rw [hgood, if_neg (by simp), writeenvLoop_outside _ _ _ _ _ _ _ _ (.inl (by omega)), nandWrite,
        if_pos (Nat.le_add_right ..), Nat.add_sub_cancel_left]
      simp [NandSite.good, List.getD_eq_getElem?_getD, hi]
    | succ k =>
      rw [block_succ] at hstop hgood ⊢
      rw [good_succ] at hreach ⊢
      cases hbad : site.bad offset
      · simp only [hbad, Bool.false_eq_true, if_false, Nat.add_mul, Nat.one_mul, ← Nat.add_assoc]
          at hreach ⊢
        rw [ih (Nat.lt_of_succ_lt_succ hk) hstop hgood hreach, nandWrite_outside]
        right
        have hlen : ((buf.drop amount).take (site.chunk cfg)).length ≤ site.chunk cfg :=
          List.length_take_le ..
        omega
      · simp only [hbad, if_true, Nat.zero_add] at hreach ⊢
        exact ih (Nat.lt_of_succ_lt_succ hk) hstop hgood hreach

end Loops

-- ============================================================================
-- The last block
-- ============================================================================

/-- The last block that begins before the limit has its share before the limit, or is
    bad, or the good blocks in front of it hold all of the environment. -/
def LastFits (site : NandSite) (cfg : EnvConfig) (offset : Nat) : Prop :=
  (site.blocks site.envRange - 1) * site.erasesize + site.chunk cfg ≤ site.envRange ∨
    site.bad (offset + (site.blocks site.envRange - 1) * site.erasesize) = true ∨
    cfg.envSize ≤ site.good offset (site.blocks site.envRange - 1) * site.chunk cfg

instance (site : NandSite) (cfg : EnvConfig) (offset : Nat) : Decidable (LastFits site cfg offset) := by
  unfold LastFits
  infer_instance

/-- What is asked of `writeenv` and `readenv`, of flash whose good blocks in the range are
    erased, as `saveenv` leaves it: what was saved is loaded, and no byte outside of the
    range is written or makes a difference to what is read. -/
structure KeepsRange (site : NandSite) (cfg : EnvConfig) (offset : Nat) : Prop where
  loads : ∀ (m : Mem UInt8) (buf heap : List UInt8), buf.length = cfg.envSize →
    heap.length = cfg.envSize →
    Erased site (offset + site.envRange) (site.blocks site.envRange) offset m →
    (writeenv site cfg offset buf m).1 = true →
    readenv site cfg (writeenv site cfg offset buf m).2 offset heap = (true, buf)
  writes : ∀ (m : Mem UInt8) (buf : List UInt8), buf.length = cfg.envSize →
    ∀ x, x < offset ∨ offset + site.envRange ≤ x → (writeenv site cfg offset buf m).2 x = m x
  reads : ∀ (m m' : Mem UInt8) (heap : List UInt8),
    (∀ x, offset ≤ x → x < offset + site.envRange → m x = m' x) →
    readenv site cfg m offset heap = readenv site cfg m' offset heap

section Range

variable {site : NandSite} {cfg : EnvConfig} {offset : Nat}

/-- The last block begins before the limit and ends at or beyond it. -/
theorem lastBlock_bounds (site : NandSite) :
    0 < site.blocks site.envRange ∧
      (site.blocks site.envRange - 1) * site.erasesize < site.envRange ∧
      site.envRange ≤ (site.blocks site.envRange - 1) * site.erasesize + site.erasesize := by
  have hsize := site.erasesize_pos
  have hrange := site.range_pos
  have hle : site.blocks site.envRange * site.erasesize ≤ site.envRange + site.erasesize - 1 :=
    Nat.div_mul_le_self ..
  have hlt : site.envRange + site.erasesize - 1 < site.erasesize * (site.blocks site.envRange + 1) :=
    Nat.lt_mul_div_succ _ hsize
  have hpos : 0 < site.blocks site.envRange := Nat.div_pos (by omega) hsize
  rw [Nat.mul_comm, Nat.add_mul, Nat.one_mul] at hlt
  obtain ⟨n, hn⟩ := Nat.exists_eq_add_of_lt hpos
  rw [hn, Nat.zero_add, Nat.add_mul, Nat.one_mul] at hle hlt
  rw [hn, Nat.zero_add, Nat.add_sub_cancel]
  omega

/-- Only the last block can reach beyond the limit. -/
theorem LastFits.inside (h : LastFits site cfg offset) :
    Inside site cfg (offset + site.envRange) (site.blocks site.envRange) offset 0 := by
  intro k hk hstop hgood hreach
  obtain ⟨hpos, hbegin, -⟩ := lastBlock_bounds site
  have hchunk := chunk_le site cfg
  rcases Nat.lt_or_ge (k + 1) (site.blocks site.envRange) with hlt | hge
  · have hmul : (k + 1) * site.erasesize ≤ (site.blocks site.envRange - 1) * site.erasesize :=
      Nat.mul_le_mul_right _ (by omega)
    rw [Nat.add_mul, Nat.one_mul] at hmul
    omega
  · obtain rfl : k = site.blocks site.envRange - 1 := by omega
    rw [Nat.zero_add] at hreach
    rcases h with hfits | hbad | hfull
    · omega
    · rw [hbad] at hgood
      exact absurd hgood (by simp)
    · omega

/-- If `writeenv` leaves alone what is beyond the limit, the last block fits: zeros
    written to erased flash show how far it goes. -/
theorem lastFits_of_writes (hsize : site.erasesize ∣ cfg.envSize ∨ cfg.envSize < site.erasesize)
    (h : KeepsRange site cfg offset) : LastFits site cfg offset := by
  by_contra hnot
  obtain ⟨hpos, hbegin, hend⟩ := lastBlock_bounds site
  simp only [LastFits, not_or, Nat.not_le, Bool.not_eq_true] at hnot
  obtain ⟨hcross, hgood, hreach⟩ := hnot
  generalize hlast : (site.blocks site.envRange - 1) * site.erasesize = last at *
  have hwrite := h.writes (fun _ => 0xFF) (List.replicate cfg.envSize 0) List.length_replicate
    (offset + site.envRange) (.inr (Nat.le_refl _))
  have hblock := @writeenvLoop_block site cfg (offset + site.envRange) (site.blocks site.envRange)
    offset 0 (List.replicate cfg.envSize 0) (fun _ => 0xFF) (site.blocks site.envRange - 1)
    (site.envRange - last) (by omega) (by omega) (by rw [hlast]; exact hgood)
    (by rw [Nat.zero_add]; exact hreach) (by omega)
  -- the share is a whole one
  have hwhole : site.good offset (site.blocks site.envRange - 1) * site.chunk cfg + site.chunk cfg ≤
      cfg.envSize := by
    have hdvd : site.chunk cfg ∣ cfg.envSize := by
      rw [NandSite.chunk]
      rcases hsize with hdvd | hlt
      · rcases Nat.le_total site.erasesize cfg.envSize with hle | hle
        · rwa [Nat.min_eq_left hle]
        · rw [Nat.min_eq_right hle]
      · rw [Nat.min_eq_right hlt.le]
    obtain ⟨q, hq⟩ := hdvd
    rw [hq, Nat.mul_comm (site.chunk cfg)] at hreach ⊢
    rw [← Nat.succ_mul]
    exact Nat.mul_le_mul_right _ (Nat.lt_of_mul_lt_mul_right hreach)
  rw [writeenv] at hwrite
  dsimp only at hwrite
  rw [show offset + site.envRange = offset + last + (site.envRange - last) by omega] at hwrite
  rw [hlast, show offset + site.envRange = offset + last + (site.envRange - last) by omega, hwrite,
    Nat.zero_add, List.getD_eq_getElem _ _ (by rw [List.length_replicate]; omega),
    List.getElem_replicate] at hblock
  exact absurd hblock (by decide)

/-- Environments that fill a block, of which the first is bad. -/
def skipConfig : EnvConfig where
  envSize := 0x4000
  redund := false
  defaultVars := []

def skipSite (envRange : Nat) (h : 0 < envRange) : NandSite where
  erasesize := 0x4000
  bad offset := offset = 0
  envOffset := 0
  envOffsetRedund := 0x40000
  envRange
  erasesize_pos := by decide
  range_pos := h

end Range

end Uboot.Common
