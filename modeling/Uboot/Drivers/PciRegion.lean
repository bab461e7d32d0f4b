/-
  Uboot.Drivers.PciRegion

  One region and the calls that take ranges from it: `pciauto_region_allocate` of
  `drivers/pci/pci_auto.c` as its callers see it, with `*bar` and the return value.

  The test for room is made on 32-bit sums.  Two of them wrap: a region that starts at 0 and a
  range that ends at the end of the address space, where the sum is 0; and an address rounded up
  to the end of the address space, where it is 0 itself.  The first is outside every region; the
  second is the address the allocator is to avoid.
-/

import Uboot.Drivers.PciEnumerate
import Uboot.Lib.Extent
import Uboot.Lib.Run

namespace Uboot.Drivers.PciRegion

open Uboot.Lib Uboot.Drivers.PciAuto

-- ============================================================================
-- Calls
-- ============================================================================

/-- The region behind the call, `*bar` and the return value. -/
def regionAllocate (res : PciRegion) (size : Nat) : PciRegion × Nat × Int :=
  match pciautoRegionAllocate (some res) size with
  | none => (res, 0xffffffff, -1)
  | some (addr, res) => (res, addr, 0)

/-- A region and the ranges that were given away, in order. -/
structure Served where
  res : PciRegion
  ranges : List Extent

def Served.init (res : PciRegion) : Served := ⟨pciautoRegionInit res, []⟩

/-- A request for `2 ^ k` bytes. -/
def serve (s : Served) (k : Fin 32) : Served :=
  let (res, bar, ret) := regionAllocate s.res (2 ^ k.val)
  ⟨res, if ret = 0 then s.ranges ++ [⟨bar, 2 ^ k.val⟩] else s.ranges⟩

/-- The fields of a region in 32 bits; it may end where the address space does. -/
structure InBus (res : PciRegion) : Prop where
  start : res.busStart < 4294967296
  size : res.size < 4294967296
  stop : res.busEnd ≤ 4294967296

/-- The pointer, which is 0 when all is given away up to the end of the address space. -/
def lower (res : PciRegion) : Nat := if res.busLower = 0 then 4294967296 else res.busLower

/-- A sum wraps and passes the test. -/
def Wraps (res : PciRegion) (k : Fin 32) : Prop :=
  (res.busStart = 0 ∧ alignUp (lower res) (2 ^ k.val) + 2 ^ k.val = 4294967296) ∨
    (alignUp (lower res) (2 ^ k.val) = 4294967296 ∧ res.busStart ≤ 2 ^ k.val ∧ 2 ^ k.val ≤ res.busEnd)

instance (res : PciRegion) (k : Fin 32) : Decidable (Wraps res k) := inferInstanceAs (Decidable (_ ∨ _))

-- ============================================================================
-- One call
-- ============================================================================

section Call

variable {res : PciRegion} {k : Fin 32}

/-- A failed call leaves the region as it was. -/
theorem regionAllocate_fail (size : Nat) (h : (regionAllocate res size).2.2 ≠ 0) : (regionAllocate res size).1 = res := by
  unfold regionAllocate at h ⊢
  split
  · rfl
  · rename_i heq
    rw [heq] at h
    exact absurd rfl h

theorem two_pow_lt (k : Fin 32) : 2 ^ k.val < 4294967296 := Nat.pow_lt_pow_right (by omega) k.isLt

theorem lower_pos (res : PciRegion) : 0 < lower res := by
  rw [lower]
  split <;> omega

theorem lower_le (h : res.busLower < 4294967296) : lower res ≤ 4294967296 := by
  rw [lower]
  split <;> omega

theorem u32_lower (h : res.busLower < 4294967296) : u32 (lower res) = res.busLower := by
  rw [lower]
  split
  · simp only [u32]
    omega
  · exact u32_of_lt h

/-- Behind a pointer up to the end of the address space. -/
theorem lower_u32 {x : Nat} (hpos : 0 < x) (htop : x ≤ 4294967296) : lower { res with busLower := u32 x } = x := by
  rcases Nat.lt_or_eq_of_le htop with hlt | rfl
  · rw [u32_of_lt hlt]
    exact if_neg (Nat.ne_of_gt hpos)
  · rfl

/-- A range rounded up is below the end of the address space or starts there. -/
theorem alignUp_top (h : res.busLower < 4294967296) (k : Fin 32) :
    alignUp (lower res) (2 ^ k.val) = 4294967296 ∨ alignUp (lower res) (2 ^ k.val) + 2 ^ k.val ≤ 4294967296 := by
  have hle : alignUp (lower res) (2 ^ k.val) ≤ 4294967296 := alignUp_le_top (by omega) (lower_le h)
  obtain ⟨m, hm⟩ : 2 ^ k.val ∣ alignUp (lower res) (2 ^ k.val) := dvd_alignUp
  obtain ⟨n, hn⟩ : 2 ^ k.val ∣ 4294967296 := two_pow_dvd_top (by omega)
  rw [hm, hn] at hle ⊢
  rcases Nat.lt_or_eq_of_le (Nat.le_of_mul_le_mul_left hle (Nat.two_pow_pos _)) with hlt | rfl
  · right
    rw [← Nat.mul_succ]
    exact Nat.mul_le_mul_left _ hlt
  · exact .inl rfl

theorem regionAllocate_eq (hlt : res.busLower < 4294967296) (hstart : res.busStart ≤ lower res) (k : Fin 32) :
    regionAllocate res (2 ^ k.val) =
      if u32 (alignUp (lower res) (2 ^ k.val) + 2 ^ k.val - res.busStart) ≤ res.size then
        ({ res with busLower := u32 (alignUp (lower res) (2 ^ k.val) + 2 ^ k.val) },
          u32 (alignUp (lower res) (2 ^ k.val)), 0)
      else (res, 0xffffffff, -1) := by
  have heq := allocate_eq (lower_pos res) (lower_le hlt) hstart (k := k.val) (by omega)
  rw [u32_lower hlt] at heq
  by_cases hfit : u32 (alignUp (lower res) (2 ^ k.val) + 2 ^ k.val - res.busStart) ≤ res.size
  · rw [if_pos hfit] at heq ⊢
    rw [regionAllocate, heq]
  · rw [if_neg hfit] at heq ⊢
    rw [regionAllocate, heq]

/-- A call that does not wrap gives the next multiple, when the range from there on fits. -/
theorem regionAllocate_of_not_wraps (hbus : InBus res) (hlt : res.busLower < 4294967296) (hstart : res.busStart ≤ lower res)
    (hwraps : ¬ Wraps res k) :
    regionAllocate res (2 ^ k.val) =
      if alignUp (lower res) (2 ^ k.val) + 2 ^ k.val ≤ res.busEnd then
        ({ res with busLower := u32 (alignUp (lower res) (2 ^ k.val) + 2 ^ k.val) }, alignUp (lower res) (2 ^ k.val), 0)
      else (res, 0xffffffff, -1) := by
  have hpow := Nat.two_pow_pos k.val
  have hpow32 := two_pow_lt k
  have hup : lower res ≤ alignUp (lower res) (2 ^ k.val) := le_alignUp hpow
  have hstop := hbus.stop
  have hsize := hbus.size
  simp only [Wraps, not_or, not_and] at hwraps
  have hiff : u32 (alignUp (lower res) (2 ^ k.val) + 2 ^ k.val - res.busStart) ≤ res.size ↔
      alignUp (lower res) (2 ^ k.val) + 2 ^ k.val ≤ res.busEnd := by
    simp only [PciRegion.busEnd] at hstop hwraps ⊢
    simp only [u32]
    rcases alignUp_top hlt k with htop | hbelow
    · have hroom := hwraps.2 htop
      rcases Nat.lt_or_ge (2 ^ k.val) res.busStart with hsmall | hlarge
      · omega
      · have hover := hroom hlarge
        omega
    · rcases Nat.eq_zero_or_pos res.busStart with hzero | hpos
      · have hnotop := hwraps.1 hzero
        omega
      · omega
  rw [regionAllocate_eq hlt hstart]
  by_cases hfit : alignUp (lower res) (2 ^ k.val) + 2 ^ k.val ≤ res.busEnd
  · rw [if_pos (hiff.2 hfit), if_pos hfit, u32_of_lt (x := alignUp (lower res) (2 ^ k.val)) (by omega)]
  · rw [if_neg (mt hiff.1 hfit), if_neg hfit]

/-- One that wraps succeeds, behind the region or at address 0. -/
theorem regionAllocate_of_wraps (hbus : InBus res) (hlt : res.busLower < 4294967296) (hstart : res.busStart ≤ lower res)
    (hwraps : Wraps res k) :
    (regionAllocate res (2 ^ k.val)).2.2 = 0 ∧
      (res.busEnd < (regionAllocate res (2 ^ k.val)).2.1 + 2 ^ k.val ∨ (regionAllocate res (2 ^ k.val)).2.1 = 0) := by
  have hpow := Nat.two_pow_pos k.val
  have hpow32 := two_pow_lt k
  have hsize := hbus.size
  rw [regionAllocate_eq hlt hstart]
  rcases hwraps with ⟨hzero, hend⟩ | ⟨htop, hle, hroom⟩
  · have hsum : alignUp (lower res) (2 ^ k.val) + 2 ^ k.val - res.busStart = 4294967296 := by omega
    have haddr : u32 (alignUp (lower res) (2 ^ k.val)) = alignUp (lower res) (2 ^ k.val) := u32_of_lt (by omega)
    rw [if_pos (by rw [hsum]; exact Nat.zero_le _), haddr]
    exact ⟨rfl, .inl (by simp only [PciRegion.busEnd]; omega)⟩
  · have hsum : u32 (alignUp (lower res) (2 ^ k.val) + 2 ^ k.val - res.busStart) = 2 ^ k.val - res.busStart := by
      simp only [u32]
      omega
    simp only [PciRegion.busEnd] at hroom
    rw [if_pos (by omega), htop]
    exact ⟨rfl, .inr rfl⟩

end Call

-- ============================================================================
-- Runs
-- ============================================================================

/-- What holds of the region `res` after some requests: the ranges given away are in order, inside
    the region and below the pointer. -/
structure Sound (res : PciRegion) (s : Served) : Prop where
  region : s.res = { res with busLower := s.res.busLower }
  lower_lt : s.res.busLower < 4294967296
  start_le : res.busStart ≤ lower s.res
  dvd : ∀ e ∈ s.ranges, e.len ∣ e.start
  inside : ∀ e ∈ s.ranges, res.busStart ≤ e.start ∧ e.stop ≤ res.busEnd
  below : ∀ e ∈ s.ranges, e.stop ≤ lower s.res
  ordered : s.ranges.Pairwise Extent.Before

section Runs

variable {res : PciRegion} {s : Served} {k : Fin 32}

theorem sound_init (hbus : InBus res) : Sound res (.init res) where
  region := rfl
  lower_lt := by
    have hstart := hbus.start
    simp only [Served.init, pciautoRegionInit]
    split <;> omega
  start_le := by
    have hstart := hbus.start
    simp only [Served.init, pciautoRegionInit, lower]
    by_cases hzero : res.busStart = 0
    · simp only [hzero, Nat.zero_le]
    · simp only [if_neg hzero, Nat.le_refl]
  dvd := by rintro e ⟨⟩
  inside := by rintro e ⟨⟩
  below := by rintro e ⟨⟩
  ordered := .nil

theorem Sound.start_eq (h : Sound res s) : s.res.busStart = res.busStart := by rw [h.region]

theorem Sound.end_eq (h : Sound res s) : s.res.busEnd = res.busEnd := by rw [h.region]; rfl

theorem Sound.inBus (h : Sound res s) (hbus : InBus res) : InBus s.res := by
  obtain ⟨hstart, hsize, hstop⟩ := hbus
  rw [h.region]
  exact ⟨hstart, hsize, hstop⟩

/-- A range behind the pointer and up to the end of the region. -/
theorem Sound.give (hbus : InBus res) (h : Sound res s) {a n : Nat} (hn : 0 < n) (hdvd : n ∣ a) (hlower : lower s.res ≤ a)
    (hend : a + n ≤ res.busEnd) : Sound res ⟨{ s.res with busLower := u32 (a + n) }, s.ranges ++ [⟨a, n⟩]⟩ := by
  have hstart := h.start_le
  have hlimit := hbus.stop
  have hnext : lower { s.res with busLower := u32 (a + n) } = a + n := lower_u32 (by omega) (by omega)
  constructor
  case region => rw [h.region]
  case lower_lt => exact u32_lt _
  case start_le =>
    rw [hnext]
    omega
  case dvd => exact List.forall_mem_append.2 ⟨h.dvd, List.forall_mem_singleton.2 hdvd⟩
  case inside => exact List.forall_mem_append.2 ⟨h.inside, List.forall_mem_singleton.2 ⟨hstart.trans hlower, hend⟩⟩
  case below =>
    rw [hnext]
    rw [List.forall_mem_append]
    constructor
    · intro e he
      exact (h.below e he).trans (by omega)
    · exact List.forall_mem_singleton.2 (Nat.le_refl _)
  case ordered =>
    apply List.pairwise_append.2
    refine ⟨h.ordered, List.pairwise_singleton _ _, ?_⟩
    intro e he e' he'
    obtain rfl := List.mem_singleton.1 he'
    exact (h.below e he).trans hlower

theorem Sound.serve (hbus : InBus res) (h : Sound res s) (hwraps : ¬ Wraps s.res k) : Sound res (serve s k) := by
  have hstep := regionAllocate_of_not_wraps (h.inBus hbus) h.lower_lt (h.start_eq ▸ h.start_le) hwraps
  rw [h.end_eq] at hstep
  rw [PciRegion.serve, hstep]
  by_cases hfit : alignUp (lower s.res) (2 ^ k.val) + 2 ^ k.val ≤ res.busEnd
  · rw [if_pos hfit]
    exact h.give hbus (Nat.two_pow_pos k.val) dvd_alignUp (le_alignUp (Nat.two_pow_pos k.val)) hfit
  · rw [if_neg hfit]
    exact h

/-- The requests of a run are such that no sum wraps. -/
def NoWrap (res : PciRegion) (ks : List (Fin 32)) : Prop :=
  Guarded PciRegion.serve (fun s k => ¬ Wraps s.res k) (.init res) ks

theorem sound_run (hbus : InBus res) {ks : List (Fin 32)} (hks : NoWrap res ks) : Sound res (run PciRegion.serve (.init res) ks) :=
  run_invariant (fun _ _ h hwraps => h.serve hbus hwraps) (sound_init hbus) hks

/-- **The allocator where no sum wraps.**  Every range given away is aligned and inside the region,
    no two of them meet, and a call that fails leaves the region as it was.  A request whose sum does
    wrap succeeds, behind the region or at address 0. -/
theorem allocate_run (res : PciRegion) (ks : List (Fin 32)) (hbus : InBus res) (hks : NoWrap res ks) :
    let s := run PciRegion.serve (.init res) ks
    (∀ e ∈ s.ranges, e.len ∣ e.start ∧ e.cells ⊆ (Extent.mk res.busStart res.size).cells) ∧
      s.ranges.Pairwise (fun e e' => Disjoint e.cells e'.cells) ∧
      (∀ size, (regionAllocate s.res size).2.2 ≠ 0 → (regionAllocate s.res size).1 = s.res) ∧
      ∀ k, Wraps s.res k → (regionAllocate s.res (2 ^ k.val)).2.2 = 0 ∧
        (res.busEnd < (regionAllocate s.res (2 ^ k.val)).2.1 + 2 ^ k.val ∨
          (regionAllocate s.res (2 ^ k.val)).2.1 = 0) := by
  intro s
  have h : Sound res s := sound_run hbus hks
  refine ⟨?_, ?_, fun size => regionAllocate_fail size, ?_⟩
  · intro e he
    exact ⟨h.dvd e he, Extent.cells_subset_iff.2 (.inr (h.inside e he))⟩
  · exact h.ordered.imp fun hbefore => hbefore.disjoint
  · intro k hwraps
    have hfound := regionAllocate_of_wraps (h.inBus hbus) h.lower_lt (h.start_eq ▸ h.start_le) hwraps
    rwa [h.end_eq] at hfound

/-- Two requests of 16 bytes and 4 KB in the last 64 KB of the address space. -/
theorem allocate_run_top :
    let res : PciRegion := ⟨0xffff0000, 0x10000, 0, 0⟩
    InBus res ∧ NoWrap res [4, 12] ∧ (run PciRegion.serve (.init res) [4, 12]).ranges.Pairwise
      (fun e e' => Disjoint e.cells e'.cells) :=
  have hbus : InBus ⟨0xffff0000, 0x10000, 0, 0⟩ := ⟨by decide, by decide, by decide⟩
  have hks : NoWrap ⟨0xffff0000, 0x10000, 0, 0⟩ [4, 12] := by
    rw [NoWrap]
    decide
  ⟨hbus, hks, (allocate_run ⟨0xffff0000, 0x10000, 0, 0⟩ [4, 12] hbus hks).2.1⟩

/-- The upper half of the address space, filled by one request; the next one of the same
    size is given the lower half. -/
theorem upper_half_given_twice :
    let res : PciRegion := ⟨0x80000000, 0x80000000, 0, 0⟩
    InBus res ∧ ¬ ∀ e ∈ (run PciRegion.serve (.init res) [31, 31]).ranges,
      e.len ∣ e.start ∧ e.cells ⊆ (Extent.mk res.busStart res.size).cells := by
  refine ⟨⟨by decide, by decide, by decide⟩, fun hall => ?_⟩
  have hmem : Extent.mk 0 0x80000000 ∈ (run PciRegion.serve (.init ⟨0x80000000, 0x80000000, 0, 0⟩) [31, 31]).ranges := by
    decide
  have hin := Extent.cells_subset_iff.1 (hall _ hmem).2
  dsimp only at hin
  omega

end Runs

end Uboot.Drivers.PciRegion
