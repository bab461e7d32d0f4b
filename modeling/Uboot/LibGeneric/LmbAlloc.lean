/-
  Uboot.LibGeneric.LmbAlloc

  What `lmb_alloc_base` returns, for any tables.

  The search goes down from the end of each memory region, so where no sum and no
  difference wraps it ends at the highest aligned place that is free for `size` bytes
  (`findPlace_top`).  The block it then records is longer, by what the size is rounded
  up to the alignment, and these bytes the search has not looked at
  (`allocOk_iff_roundingClear`).
-/

import Uboot.LibGeneric.LmbInvariant
import Mathlib.Data.Nat.Bitwise

namespace Uboot.LibGeneric

open Uboot.Lib

-- ============================================================================
-- Alignment
-- ============================================================================

section Align

variable {addr size align k : Nat}

/-- Rounding down to a power of two. -/
theorem lmbAlignDown_two_pow (hk : k < 32) (haddr : addr < 4294967296) :
    lmbAlignDown addr (2 ^ k) = addr / 2 ^ k * 2 ^ k := by
  have hpow : 2 ^ k ≤ 2 ^ 31 := Nat.pow_le_pow_right (by omega) (by omega)
  have hpos : 0 < 2 ^ k := Nat.two_pow_pos k
  have hmask : alignMask (2 ^ k) = (2 ^ (32 - k) - 1) * 2 ^ k := by
    have hsplit : 2 ^ (32 - k) * 2 ^ k = 4294967296 := by
      rw [← Nat.pow_add, Nat.sub_add_cancel (by omega)]
    rw [alignMask, usub_of_le (by omega) (by omega), Nat.sub_mul, hsplit]
    omega
  rw [lmbAlignDown, hmask, ← Nat.shiftLeft_eq, ← Nat.shiftLeft_eq]
  refine Nat.eq_of_testBit_eq fun i => ?_
  rw [Nat.testBit_and, Nat.testBit_shiftLeft, Nat.testBit_shiftLeft, Nat.testBit_two_pow_sub_one,
    ← Nat.shiftRight_eq_div_pow, Nat.testBit_shiftRight]
  by_cases hi : k ≤ i
  · rw [Nat.add_sub_cancel' hi]
    by_cases hlt : i < 32
    · have hin : i - k < 32 - k := by omega
      simp [hi, hin]
    · have hzero : addr.testBit i = false :=
        Nat.testBit_lt_two_pow (Nat.lt_of_lt_of_le haddr (Nat.pow_le_pow_right (n := 2) (by omega)
          (show 32 ≤ i by omega)))
      simp [hzero]
  · simp [hi]

/-- A multiple of the alignment below an address is below the address rounded down. -/
theorem le_lmbAlignDown {b : Nat} (hk : k < 32) (haddr : addr < 4294967296) (hb : 2 ^ k ∣ b)
    (hle : b ≤ addr) : b ≤ lmbAlignDown addr (2 ^ k) := by
  obtain ⟨q, rfl⟩ := hb
  rw [lmbAlignDown_two_pow hk haddr, Nat.mul_comm]
  refine Nat.mul_le_mul_right _ ?_
  rw [Nat.le_div_iff_mul_le (Nat.two_pow_pos k), Nat.mul_comm]
  exact hle

theorem dvd_lmbAlignDown (hk : k < 32) (haddr : addr < 4294967296) :
    2 ^ k ∣ lmbAlignDown addr (2 ^ k) := by
  rw [lmbAlignDown_two_pow hk haddr]
  exact Nat.dvd_mul_left ..

end Align

-- ============================================================================
-- Places
-- ============================================================================

/-- `b` is a place in the memory region `p` that the limit allows: aligned, not 0, and free
    for `size` bytes. -/
structure LmbRegion.IsPlace (reserved : LmbRegion) (p : LmbProperty) (size align maxAddr b : Nat) :
    Prop where
  ne_zero : b ≠ 0
  aligned : align ∣ b
  low : p.base ≤ b
  high : b + size ≤ p.base + p.size
  limit : maxAddr = 0 ∨ b + size ≤ maxAddr
  clear : reserved.Clear b size

/-- The highest place in the last memory region that has one. -/
def Lmb.TopPlace (l : Lmb) (size align maxAddr b : Nat) : Prop :=
  ∃ i < l.memory.cnt, l.reserved.IsPlace (l.memory.region i) size align maxAddr b ∧
    ∀ j < l.memory.cnt, ∀ c, l.reserved.IsPlace (l.memory.region j) size align maxAddr c →
      j < i ∨ j = i ∧ c ≤ b

/-- No sum and no difference of the search wraps: no region reaches the end of the address
    space, and a limit that bears on a region is not below the size. -/
structure Lmb.NoWrap (l : Lmb) (size maxAddr : Nat) : Prop where
  memory : ∀ i < l.memory.cnt,
    (l.memory.region i).base + (l.memory.region i).size < 4294967296
  reserved : ∀ i < l.reserved.cnt,
    (l.reserved.region i).base + (l.reserved.region i).size < 4294967296
  limit : ∀ i < l.memory.cnt, size ≤ (l.memory.region i).size →
    (l.memory.region i).base < maxAddr → size ≤ maxAddr

/-- What a caller relies on. -/
structure AllocOk (l : Lmb) (size align maxAddr : Nat) : Prop where
  aligned : (lmbAllocBase l size align maxAddr).1 ≠ 0 →
    align ∣ (lmbAllocBase l size align maxAddr).1
  inside : (lmbAllocBase l size align maxAddr).1 ≠ 0 → ∃ i < l.memory.cnt,
    (l.memory.region i).base ≤ (lmbAllocBase l size align maxAddr).1 ∧
      (lmbAllocBase l size align maxAddr).1 + size ≤
        (l.memory.region i).base + (l.memory.region i).size
  limit : (lmbAllocBase l size align maxAddr).1 ≠ 0 → maxAddr ≠ 0 →
    (lmbAllocBase l size align maxAddr).1 + size ≤ maxAddr
  /-- The block that is recorded meets no region recorded before. -/
  fresh : (lmbAllocBase l size align maxAddr).1 ≠ 0 → ∀ j < l.reserved.cnt,
    Disjoint (⟨(lmbAllocBase l size align maxAddr).1, lmbAlignUp size align⟩ : Extent).cells
      (l.reserved.extents j).cells
  unchanged : (lmbAllocBase l size align maxAddr).1 = 0 →
    (lmbAllocBase l size align maxAddr).2.reserved = l.reserved

-- ============================================================================
-- The search
-- ============================================================================

section Search

variable {r : LmbRegion} {p : LmbProperty} {l : Lmb} {base size maxAddr k : Nat}

/-- Where nothing wraps, the overlap test is exact. -/
theorem lmbOverlapsRegion_eq_none
    (hr : ∀ i < r.cnt, (r.region i).base + (r.region i).size < 4294967296)
    (hb : base + size < 4294967296) : lmbOverlapsRegion r base size = none ↔ r.Clear base size := by
  rw [lmbOverlapsRegion, List.find?_eq_none]
  refine ⟨fun h i hi => ?_, fun h i hi => ?_⟩
  · have hno := h i (List.mem_range.mpr hi)
    simp only [lmbAddrsOverlap, Bool.and_eq_true, decide_eq_true_eq, u32_of_lt hb,
      u32_of_lt (hr i hi)] at hno
    omega
  · have hcl := h i (List.mem_range.mp hi)
    simp only [lmbAddrsOverlap, Bool.and_eq_true, decide_eq_true_eq, u32_of_lt hb,
      u32_of_lt (hr i (List.mem_range.mp hi))]
    omega

/-- Below the overlapped region is where a place can still be. -/
theorem le_of_overlap {j b : Nat}
    (hr : ∀ i < r.cnt, (r.region i).base + (r.region i).size < 4294967296)
    (hj : lmbOverlapsRegion r base size = some j) (hclear : r.Clear b size) (hle : b ≤ base) :
    b + size ≤ (r.region j).base := by
  rw [lmbOverlapsRegion, List.find?_range_eq_some] at hj
  obtain ⟨htest, hmem, -⟩ := hj
  have hjlt := List.mem_range.mp hmem
  simp only [lmbAddrsOverlap, Bool.and_eq_true, decide_eq_true_eq, u32_of_lt (hr j hjlt)] at htest
  have hcl := hclear j hjlt
  omega

/-- **The inner loop** finds the highest place up to the first candidate. -/
theorem placeLoop_top {fuel : Nat} (hk : k < 32)
    (hr : ∀ i < r.cnt, (r.region i).base + (r.region i).size < 4294967296)
    (hbound : p.base + p.size < 4294967296) (hfuel : base < fuel) (hdvd : 2 ^ k ∣ base)
    (hhigh : base + size ≤ p.base + p.size) (hlimit : maxAddr = 0 ∨ base + size ≤ maxAddr) :
    (∀ place ∈ placeLoop r p.base size (2 ^ k) fuel base,
        r.IsPlace p size (2 ^ k) maxAddr place) ∧
      ∀ b, r.IsPlace p size (2 ^ k) maxAddr b → b ≤ base →
        ∃ place ∈ placeLoop r p.base size (2 ^ k) fuel base, b ≤ place := by
  induction fuel generalizing base with
  | zero => omega
  | succ fuel ih =>
    rw [placeLoop]
    by_cases hin : base ≠ 0 ∧ p.base ≤ base
    · rw [if_pos hin]
      cases hj : lmbOverlapsRegion r base size with
      | none =>
        have hclear := (lmbOverlapsRegion_eq_none hr (by omega)).mp hj
        refine ⟨?_, fun b _ hle => ⟨base, rfl, hle⟩⟩
        intro place hplace
        obtain rfl := Option.some.inj hplace
        exact ⟨hin.1, hdvd, hin.2, hhigh, hlimit, hclear⟩
      | some j =>
        dsimp only
        by_cases hlt : (r.region j).base < size
        · rw [if_pos hlt]
          refine ⟨fun _ h => absurd h (Option.not_mem_none _), fun b hb hle => ?_⟩
          have := le_of_overlap hr hj hb.clear hle
          omega
        · rw [if_neg hlt]
          obtain ⟨hroom, hless⟩ := @next_candidate_lt base size r j (2 ^ k) hj hlt
          have hsome := lmbOverlapsRegion_some hj
          have hu : u32 (base + size) ≤ base + size := Nat.mod_le ..
          have hsub : usub (r.region j).base size = (r.region j).base - size :=
            usub_of_le (by omega) (by omega)
          obtain ⟨hfound, htop⟩ := @ih (lmbAlignDown (usub (r.region j).base size) (2 ^ k)) (by omega)
            (dvd_lmbAlignDown hk (by omega)) (by omega) (by omega)
          refine ⟨hfound, fun b hb hle => htop b hb ?_⟩
          have hbelow := le_of_overlap hr hj hb.clear hle
          exact le_lmbAlignDown hk (by omega) hb.aligned (by omega)
    · rw [if_neg hin]
      refine ⟨fun _ h => absurd h (Option.not_mem_none _), fun b hb hle => ?_⟩
      have hne := hb.ne_zero
      have hlow := hb.low
      omega

/-- The first candidate is the highest address there can be a place at. -/
theorem firstCandidate_top (hk : k < 32) (hbound : p.base + p.size < 4294967296)
    (hmax : size ≤ p.size → p.base < maxAddr → size ≤ maxAddr) :
    (∀ c ∈ firstCandidate p size (2 ^ k) maxAddr, 2 ^ k ∣ c ∧ c + size ≤ p.base + p.size ∧
        (maxAddr = 0 ∨ c + size ≤ maxAddr)) ∧
      ∀ b, r.IsPlace p size (2 ^ k) maxAddr b → 0 < size →
        ∃ c ∈ firstCandidate p size (2 ^ k) maxAddr, b ≤ c := by
  rw [firstCandidate, u32_of_lt hbound]
  by_cases hsmall : p.size < size
  · rw [if_pos hsmall]
    refine ⟨fun _ h => absurd h (Option.not_mem_none _), fun b hb _ => ?_⟩
    have hlow := hb.low
    have hhigh := hb.high
    omega
  rw [if_neg hsmall]
  by_cases hany : maxAddr = 0
  · rw [if_pos hany]
    have hsub : usub (p.base + p.size) size = p.base + p.size - size :=
      usub_of_le (by omega) hbound
    have hdown := lmbAlignDown_le (p.base + p.size - size) (2 ^ k)
    rw [hsub]
    refine ⟨?_, fun b hb _ => ⟨_, rfl, ?_⟩⟩
    · intro c hc
      obtain rfl := Option.some.inj hc
      exact ⟨dvd_lmbAlignDown hk (by omega), by omega, .inl hany⟩
    · have hhigh := hb.high
      exact le_lmbAlignDown hk (by omega) hb.aligned (by omega)
  rw [if_neg hany]
  by_cases hbelow : p.base < maxAddr
  · rw [if_pos hbelow]
    have hle := hmax (by omega) hbelow
    have hsub : usub (min (p.base + p.size) maxAddr) size = min (p.base + p.size) maxAddr - size :=
      usub_of_le (by omega) (by omega)
    have hdown := lmbAlignDown_le (min (p.base + p.size) maxAddr - size) (2 ^ k)
    rw [hsub]
    refine ⟨?_, fun b hb _ => ⟨_, rfl, ?_⟩⟩
    · intro c hc
      obtain rfl := Option.some.inj hc
      exact ⟨dvd_lmbAlignDown hk (by omega), by omega, .inr (by omega)⟩
    · have hhigh := hb.high
      have hlimit := hb.limit
      exact le_lmbAlignDown hk (by omega) hb.aligned (by omega)
  · rw [if_neg hbelow]
    refine ⟨fun _ h => absurd h (Option.not_mem_none _), fun b hb hsize => ?_⟩
    have hlow := hb.low
    have hlimit := hb.limit
    omega

/-- **The search** ends at the highest place of the last region that has one. -/
theorem findPlace_top {n : Nat} (hk : k < 32) (hsize : 0 < size) (hw : l.NoWrap size maxAddr)
    (hn : n ≤ l.memory.cnt) :
    (∀ place ∈ findPlace l size (2 ^ k) maxAddr n, ∃ i < n,
        l.reserved.IsPlace (l.memory.region i) size (2 ^ k) maxAddr place ∧
          ∀ j < n, ∀ c, l.reserved.IsPlace (l.memory.region j) size (2 ^ k) maxAddr c →
            j < i ∨ j = i ∧ c ≤ place) ∧
      (findPlace l size (2 ^ k) maxAddr n = none →
        ∀ j < n, ∀ c, ¬ l.reserved.IsPlace (l.memory.region j) size (2 ^ k) maxAddr c) := by
  induction n with
  | zero => exact ⟨fun _ h => absurd h (Option.not_mem_none _), fun _ j hj => absurd hj (Nat.not_lt_zero j)⟩
  | succ n ih =>
    obtain ⟨hsome, hnone⟩ := ih (by omega)
    have hbound := hw.memory n (by omega)
    obtain ⟨hcand, hcandTop⟩ := @firstCandidate_top l.reserved (l.memory.region n) size maxAddr k hk
      hbound (hw.limit n (by omega))
    -- what is found below region `n` is found if region `n` has no place
    have hbelow (hno : ∀ c, ¬ l.reserved.IsPlace (l.memory.region n) size (2 ^ k) maxAddr c) :
        (∀ place ∈ findPlace l size (2 ^ k) maxAddr n, ∃ i < n + 1,
          l.reserved.IsPlace (l.memory.region i) size (2 ^ k) maxAddr place ∧
            ∀ j < n + 1, ∀ c, l.reserved.IsPlace (l.memory.region j) size (2 ^ k) maxAddr c →
              j < i ∨ j = i ∧ c ≤ place) ∧
        (findPlace l size (2 ^ k) maxAddr n = none →
          ∀ j < n + 1, ∀ c, ¬ l.reserved.IsPlace (l.memory.region j) size (2 ^ k) maxAddr c) := by
      refine ⟨fun place hp => ?_, fun hfail j hj c hc => ?_⟩
      · obtain ⟨i, hi, hplace, hmax⟩ := hsome place hp
        refine ⟨i, by omega, hplace, fun j hj c hc => ?_⟩
        rcases Nat.lt_succ_iff_lt_or_eq.mp hj with hj | rfl
        · exact hmax j hj c hc
        · exact absurd hc (hno c)
      · rcases Nat.lt_succ_iff_lt_or_eq.mp hj with hj | rfl
        · exact hnone hfail j hj c hc
        · exact hno c hc
    rw [findPlace]
    cases hc : firstCandidate (l.memory.region n) size (2 ^ k) maxAddr with
    | none =>
      refine hbelow fun c hplace => ?_
      obtain ⟨first, hfirst, -⟩ := hcandTop c hplace hsize
      rw [hc] at hfirst
      cases hfirst
    | some base =>
      obtain ⟨hdvd, hhigh, hlimit⟩ := hcand base (by rw [hc]; rfl)
      obtain ⟨hfound, hloopTop⟩ := @placeLoop_top l.reserved (l.memory.region n) base size maxAddr k
        (base + 1) hk hw.reserved hbound (by omega) hdvd hhigh hlimit
      have hle : ∀ c, l.reserved.IsPlace (l.memory.region n) size (2 ^ k) maxAddr c → c ≤ base := by
        intro c hplace
        obtain ⟨first, hfirst, hcle⟩ := hcandTop c hplace hsize
        rw [hc] at hfirst
        exact Option.some.inj hfirst ▸ hcle
      dsimp only
      cases hloop : placeLoop l.reserved (l.memory.region n).base size (2 ^ k) (base + 1) base with
      | none =>
        refine hbelow fun c hplace => ?_
        obtain ⟨place, hp, -⟩ := hloopTop c hplace (hle c hplace)
        rw [hloop] at hp
        cases hp
      | some place =>
        refine ⟨fun q hq => ?_, fun h => absurd h (Option.some_ne_none _)⟩
        obtain rfl := Option.some.inj hq
        refine ⟨n, by omega, hfound place (by rw [hloop]; rfl), fun j hj c hc' => ?_⟩
        rcases Nat.lt_succ_iff_lt_or_eq.mp hj with hj | rfl
        · exact .inl hj
        · obtain ⟨q, hq', hle'⟩ := hloopTop c hc' (hle c hc')
          rw [hloop] at hq'
          exact .inr ⟨rfl, Option.some.inj hq' ▸ hle'⟩

/-- The place that is found is the top place. -/
theorem findPlace_eq_some {b : Nat} (hk : k < 32) (hsize : 0 < size) (hw : l.NoWrap size maxAddr) :
    findPlace l size (2 ^ k) maxAddr l.memory.cnt = some b ↔ l.TopPlace size (2 ^ k) maxAddr b := by
  obtain ⟨hsome, hnone⟩ := findPlace_top hk hsize hw (Nat.le_refl l.memory.cnt)
  refine ⟨fun hb => hsome b hb, fun ⟨i, hi, hplace, hmax⟩ => ?_⟩
  cases hfound : findPlace l size (2 ^ k) maxAddr l.memory.cnt with
  | none => exact absurd hplace (hnone hfound i hi b)
  | some q =>
    obtain ⟨j, hj, hplace', hmax'⟩ := hsome q hfound
    have habove := hmax' i hi b hplace
    have hbelow := hmax j hj q hplace'
    have hqb : q = b := by omega
    rw [hqb]

end Search

-- ============================================================================
-- The allocation
-- ============================================================================

section Alloc

variable {l : Lmb} {size maxAddr k : Nat}

theorem lmbAllocBase_of_none {align : Nat}
    (h : findPlace l size align maxAddr l.memory.cnt = none) :
    lmbAllocBase l size align maxAddr = (0, l) := by
  rw [lmbAllocBase, h]

theorem lmbAllocBase_of_some {align b : Nat}
    (h : findPlace l size align maxAddr l.memory.cnt = some b) :
    lmbAllocBase l size align maxAddr =
      (if (lmbAddRegion l.reserved b (lmbAlignUp size align)).1 < 0 then 0 else b,
        { l with reserved := (lmbAddRegion l.reserved b (lmbAlignUp size align)).2 }) := by
  rw [lmbAllocBase, h]

/-- A region is recorded, or the table is full and left as it is. -/
theorem lmbAddRegion_cases (t : LmbRegion) (base size : Nat) :
    0 ≤ (lmbAddRegion t base size).1 ∨ lmbAddRegion t base size = (-1, t) ∧
      findAdjacent t base size = none ∧ maxLmbRegions ≤ t.cnt := by
  have hnonneg (n : Nat) (t' : LmbRegion) : 0 ≤ ((n : Int), t').1 := Int.natCast_nonneg n
  rw [lmbAddRegion]
  split
  · exact .inl (hnonneg 0 _)
  · cases findAdjacent t base size with
    | some i =>
      dsimp only
      split
      · exact .inl (hnonneg 0 _)
      · split
        · exact .inl (hnonneg 2 _)
        · exact .inl (hnonneg 1 _)
    | none =>
      dsimp only
      split
      · exact .inl (hnonneg 1 _)
      · split
        · next hfull => exact .inr ⟨rfl, rfl, hfull⟩
        · exact .inl (hnonneg 0 _)

/-- **What an allocation owes its caller**, where nothing wraps: it is kept just when no
    region is recorded already among the bytes that the size is rounded up by, behind
    the highest place in the last memory region that has one. -/
theorem allocOk_iff_roundingClear (hk : k < 32) (hsize : 0 < size) (hw : l.NoWrap size maxAddr) :
    AllocOk l size (2 ^ k) maxAddr ↔
      ∀ b, l.TopPlace size (2 ^ k) maxAddr b →
        0 ≤ (lmbAddRegion l.reserved b (lmbAlignUp size (2 ^ k))).1 →
          ∀ j < l.reserved.cnt, 0 < (l.reserved.region j).size →
            ¬ (b + size ≤ (l.reserved.region j).base ∧
              (l.reserved.region j).base < b + lmbAlignUp size (2 ^ k)) := by
  constructor
  · intro hok b htop hroom j hj hpos ⟨hbehind, hbefore⟩
    have hfound := (findPlace_eq_some hk hsize hw).mpr htop
    obtain ⟨i, hi, hplace, -⟩ := htop
    have hret : (lmbAllocBase l size (2 ^ k) maxAddr).1 = b := by
      rw [lmbAllocBase_of_some hfound, if_neg (by omega)]
    have hne := hplace.ne_zero
    have hfresh := hok.fresh (by omega) j hj
    rw [hret, Set.disjoint_left] at hfresh
    -- the first byte of the region is in both
    refine hfresh (show (l.reserved.region j).base ∈ _ from ?_) ?_
    · simp only [Extent.mem_cells, Extent.stop]
      omega
    · simp only [Extent.mem_cells, LmbRegion.extents, LmbProperty.extent, Extent.stop]
      omega
  · intro hround
    cases hfound : findPlace l size (2 ^ k) maxAddr l.memory.cnt with
    | none =>
      have hret := lmbAllocBase_of_none hfound
      have hzero : (lmbAllocBase l size (2 ^ k) maxAddr).1 = 0 := by rw [hret]
      exact ⟨fun h => absurd hzero h, fun h => absurd hzero h, fun h => absurd hzero h,
        fun h => absurd hzero h, fun _ => by rw [hret]⟩
    | some b =>
      have htop := (findPlace_eq_some hk hsize hw).mp hfound
      have hret := lmbAllocBase_of_some hfound
      by_cases hfull : (lmbAddRegion l.reserved b (lmbAlignUp size (2 ^ k))).1 < 0
      · have hzero : (lmbAllocBase l size (2 ^ k) maxAddr).1 = 0 := by rw [hret, if_pos hfull]
        refine ⟨fun h => absurd hzero h, fun h => absurd hzero h, fun h => absurd hzero h,
          fun h => absurd hzero h, fun _ => ?_⟩
        rw [hret, ((lmbAddRegion_cases ..).resolve_left (by omega)).1]
      · have hb : (lmbAllocBase l size (2 ^ k) maxAddr).1 = b := by rw [hret, if_neg hfull]
        obtain ⟨i, hi, hplace, hmax⟩ := htop
        have hclear := hplace.clear
        refine ⟨fun _ => ?_, fun _ => ⟨i, hi, ?_⟩, fun _ hlim => ?_, fun _ j hj => ?_, fun h => ?_⟩
        · rw [hb]
          exact hplace.aligned
        · rw [hb]
          exact ⟨hplace.low, hplace.high⟩
        · rw [hb]
          exact hplace.limit.resolve_left hlim
        · rw [hb, Set.disjoint_left]
          intro x hx hxj
          have hcl := hclear j hj
          have hno := hround b ⟨i, hi, hplace, hmax⟩ (by omega) j hj
          simp only [Extent.mem_cells, LmbRegion.extents, LmbProperty.extent, Extent.stop] at hx hxj
          omega
        · have hne := hplace.ne_zero
          omega

end Alloc

/-- Memory at `[0x1000, 0x10000)` and a reservation from `base` to its end. -/
def oneBank (base : Nat) : Lmb where
  memory := (lmbAddRegion ⟨1, fun _ => ⟨0, 0⟩⟩ 0x1000 0xF000).2
  reserved := (lmbAddRegion ⟨1, fun _ => ⟨0, 0⟩⟩ base (0x10000 - base)).2

theorem oneBank_noWrap {base : Nat} (hb : base ≤ 0x10000) (size : Nat) :
    (oneBank base).NoWrap size 0 := by
  refine ⟨fun i hi => ?_, fun i hi => ?_, fun i hi hs h => absurd h (Nat.not_lt_zero _)⟩
  · obtain rfl : i = 0 := Nat.lt_one_iff.mp hi
    show 0x1000 + 0xF000 < 4294967296
    decide
  · obtain rfl : i = 0 := Nat.lt_one_iff.mp hi
    show base + (0x10000 - base) < 4294967296
    omega

/-- 256 bytes at a multiple of 4 KiB, below a reservation at such a multiple. -/
theorem allocOk_oneBank : AllocOk (oneBank 0xF000) 0x100 (2 ^ 12) 0 := by
  refine (allocOk_iff_roundingClear (by decide) (by decide) (oneBank_noWrap (by decide) _)).mpr ?_
  intro b htop _ j hj _ hbad
  obtain rfl : j = 0 := Nat.lt_one_iff.mp hj
  have hfound := (findPlace_eq_some (by decide) (by decide) (oneBank_noWrap (by decide) _)).mpr htop
  have hplace : findPlace (oneBank 0xF000) 0x100 (2 ^ 12) 0 1 = some 0xE000 := by decide +kernel
  obtain rfl : 0xE000 = b := Option.some.inj (hplace.symm.trans hfound)
  exact absurd hbad (by decide)

/-- The block of 4 KiB that is recorded for 256 bytes runs into the reservation. -/
theorem rounding_not_allocOk :
    ¬ ∀ (l : Lmb) (size k maxAddr : Nat), 0 < size → k < 32 → l.NoWrap size maxAddr →
      AllocOk l size (2 ^ k) maxAddr := by
  intro hall
  have hok := hall (oneBank 0xF100) 0x100 12 0 (by decide) (by decide) (oneBank_noWrap (by decide) _)
  have hret : (lmbAllocBase (oneBank 0xF100) 0x100 (2 ^ 12) 0).1 = 0xF000 := by decide +kernel
  have hfresh := hok.fresh (by rw [hret]; decide) 0 (by decide)
  rw [hret, Set.disjoint_left] at hfresh
  refine hfresh (show 0xF100 ∈ _ from ?_) ?_
  · simp only [Extent.mem_cells, Extent.stop]
    decide
  · simp only [Extent.mem_cells]
    decide

end Uboot.LibGeneric
