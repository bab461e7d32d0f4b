/-
  Uboot.LibGeneric.LmbReserved

  `lmb_is_reserved`, over runs of calls that may also fail, reserve what is reserved already and
  reach the end of the address space.

  The regions of such a table may overlap.  What it must keep to are the order of the bases and
  the bounds of the address space; each call comes with the condition under which it does.
-/

import Uboot.LibGeneric.LmbRun
import Uboot.LibGeneric.LmbAlloc

namespace Uboot.LibGeneric

open Uboot.Lib

-- ============================================================================
-- lmb_is_reserved
-- ============================================================================

/-- `lmb_is_reserved` -/
def lmbIsReserved (l : Lmb) (addr : Nat) : Int :=
  let inRegion := fun i =>
    let upper := usub (u32 ((l.reserved.region i).base + (l.reserved.region i).size)) 1
    decide (addr ≥ (l.reserved.region i).base) && decide (addr ≤ upper)
  if (List.range l.reserved.cnt).any inRegion then 1 else 0

-- ============================================================================
-- Calls
-- ============================================================================

/-- A call and its entry in the ledger; a call that fails has none. -/
def Ledger.book (s : Ledger) : LmbCall → Ledger
  | .reserve base size =>
    let (ret, lmb) := lmbReserve s.lmb base size
    ⟨lmb, if 0 ≤ ret then s.held ∪ (⟨base, size⟩ : Extent).cells else s.held⟩
  | .free base size =>
    let (ret, lmb) := lmbFree s.lmb base size
    ⟨lmb, if 0 ≤ ret then s.held \ (⟨base, size⟩ : Extent).cells else s.held⟩
  | .allocBase size align maxAddr =>
    let (place, lmb) := lmbAllocBase s.lmb size align maxAddr
    ⟨lmb, if place ≠ 0 then s.held ∪ (⟨place, lmbAlignUp size align⟩ : Extent).cells else s.held⟩

/-- `lmb_is_reserved` says of every address whether it is held. -/
def Ledger.Tells (s : Ledger) : Prop := ∀ addr < 4294967296, lmbIsReserved s.lmb addr = 1 ↔ addr ∈ s.held

/-- A region joined to entry `i` continues it, not around the end of the address space; put in
    front of it, it does not begin below the entries before.  The same holds of the entry that
    results and the next one, if they are adjacent.  The sizes do not add up to the whole
    address space. -/
structure LmbRegion.Joins (t : LmbRegion) (i base size : Nat) : Prop where
  side : (t.region i).base + (t.region i).size = base ∨
    base + size = (t.region i).base ∧ ∀ j < i, (t.region j).base ≤ base
  grown_lt : (t.region i).size + size < 4294967296
  next : i + 1 < t.cnt → lmbRegionsAdjacent (growRegion t i base size) i (i + 1) ≠ 0 →
    max ((t.region i).base + (t.region i).size) (base + size) = (t.region (i + 1)).base ∧
      (t.region i).size + size + (t.region (i + 1)).size < 4294967296

/-- The condition under which a region is recorded as it is: it is not empty and lies in the
    address space, an empty table is `EmptyOk`, and the entry it is joined to, if any, is one that
    `Joins` it. -/
structure LmbRegion.Takes (t : LmbRegion) (base size : Nat) : Prop where
  pos : 0 < size
  lt : size < 4294967296
  range : base + size ≤ 4294967296
  empty : t.EmptyOk base size
  joins : ∀ i, findAdjacent t base size = some i → 0 < (t.region i).size →
    t.region i ≠ ⟨base, size⟩ → t.Joins i base size

/-- The condition under which a range is freed from entry `i`: it lies in the entry, and no other
    entry has a byte of it.  Where the entry is split, its end can be recorded again: the table has
    room for it or an entry to join it to. -/
structure LmbRegion.Frees (t : LmbRegion) (i base size : Nat) : Prop where
  inside : base + size ≤ (t.region i).base + (t.region i).size
  alone : ∀ j < t.cnt, j ≠ i → Disjoint (⟨base, size⟩ : Extent).cells (t.extents j).cells
  split : (t.region i).base < base → base + size < (t.region i).base + (t.region i).size →
    let front := t.set i ⟨(t.region i).base, base - (t.region i).base⟩
    let rest := (t.region i).base + (t.region i).size - (base + size)
    front.Takes (base + size) rest ∧
      (t.cnt < maxLmbRegions ∨ findAdjacent front (base + size) rest ≠ none)

/-- The condition for a call. -/
def Ledger.Takes (s : Ledger) : LmbCall → Prop
  | .reserve base size => s.lmb.reserved.Takes base size
  | .free base size => ∀ i, findFree s.lmb.reserved base size = some i → s.lmb.reserved.Frees i base size
  | .allocBase size align maxAddr =>
    ∀ place, findPlace s.lmb size align maxAddr s.lmb.memory.cnt = some place →
      s.lmb.reserved.Takes place (lmbAlignUp size align)

-- ============================================================================
-- Tables whose regions may overlap
-- ============================================================================

/-- At most `MAX_LMB_REGIONS` regions in the order of their bases, none of them empty or beyond the
    address space. -/
structure LmbRegion.Sane (t : LmbRegion) : Prop where
  cnt_le : t.cnt ≤ maxLmbRegions
  pos : ∀ i < t.cnt, 0 < (t.region i).size
  lt : ∀ i < t.cnt, (t.region i).size < 4294967296
  bound : ∀ i < t.cnt, (t.region i).base + (t.region i).size ≤ 4294967296
  sorted : t.Sorted

variable {t : LmbRegion} {i base size : Nat}

/-- A sane table has no entry that reads as the whole address space. -/
theorem lmbIsReserved_iff {l : Lmb} (h : l.reserved.Sane) (addr : Nat) :
    lmbIsReserved l addr = 1 ↔ addr ∈ l.reserved.covered := by
  have hregion : ∀ i < l.reserved.cnt,
      usub (u32 ((l.reserved.region i).base + (l.reserved.region i).size)) 1 + 1 =
        (l.reserved.region i).base + (l.reserved.region i).size := by
    intro i hi
    have hpos := h.pos i hi
    have hbound := h.bound i hi
    simp only [usub, u32]
    omega
  rw [lmbIsReserved, LmbRegion.covered, mem_cover]
  dsimp only
  rw [ite_eq_left_iff]
  simp only [zero_ne_one, imp_false, not_not, List.any_eq_true, List.mem_range, Bool.and_eq_true,
    decide_eq_true_eq]
  refine exists_congr fun i => and_congr_right fun hi => ?_
  have hupper := hregion i hi
  simp only [Extent.mem_cells, LmbRegion.extents, LmbProperty.extent_start, LmbProperty.extent_stop]
  omega

/-- An entry may change where the order and the bounds allow. -/
theorem LmbRegion.Sane.set (h : t.Sane) {p : LmbProperty} (hpos : 0 < p.size) (hlt : p.size < 4294967296)
    (hbound : p.base + p.size ≤ 4294967296) (hbelow : ∀ j < i, j < t.cnt → (t.region j).base ≤ p.base)
    (habove : ∀ j, i < j → j < t.cnt → p.base ≤ (t.region j).base) : (t.set i p).Sane := by
  have hentry (P : LmbProperty → Prop) (hp : P p) (ht : ∀ j < t.cnt, P (t.region j)) :
      ∀ j < (t.set i p).cnt, P ((t.set i p).region j) := by
    intro j hj
    by_cases hji : j = i
    · rw [hji, region_set_self]
      exact hp
    · rw [region_set_of_ne t p hji]
      exact ht j hj
  refine ⟨h.cnt_le, hentry (fun p => 0 < p.size) hpos h.pos, hentry (fun p => p.size < 4294967296) hlt h.lt,
    hentry (fun p => p.base + p.size ≤ 4294967296) hbound h.bound, fun j k hjk hk => ?_⟩
  replace hk : k < t.cnt := hk
  by_cases hji : j = i
  · by_cases hki : k = i
    · rw [hji, hki]
    · rw [hji, region_set_self, region_set_of_ne t p hki]
      exact habove k (by omega) hk
  · rw [region_set_of_ne t p hji]
    by_cases hki : k = i
    · rw [hki, region_set_self]
      exact hbelow j (by omega) (by omega)
    · rw [region_set_of_ne t p hki]
      exact h.sorted j k hjk hk

theorem LmbRegion.Sane.cnt_lt (h : t.Sane) : t.cnt < 4294967296 := by
  have hle := h.cnt_le
  simp only [maxLmbRegions] at hle
  omega

/-- A table from which entry `r` is removed. -/
theorem LmbRegion.Sane.remove (h : t.Sane) {r : Nat} (hr : r < t.cnt) :
    (lmbRemoveRegion t r).Sane ∧
      ∀ x, x ∈ (lmbRemoveRegion t r).covered ↔ ∃ i < t.cnt, i ≠ r ∧ x ∈ (t.extents i).cells := by
  obtain ⟨n, hn⟩ : ∃ n, t.cnt = n + 1 := ⟨t.cnt - 1, by omega⟩
  have hlt := h.cnt_lt
  obtain ⟨hcnt, hext⟩ := lmbRemoveRegion_spec (r := r) hn (by omega)
  -- each entry of the new table is one of the old, in the same order
  have hold : ∀ i < n, ∃ j, i ≤ j ∧ j ≤ i + 1 ∧ (j = i ↔ i < r) ∧
      (lmbRemoveRegion t r).extents i = t.extents j := by
    intro i hi
    rw [hext i hi, removeAt]
    by_cases hir : i < r
    · exact ⟨i, by omega, by omega, by omega, if_pos hir⟩
    · exact ⟨i + 1, by omega, by omega, by omega, if_neg hir⟩
  have hentry (P : Extent → Prop) (ht : ∀ j < t.cnt, P (t.extents j)) :
      ∀ j < (lmbRemoveRegion t r).cnt, P ((lmbRemoveRegion t r).extents j) := by
    intro i hi
    obtain ⟨j, -, hj, -, heq⟩ := hold i (by omega)
    rw [heq]
    exact ht j (by omega)
  refine ⟨⟨?_, hentry (fun e => 0 < e.len) h.pos, hentry (fun e => e.len < 4294967296) h.lt,
    hentry (fun e => e.stop ≤ 4294967296) h.bound, fun i j hij hj => ?_⟩, fun x => ?_⟩
  · have hle := h.cnt_le
    omega
  · obtain ⟨i', hi, hi1, hir, heqi⟩ := hold i (by omega)
    obtain ⟨j', hj', hj1, hjr, heqj⟩ := hold j (by omega)
    show ((lmbRemoveRegion t r).extents i).start ≤ ((lmbRemoveRegion t r).extents j).start
    rw [heqi, heqj]
    exact h.sorted i' j' (by omega) (by omega)
  · rw [LmbRegion.covered, hcnt, cover_congr hext, mem_cover_removeAt (by omega), hn]

-- ============================================================================
-- Adding a region
-- ============================================================================

/-- The table of no region. -/
theorem sane_empty (hcnt : t.cnt = 0) : t.Sane ∧ t.covered = ∅ := by
  have hno : ∀ i, ¬ i < t.cnt := by omega
  refine ⟨⟨by omega, fun i hi => absurd hi (hno i), fun i hi => absurd hi (hno i), fun i hi => absurd hi (hno i),
    fun i j _ hj => absurd hj (hno j)⟩, ?_⟩
  ext x
  rw [LmbRegion.covered, mem_cover]
  refine ⟨?_, fun hx => absurd hx (Set.notMem_empty x)⟩
  rintro ⟨i, hi, -⟩
  exact absurd hi (hno i)

/-- The table of one region. -/
theorem sane_singleton {p : LmbProperty} (hcnt : t.cnt = 1) (hp : t.region 0 = p) (hpos : 0 < p.size)
    (hlt : p.size < 4294967296) (hbound : p.base + p.size ≤ 4294967296) :
    t.Sane ∧ t.covered = p.extent.cells := by
  subst hp
  have hzero : ∀ i < t.cnt, i = 0 := by omega
  refine ⟨⟨by rw [hcnt]; decide, fun i hi => ?_, fun i hi => ?_, fun i hi => ?_, fun i j hij hj => ?_⟩, ?_⟩
  · rwa [hzero i hi]
  · rwa [hzero i hi]
  · rwa [hzero i hi]
  · rw [hzero i (by omega), hzero j hj]
  · ext x
    rw [LmbRegion.covered, hcnt, mem_cover]
    constructor
    · rintro ⟨i, hi, hx⟩
      rwa [hzero i (by omega)] at hx
    · exact fun hx => ⟨0, Nat.one_pos, hx⟩

/-- The sorted insertion. -/
theorem LmbRegion.Sane.insert (h : t.Sane) (hcnt : 0 < t.cnt) (hroom : t.cnt < maxLmbRegions)
    (hpos : 0 < size) (hlt : size < 4294967296) (hbound : base + size ≤ 4294967296) :
    (lmbInsert t base size).Sane ∧
      (lmbInsert t base size).covered = t.covered ∪ (⟨base, size⟩ : Extent).cells := by
  obtain ⟨hcnt', k, hk, hlow, hhigh, hext⟩ := @lmbInsert_spec t base size h.sorted hcnt hroom
  have hentry (P : Extent → Prop) (hp : P ⟨base, size⟩) (ht : ∀ j < t.cnt, P (t.extents j)) :
      ∀ j < (lmbInsert t base size).cnt, P ((lmbInsert t base size).extents j) := by
    intro j hj
    rw [hext j (by omega), insertAt]
    split
    · exact ht j (by omega)
    · split
      · exact hp
      · exact ht (j - 1) (by omega)
  refine ⟨⟨by omega, hentry (fun e => 0 < e.len) hpos h.pos, hentry (fun e => e.len < 4294967296) hlt h.lt,
    hentry (fun e => e.stop ≤ 4294967296) hbound h.bound, fun i j hij hj => ?_⟩, ?_⟩
  · show ((lmbInsert t base size).extents i).start ≤ ((lmbInsert t base size).extents j).start
    rw [hext i (by omega), hext j (by omega), insertAt, insertAt]
    by_cases hik : i < k
    · have hi := hlow i hik
      rw [if_pos hik]
      split
      · exact h.sorted i j hij (by omega)
      · split
        · exact hi
        · exact h.sorted i (j - 1) (by omega) (by omega)
    · rw [if_neg hik, if_neg (by omega : ¬ j < k)]
      by_cases hie : i = k
      · rw [if_pos hie]
        split
        · exact Nat.le_refl _
        · exact (hhigh (j - 1) (by omega) (by omega)).le
      · rw [if_neg hie, if_neg (by omega : ¬ j = k)]
        exact h.sorted (i - 1) (j - 1) (by omega) (by omega)
  · rw [LmbRegion.covered, hcnt', cover_congr hext, cover_insertAt hk]
    rfl

/-- An entry grown by a region that it joins. -/
theorem LmbRegion.Sane.grow (h : t.Sane) (hi : i < t.cnt) (hjoins : t.Joins i base size) (hpos : 0 < size)
    (hbound : base + size ≤ 4294967296) :
    growRegion t i base size = t.set i ⟨min (t.region i).base base, (t.region i).size + size⟩ ∧
      (growRegion t i base size).Sane ∧
      (growRegion t i base size).covered = t.covered ∪ (⟨base, size⟩ : Extent).cells := by
  have hposi := h.pos i hi
  have hboundi := h.bound i hi
  have hlt := hjoins.grown_lt
  have hgrow : growRegion t i base size = t.set i ⟨min (t.region i).base base, (t.region i).size + size⟩ := by
    rw [growRegion, lmbAddrsAdjacent, u32_of_lt hlt]
    rcases hjoins.side with hup | ⟨hdown, -⟩
    · -- what adjoins at both ends would be as large as the address space
      have hfront : (t.region i).base ≠ u32 (base + size) := by
        simp only [u32]
        omega
      rw [if_neg hfront, if_neg (by split <;> decide), Nat.min_eq_left (by omega)]
    · rw [u32_of_lt (by omega), if_pos hdown.symm, if_pos (by decide), usub_of_le (by omega) (by omega),
        Nat.min_eq_right (by omega)]
      congr 2
      omega
  rw [hgrow]
  refine ⟨rfl, h.set (Nat.add_pos_left hposi _) hlt ?_ (fun j hj hjc => ?_) fun j hij hj => ?_,
    LmbRegion.covered_set_union hi ?_⟩
  · have hside := hjoins.side
    dsimp only
    omega
  · have hle := h.sorted j i hj.le hi
    rcases hjoins.side with hup | ⟨hdown, hbelow⟩
    · dsimp only
      omega
    · have hj' := hbelow j hj
      dsimp only
      omega
  · have hle := h.sorted i j hij.le hj
    dsimp only
    omega
  · have hside := hjoins.side
    ext x
    simp only [Extent.mem_cells, Set.mem_union, Extent.stop, LmbProperty.extent]
    omega

/-- An entry and the next one, which begins where it ends, as one. -/
theorem LmbRegion.Sane.coalesce (h : t.Sane) (hi : i + 1 < t.cnt)
    (hnext : (t.region i).base + (t.region i).size = (t.region (i + 1)).base)
    (hlt : (t.region i).size + (t.region (i + 1)).size < 4294967296) :
    (lmbCoalesceRegions t i (i + 1)).Sane ∧ (lmbCoalesceRegions t i (i + 1)).covered = t.covered := by
  have hbound := h.bound (i + 1) hi
  have hposi := h.pos i (by omega)
  have hhull : (t.set i ⟨(t.region i).base, (t.region i).size + (t.region (i + 1)).size⟩).Sane :=
    h.set (Nat.add_pos_left hposi _) hlt (by dsimp only; omega) (fun j hj hjc => h.sorted j i hj.le (by omega))
      fun j hij hj => h.sorted i j hij.le hj
  obtain ⟨hsane, hcov⟩ := hhull.remove hi
  rw [lmbCoalesceRegions, u32_of_lt hlt]
  refine ⟨hsane, ?_⟩
  ext x
  rw [hcov, LmbRegion.covered, mem_cover]
  have hcnt : (t.set i ⟨(t.region i).base, (t.region i).size + (t.region (i + 1)).size⟩).cnt = t.cnt := rfl
  rw [hcnt, LmbRegion.extents_set]
  constructor
  · rintro ⟨j, hj, hne, hx⟩
    by_cases hji : j = i
    · rw [hji, Function.update_self] at hx
      by_cases hin : x < (t.region (i + 1)).base
      · refine ⟨i, by omega, ?_⟩
        simp only [Extent.mem_cells, Extent.stop, LmbProperty.extent, LmbRegion.extents] at hx ⊢
        omega
      · refine ⟨i + 1, hi, ?_⟩
        simp only [Extent.mem_cells, Extent.stop, LmbProperty.extent, LmbRegion.extents] at hx ⊢
        omega
    · rw [Function.update_of_ne hji] at hx
      exact ⟨j, hj, hx⟩
  · rintro ⟨j, hj, hx⟩
    by_cases hin : j = i ∨ j = i + 1
    · refine ⟨i, by omega, by omega, ?_⟩
      rw [Function.update_self]
      rcases hin with rfl | rfl
      · simp only [Extent.mem_cells, Extent.stop, LmbProperty.extent, LmbRegion.extents] at hx ⊢
        omega
      · simp only [Extent.mem_cells, Extent.stop, LmbProperty.extent, LmbRegion.extents] at hx ⊢
        omega
    · refine ⟨j, hj, by omega, ?_⟩
      rwa [Function.update_of_ne (by omega)]

/-- **`lmb_add_region`** on a sane table. -/
theorem LmbRegion.Sane.add (h : t.Sane) (htakes : t.Takes base size) (hret : 0 ≤ (lmbAddRegion t base size).1) :
    (lmbAddRegion t base size).2.Sane ∧
      (lmbAddRegion t base size).2.covered = t.covered ∪ (⟨base, size⟩ : Extent).cells := by
  have hlt := h.cnt_lt
  rcases Nat.eq_zero_or_pos t.cnt with hcnt | hcnt
  · obtain ⟨hadd, hcnt', hreg⟩ := lmbAddRegion_empty htakes.empty hcnt
    rw [hadd, (sane_empty hcnt).2, Set.empty_union]
    exact sane_singleton (p := ⟨base, size⟩) hcnt' hreg htakes.pos htakes.lt htakes.range
  have hpos0 := h.pos 0 hcnt
  have hsub : usub t.cnt 1 = t.cnt - 1 := usub_of_le hcnt hlt
  rw [lmbAddRegion, if_neg (by omega)] at hret ⊢
  cases hf : findAdjacent t base size with
  | none =>
    rw [hf] at hret
    dsimp only at hret ⊢
    rw [if_neg (by omega)] at hret ⊢
    by_cases hfull : t.cnt ≥ maxLmbRegions
    · rw [if_pos hfull] at hret
      exact absurd hret (by simp)
    · rw [if_neg hfull]
      exact h.insert hcnt (by omega) htakes.pos htakes.lt htakes.range
  | some i =>
    have hi : i < t.cnt := by
      rw [findAdjacent, List.find?_range_eq_some] at hf
      exact List.mem_range.1 hf.2.1
    dsimp only
    by_cases hsame : (t.region i).base = base ∧ (t.region i).size = size
    · -- the region is there already
      rw [if_pos hsame]
      refine ⟨h, ?_⟩
      symm
      apply Set.union_eq_left.2
      intro x hx
      refine ⟨i, hi, ?_⟩
      rw [LmbRegion.extents, LmbProperty.extent, hsame.1, hsame.2]
      exact hx
    · have hne : t.region i ≠ ⟨base, size⟩ := fun heq => hsame (by rw [heq]; exact ⟨rfl, rfl⟩)
      have hjoins := htakes.joins i hf (h.pos i hi) hne
      obtain ⟨hgrow, hsane, hcov⟩ := h.grow hi hjoins htakes.pos htakes.range
      have hcnt' : (growRegion t i base size).cnt = t.cnt := by rw [hgrow]; rfl
      rw [if_neg hsame, hcnt', hsub]
      by_cases hadj : i < t.cnt - 1 ∧ lmbRegionsAdjacent (growRegion t i base size) i (i + 1) ≠ 0
      · obtain ⟨hnext, hsize⟩ := hjoins.next (by omega) hadj.2
        have hside := hjoins.side
        rw [if_pos hadj]
        have hco := hsane.coalesce (i := i) (by omega)
          (by rw [hgrow, LmbRegion.region_set_self, LmbRegion.region_set_of_ne t _ (by omega)]; dsimp only; omega)
          (by rw [hgrow, LmbRegion.region_set_self, LmbRegion.region_set_of_ne t _ (by omega)]; exact hsize)
        exact ⟨hco.1, hco.2.trans hcov⟩
      · rw [if_neg hadj]
        exact ⟨hsane, hcov⟩

-- ============================================================================
-- Freeing
-- ============================================================================

/-- Where no other entry has a byte of it, a range taken from an entry is gone, whatever of the
    entry is recorded elsewhere. -/
theorem LmbRegion.covered_set_sdiff {p : LmbProperty} {r s : Set Nat} (hi : i < t.cnt)
    (halone : ∀ j < t.cnt, j ≠ i → Disjoint s (t.extents j).cells)
    (hp : p.extent.cells ∪ r = (t.extents i).cells \ s) : (t.set i p).covered ∪ r = t.covered \ s := by
  ext x
  have hpx : x ∈ p.extent.cells ∨ x ∈ r ↔ x ∈ (t.extents i).cells ∧ x ∉ s := by
    rw [← Set.mem_union, hp, Set.mem_sdiff]
  rw [LmbRegion.covered, LmbRegion.covered, LmbRegion.extents_set, Set.mem_sdiff, Set.mem_union]
  show x ∈ cover t.cnt _ ∨ _ ↔ _
  rw [mem_cover_update hi, mem_cover, or_right_comm, hpx]
  constructor
  · rintro (⟨hx, hxs⟩ | ⟨j, hj, hji, hx⟩)
    · exact ⟨⟨i, hi, hx⟩, hxs⟩
    · exact ⟨⟨j, hj, hx⟩, fun hxs => Set.disjoint_left.1 (halone j hj hji) hxs hx⟩
  · rintro ⟨⟨j, hj, hx⟩, hxs⟩
    by_cases hji : j = i
    · exact .inl ⟨hji ▸ hx, hxs⟩
    · exact .inr ⟨j, hj, hji, hx⟩

/-- An entry that is the freed range goes. -/
theorem LmbRegion.Sane.remove_alone (h : t.Sane) (hi : i < t.cnt) {s : Set Nat} (hsame : (t.extents i).cells = s)
    (halone : ∀ j < t.cnt, j ≠ i → Disjoint s (t.extents j).cells) :
    (lmbRemoveRegion t i).Sane ∧ (lmbRemoveRegion t i).covered = t.covered \ s := by
  obtain ⟨hsane, hcov⟩ := h.remove hi
  refine ⟨hsane, ?_⟩
  ext x
  rw [hcov, Set.mem_sdiff, LmbRegion.covered, mem_cover]
  constructor
  · rintro ⟨j, hj, hji, hx⟩
    exact ⟨⟨j, hj, hx⟩, fun hxs => Set.disjoint_left.1 (halone j hj hji) hxs hx⟩
  · rintro ⟨⟨j, hj, hx⟩, hxs⟩
    exact ⟨j, hj, fun hji => hxs (hsame ▸ hji ▸ hx), hx⟩

/-- An entry that has no byte of a range, and does not begin below it, begins behind it. -/
theorem LmbRegion.Sane.le_of_disjoint (h : t.Sane) {j : Nat} (hj : j < t.cnt) (hle : base ≤ (t.region j).base)
    (hdisj : Disjoint (⟨base, size⟩ : Extent).cells (t.extents j).cells) : base + size ≤ (t.region j).base := by
  by_contra hbelow
  have hpos := h.pos j hj
  have hrange : (t.region j).base ∈ (⟨base, size⟩ : Extent).cells := by
    simp only [Extent.mem_cells, Extent.stop]
    omega
  have hentry : (t.region j).base ∈ (t.extents j).cells := by
    simp only [Extent.mem_cells, Extent.stop, LmbRegion.extents, LmbProperty.extent]
    omega
  exact Set.disjoint_left.1 hdisj hrange hentry

/-- The end of an entry, cut off by the range, can be recorded again. -/
theorem LmbRegion.Sane.split (h : t.Sane) (hi : i < t.cnt) (hfrees : t.Frees i base size)
    (hfront : (t.region i).base < base) (hback : base + size < (t.region i).base + (t.region i).size) :
    let added := lmbAddRegion (t.set i ⟨(t.region i).base, base - (t.region i).base⟩) (base + size)
      ((t.region i).base + (t.region i).size - (base + size))
    0 ≤ added.1 ∧ added.2.Sane ∧ added.2.covered = t.covered \ (⟨base, size⟩ : Extent).cells := by
  intro added
  have hlti := h.lt i hi
  have hboundi := h.bound i hi
  obtain ⟨htakes, hroom⟩ := hfrees.split hfront hback
  have hsane : (t.set i ⟨(t.region i).base, base - (t.region i).base⟩).Sane :=
    h.set (by dsimp only; omega) (by dsimp only; omega) (by dsimp only; omega)
      (fun j hj hjc => h.sorted j i hj.le hi) fun j hij hj => h.sorted i j hij.le hj
  have hret : 0 ≤ added.1 := by
    rcases lmbAddRegion_cases (t.set i ⟨(t.region i).base, base - (t.region i).base⟩) (base + size)
      ((t.region i).base + (t.region i).size - (base + size)) with hnonneg | ⟨-, hnone, hfull⟩
    · exact hnonneg
    · exact absurd hroom (not_or.2 ⟨Nat.not_lt.2 hfull, not_not.2 hnone⟩)
  obtain ⟨hadded, hcov⟩ := hsane.add htakes hret
  refine ⟨hret, hadded, ?_⟩
  rw [hcov]
  apply LmbRegion.covered_set_sdiff hi hfrees.alone
  ext x
  simp only [Extent.mem_cells, Set.mem_sdiff, Set.mem_union, Extent.stop, LmbRegion.extents, LmbProperty.extent]
  omega

/-- **`lmb_free`**, from the entry that it finds. -/
theorem LmbRegion.Sane.freeIn (h : t.Sane) (hi : i < t.cnt) (hlow : (t.region i).base ≤ base)
    (hfrees : t.Frees i base size) :
    0 ≤ (freeIn t i base size).1 ∧ (freeIn t i base size).2.Sane ∧
      (freeIn t i base size).2.covered = t.covered \ (⟨base, size⟩ : Extent).cells := by
  have hin := hfrees.inside
  have hposi := h.pos i hi
  have hlti := h.lt i hi
  have hboundi := h.bound i hi
  -- the ends compare as they are, although one at the end of the address space reads as 0
  have hend : u32 ((t.region i).base + (t.region i).size) = u32 (base + size) ↔
      (t.region i).base + (t.region i).size = base + size := by
    simp only [u32]
    omega
  have hcells {p : LmbProperty} (hp : p.extent.cells = (t.extents i).cells \ (⟨base, size⟩ : Extent).cells) :
      (t.set i p).covered = t.covered \ (⟨base, size⟩ : Extent).cells := by
    rw [← LmbRegion.covered_set_sdiff hi hfrees.alone (r := ∅) (by rw [Set.union_empty, hp]), Set.union_empty]
  rw [LibGeneric.freeIn]
  simp only [hend]
  by_cases hall : (t.region i).base = base ∧ (t.region i).base + (t.region i).size = base + size
  · -- the whole entry
    rw [if_pos hall]
    refine ⟨Int.le_refl 0, h.remove_alone hi ?_ hfrees.alone⟩
    ext x
    simp only [Extent.mem_cells, Extent.stop, LmbRegion.extents, LmbProperty.extent]
    omega
  rw [if_neg hall]
  by_cases hfront : (t.region i).base = base
  · rw [if_pos hfront, usub_of_le (by omega) (by omega), u32_of_lt (by omega)]
    refine ⟨Int.le_refl 0, h.set (by dsimp only; omega) (by dsimp only; omega) (by dsimp only; omega)
      (fun j hj hjc => ?_) (fun j hij hj => ?_), hcells ?_⟩
    · have hle := h.sorted j i hj.le hi
      dsimp only
      omega
    · exact h.le_of_disjoint hj (hfront ▸ h.sorted i j hij.le hj) (hfrees.alone j hj (by omega))
    · ext x
      simp only [Extent.mem_cells, Set.mem_sdiff, Extent.stop, LmbRegion.extents, LmbProperty.extent]
      omega
  rw [if_neg hfront]
  by_cases hback : (t.region i).base + (t.region i).size = base + size
  · rw [if_pos hback, usub_of_le (by omega) (by omega)]
    refine ⟨Int.le_refl 0, h.set (by dsimp only; omega) (by dsimp only; omega) (by dsimp only; omega)
      (fun j hj hjc => h.sorted j i hj.le hi) (fun j hij hj => h.sorted i j hij.le hj), hcells ?_⟩
    ext x
    simp only [Extent.mem_cells, Set.mem_sdiff, Extent.stop, LmbRegion.extents, LmbProperty.extent]
    omega
  -- split: the front stays, the rest is recorded again
  have hrest : usub (u32 ((t.region i).base + (t.region i).size)) (base + size) =
      (t.region i).base + (t.region i).size - (base + size) := by
    simp only [usub, u32]
    omega
  rw [if_neg hback, u32_of_lt (by omega : base + size < 4294967296), usub_of_le hlow (by omega), hrest]
  exact h.split hi hfrees (by omega) (by omega)

-- ============================================================================
-- Steps
-- ============================================================================

/-- The search of `lmb_alloc_base` does not end at address 0. -/
theorem placeLoop_ne_zero {r : LmbRegion} {lmbbase align fuel place : Nat}
    (hp : placeLoop r lmbbase size align fuel base = some place) : place ≠ 0 := by
  induction fuel generalizing base with
  | zero => cases hp
  | succ fuel ih =>
    rw [placeLoop] at hp
    split at hp
    · next hin =>
      split at hp
      · obtain rfl := Option.some.inj hp
        exact hin.1
      · split at hp
        · cases hp
        · exact ih hp
    · cases hp

theorem findPlace_ne_zero {l : Lmb} {align maxAddr place n : Nat}
    (hp : findPlace l size align maxAddr n = some place) : place ≠ 0 := by
  induction n with
  | zero => cases hp
  | succ n ih =>
    rw [findPlace] at hp
    split at hp
    · exact ih hp
    · split at hp
      · next hloop =>
        obtain rfl := Option.some.inj hp
        exact placeLoop_ne_zero hloop
      · exact ih hp

/-- The reserved table is as `lmb_init` leaves it and nothing is held, or it is sane and covers
    what is held. -/
def Ledger.Booked (s : Ledger) : Prop :=
  (s.lmb.reserved.IsDummy ∧ s.held = ∅) ∨ (s.lmb.reserved.Sane ∧ s.lmb.reserved.covered = s.held)

/-- A region that is recorded. -/
theorem Ledger.Booked.add {s : Ledger} (h : s.Booked) (htakes : s.lmb.reserved.Takes base size)
    (hret : 0 ≤ (lmbAddRegion s.lmb.reserved base size).1) :
    (lmbAddRegion s.lmb.reserved base size).2.Sane ∧
      (lmbAddRegion s.lmb.reserved base size).2.covered = s.held ∪ (⟨base, size⟩ : Extent).cells := by
  rcases h with ⟨⟨hcnt, hdummy⟩, hempty⟩ | ⟨hsane, hcov⟩
  · -- the dummy entry becomes the region
    rw [lmbAddRegion, if_pos ⟨hcnt, by rw [hdummy]⟩, hempty, Set.empty_union]
    exact sane_singleton (p := ⟨base, size⟩) hcnt (LmbRegion.region_set_self ..) htakes.pos htakes.lt htakes.range
  · rw [← hcov]
    exact hsane.add htakes hret

/-- A call that adds a region: it is held if it is recorded. -/
theorem Ledger.Booked.of_add {s : Ledger} (h : s.Booked) (htakes : s.lmb.reserved.Takes base size) {l : Lmb}
    (hl : l.reserved = (lmbAddRegion s.lmb.reserved base size).2) :
    Ledger.Booked ⟨l, if 0 ≤ (lmbAddRegion s.lmb.reserved base size).1 then
      s.held ∪ (⟨base, size⟩ : Extent).cells else s.held⟩ := by
  rcases lmbAddRegion_cases s.lmb.reserved base size with hret | ⟨hfail, -⟩
  · rw [if_pos hret]
    right
    rw [hl]
    exact h.add htakes hret
  · rw [hfail] at hl ⊢
    rw [if_neg (show ¬ (0 : Int) ≤ -1 by decide)]
    unfold Ledger.Booked at h ⊢
    rwa [hl]

/-- **Step lemma.** -/
theorem Ledger.Booked.book {s : Ledger} {c : LmbCall} (h : s.Booked) (htakes : s.Takes c) : (s.book c).Booked := by
  cases c with
  | reserve base size => exact h.of_add htakes rfl
  | free base size =>
    rw [Ledger.book, lmbFree]
    cases hf : findFree s.lmb.reserved base size with
    | none => exact h
    | some i =>
      have hfrees := htakes i hf
      rw [findFree, List.find?_range_eq_some] at hf
      obtain ⟨hfound, hi, -⟩ := hf
      rw [List.mem_range] at hi
      rw [Bool.and_eq_true, decide_eq_true_eq] at hfound
      rcases h with ⟨⟨hcnt, hdummy⟩, hempty⟩ | ⟨hsane, hcov⟩
      · -- from the dummy entry nothing can be freed but the empty range at 0
        have hin := hfrees.inside
        obtain rfl : i = 0 := by omega
        rw [hdummy] at hin
        obtain ⟨rfl, rfl⟩ : base = 0 ∧ size = 0 := by
          dsimp only at hin
          omega
        have hfree : freeIn s.lmb.reserved 0 0 0 = (0, lmbRemoveRegion s.lmb.reserved 0) := by
          rw [freeIn, hdummy]
          exact if_pos ⟨rfl, rfl⟩
        have hnone : (lmbRemoveRegion s.lmb.reserved 0).cnt = 0 := (lmbRemoveRegion_spec hcnt (by decide)).1
        dsimp only
        rw [hfree]
        dsimp only
        rw [if_pos (Int.le_refl 0), hempty, Set.empty_sdiff]
        right
        exact sane_empty hnone
      · obtain ⟨hret, hsane', hcov'⟩ := hsane.freeIn hi hfound.1 hfrees
        dsimp only
        rw [if_pos hret]
        right
        refine ⟨hsane', ?_⟩
        dsimp only
        rw [hcov', hcov]
  | allocBase size align maxAddr =>
    rw [Ledger.book]
    cases hp : findPlace s.lmb size align maxAddr s.lmb.memory.cnt with
    | none =>
      rw [lmbAllocBase_of_none hp]
      dsimp only
      rwa [if_neg (by decide)]
    | some place =>
      have hne := findPlace_ne_zero hp
      have hadd := h.of_add (htakes place hp) (l := (lmbAllocBase s.lmb size align maxAddr).2)
        (by rw [lmbAllocBase_of_some hp])
      rw [lmbAllocBase_of_some hp] at hadd ⊢
      dsimp only at hadd ⊢
      by_cases hret : 0 ≤ (lmbAddRegion s.lmb.reserved place (lmbAlignUp size align)).1
      · rw [if_pos hret] at hadd
        rwa [if_neg (Int.not_lt.2 hret), if_pos hne]
      · rw [if_neg hret] at hadd
        rwa [if_pos (Int.not_le.1 hret), if_neg (not_not.2 rfl)]

-- ============================================================================
-- Runs
-- ============================================================================

theorem Ledger.booked_start (memory : LmbRegion) (l : Lmb) : (Ledger.start memory l).Booked :=
  .inl ⟨⟨rfl, by simp [Ledger.start, lmbInit]⟩, rfl⟩

/-- A booked table tells what is held, unless it is still the initial one: its dummy entry reads
    as the whole address space. -/
theorem Ledger.Booked.tells_iff {s : Ledger} (h : s.Booked) : s.Tells ↔ ¬ s.lmb.reserved.IsDummy := by
  rcases h with ⟨⟨hcnt, hdummy⟩, hempty⟩ | ⟨hsane, hcov⟩
  · refine ⟨fun htells => ?_, fun hnot => absurd ⟨hcnt, hdummy⟩ hnot⟩
    have hzero : lmbIsReserved s.lmb 0 = 1 := by
      rw [lmbIsReserved, hcnt]
      simp [hdummy]
    have hheld := (htells 0 (by decide)).1 hzero
    rw [hempty] at hheld
    exact absurd hheld (Set.notMem_empty 0)
  · constructor
    · rintro - ⟨hcnt, hdummy⟩
      have hpos := hsane.pos 0 (by omega)
      rw [hdummy] at hpos
      exact absurd hpos (by decide)
    · intro _ addr _
      rw [lmbIsReserved_iff hsane, hcov]

/-- **Runs from `lmb_init`.**  After a run whose calls each meet their condition `lmb_is_reserved`
    tells what is held just when the reserved table is no longer the initial one. -/
theorem tells_run_iff (memory : LmbRegion) (l : Lmb) {cs : List LmbCall}
    (hcs : Guarded Ledger.book Ledger.Takes (Ledger.start memory l) cs) :
    (run Ledger.book (Ledger.start memory l) cs).Tells ↔
      ¬ (run Ledger.book (Ledger.start memory l) cs).lmb.reserved.IsDummy :=
  (run_invariant (fun _ _ h htakes => h.book htakes) (Ledger.booked_start memory l) hcs).tells_iff

/-- A region at the end of the address space, of which the end is freed, and one that overlaps it. -/
theorem tells_run_three :
    (run Ledger.book (Ledger.start noMemory ⟨noMemory, noMemory⟩)
      [.reserve 0xFFFFF000 0x1000, .free 0xFFFFFC00 0x400, .reserve 0xFFFFE000 0x1800]).Tells := by
  refine (tells_run_iff noMemory ⟨noMemory, noMemory⟩ ?_).2 (fun hdummy => absurd hdummy.1 (by decide))
  refine ⟨⟨by decide, by decide, by decide, fun hc => absurd hc (by decide), fun i hi hpos => ?_⟩, fun i hi => ?_,
    ⟨by decide, by decide, by decide, fun hc => absurd hc (by decide), fun i hi => ?_⟩, trivial⟩
  · obtain rfl : 0 = i := Option.some.inj hi
    exact absurd hpos (by decide)
  · obtain rfl : 0 = i := Option.some.inj hi
    exact ⟨by decide, fun j hj hne => absurd (Nat.lt_one_iff.1 hj) hne, fun _ hlt => absurd hlt (by decide)⟩
  · exact absurd (show none = some i from hi) (by simp)

/-- After `lmb_init` every address reads as reserved. -/
theorem init_not_tells :
    ¬ ∀ (memory : LmbRegion) (l : Lmb) (cs : List LmbCall), (run Ledger.book (Ledger.start memory l) cs).Tells := by
  intro hall
  have htells := hall noMemory ⟨noMemory, noMemory⟩ [] 0 (by decide)
  have hheld : 0 ∈ (Ledger.start noMemory ⟨noMemory, noMemory⟩).held := htells.1 (by decide)
  exact Set.notMem_empty 0 hheld

-- ============================================================================
-- Runs that keep the regions apart
-- ============================================================================

/-- A table whose regions are apart joins a region that meets none of them. -/
theorem LmbRegion.Ok.joins (h : t.Ok) (hsize : 0 < size) (hb : base + size < 4294967296)
    (hclear : t.Clear base size) (hf : findAdjacent t base size = some i) : t.Joins i base size := by
  obtain ⟨hi, hadj, hfirst⟩ := findAdjacent_some h hsize hb hclear hf
  have hbi := h.bound i hi
  refine ⟨?_, by omega, fun hi1 hnext => ?_⟩
  · rcases hadj with hdown | hup
    · refine .inr ⟨hdown.symm, fun j hj => ?_⟩
      have hgap : (t.region j).base + (t.region j).size < (t.region i).base := h.apart.gap j i hj hi
      have hcl := hclear j (by omega)
      omega
    · exact .inl hup.symm
  · have hgap : (t.region i).base + (t.region i).size < (t.region (i + 1)).base :=
      h.apart.gap i (i + 1) (Nat.lt_succ_self i) hi1
    have hbn := h.bound (i + 1) hi1
    rcases hadj with hdown | hup
    · obtain ⟨hgrow, hok, -⟩ := growRegion_down h hsize hi hclear hdown hfirst
      have hcnt : (growRegion t i base size).cnt = t.cnt := by rw [hgrow]; rfl
      exact absurd (hok.not_adjacent (by omega)) hnext
    · rw [growRegion_up h hsize hi hb hup, lmbRegionsAdjacent, region_set_self, region_set_of_ne t _ (by omega),
        lmbAddrsAdjacent_ne_zero (by dsimp only; omega) hbn] at hnext
      dsimp only at hnext
      omega

theorem LmbRegion.Ok.takes (h : t.Ok) (hsize : 0 < size) (hb : base + size < 4294967296)
    (hclear : t.Clear base size) (hempty : t.EmptyOk base size) : t.Takes base size :=
  ⟨hsize, by omega, by omega, hempty, fun _ hf _ _ => h.joins hsize hb hclear hf⟩

/-- What is held leaves the region free. -/
theorem LmbRegion.Inv.takes {s : Set Nat} (h : t.Inv s) (hsize : 0 < size) (hb : base + size < 4294967296)
    (hdisj : Disjoint (⟨base, size⟩ : Extent).cells s) (hempty : t.EmptyOk base size) : t.Takes base size := by
  rcases h with ⟨⟨hcnt, hdummy⟩, -⟩ | ⟨hok, hcov⟩
  · refine ⟨hsize, by omega, by omega, hempty, fun i hf hpos => ?_⟩
    rw [findAdjacent, List.find?_range_eq_some] at hf
    obtain rfl : i = 0 := by
      have hi := List.mem_range.1 hf.2.1
      omega
    rw [hdummy] at hpos
    exact absurd hpos (Nat.lt_irrefl 0)
  · exact hok.takes hsize hb (hok.clear hsize (hcov ▸ hdisj)) hempty

/-- A full table without an entry adjacent to the region. -/
theorem lmbAddRegion_full (hfull : maxLmbRegions ≤ t.cnt) (hlt : t.cnt < 4294967296)
    (hnone : findAdjacent t base size = none) : (lmbAddRegion t base size).1 = -1 := by
  have hcnt : 8 ≤ t.cnt := hfull
  rw [lmbAddRegion, if_neg (by omega), hnone, usub_of_le (by omega) hlt]
  dsimp only
  rw [if_neg (by omega), if_pos hfull]

/-- A range of one region, freed with success from a table whose regions are apart. -/
theorem LmbRegion.Ok.frees (h : t.Ok) (hi : i < t.cnt) (hlow : (t.region i).base ≤ base)
    (hhigh : base + size ≤ (t.region i).base + (t.region i).size) (hret : 0 ≤ (freeIn t i base size).1) :
    t.Frees i base size := by
  have hbi := h.bound i hi
  refine ⟨hhigh, fun j hj hji => ?_, fun hfront hback => ?_⟩
  · rw [Set.disjoint_left]
    intro x hx hxj
    refine hji (h.apart.index_unique hj hi hxj ?_)
    simp only [Extent.mem_cells, Extent.stop, LmbRegion.extents, LmbProperty.extent] at hx ⊢
    omega
  · rw [freeIn, u32_of_lt hbi, u32_of_lt (by omega), if_neg (by omega), if_neg (by omega), if_neg (by omega),
      usub_of_le hlow (by omega), usub_of_le hhigh hbi] at hret
    obtain ⟨hok, hclear⟩ := h.cut hi hfront hback
    have hcnt : (t.set i ⟨(t.region i).base, base - (t.region i).base⟩).cnt = t.cnt := rfl
    dsimp only
    generalize t.set i ⟨(t.region i).base, base - (t.region i).base⟩ = front at *
    refine ⟨hok.takes (by omega) (by omega) hclear fun hempty => by omega, ?_⟩
    by_contra hroom
    rw [not_or, not_not] at hroom
    have hle := h.cnt_le
    simp only [maxLmbRegions] at hle
    rw [lmbAddRegion_full (by omega) (by omega) hroom.2] at hret
    exact absurd hret (by decide)

/-- **Runs that keep the regions apart** meet the condition, and a call that succeeds is booked
    as it is recorded there. -/
theorem Ledger.Inv.takes {s : Ledger} {c : LmbCall} (h : s.Inv) (hlegal : s.Legal c) (hsound : s.Sound c) :
    s.Takes c ∧ s.book c = s.step c := by
  cases c with
  | reserve base size =>
    obtain ⟨hsize, hb, hdisj, hret⟩ := hlegal
    refine ⟨h.reserved.takes hsize hb hdisj hsound, ?_⟩
    rw [Ledger.book, Ledger.step]
    dsimp only
    rw [if_pos hret]
  | free base size =>
    obtain ⟨⟨i₀, hi₀, hpos, hlow₀, hhigh₀⟩, hret⟩ := hlegal
    constructor
    · intro i hf
      rcases h.reserved with ⟨⟨hcnt, hdummy⟩, -⟩ | ⟨hok, -⟩
      · obtain rfl : i₀ = 0 := by omega
        rw [hdummy] at hpos
        exact absurd hpos (Nat.lt_irrefl 0)
      · obtain ⟨i', hf', hi, hlow, hhigh⟩ := findFree_spec hok hi₀ hlow₀ hhigh₀
        obtain rfl := Option.some.inj (hf.symm.trans hf')
        rw [lmbFree, hf] at hret
        exact hok.frees hi hlow hhigh hret
    · rw [Ledger.book, Ledger.step]
      dsimp only
      rw [if_pos hret]
  | allocBase size align maxAddr =>
    obtain ⟨hsize, hmax, hround, hempty⟩ := hsound
    constructor
    · intro place hp
      obtain ⟨hle, hwrap, -⟩ := hround place hp
      exact h.reserved.takes (by omega) hwrap (h.block_clear hmax hround hp) (hempty place hp)
    · rw [Ledger.book, Ledger.step]
      dsimp only
      rw [if_pos (show (lmbAllocBase s.lmb size align maxAddr).1 ≠ 0 from hlegal)]

end Uboot.LibGeneric
