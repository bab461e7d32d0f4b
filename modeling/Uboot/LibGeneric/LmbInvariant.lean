/-
  Uboot.LibGeneric.LmbInvariant

  The invariant of the reserved table: regions in order, non-empty and apart, the
  addresses they cover being what was reserved or allocated and not freed.  One
  lemma for each operation of LibGeneric/Lmb, then whole runs.
-/

import Uboot.LibGeneric.Lmb

namespace Uboot.LibGeneric

open Uboot.Lib

/-! ## Tables as extents -/

def LmbProperty.extent (p : LmbProperty) : Extent := ⟨p.base, p.size⟩

@[simp] theorem LmbProperty.extent_start (p : LmbProperty) : p.extent.start = p.base := rfl
@[simp] theorem LmbProperty.extent_len (p : LmbProperty) : p.extent.len = p.size := rfl
@[simp] theorem LmbProperty.extent_stop (p : LmbProperty) : p.extent.stop = p.base + p.size := rfl

def LmbRegion.extents (t : LmbRegion) (i : Nat) : Extent := (t.region i).extent

/-- The addresses a table covers. -/
def LmbRegion.covered (t : LmbRegion) : Set Nat := cover t.cnt t.extents

/-- The invariant of a table in use: at most `MAX_LMB_REGIONS` regions, none of which
    reaches the end of the address space, each apart from its neighbours. -/
structure LmbRegion.Ok (t : LmbRegion) : Prop where
  cnt_le : t.cnt ≤ maxLmbRegions
  bound : ∀ i < t.cnt, (t.region i).base + (t.region i).size < 4294967296
  apart : Apart t.cnt t.extents

variable {t : LmbRegion} {i base size : Nat}

theorem LmbRegion.region_set_self (t : LmbRegion) (i : Nat) (p : LmbProperty) :
    (t.set i p).region i = p := Function.update_self ..

theorem LmbRegion.region_set_of_ne (t : LmbRegion) {i j : Nat} (p : LmbProperty) (h : j ≠ i) :
    (t.set i p).region j = t.region j := Function.update_of_ne h ..

theorem LmbRegion.extents_set (t : LmbRegion) (i : Nat) (p : LmbProperty) :
    (t.set i p).extents = Function.update t.extents i p.extent := by
  funext j
  rw [LmbRegion.extents]
  by_cases hj : j = i
  · rw [hj, region_set_self, Function.update_self]
  · rw [region_set_of_ne t p hj, Function.update_of_ne hj]
    rfl

/-! ## Removing -/

/-- The loop of `lmb_remove_region` moves what lies above the removed entry. -/
theorem shiftDown_eq (f : Nat → LmbProperty) (r n j : Nat) :
    ((List.range' r n).foldl (fun f i => Function.update f i (f (i + 1))) f) j =
      if r ≤ j ∧ j < r + n then f (j + 1) else f j := by
  induction n generalizing j with
  | zero => simp
  | succ n ih =>
    rw [List.range'_concat, List.foldl_append, List.foldl_cons, List.foldl_nil, Nat.one_mul]
    by_cases hj : j = r + n
    · rw [hj, Function.update_self, ih, if_neg (by omega), if_pos (by omega)]
    · rw [Function.update_of_ne hj, ih]
      by_cases hin : r ≤ j ∧ j < r + n
      · rw [if_pos hin, if_pos (by omega)]
      · rw [if_neg hin, if_neg (by omega)]

/-- Removing entry `r` of a table that has one. -/
theorem lmbRemoveRegion_spec {r n : Nat} (hcnt : t.cnt = n + 1) (hn : n < 4294967296) :
    (lmbRemoveRegion t r).cnt = n ∧
      ∀ i < n, (lmbRemoveRegion t r).extents i = removeAt r t.extents i := by
  have hsub : usub t.cnt 1 = n := by
    simp only [usub, u32]
    omega
  refine ⟨hsub, fun i hi => ?_⟩
  rw [LmbRegion.extents, lmbRemoveRegion, hsub]
  dsimp only
  rw [shiftDown_eq, removeAt]
  by_cases hlt : i < r
  · rw [if_neg (by omega), if_pos hlt]; rfl
  · rw [if_pos (by omega), if_neg hlt]; rfl

/-- The invariant survives the removal of an entry, whose addresses go. -/
theorem LmbRegion.Ok.remove (h : t.Ok) {r : Nat} (hr : r < t.cnt) :
    (lmbRemoveRegion t r).Ok ∧
      (lmbRemoveRegion t r).covered = t.covered \ (t.region r).extent.cells := by
  obtain ⟨n, hn⟩ : ∃ n, t.cnt = n + 1 := ⟨t.cnt - 1, by omega⟩
  have hle := h.cnt_le
  have hap := h.apart
  simp only [maxLmbRegions] at hle
  obtain ⟨hcnt, hext⟩ := lmbRemoveRegion_spec (r := r) hn (by omega)
  rw [hn] at hap
  have hrem := hap.removeAt r
  refine ⟨⟨by rw [hcnt, maxLmbRegions]; omega, fun i hi => ?_, ?_⟩, ?_⟩
  · rw [hcnt] at hi
    have hi' := hext i hi
    have hb : (t.region i).base + (t.region i).size < 4294967296 := h.bound i (by omega)
    have hb' : (t.region (i + 1)).base + (t.region (i + 1)).size < 4294967296 :=
      h.bound (i + 1) (by omega)
    show ((lmbRemoveRegion t r).extents i).stop < _
    rw [hi', removeAt]
    split
    · exact hb
    · exact hb'
  · rw [hcnt]
    exact hrem.congr hext
  · rw [LmbRegion.covered, hcnt, cover_congr hext, hap.cover_removeAt (by omega), LmbRegion.covered, hn]
    rfl

/-! ## Adjacency -/

/-- Adjacency of regions that do not wrap. -/
theorem lmbAddrsAdjacent_ne_zero {b₁ s₁ b₂ s₂ : Nat} (h₁ : b₁ + s₁ < 4294967296)
    (h₂ : b₂ + s₂ < 4294967296) :
    lmbAddrsAdjacent b₁ s₁ b₂ s₂ ≠ 0 ↔ b₂ = b₁ + s₁ ∨ b₁ = b₂ + s₂ := by
  rw [lmbAddrsAdjacent, u32_of_lt h₁, u32_of_lt h₂]
  split
  · rename_i h
    simp [h]
  · rename_i h
    split
    · rename_i h'
      simp [h']
    · rename_i h'
      simp [h, h']

theorem lmbAddrsAdjacent_pos {b₁ s₁ b₂ s₂ : Nat} (h₁ : b₁ + s₁ < 4294967296) :
    lmbAddrsAdjacent b₁ s₁ b₂ s₂ > 0 ↔ b₂ = b₁ + s₁ := by
  rw [lmbAddrsAdjacent, u32_of_lt h₁]
  split
  · rename_i h
    simp [h]
  · rename_i h
    split <;> simp [h]

/-- `[base, base + size)` meets no region of `t`. -/
def LmbRegion.Clear (t : LmbRegion) (base size : Nat) : Prop :=
  ∀ i < t.cnt, (t.region i).base + (t.region i).size ≤ base ∨ base + size ≤ (t.region i).base

/-- What the search for an adjacent entry finds. -/
theorem findAdjacent_some (h : t.Ok) (hsize : 0 < size) (hb : base + size < 4294967296)
    (hclear : t.Clear base size) (hf : findAdjacent t base size = some i) :
    i < t.cnt ∧
      ((t.region i).base = base + size ∨ base = (t.region i).base + (t.region i).size) ∧
      ∀ j < i, base ≠ (t.region j).base + (t.region j).size := by
  rw [findAdjacent, List.find?_range_eq_some] at hf
  obtain ⟨hp, hi, hbefore⟩ := hf
  have hi' : i < t.cnt := List.mem_range.mp hi
  have hne : ¬ ((t.region i).base = base ∧ (t.region i).size = size) := by
    intro heq
    have := hclear i hi'
    omega
  refine ⟨hi', ?_, fun j hj heq => ?_⟩
  · simp only [hne, decide_false, Bool.false_or, decide_eq_true_eq] at hp
    exact (lmbAddrsAdjacent_ne_zero hb (h.bound i hi')).mp hp
  · have hno := hbefore j hj
    simp only [Bool.not_eq_true', Bool.or_eq_false_iff, decide_eq_false_iff_not, not_not] at hno
    exact (lmbAddrsAdjacent_ne_zero hb (h.bound j (by omega))).mpr (.inr heq) hno.2

theorem findAdjacent_none (h : t.Ok) (hb : base + size < 4294967296)
    (hf : findAdjacent t base size = none) (j : Nat) (hj : j < t.cnt) :
    (t.region j).base ≠ base + size ∧ base ≠ (t.region j).base + (t.region j).size := by
  rw [findAdjacent, List.find?_eq_none] at hf
  have hno := hf j (List.mem_range.mpr hj)
  simp only [Bool.or_eq_true, decide_eq_true_eq, not_or, not_not] at hno
  have hadj := (lmbAddrsAdjacent_ne_zero hb (h.bound j hj)).not.mp (not_not.mpr hno.2)
  exact not_or.mp hadj

/-- Neighbours in a table in use are not adjacent. -/
theorem LmbRegion.Ok.not_adjacent (h : t.Ok) (hi : i + 1 < t.cnt) :
    lmbRegionsAdjacent t i (i + 1) = 0 := by
  have hgap : (t.region i).base + (t.region i).size < (t.region (i + 1)).base :=
    h.apart.gap i (i + 1) (Nat.lt_succ_self i) hi
  have hadj := (lmbAddrsAdjacent_ne_zero (h.bound i (by omega)) (h.bound (i + 1) hi)).not.mpr
    (by omega)
  exact not_not.mp hadj

/-! ## Changing an entry -/

/-- The invariant survives the change of an entry to one that stays apart from the
    entries below and above. -/
theorem LmbRegion.Ok.set (h : t.Ok) {p : LmbProperty} (hp : 0 < p.size)
    (hbound : p.base + p.size < 4294967296)
    (hbelow : ∀ j < i, (t.region j).base + (t.region j).size < p.base)
    (habove : ∀ j, i < j → j < t.cnt → p.base + p.size < (t.region j).base) : (t.set i p).Ok := by
  refine ⟨h.cnt_le, fun j hj => ?_, ?_⟩
  · by_cases hji : j = i
    · rw [hji, region_set_self]
      exact hbound
    · rw [region_set_of_ne t _ hji]
      exact h.bound j hj
  · rw [extents_set]
    exact h.apart.update hp hbelow habove

/-- Growing an entry adds addresses. -/
theorem LmbRegion.covered_set_union {p : LmbProperty} {s : Set Nat} (hi : i < t.cnt)
    (hp : p.extent.cells = (t.region i).extent.cells ∪ s) : (t.set i p).covered = t.covered ∪ s := by
  rw [covered, extents_set]
  exact cover_update_union hi hp

/-- Removing an entry and changing a lower one commute. -/
theorem lmbRemoveRegion_set {r : Nat} (hi : i < r) (p : LmbProperty) :
    lmbRemoveRegion (t.set i p) r = (lmbRemoveRegion t r).set i p := by
  simp only [lmbRemoveRegion, LmbRegion.set, LmbRegion.mk.injEq, true_and]
  funext j
  rw [shiftDown_eq]
  by_cases hj : j = i
  · rw [hj, if_neg (by omega), Function.update_self, Function.update_self]
  · rw [Function.update_of_ne hj, Function.update_of_ne hj, shiftDown_eq]
    by_cases hin : r ≤ j ∧ j < r + (usub t.cnt 1 - r)
    · rw [if_pos hin, if_pos hin, Function.update_of_ne (by omega)]
    · rw [if_neg hin, if_neg hin]

/-! ## Coalescing -/

/-- An entry that ends where the region begins grows upwards. -/
theorem growRegion_up (h : t.Ok) (hsize : 0 < size) (hi : i < t.cnt) (hb : base + size < 4294967296)
    (hadj : base = (t.region i).base + (t.region i).size) :
    growRegion t i base size = t.set i ⟨(t.region i).base, (t.region i).size + size⟩ := by
  have hpos : 0 < (t.region i).size := h.apart.nonempty i hi
  have hadj' := (@lmbAddrsAdjacent_pos base size (t.region i).base (t.region i).size hb).not.mpr (by omega)
  rw [growRegion, if_neg hadj', u32_of_lt (by omega)]

/-- Entries above that one begin behind the region. -/
theorem le_above (h : t.Ok) (hclear : t.Clear base size)
    (hadj : base = (t.region i).base + (t.region i).size) (j : Nat) (hij : i < j)
    (hj : j < t.cnt) : base + size ≤ (t.region j).base := by
  have hgap : (t.region i).base + (t.region i).size < (t.region j).base := h.apart.gap i j hij hj
  have hcl := hclear j hj
  omega

section Grow

variable (h : t.Ok) (hsize : 0 < size) (hi : i < t.cnt) (hclear : t.Clear base size)
include h hsize hi hclear

/-- The first adjacent entry grows downwards: it keeps apart from all others. -/
theorem growRegion_down (hadj : (t.region i).base = base + size)
    (hfirst : ∀ j < i, base ≠ (t.region j).base + (t.region j).size) :
    growRegion t i base size = t.set i ⟨base, (t.region i).size + size⟩ ∧
      (growRegion t i base size).Ok ∧
      (growRegion t i base size).covered = t.covered ∪ (⟨base, size⟩ : Extent).cells := by
  have hbi := h.bound i hi
  have hgrow : growRegion t i base size = t.set i ⟨base, (t.region i).size + size⟩ := by
    have hadj' := (@lmbAddrsAdjacent_pos base size (t.region i).base (t.region i).size (by omega)).mpr hadj
    rw [growRegion, if_pos hadj', usub_of_le (by omega) (by omega), u32_of_lt (by omega), hadj,
      Nat.add_sub_cancel]
  refine ⟨hgrow, ?_⟩
  rw [hgrow]
  refine ⟨h.set (Nat.add_pos_right _ hsize) (by dsimp only; omega) (fun j hj => ?_)
    fun j hij hj => ?_, LmbRegion.covered_set_union hi ?_⟩
  · -- a lower entry ends below `base`: it does not meet the region and is not adjacent
    have hgap : (t.region j).base + (t.region j).size < (t.region i).base := h.apart.gap j i hj hi
    have hne := hfirst j hj
    have hcl := hclear j (by omega)
    have hposj : 0 < (t.region j).size := h.apart.nonempty j (by omega)
    show (t.region j).base + (t.region j).size < base
    omega
  · have hgap : (t.region i).base + (t.region i).size < (t.region j).base := h.apart.gap i j hij hj
    show base + ((t.region i).size + size) < (t.region j).base
    omega
  · ext x
    simp only [Extent.mem_cells, Set.mem_union, Extent.stop, LmbProperty.extent]
    omega

/-- Upwards without reaching the next entry. -/
theorem growRegion_up_alone (hb : base + size < 4294967296)
    (hadj : base = (t.region i).base + (t.region i).size)
    (hnext : i + 1 < t.cnt → base + size ≠ (t.region (i + 1)).base) :
    (growRegion t i base size).Ok ∧
      (growRegion t i base size).covered = t.covered ∪ (⟨base, size⟩ : Extent).cells := by
  rw [growRegion_up h hsize hi hb hadj]
  refine ⟨h.set (Nat.add_pos_right _ hsize) (by dsimp only; omega) (fun j hj => ?_)
    fun j hij hj => ?_, LmbRegion.covered_set_union hi ?_⟩
  · exact h.apart.gap j i hj hi
  · have hle := le_above h hclear hadj (i + 1) (by omega) (by omega)
    have hne := hnext (by omega)
    show (t.region i).base + ((t.region i).size + size) < (t.region j).base
    by_cases hj1 : j = i + 1
    · rw [hj1]; omega
    · have hgap : (t.region (i + 1)).base < (t.region j).base :=
        h.apart.starts_lt (show i + 1 < j by omega) hj
      omega
  · ext x
    simp only [Extent.mem_cells, Set.mem_union, Extent.stop, LmbProperty.extent]
    omega

omit hclear in
/-- Upwards up to the next entry, which is swallowed. -/
theorem growRegion_up_coalesce (hb : base + size < 4294967296)
    (hadj : base = (t.region i).base + (t.region i).size) (hlt : i + 1 < t.cnt)
    (hnext : base + size = (t.region (i + 1)).base) :
    (lmbCoalesceRegions (growRegion t i base size) i (i + 1)).Ok ∧
      (lmbCoalesceRegions (growRegion t i base size) i (i + 1)).covered =
        t.covered ∪ (⟨base, size⟩ : Extent).cells := by
  have hbn := h.bound (i + 1) hlt
  have hpn : 0 < (t.region (i + 1)).size := h.apart.nonempty (i + 1) hlt
  have hne : i + 1 ≠ i := by omega
  rw [growRegion_up h hsize hi hb hadj]
  -- the entry becomes the hull of itself, the region and the next entry
  have hco : lmbCoalesceRegions (t.set i ⟨(t.region i).base, (t.region i).size + size⟩) i (i + 1) =
      (lmbRemoveRegion t (i + 1)).set i
        ⟨(t.region i).base, (t.region i).size + size + (t.region (i + 1)).size⟩ := by
    rw [lmbCoalesceRegions, LmbRegion.region_set_self, LmbRegion.region_set_of_ne t _ hne,
      lmbRemoveRegion_set (by omega), lmbRemoveRegion_set (by omega), u32_of_lt (by dsimp only; omega)]
    rw [LmbRegion.set, LmbRegion.set, LmbRegion.set, Function.update_idem]
  obtain ⟨hok, hcov⟩ := h.remove hlt
  obtain ⟨n, hn⟩ : ∃ n, t.cnt = n + 1 := ⟨t.cnt - 1, by omega⟩
  have hle := h.cnt_le
  simp only [maxLmbRegions] at hle
  obtain ⟨hcnt, hext⟩ := lmbRemoveRegion_spec (r := i + 1) hn (by omega)
  have hlow (j : Nat) (hj : j < i + 1) : (lmbRemoveRegion t (i + 1)).extents j = t.extents j := by
    rw [hext j (by omega), removeAt, if_pos hj]
  have hhigh (j : Nat) (hj : i + 1 ≤ j) (hjn : j < n) :
      (lmbRemoveRegion t (i + 1)).extents j = t.extents (j + 1) := by
    rw [hext j hjn, removeAt, if_neg (by omega)]
  rw [hco]
  refine ⟨hok.set (by dsimp only; omega) (by dsimp only; omega) (fun j hj => ?_) fun j hij hj => ?_, ?_⟩
  · show ((lmbRemoveRegion t (i + 1)).extents j).stop < _
    rw [hlow j (by omega)]
    exact h.apart.gap j i hj hi
  · rw [hcnt] at hj
    show _ < ((lmbRemoveRegion t (i + 1)).extents j).start
    rw [hhigh j (by omega) hj]
    have hgap : (t.region (i + 1)).base + (t.region (i + 1)).size < (t.extents (j + 1)).start :=
      h.apart.gap (i + 1) (j + 1) (by omega) (by omega)
    dsimp only
    omega
  · have hcell : ((lmbRemoveRegion t (i + 1)).region i).extent.cells = (t.region i).extent.cells :=
      congrArg Extent.cells (hlow i (by omega))
    rw [LmbRegion.covered_set_union (by omega : i < (lmbRemoveRegion t (i + 1)).cnt)
      (s := (⟨base, size⟩ : Extent).cells ∪ (t.region (i + 1)).extent.cells), hcov]
    · ext x
      have hsub : x ∈ (t.region (i + 1)).extent.cells → x ∈ t.covered := fun hx => ⟨i + 1, hlt, hx⟩
      simp only [Set.mem_union, Set.mem_sdiff]
      grind
    · rw [hcell]
      ext x
      simp only [Extent.mem_cells, Set.mem_union, Extent.stop, LmbProperty.extent]
      omega

end Grow

/-! ## Inserting -/

/-- The loop of the sorted insertion makes room for entry `k` and, unless that is the
    first one, fills it. -/
theorem insertLoop_eq {f : Nat → LmbProperty} {k n : Nat} (hk : k ≤ n)
    (hbelow : 0 < k → (f (k - 1)).base ≤ base)
    (habove : ∀ j, k ≤ j → j < n → base < (f j).base) (j : Nat) :
    insertLoop f base size n j =
      if j = k ∧ 0 < k then ⟨base, size⟩ else if k < j ∧ j ≤ n then f (j - 1) else f j := by
  induction n generalizing f with
  | zero => rw [insertLoop, if_neg (by omega), if_neg (by omega)]
  | succ n ih =>
    rw [insertLoop]
    by_cases hkn : k = n + 1
    · have hlast : (f n).base ≤ base := by simpa [hkn] using hbelow (by omega)
      rw [if_neg (by omega)]
      by_cases hj : j = n + 1
      · rw [hj, Function.update_self, if_pos (by omega)]
      · rw [Function.update_of_ne hj, if_neg (by omega), if_neg (by omega)]
    · rw [if_pos (habove n (by omega) (by omega)), ih (by omega)]
      · by_cases hj : j = n + 1
        · rw [hj, if_neg (by omega), if_neg (by omega), if_neg (by omega), if_pos (by omega),
            Function.update_self, Nat.add_sub_cancel]
        · by_cases hjk : k < j ∧ j ≤ n
          · rw [if_neg (by omega), if_pos hjk, if_neg (by omega), if_pos (by omega),
              Function.update_of_ne (by omega)]
          · rw [if_neg hjk, if_neg (by omega : ¬ (k < j ∧ j ≤ n + 1)), Function.update_of_ne hj]
      · intro hpos
        rw [Function.update_of_ne (by omega)]
        exact hbelow hpos
      · intro i hik hin
        rw [Function.update_of_ne (by omega)]
        exact habove i hik (by omega)

/-- The bases do not go down. -/
def LmbRegion.Sorted (t : LmbRegion) : Prop :=
  ∀ i j, i ≤ j → j < t.cnt → (t.region i).base ≤ (t.region j).base

theorem LmbRegion.Ok.sorted (h : t.Ok) : t.Sorted := by
  intro i j hij hj
  rcases Nat.lt_or_eq_of_le hij with hlt | rfl
  · exact (h.apart.starts_lt hlt hj).le
  · exact Nat.le_refl _

/-- The place of a region among the entries. -/
theorem LmbRegion.Sorted.rank (h : t.Sorted) (base : Nat) :
    ∃ k ≤ t.cnt, (∀ j < k, (t.region j).base ≤ base) ∧
      ∀ j, k ≤ j → j < t.cnt → base < (t.region j).base := by
  suffices hm : ∀ m ≤ t.cnt, ∃ k ≤ m, (∀ j < k, (t.region j).base ≤ base) ∧
      ∀ j, k ≤ j → j < m → base < (t.region j).base from hm t.cnt (Nat.le_refl _)
  intro m hm
  induction m with
  | zero => exact ⟨0, Nat.le_refl _, fun j hj => by omega, fun j _ hj => by omega⟩
  | succ m ih =>
    obtain ⟨k, hk, hlow, hhigh⟩ := ih (by omega)
    by_cases hb : base < (t.region m).base
    · refine ⟨k, by omega, hlow, fun j hkj hj => ?_⟩
      by_cases hjm : j = m
      · rw [hjm]; exact hb
      · exact hhigh j hkj (by omega)
    · refine ⟨m + 1, Nat.le_refl _, fun j hj => ?_, fun j hmj hj => by omega⟩
      have hle : (t.region j).base ≤ (t.region m).base := h j m (by omega) (by omega)
      omega

/-- The sorted insertion puts the region behind the entries that do not begin above it. -/
theorem lmbInsert_spec (h : t.Sorted) (hcnt : 0 < t.cnt) (hroom : t.cnt < maxLmbRegions) :
    (lmbInsert t base size).cnt = t.cnt + 1 ∧ ∃ k ≤ t.cnt, (∀ j < k, (t.region j).base ≤ base) ∧
      (∀ j, k ≤ j → j < t.cnt → base < (t.region j).base) ∧
      ∀ j < t.cnt + 1, (lmbInsert t base size).extents j = insertAt k ⟨base, size⟩ t.extents j := by
  obtain ⟨k, hk, hlow, hhigh⟩ := h.rank base
  simp only [maxLmbRegions] at hroom
  have hloop := @insertLoop_eq _ size _ _ _ hk (fun h0 => hlow (k - 1) (by omega)) hhigh
  have hfirst : insertLoop t.region base size t.cnt 0 = t.region 0 := by
    rw [hloop 0, if_neg (by omega), if_neg (by omega)]
  have hreg (j : Nat) (hj : j < t.cnt + 1) : (lmbInsert t base size).region j =
      if j < k then t.region j else if j = k then ⟨base, size⟩ else t.region (j - 1) := by
    rw [lmbInsert]
    dsimp only
    rw [hfirst]
    by_cases hk0 : k = 0
    · rw [if_pos (hhigh 0 (by omega) hcnt), if_neg (by omega)]
      by_cases hj0 : j = 0
      · rw [hj0, Function.update_self, if_pos (by omega)]
      · rw [Function.update_of_ne hj0, hloop j, if_neg (by omega), if_pos (by omega), if_neg (by omega)]
    · rw [if_neg (by have := hlow 0 (by omega); omega), hloop j]
      by_cases hjk : j < k
      · rw [if_neg (by omega), if_neg (by omega), if_pos hjk]
      · by_cases hje : j = k
        · rw [if_pos (by omega), if_neg hjk, if_pos hje]
        · rw [if_neg (by omega), if_pos (by omega), if_neg hjk, if_neg hje]
  refine ⟨u32_of_lt (by omega), k, hk, hlow, hhigh, fun j hj => ?_⟩
  rw [LmbRegion.extents, hreg j hj, insertAt]
  split
  · rfl
  · split <;> rfl

/-- The sorted insertion of a region that is not adjacent to any entry. -/
theorem LmbRegion.Ok.insert (h : t.Ok) (hcnt : 0 < t.cnt) (hroom : t.cnt < maxLmbRegions)
    (hsize : 0 < size) (hb : base + size < 4294967296) (hclear : t.Clear base size)
    (hadj : ∀ j < t.cnt, (t.region j).base ≠ base + size ∧
      base ≠ (t.region j).base + (t.region j).size) :
    (lmbInsert t base size).Ok ∧
      (lmbInsert t base size).covered = t.covered ∪ (⟨base, size⟩ : Extent).cells := by
  obtain ⟨hcnt', k, hk, hlow, hhigh, hext⟩ := @lmbInsert_spec t base size h.sorted hcnt hroom
  simp only [maxLmbRegions] at hroom
  have hapart : Apart (t.cnt + 1) (insertAt k ⟨base, size⟩ t.extents) := by
    refine h.apart.insertAt hk hsize (fun j hj => ?_) fun j hkj hj => ?_
    · have hle := hlow j hj
      have hcl := hclear j (by omega)
      have hne := hadj j (by omega)
      show (t.region j).base + (t.region j).size < base
      omega
    · have hlt := hhigh j hkj hj
      have hcl := hclear j hj
      have hne := hadj j hj
      have hpos : 0 < (t.region j).size := h.apart.nonempty j hj
      show base + size < (t.region j).base
      omega
  refine ⟨⟨by rw [hcnt', maxLmbRegions]; omega, fun j hj => ?_, ?_⟩, ?_⟩
  · rw [hcnt'] at hj
    show ((lmbInsert t base size).extents j).stop < _
    rw [hext j hj, insertAt]
    split
    · exact h.bound j (by omega)
    · split
      · exact hb
      · exact h.bound (j - 1) (by omega)
  · rw [hcnt']
    exact hapart.congr hext
  · rw [LmbRegion.covered, hcnt', cover_congr hext, cover_insertAt hk]
    rfl

/-! ## Adding a region -/

/-- **`lmb_add_region`** on a table in use that has an entry. -/
theorem lmbAddRegion_spec (h : t.Ok) (hcnt : 0 < t.cnt) (hsize : 0 < size)
    (hb : base + size < 4294967296) (hclear : t.Clear base size)
    (hret : 0 ≤ (lmbAddRegion t base size).1) :
    (lmbAddRegion t base size).2.Ok ∧
      (lmbAddRegion t base size).2.covered = t.covered ∪ (⟨base, size⟩ : Extent).cells := by
  have hle := h.cnt_le
  simp only [maxLmbRegions] at hle
  have hpos0 : 0 < (t.region 0).size := h.apart.nonempty 0 hcnt
  have hsub : usub t.cnt 1 = t.cnt - 1 := usub_of_le hcnt (by omega)
  rw [lmbAddRegion, if_neg (by omega)] at hret ⊢
  cases hf : findAdjacent t base size with
  | none =>
    rw [hf] at hret
    dsimp only at hret ⊢
    rw [if_neg (by omega)] at hret ⊢
    by_cases hfull : t.cnt ≥ maxLmbRegions
    · rw [if_pos hfull] at hret
      exact absurd hret (by simp)
    · rw [if_neg hfull]
      exact h.insert hcnt (by omega) hsize hb hclear (findAdjacent_none h hb hf)
  | some i =>
    obtain ⟨hi, hadj, hfirst⟩ := findAdjacent_some h hsize hb hclear hf
    have hclear_i := hclear i hi
    have hcnt' : (growRegion t i base size).cnt = t.cnt := by
      rw [growRegion]
      split <;> rfl
    -- where the grown entry is apart from the next one the loop ends here
    have hstay (hgrown : (growRegion t i base size).Ok) :
        ¬ (i < t.cnt - 1 ∧ lmbRegionsAdjacent (growRegion t i base size) i (i + 1) ≠ 0) :=
      fun hc => hc.2 (hgrown.not_adjacent (by omega))
    dsimp only
    rw [if_neg (by omega), hcnt', hsub]
    rcases hadj with hdown | hup
    · obtain ⟨-, hok, hcov⟩ := growRegion_down h hsize hi hclear hdown hfirst
      rw [if_neg (hstay hok)]
      exact ⟨hok, hcov⟩
    · by_cases hnext : i + 1 < t.cnt ∧ base + size = (t.region (i + 1)).base
      · have hbn := h.bound (i + 1) hnext.1
        have hadj' : lmbRegionsAdjacent (growRegion t i base size) i (i + 1) ≠ 0 := by
          rw [growRegion_up h hsize hi hb hup, lmbRegionsAdjacent, LmbRegion.region_set_self,
            LmbRegion.region_set_of_ne t _ (by omega)]
          exact (lmbAddrsAdjacent_ne_zero (by dsimp only; omega) hbn).mpr (.inl (by dsimp only; omega))
        rw [if_pos ⟨by omega, hadj'⟩]
        exact growRegion_up_coalesce h hsize hi hb hup hnext.1 hnext.2
      · obtain ⟨hok, hcov⟩ := growRegion_up_alone h hsize hi hclear hb hup
          fun hi1 heq => hnext ⟨hi1, heq⟩
        rw [if_neg (hstay hok)]
        exact ⟨hok, hcov⟩

/-- The table `lmb_init` leaves. -/
def LmbRegion.IsDummy (t : LmbRegion) : Prop := t.cnt = 1 ∧ t.region 0 = ⟨0, 0⟩

/-- The table is the initial one or in use, and covers `s`. -/
def LmbRegion.Inv (t : LmbRegion) (s : Set Nat) : Prop :=
  (t.IsDummy ∧ s = ∅) ∨ (t.Ok ∧ t.covered = s)

/-- What an empty table must still hold for a region to be recorded in it: `cnt - 1`
    has passed zero, so the first two entries, left over, are tested for adjacency and
    the first one is kept unless the region lies below it. -/
def LmbRegion.EmptyOk (t : LmbRegion) (base size : Nat) : Prop :=
  t.cnt = 0 → lmbRegionsAdjacent t 0 1 = 0 ∧
    (base < (t.region 0).base ∨ t.region 0 = ⟨base, size⟩)

/-- A region recorded in an empty table. -/
theorem lmbAddRegion_empty (hempty : t.EmptyOk base size) (hcnt : t.cnt = 0) :
    lmbAddRegion t base size = (0, lmbInsert t base size) ∧ (lmbInsert t base size).cnt = 1 ∧
      (lmbInsert t base size).region 0 = ⟨base, size⟩ := by
  obtain ⟨hadj, hfirst⟩ := hempty hcnt
  have hnone : findAdjacent t base size = none := by rw [findAdjacent, hcnt]; rfl
  refine ⟨?_, by rw [lmbInsert, hcnt]; rfl, ?_⟩
  · rw [lmbAddRegion, if_neg (by omega), hnone]
    dsimp only
    rw [hcnt, Nat.zero_add, if_neg (fun hc => hc.2 hadj), if_neg (by decide)]
  · rw [lmbInsert, hcnt, insertLoop]
    dsimp only
    rcases hfirst with hlt | heq
    · rw [if_pos hlt, Function.update_self]
    · rw [if_neg (by rw [heq]; exact Nat.lt_irrefl _), heq]

/-- A table of one region. -/
theorem ok_singleton {p : LmbProperty} (hcnt : t.cnt = 1) (hp : t.region 0 = p) (hsize : 0 < p.size)
    (hb : p.base + p.size < 4294967296) : t.Ok ∧ t.covered = p.extent.cells := by
  subst hp
  refine ⟨⟨by rw [hcnt]; decide, fun i hi => ?_, ?_⟩, ?_⟩
  · have hi0 : i = 0 := by omega
    rw [hi0]; exact hb
  · refine ⟨fun i hi => ?_, fun i j hij hj => by omega⟩
    have hi0 : i = 0 := by omega
    rw [hi0]; exact hsize
  · ext x
    rw [LmbRegion.covered, hcnt, mem_cover]
    constructor
    · rintro ⟨i, hi, hx⟩
      have hi0 : i = 0 := by omega
      rw [hi0] at hx; exact hx
    · exact fun hx => ⟨0, Nat.one_pos, hx⟩

/-- A region disjoint from what is covered meets no entry. -/
theorem LmbRegion.Ok.clear (h : t.Ok) (hsize : 0 < size)
    (hdisj : Disjoint (⟨base, size⟩ : Extent).cells t.covered) : t.Clear base size := by
  intro i hi
  by_contra hmeet
  have hpos : 0 < (t.region i).size := h.apart.nonempty i hi
  have h1 : max base (t.region i).base ∈ (⟨base, size⟩ : Extent).cells := by
    simp only [Extent.mem_cells, Extent.stop]
    omega
  have h2 : max base (t.region i).base ∈ (t.extents i).cells := by
    simp only [Extent.mem_cells, LmbRegion.extents, LmbProperty.extent_start,
      LmbProperty.extent_stop]
    omega
  exact Set.disjoint_left.mp hdisj h1 ⟨i, hi, h2⟩

/-- **`lmb_add_region`** keeps the invariant and adds the region's addresses. -/
theorem LmbRegion.Inv.add {s : Set Nat} (h : t.Inv s) (hsize : 0 < size) (hb : base + size < 4294967296)
    (hdisj : Disjoint (⟨base, size⟩ : Extent).cells s) (hempty : t.EmptyOk base size)
    (hret : 0 ≤ (lmbAddRegion t base size).1) :
    (lmbAddRegion t base size).2.Inv (s ∪ (⟨base, size⟩ : Extent).cells) := by
  right
  rcases h with ⟨⟨hcnt, h0⟩, rfl⟩ | ⟨hok, rfl⟩
  · -- the dummy entry becomes the region
    rw [lmbAddRegion, if_pos ⟨hcnt, by rw [h0]⟩, Set.empty_union]
    exact ok_singleton (p := ⟨base, size⟩) hcnt (region_set_self ..) hsize hb
  · rcases Nat.eq_zero_or_pos t.cnt with hcnt | hcnt
    · obtain ⟨hadd, hcnt', hreg⟩ := lmbAddRegion_empty hempty hcnt
      have hcov : t.covered = ∅ := by
        ext x
        rw [covered, hcnt, mem_cover]
        simp
      rw [hadd, hcov, Set.empty_union]
      exact ok_singleton (p := ⟨base, size⟩) hcnt' hreg hsize hb
    · exact lmbAddRegion_spec hok hcnt hsize hb (hok.clear hsize hdisj) hret

/-! ## Freeing -/

/-- Shrinking an entry takes addresses away. -/
theorem LmbRegion.Ok.covered_set_diff (h : t.Ok) {p : LmbProperty} {s : Set Nat} (hi : i < t.cnt)
    (hp : p.extent.cells = (t.region i).extent.cells \ s) (hs : s ⊆ (t.region i).extent.cells) :
    (t.set i p).covered = t.covered \ s := by
  rw [covered, extents_set]
  exact h.apart.cover_update_diff hi hp hs

/-- An entry may shrink inside its old bounds. -/
theorem LmbRegion.Ok.shrink (h : t.Ok) {p : LmbProperty} (hi : i < t.cnt) (hp : 0 < p.size)
    (hbase : (t.region i).base ≤ p.base)
    (hend : p.base + p.size ≤ (t.region i).base + (t.region i).size) : (t.set i p).Ok := by
  refine h.set hp (Nat.lt_of_le_of_lt hend (h.bound i hi)) (fun j hj => ?_) fun j hij hj => ?_
  · exact Nat.lt_of_lt_of_le (h.apart.gap j i hj hi) hbase
  · exact Nat.lt_of_le_of_lt hend (h.apart.gap i j hij hj)

/-- Entry `i` cut off at `base` leaves the rest of it, from `base + size` on, free. -/
theorem LmbRegion.Ok.cut (h : t.Ok) (hi : i < t.cnt) (hlow : (t.region i).base < base)
    (hhigh : base + size < (t.region i).base + (t.region i).size) :
    (t.set i ⟨(t.region i).base, base - (t.region i).base⟩).Ok ∧
      (t.set i ⟨(t.region i).base, base - (t.region i).base⟩).Clear (base + size)
        ((t.region i).base + (t.region i).size - (base + size)) := by
  refine ⟨h.shrink hi (by dsimp only; omega) (Nat.le_refl _) (by dsimp only; omega), fun j hj => ?_⟩
  by_cases hji : j = i
  · rw [hji, region_set_self]
    dsimp only
    omega
  · rw [region_set_of_ne t _ hji]
    rcases Nat.lt_or_gt_of_ne hji with hlt | hgt
    · have hgap : (t.region j).base + (t.region j).size < (t.region i).base := h.apart.gap j i hlt hi
      omega
    · have hgap : (t.region i).base + (t.region i).size < (t.region j).base := h.apart.gap i j hgt hj
      omega

/-- Freeing a part of entry `i` takes its addresses away. -/
theorem freeIn_spec (h : t.Ok) (hi : i < t.cnt) (hlow : (t.region i).base ≤ base)
    (hhigh : base + size ≤ (t.region i).base + (t.region i).size)
    (hret : 0 ≤ (freeIn t i base size).1) :
    (freeIn t i base size).2.Ok ∧
      (freeIn t i base size).2.covered = t.covered \ (⟨base, size⟩ : Extent).cells := by
  have hbi := h.bound i hi
  have hpos : 0 < (t.region i).size := h.apart.nonempty i hi
  have hsub : (⟨base, size⟩ : Extent).cells ⊆ (t.region i).extent.cells := by
    intro x hx
    simp only [Extent.mem_cells, Extent.stop, LmbProperty.extent] at hx ⊢
    omega
  rw [freeIn] at hret ⊢
  simp only [u32_of_lt hbi, u32_of_lt (Nat.lt_of_le_of_lt hhigh hbi)] at hret ⊢
  by_cases hall : (t.region i).base = base ∧
      (t.region i).base + (t.region i).size = base + size
  · -- the whole region
    have hcells : (t.region i).extent = ⟨base, size⟩ := by
      rw [LmbProperty.extent, hall.1]
      congr 1
      omega
    rw [if_pos hall]
    obtain ⟨hok, hcov⟩ := h.remove hi
    exact ⟨hok, by rw [hcov, hcells]⟩
  rw [if_neg hall] at hret ⊢
  by_cases hfront : (t.region i).base = base
  · rw [if_pos hfront, usub_of_le (by omega) (by omega)]
    refine ⟨h.shrink hi (by dsimp only; omega) (by dsimp only; omega) (by dsimp only; omega),
      h.covered_set_diff hi ?_ hsub⟩
    ext x
    simp only [Extent.mem_cells, Set.mem_sdiff, Extent.stop, LmbProperty.extent]
    omega
  rw [if_neg hfront] at hret ⊢
  by_cases hback : (t.region i).base + (t.region i).size = base + size
  · rw [if_pos hback, usub_of_le (by omega) (by omega)]
    refine ⟨h.shrink hi (by dsimp only; omega) (Nat.le_refl _) (by dsimp only; omega),
      h.covered_set_diff hi ?_ hsub⟩
    ext x
    simp only [Extent.mem_cells, Set.mem_sdiff, Extent.stop, LmbProperty.extent]
    omega
  -- split: the front stays, the back is added again
  rw [if_neg hback, usub_of_le hlow (by omega), usub_of_le hhigh hbi] at hret ⊢
  have hlt : (t.region i).base < base := by omega
  have hmid : base + size < (t.region i).base + (t.region i).size := by omega
  obtain ⟨hfok, hfclear⟩ := h.cut hi hlt hmid
  generalize hfr : t.set i ⟨(t.region i).base, base - (t.region i).base⟩ = front at *
  have hfcov : front.covered = t.covered \
      (⟨base, (t.region i).base + (t.region i).size - base⟩ : Extent).cells := by
    rw [← hfr]
    refine h.covered_set_diff hi ?_ ?_
    · ext x
      simp only [Extent.mem_cells, Set.mem_sdiff, Extent.stop, LmbProperty.extent]
      omega
    · intro x hx
      simp only [Extent.mem_cells, Extent.stop, LmbProperty.extent] at hx ⊢
      omega
  have hfcnt : front.cnt = t.cnt := by rw [← hfr]; rfl
  obtain ⟨hok, hcov⟩ := lmbAddRegion_spec hfok (by omega) (by omega) (by omega) hfclear hret
  refine ⟨hok, ?_⟩
  rw [hcov, hfcov]
  ext x
  have hmem : x ∈ (t.region i).extent.cells → x ∈ t.covered :=
    fun hx => ⟨i, hi, hx⟩
  simp only [Extent.mem_cells, Set.mem_sdiff, Set.mem_union, Extent.stop, LmbProperty.extent]
    at hmem ⊢
  by_cases hxc : x ∈ t.covered
  · simp only [hxc, true_and]
    omega
  · have hout := mt hmem hxc
    simp only [hxc, false_and, false_or, iff_false]
    omega

/-- The search of `lmb_free` finds an entry the range lies in. -/
theorem findFree_spec (h : t.Ok) {i₀ : Nat} (hi₀ : i₀ < t.cnt) (hlow : (t.region i₀).base ≤ base)
    (hhigh : base + size ≤ (t.region i₀).base + (t.region i₀).size) :
    ∃ i, findFree t base size = some i ∧ i < t.cnt ∧ (t.region i).base ≤ base ∧
      base + size ≤ (t.region i).base + (t.region i).size := by
  have hfin := u32_of_lt (Nat.lt_of_le_of_lt hhigh (h.bound i₀ hi₀))
  cases hf : findFree t base size with
  | none =>
    rw [findFree, List.find?_eq_none] at hf
    have hno := hf i₀ (List.mem_range.mpr hi₀)
    simp only [Bool.and_eq_true, decide_eq_true_eq, hfin, u32_of_lt (h.bound i₀ hi₀)] at hno
    exact absurd ⟨hlow, hhigh⟩ hno
  | some i =>
    rw [findFree, List.find?_range_eq_some] at hf
    obtain ⟨hp, hi, -⟩ := hf
    have hi' := List.mem_range.mp hi
    simp only [Bool.and_eq_true, decide_eq_true_eq, hfin, u32_of_lt (h.bound i hi')] at hp
    exact ⟨i, rfl, hi', hp⟩

/-- **`lmb_free`** of a part of one region takes its addresses away. -/
theorem lmbFree_spec {l : Lmb} (h : l.reserved.Ok)
    (hin : ∃ i < l.reserved.cnt, (l.reserved.region i).base ≤ base ∧
      base + size ≤ (l.reserved.region i).base + (l.reserved.region i).size)
    (hret : 0 ≤ (lmbFree l base size).1) :
    (lmbFree l base size).2.reserved.Ok ∧
      (lmbFree l base size).2.reserved.covered =
        l.reserved.covered \ (⟨base, size⟩ : Extent).cells := by
  obtain ⟨i₀, hi₀, hlow₀, hhigh₀⟩ := hin
  obtain ⟨i, hf, hi, hlow, hhigh⟩ := findFree_spec h hi₀ hlow₀ hhigh₀
  rw [lmbFree, hf] at hret ⊢
  exact freeIn_spec h hi hlow hhigh hret

/-! ## Allocating -/

theorem lmbAlignDown_le (addr align : Nat) : lmbAlignDown addr align ≤ addr := Nat.and_le_left

/-- A reserved region that is found to overlap begins below the end of the candidate. -/
theorem lmbOverlapsRegion_some {r : LmbRegion} {j : Nat} (hj : lmbOverlapsRegion r base size = some j) :
    (r.region j).base < u32 (base + size) := by
  rw [lmbOverlapsRegion, List.find?_range_eq_some] at hj
  simp only [lmbAddrsOverlap, Bool.and_eq_true, decide_eq_true_eq] at hj
  exact hj.1.2

/-- Each candidate lies below the one before. -/
theorem next_candidate_lt {r : LmbRegion} {j align : Nat}
    (hj : lmbOverlapsRegion r base size = some j) (hge : ¬ (r.region j).base < size) :
    lmbAlignDown (usub (r.region j).base size) align + size ≤ (r.region j).base ∧
      lmbAlignDown (usub (r.region j).base size) align < base := by
  have hlt := lmbOverlapsRegion_some hj
  have hu := u32_lt (base + size)
  have hle : u32 (base + size) ≤ base + size := Nat.mod_le ..
  have hdown := lmbAlignDown_le (usub (r.region j).base size) align
  rw [usub_of_le (by omega) (by omega)] at hdown ⊢
  omega

/-- More fuel than the first candidate changes nothing. -/
theorem placeLoop_fuel (r : LmbRegion) (lmbbase size align : Nat) {fuel fuel' base : Nat}
    (h : base < fuel) (h' : base < fuel') :
    placeLoop r lmbbase size align fuel base = placeLoop r lmbbase size align fuel' base := by
  induction fuel generalizing base fuel' with
  | zero => omega
  | succ fuel ih =>
    obtain ⟨fuel', rfl⟩ : ∃ n, fuel' = n + 1 := ⟨fuel' - 1, by omega⟩
    rw [placeLoop, placeLoop]
    split
    · rename_i hin
      split
      · rfl
      · rename_i j hj
        split
        · rfl
        · rename_i hge
          have hlt := (@next_candidate_lt _ _ _ _ align hj hge).2
          exact ih (by omega) (by omega)
    · rfl

/-- What the inner loop finds lies above `lmbbase`, ends no later than the first
    candidate would and overlaps no reserved region. -/
theorem placeLoop_spec {r : LmbRegion} {lmbbase size align fuel base place fin : Nat}
    (hb : base + size ≤ fin) (hp : placeLoop r lmbbase size align fuel base = some place) :
    place + size ≤ fin ∧ lmbOverlapsRegion r place size = none := by
  induction fuel generalizing base with
  | zero => exact absurd hp (by simp [placeLoop])
  | succ fuel ih =>
    rw [placeLoop] at hp
    split at hp
    · rename_i hin
      split at hp
      · rename_i hnone
        obtain rfl := Option.some.inj hp
        exact ⟨hb, hnone⟩
      · rename_i j hj
        split at hp
        · exact absurd hp (by simp)
        · rename_i hge
          have hlt := lmbOverlapsRegion_some hj
          have hu : u32 (base + size) ≤ base + size := Nat.mod_le ..
          exact ih (by have := (@next_candidate_lt _ _ _ _ align hj hge).1; omega) hp
    · exact absurd hp (by simp)

/-- The first candidate leaves room for `size` bytes below the end of the region. -/
theorem firstCandidate_spec {p : LmbProperty} {size align maxAddr base : Nat}
    (hbound : p.base + p.size < 4294967296) (hmax : maxAddr = 0 ∨ size ≤ maxAddr)
    (hc : firstCandidate p size align maxAddr = some base) : base + size ≤ p.base + p.size := by
  rw [firstCandidate, u32_of_lt hbound] at hc
  split at hc
  · exact absurd hc (by simp)
  split at hc
  · obtain rfl := Option.some.inj hc
    have hdown := lmbAlignDown_le (usub (p.base + p.size) size) align
    rw [usub_of_le (by omega) hbound] at hdown ⊢
    omega
  split at hc
  · obtain rfl := Option.some.inj hc
    have hdown := lmbAlignDown_le (usub (min (p.base + p.size) maxAddr) size) align
    rw [usub_of_le (by omega) (by omega)] at hdown ⊢
    omega
  · exact absurd hc (by simp)

/-- **The search of `lmb_alloc_base`.**  In memory that does not reach the end of the
    address space it finds a place for `size` bytes that overlaps no reserved region. -/
theorem findPlace_spec {l : Lmb} {size align maxAddr place n : Nat}
    (hmem : ∀ i < n, (l.memory.region i).base + (l.memory.region i).size < 4294967296)
    (hmax : maxAddr = 0 ∨ size ≤ maxAddr) (hp : findPlace l size align maxAddr n = some place) :
    place + size < 4294967296 ∧ lmbOverlapsRegion l.reserved place size = none := by
  induction n with
  | zero => exact absurd hp (by simp [findPlace])
  | succ n ih =>
    have ih := ih fun i hi => hmem i (by omega)
    have hbound := hmem n (by omega)
    rw [findPlace] at hp
    split at hp
    · exact ih hp
    · rename_i base hc
      have hroom := firstCandidate_spec hbound hmax hc
      split at hp
      · rename_i hloop
        obtain rfl := Option.some.inj hp
        obtain ⟨hfit, hnone⟩ := placeLoop_spec hroom hloop
        exact ⟨by omega, hnone⟩
      · exact ih hp

/-- No overlap found means none. -/
theorem clear_of_lmbOverlapsRegion (h : t.Ok) (hb : base + size < 4294967296)
    (hnone : lmbOverlapsRegion t base size = none) : t.Clear base size := by
  intro i hi
  rw [lmbOverlapsRegion, List.find?_eq_none] at hnone
  have hno := hnone i (List.mem_range.mpr hi)
  simp only [lmbAddrsOverlap, Bool.and_eq_true, decide_eq_true_eq, u32_of_lt hb,
    u32_of_lt (h.bound i hi)] at hno
  omega

/-- Entries that the region does not meet leave it disjoint from what they cover. -/
theorem LmbRegion.Clear.disjoint (h : t.Clear base size) :
    Disjoint (⟨base, size⟩ : Extent).cells t.covered := by
  rw [Set.disjoint_left]
  rintro x hx ⟨i, hi, hxi⟩
  have hcl := h i hi
  simp only [Extent.mem_cells, Extent.stop, LmbRegion.extents, LmbProperty.extent] at hx hxi
  omega

end Uboot.LibGeneric
