/-
  Uboot.Lib.ExtentTable

  Tables of extents kept sorted with a gap between neighbours: the first `n` values
  of a function from indices.  The three ways such a table changes (an entry
  replaced, taken out, put in) each come with a lemma for the order and one for the
  cells the table covers.

  Nothing here names the boot loader.
-/

import Uboot.Lib.Extent
import Mathlib.Logic.Function.Basic

namespace Uboot.Lib

/-- The first `n` extents are non-empty and stand in order, neighbours apart. -/
structure Apart (n : Nat) (f : Nat → Extent) : Prop where
  nonempty : ∀ i < n, 0 < (f i).len
  gap : ∀ i j, i < j → j < n → (f i).stop < (f j).start

/-- The cells of the first `n` extents. -/
def cover (n : Nat) (f : Nat → Extent) : Set Nat := {x | ∃ i < n, x ∈ (f i).cells}

/-- `f` without entry `k`. -/
def removeAt (k : Nat) (f : Nat → Extent) (i : Nat) : Extent := if i < k then f i else f (i + 1)

/-- `f` with `e` put in as entry `k`. -/
def insertAt (k : Nat) (e : Extent) (f : Nat → Extent) (i : Nat) : Extent :=
  if i < k then f i else if i = k then e else f (i - 1)

variable {n k : Nat} {f : Nat → Extent} {e : Extent}

/-! ## Order -/

/-- Only the first `n` entries count. -/
theorem Apart.congr {g : Nat → Extent} (h : Apart n f) (hfg : ∀ i < n, g i = f i) : Apart n g := by
  constructor
  · intro i hi
    rw [hfg i hi]
    exact h.nonempty i hi
  · intro i j hij hj
    rw [hfg i (by omega), hfg j hj]
    exact h.gap i j hij hj

theorem Apart.starts_lt (h : Apart n f) {i j : Nat} (hij : i < j) (hj : j < n) :
    (f i).start < (f j).start := by
  have hgap := h.gap i j hij hj
  simp only [Extent.stop] at hgap
  omega

/-- Each cell belongs to one entry. -/
theorem Apart.index_unique (h : Apart n f) {i j x : Nat} (hi : i < n) (hj : j < n)
    (hxi : x ∈ (f i).cells) (hxj : x ∈ (f j).cells) : i = j := by
  rw [Extent.mem_cells] at hxi hxj
  rcases Nat.lt_trichotomy i j with hij | hij | hij
  · have hgap := h.gap i j hij hj
    omega
  · exact hij
  · have hgap := h.gap j i hij hi
    omega

theorem Apart.update (h : Apart n f) (he : 0 < e.len)
    (hbelow : ∀ i < k, (f i).stop < e.start)
    (habove : ∀ j, k < j → j < n → e.stop < (f j).start) :
    Apart n (Function.update f k e) := by
  constructor
  · intro i hi
    by_cases hik : i = k
    · rw [hik, Function.update_self]; exact he
    · rw [Function.update_of_ne hik]; exact h.nonempty i hi
  · intro i j hij hj
    by_cases hik : i = k
    · rw [hik, Function.update_self, Function.update_of_ne (by omega)]
      exact habove j (by omega) hj
    · by_cases hjk : j = k
      · rw [hjk, Function.update_self, Function.update_of_ne hik]
        exact hbelow i (by omega)
      · rw [Function.update_of_ne hik, Function.update_of_ne hjk]
        exact h.gap i j hij hj

theorem Apart.removeAt (h : Apart (n + 1) f) (k : Nat) : Apart n (removeAt k f) := by
  constructor
  · intro i hi
    rw [Lib.removeAt]
    split
    · exact h.nonempty i (by omega)
    · exact h.nonempty (i + 1) (by omega)
  · intro i j hij hj
    simp only [Lib.removeAt]
    split <;> split
    · exact h.gap i j hij (by omega)
    · exact h.gap i (j + 1) (by omega) (by omega)
    · omega
    · exact h.gap (i + 1) (j + 1) (by omega) (by omega)

theorem Apart.insertAt (h : Apart n f) (hk : k ≤ n) (he : 0 < e.len)
    (hbelow : ∀ i < k, (f i).stop < e.start)
    (habove : ∀ j, k ≤ j → j < n → e.stop < (f j).start) :
    Apart (n + 1) (insertAt k e f) := by
  constructor
  · intro i hi
    simp only [Lib.insertAt]
    split
    · exact h.nonempty i (by omega)
    · split
      · exact he
      · exact h.nonempty (i - 1) (by omega)
  · intro i j hij hj
    simp only [Lib.insertAt]
    by_cases hik : i < k
    · rw [if_pos hik]
      by_cases hjk : j < k
      · rw [if_pos hjk]; exact h.gap i j hij (by omega)
      · rw [if_neg hjk]
        by_cases hje : j = k
        · rw [if_pos hje]; exact hbelow i hik
        · rw [if_neg hje]; exact h.gap i (j - 1) (by omega) (by omega)
    · rw [if_neg hik, if_neg (by omega : ¬ j < k), if_neg (by omega : ¬ j = k)]
      by_cases hie : i = k
      · rw [if_pos hie]; exact habove (j - 1) (by omega) (by omega)
      · rw [if_neg hie]; exact h.gap (i - 1) (j - 1) (by omega) (by omega)

/-! ## Cells -/

theorem mem_cover {x : Nat} : x ∈ cover n f ↔ ∃ i < n, x ∈ (f i).cells := Iff.rfl

theorem cover_congr {g : Nat → Extent} (hfg : ∀ i < n, g i = f i) : cover n g = cover n f := by
  ext x
  rw [mem_cover, mem_cover]
  exact exists_congr fun i => and_congr_right fun hi => by rw [hfg i hi]

theorem mem_cover_update {x : Nat} (hk : k < n) :
    x ∈ cover n (Function.update f k e) ↔ x ∈ e.cells ∨ ∃ i < n, i ≠ k ∧ x ∈ (f i).cells := by
  rw [mem_cover]
  constructor
  · rintro ⟨i, hi, hx⟩
    by_cases hik : i = k
    · rw [hik, Function.update_self] at hx; exact .inl hx
    · rw [Function.update_of_ne hik] at hx; exact .inr ⟨i, hi, hik, hx⟩
  · rintro (hx | ⟨i, hi, hik, hx⟩)
    · exact ⟨k, hk, by rw [Function.update_self]; exact hx⟩
    · exact ⟨i, hi, by rw [Function.update_of_ne hik]; exact hx⟩

theorem mem_cover_removeAt {x : Nat} (hk : k ≤ n) :
    x ∈ cover n (removeAt k f) ↔ ∃ i < n + 1, i ≠ k ∧ x ∈ (f i).cells := by
  rw [mem_cover]
  constructor
  · rintro ⟨i, hi, hx⟩
    rw [removeAt] at hx
    split at hx
    · exact ⟨i, by omega, by omega, hx⟩
    · exact ⟨i + 1, by omega, by omega, hx⟩
  · rintro ⟨i, hi, hik, hx⟩
    by_cases hlt : i < k
    · exact ⟨i, by omega, by rw [removeAt, if_pos hlt]; exact hx⟩
    · refine ⟨i - 1, by omega, ?_⟩
      rw [removeAt, if_neg (by omega), Nat.sub_add_cancel (by omega)]
      exact hx

theorem cover_insertAt (hk : k ≤ n) : cover (n + 1) (insertAt k e f) = cover n f ∪ e.cells := by
  ext x
  rw [Set.mem_union, mem_cover, mem_cover]
  constructor
  · rintro ⟨i, hi, hx⟩
    simp only [insertAt] at hx
    split at hx
    · exact .inl ⟨i, by omega, hx⟩
    · split at hx
      · exact .inr hx
      · exact .inl ⟨i - 1, by omega, hx⟩
  · rintro (⟨i, hi, hx⟩ | hx)
    · by_cases hlt : i < k
      · exact ⟨i, by omega, by rw [insertAt, if_pos hlt]; exact hx⟩
      · refine ⟨i + 1, by omega, ?_⟩
        rw [insertAt, if_neg (by omega), if_neg (by omega), Nat.add_sub_cancel]
        exact hx
    · exact ⟨k, by omega, by rw [insertAt, if_neg (by omega), if_pos rfl]; exact hx⟩

/-- Replacing an entry by one with more cells adds these. -/
theorem cover_update_union {s : Set Nat} (hk : k < n) (he : e.cells = (f k).cells ∪ s) :
    cover n (Function.update f k e) = cover n f ∪ s := by
  ext x
  rw [mem_cover_update hk, he, Set.mem_union, Set.mem_union, mem_cover]
  constructor
  · rintro ((hx | hx) | ⟨i, hi, -, hx⟩)
    · exact .inl ⟨k, hk, hx⟩
    · exact .inr hx
    · exact .inl ⟨i, hi, hx⟩
  · rintro (⟨i, hi, hx⟩ | hx)
    · by_cases hik : i = k
      · exact .inl (.inl (hik ▸ hx))
      · exact .inr ⟨i, hi, hik, hx⟩
    · exact .inl (.inr hx)

/-- Replacing an entry by one with fewer cells takes these away. -/
theorem Apart.cover_update_diff {s : Set Nat} (h : Apart n f) (hk : k < n)
    (he : e.cells = (f k).cells \ s) (hs : s ⊆ (f k).cells) :
    cover n (Function.update f k e) = cover n f \ s := by
  ext x
  rw [mem_cover_update hk, he, Set.mem_sdiff, Set.mem_sdiff, mem_cover]
  constructor
  · rintro (⟨hx, hxs⟩ | ⟨i, hi, hik, hx⟩)
    · exact ⟨⟨k, hk, hx⟩, hxs⟩
    · exact ⟨⟨i, hi, hx⟩, fun hxs => hik (h.index_unique hi hk hx (hs hxs))⟩
  · rintro ⟨⟨i, hi, hx⟩, hxs⟩
    by_cases hik : i = k
    · exact .inl ⟨hik ▸ hx, hxs⟩
    · exact .inr ⟨i, hi, hik, hx⟩

/-- Taking an entry out takes its cells away. -/
theorem Apart.cover_removeAt (h : Apart (n + 1) f) (hk : k ≤ n) :
    cover n (Lib.removeAt k f) = cover (n + 1) f \ (f k).cells := by
  ext x
  rw [mem_cover_removeAt hk, Set.mem_sdiff, mem_cover]
  constructor
  · rintro ⟨i, hi, hik, hx⟩
    exact ⟨⟨i, hi, hx⟩, fun hxk => hik (h.index_unique hi (by omega) hx hxk)⟩
  · rintro ⟨⟨i, hi, hx⟩, hxk⟩
    exact ⟨i, hi, fun hik => hxk (hik ▸ hx), hx⟩

end Uboot.Lib
