/-
  Uboot.Lib.Extent

  Half-open ranges `[start, start + len)` of block numbers, sectors or addresses,
  the set of cells a range or a list of ranges covers, and the order in which
  ranges that do not meet stand.

  Nothing here names the boot loader.
-/

import Mathlib.Data.Set.Lattice
import Mathlib.Order.CompletePartialOrder
import Mathlib.Order.Disjoint

namespace Uboot.Lib

/-- The range `[start, start + len)`. -/
structure Extent where
  start : Nat
  len : Nat
  deriving DecidableEq, Repr

namespace Extent

/-- The first cell after the range. -/
def stop (e : Extent) : Nat := e.start + e.len

/-- The cells of the range. -/
def cells (e : Extent) : Set Nat := {x | e.start ≤ x ∧ x < e.stop}

/-- `a` ends before `b` begins. -/
def Before (a b : Extent) : Prop := a.stop ≤ b.start

instance (a b : Extent) : Decidable (Before a b) := inferInstanceAs (Decidable (_ ≤ _))

@[simp] theorem mem_cells {e : Extent} {x : Nat} :
    x ∈ e.cells ↔ e.start ≤ x ∧ x < e.stop := Iff.rfl

/-- Ranges in order do not meet. -/
theorem Before.disjoint {a b : Extent} (h : Before a b) : Disjoint a.cells b.cells := by
  rw [Set.disjoint_left]
  intro x hx hy
  simp only [mem_cells, Before] at hx hy h
  omega

/-- A range inside another one: it has no cells, or its ends are inside. -/
theorem cells_subset_iff {a n b k : Nat} :
    (Extent.mk a n).cells ⊆ (Extent.mk b k).cells ↔ n = 0 ∨ (b ≤ a ∧ a + n ≤ b + k) := by
  constructor
  · intro h
    by_cases hn : n = 0
    · exact .inl hn
    · have hfirst := @h a ⟨Nat.le_refl a, by simp only [stop]; omega⟩
      have hlast := @h (a + n - 1) ⟨by dsimp only; omega, by simp only [stop]; omega⟩
      simp only [mem_cells, stop] at hfirst hlast
      omega
  · intro h x hx
    simp only [mem_cells, stop] at hx ⊢
    omega

/-! ## Chains -/

/-- The ranges, each behind the one before, go from `a` to `b`. -/
def Chain : Nat → List Extent → Nat → Prop
  | a, [], b => a = b
  | a, e :: es, b => e.start = a ∧ Chain e.stop es b

variable {a b c : Nat} {e : Extent} {es fs : List Extent}

theorem chain_append : Chain a (es ++ fs) c ↔ ∃ b, Chain a es b ∧ Chain b fs c := by
  induction es generalizing a with
  | nil => simp only [List.nil_append, Chain, exists_eq_left']
  | cons e es ih => simp only [List.cons_append, Chain, ih, and_assoc, exists_and_left]

/-- One more range at the end. -/
theorem Chain.concat (h : Chain a es b) (n : Nat) : Chain a (es ++ [⟨b, n⟩]) (b + n) :=
  chain_append.mpr ⟨b, h, rfl, rfl⟩

theorem Chain.unique (h : Chain a es b) (h' : Chain a es c) : b = c := by
  induction es generalizing a with
  | nil => exact Eq.trans (Eq.symm h) h'
  | cons e es ih => exact ih h.2 h'.2

theorem Chain.le (h : Chain a es b) : a ≤ b := by
  induction es generalizing a with
  | nil => exact Nat.le_of_eq h
  | cons e es ih =>
    obtain ⟨rfl, hrest⟩ := h
    exact Nat.le_trans (Nat.le_add_right _ _) (ih hrest)

/-- The ranges of a chain cover what lies between its ends. -/
theorem Chain.mem_cells_iff (h : Chain a es b) {x : Nat} : (∃ e ∈ es, x ∈ e.cells) ↔ a ≤ x ∧ x < b := by
  induction es generalizing a with
  | nil =>
    obtain rfl : a = b := h
    simp only [List.not_mem_nil, false_and, exists_false, false_iff]
    omega
  | cons e es ih =>
    obtain ⟨rfl, hrest⟩ := h
    have hle := hrest.le
    have hlen : e.start ≤ e.stop := Nat.le_add_right _ _
    simp only [List.mem_cons, exists_eq_or_imp, ih hrest]
    rw [mem_cells]
    omega

end Extent
end Uboot.Lib
