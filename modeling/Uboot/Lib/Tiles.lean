/-
  Uboot.Lib.Tiles

  Consecutive intervals: the end of one is the start of the next, as the banks of a flash and the
  sectors of a bank are.
-/

import Mathlib.Order.Lattice

namespace Uboot.Lib

variable {α : Type*} [LinearOrder α] {n : Nat} {lo hi : Nat → α}

/-- The intervals from `lo i` up to `hi i`, for `i` below `n`, one after the other. -/
structure Tiles (n : Nat) (lo hi : Nat → α) : Prop where
  lt : ∀ i, i < n → lo i < hi i
  next : ∀ i, i + 1 < n → hi i = lo (i + 1)

namespace Tiles

theorem hi_le_lo (h : Tiles n lo hi) {i j : Nat} (hij : i < j) (hj : j < n) : hi i ≤ lo j := by
  induction j with
  | zero => exact absurd hij (Nat.not_lt_zero i)
  | succ j ih =>
    rw [← h.next j hj]
    rcases Nat.lt_succ_iff_lt_or_eq.1 hij with hlt | rfl
    · exact (ih hlt (Nat.lt_of_succ_lt hj)).trans (h.lt j (Nat.lt_of_succ_lt hj)).le
    · exact le_rfl

theorem lo_le_lo (h : Tiles n lo hi) {i j : Nat} (hij : i ≤ j) (hj : j < n) : lo i ≤ lo j := by
  rcases Nat.lt_or_eq_of_le hij with hlt | rfl
  · exact (h.lt i (Nat.lt_trans hlt hj)).le.trans (h.hi_le_lo hlt hj)
  · exact le_rfl

theorem hi_le_hi (h : Tiles n lo hi) {i j : Nat} (hij : i ≤ j) (hj : j < n) : hi i ≤ hi j := by
  rcases Nat.lt_or_eq_of_le hij with hlt | rfl
  · exact (h.hi_le_lo hlt hj).trans (h.lt j hj).le
  · exact le_rfl

/-- An interval that starts before a point of another one is not after it. -/
theorem le_of_lt (h : Tiles n lo hi) {i j : Nat} {x y : α} (hi' : i < n) (hx : lo i ≤ x) (hy : y < hi j) (hxy : x ≤ y) :
    i ≤ j := by
  by_contra hlt
  exact absurd ((h.hi_le_lo (Nat.lt_of_not_le hlt) hi').trans hx) (not_le.2 (hxy.trans_lt hy))

/-- A point is in one interval only. -/
theorem unique (h : Tiles n lo hi) {i j : Nat} {x : α} (hin : i < n) (hjn : j < n) (hil : lo i ≤ x) (hih : x < hi i)
    (hjl : lo j ≤ x) (hjh : x < hi j) : i = j :=
  Nat.le_antisymm (h.le_of_lt hin hil hjh le_rfl) (h.le_of_lt hjn hjl hih le_rfl)

/-- There is no gap between two intervals. -/
theorem exists_mem (h : Tiles n lo hi) {i j : Nat} {x : α} (hj : j < n) (hij : i ≤ j) (hl : lo i ≤ x) (hh : x < hi j) :
    ∃ m, i ≤ m ∧ m ≤ j ∧ lo m ≤ x ∧ x < hi m := by
  induction j with
  | zero =>
    obtain rfl : i = 0 := Nat.le_zero.1 hij
    exact ⟨0, Nat.le_refl _, Nat.le_refl _, hl, hh⟩
  | succ j ih =>
    rcases Nat.lt_or_eq_of_le hij with hlt | rfl
    · rcases lt_or_ge x (hi j) with hx | hx
      · obtain ⟨m, him, hmj, hm⟩ := ih (Nat.lt_of_succ_lt hj) (Nat.le_of_lt_succ hlt) hx
        exact ⟨m, him, Nat.le_succ_of_le hmj, hm⟩
      · exact ⟨j + 1, hij, Nat.le_refl _, h.next j hj ▸ hx, hh⟩
    · exact ⟨j + 1, Nat.le_refl _, Nat.le_refl _, hl, hh⟩

end Tiles

end Uboot.Lib
