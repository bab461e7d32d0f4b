/-
  Uboot.Lib.Usable

  Storage in blocks of which some are bad: the addresses of a range that lie in
  good blocks, in order.  A driver that skips bad blocks reads and writes the head
  of that list.

  Nothing here names the boot loader.
-/

import Mathlib.Data.List.Range

namespace Uboot.Lib

/-- The addresses from `a` up to `b` in good blocks of `e` bytes. -/
def usable (e : Nat) (good : Nat → Bool) (a b : Nat) : List Nat :=
  (List.range' a (b - a)).filter fun x => good (x / e)

section Usable

variable {e : Nat} {good : Nat → Bool} {a b c x : Nat}

theorem mem_usable : x ∈ usable e good a b ↔ (a ≤ x ∧ x < b) ∧ good (x / e) := by
  rw [usable, List.mem_filter, List.mem_range'_1]
  constructor
  · rintro ⟨hx, hgood⟩
    exact ⟨by omega, hgood⟩
  · rintro ⟨hx, hgood⟩
    exact ⟨by omega, hgood⟩

theorem usable_of_le (h : b ≤ a) : usable e good a b = [] := by
  rw [usable, Nat.sub_eq_zero_of_le h]
  rfl

theorem usable_append (hac : a ≤ c) (hcb : c ≤ b) :
    usable e good a b = usable e good a c ++ usable e good c b := by
  have hsplit : List.range' a (b - a) = List.range' a (c - a) ++ List.range' c (b - c) := by
    rw [show b - a = (c - a) + (b - c) by omega, ← List.range'_append, Nat.one_mul,
      show a + (c - a) = c by omega]
  rw [usable, hsplit, List.filter_append]
  rfl

theorem usable_of_good (h : ∀ x, a ≤ x → x < b → good (x / e)) :
    usable e good a b = List.range' a (b - a) := by
  rw [usable, List.filter_eq_self]
  intro x hx
  rw [List.mem_range'_1] at hx
  exact h x hx.1 (by omega)

theorem usable_of_bad (h : ∀ x, a ≤ x → x < b → good (x / e) = false) :
    usable e good a b = [] := by
  rw [usable, List.filter_eq_nil_iff]
  intro x hx
  rw [List.mem_range'_1] at hx
  rw [h x hx.1 (by omega)]
  exact Bool.false_ne_true

theorem usable_length_le : (usable e good a b).length ≤ b - a := by
  have hle := List.length_filter_le (fun x => good (x / e)) (List.range' a (b - a))
  rw [List.length_range'] at hle
  exact hle

/-- A range whose addresses all count has no bad block. -/
theorem usable_eq_range' (h : b - a ≤ (usable e good a b).length) :
    usable e good a b = List.range' a (b - a) := by
  rw [usable, List.filter_eq_self]
  apply List.length_filter_eq_length_iff.mp
  apply Nat.le_antisymm (List.length_filter_le _ _)
  rw [List.length_range']
  exact h

-- ============================================================================
-- One block
-- ============================================================================

/-- Up to the end of its block an address stays in it. -/
theorem div_of_block (hax : a ≤ x) (hx : x < a + (e - a % e)) : x / e = a / e := by
  have hpos : 0 < e := by
    rcases Nat.eq_zero_or_pos e with rfl | hpos
    · omega
    · exact hpos
  have hmod := Nat.mod_lt a hpos
  have hdiv := Nat.div_add_mod a e
  apply Nat.div_eq_of_lt_le
  · rw [Nat.mul_comm]
    omega
  · rw [Nat.succ_mul, Nat.mul_comm]
    omega

/-- The end of a block does not pass a block boundary above. -/
theorem block_end_le (hb : e ∣ b) (hab : a < b) : a + (e - a % e) ≤ b := by
  obtain ⟨k, rfl⟩ := hb
  have hpos : 0 < e := Nat.pos_of_ne_zero (by rintro rfl; omega)
  have hdiv := Nat.div_add_mod a e
  have hlt : a / e < k := (Nat.div_lt_iff_lt_mul hpos).mpr (by rw [Nat.mul_comm]; exact hab)
  have hmul := Nat.mul_le_mul_left e (Nat.succ_le_of_lt hlt)
  rw [Nat.mul_succ] at hmul
  have hmod := Nat.mod_lt a hpos
  omega

theorem dvd_block_end (hpos : 0 < e) : e ∣ a + (e - a % e) := by
  have hdiv := Nat.div_add_mod a e
  have hmod := Nat.mod_lt a hpos
  exact ⟨a / e + 1, by rw [Nat.mul_succ]; omega⟩

theorem usable_good_block (hb : e ∣ b) (hab : a < b) (hgood : good (a / e) = true) :
    usable e good a b =
      List.range' a (e - a % e) ++ usable e good (a + (e - a % e)) b := by
  rw [usable_append (Nat.le_add_right a _) (block_end_le hb hab), usable_of_good,
    Nat.add_sub_cancel_left]
  intro x hax hx
  rw [div_of_block hax hx]
  exact hgood

theorem usable_bad_block (hb : e ∣ b) (hab : a < b) (hbad : good (a / e) = false) :
    usable e good a b = usable e good (a + (e - a % e)) b := by
  rw [usable_append (Nat.le_add_right a _) (block_end_le hb hab), usable_of_bad, List.nil_append]
  intro x hax hx
  rw [div_of_block hax hx]
  exact hbad

end Usable

end Uboot.Lib
