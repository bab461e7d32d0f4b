/-
  Uboot.Lib.CommonPrefix

  The longest common prefix of lists, found by one pass over them that shortens the first.
-/

import Mathlib.Data.List.Infix

namespace Uboot.Lib

variable {α : Type*}

/-- `p` is the longest list that begins all of `names`. -/
structure LongestCommonPrefix (p : List α) (names : List (List α)) : Prop where
  common : ∀ m ∈ names, p <+: m
  longest : ∀ q, (∀ m ∈ names, q <+: m) → q <+: p

theorem LongestCommonPrefix.unique {p q : List α} {names : List (List α)} (hp : LongestCommonPrefix p names)
    (hq : LongestCommonPrefix q names) : p = q :=
  (hq.longest p hp.common).eq_of_length_le (hp.longest q hq.common).length_le

variable [DecidableEq α]

/-- How far two lists agree. -/
def commonLen : List α → List α → Nat
  | x :: s, y :: t => if x = y then commonLen s t + 1 else 0
  | _, _ => 0

theorem commonLen_le_left (s t : List α) : commonLen s t ≤ s.length := by
  induction s generalizing t with
  | nil => exact Nat.zero_le _
  | cons x s ih =>
    cases t with
    | nil => exact Nat.zero_le _
    | cons y t =>
      rw [commonLen]
      split
      · exact Nat.succ_le_succ (ih t)
      · exact Nat.zero_le _

theorem prefix_take_commonLen_iff {q s t : List α} : q <+: s.take (commonLen s t) ↔ q <+: s ∧ q <+: t := by
  induction s generalizing q t with
  | nil =>
    rw [List.take_nil, List.prefix_nil]
    exact ⟨fun h => by simp [h], And.left⟩
  | cons x s ih =>
    cases t with
    | nil =>
      rw [commonLen, List.take_zero, List.prefix_nil]
      · exact ⟨fun h => by simp [h], And.right⟩
      · simp
    | cons y t =>
      cases q with
      | nil => simp
      | cons z q =>
        rw [commonLen]
        split
        · next hxy =>
          subst hxy
          rw [List.take_succ_cons, List.cons_prefix_cons, List.cons_prefix_cons, List.cons_prefix_cons, ih]
          constructor
          · rintro ⟨hz, hs, ht⟩
            exact ⟨⟨hz, hs⟩, hz, ht⟩
          · rintro ⟨⟨hz, hs⟩, -, ht⟩
            exact ⟨hz, hs, ht⟩
        · next hxy =>
          rw [List.take_zero, List.prefix_nil, List.cons_prefix_cons, List.cons_prefix_cons]
          constructor
          · intro h
            cases h
          · rintro ⟨⟨hx, -⟩, hy, -⟩
            exact absurd (hx.symm.trans hy) hxy

/-- The pass over the lists behind the first one: `len` of its characters are left. -/
def sharedLen (anchor : List α) (len : Nat) (names : List (List α)) : Nat :=
  names.foldl (fun len t => commonLen (anchor.take len) t) len

theorem prefix_take_sharedLen_iff {q anchor : List α} {len : Nat} {names : List (List α)} :
    q <+: anchor.take (sharedLen anchor len names) ↔ q <+: anchor.take len ∧ ∀ m ∈ names, q <+: m := by
  induction names generalizing len with
  | nil => simp [sharedLen]
  | cons t names ih =>
    have htake : anchor.take (commonLen (anchor.take len) t) =
        (anchor.take len).take (commonLen (anchor.take len) t) := by
      have hle := commonLen_le_left (anchor.take len) t
      rw [List.length_take] at hle
      rw [List.take_take, Nat.min_eq_left (by omega)]
    have hstep : sharedLen anchor len (t :: names) = sharedLen anchor (commonLen (anchor.take len) t) names := rfl
    rw [hstep, ih, htake, prefix_take_commonLen_iff, List.forall_mem_cons, and_assoc]

/-- What is left of the first list is the longest common prefix. -/
theorem longestCommonPrefix_take (anchor : List α) (names : List (List α)) :
    LongestCommonPrefix (anchor.take (sharedLen anchor anchor.length names)) (anchor :: names) := by
  have hiff : ∀ q, q <+: anchor.take (sharedLen anchor anchor.length names) ↔ q <+: anchor ∧ ∀ m ∈ names, q <+: m := by
    intro q
    rw [prefix_take_sharedLen_iff, List.take_length]
  exact ⟨List.forall_mem_cons.mpr ((hiff _).mp (List.prefix_refl _)),
    fun q hq => (hiff q).mpr (List.forall_mem_cons.mp hq)⟩

end Uboot.Lib
