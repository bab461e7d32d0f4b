/-
  Uboot.LibGeneric.Strstr

  `strchr` and `strstr` of lib_generic/string.c, on the list of the characters from the
  pointer on; a result is the distance from there.
-/

import Mathlib.Data.List.Infix

namespace Uboot.LibGeneric

variable {α : Type*} [DecidableEq α] {t s r a : List α} {c : α} {i : Nat}

/-- `strchr (s, c)`, for a `c` other than NUL. -/
def strchr (c : α) : List α → Option Nat
  | [] => none
  | x :: s => if x = c then some 0 else (strchr c s).map (· + 1)

/-- `strstr (s, t)` -/
def strstr (t : List α) : List α → Option Nat
  | [] => if t = [] then some 0 else none
  | x :: s => if t <+: x :: s then some 0 else (strstr t s).map (· + 1)

theorem strchr_eq_none_iff : strchr c s = none ↔ c ∉ s := by
  induction s with
  | nil => simp [strchr]
  | cons x s ih =>
    rw [strchr, List.mem_cons]
    by_cases hx : x = c
    · simp [hx]
    · simp [hx, ih, Ne.symm hx]

theorem strchr_append (h : c ∉ a) (r : List α) : strchr c (a ++ r) = (strchr c r).map (· + a.length) := by
  induction a with
  | nil => simp
  | cons x a ih =>
    rw [List.mem_cons, not_or] at h
    rw [List.cons_append, strchr, if_neg (Ne.symm h.1), ih h.2, Option.map_map, List.length_cons]
    congr 1

theorem strchr_append_cons (h : c ∉ a) (r : List α) : strchr c (a ++ c :: r) = some a.length := by
  rw [strchr_append h, strchr, if_pos rfl, Option.map_some, Nat.zero_add]

/-- An occurrence lies inside. -/
theorem strstr_le (h : strstr t s = some i) : i + t.length ≤ s.length := by
  induction s generalizing i with
  | nil =>
    rw [strstr] at h
    split at h
    · next ht => cases h; simp [ht]
    · cases h
  | cons x s ih =>
    rw [strstr] at h
    split at h
    · next hpre =>
      cases h
      rw [Nat.zero_add]
      exact hpre.length_le
    · obtain ⟨j, hj, rfl⟩ := Option.map_eq_some_iff.mp h
      have := ih hj
      rw [List.length_cons]
      omega

theorem prefix_strstr (h : strstr t s = some i) : t <+: s.drop i := by
  induction s generalizing i with
  | nil =>
    rw [strstr] at h
    split at h
    · next ht => cases h; simp [ht]
    · cases h
  | cons x s ih =>
    rw [strstr] at h
    split at h
    · next hpre => cases h; exact hpre
    · obtain ⟨j, hj, rfl⟩ := Option.map_eq_some_iff.mp h
      exact ih hj

/-- What stands behind the first occurrence does not matter. -/
theorem strstr_append (h : strstr t s = some i) (r : List α) : strstr t (s ++ r) = some i := by
  induction s generalizing i with
  | nil =>
    rw [strstr] at h
    split at h
    · next ht =>
      cases h
      subst ht
      cases r <;> simp [strstr]
    · cases h
  | cons x s ih =>
    rw [List.cons_append, strstr]
    rw [strstr] at h
    split at h
    · next hpre =>
      cases h
      exact if_pos (hpre.trans (List.prefix_append (x :: s) r))
    · next hpre =>
      obtain ⟨j, hj, rfl⟩ := Option.map_eq_some_iff.mp h
      have hlen := strstr_le hj
      rw [if_neg, ih hj, Option.map_some]
      intro hlong
      exact hpre (List.prefix_of_prefix_length_le hlong (List.prefix_append (x :: s) r)
        (by rw [List.length_cons]; omega))

/-- Where a pattern stands only behind the end of a text, the text has none of it. -/
theorem strstr_eq_none_of_append (h : ∀ i, strstr t (s ++ r) = some i → s.length < i + t.length) :
    strstr t s = none := by
  cases hs : strstr t s with
  | none => rfl
  | some i =>
    have hlong := h i (strstr_append hs r)
    have hle := strstr_le hs
    omega

/-- An occurrence that ends in a text is one of the text. -/
theorem strstr_of_append (h : strstr t (s ++ r) = some i) (hlen : i + t.length ≤ s.length) : strstr t s = some i := by
  cases hs : strstr t s with
  | some j => rw [← h, strstr_append hs]
  | none =>
    exfalso
    induction s generalizing i with
    | nil =>
      have ht : t = [] := List.length_eq_zero_iff.mp (by rw [List.length_nil] at hlen; omega)
      rw [strstr, if_pos ht] at hs
      cases hs
    | cons x s ih =>
      rw [List.cons_append, strstr] at h
      rw [strstr] at hs
      split at hs
      · cases hs
      · next hpre =>
        split at h
        · next hlong =>
          cases h
          rw [Nat.zero_add] at hlen
          exact hpre (List.prefix_of_prefix_length_le hlong (List.prefix_append (x :: s) r) hlen)
        · obtain ⟨j, hj, rfl⟩ := Option.map_eq_some_iff.mp h
          rw [List.length_cons] at hlen
          exact ih hj (by omega) (Option.map_eq_none_iff.mp hs)

/-- A pattern does not reach over a character that it does not have. -/
theorem strstr_append_cons (hc : c ∉ t) (hne : t ≠ []) (hnone : strstr t a = none) (r : List α) :
    strstr t (a ++ c :: r) = (strstr t r).map (· + (a.length + 1)) := by
  induction a with
  | nil =>
    rw [List.nil_append, strstr, if_neg, List.length_nil, Nat.zero_add]
    rintro ⟨y, hy⟩
    obtain ⟨x, t', rfl⟩ := List.exists_cons_of_ne_nil hne
    obtain ⟨rfl, -⟩ := List.cons.inj hy
    exact hc List.mem_cons_self
  | cons x a ih =>
    rw [strstr] at hnone
    split at hnone
    · cases hnone
    · next hpre =>
      rw [List.cons_append, strstr, if_neg, ih (Option.map_eq_none_iff.mp hnone), Option.map_map,
        List.length_cons]
      · congr 1
      · intro hlong
        -- an occurrence at the head would be inside, or have the character in it
        by_cases hlen : t.length ≤ (x :: a).length
        · exact hpre (List.prefix_of_prefix_length_le hlong (List.prefix_append (x :: a) (c :: r)) hlen)
        · have hlong' : x :: a ++ [c] <+: t := by
            have hwhole : x :: a ++ [c] <+: x :: (a ++ c :: r) := ⟨r, by simp⟩
            refine List.prefix_of_prefix_length_le hwhole hlong ?_
            rw [List.length_append, List.length_singleton]
            omega
          exact hc (hlong'.subset (by simp))

end Uboot.LibGeneric
