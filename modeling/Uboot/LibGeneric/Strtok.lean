/-
  Uboot.LibGeneric.Strtok

  `strtok` of lib_generic/string.c, and the pieces of a string it gives when it is called until
  there are no more.

  A string is the list of its bytes up to the terminator.  `___strtok` is what is left of the
  string, or `NULL`.
-/

import Mathlib.Data.List.TakeWhile

namespace Uboot.LibGeneric

-- ============================================================================
-- Definitions from the source
-- ============================================================================

/-- `strtok`: the token, and `___strtok` after the call. -/
def strtok (ct : List UInt8) (s saved : Option (List UInt8)) : Option (List UInt8) × Option (List UInt8) :=
  match s.or saved with
  | none => (none, saved)
  | some sbegin =>
    let sbegin := sbegin.dropWhile (· ∈ ct)
    if sbegin = [] then (none, none)
    else
      let send := match sbegin.dropWhile (· ∉ ct) with
        | [] => none
        | _ :: send => some send
      (some (sbegin.takeWhile (· ∉ ct)), send)

-- ============================================================================
-- Pieces
-- ============================================================================

/-- The pieces between the bytes of `ct` that are not empty. -/
def pieces (ct l : List UInt8) : List (List UInt8) := (l.splitOnP (· ∈ ct)).filter (· ≠ [])

/-- The pieces that are left. -/
def piecesOf (ct : List UInt8) : Option (List UInt8) → List (List UInt8)
  | none => []
  | some l => pieces ct l

theorem piecesOf_ne_nil {ct c : List UInt8} {s : Option (List UInt8)} (h : c ∈ piecesOf ct s) : c ≠ [] := by
  cases s with
  | none => exact absurd h List.not_mem_nil
  | some l => simpa using (List.mem_filter.1 h).2

section Pieces

variable {ct l r : List UInt8} {b : UInt8}

/-- Bytes of `ct` in front. -/
theorem pieces_dropWhile (ct l : List UInt8) : pieces ct (l.dropWhile (· ∈ ct)) = pieces ct l := by
  induction l with
  | nil => rfl
  | cons x l ih =>
    by_cases hx : x ∈ ct
    · rw [List.dropWhile_cons_of_pos (by simpa using hx), ih, pieces, pieces]
      simp [List.splitOnP_cons_eq_if_modifyHead, hx]
    · rw [List.dropWhile_cons_of_neg (by simpa using hx)]

/-- A string without bytes of `ct`. -/
theorem pieces_token (hl : l ≠ []) (htoken : ∀ x ∈ l, x ∉ ct) : pieces ct l = [l] := by
  rw [pieces, List.splitOnP_eq_singleton (by simpa using htoken)]
  simp [hl]

theorem pieces_token_cons (hl : l ≠ []) (htoken : ∀ x ∈ l, x ∉ ct) (hb : b ∈ ct) :
    pieces ct (l ++ b :: r) = l :: pieces ct r := by
  rw [pieces, List.splitOnP_append_cons_of_forall_mem (by simpa using htoken) b (by simpa using hb)]
  simp [hl, pieces]

theorem takeWhile_notMem (ct l : List UInt8) : ∀ x ∈ l.takeWhile (· ∉ ct), x ∉ ct := fun x hx => by
  simpa using List.mem_takeWhile_imp hx

/-- The byte a `dropWhile` stops at. -/
theorem dropWhile_stop {p : UInt8 → Bool} (h : l.dropWhile p = b :: r) : p b = false := by
  have hne : l.dropWhile p ≠ [] := by simp [h]
  have hhead := List.head_dropWhile_not p hne
  simpa [h] using hhead

/-- A call gives the first piece and leaves the others. -/
theorem strtok_pieces (ct : List UInt8) (s saved : Option (List UInt8)) :
    (strtok ct s saved).1 = (piecesOf ct (s.or saved)).head? ∧
      piecesOf ct (strtok ct s saved).2 = (piecesOf ct (s.or saved)).tail := by
  cases hs : s.or saved with
  | none =>
    obtain ⟨rfl, rfl⟩ := Option.or_eq_none_iff.1 hs
    exact ⟨rfl, rfl⟩
  | some l =>
    have hskip := pieces_dropWhile ct l
    rw [strtok, hs]
    dsimp only [piecesOf]
    rw [← hskip]
    generalize hrest : l.dropWhile (· ∈ ct) = rest
    cases rest with
    | nil => exact ⟨rfl, rfl⟩
    | cons x rest =>
      have hx : x ∉ ct := by simpa using dropWhile_stop hrest
      have htoken := takeWhile_notMem ct (x :: rest)
      have hne : (x :: rest).takeWhile (· ∉ ct) ≠ [] := by simp [hx]
      have hsplit := @List.takeWhile_append_dropWhile _ (· ∉ ct) (x :: rest)
      rw [if_neg (List.cons_ne_nil _ _)]
      dsimp only
      generalize hsend : (x :: rest).dropWhile (· ∉ ct) = send at hsplit ⊢
      cases send with
      | nil =>
        rw [List.append_nil] at hsplit
        rw [hsplit] at htoken ⊢
        rw [pieces_token (List.cons_ne_nil _ _) htoken]
        exact ⟨rfl, rfl⟩
      | cons b send =>
        have hb : b ∈ ct := by simpa using dropWhile_stop hsend
        have hpieces := @pieces_token_cons ct _ send b hne htoken hb
        rw [hsplit] at hpieces
        rw [hpieces]
        exact ⟨rfl, rfl⟩

end Pieces

end Uboot.LibGeneric
