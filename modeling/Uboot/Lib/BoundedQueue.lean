/-
  Uboot.Lib.BoundedQueue

  A first-in first-out queue with room for `cap` entries that forgets its oldest entries when more
  are pushed.  A ring of `cap` slots holds one: entry `k` is `k` slots behind the top, with one wrap.
-/

import Mathlib.Data.List.DropRight

namespace Uboot.Lib

variable {α : Type*} {cap : Nat}

-- ============================================================================
-- The queue
-- ============================================================================

/-- At most `cap` entries, oldest first. -/
structure BoundedQueue (α : Type*) (cap : Nat) where
  entries : List α
  length_le : entries.length ≤ cap

namespace BoundedQueue

theorem length_rtake (l : List α) (n : Nat) : (l.rtake n).length = min n l.length := by
  rw [List.rtake, List.length_drop]
  omega

def empty (α : Type*) (cap : Nat) : BoundedQueue α cap := ⟨[], Nat.zero_le cap⟩

/-- The newest `cap` of what was there and `src`. -/
def push (q : BoundedQueue α cap) (src : List α) : BoundedQueue α cap where
  entries := (q.entries ++ src).rtake cap
  length_le := by rw [length_rtake]; omega

/-- The oldest `len` entries, and the queue without them. -/
def pop (q : BoundedQueue α cap) (len : Nat) : BoundedQueue α cap × List α :=
  (⟨q.entries.drop len, by have := q.length_le; rw [List.length_drop]; omega⟩, q.entries.take len)

variable {q : BoundedQueue α cap} {x : α} {xs : List α}

@[ext] theorem ext {q q' : BoundedQueue α cap} (h : q.entries = q'.entries) : q = q' := by
  cases q
  cases q'
  obtain rfl := h
  rfl

theorem entries_push : (q.push xs).entries = (q.entries ++ xs).rtake cap := rfl

@[simp] theorem push_nil : q.push [] = q := by
  apply ext
  rw [entries_push, List.append_nil, List.rtake, Nat.sub_eq_zero_of_le q.length_le, List.drop_zero]

/-- What one push forgets, the pushes after it would not bring back. -/
theorem push_push (ys : List α) : (q.push xs).push ys = q.push (xs ++ ys) := by
  apply ext
  simp only [entries_push, List.rtake, List.length_append, List.length_drop, List.drop_append,
    List.drop_drop, List.append_assoc]
  congr 1
  · congr 1
    omega
  congr 1
  · congr 1
    omega
  · congr 1
    omega

/-- An entry of a list with one more behind it is an old one or that one. -/
theorem getElem?_concat {l : List α} {k : Nat} {y : α} (h : (l ++ [x])[k]? = some y) :
    (k < l.length ∧ l[k]? = some y) ∨ (k = l.length ∧ y = x) := by
  rcases Nat.lt_or_ge k l.length with hold | hnew
  · rw [List.getElem?_append_left hold] at h
    exact .inl ⟨hold, h⟩
  · rw [List.getElem?_append_right hnew, List.getElem?_singleton] at h
    split at h
    · exact .inr ⟨by omega, (Option.some.inj h).symm⟩
    · cases h

/-- While there is room a push forgets nothing. -/
theorem entries_push_of_lt (h : q.entries.length < cap) : (q.push [x]).entries = q.entries ++ [x] := by
  rw [entries_push, List.rtake, List.length_append, List.length_singleton, Nat.sub_eq_zero_of_le h, List.drop_zero]

/-- A full queue forgets its oldest entry. -/
theorem entries_push_of_full (h : q.entries.length = cap) (hcap : 0 < cap) :
    (q.push [x]).entries = q.entries.tail ++ [x] := by
  rw [entries_push, List.rtake, List.length_append, List.length_singleton, h, Nat.add_sub_cancel_left,
    List.drop_append_of_le_length (by omega), List.drop_one]

theorem entries_pop (len : Nat) : (q.pop len).1.entries = q.entries.drop len := rfl

/-- No more can be taken than there is. -/
theorem pop_min (len : Nat) : q.pop (min len q.entries.length) = q.pop len := by
  apply Prod.ext
  · apply ext
    rw [entries_pop, entries_pop]
    rcases Nat.le_total len q.entries.length with hle | hge
    · rw [Nat.min_eq_left hle]
    · rw [Nat.min_eq_right hge, List.drop_of_length_le (Nat.le_refl _), List.drop_of_length_le hge]
  · exact List.take_eq_take_min.symm

end BoundedQueue

-- ============================================================================
-- The ring
-- ============================================================================

/-- The slot `k` behind `top`, for `k` up to `cap`. -/
def ringSlot (cap top k : Nat) : Nat := if top + k < cap then top + k else top + k - cap

variable {top k i : Nat}

theorem ringSlot_lt (htop : top < cap) (hk : k ≤ cap) : ringSlot cap top k < cap := by
  rw [ringSlot]
  split <;> omega

@[simp] theorem ringSlot_zero (htop : top < cap) : ringSlot cap top 0 = top := if_pos htop

/-- Different entries have different slots. -/
theorem ringSlot_ne (hik : i < k) (hk : k < cap) : ringSlot cap top i ≠ ringSlot cap top k := by
  rw [ringSlot, ringSlot]
  split <;> split <;> omega

/-- The first slot of a full ring is also the next one to be filled. -/
theorem ringSlot_cap : ringSlot cap top cap = top := by
  rw [ringSlot, if_neg (by omega), Nat.add_sub_cancel]

/-- The slot behind a slot: `++p` and the test for the end. -/
def ringNext (cap p : Nat) : Nat := if p + 1 = cap then 0 else p + 1

theorem ringNext_slot (htop : top < cap) (hk : k < cap) :
    ringNext cap (ringSlot cap top k) = ringSlot cap top (k + 1) := by
  rw [ringNext, ringSlot, ringSlot]
  split <;> split <;> split <;> omega

/-- Moving the top on by one. -/
theorem ringSlot_next (hk : k < cap) : ringSlot cap (ringNext cap top) k = ringSlot cap top (k + 1) := by
  rw [ringNext, ringSlot, ringSlot]
  split <;> split <;> split <;> omega

/-- Moving the top on by some. -/
theorem ringSlot_slot (htop : top < cap) (hik : i + k ≤ cap) :
    ringSlot cap (ringSlot cap top i) k = ringSlot cap top (i + k) := by
  rw [ringSlot, ringSlot, ringSlot]
  split <;> split <;> split <;> omega

end Uboot.Lib
