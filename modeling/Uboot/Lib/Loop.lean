/-
  Uboot.Lib.Loop

  Loops with a bound on their turns, for loops that have none in the source.  Such a loop has a
  result inside some bound, and only one.  Where a position goes up to a limit and never
  down, it has one just when it does not stay at one position for ever.

  Nothing here names the boot loader.
-/

import Mathlib.Logic.Relation
import Mathlib.Tactic.Push

namespace Uboot.Lib

open Relation

variable {σ ρ : Type*}

/-- A turn of a loop: the loop ends with a result, or goes on. -/
inductive Turn (σ ρ : Type*)
  | done (r : ρ)
  | next (s : σ)

/-- The loop; `none` when the bound is too small. -/
def loop (turn : σ → Turn σ ρ) : Nat → σ → Option ρ
  | 0, _ => none
  | n + 1, s =>
    match turn s with
    | .done r => some r
    | .next s' => loop turn n s'

/-- One turn leads from `s` to `s'`. -/
def Goes (turn : σ → Turn σ ρ) (s s' : σ) : Prop := turn s = .next s'

variable {turn : σ → Turn σ ρ} {s s' : σ} {r r' : ρ} {m n : Nat}

theorem loop_done (h : turn s = .done r) : loop turn (n + 1) s = some r := by simp only [loop, h]

theorem loop_next (h : Goes turn s s') : loop turn (n + 1) s = loop turn n s' := by
  rw [Goes] at h
  simp only [loop, h]

/-- More turns do not change a result. -/
theorem loop_mono (hle : m ≤ n) (h : loop turn m s = some r) : loop turn n s = some r := by
  induction m generalizing n s with
  | zero => cases h
  | succ m ih =>
    obtain ⟨n, rfl⟩ := Nat.exists_eq_add_of_le' (Nat.lt_of_lt_of_le (Nat.succ_pos m) hle)
    cases hturn : turn s with
    | done r' =>
      rw [loop_done hturn] at h ⊢
      exact h
    | next s' =>
      rw [loop_next hturn] at h ⊢
      exact ih (by omega) h

theorem loop_unique (h : loop turn m s = some r) (h' : loop turn n s = some r') : r = r' := by
  have hmax := loop_mono (Nat.le_max_left m n) h
  rw [loop_mono (Nat.le_max_right m n) h'] at hmax
  exact (Option.some.inj hmax).symm

/-- A result is that of the last turn. -/
theorem exists_loop_iff : (∃ n, loop turn n s = some r) ↔ ∃ s', ReflTransGen (Goes turn) s s' ∧ turn s' = .done r := by
  constructor
  · rintro ⟨n, h⟩
    induction n generalizing s with
    | zero => cases h
    | succ n ih =>
      cases hturn : turn s with
      | done r' =>
        rw [loop_done hturn] at h
        obtain rfl := Option.some.inj h
        exact ⟨s, .refl, hturn⟩
      | next s' =>
        rw [loop_next hturn] at h
        obtain ⟨t, hreach, hdone⟩ := ih h
        exact ⟨t, .head hturn hreach, hdone⟩
  · rintro ⟨s', hreach, hdone⟩
    induction hreach using ReflTransGen.head_induction_on with
    | refl => exact ⟨1, loop_done hdone⟩
    | head hgoes _ ih =>
      obtain ⟨n, h⟩ := ih
      exact ⟨n + 1, (loop_next hgoes).trans h⟩

/-- From `s` on the loop goes on at one position. -/
def Stuck (turn : σ → Turn σ ρ) (pos : σ → Nat) (s : σ) : Prop :=
  ∀ s', ReflTransGen (Goes turn) s s' → ∃ s'', Goes turn s' s'' ∧ pos s'' = pos s'

theorem loop_eq_none_of_stuck {pos : σ → Nat} (h : Stuck turn pos s) : loop turn n s = none := by
  induction n generalizing s with
  | zero => rfl
  | succ n ih =>
    obtain ⟨s', hgoes, -⟩ := h s .refl
    rw [loop_next hgoes]
    exact ih fun t ht => h t (.head hgoes ht)

/-- **Loop rule.** A loop whose position goes up to a limit has a result, and none of those that
    are `bad`, just when no state that it comes to is one where it stays or ends with a bad one. -/
theorem exists_loop_good_iff {pos : σ → Nat} {bad : ρ → Prop} {bound : Nat}
    (hmono : ∀ s s', Goes turn s s' → pos s ≤ pos s') (hbound : ∀ s s', Goes turn s s' → pos s < bound) :
    (∃ n r, loop turn n s = some r ∧ ¬ bad r) ↔
      ∀ s', ReflTransGen (Goes turn) s s' → ¬ Stuck turn pos s' ∧ ∀ r, turn s' = .done r → ¬ bad r := by
  constructor
  · rintro ⟨n, r, h, hgood⟩ s' hreach
    constructor
    · intro hstuck
      obtain ⟨t, hlast, hdone⟩ := exists_loop_iff.mp ⟨n, h⟩
      -- the loop is deterministic, so the last state lies behind `s'`
      obtain hbehind | hbefore := ReflTransGen.total_of_right_unique
        (fun a b c hb hc => Turn.next.inj (hb.symm.trans hc)) hreach hlast
      · obtain ⟨m, hm⟩ := exists_loop_iff.mpr ⟨t, hbehind, hdone⟩
        rw [loop_eq_none_of_stuck hstuck] at hm
        cases hm
      · obtain rfl | ⟨u, hgoes, -⟩ := ReflTransGen.cases_head hbefore
        · obtain ⟨u, hgoes, -⟩ := hstuck t .refl
          cases hdone.symm.trans hgoes
        · cases hdone.symm.trans hgoes
    · intro r' hdone
      obtain ⟨m, hm⟩ := exists_loop_iff.mpr ⟨s', hreach, hdone⟩
      rwa [loop_unique hm h]
  · intro h
    -- induction on the way that the position has to the limit
    induction hk : bound - pos s using Nat.strongRecOn generalizing s with
    | _ k ih =>
      have hmonos : ∀ t, ReflTransGen (Goes turn) s t → pos s ≤ pos t := by
        intro t ht
        induction ht with
        | refl => exact Nat.le_refl _
        | tail _ hgoes ih' => exact Nat.le_trans ih' (hmono _ _ hgoes)
      have hleaves := (h s .refl).1
      rw [Stuck] at hleaves
      push Not at hleaves
      obtain ⟨t, hreach, hmoves⟩ := hleaves
      cases hturn : turn t with
      | done r =>
        obtain ⟨n, hn⟩ := exists_loop_iff.mpr ⟨t, hreach, hturn⟩
        exact ⟨n, r, hn, (h t hreach).2 r hturn⟩
      | next u =>
        have hgoes : Goes turn t u := hturn
        have hlt : pos t < pos u := Nat.lt_of_le_of_ne (hmono _ _ hgoes) (hmoves u hgoes).symm
        have hroom := hbound _ _ hgoes
        have hle := hmonos t hreach
        obtain ⟨n, r, hn, hgood⟩ := ih (bound - pos u) (by omega)
          (fun s' hs' => h s' ((hreach.tail hgoes).trans hs')) rfl
        obtain ⟨v, hlast, hdone⟩ := exists_loop_iff.mp ⟨n, hn⟩
        obtain ⟨m, hm⟩ := exists_loop_iff.mpr ⟨v, (hreach.tail hgoes).trans hlast, hdone⟩
        exact ⟨m, r, hm, hgood⟩

end Uboot.Lib
