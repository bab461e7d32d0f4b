/-
  Uboot.Common.LcdBitmapLoops

  The loops of `lcd_display_bitmap`: the states they come to, for any sizes, and what they leave in
  memory where their counters are wide enough.

  A state is known by the number of rows and the number of pixels behind it, neither of them cut to
  16 bits.
-/

import Uboot.Common.LcdBitmap

namespace Uboot.Common.LcdBitmap

open Uboot.Lib Relation

namespace Loops

variable (l : Loops) (s₀ : State)

-- ============================================================================
-- The states
-- ============================================================================

/-- The state behind `t` pixels of the row entered from `s`. -/
def pixels (s : State) : Nat → State
  | 0 => enter s
  | t + 1 => l.put (pixels s t) (t % 65536)

/-- The state behind `m` rows. -/
def rows : Nat → State
  | 0 => s₀
  | m + 1 => l.leave (l.pixels (rows m) l.width)

variable {l s₀} {s : State} {m t : Nat}

@[simp] theorem pixels_i : (l.pixels s t).i = s.i := by
  induction t with
  | zero => rfl
  | succ t ih => exact ih

@[simp] theorem pixels_j : (l.pixels s t).j = some (t % 65536) := by
  cases t with
  | zero => rfl
  | succ t => exact congrArg some (Nat.mod_add_mod t 65536 1)

theorem pixels_bmap (h : s.bmap < 4294967296) : (l.pixels s t).bmap = u32 (s.bmap + t * l.taken) := by
  induction t with
  | zero => rw [Nat.zero_mul, Nat.add_zero, u32_of_lt h]; rfl
  | succ t ih =>
    change u32 ((l.pixels s t).bmap + l.taken) = _
    rw [ih, u32_add_left, Nat.succ_mul, Nat.add_assoc]

theorem pixels_fb (h : s.fb < 4294967296) : (l.pixels s t).fb = u32 (s.fb + t * l.bytes) := by
  induction t with
  | zero => rw [Nat.zero_mul, Nat.add_zero, u32_of_lt h]; rfl
  | succ t ih =>
    change u32 ((l.pixels s t).fb + l.bytes) = _
    rw [ih, u32_add_left, Nat.succ_mul, Nat.add_assoc]

theorem pixels_succ_ram :
    (l.pixels s (t + 1)).ram = (l.pixels s t).ram.store (l.pixels s t).fb (l.pixel (l.pixels s t).bmap) := rfl

theorem rows_i (h : s₀.i = 0) : (l.rows s₀ m).i = m % 65536 := by
  induction m with
  | zero => exact h
  | succ m ih =>
    change ((l.pixels (l.rows s₀ m) l.width).i + 1) % 65536 = _
    rw [pixels_i, ih, Nat.mod_add_mod]

theorem rows_j (h : s₀.j = none) : (l.rows s₀ m).j = none := by
  cases m with
  | zero => exact h
  | succ m => rfl

theorem rows_bmap_lt (h : s₀.bmap < 4294967296) : (l.rows s₀ m).bmap < 4294967296 := by
  cases m with
  | zero => exact h
  | succ m => exact u32_lt _

theorem rows_fb_lt (h : s₀.fb < 4294967296) : (l.rows s₀ m).fb < 4294967296 := by
  cases m with
  | zero => exact h
  | succ m => exact u32_lt _

/-- Where the loops start. -/
structure Starts (s₀ : State) : Prop where
  i : s₀.i = 0
  j : s₀.j = none
  bmap : s₀.bmap = 0
  fb_lt : s₀.fb < 4294967296

variable (hs : Starts s₀)
include hs

/-- The pointer into the image behind `m` rows. -/
theorem rows_bmap : (l.rows s₀ m).bmap = u32 (m * (l.width * l.taken + l.skip)) := by
  have hzero : s₀.bmap < 4294967296 := hs.bmap ▸ by decide
  induction m with
  | zero => rw [Nat.zero_mul]; exact hs.bmap
  | succ m ih =>
    change u32 ((l.pixels (l.rows s₀ m) l.width).bmap + l.skip) = _
    rw [pixels_bmap (rows_bmap_lt hzero), ih, u32_add_left, Nat.add_assoc, u32_add_left, Nat.succ_mul]

/-- The pointer into the frame buffer behind `m` rows, where a row goes back by its own bytes and a
    line. -/
theorem rows_fb {line : Nat} (hline : line ≤ 4294967296) (hback : l.back = u32 (l.width * l.bytes + line)) :
    (l.rows s₀ m).fb = u32 (s₀.fb + m * (4294967296 - line)) := by
  induction m with
  | zero => rw [Nat.zero_mul, Nat.add_zero, u32_of_lt hs.fb_lt]; rfl
  | succ m ih =>
    change usub (l.pixels (l.rows s₀ m) l.width).fb l.back = _
    rw [pixels_fb (rows_fb_lt hs.fb_lt), ih, u32_add_left, hback, Nat.succ_mul]
    simp only [usub, u32]
    omega

-- ============================================================================
-- Which states the loops come to
-- ============================================================================

omit hs in
theorem goes_put (ht : t % 65536 < l.width) : Goes l.turn (l.pixels s t) (l.pixels s (t + 1)) := by
  rw [Goes, turn, pixels_j]
  exact if_pos ht

omit hs in
theorem goes_leave (ht : ¬ t % 65536 < l.width) : Goes l.turn (l.pixels s t) (l.leave (l.pixels s t)) := by
  rw [Goes, turn, pixels_j]
  exact if_neg ht

theorem goes_enter (hm : m % 65536 < l.height) : Goes l.turn (l.rows s₀ m) (l.pixels (l.rows s₀ m) 0) := by
  rw [Goes, turn, rows_j hs.j]
  exact if_pos (by rwa [rows_i hs.i])

omit hs in
/-- A counter that is wide enough, or a limit that it does not come to. -/
theorem mod_lt_of {k limit : Nat} (h : k < limit ∨ 65536 ≤ limit) : k % 65536 < limit := by
  have := Nat.mod_le k 65536
  have := Nat.mod_lt k (show 0 < 65536 by decide)
  omega

omit hs in
theorem reaches_pixels (ht : t ≤ l.width ∨ 65536 ≤ l.width) :
    ReflTransGen (Goes l.turn) (l.pixels s 0) (l.pixels s t) := by
  induction t with
  | zero => exact .refl
  | succ t ih => exact (ih (by omega)).tail (goes_put (mod_lt_of (by omega)))

theorem reaches_rows (hw : l.width < 65536) (hm : m ≤ l.height ∨ 65536 ≤ l.height) :
    ReflTransGen (Goes l.turn) s₀ (l.rows s₀ m) := by
  induction m with
  | zero => exact .refl
  | succ m ih =>
    have hlt : m % 65536 < l.height := mod_lt_of (by omega)
    have hrow := ReflTransGen.head (goes_enter hs hlt) (reaches_pixels (.inl (Nat.le_refl l.width)))
    exact ((ih (by omega)).trans hrow).tail
      (goes_leave (by rw [Nat.mod_eq_of_lt hw]; exact Nat.lt_irrefl _))

omit hs in
/-- The states that the loops come to. -/
inductive At (l : Loops) (s₀ : State) : State → Prop
  | between (m : Nat) (hw : m = 0 ∨ l.width < 65536) (hm : l.height < 65536 → m ≤ l.height) : At l s₀ (l.rows s₀ m)
  | inside (m t : Nat) (hw : m = 0 ∨ l.width < 65536) (hm : m % 65536 < l.height)
      (hle : l.height < 65536 → m ≤ l.height) (ht : l.width < 65536 → t ≤ l.width) :
      At l s₀ (l.pixels (l.rows s₀ m) t)

theorem At.step {s' : State} (h : l.At s₀ s) (hgoes : Goes l.turn s s') : l.At s₀ s' := by
  cases h with
  | between m hw hm =>
    rw [Goes, turn, rows_j hs.j] at hgoes
    simp only at hgoes
    split at hgoes
    · next hlt =>
      rw [rows_i hs.i] at hlt
      cases hgoes
      exact .inside m 0 hw hlt hm fun _ => Nat.zero_le _
    · cases hgoes
  | inside m t hw hm hle ht =>
    rw [Goes, turn, pixels_j] at hgoes
    simp only at hgoes
    split at hgoes
    · next hlt =>
      cases hgoes
      refine .inside m (t + 1) hw hm hle fun hwidth => ?_
      have hsmall : t % 65536 = t := Nat.mod_eq_of_lt (by have := ht hwidth; omega)
      omega
    · next hge =>
      cases hgoes
      have hwidth : l.width < 65536 := by
        have := Nat.mod_lt t (show 0 < 65536 by decide)
        omega
      obtain rfl : t = l.width := by
        have hle := ht hwidth
        rw [Nat.mod_eq_of_lt (by omega)] at hge
        omega
      refine .between (m + 1) (.inr hwidth) fun hheight => ?_
      have := hle hheight
      rw [Nat.mod_eq_of_lt (by omega)] at hm
      exact hm

theorem at_of_reaches (h : ReflTransGen (Goes l.turn) s₀ s) : l.At s₀ s := by
  induction h with
  | refl => exact .between 0 (.inl rfl) fun _ => Nat.zero_le _
  | tail _ hgoes ih => exact ih.step hs hgoes

/-- The loops end behind the last row, where the counters come to their limits. -/
theorem loop_eq_some_iff {r : Ram} :
    (∃ n, loop l.turn n s₀ = some r) ↔
      l.height < 65536 ∧ (l.height = 0 ∨ l.width < 65536) ∧ (l.rows s₀ l.height).ram = r := by
  rw [exists_loop_iff]
  constructor
  · rintro ⟨s, hreach, hdone⟩
    cases at_of_reaches hs hreach with
    | between m hw hm =>
      rw [turn, rows_j hs.j, rows_i hs.i] at hdone
      simp only at hdone
      split at hdone
      · cases hdone
      · next hge =>
        have hheight : l.height < 65536 := by
          have := Nat.mod_lt m (show 0 < 65536 by decide)
          omega
        have hle := hm hheight
        rw [Nat.mod_eq_of_lt (by omega)] at hge
        obtain rfl : m = l.height := by omega
        cases hdone
        exact ⟨hheight, hw, rfl⟩
    | inside m t hw hm hle ht =>
      rw [turn, pixels_j] at hdone
      simp only at hdone
      split at hdone <;> cases hdone
  · rintro ⟨hheight, hwidth, rfl⟩
    refine ⟨l.rows s₀ l.height, ?_, ?_⟩
    · rcases hwidth with hzero | hwidth
      · rw [hzero]
        exact .refl
      · exact reaches_rows hs hwidth (.inl (Nat.le_refl _))
    · rw [turn, rows_j hs.j, rows_i hs.i, Nat.mod_eq_of_lt hheight]
      exact if_neg (Nat.lt_irrefl _)

omit hs in
/-- **Rule of the loops.** What holds at the start, is kept by a pixel and passed on by a row holds in
    every row. -/
theorem ram_induction {P : Nat → Nat → Ram → Prop} (hstart : P 0 0 s₀.ram)
    (hput : ∀ m < l.height, ∀ t < l.width, P m t (l.pixels (l.rows s₀ m) t).ram →
      P m (t + 1) (l.pixels (l.rows s₀ m) (t + 1)).ram)
    (hnext : ∀ m < l.height, ∀ r, P m l.width r → P (m + 1) 0 r) :
    ∀ m ≤ l.height, P m 0 (l.rows s₀ m).ram ∧ (m < l.height → ∀ t ≤ l.width, P m t (l.pixels (l.rows s₀ m) t).ram) := by
  have hrow : ∀ m < l.height, P m 0 (l.rows s₀ m).ram → ∀ t ≤ l.width, P m t (l.pixels (l.rows s₀ m) t).ram := by
    intro m hm h t ht
    induction t with
    | zero => exact h
    | succ t ih => exact hput m hm t ht (ih (by omega))
  have hrows : ∀ m ≤ l.height, P m 0 (l.rows s₀ m).ram := by
    intro m hm
    induction m with
    | zero => exact hstart
    | succ m ih => exact hnext m hm _ (hrow m hm (ih (by omega)) _ (Nat.le_refl _))
  exact fun m hm => ⟨hrows m hm, fun hlt => hrow m hlt (hrows m hm)⟩

omit hs in
/-- A cell that no pixel is stored to keeps its value. -/
theorem rows_cells_eq {a : Nat} (h : ∀ m < l.height, ∀ t < l.width,
    a < (l.pixels (l.rows s₀ m) t).fb ∨ (l.pixels (l.rows s₀ m) t).fb + l.bytes ≤ a) :
    (l.rows s₀ l.height).ram.cells a = s₀.ram.cells a := by
  have hall : ∀ m ≤ l.height, (l.rows s₀ m).ram.cells a = s₀.ram.cells a ∧
      (m < l.height → ∀ t ≤ l.width, (l.pixels (l.rows s₀ m) t).ram.cells a = s₀.ram.cells a) := by
    apply ram_induction (P := fun _ _ r => r.cells a = s₀.ram.cells a)
    · rfl
    · intro m hm t ht ih
      rw [pixels_succ_ram, Ram.store_cells, ← ih]
      apply Mem.write_outside
      rw [l.pixel_length]
      exact h m hm t ht
    · exact fun _ _ _ h => h
  exact (hall l.height (Nat.le_refl _)).1

/-- The same for a property of the memory alone, in every state the loops come to. -/
theorem reaches_ram_induction {P : Ram → Prop} (hstart : P s₀.ram)
    (hput : ∀ (r : Ram) m t, P r → P (r.store (l.pixels (l.rows s₀ m) t).fb (l.pixel (l.pixels (l.rows s₀ m) t).bmap)))
    (h : ReflTransGen (Goes l.turn) s₀ s) : P s.ram := by
  have hrow : ∀ m, P (l.rows s₀ m).ram → ∀ t, P (l.pixels (l.rows s₀ m) t).ram := by
    intro m hm t
    induction t with
    | zero => exact hm
    | succ t ih => exact hput _ m t ih
  have hrows : ∀ m, P (l.rows s₀ m).ram := by
    intro m
    induction m with
    | zero => exact hstart
    | succ m ih => exact hrow m ih _
  cases at_of_reaches hs h with
  | between m => exact hrows m
  | inside m t => exact hrow m (hrows m) t

/-- Loops over no row, or over rows without a pixel, store nothing. -/
theorem reaches_ram_eq (hzero : l.width = 0 ∨ l.height = 0) (h : ReflTransGen (Goes l.turn) s₀ s) : s.ram = s₀.ram := by
  rcases hzero with hwidth | hheight
  · induction h with
    | refl => rfl
    | @tail s s' _ hgoes ih =>
      rw [Goes, turn] at hgoes
      split at hgoes
      · split at hgoes <;> cases hgoes
        exact ih
      · rw [hwidth, if_neg (Nat.not_lt_zero _)] at hgoes
        cases hgoes
        exact ih
  · cases at_of_reaches hs h with
    | between m hw hm =>
      obtain rfl : m = 0 := by omega
      rfl
    | inside m t hw hm => omega

end Loops

end Uboot.Common.LcdBitmap
