/-
  Uboot.Drivers.CfiFlashPieces

  What `write_buff` comes to: the destination is taken piece by piece, where a piece is one word or the
  words of one write buffer, and a piece is programmed if one of its words can be.
-/

import Uboot.Drivers.CfiFlash
import Uboot.Lib.Align

namespace Uboot.Drivers.CfiFlash

open Uboot.Lib

-- ============================================================================
-- Words and pieces
-- ============================================================================

/-- The word at `a` can be programmed: where it is to have a one, it has one. -/
def Good (n : Nat) (m want : Mem UInt8) (a : Nat) : Prop := ∀ o < n, m (a + o) &&& want (a + o) = want (a + o)

/-- One of the words can be programmed. -/
def Accepts (n : Nat) (m want : Mem UInt8) (e : Extent) : Prop := ∃ a, n ∣ a ∧ a ∈ e.cells ∧ Good n m want a

/-- The memory with a range programmed. -/
def anded (m want : Mem UInt8) (e : Extent) : Mem UInt8 := fun x =>
  if e.start ≤ x ∧ x < e.stop then m x &&& want x else m x

/-- What writing a piece comes to. -/
def Writes (n : Nat) (want m : Mem UInt8) (e : Extent) (r : Mem UInt8 × Int) : Prop :=
  Accepts n m want e ∧ r = (anded m want e, ERR_OK) ∨ ¬Accepts n m want e ∧ r = (m, ERR_NOT_ERASED)

variable {n a k : Nat} {m m' want src : Mem UInt8} {e : Extent}

theorem accepts_congr (h : ∀ x, e.start ≤ x → m x = m' x) : Accepts n m want e ↔ Accepts n m' want e := by
  refine exists_congr fun a => and_congr_right fun _ => and_congr_right fun hmem => ?_
  refine forall_congr' fun o => forall_congr' fun _ => ?_
  rw [h _ (hmem.1.trans (Nat.le_add_right a o))]

theorem anded_outside {x : Nat} (h : x < e.start ∨ e.stop ≤ x) : anded m want e x = m x := if_neg (by omega)

theorem anded_inside {x : Nat} (h₁ : e.start ≤ x) (h₂ : x < e.stop) : anded m want e x = m x &&& want x := if_pos ⟨h₁, h₂⟩

/-- A piece and what comes right behind it. -/
theorem anded_anded {j : Nat} : anded (anded m want ⟨a, k⟩) want ⟨a + k, j⟩ = anded m want ⟨a, k + j⟩ := by
  funext x
  by_cases hsecond : a + k ≤ x ∧ x < a + k + j
  · rw [anded_inside hsecond.1 hsecond.2, anded_outside (.inr hsecond.1),
      anded_inside (Nat.le_of_add_right_le hsecond.1) (show x < a + (k + j) by omega)]
  · rw [anded_outside (show x < a + k ∨ a + k + j ≤ x by omega)]
    by_cases hfirst : a ≤ x ∧ x < a + k
    · rw [anded_inside hfirst.1 hfirst.2, anded_inside hfirst.1 (show x < a + (k + j) by omega)]
    · rw [anded_outside (show x < a ∨ a + k ≤ x by omega), anded_outside (show x < a ∨ a + (k + j) ≤ x by omega)]

theorem anded_empty : anded m want ⟨a, 0⟩ = m := by
  funext x
  exact anded_outside (by
    simp only [Extent.stop]
    omega)

-- ============================================================================
-- A word
-- ============================================================================

namespace FlashInfo

variable {info : FlashInfo} {dest : Nat} {w : info.Word}

theorem byteAt_flashRead {o : Nat} (ho : o < info.width) :
    info.byteOrder.byteAt (info.flashRead m dest) o = m (dest + o) :=
  ByteOrder.byteAt_ofBytes ho

/-- The check of a word. -/
theorem read_and_eq_iff (hw : ∀ o < info.width, info.byteOrder.byteAt w o = want (dest + o)) :
    info.flashRead m dest &&& w = w ↔ Good info.width m want dest := by
  constructor
  · intro h o ho
    have hbyte := congrArg (info.byteOrder.byteAt · o) h
    rwa [ByteOrder.byteAt_and, byteAt_flashRead ho, hw o ho] at hbyte
  · intro h
    apply ByteOrder.word_ext (e := info.byteOrder)
    intro o ho
    rw [ByteOrder.byteAt_and, byteAt_flashRead ho, hw o ho]
    exact h o ho

theorem program_eq (hw : ∀ o < info.width, info.byteOrder.byteAt w o = want (dest + o)) :
    info.program m dest w = anded m want ⟨dest, info.width⟩ := by
  funext x
  rw [program, anded]
  refine ite_congr rfl (fun hx => ?_) fun _ => rfl
  rw [hw _ (Nat.sub_lt_left_of_lt_add hx.1 hx.2), Nat.add_sub_cancel' hx.1]

theorem accepts_word_iff (hdest : info.width ∣ dest) :
    Accepts info.width m want ⟨dest, info.width⟩ ↔ Good info.width m want dest := by
  have hpos : 0 < info.width := info.portwidth.bytes_pos
  constructor
  · rintro ⟨a, ha, ⟨hle, hlt⟩, hgood⟩
    rcases Nat.eq_or_lt_of_le hle with rfl | hbehind
    · exact hgood
    · exact absurd hlt (Nat.not_lt.mpr (add_le_of_dvd hdest ha hbehind))
  · exact fun hgood => ⟨dest, hdest, ⟨le_rfl, Nat.lt_add_of_pos_right hpos⟩, hgood⟩

/-- A word that is to be `want`, written. -/
theorem writes_cfiword (hdest : info.width ∣ dest) (hw : ∀ o < info.width, info.byteOrder.byteAt w o = want (dest + o)) :
    Writes info.width want m ⟨dest, info.width⟩ (info.flashWriteCfiword m dest w) := by
  rw [Writes, accepts_word_iff hdest, flashWriteCfiword, ← read_and_eq_iff hw, program_eq hw]
  split
  · rename_i hcheck
    exact .inl ⟨hcheck, rfl⟩
  · rename_i hcheck
    exact .inr ⟨hcheck, rfl⟩

/-- As many bytes as a word has make it up, whatever it was. -/
theorem byteAt_cword {init : Nat → info.Word} {wp o : Nat} {bytes : List UInt8} (hlen : bytes.length = info.width)
    (ho : o < info.width) : info.byteOrder.byteAt (info.cword init wp bytes) o = bytes.getD o 0 :=
  ByteOrder.byteAt_foldl_shiftIn_full ho hlen

-- ============================================================================
-- A buffer
-- ============================================================================

theorem checkBuffer_iff {cnt s : Nat} (hsrc : ∀ x < cnt * info.width, src (s + x) = want (dest + x)) :
    info.checkBuffer m src cnt dest s = true ↔ ∃ k < cnt, Good info.width m want (dest + k * info.width) := by
  induction cnt generalizing dest s with
  | zero => exact iff_of_false Bool.false_ne_true fun ⟨k, hk, _⟩ => Nat.not_lt_zero k hk
  | succ cnt ih =>
    rw [Nat.succ_mul] at hsrc
    have hfirst : ∀ o < info.width, info.byteOrder.byteAt (info.flashRead src s) o = want (dest + o) := by
      intro o ho
      rw [byteAt_flashRead ho]
      exact hsrc o (by omega)
    have hrest : ∀ x < cnt * info.width, src (s + info.width + x) = want (dest + info.width + x) := by
      intro x hx
      rw [Nat.add_assoc, Nat.add_assoc]
      exact hsrc (info.width + x) (by omega)
    rw [checkBuffer]
    split
    · rename_i hcheck
      have hgood := (read_and_eq_iff hfirst).mp hcheck
      refine iff_of_true rfl ⟨0, Nat.succ_pos cnt, ?_⟩
      rwa [Nat.zero_mul, Nat.add_zero]
    · rename_i hcheck
      have hbad := mt (read_and_eq_iff hfirst).mpr hcheck
      rw [ih hrest]
      constructor
      · rintro ⟨k, hk, hgood⟩
        refine ⟨k + 1, Nat.succ_lt_succ hk, ?_⟩
        rwa [Nat.succ_mul, Nat.add_comm (k * _), ← Nat.add_assoc]
      · rintro ⟨k, hk, hgood⟩
        cases k with
        | zero =>
          rw [Nat.zero_mul, Nat.add_zero] at hgood
          exact absurd hgood hbad
        | succ k =>
          refine ⟨k, Nat.lt_of_succ_lt_succ hk, ?_⟩
          rwa [Nat.succ_mul, Nat.add_comm (k * _), ← Nat.add_assoc] at hgood

theorem programBuffer_eq {cnt s : Nat} (hsrc : ∀ x < cnt * info.width, src (s + x) = want (dest + x)) :
    info.programBuffer m src cnt dest s = anded m want ⟨dest, cnt * info.width⟩ := by
  induction cnt generalizing m dest s with
  | zero => rw [programBuffer, Nat.zero_mul, anded_empty]
  | succ cnt ih =>
    rw [Nat.succ_mul] at hsrc
    have hfirst : ∀ o < info.width, info.byteOrder.byteAt (info.flashRead src s) o = want (dest + o) := by
      intro o ho
      rw [byteAt_flashRead ho]
      exact hsrc o (by omega)
    have hrest : ∀ x < cnt * info.width, src (s + info.width + x) = want (dest + info.width + x) := by
      intro x hx
      rw [Nat.add_assoc, Nat.add_assoc]
      exact hsrc (info.width + x) (by omega)
    rw [programBuffer, ih hrest, program_eq hfirst, anded_anded, Nat.succ_mul, Nat.add_comm]

theorem accepts_buffer_iff {cnt : Nat} (hdest : info.width ∣ dest) :
    Accepts info.width m want ⟨dest, cnt * info.width⟩ ↔ ∃ k < cnt, Good info.width m want (dest + k * info.width) := by
  have hpos : 0 < info.width := info.portwidth.bytes_pos
  constructor
  · rintro ⟨a, ha, ⟨hle, hlt⟩, hgood⟩
    obtain ⟨k, hk⟩ := Nat.dvd_sub ha hdest
    have haddr : a = dest + k * info.width := by
      rw [Nat.mul_comm, ← hk]
      exact (Nat.add_sub_cancel' hle).symm
    subst haddr
    exact ⟨k, Nat.lt_of_mul_lt_mul_right (Nat.lt_of_add_lt_add_left hlt), hgood⟩
  · rintro ⟨k, hk, hgood⟩
    refine ⟨dest + k * info.width, Nat.dvd_add hdest (Nat.dvd_mul_left _ _), ⟨Nat.le_add_right _ _, ?_⟩, hgood⟩
    exact Nat.add_lt_add_left (Nat.mul_lt_mul_of_pos_right hk hpos) dest

/-- A buffer that is to be `want`, written: its check is passed with one word that can be programmed. -/
theorem writes_cfibuffer {s len : Nat} (hdest : info.width ∣ dest)
    (hsrc : ∀ x < len / info.width * info.width, src (s + x) = want (dest + x)) :
    Writes info.width want m ⟨dest, len / info.width * info.width⟩ (info.flashWriteCfibuffer m src dest s len) := by
  rw [Writes, accepts_buffer_iff hdest, flashWriteCfibuffer, shiftRight_shift, ← checkBuffer_iff hsrc,
    programBuffer_eq hsrc]
  split
  · rename_i hcheck
    exact .inl ⟨hcheck, rfl⟩
  · rename_i hcheck
    exact .inr ⟨hcheck, rfl⟩

end FlashInfo

end Uboot.Drivers.CfiFlash
