/-
  Uboot.Lib.BlockDev

  A block device of 512-byte sectors.  Besides the contents it keeps the ranges
  written so far, in order, so that "writes only inside" is a statement about the
  writes themselves and not about what they happened to change.

  Nothing here names the boot loader.
-/

import Uboot.Lib.Mem
import Uboot.Lib.Extent

namespace Uboot.Lib

/-- Sector contents and the ranges written. -/
structure BlockDev where
  disk : Nat → Mem UInt8
  log : List Extent

namespace BlockDev

variable (d : BlockDev) {start cnt s o : Nat} {buf : Mem UInt8}

/-- `block_write`: `cnt` sectors from `start` on, taken from `buf`. -/
def write (d : BlockDev) (start cnt : Nat) (buf : Mem UInt8) : BlockDev where
  disk s o := if start ≤ s ∧ s < start + cnt then buf ((s - start) * 512 + o) else d.disk s o
  log := d.log ++ [⟨start, cnt⟩]

theorem write_inside (h₁ : start ≤ s) (h₂ : s < start + cnt) :
    (d.write start cnt buf).disk s o = buf ((s - start) * 512 + o) := if_pos ⟨h₁, h₂⟩

theorem write_outside (h : s < start ∨ start + cnt ≤ s) :
    (d.write start cnt buf).disk s o = d.disk s o := if_neg (by omega)

@[simp] theorem write_log : (d.write start cnt buf).log = d.log ++ [⟨start, cnt⟩] := rfl

/-- A run of `n` writes of `cnt` sectors each, back to back from `start` on. -/
def writeRun (d : BlockDev) (start cnt n : Nat) (buf : Mem UInt8) : BlockDev :=
  (List.range n).foldl (fun d k => d.write (start + cnt * k) cnt buf) d

theorem writeRun_succ (n : Nat) :
    d.writeRun start cnt (n + 1) buf = (d.writeRun start cnt n buf).write (start + cnt * n) cnt buf := by
  simp [writeRun, List.range_succ]

theorem writeRun_outside {n : Nat} (h : s < start ∨ start + cnt * n ≤ s) :
    (d.writeRun start cnt n buf).disk s o = d.disk s o := by
  induction n with
  | zero => rfl
  | succ n ih =>
    rw [Nat.mul_succ] at h
    rw [writeRun_succ, write_outside _ (by omega), ih (by omega)]

/-- A run of writes of a constant buffer leaves that constant. -/
theorem writeRun_inside {n : Nat} {v : UInt8} (hbuf : ∀ x, buf x = v) (h₁ : start ≤ s)
    (h₂ : s < start + cnt * n) : (d.writeRun start cnt n buf).disk s o = v := by
  induction n with
  | zero => omega
  | succ n ih =>
    rw [writeRun_succ]
    by_cases hs : s < start + cnt * n
    · rw [write_outside _ (.inl hs), ih hs]
    · rw [Nat.mul_succ] at h₂
      rw [write_inside _ (by omega) (by omega), hbuf]

/-- Every write so far lies inside `e`. -/
def WritesIn (d : BlockDev) (e : Extent) : Prop :=
  ∀ w ∈ d.log, e.start ≤ w.start ∧ w.stop ≤ e.stop

theorem WritesIn.write {e : Extent} (h : d.WritesIn e) (h₁ : e.start ≤ start)
    (h₂ : start + cnt ≤ e.stop) : (d.write start cnt buf).WritesIn e := by
  intro w hw
  rw [write_log, List.mem_append, List.mem_singleton] at hw
  rcases hw with hw | rfl
  · exact h w hw
  · exact ⟨h₁, h₂⟩

theorem WritesIn.writeRun {e : Extent} {n : Nat} (h : d.WritesIn e) (h₁ : e.start ≤ start)
    (h₂ : start + cnt * n ≤ e.stop) : (d.writeRun start cnt n buf).WritesIn e := by
  induction n with
  | zero => exact h
  | succ n ih =>
    rw [Nat.mul_succ] at h₂
    rw [writeRun_succ]
    exact (ih (by omega)).write _ (by omega) (by omega)

/-! ## Lists of writes -/

/-- A write of `cnt` sectors from `start` on, taken from `buf`. -/
structure Write where
  start : Nat
  cnt : Nat
  buf : Mem UInt8

/-- The sector is one of those written. -/
def Write.Covers (w : Write) (s : Nat) : Prop := w.start ≤ s ∧ s < w.start + w.cnt

/-- The writes, one after another. -/
def writeAll (d : BlockDev) (ws : List Write) : BlockDev := ws.foldl (fun d w => d.write w.start w.cnt w.buf) d

variable {ws : List Write}

/-- A sector that no write covers. -/
theorem writeAll_outside (h : ∀ w ∈ ws, ¬w.Covers s) : (d.writeAll ws).disk s o = d.disk s o := by
  induction ws generalizing d with
  | nil => rfl
  | cons w ws ih =>
    obtain ⟨hw, hws⟩ := List.forall_mem_cons.mp h
    rw [writeAll, List.foldl_cons]
    exact (ih (d := d.write w.start w.cnt w.buf) hws).trans (if_neg hw)

/-- A byte to which every write that covers it, and one does, gives the same value. -/
theorem writeAll_inside {v : UInt8} (h : ∀ w ∈ ws, w.Covers s → w.buf ((s - w.start) * 512 + o) = v)
    (hcover : (∃ w ∈ ws, w.Covers s) ∨ d.disk s o = v) : (d.writeAll ws).disk s o = v := by
  induction ws generalizing d with
  | nil =>
    rcases hcover with ⟨w, hw, _⟩ | hv
    · exact absurd hw List.not_mem_nil
    · exact hv
  | cons w ws ih =>
    obtain ⟨hw, hws⟩ := List.forall_mem_cons.mp h
    rw [writeAll, List.foldl_cons]
    refine ih (d := d.write w.start w.cnt w.buf) hws ?_
    by_cases hin : w.Covers s
    · exact .inr ((if_pos hin).trans (hw hin))
    · rcases hcover with ⟨w', hmem, hin'⟩ | hv
      · rcases List.mem_cons.mp hmem with rfl | hmem
        · exact absurd hin' hin
        · exact .inl ⟨w', hmem, hin'⟩
      · exact .inr ((if_neg hin).trans hv)

end BlockDev
end Uboot.Lib
