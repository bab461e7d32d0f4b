/-
  Uboot.Lib.Ram

  Byte memory together with the ranges stored to so far, in order, so that "no
  byte outside was written" is a statement about the stores themselves.

  Nothing here names the boot loader.
-/

import Uboot.Lib.Mem
import Uboot.Lib.Extent

namespace Uboot.Lib

/-- Memory contents and the ranges stored to. -/
structure Ram where
  cells : Mem UInt8
  log : List Extent

namespace Ram

variable {r : Ram} {a : Nat} {bs : List UInt8} {e : Extent}

/-- `memcpy` of the bytes `bs` to address `a`. -/
def store (r : Ram) (a : Nat) (bs : List UInt8) : Ram where
  cells := r.cells.write a bs
  log := r.log ++ [⟨a, bs.length⟩]

@[simp] theorem store_cells : (r.store a bs).cells = r.cells.write a bs := rfl

@[simp] theorem store_log : (r.store a bs).log = r.log ++ [⟨a, bs.length⟩] := rfl

/-- Every byte stored to so far lies inside `e`. -/
def WritesIn (r : Ram) (e : Extent) : Prop := ∀ w ∈ r.log, w.cells ⊆ e.cells

theorem WritesIn.store (h : r.WritesIn e) (hbs : bs ≠ [] → e.start ≤ a ∧ a + bs.length ≤ e.stop) :
    (r.store a bs).WritesIn e := by
  intro w hw
  rw [store_log, List.mem_append, List.mem_singleton] at hw
  rcases hw with hw | rfl
  · exact h w hw
  · intro x hx
    simp only [Extent.mem_cells, Extent.stop] at hx hbs ⊢
    obtain ⟨h₁, h₂⟩ := hbs (by rintro rfl; simp at hx; omega)
    omega

theorem writesIn_store : (r.store a bs).WritesIn e ↔ r.WritesIn e ∧ (Extent.mk a bs.length).cells ⊆ e.cells := by
  simp [WritesIn, or_imp, forall_and]

/-- The cells stored to so far. -/
def written (r : Ram) : Set Nat := {x | ∃ w ∈ r.log, x ∈ w.cells}

theorem writesIn_iff : r.WritesIn e ↔ r.written ⊆ e.cells :=
  ⟨fun h _ ⟨w, hw, hx⟩ => h w hw hx, fun h w hw _ hx => h ⟨w, hw, hx⟩⟩

theorem written_store : (r.store a bs).written = r.written ∪ (Extent.mk a bs.length).cells := by
  ext x
  simp [written, or_and_right, exists_or]

/-- A byte stored right behind the first `n` cells. -/
theorem written_store_next {n : Nat} {b : UInt8} (h : r.written = {x | x < n}) :
    (r.store n [b]).written = {x | x < n + 1} := by
  rw [written_store, h]
  ext x
  simp [Extent.stop]
  omega

/-- `r'` is `r` with `bs` stored from `a` on, in one piece or in several. -/
def Stored (r : Ram) (a : Nat) (bs : List UInt8) (r' : Ram) : Prop :=
  r'.cells = r.cells.write a bs ∧ r'.written = r.written ∪ (Extent.mk a bs.length).cells

theorem stored_nil (r : Ram) (a : Nat) : r.Stored a [] r := by
  refine ⟨(Mem.write_nil _).symm, ?_⟩
  ext x
  simp [Extent.stop]

theorem stored_store (r : Ram) (a : Nat) (bs : List UInt8) : r.Stored a bs (r.store a bs) := ⟨rfl, written_store⟩

/-- A piece behind the other. -/
theorem Stored.append {xs ys : List UInt8} {r' r'' : Ram} (h : r.Stored a xs r')
    (h' : r'.Stored (a + xs.length) ys r'') : r.Stored a (xs ++ ys) r'' := by
  refine ⟨by rw [h'.1, h.1, Mem.write_append], ?_⟩
  rw [h'.2, h.2, Set.union_assoc]
  congr 1
  ext x
  simp only [Set.mem_union, Extent.mem_cells, Extent.stop, List.length_append]
  omega

end Ram
end Uboot.Lib
