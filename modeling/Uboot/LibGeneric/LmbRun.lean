/-
  Uboot.LibGeneric.LmbRun

  Runs of reservations, frees and allocations on logical memory blocks, next to the
  set of addresses they account for.
-/

import Uboot.LibGeneric.LmbInvariant

namespace Uboot.LibGeneric

open Uboot.Lib

/-! ## Calls -/

/-- A call that changes the reserved table. -/
inductive LmbCall
  | reserve (base size : Nat)
  | free (base size : Nat)
  | allocBase (size align maxAddr : Nat)
  deriving DecidableEq, Repr

/-- The tables, and the addresses reserved or allocated and not freed. -/
structure Ledger where
  lmb : Lmb
  held : Set Nat

/-- A call and its entry in the ledger.  An allocation holds the block that
    `lmb_alloc_base` sets aside: the size rounded up, at the address returned. -/
def Ledger.step (s : Ledger) : LmbCall → Ledger
  | .reserve base size =>
    ⟨(lmbReserve s.lmb base size).2, s.held ∪ (⟨base, size⟩ : Extent).cells⟩
  | .free base size => ⟨(lmbFree s.lmb base size).2, s.held \ (⟨base, size⟩ : Extent).cells⟩
  | .allocBase size align maxAddr =>
    ⟨(lmbAllocBase s.lmb size align maxAddr).2,
      s.held ∪ (⟨(lmbAllocBase s.lmb size align maxAddr).1, lmbAlignUp size align⟩ : Extent).cells⟩

/-- The call is one a caller may make, and it reports success. -/
def Ledger.Legal (s : Ledger) : LmbCall → Prop
  | .reserve base size =>
    0 < size ∧ base + size < 4294967296 ∧ Disjoint (⟨base, size⟩ : Extent).cells s.held ∧
      0 ≤ (lmbReserve s.lmb base size).1
  | .free base size =>
    (∃ i < s.lmb.reserved.cnt, 0 < (s.lmb.reserved.region i).size ∧
      (s.lmb.reserved.region i).base ≤ base ∧
      base + size ≤ (s.lmb.reserved.region i).base + (s.lmb.reserved.region i).size) ∧
      0 ≤ (lmbFree s.lmb base size).1
  | .allocBase size align maxAddr => (lmbAllocBase s.lmb size align maxAddr).1 ≠ 0

/-- The bytes by which an allocation is rounded up are free where the search ends: they
    do not wrap, and no reserved region begins among them. -/
def Lmb.RoundingFree (l : Lmb) (size align maxAddr : Nat) : Prop :=
  ∀ place, findPlace l size align maxAddr l.memory.cnt = some place →
    size ≤ lmbAlignUp size align ∧ place + lmbAlignUp size align < 4294967296 ∧
      ∀ i < l.reserved.cnt, ¬ (place + size ≤ (l.reserved.region i).base ∧
        (l.reserved.region i).base < place + lmbAlignUp size align)

/-- The condition under which a call does what it says: a region is recorded in an
    empty table only if `EmptyOk`, and an allocation is of a size that is not 0 and not
    above its limit, with free bytes to round up. -/
def Ledger.Sound (s : Ledger) : LmbCall → Prop
  | .reserve base size => s.lmb.reserved.EmptyOk base size
  | .free _ _ => True
  | .allocBase size align maxAddr =>
    0 < size ∧ (maxAddr = 0 ∨ size ≤ maxAddr) ∧ s.lmb.RoundingFree size align maxAddr ∧
      ∀ place, findPlace s.lmb size align maxAddr s.lmb.memory.cnt = some place →
        s.lmb.reserved.EmptyOk place (lmbAlignUp size align)

/-- What the table owes its callers. -/
structure Ledger.Describes (s : Ledger) : Prop where
  /-- Non-empty entries, apart from the initial dummy. -/
  nonempty : s.lmb.reserved.IsDummy ∨
    ∀ i < s.lmb.reserved.cnt, 0 < (s.lmb.reserved.region i).size
  /-- Sorted by base. -/
  sorted : ∀ i j, i < j → j < s.lmb.reserved.cnt →
    (s.lmb.reserved.region i).base < (s.lmb.reserved.region j).base
  /-- Pairwise disjoint. -/
  disjoint : ∀ i j, i < j → j < s.lmb.reserved.cnt →
    Disjoint (s.lmb.reserved.extents i).cells (s.lmb.reserved.extents j).cells
  /-- Covering what is held. -/
  covers : s.lmb.reserved.covered = s.held

/-- Tables whose memory is known and whose reserved table is as `lmb_init` leaves it. -/
def Ledger.start (memory : LmbRegion) (l : Lmb) : Ledger :=
  ⟨{ memory, reserved := (lmbInit l).reserved }, ∅⟩

/-- The invariant of a run: the reserved table's, over memory that does not reach the end
    of the address space. -/
structure Ledger.Inv (s : Ledger) : Prop where
  memory : ∀ i < s.lmb.memory.cnt,
    (s.lmb.memory.region i).base + (s.lmb.memory.region i).size < 4294967296
  reserved : s.lmb.reserved.Inv s.held

variable {s : Ledger}

/-! ## Steps -/

/-- The block of an allocation that reports success is free to be reserved. -/
theorem Ledger.Inv.block_clear {size align maxAddr place : Nat} (h : s.Inv)
    (hmax : maxAddr = 0 ∨ size ≤ maxAddr) (hround : s.lmb.RoundingFree size align maxAddr)
    (hp : findPlace s.lmb size align maxAddr s.lmb.memory.cnt = some place) :
    Disjoint (⟨place, lmbAlignUp size align⟩ : Extent).cells s.held := by
  obtain ⟨hfit, hnone⟩ := findPlace_spec h.memory hmax hp
  obtain ⟨hle, -, hno⟩ := hround place hp
  rcases h.reserved with ⟨-, hempty⟩ | ⟨hok, hcov⟩
  · rw [hempty]
    exact Set.disjoint_empty _
  · have hclear := clear_of_lmbOverlapsRegion hok hfit hnone
    have hblock : s.lmb.reserved.Clear place (lmbAlignUp size align) := by
      intro i hi
      have hcl := hclear i hi
      have hni := hno i hi
      omega
    rw [← hcov]
    exact hblock.disjoint

theorem lmbFree_memory (l : Lmb) (base size : Nat) : (lmbFree l base size).2.memory = l.memory := by
  rw [lmbFree]
  split <;> rfl

/-- What an allocation that reports success has done. -/
theorem lmbAllocBase_ok {l : Lmb} {size align maxAddr : Nat}
    (hret : (lmbAllocBase l size align maxAddr).1 ≠ 0) :
    ∃ place, findPlace l size align maxAddr l.memory.cnt = some place ∧
      0 ≤ (lmbAddRegion l.reserved place (lmbAlignUp size align)).1 ∧
      lmbAllocBase l size align maxAddr =
        (place, { l with reserved := (lmbAddRegion l.reserved place (lmbAlignUp size align)).2 }) := by
  rw [lmbAllocBase] at hret ⊢
  cases hp : findPlace l size align maxAddr l.memory.cnt with
  | none =>
    rw [hp] at hret
    exact absurd rfl hret
  | some place =>
    rw [hp] at hret
    dsimp only at hret ⊢
    have hneg : ¬ (lmbAddRegion l.reserved place (lmbAlignUp size align)).1 < 0 :=
      fun hc => hret (if_pos hc)
    exact ⟨place, rfl, Int.not_lt.mp hneg, by rw [if_neg hneg]⟩

/-- **Step lemma.** -/
theorem Ledger.Inv.step {c : LmbCall} (h : s.Inv) (hlegal : s.Legal c) (hsound : s.Sound c) :
    (s.step c).Inv := by
  cases c with
  | reserve base size =>
    obtain ⟨hsize, hb, hdisj, hret⟩ := hlegal
    exact ⟨h.memory, h.reserved.add hsize hb hdisj hsound hret⟩
  | free base size =>
    obtain ⟨⟨i, hi, hpos, hlow, hhigh⟩, hret⟩ := hlegal
    refine ⟨?_, .inr ?_⟩
    · have hmem : (s.step (.free base size)).lmb.memory = s.lmb.memory := lmbFree_memory ..
      rw [hmem]
      exact h.memory
    · rcases h.reserved with ⟨⟨hcnt, hdummy⟩, -⟩ | ⟨hok, hcov⟩
      · -- the dummy entry is empty
        have hi0 : i = 0 := by omega
        rw [hi0, hdummy] at hpos
        exact absurd hpos (Nat.lt_irrefl 0)
      · obtain ⟨hok', hcov'⟩ := lmbFree_spec hok ⟨i, hi, hlow, hhigh⟩ hret
        rw [hcov] at hcov'
        exact ⟨hok', hcov'⟩
  | allocBase size align maxAddr =>
    obtain ⟨hsize, hmax, hround, hempty⟩ := hsound
    obtain ⟨place, hp, hret, heq⟩ := lmbAllocBase_ok hlegal
    obtain ⟨hle, hwrap, -⟩ := hround place hp
    have hdisj := h.block_clear hmax hround hp
    rw [Ledger.step, heq]
    exact ⟨h.memory, h.reserved.add (by omega) hwrap hdisj (hempty place hp) hret⟩

/-! ## Runs -/

theorem Ledger.Inv.describes (h : s.Inv) : s.Describes := by
  rcases h.reserved with ⟨⟨hcnt, hdummy⟩, hempty⟩ | ⟨hok, hcov⟩
  · refine ⟨.inl ⟨hcnt, hdummy⟩, fun i j hij hj => by omega, fun i j hij hj => by omega, ?_⟩
    rw [hempty, LmbRegion.covered, hcnt]
    ext x
    rw [mem_cover]
    constructor
    · rintro ⟨i, hi, hx⟩
      have hi0 : i = 0 := by omega
      rw [hi0, LmbRegion.extents, hdummy] at hx
      simp only [Extent.mem_cells, LmbProperty.extent, Extent.stop] at hx
      omega
    · exact fun hx => absurd hx (Set.notMem_empty x)
  · refine ⟨.inr hok.apart.nonempty, fun i j hij hj => hok.apart.starts_lt hij hj,
      fun i j hij hj => Extent.Before.disjoint (hok.apart.gap i j hij hj).le, hcov⟩

theorem Ledger.inv_start {memory : LmbRegion} (l : Lmb)
    (hmem : ∀ i < memory.cnt, (memory.region i).base + (memory.region i).size < 4294967296) :
    (Ledger.start memory l).Inv :=
  ⟨hmem, .inl ⟨⟨rfl, by simp [Ledger.start, lmbInit]⟩, rfl⟩⟩

/-- Memory without regions. -/
def noMemory : LmbRegion := ⟨0, fun _ => ⟨0, 0⟩⟩

end Uboot.LibGeneric
