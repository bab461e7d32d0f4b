/-
  Uboot.LibGeneric.AddrMap

  The table of address translations: lib_generic/addr_map.c.

  A virtual address has 32 bits, a physical one 32 or 64.
-/

import Mathlib.Algebra.Group.Nat.Defs
import Mathlib.Data.List.FinRange
import Uboot.Lib.Extent
import Uboot.Lib.Run

namespace Uboot.LibGeneric.AddrMap

open Uboot.Lib

-- ============================================================================
-- The table
-- ============================================================================

/-- The width of `phys_addr_t` and `phys_size_t`, with and without CONFIG_PHYS_64BIT. -/
def physBits (phys64 : Bool) : Nat := if phys64 then 64 else 32

abbrev PhysAddr (phys64 : Bool) : Type := BitVec (physBits phys64)

structure Entry (phys64 : Bool) where
  paddr : PhysAddr phys64
  size : PhysAddr phys64
  vaddr : BitVec 32

/-- `address_map`, with CONFIG_SYS_NUM_ADDR_MAP entries. -/
abbrev AddressMap (phys64 : Bool) (num : Nat) : Type := Fin num → Entry phys64

variable {phys64 : Bool} {num : Nat}

/-- Both searches test the address against the inclusive bounds of an entry in 64 bits. -/
def Entry.covers (e : Entry phys64) (base addr : BitVec 64) : Bool :=
  let upper := e.size.setWidth 64 + base - 1
  e.size ≠ 0 && base ≤ addr && addr ≤ upper

/-- `addrmap_virt_to_phys` -/
def addrmapVirtToPhys (m : AddressMap phys64 num) (vaddr : BitVec 32) : PhysAddr phys64 :=
  let addr := vaddr.setWidth 64
  match (List.finRange num).find? fun i => (m i).covers ((m i).vaddr.setWidth 64) addr with
  | some i => (addr - (m i).vaddr.setWidth 64 + (m i).paddr.setWidth 64).setWidth (physBits phys64)
  | none => ~~~0

/-- `addrmap_phys_to_virt` -/
def addrmapPhysToVirt (m : AddressMap phys64 num) (paddr : PhysAddr phys64) : BitVec 32 :=
  let addr := paddr.setWidth 64
  match (List.finRange num).find? fun i => (m i).covers ((m i).paddr.setWidth 64) addr with
  | some i => (paddr - (m i).paddr + (m i).vaddr.setWidth (physBits phys64)).setWidth 32
  | none => ~~~0

/-- A call `addrmap_set_entry (vaddr, paddr, size, idx)`. -/
structure SetEntry (phys64 : Bool) where
  entry : Entry phys64
  idx : Int

/-- The table, and the indices that were written to. -/
structure State (phys64 : Bool) (num : Nat) where
  map : AddressMap phys64 num
  written : List Int

/-- `addrmap_set_entry`; a write past the table does not change it, but what is next to it. -/
def addrmapSetEntry (s : State phys64 num) (c : SetEntry phys64) : State phys64 num :=
  if c.idx > num then s
  else
    { map := fun i => if (i.val : Int) = c.idx then c.entry else s.map i
      written := s.written ++ [c.idx] }

/-- The table before any call. -/
def State.init : State phys64 num := ⟨fun _ => ⟨0, 0, 0⟩, []⟩

-- ============================================================================
-- The translation
-- ============================================================================

namespace Entry

/-- The virtual addresses of an entry. -/
def virt (e : Entry phys64) : Set Nat := (Extent.mk e.vaddr.toNat e.size.toNat).cells

/-- The physical addresses of an entry. -/
def phys (e : Entry phys64) : Set Nat := (Extent.mk e.paddr.toNat e.size.toNat).cells

end Entry

/-- The ranges of the entries do not meet, and those with addresses end within the address spaces. -/
structure WellFormed (m : AddressMap phys64 num) : Prop where
  virt_disjoint : Pairwise fun i j => Disjoint (m i).virt (m j).virt
  phys_disjoint : Pairwise fun i j => Disjoint (m i).phys (m j).phys
  virt_le : ∀ i, (m i).size ≠ 0 → (m i).vaddr.toNat + (m i).size.toNat ≤ 2 ^ 32
  phys_le : ∀ i, (m i).size ≠ 0 → (m i).paddr.toNat + (m i).size.toNat ≤ 2 ^ physBits phys64

/-- The translations are inverse to each other. -/
structure RoundTrip (m : AddressMap phys64 num) : Prop where
  virt : ∀ v, (∃ i, v.toNat ∈ (m i).virt) → addrmapPhysToVirt m (addrmapVirtToPhys m v) = v
  phys : ∀ p, (∃ i, p.toNat ∈ (m i).phys) → addrmapVirtToPhys m (addrmapPhysToVirt m p) = p

theorem physBits_le (phys64 : Bool) : physBits phys64 ≤ 64 := by cases phys64 <;> decide

theorem le_physBits (phys64 : Bool) : 32 ≤ physBits phys64 := by cases phys64 <;> decide

/-- The bounds are right also for a range that ends with the address space. -/
theorem covers_iff {e : Entry phys64} {base addr : BitVec 64} (hend : e.size ≠ 0 → base.toNat + e.size.toNat ≤ 2 ^ 64) :
    e.covers base addr = true ↔ addr.toNat ∈ (Extent.mk base.toNat e.size.toNat).cells := by
  rw [Extent.mem_cells, Extent.stop, Entry.covers]
  dsimp only
  by_cases hsize : e.size = 0
  · rw [hsize]
    simp
  · have hend := hend hsize
    have hpos : 0 < e.size.toNat := by
      rw [Nat.pos_iff_ne_zero]
      exact fun h => hsize (BitVec.eq_of_toNat_eq (h.trans BitVec.toNat_zero.symm))
    have hwidth : (e.size.setWidth 64).toNat = e.size.toNat := by
      rw [BitVec.toNat_setWidth]
      refine Nat.mod_eq_of_lt (e.size.isLt.trans_le ?_)
      exact Nat.pow_le_pow_right (by decide) (physBits_le phys64)
    have hupper : (e.size.setWidth 64 + base - 1).toNat = base.toNat + e.size.toNat - 1 := by
      rw [BitVec.toNat_sub, BitVec.toNat_add, hwidth, show (1 : BitVec 64).toNat = 1 from rfl]
      omega
    simp only [Bool.and_eq_true, decide_eq_true_eq, BitVec.le_def, hupper]
    rw [and_iff_right hsize]
    omega

theorem find_unique {p : Fin num → Bool} {i : Fin num} (hi : p i = true) (hunique : ∀ j, p j = true → j = i) :
    (List.finRange num).find? p = some i := by
  cases hfind : (List.finRange num).find? p with
  | none => exact absurd hi (List.find?_eq_none.mp hfind i (List.mem_finRange i))
  | some j => exact congrArg some (hunique j (List.find?_some hfind))

section Translation

variable {m : AddressMap phys64 num} {i : Fin num}

theorem toNat_setWidth_virt (v : BitVec 32) : (v.setWidth 64).toNat = v.toNat := by
  rw [BitVec.toNat_setWidth]
  exact Nat.mod_eq_of_lt (v.isLt.trans_le (by decide))

theorem toNat_setWidth_phys (p : PhysAddr phys64) : (p.setWidth 64).toNat = p.toNat := by
  rw [BitVec.toNat_setWidth]
  exact Nat.mod_eq_of_lt (p.isLt.trans_le (Nat.pow_le_pow_right (by decide) (physBits_le phys64)))

/-- An entry that has an address is not empty. -/
theorem size_ne_zero {e : Entry phys64} {base x : Nat} (h : x ∈ (Extent.mk base e.size.toNat).cells) : e.size ≠ 0 := by
  intro hzero
  rw [Extent.mem_cells, Extent.stop, hzero] at h
  exact absurd (h.1.trans_lt h.2) (Nat.lt_irrefl base)

theorem covers_virt_iff (hm : WellFormed m) (v : BitVec 32) :
    (m i).covers ((m i).vaddr.setWidth 64) (v.setWidth 64) = true ↔ v.toNat ∈ (m i).virt := by
  rw [covers_iff fun hsize => ?_, toNat_setWidth_virt, toNat_setWidth_virt, Entry.virt]
  rw [toNat_setWidth_virt]
  exact (hm.virt_le i hsize).trans (by decide)

theorem covers_phys_iff (hm : WellFormed m) (p : PhysAddr phys64) :
    (m i).covers ((m i).paddr.setWidth 64) (p.setWidth 64) = true ↔ p.toNat ∈ (m i).phys := by
  rw [covers_iff fun hsize => ?_, toNat_setWidth_phys, toNat_setWidth_phys, Entry.phys]
  rw [toNat_setWidth_phys]
  exact (hm.phys_le i hsize).trans (Nat.pow_le_pow_right (by decide) (physBits_le phys64))

/-- An address of entry `i` goes to the same place in its other range. -/
theorem virtToPhys_eq (hm : WellFormed m) {v : BitVec 32} (hv : v.toNat ∈ (m i).virt) :
    (addrmapVirtToPhys m v).toNat = v.toNat - (m i).vaddr.toNat + (m i).paddr.toNat := by
  have hfind := find_unique (p := fun i => (m i).covers ((m i).vaddr.setWidth 64) (v.setWidth 64))
    ((covers_virt_iff hm v).mpr hv) fun j hj => by
      by_contra hne
      exact Set.disjoint_left.mp (hm.virt_disjoint hne) ((covers_virt_iff hm v).mp hj) hv
  have hphys := hm.phys_le i (size_ne_zero hv)
  rw [Entry.virt, Extent.mem_cells, Extent.stop] at hv
  dsimp only at hv
  have hword := (m i).vaddr.isLt
  have hbits : 2 ^ physBits phys64 ≤ 2 ^ 64 := Nat.pow_le_pow_right (by decide) (physBits_le phys64)
  rw [addrmapVirtToPhys]
  rw [hfind]
  dsimp only
  rw [BitVec.toNat_setWidth, BitVec.toNat_add, BitVec.toNat_sub, toNat_setWidth_virt, toNat_setWidth_virt,
    toNat_setWidth_phys]
  have hsub : (2 ^ 64 - (m i).vaddr.toNat + v.toNat) % 2 ^ 64 = v.toNat - (m i).vaddr.toNat := by omega
  rw [hsub, Nat.mod_eq_of_lt (a := _ + _) (by omega), Nat.mod_eq_of_lt (by omega)]

theorem physToVirt_eq (hm : WellFormed m) {p : PhysAddr phys64} (hp : p.toNat ∈ (m i).phys) :
    (addrmapPhysToVirt m p).toNat = p.toNat - (m i).paddr.toNat + (m i).vaddr.toNat := by
  have hfind := find_unique (p := fun i => (m i).covers ((m i).paddr.setWidth 64) (p.setWidth 64))
    ((covers_phys_iff hm p).mpr hp) fun j hj => by
      by_contra hne
      exact Set.disjoint_left.mp (hm.phys_disjoint hne) ((covers_phys_iff hm p).mp hj) hp
  have hvirt := hm.virt_le i (size_ne_zero hp)
  rw [Entry.phys, Extent.mem_cells, Extent.stop] at hp
  dsimp only at hp
  have hword := (m i).paddr.isLt
  have hbits : 2 ^ 32 ≤ 2 ^ physBits phys64 := Nat.pow_le_pow_right (by decide) (le_physBits phys64)
  have hv : ((m i).vaddr.setWidth (physBits phys64)).toNat = (m i).vaddr.toNat := by
    rw [BitVec.toNat_setWidth]
    exact Nat.mod_eq_of_lt ((m i).vaddr.isLt.trans_le hbits)
  rw [addrmapPhysToVirt]
  rw [hfind]
  dsimp only
  rw [BitVec.toNat_setWidth, BitVec.toNat_add, hv, BitVec.toNat_sub_of_le (BitVec.le_def.mpr hp.1),
    Nat.mod_eq_of_lt (a := _ + _) (by omega), Nat.mod_eq_of_lt (by omega)]

theorem roundTrip_of_wellFormed (hm : WellFormed m) : RoundTrip m where
  virt v := by
    rintro ⟨i, hv⟩
    have hto := virtToPhys_eq hm hv
    have hin : v.toNat - (m i).vaddr.toNat + (m i).paddr.toNat ∈ (m i).phys := by
      rw [Entry.virt, Extent.mem_cells, Extent.stop] at hv
      rw [Entry.phys, Extent.mem_cells, Extent.stop]
      dsimp only at hv ⊢
      omega
    apply BitVec.eq_of_toNat_eq
    rw [physToVirt_eq hm (hto ▸ hin), hto]
    rw [Entry.virt, Extent.mem_cells] at hv
    have := hv.1
    dsimp only at this
    omega
  phys p := by
    rintro ⟨i, hp⟩
    have hto := physToVirt_eq hm hp
    have hin : p.toNat - (m i).paddr.toNat + (m i).vaddr.toNat ∈ (m i).virt := by
      rw [Entry.phys, Extent.mem_cells, Extent.stop] at hp
      rw [Entry.virt, Extent.mem_cells, Extent.stop]
      dsimp only at hp ⊢
      omega
    apply BitVec.eq_of_toNat_eq
    rw [virtToPhys_eq hm (hto ▸ hin), hto]
    rw [Entry.phys, Extent.mem_cells] at hp
    have := hp.1
    dsimp only at this
    omega

end Translation

-- ============================================================================
-- The calls
-- ============================================================================

/-- Every write so far was inside the table, and the translations are inverse to each other as soon as
    the entries allow it. -/
def Sound (s : State phys64 num) : Prop :=
  (∀ i ∈ s.written, 0 ≤ i ∧ i < num) ∧ (WellFormed s.map → RoundTrip s.map)

theorem written_inside_iff (s : State phys64 num) (calls : List (SetEntry phys64)) :
    (∀ i ∈ (run addrmapSetEntry s calls).written, 0 ≤ i ∧ i < (num : Int)) ↔
      (∀ i ∈ s.written, 0 ≤ i ∧ i < (num : Int)) ∧ ∀ c ∈ calls, 0 ≤ c.idx ∧ c.idx ≠ num := by
  induction calls generalizing s with
  | nil => exact (and_iff_left fun _ hc => absurd hc List.not_mem_nil).symm
  | cons c calls ih =>
    rw [run_cons, ih, List.forall_mem_cons, ← and_assoc]
    apply and_congr_left
    intro _
    rw [addrmapSetEntry]
    split
    · refine (and_iff_left ?_).symm
      omega
    · rename_i hin
      rw [List.forall_mem_append, List.forall_mem_singleton]
      apply and_congr_right
      intro _
      omega

/-- **The address map.**  After any calls of `addrmap_set_entry` all writes were inside the table, and
    the translations are inverse to each other, just when no call had an index below 0 or the
    number of entries for its index. -/
theorem addrMap_sound_iff (calls : List (SetEntry phys64)) :
    Sound (run addrmapSetEntry (State.init : State phys64 num) calls) ↔ ∀ c ∈ calls, 0 ≤ c.idx ∧ c.idx ≠ num := by
  rw [Sound, and_iff_left roundTrip_of_wellFormed, written_inside_iff]
  exact and_iff_right fun _ hi => absurd hi List.not_mem_nil

/-- The index behind the last entry. -/
theorem not_sound_behind_last :
    ¬Sound (run addrmapSetEntry (State.init : State false 16) [⟨⟨0, 0x1000, 0⟩, 16⟩]) := fun h =>
  absurd (h.1 16 List.mem_cons_self).2 (by decide)

end Uboot.LibGeneric.AddrMap
