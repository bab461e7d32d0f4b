/-
  Uboot.Lib.Holds

  "These bytes stand at this address" as a predicate that splits where the list of
  bytes does, and words stored most significant byte first.

  Nothing here names the boot loader.
-/

import Uboot.Lib.Mem

namespace Uboot.Lib

namespace Mem

variable {α : Type*} {m : Mem α} {a n : Nat} {xs ys : List α}

/-- The cells from `a` on are `xs`. -/
def Holds (m : Mem α) (a : Nat) (xs : List α) : Prop := m.read a xs.length = xs

theorem holds_append : m.Holds a (xs ++ ys) ↔ m.Holds a xs ∧ m.Holds (a + xs.length) ys := by
  rw [Holds, List.length_append, read_add]
  exact ⟨fun h => List.append_inj h (read_length m), fun h => congrArg₂ _ h.1 h.2⟩

theorem holds_cons {x : α} : m.Holds a (x :: xs) ↔ m a = x ∧ m.Holds (a + 1) xs := by
  rw [← List.singleton_append, holds_append, List.length_singleton]
  simp [Holds, read]

theorem Holds.left (xs ys : List α) (h : m.Holds a (xs ++ ys)) : m.Holds a xs := (holds_append.mp h).1

theorem Holds.right (xs ys : List α) (h : m.Holds a (xs ++ ys)) : m.Holds (a + xs.length) ys :=
  (holds_append.mp h).2

theorem Holds.congr {m' : Mem α} (h : m.Holds a xs) (hsame : ∀ x, a ≤ x → x < a + xs.length → m' x = m x) :
    m'.Holds a xs := by
  rw [Holds, read_congr hsame]
  exact h

theorem Holds.getElem (h : m.Holds a xs) {i : Nat} (hi : i < xs.length) : m (a + i) = xs[i] := by
  have hcell := getElem_read (m := m) (a := a) (n := xs.length) (i := i) (by rw [read_length]; exact hi)
  rw [← hcell]
  exact List.getElem_of_eq h _

/-- What stands `n` cells further on. -/
theorem Holds.drop (h : m.Holds a xs) (hn : n ≤ xs.length) : m.Holds (a + n) (xs.drop n) := by
  rw [← List.take_append_drop n xs, holds_append, List.length_take, Nat.min_eq_left hn] at h
  exact h.2

theorem holds_write (m : Mem α) (a : Nat) (xs : List α) : (m.write a xs).Holds a xs := read_write m

theorem holds_read (m : Mem α) (a n : Nat) : m.Holds a (m.read a n) := by
  rw [Holds, read_length]

/-- Bytes stored over as many others. -/
theorem Holds.write {zs : List α} (bs : List α) (h : m.Holds a (xs ++ ys ++ zs)) (hlen : bs.length = ys.length) :
    (m.write (a + xs.length) bs).Holds a (xs ++ bs ++ zs) := by
  rw [holds_append, holds_append, List.length_append] at h ⊢
  refine ⟨⟨h.1.1.congr fun x _ hx => m.write_outside (.inl hx), m.holds_write _ _⟩, ?_⟩
  rw [hlen]
  exact h.2.congr fun x hx _ => m.write_outside (.inr (by rw [hlen]; omega))

/-- The same, with the place of the bytes given. -/
theorem Holds.write_at (xs ys zs bs : List α) {x : Nat} (h : m.Holds a (xs ++ (ys ++ zs)))
    (hx : x = a + xs.length) (hlen : bs.length = ys.length) :
    (m.write x bs).Holds a (xs ++ (bs ++ zs)) := by
  rw [← List.append_assoc] at h
  rw [hx, ← List.append_assoc]
  exact h.write bs hlen

end Mem

/-! ## Lists of bytes as memory -/

/-- A list of bytes as memory. -/
def listMem (bs : List UInt8) : Mem UInt8 := fun i => bs.getD i 0

theorem listMem_read (bs : List UInt8) {a n : Nat} (h : a + n ≤ bs.length) :
    (listMem bs).read a n = (bs.drop a).take n := by
  apply List.ext_getElem
  · simp
    omega
  · intro i h₁ h₂
    rw [Mem.read_length] at h₁
    rw [Mem.getElem_read, listMem, List.getElem_take, List.getElem_drop,
      List.getD_eq_getElem _ _ (by omega)]

/-- A piece of memory as memory. -/
theorem listMem_of_read (m : Mem UInt8) {a n i : Nat} (h : i < n) : listMem (m.read a n) i = m (a + i) := by
  rw [listMem, List.getD_eq_getElem _ _ (by simpa using h), Mem.getElem_read]

theorem listMem_holds (bs : List UInt8) : (listMem bs).Holds 0 bs := by
  rw [Mem.Holds, listMem_read bs (by omega), List.drop_zero, List.take_length]

/-- What stands in memory, read as a list of its own. -/
theorem Mem.Holds.listMem {m : Mem UInt8} {a i : Nat} {bs : List UInt8} (h : m.Holds a bs)
    (hi : i < bs.length) : m (a + i) = listMem bs i := by
  rw [h.getElem hi, Lib.listMem, List.getD_eq_getElem _ _ hi]

/-! ## Words, most significant byte first -/

/-- The four bytes of a 32-bit word, most significant first. -/
def be32 (v : Nat) : List UInt8 :=
  [UInt8.ofNat (v / 16777216), UInt8.ofNat (v / 65536), UInt8.ofNat (v / 256), UInt8.ofNat v]

@[simp] theorem be32_length (v : Nat) : (be32 v).length = 4 := rfl

/-- The word stored at `a`, most significant byte first. -/
def rdBe32 (m : Mem UInt8) (a : Nat) : Nat :=
  16777216 * (m a).toNat + 65536 * (m (a + 1)).toNat + 256 * (m (a + 2)).toNat + (m (a + 3)).toNat

/-- A stored word reads back, cut to 32 bits. -/
theorem rdBe32_be32 {m : Mem UInt8} {a v : Nat} (h : m.Holds a (be32 v)) :
    rdBe32 m a = v % 4294967296 := by
  have h0 : m a = UInt8.ofNat (v / 16777216) := h.getElem (i := 0) (by simp)
  have h1 : m (a + 1) = UInt8.ofNat (v / 65536) := h.getElem (i := 1) (by simp)
  have h2 : m (a + 2) = UInt8.ofNat (v / 256) := h.getElem (i := 2) (by simp)
  have h3 : m (a + 3) = UInt8.ofNat v := h.getElem (i := 3) (by simp)
  simp only [rdBe32, h0, h1, h2, h3, UInt8.toNat_ofNat']
  omega

/-- A word is zero in either byte order or in neither. -/
theorem rd32_eq_zero_iff (m : Mem UInt8) (a : Nat) : rd32 m a = 0 ↔ rdBe32 m a = 0 := by
  simp only [rd32, rdBe32]
  omega

end Uboot.Lib
