/-
  Uboot.Lib.Mem

  Byte memory as a function from addresses, with the three ways C code changes
  it: a store of a list of bytes, a fill (`memset`) and a copy inside the memory
  (`memcpy`/`memmove`, source read before anything is written).  Each comes with
  an inside and an outside lemma, so that later proofs never unfold it.
  Unsigned 32-bit arithmetic and little-endian words are the number formats the
  models need.

  Nothing here names the boot loader.
-/

import Mathlib.Data.List.GetD
import Mathlib.Tactic.Ring

namespace Uboot.Lib

/-! ## Memory -/

/-- A memory of cells of type `α`. -/
abbrev Mem (α : Type*) := Nat → α

namespace Mem

variable {α : Type*} (m : Mem α) {a n x : Nat} {bs : List α}

/-- `m` with the bytes `bs` stored from address `a` on. -/
def write (m : Mem α) (a : Nat) (bs : List α) : Mem α := fun x =>
  if a ≤ x then bs.getD (x - a) (m x) else m x

/-- `m` with the `n` cells from `a` on set to `v`. -/
def fill (m : Mem α) (a n : Nat) (v : α) : Mem α := fun x =>
  if a ≤ x ∧ x < a + n then v else m x

/-- `m` with the `n` cells from `src` on copied to `dst`. -/
def copy (m : Mem α) (dst src n : Nat) : Mem α := fun x =>
  if dst ≤ x ∧ x < dst + n then m (src + (x - dst)) else m x

/-- The `n` cells from `a` on. -/
def read (m : Mem α) (a n : Nat) : List α := (List.range n).map fun i => m (a + i)

theorem write_outside (h : x < a ∨ a + bs.length ≤ x) : m.write a bs x = m x := by
  by_cases ha : a ≤ x
  · rw [write, if_pos ha, List.getD_eq_default _ _ (by omega)]
  · rw [write, if_neg ha]

theorem write_inside {i : Nat} (h : i < bs.length) : m.write a bs (a + i) = bs[i] := by
  rw [write, if_pos (by omega), Nat.add_sub_cancel_left, List.getD_eq_getElem _ _ h]

@[simp] theorem write_nil : m.write a [] = m := by
  funext x
  exact m.write_outside (by simp only [List.length_nil]; omega)

/-- Bytes stored right behind others. -/
theorem write_append (bs cs : List α) : (m.write a bs).write (a + bs.length) cs = m.write a (bs ++ cs) := by
  funext x
  by_cases hbefore : x < a
  · rw [write_outside _ (.inl (by omega)), write_outside _ (.inl hbefore), write_outside _ (.inl hbefore)]
  obtain ⟨i, rfl⟩ := Nat.exists_eq_add_of_le (Nat.not_lt.mp hbefore)
  by_cases hleft : i < bs.length
  · rw [write_outside _ (.inl (by omega)), write_inside m hleft,
      write_inside m (by rw [List.length_append]; omega), List.getElem_append_left hleft]
  obtain ⟨j, rfl⟩ := Nat.exists_eq_add_of_le (Nat.not_lt.mp hleft)
  by_cases hright : j < cs.length
  · rw [← Nat.add_assoc, write_inside _ hright, Nat.add_assoc, write_inside m (by rw [List.length_append]; omega),
      List.getElem_append_right (by omega)]
    congr 1
    omega
  · rw [write_outside _ (.inr (by omega)), write_outside _ (.inr (by omega)),
      write_outside _ (.inr (by rw [List.length_append]; omega))]

theorem fill_outside {v : α} (h : x < a ∨ a + n ≤ x) : m.fill a n v x = m x := by
  rw [fill, if_neg (by omega)]

theorem fill_inside {v : α} (h₁ : a ≤ x) (h₂ : x < a + n) : m.fill a n v x = v := by
  rw [fill, if_pos ⟨h₁, h₂⟩]

theorem copy_outside {dst src : Nat} (h : x < dst ∨ dst + n ≤ x) :
    m.copy dst src n x = m x := by
  rw [copy, if_neg (by omega)]

theorem copy_inside {dst src : Nat} (h₁ : dst ≤ x) (h₂ : x < dst + n) :
    m.copy dst src n x = m (src + (x - dst)) := by
  rw [copy, if_pos ⟨h₁, h₂⟩]

@[simp] theorem read_length : (m.read a n).length = n := by simp [read]

theorem getElem_read {i : Nat} (h : i < (m.read a n).length) :
    (m.read a n)[i] = m (a + i) := by simp [read]

/-- Two memories read alike where they agree. -/
theorem read_congr {m m' : Mem α} (h : ∀ x, a ≤ x → x < a + n → m x = m' x) :
    m.read a n = m'.read a n := by
  apply List.map_congr_left
  intro i hi
  exact h _ (by omega) (by have := List.mem_range.mp hi; omega)

/-- Reading back what was stored. -/
theorem read_write : (m.write a bs).read a bs.length = bs := by
  apply List.ext_getElem
  · simp
  · intro i h₁ h₂
    rw [getElem_read, write_inside m h₂]

/-- A copy stores what is read. -/
theorem copy_eq_write (b : Nat) : m.copy a b n = m.write a (m.read b n) := by
  funext x
  by_cases hx : a ≤ x ∧ x < a + n
  · obtain ⟨i, rfl⟩ := Nat.exists_eq_add_of_le hx.1
    have hi : i < (m.read b n).length := by
      rw [read_length]
      omega
    rw [m.copy_inside hx.1 hx.2, m.write_inside hi, getElem_read, Nat.add_sub_cancel_left]
  · rw [m.copy_outside (by omega), m.write_outside (by rw [read_length]; omega)]

/-- A read of `n + k` cells is the read of the first `n` and of the next `k`. -/
theorem map_range' : (List.range' a n).map m = m.read a n := by
  rw [List.range'_eq_map_range, List.map_map]
  rfl

theorem read_add {k : Nat} : m.read a (n + k) = m.read a n ++ m.read (a + n) k := by
  simp only [read, List.range_add, List.map_append, List.map_map]
  congr 1
  apply List.map_congr_left
  intro i _
  simp [Nat.add_assoc]

/-- Storing what is read in two pieces. -/
theorem write_read_add {m' : Mem α} {dst k : Nat} :
    (m'.write dst (m.read a n)).write (dst + n) (m.read (a + n) k) = m'.write dst (m.read a (n + k)) := by
  have happend := m'.write_append (a := dst) (m.read a n) (m.read (a + n) k)
  rwa [read_length, ← read_add] at happend

theorem take_read {i : Nat} (h : i ≤ n) : (m.read a n).take i = m.read a i := by
  obtain ⟨k, rfl⟩ := Nat.exists_eq_add_of_le h
  rw [read_add, List.take_left' (read_length m)]

theorem drop_read {i : Nat} (h : i ≤ n) : (m.read a n).drop i = m.read (a + i) (n - i) := by
  obtain ⟨k, rfl⟩ := Nat.exists_eq_add_of_le h
  rw [read_add, List.drop_left' (read_length m), Nat.add_sub_cancel_left]

/-- A reading with the stored bytes inside it. -/
theorem read_write_inside (h₁ : a ≤ x) (h₂ : x + bs.length ≤ a + n) :
    (m.write x bs).read a n =
      m.read a (x - a) ++ bs ++ m.read (x + bs.length) (a + n - (x + bs.length)) := by
  obtain ⟨i, rfl⟩ := Nat.exists_eq_add_of_le h₁
  obtain ⟨k, rfl⟩ : ∃ k, n = i + bs.length + k := ⟨n - (i + bs.length), by omega⟩
  have hbefore : (m.write (a + i) bs).read a i = m.read a i :=
    read_congr fun y _ hy => m.write_outside (.inl hy)
  have hbehind : (m.write (a + i) bs).read (a + (i + bs.length)) k =
      m.read (a + (i + bs.length)) k :=
    read_congr fun y hy _ => m.write_outside (.inr (by omega))
  rw [read_add, read_add, hbefore, read_write, hbehind, Nat.add_sub_cancel_left, ← Nat.add_assoc,
    show a + (i + bs.length + k) - (a + i + bs.length) = k by omega]

/-- Storing right behind what is read extends the reading. -/
theorem read_write_append {cs : List α} (h : m.read a n = cs) :
    (m.write (a + n) bs).read a (n + bs.length) = cs ++ bs := by
  rw [read_add, read_write]
  congr 1
  rw [← h]
  exact read_congr fun x _ hx => m.write_outside (.inl hx)

end Mem

/-! ## Unsigned 32-bit arithmetic -/

/-- A value as an `unsigned int` holds it. -/
def u32 (x : Nat) : Nat := x % 4294967296

/-- `x - y` of two values of type `unsigned int`. -/
def usub (x y : Nat) : Nat := u32 (4294967296 + x - y)

theorem u32_lt (x : Nat) : u32 x < 4294967296 := Nat.mod_lt _ (by decide)

theorem u32_of_lt {x : Nat} (h : x < 4294967296) : u32 x = x := Nat.mod_eq_of_lt h

theorem u32_u32 (x : Nat) : u32 (u32 x) = u32 x := Nat.mod_mod x _

theorem u32_add_left (x y : Nat) : u32 (u32 x + y) = u32 (x + y) := Nat.mod_add_mod _ _ _

theorem usub_of_le {x y : Nat} (h : y ≤ x) (hx : x < 4294967296) : usub x y = x - y := by
  simp only [usub, u32]
  omega

/-! ## Little-endian words -/

/-- The two bytes of a 16-bit word, least significant first. -/
def le16 (v : Nat) : List UInt8 := [UInt8.ofNat v, UInt8.ofNat (v / 256)]

/-- The four bytes of a 32-bit word, least significant first. -/
def le32 (v : Nat) : List UInt8 :=
  [UInt8.ofNat v, UInt8.ofNat (v / 256), UInt8.ofNat (v / 65536), UInt8.ofNat (v / 16777216)]

@[simp] theorem le16_length (v : Nat) : (le16 v).length = 2 := rfl

@[simp] theorem le32_length (v : Nat) : (le32 v).length = 4 := rfl

/-- The 16-bit word stored at `a`. -/
def rd16 (m : Mem UInt8) (a : Nat) : Nat := (m a).toNat + 256 * (m (a + 1)).toNat

/-- The 32-bit word stored at `a`. -/
def rd32 (m : Mem UInt8) (a : Nat) : Nat :=
  (m a).toNat + 256 * (m (a + 1)).toNat + 65536 * (m (a + 2)).toNat +
    16777216 * (m (a + 3)).toNat

theorem rd16_lt (m : Mem UInt8) (a : Nat) : rd16 m a < 65536 := by
  have h0 := (m a).toNat_lt
  have h1 := (m (a + 1)).toNat_lt
  rw [rd16]
  omega

theorem rd32_lt (m : Mem UInt8) (a : Nat) : rd32 m a < 4294967296 := by
  have h0 := (m a).toNat_lt
  have h1 := (m (a + 1)).toNat_lt
  have h2 := (m (a + 2)).toNat_lt
  have h3 := (m (a + 3)).toNat_lt
  rw [rd32]
  omega

theorem rd16_congr {m m' : Mem UInt8} {a : Nat} (h : ∀ x, a ≤ x → x < a + 2 → m x = m' x) :
    rd16 m a = rd16 m' a := by
  simp only [rd16, h a (by omega) (by omega), h (a + 1) (by omega) (by omega)]

theorem rd32_congr {m m' : Mem UInt8} {a : Nat} (h : ∀ x, a ≤ x → x < a + 4 → m x = m' x) :
    rd32 m a = rd32 m' a := by
  simp only [rd32, h a (by omega) (by omega), h (a + 1) (by omega) (by omega), h (a + 2) (by omega) (by omega),
    h (a + 3) (by omega) (by omega)]

/-- A stored 16-bit word reads back, cut to 16 bits. -/
theorem rd16_le16 {m : Mem UInt8} {a v : Nat}
    (h : ∀ i (hi : i < (le16 v).length), m (a + i) = (le16 v)[i]) :
    rd16 m a = v % 65536 := by
  have h0 : m a = UInt8.ofNat v := h 0 (by simp)
  have h1 : m (a + 1) = UInt8.ofNat (v / 256) := h 1 (by simp)
  simp only [rd16, h0, h1, UInt8.toNat_ofNat']
  omega

/-- A stored 32-bit word reads back, cut to 32 bits. -/
theorem rd32_le32 {m : Mem UInt8} {a v : Nat}
    (h : ∀ i (hi : i < (le32 v).length), m (a + i) = (le32 v)[i]) :
    rd32 m a = v % 4294967296 := by
  have h0 : m a = UInt8.ofNat v := h 0 (by simp)
  have h1 : m (a + 1) = UInt8.ofNat (v / 256) := h 1 (by simp)
  have h2 : m (a + 2) = UInt8.ofNat (v / 65536) := h 2 (by simp)
  have h3 : m (a + 3) = UInt8.ofNat (v / 16777216) := h 3 (by simp)
  simp only [rd32, h0, h1, h2, h3, UInt8.toNat_ofNat']
  omega

end Uboot.Lib
