/-
  Uboot.LibGeneric.Memmove

  `memmove` of lib_generic/string.c: a loop upwards or one downwards, as the areas lie.
-/

import Mathlib.Logic.Function.Basic
import Uboot.Lib.Mem

namespace Uboot.LibGeneric

open Uboot.Lib (Mem)

/-- `*tmp++ = *s++`, `count` times. -/
def copyUp (m : Mem UInt8) (tmp s : Nat) : Nat → Mem UInt8
  | 0 => m
  | count + 1 => copyUp (Function.update m tmp (m s)) (tmp + 1) (s + 1) count

/-- `*--tmp = *--s`, `count` times. -/
def copyDown (m : Mem UInt8) (tmp s : Nat) : Nat → Mem UInt8
  | 0 => m
  | count + 1 => copyDown (Function.update m (tmp - 1) (m (s - 1))) (tmp - 1) (s - 1) count

/-- `memmove` -/
def memmove (m : Mem UInt8) (dest src count : Nat) : Mem UInt8 :=
  if dest ≤ src then copyUp m dest src count else copyDown m (dest + count) (src + count) count

variable {m : Mem UInt8} {dest src count : Nat}

/-- The loop upwards reads each byte before it is overwritten, where it copies down. -/
theorem copyUp_eq_copy (h : dest ≤ src) : copyUp m dest src count = m.copy dest src count := by
  induction count generalizing m dest src with
  | zero =>
    funext x
    exact (m.copy_outside (by omega)).symm
  | succ count ih =>
    rw [copyUp, ih (Nat.succ_le_succ h)]
    funext x
    by_cases hx : dest ≤ x ∧ x < dest + (count + 1)
    · rw [m.copy_inside hx.1 hx.2]
      by_cases hfirst : x = dest
      · rw [Mem.copy_outside _ (by omega), hfirst, Function.update_self, Nat.sub_self, Nat.add_zero]
      · rw [Mem.copy_inside _ (by omega) (by omega), Function.update_of_ne (by omega)]
        congr 1
        omega
    · rw [m.copy_outside (by omega), Mem.copy_outside _ (by omega), Function.update_of_ne (by omega)]

/-- The loop downwards does, where it copies up. -/
theorem copyDown_eq_copy (h : src < dest) : copyDown m (dest + count) (src + count) count = m.copy dest src count := by
  induction count generalizing m with
  | zero =>
    funext x
    exact (m.copy_outside (by omega)).symm
  | succ count ih =>
    rw [copyDown, Nat.add_succ_sub_one, Nat.add_succ_sub_one, ih]
    funext x
    by_cases hx : dest ≤ x ∧ x < dest + (count + 1)
    · rw [m.copy_inside hx.1 hx.2]
      by_cases hlast : x = dest + count
      · rw [Mem.copy_outside _ (by omega), hlast, Function.update_self, Nat.add_sub_cancel_left]
      · rw [Mem.copy_inside _ (by omega) (by omega), Function.update_of_ne (by omega)]
    · rw [m.copy_outside (by omega), Mem.copy_outside _ (by omega), Function.update_of_ne (by omega)]

/-- **`memmove`** copies as if it had read the whole area first. -/
theorem memmove_eq_copy : memmove m dest src count = m.copy dest src count := by
  rw [memmove]
  split
  · rename_i hle
    exact copyUp_eq_copy hle
  · rename_i hlt
    exact copyDown_eq_copy (Nat.lt_of_not_le hlt)

end Uboot.LibGeneric
