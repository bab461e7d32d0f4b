/-
  Uboot.LibGeneric.Vsprintf

  Number parsing of lib_generic/vsprintf.c, on the list of the bytes from the
  pointer on.  `unsigned long` is 32 bits wide.
-/

import Uboot.Lib.Mem
import Mathlib.Data.Nat.Digits.Defs

namespace Uboot.LibGeneric

open Uboot.Lib

/-- The bytes of an ASCII string, without a terminator. -/
def ascii (s : String) : List UInt8 := s.toList.map fun c => UInt8.ofNat c.toNat

/-- The C string at the head of `bs`. -/
def cstr (bs : List UInt8) : List UInt8 := bs.takeWhile (· ≠ 0)

/-- The string up to the first NUL. -/
theorem cstr_append {t : List UInt8} (h : 0 ∉ t) (R : List UInt8) : cstr (t ++ 0 :: R) = t := by
  have hall : ∀ b ∈ t, decide (b ≠ 0) = true := by
    intro b hb
    exact decide_eq_true fun e => h (e ▸ hb)
  rw [cstr, List.takeWhile_append_of_pos hall]
  simp

theorem cstr_append_nul (w r : List UInt8) : cstr (w ++ 0 :: r) = cstr w := by
  induction w with
  | nil => rfl
  | cons c cs ih =>
    rw [cstr] at ih
    rw [cstr, cstr, List.cons_append, List.takeWhile_cons, List.takeWhile_cons, ih]
    rfl

theorem cstr_noNul (bs : List UInt8) : 0 ∉ cstr bs := by
  intro h
  have hne := List.all_eq_true.mp List.all_takeWhile 0 h
  simp at hne

def isXDigit (c : UInt8) : Bool :=
  (48 ≤ c && c ≤ 57) || (65 ≤ c && c ≤ 70) || (97 ≤ c && c ≤ 102)

/-- The value of a hexadecimal digit. -/
def xDigit (c : UInt8) : Nat :=
  if c ≤ 57 then c.toNat - 48 else if c ≤ 70 then c.toNat - 55 else c.toNat - 87

/-- The loop of `simple_strtoul`: digits below `base`. -/
def strtoulLoop (base result : Nat) : List UInt8 → Nat
  | [] => result
  | c :: cs =>
    if isXDigit c ∧ xDigit c < base then strtoulLoop base (u32 (result * base + xDigit c)) cs
    else result

/-- `simple_strtoul (cp, NULL, base)`.  A leading `0x` before a digit selects base 16
    whatever `base` is. -/
def simpleStrtoul (cp : List UInt8) (base : Nat) : Nat :=
  match cp with
  | 48 :: 120 :: c :: cs =>
    if isXDigit c then strtoulLoop 16 0 (c :: cs)
    else strtoulLoop (if base = 0 then 8 else base) 0 (120 :: c :: cs)
  | 48 :: cs => strtoulLoop (if base = 0 then 8 else base) 0 cs
  | _ => strtoulLoop (if base = 0 then 10 else base) 0 cp

/-- Where the loop of `simple_strtoul` stops. -/
def strtoulLoopEnd (base : Nat) : List UInt8 → List UInt8
  | [] => []
  | c :: cs => if isXDigit c ∧ xDigit c < base then strtoulLoopEnd base cs else c :: cs

/-- `*endp` of `simple_strtoul (cp, endp, base)`. -/
def strtoulEndp (cp : List UInt8) (base : Nat) : List UInt8 :=
  match cp with
  | 48 :: 120 :: c :: cs =>
    if isXDigit c then strtoulLoopEnd 16 (c :: cs)
    else strtoulLoopEnd (if base = 0 then 8 else base) (120 :: c :: cs)
  | 48 :: cs => strtoulLoopEnd (if base = 0 then 8 else base) cs
  | _ => strtoulLoopEnd (if base = 0 then 10 else base) cp

/-- A decimal digit. -/
def digit (d : Nat) : UInt8 := UInt8.ofNat (48 + d)

/-- `%u`. -/
def decimal (n : Nat) : List UInt8 :=
  if n = 0 then [48] else (Nat.digits 10 n).reverse.map digit

/-- A hexadecimal digit in lower case. -/
def hexDigit (d : Nat) : UInt8 := UInt8.ofNat (if d < 10 then 48 + d else 87 + d)

/-- `%08lx` of a 32-bit number. -/
def hex8 (n : Nat) : List UInt8 :=
  (List.range 8).map fun i => hexDigit (n / 16 ^ (7 - i) % 16)

theorem strtoulLoop_lt {base result : Nat} (h : result < 4294967296) (cs : List UInt8) :
    strtoulLoop base result cs < 4294967296 := by
  induction cs generalizing result with
  | nil => exact h
  | cons c cs ih =>
    rw [strtoulLoop]
    split
    · exact ih (u32_lt _)
    · exact h

/-- The result is an `unsigned long`. -/
theorem simpleStrtoul_lt (cp : List UInt8) (base : Nat) : simpleStrtoul cp base < 4294967296 := by
  unfold simpleStrtoul
  split
  · split <;> exact strtoulLoop_lt (by decide) _
  · exact strtoulLoop_lt (by decide) _
  · exact strtoulLoop_lt (by decide) _

-- ============================================================================
-- Printed numbers read back
-- ============================================================================

theorem digit_toNat {d : Nat} (hd : d < 10) : (digit d).toNat = 48 + d := by
  simp only [digit, UInt8.toNat_ofNat']
  omega

/-- The last digit stands behind those of the quotient. -/
theorem decimal_step {n : Nat} (hn : 10 ≤ n) : decimal n = decimal (n / 10) ++ [digit (n % 10)] := by
  have h0 : n ≠ 0 := by omega
  have hq : n / 10 ≠ 0 := by omega
  simp only [decimal, h0, hq, if_false]
  rw [Nat.digits_def' (by omega) (by omega), List.reverse_cons, List.map_append, List.map_singleton]

theorem decimal_digit {n : Nat} (hn : n < 10) : decimal n = [digit n] := by
  unfold decimal
  split
  · next h => rw [h]; rfl
  · next h => rw [Nat.digits_of_lt 10 n h hn]; rfl

theorem hexDigit_spec : ∀ d < 16, isXDigit (hexDigit d) = true ∧ xDigit (hexDigit d) = d := by decide

/-- Reading the digits of `n` leaves the loop at `n`, whatever follows. -/
theorem strtoulLoop_digits {base n : Nat} (h2 : 1 < base) (h16 : base ≤ 16) (hn : n < 4294967296)
    (rest : List UInt8) :
    strtoulLoop base 0 ((Nat.digits base n).reverse.map hexDigit ++ rest) = strtoulLoop base n rest ∧
      strtoulLoopEnd base ((Nat.digits base n).reverse.map hexDigit ++ rest) = strtoulLoopEnd base rest := by
  induction n using Nat.strong_induction_on generalizing rest with
  | _ n ih =>
    rcases Nat.eq_zero_or_pos n with rfl | hpos
    · rw [Nat.digits_zero]
      exact ⟨rfl, rfl⟩
    · have hlt : n % base < base := Nat.mod_lt _ (by omega)
      have hquot : n / base < n := Nat.div_lt_self hpos h2
      have hdiv := Nat.div_add_mod' n base
      obtain ⟨h1, h2⟩ := hexDigit_spec (n % base) (by omega)
      obtain ⟨hv, he⟩ := ih (n / base) hquot (by omega) (hexDigit (n % base) :: rest)
      rw [Nat.digits_def' (by omega) hpos, List.reverse_cons, List.map_append, List.map_singleton,
        List.append_assoc, List.singleton_append, hv, he]
      simp only [strtoulLoop, strtoulLoopEnd, h1, h2, hlt, and_self, if_true]
      rw [hdiv, u32_of_lt hn]
      exact ⟨rfl, trivial⟩

theorem decimal_eq_digits {n : Nat} (hn : 0 < n) : decimal n = (Nat.digits 10 n).reverse.map hexDigit := by
  rw [decimal, if_neg (by omega)]
  apply List.map_congr_left
  intro d hd
  have hlt : d < 10 := Nat.digits_lt_base (by decide) (List.mem_reverse.mp hd)
  rw [digit, hexDigit, if_pos hlt]

theorem strtoulLoop_decimal {n : Nat} (h0 : 0 < n) (hn : n < 4294967296) (rest : List UInt8) :
    strtoulLoop 10 0 (decimal n ++ rest) = strtoulLoop 10 n rest ∧
      strtoulLoopEnd 10 (decimal n ++ rest) = strtoulLoopEnd 10 rest := by
  rw [decimal_eq_digits h0]
  exact strtoulLoop_digits (by decide) (by decide) hn rest

/-- A number that is not 0 starts with a digit that is not 0. -/
theorem decimal_head {n : Nat} (hn : 0 < n) :
    ∃ d, 0 < d ∧ d < 10 ∧ ∃ ds, decimal n = digit d :: ds := by
  induction n using Nat.strong_induction_on with
  | _ n ih =>
    by_cases h10 : n < 10
    · exact ⟨n, hn, h10, [], decimal_digit h10⟩
    · obtain ⟨d, h0, h9, ds, hds⟩ := ih (n / 10) (by omega) (by omega)
      exact ⟨d, h0, h9, ds ++ [digit (n % 10)], by rw [decimal_step (by omega), hds]; rfl⟩

/-- A printed number that is not 0, with no digit behind it, is read back in base 0. -/
theorem simpleStrtoul_decimal {n : Nat} (h0 : 0 < n) (hn : n < 4294967296) {rest : List UInt8}
    (hrest : ∀ c ∈ rest.head?, ¬ (isXDigit c ∧ xDigit c < 10)) :
    simpleStrtoul (decimal n ++ rest) 0 = n ∧ strtoulEndp (decimal n ++ rest) 0 = rest := by
  obtain ⟨d, hd0, hd9, ds, hds⟩ := decimal_head h0
  have hne : digit d ≠ 48 := by
    intro he
    have h48 : (digit d).toNat = 48 := congrArg UInt8.toNat he
    have := digit_toNat hd9
    omega
  obtain ⟨hv, he⟩ := strtoulLoop_decimal h0 hn rest
  have hstop : strtoulLoop 10 n rest = n ∧ strtoulLoopEnd 10 rest = rest := by
    cases rest with
    | nil => exact ⟨rfl, rfl⟩
    | cons c cs =>
      have hc := hrest c rfl
      exact ⟨by rw [strtoulLoop, if_neg hc], by rw [strtoulLoopEnd, if_neg hc]⟩
  rw [hds, List.cons_append] at hv he ⊢
  unfold simpleStrtoul strtoulEndp
  split
  · next h => exact absurd (List.cons.inj h).1 hne
  · next h => exact absurd (List.cons.inj h).1 hne
  · exact ⟨hv.trans hstop.1, he.trans hstop.2⟩

end Uboot.LibGeneric
