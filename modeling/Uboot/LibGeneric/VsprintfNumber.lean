/-
  Uboot.LibGeneric.VsprintfNumber

  The printing side of lib_generic/vsprintf.c: the decimal digits of a number, `number`,
  and `vsprintf` itself; and what `simple_strtoul` makes of a number that was printed.

  Digits in BCD come from sums of the four hexadecimal digits, and a tenth is a product
  and a shift.  Both are exact only below a bound that the sums keep.
-/

import Uboot.LibGeneric.Div64
import Uboot.LibGeneric.Vsprintf

namespace Uboot.LibGeneric

-- ============================================================================
-- Decimal digits
-- ============================================================================

/-- `put_dec_trunc`: the characters that go to `buf`, one to five of them.  `q` is at most 99999,
    for which nothing overflows. -/
def putDecTrunc (q : Nat) : List UInt8 :=
  let d1 := (q >>> 4) &&& 0xf
  let d2 := (q >>> 8) &&& 0xf
  let d3 := q >>> 12
  let d0 := 6 * (d3 + d2 + d1) + (q &&& 0xf)
  let q := (d0 * 0xcd) >>> 11
  let d0 := d0 - 10 * q
  let d1 := q + 9 * d3 + 5 * d2 + d1
  digit d0 :: if d1 = 0 then [] else
    let q := (d1 * 0xcd) >>> 11
    let d1 := d1 - 10 * q
    let d2 := q + 2 * d2
    digit d1 :: if d2 = 0 ∧ d3 = 0 then [] else
      let q := (d2 * 0xd) >>> 7
      let d2 := d2 - 10 * q
      let d3 := q + 4 * d3
      digit d2 :: if d3 = 0 then [] else
        let q := (d3 * 0xcd) >>> 11
        let d3 := d3 - 10 * q
        digit d3 :: if q = 0 then [] else [digit q]

/-- `put_dec_full`: the same with the `if`s removed. -/
def putDecFull (q : Nat) : List UInt8 :=
  let d1 := (q >>> 4) &&& 0xf
  let d2 := (q >>> 8) &&& 0xf
  let d3 := q >>> 12
  let d0 := 6 * (d3 + d2 + d1) + (q &&& 0xf)
  let q := (d0 * 0xcd) >>> 11
  let d0 := d0 - 10 * q
  let d1 := q + 9 * d3 + 5 * d2 + d1
  let q := (d1 * 0xcd) >>> 11
  let d1 := d1 - 10 * q
  let d2 := q + 2 * d2
  let q := (d2 * 0xd) >>> 7
  let d2 := d2 - 10 * q
  let d3 := q + 4 * d3
  let q := (d3 * 0xcd) >>> 11
  let d3 := d3 - 10 * q
  [digit d0, digit d1, digit d2, digit d3, digit q]

/-- `put_dec` -/
def putDec (num : UInt64) : List UInt8 :=
  if num < 100000 then putDecTrunc num.toNat
  else putDecFull (doDiv num 100000).2.toNat ++ putDec (doDiv num 100000).1
termination_by num.toNat
decreasing_by
  rename_i h
  have hle : 100000 ≤ num.toNat := Nat.not_lt.mp fun hlt => h (UInt64.lt_iff_toNat_lt.mpr hlt)
  rw [(doDiv_spec num 100000 (by decide)).1]
  exact Nat.div_lt_self (by omega) (by decide)

theorem mul_cd_shift {x : Nat} (hx : x < 1024) : (x * 0xcd) >>> 11 = x / 10 := by
  rw [Nat.shiftRight_eq_div_pow]
  omega

theorem mul_0d_shift {x : Nat} (hx : x < 64) : (x * 0xd) >>> 7 = x / 10 := by
  rw [Nat.shiftRight_eq_div_pow]
  omega

theorem sub_ten (x : Nat) : x - 10 * (x / 10) = x % 10 := by omega

/-- A number with its last hexadecimal digit, the two before it and the rest. -/
theorem hex_split (q : Nat) : (q >>> 4) &&& 0xf = q / 16 % 16 ∧ (q >>> 8) &&& 0xf = q / 256 % 16 ∧
    q >>> 12 = q / 4096 ∧ q &&& 0xf = q % 16 := by
  have hmask : ∀ x : Nat, x &&& 0xf = x % 16 := fun x => Nat.and_two_pow_sub_one_eq_mod x 4
  simp only [Nat.shiftRight_eq_div_pow, hmask, Nat.reducePow, and_self]

/-- The sums that stand for the tens, the hundreds and the thousands, with the carry from
    the digit before. -/
structure BcdSums (q d2 d3 s0 s1 s2 s3 : Nat) : Prop where
  tens : q / 10 = s1 + 20 * d2 + 400 * d3
  hundreds : q / 100 = s2 + 40 * d3
  thousands : q / 1000 = s3
  tens_zero : s1 = 0 ↔ q / 10 = 0
  hundreds_zero : s2 = 0 ∧ d3 = 0 ↔ q / 100 = 0
  ones_mod : s0 % 10 = q % 10
  tens_mod : s1 % 10 = q / 10 % 10
  hundreds_mod : s2 % 10 = q / 100 % 10
  bound0 : s0 < 1024
  bound1 : s1 < 1024
  bound2 : s2 < 64
  bound3 : s3 < 1024

theorem bcdSums {q : Nat} (d0 d1 d2 d3 : Nat) (hq : q < 100000) (h : q = 4096 * d3 + 256 * d2 + 16 * d1 + d0)
    (h0 : d0 < 16) (h1 : d1 < 16) (h2 : d2 < 16) {s0 s1 s2 s3 : Nat} (hs0 : s0 = 6 * (d3 + d2 + d1) + d0)
    (hs1 : s1 = s0 / 10 + 9 * d3 + 5 * d2 + d1) (hs2 : s2 = s1 / 10 + 2 * d2) (hs3 : s3 = s2 / 10 + 4 * d3) :
    BcdSums q d2 d3 s0 s1 s2 s3 := by
  have htens : q / 10 = s1 + 20 * d2 + 400 * d3 := by omega
  have hhundreds : q / 100 = s2 + 40 * d3 := by omega
  constructor <;> omega

/-- `put_dec_full` takes one decimal digit off after the other. -/
theorem putDecFull_eq {q : Nat} (hq : q < 100000) :
    putDecFull q = [digit (q % 10), digit (q / 10 % 10), digit (q / 100 % 10), digit (q / 1000 % 10),
      digit (q / 10000)] := by
  obtain ⟨h1, h2, h3, h0⟩ := hex_split q
  have h := bcdSums (q % 16) (q / 16 % 16) (q / 256 % 16) (q / 4096) hq (by omega) (by omega) (by omega)
    (by omega) rfl rfl rfl rfl
  simp only [putDecFull, h0, h1, h2, h3]
  simp only [mul_cd_shift h.bound0, mul_cd_shift h.bound1, mul_0d_shift h.bound2, sub_ten, h.ones_mod,
    h.tens_mod, h.hundreds_mod, ← h.thousands]
  rw [mul_cd_shift (x := q / 1000) (by omega), sub_ten, Nat.div_div_eq_div_mul]

/-- The digits of `decimal`, the last one first. -/
theorem decimal_reverse (n : Nat) :
    (decimal n).reverse = digit (n % 10) :: if n / 10 = 0 then [] else (decimal (n / 10)).reverse := by
  by_cases hn : n < 10
  · rw [decimal_digit hn, if_pos (by omega), Nat.mod_eq_of_lt hn]
    rfl
  · rw [decimal_step (by omega), if_neg (by omega), List.reverse_append]
    rfl

/-- `put_dec_trunc` stops where nothing is left. -/
theorem putDecTrunc_eq {q : Nat} (hq : q < 100000) : putDecTrunc q = (decimal q).reverse := by
  obtain ⟨h1, h2, h3, h0⟩ := hex_split q
  have h := bcdSums (q % 16) (q / 16 % 16) (q / 256 % 16) (q / 4096) hq (by omega) (by omega) (by omega)
    (by omega) rfl rfl rfl rfl
  simp only [putDecTrunc, h0, h1, h2, h3]
  simp only [mul_cd_shift h.bound0, mul_cd_shift h.bound1, mul_0d_shift h.bound2, sub_ten, h.ones_mod,
    h.tens_mod, h.hundreds_mod, h.tens_zero, h.hundreds_zero, ← h.thousands]
  rw [mul_cd_shift (x := q / 1000) (by omega), sub_ten]
  have hlast : (if q / 1000 / 10 = 0 then [] else [digit (q / 1000 / 10)]) =
      if q / 1000 / 10 = 0 then [] else (decimal (q / 1000 / 10)).reverse := by
    rw [decimal_digit (by omega)]
    rfl
  rw [hlast, ← decimal_reverse (q / 1000), show q / 1000 = q / 100 / 10 by omega, ← decimal_reverse (q / 100),
    show q / 100 = q / 10 / 10 by omega, ← decimal_reverse (q / 10), ← decimal_reverse q]

theorem decimal_reverse_step {n : Nat} (hn : 10 ≤ n) :
    (decimal n).reverse = digit (n % 10) :: (decimal (n / 10)).reverse := by
  rw [decimal_reverse n, if_neg (by omega)]

/-- Five digits at once. -/
theorem putDecFull_decimal {n : Nat} (hn : 100000 ≤ n) :
    putDecFull (n % 100000) ++ (decimal (n / 100000)).reverse = (decimal n).reverse := by
  rw [putDecFull_eq (Nat.mod_lt _ (by decide)), decimal_reverse_step (n := n) (by omega),
    decimal_reverse_step (n := n / 10) (by omega), decimal_reverse_step (n := n / 10 / 10) (by omega),
    decimal_reverse_step (n := n / 10 / 10 / 10) (by omega),
    decimal_reverse_step (n := n / 10 / 10 / 10 / 10) (by omega)]
  simp only [List.cons_append, List.nil_append, Nat.div_div_eq_div_mul]
  rw [show n % 100000 % 10 = n % 10 by omega, show n % 100000 / 10 % 10 = n / 10 % 10 by omega,
    show n % 100000 / 100 % 10 = n / (10 * 10) % 10 by omega,
    show n % 100000 / 1000 % 10 = n / (10 * 10 * 10) % 10 by omega,
    show n % 100000 / 10000 = n / (10 * 10 * 10 * 10) % 10 by omega]

/-- **`put_dec`**: the decimal digits, the last one first. -/
theorem putDec_eq (num : UInt64) : putDec num = (decimal num.toNat).reverse := by
  induction num using putDec.induct with
  | case1 num hlt =>
    rw [putDec, if_pos hlt]
    exact putDecTrunc_eq (UInt64.lt_iff_toNat_lt.mp hlt)
  | case2 num hge ih =>
    have hle : 100000 ≤ num.toNat := Nat.not_lt.mp fun hlt => hge (UInt64.lt_iff_toNat_lt.mpr hlt)
    obtain ⟨hquot, hrem⟩ := doDiv_spec num 100000 (by decide)
    rw [putDec, if_neg hge, ih, hquot, hrem]
    exact putDecFull_decimal hle

-- ============================================================================
-- number
-- ============================================================================

/-- The bits of `type` and of `flags`. -/
structure Flags where
  zeropad : Bool := false
  sign : Bool := false
  plus : Bool := false
  space : Bool := false
  left : Bool := false
  small : Bool := false
  special : Bool := false
  deriving DecidableEq

/-- `digits` -/
def digitsUpper : List UInt8 := ascii "0123456789ABCDEF"

/-- `shift` of `number`. -/
def numberShift (base : Nat) : UInt64 := if base = 16 then 4 else 3

theorem numberShift_pos (base : Nat) : 1 < 2 ^ ((numberShift base).toNat % 64) := by
  unfold numberShift
  split <;> decide

/-- The digits of a number in base 8 or 16, the last one first: the `do` loop of `number`. -/
def numberDigits (base : Nat) (locase : UInt8) (num : UInt64) : List UInt8 :=
  (digitsUpper.getD (num.toUInt8.toNat &&& (base - 1)) 0 ||| locase) ::
    if num >>> numberShift base = 0 then [] else numberDigits base locase (num >>> numberShift base)
termination_by num.toNat
decreasing_by
  rename_i h
  rw [← UInt64.toNat_inj, UInt64.toNat_shiftRight, Nat.shiftRight_eq_div_pow] at h
  rw [UInt64.toNat_shiftRight, Nat.shiftRight_eq_div_pow]
  refine Nat.div_lt_self (Nat.pos_of_ne_zero fun h0 => h ?_) (numberShift_pos base)
  rw [h0, Nat.zero_div]
  rfl

/-- `while (--size >= 0) *buf++ = c`, where it is done at all: the characters, and `size` behind
    them. -/
def padLoop (go : Bool) (size : Int) (c : UInt8) : List UInt8 × Int :=
  if go then (List.replicate size.toNat c, min (size - 1) (-1)) else ([], size)

/-- The end of `number`: the parts of the text are put together and filled up to `size`. -/
def numberText (sign pfx tmp : List UInt8) (size precision : Int) (zeropad left : Bool) : List UInt8 :=
  -- printing 100 using %2d gives "100", not "00"
  let precision := max precision tmp.length
  let size := size - precision
  -- leading space padding
  let spaces := padLoop (!(zeropad || left)) size 32
  -- zero or space padding
  let pads := padLoop (!left) spaces.2 (if zeropad then 48 else 32)
  -- hmm even more zero padding?
  let zeros := List.replicate (precision - tmp.length).toNat 48
  spaces.1 ++ sign ++ pfx ++ pads.1 ++ zeros ++ tmp.reverse ++ (padLoop true pads.2 32).1

/-- `number`: the characters that go to `buf`. -/
def number (num : UInt64) (base : Nat) (size precision : Int) (type : Flags) : List UInt8 :=
  let needPfx : Bool := type.special && base != 10
  let locase : UInt8 := if type.small then 0x20 else 0
  let negative : Bool := type.sign && 0x8000000000000000 ≤ num
  let sign : List UInt8 :=
    if !type.sign then [] else if negative then [45] else if type.plus then [43]
    else if type.space then [32] else []
  let num := if negative then 0 - num else num
  let pfx : List UInt8 := if needPfx then 48 :: (if base = 16 then [88 ||| locase] else []) else []
  -- the digits, in reverse order
  let tmp : List UInt8 :=
    if num = 0 then [48] else if base ≠ 10 then numberDigits base locase num else putDec num
  numberText sign pfx tmp (size - sign.length - pfx.length) precision (type.zeropad && !type.left) type.left

/-- `string`; `s` is the string up to its terminator, `none` is a null pointer. -/
def string (s : Option (List UInt8)) (fieldWidth precision : Int) (flags : Flags) : List UInt8 :=
  let s := s.getD (ascii "<NULL>")
  -- `strnlen` takes the precision as a `size_t`
  let s := if precision < 0 then s else s.take precision.toNat
  let spaces := List.replicate (fieldWidth - s.length).toNat 32
  if flags.left then s ++ spaces else spaces ++ s

-- ============================================================================
-- vsprintf
-- ============================================================================

/-- An argument: a number, as it is passed, or a string. -/
inductive Arg
  | num (v : UInt64)
  | str (s : Option (List UInt8))

/-- An argument taken as an `int`. -/
def Arg.int? : Arg → Option Int
  | .num v => some v.toUInt32.toInt32.toInt
  | .str _ => none

def isDigit (c : UInt8) : Bool := 48 ≤ c && c ≤ 57

/-- `skip_atoi` -/
def skipAtoi (i : Nat) : List UInt8 → Nat × List UInt8
  | [] => (i, [])
  | c :: s => if isDigit c then skipAtoi (i * 10 + (c.toNat - 48)) s else (i, c :: s)

/-- The flags of a conversion. -/
def readFlags (flags : Flags) : List UInt8 → Flags × List UInt8
  | 45 :: fmt => readFlags { flags with left := true } fmt
  | 43 :: fmt => readFlags { flags with plus := true } fmt
  | 32 :: fmt => readFlags { flags with space := true } fmt
  | 35 :: fmt => readFlags { flags with special := true } fmt
  | 48 :: fmt => readFlags { flags with zeropad := true } fmt
  | fmt => (flags, fmt)

/-- A number in the format or, for `*`, the next argument; `none` when neither stands there. -/
def readNumber (fmt : List UInt8) (args : List Arg) : Option (Option Int × List UInt8 × List Arg) :=
  match fmt with
  | 42 :: fmt =>
    match args with
    | [] => none
    | arg :: args => arg.int?.map fun i => (some i, fmt, args)
  | c :: _ => if isDigit c then some (some (skipAtoi 0 fmt).1, (skipAtoi 0 fmt).2, args)
    else some (none, fmt, args)
  | [] => some (none, [], args)

/-- The precision, behind a dot. -/
def readPrecision (fmt : List UInt8) (args : List Arg) : Option (Int × List UInt8 × List Arg) :=
  match fmt with
  | 46 :: fmt => (readNumber fmt args).map fun r => (max (r.1.getD (-1)) 0, r.2)
  | _ => some (-1, fmt, args)

/-- The conversion qualifier; `ll` is `L`. -/
def readQualifier : List UInt8 → Option UInt8 × List UInt8
  | 108 :: 108 :: fmt => (some 76, fmt)
  | c :: fmt =>
    if c = 104 ∨ c = 108 ∨ c = 76 ∨ c = 90 ∨ c = 122 ∨ c = 116 then (some c, fmt) else (none, c :: fmt)
  | [] => (none, [])

/-- What stands between the `%` and the letter of a conversion. -/
structure Spec where
  flags : Flags
  fieldWidth : Int
  precision : Int
  qualifier : Option UInt8
  fmt : List UInt8
  args : List Arg

def readSpec (fmt : List UInt8) (args : List Arg) : Option Spec :=
  let flags := readFlags {} fmt
  (readNumber flags.2 args).bind fun width =>
    (readPrecision width.2.1 width.2.2).map fun precision =>
      let qualifier := readQualifier precision.2.1
      -- a negative width stands for its absolute value and `LEFT`
      { flags := { flags.1 with left := flags.1.left || width.1.any (· < 0) }
        fieldWidth := width.1.elim (-1) fun w => w.natAbs
        precision := precision.1
        qualifier := qualifier.1
        fmt := qualifier.2
        args := precision.2.2 }

/-- An argument taken as the qualifier says, widened to 64 bits. -/
def argValue (qualifier : Option UInt8) (sign : Bool) (v : UInt64) : UInt64 :=
  let signedInt := v.toUInt32.toInt32.toInt64.toUInt64
  match qualifier with
  | some 76 => v
  | some 108 => if sign then signedInt else v.toUInt32.toUInt64
  | some 90 => v.toUInt32.toUInt64
  | some 122 => v.toUInt32.toUInt64
  | some 116 => signedInt
  | some 104 => if sign then v.toUInt16.toInt16.toInt64.toUInt64 else v.toUInt16.toUInt64
  | _ => if sign then signedInt else v.toUInt32.toUInt64

/-- An integer conversion: the next argument in `base`. -/
def convertNumber (spec : Spec) (base : Nat) (flags : Flags) : Option (List UInt8 × List Arg) :=
  match spec.args with
  | .num v :: args =>
    some (number (argValue spec.qualifier flags.sign v) base spec.fieldWidth spec.precision flags, args)
  | _ => none

/-- The conversion of the letter `c`: the characters, and the arguments that are left.  `none`:
    the arguments do not fit the format, or it is `%p` or `%n`, which take pointers into the memory. -/
def convert (c : UInt8) (spec : Spec) : Option (List UInt8 × List Arg) :=
  match c with
  | 99 => -- 'c'
    match spec.args with
    | .num v :: args =>
      let spaces := List.replicate (spec.fieldWidth - 1).toNat 32
      some (if spec.flags.left then v.toUInt8 :: spaces else spaces ++ [v.toUInt8], args)
    | _ => none
  | 115 => -- 's'
    match spec.args with
    | .str s :: args => some (string s spec.fieldWidth spec.precision spec.flags, args)
    | _ => none
  | 112 => none
  | 110 => none
  | 37 => some ([37], spec.args)
  | 111 => convertNumber spec 8 spec.flags
  | 120 => convertNumber spec 16 { spec.flags with small := true }
  | 88 => convertNumber spec 16 spec.flags
  | 100 => convertNumber spec 10 { spec.flags with sign := true }
  | 105 => convertNumber spec 10 { spec.flags with sign := true }
  | 117 => convertNumber spec 10 spec.flags
  | c => some ([37, c], spec.args)

theorem skipAtoi_length (i : Nat) (s : List UInt8) : (skipAtoi i s).2.length ≤ s.length := by
  induction s generalizing i with
  | nil => simp [skipAtoi]
  | cons c s ih =>
    rw [skipAtoi]
    split
    · exact Nat.le_succ_of_le (ih _)
    · exact Nat.le_refl _

theorem readFlags_length (flags : Flags) (fmt : List UInt8) : (readFlags flags fmt).2.length ≤ fmt.length := by
  induction flags, fmt using readFlags.induct with
  | case1 flags fmt ih => exact Nat.le_succ_of_le ih
  | case2 flags fmt ih => exact Nat.le_succ_of_le ih
  | case3 flags fmt ih => exact Nat.le_succ_of_le ih
  | case4 flags fmt ih => exact Nat.le_succ_of_le ih
  | case5 flags fmt ih => exact Nat.le_succ_of_le ih
  | case6 flags fmt h1 h2 h3 h4 h5 => rw [readFlags.eq_6 _ _ h1 h2 h3 h4 h5]

theorem readNumber_length {fmt : List UInt8} {args : List Arg} {r : Option Int × List UInt8 × List Arg}
    (h : readNumber fmt args = some r) : r.2.1.length ≤ fmt.length := by
  unfold readNumber at h
  split at h
  · split at h
    · cases h
    · obtain ⟨i, -, rfl⟩ := Option.map_eq_some_iff.mp h
      exact Nat.le_succ _
  · split at h
    · cases h
      exact skipAtoi_length _ _
    · cases h
      exact Nat.le_refl _
  · cases h
    exact Nat.le_refl _

theorem readPrecision_length {fmt : List UInt8} {args : List Arg} {r : Int × List UInt8 × List Arg}
    (h : readPrecision fmt args = some r) : r.2.1.length ≤ fmt.length := by
  unfold readPrecision at h
  split at h
  · obtain ⟨r', hr', rfl⟩ := Option.map_eq_some_iff.mp h
    exact Nat.le_succ_of_le (readNumber_length hr')
  · cases h
    exact Nat.le_refl _

theorem readQualifier_length (fmt : List UInt8) : (readQualifier fmt).2.length ≤ fmt.length := by
  unfold readQualifier
  split
  · simp only [List.length_cons]
    omega
  · split
    · exact Nat.le_succ _
    · exact Nat.le_refl _
  · exact Nat.le_refl _

theorem readSpec_length {fmt : List UInt8} {args : List Arg} {spec : Spec} (h : readSpec fmt args = some spec) :
    spec.fmt.length ≤ fmt.length := by
  rw [readSpec, Option.bind_eq_some_iff] at h
  obtain ⟨r, hr, h⟩ := h
  obtain ⟨r', hr', rfl⟩ := Option.map_eq_some_iff.mp h
  exact ((readQualifier_length _).trans (readPrecision_length hr')).trans
    ((readNumber_length hr).trans (readFlags_length _ _))

/-- `vsprintf`: the characters that go to `buf`, in front of the terminator. -/
def vsprintf (fmt : List UInt8) (args : List Arg) : Option (List UInt8) :=
  match fmt with
  | [] => some []
  | c :: fmt =>
    if c ≠ 37 then (vsprintf fmt args).map (c :: ·)
    else
      match _h : readSpec fmt args with
      | none => none
      | some spec =>
        match _hfmt : spec.fmt with
        | [] => some [37]
        | c :: rest => (convert c spec).bind fun r => (vsprintf rest r.2).map (r.1 ++ ·)
termination_by fmt.length
decreasing_by
  · exact Nat.lt_succ_self _
  · have hle := readSpec_length _h
    rw [_hfmt] at hle
    exact Nat.lt_succ_of_lt hle

@[simp] theorem vsprintf_nil (args : List Arg) : vsprintf [] args = some [] := by rw [vsprintf]

theorem vsprintf_text {c : UInt8} (hc : c ≠ 37) (fmt : List UInt8) (args : List Arg) :
    vsprintf (c :: fmt) args = (vsprintf fmt args).map (c :: ·) := by
  rw [vsprintf, if_pos hc]

theorem vsprintf_conversion {fmt rest : List UInt8} {args : List Arg} {spec : Spec} {c : UInt8}
    {r : List UInt8 × List Arg} (hspec : readSpec fmt args = some spec) (hfmt : spec.fmt = c :: rest)
    (hr : convert c spec = some r) : vsprintf (37 :: fmt) args = (vsprintf rest r.2).map (r.1 ++ ·) := by
  rw [vsprintf, if_neg (by decide)]
  split
  · next h => cases hspec.symm.trans h
  · next spec' h =>
    obtain rfl := Option.some.inj (hspec.symm.trans h)
    split
    · next h' => cases hfmt.symm.trans h'
    · next c' rest' h' =>
      obtain ⟨rfl, rfl⟩ := List.cons.inj (hfmt.symm.trans h')
      rw [hr]
      rfl

/-- A format that ends with the conversion of a number. -/
theorem vsprintf_number (fmt : List UInt8) (c : UInt8) {spec : Spec} {v : UInt64} {out : List UInt8}
    (hspec : readSpec fmt [.num v] = some spec) (hfmt : spec.fmt = [c]) (hr : convert c spec = some (out, [])) :
    vsprintf (37 :: fmt) [.num v] = some out := by
  rw [vsprintf_conversion hspec hfmt hr, vsprintf_nil, Option.map_some, List.append_nil]

-- ============================================================================
-- What is printed is read back
-- ============================================================================

theorem padLoop_of_neg {size : Int} (h : size < 0) (go : Bool) (c : UInt8) :
    (padLoop go size c).1 = [] ∧ (padLoop go size c).2 < 0 := by
  rw [padLoop, Int.toNat_of_nonpos (by omega)]
  split
  · exact ⟨rfl, by dsimp only; omega⟩
  · exact ⟨rfl, h⟩

/-- Without a field width and a precision nothing is padded. -/
theorem numberText_unpadded (sign pfx tmp : List UInt8) {size precision : Int} (hsize : size < 0)
    (hprecision : precision < 0) (zeropad left : Bool) :
    numberText sign pfx tmp size precision zeropad left = sign ++ pfx ++ tmp.reverse := by
  have hlen : max precision tmp.length = (tmp.length : Int) := by omega
  rw [numberText, hlen]
  obtain ⟨hspaces, hrest⟩ := padLoop_of_neg (show size - tmp.length < 0 by omega) (!(zeropad || left)) 32
  obtain ⟨hpads, hrest'⟩ := padLoop_of_neg hrest (!left) (if zeropad then 48 else 32)
  rw [hspaces, hpads, (padLoop_of_neg hrest' true 32).1, Int.sub_self]
  simp

/-- The digits of `number` are those of the base. -/
theorem numberDigits_eq {base : Nat} {locase : UInt8} (hbase : base = 8 ∨ base = 16)
    (hdigits : ∀ d < base, digitsUpper.getD d 0 ||| locase = hexDigit d) {num : UInt64} (hnum : num ≠ 0) :
    numberDigits base locase num = (Nat.digits base num.toNat).map hexDigit := by
  induction num using numberDigits.induct base with
  | case1 num ih =>
    have hpos : 0 < num.toNat := Nat.pos_of_ne_zero fun h0 => hnum (UInt64.toNat_inj.mp h0)
    have hshift : (num >>> numberShift base).toNat = num.toNat / base := by
      rw [UInt64.toNat_shiftRight, Nat.shiftRight_eq_div_pow]
      rcases hbase with rfl | rfl <;> rfl
    have hmask : num.toUInt8.toNat &&& (base - 1) = num.toNat % base := by
      rw [UInt64.toNat_toUInt8]
      rcases hbase with rfl | rfl
      · rw [Nat.and_two_pow_sub_one_eq_mod _ 3]
        omega
      · rw [Nat.and_two_pow_sub_one_eq_mod _ 4]
        omega
    have hlt : num.toNat % base < base := Nat.mod_lt _ (by omega)
    rw [numberDigits, hmask, hdigits _ hlt, Nat.digits_def' (by omega) hpos, List.map_cons]
    congr 1
    split
    · next hzero =>
      have hquot : num.toNat / base = 0 := by rw [← hshift, hzero]; rfl
      rw [hquot, Nat.digits_zero]
      rfl
    · next hne => rw [ih hne hne, hshift]

/-- The digits of `n` in `base`, with 0 as one digit. -/
def printed (base n : Nat) : List UInt8 := if n = 0 then [48] else (Nat.digits base n).reverse.map hexDigit

/-- An unsigned conversion without a width: the prefix and the digits. -/
theorem number_unsigned (num : UInt64) (base : Nat) {type : Flags} (hsign : type.sign = false) :
    number num base (-1) (-1) type =
      (if type.special && base != 10 then
        48 :: (if base = 16 then [88 ||| if type.small then 0x20 else 0] else []) else []) ++
      (if num = 0 then [48] else
        if base ≠ 10 then numberDigits base (if type.small then 0x20 else 0) num else putDec num).reverse := by
  simp only [number, hsign, Bool.not_false, if_true, Bool.false_and, Bool.false_eq_true, if_false]
  exact numberText_unpadded _ _ _ (by simp only [List.length_nil]; omega) (by decide) _ _

theorem toNat_ne_zero {v : UInt64} (hv : v ≠ 0) : v.toNat ≠ 0 := fun h0 => hv (UInt64.toNat_inj.mp h0)

theorem number_lu (v : UInt64) : number v 10 (-1) (-1) {} = printed 10 v.toNat := by
  rw [number_unsigned _ _ rfl, printed]
  by_cases hv : v = 0
  · subst hv
    rfl
  · rw [if_neg hv, if_neg (toNat_ne_zero hv), putDec_eq,
      ← decimal_eq_digits (Nat.pos_of_ne_zero (toNat_ne_zero hv))]
    exact List.reverse_reverse _

/-- Octal, or hexadecimal in lower case, behind its prefix. -/
theorem number_hex (base : Nat) (hbase : base = 8 ∨ base = 16) (type : Flags) (hsign : type.sign = false)
    (hdigits : ∀ d < base, digitsUpper.getD d 0 ||| (if type.small then 0x20 else 0) = hexDigit d) (v : UInt64) :
    number v base (-1) (-1) type =
      (if type.special then 48 :: (if base = 16 then [88 ||| if type.small then 0x20 else 0] else []) else []) ++
        printed base v.toNat := by
  have hne : base ≠ 10 := by omega
  rw [number_unsigned _ _ hsign, printed, bne_iff_ne.mpr hne, Bool.and_true]
  congr 1
  by_cases hv : v = 0
  · subst hv
    rfl
  · rw [if_neg hv, if_pos hne, numberDigits_eq hbase hdigits hv, if_neg (toNat_ne_zero hv), List.map_reverse]

/-- What is printed for `v` is read back in base 0, up to the terminator. -/
def ReadsBack (fmt : List UInt8) (v : UInt32) : Prop :=
  ∃ s, vsprintf fmt [.num v.toUInt64] = some s ∧
    ∀ rest, simpleStrtoul (s ++ 0 :: rest) 0 = v.toNat ∧ strtoulEndp (s ++ 0 :: rest) 0 = 0 :: rest

/-- `%lu`, and `%lx` and `%lo` with the prefix in the format or from `#`. -/
def numberFormats : List (List UInt8) := ["%lu", "0x%lx", "%#lx", "0%lo", "%#lo"].map ascii

theorem vsprintf_lu (v : UInt64) :
    vsprintf (ascii "%lu") [.num v] = some (number v.toUInt32.toUInt64 10 (-1) (-1) {}) :=
  vsprintf_number [108, 117] 117 rfl rfl rfl

theorem vsprintf_lx (v : UInt64) : vsprintf (ascii "%lx") [.num v] =
    some (number v.toUInt32.toUInt64 16 (-1) (-1) { small := true }) :=
  vsprintf_number [108, 120] 120 rfl rfl rfl

theorem vsprintf_lx_special (v : UInt64) : vsprintf (ascii "%#lx") [.num v] =
    some (number v.toUInt32.toUInt64 16 (-1) (-1) { small := true, special := true }) :=
  vsprintf_number [35, 108, 120] 120 rfl rfl rfl

theorem vsprintf_lo (v : UInt64) : vsprintf (ascii "%lo") [.num v] =
    some (number v.toUInt32.toUInt64 8 (-1) (-1) {}) :=
  vsprintf_number [108, 111] 111 rfl rfl rfl

theorem vsprintf_lo_special (v : UInt64) : vsprintf (ascii "%#lo") [.num v] =
    some (number v.toUInt32.toUInt64 8 (-1) (-1) { special := true }) :=
  vsprintf_number [35, 108, 111] 111 rfl rfl rfl

/-- The texts of the formats are the digits behind the prefix of their base. -/
theorem vsprintf_numberFormats {fmt : List UInt8} (hfmt : fmt ∈ numberFormats) (v : UInt32) :
    vsprintf fmt [.num v.toUInt64] = some (printed 10 v.toNat) ∨
      vsprintf fmt [.num v.toUInt64] = some (48 :: 120 :: printed 16 v.toNat) ∨
      vsprintf fmt [.num v.toUInt64] = some (48 :: printed 8 v.toNat) := by
  have hhex : ∀ d < 16, digitsUpper.getD d 0 ||| 0x20 = hexDigit d := by decide
  have hoct : ∀ d < 8, digitsUpper.getD d 0 ||| 0 = hexDigit d := by decide
  have hv : v.toUInt64.toUInt32.toUInt64.toNat = v.toNat := by simp
  simp only [numberFormats, List.map_cons, List.map_nil, List.mem_cons, List.not_mem_nil, or_false] at hfmt
  rcases hfmt with rfl | rfl | rfl | rfl | rfl
  · left
    rw [vsprintf_lu, number_lu, hv]
  · right; left
    rw [show ascii "0x%lx" = 48 :: 120 :: ascii "%lx" from rfl, vsprintf_text (by decide),
      vsprintf_text (by decide), vsprintf_lx, number_hex 16 (.inr rfl) { small := true } rfl hhex, hv]
    rfl
  · right; left
    rw [vsprintf_lx_special, number_hex 16 (.inr rfl) { small := true, special := true } rfl hhex, hv]
    rfl
  · right; right
    rw [show ascii "0%lo" = 48 :: ascii "%lo" from rfl, vsprintf_text (by decide), vsprintf_lo,
      number_hex 8 (.inl rfl) {} rfl hoct, hv]
    rfl
  · right; right
    rw [vsprintf_lo_special, number_hex 8 (.inl rfl) { special := true } rfl hoct, hv]
    rfl

/-- The digits are read back up to the terminator. -/
theorem strtoulLoop_printed {base : Nat} (n : Nat) (h2 : 1 < base) (h16 : base ≤ 16) (hn : n < 4294967296)
    (rest : List UInt8) :
    strtoulLoop base 0 (printed base n ++ 0 :: rest) = n ∧
      strtoulLoopEnd base (printed base n ++ 0 :: rest) = 0 :: rest := by
  have hnul : ¬ (isXDigit 0 = true ∧ xDigit 0 < base) := by simp [isXDigit]
  have hstop : strtoulLoop base n (0 :: rest) = n ∧ strtoulLoopEnd base (0 :: rest) = 0 :: rest :=
    ⟨by rw [strtoulLoop, if_neg hnul], by rw [strtoulLoopEnd, if_neg hnul]⟩
  rw [printed]
  split
  · next h0 =>
    subst h0
    have hzero : isXDigit 48 = true ∧ xDigit 48 < base := ⟨by decide, by rw [show xDigit 48 = 0 from rfl]; omega⟩
    rw [List.singleton_append, strtoulLoop, if_pos hzero, strtoulLoopEnd, if_pos hzero, Nat.zero_mul]
    exact hstop
  · obtain ⟨hv, he⟩ := strtoulLoop_digits h2 h16 hn (0 :: rest)
    exact ⟨hv.trans hstop.1, he.trans hstop.2⟩

/-- The first of the digits. -/
theorem printed_head (base n : Nat) (h2 : 1 < base) :
    ∃ d < base, ∃ ds, printed base n = hexDigit d :: ds := by
  rw [printed]
  split
  · exact ⟨0, by omega, [], rfl⟩
  · next h0 =>
    have hne : (Nat.digits base n).reverse ≠ [] := by
      rw [ne_eq, List.reverse_eq_nil_iff]
      exact Nat.digits_ne_nil_iff_ne_zero.mpr h0
    obtain ⟨d, ds, hds⟩ := List.exists_cons_of_ne_nil hne
    refine ⟨d, Nat.digits_lt_base h2 (List.mem_reverse.mp (hds ▸ List.mem_cons_self)), ds.map hexDigit, ?_⟩
    rw [hds, List.map_cons]

theorem readsBack {fmt : List UInt8} (hfmt : fmt ∈ numberFormats) (v : UInt32) : ReadsBack fmt v := by
  have hv := v.toNat_lt
  rcases vsprintf_numberFormats hfmt v with h | h | h
  · -- `%lu`: a number that is not 0 does not start with a 0
    refine ⟨_, h, fun rest => ?_⟩
    by_cases h0 : v.toNat = 0
    · rw [h0]
      exact ⟨rfl, rfl⟩
    · have hpos := Nat.pos_of_ne_zero h0
      rw [printed, if_neg h0, ← decimal_eq_digits hpos]
      exact simpleStrtoul_decimal hpos hv (by simp [isXDigit])
  · refine ⟨_, h, fun rest => ?_⟩
    obtain ⟨hval, hend⟩ := strtoulLoop_printed v.toNat (show 1 < 16 by decide) (by decide) hv rest
    obtain ⟨d, hd, ds, hds⟩ := printed_head 16 v.toNat (by decide)
    rw [hds] at hval hend ⊢
    have hx := (hexDigit_spec d hd).1
    simp only [List.cons_append, simpleStrtoul, strtoulEndp, hx, if_true] at hval hend ⊢
    exact ⟨hval, hend⟩
  · refine ⟨_, h, fun rest => ?_⟩
    obtain ⟨hval, hend⟩ := strtoulLoop_printed v.toNat (show 1 < 8 by decide) (by decide) hv rest
    obtain ⟨d, hd, ds, hds⟩ := printed_head 8 v.toNat (by decide)
    -- no octal digit is an `x`
    have hx : hexDigit d ≠ 120 := (show ∀ d < 8, hexDigit d ≠ 120 by decide) d hd
    rw [hds] at hval hend ⊢
    simp only [List.cons_append] at hval hend ⊢
    unfold simpleStrtoul strtoulEndp
    split
    · next heq => exact absurd (List.cons.inj (List.cons.inj heq).2).1 hx
    · next heq =>
      obtain ⟨-, rfl⟩ := List.cons.inj heq
      exact ⟨hval, hend⟩
    · next hne => exact absurd rfl (hne _)

/-- **Numbers.**  `put_dec` gives the decimal digits of every 64-bit value, the last one first, and
    every `unsigned long` that is printed is read back. -/
theorem putDec_digits_readsBack (num : UInt64) (v : UInt32) :
    putDec num = (if num = 0 then [0] else Nat.digits 10 num.toNat).map digit ∧
      ReadsBack (ascii "%lu") v ∧ ReadsBack (ascii "0x%lx") v ∧ ReadsBack (ascii "%#lx") v ∧
      ReadsBack (ascii "0%lo") v ∧ ReadsBack (ascii "%#lo") v := by
  have hmem : ∀ i < 5, (numberFormats.getD i []) ∈ numberFormats := by decide
  refine ⟨?_, readsBack (hmem 0 (by decide)) v, readsBack (hmem 1 (by decide)) v,
    readsBack (hmem 2 (by decide)) v, readsBack (hmem 3 (by decide)) v, readsBack (hmem 4 (by decide)) v⟩
  rw [putDec_eq, decimal]
  by_cases hnum : num = 0
  · subst hnum
    rfl
  · rw [if_neg hnum, if_neg (toNat_ne_zero hnum), List.map_reverse, List.reverse_reverse]

end Uboot.LibGeneric
