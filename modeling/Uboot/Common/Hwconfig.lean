/-
  Uboot.Common.Hwconfig

  The hwconfig options of common/hwconfig.c: a string of options, each with an argument
  made of sub-options, in which names are looked up by substring search.

  Pointers into the string are distances from its start, and behind its end stands the NUL.
  A name is searched for with one function at both levels; the characters that separate
  options are not those that separate sub-options.
-/

import Uboot.LibGeneric.Strstr
import Mathlib.Data.List.GetD
import Mathlib.Tactic.SplitIfs

namespace Uboot.Common.Hwconfig

open Uboot.LibGeneric

-- ============================================================================
-- Names and values
-- ============================================================================

/-- A character that separates nothing: not one of `;`, `:`, `,`, `=` and NUL. -/
def Plain (c : UInt8) : Prop := c ≠ 59 ∧ c ≠ 58 ∧ c ≠ 44 ∧ c ≠ 61 ∧ c ≠ 0

instance (c : UInt8) : Decidable (Plain c) := inferInstanceAs (Decidable (_ ∧ _))

/-- The name of an option or a sub-option. -/
structure Name where
  chars : List UInt8
  ne_nil : chars ≠ []
  plain : ∀ c ∈ chars, Plain c

/-- The value of a sub-option. -/
structure Value where
  chars : List UInt8
  plain : ∀ c ∈ chars, Plain c

theorem Name.length_pos (opt : Name) : 0 < opt.chars.length := List.length_pos_iff.mpr opt.ne_nil

-- ============================================================================
-- hwconfig_parse
-- ============================================================================

/-- The loop of `hwconfig_parse`, from `opts` on: where the option stands. -/
def hwconfigNext (cfg : List UInt8) (start maxlen : Nat) (opt : Name) (stopch eqch : UInt8) (opts : Nat) :
    Option Nat :=
  match _h : strstr opt.chars (cfg.drop opts) with
  | none => none
  | some i =>
    let str := opts + i
    let fin := str + opt.chars.length
    if maxlen < fin - start then none
    else if (str = opts ∨ cfg.getD (str - 1) 0 = stopch) ∧
        (cfg.getD fin 0 = stopch ∨ cfg.getD fin 0 = eqch ∨ cfg.getD fin 0 = 0) then some str
    else hwconfigNext cfg start maxlen opt stopch eqch fin
termination_by cfg.length - opts
decreasing_by
  have hle := strstr_le _h
  have hpos := opt.length_pos
  rw [List.length_drop] at hle
  omega

/-- `*arglen` for the option at `str`. -/
def arglenAt (cfg : List UInt8) (maxlen : Nat) (opt : Name) (stopch : UInt8) (str : Nat) : Nat :=
  match strchr stopch (cfg.drop str) with
  | none => min maxlen (cfg.length - str) - opt.chars.length - 1
  | some i => (str + i) - (str + opt.chars.length) - 1

/-- `hwconfig_parse` without `arglen`. -/
def hwconfigParse (cfg : List UInt8) (start maxlen : Nat) (opt : Name) (stopch eqch : UInt8) : Option Nat :=
  hwconfigNext cfg start maxlen opt stopch eqch start

/-- `hwconfig_parse` with `arglen`: the argument and its length. -/
def hwconfigParseArg (cfg : List UInt8) (start maxlen : Nat) (opt : Name) (stopch eqch : UInt8) :
    Option (Nat × Nat) :=
  (hwconfigNext cfg start maxlen opt stopch eqch start).bind fun str =>
    let fin := str + opt.chars.length
    if cfg.getD fin 0 ≠ eqch then none else some (fin + 1, arglenAt cfg maxlen opt stopch str)

/-- Where the options come from: the environment, the board or the processor. -/
structure Sources where
  env : Option (List UInt8)
  board : Option (List UInt8)
  cpu : Option (List UInt8)

/-- The string that is used. -/
def Sources.string (src : Sources) : Option (List UInt8) := src.env <|> src.board <|> src.cpu

/-- `hwconfig` -/
def hwconfig (src : Sources) (opt : Name) : Bool :=
  (src.string.bind fun cfg => hwconfigParse cfg 0 cfg.length opt 59 58).isSome

/-- `hwconfig_arg`, which is `__hwconfig` with `arglen`. -/
def hwconfigArg (src : Sources) (opt : Name) : Option (Nat × Nat) :=
  src.string.bind fun cfg => hwconfigParseArg cfg 0 cfg.length opt 59 58

/-- `hwconfig_sub` -/
def hwconfigSub (src : Sources) (opt subopt : Name) : Bool :=
  (src.string.bind fun cfg =>
    (hwconfigArg src opt).bind fun arg => hwconfigParse cfg arg.1 arg.2 subopt 44 61).isSome

/-- `hwconfig_subarg` -/
def hwconfigSubarg (src : Sources) (opt subopt : Name) : Option (Nat × Nat) :=
  src.string.bind fun cfg =>
    (hwconfigArg src opt).bind fun arg => hwconfigParseArg cfg arg.1 arg.2 subopt 44 61

-- ============================================================================
-- The documented form
-- ============================================================================

/-- A name with what may stand behind it, at either level. -/
structure Item where
  name : Name
  tail : Option (List UInt8)

/-- An item as text: the tail stands behind `eqch`. -/
def Item.text (eqch : UInt8) (it : Item) : List UInt8 :=
  it.name.chars ++ it.tail.elim [] fun t => eqch :: t

/-- Items as text, with `stopch` between them. -/
def levelText (stopch eqch : UInt8) : List Item → List UInt8
  | [] => []
  | [it] => it.text eqch
  | it :: more => it.text eqch ++ stopch :: levelText stopch eqch more

/-- A sub-option. -/
structure SubOption where
  name : Name
  value : Option Value

/-- An option with its argument. -/
structure HwOption where
  name : Name
  arg : Option (List SubOption)

def SubOption.item (sub : SubOption) : Item := ⟨sub.name, sub.value.map Value.chars⟩

def argText (subs : List SubOption) : List UInt8 := levelText 44 61 (subs.map SubOption.item)

def HwOption.item (o : HwOption) : Item := ⟨o.name, o.arg.map argText⟩

/-- The hwconfig string. -/
def hwconfigText (options : List HwOption) : List UInt8 := levelText 59 58 (options.map HwOption.item)

/-- Where the tail of the first item with a name stands, and its length; the items stand at `off`. -/
def tailOf (eqch : UInt8) (opt : Name) (off : Nat) : List Item → Option (Nat × Nat)
  | [] => none
  | it :: more =>
    if it.name.chars = opt.chars then it.tail.map fun t => (off + it.name.chars.length + 1, t.length)
    else tailOf eqch opt (off + (it.text eqch).length + 1) more

end Uboot.Common.Hwconfig
