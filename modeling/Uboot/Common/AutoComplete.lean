/-
  Uboot.Common.AutoComplete

  Tab completion: `cmd_auto_complete` of common/command.c with the two ways it finds names,
  among the commands and with `env_complete` of common/env_common.c among the variables.

  A string is the list of its characters without the NUL.  The candidates are a list that is
  cut off with `...` where it gets too long; what is appended counts the characters that were
  typed from the last word of the line.  Console output is left out.
-/

import Uboot.Common.RunCommand
import Uboot.Lib.CommonPrefix

namespace Uboot.Common.AutoComplete

open Uboot.Lib Uboot.Common.RunCommand

-- ============================================================================
-- Names
-- ============================================================================

/-- `CONFIG_SYS_CBSIZE` -/
def cbSize : Nat := 256

/-- `CONFIG_SYS_MAXARGS` -/
def maxArgs : Nat := 16

/-- `sizeof(cmdv)/sizeof(cmdv[0])` -/
def maxv : Nat := 20

/-- `cmd_tbl_t`; the only `complete` handler is `var_complete`. -/
structure CmdTbl where
  name : List UInt8
  complete : Bool

/-- The commands and the environment, string by string; `prompt` is `CONFIG_SYS_PROMPT`. -/
structure Shell where
  prompt : List UInt8
  table : List CmdTbl
  env : List (List UInt8)

/-- The part of a command name in front of its length modifier. -/
def stem (cmd : List UInt8) : List UInt8 := cmd.takeWhile (· ≠ 46)

/-- `find_cmd`: the first full match, or the only abbreviation. -/
def findCmd (table : List CmdTbl) (cmd : List UInt8) : Option CmdTbl :=
  match table.find? fun c => c.name = stem cmd with
  | some c => some c
  | none =>
    match table.filter fun c => (stem cmd).isPrefixOf c.name with
    | [c] => some c
    | _ => none

/-- The entry for the names that were left out. -/
def dots : List UInt8 := [46, 46, 46]

/-- The list of names in `cmdv`, with `room` entries left.  A name takes `cost` bytes of a
    buffer that has `bufsz`. -/
def offer (cost : List UInt8 → Nat) : Nat → Nat → List (List UInt8) → List (List UInt8)
  | _, _, [] => []
  | room, bufsz, m :: names =>
    if room = 0 ∨ bufsz < cost m then [dots] else m :: offer cost (room - 1) (bufsz - cost m) names

/-- The commands are offered by reference. -/
def offerCommands (names : List (List UInt8)) : List (List UInt8) := offer (fun _ => 0) (maxv - 2) 0 names

/-- The name of a variable. -/
def varName (string : List UInt8) : List UInt8 := string.takeWhile (· ≠ 61)

/-- `env_complete`, with the 512 bytes of `var_complete`: the names are copied. -/
def envComplete (env : List (List UInt8)) (var : List UInt8) : List (List UInt8) :=
  offer (fun m => m.length + 1) (maxv - 2) 512 ((env.map varName).filter fun m => var.isPrefixOf m)

/-- The line ends in a blank, or is empty. -/
def endsBlank (text : List UInt8) : Bool := (text.getLast?.map isBlank).getD true

/-- `var_complete` -/
def varComplete (env : List (List UInt8)) (argv : List (List UInt8)) (space : Bool) : List (List UInt8) :=
  match argv with
  | [_] => if space then envComplete env [] else []
  | [_, var] => if space then [] else envComplete env var
  | _ => []

/-- `complete_cmdv` -/
def completeCmdv (sh : Shell) (argv : List (List UInt8)) (space : Bool) : List (List UInt8) :=
  match argv with
  | [] => offerCommands (sh.table.map CmdTbl.name)
  | cmd :: args =>
    if args ≠ [] ∨ space then
      match findCmd sh.table cmd with
      | none => []
      | some cmdtp => if cmdtp.complete then varComplete sh.env argv space else []
    else offerCommands ((sh.table.map CmdTbl.name).filter fun m => (stem cmd).isPrefixOf m)

/-- `make_argv`, with `room` entries left. -/
def makeArgv : Nat → List UInt8 → List (List UInt8)
  | 0, _ => []
  | room + 1, s =>
    match s.dropWhile isBlank with
    | [] => []
    | c :: s =>
      (c :: s).takeWhile (!isBlank ·) :: makeArgv room (((c :: s).dropWhile (!isBlank ·)).drop 1)

/-- `find_common_prefix` -/
def findCommonPrefix : List (List UInt8) → Nat
  | [] => 0
  | anchor :: names => sharedLen anchor anchor.length names

-- ============================================================================
-- `cmd_auto_complete`
-- ============================================================================

/-- What `cmd_auto_complete` returns, and leaves in `buf`, `*np` and `*colp`. -/
structure Reply where
  ret : Bool
  buf : List UInt8
  n : Nat
  col : Nat

/-- The `if (s != NULL)` branch: `s` is appended to `buf` where it fits. -/
def appendReply (buf : List UInt8) (n col : Nat) (s : List UInt8) : Reply :=
  if n + s.length ≥ cbSize - 2 then ⟨true, buf, n, col⟩ else ⟨true, buf ++ s, n + s.length, col + s.length⟩

/-- `cmd_auto_complete`.  `none`: it reads in front of `argv`, or behind the end of a name. -/
def cmdAutoComplete (sh : Shell) (prompt buf : List UInt8) (n col : Nat) : Option Reply :=
  if prompt ≠ sh.prompt then some ⟨false, buf, n, col⟩
  else
    let argv := makeArgv maxArgs buf
    match completeCmdv sh argv (endsBlank buf) with
    | [] => some ⟨argv.length ≤ 1, buf, n, col⟩
    | [m] =>
      argv.getLast?.bind fun last =>
        let k := last.length
        if m.length < k then none else some (appendReply buf n col (m.drop k ++ [32]))
    | m :: names =>
      let j := findCommonPrefix (m :: names)
      if j = 0 then some ⟨true, buf, n, col⟩
      else
        argv.getLast?.map fun last =>
          let k := last.length
          if j ≤ k then ⟨true, buf, n, col⟩ else appendReply buf n col ((m.take j).drop k)

end Uboot.Common.AutoComplete
