/-
  Uboot.Common.CmdNvedit

  The environment's editor and its lookup, common/cmd_nvedit.c: `envmatch`,
  `getenv` and `_do_setenv`.

  Pointers into the data are indices.  What a call does besides (the console it
  switches, the baud rate, `bi_ip_addr`, `load_addr`, `BootFile`, `env_id`) is
  left out; where it may refuse the call, it is here.
-/

import Uboot.Common.EnvCommon

namespace Uboot.Common

open Uboot.Lib Uboot.LibGeneric

/-! ## Lookup -/

/-- `envmatch`.  At the end of `s1` the loop ends: an entry has a `=` before its NUL,
    so the NUL of `s1` meets no other. -/
def envmatch (data : List UInt8) : List UInt8 → Nat → Option Nat
  | [], i2 => if envGetChar data i2 = eqSign then some (i2 + 1) else none
  | c :: s1, i2 =>
    if c = envGetChar data i2 then
      if c = eqSign then some (i2 + 1) else envmatch data s1 (i2 + 1)
    else none

/-- `for (nxt = i; env_get_char (nxt) != '\0'; ++nxt)` -/
def endOfString (data : List UInt8) (i : Nat) : Nat := i + (cstr (data.drop i)).length

/-- The loop of `getenv`, from entry `i` on.  An entry that goes on to
    `CONFIG_ENV_SIZE` ends the search. -/
def getenvLoop (envSize : Nat) (data name : List UInt8) : Nat → Nat → Option (List UInt8)
  | 0, _ => none
  | fuel + 1, i =>
    if envGetChar data i = 0 then none
    else
      let nxt := endOfString data i
      if envSize < nxt then none
      else
        match envmatch data name i with
        | none => getenvLoop envSize data name fuel (nxt + 1)
        | some val => some (cstr (data.drop val))

/-- `getenv`: the string the returned pointer points to. -/
def getenv (cfg : EnvConfig) (data name : List UInt8) : Option (List UInt8) :=
  getenvLoop cfg.envSize data name (data.length + 1) 0

/-! ## `_do_setenv` -/

/-- What the search of `_do_setenv` has found: the entry, its NUL and its value. -/
structure Found where
  env : Nat
  nxt : Nat
  oldval : Nat
  deriving DecidableEq, Repr

/-- The search loop of `_do_setenv`. -/
def findLoop (data name : List UInt8) : Nat → Nat → Option Found
  | 0, _ => none
  | fuel + 1, env =>
    if envGetChar data env = 0 then none
    else
      let nxt := endOfString data env
      match envmatch data name env with
      | some oldval => some ⟨env, nxt, oldval⟩
      | none => findLoop data name fuel (nxt + 1)

def findVar (data name : List UInt8) : Option Found := findLoop data name (data.length + 1) 0

/-- The loop that moves the strings from `nxt` on down to `env`; it ends behind the
    last one's NUL. -/
def shiftLoop : Nat → List UInt8 → Nat → Nat → List UInt8 × Nat
  | 0, data, env, _ => (data, env)
  | fuel + 1, data, env, nxt =>
    let data := data.set env (envGetChar data nxt)
    if envGetChar data env = 0 ∧ envGetChar data (nxt + 1) = 0 then (data, env)
    else shiftLoop fuel data (env + 1) (nxt + 1)

/-- The deletion of an existing definition. -/
def deleteVar (data : List UInt8) (f : Found) : List UInt8 :=
  let nxt := f.nxt + 1
  let (data, env) :=
    if envGetChar data nxt = 0 then
      if 0 < f.env then (data, f.env - 1) else (data.set f.env 0, f.env)
    else shiftLoop (data.length + 1) data f.env nxt
  data.set (env + 1) 0

/-- `for (env = env_data; *env || *(env+1); ++env)` -/
def endLoop (data : List UInt8) : Nat → Nat → Nat
  | 0, env => env
  | fuel + 1, env =>
    if envGetChar data env ≠ 0 ∨ envGetChar data (env + 1) ≠ 0 then endLoop data fuel (env + 1)
    else env

/-- Where a new definition goes. -/
def endOfEnv (data : List UInt8) : Nat :=
  let env := endLoop data (data.length + 1) 0
  if 0 < env then env + 1 else env

/-- The bytes `bs` copied to `env` and on, one by one. -/
def poke : List UInt8 → Nat → List UInt8 → List UInt8
  | data, _, [] => data
  | data, env, b :: bs => poke (data.set env b) (env + 1) bs

/-- The values behind the name, each led in by `sep`; `env` is the NUL they overwrite. -/
def putValues : List UInt8 → Nat → UInt8 → List CStr → List UInt8 × Nat
  | data, env, _, [] => (data, env)
  | data, env, sep, val :: vals =>
    putValues (poke (data.set env sep) (env + 1) (val.bytes ++ [0]))
      (env + 1 + val.bytes.length) 32 vals

/-- The new definition, written from `env` on. -/
def appendVar (data : List UInt8) (env : Nat) (name : CStr) (vals : List CStr) : List UInt8 :=
  let (data, env) :=
    putValues (poke data env (name.bytes ++ [0])) (env + name.bytes.length) eqSign vals
  data.set (env + 1) 0

/-- The arguments of a call. -/
structure SetCall where
  /-- `argv[1]`. -/
  name : CStr
  /-- `argv[2]` and on; none of them deletes the variable. -/
  values : List CStr
  flag : Nat := 0
  /-- What the call returns for the console `argv[2]` names; 0 when it can be assigned. -/
  consoleAnswer : Int := 0

/-- The names with a refusal of their own. -/
def consoleNames : List (List UInt8) := [ascii "stdin", ascii "stdout", ascii "stderr"]

/-- The name may be set once only. -/
def overwriteRefused (cfg : EnvConfig) (data : List UInt8) (call : SetCall) (oldval : Nat) : Bool :=
  !cfg.envOverwrite &&
    (call.name.bytes = ascii "serial#" && !(cfg.hasUid && call.flag = 0xdeaf4add) ||
      call.name.bytes = ascii "ethaddr" &&
        match cfg.ethaddrOnce with
        | some ethaddr => cstr (data.drop oldval) != ethaddr
        | none => true)

/-- The baud rate `argv[2]` names is not supported. -/
def baudrateRefused (cfg : EnvConfig) (call : SetCall) : Bool :=
  call.name.bytes = ascii "baudrate" &&
    simpleStrtoul ((call.values.map CStr.bytes).headD cfg.nullString) 10 ∉ cfg.baudrateTable

/-- The refusals that leave the environment as it is, with what the call returns. -/
def refusal (cfg : EnvConfig) (data : List UInt8) (call : SetCall) (found : Option Found) :
    Option Int :=
  if eqSign ∈ call.name.bytes then some 1
  else if call.name.bytes ∈ consoleNames ∧ call.values = [] then some 1
  else if call.name.bytes ∈ consoleNames ∧ call.consoleAnswer ≠ 0 then some call.consoleAnswer
  else
    match found with
    | none => none
    | some f => if overwriteRefused cfg data call f.oldval || baudrateRefused cfg call then some 1 else none

/-- `len`: the name, `=` or a blank and a value for each argument, and two NULs. -/
def SetCall.len (call : SetCall) : Nat :=
  call.name.bytes.length + 2 + (call.values.map fun v => v.bytes.length + 1).sum

/-- The data once an existing definition is deleted. -/
def deleteFound (data : List UInt8) : Option Found → List UInt8
  | none => data
  | some f => deleteVar data f

/-- `_do_setenv`: what it returns and the environment it leaves. -/
def doSetenv (cfg : EnvConfig) (env : Env) (call : SetCall) : Int × Env :=
  let found := findVar env.data call.name.bytes
  match refusal cfg env.data call found with
  | some r => (r, env)
  | none =>
    let data := deleteFound env.data found
    if call.values = [] then (0, envCrcUpdate { env with data })
    else
      let pos := endOfEnv data
      if data.length < pos + call.len then (1, { env with data })
      else (0, envCrcUpdate { env with data := appendVar data pos call.name call.values })

/-- What a call can do: refuse and leave all as it is, delete, delete and find no
    room for the new definition, or set. -/
theorem doSetenv_cases (cfg : EnvConfig) (env : Env) (call : SetCall) :
    let found := findVar env.data call.name.bytes
    let data := deleteFound env.data found
    (∃ r, refusal cfg env.data call found = some r ∧ doSetenv cfg env call = (r, env)) ∨
    (refusal cfg env.data call found = none ∧ call.values = [] ∧
      doSetenv cfg env call = (0, envCrcUpdate { env with data })) ∨
    (refusal cfg env.data call found = none ∧ call.values ≠ [] ∧
      data.length < endOfEnv data + call.len ∧
      doSetenv cfg env call = (1, { env with data })) ∨
    (refusal cfg env.data call found = none ∧ call.values ≠ [] ∧
      endOfEnv data + call.len ≤ data.length ∧
      doSetenv cfg env call =
        (0, envCrcUpdate
          { env with data := appendVar data (endOfEnv data) call.name call.values })) := by
  intro found data
  cases hr : refusal cfg env.data call found with
  | some r => exact .inl ⟨r, rfl, by simp only [doSetenv, found, hr]⟩
  | none =>
    refine .inr ?_
    by_cases hv : call.values = []
    · exact .inl ⟨rfl, hv, by simp only [doSetenv, found, hr, hv, if_true, data]⟩
    · by_cases hl : data.length < endOfEnv data + call.len
      · refine .inr (.inl ⟨rfl, hv, hl, ?_⟩)
        simp only [doSetenv, found, hr, hv, if_false, data, hl, if_true]
      · refine .inr (.inr ⟨rfl, hv, by omega, ?_⟩)
        simp only [doSetenv, found, hr, hv, if_false, data, hl]

end Uboot.Common
