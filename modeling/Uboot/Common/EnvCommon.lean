/-
  Uboot.Common.EnvCommon

  The environment in RAM, include/environment.h and common/env_common.c: a checksum,
  the serial of a redundant copy and the data, which hold one `name=value` string
  after another and end in an empty one.
-/

import Uboot.Lib.Mem
import Uboot.LibGeneric.Vsprintf
import Uboot.LibGeneric.Crc32

namespace Uboot.Common

open Uboot.Lib Uboot.LibGeneric

/-! ## Strings -/

/-- A C string: the bytes before its NUL. -/
structure CStr where
  bytes : List UInt8
  noNul : 0 ∉ bytes
  deriving DecidableEq

/-- A C string literal. -/
def CStr.lit (s : String) (h : 0 ∉ ascii s := by decide +kernel) : CStr := ⟨ascii s, h⟩

theorem zero_notMem_a : 0 ∉ ascii "a" := by decide +kernel

theorem zero_notMem_b : 0 ∉ ascii "b" := by decide +kernel

/-- `=` -/
def eqSign : UInt8 := 61

/-- A variable of the environment.  The name ends at the first `=`, so it has none. -/
structure EnvVar where
  name : CStr
  value : CStr
  noEq : eqSign ∉ name.bytes
  deriving DecidableEq

/-- The string that stands for the variable. -/
def EnvVar.text (v : EnvVar) : List UInt8 := v.name.bytes ++ eqSign :: v.value.bytes

/-- The variables one after another, each string with its NUL. -/
def packed (vs : List EnvVar) : List UInt8 := vs.flatMap fun v => v.text ++ [0]

@[simp] theorem packed_nil : packed [] = [] := rfl

@[simp] theorem packed_cons (v : EnvVar) (vs : List EnvVar) :
    packed (v :: vs) = v.text ++ 0 :: packed vs := by simp [packed]

@[simp] theorem packed_append (vs ws : List EnvVar) : packed (vs ++ ws) = packed vs ++ packed ws :=
  List.flatMap_append

/-! ## Definitions from the source -/

/-- `env_t`.  `flags` is there with a redundant environment only. -/
structure Env where
  crc : UInt32
  flags : UInt8
  data : List UInt8
  deriving DecidableEq

/-- What a board's configuration says about the environment. -/
structure EnvConfig where
  /-- `CONFIG_ENV_SIZE`. -/
  envSize : Nat
  /-- `CONFIG_SYS_REDUNDAND_ENVIRONMENT`. -/
  redund : Bool
  /-- The strings of `default_environment[]`. -/
  defaultVars : List EnvVar
  /-- `CONFIG_ENV_OVERWRITE`. -/
  envOverwrite : Bool := true
  /-- `CONFIG_HAS_UID`. -/
  hasUid : Bool := false
  /-- `CONFIG_ETHADDR`, with `CONFIG_OVERWRITE_ETHADDR_ONCE`. -/
  ethaddrOnce : Option (List UInt8) := none
  /-- `CONFIG_SYS_BAUDRATE_TABLE`. -/
  baudrateTable : List Nat := []
  /-- The string at address 0, which a deletion of `baudrate` reads. -/
  nullString : List UInt8 := []

/-- `ENV_HEADER_SIZE`. -/
def EnvConfig.headerSize (cfg : EnvConfig) : Nat := if cfg.redund then 5 else 4

/-- `ENV_SIZE`. -/
def EnvConfig.dataSize (cfg : EnvConfig) : Nat := cfg.envSize - cfg.headerSize

/-- `default_environment[]`: the strings, an empty one, and the NUL that ends the
    C literal. -/
def EnvConfig.defaultEnvironment (cfg : EnvConfig) : List UInt8 := packed cfg.defaultVars ++ [0, 0]

/-- The checksum of the data.  Where they stand does not matter (`crc32At_addr`). -/
def envCrc (data : List UInt8) : UInt32 := crc32At 0 0 data

def envCrcUpdate (env : Env) : Env := { env with crc := envCrc env.data }

/-- `set_default_env`, on the environment `env_ptr` points to. -/
def setDefaultEnv (cfg : EnvConfig) (env : Env) : Env :=
  if cfg.dataSize < cfg.defaultEnvironment.length then env
  else
    envCrcUpdate
      { crc := 0
        flags := if cfg.redund then 0xFF else 0
        data := cfg.defaultEnvironment ++
          List.replicate (cfg.dataSize - cfg.defaultEnvironment.length) 0 }

/-- `env_get_char`, with NUL behind the data. -/
def envGetChar (data : List UInt8) (index : Nat) : UInt8 := data.getD index 0

/-! ## The checksum field -/

/-- The stored checksum is the one of the data. -/
def Env.CrcOk (env : Env) : Prop := env.crc = envCrc env.data

instance (env : Env) : Decidable env.CrcOk := inferInstanceAs (Decidable (_ = _))

@[simp] theorem envCrcUpdate_crcOk (env : Env) : (envCrcUpdate env).CrcOk := rfl

@[simp] theorem envCrcUpdate_data (env : Env) : (envCrcUpdate env).data = env.data := rfl

@[simp] theorem envCrcUpdate_flags (env : Env) : (envCrcUpdate env).flags = env.flags := rfl

/-- What `set_default_env` leaves, when the default environment fits. -/
theorem setDefaultEnv_of_fits {cfg : EnvConfig}
    (h : cfg.defaultEnvironment.length ≤ cfg.dataSize) (env : Env) :
    (setDefaultEnv cfg env).CrcOk ∧ (setDefaultEnv cfg env).data.length = cfg.dataSize := by
  rw [setDefaultEnv, if_neg (by omega)]
  constructor
  · exact envCrcUpdate_crcOk _
  · simp only [envCrcUpdate_data, List.length_append, List.length_replicate]
    omega

end Uboot.Common
