/-
  Uboot.Common.EnvCrc

  The checksum of the environment over runs of `_do_setenv`, and what it is for: an
  environment that is saved is accepted at the next start.

  `_do_setenv` deletes the old definition of a variable before it looks for room for
  the new one.  Where there is none, it returns without `env_crc_update`.
-/

import Uboot.Lib.Run
import Uboot.Common.EnvStore
import Uboot.Common.EnvNand

namespace Uboot.Common

open Uboot.Lib Uboot.LibGeneric

/-! ## One call -/

/-- The call replaces no variable, or there is room for what it puts in its place. -/
def RoomFor (cfg : EnvConfig) (env : Env) (call : SetCall) : Prop :=
  let found := findVar env.data call.name.bytes
  call.values = [] ∨ found = none ∨ (refusal cfg env.data call found).isSome ∨
    endOfEnv (deleteFound env.data found) + call.len ≤ (deleteFound env.data found).length

instance (cfg : EnvConfig) (env : Env) (call : SetCall) : Decidable (RoomFor cfg env call) :=
  inferInstanceAs (Decidable (_ ∨ _ ∨ _ ∨ _))

/-- `_do_setenv`, as a step of the environment. -/
def setenvStep (cfg : EnvConfig) (env : Env) (call : SetCall) : Env := (doSetenv cfg env call).2

/-- A call that finds room leaves data and checksum consistent. -/
theorem doSetenv_crcOk {cfg : EnvConfig} {env : Env} {call : SetCall} (h : env.CrcOk)
    (hroom : RoomFor cfg env call) : (doSetenv cfg env call).2.CrcOk := by
  obtain ⟨_, _, hgo⟩ | ⟨_, _, hgo⟩ | ⟨href, hv, hover, hgo⟩ | ⟨_, _, _, hgo⟩ :=
    doSetenv_cases cfg env call
  · rw [hgo]
    exact h
  · rw [hgo]
    exact envCrcUpdate_crcOk _
  · -- no room: allowed only where nothing was deleted
    rcases hroom with hv' | hnone | hsome | hfit
    · exact absurd hv' hv
    · rw [hgo, hnone]
      exact h
    · rw [href] at hsome
      exact absurd hsome (by simp)
    · omega
  · rw [hgo]
    exact envCrcUpdate_crcOk _

/-- What calls keep: the size of the data. -/
theorem setenv_run_length (cfg : EnvConfig) (env : Env) (calls : List SetCall) :
    (run (setenvStep cfg) env calls).data.length = env.data.length := by
  induction calls generalizing env with
  | nil => rfl
  | cons call calls ih => rw [run_cons, ih, setenvStep, doSetenv_length]

/-! ## Save and restart -/

theorem EnvConfig.header_add_data {cfg : EnvConfig}
    (h : cfg.defaultEnvironment.length ≤ cfg.dataSize) :
    cfg.headerSize + cfg.dataSize = cfg.envSize := by
  have hlen : 2 ≤ cfg.defaultEnvironment.length := by
    rw [EnvConfig.defaultEnvironment, List.length_append]
    exact Nat.le_add_left ..
  unfold EnvConfig.dataSize at h ⊢
  omega

/-- A saved environment with a good checksum is the one that is loaded. -/
theorem relocate_after_save {site : NandSite} {cfg : EnvConfig}
    (hfit : cfg.defaultEnvironment.length ≤ cfg.dataSize) {s : EnvState} (hcrc : s.env.CrcOk)
    (hlen : s.env.data.length = cfg.dataSize) (hsave : (saveenv site cfg s .none).1 = 0)
    (ram : Env) {heap : List UInt8} (hheap : heap.length = cfg.envSize) :
    (envRelocateSpec site cfg ⟨ram, 1, (saveenv site cfg s .none).2.nand⟩ heap).env =
      { s.env with flags := if cfg.redund then s.env.flags else 0 } := by
  have hbytes : (s.env.toBytes cfg).length = cfg.envSize := by
    rw [Env.toBytes_length, hlen, EnvConfig.header_add_data hfit]
  by_cases hrange : site.envRange < cfg.envSize
  · simp [saveenv, hrange] at hsave
  · have hdone : (saveCopy site cfg site.envOffset (s.env.toBytes cfg) s.nand .none).1 = true := by
      by_contra hno
      simp [saveenv, hrange, hno] at hsave
    have hread := readenv_saveCopy hbytes hdone heap hheap
    have hok : (Env.ofBytes cfg (s.env.toBytes cfg)).CrcOk := by
      rw [Env.ofBytes_toBytes hlen]
      exact hcrc
    simp only [envRelocateSpec, saveenv, hrange, if_false, hread, hok, and_self, if_true]
    exact Env.ofBytes_toBytes hlen

/-- **The checksum is good and a saved environment survives.**  From the default
    environment on, in every state reached by calls that find room for what they put
    in the place of a variable, the stored checksum is the one of the data, and what
    a `saveenv` that returns 0 saves is loaded after a restart. -/
theorem crc_of_run (site : NandSite) (cfg : EnvConfig)
    (hfit : cfg.defaultEnvironment.length ≤ cfg.dataSize) (ram : Env) (calls : List SetCall)
    (hroom : Guarded (setenvStep cfg) (RoomFor cfg) (setDefaultEnv cfg ram) calls) :
    (run (setenvStep cfg) (setDefaultEnv cfg ram) calls).CrcOk ∧
    ∀ (s : EnvState) (ram' : Env) (heap : List UInt8), heap.length = cfg.envSize →
      s.env = run (setenvStep cfg) (setDefaultEnv cfg ram) calls →
      (saveenv site cfg s .none).1 = 0 →
      (envRelocateSpec site cfg ⟨ram', 1, (saveenv site cfg s .none).2.nand⟩ heap).env =
        { s.env with flags := if cfg.redund then s.env.flags else 0 } := by
  obtain ⟨hcrc, hlen⟩ := setDefaultEnv_of_fits hfit ram
  have hrun : (run (setenvStep cfg) (setDefaultEnv cfg ram) calls).CrcOk :=
    run_invariant (fun _ _ h hg => doSetenv_crcOk h hg) hcrc hroom
  refine ⟨hrun, ?_⟩
  intro s ram' heap hheap hs hsave
  refine relocate_after_save hfit (hs ▸ hrun) ?_ hsave ram' hheap
  rw [hs, setenv_run_length, hlen]

/-- A board with 20 bytes of data and two variables. -/
def twoVarsConfig : EnvConfig where
  envSize := 24
  redund := false
  defaultVars := [⟨CStr.lit "a" zero_notMem_a, CStr.lit "1", by decide +kernel⟩,
    ⟨CStr.lit "b" zero_notMem_b, CStr.lit "2", by decide +kernel⟩]

/-- One good block for each copy. -/
def twoBlocksSite : NandSite where
  erasesize := 32
  bad := fun _ => false
  envOffset := 0
  envOffsetRedund := 32
  envRange := 32
  erasesize_pos := by decide
  range_pos := by decide

/-- `setenv a 12`, then `saveenv` and a restart. -/
theorem crc_of_run_two_vars :
    (envRelocateSpec twoBlocksSite twoVarsConfig
      ⟨⟨0, 0, []⟩, 1, (saveenv twoBlocksSite twoVarsConfig
        ⟨run (setenvStep twoVarsConfig) (setDefaultEnv twoVarsConfig ⟨0, 0, []⟩)
          [⟨CStr.lit "a" zero_notMem_a, [CStr.lit "12"], 0, 0⟩], 1, fun _ => 0⟩ .none).2.nand⟩
      (List.replicate 24 0)).env.data = ascii "b=2" ++ 0 :: ascii "a=12" ++ List.replicate 12 0 := 
  (congrArg Env.data ((crc_of_run twoBlocksSite twoVarsConfig (by decide +kernel) ⟨0, 0, []⟩
    [⟨CStr.lit "a" zero_notMem_a, [CStr.lit "12"], 0, 0⟩] (by decide +kernel)).2
    ⟨run (setenvStep twoVarsConfig) (setDefaultEnv twoVarsConfig ⟨0, 0, []⟩)
      [⟨CStr.lit "a" zero_notMem_a, [CStr.lit "12"], 0, 0⟩], 1, fun _ => 0⟩
    ⟨0, 0, []⟩ (List.replicate 24 0) (by decide +kernel) rfl (by decide +kernel))).trans
    (by decide +kernel)

/-- `setenv a 123456789012345` where `a` is set: the call returns 1 with `a` deleted
    and the old checksum, and what is saved then is not accepted. -/
theorem overflow_loses_environment :
    let r := doSetenv twoVarsConfig (setDefaultEnv twoVarsConfig ⟨0, 0, []⟩)
      ⟨CStr.lit "a" zero_notMem_a, [CStr.lit "123456789012345"], 0, 0⟩
    let saved := saveenv twoBlocksSite twoVarsConfig ⟨r.2, 1, fun _ => 0⟩ .none
    r.1 = 1 ∧ ¬ r.2.CrcOk ∧ saved.1 = 0 ∧
      (envRelocateSpec twoBlocksSite twoVarsConfig ⟨⟨0, 0, []⟩, 1, saved.2.nand⟩
        (List.replicate 24 0)).env = setDefaultEnv twoVarsConfig ⟨0, 0, []⟩ ∧
      r.2.data ≠ (setDefaultEnv twoVarsConfig ⟨0, 0, []⟩).data := by
  decide +kernel

end Uboot.Common
