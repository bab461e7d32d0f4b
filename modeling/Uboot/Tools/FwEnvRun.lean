/-
  Uboot.Tools.FwEnvRun

  The boot loader and the Linux tool on one redundant environment.

  A run interleaves `saveenv` and the writes of `fw_setenv`.  After every step both
  programs should select the same copy, the one written last.  The boot loader always
  selects that one; the tool compares the serials as `char` and misses it at one point
  of the circle of serials.
-/

import Uboot.Tools.FwEnv

namespace Uboot.Tools

open Uboot.Lib Uboot.LibGeneric Uboot.Common

-- ============================================================================
-- Runs
-- ============================================================================

/-- The data of an environment. -/
abbrev EnvData (b : FwBoard) : Type := { data : List UInt8 // data.length = b.cfg.dataSize }

/-- What the buffers of `env_relocate_spec` hold when they are allocated. -/
abbrev EnvHeap (b : FwBoard) : Type := { heap : List UInt8 // heap.length = b.cfg.envSize }

/-- What happens to the environment in flash. -/
inductive FwEvent (b : FwBoard)
  /-- The board is reset, and the boot loader loads the environment. -/
  | reboot (heap1 heap2 : EnvHeap b)
  /-- The variables are set so that the environment holds `data`, and it is saved.
      Where Linux has run since the last reset, there is one before. -/
  | saveenv (data : EnvData b) (heap1 heap2 : EnvHeap b)
  /-- Linux runs, and `fw_setenv` leaves `data`. -/
  | fwSetenv (data : EnvData b)

/-- The RAM of the boot loader and the flash, whether the boot loader still has the
    machine, and of the last write that was complete its copy and its data. -/
structure FwRun where
  s : EnvState
  booted : Bool
  last : Nat × List UInt8

variable (b : FwBoard)

/-- `env_relocate_spec` of the boot loader. -/
def relocate (s : EnvState) (heap1 heap2 : EnvHeap b) : EnvState :=
  envRelocateSpecRedund b.site b.cfg s heap1.1 heap2.1

/-- One event. -/
def fwStep (r : FwRun) : FwEvent b → FwRun
  | .reboot heap1 heap2 => { r with s := relocate b r.s heap1 heap2, booted := true }
  | .saveenv data heap1 heap2 =>
    let s := if r.booted then r.s else relocate b r.s heap1 heap2
    let q := saveenvRedund b.site b.cfg
      { s with env := envCrcUpdate { s.env with data := data.1 } } .none
    { s := q.2
      booted := true
      last := if q.1 = 0 then (otherCopy s.envValid, data.1) else r.last }
  | .fwSetenv data =>
    let q := fwSetenv b r.s.nand data.1
    { s := { r.s with nand := q.2 }
      booted := false
      last :=
        match q.1, envInit b r.s.nand with
        | true, some (devCurrent, _) => (if devCurrent = 0 then 2 else 1, data.1)
        | _, _ => r.last }

/-- Both programs select the copy that was written last, and find its data. -/
def Agree (r : FwRun) : Prop :=
  (∀ heap1 heap2, (relocate b r.s heap1 heap2).envValid = r.last.1 ∧
    (relocate b r.s heap1 heap2).env.data = r.last.2) ∧
  ∃ image, envInit b r.s.nand = some (r.last.1 - 1, image) ∧ image.data = r.last.2

/-- The serial `f`, stored in copy `n` after its predecessor in the other copy, is
    newer by the tool's comparison too. -/
def SerialSeen (signed : Bool) (n : Nat) (f : UInt8) : Prop :=
  if signed then f ≠ 128 else ¬ (n = 1 ∧ f = 0)

/-- The serial of the copy written last is seen as the newer one. -/
def LastSeen (r : FwRun) : Prop :=
  ∀ e ∈ goodCopy b.toRedundBoard r.s.nand r.last.1, SerialSeen b.charSigned r.last.1 e.flags

/-- The serial that the next write stores will be seen as the newer one. -/
def NextSeen (r : FwRun) : FwEvent b → Prop
  | .reboot _ _ => True
  | _ => ∀ e ∈ goodCopy b.toRedundBoard r.s.nand r.last.1,
      SerialSeen b.charSigned (otherCopy r.last.1) (e.flags + 1)

/-- Both copies are written, one after the other: the serial of the last one follows
    that of the other, and a boot loader that still has the machine knows the last. -/
structure BothWritten (r : FwRun) : Prop where
  copy : r.last.1 = 1 ∨ r.last.1 = 2
  written : ∃ new old, goodCopy b.toRedundBoard r.s.nand r.last.1 = some new ∧
    goodCopy b.toRedundBoard r.s.nand (otherCopy r.last.1) = some old ∧
    new.flags = old.flags + 1 ∧ new.data = r.last.2 ∧
    (r.booted = true → r.s.envValid = r.last.1 ∧ r.s.env.flags = new.flags)

-- ============================================================================
-- Serials
-- ============================================================================

theorem charOf_eq (signed : Bool) (f : UInt8) :
    charOf signed f =
      if signed = true ∧ 128 ≤ f.toNat then (f.toNat : Int) - 256 else f.toNat := by
  have hf := f.toNat_lt
  cases signed with
  | false => simp [charOf]
  | true =>
    have hn : f.toBitVec.toNat = f.toNat := rfl
    have h : f.toInt8.toInt = if 2 * f.toNat < 256 then (f.toNat : Int) else f.toNat - 256 :=
      BitVec.toInt_eq_toNat_cond f.toBitVec
    rw [charOf, if_pos rfl, h]
    simp only [true_and]
    split <;> split <;> omega

theorem newerCopy_succ (f : UInt8) : newerCopy (f + 1) f = 1 ∧ newerCopy f (f + 1) = 2 := by
  have hf := f.toNat_lt
  have hs : (f + 1).toNat = (f.toNat + 1) % 256 := by simp
  constructor <;>
    simp only [newerCopy, ← UInt8.toNat_inj, UInt8.lt_iff_toNat_lt, hs] <;>
    split_ifs <;> simp at * <;> omega

/-- Copy 1 is the newer one: the tool sees it unless its serial has wrapped. -/
theorem incrementalDev_one (signed : Bool) (f : UInt8) :
    incrementalDev signed (f + 1) f = 0 ↔ SerialSeen signed 1 (f + 1) := by
  have hf := f.toNat_lt
  have hs : (f + 1).toNat = (f.toNat + 1) % 256 := by simp
  cases signed <;>
    simp only [incrementalDev, charOf_eq, SerialSeen, ne_eq, ← UInt8.toNat_inj, hs] <;>
    split_ifs <;> simp at * <;> omega

/-- Copy 2 is the newer one: with an unsigned `char` the tool always sees it. -/
theorem incrementalDev_two (signed : Bool) (f : UInt8) :
    incrementalDev signed f (f + 1) = 1 ↔ SerialSeen signed 2 (f + 1) := by
  have hf := f.toNat_lt
  have hs : (f + 1).toNat = (f.toNat + 1) % 256 := by simp
  cases signed <;>
    simp only [incrementalDev, charOf_eq, SerialSeen, ne_eq, ← UInt8.toNat_inj, hs] <;>
    split_ifs <;> simp at * <;> omega

-- ============================================================================
-- What both programs find
-- ============================================================================

variable {b}

/-- A good copy is one that is loaded whole, with its checksum. -/
theorem goodCopy_eq_some {m : Mem UInt8} {n : Nat} {e : Env}
    (h : goodCopy b.toRedundBoard m n = some e) :
    (readCopy b.toRedundBoard m n []).1 = true ∧
      Env.ofBytes b.cfg (readCopy b.toRedundBoard m n []).2 = e ∧ e.CrcOk := by
  rw [goodCopy, goodBuffer] at h
  split at h
  · next hok =>
    obtain rfl := Option.some.inj h
    exact ⟨hok.1, rfl, hok.2⟩
  · cases h

/-- A copy that is good is read whole into any buffer. -/
theorem unreadableIsBad_of_good {m : Mem UInt8} {n : Nat} {e : Env}
    (h : goodCopy b.toRedundBoard m n = some e) (heap : EnvHeap b) :
    UnreadableIsBad b.toRedundBoard m n heap.1 := by
  refine ⟨heap.2, fun hbad => ?_⟩
  rw [readCopy_whole m m n [], ← readCopy_whole m m n [] [], (goodCopy_eq_some h).1] at hbad
  cases hbad

/-- `env_relocate_spec` selects the copy whose serial follows the other one. -/
theorem relocate_selects {r : FwRun} (h : BothWritten b r) (heap1 heap2 : EnvHeap b) :
    (relocate b r.s heap1 heap2).nand = r.s.nand ∧
      (relocate b r.s heap1 heap2).envValid = r.last.1 ∧
      goodCopy b.toRedundBoard r.s.nand r.last.1 = some (relocate b r.s heap1 heap2).env := by
  obtain ⟨new, old, hnew, hold, hserial, -, -⟩ := h.written
  have hgood : ∀ n, n = 1 ∨ n = 2 → ∃ e, goodCopy b.toRedundBoard r.s.nand n = some e := by
    intro n hn
    by_cases hlast : n = r.last.1
    · exact ⟨new, hlast ▸ hnew⟩
    · refine ⟨old, ?_⟩
      rcases h.copy with hc | hc <;> rcases hn with rfl | rfl <;>
        first | exact absurd hc.symm hlast | (rw [hc] at hold; exact hold)
  obtain ⟨e1, h1⟩ := hgood 1 (.inl rfl)
  obtain ⟨e2, h2⟩ := hgood 2 (.inr rfl)
  have hload := reboot_loads (unreadableIsBad_of_good h1 heap1) (unreadableIsBad_of_good h2 heap2)
  have hpick : (copies b.toRedundBoard r.s.nand).pick = some r.last.1 := by
    simp only [Copies.pick, copies, h1, h2]
    rcases h.copy with hc | hc
    · rw [hc] at hnew hold ⊢
      obtain rfl := Option.some.inj (h1.symm.trans hnew)
      obtain rfl := Option.some.inj (h2.symm.trans hold)
      rw [hserial, (newerCopy_succ _).1]
    · rw [hc] at hnew hold ⊢
      obtain rfl := Option.some.inj (h2.symm.trans hnew)
      obtain rfl := Option.some.inj (h1.symm.trans hold)
      rw [hserial, (newerCopy_succ _).2]
  rw [hpick] at hload
  exact ⟨hload.1, hload.2.2, hload.2.1⟩

/-- `env_init` reads both copies and compares their serials. -/
theorem envInit_eq {m : Mem UInt8} {e1 e2 : Env} (h1 : goodCopy b.toRedundBoard m 1 = some e1)
    (h2 : goodCopy b.toRedundBoard m 2 = some e2) :
    envInit b m =
      if incrementalDev b.charSigned e1.flags e2.flags = 1 then some (1, e2) else some (0, e1) := by
  obtain ⟨hr1, hb1, hc1⟩ := goodCopy_eq_some h1
  obtain ⟨hr2, hb2, hc2⟩ := goodCopy_eq_some h2
  have hf1 := flashRead_eq (b := b) (m := m) (.inl rfl) hr1
  have hf2 := flashRead_eq (b := b) (m := m) (.inr rfl) hr2
  simp only [Nat.zero_add, Nat.reduceAdd] at hf1 hf2
  simp [envInit, hf1, hf2, hb1, hb2, hc1, hc2]

/-- `env_init` selects the copy written last just when its serial is seen as newer. -/
theorem envInit_selects_iff {r : FwRun} (h : BothWritten b r) {new : Env}
    (hnew : goodCopy b.toRedundBoard r.s.nand r.last.1 = some new) :
    (∃ image, envInit b r.s.nand = some (r.last.1 - 1, image)) ↔
      SerialSeen b.charSigned r.last.1 new.flags := by
  obtain ⟨new', old, hnew', hold, hserial, -, -⟩ := h.written
  obtain rfl := Option.some.inj (hnew.symm.trans hnew')
  rcases h.copy with hc | hc <;> rw [hc] at hnew hold ⊢
  · rw [envInit_eq hnew hold, hserial, ← incrementalDev_one]
    have hdev : ∀ f0 f1, incrementalDev b.charSigned f0 f1 = 1 ↔
        ¬ incrementalDev b.charSigned f0 f1 = 0 := by
      intro f0 f1
      simp only [incrementalDev]
      split_ifs <;> simp
    by_cases hd : incrementalDev b.charSigned (old.flags + 1) old.flags = 0
    · simp [hd]
    · simp [(hdev _ _).mpr hd]
  · rw [envInit_eq hold hnew, hserial, ← incrementalDev_two]
    by_cases hd : incrementalDev b.charSigned old.flags (old.flags + 1) = 1
    · simp [hd]
    · simp [hd]

/-- What `env_init` leaves in `environment` is the copy it selects. -/
theorem envInit_image {r : FwRun} (h : BothWritten b r) {new image : Env}
    (hnew : goodCopy b.toRedundBoard r.s.nand r.last.1 = some new)
    (hinit : envInit b r.s.nand = some (r.last.1 - 1, image)) : image = new := by
  obtain ⟨new', old, hnew', hold, -, -, -⟩ := h.written
  rcases h.copy with hc | hc <;> rw [hc] at hnew hold hinit
  · rw [envInit_eq hnew hold] at hinit
    split at hinit
    · simp at hinit
    · simp only [Option.some.injEq, Prod.mk.injEq] at hinit
      exact hinit.2.symm
  · rw [envInit_eq hold hnew] at hinit
    split at hinit
    · simp only [Option.some.injEq, Prod.mk.injEq] at hinit
      exact hinit.2.symm
    · simp at hinit

/-- With both copies written, the programs agree just when the tool sees the last
    serial as the newer one. -/
theorem agree_iff_lastSeen {r : FwRun} (h : BothWritten b r) : Agree b r ↔ LastSeen b r := by
  obtain ⟨new, old, hnew, hold, hserial, hdata, -⟩ := h.written
  have hseen : LastSeen b r ↔ SerialSeen b.charSigned r.last.1 new.flags := by
    simp [LastSeen, hnew]
  rw [hseen, ← envInit_selects_iff h hnew]
  constructor
  · rintro ⟨-, image, hinit, -⟩
    exact ⟨image, hinit⟩
  · rintro ⟨image, hinit⟩
    refine ⟨fun heap1 heap2 => ?_, image, hinit, ?_⟩
    · obtain ⟨-, hvalid, henv⟩ := relocate_selects h heap1 heap2
      rw [hnew] at henv
      rw [← Option.some.inj henv]
      exact ⟨hvalid, hdata⟩
    · rw [envInit_image h hnew hinit, hdata]

-- ============================================================================
-- Steps
-- ============================================================================

/-- The copy that is not written to stays good. -/
theorem goodCopy_kept {m m' : Mem UInt8} {n : Nat} (hn : n = 1 ∨ n = 2)
    (hout : ∀ x, x < b.offsetOf (otherCopy n) ∨ b.offsetOf (otherCopy n) + b.site.span ≤ x →
      m' x = m x) : goodCopy b.toRedundBoard m' n = goodCopy b.toRedundBoard m n :=
  goodCopy_congr fun x h1 h2 =>
    hout x (offsets_apart hn (otherCopy_cases n) (otherCopy_ne hn) h1 h2)

/-- Writing the copy that is not current leaves both written, and decides whether the
    tool sees the last serial as the newer one. -/
theorem bothWritten_next {r r' : FwRun} {new env : Env} (hn : r.last.1 = 1 ∨ r.last.1 = 2)
    (hnew : goodCopy b.toRedundBoard r.s.nand r.last.1 = some new)
    (hlast : r'.last = (otherCopy r.last.1, env.data))
    (hkept : goodCopy b.toRedundBoard r'.s.nand r.last.1 =
      goodCopy b.toRedundBoard r.s.nand r.last.1)
    (hgood : goodCopy b.toRedundBoard r'.s.nand (otherCopy r.last.1) = some env)
    (hserial : env.flags = new.flags + 1)
    (hram : r'.booted = true → r'.s.envValid = otherCopy r.last.1 ∧ r'.s.env.flags = env.flags) :
    BothWritten b r' ∧
      (LastSeen b r' ↔ ∀ e ∈ goodCopy b.toRedundBoard r.s.nand r.last.1,
        SerialSeen b.charSigned (otherCopy r.last.1) (e.flags + 1)) := by
  have hback : otherCopy (otherCopy r.last.1) = r.last.1 := by
    rcases hn with hc | hc <;> rw [hc] <;> rfl
  refine ⟨⟨?_, env, new, ?_, ?_, hserial, ?_, ?_⟩, ?_⟩
  · rw [hlast]
    exact otherCopy_cases _
  · rw [hlast]
    exact hgood
  · rw [hlast, hback, hkept, hnew]
  · rw [hlast]
  · rw [hlast]
    exact hram
  · rw [LastSeen, hlast, hgood, hnew]
    simp [hserial]

/-- What `fw_setenv` stores when `env_init` selects the copy written last. -/
theorem fwSetenv_spec {r : FwRun} (h : BothWritten b r) {new : Env}
    (hnew : goodCopy b.toRedundBoard r.s.nand r.last.1 = some new)
    (hseen : SerialSeen b.charSigned r.last.1 new.flags) (data : EnvData b) :
    envInit b r.s.nand = some (r.last.1 - 1, new) ∧
    (fwSetenv b r.s.nand data.1).1 = true ∧
    goodCopy b.toRedundBoard (fwSetenv b r.s.nand data.1).2 r.last.1 =
      goodCopy b.toRedundBoard r.s.nand r.last.1 ∧
    goodCopy b.toRedundBoard (fwSetenv b r.s.nand data.1).2 (otherCopy r.last.1) =
      some ⟨envCrc data.1, new.flags + 1, data.1⟩ := by
  obtain ⟨image, hinit⟩ := (envInit_selects_iff h hnew).mpr hseen
  obtain rfl := envInit_image h hnew hinit
  obtain ⟨-, old, -, hold, -, -, -⟩ := h.written
  -- the device that is written is the one of the other copy
  obtain ⟨dev, hdev, hcopy, htarget⟩ : ∃ dev, (dev = 0 ∨ dev = 1) ∧
      dev + 1 = otherCopy r.last.1 ∧ (if r.last.1 - 1 = 0 then 1 else 0) = dev := by
    rcases h.copy with hc | hc <;> rw [hc]
    · exact ⟨1, .inr rfl, rfl, rfl⟩
    · exact ⟨0, .inl rfl, rfl, rfl⟩
  have hbytes : (Env.toBytes b.cfg ⟨envCrc data.1, image.flags + 1, data.1⟩).length =
      b.cfg.envSize := by
    rw [Env.toBytes_length, data.2, EnvConfig.header_add_data b.fits]
  rw [← hcopy] at hold
  obtain ⟨hdone, hread, hout⟩ := flashWriteBuf_eq hdev (goodCopy_eq_some hold).1 hbytes
  have hfw : fwSetenv b r.s.nand data.1 = flashWriteBuf b.site b.sectors (b.devOffset dev) r.s.nand
      (Env.toBytes b.cfg ⟨envCrc data.1, image.flags + 1, data.1⟩) (b.devOffset dev) := by
    rw [fwSetenv, hinit]
    simp only [htarget]
  rw [hfw]
  refine ⟨hinit, hdone, ?_, ?_⟩
  · exact goodCopy_kept h.copy (by rwa [← hcopy])
  · have henv := @Env.ofBytes_toBytes b.cfg ⟨envCrc data.1, image.flags + 1, data.1⟩ data.2
    rw [b.redund] at henv
    rw [← hcopy, goodCopy, goodBuffer, hread, henv]
    exact if_pos ⟨rfl, rfl⟩

/-- What `saveenv` stores when the other copy has good blocks enough. -/
theorem saveenvRedund_spec {s : EnvState} (hn : s.envValid = 1 ∨ s.envValid = 2) {old : Env}
    (hold : goodCopy b.toRedundBoard s.nand (otherCopy s.envValid) = some old)
    (hcrc : s.env.CrcOk) (hsize : s.env.data.length = b.cfg.dataSize) :
    ∃ m', saveenvRedund b.site b.cfg s .none =
        (0, ⟨{ s.env with flags := s.env.flags + 1 }, otherCopy s.envValid, m'⟩) ∧
      goodCopy b.toRedundBoard m' s.envValid = goodCopy b.toRedundBoard s.nand s.envValid ∧
      goodCopy b.toRedundBoard m' (otherCopy s.envValid) =
        some { s.env with flags := s.env.flags + 1 } := by
  have hwhole := (goodCopy_eq_some hold).1
  have hrange : ¬ b.site.envRange < b.cfg.envSize := by
    obtain ⟨dev, hdev, hcopy⟩ : ∃ dev, (dev = 0 ∨ dev = 1) ∧ dev + 1 = otherCopy s.envValid := by
      rcases hn with hc | hc <;> rw [hc]
      · exact ⟨1, .inr rfl, rfl⟩
      · exact ⟨0, .inl rfl, rfl⟩
    rw [← hcopy] at hwhole
    have := envSize_le_range hdev hwhole
    omega
  have hdone : (saveCopy b.site b.cfg (b.offsetOf (otherCopy s.envValid))
      (Env.toBytes b.cfg { s.env with flags := s.env.flags + 1 }) s.nand .none).1 = true := by
    rw [← hwhole]
    exact (readCopy_whole _ _ _ _ _).symm
  refine ⟨_, ?_, ?_, goodCopy_saved hcrc hsize hdone⟩
  · rw [saveenvRedund_eq hn]
    simp only [hrange, if_false, hdone, if_true]
  · exact goodCopy_kept hn fun x hx => saveCopy_outside _ _ _ _ _ hx

/-- As long as the programs agree, an event keeps both copies written, and they agree
    again just when it stores a serial that the tool will see as the newer one. -/
theorem fwStep_spec {r : FwRun} (h : BothWritten b r) (hseen : LastSeen b r) (e : FwEvent b) :
    BothWritten b (fwStep b r e) ∧ (LastSeen b (fwStep b r e) ↔ NextSeen b r e) := by
  obtain ⟨new, old, hnew, hold, hserial, hdata, hram⟩ := h.written
  cases e with
  | reboot heap1 heap2 =>
    obtain ⟨hnand, hvalid, henv⟩ := relocate_selects h heap1 heap2
    rw [hnew] at henv
    have hstep : fwStep b r (.reboot heap1 heap2) = ⟨relocate b r.s heap1 heap2, true, r.last⟩ := rfl
    rw [hstep]
    refine ⟨⟨h.copy, new, old, ?_, ?_, hserial, hdata, fun _ => ⟨hvalid, ?_⟩⟩, ?_⟩
    · rw [hnand, hnew]
    · rw [hnand, hold]
    · rw [← Option.some.inj henv]
    · rw [LastSeen, hnand]
      exact ⟨fun _ => trivial, fun _ => hseen⟩
  | saveenv data heap1 heap2 =>
    -- the boot loader has the current copy, from the last step or from a reset before this one
    obtain ⟨s, hs, hnand, hvalid, hflags⟩ : ∃ s : EnvState,
        (if r.booted then r.s else relocate b r.s heap1 heap2) = s ∧ s.nand = r.s.nand ∧
          s.envValid = r.last.1 ∧ s.env.flags = new.flags := by
      by_cases hb : r.booted = true
      · exact ⟨r.s, if_pos hb, rfl, hram hb⟩
      · obtain ⟨hnand, hvalid, henv⟩ := relocate_selects h heap1 heap2
        rw [hnew] at henv
        exact ⟨_, if_neg hb, hnand, hvalid, by rw [← Option.some.inj henv]⟩
    have hcopy := h.copy
    rw [← hvalid] at hcopy hold
    rw [← hnand] at hold
    obtain ⟨m', heq, hkept, hgood⟩ :=
      @saveenvRedund_spec b { s with env := envCrcUpdate { s.env with data := data.1 } } hcopy old
        hold (envCrcUpdate_crcOk _) data.2
    have hstep : fwStep b r (.saveenv data heap1 heap2) =
        ⟨⟨{ envCrcUpdate { s.env with data := data.1 } with flags := s.env.flags + 1 },
          otherCopy s.envValid, m'⟩, true, (otherCopy s.envValid, data.1)⟩ := by
      simp only [fwStep, hs, heq, envCrcUpdate_flags, if_true]
    rw [hstep]
    rw [hvalid] at hkept hgood ⊢
    refine bothWritten_next h.copy hnew rfl ?_ hgood ?_ fun _ => ⟨rfl, rfl⟩
    · rw [← hnand]
      exact hkept
    · simp only [envCrcUpdate_flags, hflags]
  | fwSetenv data =>
    obtain ⟨hinit, hdone, hkept, hgood⟩ := fwSetenv_spec h hnew (hseen new hnew) data
    have hlast : (fwStep b r (.fwSetenv data)).last = (otherCopy r.last.1, data.1) := by
      simp only [fwStep, hdone, hinit]
      rcases h.copy with hc | hc <;> rw [hc] <;> rfl
    exact bothWritten_next h.copy hnew hlast hkept hgood rfl fun hb => absurd hb Bool.false_ne_true

/-- **Agreement.**  From two copies written one after the other, and through every run
    of resets, `saveenv` and `fw_setenv`, the two programs agree on the copy written
    last after each step just when every serial that is stored, beginning with the last
    of the two, is one that the tool sees as newer where it is stored. -/
theorem agree_iff_serialsSeen (b : FwBoard) (r : FwRun) (h : BothWritten b r)
    (events : List (FwEvent b)) :
    (∀ k, Agree b (run (fwStep b) r (events.take k))) ↔
      LastSeen b r ∧ Guarded (fwStep b) (NextSeen b) r events := by
  rw [← agree_iff_lastSeen h]
  refine @forall_take_iff_guarded _ _ (fwStep b) (NextSeen b) (BothWritten b) (Agree b) ?_ ?_ r
    events h
  · intro r e hr hagree
    exact (fwStep_spec hr ((agree_iff_lastSeen hr).mp hagree) e).1
  · intro r e hr hagree
    obtain ⟨hboth, hnext⟩ := fwStep_spec hr ((agree_iff_lastSeen hr).mp hagree) e
    rw [agree_iff_lastSeen hboth, hnext]

instance (signed : Bool) (n : Nat) (f : UInt8) : Decidable (SerialSeen signed n f) :=
  inferInstanceAs (Decidable (ite _ _ _))

instance (b : FwBoard) (r : FwRun) : Decidable (LastSeen b r) :=
  inferInstanceAs (Decidable (∀ e ∈ goodCopy b.toRedundBoard r.s.nand r.last.1, _))

instance (b : FwBoard) (r : FwRun) (e : FwEvent b) : Decidable (NextSeen b r e) :=
  match e with
  | .reboot _ _ => inferInstanceAs (Decidable True)
  | .saveenv _ _ _ | .fwSetenv _ =>
    inferInstanceAs (Decidable (∀ e ∈ goodCopy b.toRedundBoard r.s.nand r.last.1, _))

-- ============================================================================
-- A board with one block for each copy
-- ============================================================================

/-- Blocks of 32 bytes, 25 bytes of environment, `char` unsigned. -/
def smallFwBoard : FwBoard where
  toRedundBoard := smallBoard
  sectors := 1
  charSigned := false
  fwDefault := []
  range_eq := rfl
  aligned := Nat.dvd_zero _
  aligned_redund := Nat.dvd_refl _

/-- An environment of 20 zeros. -/
def zeroData : EnvData smallFwBoard := ⟨List.replicate 20 0, rfl⟩

def zeroHeap : EnvHeap smallFwBoard := ⟨List.replicate 25 0, rfl⟩

/-- Copy 1 with serial `f`, then copy 2 with the next one; Linux has the machine. -/
def twoCopies (f : UInt8) : FwRun :=
  let env1 : Env := ⟨envCrc zeroData.1, f, zeroData.1⟩
  let env2 : Env := ⟨envCrc zeroData.1, f + 1, zeroData.1⟩
  { s :=
      { env := env1
        envValid := 1
        nand := nandWrite (nandWrite (fun _ => 0xFF) 0 (env1.toBytes smallBoard.cfg)) 32
          (env2.toBytes smallBoard.cfg) }
    booted := false
    last := (2, zeroData.1) }

/-- Serials 5 and 6, then 7 by `saveenv` and 8 by `fw_setenv`. -/
theorem agree_twoCopies :
    Agree smallFwBoard (run (fwStep smallFwBoard) (twoCopies 5)
      [.saveenv zeroData zeroHeap zeroHeap, .fwSetenv zeroData]) :=
  (agree_iff_serialsSeen smallFwBoard (twoCopies 5)
    ⟨.inr rfl, ⟨envCrc zeroData.1, 6, zeroData.1⟩, ⟨envCrc zeroData.1, 5, zeroData.1⟩,
      by decide +kernel, by decide +kernel, rfl, rfl, fun h => absurd h Bool.false_ne_true⟩
    [.saveenv zeroData zeroHeap zeroHeap, .fwSetenv zeroData]).mpr
    ⟨by decide +kernel, by decide +kernel, by decide +kernel, trivial⟩ 2

/-- Serials 254 and 255, then 0 by `saveenv`: the tool selects copy 2. -/
theorem not_agree_at_wrap :
    ¬ ∀ (b : FwBoard) (r : FwRun), BothWritten b r → ∀ (events : List (FwEvent b)) (k : Nat),
      Agree b (run (fwStep b) r (events.take k)) := by
  intro hall
  have hboth : BothWritten smallFwBoard (twoCopies 254) :=
    ⟨.inr rfl, ⟨envCrc zeroData.1, 255, zeroData.1⟩, ⟨envCrc zeroData.1, 254, zeroData.1⟩,
      by decide +kernel, by decide +kernel, rfl, rfl, fun h => absurd h Bool.false_ne_true⟩
  obtain ⟨-, image, hinit, -⟩ :=
    hall smallFwBoard (twoCopies 254) hboth [.saveenv zeroData zeroHeap zeroHeap] 1
  have hdev : (envInit smallFwBoard (fwStep smallFwBoard (twoCopies 254)
      (.saveenv zeroData zeroHeap zeroHeap)).s.nand).map Prod.fst = some 1 := by
    decide +kernel
  have hlast : (fwStep smallFwBoard (twoCopies 254)
      (.saveenv zeroData zeroHeap zeroHeap)).last.1 = 1 := by
    decide +kernel
  have hdev' := congrArg (Option.map Prod.fst) hinit
  rw [show (run (fwStep smallFwBoard) (twoCopies 254)
      ([FwEvent.saveenv zeroData zeroHeap zeroHeap].take 1)) =
    fwStep smallFwBoard (twoCopies 254) (.saveenv zeroData zeroHeap zeroHeap) from rfl,
    hdev, hlast] at hdev'
  simp at hdev'

end Uboot.Tools
