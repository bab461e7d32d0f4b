/-
  Uboot.Common.EnvRedundant

  The redundant environment over runs of `setenv`, `saveenv` and restarts.

  At the bottom the steps of the source; over them what two copies are for: one of
  them is current, an attempt that fails can only hurt the other one, and one that
  succeeds makes the other one current.  That stands or falls with the serial: the
  copy just written has to be the one `env_relocate_spec` prefers.
-/

import Uboot.Lib.Run
import Uboot.Common.EnvCrc

namespace Uboot.Common

open Uboot.Lib Uboot.LibGeneric

/-! ## Two copies -/

/-- The two copies, each as far as it is good. -/
structure Copies where
  one : Option Env
  two : Option Env

/-- Copy 1 or copy 2. -/
def Copies.get (c : Copies) (n : Nat) : Option Env := if n = 1 then c.one else c.two

def otherCopy (n : Nat) : Nat := if n = 1 then 2 else 1

/-- The copy that is loaded. -/
def Copies.pick (c : Copies) : Option Nat :=
  match c.one, c.two with
  | none, none => none
  | some _, none => some 1
  | none, some _ => some 2
  | some e1, some e2 => some (newerCopy e1.flags e2.flags)

/-- Copy `n` is the one that is loaded, or there is none to load. -/
def Copies.Current (c : Copies) (n : Nat) : Prop :=
  (n = 1 ∨ n = 2) ∧ (c.pick = some n ∨ c.one = none ∧ c.two = none)

theorem newerCopy_cases (f1 f2 : UInt8) : newerCopy f1 f2 = 1 ∨ newerCopy f1 f2 = 2 := by
  unfold newerCopy
  repeat' split
  all_goals simp

theorem pick_get {c : Copies} {n : Nat} (h : c.pick = some n) :
    (n = 1 ∨ n = 2) ∧ ∃ e, c.get n = some e := by
  obtain ⟨one, two⟩ := c
  cases one with
  | none =>
    cases two with
    | none => simp [Copies.pick] at h
    | some e2 =>
      obtain rfl : 2 = n := by simpa [Copies.pick] using h
      exact ⟨.inr rfl, e2, rfl⟩
  | some e1 =>
    cases two with
    | none =>
      obtain rfl : 1 = n := by simpa [Copies.pick] using h
      exact ⟨.inl rfl, e1, rfl⟩
    | some e2 =>
      obtain rfl : newerCopy e1.flags e2.flags = n := by simpa [Copies.pick] using h
      rcases newerCopy_cases e1.flags e2.flags with h1 | h2
      · exact ⟨.inl h1, e1, by rw [h1]; rfl⟩
      · exact ⟨.inr h2, e2, by rw [h2]; rfl⟩

/-- The current copy stays current when the other one is lost. -/
theorem Copies.Current.lose {c c' : Copies} {n : Nat} (h : c.Current n)
    (hkeep : c'.get n = c.get n)
    (hother : c'.get (otherCopy n) = none ∨ c'.get (otherCopy n) = c.get (otherCopy n)) :
    c'.Current n := by
  obtain ⟨hn, hc⟩ := h
  refine ⟨hn, ?_⟩
  obtain ⟨one, two⟩ := c
  obtain ⟨one', two'⟩ := c'
  rcases hn with rfl | rfl
  · obtain rfl : one' = one := hkeep
    rcases hother with ho | ho
    · obtain rfl : two' = none := ho
      cases one' <;> simp [Copies.pick]
    · obtain rfl : two' = two := ho
      exact hc
  · obtain rfl : two' = two := hkeep
    rcases hother with ho | ho
    · obtain rfl : one' = none := ho
      cases two' <;> simp [Copies.pick]
    · obtain rfl : one' = one := ho
      exact hc

/-- The copy just written becomes current if the old one is not good or its serial
    gives way to the new one. -/
theorem current_of_written {c : Copies} {n : Nat} {new : Env} (hn : n = 1 ∨ n = 2)
    (hnew : c.get (otherCopy n) = some new)
    (hpref : c.get n = none ∨ c.pick = some (otherCopy n)) : c.Current (otherCopy n) := by
  have hm : otherCopy n = 1 ∨ otherCopy n = 2 := by rcases hn with rfl | rfl <;> simp [otherCopy]
  refine ⟨hm, .inl ?_⟩
  rcases hpref with hnone | hpick
  · obtain ⟨one, two⟩ := c
    rcases hn with rfl | rfl
    · obtain rfl : one = none := hnone
      obtain rfl : two = some new := hnew
      rfl
    · obtain rfl : two = none := hnone
      obtain rfl : one = some new := hnew
      rfl
  · exact hpick

/-! ## Runs of the source -/

/-- A board with a redundant environment. -/
structure RedundBoard where
  site : NandSite
  cfg : EnvConfig
  redund : cfg.redund = true
  /-- `set_default_env` does not refuse. -/
  fits : cfg.defaultEnvironment.length ≤ cfg.dataSize
  /-- The two copies have no block in common. -/
  apart : site.envOffset + site.span ≤ site.envOffsetRedund ∨
    site.envOffsetRedund + site.span ≤ site.envOffset

/-- What happens to a board. -/
inductive EnvEvent
  /-- A call of `_do_setenv`. -/
  | setenv (call : SetCall)
  /-- A `saveenv`; one that a loss of power cuts off is one with a fault and a
      restart behind it. -/
  | saveenv (fault : Fault)
  /-- A restart, with what the two buffers of `env_relocate_spec` hold at first. -/
  | reboot (heap1 heap2 : List UInt8)

/-- A run: the board, and the data of the last `saveenv` that returned 0. -/
structure EnvRun where
  s : EnvState
  saved : Option (List UInt8)

section Redundant

variable (b : RedundBoard)

/-- One event. -/
def envStep (r : EnvRun) : EnvEvent → EnvRun
  | .setenv call => { r with s := { r.s with env := (doSetenv b.cfg r.s.env call).2 } }
  | .saveenv fault =>
    let q := saveenvRedund b.site b.cfg r.s fault
    { s := q.2, saved := if q.1 = 0 then some r.s.env.data else r.saved }
  | .reboot heap1 heap2 => { r with s := envRelocateSpecRedund b.site b.cfg r.s heap1 heap2 }

/-- The offset of a copy. -/
def RedundBoard.offsetOf (n : Nat) : Nat :=
  if n = 1 then b.site.envOffset else b.site.envOffsetRedund

/-- What `readenv` makes of a copy in a buffer that holds `heap`. -/
def readCopy (m : Mem UInt8) (n : Nat) (heap : List UInt8) : Bool × List UInt8 :=
  readenv b.site b.cfg m (b.offsetOf n) heap

/-- What was read, as far as it was loaded whole and its checksum is good. -/
def goodBuffer (cfg : EnvConfig) (r : Bool × List UInt8) : Option Env :=
  if r.1 = true ∧ (Env.ofBytes cfg r.2).CrcOk then some (Env.ofBytes cfg r.2) else none

/-- A copy, if it is good. -/
def goodCopy (m : Mem UInt8) (n : Nat) : Option Env := goodBuffer b.cfg (readCopy b m n [])

/-- The copies in the flash. -/
def copies (m : Mem UInt8) : Copies := ⟨goodCopy b m 1, goodCopy b m 2⟩

/-- The assumption on faults: outside the copy written to, nothing changes, and that
    copy is as it was or not good. -/
def FaultHurtsTarget (s : EnvState) (m' : Mem UInt8) : Prop :=
  let n := otherCopy s.envValid
  (∀ x, x < b.offsetOf n ∨ b.offsetOf n + b.site.span ≤ x → m' x = s.nand x) ∧
    ((∀ x, m' x = s.nand x) ∨ goodCopy b m' n = none)

/-- A buffer that could not be loaded whole has a bad checksum. -/
def UnreadableIsBad (m : Mem UInt8) (n : Nat) (heap : List UInt8) : Prop :=
  heap.length = b.cfg.envSize ∧
    ((readCopy b m n heap).1 = false → ¬ (Env.ofBytes b.cfg (readCopy b m n heap).2).CrcOk)

/-- The serial that is written gives way to no other: the current copy is not good, or
    `env_relocate_spec` prefers the new serial to its own. -/
def SerialWins (s : EnvState) : Prop :=
  ∀ cur ∈ goodCopy b s.nand s.envValid,
    if s.envValid = 1 then newerCopy cur.flags (s.env.flags + 1) = 2
    else newerCopy (s.env.flags + 1) cur.flags = 1

/-- What a run assumes of its events, and when a `saveenv` does what it is for: where
    the copy it writes has good blocks enough, the environment in RAM has a good
    checksum and its serial wins. -/
def EnvAllowed (r : EnvRun) : EnvEvent → Prop
  | .setenv _ => True
  | .saveenv .none =>
    (readCopy b r.s.nand (otherCopy r.s.envValid) []).1 = true → r.s.env.CrcOk ∧ SerialWins b r.s
  | .saveenv (.erase m') => FaultHurtsTarget b r.s m'
  | .saveenv (.write m') => FaultHurtsTarget b r.s m'
  | .reboot heap1 heap2 =>
    UnreadableIsBad b r.s.nand 1 heap1 ∧ UnreadableIsBad b r.s.nand 2 heap2

/-! ## The copies in the flash -/

variable {b}

@[simp] theorem copies_get {m : Mem UInt8} {n : Nat} (h : n = 1 ∨ n = 2) :
    (copies b m).get n = goodCopy b m n := by
  rcases h with rfl | rfl <;> rfl

theorem otherCopy_cases (n : Nat) : otherCopy n = 1 ∨ otherCopy n = 2 := by
  unfold otherCopy
  split <;> simp

theorem otherCopy_ne {n : Nat} (h : n = 1 ∨ n = 2) : n ≠ otherCopy n := by
  rcases h with rfl | rfl <;> decide

/-- Blocks of one copy are not blocks of the other. -/
theorem offsets_apart {n k x : Nat} (hn : n = 1 ∨ n = 2) (hk : k = 1 ∨ k = 2) (hne : n ≠ k)
    (h1 : b.offsetOf n ≤ x) (h2 : x < b.offsetOf n + b.site.span) :
    x < b.offsetOf k ∨ b.offsetOf k + b.site.span ≤ x := by
  have hapart := b.apart
  rcases hn with rfl | rfl <;> rcases hk with rfl | rfl <;>
    simp only [RedundBoard.offsetOf] at h1 h2 ⊢ <;> simp at h1 h2 hne ⊢ <;> omega

/-- A copy is as good as before when its blocks are. -/
theorem goodCopy_congr {m m' : Mem UInt8} {n : Nat}
    (h : ∀ x, b.offsetOf n ≤ x → x < b.offsetOf n + b.site.span → m' x = m x) :
    goodCopy b m' n = goodCopy b m n := by
  exact congrArg (goodBuffer b.cfg) (readenv_congr h [])

/-- How much is loaded does not depend on what is stored, nor on the buffer. -/
theorem readenvLoop_length {site : NandSite} {cfg : EnvConfig} {stop fuel offset : Nat}
    {m m' : Mem UInt8} {buf loaded : List UInt8} :
    (readenvLoop site cfg stop m fuel offset loaded).length =
      (writeenvLoop site cfg stop buf fuel offset loaded.length m').2 := by
  induction fuel generalizing offset loaded m' with
  | zero => rfl
  | succ fuel ih =>
    rw [readenvLoop, writeenvLoop]
    split
    · split
      · exact ih
      · rw [@ih _ (nandWrite m' offset ((buf.drop loaded.length).take (site.chunk cfg))),
          List.length_append, Mem.read_length]
    · rfl

/-- A copy can be loaded whole when it can be written whole. -/
theorem readCopy_whole (m m' : Mem UInt8) (n : Nat) (buf heap : List UInt8) :
    (readCopy b m n heap).1 = (writeenv b.site b.cfg (b.offsetOf n) buf m').1 := by
  simp only [readCopy, readenv, writeenv]
  rw [@readenvLoop_length _ _ _ _ _ _ m' buf]
  rfl

/-- A buffer that is loaded whole holds the copy. -/
theorem readCopy_heap {m : Mem UInt8} {n : Nat} {heap : List UInt8}
    (hl : heap.length = b.cfg.envSize) (h : (readCopy b m n heap).1 = true) :
    readCopy b m n heap = readCopy b m n [] := by
  simp only [readCopy, readenv] at h ⊢
  have hlen : (readenvLoop b.site b.cfg (b.offsetOf n + b.site.envRange) m
      (b.site.blocks b.site.envRange) (b.offsetOf n) []).length = b.cfg.envSize := by
    simpa using h
  rw [hlen, ← hl, List.drop_length, List.drop_nil]

/-- What `env_relocate_spec` finds in a buffer is the copy, if it is good. -/
theorem goodCopy_of_buffer {m : Mem UInt8} {n : Nat} {heap : List UInt8}
    (h : UnreadableIsBad b m n heap) :
    goodCopy b m n =
      if (Env.ofBytes b.cfg (readCopy b m n heap).2).CrcOk then
        some (Env.ofBytes b.cfg (readCopy b m n heap).2)
      else none := by
  obtain ⟨hl, hbad⟩ := h
  have hsame : (readCopy b m n []).1 = (readCopy b m n heap).1 := by
    rw [readCopy_whole m m n [] [], readCopy_whole m m n [] heap]
  cases hr : (readCopy b m n heap).1 with
  | false =>
    rw [goodCopy, goodBuffer, if_neg (by rw [hsame, hr]; simp), if_neg (hbad hr)]
  | true =>
    rw [goodCopy, ← readCopy_heap hl hr, goodBuffer]
    simp only [hr, true_and]

/-! ## The invariant -/

/-- What holds of a run from the first restart on. -/
structure EnvInv (b : RedundBoard) (r : EnvRun) : Prop where
  current : (copies b r.s.nand).Current r.s.envValid
  saved : ∀ d, r.saved = some d → ∃ e, goodCopy b r.s.nand r.s.envValid = some e ∧ e.data = d
  size : r.s.env.data.length = b.cfg.dataSize

/-- The flash changes in the other copy only, which is lost or as before. -/
theorem EnvInv.lose {r r' : EnvRun} (h : EnvInv b r) (hsaved : r'.saved = r.saved)
    (hvalid : r'.s.envValid = r.s.envValid) (hsize : r'.s.env.data.length = r.s.env.data.length)
    (hkeep : goodCopy b r'.s.nand r.s.envValid = goodCopy b r.s.nand r.s.envValid)
    (hother : goodCopy b r'.s.nand (otherCopy r.s.envValid) = none ∨
      goodCopy b r'.s.nand (otherCopy r.s.envValid) =
        goodCopy b r.s.nand (otherCopy r.s.envValid)) : EnvInv b r' where
  current := by
    have hn := h.current.1
    have ho := otherCopy_cases r.s.envValid
    rw [hvalid]
    apply h.current.lose
    · rw [copies_get hn, copies_get hn, hkeep]
    · rw [copies_get ho, copies_get ho]
      exact hother
  saved := by
    rw [hsaved, hvalid, hkeep]
    exact h.saved
  size := by rw [hsize, h.size]

/-- The offset `saveenv` writes to is the one of the other copy. -/
theorem target_eq {s : EnvState} (h : s.envValid = 1 ∨ s.envValid = 2) :
    b.site.target s.envValid = b.offsetOf (otherCopy s.envValid) := by
  rcases h with h | h <;> rw [h] <;> rfl

/-- What `saveenv` does on a board whose copies fit their ranges: count the serial up,
    then save the copy that is not current. -/
theorem saveenvRedund_eq {s : EnvState} (h : s.envValid = 1 ∨ s.envValid = 2) (fault : Fault) :
    let env := { s.env with flags := s.env.flags + 1 }
    let q := saveCopy b.site b.cfg (b.offsetOf (otherCopy s.envValid)) (env.toBytes b.cfg) s.nand fault
    saveenvRedund b.site b.cfg s fault =
      if b.site.envRange < b.cfg.envSize then (1, { s with env })
      else if q.1 then (0, ⟨env, otherCopy s.envValid, q.2⟩) else (1, { s with env, nand := q.2 }) := by
  have hvalid : (if s.envValid = 2 then 1 else 2) = otherCopy s.envValid := by
    rcases h with h | h <;> rw [h] <;> rfl
  simp only [saveenvRedund, target_eq h, hvalid]

/-- A `saveenv` with a fault leaves the current copy alone. -/
theorem inv_fault {r : EnvRun} {fault : Fault} {m' : Mem UInt8} (h : EnvInv b r)
    (hf : FaultHurtsTarget b r.s m')
    (hfault : ∀ offset buf m, saveCopy b.site b.cfg offset buf m fault = (false, m')) :
    EnvInv b (envStep b r (.saveenv fault)) := by
  have hn := h.current.1
  obtain ⟨hout, htarget⟩ := hf
  simp only [envStep, saveenvRedund_eq hn, hfault]
  by_cases hrange : b.site.envRange < b.cfg.envSize
  · simp only [hrange, if_true]
    exact @EnvInv.lose b r ⟨⟨_, r.s.envValid, r.s.nand⟩, r.saved⟩ h rfl rfl rfl rfl (.inr rfl)
  · simp only [hrange, if_false]
    refine @EnvInv.lose b r ⟨⟨_, r.s.envValid, m'⟩, r.saved⟩ h rfl rfl rfl ?_ ?_
    · exact goodCopy_congr fun x h1 h2 =>
        hout x (offsets_apart hn (otherCopy_cases _) (otherCopy_ne hn) h1 h2)
    · rcases htarget with hsame | hbad
      · exact .inr (goodCopy_congr fun x _ _ => hsame x)
      · exact .inl hbad

/-- A save that returns 0 leaves a good copy that holds the environment. -/
theorem goodCopy_saved {m : Mem UInt8} {n : Nat} {env : Env} (hcrc : env.CrcOk)
    (hlen : env.data.length = b.cfg.dataSize)
    (hdone : (saveCopy b.site b.cfg (b.offsetOf n) (env.toBytes b.cfg) m .none).1 = true) :
    goodCopy b (saveCopy b.site b.cfg (b.offsetOf n) (env.toBytes b.cfg) m .none).2 n = some env := by
  have hbytes : (env.toBytes b.cfg).length = b.cfg.envSize := by
    rw [Env.toBytes_length, hlen, EnvConfig.header_add_data b.fits]
  have hheap : (List.replicate b.cfg.envSize (0 : UInt8)).length = b.cfg.envSize :=
    List.length_replicate
  have hread : readCopy b _ n (List.replicate b.cfg.envSize 0) = (true, env.toBytes b.cfg) :=
    readenv_saveCopy hbytes hdone _ hheap
  have henv : Env.ofBytes b.cfg (env.toBytes b.cfg) = env := by
    rw [Env.ofBytes_toBytes hlen, b.redund]
    rfl
  rw [goodCopy, ← readCopy_heap hheap (by rw [hread]), hread, goodBuffer, henv, if_pos ⟨rfl, hcrc⟩]

/-- The rule of `env_relocate_spec` picks the copy whose serial wins. -/
theorem pick_of_serialWins {r : EnvRun} {m' : Mem UInt8} {new : Env}
    (hn : r.s.envValid = 1 ∨ r.s.envValid = 2) (hwins : SerialWins b r.s)
    (hkeep : goodCopy b m' r.s.envValid = goodCopy b r.s.nand r.s.envValid)
    (hnew : goodCopy b m' (otherCopy r.s.envValid) = some new)
    (hflags : new.flags = r.s.env.flags + 1) :
    goodCopy b m' r.s.envValid = none ∨ (copies b m').pick = some (otherCopy r.s.envValid) := by
  rw [hkeep]
  cases hcur : goodCopy b r.s.nand r.s.envValid with
  | none => exact .inl rfl
  | some cur =>
    right
    have hwins := hwins cur hcur
    rw [hcur] at hkeep
    rcases hn with hv | hv <;> rw [hv] at hwins hkeep hnew ⊢
    · have hwins' : newerCopy cur.flags (r.s.env.flags + 1) = 2 := by simpa using hwins
      have hnew' : goodCopy b m' 2 = some new := hnew
      simp only [Copies.pick, copies, hkeep, hnew', hflags, hwins']
      rfl
    · have hwins' : newerCopy (r.s.env.flags + 1) cur.flags = 1 := by simpa using hwins
      have hnew' : goodCopy b m' 1 = some new := hnew
      simp only [Copies.pick, copies, hkeep, hnew', hflags, hwins']
      rfl

/-- A `saveenv` without a fault. -/
theorem inv_saveenv {r : EnvRun} (h : EnvInv b r) (hg : EnvAllowed b r (.saveenv .none)) :
    EnvInv b (envStep b r (.saveenv .none)) := by
  have hn := h.current.1
  have ho := otherCopy_cases r.s.envValid
  simp only [envStep, saveenvRedund_eq hn]
  have hkeep : ∀ buf, goodCopy b (saveCopy b.site b.cfg (b.offsetOf (otherCopy r.s.envValid)) buf
      r.s.nand .none).2 r.s.envValid = goodCopy b r.s.nand r.s.envValid := by
    intro buf
    exact goodCopy_congr fun x h1 h2 =>
      saveCopy_outside _ _ _ _ _ (offsets_apart hn ho (otherCopy_ne hn) h1 h2)
  by_cases hrange : b.site.envRange < b.cfg.envSize
  · simp only [hrange, if_true]
    exact @EnvInv.lose b r ⟨⟨_, r.s.envValid, r.s.nand⟩, r.saved⟩ h rfl rfl rfl rfl (.inr rfl)
  · simp only [hrange, if_false]
    generalize henv : ({ r.s.env with flags := r.s.env.flags + 1 } : Env) = env
    have hcrcEq : env.CrcOk ↔ r.s.env.CrcOk := by subst henv; exact Iff.rfl
    have hdata : env.data = r.s.env.data := by subst henv; rfl
    have hflags : env.flags = r.s.env.flags + 1 := by subst henv; rfl
    have hwhole := fun m' => readCopy_whole (b := b) m'
      (nandEraseOpts b.site (b.offsetOf (otherCopy r.s.envValid)) r.s.nand)
      (otherCopy r.s.envValid) (env.toBytes b.cfg) []
    cases hdone : (saveCopy b.site b.cfg (b.offsetOf (otherCopy r.s.envValid)) (env.toBytes b.cfg)
        r.s.nand .none).1 with
    | false =>
      -- too many bad blocks: what is there cannot be loaded either
      simp only [Bool.false_eq_true, if_false, one_ne_zero]
      refine @EnvInv.lose b r ⟨⟨env, r.s.envValid, _⟩, r.saved⟩ h rfl rfl (by rw [hdata])
        (hkeep _) (.inl ?_)
      rw [goodCopy, goodBuffer, if_neg]
      rw [hwhole]
      exact fun e => absurd (hdone.symm.trans e.1) (by simp)
    | true =>
      obtain ⟨hcrc, hwins⟩ := hg ((hwhole _).trans hdone)
      have hgood := goodCopy_saved (hcrcEq.mpr hcrc) (by rw [hdata, h.size]) hdone
      simp only [if_true]
      refine ⟨?_, ?_, by rw [hdata, h.size]⟩
      · apply current_of_written hn (by rw [copies_get ho, hgood])
        rw [copies_get hn]
        exact pick_of_serialWins hn hwins (hkeep _) hgood hflags
      · rintro d hd
        obtain rfl : r.s.env.data = d := by simpa using hd
        exact ⟨env, hgood, hdata⟩

/-- What a restart loads: the copy that is picked, or the default environment. -/
theorem reboot_loads {s : EnvState} {heap1 heap2 : List UInt8}
    (h1 : UnreadableIsBad b s.nand 1 heap1) (h2 : UnreadableIsBad b s.nand 2 heap2) :
    let s' := envRelocateSpecRedund b.site b.cfg s heap1 heap2
    s'.nand = s.nand ∧
      match (copies b s.nand).pick with
      | none => s'.env = setDefaultEnv b.cfg s.env ∧ s'.envValid = 1
      | some n => goodCopy b s.nand n = some s'.env ∧ s'.envValid = n := by
  have hg1 := goodCopy_of_buffer h1
  have hg2 := goodCopy_of_buffer h2
  have hfit : ¬ b.cfg.dataSize < b.cfg.defaultEnvironment.length := by
    have := b.fits
    omega
  have hdef : envRelocateSpecRedund b.site b.cfg s heap1 heap2 =
      let env1 := Env.ofBytes b.cfg (readCopy b s.nand 1 heap1).2
      let env2 := Env.ofBytes b.cfg (readCopy b s.nand 2 heap2).2
      if ¬ env1.CrcOk ∧ ¬ env2.CrcOk then useDefault b.cfg s
      else
        let envValid :=
          if ¬ env2.CrcOk then 1 else if ¬ env1.CrcOk then 2 else newerCopy env1.flags env2.flags
        { s with env := if envValid = 1 then env1 else env2, envValid } := rfl
  rw [hdef]
  generalize Env.ofBytes b.cfg (readCopy b s.nand 1 heap1).2 = env1 at hg1 ⊢
  generalize Env.ofBytes b.cfg (readCopy b s.nand 2 heap2).2 = env2 at hg2 ⊢
  by_cases ok1 : env1.CrcOk <;> by_cases ok2 : env2.CrcOk
  · rw [if_pos ok1] at hg1
    rw [if_pos ok2] at hg2
    rcases newerCopy_cases env1.flags env2.flags with hnew | hnew <;>
      simp [ok1, ok2, Copies.pick, copies, hg1, hg2, hnew]
  · rw [if_pos ok1] at hg1
    rw [if_neg ok2] at hg2
    simp [ok1, ok2, Copies.pick, copies, hg1, hg2]
  · rw [if_neg ok1] at hg1
    rw [if_pos ok2] at hg2
    simp [ok1, ok2, Copies.pick, copies, hg1, hg2]
  · rw [if_neg ok1] at hg1
    rw [if_neg ok2] at hg2
    simp [ok1, ok2, Copies.pick, copies, hg1, hg2, useDefault, hfit]

/-- The data of a good copy have the size of the environment. -/
theorem goodCopy_size {m : Mem UInt8} {n : Nat} {env : Env} (h : goodCopy b m n = some env) :
    env.data.length = b.cfg.dataSize := by
  rw [goodCopy, goodBuffer] at h
  split at h
  · rename_i hok
    obtain rfl := Option.some.inj h
    have hlen : (readCopy b m n []).2.length = b.cfg.envSize := by
      have hw := hok.1
      simp only [readCopy, readenv] at hw ⊢
      simpa using hw
    have hsum := EnvConfig.header_add_data b.fits
    simp only [Env.ofBytes, List.length_take, List.length_drop, hlen]
    omega
  · exact absurd h (by simp)

/-- After a restart the invariant holds, whatever held before, if what was saved last
    is what is loaded. -/
theorem inv_reboot {r : EnvRun} {heap1 heap2 : List UInt8}
    (h : ∀ d, r.saved = some d → ∃ n e, (copies b r.s.nand).pick = some n ∧
      goodCopy b r.s.nand n = some e ∧ e.data = d)
    (hg : EnvAllowed b r (.reboot heap1 heap2)) : EnvInv b (envStep b r (.reboot heap1 heap2)) := by
  obtain ⟨hnand, hload⟩ := reboot_loads hg.1 hg.2
  cases hpick : (copies b r.s.nand).pick with
  | none =>
    rw [hpick] at hload
    refine ⟨?_, ?_, ?_⟩
    · have hnone : (copies b r.s.nand).one = none ∧ (copies b r.s.nand).two = none := by
        cases h1 : (copies b r.s.nand).one <;> cases h2 : (copies b r.s.nand).two <;>
          simp [Copies.pick, h1, h2] at hpick ⊢
      simp only [envStep]
      rw [hnand, hload.2]
      exact ⟨.inl rfl, .inr hnone⟩
    · intro d hd
      obtain ⟨n, e, hn, _⟩ := h d hd
      rw [hpick] at hn
      exact absurd hn (by simp)
    · simp only [envStep]
      rw [hload.1]
      exact (setDefaultEnv_of_fits b.fits _).2
  | some n =>
    rw [hpick] at hload
    refine ⟨?_, ?_, goodCopy_size hload.1⟩
    · simp only [envStep]
      rw [hnand, hload.2]
      exact ⟨(pick_get hpick).1, .inl hpick⟩
    · intro d hd
      obtain ⟨n', e, hn', he, hde⟩ := h d hd
      obtain rfl : n = n' := Option.some.inj (hpick.symm.trans hn')
      refine ⟨e, ?_, hde⟩
      simp only [envStep]
      rw [hnand, hload.2, he]

/-- What was saved last is in the copy that a restart picks. -/
theorem EnvInv.picked {r : EnvRun} (h : EnvInv b r) {d : List UInt8} (hd : r.saved = some d) :
    ∃ n e, (copies b r.s.nand).pick = some n ∧ goodCopy b r.s.nand n = some e ∧ e.data = d := by
  obtain ⟨e, he, hde⟩ := h.saved d hd
  obtain ⟨hn, hpick | ⟨h1, h2⟩⟩ := h.current
  · exact ⟨_, e, hpick, he, hde⟩
  · rw [← copies_get hn] at he
    rcases hn with hv | hv <;> rw [hv] at he
    · exact absurd (h1.symm.trans he) (by simp)
    · exact absurd (h2.symm.trans he) (by simp)

/-- Every event keeps the invariant. -/
theorem inv_step {r : EnvRun} (h : EnvInv b r) (e : EnvEvent) (hg : EnvAllowed b r e) :
    EnvInv b (envStep b r e) := by
  cases e with
  | setenv call =>
    refine ⟨h.current, h.saved, ?_⟩
    simp only [envStep]
    rw [doSetenv_length, h.size]
  | saveenv fault =>
    cases fault with
    | none => exact inv_saveenv h hg
    | erase m' => exact inv_fault h hg fun _ _ _ => rfl
    | write m' => exact inv_fault h hg fun _ _ _ => rfl
  | reboot heap1 heap2 => exact inv_reboot (fun d hd => h.picked hd) hg

end Redundant

instance (b : RedundBoard) (m : Mem UInt8) (n : Nat) (heap : List UInt8) :
    Decidable (UnreadableIsBad b m n heap) := inferInstanceAs (Decidable (_ ∧ (_ → ¬ _)))

instance (b : RedundBoard) (s : EnvState) : Decidable (SerialWins b s) :=
  inferInstanceAs (Decidable (∀ cur ∈ goodCopy b s.nand s.envValid, ite _ _ _))

/-- A board with one good block for each copy and 20 bytes of data. -/
def smallBoard : RedundBoard where
  site := twoBlocksSite
  cfg := { twoVarsConfig with envSize := 25, redund := true }
  redund := rfl
  fits := by decide +kernel
  apart := by decide

/-- Flash with copy 1 of the default environment, its serial `flags`; copy 2 is erased. -/
def oneCopyFlash (flags : UInt8) : Mem UInt8 :=
  let env := setDefaultEnv smallBoard.cfg ⟨0, 0, []⟩
  nandWrite (fun _ => 0xFF) 0 ({ env with flags }.toBytes smallBoard.cfg)

end Uboot.Common
