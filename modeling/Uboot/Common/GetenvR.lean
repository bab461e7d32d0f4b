/-
  Uboot.Common.GetenvR

  `getenv_r` of common/cmd_nvedit.c: the lookup of `getenv` with the value copied
  into a buffer of `len` bytes.  The buffer begins at address 0 of its memory.
-/

import Uboot.Lib.Ram
import Uboot.Common.CmdNvedit
import Mathlib.Order.Interval.Set.Basic

namespace Uboot.Common

open Uboot.Lib Uboot.LibGeneric

-- ============================================================================
-- Definitions from the source
-- ============================================================================

/-- The locals of the copy: what `buf` points into, how far it has moved, and `n`. -/
structure Copied where
  ram : Ram
  buf : Nat
  n : Nat

/-- `while ((len > n++) && (*buf++ = env_get_char (val++)) != '\0')`, with `room` what
    `len` exceeds `n` by. -/
def copyLoop (data : List UInt8) : Nat → Nat → Copied → Copied
  | 0, _, c => { c with n := c.n + 1 }
  | room + 1, val, c =>
    let ch := envGetChar data val
    let c := { ram := c.ram.store c.buf [ch], buf := c.buf + 1, n := c.n + 1 }
    if ch = 0 then c else copyLoop data room (val + 1) c

/-- What is done once the variable is found: the copy, the terminator, and the count
    that is returned. -/
def copyOut (data : List UInt8) (val len : Nat) (ram : Ram) : Ram × Int :=
  let c := copyLoop data len val ⟨ram, 0, 0⟩
  (if len = c.n then c.ram.store c.buf [0] else c.ram, c.n)

/-- The loop of `getenv_r`, from entry `i` on. -/
def getenvRLoop (envSize : Nat) (data name : List UInt8) (ram : Ram) (len : Nat) :
    Nat → Nat → Ram × Int
  | 0, _ => (ram, -1)
  | fuel + 1, i =>
    if envGetChar data i = 0 then (ram, -1)
    else
      let nxt := endOfString data i
      if envSize < nxt then (ram, -1)
      else
        match envmatch data name i with
        | none => getenvRLoop envSize data name ram len fuel (nxt + 1)
        | some val => copyOut data val len ram

/-- `getenv_r`. -/
def getenvR (cfg : EnvConfig) (data name : List UInt8) (ram : Ram) (len : Nat) : Ram × Int :=
  getenvRLoop cfg.envSize data name ram len (data.length + 1) 0

-- ============================================================================
-- The lookup is that of `getenv`
-- ============================================================================

/-- Where `getenv` returns a value, `getenv_r` copies it. -/
theorem getenvRLoop_of_getenvLoop {envSize : Nat} {data name value : List UInt8} (ram : Ram)
    (len : Nat) {fuel i : Nat} (h : getenvLoop envSize data name fuel i = some value) :
    ∃ val, value = cstr (data.drop val) ∧
      getenvRLoop envSize data name ram len fuel i = copyOut data val len ram := by
  induction fuel generalizing i with
  | zero => simp [getenvLoop] at h
  | succ fuel ih =>
    rw [getenvLoop] at h
    rw [getenvRLoop]
    split at h
    · simp at h
    · rename_i hchar
      rw [if_neg hchar]
      simp only at h ⊢
      split at h
      · simp at h
      · rename_i hsize
        rw [if_neg hsize]
        cases hm : envmatch data name i with
        | none =>
          rw [hm] at h
          exact ih h
        | some val =>
          rw [hm] at h
          exact ⟨val, (Option.some.inj h).symm, rfl⟩

-- ============================================================================
-- The copy
-- ============================================================================

/-- The value from `val` on, byte by byte. -/
theorem cstr_drop (data : List UInt8) (val : Nat) :
    cstr (data.drop val) =
      if envGetChar data val = 0 then []
      else envGetChar data val :: cstr (data.drop (val + 1)) := by
  by_cases hval : val < data.length
  · have hget : envGetChar data val = data[val] := by simp [envGetChar, hval]
    rw [List.drop_eq_getElem_cons hval, hget, cstr, List.takeWhile_cons]
    by_cases hz : data[val] = 0 <;> simp [hz, cstr]
  · have hget : envGetChar data val = 0 := by simp [envGetChar, Nat.le_of_not_lt hval]
    rw [List.drop_eq_nil_of_le (Nat.le_of_not_lt hval), hget, if_pos rfl]
    rfl

/-- The first `n` bytes of the buffer, and no others, have been written: they are `bs`. -/
structure Filled (r : Ram) (bs : List UInt8) : Prop where
  written : r.written = {x | x < bs.length}
  text : r.cells.read 0 bs.length = bs

theorem Filled.store {r : Ram} {bs : List UInt8} (h : Filled r bs) (b : UInt8) :
    Filled (r.store bs.length [b]) (bs ++ [b]) where
  written := by
    rw [List.length_append]
    exact Ram.written_store_next h.written
  text := by
    have happ := @Mem.read_write_append _ r.cells 0 bs.length [b] bs h.text
    rw [List.length_append]
    simpa using happ

theorem Filled.unique {r : Ram} {bs cs : List UInt8} (h : Filled r bs) (h' : Filled r cs) :
    bs = cs := by
  have hlen : bs.length = cs.length := Set.Iio_injective (h.written.symm.trans h'.written)
  rw [← h.text, hlen, h'.text]

variable {data : List UInt8}

/-- A value with room for its NUL is copied whole, the NUL behind it. -/
theorem copyLoop_fits {val room n : Nat} {r : Ram} {bs : List UInt8} (h : Filled r bs)
    (hroom : (cstr (data.drop val)).length < room) :
    ∃ r', Filled r' (bs ++ cstr (data.drop val) ++ [0]) ∧
      copyLoop data room val ⟨r, bs.length, n⟩ =
        ⟨r', bs.length + (cstr (data.drop val)).length + 1, n + (cstr (data.drop val)).length + 1⟩ := by
  induction room generalizing val n r bs with
  | zero => exact absurd hroom (Nat.not_lt_zero _)
  | succ room ih =>
    rw [copyLoop]
    rw [cstr_drop] at hroom ⊢
    by_cases hz : envGetChar data val = 0
    · simp only [hz, if_true, List.append_nil, List.length_nil, Nat.add_zero]
      exact ⟨_, h.store 0, rfl⟩
    · simp only [hz, if_false] at hroom ⊢
      have hstore := h.store (envGetChar data val)
      obtain ⟨r', hr', heq⟩ := ih (n := n + 1) hstore (Nat.lt_of_succ_lt_succ hroom)
      refine ⟨r', by simpa using hr', ?_⟩
      rw [List.length_append, List.length_singleton] at heq
      rw [heq]
      simp only [Copied.mk.injEq, true_and, List.length_cons]
      omega

/-- A longer value fills the room and is not terminated; `n` ends one past it. -/
theorem copyLoop_cut {val room n : Nat} {r : Ram} {bs : List UInt8} (h : Filled r bs)
    (hroom : room ≤ (cstr (data.drop val)).length) :
    ∃ r', Filled r' (bs ++ (cstr (data.drop val)).take room) ∧
      copyLoop data room val ⟨r, bs.length, n⟩ = ⟨r', bs.length + room, n + room + 1⟩ := by
  induction room generalizing val n r bs with
  | zero => exact ⟨r, by simpa using h, rfl⟩
  | succ room ih =>
    rw [copyLoop]
    rw [cstr_drop] at hroom ⊢
    by_cases hz : envGetChar data val = 0
    · simp [hz] at hroom
    · simp only [hz, if_false] at hroom ⊢
      have hstore := h.store (envGetChar data val)
      obtain ⟨r', hr', heq⟩ := ih (n := n + 1) hstore (Nat.le_of_succ_le_succ hroom)
      refine ⟨r', by simpa using hr', ?_⟩
      rw [List.length_append, List.length_singleton] at heq
      rw [heq]
      simp only [Copied.mk.injEq, true_and]
      omega

-- ============================================================================
-- What the caller gets
-- ============================================================================

/-- The buffer of `len` bytes holds the value, or as much of it as there is room for,
    with its NUL; nothing else is written, and the count is that of the bytes written. -/
structure Delivered (value : List UInt8) (len : Nat) (r : Ram × Int) : Prop where
  inside : r.1.WritesIn ⟨0, len⟩
  text : ∃ k, (value.length < len → value.length ≤ k) ∧
    Filled r.1 (value.take k ++ [0]) ∧ r.2 = (value.take k ++ [0]).length

theorem copyOut_delivered {val len : Nat} {cells : Mem UInt8} :
    Delivered (cstr (data.drop val)) len (copyOut data val len ⟨cells, []⟩) ↔
      (cstr (data.drop val)).length + 1 < len := by
  have hstart : Filled ⟨cells, []⟩ [] := ⟨by simp [Ram.written], rfl⟩
  by_cases hfit : (cstr (data.drop val)).length < len
  · obtain ⟨r, hr, heq⟩ := copyLoop_fits (n := 0) hstart hfit
    simp only [List.nil_append, List.length_nil, Nat.zero_add] at hr heq
    rw [copyOut, heq]
    by_cases hlast : len = (cstr (data.drop val)).length + 1
    · -- the terminator is written a second time, behind the first
      simp only [if_pos hlast]
      refine ⟨fun h => ?_, fun h => by omega⟩
      have hin := Ram.writesIn_iff.mp h.inside
      rw [Ram.written_store] at hin
      have hmem := hin (.inr (show (cstr (data.drop val)).length + 1 ∈ _ by simp [Extent.stop]))
      simp only [Extent.mem_cells, Extent.stop] at hmem
      omega
    · simp only [if_neg hlast]
      refine ⟨fun _ => by omega, fun _ => ⟨?_, (cstr (data.drop val)).length, fun _ => Nat.le_refl _, ?_, ?_⟩⟩
      · rw [Ram.writesIn_iff, hr.written]
        intro x hx
        simp only [List.length_append, List.length_singleton, Set.mem_ofPred_eq] at hx
        simp only [Extent.mem_cells, Extent.stop]
        omega
      · rw [List.take_length]
        exact hr
      · simp
  · obtain ⟨r, hr, heq⟩ := copyLoop_cut (n := 0) hstart (Nat.le_of_not_lt hfit)
    simp only [List.nil_append, List.length_nil, Nat.zero_add] at hr heq
    rw [copyOut, heq]
    simp only [if_neg (Nat.ne_of_lt (Nat.lt_succ_self len))]
    refine ⟨fun h => ?_, fun h => by omega⟩
    obtain ⟨k, -, htext, hcount⟩ := h.text
    -- the count is one more than the bytes written
    have hlen := congrArg List.length (hr.unique htext)
    simp only [List.length_append, List.length_singleton, List.length_take] at hlen hcount
    omega

/-- **Bounds of `getenv_r`.** For a variable that exists, the buffer gets the value as
    promised exactly when the value and its NUL leave a byte of it free. -/
theorem getenvR_delivered_iff (cfg : EnvConfig) {data name value : List UInt8} (cells : Mem UInt8)
    (len : Nat) (h : getenv cfg data name = some value) :
    Delivered value len (getenvR cfg data name ⟨cells, []⟩ len) ↔ value.length + 1 < len := by
  obtain ⟨val, rfl, heq⟩ := getenvRLoop_of_getenvLoop ⟨cells, []⟩ len h
  rw [getenvR, heq]
  exact copyOut_delivered

/-- The environment `a=b`. -/
def abData : List UInt8 := [97, 61, 98, 0, 0]

def abConfig : EnvConfig where
  envSize := 9
  redund := false
  defaultVars := []

/-- Three bytes hold the value, its NUL and the byte that stays free. -/
theorem getenvR_delivered_three :
    Delivered [98] 3 (getenvR abConfig abData [97] ⟨fun _ => 0xFF, []⟩ 3) :=
  (getenvR_delivered_iff abConfig (fun _ => 0xFF) 3 (by decide +kernel)).mpr (by decide)

/-- In two bytes the value and its NUL fit, and a second NUL is written behind them. -/
theorem getenvR_outside_two :
    getenv abConfig abData [97] = some [98] ∧
      ¬ Delivered [98] 2 (getenvR abConfig abData [97] ⟨fun _ => 0xFF, []⟩ 2) := by
  refine ⟨by decide +kernel, fun h => ?_⟩
  have hmem : (⟨2, 1⟩ : Extent) ∈ (getenvR abConfig abData [97] ⟨fun _ => 0xFF, []⟩ 2).1.log := by
    decide +kernel
  have hin := h.inside _ hmem (show 2 ∈ _ by simp [Extent.stop])
  simp [Extent.stop] at hin

end Uboot.Common
