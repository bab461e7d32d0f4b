/-
  Uboot.Common.EnvComplete

  `env_complete` of common/env_common.c with the two arrays that it fills: the pointers in `cmdv`
  and the copies of the names in `buf`.

  Pointers into the data and into `buf` are indices.  The loops read the environment up to its empty
  string, or to its end.
-/

import Uboot.Lib.Holds
import Uboot.Lib.Ram
import Uboot.Common.AutoComplete
import Uboot.Common.GetenvR

namespace Uboot.Common.EnvComplete

open Uboot.Lib Uboot.LibGeneric Uboot.Common.AutoComplete

-- ============================================================================
-- Definitions from the source
-- ============================================================================

/-- What an entry of `cmdv` points to. -/
inductive Entry
  | null
  | dots
  | buf (off : Nat)

/-- The arrays, the entries of `cmdv` stored to, and the locals. -/
structure Out where
  cmdv : Mem Entry
  stored : List Nat
  ram : Ram
  found : Nat
  buf : Nat
  bufsz : Nat

namespace Out

/-- `cmdv[found] = e` -/
def put (o : Out) (e : Entry) : Out :=
  { o with cmdv := Function.update o.cmdv o.found e, stored := o.stored ++ [o.found] }

/-- `cmdv[found++] = e` -/
def push (o : Out) (e : Entry) : Out := { o.put e with found := o.found + 1 }

/-- The name copied to `buf`, and the NUL. -/
def copyName (o : Out) (name : List UInt8) : Out :=
  { o with
    ram := (o.ram.store o.buf name).store (o.buf + name.length) [0]
    buf := o.buf + name.length + 1
    bufsz := o.bufsz - name.length - 1 }

end Out

/-- The variable is skipped. -/
def skips (lval : List UInt8) (vallen : Nat) (var : List UInt8) : Bool :=
  decide (var.length > 0) && (decide (vallen < var.length) || decide (lval.take var.length ≠ var))

/-- The loop over the variables, from index `i` on. -/
def completeLoop (data var : List UInt8) (maxv : Nat) (i : Nat) (o : Out) : Out :=
  if h : envGetChar data i = 0 then o
  else
    let nxt := endOfString data i
    let lval := cstr (data.drop i)
    -- up to the `=`, or to the end
    let vallen := lval.findIdx (· = eqSign)
    if skips lval vallen var then completeLoop data var maxv (nxt + 1) o
    else if (o.found : Int) ≥ (maxv : Int) - 2 ∨ o.bufsz < vallen + 1 then o.push .dots
    else completeLoop data var maxv (nxt + 1) ((o.push (.buf o.buf)).copyName (lval.take vallen))
termination_by data.length - i
decreasing_by
  all_goals
    have hi : i < data.length := by
      by_contra hge
      exact h (by simp [envGetChar, Nat.le_of_not_lt hge])
    simp only [endOfString]
    omega

/-- `env_complete`; what it returns is `found`. -/
def envComplete (data var : List UInt8) (maxv bufsz : Nat) (cmdv : Mem Entry) (buf : Mem UInt8) : Out :=
  let o := Out.put ⟨cmdv, [], ⟨buf, []⟩, 0, 0, bufsz⟩ .null
  (completeLoop data var maxv 0 o).put .null

-- ============================================================================
-- The names
-- ============================================================================

/-- The strings of an environment, up to the empty one. -/
def strings (data : List UInt8) : List (List UInt8) :=
  if h : cstr data = [] then [] else cstr data :: strings (data.drop ((cstr data).length + 1))
termination_by data.length
decreasing_by
  have hdata : data ≠ [] := by
    rintro rfl
    exact h rfl
  have hpos := List.length_pos_of_ne_nil hdata
  rw [List.length_drop]
  omega

/-- The names of the variables that begin with `var`, in the order of the environment: one for
    each variable. -/
def matching (data var : List UInt8) : List (List UInt8) :=
  ((strings data).map varName).filter fun m => var.isPrefixOf m

/-- The names fit: `cmdv` keeps one entry for `...` and one for the NULL. -/
def Fits (maxv bufsz : Nat) (names : List (List UInt8)) : Prop :=
  names.length ≤ maxv - 2 ∧ (names.map fun m => m.length + 1).sum ≤ bufsz

/-- The names as long as they fit, with `...` for the others. -/
def Offers (maxv bufsz : Nat) (names out : List (List UInt8)) : Prop :=
  (out = names ∧ Fits maxv bufsz names) ∨
    ∃ k < names.length, out = names.take k ++ [dots] ∧ Fits maxv bufsz (names.take k) ∧
      ¬ Fits maxv bufsz (names.take (k + 1))

/-- Entry `k` of `cmdv` is the string `s`. -/
def Out.Shows (o : Out) (k : Nat) (s : List UInt8) : Prop :=
  match o.cmdv k with
  | .null => False
  | .dots => s = dots
  | .buf off => off + s.length + 1 ≤ o.buf ∧ o.ram.cells.Holds off (s ++ [0])

/-- `cmdv` is the list `out`, with a NULL behind it, and `found` counts it. -/
structure Out.Lists (o : Out) (out : List (List UInt8)) : Prop where
  found : o.found = out.length
  shows : ∀ k (hk : k < out.length), o.Shows k out[k]
  null : o.cmdv o.found = .null

/-- What the completion owes its caller. -/
structure Completes (names : List (List UInt8)) (maxv bufsz : Nat) (o : Out) : Prop where
  /-- no entry behind `cmdv[maxv - 1]` is stored to -/
  cmdv_lt : ∀ k ∈ o.stored, k < maxv
  /-- no byte outside of `buf` is stored to -/
  buf_lt : o.ram.WritesIn ⟨0, bufsz⟩
  lists : ∃ out, Offers maxv bufsz names out ∧ o.Lists out

-- ============================================================================
-- The loop, name by name
-- ============================================================================

section Names

variable {data var lval : List UInt8}

theorem take_vallen (lval : List UInt8) : lval.take (lval.findIdx (· = eqSign)) = varName lval := by
  rw [varName, List.takeWhile_eq_take_findIdx_not]
  congr 2
  funext b
  simp only [eqSign, ne_eq, decide_not, Bool.not_not]
  exact decide_eq_decide.2 Iff.rfl

theorem length_varName (lval : List UInt8) : (varName lval).length = lval.findIdx (· = eqSign) := by
  rw [← take_vallen, List.length_take]
  exact Nat.min_eq_left List.findIdx_le_length

/-- The variables that are not skipped are those whose name begins with `var`. -/
theorem not_skips_iff : skips lval (lval.findIdx (· = eqSign)) var = false ↔ var.isPrefixOf (varName lval) = true := by
  rw [List.isPrefixOf_iff_prefix, List.prefix_iff_eq_take, ← take_vallen, List.take_take, skips]
  simp only [gt_iff_lt, Bool.and_eq_false_iff, Bool.or_eq_false_iff, decide_eq_false_iff_not]
  constructor
  · rintro (hlen | ⟨hle, htake⟩)
    · have hnil : var = [] := List.eq_nil_of_length_eq_zero (by omega)
      simp [hnil]
    · rw [Nat.min_eq_left (by omega)]
      exact (not_not.1 htake).symm
  · intro heq
    right
    have hlen := congrArg List.length heq
    rw [List.length_take] at hlen
    have hle : var.length ≤ lval.findIdx (· = eqSign) := by omega
    rw [Nat.min_eq_left hle] at heq
    exact ⟨by omega, not_not.2 heq.symm⟩

/-- What the loop does with the names of the variables that are not skipped. -/
def offerNames (maxv : Nat) : List (List UInt8) → Out → Out
  | [], o => o
  | m :: names, o =>
    if (o.found : Int) ≥ (maxv : Int) - 2 ∨ o.bufsz < m.length + 1 then o.push .dots
    else offerNames maxv names ((o.push (.buf o.buf)).copyName m)

theorem strings_drop (data : List UInt8) (i : Nat) :
    strings (data.drop i) =
      if envGetChar data i = 0 then [] else cstr (data.drop i) :: strings (data.drop (endOfString data i + 1)) := by
  have hnil : cstr (data.drop i) = [] ↔ envGetChar data i = 0 := by
    rw [cstr_drop]
    split <;> simp [*]
  rw [strings]
  by_cases h : envGetChar data i = 0
  · rw [dif_pos (hnil.2 h), if_pos h]
  · rw [dif_neg (mt hnil.1 h), if_neg h, List.drop_drop, endOfString]
    congr 3

theorem matching_of_end {i : Nat} (h : envGetChar data i = 0) : matching (data.drop i) var = [] := by
  rw [matching, strings_drop, if_pos h]
  rfl

/-- The next variable begins with `var` or is skipped. -/
theorem matching_of_string {i : Nat} (h : envGetChar data i ≠ 0) :
    matching (data.drop i) var =
      if skips (cstr (data.drop i)) ((cstr (data.drop i)).findIdx (· = eqSign)) var then
        matching (data.drop (endOfString data i + 1)) var
      else varName (cstr (data.drop i)) :: matching (data.drop (endOfString data i + 1)) var := by
  rw [matching, strings_drop, if_neg h, List.map_cons, List.filter_cons]
  by_cases hskip : skips (cstr (data.drop i)) ((cstr (data.drop i)).findIdx (· = eqSign)) var = true
  · rw [if_pos hskip, if_neg (mt not_skips_iff.2 (by rw [hskip]; decide))]
    rfl
  · rw [if_neg hskip, if_pos (not_skips_iff.1 (Bool.eq_false_of_not_eq_true hskip))]
    rfl

theorem completeLoop_eq (maxv i : Nat) (o : Out) :
    completeLoop data var maxv i o = offerNames maxv (matching (data.drop i) var) o := by
  fun_induction completeLoop data var maxv i o with
  | case1 i o h => rw [matching_of_end h, offerNames]
  | case2 i o h nxt lval vallen hskip ih => rw [matching_of_string h, if_pos hskip, ih]
  | case3 i o h lval vallen hskip hfull =>
    rw [matching_of_string h, if_neg hskip, offerNames, length_varName, if_pos hfull]
  | case4 i o h nxt lval vallen hskip hfull ih =>
    rw [matching_of_string h, if_neg hskip, offerNames, length_varName, if_neg hfull, ih, take_vallen]

end Names

-- ============================================================================
-- The arrays
-- ============================================================================

/-- The arrays hold the names in `out`, in front of what is left of `buf`, and nothing else has
    been stored to but `cmdv[0]`. -/
structure Out.Holds (o : Out) (bufsz : Nat) (out : List (List UInt8)) : Prop where
  found : o.found = out.length
  room : o.buf + o.bufsz ≤ bufsz
  shows : ∀ k (hk : k < out.length), o.Shows k out[k]
  stored : ∀ k ∈ o.stored, k < max 1 out.length
  writes : o.ram.WritesIn ⟨0, bufsz⟩

namespace Out.Holds

variable {o : Out} {bufsz : Nat} {out : List (List UInt8)}

/-- One more entry, which is the string `s`. -/
theorem snoc (h : o.Holds bufsz out) {o' : Out} {e : Entry} {s : List UInt8}
    (hfound : o'.found = o.found + 1) (hcmdv : o'.cmdv = Function.update o.cmdv o.found e)
    (hstored : o'.stored = o.stored ++ [o.found]) (hroom : o'.buf + o'.bufsz ≤ bufsz) (hle : o.buf ≤ o'.buf)
    (hcells : ∀ x < o.buf, o'.ram.cells x = o.ram.cells x) (hshows : o'.Shows o.found s)
    (hwrites : o'.ram.WritesIn ⟨0, bufsz⟩) : o'.Holds bufsz (out ++ [s]) := by
  have hlen := h.found
  refine ⟨by rw [hfound, hlen, List.length_append, List.length_singleton], hroom, fun k hk => ?_, fun k hk => ?_,
    hwrites⟩
  · by_cases hlast : k = out.length
    · subst hlast
      rw [List.getElem_append_right (Nat.le_refl _)]
      simpa [hlen] using hshows
    · have hk' : k < out.length := by
        rw [List.length_append, List.length_singleton] at hk
        omega
      have hold := h.shows k hk'
      rw [List.getElem_append_left hk']
      rw [Out.Shows, hcmdv, Function.update_of_ne (by omega)]
      rw [Out.Shows] at hold
      cases hentry : o.cmdv k with
      | null => rwa [hentry] at hold
      | dots => rwa [hentry] at hold
      | buf off =>
        rw [hentry] at hold
        refine ⟨by have := hold.1; omega, hold.2.congr fun x _ hx => hcells x ?_⟩
        rw [List.length_append, List.length_singleton] at hx
        have := hold.1
        omega
  · rw [List.length_append, List.length_singleton]
    rw [hstored, List.mem_append, List.mem_singleton] at hk
    rcases hk with hk | rfl
    · have := h.stored k hk
      omega
    · omega

theorem pushDots (h : o.Holds bufsz out) : (o.push .dots).Holds bufsz (out ++ [dots]) := by
  refine h.snoc rfl rfl rfl h.room (Nat.le_refl _) (fun _ _ => rfl) ?_ h.writes
  rw [Out.Shows]
  simp [Out.push, Out.put]

theorem pushName (h : o.Holds bufsz out) {m : List UInt8} (hm : m.length + 1 ≤ o.bufsz) :
    ((o.push (.buf o.buf)).copyName m).Holds bufsz (out ++ [m]) := by
  have hroom := h.room
  refine h.snoc rfl rfl rfl ?_ ?_ (fun x hx => ?_) ?_ ?_
  · show o.buf + m.length + 1 + (o.bufsz - m.length - 1) ≤ bufsz
    omega
  · show o.buf ≤ o.buf + m.length + 1
    omega
  · show ((o.ram.cells.write o.buf m).write (o.buf + m.length) [0]) x = o.ram.cells x
    rw [Mem.write_append, Mem.write_outside _ (.inl hx)]
  · rw [Out.Shows]
    have hentry : ((o.push (.buf o.buf)).copyName m).cmdv o.found = .buf o.buf := by
      simp [Out.push, Out.put, Out.copyName]
    rw [hentry]
    refine ⟨Nat.le_refl _, ?_⟩
    show ((o.ram.cells.write o.buf m).write (o.buf + m.length) [0]).Holds o.buf (m ++ [0])
    rw [Mem.write_append]
    exact Mem.holds_write ..
  · show ((o.ram.store o.buf m).store (o.buf + m.length) [0]).WritesIn ⟨0, bufsz⟩
    refine (h.writes.store fun _ => ?_).store fun _ => ?_
    · simp only [Extent.stop]
      omega
    · simp only [Extent.stop, List.length_singleton]
      omega

/-- The loop lists what `offer` says. -/
theorem offerNames {maxv : Nat} {names : List (List UInt8)} (h : o.Holds bufsz out) :
    (EnvComplete.offerNames maxv names o).Holds bufsz
      (out ++ offer (fun m => m.length + 1) (maxv - 2 - out.length) o.bufsz names) := by
  induction names generalizing o out with
  | nil => simpa [EnvComplete.offerNames, offer] using h
  | cons m names ih =>
    have hfound := h.found
    rw [EnvComplete.offerNames, offer]
    by_cases hfull : maxv - 2 - out.length = 0 ∨ o.bufsz < m.length + 1
    · rw [if_pos hfull, if_pos (by omega)]
      exact h.pushDots
    · rw [if_neg hfull, if_neg (by omega)]
      have hnext := ih (h.pushName (m := m) (by omega))
      rw [List.length_append, List.length_singleton, List.append_assoc, List.singleton_append] at hnext
      have hbufsz : ((o.push (.buf o.buf)).copyName m).bufsz = o.bufsz - (m.length + 1) := Nat.sub_sub ..
      rw [hbufsz] at hnext
      rwa [Nat.sub_sub]

end Out.Holds

-- ============================================================================
-- What fits
-- ============================================================================

section Fit

variable {maxv bufsz : Nat} {names : List (List UInt8)}

theorem fits_cons {m : List UInt8} (room : Nat) :
    ((m :: names).length ≤ room ∧ ((m :: names).map fun m => m.length + 1).sum ≤ bufsz) ↔
      ¬ (room = 0 ∨ bufsz < m.length + 1) ∧ names.length ≤ room - 1 ∧
        (names.map fun m => m.length + 1).sum ≤ bufsz - (m.length + 1) := by
  rw [List.length_cons, List.map_cons, List.sum_cons]
  omega

theorem offers_offer : Offers maxv bufsz names (offer (fun m => m.length + 1) (maxv - 2) bufsz names) := by
  simp only [Offers, Fits]
  generalize maxv - 2 = room
  induction names generalizing room bufsz with
  | nil => exact .inl ⟨rfl, Nat.zero_le _, Nat.zero_le _⟩
  | cons m names ih =>
    rw [offer]
    by_cases hfull : room = 0 ∨ bufsz < m.length + 1
    · rw [if_pos hfull]
      refine .inr ⟨0, Nat.succ_pos _, rfl, ⟨Nat.zero_le _, Nat.zero_le _⟩, ?_⟩
      rw [List.take_succ_cons, fits_cons]
      exact fun h => h.1 hfull
    · rw [if_neg hfull]
      rcases @ih (bufsz - (m.length + 1)) (room - 1) with ⟨heq, hfits⟩ | ⟨k, hk, heq, hfits, hnot⟩
      · rw [heq, fits_cons]
        exact .inl ⟨rfl, hfull, hfits⟩
      · refine .inr ⟨k + 1, Nat.succ_lt_succ hk, by rw [heq]; rfl, ?_, ?_⟩
        · rw [List.take_succ_cons, fits_cons]
          exact ⟨hfull, hfits⟩
        · rw [List.take_succ_cons, fits_cons]
          exact fun h => hnot h.2

theorem offer_eq_nil {cost : List UInt8 → Nat} {room : Nat} : offer cost room bufsz names = [] ↔ names = [] := by
  cases names with
  | nil => simp [offer]
  | cons m names =>
    rw [offer]
    split <;> simp

/-- The list with `...` and the NULL has room in `cmdv`. -/
theorem length_offer_lt (hmaxv : 2 ≤ maxv) :
    (offer (fun m => m.length + 1) (maxv - 2) bufsz names).length < maxv := by
  suffices h : ∀ room, (offer (fun m => m.length + 1) room bufsz names).length ≤ room + 1 by
    have := h (maxv - 2)
    omega
  intro room
  induction names generalizing room bufsz with
  | nil => exact Nat.zero_le _
  | cons m names ih =>
    rw [offer]
    split
    · exact Nat.succ_le_succ (Nat.zero_le _)
    · next hroom =>
      have hrest := @ih (bufsz - (m.length + 1)) (room - 1)
      rw [List.length_cons]
      omega

end Fit

-- ============================================================================
-- `env_complete`
-- ============================================================================

section Main

variable (data var : List UInt8) (maxv bufsz : Nat) (cmdv : Mem Entry) (buf : Mem UInt8)

/-- The arrays behind the loop. -/
theorem envComplete_holds :
    ∃ o : Out, envComplete data var maxv bufsz cmdv buf = o.put .null ∧
      o.Holds bufsz (offer (fun m => m.length + 1) (maxv - 2) bufsz (matching data var)) := by
  refine ⟨_, rfl, ?_⟩
  rw [completeLoop_eq, List.drop_zero]
  have hstart : (Out.put ⟨cmdv, [], ⟨buf, []⟩, 0, 0, bufsz⟩ .null).Holds bufsz [] := by
    refine ⟨rfl, by simp [Out.put], fun k hk => absurd hk (Nat.not_lt_zero k), fun k hk => ?_, fun w hw => ?_⟩
    · rw [List.mem_singleton.1 hk]
      exact Nat.one_pos
    · exact absurd hw List.not_mem_nil
  exact hstart.offerNames

/-- With the arrays of `var_complete` the list is that of the completion's model. -/
theorem envComplete_lists :
    (envComplete data var maxv bufsz cmdv buf).Lists
      (offer (fun m => m.length + 1) (maxv - 2) bufsz (matching data var)) := by
  obtain ⟨o, heq, h⟩ := envComplete_holds data var maxv bufsz cmdv buf
  rw [heq]
  refine ⟨h.found, fun k hk => ?_, Function.update_self ..⟩
  have hne : k ≠ o.found := by
    rw [h.found]
    omega
  have hentry : (o.put .null).cmdv k = o.cmdv k := Function.update_of_ne hne ..
  rw [Out.Shows, hentry]
  exact h.shows k hk

end Main

/-- `a=1` -/
def oneVariable : List UInt8 := [97, 61, 49, 0, 0]

/-- `var_complete` gives 20 entries and 512 bytes. -/
theorem envComplete_refines (data var : List UInt8) (cmdv : Mem Entry) (buf : Mem UInt8) :
    (envComplete data var AutoComplete.maxv 512 cmdv buf).Lists (AutoComplete.envComplete (strings data) var) :=
  envComplete_lists data var AutoComplete.maxv 512 cmdv buf

/-- Where no two variables have the same name, no name is listed twice. -/
theorem nodup_matching {data : List UInt8} (h : ((strings data).map varName).Nodup) (var : List UInt8) :
    (matching data var).Nodup := h.filter _

end Uboot.Common.EnvComplete
