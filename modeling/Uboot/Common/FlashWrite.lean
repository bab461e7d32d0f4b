/-
  Uboot.Common.FlashWrite

  `flash_write` of common/flash.c: the sectors of the range are looked at, and when none is
  protected each bank's driver is given its part.

  The end of a sector is taken past its last byte, which is 0 for a sector at the end of the
  address space, so that its protection is not seen.
-/

import Mathlib.Data.List.Flatten
import Mathlib.Data.List.Range
import Mathlib.Tactic.IntervalCases
import Mathlib.Tactic.SplitIfs
import Uboot.Common.Flash

namespace Uboot.Common.FlashWrite

open Uboot.Common.Flash

/-- A call of `write_buff`; `src` counts from the start of the source. -/
structure WriteCall where
  bank : Nat
  src : Nat
  addr : UInt32
  len : UInt32

/-- The calls so far, with the answers. -/
abbrev Log := List (WriteCall × Int)

/-- `write_buff` of the chips. -/
abbrev Driver := Log → WriteCall → Int

-- ============================================================================
-- `flash_write`
-- ============================================================================

/-- `e_addr`, the end of a sector. -/
def eAddr (info : FlashInfo) (i : Nat) : UInt32 :=
  if i = info.sectorCount - 1 then info.start 0 + info.size else info.start (i + 1)

/-- The test of a sector for the range from `addr` to `last`. -/
def hitsProtected (T : FlashTable) (protect : Protect) (addr last : UInt32) (b i : Nat) : Bool :=
  decide (last ≥ (T.info b).start i) && decide (addr < eAddr (T.info b) i) && protect b i != 0

/-- The banks from `infoFirst` to `infoLast`. -/
def banks (infoFirst infoLast : Nat) : List Nat := List.range' infoFirst (infoLast + 1 - infoFirst)

/-- The loop that looks at the sectors. -/
def anyProtected (T : FlashTable) (protect : Protect) (addr last : UInt32) (infoFirst infoLast : Nat) : Bool :=
  (banks infoFirst infoLast).any fun b =>
    (List.range (T.info b).sectorCount).any fun i => hitsProtected T protect addr last b i

/-- The loop that writes. -/
def writeLoop (T : FlashTable) (writeBuff : Driver) : Log → List Nat → Nat → UInt32 → UInt32 → Int × Log
  | log, [], _, _, _ => (ERR_OK, log)
  | log, b :: bs, src, addr, cnt =>
    if cnt > 0 then
      let room := (T.info b).start 0 + (T.info b).size - addr
      let len := if room > cnt then cnt else room
      let call : WriteCall := ⟨b, src, addr, len⟩
      let rc := writeBuff log call
      if rc ≠ 0 then (rc, log ++ [(call, rc)])
      else writeLoop T writeBuff (log ++ [(call, rc)]) bs (src + len.toNat) (addr + len) (cnt - len)
    else (ERR_OK, log)

/-- `flash_write` -/
def flashWrite (T : FlashTable) (protect : Protect) (writeBuff : Driver) (addr cnt : UInt32) : Int × Log :=
  let last := addr + cnt - 1
  if cnt = 0 then (ERR_OK, [])
  else
    match addr2info T addr, addr2info T last with
    | some infoFirst, some infoLast =>
      if anyProtected T protect addr last infoFirst infoLast then (ERR_PROTECTED, [])
      else writeLoop T writeBuff [] (banks infoFirst infoLast) 0 addr cnt
    | _, _ => (ERR_INVAL, [])

-- ============================================================================
-- What it should do
-- ============================================================================

/-- The byte at `a` is in a protected sector. -/
def Protected (T : FlashTable) (protect : Protect) (a : Nat) : Prop :=
  ∃ b i, b < T.bankCount ∧ i < (T.info b).sectorCount ∧ ((T.info b).start i).toNat ≤ a ∧ a < (T.info b).sectorEnd i ∧
    protect b i ≠ 0

/-- Bytes of the source with the addresses they go to. -/
def copies (src addr cnt : Nat) : List (Nat × Nat) := (List.range cnt).map fun k => (src + k, addr + k)

/-- What a call writes. -/
def WriteCall.copies (c : WriteCall) : List (Nat × Nat) := FlashWrite.copies c.src c.addr.toNat c.len.toNat

/-- What the calls write. -/
def written (log : Log) : List (Nat × Nat) := log.flatMap fun e => e.1.copies

/-- The calls are for one bank after the other, each inside of its bank, and write the bytes in
    turn: all of them, unless the last call fails. -/
structure WritesAll (T : FlashTable) (src addr cnt : Nat) (r : Int × Log) : Prop where
  banks : r.2.Pairwise fun e e' => e.1.bank < e'.1.bank
  inBank : ∀ e ∈ r.2, ∀ k, k < e.1.len.toNat → T.InBank e.1.bank (e.1.addr.toNat + k)
  inTurn : written r.2 <+: copies src addr cnt
  all : r.1 = 0 → written r.2 = copies src addr cnt
  failed : r.1 ≠ 0 → r.2.getLast?.map Prod.snd = some r.1

/-- **What `flash_write` should do**, whatever the drivers answer. A range with a protected byte and
    one outside of the banks may be refused for either. -/
structure WritesRight (T : FlashTable) (protect : Protect) (addr cnt : UInt32) : Prop where
  refuses : ∀ writeBuff,
    ((∃ k, k < cnt.toNat ∧ Protected T protect (addr.toNat + k)) ∨
      ∃ k, k < cnt.toNat ∧ ¬T.InFlash (addr.toNat + k)) →
    (flashWrite T protect writeBuff addr cnt).2 = [] ∧
      ((flashWrite T protect writeBuff addr cnt).1 = ERR_PROTECTED ∧
          (∃ k, k < cnt.toNat ∧ Protected T protect (addr.toNat + k)) ∨
        (flashWrite T protect writeBuff addr cnt).1 = ERR_INVAL ∧ ∃ k, k < cnt.toNat ∧ ¬T.InFlash (addr.toNat + k))
  writes : ∀ writeBuff, (∀ k, k < cnt.toNat → ¬Protected T protect (addr.toNat + k)) →
    (∀ k, k < cnt.toNat → T.InFlash (addr.toNat + k)) →
    WritesAll T 0 addr.toNat cnt.toNat (flashWrite T protect writeBuff addr cnt)

/-- The ranges that are handled as they should be: empty ones, those with an end outside of the
    flash, and of the others those with a protected sector that does not end with the address space
    and those that neither wrap around nor have a protected byte. -/
def Handled (T : FlashTable) (protect : Protect) (addr cnt : UInt32) : Prop :=
  cnt = 0 ∨ ¬T.InFlash addr.toNat ∨ ¬T.InFlash ((addr.toNat + cnt.toNat - 1) % 2 ^ 32) ∨
    (addr.toNat + cnt.toNat ≤ 2 ^ 32 ∧ ∀ k, k < cnt.toNat → ¬Protected T protect (addr.toNat + k)) ∨
    ∃ b i, b < T.bankCount ∧ i < (T.info b).sectorCount ∧ (T.info b).sectorEnd i < 2 ^ 32 ∧
      ((T.info b).start i).toNat ≤ (addr.toNat + cnt.toNat - 1) % 2 ^ 32 ∧ addr.toNat < (T.info b).sectorEnd i ∧
      protect b i ≠ 0

-- ============================================================================
-- The sectors that are looked at
-- ============================================================================

section Protection

variable {T : FlashTable} {protect : Protect} {addr cnt last : UInt32} {b i infoFirst infoLast : Nat}

theorem toNat_ne_zero (hcnt : cnt ≠ 0) : cnt.toNat ≠ 0 := fun h => hcnt (UInt32.toNat_inj.1 h)

theorem toNat_last (hcnt : cnt ≠ 0) : (addr + cnt - 1).toNat = (addr.toNat + cnt.toNat - 1) % 2 ^ 32 := by
  have hpos := toNat_ne_zero hcnt
  have hone : (1 : UInt32).toNat = 1 := rfl
  rw [UInt32.toNat_sub, UInt32.toNat_add, hone]
  omega

/-- The end that is compared is 0 for a sector at the end of the address space. -/
theorem toNat_eAddr (info : FlashInfo) :
    (eAddr info i).toNat = if info.sectorEnd i < 2 ^ 32 then info.sectorEnd i else 0 := by
  rw [eAddr]
  split_ifs with hlast hlow hlow
  · rw [FlashInfo.toNat_base_add_size, if_pos (by rwa [hlast, info.sectorEnd_last] at hlow), hlast, info.sectorEnd_last]
  · rw [FlashInfo.toNat_base_add_size, if_neg (by rwa [hlast, info.sectorEnd_last] at hlow)]
  · rw [FlashInfo.sectorEnd, if_neg hlast]
  · rw [FlashInfo.sectorEnd, if_neg hlast] at hlow
    exact absurd (info.start (i + 1)).toNat_lt hlow

theorem hitsProtected_iff :
    hitsProtected T protect addr last b i = true ↔
      (T.info b).sectorEnd i < 2 ^ 32 ∧ ((T.info b).start i).toNat ≤ last.toNat ∧ addr.toNat < (T.info b).sectorEnd i ∧
        protect b i ≠ 0 := by
  rw [hitsProtected, Bool.and_eq_true, Bool.and_eq_true, decide_eq_true_iff, decide_eq_true_iff, ge_iff_le,
    UInt32.le_iff_toNat_le, UInt32.lt_iff_toNat_lt, toNat_eAddr, bne_iff_ne]
  split_ifs with hlow
  · grind
  · exact ⟨fun h => absurd h.1.2 (Nat.not_lt_zero _), fun h => absurd h.1 hlow⟩

/-- The protected sectors that are seen, of all banks: the banks that are looked at are those the
    range is in. -/
theorem anyProtected_iff (hfirst : T.InBank infoFirst addr.toNat) (hlast : T.InBank infoLast last.toNat) :
    anyProtected T protect addr last infoFirst infoLast = true ↔
      ∃ b i, b < T.bankCount ∧ i < (T.info b).sectorCount ∧ (T.info b).sectorEnd i < 2 ^ 32 ∧
        ((T.info b).start i).toNat ≤ last.toNat ∧ addr.toNat < (T.info b).sectorEnd i ∧ protect b i ≠ 0 := by
  rw [anyProtected, List.any_eq_true]
  constructor
  · rintro ⟨b, hb, hany⟩
    obtain ⟨i, hi, hhit⟩ := List.any_eq_true.1 hany
    have hi := List.mem_range.1 hi
    rw [banks, List.mem_range'_1] at hb
    have hcount := hlast.1
    exact ⟨b, i, by omega, hi, hitsProtected_iff.1 hhit⟩
  · rintro ⟨b, i, hb, hi, hlow, hstart, hend, hprot⟩
    have hge := T.tiles.le_of_lt hfirst.1 hfirst.2.1 (hend.trans_le (FlashInfo.sectorEnd_le hi)) (Nat.le_refl _)
    have hle := T.tiles.le_of_lt hb ((FlashInfo.base_le_start hi).trans hstart) hlast.2.2 (Nat.le_refl _)
    refine ⟨b, ?_, List.any_eq_true.2 ⟨i, List.mem_range.2 hi, hitsProtected_iff.2 ⟨hlow, hstart, hend, hprot⟩⟩⟩
    rw [banks, List.mem_range'_1]
    omega

end Protection

-- ============================================================================
-- The loop that writes
-- ============================================================================

theorem copies_add (src addr m n : Nat) :
    copies src addr (m + n) = copies src addr m ++ copies (src + m) (addr + m) n := by
  rw [copies, List.range_add, List.map_append, List.map_map]
  simp only [copies, Function.comp_def, Nat.add_assoc]

section Loop

variable {T : FlashTable}

/-- Nothing that is answered with success makes the loop fail. -/
theorem writeLoop_success (log : Log) (bs : List Nat) (src : Nat) (addr cnt : UInt32) :
    (writeLoop T (fun _ _ => 0) log bs src addr cnt).1 = ERR_OK := by
  induction bs generalizing log src addr cnt with
  | nil => rfl
  | cons b bs ih =>
    rw [writeLoop]
    split
    · exact ih _ _ _ _
    · rfl

/-- The room a bank has from an address on. -/
theorem toNat_room {b : Nat} {addr : UInt32} (h : T.InBank b addr.toNat) :
    ((T.info b).start 0 + (T.info b).size - addr).toNat = (T.info b).bankEnd - addr.toNat := by
  obtain ⟨-, hlow, hhigh⟩ := h
  have hsize := (T.info b).size.toNat_lt
  have hend := (T.info b).end_le
  rw [UInt32.toNat_sub, FlashInfo.toNat_base_add_size]
  rw [FlashInfo.bankEnd] at *
  split_ifs <;> omega

theorem WritesAll.nil (src addr : Nat) : WritesAll T src addr 0 (ERR_OK, []) where
  banks := List.Pairwise.nil
  inBank := by simp
  inTurn := List.nil_prefix
  all _ := rfl
  failed h := absurd rfl h

/-- One call more in front of the others, for the bytes before theirs. -/
theorem WritesAll.cons {src addr cnt src' addr' cnt' : Nat} {r : Int} {log : Log} {call : WriteCall}
    (h : WritesAll T src' addr' cnt' (r, log))
    (hbank : ∀ k, k < call.len.toNat → T.InBank call.bank (call.addr.toNat + k))
    (hbanks : ∀ e ∈ log, call.bank < e.1.bank) (hsplit : copies src addr cnt = call.copies ++ copies src' addr' cnt') :
    WritesAll T src addr cnt (r, (call, 0) :: log) where
  banks := List.Pairwise.cons hbanks h.banks
  inBank e he := by
    rcases List.mem_cons.1 he with rfl | he
    · exact hbank
    · exact h.inBank e he
  inTurn := by
    rw [hsplit, written, List.flatMap_cons]
    exact (List.prefix_append_right_inj _).2 h.inTurn
  all hr := by
    rw [hsplit, written, List.flatMap_cons]
    exact congrArg (call.copies ++ ·) (h.all hr)
  failed hr := by
    have := h.failed hr
    cases log with
    | nil => exact absurd this (by simp)
    | cons e log => exact this

/-- **The loop writes the range**, from a bank the range starts in up to one that has its end. -/
theorem writeLoop_spec (writeBuff : Driver) (n b src : Nat) (addr cnt : UInt32) (log : Log)
    (hin : cnt ≠ 0 → T.InBank b addr.toNat ∧ 0 < n ∧ b + n ≤ T.bankCount ∧
      addr.toNat + cnt.toNat ≤ (T.info (b + n - 1)).bankEnd) :
    ∃ r new, writeLoop T writeBuff log (List.range' b n) src addr cnt = (r, log ++ new) ∧
      WritesAll T src addr.toNat cnt.toNat (r, new) ∧ ∀ e ∈ new, b ≤ e.1.bank := by
  induction n generalizing b src addr cnt log with
  | zero =>
    obtain rfl : cnt = 0 := by_contra fun hcnt => absurd (hin hcnt).2.1 (Nat.lt_irrefl 0)
    exact ⟨ERR_OK, [], by simp [writeLoop], WritesAll.nil _ _, by simp⟩
  | succ n ih =>
    rw [List.range'_succ, writeLoop]
    by_cases hcnt : cnt = 0
    · subst hcnt
      exact ⟨ERR_OK, [], by simp, WritesAll.nil _ _, by simp⟩
    · obtain ⟨hbank, -, hcount, hend⟩ := hin hcnt
      have hroom := toNat_room hbank
      rw [if_pos (UInt32.pos_iff_ne_zero.2 hcnt)]
      generalize (T.info b).start 0 + (T.info b).size - addr = room at hroom ⊢
      dsimp only
      generalize hmin : (if room > cnt then cnt else room) = len
      have hlen : len.toNat = min ((T.info b).bankEnd - addr.toNat) cnt.toNat := by
        rw [← hmin, ← hroom]
        split
        · next h => exact (Nat.min_eq_right (UInt32.le_iff_toNat_le.1 (UInt32.le_of_lt h))).symm
        · next h => exact (Nat.min_eq_left (UInt32.le_iff_toNat_le.1 (UInt32.not_lt.1 h))).symm
      have hcall : ∀ k, k < len.toNat → T.InBank b (addr.toNat + k) := by
        intro k hk
        obtain ⟨hb, hlow, hhigh⟩ := hbank
        exact ⟨hb, by omega, by omega⟩
      have hrest : (cnt - len).toNat = cnt.toNat - len.toNat :=
        UInt32.toNat_sub_of_le _ _ (UInt32.le_iff_toNat_le.2 (by omega))
      -- what is left starts with the next bank
      have hnext : cnt - len ≠ 0 → (addr + len).toNat = addr.toNat + len.toNat ∧ T.InBank (b + 1) (addr + len).toNat ∧
          0 < n ∧ b + 1 + n ≤ T.bankCount ∧
          (addr + len).toNat + (cnt - len).toNat ≤ (T.info (b + 1 + n - 1)).bankEnd := by
        intro hleft
        have hleft : (cnt - len).toNat ≠ 0 := fun h => hleft (UInt32.toNat_inj.1 h)
        have hhigh := hbank.2.2
        have hn : 0 < n := by
          by_contra hzero
          obtain rfl : n = 0 := by omega
          rw [Nat.zero_add, Nat.add_sub_cancel] at hend
          omega
        have hcontig := T.contiguous b (by omega)
        have hword := ((T.info (b + 1)).start 0).toNat_lt
        have haddr : (addr + len).toNat = addr.toNat + len.toNat := by
          rw [UInt32.toNat_add]
          omega
        have hb := (T.info (b + 1)).base_lt_end
        rw [show b + 1 + n - 1 = b + (n + 1) - 1 by omega, hrest, haddr]
        exact ⟨rfl, ⟨by omega, by omega, by omega⟩, hn, by omega, by omega⟩
      have hsplit : copies src addr.toNat cnt.toNat =
          copies src addr.toNat len.toNat ++ copies (src + len.toNat) (addr + len).toNat (cnt - len).toNat := by
        rw [show cnt.toNat = len.toNat + (cnt - len).toNat by omega, copies_add]
        by_cases hleft : cnt - len = 0
        · rw [hleft]
          rfl
        · rw [(hnext hleft).1]
      by_cases hrc : writeBuff log ⟨b, src, addr, len⟩ = 0
      · rw [hrc, if_neg (fun h => h rfl)]
        obtain ⟨r, new, hrun, hall, hge⟩ := ih (b + 1) (src + len.toNat) (addr + len) (cnt - len)
          (log ++ [(⟨b, src, addr, len⟩, 0)]) fun h => (hnext h).2
        refine ⟨r, (⟨b, src, addr, len⟩, 0) :: new, ?_, hall.cons hcall hge hsplit, ?_⟩
        · rw [hrun, List.append_assoc]
          rfl
        · intro e he
          rcases List.mem_cons.1 he with rfl | he
          · exact Nat.le_refl b
          · exact Nat.le_of_succ_le (hge e he)
      · rw [if_pos hrc]
        refine ⟨_, _, rfl, ⟨List.pairwise_singleton _ _, ?_, ?_, fun h => absurd h hrc, fun _ => rfl⟩, by simp⟩
        · simpa using hcall
        · rw [hsplit, written, List.flatMap_singleton]
          exact List.prefix_append _ _

end Loop

-- ============================================================================
-- When it does what it should
-- ============================================================================

section Range

variable {T : FlashTable} {protect : Protect} {addr cnt : UInt32}

/-- A range is in the flash just where it does not wrap around and both of its ends are. -/
theorem range_inFlash_iff (addr : Nat) {cnt : Nat} (hcnt : cnt ≠ 0) :
    (∀ k, k < cnt → T.InFlash (addr + k)) ↔
      addr + cnt ≤ 2 ^ 32 ∧ T.InFlash addr ∧ T.InFlash ((addr + cnt - 1) % 2 ^ 32) := by
  constructor
  · intro h
    have hlast := h (cnt - 1) (by omega)
    have hword := hlast.lt_word
    rw [← Nat.add_sub_assoc (by omega)] at hlast hword
    exact ⟨by omega, h 0 (by omega), by rwa [Nat.mod_eq_of_lt hword]⟩
  · rintro ⟨hfits, hfirst, hlast⟩ k hk
    rw [Nat.mod_eq_of_lt (by omega)] at hlast
    exact hfirst.between hlast (by omega) (by omega)

/-- The sectors that are seen have bytes of the range, also when it wraps around. -/
theorem protected_of_seen {addr cnt b i : Nat} (hcnt : cnt ≠ 0) (hb : b < T.bankCount)
    (hi : i < (T.info b).sectorCount) (hstart : ((T.info b).start i).toNat ≤ (addr + cnt - 1) % 2 ^ 32)
    (hend : addr < (T.info b).sectorEnd i) (hprot : protect b i ≠ 0) :
    ∃ k, k < cnt ∧ Protected T protect (addr + k) := by
  have hlt := (T.info b).tiles.lt i hi
  have hmod := Nat.mod_le (addr + cnt - 1) (2 ^ 32)
  refine ⟨((T.info b).start i).toNat - addr, by omega, b, i, hb, hi, by omega, by omega, hprot⟩

theorem flashWrite_outside {writeBuff : Driver} (hcnt : cnt ≠ 0)
    (hout : ¬T.InFlash addr.toNat ∨ ¬T.InFlash (addr + cnt - 1).toNat) :
    flashWrite T protect writeBuff addr cnt = (ERR_INVAL, []) := by
  rw [← addr2info_eq_none_iff, ← addr2info_eq_none_iff] at hout
  rw [flashWrite, if_neg hcnt]
  rcases hout with hnone | hnone
  · rw [hnone]
  · rw [hnone]
    cases addr2info T addr <;> rfl

theorem flashWrite_inside {writeBuff : Driver} {infoFirst infoLast : Nat} (hcnt : cnt ≠ 0)
    (hfirst : T.InBank infoFirst addr.toNat) (hlast : T.InBank infoLast (addr + cnt - 1).toNat) :
    flashWrite T protect writeBuff addr cnt =
      if anyProtected T protect addr (addr + cnt - 1) infoFirst infoLast then (ERR_PROTECTED, [])
      else writeLoop T writeBuff [] (banks infoFirst infoLast) 0 addr cnt := by
  rw [flashWrite, if_neg hcnt, addr2info_eq_some_iff.2 hfirst, addr2info_eq_some_iff.2 hlast]

/-- A range with both ends in the flash and no sector that is seen as protected: it is written, or
    taken for written. -/
theorem writesRight_iff_unseen {infoFirst infoLast : Nat} (hcnt : cnt ≠ 0) (hfirst : T.InBank infoFirst addr.toNat)
    (hlast : T.InBank infoLast (addr + cnt - 1).toNat)
    (hseen : ¬anyProtected T protect addr (addr + cnt - 1) infoFirst infoLast = true) :
    WritesRight T protect addr cnt ↔
      addr.toNat + cnt.toNat ≤ 2 ^ 32 ∧ ∀ k, k < cnt.toNat → ¬Protected T protect (addr.toNat + k) := by
  have hn := toNat_ne_zero hcnt
  have hmod : (addr + cnt - 1).toNat = _ := toNat_last hcnt
  have hin := range_inFlash_iff (T := T) (addr.toNat) hn
  have hrun : ∀ writeBuff, flashWrite T protect writeBuff addr cnt =
      writeLoop T writeBuff [] (banks infoFirst infoLast) 0 addr cnt :=
    fun _ => by rw [flashWrite_inside hcnt hfirst hlast, if_neg hseen]
  constructor
  · rintro ⟨hrefuses, -⟩
    -- drivers that succeed show that nothing was refused
    have hok : ¬((∃ k, k < cnt.toNat ∧ Protected T protect (addr.toNat + k)) ∨
        ∃ k, k < cnt.toNat ∧ ¬T.InFlash (addr.toNat + k)) := by
      intro hbad
      obtain ⟨-, ⟨hret, -⟩ | ⟨hret, -⟩⟩ := hrefuses (fun _ _ => 0) hbad
      all_goals
        rw [hrun, writeLoop_success] at hret
        exact absurd hret (by decide)
    rw [not_or] at hok
    refine ⟨(hin.1 fun k hk => by_contra fun hout => hok.2 ⟨k, hk, hout⟩).1, fun k hk hprot => hok.1 ⟨k, hk, hprot⟩⟩
  · rintro ⟨hfits, hclear⟩
    rw [hmod] at hlast
    have hflash := hin.2 ⟨hfits, ⟨_, hfirst⟩, ⟨_, hlast⟩⟩
    rw [Nat.mod_eq_of_lt (by omega)] at hlast
    refine ⟨?_, fun writeBuff _ _ => ?_⟩
    · rintro writeBuff (⟨k, hk, hprot⟩ | ⟨k, hk, hout⟩)
      · exact absurd hprot (hclear k hk)
      · exact absurd (hflash k hk) hout
    · have hle := hfirst.le hlast (by omega)
      have hcount := hlast.1
      have hend : addr.toNat + cnt.toNat ≤ (T.info (infoFirst + (infoLast + 1 - infoFirst) - 1)).bankEnd := by
        rw [show infoFirst + (infoLast + 1 - infoFirst) - 1 = infoLast by omega]
        have := hlast.2.2
        omega
      obtain ⟨r, new, hloop, hall, -⟩ := writeLoop_spec writeBuff (infoLast + 1 - infoFirst) infoFirst 0 addr cnt []
        fun _ => ⟨hfirst, by omega, by omega, hend⟩
      rw [hrun, banks, hloop]
      exact hall

/-- A range with an end outside of the flash is refused for that. -/
theorem writesRight_outside (hcnt : cnt ≠ 0)
    (hout : ¬T.InFlash addr.toNat ∨ ¬T.InFlash (addr + cnt - 1).toNat) : WritesRight T protect addr cnt := by
  have hrun : ∀ writeBuff, flashWrite T protect writeBuff addr cnt = (ERR_INVAL, []) :=
    fun _ => flashWrite_outside hcnt hout
  have hbad : ¬∀ k, k < cnt.toNat → T.InFlash (addr.toNat + k) := by
    rw [range_inFlash_iff _ (toNat_ne_zero hcnt), ← toNat_last hcnt]
    rintro ⟨-, hfirst, hlast⟩
    exact hout.elim (· hfirst) (· hlast)
  refine ⟨fun writeBuff _ => ?_, fun _ _ hflash => absurd hflash hbad⟩
  rw [hrun]
  push Not at hbad
  exact ⟨rfl, Or.inr ⟨rfl, hbad⟩⟩

/-- A range with a sector that is seen as protected is refused for that. -/
theorem writesRight_seen {infoFirst infoLast : Nat} (hcnt : cnt ≠ 0) (hfirst : T.InBank infoFirst addr.toNat)
    (hlast : T.InBank infoLast (addr + cnt - 1).toNat)
    (hseen : anyProtected T protect addr (addr + cnt - 1) infoFirst infoLast = true) :
    WritesRight T protect addr cnt := by
  have hrun : ∀ writeBuff, flashWrite T protect writeBuff addr cnt = (ERR_PROTECTED, []) :=
    fun _ => by rw [flashWrite_inside hcnt hfirst hlast, if_pos hseen]
  rw [anyProtected_iff hfirst hlast, toNat_last hcnt] at hseen
  obtain ⟨b, i, hb, hi, -, hstart, hend, hprot⟩ := hseen
  have hbad := protected_of_seen (toNat_ne_zero hcnt) hb hi hstart hend hprot
  refine ⟨fun writeBuff _ => ?_, fun _ hclear _ => ?_⟩
  · rw [hrun]
    exact ⟨rfl, Or.inl ⟨rfl, hbad⟩⟩
  · obtain ⟨k, hk, hprot⟩ := hbad
    exact absurd hprot (hclear k hk)

end Range

/-- **`flash_write` does what it should for just these ranges.** -/
theorem writesRight_iff (T : FlashTable) (protect : Protect) (addr cnt : UInt32) :
    WritesRight T protect addr cnt ↔ Handled T protect addr cnt := by
  rw [Handled]
  by_cases hcnt : cnt = 0
  · subst hcnt
    refine ⟨fun _ => Or.inl rfl, fun _ => ⟨?_, fun _ _ _ => WritesAll.nil _ _⟩⟩
    rintro - (⟨k, hk, -⟩ | ⟨k, hk, -⟩) <;> exact absurd hk (Nat.not_lt_zero k)
  rw [← toNat_last hcnt]
  by_cases hfirst : T.InFlash addr.toNat
  swap
  · exact iff_of_true (writesRight_outside hcnt (Or.inl hfirst)) (Or.inr (Or.inl hfirst))
  by_cases hlast : T.InFlash (addr + cnt - 1).toNat
  swap
  · exact iff_of_true (writesRight_outside hcnt (Or.inr hlast)) (Or.inr (Or.inr (Or.inl hlast)))
  obtain ⟨infoFirst, hbank⟩ := hfirst
  obtain ⟨infoLast, hbank'⟩ := hlast
  have hseen_iff : anyProtected T protect addr (addr + cnt - 1) infoFirst infoLast = true ↔ _ :=
    anyProtected_iff hbank hbank'
  by_cases hseen : anyProtected T protect addr (addr + cnt - 1) infoFirst infoLast = true
  · exact iff_of_true (writesRight_seen hcnt hbank hbank' hseen)
      (Or.inr (Or.inr (Or.inr (Or.inr (hseen_iff.1 hseen)))))
  · rw [writesRight_iff_unseen hcnt hbank hbank' hseen]
    rw [hseen_iff] at hseen
    constructor
    · exact fun h => Or.inr (Or.inr (Or.inr (Or.inl h)))
    · rintro (h | h | h | h | h)
      · exact absurd h hcnt
      · exact absurd ⟨_, hbank⟩ h
      · exact absurd ⟨_, hbank'⟩ h
      · exact h
      · exact absurd h hseen

/-- A bank of 256 KiB with sectors of 64 KiB at the end of the address space. -/
def topBank : FlashInfo where
  size := 0x40000
  sectorCount := 4
  start i := 0xFFFC0000 + UInt32.ofNat i * 0x10000
  sectorCount_pos := by decide
  sectorCount_le := by decide
  start_lt i hi := by
    have : i < 3 := by omega
    interval_cases i <;> decide
  last_lt := by decide
  end_le := by decide

/-- Four bytes of its last sector, which is protected, are written. -/
theorem not_writesRight_topSector :
    ¬WritesRight ⟨1, fun _ => topBank, fun _ hb => absurd hb (by omega)⟩ (fun _ i => if i = 3 then 1 else 0)
      0xFFFF0000 4 := by
  intro h
  have hempty := (h.refuses (fun _ _ => 0)
    (Or.inl ⟨0, by decide, 0, 3, by decide, by decide, by decide, by decide, by decide⟩)).1
  exact absurd (congrArg List.length hempty) (by decide)

end Uboot.Common.FlashWrite
