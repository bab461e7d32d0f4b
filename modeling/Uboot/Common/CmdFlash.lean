/-
  Uboot.Common.CmdFlash

  The sectors that a range of addresses asks for: `flash_fill_sect_ranges` and `flash_sect_erase` of
  common/cmd_flash.c.

  `flash_erase` of the driver is a parameter, by what it returns.
-/

import Mathlib.Data.List.Forall2
import Uboot.Common.Flash

namespace Uboot.Common.Flash

-- ============================================================================
-- The ranges of the banks
-- ============================================================================

/-- The address of the last byte of a sector. -/
def FlashInfo.lastOf (info : FlashInfo) (sect : Nat) : UInt32 :=
  if sect = info.sectorCount - 1 then info.lastAddr else info.start (sect + 1) - 1

/-- `s_first[bank]` and `s_last[bank]`: the sectors to erase, or -1. -/
@[ext]
structure SectRange where
  first : Int
  last : Int
  deriving DecidableEq

namespace SectRange

def unset : SectRange := ⟨-1, -1⟩

/-- The loop over the sectors of a bank, at one of them. -/
def scan (info : FlashInfo) (addrFirst addrLast : UInt32) (r : SectRange) (sect : Nat) : SectRange :=
  if addrFirst > info.lastOf sect then r
  else if addrLast < info.start sect then r
  else ⟨if addrFirst = info.start sect then sect else r.first, if addrLast = info.lastOf sect then sect else r.last⟩

/-- The loop over the sectors of a bank. -/
def ofBank (info : FlashInfo) (addrFirst addrLast : UInt32) : SectRange :=
  (List.range info.sectorCount).foldl (scan info addrFirst addrLast) unset

end SectRange

/-- What the loop over the banks does with a known one: it takes a range and goes on behind it, with
    so many sectors more, or stops. -/
inductive BankStep
  | next (range : SectRange) (addrFirst : UInt32) (count : Int)
  | error (range : SectRange)

def fillBank (info : FlashInfo) (addrFirst addrLast : UInt32) : BankStep :=
  let r := SectRange.ofBank info addrFirst addrLast
  if 0 ≤ r.first then
    if r.last < 0 ∧ ¬addrLast > info.lastAddr then
      .error r -- end address not on sector boundary
    else
      let last : Int := if r.last < 0 then (info.sectorCount - 1 : Nat) else r.last
      if last < r.first then
        .error ⟨r.first, last⟩ -- end sector precedes start sector
      else
        .next ⟨r.first, last⟩
          (if last = (info.sectorCount - 1 : Nat) then info.lastAddr + 1 else info.start (last.toNat + 1))
          (last - r.first + 1)
  else if addrFirst ≥ info.start 0 ∧ addrFirst < info.lastAddr then
    .error r -- start address not on sector boundary
  else if 0 ≤ r.last then
    .error r -- cannot span across banks when they are mapped in reverse order
  else .next r addrFirst 0

/-- What `flash_fill_sect_ranges` leaves: the ranges of the banks, `*s_count` and its value. -/
structure Filled where
  ranges : List SectRange
  count : Int
  rcode : Int

def Filled.cons (range : SectRange) (count : Int) (f : Filled) : Filled :=
  ⟨range :: f.ranges, count + f.count, f.rcode⟩

/-- `flash_fill_sect_ranges`; `none` is a bank with `FLASH_UNKNOWN`. -/
def flashFillSectRanges (addrLast : UInt32) : List (Option FlashInfo) → UInt32 → Filled
  | [], _ => ⟨[], 0, 0⟩
  | bank :: banks, addrFirst =>
    if addrFirst > addrLast then ⟨List.replicate (banks.length + 1) .unset, 0, 0⟩
    else
      match bank with
      | none => (flashFillSectRanges addrLast banks addrFirst).cons .unset 0
      | some info =>
        match fillBank info addrFirst addrLast with
        | .error range => ⟨range :: List.replicate banks.length .unset, 0, 1⟩
        | .next range addrFirst count => (flashFillSectRanges addrLast banks addrFirst).cons range count

-- ============================================================================
-- The calls of flash_erase
-- ============================================================================

/-- A call `flash_erase (&flash_info[bank], first, last)`. -/
structure Request where
  bank : Nat
  first : Int
  last : Int

/-- The calls of `flash_erase`, and what `flash_sect_erase` returns. -/
structure SectErase where
  calls : List Request
  rcode : Int

/-- The second loop over the banks, from number `bank` on. -/
def eraseRanges (flashErase : Request → Int) : Nat → List SectRange → SectErase
  | _, [] => ⟨[], 0⟩
  | bank, r :: ranges =>
    if 0 ≤ r.first then
      let call : Request := ⟨bank, r.first, r.last⟩
      let rcode := flashErase call
      if rcode = 0 then
        let e := eraseRanges flashErase (bank + 1) ranges
        ⟨call :: e.calls, e.rcode⟩
      else ⟨[call], rcode⟩
    else eraseRanges flashErase (bank + 1) ranges

/-- `flash_sect_erase` -/
def flashSectErase (flashErase : Request → Int) (banks : List (Option FlashInfo)) (addrFirst addrLast : UInt32) :
    SectErase :=
  let filled := flashFillSectRanges addrLast banks addrFirst
  if filled.count ≠ 0 ∧ filled.rcode = 0 then eraseRanges flashErase 0 filled.ranges
  else if filled.rcode = 0 then ⟨[], 1⟩ -- start and/or end address not on sector boundary
  else ⟨[], filled.rcode⟩

-- ============================================================================
-- What is asked for
-- ============================================================================

/-- The known banks follow one another from address `a` to address `e`. -/
def Contiguous : Nat → List (Option FlashInfo) → Nat → Prop
  | a, [], e => a = e
  | a, none :: banks, e => Contiguous a banks e
  | a, some info :: banks, e => (info.start 0).toNat = a ∧ Contiguous info.bankEnd banks e

/-- A sector of a bank starts at the address. -/
def FlashInfo.Starts (info : FlashInfo) (addr : UInt32) : Prop := ∃ i < info.sectorCount, info.start i = addr

/-- The address is that of the last byte of a sector of the bank. -/
def FlashInfo.Ends (info : FlashInfo) (addr : UInt32) : Prop :=
  ∃ j < info.sectorCount, info.sectorEnd j = addr.toNat + 1

def StartsSector (banks : List (Option FlashInfo)) (addr : UInt32) : Prop := ∃ info, some info ∈ banks ∧ info.Starts addr

def EndsSector (banks : List (Option FlashInfo)) (addr : UInt32) : Prop := ∃ info, some info ∈ banks ∧ info.Ends addr

/-- The address is behind the last byte of the last bank. -/
def Behind (banks : List (Option FlashInfo)) (addr : UInt32) : Prop :=
  ∀ info, some info ∈ banks → info.bankEnd ≤ addr.toNat

/-- The sector `i` of the bank lies in `[addrFirst, addrLast]`. -/
def FlashInfo.LiesIn (addrFirst addrLast : UInt32) (info : FlashInfo) (i : Nat) : Prop :=
  i < info.sectorCount ∧ addrFirst.toNat ≤ (info.start i).toNat ∧ info.sectorEnd i ≤ addrLast.toNat + 1

/-- The requests are for the sectors in `[addrFirst, addrLast]`, bank by bank. -/
structure Exactly (banks : List (Option FlashInfo)) (addrFirst addrLast : UInt32) (reqs : List Request) : Prop where
  order : reqs.Pairwise fun r s => r.bank < s.bank
  nonempty : ∀ r ∈ reqs, 0 ≤ r.first ∧ r.first ≤ r.last
  sectors : ∀ b i : Nat, (∃ r ∈ reqs, r.bank = b ∧ r.first ≤ i ∧ i ≤ r.last) ↔
    ∃ info, banks[b]? = some (some info) ∧ info.LiesIn addrFirst addrLast i

/-- One request after the other, until one fails. -/
def eraseEach (flashErase : Request → Int) : List Request → SectErase
  | [] => ⟨[], 0⟩
  | r :: reqs =>
    if flashErase r = 0 then ⟨r :: (eraseEach flashErase reqs).calls, (eraseEach flashErase reqs).rcode⟩
    else ⟨[r], flashErase r⟩

/-- Whole sectors are erased, and nothing else. -/
def ErasesRange (flashErase : Request → Int) (banks : List (Option FlashInfo)) (addrFirst addrLast : UInt32) : Prop :=
  let e := flashSectErase flashErase banks addrFirst addrLast
  let whole := StartsSector banks addrFirst ∧ EndsSector banks addrLast ∧ addrFirst ≤ addrLast
  (whole → ∃ reqs, Exactly banks addrFirst addrLast reqs ∧ e = eraseEach flashErase reqs) ∧
    (¬whole → e.calls = [] ∧ e.rcode ≠ 0)

-- ============================================================================
-- The loop over the sectors
-- ============================================================================

variable {info : FlashInfo} {a l : UInt32} {i j n : Nat}

/-- The last of the numbers below `n` with the property, or -1. -/
def pick (p : Nat → Prop) [DecidablePred p] (n : Nat) : Int :=
  (List.range n).foldl (fun r i => if p i then i else r) (-1)

section Pick

variable {p : Nat → Prop} [DecidablePred p]

theorem pick_succ : pick p (n + 1) = if p n then (n : Int) else pick p n := by
  rw [pick, List.range_succ, List.foldl_append, List.foldl_cons, List.foldl_nil, ← pick]

theorem pick_eq_neg (h : ∀ i < n, ¬p i) : pick p n = -1 := by
  induction n with
  | zero => rfl
  | succ n ih => rw [pick_succ, if_neg (h n n.lt_succ_self), ih fun i hi => h i (Nat.lt_succ_of_lt hi)]

theorem pick_eq (hi : i < n) (hp : p i) (hunique : ∀ j < n, p j → j = i) : pick p n = i := by
  induction n with
  | zero => exact absurd hi (Nat.not_lt_zero i)
  | succ n ih =>
    rw [pick_succ]
    split
    · rename_i hn
      rw [hunique n n.lt_succ_self hn]
    · rename_i hn
      have hlt : i < n := Nat.lt_of_le_of_ne (Nat.le_of_lt_succ hi) fun heq => hn (heq ▸ hp)
      exact ih hlt fun j hj => hunique j (Nat.lt_succ_of_lt hj)

end Pick

theorem toNat_lastOf (hi : i < info.sectorCount) : (info.lastOf i).toNat + 1 = info.sectorEnd i := by
  rw [FlashInfo.lastOf, FlashInfo.sectorEnd]
  split
  · exact info.toNat_lastAddr
  · have hlt := UInt32.lt_iff_toNat_lt.1 (info.start_lt i (by omega))
    have hone : (1 : UInt32) ≤ info.start (i + 1) := by
      rw [UInt32.le_iff_toNat_le, show (1 : UInt32).toNat = 1 from rfl]
      omega
    rw [UInt32.toNat_sub_of_le _ _ hone, show (1 : UInt32).toNat = 1 from rfl]
    omega

theorem eq_lastOf_iff (hi : i < info.sectorCount) : l = info.lastOf i ↔ info.sectorEnd i = l.toNat + 1 := by
  rw [← toNat_lastOf hi, ← UInt32.toNat_inj]
  omega

theorem start_unique (hi : i < info.sectorCount) (hj : j < info.sectorCount) (h : info.start j = info.start i) : j = i :=
  info.tiles.unique hj hi le_rfl (info.tiles.lt j hj) (h ▸ le_rfl) (h ▸ info.tiles.lt i hi)

theorem sectorEnd_unique (hi : i < info.sectorCount) (hj : j < info.sectorCount)
    (h : info.sectorEnd j = info.sectorEnd i) : j = i := by
  have hposi : (info.start i).toNat < info.sectorEnd i := info.tiles.lt i hi
  have hposj : (info.start j).toNat < info.sectorEnd j := info.tiles.lt j hj
  refine info.tiles.unique (x := info.sectorEnd i - 1) hj hi ?_ ?_ ?_ ?_ <;> omega

/-- A sector that the loop skips is neither the first nor the last one. -/
theorem scan_eq (hle : a ≤ l) (hi : i < info.sectorCount) (r : SectRange) :
    SectRange.scan info a l r i =
      ⟨if a = info.start i then (i : Int) else r.first, if l = info.lastOf i then (i : Int) else r.last⟩ := by
  have hlt : (info.start i).toNat < info.sectorEnd i := info.tiles.lt i hi
  have hlast := toNat_lastOf hi
  rw [UInt32.le_iff_toNat_le] at hle
  rw [SectRange.scan]
  split
  · rename_i hskip
    rw [gt_iff_lt, UInt32.lt_iff_toNat_lt] at hskip
    rw [if_neg fun h => ?_, if_neg fun h => ?_]
    · rw [h] at hle
      omega
    · rw [h] at hskip
      omega
  split
  · rename_i hskip
    rw [UInt32.lt_iff_toNat_lt] at hskip
    rw [if_neg fun h => ?_, if_neg fun h => ?_]
    · rw [h] at hskip
      omega
    · rw [h] at hle
      omega
  rfl

theorem ofBank_eq (hle : a ≤ l) :
    SectRange.ofBank info a l =
      ⟨pick (fun i => a = info.start i) info.sectorCount, pick (fun i => l = info.lastOf i) info.sectorCount⟩ := by
  suffices h : ∀ n ≤ info.sectorCount, (List.range n).foldl (SectRange.scan info a l) .unset =
      ⟨pick (fun i => a = info.start i) n, pick (fun i => l = info.lastOf i) n⟩ from h _ le_rfl
  intro n
  induction n with
  | zero => exact fun _ => rfl
  | succ n ih =>
    intro hn
    rw [List.range_succ, List.foldl_append, ih (Nat.le_of_succ_le hn), List.foldl_cons, List.foldl_nil,
      scan_eq hle hn, pick_succ, pick_succ]

theorem first_eq (hle : a ≤ l) (hi : i < info.sectorCount) (ha : info.start i = a) :
    (SectRange.ofBank info a l).first = i := by
  rw [ofBank_eq hle]
  exact pick_eq hi ha.symm fun j hj h => start_unique hi hj (h.symm.trans ha.symm)

theorem first_eq_neg (hle : a ≤ l) (h : ¬info.Starts a) : (SectRange.ofBank info a l).first = -1 := by
  rw [ofBank_eq hle]
  exact pick_eq_neg fun i hi ha => h ⟨i, hi, ha.symm⟩

theorem last_eq (hle : a ≤ l) (hj : j < info.sectorCount) (hl : info.sectorEnd j = l.toNat + 1) :
    (SectRange.ofBank info a l).last = j := by
  rw [ofBank_eq hle]
  apply pick_eq hj ((eq_lastOf_iff hj).mpr hl)
  intro k hk h
  exact sectorEnd_unique hj hk (((eq_lastOf_iff hk).mp h).trans hl.symm)

theorem last_eq_neg (hle : a ≤ l) (h : ¬info.Ends l) : (SectRange.ofBank info a l).last = -1 := by
  rw [ofBank_eq hle]
  exact pick_eq_neg fun j hj hl => h ⟨j, hj, (eq_lastOf_iff hj).mp hl⟩

-- ============================================================================
-- A bank
-- ============================================================================

theorem fillBank_ends (hle : a ≤ l) (hi : i < info.sectorCount) (ha : info.start i = a) (hj : j < info.sectorCount)
    (hl : info.sectorEnd j = l.toNat + 1) :
    ∃ a', fillBank info a l = .next ⟨i, j⟩ a' (j - i + 1) ∧ (a' > l ∨ info.bankEnd = 2 ^ 32) := by
  have hij : i ≤ j := by
    rw [UInt32.le_iff_toNat_le] at hle
    exact info.tiles.le_of_lt hi le_rfl (show l.toNat < info.sectorEnd j by omega) (ha ▸ hle)
  have hfirst := first_eq hle hi ha
  have hlast := last_eq hle hj hl
  refine ⟨if (j : Int) = (info.sectorCount - 1 : Nat) then info.lastAddr + 1
    else info.start ((j : Int).toNat + 1), ?_, ?_⟩
  · rw [fillBank]
    dsimp only
    rw [hfirst, hlast, if_pos (by omega), if_neg (by omega), if_neg (by omega), if_neg (by omega)]
  · split
    · rename_i hend
      obtain rfl : j = info.sectorCount - 1 := by omega
      rw [FlashInfo.sectorEnd_last] at hl
      have hlastAddr := info.toNat_lastAddr
      refine (Nat.lt_or_eq_of_le info.end_le).imp (fun hlt => ?_) fun h => h
      change info.bankEnd < 2 ^ 32 at hlt
      rw [gt_iff_lt, UInt32.lt_iff_toNat_lt, UInt32.toNat_add, show (1 : UInt32).toNat = 1 from rfl]
      omega
    · rename_i hend
      have hnext : info.sectorEnd j = (info.start (j + 1)).toNat := info.tiles.next j (by omega)
      rw [Int.toNat_natCast, gt_iff_lt, UInt32.lt_iff_toNat_lt]
      omega

theorem fillBank_behind (hle : a ≤ l) (hi : i < info.sectorCount) (ha : info.start i = a) (hl : info.bankEnd ≤ l.toNat) :
    ∃ a' count, fillBank info a l = .next ⟨i, (info.sectorCount - 1 : Nat)⟩ a' count ∧ 0 < count ∧
      a'.toNat = info.bankEnd := by
  have hfirst := first_eq hle hi ha
  have hlast : (SectRange.ofBank info a l).last = -1 := last_eq_neg hle fun ⟨j, hj, h⟩ => by
    have := FlashInfo.sectorEnd_le hj
    omega
  have hlastAddr := info.toNat_lastAddr
  have hword := l.toNat_lt
  have hgt : l > info.lastAddr := by
    rw [gt_iff_lt, UInt32.lt_iff_toNat_lt]
    omega
  refine ⟨info.lastAddr + 1, ((info.sectorCount - 1 : Nat) : Int) - i + 1, ?_, by omega, ?_⟩
  · rw [fillBank]
    dsimp only
    rw [hfirst, hlast, if_pos (by omega), if_neg fun h => h.2 hgt, if_pos (show (-1 : Int) < 0 by decide),
      if_neg (by omega), if_pos rfl]
  · rw [UInt32.toNat_add, show (1 : UInt32).toNat = 1 from rfl]
    omega

theorem fillBank_inside (hle : a ≤ l) (hi : i < info.sectorCount) (ha : info.start i = a) (hl : l.toNat < info.bankEnd)
    (hends : ¬info.Ends l) : ∃ r, fillBank info a l = .error r := by
  have hlastAddr := info.toNat_lastAddr
  have hgt : ¬l > info.lastAddr := by
    rw [gt_iff_lt, UInt32.lt_iff_toNat_lt]
    omega
  refine ⟨SectRange.ofBank info a l, ?_⟩
  rw [fillBank]
  dsimp only
  rw [first_eq hle hi ha, last_eq_neg hle hends, if_pos (by omega), if_pos ⟨by omega, hgt⟩]

theorem fillBank_beside (hle : a ≤ l) (ha : info.bankEnd ≤ a.toNat) : fillBank info a l = .next .unset a 0 := by
  rw [UInt32.le_iff_toNat_le] at hle
  have hlastAddr := info.toNat_lastAddr
  have hstarts : ¬info.Starts a := fun ⟨i, hi, h⟩ => by
    have hlt : (info.start i).toNat < info.sectorEnd i := info.tiles.lt i hi
    have := FlashInfo.sectorEnd_le hi
    rw [h] at hlt
    omega
  have hends : ¬info.Ends l := fun ⟨j, hj, h⟩ => by
    have := FlashInfo.sectorEnd_le hj
    omega
  have hfirst := first_eq_neg (UInt32.le_iff_toNat_le.mpr hle) hstarts
  have hlast := last_eq_neg (UInt32.le_iff_toNat_le.mpr hle) hends
  rw [fillBank]
  dsimp only
  rw [if_neg (by omega), if_neg fun h => ?_, if_neg (by omega)]
  · exact congrArg (BankStep.next · a 0) (SectRange.ext hfirst hlast)
  · have := UInt32.lt_iff_toNat_lt.mp h.2
    omega

theorem fillBank_not_starts (hle : a ≤ l) (hstarts : ¬info.Starts a) :
    (∃ r, fillBank info a l = .error r) ∨ ∃ r, fillBank info a l = .next r a 0 := by
  rw [fillBank]
  dsimp only
  rw [first_eq_neg hle hstarts, if_neg (by omega)]
  split
  · exact .inl ⟨_, rfl⟩
  split
  · exact .inl ⟨_, rfl⟩
  · exact .inr ⟨_, rfl⟩

-- ============================================================================
-- The loop over the banks
-- ============================================================================

variable {banks : List (Option FlashInfo)} {A E : Nat}

theorem Contiguous.mem (h : Contiguous A banks E) (hmem : some info ∈ banks) :
    A ≤ (info.start 0).toNat := by
  induction banks generalizing A with
  | nil => exact absurd hmem (List.not_mem_nil)
  | cons bank banks ih =>
    cases bank with
    | none => exact ih h ((List.mem_cons.mp hmem).resolve_left nofun)
    | some head =>
      rcases List.mem_cons.mp hmem with heq | hrest
      · cases heq
        exact h.1.symm.le
      · have hbase := head.base_lt_end
        have hbehind := ih h.2 hrest
        have hhead := h.1
        omega

/-- The first known bank starts where they start. -/
theorem Contiguous.starts (h : Contiguous a.toNat banks E) (hmem : some info ∈ banks) : StartsSector banks a := by
  induction banks with
  | nil => exact absurd hmem (List.not_mem_nil)
  | cons bank banks ih =>
    cases bank with
    | none =>
      obtain ⟨first, hfirst, hstarts⟩ := ih h ((List.mem_cons.mp hmem).resolve_left nofun)
      exact ⟨first, List.mem_cons_of_mem _ hfirst, hstarts⟩
    | some head => exact ⟨head, List.mem_cons_self, 0, head.sectorCount_pos, UInt32.toNat_inj.mp h.1⟩

theorem fill_idle (h : a > l ∨ ∀ info, some info ∉ banks) :
    flashFillSectRanges l banks a = ⟨List.replicate banks.length .unset, 0, 0⟩ := by
  induction banks with
  | nil => rfl
  | cons bank banks ih =>
    by_cases hgt : a > l
    · cases bank <;> exact if_pos hgt
    · have hnone := h.resolve_left hgt
      cases bank with
      | some info => exact absurd List.mem_cons_self (hnone info)
      | none =>
        rw [flashFillSectRanges, if_neg hgt, ih (.inr fun info hmem => hnone info (List.mem_cons_of_mem _ hmem))]
        rfl

/-- The range has the sectors of the bank that lie in `[a, l]`. -/
def Covers (a l : UInt32) (bank : Option FlashInfo) (r : SectRange) : Prop :=
  (r = .unset ∨ 0 ≤ r.first ∧ r.first ≤ r.last) ∧
    ∀ i : Nat, r.first ≤ i ∧ i ≤ r.last ↔ ∃ info, bank = some info ∧ info.LiesIn a l i

theorem covers_unset {bank : Option FlashInfo} (h : ∀ info, bank = some info → ∀ i, ¬info.LiesIn a l i) :
    Covers a l bank .unset := by
  refine ⟨.inl rfl, fun i => ⟨fun hin => ?_, fun ⟨info, hinfo, hin⟩ => absurd hin (h info hinfo i)⟩⟩
  have : (i : Int) ≤ -1 := hin.2
  omega

theorem covers_range (hij : i ≤ j) (h : ∀ k, i ≤ k ∧ k ≤ j ↔ info.LiesIn a l k) : Covers a l (some info) ⟨i, j⟩ := by
  refine ⟨.inr ⟨Int.natCast_nonneg i, Int.ofNat_le.mpr hij⟩, fun k => ?_⟩
  simp only [Option.some.injEq, exists_eq_left']
  rw [← h k, Int.ofNat_le, Int.ofNat_le]

theorem forall₂_unset (h : ∀ info, some info ∈ banks → ∀ i, ¬info.LiesIn a l i) :
    List.Forall₂ (Covers a l) banks (List.replicate banks.length .unset) := by
  induction banks with
  | nil => exact .nil
  | cons bank banks ih =>
    refine .cons (covers_unset fun info hinfo => h info (hinfo ▸ List.mem_cons_self)) ?_
    exact ih fun info hmem => h info (List.mem_cons_of_mem _ hmem)

/-- A sector of a bank lies in the bank, and has a byte. -/
theorem sector_bounds (hi : i < info.sectorCount) :
    (info.start 0).toNat ≤ (info.start i).toNat ∧ (info.start i).toNat < info.sectorEnd i ∧
      info.sectorEnd i ≤ info.bankEnd :=
  ⟨FlashInfo.base_le_start hi, info.tiles.lt i hi, FlashInfo.sectorEnd_le hi⟩

theorem liesIn_iff_between (hi : i < info.sectorCount) (hj : j < info.sectorCount) (ha : info.start i = a)
    (hl : ∀ k < info.sectorCount, info.sectorEnd k ≤ l.toNat + 1 ↔ k ≤ j) (k : Nat) :
    i ≤ k ∧ k ≤ j ↔ info.LiesIn a l k := by
  constructor
  · rintro ⟨hik, hkj⟩
    have hk := hkj.trans_lt hj
    exact ⟨hk, ha ▸ info.tiles.lo_le_lo hik hk, (hl k hk).mpr hkj⟩
  · rintro ⟨hk, hfirst, hlast⟩
    exact ⟨info.tiles.le_of_lt hi le_rfl (info.tiles.lt k hk) (ha ▸ hfirst), (hl k hk).mp hlast⟩

/-- What comes of a first address at which a sector starts. -/
structure Planned (banks : List (Option FlashInfo)) (a l : UInt32) (f : Filled) : Prop where
  ok : EndsSector banks l ∨ Behind banks l → f.rcode = 0 ∧ 0 < f.count ∧ List.Forall₂ (Covers a l) banks f.ranges
  error : ¬(EndsSector banks l ∨ Behind banks l) → f.rcode ≠ 0

theorem endsSector_cons {bank : Option FlashInfo} (h : ∀ info, bank = some info → ¬info.Ends l) :
    EndsSector (bank :: banks) l ↔ EndsSector banks l := by
  constructor
  · rintro ⟨info, hmem, hends⟩
    rcases List.mem_cons.mp hmem with heq | hrest
    · exact absurd hends (h info heq.symm)
    · exact ⟨info, hrest, hends⟩
  · exact fun ⟨info, hmem, hends⟩ => ⟨info, List.mem_cons_of_mem _ hmem, hends⟩

theorem behind_cons {bank : Option FlashInfo} (h : ∀ info, bank = some info → info.bankEnd ≤ l.toNat) :
    Behind (bank :: banks) l ↔ Behind banks l := by
  refine ⟨fun hb info hmem => hb info (List.mem_cons_of_mem _ hmem), fun hb info hmem => ?_⟩
  exact (List.mem_cons.mp hmem).elim (fun heq => h info heq.symm) (hb info)

/-- A bank before the first address. -/
theorem Planned.cons {bank : Option FlashInfo} {f : Filled} (h : Planned banks a l f) (hle : a ≤ l)
    (hbank : ∀ info, bank = some info → info.bankEnd ≤ a.toNat) : Planned (bank :: banks) a l (f.cons .unset 0) := by
  rw [UInt32.le_iff_toNat_le] at hle
  have hcases : EndsSector (bank :: banks) l ∨ Behind (bank :: banks) l ↔ EndsSector banks l ∨ Behind banks l := by
    refine or_congr (endsSector_cons fun info hinfo => ?_) (behind_cons fun info hinfo => (hbank info hinfo).trans hle)
    rintro ⟨j, hj, hends⟩
    have hend := hbank info hinfo
    have hbounds := sector_bounds hj
    omega
  refine ⟨fun hends => ?_, fun hends => h.error (mt hcases.mpr hends)⟩
  obtain ⟨hrcode, hcount, hranges⟩ := h.ok (hcases.mp hends)
  have hsum : 0 < (f.cons .unset 0).count := by
    change 0 < 0 + f.count
    omega
  refine ⟨hrcode, hsum, .cons (covers_unset fun info hinfo i hin => ?_) hranges⟩
  have hend := hbank info hinfo
  have hbounds := sector_bounds hin.1
  have hfirst := hin.2.1
  omega

/-- The bank of the first address. -/
theorem planned_first (hle : a ≤ l) (hcont : Contiguous info.bankEnd banks E) (hi : i < info.sectorCount)
    (ha : info.start i = a)
    (ih : ∀ a', a' ≤ l → Contiguous a'.toNat banks E → StartsSector banks a' →
      Planned banks a' l (flashFillSectRanges l banks a')) :
    Planned (some info :: banks) a l (flashFillSectRanges l (some info :: banks) a) := by
  have hbounds := sector_bounds hi
  rw [ha] at hbounds
  have hnot : ¬a > l := UInt32.not_lt.mpr hle
  have hafter : ∀ info', some info' ∈ banks → ∀ k < info'.sectorCount, info.bankEnd ≤ (info'.start k).toNat := by
    intro info' hmem k hk
    exact (hcont.mem hmem).trans (sector_bounds hk).1
  rw [flashFillSectRanges, if_neg hnot]
  by_cases hends : info.Ends l
  · obtain ⟨j, hj, hl⟩ := hends
    obtain ⟨a', hfill, hstop⟩ := fillBank_ends hle hi ha hj hl
    have hij : i ≤ j := by
      rw [UInt32.le_iff_toNat_le] at hle
      exact info.tiles.le_of_lt hi le_rfl (show l.toNat < info.sectorEnd j by omega) (ha ▸ hle)
    have hidle : a' > l ∨ ∀ info', some info' ∉ banks := hstop.imp_right fun hword info' hmem => by
      have hbase := hcont.mem hmem
      have hlt := (info'.start 0).toNat_lt
      omega
    rw [hfill]
    dsimp only
    rw [fill_idle hidle]
    refine ⟨fun _ => ⟨rfl, ?_, .cons (covers_range hij ?_) (forall₂_unset fun info' hmem k hin => ?_)⟩, fun h => ?_⟩
    · change (0 : Int) < (j : Int) - i + 1 + 0
      omega
    · apply liesIn_iff_between hi hj ha
      intro k hk
      rw [← hl]
      refine ⟨fun h => ?_, fun h => info.tiles.hi_le_hi h hj⟩
      by_contra hlt
      have hlo : info.sectorEnd j ≤ (info.start k).toNat := info.tiles.hi_le_lo (Nat.lt_of_not_le hlt) hk
      have hpos := (sector_bounds hk).2.1
      omega
    · have hbase := hafter info' hmem k hin.1
      have hpos := (sector_bounds hin.1).2.1
      have hend := (sector_bounds hj).2.2
      have hlast := hin.2.2
      omega
    · exact absurd (.inl ⟨info, List.mem_cons_self, j, hj, hl⟩) h
  by_cases hbehind : info.bankEnd ≤ l.toNat
  · obtain ⟨a', count, hfill, hcount, ha'⟩ := fillBank_behind hle hi ha hbehind
    have hle' : a' ≤ l := by
      rw [UInt32.le_iff_toNat_le]
      omega
    have hcovers : Covers a l (some info) ⟨i, (info.sectorCount - 1 : Nat)⟩ := by
      apply covers_range (Nat.le_sub_one_of_lt hi)
      apply liesIn_iff_between hi (Nat.sub_one_lt_of_lt hi) ha
      intro k hk
      have hend := (sector_bounds hk).2.2
      omega
    rw [hfill]
    dsimp only
    by_cases hknown : ∃ info', some info' ∈ banks
    · obtain ⟨info', hmem⟩ := hknown
      have hplan := ih a' hle' (ha'.symm ▸ hcont) ((ha'.symm ▸ hcont : Contiguous a'.toNat banks E).starts hmem)
      have hcases : EndsSector (some info :: banks) l ∨ Behind (some info :: banks) l ↔
          EndsSector banks l ∨ Behind banks l := by
        refine or_congr (endsSector_cons fun head hhead => ?_) (behind_cons fun head hhead => ?_)
        · cases hhead
          exact hends
        · cases hhead
          exact hbehind
      refine ⟨fun h => ?_, fun h => hplan.error (mt hcases.mpr h)⟩
      obtain ⟨hrcode, hpos, hranges⟩ := hplan.ok (hcases.mp h)
      refine ⟨hrcode, Int.add_pos hcount hpos, .cons hcovers ?_⟩
      refine ((List.forall₂_and_left _ _).mpr ⟨fun bank hmem => hmem, hranges⟩).imp fun bank r ⟨hmem, hset, hcov⟩ => ?_
      refine ⟨hset, fun k => (hcov k).trans (exists_congr fun head => and_congr_right fun hhead => ?_)⟩
      refine and_congr_right fun hk => and_congr_left fun _ => ?_
      have hbase := hafter head (hhead ▸ hmem) k hk
      omega
    · have hnone : ∀ info', some info' ∉ banks := fun info' hmem => hknown ⟨info', hmem⟩
      rw [fill_idle (.inr hnone)]
      refine ⟨fun _ => ⟨rfl, hcount.trans_eq (Int.add_zero count).symm, .cons hcovers ?_⟩, fun h => ?_⟩
      · exact forall₂_unset fun info' hmem => absurd hmem (hnone info')
      · refine absurd (.inr fun info' hmem => ?_) h
        rcases List.mem_cons.mp hmem with heq | hrest
        · cases heq
          exact hbehind
        · exact absurd hrest (hnone info')
  · obtain ⟨r, hfill⟩ := fillBank_inside hle hi ha (Nat.lt_of_not_le hbehind) hends
    rw [hfill]
    refine ⟨fun h => ?_, fun _ => Int.one_ne_zero⟩
    rcases h with ⟨info', hmem, k, hk, hlast⟩ | hall
    · rcases List.mem_cons.mp hmem with heq | hrest
      · cases heq
        exact absurd ⟨k, hk, hlast⟩ hends
      · have hbase := hafter info' hrest k hk
        have hpos := (sector_bounds hk).2.1
        omega
    · exact absurd (hall info List.mem_cons_self) hbehind

theorem planned_of_starts (hcont : Contiguous A banks E) (hle : a ≤ l) (hstarts : StartsSector banks a) :
    Planned banks a l (flashFillSectRanges l banks a) := by
  induction banks generalizing A a with
  | nil => exact absurd hstarts.choose_spec.1 List.not_mem_nil
  | cons bank banks ih =>
    obtain ⟨first, hmem, i, hi, ha⟩ := hstarts
    cases bank with
    | none =>
      rw [flashFillSectRanges, if_neg (UInt32.not_lt.mpr hle)]
      have hrest := (List.mem_cons.mp hmem).resolve_left (Option.some_ne_none first)
      exact (ih hcont hle ⟨first, hrest, i, hi, ha⟩).cons hle fun _ hhead => absurd hhead (Option.not_mem_none _)
    | some info =>
      rcases List.mem_cons.mp hmem with heq | hrest
      · cases heq
        exact planned_first hle hcont.2 hi ha fun a' hle' hcont' hstarts' => ih hcont' hle' hstarts'
      · have hbase : info.bankEnd ≤ a.toNat := ha ▸ (hcont.2.mem hrest).trans (sector_bounds hi).1
        rw [flashFillSectRanges, if_neg (UInt32.not_lt.mpr hle)]
        rw [fillBank_beside hle hbase]
        refine (ih hcont.2 hle ⟨first, hrest, i, hi, ha⟩).cons hle fun head hhead => ?_
        cases hhead
        exact hbase

/-- Without a sector that starts at the first address nothing is planned. -/
theorem fill_of_not_starts (hle : a ≤ l) (hstarts : ¬StartsSector banks a) :
    (flashFillSectRanges l banks a).rcode ≠ 0 ∨ (flashFillSectRanges l banks a).count = 0 := by
  induction banks with
  | nil => exact .inr rfl
  | cons bank banks ih =>
    have hrest : ¬StartsSector banks a := fun ⟨info, hmem, hinfo⟩ => hstarts ⟨info, List.mem_cons_of_mem _ hmem, hinfo⟩
    have hnext := (ih hrest).imp_right fun hzero => show (0 : Int) + (flashFillSectRanges l banks a).count = 0 by omega
    cases bank with
    | none =>
      rw [flashFillSectRanges, if_neg (UInt32.not_lt.mpr hle)]
      exact hnext
    | some info =>
      rw [flashFillSectRanges, if_neg (UInt32.not_lt.mpr hle)]
      have hinfo : ¬info.Starts a := fun h => hstarts ⟨info, List.mem_cons_self, h⟩
      obtain ⟨r, hfill⟩ | ⟨r, hfill⟩ := fillBank_not_starts hle hinfo
      · rw [hfill]
        exact .inl Int.one_ne_zero
      · rw [hfill]
        exact hnext

-- ============================================================================
-- The calls
-- ============================================================================

/-- The calls that the second loop makes while none fails. -/
def requests : Nat → List SectRange → List Request
  | _, [] => []
  | bank, r :: ranges =>
    if 0 ≤ r.first then ⟨bank, r.first, r.last⟩ :: requests (bank + 1) ranges else requests (bank + 1) ranges

variable {ranges : List SectRange} {bank : Nat} {flashErase : Request → Int}

theorem eraseRanges_eq : eraseRanges flashErase bank ranges = eraseEach flashErase (requests bank ranges) := by
  induction ranges generalizing bank with
  | nil => rfl
  | cons r ranges ih =>
    rw [eraseRanges, requests]
    split
    · rw [eraseEach, ih]
    · exact ih

theorem mem_requests_cons {r : SectRange} {q : Request} :
    q ∈ requests bank (r :: ranges) ↔ 0 ≤ r.first ∧ q = ⟨bank, r.first, r.last⟩ ∨ q ∈ requests (bank + 1) ranges := by
  rw [requests]
  split
  · rename_i hset
    rw [List.mem_cons, and_iff_right hset]
  · rename_i hset
    rw [or_iff_right fun h => hset h.1]

theorem bank_le_of_mem_requests {q : Request} (h : q ∈ requests bank ranges) : bank ≤ q.bank := by
  induction ranges generalizing bank with
  | nil => exact absurd h List.not_mem_nil
  | cons r ranges ih =>
    rcases mem_requests_cons.mp h with ⟨-, rfl⟩ | hrest
    · exact Nat.le_refl bank
    · exact Nat.le_of_succ_le (ih hrest)

theorem pairwise_requests : (requests bank ranges).Pairwise fun q s => q.bank < s.bank := by
  induction ranges generalizing bank with
  | nil => exact .nil
  | cons r ranges ih =>
    rw [requests]
    split
    · exact .cons (fun q hq => bank_le_of_mem_requests hq) ih
    · exact ih

theorem nonempty_of_mem_requests (h : List.Forall₂ (Covers a l) banks ranges) {q : Request}
    (hq : q ∈ requests bank ranges) : 0 ≤ q.first ∧ q.first ≤ q.last := by
  induction h generalizing bank with
  | nil => exact absurd hq List.not_mem_nil
  | cons hcov _ ih =>
    rcases mem_requests_cons.mp hq with ⟨hset, rfl⟩ | hrest
    · refine ⟨hset, hcov.1.elim (fun hunset => ?_) And.right⟩
      rw [hunset] at hset
      exact absurd hset (by decide)
    · exact ih hrest

theorem sector_mem_requests_iff (bank : Nat) (h : List.Forall₂ (Covers a l) banks ranges) (b i : Nat) :
    (∃ q ∈ requests bank ranges, q.bank = bank + b ∧ q.first ≤ i ∧ i ≤ q.last) ↔
      ∃ info, banks[b]? = some (some info) ∧ info.LiesIn a l i := by
  induction h generalizing bank b with
  | nil => exact iff_of_false (fun ⟨_, hq, _⟩ => absurd hq List.not_mem_nil) (fun ⟨_, hb, _⟩ => absurd hb nofun)
  | @cons head r banks ranges hcov hrest ih =>
    cases b with
    | zero =>
      rw [List.getElem?_cons_zero]
      simp only [Option.some.injEq]
      rw [← hcov.2 i]
      constructor
      · rintro ⟨q, hq, hbank, hin⟩
        rcases mem_requests_cons.mp hq with ⟨-, rfl⟩ | hq'
        · exact hin
        · have := bank_le_of_mem_requests hq'
          omega
      · intro hin
        refine ⟨⟨bank, r.first, r.last⟩, mem_requests_cons.mpr (.inl ⟨?_, rfl⟩), rfl, hin⟩
        refine hcov.1.elim (fun hunset => ?_) And.left
        rw [hunset] at hin
        have hlast : (i : Int) ≤ -1 := hin.2
        omega
    | succ b =>
      rw [List.getElem?_cons_succ, ← ih (bank + 1) b]
      refine exists_congr fun q => ⟨fun ⟨hq, hbank, hin⟩ => ?_, fun ⟨hq, hbank, hin⟩ => ?_⟩
      · refine ⟨(mem_requests_cons.mp hq).resolve_left ?_, by omega, hin⟩
        rintro ⟨-, rfl⟩
        dsimp only at hbank
        omega
      · exact ⟨mem_requests_cons.mpr (.inr hq), by omega, hin⟩

theorem exactly_requests (h : List.Forall₂ (Covers a l) banks ranges) : Exactly banks a l (requests 0 ranges) where
  order := pairwise_requests
  nonempty _ hq := nonempty_of_mem_requests h hq
  sectors b i := by
    have := sector_mem_requests_iff 0 h b i
    rwa [Nat.zero_add] at this

-- ============================================================================
-- flash_sect_erase
-- ============================================================================

theorem flashSectErase_of_planned {f : Filled} (hfilled : flashFillSectRanges l banks a = f) (hrcode : f.rcode = 0)
    (hcount : 0 < f.count) : flashSectErase flashErase banks a l = eraseEach flashErase (requests 0 f.ranges) := by
  rw [flashSectErase, hfilled]
  rw [if_pos ⟨Int.ne_of_gt hcount, hrcode⟩, eraseRanges_eq]

theorem flashSectErase_of_error
    (h : (flashFillSectRanges l banks a).rcode ≠ 0 ∨ (flashFillSectRanges l banks a).count = 0) :
    (flashSectErase flashErase banks a l).calls = [] ∧ (flashSectErase flashErase banks a l).rcode ≠ 0 := by
  rw [flashSectErase]
  rw [if_neg fun hok => h.elim (· hok.2) hok.1]
  split
  · exact ⟨rfl, Int.one_ne_zero⟩
  · rename_i hrcode
    exact ⟨rfl, hrcode⟩

/-- Up to an address behind the last bank all of the sectors are erased. -/
theorem not_erasesRange_of_behind (hcont : Contiguous A banks E) (hstarts : StartsSector banks a)
    (hbehind : Behind banks l) : ¬ErasesRange flashErase banks a l := by
  obtain ⟨info, hmem, i, hi, ha⟩ := hstarts
  have hbounds := sector_bounds hi
  have hend := hbehind info hmem
  have hle : a ≤ l := by
    rw [UInt32.le_iff_toNat_le, ← ha]
    omega
  obtain ⟨hrcode, hcount, hranges⟩ :=
    (planned_of_starts hcont hle ⟨info, hmem, i, hi, ha⟩).ok (.inr hbehind)
  have hsectors := (exactly_requests hranges).sectors
  intro h
  have hnone := (h.2 ?_).1
  · rw [flashSectErase_of_planned rfl hrcode hcount] at hnone
    obtain ⟨b, hb⟩ := List.mem_iff_getElem?.mp hmem
    have hlies : info.LiesIn a l i := ⟨hi, ha ▸ le_rfl, by omega⟩
    obtain ⟨q, hq, -⟩ := (hsectors b i).mpr ⟨info, hb, hlies⟩
    cases hreqs : requests 0 (flashFillSectRanges l banks a).ranges with
    | nil => exact List.not_mem_nil (hreqs ▸ hq)
    | cons r reqs =>
      rw [hreqs, eraseEach] at hnone
      split at hnone <;> cases hnone
  · rintro ⟨-, ⟨last, hlast, j, hj, hends⟩, -⟩
    have hbound := (sector_bounds hj).2.2
    have hlastEnd := hbehind last hlast
    omega

/-- **`flash_sect_erase`.**  It erases whole sectors or nothing, just when not all from the start of a
    sector on is asked for, up to an address behind the last bank. -/
theorem flashSectErase_right_iff (flashErase : Request → Int) (banks : List (Option FlashInfo)) (addrFirst addrLast : UInt32)
    (hcont : ∃ base last, Contiguous base banks last) :
    ErasesRange flashErase banks addrFirst addrLast ↔ ¬(StartsSector banks addrFirst ∧ Behind banks addrLast) := by
  obtain ⟨A, E, hcont⟩ := hcont
  refine ⟨fun h hbad => not_erasesRange_of_behind hcont hbad.1 hbad.2 h, fun h => ?_⟩
  rw [ErasesRange]
  by_cases hle : addrFirst ≤ addrLast
  · by_cases hstarts : StartsSector banks addrFirst
    · have hplan := planned_of_starts hcont hle hstarts
      by_cases hends : EndsSector banks addrLast
      · obtain ⟨hrcode, hcount, hranges⟩ := hplan.ok (.inl hends)
        refine ⟨fun _ => ⟨_, exactly_requests hranges, flashSectErase_of_planned rfl hrcode hcount⟩, fun hnot => ?_⟩
        exact absurd ⟨hstarts, hends, hle⟩ hnot
      · refine ⟨fun hwhole => absurd hwhole.2.1 hends, fun _ => flashSectErase_of_error (.inl (hplan.error ?_))⟩
        exact not_or.mpr ⟨hends, fun hbehind => h ⟨hstarts, hbehind⟩⟩
    · exact ⟨fun hwhole => absurd hwhole.1 hstarts, fun _ => flashSectErase_of_error (fill_of_not_starts hle hstarts)⟩
  · refine ⟨fun hwhole => absurd hwhole.2.2 hle, fun _ => flashSectErase_of_error (.inr ?_)⟩
    rw [fill_idle (.inl (UInt32.not_le.mp hle))]

/-- Two sectors of 4 KiB. -/
def twoSectors : FlashInfo where
  size := 0x2000
  sectorCount := 2
  start i := if i = 0 then 0 else 0x1000
  sectorCount_pos := Nat.two_pos
  sectorCount_le := by decide
  start_lt i hi := by
    obtain rfl : i = 0 := by omega
    decide
  last_lt := by decide
  end_le := by decide

/-- From the second sector on, up to an address behind the flash. -/
theorem not_erasesRange_twoSectors : ¬ErasesRange (fun _ => 0) [some twoSectors] 0x1000 0x2fff := by
  have hcont : Contiguous 0 [some twoSectors] 0x2000 := ⟨rfl, rfl⟩
  refine not_erasesRange_of_behind hcont ⟨_, List.mem_singleton_self _, 1, by decide, rfl⟩ ?_
  intro info hmem
  cases List.mem_singleton.mp hmem
  decide

/-- The second of two sectors. -/
theorem erasesRange_second : ErasesRange (fun _ => 0) [some twoSectors] 0x1000 0x1fff := by
  refine (flashSectErase_right_iff _ [some twoSectors] _ _ ⟨0, 0x2000, rfl, rfl⟩).mpr fun h => ?_
  have hend : twoSectors.bankEnd ≤ (0x1fff : UInt32).toNat := h.2 _ (List.mem_singleton_self _)
  exact absurd hend (by decide)

end Uboot.Common.Flash
