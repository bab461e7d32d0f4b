/-
  Uboot.Drivers.MmcRead

  `mmc_bread` of drivers/mmc/mmc.c: a read is cut into commands of 65535 blocks and one with
  the rest, and the numbers of blocks that were read and the error codes are added up.

  A host driver answers a command by what it was sent before.  `ulong`, `lbaint_t` and
  addresses have 32 bits.
-/

import Mathlib.Data.List.Range
import Mathlib.Algebra.Order.BigOperators.Group.List
import Mathlib.Tactic.Ring

namespace Uboot.Drivers.MmcRead

/-- The command of a read and its data; its block size is 512. -/
structure Command where
  cmdidx : Nat
  cmdarg : UInt32
  dest : UInt32
  blocks : UInt32

/-- `struct mmc` -/
structure Mmc where
  dev : Int
  highCapacity : Bool

/-- What was sent, with the answers. -/
abbrev Log := List (Command × Int)

/-- `send_cmd` of the host. -/
abbrev Driver := Log → Command → Int

/-- `find_mmc_device` -/
def findMmcDevice (devices : List Mmc) (devNum : Int) : Option Mmc := devices.find? (·.dev = devNum)

/-- The command for `blkcnt` blocks. -/
def Mmc.command (host : Mmc) (start blkcnt dst : UInt32) : Command where
  cmdidx := if blkcnt > 1 then 18 else 17
  cmdarg := if host.highCapacity then start else start * 512
  dest := dst
  blocks := blkcnt

/-- `mmc_bread_primitive` -/
def mmcBreadPrimitive (devices : List Mmc) (send : Driver) (devNum : Int) (log : Log) (start blkcnt dst : UInt32) :
    UInt32 × Log :=
  match findMmcDevice devices devNum with
  | none => (0, log)
  | some host =>
    let cmd := host.command start blkcnt dst
    let err := send log cmd
    (if err ≠ 0 then UInt32.ofInt err else blkcnt, log ++ [(cmd, err)])

/-- The loop of `mmc_bread` and the command behind it; `65535` is `MAXBLKCNT`. -/
def breadLoop (devices : List Mmc) (send : Driver) (devNum : Int) (start blkcntTmp dst ret : UInt32) (log : Log) :
    UInt32 × Log :=
  if blkcntTmp ≥ 65535 then
    let r := mmcBreadPrimitive devices send devNum log start 65535 dst
    breadLoop devices send devNum (start + 65535) (blkcntTmp - 65535) (dst + 65535 * 512) (ret + r.1) r.2
  else
    let r := mmcBreadPrimitive devices send devNum log start blkcntTmp dst
    (ret + r.1, r.2)
termination_by blkcntTmp.toNat
decreasing_by
  have hle : (65535 : UInt32).toNat ≤ blkcntTmp.toNat := UInt32.le_iff_toNat_le.mp ‹_›
  have hnum : (65535 : UInt32).toNat = 65535 := rfl
  rw [UInt32.toNat_sub_of_le _ _ ‹_›]
  omega

/-- `mmc_bread` -/
def mmcBread (devices : List Mmc) (send : Driver) (devNum : Int) (start blkcnt dst : UInt32) : UInt32 × Log :=
  breadLoop devices send devNum start blkcnt dst 0 []

-- ============================================================================
-- The commands
-- ============================================================================

/-- The number of blocks that can be addressed. -/
def Mmc.addressable (host : Mmc) : Nat := if host.highCapacity then 4294967296 else 8388608

/-- The block an argument names: one that is not of high capacity takes it for a byte. -/
def firstBlock (highCapacity : Bool) (cmdarg : UInt32) : Nat :=
  if highCapacity then cmdarg.toNat else cmdarg.toNat / 512

/-- The blocks a command transfers, with the addresses they go to. -/
def Command.transfers (highCapacity : Bool) (c : Command) : List (Nat × UInt32) :=
  (List.range c.blocks.toNat).map fun i => (firstBlock highCapacity c.cmdarg + i, c.dest + 512 * UInt32.ofNat i)

/-- The blocks that should be transferred, with the slots they should go to. -/
def wanted (start blkcnt dst : UInt32) : List (Nat × UInt32) :=
  (List.range blkcnt.toNat).map fun i => (start.toNat + i, dst + 512 * UInt32.ofNat i)

/-- The commands for `q` times 65535 blocks and `rest` others. -/
def chunks (host : Mmc) (start : UInt32) (rest : Nat) (dst : UInt32) : Nat → List Command
  | 0 => [host.command start (UInt32.ofNat rest) dst]
  | q + 1 => host.command start 65535 dst :: chunks host (start + 65535) rest (dst + 65535 * 512) q

/-- The commands of a read. -/
def commands (host : Mmc) (start blkcnt dst : UInt32) : List Command :=
  chunks host start (blkcnt.toNat % 65535) dst (blkcnt.toNat / 65535)

/-- What a driver answers to commands, when `log` was before. -/
def answers (send : Driver) : Log → List Command → Log
  | _, [] => []
  | log, c :: cmds => (c, send log c) :: answers send (log ++ [(c, send log c)]) cmds

/-- What an answer adds to the sum. -/
def got (e : Command × Int) : Int := if e.2 ≠ 0 then e.2 else e.1.blocks.toNat

theorem ofInt_natCast (n : Nat) : UInt32.ofInt n = UInt32.ofNat n := by
  rw [UInt32.ofInt]
  apply UInt32.toNat_inj.mp
  simp
  omega

section Commands

variable {devices : List Mmc} {send : Driver} {devNum : Int} {host : Mmc}

theorem bread_none (h : findMmcDevice devices devNum = none) (start blkcnt dst : UInt32) :
    mmcBread devices send devNum start blkcnt dst = (0, []) := by
  have hloop : ∀ start blkcnt dst ret log, breadLoop devices send devNum start blkcnt dst ret log = (ret, log) := by
    intro start blkcnt dst ret log
    induction start, blkcnt, dst, ret, log using breadLoop.induct devices send devNum with
    | case1 start blkcnt dst ret log hlong r ih =>
      rw [breadLoop, if_pos hlong]
      dsimp only
      have hr : mmcBreadPrimitive devices send devNum log start 65535 dst = (0, log) := by
        rw [mmcBreadPrimitive, h]
      rw [show r = (0, log) from hr] at ih
      rw [hr, ih, UInt32.add_zero]
    | case2 start blkcnt dst ret log hshort =>
      rw [breadLoop, if_neg hshort, mmcBreadPrimitive, h]
      dsimp only
      rw [UInt32.add_zero]
  exact hloop _ _ _ _ _

theorem loop_spec (h : findMmcDevice devices devNum = some host) {rest : Nat} (hrest : rest < 65535) (q : Nat)
    (start dst ret : UInt32) (log : Log) {blkcnt : UInt32} (hblkcnt : blkcnt.toNat = 65535 * q + rest) :
    breadLoop devices send devNum start blkcnt dst ret log =
      (ret + UInt32.ofInt ((answers send log (chunks host start rest dst q)).map got).sum,
        log ++ answers send log (chunks host start rest dst q)) := by
  have hprimitive : ∀ log start blkcnt dst, mmcBreadPrimitive devices send devNum log start blkcnt dst =
      (UInt32.ofInt (got (host.command start blkcnt dst, send log (host.command start blkcnt dst))),
        log ++ [(host.command start blkcnt dst, send log (host.command start blkcnt dst))]) := by
    intro log start blkcnt dst
    rw [mmcBreadPrimitive, h, got]
    dsimp only
    split
    · rfl
    · rw [Mmc.command, ofInt_natCast, UInt32.ofNat_toNat]
  induction q generalizing start dst ret log blkcnt with
  | zero =>
    have hshort : ¬ blkcnt ≥ 65535 := by
      intro hlong
      have := UInt32.le_iff_toNat_le.mp hlong
      rw [show (65535 : UInt32).toNat = 65535 from rfl] at this
      omega
    have hsame : UInt32.ofNat rest = blkcnt := by
      rw [← UInt32.ofNat_toNat (x := blkcnt), hblkcnt]
      simp
    rw [breadLoop, if_neg hshort, hprimitive, chunks, hsame]
    simp [answers]
  | succ q ih =>
    have hlong : blkcnt ≥ 65535 := by
      rw [ge_iff_le, UInt32.le_iff_toNat_le, show (65535 : UInt32).toNat = 65535 from rfl]
      omega
    have hless : (blkcnt - 65535).toNat = 65535 * q + rest := by
      rw [UInt32.toNat_sub_of_le _ _ hlong, show (65535 : UInt32).toNat = 65535 from rfl]
      omega
    rw [breadLoop, if_pos hlong, hprimitive]
    dsimp only
    rw [ih _ _ _ _ hless, chunks, answers]
    simp [UInt32.add_assoc]

theorem bread_some (h : findMmcDevice devices devNum = some host) (start blkcnt dst : UInt32) :
    mmcBread devices send devNum start blkcnt dst =
      (UInt32.ofInt ((answers send [] (commands host start blkcnt dst)).map got).sum,
        answers send [] (commands host start blkcnt dst)) := by
  have hsplit : blkcnt.toNat = 65535 * (blkcnt.toNat / 65535) + blkcnt.toNat % 65535 :=
    (Nat.div_add_mod _ _).symm
  rw [mmcBread, loop_spec h (Nat.mod_lt _ (by decide)) _ start dst 0 [] hsplit, UInt32.zero_add, List.nil_append]
  rfl

theorem firstBlock_command (host : Mmc) (start blkcnt dst : UInt32) :
    firstBlock host.highCapacity (host.command start blkcnt dst).cmdarg = start.toNat % host.addressable := by
  have hlt := start.toNat_lt
  rw [firstBlock, Mmc.command, Mmc.addressable]
  by_cases hhigh : host.highCapacity = true
  · simp only [hhigh, if_true]
    exact (Nat.mod_eq_of_lt hlt).symm
  · simp only [hhigh, if_false, Bool.false_eq_true]
    rw [UInt32.toNat_mul, show (512 : UInt32).toNat = 512 from rfl]
    omega

theorem transfers_command (host : Mmc) (start blkcnt dst : UInt32) :
    (host.command start blkcnt dst).transfers host.highCapacity = (List.range blkcnt.toNat).map fun i =>
      (start.toNat % host.addressable + i, dst + 512 * UInt32.ofNat i) := by
  rw [Command.transfers, firstBlock_command]
  rfl

/-- Two runs of blocks to the same slots are the same when they start with the same block. -/
theorem slots_eq_iff {a b n : Nat} (hn : 0 < n) (dst : UInt32) :
    ((List.range n).map fun i => (a + i, dst + 512 * UInt32.ofNat i)) =
      ((List.range n).map fun i => (b + i, dst + 512 * UInt32.ofNat i)) ↔ a = b := by
  rw [List.map_inj_left]
  constructor
  · intro h
    have h0 := h 0 (List.mem_range.mpr hn)
    exact (Prod.mk.inj h0).1
  · rintro rfl i -
    rfl

/-- The commands transfer what they should when each of them can address its first block. -/
theorem transfers_chunks_iff (host : Mmc) {rest : Nat} (hpos : 0 < rest) (hrest : rest < 65535) (q s : Nat)
    (start dst : UInt32) :
    (chunks host start rest dst q).flatMap (Command.transfers host.highCapacity) =
      ((List.range (65535 * q + rest)).map fun i => (s + i, dst + 512 * UInt32.ofNat i)) ↔
    ∀ k ≤ q, (start + UInt32.ofNat (65535 * k)).toNat % host.addressable = s + 65535 * k := by
  induction q generalizing s start dst with
  | zero =>
    have hnum : (UInt32.ofNat rest).toNat = rest := by
      rw [UInt32.toNat_ofNat']
      omega
    rw [chunks, List.flatMap_singleton, transfers_command, hnum, Nat.mul_zero, Nat.zero_add, slots_eq_iff hpos]
    simp
  | succ q ih =>
    have hlen : 65535 * (q + 1) + rest = 65535 + (65535 * q + rest) := by omega
    have hshift : ((fun i => (s + i, dst + 512 * UInt32.ofNat i)) ∘ fun i => 65535 + i) =
        fun i => (s + 65535 + i, dst + 65535 * 512 + 512 * UInt32.ofNat i) := by
      funext i
      simp only [Function.comp_apply, Prod.mk.injEq, UInt32.ofNat_add]
      exact ⟨by omega, by grind⟩
    have hstep : ∀ k, start + 65535 + UInt32.ofNat (65535 * k) = start + UInt32.ofNat (65535 * (k + 1)) := by
      intro k
      rw [Nat.mul_succ, Nat.add_comm, UInt32.ofNat_add, UInt32.add_assoc]
      rfl
    have hrec := ih (s + 65535) (start + 65535) (dst + 65535 * 512)
    have hhead := slots_eq_iff (a := start.toNat % host.addressable) (b := s) (n := 65535) (by decide) dst
    rw [chunks, List.flatMap_cons, transfers_command, hlen, List.range_add, List.map_append, List.map_map, hshift,
      show (65535 : UInt32).toNat = 65535 from rfl]
    constructor
    · intro h
      obtain ⟨hfirst, hothers⟩ := List.append_inj h (by simp)
      intro k hk
      cases k with
      | zero => simpa using hhead.mp hfirst
      | succ k =>
        have := hrec.mp hothers k (by omega)
        rw [hstep] at this
        omega
    · intro h
      have hfirst := h 0 (by omega)
      rw [hhead.mpr (by simpa using hfirst), hrec.mpr]
      intro k hk
      have := h (k + 1) (by omega)
      rw [hstep]
      omega

/-- The last command is the one that has to be able to. -/
theorem addressed_iff (host : Mmc) (start : UInt32) (q : Nat) :
    (∀ k ≤ q, (start + UInt32.ofNat (65535 * k)).toNat % host.addressable = start.toNat + 65535 * k) ↔
      start.toNat + 65535 * q < host.addressable := by
  have hmod : ∀ k, (start + UInt32.ofNat (65535 * k)).toNat % host.addressable =
      (start.toNat + 65535 * k) % host.addressable := by
    intro k
    have hdvd : host.addressable ∣ 4294967296 := by
      rw [Mmc.addressable]
      split
      · exact dvd_rfl
      · exact ⟨512, rfl⟩
    rw [UInt32.toNat_add, UInt32.toNat_ofNat', Nat.add_mod_mod, Nat.mod_mod_of_dvd _ hdvd]
  have hpos : 0 < host.addressable := by
    rw [Mmc.addressable]
    split <;> decide
  constructor
  · intro h
    rw [← h q (Nat.le_refl q)]
    exact Nat.mod_lt _ hpos
  · intro h k hk
    rw [hmod, Nat.mod_eq_of_lt]
    have := Nat.mul_le_mul_left 65535 hk
    omega

theorem answers_map_fst (send : Driver) (log : Log) (cmds : List Command) :
    (answers send log cmds).map Prod.fst = cmds := by
  induction cmds generalizing log with
  | nil => rfl
  | cons c cmds ih => rw [answers, List.map_cons, ih]

theorem answers_mem_snd {log : Log} {cmds : List Command} {e : Command × Int} (h : e ∈ answers send log cmds) :
    ∃ before, e.2 = send before e.1 := by
  induction cmds generalizing log with
  | nil => cases h
  | cons c cmds ih =>
    rw [answers, List.mem_cons] at h
    rcases h with rfl | h
    · exact ⟨log, rfl⟩
    · exact ih h

theorem length_chunks (host : Mmc) (start : UInt32) (rest : Nat) (dst : UInt32) (q : Nat) :
    (chunks host start rest dst q).length = q + 1 := by
  induction q generalizing start dst with
  | zero => rfl
  | succ q ih => rw [chunks, List.length_cons, ih]

theorem blocks_chunks (host : Mmc) (start : UInt32) {rest : Nat} (hrest : rest < 65535) (dst : UInt32) (q : Nat) :
    (chunks host start rest dst q).map (·.blocks.toNat) = List.replicate q 65535 ++ [rest] := by
  induction q generalizing start dst with
  | zero =>
    have hnum : (UInt32.ofNat rest).toNat = rest := by
      rw [UInt32.toNat_ofNat']
      omega
    rw [chunks, List.map_singleton, Mmc.command, hnum]
    rfl
  | succ q ih =>
    rw [chunks, List.map_cons, ih, List.replicate_succ]
    rfl

end Commands

-- ============================================================================
-- The sum
-- ============================================================================

/-- By how much an answer leaves the sum short. -/
def short (e : Command × Int) : Int := if e.2 ≠ 0 then e.1.blocks.toNat - e.2 else 0

theorem got_eq (e : Command × Int) : got e = e.1.blocks.toNat - short e := by
  rw [got, short]
  split
  · omega
  · omega

theorem sum_got (entries : Log) :
    (entries.map got).sum = ((entries.map (·.1.blocks.toNat)).sum : Nat) - (entries.map short).sum := by
  induction entries with
  | nil => rfl
  | cons e entries ih =>
    rw [List.map_cons, List.sum_cons, ih, got_eq, List.map_cons, List.sum_cons, List.map_cons, List.sum_cons]
    push_cast
    omega

theorem ofInt_eq_ofInt_iff (x y : Int) :
    UInt32.ofInt x = UInt32.ofInt y ↔ x % 4294967296 = y % 4294967296 := by
  rw [UInt32.ofInt, UInt32.ofInt, ← UInt32.toNat_inj]
  simp
  omega

theorem sum_short_nonneg {entries : Log} (h : ∀ e ∈ entries, e.2 ≤ 0) : 0 ≤ (entries.map short).sum := by
  refine List.sum_nonneg ?_
  rw [List.forall_mem_map]
  intro e he
  have := h e he
  rw [short]
  split <;> omega

theorem sum_short_le {errs : Nat} {entries : Log} (h : ∀ e ∈ entries, -(errs : Int) ≤ e.2) :
    (entries.map short).sum ≤ (entries.map (·.1.blocks.toNat)).sum + errs * entries.length := by
  induction entries with
  | nil => simp
  | cons e entries ih =>
    obtain ⟨he, hrest⟩ := List.forall_mem_cons.mp h
    have hle := ih hrest
    have hhead : short e ≤ e.1.blocks.toNat + errs := by
      rw [short]
      split <;> omega
    rw [List.map_cons, List.sum_cons, List.map_cons, List.sum_cons, List.length_cons]
    push_cast at hle ⊢
    rw [Int.mul_add, Int.mul_one]
    omega

theorem sum_short_eq_zero_iff {entries : Log} (h : ∀ e ∈ entries, e.2 ≤ 0)
    (hblocks : ∀ e ∈ entries, 0 < e.1.blocks.toNat) :
    (entries.map short).sum = 0 ↔ ∀ e ∈ entries, e.2 = 0 := by
  induction entries with
  | nil => simp
  | cons e entries ih =>
    obtain ⟨he, hrest⟩ := List.forall_mem_cons.mp h
    obtain ⟨hb, hblocks⟩ := List.forall_mem_cons.mp hblocks
    have hnonneg := sum_short_nonneg hrest
    rw [List.map_cons, List.sum_cons, List.forall_mem_cons, ← ih hrest hblocks, short]
    split <;> omega

-- ============================================================================
-- Drivers that fail on purpose
-- ============================================================================

/-- The driver that fails its `i`-th command with the code `-codes i`. -/
def coded (codes : Nat → Nat) : Driver := fun log _ => -(codes log.length : Int)

/-- What a command of `b` blocks leaves short with a code. -/
def weight (b code : Nat) : Nat := if code = 0 then 0 else b + code

theorem sum_short_coded (host : Mmc) (codes : Nat → Nat) {rest : Nat} (hrest : rest < 65535) (start dst : UInt32)
    (q : Nat) (log : Log) : ((answers (coded codes) log (chunks host start rest dst q)).map short).sum =
      (((List.range q).map fun i => weight 65535 (codes (log.length + i))).sum +
        weight rest (codes (log.length + q)) : Nat) := by
  induction q generalizing start dst log with
  | zero =>
    have hnum : (UInt32.ofNat rest).toNat = rest := by
      rw [UInt32.toNat_ofNat']
      omega
    have hentry : short (host.command start (UInt32.ofNat rest) dst, -(codes log.length : Int)) =
        weight rest (codes log.length) := by
      rw [short, weight, Mmc.command]
      dsimp only
      rw [hnum]
      split <;> split <;> omega
    simpa [chunks, answers, coded] using hentry
  | succ q ih =>
    have hentry : short (host.command start 65535 dst, -(codes log.length : Int)) =
        weight 65535 (codes log.length) := by
      rw [short, weight, Mmc.command]
      dsimp only
      rw [show (65535 : UInt32).toNat = 65535 from rfl]
      split <;> split <;> omega
    have hshift : ((fun i => weight 65535 (codes (log.length + i))) ∘ Nat.succ) =
        fun i => weight 65535 (codes (log.length + 1 + i)) := by
      funext i
      rw [Function.comp_apply, Nat.succ_eq_add_one, Nat.add_right_comm, Nat.add_assoc]
    have hlen : ∀ x, (log ++ [x]).length = log.length + 1 := fun x => by simp
    rw [chunks, answers, List.map_cons, List.sum_cons, ih, List.range_succ_eq_map, List.map_cons, List.sum_cons,
      List.map_map, hshift, hlen, Nat.add_right_comm log.length 1 q, Nat.add_assoc log.length q 1]
    rw [show coded codes log (host.command start 65535 dst) = -(codes log.length : Int) from rfl, hentry]
    simp only [Nat.add_zero]
    push_cast
    omega

/-- Codes that add up to `total`. -/
theorem exists_codes (errs m : Nat) : ∀ total, m ≤ total → total ≤ errs * m →
    ∃ codes : Nat → Nat, (∀ i, codes i ≤ errs) ∧ (∀ i < m, codes i ≠ 0) ∧ ((List.range m).map codes).sum = total := by
  induction m with
  | zero => 
    intro total _ hle
    exact ⟨fun _ => 0, by simp, by simp, by simp; omega⟩
  | succ m ih =>
    intro total hge hle
    rw [Nat.mul_succ] at hle
    have herrs : 0 < errs := by
      by_contra hzero
      obtain rfl : errs = 0 := by omega
      omega
    have hm : m ≤ errs * m := Nat.le_mul_of_pos_left m herrs
    -- the last code takes what the others cannot
    obtain ⟨last, hpos, hlast, hge', hle'⟩ : ∃ last, 0 < last ∧ last ≤ errs ∧ m ≤ total - last ∧
        total - last ≤ errs * m ∧ last ≤ total :=
      ⟨max 1 (total - errs * m), by omega, by omega, by omega, by omega, by omega⟩
    obtain ⟨codes, hcodes, hne, hsum⟩ := ih (total - last) hge' hle'.1
    refine ⟨fun i => if i = m then last else codes i, ?_, ?_, ?_⟩
    · intro i
      dsimp only
      split
      · exact hlast
      · exact hcodes i
    · intro i hi
      dsimp only
      split
      · omega
      · exact hne i (by omega)
    · have hsame : (List.range m).map (fun i => if i = m then last else codes i) = (List.range m).map codes := by
        refine List.map_congr_left fun i hi => if_neg ?_
        have := List.mem_range.mp hi
        omega
      rw [List.range_succ, List.map_append, List.sum_append, hsame, hsum, List.map_singleton, List.sum_singleton,
        if_pos rfl]
      omega

theorem sum_weight {b : Nat} {codes : Nat → Nat} {q : Nat} (h : ∀ i < q, codes i ≠ 0) :
    ((List.range q).map fun i => weight b (codes i)).sum = b * q + ((List.range q).map codes).sum := by
  induction q with
  | zero => rfl
  | succ q ih =>
    have hlast : weight b (codes q) = b + codes q := if_neg (h q (Nat.lt_succ_self q))
    rw [List.range_succ, List.map_append, List.sum_append, ih fun i hi => h i (by omega), List.map_append,
      List.sum_append, List.map_singleton, List.sum_singleton, List.map_singleton, List.sum_singleton, hlast,
      Nat.mul_succ]
    omega

theorem sum_weight_first (b k q : Nat) :
    ((List.range q).map fun i => weight b (if i < k then 1 else 0)).sum = (b + 1) * min k q := by
  induction q with
  | zero => simp
  | succ q ih =>
    rw [List.range_succ, List.map_append, List.sum_append, ih, List.map_singleton, List.sum_singleton, weight]
    by_cases hq : q < k
    · rw [if_pos hq, if_neg Nat.one_ne_zero, Nat.min_eq_right (by omega), Nat.min_eq_right (by omega), Nat.mul_succ]
    · rw [if_neg hq, if_pos rfl, Nat.min_eq_left (by omega), Nat.min_eq_left (by omega), Nat.add_zero]

/-- Where the codes are large enough, some leave the sum short by all of `2 ^ 32`. -/
theorem exists_short {n : Nat} (errs : Nat) (hrest : n % 65535 < 65535) (hn : n < 4294967296)
    (hbig : ¬ n + errs * (n / 65535 + 1) < 4294967296) :
    ∃ codes : Nat → Nat, (∀ i, codes i ≤ errs) ∧
      ((List.range (n / 65535)).map fun i => weight 65535 (codes i)).sum +
        weight (n % 65535) (codes (n / 65535)) = 4294967296 := by
  by_cases hq : n / 65535 < 65536
  · -- all commands fail
    obtain ⟨codes, hcodes, hne, hsum⟩ := exists_codes errs (n / 65535 + 1) (4294967296 - n) (by omega) (by omega)
    refine ⟨codes, hcodes, ?_⟩
    have hlast : weight (n % 65535) (codes (n / 65535)) = n % 65535 + codes (n / 65535) :=
      if_neg (hne _ (Nat.lt_succ_self _))
    rw [List.range_succ, List.map_append, List.sum_append, List.map_singleton, List.sum_singleton] at hsum
    rw [sum_weight fun i hi => hne i (by omega), hlast]
    omega
  · -- 65536 full commands fail with the code -1
    refine ⟨fun i => if i < 65536 then 1 else 0, ?_, ?_⟩
    · intro i
      have : errs ≠ 0 := by
        rintro rfl
        omega
      dsimp only
      split <;> omega
    · have hlast : weight (n % 65535) (if n / 65535 < 65536 then 1 else 0) = 0 := by
        rw [if_neg hq]
        rfl
      rw [sum_weight_first, Nat.min_eq_left (by omega)]
      exact congrArg ((65535 + 1) * 65536 + ·) hlast

-- ============================================================================
-- `mmc_bread`
-- ============================================================================

/-- **What `mmc_bread` should do**, whatever the driver answers: success or a code down to `-errs`. -/
def ReadsRight (devices : List Mmc) (devNum : Int) (errs : Nat) (start blkcnt dst : UInt32) : Prop :=
  ∀ send : Driver, (∀ log c, -(errs : Int) ≤ send log c ∧ send log c ≤ 0) →
    let r := mmcBread devices send devNum start blkcnt dst
    (r.2.map Prod.fst).flatMap (Command.transfers ((findMmcDevice devices devNum).any (·.highCapacity))) =
        wanted start blkcnt dst ∧
      (∀ e ∈ r.2, 1 ≤ e.1.blocks.toNat ∧ e.1.blocks.toNat ≤ 65535) ∧
      (r.1 = blkcnt ↔ ∀ e ∈ r.2, e.2 = 0)

/-- The error codes cannot make up for blocks. -/
theorem sum_iff (host : Mmc) (errs : Nat) (start blkcnt dst : UInt32) (hrest : blkcnt.toNat % 65535 ≠ 0) :
    (∀ send : Driver, (∀ log c, -(errs : Int) ≤ send log c ∧ send log c ≤ 0) →
      (UInt32.ofInt ((answers send [] (commands host start blkcnt dst)).map got).sum = blkcnt ↔
        ∀ e ∈ answers send [] (commands host start blkcnt dst), e.2 = 0)) ↔
    blkcnt.toNat + errs * (blkcnt.toNat / 65535 + 1) < 4294967296 := by
  have hlt : blkcnt.toNat % 65535 < 65535 := Nat.mod_lt _ (by decide)
  have hblocks : (commands host start blkcnt dst).map (·.blocks.toNat) =
      List.replicate (blkcnt.toNat / 65535) 65535 ++ [blkcnt.toNat % 65535] := blocks_chunks host start hlt dst _
  have hsum : ∀ send, ((answers send [] (commands host start blkcnt dst)).map (·.1.blocks.toNat)).sum =
      blkcnt.toNat := by
    intro send
    have hmap : (answers send [] (commands host start blkcnt dst)).map (·.1.blocks.toNat) =
        (commands host start blkcnt dst).map (·.blocks.toNat) := by
      conv_rhs => rw [← answers_map_fst send [] (commands host start blkcnt dst), List.map_map]
      rfl
    rw [hmap, hblocks, List.sum_append, List.sum_replicate_nat, List.sum_singleton]
    omega
  have hret : ∀ send, UInt32.ofInt ((answers send [] (commands host start blkcnt dst)).map got).sum = blkcnt ↔
      ((answers send [] (commands host start blkcnt dst)).map short).sum % 4294967296 = 0 := by
    intro send
    have hself : UInt32.ofInt blkcnt.toNat = blkcnt := by rw [ofInt_natCast, UInt32.ofNat_toNat]
    rw [sum_got, hsum]
    conv_lhs => rhs; rw [← hself]
    rw [ofInt_eq_ofInt_iff]
    omega
  have hpos : ∀ send, ∀ e ∈ answers send [] (commands host start blkcnt dst), 0 < e.1.blocks.toNat := by
    intro send e he
    have hmem : e.1.blocks.toNat ∈ (commands host start blkcnt dst).map (·.blocks.toNat) := by
      rw [← answers_map_fst send [] (commands host start blkcnt dst), List.map_map]
      exact List.mem_map_of_mem he
    rw [hblocks, List.mem_append, List.mem_replicate, List.mem_singleton] at hmem
    omega
  constructor
  · intro h
    by_contra hbig
    obtain ⟨codes, hcodes, hshort⟩ := exists_short errs (by omega) blkcnt.toNat_lt hbig
    have hD := sum_short_coded host codes hlt start dst (blkcnt.toNat / 65535) []
    simp only [List.length_nil, Nat.zero_add, hshort] at hD
    have hhigh : ∀ e ∈ answers (coded codes) [] (commands host start blkcnt dst), e.2 ≤ 0 := by
      intro e he
      obtain ⟨before, hbefore⟩ := answers_mem_snd he
      rw [hbefore, coded]
      omega
    have hgood := h (coded codes) fun log c => by
      rw [coded]
      have := hcodes log.length
      omega
    rw [hret, ← sum_short_eq_zero_iff hhigh (hpos _), commands, hD] at hgood
    omega
  · intro h send hsend
    have hlow : ∀ e ∈ answers send [] (commands host start blkcnt dst), -(errs : Int) ≤ e.2 := by
      intro e he
      obtain ⟨before, hbefore⟩ := answers_mem_snd he
      rw [hbefore]
      exact (hsend _ _).1
    have hhigh : ∀ e ∈ answers send [] (commands host start blkcnt dst), e.2 ≤ 0 := by
      intro e he
      obtain ⟨before, hbefore⟩ := answers_mem_snd he
      rw [hbefore]
      exact (hsend _ _).2
    have hle := sum_short_le hlow
    have hlen : (answers send [] (commands host start blkcnt dst)).length = blkcnt.toNat / 65535 + 1 := by
      rw [← List.length_map Prod.fst, answers_map_fst, commands, length_chunks]
    rw [hsum, hlen] at hle
    have hnonneg := sum_short_nonneg hhigh
    rw [hret, ← sum_short_eq_zero_iff hhigh (hpos send)]
    push_cast at hle
    have h' : (blkcnt.toNat : Int) + errs * (blkcnt.toNat / 65535 + 1 : Nat) < 4294967296 := by exact_mod_cast h
    push_cast at h'
    omega

/-- **Chunked read.**  `mmc_bread` does what it should just when the device is there, the count is no multiple
    of 65535, the last command can address its first block, and the codes cannot add up to `2 ^ 32`. -/
theorem breadRight_iff (devices : List Mmc) (devNum : Int) (errs : Nat) (start blkcnt dst : UInt32) :
    ReadsRight devices devNum errs start blkcnt dst ↔
      match findMmcDevice devices devNum with
      | none => blkcnt = 0
      | some host =>
        blkcnt.toNat % 65535 ≠ 0 ∧ start.toNat + 65535 * (blkcnt.toNat / 65535) < host.addressable ∧
          blkcnt.toNat + errs * (blkcnt.toNat / 65535 + 1) < 4294967296 := by
  rw [ReadsRight]
  have hzero : ∀ (log : Log) (c : Command), -(errs : Int) ≤ (0 : Int) ∧ (0 : Int) ≤ 0 := fun _ _ => by omega
  cases hdev : findMmcDevice devices devNum with
  | none =>
    simp only [bread_none hdev]
    constructor
    · intro h
      exact ((h (fun _ _ => 0) hzero).2.2.mpr (by simp)).symm
    · rintro rfl send -
      exact ⟨rfl, by simp, by simp⟩
  | some host =>
    have hlt : blkcnt.toNat % 65535 < 65535 := Nat.mod_lt _ (by decide)
    have hsplit : 65535 * (blkcnt.toNat / 65535) + blkcnt.toNat % 65535 = blkcnt.toNat := Nat.div_add_mod _ _
    have hblocks : (commands host start blkcnt dst).map (·.blocks.toNat) =
        List.replicate (blkcnt.toNat / 65535) 65535 ++ [blkcnt.toNat % 65535] := blocks_chunks host start hlt dst _
    have hcounts : ∀ send, (∀ e ∈ answers send [] (commands host start blkcnt dst),
        1 ≤ e.1.blocks.toNat ∧ e.1.blocks.toNat ≤ 65535) ↔ blkcnt.toNat % 65535 ≠ 0 := by
      intro send
      have hcmds : (∀ e ∈ answers send [] (commands host start blkcnt dst),
          1 ≤ e.1.blocks.toNat ∧ e.1.blocks.toNat ≤ 65535) ↔
          ∀ b ∈ (commands host start blkcnt dst).map (·.blocks.toNat), 1 ≤ b ∧ b ≤ 65535 := by
        conv_rhs => rw [← answers_map_fst send [] (commands host start blkcnt dst), List.map_map]
        rw [List.forall_mem_map]
        rfl
      rw [hcmds, hblocks]
      constructor
      · intro h
        have := (h (blkcnt.toNat % 65535) (by simp)).1
        omega
      · intro hne b hb
        rw [List.mem_append, List.mem_replicate, List.mem_singleton] at hb
        omega
    have htransfers : blkcnt.toNat % 65535 ≠ 0 →
        ((commands host start blkcnt dst).flatMap (Command.transfers host.highCapacity) = wanted start blkcnt dst ↔
          start.toNat + 65535 * (blkcnt.toNat / 65535) < host.addressable) := by
      intro hne
      have hiff := transfers_chunks_iff host (Nat.pos_of_ne_zero hne) hlt (blkcnt.toNat / 65535) start.toNat start dst
      rw [hsplit, addressed_iff] at hiff
      exact hiff
    simp only [bread_some hdev, answers_map_fst, Option.any_some]
    constructor
    · intro h
      obtain ⟨hblks, hcnts, -⟩ := h (fun _ _ => 0) hzero
      have hne := (hcounts _).mp hcnts
      refine ⟨hne, (htransfers hne).mp hblks, ?_⟩
      exact (sum_iff host errs start blkcnt dst hne).mp fun send hsend => (h send hsend).2.2
    · rintro ⟨hne, haddr, hsum⟩ send hsend
      exact ⟨(htransfers hne).mpr haddr, (hcounts send).mpr hne,
        (sum_iff host errs start blkcnt dst hne).mpr hsum send hsend⟩

/-- A read of one full chunk ends with a command for no blocks. -/
theorem not_readsRight_fullChunk : ¬ ∀ (devices : List Mmc) (devNum : Int) (errs : Nat) (start blkcnt dst : UInt32),
    findMmcDevice devices devNum ≠ none → ReadsRight devices devNum errs start blkcnt dst := by
  intro h
  have hdev : findMmcDevice [⟨0, true⟩] 0 = some ⟨0, true⟩ := rfl
  have hcounts := (h [⟨0, true⟩] 0 1 0 65535 0 (by rw [hdev]; simp) (fun _ _ => 0) (by simp)).2.1
  rw [bread_some hdev] at hcounts
  have hlast := (hcounts (Mmc.command ⟨0, true⟩ 65535 0 (65535 * 512), 0) (.tail _ (.head _))).1
  revert hlast
  decide

end Uboot.Drivers.MmcRead
