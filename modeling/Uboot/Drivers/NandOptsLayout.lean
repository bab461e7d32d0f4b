/-
  Uboot.Drivers.NandOptsLayout

  Where `nand_write_opts` and `nand_read_opts` put and look for the pages of an image: the layout
  over virtual erase blocks of `k` erase blocks.  The writer follows it with `k = blockalign`, the
  reader with `k = 1`.
-/

import Uboot.Drivers.NandOpts

namespace Uboot.Drivers.NandOpts

open Uboot.Lib

variable {chip : Chip} {k n p q : Nat} {status : Nat → Int}

-- ============================================================================
-- Layouts
-- ============================================================================

/-- The start of the virtual erase block of `k` blocks around `p`. -/
def blockStart (chip : Chip) (k p : Nat) : Nat := p &&& (4294967296 - chip.erasesize * k)

/-- The check of one of the `k` blocks from `start` on fails. -/
def CheckFails (chip : Chip) (k start : Nat) : Prop :=
  ∃ j < k, chip.blockIsbad (start + chip.erasesize * j : Nat) < 0

/-- One of them is bad. -/
def HasBad (chip : Chip) (k start : Nat) : Prop :=
  ∃ j < k, chip.blockIsbad (start + chip.erasesize * j : Nat) = 1

instance (chip : Chip) (k start : Nat) : Decidable (CheckFails chip k start) := by
  unfold CheckFails
  infer_instance

instance (chip : Chip) (k start : Nat) : Decidable (HasBad chip k start) := by
  unfold HasBad
  infer_instance

/-- The virtual erase block cannot be checked; from 2 GiB on none can. -/
def Unchecked (chip : Chip) (k start : Nat) : Prop := 2147483648 ≤ start ∨ CheckFails chip k start

instance (chip : Chip) (k start : Nat) : Decidable (Unchecked chip k start) := by
  unfold Unchecked
  infer_instance

/-- A page due at `p` goes to `some q`, in the first virtual erase block from there on without a
    bad block; `none` when a block on the way cannot be checked. -/
inductive Goes (chip : Chip) (k : Nat) : Nat → Option Nat → Prop
  | fails {p : Nat} (hcheck : Unchecked chip k (blockStart chip k p)) : Goes chip k p none
  | here {p : Nat} (hcheck : ¬ Unchecked chip k (blockStart chip k p))
    (hbad : ¬ HasBad chip k (blockStart chip k p)) : Goes chip k p (some p)
  | skip {p : Nat} {r : Option Nat} (hcheck : ¬ Unchecked chip k (blockStart chip k p))
    (hbad : HasBad chip k (blockStart chip k p))
    (hrest : Goes chip k (blockStart chip k p + chip.erasesize * k) r) : Goes chip k p r

/-- `n` pages, the first due at `p`, go to the places `qs`, and the driver reports no error for
    any of them. -/
inductive Layout (chip : Chip) (k : Nat) (status : Nat → Int) : Nat → Nat → List Nat → Prop
  | nil {p : Nat} : Layout chip k status 0 p []
  | cons {n p q : Nat} {qs : List Nat} (hin : p < chip.size) (hgoes : Goes chip k p (some q))
    (hok : status q = 0) (hrest : Layout chip k status n (q + chip.writesize) qs) :
    Layout chip k status (n + 1) p (q :: qs)

theorem Goes.unique {r r' : Option Nat} (h : Goes chip k p r) (h' : Goes chip k p r') : r = r' := by
  induction h with
  | fails hcheck =>
    cases h' with
    | fails => rfl
    | here hno => exact absurd hcheck hno
    | skip hno => exact absurd hcheck hno
  | here hcheck hbad =>
    cases h' with
    | fails hno => exact absurd hno hcheck
    | here => rfl
    | skip _ hno => exact absurd hno hbad
  | skip hcheck hbad _ ih =>
    cases h' with
    | fails hno => exact absurd hno hcheck
    | here _ hno => exact absurd hbad hno
    | skip _ _ hrest => exact ih hrest

theorem Layout.length {qs : List Nat} (h : Layout chip k status n p qs) : qs.length = n := by
  induction h with
  | nil => rfl
  | cons _ _ _ _ ih => rw [List.length_cons, ih]

theorem not_checkFails_zero {start : Nat} : ¬ CheckFails chip 0 start :=
  fun ⟨_, hlt, _⟩ => Nat.not_lt_zero _ hlt

theorem not_hasBad_zero {start : Nat} : ¬ HasBad chip 0 start :=
  fun ⟨_, hlt, _⟩ => Nat.not_lt_zero _ hlt

theorem checkFails_succ {start : Nat} : CheckFails chip (k + 1) start ↔
    chip.blockIsbad start < 0 ∨ CheckFails chip k (start + chip.erasesize) := by
  simp only [CheckFails, Nat.exists_lt_succ_left, Nat.mul_zero, Nat.add_zero, Nat.mul_succ]
  simp only [Nat.add_assoc, Nat.add_comm chip.erasesize]

theorem hasBad_succ {start : Nat} : decide (HasBad chip (k + 1) start) =
    (chip.blockIsbad start == 1 || decide (HasBad chip k (start + chip.erasesize))) := by
  have hiff : HasBad chip (k + 1) start ↔
      chip.blockIsbad start = 1 ∨ HasBad chip k (start + chip.erasesize) := by
    simp only [HasBad, Nat.exists_lt_succ_left, Nat.mul_zero, Nat.add_zero, Nat.mul_succ]
    simp only [Nat.add_assoc, Nat.add_comm chip.erasesize]
  rw [decide_eq_decide.mpr hiff, Bool.decide_or]
  rfl

theorem lt_of_checked {start : Nat} (h : ¬ Unchecked chip k start) : start < 2147483648 :=
  Nat.not_le.mp fun hge => h (.inl hge)

/-- The scan of `virt` is that of `k` erase blocks. -/
structure Grid (chip : Chip) (k : Nat) (virt : Virtual) : Prop where
  size_eq : virt.size = chip.erasesize * k
  step_eq : virt.step = some chip.erasesize

variable {virt : Virtual}

theorem grid_single (chip : Chip) : Grid chip 1 chip.single := ⟨(Nat.mul_one _).symm, rfl⟩

theorem grid_virtual {opts : WriteOptions chip} (h : opts.blockalign ≠ 0) :
    Grid chip opts.blockalign opts.virtual := by
  have hle := opts.blockalign_le
  have hword : u32 (chip.erasesize * opts.blockalign) = chip.erasesize * opts.blockalign := u32_of_lt (by omega)
  constructor
  · exact (if_neg h).trans hword
  · refine (if_neg h).trans ?_
    rw [hword, Nat.mul_div_cancel _ (Nat.pos_of_ne_zero h)]

/-- Where the virtual erase block around an offset from `p` on is the one at `blockstart`, it is
    checked and has no bad block. -/
def Clean (chip : Chip) (k : Nat) (blockstart : Int) (p : Nat) : Prop :=
  ∀ p', p ≤ p' → p' < 4294967296 → ulong blockstart = blockStart chip k p' →
    ¬ Unchecked chip k (blockStart chip k p') ∧ ¬ HasBad chip k (blockStart chip k p')

theorem Clean.mono {blockstart : Int} (h : Clean chip k blockstart p) (hle : p ≤ q) :
    Clean chip k blockstart q := fun p' hp' => h p' (Nat.le_trans hle hp')

namespace Grid

variable (hgrid : Grid chip k virt)

include hgrid

theorem pos : 0 < k := by
  have hpos := virt.size_pos
  rw [hgrid.size_eq] at hpos
  exact Nat.pos_of_mul_pos_left hpos

theorem start_eq (p : Nat) : virt.start p = blockStart chip k p := by
  rw [Virtual.start, blockStart, hgrid.size_eq]

theorem scanBlocks_step {last offs : Int} {bad : Bool} :
    scanBlocks chip virt last offs bad =
      if chip.blockIsbad offs < 0 then .failed
      else if offs + chip.erasesize < last then
        scanBlocks chip virt last (offs + chip.erasesize) (bad || chip.blockIsbad offs == 1)
      else .done (bad || chip.blockIsbad offs == 1) := by
  rw [scanBlocks]
  refine if_congr Iff.rfl rfl ?_
  split
  · rename_i hnone
    cases hgrid.step_eq.symm.trans hnone
  · rename_i step hsome
    obtain rfl : chip.erasesize = step := Option.some.inj (hgrid.step_eq.symm.trans hsome)
    rfl

/-- The scan of the blocks from `start` to the last. -/
theorem scanBlocks_eq {j start : Nat} {bad : Bool} :
    scanBlocks chip virt (start + chip.erasesize * (j + 1) : Nat) start bad =
      if CheckFails chip (j + 1) start then .failed
      else .done (bad || decide (HasBad chip (j + 1) start)) := by
  have hpos := chip.erasesize_pos
  induction j generalizing start bad with
  | zero =>
    have hlast : ¬ (start + chip.erasesize : Int) < (start + chip.erasesize * (0 + 1) : Nat) := by
      rw [Nat.zero_add, Nat.mul_one]
      omega
    rw [hgrid.scanBlocks_step, if_neg hlast, hasBad_succ, decide_eq_false not_hasBad_zero, Bool.or_false]
    refine if_congr ?_ rfl rfl
    rw [checkFails_succ, or_iff_left not_checkFails_zero]
  | succ j ih =>
    have hmore : (start + chip.erasesize : Int) < (start + chip.erasesize * (j + 1 + 1) : Nat) := by
      rw [Nat.mul_succ, Nat.mul_succ]
      omega
    have hlast : start + chip.erasesize * (j + 1 + 1) = start + chip.erasesize + chip.erasesize * (j + 1) := by
      rw [Nat.mul_succ _ (j + 1)]
      omega
    rw [hgrid.scanBlocks_step, if_pos hmore, ← Int.natCast_add, hlast, ih, hasBad_succ (k := j + 1), Bool.or_assoc]
    by_cases hfails : chip.blockIsbad start < 0
    · rw [if_pos hfails, if_pos (checkFails_succ.mpr (.inl hfails))]
    · rw [if_neg hfails]
      refine if_congr ?_ rfl rfl
      rw [checkFails_succ (k := j + 1), or_iff_right hfails]

/-- The scan of the virtual erase block around `p`. -/
theorem scan_eq : scan chip virt p =
    if Unchecked chip k (blockStart chip k p) then .failed
    else .done (HasBad chip k (blockStart chip k p)) := by
  by_cases hhigh : 2147483648 ≤ blockStart chip k p
  · rw [scan_failed (by rwa [hgrid.start_eq]), if_pos (.inl hhigh)]
  obtain ⟨j, rfl⟩ := Nat.exists_eq_add_of_le' hgrid.pos
  have hsize := virt.size_le
  rw [hgrid.size_eq] at hsize
  rw [scan, hgrid.start_eq, hgrid.size_eq, u32_of_lt (by omega), i32_of_lt (by omega),
    hgrid.scanBlocks_eq, Bool.false_or]
  refine if_congr ?_ rfl rfl
  rw [Unchecked, or_iff_right hhigh]

/-- The search follows the layout. -/
theorem skipBad_goes {blockstart : Int} (hclean : Clean chip k blockstart p) (hp : p < 4294967296) :
    (∃ blockstart' q, skipBad chip virt blockstart p = .found blockstart' q ∧
      Clean chip k blockstart' q ∧ Goes chip k p (some q)) ∨
    skipBad chip virt blockstart p = .failed ∧ Goes chip k p none := by
  -- induction on how far the virtual erase block is from the end of 32 bits
  induction hleft : 4294967296 - virt.start p using Nat.strongRecOn generalizing blockstart p with
  | _ left ih =>
    rw [skipBad]
    by_cases hsame : ulong blockstart = virt.start p
    · rw [if_pos hsame]
      rw [hgrid.start_eq] at hsame
      obtain ⟨hcheck, hbad⟩ := hclean p (Nat.le_refl p) hp hsame
      exact .inl ⟨blockstart, p, rfl, hclean, .here hcheck hbad⟩
    rw [if_neg hsame]
    have hlt := virt.start_lt p
    split
    · rename_i hscan
      rw [hgrid.scan_eq] at hscan
      split at hscan
      · rename_i hcheck
        exact .inr ⟨rfl, .fails hcheck⟩
      · cases hscan
    · rename_i hscan
      rw [hgrid.scan_eq] at hscan
      split at hscan <;> cases hscan
    · rename_i hscan
      rw [hgrid.scan_eq] at hscan
      split at hscan
      · cases hscan
      rename_i hcheck
      have hbad : ¬ HasBad chip k (blockStart chip k p) := of_decide_eq_false (Scan.done.inj hscan)
      have hword := ulong_i32 hlt
      refine .inl ⟨i32 (virt.start p), p, ?_, ?_, .here hcheck hbad⟩
      · rw [skipBad, if_pos hword]
      · intro p' _ _ hp'
        rw [hword, hgrid.start_eq] at hp'
        rw [← hp']
        exact ⟨hcheck, hbad⟩
    · rename_i hscan
      have hlow := start_lt_of_done hscan
      have hbehind := virt.start_lt_start hlow
      have hsize := virt.size_le
      rw [hgrid.scan_eq] at hscan
      split at hscan
      · cases hscan
      rename_i hcheck
      have hbad : HasBad chip k (blockStart chip k p) := of_decide_eq_true (Scan.done.inj hscan)
      have hnext : Goes chip k (virt.start p + virt.size) = Goes chip k (blockStart chip k p + chip.erasesize * k) := by
        rw [hgrid.start_eq, hgrid.size_eq]
      have hclean' : Clean chip k (i32 (virt.start p)) (virt.start p + virt.size) := by
        intro p' hle hp' hsame'
        have hlt' := virt.lt_start_add hp'
        rw [ulong_i32 hlt, ← hgrid.start_eq] at hsame'
        omega
      dsimp only
      rw [ulong_next hlow]
      obtain ⟨b, q, hfound, hclean'', hgoes⟩ | ⟨hfailed, hgoes⟩ :=
        ih (4294967296 - virt.start (virt.start p + virt.size)) (by omega) hclean' (by omega) rfl
      · exact .inl ⟨b, q, hfound, hclean'', .skip hcheck hbad (hnext ▸ hgoes)⟩
      · exact .inr ⟨hfailed, .skip hcheck hbad (hnext ▸ hgoes)⟩

theorem goes_bounds (hp : p < 4294967296) {r : Option Nat} (h : Goes chip k p r) :
    ∀ q ∈ r, p ≤ q ∧ q < 3221225472 := by
  have hsize := virt.size_le
  induction h with
  | fails => exact fun _ hq => nomatch hq
  | here hcheck =>
    rename_i p
    intro q hq
    obtain rfl := Option.some.inj hq
    have hlow := lt_of_checked hcheck
    have hlt := virt.lt_start_add hp
    rw [hgrid.start_eq] at hlt
    omega
  | skip hcheck _ _ ih =>
    rename_i p r
    intro q hq
    have hlow := lt_of_checked hcheck
    have hlt := virt.lt_start_add hp
    rw [hgrid.start_eq, hgrid.size_eq] at hlt
    rw [hgrid.size_eq] at hsize
    have hrest := ih (by omega) q hq
    omega

/-- The pages of a layout lie one behind another. -/
theorem layout_apart (hws : chip.writesize ≤ 4096) {qs : List Nat} (hp : p < 4294967296)
    (h : Layout chip k status n p qs) :
    (∀ q ∈ qs, p ≤ q) ∧ qs.Pairwise fun a b => a + chip.writesize ≤ b := by
  induction h with
  | nil => exact ⟨fun _ hq => (List.not_mem_nil hq).elim, .nil⟩
  | cons _ hgoes _ _ ih =>
    obtain ⟨hle, hlt⟩ := hgrid.goes_bounds hp hgoes _ rfl
    obtain ⟨hbehind, hapart⟩ := ih (by omega)
    constructor
    · refine List.forall_mem_cons.mpr ⟨hle, fun q' hq' => ?_⟩
      have hle' := hbehind q' hq'
      omega
    · exact List.pairwise_cons.mpr ⟨hbehind, hapart⟩

end Grid

-- ============================================================================
-- The loops over the pages
-- ============================================================================

theorem Layout.cons_iff {qs : List Nat} (hgoes : Goes chip k p (some q)) :
    Layout chip k status (n + 1) p qs ↔ p < chip.size ∧ status q = 0 ∧
      ∃ qs', qs = q :: qs' ∧ Layout chip k status n (q + chip.writesize) qs' := by
  constructor
  · intro h
    cases h with
    | cons hin hgoes' hok hrest =>
      obtain rfl := Option.some.inj (hgoes.unique hgoes')
      exact ⟨hin, hok, _, rfl, hrest⟩
  · rintro ⟨hin, hok, qs', rfl, hrest⟩
    exact .cons hin hgoes hok hrest

theorem not_layout_of_goes_none {qs : List Nat} (hgoes : Goes chip k p none) :
    ¬ Layout chip k status (n + 1) p qs := by
  rintro (_ | ⟨_, hgoes', _, _⟩)
  cases hgoes.unique hgoes'

theorem not_layout_of_size_le {qs : List Nat} (h : chip.size ≤ p) :
    ¬ Layout chip k status (n + 1) p qs := by
  rintro (_ | ⟨hin, _, _, _⟩)
  exact Nat.not_lt.mpr h hin

variable {opts : WriteOptions chip} {blockstart : Int} {log : List (Nat × List UInt8)}

theorem readlen_eq {buffer : List UInt8} (hpos : 0 < buffer.length)
    (hfull : opts.pad ∨ chip.writesize ∣ buffer.length) :
    readlen opts buffer.length = min buffer.length chip.writesize := by
  rw [readlen, padded]
  cases hpad : opts.pad with
  | true =>
    rw [Bool.true_and]
    split <;> rename_i hless <;> rw [decide_eq_true_eq] at hless <;> omega
  | false =>
    have hle := Nat.le_of_dvd hpos (hfull.resolve_left (by rw [hpad]; exact Bool.false_ne_true))
    rw [Bool.false_and, if_neg Bool.false_ne_true]
    omega

theorem writeLoop_failed {imglen : Int} {buffer : List UInt8}
    (hsearch : skipBad chip opts.virtual blockstart p = .failed) :
    writeLoop chip opts imglen p blockstart buffer log = restoreoob imglen log := by
  rw [writeLoop]
  split
  · rw [hsearch]
  · rfl

/-- One page. -/
theorem writeLoop_found {buffer : List UInt8} {blockstart' : Int} (hws : chip.writesize ≤ maxPageSize)
    (hlen : opts.length ≠ 0) (hpos : 0 < buffer.length) (hfull : opts.pad ∨ chip.writesize ∣ buffer.length)
    (hin : p < chip.size) (hsearch : skipBad chip opts.virtual blockstart p = .found blockstart' q) :
    writeLoop chip opts buffer.length p blockstart buffer log =
      if chip.write q ≠ 0 then restoreoob buffer.length log
      else writeLoop chip opts (buffer.drop chip.writesize).length (u32 (q + chip.writesize)) blockstart'
        (buffer.drop chip.writesize) (log ++ [(q, (buffer.take chip.writesize).rightpad chip.writesize 0xff)]) := by
  have hread := readlen_eq hpos hfull
  have hleft : (buffer.length : Int) - readlen opts buffer.length = (buffer.drop chip.writesize).length := by
    rw [hread, List.length_drop]
    omega
  have htake : buffer.take (readlen opts buffer.length).toNat = buffer.take chip.writesize := by
    rw [hread, Int.toNat_natCast]
    apply List.take_eq_take_iff.mpr
    omega
  have hdrop : buffer.drop (readlen opts buffer.length).toNat = buffer.drop chip.writesize := by
    rw [hread, Int.toNat_natCast]
    apply List.drop_eq_drop_iff.mpr
    omega
  rw [writeLoop, dif_pos ⟨by omega, hin⟩, hsearch]
  dsimp only
  have hprogress : ¬ (opts.quiet = false ∧ opts.length = 0) := fun h => hlen h.2
  rw [dif_neg (by omega), hleft, htake, hdrop, dif_neg (by omega), if_neg hprogress]

/-- The writer returns 0, with the pages of the image in its log, when they have a layout, and
    -1 otherwise. -/
theorem writeLoop_follows (hgrid : Grid chip k opts.virtual) (hws : chip.writesize ≤ maxPageSize)
    (hlen : opts.length ≠ 0) {buffer : List UInt8} (hfits : buffer.length ≤ n * chip.writesize)
    (hneeded : n * chip.writesize < buffer.length + chip.writesize)
    (hfull : opts.pad ∨ chip.writesize ∣ buffer.length) (hp : p < 4294967296)
    (hclean : Clean chip k blockstart p) :
    (∃ qs, Layout chip k chip.write n p qs ∧ writeLoop chip opts buffer.length p blockstart buffer log =
      .ret 0 (log ++ qs.zip (pages chip.writesize 0xff n buffer))) ∨
    (∀ qs, ¬ Layout chip k chip.write n p qs) ∧
      ∃ log', writeLoop chip opts buffer.length p blockstart buffer log = .ret (-1) log' := by
  induction n generalizing buffer p blockstart log with
  | zero =>
    have hnil : buffer.length = 0 := by omega
    refine .inl ⟨[], .nil, ?_⟩
    rw [writeLoop, dif_neg (by omega), restoreoob, if_neg (by omega), List.zip_nil_left, List.append_nil]
  | succ n ih =>
    rw [Nat.succ_mul] at hfits hneeded
    have hpos : 0 < buffer.length := by omega
    have hgivesup : ∀ log, restoreoob buffer.length log = .ret (-1) log := by
      intro log
      rw [restoreoob, if_pos (by omega)]
    by_cases hin : p < chip.size
    swap
    · refine .inr ⟨fun qs => not_layout_of_size_le (Nat.not_lt.mp hin), log, ?_⟩
      rw [writeLoop, dif_neg fun h => hin h.2, hgivesup]
    obtain ⟨blockstart', q, hsearch, hclean', hgoes⟩ | ⟨hsearch, hgoes⟩ := hgrid.skipBad_goes hclean hp
    swap
    · refine .inr ⟨fun qs => not_layout_of_goes_none hgoes, log, ?_⟩
      rw [writeLoop_failed hsearch, hgivesup]
    obtain ⟨-, hlt⟩ := hgrid.goes_bounds hp hgoes q rfl
    rw [writeLoop_found hws hlen hpos hfull hin hsearch]
    by_cases hok : chip.write q = 0
    swap
    · refine .inr ⟨fun qs h => hok ((Layout.cons_iff hgoes).mp h).2.1, log, ?_⟩
      rw [if_pos hok, hgivesup]
    have hsmall : q + chip.writesize < 4294967296 := by
      rw [maxPageSize] at hws
      omega
    have hdvd : opts.pad ∨ chip.writesize ∣ (buffer.drop chip.writesize).length := by
      rw [List.length_drop]
      exact hfull.imp_right fun h => Nat.dvd_sub h (Nat.dvd_refl _)
    rw [if_neg (not_not_intro hok), u32_of_lt hsmall]
    obtain ⟨qs, hlayout, hret⟩ | ⟨hnone, log', hret⟩ := @ih (q + chip.writesize) blockstart'
      (log ++ [(q, (buffer.take chip.writesize).rightpad chip.writesize 0xff)]) (buffer.drop chip.writesize)
      (by rw [List.length_drop]; omega) (by rw [List.length_drop]; omega) hdvd hsmall
      (hclean'.mono (Nat.le_add_right _ _))
    · refine .inl ⟨q :: qs, .cons hin hgoes hok hlayout, ?_⟩
      rw [hret, pages, List.zip_cons_cons, List.append_assoc, List.singleton_append]
    · refine .inr ⟨?_, log', hret⟩
      intro qs h
      obtain ⟨-, -, qs', -, hrest⟩ := (Layout.cons_iff hgoes).mp h
      exact hnone qs' hrest

variable {ropts : ReadOptions} {flash : Mem UInt8} {imglen : Nat}

theorem readLoop_failed {buffer : List UInt8}
    (hmore : imglen ≠ 0) (hin : p < chip.size)
    (hsearch : skipBad chip chip.single blockstart p = .failed) :
    readLoop chip ropts flash imglen p blockstart buffer = .ret (-1) buffer := by
  rw [readLoop, dif_pos ⟨hmore, hin⟩, hsearch]

/-- The reader returns 0, with what lies at the places of the pages, when these have a layout over
    single blocks, and -1 otherwise. -/
theorem readLoop_follows (hws : chip.writesize ≤ maxPageSize) (hlen : ropts.length ≠ 0)
    {buffer : List UInt8} (hint : imglen < 2147483648) (hfits : imglen ≤ n * chip.writesize)
    (hneeded : n * chip.writesize < imglen + chip.writesize) (hp : p < 4294967296)
    (hclean : Clean chip 1 blockstart p) :
    (∃ qs, Layout chip 1 chip.read n p qs ∧ readLoop chip ropts flash imglen p blockstart buffer =
      .ret 0 (buffer ++ (gather flash chip.writesize qs).take imglen)) ∨
    (∀ qs, ¬ Layout chip 1 chip.read n p qs) ∧
      ∃ buffer', readLoop chip ropts flash imglen p blockstart buffer = .ret (-1) buffer' := by
  have hgrid := grid_single chip
  induction n generalizing imglen p blockstart buffer with
  | zero =>
    obtain rfl : imglen = 0 := by omega
    refine .inl ⟨[], .nil, ?_⟩
    rw [readLoop, dif_neg fun h => h.1 rfl, List.take_zero, List.append_nil]
    rfl
  | succ n ih =>
    rw [Nat.succ_mul] at hfits hneeded
    have hpos : 0 < imglen := by omega
    by_cases hin : p < chip.size
    swap
    · refine .inr ⟨fun qs => not_layout_of_size_le (Nat.not_lt.mp hin), buffer, ?_⟩
      rw [readLoop, dif_neg fun h => hin h.2, i32_of_lt hint, if_pos (by omega)]
    obtain ⟨blockstart', q, hsearch, hclean', hgoes⟩ | ⟨hsearch, hgoes⟩ := hgrid.skipBad_goes hclean hp
    swap
    · refine .inr ⟨fun qs => not_layout_of_goes_none hgoes, buffer, ?_⟩
      exact readLoop_failed (by omega) hin hsearch
    obtain ⟨-, hlt⟩ := hgrid.goes_bounds hp hgoes q rfl
    rw [readLoop, dif_pos ⟨by omega, hin⟩, hsearch]
    dsimp only
    rw [if_neg (by omega)]
    by_cases hok : chip.read q = 0
    swap
    · refine .inr ⟨fun qs h => hok ((Layout.cons_iff hgoes).mp h).2.1, buffer, ?_⟩
      rw [if_pos hok]
    have hsmall : q + chip.writesize < 4294967296 := by
      rw [maxPageSize] at hws
      omega
    have hprogress : ¬ (ropts.quiet = false ∧ ropts.length = 0) := fun h => hlen h.2
    have hleft : imglen - min imglen chip.writesize = imglen - chip.writesize := by omega
    rw [if_neg (not_not_intro hok), if_neg hprogress, u32_of_lt hsmall, hleft]
    obtain ⟨qs, hlayout, hret⟩ | ⟨hnone, buffer', hret⟩ := @ih (q + chip.writesize) blockstart'
      (imglen - chip.writesize) (buffer ++ (flash.read q chip.writesize).take (min imglen chip.writesize))
      (by omega) (by omega) (by omega) hsmall (hclean'.mono (Nat.le_add_right _ _))
    · refine .inl ⟨q :: qs, .cons hin hgoes hok hlayout, ?_⟩
      have htake : (flash.read q chip.writesize).take (min imglen chip.writesize) =
          (flash.read q chip.writesize).take imglen := by
        apply List.take_eq_take_iff.mpr
        rw [Mem.read_length]
        omega
      rw [hret, gather_cons, List.append_assoc, List.take_append, Mem.read_length, htake]
    · refine .inr ⟨?_, buffer', hret⟩
      intro qs h
      obtain ⟨-, -, qs', -, hrest⟩ := (Layout.cons_iff hgoes).mp h
      exact hnone qs' hrest

end Uboot.Drivers.NandOpts
