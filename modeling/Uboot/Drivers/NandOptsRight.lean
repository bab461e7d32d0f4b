/-
  Uboot.Drivers.NandOptsRight

  When `nand_write_opts` can be relied on: it comes back without a division by 0 and without a copy
  outside its page buffer, and where it returns 0 the whole image is written and
  `nand_read_opts` reads it back.

  It cannot be for `blockalign` 0, for pages of 4096 bytes, where YAFFS is refused, for a length
  that is no positive `int`, and where bad blocks inside a virtual erase block separate its layout
  from the reader's.
-/

import Uboot.Drivers.NandOptsLayout

namespace Uboot.Drivers.NandOpts

open Uboot.Lib

variable {chip : Chip} {opts : WriteOptions chip} {k n p : Nat} {buffer : List UInt8}

-- ============================================================================
-- Known page sizes
-- ============================================================================

namespace Chip.Known

variable (h : chip.Known)

include h

theorem writesize_le : chip.writesize ≤ 4096 := by
  obtain h | h | h | h := h <;> omega

theorem even : 2 ∣ chip.erasesize := by
  refine Nat.dvd_trans ?_ chip.writesize_dvd
  obtain h | h | h | h := h <;> omega

/-- No virtual erase block starts at the word of the first `blockstart`. -/
theorem first_ne : ulong (-1) ≠ blockStart chip k p := by
  intro hsame
  obtain ⟨e, he⟩ := h.even
  have hmask : (4294967296 - chip.erasesize * k) % 2 = 0 := by
    rw [he, Nat.mul_assoc]
    omega
  have hand : (p &&& (4294967296 - chip.erasesize * k)) % 2 ^ 1 = _ := Nat.and_mod_two_pow
  rw [Nat.pow_one, hmask, Nat.and_zero] at hand
  rw [blockStart] at hsame
  rw [← hsame] at hand
  cases hand

theorem clean_init : Clean chip k (-1) p := fun _ _ _ hsame => absurd hsame h.first_ne

end Chip.Known

/-- The number of pages of the image. -/
def pageCount (chip : Chip) (length : Nat) : Nat := (length + chip.writesize - 1) / chip.writesize

theorem le_pageCount (chip : Chip) (length : Nat) : length ≤ pageCount chip length * chip.writesize := by
  have hpos := chip.writesize_pos
  have hdiv := Nat.lt_div_mul_add (a := length + chip.writesize - 1) hpos
  rw [pageCount]
  omega

theorem pageCount_lt (chip : Chip) {length : Nat} (h : 0 < length) :
    pageCount chip length * chip.writesize < length + chip.writesize := by
  have hle := Nat.div_mul_le_self (length + chip.writesize - 1) chip.writesize
  rw [pageCount]
  omega

theorem pageCount_pos (chip : Chip) {length : Nat} (h : 0 < length) : 0 < pageCount chip length := by
  refine Nat.pos_of_ne_zero fun hzero => ?_
  have hle := le_pageCount chip length
  rw [hzero] at hle
  omega

-- ============================================================================
-- The checks before the loop
-- ============================================================================

/-- The image passes the checks, and the loop is entered. -/
def Admitted (chip : Chip) (opts : WriteOptions chip) : Prop :=
  (opts.pad ∨ chip.writesize ∣ opts.length) ∧ opts.offset < chip.size ∧
    opts.length / chip.writesize * chip.writesize ≤ chip.size - opts.offset

theorem ulong_whole {length : Nat} (h : length < 2147483648) :
    ulong ((i32 length).tdiv chip.writesize * chip.writesize) = length / chip.writesize * chip.writesize := by
  have hle := Nat.div_mul_le_self length chip.writesize
  rw [i32_of_lt h, ← Int.ofNat_tdiv, ← Int.natCast_mul, ulong_ofNat, u32_of_lt (by omega)]

theorem tmod_eq_zero_iff {length : Nat} (h : length < 2147483648) :
    (i32 length).tmod chip.writesize = 0 ↔ chip.writesize ∣ length := by
  rw [i32_of_lt h, ← Int.ofNat_tmod, Int.natCast_eq_zero, Nat.dvd_iff_mod_eq_zero]

theorem nandWriteOpts_admitted (hknown : chip.Known) (hyaffs : ¬ (chip.oobsize = 8 ∧ opts.forceyaffs))
    (hlt : opts.length < 2147483648) (hadm : Admitted chip opts) :
    nandWriteOpts chip opts buffer = writeLoop chip opts opts.length opts.offset (-1) buffer [] := by
  obtain ⟨hfull, hin, hroom⟩ := hadm
  have hsize := chip.size_lt
  have haligned : ¬ (¬ opts.pad ∧ (i32 opts.length).tmod chip.writesize ≠ 0) := by
    rw [Ne, tmod_eq_zero_iff hlt]
    grind
  rw [nandWriteOpts, if_neg (not_not_intro hknown), if_neg hyaffs]
  dsimp only
  rw [if_neg haligned, ulong_whole hlt, if_neg (by omega), i32_of_lt hlt]

/-- What is not admitted is refused, or the loop ends at once. -/
theorem nandWriteOpts_refused (hknown : chip.Known) (hyaffs : ¬ (chip.oobsize = 8 ∧ opts.forceyaffs))
    (hpos : 0 < opts.length) (hlt : opts.length < 2147483648) (hadm : ¬ Admitted chip opts) :
    nandWriteOpts chip opts buffer = .ret (-1) [] := by
  have hrestore : restoreoob (i32 opts.length) [] = .ret (-1) [] := by
    rw [restoreoob, i32_of_lt hlt, if_pos (by omega)]
  rw [nandWriteOpts, if_neg (not_not_intro hknown), if_neg hyaffs]
  dsimp only
  rw [ulong_whole hlt, hrestore]
  split
  · rfl
  rename_i haligned
  split
  · rfl
  rename_i hroom
  have hend : ¬ opts.offset < chip.size := by
    intro hin
    have hsize := chip.size_lt
    rw [ne_eq, tmod_eq_zero_iff hlt] at haligned
    exact hadm ⟨by grind, hin, by omega⟩
  rw [writeLoop, dif_neg fun h => hend h.2, hrestore]

theorem nandReadOpts_admitted {quiet : Bool} {flash : Mem UInt8} (hknown : chip.Known)
    (hlt : opts.length < 2147483648) (hadm : Admitted chip opts) :
    nandReadOpts chip ⟨opts.length, opts.offset, quiet⟩ flash =
      readLoop chip ⟨opts.length, opts.offset, quiet⟩ flash opts.length opts.offset (-1) [] := by
  obtain ⟨-, hin, hroom⟩ := hadm
  have hsize := chip.size_lt
  rw [nandReadOpts, if_neg (not_not_intro hknown)]
  dsimp only
  rw [ulong_whole hlt, if_neg (by omega)]

-- ============================================================================
-- Where it goes wrong
-- ============================================================================

theorem unchecked_one_iff {start : Nat} (h : start < 4294967296) :
    Unchecked chip 1 start ↔ chip.blockIsbad (i32 start) < 0 := by
  by_cases hhigh : 2147483648 ≤ start
  · exact iff_of_true (.inl hhigh) (chip.isbad_outside _ (.inl (i32_neg hhigh h)))
  · rw [Unchecked, or_iff_right hhigh, checkFails_succ, or_iff_left not_checkFails_zero, i32_of_lt (by omega)]

/-- Without `blockalign` the first scan divides by 0, if it comes to that. -/
theorem skipBad_zero (hknown : chip.Known) (hzero : opts.blockalign = 0) :
    skipBad chip opts.virtual (-1) p =
      if Unchecked chip 1 (blockStart chip 1 p) then .failed else .divByZero := by
  have hstep : opts.virtual.step = none := if_pos hzero
  have hsize : opts.virtual.size = chip.erasesize := if_pos hzero
  have hstart : opts.virtual.start p = blockStart chip 1 p := by
    rw [Virtual.start, blockStart, hsize, Nat.mul_one]
  have hscan : scan chip opts.virtual p =
      if Unchecked chip 1 (blockStart chip 1 p) then .failed else .divByZero := by
    have hlt := opts.virtual.start_lt p
    rw [hstart] at hlt
    rw [scan, scanBlocks, hstart, if_congr (unchecked_one_iff hlt).symm rfl rfl]
    refine if_congr Iff.rfl rfl ?_
    split
    · rfl
    · rename_i hsome
      cases hstep.symm.trans hsome
  rw [skipBad, if_neg (by rw [hstart]; exact hknown.first_ne)]
  dsimp only
  split <;> rename_i hend <;> rw [hscan] at hend <;> split at hend <;> cases hend
  · rename_i hcheck
    rw [if_pos hcheck]
  · rename_i hcheck
    rw [if_neg hcheck]

/-- A page of more than `MAX_PAGE_SIZE` bytes is copied over the end of `data_buf`. -/
theorem writeLoop_overrun {imglen : Int} {q : Nat} {blockstart blockstart' : Int}
    {log : List (Nat × List UInt8)} (hws : maxPageSize < chip.writesize) (hne : imglen ≠ 0)
    (hin : p < chip.size) (hsearch : skipBad chip opts.virtual blockstart p = .found blockstart' q) :
    writeLoop chip opts imglen p blockstart buffer log = .overrun := by
  rw [writeLoop, dif_pos ⟨hne, hin⟩, hsearch]
  dsimp only
  refine dif_pos ?_
  by_cases hpad : padded opts imglen
  · exact .inr (.inr ⟨hpad, hws⟩)
  · rw [readlen, if_neg hpad]
    omega

/-- The bytes of the pages that were written. -/
def written (log : List (Nat × List UInt8)) : List UInt8 := log.flatMap Prod.snd

theorem restoreoob_negative {imglen value : Int} {log log' : List (Nat × List UInt8)} (hneg : imglen < 0)
    (h : restoreoob imglen log = .ret value log') : value = 0 ∧ log' = log := by
  rw [restoreoob, if_neg (by omega)] at h
  cases h
  exact ⟨rfl, rfl⟩

/-- With a negative `imglen` the loop returns 0 before the image is written. -/
theorem writeLoop_negative {imglen blockstart value : Int} {log log' : List (Nat × List UInt8)}
    (hneg : imglen < 0) (hint : -2147483648 ≤ imglen)
    (h : writeLoop chip opts imglen p blockstart buffer log = .ret value log') :
    value = 0 ∧ (written log').length ≤ (written log).length + (imglen + 2147483648).toNat := by
  induction hk : (imglen + 2147483648).toNat using Nat.strongRecOn generalizing imglen p blockstart buffer log with
  | _ left ih =>
    have hnow : restoreoob imglen log = .ret value log' →
        value = 0 ∧ (written log').length ≤ (written log).length + left := by
      intro hend
      obtain ⟨rfl, rfl⟩ := restoreoob_negative hneg hend
      exact ⟨rfl, Nat.le_add_right _ _⟩
    rw [writeLoop] at h
    split at h
    swap
    · exact hnow h
    split at h
    · exact hnow h
    · cases h
    split at h
    · cases h
    rename_i hcopy
    split at h
    · exact hnow h
    split at h
    · cases h
    rename_i hover
    split at h
    · cases h
    -- a whole page was written
    have hpos := chip.writesize_pos
    have hread : readlen opts imglen = chip.writesize := by
      refine if_neg fun hpad => hcopy (.inl ?_)
      rwa [readlen, if_pos hpad]
    rw [hread, Int.toNat_natCast] at h
    rw [hread] at hover
    obtain ⟨rfl, hle⟩ := ih _ (by omega) (by omega) (by omega) h rfl
    refine ⟨rfl, Nat.le_trans hle ?_⟩
    simp only [written, List.flatMap_append, List.flatMap_cons, List.flatMap_nil, List.append_nil,
      List.length_append, List.rightpad, List.length_replicate, List.length_take]
    omega

-- ============================================================================
-- Images that come back
-- ============================================================================

/-- The whole image is in the pages that were written. -/
def WroteImage (image : List UInt8) (log : List (Nat × List UInt8)) : Prop :=
  (written log).take image.length = image

/-- Whatever the image and the chip hold: `nand_write_opts` returns, with 0 only where the whole
    image is written and `nand_read_opts` then reads it. -/
def WritesRight (chip : Chip) (opts : WriteOptions chip) : Prop :=
  ∀ image : List UInt8, image.length = opts.length → ∀ (flash : Mem UInt8) (quiet : Bool),
    ∃ value log, nandWriteOpts chip opts image = .ret value log ∧
      (value = 0 → WroteImage image log ∧
        nandReadOpts chip ⟨opts.length, opts.offset, quiet⟩ (scatter flash log) = .ret 0 image)

/-- What the writer needs of the chip and of the options. -/
structure Served (chip : Chip) (opts : WriteOptions chip) : Prop where
  /-- YAFFS is not asked for on pages of 256 bytes. -/
  yaffs : ¬ (chip.oobsize = 8 ∧ opts.forceyaffs)
  /-- `length` is a positive `int`. -/
  length_lt : opts.length < 2147483648
  /-- `blockalign` is not 0, unless the first check fails. -/
  blockalign : Admitted chip opts → opts.blockalign = 0 → Unchecked chip 1 (blockStart chip 1 opts.offset)
  /-- A page fits into `data_buf`, unless no page is placed. -/
  page : Admitted chip opts → opts.blockalign ≠ 0 → maxPageSize < chip.writesize →
    Goes chip opts.blockalign opts.offset none
  /-- A layout of all pages is one over single blocks, too, and they can be read. -/
  layout : Admitted chip opts → opts.blockalign ≠ 0 → ∀ qs,
    Layout chip opts.blockalign chip.write (pageCount chip opts.length) opts.offset qs →
      Layout chip 1 chip.read (pageCount chip opts.length) opts.offset qs

theorem Layout.unique {status : Nat → Int} {qs qs' : List Nat} (h : Layout chip k status n p qs)
    (h' : Layout chip k status n p qs') : qs = qs' := by
  induction h generalizing qs' with
  | nil =>
    cases h'
    rfl
  | cons _ hgoes _ _ ih =>
    obtain ⟨-, -, qs'', rfl, hrest⟩ := (Layout.cons_iff hgoes).mp h'
    rw [ih hrest]

theorem not_writesRight_of_short
    (h : ∀ image value log, nandWriteOpts chip opts image = .ret value log →
      value = 0 ∧ (written log).length < opts.length) : ¬ WritesRight chip opts := by
  intro hright
  have hlen : (List.replicate opts.length (0 : UInt8)).length = opts.length := List.length_replicate
  obtain ⟨value, log, hret, hzero⟩ := hright _ hlen (fun _ => 0) true
  obtain ⟨rfl, hshort⟩ := h _ value log hret
  have hwhole := congrArg List.length (hzero rfl).1
  rw [List.length_take, hlen] at hwhole
  omega

theorem served_length_lt (hknown : chip.Known) (hyaffs : ¬ (chip.oobsize = 8 ∧ opts.forceyaffs))
    (h : WritesRight chip opts) : opts.length < 2147483648 := by
  by_contra hge
  have hlt := opts.length_lt
  have hint : i32 opts.length = opts.length - 4294967296 := by
    rw [i32, u32_of_lt hlt, if_neg (by omega)]
  refine not_writesRight_of_short (fun image value log hret => ?_) h
  rw [nandWriteOpts, if_neg (not_not_intro hknown), if_neg hyaffs] at hret
  dsimp only at hret
  rw [hint] at hret
  have hnow : restoreoob ((opts.length : Int) - 4294967296) [] = .ret value log →
      value = 0 ∧ (written log).length < opts.length := by
    intro hend
    obtain ⟨rfl, rfl⟩ := restoreoob_negative (by omega) hend
    exact ⟨rfl, by rw [written, List.flatMap_nil, List.length_nil]; omega⟩
  split at hret
  · exact hnow hret
  split at hret
  · exact hnow hret
  obtain ⟨rfl, hle⟩ := writeLoop_negative (by omega) (by omega) hret
  rw [show (written []).length = 0 from rfl] at hle
  exact ⟨rfl, by omega⟩

/-- What the writer makes of an admitted image. -/
theorem nandWriteOpts_follows (hknown : chip.Known) (hyaffs : ¬ (chip.oobsize = 8 ∧ opts.forceyaffs))
    (hpos : 0 < opts.length) (hlt : opts.length < 2147483648) (hadm : Admitted chip opts)
    (halign : opts.blockalign ≠ 0) (hws : chip.writesize ≤ maxPageSize) (himage : buffer.length = opts.length) :
    (∃ qs, Layout chip opts.blockalign chip.write (pageCount chip opts.length) opts.offset qs ∧
      nandWriteOpts chip opts buffer =
        .ret 0 (qs.zip (pages chip.writesize 0xff (pageCount chip opts.length) buffer))) ∨
    (∀ qs, ¬ Layout chip opts.blockalign chip.write (pageCount chip opts.length) opts.offset qs) ∧
      ∃ log, nandWriteOpts chip opts buffer = .ret (-1) log := by
  rw [nandWriteOpts_admitted hknown hyaffs hlt hadm, ← himage]
  refine writeLoop_follows (grid_virtual halign) hws (by omega) (le_pageCount chip _)
    (pageCount_lt chip (by omega)) ?_ opts.offset_lt hknown.clean_init
  rw [himage]
  exact hadm.1

/-- What the reader makes of it. -/
theorem nandReadOpts_follows (quiet : Bool) (flash : Mem UInt8) (hknown : chip.Known) (hpos : 0 < opts.length)
    (hlt : opts.length < 2147483648) (hadm : Admitted chip opts) (hws : chip.writesize ≤ maxPageSize) :
    (∃ qs, Layout chip 1 chip.read (pageCount chip opts.length) opts.offset qs ∧
      nandReadOpts chip ⟨opts.length, opts.offset, quiet⟩ flash =
        .ret 0 ((gather flash chip.writesize qs).take opts.length)) ∨
    (∀ qs, ¬ Layout chip 1 chip.read (pageCount chip opts.length) opts.offset qs) ∧
      ∃ buffer, nandReadOpts chip ⟨opts.length, opts.offset, quiet⟩ flash = .ret (-1) buffer := by
  rw [nandReadOpts_admitted hknown hlt hadm]
  exact readLoop_follows hws (Nat.ne_of_gt hpos) hlt (le_pageCount chip _)
    (pageCount_lt chip hpos) opts.offset_lt hknown.clean_init

/-- A writer that is right has its pages where the reader looks for them. -/
theorem layout_of_writesRight (hknown : chip.Known) (hyaffs : ¬ (chip.oobsize = 8 ∧ opts.forceyaffs))
    (hpos : 0 < opts.length) (hlt : opts.length < 2147483648) (hadm : Admitted chip opts)
    (halign : opts.blockalign ≠ 0) (hws : chip.writesize ≤ maxPageSize) {qs : List Nat}
    (hlayout : Layout chip opts.blockalign chip.write (pageCount chip opts.length) opts.offset qs)
    (h : WritesRight chip opts) : Layout chip 1 chip.read (pageCount chip opts.length) opts.offset qs := by
  have hback : ∀ image : List UInt8, image.length = opts.length → ∀ flash,
      nandReadOpts chip ⟨opts.length, opts.offset, true⟩
        (scatter flash (qs.zip (pages chip.writesize 0xff (pageCount chip opts.length) image))) = .ret 0 image := by
    intro image himage flash
    obtain ⟨value, log, hret, hzero⟩ := h image himage flash true
    obtain ⟨qs', hlayout', hwrote⟩ | ⟨hnone, -⟩ :=
      nandWriteOpts_follows hknown hyaffs hpos hlt hadm halign hws himage
    · obtain rfl := hlayout.unique hlayout'
      rw [hwrote] at hret
      cases hret
      exact (hzero rfl).2
    · exact absurd hlayout (hnone qs)
  -- any image shows that the reader has a layout, and all of them together which one
  obtain ⟨rs, hread, -⟩ | ⟨-, buffer, hret⟩ := nandReadOpts_follows true
    (scatter (fun _ => 1) (qs.zip (pages chip.writesize 0xff (pageCount chip opts.length)
      (List.replicate opts.length 0)))) hknown hpos hlt hadm hws
  swap
  · rw [hback _ List.length_replicate] at hret
    cases hret
  have hone : (1 : UInt8) ≠ 0 := by decide
  have hpad : (0xff : UInt8) ≠ 0 := by decide
  have hstarts : ∀ i < pageCount chip opts.length, i * chip.writesize < opts.length := by
    intro i hi
    have hle := Nat.mul_le_mul_right chip.writesize (Nat.succ_le_of_lt hi)
    have hneeded := pageCount_lt chip hpos
    rw [Nat.succ_mul] at hle
    omega
  obtain rfl : rs = qs := by
    refine places_eq_of_gather chip.writesize_pos hone hpad hstarts hlayout.length hread.length ?_
    intro image himage
    have hret := hback image himage fun _ => 1
    obtain ⟨rs', hread', hgather⟩ | ⟨hnone, -⟩ := nandReadOpts_follows true
      (scatter (fun _ => 1) (qs.zip (pages chip.writesize 0xff (pageCount chip opts.length) image)))
      hknown hpos hlt hadm hws
    · obtain rfl := hread.unique hread'
      rw [hgather] at hret
      exact (Loaded.ret.inj hret).2
    · exact absurd hread (hnone rs)
  exact hread

theorem served_of_writesRight (hknown : chip.Known) (hpos : 0 < opts.length) (h : WritesRight chip opts) :
    Served chip opts := by
  have hyaffs : ¬ (chip.oobsize = 8 ∧ opts.forceyaffs) := by
    intro hyaffs
    refine not_writesRight_of_short (fun image value log hret => ?_) h
    rw [nandWriteOpts, if_neg (not_not_intro hknown), if_pos hyaffs] at hret
    cases hret
    exact ⟨rfl, hpos⟩
  have hlt := served_length_lt hknown hyaffs h
  have hrun : Admitted chip opts → nandWriteOpts chip opts (List.replicate opts.length 0) =
      writeLoop chip opts opts.length opts.offset (-1) (List.replicate opts.length 0) [] :=
    nandWriteOpts_admitted hknown hyaffs hlt
  obtain ⟨value, log, hret, -⟩ := h _ List.length_replicate (fun _ => 0) true
  have hne : (opts.length : Int) ≠ 0 := by omega
  have hpage : Admitted chip opts → opts.blockalign ≠ 0 → maxPageSize < chip.writesize →
      Goes chip opts.blockalign opts.offset none := by
    intro hadm halign hws
    rw [hrun hadm] at hret
    obtain ⟨b, q, hsearch, -, -⟩ | ⟨-, hgoes⟩ :=
      (grid_virtual halign).skipBad_goes hknown.clean_init opts.offset_lt
    · rw [writeLoop_overrun hws hne hadm.2.1 hsearch] at hret
      cases hret
    · exact hgoes
  refine ⟨hyaffs, hlt, ?_, hpage, ?_⟩
  · intro hadm hzero
    by_contra hchecked
    rw [hrun hadm, writeLoop, dif_pos ⟨hne, hadm.2.1⟩, skipBad_zero hknown hzero, if_neg hchecked] at hret
    cases hret
  · intro hadm halign qs hlayout
    refine layout_of_writesRight hknown hyaffs hpos hlt hadm halign (Nat.not_lt.mp fun hws => ?_) hlayout h
    obtain ⟨m, hm⟩ := Nat.exists_eq_add_of_lt (pageCount_pos chip hpos)
    rw [hm, Nat.zero_add] at hlayout
    exact not_layout_of_goes_none (hpage hadm halign hws) hlayout

theorem flatMap_snd_zip {qs : List Nat} {ps : List (List UInt8)} (h : qs.length = ps.length) :
    written (qs.zip ps) = ps.flatten := by
  rw [written, List.flatMap_def, List.map_snd_zip (Nat.le_of_eq h.symm)]

theorem writesRight_of_served (hknown : chip.Known) (hpos : 0 < opts.length) (h : Served chip opts) :
    WritesRight chip opts := by
  intro image himage flash quiet
  have hfail : ∀ {log}, nandWriteOpts chip opts image = .ret (-1) log →
      ∃ value log, nandWriteOpts chip opts image = .ret value log ∧ (value = 0 → WroteImage image log ∧
        nandReadOpts chip ⟨opts.length, opts.offset, quiet⟩ (scatter flash log) = .ret 0 image) :=
    fun hret => ⟨-1, _, hret, fun hzero => nomatch hzero⟩
  by_cases hadm : Admitted chip opts
  swap
  · exact hfail (nandWriteOpts_refused hknown h.yaffs hpos h.length_lt hadm)
  have hfailed : skipBad chip opts.virtual (-1) opts.offset = .failed →
      nandWriteOpts chip opts image = .ret (-1) [] := by
    intro hsearch
    rw [nandWriteOpts_admitted hknown h.yaffs h.length_lt hadm, writeLoop_failed hsearch, restoreoob,
      if_pos (by omega)]
  by_cases halign : opts.blockalign = 0
  · refine hfail (hfailed ?_)
    rw [skipBad_zero hknown halign, if_pos (h.blockalign hadm halign)]
  by_cases hws : maxPageSize < chip.writesize
  · refine hfail (hfailed ?_)
    obtain ⟨b, q, -, -, hgoes⟩ | ⟨hsearch, -⟩ :=
      (grid_virtual halign).skipBad_goes hknown.clean_init opts.offset_lt
    · cases hgoes.unique (h.page hadm halign hws)
    · exact hsearch
  obtain ⟨qs, hlayout, hret⟩ | ⟨-, log, hret⟩ :=
    nandWriteOpts_follows hknown h.yaffs hpos h.length_lt hadm halign (Nat.not_lt.mp hws) himage
  swap
  · exact hfail hret
  have hlen : qs.length = (pages chip.writesize 0xff (pageCount chip opts.length) image).length := by
    rw [hlayout.length, pages_length]
  have hwhole : image.length ≤ pageCount chip opts.length * chip.writesize := by
    rw [himage]
    exact le_pageCount chip opts.length
  refine ⟨0, _, hret, fun _ => ⟨?_, ?_⟩⟩
  · rw [WroteImage, flatMap_snd_zip hlen, take_flatten_pages hwhole]
  · have hread := h.layout hadm halign qs hlayout
    obtain ⟨qs', hread', hback⟩ | ⟨hnone, -⟩ := nandReadOpts_follows quiet
      (scatter flash (qs.zip (pages chip.writesize 0xff (pageCount chip opts.length) image)))
      hknown hpos h.length_lt hadm (Nat.not_lt.mp hws)
    · obtain rfl := hread.unique hread'
      have hapart := ((grid_single chip).layout_apart hknown.writesize_le opts.offset_lt hread).2
      have hflat : (pages chip.writesize 0xff (pageCount chip opts.length) image).flatten.take image.length =
          image := take_flatten_pages hwhole
      rw [himage] at hflat
      rw [hback, gather_scatter hapart hlen fun p hp => length_of_mem_pages hp, hflat]
    · exact absurd hread (hnone qs)

/-- An empty image. -/
theorem writesRight_of_empty (hknown : chip.Known) (hzero : opts.length = 0) : WritesRight chip opts := by
  intro image himage flash quiet
  obtain rfl := List.eq_nil_of_length_eq_zero (himage.trans hzero)
  have hint : i32 opts.length = 0 := by
    rw [hzero]
    rfl
  have hend : restoreoob 0 [] = .ret 0 [] := rfl
  have hret : nandWriteOpts chip opts [] = .ret 0 [] := by
    rw [nandWriteOpts, if_neg (not_not_intro hknown), hint]
    dsimp only
    rw [writeLoop, dif_neg fun h => h.1 rfl, hend]
    split
    · rfl
    split
    · rfl
    split <;> rfl
  refine ⟨0, [], hret, fun _ => ⟨rfl, ?_⟩⟩
  rw [nandReadOpts, if_neg (not_not_intro hknown)]
  dsimp only
  have hfits : ∀ room : Nat, ¬ room < ulong 0 := fun room => Nat.not_lt_zero room
  rw [hint, Int.zero_tdiv, Int.zero_mul, if_neg (hfits _), hzero, readLoop, dif_neg fun h => h.1 rfl]
  rfl

/-- **`nand_write_opts`.**  It can be relied on just where the page size is not known, the image
    is empty, or the chip and the options serve it. -/
theorem nandWriteOpts_right_iff (chip : Chip) (opts : WriteOptions chip) :
    WritesRight chip opts ↔ (chip.Known → opts.length ≠ 0 → Served chip opts) := by
  constructor
  · exact fun h hknown hne => served_of_writesRight hknown (Nat.pos_of_ne_zero hne) h
  · intro h
    by_cases hknown : chip.Known
    · rcases Nat.eq_zero_or_pos opts.length with hzero | hpos
      · exact writesRight_of_empty hknown hzero
      · exact writesRight_of_served hknown hpos (h hknown (Nat.ne_of_gt hpos))
    · intro image himage flash quiet
      refine ⟨-1, [], ?_, fun hzero => nomatch hzero⟩
      rw [nandWriteOpts, if_pos hknown]

/-- A chip of 128 MiB without bad blocks. -/
def cleanChip (writesize oobsize : Nat) (hpos : 0 < writesize) (hdvd : writesize ∣ 131072) : Chip where
  writesize := writesize
  oobsize := oobsize
  erasesize := 131072
  size := 134217728
  blockIsbad := fun offs => if offs < 0 ∨ 134217728 < offs then -22 else 0
  write := fun _ => 0
  read := fun _ => 0
  writesize_pos := hpos
  writesize_dvd := hdvd
  erasesize_pos := by decide
  erasesize_le := by decide
  size_lt := by decide
  isbad_outside := fun offs h => by
    rw [if_pos (by omega)]
    decide

/-- One page from the start of such a chip on, with a `blockalign`. -/
def onePage (writesize oobsize blockalign : Nat) (hpos : 0 < writesize) (hdvd : writesize ∣ 131072)
    (hle : 131072 * blockalign ≤ 1073741824) (hlen : writesize < 4294967296) :
    WriteOptions (cleanChip writesize oobsize hpos hdvd) where
  length := writesize
  offset := 0
  quiet := true
  forceyaffs := false
  pad := false
  blockalign := blockalign
  length_lt := hlen
  offset_lt := by decide
  blockalign_le := hle

/-- A page of 2048 bytes with `blockalign` 0, and one of 4096 bytes. -/
theorem not_writesRight_onePage :
    ¬ WritesRight (cleanChip 2048 64 (by decide) (by decide))
        (onePage 2048 64 0 (by decide) (by decide) (by decide) (by decide)) ∧
      ¬ WritesRight (cleanChip 4096 128 (by decide) (by decide))
        (onePage 4096 128 1 (by decide) (by decide) (by decide) (by decide)) := by
  constructor
  · intro h
    have hserved := served_of_writesRight (.inr (.inr (.inl ⟨rfl, rfl⟩))) (by decide) h
    have hcheck := hserved.blockalign ⟨.inr (Nat.dvd_refl _), by decide, by decide⟩ rfl
    rw [unchecked_one_iff (by decide)] at hcheck
    exact absurd hcheck (by decide)
  · intro h
    have hserved := served_of_writesRight (.inr (.inr (.inr ⟨.inl rfl, rfl⟩))) (by decide) h
    have hnone := hserved.page ⟨.inr (Nat.dvd_refl _), by decide, by decide⟩ (by decide) (by decide)
    have hcheck : ¬ Unchecked (cleanChip 4096 128 (by decide) (by decide)) 1 0 := by
      rw [unchecked_one_iff (by decide)]
      decide
    have hgood : ¬ HasBad (cleanChip 4096 128 (by decide) (by decide)) 1 0 := by
      rintro ⟨j, hj, hbad⟩
      obtain rfl := Nat.lt_one_iff.mp hj
      exact absurd hbad (by decide)
    -- the page would go to the first block
    cases hnone.unique (.here hcheck hgood)

end Uboot.Drivers.NandOpts
