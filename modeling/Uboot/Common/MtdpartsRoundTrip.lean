/-
  Uboot.Common.MtdpartsRoundTrip

  `parse_mtdparts` on what `generate_mtdparts` prints.

  The printer leaves out the offset of a partition that starts where the one before it
  ends.  The parser makes up the name of a partition without one before it knows such an
  offset, and it adds a partition before others at the same offset.  So a made-up name
  comes back only if the offset is printed, and partitions at one offset come back in
  the opposite order.
-/

import Uboot.Common.CmdMtdparts
import Mathlib.Data.List.Perm.Basic
import Mathlib.Data.List.Pairwise

namespace Uboot.Common.CmdMtdparts

open Uboot.Lib Uboot.LibGeneric

-- ============================================================================
-- Sizes as text
-- ============================================================================

/-- No digit and no suffix. -/
def Stop (c : UInt8) : Prop :=
  ¬ (isXDigit c ∧ xDigit c < 10) ∧ c ∉ [71, 103, 77, 109, 75, 107]

instance (c : UInt8) : Decidable (Stop c) := inferInstanceAs (Decidable (_ ∧ _))

theorem memsizeParse_lt (ptr : List UInt8) : (memsizeParse ptr).1 < 4294967296 := by
  unfold memsizeParse
  have hlt := simpleStrtoul_lt ptr 0
  split
  · exact hlt
  · split_ifs
    · exact u32_lt _
    · exact u32_lt _
    · exact u32_lt _
    · exact hlt

/-- A number and a suffix that stands for a factor. -/
theorem memsizeParse_suffix {n f : Nat} {c : UInt8} (h0 : 0 < n) (hn : n * f < 4294967296)
    (hf : c = 103 ∧ f = 1073741824 ∨ c = 109 ∧ f = 1048576 ∨ c = 107 ∧ f = 1024)
    (rest : List UInt8) :
    memsizeParse (decimal n ++ [c] ++ rest) = (n * f, rest) := by
  have hn' : n < 4294967296 := by
    refine Nat.lt_of_le_of_lt (Nat.le_mul_of_pos_right n ?_) hn
    rcases hf with ⟨-, rfl⟩ | ⟨-, rfl⟩ | ⟨-, rfl⟩ <;> omega
  have hc : ¬ (isXDigit c ∧ xDigit c < 10) := by
    rcases hf with ⟨rfl, -⟩ | ⟨rfl, -⟩ | ⟨rfl, -⟩ <;> decide
  obtain ⟨hv, he⟩ := @simpleStrtoul_decimal n h0 hn' (c :: rest) (by simpa using hc)
  rw [List.append_assoc, List.singleton_append]
  simp only [memsizeParse, hv, he]
  rcases hf with ⟨rfl, rfl⟩ | ⟨rfl, rfl⟩ | ⟨rfl, rfl⟩ <;> simp [u32_of_lt hn]

/-- **Sizes round trip.** -/
theorem memsizeParse_format {n : Nat} (h0 : 0 < n) (hn : n < 4294967296) {rest : List UInt8}
    (hrest : ∀ c ∈ rest.head?, Stop c) : memsizeParse (memsizeFormat n ++ rest) = (n, rest) := by
  unfold memsizeFormat
  split_ifs with hg hm hk
  · have hq : n / 1073741824 * 1073741824 = n := by omega
    rw [memsizeParse_suffix (by omega) (by omega) (.inl ⟨rfl, rfl⟩), hq]
  · have hq : n / 1048576 * 1048576 = n := by omega
    rw [memsizeParse_suffix (by omega) (by omega) (.inr (.inl ⟨rfl, rfl⟩)), hq]
  · have hq : n / 1024 * 1024 = n := by omega
    rw [memsizeParse_suffix (by omega) (by omega) (.inr (.inr ⟨rfl, rfl⟩)), hq]
  · obtain ⟨hv, he⟩ := simpleStrtoul_decimal h0 hn fun c hc => (hrest c hc).1
    simp only [memsizeParse, hv, he]
    cases rest with
    | nil => rfl
    | cons c cs =>
      have hc := (hrest c rfl).2
      simp only [List.mem_cons, List.not_mem_nil, or_false, not_or] at hc
      simp [hc]

/-- A printed size starts with a digit. -/
theorem memsizeFormat_head {n : Nat} (h0 : 0 < n) :
    ∃ d < 10, ∃ ds, memsizeFormat n = digit d :: ds := by
  unfold memsizeFormat
  split_ifs
  · obtain ⟨d, -, hd, ds, h⟩ := decimal_head (show 0 < n / 1073741824 by omega)
    exact ⟨d, hd, ds ++ [103], by rw [h]; rfl⟩
  · obtain ⟨d, -, hd, ds, h⟩ := decimal_head (show 0 < n / 1048576 by omega)
    exact ⟨d, hd, ds ++ [109], by rw [h]; rfl⟩
  · obtain ⟨d, -, hd, ds, h⟩ := decimal_head (show 0 < n / 1024 by omega)
    exact ⟨d, hd, ds ++ [107], by rw [h]; rfl⟩
  · obtain ⟨d, -, hd, ds, h⟩ := decimal_head h0
    exact ⟨d, hd, ds, h⟩

theorem hex8_length (n : Nat) : (hex8 n).length = 8 := by simp [hex8]

/-- Eight digits `f` are those of one number only. -/
theorem hex8_eq_max {n : Nat} (hn : n < 4294967296) (h : hex8 n = hex8 0xffffffff) :
    n = 0xffffffff := by
  have hdigit : ∀ d < 16, hexDigit d = hexDigit 15 → d = 15 := by decide
  have hall : ∀ i < 8, n / 16 ^ (7 - i) % 16 = 15 := by
    intro i hi
    have heq : ∀ j ∈ List.range 8,
        hexDigit (n / 16 ^ (7 - j) % 16) = hexDigit (0xffffffff / 16 ^ (7 - j) % 16) :=
      List.map_inj_left.mp h
    have hmax : ∀ j ∈ List.range 8, 0xffffffff / 16 ^ (7 - j) % 16 = 15 := by decide
    have hi' := List.mem_range.mpr hi
    have hd := heq i hi'
    rw [hmax i hi'] at hd
    exact hdigit _ (Nat.mod_lt _ (by omega)) hd
  have h0 := hall 0 (by omega)
  have h1 := hall 1 (by omega)
  have h2 := hall 2 (by omega)
  have h3 := hall 3 (by omega)
  have h4 := hall 4 (by omega)
  have h5 := hall 5 (by omega)
  have h6 := hall 6 (by omega)
  have h7 := hall 7 (by omega)
  norm_num at h0 h1 h2 h3 h4 h5 h6 h7
  omega

theorem autoPartName_offset (size offset : Nat) : (autoPartName size offset).drop 13 = hex8 offset := by
  have hlen : ([48, 120] ++ hex8 size ++ [64, 48, 120]).length = 13 := by simp [hex8_length]
  rw [autoPartName, ← hlen, List.drop_left]

-- ============================================================================
-- One partition
-- ============================================================================

/-- What holds of a partition whose definition had a size and an offset. -/
structure WellFormed (p : PartInfo) : Prop where
  size : minPartSize ≤ p.size ∧ p.size < sizeRemaining
  offset : p.offset < offsetNotSpecified
  flags : p.maskFlags = 0 ∨ p.maskFlags = mtdWriteableCmd
  name : if p.autoName then p.name = autoPartName p.size p.offset
    else p.name ≠ [] ∧ 41 ∉ p.name

/-- The offset the parser finds in the text of a partition. -/
def foundOffset (prev : Option PartInfo) (p : PartInfo) : Nat :=
  if offsetPrinted prev p then p.offset else offsetNotSpecified

/-- What `part_parse` makes of the text of a partition. -/
def reread (prev : Option PartInfo) (p : PartInfo) : PartInfo :=
  { p with
    name := if p.autoName then autoPartName p.size (foundOffset prev p) else p.name
    offset := foundOffset prev p
    given := offsetPrinted prev p }

section Text

variable {p : PartInfo} {prev : Option PartInfo} {more : Bool} {rest : List UInt8}

/-- The text behind the option `ro`, behind the name, behind the offset, and behind the
    size. -/
def endText (more : Bool) (rest : List UInt8) : List UInt8 := (if more then [44] else []) ++ rest

def flagText (p : PartInfo) (t : List UInt8) : List UInt8 :=
  (if p.maskFlags ≠ 0 then [114, 111] else []) ++ t

def nameText (p : PartInfo) (t : List UInt8) : List UInt8 :=
  (if p.autoName then [] else 40 :: p.name ++ [41]) ++ t

def offsetText (prev : Option PartInfo) (p : PartInfo) (t : List UInt8) : List UInt8 :=
  (if offsetPrinted prev p then 64 :: memsizeFormat p.offset else []) ++ t

theorem partPieces_flatten :
    (partPieces prev p more).flatten ++ rest =
      memsizeFormat p.size ++ offsetText prev p (nameText p (flagText p (endText more rest))) := by
  simp only [partPieces, offsetText, nameText, flagText, endText]
  split_ifs <;> simp [List.append_assoc]

theorem endText_head (h : more = false → ∀ c ∈ rest.head?, c = 59) :
    ∀ c ∈ (endText more rest).head?, c = 44 ∨ c = 59 := by
  cases more with
  | true => simp [endText]
  | false => exact fun c hc => .inr (h rfl c hc)

theorem flagText_head {t : List UInt8} (h : ∀ c ∈ t.head?, c = 44 ∨ c = 59) :
    ∀ c ∈ (flagText p t).head?, c = 114 ∨ c = 44 ∨ c = 59 := by
  unfold flagText
  split
  · simp
  · exact fun c hc => .inr (h c hc)

theorem nameText_head {t : List UInt8} (h : ∀ c ∈ t.head?, c = 114 ∨ c = 44 ∨ c = 59) :
    ∀ c ∈ (nameText p t).head?, c = 40 ∨ c = 114 ∨ c = 44 ∨ c = 59 := by
  unfold nameText
  split
  · exact fun c hc => .inr (h c hc)
  · simp

theorem offsetText_head {t : List UInt8} (h : ∀ c ∈ t.head?, c = 40 ∨ c = 114 ∨ c = 44 ∨ c = 59) :
    ∀ c ∈ (offsetText prev p t).head?, c = 64 ∨ c = 40 ∨ c = 114 ∨ c = 44 ∨ c = 59 := by
  unfold offsetText
  split
  · simp
  · exact fun c hc => .inr (h c hc)

theorem stop_of_head {c : UInt8} (h : c = 64 ∨ c = 40 ∨ c = 114 ∨ c = 44 ∨ c = 59) : Stop c := by
  rcases h with rfl | rfl | rfl | rfl | rfl <;> decide

theorem endPart_text {size : Nat} (hsize : size < sizeRemaining)
    (h : more = false → ∀ c ∈ rest.head?, c = 59) : endPart size (endText more rest) = some rest := by
  cases more with
  | true =>
    have hne : size ≠ sizeRemaining := by omega
    simp [endText, endPart, hne]
  | false =>
    cases rest with
    | nil => rfl
    | cons c cs =>
      obtain rfl := h rfl c rfl
      rfl

theorem optionPart_text {t : List UInt8} (hp : p.maskFlags = 0 ∨ p.maskFlags = mtdWriteableCmd)
    (h : ∀ c ∈ t.head?, c = 44 ∨ c = 59) : optionPart (flagText p t) = (p.maskFlags, t) := by
  rcases hp with h0 | h1
  · rw [flagText, if_neg (by simpa using h0), List.nil_append, h0]
    unfold optionPart
    split
    · next cs =>
      have := h 114 rfl
      exact absurd this (by decide)
    · rfl
  · have hne : p.maskFlags ≠ 0 := by rw [h1]; decide
    rw [flagText, if_pos hne, h1]
    rfl

theorem namePart_text {t : List UInt8} (hp : WellFormed p)
    (h : ∀ c ∈ t.head?, c = 114 ∨ c = 44 ∨ c = 59) :
    namePart (nameText p t) = some (if p.autoName then none else some p.name, t) := by
  have hname := hp.name
  unfold nameText
  split_ifs at hname ⊢ with hauto
  · rw [List.nil_append]
    cases t with
    | nil => rfl
    | cons c cs =>
      have hc : c ≠ 40 := by
        rcases h c rfl with rfl | rfl | rfl <;> decide
      simp only [namePart, hc, if_false]
  · obtain ⟨hne, hclose⟩ := hname
    have hall : ∀ c ∈ p.name, decide (c ≠ 41) = true :=
      fun c hc => decide_eq_true fun he => hclose (he ▸ hc)
    have htake : (p.name ++ 41 :: t).takeWhile (· ≠ 41) = p.name := by
      rw [List.takeWhile_append_of_pos hall]
      simp
    have hdrop : (p.name ++ 41 :: t).dropWhile (· ≠ 41) = 41 :: t := by
      rw [List.dropWhile_append_of_pos hall]
      simp
    simp only [List.cons_append, List.append_assoc, List.nil_append, namePart, if_true, hdrop,
      htake, hne, if_false]

/-- **A printed partition is read back**, except for what its text leaves out. -/
theorem partParse_pieces (hp : WellFormed p) (h : more = false → ∀ c ∈ rest.head?, c = 59) :
    partParse ((partPieces prev p more).flatten ++ rest) = some (reread prev p, rest) := by
  obtain ⟨hmin, hmax⟩ := hp.size
  have hoff := hp.offset
  simp only [minPartSize, sizeRemaining, offsetNotSpecified] at hmin hmax hoff
  -- the heads of the texts, from the end on
  have h3 := endText_head h
  have h2 := flagText_head (p := p) h3
  have h1 := nameText_head (p := p) h2
  have h0 := @offsetText_head p prev _ h1
  have hsize := memsizeParse_format (show 0 < p.size by omega) (by omega)
    fun c hc => stop_of_head (h0 c hc)
  rw [partPieces_flatten]
  generalize hs : offsetText prev p (nameText p (flagText p (endText more rest))) = t0 at hsize h0
  -- the text starts with a digit, not with a dash
  have hdash : (memsizeFormat p.size ++ t0).head? ≠ some 45 := by
    obtain ⟨d, hd, ds, hds⟩ := memsizeFormat_head (show 0 < p.size by omega)
    rw [hds]
    intro he
    have he' : digit d = 45 := Option.some.inj he
    have h45 : (digit d).toNat = 45 := congrArg UInt8.toNat he'
    have := digit_toNat hd
    omega
  have hoffset : (if t0.head? = some 64 then memsizeParse t0.tail else (offsetNotSpecified, t0)) =
      (foundOffset prev p, nameText p (flagText p (endText more rest))) := by
    rw [← hs]
    unfold offsetText foundOffset
    by_cases hprinted : offsetPrinted prev p = true
    · rw [if_pos hprinted, if_pos hprinted, List.cons_append, List.head?_cons, if_pos rfl,
        List.tail_cons]
      have hpos : 0 < p.offset ∨ p.offset = 0 := by omega
      rcases hpos with hpos | hzero
      · exact memsizeParse_format hpos (by omega) fun c hc => stop_of_head (.inr (h1 c hc))
      · have hz : memsizeFormat 0 = [48, 103] := by decide
        rw [hzero, hz]
        simp [memsizeParse, simpleStrtoul, strtoulEndp, strtoulLoop, strtoulLoopEnd, u32, isXDigit]
    · rw [if_neg hprinted, if_neg hprinted, List.nil_append, if_neg]
      intro h64
      exact absurd (h1 64 h64) (by decide)
  have hsmall : ¬ p.size < minPartSize := by
    simp only [minPartSize]
    omega
  have hend := @endPart_text more rest p.size (by simp only [sizeRemaining]; omega) h
  simp only [partParse, hdash, if_false, hsize, not_false_eq_true, true_and, hsmall, hoffset,
    namePart_text hp h2, optionPart_text hp.flags h3, hend]
  congr 2
  have hne : p.size ≠ sizeRemaining := by
    simp only [sizeRemaining]
    omega
  have hgiven : decide (foundOffset prev p ≠ offsetNotSpecified) = offsetPrinted prev p := by
    unfold foundOffset
    have hne' : p.offset ≠ offsetNotSpecified := by
      simp only [offsetNotSpecified]
      omega
    split_ifs with hprinted <;> simp [hprinted, hne']
  unfold reread
  congr 1
  · split_ifs <;> rfl
  · cases p.autoName <;> rfl
  · rw [hgiven]
    simp [hne]

end Text

-- ============================================================================
-- The partitions of a device
-- ============================================================================

section Parts

variable {flash : Flash} {id : MtdIds}

/-- The check looks at the size and the offset only. -/
theorem partValidate_rename {p : PartInfo} (h : partValidate flash id p = some p)
    (hsize : p.size ≠ sizeRemaining) (name : List UInt8) (given : Bool) :
    partValidate flash id { p with name, given } = some { p with name, given } := by
  have hsame : partValidateEraseblock flash id { p with name, given } =
      partValidateEraseblock flash id p := rfl
  unfold partValidate at h ⊢
  simp only [hsize, if_false, hsame] at h ⊢
  split_ifs at h ⊢
  rfl

/-- A partition with a size of its own is not changed by the check. -/
theorem partValidate_eq {p p' : PartInfo} (h : partValidate flash id p = some p')
    (hsize : p.size ≠ sizeRemaining) : p' = p := by
  unfold partValidate at h
  simp only [hsize, if_false] at h
  split_ifs at h
  exact (Option.some.inj h).symm

/-- What the loop of `device_parse` makes of a printed partition: its offset is known by
    now, its name was made up before. -/
def resolved (prev : Option PartInfo) (p : PartInfo) : PartInfo :=
  { p with
    name := if p.autoName then autoPartName p.size (foundOffset prev p) else p.name
    given := offsetPrinted prev p }

def resolvedParts : Option PartInfo → List PartInfo → List PartInfo
  | _, [] => []
  | prev, p :: ps => resolved prev p :: resolvedParts (some p) ps

/-- Where the next partition starts if its offset is left out. -/
def runningOffset : Option PartInfo → Nat
  | none => 0
  | some prev => u32 (prev.offset + prev.size)

/-- An offset that is not printed is the running one. -/
theorem runningOffset_of_not_printed {prev : Option PartInfo} {p : PartInfo}
    (h : offsetPrinted prev p = false) : runningOffset prev = p.offset := by
  cases prev with
  | none =>
    have h0 : p.offset = 0 := by simpa [offsetPrinted] using h
    exact h0.symm
  | some prev => simpa [offsetPrinted, runningOffset] using h

/-- **Step lemma for the definitions of a device.** -/
theorem reread_resolved {prev : Option PartInfo} {p : PartInfo} (hp : WellFormed p) :
    (if (reread prev p).offset = offsetNotSpecified then
      { reread prev p with offset := runningOffset prev } else reread prev p) = resolved prev p := by
  have hne : p.offset ≠ offsetNotSpecified := Nat.ne_of_lt hp.offset
  by_cases hprinted : offsetPrinted prev p = true
  · have hfound : foundOffset prev p = p.offset := if_pos hprinted
    simp only [reread, resolved, hfound, hne, if_false]
  · have hfound : foundOffset prev p = offsetNotSpecified := if_neg hprinted
    have hrun := runningOffset_of_not_printed (Bool.not_eq_true _ ▸ hprinted)
    simp only [reread, resolved, hfound, if_true, hrun]

/-- The printed partitions of a device are read back.  Induction on the partitions. -/
theorem partsParse_pieces {parts : List PartInfo} (hwf : ∀ p ∈ parts, WellFormed p)
    (hvalid : ∀ p ∈ parts, partValidate flash id p = some p) {rest : List UInt8}
    (hrest : ∀ c ∈ rest.head?, c = 59) {prev : Option PartInfo} {fuel : Nat}
    (hfuel : parts.length < fuel) :
    partsParse flash id fuel ((partsPieces prev parts).flatten ++ rest) (runningOffset prev) =
      some (resolvedParts prev parts, rest) := by
  induction parts generalizing prev fuel with
  | nil =>
    obtain ⟨fuel, rfl⟩ : ∃ f, fuel = f + 1 := ⟨fuel - 1, by simp at hfuel; omega⟩
    have hend : rest = [] ∨ rest.head? = some 59 := by
      cases rest with
      | nil => exact .inl rfl
      | cons c cs => exact .inr (by rw [hrest c rfl]; rfl)
    simp only [partsPieces, List.flatten_nil, List.nil_append, partsParse, hend, if_true,
      resolvedParts]
  | cons p ps ih =>
    obtain ⟨fuel, rfl⟩ : ∃ f, fuel = f + 1 := ⟨fuel - 1, by simp at hfuel; omega⟩
    have hp := hwf p (List.mem_cons_self ..)
    have hsize := hp.size
    simp only [minPartSize] at hsize
    have hparse := @partParse_pieces p prev (decide (ps ≠ []))
      ((partsPieces (some p) ps).flatten ++ rest) hp (by
        intro hmore
        have hnil : ps = [] := by simpa using hmore
        rw [hnil]
        exact hrest)
    have htext : (partsPieces prev (p :: ps)).flatten ++ rest =
        (partPieces prev p (decide (ps ≠ []))).flatten ++
          ((partsPieces (some p) ps).flatten ++ rest) := by
      simp only [partsPieces, List.flatten_append, List.append_assoc]
    have hstart : ¬ ((partPieces prev p (decide (ps ≠ []))).flatten ++
          ((partsPieces (some p) ps).flatten ++ rest) = [] ∨
        ((partPieces prev p (decide (ps ≠ []))).flatten ++
          ((partsPieces (some p) ps).flatten ++ rest)).head? = some 59) := by
      obtain ⟨d, hd, ds, hds⟩ := memsizeFormat_head (show 0 < p.size by omega)
      rw [partPieces_flatten, hds, List.cons_append, List.head?_cons]
      rintro (h | h)
      · cases h
      · have hd' : digit d = 59 := Option.some.inj h
        have h59 : (digit d).toNat = 59 := congrArg UInt8.toNat hd'
        have := digit_toNat hd
        omega
    have hval : partValidate flash id (resolved prev p) = some (resolved prev p) :=
      partValidate_rename (hvalid p (List.mem_cons_self ..)) (by simp only [sizeRemaining] at *; omega)
        _ _
    have hnext := @ih (fun q hq => hwf q (List.mem_cons_of_mem _ hq))
      (fun q hq => hvalid q (List.mem_cons_of_mem _ hq)) (some p) fuel (by simp at hfuel; omega)
    have hrun : u32 ((resolved prev p).offset + (resolved prev p).size) = runningOffset (some p) :=
      rfl
    rw [htext, partsParse, if_neg hstart, hparse]
    simp only [reread_resolved hp, hval, hrun, hnext, Option.map_some, resolvedParts]

end Parts

-- ============================================================================
-- Sorting by offset
-- ============================================================================

/-- Ordered by offset, and one partition at most at offset 0. -/
def Sorted (ps : List PartInfo) : Prop :=
  ps.Pairwise fun p q => p.offset ≤ q.offset ∧ q.offset ≠ 0

section Sorting

variable {ps ps' parts : List PartInfo} {part : PartInfo}

/-- A partition goes before those at its offset and behind the others. -/
theorem partSortAdd_spec (hs : Sorted ps) (h : partSortAdd ps part = some ps') :
    Sorted ps' ∧ ps'.Perm (part :: ps) ∧
      ∀ o, ps'.filter (·.offset = o) =
        (if part.offset = o then [part] else []) ++ ps.filter (·.offset = o) := by
  induction ps generalizing ps' with
  | nil =>
    obtain rfl := Option.some.inj h
    exact ⟨List.pairwise_singleton .., List.Perm.refl _, fun o => by simp [List.filter_cons]⟩
  | cons pi ps ih =>
    obtain ⟨hpi, hs'⟩ := List.pairwise_cons.mp hs
    rw [partSortAdd] at h
    split_ifs at h with hzero hle
    · -- put in before `pi`
      obtain rfl := Option.some.inj h
      refine ⟨List.pairwise_cons.mpr ⟨?_, hs⟩, List.Perm.refl _, ?_⟩
      · intro q hq
        rcases List.mem_cons.mp hq with rfl | hq
        · exact ⟨hle, by omega⟩
        · have := hpi q hq
          exact ⟨by omega, this.2⟩
      · intro o
        rw [List.filter_cons]
        split_ifs <;> simp_all
    · obtain ⟨qs, hqs, rfl⟩ := Option.map_eq_some_iff.mp h
      obtain ⟨hsorted, hperm, hfilter⟩ := ih hs' hqs
      refine ⟨List.pairwise_cons.mpr ⟨?_, hsorted⟩,
        (hperm.cons pi).trans (List.Perm.swap part pi ps), ?_⟩
      · intro q hq
        rcases List.mem_cons.mp (hperm.subset hq) with rfl | hq
        · exact ⟨by omega, by omega⟩
        · exact hpi q hq
      · intro o
        rw [List.filter_cons, hfilter o, List.filter_cons]
        by_cases ho : pi.offset = o
        · have hne : part.offset ≠ o := by omega
          simp [ho, hne]
        · simp [ho]

theorem exists_partSortAdd (h0 : part.offset = 0 → ∀ q ∈ ps, q.offset ≠ 0) :
    ∃ ps', partSortAdd ps part = some ps' := by
  induction ps with
  | nil => exact ⟨_, rfl⟩
  | cons pi ps ih =>
    rw [partSortAdd]
    split_ifs with hzero hle
    · exact absurd hzero.2 (h0 (hzero.1.trans hzero.2) pi (List.mem_cons_self ..))
    · exact ⟨_, rfl⟩
    · obtain ⟨qs, hqs⟩ := ih fun hz q hq => h0 hz q (List.mem_cons_of_mem _ hq)
      exact ⟨_, by rw [hqs]; rfl⟩

/-- Adding one by one turns each run of equal offsets round. -/
theorem partsSortAdd_spec (hs : Sorted ps) (h : partsSortAdd ps parts = some ps') :
    Sorted ps' ∧ ps'.Perm (parts ++ ps) ∧
      ∀ o, ps'.filter (·.offset = o) =
        (parts.filter (·.offset = o)).reverse ++ ps.filter (·.offset = o) := by
  induction parts generalizing ps with
  | nil =>
    obtain rfl := Option.some.inj h
    exact ⟨hs, List.Perm.refl _, fun _ => rfl⟩
  | cons part parts ih =>
    obtain ⟨qs, hqs, h⟩ := Option.bind_eq_some_iff.mp h
    obtain ⟨hs1, hp1, hf1⟩ := partSortAdd_spec hs hqs
    obtain ⟨hs2, hp2, hf2⟩ := ih hs1 h
    refine ⟨hs2, ?_, ?_⟩
    · refine hp2.trans ((hp1.append_left parts).trans ?_)
      exact List.perm_middle
    · intro o
      rw [hf2 o, hf1 o, List.filter_cons]
      by_cases ho : part.offset = o <;> simp [ho]

theorem exists_partsSortAdd (hs : Sorted ps) (hparts : parts.Pairwise fun _ q => q.offset ≠ 0)
    (h0 : ∀ p ∈ parts, p.offset = 0 → ∀ q ∈ ps, q.offset ≠ 0) :
    ∃ ps', partsSortAdd ps parts = some ps' := by
  induction parts generalizing ps with
  | nil => exact ⟨_, rfl⟩
  | cons part parts ih =>
    obtain ⟨hfirst, hrest⟩ := List.pairwise_cons.mp hparts
    obtain ⟨qs, hqs⟩ := exists_partSortAdd (h0 part (List.mem_cons_self ..))
    obtain ⟨hsorted, hperm, -⟩ := partSortAdd_spec hs hqs
    obtain ⟨ps', h⟩ := ih hsorted hrest fun p hp hz => absurd hz (hfirst p hp)
    exact ⟨ps', by rw [partsSortAdd, hqs]; exact h⟩

end Sorting

-- ============================================================================
-- Devices
-- ============================================================================

/-- What holds of each device of the list, whatever the commands were. -/
structure DeviceOk (flash : Flash) (ids : List MtdIds) (d : MtdDevice) : Prop where
  /-- The first entry of `mtdids` with this tag. -/
  id : idFindByMtdId ids d.id.mtdId = some d.id
  tag : 58 ∉ d.id.mtdId
  ne : d.parts ≠ []
  sorted : Sorted d.parts
  parts : ∀ p ∈ d.parts, p.given = true → WellFormed p ∧ partValidate flash d.id p = some p

/-- Two entries for one chip. -/
def SameChip (d e : MtdDevice) : Prop := d.id.type = e.id.type ∧ d.id.num = e.id.num

structure Built (flash : Flash) (s : MtdState) : Prop where
  devices : ∀ d ∈ s.devices, DeviceOk flash s.ids d
  distinct : s.devices.Pairwise fun d e => ¬ SameChip d e

/-- Every partition has been defined with a size and an offset. -/
def AllGiven (devices : List MtdDevice) : Prop := ∀ d ∈ devices, ∀ p ∈ d.parts, p.given = true

instance (devices : List MtdDevice) : Decidable (AllGiven devices) :=
  inferInstanceAs (Decidable (∀ d ∈ devices, ∀ p ∈ d.parts, _))

/-- What `device_parse` makes of a printed device. -/
def rereadDevice (d : MtdDevice) : MtdDevice :=
  ⟨d.id, (partsSortAdd [] (resolvedParts none d.parts)).getD []⟩

section Devices

variable {flash : Flash} {ids : List MtdIds}

theorem resolvedParts_offsets (prev : Option PartInfo) (ps : List PartInfo) :
    (resolvedParts prev ps).map PartInfo.offset = ps.map PartInfo.offset := by
  induction ps generalizing prev with
  | nil => rfl
  | cons p ps ih =>
    rw [resolvedParts, List.map_cons, List.map_cons, ih]
    rfl

/-- The partitions of a device are added without an error. -/
theorem partsSortAdd_resolved {ps : List PartInfo} (hs : Sorted ps) :
    ∃ qs, partsSortAdd [] (resolvedParts none ps) = some qs := by
  refine exists_partsSortAdd List.Pairwise.nil ?_ (fun _ _ _ _ h => by cases h)
  have hoffs : (ps.map PartInfo.offset).Pairwise fun _ o => o ≠ 0 :=
    List.pairwise_map.mpr (hs.imp fun h => h.2)
  rw [← resolvedParts_offsets none ps] at hoffs
  exact List.pairwise_map.mp hoffs

theorem partsPieces_length (prev : Option PartInfo) {ps : List PartInfo}
    (hwf : ∀ p ∈ ps, WellFormed p) : ps.length ≤ (partsPieces prev ps).flatten.length := by
  induction ps generalizing prev with
  | nil => exact Nat.zero_le _
  | cons p ps ih =>
    have hsize := (hwf p (List.mem_cons_self ..)).size
    simp only [minPartSize] at hsize
    obtain ⟨d, -, ds, hds⟩ := memsizeFormat_head (show 0 < p.size by omega)
    have hrest := ih (some p) fun q hq => hwf q (List.mem_cons_of_mem _ hq)
    have hone : 1 ≤ (partPieces prev p (decide (ps ≠ []))).flatten.length := by
      simp only [partPieces, hds, List.flatten_append, List.length_append, List.flatten_singleton,
        List.length_cons]
      omega
    simp only [partsPieces, List.flatten_append, List.length_append, List.length_cons]
    omega

theorem deviceFind_eq_none {devices : List MtdDevice} {d : MtdDevice}
    (h : ∀ e ∈ devices, ¬ SameChip e d) : deviceFind devices d.id.type d.id.num = none := by
  rw [deviceFind, List.find?_eq_none]
  intro e he hsame
  simp only [Bool.and_eq_true, decide_eq_true_eq] at hsame
  exact h e he hsame

/-- A printed device is read back. -/
theorem deviceParse_pieces {d : MtdDevice} (hd : DeviceOk flash ids d)
    (hgiven : ∀ p ∈ d.parts, p.given = true) {devices : List MtdDevice}
    (hnew : ∀ e ∈ devices, ¬ SameChip e d) {rest : List UInt8}
    (hrest : ∀ c ∈ rest.head?, c = 59) :
    deviceParse flash ids devices
        (d.id.mtdId ++ 58 :: ((partsPieces none d.parts).flatten ++ rest)) =
      some (rereadDevice d, rest.tail) := by
  have hall : ∀ c ∈ d.id.mtdId, decide (c ≠ 58) = true :=
    fun c hc => decide_eq_true fun he => hd.tag (he ▸ hc)
  have htake : (d.id.mtdId ++ 58 :: ((partsPieces none d.parts).flatten ++ rest)).takeWhile
      (· ≠ 58) = d.id.mtdId := by
    rw [List.takeWhile_append_of_pos hall]
    simp
  have hdrop : (d.id.mtdId ++ 58 :: ((partsPieces none d.parts).flatten ++ rest)).dropWhile
      (· ≠ 58) = 58 :: ((partsPieces none d.parts).flatten ++ rest) := by
    rw [List.dropWhile_append_of_pos hall]
    simp
  have hfind := deviceFind_eq_none hnew
  have hwf : ∀ p ∈ d.parts, WellFormed p := fun p hp => (hd.parts p hp (hgiven p hp)).1
  have hlen := partsPieces_length none hwf
  have hparts := @partsParse_pieces flash d.id d.parts hwf
    (fun p hp => (hd.parts p hp (hgiven p hp)).2) rest hrest none
    (((partsPieces none d.parts).flatten ++ rest).length + 1) (by
      rw [List.length_append]
      omega)
  obtain ⟨qs, hqs⟩ := partsSortAdd_resolved hd.sorted
  have hne : resolvedParts none d.parts ≠ [] := by
    have hparts := hd.ne
    cases h : d.parts with
    | nil => exact absurd h hparts
    | cons p ps => simp [resolvedParts]
  rw [runningOffset] at hparts
  simp only [deviceParse, hdrop, htake, hd.id, hfind, Option.bind_none, hparts, hne, if_false, hqs,
    Option.map_some, rereadDevice, Option.getD_some]

/-- The printed devices are read back.  Induction on the devices. -/
theorem devicesParse_pieces {devices acc : List MtdDevice}
    (hok : ∀ d ∈ devices, DeviceOk flash ids d) (hgiven : AllGiven devices)
    (hdistinct : devices.Pairwise fun d e => ¬ SameChip d e)
    (hnew : ∀ e ∈ acc, ∀ d ∈ devices, ¬ SameChip e d) {fuel : Nat}
    (hfuel : devices.length < fuel) :
    devicesParse flash ids fuel acc (devicesPieces devices).flatten =
      some (acc ++ devices.map rereadDevice) := by
  induction devices generalizing acc fuel with
  | nil =>
    obtain ⟨fuel, rfl⟩ : ∃ f, fuel = f + 1 := ⟨fuel - 1, by simp at hfuel; omega⟩
    simp [devicesPieces, devicesParse]
  | cons d devices ih =>
    obtain ⟨fuel, rfl⟩ : ∃ f, fuel = f + 1 := ⟨fuel - 1, by simp at hfuel; omega⟩
    obtain ⟨hd, hdistinct⟩ := List.pairwise_cons.mp hdistinct
    -- the text from the next device on, with its separator
    have htext : (devicesPieces (d :: devices)).flatten =
        d.id.mtdId ++ 58 :: ((partsPieces none d.parts).flatten ++
          ((if devices ≠ [] then [59] else []) ++ (devicesPieces devices).flatten)) := by
      simp only [devicesPieces, List.flatten_append, List.flatten_singleton]
      split_ifs <;> simp
    have hhead : ∀ c ∈ ((if devices ≠ [] then [59] else []) ++
        (devicesPieces devices).flatten).head?, c = (59 : UInt8) := by
      intro c hc
      split_ifs at hc with hne
      · simpa [eq_comm] using hc
      · rw [not_not.mp hne] at hc
        cases hc
    have htail : ((if devices ≠ [] then [59] else []) ++ (devicesPieces devices).flatten).tail =
        (devicesPieces devices).flatten := by
      split_ifs with hne
      · rfl
      · rw [not_not.mp hne]
        rfl
    have hparse := @deviceParse_pieces flash ids d (hok d (List.mem_cons_self ..))
      (hgiven d (List.mem_cons_self ..)) acc (fun e he => hnew e he d (List.mem_cons_self ..)) _ hhead
    have hfind : deviceFind acc (rereadDevice d).id.type (rereadDevice d).id.num = none :=
      deviceFind_eq_none fun e he => hnew e he d (List.mem_cons_self ..)
    have hnext := @ih (acc ++ [rereadDevice d]) (fun e he => hok e (List.mem_cons_of_mem _ he))
      (fun e he => hgiven e (List.mem_cons_of_mem _ he)) hdistinct (by
        intro e he f hf
        rcases List.mem_append.mp he with he | he
        · exact hnew e he f (List.mem_cons_of_mem _ hf)
        · obtain rfl := List.mem_singleton.mp he
          exact hd f hf) fuel (by simp at hfuel; omega)
    have hne : (devicesPieces (d :: devices)).flatten ≠ [] := by
      rw [htext]
      simp
    rw [devicesParse, if_neg hne, htext, hparse]
    simp only [hfind, Option.isSome_none, Bool.false_eq_true, if_false, htail, hnext,
      List.append_assoc, List.singleton_append, List.map_cons]

theorem copyPieces_flatten {maxlen : Nat} {pieces : List (List UInt8)} {t : List UInt8}
    (h : copyPieces maxlen pieces = some t) : t = pieces.flatten := by
  induction pieces generalizing maxlen t with
  | nil => exact (Option.some.inj h).symm
  | cons piece pieces ih =>
    rw [copyPieces] at h
    split_ifs at h
    obtain ⟨u, hu, rfl⟩ := Option.map_eq_some_iff.mp h
    rw [ih hu, List.flatten_cons]

/-- **What comes back of a printed list.** -/
theorem parseMtdparts_generate {s : MtdState} (hb : Built flash s) (hgiven : AllGiven s.devices)
    {text : List UInt8} (htext : generateMtdparts s.devices = some text) :
    (parseMtdparts flash s.ids text).getD [] = s.devices.map rereadDevice := by
  unfold generateMtdparts at htext
  split_ifs at htext with hnil
  · obtain rfl := Option.some.inj htext
    rw [hnil]
    rfl
  · obtain ⟨t, ht, rfl⟩ := Option.map_eq_some_iff.mp htext
    have ht := copyPieces_flatten ht
    have hpre : mtdpartsPrefix.isPrefixOf (mtdpartsPrefix ++ t) = true :=
      List.isPrefixOf_iff_prefix.mpr (List.prefix_append ..)
    have hdrop : (mtdpartsPrefix ++ t).drop mtdpartsPrefix.length = t := List.drop_left ..
    have hlen : ∀ devices : List MtdDevice, devices.length ≤ (devicesPieces devices).flatten.length := by
      intro devices
      induction devices with
      | nil => exact Nat.zero_le _
      | cons d devices ih =>
        simp only [devicesPieces, List.flatten_append, List.length_append, List.flatten_singleton,
          List.length_cons]
        omega
    have hlen := hlen s.devices
    have hpos : 0 < s.devices.length := List.length_pos_iff.mpr hnil
    have hne : t ≠ [] := by
      rw [ht]
      exact List.ne_nil_of_length_pos (by omega)
    have hparse := @devicesParse_pieces flash s.ids s.devices [] hb.devices hgiven hb.distinct
      (fun e he => by cases he) (t.length + 1) (by rw [ht]; omega)
    rw [← ht, List.nil_append] at hparse
    simp only [parseMtdparts, hpre, if_true, hdrop, hne, if_false, hparse, Option.getD_some]

end Devices

end Uboot.Common.CmdMtdparts
