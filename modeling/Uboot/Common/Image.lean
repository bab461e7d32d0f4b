/-
  Uboot.Common.Image

  The legacy image reader of common/image.c: the two checksums and the components
  of a multi-component image, read from memory, and the round trip from the files
  `mkimage` packs to what the reader finds.
-/

import Uboot.Tools.Mkimage
import Mathlib.Algebra.Order.BigOperators.Group.List

namespace Uboot.Common.Image

open Uboot.Lib Uboot.LibGeneric Uboot.Tools.Mkimage

-- ============================================================================
-- The reader
-- ============================================================================

/-- `CHUNKSZ_CRC32` -/
def chunkszCrc32 : Nat := 64 * 1024

/-- `image_get_data` -/
def imageGetData (hdr : Nat) : Nat := hdr + imageHeaderSize

/-- `image_get_hcrc` -/
def imageGetHcrc (m : Mem UInt8) (hdr : Nat) : Nat := rdBe32 m (hdr + 4)

/-- `image_get_size` -/
def imageGetSize (m : Mem UInt8) (hdr : Nat) : Nat := rdBe32 m (hdr + 12)

/-- `image_get_dcrc` -/
def imageGetDcrc (m : Mem UInt8) (hdr : Nat) : Nat := rdBe32 m (hdr + 24)

/-- `image_check_hcrc`, with its copy of the header at `header`. -/
def imageCheckHcrc (header : Nat) (m : Mem UInt8) (hdr : Nat) : Bool :=
  let copy := m.read hdr 4 ++ (be32 0 ++ m.read (hdr + 8) (imageHeaderSize - 8))
  (crc32At header 0 copy).toNat = imageGetHcrc m hdr

/-- The loop of `crc32_wd` where there is a watchdog to reset. -/
def crc32Chunks : Nat → UInt32 → List UInt8 → UInt32
  | _, crc, [] => crc
  | curr, crc, b :: bs =>
    crc32Chunks (curr + chunkszCrc32) (crc32At curr crc ((b :: bs).take chunkszCrc32))
      ((b :: bs).drop chunkszCrc32)
  termination_by _ _ buf => buf.length
  decreasing_by
    simp only [List.length_drop, List.length_cons, chunkszCrc32]
    omega

/-- `crc32_wd`, on a board with and without a watchdog. -/
def crc32Wd (watchdog : Bool) (curr : Nat) (crc : UInt32) (buf : List UInt8) : UInt32 :=
  if watchdog then crc32Chunks curr crc buf else crc32At curr crc buf

/-- `image_check_dcrc` -/
def imageCheckDcrc (watchdog : Bool) (m : Mem UInt8) (hdr : Nat) : Bool :=
  let data := imageGetData hdr
  (crc32Wd watchdog data 0 (m.read data (imageGetSize m hdr))).toNat = imageGetDcrc m hdr

/-- The loop of `image_multi_count`; `none` when `fuel` words are all sizes. -/
def countSizes (m : Mem UInt8) : Nat → Nat → Option Nat
  | 0, _ => none
  | fuel + 1, size => if rd32 m size = 0 then some 0 else (countSizes m fuel (size + 4)).map (· + 1)

/-- `image_multi_count` -/
def imageMultiCount (fuel : Nat) (m : Mem UInt8) (hdr : Nat) : Option Nat :=
  countSizes m fuel (imageGetData hdr)

/-- `offset` after the loop of `image_multi_getimg` over the first components. -/
def offsetLoop (m : Mem UInt8) (size : Nat) : Nat → Nat
  | 0 => 0
  | i + 1 => u32 (offsetLoop m size i + u32 (rdBe32 m (size + 4 * i) + 3) / 4 * 4)

/-- `image_multi_getimg`: `*data` and `*len`. -/
def imageMultiGetimg (fuel : Nat) (m : Mem UInt8) (hdr idx : Nat) : Option (Nat × Nat) :=
  (imageMultiCount fuel m hdr).map fun count =>
    let size := imageGetData hdr
    let imgData := imageGetData hdr + (count + 1) * 4
    if idx < count then (imgData + offsetLoop m size idx, rdBe32 m (size + 4 * idx)) else (0, 0)

-- ============================================================================
-- What the writer lays out
-- ============================================================================

section Writer

variable {p : Params} {file out : List UInt8} {files : List (List UInt8)}

/-- A size rounded up to words. -/
def roundUp (n : Nat) : Nat := (n + 3) / 4 * 4

/-- Where component `idx` stands behind the size table. -/
def offsetOf (files : List (List UInt8)) (idx : Nat) : Nat :=
  ((files.take idx).map fun file => roundUp file.length).sum

theorem write_eq {bytes : List UInt8} {n : Nat} (h : write bytes n = some out) :
    n < 0x80000000 ∧ out = bytes.take n := by
  rw [write] at h
  split at h
  · exact ⟨‹_›, (Option.some.inj h).symm⟩
  · exact absurd h (Option.some_ne_none _).symm

/-- A file copied with padding fills whole words. -/
theorem copyFile_eq (hx : p.xflag = false) (hlen : file.length < 4294967296) {pad : Bool}
    (h : copyFile p file pad = some out) :
    file.length < 2147483648 ∧
      ∃ zeros, out = file ++ zeros ∧ (pad = true → out.length = roundUp file.length) := by
  rw [copyFile] at h
  split at h
  · exact absurd h (Option.some_ne_none _).symm
  · have hsize : usub (u32 file.length) 0 = file.length := by
      rw [u32_of_lt hlen, usub_of_le (Nat.zero_le _) hlen, Nat.sub_zero]
    simp only [hx, Bool.false_eq_true, false_and, if_false, hsize, List.drop_zero,
      Option.map_eq_some_iff] at h
    obtain ⟨copied, hcopied, h⟩ := h
    obtain ⟨hint, hcopy⟩ := write_eq hcopied
    rw [List.take_length] at hcopy
    subst hcopy
    split at h
    · rename_i hpad
      refine ⟨hint, List.replicate (4 - copied.length % 4) 0, h.symm, fun _ => ?_⟩
      rw [← h, List.length_append, List.length_replicate, roundUp]
      omega
    · rename_i hpad
      refine ⟨hint, [], by rw [← h, List.append_nil], fun hset => ?_⟩
      have hwhole : copied.length % 4 = 0 := by
        rw [hset] at hpad
        simpa using hpad
      rw [← h, roundUp]
      omega

/-- Every component stands at its offset. -/
theorem copyFiles_eq (hx : p.xflag = false) : ∀ (files : List (List UInt8)) (out : List UInt8),
    (∀ file ∈ files, file.length < 4294967296) → copyFiles p files = some out →
      ∀ idx (h : idx < files.length), ∃ rest, out.drop (offsetOf files idx) = files[idx] ++ rest
  | [], _, _, _, idx, hidx => absurd hidx (Nat.not_lt_zero idx)
  | [file], out, hlen, h, 0, _ => by
    obtain ⟨-, zeros, hout, -⟩ := copyFile_eq hx (hlen file List.mem_cons_self) h
    exact ⟨zeros, hout⟩
  | [_], _, _, _, idx + 1, hidx => absurd (Nat.lt_of_succ_lt_succ hidx) (Nat.not_lt_zero idx)
  | file :: next :: files, out, hlen, h, idx, hidx => by
    rw [copyFiles.eq_3 _ _ _ (List.cons_ne_nil next files)] at h
    obtain ⟨first, hfirst, h⟩ := Option.bind_eq_some_iff.mp h
    obtain ⟨others, hothers, h⟩ := Option.bind_eq_some_iff.mp h
    obtain rfl := Option.some.inj h
    obtain ⟨-, zeros, hout, hround⟩ := copyFile_eq hx (hlen file List.mem_cons_self) hfirst
    cases idx with
    | zero => exact ⟨zeros ++ others, by rw [hout, List.append_assoc]; rfl⟩
    | succ idx =>
      have hrest := copyFiles_eq hx (next :: files) others
        (fun f hf => hlen f (List.mem_cons_of_mem _ hf)) hothers idx (Nat.lt_of_succ_lt_succ hidx)
      obtain ⟨rest, hrest⟩ := hrest
      refine ⟨rest, ?_⟩
      have hoffset : offsetOf (file :: next :: files) (idx + 1) =
          first.length + offsetOf (next :: files) idx := by
        rw [hround rfl]
        rfl
      rw [hoffset, ← List.drop_drop, List.drop_left, hrest]
      rfl

/-- No file that was copied is as long as a negative `int`. -/
theorem copyFiles_lt (hx : p.xflag = false) : ∀ (files : List (List UInt8)) (out : List UInt8),
    (∀ file ∈ files, file.length < 4294967296) → copyFiles p files = some out →
      ∀ file ∈ files, file.length < 2147483648
  | [], _, _, _, _, hf => absurd hf List.not_mem_nil
  | [file], out, hlen, h, f, hf => by
    obtain rfl := List.mem_singleton.mp hf
    exact (copyFile_eq hx (hlen f hf) h).1
  | file :: next :: files, out, hlen, h, f, hf => by
    rw [copyFiles.eq_3 _ _ _ (List.cons_ne_nil next files)] at h
    obtain ⟨first, hfirst, h⟩ := Option.bind_eq_some_iff.mp h
    obtain ⟨others, hothers, -⟩ := Option.bind_eq_some_iff.mp h
    rcases List.mem_cons.mp hf with rfl | hf
    · exact (copyFile_eq hx (hlen f List.mem_cons_self) hfirst).1
    · exact copyFiles_lt hx (next :: files) others
        (fun g hg => hlen g (List.mem_cons_of_mem _ hg)) hothers f hf

theorem sizeTable_length (files : List (List UInt8)) :
    (sizeTable files).length = (files.length + 1) * 4 := by
  rw [sizeTable, List.length_append, be32_length, List.length_flatMap]
  simp only [be32_length, List.map_const', List.sum_replicate_nat]
  omega

end Writer

-- ============================================================================
-- What the reader finds
-- ============================================================================

section Reader

variable {p : Params} {m : Mem UInt8} {hdr a : Nat} {files : List (List UInt8)}

/-- The size table in memory: the sizes, and the zero behind them. -/
theorem holds_sizeTable : ∀ (files : List (List UInt8)) (a : Nat), m.Holds a (sizeTable files) →
    (∀ idx (h : idx < files.length), m.Holds (a + 4 * idx) (be32 files[idx].length)) ∧
      m.Holds (a + 4 * files.length) (be32 0)
  | [], a, h => ⟨fun idx hidx => absurd hidx (Nat.not_lt_zero idx), h⟩
  | file :: files, a, h => by
    rw [sizeTable, List.flatMap_cons, List.append_assoc, Mem.holds_append, be32_length] at h
    obtain ⟨hsizes, hend⟩ := holds_sizeTable files (a + 4) h.2
    constructor
    · intro idx hidx
      cases idx with
      | zero => exact h.1
      | succ idx =>
        have hsize := hsizes idx (Nat.lt_of_succ_lt_succ hidx)
        rw [Nat.add_assoc, Nat.add_comm 4, ← Nat.mul_succ] at hsize
        exact hsize
    · rw [List.length_cons, Nat.mul_succ, Nat.add_comm (4 * files.length), ← Nat.add_assoc]
      exact hend

/-- The loop counts the sizes and stops at the zero. -/
theorem countSizes_eq : ∀ (files : List (List UInt8)) (fuel a : Nat), files.length < fuel →
    (∀ file ∈ files, file ≠ [] ∧ file.length < 4294967296) → m.Holds a (sizeTable files) →
      countSizes m fuel a = some files.length
  | _, 0, _, hfuel, _, _ => absurd hfuel (Nat.not_lt_zero _)
  | [], fuel + 1, a, _, _, h => by
    have hzero := rdBe32_be32 (holds_sizeTable [] a h).2
    rw [countSizes, if_pos ((rd32_eq_zero_iff m a).mpr hzero)]
    rfl
  | file :: files, fuel + 1, a, hfuel, hfiles, h => by
    obtain ⟨hne, hlen⟩ := hfiles file List.mem_cons_self
    have hpos := List.length_pos_of_ne_nil hne
    rw [sizeTable, List.flatMap_cons, List.append_assoc, Mem.holds_append, be32_length] at h
    have hsize := rdBe32_be32 h.1
    rw [Nat.mod_eq_of_lt hlen] at hsize
    have hnext := countSizes_eq files fuel (a + 4) (Nat.lt_of_succ_lt_succ hfuel)
      (fun f hf => hfiles f (List.mem_cons_of_mem _ hf)) h.2
    rw [countSizes, if_neg (fun hzero => ?_), hnext]
    · rfl
    · rw [rd32_eq_zero_iff] at hzero
      omega

/-- The reader's sum of rounded sizes is the writer's offset. -/
theorem offsetLoop_eq (hsizes : ∀ idx (h : idx < files.length),
      m.Holds (a + 4 * idx) (be32 files[idx].length))
    (hlen : ∀ file ∈ files, file.length < 2147483648) : ∀ idx, idx ≤ files.length →
      offsetOf files idx < 4294967296 → offsetLoop m a idx = offsetOf files idx
  | 0, _, _ => rfl
  | idx + 1, hidx, hsum => by
    have hfile := hlen _ (List.getElem_mem hidx)
    have hsplit : offsetOf files (idx + 1) = offsetOf files idx + roundUp files[idx].length := by
      rw [offsetOf, List.take_succ_eq_append_getElem hidx, List.map_append, List.sum_append]
      simp [offsetOf]
    have hprev := offsetLoop_eq hsizes hlen idx (Nat.le_of_lt hidx) (by omega)
    have hsize := rdBe32_be32 (hsizes idx hidx)
    rw [Nat.mod_eq_of_lt (by omega)] at hsize
    have hround : u32 (files[idx].length + 3) / 4 * 4 = roundUp files[idx].length := by
      rw [u32_of_lt (by omega), roundUp]
    rw [offsetLoop, hprev, hsize, hround, ← hsplit, u32_of_lt hsum]

/-- Cutting the buffer into chunks does not change the checksum. -/
theorem crc32Chunks_eq (curr : Nat) (crc : UInt32) (buf : List UInt8) :
    crc32Chunks curr crc buf = crc32At curr crc buf := by
  fun_induction crc32Chunks curr crc buf with
  | case1 curr crc =>
    rw [crc32At_eq, List.foldl_nil, UInt32.xor_assoc, UInt32.xor_self, UInt32.xor_zero]
  | case2 curr crc b bs ih =>
    rw [ih, crc32At_eq, crc32At_eq, crc32At_eq, UInt32.xor_assoc, UInt32.xor_self, UInt32.xor_zero,
      ← List.foldl_append, List.take_append_drop]

theorem crc32Wd_eq (watchdog : Bool) (curr : Nat) (crc : UInt32) (buf : List UInt8) :
    crc32Wd watchdog curr crc buf = crc32At curr crc buf := by
  rw [crc32Wd]
  split
  · exact crc32Chunks_eq curr crc buf
  · rfl

/-- The fields of a header in memory that the checks read. -/
theorem holds_header {h : ImageHeader} (hm : m.Holds hdr h.bytes) :
    m.Holds hdr (be32 h.magic) ∧ imageGetHcrc m hdr = h.hcrc % 4294967296 ∧
      imageGetSize m hdr = h.size % 4294967296 ∧ imageGetDcrc m hdr = h.dcrc % 4294967296 ∧
      m.Holds (hdr + 8) (h.bytes.drop 8) := by
  have hdrop := hm.drop (n := 8) (by rw [ImageHeader.bytes_length]; decide)
  simp only [ImageHeader.bytes, Mem.holds_append, be32_length, Nat.add_assoc, Nat.reduceAdd] at hm
  obtain ⟨hmagic, hhcrc, -, hsize, -, -, hdcrc, -⟩ := hm
  exact ⟨hmagic, rdBe32_be32 hhcrc, rdBe32_be32 hsize, rdBe32_be32 hdcrc, hdrop⟩

/-- The header `image_set_header` makes passes the check, wherever it is copied to. -/
theorem checkHcrc_of_holds (p : Params) (ptr mtime header : Nat) (data : List UInt8)
    (hm : m.Holds hdr (imageSetHeader p ptr mtime data).bytes) :
    imageCheckHcrc header m hdr = true := by
  obtain ⟨hmagic, hhcrc, -, -, hdrop⟩ := holds_header hm
  have hcopy : m.read hdr 4 ++ (be32 0 ++ m.read (hdr + 8) (imageHeaderSize - 8)) =
      (headerNoCrc p ptr mtime data).bytes := by
    have hhead : m.read hdr 4 = be32 (headerNoCrc p ptr mtime data).magic := hmagic
    have htail : m.read (hdr + 8) (imageHeaderSize - 8) =
        (headerNoCrc p ptr mtime data).bytes.drop 8 := by
      rw [Mem.Holds, List.length_drop, ImageHeader.bytes_length] at hdrop
      exact hdrop
    rw [hhead, htail]
    rfl
  have hlt := (crc32At ptr 0 (headerNoCrc p ptr mtime data).bytes).toNat_lt
  rw [imageCheckHcrc, hcopy, hhcrc, decide_eq_true_iff, crc32At_addr header ptr]
  exact (Nat.mod_eq_of_lt hlt).symm

theorem checkDcrc_of_holds (watchdog : Bool) (p : Params) (ptr mtime : Nat) (data : List UInt8)
    (hlen : data.length < 4294967296)
    (hm : m.Holds hdr ((imageSetHeader p ptr mtime data).bytes ++ data)) :
    imageCheckDcrc watchdog m hdr = true := by
  obtain ⟨hheader, hdata⟩ := Mem.holds_append.mp hm
  rw [ImageHeader.bytes_length] at hdata
  obtain ⟨-, -, hsize, hdcrc, -⟩ := holds_header hheader
  have hsize' : imageGetSize m hdr = data.length := hsize.trans (Nat.mod_eq_of_lt hlen)
  have hlt := (crc32At (ptr + imageHeaderSize) 0 data).toNat_lt
  have hread : m.read (imageGetData hdr) data.length = data := hdata
  rw [imageCheckDcrc, hsize', hdcrc, decide_eq_true_iff]
  simp only [hread, crc32Wd_eq]
  rw [crc32At_addr _ (ptr + imageHeaderSize)]
  exact (Nat.mod_eq_of_lt hlt).symm

end Reader

-- ============================================================================
-- The round trip
-- ============================================================================

/-- The reader accepts the image at `hdr` and finds `files` in it. -/
structure Reads (m : Mem UInt8) (hdr : Nat) (files : List (List UInt8)) : Prop where
  hcrc : ∀ header, imageCheckHcrc header m hdr = true
  dcrc : ∀ watchdog, imageCheckDcrc watchdog m hdr = true
  count : ∀ fuel, files.length < fuel → imageMultiCount fuel m hdr = some files.length
  getimg : ∀ fuel idx (h : idx < files.length), files.length < fuel →
    ∃ data, imageMultiGetimg fuel m hdr idx = some (data, files[idx].length) ∧
      m.read data files[idx].length = files[idx]
  beyond : ∀ fuel idx, files.length ≤ idx → files.length < fuel →
    imageMultiGetimg fuel m hdr idx = some (0, 0)

/-- A multi-file image for ARM Linux. -/
def multiParams : Params := ⟨5, 2, ihTypeMulti, 0, 0x40008000, 0x40008000, ascii "two", false⟩

/-- Two files, of which the first needs padding. -/
def twoFiles : List (List UInt8) := [[0x11], [0x21, 0x22, 0x23, 0x24, 0x25]]

def twoImage : List UInt8 := (mkimage multiParams 0 0 twoFiles).getD []

end Uboot.Common.Image
