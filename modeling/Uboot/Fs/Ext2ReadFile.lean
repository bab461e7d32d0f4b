/-
  Uboot.Fs.Ext2ReadFile

  What `ext2fs_read_file` leaves in the buffer: the blocks of the file one behind the other, each
  with the bytes that belong there, as long as the numbers it computes with do not overflow.  From
  it, when the caller gets the part of the file that was asked for, and no more.
-/

import Uboot.Fs.Ext2BlockMap

namespace Uboot.Fs.Ext2

open Uboot.Lib

-- ============================================================================
-- Reading from the device
-- ============================================================================

section Devread

variable {e : Env} {k sector : Nat} {ram : Ram} {buf : Nat}

theorem blockRead_ok (hok : ∀ k, e.ok k = true) (cnt : Nat) :
    e.blockRead k sector cnt = e.bytes.read (512 * sector) (512 * cnt) := if_pos (hok k)

/-- From a sector boundary on, all bytes are read. -/
theorem devreadAligned_stored (hok : ∀ k, e.ok k = true) (k sector n : Nat) (ram : Ram) (buf : Nat) :
    (devreadAligned e k sector n ram buf).status = .ok ∧
      ram.Stored buf (e.bytes.read (512 * sector) n) (devreadAligned e k sector n ram buf).ram := by
  rw [devreadAligned]
  simp only [blockRead_ok hok, hok, sectorSize]
  split
  next hzero =>
    subst hzero
    exact ⟨rfl, ram.stored_nil buf⟩
  split
  next hsmall =>
    rw [Mem.take_read _ (by omega)]
    exact ⟨rfl, ram.stored_store _ _⟩
  rw [if_neg (by decide)]
  split
  next hrest =>
    have hlen : (e.bytes.read (512 * sector) (512 * (n / 512))).length = 512 * (n / 512) := Mem.read_length _
    have hstored := (ram.stored_store buf (e.bytes.read (512 * sector) (512 * (n / 512)))).append
      (Ram.stored_store _ _ (e.bytes.read (512 * sector + 512 * (n / 512)) (n % 512)))
    rw [← Mem.read_add, Nat.div_add_mod, hlen] at hstored
    rw [if_neg (by decide), Mem.take_read _ (by omega), Nat.mul_add]
    exact ⟨rfl, hstored⟩
  next hrest =>
    have hn : 512 * (n / 512) = n := by omega
    rw [hn]
    exact ⟨rfl, ram.stored_store _ _⟩

/-- Bytes of a stretch of sectors that lies in the partition. -/
theorem ext2fsDevread_stored (hok : ∀ k, e.ok k = true) (k : Nat) (ram : Ram) (buf : Nat) {n off len : Nat}
    (hpos : 0 < off + len) (hoff : off + len ≤ 512 * n) (hin : sector + n ≤ e.size) (hreach : sector < 2147483648) :
    (ext2fsDevread e k (toInt sector) off len ram buf).status = .ok ∧
      ram.Stored buf (e.bytes.read (512 * sector + off) len)
        (ext2fsDevread e k (toInt sector) off len ram buf).ram := by
  rw [toInt_of_lt hreach, ext2fsDevread]
  dsimp only
  have hlast : ¬ ((sector : Int) < 0 ∨ (sector : Int) + ((off : Int) + len - 1) / sectorSize < 0 ∨
      (e.size : Int) ≤ sector + ((off : Int) + len - 1) / sectorSize) := by
    simp only [sectorSize]
    omega
  rw [if_neg hlast]
  simp only [Int.toNat_natCast, sectorSize, hok, blockRead_ok hok]
  split
  next hunaligned =>
    rw [if_neg (by decide), if_neg (by omega)]
    have hrest : off % 512 + (512 - off % 512) = 512 := by omega
    generalize hfirst : min (512 - off % 512) len = first
    have hpiece : ((e.bytes.read (512 * (sector + off / 512)) (512 * 1)).drop (off % 512)).take first =
        e.bytes.read (512 * sector + off) first := by
      rw [Mem.drop_read _ (by omega), Mem.take_read _ (by omega)]
      congr 1
      omega
    have hnext : 512 * (sector + off / 512 + 1) = 512 * sector + off + first ∨ len - first = 0 := by omega
    rw [hpiece]
    have hbytes : e.bytes.read (512 * sector + off) first ++
        e.bytes.read (512 * (sector + off / 512 + 1)) (len - first) = e.bytes.read (512 * sector + off) len := by
      obtain heq | heq := hnext
      · rw [heq, ← Mem.read_add, Nat.add_sub_cancel' (by omega)]
      · rw [heq, show first = len by omega]
        exact List.append_nil _
    obtain ⟨hstatus, hstored⟩ := devreadAligned_stored hok (k + 1) (sector + off / 512 + 1) (len - first)
      (ram.store buf (e.bytes.read (512 * sector + off) first)) (buf + first)
    have hboth := (ram.stored_store buf (e.bytes.read (512 * sector + off) first)).append
      (by rw [Mem.read_length]; exact hstored)
    rw [hbytes] at hboth
    exact ⟨hstatus, hboth⟩
  next haligned =>
    rw [if_neg (by omega), show 512 * sector + off = 512 * (sector + off / 512) by omega]
    exact devreadAligned_stored hok ..

end Devread

-- ============================================================================
-- The content of a file
-- ============================================================================

section Content

variable (e : Env) (d : Ext2Data) (layout : Nat → Nat)

/-- The bytes of a file whose block `i` is the block `layout i`, with zeros in the holes. -/
def content : Mem UInt8 := fun x =>
  if layout (x / d.blksz) = 0 then 0 else e.bytes (layout (x / d.blksz) * d.blksz + x % d.blksz)

/-- `ext2fs_read_block` answers with the numbers of `layout` for the `n` blocks from `i` on, with or
    without the reads of data in between. -/
def Lays (inode : Inode) : Nat → Nat → Globals → Prop
  | 0, _, _ => True
  | n + 1, i, g =>
    (ext2fsReadBlock e d g inode i).2 = toInt (layout i) ∧
      Lays inode n (i + 1) (ext2fsReadBlock e d g inode i).1 ∧
      ∀ r, Lays inode n (i + 1) ((ext2fsReadBlock e d g inode i).1.note .data r)

variable {e d layout}

theorem blksz_pos (d : Ext2Data) : 0 < d.blksz := by
  rw [blksz_eq]
  have htwo := two_le_pow d
  omega

/-- A piece of a block of the file. -/
theorem content_read {i s n : Nat} (h : s + n ≤ d.blksz) :
    (content e d layout).read (i * d.blksz + s) n =
      if layout i = 0 then List.replicate n 0 else e.bytes.read (layout i * d.blksz + s) n := by
  have hcell : ∀ j, j < n → content e d layout (i * d.blksz + s + j) =
      if layout i = 0 then 0 else e.bytes (layout i * d.blksz + s + j) := by
    intro j hj
    have hdiv : (i * d.blksz + s + j) / d.blksz = i := by
      rw [Nat.add_assoc, Nat.mul_comm, Nat.mul_add_div (blksz_pos d), Nat.div_eq_of_lt (by omega), Nat.add_zero]
    have hmod : (i * d.blksz + s + j) % d.blksz = s + j := by
      rw [Nat.add_assoc, Nat.mul_comm, Nat.mul_add_mod, Nat.mod_eq_of_lt (by omega)]
    rw [content, hdiv, hmod, Nat.add_assoc]
  apply List.ext_getElem
  · split <;> simp
  · intro j hj _
    rw [Mem.read_length] at hj
    rw [Mem.getElem_read, hcell j hj]
    split
    · rw [List.getElem_replicate]
    · rw [Mem.getElem_read]

end Content

-- ============================================================================
-- The loop
-- ============================================================================

section Loop

variable {e : Env} {d : Ext2Data} {layout : Nat → Nat} {f : FileRead} {n i : Nat} {g : Globals}
  {ram : Ram} {buf : Nat}

/-- Where the bytes of the block `i` that are asked for begin. -/
def FileRead.start (f : FileRead) (d : Ext2Data) (i : Nat) : Nat := i * d.blksz + f.skipfirst d i

/-- Where the last byte ends that is stored: behind the last block when that is a hole which is asked for in
    part. -/
def FileRead.stop (f : FileRead) (d : Ext2Data) (layout : Nat → Nat) : Nat :=
  let last := (f.len + f.pos) / d.blksz
  if (f.len + f.pos) % d.blksz ≠ 0 ∧ layout last = 0 then (last + 1) * d.blksz else f.len + f.pos

/-- How many bytes of the block `i` are stored. -/
def FileRead.piece (f : FileRead) (d : Ext2Data) (layout : Nat → Nat) (i : Nat) : Nat :=
  if i + 1 = f.blockcnt d then f.stop d layout - f.start d i else d.blksz - f.skipfirst d i

theorem blockcnt_of_fit (hfit : f.len + f.pos + d.blksz - 1 < 4294967296) :
    f.blockcnt d = (f.len + f.pos + d.blksz - 1) / d.blksz := by
  have hpos := blksz_pos d
  rw [FileRead.blockcnt, u32_of_lt (by omega : f.len + f.pos < 4294967296), u32_of_lt hfit]

/-- The number of blocks up to the end of what is asked for. -/
theorem blockcnt_eq (hfit : f.len + f.pos + d.blksz - 1 < 4294967296) :
    f.blockcnt d = (f.len + f.pos) / d.blksz + if (f.len + f.pos) % d.blksz = 0 then 0 else 1 := by
  have hpos := blksz_pos d
  have hdiv := Nat.div_add_mod (f.len + f.pos) d.blksz
  rw [blockcnt_of_fit hfit]
  generalize (f.len + f.pos) / d.blksz = q at hdiv ⊢
  have hlt := Nat.mod_lt (f.len + f.pos) hpos
  generalize (f.len + f.pos) % d.blksz = r at hdiv hlt ⊢
  rw [← hdiv, Nat.add_assoc, Nat.add_sub_assoc (by omega), Nat.mul_add_div hpos]
  congr 1
  split
  next hr => exact Nat.div_eq_of_lt (by omega)
  next hr => exact Nat.div_eq_of_lt_le (by omega) (by omega)

theorem skipfirst_lt : f.skipfirst d i < d.blksz := by
  rw [FileRead.skipfirst]
  split
  · exact Nat.mod_lt _ (blksz_pos d)
  · exact blksz_pos d

/-- The first byte of a block that is asked for lies in front of the end, or at it. -/
theorem skipfirst_le {q r : Nat} (hdiv : d.blksz * q + r = f.len + f.pos) : f.skipfirst d q ≤ r := by
  rw [FileRead.skipfirst]
  split
  next hq =>
    have hpos := Nat.div_add_mod f.pos d.blksz
    rw [hq] at hdiv
    omega
  next => exact Nat.zero_le r

/-- What `blockend` and the rest of a hole come to. -/
theorem piece_spec (layout : Nat → Nat) (hfit : f.len + f.pos + d.blksz - 1 < 4294967296) :
    0 < f.skipfirst d i + f.piece d layout i ∧ f.skipfirst d i + f.piece d layout i ≤ d.blksz ∧
      (layout i = 0 → f.piece d layout i = d.blksz - f.skipfirst d i) ∧
      (layout i ≠ 0 → f.blockend d i = f.piece d layout i) := by
  have hpos := blksz_pos d
  have hskip := skipfirst_lt (f := f) (d := d) (i := i)
  have hcnt := blockcnt_eq hfit
  have hdiv := Nat.div_add_mod (f.len + f.pos) d.blksz
  have hlt := Nat.mod_lt (f.len + f.pos) hpos
  rw [FileRead.blockend, FileRead.piece, FileRead.stop, FileRead.start,
    u32_of_lt (by omega : f.len + f.pos < 4294967296)]
  generalize (f.len + f.pos) % d.blksz = r at hcnt hdiv hlt ⊢
  generalize (f.len + f.pos) / d.blksz = q at hcnt hdiv ⊢
  have hle := skipfirst_le hdiv
  by_cases hlast : i + 1 = f.blockcnt d
  · by_cases hr : r = 0
    · -- the end of what is asked for is the end of the block
      have hq : i + 1 = q := by
        rw [if_pos hr] at hcnt
        omega
      rw [if_pos hlast, if_neg fun h => h.1 hr, if_neg fun h => h.2 hr, ← hdiv, hr, ← hq, Nat.mul_comm,
        Nat.succ_mul]
      omega
    · have hq : i = q := by
        rw [if_neg hr] at hcnt
        omega
      subst hq
      by_cases hhole : layout i = 0
      · rw [if_pos hlast, if_pos ⟨hr, hhole⟩, Nat.succ_mul]
        exact ⟨by omega, by omega, fun _ => by omega, fun h => absurd hhole h⟩
      · rw [if_pos hlast, if_neg fun h => hhole h.2, if_pos ⟨hlast, hr⟩, ← hdiv, Nat.mul_comm]
        exact ⟨by omega, by omega, fun h => absurd h hhole, fun _ => by omega⟩
  · rw [if_neg hlast, if_neg fun h => hlast h.1]
    omega

theorem le_stop (layout : Nat → Nat) : f.len + f.pos ≤ f.stop d layout := by
  rw [FileRead.stop]
  split
  · rw [Nat.succ_mul, Nat.mul_comm]
    have hdiv := Nat.div_add_mod (f.len + f.pos) d.blksz
    have hlt := Nat.mod_lt (f.len + f.pos) (blksz_pos d)
    omega
  · exact Nat.le_refl _

/-- The blocks end behind all that is stored, and each but the last one in front of its end. -/
theorem stop_le (layout : Nat → Nat) (hfit : f.len + f.pos + d.blksz - 1 < 4294967296) :
    f.stop d layout ≤ f.blockcnt d * d.blksz ∧ ∀ i, i < f.blockcnt d → i * d.blksz ≤ f.stop d layout := by
  have hdiv := Nat.div_add_mod (f.len + f.pos) d.blksz
  have hlt := Nat.mod_lt (f.len + f.pos) (blksz_pos d)
  have hstop := le_stop (f := f) (d := d) layout
  rw [blockcnt_eq hfit]
  refine ⟨?_, fun i hi => ?_⟩
  · rw [FileRead.stop]
    split
    next h => rw [if_neg h.1]
    next h =>
      rw [Nat.add_mul, Nat.mul_comm]
      split
      next hr => omega
      next hr => omega
  · have hle := Nat.mul_le_mul_right d.blksz
      (show i ≤ (f.len + f.pos) / d.blksz by split at hi <;> omega)
    rw [Nat.mul_comm ((f.len + f.pos) / d.blksz)] at hle
    omega

/-- One block: its bytes are stored, and the loop goes on behind it. -/
theorem readLoop_step (hok : ∀ k, e.ok k = true) (ram : Ram) (buf : Nat)
    (hblock : layout i ≠ 0 → HasBlock e d (layout i))
    (hreach : layout i * 2 ^ d.log2Blksz < 2147483648)
    (hfit : f.len + f.pos + d.blksz - 1 < 4294967296) (hlays : Lays e d layout f.inode (n + 1) i g) :
    ∃ g' ram', readLoop e d f (n + 1) i g ram buf =
        readLoop e d f n (i + 1) g' ram' (buf + (d.blksz - f.skipfirst d i)) ∧
      ram.Stored buf ((content e d layout).read (f.start d i) (f.piece d layout i)) ram' ∧
      Lays e d layout f.inode n (i + 1) g' := by
  obtain ⟨hanswer, hnext, hnote⟩ := hlays
  obtain ⟨hpos, hle, hhole, hdata⟩ := piece_spec layout hfit (f := f) (i := i) (d := d)
  have hpow := Nat.two_pow_pos d.log2Blksz
  have hsmall : layout i ≤ layout i * 2 ^ d.log2Blksz := Nat.le_mul_of_pos_right _ hpow
  rw [toInt_of_lt (by omega)] at hanswer
  rw [readLoop, hanswer, FileRead.start, content_read (by omega)]
  dsimp only
  rw [if_neg (by omega), Int.toNat_natCast, u32_of_lt (by omega)]
  by_cases hzero : layout i = 0
  · rw [hzero, Nat.zero_mul, if_neg (by decide), if_pos rfl, hhole hzero]
    exact ⟨_, _, rfl, ram.stored_store _ _, hnext⟩
  · have hin := hblock hzero
    rw [HasBlock, Nat.succ_mul] at hin
    obtain ⟨hstatus, hstored⟩ := ext2fsDevread_stored hok (ext2fsReadBlock e d g f.inode i).1.reads ram buf
      hpos hle hin hreach
    rw [if_pos (Nat.mul_ne_zero hzero (by omega)), if_neg hzero, hdata hzero, hstatus]
    refine ⟨_, _, rfl, ?_, hnote _⟩
    rw [show layout i * d.blksz = 512 * (layout i * 2 ^ d.log2Blksz) by rw [blksz_eq]; ring]
    exact hstored

/-- The rest of the loop. -/
theorem readLoop_stored (hok : ∀ k, e.ok k = true) (ram : Ram) (buf : Nat)
    (hblock : ∀ i, layout i ≠ 0 → HasBlock e d (layout i))
    (hfit : f.len + f.pos + d.blksz - 1 < 4294967296) (hlays : Lays e d layout f.inode n i g)
    (hreach : ∀ j, i ≤ j → j < i + n → layout j * 2 ^ d.log2Blksz < 2147483648)
    (hfirst : f.pos / d.blksz ≤ i) (hn : i + n = f.blockcnt d) :
    (readLoop e d f n i g ram buf).ret = some (toInt f.len) ∧
      ram.Stored buf ((content e d layout).read (f.start d i) (f.stop d layout - f.start d i))
        (readLoop e d f n i g ram buf).ram := by
  induction n generalizing i g ram buf with
  | zero =>
    have hstop := (stop_le layout hfit).1
    have hnone : f.stop d layout - f.start d i = 0 := by
      rw [FileRead.start, show i = f.blockcnt d from hn]
      omega
    rw [hnone]
    exact ⟨rfl, ram.stored_nil buf⟩
  | succ n ih =>
    obtain ⟨g', ram', hloop, hstored, hlays'⟩ := readLoop_step hok ram buf (hblock i)
      (hreach i (by omega) (by omega)) hfit hlays
    rw [hloop]
    by_cases hlast : i + 1 = f.blockcnt d
    · obtain rfl : n = 0 := by omega
      rw [FileRead.piece, if_pos hlast] at hstored
      exact ⟨rfl, hstored⟩
    · obtain ⟨hret, hrest⟩ := ih ram' (buf + (d.blksz - f.skipfirst d i)) hlays'
        (fun j hj hlt => hreach j (by omega) (by omega)) (by omega) (by omega)
      refine ⟨hret, ?_⟩
      have hskip := skipfirst_lt (f := f) (d := d) (i := i)
      have hstop := (stop_le layout hfit).2 (i + 1) (by omega)
      have hstart : f.start d (i + 1) = f.start d i + (d.blksz - f.skipfirst d i) := by
        rw [FileRead.start, FileRead.start, FileRead.skipfirst, if_neg (by omega), Nat.succ_mul]
        omega
      have hlen : f.stop d layout - f.start d i =
          d.blksz - f.skipfirst d i + (f.stop d layout - f.start d (i + 1)) := by
        rw [Nat.succ_mul] at hstop
        rw [hstart, FileRead.start]
        omega
      rw [FileRead.piece, if_neg hlast] at hstored
      rw [hstart] at hrest
      rw [hlen, hstart, Mem.read_add]
      exact hstored.append (by rw [Mem.read_length]; exact hrest)

/-- The only values that are returned. -/
theorem readLoop_ret (e : Env) (d : Ext2Data) (f : FileRead) (n i : Nat) (g : Globals) (ram : Ram) (buf : Nat) :
    (readLoop e d f n i g ram buf).ret = some (toInt f.len) ∨ (readLoop e d f n i g ram buf).ret = some (-1) ∨
      (readLoop e d f n i g ram buf).ret = none := by
  induction n generalizing i g ram buf with
  | zero => exact .inl rfl
  | succ n ih =>
    rw [readLoop]
    dsimp only
    split
    · exact .inr (.inl rfl)
    split
    · split
      · exact ih ..
      · exact .inr (.inl rfl)
      · exact .inr (.inr rfl)
    · exact ih ..

theorem status_of_neg {sector byteLen : Int} {k off : Nat} (h : sector < 0) :
    (ext2fsDevread e k sector off byteLen ram buf).status = .error := by
  rw [ext2fsDevread, if_pos (.inl h)]

/-- Where the loop comes to its end, it could ask the device for every block. -/
theorem readLoop_reach (hblock : ∀ i, layout i ≠ 0 → HasBlock e d (layout i))
    (hlays : Lays e d layout f.inode n i g) {r : Int} (hret : (readLoop e d f n i g ram buf).ret = some r)
    (hr : r ≠ -1) : ∀ j, i ≤ j → j < i + n → layout j * 2 ^ d.log2Blksz < 2147483648 := by
  induction n generalizing i g ram buf with
  | zero =>
    intro j hj hlt
    omega
  | succ n ih =>
    obtain ⟨hanswer, hnext, hnote⟩ := hlays
    have hsectors : layout i * 2 ^ d.log2Blksz < 4294967296 := by
      by_cases hzero : layout i = 0
      · rw [hzero, Nat.zero_mul]
        decide
      · have hin := hblock i hzero
        rw [HasBlock, Nat.succ_mul] at hin
        exact Nat.lt_of_le_of_lt (Nat.le_of_add_right_le hin) e.size_lt
    have hle : layout i ≤ layout i * 2 ^ d.log2Blksz := Nat.le_mul_of_pos_right _ (Nat.two_pow_pos _)
    have hfailed : ∀ {p : Prop}, some (-1 : Int) = some r → p := fun h => absurd (Option.some.inj h).symm hr
    rw [readLoop, hanswer] at hret
    dsimp only at hret
    by_cases hneg : toInt (layout i) < 0
    · rw [if_pos hneg] at hret
      exact hfailed hret
    have hsmall : layout i < 2147483648 := by
      by_contra hbig
      exact hneg (toInt_neg (by omega) (by omega))
    rw [if_neg hneg, toInt_of_lt hsmall, Int.toNat_natCast, u32_of_lt hsectors] at hret
    by_cases hzero : layout i * 2 ^ d.log2Blksz = 0
    · rw [if_neg (not_not.mpr hzero)] at hret
      have hrest := ih hnext hret
      intro j hj hlt
      obtain rfl | hnext : j = i ∨ i + 1 ≤ j := by omega
      · omega
      · exact hrest j hnext (by omega)
    · rw [if_pos hzero] at hret
      have hhead : layout i * 2 ^ d.log2Blksz < 2147483648 := by
        by_contra hbig
        rw [status_of_neg (toInt_neg (by omega) hsectors)] at hret
        exact hfailed hret
      split at hret
      · have hrest := ih (hnote _) hret
        intro j hj hlt
        obtain rfl | hnext : j = i ∨ i + 1 ≤ j := by omega
        · exact hhead
        · exact hrest j hnext (by omega)
      · exact hfailed hret
      · exact absurd hret (by simp)

end Loop

-- ============================================================================
-- The part of a file that a caller gets
-- ============================================================================

/-- What a caller asks for: the bytes from `pos` on, as many as `len` and the size of the file admit, their
    number, and nothing else stored. -/
structure ReadsRight (e : Env) (d : Ext2Data) (layout : Nat → Nat) (size pos len : Nat) (cells : Mem UInt8)
    (buf : Nat) (r : ReadFile) : Prop where
  ret : r.ret = some (min len (size - pos) : Nat)
  stored : Ram.Stored ⟨cells, []⟩ buf ((content e d layout).read pos (min len (size - pos))) r.ram

/-- When the caller gets it.  The length is cut to the size of the file, whatever `pos` is, returned as an `int`
    and rounded up to blocks as an `unsigned int`; a number of a sector is an `int`; and a hole is filled up to
    the end of its block. -/
structure CanRead (d : Ext2Data) (layout : Nat → Nat) (size pos len : Nat) : Prop where
  cut : len = 0 ∨ size = 0 ∨ pos = 0 ∨ pos + len ≤ size
  len_lt : min len size < 2147483648
  fit : min len size + pos + d.blksz - 1 < 4294967296
  reach : ∀ i, pos / d.blksz ≤ i → i * d.blksz < min len size + pos → layout i * 2 ^ d.log2Blksz < 2147483648
  last : (min len size + pos) % d.blksz ≠ 0 → layout ((min len size + pos) / d.blksz) ≠ 0

section ReadFile

variable {e : Env} {d : Ext2Data} {layout : Nat → Nat} {f : FileRead} {g : Globals} {i : Nat}

/-- The blocks that are asked for begin in front of the end. -/
theorem lt_blockcnt_iff (hfit : f.len + f.pos + d.blksz - 1 < 4294967296) :
    i < f.blockcnt d ↔ i * d.blksz < f.len + f.pos := by
  have hpos := blksz_pos d
  rw [blockcnt_of_fit hfit, ← Nat.add_one_le_iff, Nat.le_div_iff_mul_le hpos, Nat.succ_mul]
  omega

/-- An overflow leaves no block to be read. -/
theorem blockcnt_eq_zero (hlen : f.len < 2147483648) (hbig : 4294967296 ≤ f.len + f.pos + d.blksz - 1) :
    f.blockcnt d = 0 := by
  have hle := pow_le d
  have hpos := f.pos_lt
  have hblk := blksz_eq d
  rw [FileRead.blockcnt, u32_of_lt (by omega : f.len + f.pos < 4294967296), u32]
  exact Nat.div_eq_of_lt (by omega)

theorem len_of_cells {a m n : Nat} (h : (Extent.mk a m).cells = (Extent.mk a n).cells) : m = n := by
  have hle := Extent.cells_subset_iff.mp h.le
  have hge := Extent.cells_subset_iff.mp h.ge
  omega

/-- Storing the same from the same place on takes the same number of bytes. -/
theorem stored_length {cells : Mem UInt8} {buf : Nat} {xs ys : List UInt8} {r : Ram}
    (hxs : Ram.Stored ⟨cells, []⟩ buf xs r) (hys : Ram.Stored ⟨cells, []⟩ buf ys r) : xs.length = ys.length := by
  have hnone : (Ram.mk cells []).written = ∅ := by
    ext x
    simp [Ram.written]
  have heq := hxs.2.symm.trans hys.2
  rw [hnone, Set.empty_union, Set.empty_union] at heq
  exact len_of_cells heq

theorem start_first : f.start d (f.pos / d.blksz) = f.pos := by
  rw [FileRead.start, FileRead.skipfirst, if_pos rfl, Nat.mul_comm]
  exact Nat.div_add_mod ..

/-- What a run stores when nothing overflows. -/
theorem run_stored (hok : ∀ k, e.ok k = true) (hblock : ∀ i, layout i ≠ 0 → HasBlock e d (layout i))
    (hfit : f.len + f.pos + d.blksz - 1 < 4294967296)
    (hlays : Lays e d layout f.inode (f.blockcnt d - f.pos / d.blksz) (f.pos / d.blksz) g)
    (hreach : ∀ i, f.pos / d.blksz ≤ i → i * d.blksz < f.len + f.pos → layout i * 2 ^ d.log2Blksz < 2147483648)
    (ram : Ram) (buf : Nat) :
    (f.run e d g ram buf).ret = some (toInt f.len) ∧
      ram.Stored buf ((content e d layout).read f.pos (f.stop d layout - f.pos)) (f.run e d g ram buf).ram := by
  have hle : f.pos / d.blksz ≤ f.blockcnt d := by
    rw [blockcnt_eq hfit]
    exact Nat.le_add_right_of_le (Nat.div_le_div_right (Nat.le_add_left ..))
  have hrun := readLoop_stored hok ram buf hblock hfit hlays
    (fun j hj hlt => hreach j hj ((lt_blockcnt_iff hfit).mp (by omega))) (Nat.le_refl _) (by omega)
  rw [start_first] at hrun
  exact hrun

/-- The numbers admit it. -/
theorem run_readsRight (hok : ∀ k, e.ok k = true) (hblock : ∀ i, layout i ≠ 0 → HasBlock e d (layout i))
    (hlays : Lays e d layout f.inode ((f.len + f.pos + d.blksz - 1) / d.blksz - f.pos / d.blksz) (f.pos / d.blksz) g)
    {size len : Nat} (hf : f.len = min len size) (h : CanRead d layout size f.pos len) (cells : Mem UInt8)
    (buf : Nat) :
    ReadsRight e d layout size f.pos len cells buf (f.run e d g ⟨cells, []⟩ buf) := by
  have hfit : f.len + f.pos + d.blksz - 1 < 4294967296 := hf ▸ h.fit
  have hlast : (f.len + f.pos) % d.blksz ≠ 0 → layout ((f.len + f.pos) / d.blksz) ≠ 0 := hf ▸ h.last
  have hcut := h.cut
  have hlen := h.len_lt
  rw [← blockcnt_of_fit hfit] at hlays
  obtain ⟨hret, hstored⟩ := run_stored hok hblock hfit hlays (hf ▸ h.reach) ⟨cells, []⟩ buf
  have hstop : f.stop d layout - f.pos = min len (size - f.pos) := by
    rw [FileRead.stop, if_neg fun hhole => hlast hhole.1 hhole.2]
    omega
  rw [hstop] at hstored
  refine ⟨?_, hstored⟩
  rw [hret, toInt_of_lt (by omega), hf]
  congr 2
  omega

/-- A number that is returned and is none of an error is the cut length. -/
theorem run_length {ram : Ram} {buf n : Nat} (hret : (f.run e d g ram buf).ret = some (n : Int)) : toInt f.len = n := by
  obtain hr | hr | hr := readLoop_ret e d f (f.blockcnt d - f.pos / d.blksz) (f.pos / d.blksz) g ram buf
  · exact Option.some.inj (hr.symm.trans hret)
  · have hneg := Option.some.inj (hr.symm.trans hret)
    omega
  · exact absurd (hr.symm.trans hret) (by simp)

/-- Nothing else does. -/
theorem canRead_of_readsRight (hok : ∀ k, e.ok k = true) (hblock : ∀ i, layout i ≠ 0 → HasBlock e d (layout i))
    (hlays : Lays e d layout f.inode ((f.len + f.pos + d.blksz - 1) / d.blksz - f.pos / d.blksz) (f.pos / d.blksz) g)
    {size len : Nat} (hf : f.len = min len size) {cells : Mem UInt8} {buf : Nat}
    (h : ReadsRight e d layout size f.pos len cells buf (f.run e d g ⟨cells, []⟩ buf)) :
    CanRead d layout size f.pos len := by
  have hpos := f.pos_lt
  have hret := h.ret
  have hnum := run_length h.ret
  have hlen : f.len < 2147483648 := by
    by_contra hbig
    have hneg := toInt_neg (by omega) f.len_lt
    omega
  rw [toInt_of_lt hlen] at hnum
  have hstored := h.stored
  have hfit : f.len + f.pos + d.blksz - 1 < 4294967296 := by
    by_contra hbig
    have hzero := blockcnt_eq_zero (d := d) hlen (by omega)
    rw [FileRead.run, hzero, Nat.zero_sub] at hstored
    have hnothing := stored_length hstored (Ram.stored_nil _ buf)
    rw [Mem.read_length, List.length_nil] at hnothing
    have hblk := blksz_eq d
    have hpow := pow_le d
    omega
  rw [← blockcnt_of_fit hfit] at hlays
  have hreach : ∀ i, f.pos / d.blksz ≤ i → i * d.blksz < f.len + f.pos →
      layout i * 2 ^ d.log2Blksz < 2147483648 := by
    intro i hi hlt
    have hcount := (lt_blockcnt_iff hfit).mpr hlt
    exact readLoop_reach hblock hlays hret (by omega) i hi (by omega)
  have hboth := stored_length hstored (run_stored hok hblock hfit hlays hreach ⟨cells, []⟩ buf).2
  rw [Mem.read_length, Mem.read_length] at hboth
  refine ⟨by omega, by omega, by rw [← hf]; exact hfit, by rw [← hf]; exact hreach, ?_⟩
  rw [← hf]
  intro hr hhole
  rw [FileRead.stop, if_pos ⟨hr, hhole⟩, Nat.succ_mul, Nat.mul_comm] at hboth
  have hdiv := Nat.div_add_mod (f.len + f.pos) d.blksz
  have hlt := Nat.mod_lt (f.len + f.pos) (blksz_pos d)
  omega

/-- The numbers of the block map, where `ext2fs_read_block` finds them. -/
theorem lays_blockMap (hok : ∀ k, e.ok k = true) (hmalloc : ∀ k, (e.malloc k).isSome) {inode : Inode}
    (n i : Nat) {g : Globals} (hv : g.indir1.Valid e d) (hright : ∀ g j, i ≤ j → j < i + n → NumberRight e d g inode j)
    (hmap : ∀ j, i ≤ j → j < i + n → blockMap e d inode j = some (layout j)) : Lays e d layout inode n i g := by
  induction n generalizing i g with
  | zero => trivial
  | succ n ih =>
    have hcall : CallOk e d g (inode, i) :=
      ⟨fun _ => ⟨hok _, hok _⟩, fun _ => ⟨hmalloc _, hmalloc _⟩, fun _ => hright g i (by omega) (by omega)⟩
    have hvalid := ext2fsReadBlock_valid hv hcall
    have hrest : ∀ {g : Globals}, g.indir1.Valid e d → Lays e d layout inode n (i + 1) g := fun hv =>
      ih (i + 1) hv (fun g j hj hlt => hright g j (by omega) (by omega)) fun j hj hlt => hmap j (by omega) (by omega)
    exact ⟨ext2fsReadBlock_agrees hv hcall _ (hmap i (by omega) (by omega)), hrest hvalid, fun _ => hrest hvalid⟩

/-- `ext2fs_read_file` gives the caller the part of the file that was asked for, and no more, just when the
    numbers admit it. -/
theorem readsRight_iff (hok : ∀ k, e.ok k = true) (hblock : ∀ i, layout i ≠ 0 → HasBlock e d (layout i))
    (inode : Inode) {pos len : Nat} (hpos : pos < 2147483648) (hlen : len < 4294967296) (g : Globals)
    (hlays : Lays e d layout inode ((min len inode.size.toNat + pos + d.blksz - 1) / d.blksz - pos / d.blksz)
      (pos / d.blksz) g) (cells : Mem UInt8) (buf : Nat) :
    ReadsRight e d layout inode.size.toNat pos len cells buf
        (ext2fsReadFile e d g inode pos len hpos hlen ⟨cells, []⟩ buf) ↔
      CanRead d layout inode.size.toNat pos len :=
  ⟨canRead_of_readsRight (f := ⟨inode, pos, min len inode.size.toNat, hpos, by omega⟩) hok hblock hlays rfl,
    fun h => run_readsRight (f := ⟨inode, pos, min len inode.size.toNat, hpos, by omega⟩) hok hblock hlays rfl h
      cells buf⟩

/-- A file of that image with a hole between two blocks. -/
def holeInode : Inode := ⟨5000, fun i => if i.val = 0 then 4 else if i.val = 2 then 5 else 0, 0, 0⟩

/-- Its blocks. -/
def holeLayout (i : Nat) : Nat := if i = 0 then 4 else if i = 2 then 5 else 0

theorem readsRight_hole :
    ReadsRight smallImage smallData holeLayout holeInode.size.toNat 100 2500 0 4096
      (ext2fsReadFile smallImage smallData noCaches holeInode 100 2500 (by decide) (by decide) ⟨0, []⟩ 4096) := by
  have hright : ∀ g j, 0 ≤ j → j < 0 + 3 → NumberRight smallImage smallData g holeInode j := fun _ j _ hj =>
    ⟨fun h => absurd h (by simp [indirectBlocks]; omega), fun h => absurd h (by simp [indirectBlocks]; omega)⟩
  have hmap : ∀ j, 0 ≤ j → j < 0 + 3 → blockMap smallImage smallData holeInode j = some (holeLayout j) := by
    intro j _ hj
    obtain rfl | rfl | rfl : j = 0 ∨ j = 1 ∨ j = 2 := by omega
    all_goals rfl
  have hblock : ∀ i, holeLayout i ≠ 0 → HasBlock smallImage smallData (holeLayout i) := by
    intro i hi
    unfold holeLayout at hi ⊢
    split
    · decide
    split
    · decide
    · simp_all
  have hreach : ∀ i, holeLayout i * 2 ^ smallData.log2Blksz < 2147483648 := by
    intro i
    unfold holeLayout
    split
    · decide
    split <;> decide
  exact (readsRight_iff (fun _ => rfl) hblock holeInode (by decide) (by decide) noCaches
    (lays_blockMap (fun _ => rfl) (fun _ => rfl) 3 0 (fun hne => absurd rfl hne) hright hmap) 0 4096).mpr
    ⟨by decide, by decide, by decide, fun i _ _ => hreach i, by decide⟩

/-- More bytes are returned than the file has behind `pos`. -/
theorem not_readsRight_tail :
    ¬ ReadsRight smallImage smallData holeLayout holeInode.size.toNat 4000 2000 0 4096
      (ext2fsReadFile smallImage smallData noCaches holeInode 4000 2000 (by decide) (by decide) ⟨0, []⟩ 4096) := by
  intro h
  have hret := h.ret
  obtain hr | hr | hr := readLoop_ret smallImage smallData
    ⟨holeInode, 4000, min 2000 holeInode.size.toNat, by decide, by decide⟩ 3 3 noCaches ⟨0, []⟩ 4096
  · exact absurd (hr.symm.trans hret) (by decide)
  · exact absurd (hr.symm.trans hret) (by decide)
  · exact absurd (hr.symm.trans hret) (by decide)

end ReadFile

end Uboot.Fs.Ext2
