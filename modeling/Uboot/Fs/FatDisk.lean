/-
  Uboot.Fs.FatDisk

  `disk_read` of fs/fat/fat.c, over a block device that may return fewer blocks than asked.

  Reads of 0xc800 blocks and more are split.  The pieces are put into the buffer as if a
  block had 512 bytes, and a piece that is short gives -1.  A smaller read gives the number
  of blocks that were read, and the callers test for a negative result.
-/

import Uboot.Lib.Mem

namespace Uboot.Fs.FatDisk

open Uboot.Lib

-- ============================================================================
-- The device
-- ============================================================================

/-- What is on the blocks, by their number. -/
abbrev Blocks := Nat → Mem UInt8

/-- A device: the size of a block, and how many blocks are returned for a start and a
    count. -/
structure Device where
  blksz : Nat
  answer : Nat → Nat → Nat

/-- The bytes of `n` blocks from `start` on.  Block numbers are 32 bits wide. -/
def blockBytes (blksz : Nat) (data : Blocks) (start n : Nat) : List UInt8 :=
  (List.range n).flatMap fun i => (data (u32 (start + i))).read 0 blksz

/-- A call of `block_read`, and how many blocks it returned. -/
structure Call where
  start : Nat
  cnt : Nat
  got : Nat
  deriving DecidableEq

def Device.call (dev : Device) (start cnt : Nat) : Call := ⟨start, cnt, dev.answer start cnt⟩

/-- `block_read`: the blocks returned are in the buffer. -/
def Device.blockRead (dev : Device) (data : Blocks) (start cnt : Nat) (buf : Nat) (mem : Mem UInt8) :
    Mem UInt8 :=
  mem.write buf (blockBytes dev.blksz data start (min (dev.answer start cnt) cnt))

-- ============================================================================
-- disk_read
-- ============================================================================

/-- A `__u32` returned as `int`. -/
def toInt (x : Nat) : Int := if x < 2147483648 then x else (x : Int) - 4294967296

/-- What `disk_read` returns and leaves in memory, and the calls it made. -/
structure Outcome where
  ret : Int
  mem : Mem UInt8
  calls : List Call

/-- `size_req`: 0xc800 blocks, or what is left. -/
def sizeReq (getsize sizeTotal : Nat) : Nat :=
  if getsize - sizeTotal < 0xc800 then getsize - sizeTotal else 0xc800

/-- The loop over pieces. -/
def readPieces (dev : Device) (data : Blocks) (startblock getsize buf : Nat) (sizeTotal : Nat)
    (mem : Mem UInt8) : Outcome :=
  if sizeTotal < getsize then
    let req := sizeReq getsize sizeTotal
    let call := dev.call (u32 (startblock + sizeTotal)) req
    let mem := dev.blockRead data (u32 (startblock + sizeTotal)) req (buf + u32 (sizeTotal * 0x200)) mem
    if call.got ≠ req then ⟨-1, mem, [call]⟩
    else
      let rest := readPieces dev data startblock getsize buf (sizeTotal + req) mem
      { rest with calls := call :: rest.calls }
  else ⟨toInt sizeTotal, mem, []⟩
  termination_by getsize - sizeTotal
  decreasing_by
    rw [sizeReq]
    split <;> omega

/-- `disk_read` with `cur_dev` and `part_offset`. -/
def diskRead (curDev : Option Device) (partOffset : Nat) (data : Blocks) (startblock getsize buf : Nat)
    (mem : Mem UInt8) : Outcome :=
  let startblock := u32 (startblock + partOffset)
  match curDev with
  | none => ⟨-1, mem, []⟩
  | some dev =>
    if getsize < 0xc800 then
      let call := dev.call startblock getsize
      ⟨toInt call.got, dev.blockRead data startblock getsize buf mem, [call]⟩
    else readPieces dev data startblock getsize buf 0 mem

/-- The test of `get_cluster`, `get_fatent` and `read_bootsectandvi` on the result. -/
def Outcome.isError (o : Outcome) : Bool := o.ret < 0

-- ============================================================================
-- What is wanted
-- ============================================================================

/-- All blocks came: the memory is as after one read of the whole range.  A call came short:
    the callers see an error. -/
def Lawful (dev : Device) (partOffset startblock getsize : Nat) : Prop :=
  ∀ data buf mem, let o := diskRead (some dev) partOffset data startblock getsize buf mem
    ((∀ c ∈ o.calls, c.got = c.cnt) →
      o.mem = mem.write buf (blockBytes dev.blksz data (u32 (startblock + partOffset)) getsize)) ∧
    ((∃ c ∈ o.calls, c.got < c.cnt) → o.isError = true)

/-- The device returns every piece in full. -/
def PiecesFull (dev : Device) (startblock getsize : Nat) : Prop :=
  ∀ k, k * 0xc800 < getsize →
    dev.answer (u32 (startblock + k * 0xc800)) (sizeReq getsize (k * 0xc800)) =
      sizeReq getsize (k * 0xc800)

/-- A small read returns what was asked.  The pieces of a large one are put where they
    belong: there is one piece only, or a block has 512 bytes and the place of the last
    piece is below 4 GiB. -/
def Law (dev : Device) (startblock getsize : Nat) : Prop :=
  if getsize < 0xc800 then getsize ≤ dev.answer startblock getsize
  else PiecesFull dev startblock getsize →
    getsize = 0xc800 ∨ dev.blksz = 0 ∨ dev.blksz = 512 ∧ getsize ≤ 164 * 0xc800

-- ============================================================================
-- Blocks as bytes
-- ============================================================================

section Bytes

variable {blksz start n k : Nat} {data : Blocks}

@[simp] theorem blockBytes_length : (blockBytes blksz data start n).length = n * blksz := by
  induction n with
  | zero => simp [blockBytes]
  | succ n ih =>
    rw [blockBytes, List.range_succ, List.flatMap_append, List.length_append]
    rw [blockBytes] at ih
    rw [ih, List.flatMap_cons, List.flatMap_nil, List.append_nil, Mem.read_length, Nat.succ_mul]

theorem u32_add_cancel {x y z : Nat} (hy : y < 4294967296) (hz : z < 4294967296)
    (h : u32 (x + y) = u32 (x + z)) : y = z := by
  simp only [u32] at h
  omega

/-- Blocks behind others. -/
theorem blockBytes_add :
    blockBytes blksz data start (n + k) =
      blockBytes blksz data start n ++ blockBytes blksz data (u32 (start + n)) k := by
  rw [blockBytes, List.range_add, List.flatMap_append, List.flatMap_map]
  refine congrArg _ (congrArg (List.flatMap · _) ?_)
  funext i
  rw [u32_add_left, Nat.add_assoc]

theorem blockBytes_getElem? (data : Blocks) (start : Nat) {i o : Nat} (hi : i < n) (ho : o < blksz) :
    (blockBytes blksz data start n)[i * blksz + o]? = some (data (u32 (start + i)) o) := by
  obtain ⟨r, rfl⟩ : ∃ r, n = i + (1 + r) := ⟨n - i - 1, by omega⟩
  rw [blockBytes_add, List.getElem?_append_right (by simp), blockBytes_length,
    Nat.add_sub_cancel_left, blockBytes_add, List.getElem?_append_left (by simpa using ho)]
  simp [blockBytes, Mem.read, ho, u32]

end Bytes

-- ============================================================================
-- The loop
-- ============================================================================

section Pieces

variable {dev : Device} {data : Blocks} {startblock getsize buf sizeTotal : Nat} {mem : Mem UInt8}

theorem sizeReq_eq_min (getsize sizeTotal : Nat) : sizeReq getsize sizeTotal = min (getsize - sizeTotal) 0xc800 := by
  rw [sizeReq]
  split <;> omega

/-- The memory behind a piece that came in full. -/
def afterPiece (dev : Device) (data : Blocks) (startblock getsize buf sizeTotal : Nat) (mem : Mem UInt8) :
    Mem UInt8 :=
  mem.write (buf + u32 (sizeTotal * 0x200))
    (blockBytes dev.blksz data (u32 (startblock + sizeTotal)) (sizeReq getsize sizeTotal))

theorem readPieces_done (h : getsize ≤ sizeTotal) :
    readPieces dev data startblock getsize buf sizeTotal mem = ⟨toInt sizeTotal, mem, []⟩ := by
  rw [readPieces, if_neg (by omega)]

/-- A piece that is not what was asked ends the loop. -/
theorem readPieces_stop (data : Blocks) (buf : Nat) (mem : Mem UInt8) (hlt : sizeTotal < getsize)
    (hgot : dev.answer (u32 (startblock + sizeTotal)) (sizeReq getsize sizeTotal) ≠
      sizeReq getsize sizeTotal) :
    ∃ mem' call, readPieces dev data startblock getsize buf sizeTotal mem = ⟨-1, mem', [call]⟩ ∧
      call.got ≠ call.cnt := by
  rw [readPieces, if_pos hlt]
  exact ⟨_, _, if_pos hgot, hgot⟩

/-- A piece in full, and the rest of the loop. -/
theorem readPieces_next (data : Blocks) (buf : Nat) (mem : Mem UInt8) (hlt : sizeTotal < getsize)
    (hgot : dev.answer (u32 (startblock + sizeTotal)) (sizeReq getsize sizeTotal) =
      sizeReq getsize sizeTotal) :
    let rest := readPieces dev data startblock getsize buf
      (sizeTotal + sizeReq getsize sizeTotal)
      (afterPiece dev data startblock getsize buf sizeTotal mem)
    ∃ call, readPieces dev data startblock getsize buf sizeTotal mem =
      { rest with calls := call :: rest.calls } ∧ call.got = call.cnt := by
  have hmem : dev.blockRead data (u32 (startblock + sizeTotal)) (sizeReq getsize sizeTotal)
      (buf + u32 (sizeTotal * 0x200)) mem =
        afterPiece dev data startblock getsize buf sizeTotal mem := by
    rw [Device.blockRead, hgot, Nat.min_self, afterPiece]
  have hunfold := readPieces.eq_1 dev data startblock getsize buf sizeTotal mem
  rw [if_pos hlt] at hunfold
  refine ⟨dev.call (u32 (startblock + sizeTotal)) (sizeReq getsize sizeTotal),
    hunfold.trans ((if_neg (not_not.mpr hgot)).trans ?_), hgot⟩
  rw [hmem]

/-- **Loop rule.** What holds behind a loop of full pieces holds of the memory it leaves, and
    a loop with another piece gives -1. -/
theorem readPieces_invariant (inv : Nat → Mem UInt8 → Prop)
    (hstep : ∀ sizeTotal mem, sizeTotal < getsize → inv sizeTotal mem →
      inv (sizeTotal + sizeReq getsize sizeTotal)
        (afterPiece dev data startblock getsize buf sizeTotal mem))
    (h : inv sizeTotal mem) (hle : sizeTotal ≤ getsize)
    (hfull : ∀ c ∈ (readPieces dev data startblock getsize buf sizeTotal mem).calls, c.got = c.cnt) :
    inv getsize (readPieces dev data startblock getsize buf sizeTotal mem).mem ∧
      (readPieces dev data startblock getsize buf sizeTotal mem).ret = toInt getsize := by
  induction hn : getsize - sizeTotal using Nat.strong_induction_on generalizing sizeTotal mem with
  | _ n ih =>
    by_cases hlt : sizeTotal < getsize
    · by_cases hgot : dev.answer (u32 (startblock + sizeTotal)) (sizeReq getsize sizeTotal) =
          sizeReq getsize sizeTotal
      · obtain ⟨call, heq, -⟩ := readPieces_next data buf mem hlt hgot
        have hreq := sizeReq_eq_min getsize sizeTotal
        rw [heq] at hfull ⊢
        exact ih _ (by omega) (hstep _ _ hlt h) (by omega)
          (fun c hc => hfull c (List.mem_cons_of_mem _ hc)) rfl
      · obtain ⟨mem', call, heq, hne⟩ := readPieces_stop data buf mem hlt hgot
        rw [heq] at hfull
        exact absurd (hfull call (List.mem_singleton_self _)) hne
    · obtain rfl : sizeTotal = getsize := by omega
      rw [readPieces_done (Nat.le_refl _)]
      exact ⟨h, rfl⟩

/-- A short piece makes the result -1. -/
theorem readPieces_short
    (h : ∃ c ∈ (readPieces dev data startblock getsize buf sizeTotal mem).calls, c.got < c.cnt) :
    (readPieces dev data startblock getsize buf sizeTotal mem).ret = -1 := by
  induction hn : getsize - sizeTotal using Nat.strong_induction_on generalizing sizeTotal mem with
  | _ n ih =>
    by_cases hlt : sizeTotal < getsize
    · by_cases hgot : dev.answer (u32 (startblock + sizeTotal)) (sizeReq getsize sizeTotal) =
          sizeReq getsize sizeTotal
      · obtain ⟨call, heq, hfull⟩ := readPieces_next data buf mem hlt hgot
        have hreq := sizeReq_eq_min getsize sizeTotal
        rw [heq] at h ⊢
        refine ih _ (by omega) ?_ rfl
        obtain ⟨c, hc, hshort⟩ := h
        rcases List.mem_cons.mp hc with rfl | hc
        · omega
        · exact ⟨c, hc, hshort⟩
      · obtain ⟨mem', call, heq, -⟩ := readPieces_stop data buf mem hlt hgot
        rw [heq]
    · rw [readPieces_done (Nat.not_lt.mp hlt)] at h
      simp at h

/-- All calls come in full just when the device returns every piece in full. -/
theorem calls_full_iff (dev : Device) (data : Blocks) (startblock getsize buf k₀ : Nat) (mem : Mem UInt8) :
    (∀ c ∈ (readPieces dev data startblock getsize buf (k₀ * 0xc800) mem).calls, c.got = c.cnt) ↔
      ∀ k, k₀ ≤ k → k * 0xc800 < getsize →
        dev.answer (u32 (startblock + k * 0xc800)) (sizeReq getsize (k * 0xc800)) =
          sizeReq getsize (k * 0xc800) := by
  induction hn : getsize - k₀ * 0xc800 using Nat.strong_induction_on generalizing k₀ mem with
  | _ n ih =>
    by_cases hlt : k₀ * 0xc800 < getsize
    · by_cases hgot : dev.answer (u32 (startblock + k₀ * 0xc800)) (sizeReq getsize (k₀ * 0xc800)) =
          sizeReq getsize (k₀ * 0xc800)
      · obtain ⟨call, heq, hcall⟩ := readPieces_next data buf mem hlt hgot
        rw [heq, List.forall_mem_cons, and_iff_right hcall]
        have hreq := sizeReq_eq_min getsize (k₀ * 0xc800)
        have hlater : ∀ k, (k₀ ≤ k → k * 0xc800 < getsize →
            dev.answer (u32 (startblock + k * 0xc800)) (sizeReq getsize (k * 0xc800)) =
              sizeReq getsize (k * 0xc800)) ↔
            (k₀ + 1 ≤ k → k * 0xc800 < getsize →
              dev.answer (u32 (startblock + k * 0xc800)) (sizeReq getsize (k * 0xc800)) =
                sizeReq getsize (k * 0xc800)) := by
          intro k
          rcases Nat.lt_trichotomy k k₀ with hk | rfl | hk
          · simp only [show ¬ k₀ ≤ k by omega, show ¬ k₀ + 1 ≤ k by omega, false_imp_iff]
          · exact iff_of_true (fun _ _ => hgot) fun h => absurd h (by omega)
          · simp only [show k₀ ≤ k by omega, show k₀ + 1 ≤ k by omega, true_imp_iff]
        by_cases hlast : getsize - k₀ * 0xc800 < 0xc800
        · rw [readPieces_done (by omega)]
          refine iff_of_true (fun c hc => absurd hc List.not_mem_nil) fun k hk hlt' => ?_
          obtain rfl : k = k₀ := by omega
          exact hgot
        · have hnext : k₀ * 0xc800 + sizeReq getsize (k₀ * 0xc800) = (k₀ + 1) * 0xc800 := by omega
          have hrest := ih (getsize - (k₀ + 1) * 0xc800) (by omega) (k₀ + 1)
            (afterPiece dev data startblock getsize buf (k₀ * 0xc800) mem) rfl
          rw [hnext, hrest]
          exact forall_congr' fun k => (hlater k).symm
      · obtain ⟨mem', call, heq, hne⟩ := readPieces_stop data buf mem hlt hgot
        rw [heq]
        exact iff_of_false (fun h => hne (h call (List.mem_singleton_self _)))
          fun h => hgot (h k₀ (Nat.le_refl _) hlt)
    · rw [readPieces_done (Nat.not_lt.mp hlt)]
      refine iff_of_true (fun c hc => absurd hc List.not_mem_nil) fun k hk hlt' => ?_
      omega

/-- A device that returns what is asked. -/
theorem healthy_calls (h : ∀ start cnt, dev.answer start cnt = cnt) :
    ∀ c ∈ (readPieces dev data startblock getsize buf 0 mem).calls, c.got = c.cnt := by
  have hk := calls_full_iff dev data startblock getsize buf 0 mem
  rw [Nat.zero_mul] at hk
  exact hk.mpr fun _ _ _ => h _ _

-- ============================================================================
-- Where the pieces go
-- ============================================================================

/-- Pieces that go where their blocks belong are put together in order. -/
theorem readPieces_mem (dev : Device) (data : Blocks) (startblock getsize buf : Nat) (mem : Mem UInt8)
    (hplaces : ∀ sizeTotal, sizeTotal < getsize → sizeTotal % 0xc800 = 0 →
      dev.blksz = 0 ∨ u32 (sizeTotal * 0x200) = sizeTotal * dev.blksz)
    (hfull : ∀ c ∈ (readPieces dev data startblock getsize buf 0 mem).calls, c.got = c.cnt) :
    (readPieces dev data startblock getsize buf 0 mem).mem =
        mem.write buf (blockBytes dev.blksz data startblock getsize) ∧
      (readPieces dev data startblock getsize buf 0 mem).ret = toInt getsize := by
  -- before each piece the blocks read so far are in order
  have hplaced := readPieces_invariant (fun sizeTotal m =>
    (sizeTotal % 0xc800 = 0 ∨ getsize ≤ sizeTotal) ∧
      m = mem.write buf (blockBytes dev.blksz data startblock sizeTotal)) ?_ ?_ (Nat.zero_le _) hfull
  · exact ⟨hplaced.1.2, hplaced.2⟩
  · rintro sizeTotal m hlt ⟨hmul, rfl⟩
    have hreq := sizeReq_eq_min getsize sizeTotal
    refine ⟨by omega, ?_⟩
    rw [afterPiece, blockBytes_add]
    rcases hplaces sizeTotal hlt (by omega) with hzero | hplace
    · have hnil : ∀ start n, blockBytes dev.blksz data start n = [] := fun start n =>
        List.eq_nil_of_length_eq_zero (by rw [blockBytes_length, hzero, Nat.mul_zero])
      simp only [hnil, Mem.write_nil, List.append_nil]
    · have hlen : (blockBytes dev.blksz data startblock sizeTotal).length = sizeTotal * dev.blksz :=
        blockBytes_length
      rw [hplace, ← hlen, Mem.write_append]
  · exact ⟨.inl rfl, by simp [blockBytes]⟩

/-- A block that shows where it has been put. -/
def mark (block : Nat) : Blocks := fun s o => if s = block ∧ o = 0 then 1 else 0

theorem mark_blockBytes {blksz start n x block : Nat} {v : UInt8}
    (hx : (blockBytes blksz (mark block) start n)[x]? = some v) (hv : v ≠ 0) :
    ∃ i < n, x = i * blksz ∧ u32 (start + i) = block := by
  obtain ⟨hlt, -⟩ := List.getElem?_eq_some_iff.mp hx
  rw [blockBytes_length] at hlt
  have hpos : 0 < blksz := Nat.pos_of_ne_zero fun h => by simp [h] at hlt
  have hsplit : x = x / blksz * blksz + x % blksz := (Nat.div_add_mod' x blksz).symm
  have hi : x / blksz < n := (Nat.div_lt_iff_lt_mul hpos).mpr hlt
  rw [hsplit, blockBytes_getElem? _ _ hi (Nat.mod_lt x hpos)] at hx
  by_cases hm : u32 (start + x / blksz) = block ∧ x % blksz = 0
  · exact ⟨x / blksz, hi, by omega, hm.1⟩
  · rw [mark, if_neg hm] at hx
    exact absurd (Option.some.inj hx).symm hv

/-- A piece whose place is not that of its blocks leaves the mark of its first block
    elsewhere. -/
theorem readPieces_misplaced {k : Nat} (hk : k * 0xc800 < getsize) (hsize : getsize < 4294967296)
    (hplace : u32 (k * 0xc800 * 0x200) ≠ k * 0xc800 * dev.blksz)
    (hfull : ∀ c ∈ (readPieces dev (mark (u32 (startblock + k * 0xc800))) startblock getsize 0 0
      (fun _ => 0)).calls, c.got = c.cnt) :
    (readPieces dev (mark (u32 (startblock + k * 0xc800))) startblock getsize 0 0
      (fun _ => 0)).mem (k * 0xc800 * dev.blksz) = 0 := by
  refine (readPieces_invariant (fun sizeTotal m =>
    (sizeTotal % 0xc800 = 0 ∨ getsize ≤ sizeTotal) ∧ m (k * 0xc800 * dev.blksz) = 0)
    ?_ ⟨.inl rfl, rfl⟩ (Nat.zero_le _) hfull).1.2
  rintro sizeTotal m hlt ⟨hmul, hzero⟩
  have hreq := sizeReq_eq_min getsize sizeTotal
  refine ⟨by omega, ?_⟩
  by_contra hne
  rw [afterPiece, Nat.zero_add] at hne
  generalize hbs : blockBytes dev.blksz (mark (u32 (startblock + k * 0xc800)))
    (u32 (startblock + sizeTotal)) (sizeReq getsize sizeTotal) = bs at hne
  by_cases hin : u32 (sizeTotal * 0x200) ≤ k * 0xc800 * dev.blksz ∧
      k * 0xc800 * dev.blksz < u32 (sizeTotal * 0x200) + bs.length
  · -- the byte there is the mark, so the piece is the one in question
    obtain ⟨x, hx⟩ := Nat.exists_eq_add_of_le hin.1
    have hlt' : x < bs.length := by omega
    rw [hx, Mem.write_inside m hlt'] at hne
    have hat : (blockBytes dev.blksz (mark (u32 (startblock + k * 0xc800)))
        (u32 (startblock + sizeTotal)) (sizeReq getsize sizeTotal))[x]? = some bs[x] := by
      rw [hbs]
      exact List.getElem?_eq_getElem hlt'
    obtain ⟨i, hi, hxi, hblock⟩ := mark_blockBytes hat hne
    rw [u32_add_left, Nat.add_assoc] at hblock
    have heq := u32_add_cancel (by omega) (by omega) hblock
    obtain rfl : i = 0 := by omega
    obtain rfl : sizeTotal = k * 0xc800 := by omega
    rw [Nat.zero_mul] at hxi
    omega
  · rw [Mem.write_outside m (by omega)] at hne
    exact hne hzero

end Pieces

-- ============================================================================
-- The law
-- ============================================================================

section Law

variable {dev : Device} {partOffset startblock getsize : Nat}

theorem isError_iff (o : Outcome) : o.isError = true ↔ o.ret < 0 := decide_eq_true_iff

/-- A small read is one call: the result is the count it returned. -/
theorem lawful_small (h : getsize < 0xc800) :
    Lawful dev partOffset startblock getsize ↔
      getsize ≤ dev.answer (u32 (startblock + partOffset)) getsize := by
  have hread : ∀ data buf mem, diskRead (some dev) partOffset data startblock getsize buf mem =
      ⟨toInt (dev.answer (u32 (startblock + partOffset)) getsize),
        dev.blockRead data (u32 (startblock + partOffset)) getsize buf mem,
        [dev.call (u32 (startblock + partOffset)) getsize]⟩ := by
    intro data buf mem
    simp only [diskRead, if_pos h]
    rfl
  constructor
  · intro hl
    by_contra hshort
    have herr := (hl (fun _ _ => 0) 0 (fun _ => 0)).2
    rw [hread] at herr
    have hneg : toInt (dev.answer (u32 (startblock + partOffset)) getsize) < 0 :=
      (isError_iff _).mp (herr ⟨_, List.mem_singleton_self _, Nat.lt_of_not_le hshort⟩)
    -- a short count is no negative number
    rw [toInt, if_pos (by omega)] at hneg
    omega
  · intro hle data buf mem
    rw [hread]
    constructor
    · intro hfull
      have hgot : dev.answer (u32 (startblock + partOffset)) getsize = getsize :=
        hfull _ (List.mem_singleton_self _)
      show dev.blockRead data _ getsize buf mem = _
      rw [Device.blockRead, hgot, Nat.min_self]
    · rintro ⟨c, hc, hshort⟩
      obtain rfl := List.mem_singleton.mp hc
      exact absurd hle (Nat.not_le.mpr hshort)

/-- A large read is lawful unless it puts a piece where it does not belong. -/
theorem lawful_large (h : 0xc800 ≤ getsize) (hsize : getsize < 4294967296) :
    Lawful dev partOffset startblock getsize ↔
      (PiecesFull dev (u32 (startblock + partOffset)) getsize →
        getsize = 0xc800 ∨ dev.blksz = 0 ∨ dev.blksz = 512 ∧ getsize ≤ 164 * 0xc800) := by
  generalize hstart : u32 (startblock + partOffset) = start
  have hread : ∀ data buf mem, diskRead (some dev) partOffset data startblock getsize buf mem =
      readPieces dev data start getsize buf 0 mem := by
    intro data buf mem
    simp only [diskRead, if_neg (show ¬ getsize < 0xc800 by omega), hstart]
  have hcalls : ∀ data buf mem, (∀ c ∈ (readPieces dev data start getsize buf 0 mem).calls,
      c.got = c.cnt) ↔ PiecesFull dev start getsize := by
    intro data buf mem
    have hk := calls_full_iff dev data start getsize buf 0 mem
    rw [Nat.zero_mul] at hk
    rw [hk, PiecesFull]
    simp only [Nat.zero_le, true_imp_iff]
  constructor
  · intro hl hfull
    by_contra hno
    simp only [not_or, not_and] at hno
    obtain ⟨hmany, hblksz, hplaces⟩ := hno
    -- a piece that goes to a wrong place
    obtain ⟨k, hk, hplace⟩ : ∃ k, k * 0xc800 < getsize ∧
        u32 (k * 0xc800 * 0x200) ≠ k * 0xc800 * dev.blksz := by
      by_cases h512 : dev.blksz = 512
      · have := hplaces h512
        exact ⟨164, by omega, by rw [h512]; decide⟩
      · refine ⟨1, by omega, ?_⟩
        rw [u32_of_lt (by omega)]
        omega
    have hcallsFull := (hcalls (mark (u32 (start + k * 0xc800))) 0 fun _ => 0).mpr hfull
    have hzero := readPieces_misplaced hk hsize hplace hcallsFull
    have hone := (hl (mark (u32 (start + k * 0xc800))) 0 fun _ => 0).1
    rw [hread, hstart] at hone
    rw [hone hcallsFull] at hzero
    -- in one read the mark is at the place of its block
    have hat := blockBytes_getElem? (mark (u32 (start + k * 0xc800))) start hk
      (Nat.pos_of_ne_zero hblksz)
    rw [Nat.add_zero] at hat
    obtain ⟨hlt, hget⟩ := List.getElem?_eq_some_iff.mp hat
    have hwritten := Mem.write_inside (fun _ => (0 : UInt8)) (a := 0) hlt
    rw [Nat.zero_add, hzero, hget, mark, if_pos ⟨rfl, rfl⟩] at hwritten
    cases hwritten
  · intro hlaw data buf mem
    rw [hread]
    constructor
    · intro hfull
      rw [hstart]
      refine (readPieces_mem dev data start getsize buf mem (fun sizeTotal hlt hmul => ?_) hfull).1
      rcases hlaw ((hcalls data buf mem).mp hfull) with hone | hzero | ⟨h512, hle⟩
      · obtain rfl : sizeTotal = 0 := by omega
        exact .inr (by rw [Nat.zero_mul, Nat.zero_mul]; rfl)
      · exact .inl hzero
      · rw [h512]
        exact .inr (u32_of_lt (by omega))
    · intro hshort
      rw [isError_iff, readPieces_short hshort]
      decide

/-- **disk_read** puts together what it reads, and a short read is an error for its callers,
    just when the law holds. -/
theorem lawful_iff (hsize : getsize < 4294967296) :
    Lawful dev partOffset startblock getsize ↔
      Law dev (u32 (startblock + partOffset)) getsize := by
  rw [Law]
  split_ifs with h
  · exact lawful_small h
  · exact lawful_large (Nat.not_lt.mp h) hsize

end Law

/-- A card that returns nothing. -/
def silentCard : Device := ⟨512, fun _ _ => 0⟩

/-- The boot sector that is not there is no error. -/
theorem not_lawful_silentCard : ¬ Lawful silentCard 0 0 1 := by
  intro h
  have herr := (h (fun _ _ => 0) 0 (fun _ => 0)).2 ⟨⟨0, 1, 0⟩, by decide, by decide⟩
  exact absurd herr (by decide)

/-- 25 MiB and one block more of a healthy card. -/
theorem lawful_twoPieces : Lawful ⟨512, fun _ cnt => cnt⟩ 63 100 0xc801 :=
  (lawful_iff (by decide)).mpr fun _ => .inr (.inr ⟨rfl, by decide⟩)

end Uboot.Fs.FatDisk
