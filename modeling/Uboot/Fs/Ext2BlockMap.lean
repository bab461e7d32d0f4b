/-
  Uboot.Fs.Ext2BlockMap

  `ext2fs_read_block` against the block map of ext2, over any sequence of calls: the first cached
  indirect block is never wrong about what it holds, but the second one is looked up under the
  number of the first, and an indirect pointer of 0 is followed like any other.
-/

import Uboot.Fs.Ext2
import Uboot.Lib.Run

namespace Uboot.Fs.Ext2

open Uboot.Lib

-- ============================================================================
-- The block map
-- ============================================================================

section BlockMap

variable (e : Env) (d : Ext2Data)

/-- The block `b` lies in the partition. -/
def HasBlock (b : Nat) : Prop := (b + 1) * 2 ^ d.log2Blksz ≤ e.size

instance (b : Nat) : Decidable (HasBlock e d b) := inferInstanceAs (Decidable (_ ≤ _))

/-- The `i`-th number of the block `b`. -/
def blockEntry (b i : Nat) : Nat := rd32 e.bytes (b * d.blksz + 4 * i)

/-- The map of ext2: a pointer of 0 is a hole, and so is all that would stand below it.  No number is
    given for a block below an indirect block that is not in the partition, and none for the triple
    indirect ones. -/
def blockMap (inode : Inode) (fileblock : Nat) : Option Nat :=
  let perblock := d.blksz / 4
  if h : fileblock < indirectBlocks then some (inode.dirBlocks ⟨fileblock, h⟩).toNat
  else if fileblock < indirectBlocks + perblock then
    let indirect := inode.indirBlock.toNat
    if indirect = 0 then some 0
    else if HasBlock e d indirect then some (blockEntry e d indirect (fileblock - indirectBlocks))
    else none
  else if fileblock < indirectBlocks + perblock * (perblock + 1) then
    let rblock := fileblock - (indirectBlocks + perblock)
    let outer := inode.doubleIndirBlock.toNat
    if outer = 0 then some 0
    else if HasBlock e d outer then
      let inner := blockEntry e d outer (rblock / perblock)
      if inner = 0 then some 0
      else if HasBlock e d inner then some (blockEntry e d inner (rblock % perblock))
      else none
    else none
  else none

/-- The answer of a call agrees with the map. -/
def Agrees (c : Inode × Nat) (ret : Int) : Prop := ∀ n, blockMap e d c.1 c.2 = some n → ret = toInt n

-- ============================================================================
-- The calls that are right
-- ============================================================================

/-- An indirect block that `ext2fs_devread` can be asked for: in the partition, and its sectors have
    numbers that an `int` holds. -/
def InReach (b : Nat) : Prop := HasBlock e d b ∧ (b + 1) * 2 ^ d.log2Blksz ≤ 2147483648

instance (b : Nat) : Decidable (InReach e d b) := inferInstanceAs (Decidable (_ ∧ _))

/-- What stands in the second buffer when an inner block is not read into it. -/
def staleEntry (g : Globals) (i : Nat) : Nat :=
  (g.indir2.prepare e d.blksz (g.indir1.prepare e d.blksz g.mallocs).2.1).1.entry i

/-- The number that is found is the right one: where a pointer is 0, the block 0 that is read in its place
    has a 0 there; and where the inner block has the number of the outer one, so that it is not
    read, the second buffer is right by chance. -/
structure NumberRight (g : Globals) (inode : Inode) (fileblock : Nat) : Prop where
  single : indirectBlocks ≤ fileblock → fileblock < indirectBlocks + d.blksz / 4 →
    InReach e d inode.indirBlock.toNat ∧
      (inode.indirBlock.toNat = 0 → blockEntry e d 0 (fileblock - indirectBlocks) = 0)
  double : indirectBlocks + d.blksz / 4 ≤ fileblock →
    fileblock < indirectBlocks + d.blksz / 4 * (d.blksz / 4 + 1) →
    let rblock := fileblock - (indirectBlocks + d.blksz / 4)
    let outer := inode.doubleIndirBlock.toNat
    let inner := blockEntry e d outer (rblock / (d.blksz / 4))
    let number := if inner = outer then staleEntry e d g (rblock % (d.blksz / 4))
      else blockEntry e d inner (rblock % (d.blksz / 4))
    InReach e d outer ∧ InReach e d inner ∧ (outer = 0 ∨ inner = 0 → number = 0) ∧
      (inner = outer → number = if outer = 0 then 0 else blockEntry e d inner (rblock % (d.blksz / 4)))

/-- A call that meets no failure of `block_read` or `malloc`, of which it makes at most two calls each, and
    finds the right number, if there is one. -/
structure CallOk (g : Globals) (c : Inode × Nat) : Prop where
  reads : indirectBlocks ≤ c.2 → e.ok g.reads = true ∧ e.ok (g.reads + 1) = true
  mallocs : indirectBlocks ≤ c.2 → (e.malloc g.mallocs).isSome ∧ (e.malloc (g.mallocs + 1)).isSome
  number : blockMap e d c.1 c.2 ≠ none → NumberRight e d g c.1 c.2

end BlockMap

/-- The globals as they are before the first call, and after `ext2fs_close`. -/
def noCaches : Globals := ⟨⟨none, 0, minusOne⟩, ⟨none, 0, minusOne⟩, 0, 0, []⟩

-- ============================================================================
-- Reading an indirect block
-- ============================================================================

section Fetch

variable {e : Env} {d : Ext2Data} {g : Globals} {kind : ReadKind} {c : Cache} {ptr known k sector : Nat}
  {ram : Ram}

/-- A whole block is read with one call of `block_read`, or with none when it is not in the partition. -/
theorem devread_block (hsector : sector < 4294967296) (hok : e.ok k = true) :
    ext2fsDevread e k (toInt sector) 0 d.blksz ram 0 =
      if sector < 2147483648 ∧ sector + 2 ^ d.log2Blksz ≤ e.size then
        ⟨k + 1, ram.store 0 (e.bytes.read (512 * sector) d.blksz), .ok, false⟩
      else ⟨k, ram, .error, true⟩ := by
  have htwo := two_le_pow d
  rw [blksz_eq d]
  generalize 2 ^ d.log2Blksz = n at htwo ⊢
  have hlast : ((0 : Nat) + ((512 * n : Nat) : Int) - 1) / sectorSize = n - 1 := by
    simp only [sectorSize]
    omega
  rw [ext2fsDevread, hlast]
  dsimp only
  by_cases hneg : sector < 2147483648
  · rw [toInt_of_lt hneg]
    by_cases hin : sector < 2147483648 ∧ sector + n ≤ e.size
    · have hread : e.blockRead k sector n = e.bytes.read (512 * sector) (512 * n) := by
        rw [Env.blockRead, if_pos hok]
        rfl
      have hoff : ¬ 0 % sectorSize ≠ 0 := fun h => h (Nat.zero_mod _)
      rw [if_pos hin, if_neg (by omega), if_neg hoff, if_neg (by omega), devreadAligned]
      simp only [sectorSize, Int.toNat_natCast, Nat.mul_div_cancel_left n (by decide : 0 < 512),
        Nat.mul_mod_right, Nat.zero_div, Nat.add_zero, hok, hread]
      rw [if_neg (by omega), if_neg (by omega)]
      rfl
    · rw [if_neg hin, if_pos (by omega)]
  · have hlt := toInt_neg (by omega) hsector
    rw [if_pos (.inl hlt), if_neg fun h => hneg h.1]

/-- The buffer holds the block that starts at the sector. -/
def Cache.Shows (e : Env) (d : Ext2Data) (c : Cache) (sector : Nat) : Prop :=
  ∀ x, x < d.blksz → (c.block.getD fun _ => 0) x = e.bytes (512 * sector + x)

/-- The buffer holds the block that it is said to hold. -/
def Cache.Valid (e : Env) (d : Ext2Data) (c : Cache) : Prop := c.blkno ≠ minusOne → c.Shows e d c.blkno

theorem InReach.u32_eq {b : Nat} (h : InReach e d b) : u32 (b * 2 ^ d.log2Blksz) = b * 2 ^ d.log2Blksz := by
  have hle := h.2
  rw [Nat.succ_mul] at hle
  have hb := Nat.le_of_add_right_le hle
  exact u32_of_lt (by omega)

/-- The numbers in a buffer are those of the block it holds. -/
theorem Cache.Shows.entry {b i : Nat} (h : c.Shows e d (b * 2 ^ d.log2Blksz)) (hi : i < d.blksz / 4) :
    c.entry i = blockEntry e d b i := by
  have hstart : 512 * (b * 2 ^ d.log2Blksz) = b * d.blksz := by
    rw [blksz_eq]
    ring
  have hcell : ∀ x, x < d.blksz → (c.block.getD fun _ => 0) x = e.bytes (b * d.blksz + x) := hstart ▸ h
  simp only [Cache.entry, blockEntry, rd32, Nat.add_assoc]
  rw [hcell _ (by omega), hcell _ (by omega), hcell _ (by omega), hcell _ (by omega)]

/-- The buffer that is prepared keeps its block or is said to hold none. -/
theorem Cache.Valid.prepare (h : c.Valid e d) (blksz mallocs : Nat) :
    (c.prepare e blksz mallocs).1.Valid e d := by
  have hnone : ∀ (block : Option (Mem UInt8)) (size : Nat), Cache.Valid e d ⟨block, size, minusOne⟩ :=
    fun _ _ hne => absurd rfl hne
  unfold Cache.prepare
  cases c.block with
  | none =>
    cases e.malloc mallocs with
    | none => exact h
    | some m => exact hnone _ _
  | some _ =>
    by_cases hsize : blksz ≠ c.size
    · rw [if_pos hsize]
      cases e.malloc mallocs <;> exact hnone _ _
    · rw [if_neg hsize]
      exact h

/-- There is room when the next `malloc` succeeds, which is called at most once. -/
theorem Cache.prepare_room (c : Cache) (blksz : Nat) {mallocs : Nat} (h : (e.malloc mallocs).isSome) :
    (c.prepare e blksz mallocs).2.2 = true ∧
      ((c.prepare e blksz mallocs).2.1 = mallocs ∨ (c.prepare e blksz mallocs).2.1 = mallocs + 1) := by
  obtain ⟨m, hm⟩ := Option.isSome_iff_exists.mp h
  unfold Cache.prepare
  rw [hm]
  cases c.block with
  | none => exact ⟨rfl, .inr rfl⟩
  | some _ =>
    by_cases hsize : blksz ≠ c.size
    · rw [if_pos hsize]
      exact ⟨rfl, .inr rfl⟩
    · rw [if_neg hsize]
      exact ⟨rfl, .inl rfl⟩

/-- The rest of the globals is left alone. -/
theorem fetch_frame (g : Globals) (kind : ReadKind) (c : Cache) (ptr known : Nat) :
    (fetch e d g kind c ptr known).1.indir1 = g.indir1 ∧ (fetch e d g kind c ptr known).1.indir2 = g.indir2 ∧
      (fetch e d g kind c ptr known).1.mallocs = g.mallocs := by
  unfold fetch
  dsimp only
  split
  · split <;> exact ⟨rfl, rfl, rfl⟩
  · exact ⟨rfl, rfl, rfl⟩

/-- What a read leaves: the block in the buffer and its sector noted, or the buffer as it was. -/
theorem fetch_read (kind : ReadKind) (c : Cache) (hok : e.ok g.reads = true)
    (hknown : u32 (ptr * 2 ^ d.log2Blksz) ≠ known) :
    let sector := u32 (ptr * 2 ^ d.log2Blksz)
    let r := fetch e d g kind c ptr known
    if sector < 2147483648 ∧ sector + 2 ^ d.log2Blksz ≤ e.size then
      r.1.reads = g.reads + 1 ∧ r.2.2 = true ∧ r.2.1.blkno = sector ∧ r.2.1.Shows e d sector
    else r.1.reads = g.reads ∧ r.2.2 = false ∧ r.2.1.blkno = c.blkno ∧
      (c.Shows e d c.blkno → r.2.1.Shows e d c.blkno) := by
  dsimp only
  rw [fetch, if_pos hknown, devread_block (u32_lt _) hok]
  generalize u32 (ptr * 2 ^ d.log2Blksz) = sector
  split
  · refine ⟨rfl, rfl, rfl, fun x hx => ?_⟩
    have hlt : x < (e.bytes.read (512 * sector) d.blksz).length := by
      rw [Mem.read_length]
      exact hx
    have hcell := Mem.write_inside (c.block.getD fun _ => 0) (a := 0) hlt
    rw [Mem.getElem_read, Nat.zero_add] at hcell
    exact hcell
  · exact ⟨rfl, rfl, rfl, fun h => h⟩

/-- At most one call of `block_read` is made. -/
theorem fetch_reads (kind : ReadKind) (c : Cache) (ptr known : Nat) (hok : e.ok g.reads = true) :
    (fetch e d g kind c ptr known).1.reads = g.reads ∨ (fetch e d g kind c ptr known).1.reads = g.reads + 1 := by
  by_cases hknown : u32 (ptr * 2 ^ d.log2Blksz) = known
  · rw [fetch, if_neg (not_not.mpr hknown)]
    exact .inl rfl
  · have hread := fetch_read kind c hok hknown
    dsimp only at hread
    split at hread
    · exact .inr hread.1
    · exact .inl hread.1

/-- A buffer that holds what it is said to hold still does. -/
theorem Cache.Valid.fetch (h : c.Valid e d) (kind : ReadKind) (ptr : Nat) (hok : e.ok g.reads = true) :
    (fetch e d g kind c ptr c.blkno).2.1.Valid e d := by
  by_cases hknown : u32 (ptr * 2 ^ d.log2Blksz) = c.blkno
  · rw [Ext2.fetch, if_neg (not_not.mpr hknown)]
    exact h
  · have hread := fetch_read kind c hok hknown
    dsimp only at hread
    split at hread
    · obtain ⟨_, _, hblkno, hshows⟩ := hread
      exact fun _ => hblkno ▸ hshows
    · obtain ⟨_, _, hblkno, hshows⟩ := hread
      intro hne
      rw [hblkno] at hne ⊢
      exact hshows (h hne)

/-- A block in reach that is not taken to be known is read. -/
theorem fetch_miss (kind : ReadKind) (c : Cache) (hok : e.ok g.reads = true) (hin : InReach e d ptr)
    (hknown : ptr * 2 ^ d.log2Blksz ≠ known) :
    (fetch e d g kind c ptr known).2.2 = true ∧
      (fetch e d g kind c ptr known).2.1.blkno = ptr * 2 ^ d.log2Blksz ∧
      (fetch e d g kind c ptr known).2.1.Shows e d (ptr * 2 ^ d.log2Blksz) := by
  have hread := fetch_read kind c hok (hin.u32_eq ▸ hknown)
  have hpos := Nat.two_pow_pos d.log2Blksz
  have hblock := hin.1
  have hreach := hin.2
  rw [HasBlock, Nat.succ_mul] at hblock
  rw [Nat.succ_mul] at hreach
  dsimp only at hread
  rw [hin.u32_eq, if_pos ⟨by omega, hblock⟩] at hread
  exact hread.2

/-- A block that is taken to be known is not. -/
theorem fetch_hit (hin : InReach e d ptr) (hknown : ptr * 2 ^ d.log2Blksz = known) :
    fetch e d g kind c ptr known = (g, c, true) := by
  rw [fetch, if_neg (not_not.mpr (hin.u32_eq.trans hknown))]

/-- A block in reach is in the buffer that is asked about it. -/
theorem fetch_own (kind : ReadKind) (h : c.Valid e d) (hok : e.ok g.reads = true) (hin : InReach e d ptr) :
    (fetch e d g kind c ptr c.blkno).2.2 = true ∧
      (fetch e d g kind c ptr c.blkno).2.1.blkno = ptr * 2 ^ d.log2Blksz ∧
      (fetch e d g kind c ptr c.blkno).2.1.Shows e d (ptr * 2 ^ d.log2Blksz) := by
  by_cases hknown : ptr * 2 ^ d.log2Blksz = c.blkno
  · have hne : c.blkno ≠ minusOne := by
      have hreach := hin.2
      rw [Nat.succ_mul] at hreach
      have hle := Nat.le_of_add_right_le hreach
      rw [← hknown, minusOne]
      omega
    rw [fetch_hit hin hknown, hknown]
    exact ⟨rfl, rfl, h hne⟩
  · exact fetch_miss kind c hok hin hknown

end Fetch

-- ============================================================================
-- A call
-- ============================================================================

section Call

variable {e : Env} {d : Ext2Data} {g : Globals} {inode : Inode} {fileblock : Nat}

/-- The single indirect case reads the number off the indirect block. -/
theorem readIndirect_right (hv : g.indir1.Valid e d) (hok : e.ok g.reads = true)
    (hmalloc : (e.malloc g.mallocs).isSome) :
    (readIndirect e d g inode fileblock).1.indir1.Valid e d ∧
      (InReach e d inode.indirBlock.toNat → fileblock - indirectBlocks < d.blksz / 4 →
        (readIndirect e d g inode fileblock).2 =
          toInt (blockEntry e d inode.indirBlock.toNat (fileblock - indirectBlocks))) := by
  obtain ⟨hroom, _⟩ := Cache.prepare_room g.indir1 d.blksz hmalloc
  have hprep := hv.prepare d.blksz g.mallocs
  rw [readIndirect]
  dsimp only
  rw [hroom, if_neg (by decide)]
  generalize (g.indir1.prepare e d.blksz g.mallocs).1 = c at hprep ⊢
  have hvalid := hprep.fetch (g := { g with indir1 := c, mallocs := (g.indir1.prepare e d.blksz g.mallocs).2.1 })
    .indirect inode.indirBlock.toNat hok
  refine ⟨?_, fun hin hi => ?_⟩
  · split <;> exact hvalid
  · obtain ⟨htrue, _, hshows⟩ := fetch_own
      (g := { g with indir1 := c, mallocs := (g.indir1.prepare e d.blksz g.mallocs).2.1 }) .indirect hprep hok hin
    rw [htrue, if_neg (by decide), hshows.entry hi]

/-- The double indirect case leaves the first buffer as the outer block was fetched into it. -/
theorem readDoubleIndirect_valid (hv : g.indir1.Valid e d) (hok : e.ok g.reads = true) :
    (readDoubleIndirect e d g inode fileblock).1.indir1.Valid e d := by
  have hprep := hv.prepare d.blksz g.mallocs
  rw [readDoubleIndirect]
  dsimp only
  generalize g.indir1.prepare e d.blksz g.mallocs = p at hprep ⊢
  have hvalid := hprep.fetch (g := { g with indir1 := p.1, mallocs := p.2.1 }) .doubleOuter
    inode.doubleIndirBlock.toNat hok
  split
  · exact hprep
  split
  · exact hvalid
  split
  · exact hvalid
  split <;>
  · rw [(fetch_frame ..).1]
    exact hvalid

/-- The number that the double indirect case finds: the second buffer as it was when the inner block has the
    number of the outer one, and else the one in the inner block. -/
theorem readDoubleIndirect_right (hv : g.indir1.Valid e d) (hok : e.ok g.reads = true ∧ e.ok (g.reads + 1) = true)
    (hmalloc : (e.malloc g.mallocs).isSome ∧ (e.malloc (g.mallocs + 1)).isSome) {rblock outer inner : Nat}
    (hrblock : fileblock - (indirectBlocks + d.blksz / 4) = rblock) (houter : inode.doubleIndirBlock.toNat = outer)
    (hinner : blockEntry e d outer (rblock / (d.blksz / 4)) = inner) (hlt : rblock < d.blksz / 4 * (d.blksz / 4))
    (hinOuter : InReach e d outer) (hinInner : InReach e d inner) :
    (readDoubleIndirect e d g inode fileblock).2 =
      toInt (if inner = outer then staleEntry e d g (rblock % (d.blksz / 4))
        else blockEntry e d inner (rblock % (d.blksz / 4))) := by
  have hpos : 0 < d.blksz / 4 := Nat.pos_of_mul_pos_left (Nat.zero_lt_of_lt hlt)
  obtain ⟨hroom, hmallocs⟩ := Cache.prepare_room g.indir1 d.blksz hmalloc.1
  have hprep := hv.prepare d.blksz g.mallocs
  rw [readDoubleIndirect, staleEntry]
  dsimp only
  rw [hrblock, houter, hroom, if_neg (by decide)]
  generalize g.indir1.prepare e d.blksz g.mallocs = p at hprep hmallocs ⊢
  -- the outer block
  obtain ⟨htrue, hblkno, hshows⟩ := fetch_own (g := { g with indir1 := p.1, mallocs := p.2.1 })
    .doubleOuter hprep hok.1 hinOuter
  have hframe := fetch_frame (e := e) (d := d) { g with indir1 := p.1, mallocs := p.2.1 }
    .doubleOuter p.1 outer p.1.blkno
  have hreads := fetch_reads (d := d) (g := { g with indir1 := p.1, mallocs := p.2.1 })
    .doubleOuter p.1 outer p.1.blkno hok.1
  generalize fetch e d { g with indir1 := p.1, mallocs := p.2.1 } .doubleOuter p.1 outer p.1.blkno = r
    at htrue hblkno hshows hframe hreads ⊢
  obtain ⟨_, hindir2, hmallocs'⟩ := hframe
  dsimp only at hindir2 hmallocs' hreads
  -- room for the inner block
  have hmalloc2 : (e.malloc p.2.1).isSome := by
    obtain heq | heq := hmallocs <;> rw [heq]
    · exact hmalloc.1
    · exact hmalloc.2
  obtain ⟨hroom2, _⟩ := Cache.prepare_room g.indir2 d.blksz hmalloc2
  have hok2 : e.ok r.1.reads = true := by
    obtain heq | heq := hreads <;> rw [heq]
    · exact hok.1
    · exact hok.2
  rw [htrue, hindir2, hmallocs', hroom2, if_neg (by decide), if_neg (by decide), hblkno,
    hshows.entry (Nat.div_lt_of_lt_mul hlt), hinner]
  generalize (g.indir2.prepare e d.blksz p.2.1) = q
  -- the inner block
  by_cases hsame : inner = outer
  · rw [fetch_hit hinInner (by rw [hsame]), if_pos hsame]
    rfl
  · have hne : inner * 2 ^ d.log2Blksz ≠ outer * 2 ^ d.log2Blksz := fun h =>
      hsame (Nat.eq_of_mul_eq_mul_right (Nat.two_pow_pos _) h)
    obtain ⟨htrue2, _, hshows2⟩ := fetch_miss .doubleInner q.1
      (g := { r.1 with indir1 := r.2.1, indir2 := q.1, mallocs := q.2.1 }) hok2 hinInner hne
    rw [htrue2, if_neg (by decide), if_neg hsame, hshows2.entry (Nat.mod_lt _ hpos)]

/-- Every call leaves the first buffer right about what it holds. -/
theorem ext2fsReadBlock_valid {c : Inode × Nat} (hv : g.indir1.Valid e d) (hok : CallOk e d g c) :
    (ext2fsReadBlock e d g c.1 c.2).1.indir1.Valid e d := by
  rw [ext2fsReadBlock]
  split
  · exact hv
  · have hreads := hok.reads (by omega)
    split
    · exact (readIndirect_right hv hreads.1 (hok.mallocs (by omega)).1).1
    split
    · exact readDoubleIndirect_valid hv hreads.1
    · exact hv

/-- The answer of a call that finds the right number. -/
theorem ext2fsReadBlock_agrees {c : Inode × Nat} (hv : g.indir1.Valid e d) (hok : CallOk e d g c) :
    Agrees e d c (ext2fsReadBlock e d g c.1 c.2).2 := by
  obtain ⟨inode, fileblock⟩ := c
  intro n hn
  have hright := hok.number (by rw [hn]; exact Option.some_ne_none n)
  rw [ext2fsReadBlock]
  rw [blockMap] at hn
  dsimp only at hn ⊢
  by_cases hdirect : fileblock < indirectBlocks
  · rw [dif_pos hdirect, Option.some.injEq] at hn
    rw [dif_pos hdirect, hn]
  have hreads := hok.reads (by omega)
  have hmallocs := hok.mallocs (by omega)
  rw [dif_neg hdirect] at hn ⊢
  by_cases hsingle : fileblock < indirectBlocks + d.blksz / 4
  · obtain ⟨hin, hzero⟩ := hright.single (by omega) hsingle
    rw [if_pos hsingle] at hn ⊢
    rw [(readIndirect_right hv hreads.1 hmallocs.1).2 hin (by omega)]
    by_cases hhole : inode.indirBlock.toNat = 0
    · rw [if_pos hhole, Option.some.injEq] at hn
      rw [hhole, hzero hhole, hn]
    · rw [if_neg hhole, if_pos hin.1, Option.some.injEq] at hn
      rw [hn]
  rw [if_neg hsingle] at hn ⊢
  by_cases hdouble : fileblock < indirectBlocks + d.blksz / 4 * (d.blksz / 4 + 1)
  · obtain ⟨houter, hinner, hzero, hsame⟩ := hright.double (by omega) hdouble
    rw [if_pos hdouble] at hn ⊢
    rw [Nat.mul_succ] at hdouble
    rw [readDoubleIndirect_right hv hreads hmallocs rfl rfl rfl (by omega) houter hinner]
    dsimp only at houter hinner hzero hsame
    congr 1
    by_cases hhole : inode.doubleIndirBlock.toNat = 0
    · rw [if_pos hhole, Option.some.injEq] at hn
      rw [hzero (.inl hhole), hn]
    rw [if_neg hhole, if_pos houter.1] at hn
    split at hn
    next hhole' =>
      rw [Option.some.injEq] at hn
      rw [hzero (.inr hhole'), hn]
    next =>
      rw [if_pos hinner.1, Option.some.injEq] at hn
      by_cases heq : blockEntry e d inode.doubleIndirBlock.toNat
          ((fileblock - (indirectBlocks + d.blksz / 4)) / (d.blksz / 4)) = inode.doubleIndirBlock.toNat
      · rw [hsame heq, if_neg hhole, hn]
      · rw [if_neg heq, hn]
  · rw [if_neg hdouble] at hn
    exact absurd hn (by simp)

end Call

/-- The answers of `ext2fs_read_block` over any sequence of calls agree with the block map, as long as no
    call meets a failure or a number in the wrong place. -/
theorem answers_agree (e : Env) (d : Ext2Data) (calls : List (Inode × Nat))
    (h : Guarded (fun g c => (ext2fsReadBlock e d g c.1 c.2).1) (CallOk e d) noCaches calls) :
    List.Forall₂ (Agrees e d) calls (answers (fun g c => ext2fsReadBlock e d g c.1 c.2) noCaches calls) := by
  have hstart : noCaches.indir1.Valid e d := fun hne => absurd rfl hne
  have hinv : ∀ (g : Globals) c, g.indir1.Valid e d → CallOk e d g c →
      (ext2fsReadBlock e d g c.1 c.2).1.indir1.Valid e d := fun _ _ => ext2fsReadBlock_valid
  have hright : ∀ (g : Globals) c, g.indir1.Valid e d → CallOk e d g c →
      Agrees e d c (ext2fsReadBlock e d g c.1 c.2).2 := fun _ _ => ext2fsReadBlock_agrees
  exact answers_forall₂ hinv hright hstart h

/-- Blocks of 1 KiB: the block 1 is an indirect one, 2 a double indirect one and 3 the one below it. -/
def smallImage : Env where
  bytes x := if x = 1024 then 5 else if x = 2048 then 3 else if x = 3072 then 9 else 0
  size := 64
  size_lt := by decide
  ok _ := true
  junk _ _ := 0
  malloc _ := some fun _ => 0

/-- The superblock of that image. -/
def smallData : Ext2Data := ⟨0, by decide⟩

/-- An inode of that image. -/
def smallInode : Inode := ⟨400000, fun _ => 4, 1, 2⟩

theorem answers_agree_smallImage :
    List.Forall₂ (Agrees smallImage smallData)
      [(smallInode, 3), (smallInode, 12), (smallInode, 268), (smallInode, 12)]
      (answers (fun g c => ext2fsReadBlock smallImage smallData g c.1 c.2) noCaches
        [(smallInode, 3), (smallInode, 12), (smallInode, 268), (smallInode, 12)]) := by
  have hdirect : ∀ g, CallOk smallImage smallData g (smallInode, 3) := fun _ =>
    ⟨fun h => absurd h (by decide), fun h => absurd h (by decide), fun _ =>
      ⟨fun h => absurd h (by decide), fun h => absurd h (by decide)⟩⟩
  have hsingle : ∀ g, CallOk smallImage smallData g (smallInode, 12) := fun _ =>
    ⟨fun _ => ⟨rfl, rfl⟩, fun _ => ⟨rfl, rfl⟩, fun _ => ⟨fun _ _ => by decide, fun h => absurd h (by decide)⟩⟩
  have hdouble : ∀ g, CallOk smallImage smallData g (smallInode, 268) := fun _ =>
    ⟨fun _ => ⟨rfl, rfl⟩, fun _ => ⟨rfl, rfl⟩, fun _ => ⟨fun _ h => absurd h (by decide), fun _ _ =>
      ⟨by decide, by decide, fun h => absurd h (by decide), fun h => absurd h (by decide)⟩⟩⟩
  exact answers_agree _ _ _ ⟨hdirect _, hsingle _, hdouble _, hsingle _, trivial⟩

/-- Blocks of 4 KiB: the superblock, with its number of inodes in front, lies in the block 0. -/
def sparseImage : Env := { smallImage with bytes := fun x => if x = 1024 then 16 else 0 }

/-- The superblock of that image. -/
def sparseData : Ext2Data := ⟨2, by decide⟩

/-- A file without blocks. -/
def sparseInode : Inode := ⟨1200000, fun _ => 0, 0, 0⟩

/-- The number of inodes is taken for that of a block where the file has a hole. -/
theorem sparse_disagrees :
    ¬ List.Forall₂ (Agrees sparseImage sparseData) [(sparseInode, 268)]
      (answers (fun g c => ext2fsReadBlock sparseImage sparseData g c.1 c.2) noCaches [(sparseInode, 268)]) := by
  intro h
  rw [answers, List.forall₂_cons] at h
  have hhole : (ext2fsReadBlock sparseImage sparseData noCaches sparseInode 268).2 = 0 := h.1 0 (by decide)
  have hvalid : noCaches.indir1.Valid sparseImage sparseData := fun hne => absurd rfl hne
  have hread : (readIndirect sparseImage sparseData noCaches sparseInode 268).2 =
      toInt (blockEntry sparseImage sparseData 0 256) :=
    (readIndirect_right hvalid rfl rfl).2 (by decide) (by decide)
  rw [ext2fsReadBlock, dif_neg (by decide), if_pos (by decide), hread] at hhole
  exact absurd hhole (by decide)

end Uboot.Fs.Ext2
