/-
  Uboot.LibGeneric.Lmb

  Logical memory blocks, lib_generic/lmb.c: the memory of a board and what of it is
  reserved, each a sorted array of regions.

  Addresses, sizes and counters are unsigned and 32 bits wide, so `cnt - 1` of an
  empty table is the largest counter.  The array is a function of the index; what
  stands behind the first `cnt` entries is left over from earlier and is read by
  `lmb_add_region` on an empty table.
-/

import Uboot.Lib.Run
import Uboot.Lib.Mem
import Uboot.Lib.ExtentTable
import Mathlib.Data.List.Range

namespace Uboot.LibGeneric

open Uboot.Lib

/-! ## Definitions from the source -/

/-- `MAX_LMB_REGIONS`. -/
def maxLmbRegions : Nat := 8

/-- `struct lmb_property`. -/
structure LmbProperty where
  base : Nat
  size : Nat
  deriving DecidableEq, Repr

/-- `struct lmb_region`. -/
structure LmbRegion where
  cnt : Nat
  region : Nat → LmbProperty

/-- `struct lmb`. -/
structure Lmb where
  memory : LmbRegion
  reserved : LmbRegion

def LmbRegion.set (rgn : LmbRegion) (i : Nat) (p : LmbProperty) : LmbRegion :=
  { rgn with region := Function.update rgn.region i p }

def lmbAddrsOverlap (base1 size1 base2 size2 : Nat) : Bool :=
  base1 < u32 (base2 + size2) && base2 < u32 (base1 + size1)

def lmbAddrsAdjacent (base1 size1 base2 size2 : Nat) : Int :=
  if base2 = u32 (base1 + size1) then 1
  else if base1 = u32 (base2 + size2) then -1
  else 0

def lmbRegionsAdjacent (rgn : LmbRegion) (r1 r2 : Nat) : Int :=
  lmbAddrsAdjacent (rgn.region r1).base (rgn.region r1).size (rgn.region r2).base
    (rgn.region r2).size

/-- The entries from `r` on move down by one. -/
def lmbRemoveRegion (rgn : LmbRegion) (r : Nat) : LmbRegion :=
  let region := (List.range' r (usub rgn.cnt 1 - r)).foldl
    (fun f i => Function.update f i (f (i + 1))) rgn.region
  { cnt := usub rgn.cnt 1, region }

def lmbCoalesceRegions (rgn : LmbRegion) (r1 r2 : Nat) : LmbRegion :=
  let p := rgn.region r1
  lmbRemoveRegion (rgn.set r1 ⟨p.base, u32 (p.size + (rgn.region r2).size)⟩) r2

/-- The first entry that is the region itself or adjacent to it. -/
def findAdjacent (rgn : LmbRegion) (base size : Nat) : Option Nat :=
  (List.range rgn.cnt).find? fun i =>
    decide ((rgn.region i).base = base ∧ (rgn.region i).size = size) ||
      decide (lmbAddrsAdjacent base size (rgn.region i).base (rgn.region i).size ≠ 0)

/-- The loop that makes room from the end, `for (i = n - 1; i >= 0; i--)`. -/
def insertLoop (region : Nat → LmbProperty) (base size : Nat) : Nat → (Nat → LmbProperty)
  | 0 => region
  | i + 1 =>
    if base < (region i).base then
      insertLoop (Function.update region (i + 1) (region i)) base size i
    else Function.update region (i + 1) ⟨base, size⟩

/-- The sorted insertion at the end of `lmb_add_region`. -/
def lmbInsert (rgn : LmbRegion) (base size : Nat) : LmbRegion :=
  let region := insertLoop rgn.region base size rgn.cnt
  let region := if base < (region 0).base then Function.update region 0 ⟨base, size⟩ else region
  { cnt := u32 (rgn.cnt + 1), region }

/-- The entry `i` grown by an adjacent region. -/
def growRegion (rgn : LmbRegion) (i base size : Nat) : LmbRegion :=
  let p := rgn.region i
  if lmbAddrsAdjacent base size p.base p.size > 0 then
    rgn.set i ⟨usub p.base size, u32 (p.size + size)⟩
  else rgn.set i ⟨p.base, u32 (p.size + size)⟩

/-- `lmb_add_region`: the return value and the new table. -/
def lmbAddRegion (rgn : LmbRegion) (base size : Nat) : Int × LmbRegion :=
  if rgn.cnt = 1 ∧ (rgn.region 0).size = 0 then (0, rgn.set 0 ⟨base, size⟩)
  else
    match findAdjacent rgn base size with
    | some i =>
      if (rgn.region i).base = base ∧ (rgn.region i).size = size then (0, rgn)
      else
        let rgn := growRegion rgn i base size
        if i < usub rgn.cnt 1 ∧ lmbRegionsAdjacent rgn i (i + 1) ≠ 0 then
          (2, lmbCoalesceRegions rgn i (i + 1))
        else (1, rgn)
    | none =>
      -- the loop ran through: `i` is `cnt`
      if rgn.cnt < usub rgn.cnt 1 ∧ lmbRegionsAdjacent rgn rgn.cnt (rgn.cnt + 1) ≠ 0 then
        (1, lmbCoalesceRegions rgn rgn.cnt (rgn.cnt + 1))
      else if rgn.cnt ≥ maxLmbRegions then (-1, rgn)
      else (0, lmbInsert rgn base size)

def lmbReserve (l : Lmb) (base size : Nat) : Int × Lmb :=
  let (ret, rgn) := lmbAddRegion l.reserved base size
  (ret, { l with reserved := rgn })

/-- What `lmb_free` does with the entry the range lies in: drop it, trim it at the
    front or at the end, or split it. -/
def freeIn (rgn : LmbRegion) (i base size : Nat) : Int × LmbRegion :=
  let p := rgn.region i
  let fin := u32 (base + size)
  let rgnend := u32 (p.base + p.size)
  if p.base = base ∧ rgnend = fin then (0, lmbRemoveRegion rgn i)
  else if p.base = base then (0, rgn.set i ⟨fin, usub p.size size⟩)
  else if rgnend = fin then (0, rgn.set i ⟨p.base, usub p.size size⟩)
  else
    -- the entry keeps what lies before the hole, the rest is added again
    lmbAddRegion (rgn.set i ⟨p.base, usub base p.base⟩) fin (usub rgnend fin)

/-- The first entry that the range lies in. -/
def findFree (rgn : LmbRegion) (base size : Nat) : Option Nat :=
  (List.range rgn.cnt).find? fun i =>
    (rgn.region i).base ≤ base &&
      u32 (base + size) ≤ u32 ((rgn.region i).base + (rgn.region i).size)

/-- `lmb_free`: the return value and the new table. -/
def lmbFree (l : Lmb) (base size : Nat) : Int × Lmb :=
  match findFree l.reserved base size with
  | none => (-1, l)
  | some i =>
    let (ret, rgn) := freeIn l.reserved i base size
    (ret, { l with reserved := rgn })

def lmbOverlapsRegion (rgn : LmbRegion) (base size : Nat) : Option Nat :=
  (List.range rgn.cnt).find? fun i =>
    lmbAddrsOverlap base size (rgn.region i).base (rgn.region i).size

/-- `~(align - 1)` on 32 bits. -/
def alignMask (align : Nat) : Nat := 4294967295 - usub align 1

def lmbAlignDown (addr align : Nat) : Nat := addr &&& alignMask align

def lmbAlignUp (addr align : Nat) : Nat := u32 (addr + usub align 1) &&& alignMask align

/-- The inner loop of `__lmb_alloc_base` for a memory region at `lmbbase`: `some` is a
    place for `size` bytes.  Each new candidate lies below the last, so `fuel` above
    the first one is enough. -/
def placeLoop (reserved : LmbRegion) (lmbbase size align : Nat) : Nat → Nat → Option Nat
  | 0, _ => none
  | fuel + 1, base =>
    if base ≠ 0 ∧ lmbbase ≤ base then
      match lmbOverlapsRegion reserved base size with
      | none => some base
      | some j =>
        if (reserved.region j).base < size then none
        else
          placeLoop reserved lmbbase size align fuel
            (lmbAlignDown (usub (reserved.region j).base size) align)
    else none

/-- The first candidate in a memory region: `none` where the region is skipped. -/
def firstCandidate (p : LmbProperty) (size align maxAddr : Nat) : Option Nat :=
  if p.size < size then none
  else if maxAddr = 0 then some (lmbAlignDown (usub (u32 (p.base + p.size)) size) align)
  else if p.base < maxAddr then
    some (lmbAlignDown (usub (min (u32 (p.base + p.size)) maxAddr) size) align)
  else none

/-- The outer loop of `__lmb_alloc_base`, from the last memory region down. -/
def findPlace (l : Lmb) (size align maxAddr : Nat) : Nat → Option Nat
  | 0 => none
  | i + 1 =>
    let p := l.memory.region i
    match firstCandidate p size align maxAddr with
    | none => findPlace l size align maxAddr i
    | some base =>
      match placeLoop l.reserved p.base size align (base + 1) base with
      | some place => some place
      | none => findPlace l size align maxAddr i

/-- `__lmb_alloc_base`: the address (0 for failure) and the new tables. -/
def lmbAllocBase (l : Lmb) (size align maxAddr : Nat) : Nat × Lmb :=
  match findPlace l size align maxAddr l.memory.cnt with
  | none => (0, l)
  | some base =>
    let (ret, rgn) := lmbAddRegion l.reserved base (lmbAlignUp size align)
    (if ret < 0 then 0 else base, { l with reserved := rgn })

/-- `lmb_init`.  It clears the first entry of each table and leaves the others as they
    are. -/
def lmbInit (l : Lmb) : Lmb where
  memory := { cnt := 1, region := Function.update l.memory.region 0 ⟨0, 0⟩ }
  reserved := { cnt := 1, region := Function.update l.reserved.region 0 ⟨0, 0⟩ }

end Uboot.LibGeneric
