/-
  Uboot.Fs.Fat

  The reader of FAT volumes, fs/fat/fat.c: the boot sector, entries of the file
  allocation table, directory entries with their long names, and the loop of
  `do_fat_read` that looks a name up in the root directory.

  A volume is the memory of its bytes, from the first sector of the partition on.  The
  sectors of the reader have 512 bytes whatever the boot sector says.  The buffer of
  `get_fatent` only saves reads and is left out.
-/

import Uboot.Lib.Mem
import Uboot.LibGeneric.Vsprintf

namespace Uboot.Fs.Fat

open Uboot.Lib Uboot.LibGeneric

-- ============================================================================
-- The boot sector
-- ============================================================================

/-! Fields of `boot_sector`. -/

def sectorSize (m : Mem UInt8) : Nat := rd16 m 11
def clusterSize (m : Mem UInt8) : Nat := (m 13).toNat
def reserved (m : Mem UInt8) : Nat := rd16 m 14
def fats (m : Mem UInt8) : Nat := (m 16).toNat
def dirEntries (m : Mem UInt8) : Nat := rd16 m 17
def media (m : Mem UInt8) : Nat := (m 21).toNat
def fatLength (m : Mem UInt8) : Nat := rd16 m 22
def fat32Length (m : Mem UInt8) : Nat := rd32 m 36
def rootCluster (m : Mem UInt8) : Nat := rd32 m 44

/-- `fatsize`. -/
inductive FatSize
  | fat12
  | fat16
  | fat32
  deriving DecidableEq

def fat12Sign : List UInt8 := ascii "FAT12   "
def fat16Sign : List UInt8 := ascii "FAT16   "
def fat32Sign : List UInt8 := ascii "FAT32   "

/-- `read_bootsectandvi`: `volume_info` stands behind the fields that only FAT32 has, or
    in their place. -/
def readBootsectandvi (m : Mem UInt8) : Option FatSize :=
  if fatLength m = 0 then
    if m.read 82 8 = fat32Sign then some .fat32 else none
  else if m.read 54 8 = fat12Sign then some .fat12
  else if m.read 54 8 = fat16Sign then some .fat16
  else none

/-- `fsdata`. -/
structure FsData where
  fatsize : FatSize
  fatSect : Nat
  rootdirSect : Nat
  clustSize : Nat
  dataBegin : Int

/-- `mydata` in `do_fat_read`.  Lengths and sector numbers are `u16`, `data_begin` is a
    `short`. -/
def fsData (m : Mem UInt8) (fatsize : FatSize) : FsData :=
  let fatlength := (if fatsize = .fat32 then fat32Length m else fatLength m) % 65536
  let rootdirSect := (reserved m + fatlength * fats m) % 65536
  let rootdirSize := if fatsize = .fat32 then 0 else dirEntries m * 32 / 512
  let dataBegin : Int := rootdirSect + rootdirSize - clusterSize m * 2
  { fatsize
    fatSect := reserved m
    rootdirSect
    clustSize := clusterSize m
    dataBegin := (dataBegin + 32768) % 65536 - 32768 }

-- ============================================================================
-- Clusters
-- ============================================================================

/-- `get_fatent`. -/
def getFatent (m : Mem UInt8) (fs : FsData) (entry : Nat) : Nat :=
  let fat := 512 * fs.fatSect
  match fs.fatsize with
  | .fat32 => rd32 m (fat + 4 * entry)
  | .fat16 => rd16 m (fat + 2 * entry)
  | .fat12 =>
    let val1 := rd16 m (fat + 2 * (entry * 3 / 4))
    let val2 := rd16 m (fat + 2 * (entry * 3 / 4 + 1))
    match entry % 4 with
    | 0 => val1 % 4096
    | 1 => val2 % 256 * 16 + val1 / 4096
    | 2 => val2 % 16 * 256 + val1 / 256
    | _ => val1 / 16

/-- `CHECK_CLUST` -/
def checkClust (fatsize : FatSize) (x : Nat) : Bool :=
  x ≤ 1 || (if fatsize = .fat32 then 0xffffff0 else 0xfff0) ≤ x

/-- `dir_entry` or `dir_slot`: the 32 bytes. -/
abbrev DirEntry := List UInt8

/-- A buffer of sectors, as the entries in it. -/
abbrev Block := Nat → DirEntry

/-- What `disk_read` puts into a buffer. -/
def diskRead (m : Mem UInt8) (startblock : Nat) : Block :=
  fun i => m.read (512 * startblock + 32 * i) 32

/-- The first sector of a cluster, in `get_cluster`. -/
def startsect (fs : FsData) (clustnum : Nat) : Nat :=
  if 0 < clustnum then ((fs.dataBegin + clustnum * fs.clustSize) % 4294967296).toNat
  else fs.rootdirSect

-- ============================================================================
-- Directory entries
-- ============================================================================

/-- `name[0]`, which is the `id` of a slot. -/
def DirEntry.name0 (d : DirEntry) : Nat := (d.getD 0 0).toNat

def DirEntry.attr (d : DirEntry) : Nat := (d.getD 11 0).toNat

/-- `attr & ATTR_VOLUME` -/
def DirEntry.isVolume (d : DirEntry) : Bool := d.attr / 8 % 2 = 1

/-- `attr & ATTR_DIR` -/
def DirEntry.isDir (d : DirEntry) : Bool := d.attr / 16 % 2 = 1

/-- `attr & ATTR_VFAT`: any of the four bits. -/
def DirEntry.isVfat (d : DirEntry) : Bool := d.attr % 16 ≠ 0

/-- `id & LAST_LONG_ENTRY_MASK` -/
def DirEntry.lastLong (d : DirEntry) : Bool := d.name0 / 64 % 2 = 1

/-- `id & ~LAST_LONG_ENTRY_MASK` -/
def DirEntry.number (d : DirEntry) : Nat := d.name0 % 64 + 128 * (d.name0 / 128)

/-- `TOLOWER` -/
def toLower (c : UInt8) : UInt8 := if 65 ≤ c ∧ c ≤ 90 then c + 32 else c

def downcase (s : List UInt8) : List UInt8 := s.map toLower

/-- How `get_name` and `get_vfatname` treat the first byte: `DELETED_FLAG` leaves no
    name, `aRING` stands for 0xe5.  Then `downcase`. -/
def finishName : List UInt8 → List UInt8
  | [] => []
  | c :: cs => if c = 0xe5 then [] else if c = 0x05 then downcase (0xe5 :: cs) else downcase (c :: cs)

/-- A field up to its first blank or zero. -/
def fieldChars (s : List UInt8) : List UInt8 := s.takeWhile fun c => c ≠ 0 && c ≠ 0x20

/-- `get_name`. -/
def getName (d : DirEntry) : List UInt8 :=
  let ext := fieldChars ((d.drop 8).take 3)
  finishName (fieldChars (d.take 8) ++ if ext ≠ [] then 0x2e :: ext else [])

/-- Where the characters of a slot stand: `name0_4`, `name5_10` and `name11_12`. -/
def slotOffsets : List Nat := [1, 3, 5, 7, 9, 14, 16, 18, 20, 22, 24, 28, 30]

/-- The low bytes of the characters of a slot. -/
def slotChars (d : DirEntry) : List UInt8 := slotOffsets.map fun o => d.getD o 0

/-- `slot2str`: what it appends, and whether it has met the terminator. -/
def slot2str (d : DirEntry) : List UInt8 × Bool :=
  ((slotChars d).takeWhile (· ≠ 0), (slotChars d).contains 0)

/-- How the walk over the slots of a long name ends. -/
inductive SlotWalk
  | mismatch (k : Nat)
  | past
  | entry (k : Nat)
  deriving DecidableEq

/-- The first loop of `get_vfatname`: `slotptr` is at entry `k` of `n`. -/
def slotWalk (b : Block) (n : Nat) : Nat → Nat → SlotWalk
  | 0, k => if k < n then .entry k else .past
  | counter + 1, k =>
    if k < n then
      if (b k).number ≠ counter + 1 then .mismatch k else slotWalk b n counter (k + 1)
    else .past

/-- The last loop of `get_vfatname`, which goes back from the slot before entry `k`. -/
def slotsBefore (b : Block) : Nat → List UInt8
  | 0 => []
  | k + 1 =>
    if (slot2str (b k)).2 || (b k).lastLong then (slot2str (b k)).1
    else (slot2str (b k)).1 ++ slotsBefore b k

/-- The loop that looks for the last slot in the next cluster.  In the source it has no
    end but the buffer, which holds 2048 entries. -/
def lastSlot (b : Block) : Nat := ((List.range 2048).find? fun k => (b k).name0 ≤ 1).getD 2048

/-- `get_vfatname (mydata, 0, block, dentptr, l_name)` for entry `i` of the block: the
    real directory entry and the long name. -/
def getVfatname (m : Mem UInt8) (fs : FsData) (b : Block) (i : Nat) :
    Option (DirEntry × List UInt8) :=
  match slotWalk b (16 * fs.clustSize) (b i).number i with
  | .mismatch _ => none
  | .entry k => some (b k, finishName (slotsBefore b k))
  | .past =>
    -- cluster 0 stands for the root, but its entry in the table is no link
    let curclust := getFatent m fs 0
    if checkClust fs.fatsize curclust then none
    else
      let b' := diskRead m (startsect fs curclust)
      let k := lastSlot b'
      let first := (List.range (k + 1)).reverse.flatMap fun j => (slot2str (b' j)).1
      some (b' (k + 1), finishName (first ++ slotsBefore b (16 * fs.clustSize - 1)))

-- ============================================================================
-- The root directory in `do_fat_read`
-- ============================================================================

/-- What the loop does at an entry. -/
inductive Visit
  | next
  | empty
  | found (d : DirEntry)
  deriving DecidableEq

/-- The two `strcmp`. -/
def compareNames (name : List UInt8) (d : DirEntry) (longName : List UInt8) : Visit :=
  if name ≠ getName d ∧ name ≠ longName then .next else .found d

/-- The loop body, when no directory is listed. -/
def visit (m : Mem UInt8) (fs : FsData) (b : Block) (i : Nat) (name : List UInt8) : Visit :=
  if (b i).isVolume then
    if (b i).isVfat && (b i).lastLong then
      match getVfatname m fs b i with
      -- the real entry has taken the place of the slot
      | some (d, longName) => compareNames name d longName
      | none => compareNames name (b i) []
    else .next
  else if (b i).name0 = 0 then .empty
  else compareNames name (b i) []

/-- The sectors with the directory entries that the loop body looks at; the block was
    read from sector `sect`. -/
def examined (m : Mem UInt8) (fs : FsData) (b : Block) (sect i : Nat) : List Nat :=
  if (b i).isVolume && (b i).isVfat && (b i).lastLong then
    match slotWalk b (16 * fs.clustSize) (b i).number i with
    | .mismatch k | .entry k => (List.range (k / 16 + 1)).map (sect + ·)
    | .past =>
      (List.range fs.clustSize).map (sect + ·) ++
        if checkClust fs.fatsize (getFatent m fs 0) then []
        else (List.range fs.clustSize).map (startsect fs (getFatent m fs 0) + ·)
  else [sect + i / 16]

/-- `for (i = 0; i < DIRENTSPERBLOCK; i++)`, for the entries that are left. -/
def scanBlock (m : Mem UInt8) (fs : FsData) (b : Block) (sect : Nat) (name : List UInt8) :
    List Nat → Visit × List Nat
  | [] => (.next, [])
  | i :: is =>
    match visit m fs b i name with
    | .next =>
      let r := scanBlock m fs b sect name is
      (r.1, examined m fs b sect i ++ r.2)
    | v => (v, examined m fs b sect i)

/-- `while (1)` with `cursect`, for as many sectors as the fuel allows: where the loop
    has ended, and the sectors it has looked at. -/
def scanRoot (m : Mem UInt8) (fs : FsData) (name : List UInt8) :
    Nat → Nat → Option (Visit × List Nat)
  | 0, _ => none
  | fuel + 1, cursect =>
    let r := scanBlock m fs (diskRead m cursect) cursect name (List.range 16)
    match r.1 with
    | .next => (scanRoot m fs name fuel (cursect + 1)).map fun q => (q.1, r.2 ++ q.2)
    | v => some (v, r.2)

/-- `ISDIRDELIM` -/
def isDirDelim (c : UInt8) : Bool := c = 0x2f || c = 0x5c

/-- `fnamecopy`. -/
def fnamecopy (filename : List UInt8) : List UInt8 := downcase (filename.dropWhile isDirDelim)

/-- The name that is looked up in the root, the first of the path. -/
def rootName (filename : List UInt8) : List UInt8 :=
  (fnamecopy filename).takeWhile fun c => !isDirDelim c

/-- `isdir`: a directory is to be found. -/
def wantsDir (filename : List UInt8) (dols : Bool) : Bool :=
  (fnamecopy filename).any isDirDelim || dols

/-- `do_fat_read` up to `rootdir_done`, for a name that is not empty: the directory
    entry, or `none` for the return value -1, and the sectors looked at. -/
def lookupRoot (m : Mem UInt8) (filename : List UInt8) (dols : Bool) (fuel : Nat) :
    Option (Option DirEntry × List Nat) :=
  match readBootsectandvi m with
  | none => some (none, [])
  | some fatsize =>
    let fs := fsData m fatsize
    (scanRoot m fs (rootName filename) fuel fs.rootdirSect).map fun r =>
      match r.1 with
      | .found d => (if wantsDir filename dols && !d.isDir then none else some d, r.2)
      | _ => (none, r.2)

end Uboot.Fs.Fat
