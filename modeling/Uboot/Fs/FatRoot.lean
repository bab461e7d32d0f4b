/-
  Uboot.Fs.FatRoot

  Names in the root directory of a FAT volume, and when `do_fat_read` finds them.

  A consistent volume has its root in a region of its own (FAT16) or in a chain of
  clusters (FAT32).  The entries up to the first empty one, or up to the end, are
  deleted entries, volume labels and files, each file with the slots of its long name
  in front.  `do_fat_read` goes from the sector behind the tables to the next and the
  next until it meets a match or an empty entry, so the root has to stand there in one
  piece, up to an empty entry.
-/

import Uboot.Fs.Fat
import Mathlib.Data.List.DropRight
import Mathlib.Data.List.Nodup

namespace Uboot.Fs.Fat

open Uboot.Lib

-- ============================================================================
-- The root directory of a volume
-- ============================================================================

def fatSectors (kind : FatSize) (m : Mem UInt8) : Nat :=
  if kind = .fat32 then fat32Length m else fatLength m

/-- The first byte behind the tables. -/
def dataStart (kind : FatSize) (m : Mem UInt8) : Nat :=
  sectorSize m * (reserved m + fats m * fatSectors kind m)

/-- Entries in a cluster. -/
def perCluster (m : Mem UInt8) : Nat := sectorSize m * clusterSize m / 32

/-- How many entries the root has room for; `chain` has the clusters of a FAT32 root. -/
def rootCount (kind : FatSize) (m : Mem UInt8) (chain : List Nat) : Nat :=
  if kind = .fat32 then chain.length * perCluster m else dirEntries m

/-- Where entry `k` of the root stands. -/
def rootAddr (kind : FatSize) (m : Mem UInt8) (chain : List Nat) (k : Nat) : Nat :=
  if kind = .fat32 then
    dataStart kind m + sectorSize m * clusterSize m * (chain.getD (k / perCluster m) 0 - 2) +
      32 * (k % perCluster m)
  else dataStart kind m + 32 * k

def rootEntry (kind : FatSize) (m : Mem UInt8) (chain : List Nat) (k : Nat) : DirEntry :=
  m.read (rootAddr kind m chain k) 32

/-- A sector with entries of the root. -/
def InRoot (kind : FatSize) (m : Mem UInt8) (chain : List Nat) (sect : Nat) : Prop :=
  ∃ k < rootCount kind m chain, rootAddr kind m chain k / 512 = sect

/-- The entry of cluster `c` in a FAT32 table. -/
def link (m : Mem UInt8) (c : Nat) : Nat :=
  rd32 m (sectorSize m * reserved m + 4 * c) % 268435456

/-- The clusters `cs` are linked in this order and end with an end mark. -/
def IsChain (m : Mem UInt8) : List Nat → Prop
  | [] => False
  | [c] => 2 ≤ c ∧ 0x0ffffff8 ≤ link m c
  | c :: d :: cs => 2 ≤ c ∧ link m c = d ∧ IsChain m (d :: cs)

-- ============================================================================
-- What stands in it
-- ============================================================================

/-- What the entries of a directory are. -/
inductive Item
  | deleted (d : DirEntry)
  | label (d : DirEntry)
  /-- The slots in the order they stand in, the last of the name first. -/
  | file (slots : List DirEntry) (d : DirEntry)

def Item.entries : Item → List DirEntry
  | .deleted d => [d]
  | .label d => [d]
  | .file slots d => slots ++ [d]

/-- A first byte a name can have: 0x05 stands for 0xe5. -/
def LegalFirst (c : Nat) : Prop :=
  c = 0x05 ∨ 0x20 < c ∧ c ≠ 0xe5 ∧
    c ∉ [0x22, 0x2a, 0x2b, 0x2c, 0x2e, 0x2f, 0x3a, 0x3b, 0x3c, 0x3d, 0x3e, 0x3f, 0x5b, 0x5c, 0x5d,
      0x7c]

instance (c : Nat) : Decidable (LegalFirst c) :=
  inferInstanceAs (Decidable (_ ∨ _ ∧ _ ∧ _))

/-- The slots of a long name are numbered down to 1, and the first is marked. -/
def ValidSlots (slots : List DirEntry) : Prop :=
  slots.length ≤ 20 ∧ ∀ j (h : j < slots.length),
    slots[j].attr % 64 = 15 ∧
      slots[j].name0 = slots.length - j + if j = 0 then 64 else 0

instance (slots : List DirEntry) : Decidable (ValidSlots slots) :=
  inferInstanceAs (Decidable (_ ∧ ∀ j (_ : j < _), _ ∧ _))

def Item.Valid : Item → Prop
  | .deleted d => d.name0 = 0xe5
  | .label d => d.isVolume = true ∧ d.attr % 64 ≠ 15 ∧ LegalFirst d.name0
  | .file slots d => d.isVolume = false ∧ LegalFirst d.name0 ∧ ValidSlots slots

instance (i : Item) : Decidable i.Valid :=
  match i with
  | .deleted _ => inferInstanceAs (Decidable (_ = _))
  | .label _ => inferInstanceAs (Decidable (_ ∧ _ ∧ _))
  | .file _ _ => inferInstanceAs (Decidable (_ ∧ _ ∧ _))

/-- A field without the blanks behind it. -/
def trim (s : List UInt8) : List UInt8 := s.rdropWhile (· = 0x20)

/-- The short name of an entry. -/
def shortName (d : DirEntry) : List UInt8 :=
  let ext := trim ((d.drop 8).take 3)
  let s := trim (d.take 8) ++ if ext ≠ [] then 0x2e :: ext else []
  match s with
  | [] => []
  | c :: cs => if c = 0x05 then 0xe5 :: cs else c :: cs

/-- The characters of a slot. -/
def slotUnits (d : DirEntry) : List Nat :=
  slotOffsets.map fun o => (d.getD o 0).toNat + 256 * (d.getD (o + 1) 0).toNat

/-- A long name, in 16-bit characters. -/
def longName (slots : List DirEntry) : List Nat :=
  (slots.reverse.flatMap slotUnits).takeWhile (· ≠ 0)

def lowerUnit (u : Nat) : Nat := if 65 ≤ u ∧ u ≤ 90 then u + 32 else u

/-- The file has the name, which is in lower case, whatever the case of its letters. -/
def Item.named (name : List UInt8) : Item → Bool
  | .file slots d =>
    name = downcase (shortName d) ||
      (slots ≠ [] && name.map UInt8.toNat = (longName slots).map lowerUnit)
  | _ => false

/-- What looking a name up should find. -/
def expected (items : List Item) (name : List UInt8) (wantsDir : Bool) : Option DirEntry :=
  match items.find? (Item.named name) with
  | some (.file _ d) => if wantsDir && !d.isDir then none else some d
  | _ => none

/-- A FAT16 or FAT32 volume whose root directory has the items. -/
structure Consistent (m : Mem UInt8) (kind : FatSize) (chain : List Nat) (items : List Item) :
    Prop where
  sector : sectorSize m ∈ [512, 1024, 2048, 4096]
  cluster : clusterSize m ∈ [1, 2, 4, 8, 16, 32, 64, 128]
  mediaByte : 0xf0 ≤ media m
  /-- The kind, and the first entry of the table, which repeats the media byte. -/
  tables : kind = .fat16 ∧ fatLength m ≠ 0 ∧
      rd16 m (sectorSize m * reserved m) = 0xff00 + media m ∨
    kind = .fat32 ∧ fatLength m = 0 ∧ link m 0 = 0x0fffff00 + media m
  linked : kind = .fat32 → IsChain m chain ∧ chain.head? = some (rootCluster m) ∧ chain.Nodup
  room : (items.flatMap Item.entries).length ≤ rootCount kind m chain
  entries : ∀ k (h : k < (items.flatMap Item.entries).length),
    rootEntry kind m chain k = (items.flatMap Item.entries)[k]
  /-- Behind the items stands an empty entry or nothing. -/
  rest : (items.flatMap Item.entries).length < rootCount kind m chain →
    (rootEntry kind m chain (items.flatMap Item.entries).length).name0 = 0
  valid : ∀ i ∈ items, i.Valid

/-- The name is found if it is there, else the failure is reported, and no sector
    outside the root has been looked at. -/
def LooksUp (m : Mem UInt8) (kind : FatSize) (chain : List Nat) (items : List Item)
    (filename : List UInt8) (dols : Bool) : Prop :=
  ∃ fuel sects,
    lookupRoot m filename dols fuel =
      some (expected items (rootName filename) (wantsDir filename dols), sects) ∧
    ∀ s ∈ sects, InRoot kind m chain s

-- ============================================================================
-- Roots the loop copes with
-- ============================================================================

/-- The slots of each long name and the entry behind them stand in the sectors that are
    read with the first of them; `p` entries stand before the items. -/
def GroupsWhole (n : Nat) : Nat → List Item → Prop
  | _, [] => True
  | p, .file slots _ :: items =>
    (slots ≠ [] → p % 16 + slots.length < n) ∧ GroupsWhole n (p + slots.length + 1) items
  | p, _ :: items => GroupsWhole n (p + 1) items

instance decidableGroupsWhole (n : Nat) : ∀ p items, Decidable (GroupsWhole n p items)
  | _, [] => inferInstanceAs (Decidable True)
  | p, .file slots _ :: items =>
    have := decidableGroupsWhole n (p + slots.length + 1) items
    inferInstanceAs (Decidable (_ ∧ _))
  | p, .deleted _ :: items => decidableGroupsWhole n (p + 1) items
  | p, .label _ :: items => decidableGroupsWhole n (p + 1) items

/-- A field without blanks and zeros inside. -/
def PlainField (s : List UInt8) : Prop := ∀ c ∈ trim s, c ≠ 0 ∧ c ≠ 0x20

instance (s : List UInt8) : Decidable (PlainField s) :=
  inferInstanceAs (Decidable (∀ c ∈ _, _ ∧ _))

/-- The characters of a long name are single bytes, and the first is none of the two
    that mark a deleted name. -/
def PlainLong (us : List Nat) : Prop :=
  (∀ u ∈ us, u < 256) ∧ us.head? ≠ some 0xe5 ∧ us.head? ≠ some 0x05

instance (us : List Nat) : Decidable (PlainLong us) :=
  inferInstanceAs (Decidable ((∀ u ∈ _, _) ∧ _ ∧ _))

/-- The reader knows the names of the item: a label does not look like a slot. -/
def Item.Plain : Item → Prop
  | .deleted _ => True
  | .label d => d.lastLong = false
  | .file slots d =>
    PlainField (d.take 8) ∧ PlainField ((d.drop 8).take 3) ∧ PlainLong (longName slots)

instance (i : Item) : Decidable i.Plain :=
  match i with
  | .deleted _ => inferInstanceAs (Decidable True)
  | .label _ => inferInstanceAs (Decidable (_ = _))
  | .file _ _ => inferInstanceAs (Decidable (_ ∧ _ ∧ _))

/-- The root stands behind the tables in one piece, up to an empty entry; the type is
    spelled out, and sector numbers fit theirs. -/
structure InOnePiece (m : Mem UInt8) (kind : FatSize) (chain : List Nat) (items : List Item) :
    Prop where
  sign : if kind = .fat32 then m.read 82 8 = fat32Sign else m.read 54 8 = fat16Sign
  sector : sectorSize m = 512
  small : fatSectors kind m < 65536 ∧ reserved m + fatSectors kind m * fats m < 65536
  terminated : (items.flatMap Item.entries).length < rootCount kind m chain ∧
    (rootEntry kind m chain (items.flatMap Item.entries).length).isVolume = false
  contiguous : kind = .fat32 →
    ∀ j ≤ (items.flatMap Item.entries).length / perCluster m, chain.getD j 0 = 2 + j
  whole : GroupsWhole (16 * clusterSize m) 0 items
  plain : ∀ i ∈ items, i.Plain

end Uboot.Fs.Fat
