/-
  Uboot.Fs.Cramfs

  The search for a path in a cramfs image, `cramfs_resolve` of fs/cramfs/cramfs.c.

  An inode stands in front of its name.  The entries of a directory stand one behind the other, and
  an inode is known by its offset in the image.  Console output is left out.
-/

import Uboot.Lib.Mem
import Uboot.LibGeneric.Strtok

namespace Uboot.Fs.Cramfs

open Uboot.Lib Uboot.LibGeneric

-- ============================================================================
-- The image
-- ============================================================================

section Image

variable (m : Mem UInt8) (inode : Nat)

/-- `inode->mode` -/
def inodeMode : Nat := rd16 m inode

/-- `inode->size` -/
def inodeSize : Nat := rd32 m (inode + 4) % 2 ^ 24

/-- `inode->namelen` -/
def inodeNamelen : Nat := rd32 m (inode + 8) % 2 ^ 6

/-- `inode->offset` -/
def inodeOffset : Nat := rd32 m (inode + 8) / 2 ^ 6

def isDir : Bool := inodeMode m inode / 4096 = 4

def isReg : Bool := inodeMode m inode / 4096 = 8

/-- The bytes of a name in front of its padding. -/
def trimmed (name : Nat) : Nat → Nat
  | 0 => 0
  | n + 1 => if m (name + n) ≠ 0 then n + 1 else trimmed name n

/-- `namelen` where the name is compared. -/
def nameLength : Nat := trimmed m (inode + 12) (inodeNamelen m inode * 4)

/-- `sizeof (struct cramfs_inode)` and the padded name. -/
def recordLength : Nat := 12 + inodeNamelen m inode * 4

end Image

-- ============================================================================
-- Definitions from the source
-- ============================================================================

/-- `!strncmp (filename, name, n)`; behind `filename` stands its terminator. -/
def strncmpEq (m : Mem UInt8) : List UInt8 → Nat → Nat → Bool
  | _, _, 0 => true
  | [], name, _ + 1 => 0 = m name
  | c :: filename, name, n + 1 => if c = m name then strncmpEq m filename (name + 1) n else false

/-- How the loop over a directory ends: no entry fits, an entry has no name, an entry fits, or
    `filename` is `NULL` where it is compared. -/
inductive Found
  | missing
  | nameless
  | entry (inodeoffset : Nat)
  | undefined

/-- The loop of `cramfs_resolve`, from `inodeoffset` on; the directory begins at `dir`. -/
def findEntry (m : Mem UInt8) (dir size : Nat) (filename : Option (List UInt8)) (inodeoffset : Nat) : Found :=
  if inodeoffset < size then
    let inode := dir + inodeoffset
    if nameLength m inode = 0 then .nameless
    else
      match filename with
      | none => .undefined
      | some filename =>
        if strncmpEq m filename (inode + 12) (nameLength m inode) then .entry inodeoffset
        else findEntry m dir size (some filename) (inodeoffset + recordLength m inode)
  else .missing
termination_by size - inodeoffset
decreasing_by
  simp only [recordLength]
  omega

/-- Nothing is found for a `NULL` filename. -/
theorem findEntry_none (m : Mem UInt8) (dir size start i : Nat) : findEntry m dir size none start ≠ .entry i := by
  rw [findEntry]
  split
  · dsimp only
    split <;> exact Found.noConfusion
  · exact Found.noConfusion

/-- The byte between the names of a path. -/
def slash : List UInt8 := [47]

/-- The calls that may follow: one for each piece that is left, and one with `NULL`. -/
def callsLeft (filename saved : Option (List UInt8)) : Nat :=
  (piecesOf slash saved).length + if filename.isSome then 1 else 0

/-- After `strtok` there are fewer. -/
theorem callsLeft_strtok (filename : List UInt8) (saved : Option (List UInt8)) :
    callsLeft (strtok slash none saved).1 (strtok slash none saved).2 < callsLeft (some filename) saved := by
  obtain ⟨hfirst, hrest⟩ := strtok_pieces slash none saved
  rw [Option.none_or] at hfirst hrest
  rw [callsLeft, callsLeft, hfirst, hrest]
  cases piecesOf slash saved <;> simp

/-- `cramfs_resolve`; `none` where a `NULL` filename is compared. -/
def cramfsResolve (m : Mem UInt8) (begin : Nat) (raw : Bool) (offset size : Nat) (filename saved : Option (List UInt8)) :
    Option Nat :=
  match _hfound : findEntry m (begin + offset) size filename 0 with
  | .missing => some 0
  | .nameless => some 4294967295
  | .undefined => none
  | .entry inodeoffset =>
    let inode := begin + offset + inodeoffset
    let p := strtok slash none saved
    if raw ∧ p.1.getD [] = [] then some (offset + inodeoffset)
    else if isDir m inode then cramfsResolve m begin raw (inodeOffset m inode * 4) (inodeSize m inode) p.1 p.2
    else if isReg m inode then some (offset + inodeoffset)
    else some 0
termination_by callsLeft filename saved
decreasing_by
  obtain - | filename := filename
  · exact absurd _hfound (findEntry_none m (begin + offset) size 0 inodeoffset)
  · exact callsLeft_strtok filename saved

/-- `cramfs_resolve` as `cramfs_load` (`raw` is 0) and `cramfs_ls` (`raw` is 1) call it, on the root
    directory of the superblock. -/
def resolvePath (m : Mem UInt8) (begin : Nat) (raw : Bool) (offset size : Nat) (filename : List UInt8) : Option Nat :=
  let p := strtok slash (some filename) none
  cramfsResolve m begin raw offset size p.1 p.2

/-- `offset <= 0` on an `unsigned long`: what `cramfs_load` and `cramfs_ls` take for a failure. -/
def isFailure (offset : Nat) : Bool := offset ≤ 0

-- ============================================================================
-- Directories
-- ============================================================================

/-- The name of an inode. -/
def nameOf (m : Mem UInt8) (inode : Nat) : List UInt8 := m.read (inode + 12) (nameLength m inode)

/-- The inodes of a directory, by their offsets in the image, from `inodeoffset` on. -/
def entriesFrom (m : Mem UInt8) (begin offset size inodeoffset : Nat) : List Nat :=
  if inodeoffset < size then
    (offset + inodeoffset) ::
      entriesFrom m begin offset size (inodeoffset + recordLength m (begin + offset + inodeoffset))
  else []
termination_by size - inodeoffset
decreasing_by
  simp only [recordLength]
  omega

def entries (m : Mem UInt8) (begin offset size : Nat) : List Nat := entriesFrom m begin offset size 0

/-- An inode has a name, and no terminator is in it. -/
def Named (m : Mem UInt8) (inode : Nat) : Prop := nameOf m inode ≠ [] ∧ 0 ∉ nameOf m inode

section Directories

variable {m : Mem UInt8} {begin offset size : Nat}

/-- The comparison asks whether the name is where the component begins. -/
theorem strncmpEq_iff {filename : List UInt8} {name n : Nat} (h : 0 ∉ m.read name n) :
    strncmpEq m filename name n = true ↔ m.read name n <+: filename := by
  induction n generalizing filename name with
  | zero => simp [strncmpEq, Mem.read]
  | succ n ih =>
    have hcons : m.read name (n + 1) = m name :: m.read (name + 1) n := by
      rw [Nat.add_comm n 1, Mem.read_add]
      rfl
    rw [hcons, List.mem_cons, not_or] at h
    rw [hcons]
    cases filename with
    | nil => simpa [strncmpEq] using h.1
    | cons c filename =>
      rw [strncmpEq, List.cons_prefix_cons]
      by_cases hc : c = m name
      · rw [if_pos hc, ih h.2]
        simp [hc]
      · rw [if_neg hc]
        simp [Ne.symm hc]

theorem nameOf_eq_nil_iff (inode : Nat) : nameOf m inode = [] ↔ nameLength m inode = 0 := by
  rw [← List.length_eq_zero_iff, nameOf, Mem.read_length]

/-- The entry whose name is the beginning of a component: the first one, in the order of the
    directory. -/
def findPrefix (m : Mem UInt8) (begin offset size : Nat) (c : List UInt8) : Option Nat :=
  (entries m begin offset size).find? fun a => nameOf m (begin + a) <+: c

/-- The loop over a directory of named entries. -/
theorem findEntry_some {inodeoffset : Nat} (c : List UInt8)
    (h : ∀ a ∈ entriesFrom m begin offset size inodeoffset, Named m (begin + a)) :
    findEntry m (begin + offset) size (some c) inodeoffset =
      match (entriesFrom m begin offset size inodeoffset).find? fun a => nameOf m (begin + a) <+: c with
      | none => .missing
      | some a => .entry (a - offset) := by
  induction inodeoffset using entriesFrom.induct m begin offset size with
  | case1 inodeoffset hlt ih =>
    rw [entriesFrom, if_pos hlt] at h ⊢
    obtain ⟨⟨hname, hzero⟩, hrest⟩ := List.forall_mem_cons.1 h
    rw [← Nat.add_assoc] at hname hzero
    rw [findEntry, if_pos hlt]
    dsimp only
    rw [if_neg (fun hlen => hname ((nameOf_eq_nil_iff _).2 hlen)), List.find?_cons, ← Nat.add_assoc]
    by_cases hpre : nameOf m (begin + offset + inodeoffset) <+: c
    · rw [if_pos ((strncmpEq_iff hzero).2 hpre)]
      simp [hpre]
    · rw [if_neg (fun heq => hpre ((strncmpEq_iff hzero).1 heq)), ih hrest]
      simp [hpre]
  | case2 inodeoffset hlt =>
    rw [entriesFrom, if_neg hlt, findEntry, if_neg hlt]
    rfl

/-- A `NULL` filename is compared unless the directory is empty. -/
theorem findEntry_null (h : ∀ a ∈ entries m begin offset size, Named m (begin + a)) :
    findEntry m (begin + offset) size none 0 = if size = 0 then .missing else .undefined := by
  rw [findEntry]
  by_cases hsize : size = 0
  · rw [if_neg (by omega), if_pos hsize]
  · have hpos : 0 < size := Nat.pos_of_ne_zero hsize
    rw [entries, entriesFrom, if_pos hpos] at h
    obtain ⟨⟨hname, -⟩, -⟩ := List.forall_mem_cons.1 h
    rw [← Nat.add_assoc] at hname
    rw [if_pos hpos, if_neg hsize]
    dsimp only
    rw [if_neg fun hlen => hname ((nameOf_eq_nil_iff _).2 hlen)]

theorem le_of_mem_entriesFrom {inodeoffset a : Nat} (h : a ∈ entriesFrom m begin offset size inodeoffset) :
    offset ≤ a := by
  induction inodeoffset using entriesFrom.induct m begin offset size with
  | case1 inodeoffset hlt ih =>
    rw [entriesFrom, if_pos hlt] at h
    rcases List.mem_cons.1 h with rfl | h
    · exact Nat.le_add_right _ _
    · exact ih h
  | case2 inodeoffset hlt =>
    rw [entriesFrom, if_neg hlt] at h
    exact absurd h List.not_mem_nil

end Directories

end Uboot.Fs.Cramfs
