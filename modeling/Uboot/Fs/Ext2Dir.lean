/-
  Uboot.Fs.Ext2Dir

  `ext2fs_iterate_dir` of fs/ext2/ext2fs.c, and whether it ends.

  The loop goes on by the length that a record has, also where this is 0.  A position from 2^31
  on is negative for `ext2fs_read_file`, which then looks in front of the block numbers of the
  inode: this has no meaning here.  Nodes are values, so `free` does nothing; what a read stores
  behind the local buffer it is given is not kept.
-/

import Uboot.Fs.Ext2Errors
import Uboot.Fs.Ext2Inode
import Uboot.Lib.Loop

namespace Uboot.Fs.Ext2Dir

open Uboot.Lib Uboot.Fs.Ext2 Uboot.Fs.Ext2Inode Relation

-- ============================================================================
-- Nodes and files
-- ============================================================================

/-- `struct ext2_inode`: the bytes. -/
abbrev InodeBytes := Mem UInt8

namespace InodeBytes

def mode (m : InodeBytes) : Nat := rd16 m 0

def size (m : InodeBytes) : Nat := rd32 m 4

/-- `b.symlink`. -/
def symlink (m : InodeBytes) : List UInt8 := m.read 40 60

/-- The numbers that reading needs. -/
def inode (m : InodeBytes) : Inode where
  size := UInt32.ofNat m.size
  dirBlocks := fun i => UInt32.ofNat (rd32 m (40 + 4 * i))
  indirBlock := UInt32.ofNat (rd32 m 88)
  doubleIndirBlock := UInt32.ofNat (rd32 m 92)

end InodeBytes

/-- `struct ext2fs_node`; `inode_read` is set when there is an inode. -/
structure Node where
  ino : UInt32
  inode : Option InodeBytes

/-- A mounted file system and its surroundings. -/
structure Volume where
  e : Env
  sb : Superblock
  log2BlockSize_le : sb.log2BlockSize ≤ 6
  /-- `ext2fs_mount` has divided by it. -/
  groups : sb.inodesPerGroup ≠ 0
  /-- `ext2fs_root->diropen`. -/
  diropen : Node
  /-- What a local buffer holds at first, by the calls of `block_read` up to then. -/
  stack : Nat → Mem UInt8

def Volume.data (v : Volume) : Ext2Data := ⟨v.sb.log2BlockSize, v.log2BlockSize_le⟩

/-- `ext2fs_read_inode`. -/
def Volume.readInode (v : Volume) (g : Globals) (ino : UInt32) : Globals × Option InodeBytes :=
  match ext2fsReadInode v.e g.reads v.sb ino with
  | none => (g, none)
  | some r => ({ g with reads := r.reads }, r.bytes)

/-- The inode of a node, which is read where `inode_read` is not set. -/
def Volume.inodeOf (v : Volume) (g : Globals) (node : Node) : Globals × Option InodeBytes :=
  match node.inode with
  | some m => (g, some m)
  | none => v.readInode g node.ino

/-- What a caller of `ext2fs_read_file` sees that gives up below a status of 1. -/
inductive Got
  | undefined
  | failed (g : Globals)
  | bytes (g : Globals) (m : Mem UInt8)

/-- `ext2fs_read_file` into a local buffer of at most 255 bytes. -/
def Volume.readFile (v : Volume) (g : Globals) (m : InodeBytes) (pos : Nat) (len : UInt8) (buf : Mem UInt8) : Got :=
  if hpos : pos < 2147483648 then
    let r := ext2fsReadFile v.e v.data g m.inode pos len.toNat hpos (by have := len.toNat_lt; omega) ⟨buf, []⟩ 0
    match r.ret with
    | none => .undefined
    | some status => if status < 1 then .failed r.globals else .bytes r.globals r.ram.cells
  else .undefined

-- ============================================================================
-- ext2fs_iterate_dir
-- ============================================================================

/-- `FILETYPE_UNKNOWN` and the others. -/
inductive FileType
  | unknown
  | reg
  | directory
  | symlink
  deriving DecidableEq

/-- From `filetype`, where it is not `FILETYPE_UNKNOWN`. -/
def FileType.ofDirent (filetype : UInt8) : FileType :=
  if filetype = 2 then .directory else if filetype = 7 then .symlink else if filetype = 1 then .reg else .unknown

/-- From `mode & FILETYPE_INO_MASK`. -/
def FileType.ofMode (mode : Nat) : FileType :=
  match mode / 4096 with
  | 4 => .directory
  | 10 => .symlink
  | 8 => .reg
  | _ => .unknown

/-- `struct ext2_dirent`: the bytes. -/
abbrev Dirent := Mem UInt8

namespace Dirent

def inode (d : Dirent) : UInt32 := UInt32.ofNat (rd32 d 0)

def direntlen (d : Dirent) : Nat := rd16 d 4

def namelen (d : Dirent) : UInt8 := d 6

def filetype (d : Dirent) : UInt8 := d 7

end Dirent

/-- A line of the listing. -/
structure Line where
  type : FileType
  size : Nat
  filename : List UInt8

/-- How a call of `ext2fs_iterate_dir` ends: with 0, with 1, or without a meaning. -/
inductive Iterated
  | notFound (lines : List Line)
  | found (node : Node) (type : FileType)
  | undefined

/-- The node of a record and its type, which is looked up in the inode if need be. -/
def Volume.nodeOf (v : Volume) (g : Globals) (d : Dirent) : Globals × Option (Node × FileType) :=
  if d.filetype ≠ 0 then (g, some (⟨d.inode, none⟩, .ofDirent d.filetype))
  else
    match v.readInode g d.inode with
    | (g, none) => (g, none)
    | (g, some m) => (g, some (⟨d.inode, some m⟩, .ofMode m.mode))

/-- A record with a name; `name` is `NULL` for a listing. -/
def Volume.entry (v : Volume) (name : Option (List UInt8)) (m : InodeBytes) (d : Dirent) (fpos : Nat) (g : Globals)
    (lines : List Line) : Turn (Globals × List Line) (Globals × Iterated) :=
  match v.readFile g m (u32 (fpos + 8)) d.namelen (v.stack g.reads) with
  | .undefined => .done (g, .undefined)
  | .failed g => .done (g, .notFound lines)
  | .bytes g filename =>
    let malloced := v.e.malloc g.mallocs
    let g := { g with mallocs := g.mallocs + 1 }
    if malloced.isNone then .done (g, .notFound lines)
    else
      match v.nodeOf g d with
      | (g, none) => .done (g, .notFound lines)
      | (g, some (node, type)) =>
        let filename := (filename.read 0 d.namelen.toNat).takeWhile (· ≠ 0)
        match name with
        | some name => if filename = name then .done (g, .found node type) else .next (g, lines)
        | none =>
          match v.inodeOf g node with
          | (g, none) => .done (g, .notFound lines)
          | (g, some m) => .next (g, lines ++ [⟨type, m.size, filename⟩])

/-- The loop between two records. -/
structure Cursor where
  globals : Globals
  fpos : Nat
  dirent : Dirent
  lines : List Line

/-- One turn of the loop. -/
def Volume.record (v : Volume) (name : Option (List UInt8)) (m : InodeBytes) (c : Cursor) :
    Turn Cursor (Globals × Iterated) :=
  if c.fpos < m.size then
    match v.readFile c.globals m c.fpos 8 c.dirent with
    | .undefined => .done (c.globals, .undefined)
    | .failed g => .done (g, .notFound c.lines)
    | .bytes g d =>
      let fpos := u32 (c.fpos + Dirent.direntlen d)
      if Dirent.namelen d = 0 then .next ⟨g, fpos, d, c.lines⟩
      else
        match v.entry name m d c.fpos g c.lines with
        | .done r => .done r
        | .next (g, lines) => .next ⟨g, fpos, d, lines⟩
  else .done (c.globals, .notFound c.lines)

/-- Where the loop starts. -/
def Volume.firstRecord (v : Volume) (g : Globals) : Cursor := ⟨g, 0, v.stack g.reads, []⟩

/-- `ext2fs_iterate_dir`; `none` when it takes more turns. -/
def ext2fsIterateDir (v : Volume) (turns : Nat) (g : Globals) (dir : Node) (name : Option (List UInt8)) :
    Option (Globals × Iterated) :=
  match v.inodeOf g dir with
  | (g, none) => some (g, .notFound [])
  | (g, some m) => loop (v.record name m) turns (v.firstRecord g)

-- ============================================================================
-- Ends
-- ============================================================================

/-- `ext2fs_iterate_dir` ends, and not without a meaning. -/
def IterateEnds (v : Volume) (g : Globals) (dir : Node) (name : Option (List UInt8)) : Prop :=
  ∃ turns r, ext2fsIterateDir v turns g dir name = some r ∧ r.2 ≠ .undefined

/-- A record, or its name, is looked for at a position that is negative as an `int`. -/
def Beyond (v : Volume) (m : InodeBytes) (c : Cursor) : Prop :=
  c.fpos < m.size ∧
    (2147483648 ≤ c.fpos ∨
      2147483648 ≤ c.fpos + 8 ∧ ∃ g d, v.readFile c.globals m c.fpos 8 c.dirent = .bytes g d ∧ Dirent.namelen d ≠ 0)

/-- The records of a directory go on to its end: at none that the loop comes to does it go on
    with records of length 0 only, and none is beyond 2^31. -/
def Advances (v : Volume) (g : Globals) (dir : Node) (name : Option (List UInt8)) : Prop :=
  ∀ g' m, v.inodeOf g dir = (g', some m) →
    ∀ c, ReflTransGen (Goes (v.record name m)) (v.firstRecord g') c →
      ¬ Stuck (v.record name m) Cursor.fpos c ∧ ¬ Beyond v m c

-- ============================================================================
-- Reads
-- ============================================================================

section Reads

variable {e : Env} {d : Ext2Data} {f : FileRead}

/-- Where no block ends in front of its start, a value comes back. -/
theorem readLoop_returns (h : ∀ i, 0 ≤ f.blockend d i) (n i : Nat) (g : Globals) (ram : Ram) (buf : Nat) :
    (readLoop e d f n i g ram buf).ret ≠ none := by
  induction n generalizing i g ram buf with
  | zero => exact Option.some_ne_none _
  | succ n ih =>
    rw [readLoop]
    dsimp only
    split
    · exact Option.some_ne_none _
    split
    · split
      · exact ih _ _ _ _
      · exact Option.some_ne_none _
      next hlost => exact absurd (devread_lost hlost).1 (Int.not_lt.mpr (h i))
    · exact ih _ _ _ _

theorem blockend_nonneg_of_fit (hfit : f.len + f.pos + d.blksz - 1 < 4294967296) (i : Nat) :
    0 ≤ f.blockend d i := by
  obtain ⟨-, -, -, hend⟩ := piece_spec (fun _ => 1) hfit (i := i)
  rw [hend (by decide)]
  exact Int.natCast_nonneg _

variable {v : Volume} {g : Globals} {m : InodeBytes} {pos : Nat} {len : UInt8} {buf : Mem UInt8}

theorem readFile_undefined_iff : v.readFile g m pos len buf = .undefined ↔ 2147483648 ≤ pos := by
  unfold Volume.readFile
  by_cases hpos : pos < 2147483648
  · rw [dif_pos hpos]
    refine iff_of_false ?_ (by omega)
    have hlen := len.toNat_lt
    have hblksz := blksz_eq v.data
    have hpow := pow_le v.data
    have hret : (ext2fsReadFile v.e v.data g m.inode pos len.toNat hpos (by omega) ⟨buf, []⟩ 0).ret ≠ none :=
      readLoop_returns (blockend_nonneg_of_fit (by show min _ _ + pos + _ - 1 < _; omega)) _ _ _ _ _
    dsimp only
    split
    next hnone => exact absurd hnone hret
    next => split <;> nofun
  · rw [dif_neg hpos]
    exact iff_of_true rfl (by omega)

end Reads

-- ============================================================================
-- Records
-- ============================================================================

section Records

variable {v : Volume} {name : Option (List UInt8)} {m : InodeBytes} {c c' : Cursor} {d : Dirent} {fpos : Nat}
  {g : Globals} {lines : List Line}

/-- The name of a record is read without a meaning only for its position. -/
theorem entry_done {r : Globals × Iterated} (hpos : fpos < 2147483648)
    (h : v.entry name m d fpos g lines = .done r) (hr : r.2 = .undefined) : 2147483648 ≤ fpos + 8 := by
  refine readFile_undefined_iff.mp (?_ : v.readFile g m (fpos + 8) d.namelen (v.stack g.reads) = .undefined)
  unfold Volume.entry at h
  rw [u32_of_lt (by omega)] at h
  cases hgot : v.readFile g m (fpos + 8) d.namelen (v.stack g.reads) with
  | undefined => rfl
  | failed g =>
    simp only [hgot] at h
    obtain rfl := Turn.done.inj h
    cases hr
  | bytes g filename =>
    simp only [hgot] at h
    split at h
    · obtain rfl := Turn.done.inj h
      cases hr
    split at h
    · obtain rfl := Turn.done.inj h
      cases hr
    split at h
    · split at h
      · obtain rfl := Turn.done.inj h
        cases hr
      · cases h
    · split at h
      · obtain rfl := Turn.done.inj h
        cases hr
      · cases h

theorem entry_beyond (hpos : fpos < 2147483648) (h : 2147483648 ≤ fpos + 8) :
    v.entry name m d fpos g lines = .done (g, .undefined) := by
  unfold Volume.entry
  rw [u32_of_lt (by omega), readFile_undefined_iff.mpr h]

theorem record_beyond (h : Beyond v m c) : ∃ g, v.record name m c = .done (g, .undefined) := by
  obtain ⟨hsize, hpos⟩ := h
  unfold Volume.record
  rw [if_pos hsize]
  by_cases hge : 2147483648 ≤ c.fpos
  · exact ⟨c.globals, by rw [readFile_undefined_iff.mpr hge]⟩
  · obtain hge' | ⟨hge', g, d, hgot, hname⟩ := hpos
    · exact absurd hge' hge
    · refine ⟨g, ?_⟩
      rw [hgot]
      dsimp only
      rw [if_neg hname, entry_beyond (by omega) hge']

/-- The loop ends without a meaning just beyond 2^31. -/
theorem record_done {r : Globals × Iterated} (h : v.record name m c = .done r) :
    r.2 = .undefined ↔ Beyond v m c := by
  constructor
  · intro hr
    unfold Volume.record at h
    by_cases hsize : c.fpos < m.size
    · rw [if_pos hsize] at h
      cases hgot : v.readFile c.globals m c.fpos 8 c.dirent with
      | undefined => exact ⟨hsize, .inl (readFile_undefined_iff.mp hgot)⟩
      | failed g =>
        simp only [hgot] at h
        obtain rfl := Turn.done.inj h
        cases hr
      | bytes g d =>
        refine ⟨hsize, ?_⟩
        by_cases hpos : c.fpos < 2147483648
        · simp only [hgot] at h
          split at h
          · cases h
          next hname =>
            split at h
            next r' hentry =>
              obtain rfl := Turn.done.inj h
              exact .inr ⟨entry_done hpos hentry hr, g, d, hgot, hname⟩
            next => cases h
        · exact .inl (by omega)
    · rw [if_neg hsize] at h
      obtain rfl := Turn.done.inj h
      cases hr
  · intro hbeyond
    obtain ⟨g, hdone⟩ := @record_beyond v name m c hbeyond
    obtain rfl := Turn.done.inj (h.symm.trans hdone)
    rfl

/-- The loop goes on by the length of the record. -/
theorem record_goes (h : Goes (v.record name m) c c') :
    c.fpos < 2147483648 ∧ ∃ g d, v.readFile c.globals m c.fpos 8 c.dirent = .bytes g d ∧
      c'.fpos = c.fpos + Dirent.direntlen d := by
  have hread := @readFile_undefined_iff v c.globals m c.fpos 8 c.dirent
  rw [Goes] at h
  unfold Volume.record at h
  split at h
  next hsize =>
    cases hgot : v.readFile c.globals m c.fpos 8 c.dirent with
    | undefined | failed g =>
      simp only [hgot] at h
      cases h
    | bytes g d =>
      have hpos : c.fpos < 2147483648 := by
        by_contra hge
        rw [hread.mpr (by omega)] at hgot
        cases hgot
      have hlen : Dirent.direntlen d < 65536 := rd16_lt d 4
      refine ⟨hpos, g, d, rfl, ?_⟩
      simp only [hgot] at h
      rw [u32_of_lt (by omega)] at h
      split at h
      · obtain rfl := Turn.next.inj h
        rfl
      · split at h
        · cases h
        · obtain rfl := Turn.next.inj h
          rfl
  next => cases h

/-- **`ext2fs_iterate_dir`** ends when the records of the directory go on to its end, and at no
    other time. -/
theorem iterateEnds_iff {dir : Node} : IterateEnds v g dir name ↔ Advances v g dir name := by
  unfold IterateEnds Advances ext2fsIterateDir
  cases hinode : v.inodeOf g dir with
  | mk g' inode =>
    cases inode with
    | none => exact iff_of_true ⟨0, _, rfl, nofun⟩ fun g'' m h => by cases h
    | some m =>
      have hrule := @exists_loop_good_iff _ _ (v.record name m) (v.firstRecord g') Cursor.fpos
        (fun r => r.2 = .undefined) 2147483648
        (fun c c' h => by obtain ⟨-, _, _, -, heq⟩ := record_goes h; omega)
        (fun c c' h => (record_goes h).1)
      dsimp only
      rw [hrule]
      constructor
      · intro h g'' m' heq c hc
        obtain ⟨rfl, hm⟩ := Prod.mk.inj heq
        obtain rfl := Option.some.inj hm
        obtain ⟨hstuck, hgood⟩ := h c hc
        refine ⟨hstuck, fun hbeyond => ?_⟩
        obtain ⟨g'', hdone⟩ := record_beyond hbeyond
        exact hgood _ hdone rfl
      · intro h c hc
        obtain ⟨hstuck, hbeyond⟩ := h g' m rfl c hc
        exact ⟨hstuck, fun r hdone hbad => hbeyond ((record_done hdone).mp hbad)⟩

/-- A bound that is enough is no part of the result. -/
theorem iterateDir_mono {dir : Node} {k n : Nat} {r : Globals × Iterated} (hle : k ≤ n)
    (h : ext2fsIterateDir v k g dir name = some r) : ext2fsIterateDir v n g dir name = some r := by
  unfold ext2fsIterateDir at h ⊢
  cases hinode : v.inodeOf g dir with
  | mk g' inode =>
    simp only [hinode] at h ⊢
    cases inode with
    | none => exact h
    | some m => exact loop_mono hle h

theorem iterateDir_unique {dir : Node} {k n : Nat} {r r' : Globals × Iterated}
    (h : ext2fsIterateDir v k g dir name = some r) (h' : ext2fsIterateDir v n g dir name = some r') : r = r' := by
  have hmax := iterateDir_mono (Nat.le_max_left k n) h
  rw [iterateDir_mono (Nat.le_max_right k n) h'] at hmax
  exact (Option.some.inj hmax).symm

end Records

-- A root directory with a record of length 0.

/-- A partition with a superblock, with block 5 for the inode table in the first descriptor, and with
    a root directory of one block, which is block 3 and empty. -/
def emptyRecordDisk : Mem UInt8 := fun x =>
  match x with
  | 1044 => 1
  | 1064 => 32
  | 1080 => 0x53
  | 1081 => 0xef
  | 2056 => 5
  | 5249 => 0x41
  | 5253 => 4
  | 5288 => 3
  | _ => 0

/-- The inode of the root directory. -/
def emptyRecordRoot : InodeBytes := fun x => emptyRecordDisk (5248 + x)

theorem emptyRecord_size_lt : 4096 < 4294967296 := by decide

theorem emptyRecord_log2_le : 0 ≤ 20 := by decide

def emptyRecord : Volume where
  e := { bytes := emptyRecordDisk, size := 4096, size_lt := emptyRecord_size_lt, ok := fun _ => true, junk := fun _ _ => 0,
         malloc := fun _ => some fun _ => 0 }
  sb := { firstDataBlock := 1, log2BlockSize := 0, log2BlockSize_le := emptyRecord_log2_le, inodesPerGroup := 32,
          inodeSize := 128 }
  log2BlockSize_le := by decide
  groups := by decide
  diropen := ⟨2, some emptyRecordRoot⟩
  stack := fun _ _ => 0

/-- Its first record is empty, however often it is read. -/
theorem readFile_emptyRecord (g : Globals) (buf : Mem UInt8) :
    ∃ g' d, emptyRecord.readFile g emptyRecordRoot 0 8 buf = .bytes g' d ∧ Dirent.direntlen d = 0 ∧ Dirent.namelen d = 0 := by
  let layout (i : Nat) : Nat := if i = 0 then 3 else 0
  let f : FileRead := ⟨emptyRecordRoot.inode, 0, 8, by decide, by decide⟩
  have hblock : ∀ i, layout i ≠ 0 → HasBlock emptyRecord.e emptyRecord.data (layout i) := by
    intro i hi
    by_cases h0 : i = 0
    · subst h0
      decide
    · exact absurd (if_neg h0) hi
  have hreach : ∀ i, f.pos / emptyRecord.data.blksz ≤ i → i * emptyRecord.data.blksz < f.len + f.pos →
      layout i * 2 ^ emptyRecord.data.log2Blksz < 2147483648 := by
    intro i _ _
    by_cases h0 : i = 0
    · subst h0
      decide
    · rw [show layout i = 0 from if_neg h0]
      decide
  have hlays : Lays emptyRecord.e emptyRecord.data layout f.inode
      (f.blockcnt emptyRecord.data - f.pos / emptyRecord.data.blksz) (f.pos / emptyRecord.data.blksz) g := by
    have hfirst : (ext2fsReadBlock emptyRecord.e emptyRecord.data g emptyRecordRoot.inode 0).2 = toInt (layout 0) := by
      rw [ext2fsReadBlock, dif_pos (by decide)]
      show toInt (UInt32.ofNat (rd32 emptyRecordRoot 40)).toNat = 3
      decide
    rw [show f.blockcnt emptyRecord.data - f.pos / emptyRecord.data.blksz = 1 by decide,
      show f.pos / emptyRecord.data.blksz = 0 by decide]
    exact ⟨hfirst, trivial, fun _ => trivial⟩
  obtain ⟨hret, hcells, -⟩ := run_stored (fun _ => rfl) hblock (by decide) hlays hreach ⟨buf, []⟩ 0
  have hstop := @le_stop emptyRecord.data f layout
  have hempty : ∀ i < 8, content emptyRecord.e emptyRecord.data layout (f.pos + i) = 0 := by decide
  have hzero : ∀ i < 8, (f.run emptyRecord.e emptyRecord.data g ⟨buf, []⟩ 0).ram.cells (0 + i) = 0 := by
    intro i hi
    rw [hcells, Mem.write_inside _ (by rw [Mem.read_length]; exact Nat.lt_of_lt_of_le hi hstop), Mem.getElem_read]
    exact hempty i hi
  have hread : emptyRecord.readFile g emptyRecordRoot 0 8 buf =
      .bytes (f.run emptyRecord.e emptyRecord.data g ⟨buf, []⟩ 0).globals
        (f.run emptyRecord.e emptyRecord.data g ⟨buf, []⟩ 0).ram.cells := by
    have hfile : ∀ h h',
        ext2fsReadFile emptyRecord.e emptyRecord.data g emptyRecordRoot.inode 0 (8 : UInt8).toNat h h' ⟨buf, []⟩ 0 =
        f.run emptyRecord.e emptyRecord.data g ⟨buf, []⟩ 0 := fun _ _ => rfl
    rw [Volume.readFile, dif_pos (by decide)]
    dsimp only
    rw [hfile, hret]
    rfl
  refine ⟨_, _, hread, ?_, ?_⟩
  · have h4 := hzero 4 (by decide)
    have h5 := hzero 5 (by decide)
    rw [Nat.zero_add] at h4 h5
    rw [Dirent.direntlen, rd16, h4, h5]
    rfl
  · exact hzero 6 (by decide)

theorem emptyRecord_stays (g : Globals) (name : Option (List UInt8)) :
    ¬ IterateEnds emptyRecord g emptyRecord.diropen name := by
  rintro ⟨turns, r, hr, -⟩
  have hgoes : ∀ c : Cursor, c.fpos = 0 → ∃ c', Goes (emptyRecord.record name emptyRecordRoot) c c' ∧ c'.fpos = 0 := by
    intro c hc
    obtain ⟨g, d, hread, hlen, hname⟩ := readFile_emptyRecord c.globals c.dirent
    refine ⟨⟨g, 0, d, c.lines⟩, ?_, rfl⟩
    rw [Goes, Volume.record, hc, if_pos (by decide), hread]
    dsimp only
    rw [if_pos hname, hlen]
    rfl
  -- no turn leads away from the first record
  have hstuck : Stuck (emptyRecord.record name emptyRecordRoot) Cursor.fpos
      (emptyRecord.firstRecord g) := by
    intro c hc
    have hzero : c.fpos = 0 := by
      induction hc with
      | refl => rfl
      | tail _ hstep ih =>
        obtain ⟨c', hgoes', hc'⟩ := hgoes _ ih
        obtain rfl := Turn.next.inj (hstep.symm.trans hgoes')
        exact hc'
    obtain ⟨c', hgoes', hc'⟩ := hgoes c hzero
    exact ⟨c', hgoes', hc'.trans hzero.symm⟩
  cases (loop_eq_none_of_stuck hstuck).symm.trans hr

end Uboot.Fs.Ext2Dir
