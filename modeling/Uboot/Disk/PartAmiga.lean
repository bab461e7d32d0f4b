/-
  Uboot.Disk.PartAmiga

  The rigid disk block of an Amiga disk and its list of partition blocks: disk/part_amiga.c.

  A block is the words that the processor reads.  The walks along the list have no bound in the
  source; each turn of one reads one block.  The number of a partition counts without a bound: an
  `int` that overflows has no meaning.
-/

import Uboot.Lib.Loop
import Uboot.Lib.Returns

namespace Uboot.Disk.PartAmiga

open Uboot.Lib Relation

-- ============================================================================
-- Blocks
-- ============================================================================

/-- A block, by its words: the header has the id, the number of summed words and the checksum. -/
abbrev Block := Nat → UInt32

namespace Block

def id (b : Block) : UInt32 := b 0

def summedLongs (b : Block) : UInt32 := b 1

/-- `next` of a partition block. -/
def next (b : Block) : UInt32 := b 4

/-- `partition_list` of the rigid disk block. -/
def partitionList (b : Block) : UInt32 := b 7

end Block

def AMIGA_ID_RDISK : UInt32 := 0x5244534B
def AMIGA_ID_PART : UInt32 := 0x50415254
def AMIGA_ID_BOOT : UInt32 := 0x424f4f54

def AMIGA_BLOCK_LIMIT : Int := 16

/-- What `block_read` of a device gives for a block, where it gives one, and the number of words in
    `block_buffer`. -/
structure BlockDev where
  disk : Nat → Option Block
  longs : Nat

/-- A result, or a read outside of `block_buffer`. -/
inductive Checked (α : Type)
  | outside
  | inside (a : α)

/-- The loop of `sum_block`: `left` words from number `i` on. -/
def sumLoop (longs : Nat) (header : Block) : Nat → Nat → UInt32 → Checked UInt32
  | 0, _, sum => .inside sum
  | left + 1, i, sum => if i < longs then sumLoop longs header left (i + 1) (sum + header i) else .outside

/-- `sum_block` -/
def sumBlock (longs : Nat) (header : Block) : Checked Bool :=
  match sumLoop longs header header.summedLongs.toNat 0 0 with
  | .outside => .outside
  | .inside sum => .inside (sum ≠ 0)

-- ============================================================================
-- The functions
-- ============================================================================

variable (dev : BlockDev)

/-- The loop of `get_rdisk` and `get_bootcode`: `left` blocks from number `i` on. -/
def scan (id : UInt32) : Nat → Nat → Checked (Option Block)
  | 0, _ => .inside none
  | left + 1, i =>
    match dev.disk i with
    | none => scan id left (i + 1)
    | some b =>
      if b.id = id then
        match sumBlock dev.longs b with
        | .outside => .outside
        | .inside true => scan id left (i + 1)
        | .inside false => .inside (some b)
      else scan id left (i + 1)

/-- `limit`, with the value of the variable `amiga_scanlimit`. -/
def scanLimit (amigaScanlimit : Option Int) : Int := amigaScanlimit.getD AMIGA_BLOCK_LIMIT

/-- `get_rdisk` -/
def getRdisk (s : Option Int) : Checked (Option Block) := scan dev AMIGA_ID_RDISK (scanLimit s).toNat 0

/-- `get_bootcode` -/
def getBootcode (s : Option Int) : Checked (Option Block) := scan dev AMIGA_ID_BOOT (scanLimit s).toNat 0

/-- The loop of `find_partition`, on `block` and `partnum`. -/
def findTurn (t : UInt32 × Int) : Turn (UInt32 × Int) (Checked (Option Block)) :=
  let (block, partnum) := t
  if block = 0xFFFFFFFF then .done (.inside none)
  else
    match dev.disk block.toNat with
    | none => .next (0xFFFFFFFF, partnum)
    | some p =>
      if p.id = AMIGA_ID_PART then
        match sumBlock dev.longs p with
        | .outside => .done .outside
        | .inside true => .next (block, partnum)
        | .inside false => if partnum = 0 then .done (.inside (some p)) else .next (p.next, partnum - 1)
      else .next (0xFFFFFFFF, partnum)

/-- `find_partition`; `none` when there are more than `n` turns. -/
def findPartition (s : Option Int) (partnum : Int) (n : Nat) : Option (Checked (Option Block)) :=
  match getRdisk dev s with
  | .outside => some .outside
  | .inside none => some (.inside none)
  | .inside (some rdb) => loop (findTurn dev) n (rdb.partitionList, partnum)

/-- The loop of `print_part_amiga`, on `block` and the partitions printed. -/
def printTurn (t : UInt32 × List Block) : Turn (UInt32 × List Block) (Checked (List Block)) :=
  let (block, printed) := t
  if block = 0xFFFFFFFF then .done (.inside printed)
  else
    match dev.disk block.toNat with
    | none => .next (0xFFFFFFFF, printed)
    | some p =>
      if p.id = AMIGA_ID_PART then
        match sumBlock dev.longs p with
        | .outside => .done .outside
        | .inside true => .next (block, printed)
        | .inside false => .next (p.next, printed ++ [p])
      else .next (0xFFFFFFFF, printed)

/-- `print_part_amiga`: the partitions printed, and whether the disk is bootable; `none` when there
    are more than `n` turns. -/
def printPartAmiga (s : Option Int) (n : Nat) : Option (Checked (List Block × Bool)) :=
  match getRdisk dev s with
  | .outside => some .outside
  | .inside none => some (.inside ([], false))
  | .inside (some rdb) =>
    match loop (printTurn dev) n (rdb.partitionList, []) with
    | none => none
    | some .outside => some .outside
    | some (.inside printed) =>
      match getBootcode dev s with
      | .outside => some .outside
      | .inside boot => some (.inside (printed, boot.isSome))

-- ============================================================================
-- What makes them safe
-- ============================================================================

/-- The functions end, with reads inside the buffer only, whichever partition is looked for. -/
structure Safe (s : Option Int) : Prop where
  rdisk : ∃ r, getRdisk dev s = .inside r
  find : ∀ partnum, ∃ n r, findPartition dev s partnum n = some (.inside r)
  print : ∃ n r, printPartAmiga dev s n = some (.inside r)

/-- The sum of the words that the header gives the number of. -/
def Block.sum (b : Block) : UInt32 := (List.range b.summedLongs.toNat).foldl (fun sum i => sum + b i) 0

/-- The words to sum are in the buffer, and their sum is 0. -/
def Sound (b : Block) : Prop := b.summedLongs.toNat ≤ dev.longs ∧ b.sum = 0

/-- Block `k` is a sound one with the id. -/
def Found (id : UInt32) (k : Nat) (b : Block) : Prop := dev.disk k = some b ∧ b.id = id ∧ Sound dev b

/-- The first sound block with the id, from `lo` up to `hi`. -/
def FirstFound (id : UInt32) (lo hi : Nat) (b : Block) : Prop :=
  ∃ k, lo ≤ k ∧ k < hi ∧ Found dev id k b ∧ ∀ j, lo ≤ j → j < k → ∀ b', ¬Found dev id j b'

/-- Up to the first sound one, the blocks with the id do not sum more words than are in the buffer. -/
def ScanInside (id : UInt32) (lo hi : Nat) : Prop :=
  ∀ k, lo ≤ k → k < hi → (∀ j, lo ≤ j → j < k → ∀ b, ¬Found dev id j b) →
    ∀ b, dev.disk k = some b → b.id = id → b.summedLongs.toNat ≤ dev.longs

/-- `p` is the partition block with the number `block`. -/
def IsPart (block : UInt32) (p : Block) : Prop :=
  block ≠ 0xFFFFFFFF ∧ dev.disk block.toNat = some p ∧ p.id = AMIGA_ID_PART

/-- The partition block `block` links to `block'`. -/
def Link (block block' : UInt32) : Prop := ∃ p, IsPart dev block p ∧ p.next = block'

/-- The partition blocks of the list are sound. -/
def PartsSound (block : UInt32) : Prop := ∀ block' p, ReflTransGen (Link dev) block block' → IsPart dev block' p → Sound dev p

-- ============================================================================
-- sum_block
-- ============================================================================

variable {dev} {id : UInt32} {b p : Block} {block block' : UInt32} {lo hi n : Nat}

theorem sumLoop_eq {longs left i : Nat} {sum : UInt32} (h : i ≤ longs) :
    sumLoop longs b left i sum =
      if i + left ≤ longs then .inside ((List.range' i left).foldl (fun sum i => sum + b i) sum) else .outside := by
  induction left generalizing i sum with
  | zero => rw [sumLoop, if_pos (by omega), List.range'_zero, List.foldl_nil]
  | succ left ih =>
    rw [sumLoop]
    split
    · rename_i hi
      rw [ih hi, List.range'_succ, List.foldl_cons]
      exact if_congr (by omega) rfl rfl
    · rw [if_neg (by omega)]

theorem sumBlock_eq (longs : Nat) (b : Block) :
    sumBlock longs b = if b.summedLongs.toNat ≤ longs then .inside (b.sum ≠ 0) else .outside := by
  rw [sumBlock, sumLoop_eq (Nat.zero_le longs), Nat.zero_add, Block.sum, List.range_eq_range']
  by_cases hlongs : b.summedLongs.toNat ≤ longs
  · rw [if_pos hlongs, if_pos hlongs]
  · rw [if_neg hlongs, if_neg hlongs]

theorem sumBlock_of_sound (h : Sound dev b) : sumBlock dev.longs b = .inside false := by
  rw [sumBlock_eq, if_pos h.1, h.2]
  rfl

theorem sound_of_sumBlock (h : sumBlock dev.longs b = .inside false) : Sound dev b := by
  rw [sumBlock_eq] at h
  split at h
  · rename_i hlongs
    have hsum : decide (b.sum ≠ 0) = false := Checked.inside.inj h
    exact ⟨hlongs, not_not.mp (of_decide_eq_false hsum)⟩
  · cases h

theorem not_sound_of_sumBlock (h : sumBlock dev.longs b = .inside true) :
    b.summedLongs.toNat ≤ dev.longs ∧ ¬Sound dev b := by
  constructor
  · rw [sumBlock_eq] at h
    split at h
    · assumption
    · cases h
  · intro hsound
    rw [sumBlock_of_sound hsound] at h
    cases h

theorem outside_of_sumBlock (h : sumBlock dev.longs b = .outside) : ¬b.summedLongs.toNat ≤ dev.longs := by
  rw [sumBlock_eq] at h
  split at h
  · cases h
  · assumption

-- ============================================================================
-- get_rdisk and get_bootcode
-- ============================================================================

/-- What a scan comes to. -/
def ScanResult (dev : BlockDev) (id : UInt32) (lo hi : Nat) : Checked (Option Block) → Prop
  | .outside => ¬ScanInside dev id lo hi
  | .inside r => ScanInside dev id lo hi ∧ ∀ b, r = some b ↔ FirstFound dev id lo hi b

/-- A block that is passed over. -/
theorem ScanResult.skip {r : Checked (Option Block)} (h : ScanResult dev id (lo + 1) hi r) (hlt : lo < hi)
    (hnot : ∀ b, ¬Found dev id lo b) (hin : ∀ b, dev.disk lo = some b → b.id = id → b.summedLongs.toNat ≤ dev.longs) :
    ScanResult dev id lo hi r := by
  have hbefore : ∀ k,
      (∀ j, lo ≤ j → j < k → ∀ b, ¬Found dev id j b) ↔ ∀ j, lo + 1 ≤ j → j < k → ∀ b, ¬Found dev id j b := by
    refine fun k => ⟨fun h j hj => h j (by omega), fun h j hj hjk => ?_⟩
    rcases Nat.eq_or_lt_of_le hj with rfl | hlt'
    · exact hnot
    · exact h j hlt' hjk
  have hscan : ScanInside dev id lo hi ↔ ScanInside dev id (lo + 1) hi := by
    constructor
    · exact fun h k hk hkhi hfirst => h k (by omega) hkhi ((hbefore k).mpr hfirst)
    · intro h k hk hkhi hfirst
      rcases Nat.eq_or_lt_of_le hk with rfl | hlt'
      · exact hin
      · exact h k hlt' hkhi ((hbefore k).mp hfirst)
  have hfirst : ∀ b, FirstFound dev id lo hi b ↔ FirstFound dev id (lo + 1) hi b := by
    intro b
    constructor
    · rintro ⟨k, hk, hkhi, hfound, hfirst⟩
      have hne : lo ≠ k := fun heq => hnot b (heq ▸ hfound)
      exact ⟨k, by omega, hkhi, hfound, (hbefore k).mp hfirst⟩
    · rintro ⟨k, hk, hkhi, hfound, hfirst⟩
      exact ⟨k, by omega, hkhi, hfound, (hbefore k).mpr hfirst⟩
  cases r with
  | outside => exact mt hscan.mp h
  | inside r => exact ⟨hscan.mpr h.1, fun b => (h.2 b).trans (hfirst b).symm⟩

theorem scan_result (n lo : Nat) : ScanResult dev id lo (lo + n) (scan dev id n lo) := by
  induction n generalizing lo with
  | zero =>
    refine ⟨fun k hk hkhi => absurd hkhi (by omega), fun b => ⟨nofun, ?_⟩⟩
    rintro ⟨k, hk, hkhi, -⟩
    omega
  | succ n ih =>
    have hrest : ScanResult dev id (lo + 1) (lo + (n + 1)) (scan dev id n (lo + 1)) := by
      have := ih (lo + 1)
      rwa [Nat.add_assoc, Nat.add_comm 1 n] at this
    rw [scan]
    cases hdisk : dev.disk lo with
    | none => exact hrest.skip (by omega) (fun b h => nomatch hdisk.symm.trans h.1) fun b h => nomatch hdisk.symm.trans h
    | some b =>
      have hblock : ∀ b', dev.disk lo = some b' → b' = b := fun b' h => Option.some.inj (h.symm.trans hdisk)
      dsimp only
      split
      · rename_i hid
        cases hsum : sumBlock dev.longs b with
        | outside =>
          have hlongs := outside_of_sumBlock hsum
          exact fun h => hlongs (h lo le_rfl (by omega) (fun j hj hjlo => absurd hjlo (Nat.not_lt.mpr hj)) b hdisk hid)
        | inside bad =>
          cases bad with
          | true =>
            obtain ⟨hlongs, hnot⟩ := not_sound_of_sumBlock hsum
            refine hrest.skip (by omega) (fun b' h => ?_) fun b' h _ => ?_
            · exact hnot (hblock b' h.1 ▸ h.2.2)
            · exact hblock b' h ▸ hlongs
          | false =>
            have hfound : Found dev id lo b := ⟨hdisk, hid, sound_of_sumBlock hsum⟩
            refine ⟨fun k hk hkhi hfirst b' hb' _ => ?_, fun b' => ⟨fun h => ?_, ?_⟩⟩
            · rcases Nat.eq_or_lt_of_le hk with rfl | hlt
              · exact hblock b' hb' ▸ hfound.2.2.1
              · exact absurd hfound (hfirst lo le_rfl hlt b)
            · obtain rfl := Option.some.inj h
              exact ⟨lo, le_rfl, by omega, hfound, fun j hj hjlo => absurd hjlo (Nat.not_lt.mpr hj)⟩
            · rintro ⟨k, hk, -, hfound', hfirst⟩
              rcases Nat.eq_or_lt_of_le hk with rfl | hlt
              · exact congrArg some (hblock b' hfound'.1).symm
              · exact absurd hfound (hfirst lo le_rfl hlt b)
      · rename_i hid
        refine hrest.skip (by omega) (fun b' h => ?_) fun b' h h' => ?_
        · exact hid (hblock b' h.1 ▸ h.2.1)
        · exact absurd (hblock b' h ▸ h') hid

theorem scan_inside_iff : (∃ r, scan dev id n 0 = .inside r) ↔ ScanInside dev id 0 n := by
  have h : ScanResult dev id 0 (0 + n) (scan dev id n 0) := scan_result n 0
  rw [Nat.zero_add] at h
  cases hscan : scan dev id n 0 with
  | outside =>
    rw [hscan] at h
    exact iff_of_false nofun h
  | inside r =>
    rw [hscan] at h
    exact iff_of_true ⟨r, rfl⟩ h.1

theorem scan_eq_some_iff {r : Option Block} (hscan : scan dev id n 0 = .inside r) :
    r = some b ↔ FirstFound dev id 0 n b := by
  have h : ScanResult dev id 0 (0 + n) (scan dev id n 0) := scan_result n 0
  rw [Nat.zero_add, hscan] at h
  exact h.2 b

-- ============================================================================
-- The walks
-- ============================================================================

theorem IsPart.unique {p' : Block} (h : IsPart dev block p) (h' : IsPart dev block p') : p = p' :=
  Option.some.inj (h.2.1.symm.trans h'.2.1)

/-- What a turn finds at a block. -/
theorem block_cases (dev : BlockDev) (block : UInt32) :
    (∃ p, IsPart dev block p) ∨
      (∀ p, ¬IsPart dev block p) ∧ (block = 0xFFFFFFFF ∨ block ≠ 0xFFFFFFFF ∧
        (dev.disk block.toNat = none ∨ ∃ p, dev.disk block.toNat = some p ∧ p.id ≠ AMIGA_ID_PART)) := by
  by_cases hlast : block = 0xFFFFFFFF
  · exact .inr ⟨fun p h => h.1 hlast, .inl hlast⟩
  cases hdisk : dev.disk block.toNat with
  | none => exact .inr ⟨fun p h => (nomatch hdisk.symm.trans h.2.1), .inr ⟨hlast, .inl rfl⟩⟩
  | some p =>
    by_cases hid : p.id = AMIGA_ID_PART
    · exact .inl ⟨p, hlast, hdisk, hid⟩
    · refine .inr ⟨fun p' h => hid ?_, .inr ⟨hlast, .inr ⟨p, rfl, hid⟩⟩⟩
      obtain rfl : p' = p := Option.some.inj (h.2.1.symm.trans hdisk)
      exact h.2.2

section Turns

variable {printed : List Block} {partnum : Int}

theorem printTurn_last : printTurn dev (0xFFFFFFFF, printed) = .done (.inside printed) := rfl

theorem findTurn_last : findTurn dev (0xFFFFFFFF, partnum) = .done (.inside none) := rfl

/-- Where the list ends, both walks do, with the next turn. -/
theorem loop_of_no_part (printed : List Block) (partnum : Int) (h : ∀ p, ¬IsPart dev block p) :
    loop (printTurn dev) 2 (block, printed) = some (.inside printed) ∧
      loop (findTurn dev) 2 (block, partnum) = some (.inside none) := by
  obtain ⟨p, hp⟩ | ⟨-, rfl | ⟨hlast, hend⟩⟩ := block_cases dev block
  · exact absurd hp (h p)
  · exact ⟨loop_done printTurn_last, loop_done findTurn_last⟩
  · have hprint : Goes (printTurn dev) (block, printed) (0xFFFFFFFF, printed) := by
      rw [Goes, printTurn]
      rw [if_neg hlast]
      obtain hdisk | ⟨p, hdisk, hid⟩ := hend
      · rw [hdisk]
      · rw [hdisk]
        exact if_neg hid
    have hfind : Goes (findTurn dev) (block, partnum) (0xFFFFFFFF, partnum) := by
      rw [Goes, findTurn]
      rw [if_neg hlast]
      obtain hdisk | ⟨p, hdisk, hid⟩ := hend
      · rw [hdisk]
      · rw [hdisk]
        exact if_neg hid
    rw [loop_next hprint, loop_next hfind]
    exact ⟨loop_done printTurn_last, loop_done findTurn_last⟩

theorem printTurn_part (printed : List Block) (h : IsPart dev block p) :
    printTurn dev (block, printed) =
      match sumBlock dev.longs p with
      | .outside => .done .outside
      | .inside true => .next (block, printed)
      | .inside false => .next (p.next, printed ++ [p]) := by
  rw [printTurn]
  rw [if_neg h.1, h.2.1]
  exact if_pos h.2.2

theorem findTurn_part (partnum : Int) (h : IsPart dev block p) :
    findTurn dev (block, partnum) =
      match sumBlock dev.longs p with
      | .outside => .done .outside
      | .inside true => .next (block, partnum)
      | .inside false => if partnum = 0 then .done (.inside (some p)) else .next (p.next, partnum - 1) := by
  rw [findTurn]
  rw [if_neg h.1, h.2.1]
  exact if_pos h.2.2

theorem PartsSound.link (h : PartsSound dev block) (hlink : Link dev block block') : PartsSound dev block' :=
  fun _ p hreach hp => h _ p (.head hlink hreach) hp

/-- Along a list of sound blocks that ends, the listing ends. -/
theorem exists_print (hacc : Acc (fun b a => Link dev a b) block) (hsound : PartsSound dev block) (printed : List Block) :
    ∃ n r, loop (printTurn dev) n (block, printed) = some (.inside r) := by
  induction hacc generalizing printed with
  | intro block _ ih =>
    by_cases hpart : ∃ p, IsPart dev block p
    · obtain ⟨p, hp⟩ := hpart
      obtain ⟨n, r, hn⟩ := ih p.next ⟨p, hp, rfl⟩ (hsound.link ⟨p, hp, rfl⟩) (printed ++ [p])
      refine ⟨n + 1, r, (loop_next ?_).trans hn⟩
      rw [Goes, printTurn_part printed hp, sumBlock_of_sound (hsound block p .refl hp)]
    · exact ⟨2, printed, (loop_of_no_part printed 0 fun p hp => hpart ⟨p, hp⟩).1⟩

theorem exists_find (hacc : Acc (fun b a => Link dev a b) block) (hsound : PartsSound dev block) (partnum : Int) :
    ∃ n r, loop (findTurn dev) n (block, partnum) = some (.inside r) := by
  induction hacc generalizing partnum with
  | intro block _ ih =>
    by_cases hpart : ∃ p, IsPart dev block p
    · obtain ⟨p, hp⟩ := hpart
      have hturn := findTurn_part partnum hp
      rw [sumBlock_of_sound (hsound block p .refl hp)] at hturn
      by_cases hzero : partnum = 0
      · exact ⟨1, some p, loop_done (hturn.trans (if_pos hzero))⟩
      · obtain ⟨n, r, hn⟩ := ih p.next ⟨p, hp, rfl⟩ (hsound.link ⟨p, hp, rfl⟩) (partnum - 1)
        exact ⟨n + 1, r, (loop_next (hturn.trans (if_neg hzero))).trans hn⟩
    · exact ⟨2, none, (loop_of_no_part [] _ fun p hp => hpart ⟨p, hp⟩).2⟩

/-- A number that is not negative is found, or not, within that many links and two turns more, also on
    a list that comes back to itself. -/
theorem find_within (hsound : PartsSound dev block) (partnum : Nat) :
    ∃ r, loop (findTurn dev) (partnum + 2) (block, partnum) = some (.inside r) := by
  induction partnum generalizing block with
  | zero =>
    by_cases hpart : ∃ p, IsPart dev block p
    · obtain ⟨p, hp⟩ := hpart
      have hturn := findTurn_part ((0 : Nat) : Int) hp
      rw [sumBlock_of_sound (hsound block p .refl hp)] at hturn
      exact ⟨some p, loop_done (hturn.trans (if_pos rfl))⟩
    · exact ⟨none, (loop_of_no_part [] _ fun p hp => hpart ⟨p, hp⟩).2⟩
  | succ partnum ih =>
    by_cases hpart : ∃ p, IsPart dev block p
    · obtain ⟨p, hp⟩ := hpart
      have hturn := findTurn_part ((partnum + 1 : Nat) : Int) hp
      rw [sumBlock_of_sound (hsound block p .refl hp)] at hturn
      obtain ⟨r, hr⟩ := ih (hsound.link ⟨p, hp, rfl⟩)
      refine ⟨r, (loop_next (hturn.trans (if_neg (by omega)))).trans ?_⟩
      have hpred : ((partnum + 1 : Nat) : Int) - 1 = partnum := by omega
      rw [hpred]
      exact hr
    · exact ⟨none, loop_mono (by omega) (loop_of_no_part [] _ fun p hp => hpart ⟨p, hp⟩).2⟩

/-- A listing that ends has gone along a list that ends, of sound blocks: it does not get past another. -/
theorem sound_of_loop {r : List Block} (h : loop (printTurn dev) n (block, printed) = some (.inside r)) :
    Acc (fun b a => Link dev a b) block ∧ PartsSound dev block := by
  induction n generalizing block printed with
  | zero => cases h
  | succ n ih =>
    by_cases hpart : ∃ p, IsPart dev block p
    · obtain ⟨p, hp⟩ := hpart
      have hturn := printTurn_part printed hp
      cases hsum : sumBlock dev.longs p with
      | outside =>
        rw [hsum] at hturn
        rw [loop_done hturn] at h
        cases h
      | inside bad =>
        rw [hsum] at hturn
        cases bad with
        | true =>
          rw [loop_next hturn] at h
          exact ih h
        | false =>
          rw [loop_next hturn] at h
          obtain ⟨hacc, hsound⟩ := ih h
          refine ⟨⟨block, ?_⟩, fun block' q hreach hq => ?_⟩
          · rintro _ ⟨p', hp', rfl⟩
            exact hp.unique hp' ▸ hacc
          · obtain rfl | ⟨_, ⟨p', hp', rfl⟩, hreach⟩ := ReflTransGen.cases_head hreach
            · exact hp.unique hq ▸ sound_of_sumBlock hsum
            · exact hsound block' q (hp.unique hp' ▸ hreach) hq
    · refine ⟨⟨block, fun b' ⟨p, hp, _⟩ => absurd ⟨p, hp⟩ hpart⟩, fun block' q hreach hq => ?_⟩
      obtain rfl | ⟨_, ⟨p', hp', rfl⟩, -⟩ := ReflTransGen.cases_head hreach
      · exact absurd ⟨q, hq⟩ hpart
      · exact absurd ⟨p', hp'⟩ hpart

end Turns

-- ============================================================================
-- Safety
-- ============================================================================

/-- The blocks that the functions sum have their words in the buffer; and, where there is a rigid disk
    block, the partition blocks of its list have the right checksum and none links back to itself,
    be it through others. -/
structure SoundDisk (dev : BlockDev) (s : Option Int) : Prop where
  rdisk : ScanInside dev AMIGA_ID_RDISK 0 (scanLimit s).toNat
  list : ∀ rdb, FirstFound dev AMIGA_ID_RDISK 0 (scanLimit s).toNat rdb →
    PartsSound dev rdb.partitionList ∧ NoReturn (Link dev) rdb.partitionList ∧
      ScanInside dev AMIGA_ID_BOOT 0 (scanLimit s).toNat

theorem acc_link_iff : Acc (fun b a => Link dev a b) block ↔ NoReturn (Link dev) block := by
  have hinj : Function.Injective UInt32.toFin := fun a b h => UInt32.toFin_inj.mp h
  have : Finite UInt32 := Finite.of_injective _ hinj
  exact acc_iff_noReturn (Set.toFinite _)

theorem soundDisk_of_safe {s : Option Int} (h : Safe dev s) : SoundDisk dev s := by
  obtain ⟨hrdisk, -, n, r, hprint⟩ := h
  refine ⟨scan_inside_iff.mp hrdisk, fun rdb hrdb => ?_⟩
  obtain ⟨found, hfound⟩ := hrdisk
  obtain rfl := (scan_eq_some_iff hfound).mpr hrdb
  rw [printPartAmiga, hfound] at hprint
  dsimp only at hprint
  cases hloop : loop (printTurn dev) n (rdb.partitionList, []) with
  | none =>
    rw [hloop] at hprint
    cases hprint
  | some result =>
    rw [hloop] at hprint
    cases result with
    | outside => cases hprint
    | inside printed =>
      obtain ⟨hacc, hsound⟩ := sound_of_loop hloop
      refine ⟨hsound, acc_link_iff.mp hacc, scan_inside_iff.mp ?_⟩
      cases hboot : getBootcode dev s with
      | outside =>
        dsimp only at hprint
        rw [hboot] at hprint
        cases hprint
      | inside boot => exact ⟨boot, hboot⟩

/-- **part_amiga.**  The scans and walks end, with reads inside of the buffer, just on a sound disk. -/
theorem amiga_safe_iff (dev : BlockDev) (s : Option Int) : Safe dev s ↔ SoundDisk dev s := by
  constructor
  · exact soundDisk_of_safe
  · rintro ⟨hrdisk, hlist⟩
    obtain ⟨found, hfound⟩ := scan_inside_iff.mpr hrdisk
    have hget : getRdisk dev s = .inside found := hfound
    cases found with
    | none =>
      refine ⟨⟨none, hfound⟩, fun partnum => ⟨0, none, ?_⟩, 0, ([], false), ?_⟩
      · rw [findPartition, hget]
      · rw [printPartAmiga, hget]
    | some rdb =>
      obtain ⟨hsound, hreturn, hboot⟩ := hlist rdb ((scan_eq_some_iff hfound).mp rfl)
      have hacc := acc_link_iff.mpr hreturn
      refine ⟨⟨some rdb, hfound⟩, fun partnum => ?_, ?_⟩
      · obtain ⟨n, r, hn⟩ := exists_find hacc hsound partnum
        refine ⟨n, r, ?_⟩
        rw [findPartition, hget]
        exact hn
      · obtain ⟨n, printed, hn⟩ := exists_print hacc hsound []
        obtain ⟨boot, hboot⟩ := scan_inside_iff.mpr hboot
        refine ⟨n, (printed, boot.isSome), ?_⟩
        have hget' : getBootcode dev s = .inside boot := hboot
        rw [printPartAmiga, hget]
        dsimp only
        rw [hn, hget']

/-- A rigid disk block, and a partition block whose checksum is wrong. -/
def badChecksum : BlockDev where
  disk k :=
    if k = 0 then some fun i => [AMIGA_ID_RDISK, 3, 0 - AMIGA_ID_RDISK - 3, 0, 0, 0, 0, 1].getD i 0
    else if k = 1 then some fun i => [AMIGA_ID_PART, 3, 0, 0, 0xFFFFFFFF].getD i 0
    else none
  longs := 128

/-- It is read again and again. -/
theorem not_safe_badChecksum : ¬Safe badChecksum none := by
  intro h
  have hfound : Found badChecksum AMIGA_ID_RDISK 0 _ := ⟨rfl, rfl, by decide, by decide⟩
  have hfirst : FirstFound badChecksum AMIGA_ID_RDISK 0 (scanLimit none).toNat _ :=
    ⟨0, le_rfl, by decide, hfound, fun j _ hj => absurd hj (Nat.not_lt_zero j)⟩
  have hsound := ((soundDisk_of_safe h).list _ hfirst).1 1 _ .refl ⟨by decide, rfl, rfl⟩
  exact absurd hsound.2 (by decide)

end Uboot.Disk.PartAmiga
