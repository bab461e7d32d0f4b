/-
  Uboot.Disk.PartDosEnds

  Whether the walks of disk/part_dos.c along extended boot records come to an end.

  The walks recurse without a bound, along links that are sectors of the disk.  Here a walk
  that is given too small a depth has no result at all.  The number of a partition counts
  without a bound: an `int` that overflows has no meaning.
-/

import Uboot.Disk.PartDos
import Uboot.Lib.Returns
import Mathlib.Data.Finite.Prod

namespace Uboot.Disk.PartDos

open Uboot.Lib Relation

-- ============================================================================
-- Walks with a depth
-- ============================================================================

/-- The arguments that say which boot record is read: `ext_part_sector` and `relative`. -/
structure Place where
  extPartSector : Nat
  relative : Nat
  deriving DecidableEq

/-- Where both walks start. -/
def Place.first : Place := ⟨0, 0⟩

/-- The arguments of the call for an extended entry. -/
def Place.follow (pl : Place) (p : DosPartition) : Place :=
  let lbaStart := u32 (p.start4 + pl.relative)
  ⟨lbaStart, if pl.extPartSector = 0 then lbaStart else pl.relative⟩

/-- `get_partition_info_extended`; `none` when the depth is too small. -/
def lookup (dev : BlockDevDesc) (whichPart : Nat) : Nat → Place → Nat → Option (Option PartitionInfo)
  | 0, _, _ => none
  | depth + 1, pl, partNum =>
    match dev.disk pl.extPartSector with
    | none => some none
    | some buffer =>
      if signed buffer then
        match findPart dev pl.extPartSector whichPart (partTable buffer) partNum with
        | .inl info => some (some info)
        | .inr partNum =>
          match (partTable buffer).find? fun p => isExtended p.sysInd with
          | some p => lookup dev whichPart depth (pl.follow p) partNum
          | none => some none
      else some none

/-- `print_partition_extended`; `none` when the depth is too small. -/
def listing (dev : BlockDevDesc) : Nat → Place → Nat → Option (List PrintLine)
  | 0, _, _ => none
  | depth + 1, pl, partNum =>
    match dev.disk pl.extPartSector with
    | none => some [.cannotRead pl.extPartSector]
    | some buffer =>
      match testBlockType buffer with
      | .none => some [.badSignature (buffer dosPartMagicOffset) (buffer (dosPartMagicOffset + 1))]
      | .pbr => some [.pbr dev.lba (buffer dosPbrMediaTypeOffset).toNat]
      | .mbr =>
        let (lines, partNum) := printParts pl.extPartSector (partTable buffer) partNum
        ((partTable buffer).mapM fun p =>
          if isExtended p.sysInd then listing dev depth (pl.follow p) partNum else some []).map
            fun rest => lines ++ rest.flatten

/-- `get_partition_info_dos` ends. -/
def LookupEnds (dev : BlockDevDesc) (whichPart : Nat) : Prop :=
  ∃ depth, (lookup dev whichPart depth .first 1).isSome

/-- `print_part_dos` ends. -/
def ListingEnds (dev : BlockDevDesc) : Prop := ∃ depth, (listing dev depth .first 1).isSome

section Depth

variable {dev : BlockDevDesc} {whichPart depth n : Nat} {pl : Place}

/-- A lookup with a result is the one of the walk that makes up an answer at its end. -/
theorem getPartitionInfoExtended_of_lookup {r : Option PartitionInfo}
    (h : lookup dev whichPart depth pl n = some r) :
    getPartitionInfoExtended dev whichPart depth pl.extPartSector pl.relative n = r := by
  induction depth generalizing pl n with
  | zero => cases h
  | succ depth ih =>
    rw [lookup] at h
    rw [getPartitionInfoExtended]
    cases hdisk : dev.disk pl.extPartSector with
    | none =>
      rw [hdisk] at h
      exact Option.some.inj h
    | some buffer =>
      simp only [hdisk] at h ⊢
      by_cases hsigned : signed buffer = true
      · rw [if_pos hsigned] at h ⊢
        cases hfind : findPart dev pl.extPartSector whichPart (partTable buffer) n with
        | inl info =>
          rw [hfind] at h
          exact Option.some.inj h
        | inr partNum =>
          rw [hfind] at h
          cases hext : (partTable buffer).find? fun p => isExtended p.sysInd with
          | none =>
            rw [hext] at h
            exact Option.some.inj h
          | some p =>
            rw [hext] at h
            exact ih h
      · rw [if_neg hsigned] at h ⊢
        exact Option.some.inj h

theorem mapM_flatten {α β : Type*} {f : α → Option (List β)} {g : α → List β} {l : List α}
    {rest : List (List β)} (hfg : ∀ x ∈ l, ∀ ys, f x = some ys → g x = ys)
    (h : l.mapM f = some rest) : l.flatMap g = rest.flatten := by
  induction l generalizing rest with
  | nil =>
    obtain rfl := Option.some.inj h
    rfl
  | cons x l ih =>
    rw [List.mapM_cons] at h
    obtain ⟨ys, hys, h⟩ := Option.bind_eq_some_iff.mp h
    obtain ⟨yss, hyss, h⟩ := Option.bind_eq_some_iff.mp h
    obtain rfl := Option.some.inj h
    rw [List.flatMap_cons, List.flatten_cons, hfg x List.mem_cons_self ys hys,
      ih (fun y hy => hfg y (List.mem_cons_of_mem _ hy)) hyss]

/-- The same for the listing. -/
theorem printPartitionExtended_of_listing {lines : List PrintLine}
    (h : listing dev depth pl n = some lines) :
    printPartitionExtended dev depth pl.extPartSector pl.relative n = lines := by
  induction depth generalizing pl n lines with
  | zero => cases h
  | succ depth ih =>
    rw [listing] at h
    rw [printPartitionExtended]
    cases hdisk : dev.disk pl.extPartSector with
    | none =>
      rw [hdisk] at h
      exact Option.some.inj h
    | some buffer =>
      simp only [hdisk] at h ⊢
      cases htype : testBlockType buffer with
      | none | pbr =>
        rw [htype] at h
        exact Option.some.inj h
      | mbr =>
        simp only [htype] at h ⊢
        obtain ⟨rest, hrest, rfl⟩ := Option.map_eq_some_iff.mp h
        refine congrArg _ (mapM_flatten (fun p _ ys hys => ?_) hrest)
        by_cases hext : isExtended p.sysInd = true
        · rw [if_pos hext] at hys ⊢
          exact ih hys
        · rw [if_neg hext] at hys ⊢
          exact Option.some.inj hys

end Depth

-- ============================================================================
-- Links
-- ============================================================================

/-- An entry of the boot record at `pl` that the listing follows leads to `pl'`. -/
def Link (disk : Sectors) (pl pl' : Place) : Prop :=
  ∃ buffer, disk pl.extPartSector = some buffer ∧ testBlockType buffer = .mbr ∧
    ∃ p ∈ partTable buffer, isExtended p.sysInd ∧ pl' = pl.follow p

/-- The one entry of the boot record at `pl` that the lookup follows leads to `pl'`. -/
def FirstLink (disk : Sectors) (pl pl' : Place) : Prop :=
  ∃ buffer, disk pl.extPartSector = some buffer ∧ signed buffer ∧
    ∃ p, (partTable buffer).find? (fun p => isExtended p.sysInd) = some p ∧ pl' = pl.follow p

/-- The boot record at `pl` holds the partition looked for, where the count is `n`. -/
def Holds (dev : BlockDevDesc) (whichPart : Nat) (pl : Place) (n : Nat) : Prop :=
  ∃ buffer, dev.disk pl.extPartSector = some buffer ∧ signed buffer ∧
    ∃ info, findPart dev pl.extPartSector whichPart (partTable buffer) n = .inl info

/-- A call of the lookup from within another, with the number it goes on with. -/
def Call (dev : BlockDevDesc) (whichPart : Nat) (a a' : Place × Nat) : Prop :=
  FirstLink dev.disk a.1 a'.1 ∧ ∃ buffer, dev.disk a.1.extPartSector = some buffer ∧
    findPart dev a.1.extPartSector whichPart (partTable buffer) a.2 = .inr a'.2

/-- The lookup comes to a boot record that holds the partition. -/
def Found (dev : BlockDevDesc) (whichPart : Nat) : Prop :=
  ∃ a, ReflTransGen (Call dev whichPart) (.first, 1) a ∧ Holds dev whichPart a.1 a.2

section Links

variable {dev : BlockDevDesc} {whichPart depth n : Nat} {pl pl' : Place} {a b : Place × Nat}

theorem Place.follow_lt (pl : Place) (p : DosPartition) (h : pl.relative < 4294967296) :
    (pl.follow p).extPartSector < 4294967296 ∧ (pl.follow p).relative < 4294967296 := by
  refine ⟨u32_lt _, ?_⟩
  rw [follow]
  dsimp only
  split_ifs
  · exact u32_lt _
  · exact h

/-- The places a walk comes to are finitely many, as sector numbers are 32 bits wide. -/
theorem reached_finite (link : Place → Place → Prop)
    (hlink : ∀ pl pl', link pl pl' → ∃ p, pl' = pl.follow p) :
    {pl | ReflTransGen link .first pl}.Finite := by
  have hbox : (({i | i < 4294967296} ×ˢ {i | i < 4294967296} : Set (Nat × Nat)).image
      fun q => Place.mk q.1 q.2).Finite :=
    ((Set.finite_lt_nat _).prod (Set.finite_lt_nat _)).image _
  refine hbox.subset fun pl hpl => ?_
  have hlt : pl.extPartSector < 4294967296 ∧ pl.relative < 4294967296 := by
    induction hpl with
    | refl => exact ⟨by decide, by decide⟩
    | tail _ hstep ih =>
      obtain ⟨p, rfl⟩ := hlink _ _ hstep
      exact Place.follow_lt _ p ih.2
  exact ⟨(pl.extPartSector, pl.relative), ⟨hlt.1, hlt.2⟩, rfl⟩

-- ============================================================================
-- The listing
-- ============================================================================

theorem mapM_isSome {α β : Type*} {f : α → Option β} {l : List α} :
    (l.mapM f).isSome ↔ ∀ x ∈ l, (f x).isSome := by
  induction l with
  | nil => simp
  | cons x l ih =>
    rw [List.mapM_cons, List.forall_mem_cons, ← ih]
    cases f x <;> cases l.mapM f <;> simp

/-- The listing has a result just when the depth is enough for every chain of links. -/
theorem listing_isSome : (listing dev depth pl n).isSome ↔ Within (Link dev.disk) depth pl := by
  induction depth generalizing pl n with
  | zero => simp [listing, Within]
  | succ depth ih =>
    rw [listing, Within]
    cases hdisk : dev.disk pl.extPartSector with
    | none =>
      refine iff_of_true rfl ?_
      rintro pl' ⟨buffer, hbuffer, -⟩
      simp [hdisk] at hbuffer
    | some buffer =>
      cases htype : testBlockType buffer with
      | none | pbr =>
        refine iff_of_true (by simp only [htype, Option.isSome_some]) ?_
        rintro pl' ⟨b, hb, hmbr, -⟩
        obtain rfl := Option.some.inj (hdisk.symm.trans hb)
        simp [htype] at hmbr
      | mbr =>
        simp only [htype, Option.isSome_map, mapM_isSome]
        constructor
        · rintro h pl' ⟨b, hb, -, p, hp, hext, rfl⟩
          obtain rfl := Option.some.inj (hdisk.symm.trans hb)
          have := h p hp
          rw [if_pos hext] at this
          exact ih.mp this
        · intro h p hp
          split_ifs with hext
          · exact ih.mpr (h _ ⟨buffer, hdisk, htype, p, hp, hext, rfl⟩)
          · rfl

/-- **The listing ends** just when no boot record it comes to leads back to itself. -/
theorem listingEnds_iff : ListingEnds dev ↔ NoReturn (Link dev.disk) .first := by
  have hfin : ∀ pl, {pl' | Link dev.disk pl pl'}.Finite := by
    intro pl
    cases hdisk : dev.disk pl.extPartSector with
    | none =>
      refine Set.finite_empty.subset ?_
      rintro pl' ⟨buffer, hbuffer, -⟩
      simp [hdisk] at hbuffer
    | some buffer =>
      refine ((partTable buffer).map pl.follow).finite_toSet.subset ?_
      rintro pl' ⟨b, hb, -, p, hp, -, rfl⟩
      obtain rfl := Option.some.inj (hdisk.symm.trans hb)
      exact List.mem_map_of_mem hp
  have hreach := reached_finite (Link dev.disk)
    fun _ _ ⟨_, _, _, p, _, _, hfollow⟩ => ⟨p, hfollow⟩
  rw [← acc_iff_noReturn hreach, ← exists_within_iff_acc hfin, ListingEnds]
  exact exists_congr fun depth => listing_isSome

-- ============================================================================
-- The lookup
-- ============================================================================

theorem FirstLink.follow (h : FirstLink dev.disk pl pl') : ∃ p, pl' = pl.follow p := by
  obtain ⟨-, -, -, p, -, hfollow⟩ := h
  exact ⟨p, hfollow⟩

/-- A boot record is followed along one entry only. -/
theorem Call.unique {c : Place × Nat} (hb : Call dev whichPart a b) (hc : Call dev whichPart a c) :
    b = c := by
  obtain ⟨⟨buffer, hdisk, -, p, hp, hpl⟩, buffer', hdisk', hnum⟩ := hb
  obtain ⟨⟨buffer2, hdisk2, -, p2, hp2, hpl2⟩, buffer2', hdisk2', hnum2⟩ := hc
  obtain rfl := Option.some.inj (hdisk.symm.trans hdisk')
  obtain rfl := Option.some.inj (hdisk.symm.trans hdisk2)
  obtain rfl := Option.some.inj (hdisk.symm.trans hdisk2')
  obtain rfl := Option.some.inj (hp.symm.trans hp2)
  exact Prod.ext (hpl.trans hpl2.symm) (Sum.inr.inj (hnum.symm.trans hnum2))

/-- The lookup has a result just when the depth is enough for its calls. -/
theorem lookup_isSome :
    (lookup dev whichPart depth pl n).isSome ↔ Within (Call dev whichPart) depth (pl, n) := by
  induction depth generalizing pl n with
  | zero => simp [lookup, Within]
  | succ depth ih =>
    rw [lookup, Within]
    cases hdisk : dev.disk pl.extPartSector with
    | none =>
      refine iff_of_true rfl ?_
      rintro b ⟨⟨buffer, hbuffer, -⟩, -⟩
      simp [hdisk] at hbuffer
    | some buffer =>
      by_cases hsigned : signed buffer = true
      · simp only [if_pos hsigned]
        cases hfind : findPart dev pl.extPartSector whichPart (partTable buffer) n with
        | inl info =>
          refine iff_of_true (by simp only [Option.isSome_some]) ?_
          rintro b ⟨-, b', hb', hnum⟩
          obtain rfl := Option.some.inj (hdisk.symm.trans hb')
          simp [hfind] at hnum
        | inr n' =>
          cases hext : (partTable buffer).find? fun p => isExtended p.sysInd with
          | none =>
            refine iff_of_true (by simp only [Option.isSome_some]) ?_
            rintro b ⟨⟨b', hb', -, p, hp, -⟩, -⟩
            obtain rfl := Option.some.inj (hdisk.symm.trans hb')
            simp [hext] at hp
          | some p =>
            have hcall : Call dev whichPart (pl, n) (pl.follow p, n') :=
              ⟨⟨buffer, hdisk, hsigned, p, hext, rfl⟩, buffer, hdisk, hfind⟩
            rw [ih]
            constructor
            · intro h b hb
              rw [hb.unique hcall]
              exact h
            · exact fun h => h _ hcall
      · refine iff_of_true (by simp only [if_neg hsigned, Option.isSome_some]) ?_
        rintro b ⟨⟨b', hb', hs, -⟩, -⟩
        obtain rfl := Option.some.inj (hdisk.symm.trans hb')
        exact absurd hs hsigned

theorem lookupEnds_iff_acc :
    LookupEnds dev whichPart ↔ Acc (fun b a => Call dev whichPart a b) (.first, 1) := by
  have hfin : ∀ a, {b | Call dev whichPart a b}.Finite := fun a =>
    Set.Subsingleton.finite fun _ hb _ hc => Call.unique hb hc
  rw [← exists_within_iff_acc hfin, LookupEnds]
  exact exists_congr fun depth => lookup_isSome

/-- Calls end where links end. -/
theorem acc_call_of_link {a : Place × Nat} (h : Acc (fun pl' pl => FirstLink dev.disk pl pl') a.1) :
    Acc (fun b a => Call dev whichPart a b) a := by
  generalize hpl : a.1 = pl at h
  induction h generalizing a with
  | intro pl _ ih =>
    subst hpl
    exact ⟨_, fun b hb => ih b.1 hb.1 rfl⟩

/-- Calls end where the partition is found. -/
theorem acc_call_of_holds (hab : ReflTransGen (Call dev whichPart) a b)
    (hb : Holds dev whichPart b.1 b.2) : Acc (fun b a => Call dev whichPart a b) a := by
  induction hab using ReflTransGen.head_induction_on with
  | refl =>
    refine ⟨_, fun c ⟨_, buffer, hdisk, hnum⟩ => ?_⟩
    obtain ⟨buffer', hdisk', -, info, hinfo⟩ := hb
    obtain rfl := Option.some.inj (hdisk.symm.trans hdisk')
    simp [hinfo] at hnum
  | head hcall _ ih => exact ⟨_, fun c hc => hc.unique hcall ▸ ih⟩

/-- Links end where calls end without the partition. -/
theorem acc_link_of_call (h : Acc (fun b a => Call dev whichPart a b) a)
    (hno : ∀ b, ReflTransGen (Call dev whichPart) a b → ¬ Holds dev whichPart b.1 b.2) :
    Acc (fun pl' pl => FirstLink dev.disk pl pl') a.1 := by
  induction h with
  | intro a _ ih =>
    refine ⟨_, fun pl' hlink => ?_⟩
    obtain ⟨buffer, hdisk, hsigned, p, hp, hpl⟩ := hlink
    cases hfind : findPart dev a.1.extPartSector whichPart (partTable buffer) a.2 with
    | inl info => exact absurd ⟨buffer, hdisk, hsigned, info, hfind⟩ (hno a .refl)
    | inr n' =>
      have hcall : Call dev whichPart a (pl', n') :=
        ⟨⟨buffer, hdisk, hsigned, p, hp, hpl⟩, buffer, hdisk, hfind⟩
      exact ih _ hcall fun b hb => hno b (.head hcall hb)

/-- **The lookup ends** just when it finds the partition, or no boot record it comes to leads
    back to itself. -/
theorem lookupEnds_iff :
    LookupEnds dev whichPart ↔ NoReturn (FirstLink dev.disk) .first ∨ Found dev whichPart := by
  have hreach := reached_finite (FirstLink dev.disk) fun _ _ h => h.follow
  rw [lookupEnds_iff_acc, ← acc_iff_noReturn hreach]
  constructor
  · intro h
    by_cases hfound : Found dev whichPart
    · exact .inr hfound
    · exact .inl (acc_link_of_call h fun b hb hholds => hfound ⟨b, hb, hholds⟩)
  · rintro (h | ⟨b, hb, hholds⟩)
    · exact acc_call_of_link h
    · exact acc_call_of_holds hb hholds

end Links

-- ============================================================================
-- Both walks
-- ============================================================================

/-- **The walks along extended boot records** end just when no boot record they come to leads
    back to itself; the lookup ends as well where it finds its partition before. -/
theorem extended_ends_iff (dev : BlockDevDesc) (whichPart : Nat) :
    (LookupEnds dev whichPart ↔ NoReturn (FirstLink dev.disk) .first ∨ Found dev whichPart) ∧
      (ListingEnds dev ↔ NoReturn (Link dev.disk) .first) :=
  ⟨lookupEnds_iff, listingEnds_iff⟩

/-- An extended partition whose boot record links to itself. -/
def selfLinked : BlockDevDesc where
  ifType := .other
  dev := 0
  lba := 80
  disk := fun s =>
    if s = 0 then some (bootSector (entryBytes 5 20 60))
    else if s = 20 then some (bootSector (entryBytes 5 0 60))
    else none

theorem link_selfLinked : Link selfLinked.disk ⟨20, 20⟩ ⟨20, 20⟩ :=
  ⟨_, rfl, by decide +kernel, partEntry (bootSector (entryBytes 5 0 60)) 0, by decide +kernel,
    by decide +kernel, by decide +kernel⟩

theorem reached_selfLinked : ReflTransGen (Link selfLinked.disk) .first ⟨20, 20⟩ :=
  .single ⟨_, rfl, by decide +kernel, partEntry (bootSector (entryBytes 5 20 60)) 0,
    by decide +kernel, by decide +kernel, by decide +kernel⟩

/-- Neither walk ends on it. -/
theorem not_ends_selfLinked : ¬ LookupEnds selfLinked 9 ∧ ¬ ListingEnds selfLinked := by
  have hround : ∀ depth, lookup selfLinked 9 depth ⟨20, 20⟩ 5 = none := by
    intro depth
    induction depth with
    | zero => rfl
    | succ depth ih => exact ih
  constructor
  · rintro ⟨depth, h⟩
    cases depth with
    | zero => cases h
    | succ depth =>
      have hnone : lookup selfLinked 9 (depth + 1) .first 1 = none := hround depth
      rw [hnone] at h
      cases h
  · rw [listingEnds_iff]
    exact fun h => h _ reached_selfLinked (.single link_selfLinked)

end Uboot.Disk.PartDos
