/-
  Uboot.Common.MtdpartsRuns

  The device list over runs of the commands, and when it comes back from the string
  that is printed for it.

  Whatever the commands, the partitions of a device are ordered by offset, and each
  that has been defined with a size and an offset is one the parser takes
  (`built_step`, `built_run`).  Such a list comes back exactly if no made-up name has
  an offset the printer leaves out, and the partitions at each offset are the same in
  both orders (`rereadDevice_view`).
-/

import Uboot.Common.MtdpartsRoundTrip
import Mathlib.Data.List.TakeWhile

namespace Uboot.Common.CmdMtdparts

open Uboot.Lib Uboot.LibGeneric

-- ============================================================================
-- What the parser accepts
-- ============================================================================

section Accepted

variable {flash : Flash} {id : MtdIds} {ids : List MtdIds}

/-- A name that is found is not empty, and ends before the bracket. -/
theorem namePart_spec {s name rest : List UInt8} (h : namePart s = some (some name, rest)) :
    name ≠ [] ∧ 41 ∉ name := by
  unfold namePart at h
  split at h
  · cases h
  · next c cs =>
    by_cases hopen : c = 40
    · rw [if_pos hopen] at h
      split at h
      · cases h
      · split_ifs at h with hempty
        have hname := Option.some.inj (congrArg Prod.fst (Option.some.inj h))
        rw [← hname]
        exact ⟨hempty, fun hmem => by simpa using List.mem_takeWhile_imp hmem⟩
    · rw [if_neg hopen] at h
      cases h

theorem optionPart_flags (s : List UInt8) :
    (optionPart s).1 = 0 ∨ (optionPart s).1 = mtdWriteableCmd := by
  unfold optionPart
  split
  · exact .inr rfl
  · exact .inl rfl

/-- A definition with a size and an offset makes a well-formed partition. -/
theorem partParse_wellFormed {s rest : List UInt8} {p : PartInfo}
    (h : partParse s = some (p, rest)) (hgiven : p.given = true) : WellFormed p := by
  unfold partParse at h
  simp only at h
  generalize hs : (if s.head? = some 45 then (sizeRemaining, s.tail) else memsizeParse s) = sz at h
  rw [ite_eq_iff] at h
  obtain ⟨-, h⟩ | ⟨hsmall, h⟩ := h
  · cases h
  generalize ho : (if sz.2.head? = some 64 then memsizeParse sz.2.tail else (offsetNotSpecified, sz.2)) =
    o at h
  split at h
  · cases h
  · next name t hname =>
    split at h
    · cases h
    · obtain ⟨rfl, -⟩ := Prod.mk.inj (Option.some.inj h)
      obtain ⟨hsize, hoffset⟩ : sz.1 ≠ sizeRemaining ∧ o.1 ≠ offsetNotSpecified := by
        simpa using hgiven
      -- neither number is the marker for a missing one, so both have been read
      have hdash : s.head? ≠ some 45 := by
        intro hdash
        rw [if_pos hdash] at hs
        exact hsize (hs ▸ rfl)
      have hsz : sz.1 < 4294967296 := by
        rw [← hs, if_neg hdash]
        exact memsizeParse_lt s
      have hmin : minPartSize ≤ sz.1 := by
        by_contra hlt
        exact hsmall ⟨hdash, by omega⟩
      have hat : sz.2.head? = some 64 := by
        by_contra hat
        rw [if_neg hat] at ho
        exact hoffset (ho ▸ rfl)
      have hof : o.1 < 4294967296 := by
        rw [← ho, if_pos hat]
        exact memsizeParse_lt _
      simp only [sizeRemaining] at hsize
      simp only [offsetNotSpecified] at hoffset
      refine ⟨⟨hmin, ?_⟩, ?_, optionPart_flags t, ?_⟩
      · simp only [sizeRemaining]
        omega
      · simp only [offsetNotSpecified]
        omega
      · cases name with
        | none => simp
        | some name => simpa using namePart_spec hname

/-- The check makes no definition complete. -/
theorem partValidate_given {p p' : PartInfo} (h : partValidate flash id p = some p') :
    p'.given = p.given := by
  unfold partValidate at h
  simp only at h
  split_ifs at h <;> obtain rfl := Option.some.inj h <;> rfl

/-- A partition the device `id` can have, if it has been defined in full. -/
def PartOk (flash : Flash) (id : MtdIds) (p : PartInfo) : Prop :=
  p.given = true → WellFormed p ∧ partValidate flash id p = some p

/-- The check passes what it has passed before. -/
theorem partOk_of_validate {p p' : PartInfo} (hp : p.given = true → WellFormed p)
    (h : partValidate flash id p = some p') : PartOk flash id p' := by
  intro hgiven
  have hwf := hp ((partValidate_given h).symm.trans hgiven)
  have hsize := hwf.size
  have heq := partValidate_eq h (by omega)
  subst heq
  exact ⟨hwf, h⟩

theorem partsParse_ok {fuel : Nat} {s rest : List UInt8} {offset : Nat} {parts : List PartInfo}
    (h : partsParse flash id fuel s offset = some (parts, rest)) : ∀ p ∈ parts, PartOk flash id p := by
  induction fuel generalizing s offset parts rest with
  | zero => cases h
  | succ fuel ih =>
    rw [partsParse] at h
    split_ifs at h with hend
    · obtain ⟨rfl, -⟩ := Prod.mk.inj (Option.some.inj h)
      simp
    · split at h
      · cases h
      · next part t hpart =>
        have hwf : ∀ o, (if part.offset = offsetNotSpecified then { part with offset := o }
            else part).given = true → WellFormed (if part.offset = offsetNotSpecified then
              { part with offset := o } else part) := by
          intro o hgiven
          have hwf := partParse_wellFormed hpart (by split_ifs at hgiven <;> exact hgiven)
          have hne : part.offset ≠ offsetNotSpecified := Nat.ne_of_lt hwf.offset
          rw [if_neg hne]
          exact hwf
        simp only at h
        split at h
        · cases h
        · next p' hvalid =>
          obtain ⟨r, hr, he⟩ := Option.map_eq_some_iff.mp h
          obtain ⟨rfl, -⟩ := Prod.mk.inj he
          intro q hq
          rcases List.mem_cons.mp hq with rfl | hq
          · exact partOk_of_validate (hwf offset) hvalid
          · exact ih hr q hq

theorem partSortAdd_ok {ps ps' : List PartInfo} {part : PartInfo} (hs : Sorted ps)
    (hps : ∀ p ∈ ps, PartOk flash id p) (hpart : PartOk flash id part)
    (h : partSortAdd ps part = some ps') :
    ps' ≠ [] ∧ Sorted ps' ∧ ∀ p ∈ ps', PartOk flash id p := by
  obtain ⟨hsorted, hperm, -⟩ := partSortAdd_spec hs h
  refine ⟨?_, hsorted, ?_⟩
  · rintro rfl
    exact List.cons_ne_nil _ _ (List.nil_perm.mp hperm)
  · intro p hp
    rcases List.mem_cons.mp (hperm.subset hp) with rfl | hp
    · exact hpart
    · exact hps p hp

/-- **What `device_parse` accepts** is a device of the list. -/
theorem deviceParse_ok {devices : List MtdDevice} {s rest : List UInt8} {d : MtdDevice}
    (h : deviceParse flash ids devices s = some (d, rest)) : DeviceOk flash ids d := by
  unfold deviceParse at h
  split at h
  · cases h
  · split at h
    · cases h
    · next id hid =>
      simp only at h
      split at h
      · cases h
      · next parts t hparts =>
        split_ifs at h with hne
        obtain ⟨qs, hqs, he⟩ := Option.map_eq_some_iff.mp h
        obtain ⟨rfl, -⟩ := Prod.mk.inj he
        obtain ⟨hsorted, hperm, -⟩ := partsSortAdd_spec List.Pairwise.nil hqs
        rw [List.append_nil] at hperm
        have htag : id.mtdId = s.takeWhile (· ≠ 58) := by
          simpa [idFindByMtdId] using List.find?_some hid
        refine ⟨?_, ?_, ?_, hsorted, ?_⟩
        · rw [htag]
          exact hid
        · rw [htag]
          exact fun hmem => by simpa using List.mem_takeWhile_imp hmem
        · rintro rfl
          exact hne (List.nil_perm.mp hperm)
        · exact fun p hp => partsParse_ok hparts p (hperm.subset hp)

end Accepted

-- ============================================================================
-- The commands
-- ============================================================================

section Commands

variable {flash : Flash} {ids : List MtdIds} {devices : List MtdDevice}

theorem not_sameChip_of_find {dev : MtdDevice}
    (h : deviceFind devices dev.id.type dev.id.num = none) : ∀ d ∈ devices, ¬ SameChip d dev := by
  intro d hd hsame
  have := List.find?_eq_none.mp h d hd
  simp only [Bool.and_eq_true, decide_eq_true_eq] at this
  exact this hsame

/-- A new device for a chip that has none yet. -/
theorem built_append (hb : Built flash ⟨ids, devices⟩) {dev : MtdDevice}
    (hdev : DeviceOk flash ids dev) (hnew : deviceFind devices dev.id.type dev.id.num = none) :
    Built flash ⟨ids, devices ++ [dev]⟩ := by
  refine ⟨?_, ?_⟩
  · intro d hd
    rcases List.mem_append.mp hd with hd | hd
    · exact hb.devices d hd
    · obtain rfl := List.mem_singleton.mp hd
      exact hdev
  · refine List.pairwise_append.mpr ⟨hb.distinct, List.pairwise_singleton .., ?_⟩
    intro d hd e he
    obtain rfl := List.mem_singleton.mp he
    exact not_sameChip_of_find hnew d hd

/-- Devices of one chip are one device. -/
theorem eq_of_sameChip (hb : Built flash ⟨ids, devices⟩) {d e : MtdDevice} (hd : d ∈ devices)
    (he : e ∈ devices) (h : SameChip d e) : d = e := by
  by_contra hne
  have hsymm : Std.Symm fun d e : MtdDevice => ¬ SameChip d e :=
    ⟨fun _ _ hde hed => hde ⟨hed.1.symm, hed.2.symm⟩⟩
  exact hb.distinct.forall hd he hne h

/-- The same chips, with other partitions that are as good. -/
theorem built_of_ids {devices' : List MtdDevice} (hb : Built flash ⟨ids, devices⟩)
    (hids : devices'.map MtdDevice.id = devices.map MtdDevice.id)
    (hok : ∀ d ∈ devices', DeviceOk flash ids d) : Built flash ⟨ids, devices'⟩ := by
  refine ⟨hok, ?_⟩
  have hd : (devices.map MtdDevice.id).Pairwise fun a b => ¬ (a.type = b.type ∧ a.num = b.num) :=
    List.pairwise_map.mpr hb.distinct
  rw [← hids] at hd
  exact List.pairwise_map.mp hd

theorem devicesParse_built {fuel : Nat} {s : List UInt8} {result : List MtdDevice}
    (hb : Built flash ⟨ids, devices⟩) (h : devicesParse flash ids fuel devices s = some result) :
    Built flash ⟨ids, result⟩ := by
  induction fuel generalizing devices s with
  | zero => cases h
  | succ fuel ih =>
    rw [devicesParse] at h
    split_ifs at h with hend
    · obtain rfl := Option.some.inj h
      exact hb
    · split at h
      · cases h
      · next dev t hdev =>
        split_ifs at h with hfound
        exact ih (built_append hb (deviceParse_ok hdev) (by simpa using hfound)) h

theorem built_nil (flash : Flash) (ids : List MtdIds) : Built flash ⟨ids, []⟩ :=
  ⟨by simp, List.Pairwise.nil⟩

theorem parseMtdparts_built (flash : Flash) (ids : List MtdIds) (value : List UInt8) :
    Built flash ⟨ids, (parseMtdparts flash ids value).getD []⟩ := by
  unfold parseMtdparts
  simp only
  split_ifs
  · exact built_nil flash ids
  · cases h : devicesParse flash ids ((value.drop mtdpartsPrefix.length).length + 1) []
        (value.drop mtdpartsPrefix.length) with
    | none => exact built_nil flash ids
    | some result => exact devicesParse_built (built_nil flash ids) h
  · exact built_nil flash ids

/-- `mtdparts add` -/
theorem built_doAdd {s : MtdState} (hb : Built flash s) (type : MtdType) (num : Nat)
    (size name flags : List UInt8) : Built flash (doAdd flash s type num size name flags) := by
  unfold doAdd
  split
  · exact hb
  · next id _ =>
    simp only
    by_cases hlen : 64 ≤ (id.mtdId.length + 1 + size.length + name.length + 2 +
        if flags.length = 2 then 2 else 0) % 256
    · rw [if_pos hlen]
      exact hb
    · rw [if_neg hlen]
      split
      · exact hb
      · next dev _ hdev =>
        have hok := deviceParse_ok hdev
        split
        · next hnew => exact built_append hb hok hnew
        · exact hb
        · next devTmp part ps htmp hps =>
          split
          · exact hb
          · next parts hparts =>
            -- the device that has the chip gets the partition
            obtain ⟨part', hvalid, hadd⟩ := Option.bind_eq_some_iff.mp hparts
            have htmpMem : devTmp ∈ s.devices := List.mem_of_find?_eq_some htmp
            have htmpSame : SameChip devTmp dev := by
              simpa [SameChip] using List.find?_some htmp
            have htmpOk := hb.devices devTmp htmpMem
            have hpart := hok.parts part (by rw [hps]; exact List.mem_cons_self ..)
            obtain ⟨hne, hsorted, hpartsOk⟩ := partSortAdd_ok htmpOk.sorted htmpOk.parts
              (partOk_of_validate (fun hgiven => (hpart hgiven).1) hvalid) hadd
            refine built_of_ids hb ?_ ?_
            · rw [List.map_map]
              refine List.map_congr_left fun d _ => ?_
              simp only [Function.comp]
              split_ifs <;> rfl
            · intro d hd
              obtain ⟨e, he, rfl⟩ := List.mem_map.mp hd
              have heOk := hb.devices e he
              split_ifs with hsame
              · have hee : e = devTmp := eq_of_sameChip hb he htmpMem
                  ⟨hsame.1.trans htmpSame.1.symm, hsame.2.trans htmpSame.2.symm⟩
                subst hee
                exact ⟨heOk.id, heOk.tag, hne, hsorted, hpartsOk⟩
              · exact heOk

/-- `mtdparts del` -/
theorem built_partDel (hb : Built flash ⟨ids, devices⟩) (dev part : Nat) :
    Built flash ⟨ids, partDel devices dev part⟩ := by
  unfold partDel
  split
  · exact hb
  · next d hd =>
    have hdOk := hb.devices d (List.mem_of_getElem? hd)
    split_ifs with hout hone
    · exact hb
    · exact ⟨fun e he => hb.devices e (List.mem_of_mem_eraseIdx he),
        hb.distinct.sublist (List.eraseIdx_sublist ..)⟩
    · refine built_of_ids hb ?_ ?_
      · refine List.ext_getElem? fun i => ?_
        rw [List.getElem?_map, List.getElem?_map, List.getElem?_set]
        split_ifs with hi hlt
        · rw [← hi, hd]
          rfl
        · exact absurd (List.getElem?_eq_some_iff.mp hd).1 hlt
        · rfl
      · intro e he
        rcases List.mem_or_eq_of_mem_set he with he | rfl
        · exact hb.devices e he
        · have hsub := List.eraseIdx_sublist (l := d.parts) part
          refine ⟨hdOk.id, hdOk.tag, ?_, hdOk.sorted.sublist hsub,
            fun p hp => hdOk.parts p (hsub.subset hp)⟩
          refine List.ne_nil_of_length_pos ?_
          rw [List.length_eraseIdx_of_lt (by omega)]
          omega

/-- **Step lemma.** -/
theorem built_step {s : MtdState} (hb : Built flash s) (c : Command) :
    Built flash (mtdStep flash s c) := by
  cases c with
  | mtdids ids => exact built_nil flash ids
  | mtdparts value => exact parseMtdparts_built flash s.ids value
  | add type num size name flags => exact built_doAdd hb type num size name flags
  | del dev part => exact built_partDel hb dev part
  | delall => exact built_nil flash s.ids

/-- **Run lemma.** -/
theorem built_run (flash : Flash) (cmds : List Command) :
    Built flash (run (mtdStep flash) ⟨[], []⟩ cmds) :=
  @run_invariant_all _ _ _ (Built flash) (fun _ c hb => built_step hb c) _ (built_nil flash []) cmds

end Commands

-- ============================================================================
-- Lists ordered by a key
-- ============================================================================

/-- A list ordered by a key is known from its members at each key. -/
theorem eq_of_filter_key {α : Type*} {f : α → Nat} {xs ys : List α}
    (hx : xs.Pairwise fun a b => f a ≤ f b) (hy : ys.Pairwise fun a b => f a ≤ f b)
    (h : ∀ k, xs.filter (f · = k) = ys.filter (f · = k)) : xs = ys := by
  have hmem : ∀ a, a ∈ xs ↔ a ∈ ys := by
    intro a
    have := congrArg (a ∈ ·) (h (f a))
    simpa using this
  induction xs generalizing ys with
  | nil =>
    cases ys with
    | nil => rfl
    | cons y ys => exact absurd ((hmem y).mpr (List.mem_cons_self ..)) List.not_mem_nil
  | cons x xs ih =>
    cases ys with
    | nil => exact absurd ((hmem x).mp (List.mem_cons_self ..)) List.not_mem_nil
    | cons y ys =>
      obtain ⟨hx1, hxs⟩ := List.pairwise_cons.mp hx
      obtain ⟨hy1, hys⟩ := List.pairwise_cons.mp hy
      -- the heads have the least key of both lists
      have hkey : f x = f y := by
        have hyx : f y ≤ f x := by
          rcases List.mem_cons.mp ((hmem x).mp (List.mem_cons_self ..)) with hxy | hin
          · exact (congrArg f hxy).ge
          · exact hy1 x hin
        have hxy : f x ≤ f y := by
          rcases List.mem_cons.mp ((hmem y).mpr (List.mem_cons_self ..)) with hyx | hin
          · exact (congrArg f hyx).ge
          · exact hx1 y hin
        omega
      have hhead := h (f x)
      rw [List.filter_cons_of_pos (by simp), List.filter_cons_of_pos (by simp [hkey])] at hhead
      obtain ⟨rfl, htail⟩ := List.cons.inj hhead
      have hrest : ∀ k, xs.filter (f · = k) = ys.filter (f · = k) := by
        intro k
        by_cases hk : f x = k
        · rw [← hk]
          exact htail
        · simpa [hk] using h k
      refine congrArg (x :: ·) (ih hxs hys hrest fun a => ?_)
      have := congrArg (a ∈ ·) (hrest (f a))
      simpa using this

-- ============================================================================
-- When a device comes back
-- ============================================================================

/-- What of a partition has to come back: its name, its place and the flag. -/
def partView (p : PartInfo) : List UInt8 × Nat × Nat × Nat :=
  (p.name, p.offset, p.size, p.maskFlags)

def deviceView (d : MtdDevice) : MtdIds × List (List UInt8 × Nat × Nat × Nat) :=
  (d.id, d.parts.map partView)

/-- A partition with a made-up name has its offset printed. -/
def NamesKept : Option PartInfo → List PartInfo → Prop
  | _, [] => True
  | prev, p :: ps => (p.autoName = true → offsetPrinted prev p = true) ∧ NamesKept (some p) ps

instance decidableNamesKept : ∀ prev ps, Decidable (NamesKept prev ps)
  | _, [] => inferInstanceAs (Decidable True)
  | _, p :: ps =>
    have := decidableNamesKept (some p) ps
    inferInstanceAs (Decidable (_ ∧ NamesKept (some p) ps))

/-- The partitions at one offset are the same in the opposite order. -/
def SameBackwards (ps : List PartInfo) : Prop :=
  ∀ p ∈ ps, ((ps.filter (·.offset = p.offset)).map partView).reverse =
    (ps.filter (·.offset = p.offset)).map partView

instance (ps : List PartInfo) : Decidable (SameBackwards ps) :=
  inferInstanceAs (Decidable (∀ p ∈ ps, _))

/-- The name has the marker for a missing offset. -/
def noOffsetName (v : List UInt8 × Nat × Nat × Nat) : Bool := v.1.drop 13 = hex8 offsetNotSpecified

section View

variable {ps qs : List PartInfo} {prev : Option PartInfo}

theorem resolved_view {p : PartInfo} (hp : WellFormed p)
    (h : p.autoName = true → offsetPrinted prev p = true) :
    partView (resolved prev p) = partView p := by
  have hname := hp.name
  unfold partView resolved
  simp only [Prod.mk.injEq, and_true]
  split_ifs at hname ⊢ with hauto
  · rw [foundOffset, if_pos (h hauto), hname]
  · rfl

theorem resolvedParts_view (hwf : ∀ p ∈ ps, WellFormed p) (h : NamesKept prev ps) :
    (resolvedParts prev ps).map partView = ps.map partView := by
  induction ps generalizing prev with
  | nil => rfl
  | cons p ps ih =>
    rw [resolvedParts, List.map_cons, List.map_cons, resolved_view (hwf p (List.mem_cons_self ..)) h.1,
      ih (fun q hq => hwf q (List.mem_cons_of_mem _ hq)) h.2]

/-- A made-up name has the marker once the offset has been left out, and not before. -/
theorem noOffsetName_resolved {p : PartInfo} (hp : WellFormed p) (hauto : p.autoName = true)
    (hprinted : offsetPrinted prev p = false) :
    noOffsetName (partView (resolved prev p)) = true ∧ noOffsetName (partView p) = false := by
  have hname := hp.name
  rw [if_pos hauto] at hname
  have hoff := hp.offset
  refine ⟨?_, ?_⟩
  · simp [noOffsetName, partView, resolved, hauto, foundOffset, hprinted, autoPartName_offset]
  · simp only [noOffsetName, partView, hname, autoPartName_offset, decide_eq_false_iff_not]
    intro hmax
    have := hex8_eq_max (by simp only [offsetNotSpecified] at hoff; omega) hmax
    simp only [offsetNotSpecified] at hoff
    omega

theorem countP_resolved_le {p : PartInfo} (hp : WellFormed p) :
    (if noOffsetName (partView p) then 1 else 0) ≤
      if noOffsetName (partView (resolved prev p)) then 1 else 0 := by
  by_cases h : p.autoName = true → offsetPrinted prev p = true
  · rw [resolved_view hp h]
  · obtain ⟨hauto, hprinted⟩ := Classical.not_imp.mp h
    rw [(noOffsetName_resolved hp hauto (Bool.not_eq_true _ ▸ hprinted)).2]
    exact Nat.zero_le _

/-- Reading back makes no marker in a name go away. -/
theorem countP_resolvedParts_le (hwf : ∀ p ∈ ps, WellFormed p) (prev : Option PartInfo) :
    (ps.map partView).countP noOffsetName ≤
      ((resolvedParts prev ps).map partView).countP noOffsetName := by
  induction ps generalizing prev with
  | nil => exact Nat.le_refl _
  | cons p ps ih =>
    have hfirst := @countP_resolved_le prev p (hwf p (List.mem_cons_self ..))
    have hrest := ih (fun q hq => hwf q (List.mem_cons_of_mem _ hq)) (some p)
    rw [resolvedParts, List.map_cons, List.map_cons, List.countP_cons, List.countP_cons]
    omega

/-- If no marker comes up in a name, the names are kept. -/
theorem namesKept_of_countP (hwf : ∀ p ∈ ps, WellFormed p)
    (h : ((resolvedParts prev ps).map partView).countP noOffsetName =
      (ps.map partView).countP noOffsetName) : NamesKept prev ps := by
  induction ps generalizing prev with
  | nil => trivial
  | cons p ps ih =>
    have hp := hwf p (List.mem_cons_self ..)
    have hwf' : ∀ q ∈ ps, WellFormed q := fun q hq => hwf q (List.mem_cons_of_mem _ hq)
    have hfirst := @countP_resolved_le prev p hp
    have hrest := countP_resolvedParts_le hwf' (some p)
    rw [resolvedParts, List.map_cons, List.map_cons, List.countP_cons, List.countP_cons] at h
    refine ⟨fun hauto => ?_, ih hwf' (by omega)⟩
    by_contra hprinted
    obtain ⟨hnew, hold⟩ := noOffsetName_resolved hp hauto (Bool.not_eq_true _ ▸ hprinted)
    rw [hnew, hold] at h
    simp only [if_true, Bool.false_eq_true, if_false] at h
    omega

theorem filter_view (ps : List PartInfo) (o : Nat) :
    (ps.map partView).filter (·.2.1 = o) = (ps.filter (·.offset = o)).map partView := by
  rw [List.filter_map]
  rfl

/-- What is at an offset after the partitions have been added one by one. -/
theorem filter_readd (hnames : (resolvedParts none ps).map partView = ps.map partView)
    (h : partsSortAdd [] (resolvedParts none ps) = some qs) (o : Nat) :
    (qs.map partView).filter (·.2.1 = o) = ((ps.filter (·.offset = o)).map partView).reverse := by
  obtain ⟨-, -, hfilter⟩ := partsSortAdd_spec List.Pairwise.nil h
  rw [filter_view, hfilter o, List.filter_nil, List.append_nil, List.map_reverse, ← filter_view,
    hnames, filter_view]

/-- **When the partitions of a device come back.** -/
theorem readd_view (hs : Sorted ps) (hwf : ∀ p ∈ ps, WellFormed p)
    (h : partsSortAdd [] (resolvedParts none ps) = some qs) :
    qs.map partView = ps.map partView ↔ NamesKept none ps ∧ SameBackwards ps := by
  obtain ⟨hsorted, hperm, -⟩ := partsSortAdd_spec List.Pairwise.nil h
  rw [List.append_nil] at hperm
  constructor
  · intro heq
    have hcount := (hperm.map partView).countP_eq noOffsetName
    have hkept := namesKept_of_countP hwf (hcount.symm.trans (by rw [heq]))
    refine ⟨hkept, fun p _ => ?_⟩
    rw [← filter_readd (resolvedParts_view hwf hkept) h p.offset, heq, filter_view]
  · rintro ⟨hkept, hback⟩
    have hby : ∀ {rs : List PartInfo}, Sorted rs →
        (rs.map partView).Pairwise fun a b => a.2.1 ≤ b.2.1 :=
      fun hr => List.pairwise_map.mpr (hr.imp fun h => h.1)
    refine eq_of_filter_key (hby hsorted) (hby hs) fun o => ?_
    rw [filter_readd (resolvedParts_view hwf hkept) h o, filter_view]
    by_cases ho : ∃ p ∈ ps, p.offset = o
    · obtain ⟨p, hp, rfl⟩ := ho
      exact hback p hp
    · have hempty : ps.filter (·.offset = o) = [] :=
        List.filter_eq_nil_iff.mpr fun p hp => by simpa using fun he => ho ⟨p, hp, he⟩
      rw [hempty]
      rfl

/-- **When a device comes back.** -/
theorem rereadDevice_view {flash : Flash} {ids : List MtdIds} {d : MtdDevice}
    (hd : DeviceOk flash ids d) (hgiven : ∀ p ∈ d.parts, p.given = true) :
    deviceView (rereadDevice d) = deviceView d ↔ NamesKept none d.parts ∧ SameBackwards d.parts := by
  obtain ⟨qs, hqs⟩ := partsSortAdd_resolved hd.sorted
  have hwf : ∀ p ∈ d.parts, WellFormed p := fun p hp => (hd.parts p hp (hgiven p hp)).1
  simp only [deviceView, rereadDevice, hqs, Option.getD_some, Prod.mk.injEq, true_and]
  exact readd_view hd.sorted hwf hqs

end View

-- ============================================================================
-- The round trip
-- ============================================================================

/-- **When the devices come back from the string that is printed for them.**  The
    commands are any; every partition has a size and an offset of its own, and the string
    fits into the buffer. -/
theorem parse_generate_iff (flash : Flash) (cmds : List Command) {text : List UInt8}
    (hgiven : AllGiven (run (mtdStep flash) ⟨[], []⟩ cmds).devices)
    (htext : generateMtdparts (run (mtdStep flash) ⟨[], []⟩ cmds).devices = some text) :
    ((parseMtdparts flash (run (mtdStep flash) ⟨[], []⟩ cmds).ids text).getD []).map deviceView =
        (run (mtdStep flash) ⟨[], []⟩ cmds).devices.map deviceView ↔
      ∀ d ∈ (run (mtdStep flash) ⟨[], []⟩ cmds).devices,
        NamesKept none d.parts ∧ SameBackwards d.parts := by
  have hb := built_run flash cmds
  rw [parseMtdparts_generate hb hgiven htext, List.map_map, List.map_inj_left]
  exact forall₂_congr fun d hd => rereadDevice_view (hb.devices d hd) (hgiven d hd)

/-- One chip of 1 MiB with erase blocks of 4 KiB. -/
def oneNand : Flash := fun type num =>
  if type = .nand ∧ num = 0 then some ⟨0x1000, []⟩ else none

/-- `mtdids` is set to one entry for it, then `mtdparts` to `value`. -/
def oneNandRun (value : String) : MtdState :=
  run (mtdStep oneNand) ⟨[], []⟩ [.mtdids [⟨.nand, 0, 0x100000, ascii "n"⟩], .mtdparts (ascii value)]

/-- Three partitions, one read-only, and one with a made-up name behind a gap. -/
theorem parse_generate_gap :
    ((parseMtdparts oneNand (oneNandRun "mtdparts=n:4k@0(a),8k@4k(b)ro,4k@16k").ids
        (ascii "mtdparts=n:4k(a),8k(b)ro,4k@16k")).getD []).map deviceView =
      (oneNandRun "mtdparts=n:4k@0(a),8k@4k(b)ro,4k@16k").devices.map deviceView :=
  (parse_generate_iff oneNand _ (by decide +kernel) (by decide +kernel)).mpr (by decide +kernel)

/-- Two partitions at one offset come back in the opposite order. -/
theorem sameOffset_not_parse_generate :
    ∃ text, generateMtdparts (oneNandRun "mtdparts=n:4k@4k(a),8k@4k(b)").devices = some text ∧
      AllGiven (oneNandRun "mtdparts=n:4k@4k(a),8k@4k(b)").devices ∧
      ((parseMtdparts oneNand (oneNandRun "mtdparts=n:4k@4k(a),8k@4k(b)").ids text).getD []).map
          deviceView ≠
        (oneNandRun "mtdparts=n:4k@4k(a),8k@4k(b)").devices.map deviceView :=
  ⟨ascii "mtdparts=n:8k@4k(b),4k@4k(a)", by decide +kernel, by decide +kernel, by decide +kernel⟩

end Uboot.Common.CmdMtdparts
