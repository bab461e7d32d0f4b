/-
  Uboot.Fs.FatLookup

  The root lookup of `do_fat_read` on a root directory that stands in one piece: what
  the loop does at the entries of each item, then the loop over all of them.
-/

import Uboot.Fs.FatRoot

namespace Uboot.Fs.Fat

open Uboot.Lib

-- ============================================================================
-- Names
-- ============================================================================

theorem fieldChars_eq_trim {s : List UInt8} (h : PlainField s) : fieldChars s = trim s := by
  have hsplit : trim s ++ s.rtakeWhile (· = 0x20) = s := List.rdropWhile_append_rtakeWhile ..
  have hpos : ∀ c ∈ trim s, (c ≠ 0 && c ≠ 0x20) = true := by simpa [PlainField] using h
  have hblank : fieldChars (s.rtakeWhile (· = 0x20)) = [] := by
    cases hr : s.rtakeWhile (· = 0x20) with
    | nil => rfl
    | cons c cs =>
      have hmem : c ∈ s.rtakeWhile (· = 0x20) := hr ▸ List.mem_cons_self ..
      have hc : decide (c = 0x20) = true :=
        @List.mem_rtakeWhile_imp _ (fun x => decide (x = 0x20)) _ _ hmem
      simp [fieldChars, of_decide_eq_true hc]
  conv_lhs => rw [← hsplit]
  unfold fieldChars at hblank ⊢
  rw [List.takeWhile_append_of_pos hpos, hblank, List.append_nil]

/-- A field that does not start with a blank keeps its first byte. -/
theorem trim_cons {c : UInt8} (hc : c ≠ 0x20) (s : List UInt8) : ∃ t, trim (c :: s) = c :: t := by
  have hne : trim (c :: s) ≠ [] := by
    rw [trim, Ne, List.rdropWhile_eq_nil_iff]
    intro hall
    exact hc (by simpa using hall c (List.mem_cons_self ..))
  obtain ⟨r, hr⟩ : trim (c :: s) <+: c :: s := List.rdropWhile_prefix ..
  cases ht : trim (c :: s) with
  | nil => exact absurd ht hne
  | cons x t =>
    rw [ht] at hr
    exact ⟨t, by rw [(List.cons.inj hr).1]⟩

variable {d : DirEntry} {name : List UInt8}

theorem getName_eq (hbase : PlainField (d.take 8)) (hext : PlainField ((d.drop 8).take 3))
    (hfirst : LegalFirst d.name0) : getName d = downcase (shortName d) := by
  cases d with
  | nil => exact absurd hfirst (by decide)
  | cons c cs =>
    have hc : LegalFirst c.toNat := hfirst
    have h20 : c ≠ 0x20 := by rintro rfl; exact absurd hc (by decide)
    have he5 : c ≠ 0xe5 := by rintro rfl; exact absurd hc (by decide)
    obtain ⟨t, ht⟩ := trim_cons h20 (cs.take 7)
    have htake : (c :: cs).take 8 = c :: cs.take 7 := rfl
    rw [htake] at hbase
    simp only [getName, shortName, fieldChars_eq_trim hbase, fieldChars_eq_trim hext, htake, ht,
      List.cons_append, finishName, he5, if_false]
    split <;> rfl

theorem getName_deleted (h : d.name0 = 0xe5) : getName d = [] := by
  cases d with
  | nil => exact absurd h (by decide)
  | cons c cs =>
    obtain rfl : c = 0xe5 := UInt8.toNat_inj.mp h
    simp [getName, fieldChars, finishName]

theorem toNat_toLower (c : UInt8) : (toLower c).toNat = lowerUnit c.toNat := by
  unfold toLower lowerUnit
  have h65 : 65 ≤ c ↔ 65 ≤ c.toNat := UInt8.le_iff_toNat_le
  have h90 : c ≤ 90 ↔ c.toNat ≤ 90 := UInt8.le_iff_toNat_le
  simp only [h65, h90]
  split
  · next hc =>
    rw [UInt8.toNat_add]
    exact Nat.mod_eq_of_lt (by simp; omega)
  · rfl

theorem map_toNat_injective : Function.Injective (List.map UInt8.toNat) :=
  List.map_injective_iff.mpr fun _ _ => UInt8.toNat_inj.mp

/-- The low bytes of single-byte characters are the characters. -/
theorem takeWhile_low (ps : List (UInt8 × UInt8))
    (h : ∀ u ∈ (ps.map fun p => p.1.toNat + 256 * p.2.toNat).takeWhile (· ≠ 0), u < 256) :
    ((ps.map Prod.fst).takeWhile (· ≠ 0)).map UInt8.toNat =
      (ps.map fun p => p.1.toNat + 256 * p.2.toNat).takeWhile (· ≠ 0) := by
  induction ps with
  | nil => rfl
  | cons p ps ih =>
    simp only [List.map_cons, List.takeWhile_cons] at h ⊢
    by_cases hz : p.1.toNat + 256 * p.2.toNat = 0
    · have h1 : p.1.toNat = 0 := by omega
      have h2 : p.2.toNat = 0 := by omega
      have hlow : p.1 = 0 := UInt8.toNat_inj.mp h1
      simp [hlow, h2]
    · simp only [hz, ne_eq, not_false_eq_true, decide_true, if_true, List.mem_cons,
        forall_eq_or_imp] at h ⊢
      have hhigh : p.2.toNat = 0 := by omega
      have hlow : p.1 ≠ 0 := by
        intro hp
        rw [hp] at hz
        exact hz (by simp [hhigh])
      simp only [hlow, not_false_eq_true, decide_true, if_true, List.map_cons]
      rw [ih h.2, hhigh]
      rfl

/-- The long name that the reader makes of a group of slots. -/
def readLong (slots : List DirEntry) : List UInt8 :=
  (slots.reverse.flatMap slotChars).takeWhile (· ≠ 0)

theorem readLong_toNat {slots : List DirEntry} (h : PlainLong (longName slots)) :
    (readLong slots).map UInt8.toNat = longName slots := by
  have hpairs : ∀ ds : List DirEntry,
      ds.flatMap slotChars = (ds.flatMap fun d => slotOffsets.map fun o =>
        (d.getD o 0, d.getD (o + 1) 0)).map Prod.fst ∧
      ds.flatMap slotUnits = (ds.flatMap fun d => slotOffsets.map fun o =>
        (d.getD o 0, d.getD (o + 1) 0)).map fun p => p.1.toNat + 256 * p.2.toNat := by
    intro ds
    simp only [List.map_flatMap, List.map_map]
    exact ⟨rfl, rfl⟩
  obtain ⟨hlow, hall⟩ := hpairs slots.reverse
  have hsmall := h.1
  unfold readLong
  unfold longName at hsmall ⊢
  rw [hall] at hsmall ⊢
  rw [hlow]
  exact takeWhile_low _ hsmall

theorem finishName_readLong {slots : List DirEntry} (h : PlainLong (longName slots)) :
    name = finishName (readLong slots) ↔
      name.map UInt8.toNat = (longName slots).map lowerUnit := by
  have hlong := readLong_toNat h
  obtain ⟨-, he5, h05⟩ := h
  have hfinish : finishName (readLong slots) = downcase (readLong slots) := by
    cases hr : readLong slots with
    | nil => rfl
    | cons c cs =>
      rw [← hlong, hr] at he5 h05
      have h1 : c ≠ 0xe5 := by rintro rfl; exact he5 rfl
      have h2 : c ≠ 0x05 := by rintro rfl; exact h05 rfl
      simp only [finishName, h1, h2, if_false]
  rw [hfinish, ← hlong, ← map_toNat_injective.eq_iff, downcase, List.map_map, List.map_map]
  have hcomp : UInt8.toNat ∘ toLower = lowerUnit ∘ UInt8.toNat := funext toNat_toLower
  rw [hcomp]

-- ============================================================================
-- The slots of a long name
-- ============================================================================

section Slots

variable {b : Block} {n i c : Nat} {slots : List DirEntry}

theorem slotWalk_group (hnum : ∀ j < c, (b (i + j)).number = c - j) (hin : i + c < n) :
    slotWalk b n c i = .entry (i + c) := by
  induction c generalizing i with
  | zero => simp only [slotWalk, show i < n by omega, if_true, Nat.add_zero]
  | succ c ih =>
    have h0 : (b i).number = c + 1 := by simpa using hnum 0 (by omega)
    have hrest : ∀ j < c, (b (i + 1 + j)).number = c - j := by
      intro j hj
      have := hnum (j + 1) (by omega)
      rw [show i + 1 + j = i + (j + 1) by omega, this]
      omega
    rw [slotWalk, if_pos (show i < n by omega), if_neg (by simp [h0]), ih hrest (by omega)]
    congr 1
    omega

/-- Where the walk can end before an entry that is no slot, at `stop`. -/
theorem slotWalk_reach {stop : Nat} (hstop : (b stop).number = 0) (hi : i ≤ stop) :
    match slotWalk b n c i with
    | .mismatch k => k ≤ stop
    | .past => n ≤ stop
    | .entry k => k ≤ stop ∧ ∀ j < c, i + j < stop ∧ (b (i + j)).number = c - j := by
  induction c generalizing i with
  | zero =>
    unfold slotWalk
    split_ifs with hn
    · exact ⟨hi, by simp⟩
    · exact Nat.le_trans (Nat.le_of_not_lt hn) hi
  | succ c ih =>
    unfold slotWalk
    split_ifs with hn hnum
    · exact hi
    · -- the slot has a number, so it stands before `stop`
      have hlt : i < stop := by
        rcases Nat.lt_or_eq_of_le hi with hlt | rfl
        · exact hlt
        · rw [hstop] at hnum
          omega
      have h := ih (i := i + 1) hlt
      split at h
      · exact h
      · exact h
      · obtain ⟨hk, hall⟩ := h
        refine ⟨hk, ?_⟩
        intro j hj
        cases j with
        | zero => exact ⟨hlt, not_not.mp hnum⟩
        | succ j =>
          obtain ⟨h1, h2⟩ := hall j (by omega)
          rw [show i + (j + 1) = i + 1 + j by omega]
          exact ⟨h1, by omega⟩
    · exact Nat.le_trans (Nat.le_of_not_lt hn) hi

theorem takeWhile_slotChars (d : DirEntry) (rest : List UInt8) :
    (slotChars d ++ rest).takeWhile (· ≠ 0) =
      if (slot2str d).2 then (slot2str d).1 else (slot2str d).1 ++ rest.takeWhile (· ≠ 0) := by
  unfold slot2str
  by_cases hz : (0 : UInt8) ∈ slotChars d
  · have hnot : ¬ ∀ c ∈ slotChars d, decide (c ≠ 0) = true := fun hall => by
      simpa using hall 0 hz
    have hlen : ((slotChars d).takeWhile (· ≠ 0)).length ≠ (slotChars d).length := by
      intro he
      have hall : (slotChars d).takeWhile (· ≠ 0) = slotChars d :=
        (List.takeWhile_prefix _).eq_of_length he
      exact hnot (List.takeWhile_eq_self_iff.mp hall)
    rw [List.takeWhile_append, if_neg hlen]
    simp [hz]
  · have hall : ∀ c ∈ slotChars d, decide (c ≠ 0) = true := by
      intro c hc
      exact decide_eq_true fun h => hz (h ▸ hc)
    rw [List.takeWhile_append_of_pos hall, List.takeWhile_eq_self_iff.mpr hall]
    simp [hz]

/-- The way back over the first `r` slots of a group.  Induction on `r`; the first slot
    is marked as the last of the name and ends the loop. -/
theorem slotsBefore_group (hb : ∀ j (h : j < slots.length), b (i + j) = slots[j])
    (hlast : ∀ j (h : j < slots.length), slots[j].lastLong = decide (j = 0)) {r : Nat}
    (hr : r < slots.length) : slotsBefore b (i + r + 1) = readLong (slots.take (r + 1)) := by
  induction r with
  | zero =>
    have htake : slots.take 1 = [slots[0]] := by
      rw [List.take_add_one, List.take_zero, List.getElem?_eq_getElem hr]
      rfl
    have hl : slots[0].lastLong = true := by rw [hlast 0 hr]; rfl
    have hbi : b i = slots[0] := hb 0 hr
    rw [Nat.add_zero, slotsBefore, hbi, hl, Bool.or_true, if_pos rfl, readLong, htake,
      List.reverse_singleton, List.flatMap_singleton]
    rfl
  | succ r ih =>
    have hl : slots[r + 1].lastLong = false := by rw [hlast (r + 1) hr]; rfl
    have htake : (slots.take (r + 2)).reverse = slots[r + 1] :: (slots.take (r + 1)).reverse := by
      rw [List.take_add_one, List.getElem?_eq_getElem hr, List.reverse_append]
      rfl
    rw [slotsBefore, hb (r + 1) hr, hl, Bool.or_false, show i + (r + 1) = i + r + 1 by omega,
      ih (by omega), readLong, readLong, htake, List.flatMap_cons, takeWhile_slotChars]

end Slots

-- ============================================================================
-- The loop body
-- ============================================================================

section Visits

variable {m : Mem UInt8} {fs : FsData} {b : Block} {i sect : Nat} {slots : List DirEntry}

/-- What the fields of valid slots say. -/
theorem ValidSlots.slot (h : ValidSlots slots) {j : Nat} (hj : j < slots.length) :
    slots[j].isVolume = true ∧ slots[j].isVfat = true ∧ slots[j].number = slots.length - j ∧
      slots[j].lastLong = decide (j = 0) := by
  obtain ⟨hlen, hall⟩ := h
  obtain ⟨hattr, hname⟩ := hall j hj
  simp only [DirEntry.isVolume, DirEntry.isVfat, DirEntry.number, DirEntry.lastLong, hname,
    decide_eq_true_eq]
  refine ⟨by omega, by omega, ?_, ?_⟩
  · split <;> omega
  · congr 1
    split <;> simp <;> omega

/-- The first slot of a group stands for the entry behind the group. -/
theorem visit_group {d : DirEntry} (hvalid : ValidSlots slots) (hne : slots ≠ [])
    (hb : ∀ j (h : j < slots.length), b (i + j) = slots[j]) (hd : b (i + slots.length) = d)
    (hwhole : i + slots.length < 16 * fs.clustSize) :
    visit m fs b i name = compareNames name d (finishName (readLong slots)) ∧
      examined m fs b sect i =
        (List.range ((i + slots.length) / 16 + 1)).map (sect + ·) := by
  have hpos : 0 < slots.length := List.length_pos_iff.mpr hne
  obtain ⟨hvol, hvfat, hnum, hlast⟩ := hvalid.slot hpos
  have hbi : b i = slots[0] := hb 0 hpos
  have hnums : ∀ j < slots.length, (b (i + j)).number = slots.length - j := by
    intro j hj
    rw [hb j hj]
    exact (hvalid.slot hj).2.2.1
  have hwalk : slotWalk b (16 * fs.clustSize) (b i).number i = .entry (i + slots.length) := by
    rw [hbi, hnum]
    exact slotWalk_group hnums hwhole
  have hback : slotsBefore b (i + slots.length) = readLong slots := by
    have h := slotsBefore_group hb (fun j hj => (hvalid.slot hj).2.2.2)
      (show slots.length - 1 < slots.length by omega)
    rwa [show i + (slots.length - 1) + 1 = i + slots.length by omega,
      show slots.length - 1 + 1 = slots.length by omega, List.take_length] at h
  have hname : getVfatname m fs b i = some (d, finishName (readLong slots)) := by
    simp only [getVfatname, hwalk, hd, hback]
  simp only [visit, examined, hwalk, hname]
  simp [hbi, hvol, hvfat, hlast]

/-- The other slots of a group, and labels that do not look like slots. -/
theorem visit_skipped (hvol : (b i).isVolume = true) (hlast : (b i).lastLong = false) :
    visit m fs b i name = .next ∧ examined m fs b sect i = [sect + i / 16] := by
  simp [visit, examined, hvol, hlast]

theorem visit_entry (hvol : (b i).isVolume = false) (hname : (b i).name0 ≠ 0) :
    visit m fs b i name = compareNames name (b i) [] ∧
      examined m fs b sect i = [sect + i / 16] := by
  simp [visit, examined, hvol, hname]

theorem visit_empty (hvol : (b i).isVolume = false) (hname : (b i).name0 = 0) :
    visit m fs b i name = .empty ∧ examined m fs b sect i = [sect + i / 16] := by
  simp [visit, examined, hvol, hname]

/-- A deleted entry has no name.  A deleted slot counts as the first of 165; the walk
    from it meets an entry that is no such slot, or leaves the block, and the table has
    no link for the root.  `stop` is the place of an empty entry. -/
theorem visit_deleted {stop : Nat} (hdel : (b i).name0 = 0xe5) (hne : name ≠ []) (hi : i ≤ stop)
    (hstop : (b stop).name0 = 0) (hnum : ∀ j < stop, (b j).number ≠ 29)
    (hcheck : checkClust fs.fatsize (getFatent m fs 0) = true) :
    visit m fs b i name = .next ∧ ∀ s ∈ examined m fs b sect i, s ≤ sect + stop / 16 ∧ sect ≤ s := by
  have hempty : compareNames name (b i) [] = .next := by
    simp [compareNames, getName_deleted hdel, hne]
  by_cases hslot : ((b i).isVolume && (b i).isVfat && (b i).lastLong) = true
  · have hcount : (b i).number = 165 := by simp [DirEntry.number, hdel]
    have hreach := @slotWalk_reach b (16 * fs.clustSize) i 165 stop
      (by simp [DirEntry.number, hstop]) hi
    have hvfat : (b i).isVolume = true ∧ ((b i).isVfat && (b i).lastLong) = true := by
      simpa [and_assoc] using hslot
    simp only [visit, examined, getVfatname, hvfat.1, hvfat.2, Bool.true_and, hcount, if_true]
    cases hwalk : slotWalk b (16 * fs.clustSize) 165 i with
    | mismatch k =>
      rw [hwalk] at hreach
      refine ⟨hempty, ?_⟩
      intro s hs
      obtain ⟨q, hq, rfl⟩ := List.mem_map.mp hs
      have := List.mem_range.mp hq
      have : k / 16 ≤ stop / 16 := Nat.div_le_div_right hreach
      omega
    | past =>
      rw [hwalk] at hreach
      dsimp only at hreach ⊢
      simp only [hcheck, if_true, List.append_nil]
      refine ⟨hempty, ?_⟩
      intro s hs
      obtain ⟨q, hq, rfl⟩ := List.mem_map.mp hs
      have := List.mem_range.mp hq
      omega
    | entry k =>
      -- the slot with the number 29 would have to be one of the others
      rw [hwalk] at hreach
      obtain ⟨h1, h2⟩ := hreach.2 136 (by omega)
      exact absurd h2 (hnum _ h1)
  · have hone : ∀ s ∈ [sect + i / 16], s ≤ sect + stop / 16 ∧ sect ≤ s := by
      intro s hs
      obtain rfl := List.mem_singleton.mp hs
      have : i / 16 ≤ stop / 16 := Nat.div_le_div_right hi
      omega
    simp only [Bool.not_eq_true] at hslot
    simp only [visit, examined, hslot, Bool.false_eq_true, if_false]
    refine ⟨?_, hone⟩
    split
    · next hvol =>
      rw [hvol, Bool.true_and] at hslot
      rw [hslot]
      rfl
    · simp only [hdel, Nat.reduceEqDiff, if_false]
      exact hempty

end Visits

-- ============================================================================
-- The loop over the sectors
-- ============================================================================

section Scan

variable {m : Mem UInt8} {fs : FsData} {c t p : Nat} {v : Visit}

theorem diskRead_add (q i : Nat) : diskRead m (c + q) i = diskRead m c (16 * q + i) := by
  simp only [diskRead]
  congr 1
  omega

/-- The loop body at entry `k` from sector `c` on. -/
def visitAt (m : Mem UInt8) (fs : FsData) (c : Nat) (name : List UInt8) (k : Nat) : Visit :=
  visit m fs (diskRead m (c + k / 16)) (k % 16) name

def examinedAt (m : Mem UInt8) (fs : FsData) (c k : Nat) : List Nat :=
  examined m fs (diskRead m (c + k / 16)) (c + k / 16) (k % 16)

theorem at_sector {q i : Nat} (hi : i < 16) :
    visit m fs (diskRead m (c + q)) i name = visitAt m fs c name (16 * q + i) ∧
      examined m fs (diskRead m (c + q)) (c + q) i = examinedAt m fs c (16 * q + i) := by
  simp only [visitAt, examinedAt, show (16 * q + i) / 16 = q by omega,
    show (16 * q + i) % 16 = i by omega, and_self]

theorem scanBlock_append {b : Block} {sect : Nat} {is js : List Nat}
    (h : ∀ i ∈ is, visit m fs b i name = .next) :
    scanBlock m fs b sect name (is ++ js) =
      ((scanBlock m fs b sect name js).1,
        is.flatMap (examined m fs b sect) ++ (scanBlock m fs b sect name js).2) := by
  induction is with
  | nil => rfl
  | cons i is ih =>
    rw [List.cons_append, scanBlock, h i (List.mem_cons_self ..)]
    dsimp only
    rw [ih fun j hj => h j (List.mem_cons_of_mem _ hj), List.flatMap_cons, List.append_assoc]

/-- A sector where the body always goes on. -/
theorem scanBlock_whole {q : Nat} (hnext : ∀ i < 16, visitAt m fs c name (16 * q + i) = .next) :
    scanBlock m fs (diskRead m (c + q)) (c + q) name (List.range 16) =
      (.next, (List.range 16).flatMap (examined m fs (diskRead m (c + q)) (c + q))) := by
  have h := @scanBlock_append name m fs (diskRead m (c + q)) (c + q) (List.range 16) [] (by
    intro i hi
    have hi := List.mem_range.mp hi
    rw [(at_sector hi).1]
    exact hnext i hi)
  simpa [scanBlock] using h

theorem range_split {r : Nat} (hr : r < 16) :
    List.range 16 = List.range r ++ r :: (List.range 16).drop (r + 1) := by
  have h := List.take_append_drop r (List.range 16)
  rw [List.take_range, Nat.min_eq_left (by omega),
    List.drop_eq_getElem_cons (by simpa using hr), List.getElem_range] at h
  exact h.symm

/-- A sector where the body does not go on at entry `r`. -/
theorem scanBlock_stops {q r : Nat} (hr : r < 16)
    (hnext : ∀ i < r, visitAt m fs c name (16 * q + i) = .next)
    (hstop : visitAt m fs c name (16 * q + r) = v) (hv : v ≠ .next) :
    scanBlock m fs (diskRead m (c + q)) (c + q) name (List.range 16) =
      (v, (List.range r).flatMap (examined m fs (diskRead m (c + q)) (c + q)) ++
        examinedAt m fs c (16 * q + r)) := by
  obtain ⟨hvr, her⟩ := @at_sector name m fs c q r hr
  have hone : scanBlock m fs (diskRead m (c + q)) (c + q) name
      (r :: (List.range 16).drop (r + 1)) = (v, examinedAt m fs c (16 * q + r)) := by
    rw [scanBlock, hvr, hstop, her]
    cases v with
    | next => exact absurd rfl hv
    | empty => rfl
    | found d => rfl
  rw [range_split hr, scanBlock_append, hone]
  intro i hi
  have hi := List.mem_range.mp hi
  rw [(at_sector (by omega)).1]
  exact hnext i hi

/-- The loop ends at the first entry where the body does not go on.  Induction on the
    sectors before it. -/
theorem scanRoot_stops (hv : v ≠ .next) (hnext : ∀ k < t, visitAt m fs c name k = .next)
    (hstop : visitAt m fs c name t = v) {n q : Nat} (hn : q + n = t / 16) :
    ∃ sects, scanRoot m fs name (n + 1) (c + q) = some (v, sects) ∧
      ∀ s ∈ sects, ∃ k ≤ t, s ∈ examinedAt m fs c k := by
  induction n generalizing q with
  | zero =>
    have hat : 16 * q + t % 16 = t := by omega
    have hblock := @scanBlock_stops name m fs c v q (t % 16) (Nat.mod_lt _ (by omega))
      (fun i hi => hnext _ (by omega)) (by rw [hat]; exact hstop) hv
    refine ⟨(List.range (t % 16)).flatMap (examined m fs (diskRead m (c + q)) (c + q)) ++
      examinedAt m fs c (16 * q + t % 16), ?_, ?_⟩
    · rw [scanRoot, hblock]
      cases v with
      | next => exact absurd rfl hv
      | empty => rfl
      | found d => rfl
    · intro s hs
      rcases List.mem_append.mp hs with hs | hs
      · obtain ⟨i, hi, hs⟩ := List.mem_flatMap.mp hs
        have hi := List.mem_range.mp hi
        rw [(@at_sector name m fs c q i (by omega)).2] at hs
        exact ⟨16 * q + i, by omega, hs⟩
      · rw [hat] at hs
        exact ⟨t, Nat.le_refl t, hs⟩
  | succ n ih =>
    have hblock := @scanBlock_whole name m fs c q fun i hi => hnext _ (by omega)
    obtain ⟨sects, hrest, hin⟩ := @ih (q + 1) (by omega)
    refine ⟨(List.range 16).flatMap (examined m fs (diskRead m (c + q)) (c + q)) ++ sects, ?_, ?_⟩
    · rw [scanRoot, hblock, show c + q + 1 = c + (q + 1) by omega, hrest]
      rfl
    · intro s hs
      rcases List.mem_append.mp hs with hs | hs
      · obtain ⟨i, hi, hs⟩ := List.mem_flatMap.mp hs
        have hi := List.mem_range.mp hi
        rw [(@at_sector name m fs c q i hi).2] at hs
        exact ⟨16 * q + i, by omega, hs⟩
      · exact hin s hs

/-- The sectors looked at for entry `k` lie between the first one and that of entry `t`. -/
def Inside (m : Mem UInt8) (fs : FsData) (c t k : Nat) : Prop :=
  ∀ s ∈ examinedAt m fs c k, s ≤ c + t / 16 ∧ c ≤ s

/-- From entry `p` on the body goes on up to an entry before or at `t`, where it does `v`. -/
def Stops (m : Mem UInt8) (fs : FsData) (c t : Nat) (name : List UInt8) (p : Nat) (v : Visit) :
    Prop :=
  ∃ T, p ≤ T ∧ T ≤ t ∧ visitAt m fs c name T = v ∧
    (∀ k, p ≤ k → k < T → visitAt m fs c name k = .next) ∧
    ∀ k, p ≤ k → k ≤ T → Inside m fs c t k

theorem Stops.here (hp : p ≤ t) (h : visitAt m fs c name p = v) (hin : Inside m fs c t p) :
    Stops m fs c t name p v := by
  refine ⟨p, Nat.le_refl p, hp, h, fun k h1 h2 => absurd h1 (by omega), ?_⟩
  intro k h1 h2
  obtain rfl : k = p := Nat.le_antisymm h2 h1
  exact hin

theorem Stops.after {p' : Nat} (h : Stops m fs c t name p' v) (hp : p ≤ p')
    (hnext : ∀ k, p ≤ k → k < p' → visitAt m fs c name k = .next ∧ Inside m fs c t k) :
    Stops m fs c t name p v := by
  obtain ⟨T, h1, h2, h3, h4, h5⟩ := h
  refine ⟨T, by omega, h2, h3, ?_, ?_⟩
  · intro k hk hkT
    by_cases hkp : k < p'
    · exact (hnext k hk hkp).1
    · exact h4 k (by omega) hkT
  · intro k hk hkT
    by_cases hkp : k < p'
    · exact (hnext k hk hkp).2
    · exact h5 k (by omega) hkT

/-- Looking at an entry alone. -/
theorem inside_of_own {k : Nat} (hk : k ≤ t)
    (h : examinedAt m fs c k = [c + k / 16 + k % 16 / 16]) : Inside m fs c t k := by
  intro s hs
  rw [h] at hs
  obtain rfl := List.mem_singleton.mp hs
  have : k / 16 ≤ t / 16 := Nat.div_le_div_right hk
  omega

end Scan

-- ============================================================================
-- The items, one after the other
-- ============================================================================

/-- What the loop does at the end: it finds the first file of the name, or meets the
    empty entry. -/
def finalVisit (items : List Item) (name : List UInt8) : Visit :=
  match items.find? (Item.named name) with
  | some (.file _ d) => .found d
  | _ => .empty

theorem compareNames_of_not_named {slots : List DirEntry} {d : DirEntry}
    (hvalid : (Item.file slots d).Valid) (hplain : (Item.file slots d).Plain) (hne : name ≠ [])
    (hnot : Item.named name (.file slots d) = false) :
    compareNames name d [] = .next ∧
      (slots ≠ [] → compareNames name d (finishName (readLong slots)) = .next) := by
  obtain ⟨-, hfirst, -⟩ := hvalid
  obtain ⟨hbase, hext, hlong⟩ := hplain
  simp only [Item.named, Bool.or_eq_false_iff, decide_eq_false_iff_not, Bool.and_eq_false_imp,
    decide_eq_true_eq] at hnot
  obtain ⟨hshort, hlongName⟩ := hnot
  rw [← getName_eq hbase hext hfirst] at hshort
  refine ⟨by simp [compareNames, hshort, hne], ?_⟩
  intro hslots
  have hother := mt (finishName_readLong hlong).mp (hlongName hslots)
  simp [compareNames, hshort, hother]

theorem compareNames_of_named {slots : List DirEntry} {d : DirEntry}
    (hvalid : (Item.file slots d).Valid) (hplain : (Item.file slots d).Plain)
    (hnamed : Item.named name (.file slots d) = true) :
    (slots = [] → compareNames name d [] = .found d) ∧
      compareNames name d (finishName (readLong slots)) = .found d := by
  obtain ⟨-, hfirst, -⟩ := hvalid
  obtain ⟨hbase, hext, hlong⟩ := hplain
  simp only [Item.named, Bool.or_eq_true, decide_eq_true_eq, Bool.and_eq_true] at hnamed
  rw [← getName_eq hbase hext hfirst] at hnamed
  rcases hnamed with hshort | ⟨hslots, hother⟩
  · exact ⟨fun _ => by simp [compareNames, hshort], by simp [compareNames, hshort]⟩
  · have hother := (finishName_readLong hlong).mpr hother
    exact ⟨fun h => absurd h hslots, by simp [compareNames, ← hother]⟩

/-- The entries of one item, seen from its place. -/
structure Placed (m : Mem UInt8) (fs : FsData) (c t p : Nat) (i : Item) : Prop where
  entries : ∀ j (h : j < i.entries.length), diskRead m c (p + j) = i.entries[j]
  fits : p + i.entries.length ≤ t
  valid : i.Valid
  plain : i.Plain
  whole : GroupsWhole (16 * fs.clustSize) p [i]

theorem LegalFirst.bounds {c : Nat} (h : LegalFirst c) : c ≠ 0 ∧ c ≠ 29 ∧ c ≠ 93 ∧ c ≠ 0xe5 := by
  refine ⟨?_, ?_, ?_, ?_⟩ <;> rintro rfl <;> exact absurd h (by decide)

section Items

variable {m : Mem UInt8} {fs : FsData} {c t p : Nat} {v : Visit}

section File

variable {slots : List DirEntry} {d : DirEntry}

theorem Placed.entryAt (h : Placed m fs c t p (.file slots d)) :
    diskRead m c (p + slots.length) = d := by
  rw [h.entries slots.length (by simp [Item.entries])]
  simp [Item.entries]

theorem Placed.slotAt (h : Placed m fs c t p (.file slots d)) {j : Nat} (hj : j < slots.length) :
    diskRead m c (p + j) = slots[j] := by
  rw [h.entries j (by simp [Item.entries]; omega)]
  simp [Item.entries, List.getElem_append_left hj]

theorem Placed.lt_end (h : Placed m fs c t p (.file slots d)) : p + slots.length < t := by
  have hfits := h.fits
  simp only [Item.entries, List.length_append, List.length_singleton] at hfits
  omega

/-- What stands at place `k`, read from the sector it is in. -/
theorem diskRead_sector (m : Mem UInt8) (c k i : Nat) :
    diskRead m (c + k / 16) (k % 16 + i) = diskRead m c (k + i) := by
  rw [diskRead_add]
  congr 1
  omega

/-- The first slot is compared as the whole group. -/
theorem Placed.visit_first (h : Placed m fs c t p (.file slots d)) (hne : slots ≠ []) :
    visitAt m fs c name p = compareNames name d (finishName (readLong slots)) ∧
      Inside m fs c t p := by
  have hend := h.lt_end
  obtain ⟨hv, he⟩ := @visit_group name m fs (diskRead m (c + p / 16)) (p % 16) (c + p / 16) slots d
    h.valid.2.2 hne (fun j hj => (diskRead_sector m c p j).trans (h.slotAt hj))
    ((diskRead_sector m c p slots.length).trans h.entryAt) (h.whole.1 hne)
  refine ⟨hv, ?_⟩
  intro s hs
  rw [examinedAt, he] at hs
  obtain ⟨q, hq, rfl⟩ := List.mem_map.mp hs
  have := List.mem_range.mp hq
  omega

/-- The entry itself is compared without a long name. -/
theorem Placed.visit_own (h : Placed m fs c t p (.file slots d)) :
    visitAt m fs c name (p + slots.length) = compareNames name d [] ∧
      Inside m fs c t (p + slots.length) := by
  obtain ⟨hdir, hfirst, -⟩ := h.valid
  have hat : diskRead m (c + (p + slots.length) / 16) ((p + slots.length) % 16) = d :=
    (diskRead_sector m c (p + slots.length) 0).trans h.entryAt
  obtain ⟨hv, he⟩ := @visit_entry name m fs
    (diskRead m (c + (p + slots.length) / 16)) ((p + slots.length) % 16)
    (c + (p + slots.length) / 16) (by rw [hat]; exact hdir) (by rw [hat]; exact hfirst.bounds.1)
  rw [hat] at hv
  exact ⟨hv, inside_of_own (Nat.le_of_lt h.lt_end) he⟩

/-- A file that does not have the name is passed over. -/
theorem file_passed (h : Placed m fs c t p (.file slots d)) (hne : name ≠ [])
    (hnot : Item.named name (.file slots d) = false) :
    ∀ k, p ≤ k → k < p + (slots.length + 1) →
      visitAt m fs c name k = .next ∧ Inside m fs c t k := by
  obtain ⟨hshort, hlong⟩ := compareNames_of_not_named h.valid h.plain hne hnot
  have hend := h.lt_end
  intro k hk hkl
  obtain ⟨j, rfl⟩ := Nat.exists_eq_add_of_le hk
  by_cases hj : j < slots.length
  · by_cases hj0 : j = 0
    · -- the first slot, which stands for the whole group
      subst hj0
      have hslots : slots ≠ [] := List.ne_nil_of_length_pos hj
      obtain ⟨hv, hinside⟩ := @Placed.visit_first name m fs c t p slots d h hslots
      exact ⟨hv.trans (hlong hslots), hinside⟩
    · obtain ⟨hvol, -, -, hlast⟩ := h.valid.2.2.slot hj
      have hat : diskRead m (c + (p + j) / 16) ((p + j) % 16) = slots[j] :=
        (diskRead_sector m c (p + j) 0).trans (h.slotAt hj)
      obtain ⟨hv, he⟩ := @visit_skipped name m fs (diskRead m (c + (p + j) / 16)) ((p + j) % 16)
        (c + (p + j) / 16) (by rw [hat]; exact hvol) (by rw [hat, hlast]; simp [hj0])
      exact ⟨hv, inside_of_own (by omega) he⟩
  · -- the entry itself
    obtain rfl : j = slots.length := by omega
    obtain ⟨hv, hinside⟩ := @Placed.visit_own name m fs c t p slots d h
    exact ⟨hv.trans hshort, hinside⟩

/-- A file that has the name is found, at its first slot if it has slots. -/
theorem file_found (h : Placed m fs c t p (.file slots d))
    (hnamed : Item.named name (.file slots d) = true) :
    visitAt m fs c name p = .found d ∧ Inside m fs c t p := by
  obtain ⟨hshort, hlong⟩ := compareNames_of_named h.valid h.plain hnamed
  by_cases hne : slots = []
  · subst hne
    obtain ⟨hv, hinside⟩ := @Placed.visit_own name m fs c t p [] d h
    exact ⟨hv.trans (hshort rfl), hinside⟩
  · obtain ⟨hv, hinside⟩ := @Placed.visit_first name m fs c t p slots d h hne
    exact ⟨hv.trans hlong, hinside⟩

/-- A deleted entry is passed. -/
theorem deleted_passed (h : Placed m fs c t p (.deleted d)) (hne : name ≠ []) (hempty : (diskRead m c t).name0 = 0)
    (hnum : ∀ j < t, (diskRead m c j).number ≠ 29) (hcheck : checkClust fs.fatsize (getFatent m fs 0) = true) :
    ∀ k, p ≤ k → k < p + 1 → visitAt m fs c name k = .next ∧ Inside m fs c t k := by
  have hfits := h.fits
  have hd : diskRead m c p = d := h.entries 0 Nat.one_pos
  have hat : diskRead m (c + p / 16) (p % 16) = d := by
    rw [diskRead_add, ← hd]
    congr 1
    omega
  have hstop : diskRead m (c + p / 16) (t - 16 * (p / 16)) = diskRead m c t := by
    rw [diskRead_add]
    congr 1
    simp only [Item.entries, List.length_singleton] at hfits
    omega
  simp only [Item.entries, List.length_singleton] at hfits
  obtain ⟨hvis, hex⟩ := @visit_deleted name m fs (diskRead m (c + p / 16)) (p % 16) (c + p / 16)
    (t - 16 * (p / 16)) (by rw [hat]; exact h.valid) hne (by omega) (by rw [hstop]; exact hempty)
    (fun j hj => by rw [diskRead_add]; exact hnum _ (by omega)) hcheck
  intro k h1 h2
  obtain rfl : k = p := by omega
  refine ⟨hvis, fun s hs => ?_⟩
  have hsect := hex s hs
  omega

/-- So is a volume label. -/
theorem label_passed (h : Placed m fs c t p (.label d)) :
    ∀ k, p ≤ k → k < p + 1 → visitAt m fs c name k = .next ∧ Inside m fs c t k := by
  have hfits := h.fits
  have hd : diskRead m c p = d := h.entries 0 Nat.one_pos
  have hat : diskRead m (c + p / 16) (p % 16) = d := by
    rw [diskRead_add, ← hd]
    congr 1
    omega
  simp only [Item.entries, List.length_singleton] at hfits
  obtain ⟨hvis, he⟩ := @visit_skipped name m fs (diskRead m (c + p / 16)) (p % 16) (c + p / 16)
    (by rw [hat]; exact h.valid.1) (by rw [hat]; exact h.plain)
  intro k h1 h2
  obtain rfl : k = p := by omega
  exact ⟨hvis, inside_of_own (by omega) he⟩

end File

/-- The entries before the first empty one are no slots with the number 29. -/
theorem number_ne {items : List Item} (hvalid : ∀ i ∈ items, i.Valid) :
    ∀ d ∈ items.flatMap Item.entries, d.number ≠ 29 := by
  intro d hd
  obtain ⟨i, hi, hd⟩ := List.mem_flatMap.mp hd
  have hfirst : ∀ d : DirEntry, LegalFirst d.name0 → d.number ≠ 29 := by
    intro d h
    obtain ⟨-, h29, h93, -⟩ := h.bounds
    simp only [DirEntry.number]
    omega
  have hv := hvalid i hi
  cases i with
  | deleted e =>
    obtain rfl := List.mem_singleton.mp hd
    have hname : d.name0 = 0xe5 := hv
    simp [DirEntry.number, hname]
  | label e =>
    obtain rfl := List.mem_singleton.mp hd
    exact hfirst d hv.2.2
  | file slots e =>
    rcases List.mem_append.mp hd with hd | hd
    · obtain ⟨j, hj, rfl⟩ := List.mem_iff_getElem.mp hd
      have hnum := (hv.2.2.slot hj).2.2.1
      have hlen := hv.2.2.1
      omega
    · obtain rfl := List.mem_singleton.mp hd
      exact hfirst d hv.2.1

/-- What the loop does from the place of the items on.  Induction on the items. -/
theorem items_stops {items : List Item}
    (hentries : ∀ j (h : j < (items.flatMap Item.entries).length),
      diskRead m c (p + j) = (items.flatMap Item.entries)[j])
    (ht : p + (items.flatMap Item.entries).length = t)
    (hempty : (diskRead m c t).isVolume = false ∧ (diskRead m c t).name0 = 0)
    (hnum : ∀ j < t, (diskRead m c j).number ≠ 29)
    (hcheck : checkClust fs.fatsize (getFatent m fs 0) = true) (hne : name ≠ [])
    (hvalid : ∀ i ∈ items, i.Valid) (hplain : ∀ i ∈ items, i.Plain)
    (hwhole : GroupsWhole (16 * fs.clustSize) p items) :
    Stops m fs c t name p (finalVisit items name) := by
  induction items generalizing p with
  | nil =>
    simp only [List.flatMap_nil, List.length_nil, Nat.add_zero] at ht
    subst ht
    have hat : diskRead m (c + p / 16) (p % 16) = diskRead m c p := by
      rw [diskRead_add]
      congr 1
      omega
    obtain ⟨hv, he⟩ := @visit_empty name m fs (diskRead m (c + p / 16)) (p % 16) (c + p / 16)
      (by rw [hat]; exact hempty.1) (by rw [hat]; exact hempty.2)
    exact Stops.here (Nat.le_refl p) hv (inside_of_own (Nat.le_refl p) he)
  | cons i items ih =>
    simp only [List.flatMap_cons, List.length_append] at ht hentries
    have hfirst : ∀ j (h : j < i.entries.length), diskRead m c (p + j) = i.entries[j] := by
      intro j hj
      rw [hentries j (by omega), List.getElem_append_left hj]
    -- the rest of the items, behind the entries of this one
    have hrest : ∀ w, GroupsWhole (16 * fs.clustSize) w items → w = p + i.entries.length →
        Stops m fs c t name w (finalVisit items name) := by
      rintro w hw rfl
      refine ih (fun j hj => ?_) (by omega) (fun i hi => hvalid i (List.mem_cons_of_mem _ hi))
        (fun i hi => hplain i (List.mem_cons_of_mem _ hi)) hw
      rw [Nat.add_assoc, hentries (i.entries.length + j) (by omega),
        List.getElem_append_right (by omega)]
      congr 1
      omega
    have hv := hvalid i (List.mem_cons_self ..)
    have hp := hplain i (List.mem_cons_self ..)
    have hother : Item.named name i = false → finalVisit (i :: items) name = finalVisit items name := by
      intro hnot
      simp only [finalVisit, List.find?_cons, hnot]
    cases i with
    | deleted d =>
      have hplaced : Placed m fs c t p (.deleted d) := ⟨hfirst, by omega, hv, hp, trivial⟩
      rw [hother rfl]
      exact (hrest (p + 1) hwhole rfl).after (by omega) (deleted_passed hplaced hne hempty.2 hnum hcheck)
    | label d =>
      have hplaced : Placed m fs c t p (.label d) := ⟨hfirst, by omega, hv, hp, trivial⟩
      rw [hother rfl]
      exact (hrest (p + 1) hwhole rfl).after (by omega) (label_passed hplaced)
    | file slots d =>
      have hplaced : Placed m fs c t p (.file slots d) :=
        ⟨hfirst, by omega, hv, hp, ⟨hwhole.1, trivial⟩⟩
      cases hnamed : Item.named name (.file slots d) with
      | true =>
        obtain ⟨hvis, hin⟩ := file_found hplaced hnamed
        have hfinal : finalVisit (.file slots d :: items) name = .found d := by
          simp only [finalVisit, List.find?_cons, hnamed]
        rw [hfinal]
        exact Stops.here (by omega) hvis hin
      | false =>
        rw [hother hnamed]
        exact (hrest (p + slots.length + 1) hwhole.2 (by simp [Item.entries]; omega)).after
          (by omega) fun k h1 h2 => file_passed hplaced hne hnamed k h1 (by omega)

end Items

-- ============================================================================
-- Whole volumes
-- ============================================================================

section Volumes

variable {m : Mem UInt8} {kind : FatSize} {chain : List Nat} {items : List Item}

theorem Consistent.readBootsectandvi (hc : Consistent m kind chain items)
    (hp : InOnePiece m kind chain items) : Fat.readBootsectandvi m = some kind := by
  have hsign := hp.sign
  unfold Fat.readBootsectandvi
  rcases hc.tables with ⟨rfl, hlen, -⟩ | ⟨rfl, hlen, -⟩
  · have h16 : m.read 54 8 = fat16Sign := by simpa using hsign
    have h12 : fat16Sign ≠ fat12Sign := by decide
    rw [if_neg hlen, if_neg (by rw [h16]; exact h12), if_pos h16]
  · have h32 : m.read 82 8 = fat32Sign := by simpa using hsign
    rw [if_pos hlen, if_pos h32]

/-- The code takes the root for what stands behind the tables. -/
theorem InOnePiece.rootdirSect (hp : InOnePiece m kind chain items) :
    512 * (fsData m kind).rootdirSect = dataStart kind m := by
  have hsect := hp.sector
  obtain ⟨h1, h2⟩ := hp.small
  have hfat : (if kind = .fat32 then fat32Length m else fatLength m) = fatSectors kind m := rfl
  simp only [fsData, hfat, dataStart, hsect, Nat.mod_eq_of_lt h1, Nat.mod_eq_of_lt h2]
  rw [Nat.mul_comm (fatSectors kind m)]

theorem InOnePiece.rootAddr (hp : InOnePiece m kind chain items) {k : Nat}
    (hk : k ≤ (items.flatMap Item.entries).length) :
    rootAddr kind m chain k = 512 * (fsData m kind).rootdirSect + 32 * k := by
  rw [hp.rootdirSect]
  unfold Fat.rootAddr
  split
  · next h32 =>
    have hper : perCluster m = 16 * clusterSize m := by
      rw [perCluster, hp.sector]
      omega
    have hcluster := hp.contiguous h32 (k / perCluster m) (Nat.div_le_div_right hk)
    have hdiv := Nat.div_add_mod k (perCluster m)
    have hbytes : 512 * clusterSize m * (k / perCluster m) =
        32 * (perCluster m * (k / perCluster m)) := by
      rw [hper, ← Nat.mul_assoc, ← Nat.mul_assoc]
    rw [hcluster, hp.sector, Nat.add_sub_cancel_left, hbytes]
    omega
  · rfl

/-- The entry of cluster 0 is no link. -/
theorem Consistent.checkClust (hc : Consistent m kind chain items)
    (hp : InOnePiece m kind chain items) :
    Fat.checkClust (fsData m kind).fatsize (getFatent m (fsData m kind) 0) = true := by
  have hsect := hp.sector
  have hmedia := hc.mediaByte
  rcases hc.tables with ⟨rfl, -, hfirst⟩ | ⟨rfl, -, hfirst⟩
  · rw [hsect] at hfirst
    have hent : getFatent m (fsData m .fat16) 0 = 0xff00 + media m := hfirst
    have hbad : 0xfff0 ≤ getFatent m (fsData m .fat16) 0 := by omega
    simp only [Fat.checkClust, fsData, reduceCtorEq, if_false, Bool.or_eq_true, decide_eq_true_eq]
    exact .inr hbad
  · rw [link, hsect] at hfirst
    have hent : getFatent m (fsData m .fat32) 0 = rd32 m (512 * reserved m + 4 * 0) := rfl
    have hbad : 0xffffff0 ≤ getFatent m (fsData m .fat32) 0 := by
      rw [hent]
      omega
    simp only [Fat.checkClust, fsData, if_true, Bool.or_eq_true, decide_eq_true_eq]
    exact .inr hbad

end Volumes

-- ============================================================================
-- Two volumes of 4110 sectors
-- ============================================================================

/-- A FAT16 boot sector: 512-byte sectors, one to a cluster, one table of 16 sectors in
    sector 1, room for 16 entries in the root. -/
def smallBoot : List UInt8 :=
  [0xeb, 0x3c, 0x90, 0x6d, 0x6b, 0x64, 0x6f, 0x73, 0x66, 0x73, 0x20, 0, 2, 1, 1, 0, 1, 16, 0,
    0x0e, 0x10, 0xf8, 16, 0, 32, 0, 64, 0, 0, 0, 0, 0, 0, 0, 0, 0,
    0x80, 0, 0x29, 1, 2, 3, 4, 0x4e, 0x4f, 0x20, 0x4e, 0x41, 0x4d, 0x45, 0x20, 0x20, 0x20, 0x20,
    0x46, 0x41, 0x54, 0x31, 0x36, 0x20, 0x20, 0x20]

/-- A volume with this boot sector; `root` stands from sector 17 on. -/
def smallVolume (root : Nat → UInt8) : Mem UInt8 := fun a =>
  if a < 62 then smallBoot.getD a 0
  else if a = 512 then 0xf8
  else if a = 513 then 0xff
  else if 8704 ≤ a then root (a - 8704)
  else 0

/-- The slot of the long name `Kernel`. -/
def kernelSlot : DirEntry :=
  [0x41, 0x4b, 0, 0x65, 0, 0x72, 0, 0x6e, 0, 0x65, 0, 0x0f, 0, 0x53, 0x6c, 0, 0, 0, 0xff, 0xff, 0xff,
    0xff, 0xff, 0xff, 0xff, 0xff, 0, 0, 0xff, 0xff, 0xff, 0xff]

/-- The entry of `KERNEL`. -/
def kernelEntry : DirEntry :=
  [0x4b, 0x45, 0x52, 0x4e, 0x45, 0x4c, 0x20, 0x20, 0x20, 0x20, 0x20, 0x20, 0, 0, 0, 0, 0, 0, 0, 0, 0, 0,
    0, 0, 0, 0, 2, 0, 0x10, 0, 0, 0]

def kernelVolume : Mem UInt8 := smallVolume fun a => (kernelSlot ++ kernelEntry).getD a 0

theorem kernelVolume_consistent :
    Consistent kernelVolume .fat16 [] [.file [kernelSlot] kernelEntry] where
  sector := by decide
  cluster := by decide
  mediaByte := by decide
  tables := .inl ⟨rfl, by decide, by decide⟩
  linked := fun h => by cases h
  room := by decide
  entries := by decide
  rest := fun _ => by decide
  valid := by decide

theorem kernelVolume_inOnePiece :
    InOnePiece kernelVolume .fat16 [] [.file [kernelSlot] kernelEntry] where
  sign := by decide
  sector := by decide
  small := by decide
  terminated := by decide
  contiguous := fun h => by cases h
  whole := by decide
  plain := by decide +kernel

/-- The root has sixteen deleted entries and no empty one; the first cluster behind it
    holds data that reads like an entry `X`. -/
def fullVolume : Mem UInt8 := smallVolume fun a =>
  if a < 512 then (if a % 32 = 0 then 0xe5 else 0)
  else if a = 512 then 0x58
  else if a < 523 then 0x20
  else 0

def fullItems : List Item :=
  List.replicate 16 (.deleted (0xe5 :: List.replicate 31 0))

theorem fullVolume_consistent : Consistent fullVolume .fat16 [] fullItems where
  sector := by decide
  cluster := by decide
  mediaByte := by decide
  tables := .inl ⟨rfl, by decide, by decide⟩
  linked := fun h => by cases h
  room := by decide
  entries := by decide
  rest := fun h => absurd h (by decide)
  valid := by decide

end Uboot.Fs.Fat
