/-
  Uboot.Fs.FatLongName

  `get_vfatname` of fs/fat/fat.c with its accesses to memory: the slots of a long name are
  looked for in the buffer with the cluster and in a buffer with the next one, and their
  characters go into `l_name[256]`.

  An access outside of a buffer is the end of a run.
-/

import Uboot.Fs.Fat
import Mathlib.Data.List.TakeWhile

namespace Uboot.Fs.FatLongName

open Uboot.Lib Uboot.Fs.Fat

-- ============================================================================
-- slot2str
-- ============================================================================

/-- `l_name` and `idx`. -/
structure LongName where
  lName : Mem UInt8
  idx : Nat

/-- A character stored at `l_name[idx]`; `none` behind the end. -/
def LongName.put (s : LongName) (c : UInt8) : Option LongName :=
  if s.idx < 256 then some { s with lName := s.lName.write s.idx [c] } else none

/-- `slot2str` on the characters of a slot: whether the terminator is found. -/
def putChars : List UInt8 → LongName → Option (LongName × Bool)
  | [], s => some (s, false)
  | c :: cs, s =>
    (s.put c).bind fun s => if c = 0 then some (s, true) else putChars cs { s with idx := s.idx + 1 }

/-- `slot2str`. -/
def slot2str (d : DirEntry) (s : LongName) : Option (LongName × Bool) := putChars (slotChars d) s

-- ============================================================================
-- get_vfatname
-- ============================================================================

/-- The last loop: `slotptr` is at entry `k` and goes back. -/
def goBack (b : Block) : Nat → LongName → Option LongName
  | 0, _ => none
  | k + 1, s =>
    (slot2str (b k) s).bind fun (s, met) => if met || (b k).lastLong then some s else goBack b k s

/-- The loop over the entries before `k` of the next cluster. -/
def takeAll (b : Block) : Nat → LongName → Option LongName
  | 0, s => some s
  | k + 1, s => (slot2str (b k) s).bind fun (s, _) => takeAll b k s

/-- How a call ends. -/
inductive Outcome
  | failed (lName : Mem UInt8)
  | named (d : DirEntry) (lName : Mem UInt8)

def Outcome.lName : Outcome → Mem UInt8
  | .failed l => l
  | .named _ l => l

/-- `l_name[idx] = '\\0'` and the entry that is returned.  `finishName` then only changes
    characters before the terminator. -/
def terminate (d : DirEntry) (s : LongName) : Option Outcome :=
  (s.put 0).map fun s => .named d s.lName

/-- A directory in a cluster: the volume, the cluster, and what was in `get_vfatname_block`. -/
structure Directory where
  m : Mem UInt8
  fs : FsData
  curclust : Nat
  cluster : Block
  stale : Block

/-- The number of entries in a cluster. -/
def Directory.n (dir : Directory) : Nat := 16 * dir.fs.clustSize

/-- `get_vfatname_block` behind `get_cluster`, if there is a next cluster. -/
def Directory.next (dir : Directory) : Option Block :=
  let curclust := getFatent dir.m dir.fs dir.curclust
  if checkClust dir.fs.fatsize curclust then none
  else some fun j => if j < dir.n then diskRead dir.m (startsect dir.fs curclust) j else dir.stale j

/-- The branch for slots that run over the end of the cluster. -/
def fromNext (dir : Directory) (lName : Mem UInt8) : Option Outcome :=
  match dir.next with
  | none => some (.failed lName)
  | some block =>
    -- `get_cluster` fills a buffer of 2048 entries, and the search goes on to its end
    if 2048 < dir.n then none
    else
      match (List.range 2048).find? fun k => (block k).name0 ≤ 1 with
      | none => none
      | some k =>
        (takeAll block (k + 1) ⟨lName, 0⟩).bind fun s =>
          (goBack dir.cluster (dir.n - 1) s).bind fun s =>
            -- the real entry behind the last slot is copied at the end
            if k + 1 < 2048 then terminate (block (k + 1)) s else none

/-- `get_vfatname` for the slot in entry `i` of the cluster. -/
def getVfatname (dir : Directory) (i : Nat) (lName : Mem UInt8) : Option Outcome :=
  match slotWalk dir.cluster dir.n (dir.cluster i).number i with
  | .mismatch _ => some (.failed lName)
  | .past => fromNext dir lName
  | .entry k => (goBack dir.cluster k ⟨lName, 0⟩).bind (terminate (dir.cluster k))

/-- A call that makes no access outside of the buffers and leaves a terminator in `l_name`. -/
def Ended (r : Option Outcome) : Prop := ∃ o, r = some o ∧ ∃ x < 256, o.lName x = 0

/-- The call as it is made, with `l_name[0] = '\\0'`. -/
def Safe (dir : Directory) (i : Nat) : Prop :=
  ∀ lName : Mem UInt8, Ended (getVfatname dir i (lName.write 0 [0]))

-- ============================================================================
-- What has to be in the slots
-- ============================================================================

/-- A slot that ends the way back: it has a terminator, or it is marked as the last one. -/
def stops (d : DirEntry) : Bool := (slotChars d).contains 0 || d.lastLong

/-- The characters of a slot before its terminator. -/
def chars (d : DirEntry) : Nat := ((slotChars d).takeWhile (· ≠ 0)).length

/-- The characters of the entries before `k`. -/
def charsBelow (b : Block) (k : Nat) : Nat := ((List.range k).map fun j => chars (b j)).sum

/-- Entry `j` is the first on the way back from `k` that ends it. -/
structure BackStop (b : Block) (k j : Nat) : Prop where
  lt : j < k
  stops : stops (b j) = true
  first : ∀ j', j < j' → j' < k → FatLongName.stops (b j') = false

/-- The way back from `k` ends in the buffer, with `t` characters before it and `u` on it at
    most 255. -/
def BackFits (b : Block) (k t : Nat) : Prop :=
  ∃ j, BackStop b k j ∧ t + (13 * (k - 1 - j) + chars (b j)) ≤ 255

/-- The entries from `i` on are numbered down from that of the first, as far as they are in
    the cluster. -/
def Numbered (dir : Directory) (i : Nat) : Prop :=
  ∀ j < (dir.cluster i).number, i + j < dir.n →
    (dir.cluster (i + j)).number = (dir.cluster i).number - j

/-- The next cluster and the way back fit. -/
def NextFits (dir : Directory) : Prop :=
  ∀ block, dir.next = some block → dir.n ≤ 2048 ∧
    ∃ k < 2047, (block k).name0 ≤ 1 ∧ (∀ k' < k, 1 < (block k').name0) ∧
      BackFits dir.cluster (dir.n - 1) (charsBelow block (k + 1))

/-- The slots are not numbered down; or they end in the cluster and the way back from there
    fits; or they run over its end and the rest is in the next cluster. -/
def Contained (dir : Directory) (i : Nat) : Prop :=
  Numbered dir i →
    if i + (dir.cluster i).number < dir.n then
      BackFits dir.cluster (i + (dir.cluster i).number) 0
    else NextFits dir

-- ============================================================================
-- One slot
-- ============================================================================

section Slots

variable {s s' : LongName} {d : DirEntry} {b : Block}

/-- The characters of a slot go in, and its terminator if there is one, as long as there is
    room. -/
theorem putChars_room (cs : List UInt8)
    (h : s.idx + (cs.takeWhile (· ≠ 0)).length + (if (0 : UInt8) ∈ cs then 1 else 0) ≤ 256) :
    ∃ s', putChars cs s = some (s', decide ((0 : UInt8) ∈ cs)) ∧
      s'.idx = s.idx + (cs.takeWhile (· ≠ 0)).length := by
  induction cs generalizing s with
  | nil => exact ⟨s, rfl, rfl⟩
  | cons c cs ih =>
    by_cases hc : c = 0
    · subst hc
      have hidx : s.idx < 256 := by
        rw [if_pos List.mem_cons_self] at h
        omega
      refine ⟨{ s with lName := s.lName.write s.idx [0] }, ?_, by simp⟩
      simp [putChars, LongName.put, hidx]
    · have hmem : (0 : UInt8) ∈ c :: cs ↔ (0 : UInt8) ∈ cs := by simp [Ne.symm hc]
      rw [List.takeWhile_cons_of_pos (by simpa using hc), List.length_cons] at h ⊢
      simp only [hmem] at h ⊢
      obtain ⟨s', hput, hidx⟩ := ih (s := ⟨s.lName.write s.idx [c], s.idx + 1⟩)
        (by dsimp only; omega)
      refine ⟨s', ?_, by dsimp only at hidx; omega⟩
      rw [putChars, LongName.put, if_pos (by omega), Option.bind_some, if_neg hc]
      exact hput

/-- There is no other way to come to the end of the slot. -/
theorem putChars_full (cs : List UInt8)
    (h : 256 < s.idx + (cs.takeWhile (· ≠ 0)).length + (if (0 : UInt8) ∈ cs then 1 else 0))
    (hs : s.idx ≤ 256) : putChars cs s = none := by
  induction cs generalizing s with
  | nil => simp at h; omega
  | cons c cs ih =>
    by_cases hroom : s.idx < 256
    · by_cases hc : c = 0
      · subst hc
        simp at h
        omega
      · have hmem : (0 : UInt8) ∈ c :: cs ↔ (0 : UInt8) ∈ cs := by simp [Ne.symm hc]
        rw [List.takeWhile_cons_of_pos (by simpa using hc), List.length_cons] at h
        simp only [hmem] at h
        rw [putChars, LongName.put, if_pos hroom, Option.bind_some, if_neg hc]
        exact ih (s := ⟨s.lName.write s.idx [c], s.idx + 1⟩) (by dsimp only; omega)
          (by dsimp only; omega)
    · rw [putChars, LongName.put, if_neg hroom]
      rfl

/-- The terminator takes one more place. -/
def places (d : DirEntry) : Nat := chars d + if (0 : UInt8) ∈ slotChars d then 1 else 0

theorem slot2str_room (d : DirEntry) (h : s.idx + places d ≤ 256) :
    ∃ s', slot2str d s = some (s', decide ((0 : UInt8) ∈ slotChars d)) ∧ s'.idx = s.idx + chars d :=
  putChars_room (slotChars d) (by rw [Nat.add_assoc]; exact h)

theorem slot2str_full (d : DirEntry) (h : 256 < s.idx + places d) (hs : s.idx ≤ 256) :
    slot2str d s = none :=
  putChars_full (slotChars d) (by rw [Nat.add_assoc]; exact h) hs

theorem slotChars_length (d : DirEntry) : (slotChars d).length = 13 := by simp [slotChars, slotOffsets]

/-- A slot that does not end the way back is full. -/
theorem chars_of_not_stops (h : stops d = false) : chars d = 13 ∧ places d = 13 := by
  simp only [stops, Bool.or_eq_false_iff, List.contains_eq_mem, decide_eq_false_iff_not] at h
  have hall : (slotChars d).takeWhile (· ≠ 0) = slotChars d := by
    rw [List.takeWhile_eq_self_iff]
    intro c hc
    exact decide_eq_true fun h0 => h.1 (h0 ▸ hc)
  have hchars : chars d = 13 := by rw [chars, hall, slotChars_length]
  exact ⟨hchars, by rw [places, hchars, if_neg h.1]⟩

theorem chars_le_places (d : DirEntry) : chars d ≤ places d ∧ places d ≤ chars d + 1 := by
  rw [places]
  split <;> omega

-- ============================================================================
-- The way back
-- ============================================================================

theorem BackFits.zero {t : Nat} : ¬ BackFits b 0 t := by
  rintro ⟨j, hj, -⟩
  exact absurd hj.lt (Nat.not_lt_zero j)

/-- The slot behind `k` ends the way back. -/
theorem backFits_of_stops {k t : Nat} (h : stops (b k) = true) :
    BackFits b (k + 1) t ↔ t + chars (b k) ≤ 255 := by
  constructor
  · rintro ⟨j, hj, hle⟩
    have hjk : j = k := by
      by_contra hne
      have := hj.first k (by have := hj.lt; omega) (Nat.lt_succ_self k)
      rw [h] at this
      cases this
    subst hjk
    simpa using hle
  · intro hle
    exact ⟨k, ⟨Nat.lt_succ_self k, h, fun j' h1 h2 => by omega⟩, by simpa using hle⟩

/-- It is full, and the way goes on. -/
theorem backFits_of_not_stops {k t : Nat} (h : stops (b k) = false) :
    BackFits b (k + 1) t ↔ BackFits b k (t + 13) := by
  constructor
  · rintro ⟨j, hj, hle⟩
    have hjk : j ≠ k := by
      rintro rfl
      have := hj.stops
      rw [h] at this
      cases this
    have hlt := hj.lt
    exact ⟨j, ⟨by omega, hj.stops, fun j' h1 h2 => hj.first j' h1 (by omega)⟩, by omega⟩
  · rintro ⟨j, hj, hle⟩
    have hlt := hj.lt
    refine ⟨j, ⟨by omega, hj.stops, fun j' h1 h2 => ?_⟩, by omega⟩
    by_cases hk : j' = k
    · rw [hk, h]
    · exact hj.first j' h1 (by omega)

/-- **The way back** comes to its end with room for a terminator just when it fits. -/
theorem goBack_iff {k : Nat} (hs : s.idx ≤ 256) :
    (∃ s', goBack b k s = some s' ∧ s'.idx ≤ 255) ↔ BackFits b k s.idx := by
  induction k generalizing s with
  | zero => exact iff_of_false (by simp [goBack]) BackFits.zero
  | succ k ih =>
    have hplaces := chars_le_places (b k)
    by_cases hroom : s.idx + places (b k) ≤ 256
    · obtain ⟨s', hput, hidx⟩ := slot2str_room (b k) hroom
      rw [goBack, hput, Option.bind_some]
      dsimp only
      cases hstops : stops (b k) with
      | true =>
        have hif : (decide ((0 : UInt8) ∈ slotChars (b k)) || (b k).lastLong) = true := by
          simpa [stops] using hstops
        rw [if_pos hif, backFits_of_stops hstops, ← hidx]
        constructor
        · rintro ⟨s'', hs'', hle⟩
          obtain rfl := Option.some.inj hs''
          exact hle
        · exact fun hle => ⟨s', rfl, hle⟩
      | false =>
        have hif : ¬ (decide ((0 : UInt8) ∈ slotChars (b k)) || (b k).lastLong) = true := by
          simpa [stops] using hstops
        rw [if_neg hif, backFits_of_not_stops hstops, ih (by omega), hidx, (chars_of_not_stops hstops).1]
    · rw [goBack, slot2str_full (b k) (by omega) hs, Option.bind_none]
      refine iff_of_false (by simp) ?_
      cases hstops : stops (b k) with
      | true =>
        rw [backFits_of_stops hstops]
        omega
      | false =>
        rw [backFits_of_not_stops hstops]
        rintro ⟨j, -, hle⟩
        have := (chars_of_not_stops hstops).2
        omega

-- ============================================================================
-- The slots of the next cluster
-- ============================================================================

theorem charsBelow_succ {k : Nat} : charsBelow b (k + 1) = charsBelow b k + chars (b k) := by
  simp [charsBelow, List.range_succ]

theorem takeAll_room {k : Nat} (h : s.idx + charsBelow b k ≤ 255) : ∃ s', takeAll b k s = some s' := by
  induction k generalizing s with
  | zero => exact ⟨s, rfl⟩
  | succ k ih =>
    rw [charsBelow_succ] at h
    have hplaces := chars_le_places (b k)
    obtain ⟨s', hput, hidx⟩ := slot2str_room (s := s) (b k) (by omega)
    rw [takeAll, hput, Option.bind_some]
    exact ih (by omega)

theorem takeAll_idx {k : Nat} (hs : s.idx ≤ 256) (h : takeAll b k s = some s') :
    s'.idx = s.idx + charsBelow b k ∧ s'.idx ≤ 256 := by
  induction k generalizing s with
  | zero =>
    obtain rfl := Option.some.inj h
    exact ⟨rfl, hs⟩
  | succ k ih =>
    have hplaces := chars_le_places (b k)
    have hroom : s.idx + places (b k) ≤ 256 := by
      by_contra hfull
      rw [takeAll, slot2str_full (b k) (by omega) hs] at h
      cases h
    obtain ⟨s₁, hput, hidx⟩ := slot2str_room (b k) hroom
    rw [takeAll, hput, Option.bind_some] at h
    obtain ⟨hidx', hle⟩ := ih (by omega) h
    exact ⟨by rw [charsBelow_succ]; omega, hle⟩

end Slots

-- ============================================================================
-- The terminator
-- ============================================================================

theorem terminate_of_le {d : DirEntry} {s : LongName} (h : s.idx ≤ 255) :
    ∃ o, terminate d s = some o ∧ o.lName s.idx = 0 := by
  refine ⟨.named d (s.lName.write s.idx [0]), ?_, by simp [Outcome.lName, Mem.write]⟩
  rw [terminate, LongName.put, if_pos (by omega)]
  rfl

theorem idx_of_terminate {d : DirEntry} {s : LongName} {o : Outcome} (h : terminate d s = some o) :
    s.idx ≤ 255 := by
  by_contra hfull
  rw [terminate, LongName.put, if_neg (by omega)] at h
  cases h

theorem not_ended_none : ¬ Ended none := by
  rintro ⟨o, ho, -⟩
  cases ho

theorem ended_terminate {d : DirEntry} {s : LongName} : Ended (terminate d s) ↔ s.idx ≤ 255 := by
  constructor
  · rintro ⟨o, ho, -⟩
    exact idx_of_terminate ho
  · intro h
    obtain ⟨o, ho, hx⟩ := @terminate_of_le d s h
    exact ⟨o, ho, s.idx, by omega, hx⟩

/-- The way back and the terminator behind the characters. -/
theorem ended_goBack {b : Block} {k : Nat} {s : LongName} {d : DirEntry} (hs : s.idx ≤ 256) :
    Ended ((goBack b k s).bind (terminate d)) ↔ BackFits b k s.idx := by
  rw [← goBack_iff hs]
  cases hback : goBack b k s with
  | none => exact iff_of_false not_ended_none (by simp)
  | some s' =>
    rw [Option.bind_some, ended_terminate]
    exact ⟨fun h => ⟨s', rfl, h⟩, fun ⟨s'', hs'', h⟩ => by obtain rfl := Option.some.inj hs''; exact h⟩

-- ============================================================================
-- The walk over the slots
-- ============================================================================

section Walk

variable {b : Block} {n c i : Nat}

theorem slotWalk_numbered (hnum : ∀ j < c, i + j < n → (b (i + j)).number = c - j) :
    slotWalk b n c i = if i + c < n then .entry (i + c) else .past := by
  induction c generalizing i with
  | zero => rfl
  | succ c ih =>
    by_cases hi : i < n
    · have h0 : (b i).number = c + 1 := hnum 0 (Nat.succ_pos c) hi
      rw [slotWalk, if_pos hi, if_neg (not_not.mpr h0), ih, Nat.add_right_comm, Nat.add_assoc]
      intro j hj hjn
      have := hnum (j + 1) (by omega) (by omega)
      rw [Nat.add_right_comm, Nat.add_assoc, this]
      omega
    · rw [slotWalk, if_neg hi, if_neg (by omega)]

theorem slotWalk_not_numbered (hnum : ¬ ∀ j < c, i + j < n → (b (i + j)).number = c - j) :
    ∃ k, slotWalk b n c i = .mismatch k := by
  induction c generalizing i with
  | zero => exact absurd (fun j hj => absurd hj (Nat.not_lt_zero j)) hnum
  | succ c ih =>
    have hi : i < n := by
      by_contra hge
      exact hnum fun j _ hjn => absurd hjn (by omega)
    by_cases h0 : (b i).number = c + 1
    · rw [slotWalk, if_pos hi, if_neg (not_not.mpr h0)]
      refine ih fun hrest => hnum fun j hj hjn => ?_
      cases j with
      | zero => exact h0
      | succ j =>
        have := hrest j (by omega) (by omega)
        rw [Nat.add_right_comm, Nat.add_assoc] at this
        rw [this]
        omega
    · exact ⟨i, by rw [slotWalk, if_pos hi, if_pos h0]⟩

end Walk

-- ============================================================================
-- The call
-- ============================================================================

variable {dir : Directory} {i : Nat}

theorem ended_failed {l : Mem UInt8} (h0 : l 0 = 0) : Ended (some (.failed l)) :=
  ⟨_, rfl, 0, by omega, h0⟩

/-- What is wanted of the next cluster, once its last slot is known. -/
theorem nextFits_iff {block : Block} {k : Nat} (hnext : dir.next = some block) (hn : dir.n ≤ 2048)
    (hfind : ((List.range 2048).find? fun k => decide ((block k).name0 ≤ 1)) = some k) :
    NextFits dir ↔ k < 2047 ∧ BackFits dir.cluster (dir.n - 1) (charsBelow block (k + 1)) := by
  obtain ⟨hid, hmem, hbefore⟩ := List.find?_range_eq_some.mp hfind
  simp only [decide_eq_true_eq] at hid
  have hfirst : ∀ k' < k, 1 < (block k').name0 := fun k' hk' => by simpa using hbefore k' hk'
  constructor
  · intro h
    obtain ⟨-, k', hlt, hid', hfirst', hfits⟩ := h block hnext
    -- there is only one that is the first
    obtain rfl : k' = k := by
      rcases Nat.lt_trichotomy k' k with hlt | heq | hgt
      · exact absurd (hfirst k' hlt) (by omega)
      · exact heq
      · exact absurd (hfirst' k hgt) (by omega)
    exact ⟨hlt, hfits⟩
  · rintro ⟨hlt, hfits⟩ block' hnext'
    obtain rfl := Option.some.inj (hnext.symm.trans hnext')
    exact ⟨hn, k, hlt, hid, hfirst, hfits⟩

/-- The branch for the next cluster. -/
theorem ended_fromNext {l : Mem UInt8} (h0 : l 0 = 0) : Ended (fromNext dir l) ↔ NextFits dir := by
  unfold fromNext
  cases hnext : dir.next with
  | none =>
    refine iff_of_true (ended_failed h0) fun block hblock => ?_
    cases hnext.symm.trans hblock
  | some block =>
    dsimp only
    by_cases hn : 2048 < dir.n
    · rw [if_pos hn]
      exact iff_of_false not_ended_none fun h => by have := (h block hnext).1; omega
    rw [if_neg hn]
    cases hfind : (List.range 2048).find? fun k => decide ((block k).name0 ≤ 1) with
    | none =>
      refine iff_of_false not_ended_none fun h => ?_
      obtain ⟨-, k, hk, hid, -⟩ := h block hnext
      have := List.find?_range_eq_none.mp hfind k (by omega)
      simp only [hid, decide_true, Bool.not_true] at this
      cases this
    | some k =>
      have hk := List.mem_range.mp (List.find?_range_eq_some.mp hfind).2.1
      rw [nextFits_iff hnext (by omega) hfind]
      dsimp only
      cases htake : takeAll block (k + 1) ⟨l, 0⟩ with
      | none =>
        refine iff_of_false not_ended_none ?_
        rintro ⟨-, j, -, hle⟩
        obtain ⟨s', hs'⟩ := @takeAll_room ⟨l, 0⟩ block (k + 1) (by dsimp only; omega)
        rw [htake] at hs'
        cases hs'
      | some s =>
        obtain ⟨hidx, hle⟩ := takeAll_idx (Nat.zero_le 256) htake
        rw [Nat.zero_add] at hidx
        rw [Option.bind_some, ← hidx]
        by_cases hroom : k + 1 < 2048
        · simp only [if_pos hroom]
          rw [ended_goBack hle]
          exact ⟨fun h => ⟨by omega, h⟩, fun h => h.2⟩
        · simp only [if_neg hroom]
          refine iff_of_false ?_ fun h => by omega
          cases goBack dir.cluster (dir.n - 1) s <;> exact not_ended_none

/-- **`get_vfatname`** stays in its buffers and leaves a terminator just when the slots it is
    given are not numbered down, or the way back over them comes to a stop with at most 255
    characters. -/
theorem safe_longName_iff : Safe dir i ↔ Contained dir i := by
  have hone : ∀ l : Mem UInt8, l 0 = 0 → (Ended (getVfatname dir i l) ↔ Contained dir i) := by
    intro l h0
    unfold getVfatname Contained
    by_cases hnum : Numbered dir i
    · rw [slotWalk_numbered hnum, forall_prop_of_true hnum]
      by_cases hin : i + (dir.cluster i).number < dir.n
      · rw [if_pos hin, if_pos hin]
        exact ended_goBack (Nat.zero_le 256)
      · rw [if_neg hin, if_neg hin]
        exact ended_fromNext h0
    · obtain ⟨k, hk⟩ := slotWalk_not_numbered hnum
      rw [hk]
      exact iff_of_true (ended_failed h0) fun h => absurd h hnum
  have hwrite : ∀ l : Mem UInt8, (l.write 0 [0]) 0 = 0 := fun l => by simp [Mem.write]
  constructor
  · intro h
    exact (hone _ (hwrite fun _ => 0)).mp (h fun _ => 0)
  · intro h l
    exact (hone _ (hwrite l)).mpr h

-- Twenty slots without a terminator are 260 characters.

/-- A slot with 13 times the character `0x4141`. -/
def fullSlot (id : UInt8) : DirEntry :=
  id :: List.replicate 10 0x41 ++ [0x0f, 0, 0] ++ List.replicate 12 0x41 ++ [0, 0] ++
    List.replicate 4 0x41

/-- They stand at the start of a cluster of two sectors, marked and numbered as they should
    be. -/
def twentySlots : Directory where
  m := fun _ => 0
  fs := { fatsize := .fat16, fatSect := 1, rootdirSect := 3, clustSize := 2, dataBegin := 31 }
  curclust := 0
  cluster := fun j =>
    if j = 0 then fullSlot 0x54 else if j < 20 then fullSlot (20 - j.toUInt8)
    else List.replicate 32 0
  stale := fun _ => List.replicate 32 0

theorem not_safe_twentySlots : ¬ ∀ (dir : Directory) (i : Nat), i < dir.n → Safe dir i := by
  intro h
  obtain ⟨o, ho, -⟩ := h twentySlots 0 (by decide) fun _ => 0
  have hnone : (getVfatname twentySlots 0 (Mem.write (fun _ => 0) 0 [0])).isNone = true := by
    decide +kernel
  rw [ho] at hnone
  cases hnone

end Uboot.Fs.FatLongName
