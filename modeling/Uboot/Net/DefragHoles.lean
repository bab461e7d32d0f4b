/-
  Uboot.Net.DefragHoles

  What the four branches of `__NetDefragment` do to the linked list of hole
  descriptors, for any list of places: which places are linked afterwards, what
  `first_hole` and `done` say, which ends have changed, and that nothing but
  descriptors is written.
-/

import Uboot.Lib.Links
import Uboot.Net.Defrag

namespace Uboot.Net.Defrag

open Uboot.Lib

/-- The hole `h`, with the holes `pre` before it and `post` behind it, is found in the
    list that starts at `first`. -/
structure InList (m : Mem UInt8) (first : Nat) (pre : List Nat) (h : Nat) (post : List Nat) :
    Prop where
  links : Links (nextHole m) (prevHole m) 0 (pre ++ h :: post) 0
  nodup : (pre ++ h :: post).Nodup
  first : first = (pre ++ h :: post).headD 0
  small : ∀ k ∈ pre ++ h :: post, k < 65536
  /-- Index 0 is the first hole or none. -/
  behind : ∀ k ∈ post, k ≠ 0

/-- The places `xs` were linked in `m`, and `xs'` are after a change. -/
structure Changed (m : Mem UInt8) (xs xs' : List Nat) (r : Mem UInt8 × Nat × Bool) : Prop where
  links : Links (nextHole r.1) (prevHole r.1) 0 xs' 0
  first : xs' ≠ [] → r.2.1 = xs'.headD 0
  finished : r.2.2 = true ↔ xs' = []
  keep : ∀ z, (∀ k ∈ xs ++ xs', z < 8 * k ∨ 8 * k + 8 ≤ z) → r.1 z = m z

section Branches

variable {m : Mem UInt8} {first thisfrag len h : Nat} {pre post : List Nat}

/-- The links of the hole itself. -/
theorem InList.own (hin : InList m first pre h post) :
    prevHole m h = pre.getLastD 0 ∧ nextHole m h = post.headD 0 := by
  have hl := hin.links
  rw [links_append] at hl
  exact ⟨hl.2.1, hl.2.2.1⟩

/-- Complete overlap: the hole is removed. -/
theorem fixHoles_remove (hin : InList m first pre h post) (hge : thisfrag ≤ h)
    (hle : lastByte m h ≤ 8 * thisfrag + len) (hprev : ∀ y ∈ pre.getLast?, y ≠ 0) :
    Changed m (pre ++ h :: post) (pre ++ post) (fixHoles m first thisfrag len h) ∧
      lastByte (fixHoles m first thisfrag len h).1 = lastByte m := by
  obtain ⟨hp, hn⟩ := hin.own
  have hun : Links _ _ 0 (pre ++ post) 0 := Links.unlink hin.links hin.nodup
  have hcond : thisfrag ≤ h ∧ lastByte m h ≤ 8 * thisfrag + len := ⟨hge, hle⟩
  have hfirst := hin.first
  have hsmall := hin.small
  cases post with
  | nil =>
    rcases List.eq_nil_or_concat' pre with rfl | ⟨pre, y, rfl⟩
    · -- the last hole
      simp only [fixHoles, hcond, and_self, if_true, hp, hn, List.headD_nil, List.getLastD_nil]
      exact ⟨⟨trivial, by simp, by simp, fun _ _ => rfl⟩, trivial⟩
    · have hy0 := hprev y (by simp)
      have hyl := hsmall y (by simp)
      simp only [List.getLastD_concat, List.headD_nil] at hp hn
      simp only [fixHoles, hcond, and_self, if_true, hp, hn, hy0, false_and, if_false]
      refine ⟨⟨?_, ?_, by simp, ?_⟩, by simp⟩
      · simpa [nextHole_setNextHole] using hun
      · simpa using hfirst
      · intro z hz
        exact setNextHole_outside m (hz y (by simp))
  | cons w post =>
    have hw0 := hin.behind w (List.mem_cons_self ..)
    have hwl := hsmall w (by simp)
    rcases List.eq_nil_or_concat' pre with rfl | ⟨pre, y, rfl⟩
    · simp only [List.getLastD_nil, List.headD_cons] at hp hn
      simp only [fixHoles, hcond, and_self, if_true, hp, hn, hw0, and_false, if_false]
      refine ⟨⟨?_, by simp, by simp, ?_⟩, by simp⟩
      · simpa [prevHole_setPrevHole] using hun
      · intro z hz
        exact setPrevHole_outside m (hz w (by simp))
    · have hy0 := hprev y (by simp)
      have hyl := hsmall y (by simp)
      have hhw : h ≠ w := by
        have hnd := hin.nodup
        simp only [List.nodup_append, List.nodup_cons, List.mem_cons, not_or] at hnd
        exact hnd.2.1.1.1
      simp only [List.getLastD_concat, List.headD_cons] at hp hn
      simp only [fixHoles, hcond, and_self, if_true, hp, hn, hw0, hy0, if_false,
        prevHole_setPrevHole m hyl, nextHole_setPrevHole, Function.update_of_ne hhw]
      refine ⟨⟨?_, ?_, by simp, ?_⟩, by simp⟩
      · simpa [nextHole_setNextHole, prevHole_setPrevHole, hwl, hyl] using hun
      · simpa using hfirst
      · intro z hz
        exact (setNextHole_outside _ (hz y (by simp))).trans
          (setPrevHole_outside _ (hz w (by simp)))

/-- Overlap with the final part: the hole is shortened. -/
theorem fixHoles_shorten (hin : InList m first pre h post) (hlt : h < thisfrag)
    (hle : lastByte m h ≤ 8 * thisfrag + len) (hb : 8 * thisfrag < 65536) :
    Changed m (pre ++ h :: post) (pre ++ h :: post) (fixHoles m first thisfrag len h) ∧
      lastByte (fixHoles m first thisfrag len h).1 =
        Function.update (lastByte m) h (8 * thisfrag) := by
  simp only [fixHoles, show ¬ thisfrag ≤ h by omega, false_and, if_false, hle, if_true]
  refine ⟨⟨?_, fun _ => hin.first, by simp, ?_⟩, lastByte_setLastByte m hb⟩
  · simpa using hin.links
  · exact fun z hz => setLastByte_outside m (hz h (by simp))

/-- Overlap with the initial part: the hole is moved. -/
theorem fixHoles_move (hin : InList m first pre h post) (hge : thisfrag ≤ h)
    (hgt : 8 * thisfrag + len < lastByte m h) (hprev : ∀ y ∈ pre.getLast?, y ≠ 0) {newh : Nat}
    (hnew : thisfrag + len / 8 = newh) (hv : newh < 65536) (hnm : newh ∉ pre ++ post) :
    Changed m (pre ++ h :: post) (pre ++ newh :: post) (fixHoles m first thisfrag len h) ∧
      lastByte (fixHoles m first thisfrag len h).1 =
        Function.update (lastByte m) newh (lastByte m h) := by
  obtain ⟨hp, hn⟩ := hin.own
  rw [List.mem_append, not_or] at hnm
  have hrep : Links _ _ 0 (pre ++ newh :: post) 0 :=
    Links.replace hin.links hin.nodup hnm.1 hnm.2
  have hnot : ¬ lastByte m h ≤ 8 * thisfrag + len := by omega
  have hfirst := hin.first
  have hends := lastByte_copyHole m (h := h) newh
  simp only [fixHoles, hge, true_and, hnot, if_false, if_true, hnew, nextHole_copyHole,
    Function.update_self]
  cases post with
  | nil =>
    simp only [List.headD_nil] at hn
    rcases List.eq_nil_or_concat' pre with rfl | ⟨pre, y, rfl⟩
    · simp only [List.getLastD_nil] at hp
      simp only [hn, hp, ne_eq, not_true, if_false, prevHole_copyHole, Function.update_self]
      refine ⟨⟨?_, by simp, by simp, ?_⟩, hends⟩
      · simpa [prevHole_copyHole, nextHole_copyHole] using hrep
      · exact fun z hz => copyHole_outside m (hz newh (by simp))
    · have hy0 := hprev y (by simp)
      simp only [List.getLastD_concat] at hp
      simp only [hn, hp, ne_eq, not_true, if_false, prevHole_copyHole, Function.update_self, hy0,
        not_false_eq_true, if_true]
      refine ⟨⟨?_, ?_, by simp, ?_⟩, by simpa using hends⟩
      · simpa [prevHole_copyHole, nextHole_copyHole, nextHole_setNextHole, hv] using hrep
      · simpa using hfirst
      · exact fun z hz => (setNextHole_outside _ (hz y (by simp))).trans
          (copyHole_outside m (hz newh (by simp)))
  | cons w post =>
    have hw0 := hin.behind w (List.mem_cons_self ..)
    have hwv : newh ≠ w := fun e => hnm.2 (e ▸ List.mem_cons_self ..)
    simp only [List.headD_cons] at hn
    rcases List.eq_nil_or_concat' pre with rfl | ⟨pre, y, rfl⟩
    · simp only [List.getLastD_nil] at hp
      simp only [hn, hp, ne_eq, hw0, not_false_eq_true, not_true, if_true, if_false,
        prevHole_setPrevHole _ hv, Function.update_of_ne hwv, prevHole_copyHole,
        Function.update_self]
      refine ⟨⟨?_, by simp, by simp, ?_⟩, by simpa using hends⟩
      · simpa [prevHole_copyHole, nextHole_copyHole, prevHole_setPrevHole, hv] using hrep
      · exact fun z hz => (setPrevHole_outside _ (hz w (by simp))).trans
          (copyHole_outside m (hz newh (by simp)))
    · have hy0 := hprev y (by simp)
      simp only [List.getLastD_concat] at hp
      simp only [hn, hp, ne_eq, hw0, hy0, not_false_eq_true, if_true,
        prevHole_setPrevHole _ hv, Function.update_of_ne hwv, prevHole_copyHole,
        Function.update_self]
      refine ⟨⟨?_, ?_, by simp, ?_⟩, by simpa using hends⟩
      · simpa [prevHole_copyHole, nextHole_copyHole, prevHole_setPrevHole, nextHole_setNextHole,
          hv] using hrep
      · simpa using hfirst
      · exact fun z hz => (setNextHole_outside _ (hz y (by simp))).trans
          ((setPrevHole_outside _ (hz w (by simp))).trans
            (copyHole_outside m (hz newh (by simp))))

/-- The fragment sits in the middle: the hole is split. -/
theorem fixHoles_split (hin : InList m first pre h post) (hlt : h < thisfrag)
    (hgt : 8 * thisfrag + len < lastByte m h) (hb : 8 * thisfrag < 65536) {newh : Nat}
    (hnew : thisfrag + len / 8 = newh) (hv : newh < 65536) (hnm : newh ∉ pre ++ h :: post) :
    Changed m (pre ++ h :: post) (pre ++ h :: newh :: post) (fixHoles m first thisfrag len h) ∧
      lastByte (fixHoles m first thisfrag len h).1 =
        Function.update (Function.update (lastByte m) newh (lastByte m h)) h (8 * thisfrag) := by
  obtain ⟨-, hn⟩ := hin.own
  have hhl := hin.small h (by simp)
  rw [List.mem_append, List.mem_cons, not_or, not_or] at hnm
  obtain ⟨hnpre, hne, hnpost⟩ := hnm
  have hins : Links _ _ 0 (pre ++ h :: newh :: post) 0 :=
    Links.insert hin.links hin.nodup hnpre hnpost hne
  have hnot : ¬ lastByte m h ≤ 8 * thisfrag + len := by omega
  have hfirst := hin.first
  -- the four assignments before the last one
  generalize hM : setPrevHole (setNextHole (setLastByte (copyHole m newh h) h (8 * thisfrag)) h newh)
    newh h = M
  have hnext : nextHole M =
      Function.update (Function.update (nextHole m) newh (nextHole m h)) h newh := by
    rw [← hM, nextHole_setPrevHole, nextHole_setNextHole _ hv, nextHole_setLastByte,
      nextHole_copyHole]
  have hprev : prevHole M = Function.update (prevHole m) newh h := by
    rw [← hM, prevHole_setPrevHole _ hhl, prevHole_setNextHole, prevHole_setLastByte,
      prevHole_copyHole, Function.update_idem]
  have hends : lastByte M =
      Function.update (Function.update (lastByte m) newh (lastByte m h)) h (8 * thisfrag) := by
    rw [← hM]
    simp [lastByte_setLastByte _ hb, lastByte_copyHole]
  have hkeep : ∀ z, (∀ k ∈ pre ++ h :: post ++ (pre ++ h :: newh :: post),
      z < 8 * k ∨ 8 * k + 8 ≤ z) → M z = m z := by
    intro z hz
    have hzh := hz h (by simp)
    have hzn := hz newh (by simp)
    rw [← hM, setPrevHole_outside _ hzn, setNextHole_outside _ hzh, setLastByte_outside _ hzh,
      copyHole_outside m hzn]
  have hnv : nextHole M newh = post.headD 0 := by
    rw [hnext, Function.update_of_ne hne, Function.update_self, hn]
  simp only [fixHoles, show ¬ thisfrag ≤ h by omega, false_and, hnot, if_false, hnew, hM]
  cases post with
  | nil =>
    simp only [hnv, List.headD_nil, ne_eq, not_true, if_false]
    refine ⟨⟨?_, ?_, by simp, hkeep⟩, hends⟩
    · simpa [hnext, hprev] using hins
    · intro _
      simpa using hfirst
  | cons w post =>
    have hw0 := hin.behind w (List.mem_cons_self ..)
    simp only [hnv, List.headD_cons, ne_eq, hw0, not_false_eq_true, if_true]
    refine ⟨⟨?_, ?_, by simp, ?_⟩, by simpa using hends⟩
    · simpa [hnext, hprev, prevHole_setPrevHole, hv] using hins
    · intro _
      simpa using hfirst
    · exact fun z hz => (setPrevHole_outside _ (hz w (by simp))).trans (hkeep z hz)

end Branches

/-- A hole that starts with the fragment and seems to be the first is dealt with
    whatever `first_hole` says, except that nothing is left when it is the last. -/
theorem fixHoles_firstHole {m : Mem UInt8} {f f' thisfrag len h : Nat} (hge : thisfrag ≤ h)
    (hp : prevHole m h = 0)
    (hnext : 8 * thisfrag + len < lastByte m h → nextHole m h ≠ thisfrag + len / 8)
    (hlt : thisfrag + len / 8 < 65536) :
    (fixHoles m f thisfrag len h).1 = (fixHoles m f' thisfrag len h).1 ∧
      (fixHoles m f thisfrag len h).2.2 = (fixHoles m f' thisfrag len h).2.2 ∧
      ((fixHoles m f thisfrag len h).2.2 = false →
        (fixHoles m f thisfrag len h).2.1 = (fixHoles m f' thisfrag len h).2.1) := by
  by_cases hle : lastByte m h ≤ 8 * thisfrag + len
  · by_cases hn : nextHole m h = 0
    · simp [fixHoles, hge, hle, hp, hn]
    · simp [fixHoles, hge, hle, hp, hn]
  · by_cases hn : nextHole m h = 0
    · simp [fixHoles, hge, hle, hn, hp, nextHole_copyHole, prevHole_copyHole]
    · simp [fixHoles, hge, hle, hn, hp, nextHole_copyHole, prevHole_copyHole,
        prevHole_setPrevHole _ hlt, Function.update_of_ne (hnext (by omega)).symm]

/-- The same for the whole step. -/
theorem takeFragment_firstHole {b : PktBuff} {ip : Fragment} {f h : Nat} (hge : ip.offset8 ≤ h)
    (hp : prevHole b.payload h = 0)
    (hnext : ip.moreFragments = true → 8 * ip.offset8 + ip.body.length < lastByte b.payload h →
      nextHole b.payload h ≠ ip.offset8 + ip.body.length / 8)
    (hstop : 8 * ip.offset8 + ip.body.length < 65536)
    (hlt : ip.offset8 + ip.body.length / 8 < 65536) :
    (takeFragment b ip h).1 = (takeFragment { b with firstHole := f } ip h).1 ∧
      ((takeFragment b ip h).1 = none →
        (takeFragment b ip h).2 = (takeFragment { b with firstHole := f } ip h).2) := by
  generalize hm : (if ip.moreFragments then b.payload else
    setLastByte b.payload h (8 * ip.offset8 + ip.body.length)) = m
  have hlinks : prevHole m h = 0 ∧ (8 * ip.offset8 + ip.body.length < lastByte m h →
      nextHole m h ≠ ip.offset8 + ip.body.length / 8) := by
    rw [← hm]
    split
    · next hmore => exact ⟨hp, hnext hmore⟩
    · refine ⟨by simpa using hp, fun hlt => ?_⟩
      rw [lastByte_setLastByte _ hstop, Function.update_self] at hlt
      omega
  obtain ⟨h1, h2, h3⟩ :=
    @fixHoles_firstHole m b.firstHole f _ _ _ hge hlinks.1 hlinks.2 hlt
  simp only [takeFragment, hm, h1, h2]
  refine ⟨trivial, ?_⟩
  intro hnone
  have hdone : (fixHoles m f ip.offset8 ip.body.length h).2.2 = false := by
    by_contra ht
    simp [ht] at hnone
  rw [h3 (h2.trans hdone)]

end Uboot.Net.Defrag
