/-
  Uboot.Net.DefragSound

  What `__NetDefragment` does with the fragments of one datagram, in any order, with
  any of them missing or repeated.

  The abstract state is the list of holes, each from one fragment up to another; taking
  a fragment out of it is `rest`.  `Rep` says how the buffer represents such a list:
  the descriptors are linked in its order and the bytes of every fragment that is not
  in a hole are in their place.
-/

import Uboot.Lib.Run
import Uboot.Net.DefragHoles

namespace Uboot.Net.Defrag

open Uboot.Lib

/-! ## Datagrams and their fragments -/

/-- A datagram, cut into `n` fragments; fragment `k` has the bytes from `cut k` up to
    `cut (k + 1)`. -/
structure Datagram where
  id : Nat
  data : List UInt8
  n : Nat
  cut : Nat → Nat
  /-- The rest of the IP header each fragment comes with. -/
  header : Nat → List UInt8
  pos : 0 < n
  cut_zero : cut 0 = 0
  cut_last : cut n = data.length
  mono : ∀ k, k < n → cut k ≤ cut (k + 1)
  aligned : ∀ k, k < n → 8 ∣ cut k
  fits : data.length ≤ ipMaxUdp

/-- Fragment `k` on the wire. -/
def Datagram.frag (d : Datagram) (k : Nat) : Fragment where
  ipId := d.id
  ipOff := d.cut k / 8 + if k + 1 < d.n then 8192 else 0
  header := d.header k
  body := (d.data.drop (d.cut k)).take (d.cut (k + 1) - d.cut k)

/-- A fragment that says more follow has bytes, and does not reach the end of the
    buffer, where the descriptor of the hole behind it would find no room. -/
structure Datagram.Solid (d : Datagram) : Prop where
  nonempty : ∀ k, k + 1 < d.n → d.cut k < d.cut (k + 1)
  room : ∀ k, k + 1 < d.n → d.cut (k + 1) < ipMaxUdp

/-- Where fragment `k` starts, in units of eight bytes. -/
def Datagram.ix (d : Datagram) (k : Nat) : Nat := d.cut k / 8

variable {d : Datagram}

theorem Datagram.cut_eq (d : Datagram) {k : Nat} (hk : k < d.n) : d.cut k = 8 * d.ix k :=
  (Nat.mul_div_cancel' (d.aligned k hk)).symm

theorem Datagram.cut_le (d : Datagram) {j k : Nat} (hjk : j ≤ k) (hk : k ≤ d.n) :
    d.cut j ≤ d.cut k := by
  induction k with
  | zero => rw [Nat.le_zero.mp hjk]
  | succ k ih =>
    rcases Nat.lt_or_ge j (k + 1) with h | h
    · exact Nat.le_trans (ih (by omega) (by omega)) (d.mono k (by omega))
    · rw [Nat.le_antisymm hjk h]

theorem Datagram.cut_le_length (d : Datagram) {k : Nat} (hk : k ≤ d.n) :
    d.cut k ≤ d.data.length := d.cut_last ▸ d.cut_le hk (Nat.le_refl _)

theorem Datagram.ix_lt (d : Datagram) {k : Nat} (hk : k ≤ d.n) : d.ix k < 8192 := by
  have h1 := d.cut_le_length hk
  have h2 := d.fits
  simp only [ix, ipMaxUdp] at *
  omega

/-- A fragment before another one ends before it, and has eight bytes at least. -/
theorem Datagram.Solid.cut_lt (hs : d.Solid) {j k : Nat} (hjk : j < k) (hk : k < d.n) :
    d.cut j + 8 ≤ d.cut k := by
  have h1 := hs.nonempty j (by omega)
  have h2 := d.cut_le (show j + 1 ≤ k by omega) (by omega)
  have h3 := d.cut_eq (show j < d.n by omega)
  have h4 := d.cut_eq hk
  omega

theorem Datagram.Solid.ix_lt_ix (hs : d.Solid) {j k : Nat} (hjk : j < k) (hk : k < d.n) :
    d.ix j < d.ix k := by
  have h := hs.cut_lt hjk hk
  simp only [ix]
  omega

theorem Datagram.Solid.ix_inj (hs : d.Solid) {j k : Nat} (hj : j < d.n) (hk : k < d.n)
    (h : d.ix j = d.ix k) : j = k := by
  rcases Nat.lt_trichotomy j k with hlt | heq | hgt
  · have := hs.ix_lt_ix hlt hk
    omega
  · exact heq
  · have := hs.ix_lt_ix hgt hj
    omega

/-- There are far fewer fragments than steps the walk may take. -/
theorem Datagram.Solid.n_le (hs : d.Solid) : d.n ≤ 8192 := by
  have hix : ∀ k, k < d.n → k ≤ d.ix k := by
    intro k hk
    induction k with
    | zero => exact Nat.zero_le _
    | succ k ih =>
      have h1 := ih (by omega)
      have h2 := hs.ix_lt_ix (show k < k + 1 by omega) hk
      omega
  have h1 := hix (d.n - 1) (by have := d.pos; omega)
  have h2 := d.ix_lt (show d.n - 1 ≤ d.n by omega)
  omega

/-- The descriptor of a hole stands clear of the bytes of the fragments it does not
    start with. -/
theorem Datagram.Solid.desc_apart (hs : d.Solid) {a k : Nat} (ha : a < d.n) (hk : k < d.n)
    (hne : a ≠ k) : 8 * d.ix a + 8 ≤ d.cut k ∨ d.cut (k + 1) ≤ 8 * d.ix a := by
  rw [← d.cut_eq ha]
  rcases Nat.lt_or_gt_of_ne hne with h | h
  · exact .inl (hs.cut_lt h hk)
  · exact .inr (d.cut_le h (by omega))

theorem Datagram.frag_offset8 (d : Datagram) {k : Nat} (hk : k < d.n) :
    (d.frag k).offset8 = d.ix k := by
  have h := d.ix_lt (show k ≤ d.n by omega)
  simp only [Fragment.offset8, frag, ix] at *
  split <;> omega

theorem Datagram.frag_more (d : Datagram) {k : Nat} (hk : k < d.n) :
    (d.frag k).moreFragments = decide (k + 1 < d.n) := by
  have h := d.ix_lt (show k ≤ d.n by omega)
  simp only [Fragment.moreFragments, frag, ix] at *
  by_cases hl : k + 1 < d.n
  · simp only [hl, if_true, decide_true, decide_eq_true_eq]
    omega
  · simp only [hl, if_false, decide_false, decide_eq_false_iff_not]
    omega

theorem Datagram.frag_length (d : Datagram) {k : Nat} (hk : k < d.n) :
    (d.frag k).body.length = d.cut (k + 1) - d.cut k := by
  have h1 := d.cut_le_length (show k + 1 ≤ d.n by omega)
  simp only [frag, List.length_take, List.length_drop]
  omega

theorem Datagram.frag_end (d : Datagram) {k : Nat} (hk : k < d.n) :
    8 * d.ix k + (d.frag k).body.length = d.cut (k + 1) := by
  have h1 := d.mono k hk
  rw [d.frag_length hk, ← d.cut_eq hk]
  omega

/-! ## Holes -/

/-- Holes in order, each with a fragment or more between it and the next. -/
structure Spaced (n : Nat) (L : List (Nat × Nat)) : Prop where
  gaps : L.Pairwise fun x y => x.2 < y.1
  inside : ∀ x ∈ L, x.1 < x.2 ∧ x.2 ≤ n

/-- Fragment `k` is in a hole. -/
def Missing (L : List (Nat × Nat)) (k : Nat) : Prop := ∃ x ∈ L, x.1 ≤ k ∧ k < x.2

/-- What is left of a hole when fragment `i` is there. -/
def rest (x : Nat × Nat) (i : Nat) : List (Nat × Nat) :=
  (if x.1 < i then [(x.1, i)] else []) ++ if i + 1 < x.2 then [(i + 1, x.2)] else []

theorem missing_append {A B : List (Nat × Nat)} {k : Nat} :
    Missing (A ++ B) k ↔ Missing A k ∨ Missing B k := by
  simp only [Missing, List.mem_append, or_and_right, exists_or]

theorem missing_cons {x : Nat × Nat} {A : List (Nat × Nat)} {k : Nat} :
    Missing (x :: A) k ↔ x.1 ≤ k ∧ k < x.2 ∨ Missing A k := by
  simp [Missing]

theorem mem_rest {x y : Nat × Nat} {i : Nat} :
    y ∈ rest x i ↔ y = (x.1, i) ∧ x.1 < i ∨ y = (i + 1, x.2) ∧ i + 1 < x.2 := by
  unfold rest
  split <;> split <;> simp [*]

theorem missing_rest {x : Nat × Nat} {i k : Nat} (h1 : x.1 ≤ i) (h2 : i < x.2) :
    Missing (rest x i) k ↔ x.1 ≤ k ∧ k < x.2 ∧ k ≠ i := by
  constructor
  · rintro ⟨y, hy, hk⟩
    rcases mem_rest.mp hy with ⟨rfl, h⟩ | ⟨rfl, h⟩ <;> simp only at hk <;> omega
  · rintro ⟨ha, hb, hne⟩
    rcases Nat.lt_or_gt_of_ne hne with h | h
    · exact ⟨(x.1, i), mem_rest.mpr (.inl ⟨rfl, by omega⟩), ha, h⟩
    · exact ⟨(i + 1, x.2), mem_rest.mpr (.inr ⟨rfl, by omega⟩), h, hb⟩

section Take

variable {n i : Nat} {pre post : List (Nat × Nat)} {x : Nat × Nat}

/-- The holes before and behind one of them. -/
theorem Spaced.around (h : Spaced n (pre ++ x :: post)) :
    (∀ y ∈ pre, y.2 < x.1) ∧ ∀ y ∈ post, x.2 < y.1 := by
  have hg := List.pairwise_append.mp h.gaps
  exact ⟨fun y hy => hg.2.2 y hy x (List.mem_cons_self ..),
    fun y hy => (List.pairwise_cons.mp hg.2.1).1 y hy⟩

/-- Taking fragment `i` out of its hole takes it out of the list. -/
theorem missing_take (h : Spaced n (pre ++ x :: post)) (h1 : x.1 ≤ i) (h2 : i < x.2) (k : Nat) :
    Missing (pre ++ (rest x i ++ post)) k ↔ Missing (pre ++ x :: post) k ∧ k ≠ i := by
  obtain ⟨hpre, hpost⟩ := h.around
  have hin := h.inside
  rw [missing_append, missing_append, missing_append, missing_cons, missing_rest h1 h2]
  constructor
  · rintro (⟨y, hy, hk⟩ | hk | ⟨y, hy, hk⟩)
    · have := hpre y hy
      exact ⟨.inl ⟨y, hy, hk⟩, by omega⟩
    · exact ⟨.inr (.inl ⟨hk.1, hk.2.1⟩), hk.2.2⟩
    · have := hpost y hy
      exact ⟨.inr (.inr ⟨y, hy, hk⟩), by omega⟩
  · rintro ⟨hk | hk | hk, hne⟩
    · exact .inl hk
    · exact .inr (.inl ⟨hk.1, hk.2, hne⟩)
    · exact .inr (.inr hk)

/-- What is left is in order. -/
theorem Spaced.take (h : Spaced n (pre ++ x :: post)) (h1 : x.1 ≤ i) (h2 : i < x.2) :
    Spaced n (pre ++ (rest x i ++ post)) := by
  obtain ⟨hpre, hpost⟩ := h.around
  obtain ⟨gpre, gxp, gcross⟩ := List.pairwise_append.mp h.gaps
  have gpost := (List.pairwise_cons.mp gxp).2
  have hx := h.inside x (by simp)
  constructor
  · apply List.pairwise_append.mpr
    refine ⟨gpre, List.pairwise_append.mpr ⟨?_, gpost, ?_⟩, ?_⟩
    · unfold rest
      split <;> split <;> simp
    · intro y hy z hz
      have := hpost z hz
      rcases mem_rest.mp hy with ⟨rfl, _⟩ | ⟨rfl, _⟩ <;> simp only <;> omega
    · intro y hy z hz
      have := hpre y hy
      rcases List.mem_append.mp hz with hz | hz
      · rcases mem_rest.mp hz with ⟨rfl, _⟩ | ⟨rfl, _⟩ <;> simp only <;> omega
      · exact gcross y hy z (List.mem_cons_of_mem _ hz)
  · intro y hy
    rcases List.mem_append.mp hy with hy | hy
    · exact h.inside y (by simp [hy])
    · rcases List.mem_append.mp hy with hy | hy
      · rcases mem_rest.mp hy with ⟨rfl, hlt⟩ | ⟨rfl, hlt⟩ <;> simp only <;> omega
      · exact h.inside y (by simp [hy])

end Take

/-! ## The walk -/

/-- Where the descriptor of a hole that goes up to fragment `b` says that it ends.  The
    hole that goes to the end of the datagram has no end yet. -/
def Datagram.endByte (d : Datagram) (b : Nat) : Nat := if b = d.n then 0xffff else d.cut b

/-- The places of the descriptors. -/
def Datagram.ixs (d : Datagram) (L : List (Nat × Nat)) : List Nat := L.map fun x => d.ix x.1

@[simp] theorem ixs_nil : d.ixs [] = [] := rfl

@[simp] theorem ixs_cons {x : Nat × Nat} {L : List (Nat × Nat)} :
    d.ixs (x :: L) = d.ix x.1 :: d.ixs L := rfl

@[simp] theorem ixs_append {A B : List (Nat × Nat)} : d.ixs (A ++ B) = d.ixs A ++ d.ixs B :=
  List.map_append

theorem endByte_lt (hs : d.Solid) {b i : Nat} (hb : b ≤ d.n) (hi : i < d.n) :
    d.endByte b < d.cut i ↔ b < i := by
  have hi' := d.cut_le_length (show i ≤ d.n by omega)
  have hfit := d.fits
  simp only [ipMaxUdp] at hfit
  unfold Datagram.endByte
  split
  · omega
  · rcases Nat.lt_trichotomy b i with h | h | h
    · have := hs.cut_lt h hi
      omega
    · simp [h]
    · have := hs.cut_lt h (by omega)
      omega

/-- No hole but the first one has index 0. -/
theorem ix_pos (hs : d.Solid) {a : Nat} (h0 : 0 < a) (ha : a < d.n) : 0 < d.ix a := by
  have h := hs.ix_lt_ix h0 ha
  omega

theorem nodup_ixs (hs : d.Solid) {L : List (Nat × Nat)} (h : Spaced d.n L) : (d.ixs L).Nodup := by
  apply List.pairwise_map.mpr
  refine h.gaps.imp_of_mem ?_
  intro x y hx hy hxy
  have h1 := h.inside x hx
  have h2 := h.inside y hy
  exact Nat.ne_of_lt (hs.ix_lt_ix (by omega) (by omega))

/-- The walk stops at the first hole that ends at fragment `i` or behind it. -/
theorem findHole_spec (hs : d.Solid) {m : Mem UInt8} {i : Nat} (hi : i < d.n)
    {L : List (Nat × Nat)} {p fuel : Nat} (hsp : Spaced d.n L)
    (hl : Links (nextHole m) (prevHole m) p (d.ixs L) 0)
    (he : ∀ x ∈ L, lastByte m (d.ix x.1) = d.endByte x.2) (hne : L ≠ [])
    (hfuel : ∀ x ∈ L, d.n < x.1 + fuel) :
    (∃ pre x post, L = pre ++ x :: post ∧ (∀ y ∈ pre, y.2 < i) ∧ i ≤ x.2 ∧
      findHole m (d.cut i) fuel ((d.ixs L).headD 0) = some (d.ix x.1)) ∨
    (∀ y ∈ L, y.2 < i) ∧ findHole m (d.cut i) fuel ((d.ixs L).headD 0) = none := by
  induction L generalizing p fuel with
  | nil => exact absurd rfl hne
  | cons x L ih =>
    have hx := hsp.inside x (List.mem_cons_self ..)
    obtain ⟨fuel, rfl⟩ : ∃ f, fuel = f + 1 :=
      ⟨fuel - 1, by have := hfuel x (List.mem_cons_self ..); omega⟩
    rw [ixs_cons, links_cons] at hl
    obtain ⟨_, hnext, hl'⟩ := hl
    have hend := he x (List.mem_cons_self ..)
    simp only [ixs_cons, List.headD_cons, findHole, hend, endByte_lt hs hx.2 hi]
    by_cases hlt : x.2 < i
    · simp only [hlt, if_true, hnext]
      cases L with
      | nil => exact .inr ⟨by simpa using hlt, by simp⟩
      | cons y L =>
        -- on to the next hole, whose index is not 0
        have hxy := (List.pairwise_cons.mp hsp.gaps).1 y (List.mem_cons_self ..)
        have hy := hsp.inside y (by simp)
        have hpos := ix_pos hs (show 0 < y.1 by omega) (show y.1 < d.n by omega)
        have hsp' : Spaced d.n (y :: L) :=
          ⟨(List.pairwise_cons.mp hsp.gaps).2, fun z hz => hsp.inside z (List.mem_cons_of_mem _ hz)⟩
        have hfuel' : ∀ z ∈ y :: L, d.n < z.1 + fuel := by
          intro z hz
          have h1 := (List.pairwise_cons.mp hsp.gaps).1 z hz
          have h2 := hfuel x (List.mem_cons_self ..)
          omega
        have hhead : (d.ixs (y :: L)).headD 0 = d.ix y.1 := rfl
        rw [hhead, if_neg (by omega), ← hhead]
        rcases ih hsp' hl' (fun z hz => he z (List.mem_cons_of_mem _ hz)) (by simp) hfuel' with
          ⟨pre, z, post, hL, hpre, hz, hgo⟩ | ⟨hall, hgo⟩
        · refine .inl ⟨x :: pre, z, post, by rw [hL]; rfl, ?_, hz, hgo⟩
          intro w hw
          rcases List.mem_cons.mp hw with rfl | hw
          · exact hlt
          · exact hpre w hw
        · refine .inr ⟨?_, hgo⟩
          intro w hw
          rcases List.mem_cons.mp hw with rfl | hw
          · exact hlt
          · exact hall w hw
    · exact .inl ⟨[], x, L, rfl, by simp, by omega, by simp [hlt]⟩

/-! ## The four changes of a hole -/

/-- What `fixHoles` achieves when it takes fragment `i` out of the holes `L` of the
    buffer `m`, so that the holes `L'` are left: the descriptors are linked anew, the
    first hole is known, `done` says that no hole is left, and nothing but descriptors
    of missing fragments has changed. -/
structure Fixed (d : Datagram) (m : Mem UInt8) (L L' : List (Nat × Nat))
    (r : Mem UInt8 × Nat × Bool) : Prop where
  links : Links (nextHole r.1) (prevHole r.1) 0 (d.ixs L') 0
  ends : ∀ y ∈ L', lastByte r.1 (d.ix y.1) = d.endByte y.2
  first : L' ≠ [] → r.2.1 = (d.ixs L').headD 0
  finished : r.2.2 = true ↔ L' = []
  keep : ∀ z, (∀ a, Missing L a → z < 8 * d.ix a ∨ 8 * d.ix a + 8 ≤ z) → r.1 z = m z

section Fix

variable {m : Mem UInt8} {first i e : Nat} {pre post : List (Nat × Nat)} {x : Nat × Nat}

/-- The buffer when the hole `x` is found and fragment `i` is in it.  `e` is the end in
    its descriptor, which a last fragment has just set to the end of the datagram. -/
structure AtHole (d : Datagram) (m : Mem UInt8) (first i e : Nat) (pre post : List (Nat × Nat))
    (x : Nat × Nat) : Prop where
  spaced : Spaced d.n (pre ++ x :: post)
  links : Links (nextHole m) (prevHole m) 0 (d.ixs (pre ++ x :: post)) 0
  ends : ∀ y ∈ pre ++ post, lastByte m (d.ix y.1) = d.endByte y.2
  found : lastByte m (d.ix x.1) = e
  firstHole : first = (d.ixs (pre ++ x :: post)).headD 0
  low : x.1 ≤ i
  high : i < x.2
  /-- Not the second hole from its beginning, while the first hole has index 0. -/
  notSecond : x.1 = i → ∀ y ∈ pre.getLast?, y.1 ≠ 0

theorem AtHole.nodup (hs : d.Solid) (h : AtHole d m first i e pre post x) :
    (d.ixs pre ++ d.ix x.1 :: d.ixs post).Nodup := by
  have := nodup_ixs hs h.spaced
  rwa [ixs_append, ixs_cons] at this

theorem AtHole.bounds (h : AtHole d m first i e pre post x) :
    (∀ y ∈ pre, y.2 < x.1 ∧ y.1 < d.n) ∧ (∀ y ∈ post, x.2 < y.1 ∧ y.1 < d.n) ∧ x.2 ≤ d.n := by
  obtain ⟨hpre, hpost⟩ := h.spaced.around
  have hin := h.spaced.inside
  refine ⟨fun y hy => ⟨hpre y hy, ?_⟩, fun y hy => ⟨hpost y hy, ?_⟩, (hin x (by simp)).2⟩
  · have := hin y (by simp [hy])
    omega
  · have := hin y (by simp [hy])
    omega

/-- The first missing fragment of a hole is missing. -/
theorem missing_of_mem {n : Nat} {L : List (Nat × Nat)} (h : Spaced n L) {y : Nat × Nat}
    (hy : y ∈ L) : Missing L y.1 := ⟨y, hy, Nat.le_refl _, (h.inside y hy).1⟩

/-- The index of a neighbour is that of a missing fragment, below 2^16, and not 0
    except for the first hole. -/
theorem AtHole.neighbour (hs : d.Solid) (h : AtHole d m first i e pre post x) :
    (∀ z ∈ post, 0 < d.ix z.1 ∧ d.ix z.1 < 65536) ∧ (∀ y ∈ pre, d.ix y.1 < 65536) := by
  obtain ⟨hbpre, hbpost, _⟩ := h.bounds
  refine ⟨fun z hz => ?_, fun y hy => ?_⟩
  · have h1 := hbpost z hz
    have h2 := ix_pos hs (show 0 < z.1 by omega) h1.2
    have h3 := d.ix_lt (show z.1 ≤ d.n by omega)
    omega
  · have h1 := hbpre y hy
    have h3 := d.ix_lt (show y.1 ≤ d.n by omega)
    omega

/-- The hole before one that a fragment fills from the beginning has not index 0. -/
theorem AtHole.prev_ne_zero (hs : d.Solid) (h : AtHole d m first i e pre post x) (hi : x.1 = i)
    {y : Nat × Nat} (hy : y ∈ pre.getLast?) : d.ix y.1 ≠ 0 := by
  have h0 := h.notSecond hi y hy
  have hlt := (h.bounds.1 y (List.mem_of_mem_getLast? hy)).2
  exact Nat.ne_of_gt (ix_pos hs (by omega) hlt)

/-- The descriptors are in the linked list. -/
theorem AtHole.inList (hs : d.Solid) (h : AtHole d m first i e pre post x) :
    InList m first (d.ixs pre) (d.ix x.1) (d.ixs post) where
  links := by simpa using h.links
  nodup := h.nodup hs
  first := by simpa using h.firstHole
  small := by
    obtain ⟨hpost, hpre⟩ := h.neighbour hs
    have hx := d.ix_lt (show x.1 ≤ d.n by have := h.bounds.2.2; have := h.low; have := h.high; omega)
    intro k hk
    rcases List.mem_append.mp hk with hk | hk
    · obtain ⟨y, hy, rfl⟩ := List.mem_map.mp hk
      exact hpre y hy
    · rcases List.mem_cons.mp hk with rfl | hk
      · omega
      · obtain ⟨z, hz, rfl⟩ := List.mem_map.mp hk
        exact (hpost z hz).2
  behind := by
    intro k hk
    obtain ⟨z, hz, rfl⟩ := List.mem_map.mp hk
    exact Nat.ne_of_gt ((h.neighbour hs).1 z hz).1

/-- The hole before one that a fragment fills from the beginning has not index 0. -/
theorem AtHole.last_ne_zero (hs : d.Solid) (h : AtHole d m first i e pre post x) (hi : x.1 = i) :
    ∀ k ∈ (d.ixs pre).getLast?, k ≠ 0 := by
  intro k hk
  rcases List.eq_nil_or_concat' pre with rfl | ⟨pre, y, rfl⟩
  · simp at hk
  · obtain rfl : d.ix y.1 = k := by simpa using hk
    exact h.prev_ne_zero hs hi (by simp)

/-- A change of the linked list, in terms of holes. -/
theorem fixed_of_changed {L L' : List (Nat × Nat)} {r : Mem UInt8 × Nat × Bool}
    (hch : Changed m (d.ixs L) (d.ixs L') r)
    (hends : ∀ y ∈ L', lastByte r.1 (d.ix y.1) = d.endByte y.2)
    (hmiss : ∀ y ∈ L ++ L', Missing L y.1) : Fixed d m L L' r where
  links := hch.links
  ends := hends
  first := fun hne => hch.first (by simpa [Datagram.ixs] using hne)
  finished := by rw [hch.finished, Datagram.ixs, List.map_eq_nil_iff]
  keep := by
    intro z hz
    apply hch.keep z
    intro k hk
    rw [← ixs_append] at hk
    obtain ⟨y, hy, rfl⟩ := List.mem_map.mp hk
    exact hz y.1 (hmiss y hy)

/-- Complete overlap: the hole is removed. -/
theorem fix_remove (hs : d.Solid) {len : Nat} (h : AtHole d m first i e pre post x)
    (hi : x.1 = i) (he : e ≤ 8 * d.ix i + len) :
    Fixed d m (pre ++ x :: post) (pre ++ post) (fixHoles m first (d.ix i) len (d.ix x.1)) := by
  obtain ⟨hch, hlast⟩ := fixHoles_remove (h.inList hs) (show d.ix i ≤ d.ix x.1 by rw [hi])
    (show lastByte m (d.ix x.1) ≤ 8 * d.ix i + len by rw [h.found]; exact he)
    (h.last_ne_zero hs hi)
  apply fixed_of_changed (by simpa using hch)
  · intro y hy
    rw [hlast, h.ends y hy]
  · intro y hy
    apply missing_of_mem h.spaced
    simp only [List.mem_append, List.mem_cons] at hy ⊢
    grind

/-- The other holes have other descriptors. -/
theorem AtHole.ne (hs : d.Solid) (h : AtHole d m first i e pre post x) :
    ∀ y ∈ pre ++ post, d.ix y.1 ≠ d.ix x.1 := by
  intro y hy
  obtain ⟨hpre, hpost, hx⟩ := h.bounds
  have := h.low
  have := h.high
  rcases List.mem_append.mp hy with hy | hy
  · have h1 := hpre y hy
    have h2 := (h.spaced.inside y (by simp [hy])).1
    exact fun e => absurd (hs.ix_inj h1.2 (by omega) e) (by omega)
  · have h1 := hpost y hy
    exact fun e => absurd (hs.ix_inj h1.2 (by omega) e) (by omega)

/-- Overlap with the final part: the hole is shortened. -/
theorem fix_shorten (hs : d.Solid) {len : Nat} (h : AtHole d m first i e pre post x)
    (hi : x.1 < i) (he : e ≤ 8 * d.ix i + len) :
    Fixed d m (pre ++ x :: post) (pre ++ (x.1, i) :: post)
      (fixHoles m first (d.ix i) len (d.ix x.1)) := by
  have hin : i < d.n := by have := h.bounds.2.2; have := h.high; omega
  have hbound : 8 * d.ix i < 65536 := by have := d.ix_lt (show i ≤ d.n by omega); omega
  obtain ⟨hch, hlast⟩ := fixHoles_shorten (h.inList hs) (hs.ix_lt_ix hi hin)
    (show lastByte m (d.ix x.1) ≤ 8 * d.ix i + len by rw [h.found]; exact he) hbound
  apply fixed_of_changed (by simpa using hch)
  · intro y hy
    rw [hlast]
    rcases List.mem_append.mp hy with hy' | hy'
    · rw [Function.update_of_ne (h.ne hs y (by simp [hy'])), h.ends y (by simp [hy'])]
    · rcases List.mem_cons.mp hy' with rfl | hy'
      · rw [Function.update_self, ← d.cut_eq hin, Datagram.endByte, if_neg (by simp; omega)]
      · rw [Function.update_of_ne (h.ne hs y (by simp [hy'])), h.ends y (by simp [hy'])]
  · intro y hy
    have hx : Missing (pre ++ x :: post) x.1 := missing_of_mem h.spaced (by simp)
    have hother : ∀ z ∈ pre ++ post, Missing (pre ++ x :: post) z.1 := fun z hz =>
      missing_of_mem h.spaced (by simp only [List.mem_append, List.mem_cons] at hz ⊢; grind)
    simp only [List.mem_append, List.mem_cons] at hy
    rcases hy with (hy | rfl | hy) | hy | rfl | hy
    · exact hother y (by simp [hy])
    · exact hx
    · exact hother y (by simp [hy])
    · exact hother y (by simp [hy])
    · exact hx
    · exact hother y (by simp [hy])

/-- The fragment behind the one that is taken is in the hole still, and no other hole
    has its descriptor there. -/
theorem AtHole.behind (hs : d.Solid) (h : AtHole d m first i e pre post x) (hx : i + 1 < x.2) :
    i + 1 < d.n ∧ Missing (pre ++ x :: post) (i + 1) ∧
      ∀ y ∈ pre ++ post, d.ix y.1 ≠ d.ix (i + 1) := by
  obtain ⟨hpre, hpost, hxn⟩ := h.bounds
  have hlow := h.low
  refine ⟨by omega, ⟨x, by simp, by omega, hx⟩, ?_⟩
  intro y hy
  rcases List.mem_append.mp hy with hy | hy
  · have h1 := hpre y hy
    have h2 := (h.spaced.inside y (by simp [hy])).1
    exact fun e => absurd (hs.ix_inj h1.2 (by omega) e) (by omega)
  · have h1 := hpost y hy
    exact fun e => absurd (hs.ix_inj h1.2 (by omega) e) (by omega)

/-- The place of the fragment behind is not linked yet. -/
theorem AtHole.behind_not_mem (hs : d.Solid) (h : AtHole d m first i e pre post x)
    (hx : i + 1 < x.2) : d.ix (i + 1) ∉ d.ixs pre ++ d.ixs post := by
  rw [← ixs_append]
  intro hmem
  obtain ⟨y, hy, hye⟩ := List.mem_map.mp hmem
  exact (h.behind hs hx).2.2 y hy hye

/-- Overlap with the initial part: the hole is moved. -/
theorem fix_move (hs : d.Solid) {len : Nat} (h : AtHole d m first i e pre post x)
    (hi : x.1 = i) (hx : i + 1 < x.2) (he : 8 * d.ix i + len < e) (hend : e = d.endByte x.2)
    (hlen : d.ix i + len / 8 = d.ix (i + 1)) :
    Fixed d m (pre ++ x :: post) (pre ++ (i + 1, x.2) :: post)
      (fixHoles m first (d.ix i) len (d.ix x.1)) := by
  obtain ⟨hin, hmiss1, hother⟩ := h.behind hs hx
  have hv : d.ix (i + 1) < 65536 := by have := d.ix_lt (show i + 1 ≤ d.n by omega); omega
  obtain ⟨hch, hlast⟩ := fixHoles_move (h.inList hs) (show d.ix i ≤ d.ix x.1 by rw [hi])
    (show 8 * d.ix i + len < lastByte m (d.ix x.1) by rw [h.found]; exact he)
    (h.last_ne_zero hs hi) hlen hv (h.behind_not_mem hs hx)
  apply fixed_of_changed (by simpa using hch)
  · intro y hy
    rw [hlast]
    rcases List.mem_append.mp hy with hy' | hy'
    · rw [Function.update_of_ne (hother y (by simp [hy'])), h.ends y (by simp [hy'])]
    · rcases List.mem_cons.mp hy' with rfl | hy'
      · rw [Function.update_self, h.found, hend]
      · rw [Function.update_of_ne (hother y (by simp [hy'])), h.ends y (by simp [hy'])]
  · intro y hy
    have hmem : ∀ z ∈ pre ++ x :: post, Missing (pre ++ x :: post) z.1 :=
      fun z hz => missing_of_mem h.spaced hz
    simp only [List.mem_append, List.mem_cons] at hy
    rcases hy with (hy | rfl | hy) | hy | rfl | hy
    · exact hmem y (by simp [hy])
    · exact hmem y (by simp)
    · exact hmem y (by simp [hy])
    · exact hmem y (by simp [hy])
    · exact hmiss1
    · exact hmem y (by simp [hy])

/-- The fragment sits in the middle: the hole is split. -/
theorem fix_split (hs : d.Solid) {len : Nat} (h : AtHole d m first i e pre post x)
    (hi : x.1 < i) (hx : i + 1 < x.2) (he : 8 * d.ix i + len < e) (hend : e = d.endByte x.2)
    (hlen : d.ix i + len / 8 = d.ix (i + 1)) :
    Fixed d m (pre ++ x :: post) (pre ++ (x.1, i) :: (i + 1, x.2) :: post)
      (fixHoles m first (d.ix i) len (d.ix x.1)) := by
  obtain ⟨hin, hmiss1, hother⟩ := h.behind hs hx
  have hv : d.ix (i + 1) < 65536 := by have := d.ix_lt (show i + 1 ≤ d.n by omega); omega
  have hb : 8 * d.ix i < 65536 := by have := d.ix_lt (show i ≤ d.n by omega); omega
  have hne : d.ix (i + 1) ≠ d.ix x.1 := fun e => by
    have := hs.ix_inj hin (by omega) e
    omega
  have hnm : d.ix (i + 1) ∉ d.ixs pre ++ d.ix x.1 :: d.ixs post := by
    have h1 := h.behind_not_mem hs hx
    simp only [List.mem_append, List.mem_cons, not_or] at h1 ⊢
    exact ⟨h1.1, hne, h1.2⟩
  obtain ⟨hch, hlast⟩ := fixHoles_split (h.inList hs) (hs.ix_lt_ix hi (by omega))
    (show 8 * d.ix i + len < lastByte m (d.ix x.1) by rw [h.found]; exact he) hb hlen hv hnm
  have hkeep : ∀ y ∈ pre ++ post, Function.update (Function.update (lastByte m) (d.ix (i + 1))
      (lastByte m (d.ix x.1))) (d.ix x.1) (8 * d.ix i) (d.ix y.1) = d.endByte y.2 := by
    intro y hy
    rw [Function.update_of_ne (h.ne hs y hy), Function.update_of_ne (hother y hy), h.ends y hy]
  apply fixed_of_changed (by simpa using hch)
  · intro y hy
    rw [hlast]
    rcases List.mem_append.mp hy with hy' | hy'
    · exact hkeep y (by simp [hy'])
    · rcases List.mem_cons.mp hy' with rfl | hy'
      · rw [Function.update_self, ← d.cut_eq (by omega), Datagram.endByte,
          if_neg (by simp; omega)]
      · rcases List.mem_cons.mp hy' with rfl | hy'
        · rw [Function.update_of_ne hne, Function.update_self, h.found, hend]
        · exact hkeep y (by simp [hy'])
  · intro y hy
    have hmem : ∀ z ∈ pre ++ x :: post, Missing (pre ++ x :: post) z.1 :=
      fun z hz => missing_of_mem h.spaced hz
    simp only [List.mem_append, List.mem_cons] at hy
    rcases hy with (hy | rfl | hy) | hy | rfl | rfl | hy
    · exact hmem y (by simp [hy])
    · exact hmem y (by simp)
    · exact hmem y (by simp [hy])
    · exact hmem y (by simp [hy])
    · exact hmem x (by simp)
    · exact hmiss1
    · exact hmem y (by simp [hy])

/-- **The hole list after a fragment.**  The hole that fragment `i` is in gives way to
    what is left of it. -/
theorem fixHoles_spec (hs : d.Solid) (h : AtHole d m first i e pre post x)
    (he : e ≤ d.cut (i + 1) ∧ x.2 = i + 1 ∨
      d.cut (i + 1) < e ∧ e = d.endByte x.2 ∧ i + 1 < x.2) :
    Fixed d m (pre ++ x :: post) (pre ++ (rest x i ++ post))
      (fixHoles m first (d.ix i) (d.cut (i + 1) - d.cut i) (d.ix x.1)) := by
  have hin : i < d.n := by have := h.bounds.2.2; have := h.high; omega
  have hend : 8 * d.ix i + (d.cut (i + 1) - d.cut i) = d.cut (i + 1) := by
    have := d.mono i hin
    rw [← d.cut_eq hin]
    omega
  rw [← hend] at he
  rcases Nat.lt_or_eq_of_le h.low with hi | hi <;> rcases he with ⟨he, hx⟩ | ⟨he, heq, hx⟩
  · have hrest : rest x i = [(x.1, i)] := by simp [rest, hi, hx]
    rw [hrest]
    exact fix_shorten hs h hi he
  · have hrest : rest x i = [(x.1, i), (i + 1, x.2)] := by simp [rest, hi, hx]
    have hn := h.bounds.2.2
    have h1 := d.cut_eq (show i + 1 < d.n by omega)
    rw [hrest]
    exact fix_split hs h hi hx he heq (by omega)
  · have hrest : rest x i = [] := by simp [rest, hi, hx]
    rw [hrest]
    exact fix_remove hs h hi he
  · have hrest : rest x i = [(i + 1, x.2)] := by simp [rest, hi, hx]
    have hn := h.bounds.2.2
    have h1 := d.cut_eq (show i + 1 < d.n by omega)
    rw [hrest]
    exact fix_move hs h hi hx he heq (by omega)

end Fix

/-! ## The representation -/

/-- The buffer `b` holds the fragments of the datagram that are in no hole of `L`. -/
structure Rep (d : Datagram) (b : PktBuff) (L : List (Nat × Nat)) : Prop where
  id : b.ipId = d.id
  spaced : Spaced d.n L
  links : Links (nextHole b.payload) (prevHole b.payload) 0 (d.ixs L) 0
  ends : ∀ x ∈ L, lastByte b.payload (d.ix x.1) = d.endByte x.2
  first : L ≠ [] → b.firstHole = (d.ixs L).headD 0
  totalOpen : Missing L (d.n - 1) → b.totalLen = 0xffff
  totalKnown : ¬ Missing L (d.n - 1) → b.totalLen = d.data.length ∧ 0 < d.data.length
  bytes : ∀ k, k < d.n → ¬ Missing L k → ∀ j, d.cut k ≤ j → j < d.cut (k + 1) →
    b.payload j = d.data.getD j 0

/-- The buffer holds another packet, or none. -/
def Fresh (d : Datagram) (b : PktBuff) : Prop := b.totalLen = 0 ∨ b.ipId ≠ d.id

instance (d : Datagram) (b : PktBuff) : Decidable (Fresh d b) := inferInstanceAs (Decidable (_ ∨ _))

theorem Spaced.missing_lt {n : Nat} {L : List (Nat × Nat)} (h : Spaced n L) {k : Nat}
    (hk : Missing L k) : k < n := by
  obtain ⟨x, hx, _, h2⟩ := hk
  have := h.inside x hx
  omega

/-- A packet that is being put together has a length. -/
theorem Rep.totalLen_ne {b : PktBuff} {L : List (Nat × Nat)} (h : Rep d b L) : b.totalLen ≠ 0 := by
  by_cases hm : Missing L (d.n - 1)
  · rw [h.totalOpen hm]
    decide
  · have := h.totalKnown hm
    omega

/-- A packet that is being put together is not reset. -/
theorem Rep.reset {b : PktBuff} {L : List (Nat × Nat)} (h : Rep d b L) (k : Nat) :
    resetStructs b (d.frag k) = b := by
  rw [resetStructs, if_neg]
  rintro (h0 | hid)
  · exact h.totalLen_ne h0
  · exact hid h.id

/-- A new packet is one hole. -/
theorem rep_of_fresh {b : PktBuff} (h : Fresh d b) (k : Nat) :
    Rep d (resetStructs b (d.frag k)) [(0, d.n)] := by
  have hpos := d.pos
  have hix : d.ix 0 = 0 := by rw [Datagram.ix, d.cut_zero]
  have hmiss : ∀ j, j < d.n → Missing [(0, d.n)] j := fun j hj =>
    ⟨(0, d.n), by simp, Nat.zero_le _, hj⟩
  rw [resetStructs, if_pos (show b.totalLen = 0 ∨ b.ipId ≠ (d.frag k).ipId from h)]
  refine ⟨rfl, ⟨by simp, by simp [hpos]⟩, ?_, ?_, ?_, fun _ => rfl, ?_, ?_⟩
  · rw [ixs_cons, ixs_nil, links_cons]
    simp [hix, prevHole_setPrevHole, nextHole_setNextHole]
  · simp [hix, lastByte_setLastByte, Datagram.endByte]
  · simp [hix]
  · exact fun hno => absurd (hmiss _ (by omega)) hno
  · exact fun j hj hno => absurd (hmiss j hj) hno

/-- Every byte of the datagram belongs to a fragment. -/
theorem Datagram.exists_frag (d : Datagram) {j : Nat} (hj : j < d.data.length) :
    ∃ k, k < d.n ∧ d.cut k ≤ j ∧ j < d.cut (k + 1) := by
  have hfind : ∀ n, n ≤ d.n → j < d.cut n → ∃ k, k < n ∧ d.cut k ≤ j ∧ j < d.cut (k + 1) := by
    intro n hn hlt
    induction n with
    | zero =>
      rw [d.cut_zero] at hlt
      omega
    | succ n ih =>
      by_cases h : j < d.cut n
      · obtain ⟨k, hk, hb⟩ := ih (by omega) h
        exact ⟨k, by omega, hb⟩
      · exact ⟨n, by omega, by omega, hlt⟩
  exact hfind d.n (Nat.le_refl _) (by rwa [d.cut_last])

/-- A buffer without holes holds the datagram. -/
theorem Rep.complete {b : PktBuff} (h : Rep d b []) :
    b.totalLen = d.data.length ∧ b.payload.read 0 b.totalLen = d.data := by
  have hno : ∀ k, ¬ Missing [] k := by rintro k ⟨x, hx, _⟩; simp at hx
  have htot := (h.totalKnown (hno _)).1
  refine ⟨htot, ?_⟩
  rw [htot]
  apply List.ext_getElem (by simp)
  intro j h1 h2
  obtain ⟨k, hk, hlo, hhi⟩ := d.exists_frag h2
  rw [Mem.getElem_read, Nat.zero_add, h.bytes k hk (hno k) j hlo hhi, List.getD_eq_getElem _ _ h2]

/-- The bytes of a fragment are those of the datagram. -/
theorem Datagram.frag_byte (d : Datagram) {i j : Nat} (hi : i < d.n) (h1 : d.cut i ≤ j)
    (h2 : j < d.cut (i + 1)) (m : Mem UInt8) :
    m.write (d.cut i) (d.frag i).body j = d.data.getD j 0 := by
  have hle := d.cut_le_length (show i + 1 ≤ d.n by omega)
  have hlen : j - d.cut i < (d.frag i).body.length := by rw [d.frag_length hi]; omega
  obtain ⟨t, rfl⟩ : ∃ t, j = d.cut i + t := ⟨j - d.cut i, by omega⟩
  rw [Nat.add_sub_cancel_left] at hlen
  rw [m.write_inside hlen, List.getD_eq_getElem _ _ (by omega)]
  simp [frag]

/-- Copying a fragment in leaves the descriptors of the holes it does not start. -/
theorem desc_write (hs : d.Solid) {i a : Nat} (hi : i < d.n) (ha : a < d.n) (hne : a ≠ i)
    (m : Mem UInt8) :
    lastByte (m.write (d.cut i) (d.frag i).body) (d.ix a) = lastByte m (d.ix a) ∧
      nextHole (m.write (d.cut i) (d.frag i).body) (d.ix a) = nextHole m (d.ix a) ∧
      prevHole (m.write (d.cut i) (d.frag i).body) (d.ix a) = prevHole m (d.ix a) := by
  have hap := hs.desc_apart ha hi hne
  have hmono := d.mono i hi
  have hend : d.cut i + (d.frag i).body.length = d.cut (i + 1) := by rw [d.frag_length hi]; omega
  refine ⟨rd16_write_other m ?_, rd16_write_other m ?_, rd16_write_other m ?_⟩ <;> omega

/-- The bytes of one fragment are clear of those of another. -/
theorem Datagram.write_other (d : Datagram) {i k j : Nat} (hi : i < d.n) (hk : k < d.n)
    (hne : k ≠ i) (h1 : d.cut k ≤ j) (h2 : j < d.cut (k + 1)) (m : Mem UInt8) :
    m.write (d.cut i) (d.frag i).body j = m j := by
  apply m.write_outside
  have hend : d.cut i + (d.frag i).body.length = d.cut (i + 1) := by
    have := d.mono i hi
    rw [d.frag_length hi]
    omega
  rcases Nat.lt_or_gt_of_ne hne with h | h
  · have := d.cut_le (show k + 1 ≤ i by omega) (by omega)
    omega
  · have := d.cut_le (show i + 1 ≤ k by omega) (by omega)
    omega

/-- The copy that ends the step turns a fixed hole list into a representation. -/
theorem rep_of_fixed (hs : d.Solid) {b : PktBuff} {m : Mem UInt8} {L L' : List (Nat × Nat)}
    {r : Mem UInt8 × Nat × Bool} {i t : Nat} (hb : Rep d b L) (hi : i < d.n)
    (hm : ∀ z, (∀ a, Missing L a → z < 8 * d.ix a ∨ 8 * d.ix a + 8 ≤ z) → m z = b.payload z)
    (hfix : Fixed d m L L' r) (hsp : Spaced d.n L')
    (hmiss : ∀ k, Missing L' k ↔ Missing L k ∧ k ≠ i)
    (hopen : Missing L' (d.n - 1) → t = 0xffff)
    (hknown : ¬ Missing L' (d.n - 1) → t = d.data.length ∧ 0 < d.data.length) :
    Rep d { b with payload := r.1.write (d.cut i) (d.frag i).body, firstHole := r.2.1, totalLen := t }
      L' := by
  have hdesc : ∀ y ∈ L', _ := fun y hy => desc_write hs hi
    (hsp.missing_lt (missing_of_mem hsp hy)) ((hmiss y.1).mp (missing_of_mem hsp hy)).2 r.1
  refine ⟨hb.id, hsp, hfix.links.congr ?_ ?_, ?_, hfix.first, hopen, hknown, ?_⟩
  · intro a ha
    obtain ⟨y, hy, rfl⟩ := List.mem_map.mp ha
    exact (hdesc y hy).2.1
  · intro a ha
    obtain ⟨y, hy, rfl⟩ := List.mem_map.mp ha
    exact (hdesc y hy).2.2
  · intro y hy
    exact (hdesc y hy).1.trans (hfix.ends y hy)
  · intro k hk hno j h1 h2
    by_cases hki : k = i
    · subst hki
      exact d.frag_byte hi h1 h2 r.1
    · have hno' : ¬ Missing L k := fun h => hno ((hmiss k).mpr ⟨h, hki⟩)
      have hclear : ∀ a, Missing L a → j < 8 * d.ix a ∨ 8 * d.ix a + 8 ≤ j := by
        intro a ha
        have hap := hs.desc_apart (hb.spaced.missing_lt ha) hk fun e => hno' (e ▸ ha)
        omega
      exact (d.write_other hi hk hki h1 h2 r.1).trans
        ((hfix.keep j hclear).trans ((hm j hclear).trans (hb.bytes k hk hno' j h1 h2)))

/-! ## One arrival -/

/-- The buffer, and the fragments it has taken. -/
structure Reassembly where
  b : PktBuff
  seen : List Nat

/-- A last fragment of less than eight bytes is dropped when the hole it is in starts
    with it. -/
def Dropped (d : Datagram) (seen : List Nat) (i : Nat) : Prop :=
  i + 1 = d.n ∧ d.cut d.n < d.cut i + 8 ∧ i ∉ seen ∧ (i = 0 ∨ i - 1 ∈ seen)

instance (d : Datagram) (seen : List Nat) (i : Nat) : Decidable (Dropped d seen i) :=
  inferInstanceAs (Decidable (_ ∧ _ ∧ _ ∧ _))

/-- Fragment `i` arrives. -/
def defragStep (d : Datagram) (r : Reassembly) (i : Nat) : Reassembly where
  b := (netDefragment r.b (d.frag i)).2
  seen := if Dropped d r.seen i then r.seen else i :: r.seen

/-- Fragment `i` starts the second gap, and the first gap starts with the datagram. -/
def SecondGap (seen : List Nat) (i : Nat) : Prop :=
  i ∉ seen ∧ ∃ j, j < i ∧ 0 < j ∧ (∀ k, k < j → k ∉ seen) ∧ ∀ k, k < i → j ≤ k → k ∈ seen

instance (seen : List Nat) (i : Nat) : Decidable (SecondGap seen i) :=
  inferInstanceAs (Decidable (_ ∧ ∃ j, j < i ∧ _))

/-- The arrivals the algorithm copes with: something is missing, and the fragment does
    not start the second gap while the datagram's first bytes are missing. -/
def DefragAllowed (d : Datagram) (r : Reassembly) (i : Nat) : Prop :=
  i < d.n ∧ (∃ k, k < d.n ∧ k ∉ r.seen) ∧ (Dropped d r.seen i ∨ ¬ SecondGap r.seen i)

instance (d : Datagram) (r : Reassembly) (i : Nat) : Decidable (DefragAllowed d r i) :=
  inferInstanceAs (Decidable (_ ∧ (∃ k, k < d.n ∧ _) ∧ (_ ∨ _)))

/-- The buffer represents the fragments seen, with the holes `L`. -/
structure DefragInv (d : Datagram) (r : Reassembly) (L : List (Nat × Nat)) : Prop where
  missing : ∀ k, k < d.n → (Missing L k ↔ k ∉ r.seen)
  buffer : Fresh d r.b ∧ L = [(0, d.n)] ∨ Rep d r.b L

/-- What the step before the walk leaves. -/
theorem DefragInv.rep {r : Reassembly} {L : List (Nat × Nat)} (h : DefragInv d r L) (i : Nat) :
    Rep d (resetStructs r.b (d.frag i)) L := by
  rcases h.buffer with ⟨hf, rfl⟩ | hrep
  · exact rep_of_fresh hf i
  · rw [hrep.reset]
    exact hrep

/-- What a step returns, if anything: the whole datagram, all of it seen. -/
def Delivers (d : Datagram) (r : Reassembly) (i : Nat) : Prop :=
  ∀ pkt, (netDefragment r.b (d.frag i)).1 = some pkt →
    (∀ k, k < d.n → k ∈ (defragStep d r i).seen) ∧
      pkt.payload = d.data ∧ pkt.ipLen = d.data.length ∧ pkt.len = d.data.length + 20

/-- A fragment that is in no hole changes nothing. -/
theorem inv_of_seen {r : Reassembly} {L : List (Nat × Nat)} {i : Nat} {b' : PktBuff}
    (h : DefragInv d r L) (hi : i < d.n) (hno : ¬ Missing L i)
    (hrun : netDefragment r.b (d.frag i) = (none, b')) (hb : Rep d b' L) :
    DefragInv d (defragStep d r i) L ∧ Delivers d r i := by
  have hseen : i ∈ r.seen := by
    by_contra hni
    exact hno ((h.missing i hi).mpr hni)
  have hnd : ¬ Dropped d r.seen i := fun hd => hd.2.2.1 hseen
  refine ⟨⟨?_, .inr ?_⟩, ?_⟩
  · intro k hk
    rw [h.missing k hk, defragStep, if_neg hnd, List.mem_cons, not_or]
    constructor
    · intro hks
      exact ⟨fun e => hks (e ▸ hseen), hks⟩
    · exact fun hks => hks.2
  · simpa only [defragStep, hrun] using hb
  · intro pkt hpkt
    rw [hrun] at hpkt
    simp at hpkt

/-- A fragment that comes again right behind the hole `x`: the hole is shortened to
    where it ends, and the bytes are copied over themselves. -/
theorem take_again (hs : d.Solid) {b : PktBuff} {L : List (Nat × Nat)} {i : Nat}
    (hb : Rep d b L) (hi : i < d.n) (hno : ¬ Missing L i) {x : Nat × Nat} (hx : x ∈ L)
    (hxi : x.2 = i) :
    ∃ b', takeFragment b (d.frag i) (d.ix x.1) = (none, b') ∧ Rep d b' L := by
  have hx12 := (hb.spaced.inside x hx).1
  have hend := d.frag_end hi
  have hcut := d.cut_eq hi
  have hmono := d.mono i hi
  have hlenle := d.cut_le_length (show i + 1 ≤ d.n by omega)
  have hfits := d.fits
  simp only [ipMaxUdp] at hfits
  have hlast : lastByte b.payload (d.ix x.1) = d.cut i := by
    rw [hb.ends x hx, hxi, Datagram.endByte, if_neg (by omega)]
  -- the descriptor says what it said, whether the fragment is the last one or not
  have hM : ∀ m, (m = b.payload ∨ m = setLastByte b.payload (d.ix x.1) (d.cut (i + 1))) →
      lastByte (setLastByte m (d.ix x.1) (d.cut i)) = lastByte b.payload := by
    intro m hm
    rw [lastByte_setLastByte m (by omega)]
    rcases hm with rfl | rfl
    · rw [← hlast, Function.update_eq_self]
    · rw [lastByte_setLastByte _ (by omega), Function.update_idem, ← hlast,
        Function.update_eq_self]
  have hgen : ∀ m t, (m = b.payload ∨ m = setLastByte b.payload (d.ix x.1) (d.cut (i + 1))) →
      t = b.totalLen →
      Rep d { b with
        payload := (setLastByte m (d.ix x.1) (d.cut i)).write (d.cut i) (d.frag i).body
        totalLen := t } L := by
    intro m t hm ht
    have hnp : nextHole m = nextHole b.payload ∧ prevHole m = prevHole b.payload := by
      rcases hm with rfl | rfl <;> simp
    have hfix : Fixed d m L L (setLastByte m (d.ix x.1) (d.cut i), b.firstHole, false) := by
      refine ⟨?_, ?_, hb.first, ?_, ?_⟩
      · simpa [hnp] using hb.links
      · intro y hy
        simp only [hM m hm]
        exact hb.ends y hy
      · have : L ≠ [] := List.ne_nil_of_mem hx
        simp [this]
      · exact fun z hz => setLastByte_outside m (hz x.1 (missing_of_mem hb.spaced hx))
    refine rep_of_fixed hs hb hi ?_ hfix hb.spaced ?_ ?_ ?_
    · intro z hz
      rcases hm with rfl | rfl
      · rfl
      · exact setLastByte_outside _ (hz x.1 (missing_of_mem hb.spaced hx))
    · exact fun k => ⟨fun hk => ⟨hk, fun e => hno (e ▸ hk)⟩, fun hk => hk.1⟩
    · exact fun hm => ht.trans (hb.totalOpen hm)
    · exact fun hm => ⟨ht.trans (hb.totalKnown hm).1, (hb.totalKnown hm).2⟩
  have hlt := hs.ix_lt_ix (show x.1 < i by omega) hi
  simp only [takeFragment, d.frag_offset8 hi, d.frag_more hi, hend]
  by_cases hmore : i + 1 < d.n
  · simp only [hmore, decide_true, if_true]
    have hle : lastByte b.payload (d.ix x.1) ≤ 8 * d.ix i + (d.frag i).body.length := by omega
    simp only [fixHoles, show ¬ d.ix i ≤ d.ix x.1 by omega, false_and, if_false, hle, if_true,
      Bool.false_eq_true]
    refine ⟨_, rfl, ?_⟩
    rw [← hcut]
    exact hgen _ _ (.inl rfl) rfl
  · simp only [hmore, decide_false, Bool.false_eq_true, if_false]
    have hle : lastByte (setLastByte b.payload (d.ix x.1) (d.cut (i + 1))) (d.ix x.1) ≤
        8 * d.ix i + (d.frag i).body.length := by
      rw [lastByte_setLastByte _ (by omega), Function.update_self]
      omega
    simp only [fixHoles, show ¬ d.ix i ≤ d.ix x.1 by omega, false_and, if_false, hle, if_true,
      Bool.false_eq_true]
    refine ⟨_, rfl, ?_⟩
    have hn : i + 1 = d.n := by omega
    have hn1 : i = d.n - 1 := by omega
    rw [← hcut]
    refine hgen _ _ (.inr rfl) ?_
    rw [(hb.totalKnown (hn1 ▸ hno)).1, hn, d.cut_last]

/-- The hole fixed and the fragment copied, after the truncation if there is one: the buffer
    stands for the holes that are left, and the packet comes out when there are none. -/
theorem taken_of_hole (hs : d.Solid) {b : PktBuff} {pre post : List (Nat × Nat)} {x : Nat × Nat}
    {i : Nat} (hb : Rep d b (pre ++ x :: post)) (h1 : x.1 ≤ i) (h2 : i < x.2) (hi : i < d.n)
    {m : Mem UInt8} {t e : Nat}
    (hm : ∀ z, (∀ a, Missing (pre ++ x :: post) a → z < 8 * d.ix a ∨ 8 * d.ix a + 8 ≤ z) →
      m z = b.payload z)
    (hat : AtHole d m b.firstHole i e pre post x)
    (he : e ≤ d.cut (i + 1) ∧ x.2 = i + 1 ∨
      d.cut (i + 1) < e ∧ e = d.endByte x.2 ∧ i + 1 < x.2)
    (hopen : Missing (pre ++ (rest x i ++ post)) (d.n - 1) → t = 0xffff)
    (hknown : ¬ Missing (pre ++ (rest x i ++ post)) (d.n - 1) →
      t = d.data.length ∧ 0 < d.data.length) :
    let r := fixHoles m b.firstHole (d.ix i) (d.frag i).body.length (d.ix x.1)
    let b' := { b with
      payload := r.1.write (d.cut i) (d.frag i).body, firstHole := r.2.1, totalLen := t }
    Rep d b' (pre ++ (rest x i ++ post)) ∧
      (∀ pkt, (if r.2.2 then some (⟨b.header, t, t + 20, b'.payload.read 0 t⟩ : Packet)
          else none) = some pkt →
        pre ++ (rest x i ++ post) = [] ∧ pkt.payload = d.data ∧ pkt.ipLen = d.data.length ∧
          pkt.len = d.data.length + 20) ∧
      ((if r.2.2 then some (⟨b.header, t, t + 20, b'.payload.read 0 t⟩ : Packet)
          else none) = none → pre ++ (rest x i ++ post) ≠ []) := by
  intro r b'
  have hmiss := missing_take hb.spaced h1 h2
  have hsp := hb.spaced.take h1 h2
  have hfix : Fixed d m (pre ++ x :: post) (pre ++ (rest x i ++ post)) r := by
    have h := fixHoles_spec hs hat he
    rwa [← d.frag_length hi] at h
  have hrep : Rep d b' (pre ++ (rest x i ++ post)) :=
    rep_of_fixed hs hb hi hm hfix hsp hmiss hopen hknown
  refine ⟨hrep, ?_, ?_⟩
  · intro pkt hpkt
    by_cases hdone : r.2.2 = true
    · have hnil := hfix.finished.mp hdone
      rw [hnil] at hrep
      obtain ⟨htot, hread⟩ := hrep.complete
      have ht : t = d.data.length := htot
      rw [if_pos hdone] at hpkt
      obtain rfl := Option.some.inj hpkt
      exact ⟨hnil, hread, ht, by rw [← ht]⟩
    · rw [if_neg hdone] at hpkt
      simp at hpkt
  · intro hnone hnil
    rw [if_pos (hfix.finished.mpr hnil)] at hnone
    simp at hnone

/-- The hole that is taken from is described at an index of its own. -/
theorem ix_ne_hole (hs : d.Solid) {pre post : List (Nat × Nat)} {x : Nat × Nat}
    (hsp : Spaced d.n (pre ++ x :: post)) : ∀ y ∈ pre ++ post, d.ix y.1 ≠ d.ix x.1 := by
  have hnd := nodup_ixs hs hsp
  rw [ixs_append, ixs_cons] at hnd
  obtain ⟨_, h3, h4⟩ := List.nodup_append.mp hnd
  intro y hy
  rcases List.mem_append.mp hy with hy | hy
  · exact h4 _ (List.mem_map_of_mem hy) _ (List.mem_cons_self ..)
  · exact fun e => (List.nodup_cons.mp h3).1 (e ▸ List.mem_map_of_mem hy)

/-- A fragment that is missing and is taken. -/
theorem take_missing (hs : d.Solid) {b : PktBuff} {pre post : List (Nat × Nat)} {x : Nat × Nat}
    {i : Nat} (hb : Rep d b (pre ++ x :: post)) (h1 : x.1 ≤ i) (h2 : i < x.2)
    (hlen : x.1 = i → 8 ≤ d.cut (i + 1) - d.cut i)
    (hsecond : x.1 = i → ∀ y ∈ pre.getLast?, y.1 ≠ 0) :
    Rep d (takeFragment b (d.frag i) (d.ix x.1)).2 (pre ++ (rest x i ++ post)) ∧
      (∀ pkt, (takeFragment b (d.frag i) (d.ix x.1)).1 = some pkt →
        pre ++ (rest x i ++ post) = [] ∧ pkt.payload = d.data ∧ pkt.ipLen = d.data.length ∧
          pkt.len = d.data.length + 20) ∧
      ((takeFragment b (d.frag i) (d.ix x.1)).1 = none → pre ++ (rest x i ++ post) ≠ []) := by
  have hx := hb.spaced.inside x (by simp)
  have hi : i < d.n := by omega
  have hend := d.frag_end hi
  have hlenle := d.cut_le_length (show i + 1 ≤ d.n by omega)
  have hfits := d.fits
  simp only [ipMaxUdp] at hfits
  have hmiss := missing_take hb.spaced h1 h2
  have hne := ix_ne_hole hs hb.spaced
  simp only [takeFragment, d.frag_offset8 hi, d.frag_more hi, hend]
  rw [← d.cut_eq hi]
  by_cases hmore : i + 1 < d.n
  · simp only [hmore, decide_true, if_true]
    apply @taken_of_hole d hs b pre post x i hb h1 h2 hi b.payload b.totalLen (d.endByte x.2)
      (fun _ _ => rfl)
    · exact ⟨hb.spaced, hb.links, fun y hy => hb.ends y (by
        rcases List.mem_append.mp hy with hy | hy <;> simp [hy]), hb.ends x (by simp),
        hb.first (by simp), h1, h2, hsecond⟩
    · rcases Nat.lt_or_eq_of_le (show i + 1 ≤ x.2 from h2) with hlt | heq
      · refine .inr ⟨?_, rfl, hlt⟩
        unfold Datagram.endByte
        split
        · omega
        · have := hs.cut_lt hlt (by omega)
          omega
      · refine .inl ⟨?_, heq.symm⟩
        rw [← heq, Datagram.endByte, if_neg (by omega)]
    · exact fun hm => hb.totalOpen ((hmiss _).mp hm).1
    · exact fun hm => hb.totalKnown fun hm' => hm ((hmiss _).mpr ⟨hm', by omega⟩)
  · -- the last fragment: it truncates the hole, which went to the end
    have hn : i + 1 = d.n := by omega
    simp only [hmore, decide_false, Bool.false_eq_true, if_false]
    apply @taken_of_hole d hs b pre post x i hb h1 h2 hi
      (setLastByte b.payload (d.ix x.1) (d.cut (i + 1))) (d.cut (i + 1)) (d.cut (i + 1))
    · exact fun z hz => setLastByte_outside _ (hz x.1 (missing_of_mem hb.spaced (by simp)))
    · refine ⟨hb.spaced, by simpa using hb.links, ?_, ?_, hb.first (by simp), h1, h2, hsecond⟩
      · intro y hy
        rw [lastByte_setLastByte _ (by omega), Function.update_of_ne (hne y hy)]
        exact hb.ends y (by rcases List.mem_append.mp hy with hy | hy <;> simp [hy])
      · rw [lastByte_setLastByte _ (by omega), Function.update_self]
    · exact .inl ⟨Nat.le_refl _, by omega⟩
    · exact fun hm => absurd (show d.n - 1 = i by omega) ((hmiss _).mp hm).2
    · intro _
      rw [hn, d.cut_last]
      refine ⟨rfl, ?_⟩
      have hmono := d.mono i hi
      rcases Nat.lt_or_eq_of_le h1 with hlt | heq
      · have := hs.cut_lt hlt hi
        omega
      · have := hlen heq
        omega

/-- A fragment that starts a hole right behind one that starts with the datagram starts
    the second gap. -/
theorem secondGap_of_holes {seen : List Nat} {pre post : List (Nat × Nat)} {x y : Nat × Nat}
    {i : Nat} (hsp : Spaced d.n (pre ++ x :: post))
    (hin : ∀ k, k < d.n → (Missing (pre ++ x :: post) k ↔ k ∉ seen)) (hi : i < d.n)
    (hx : x.1 = i) (hy : y ∈ pre.getLast?) (hy0 : y.1 = 0) : SecondGap seen i := by
  obtain ⟨pre', rfl⟩ : ∃ pre', pre = pre' ++ [y] := List.mem_getLast?_eq_getLast hy |>.elim
    fun hne he => ⟨pre.dropLast, by rw [he]; exact (List.dropLast_append_getLast hne).symm⟩
  obtain ⟨haround, hbehind⟩ := hsp.around
  have hy2 := haround y (by simp)
  have hy12 := (hsp.inside y (by simp)).1
  have hx12 := (hsp.inside x (by simp)).1
  have hpre : pre' = [] := by
    -- nothing comes before index 0
    rcases pre' with _ | ⟨z, pre'⟩
    · rfl
    · have hzy : z.2 < y.1 := by
        have hg := (List.pairwise_append.mp (List.pairwise_append.mp hsp.gaps).1).2.2
        exact hg z (by simp) y (by simp)
      omega
  subst hpre
  refine ⟨(hin i hi).mp ⟨x, by simp, by omega, by omega⟩, y.2, by omega, by omega, ?_, ?_⟩
  · intro k hk
    exact (hin k (by omega)).mp ⟨y, by simp, by omega, hk⟩
  · intro k hk hyk
    by_contra hno
    obtain ⟨z, hz, h1, h2⟩ := (hin k (by omega)).mpr hno
    simp only [List.nil_append, List.singleton_append, List.mem_cons] at hz
    rcases hz with rfl | rfl | hz
    · omega
    · omega
    · have := hbehind z hz
      omega

/-- The step for a fragment of the datagram: the walk, the test, the change. -/
theorem netDefragment_frag (b : PktBuff) {i : Nat} (hi : i < d.n) :
    netDefragment b (d.frag i) =
      match findHole (resetStructs b (d.frag i)).payload (8 * d.ix i) 65536
        (resetStructs b (d.frag i)).firstHole with
      | none => (none, resetStructs b (d.frag i))
      | some h => if d.ix i + (d.frag i).body.length / 8 ≤ h then
          (none, resetStructs b (d.frag i))
        else takeFragment (resetStructs b (d.frag i)) (d.frag i) h := by
  have hend := d.frag_end hi
  have hlenle := d.cut_le_length (show i + 1 ≤ d.n by omega)
  have hfits := d.fits
  rw [netDefragment, d.frag_offset8 hi]
  exact if_neg (by omega)

/-- The walk over the holes of a representation. -/
theorem Rep.walk (hs : d.Solid) {b : PktBuff} {L : List (Nat × Nat)} {i : Nat} (hb : Rep d b L)
    (hL : L ≠ []) (hi : i < d.n) :
    (∃ pre x post, L = pre ++ x :: post ∧ (∀ y ∈ pre, y.2 < i) ∧ i ≤ x.2 ∧
      findHole b.payload (8 * d.ix i) 65536 b.firstHole = some (d.ix x.1)) ∨
    (∀ y ∈ L, y.2 < i) ∧ findHole b.payload (8 * d.ix i) 65536 b.firstHole = none := by
  have hn := hs.n_le
  have hwalk := @findHole_spec _ hs _ _ hi _ _ 65536 hb.spaced hb.links hb.ends hL
    (by intro x _; omega)
  rwa [← hb.first hL, d.cut_eq hi] at hwalk

/-- The walk for a missing fragment ends at its hole. -/
theorem Rep.walk_missing (hs : d.Solid) {b : PktBuff} {L : List (Nat × Nat)} {i : Nat}
    (hb : Rep d b L) (hm : Missing L i) :
    ∃ pre x post, L = pre ++ x :: post ∧ x.1 ≤ i ∧ i < x.2 ∧
      findHole b.payload (8 * d.ix i) 65536 b.firstHole = some (d.ix x.1) := by
  have hi := hb.spaced.missing_lt hm
  obtain ⟨y, hy, h1, h2⟩ := hm
  rcases hb.walk hs (List.ne_nil_of_mem hy) hi with
    ⟨pre, x, post, rfl, hpre, hxi, hfound⟩ | ⟨hall, -⟩
  · obtain ⟨-, hbehind⟩ := hb.spaced.around
    rcases List.mem_append.mp hy with hy | hy
    · have := hpre y hy
      omega
    · rcases List.mem_cons.mp hy with rfl | hy
      · exact ⟨pre, y, post, rfl, h1, h2, hfound⟩
      · have := hbehind y hy
        omega
  · have := hall y hy
    omega

/-- The test for an overlap with the hole of a missing fragment fails for a dropped one
    and for no other. -/
theorem check_iff_dropped (hs : d.Solid) {seen : List Nat} {pre post : List (Nat × Nat)}
    {x : Nat × Nat} {i : Nat} (hsp : Spaced d.n (pre ++ x :: post))
    (hin : ∀ k, k < d.n → (Missing (pre ++ x :: post) k ↔ k ∉ seen)) (h1 : x.1 ≤ i)
    (h2 : i < x.2) :
    d.ix i + (d.frag i).body.length / 8 ≤ d.ix x.1 ↔ Dropped d seen i := by
  have hx := hsp.inside x (by simp)
  have hi : i < d.n := by omega
  obtain ⟨haround, hbehind⟩ := hsp.around
  have hend := d.frag_end hi
  have hcut := d.cut_eq hi
  have hns : i ∉ seen := (hin i hi).mp ⟨x, by simp, h1, h2⟩
  constructor
  · intro hcheck
    have hxeq : x.1 = i := by
      rcases Nat.lt_or_eq_of_le h1 with h1 | h1
      · have := hs.ix_lt_ix h1 hi
        omega
      · exact h1
    rw [hxeq] at hcheck
    have hlast : i + 1 = d.n := by
      by_contra hne
      have := hs.cut_lt (show i < i + 1 by omega) (by omega)
      omega
    refine ⟨hlast, ?_, hns, ?_⟩
    · rw [← hlast, ← hend, hcut]
      omega
    · by_contra hno
      rw [not_or] at hno
      obtain ⟨y, hy, h3, h4⟩ := (hin (i - 1) (by omega)).mpr hno.2
      rcases List.mem_append.mp hy with hy | hy
      · have := haround y hy
        omega
      · rcases List.mem_cons.mp hy with rfl | hy
        · omega
        · have := hbehind y hy
          omega
  · rintro ⟨hlast, hshort, -, hprev⟩
    rw [← hlast, ← hend, hcut] at hshort
    rcases Nat.lt_or_eq_of_le h1 with h1 | h1
    · rcases hprev with rfl | hprev
      · omega
      · exact absurd hprev ((hin (i - 1) (by omega)).mp ⟨x, by simp, by omega, by omega⟩)
    · rw [h1]
      omega

/-- A missing fragment that is not dropped and does not start the second gap is taken
    out of its hole. -/
theorem defrag_missing (hs : d.Solid) {r : Reassembly} {L : List (Nat × Nat)} {i : Nat}
    (h : DefragInv d r L) (hi : i < d.n) (hns : i ∉ r.seen) (hnd : ¬ Dropped d r.seen i)
    (hsec : ¬ SecondGap r.seen i) :
    ∃ L', Rep d (netDefragment r.b (d.frag i)).2 L' ∧
      (∀ k, k < d.n → (Missing L' k ↔ k ∉ i :: r.seen)) ∧
      (∀ pkt, (netDefragment r.b (d.frag i)).1 = some pkt →
        L' = [] ∧ pkt.payload = d.data ∧ pkt.ipLen = d.data.length ∧
          pkt.len = d.data.length + 20) ∧
      ((netDefragment r.b (d.frag i)).1 = none → L' ≠ []) := by
  have hb := h.rep i
  have hsp := hb.spaced
  have hin := h.missing
  obtain ⟨pre, x, post, rfl, h1, h2, hfound⟩ := hb.walk_missing hs ((hin i hi).mpr hns)
  have hcheck : ¬ d.ix i + (d.frag i).body.length / 8 ≤ d.ix x.1 :=
    fun hc => hnd ((check_iff_dropped hs hsp hin h1 h2).mp hc)
  have hdef := netDefragment_frag r.b hi
  rw [hfound] at hdef
  simp only [hcheck, if_false] at hdef
  have hlen : x.1 = i → 8 ≤ d.cut (i + 1) - d.cut i := by
    intro hxi
    rw [hxi] at hcheck
    rw [← d.frag_length hi]
    omega
  have hsecond : x.1 = i → ∀ y ∈ pre.getLast?, y.1 ≠ 0 := fun hxi y hy hy0 =>
    hsec (secondGap_of_holes hsp hin hi hxi hy hy0)
  obtain ⟨hrep', hpkt, hnone⟩ := take_missing hs hb h1 h2 hlen hsecond
  rw [hdef]
  refine ⟨pre ++ (rest x i ++ post), hrep', ?_, hpkt, hnone⟩
  intro k hk
  rw [missing_take hsp h1 h2, hin k hk, List.mem_cons, not_or, and_comm]

/-- **One arrival** keeps the representation, and returns a packet only when all of the
    datagram is there. -/
theorem defrag_step (hs : d.Solid) {r : Reassembly} {L : List (Nat × Nat)} {i : Nat}
    (h : DefragInv d r L) (hg : DefragAllowed d r i) :
    (∃ L', DefragInv d (defragStep d r i) L') ∧ Delivers d r i := by
  obtain ⟨hi, ⟨k₀, hk₀, hk₀s⟩, hsec⟩ := hg
  have hb := h.rep i
  have hsp := hb.spaced
  have hin : ∀ k, k < d.n → (Missing L k ↔ k ∉ r.seen) := h.missing
  have hL : L ≠ [] := by
    rintro rfl
    obtain ⟨x, hx, _⟩ := (hin k₀ hk₀).mpr hk₀s
    simp at hx
  by_cases hns : i ∈ r.seen
  · -- the fragment has been taken before
    have hno : ¬ Missing L i := fun hm => (hin i hi).mp hm hns
    have hdef := netDefragment_frag r.b hi
    rcases hb.walk hs hL hi with ⟨pre, x, post, rfl, hpre, hxi, hfound⟩ | ⟨-, hfound⟩
    · rw [hfound] at hdef
      simp only at hdef
      have hx := hsp.inside x (by simp)
      by_cases hbefore : i < x.1
      · -- the hole is behind the fragment
        have hcheck : d.ix i + (d.frag i).body.length / 8 ≤ d.ix x.1 := by
          have hend := d.frag_end hi
          have h1 := d.cut_le (show i + 1 ≤ x.1 by omega) (by omega)
          have h2 := d.cut_eq (show x.1 < d.n by omega)
          omega
        rw [if_pos hcheck] at hdef
        obtain ⟨h1, h2⟩ := inv_of_seen h hi hno hdef hb
        exact ⟨⟨_, h1⟩, h2⟩
      · -- the fragment comes right behind the hole
        have heq : x.2 = i := by
          rcases Nat.lt_or_eq_of_le hxi with hlt | heq
          · exact absurd ⟨x, by simp, by omega, hlt⟩ hno
          · exact heq.symm
        have hcheck : ¬ d.ix i + (d.frag i).body.length / 8 ≤ d.ix x.1 := by
          have := hs.ix_lt_ix (show x.1 < i by omega) hi
          omega
        rw [if_neg hcheck] at hdef
        obtain ⟨b', hb', hrep'⟩ := take_again hs hb hi hno (by simp) heq
        rw [hb'] at hdef
        obtain ⟨h1, h2⟩ := inv_of_seen h hi hno hdef hrep'
        exact ⟨⟨_, h1⟩, h2⟩
    · rw [hfound] at hdef
      obtain ⟨h1, h2⟩ := inv_of_seen h hi hno hdef hb
      exact ⟨⟨_, h1⟩, h2⟩
  · by_cases hdrop : Dropped d r.seen i
    · -- the test throws a short last fragment away
      obtain ⟨pre, x, post, rfl, h1, h2, hfound⟩ := hb.walk_missing hs ((hin i hi).mpr hns)
      have hdef := netDefragment_frag r.b hi
      rw [hfound] at hdef
      simp only [(check_iff_dropped hs hsp hin h1 h2).mpr hdrop, if_true] at hdef
      refine ⟨⟨pre ++ x :: post, ?_, .inr ?_⟩, ?_⟩
      · simpa only [defragStep, hdrop, if_true] using hin
      · simpa only [defragStep, hdef] using hb
      · intro pkt hpkt
        rw [hdef] at hpkt
        simp at hpkt
    · obtain ⟨L', hrep', hin', hpkt', -⟩ :=
        defrag_missing hs h hi hns hdrop (hsec.resolve_left hdrop)
      refine ⟨⟨L', ?_, .inr hrep'⟩, ?_⟩
      · simpa only [defragStep, hdrop, if_false] using hin'
      · intro pkt hpkt
        obtain ⟨hnil, hrest⟩ := hpkt' pkt hpkt
        refine ⟨?_, hrest⟩
        intro k hk
        simp only [defragStep, hdrop, if_false]
        by_contra hno
        obtain ⟨y, hy, _⟩ := (hin' k hk).mpr hno
        rw [hnil] at hy
        simp at hy

/-! ## Runs -/

/-- A new datagram. -/
theorem defragInv_fresh {b : PktBuff} (h : Fresh d b) : DefragInv d ⟨b, []⟩ [(0, d.n)] where
  missing := by
    intro k hk
    exact ⟨fun _ => by simp, fun _ => ⟨(0, d.n), by simp, Nat.zero_le _, hk⟩⟩
  buffer := .inl ⟨h, rfl⟩

/-- A step takes no fragment but the one that arrives. -/
theorem seen_step {r : Reassembly} {past : List Nat} (h : ∀ k ∈ r.seen, k ∈ past) (i : Nat) :
    ∀ k ∈ (defragStep d r i).seen, k ∈ past ++ [i] := by
  intro k hk
  simp only [defragStep] at hk
  split at hk
  · exact List.mem_append_left _ (h k hk)
  · rcases List.mem_cons.mp hk with rfl | hk
    · simp
    · exact List.mem_append_left _ (h k hk)

/-- **Reassembly is sound.**  Fragments of a datagram arrive at a buffer that holds no
    packet or another one, in any order, some of them more than once or never.  If each
    arrival is one the algorithm copes with, a packet is returned only when every
    fragment has arrived, and it is the datagram. -/
theorem reassembly_sound (d : Datagram) (hs : d.Solid) (b : PktBuff) (hb : Fresh d b)
    (arrivals : List Nat) (i : Nat)
    (hg : Guarded (defragStep d) (DefragAllowed d) ⟨b, []⟩ (arrivals ++ [i])) (pkt : Packet)
    (h : (netDefragment (run (defragStep d) ⟨b, []⟩ arrivals).b (d.frag i)).1 = some pkt) :
    (∀ k, k < d.n → k ∈ arrivals ++ [i]) ∧
      pkt.payload = d.data ∧ pkt.ipLen = d.data.length ∧ pkt.len = d.data.length + 20 := by
  obtain ⟨hg1, hgi, _⟩ := guarded_append.mp hg
  have hstep : ∀ past r j, ((∃ L, DefragInv d r L) ∧ ∀ k ∈ r.seen, k ∈ past) →
      DefragAllowed d r j →
      (∃ L, DefragInv d (defragStep d r j) L) ∧
        ∀ k ∈ (defragStep d r j).seen, k ∈ past ++ [j] := by
    rintro past r j ⟨⟨L, hL⟩, hseen⟩ hj
    exact ⟨(defrag_step hs hL hj).1, seen_step hseen j⟩
  have hinit : (∃ L, DefragInv d ⟨b, []⟩ L) ∧ ∀ k ∈ (⟨b, []⟩ : Reassembly).seen, k ∈ ([] : List Nat) :=
    ⟨⟨_, defragInv_fresh hb⟩, by simp⟩
  have hinv := run_invariant_hist hstep hinit hg1
  rw [List.nil_append] at hinv
  obtain ⟨⟨L, hL⟩, hseen⟩ := hinv
  obtain ⟨hall, hpkt⟩ := (defrag_step hs hL hgi).2 pkt h
  exact ⟨fun k hk => seen_step hseen i k (hall k hk), hpkt⟩

/-- 24 bytes in three fragments. -/
def threeFragments : Datagram where
  id := 7
  data := (List.range 24).map UInt8.ofNat
  n := 3
  cut := fun k => 8 * k
  header := fun _ => []
  pos := by decide
  cut_zero := rfl
  cut_last := rfl
  mono := by intro k _; omega
  aligned := by intro k _; exact Nat.dvd_mul_right ..
  fits := by decide

/-- A buffer that has never been used. -/
def emptyBuff : PktBuff := ⟨[], 0, fun _ => 0, 0, 0⟩

/-- The fragments in the order 2, 0, 2, 1. -/
theorem reassembly_sound_three :
    ((netDefragment (run (defragStep threeFragments) ⟨emptyBuff, []⟩ [2, 0, 2]).b
      (threeFragments.frag 1)).1.map Packet.payload) = some threeFragments.data := by
  have hsome : ((netDefragment (run (defragStep threeFragments) ⟨emptyBuff, []⟩ [2, 0, 2]).b
      (threeFragments.frag 1)).1).isSome = true := by decide +kernel
  obtain ⟨pkt, hpkt⟩ := Option.isSome_iff_exists.mp hsome
  have hsound := reassembly_sound threeFragments
    ⟨by intro k _; show 8 * k < 8 * (k + 1); omega,
      by intro k hk; show 8 * (k + 1) < 16464; change k + 1 < 3 at hk; omega⟩
    emptyBuff (by decide) [2, 0, 2] 1 (by decide +kernel) pkt hpkt
  rw [hpkt, Option.map_some, hsound.2.1]

/-- Fragment 1, then fragment 2: the hole behind fragment 1 has the hole at index 0
    before it, is taken for the last one, and a packet is returned whose first eight
    bytes have never arrived. -/
theorem second_gap_returns_early :
    ((netDefragment (run (defragStep threeFragments) ⟨emptyBuff, []⟩ [1]).b
      (threeFragments.frag 2)).1.map Packet.payload) =
        some ([8, 0, 2, 0, 0, 0, 0, 0] ++ threeFragments.data.drop 8) ∧
    0 ∉ [1] ++ [2] ∧ 0 < threeFragments.n ∧
    [8, 0, 2, 0, 0, 0, 0, 0] ++ threeFragments.data.drop 8 ≠ threeFragments.data := by
  decide +kernel

end Uboot.Net.Defrag
