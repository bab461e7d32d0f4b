/-
  Uboot.Net.DefragComplete

  When `__NetDefragment` returns a datagram whose fragments arrive once each, in some
  order and with nothing in between.

  Two arrivals stop it: a last fragment of less than eight bytes that comes behind its
  predecessor, which the test for an overlap throws away, and a fragment that starts
  the second gap while the first bytes are missing, whose hole is taken for the first
  one.  Without them the packet comes with the last arrival; with one of them it does
  not, at least when the buffer does not happen to hold the right bytes already.
-/

import Uboot.Net.DefragSound

namespace Uboot.Net.Defrag

open Uboot.Lib

/-! ## Arrivals in order -/

/-- The buffer after some fragments have arrived. -/
def buffAfter (d : Datagram) (b : PktBuff) (past : List Nat) : PktBuff :=
  run (fun b k => (netDefragment b (d.frag k)).2) b past

/-- The whole datagram, as a packet. -/
def Whole (d : Datagram) (pkt : Packet) : Prop :=
  pkt.payload = d.data ∧ pkt.ipLen = d.data.length ∧ pkt.len = d.data.length + 20

/-- The packet is returned when the last of the fragments arrives, and nothing before. -/
def Completes (d : Datagram) (b : PktBuff) (order : List Nat) : Prop :=
  ∀ past i later, order = past ++ i :: later →
    if later = [] then ∃ pkt, (netDefragment (buffAfter d b past) (d.frag i)).1 = some pkt ∧ Whole d pkt
    else (netDefragment (buffAfter d b past) (d.frag i)).1 = none

/-- The arrival of fragment `i`, with the fragments `past` there, does not stop it. -/
def Copes (d : Datagram) (past : List Nat) (i : Nat) : Prop :=
  ¬ Dropped d past i ∧ ¬ SecondGap past i

instance (d : Datagram) (past : List Nat) (i : Nat) : Decidable (Copes d past i) :=
  inferInstanceAs (Decidable (_ ∧ _))

/-- No arrival of the order stops it. -/
def Accepted (d : Datagram) (order : List Nat) : Prop :=
  Guarded (fun past i => past ++ [i]) (Copes d) [] order

instance (d : Datagram) (order : List Nat) : Decidable (Accepted d order) :=
  inferInstanceAs (Decidable (Guarded ..))

variable {d : Datagram}

theorem completes_cons {b : PktBuff} {i : Nat} {rest : List Nat} :
    Completes d b (i :: rest) ↔
      (if rest = [] then ∃ pkt, (netDefragment b (d.frag i)).1 = some pkt ∧ Whole d pkt
        else (netDefragment b (d.frag i)).1 = none) ∧
      Completes d (netDefragment b (d.frag i)).2 rest := by
  constructor
  · intro h
    exact ⟨h [] i rest rfl, fun past k later e => h (i :: past) k later (by rw [e]; rfl)⟩
  · rintro ⟨h0, h⟩ past k later e
    cases past with
    | nil =>
      obtain ⟨rfl, rfl⟩ := List.cons.inj e
      exact h0
    | cons a past =>
      obtain ⟨rfl, hrest⟩ := List.cons.inj e
      exact h past k later hrest

/-- Fragments `order` are to come, and with them the datagram is whole. -/
structure Remaining (d : Datagram) (past order : List Nat) : Prop where
  nodup : order.Nodup
  inside : ∀ k ∈ order, k < d.n ∧ k ∉ past
  all : ∀ k, k < d.n → k ∈ past ∨ k ∈ order

theorem Remaining.next {past rest : List Nat} {i : Nat} (h : Remaining d past (i :: rest)) :
    Remaining d (past ++ [i]) rest where
  nodup := (List.nodup_cons.mp h.nodup).2
  inside := by
    intro k hk
    obtain ⟨hlt, hno⟩ := h.inside k (List.mem_cons_of_mem _ hk)
    refine ⟨hlt, ?_⟩
    rw [List.mem_append, List.mem_singleton, not_or]
    exact ⟨hno, fun e => (List.nodup_cons.mp h.nodup).1 (e ▸ hk)⟩
  all := by
    intro k hk
    rcases h.all k hk with h | h
    · exact .inl (List.mem_append_left _ h)
    · rcases List.mem_cons.mp h with rfl | h
      · exact .inl (by simp)
      · exact .inr h

/-- The invariant depends on which fragments are there, not on their order. -/
theorem DefragInv.of_rep {b : PktBuff} {past : List Nat} {i : Nat} {L : List (Nat × Nat)}
    (hrep : Rep d b L) (hin : ∀ k, k < d.n → (Missing L k ↔ k ∉ i :: past)) :
    DefragInv d ⟨b, past ++ [i]⟩ L where
  missing := by
    intro k hk
    rw [hin k hk]
    simp [not_or, and_comm]
  buffer := .inr hrep

/-- Something is missing while fragments are to come, and only then. -/
theorem holes_iff_remaining {b : PktBuff} {past rest : List Nat} {L : List (Nat × Nat)}
    (h : DefragInv d ⟨b, past⟩ L) (hsp : Spaced d.n L) (hrest : Remaining d past rest) :
    L = [] ↔ rest = [] := by
  constructor
  · rintro rfl
    cases rest with
    | nil => rfl
    | cons k rest =>
      obtain ⟨hk, hno⟩ := hrest.inside k (List.mem_cons_self ..)
      obtain ⟨x, hx, -⟩ := (h.missing k hk).mpr hno
      cases hx
  · rintro rfl
    cases L with
    | nil => rfl
    | cons x L =>
      have hm := missing_of_mem hsp (List.mem_cons_self (a := x) (l := L))
      have hk := hsp.missing_lt hm
      rcases hrest.all _ hk with hp | hp
      · exact absurd hp ((h.missing _ hk).mp hm)
      · cases hp

/-- **Completeness.**  Without an arrival that stops it the packet comes with the last
    one.  Induction on the arrivals to come. -/
theorem completes_of_accepted (hs : d.Solid) {b : PktBuff} {past order : List Nat}
    {L : List (Nat × Nat)} (h : DefragInv d ⟨b, past⟩ L) (hrem : Remaining d past order)
    (hacc : Guarded (fun past i => past ++ [i]) (Copes d) past order) : Completes d b order := by
  induction order generalizing b past L with
  | nil =>
    intro past' i later e
    simp at e
  | cons i rest ih =>
    obtain ⟨⟨hnd, hsec⟩, hacc⟩ := hacc
    obtain ⟨hi, hns⟩ := hrem.inside i (List.mem_cons_self ..)
    obtain ⟨L', hrep, hin, hsome, hnone⟩ := defrag_missing hs h hi hns hnd hsec
    have hinv := DefragInv.of_rep hrep hin
    have hend := holes_iff_remaining hinv hrep.spaced hrem.next
    refine completes_cons.mpr ⟨?_, ih hinv hrem.next hacc⟩
    split
    · next hrest =>
      cases hres : (netDefragment b (d.frag i)).1 with
      | none => exact absurd (hend.mpr hrest) (hnone hres)
      | some pkt => exact ⟨pkt, rfl, (hsome pkt hres).2⟩
    · next hrest =>
      cases hres : (netDefragment b (d.frag i)).1 with
      | none => rfl
      | some pkt => exact absurd (hend.mp (hsome pkt hres).1) hrest

/-! ## A last fragment that is thrown away -/

/-- While the last fragment has not been taken, `total_len` says so, and a packet that is
    returned has it as its length. -/
theorem totalLen_open {b : PktBuff} (hid : b.ipId = d.id) (htot : b.totalLen = 0xffff) {i : Nat}
    (hi : i + 1 < d.n) :
    (netDefragment b (d.frag i)).2.ipId = d.id ∧
      (netDefragment b (d.frag i)).2.totalLen = 0xffff ∧
      ∀ pkt, (netDefragment b (d.frag i)).1 = some pkt → pkt.ipLen = 0xffff := by
  have hreset : resetStructs b (d.frag i) = b := by
    rw [resetStructs, if_neg]
    rintro (h | h)
    · omega
    · exact h hid
  rw [netDefragment_frag b (by omega), hreset]
  split
  · exact ⟨hid, htot, by simp⟩
  · split
    · exact ⟨hid, htot, by simp⟩
    · simp only [takeFragment, d.frag_more (show i < d.n by omega), hi, decide_true, if_true, htot]
      refine ⟨hid, trivial, ?_⟩
      intro pkt hpkt
      split at hpkt
      · rw [← Option.some.inj hpkt]
      · cases hpkt

/-- Without its last fragment the datagram is never returned. -/
theorem not_completes_of_open {b : PktBuff} (hid : b.ipId = d.id) (htot : b.totalLen = 0xffff)
    {rest : List Nat} (hrest : ∀ k ∈ rest, k + 1 < d.n) (hne : rest ≠ []) :
    ¬ Completes d b rest := by
  induction rest generalizing b with
  | nil => exact absurd rfl hne
  | cons k rest ih =>
    obtain ⟨hid', htot', hpkt⟩ := totalLen_open hid htot (hrest k (List.mem_cons_self ..))
    rw [completes_cons]
    rintro ⟨hres, hlater⟩
    by_cases hlast : rest = []
    · rw [if_pos hlast] at hres
      obtain ⟨pkt, hsome, -, hlen, -⟩ := hres
      have h1 := hpkt pkt hsome
      have h2 := d.fits
      simp only [ipMaxUdp] at h2
      omega
    · exact ih hid' htot' (fun k hk => hrest k (List.mem_cons_of_mem _ hk)) hlast hlater

/-- A last fragment that is thrown away changes nothing. -/
theorem dropped_step (hs : d.Solid) {b : PktBuff} {past : List Nat} {i : Nat}
    {L : List (Nat × Nat)} (h : DefragInv d ⟨b, past⟩ L) (hdrop : Dropped d past i) :
    netDefragment b (d.frag i) = (none, resetStructs b (d.frag i)) := by
  have hi : i < d.n := by have := hdrop.1; omega
  have hb := h.rep i
  obtain ⟨pre, x, post, rfl, h1, h2, hfound⟩ :=
    hb.walk_missing hs ((h.missing i hi).mpr hdrop.2.2.1)
  have hdef := netDefragment_frag b hi
  rw [hfound] at hdef
  simpa only [(check_iff_dropped hs hb.spaced h.missing h1 h2).mpr hdrop, if_true] using hdef

/-- The arrival of a last fragment that is thrown away. -/
theorem not_completes_of_dropped (hs : d.Solid) {b : PktBuff} {past rest : List Nat} {i : Nat}
    {L : List (Nat × Nat)} (h : DefragInv d ⟨b, past⟩ L) (hrem : Remaining d past (i :: rest))
    (hdrop : Dropped d past i) : ¬ Completes d b (i :: rest) := by
  have hi := (hrem.inside i (List.mem_cons_self ..)).1
  have hm := (h.missing i hi).mpr hdrop.2.2.1
  have hb := h.rep i
  rw [completes_cons, dropped_step hs h hdrop]
  rintro ⟨hres, hlater⟩
  have hlast : i = d.n - 1 := by have := hdrop.1; omega
  by_cases hrest : rest = []
  · rw [if_pos hrest] at hres
    obtain ⟨pkt, hsome, -⟩ := hres
    cases hsome
  · refine not_completes_of_open hb.id (hb.totalOpen (hlast ▸ hm)) ?_ hrest hlater
    intro k hk
    have hk' := hrem.inside k (List.mem_cons_of_mem _ hk)
    have hne : k ≠ i := fun e => (List.nodup_cons.mp hrem.nodup).1 (e ▸ hk)
    omega

/-! ## A fragment that starts the second gap -/

/-- The datagram whose first `c` bytes are those of the buffer. -/
def Datagram.patch (d : Datagram) (m : Mem UInt8) (c : Nat) : Datagram :=
  { d with
    data := (List.range d.data.length).map fun t => if t < c then m t else d.data.getD t 0
    cut_last := by rw [d.cut_last, List.length_map, List.length_range]
    fits := by rw [List.length_map, List.length_range]; exact d.fits }

theorem patch_length (m : Mem UInt8) (c : Nat) :
    (d.patch m c).data.length = d.data.length := by simp [Datagram.patch]

theorem patch_getD (m : Mem UInt8) (c : Nat) {t : Nat} (ht : t < d.data.length) :
    (d.patch m c).data.getD t 0 = if t < c then m t else d.data.getD t 0 := by
  rw [List.getD_eq_getElem _ _ (by rwa [patch_length])]
  simp [Datagram.patch]

theorem patch_solid (hs : d.Solid) (m : Mem UInt8) (c : Nat) : (d.patch m c).Solid :=
  ⟨hs.nonempty, hs.room⟩

/-- The fragments behind those bytes are the same. -/
theorem patch_frag {m : Mem UInt8} {c k : Nat} (hk : k < d.n) (hc : c ≤ d.cut k) :
    (d.patch m c).frag k = d.frag k := by
  have hle := d.cut_le_length (show k + 1 ≤ d.n by omega)
  have hbody : ((d.patch m c).data.drop (d.cut k)).take (d.cut (k + 1) - d.cut k) =
      (d.data.drop (d.cut k)).take (d.cut (k + 1) - d.cut k) := by
    apply List.ext_getElem
    · simp [patch_length]
    · intro t h1 h2
      have ht : t < d.cut (k + 1) - d.cut k := by
        rw [List.length_take] at h2
        omega
      have hp := @patch_getD d m c (d.cut k + t) (by omega)
      rw [if_neg (by omega), List.getD_eq_getElem _ _ (by rw [patch_length]; omega),
        List.getD_eq_getElem _ _ (by omega)] at hp
      simpa using hp
  exact congrArg (Fragment.mk d.id (d.cut k / 8 + if k + 1 < d.n then 8192 else 0) (d.header k)) hbody

/-- Without the hole at the beginning the buffer represents the datagram that has the
    bytes of the buffer there. -/
theorem rep_patch {b : PktBuff} {x y : Nat × Nat} {post : List (Nat × Nat)}
    (h : Rep d b (y :: x :: post)) (hy : y.1 = 0) :
    Rep (d.patch b.payload (d.cut y.2)) { b with firstHole := d.ix x.1 } (x :: post) := by
  have hsp := h.spaced
  have hgap := (List.pairwise_cons.mp hsp.gaps).1 x (List.mem_cons_self ..)
  have hx := hsp.inside x (by simp)
  have hy2 := hsp.inside y (by simp)
  have hsub : ∀ k, Missing (x :: post) k → Missing (y :: x :: post) k :=
    fun k hk => missing_cons.mpr (.inr hk)
  have hsame : ∀ k, y.2 ≤ k → ¬ Missing (x :: post) k → ¬ Missing (y :: x :: post) k := by
    intro k hk hno hm
    rcases missing_cons.mp hm with hm | hm
    · omega
    · exact hno hm
  have hlinks := h.links
  have hix : d.ix y.1 = 0 := by rw [hy, Datagram.ix, d.cut_zero]
  rw [ixs_cons, links_cons, hix] at hlinks
  refine ⟨h.id, ⟨(List.pairwise_cons.mp hsp.gaps).2,
    fun z hz => hsp.inside z (List.mem_cons_of_mem _ hz)⟩, hlinks.2.2,
    fun z hz => h.ends z (List.mem_cons_of_mem _ hz), fun _ => rfl,
    fun hm => h.totalOpen (hsub _ hm), ?_, ?_⟩
  · intro hm
    rw [patch_length]
    have hlt : x.1 < d.n := by omega
    exact h.totalKnown (hsame _ (show y.2 ≤ d.n - 1 by omega) hm)
  · intro k hk hno t h1 h2
    have hk' : k < d.n := hk
    have h1' : d.cut k ≤ t := h1
    have h2' : t < d.cut (k + 1) := h2
    have hle := d.cut_le_length (show k + 1 ≤ d.n by omega)
    rw [patch_getD _ _ (show t < d.data.length by omega)]
    split
    · rfl
    · next hc =>
      have hyk : y.2 ≤ k := by
        by_contra hlt
        have := d.cut_le (show k + 1 ≤ y.2 by omega) hy2.2
        omega
      exact h.bytes k hk' (hsame k hyk hno) t h1' h2'

/-- Byte 6 is in no field of a descriptor. -/
theorem set_six (m : Mem UInt8) (h v : Nat) :
    setLastByte m h v 6 = m 6 ∧ setNextHole m h v 6 = m 6 ∧ setPrevHole m h v 6 = m 6 := by
  refine ⟨m.write_outside ?_, m.write_outside ?_, m.write_outside ?_⟩ <;>
    rw [le16_length] <;> omega

theorem fixHoles_six (m : Mem UInt8) {f thisfrag len h : Nat} (hpos : 0 < thisfrag + len / 8) :
    (fixHoles m f thisfrag len h).1 6 = m 6 := by
  have hcopy : copyHole m (thisfrag + len / 8) h 6 = m 6 := m.copy_outside (by omega)
  simp only [fixHoles]
  split_ifs <;> simp only [set_six, hcopy]

/-- Only the first fragment writes byte 6 of the payload. -/
theorem netDefragment_six (hs : d.Solid) (b : PktBuff) {i : Nat} (h0 : 0 < i) (hi : i < d.n) :
    (netDefragment b (d.frag i)).2.payload 6 = b.payload 6 := by
  have hix := ix_pos hs h0 hi
  have hreset : (resetStructs b (d.frag i)).payload 6 = b.payload 6 := by
    unfold resetStructs
    split
    · simp only [set_six]
    · rfl
  rw [netDefragment_frag b hi]
  split
  · exact hreset
  · split
    · exact hreset
    · simp only [takeFragment, d.frag_offset8 hi]
      rw [Mem.write_outside _ (.inl (by omega)), fixHoles_six _ (by omega)]
      split
      · exact hreset
      · rw [(set_six _ _ _).1, hreset]

/-- The holes when fragment `i` starts the second gap. -/
theorem holes_of_secondGap {past : List Nat} {L : List (Nat × Nat)} {i : Nat} (hi : i < d.n)
    (hsp : Spaced d.n L) (hin : ∀ k, k < d.n → (Missing L k ↔ k ∉ past))
    (hsec : SecondGap past i) :
    ∃ y x post, L = y :: x :: post ∧ y.1 = 0 ∧ x.1 = i ∧ i < x.2 := by
  obtain ⟨hns, j, hji, h0j, hfirst, hthere⟩ := hsec
  obtain ⟨x, hx, h1, h2⟩ := (hin i hi).mpr hns
  obtain ⟨pre, post, rfl⟩ := List.append_of_mem hx
  obtain ⟨haround, hbehind⟩ := hsp.around
  have hgone : ∀ k, k < i → j ≤ k → ¬ Missing (pre ++ x :: post) k := fun k hk hjk hm =>
    (hin k (by omega)).mp hm (hthere k hk hjk)
  have hx1 : x.1 = i := by
    by_contra hne
    exact hgone (i - 1) (by omega) (by omega) ⟨x, hx, by omega, by omega⟩
  -- the hole with the first bytes is the only one before
  obtain ⟨y, hy, hy1, hy2⟩ := (hin 0 (by omega)).mpr (hfirst 0 h0j)
  have hypre : y ∈ pre := by
    rcases List.mem_append.mp hy with hy | hy
    · exact hy
    · rcases List.mem_cons.mp hy with rfl | hy
      · omega
      · have := hbehind y hy
        omega
  obtain ⟨pre, pre', rfl⟩ := List.append_of_mem hypre
  have hsp' : Spaced d.n (pre ++ y :: (pre' ++ x :: post)) := by simpa using hsp
  obtain ⟨hay, hby⟩ := hsp'.around
  have hpre : pre = [] := by
    rcases pre with _ | ⟨z, pre⟩
    · rfl
    · have := hay z (by simp)
      omega
  have hpre' : pre' = [] := by
    rcases pre' with _ | ⟨z, pre'⟩
    · rfl
    · have hz1 := hby z (by simp)
      have hz2 := haround z (by simp)
      have hz := hsp.inside z (by simp)
      have hyj : j ≤ y.2 := by
        -- what is behind the hole is there
        by_contra hlt
        obtain ⟨w, hw, hw1, hw2⟩ := (hin y.2 (by omega)).mpr (hfirst y.2 (by omega))
        rcases List.mem_append.mp hw with hw | hw
        · rcases List.mem_append.mp hw with hw | hw
          · rw [hpre] at hw
            cases hw
          · rcases List.mem_cons.mp hw with rfl | hw
            · omega
            · have := hby w (List.mem_append_left _ hw)
              omega
        · have := hby w (List.mem_append_right _ hw)
          omega
      exact absurd (missing_of_mem hsp (show z ∈ _ by simp)) (hgone z.1 (by omega) (by omega))
  subst hpre hpre'
  exact ⟨y, x, post, rfl, by omega, hx1, h2⟩

/-- The hole that a fragment starts is the one that it is in. -/
theorem eq_second {n i : Nat} {x y z : Nat × Nat} {post : List (Nat × Nat)} (hsp : Spaced n (y :: x :: post))
    (hx1 : x.1 = i) (hx2 : i < x.2) (hz : z ∈ y :: x :: post) (hz1 : z.1 ≤ i) (hz2 : i < z.2) : z = x := by
  have hgaps := List.pairwise_cons.mp hsp.gaps
  rcases List.mem_cons.mp hz with rfl | hz
  · have hbefore := hgaps.1 x (List.mem_cons_self ..)
    omega
  · rcases List.mem_cons.mp hz with rfl | hz
    · rfl
    · have hbehind := (List.pairwise_cons.mp hgaps.2).1 z hz
      omega

/-- What is missing when the first hole is lost and a fragment starts the second one. -/
theorem missing_behind {n i : Nat} {x y : Nat × Nat} {post : List (Nat × Nat)} (hsp : Spaced n (y :: x :: post))
    (hx1 : x.1 = i) (hx2 : i < x.2) (k : Nat) :
    Missing (rest x i ++ post) k ↔ Missing (y :: x :: post) k ∧ i < k := by
  have hgaps := List.pairwise_cons.mp hsp.gaps
  have hbefore := hgaps.1 x (List.mem_cons_self ..)
  have hsecond : Spaced n ([] ++ x :: post) :=
    ⟨hgaps.2, fun z hz => hsp.inside z (List.mem_cons_of_mem _ hz)⟩
  have hmiss := missing_take hsecond (Nat.le_of_eq hx1) hx2 k
  rw [List.nil_append, List.nil_append] at hmiss
  rw [hmiss, @missing_cons y]
  constructor
  · rintro ⟨⟨z, hz, hz1, hz2⟩, hki⟩
    have hxz : x.1 ≤ z.1 := by
      rcases List.mem_cons.mp hz with rfl | hz
      · exact Nat.le_refl _
      · have hbehind := (List.pairwise_cons.mp hgaps.2).1 z hz
        omega
    exact ⟨.inr ⟨z, hz, hz1, hz2⟩, by omega⟩
  · rintro ⟨hm | hm, hki⟩
    · omega
    · exact ⟨hm, by omega⟩

/-- The arrival of a fragment that starts the second gap: a packet may come, too early;
    otherwise the first hole is lost, and the buffer goes on as one for the datagram
    that has the bytes of the buffer in it. -/
theorem secondGap_step (hs : d.Solid) {b : PktBuff} {past : List Nat} {i : Nat}
    {L : List (Nat × Nat)} (h : DefragInv d ⟨b, past⟩ L) (hi : i < d.n)
    (hnd : ¬ Dropped d past i) (hsec : SecondGap past i)
    (hnone : (netDefragment b (d.frag i)).1 = none) :
    ∃ j L', 0 < j ∧ j ≤ i ∧ L' ≠ [] ∧
      let d' := d.patch (resetStructs b (d.frag i)).payload (d.cut j)
      Rep d' (netDefragment b (d.frag i)).2 L' ∧
      ∀ k, k < d.n → (Missing L' k ↔ k ∉ List.range (i + 1) ++ past) := by
  have hb := h.rep i
  have hin : ∀ k, k < d.n → (Missing L k ↔ k ∉ past) := h.missing
  have hns : i ∉ past := hsec.1
  obtain ⟨y, x, post, rfl, hy1, hx1, hx2⟩ := holes_of_secondGap hi hb.spaced hin hsec
  have hgap := (List.pairwise_cons.mp hb.spaced.gaps).1 x (List.mem_cons_self ..)
  have hy := hb.spaced.inside y (by simp)
  have hix : d.ix y.1 = 0 := by rw [hy1, Datagram.ix, d.cut_zero]
  have hlinks := hb.links
  rw [ixs_cons, ixs_cons, links_cons, links_cons, hix] at hlinks
  obtain ⟨-, -, hprev, hnext, -⟩ := hlinks
  -- the walk ends at this hole, and the test lets the fragment pass
  obtain ⟨pre, x', post', hL, h1', h2', hfound⟩ := hb.walk_missing hs ((hin i hi).mpr hns)
  have hx' : x' = x := eq_second hb.spaced hx1 hx2 (by rw [hL]; simp) h1' h2'
  rw [hx'] at hfound
  have hcheck : ¬ d.ix i + (d.frag i).body.length / 8 ≤ d.ix x.1 := fun hc =>
    hnd ((@check_iff_dropped d hs _ [y] _ _ _ hb.spaced hin (by omega) hx2).mp hc)
  have hdef := netDefragment_frag b hi
  rw [hfound] at hdef
  simp only [hcheck, if_false] at hdef
  rw [hdef] at hnone ⊢
  -- the same step with `first_hole` at this hole, on the datagram that the buffer has
  have hrep := rep_patch hb hy1
  have hfrag := @patch_frag d (resetStructs b (d.frag i)).payload (d.cut y.2) i hi
    (d.cut_le (by omega) (by omega))
  have hlen : x.1 = i → 8 ≤ d.cut (i + 1) - d.cut i := by
    intro _
    rw [hx1] at hcheck
    rw [← d.frag_length hi]
    omega
  obtain ⟨hrep', -, hne⟩ := @take_missing _ (patch_solid hs _ _) _ [] _ _ _ hrep
    (show x.1 ≤ i by omega) hx2 hlen (fun _ z hz => by simp at hz)
  rw [hfrag] at hrep' hne
  have hend := d.frag_end hi
  have hcut := d.cut_eq hi
  have hnextIx : nextHole (resetStructs b (d.frag i)).payload (d.ix x.1) ≠
      (d.frag i).offset8 + (d.frag i).body.length / 8 := by
    rw [hnext, d.frag_offset8 hi]
    cases post with
    | nil => simp only [ixs_nil, List.headD_nil]; rw [hx1] at hcheck; omega
    | cons w post =>
      have hxw := (List.pairwise_cons.mp (List.pairwise_cons.mp hb.spaced.gaps).2).1 w
        (List.mem_cons_self ..)
      have hw := hb.spaced.inside w (by simp)
      have hlt := hs.ix_lt_ix (show i + 1 < w.1 by omega) (by omega)
      have hcut1 := d.cut_eq (show i + 1 < d.n by omega)
      simp only [ixs_cons, List.headD_cons]
      omega
  have hlt16 : 8 * (d.frag i).offset8 + (d.frag i).body.length < 65536 ∧
      (d.frag i).offset8 + (d.frag i).body.length / 8 < 65536 := by
    have := d.cut_le_length (show i + 1 ≤ d.n by omega)
    have hfits := d.fits
    simp only [ipMaxUdp] at hfits
    rw [d.frag_offset8 hi]
    omega
  obtain ⟨heq1, heq2⟩ := takeFragment_firstHole (f := d.ix x.1)
    (by rw [d.frag_offset8 hi, hx1]) hprev (fun _ _ => hnextIx) hlt16.1 hlt16.2
  refine ⟨y.2, [] ++ (rest x i ++ post), by omega, by omega, ?_, ?_, ?_⟩
  · exact hne (heq1 ▸ hnone)
  · rw [heq2 hnone]
    exact hrep'
  · intro k hk
    rw [List.nil_append, missing_behind hb.spaced hx1 hx2, List.mem_append, List.mem_range, not_or, ← hin k hk,
      and_comm]
    exact and_congr_left fun _ => by omega

/-- A fragment in front of all holes changes nothing, whatever its bytes are. -/
theorem before_holes (hs : d.Solid) {m : Mem UInt8} {c : Nat} {b : PktBuff} {L : List (Nat × Nat)}
    {k : Nat} (hrep : Rep (d.patch m c) b L) (hL : L ≠ []) (hk : k < d.n)
    (hbefore : ∀ a, Missing L a → k < a) : netDefragment b (d.frag k) = (none, b) := by
  have hreset : resetStructs b (d.frag k) = b := by
    rw [resetStructs, if_neg]
    rintro (h0 | hid)
    · exact hrep.totalLen_ne h0
    · exact hid hrep.id
  have hdef := netDefragment_frag b hk
  rw [hreset] at hdef
  rcases hrep.walk (patch_solid hs m c) hL hk with ⟨pre, x, post, hLx, -, -, hfound⟩ | ⟨-, hfound⟩
  · have hx : Missing L x.1 := missing_of_mem hrep.spaced (by rw [hLx]; simp)
    have hxk := hbefore x.1 hx
    have hxn : x.1 < d.n := hrep.spaced.missing_lt hx
    have hcheck : d.ix k + (d.frag k).body.length / 8 ≤ d.ix x.1 := by
      have hend := d.frag_end hk
      have h1 := d.cut_le (show k + 1 ≤ x.1 by omega) (by omega)
      have h2 := d.cut_eq hxn
      omega
    have hfound' : findHole b.payload (8 * d.ix k) 65536 b.firstHole = some (d.ix x.1) := hfound
    rw [hfound'] at hdef
    simpa only [hcheck, if_true] using hdef
  · have hfound' : findHole b.payload (8 * d.ix k) 65536 b.firstHole = none := hfound
    rwa [hfound'] at hdef

/-- With the first hole lost, what is returned has the bytes of the buffer in it. -/
theorem not_completes_of_lost (hs : d.Solid) {m : Mem UInt8} {j i : Nat} (hji : j ≤ i)
    (hdiff : d.data ≠ (d.patch m (d.cut j)).data) {b : PktBuff} {seen rest : List Nat}
    {L : List (Nat × Nat)} (hrep : Rep (d.patch m (d.cut j)) b L) (hL : L ≠ [])
    (hin : ∀ k, k < d.n → (Missing L k ↔ k ∉ seen)) (hseen : ∀ k, k ≤ i → k ∈ seen)
    (hnodup : rest.Nodup) (hrest : ∀ k ∈ rest, k < d.n ∧ (k ≤ i ∨ k ∉ seen)) (hne : rest ≠ []) :
    ¬ Completes d b rest := by
  induction rest generalizing b seen L with
  | nil => exact absurd rfl hne
  | cons k rest ih =>
    obtain ⟨hk, hkind⟩ := hrest k (List.mem_cons_self ..)
    obtain ⟨hknew, hnodup⟩ := List.nodup_cons.mp hnodup
    have hrest' : ∀ a ∈ rest, a < d.n ∧ (a ≤ i ∨ a ∉ seen) :=
      fun a ha => hrest a (List.mem_cons_of_mem _ ha)
    -- an arrival that changes nothing leaves the rest to do it
    have hidle : netDefragment b (d.frag k) = (none, b) → ¬ Completes d b (k :: rest) := by
      intro hstep
      rw [completes_cons, hstep]
      rintro ⟨hres, hlater⟩
      by_cases hlast : rest = []
      · rw [if_pos hlast] at hres
        obtain ⟨pkt, hsome, -⟩ := hres
        cases hsome
      · exact ih hrep hL hin hseen hnodup hrest' hlast hlater
    by_cases hki : k ≤ i
    · apply hidle
      apply before_holes hs hrep hL hk
      intro a ha
      have hano := (hin a (hrep.spaced.missing_lt ha)).mp ha
      by_contra hle
      exact hano (hseen a (by omega))
    · have hns : k ∉ seen := hkind.resolve_left hki
      have hfrag := @patch_frag d m (d.cut j) k hk (d.cut_le (by omega) (by omega))
      have hinv : DefragInv (d.patch m (d.cut j)) ⟨b, seen⟩ L := ⟨hin, .inr hrep⟩
      have hpatch := patch_solid hs m (d.cut j)
      by_cases hdrop : Dropped (d.patch m (d.cut j)) seen k
      · apply hidle
        have hstep := dropped_step hpatch hinv hdrop
        rwa [hrep.reset, hfrag] at hstep
      · have hsec : ¬ SecondGap seen k := by
          rintro ⟨-, j', -, h0, hfirst, -⟩
          exact hfirst 0 h0 (hseen 0 (by omega))
        obtain ⟨L', hrep', hin', hsome, hnone⟩ := defrag_missing hpatch hinv hk hns hdrop hsec
        rw [hfrag] at hrep' hsome hnone
        rw [completes_cons]
        rintro ⟨hres, hlater⟩
        cases hpkt : (netDefragment b (d.frag k)).1 with
        | none =>
          by_cases hlast : rest = []
          · rw [if_pos hlast, hpkt] at hres
            obtain ⟨pkt, hcontra, -⟩ := hres
            cases hcontra
          · refine ih hrep' (hnone hpkt) hin' (fun a ha => List.mem_cons_of_mem _ (hseen a ha))
              hnodup ?_ hlast hlater
            intro a ha
            obtain ⟨han, hor⟩ := hrest' a ha
            refine ⟨han, hor.imp_right fun hno => ?_⟩
            rw [List.mem_cons, not_or]
            exact ⟨fun e => hknew (e ▸ ha), hno⟩
        | some pkt =>
          by_cases hlast : rest = []
          · rw [if_pos hlast, hpkt] at hres
            obtain ⟨pkt', he, hwhole⟩ := hres
            obtain rfl := Option.some.inj he
            exact hdiff (hwhole.1.symm.trans (hsome pkt hpkt).2.1)
          · rw [if_neg hlast, hpkt] at hres
            cases hres

/-- The arrival of a fragment that starts the second gap, in a buffer that does not
    hold byte 6 of the datagram already. -/
theorem not_completes_of_secondGap (hs : d.Solid) {b : PktBuff} {past rest : List Nat} {i : Nat}
    {L : List (Nat × Nat)} (h : DefragInv d ⟨b, past⟩ L) (hrem : Remaining d past (i :: rest))
    (hnd : ¬ Dropped d past i) (hsec : SecondGap past i)
    (hsix : b.payload 6 ≠ d.data.getD 6 0) : ¬ Completes d b (i :: rest) := by
  have hi := (hrem.inside i (List.mem_cons_self ..)).1
  have h0 : 0 ∉ past ∧ 0 < i := by
    obtain ⟨-, j, hji, h0j, hfirst, -⟩ := hsec
    exact ⟨hfirst 0 h0j, by omega⟩
  have hrest : rest ≠ [] := by
    rintro rfl
    rcases hrem.all 0 (by omega) with hp | hp
    · exact h0.1 hp
    · have := List.mem_singleton.mp hp
      omega
  rw [completes_cons, if_neg hrest]
  rintro ⟨hnone, hlater⟩
  obtain ⟨j, L', hj, hji, hL', hrep, hin⟩ := secondGap_step hs h hi hnd hsec hnone
  refine not_completes_of_lost hs hji ?_ hrep hL' hin ?_ (List.nodup_cons.mp hrem.nodup).2 ?_ hrest
    hlater
  · -- byte 6 is one of those that the buffer has
    intro heq
    have hcut := hs.cut_lt hj (show j < d.n by omega)
    have hle := d.cut_le_length (show j ≤ d.n by omega)
    have hget := congrArg (fun l => l.getD 6 0) heq
    rw [patch_getD _ _ (by omega), if_pos (by omega)] at hget
    have hreset : (resetStructs b (d.frag i)).payload 6 = b.payload 6 := by
      unfold resetStructs
      split
      · simp only [set_six]
      · rfl
    exact hsix (hreset ▸ hget.symm)
  · intro k hk
    exact List.mem_append_left _ (List.mem_range.mpr (by omega))
  · intro k hk
    obtain ⟨hkn, hkp⟩ := hrem.inside k (List.mem_cons_of_mem _ hk)
    refine ⟨hkn, ?_⟩
    by_cases hki : k ≤ i
    · exact .inl hki
    · right
      rw [List.mem_append, List.mem_range, not_or]
      exact ⟨by omega, hkp⟩

/-- An order with an arrival that stops the algorithm is not completed, in a buffer that
    does not hold byte 6 of the datagram already.  Induction on the arrivals to come. -/
theorem accepted_of_completes (hs : d.Solid) {b : PktBuff} {past order : List Nat}
    {L : List (Nat × Nat)} (h : DefragInv d ⟨b, past⟩ L) (hrem : Remaining d past order)
    (hsix : 0 ∉ past → b.payload 6 ≠ d.data.getD 6 0) (hcomp : Completes d b order) :
    Guarded (fun past i => past ++ [i]) (Copes d) past order := by
  induction order generalizing b past L with
  | nil => trivial
  | cons i rest ih =>
    obtain ⟨hi, hns⟩ := hrem.inside i (List.mem_cons_self ..)
    have hnd : ¬ Dropped d past i := fun hd => not_completes_of_dropped hs h hrem hd hcomp
    have hsec : ¬ SecondGap past i := by
      intro hsec
      have h0 : 0 ∉ past := by
        obtain ⟨-, j, -, h0j, hfirst, -⟩ := hsec
        exact hfirst 0 h0j
      exact not_completes_of_secondGap hs h hrem hnd hsec (hsix h0) hcomp
    obtain ⟨L', hrep, hin, -, -⟩ := defrag_missing hs h hi hns hnd hsec
    refine ⟨⟨hnd, hsec⟩, ih (DefragInv.of_rep hrep hin) hrem.next ?_ (completes_cons.mp hcomp).2⟩
    intro h0
    rw [List.mem_append, List.mem_singleton, not_or] at h0
    rw [netDefragment_six hs b (by omega) hi]
    exact hsix h0.1

/-! ## Every order -/

/-- Two fragments or more, each with bytes. -/
structure Datagram.Proper (d : Datagram) : Prop where
  two : 2 ≤ d.n
  nonempty : ∀ k, k < d.n → d.cut k < d.cut (k + 1)

theorem Datagram.Proper.solid (h : d.Proper) : d.Solid where
  nonempty := fun k hk => h.nonempty k (by omega)
  room := by
    intro k hk
    have h1 := h.nonempty (k + 1) hk
    have h2 := d.cut_le_length (show k + 1 + 1 ≤ d.n by omega)
    have h3 := d.fits
    omega

theorem remaining_of_perm {order : List Nat} (h : order.Perm (List.range d.n)) :
    Remaining d [] order where
  nodup := h.nodup_iff.mpr List.nodup_range
  inside := fun _ hk => ⟨List.mem_range.mp (h.mem_iff.mp hk), List.not_mem_nil⟩
  all := fun _ hk => .inr (h.mem_iff.mpr (List.mem_range.mpr hk))

/-- **When reassembly completes.**  The fragments of a datagram arrive once each, in some
    order, at a buffer that holds no packet or another one.  The datagram is returned
    with the last arrival and nothing before, whatever the buffer holds, just when no
    arrival is a short last fragment behind its predecessor or starts the second gap
    while the first bytes are missing. -/
theorem completes_iff_accepted (d : Datagram) (hd : d.Proper) (order : List Nat)
    (hperm : order.Perm (List.range d.n)) :
    (∀ b, Fresh d b → Completes d b order) ↔ Accepted d order := by
  have hrem := remaining_of_perm hperm
  constructor
  · intro hall
    -- a buffer whose byte 6 is not that of the datagram
    let b : PktBuff := ⟨[], 0, fun _ => d.data.getD 6 0 + 1, 0, 0⟩
    have hb : Fresh d b := .inl rfl
    refine accepted_of_completes hd.solid (defragInv_fresh hb) hrem (fun _ heq => ?_) (hall b hb)
    have hnat : (d.data.getD 6 0 + 1 : UInt8).toNat = (d.data.getD 6 0).toNat := congrArg _ heq
    have hlt := (d.data.getD 6 0).toNat_lt
    simp only [UInt8.toNat_add, UInt8.toNat_one] at hnat
    omega
  · intro hacc b hb
    exact completes_of_accepted hd.solid (defragInv_fresh hb) hrem hacc

theorem threeFragments_proper : threeFragments.Proper :=
  ⟨Nat.le_succ 2, fun k _ => show 8 * k < 8 * (k + 1) by omega⟩

/-- The order 2, 0, 1. -/
theorem completes_three : Completes threeFragments emptyBuff [2, 0, 1] :=
  (completes_iff_accepted threeFragments threeFragments_proper [2, 0, 1] (by decide)).mpr
    (by decide) emptyBuff (.inl rfl)

/-- The order 1, 2, 0: a packet comes with fragment 2, before the first bytes. -/
theorem not_completes_three :
    ¬ ∀ (d : Datagram), d.Proper → ∀ (order : List Nat), order.Perm (List.range d.n) →
      ∀ b, Fresh d b → Completes d b order := by
  intro hall
  have h : (netDefragment (buffAfter threeFragments emptyBuff [1]) (threeFragments.frag 2)).1 = none :=
    hall threeFragments threeFragments_proper [1, 2, 0] (by decide) emptyBuff (.inl rfl) [1] 2 [0] rfl
  exact absurd h (by decide +kernel)

end Uboot.Net.Defrag
