/-
  Uboot.Net.DefragSafe

  Which memory `__NetDefragment` touches, for frames that anyone may send.

  `NetReceive` rejects a frame that is shorter than its `ip_len`, but no other value of
  the fields a fragment has.  The log of a call has the hole descriptors it reads or
  writes and the `memcpy` at its end; a call is safe when they lie in `pkt_buff`, the
  copied length is not negative and the walk over the holes ends.  A run of calls is
  safe as long as each leaves the descriptors of the list whole.
-/

import Uboot.Lib.Run
import Uboot.Net.DefragHoles
import Uboot.Net.NetReceive
import Mathlib.Data.List.Perm.Subperm

namespace Uboot.Net.DefragSafe

open Uboot.Lib Uboot.Net.Defrag Uboot.Net.NetReceive

-- ============================================================================
-- Calls and what they touch
-- ============================================================================

/-- The call of `__NetDefragment` that a frame leads to: the packet, and `len`. -/
def defragCall (s : Host) (f : Frame) : Option (Fragment × Int) :=
  if f.len < 14 then none
  else
    match link s f with
    | none => none
    | some l =>
      if ¬ vlanMatches s l.vlanid ∨ l.prot ≠ protIp ∨ ¬ ipHeaderOk s f l.ip then none
      else if ¬ f.isFragment l.ip then none
      else if ¬ s.ipDefrag then none
      else some (f.fragment l.ip, f.ipLen l.ip - 20)

/-- How the walk over the holes is going. -/
inductive Walk
  | still
  | noHole
  | found (h : Nat)
  deriving DecidableEq

/-- The holes the walk reads.  There are 65536 places a link can name, so a walk that is
    still going after as many steps goes on for ever. -/
def walkHoles (m : Mem UInt8) (start : Nat) : Nat → Nat → List Nat × Walk
  | 0, _ => ([], .still)
  | fuel + 1, h =>
    if lastByte m h < start then
      if nextHole m h = 0 then ([h], .noHole)
      else
        let r := walkHoles m start fuel (nextHole m h)
        (h :: r.1, r.2)
    else ([h], .found h)

/-- The descriptors that the four branches touch; `stop` is `start + len` and `newh` is
    `thisfrag + len / 8`. -/
def touched (m : Mem UInt8) (thisfrag stop newh h : Nat) : List Nat :=
  if thisfrag ≤ h ∧ lastByte m h ≤ stop then
    h :: [nextHole m h, prevHole m h].filter (· ≠ 0)
  else if lastByte m h ≤ stop then [h]
  else if thisfrag ≤ h then
    let m := copyHole m newh h
    let next := nextHole m newh
    let m := if next ≠ 0 then setPrevHole m next newh else m
    newh :: h :: [next, prevHole m newh].filter (· ≠ 0)
  else newh :: h :: [nextHole m h].filter (· ≠ 0)

/-- The descriptors a call touches, and the place and length of its `memcpy`. -/
structure Log where
  holes : List Nat
  copy : Option (Nat × Int)

/-- `start + len` does not exceed `IP_MAXUDP`, in the unsigned comparison. -/
def InRange (ip : Fragment) (len : Int) : Prop :=
  0 ≤ 8 * ip.offset8 + len ∧ 8 * ip.offset8 + len ≤ ipMaxUdp

instance (ip : Fragment) (len : Int) : Decidable (InRange ip len) :=
  inferInstanceAs (Decidable (_ ∧ _))

/-- The structs are reset. -/
def Resets (b : PktBuff) (ip : Fragment) : Prop := b.totalLen = 0 ∨ b.ipId ≠ ip.ipId

instance (b : PktBuff) (ip : Fragment) : Decidable (Resets b ip) :=
  inferInstanceAs (Decidable (_ ∨ _))

/-- The walk of a call. -/
def callWalk (b : PktBuff) (ip : Fragment) : List Nat × Walk :=
  walkHoles (resetStructs b ip).payload (8 * ip.offset8) 65536 (resetStructs b ip).firstHole

/-- What a call touches. -/
def defragLog (b : PktBuff) (ip : Fragment) (len : Int) : Log :=
  if ¬ InRange ip len then ⟨[], none⟩
  else
    let seen := (if Resets b ip then [0] else []) ++ (callWalk b ip).1
    match (callWalk b ip).2 with
    | .still => ⟨seen, none⟩
    | .noHole => ⟨seen, none⟩
    | .found h =>
      if ip.offset8 + len.tdiv 8 ≤ h then ⟨seen, none⟩
      else
        let stop := (8 * ip.offset8 + len).toNat
        let m := if ip.moreFragments then (resetStructs b ip).payload
          else setLastByte (resetStructs b ip).payload h stop
        ⟨seen ++ h :: touched m ip.offset8 stop (ip.offset8 + len.tdiv 8).toNat h,
          some (8 * ip.offset8, len)⟩

/-- A call that stays in `pkt_buff`, does not copy a negative length and ends. -/
structure Safe (b : PktBuff) (ip : Fragment) (len : Int) : Prop where
  holes : ∀ h ∈ (defragLog b ip len).holes, 8 * h + 8 ≤ ipMaxUdp
  copy : ∀ c ∈ (defragLog b ip len).copy, 0 ≤ c.2 ∧ c.1 + c.2 ≤ ipMaxUdp
  walk : InRange ip len → (callWalk b ip).2 ≠ .still

-- ============================================================================
-- Runs
-- ============================================================================

/-- The buffer, and whether a packet has been returned since it was reset last. -/
structure Receiver where
  b : PktBuff
  finished : Bool

/-- A frame arrives. -/
def receive (s : Host) (r : Receiver) (f : Frame) : Receiver :=
  match defragCall s f with
  | none => r
  | some (ip, len) =>
    let finished := r.finished && decide ¬ (InRange ip len ∧ Resets r.b ip)
    if len < 0 then ⟨(shortFragment r.b ip len).getD r.b, finished⟩
    else
      let q := netDefragment r.b ip
      ⟨q.2, q.1.isSome || finished⟩

/-- A fragment that is taken leaves the descriptors of the other holes whole: it is not
    shorter than a header, it ends before the next hole, and where a hole remains behind
    it, it ends on a multiple of eight with room for the descriptor. -/
def Fits (b : PktBuff) (ip : Fragment) (len : Int) (h : Nat) : Prop :=
  0 ≤ len ∧
  (nextHole b.payload h ≠ 0 → 8 * ip.offset8 + len ≤ 8 * nextHole b.payload h) ∧
  (ip.moreFragments = true → 8 * ip.offset8 + len < lastByte b.payload h →
    8 ∣ len ∧ 8 * ip.offset8 + len < ipMaxUdp)

instance (b : PktBuff) (ip : Fragment) (len : Int) (h : Nat) : Decidable (Fits b ip len h) :=
  inferInstanceAs (Decidable (_ ∧ (_ → _) ∧ (_ → _ → _)))

/-- The fragment fits where it passes the tests. -/
def FitsFound (b : PktBuff) (ip : Fragment) (len : Int) : Prop :=
  ∀ h ∈ findHole (resetStructs b ip).payload (8 * ip.offset8) 65536 (resetStructs b ip).firstHole,
    ¬ ip.offset8 + len.tdiv 8 ≤ h → Fits (resetStructs b ip) ip len h

instance (b : PktBuff) (ip : Fragment) (len : Int) : Decidable (FitsFound b ip len) :=
  inferInstanceAs (Decidable (∀ h ∈ findHole .., _ → _))

/-- The calls the algorithm copes with: after a packet has been returned none with the
    same id, and of the others those fit that pass the tests. -/
def Harmless (s : Host) (r : Receiver) (f : Frame) : Prop :=
  ∀ c ∈ defragCall s f, InRange c.1 c.2 →
    (r.finished = true → Resets r.b c.1) ∧ FitsFound r.b c.1 c.2

instance (s : Host) (r : Receiver) (f : Frame) : Decidable (Harmless s r f) :=
  inferInstanceAs (Decidable (∀ c ∈ defragCall s f, _ → (_ → _) ∧ _))

/-- The buffer of `NetReceive` after a frame. -/
theorem netReceive_defragCall (s : Host) (b : PktBuff) (f : Frame) :
    (netReceive s b f).map Prod.fst =
      match defragCall s f with
      | none => some b
      | some (ip, len) =>
        if len < 0 then shortFragment b ip len else some (netDefragment b ip).2 := by
  unfold netReceive defragCall
  split
  · rfl
  · cases link s f with
    | none => rfl
    | some l =>
      dsimp only
      by_cases hok : ¬ vlanMatches s l.vlanid ∨ l.prot ≠ protIp ∨ ¬ ipHeaderOk s f l.ip
      · rw [if_pos hok, if_pos hok]
        rfl
      · rw [if_neg hok, if_neg hok]
        by_cases hfrag : ¬ f.isFragment l.ip
        · rw [if_pos hfrag, if_pos hfrag]
          rfl
        · rw [if_neg hfrag, if_neg hfrag]
          by_cases hdefrag : ¬ s.ipDefrag
          · rw [if_pos hdefrag, if_pos hdefrag]
            rfl
          · rw [if_neg hdefrag, if_neg hdefrag]
            dsimp only
            by_cases hshort : f.ipLen l.ip < 20
            · rw [if_pos hshort, if_pos (by omega), Option.map_map]
              exact Option.map_id'
            · rw [if_neg hshort, if_neg (by omega)]
              rfl

-- ============================================================================
-- The hole list
-- ============================================================================

/-- The holes are linked in the order of their places; each has room for its descriptor
    in the buffer and ends before the next one; ends are multiples of eight, except for
    that of a hole without end. -/
structure HoleList (m : Mem UInt8) (first : Nat) (hs : List Nat) : Prop where
  links : Links (nextHole m) (prevHole m) 0 hs 0
  first : first = hs.headD 0
  ne : hs ≠ []
  apart : hs.Pairwise fun k l => lastByte m k ≤ 8 * l
  room : ∀ k ∈ hs, 8 * k + 8 ≤ lastByte m k ∧ 8 * k + 8 ≤ ipMaxUdp
  ends : ∀ k ∈ hs, 8 ∣ lastByte m k ∨ lastByte m k = 65535

variable {m : Mem UInt8} {first start : Nat} {hs : List Nat}

/-- Places grow along the list. -/
theorem HoleList.sorted (h : HoleList m first hs) : hs.Pairwise (· < ·) := by
  refine h.apart.imp_of_mem fun {k l} hk _ hkl => ?_
  have := (h.room k hk).1
  omega

theorem HoleList.length_le (h : HoleList m first hs) : hs.length ≤ 2058 := by
  have hsub : hs ⊆ List.range 2058 := by
    intro k hk
    have := (h.room k hk).2
    simp only [ipMaxUdp] at this
    exact List.mem_range.mpr (by omega)
  have hnodup : hs.Nodup := h.sorted.imp fun {_ _} => Nat.ne_of_lt
  have hlen := (hnodup.subperm hsub).length_le
  rwa [List.length_range] at hlen

/-- The walk reads holes of the list only.  It ends, and at the first hole that ends at
    `start` or behind it, if there is one.  Induction on the list. -/
theorem walkHoles_spec {p fuel : Nat} (hl : Links (nextHole m) (prevHole m) p hs 0) (hne : hs ≠ [])
    (hpos : ∀ k ∈ hs.tail, k ≠ 0) (hfuel : hs.length ≤ fuel) :
    (∀ k ∈ (walkHoles m start fuel (hs.headD 0)).1, k ∈ hs) ∧
      ((walkHoles m start fuel (hs.headD 0)).2 = .noHole ∧
          findHole m start fuel (hs.headD 0) = none ∨
        ∃ pre h post, hs = pre ++ h :: post ∧ (∀ k ∈ pre, lastByte m k < start) ∧
          start ≤ lastByte m h ∧ (walkHoles m start fuel (hs.headD 0)).2 = .found h ∧
          findHole m start fuel (hs.headD 0) = some h) := by
  induction hs generalizing p fuel with
  | nil => exact absurd rfl hne
  | cons x xs ih =>
    obtain ⟨fuel, rfl⟩ : ∃ f, fuel = f + 1 := ⟨fuel - 1, by simp at hfuel; omega⟩
    obtain ⟨-, hnext, hl'⟩ := hl
    simp only [List.headD_cons, walkHoles, findHole]
    by_cases hlt : lastByte m x < start
    · simp only [hlt, if_true, hnext]
      cases xs with
      | nil => simp
      | cons y ys =>
        have hy0 : y ≠ 0 := hpos y (by simp)
        have hhead : (y :: ys).headD 0 = y := rfl
        obtain ⟨hin, hres⟩ := @ih x fuel hl' (List.cons_ne_nil _ _)
          (fun k hk => hpos k (List.mem_cons_of_mem _ hk)) (by simpa using hfuel)
        rw [hhead] at hin hres
        simp only [hhead, hy0, if_false]
        refine ⟨?_, ?_⟩
        · intro k hk
          rcases List.mem_cons.mp hk with rfl | hk
          · exact List.mem_cons_self ..
          · exact List.mem_cons_of_mem _ (hin k hk)
        · rcases hres with hno | ⟨pre, h, post, heq, hpre, hstop, hfound⟩
          · exact .inl hno
          · refine .inr ⟨x :: pre, h, post, by rw [heq]; rfl, ?_, hstop, hfound⟩
            intro k hk
            rcases List.mem_cons.mp hk with rfl | hk
            · exact hlt
            · exact hpre k hk
    · simp only [hlt, if_false]
      exact ⟨by simp, .inr ⟨[], x, xs, rfl, by simp, by omega, rfl, rfl⟩⟩

/-- What a list of holes with a found one in it offers to the four branches. -/
theorem HoleList.inList {pre post : List Nat} {h : Nat}
    (hl : HoleList m first (pre ++ h :: post)) : InList m first pre h post where
  links := hl.links
  nodup := hl.sorted.imp fun {_ _} => Nat.ne_of_lt
  first := hl.first
  small := by
    intro k hk
    have := (hl.room k hk).2
    simp only [ipMaxUdp] at this
    omega
  behind := by
    intro k hk
    have := (List.pairwise_cons.mp (List.pairwise_append.mp hl.sorted).2.1).1 k hk
    omega

/-- Behind a hole at index 0 stands a list of its own: a link back to 0 is none. -/
theorem HoleList.drop_zero {h : Nat} {post : List Nat} (hl : HoleList m first (0 :: h :: post)) :
    HoleList m h (h :: post) where
  links := hl.links.2.2
  first := rfl
  ne := List.cons_ne_nil _ _
  apart := (List.pairwise_cons.mp hl.apart).2
  room := fun k hk => hl.room k (List.mem_cons_of_mem _ hk)
  ends := fun k hk => hl.ends k (List.mem_cons_of_mem _ hk)

/-- Other holes between the same neighbours, with the ends `g`. -/
theorem HoleList.apart_replace {pre post mid : List Nat} {h : Nat} {g : Nat → Nat}
    (hl : HoleList m first (pre ++ h :: post)) (hg : ∀ k ∈ pre ++ post, g k = lastByte m k)
    (hmid : mid.Pairwise fun k l => g k ≤ 8 * l) (hlow : ∀ x ∈ mid, h ≤ x)
    (hhigh : ∀ x ∈ mid, g x ≤ lastByte m h) :
    (pre ++ (mid ++ post)).Pairwise fun k l => g k ≤ 8 * l := by
  obtain ⟨hpre, hpost, hcross⟩ := List.pairwise_append.mp hl.apart
  obtain ⟨hh, hpost⟩ := List.pairwise_cons.mp hpost
  have hgpre : ∀ k ∈ pre, g k = lastByte m k := fun k hk => hg k (List.mem_append_left _ hk)
  have hgpost : ∀ k ∈ post, g k = lastByte m k := fun k hk => hg k (List.mem_append_right _ hk)
  apply List.pairwise_append.mpr
  refine ⟨hpre.imp_of_mem fun hk _ hkl => by rw [hgpre _ hk]; exact hkl,
    List.pairwise_append.mpr ⟨hmid,
      hpost.imp_of_mem fun hk _ hkl => by rw [hgpost _ hk]; exact hkl, ?_⟩, ?_⟩
  · intro x hx l hl'
    have h1 := hhigh x hx
    have h2 := hh l hl'
    omega
  · intro k hk l hl'
    rw [hgpre k hk]
    rcases List.mem_append.mp hl' with hx | hx
    · have h1 := hcross k hk h (List.mem_cons_self ..)
      have h2 := hlow l hx
      omega
    · exact hcross k hk l (List.mem_cons_of_mem _ hx)

/-- A changed list whose descriptors the copied bytes leave alone. -/
theorem holeList_of_changed {xs xs' : List Nat} {r : Mem UInt8 × Nat × Bool} {body : List UInt8}
    (hch : Changed m xs xs' r) (hne : xs' ≠ [])
    (hapart : xs'.Pairwise fun k l => lastByte r.1 k ≤ 8 * l)
    (hroom : ∀ k ∈ xs', 8 * k + 8 ≤ lastByte r.1 k ∧ 8 * k + 8 ≤ ipMaxUdp)
    (hends : ∀ k ∈ xs', 8 ∣ lastByte r.1 k ∨ lastByte r.1 k = 65535)
    (hclear : ∀ k ∈ xs', 8 * k + 8 ≤ start ∨ start + body.length ≤ 8 * k) :
    HoleList (r.1.write start body) r.2.1 xs' := by
  have hkeep : ∀ k ∈ xs', ∀ i, i + 2 ≤ 8 →
      rd16 (r.1.write start body) (8 * k + i) = rd16 r.1 (8 * k + i) := by
    intro k hk i hi
    have := hclear k hk
    exact rd16_write_other _ (by omega)
  have hlast : ∀ k ∈ xs', lastByte (r.1.write start body) k = lastByte r.1 k :=
    fun k hk => hkeep k hk 0 (by omega)
  refine ⟨hch.links.congr (fun k hk => hkeep k hk 2 (by omega))
    (fun k hk => hkeep k hk 4 (by omega)), hch.first hne, hne, ?_, ?_, ?_⟩
  · exact hapart.imp_of_mem fun hk _ hkl => by rw [hlast _ hk]; exact hkl
  · intro k hk
    rw [hlast k hk]
    exact hroom k hk
  · intro k hk
    rw [hlast k hk]
    exact hends k hk

/-- What holds of the found hole when the fragment fits. -/
structure Ready (m : Mem UInt8) (first : Nat) (pre : List Nat) (h : Nat) (post : List Nat)
    (thisfrag len : Nat) (more : Bool) : Prop where
  list : HoleList m first (pre ++ h :: post)
  before : ∀ k ∈ pre, lastByte m k < 8 * thisfrag
  reached : 8 * thisfrag ≤ lastByte m h
  overlap : h < thisfrag + len / 8
  inRange : 8 * thisfrag + len ≤ ipMaxUdp
  next : ∀ k ∈ post, 8 * thisfrag + len ≤ 8 * k
  remains : more = true → 8 * thisfrag + len < lastByte m h →
    8 ∣ len ∧ 8 * thisfrag + len < ipMaxUdp

section Step

variable {pre post : List Nat} {h thisfrag len : Nat} {more : Bool}

/-- The buffer when a fragment without more behind it has truncated the hole. -/
def truncated (m : Mem UInt8) (more : Bool) (h stop : Nat) : Mem UInt8 :=
  if more then m else setLastByte m h stop

theorem nextHole_truncated {stop : Nat} : nextHole (truncated m more h stop) = nextHole m := by
  unfold truncated
  split <;> simp

theorem prevHole_truncated {stop : Nat} : prevHole (truncated m more h stop) = prevHole m := by
  unfold truncated
  split <;> simp

theorem lastByte_truncated {stop : Nat} (hs : stop < 65536) :
    lastByte (truncated m more h stop) =
      if more then lastByte m else Function.update (lastByte m) h stop := by
  unfold truncated
  split
  · rfl
  · exact lastByte_setLastByte m hs

theorem Ready.inList (hr : Ready m first pre h post thisfrag len more) :
    InList (truncated m more h (8 * thisfrag + len)) first pre h post := by
  have hin := hr.list.inList
  exact ⟨by rw [nextHole_truncated, prevHole_truncated]; exact hin.links, hin.nodup, hin.first,
    hin.small, hin.behind⟩

/-- The other holes have other places. -/
theorem Ready.ne (hr : Ready m first pre h post thisfrag len more) :
    ∀ k ∈ pre ++ post, k ≠ h := by
  obtain ⟨_, hpost, hcross⟩ := List.pairwise_append.mp hr.list.sorted
  intro k hk
  rcases List.mem_append.mp hk with hk | hk
  · exact Nat.ne_of_lt (hcross k hk h (List.mem_cons_self ..))
  · exact Nat.ne_of_gt ((List.pairwise_cons.mp hpost).1 k hk)

/-- The copied bytes and the descriptors of the other holes. -/
theorem Ready.clear (hr : Ready m first pre h post thisfrag len more) :
    ∀ k ∈ pre ++ post, 8 * k + 8 ≤ 8 * thisfrag ∨ 8 * thisfrag + len ≤ 8 * k := by
  intro k hk
  rcases List.mem_append.mp hk with hk | hk
  · have h1 := hr.before k hk
    have h2 := (hr.list.room k (by simp [hk])).1
    omega
  · exact .inr (hr.next k hk)

/-- A hole that remains behind the fragment: it was not truncated, and its new place is
    the end of the fragment, before the end of the hole and the end of the buffer. -/
theorem Ready.remaining (hr : Ready m first pre h post thisfrag len more)
    (hgt : 8 * thisfrag + len <
      lastByte (truncated m more h (8 * thisfrag + len)) h) :
    more = true ∧ 8 * (thisfrag + len / 8) = 8 * thisfrag + len ∧
      8 * (thisfrag + len / 8) + 8 ≤ lastByte m h ∧ 8 * (thisfrag + len / 8) + 8 ≤ ipMaxUdp := by
  have hrange := hr.inRange
  have hends := hr.list.ends h (by simp)
  simp only [ipMaxUdp] at hrange ⊢
  cases hm : more with
  | false =>
    rw [hm, lastByte_truncated (by omega)] at hgt
    simp at hgt
  | true =>
    rw [hm, lastByte_truncated (by omega)] at hgt
    simp only [if_true] at hgt
    obtain ⟨⟨c, hc⟩, hroom⟩ := hr.remains hm hgt
    simp only [ipMaxUdp] at hroom
    refine ⟨rfl, by omega, ?_, by omega⟩
    rcases hends with ⟨e, he⟩ | he <;> omega

/-- Truncating the found hole leaves the ends of the others. -/
theorem Ready.lastByte_other (hr : Ready m first pre h post thisfrag len more) :
    ∀ k ∈ pre ++ post, lastByte (truncated m more h (8 * thisfrag + len)) k = lastByte m k := by
  have hrange := hr.inRange
  simp only [ipMaxUdp] at hrange
  intro k hk
  rw [lastByte_truncated (by omega)]
  split
  · rfl
  · exact Function.update_of_ne (hr.ne k hk) ..

/-- The place behind the fragment is that of no other hole. -/
theorem Ready.newh_not_mem (hr : Ready m first pre h post thisfrag len more)
    (hgt : 8 * thisfrag + len < lastByte (truncated m more h (8 * thisfrag + len)) h) :
    thisfrag + len / 8 ∉ pre ++ h :: post := by
  obtain ⟨-, -, hroom, -⟩ := hr.remaining hgt
  have hover := hr.overlap
  intro hmem
  rcases List.mem_append.mp hmem with hk | hk
  · have h1 := hr.before _ hk
    have h2 := (hr.list.room _ (List.mem_append_left _ hk)).1
    omega
  · rcases List.mem_cons.mp hk with hk | hk
    · omega
    · have := (List.pairwise_cons.mp (List.pairwise_append.mp hr.list.apart).2.1).1 _ hk
      omega

/-- The list is whole after the change and the `memcpy` when the holes that have taken
    the place of the found one lie within it, outside the fragment. -/
theorem Ready.replace (hr : Ready m first pre h post thisfrag len more) {mid : List Nat}
    {r : Mem UInt8 × Nat × Bool} {body : List UInt8} (hbody : body.length = len)
    (hch : Changed (truncated m more h (8 * thisfrag + len)) (pre ++ h :: post)
      (pre ++ (mid ++ post)) r)
    (hne : pre ++ (mid ++ post) ≠ []) (hg : ∀ k ∈ pre ++ post, lastByte r.1 k = lastByte m k)
    (hmid : mid.Pairwise fun k l => lastByte r.1 k ≤ 8 * l)
    (hin : ∀ x ∈ mid, h ≤ x ∧ lastByte r.1 x ≤ lastByte m h)
    (hroom : ∀ x ∈ mid, 8 * x + 8 ≤ lastByte r.1 x ∧ 8 * x + 8 ≤ ipMaxUdp)
    (hends : ∀ x ∈ mid, 8 ∣ lastByte r.1 x ∨ lastByte r.1 x = 65535)
    (hclear : ∀ x ∈ mid, 8 * x + 8 ≤ 8 * thisfrag ∨ 8 * thisfrag + len ≤ 8 * x) :
    HoleList (r.1.write (8 * thisfrag) body) r.2.1 (pre ++ (mid ++ post)) := by
  -- each hole of the new list is one of `mid` or one that has stayed
  have hcase : ∀ k ∈ pre ++ (mid ++ post), k ∈ mid ∨ k ∈ pre ++ post := by
    intro k hk
    simp only [List.mem_append] at hk ⊢
    grind
  have hold : ∀ k ∈ pre ++ post, k ∈ pre ++ h :: post := by
    intro k hk
    simp only [List.mem_append, List.mem_cons] at hk ⊢
    grind
  refine holeList_of_changed hch hne
    (hr.list.apart_replace hg hmid (fun x hx => (hin x hx).1) (fun x hx => (hin x hx).2))
    ?_ ?_ ?_
  · intro k hk
    rcases hcase k hk with hx | hx
    · exact hroom k hx
    · rw [hg k hx]
      exact hr.list.room k (hold k hx)
  · intro k hk
    rcases hcase k hk with hx | hx
    · exact hends k hx
    · rw [hg k hx]
      exact hr.list.ends k (hold k hx)
  · intro k hk
    rw [hbody]
    rcases hcase k hk with hx | hx
    · exact hclear k hx
    · exact hr.clear k hx

/-- **Step lemma for the hole list.**  The fragment completes the datagram or leaves the
    list whole; one case for each branch. -/
theorem Ready.step (hr : Ready m first pre h post thisfrag len more) {body : List UInt8}
    (hbody : body.length = len) (hprev : thisfrag ≤ h → ∀ y ∈ pre.getLast?, y ≠ 0)
    {r : Mem UInt8 × Nat × Bool}
    (hfix : fixHoles (truncated m more h (8 * thisfrag + len)) first thisfrag len h = r) :
    r.2.2 = true ∨ ∃ hs', HoleList (r.1.write (8 * thisfrag) body) r.2.1 hs' := by
  have hrange := hr.inRange
  have hreach := hr.reached
  have hover := hr.overlap
  have hown := hr.list.room h (by simp)
  have hother := hr.lastByte_other
  have hne := hr.ne
  simp only [ipMaxUdp] at hrange
  by_cases hle : lastByte (truncated m more h (8 * thisfrag + len)) h ≤ 8 * thisfrag + len
  · by_cases hge : thisfrag ≤ h
    · -- the hole is removed
      obtain ⟨hch, hlast⟩ := fixHoles_remove hr.inList hge hle (hprev hge)
      rw [hfix] at hch hlast
      by_cases hnil : pre ++ post = []
      · exact .inl (hch.finished.mpr hnil)
      · refine .inr ⟨pre ++ ([] ++ post), hr.replace hbody hch hnil ?_ (by simp) (by simp)
          (by simp) (by simp) (by simp)⟩
        rw [hlast]
        exact hother
    · -- the hole is shortened
      obtain ⟨hch, hlast⟩ := fixHoles_shorten hr.inList (by omega) hle (by omega)
      rw [hfix] at hch hlast
      have hself : lastByte r.1 h = 8 * thisfrag := by rw [hlast, Function.update_self]
      refine .inr ⟨pre ++ ([h] ++ post), hr.replace hbody hch (by simp) ?_ (by simp) ?_ ?_ ?_ ?_⟩
      · intro k hk
        rw [hlast, Function.update_of_ne (hne k hk), hother k hk]
      all_goals
        intro x hx
        obtain rfl := List.mem_singleton.mp hx
        omega
  · obtain ⟨hmore, hplace, hroom, hmax⟩ := hr.remaining (by omega)
    have hnm := hr.newh_not_mem (by omega)
    have hends := hr.list.ends h (by simp)
    have htrunc : truncated m more h (8 * thisfrag + len) = m := by rw [hmore]; rfl
    have hin := hr.inList
    rw [htrunc] at hfix hin hle
    have hnew : thisfrag + len / 8 < 65536 := by omega
    have hnm' : thisfrag + len / 8 ∉ pre ++ post := by
      intro hk
      simp only [List.mem_append, List.mem_cons] at hk hnm
      grind
    have hnk : ∀ k ∈ pre ++ post, k ≠ thisfrag + len / 8 := fun k hk e => hnm' (e ▸ hk)
    by_cases hge : thisfrag ≤ h
    · -- the hole is moved
      obtain ⟨hch, hlast⟩ := fixHoles_move hin hge (by omega) (hprev hge) rfl hnew hnm'
      rw [hfix] at hch hlast
      rw [← htrunc] at hch
      have hself : lastByte r.1 (thisfrag + len / 8) = lastByte m h := by
        rw [hlast, Function.update_self]
      refine .inr ⟨pre ++ ([thisfrag + len / 8] ++ post),
        hr.replace hbody hch (by simp) ?_ (by simp) ?_ ?_ ?_ ?_⟩
      · intro k hk
        rw [hlast, Function.update_of_ne (hnk k hk)]
      all_goals
        intro x hx
        obtain rfl := List.mem_singleton.mp hx
        omega
    · -- the hole is split
      obtain ⟨hch, hlast⟩ :=
        fixHoles_split hin (by omega) (by omega) (by omega) rfl hnew hnm
      rw [hfix] at hch hlast
      rw [← htrunc] at hch
      have hself : lastByte r.1 h = 8 * thisfrag := by rw [hlast, Function.update_self]
      have hnext : lastByte r.1 (thisfrag + len / 8) = lastByte m h := by
        rw [hlast, Function.update_of_ne (by omega), Function.update_self]
      refine .inr ⟨pre ++ ([h, thisfrag + len / 8] ++ post),
        hr.replace hbody hch (by simp) ?_ ?_ ?_ ?_ ?_ ?_⟩
      · intro k hk
        rw [hlast, Function.update_of_ne (hne k hk), Function.update_of_ne (hnk k hk)]
      · simp only [List.pairwise_cons, List.mem_singleton, forall_eq, hself]
        exact ⟨by omega, by simp⟩
      all_goals
        intro x hx
        rcases List.mem_cons.mp hx with rfl | hx
        · omega
        · obtain rfl := List.mem_singleton.mp hx
          omega

/-- The neighbours of the found hole are holes of the list. -/
theorem Ready.neighbours (hr : Ready m first pre h post thisfrag len more) :
    ∀ k ∈ [nextHole m h, prevHole m h].filter (· ≠ 0), 8 * k + 8 ≤ ipMaxUdp := by
  obtain ⟨hp, hn⟩ := hr.list.inList.own
  intro k hk
  simp only [List.mem_filter, List.mem_cons, List.not_mem_nil, or_false, decide_eq_true_eq] at hk
  obtain ⟨hk, hk0⟩ := hk
  refine (hr.list.room k ?_).2
  rcases hk with rfl | rfl
  · rw [hn] at hk0 ⊢
    cases post with
    | nil => exact absurd rfl hk0
    | cons w post => exact List.mem_append_right _ (by simp)
  · rw [hp] at hk0 ⊢
    rcases List.eq_nil_or_concat' pre with rfl | ⟨pre, y, rfl⟩
    · exact absurd rfl hk0
    · simp

/-- Every descriptor the branches touch lies in the buffer. -/
theorem Ready.touched (hr : Ready m first pre h post thisfrag len more) :
    ∀ k ∈ touched (truncated m more h (8 * thisfrag + len)) thisfrag (8 * thisfrag + len)
      (thisfrag + len / 8) h, 8 * k + 8 ≤ ipMaxUdp := by
  have hown := (hr.list.room h (by simp)).2
  have hnear := hr.neighbours
  have hnext : nextHole (truncated m more h (8 * thisfrag + len)) h = nextHole m h := by
    rw [nextHole_truncated]
  have hprev : prevHole (truncated m more h (8 * thisfrag + len)) h = prevHole m h := by
    rw [prevHole_truncated]
  have hplace : ¬ lastByte (truncated m more h (8 * thisfrag + len)) h ≤ 8 * thisfrag + len →
      8 * (thisfrag + len / 8) + 8 ≤ ipMaxUdp ∧ thisfrag + len / 8 ∉ pre ++ h :: post :=
    fun hgt => ⟨(hr.remaining (by omega)).2.2.2, hr.newh_not_mem (by omega)⟩
  generalize truncated m more h (8 * thisfrag + len) = t at hnext hprev hplace ⊢
  unfold DefragSafe.touched
  split_ifs with h1 h2 h3
  · rw [hnext, hprev]
    exact List.forall_mem_cons.mpr ⟨hown, hnear⟩
  · exact List.forall_mem_cons.mpr ⟨hown, by simp⟩
  · obtain ⟨hmax, hnm⟩ := hplace h2
    have hlt : thisfrag + len / 8 < 65536 := by
      simp only [ipMaxUdp] at hmax
      omega
    -- the moved descriptor has the links of the old one
    have hn : nextHole (copyHole t (thisfrag + len / 8) h) (thisfrag + len / 8) =
        nextHole m h := by rw [nextHole_copyHole, Function.update_self, hnext]
    have hp : prevHole (copyHole t (thisfrag + len / 8) h) (thisfrag + len / 8) =
        prevHole m h := by rw [prevHole_copyHole, Function.update_self, hprev]
    have hp' : prevHole (if nextHole m h ≠ 0 then
        setPrevHole (copyHole t (thisfrag + len / 8) h) (nextHole m h) (thisfrag + len / 8)
        else copyHole t (thisfrag + len / 8) h) (thisfrag + len / 8) = prevHole m h := by
      split
      · next hn0 =>
        rw [prevHole_setPrevHole _ hlt, Function.update_of_ne, hp]
        intro he
        rw [hr.list.inList.own.2] at hn0 he
        cases post with
        | nil => exact hn0 rfl
        | cons w post => exact hnm (by rw [he]; simp)
      · exact hp
    simp only [hn, hp']
    exact List.forall_mem_cons.mpr ⟨hmax, List.forall_mem_cons.mpr ⟨hown, hnear⟩⟩
  · rw [hnext]
    refine List.forall_mem_cons.mpr ⟨(hplace h2).1, List.forall_mem_cons.mpr ⟨hown, ?_⟩⟩
    intro k hk
    refine hnear k ?_
    simp only [List.mem_filter, List.mem_cons, List.not_mem_nil, or_false] at hk ⊢
    grind

end Step

-- ============================================================================
-- One call
-- ============================================================================

section Call

variable {s : Host} {b : PktBuff} {ip : Fragment} {pre post : List Nat} {h : Nat} {len : Int}

/-- **Step lemma for the buffer.** -/
theorem takeFragment_whole (hr : Ready b.payload b.firstHole pre h post ip.offset8 ip.body.length
    ip.moreFragments) :
    (takeFragment b ip h).1.isSome = true ∨
      ∃ hs', HoleList (takeFragment b ip h).2.payload (takeFragment b ip h).2.firstHole hs' := by
  have hsome : ∀ b : PktBuff, (takeFragment b ip h).1.isSome =
      (fixHoles (truncated b.payload ip.moreFragments h (8 * ip.offset8 + ip.body.length))
        b.firstHole ip.offset8 ip.body.length h).2.2 :=
    fun b => Bool.eq_iff_iff.mpr Option.isSome_ite
  by_cases hprev : ip.offset8 ≤ h → ∀ y ∈ pre.getLast?, y ≠ 0
  · rw [hsome b]
    exact hr.step rfl hprev rfl
  · -- the found hole stands behind the one at index 0 and takes itself for the first
    push Not at hprev
    obtain ⟨hge, y, hy, rfl⟩ := hprev
    obtain ⟨pre, rfl⟩ := List.getLast?_eq_some_iff.mp hy
    obtain rfl : pre = [] := by
      have hsorted := (List.pairwise_append.mp (List.pairwise_append.mp hr.list.sorted).1).2.2
      rw [List.eq_nil_iff_forall_not_mem]
      intro k hk
      exact absurd (hsorted k hk 0 (by simp)) (by omega)
    have hlist := hr.list.drop_zero
    have hr' : Ready b.payload h [] h post ip.offset8 ip.body.length ip.moreFragments :=
      { hr with
        list := hlist
        before := by simp }
    have hrange := hr.inRange
    have hover := hr.overlap
    simp only [ipMaxUdp] at hrange
    have hnext : ip.moreFragments = true →
        8 * ip.offset8 + ip.body.length < lastByte b.payload h →
        nextHole b.payload h ≠ ip.offset8 + ip.body.length / 8 := by
      intro hmore hgt
      rw [hr'.list.inList.own.2]
      have hnm := hr'.newh_not_mem (by rw [truncated, hmore]; exact hgt)
      cases post with
      | nil => exact Nat.ne_of_lt (Nat.zero_lt_of_lt hover)
      | cons w post => exact fun he => hnm (by simp [← he])
    obtain ⟨hone, hrest⟩ := @takeFragment_firstHole b ip h h hge hr'.list.inList.own.1 hnext
      (by omega) (by omega)
    rcases hr'.step (r := fixHoles _ _ _ _ _) rfl (by simp) rfl with hdone | hwhole
    · rw [hone, hsome]
      exact .inl hdone
    · cases hres : (takeFragment b ip h).1 with
      | some p => exact .inl rfl
      | none =>
        rw [hrest hres]
        exact .inr hwhole

/-- The list of a buffer that was reset. -/
theorem holeList_reset (m : Mem UInt8) :
    HoleList (setPrevHole (setNextHole (setLastByte m 0 0xffff) 0 0) 0 0) 0 [0] where
  links := by
    simp [prevHole_setPrevHole, nextHole_setNextHole]
  first := rfl
  ne := List.cons_ne_nil _ _
  apart := List.pairwise_singleton ..
  room := by simp [lastByte_setLastByte, ipMaxUdp]
  ends := by simp [lastByte_setLastByte]

/-- What holds between two calls. -/
def Whole (r : Receiver) : Prop :=
  r.finished = true ∨ r.b.totalLen = 0 ∨ ∃ hs, HoleList r.b.payload r.b.firstHole hs

/-- A call that is within range walks over a whole list. -/
theorem Whole.resetStructs {r : Receiver} (hw : Whole r) (hf : r.finished = true → Resets r.b ip) :
    ∃ hs, HoleList (resetStructs r.b ip).payload (resetStructs r.b ip).firstHole hs := by
  unfold Defrag.resetStructs
  split
  · exact ⟨_, holeList_reset _⟩
  · next hres =>
    rcases hw with hfin | hzero | hlist
    · exact absurd (hf hfin) hres
    · exact absurd (.inl hzero) hres
    · exact hlist

/-- The walk ends, at a hole that the fragment reaches or with none. -/
theorem HoleList.walk {hs : List Nat} (hl : HoleList b.payload b.firstHole hs) (start : Nat) :
    (∀ k ∈ (walkHoles b.payload start 65536 b.firstHole).1, 8 * k + 8 ≤ ipMaxUdp) ∧
      ((walkHoles b.payload start 65536 b.firstHole).2 = .noHole ∧
          findHole b.payload start 65536 b.firstHole = none ∨
        ∃ pre h post, hs = pre ++ h :: post ∧ (∀ k ∈ pre, lastByte b.payload k < start) ∧
          start ≤ lastByte b.payload h ∧
          (walkHoles b.payload start 65536 b.firstHole).2 = .found h ∧
          findHole b.payload start 65536 b.firstHole = some h) := by
  have hpos : ∀ k ∈ hs.tail, k ≠ 0 := by
    have hsorted := hl.sorted
    cases hs with
    | nil => simp
    | cons x xs =>
      intro k hk
      have := (List.pairwise_cons.mp hsorted).1 k hk
      omega
  have hlen := hl.length_le
  rw [hl.first]
  obtain ⟨hin, hres⟩ := @walkHoles_spec b.payload start hs 0 65536 hl.links hl.ne hpos (by omega)
  exact ⟨fun k hk => (hl.room k (hin k hk)).2, hres⟩

theorem tdiv_eight (n : Nat) : (n : Int).tdiv 8 = (n / 8 : Nat) := Int.ofNat_tdiv n 8

theorem not_inRange : ¬ InRange ip len ↔
    8 * (ip.offset8 : Int) + len < 0 ∨ (ipMaxUdp : Int) < 8 * ip.offset8 + len := by
  unfold InRange
  omega

/-- A fragment that fits finds the list ready. -/
theorem ready_of_fits (hl : HoleList b.payload b.firstHole (pre ++ h :: post))
    (hpre : ∀ k ∈ pre, lastByte b.payload k < 8 * ip.offset8)
    (hreach : 8 * ip.offset8 ≤ lastByte b.payload h) (hrange : InRange ip len)
    (hover : ¬ ip.offset8 + len.tdiv 8 ≤ h) (hfits : Fits b ip len h) {n : Nat} (hn : len = n) :
    Ready b.payload b.firstHole pre h post ip.offset8 n ip.moreFragments := by
  subst hn
  obtain ⟨-, hnext, hremains⟩ := hfits
  obtain ⟨-, hmax⟩ := hrange
  rw [tdiv_eight] at hover
  refine ⟨hl, hpre, hreach, by omega, by omega, ?_, ?_⟩
  · intro k hk
    rw [hl.inList.own.2] at hnext
    cases post with
    | nil => simp at hk
    | cons w post =>
      have hw := hnext (hl.inList.behind w (List.mem_cons_self ..))
      simp only [List.headD_cons] at hw
      rcases List.mem_cons.mp hk with rfl | hk
      · omega
      · have hwk := (List.pairwise_cons.mp (List.pairwise_cons.mp
          (List.pairwise_append.mp hl.sorted).2.1).2).1 k hk
        omega
  · intro hmore hgt
    obtain ⟨hdvd, hroom⟩ := hremains hmore (by omega)
    omega

/-- Of a call on a whole list that fits, every access lies in the buffer. -/
theorem safe_of_fits
    (hwhole : InRange ip len →
      ∃ hs, HoleList (resetStructs b ip).payload (resetStructs b ip).firstHole hs)
    (hfits : InRange ip len → FitsFound b ip len) : Safe b ip len := by
  by_cases hrange : InRange ip len
  · obtain ⟨hs, hl⟩ := hwhole hrange
    obtain ⟨hin, hwalk⟩ := hl.walk (8 * ip.offset8)
    have hseen : ∀ k ∈ (if Resets b ip then [0] else []) ++ (callWalk b ip).1,
        8 * k + 8 ≤ ipMaxUdp := by
      refine List.forall_mem_append.mpr ⟨?_, hin⟩
      split <;> simp [ipMaxUdp]
    rcases hwalk with ⟨hno, -⟩ | ⟨pre, h, post, rfl, hpre, hreach, hw, hfound⟩
    · have hno' : (callWalk b ip).2 = .noHole := hno
      refine ⟨?_, ?_, fun _ => by rw [hno']; exact Walk.noConfusion⟩
      · simp only [defragLog, hrange, hno', not_true, if_false]
        exact hseen
      · simp [defragLog, hrange, hno']
    · have hw' : (callWalk b ip).2 = .found h := hw
      have hseen' : 8 * h + 8 ≤ ipMaxUdp := (hl.room h (by simp)).2
      by_cases hover : ip.offset8 + len.tdiv 8 ≤ h
      · refine ⟨?_, ?_, fun _ => by rw [hw']; exact Walk.noConfusion⟩
        · simp only [defragLog, hrange, hw', hover, not_true, if_true, if_false]
          exact hseen
        · simp [defragLog, hrange, hw', hover]
      · have hf := hfits hrange h hfound hover
        obtain ⟨n, rfl⟩ := Int.eq_ofNat_of_zero_le hf.1
        have hready := ready_of_fits hl hpre hreach hrange hover hf rfl
        have hstop : (8 * (ip.offset8 : Int) + n).toNat = 8 * ip.offset8 + n := by omega
        have hnewh : (ip.offset8 + (n : Int).tdiv 8).toNat = ip.offset8 + n / 8 := by
          rw [tdiv_eight]
          omega
        refine ⟨?_, ?_, fun _ => by rw [hw']; exact Walk.noConfusion⟩
        · simp only [defragLog, hrange, hw', hover, not_true, if_false, hstop, hnewh]
          exact List.forall_mem_append.mpr
            ⟨hseen, List.forall_mem_cons.mpr ⟨hseen', hready.touched⟩⟩
        · simp only [defragLog, hrange, hw', hover, not_true, if_false, Option.mem_some_iff]
          rintro c rfl
          exact ⟨hf.1, hrange.2⟩
  · exact ⟨by simp [defragLog, hrange], by simp [defragLog, hrange], fun h => absurd h hrange⟩

/-- `netDefragment` returns a packet or leaves a whole list. -/
theorem netDefragment_whole {hs : List Nat}
    (hl : HoleList (resetStructs b ip).payload (resetStructs b ip).firstHole hs)
    (hrange : InRange ip ip.body.length) (hfits : FitsFound b ip ip.body.length) :
    (netDefragment b ip).1.isSome = true ∨
      ∃ hs', HoleList (netDefragment b ip).2.payload (netDefragment b ip).2.firstHole hs' := by
  have hmax : ¬ ipMaxUdp < 8 * ip.offset8 + ip.body.length := by
    have := hrange.2
    omega
  simp only [netDefragment, hmax, if_false]
  rcases (hl.walk (8 * ip.offset8)).2 with ⟨-, hnone⟩ | ⟨pre, h, post, rfl, hpre, hreach, -, hfound⟩
  · rw [hnone]
    exact .inr ⟨hs, hl⟩
  · rw [hfound]
    dsimp only
    split
    · exact .inr ⟨_, hl⟩
    · next hover =>
      have hover' : ¬ (ip.offset8 : Int) + (ip.body.length : Int).tdiv 8 ≤ h := by
        rw [tdiv_eight]
        omega
      exact takeFragment_whole
        (ready_of_fits hl hpre hreach hrange hover' (hfits h hfound hover') rfl)

/-- A shorter packet than its header reaches no hole of a whole list. -/
theorem shortFragment_whole {hs : List Nat} (hlen : len < 0)
    (hl : HoleList (resetStructs b ip).payload (resetStructs b ip).firstHole hs)
    (hrange : InRange ip len) (hfits : FitsFound b ip len) :
    shortFragment b ip len = some (resetStructs b ip) := by
  have hmax := mt not_inRange.mpr (not_not.mpr hrange)
  simp only [shortFragment, hmax, if_false]
  rcases (hl.walk (8 * ip.offset8)).2 with ⟨-, hnone⟩ | ⟨pre, h, post, rfl, -, -, -, hfound⟩
  · rw [hnone]
  · rw [hfound]
    by_cases hover : ip.offset8 + len.tdiv 8 ≤ h
    · simp only [hover, if_true]
    · have := (hfits h hfound hover).1
      omega

end Call

-- ============================================================================
-- Runs that are harmless
-- ============================================================================

section Runs

variable {s : Host} {r : Receiver} {f : Frame} {ip : Fragment} {len : Int}

/-- A fragment and its length come from the same `ip_len`. -/
theorem defragCall_length (h : defragCall s f = some (ip, len)) :
    0 ≤ len → len = ip.body.length := by
  unfold defragCall at h
  split at h
  · cases h
  · split at h
    · cases h
    · split_ifs at h
      obtain ⟨rfl, rfl⟩ := Prod.mk.inj (Option.some.inj h)
      simp only [Frame.fragment, Mem.read_length]
      omega

/-- **Step lemma for the receiver.** -/
theorem Whole.receive (hw : Whole r) (hg : Harmless s r f) : Whole (receive s r f) := by
  unfold DefragSafe.receive
  cases hcall : defragCall s f with
  | none => exact hw
  | some c =>
    obtain ⟨ip, len⟩ := c
    dsimp only
    by_cases hrange : InRange ip len
    · obtain ⟨hfin, hfits⟩ := hg _ hcall hrange
      obtain ⟨hs, hl⟩ := hw.resetStructs hfin
      split
      · next hneg =>
        rw [shortFragment_whole hneg hl hrange hfits]
        exact .inr (.inr ⟨hs, hl⟩)
      · next hpos =>
        obtain rfl := defragCall_length hcall (by omega)
        rcases netDefragment_whole hl hrange hfits with hdone | hlist
        · exact .inl (by simp [hdone])
        · exact .inr (.inr hlist)
    · -- the fragment extends too far and is dropped
      have hfinished : (r.finished && decide ¬ (InRange ip len ∧ Resets r.b ip)) = r.finished := by
        simp [hrange]
      rw [hfinished]
      split
      · simp only [shortFragment, not_inRange.mp hrange, if_true, Option.getD_some]
        exact hw
      · next hpos =>
        have hlen := defragCall_length hcall (by omega)
        have hmax : ipMaxUdp < 8 * ip.offset8 + ip.body.length := by
          have := not_inRange.mp hrange
          omega
        simp only [netDefragment, hmax, if_true, Option.isSome_none, Bool.false_or]
        exact hw

/-- `receive` is what `NetReceive` does with the buffer; it loses no memory. -/
theorem netReceive_receive (hw : Whole r) (hg : Harmless s r f) :
    (netReceive s r.b f).map Prod.fst = some (receive s r f).b := by
  rw [netReceive_defragCall]
  unfold DefragSafe.receive
  cases hcall : defragCall s f with
  | none => rfl
  | some c =>
    obtain ⟨ip, len⟩ := c
    dsimp only
    split
    · next hneg =>
      by_cases hrange : InRange ip len
      · obtain ⟨hfin, hfits⟩ := hg _ hcall hrange
        obtain ⟨hs, hl⟩ := hw.resetStructs hfin
        rw [shortFragment_whole hneg hl hrange hfits]
        rfl
      · simp only [shortFragment, not_inRange.mp hrange, if_true, Option.getD_some]
    · rfl

/-- In a run of frames that are harmless, each call of `__NetDefragment` is safe, and
    `NetReceive` does with the buffer what the run says. -/
theorem safe_of_harmless (s : Host) (b : PktBuff) (hb : b.totalLen = 0) (frames : List Frame)
    (f : Frame) (hg : Guarded (receive s) (Harmless s) ⟨b, false⟩ (frames ++ [f])) :
    (∀ c ∈ defragCall s f, Safe (run (receive s) ⟨b, false⟩ frames).b c.1 c.2) ∧
      (netReceive s (run (receive s) ⟨b, false⟩ frames).b f).map Prod.fst =
        some (run (receive s) ⟨b, false⟩ (frames ++ [f])).b := by
  obtain ⟨hbefore, hlast, -⟩ := guarded_append.mp hg
  have hw : Whole (run (receive s) ⟨b, false⟩ frames) :=
    run_invariant (fun _ _ hw hg => hw.receive hg) (.inr (.inl hb)) hbefore
  refine ⟨?_, ?_⟩
  · rintro ⟨ip, len⟩ hc
    exact safe_of_fits (fun hrange => hw.resetStructs (hlast _ hc hrange).1)
      fun hrange => (hlast _ hc hrange).2
  · rw [run_append]
    exact netReceive_receive hw hlast

end Runs

-- ============================================================================
-- Two fragments
-- ============================================================================

/-- A host without addresses, on a build with reassembly. -/
def reassembler : Host := ⟨true, 0, 65535, 65535⟩

/-- Ethernet and IP header of a fragment, and zeros; `ipLen`, `off` and the checksum
    are low bytes. -/
def fragmentFrame (ipLen off ckHi ckLo : UInt8) : Frame where
  bytes := fun i => [
    0xff, 0xff, 0xff, 0xff, 0xff, 0xff, 0, 0, 0, 0, 0, 1, 0x08, 0x00,
    0x45, 0, 0, ipLen, 0, 1, 0x20, off, 0x40, 17, ckHi, ckLo].getD i 0
  len := 60
  len_lt := sixty_lt

/-- The first eight bytes of a datagram. -/
def firstFragment : Frame := fragmentFrame 28 0 0x5a 0xd1

/-- A fragment at offset 80 that claims to be shorter than its own header. -/
def headerless : Frame := fragmentFrame 0 10 0x5a 0xe3

theorem safe_firstFragment :
    (defragCall reassembler firstFragment).isSome = true ∧
      (∀ c ∈ defragCall reassembler firstFragment,
        Safe (run (receive reassembler) ⟨unusedBuff, false⟩ []).b c.1 c.2) ∧
      (netReceive reassembler (run (receive reassembler) ⟨unusedBuff, false⟩ []).b
        firstFragment).map Prod.fst =
          some (run (receive reassembler) ⟨unusedBuff, false⟩ ([] ++ [firstFragment])).b :=
  ⟨by decide, safe_of_harmless reassembler unusedBuff rfl [] firstFragment (by decide)⟩

/-- Its `memcpy` is of -20 bytes. -/
theorem headerless_not_safe :
    ¬ ∀ (s : Host) (b : PktBuff), b.totalLen = 0 → ∀ (frames : List Frame) (f : Frame),
      ∀ c ∈ defragCall s f, Safe (run (receive s) ⟨b, false⟩ frames).b c.1 c.2 := by
  intro hall
  have hcall : defragCall reassembler headerless =
      some (headerless.fragment 14, (headerless.ipLen 14 : Int) - 20) := rfl
  have hsafe := hall reassembler unusedBuff rfl [] headerless _ hcall
  have hcopy : (80, (-20 : Int)) ∈ (defragLog unusedBuff (headerless.fragment 14)
      (headerless.ipLen 14 - 20)).copy := by decide
  have hlen : (0 : Int) ≤ -20 := (hsafe.copy _ hcopy).1
  omega

end Uboot.Net.DefragSafe
