/-
  Uboot.Net.Dns

  `DnsHandler` of net/dns.c: the walk over the question and the answers of a DNS message, up to the
  address that is handed to `setenv`.

  The payload stands at 0 in memory that goes on behind it, and a run records which bytes it has
  read.  The message as RFC 1035 lays it out, its names and its records, is
  defined beside it and compared with the walk.
-/

import Uboot.Lib.Extent
import Uboot.Lib.Holds
import Uboot.Net.NetReceive
import Mathlib.Logic.Relation

namespace Uboot.Net.Dns

open Uboot.Lib Uboot.Net.NetReceive Relation

-- ============================================================================
-- Definitions from the source
-- ============================================================================

def dnsARecord : Nat := 1

def dnsCnameRecord : Nat := 5

/-- The offset of `header->data`. -/
def dataOffset : Nat := 12

/-- The loop that prints the payload: `i` is a `u16`. -/
def dumpLoop (len : Nat) : Nat → Nat → Option Unit
  | 0, _ => none
  | fuel + 1, i => if i < len then dumpLoop len fuel ((i + 4) % 65536) else some ()

/-- The first position from `p` on that holds a zero or is not below `stop`; `fuel` is the
    distance. -/
def scanZero (m : Mem UInt8) (stop : Nat) : Nat → Nat → Nat
  | 0, p => p
  | fuel + 1, p => if p < stop ∧ m p ≠ 0 then scanZero m stop fuel (p + 1) else p

/-- `p` behind the host name of the question. -/
def questionEnd (m : Mem UInt8) (len : Nat) : Nat := scanZero m len (len - dataOffset) dataOffset

/-- `p` when the name of an answer at `p` is skipped: the type follows two bytes further on.  The
    loop runs while `&p[12] < e`. -/
def skipName (m : Mem UInt8) (len p : Nat) : Nat :=
  if m p ≠ 0xc0 then scanZero m (len - 12) (len - 12 - p) p - 1 else p

/-- The bytes that this reads. -/
def nameReads (m : Mem UInt8) (len p : Nat) : List Extent :=
  if m p ≠ 0xc0 then [⟨p, 1⟩, ⟨p, scanZero m (len - 12) (len - 12 - p) p + 1 - p⟩] else [⟨p, 1⟩]

/-- The type of an answer, with `p` as `skipName` leaves it. -/
def answerType (m : Mem UInt8) (p : Nat) : Nat := ntohs m (p + 2)

/-- `dlen`. -/
def answerLen (m : Mem UInt8) (p : Nat) : Nat := ntohs m (p + 10)

/-- A record that is skipped: where it starts, where its length is read, and where the next one is
    taken to start. -/
structure Skipped where
  start : Nat
  lenAt : Nat
  next : Nat
  deriving DecidableEq

/-- A run of the loop over the answers: the records skipped, the bytes read, and the A record, with
    its start and `p`. -/
structure Walk where
  skips : List Skipped
  reads : List Extent
  found : Option (Nat × Nat)

/-- The loop over the answers. -/
def answersLoop (m : Mem UInt8) (len : Nat) : Nat → Nat → Option Walk
  | 0, _ => none
  | fuel + 1, start =>
    if start + 12 < len then
      let p := skipName m len start
      let reads := nameReads m len start ++ [⟨p + 2, 2⟩]
      if answerType m p = dnsCnameRecord then
        let next := p + (12 + answerLen m p)
        (answersLoop m len fuel next).map fun w =>
          ⟨⟨start, p + 10, next⟩ :: w.skips, reads ++ [⟨p + 10, 2⟩] ++ w.reads, w.found⟩
      else if answerType m p = dnsARecord then some ⟨[], reads, some (start, p)⟩
      else some ⟨[], reads, none⟩
    else some ⟨[], [], none⟩

/-- The address that the host name gets, and how it was come by. -/
structure Resolved where
  address : List UInt8
  /-- Where its four bytes stand. -/
  src : Nat
  /-- Where the first answer is taken to start. -/
  first : Nat
  skips : List Skipped
  /-- Where the record of the address is taken to start. -/
  start : Nat

/-- What `DnsHandler` does. -/
structure Handled where
  /-- `NetState = NETLOOP_SUCCESS`. -/
  success : Bool
  reads : List Extent
  resolved : Option Resolved

/-- What follows the loop over the answers. -/
def afterAnswers (m : Mem UInt8) (len first : Nat) (w : Walk) : Handled :=
  match w.found with
  | none => ⟨true, w.reads, none⟩
  | some (start, p) =>
    if p + 12 < len then
      ⟨true, w.reads ++ [⟨p + 10, 2⟩, ⟨p + 12, 4⟩],
        if p + 12 + answerLen m p ≤ len then some ⟨m.read (p + 12) 4, p + 12, first, w.skips, start⟩
        else none⟩
    else ⟨true, w.reads, none⟩

/-- The part of `DnsHandler` behind the header. -/
def handleData (m : Mem UInt8) (len : Nat) : Option Handled :=
  let p := questionEnd m len
  let reads : List Extent := [⟨dataOffset, min (p + 1) len - dataOffset⟩, ⟨p + 1, 2⟩]
  if len < p + 5 ∨ ntohs m (p + 1) ≠ dnsARecord then some ⟨true, reads, none⟩
  else
    (answersLoop m len (len + 1) (p + 5)).map fun w =>
      let h := afterAnswers m len (p + 5) w
      { h with reads := reads ++ h.reads }

/-- One query is what was sent, and there has to be an answer. -/
def handleHeader (m : Mem UInt8) (len : Nat) : Option Handled :=
  if ntohs m 4 ≠ 1 then some ⟨false, [⟨4, 2⟩], none⟩
  else if ntohs m 6 = 0 then some ⟨true, [⟨4, 2⟩, ⟨6, 2⟩], none⟩
  else (handleData m len).map fun h => { h with reads := [⟨4, 2⟩, ⟨6, 2⟩] ++ h.reads }

/-- `DnsHandler`; `fuel` is for the printing loop. -/
def dnsHandler (dnsOurPort dest : Nat) (m : Mem UInt8) (len fuel : Nat) : Option Handled :=
  if dest ≠ dnsOurPort then some ⟨false, [], none⟩
  else (dumpLoop len fuel 0).bind fun _ => handleHeader m len

-- ============================================================================
-- A message as RFC 1035 lays it out
-- ============================================================================

/-- The end of the name at `p`: labels up to the empty one or to a pointer. -/
def nameEndFrom (m : Mem UInt8) (len : Nat) : Nat → Nat → Option Nat
  | 0, _ => none
  | fuel + 1, p =>
    if len ≤ p then none
    else
      let l := (m p).toNat
      if l = 0 then some (p + 1)
      else if 192 ≤ l then (if p + 2 ≤ len then some (p + 2) else none)
      else if l < 64 then nameEndFrom m len fuel (p + (l + 1))
      else none

def nameEnd (m : Mem UInt8) (len p : Nat) : Option Nat := nameEndFrom m len (len + 1) p

/-- `RDLENGTH` of a record whose name ends at `n`. -/
def rdlength (m : Mem UInt8) (n : Nat) : Nat := ntohs m (n + 8)

/-- The address comes from the data of an A record of four bytes inside the payload; the question and
    the records in front of it have been skipped by their own lengths. -/
structure FromRecord (m : Mem UInt8) (len : Nat) (r : Resolved) : Prop where
  question : ∃ n, nameEnd m len dataOffset = some n ∧ r.first = n + 4
  skipped : ∀ s ∈ r.skips, ∃ n, nameEnd m len s.start = some n ∧ s.lenAt = n + 8 ∧
    s.next = n + 10 + rdlength m n
  record : ∃ n, nameEnd m len r.start = some n ∧ ntohs m n = dnsARecord ∧ rdlength m n = 4 ∧ r.src = n + 10
  inside : r.src + 4 ≤ len
  address : r.address = m.read r.src 4

/-- The records from `first` to `start`, each where the one in front of it ends. -/
def Chained : Nat → List Skipped → Nat → Prop
  | p, [], start => p = start
  | p, s :: ss, start => s.start = p ∧ Chained s.next ss start

/-- What is asked of a run: it has read bytes of the payload only, and the address, if it has set one,
    comes from a record. -/
structure HandledSafely (m : Mem UInt8) (len : Nat) (h : Handled) : Prop where
  inside : ∀ e ∈ h.reads, e.stop ≤ len
  record : ∀ r, h.resolved = some r → Chained r.first r.skips r.start ∧ FromRecord m len r

/-- The handler comes to an end, and its run is safe. -/
def Safe (dnsOurPort dest : Nat) (m : Mem UInt8) (len : Nat) : Prop :=
  ∃ fuel h, dnsHandler dnsOurPort dest m len fuel = some h ∧ HandledSafely m len h

-- ============================================================================
-- The messages it is safe on
-- ============================================================================

/-- The answer at `p` is skipped as a CNAME record, and the next one taken to start at `q`. -/
def Skips (m : Mem UInt8) (len p q : Nat) : Prop :=
  p + 12 < len ∧ answerType m (skipName m len p) = dnsCnameRecord ∧
    q = skipName m len p + (12 + answerLen m (skipName m len p))

/-- The name at `p` is a pointer that begins with `0xc0`, or it ends with its first zero. -/
def NameSkipped (m : Mem UInt8) (len p : Nat) : Prop := nameEnd m len p = some (skipName m len p + 2)

/-- An answer that is taken for an A record has four bytes behind its header; when the length it states
    fits too, it is four, and all names in front of these bytes end with their first
    zero. -/
def AnswersFit (m : Mem UInt8) (len : Nat) : Prop :=
  ∀ start, ReflTransGen (Skips m len) (questionEnd m len + 5) start → start + 12 < len →
    let p := skipName m len start
    answerType m p = dnsARecord → p + 16 ≤ len ∧
      (p + 12 + answerLen m p ≤ len → answerLen m p = 4 ∧
        nameEnd m len dataOffset = some (questionEnd m len + 1) ∧
        ∀ q, ReflTransGen (Skips m len) (questionEnd m len + 5) q → ReflTransGen (Skips m len) q start →
          NameSkipped m len q)

/-- The payload is short enough for the printing loop and long enough for what is read of the
    header and of the question, and its answers fit. -/
structure Fits (m : Mem UInt8) (len : Nat) : Prop where
  dump : len ≤ 65532
  queries : 6 ≤ len
  answers : ntohs m 4 = 1 → 8 ≤ len
  question : ntohs m 4 = 1 → ntohs m 6 ≠ 0 → questionEnd m len + 3 ≤ len
  records : ntohs m 4 = 1 → ntohs m 6 ≠ 0 → questionEnd m len + 5 ≤ len →
    ntohs m (questionEnd m len + 1) = dnsARecord → AnswersFit m len

-- ============================================================================
-- The loops
-- ============================================================================

section Loops

variable {m : Mem UInt8} {len stop fuel p q start : Nat} {w : Walk}

/-- With the distance as fuel the scan stops for one of its two reasons. -/
theorem scanZero_spec (m : Mem UInt8) (h : stop - p ≤ fuel) :
    p ≤ scanZero m stop fuel p ∧ scanZero m stop fuel p ≤ max p stop ∧
      (scanZero m stop fuel p < stop → m (scanZero m stop fuel p) = 0) := by
  induction fuel generalizing p with
  | zero =>
    rw [scanZero]
    omega
  | succ fuel ih =>
    rw [scanZero]
    split
    · rename_i hgo
      obtain ⟨h₁, h₂, h₃⟩ := ih (p := p + 1) (by omega)
      exact ⟨by omega, by omega, h₃⟩
    · rename_i hstop
      exact ⟨Nat.le_refl p, by omega, fun hlt => by simpa [hlt] using hstop⟩

/-- The printing loop comes to an end unless `i` starts again at 0. -/
theorem dumpLoop_ends_iff : (∃ fuel, dumpLoop len fuel 0 = some ()) ↔ len ≤ 65532 := by
  constructor
  · rintro ⟨fuel, hends⟩
    by_contra hlong
    have hnever : ∀ fuel i, i % 4 = 0 → i < 65536 → dumpLoop len fuel i = none := by
      intro fuel
      induction fuel with
      | zero => exact fun i _ _ => rfl
      | succ fuel ih =>
        intro i h4 hlt
        rw [dumpLoop, if_pos (by omega)]
        exact ih _ (by omega) (Nat.mod_lt _ (by decide))
    rw [hnever fuel 0 rfl (by decide)] at hends
    cases hends
  · intro hshort
    have hsteps : ∀ fuel i, i % 4 = 0 → len ≤ i + 4 * fuel → dumpLoop len (fuel + 1) i = some () := by
      intro fuel
      induction fuel with
      | zero =>
        intro i _ hi
        rw [dumpLoop, if_neg (by omega)]
      | succ fuel ih =>
        intro i h4 hi
        rw [dumpLoop]
        split
        · rw [Nat.mod_eq_of_lt (by omega)]
          exact ih (i + 4) (by omega) (by omega)
        · rfl
    exact ⟨len + 1, hsteps len 0 rfl (by omega)⟩

theorem skipName_bounds (m : Mem UInt8) (h : start + 12 < len) :
    start ≤ skipName m len start + 1 ∧ skipName m len start + 12 < len := by
  rw [skipName]
  split
  · have hscan := scanZero_spec m (Nat.le_refl (len - 12 - start))
    omega
  · omega

theorem nameReads_inside (m : Mem UInt8) (h : start + 12 < len) :
    ∀ e ∈ nameReads m len start, e.stop ≤ len := by
  have hscan := scanZero_spec m (Nat.le_refl (len - 12 - start))
  rw [nameReads]
  split
  · simp only [List.mem_cons, List.not_mem_nil, or_false, forall_eq_or_imp, forall_eq, Extent.stop]
    omega
  · simp only [List.mem_singleton, forall_eq, Extent.stop]
    omega

/-- Every record takes the loop on. -/
theorem answersLoop_ends (m : Mem UInt8) (len : Nat) :
    ∀ fuel start, len - start < fuel → ∃ w, answersLoop m len fuel start = some w := by
  intro fuel
  induction fuel with
  | zero => exact fun start h => absurd h (Nat.not_lt_zero _)
  | succ fuel ih =>
    intro start h
    rw [answersLoop]
    split
    · rename_i hlt
      have hskip := skipName_bounds m hlt
      dsimp only
      split
      · obtain ⟨w, hw⟩ := ih (skipName m len start + (12 + answerLen m (skipName m len start))) (by omega)
        exact ⟨_, by rw [hw]; rfl⟩
      · split
        · exact ⟨_, rfl⟩
        · exact ⟨_, rfl⟩
    · exact ⟨_, rfl⟩

/-- The reads of one record that is looked at. -/
def recordReads (m : Mem UInt8) (len start : Nat) : List Extent :=
  nameReads m len start ++ [⟨skipName m len start + 2, 2⟩]

/-- **Rule for the loop.**  What holds where it stops and is carried from the next record to the one
    that is skipped holds of every run. -/
theorem answersLoop_rule {motive : Nat → Walk → Prop}
    (stop : ∀ start, len ≤ start + 12 → motive start ⟨[], [], none⟩)
    (skip : ∀ start next w, Skips m len start next → motive next w → motive start
      ⟨⟨start, skipName m len start + 10, next⟩ :: w.skips,
      recordReads m len start ++ [⟨skipName m len start + 10, 2⟩] ++ w.reads, w.found⟩)
    (found : ∀ start, start + 12 < len → answerType m (skipName m len start) = dnsARecord →
      motive start ⟨[], recordReads m len start, some (start, skipName m len start)⟩)
    (other : ∀ start, start + 12 < len → answerType m (skipName m len start) ≠ dnsCnameRecord →
      answerType m (skipName m len start) ≠ dnsARecord → motive start ⟨[], recordReads m len start, none⟩)
    (h : answersLoop m len fuel start = some w) : motive start w := by
  induction fuel generalizing start w with
  | zero => cases h
  | succ fuel ih =>
    rw [answersLoop] at h
    split at h
    · rename_i hlt
      dsimp only at h
      split at h
      · rename_i hcname
        obtain ⟨w', hw', rfl⟩ := Option.map_eq_some_iff.mp h
        exact skip start _ w' ⟨hlt, hcname, rfl⟩ (ih hw')
      · rename_i hcname
        split at h
        · rename_i ha
          rw [← Option.some.inj h]
          exact found start hlt ha
        · rename_i ha
          rw [← Option.some.inj h]
          exact other start hlt hcname ha
    · rename_i hlt
      rw [← Option.some.inj h]
      exact stop start (by omega)

theorem recordReads_inside (m : Mem UInt8) (h : start + 12 < len) :
    ∀ e ∈ recordReads m len start, e.stop ≤ len := by
  have hskip := skipName_bounds m h
  rw [recordReads, List.forall_mem_append, List.forall_mem_singleton]
  refine ⟨nameReads_inside m h, ?_⟩
  simp only [Extent.stop]
  omega

/-- The loop stays inside the payload. -/
theorem answersLoop_reads (h : answersLoop m len fuel start = some w) : ∀ e ∈ w.reads, e.stop ≤ len := by
  refine answersLoop_rule (motive := fun _ w => ∀ e ∈ w.reads, e.stop ≤ len) ?_ ?_ ?_ ?_ h
  · exact fun start _ e he => absurd he List.not_mem_nil
  · intro start next w hskip ih
    have hbounds := skipName_bounds m hskip.1
    rw [List.forall_mem_append, List.forall_mem_append, List.forall_mem_singleton]
    refine ⟨⟨recordReads_inside m hskip.1, ?_⟩, ih⟩
    simp only [Extent.stop]
    omega
  · exact fun start hlt _ => recordReads_inside m hlt
  · exact fun start hlt _ _ => recordReads_inside m hlt

theorem skips_unique {q' : Nat} (h : Skips m len p q) (h' : Skips m len p q') : q = q' := by
  rw [h.2.2, h'.2.2]

theorem skips_lt (h : Skips m len p q) : p < q := by
  have hbounds := skipName_bounds m h.1
  rw [h.2.2]
  omega

theorem le_of_skips (h : ReflTransGen (Skips m len) p q) : p ≤ q := by
  induction h with
  | refl => exact Nat.le_refl p
  | tail _ hstep ih => exact Nat.le_of_lt (Nat.lt_of_le_of_lt ih (skips_lt hstep))

/-- A skip as the loop makes it. -/
def SkipsBy (m : Mem UInt8) (len : Nat) (s : Skipped) : Prop :=
  Skips m len s.start s.next ∧ s.lenAt = skipName m len s.start + 10

/-- The records of a chain of skips are those between its ends. -/
theorem chained_records {ss : List Skipped} {a : Nat} (h : Chained p ss a)
    (hskips : ∀ s ∈ ss, SkipsBy m len s) :
    (∀ s ∈ ss, ReflTransGen (Skips m len) p s.start ∧ ReflTransGen (Skips m len) s.start a) ∧
      ReflTransGen (Skips m len) p a ∧
      ∀ q, ReflTransGen (Skips m len) p q → ReflTransGen (Skips m len) q a →
        q = a ∨ ∃ s ∈ ss, s.start = q := by
  induction ss generalizing p with
  | nil =>
    obtain rfl : p = a := h
    exact ⟨by simp, .refl, fun q hpq hqa => .inl (Nat.le_antisymm (le_of_skips hqa) (le_of_skips hpq))⟩
  | cons s ss ih =>
    obtain ⟨hs, hss⟩ := List.forall_mem_cons.mp hskips
    obtain ⟨rfl, hrest⟩ := h
    obtain ⟨hall, hto, hmid⟩ := ih hrest hss
    refine ⟨List.forall_mem_cons.mpr ⟨⟨.refl, .head hs.1 hto⟩, fun x hx => ⟨.head hs.1 (hall x hx).1, (hall x hx).2⟩⟩,
      .head hs.1 hto, fun q hpq hqa => ?_⟩
    rcases hpq.cases_head with rfl | ⟨c, hc, hcq⟩
    · exact .inr ⟨s, List.mem_cons_self, rfl⟩
    · rw [skips_unique hc hs.1] at hcq
      exact (hmid q hcq hqa).imp_right fun ⟨x, hx, hq⟩ => ⟨x, List.mem_cons_of_mem _ hx, hq⟩

/-- The A record that the loop finds, behind the records it has skipped. -/
theorem answersLoop_found (h : answersLoop m len fuel start = some w) :
    (∀ s ∈ w.skips, SkipsBy m len s) ∧ ∀ a p, w.found = some (a, p) → Chained start w.skips a ∧
      a + 12 < len ∧ answerType m (skipName m len a) = dnsARecord ∧ p = skipName m len a := by
  refine answersLoop_rule (motive := fun start w => (∀ s ∈ w.skips, SkipsBy m len s) ∧
    ∀ a p, w.found = some (a, p) → Chained start w.skips a ∧
      a + 12 < len ∧ answerType m (skipName m len a) = dnsARecord ∧ p = skipName m len a) ?_ ?_ ?_ ?_ h
  · exact fun start _ => ⟨by simp, by simp⟩
  · intro start next w hskip ⟨hskips, hfound⟩
    refine ⟨List.forall_mem_cons.mpr ⟨⟨hskip, rfl⟩, hskips⟩, fun a p hap => ?_⟩
    obtain ⟨hchain, hrest⟩ := hfound a p hap
    exact ⟨⟨rfl, hchain⟩, hrest⟩
  · intro start hlt ha
    refine ⟨by simp, fun a p hap => ?_⟩
    obtain ⟨rfl, rfl⟩ := Prod.mk.inj (Option.some.inj hap)
    exact ⟨rfl, hlt, ha, rfl⟩
  · exact fun start _ _ _ => ⟨by simp, by simp⟩

/-- An A record that the skips lead to is found. -/
theorem answersLoop_finds (h : answersLoop m len fuel start = some w) {a : Nat}
    (hreach : ReflTransGen (Skips m len) start a) (hlt : a + 12 < len)
    (ha : answerType m (skipName m len a) = dnsARecord) : w.found = some (a, skipName m len a) := by
  refine answersLoop_rule (motive := fun start w => ReflTransGen (Skips m len) start a →
    w.found = some (a, skipName m len a)) ?_ ?_ ?_ ?_ h hreach
  · intro start hstop hreach
    have hle := le_of_skips hreach
    omega
  · intro start next w hskip ih hreach
    rcases hreach.cases_head with rfl | ⟨c, hc, hca⟩
    · exact absurd (ha.symm.trans hskip.2.1) (by decide)
    · rw [skips_unique hc hskip] at hca
      exact ih hca
  · intro start _ hstart hreach
    rcases hreach.cases_head with rfl | ⟨c, hc, -⟩
    · rfl
    · exact absurd (hstart.symm.trans hc.2.1) (by decide)
  · intro start _ hcname ha' hreach
    rcases hreach.cases_head with rfl | ⟨c, hc, -⟩
    · exact absurd ha ha'
    · exact absurd hc.2.1 hcname

/-- A skip goes by the record's own length when its name ends where it is taken to end. -/
theorem skippedBy_iff {s : Skipped} (h : SkipsBy m len s) :
    (∃ n, nameEnd m len s.start = some n ∧ s.lenAt = n + 8 ∧ s.next = n + 10 + rdlength m n) ↔
      NameSkipped m len s.start := by
  obtain ⟨⟨-, -, hnext⟩, hlenAt⟩ := h
  constructor
  · rintro ⟨n, hn, hlen, -⟩
    rw [NameSkipped, hn]
    congr 1
    omega
  · intro hname
    refine ⟨_, hname, by omega, ?_⟩
    rw [hnext, rdlength, answerLen]
    simp only [Nat.add_assoc, Nat.reduceAdd]

/-- The address comes from a record when all names are skipped as they are. -/
theorem fromRecord_iff {a : Nat} (hskips : ∀ s ∈ w.skips, SkipsBy m len s)
    (hchain : Chained (questionEnd m len + 5) w.skips a) (ha : answerType m (skipName m len a) = dnsARecord)
    (hin : skipName m len a + 16 ≤ len) :
    FromRecord m len ⟨m.read (skipName m len a + 12) 4, skipName m len a + 12, questionEnd m len + 5, w.skips, a⟩ ↔
      answerLen m (skipName m len a) = 4 ∧ nameEnd m len dataOffset = some (questionEnd m len + 1) ∧
        ∀ q, ReflTransGen (Skips m len) (questionEnd m len + 5) q → ReflTransGen (Skips m len) q a →
          NameSkipped m len q := by
  obtain ⟨hall, hto, hmid⟩ := chained_records hchain hskips
  constructor
  · rintro ⟨⟨n₀, hn₀, hfirst⟩, hskipped, ⟨n, hn, -, hlen, hsrc⟩, -, -⟩
    dsimp only at hfirst hskipped hn hsrc
    obtain rfl : n = skipName m len a + 2 := by omega
    refine ⟨hlen, ?_, fun q hq hqa => ?_⟩
    · rw [hn₀]
      congr 1
      omega
    · rcases hmid q hq hqa with rfl | ⟨s, hs, rfl⟩
      · exact hn
      · exact (skippedBy_iff (hskips s hs)).mp (hskipped s hs)
  · rintro ⟨hlen, hquestion, hnames⟩
    exact
      { question := ⟨_, hquestion, rfl⟩
        skipped := fun s hs => (skippedBy_iff (hskips s hs)).mpr (hnames s.start (hall s hs).1 (hall s hs).2)
        record := ⟨_, hnames a hto .refl, ha, hlen, rfl⟩
        inside := hin
        address := rfl }

/-- What follows the question, when it is an answer to what was asked. -/
theorem afterAnswers_iff (h : answersLoop m len fuel (questionEnd m len + 5) = some w) :
    HandledSafely m len (afterAnswers m len (questionEnd m len + 5) w) ↔ AnswersFit m len := by
  have hreads := answersLoop_reads h
  obtain ⟨hskips, hfound⟩ := answersLoop_found h
  rcases hw : w.found with _ | ⟨a, p⟩
  · -- the answers lead to no A record
    refine iff_of_true ?_ fun start hreach hlt ha => ?_
    · rw [afterAnswers, hw]
      exact ⟨hreads, by simp⟩
    · exact absurd (answersLoop_finds h hreach hlt ha) (by simp [hw])
  · obtain ⟨hchain, hlt, ha, rfl⟩ := hfound a p hw
    have hto := (chained_records hchain hskips).2.1
    have hbounds := skipName_bounds m hlt
    simp only [afterAnswers, hw, if_pos hbounds.2]
    constructor
    · rintro ⟨hinside, hresolved⟩ start hreach hlt' p' ha'
      have hin : skipName m len a + 12 + 4 ≤ len := hinside ⟨skipName m len a + 12, 4⟩ (by simp)
      obtain ⟨rfl, -⟩ : start = a ∧ _ := by
        have hsame := (answersLoop_finds h hreach hlt' ha').symm.trans hw
        exact Prod.mk.inj (Option.some.inj hsame)
      refine ⟨hin, fun hfits => ?_⟩
      dsimp only at hresolved
      rw [if_pos hfits] at hresolved
      exact (fromRecord_iff hskips hchain ha hin).mp (hresolved _ rfl).2
    · intro hfit
      obtain ⟨hin, hrec⟩ := hfit a hto hlt ha
      refine ⟨?_, fun r hr => ?_⟩
      · rw [List.forall_mem_append]
        simp only [List.mem_cons, List.not_mem_nil, or_false, forall_eq_or_imp, forall_eq, Extent.stop]
        exact ⟨hreads, by omega, hin⟩
      dsimp only at hr
      split at hr
      · rename_i hfits
        rw [← Option.some.inj hr]
        exact ⟨hchain, (fromRecord_iff hskips hchain ha hin).mpr (hrec hfits)⟩
      · cases hr

end Loops

-- ============================================================================
-- The handler
-- ============================================================================

theorem questionReads_inside (m : Mem UInt8) (len : Nat) :
    (∀ e ∈ ([⟨dataOffset, min (questionEnd m len + 1) len - dataOffset⟩, ⟨questionEnd m len + 1, 2⟩] : List Extent),
      e.stop ≤ len) ↔ questionEnd m len + 3 ≤ len := by
  have hscan : dataOffset ≤ questionEnd m len := (scanZero_spec m (Nat.le_refl (len - dataOffset))).1
  simp only [List.mem_cons, List.not_mem_nil, or_false, forall_eq_or_imp, forall_eq, Extent.stop]
  omega

/-- A run with more reads in front. -/
theorem handledSafely_reads {m : Mem UInt8} {len : Nat} (rs : List Extent) (h : Handled) :
    HandledSafely m len { h with reads := rs ++ h.reads } ↔ (∀ e ∈ rs, e.stop ≤ len) ∧ HandledSafely m len h := by
  constructor
  · rintro ⟨hinside, hrecord⟩
    obtain ⟨hrs, hh⟩ := List.forall_mem_append.mp hinside
    exact ⟨hrs, hh, hrecord⟩
  · rintro ⟨hrs, hh, hrecord⟩
    exact ⟨List.forall_mem_append.mpr ⟨hrs, hh⟩, hrecord⟩

theorem handledSafely_none {m : Mem UInt8} {len : Nat} {success : Bool} {rs : List Extent} :
    HandledSafely m len ⟨success, rs, none⟩ ↔ ∀ e ∈ rs, e.stop ≤ len :=
  ⟨fun h => h.inside, fun h => ⟨h, by simp⟩⟩

/-- The part behind the header. -/
theorem handleData_iff (m : Mem UInt8) (len : Nat) :
    (∃ h, handleData m len = some h ∧ HandledSafely m len h) ↔
      questionEnd m len + 3 ≤ len ∧ (questionEnd m len + 5 ≤ len →
        ntohs m (questionEnd m len + 1) = dnsARecord → AnswersFit m len) := by
  have hreads := questionReads_inside m len
  rw [handleData]
  dsimp only
  split
  · -- it is not the answer to a question for an address
    rename_i hnot
    simp only [Option.some.injEq, exists_eq_left', handledSafely_none, hreads]
    refine ⟨fun h => ⟨h, fun hlen htype => ?_⟩, fun h => h.1⟩
    rcases hnot with hshort | hother
    · omega
    · exact absurd htype hother
  · rename_i hnot
    rw [not_or, Nat.not_lt, not_not] at hnot
    obtain ⟨w, hw⟩ := answersLoop_ends m len (len + 1) (questionEnd m len + 5) (by omega)
    rw [hw, Option.map_some]
    simp only [Option.some.injEq, exists_eq_left', handledSafely_reads, hreads, hnot, true_imp_iff,
      afterAnswers_iff hw]

theorem handleHeader_iff (m : Mem UInt8) (len : Nat) :
    (∃ h, handleHeader m len = some h ∧ HandledSafely m len h) ↔
      6 ≤ len ∧ (ntohs m 4 = 1 → 8 ≤ len ∧ (ntohs m 6 ≠ 0 → questionEnd m len + 3 ≤ len ∧
        (questionEnd m len + 5 ≤ len → ntohs m (questionEnd m len + 1) = dnsARecord → AnswersFit m len))) := by
  have hdata := handleData_iff m len
  rw [handleHeader]
  split
  · rename_i hqueries
    simp [hqueries, handledSafely_none, Extent.stop]
  · rename_i hqueries
    rw [not_not] at hqueries
    split
    · rename_i hanswers
      simp [hqueries, hanswers, handledSafely_none, Extent.stop]
    · rename_i hanswers
      have hmap : (∃ h, (handleData m len).map (fun h => { h with reads := [⟨4, 2⟩, ⟨6, 2⟩] ++ h.reads }) = some h ∧
          HandledSafely m len h) ↔ 8 ≤ len ∧ ∃ h, handleData m len = some h ∧ HandledSafely m len h := by
        rcases handleData m len with _ | h
        · simp
        · simp only [Option.map_some, Option.some.injEq, exists_eq_left', handledSafely_reads]
          simp [Extent.stop]
          omega
      rw [hmap, hdata]
      simp only [hqueries, hanswers, true_imp_iff, ne_eq, not_false_eq_true]
      exact ⟨fun h => ⟨Nat.le_trans (by decide) h.1, h⟩, fun h => h.2⟩

/-- **DNS answers.**  The handler is safe on a payload sent to its port exactly when the payload
    fits. -/
theorem safe_iff (dnsOurPort dest : Nat) (m : Mem UInt8) (len : Nat) :
    Safe dnsOurPort dest m len ↔ (dest = dnsOurPort → Fits m len) := by
  by_cases hdest : dest = dnsOurPort
  · rw [imp_iff_right hdest]
    have hheader := handleHeader_iff m len
    constructor
    · rintro ⟨fuel, h, hh, hsafe⟩
      rw [dnsHandler, if_neg (not_not_intro hdest)] at hh
      obtain ⟨u, hdump, hh⟩ := Option.bind_eq_some_iff.mp hh
      obtain ⟨hqueries, hrest⟩ := hheader.mp ⟨h, hh, hsafe⟩
      exact
        { dump := dumpLoop_ends_iff.mp ⟨fuel, hdump⟩
          queries := hqueries
          answers := fun h1 => (hrest h1).1
          question := fun h1 h0 => ((hrest h1).2 h0).1
          records := fun h1 h0 => ((hrest h1).2 h0).2 }
    · intro hfits
      obtain ⟨fuel, hdump⟩ := dumpLoop_ends_iff.mpr hfits.dump
      obtain ⟨h, hh, hsafe⟩ := hheader.mpr ⟨hfits.queries, fun h1 => ⟨hfits.answers h1, fun h0 =>
        ⟨hfits.question h1 h0, hfits.records h1 h0⟩⟩⟩
      refine ⟨fuel, h, ?_, hsafe⟩
      rw [dnsHandler, if_neg (not_not_intro hdest), hdump, Option.bind_some, hh]
  · refine iff_of_true ⟨0, ⟨false, [], none⟩, ?_, by simp, by simp⟩ fun h => absurd h hdest
    rw [dnsHandler, if_pos hdest]

-- ============================================================================
-- Answers to a question for the name `a`
-- ============================================================================

/-- A response with one question and the given answers. -/
def response (answers : List UInt8) : Mem UInt8 :=
  listMem ([0, 1, 0x81, 0x80, 0, 1, 0, 1, 0, 0, 0, 0] ++ [1, 97, 0, 0, 1, 0, 1] ++ answers)

/-- An A record for the name that a pointer to the question gives, with a stated length. -/
def aRecord (rdlength : UInt8) : List UInt8 :=
  [0xc0, 12, 0, 1, 0, 1, 0, 0, 0, 60, 0, rdlength, 192, 168, 1, 7]

example : Safe 1023 1023 (response (aRecord 4)) 35 :=
  ⟨35, _, rfl, by decide, by
    rintro r ⟨⟩
    exact ⟨rfl, ⟨15, rfl, rfl⟩, by simp, ⟨21, rfl, rfl, rfl, rfl⟩, by decide, rfl⟩⟩

/-- A record with two bytes of data at the end of the payload: two from behind it are taken, too. -/
theorem response_two_not_safe : ¬ ∀ (dnsOurPort dest : Nat) (m : Mem UInt8) (len : Nat),
    Safe dnsOurPort dest m len := by
  intro hall
  obtain ⟨fuel, h, hh, hsafe⟩ := hall 1023 1023 (response ((aRecord 2).take 14)) 33
  obtain ⟨-, -, hh⟩ := Option.bind_eq_some_iff.mp hh
  have hreads : (handleHeader (response ((aRecord 2).take 14)) 33).map (·.reads) = some h.reads := by rw [hh]; rfl
  have hmem : (⟨31, 4⟩ : Extent) ∈ h.reads := by
    rw [← Option.some.inj hreads]
    decide
  exact absurd (hsafe.inside _ hmem) (by decide)

end Uboot.Net.Dns
