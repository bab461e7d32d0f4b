/-
  Uboot.LibGeneric.Circbuf

  The circular buffer of `lib_generic/circbuf.c`, which the USB console puts between the
  console's functions and its endpoints.  Pointers are offsets from `data`, and `end` is the
  offset `totalsize`.  The bytes that `malloc` returns are whatever was there.  No count
  passes `totalsize`, so that none of the `unsigned int`s wraps.
-/

import Uboot.Lib.BoundedQueue
import Uboot.Lib.Mem
import Uboot.Lib.Run

namespace Uboot.LibGeneric.Circbuf

open Uboot.Lib

-- ============================================================================
-- The buffer
-- ============================================================================

/-- `circbuf_t` -/
structure CircbufT where
  /-- current number of bytes held -/
  size : Nat
  /-- number of bytes allocated -/
  totalsize : Nat
  /-- start of what is held -/
  top : Nat
  /-- space for the next byte -/
  tail : Nat
  data : Mem UInt8

def bufInit (malloc : Mem UInt8) (size : Nat) : CircbufT where
  size := 0
  totalsize := size
  top := 0
  tail := 0
  data := malloc

/-- One turn of the loop of `buf_push`.  The pointer `p` is a local variable. -/
def pushByte : CircbufT × Nat → UInt8 → CircbufT × Nat
  | (buf, p), c =>
    let data := fun x => if x = p then c else buf.data x
    let p := if p + 1 = buf.totalsize then 0 else p + 1
    -- pushing too much data just replaces old data
    if buf.size < buf.totalsize then ({ buf with data, size := buf.size + 1 }, p)
    else
      let top := buf.top + 1
      ({ buf with data, top := if top = buf.totalsize then 0 else top }, p)

/-- The length returned is that of `src`. -/
def bufPush (buf : CircbufT) (src : List UInt8) : CircbufT × Nat :=
  let (buf, p) := src.foldl pushByte (buf, buf.tail)
  ({ buf with tail := p }, src.length)

/-- The loop of `buf_pop`: the bytes stored at `dest`, and `p` behind them. -/
def popLoop (buf : CircbufT) : Nat → Nat → List UInt8 × Nat
  | 0, p => ([], p)
  | n + 1, p =>
    let c := buf.data p
    let p := p + 1
    let (dest, p) := popLoop buf n (if p = buf.totalsize then 0 else p)
    (c :: dest, p)

/-- The bytes stored at `dest`, with the length returned. -/
def bufPop (buf : CircbufT) (len : Nat) : CircbufT × List UInt8 × Nat :=
  -- cap to number of bytes in buffer
  let len := if len > buf.size then buf.size else len
  let (dest, p) := popLoop buf len buf.top
  ({ buf with top := p, size := buf.size - len }, dest, len)

/-- A call of the users of a buffer. -/
inductive Call where
  | push (src : List UInt8)
  | pop (len : Nat)

/-- What a call stores for its caller, and its return value. -/
def call (buf : CircbufT) : Call → CircbufT × List UInt8 × Nat
  | .push src =>
    let (buf, len) := bufPush buf src
    (buf, [], len)
  | .pop len => bufPop buf len

-- ============================================================================
-- What it is for
-- ============================================================================

/-- The same calls on a queue that has room for `cap` bytes. -/
def queueCall {cap : Nat} (q : BoundedQueue UInt8 cap) : Call → BoundedQueue UInt8 cap × List UInt8 × Nat
  | .push src => (q.push src, [], src.length)
  | .pop len => ((q.pop len).1, (q.pop len).2, min len q.entries.length)

variable {cap : Nat} {buf : CircbufT} {p : Nat} {q : BoundedQueue UInt8 cap}

/-- The buffer holds the queue, with `p` for its tail. -/
structure Holds (buf : CircbufT) (p : Nat) (q : BoundedQueue UInt8 cap) : Prop where
  totalsize : buf.totalsize = cap
  size : buf.size = q.entries.length
  top_lt : buf.top < cap
  tail : p = ringSlot cap buf.top buf.size
  byte : ∀ k c, q.entries[k]? = some c → buf.data (ringSlot cap buf.top k) = c

theorem Holds.size_le (h : Holds buf p q) : buf.size ≤ cap := h.size ▸ q.length_le

theorem Holds.tail_lt (h : Holds buf p q) : p < cap := by
  rw [h.tail]
  exact ringSlot_lt h.top_lt h.size_le

theorem holds_bufInit (malloc : Mem UInt8) (hcap : 0 < cap) :
    Holds (bufInit malloc cap) (bufInit malloc cap).tail (.empty UInt8 cap) where
  totalsize := rfl
  size := rfl
  top_lt := hcap
  tail := (ringSlot_zero hcap).symm
  byte := by rintro k c ⟨⟩

/-! ## Pushing -/

/-- While there is room the new byte is the last one. -/
theorem Holds.pushByte_of_lt (h : Holds buf p q) (hlt : buf.size < cap) (c : UInt8) :
    Holds (pushByte (buf, p) c).1 (pushByte (buf, p) c).2 (q.push [c]) := by
  have hentries := q.entries_push_of_lt (x := c) (h.size ▸ hlt)
  have hstep : pushByte (buf, p) c =
      ({ buf with data := fun x => if x = p then c else buf.data x, size := buf.size + 1 }, ringNext cap p) := by
    rw [pushByte, if_pos (h.totalsize ▸ hlt), h.totalsize]
    rfl
  rw [hstep]
  refine ⟨h.totalsize, ?_, h.top_lt, ?_, ?_⟩
  · rw [hentries, List.length_append, List.length_singleton, h.size]
  · simp only
    rw [h.tail, ringNext_slot h.top_lt hlt]
  intro k b hk
  rw [hentries] at hk
  rcases BoundedQueue.getElem?_concat hk with ⟨hlt', hold⟩ | ⟨rfl, rfl⟩
  · -- an older byte keeps its slot
    have hne : ringSlot cap buf.top k ≠ p := h.tail ▸ ringSlot_ne (h.size ▸ hlt') hlt
    exact (if_neg hne).trans (h.byte k b hold)
  · rw [← h.size]
    exact if_pos h.tail.symm

/-- Of a full buffer the byte replaces the oldest one, which stood at both ends. -/
theorem Holds.pushByte_of_full (h : Holds buf p q) (hfull : buf.size = cap) (c : UInt8) :
    Holds (pushByte (buf, p) c).1 (pushByte (buf, p) c).2 (q.push [c]) := by
  have hcap : 0 < cap := Nat.lt_of_le_of_lt (Nat.zero_le _) h.top_lt
  have hlength : q.entries.length = cap := h.size.symm.trans hfull
  have hentries := q.entries_push_of_full (x := c) hlength hcap
  have htail : p = buf.top := by rw [h.tail, hfull, ringSlot_cap]
  have hstep : pushByte (buf, p) c =
      ({ buf with data := fun x => if x = p then c else buf.data x, top := ringNext cap buf.top }, ringNext cap p) := by
    rw [pushByte, if_neg (by rw [h.totalsize]; omega), h.totalsize]
    rfl
  rw [hstep]
  refine ⟨h.totalsize, ?_, ?_, ?_, ?_⟩
  · rw [hentries, List.length_append, List.length_tail, List.length_singleton, h.size]
    omega
  · simp only [ringNext]
    split <;> have := h.top_lt <;> omega
  · simp only
    rw [hfull, ringSlot_cap, htail]
  intro k b hk
  rw [hentries] at hk
  have hslots : ∀ i, i < cap → ringSlot cap (ringNext cap buf.top) i = ringSlot cap buf.top (i + 1) :=
    fun i hi => ringSlot_next hi
  rcases BoundedQueue.getElem?_concat hk with ⟨hlt, hold⟩ | ⟨rfl, rfl⟩
  · rw [List.getElem?_tail] at hold
    rw [List.length_tail] at hlt
    have hne : ringSlot cap buf.top (k + 1) ≠ p := by
      intro heq
      have hfirst : ringSlot cap buf.top 0 ≠ ringSlot cap buf.top (k + 1) := ringSlot_ne (Nat.succ_pos k) (by omega)
      apply hfirst
      rw [heq, htail, ringSlot_zero h.top_lt]
    rw [hslots k (by omega)]
    exact (if_neg hne).trans (h.byte (k + 1) b hold)
  · rw [List.length_tail, hlength, hslots _ (by omega), Nat.sub_add_cancel hcap, ringSlot_cap]
    exact if_pos htail.symm

theorem Holds.pushByte (h : Holds buf p q) (c : UInt8) :
    Holds (pushByte (buf, p) c).1 (pushByte (buf, p) c).2 (q.push [c]) := by
  rcases Nat.lt_or_eq_of_le h.size_le with hlt | hfull
  · exact h.pushByte_of_lt hlt c
  · exact h.pushByte_of_full hfull c

theorem Holds.pushLoop (h : Holds buf p q) (src : List UInt8) :
    Holds (src.foldl Circbuf.pushByte (buf, p)).1 (src.foldl Circbuf.pushByte (buf, p)).2 (q.push src) := by
  induction src generalizing buf p q with
  | nil => exact BoundedQueue.push_nil.symm ▸ h
  | cons c src ih =>
    have hrest := ih (h.pushByte c)
    rw [BoundedQueue.push_push] at hrest
    exact hrest

theorem Holds.bufPush (h : Holds buf buf.tail q) (src : List UInt8) :
    Holds (bufPush buf src).1 (bufPush buf src).1.tail (q.push src) := by
  obtain ⟨htotal, hsize, htop, htail, hbyte⟩ := h.pushLoop src
  exact ⟨htotal, hsize, htop, htail, hbyte⟩

/-! ## Popping -/

/-- The loop reads the bytes from the `i`th on. -/
theorem Holds.popLoop (h : Holds buf p q) {i n : Nat} (hle : i + n ≤ buf.size) :
    popLoop buf n (ringSlot cap buf.top i) = ((q.entries.drop i).take n, ringSlot cap buf.top (i + n)) := by
  induction n generalizing i with
  | zero => rfl
  | succ n ih =>
    have hi : i < q.entries.length := by rw [← h.size]; omega
    have hnext : (if ringSlot cap buf.top i + 1 = buf.totalsize then 0 else ringSlot cap buf.top i + 1) =
        ringSlot cap buf.top (i + 1) := by
      rw [h.totalsize]
      exact ringNext_slot h.top_lt (by have := h.size_le; omega)
    rw [Circbuf.popLoop, hnext, ih (by omega), h.byte i _ (List.getElem?_eq_getElem hi),
      List.drop_eq_getElem_cons hi, List.take_succ_cons, Nat.add_right_comm, Nat.add_assoc]

/-- The queue without its oldest `n` bytes, at most all of them. -/
theorem Holds.popped (h : Holds buf p q) {n : Nat} (hn : n ≤ buf.size) :
    Holds { buf with top := ringSlot cap buf.top n, size := buf.size - n } p (q.pop n).1 where
  totalsize := h.totalsize
  size := by rw [BoundedQueue.pop, List.length_drop, h.size]
  top_lt := ringSlot_lt h.top_lt (hn.trans h.size_le)
  tail := by
    have hle := h.size_le
    simp only
    rw [ringSlot_slot h.top_lt (by omega), Nat.add_sub_cancel' hn]
    exact h.tail
  byte := by
    intro k c hk
    rw [BoundedQueue.pop, List.getElem?_drop] at hk
    have hlt : n + k < q.entries.length := (List.getElem?_eq_some_iff.1 hk).1
    have hle := q.length_le
    rw [ringSlot_slot h.top_lt (by omega)]
    exact h.byte (n + k) c hk

theorem Holds.bufPop (h : Holds buf buf.tail q) (len : Nat) :
    (bufPop buf len).2 = ((q.pop len).2, min len q.entries.length) ∧
      Holds (bufPop buf len).1 (bufPop buf len).1.tail (q.pop len).1 := by
  have hcap : (if len > buf.size then buf.size else len) = min len q.entries.length := by
    rw [← h.size]
    split <;> omega
  have hn : min len q.entries.length ≤ buf.size := h.size ▸ Nat.min_le_right ..
  have hloop := h.popLoop (i := 0) (n := min len q.entries.length) (by omega)
  rw [ringSlot_zero h.top_lt, List.drop_zero, Nat.zero_add] at hloop
  have hpop : Circbuf.bufPop buf len =
      ({ buf with top := ringSlot cap buf.top (min len q.entries.length), size := buf.size - min len q.entries.length },
        q.entries.take (min len q.entries.length), min len q.entries.length) := by
    rw [Circbuf.bufPop, hcap, hloop]
  rw [hpop, ← BoundedQueue.pop_min]
  exact ⟨rfl, h.popped hn⟩

-- ============================================================================
-- Every run
-- ============================================================================

theorem Holds.call (h : Holds buf buf.tail q) (c : Call) :
    (call buf c).2 = (queueCall q c).2 ∧ Holds (call buf c).1 (call buf c).1.tail (queueCall q c).1 := by
  cases c with
  | push src => exact ⟨rfl, h.bufPush src⟩
  | pop len => exact h.bufPop len

/-- **A circular buffer is a bounded queue.**  Over any calls it answers as the queue does: `buf_pop`
    gives the oldest `min len size` bytes, in the order in which they were pushed, and what does not
    fit pushes the oldest ones out.  The size stays at most the capacity and both pointers inside
    the data. -/
theorem circbuf_is_queue (malloc : Mem UInt8) {cap : Nat} (hcap : 0 < cap) (calls : List Call) :
    let buf := after call (bufInit malloc cap) calls
    let q := after queueCall (BoundedQueue.empty UInt8 cap) calls
    answers call (bufInit malloc cap) calls = answers queueCall (BoundedQueue.empty UInt8 cap) calls ∧
      buf.size = q.entries.length ∧ (popLoop buf buf.size buf.top).1 = q.entries ∧
      buf.size ≤ cap ∧ buf.top < cap ∧ buf.tail < cap := by
  intro buf q
  let rel (b : CircbufT) (q : BoundedQueue UInt8 cap) : Prop := Holds b b.tail q
  have hstep : ∀ b q c, rel b q → True → (call b c).2 = (queueCall q c).2 ∧ rel (call b c).1 (queueCall q c).1 :=
    fun b q c hrel _ => hrel.call c
  have hstart : rel (bufInit malloc cap) (.empty UInt8 cap) := holds_bufInit malloc hcap
  have hsim : answers call (bufInit malloc cap) calls = answers queueCall (.empty UInt8 cap) calls ∧ rel buf q :=
    answers_eq hstep hstart fun _ _ => trivial
  obtain ⟨hanswers, hholds⟩ := hsim
  have hread := hholds.popLoop (i := 0) (n := buf.size) (Nat.zero_add _).le
  rw [ringSlot_zero hholds.top_lt, List.drop_zero, List.take_of_length_le hholds.size.ge] at hread
  exact ⟨hanswers, hholds.size, congrArg Prod.fst hread, hholds.size_le, hholds.top_lt, hholds.tail_lt⟩

/-- A push longer than a buffer of three bytes, popped in two parts. -/
theorem circbuf_is_queue_three :
    0 < 3 ∧ answers call (bufInit (fun _ => 0) 3) [.push [1, 2], .pop 1, .push [3, 4, 5, 6], .pop 2, .pop 5] =
      [([], 2), ([1], 1), ([], 4), ([4, 5], 2), ([6], 1)] :=
  ⟨by omega, (circbuf_is_queue (fun _ => 0) (Nat.succ_pos 2) _).1.trans rfl⟩

end Uboot.LibGeneric.Circbuf
