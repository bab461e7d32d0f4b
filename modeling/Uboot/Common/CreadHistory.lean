/-
  Uboot.Common.CreadHistory

  The history of the line editor as a list.  `cread_add_to_hist`, `hist_prev` and
  `hist_next` move three indices around a ring of `HIST_MAX` slots, one of which
  marks the end; `Recall` is the list of all lines that were entered with the number
  of steps one has gone back in it.  As long as the lines fit their slots, the ring
  answers as the list does.
-/

import Uboot.Common.CreadLine
import Uboot.Common.EnvCommon

namespace Uboot.Common.CreadLine

open Uboot.Lib Uboot.LibGeneric

-- ============================================================================
-- The ring
-- ============================================================================

/-- What happens to the history.  At the end of `cread_line` a line goes into it or
    not (`enter`, `discard`), and `hist_cur` goes back to `hist_add_idx`. -/
inductive HistOp
  | enter (line : CStr)
  | discard
  | prev
  | next

/-- `hist_cur = hist_add_idx` -/
def History.rewind (h : History) : History := { h with cur := some h.addIdx }

/-- The history after an operation, and the line that is recalled, if there is one. -/
def histStep (h : History) : HistOp → History × Option (List UInt8)
  | .enter line => ((creadAddToHist h line.bytes).rewind, none)
  | .discard => (h.rewind, none)
  | .prev => histPrev h
  | .next => histNext h

-- ============================================================================
-- The list
-- ============================================================================

/-- All lines entered so far, in order, and how many steps back one is.  No step back
    is the line that is being edited. -/
structure Recall where
  added : List (List UInt8)
  back : Nat

/-- How far one can go back. -/
def Recall.depth (r : Recall) : Nat := min r.added.length (histMax - 1)

/-- The line `k` steps back; the empty one for none. -/
def Recall.shown (r : Recall) (k : Nat) : List UInt8 :=
  if k = 0 then [] else r.added.getD (r.added.length - k) []

def Recall.step (r : Recall) : HistOp → Recall × Option (List UInt8)
  | .enter line => (⟨r.added ++ [line.bytes], 0⟩, none)
  | .discard => ({ r with back := 0 }, none)
  | .prev =>
    if r.back < r.depth then ({ r with back := r.back + 1 }, some (r.shown (r.back + 1)))
    else (r, none)
  | .next =>
    if r.back = 0 then (r, none) else ({ r with back := r.back - 1 }, some (r.shown (r.back - 1)))

/-- Nothing entered. -/
def Recall.empty : Recall := ⟨[], 0⟩

-- ============================================================================
-- The ring holds the list
-- ============================================================================

/-- Slot `i` holds `line` with its NUL. -/
structure SlotHolds (lines : Ram) (i : Nat) (line : List UInt8) : Prop where
  noNul : 0 ∉ line
  length_lt : line.length < histSize
  text : lines.cells.read (i * histSize) (line.length + 1) = line ++ [0]

/-- A slot that holds a line shows it. -/
theorem SlotHolds.slot {h : History} {i : Nat} {line : List UInt8} (hi : i < histMax)
    (hh : SlotHolds h.lines i line) : h.slot i = line := by
  have hlen := hh.length_lt
  obtain ⟨k, hk⟩ : ∃ k, (histMax - i) * histSize = line.length + 1 + k := by
    refine ⟨(histMax - i) * histSize - (line.length + 1), ?_⟩
    simp only [histMax, histSize, maxCmdbufSize] at *
    omega
  rw [History.slot, hk, Mem.read_add, hh.text, List.append_assoc, List.singleton_append,
    cstr_append hh.noNul]

/-- Line `j` is in slot `j` modulo `HIST_MAX`, as long as fewer than `HIST_MAX` lines
    came from it on; the indices follow from the number of lines and of steps back. -/
structure Ring (h : History) (r : Recall) : Prop where
  addIdx : h.addIdx = r.added.length % histMax
  max : h.max = min r.added.length (histMax - 1)
  cur : h.cur = some ((r.added.length - r.back) % histMax) ∨
    h.cur = none ∧ r.added = [] ∧ r.back = 0
  back_le : r.back ≤ r.depth
  lines : ∀ j (hj : j < r.added.length), r.added.length < j + histMax →
    SlotHolds h.lines (j % histMax) r.added[j]

section Ring

variable {h : History} {r : Recall}

/-- The line `k` steps back is in the slot before the `k - 1` slots of the later ones. -/
theorem Ring.slot_shown (hr : Ring h r) {k : Nat} (h0 : 0 < k) (hk : k ≤ r.depth) :
    h.slot ((r.added.length - k) % histMax) = r.shown k := by
  simp only [Recall.depth, histMax] at hk
  have hj : r.added.length - k < r.added.length := by omega
  have hholds := hr.lines (r.added.length - k) hj (by simp only [histMax]; omega)
  rw [hholds.slot (Nat.mod_lt _ (by decide)), Recall.shown, if_neg (by omega),
    List.getD_eq_getElem _ _ hj]

theorem histPrev_ring (hr : Ring h r) :
    (histPrev h).2 = (r.step .prev).2 ∧ Ring (histPrev h).1 (r.step .prev).1 := by
  have hadd := hr.addIdx
  have hmax := hr.max
  have hback := hr.back_le
  rcases hr.cur with hcur | ⟨hcur, hnil, hzero⟩
  · rw [histPrev, hcur]
    simp only
    by_cases hlt : r.back < r.depth
    · -- one slot down, around the ring once it is full
      have hprev : (if (r.added.length - r.back) % histMax = 0 then h.max
          else (r.added.length - r.back) % histMax - 1) =
            (r.added.length - (r.back + 1)) % histMax := by
        simp only [Recall.depth] at hlt
        split <;> simp only [histMax] at * <;> omega
      have hne : (r.added.length - (r.back + 1)) % histMax ≠ h.addIdx := by
        simp only [Recall.depth, histMax] at hlt hadd ⊢
        omega
      rw [hprev, if_neg hne, Recall.step, if_pos hlt]
      exact ⟨congrArg some (hr.slot_shown (Nat.succ_pos _) hlt), hr.addIdx, hr.max, .inl rfl, hlt,
        hr.lines⟩
    · -- the slot before the last line is the one the next line goes to
      have hprev : (if (r.added.length - r.back) % histMax = 0 then h.max
          else (r.added.length - r.back) % histMax - 1) = h.addIdx := by
        simp only [Recall.depth] at hlt hback
        split <;> simp only [histMax] at * <;> omega
      rw [hprev, if_pos rfl, Recall.step, if_neg hlt]
      exact ⟨rfl, hr⟩
  · have hlt : ¬ r.back < r.depth := by simp [Recall.depth, hnil]
    rw [histPrev, hcur, Recall.step, if_neg hlt]
    exact ⟨rfl, hr⟩

theorem histNext_ring (hr : Ring h r) :
    (histNext h).2 = (r.step .next).2 ∧ Ring (histNext h).1 (r.step .next).1 := by
  have hadd := hr.addIdx
  have hmax := hr.max
  have hback := hr.back_le
  rcases hr.cur with hcur | ⟨hcur, hnil, hzero⟩
  · rw [histNext, hcur]
    simp only
    by_cases hzero : r.back = 0
    · rw [Recall.step, if_pos hzero, if_pos (by rw [hadd, hzero]; rfl)]
      exact ⟨rfl, hr⟩
    · have hne : (r.added.length - r.back) % histMax ≠ h.addIdx := by
        simp only [Recall.depth, histMax] at hback hadd ⊢
        omega
      have hnext : (if (r.added.length - r.back) % histMax + 1 > h.max then 0
          else (r.added.length - r.back) % histMax + 1) =
            (r.added.length - (r.back - 1)) % histMax := by
        simp only [Recall.depth] at hback
        split <;> simp only [histMax] at * <;> omega
      rw [if_neg hne, hnext, Recall.step, if_neg hzero]
      refine ⟨congrArg some ?_, hr.addIdx, hr.max, .inl rfl, Nat.le_trans (Nat.sub_le _ _) hback, hr.lines⟩
      by_cases hone : r.back = 1
      · -- past the newest line
        have hend : (r.added.length - (r.back - 1)) % histMax = h.addIdx := by rw [hone, hadd]; rfl
        rw [if_pos hend, Recall.shown, if_pos (by omega)]
      · have hnend : (r.added.length - (r.back - 1)) % histMax ≠ h.addIdx := by
          simp only [Recall.depth, histMax] at hback hadd ⊢
          omega
        rw [if_neg hnend]
        exact hr.slot_shown (by omega) (Nat.le_trans (Nat.sub_le _ _) hback)
  · rw [histNext, hcur, Recall.step, if_pos hzero]
    exact ⟨rfl, hr⟩

/-- A step back that recalls nothing moves nothing. -/
theorem histPrev_of_none (hnone : (histPrev h).2 = none) : histPrev h = (h, none) := by
  rw [histPrev] at hnone ⊢
  cases hcur : h.cur with
  | none => rfl
  | some c =>
    rw [hcur] at hnone
    simp only at hnone ⊢
    generalize (if c = 0 then h.max else c - 1) = cur at hnone ⊢
    by_cases heq : cur = h.addIdx
    · rw [if_pos heq]
    · simp [heq] at hnone

theorem rewind_ring (hr : Ring h r) : Ring h.rewind { r with back := 0 } where
  addIdx := hr.addIdx
  max := hr.max
  cur := .inl (congrArg some hr.addIdx)
  back_le := Nat.zero_le _
  lines := hr.lines

/-- A line that fits its slot takes the place of the oldest one. -/
theorem creadAddToHist_ring (hr : Ring h r) {line : List UInt8} (hnul : 0 ∉ line)
    (hlen : line.length < histSize) :
    Ring (creadAddToHist h line).rewind ⟨r.added ++ [line], 0⟩ := by
  have hadd := hr.addIdx
  have hmax := hr.max
  have hnext : (if h.addIdx + 1 ≥ histMax then 0 else h.addIdx + 1) =
      (r.added.length + 1) % histMax := by
    split <;> simp only [histMax] at * <;> omega
  have hidx : (creadAddToHist h line).addIdx = (r.added ++ [line]).length % histMax := by
    rw [List.length_append]
    exact hnext
  refine ⟨hidx, ?_, .inl (congrArg some hidx), Nat.zero_le _, ?_⟩
  · simp only [History.rewind, creadAddToHist, List.length_append, List.length_singleton, hnext]
    split <;> simp only [histMax] at * <;> omega
  · intro j hj hnew
    rw [List.length_append, List.length_singleton] at hj hnew
    simp only [histMax, histSize, maxCmdbufSize] at hnew hlen
    by_cases hlast : j = r.added.length
    · subst hlast
      rw [List.getElem_concat_length rfl]
      refine ⟨hnul, by simpa [histSize, maxCmdbufSize] using hlen, ?_⟩
      have hread := @Mem.read_write _ h.lines.cells (h.addIdx * histSize) (line ++ [0])
      rw [List.length_append, List.length_singleton] at hread
      rw [← hr.addIdx]
      exact hread
    · rw [List.getElem_append_left (by omega)]
      have hold := hr.lines j (by omega) (by simp only [histMax]; omega)
      refine ⟨hold.noNul, hold.length_lt, ?_⟩
      rw [← hold.text]
      have hlt := hold.length_lt
      simp only [histSize, maxCmdbufSize] at hlt
      refine Mem.read_congr fun x h1 h2 => Mem.write_outside _ ?_
      simp only [histMax, histSize, maxCmdbufSize, List.length_append, List.length_singleton] at hadd h1 h2 ⊢
      omega

end Ring

-- ============================================================================
-- Runs
-- ============================================================================

/-- A line that goes into the history is shorter than a slot. -/
def FitsSlot : HistOp → Prop
  | .enter line => line.bytes.length < histSize
  | _ => True

/-- One operation keeps ring and list together. -/
theorem histStep_ring (h : History) (r : Recall) (op : HistOp) (hr : Ring h r) (hfit : FitsSlot op) :
    (histStep h op).2 = (r.step op).2 ∧ Ring (histStep h op).1 (r.step op).1 := by
  cases op with
  | enter line => exact ⟨rfl, creadAddToHist_ring hr line.noNul hfit⟩
  | discard => exact ⟨rfl, rewind_ring hr⟩
  | prev => exact histPrev_ring hr
  | next => exact histNext_ring hr

theorem start_ring (cells lines : Mem UInt8) : Ring (start cells lines).hist .empty where
  addIdx := rfl
  max := rfl
  cur := .inr ⟨rfl, rfl, rfl⟩
  back_le := Nat.le_refl 0
  lines := fun _ hj => absurd hj (Nat.not_lt_zero _)

/-- `k` steps back. -/
def prevs (k : Nat) : List HistOp := List.replicate k .prev

/-- Stepping back in the list as long as there are lines. -/
theorem Recall.after_prevs {r : Recall} {k : Nat} (hk : r.back + k ≤ r.depth) :
    after Recall.step r (prevs k) = { r with back := r.back + k } := by
  induction k generalizing r with
  | zero => rfl
  | succ k ih =>
    have hlt : r.back < r.depth := by omega
    rw [prevs, List.replicate_succ, after_cons, Recall.step, if_pos hlt]
    rw [prevs] at ih
    rw [ih (by simp only [Recall.depth] at hk ⊢; omega), Nat.add_right_comm]
    rfl

/-- The lines that a run puts into the history, in order. -/
def linesAdded : List HistOp → List (List UInt8)
  | [] => []
  | .enter line :: ops => line.bytes :: linesAdded ops
  | _ :: ops => linesAdded ops

theorem Recall.after_added (r : Recall) (ops : List HistOp) :
    (after Recall.step r ops).added = r.added ++ linesAdded ops := by
  induction ops generalizing r with
  | nil => simp [linesAdded]
  | cons op ops ih =>
    rw [after_cons, ih]
    cases op with
    | enter line => simp [Recall.step, linesAdded]
    | discard => rfl
    | prev =>
      rw [Recall.step]
      split <;> rfl
    | next =>
      rw [Recall.step]
      split <;> rfl

/-- **The history ring.** In every run whose lines fit their slots the ring answers as
    the list of the lines does.  From where a line ended, the `k`-th step back recalls
    the `k`-th line from the end, for as many lines as there are but at most
    `HIST_MAX - 1`; one more step recalls nothing and stays. -/
theorem history_ring (cells lines : Mem UInt8) (ops : List HistOp) (hfit : ∀ op ∈ ops, FitsSlot op) :
    let h := after histStep (start cells lines).hist ops
    let n := (linesAdded ops).length
    answers histStep (start cells lines).hist ops = answers Recall.step .empty ops ∧
      ((after Recall.step .empty ops).back = 0 →
        (∀ k < min n (histMax - 1),
          (histPrev (after histStep h (prevs k))).2 = (linesAdded ops)[n - (k + 1)]?) ∧
        histPrev (after histStep h (prevs (min n (histMax - 1)))) =
          (after histStep h (prevs (min n (histMax - 1))), none)) := by
  intro h n
  obtain ⟨hanswers, hring⟩ := answers_eq histStep_ring (start_ring cells lines) hfit
  refine ⟨hanswers, fun hback => ?_⟩
  have hadded : (after Recall.step .empty ops).added = linesAdded ops := by
    rw [Recall.after_added]
    rfl
  generalize after Recall.step .empty ops = r at hring hback hadded
  obtain ⟨added, back⟩ := r
  simp only at hadded hback
  subst hadded hback
  -- the ring after `k` steps back from here
  have hprevs (k : Nat) (hk : k ≤ min n (histMax - 1)) :
      Ring (after histStep h (prevs k)) ⟨linesAdded ops, k⟩ := by
    have hfit : ∀ op ∈ prevs k, FitsSlot op := fun op hop => by
      rw [List.eq_of_mem_replicate hop]
      trivial
    have hsim := (answers_eq histStep_ring hring hfit).2
    rw [Recall.after_prevs (by simpa [Recall.depth] using hk), Nat.zero_add] at hsim
    exact hsim
  constructor
  · intro k hk
    rw [(histPrev_ring (hprevs k hk.le)).1, Recall.step, if_pos (by simpa [Recall.depth] using hk),
      Recall.shown, if_neg (Nat.succ_ne_zero k), List.getD_eq_getElem?_getD]
    have hlt : (linesAdded ops).length - (k + 1) < (linesAdded ops).length := by omega
    simp [n, List.getElem?_eq_getElem hlt]
  · apply histPrev_of_none
    rw [(histPrev_ring (hprevs _ (Nat.le_refl _))).1, Recall.step, if_neg (by simp [Recall.depth, n])]

/-- `a`, then `b`. -/
def twoLines : List HistOp := [.enter ⟨[97], by decide⟩, .enter ⟨[98], by decide⟩]

theorem twoLines_fit : ∀ op ∈ twoLines, FitsSlot op := by simp [twoLines, FitsSlot, histSize, maxCmdbufSize]

/-- After `a` and `b` the first step back recalls `b`. -/
theorem history_ring_two :
    (histPrev (after histStep (start (fun _ => 0) fun _ => 0).hist twoLines)).2 = some [98] := by
  have h := ((history_ring (fun _ => 0) (fun _ => 0) twoLines twoLines_fit).2 rfl).1 0 (by decide)
  rw [prevs, List.replicate_zero, after_nil] at h
  rw [h]
  rfl

/-- The line of 256 letters. -/
def longLine : CStr := ⟨List.replicate 256 97, by decide +kernel⟩

/-- A line of 256 letters takes its slot to the last byte.  The next line overwrites
    its NUL, and the two are recalled as one. -/
theorem long_line_runs_on :
    let ops : List HistOp := [.enter longLine, .enter ⟨[120], by decide⟩, .prev, .prev]
    answers histStep (start (fun _ => 0) fun _ => 0).hist ops ≠ answers Recall.step .empty ops := by
  decide +kernel

end Uboot.Common.CreadLine
