/-
  Uboot.Fs.Ext2Errors

  Which failing reads make `ext2fs_read_file` return -1.  A failing read of a single indirect block
  is answered with the number 0, which stands for a hole; and `ext2fs_devread` does not look at the
  result of `block_read` for less than a sector at the beginning of one.
-/

import Uboot.Fs.Ext2BlockMap

namespace Uboot.Fs.Ext2

open Uboot.Lib

-- ============================================================================
-- Events
-- ============================================================================

namespace Event

/-- A read that fails. -/
def failed : Event → Bool
  | .read _ _ failed => failed
  | .refused => false

/-- A read that fails without being noticed. -/
def unnoticed : Event → Bool
  | .read kind status failed => failed && (kind == .indirect || status == .ok)
  | .refused => false

/-- What makes `ext2fs_read_file` return -1. -/
def ends : Event → Bool
  | .read kind status _ => kind == .data && status == .error
  | .refused => true

/-- A read that does not come back. -/
def lost : Event → Bool
  | .read _ status _ => status == .lost
  | .refused => false

theorem failed_of_unnoticed {x : Event} (h : x.unnoticed = true) : x.failed = true := by
  cases x with
  | read kind status failed => exact (Bool.and_eq_true_iff.mp h).1
  | refused => exact h

/-- An event after which `ext2fs_read_file` goes on. -/
structure Passed (x : Event) : Prop where
  ends : x.ends = false
  lost : x.lost = false
  failed : x.failed = true → x.unnoticed = true

/-- A read that `ext2fs_devread` reports as done. -/
theorem passed_ok (kind : ReadKind) (failed : Bool) : Passed (.read kind .ok failed) :=
  ⟨by cases kind <;> rfl, rfl, fun h => by simpa [Event.unnoticed, Event.failed] using h⟩

/-- A read of a single indirect block, whatever becomes of it. -/
theorem passed_indirect {status : Status} (h : status ≠ .lost) (failed : Bool) :
    Passed (.read .indirect status failed) :=
  ⟨rfl, by simpa [Event.lost] using h, fun h => by simpa [Event.unnoticed, Event.failed] using h⟩

end Event

/-- The events between two states have the property `p`. -/
def Logs (p : Event → Prop) (g g' : Globals) : Prop := ∃ es, g'.log = g.log ++ es ∧ ∀ x ∈ es, p x

section Logs

variable {p q : Event → Prop} {g g' g'' : Globals}

theorem logs_of_eq (h : g'.log = g.log) : Logs p g g' := ⟨[], by rw [h, List.append_nil], by simp⟩

theorem Logs.trans (h : Logs p g g') (h' : Logs p g' g'') : Logs p g g'' := by
  obtain ⟨es, hlog, hes⟩ := h
  obtain ⟨es', hlog', hes'⟩ := h'
  refine ⟨es ++ es', by rw [hlog', hlog, List.append_assoc], fun x hx => ?_⟩
  exact (List.mem_append.mp hx).elim (hes x) (hes' x)

theorem Logs.mono (h : Logs p g g') (hpq : ∀ x, p x → q x) : Logs q g g' := by
  obtain ⟨es, hlog, hes⟩ := h
  exact ⟨es, hlog, fun x hx => hpq x (hes x hx)⟩

theorem logs_note {kind : ReadKind} {r : DevRead} (h : p (.read kind r.status r.failed)) :
    Logs p g (g.note kind r) :=
  ⟨[_], rfl, by simpa using h⟩

end Logs

-- ============================================================================
-- The reads of a block
-- ============================================================================

section Blocks

variable {e : Env} {d : Ext2Data} {g : Globals} {ram : Ram} {buf k : Nat}

theorem devreadAligned_lost (sector byteLen : Nat) :
    (devreadAligned e k sector byteLen ram buf).status ≠ .lost := by
  rw [devreadAligned]
  dsimp only
  split_ifs <;> simp only [ne_eq, reduceCtorEq, not_false_eq_true]

/-- A read is lost for its negative length only, and it is none that has failed. -/
theorem devread_lost {sector byteLen : Int} {off : Nat}
    (h : (ext2fsDevread e k sector off byteLen ram buf).status = .lost) :
    byteLen < 0 ∧ (ext2fsDevread e k sector off byteLen ram buf).failed = false := by
  rw [ext2fsDevread] at h ⊢
  dsimp only at h ⊢
  split_ifs at h ⊢ with hout hoff hfail hneg hneg
  · exact ⟨hneg, rfl⟩
  · exact absurd h (devreadAligned_lost _ _)
  · exact ⟨hneg, rfl⟩
  · exact absurd h (devreadAligned_lost _ _)

/-- The event that reading an indirect block leaves, if it is read. -/
theorem fetch_logs (kind : ReadKind) (c : Cache) (ptr known : Nat) :
    Logs (fun x => ∃ status failed, x = .read kind status failed ∧ status ≠ .lost ∧
        ((fetch e d g kind c ptr known).2.2 = true → status = .ok)) g (fetch e d g kind c ptr known).1 := by
  rw [fetch]
  dsimp only
  split
  · generalize hr : ext2fsDevread e g.reads _ 0 d.blksz _ 0 = r
    have hlost : r.status ≠ .lost := by
      intro h
      rw [← hr] at h
      have hneg := (devread_lost h).1
      omega
    split
    next herror => exact logs_note ⟨_, _, rfl, hlost, fun hread => absurd hread Bool.false_ne_true⟩
    next herror =>
      refine logs_note ⟨_, _, rfl, hlost, fun _ => ?_⟩
      cases hs : r.status with
      | ok => rfl
      | error => exact absurd hs herror
      | lost => exact absurd hs hlost
  · exact logs_of_eq rfl

/-- A negative number may come with any event, and any other one with such only that are passed. -/
def NumberLogs (g : Globals) (r : Globals × Int) : Prop :=
  Logs (fun _ => True) g r.1 ∧ (0 ≤ r.2 → Logs Event.Passed g r.1)

theorem numberLogs_neg {g' : Globals} {p : Event → Prop} (h : Logs p g g') : NumberLogs g (g', -1) :=
  ⟨h.mono fun _ _ => trivial, fun hneg => absurd hneg (by simp)⟩

theorem numberLogs_passed {g' : Globals} (h : Logs Event.Passed g g') (n : Int) : NumberLogs g (g', n) :=
  ⟨h.mono fun _ _ => trivial, fun _ => h⟩

/-- The single indirect case: what fails goes unnoticed. -/
theorem readIndirect_logs (inode : Inode) (fileblock : Nat) :
    NumberLogs g (readIndirect e d g inode fileblock) := by
  rw [readIndirect]
  dsimp only
  generalize g.indir1.prepare e d.blksz g.mallocs = p
  have hfetch := fetch_logs (e := e) (d := d) (g := { g with indir1 := p.1, mallocs := p.2.1 }) .indirect p.1
    inode.indirBlock.toNat p.1.blkno
  have hpassed := hfetch.mono (q := Event.Passed) (by
    rintro _ ⟨status, failed, rfl, hlost, _⟩
    exact Event.passed_indirect hlost failed)
  split
  · exact numberLogs_neg (p := Event.Passed) (logs_of_eq rfl)
  split
  · exact numberLogs_passed hpassed 0
  · exact numberLogs_passed hpassed _

theorem fetch_any {kind : ReadKind} {c : Cache} {ptr known : Nat} :
    Logs (fun _ => True) g (fetch e d g kind c ptr known).1 := (fetch_logs kind c ptr known).mono fun _ _ => trivial

/-- A block of the double indirect case that is read. -/
theorem fetch_passed {kind : ReadKind} {c : Cache} {ptr known : Nat}
    (h : (fetch e d g kind c ptr known).2.2 = true) :
    Logs Event.Passed g (fetch e d g kind c ptr known).1 := by
  refine (fetch_logs kind c ptr known).mono ?_
  rintro _ ⟨status, failed, rfl, _, hok⟩
  rw [hok h]
  exact Event.passed_ok kind failed

/-- The double indirect case: a number is found only when both blocks are read. -/
theorem readDoubleIndirect_logs (inode : Inode) (fileblock : Nat) :
    NumberLogs g (readDoubleIndirect e d g inode fileblock) := by
  rw [readDoubleIndirect]
  dsimp only
  generalize g.indir1.prepare e d.blksz g.mallocs = p
  split
  · exact numberLogs_neg (p := Event.Passed) (logs_of_eq rfl)
  split
  next => exact numberLogs_neg (p := fun _ => True) fetch_any
  next hread =>
    have hpassed := fetch_passed (Bool.not_not_eq.mp hread)
    generalize fetch e d { g with indir1 := p.1, mallocs := p.2.1 } .doubleOuter p.1 inode.doubleIndirBlock.toNat
      p.1.blkno = r at hpassed ⊢
    generalize r.1.indir2.prepare e d.blksz r.1.mallocs = p'
    have hbetween : Logs Event.Passed g { r.1 with indir1 := r.2.1, indir2 := p'.1, mallocs := p'.2.1 } := hpassed
    split
    · exact numberLogs_neg hbetween
    split
    next => exact numberLogs_neg ((hbetween.mono fun _ _ => trivial).trans fetch_any)
    next hread' =>
      exact numberLogs_passed (hbetween.trans (fetch_passed (Bool.not_not_eq.mp hread'))) _

/-- What asking for the number of a block leaves in the log. -/
theorem ext2fsReadBlock_logs (inode : Inode) (fileblock : Nat) :
    NumberLogs g (ext2fsReadBlock e d g inode fileblock) := by
  rw [ext2fsReadBlock]
  split
  · exact numberLogs_passed (logs_of_eq rfl) _
  split
  · exact readIndirect_logs inode fileblock
  split
  · exact readDoubleIndirect_logs inode fileblock
  · exact numberLogs_neg (p := Event.Passed) (logs_of_eq rfl)

end Blocks

-- ============================================================================
-- A call
-- ============================================================================

section Calls

variable {e : Env} {d : Ext2Data} {f : FileRead} {g : Globals} {ram : Ram} {len : Nat} {ret : Option Int}
  {es es' : List Event}

/-- What `ext2fs_read_file` returns, by the events that have come. -/
inductive Ended (len : Nat) (es : List Event) : Option Int → Prop
  | failed : (∃ x ∈ es, x.ends = true) → Ended len es (some (-1))
  | done : (∀ x ∈ es, x.Passed) → Ended len es (some (toInt len))
  | lost : (∃ x ∈ es, x.lost = true) → (∀ x ∈ es, x.ends = false ∧ (x.failed = true → x.unnoticed = true)) →
    Ended len es none

/-- What has been passed before makes no difference. -/
theorem Ended.prepend (h : Ended len es' ret) (hes : ∀ x ∈ es, x.Passed) : Ended len (es ++ es') ret := by
  cases h with
  | failed hends =>
    obtain ⟨x, hx, hend⟩ := hends
    exact .failed ⟨x, List.mem_append_right _ hx, hend⟩
  | done hpassed => exact .done (List.forall_mem_append.mpr ⟨hes, hpassed⟩)
  | lost hlost hothers =>
    obtain ⟨x, hx, hlost⟩ := hlost
    have hleft : ∀ x ∈ es, x.ends = false ∧ (x.failed = true → x.unnoticed = true) := fun x hx =>
      ⟨(hes x hx).ends, (hes x hx).failed⟩
    exact .lost ⟨x, List.mem_append_right _ hx, hlost⟩ (List.forall_mem_append.mpr ⟨hleft, hothers⟩)

/-- The events of the loop, and how it ends. -/
theorem readLoop_ended (n i : Nat) (g : Globals) (ram : Ram) (buf : Nat) :
    ∃ es, (readLoop e d f n i g ram buf).globals.log = g.log ++ es ∧
      Ended f.len es (readLoop e d f n i g ram buf).ret := by
  induction n generalizing i g ram buf with
  | zero => exact ⟨[], (List.append_nil _).symm, .done (by simp)⟩
  | succ n ih =>
    obtain ⟨⟨es, hlog, _⟩, hpassed⟩ := ext2fsReadBlock_logs (e := e) (d := d) (g := g) f.inode i
    rw [readLoop]
    dsimp only
    split
    next hneg =>
      refine ⟨es ++ [.refused], ?_, .failed ⟨.refused, by simp, rfl⟩⟩
      rw [← List.append_assoc, ← hlog]
      rfl
    next hneg =>
      obtain ⟨es, hlog, hes⟩ := hpassed (by omega)
      have hgo : ∀ {g' : Globals} {es' : List Event} (ram : Ram) (buf : Nat),
          g'.log = g.log ++ es' → (∀ x ∈ es', x.Passed) →
          ∃ es, (readLoop e d f n (i + 1) g' ram buf).globals.log = g.log ++ es ∧
            Ended f.len es (readLoop e d f n (i + 1) g' ram buf).ret := by
        intro g' es' ram buf hlog' hes'
        obtain ⟨rest, hrest, hended⟩ := ih (i + 1) g' ram buf
        exact ⟨es' ++ rest, by rw [hrest, hlog', List.append_assoc], hended.prepend hes'⟩
      split
      · generalize hread : ext2fsDevread e _ _ _ _ ram buf = s
        have hnote : ∀ {status : Status}, s.status = status →
            ((ext2fsReadBlock e d g f.inode i).1.note .data s).log =
              g.log ++ (es ++ [.read .data status s.failed]) := by
          rintro _ rfl
          rw [← List.append_assoc, ← hlog]
          rfl
        split
        next hok =>
          have hlast : ∀ x ∈ [Event.read .data .ok s.failed], x.Passed := by
            simpa using Event.passed_ok .data s.failed
          exact hgo _ _ (hnote hok) (List.forall_mem_append.mpr ⟨hes, hlast⟩)
        next herror => exact ⟨_, hnote herror, .failed ⟨.read .data .error s.failed, by simp, rfl⟩⟩
        next hlost =>
          refine ⟨_, hnote hlost, Ended.prepend (.lost ⟨.read .data .lost s.failed, by simp, rfl⟩ ?_) hes⟩
          rw [← hread] at hlost
          have hfailed := (devread_lost hlost).2
          rw [hread] at hfailed
          simp [Event.ends, Event.failed, hfailed]
      · exact hgo _ _ hlog hes

/-- The events of a call. -/
def ReadFile.events (r : ReadFile) (g : Globals) : List Event := r.globals.log.drop g.log.length

/-- A read that fails on behalf of a call makes it return -1. -/
def ErrorsReported (g : Globals) (r : ReadFile) : Prop :=
  (∃ x ∈ r.events g, x.failed = true) → r.ret = some (-1)

/-- Where a read fails unnoticed, something else ends the call, or the length is one that reads as -1 and is
    returned. -/
def Noticed (g : Globals) (len : Nat) (r : ReadFile) : Prop :=
  (∃ x ∈ r.events g, x.unnoticed = true) →
    (∃ x ∈ r.events g, x.ends = true) ∨ len = minusOne ∧ ∀ x ∈ r.events g, x.lost = false

theorem toInt_eq_neg_one {n : Nat} (h : n < 4294967296) : toInt n = -1 ↔ n = minusOne := by
  rw [toInt, minusOne]
  split <;> omega

theorem run_ended (f : FileRead) (g : Globals) (ram : Ram) (buf : Nat) :
    ∃ es, (f.run e d g ram buf).globals.log = g.log ++ es ∧ Ended f.len es (f.run e d g ram buf).ret :=
  readLoop_ended ..

/-- When -1 is returned for every failing read, by the way the call ends. -/
theorem Ended.reported_iff (h : Ended len es ret) (hlen : len < 4294967296) :
    ((∃ x ∈ es, x.failed = true) → ret = some (-1)) ↔
      ((∃ x ∈ es, x.unnoticed = true) →
        (∃ x ∈ es, x.ends = true) ∨ len = minusOne ∧ ∀ x ∈ es, x.lost = false) := by
  cases h with
  | failed hends => exact ⟨fun _ _ => .inl hends, fun _ _ => rfl⟩
  | done hpassed =>
    rw [Option.some.injEq, toInt_eq_neg_one hlen]
    constructor
    · rintro h ⟨x, hx, hunnoticed⟩
      exact .inr ⟨h ⟨x, hx, Event.failed_of_unnoticed hunnoticed⟩, fun y hy => (hpassed y hy).lost⟩
    · rintro h ⟨x, hx, hfailed⟩
      obtain ⟨y, hy, hends⟩ | hlen := h ⟨x, hx, (hpassed x hx).failed hfailed⟩
      · exact absurd ((hpassed y hy).ends.symm.trans hends) (by decide)
      · exact hlen.1
  | lost hlost hothers =>
    constructor
    · rintro h ⟨x, hx, hunnoticed⟩
      exact absurd (h ⟨x, hx, Event.failed_of_unnoticed hunnoticed⟩) (by decide)
    · rintro h ⟨x, hx, hfailed⟩
      obtain ⟨y, hy, hends⟩ | hnone := h ⟨x, hx, (hothers x hx).2 hfailed⟩
      · exact absurd ((hothers y hy).1.symm.trans hends) (by decide)
      · obtain ⟨y, hy, hlost⟩ := hlost
        exact absurd ((hnone.2 y hy).symm.trans hlost) (by decide)

/-- The first `block_read` fails. -/
def failingImage : Env := { smallImage with ok := fun k => k != 0 }

end Calls

end Uboot.Fs.Ext2
