/-
  Uboot.Common.UsbStorageTransfer

  `us_one_transfer` of common/usb_storage.c: a buffer is transferred in pieces, and a piece that
  came through in part is taken up again where it stopped.

  What the calls of `usb_bulk_msg` leave is the input, one after the other.
-/

import Uboot.Common.UsbStorageBbb
import Uboot.Lib.Extent
import Uboot.Lib.Run

namespace Uboot.Common.UsbStorage

open Uboot.Lib

-- ============================================================================
-- The loops
-- ============================================================================

/-- What a call of `usb_bulk_msg` leaves: its value, `dev->status`, and how much was transferred. -/
structure BulkMsg where
  result : Int
  status : Nat
  xferred : Nat

/-- `USB_ST_NAK_REC` -/
def Naked (status : Nat) : Prop := status &&& 0x10 ≠ 0

instance (status : Nat) : Decidable (Naked status) := inferInstanceAs (Decidable (_ ≠ _))

/-- The variables of the loops, before a call. -/
structure Piece where
  buf : Nat
  length : Nat
  thisXfer : Nat
  maxtry : Nat

/-- Where the function is: before a call, or back with a value. -/
inductive At
  | call (piece : Piece)
  | ret (value : Int)

/-- The head of the outer loop. -/
def nextPiece (maxSize buf length : Nat) : At :=
  if length = 0 then .ret 0
  else
    let thisXfer := if maxSize < length then maxSize else length
    .call ⟨buf, length - thisXfer, thisXfer, 10⟩

/-- The body of the inner loop. -/
def afterCall (maxSize : Nat) (p : Piece) (m : BulkMsg) : At :=
  if m.status ≠ 0 ∧ Stalled m.status then
    -- `usb_clear_halt`
    if p.thisXfer = m.xferred then .ret 0 else .ret m.result
  else if m.status ≠ 0 ∧ Naked m.status then .ret m.result
  else if m.status ≠ 0 ∧ p.thisXfer = m.xferred then .ret 0
  else if m.status ≠ 0 ∧ p.maxtry = 0 then .ret m.result
  else
    let maxtry := if m.status ≠ 0 then p.maxtry - 1 else p.maxtry
    if p.thisXfer - m.xferred ≠ 0 then
      .call ⟨p.buf + m.xferred, p.length, p.thisXfer - m.xferred, maxtry⟩
    else nextPiece maxSize (p.buf + m.xferred) p.length

/-- The function with what was transferred so far. -/
structure Transfer where
  pos : At
  done : List Extent

def Transfer.step (maxSize : Nat) (t : Transfer) (m : BulkMsg) : Transfer :=
  match t.pos with
  | .ret _ => t
  | .call p => ⟨afterCall maxSize p m, t.done ++ [⟨p.buf, m.xferred⟩]⟩

/-- `us_one_transfer` for an endpoint with packets of `maxpacket` bytes. -/
def usOneTransfer (maxpacket length : Nat) (msgs : List BulkMsg) : Transfer :=
  run (Transfer.step (maxpacket * 16)) ⟨nextPiece (maxpacket * 16) 0 length, []⟩ msgs

/-- No call transfers more than it was asked to. -/
def UpToAsked (t : Transfer) (m : BulkMsg) : Prop :=
  ∀ p, t.pos = .call p → m.xferred ≤ p.thisXfer

-- ============================================================================
-- Value 0
-- ============================================================================

/-- All the bytes were transferred where the function has returned 0. -/
def ZeroIsAll (length : Nat) (t : Transfer) : Prop := t.pos = .ret 0 → Extent.Chain 0 t.done length

/-- A call with a non-zero `dev->status` that is complete belongs to the last piece, and one that is
    not complete has a non-zero value where the function gives up.  Only a NAK without a stall
    makes it give up a complete call. -/
def StatusOk (t : Transfer) (m : BulkMsg) : Prop :=
  ∀ p, t.pos = .call p → m.status ≠ 0 →
    (p.thisXfer = m.xferred → p.length ≠ 0 → ¬ Stalled m.status ∧ Naked m.status ∧ m.result ≠ 0) ∧
    (p.thisXfer ≠ m.xferred → Stalled m.status ∨ Naked m.status ∨ p.maxtry = 0 → m.result ≠ 0)

variable {maxSize length : Nat}

/-- The pieces follow one another, and what is left follows them. -/
def Transfer.Inv (length : Nat) (t : Transfer) : Prop :=
  match t.pos with
  | .call p => Extent.Chain 0 t.done p.buf ∧ p.buf + p.thisXfer + p.length = length
  | .ret value => value = 0 → Extent.Chain 0 t.done length

theorem inv_nextPiece {buf rest : Nat} {done : List Extent} (hdone : Extent.Chain 0 done buf)
    (hrest : buf + rest = length) : Transfer.Inv length ⟨nextPiece maxSize buf rest, done⟩ := by
  rw [nextPiece]
  split
  · rename_i hzero
    rw [hzero, Nat.add_zero] at hrest
    exact fun _ => hrest ▸ hdone
  · dsimp only
    refine ⟨hdone, ?_⟩
    split <;> dsimp only <;> omega

theorem Transfer.Inv.zeroIsAll {t : Transfer} (h : t.Inv length) : ZeroIsAll length t := by
  intro hret
  rw [Transfer.Inv, hret] at h
  exact h rfl

/-- A complete call of the last piece. -/
def Complete (p : Piece) (m : BulkMsg) : Prop := p.thisXfer = m.xferred ∧ p.length = 0

theorem zeroIsAll_ret_iff {p : Piece} {m : BulkMsg} {done : List Extent} {value : Int}
    (hdone : Extent.Chain 0 done p.buf) (hall : p.buf + p.thisXfer + p.length = length)
    (hasked : m.xferred ≤ p.thisXfer) :
    ZeroIsAll length ⟨.ret value, done ++ [⟨p.buf, m.xferred⟩]⟩ ↔ (value = 0 → Complete p m) := by
  have hchain := hdone.concat m.xferred
  have hvalue : At.ret value = .ret 0 ↔ value = 0 := ⟨At.ret.inj, congrArg At.ret⟩
  rw [ZeroIsAll, hvalue]
  refine imp_congr_right fun _ => ⟨fun h => ?_, fun h => ?_⟩
  · have hend := h.unique hchain
    exact ⟨by omega, by omega⟩
  · obtain ⟨hthis, hlast⟩ := h
    have hend : p.buf + m.xferred = length := by omega
    exact hend ▸ hchain

/-- A call keeps the invariant if its status is as it should be; otherwise the function returns 0
    before all is transferred. -/
theorem step_cases {t : Transfer} {m : BulkMsg} (hinv : t.Inv length) (hasked : UpToAsked t m) :
    StatusOk t m ∧ (t.step maxSize m).Inv length ∨
      ¬ StatusOk t m ∧ ¬ ZeroIsAll length (t.step maxSize m) := by
  obtain ⟨pos, done⟩ := t
  cases pos with
  | ret value => exact .inl ⟨fun _ hp => (nomatch hp), hinv⟩
  | call p =>
    obtain ⟨hdone, hall⟩ := hinv
    have hx := hasked p rfl
    have hok : StatusOk ⟨.call p, done⟩ m ↔ (m.status ≠ 0 →
        (p.thisXfer = m.xferred → p.length ≠ 0 → ¬ Stalled m.status ∧ Naked m.status ∧ m.result ≠ 0) ∧
        (p.thisXfer ≠ m.xferred → Stalled m.status ∨ Naked m.status ∨ p.maxtry = 0 → m.result ≠ 0)) :=
      ⟨fun h => h p rfl, fun h q hq => by cases hq; exact h⟩
    have hret : ∀ {value : Int}, (StatusOk ⟨.call p, done⟩ m ↔ (value = 0 → Complete p m)) →
        StatusOk ⟨.call p, done⟩ m ∧ Transfer.Inv length ⟨.ret value, done ++ [⟨p.buf, m.xferred⟩]⟩ ∨
          ¬ StatusOk ⟨.call p, done⟩ m ∧
            ¬ ZeroIsAll length ⟨.ret value, done ++ [⟨p.buf, m.xferred⟩]⟩ := by
      intro value hiff
      rw [hiff, zeroIsAll_ret_iff hdone hall hx]
      by_cases hcomplete : value = 0 → Complete p m
      · refine .inl ⟨hcomplete, fun hzero => ?_⟩
        exact (zeroIsAll_ret_iff hdone hall hx).mpr hcomplete (congrArg At.ret hzero)
      · exact .inr ⟨hcomplete, hcomplete⟩
    rw [Transfer.step]
    dsimp only
    rw [afterCall]
    split
    · rename_i hstall
      split
      · rename_i hthis
        apply hret
        rw [hok, Complete]
        grind
      · rename_i hthis
        apply hret
        rw [hok, Complete]
        grind
    rename_i hstall
    split
    · rename_i hnak
      apply hret
      rw [hok, Complete]
      grind
    rename_i hnak
    split
    · rename_i hthis
      apply hret
      rw [hok, Complete]
      grind
    rename_i hthis
    split
    · rename_i htries
      apply hret
      rw [hok, Complete]
      grind
    rename_i htries
    -- the loop goes on
    refine .inl ⟨hok.mpr (by grind), ?_⟩
    dsimp only
    split
    · refine ⟨hdone.concat _, ?_⟩
      dsimp only
      omega
    · exact inv_nextPiece (hdone.concat _) (by omega)

/-- Once the function has returned, it stays so. -/
theorem run_ret {t : Transfer} {value : Int} (h : t.pos = .ret value) (msgs : List BulkMsg) :
    run (Transfer.step maxSize) t msgs = t := by
  induction msgs with
  | nil => rfl
  | cons m msgs ih => rw [run_cons, Transfer.step, h, ih]

theorem zeroIsAll_run_iff {t : Transfer} {msgs : List BulkMsg} (hinv : t.Inv length)
    (hasked : Guarded (Transfer.step maxSize) UpToAsked t msgs) :
    ZeroIsAll length (run (Transfer.step maxSize) t msgs) ↔ Guarded (Transfer.step maxSize) StatusOk t msgs := by
  induction msgs generalizing t with
  | nil => exact iff_of_true hinv.zeroIsAll trivial
  | cons m msgs ih =>
    rw [guarded_cons] at hasked ⊢
    obtain ⟨hok, hnext⟩ | ⟨hbad, hnot⟩ := @step_cases maxSize length t m hinv hasked.1
    · rw [run_cons, ih hnext hasked.2, and_iff_right hok]
    · refine iff_of_false ?_ fun h => hbad h.1
      have hret : (t.step maxSize m).pos = .ret 0 := by
        by_contra hne
        exact hnot fun h => absurd h hne
      rwa [run_cons, run_ret hret]

/-- **`us_one_transfer`.**  Whatever the calls of `usb_bulk_msg` leave, up to what they were asked
    for, value 0 means that the whole buffer was transferred, just when their status is as it
    should be. -/
theorem usOneTransfer_zero_iff (maxpacket length : Nat) (msgs : List BulkMsg)
    (hasked : Guarded (Transfer.step (maxpacket * 16)) UpToAsked
      ⟨nextPiece (maxpacket * 16) 0 length, []⟩ msgs) :
    ZeroIsAll length (usOneTransfer maxpacket length msgs) ↔
      Guarded (Transfer.step (maxpacket * 16)) StatusOk ⟨nextPiece (maxpacket * 16) 0 length, []⟩ msgs :=
  zeroIsAll_run_iff (inv_nextPiece rfl (Nat.zero_add length)) hasked

/-- A stall after the first of two pieces, which is complete. -/
theorem not_zeroIsAll_stall : ¬ ZeroIsAll 2048 (usOneTransfer 64 2048 [⟨-1, 0x2, 1024⟩]) := by
  intro h
  have hend : (0 + 1024 : Nat) = 2048 := (h rfl).2
  cases hend

/-- The whole buffer in two calls. -/
theorem usOneTransfer_zero_iff_two :
    ZeroIsAll 2048 (usOneTransfer 64 2048 [⟨0, 0, 1024⟩, ⟨0, 0, 1024⟩]) := by
  refine (usOneTransfer_zero_iff 64 2048 [⟨0, 0, 1024⟩, ⟨0, 0, 1024⟩] ⟨?_, ?_, trivial⟩).mpr
    ⟨fun _ _ h => absurd rfl h, fun _ _ h => absurd rfl h, trivial⟩
  · intro p hp
    obtain rfl : ⟨0, 1024, 1024, 10⟩ = p := At.call.inj hp
    exact le_rfl
  · intro p hp
    obtain rfl : ⟨1024, 0, 1024, 10⟩ = p := At.call.inj hp
    exact le_rfl

end Uboot.Common.UsbStorage
