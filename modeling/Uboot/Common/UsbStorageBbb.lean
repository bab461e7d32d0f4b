/-
  Uboot.Common.UsbStorageBbb

  The bulk-only transport of `common/usb_storage.c`: a command wrapper is sent, the data go one
  way or the other, and a status wrapper is read, once more after a stall.

  The outcomes of the transfers are the input, one for each phase, so that the direction of the
  data and the resets of the device do not show.  The struct on the stack into which the
  status wrapper is read holds what was there before.
-/

import Uboot.Common.UsbStorage

namespace Uboot.Common.UsbStorage

open Uboot.Lib

-- ============================================================================
-- The transport
-- ============================================================================

/-- What a bulk transfer left: `dev->status`, `dev->act_len` and the bytes read. -/
structure Bulk where
  status : Nat
  actLen : Nat
  data : List UInt8

/-- `USB_ST_STALLED` -/
def Stalled (status : Nat) : Prop := status &&& 0x2 ≠ 0

instance (status : Nat) : Decidable (Stalled status) := inferInstanceAs (Decidable (_ ≠ _))

/-- `usb_bulk_msg`, with `dev->status`: a length that is negative as an `int` is refused. -/
def usbBulkMsg (len status : Nat) (o : Bulk) : Int × Nat :=
  if 2147483648 ≤ len then (-1, status)
  else (if o.status = 0 then 0 else -1, o.status)

/-- The outcomes of the phases, in the order in which they are asked for: command, data, the clearing
    of a stall, status, the clearing of a stall, status again. -/
structure Phases where
  cbw : Bulk
  data : Bulk
  clearData : Int
  csw : Bulk
  clearCsw : Int
  cswAgain : Bulk

/-- The COMMAND phase; the result of `usb_stor_BBB_comdat` and `dev->status`. -/
def bbbComdat (srb : Ccb) (status : Nat) (o : Phases) : Int × Nat :=
  if ¬ srb.cmdlen ≤ 16 then (-1, status) else usbBulkMsg 31 status o.cbw

/-- The DATA phase: `data_actlen`, or `none` where the transport fails. -/
def dataPhase (srb : Ccb) (status : Nat) (o : Phases) : Option Nat :=
  if srb.datalen = 0 then some 0
  else
    let (result, status) := usbBulkMsg srb.datalen status o.data
    let dataActlen := if 2147483648 ≤ srb.datalen then 0 else o.data.actLen
    -- a stall goes on to the STATUS phase
    if result < 0 ∧ Stalled status then if 0 ≤ o.clearData then some dataActlen else none
    else if result < 0 then none
    else some dataActlen

/-- A status wrapper read into the struct. -/
def readCsw (csw : Mem UInt8) (o : Bulk) : Mem UInt8 := csw.write 0 (o.data.take 13)

/-- The STATUS phase: the struct, or `none` where the transport fails. -/
def statusPhase (csw : Mem UInt8) (o : Phases) : Option (Mem UInt8) :=
  let csw := readCsw csw o.csw
  let (result, status) := usbBulkMsg 13 0 o.csw
  if result < 0 ∧ Stalled status then
    if 0 ≤ o.clearCsw then
      let csw := readCsw csw o.cswAgain
      let (result, _) := usbBulkMsg 13 0 o.cswAgain
      if result < 0 then none else some csw
    else none
  else if result < 0 then none
  else some csw

/-- `umass_bbb_csw_t` -/
def cswSignature (csw : Mem UInt8) : Nat := rd32 csw 0

def cswTag (csw : Mem UInt8) : Nat := rd32 csw 4

def cswDataResidue (csw : Mem UInt8) : Nat := rd32 csw 8

def cswStatus (csw : Mem UInt8) : Nat := (csw 12).toNat

/-- The residue, or what the data phase left over: it is computed, and nothing looks at it. -/
def residue (srb : Ccb) (csw : Mem UInt8) (dataActlen : Nat) : Nat :=
  if cswDataResidue csw = 0 ∧ srb.datalen ≠ 0 ∧ usub srb.datalen dataActlen ≠ 0 then usub srb.datalen dataActlen
  else cswDataResidue csw

/-- The tests at the end, with the tag of the command; `result` is that of the last transfer, 0. -/
def checkCsw (srb : Ccb) (tag : Nat) (csw : Mem UInt8) (dataActlen : Nat) : Int :=
  let _pipe := residue srb csw dataActlen
  if 0x53425355 ≠ cswSignature csw then -1
  else if tag ≠ cswTag csw then -1
  else if cswStatus csw > 2 then -1
  else if cswStatus csw = 2 then -1
  else if dataActlen > srb.datalen then -1
  else if cswStatus csw = 1 then -1
  else 0

/-- `usb_stor_BBB_transport`, where `tag` is the tag of this command. -/
def bbbTransport (srb : Ccb) (tag : Nat) (stack : Mem UInt8) (status : Nat) (o : Phases) : Int :=
  let (result, status) := bbbComdat srb status o
  if result < 0 then -1
  else match dataPhase srb status o with
    | none => -1
    | some dataActlen => match statusPhase stack o with
      | none => -1
      | some csw => checkCsw srb tag csw dataActlen

-- ============================================================================
-- When it returns 0
-- ============================================================================

/-- The command wrapper got through. -/
def CommandSent (srb : Ccb) (o : Phases) : Prop := srb.cmdlen ≤ 16 ∧ o.cbw.status = 0

/-- The data phase ended well, or in a stall that could be cleared. -/
def DataEnded (srb : Ccb) (o : Phases) : Prop :=
  srb.datalen < 2147483648 ∧ (o.data.status = 0 ∨ (Stalled o.data.status ∧ 0 ≤ o.clearData))

/-- A status wrapper was read, at the first attempt or after a stall. -/
def CswRead (o : Phases) : Prop :=
  o.csw.status = 0 ∨ (Stalled o.csw.status ∧ 0 ≤ o.clearCsw ∧ o.cswAgain.status = 0)

/-- The transfer that read the wrapper. -/
def lastCsw (o : Phases) : Bulk := if o.csw.status = 0 then o.csw else o.cswAgain

/-- The struct behind it. -/
def cswOf (stack : Mem UInt8) (o : Phases) : Mem UInt8 :=
  if o.csw.status = 0 then readCsw stack o.csw else readCsw (readCsw stack o.csw) o.cswAgain

/-- The signature, the tag of the command and `CSWSTATUS_GOOD`. -/
def SaysGood (tag : Nat) (csw : Mem UInt8) : Prop :=
  cswSignature csw = 0x53425355 ∧ cswTag csw = tag ∧ cswStatus csw = 0

/-- All that success is to mean: a whole wrapper that reports it, with no residue, and all the data. -/
structure AllDone (srb : Ccb) (tag : Nat) (stack : Mem UInt8) (o : Phases) : Prop where
  whole : 13 ≤ (lastCsw o).data.length
  good : SaysGood tag (cswOf stack o)
  residue : cswDataResidue (cswOf stack o) = 0
  data : o.data.actLen = srb.datalen

/-- Every phase ends in a way the transport goes on from and the struct holds a good status, but the
    wrapper is cut short, gives a residue, or the data phase ended early. -/
structure Unnoticed (srb : Ccb) (tag : Nat) (stack : Mem UInt8) (o : Phases) : Prop where
  command : CommandSent srb o
  data : DataEnded srb o
  read : CswRead o
  good : SaysGood tag (cswOf stack o)
  fits : o.data.actLen ≤ srb.datalen
  short : (lastCsw o).data.length < 13 ∨ cswDataResidue (cswOf stack o) ≠ 0 ∨ o.data.actLen < srb.datalen

instance (srb : Ccb) (o : Phases) : Decidable (DataEnded srb o) := inferInstanceAs (Decidable (_ ∧ _))

instance (o : Phases) : Decidable (CswRead o) := inferInstanceAs (Decidable (_ ∨ _))

section Transport

variable {srb : Ccb} {tag status len : Nat} {stack : Mem UInt8} {o : Phases} {b : Bulk}

theorem not_stalled_zero : ¬ Stalled 0 := fun h => h rfl

theorem usbBulkMsg_of_ok (hlen : len < 2147483648) (hok : b.status = 0) : usbBulkMsg len status b = (0, 0) := by
  rw [usbBulkMsg, if_neg (by omega), if_pos hok, hok]

theorem usbBulkMsg_of_failed (hlen : len < 2147483648) (hfail : b.status ≠ 0) :
    usbBulkMsg len status b = (-1, b.status) := by
  rw [usbBulkMsg, if_neg (by omega), if_neg hfail]

theorem bbbComdat_of_sent (h : CommandSent srb o) : bbbComdat srb status o = (0, 0) := by
  rw [bbbComdat, if_neg (not_not_intro h.1), usbBulkMsg_of_ok (by omega) h.2]

theorem bbbComdat_neg (h : ¬ CommandSent srb o) : (bbbComdat srb status o).1 < 0 := by
  rw [bbbComdat]
  by_cases hlen : srb.cmdlen ≤ 16
  · rw [if_neg (not_not_intro hlen), usbBulkMsg_of_failed (by omega) fun hok => h ⟨hlen, hok⟩]
    exact Int.negSucc_lt_zero 0
  · rw [if_pos hlen]
    exact Int.negSucc_lt_zero 0

theorem dataPhase_eq (hdata : srb.datalen ≠ 0) :
    dataPhase srb 0 o = if DataEnded srb o then some o.data.actLen else none := by
  rw [dataPhase, if_neg hdata]
  by_cases hlen : srb.datalen < 2147483648
  · by_cases hok : o.data.status = 0
    · simp [usbBulkMsg_of_ok hlen hok, DataEnded, hok, hlen, Nat.not_le.2 hlen]
    · simp only [usbBulkMsg_of_failed hlen hok]
      by_cases hstall : Stalled o.data.status
      · simp [DataEnded, hok, hlen, Nat.not_le.2 hlen, hstall]
      · simp [DataEnded, hok, hlen, hstall]
  · -- a length that is negative as an `int`
    have hrefused : usbBulkMsg srb.datalen 0 o.data = (-1, 0) := if_pos (Nat.not_lt.1 hlen)
    simp [hrefused, not_stalled_zero, DataEnded, hlen]

theorem statusPhase_eq : statusPhase stack o = if CswRead o then some (cswOf stack o) else none := by
  simp only [statusPhase, CswRead, cswOf]
  by_cases hok : o.csw.status = 0
  · have hfirst : usbBulkMsg 13 0 o.csw = (0, 0) := usbBulkMsg_of_ok (by omega) hok
    simp [hfirst, hok]
  · have hfirst : usbBulkMsg 13 0 o.csw = (-1, o.csw.status) := usbBulkMsg_of_failed (by omega) hok
    by_cases hstall : Stalled o.csw.status
    · by_cases hagain : o.cswAgain.status = 0
      · have hsecond : usbBulkMsg 13 0 o.cswAgain = (0, 0) := usbBulkMsg_of_ok (by omega) hagain
        simp [hfirst, hok, hstall, hsecond, hagain]
      · have hsecond : usbBulkMsg 13 0 o.cswAgain = (-1, o.cswAgain.status) := usbBulkMsg_of_failed (by omega) hagain
        simp [hfirst, hok, hstall, hsecond, hagain]
    · simp [hfirst, hok, hstall]

theorem checkCsw_eq_zero {csw : Mem UInt8} {n : Nat} :
    checkCsw srb tag csw n = 0 ↔ SaysGood tag csw ∧ n ≤ srb.datalen := by
  rw [checkCsw, SaysGood]
  split_ifs <;> simp only [true_iff, false_iff] <;> omega

theorem bbbTransport_eq_zero (hdata : srb.datalen ≠ 0) : bbbTransport srb tag stack status o = 0 ↔
    CommandSent srb o ∧ DataEnded srb o ∧ CswRead o ∧ SaysGood tag (cswOf stack o) ∧ o.data.actLen ≤ srb.datalen := by
  rw [bbbTransport]
  by_cases hcommand : CommandSent srb o
  · simp only [bbbComdat_of_sent hcommand, dataPhase_eq hdata, statusPhase_eq]
    by_cases hended : DataEnded srb o
    · by_cases hread : CswRead o
      · simp [hcommand, hended, hread, checkCsw_eq_zero]
      · simp [hended, hread]
    · simp [hended]
  · have hneg : (bbbComdat srb status o).1 < 0 := bbbComdat_neg hcommand
    simp [hneg, hcommand]

/-- **What a successful transport means.**  It is all that it is to mean just when the outcome is
    not one that goes unnoticed. -/
theorem bbbTransport_allDone_iff (srb : Ccb) (tag status : Nat) (stack : Mem UInt8) (o : Phases) (hdata : srb.datalen ≠ 0) :
    (bbbTransport srb tag stack status o = 0 → AllDone srb tag stack o) ↔ ¬ Unnoticed srb tag stack o := by
  rw [bbbTransport_eq_zero hdata]
  constructor
  · rintro hall ⟨hcommand, hended, hread, hgood, hfits, hshort⟩
    obtain ⟨hwhole, -, hresidue, hlen⟩ := hall ⟨hcommand, hended, hread, hgood, hfits⟩
    omega
  · rintro hnot ⟨hcommand, hended, hread, hgood, hfits⟩
    have hshort : ¬ ((lastCsw o).data.length < 13 ∨ cswDataResidue (cswOf stack o) ≠ 0 ∨ o.data.actLen < srb.datalen) :=
      fun hshort => hnot ⟨hcommand, hended, hread, hgood, hfits, hshort⟩
    exact ⟨by omega, hgood, by omega, by omega⟩

/-- A command for one block, answered in full. -/
def oneBlock (signature tag residue : Nat) (actLen : Nat) : Phases where
  cbw := ⟨0, 31, []⟩
  data := ⟨0, actLen, []⟩
  clearData := 0
  csw := ⟨0, 13, le32 signature ++ le32 tag ++ le32 residue ++ [0]⟩
  clearCsw := 0
  cswAgain := ⟨0, 0, []⟩

/-- All 512 bytes of a block, with the wrapper for it. -/
theorem bbbTransport_allDone_iff_block :
    512 ≠ 0 ∧ bbbTransport (rwCcb .read 512 7 1 0x40000000 0) 5 (fun _ => 0xff) 0 (oneBlock 0x53425355 5 0 512) = 0 ∧
      ¬ Unnoticed (rwCcb .read 512 7 1 0x40000000 0) 5 (fun _ => 0xff) (oneBlock 0x53425355 5 0 512) :=
  ⟨by omega, by decide, (bbbTransport_allDone_iff (rwCcb .read 512 7 1 0x40000000 0) 5 0 (fun _ => 0xff)
    (oneBlock 0x53425355 5 0 512) (by decide)).1 fun _ => ⟨by decide, by unfold SaysGood; decide, by decide, by decide⟩⟩

/-- A device that sends nothing, says so in the residue, and calls it a success. -/
theorem no_data_is_success :
    ¬ ∀ (srb : Ccb) (tag status : Nat) (stack : Mem UInt8) (o : Phases), srb.datalen ≠ 0 →
      bbbTransport srb tag stack status o = 0 → AllDone srb tag stack o := by
  intro hall
  have hzero : bbbTransport (rwCcb .read 512 7 1 0x40000000 0) 5 (fun _ => 0xff) 0 (oneBlock 0x53425355 5 512 0) = 0 := by
    decide
  have hlen := (hall _ 5 0 _ _ (by decide) hzero).data
  exact absurd hlen (by decide)

end Transport

end Uboot.Common.UsbStorage
