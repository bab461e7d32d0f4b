/-
  Uboot.Common.UsbStorage

  Blocks of a USB stick (`usb_stor_read` and `usb_stor_write` of `common/usb_storage.c`): the unit
  is asked whether it is ready, and the blocks go in commands of at most 20, each tried up to three
  times with a request sense after every failure.  Command, length and data pointer of all
  these commands are fields of one block, `usb_ccb`.

  What a device answers to a command may depend on all the commands before it.  The data and
  the sense bytes are not modelled: nothing here but the console looks at them.
-/

import Mathlib.Data.List.Nodup
import Uboot.Lib.Mem

namespace Uboot.Common.UsbStorage

open Uboot.Lib

-- ============================================================================
-- Commands
-- ============================================================================

/-- What `srb->pdata` points to. -/
inductive Ptr where
  | mem (addr : Nat)
  | senseBuf
  deriving DecidableEq, Repr

/-- The fields of `ccb` that a transport reads; of `cmd` the 12 bytes that every command sets. -/
structure Ccb where
  cmd : List Nat
  cmdlen : Nat
  datalen : Nat
  pdata : Ptr
  lun : Nat
  deriving DecidableEq, Repr

/-- The commands given to a transport, each with what it returned. -/
abbrev Log := List (Ccb × Int)

/-- `struct usb_device`, with the transport of its `privptr`. -/
structure UsbDevice where
  devnum : Int
  transport : Log → Ccb → Int

/-- `usb_ccb`, and the commands so far. -/
structure Stor where
  srb : Ccb
  log : Log

/-- `ss->transport(srb, ss)` -/
def transport (dev : UsbDevice) (s : Stor) : Stor × Int :=
  let ret := dev.transport s.log s.srb
  ({ s with log := s.log ++ [(s.srb, ret)] }, ret)

def senseCmd : List Nat := [0x03, 0, 0, 0, 18, 0, 0, 0, 0, 0, 0, 0]

def readyCmd : List Nat := [0x00, 0, 0, 0, 0, 0, 0, 0, 0, 0, 0, 0]

def usbRequestSense (dev : UsbDevice) (s : Stor) : Stor :=
  let ptr := s.srb.pdata
  let (s, _) := transport dev
    { s with srb := { s.srb with cmd := senseCmd, datalen := 18, pdata := .senseBuf, cmdlen := 12 } }
  { s with srb := { s.srb with pdata := ptr } }

/-- `usb_test_unit_ready` from the value of `retries` on. -/
def testUnitReady (dev : UsbDevice) (retries : Nat) (s : Stor) : Stor × Int :=
  let (s, ret) := transport dev { s with srb := { s.srb with cmd := readyCmd, datalen := 0, cmdlen := 12 } }
  if ret = 0 then (s, 0)
  else
    let s := usbRequestSense dev s
    match retries with
    | 0 => (s, -1)
    | retries + 1 => testUnitReady dev retries s

def usbTestUnitReady (dev : UsbDevice) (s : Stor) : Stor × Int := testUnitReady dev 10 s

/-- `SCSI_READ10` or `SCSI_WRITE10`. -/
inductive Dir where
  | read
  | write
  deriving DecidableEq, Repr

def Dir.opcode : Dir → Nat
  | .read => 0x28
  | .write => 0x2a

/-- The bytes of the command; `blocks` is an `unsigned short`. -/
def rwCmd (dir : Dir) (start blocks : Nat) : List Nat :=
  [dir.opcode, 0, start / 16777216 % 256, start / 65536 % 256, start / 256 % 256, start % 256, 0,
    blocks / 256 % 256, blocks % 256, 0, 0, 0]

/-- `usb_read_10` and `usb_write_10`, alike but for the opcode. -/
def usbRw10 (dir : Dir) (dev : UsbDevice) (s : Stor) (start blocks : Nat) : Stor × Int :=
  transport dev { s with srb := { s.srb with cmd := rwCmd dir start blocks, cmdlen := 12 } }

def usbRead10 := usbRw10 .read

def usbWrite10 := usbRw10 .write

-- ============================================================================
-- Transfers
-- ============================================================================

/-- `USB_MAX_READ_BLK` and `USB_MAX_WRITE_BLK` -/
def maxBlk : Nat := 20

/-- From the label `retry_it` on, with `retry` more tries left: whether the command got through. -/
def retryIt (dir : Dir) (dev : UsbDevice) (blksz start smallblks bufAddr : Nat) (retry : Nat) (s : Stor) : Stor × Bool :=
  let s := { s with srb := { s.srb with datalen := u32 (blksz * smallblks), pdata := .mem bufAddr } }
  let (s, ret) := usbRw10 dir dev s start smallblks
  if ret ≠ 0 then
    let s := usbRequestSense dev s
    match retry with
    | 0 => (s, false)
    | retry + 1 => retryIt dir dev blksz start smallblks bufAddr retry s
  else (s, true)

/-- The `do`-`while` loop: what is left of `blks` when it ends. -/
def storLoop (dir : Dir) (dev : UsbDevice) (blksz start blks bufAddr : Nat) (s : Stor) : Stor × Nat :=
  let s := { s with srb := { s.srb with pdata := .mem bufAddr } }
  let smallblks := if blks > maxBlk then maxBlk else blks
  let (s, ok) := retryIt dir dev blksz start smallblks bufAddr 2 s
  if ok then
    let start := u32 (start + smallblks)
    let bufAddr := u32 (bufAddr + s.srb.datalen)
    if blks - smallblks = 0 then (s, 0)
    else storLoop dir dev blksz start (blks - smallblks) bufAddr s
  else (s, blks)
termination_by blks
decreasing_by
  rename_i hleft
  change ¬ blks - (if blks > maxBlk then maxBlk else blks) = 0 at hleft
  change blks - (if blks > maxBlk then maxBlk else blks) < blks
  unfold maxBlk at hleft ⊢
  split <;> omega

/-- The search for the unit's device among the `n` from number `i` on; `dev` is the last one looked at. -/
def findDev (devIndex : Nat → Option UsbDevice) (target : Int) : Nat → Nat → Option UsbDevice → Option UsbDevice
  | 0, _, dev => dev
  | n + 1, i, _ =>
    match devIndex i with
    | none => none
    | some dev => if dev.devnum = target then some dev else findDev devIndex target n (i + 1) (some dev)

/-- `USB_MAX_DEVICE` -/
def maxDevice : Nat := 32

/-- An entry of `usb_dev_desc`. -/
structure BlockDevDesc where
  target : Int
  lun : Nat
  blksz : Nat

/-- `usb_stor_read` and `usb_stor_write`, alike but for the command. -/
def usbStorRw (dir : Dir) (devIndex : Nat → Option UsbDevice) (desc : BlockDevDesc) (blknr blkcnt buffer : Nat) (s : Stor) :
    Stor × Nat :=
  if blkcnt = 0 then (s, 0)
  else match findDev devIndex desc.target maxDevice 0 none with
    | none => (s, 0)
    | some dev =>
      let s := { s with srb := { s.srb with lun := desc.lun } }
      let (s, ret) := usbTestUnitReady dev s
      if ret ≠ 0 then (s, 0)
      else
        let (s, blks) := storLoop dir dev desc.blksz blknr blkcnt buffer s
        -- on a failure `blkcnt -= blks`, else nothing is left
        (s, blkcnt - blks)

def usbStorRead := usbStorRw .read

def usbStorWrite := usbStorRw .write

-- ============================================================================
-- What the device is asked for
-- ============================================================================

/-- Blocks that one command is for, as the device reads it, and where their data is. -/
structure Chunk where
  start : Nat
  blocks : Nat
  pdata : Ptr

def Ccb.chunk (c : Ccb) : Chunk where
  start := c.cmd.getD 2 0 * 16777216 + c.cmd.getD 3 0 * 65536 + c.cmd.getD 4 0 * 256 + c.cmd.getD 5 0
  blocks := c.cmd.getD 7 0 * 256 + c.cmd.getD 8 0
  pdata := c.pdata

def Ptr.offset : Ptr → Nat → Ptr
  | .mem addr, n => .mem (u32 (addr + n))
  | .senseBuf, _ => .senseBuf

/-- The blocks of a command, each with its place in memory. -/
def Chunk.cells (blksz : Nat) (c : Chunk) : List (Nat × Ptr) :=
  (List.range c.blocks).map fun j => (u32 (c.start + j), c.pdata.offset (j * blksz))

/-- The command of a direction got through. -/
def Through (dir : Dir) (e : Ccb × Int) : Prop := e.2 = 0 ∧ e.1.cmd.head? = some dir.opcode

instance (dir : Dir) (e : Ccb × Int) : Decidable (Through dir e) := inferInstanceAs (Decidable (_ ∧ _))

/-- The commands of a direction that got through, in order. -/
def transfers (dir : Dir) (log : Log) : List Chunk := (log.filter fun e => Through dir e).map fun e => e.1.chunk

/-- A try that fails, and the request sense after it, for each entry of `es`. -/
def failedTries (c : Ccb) (es : List (Int × Int)) : Log :=
  es.flatMap fun e => [(c, e.1), ({ c with cmd := senseCmd, datalen := 18, pdata := .senseBuf, cmdlen := 12 }, e.2)]

/-- The last command of the log is one of the direction that failed three times in a row. -/
def FailedThrice (dir : Dir) (log : Log) : Prop :=
  ∃ before c es, c.cmd.head? = some dir.opcode ∧ es.length = 3 ∧ (∀ e ∈ es, e.1 ≠ 0) ∧ log = before ++ failedTries c es

/-- No test unit ready was answered with success. -/
def NotReady (log : Log) : Prop := ∀ e ∈ log, e.1.cmd = readyCmd → e.2 ≠ 0

section Logs

variable {dir : Dir} {log log' : Log} {c : Ccb} {es : List (Int × Int)} {blksz start blocks addr lun : Nat}

@[simp] theorem transfers_append : transfers dir (log ++ log') = transfers dir log ++ transfers dir log' := by
  rw [transfers, List.filter_append, List.map_append]
  rfl

theorem transfers_eq_nil (h : ∀ e ∈ log, ¬ Through dir e) : transfers dir log = [] := by
  rw [transfers, List.filter_eq_nil_iff.2 (by simpa using h), List.map_nil]

theorem senseCmd_not_through (hc : c.cmd = senseCmd) (ret : Int) : ¬ Through dir (c, ret) := by
  rintro ⟨-, hop⟩
  rw [hc] at hop
  cases dir <;> cases hop

theorem readyCmd_not_through (hc : c.cmd = readyCmd) (ret : Int) : ¬ Through dir (c, ret) := by
  rintro ⟨-, hop⟩
  rw [hc] at hop
  cases dir <;> cases hop

theorem transfers_failedTries (h : ∀ e ∈ es, e.1 ≠ 0) : transfers dir (failedTries c es) = [] := by
  apply transfers_eq_nil
  intro e he
  obtain ⟨t, ht, hmem⟩ := List.mem_flatMap.1 he
  simp only [List.mem_cons, List.not_mem_nil, or_false] at hmem
  rcases hmem with rfl | rfl
  · exact fun hthrough => h t ht hthrough.1
  · exact senseCmd_not_through rfl t.2

/-- The block in a command for blocks. -/
def rwCcb (dir : Dir) (blksz start blocks addr lun : Nat) : Ccb :=
  ⟨rwCmd dir start blocks, 12, u32 (blksz * blocks), .mem addr, lun⟩

theorem transfers_rwCcb : transfers dir [(rwCcb dir blksz start blocks addr lun, 0)] =
    [(rwCcb dir blksz start blocks addr lun).chunk] := by
  rw [transfers, List.filter_cons_of_pos (by simp [Through, rwCcb, rwCmd])]
  rfl

/-- The device reads the number that was written. -/
theorem chunk_rwCcb (h : blocks ≤ maxBlk) :
    (rwCcb dir blksz start blocks addr lun).chunk = ⟨u32 start, blocks, .mem addr⟩ := by
  have hblocks : blocks ≤ 20 := h
  simp only [Ccb.chunk, rwCcb, rwCmd, List.getD_cons_succ, List.getD_cons_zero, Chunk.mk.injEq, and_true, u32]
  omega

end Logs

-- ============================================================================
-- One command after the other
-- ============================================================================

section Steps

variable {dir : Dir} {dev : UsbDevice} {s : Stor} {blksz start blocks addr : Nat}

/-- A command given to the transport. -/
def issue (dev : UsbDevice) (log : Log) (c : Ccb) : Stor := ⟨c, log ++ [(c, dev.transport log c)]⟩

/-- The command block of a request sense. -/
def senseCcb (c : Ccb) : Ccb := { c with cmd := senseCmd, datalen := 18, pdata := .senseBuf, cmdlen := 12 }

/-- The command block of a test. -/
def readyCcb (c : Ccb) : Ccb := { c with cmd := readyCmd, datalen := 0, cmdlen := 12 }

theorem usbRequestSense_eq (dev : UsbDevice) (s : Stor) : usbRequestSense dev s =
    ⟨{ senseCcb s.srb with pdata := s.srb.pdata }, (issue dev s.log (senseCcb s.srb)).log⟩ :=
  rfl

theorem testUnitReady_zero (dev : UsbDevice) (s : Stor) : testUnitReady dev 0 s =
    if dev.transport s.log (readyCcb s.srb) = 0 then (issue dev s.log (readyCcb s.srb), 0)
    else (usbRequestSense dev (issue dev s.log (readyCcb s.srb)), -1) :=
  rfl

theorem testUnitReady_succ (dev : UsbDevice) (n : Nat) (s : Stor) : testUnitReady dev (n + 1) s =
    if dev.transport s.log (readyCcb s.srb) = 0 then (issue dev s.log (readyCcb s.srb), 0)
    else testUnitReady dev n (usbRequestSense dev (issue dev s.log (readyCcb s.srb))) :=
  rfl

theorem retryIt_zero (s : Stor) : retryIt dir dev blksz start blocks addr 0 s =
    if dev.transport s.log (rwCcb dir blksz start blocks addr s.srb.lun) ≠ 0 then
      (usbRequestSense dev (issue dev s.log (rwCcb dir blksz start blocks addr s.srb.lun)), false)
    else (issue dev s.log (rwCcb dir blksz start blocks addr s.srb.lun), true) :=
  rfl

theorem retryIt_succ (n : Nat) (s : Stor) : retryIt dir dev blksz start blocks addr (n + 1) s =
    if dev.transport s.log (rwCcb dir blksz start blocks addr s.srb.lun) ≠ 0 then
      retryIt dir dev blksz start blocks addr n
        (usbRequestSense dev (issue dev s.log (rwCcb dir blksz start blocks addr s.srb.lun)))
    else (issue dev s.log (rwCcb dir blksz start blocks addr s.srb.lun), true) :=
  rfl

/-- A test that fails, with its request sense. -/
theorem failed_ready (c : Ccb) {ret : Int} (senseRet : Int) (hret : ret ≠ 0) :
    (∀ dir, transfers dir [(readyCcb c, ret), (senseCcb (readyCcb c), senseRet)] = []) ∧
      NotReady [(readyCcb c, ret), (senseCcb (readyCcb c), senseRet)] := by
  constructor
  · intro dir
    apply transfers_eq_nil
    simp only [List.forall_mem_cons, List.not_mem_nil, false_implies, implies_true, and_true]
    exact ⟨readyCmd_not_through rfl ret, senseCmd_not_through rfl senseRet⟩
  · simp only [NotReady, List.forall_mem_cons, List.not_mem_nil, false_implies, implies_true, and_true]
    refine ⟨fun _ => hret, fun hcmd => ?_⟩
    change senseCmd = readyCmd at hcmd
    exact absurd hcmd (by decide)

/-- The tests of a unit are no transfers, and when the last one fails all of them did. -/
theorem testUnitReady_log (dev : UsbDevice) (retries : Nat) (s : Stor) :
    ∃ log, (testUnitReady dev retries s).1.log = s.log ++ log ∧ (∀ dir, transfers dir log = []) ∧
      ((testUnitReady dev retries s).2 ≠ 0 → NotReady log) := by
  have hpassed : ∀ (c : Ccb) ret dir, transfers dir [(readyCcb c, ret)] = [] := fun c ret dir =>
    transfers_eq_nil (List.forall_mem_singleton.2 (readyCmd_not_through rfl ret))
  induction retries generalizing s with
  | zero =>
    rw [testUnitReady_zero]
    by_cases hret : dev.transport s.log (readyCcb s.srb) = 0
    · rw [if_pos hret]
      exact ⟨_, rfl, hpassed s.srb _, fun h => absurd rfl h⟩
    · rw [if_neg hret]
      obtain ⟨hnone, hready⟩ := failed_ready s.srb
        (dev.transport (issue dev s.log (readyCcb s.srb)).log (senseCcb (readyCcb s.srb))) hret
      exact ⟨_, List.append_assoc .., hnone, fun _ => hready⟩
  | succ n ih =>
    rw [testUnitReady_succ]
    by_cases hret : dev.transport s.log (readyCcb s.srb) = 0
    · rw [if_pos hret]
      exact ⟨_, rfl, hpassed s.srb _, fun h => absurd rfl h⟩
    · rw [if_neg hret]
      obtain ⟨hnone, hready⟩ := failed_ready s.srb
        (dev.transport (issue dev s.log (readyCcb s.srb)).log (senseCcb (readyCcb s.srb))) hret
      obtain ⟨log, hlog, hnone', hready'⟩ := ih (usbRequestSense dev (issue dev s.log (readyCcb s.srb)))
      refine ⟨[(readyCcb s.srb, dev.transport s.log (readyCcb s.srb)), (senseCcb (readyCcb s.srb),
        dev.transport (issue dev s.log (readyCcb s.srb)).log (senseCcb (readyCcb s.srb)))] ++ log, ?_, ?_, ?_⟩
      · rw [hlog, ← List.append_assoc]
        simp only [usbRequestSense_eq, issue, List.append_assoc, List.cons_append, List.nil_append]
      · intro dir
        rw [transfers_append, hnone dir, hnone' dir, List.append_nil]
      · intro h
        exact List.forall_mem_append.2 ⟨hready, hready' h⟩

theorem failedTries_nil (c : Ccb) : failedTries c [] = [] := rfl

/-- One more failed try in front. -/
theorem failedTries_cons (c : Ccb) (e : Int × Int) (es : List (Int × Int)) :
    failedTries c (e :: es) = [(c, e.1), (senseCcb c, e.2)] ++ failedTries c es := rfl

/-- What a try and the request sense after it return. -/
def tryRets (dev : UsbDevice) (log : Log) (c : Ccb) : Int × Int :=
  (dev.transport log c, dev.transport (issue dev log c).log (senseCcb c))

/-- The log behind a try that failed and its request sense. -/
theorem sense_log (dev : UsbDevice) (log : Log) (c : Ccb) : (usbRequestSense dev (issue dev log c)).log =
    log ++ [(c, (tryRets dev log c).1), (senseCcb c, (tryRets dev log c).2)] := by
  simp only [usbRequestSense_eq, issue, tryRets, List.append_assoc, List.cons_append, List.nil_append]

/-- A try that gets through. -/
theorem retryIt_of_zero (retry : Nat) (s : Stor) :
    let c := rwCcb dir blksz start blocks addr s.srb.lun
    dev.transport s.log c = 0 →
      retryIt dir dev blksz start blocks addr retry s = (⟨c, s.log ++ failedTries c [] ++ [(c, 0)]⟩, true) := by
  intro c hret
  have hissue : issue dev s.log c = ⟨c, s.log ++ failedTries c [] ++ [(c, 0)]⟩ := by
    rw [issue, failedTries_nil, List.append_nil, hret]
  rw [← hissue]
  cases retry with
  | zero => exact if_neg (not_not_intro hret)
  | succ n => exact if_neg (not_not_intro hret)

/-- The tries of one command: some fail, and the last one gets through or is one too many. -/
theorem retryIt_log (dir : Dir) (dev : UsbDevice) (blksz start blocks addr retry : Nat) (s : Stor) :
    let c := rwCcb dir blksz start blocks addr s.srb.lun
    ∃ es : List (Int × Int), (∀ e ∈ es, e.1 ≠ 0) ∧
      (retryIt dir dev blksz start blocks addr retry s = (⟨c, s.log ++ failedTries c es ++ [(c, 0)]⟩, true) ∨
        (es.length = retry + 1 ∧ (retryIt dir dev blksz start blocks addr retry s).2 = false ∧
          (retryIt dir dev blksz start blocks addr retry s).1.log = s.log ++ failedTries c es)) := by
  intro c
  induction retry generalizing s with
  | zero =>
    by_cases hret : dev.transport s.log c = 0
    · exact ⟨[], fun _ he => absurd he List.not_mem_nil, .inl (retryIt_of_zero 0 s hret)⟩
    rw [retryIt_zero, if_pos hret]
    refine ⟨[tryRets dev s.log c], List.forall_mem_singleton.2 hret, .inr ⟨rfl, rfl, ?_⟩⟩
    rw [failedTries_cons, failedTries_nil, List.append_nil]
    exact sense_log dev s.log c
  | succ n ih =>
    by_cases hret : dev.transport s.log c = 0
    · exact ⟨[], fun _ he => absurd he List.not_mem_nil, .inl (retryIt_of_zero (n + 1) s hret)⟩
    rw [retryIt_succ, if_pos hret]
    have hlog := sense_log dev s.log c
    obtain ⟨es, hes, hend⟩ := ih (usbRequestSense dev (issue dev s.log c))
    refine ⟨tryRets dev s.log c :: es, List.forall_mem_cons.2 ⟨hret, hes⟩, ?_⟩
    rw [failedTries_cons, ← List.append_assoc, ← hlog]
    rcases hend with hthrough | ⟨hlength, hfalse, hlast⟩
    · exact .inl hthrough
    · exact .inr ⟨congrArg (· + 1) hlength, hfalse, hlast⟩

end Steps

-- ============================================================================
-- All commands
-- ============================================================================

section Transfer

variable {dir : Dir} {dev : UsbDevice} {blksz : Nat}

/-- `n` consecutive blocks with their places in a buffer. -/
def blockCells (blksz start addr n : Nat) : List (Nat × Ptr) :=
  (List.range n).map fun k => (u32 (start + k), .mem (u32 (addr + k * blksz)))

/-- Two pieces that follow each other, of blocks and in memory. -/
theorem blockCells_append (start addr n m : Nat) :
    blockCells blksz start addr n ++ blockCells blksz (u32 (start + n)) (u32 (addr + u32 (blksz * n))) m =
      blockCells blksz start addr (n + m) := by
  rw [blockCells, blockCells, blockCells, List.range_add, List.map_append, List.map_map]
  congr 1
  apply List.map_congr_left
  intro k _
  have haddr : u32 (u32 (addr + u32 (blksz * n)) + k * blksz) = u32 (addr + (n + k) * blksz) := by
    rw [u32_add_left, Nat.add_right_comm, Nat.add_comm _ (u32 _), u32_add_left, Nat.add_mul, Nat.mul_comm blksz]
    congr 1
    omega
  rw [Function.comp_apply, u32_add_left, haddr, Nat.add_assoc]

/-- The commands that got through are for `n` consecutive blocks, each command for 1 to 20. -/
structure Transferred (dir : Dir) (blksz start addr n : Nat) (log : Log) : Prop where
  cells : (transfers dir log).flatMap (Chunk.cells blksz) = blockCells blksz start addr n
  sizes : ∀ c ∈ transfers dir log, 1 ≤ c.blocks ∧ c.blocks ≤ 20

variable {start addr n m : Nat} {log log' : Log} {es : List (Int × Int)}

theorem Transferred.append (h : Transferred dir blksz start addr n log)
    (h' : Transferred dir blksz (u32 (start + n)) (u32 (addr + u32 (blksz * n))) m log') :
    Transferred dir blksz start addr (n + m) (log ++ log') where
  cells := by rw [transfers_append, List.flatMap_append, h.cells, h'.cells, blockCells_append]
  sizes := by
    rw [transfers_append]
    exact List.forall_mem_append.2 ⟨h.sizes, h'.sizes⟩

theorem transferred_of_nil (h : transfers dir log = []) : Transferred dir blksz start addr 0 log where
  cells := by rw [h]; rfl
  sizes := by
    rw [h]
    exact fun _ hc => absurd hc List.not_mem_nil

/-- Commands that transfer nothing, before others. -/
theorem Transferred.behind (h : Transferred dir blksz start addr n log') (hnone : transfers dir log = []) :
    Transferred dir blksz start addr n (log ++ log') where
  cells := by rw [transfers_append, hnone, List.nil_append, h.cells]
  sizes := by
    rw [transfers_append, hnone]
    exact h.sizes

/-- A command that got through at last. -/
theorem transferred_through (start addr lun : Nat) (hpos : 0 < n) (hmax : n ≤ maxBlk) (hes : ∀ e ∈ es, e.1 ≠ 0) :
    Transferred dir blksz start addr n
      (failedTries (rwCcb dir blksz start n addr lun) es ++ [(rwCcb dir blksz start n addr lun, 0)]) := by
  have hchunk :
      transfers dir (failedTries (rwCcb dir blksz start n addr lun) es ++ [(rwCcb dir blksz start n addr lun, 0)]) =
      [⟨u32 start, n, .mem addr⟩] := by
    rw [transfers_append, transfers_failedTries hes, transfers_rwCcb, chunk_rwCcb hmax, List.nil_append]
  constructor
  · simp only [hchunk, List.flatMap_cons, List.flatMap_nil, List.append_nil, Chunk.cells, u32_add_left, Ptr.offset,
      blockCells]
  · rw [hchunk]
    exact List.forall_mem_singleton.2 ⟨hpos, hmax⟩

theorem FailedThrice.append (log : Log) (h : FailedThrice dir log') : FailedThrice dir (log ++ log') := by
  obtain ⟨before, c, es, hc, hlength, hes, rfl⟩ := h
  exact ⟨log ++ before, c, es, hc, hlength, hes, (List.append_assoc ..).symm⟩

/-- The blocks of the command that is next. -/
def nextBlks (blks : Nat) : Nat := if blks > maxBlk then maxBlk else blks

theorem nextBlks_le (blks : Nat) : nextBlks blks ≤ blks ∧ nextBlks blks ≤ maxBlk := by
  rw [nextBlks]
  split <;> omega

theorem nextBlks_pos {blks : Nat} (h : 0 < blks) : 0 < nextBlks blks := by
  rw [nextBlks, maxBlk]
  split <;> omega

/-- A turn of the loop: the command got through, and it was the last or others follow, or it failed. -/
theorem storLoop_eq (start blks addr : Nat) (s : Stor) : storLoop dir dev blksz start blks addr s =
    let s := { s with srb := { s.srb with pdata := .mem addr } }
    let (s, ok) := retryIt dir dev blksz start (nextBlks blks) addr 2 s
    if ok then
      if blks - nextBlks blks = 0 then (s, 0)
      else storLoop dir dev blksz (u32 (start + nextBlks blks)) (blks - nextBlks blks) (u32 (addr + s.srb.datalen)) s
    else (s, blks) := by
  rw [storLoop]
  rfl

/-- What the loop transfers: consecutive blocks up to where a command failed three times. -/
theorem storLoop_log (dir : Dir) (dev : UsbDevice) (blksz start blks addr : Nat) (s : Stor) (hblks : 0 < blks) :
    ∃ log, (storLoop dir dev blksz start blks addr s).1.log = s.log ++ log ∧
      (storLoop dir dev blksz start blks addr s).2 ≤ blks ∧
      Transferred dir blksz start addr (blks - (storLoop dir dev blksz start blks addr s).2) log ∧
      ((storLoop dir dev blksz start blks addr s).2 = 0 ∨ FailedThrice dir log) := by
  induction blks using Nat.strongRecOn generalizing start addr s with
  | _ blks ih =>
    obtain ⟨hle, hmax⟩ := nextBlks_le blks
    have hpos := nextBlks_pos hblks
    let c := rwCcb dir blksz start (nextBlks blks) addr s.srb.lun
    obtain ⟨es, hes, htry⟩ :=
      retryIt_log dir dev blksz start (nextBlks blks) addr 2 { s with srb := { s.srb with pdata := .mem addr } }
    rw [storLoop_eq]
    rcases htry with hthrough | ⟨hlength, hfalse, hlog⟩
    · have hpiece : Transferred dir blksz start addr (nextBlks blks) (failedTries c es ++ [(c, 0)]) :=
        transferred_through start addr s.srb.lun hpos hmax hes
      simp only [hthrough, if_true]
      by_cases hlast : blks - nextBlks blks = 0
      · rw [if_pos hlast]
        have hall : nextBlks blks = blks := by omega
        rw [hall] at hpiece
        exact ⟨failedTries c es ++ [(c, 0)], List.append_assoc .., Nat.zero_le _, hpiece, .inl rfl⟩
      · rw [if_neg hlast]
        obtain ⟨log, hlog, hrest, hcover, hend⟩ := ih (blks - nextBlks blks) (by omega)
          (u32 (start + nextBlks blks)) (u32 (addr + u32 (blksz * nextBlks blks)))
          ⟨c, s.log ++ failedTries c es ++ [(c, 0)]⟩ (by omega)
        refine ⟨failedTries c es ++ [(c, 0)] ++ log, ?_, hrest.trans (Nat.sub_le ..), ?_,
          hend.imp_right fun h => h.append _⟩
        · exact hlog.trans (by simp only [List.append_assoc])
        · have hsum : ∀ rest, rest ≤ blks - nextBlks blks →
              nextBlks blks + (blks - nextBlks blks - rest) = blks - rest := by omega
          have hall := hpiece.append hcover
          rw [hsum _ hrest] at hall
          exact hall
    · have hfailed : Transferred dir blksz start addr 0 (failedTries c es) :=
        transferred_of_nil (transfers_failedTries hes)
      simp only [hfalse, Bool.false_eq_true, if_false, Nat.sub_self]
      exact ⟨failedTries c es, hlog, Nat.le_refl _, hfailed, .inr ⟨[], c, es, rfl, hlength, hes, rfl⟩⟩

end Transfer

-- ============================================================================
-- The calls
-- ============================================================================

/-- `n` unsigned numbers one after the other are different. -/
theorem nodup_blocks (start : Nat) {n : Nat} (hn : n ≤ 4294967296) :
    ((List.range n).map fun k => u32 (start + k)).Nodup := by
  apply List.Nodup.map_on
  · intro i hi j hj heq
    rw [List.mem_range] at hi hj
    simp only [u32] at heq
    omega
  · exact List.nodup_range

/-- The whole call, with the reason where fewer blocks come back than were asked for. -/
theorem usbStorRw_log (dir : Dir) (devIndex : Nat → Option UsbDevice) (desc : BlockDevDesc) (blknr blkcnt buffer : Nat)
    (srb : Ccb) :
    let res := usbStorRw dir devIndex desc blknr blkcnt buffer ⟨srb, []⟩
    Transferred dir desc.blksz blknr buffer res.2 res.1.log ∧ res.2 ≤ blkcnt ∧
      (res.2 = blkcnt ∨ FailedThrice dir res.1.log ∨ NotReady res.1.log) := by
  have hnothing : Transferred dir desc.blksz blknr buffer 0 [] := transferred_of_nil rfl
  have hunit : NotReady [] := fun _ he => absurd he List.not_mem_nil
  rw [usbStorRw]
  by_cases hzero : blkcnt = 0
  · rw [if_pos hzero]
    exact ⟨hnothing, Nat.zero_le _, .inl hzero.symm⟩
  rw [if_neg hzero]
  cases findDev devIndex desc.target maxDevice 0 none with
  | none => exact ⟨hnothing, Nat.zero_le _, .inr (.inr hunit)⟩
  | some dev =>
    obtain ⟨tests, htests, hnone, hready⟩ := testUnitReady_log dev 10 ⟨{ srb with lun := desc.lun }, []⟩
    obtain ⟨⟨s, ret⟩, htest⟩ : ∃ unit, testUnitReady dev 10 ⟨{ srb with lun := desc.lun }, []⟩ = unit := ⟨_, rfl⟩
    rw [htest] at htests hready
    simp only [List.nil_append] at htests hready
    simp only [usbTestUnitReady, htest]
    by_cases hret : ret = 0
    · rw [if_neg (not_not_intro hret)]
      obtain ⟨log, hlog, hle, hcover, hend⟩ :=
        storLoop_log dir dev desc.blksz blknr blkcnt buffer s (Nat.pos_of_ne_zero hzero)
      rw [htests] at hlog
      refine ⟨?_, Nat.sub_le .., ?_⟩
      · simp only [hlog]
        exact hcover.behind (hnone dir)
      · simp only [hlog]
        refine hend.imp (fun hrest => ?_) fun hfailed => .inl (hfailed.append tests)
        rw [hrest, Nat.sub_zero]
    · rw [if_pos hret]
      simp only [htests]
      exact ⟨transferred_of_nil (hnone dir), Nat.zero_le _, .inr (.inr (hready hret))⟩

end Uboot.Common.UsbStorage
