/-
  Uboot.Net.Tftp

  The TFTP client of net/tftp.c in its default configuration (no multicast, no
  `tsize` option, RAM destination): `TftpStart`, `TftpSend`, `store_block` and
  `TftpHandler`, which is called once for every UDP datagram that arrives.

  `ulong` and `unsigned` are 32 bits wide.  Console output and timeouts are left
  out.  A datagram is the list of its bytes; where the source reads on past its end
  the model reads zeros.
-/

import Uboot.Lib.Run
import Uboot.Lib.Ram
import Uboot.LibGeneric.Vsprintf
import Mathlib.Tactic.Ring

namespace Uboot.Net.Tftp

open Uboot.Lib Uboot.LibGeneric

/-! ## State -/

/-- `TftpState`. -/
inductive TftpState
  | rrq
  | data
  | tooLarge
  | badMagic
  | oack
  deriving DecidableEq, Repr

/-- `NetState`. -/
inductive NetState
  | netloopContinue
  | netloopRestart
  | netloopSuccess
  | netloopFail
  deriving DecidableEq, Repr

/-- What `TftpSend` sends. -/
inductive Packet
  | request
  | ack (block : Nat)
  | error (code : Nat) (msg : String)
  deriving DecidableEq, Repr

/-- A UDP datagram as the handler receives it. -/
structure Datagram where
  dest : Nat
  src : Nat
  data : List UInt8
  deriving DecidableEq, Repr

/-- The globals of the client.  `retry` is the number of restarts the environment
    allows (`none`: any number) and `listening` is false once `NetStartAgain` has
    put its own handler in place. -/
structure Client where
  serverPort : Nat
  ourPort : Nat
  block : Nat
  lastBlock : Nat
  blockWrap : Nat
  blockWrapOffset : Nat
  state : TftpState
  blkSize : Nat
  loadAddr : Nat
  ram : Ram
  xferSize : Nat
  netState : NetState
  retry : Option Nat
  tryCount : Nat
  listening : Bool
  sent : List Packet

/-! ## Definitions from the source -/

/-- `TFTP_BLOCK_SIZE`. -/
def tftpBlockSize : Nat := 512

/-- `TFTP_SEQUENCE_SIZE`. -/
def tftpSequenceSize : Nat := 65536

/-- `ntohs` of the two bytes at index `i`. -/
def be16 (bs : List UInt8) (i : Nat) : Nat :=
  256 * (bs.getD i 0).toNat + (bs.getD (i + 1) 0).toNat

def storeBlock (c : Client) (block : Nat) (src : List UInt8) : Client :=
  let offset := u32 (u32 (block * c.blkSize) + c.blockWrapOffset)
  let newsize := u32 (offset + src.length)
  { c with
    ram := c.ram.store (u32 (c.loadAddr + offset)) src
    xferSize := if c.xferSize < newsize then newsize else c.xferSize }

def tftpSend (c : Client) : Client :=
  let p := match c.state with
    | .rrq => .request
    | .oack | .data => .ack (c.block % 65536)
    | .tooLarge => .error 3 "File too large"
    | .badMagic => .error 2 "File has bad magic"
  { c with sent := c.sent ++ [p] }

/-- `NetStartAgain` on a board with one network device. -/
def netStartAgain (c : Client) : Client :=
  match c.retry with
  | some n =>
    if n ≤ c.tryCount then { c with netState := .netloopFail }
    else { c with tryCount := c.tryCount + 1, listening := false }
  | none => { c with tryCount := c.tryCount + 1, listening := false }

/-- The loop over the options of an OACK; `pkt` is what follows the opcode. -/
def oackBlkSize (pkt : List UInt8) (blkSize : Nat) : Nat :=
  (List.range (pkt.length - 8)).foldl
    (fun b i => if cstr (pkt.drop i) = ascii "blksize" then simpleStrtoul (pkt.drop (i + 8)) 10 % 65536
      else b)
    blkSize

def handleOack (c : Client) (src : Nat) (pkt : List UInt8) : Client :=
  tftpSend { c with state := .oack, serverPort := src, blkSize := oackBlkSize pkt c.blkSize }

/-- `TftpBlock` and the wrap counters after a data packet numbered `number`. -/
def noteNumber (c : Client) (number : Nat) : Client :=
  if number = 0 then
    { c with
      block := number
      blockWrap := u32 (c.blockWrap + 1)
      blockWrapOffset := u32 (c.blockWrapOffset + c.blkSize * tftpSequenceSize) }
  else { c with block := number }

/-- The state after the first data packet of a transfer. -/
def firstBlock (c : Client) (src : Nat) : Client :=
  { c with state := .data, serverPort := src, lastBlock := 0, blockWrap := 0, blockWrapOffset := 0 }

/-- A data packet that is not the last one again. -/
def acceptBlock (c : Client) (payload : List UInt8) : Client :=
  let c := { c with lastBlock := c.block }
  -- `TftpBlock - 1` is unsigned: 0 becomes the largest block number
  let c := tftpSend (storeBlock c (u32 (4294967295 + c.block)) payload)
  if payload.length < c.blkSize then { c with netState := .netloopSuccess } else c

def handleData (c : Client) (src : Nat) (pkt : List UInt8) : Client :=
  if pkt.length < 2 then c
  else
    let number := be16 pkt 0
    let starting := c.state = .rrq ∨ c.state = .oack
    let c := noteNumber c number
    let c := if starting then firstBlock c src else c
    if starting ∧ number ≠ 1 then netStartAgain c
    else if number = c.lastBlock then c
    else acceptBlock c (pkt.drop 2)

def handleError (c : Client) (pkt : List UInt8) : Client :=
  let code := be16 pkt 0
  if code = 1 ∨ code = 2 then { c with netState := .netloopFail } else netStartAgain c

def tftpHandler (c : Client) (d : Datagram) : Client :=
  if !c.listening then c
  else if d.dest ≠ c.ourPort then c
  else if c.state ≠ .rrq ∧ d.src ≠ c.serverPort then c
  else if d.data.length < 2 then c
  else
    let pkt := d.data.drop 2
    match be16 d.data 0 with
    | 3 => handleData c d.src pkt
    | 5 => handleError c pkt
    | 6 => handleOack c d.src pkt
    | _ => c

/-- `TftpStart`, after `NetLoop` has cleared the transfer size. -/
def tftpStart (ourPort loadAddr : Nat) (cells : Mem UInt8) (retry : Option Nat) : Client :=
  tftpSend
    { serverPort := 69, ourPort, block := 0, lastBlock := 0, blockWrap := 0, blockWrapOffset := 0
      state := .rrq, blkSize := tftpBlockSize, loadAddr, ram := ⟨cells, []⟩, xferSize := 0
      netState := .netloopContinue, retry, tryCount := 0, listening := true, sent := [] }

/-! ## The server's side -/

/-- Block `k` of a file, counted from 1, in blocks of `b` bytes. -/
def fileBlock (file : List UInt8) (b k : Nat) : List UInt8 := (file.drop ((k - 1) * b)).take b

/-- The number of blocks: the last one is the first shorter than `b`. -/
def blockCount (file : List UInt8) (b : Nat) : Nat := file.length / b + 1

/-- The data packet with block `k`. -/
def dataPacket (file : List UInt8) (b k : Nat) : List UInt8 :=
  [0, 3, UInt8.ofNat (k / 256), UInt8.ofNat k] ++ fileBlock file b k

/-- The option acknowledgement with options `opts`. -/
def oackPacket (opts : List UInt8) : List UInt8 := [0, 6] ++ opts

/-- A file sent in blocks of `blkSize` bytes to `loadAddr`, where it fits in the
    address space. -/
structure Transfer where
  file : List UInt8
  blkSize : Nat
  loadAddr : Nat
  blkSize_pos : 0 < blkSize
  size_lt : file.length < 4294967296
  fits : loadAddr + file.length ≤ 4294967296

namespace Transfer

variable (t : Transfer)

/-- The number of the last block. -/
def last : Nat := blockCount t.file t.blkSize

/-- The bytes of the first `k` blocks. -/
def sofar (k : Nat) : List UInt8 := t.file.take (k * t.blkSize)

/-- The memory the file belongs in. -/
def extent : Extent := ⟨t.loadAddr, t.file.length⟩

/-- Block `k` on its way from port `server` to port `our`. -/
def datagram (our server k : Nat) : Datagram :=
  ⟨our, server, dataPacket t.file t.blkSize k⟩

end Transfer

/-- Blocks delivered after block `k`, `n` the last one: each is the next block or
    the one before it again. -/
def InOrder (n : Nat) : Nat → List Nat → Prop
  | _, [] => True
  | k, j :: js => (j = k + 1 ∧ j ≤ n ∨ j = k ∧ 0 < k) ∧ InOrder n j js

/-- No block whose number is 0 modulo 65536 comes twice, block `n` apart. -/
def NoZeroTwice (n : Nat) : Nat → List Nat → Prop
  | _, [] => True
  | k, j :: js => (j = k → k % 65536 = 0 → k = n) ∧ NoZeroTwice n j js

instance decidableInOrder (n : Nat) : ∀ k js, Decidable (InOrder n k js)
  | _, [] => inferInstanceAs (Decidable True)
  | _, j :: js =>
    have := decidableInOrder n j js
    inferInstanceAs (Decidable (_ ∧ InOrder n j js))

instance decidableNoZeroTwice (n : Nat) : ∀ k js, Decidable (NoZeroTwice n k js)
  | _, [] => inferInstanceAs (Decidable True)
  | _, j :: js =>
    have := decidableNoZeroTwice n j js
    inferInstanceAs (Decidable (_ ∧ NoZeroTwice n j js))

/-- What a client that reports success owes its caller. -/
structure Delivered (t : Transfer) (c : Client) : Prop where
  cells : c.ram.cells.read t.loadAddr t.file.length = t.file
  inside : c.ram.WritesIn t.extent
  xferSize : c.xferSize = t.file.length

/-! ## Packets -/

theorem be16_ofNat (k : Nat) (bs : List UInt8) :
    be16 (UInt8.ofNat (k / 256) :: UInt8.ofNat k :: bs) 0 = k % 65536 := by
  simp only [be16, List.getD_cons_zero, List.getD_cons_succ, UInt8.toNat_ofNat']
  omega

/-- What the handler does with the data packet of block `k` from the server. -/
theorem tftpHandler_dataPacket {c : Client} {file : List UInt8} {b k : Nat} {d : Datagram}
    (hl : c.listening = true) (hdest : d.dest = c.ourPort)
    (hsrc : c.state = .rrq ∨ d.src = c.serverPort) (hd : d.data = dataPacket file b k) :
    tftpHandler c d =
      (let starting := c.state = .rrq ∨ c.state = .oack
       let c := noteNumber c (k % 65536)
       let c := if starting then firstBlock c d.src else c
       if starting ∧ k % 65536 ≠ 1 then netStartAgain c
       else if k % 65536 = c.lastBlock then c
       else acceptBlock c (fileBlock file b k)) := by
  have hport : ¬ (c.state ≠ .rrq ∧ d.src ≠ c.serverPort) := fun h => hsrc.elim h.1 h.2
  have hnum := be16_ofNat k (fileBlock file b k)
  have h4 : ¬ (fileBlock file b k).length + 1 + 1 + 1 + 1 < 2 := by omega
  have h2 : ¬ (fileBlock file b k).length + 1 + 1 < 2 := by omega
  simp only [tftpHandler, hl, hdest, hport, hd, dataPacket, handleData, hnum, h4, h2,
    List.cons_append, List.nil_append, List.length_cons, List.drop_succ_cons, List.drop_zero]
  simp [be16]

@[simp] theorem noteNumber_lastBlock (c : Client) (number : Nat) :
    (noteNumber c number).lastBlock = c.lastBlock := by
  rw [noteNumber]; split <;> rfl

/-- In the middle of a transfer only the last number counts. -/
theorem tftpHandler_running {c : Client} {file : List UInt8} {b k : Nat} {d : Datagram}
    (hl : c.listening = true) (hdest : d.dest = c.ourPort) (hst : c.state = .data)
    (hsrc : d.src = c.serverPort) (hd : d.data = dataPacket file b k) :
    tftpHandler c d =
      if k % 65536 = c.lastBlock then noteNumber c (k % 65536)
      else acceptBlock (noteNumber c (k % 65536)) (fileBlock file b k) := by
  rw [tftpHandler_dataPacket hl hdest (.inr hsrc) hd]
  have hst' : ¬ (c.state = .rrq ∨ c.state = .oack) := by simp [hst]
  simp only [hst', false_and, if_false, noteNumber_lastBlock]

theorem fileBlock_succ_length (file : List UInt8) (b k : Nat) :
    (fileBlock file b (k + 1)).length = min b (file.length - k * b) := by
  simp [fileBlock]

/-- Only the last block is short. -/
theorem fileBlock_short_iff {file : List UInt8} {b k : Nat} (hb : 0 < b) (hk : k * b ≤ file.length) :
    (fileBlock file b (k + 1)).length < b ↔ k + 1 = blockCount file b := by
  have hle : k ≤ file.length / b := (Nat.le_div_iff_mul_le hb).mpr hk
  have hlt : file.length / b < k + 1 ↔ file.length < (k + 1) * b := Nat.div_lt_iff_lt_mul hb
  rw [fileBlock_succ_length, blockCount]
  rw [Nat.add_mul] at hlt
  omega

theorem take_append_fileBlock (file : List UInt8) (b k : Nat) :
    file.take (k * b) ++ fileBlock file b (k + 1) = file.take ((k + 1) * b) := by
  rw [fileBlock, Nat.add_sub_cancel, Nat.add_mul, Nat.one_mul, List.take_add]

/-- A block that exists begins inside the file or right at its end. -/
theorem mul_le_of_lt_blockCount {file : List UInt8} {b k : Nat} (h : k < blockCount file b) :
    k * b ≤ file.length :=
  Nat.le_trans (Nat.mul_le_mul_right b (Nat.le_of_lt_succ h)) (Nat.div_mul_le_self ..)

/-! ## The store offset -/

/-- The wrap offset once block `k` has come. -/
def wrapOffset (b k : Nat) : Nat := u32 (b * tftpSequenceSize * (k / 65536))

/-- Counting a block numbered 0 moves the wrap offset on by one round. -/
theorem wrapOffset_succ (b k : Nat) :
    wrapOffset b (k + 1) =
      if (k + 1) % 65536 = 0 then u32 (wrapOffset b k + b * tftpSequenceSize)
      else wrapOffset b k := by
  simp only [wrapOffset, u32, tftpSequenceSize]
  split_ifs with h
  · have hq : (k + 1) / 65536 = k / 65536 + 1 := by omega
    rw [hq, Nat.mod_add_mod, Nat.mul_add, Nat.mul_one]
  · have hq : (k + 1) / 65536 = k / 65536 := by omega
    rw [hq]

/-- The number cut to 16 bits and the wrap offset give back the place of the block,
    also where the number is 0 and `number - 1` passes zero. -/
theorem offset_eq {b k : Nat} (h : k * b < 4294967296) :
    u32 (u32 (u32 (4294967295 + (k + 1) % 65536) * b) + wrapOffset b (k + 1)) = k * b := by
  have hk : (k + 1) % 65536 + 65536 * ((k + 1) / 65536) = k + 1 := Nat.mod_add_div ..
  have hsum : (4294967295 + (k + 1) % 65536) * b + b * 65536 * ((k + 1) / 65536) =
      k * b + 4294967296 * b :=
    calc _ = ((k + 1) % 65536 + 65536 * ((k + 1) / 65536) + 4294967295) * b := by ring
      _ = (k + 1 + 4294967295) * b := by rw [hk]
      _ = k * b + 4294967296 * b := by ring
  simp only [u32, wrapOffset, tftpSequenceSize, Nat.mod_mul_mod, Nat.mod_add_mod, Nat.add_mod_mod,
    hsum]
  rw [Nat.add_mul_mod_self_left, Nat.mod_eq_of_lt h]

/-! ## The invariant -/

/-- A client that has taken the first `k` blocks of the transfer. -/
structure Received (t : Transfer) (our server k : Nat) (c : Client) : Prop where
  listening : c.listening = true
  ourPort : c.ourPort = our
  blkSize : c.blkSize = t.blkSize
  loadAddr : c.loadAddr = t.loadAddr
  waiting : k = 0 → c.state = .rrq ∨ c.state = .oack ∧ c.serverPort = server
  running : 0 < k → c.state = .data ∧ c.serverPort = server ∧ c.lastBlock = k % 65536
  wrap : 0 < k → k < t.last → c.blockWrapOffset = wrapOffset t.blkSize k
  cells : c.ram.cells.read t.loadAddr (t.sofar k).length = t.sofar k
  inside : c.ram.WritesIn t.extent
  xferSize : c.xferSize = (t.sofar k).length
  netState : c.netState = if k = t.last then .netloopSuccess else .netloopContinue

variable {t : Transfer} {our server k : Nat} {c : Client}

theorem sofar_length (t : Transfer) (k : Nat) :
    (t.sofar k).length = min (k * t.blkSize) t.file.length := by simp [Transfer.sofar]

theorem sofar_length_of_lt (hk : k < t.last) : (t.sofar k).length = k * t.blkSize := by
  rw [sofar_length]
  exact Nat.min_eq_left (mul_le_of_lt_blockCount hk)

/-- The last block ends the file. -/
theorem sofar_last (t : Transfer) : t.sofar t.last = t.file := by
  apply List.take_of_length_le
  have := Nat.div_add_mod t.file.length t.blkSize
  have := Nat.mod_lt t.file.length t.blkSize_pos
  rw [Transfer.last, blockCount, Nat.add_mul, Nat.mul_comm (t.file.length / t.blkSize)]
  omega

/-- What a data packet that is not the last one again changes. -/
theorem acceptBlock_eq (c : Client) (payload : List UInt8) :
    acceptBlock c payload =
      let stored := storeBlock c (u32 (4294967295 + c.block)) payload
      { tftpSend stored with
        lastBlock := c.block
        netState := if payload.length < c.blkSize then .netloopSuccess else c.netState } := by
  simp only [acceptBlock, tftpSend, storeBlock]
  split <;> simp only

/-- Taking block `k + 1`, with the wrap offset brought up to date. -/
theorem received_acceptBlock (h : Received t our server k c) (hk : k < t.last) {c' : Client}
    (hl : c'.listening = true) (ho : c'.ourPort = our) (hb : c'.blkSize = t.blkSize)
    (ha : c'.loadAddr = t.loadAddr) (hst : c'.state = .data) (hsp : c'.serverPort = server)
    (hblock : c'.block = (k + 1) % 65536) (hwrap : c'.blockWrapOffset = wrapOffset t.blkSize (k + 1))
    (hram : c'.ram = c.ram) (hx : c'.xferSize = c.xferSize) (hn : c'.netState = c.netState) :
    Received t our server (k + 1) (acceptBlock c' (fileBlock t.file t.blkSize (k + 1))) := by
  have hle : k * t.blkSize ≤ t.file.length := mul_le_of_lt_blockCount hk
  have hsz := t.size_lt
  have hfit := t.fits
  have hlen := fileBlock_succ_length t.file t.blkSize k
  have hshort : (fileBlock t.file t.blkSize (k + 1)).length < t.blkSize ↔ k + 1 = t.last :=
    fileBlock_short_iff t.blkSize_pos hle
  have happ : t.sofar k ++ fileBlock t.file t.blkSize (k + 1) = t.sofar (k + 1) :=
    take_append_fileBlock ..
  have hsofar := sofar_length_of_lt hk
  have hoff : u32 (u32 (u32 (4294967295 + c'.block) * c'.blkSize) + c'.blockWrapOffset) =
      k * t.blkSize := by
    rw [hblock, hb, hwrap]
    exact offset_eq (by omega)
  have hcells := @Mem.read_write_append _ c.ram.cells _ _ (fileBlock t.file t.blkSize (k + 1)) _ h.cells
  rw [← List.length_append, happ] at hcells
  have hnew : (t.sofar (k + 1)).length = k * t.blkSize + (fileBlock t.file t.blkSize (k + 1)).length := by
    rw [← happ, List.length_append, hsofar]
  -- an empty last block may come to stand behind the last address
  have hstore : fileBlock t.file t.blkSize (k + 1) ≠ [] →
      u32 (t.loadAddr + k * t.blkSize) = t.loadAddr + k * t.blkSize := by
    intro hne
    have := List.length_pos_iff.mpr hne
    exact u32_of_lt (by omega)
  have hram' : (acceptBlock c' (fileBlock t.file t.blkSize (k + 1))).ram =
      c.ram.store (u32 (t.loadAddr + k * t.blkSize)) (fileBlock t.file t.blkSize (k + 1)) := by
    rw [acceptBlock_eq]
    simp only [tftpSend, storeBlock, hoff, ha, hram]
  have hx' : (acceptBlock c' (fileBlock t.file t.blkSize (k + 1))).xferSize =
      (t.sofar (k + 1)).length := by
    have hold := h.xferSize
    have hu : u32 (k * t.blkSize + (fileBlock t.file t.blkSize (k + 1)).length) =
        (t.sofar (k + 1)).length := by
      rw [hnew]
      exact u32_of_lt (by omega)
    rw [acceptBlock_eq]
    simp only [tftpSend, storeBlock, hoff, hx, hold, hu, hsofar]
    split <;> omega
  have hold : c'.netState = .netloopContinue := by rw [hn, h.netState, if_neg (by omega)]
  refine ⟨?_, ?_, ?_, ?_, fun h0 => by omega, fun _ => ?_, fun _ _ => ?_, ?_, ?_, hx', ?_⟩
  · rw [acceptBlock_eq]; exact hl
  · rw [acceptBlock_eq]; exact ho
  · rw [acceptBlock_eq]; exact hb
  · rw [acceptBlock_eq]; exact ha
  · rw [acceptBlock_eq]; exact ⟨hst, hsp, hblock⟩
  · rw [acceptBlock_eq]; exact hwrap
  · rw [hram', Ram.store_cells]
    by_cases hne : fileBlock t.file t.blkSize (k + 1) = []
    · rw [hne, Mem.write_nil] at hcells ⊢
      exact hcells
    · rw [hstore hne, ← hsofar]
      exact hcells
  · rw [hram']
    refine h.inside.store fun hne => ?_
    rw [hstore hne]
    simp only [Transfer.extent, Extent.stop]
    omega
  · rw [acceptBlock_eq]
    simp only [hb, hshort, hold]

/-- **Step lemma, next block.** -/
theorem Received.next (h : Received t our server k c) (hk : k < t.last) :
    Received t our server (k + 1) (tftpHandler c (t.datagram our server (k + 1))) := by
  rcases Nat.eq_zero_or_pos k with h0 | hpos
  · -- the first block: the counters start over
    subst h0
    have hsrc : c.state = .rrq ∨ (t.datagram our server (0 + 1)).src = c.serverPort :=
      (h.waiting rfl).imp id fun h => h.2.symm
    have hst : c.state = .rrq ∨ c.state = .oack := (h.waiting rfl).imp id And.left
    have hlast : ¬ (0 + 1) % 65536 =
        (firstBlock (noteNumber c ((0 + 1) % 65536)) (t.datagram our server (0 + 1)).src).lastBlock :=
      Nat.one_ne_zero
    rw [tftpHandler_dataPacket h.listening h.ourPort.symm hsrc rfl]
    simp only [hst, if_true, true_and, if_neg hlast]
    rw [if_neg (by decide)]
    refine received_acceptBlock h hk h.listening h.ourPort h.blkSize h.loadAddr rfl rfl rfl ?_ rfl rfl rfl
    rw [wrapOffset_succ]
    simp [firstBlock, wrapOffset, u32]
  · obtain ⟨hst, hsp, hlb⟩ := h.running hpos
    have hwrap := wrapOffset_succ t.blkSize k
    rw [← h.wrap hpos hk, ← h.blkSize] at hwrap
    rw [tftpHandler_running h.listening h.ourPort.symm hst hsp.symm rfl, if_neg (by omega)]
    by_cases hz : (k + 1) % 65536 = 0
    · rw [noteNumber, if_pos hz]
      rw [if_pos hz] at hwrap
      exact received_acceptBlock h hk h.listening h.ourPort h.blkSize h.loadAddr hst hsp rfl
        (by rw [← h.blkSize]; exact hwrap.symm) rfl rfl rfl
    · rw [noteNumber, if_neg hz]
      rw [if_neg hz] at hwrap
      exact received_acceptBlock h hk h.listening h.ourPort h.blkSize h.loadAddr hst hsp rfl
        (by rw [← h.blkSize]; exact hwrap.symm) rfl rfl rfl

/-- A block that comes again only counts, and counts wrong only where its number is 0. -/
theorem tftpHandler_again (h : Received t our server k c) (hk : 0 < k) :
    tftpHandler c (t.datagram our server k) = noteNumber c (k % 65536) := by
  obtain ⟨hst, hsp, hlb⟩ := h.running hk
  rw [tftpHandler_running h.listening h.ourPort.symm hst hsp.symm rfl, if_pos hlb.symm]

/-- **Step lemma, the same block again.** -/
theorem Received.again (h : Received t our server k c) (hk : 0 < k)
    (hz : k % 65536 = 0 → k = t.last) :
    Received t our server k (tftpHandler c (t.datagram our server k)) := by
  rw [tftpHandler_again h hk]
  by_cases h0 : k % 65536 = 0
  · rw [noteNumber, if_pos h0]
    have hlast := hz h0
    exact ⟨h.listening, h.ourPort, h.blkSize, h.loadAddr, h.waiting, h.running,
      fun _ hlt => by omega, h.cells, h.inside, h.xferSize, h.netState⟩
  · rw [noteNumber, if_neg h0]
    exact ⟨h.listening, h.ourPort, h.blkSize, h.loadAddr, h.waiting, h.running,
      h.wrap, h.cells, h.inside, h.xferSize, h.netState⟩

/-- The block the client is at after the deliveries `js`. -/
def lastOf (k : Nat) (js : List Nat) : Nat := js.getLastD k

/-- **Run lemma.** -/
theorem received_run {js : List Nat} (h : Received t our server k c) (hord : InOrder t.last k js)
    (hz : NoZeroTwice t.last k js) :
    Received t our server (lastOf k js) (run tftpHandler c (js.map (t.datagram our server))) := by
  induction js generalizing k c with
  | nil => exact h
  | cons j js ih =>
    obtain ⟨hj, hord⟩ := hord
    obtain ⟨hzj, hz⟩ := hz
    rw [List.map_cons, run_cons, lastOf, List.getLastD_cons]
    rcases hj with ⟨rfl, hle⟩ | ⟨rfl, hpos⟩
    · exact ih (h.next (by omega)) hord hz
    · exact ih (h.again hpos (hzj rfl)) hord hz

/-- What success means once the first `k` blocks are in. -/
theorem Received.delivered (h : Received t our server k c) (hs : c.netState = .netloopSuccess) :
    Delivered t c := by
  have hk : k = t.last := by
    by_contra hne
    have hn := h.netState
    rw [if_neg hne, hs] at hn
    exact NetState.noConfusion hn
  have hcells := h.cells
  have hx := h.xferSize
  rw [hk, sofar_last] at hcells hx
  exact ⟨hcells, h.inside, hx⟩

/-! ## Whole transfers -/

/-- The client after `TftpStart` and, where the server acknowledges options, its
    option acknowledgement. -/
def negotiated (our server loadAddr : Nat) (cells : Mem UInt8) (retry : Option Nat)
    (opts : Option (List UInt8)) : Client :=
  run tftpHandler (tftpStart our loadAddr cells retry)
    (opts.map fun o => ⟨our, server, oackPacket o⟩).toList

variable {loadAddr : Nat} {cells : Mem UInt8} {retry : Option Nat} {opts : Option (List UInt8)}

theorem negotiated_some (o : List UInt8) :
    negotiated our server loadAddr cells retry (some o) =
      handleOack (tftpStart our loadAddr cells retry) server o := by
  simp [negotiated, tftpHandler, tftpStart, tftpSend, oackPacket, be16]

/-- Before the first block the client has received none. -/
theorem received_zero (t : Transfer) (server : Nat)
    (hb : (negotiated our server t.loadAddr cells retry opts).blkSize = t.blkSize) :
    Received t our server 0 (negotiated our server t.loadAddr cells retry opts) := by
  have hlast : ¬ 0 = t.last := by simp [Transfer.last, blockCount]
  have hzero : t.sofar 0 = [] := by simp [Transfer.sofar]
  cases opts with
  | none =>
    refine ⟨rfl, rfl, hb, rfl, fun _ => .inl rfl, fun h0 => by omega, fun h0 => by omega, ?_, ?_, ?_, ?_⟩
    · rw [hzero]; rfl
    · intro w hw
      exact absurd hw List.not_mem_nil
    · rw [hzero]; rfl
    · rw [if_neg hlast]; rfl
  | some o =>
    rw [negotiated_some] at hb ⊢
    refine ⟨rfl, rfl, hb, rfl, fun _ => .inr ⟨rfl, rfl⟩, fun h0 => by omega, fun h0 => by omega,
      ?_, ?_, ?_, ?_⟩
    · rw [hzero]; rfl
    · intro w hw
      exact absurd hw List.not_mem_nil
    · rw [hzero]; rfl
    · rw [if_neg hlast]; rfl

/-- **Integrity of a download.** Blocks delivered in order, with any repetitions
    except of a block numbered 0, leave exactly the file when success is reported. -/
theorem delivered_of_success (t : Transfer) {js : List Nat}
    (hb : (negotiated our server t.loadAddr cells retry opts).blkSize = t.blkSize)
    (hord : InOrder t.last 0 js) (hz : NoZeroTwice t.last 0 js)
    (hs : (run tftpHandler (negotiated our server t.loadAddr cells retry opts)
      (js.map (t.datagram our server))).netState = .netloopSuccess) :
    Delivered t (run tftpHandler (negotiated our server t.loadAddr cells retry opts)
      (js.map (t.datagram our server))) :=
  (received_run (received_zero t server hb) hord hz).delivered hs

/-- Five bytes in blocks of 512, sent twice, without options. -/
def shortTransfer : Transfer where
  file := [1, 2, 3, 4, 5]
  blkSize := 512
  loadAddr := 0x40000000
  blkSize_pos := by decide
  size_lt := by decide
  fits := by decide

theorem delivered_of_success_short :
    Delivered shortTransfer
      (run tftpHandler (negotiated 1024 2000 0x40000000 (fun _ => 0) none none)
        ([1, 1].map (shortTransfer.datagram 1024 2000))) :=
  delivered_of_success shortTransfer rfl (by decide) (by decide) (by decide +kernel)

/-! ## A repeated block 65536 -/

/-- Every block once. -/
theorem inOrder_range' {n k m : Nat} (h : k + m ≤ n) :
    InOrder n k (List.range' (k + 1) m) ∧ NoZeroTwice n k (List.range' (k + 1) m) := by
  induction m generalizing k with
  | zero => exact ⟨trivial, trivial⟩
  | succ m ih =>
    obtain ⟨hord, hz⟩ := ih (k := k + 1) (by omega)
    rw [List.range'_succ]
    exact ⟨⟨.inl ⟨rfl, by omega⟩, hord⟩, ⟨fun h => by omega, hz⟩⟩

theorem inOrder_append {n k : Nat} {js ls : List Nat} :
    InOrder n k (js ++ ls) ↔ InOrder n k js ∧ InOrder n (lastOf k js) ls := by
  induction js generalizing k with
  | nil => simp [InOrder, lastOf]
  | cons j js ih =>
    rw [List.cons_append, InOrder, InOrder, ih, and_assoc, lastOf, lastOf, List.getLastD_cons]

/-- 32 MB of zeros in blocks of 512 bytes: 65536 full blocks and an empty one. -/
def longTransfer : Transfer where
  file := List.replicate 33554432 0
  blkSize := 512
  loadAddr := 0x41000000
  blkSize_pos := by decide
  size_lt := by rw [List.length_replicate]; decide
  fits := by rw [List.length_replicate]; decide

theorem longTransfer_length : longTransfer.file.length = 33554432 := List.length_replicate

theorem longTransfer_blkSize : longTransfer.blkSize = 512 := rfl

theorem longTransfer_last : longTransfer.last = 65537 := by
  rw [Transfer.last, blockCount, longTransfer_length, longTransfer_blkSize]

/-- After a second block 65536 the next block is stored one round too far. -/
theorem Received.again_next (h : Received longTransfer our server 65536 c) :
    let c' := run tftpHandler c ([65536, 65537].map (longTransfer.datagram our server))
    c'.netState = .netloopSuccess ∧ c'.xferSize = 67108864 := by
  obtain ⟨hst, hsp, hlb⟩ := h.running (by decide)
  have hw := h.wrap (by decide) (by rw [longTransfer_last]; decide)
  have hx := h.xferSize
  have hb : c.blkSize = 512 := h.blkSize
  rw [sofar_length, longTransfer_length, longTransfer_blkSize] at hx
  rw [longTransfer_blkSize] at hw
  have hempty : fileBlock longTransfer.file longTransfer.blkSize 65537 = [] := by
    apply List.eq_nil_of_length_eq_zero
    rw [fileBlock_succ_length, longTransfer_length, longTransfer_blkSize]
    decide
  simp only [List.map_cons, List.map_nil, run_cons, run_nil]
  rw [tftpHandler_again h (by decide), noteNumber, if_pos (by decide),
    tftpHandler_running (k := 65537) (by exact h.listening) (by exact h.ourPort.symm) (by exact hst)
      (by exact hsp.symm) rfl,
    if_neg (by simp only [hlb]; decide), noteNumber, if_neg (by decide), acceptBlock_eq, hempty]
  simp [storeBlock, tftpSend, hb, hw, hx, wrapOffset, u32, tftpSequenceSize]

/-- Blocks 1, 2, ..., 65536, then 65536 once more, then the last one: the client
    reports success with a size of 64 MB. -/
theorem repeated_block_65536_misplaced :
    ¬ ∀ (t : Transfer) (our server : Nat) (cells : Mem UInt8) (opts : Option (List UInt8))
        (js : List Nat),
      (negotiated our server t.loadAddr cells none opts).blkSize = t.blkSize →
      InOrder t.last 0 js →
      (run tftpHandler (negotiated our server t.loadAddr cells none opts)
        (js.map (t.datagram our server))).netState = .netloopSuccess →
      Delivered t (run tftpHandler (negotiated our server t.loadAddr cells none opts)
        (js.map (t.datagram our server))) := by
  intro hall
  have h0 : Received longTransfer 1024 2000 0
      (negotiated 1024 2000 0x41000000 (fun _ => 0) none none) :=
    received_zero longTransfer 2000 rfl
  obtain ⟨hord, hz⟩ := inOrder_range' (n := longTransfer.last) (k := 0) (m := 65536)
    (by rw [longTransfer_last]; decide)
  have h1 := received_run h0 hord hz
  have hlast : lastOf 0 (List.range' (0 + 1) 65536) = 65536 := by
    rw [lastOf, List.range'_concat (s := 0 + 1) (n := 65535), List.getLastD_concat]
  rw [hlast] at h1
  obtain ⟨hs, hx⟩ := h1.again_next
  rw [← run_append, ← List.map_append] at hs hx
  have hd := hall longTransfer 1024 2000 (fun _ => 0) none _ rfl ?_ hs
  · have := hd.xferSize
    rw [longTransfer_length] at this
    exact absurd (hx.symm.trans this) (by decide)
  · rw [inOrder_append, hlast, longTransfer_last] at *
    exact ⟨hord, by decide⟩

end Uboot.Net.Tftp
