/-
  Uboot.Common.Kermit

  `k_recv` of common/cmd_load.c, a character at a time: data is stored while its
  packet is still being checked, and taken back to a checkpoint when the check
  fails.  What only shapes the replies (padding, the end of line, the parameters
  offered) is left out with their bytes.
-/

import Uboot.Lib.Mem
import Uboot.Lib.Run

namespace Uboot.Common.Kermit

open Uboot.Lib

def startChar : UInt8 := 0x01

def etxChar : UInt8 := 0x03

def endChar : UInt8 := 0x0D

/-- `K_ESCAPE` -/
def kEscape : UInt8 := 0x23

/-- `SEND_TYPE` -/
def sendType : UInt8 := 83

/-- `DATA_TYPE` -/
def dataType : UInt8 := 68

/-- `BREAK_TYPE` -/
def breakType : UInt8 := 66

def tochar (x : Nat) : UInt8 := UInt8.ofNat (x + 32)

def untochar (c : UInt8) : Nat := (c.toNat + 224) % 256

/-- `(new_char & 0xE0) == 0` -/
def control (c : UInt8) : Bool := c &&& 0xE0 = 0

/-- The block check of characters that sum to `sum`. -/
def blockCheck (sum : Nat) : UInt8 := tochar ((sum + (sum / 64) % 4) % 64)

/-- `ktrans` -/
def ktrans (c : UInt8) : UInt8 :=
  if c &&& 0x60 = 0x40 then c &&& 0xBF
  else if c &&& 0x7F = 0x3F then c ||| 0x40
  else c

-- ============================================================================
-- The receiver
-- ============================================================================

/-- Which character `k_recv` reads next. -/
inductive Pos
  | start
  | len
  | seq
  | typ
  | lenHi
  | lenLo
  | headCheck
  | body
  | check
  | eol
  deriving DecidableEq

/-- How `k_recv` returned: on the break packet, with its value, or on a `^C`. -/
inductive End
  | onBreak (size : Nat)
  | interrupted
  deriving DecidableEq

/-- What is sent back: `send_ack`, the acknowledgement of `handle_send_packet`, `send_nack`. -/
inductive Reply
  | ack (n : Nat)
  | params (n : Nat)
  | nack (n : Nat)
  deriving DecidableEq

/-- The variables of `k_recv` and the ones it keeps the data with, and memory. -/
structure Recv where
  pos : Pos
  ended : Option End
  sum : Nat
  length : Int
  n : Nat
  lastN : Int
  lenHi : Nat
  kState : UInt8
  kStateSaved : UInt8
  hisQuote : UInt8
  sendParms : Mem UInt8
  sendPtr : Nat
  kDataEscape : Bool
  kDataEscapeSaved : Bool
  osDataAddr : Nat
  osDataAddrSaved : Nat
  binStartAddress : Nat
  mem : Mem UInt8

/-- `set_kerm_bin_mode (addr)` and the head of `k_recv`. -/
def kRecv (addr : Nat) (mem : Mem UInt8) : Recv where
  pos := .start
  ended := none
  sum := 0
  length := 0
  n := 0
  lastN := -1
  lenHi := 0
  kState := 0
  kStateSaved := 0
  hisQuote := kEscape
  sendParms _ := 0
  sendPtr := 0
  kDataEscape := false
  kDataEscapeSaved := false
  osDataAddr := addr
  osDataAddrSaved := addr
  binStartAddress := addr
  mem := mem

/-- `k_data_save` and `k_state_saved = k_state` -/
def kDataSave (k : Recv) : Recv :=
  { k with
    kStateSaved := k.kState, kDataEscapeSaved := k.kDataEscape, osDataAddrSaved := k.osDataAddr }

/-- `k_data_restore` and `k_state = k_state_saved` -/
def kDataRestore (k : Recv) : Recv :=
  { k with
    kState := k.kStateSaved, kDataEscape := k.kDataEscapeSaved, osDataAddr := k.osDataAddrSaved }

/-- `bin_data_char` -/
def binDataChar (k : Recv) (c : UInt8) : Recv :=
  { k with mem := k.mem.write k.osDataAddr [c], osDataAddr := k.osDataAddr + 1 }

/-- `k_data_char` -/
def kDataChar (k : Recv) (c : UInt8) : Recv :=
  if k.kDataEscape then { binDataChar k (ktrans c) with kDataEscape := false }
  else if c = k.hisQuote then { k with kDataEscape := true }
  else binDataChar k c

/-- `packet_error` -/
def packetError (k : Recv) : Recv × Option Reply :=
  ({ kDataRestore k with pos := .start }, some (.nack k.n))

/-- The check on the sequence number `n`. -/
def checkNumber (k : Recv) : Recv :=
  if (k.n : Int) = k.lastN then kDataRestore k else kDataSave { k with lastN := k.n }

/-- Where a packet goes on of which `length` characters are to come, the block check included. -/
def bodyPos (length : Int) : Pos := if 1 < length then .body else .check

/-- One character of the data field. -/
def bodyChar (k : Recv) (c : UInt8) : Recv :=
  if k.kState = dataType then kDataChar k c
  else if k.kState = sendType then
    { k with
      sendParms := k.sendParms.write k.sendPtr [c],
      sendPtr := if 20 ≤ k.sendPtr + 1 then k.sendPtr else k.sendPtr + 1 }
  else k

/-- `handle_send_packet`: the quoting character is the sixth parameter. -/
def handleSendPacket (k : Recv) : Recv :=
  let bytes := if k.sendPtr = 19 then 18 else k.sendPtr
  { k with hisQuote := if 6 ≤ bytes then k.sendParms 5 else kEscape }

/-- A packet that has been read without an error. -/
def packetEnd (k : Recv) : Recv × Option Reply :=
  let next := { k with pos := .start }
  if k.kState = sendType then ({ handleSendPacket k with pos := .start }, some (.params k.n))
  else if k.kState = breakType then
    ({ next with ended := some (.onBreak (k.osDataAddr - k.binStartAddress)) }, some (.ack k.n))
  else (next, some (.ack k.n))

/-- `k_recv` reads one character. -/
def readChar (k : Recv) (c : UInt8) : Recv × Option Reply :=
  if k.ended ≠ none then (k, none)
  else
    match k.pos with
    | .start =>
      if c = startChar then ({ k with pos := .len, sum := 0, sendPtr := 0 }, none)
      else if c = etxChar then ({ k with ended := some .interrupted }, none)
      else (k, none)
    | .eol => if c ≠ endChar then packetError k else packetEnd k
    | .check =>
      if control c ∨ c ≠ blockCheck k.sum then packetError k else ({ k with pos := .eol }, none)
    | pos =>
      if control c then packetError k
      else
        let k' := { k with sum := k.sum + c.toNat }
        match pos with
        | .len => ({ k' with pos := .seq, length := untochar c }, none)
        | .seq =>
          ({ checkNumber { k' with n := untochar c, length := k.length - 1 } with pos := .typ }, none)
        | .typ =>
          let length := k.length - 1
          ({ k' with
            kState := c, length := length,
            pos := if length = -2 then .lenHi else bodyPos length }, none)
        | .lenHi => ({ k' with pos := .lenLo, lenHi := untochar c }, none)
        | .lenLo => ({ k' with pos := .headCheck, length := k.lenHi * 95 + untochar c }, none)
        | .headCheck =>
          if c ≠ blockCheck k.sum then packetError k else ({ k' with pos := bodyPos k.length }, none)
        | _ =>
          ({ bodyChar k' c with length := k.length - 1, pos := bodyPos (k.length - 1) }, none)

/-- `k_recv` reads the characters `cs`; the replies it sends. -/
def feed (k : Recv) : List UInt8 → Recv × List Reply
  | [] => (k, [])
  | c :: cs =>
    let r := readChar k c
    let rest := feed r.1 cs
    (rest.1, r.2.toList ++ rest.2)

-- ============================================================================
-- The sender
-- ============================================================================

/-- A packet: normal or long form, as long as the form allows, without control characters. -/
structure Packet where
  typ : UInt8
  data : List UInt8
  long : Bool
  typ_ok : control typ = false
  data_ok : ∀ c ∈ data, control c = false
  fits : if long then data.length + 1 ≤ 9024 else data.length + 3 ≤ 94

def charSum (cs : List UInt8) : Nat := (cs.map UInt8.toNat).sum

/-- The characters before the data field. -/
def Packet.head (p : Packet) (n : Nat) : List UInt8 :=
  if p.long then
    let head := [tochar 0, tochar n, p.typ, tochar ((p.data.length + 1) / 95),
      tochar ((p.data.length + 1) % 95)]
    head ++ [blockCheck (charSum head)]
  else [tochar (p.data.length + 3), tochar n, p.typ]

/-- The packet with number `n` as it is sent. -/
def Packet.wire (p : Packet) (n : Nat) : List UInt8 :=
  startChar :: (p.head n ++ (p.data ++ [blockCheck (charSum (p.head n ++ p.data)), endChar]))

/-- Control quoting of one byte with the quoting character `q`. -/
def encodeByte (q b : UInt8) : List UInt8 :=
  if b &&& 0x60 = 0 ∨ b &&& 0x7F = 0x7F then [q, b ^^^ 0x40]
  else if b &&& 0x7F = q then [q, b]
  else [b]

/-- The quoting characters the protocol has. -/
def QuoteChar (q : UInt8) : Prop := (33 ≤ q ∧ q ≤ 62) ∨ (96 ≤ q ∧ q ≤ 126)

/-- A file, and the packets it is sent in. -/
structure Transfer where
  file : List UInt8
  quote : UInt8
  sendInit : Packet
  fileHeader : Packet
  cut : List Packet
  endOfFile : Packet
  endOfTransmission : Packet
  sendInit_typ : sendInit.typ = sendType
  fileHeader_typ : fileHeader.typ = 70
  cut_typ : ∀ p ∈ cut, p.typ = dataType
  endOfFile_typ : endOfFile.typ = 90
  endOfTransmission_typ : endOfTransmission.typ = breakType
  quoteChar : QuoteChar quote
  /-- The quoting character the parameters announce. -/
  sendInit_quote : quote = sendInit.data.getD 5 kEscape
  cut_data : cut.flatMap Packet.data = file.flatMap (encodeByte quote)

def Transfer.packets (t : Transfer) : List Packet :=
  t.sendInit :: t.fileHeader :: (t.cut ++ [t.endOfFile, t.endOfTransmission])

/-- The sequence number of packet `i`. -/
def number (i : Nat) : Nat := i % 64

-- ============================================================================
-- The line
-- ============================================================================

/-- The two ends: the receiver, the packet being sent, and whether this packet, and whether
    its last delivery, has been acknowledged. -/
structure Link where
  recv : Recv
  index : Nat
  acked : Bool
  lastAcked : Bool

/-- Characters arrive, or the sender goes on to the next packet. -/
inductive Event
  | deliver (cs : List UInt8)
  | next

def Reply.acks (n : Nat) : Reply → Bool
  | .ack m => m = n
  | .params m => m = n
  | .nack _ => false

def Reply.isNack : Reply → Bool
  | .nack _ => true
  | _ => false

def step (l : Link) : Event → Link
  | .deliver cs =>
    let r := feed l.recv cs
    let acked := r.2.any (Reply.acks (number l.index))
    { l with recv := r.1, acked := l.acked || acked, lastAcked := acked }
  | .next => { l with index := l.index + 1, acked := false, lastAcked := false }

/-- The link before the first packet, with the load address and memory. -/
def Link.start (addr : Nat) (mem : Mem UInt8) : Link := ⟨kRecv addr mem, 0, false, false⟩

/-- The current packet arrives as it was sent. -/
def Intact (t : Transfer) (l : Link) (cs : List UInt8) : Prop :=
  t.packets[l.index]?.map (Packet.wire (n := number l.index)) = some cs

/-- The receiver finds fault with what arrives: it acknowledges nothing. -/
def Detected (l : Link) (cs : List UInt8) : Prop := ((feed l.recv cs).2.all Reply.isNack) = true

/-- What the receiver is promised: a delivery is intact or the packet's characters altered in a
    way that is detected, and the sender goes on after an acknowledgement of the packet. -/
def Promised (t : Transfer) (l : Link) : Event → Prop
  | .deliver cs =>
    Intact t l cs ∨
      (Detected l cs ∧
        t.packets[l.index]?.map (fun p => (p.wire (number l.index)).length) = some cs.length)
  | .next => l.acked = true

/-- The comment on the sequence numbers assumes that they are received: a length character
    that is none, and the number of the packet. -/
def NumberReceived (index : Nat) (k : Recv) (c : UInt8) : Prop :=
  (k.pos = .len → control c = false) ∧ (k.pos = .seq → c = tochar (number index))

/-- The deliveries and acknowledgements `k_recv` copes with.  Where a delivery is not intact the
    number has been received, and the sender goes on after an acknowledgement of its last
    delivery. -/
def Assumed (t : Transfer) (l : Link) : Event → Prop
  | .deliver cs =>
    Intact t l cs ∨
      (Detected l cs ∧ Guarded (fun k c => (readChar k c).1) (NumberReceived l.index) l.recv cs ∧
        (feed l.recv cs).1.pos ≠ .len ∧ (feed l.recv cs).1.pos ≠ .seq)
  | .next => l.lastAcked = true

/-- The file stands at the load address and its length is what `k_recv` returns. -/
def Loaded (t : Transfer) (addr : Nat) (k : Recv) : Prop :=
  ∀ size, k.ended = some (.onBreak size) →
    size = t.file.length ∧ k.mem.read addr t.file.length = t.file

-- ============================================================================
-- Characters
-- ============================================================================

section Chars

variable {q b c : UInt8} {n x : Nat}

theorem forall_uint8 {P : UInt8 → Prop} (h : ∀ n < 256, P (UInt8.ofNat n)) (c : UInt8) : P c := by
  have hc := h c.toNat c.toNat_lt
  rw [UInt8.ofNat_toNat] at hc
  exact hc

theorem control_iff (c : UInt8) : control c = true ↔ c.toNat < 32 :=
  forall_uint8 (P := fun c => control c = true ↔ c.toNat < 32) (by decide +kernel) c

theorem tochar_toNat (hx : x < 224) : (tochar x).toNat = x + 32 := by
  rw [tochar, UInt8.toNat_ofNat']
  omega

theorem untochar_tochar (hx : x < 224) : untochar (tochar x) = x := by
  rw [untochar, tochar_toNat hx]
  omega

theorem control_tochar (hx : x < 224) : control (tochar x) = false := by
  rw [Bool.eq_false_iff, ne_eq, control_iff, tochar_toNat hx]
  omega

theorem control_blockCheck (sum : Nat) : control (blockCheck sum) = false :=
  control_tochar (by omega)

theorem number_lt (i : Nat) : number i < 64 := Nat.mod_lt _ (by decide)

theorem number_succ_ne (i : Nat) : number (i + 1) ≠ number i := by
  rw [number, number]
  omega

-- ----------------------------------------------------------------------------
-- Control quoting
-- ----------------------------------------------------------------------------

/-- What `k_data_char` makes of the characters, from an escape on or not. -/
def decode (q : UInt8) : Bool → List UInt8 → List UInt8 × Bool
  | escape, [] => ([], escape)
  | true, c :: cs => (ktrans c :: (decode q false cs).1, (decode q false cs).2)
  | false, c :: cs =>
    if c = q then decode q true cs else (c :: (decode q false cs).1, (decode q false cs).2)

theorem decode_append (q : UInt8) (xs ys : List UInt8) : ∀ escape : Bool,
    decode q escape (xs ++ ys) =
      ((decode q escape xs).1 ++ (decode q (decode q escape xs).2 ys).1,
        (decode q (decode q escape xs).2 ys).2) := by
  induction xs with
  | nil =>
    intro escape
    cases escape <;> rfl
  | cons c xs ih =>
    intro escape
    cases escape with
    | true =>
      rw [List.cons_append, decode, decode, ih]
      rfl
    | false =>
      rw [List.cons_append, decode, decode]
      split
      · rw [ih]
      · rw [ih]
        rfl

theorem ktrans_control (b : UInt8) (h : b &&& 0x60 = 0 ∨ b &&& 0x7F = 0x7F) :
    ktrans (b ^^^ 0x40) = b :=
  forall_uint8 (P := fun b => b &&& 0x60 = 0 ∨ b &&& 0x7F = 0x7F → ktrans (b ^^^ 0x40) = b)
    (by decide +kernel) b h

theorem ktrans_quote (b : UInt8) (h : QuoteChar (b &&& 0x7F)) : ktrans b = b :=
  forall_uint8 (P := fun b => (33 ≤ b &&& 0x7F ∧ b &&& 0x7F ≤ 62) ∨
    (96 ≤ b &&& 0x7F ∧ b &&& 0x7F ≤ 126) → ktrans b = b) (by decide +kernel) b h

theorem quote_low (h : QuoteChar q) : q &&& 0x7F = q :=
  forall_uint8 (P := fun q => (33 ≤ q ∧ q ≤ 62) ∨ (96 ≤ q ∧ q ≤ 126) → q &&& 0x7F = q)
    (by decide +kernel) q h

/-- Unquoting takes back the quoting. -/
theorem decode_encode (hq : QuoteChar q) (file : List UInt8) :
    decode q false (file.flatMap (encodeByte q)) = (file, false) := by
  induction file with
  | nil => rfl
  | cons b file ih =>
    rw [List.flatMap_cons, encodeByte]
    split
    · rename_i hcontrol
      rw [List.cons_append, List.singleton_append, decode, if_pos rfl, decode, ih,
        ktrans_control b hcontrol]
    · split
      · rename_i hlow
        rw [List.cons_append, List.singleton_append, decode, if_pos rfl, decode, ih,
          ktrans_quote b (hlow ▸ hq)]
      · rename_i hlow
        have hne : b ≠ q := fun heq => hlow (by rw [heq]; exact quote_low hq)
        rw [List.singleton_append, decode, if_neg hne, ih]

end Chars

-- ============================================================================
-- The data kept so far
-- ============================================================================

/-- The data characters of the first `i` packets. -/
def Transfer.dataBefore (t : Transfer) (i : Nat) : List UInt8 :=
  ((t.packets.take i).filter (fun p => p.typ = dataType)).flatMap Packet.data

/-- The bytes they stand for, and whether the last of them is an escape. -/
def Transfer.bytes (t : Transfer) (i : Nat) : List UInt8 × Bool := decode t.quote false (t.dataBefore i)

/-- `addr` and `escape` are where the data stands after `i` packets, whose bytes are in memory. -/
structure Stored (t : Transfer) (i addr : Nat) (escape : Bool) (k : Recv) : Prop where
  addr : addr = k.binStartAddress + (t.bytes i).1.length
  escape : escape = (t.bytes i).2
  text : k.mem.read k.binStartAddress (t.bytes i).1.length = (t.bytes i).1

/-- Nothing of packet `i` has been seen: the data stands at its beginning. -/
structure Fresh (t : Transfer) (i : Nat) (k : Recv) : Prop where
  lastN : k.lastN ≠ number i
  pos : k.pos = .start ∨ k.pos = .len ∨ k.pos = .seq
  stored : Stored t i k.osDataAddr k.kDataEscape k

/-- The number of packet `i` has been read: the checkpoint is its beginning. -/
structure Seen (t : Transfer) (i : Nat) (k : Recv) : Prop where
  lastN : k.lastN = number i
  saved : Stored t i k.osDataAddrSaved k.kDataEscapeSaved k
  le : k.osDataAddrSaved ≤ k.osDataAddr

section Data

variable {t : Transfer} {i addr : Nat} {escape : Bool} {k k' : Recv} {c : UInt8}

theorem Stored.congr (h : Stored t i addr escape k) (hstart : k'.binStartAddress = k.binStartAddress)
    (hmem : ∀ x < addr, k'.mem x = k.mem x) : Stored t i addr escape k' := by
  refine ⟨by rw [hstart]; exact h.addr, h.escape, ?_⟩
  rw [hstart, ← h.text, h.text]
  have hread : k'.mem.read k.binStartAddress (t.bytes i).1.length =
      k.mem.read k.binStartAddress (t.bytes i).1.length :=
    Mem.read_congr fun x _ hx => hmem x (by rw [h.addr]; exact hx)
  rw [hread]
  exact h.text

/-- What a packet may do to the data: it goes on from where it is and keeps what is below. -/
structure Onward (k k' : Recv) : Prop where
  lastN : k'.lastN = k.lastN
  start : k'.binStartAddress = k.binStartAddress
  addrSaved : k'.osDataAddrSaved = k.osDataAddrSaved
  escapeSaved : k'.kDataEscapeSaved = k.kDataEscapeSaved
  le : k.osDataAddrSaved ≤ k.osDataAddr → k'.osDataAddrSaved ≤ k'.osDataAddr
  below : ∀ x < k.osDataAddr, k'.mem x = k.mem x

theorem Onward.seen (h : Onward k k') (hseen : Seen t i k) : Seen t i k' := by
  refine ⟨h.lastN.trans hseen.lastN, ?_, h.le hseen.le⟩
  rw [h.addrSaved, h.escapeSaved]
  exact hseen.saved.congr h.start fun x hx => h.below x (Nat.lt_of_lt_of_le hx hseen.le)

theorem onward_packetError (k : Recv) : Onward k (packetError k).1 :=
  ⟨rfl, rfl, rfl, rfl, fun _ => Nat.le_refl _, fun _ _ => rfl⟩

theorem onward_packetEnd (k : Recv) : Onward k (packetEnd k).1 := by
  rw [packetEnd]
  split
  · exact ⟨rfl, rfl, rfl, rfl, id, fun _ _ => rfl⟩
  · split
    · exact ⟨rfl, rfl, rfl, rfl, id, fun _ _ => rfl⟩
    · exact ⟨rfl, rfl, rfl, rfl, id, fun _ _ => rfl⟩

theorem onward_binDataChar (k : Recv) (c : UInt8) : Onward k (binDataChar k c) := by
  refine ⟨rfl, rfl, rfl, rfl, fun h => Nat.le_succ_of_le h, fun x hx => ?_⟩
  exact Mem.write_outside _ (.inl hx)

theorem onward_bodyChar (k : Recv) (c : UInt8) : Onward k (bodyChar k c) := by
  rw [bodyChar]
  split
  · rw [kDataChar]
    split
    · have h := onward_binDataChar k (ktrans c)
      exact ⟨h.lastN, h.start, h.addrSaved, h.escapeSaved, h.le, h.below⟩
    · split
      · exact ⟨rfl, rfl, rfl, rfl, id, fun _ _ => rfl⟩
      · exact onward_binDataChar k c
  · split
    · exact ⟨rfl, rfl, rfl, rfl, id, fun _ _ => rfl⟩
    · exact ⟨rfl, rfl, rfl, rfl, id, fun _ _ => rfl⟩

theorem bodyChar_keeps (k : Recv) (c : UInt8) :
    (bodyChar k c).hisQuote = k.hisQuote ∧ (bodyChar k c).ended = k.ended ∧
      (bodyChar k c).sum = k.sum ∧ (bodyChar k c).n = k.n ∧ (bodyChar k c).kState = k.kState := by
  rw [bodyChar]
  split
  · rw [kDataChar]
    split
    · exact ⟨rfl, rfl, rfl, rfl, rfl⟩
    · split
      · exact ⟨rfl, rfl, rfl, rfl, rfl⟩
      · exact ⟨rfl, rfl, rfl, rfl, rfl⟩
  · split
    · exact ⟨rfl, rfl, rfl, rfl, rfl⟩
    · exact ⟨rfl, rfl, rfl, rfl, rfl⟩

theorem bodyChar_other {k : Recv} (h : k.kState ≠ dataType) (c : UInt8) :
    (bodyChar k c).osDataAddr = k.osDataAddr ∧ (bodyChar k c).kDataEscape = k.kDataEscape := by
  rw [bodyChar, if_neg h]
  split
  · exact ⟨rfl, rfl⟩
  · exact ⟨rfl, rfl⟩

theorem le_bodyChar (k : Recv) (c : UInt8) : k.osDataAddr ≤ (bodyChar k c).osDataAddr := by
  rw [bodyChar]
  split
  · rw [kDataChar]
    split
    · exact Nat.le_succ _
    · split
      · exact Nat.le_refl _
      · exact Nat.le_succ _
  · split
    · exact Nat.le_refl _
    · exact Nat.le_refl _

/-- The number of the packet: a new one sets the checkpoint, a repeated one goes back to it. -/
theorem checkNumber_seen (h : Fresh t i k ∨ Seen t i k) (hn : k.n = number i) :
    Seen t i (checkNumber k) ∧
      Stored t i (checkNumber k).osDataAddr (checkNumber k).kDataEscape (checkNumber k) := by
  rw [checkNumber, hn]
  rcases h with h | h
  · rw [if_neg h.lastN.symm]
    have hstored : ∀ k' : Recv, k'.binStartAddress = k.binStartAddress →
        (∀ x < k.osDataAddr, k'.mem x = k.mem x) → Stored t i k.osDataAddr k.kDataEscape k' :=
      fun _ => h.stored.congr
    exact ⟨⟨rfl, hstored _ rfl fun _ _ => rfl, Nat.le_refl _⟩, hstored _ rfl fun _ _ => rfl⟩
  · rw [if_pos h.lastN.symm]
    have hstored : ∀ k' : Recv, k'.binStartAddress = k.binStartAddress →
        (∀ x < k.osDataAddrSaved, k'.mem x = k.mem x) →
        Stored t i k.osDataAddrSaved k.kDataEscapeSaved k' := fun _ => h.saved.congr
    exact ⟨⟨h.lastN, hstored _ rfl fun _ _ => rfl, Nat.le_refl _⟩, hstored _ rfl fun _ _ => rfl⟩

end Data

-- ============================================================================
-- One character
-- ============================================================================

section Char

variable {t : Transfer} {i : Nat} {k : Recv} {c : UInt8}

theorem readChar_eq (hended : k.ended = none) (hstart : k.pos ≠ .start) (hcheck : k.pos ≠ .check)
    (heol : k.pos ≠ .eol) (hc : control c = true) : readChar k c = packetError k := by
  rw [readChar, if_neg (not_not.mpr hended)]
  cases hpos : k.pos with
  | start => exact absurd hpos hstart
  | check => exact absurd hpos hcheck
  | eol => exact absurd hpos heol
  | _ => exact if_pos hc

theorem readChar_len (hended : k.ended = none) (hpos : k.pos = .len) (hc : control c = false) :
    readChar k c =
      ({ k with sum := k.sum + c.toNat, pos := .seq, length := untochar c }, none) := by
  rw [readChar, if_neg (not_not.mpr hended), hpos]
  exact if_neg (by rw [hc]; exact Bool.false_ne_true)

theorem readChar_seq (hended : k.ended = none) (hpos : k.pos = .seq) (hc : control c = false) :
    readChar k c =
      ({ checkNumber { k with sum := k.sum + c.toNat, n := untochar c, length := k.length - 1 } with
        pos := .typ }, none) := by
  rw [readChar, if_neg (not_not.mpr hended), hpos]
  exact if_neg (by rw [hc]; exact Bool.false_ne_true)

theorem readChar_typ (hended : k.ended = none) (hpos : k.pos = .typ) (hc : control c = false) :
    readChar k c =
      ({ k with
        sum := k.sum + c.toNat, kState := c, length := k.length - 1,
        pos := if k.length - 1 = -2 then .lenHi else bodyPos (k.length - 1) }, none) := by
  rw [readChar, if_neg (not_not.mpr hended), hpos]
  exact if_neg (by rw [hc]; exact Bool.false_ne_true)

theorem readChar_lenHi (hended : k.ended = none) (hpos : k.pos = .lenHi) (hc : control c = false) :
    readChar k c =
      ({ k with sum := k.sum + c.toNat, pos := .lenLo, lenHi := untochar c }, none) := by
  rw [readChar, if_neg (not_not.mpr hended), hpos]
  exact if_neg (by rw [hc]; exact Bool.false_ne_true)

theorem readChar_lenLo (hended : k.ended = none) (hpos : k.pos = .lenLo) (hc : control c = false) :
    readChar k c =
      ({ k with
        sum := k.sum + c.toNat, pos := .headCheck, length := k.lenHi * 95 + untochar c }, none) := by
  rw [readChar, if_neg (not_not.mpr hended), hpos]
  exact if_neg (by rw [hc]; exact Bool.false_ne_true)

theorem readChar_headCheck (hended : k.ended = none) (hpos : k.pos = .headCheck)
    (hc : control c = false) :
    readChar k c =
      if c ≠ blockCheck k.sum then packetError k
      else ({ k with sum := k.sum + c.toNat, pos := bodyPos k.length }, none) := by
  rw [readChar, if_neg (not_not.mpr hended), hpos]
  exact if_neg (by rw [hc]; exact Bool.false_ne_true)

theorem readChar_body (hended : k.ended = none) (hpos : k.pos = .body) (hc : control c = false) :
    readChar k c =
      ({ bodyChar { k with sum := k.sum + c.toNat } c with
        length := k.length - 1, pos := bodyPos (k.length - 1) }, none) := by
  rw [readChar, if_neg (not_not.mpr hended), hpos]
  exact if_neg (by rw [hc]; exact Bool.false_ne_true)

theorem readChar_check (hended : k.ended = none) (hpos : k.pos = .check) (c : UInt8) :
    readChar k c =
      if control c ∨ c ≠ blockCheck k.sum then packetError k else ({ k with pos := .eol }, none) := by
  rw [readChar, if_neg (not_not.mpr hended), hpos]

theorem readChar_eol (hended : k.ended = none) (hpos : k.pos = .eol) (c : UInt8) :
    readChar k c = if c ≠ endChar then packetError k else packetEnd k := by
  rw [readChar, if_neg (not_not.mpr hended), hpos]

theorem readChar_start (hended : k.ended = none) (hpos : k.pos = .start) (c : UInt8) :
    readChar k c =
      if c = startChar then ({ k with pos := .len, sum := 0, sendPtr := 0 }, none)
      else if c = etxChar then ({ k with ended := some .interrupted }, none)
      else (k, none) := by
  rw [readChar, if_neg (not_not.mpr hended), hpos]

/-- Behind the number a character is an error or a packet's end, or only goes on from the data as
    it stands, without a reply. -/
theorem readChar_behind (hended : k.ended = none) (hstart : k.pos ≠ .start) (hlen : k.pos ≠ .len)
    (hseq : k.pos ≠ .seq) (c : UInt8) :
    readChar k c = packetError k ∨ readChar k c = packetEnd k ∨
      ((readChar k c).2 = none ∧ (readChar k c).1.hisQuote = k.hisQuote ∧
        (readChar k c).1.ended = k.ended ∧ Onward k (readChar k c).1) := by
  cases hc : control c with
  | true =>
    cases hpos : k.pos with
    | start => exact absurd hpos hstart
    | check =>
      refine .inl ?_
      rw [readChar_check hended hpos, if_pos (.inl hc)]
    | eol =>
      rw [readChar_eol hended hpos]
      split
      · exact .inl rfl
      · exact .inr (.inl rfl)
    | _ =>
      refine .inl (readChar_eq hended ?_ ?_ ?_ hc)
      · rw [hpos]
        exact Pos.noConfusion
      · rw [hpos]
        exact Pos.noConfusion
      · rw [hpos]
        exact Pos.noConfusion
  | false =>
    cases hpos : k.pos with
    | start => exact absurd hpos hstart
    | len => exact absurd hpos hlen
    | seq => exact absurd hpos hseq
    | typ =>
      rw [readChar_typ hended hpos hc]
      exact .inr (.inr ⟨rfl, rfl, rfl, rfl, rfl, rfl, rfl, id, fun _ _ => rfl⟩)
    | lenHi =>
      rw [readChar_lenHi hended hpos hc]
      exact .inr (.inr ⟨rfl, rfl, rfl, rfl, rfl, rfl, rfl, id, fun _ _ => rfl⟩)
    | lenLo =>
      rw [readChar_lenLo hended hpos hc]
      exact .inr (.inr ⟨rfl, rfl, rfl, rfl, rfl, rfl, rfl, id, fun _ _ => rfl⟩)
    | headCheck =>
      rw [readChar_headCheck hended hpos hc]
      split
      · exact .inl rfl
      · exact .inr (.inr ⟨rfl, rfl, rfl, rfl, rfl, rfl, rfl, id, fun _ _ => rfl⟩)
    | body =>
      have hbody := onward_bodyChar { k with sum := k.sum + c.toNat } c
      have hkeeps := bodyChar_keeps { k with sum := k.sum + c.toNat } c
      rw [readChar_body hended hpos hc]
      exact .inr (.inr ⟨rfl, hkeeps.1, hkeeps.2.1, hbody.lastN, hbody.start, hbody.addrSaved,
        hbody.escapeSaved, hbody.le, hbody.below⟩)
    | check =>
      rw [readChar_check hended hpos]
      split
      · exact .inl rfl
      · exact .inr (.inr ⟨rfl, rfl, rfl, rfl, rfl, rfl, rfl, id, fun _ _ => rfl⟩)
    | eol =>
      rw [readChar_eol hended hpos]
      split
      · exact .inl rfl
      · exact .inr (.inl rfl)

/-- While the number is received each time, the data or the checkpoint stands at the packet's
    beginning. -/
theorem readChar_known (h : Fresh t i k ∨ Seen t i k) (hnum : NumberReceived i k c) :
    Fresh t i (readChar k c).1 ∨ Seen t i (readChar k c).1 := by
  by_cases hended : k.ended = none
  swap
  · rw [readChar, if_pos hended]
    exact h
  -- a character that leaves the data and the numbers alone
  have hkeep : ∀ k' : Recv, k'.lastN = k.lastN → k'.binStartAddress = k.binStartAddress →
      k'.mem = k.mem → k'.osDataAddr = k.osDataAddr → k'.kDataEscape = k.kDataEscape →
      k'.osDataAddrSaved = k.osDataAddrSaved → k'.kDataEscapeSaved = k.kDataEscapeSaved →
      (k'.pos = .start ∨ k'.pos = .len ∨ k'.pos = .seq) → Fresh t i k' ∨ Seen t i k' := by
    intro k' hlast hstart hmem haddr hesc haddr' hesc' hpos
    refine h.imp (fun h => ⟨by rw [hlast]; exact h.lastN, hpos, ?_⟩)
      (fun h => ⟨by rw [hlast]; exact h.lastN, ?_, by rw [haddr, haddr']; exact h.le⟩)
    · rw [haddr, hesc]
      exact h.stored.congr hstart fun x _ => by rw [hmem]
    · rw [haddr', hesc']
      exact h.saved.congr hstart fun x _ => by rw [hmem]
  by_cases hpos : k.pos = .start ∨ k.pos = .len ∨ k.pos = .seq
  · rcases hpos with hpos | hpos | hpos
    · rw [readChar_start hended hpos]
      split
      · exact hkeep _ rfl rfl rfl rfl rfl rfl rfl (.inr (.inl rfl))
      · split
        · exact hkeep _ rfl rfl rfl rfl rfl rfl rfl (.inl hpos)
        · exact h
    · rw [readChar_len hended hpos (hnum.1 hpos)]
      exact hkeep _ rfl rfl rfl rfl rfl rfl rfl (.inr (.inr rfl))
    · have hlt := number_lt i
      have hcontrol : control c = false := by
        rw [hnum.2 hpos]
        exact control_tochar (by omega)
      have hn : untochar c = number i := by
        rw [hnum.2 hpos]
        exact untochar_tochar (by omega)
      have hknown : Fresh t i
          { k with sum := k.sum + c.toNat, n := untochar c, length := k.length - 1 } ∨
          Seen t i { k with sum := k.sum + c.toNat, n := untochar c, length := k.length - 1 } :=
        hkeep _ rfl rfl rfl rfl rfl rfl rfl (.inr (.inr hpos))
      have hseen := (checkNumber_seen hknown hn).1
      rw [readChar_seq hended hpos hcontrol]
      exact .inr ⟨hseen.lastN, hseen.saved.congr rfl fun _ _ => rfl, hseen.le⟩
  · obtain ⟨hstart, hpos⟩ := not_or.mp hpos
    obtain ⟨hlen, hseq⟩ := not_or.mp hpos
    rcases h with h | h
    · rcases h.pos with h | h | h
      · exact absurd h hstart
      · exact absurd h hlen
      · exact absurd h hseq
    · refine .inr (Onward.seen ?_ h)
      rcases readChar_behind hended hstart hlen hseq c with heq | heq | ⟨-, -, -, honward⟩
      · rw [heq]
        exact onward_packetError k
      · rw [heq]
        exact onward_packetEnd k
      · exact honward

/-- Without an acknowledgement the quoting character stays and the transmission does not end. -/
theorem readChar_nack (c : UInt8) (h : ∀ r ∈ (readChar k c).2, r.isNack = true) :
    (readChar k c).1.hisQuote = k.hisQuote ∧
      ((readChar k c).1.ended = k.ended ∨ (readChar k c).1.ended = some .interrupted) := by
  by_cases hended : k.ended = none
  swap
  · rw [readChar, if_pos hended]
    exact ⟨rfl, .inl rfl⟩
  -- an error does not touch either, and a packet's end is no negative acknowledgement
  have hend : ¬ ∀ r ∈ (packetEnd k).2, r.isNack = true := by
    intro hall
    rw [packetEnd] at hall
    split at hall
    · exact absurd (hall _ rfl) Bool.false_ne_true
    · split at hall
      · exact absurd (hall _ rfl) Bool.false_ne_true
      · exact absurd (hall _ rfl) Bool.false_ne_true
  by_cases hstart : k.pos = .start
  · rw [readChar_start hended hstart]
    split
    · exact ⟨rfl, .inl rfl⟩
    · split
      · exact ⟨rfl, .inr rfl⟩
      · exact ⟨rfl, .inl rfl⟩
  by_cases hlen : k.pos = .len
  · cases hc : control c with
    | true =>
      rw [readChar_eq hended hstart (by rw [hlen]; exact Pos.noConfusion)
        (by rw [hlen]; exact Pos.noConfusion) hc]
      exact ⟨rfl, .inl rfl⟩
    | false =>
      rw [readChar_len hended hlen hc]
      exact ⟨rfl, .inl rfl⟩
  by_cases hseq : k.pos = .seq
  · cases hc : control c with
    | true =>
      rw [readChar_eq hended hstart (by rw [hseq]; exact Pos.noConfusion)
        (by rw [hseq]; exact Pos.noConfusion) hc]
      exact ⟨rfl, .inl rfl⟩
    | false =>
      rw [readChar_seq hended hseq hc, checkNumber]
      split
      · exact ⟨rfl, .inl rfl⟩
      · exact ⟨rfl, .inl rfl⟩
  rcases readChar_behind hended hstart hlen hseq c with heq | heq | ⟨-, hquote, hended', -⟩
  · rw [heq]
    exact ⟨rfl, .inl rfl⟩
  · rw [heq] at h
    exact absurd h hend
  · exact ⟨hquote, .inl hended'⟩

theorem readChar_base (k : Recv) (c : UInt8) :
    (readChar k c).1.binStartAddress = k.binStartAddress := by
  by_cases hended : k.ended = none
  swap
  · rw [readChar, if_pos hended]
  by_cases hstart : k.pos = .start
  · rw [readChar_start hended hstart]
    split
    · rfl
    · split
      · rfl
      · rfl
  have hbefore : k.pos = .len ∨ k.pos = .seq → control c = true → readChar k c = packetError k := by
    intro hpos hc
    refine readChar_eq hended hstart ?_ ?_ hc
    · rcases hpos with hpos | hpos
      · rw [hpos]
        exact Pos.noConfusion
      · rw [hpos]
        exact Pos.noConfusion
    · rcases hpos with hpos | hpos
      · rw [hpos]
        exact Pos.noConfusion
      · rw [hpos]
        exact Pos.noConfusion
  by_cases hlen : k.pos = .len
  · cases hc : control c with
    | true =>
      rw [hbefore (.inl hlen) hc]
      rfl
    | false => rw [readChar_len hended hlen hc]
  by_cases hseq : k.pos = .seq
  · cases hc : control c with
    | true =>
      rw [hbefore (.inr hseq) hc]
      rfl
    | false =>
      rw [readChar_seq hended hseq hc, checkNumber]
      split
      · rfl
      · rfl
  rcases readChar_behind hended hstart hlen hseq c with heq | heq | ⟨-, -, -, honward⟩
  · rw [heq]
    rfl
  · rw [heq]
    exact (onward_packetEnd k).start
  · exact honward.start

end Char

-- ============================================================================
-- Many characters
-- ============================================================================

section Feed

variable {t : Transfer} {i : Nat} {k : Recv} {cs : List UInt8}

theorem feed_none {k' : Recv} {c : UInt8} (h : readChar k c = (k', none)) :
    feed k (c :: cs) = feed k' cs := by
  rw [feed, h]
  rfl

theorem feed_ended (h : k.ended ≠ none) : feed k cs = (k, []) := by
  induction cs with
  | nil => rfl
  | cons c cs ih =>
    have hread : readChar k c = (k, none) := by rw [readChar, if_pos h]
    rw [feed, hread, ih]
    rfl

/-- While the number is received each time, the data or the checkpoint stands at the packet's
    beginning. -/
theorem feed_known : ∀ {k : Recv}, Fresh t i k ∨ Seen t i k →
    Guarded (fun k c => (readChar k c).1) (NumberReceived i) k cs →
      Fresh t i (feed k cs).1 ∨ Seen t i (feed k cs).1 := by
  induction cs with
  | nil => exact fun h _ => h
  | cons c cs ih => exact fun h hg => ih (readChar_known h hg.1) hg.2

theorem feed_nack : ∀ {k : Recv}, (feed k cs).2.all Reply.isNack = true →
    (feed k cs).1.hisQuote = k.hisQuote ∧
      ((feed k cs).1.ended = k.ended ∨ (feed k cs).1.ended = some .interrupted) := by
  induction cs with
  | nil => exact fun _ => ⟨rfl, .inl rfl⟩
  | cons c cs ih =>
    intro k h
    rw [feed, List.all_append, Bool.and_eq_true] at h
    obtain ⟨hquote, hended⟩ := readChar_nack c fun r hr =>
      List.all_eq_true.mp h.1 r (Option.mem_toList.mpr hr)
    obtain ⟨hquote', hended'⟩ := ih h.2
    refine ⟨hquote'.trans hquote, hended'.elim (fun heq => ?_) .inr⟩
    exact hended.imp heq.trans heq.trans

theorem feed_base (cs : List UInt8) : ∀ k : Recv,
    (feed k cs).1.binStartAddress = k.binStartAddress := by
  induction cs with
  | nil => exact fun _ => rfl
  | cons c cs ih => exact fun k => (ih _).trans (readChar_base k c)

/-- Between packets everything is skipped that neither starts one nor breaks off. -/
theorem feed_skip (hpos : k.pos = .start)
    (hcs : ∀ c ∈ cs, c ≠ startChar ∧ c ≠ etxChar) : feed k cs = (k, []) := by
  by_cases hended : k.ended = none
  swap
  · exact feed_ended hended
  induction cs with
  | nil => rfl
  | cons c cs ih =>
    obtain ⟨hc, hcs⟩ := List.forall_mem_cons.mp hcs
    rw [feed, readChar_start hended hpos, if_neg hc.1, if_neg hc.2, ih hcs]
    rfl

/-- In the middle of a packet a start character is an error. -/
theorem readChar_startChar (hended : k.ended = none) (hstart : k.pos ≠ .start) :
    readChar k startChar = packetError k := by
  have hc : control startChar = true := by decide
  by_cases hcheck : k.pos = .check
  · rw [readChar_check hended hcheck, if_pos (.inl hc)]
  by_cases heol : k.pos = .eol
  · have hne : startChar ≠ endChar := by decide
    rw [readChar_eol hended heol, if_pos hne]
  · exact readChar_eq hended hstart hcheck heol hc

end Feed

-- ============================================================================
-- The data field
-- ============================================================================

/-- The receiver has gone from `k₀` to `k` over the characters `xs` of a data field. -/
structure Body (k₀ k : Recv) (xs : List UInt8) : Prop where
  onward : Onward k₀ k
  sum : k.sum = k₀.sum + charSum xs
  n : k.n = k₀.n
  kState : k.kState = k₀.kState
  ended : k.ended = k₀.ended
  hisQuote : k.hisQuote = k₀.hisQuote
  data : k₀.kState = dataType →
    k.osDataAddr = k₀.osDataAddr + (decode k₀.hisQuote k₀.kDataEscape xs).1.length ∧
      k.kDataEscape = (decode k₀.hisQuote k₀.kDataEscape xs).2 ∧
      k.mem.read k₀.osDataAddr (decode k₀.hisQuote k₀.kDataEscape xs).1.length =
        (decode k₀.hisQuote k₀.kDataEscape xs).1
  other : k₀.kState ≠ dataType → k.osDataAddr = k₀.osDataAddr ∧ k.kDataEscape = k₀.kDataEscape
  params : k₀.kState = sendType → k₀.sendPtr = 0 →
    k.sendPtr = min xs.length 19 ∧ ∀ j < k.sendPtr, k.sendParms j = xs.getD j 0

section Field

variable {k₀ k : Recv} {xs : List UInt8} {c : UInt8}

theorem Onward.trans {k₁ k₂ k₃ : Recv} (h₁ : Onward k₁ k₂) (h₂ : Onward k₂ k₃)
    (hle : k₁.osDataAddr ≤ k₂.osDataAddr) : Onward k₁ k₃ :=
  ⟨h₂.lastN.trans h₁.lastN, h₂.start.trans h₁.start, h₂.addrSaved.trans h₁.addrSaved,
    h₂.escapeSaved.trans h₁.escapeSaved, fun h => h₂.le (h₁.le h),
    fun x hx => (h₂.below x (Nat.lt_of_lt_of_le hx hle)).trans (h₁.below x hx)⟩

theorem charSum_append (xs ys : List UInt8) : charSum (xs ++ ys) = charSum xs + charSum ys := by
  rw [charSum, List.map_append, List.sum_append]
  rfl

/-- One more character of a data packet. -/
theorem Body.dataChar {addr : Nat} {escape : Bool} (hstate : k.kState = dataType)
    (h : k.osDataAddr = addr + (decode k.hisQuote escape xs).1.length ∧
      k.kDataEscape = (decode k.hisQuote escape xs).2 ∧
      k.mem.read addr (decode k.hisQuote escape xs).1.length = (decode k.hisQuote escape xs).1) :
    (bodyChar k c).osDataAddr = addr + (decode k.hisQuote escape (xs ++ [c])).1.length ∧
      (bodyChar k c).kDataEscape = (decode k.hisQuote escape (xs ++ [c])).2 ∧
      (bodyChar k c).mem.read addr (decode k.hisQuote escape (xs ++ [c])).1.length =
        (decode k.hisQuote escape (xs ++ [c])).1 := by
  obtain ⟨haddr, hesc, htext⟩ := h
  have hwrite : ∀ d : UInt8, (binDataChar k d).mem.read addr
      ((decode k.hisQuote escape xs).1 ++ [d]).length = (decode k.hisQuote escape xs).1 ++ [d] := by
    intro d
    rw [binDataChar, haddr, List.length_append]
    exact Mem.read_write_append _ htext
  have hlen : ∀ d : UInt8, (binDataChar k d).osDataAddr =
      addr + ((decode k.hisQuote escape xs).1 ++ [d]).length := by
    intro d
    rw [binDataChar, haddr, List.length_append, List.length_singleton, Nat.add_assoc]
  rw [bodyChar, if_pos hstate, kDataChar, decode_append, hesc]
  cases hlast : (decode k.hisQuote escape xs).2 with
  | true => exact ⟨hlen _, rfl, hwrite _⟩
  | false =>
    by_cases hc : c = k.hisQuote
    · have hone : decode k.hisQuote false [c] = ([], true) := if_pos hc
      rw [if_neg Bool.false_ne_true, if_pos hc, hone, List.append_nil]
      exact ⟨haddr, rfl, htext⟩
    · have hone : decode k.hisQuote false [c] = ([c], false) := if_neg hc
      rw [if_neg Bool.false_ne_true, if_neg hc, hone]
      exact ⟨hlen _, hesc.trans hlast, hwrite _⟩

/-- One more character of a parameter packet. -/
theorem Body.paramChar (hstate : k.kState = sendType)
    (h : k.sendPtr = min xs.length 19 ∧ ∀ j < k.sendPtr, k.sendParms j = xs.getD j 0) :
    (bodyChar k c).sendPtr = min (xs ++ [c]).length 19 ∧
      ∀ j < (bodyChar k c).sendPtr, (bodyChar k c).sendParms j = (xs ++ [c]).getD j 0 := by
  obtain ⟨hptr, hparms⟩ := h
  have hdata : k.kState ≠ dataType := by
    rw [hstate]
    decide
  have hptr' : (if 20 ≤ k.sendPtr + 1 then k.sendPtr else k.sendPtr + 1) =
      min (xs ++ [c]).length 19 := by
    rw [List.length_append, List.length_singleton]
    split
    · omega
    · omega
  rw [bodyChar, if_neg hdata, if_pos hstate]
  refine ⟨hptr', fun j hj => ?_⟩
  dsimp only at hj ⊢
  rw [hptr', List.length_append, List.length_singleton] at hj
  rcases Nat.lt_or_ge j k.sendPtr with hlt | hge
  · rw [Mem.write_outside _ (.inl hlt), hparms j hlt, List.getD_append _ _ _ _ (by omega)]
  · obtain rfl : j = k.sendPtr := by omega
    have hlen : k.sendPtr = xs.length := by omega
    have hwrite : k.sendParms.write k.sendPtr [c] (k.sendPtr + 0) = [c].getD 0 0 :=
      Mem.write_inside _ Nat.zero_lt_one
    rw [Nat.add_zero] at hwrite
    rw [hwrite, hlen, List.getD_append_right _ _ _ _ (Nat.le_refl _), Nat.sub_self]

theorem Body.next (h : Body k₀ k xs) (hle : k₀.osDataAddr ≤ k.osDataAddr) (hended : k.ended = none)
    (hpos : k.pos = .body) (hc : control c = false) :
    Body k₀ (readChar k c).1 (xs ++ [c]) ∧ k₀.osDataAddr ≤ (readChar k c).1.osDataAddr := by
  obtain ⟨hquote, hended', hsum, hn, hstate⟩ := bodyChar_keeps { k with sum := k.sum + c.toNat } c
  have hbody := onward_bodyChar { k with sum := k.sum + c.toNat } c
  have honward := (h.onward.trans ⟨hbody.lastN, hbody.start, hbody.addrSaved, hbody.escapeSaved,
    hbody.le, hbody.below⟩ hle)
  rw [readChar_body hended hpos hc]
  refine ⟨⟨⟨honward.lastN, honward.start, honward.addrSaved, honward.escapeSaved, honward.le,
    honward.below⟩, ?_, hn.trans h.n, hstate.trans h.kState, hended'.trans h.ended,
    hquote.trans h.hisQuote, fun hdata => ?_, fun hother => ?_, fun hsend hptr => ?_⟩,
    hle.trans (le_bodyChar { k with sum := k.sum + c.toNat } c)⟩
  · rw [charSum_append, ← Nat.add_assoc, ← h.sum]
    exact hsum
  · have hfield := h.data hdata
    rw [← h.hisQuote] at hfield ⊢
    exact Body.dataChar (k := { k with sum := k.sum + c.toNat }) (h.kState.trans hdata) hfield
  · have hkeep := h.other hother
    have hsame := bodyChar_other (k := { k with sum := k.sum + c.toNat })
      (fun heq => hother (h.kState.symm.trans heq)) c
    exact ⟨hsame.1.trans hkeep.1, hsame.2.trans hkeep.2⟩
  · exact Body.paramChar (k := { k with sum := k.sum + c.toNat }) (h.kState.trans hsend)
      (h.params hsend hptr)

/-- **The data field.**  By induction on what is left of it. -/
theorem feed_body {k₀ : Recv} (hended : k₀.ended = none) :
    ∀ (cs xs : List UInt8) (k : Recv), Body k₀ k xs → k₀.osDataAddr ≤ k.osDataAddr →
      k.length = cs.length + 1 → k.pos = bodyPos k.length → (∀ c ∈ cs, control c = false) →
        ∃ k', (∀ rest, feed k (cs ++ rest) = feed k' rest) ∧ Body k₀ k' (xs ++ cs) ∧
          k₀.osDataAddr ≤ k'.osDataAddr ∧ k'.pos = .check := by
  intro cs
  induction cs with
  | nil =>
    intro xs k h hle hlength hpos _
    refine ⟨k, fun _ => rfl, by rw [List.append_nil]; exact h, hle, ?_⟩
    rw [hpos, hlength]
    rfl
  | cons c cs ih =>
    intro xs k h hle hlength hpos hcs
    obtain ⟨hc, hcs⟩ := List.forall_mem_cons.mp hcs
    rw [List.length_cons] at hlength
    have hbody : k.pos = .body := by
      rw [hpos, bodyPos, if_pos (by omega)]
    have hended' : k.ended = none := h.ended.trans hended
    obtain ⟨hnext, hle'⟩ := h.next hle hended' hbody hc
    have hread := readChar_body hended' hbody hc
    have hlength' : (readChar k c).1.length = cs.length + 1 := by
      rw [hread]
      dsimp only
      omega
    have hpos' : (readChar k c).1.pos = bodyPos (readChar k c).1.length := by
      rw [hread]
    obtain ⟨k', hfeed, hrest⟩ := ih (xs ++ [c]) (readChar k c).1 hnext hle' hlength' hpos' hcs
    rw [List.append_assoc] at hrest
    refine ⟨k', fun rest => ?_, hrest⟩
    have hnone : (readChar k c).2 = none := by rw [hread]
    rw [List.cons_append, feed, hfeed rest, hnone]
    rfl

end Field

-- ============================================================================
-- A packet
-- ============================================================================

/-- The receiver has gone from `k` to `k₁` over the number of packet `i`. -/
structure Header (t : Transfer) (i : Nat) (k k₁ : Recv) : Prop where
  seen : Seen t i k₁
  stored : Stored t i k₁.osDataAddr k₁.kDataEscape k₁
  n : k₁.n = number i
  ended : k₁.ended = none
  hisQuote : k₁.hisQuote = k.hisQuote
  sendPtr : k₁.sendPtr = 0
  start : k₁.binStartAddress = k.binStartAddress

section Packet

variable {t : Transfer} {i : Nat} {k k₁ : Recv} {p : Packet}

/-- Behind the number the rest of a head only counts. -/
theorem Header.congr (h : Header t i k k₁) (pos : Pos) (sum : Nat) (length : Int) (lenHi : Nat)
    (kState : UInt8) :
    Header t i k { k₁ with
      pos := pos, sum := sum, length := length, lenHi := lenHi, kState := kState } :=
  ⟨⟨h.seen.lastN, h.seen.saved.congr rfl fun _ _ => rfl, h.seen.le⟩,
    h.stored.congr rfl fun _ _ => rfl, h.n, h.ended, h.hisQuote, h.sendPtr, h.start⟩

/-- The start of a packet, its length character and its number. -/
theorem feed_number (hpos : k.pos = .start) (hended : k.ended = none)
    (h : Fresh t i k ∨ Seen t i k) {len : Nat} (hlen : len < 224) :
    ∃ k₁, (∀ rest, feed k (startChar :: tochar len :: tochar (number i) :: rest) = feed k₁ rest) ∧
      Header t i k k₁ ∧ k₁.pos = .typ ∧ k₁.length = (len : Int) - 1 ∧
      k₁.sum = charSum [tochar len, tochar (number i)] := by
  have hlt := number_lt i
  have hnum : untochar (tochar (number i)) = number i := untochar_tochar (by omega)
  have hstart : readChar k startChar = ({ k with pos := .len, sum := 0, sendPtr := 0 }, none) := by
    rw [readChar_start hended hpos, if_pos rfl]
  have hread : readChar { k with pos := .len, sum := 0, sendPtr := 0 } (tochar len) =
      ({ k with
        pos := .seq, sum := 0 + (tochar len).toNat, sendPtr := 0, length := untochar (tochar len) },
        none) :=
    readChar_len hended rfl (control_tochar hlen)
  obtain ⟨k₀, hk₀⟩ : ∃ k₀ : Recv, k₀ = { k with
    pos := .seq, sum := 0 + (tochar len).toNat, sendPtr := 0,
    length := untochar (tochar len) } := ⟨_, rfl⟩
  have hended₀ : k₀.ended = none := by
    rw [hk₀]
    exact hended
  have hpos₀ : k₀.pos = .seq := by rw [hk₀]
  obtain ⟨k₁, hk₁⟩ : ∃ k₁ : Recv, k₁ = { k₀ with
    sum := k₀.sum + (tochar (number i)).toNat, n := untochar (tochar (number i)),
    length := k₀.length - 1 } := ⟨_, rfl⟩
  have hknown : Fresh t i k₁ ∨ Seen t i k₁ := by
    rw [hk₁, hk₀]
    exact h.imp (fun h => ⟨h.lastN, .inr (.inr rfl), h.stored.congr rfl fun _ _ => rfl⟩)
      (fun h => ⟨h.lastN, h.saved.congr rfl fun _ _ => rfl, h.le⟩)
  have hn : k₁.n = number i := by
    rw [hk₁]
    exact hnum
  obtain ⟨hseen, hstored⟩ := checkNumber_seen hknown hn
  have hcheck : (checkNumber k₁).n = k₁.n ∧ (checkNumber k₁).ended = k₁.ended ∧
      (checkNumber k₁).hisQuote = k₁.hisQuote ∧ (checkNumber k₁).sendPtr = k₁.sendPtr ∧
      (checkNumber k₁).binStartAddress = k₁.binStartAddress ∧
      (checkNumber k₁).length = k₁.length ∧ (checkNumber k₁).sum = k₁.sum := by
    rw [checkNumber]
    split
    · exact ⟨rfl, rfl, rfl, rfl, rfl, rfl, rfl⟩
    · exact ⟨rfl, rfl, rfl, rfl, rfl, rfl, rfl⟩
  obtain ⟨hn', hended', hquote', hptr', hbin', hlength', hsum'⟩ := hcheck
  have hseq : readChar k₀ (tochar (number i)) = ({ checkNumber k₁ with pos := .typ }, none) := by
    rw [readChar_seq hended₀ hpos₀ (control_tochar (by omega)), hk₁]
  refine ⟨{ checkNumber k₁ with pos := .typ }, fun rest => ?_, ⟨⟨hseen.lastN,
    hseen.saved.congr rfl fun _ _ => rfl, hseen.le⟩, hstored.congr rfl fun _ _ => rfl,
    hn'.trans hn, ?_, ?_, ?_, ?_⟩, rfl, ?_, ?_⟩
  · rw [feed_none hstart, feed_none hread, ← hk₀, feed_none hseq]
  · exact hended'.trans (by rw [hk₁]; exact hended₀)
  · exact hquote'.trans (by rw [hk₁, hk₀])
  · exact hptr'.trans (by rw [hk₁, hk₀])
  · exact hbin'.trans (by rw [hk₁, hk₀])
  · refine hlength'.trans ?_
    rw [hk₁, hk₀, untochar_tochar hlen]
  · refine hsum'.trans ?_
    rw [hk₁, hk₀, charSum]
    dsimp only [List.map, List.sum_cons, List.sum_nil]
    rw [Nat.zero_add]
    rfl

theorem charSum_concat (cs : List UInt8) (c : UInt8) :
    charSum (cs ++ [c]) = charSum cs + c.toNat := by
  rw [charSum_append]
  rfl

/-- The head of a packet in the normal form. -/
theorem feed_head_normal (hpos : k.pos = .start) (hended : k.ended = none)
    (h : Fresh t i k ∨ Seen t i k) (hlong : p.long = false) :
    ∃ k₁, (∀ rest, feed k (startChar :: (p.head (number i) ++ rest)) = feed k₁ rest) ∧
      Header t i k k₁ ∧ k₁.length = (p.data.length : Int) + 1 ∧ k₁.pos = bodyPos k₁.length ∧
      k₁.sum = charSum (p.head (number i)) ∧ k₁.kState = p.typ := by
  have hfits := p.fits
  rw [hlong, if_neg Bool.false_ne_true] at hfits
  have hhead : p.head (number i) =
      [tochar (p.data.length + 3), tochar (number i)] ++ [p.typ] := by
    rw [Packet.head, hlong]
    rfl
  obtain ⟨k₁, hfeed, hheader, hpos₁, hlength, hsum⟩ :=
    feed_number hpos hended h (show p.data.length + 3 < 224 by omega)
  have hread := readChar_typ hheader.ended hpos₁ p.typ_ok
  have hnot : k₁.length - 1 ≠ -2 := by omega
  rw [if_neg hnot] at hread
  refine ⟨{ k₁ with
    sum := k₁.sum + p.typ.toNat, kState := p.typ, length := k₁.length - 1,
    pos := bodyPos (k₁.length - 1) }, fun rest => ?_, hheader.congr _ _ _ _ _, ?_, rfl, ?_, rfl⟩
  · rw [hhead]
    exact (hfeed (p.typ :: rest)).trans (feed_none hread)
  · dsimp only
    omega
  · rw [hhead, charSum_concat, ← hsum]

/-- The head of a packet in the long form. -/
theorem feed_head_long (hpos : k.pos = .start) (hended : k.ended = none)
    (h : Fresh t i k ∨ Seen t i k) (hlong : p.long = true) :
    ∃ k₁, (∀ rest, feed k (startChar :: (p.head (number i) ++ rest)) = feed k₁ rest) ∧
      Header t i k k₁ ∧ k₁.length = (p.data.length : Int) + 1 ∧ k₁.pos = bodyPos k₁.length ∧
      k₁.sum = charSum (p.head (number i)) ∧ k₁.kState = p.typ := by
  have hfits := p.fits
  rw [hlong, if_pos rfl] at hfits
  have hhi : (p.data.length + 1) / 95 < 224 := by omega
  have hlo : (p.data.length + 1) % 95 < 224 := by omega
  obtain ⟨hi, hhiEq⟩ : ∃ hi, hi = tochar ((p.data.length + 1) / 95) := ⟨_, rfl⟩
  obtain ⟨lo, hloEq⟩ : ∃ lo, lo = tochar ((p.data.length + 1) % 95) := ⟨_, rfl⟩
  obtain ⟨check, hcheck⟩ : ∃ check, check =
      blockCheck (charSum ([tochar 0, tochar (number i)] ++ [p.typ] ++ [hi] ++ [lo])) := ⟨_, rfl⟩
  have hhead : p.head (number i) =
      [tochar 0, tochar (number i)] ++ [p.typ] ++ [hi] ++ [lo] ++ [check] := by
    rw [Packet.head, hlong, hcheck, hhiEq, hloEq]
    rfl
  obtain ⟨k₁, hfeed, hheader, hpos₁, hlength, hsum⟩ :=
    feed_number hpos hended h (show 0 < 224 by decide)
  have htyp := readChar_typ hheader.ended hpos₁ p.typ_ok
  have hlen : k₁.length - 1 = -2 := by omega
  rw [if_pos hlen, hlen] at htyp
  obtain ⟨k₂, hk₂⟩ : ∃ k₂ : Recv, k₂ = { k₁ with
    sum := k₁.sum + p.typ.toNat, kState := p.typ, length := -2, pos := .lenHi } := ⟨_, rfl⟩
  have hheader₂ : Header t i k k₂ := by
    rw [hk₂]
    exact hheader.congr _ _ _ _ _
  have hlenHi := readChar_lenHi hheader₂.ended (by rw [hk₂])
    (show control hi = false by rw [hhiEq]; exact control_tochar hhi)
  obtain ⟨k₃, hk₃⟩ : ∃ k₃ : Recv, k₃ = { k₂ with
    sum := k₂.sum + hi.toNat, pos := .lenLo, lenHi := untochar hi } := ⟨_, rfl⟩
  have hheader₃ : Header t i k k₃ := by
    rw [hk₃]
    exact hheader₂.congr _ _ _ _ _
  have hlenLo := readChar_lenLo hheader₃.ended (by rw [hk₃])
    (show control lo = false by rw [hloEq]; exact control_tochar hlo)
  obtain ⟨k₄, hk₄⟩ : ∃ k₄ : Recv, k₄ = { k₃ with
    sum := k₃.sum + lo.toNat, pos := .headCheck,
    length := k₃.lenHi * 95 + untochar lo } := ⟨_, rfl⟩
  have hheader₄ : Header t i k k₄ := by
    rw [hk₄]
    exact hheader₃.congr _ _ _ _ _
  have hsum₄ : k₄.sum = charSum ([tochar 0, tochar (number i)] ++ [p.typ] ++ [hi] ++ [lo]) := by
    rw [charSum_concat, charSum_concat, charSum_concat, ← hsum, hk₄, hk₃, hk₂]
  have hlength₄ : k₄.length = (p.data.length : Int) + 1 := by
    rw [hk₄, hk₃, hhiEq, hloEq, untochar_tochar hhi, untochar_tochar hlo]
    dsimp only
    omega
  have hheadCheck := readChar_headCheck hheader₄.ended (by rw [hk₄])
    (show control check = false by rw [hcheck]; exact control_blockCheck _)
  rw [hsum₄, ← hcheck, if_neg (not_not.mpr rfl)] at hheadCheck
  refine ⟨{ k₄ with
    sum := charSum ([tochar 0, tochar (number i)] ++ [p.typ] ++ [hi] ++ [lo]) + check.toNat,
    pos := bodyPos k₄.length }, fun rest => ?_, hheader₄.congr _ _ _ _ _, hlength₄, rfl, ?_, ?_⟩
  · rw [hhead]
    rw [← hk₂] at htyp
    rw [← hk₃] at hlenHi
    rw [← hk₄] at hlenLo
    calc feed k (startChar :: tochar 0 :: tochar (number i) :: p.typ :: hi :: lo :: check :: rest)
        = feed k₁ (p.typ :: hi :: lo :: check :: rest) := hfeed _
      _ = feed k₂ (hi :: lo :: check :: rest) := feed_none htyp
      _ = feed k₃ (lo :: check :: rest) := feed_none hlenHi
      _ = feed k₄ (check :: rest) := feed_none hlenLo
      _ = _ := feed_none hheadCheck
  · rw [hhead, charSum_concat _ check]
  · dsimp only
    rw [hk₄, hk₃, hk₂]

theorem Transfer.dataBefore_succ (hp : t.packets[i]? = some p) :
    t.dataBefore (i + 1) = t.dataBefore i ++ if p.typ = dataType then p.data else [] := by
  rw [Transfer.dataBefore, List.take_add_one, hp, List.filter_append, List.flatMap_append]
  congr 1
  rw [Option.toList_some, List.filter_singleton]
  split
  · rename_i hdata
    rw [decide_eq_true hdata, cond_true, List.flatMap_singleton]
  · rename_i hdata
    rw [decide_eq_false hdata, cond_false]
    rfl

/-- A data packet appends what its characters stand for. -/
theorem Transfer.bytes_data (hp : t.packets[i]? = some p) (hdata : p.typ = dataType) :
    t.bytes (i + 1) =
      ((t.bytes i).1 ++ (decode t.quote (t.bytes i).2 p.data).1,
        (decode t.quote (t.bytes i).2 p.data).2) := by
  rw [Transfer.bytes, t.dataBefore_succ hp, if_pos hdata, decode_append]
  rfl

theorem Transfer.bytes_other (hp : t.packets[i]? = some p) (hdata : p.typ ≠ dataType) :
    t.bytes (i + 1) = t.bytes i := by
  rw [Transfer.bytes, t.dataBefore_succ hp, if_neg hdata, List.append_nil]
  rfl

theorem Body.refl (k : Recv) : Body k k [] :=
  ⟨⟨rfl, rfl, rfl, rfl, id, fun _ _ => rfl⟩, rfl, rfl, rfl, rfl, rfl,
    fun _ => by cases k.kDataEscape <;> exact ⟨rfl, rfl, rfl⟩, fun _ => ⟨rfl, rfl⟩,
    fun _ hptr => ⟨hptr, fun j hj => absurd hj (by rw [hptr]; exact Nat.not_lt_zero j)⟩⟩

/-- Behind the data field of packet `i` its data is stored. -/
theorem Body.stored {k₂ : Recv} (hp : t.packets[i]? = some p) (hquote : p.typ = dataType → k₁.hisQuote = t.quote)
    (hstate : k₁.kState = p.typ) (h : Body k₁ k₂ p.data)
    (hstored : Stored t i k₁.osDataAddr k₁.kDataEscape k₁) :
    Stored t (i + 1) k₂.osDataAddr k₂.kDataEscape k₂ := by
  have hbelow : k₂.mem.read k₂.binStartAddress (t.bytes i).1.length = (t.bytes i).1 :=
    (hstored.congr h.onward.start h.onward.below).text
  by_cases hdata : p.typ = dataType
  · obtain ⟨haddr, hesc, htext⟩ := h.data (hstate.trans hdata)
    rw [hquote hdata, hstored.escape] at haddr hesc htext
    have hbytes := Transfer.bytes_data hp hdata
    rw [hstored.addr, ← h.onward.start] at htext haddr
    refine ⟨?_, by rw [hbytes]; exact hesc, ?_⟩
    · rw [hbytes, haddr, List.length_append, Nat.add_assoc]
    · rw [hbytes, List.length_append, Mem.read_add, hbelow, htext]
  · obtain ⟨haddr, hesc⟩ := h.other fun hd => hdata (hstate.symm.trans hd)
    have hbytes := Transfer.bytes_other hp hdata
    refine ⟨?_, by rw [hbytes, hesc]; exact hstored.escape, by rw [hbytes]; exact hbelow⟩
    rw [hbytes, haddr, h.onward.start]
    exact hstored.addr

/-- What a packet's end does. -/
theorem packetEnd_spec (hseen : Seen t i k)
    (hstored : Stored t (i + 1) k.osDataAddr k.kDataEscape k) (hstate : k.kState = p.typ)
    (hended : k.ended = none)
    (hparams : p.typ = sendType → k.sendPtr = min p.data.length 19 ∧
      ∀ j < k.sendPtr, k.sendParms j = p.data.getD j 0) :
    ∃ reply, (packetEnd k).2 = some reply ∧ reply.acks k.n = true ∧ (packetEnd k).1.pos = .start ∧
      Seen t i (packetEnd k).1 ∧
      Stored t (i + 1) (packetEnd k).1.osDataAddr (packetEnd k).1.kDataEscape (packetEnd k).1 ∧
      (packetEnd k).1.binStartAddress = k.binStartAddress ∧
      (packetEnd k).1.hisQuote =
        (if p.typ = sendType then p.data.getD 5 kEscape else k.hisQuote) ∧
      (packetEnd k).1.ended = (if p.typ = breakType
        then some (.onBreak ((packetEnd k).1.osDataAddr - (packetEnd k).1.binStartAddress))
        else none) := by
  have hseen' := (onward_packetEnd k).seen hseen
  have hack : (Reply.ack k.n).acks k.n = true := decide_eq_true rfl
  rw [packetEnd, hstate] at hseen' ⊢
  by_cases hsend : p.typ = sendType
  · obtain ⟨hptr, hparms⟩ := hparams hsend
    have hbreak : p.typ ≠ breakType := by
      rw [hsend]
      decide
    rw [if_pos hsend] at hseen' ⊢
    rw [if_pos hsend, if_neg hbreak]
    refine ⟨_, rfl, hack, rfl, hseen', hstored.congr rfl fun _ _ => rfl, rfl, ?_, hended⟩
    -- the sixth parameter, if there are six
    rw [handleSendPacket]
    dsimp only
    rcases Nat.lt_or_ge p.data.length 6 with hshort | hlong
    · rw [List.getD_eq_default _ _ (by omega), if_neg]
      split
      · omega
      · omega
    · rw [if_pos, hparms 5 (by omega), List.getD_eq_getElem _ _ (by omega),
        List.getD_eq_getElem _ _ (by omega)]
      split
      · omega
      · omega
  · rw [if_neg hsend] at hseen' ⊢
    rw [if_neg hsend]
    by_cases hbreak : p.typ = breakType
    · rw [if_pos hbreak] at hseen' ⊢
      rw [if_pos hbreak]
      exact ⟨_, rfl, hack, rfl, hseen', hstored.congr rfl fun _ _ => rfl, rfl, rfl, rfl⟩
    · rw [if_neg hbreak] at hseen' ⊢
      rw [if_neg hbreak]
      exact ⟨_, rfl, hack, rfl, hseen', hstored.congr rfl fun _ _ => rfl, rfl, rfl, hended⟩

/-- **A packet.**  Read between two packets, its data is stored and it is acknowledged. -/
theorem feed_wire (hp : t.packets[i]? = some p) (hpos : k.pos = .start) (hended : k.ended = none)
    (h : Fresh t i k ∨ Seen t i k) (hquote : p.typ = dataType → k.hisQuote = t.quote) :
    ∃ k' reply, feed k (p.wire (number i)) = (k', [reply]) ∧ reply.acks (number i) = true ∧
      k'.pos = .start ∧ Seen t i k' ∧ Stored t (i + 1) k'.osDataAddr k'.kDataEscape k' ∧
      k'.binStartAddress = k.binStartAddress ∧
      k'.hisQuote = (if p.typ = sendType then p.data.getD 5 kEscape else k.hisQuote) ∧
      k'.ended = (if p.typ = breakType
        then some (.onBreak (k'.osDataAddr - k'.binStartAddress)) else none) := by
  have hhead : ∃ k₁, (∀ rest, feed k (startChar :: (p.head (number i) ++ rest)) = feed k₁ rest) ∧
      Header t i k k₁ ∧ k₁.length = (p.data.length : Int) + 1 ∧ k₁.pos = bodyPos k₁.length ∧
      k₁.sum = charSum (p.head (number i)) ∧ k₁.kState = p.typ := by
    cases hlong : p.long with
    | false => exact feed_head_normal hpos hended h hlong
    | true => exact feed_head_long hpos hended h hlong
  obtain ⟨k₁, hfeed₁, hheader, hlength, hpos₁, hsum, hstate⟩ := hhead
  obtain ⟨k₂, hfeed₂, hbody, -, hpos₂⟩ := feed_body hheader.ended p.data [] k₁ (Body.refl k₁)
    (Nat.le_refl _) hlength hpos₁ p.data_ok
  rw [List.nil_append] at hbody
  have hended₂ : k₂.ended = none := hbody.ended.trans hheader.ended
  have hcheck : readChar k₂ (blockCheck (charSum (p.head (number i) ++ p.data))) =
      ({ k₂ with pos := .eol }, none) := by
    rw [readChar_check hended₂ hpos₂, hbody.sum, hsum, ← charSum_append, if_neg]
    rintro (hc | hc)
    · rw [control_blockCheck] at hc
      exact Bool.false_ne_true hc
    · exact hc rfl
  obtain ⟨k₃, hk₃⟩ : ∃ k₃ : Recv, k₃ = { k₂ with pos := .eol } := ⟨_, rfl⟩
  rw [← hk₃] at hcheck
  have heol : readChar k₃ endChar = packetEnd k₃ := by
    rw [readChar_eol (by rw [hk₃]; exact hended₂) (by rw [hk₃]), if_neg (not_not.mpr rfl)]
  have hwire : feed k (p.wire (number i)) = ((packetEnd k₃).1, (packetEnd k₃).2.toList) := by
    calc feed k (p.wire (number i))
        = feed k₁ (p.data ++ [blockCheck (charSum (p.head (number i) ++ p.data)), endChar]) := hfeed₁ _
      _ = feed k₂ [blockCheck (charSum (p.head (number i) ++ p.data)), endChar] := hfeed₂ _
      _ = feed k₃ [endChar] := feed_none hcheck
      _ = _ := by
        rw [feed, heol, feed]
        dsimp only
        rw [List.append_nil]
  have hseen : Seen t i k₃ := by
    have hseen₂ := hbody.onward.seen hheader.seen
    rw [hk₃]
    exact ⟨hseen₂.lastN, hseen₂.saved.congr rfl fun _ _ => rfl, hseen₂.le⟩
  have hstored : Stored t (i + 1) k₃.osDataAddr k₃.kDataEscape k₃ := by
    have hstored₂ := hbody.stored hp (fun hdata => hheader.hisQuote.trans (hquote hdata)) hstate
      hheader.stored
    rw [hk₃]
    exact hstored₂.congr rfl fun _ _ => rfl
  have hstate₃ : k₃.kState = p.typ := by
    rw [hk₃]
    exact hbody.kState.trans hstate
  have hn₃ : k₃.n = number i := by
    rw [hk₃]
    exact hbody.n.trans hheader.n
  have hstart₃ : k₃.binStartAddress = k.binStartAddress := by
    rw [hk₃]
    exact hbody.onward.start.trans hheader.start
  have hended₃ : k₃.ended = none := by
    rw [hk₃]
    exact hended₂
  have hquote₃ : k₃.hisQuote = k.hisQuote := by
    rw [hk₃]
    exact hbody.hisQuote.trans hheader.hisQuote
  have hparams : p.typ = sendType → k₃.sendPtr = min p.data.length 19 ∧
      ∀ j < k₃.sendPtr, k₃.sendParms j = p.data.getD j 0 := by
    intro hsend
    rw [hk₃]
    exact hbody.params (hstate.trans hsend) hheader.sendPtr
  have hend := packetEnd_spec hseen hstored hstate₃ hended₃ hparams
  rw [hn₃] at hend
  obtain ⟨reply, hreply, hacks, hpos', hseen', hstored', hstart', hquote', hended'⟩ := hend
  refine ⟨(packetEnd k₃).1, reply, ?_, hacks, hpos', hseen', hstored', hstart'.trans hstart₃, ?_, hended'⟩
  · rw [hwire, hreply]
    rfl
  · rw [hquote', hquote₃]

end Packet

-- ============================================================================
-- Runs
-- ============================================================================

namespace Transfer

variable {t : Transfer} {i : Nat} {p : Packet}

theorem typ_zero (hp : t.packets[0]? = some p) : p = t.sendInit := (Option.some.inj hp).symm

/-- Behind the parameter packet there is none of its type, and the break packet is the last. -/
theorem typ_succ (hp : t.packets[i + 1]? = some p) :
    p.typ ≠ sendType ∧ (p.typ = breakType → i + 2 = t.packets.length) := by
  have hcut : t.packets[i + 1]? = (t.fileHeader :: (t.cut ++ [t.endOfFile, t.endOfTransmission]))[i]? :=
    rfl
  have hlen : t.packets.length = t.cut.length + 4 := by
    rw [packets, List.length_cons, List.length_cons, List.length_append]
    rfl
  rw [hcut] at hp
  cases i with
  | zero =>
    have htyp : p.typ = 70 := by
      rw [← Option.some.inj hp]
      exact t.fileHeader_typ
    rw [htyp]
    exact ⟨by decide, fun h => absurd h (by decide)⟩
  | succ i =>
    have hp' : (t.cut ++ [t.endOfFile, t.endOfTransmission])[i]? = some p := hp
    rcases Nat.lt_or_ge i t.cut.length with hlt | hge
    · rw [List.getElem?_append_left hlt] at hp'
      rw [t.cut_typ p (List.mem_of_getElem? hp')]
      exact ⟨by decide, fun h => absurd h (by decide)⟩
    · rw [List.getElem?_append_right hge] at hp'
      rcases hi : i - t.cut.length with _ | _ | j
      · rw [hi] at hp'
        have htyp : p.typ = 90 := by
          rw [← Option.some.inj hp']
          exact t.endOfFile_typ
        rw [htyp]
        exact ⟨by decide, fun h => absurd h (by decide)⟩
      · rw [hi] at hp'
        have htyp : p.typ = breakType := by
          rw [← Option.some.inj hp']
          exact t.endOfTransmission_typ
        rw [htyp]
        exact ⟨by decide, fun _ => by omega⟩
      · rw [hi] at hp'
        exact absurd hp' (Option.some_ne_none _).symm

/-- All packets together carry the file. -/
theorem bytes_all : t.bytes t.packets.length = (t.file, false) := by
  have hdata : t.dataBefore t.packets.length = t.file.flatMap (encodeByte t.quote) := by
    have hone : ∀ p : Packet, p.typ ≠ dataType →
        [p].filter (fun p => p.typ = dataType) = [] := by
      intro p hp
      rw [List.filter_singleton, decide_eq_false hp]
      rfl
    have hcut : t.cut.filter (fun p => p.typ = dataType) = t.cut :=
      List.filter_eq_self.mpr fun p hp => decide_eq_true (t.cut_typ p hp)
    have hsplit : t.packets = [t.sendInit] ++ [t.fileHeader] ++ t.cut ++ [t.endOfFile] ++
        [t.endOfTransmission] := by
      rw [packets, List.append_assoc (_ ++ t.cut)]
      rfl
    rw [dataBefore, List.take_length, hsplit, List.filter_append, List.filter_append,
      List.filter_append, List.filter_append, hone _ (by rw [t.sendInit_typ]; decide),
      hone _ (by rw [t.fileHeader_typ]; decide), hone _ (by rw [t.endOfFile_typ]; decide),
      hone _ (by rw [t.endOfTransmission_typ]; decide), hcut, List.append_nil, List.append_nil]
    exact t.cut_data
  rw [bytes, hdata]
  exact decode_encode t.quoteChar t.file

end Transfer

/-- The receiver while the current packet is packet `i`. -/
structure Active (t : Transfer) (i : Nat) (k : Recv) : Prop where
  known : Fresh t i k ∨ Seen t i k
  not_len : k.pos ≠ .len
  not_seq : k.pos ≠ .seq
  hisQuote : 0 < i → k.hisQuote = t.quote

/-- The last delivery of packet `i` was acknowledged: its data is stored. -/
structure Taken (t : Transfer) (i : Nat) (k : Recv) : Prop where
  pos : k.pos = .start
  lastN : k.lastN = number i
  stored : Stored t (i + 1) k.osDataAddr k.kDataEscape k
  hisQuote : k.hisQuote = t.quote

/-- The invariant of the line. -/
structure Inv (t : Transfer) (addr : Nat) (l : Link) : Prop where
  start : l.recv.binStartAddress = addr
  active : l.recv.ended = none → Active t l.index l.recv
  taken : l.recv.ended = none → l.lastAcked = true → Taken t l.index l.recv
  loaded : Loaded t addr l.recv

section Run

variable {t : Transfer} {addr : Nat} {l : Link} {cs : List UInt8} {mem : Mem UInt8}

theorem inv_start (t : Transfer) (addr : Nat) (mem : Mem UInt8) : Inv t addr (.start addr mem) := by
  refine ⟨rfl, fun _ => ⟨.inl ⟨?_, .inl rfl, ⟨rfl, rfl, rfl⟩⟩, ?_, ?_, fun h => absurd h (Nat.lt_irrefl 0)⟩,
    fun _ h => absurd h Bool.false_ne_true, fun _ h => absurd h (Option.some_ne_none _).symm⟩
  · have hne : (-1 : Int) ≠ number 0 := by decide
    exact hne
  · exact Pos.noConfusion
  · exact Pos.noConfusion

/-- The characters of a packet behind its start neither start one nor break off. -/
theorem wire_quiet (p : Packet) (n : Nat) (hn : n < 64) :
    ∃ rest, p.wire n = startChar :: rest ∧ ∀ c ∈ rest, c ≠ startChar ∧ c ≠ etxChar := by
  have hprint : ∀ c : UInt8, control c = false → c ≠ startChar ∧ c ≠ etxChar := by
    intro c hc
    constructor
    · rintro rfl
      exact absurd hc (by decide)
    · rintro rfl
      exact absurd hc (by decide)
  have hhead : ∀ c ∈ p.head n, control c = false := by
    have hfits := p.fits
    intro c hc
    rw [Packet.head] at hc
    split at hc
    · rename_i hlong
      rw [if_pos hlong] at hfits
      simp only [List.cons_append, List.nil_append, List.mem_cons, List.not_mem_nil, or_false] at hc
      rcases hc with rfl | rfl | rfl | rfl | rfl | rfl
      · exact control_tochar (by omega)
      · exact control_tochar (by omega)
      · exact p.typ_ok
      · exact control_tochar (by omega)
      · exact control_tochar (by omega)
      · exact control_blockCheck _
    · rename_i hlong
      rw [if_neg hlong] at hfits
      simp only [List.mem_cons, List.not_mem_nil, or_false] at hc
      rcases hc with rfl | rfl | rfl
      · exact control_tochar (by omega)
      · exact control_tochar (by omega)
      · exact p.typ_ok
  refine ⟨_, rfl, fun c hc => ?_⟩
  rw [List.mem_append, List.mem_append, List.mem_cons, List.mem_singleton] at hc
  rcases hc with hc | hc | rfl | rfl
  · exact hprint c (hhead c hc)
  · exact hprint c (p.data_ok c hc)
  · exact hprint _ (control_blockCheck _)
  · exact ⟨by decide, by decide⟩

theorem inv_next (h : Inv t addr l) (hacked : l.lastAcked = true) : Inv t addr (step l .next) := by
  refine ⟨h.start, fun hended => ?_, fun _ hfalse => absurd hfalse Bool.false_ne_true, h.loaded⟩
  have htaken := h.taken hended hacked
  have hne : l.recv.lastN ≠ number (l.index + 1) := by
    rw [htaken.lastN]
    exact fun heq => number_succ_ne l.index (Int.ofNat_inj.mp heq.symm)
  refine ⟨.inl ⟨hne, .inl htaken.pos, htaken.stored⟩, ?_, ?_, fun _ => htaken.hisQuote⟩
  · rw [step, htaken.pos]
    exact Pos.noConfusion
  · rw [step, htaken.pos]
    exact Pos.noConfusion

/-- Once `k_recv` has returned, nothing changes. -/
theorem inv_ended (h : Inv t addr l) (hended : l.recv.ended ≠ none) :
    Inv t addr (step l (.deliver cs)) := by
  have hfeed : feed l.recv cs = (l.recv, []) := feed_ended hended
  rw [step, hfeed]
  exact ⟨h.start, fun hnone => absurd hnone hended, fun hnone => absurd hnone hended, h.loaded⟩

/-- An intact packet between two packets. -/
theorem inv_packet {p : Packet} (h : Inv t addr l) (hended : l.recv.ended = none)
    (hpos : l.recv.pos = .start) (hp : t.packets[l.index]? = some p) :
    Inv t addr (step l (.deliver (p.wire (number l.index)))) := by
  have hactive := h.active hended
  have hquote : p.typ = dataType → l.recv.hisQuote = t.quote := by
    intro hdata
    refine hactive.hisQuote (Nat.pos_of_ne_zero fun hzero => ?_)
    rw [hzero] at hp
    rw [Transfer.typ_zero hp, t.sendInit_typ] at hdata
    exact absurd hdata (by decide)
  obtain ⟨k, reply, hfeed, hacks, hpos', hseen, hstored, hstart, hquote', hended'⟩ :=
    feed_wire hp hpos hended hactive.known hquote
  -- the quoting character is the transfer's from the parameter packet on
  have hquoted : k.hisQuote = t.quote := by
    rw [hquote']
    rcases Nat.eq_zero_or_pos l.index with hzero | hindex
    · rw [hzero] at hp
      rw [Transfer.typ_zero hp, if_pos t.sendInit_typ]
      exact t.sendInit_quote.symm
    · obtain ⟨j, hj⟩ := Nat.exists_eq_succ_of_ne_zero (Nat.ne_of_gt hindex)
      rw [hj] at hp
      rw [if_neg (Transfer.typ_succ hp).1]
      exact hactive.hisQuote hindex
  rw [step, hfeed]
  refine ⟨hstart.trans h.start, fun _ => ⟨.inr hseen, ?_, ?_, fun _ => hquoted⟩,
    fun _ _ => ⟨hpos', hseen.lastN, hstored, hquoted⟩, fun size hsize => ?_⟩
  · rw [hpos']
    exact Pos.noConfusion
  · rw [hpos']
    exact Pos.noConfusion
  · dsimp only at hsize
    rw [hended'] at hsize
    split at hsize
    · rename_i hbreak
      have hlast : l.index + 1 = t.packets.length := by
        rcases Nat.eq_zero_or_pos l.index with hzero | hindex
        · rw [hzero] at hp
          rw [Transfer.typ_zero hp, t.sendInit_typ] at hbreak
          exact absurd hbreak (by decide)
        · obtain ⟨j, hj⟩ := Nat.exists_eq_succ_of_ne_zero (Nat.ne_of_gt hindex)
          rw [hj] at hp ⊢
          exact (Transfer.typ_succ hp).2 hbreak
      rw [hlast] at hstored
      have haddr := hstored.addr
      have htext := hstored.text
      have hstart' : k.binStartAddress = addr := hstart.trans h.start
      rw [Transfer.bytes_all, hstart'] at haddr htext
      have hsize' : k.osDataAddr - k.binStartAddress = size := by
        injection hsize with hsize
        injection hsize
      refine ⟨?_, htext⟩
      dsimp only at haddr
      omega
    · exact absurd hsize (Option.some_ne_none _).symm

/-- An intact packet in the middle of another: the rest of it is lost. -/
theorem inv_middle {p : Packet} (h : Inv t addr l) (hended : l.recv.ended = none)
    (hpos : l.recv.pos ≠ .start) : Inv t addr (step l (.deliver (p.wire (number l.index)))) := by
  have hactive := h.active hended
  obtain ⟨rest, hwire, hquiet⟩ := wire_quiet p (number l.index) (number_lt _)
  have hfeed : feed l.recv (p.wire (number l.index)) =
      ((packetError l.recv).1, [.nack l.recv.n]) := by
    rw [hwire, feed, readChar_startChar hended hpos, feed_skip rfl hquiet]
    rfl
  have hseen : Seen t l.index l.recv := by
    rcases hactive.known with hfresh | hseen
    · rcases hfresh.pos with hp | hp | hp
      · exact absurd hp hpos
      · exact absurd hp hactive.not_len
      · exact absurd hp hactive.not_seq
    · exact hseen
  rw [step, hfeed]
  refine ⟨h.start, fun _ => ⟨.inr ((onward_packetError l.recv).seen hseen), ?_, ?_,
    hactive.hisQuote⟩, fun _ hfalse => absurd hfalse Bool.false_ne_true, fun size hsize => ?_⟩
  · exact Pos.noConfusion
  · exact Pos.noConfusion
  · exact absurd (hended.symm.trans hsize) (Option.some_ne_none _).symm

/-- A delivery that is not acknowledged, in which the number is received. -/
theorem inv_altered (h : Inv t addr l) (hended : l.recv.ended = none) (hdetected : Detected l cs)
    (hnumber : Guarded (fun k c => (readChar k c).1) (NumberReceived l.index) l.recv cs)
    (hlen : (feed l.recv cs).1.pos ≠ .len) (hseq : (feed l.recv cs).1.pos ≠ .seq) :
    Inv t addr (step l (.deliver cs)) := by
  have hactive := h.active hended
  obtain ⟨hquote, hended'⟩ := feed_nack hdetected
  have hknown := feed_known hactive.known hnumber
  have hnone : (feed l.recv cs).2.any (Reply.acks (number l.index)) = false := by
    refine Bool.eq_false_iff.mpr fun hany => ?_
    obtain ⟨r, hr, hacks⟩ := List.any_eq_true.mp hany
    have hnack := List.all_eq_true.mp hdetected r hr
    cases r with
    | nack n => exact Bool.false_ne_true hacks
    | ack n => exact Bool.false_ne_true hnack
    | params n => exact Bool.false_ne_true hnack
  refine ⟨?_, fun _ => ⟨hknown, hlen, hseq, fun hindex => hquote.trans (hactive.hisQuote hindex)⟩,
    fun _ hacked => absurd (hnone.symm.trans hacked) Bool.false_ne_true, fun size hsize => ?_⟩
  · exact (feed_base cs l.recv).trans h.start
  · rcases hended' with heq | heq
    · exact absurd (hended.symm.trans (heq.symm.trans hsize)) (Option.some_ne_none _).symm
    · exact absurd (Option.some.inj (heq.symm.trans hsize)) End.noConfusion

theorem inv_step {e : Event} (h : Inv t addr l) (hg : Assumed t l e) : Inv t addr (step l e) := by
  cases e with
  | next => exact inv_next h hg
  | deliver cs =>
    by_cases hended : l.recv.ended = none
    swap
    · exact inv_ended h hended
    rcases hg with hintact | ⟨hdetected, hnumber, hlen, hseq⟩
    · rw [Intact, Option.map_eq_some_iff] at hintact
      obtain ⟨p, hp, rfl⟩ := hintact
      by_cases hpos : l.recv.pos = .start
      · exact inv_packet h hended hpos hp
      · exact inv_middle h hended hpos
    · exact inv_altered h hended hdetected hnumber hlen hseq

/-- **The download.**  In every run with the deliveries and acknowledgements assumed, when
    `k_recv` ends on the break packet the file stands at the load address, and its length is
    the value returned. -/
theorem file_loaded (t : Transfer) (addr : Nat) (mem : Mem UInt8) {es : List Event}
    (hg : Guarded step (Assumed t) (.start addr mem) es) :
    Loaded t addr (run step (.start addr mem) es).recv :=
  (run_invariant (fun _ _ h hg => inv_step h hg) (inv_start t addr mem) hg).loaded

instance (t : Transfer) (l : Link) (cs : List UInt8) : Decidable (Intact t l cs) :=
  inferInstanceAs (Decidable (_ = _))

instance (l : Link) (cs : List UInt8) : Decidable (Detected l cs) :=
  inferInstanceAs (Decidable (_ = _))

instance (index : Nat) (k : Recv) (c : UInt8) : Decidable (NumberReceived index k c) :=
  inferInstanceAs (Decidable (_ ∧ _))

instance (t : Transfer) (l : Link) : ∀ e, Decidable (Promised t l e)
  | .deliver _ => inferInstanceAs (Decidable (_ ∨ _))
  | .next => inferInstanceAs (Decidable (_ = _))

instance (t : Transfer) (l : Link) : ∀ e, Decidable (Assumed t l e)
  | .deliver _ => inferInstanceAs (Decidable (_ ∨ _))
  | .next => inferInstanceAs (Decidable (_ = _))

/-- A packet without data. -/
def emptyPacket (typ : UInt8) (h : control typ = false) : Packet :=
  ⟨typ, [], false, h, fun _ hc => absurd hc List.not_mem_nil, Nat.le_add_left 3 91⟩

/-- A packet with one byte that needs no quoting. -/
def bytePacket (c : UInt8) (h : control c = false) (long : Bool) : Packet :=
  ⟨dataType, [c], long, rfl, fun d hd => by rw [List.mem_singleton.mp hd]; exact h, by
    cases long
    · exact Nat.le_add_left 4 90
    · exact Nat.le_add_left 2 9022⟩

/-- A file of two bytes in two packets, one of them in the long form. -/
def twoBytes : Transfer where
  file := [65, 66]
  quote := kEscape
  sendInit := emptyPacket sendType rfl
  fileHeader := emptyPacket 70 rfl
  cut := [bytePacket 65 rfl false, bytePacket 66 rfl true]
  endOfFile := emptyPacket 90 rfl
  endOfTransmission := emptyPacket breakType rfl
  sendInit_typ := rfl
  fileHeader_typ := rfl
  cut_typ := by
    intro p hp
    rcases List.mem_cons.mp hp with rfl | hp
    · rfl
    · rw [List.mem_singleton.mp hp]
      rfl
  endOfFile_typ := rfl
  endOfTransmission_typ := rfl
  quoteChar := .inl (by decide)
  sendInit_quote := rfl
  cut_data := by decide

/-- Packet `i` as it is sent. -/
def sent (i : Nat) : List UInt8 := (twoBytes.packets[i]?.map (Packet.wire (n := number i))).getD []

/-- The first data packet arrives with a wrong block check, then twice as it was sent. -/
def twoBytesRun : List Event :=
  [.deliver (sent 0), .next, .deliver (sent 1), .next, .deliver ((sent 2).set 5 70),
    .deliver (sent 2), .deliver (sent 2), .next, .deliver (sent 3), .next, .deliver (sent 4), .next,
    .deliver (sent 5)]

theorem file_loaded_twoBytes :
    (run step (.start 0 fun _ => 0) twoBytesRun).recv.ended = some (.onBreak 2) ∧
      Loaded twoBytes 0 (run step (.start 0 fun _ => 0) twoBytesRun).recv := by
  refine ⟨by decide +kernel, file_loaded twoBytes 0 (fun _ => 0) ?_⟩
  decide +kernel

/-- The second data packet first arrives with the number of the first. -/
def numberDamaged : List Event :=
  [.deliver (sent 0), .next, .deliver (sent 1), .next, .deliver (sent 2), .next,
    .deliver ((sent 3).set 2 34), .deliver (sent 3), .next, .deliver (sent 4), .next,
    .deliver (sent 5)]

/-- The first data packet arrives, is acknowledged, and is repeated with a wrong block check
    before the sender has seen the acknowledgement. -/
def repeatDamaged : List Event :=
  [.deliver (sent 0), .next, .deliver (sent 1), .next, .deliver (sent 2),
    .deliver ((sent 2).set 5 70), .next, .deliver (sent 3), .next, .deliver (sent 4), .next,
    .deliver (sent 5)]

/-- In both runs the first byte of the file is lost. -/
theorem damaged_not_loaded :
    (Guarded step (Promised twoBytes) (.start 0 fun _ => 0) numberDamaged ∧
      ¬ Loaded twoBytes 0 (run step (.start 0 fun _ => 0) numberDamaged).recv) ∧
    (Guarded step (Promised twoBytes) (.start 0 fun _ => 0) repeatDamaged ∧
      ¬ Loaded twoBytes 0 (run step (.start 0 fun _ => 0) repeatDamaged).recv) := by
  refine ⟨⟨by decide +kernel, fun h => ?_⟩, by decide +kernel, fun h => ?_⟩
  · have hended : (run step (.start 0 fun _ => 0) numberDamaged).recv.ended =
        some (.onBreak 1) := by decide +kernel
    exact absurd (h 1 hended).1 (by decide)
  · have hended : (run step (.start 0 fun _ => 0) repeatDamaged).recv.ended =
        some (.onBreak 1) := by decide +kernel
    exact absurd (h 1 hended).1 (by decide)

end Run

end Uboot.Common.Kermit
