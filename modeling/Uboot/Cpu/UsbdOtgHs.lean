/-
  Uboot.Cpu.UsbdOtgHs

  The DNW download of cpu/arm_cortexa9/s5pc210/usbd-otg-hs.c in CPU mode: the
  bulk-out interrupt reads each packet word by word from the OUT FIFO, takes the
  header off the first one and stores the rest behind the download address.
  Pointers are 32 bits wide and wrap.
-/

import Uboot.Lib.Ram
import Uboot.Lib.Run
import Uboot.LibGeneric.Vsprintf
import Mathlib.Tactic.Set

namespace Uboot.Cpu.UsbdOtgHs

open Uboot.Lib Uboot.LibGeneric

-- ============================================================================
-- The device
-- ============================================================================

inductive UsbSpeed where
  | high
  | full

/-- `otg.bulkout_max_pktsize` as `s3c_usb_set_max_pktsize` sets it. -/
def bulkoutMaxPktsize : UsbSpeed → Nat
  | .high => 512
  | .full => 64

/-- `USBD_DOWN_ADDR` -/
def usbdDownAddr : Nat := 0xc0000000

/-- The globals and the fields of `otg` the bulk-out path uses, the words that wait in
    the OUT FIFO, and memory. -/
structure Otg where
  dnAddr : Nat
  dnFilesize : Nat
  dnPtr : Nat
  upAddr : Nat
  upSize : Nat
  upPtr : Nat
  usbdDnAddr : Nat
  usbdDnCnt : Nat
  receiveDone : Bool
  outFifo : List Nat
  ram : Ram

/-- A bulk packet.  The FIFO holds whole words; `pad` is what fills up the last one. -/
structure OutPacket where
  bytes : List UInt8
  pad : Nat → UInt8

namespace OutPacket

/-- Byte `i` of the packet's words. -/
def byteAt (p : OutPacket) (i : Nat) : UInt8 := (p.bytes[i]?).getD (p.pad i)

/-- Word `i` of the packet, least significant byte first. -/
def word (p : OutPacket) (i : Nat) : Nat :=
  (p.byteAt (4 * i)).toNat + 256 * (p.byteAt (4 * i + 1)).toNat +
    65536 * (p.byteAt (4 * i + 2)).toNat + 16777216 * (p.byteAt (4 * i + 3)).toNat

/-- The words the controller puts into the OUT FIFO. -/
def words (p : OutPacket) : List Nat := (List.range' 0 ((p.bytes.length + 3) / 4)).map p.word

end OutPacket

-- ============================================================================
-- Reading the FIFO
-- ============================================================================

/-- The rounds of the loop of `s3c_usb_read_out_fifo`: the bytes put into `buf`, and
    the words left. -/
def readWords : Nat → List Nat → List UInt8 × List Nat
  | 0, fifo => ([], fifo)
  | rounds + 1, fifo =>
    let rest := readWords rounds fifo.tail
    (le32 (fifo.headD 0) ++ rest.1, rest.2)

/-- `s3c_usb_read_out_fifo (buf, num)`: a word for every four bytes begun. -/
def s3cUsbReadOutFifo (num : Nat) (fifo : List Nat) : List UInt8 × List Nat :=
  readWords ((num + 3) / 4) fifo

/-- Bytes stored one after the other at `buf`. -/
def storeAt (r : Ram) (buf : Nat) : List UInt8 → Ram
  | [] => r
  | b :: bs => storeAt (r.store (u32 buf) [b]) (buf + 1) bs

-- ============================================================================
-- The interrupt
-- ============================================================================

/-- `s3c_usb_upload_start`.  The register writes that start the IN endpoint are left out. -/
def s3cUsbUploadStart (o : Otg) : Otg :=
  let read := s3cUsbReadOutFifo 10 o.outFifo
  let tmpBuf : Mem UInt8 := fun i => read.1.getD i 0
  let o := { o with outFifo := read.2 }
  let o :=
    if rd16 tmpBuf 8 = 1 then
      { o with upAddr := rd32 tmpBuf 0, upSize := rd32 tmpBuf 4, upPtr := rd32 tmpBuf 0 }
    else o
  { o with dnFilesize := 0 }

/-- `s3c_usb_download_start`.  The address in the frame is read and not used. -/
def s3cUsbDownloadStart (o : Otg) (fifoCntByte : Nat) : Otg :=
  let head := s3cUsbReadOutFifo 8 o.outFifo
  let tmpBuf : Mem UInt8 := fun i => head.1.getD i 0
  let read := s3cUsbReadOutFifo (fifoCntByte - 8) head.2
  { o with
    dnAddr := o.usbdDnAddr
    dnFilesize := rd32 tmpBuf 4
    dnPtr := u32 (o.usbdDnAddr + usub fifoCntByte 8)
    outFifo := read.2
    ram := storeAt o.ram o.usbdDnAddr read.1 }

/-- `s3c_usb_download_continue`.  The checksum is compared and the result printed only. -/
def s3cUsbDownloadContinue (o : Otg) (fifoCntByte : Nat) : Otg :=
  let read := s3cUsbReadOutFifo fifoCntByte o.outFifo
  let o := { o with
    dnPtr := u32 (o.dnPtr + fifoCntByte)
    outFifo := read.2
    ram := storeAt o.ram o.dnPtr read.1 }
  if usub o.dnFilesize 8 ≤ usub o.dnPtr o.dnAddr then
    { o with usbdDnCnt := usub o.dnFilesize 10, usbdDnAddr := o.dnAddr, receiveDone := true }
  else o

/-- `s3c_usb_int_bulkout` -/
def s3cUsbIntBulkout (o : Otg) (fifoCntByte : Nat) : Otg :=
  if o.dnFilesize = 0 then
    if fifoCntByte = 10 then s3cUsbUploadStart o else s3cUsbDownloadStart o fifoCntByte
  else s3cUsbDownloadContinue o fifoCntByte

/-- `s3c_usb_pkt_receive` on a packet of the bulk OUT endpoint.  The byte count has
    eleven bits. -/
def s3cUsbPktReceive (o : Otg) (p : OutPacket) : Otg :=
  let o := { o with outFifo := o.outFifo ++ p.words }
  if p.bytes.length % 2048 = 0 then o else s3cUsbIntBulkout o (p.bytes.length % 2048)

/-- `s3c_usb_clear_dnfile_info` -/
def s3cUsbClearDnfileInfo (o : Otg) : Otg := { o with dnAddr := 0, dnFilesize := 0, dnPtr := 0 }

/-- `do_usbd_dnw` up to its loop, and the enumeration: the core reset empties the FIFO,
    `s3c_usb_set_init` clears the file information. -/
def doUsbdDnw (o : Otg) (arg : Option (List UInt8)) : Otg :=
  s3cUsbClearDnfileInfo { o with
    usbdDnAddr := match arg with
      | none => usbdDownAddr
      | some s => u32 (simpleStrtoul s 16)
    receiveDone := false
    outFifo := [] }

-- ============================================================================
-- What the FIFO delivers
-- ============================================================================

section Fifo

variable {r : Ram} {bs : List UInt8} {buf x n : Nat}

theorem le32_word (p : OutPacket) (i : Nat) :
    le32 (p.word i) = (List.range' (4 * i) 4).map p.byteAt := by
  have h0 := (p.byteAt (4 * i)).toNat_lt
  have h1 := (p.byteAt (4 * i + 1)).toNat_lt
  have h2 := (p.byteAt (4 * i + 2)).toNat_lt
  have h3 := (p.byteAt (4 * i + 3)).toNat_lt
  simp only [le32, List.range'_succ, List.range'_zero, List.map_cons, List.map_nil,
    List.cons.injEq, and_true, Nat.add_assoc, Nat.reduceAdd]
  refine ⟨?_, ?_, ?_, ?_⟩ <;> apply UInt8.toNat_inj.mp <;>
    simp only [UInt8.toNat_ofNat', OutPacket.word] <;> omega

/-- `rounds` rounds of the loop, from word `i` of a packet on. -/
theorem readWords_words (p : OutPacket) (rounds : Nat) : ∀ i left, rounds ≤ left →
    readWords rounds ((List.range' i left).map p.word) =
      ((List.range' (4 * i) (4 * rounds)).map p.byteAt,
        (List.range' (i + rounds) (left - rounds)).map p.word) := by
  induction rounds with
  | zero =>
    intro i left _
    rfl
  | succ rounds ih =>
    intro i left hle
    obtain ⟨left, rfl⟩ : ∃ l, left = l + 1 := ⟨left - 1, by omega⟩
    have hsplit : List.range' (4 * i) (4 * (rounds + 1)) =
        List.range' (4 * i) 4 ++ List.range' (4 * (i + 1)) (4 * rounds) := by
      rw [Nat.mul_succ 4 rounds, Nat.add_comm, ← List.range'_append, Nat.one_mul,
        Nat.mul_succ 4 i]
    have hstep := ih (i + 1) left (by omega)
    simp only [readWords, List.range'_succ, List.map_cons, List.tail_cons, List.headD_cons, hstep,
      le32_word, hsplit, List.map_append]
    rw [Nat.add_right_comm i 1 rounds, Nat.add_sub_add_right, Nat.add_assoc i]

theorem storeAt_log : ∀ (bs : List UInt8) (r : Ram) (buf : Nat), (storeAt r buf bs).log =
    r.log ++ (List.range' buf bs.length).map fun y => ⟨u32 y, 1⟩
  | [], r, buf => by simp [storeAt]
  | b :: bs, r, buf => by
    rw [storeAt, storeAt_log bs, Ram.store_log, List.append_assoc]
    rfl

theorem storeAt_outside : ∀ (bs : List UInt8) (r : Ram) (buf : Nat),
    (∀ i < bs.length, x ≠ u32 (buf + i)) → (storeAt r buf bs).cells x = r.cells x
  | [], r, buf, _ => rfl
  | b :: bs, r, buf, h => by
    have hhead : x ≠ u32 buf := h 0 (Nat.succ_pos _)
    have htail : ∀ i < bs.length, x ≠ u32 (buf + 1 + i) := by
      intro i hi
      rw [Nat.add_assoc, Nat.add_comm 1]
      exact h (i + 1) (Nat.succ_lt_succ hi)
    rw [storeAt, storeAt_outside bs _ _ htail, Ram.store_cells]
    apply Mem.write_outside
    rw [List.length_singleton]
    omega

/-- A range shorter than the address space does not overwrite itself when it wraps. -/
theorem storeAt_inside : ∀ (bs : List UInt8) (r : Ram) (buf : Nat), bs.length ≤ 4294967296 →
    ∀ i (h : i < bs.length), (storeAt r buf bs).cells (u32 (buf + i)) = bs[i]
  | b :: bs, r, buf, hlen, 0, _ => by
    rw [List.length_cons] at hlen
    rw [storeAt, storeAt_outside bs _ _ (by simp only [u32]; omega)]
    exact @Mem.write_inside _ r.cells (u32 buf) [b] 0 Nat.one_pos
  | b :: bs, r, buf, hlen, i + 1, h => by
    rw [List.length_cons] at hlen h
    have htail := storeAt_inside bs (r.store (u32 buf) [b]) (buf + 1) (by omega) i (by omega)
    rw [Nat.add_assoc, Nat.add_comm 1] at htail
    exact htail

end Fifo

-- ============================================================================
-- One packet
-- ============================================================================

section Packet

variable {r : Ram} {o : Otg} {p : OutPacket} {bs payload rest body head : List UInt8}
variable {addr s n i k : Nat}

/-- From `r` to `r'` bytes are stored only at the offsets `lo` to `hi` from `addr`. -/
def StoresIn (addr lo hi : Nat) (r r' : Ram) : Prop :=
  ∃ new, r'.log = r.log ++ new ∧ ∀ e ∈ new, ∃ j, lo ≤ j ∧ j < hi ∧ e = ⟨u32 (addr + j), 1⟩

/-- The first `s` bytes of `payload` have been stored, and the file size is known. -/
structure Loaded (addr : Nat) (payload : List UInt8) (s : Nat) (o : Otg) : Prop where
  start : o.dnAddr = addr
  size : o.dnFilesize = payload.length + 8
  ptr : o.dnPtr = u32 (addr + s)
  fifo : o.outFifo = []
  cells : ∀ i < s, payload[i]? = some (o.ram.cells (u32 (addr + i)))

theorem storeAt_storesIn (r : Ram) (bs : List UInt8) (addr s : Nat) :
    StoresIn addr s (s + bs.length) r (storeAt r (u32 (addr + s)) bs) := by
  refine ⟨_, storeAt_log bs r _, ?_⟩
  intro e he
  obtain ⟨y, hy, rfl⟩ := List.mem_map.mp he
  obtain ⟨j, hj, rfl⟩ := List.mem_range'.mp hy
  refine ⟨s + j, Nat.le_add_right .., Nat.add_lt_add_left hj s, ?_⟩
  rw [Nat.one_mul, u32_add_left, Nat.add_assoc]

/-- Bytes that go on where the stored part of `payload` ends. -/
theorem storeAt_payload (hbs : ∀ j < n, payload[s + j]? = bs[j]?) (hn : n ≤ bs.length)
    (hlen : s + bs.length ≤ 4294967296)
    (hold : ∀ i < s, payload[i]? = some (r.cells (u32 (addr + i)))) :
    ∀ i < s + n, payload[i]? = some ((storeAt r (u32 (addr + s)) bs).cells (u32 (addr + i))) := by
  intro i hi
  rcases Nat.lt_or_ge i s with hlt | hge
  · -- stored before, and not reached by the wrapping range
    rw [storeAt_outside, hold i hlt]
    intro j hj
    simp only [u32]
    omega
  · obtain ⟨j, rfl⟩ := Nat.exists_eq_add_of_le hge
    have hj : j < bs.length := by omega
    have hstored := storeAt_inside bs r (u32 (addr + s)) (by omega) j hj
    rw [u32_add_left, Nat.add_assoc] at hstored
    rw [hstored, hbs j (by omega), List.getElem?_eq_getElem hj]

/-- Bytes of the packet's words inside the packet are the packet's. -/
theorem byteAt_range' (h : k + i < p.bytes.length) (hi : i < n) :
    ((List.range' k n).map p.byteAt)[i]? = p.bytes[k + i]? := by
  rw [List.getElem?_map, List.getElem?_range' hi, Option.map_some, Nat.one_mul, OutPacket.byteAt,
    List.getElem?_eq_getElem h, Option.getD_some]

/-- The whole of a packet, and nothing else, is in the FIFO. -/
theorem readOutFifo_words (p : OutPacket) : s3cUsbReadOutFifo p.bytes.length p.words =
    ((List.range' 0 (4 * ((p.bytes.length + 3) / 4))).map p.byteAt, []) := by
  rw [s3cUsbReadOutFifo, OutPacket.words, readWords_words p _ 0 _ (Nat.le_refl _), Nat.sub_self]
  rfl

theorem pktReceive_eq (hpos : p.bytes ≠ []) (hmax : p.bytes.length < 2048) (hfifo : o.outFifo = []) :
    s3cUsbPktReceive o p = s3cUsbIntBulkout { o with outFifo := p.words } p.bytes.length := by
  have hlen := List.length_pos_of_ne_nil hpos
  rw [s3cUsbPktReceive, Nat.mod_eq_of_lt hmax, if_neg (by omega), hfifo, List.nil_append]

/-- **Later packet.**  Its bytes go behind those stored, and the transfer is done exactly
    when the payload is complete. -/
theorem pktReceive_continue (h : Loaded addr payload s o) (hpos : p.bytes ≠ [])
    (hmax : p.bytes.length < 2048) (hrest : payload.drop s = p.bytes ++ rest)
    (haddr : addr < 4294967296) (hsize : payload.length + 8 < 4294967296)
    (hcs : 2 ≤ payload.length) :
    Loaded addr payload (s + p.bytes.length) (s3cUsbPktReceive o p) ∧
      StoresIn addr s (s + p.bytes.length + 3) o.ram (s3cUsbPktReceive o p).ram ∧
      (rest ≠ [] → (s3cUsbPktReceive o p).receiveDone = o.receiveDone) ∧
      (rest = [] → (s3cUsbPktReceive o p).receiveDone = true ∧
        (s3cUsbPktReceive o p).usbdDnCnt = payload.length - 2) := by
  have hlen : payload.length - s = p.bytes.length + rest.length := by
    rw [← List.length_drop, hrest, List.length_append]
  have hbytes := List.length_pos_of_ne_nil hpos
  set bs := (List.range' 0 (4 * ((p.bytes.length + 3) / 4))).map p.byteAt with hbs
  have hbslen : bs.length = 4 * ((p.bytes.length + 3) / 4) := by
    rw [hbs, List.length_map, List.length_range']
  have hbsle : p.bytes.length ≤ bs.length := by omega
  set ram := storeAt o.ram (u32 (addr + s)) bs with hram
  have hcells : ∀ i < s + p.bytes.length, payload[i]? = some (ram.cells (u32 (addr + i))) := by
    apply storeAt_payload _ hbsle (by omega) h.cells
    intro j hj
    rw [byteAt_range' (by omega) (by omega), Nat.zero_add, ← List.getElem?_drop, hrest,
      List.getElem?_append_left hj]
  have hstores : StoresIn addr s (s + p.bytes.length + 3) o.ram ram := by
    obtain ⟨new, hlog, hnew⟩ := storeAt_storesIn o.ram bs addr s
    refine ⟨new, hlog, ?_⟩
    intro e he
    obtain ⟨j, hlo, hhi, hj⟩ := hnew e he
    exact ⟨j, hlo, by omega, hj⟩
  -- the pointer difference is the number of bytes stored, wrapped or not
  have hdiff : usub (u32 (u32 (addr + s) + p.bytes.length)) addr = s + p.bytes.length := by
    simp only [usub, u32]
    omega
  have hleft : usub (payload.length + 8) 8 = payload.length := by
    rw [usub_of_le (by omega) hsize, Nat.add_sub_cancel]
  have hcnt : usub (payload.length + 8) 10 = payload.length - 2 := by
    rw [usub_of_le (by omega) hsize]
    omega
  rw [pktReceive_eq hpos hmax h.fifo, s3cUsbIntBulkout, if_neg (by simp only [h.size]; omega),
    s3cUsbDownloadContinue]
  simp only [readOutFifo_words, h.ptr, h.size, h.start, hdiff, hleft, hcnt, ← hbs, ← hram]
  split
  case isTrue hdone =>
    have hnil : rest = [] := List.length_eq_zero_iff.mp (by omega)
    refine ⟨⟨rfl, rfl, ?_, rfl, hcells⟩, hstores, fun hne => absurd hnil hne, fun _ => ⟨rfl, rfl⟩⟩
    rw [u32_add_left, Nat.add_assoc]
  case isFalse hmore =>
    refine ⟨⟨rfl, rfl, ?_, rfl, hcells⟩, hstores, fun _ => rfl, ?_⟩
    · rw [u32_add_left, Nat.add_assoc]
    · rintro rfl
      simp only [List.length_nil] at hlen
      omega

/-- **First packet.**  It gives the file size, and what follows the header is stored at
    the download address.  It does not end the transfer, whatever its size. -/
theorem pktReceive_first (hdn : o.dnFilesize = 0) (hfifo : o.outFifo = [])
    (hbytes : p.bytes = head ++ le32 (payload.length + 8) ++ body) (hhead : head.length = 4)
    (hpos : 3 ≤ body.length) (hmax : p.bytes.length < 2048) (hrest : payload = body ++ rest)
    (haddr : o.usbdDnAddr < 4294967296) (hsize : payload.length + 8 < 4294967296) :
    Loaded o.usbdDnAddr payload body.length (s3cUsbPktReceive o p) ∧
      StoresIn o.usbdDnAddr 0 (body.length + 3) o.ram (s3cUsbPktReceive o p).ram ∧
      (s3cUsbPktReceive o p).receiveDone = o.receiveDone := by
  have hlen : p.bytes.length = body.length + 8 := by
    rw [hbytes, List.length_append, List.length_append, hhead, le32_length]
    omega
  have hple : body.length ≤ payload.length := by rw [hrest, List.length_append]; omega
  set w := (p.bytes.length + 3) / 4 with hw
  -- two words of header, then the rest of the packet
  have hheader : s3cUsbReadOutFifo 8 p.words =
      ((List.range' 0 8).map p.byteAt, (List.range' 2 (w - 2)).map p.word) := by
    rw [s3cUsbReadOutFifo, OutPacket.words, readWords_words p _ 0 _ (by omega)]
  have hbody : s3cUsbReadOutFifo (p.bytes.length - 8) ((List.range' 2 (w - 2)).map p.word) =
      ((List.range' 8 (4 * (w - 2))).map p.byteAt, []) := by
    have hrounds : (p.bytes.length - 8 + 3) / 4 = w - 2 := by omega
    rw [s3cUsbReadOutFifo, hrounds, readWords_words p _ 2 _ (Nat.le_refl _), Nat.sub_self]
    rfl
  have hfilesize : rd32 (fun i => ((List.range' 0 8).map p.byteAt).getD i 0) 4 =
      payload.length + 8 := by
    rw [← Nat.mod_eq_of_lt hsize]
    apply rd32_le32
    intro i hi
    rw [le32_length] at hi
    have hbyte : p.bytes[4 + i]? = some (le32 (payload.length + 8))[i] := by
      rw [hbytes, List.append_assoc, List.getElem?_append_right (by omega), hhead,
        Nat.add_sub_cancel_left, List.getElem?_append_left hi, List.getElem?_eq_getElem hi]
    rw [List.getD_eq_getElem?_getD, byteAt_range' (by omega) (by omega), Nat.zero_add, hbyte]
    rfl
  set bs := (List.range' 8 (4 * (w - 2))).map p.byteAt with hbs
  have hbslen : bs.length = 4 * (w - 2) := by rw [hbs, List.length_map, List.length_range']
  have hbsle : body.length ≤ bs.length := by omega
  have hstart : o.usbdDnAddr = u32 (o.usbdDnAddr + 0) := (u32_of_lt haddr).symm
  set ram := storeAt o.ram o.usbdDnAddr bs with hram
  have hcells : ∀ i < body.length, payload[i]? = some (ram.cells (u32 (o.usbdDnAddr + i))) := by
    have hstored := @storeAt_payload o.ram bs payload o.usbdDnAddr 0 body.length (by
      intro j hj
      rw [byteAt_range' (by omega) (by omega), Nat.zero_add, hrest, List.getElem?_append_left hj,
        hbytes, List.getElem?_append_right (by rw [List.length_append, hhead, le32_length]; omega),
        List.length_append, hhead, le32_length, Nat.add_sub_cancel_left]) hbsle (by omega)
      (fun i hi => absurd hi (Nat.not_lt_zero i))
    rw [← hstart, Nat.zero_add] at hstored
    exact hstored
  have hstores : StoresIn o.usbdDnAddr 0 (body.length + 3) o.ram ram := by
    obtain ⟨new, hlog, hnew⟩ := storeAt_storesIn o.ram bs o.usbdDnAddr 0
    rw [← hstart] at hlog
    refine ⟨new, hlog, ?_⟩
    intro e he
    obtain ⟨j, hlo, hhi, hj⟩ := hnew e he
    exact ⟨j, hlo, by omega, hj⟩
  have hptr : usub p.bytes.length 8 = body.length := by
    rw [usub_of_le (by omega) (by omega), hlen, Nat.add_sub_cancel]
  have hne : p.bytes ≠ [] := by
    intro hnil
    rw [hnil, List.length_nil] at hlen
    omega
  rw [pktReceive_eq hne hmax hfifo, s3cUsbIntBulkout, if_pos hdn, if_neg (by omega),
    s3cUsbDownloadStart]
  simp only [hheader, hbody, hfilesize, hptr, ← hram]
  exact ⟨⟨rfl, rfl, rfl, rfl, hcells⟩, hstores, trivial⟩

end Packet

-- ============================================================================
-- The whole frame
-- ============================================================================

/-- `frame` cut into packets of `m` bytes and a last one of any length up to it. -/
inductive Cut (m : Nat) : List UInt8 → List OutPacket → Prop
  | last (p : OutPacket) : p.bytes ≠ [] → p.bytes.length ≤ m → Cut m p.bytes [p]
  | full (p : OutPacket) {rest : List UInt8} {ps : List OutPacket} :
      p.bytes.length = m → Cut m rest ps → Cut m (p.bytes ++ rest) (p :: ps)

/-- The packets `ps`, the first of them at byte `pos` of the frame, bring in `data` and end
    the transfer with the last one, and each stores its own bytes and at most three more. -/
structure Received (m addr : Nat) (data : List UInt8) (pos : Nat) (o : Otg)
    (ps : List OutPacket) : Prop where
  done : ∀ k ≤ ps.length,
    ((run s3cUsbPktReceive o (ps.take k)).receiveDone = true ↔ k = ps.length)
  cnt : (run s3cUsbPktReceive o ps).usbdDnCnt = data.length
  cells : ∀ i (h : i < data.length),
    (run s3cUsbPktReceive o ps).ram.cells (u32 (addr + i)) = data[i]
  stores : ∀ k p, ps[k]? = some p →
    StoresIn addr (pos + k * m - 8) (pos + k * m + p.bytes.length + 3 - 8)
      (run s3cUsbPktReceive o (ps.take k)).ram (run s3cUsbPktReceive o (ps.take (k + 1))).ram

/-- `addr(4)+size(4)+data(n)+cs(2)` -/
def frame (head data cs : List UInt8) : List UInt8 :=
  head ++ le32 (data.length + 10) ++ data ++ cs

section Frame

variable {m addr s : Nat} {data payload rest head cs : List UInt8} {o : Otg}
variable {ps : List OutPacket}

theorem Cut.bytes_ne_nil (hm : 0 < m) (h : Cut m rest ps) : rest ≠ [] := by
  cases h with
  | last p hne _ => exact hne
  | full p hlen _ =>
    intro hnil
    rw [(List.append_eq_nil_iff.mp hnil).1, List.length_nil] at hlen
    omega

/-- A packet of the maximum size in front of packets that end the transfer. -/
theorem Received.cons {p : OutPacket} {pos : Nat} (hplen : p.bytes.length = m)
    (hdone : o.receiveDone = false)
    (hstores : StoresIn addr (pos - 8) (pos + p.bytes.length + 3 - 8) o.ram
      (s3cUsbPktReceive o p).ram)
    (hnext : Received m addr data (pos + p.bytes.length) (s3cUsbPktReceive o p) ps) :
    Received m addr data pos o (p :: ps) := by
  refine ⟨?_, hnext.cnt, hnext.cells, ?_⟩
  · intro k hk
    cases k with
    | zero => simp [hdone]
    | succ k =>
      rw [List.take_succ_cons, run_cons, hnext.done k (Nat.le_of_succ_le_succ hk),
        List.length_cons, Nat.succ_inj]
  · intro k q hq
    cases k with
    | zero =>
      obtain rfl : p = q := Option.some.inj hq
      rw [Nat.zero_mul, Nat.add_zero]
      exact hstores
    | succ k =>
      have hpos : pos + p.bytes.length + k * m = pos + (k + 1) * m := by
        rw [hplen, Nat.succ_mul]
        omega
      have hrec := hnext.stores k q hq
      rw [hpos] at hrec
      exact hrec

/-- **Run.**  The packets behind the first one complete a payload partly stored. -/
theorem received_of_loaded (hm : 0 < m) (hm' : m < 2048) (haddr : addr < 4294967296)
    (hsize : payload.length + 8 < 4294967296) (hpayload : payload = data ++ cs)
    (hcs : cs.length = 2) (hcut : Cut m rest ps) :
    ∀ (o : Otg) (s : Nat), Loaded addr payload s o → payload.drop s = rest →
      o.receiveDone = false → Received m addr data (s + 8) o ps := by
  have hlen : payload.length = data.length + 2 := by rw [hpayload, List.length_append, hcs]
  induction hcut with
  | last p hne hle =>
    intro o s hl hrest hdone
    obtain ⟨hl', hstores, -, hlast⟩ := @pktReceive_continue o p payload [] addr s hl hne (by omega)
      (by rw [hrest, List.append_nil]) haddr hsize (by omega)
    obtain ⟨htrue, hcnt⟩ := hlast rfl
    refine ⟨?_, by rw [run_cons, run_nil, hcnt, hlen, Nat.add_sub_cancel], ?_, ?_⟩
    · intro k hk
      rcases Nat.eq_zero_or_pos k with rfl | hpos
      · simp [hdone]
      · obtain rfl : k = 1 := Nat.le_antisymm hk hpos
        exact iff_of_true htrue rfl
    · intro i hi
      have hdrop := congrArg List.length hrest
      rw [List.length_drop] at hdrop
      have hcell := hl'.cells i (by omega)
      rw [hpayload, List.getElem?_append_left hi, List.getElem?_eq_getElem hi] at hcell
      exact (Option.some.inj hcell).symm
    · intro k q hq
      obtain ⟨rfl, rfl⟩ : k = 0 ∧ p = q := by
        cases k with
        | zero => exact ⟨rfl, Option.some.inj hq⟩
        | succ k => simp at hq
      rw [Nat.zero_mul, Nat.add_zero, Nat.add_sub_cancel, Nat.add_right_comm s, Nat.add_right_comm _ 8,
        Nat.add_sub_cancel]
      exact hstores
  | full p hplen hcut ih =>
    rename_i rest ps
    intro o s hl hrest hdone
    have hne : p.bytes ≠ [] := List.ne_nil_of_length_pos (by omega)
    obtain ⟨hl', hstores, hmore, -⟩ := pktReceive_continue hl hne (by omega) hrest haddr hsize
      (by omega)
    have hrest' : payload.drop (s + p.bytes.length) = rest := by
      rw [← List.drop_drop, hrest, List.drop_left]
    have hfalse := (hmore (hcut.bytes_ne_nil hm)).trans hdone
    have hnext := ih _ _ hl' hrest' hfalse
    rw [Nat.add_right_comm] at hnext
    apply Received.cons hplen hdone _ hnext
    rw [Nat.add_sub_cancel, Nat.add_right_comm s, Nat.add_right_comm _ 8, Nat.add_sub_cancel]
    exact hstores

/-- A first packet longer than the header is the header and the head of the payload. -/
theorem first_split {front bytes : List UInt8} (h : front ++ payload = bytes ++ rest)
    (hlen : front.length ≤ bytes.length) :
    ∃ body, bytes = front ++ body ∧ payload = body ++ rest := by
  rcases List.append_eq_append_iff.mp h with ⟨body, hb, hp⟩ | ⟨body, hf, hr⟩
  · exact ⟨body, hb, hp⟩
  · obtain rfl : body = [] := by
      apply List.eq_nil_of_length_eq_zero
      rw [hf, List.length_append] at hlen
      omega
    refine ⟨[], ?_, ?_⟩
    · rw [hf, List.append_nil, List.append_nil]
    · rw [hr, List.nil_append, List.nil_append]

theorem bulkoutMaxPktsize_bounds (speed : UsbSpeed) :
    64 ≤ bulkoutMaxPktsize speed ∧ bulkoutMaxPktsize speed < 2048 := by
  cases speed <;> decide

/-- The download starts with an empty FIFO, no file size and an address of 32 bits. -/
theorem doUsbdDnw_spec (o : Otg) (arg : Option (List UInt8)) :
    (doUsbdDnw o arg).dnFilesize = 0 ∧ (doUsbdDnw o arg).outFifo = [] ∧
      (doUsbdDnw o arg).receiveDone = false ∧ (doUsbdDnw o arg).usbdDnAddr < 4294967296 := by
  refine ⟨rfl, rfl, rfl, ?_⟩
  cases arg with
  | none => exact (by decide : usbdDownAddr < 4294967296)
  | some s => exact u32_lt _

/-- **DNW download.**  A frame that needs more than one packet is received, and a frame
    that fits into the first one never is. -/
theorem received_iff_second_packet (o : Otg) (arg : Option (List UInt8)) (speed : UsbSpeed)
    (head data cs : List UInt8) (ps : List OutPacket) (hhead : head.length = 4)
    (hcs : cs.length = 2) (hdata : 1 ≤ data.length) (hsize : data.length + 10 < 4294967296)
    (hcut : Cut (bulkoutMaxPktsize speed) (frame head data cs) ps) :
    Received (bulkoutMaxPktsize speed) (doUsbdDnw o arg).usbdDnAddr data 0 (doUsbdDnw o arg) ps ↔
      bulkoutMaxPktsize speed < data.length + 10 := by
  obtain ⟨hm, hm'⟩ := bulkoutMaxPktsize_bounds speed
  obtain ⟨hdn, hfifo, hdone, haddr⟩ := doUsbdDnw_spec o arg
  generalize doUsbdDnw o arg = o at *
  generalize bulkoutMaxPktsize speed = m at *
  set payload := data ++ cs with hpayload
  have hlen : payload.length = data.length + 2 := by rw [hpayload, List.length_append, hcs]
  have hframe : frame head data cs = head ++ le32 (payload.length + 8) ++ payload := by
    rw [frame, hlen, List.append_assoc _ data]
  have hfront : (head ++ le32 (payload.length + 8)).length = 8 := by
    rw [List.length_append, hhead, le32_length]
  have hframelen : (frame head data cs).length = data.length + 10 := by
    rw [hframe, List.length_append, hfront, hlen]
    omega
  generalize hf : frame head data cs = f at hcut hframe hframelen
  cases hcut with
  | last p hne hle =>
    -- the only packet is the first one, and that never ends the transfer
    refine iff_of_false (fun hrec => ?_) (by omega)
    obtain ⟨-, -, hstill⟩ := pktReceive_first hdn hfifo hframe hhead (by omega) (by omega)
      (List.append_nil payload).symm haddr (by omega)
    have htrue := (hrec.done 1 (Nat.le_refl 1)).mpr rfl
    rw [List.take_succ_cons, run_cons, List.take_nil, run_nil, hstill, hdone] at htrue
    exact Bool.false_ne_true htrue
  | full p hplen hcut =>
    rename_i rest ps
    have hrest := List.length_pos_of_ne_nil (hcut.bytes_ne_nil (by omega))
    rw [List.length_append] at hframelen
    refine iff_of_true ?_ (by omega)
    obtain ⟨body, hbytes, hsplit⟩ := first_split hframe.symm (by omega)
    have hbody : p.bytes.length = body.length + 8 := by
      rw [hbytes, List.length_append, hfront, Nat.add_comm]
    obtain ⟨hl, hstores, hstill⟩ := pktReceive_first hdn hfifo hbytes hhead (by omega) (by omega)
      hsplit haddr (by omega)
    have hdrop : payload.drop body.length = rest := by rw [hsplit, List.drop_left]
    have hnext := received_of_loaded (by omega) hm' haddr (by omega) hpayload hcs hcut _ _ hl hdrop
      (hstill.trans hdone)
    rw [← hbody, ← Nat.zero_add p.bytes.length] at hnext
    apply Received.cons hplen hdone _ hnext
    rw [hbody, Nat.zero_sub, Nat.zero_add, Nat.add_right_comm, Nat.add_sub_cancel]
    exact hstores

/-- The device before the command. -/
def idle : Otg := ⟨0, 0, 0, 0, 0, 0, 0, 0, false, [], ⟨fun _ => 0, []⟩⟩

/-- A frame that fills a full-speed packet and six bytes of a second one. -/
def sixtyBytes : List OutPacket :=
  [⟨(frame [0, 0, 0, 0xc0] (List.replicate 60 1) [60, 0]).take 64, fun _ => 0⟩,
    ⟨(frame [0, 0, 0, 0xc0] (List.replicate 60 1) [60, 0]).drop 64, fun _ => 0⟩]

theorem received_sixtyBytes :
    Received (bulkoutMaxPktsize .full) (doUsbdDnw idle none).usbdDnAddr (List.replicate 60 1) 0
        (doUsbdDnw idle none) sixtyBytes ↔
      bulkoutMaxPktsize .full < (List.replicate 60 (1 : UInt8)).length + 10 := by
  apply received_iff_second_packet idle none .full [0, 0, 0, 0xc0] (List.replicate 60 1) [60, 0]
    sixtyBytes rfl rfl (by decide) (by decide)
  exact .full ⟨(frame [0, 0, 0, 0xc0] (List.replicate 60 1) [60, 0]).take 64, fun _ => 0⟩ (by decide)
    (.last ⟨(frame [0, 0, 0, 0xc0] (List.replicate 60 1) [60, 0]).drop 64, fun _ => 0⟩
      (by decide) (by decide))

/-- The frame of one data byte in one packet. -/
def oneByte : OutPacket := ⟨frame [0, 0, 0, 0xc0] [1] [1, 0], fun _ => 0⟩

/-- The only packet of a short frame is handled and the transfer goes on waiting. -/
theorem oneByte_not_received :
    Cut (bulkoutMaxPktsize .high) (frame [0, 0, 0, 0xc0] [1] [1, 0]) [oneByte] ∧
      ¬ Received (bulkoutMaxPktsize .high) (doUsbdDnw idle none).usbdDnAddr [1] 0
        (doUsbdDnw idle none) [oneByte] := by
  refine ⟨.last oneByte (by decide) (by decide), fun hrec => ?_⟩
  have hwaits : (s3cUsbPktReceive (doUsbdDnw idle none) oneByte).receiveDone = false := by rfl
  have hdone := (hrec.done 1 (Nat.le_refl 1)).mpr rfl
  exact Bool.false_ne_true (hwaits.symm.trans hdone)

end Frame

end Uboot.Cpu.UsbdOtgHs
