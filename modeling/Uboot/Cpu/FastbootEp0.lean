/-
  Uboot.Cpu.FastbootEp0

  The control endpoint of the fastboot device (`cpu/arm_cortexa9/s5pc210/fastboot.c`): a setup
  packet that asks for a descriptor chooses a state, and each IN interrupt writes one packet to the
  FIFO and goes to the next state, until the state is `EP0_STATE_INIT` again.

  Only the requests for device, configuration, string and qualifier descriptors are here.  The FIFO
  takes words; the bytes that fill up a last word are left out, and so are the registers that
  start a packet.
-/

import Mathlib.Data.List.TakeDrop
import Uboot.Cpu.UsbdOtgHs
import Uboot.Lib.Run

namespace Uboot.Cpu.FastbootEp0

open Uboot.Lib Uboot.Cpu.UsbdOtgHs

-- ============================================================================
-- Descriptors
-- ============================================================================

/-- `ctrl_max_pktsize` as `fboot_usb_set_max_pktsize` sets it. -/
def ctrlMaxPktsize : UsbSpeed → Nat
  | .high => 64
  | .full => 8

/-- `HS_BULK_PKT_SIZE` and `FS_BULK_PKT_SIZE` -/
def bulkMaxPktsize : UsbSpeed → Nat
  | .high => 512
  | .full => 64

/-- `device_desc_t` as `fboot_usb_set_descriptors` fills it in. -/
def deviceDesc (speed : UsbSpeed) : List UInt8 :=
  let bcdUSB : List UInt8 := match speed with
    | .full => [0x10, 0x01]
    | .high => [0x00, 0x02]
  [0x12, 1] ++ bcdUSB ++ [0x0, 0x0, 0x0, UInt8.ofNat (ctrlMaxPktsize speed),
    0xd1, 0x18, 0x02, 0x00, 0x00, 0x01, 1, 2, 3, 0x1]

/-- `config_desc_t`; the attributes are `CONF_ATTR_DEFAULT|CONF_ATTR_SELFPOWERED`. -/
def configDesc : List UInt8 := [9, 2, 32, 0, 1, 1, 0, 0xc0, 25]

def intfDesc : List UInt8 := [9, 4, 0x0, 0x0, 2, 0xff, 0x42, 0x03, 0x0]

/-- `ep_desc_t` of a bulk endpoint. -/
def epDesc (addr : UInt8) (maxPktsize : Nat) : List UInt8 :=
  [7, 5, addr, 0x2, UInt8.ofNat maxPktsize, UInt8.ofNat (maxPktsize / 256), 0x0]

/-- What stands in `fboot_otg.desc` from `config` on. -/
def configDescs (speed : UsbSpeed) : List UInt8 :=
  configDesc ++ intfDesc ++ epDesc 0x81 (bulkMaxPktsize speed) ++ epDesc 0x02 (bulkMaxPktsize speed)

def stringDesc0 : List UInt8 := [4, 3, 0x09, 0x04]

/-- Manufacturer, "Google, Inc" -/
def stringDesc1 : List UInt8 :=
  [0x18, 3, 0x47, 0, 0x6f, 0, 0x6f, 0, 0x67, 0, 0x6c, 0, 0x65, 0, 0x2c, 0, 0x20, 0, 0x49, 0, 0x6e, 0, 0x63, 0]

/-- Product, "Android 1.0" -/
def stringDesc2 : List UInt8 :=
  [0x18, 3, 0x41, 0, 0x6e, 0, 0x64, 0, 0x72, 0, 0x6f, 0, 0x69, 0, 0x64, 0, 0x20, 0, 0x31, 0, 0x2e, 0, 0x30, 0]

/-- Test Serial ID, "SMDKC210-01" -/
def stringDesc3 : List UInt8 :=
  [0x18, 3, 0x53, 0, 0x4d, 0, 0x44, 0, 0x4b, 0, 0x43, 0, 0x32, 0, 0x31, 0, 0x30, 0, 0x2d, 0, 0x30, 0, 0x31, 0]

def qualifierDesc : List UInt8 := [0x0a, 0x06, 0x00, 0x02, 0xff, 0x42, 0x03, 64, 0x01, 0x00]

def deviceDescSize : Nat := 18

def configDescSize : Nat := 9

/-- `CONFIG_DESC_SIZE+INTERFACE_DESC_SIZE+ENDPOINT_DESC_SIZE*2` -/
def configDescTotalSize : Nat := 9 + 9 + 7 * 2

def fsCtrlPktSize : Nat := 8

theorem deviceDesc_length (speed : UsbSpeed) : (deviceDesc speed).length = deviceDescSize := by cases speed <;> rfl

theorem configDescs_length (speed : UsbSpeed) : (configDescs speed).length = configDescTotalSize := by cases speed <;> rfl

-- ============================================================================
-- The state machine
-- ============================================================================

/-- The states of `enum EP0_STATE` that these requests go through. -/
inductive Ep0State where
  | init
  | gdDev0 | gdDev1 | gdDev2
  | gdCfg0 | gdCfg1 | gdCfg2 | gdCfg3 | gdCfg4
  | gdStrI0 | gdStrI1 | gdStrI2 | gdStrI3
  | gdDevQualifier
  | gdCfgOnly0 | gdCfgOnly1
  deriving DecidableEq, Repr

/-- The fields of `fboot_otg` that the control endpoint uses, and the bytes written to its FIFO. -/
structure Otg where
  ep0State : Ep0State
  ep0Substate : Nat
  speed : UsbSpeed
  reqLength : Nat
  fifo : List UInt8

/-- `device_req_t` -/
structure DeviceReq where
  bmRequestType : UInt8
  bRequest : UInt8
  wValueL : UInt8
  wValueH : UInt8
  wIndexL : UInt8
  wIndexH : UInt8
  wLengthL : UInt8
  wLengthH : UInt8
  deriving DecidableEq, Repr

def DeviceReq.wLength (req : DeviceReq) : Nat := req.wLengthH.toNat * 256 + req.wLengthL.toNat

/-- `fboot_usb_get_desc`.  The strings leave `req_length` as it was. -/
def fbootUsbGetDesc (o : Otg) (req : DeviceReq) : Otg :=
  match req.wValueH with
  | 1 => { o with reqLength := req.wLength, ep0State := .gdDev0 }
  | 2 => { o with
      reqLength := req.wLength
      ep0State := if req.wLength > configDescSize then .gdCfg0 else .gdCfgOnly0 }
  | 3 =>
    match req.wValueL with
    | 0 => { o with ep0State := .gdStrI0 }
    | 1 => { o with ep0State := .gdStrI1 }
    | 2 => { o with ep0State := .gdStrI2 }
    | 3 => { o with ep0State := .gdStrI3 }
    | _ => o
  | 6 => { o with reqLength := req.wLength, ep0State := .gdDevQualifier }
  | _ => o

/-- `fboot_usb_ep0_int_hndlr` on a setup packet; `STANDARD_GET_DESCRIPTOR` is 6. -/
def fbootUsbEp0IntHndlr (o : Otg) (req : DeviceReq) : Otg :=
  if o.ep0State = .init ∧ req.bRequest = 6 then fbootUsbGetDesc o req else o

/-- `fboot_usb_write_ep0_fifo(buf + off, num)`, then the next state. -/
def Otg.write (o : Otg) (buf : List UInt8) (off num : Nat) (next : Ep0State) : Otg :=
  { o with fifo := o.fifo ++ (buf.drop off).take num, ep0State := next }

/-- A state that sends the next packet of a string. -/
def strPacket (o : Otg) (desc : List UInt8) (next : Ep0State) : Otg :=
  let pktsize := ctrlMaxPktsize o.speed
  let off := o.ep0Substate * pktsize
  if off + pktsize < desc.length then { o.write desc off pktsize next with ep0Substate := o.ep0Substate + 1 }
  else { o.write desc off (desc.length - off) .init with ep0Substate := 0 }

/-- `fboot_usb_transfer_ep0` -/
def fbootUsbTransferEp0 (o : Otg) : Otg :=
  let dev := deviceDesc o.speed
  let config := configDescs o.speed
  let len := o.reqLength
  let pkt := fsCtrlPktSize
  match o.ep0State with
  | .init => o
  | .gdDev0 => match o.speed with
    | .high => if len < deviceDescSize then o.write dev 0 len .init else o.write dev 0 deviceDescSize .init
    | .full => if len < pkt then o.write dev 0 len .init else o.write dev 0 pkt .gdDev1
  | .gdDev1 => if len < 2 * pkt then o.write dev pkt (len - pkt) .init else o.write dev pkt pkt .gdDev2
  | .gdDev2 =>
    if len < deviceDescSize then o.write dev (2 * pkt) (len - 2 * pkt) .init
    else o.write dev (2 * pkt) (deviceDescSize - 2 * pkt) .init
  | .gdCfg0 => match o.speed with
    | .high => if len < configDescTotalSize then o.write config 0 len .init else o.write config 0 configDescTotalSize .init
    | .full => if len < pkt then o.write config 0 len .init else o.write config 0 pkt .gdCfg1
  | .gdCfg1 => if len < 2 * pkt then o.write config pkt (len - pkt) .init else o.write config pkt pkt .gdCfg2
  | .gdCfg2 => if len < 3 * pkt then o.write config (2 * pkt) (len - 2 * pkt) .init else o.write config (2 * pkt) pkt .gdCfg3
  | .gdCfg3 => if len < 4 * pkt then o.write config (3 * pkt) (len - 3 * pkt) .init else o.write config (3 * pkt) pkt .gdCfg4
  | .gdCfg4 => { o with ep0State := .init }
  | .gdDevQualifier => if len < 10 then o.write qualifierDesc 0 len .init else o.write qualifierDesc 0 10 .init
  | .gdCfgOnly0 => match o.speed with
    | .high => if len < configDescSize then o.write config 0 len .init else o.write config 0 configDescSize .init
    | .full => if len < pkt then o.write config 0 len .init else o.write config 0 pkt .gdCfgOnly1
  | .gdCfgOnly1 => o.write config pkt (configDescSize - pkt) .init
  | .gdStrI0 => o.write stringDesc0 0 stringDesc0.length .init
  | .gdStrI1 => strPacket o stringDesc1 .gdStrI1
  | .gdStrI2 => strPacket o stringDesc2 .gdStrI2
  -- after the first packet the state is that of the first string
  | .gdStrI3 => strPacket o stringDesc3 .gdStrI1

/-- IN interrupts, at most `n`, until the state is `EP0_STATE_INIT`. -/
def inInterrupts : Nat → Otg → Otg
  | 0, o => o
  | n + 1, o => if o.ep0State = .init then o else inInterrupts n (fbootUsbTransferEp0 o)

/-- A request, with the IN interrupts for it: the bytes written to the FIFO. -/
def getDescriptor (o : Otg) (req : DeviceReq) : Otg × List UInt8 :=
  let o := inInterrupts 5 (fbootUsbEp0IntHndlr { o with fifo := [] } req)
  (o, o.fifo)

-- ============================================================================
-- One descriptor
-- ============================================================================

/-- The descriptors that are asked for. -/
inductive Descriptor where
  | device
  | configuration
  | string (index : Fin 4)
  | qualifier
  deriving DecidableEq, Repr

def Descriptor.bytes (speed : UsbSpeed) : Descriptor → List UInt8
  | .device => deviceDesc speed
  | .configuration => configDescs speed
  | .string 0 => stringDesc0
  | .string 1 => stringDesc1
  | .string 2 => stringDesc2
  | .string 3 => stringDesc3
  | .qualifier => qualifierDesc

/-- What a setup packet asks for. -/
def DeviceReq.asked (req : DeviceReq) : Option Descriptor :=
  if req.bRequest = 6 then
    match req.wValueH with
    | 1 => some .device
    | 2 => some .configuration
    | 3 =>
      match req.wValueL with
      | 0 => some (.string 0)
      | 1 => some (.string 1)
      | 2 => some (.string 2)
      | 3 => some (.string 3)
      | _ => none
    | 6 => some .qualifier
    | _ => none
  else none

section Chains

variable {sub len : Nat} {speed : UsbSpeed} {fifo : List UInt8}

/-- A piece and the piece behind it. -/
theorem append_piece (l : List UInt8) (i k : Nat) : fifo ++ l.take i ++ (l.drop i).take k = fifo ++ l.take (i + k) := by
  rw [List.append_assoc, ← List.take_add]

theorem take_le {l : List UInt8} {n : Nat} (hn : l.length = n) (hlen : n ≤ len) : l.take n = l.take len := by
  rw [List.take_of_length_le hn.le, List.take_of_length_le (hn.le.trans hlen)]

/-- The device descriptor: one packet on a fast bus, up to three on a slow one. -/
theorem device_sent : inInterrupts 5 ⟨.gdDev0, sub, speed, len, fifo⟩ =
    ⟨.init, sub, speed, len, fifo ++ (deviceDesc speed).take len⟩ := by
  have hwhole : 18 ≤ len → (deviceDesc speed).take 18 = (deviceDesc speed).take len := take_le (deviceDesc_length speed)
  cases speed with
  | high =>
    by_cases h18 : len < 18
    · simp [inInterrupts, fbootUsbTransferEp0, Otg.write, deviceDescSize, h18]
    · simp [inInterrupts, fbootUsbTransferEp0, Otg.write, deviceDescSize, h18, hwhole (Nat.not_lt.1 h18)]
  | full =>
    by_cases h8 : len < 8
    · simp [inInterrupts, fbootUsbTransferEp0, Otg.write, fsCtrlPktSize, h8]
    by_cases h16 : len < 16
    · have hsum : 8 + (len - 8) = len := by omega
      simp [inInterrupts, fbootUsbTransferEp0, Otg.write, fsCtrlPktSize, h8, h16, append_piece, hsum, -List.append_assoc]
    by_cases h18 : len < 18
    · have hsum : 16 + (len - 16) = len := by omega
      simp [inInterrupts, fbootUsbTransferEp0, Otg.write, fsCtrlPktSize, deviceDescSize, h8, h16, h18, append_piece, hsum,
        -List.append_assoc]
    · simp [inInterrupts, fbootUsbTransferEp0, Otg.write, fsCtrlPktSize, deviceDescSize, h8, h16, h18, append_piece,
        hwhole (Nat.not_lt.1 h18), -List.append_assoc]

/-- The configuration with its interface and endpoints: up to five interrupts on a slow bus. -/
theorem config_sent : inInterrupts 5 ⟨.gdCfg0, sub, speed, len, fifo⟩ =
    ⟨.init, sub, speed, len, fifo ++ (configDescs speed).take len⟩ := by
  have hwhole : 32 ≤ len → (configDescs speed).take 32 = (configDescs speed).take len :=
    take_le (configDescs_length speed)
  cases speed with
  | high =>
    by_cases h32 : len < 32
    · simp [inInterrupts, fbootUsbTransferEp0, Otg.write, configDescTotalSize, h32]
    · simp [inInterrupts, fbootUsbTransferEp0, Otg.write, configDescTotalSize, h32, hwhole (Nat.not_lt.1 h32)]
  | full =>
    by_cases h8 : len < 8
    · simp [inInterrupts, fbootUsbTransferEp0, Otg.write, fsCtrlPktSize, h8]
    by_cases h16 : len < 16
    · have hsum : 8 + (len - 8) = len := by omega
      simp [inInterrupts, fbootUsbTransferEp0, Otg.write, fsCtrlPktSize, h8, h16, append_piece, hsum, -List.append_assoc]
    by_cases h24 : len < 24
    · have hsum : 16 + (len - 16) = len := by omega
      simp [inInterrupts, fbootUsbTransferEp0, Otg.write, fsCtrlPktSize, h8, h16, h24, append_piece, hsum,
        -List.append_assoc]
    by_cases h32 : len < 32
    · have hsum : 24 + (len - 24) = len := by omega
      simp [inInterrupts, fbootUsbTransferEp0, Otg.write, fsCtrlPktSize, h8, h16, h24, h32, append_piece, hsum,
        -List.append_assoc]
    · simp [inInterrupts, fbootUsbTransferEp0, Otg.write, fsCtrlPktSize, h8, h16, h24, h32, append_piece,
        hwhole (Nat.not_lt.1 h32), -List.append_assoc]

/-- How much of the configuration is sent.  On a slow bus the second packet of the configuration alone
    does not look at the length: 8 bytes asked for are 9 bytes sent. -/
def configSent : UsbSpeed → Nat → Nat
  | .high, len => len
  | .full, len => if len = 8 then 9 else len

/-- The configuration alone, for a length up to 9. -/
theorem configOnly_sent (hlen : len ≤ 9) : inInterrupts 5 ⟨.gdCfgOnly0, sub, speed, len, fifo⟩ =
    ⟨.init, sub, speed, len, fifo ++ (configDescs speed).take (configSent speed len)⟩ := by
  cases speed with
  | high =>
    by_cases h9 : len < 9
    · simp [configSent, inInterrupts, fbootUsbTransferEp0, Otg.write, configDescSize, h9]
    · obtain rfl : len = 9 := by omega
      simp [configSent, inInterrupts, fbootUsbTransferEp0, Otg.write, configDescSize]
  | full =>
    by_cases h8 : len < 8
    · have hne : len ≠ 8 := by omega
      simp [configSent, inInterrupts, fbootUsbTransferEp0, Otg.write, fsCtrlPktSize, h8, hne]
    · obtain rfl | rfl : len = 8 ∨ len = 9 := by omega
      · simp [configSent, inInterrupts, fbootUsbTransferEp0, Otg.write, fsCtrlPktSize, configDescSize, append_piece,
          -List.append_assoc]
      · simp [configSent, inInterrupts, fbootUsbTransferEp0, Otg.write, fsCtrlPktSize, configDescSize, append_piece,
          -List.append_assoc]

theorem qualifier_sent : inInterrupts 5 ⟨.gdDevQualifier, sub, speed, len, fifo⟩ =
    ⟨.init, sub, speed, len, fifo ++ qualifierDesc.take len⟩ := by
  have hwhole : 10 ≤ len → qualifierDesc.take 10 = qualifierDesc.take len := take_le rfl
  by_cases h10 : len < 10
  · simp [inInterrupts, fbootUsbTransferEp0, Otg.write, h10]
  · simp [inInterrupts, fbootUsbTransferEp0, Otg.write, h10, hwhole (Nat.not_lt.1 h10)]

/-- What is sent of a string, whatever the length asked for: all of it, but of the third one only the
    first packet, and then the rest of the first string. -/
def stringSent (speed : UsbSpeed) : Fin 4 → List UInt8
  | 0 => stringDesc0
  | 1 => stringDesc1
  | 2 => stringDesc2
  | 3 => match speed with
    | .high => stringDesc3
    | .full => stringDesc3.take 8 ++ stringDesc1.drop 8

/-- The state for a string. -/
def stringState : Fin 4 → Ep0State
  | 0 => .gdStrI0
  | 1 => .gdStrI1
  | 2 => .gdStrI2
  | 3 => .gdStrI3

theorem string_sent (index : Fin 4) : inInterrupts 5 ⟨stringState index, 0, speed, len, fifo⟩ =
    ⟨.init, 0, speed, len, fifo ++ stringSent speed index⟩ := by
  match index with
  | 0 => simp [inInterrupts, fbootUsbTransferEp0, Otg.write, stringState, stringSent]
  | 1 =>
    cases speed <;> simp [inInterrupts, fbootUsbTransferEp0, strPacket, Otg.write, stringState, stringSent,
      ctrlMaxPktsize, stringDesc1]
  | 2 =>
    cases speed <;> simp [inInterrupts, fbootUsbTransferEp0, strPacket, Otg.write, stringState, stringSent,
      ctrlMaxPktsize, stringDesc2]
  | 3 =>
    cases speed <;> simp [inInterrupts, fbootUsbTransferEp0, strPacket, Otg.write, stringState, stringSent,
      ctrlMaxPktsize, stringDesc1, stringDesc3]

end Chains

-- ============================================================================
-- Requests
-- ============================================================================

/-- What is sent for a descriptor that is asked for with a length. -/
def Descriptor.sent (speed : UsbSpeed) (len : Nat) : Descriptor → List UInt8
  | .device => (deviceDesc speed).take len
  | .configuration => (configDescs speed).take (configSent speed len)
  | .string index => stringSent speed index
  | .qualifier => qualifierDesc.take len

/-- Nothing is being sent. -/
structure Otg.Ready (o : Otg) (speed : UsbSpeed) : Prop where
  state : o.ep0State = .init
  substate : o.ep0Substate = 0
  speed_eq : o.speed = speed

/-- The requests of which the descriptor is sent as far as it was asked for. -/
def Descriptor.Served (speed : UsbSpeed) (len : Nat) : Descriptor → Prop
  | .device => True
  | .configuration => speed = .high ∨ len ≠ 8
  | .string 0 => 4 ≤ len
  | .string 1 => 24 ≤ len
  | .string 2 => 24 ≤ len
  | .string 3 => speed = .high ∧ 24 ≤ len
  | .qualifier => True

theorem configSent_eq (speed : UsbSpeed) (len : Nat) :
    inInterrupts 5 ⟨if len > configDescSize then .gdCfg0 else .gdCfgOnly0, 0, speed, len, []⟩ =
      ⟨.init, 0, speed, len, Descriptor.configuration.sent speed len⟩ := by
  by_cases hlen : len > configDescSize
  · have hall : configSent speed len = len := by
      have hne : len ≠ 8 := by rintro rfl; exact absurd hlen (by decide)
      cases speed <;> simp [configSent, hne]
    rw [if_pos hlen, config_sent, Descriptor.sent, hall, List.nil_append]
  · rw [if_neg hlen, configOnly_sent (Nat.not_lt.1 hlen), Descriptor.sent, List.nil_append]

/-- What a request for a descriptor makes of the state. -/
theorem fbootUsbEp0IntHndlr_asked {o : Otg} {req : DeviceReq} {d : Descriptor} (ho : o.ep0State = .init)
    (hd : req.asked = some d) :
    fbootUsbEp0IntHndlr o req = match d with
      | .device => { o with reqLength := req.wLength, ep0State := .gdDev0 }
      | .configuration => { o with
          reqLength := req.wLength
          ep0State := if req.wLength > configDescSize then .gdCfg0 else .gdCfgOnly0 }
      | .string index => { o with ep0State := stringState index }
      | .qualifier => { o with reqLength := req.wLength, ep0State := .gdDevQualifier } := by
  simp only [DeviceReq.asked] at hd
  split at hd
  case isFalse => cases hd
  rename_i hreq
  rw [fbootUsbEp0IntHndlr, if_pos ⟨ho, hreq⟩]
  simp only [fbootUsbGetDesc]
  split at hd <;> try cases hd
  · simp [*]
  · simp [*]
  · rename_i hvalue
    split at hd <;> cases hd <;> simp [*, stringState]
  · simp [*]

/-- One request: `EP0_STATE_INIT` is reached again, whatever was asked for. -/
theorem getDescriptor_sent {o : Otg} {speed : UsbSpeed} {req : DeviceReq} {d : Descriptor} (ho : o.Ready speed)
    (hd : req.asked = some d) :
    (getDescriptor o req).1.Ready speed ∧ (getDescriptor o req).2 = d.sent speed req.wLength := by
  obtain ⟨state, sub, speed', len, fifo⟩ := o
  obtain ⟨hstate, hsub, hspeed⟩ := ho
  dsimp only at hstate hsub hspeed
  subst hstate hsub hspeed
  rw [getDescriptor, fbootUsbEp0IntHndlr_asked rfl hd]
  cases d with
  | device =>
    dsimp only
    rw [device_sent]
    exact ⟨⟨rfl, rfl, rfl⟩, rfl⟩
  | configuration =>
    dsimp only
    rw [configSent_eq]
    exact ⟨⟨rfl, rfl, rfl⟩, rfl⟩
  | string index =>
    dsimp only
    rw [string_sent]
    exact ⟨⟨rfl, rfl, rfl⟩, rfl⟩
  | qualifier =>
    dsimp only
    rw [qualifier_sent]
    exact ⟨⟨rfl, rfl, rfl⟩, rfl⟩

/-- On a slow bus the third string goes on as the first. -/
theorem mixed_ne (len : Nat) : stringSent .full 3 ≠ stringDesc3.take len := by
  intro h
  have hlen : 24 ≤ len := by
    have hlengths := congrArg List.length h
    simp only [List.length_take] at hlengths
    change 24 = min len 24 at hlengths
    omega
  rw [List.take_of_length_le hlen] at h
  exact absurd h (by decide)

theorem sent_eq_iff (speed : UsbSpeed) (len : Nat) (d : Descriptor) :
    d.sent speed len = (d.bytes speed).take len ↔ d.Served speed len := by
  have hwhole : ∀ l : List UInt8, l = l.take len ↔ l.length ≤ len := fun l => List.take_self_eq_iff l
  match d with
  | .device | .qualifier => simp [Descriptor.sent, Descriptor.bytes, Descriptor.Served]
  | .configuration =>
    cases speed with
    | high => simp [Descriptor.sent, Descriptor.bytes, Descriptor.Served, configSent]
    | full =>
      by_cases h8 : len = 8
      · subst h8
        have hmore : (configDescs .full).take 9 ≠ (configDescs .full).take 8 := by decide
        simp [Descriptor.sent, Descriptor.bytes, Descriptor.Served, configSent, hmore]
      · simp [Descriptor.sent, Descriptor.bytes, Descriptor.Served, configSent, h8]
  | .string 0 => exact hwhole stringDesc0
  | .string 1 => exact hwhole stringDesc1
  | .string 2 => exact hwhole stringDesc2
  | .string 3 =>
    cases speed with
    | high => exact (hwhole stringDesc3).trans (by simp [Descriptor.Served, stringDesc3])
    | full => simpa [Descriptor.sent, Descriptor.bytes, Descriptor.Served] using mixed_ne len

/-- The answer to a request is the descriptor, cut at the length asked for. -/
def Answered (speed : UsbSpeed) (req : DeviceReq) (bytes : List UInt8) : Prop :=
  ∀ d, req.asked = some d → bytes = (d.bytes speed).take req.wLength

/-- The descriptor a request asks for is sent as asked. -/
def DeviceReq.Served (speed : UsbSpeed) (req : DeviceReq) : Prop :=
  ∀ d, req.asked = some d → d.Served speed req.wLength

theorem getDescriptor_ready {o : Otg} {speed : UsbSpeed} {req : DeviceReq} (ho : o.Ready speed)
    (hreq : req.asked.isSome) : (getDescriptor o req).1.Ready speed := by
  obtain ⟨d, hd⟩ := Option.isSome_iff_exists.1 hreq
  exact (getDescriptor_sent ho hd).1

theorem answered_iff {o : Otg} {speed : UsbSpeed} {req : DeviceReq} (ho : o.Ready speed)
    (hreq : req.asked.isSome) : Answered speed req (getDescriptor o req).2 ↔ req.Served speed := by
  obtain ⟨d, hd⟩ := Option.isSome_iff_exists.1 hreq
  rw [Answered, DeviceReq.Served, (getDescriptor_sent ho hd).2]
  simp only [hd, Option.some.injEq, forall_eq', sent_eq_iff]

/-- **Control transfers.** Over every sequence of requests for the descriptors the control endpoint is
    idle again after each, and all are answered just when none of them asks for a string with a length
    short of it, for the third string on a slow bus, or for 8 bytes of the configuration there. -/
theorem getDescriptor_answered_iff {o : Otg} {speed : UsbSpeed} {reqs : List DeviceReq} (ho : o.Ready speed)
    (hreqs : ∀ req ∈ reqs, req.asked.isSome) :
    (∀ k, (after getDescriptor o (reqs.take k)).ep0State = .init) ∧
      (List.Forall₂ (Answered speed) reqs (answers getDescriptor o reqs) ↔ ∀ req ∈ reqs, req.Served speed) := by
  have hstep : ∀ o req, o.Ready speed → req.asked.isSome → (getDescriptor o req).1.Ready speed :=
    fun _ _ hs hi => getDescriptor_ready hs hi
  refine ⟨fun k => ?_, ?_⟩
  · have hguard : Guarded (fun s i => (getDescriptor s i).1) (fun _ req => req.asked.isSome) o (reqs.take k) := by
      apply guarded_of_forall
      exact fun req hreq => hreqs req (List.mem_of_mem_take hreq)
    exact (run_invariant hstep ho hguard).state
  · apply answers_forall₂_iff hstep _ ho hreqs
    exact fun _ _ hs hi => answered_iff hs hi

/-- The state after a bus reset. -/
def idle (speed : UsbSpeed) : Otg := ⟨.init, 0, speed, 0, []⟩

/-- A request for a descriptor with a length below 256. -/
def getDescriptorReq (value index len : UInt8) : DeviceReq := ⟨0x80, 6, index, value, 0, 0, len, 0⟩

/-- The device descriptor and the serial number on a fast bus. -/
theorem getDescriptor_answered_serial :
    (∀ k, (after getDescriptor (idle .high)
        ([getDescriptorReq 1 0 18, getDescriptorReq 3 3 255].take k)).ep0State = .init) ∧
      (List.Forall₂ (Answered .high) [getDescriptorReq 1 0 18, getDescriptorReq 3 3 255]
          (answers getDescriptor (idle .high) [getDescriptorReq 1 0 18, getDescriptorReq 3 3 255]) ↔
        ∀ req ∈ [getDescriptorReq 1 0 18, getDescriptorReq 3 3 255], req.Served .high) :=
  getDescriptor_answered_iff ⟨rfl, rfl, rfl⟩ (by decide)

/-- The serial number on a slow bus: its first packet, then the rest of the manufacturer. -/
theorem serial_mixed : (getDescriptorReq 3 3 255).asked = some (.string 3) ∧
    ¬List.Forall₂ (Answered .full) [getDescriptorReq 3 3 255]
      (answers getDescriptor (idle .full) [getDescriptorReq 3 3 255]) := by
  refine ⟨rfl, fun h => ?_⟩
  have hfirst := (List.forall₂_cons.1 h).1
  exact absurd (hfirst (.string 3) rfl) (by decide)

end Uboot.Cpu.FastbootEp0
