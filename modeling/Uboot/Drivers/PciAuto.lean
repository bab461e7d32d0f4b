/-
  Uboot.Drivers.PciAuto

  PCI enumeration (`drivers/pci/pci_auto.c` and the scan of `drivers/pci/pci.c`):
  `pci_hose_scan` walks a bus function by function, gives every base address register
  a range of the host's memory, prefetchable or I/O region, and at a bridge opens
  the bridge's windows, scans the bus behind it and closes the windows.

  A bus is the list of the functions that answer on it, in the order the scan meets
  them; a function holds what it answers: for each base address register the
  value read back after all ones were written, zero for one it does not have.
  Addresses and sizes are `u32` (no `CONFIG_SYS_PCI_64BIT`).  There is no table of
  fixed configurations, so that every function goes to `pciauto_config_device`;
  interrupt routing and the constants written to the cache line and latency registers
  are left out.
-/

import Uboot.Lib.Align
import Uboot.Lib.Mem
import Mathlib.Logic.Function.Basic

namespace Uboot.Drivers.PciAuto

open Uboot.Lib

-- ============================================================================
-- Regions
-- ============================================================================

/-- The regions a hose allocates from: `pci_mem`, `pci_prefetch` and `pci_io`. -/
inductive Space where
  | mem
  | pref
  | io
  deriving DecidableEq, Repr

/-- The granularity of a bridge's window, as a power of two. -/
def Space.shift : Space → Nat
  | .mem => 20
  | .pref => 20
  | .io => 12

/-- Two spaces share their addresses. -/
def Space.Shares (s s' : Space) : Prop := s = .io ↔ s' = .io

instance (s s' : Space) : Decidable (s.Shares s') := inferInstanceAs (Decidable (_ ↔ _))

/-- The fields of `struct pci_region` that the allocator reads. -/
structure PciRegion where
  busStart : Nat
  size : Nat
  flags : Nat
  busLower : Nat
  deriving DecidableEq, Repr

/-- The first address behind the region. -/
def PciRegion.busEnd (res : PciRegion) : Nat := res.busStart + res.size

/-- Address 0 is avoided. -/
def pciautoRegionInit (res : PciRegion) : PciRegion :=
  { res with busLower := if res.busStart = 0 then 0x1000 else res.busStart }

/-- `((lower - 1) | (size - 1)) + 1` -/
def roundUp (lower size : Nat) : Nat := u32 ((usub lower 1 ||| usub size 1) + 1)

def pciautoRegionAlign (res : PciRegion) (size : Nat) : PciRegion :=
  { res with busLower := roundUp res.busLower size }

/-- The address and the region behind it, or `none` for the error return. -/
def pciautoRegionAllocate (res : Option PciRegion) (size : Nat) : Option (Nat × PciRegion) :=
  match res with
  | none => none
  | some res =>
    let addr := roundUp res.busLower size
    if res.size < u32 (usub addr res.busStart + size) then none
    else some (addr, { res with busLower := u32 (addr + size) })

/-- `struct pci_controller`: the regions of the board, the bus numbers, and the regions chosen
    among those of the board (held by value: no two spaces choose the same one). -/
structure Hose where
  firstBusno : Nat
  currentBusno : Nat
  regions : List PciRegion
  region : Space → Option PciRegion

def regionFlags : Space → Nat
  | .mem => 0x0
  | .pref => 0x0 ||| 0x8
  | .io => 0x1

/-- One case of the switch: the largest region of a kind is kept. -/
def chooseRegion (flags : Nat) (chosen : Option PciRegion) (res : PciRegion) : Option PciRegion :=
  if res.flags ≠ flags then chosen
  else match chosen with
    | none => some res
    | some old => if old.size < res.size then some res else some old

/-- `pci_prefetch` alone is not reset. -/
def pciautoConfigInit (hose : Hose) : Hose :=
  { hose with region := fun s =>
      let start := match s with
        | .pref => hose.region .pref
        | _ => none
      (hose.regions.foldl (chooseRegion (regionFlags s)) start).map pciautoRegionInit }

-- ============================================================================
-- Base address registers
-- ============================================================================

/-- A base address register that was found: what it answered, and the address written to it
    unless the allocation failed. -/
structure BarRange where
  space : Space
  response : Nat
  value : Option Nat
  deriving DecidableEq, Repr

/-- Bit 0 of the answer, `PCI_BASE_ADDRESS_SPACE`. -/
def isIo (response : Nat) : Bool := response &&& 0x1 != 0

/-- `PCI_BASE_ADDRESS_MEM_TYPE_64` -/
def isMem64 (response : Nat) : Bool := !isIo response && response &&& 0x6 == 0x4

/-- The region for an answer: `pci_prefetch` only where the board has one. -/
def barSpace (prefetch : Bool) (response : Nat) : Space :=
  if isIo response then .io
  else if prefetch && response &&& 0x8 != 0 then .pref
  else .mem

/-- The size the source reads off an answer; of a 64-bit one the low half decides, as
    `pci_size_t` keeps 32 bits. -/
def barSize (response : Nat) : Nat :=
  if isIo response then ((0xffffffff - (response &&& 0xfffffffc)) &&& 0xffff) + 1
  else u32 (0xffffffff - (response &&& 0xfffffff0) + 1)

def Hose.setRegion (hose : Hose) (s : Space) (res : PciRegion) : Hose :=
  { hose with region := Function.update hose.region s (some res) }

/-- The loop over the registers; `upper` marks the upper half of a 64-bit register that has
    just been given its range. -/
def setupBars : List Nat → Bool → Hose → List BarRange × Hose
  | [], _, hose => ([], hose)
  | response :: rest, upper, hose =>
    if upper || response == 0 then setupBars rest false hose
    else
      let space := barSpace (hose.region .pref).isSome response
      match pciautoRegionAllocate (hose.region space) (barSize response) with
      | some (addr, res) =>
        let tail := setupBars rest (isMem64 response) (hose.setRegion space res)
        (⟨space, response, some addr⟩ :: tail.1, tail.2)
      | none =>
        let tail := setupBars rest false hose
        (⟨space, response, none⟩ :: tail.1, tail.2)

/-- The `PCI_COMMAND` bit that goes with a register. -/
def commandBit (space : Space) : Nat := if space = .io then 0x1 else 0x2

/-- The ranges given, and the value written to `PCI_COMMAND`. -/
def pciautoSetupDevice (hose : Hose) (command : Nat) (bars : List Nat) (barsNum : Nat) :
    (List BarRange × Nat) × Hose :=
  let cmdstat := (command &&& 0xfffffffc) ||| 0x4
  let given := setupBars (bars.take barsNum) false hose
  ((given.1, given.1.foldl
    (fun cmd b => if b.value.isSome then cmd ||| commandBit b.space else cmd) cmdstat), given.2)

-- ============================================================================
-- Bridges
-- ============================================================================

/-- The registers of a bridge: bus numbers, command, and for each space the base and the limit
    with its upper half, where the scan has written them. -/
structure BridgeRegs where
  primary : Nat
  secondary : Nat
  subordinate : Nat
  command : Nat
  base : Space → Option (Nat × Nat)
  limit : Space → Option (Nat × Nat)

/-- A bus number as it goes into its byte. -/
def busByte (hose : Hose) (bus : Nat) : Nat := usub bus hose.firstBusno % 256

/-- Base register and its upper half for a window from `lower` on. -/
def baseRegs (s : Space) (lower : Nat) : Nat × Nat :=
  if s = .io then ((lower &&& 0x0000f000) >>> 8, (lower &&& 0xffff0000) >>> 16)
  else ((lower &&& 0xfff00000) >>> 16, 0)

/-- Limit register and its upper half for a window that ends before `lower`. -/
def limitRegs (s : Space) (lower : Nat) : Nat × Nat :=
  if s = .io then ((usub lower 1 &&& 0x0000f000) >>> 8, (usub lower 1 &&& 0xffff0000) >>> 16)
  else (usub lower 1 >>> 16, 0)

/-- Every region rounded up to the granularity of its windows. -/
def alignRegions (hose : Hose) : Hose :=
  { hose with region := fun s => (hose.region s).map (pciautoRegionAlign · (2 ^ s.shift)) }

/-- `cmdstat |= bit` where the space has a region. -/
def enableSpace (hose : Hose) (s : Space) (command : Nat) : Nat :=
  if (hose.region s).isSome then command ||| commandBit s else command

/-- The bus numbers and the lower ends of the windows.  Without a prefetchable region that
    window is closed. -/
def pciautoPrescanSetupBridge (hose : Hose) (bus command subBus : Nat) : BridgeRegs × Hose :=
  let aligned := alignRegions hose
  let command := enableSpace hose .io (enableSpace hose .pref (enableSpace hose .mem command))
  ({ primary := busByte hose bus
     secondary := busByte hose subBus
     subordinate := 0xff
     command := command ||| 0x4
     base := fun s => match aligned.region s, s with
       | some res, s => some (baseRegs s res.busLower)
       | none, .pref => some (0x1000, 0)
       | none, _ => none
     limit := fun s => match aligned.region s, s with
       | none, .pref => some (0, 0)
       | _, _ => none }, aligned)

/-- The last bus number behind the bridge and the upper ends of the windows. -/
def pciautoPostscanSetupBridge (hose : Hose) (regs : BridgeRegs) (subBus : Nat) :
    BridgeRegs × Hose :=
  let aligned := alignRegions hose
  ({ regs with
     subordinate := busByte hose subBus
     limit := fun s => match aligned.region s with
       | some res => some (limitRegs s res.busLower)
       | none => regs.limit s }, aligned)

-- ============================================================================
-- The scan
-- ============================================================================

/-- What every function answers: its place on the bus, bit 7 of `PCI_HEADER_TYPE` and
    `PCI_COMMAND`. -/
structure Header where
  devfn : Nat
  multi : Bool
  command : Nat
  deriving DecidableEq, Repr

/-- The classes that `pciauto_config_device` tells apart, bridges aside. -/
inductive DeviceClass where
  | storageIde (prgIface : Nat)
  | bridgeCardbus
  | other
  deriving DecidableEq, Repr

/-- A function on a bus; behind a bridge there is another bus. -/
inductive Func where
  | device (header : Header) (cls : DeviceClass) (bars : List Nat)
  | bridge (header : Header) (bars : List Nat) (bus : List Func)

def Func.header : Func → Header
  | .device header _ _ => header
  | .bridge header _ _ => header

/-- A function as the scan leaves it. -/
inductive Placed where
  | device (bars : List BarRange) (command : Nat)
  | bridge (bars : List BarRange) (regs : BridgeRegs) (bus : List Placed)

/-- Whether the loop of `pci_hose_scan_bus` passes a function over: 31.7 ends the loop,
    `pci_skip_dev` skips 0.0 of the first bus, and functions other than 0 belong to a device
    with several. -/
def passesOver (firstBus foundMulti : Bool) (devfn : Nat) : Bool :=
  0xff ≤ devfn || (firstBus && devfn == 0) || (devfn % 8 != 0 && !foundMulti)

mutual

/-- `pciauto_config_device`: the function set up, and its highest bus number. -/
def pciautoConfigDevice (bus : Nat) : Func → Hose → Placed × Hose × Nat
  | .device header cls bars, hose =>
    match cls with
    | .storageIde prgIface =>
      -- a controller in legacy mode is left alone
      if prgIface &&& 0x05 = 0 then (.device [] header.command, hose, bus % 256)
      else
        let given := pciautoSetupDevice hose header.command bars 6
        (.device given.1.1 given.1.2, given.2, bus % 256)
    | .bridgeCardbus =>
      let given := pciautoSetupDevice hose header.command bars 0
      (.device given.1.1 given.1.2,
        { given.2 with currentBusno := given.2.currentBusno + 1 }, bus % 256)
    | .other =>
      let given := pciautoSetupDevice hose header.command bars 6
      (.device given.1.1 given.1.2, given.2, bus % 256)
  | .bridge header bars behind, hose =>
    let subBus := hose.currentBusno + 1
    let given := pciautoSetupDevice { hose with currentBusno := subBus } header.command bars 2
    let opened := pciautoPrescanSetupBridge given.2 (bus % 256) given.1.2 subBus
    let scanned := pciHoseScanBus subBus behind false subBus opened.2
    let closed := pciautoPostscanSetupBridge scanned.2.1 opened.1 (max scanned.2.2 (bus % 256))
    (.bridge given.1.1 closed.1 scanned.1, closed.2, closed.2.currentBusno)

/-- The loop of `pci_hose_scan_bus` from a function on, with `found_multi` and `sub_bus`. -/
def pciHoseScanBus (bus : Nat) : List Func → Bool → Nat → Hose → List Placed × Hose × Nat
  | [], _, subBus, hose => ([], hose, subBus)
  | f :: fs, foundMulti, subBus, hose =>
    if passesOver (bus == hose.firstBusno) foundMulti f.header.devfn then
      pciHoseScanBus bus fs foundMulti subBus hose
    else
      let multi := if f.header.devfn % 8 = 0 then f.header.multi else foundMulti
      let placed := pciautoConfigDevice bus f hose
      let rest := pciHoseScanBus bus fs multi (max subBus placed.2.2) placed.2.1
      (placed.1 :: rest.1, rest.2)

end

/-- The hose as the scan starts. -/
def scanStart (hose : Hose) : Hose :=
  pciautoConfigInit { hose with currentBusno := max hose.firstBusno hose.currentBusno }

def pciHoseScan (hose : Hose) (bus : List Func) : List Placed × Hose × Nat :=
  let hose := scanStart hose
  pciHoseScanBus hose.currentBusno bus false hose.currentBusno hose

end Uboot.Drivers.PciAuto
