/-
  Uboot.Common.Fastboot

  The packet handler of common/cmd_fastboot.c: `rx_handler` multiplexes commands
  and the raw data of a download by the value of `download_size`; `reset_handler`
  gives up a download.

  Addresses and sizes are 32-bit.  What `rx_handler` calls outside this file (flash
  and MMC writes, `setenv`, `bootm`, console commands) is recorded as a call and may
  leave any memory and any return value.  The return value of `rx_handler`, which
  the USB driver ignores, and console output are left out.
-/

import Uboot.Lib.Run
import Uboot.Lib.Ram
import Uboot.LibGeneric.Vsprintf

namespace Uboot.Common.Fastboot

open Uboot.Lib Uboot.LibGeneric

/-! ## Constants -/

/-- `CFG_FASTBOOT_TRANSFER_BUFFER`. -/
def transferBuffer : Nat := 0x48000000

/-- `CFG_FASTBOOT_TRANSFER_BUFFER_SIZE`. -/
def transferBufferSize : Nat := 0x36000000

/-- `CFG_FASTBOOT_ADDR_KERNEL`. -/
def addrKernel : Nat := 0x40008000

/-- `CFG_FASTBOOT_ADDR_RAMDISK`. -/
def addrRamdisk : Nat := 0x40800000

/-- `CFG_FASTBOOT_MKBOOTIMAGE_PAGE_SIZE`. -/
def pageSize : Nat := 2048

/-- The first address after the transfer buffer. -/
def bufferEnd : Nat := transferBuffer + transferBufferSize

/-! ## State -/

/-- `fastboot_ptentry`.  `writeEnv` is the one flag `rx_handler` reads. -/
structure PtEntry where
  name : List UInt8
  start : Nat
  length : Nat
  writeEnv : Bool
  deriving DecidableEq, Repr

/-- `OmPin`, where the board boots from. -/
inductive OmPin
  | mmcsd
  | emmc
  | onenand
  | other
  deriving DecidableEq, Repr

/-- Calls out of `rx_handler`. -/
inductive Call
  | runCommand (cmd : String)
  | writeToPtn (ptn : PtEntry) (addr size : Nat)
  | saveenvToPtn (ptn : PtEntry)
  | setBootargs
  | bootm (args : List Nat)
  deriving DecidableEq, Repr

/-- The board and what surrounds the handler: the partition table, what a null
    partition pointer reads, the value an unset `status` happens to have, and for each
    call the value it returns, its error text and the memory it leaves. -/
structure Board where
  ptable : List PtEntry
  nullPtn : PtEntry
  omPin : OmPin
  devNumberWrite : Nat
  productName : Option String
  serialNo : Option String
  unsetStatus : Nat
  result : Call → Mem UInt8 → Nat
  errString : Call → Mem UInt8 → String
  after : Call → Mem UInt8 → Mem UInt8

/-- The receive buffer of the USB driver and how many of its bytes are new. -/
structure Packet where
  buffer : List UInt8
  size : Nat
  size_le : size ≤ buffer.length

/-- The new bytes of a packet. -/
def Packet.data (p : Packet) : List UInt8 := p.buffer.take p.size

@[simp] theorem Packet.data_length (p : Packet) : p.data.length = p.size := by
  rw [Packet.data, List.length_take, Nat.min_eq_left p.size_le]

/-- The globals of the file, memory, the status texts sent and the calls made.
    `running` is false once the board is being reset. -/
structure Globals where
  downloadSize : Nat
  downloadBytes : Nat
  downloadError : Nat
  ram : Ram
  running : Bool
  sent : List String
  calls : List Call

/-! ## Definitions from the source -/

/-- `fastboot_tx_status`. -/
def txStatus (s : Globals) (response : String) : Globals :=
  { s with sent := s.sent ++ [response] }

def Globals.call (b : Board) (s : Globals) (c : Call) : Globals :=
  { s with calls := s.calls ++ [c], ram := ⟨b.after c s.ram.cells, s.ram.log⟩ }

def resetHandler (s : Globals) : Globals :=
  { s with downloadSize := 0, downloadBytes := 0, downloadError := 0 }

/-- `fastboot_flash_find_ptn`. -/
def findPtn (b : Board) (name : List UInt8) : Option PtEntry := b.ptable.find? (·.name = name)

/-- `%08x`. -/
def hex8 (n : Nat) : String :=
  let ds := Nat.toDigits 16 n
  String.ofList (List.replicate (8 - ds.length) '0' ++ ds)

/-- `memcmp (cmdbuf, s, strlen (s)) == 0`. -/
def Packet.startsWith (p : Packet) (s : String) : Bool := (ascii s).isPrefixOf p.buffer

/-- The string from `cmdbuf + n` on. -/
def Packet.arg (p : Packet) (n : Nat) : List UInt8 := cstr (p.buffer.drop n)

/-- A packet while a download is going on. -/
def rxData (s : Globals) (p : Packet) : Globals :=
  if p.size = 0 then s
  else
    let transferSize := usub s.downloadSize s.downloadBytes
    let transferSize := if p.size < transferSize then p.size else transferSize
    let s :=
      { s with
        ram := s.ram.store (transferBuffer + s.downloadBytes) (p.buffer.take transferSize)
        downloadBytes := u32 (s.downloadBytes + transferSize) }
    if s.downloadBytes ≥ s.downloadSize then
      txStatus { s with downloadSize := 0 } (if s.downloadError ≠ 0 then "ERROR" else "OKAY")
    else s

/-- `reboot`: leaves or clears the magic the boot loader looks for after the reset. -/
def reboot (s : Globals) (p : Packet) : Globals :=
  let cells :=
    if p.arg 6 = ascii "-bootloader" then
      s.ram.cells.write transferBuffer (ascii "REBOOT-FASTBOOT" ++ [0])
    else s.ram.cells.fill transferBuffer 15 0
  txStatus { s with ram := ⟨cells, s.ram.log⟩, running := false } "OKAY"

/-- `getvar:`.  The board adds no variables of its own. -/
def getvar (b : Board) (s : Globals) (p : Packet) : Globals :=
  let value :=
    if p.arg 7 = ascii "version" then "0.4"
    else if p.arg 7 = ascii "product" then b.productName.getD ""
    else if p.arg 7 = ascii "serialno" then b.serialNo.getD ""
    else if p.arg 7 = ascii "downloadsize" then hex8 transferBufferSize
    else ""
  txStatus s ("OKAY" ++ value)

/-- The console command that erases partition `name` on device `dev`. -/
def eraseCommand (dev : String) (name : List UInt8) : Option String :=
  if name = ascii "userdata" then some ("ext3format mmc " ++ dev ++ ":3")
  else if name = ascii "cache" then some ("ext3format mmc " ++ dev ++ ":4")
  else if name = ascii "fat" then some ("fatformat mmc " ++ dev ++ ":1")
  else none

/-- `erase:`. -/
def erase (b : Board) (s : Globals) (p : Packet) : Globals :=
  match findPtn b (p.arg 6) with
  | none => txStatus s "FAILpartition does not exist"
  | some ptn =>
    let answer (status : Nat) := if status ≠ 0 then "FAILfailed to erase partition" else "OKAY"
    let run (dev : String) :=
      match eraseCommand dev ptn.name with
      | none => txStatus s (answer 1)
      | some cmd => txStatus (s.call b (.runCommand cmd)) (answer (b.result (.runCommand cmd) s.ram.cells))
    if b.devNumberWrite = 1 then run "1"
    else
      match b.omPin with
      | .mmcsd | .emmc => run "0"
      | .onenand | .other => txStatus s (answer b.unsetStatus)

/-- The size a `download:` command announces. -/
def Packet.announced (p : Packet) : Nat := simpleStrtoul (p.buffer.drop 9) 16

/-- `download:`. -/
def download (s : Globals) (p : Packet) : Globals :=
  let s := { s with downloadSize := p.announced, downloadBytes := 0, downloadError := 0 }
  if s.downloadSize = 0 then txStatus s "FAILdata invalid size"
  else if s.downloadSize > transferBufferSize then
    txStatus { s with downloadSize := 0 } "FAILdata too large"
  else txStatus s ("DATA" ++ hex8 s.downloadSize)

/-- `fb_hdr->kernel_size`. -/
def kernelSize (m : Mem UInt8) : Nat := rd32 m (transferBuffer + 8)

/-- `fb_hdr->ramdisk_size`. -/
def ramdiskSize (m : Mem UInt8) : Nat := rd32 m (transferBuffer + 16)

/-- Address of the ramdisk behind a kernel of `size` bytes. -/
def ramdiskAddr (size : Nat) : Nat :=
  u32 (transferBuffer + (1 + u32 (size + (pageSize - 1)) / pageSize) * pageSize)

/-- The first `memcpy` of `boot`: the kernel.  The destination lies below the source,
    and the copy ascends. -/
def copyKernel (r : Ram) : Ram :=
  r.store addrKernel (r.cells.read (transferBuffer + pageSize) (kernelSize r.cells))

/-- The second `memcpy` of `boot`.  The header is read again. -/
def copyRamdisk (r : Ram) (kernel : Nat) : Ram :=
  r.store addrRamdisk (r.cells.read (ramdiskAddr kernel) (ramdiskSize r.cells))

/-- `ntohl (hdr->ih_magic) == IH_MAGIC`. -/
def hasImageMagic (m : Mem UInt8) : Bool :=
  m.read (transferBuffer + pageSize) 4 = [0x27, 0x05, 0x19, 0x56]

/-- `boot` on an image longer than its header. -/
def bootImage (b : Board) (s : Globals) : Globals :=
  let kernel := kernelSize s.ram.cells
  let s := { s with ram := copyRamdisk (copyKernel s.ram) kernel }
  let s := txStatus s "OKAY"
  if hasImageMagic s.ram.cells then
    let s := if s.ram.cells (transferBuffer + 64) ≠ 0 then s.call b .setBootargs else s
    s.call b (.bootm [addrKernel])
  else s.call b (.bootm [addrKernel, addrRamdisk])

/-- `boot`. -/
def boot (b : Board) (s : Globals) : Globals :=
  let s := if s.downloadBytes ≠ 0 ∧ pageSize < s.downloadBytes then bootImage b s else s
  txStatus s "FAILinvalid boot image"

/-- `write_to_ptn_sdmmc`, where the board has an SD or MMC device to write to; else
    nothing is done and `ret` keeps its value. -/
def writePtn (b : Board) (s : Globals) (ptn : PtEntry) (addr size ret : Nat) : Globals × Nat :=
  match b.omPin with
  | .mmcsd | .emmc =>
    (s.call b (.writeToPtn ptn addr size), b.result (.writeToPtn ptn addr size) s.ram.cells)
  | .onenand | .other => (s, ret)

/-- `flash:boot`: kernel and ramdisk go to partitions of their own. -/
def flashBoot (b : Board) (s : Globals) : Globals :=
  let kernel := kernelSize s.ram.cells
  let ptn := (findPtn b (ascii "kernel")).getD b.nullPtn
  if ptn.length ≠ 0 ∧ kernel > ptn.length then txStatus s "FAILimage too large for partition"
  else
    let (s, ret) := writePtn b s ptn (transferBuffer + pageSize) kernel 1
    let ptn := (findPtn b (ascii "ramdisk")).getD b.nullPtn
    let ramdisk := ramdiskSize s.ram.cells
    if ptn.length ≠ 0 ∧ ramdisk > ptn.length then txStatus s "FAILimage too large for partition"
    else
      let (s, ret') := writePtn b s ptn (ramdiskAddr kernel) ramdisk 0
      txStatus s (if ret ||| ret' ≠ 0 then "FAILfailed to flash partition" else "OKAY")

/-- `flash:` of a whole download to partition `ptn`. -/
def flashPtn (b : Board) (s : Globals) (ptn : PtEntry) : Globals :=
  if s.downloadBytes > ptn.length ∧ ptn.length ≠ 0 ∧ !ptn.writeEnv then
    txStatus s "FAILimage too large for partition"
  else if ptn.writeEnv then
    let c := Call.saveenvToPtn ptn
    let failed := b.result c s.ram.cells ≠ 0
    txStatus (s.call b c) (if failed then "FAIL" ++ b.errString c s.ram.cells else "OKAY")
  else
    let c := Call.writeToPtn ptn transferBuffer s.downloadBytes
    let failed := b.result c s.ram.cells ≠ 0
    match b.omPin with
    | .mmcsd => txStatus (s.call b c) (if failed then "FAILfailed to flash partition" else "OKAY")
    | .emmc =>
      if failed then
        txStatus ((s.call b c).call b (.runCommand "emmc mode 0 0 1")) "FAILfailed to flash partition"
      else txStatus (s.call b c) "OKAY"
    | .onenand | .other => txStatus s "FAIL"

/-- `flash:`. -/
def flash (b : Board) (s : Globals) (p : Packet) : Globals :=
  if s.downloadBytes = 0 then txStatus s "FAILno image downloaded"
  else if p.arg 6 = ascii "boot" then flashBoot b s
  else
    match findPtn b (p.arg 6) with
    | none => txStatus s "FAILpartition does not exist"
    | some ptn => flashPtn b s ptn

def rxHandler (b : Board) (s : Globals) (p : Packet) : Globals :=
  if s.downloadSize ≠ 0 then rxData s p
  else if p.startsWith "reboot" then reboot s p
  else if p.startsWith "getvar:" then getvar b s p
  else if p.startsWith "erase:" then erase b s p
  else if p.startsWith "download:" then download s p
  else if p.startsWith "boot" then boot b s
  else if p.startsWith "flash:" then flash b s p
  else if p.startsWith "oem" then txStatus (txStatus s "INFOunknown OEM command") "OKAY"
  else txStatus s "FAIL"

/-- What reaches the handlers. -/
inductive Input
  | packet (p : Packet)
  | reset

/-- One input.  Nothing is handled once the board is being reset. -/
def step (b : Board) (s : Globals) : Input → Globals
  | .packet p => if s.running then rxHandler b s p else s
  | .reset => if s.running then resetHandler s else s

/-- The state `fastboot_init` leaves, over memory contents `cells`. -/
def start (cells : Mem UInt8) : Globals :=
  { downloadSize := 0, downloadBytes := 0, downloadError := 0, ram := ⟨cells, []⟩
    running := true, sent := [], calls := [] }

/-! ## The protocol's side

    What a download is, told from the inputs alone. -/

/-- The state of the session: nothing downloaded, a download announced with `size`
    bytes of which `data` has come, a finished download, the board being reset. -/
inductive Session
  | idle
  | downloading (size : Nat) (data : List UInt8)
  | complete (size : Nat) (data : List UInt8)
  | halted
  deriving DecidableEq, Repr

/-- The session after a command. -/
def Session.command (h : Session) (p : Packet) : Session :=
  if p.startsWith "reboot" then .halted
  else if p.startsWith "download:" then
    if p.announced = 0 ∨ transferBufferSize < p.announced then .idle
    else .downloading p.announced []
  else h

/-- Data packets add up until the announced size is there, what is over is cut off;
    every other packet is a command. -/
def Session.step : Session → Input → Session
  | .halted, _ => .halted
  | .idle, .reset | .downloading .., .reset | .complete .., .reset => .idle
  | .downloading size data, .packet p =>
    if (data ++ p.data).length < size then .downloading size (data ++ p.data)
    else .complete size ((data ++ p.data).take size)
  | .idle, .packet p => Session.command .idle p
  | .complete size data, .packet p => Session.command (.complete size data) p

/-- The handler's state is where the session is. -/
def Tracks : Session → Globals → Prop
  | .idle, s => s.running ∧ s.downloadSize = 0 ∧ s.downloadBytes = 0
  | .downloading size data, s =>
    s.running ∧ s.downloadSize = size ∧ s.downloadBytes = data.length ∧ data.length < size ∧
      size ≤ transferBufferSize ∧ s.ram.cells.read transferBuffer data.length = data
  | .complete size data, s =>
    s.running ∧ s.downloadSize = 0 ∧ s.downloadBytes = size ∧ data.length = size
  | .halted, s => s.running = false ∧ s.downloadSize = 0

/-- Every `memcpy` so far ended inside the transfer buffer. -/
def InBounds (s : Globals) : Prop := ∀ w ∈ s.ram.log, w.stop ≤ bufferEnd

/-- The condition on a step: a `boot` command that is carried out finds sizes in its
    header that keep both copies below the end of the transfer buffer. -/
def BootFits (s : Globals) : Input → Prop
  | .reset => True
  | .packet p =>
    s.running → s.downloadSize = 0 → p.startsWith "boot" → pageSize < s.downloadBytes →
      addrKernel + kernelSize s.ram.cells ≤ bufferEnd ∧
        addrRamdisk + ramdiskSize (copyKernel s.ram).cells ≤ bufferEnd

/-- `s` with other memory contents. -/
def Globals.withCells (s : Globals) (cells : Mem UInt8) : Globals :=
  { s with ram := ⟨cells, s.ram.log⟩ }

/-- What the handler does with `p` depends on the memory contents. -/
def ReadsMemory (b : Board) (s : Globals) (p : Packet) : Prop :=
  ∃ cells, rxHandler b (s.withCells cells) p ≠ (rxHandler b s p).withCells cells

/-- What holds of the handler's state `s` in session state `h`. -/
structure Safe (b : Board) (h : Session) (s : Globals) : Prop where
  inBounds : InBounds s
  buffer : s.downloadSize ≠ 0 →
    ∃ data, h = .downloading s.downloadSize data ∧
      s.ram.cells.read transferBuffer s.downloadBytes = data
  received : ∀ p : Packet, s.running → s.downloadSize = 0 →
    p.startsWith "flash:" ∨ p.startsWith "boot" → ReadsMemory b s p →
      ∃ data, h = .complete s.downloadBytes data ∧ data.length = s.downloadBytes

/-! ## What commands leave alone -/

/-- `s'` is at the same point of the same download as `s`. -/
structure SamePoint (s s' : Globals) : Prop where
  running : s'.running = s.running
  downloadSize : s'.downloadSize = s.downloadSize
  downloadBytes : s'.downloadBytes = s.downloadBytes

/-- Moreover no `memcpy` lies between them. -/
structure Keeps (s s' : Globals) : Prop extends SamePoint s s' where
  log : s'.ram.log = s.ram.log

variable {b : Board} {s s' s'' : Globals} {p : Packet} {h : Session}

theorem Keeps.refl (s : Globals) : Keeps s s := ⟨⟨rfl, rfl, rfl⟩, rfl⟩

theorem Keeps.trans (h₁ : Keeps s s') (h₂ : Keeps s' s'') : Keeps s s'' :=
  ⟨⟨h₂.running.trans h₁.running, h₂.downloadSize.trans h₁.downloadSize,
    h₂.downloadBytes.trans h₁.downloadBytes⟩, h₂.log.trans h₁.log⟩

theorem Keeps.txStatus (h : Keeps s s') (r : String) : Keeps s (txStatus s' r) :=
  h.trans ⟨⟨rfl, rfl, rfl⟩, rfl⟩

theorem Keeps.call (h : Keeps s s') (c : Call) : Keeps s (s'.call b c) :=
  h.trans ⟨⟨rfl, rfl, rfl⟩, rfl⟩

theorem keeps_getvar : Keeps s (getvar b s p) := (Keeps.refl s).txStatus _

theorem keeps_erase : Keeps s (erase b s p) := by
  have hs := Keeps.refl s
  rw [erase]
  split
  · exact hs.txStatus _
  · dsimp only
    split
    · split
      · exact hs.txStatus _
      · exact (hs.call _).txStatus _
    · split
      · split
        · exact hs.txStatus _
        · exact (hs.call _).txStatus _
      · split
        · exact hs.txStatus _
        · exact (hs.call _).txStatus _
      · exact hs.txStatus _
      · exact hs.txStatus _

theorem Keeps.writePtn (h : Keeps s s') (ptn : PtEntry) (addr size ret : Nat) :
    Keeps s (writePtn b s' ptn addr size ret).1 := by
  rw [Fastboot.writePtn]
  split
  · exact h.call _
  · exact h.call _
  · exact h
  · exact h

theorem keeps_flashBoot : Keeps s (flashBoot b s) := by
  have hs := Keeps.refl s
  rw [flashBoot]
  dsimp only
  split
  · exact hs.txStatus _
  · split
    · exact (hs.writePtn ..).txStatus _
    · exact ((hs.writePtn ..).writePtn ..).txStatus _

theorem keeps_flashPtn (ptn : PtEntry) : Keeps s (flashPtn b s ptn) := by
  have hs := Keeps.refl s
  rw [flashPtn]
  split
  · exact hs.txStatus _
  · split
    · exact (hs.call _).txStatus _
    · dsimp only
      split
      · exact (hs.call _).txStatus _
      · split
        · exact ((hs.call _).call _).txStatus _
        · exact (hs.call _).txStatus _
      · exact hs.txStatus _
      · exact hs.txStatus _

theorem keeps_flash : Keeps s (flash b s p) := by
  rw [flash]
  split
  · exact (Keeps.refl s).txStatus _
  · split
    · exact keeps_flashBoot
    · split
      · exact (Keeps.refl s).txStatus _
      · exact keeps_flashPtn _

/-- Where no download is going on, the session only asks for the point. -/
theorem Tracks.samePoint (ht : Tracks h s) (hd : s.downloadSize = 0) (hk : SamePoint s s') :
    Tracks h s' := by
  have hr := hk.running
  have hsz := hk.downloadSize
  have hby := hk.downloadBytes
  cases h with
  | idle => simpa [Tracks, hr, hsz, hby] using ht
  | downloading size data =>
    obtain ⟨-, hsize, -, hlt, -⟩ := ht
    omega
  | complete size data => simpa [Tracks, hr, hsz, hby] using ht
  | halted => simpa [Tracks, hr, hsz] using ht

/-! ## The `boot` command -/

/-- `boot` on a whole image makes its two copies and stays where it is. -/
theorem boot_spec (hb : pageSize < s.downloadBytes) :
    SamePoint s (boot b s) ∧
      (boot b s).ram.log = s.ram.log ++
        [⟨addrKernel, kernelSize s.ram.cells⟩,
          ⟨addrRamdisk, ramdiskSize (copyKernel s.ram).cells⟩] := by
  have hpos : s.downloadBytes ≠ 0 := by omega
  rw [boot, if_pos ⟨hpos, hb⟩, bootImage]
  dsimp only
  split
  · split
    · exact ⟨⟨rfl, rfl, rfl⟩, by simp [txStatus, Globals.call, copyRamdisk, copyKernel]⟩
    · exact ⟨⟨rfl, rfl, rfl⟩, by simp [txStatus, Globals.call, copyRamdisk, copyKernel]⟩
  · exact ⟨⟨rfl, rfl, rfl⟩, by simp [txStatus, Globals.call, copyRamdisk, copyKernel]⟩

/-- Without a whole image `boot` only answers. -/
theorem boot_short (hb : ¬ pageSize < s.downloadBytes) :
    boot b s = txStatus s "FAILinvalid boot image" := by
  rw [boot, if_neg fun hc => hb hc.2]

theorem samePoint_boot : SamePoint s (boot b s) := by
  by_cases hb : pageSize < s.downloadBytes
  · exact (boot_spec hb).1
  · rw [boot_short hb]
    exact ⟨rfl, rfl, rfl⟩

/-! ## Command words -/

/-- A packet does not begin with two words of which neither begins with the other. -/
theorem not_startsWith {v w : String} (hv : p.startsWith v)
    (hvw : (ascii v).isPrefixOf (ascii w) = false) (hwv : (ascii w).isPrefixOf (ascii v) = false) :
    p.startsWith w = false := by
  rw [Bool.eq_false_iff]
  intro hw
  rcases List.prefix_or_prefix_of_prefix (List.isPrefixOf_iff_prefix.mp hv)
    (List.isPrefixOf_iff_prefix.mp hw) with hp | hp
  · rw [List.isPrefixOf_iff_prefix.mpr hp] at hvw
    exact Bool.noConfusion hvw
  · rw [List.isPrefixOf_iff_prefix.mpr hp] at hwv
    exact Bool.noConfusion hwv

/-- Every command but `reboot` and `download:` stays at its point. -/
theorem rxHandler_other (hd : s.downloadSize = 0) (hr : p.startsWith "reboot" = false)
    (hl : p.startsWith "download:" = false) :
    SamePoint s (rxHandler b s p) ∧
      (p.startsWith "boot" = false → (rxHandler b s p).ram.log = s.ram.log) := by
  have hk := Keeps.refl s
  rw [rxHandler, if_neg (not_not.mpr hd), if_neg (by simp [hr])]
  split
  · exact ⟨keeps_getvar.toSamePoint, fun _ => keeps_getvar.log⟩
  split
  · exact ⟨keeps_erase.toSamePoint, fun _ => keeps_erase.log⟩
  rw [if_neg (by simp [hl])]
  split
  · rename_i hb
    exact ⟨samePoint_boot, fun hn => by simp [hb] at hn⟩
  split
  · exact ⟨keeps_flash.toSamePoint, fun _ => keeps_flash.log⟩
  split
  · exact ⟨((hk.txStatus _).txStatus _).toSamePoint, fun _ => ((hk.txStatus _).txStatus _).log⟩
  · exact ⟨(hk.txStatus _).toSamePoint, fun _ => (hk.txStatus _).log⟩

theorem rxHandler_reboot (hd : s.downloadSize = 0) (hr : p.startsWith "reboot") :
    rxHandler b s p = reboot s p := by
  rw [rxHandler, if_neg (not_not.mpr hd), if_pos hr]

theorem rxHandler_download (hd : s.downloadSize = 0) (hl : p.startsWith "download:") :
    rxHandler b s p = download s p := by
  have h1 := not_startsWith (w := "reboot") hl (by decide) (by decide)
  have h2 := not_startsWith (w := "getvar:") hl (by decide) (by decide)
  have h3 := not_startsWith (w := "erase:") hl (by decide) (by decide)
  simp [rxHandler, hd, h1, h2, h3, hl]

theorem rxHandler_boot (hd : s.downloadSize = 0) (hb : p.startsWith "boot") :
    rxHandler b s p = boot b s := by
  have h1 := not_startsWith (w := "reboot") hb (by decide) (by decide)
  have h2 := not_startsWith (w := "getvar:") hb (by decide) (by decide)
  have h3 := not_startsWith (w := "erase:") hb (by decide) (by decide)
  have h4 := not_startsWith (w := "download:") hb (by decide) (by decide)
  simp [rxHandler, hd, h1, h2, h3, h4, hb]

theorem rxHandler_flash (hd : s.downloadSize = 0) (hf : p.startsWith "flash:") :
    rxHandler b s p = flash b s p := by
  have h1 := not_startsWith (w := "reboot") hf (by decide) (by decide)
  have h2 := not_startsWith (w := "getvar:") hf (by decide) (by decide)
  have h3 := not_startsWith (w := "erase:") hf (by decide) (by decide)
  have h4 := not_startsWith (w := "download:") hf (by decide) (by decide)
  have h5 := not_startsWith (w := "boot") hf (by decide) (by decide)
  simp [rxHandler, hd, h1, h2, h3, h4, h5, hf]

/-! ## One step -/

/-- A command moves the handler as it moves the session. -/
theorem Tracks.command (ht : Tracks h s) (hd : s.downloadSize = 0) (hrun : s.running) :
    Tracks (h.command p) (rxHandler b s p) := by
  rw [Session.command]
  split
  · rename_i hr
    rw [rxHandler_reboot hd hr]
    exact ⟨rfl, hd⟩
  · rename_i hr
    split
    · rename_i hl
      rw [rxHandler_download hd hl, download]
      split
      · rename_i hbad
        by_cases h0 : p.announced = 0
        · rw [if_pos h0]
          exact ⟨hrun, h0, rfl⟩
        · rw [if_neg h0, if_pos (hbad.resolve_left h0)]
          exact ⟨hrun, rfl, rfl⟩
      · rename_i hgood
        rw [if_neg fun h0 => hgood (.inl h0), if_neg fun hb => hgood (.inr hb)]
        exact ⟨hrun, rfl, rfl, Nat.pos_of_ne_zero fun h0 => hgood (.inl h0),
          Nat.le_of_not_lt fun hb => hgood (.inr hb), rfl⟩
    · rename_i hl
      exact ht.samePoint hd (rxHandler_other hd (by simpa using hr) (by simpa using hl)).1

/-- The bytes a data packet adds when `room` more are announced. -/
theorem take_transfer (p : Packet) (room : Nat) :
    p.buffer.take (if p.size < room then p.size else room) = p.data.take room := by
  rw [Packet.data, List.take_take]
  congr 1
  split <;> omega

/-- A data packet moves the handler as it moves the session, and its copy ends inside
    the announced size. -/
theorem rxData_spec {size : Nat} {data : List UInt8} (ht : Tracks (.downloading size data) s)
    (hin : InBounds s) :
    Tracks (Session.step (.downloading size data) (.packet p)) (rxData s p) ∧
      InBounds (rxData s p) := by
  obtain ⟨hrun, hsz, hby, hlt, hle, hread⟩ := ht
  have hbig : transferBufferSize < 4294967296 := by decide
  have hroom : usub size data.length = size - data.length := usub_of_le (by omega) (by omega)
  have htake := take_transfer p (size - data.length)
  have hlen : (p.data.take (size - data.length)).length = min (size - data.length) p.size := by
    simp
  by_cases h0 : p.size = 0
  · -- an empty packet is ignored
    have hnil : p.data = [] := List.eq_nil_of_length_eq_zero (by simp [h0])
    rw [rxData, if_pos h0, Session.step, hnil, List.append_nil, if_pos hlt]
    exact ⟨⟨hrun, hsz, hby, hlt, hle, hread⟩, hin⟩
  · have hcount : (if p.size < size - data.length then p.size else size - data.length) =
        (p.data.take (size - data.length)).length := by
      rw [hlen]
      split <;> omega
    have hadd : u32 (data.length + (p.data.take (size - data.length)).length) =
        data.length + (p.data.take (size - data.length)).length := u32_of_lt (by omega)
    have hcells := @Mem.read_write_append _ s.ram.cells _ _ (p.data.take (size - data.length)) _ hread
    have hlog : ∀ w ∈ s.ram.log ++
        [⟨transferBuffer + data.length, (p.data.take (size - data.length)).length⟩],
        w.stop ≤ bufferEnd := by
      intro w hw
      rcases List.mem_append.mp hw with hw | hw
      · exact hin w hw
      · rw [List.mem_singleton.mp hw, Extent.stop, bufferEnd]
        show transferBuffer + data.length + (p.data.take (size - data.length)).length ≤ _
        omega
    have htot : (data ++ p.data).length = data.length + p.size := by simp
    rw [rxData, if_neg h0]
    simp only [hsz, hby, hroom, htake]
    rw [hcount, hadd, Session.step, htot]
    by_cases hfull : data.length + p.size < size
    · have hall : p.data.take (size - data.length) = p.data :=
        List.take_of_length_le (by rw [Packet.data_length]; omega)
      rw [hall] at hcells hlog ⊢
      rw [if_pos hfull, Packet.data_length, if_neg (by omega)]
      refine ⟨⟨hrun, rfl, htot.symm, ?_, hle, ?_⟩, hlog⟩
      · rw [htot]; exact hfull
      · rw [htot, ← Packet.data_length p]; exact hcells
    · rw [if_neg hfull, if_pos (by omega)]
      exact ⟨⟨hrun, rfl, by simp only [txStatus]; omega, by simp; omega⟩, hlog⟩

/-- **Step lemma.** -/
theorem step_tracks {i : Input} (ht : Tracks h s) (hin : InBounds s) (hfit : BootFits s i) :
    Tracks (h.step i) (step b s i) ∧ InBounds (step b s i) := by
  have hcommand (hd : s.downloadSize = 0) (hrun : s.running) (p : Packet) (hi : i = .packet p) :
      Tracks (h.command p) (rxHandler b s p) ∧ InBounds (rxHandler b s p) := by
    refine ⟨ht.command hd hrun, ?_⟩
    subst hi
    by_cases hr : p.startsWith "reboot"
    · rw [rxHandler_reboot hd hr]; exact hin
    by_cases hl : p.startsWith "download:"
    · rw [rxHandler_download hd hl, download]
      dsimp only
      split
      · exact hin
      · split <;> exact hin
    by_cases hb : p.startsWith "boot"
    · rw [rxHandler_boot hd hb]
      by_cases hbig : pageSize < s.downloadBytes
      · intro w hw
        rw [(boot_spec hbig).2] at hw
        obtain ⟨hk, hrd⟩ := hfit hrun hd hb hbig
        simp only [List.mem_append, List.mem_cons, List.not_mem_nil, or_false] at hw
        rcases hw with hw | rfl | rfl
        · exact hin w hw
        · exact hk
        · exact hrd
      · rw [boot_short hbig]
        exact hin
    · intro w hw
      rw [(rxHandler_other hd (by simpa using hr) (by simpa using hl)).2 (by simpa using hb)] at hw
      exact hin w hw
  cases i with
  | reset =>
    cases h with
    | halted =>
      have hstop : s.running = false := ht.1
      simp only [step, hstop]
      exact ⟨ht, hin⟩
    | idle | downloading _ _ | complete _ _ =>
      have hrun : s.running = true := ht.1
      simp only [step, hrun]
      exact ⟨⟨hrun, rfl, rfl⟩, hin⟩
  | packet p =>
    cases h with
    | halted =>
      have hstop : s.running = false := ht.1
      simp only [step, hstop]
      exact ⟨ht, hin⟩
    | idle =>
      have hrun : s.running = true := ht.1
      simp only [step, hrun]
      exact hcommand ht.2.1 hrun p rfl
    | complete size data =>
      have hrun : s.running = true := ht.1
      simp only [step, hrun]
      exact hcommand ht.2.1 hrun p rfl
    | downloading size data =>
      have hrun : s.running = true := ht.1
      obtain ⟨-, hsz, -, hlt, -⟩ := id ht
      have hdata : rxHandler b s p = rxData s p := by rw [rxHandler, if_pos (by omega)]
      simp only [step, hrun, if_true, hdata]
      exact rxData_spec ht hin

/-! ## Whole runs -/

/-- A `flash:` or `boot` command that depends on memory finds a finished download. -/
theorem Tracks.received (ht : Tracks h s) (hrun : s.running) (hd : s.downloadSize = 0)
    (hp : p.startsWith "flash:" ∨ p.startsWith "boot") (hm : ReadsMemory b s p) :
    ∃ data, h = .complete s.downloadBytes data ∧ data.length = s.downloadBytes := by
  cases h with
  | halted => exact absurd (hrun.symm.trans ht.1) (by decide)
  | downloading size data =>
    obtain ⟨-, hsz, -, hlt, -⟩ := ht
    omega
  | complete size data =>
    obtain ⟨-, -, hby, hlen⟩ := ht
    exact ⟨data, by rw [hby], by rw [hby, hlen]⟩
  | idle =>
    -- nothing has been downloaded: both commands only answer
    obtain ⟨-, -, hby⟩ := ht
    obtain ⟨cells, hne⟩ := hm
    refine absurd ?_ hne
    rcases hp with hf | hb
    · have hd' : (s.withCells cells).downloadSize = 0 := hd
      rw [rxHandler_flash hd hf, rxHandler_flash hd' hf, flash, flash, if_pos hby, if_pos (by exact hby)]
      rfl
    · have hd' : (s.withCells cells).downloadSize = 0 := hd
      have hshort : ¬ pageSize < s.downloadBytes := by rw [hby]; decide
      rw [rxHandler_boot hd hb, rxHandler_boot hd' hb, boot_short hshort, boot_short (by exact hshort)]
      rfl

theorem Tracks.safe (ht : Tracks h s) (hin : InBounds s) : Safe b h s := by
  refine ⟨hin, fun hd => ?_, fun p hrun hd hp hm => ht.received hrun hd hp hm⟩
  cases h with
  | idle => exact absurd ht.2.1 hd
  | complete size data => exact absurd ht.2.1 hd
  | halted => exact absurd ht.2 hd
  | downloading size data =>
    obtain ⟨-, hsz, hby, -, -, hread⟩ := ht
    exact ⟨data, by rw [hsz], by rw [hby, hread]⟩

/-- **Runs of the handler.** As long as every `boot` command carried out fits, the
    handler stays where the session is, and no copy leaves the buffer. -/
theorem run_safe (b : Board) (cells : Mem UInt8) {is : List Input}
    (hg : Guarded (step b) BootFits (start cells) is) :
    Safe b (run Session.step .idle is) (run (step b) (start cells) is) := by
  have hstart : Tracks .idle (start cells) := ⟨rfl, rfl, rfl⟩
  have hempty : InBounds (start cells) := fun w hw => absurd hw List.not_mem_nil
  obtain ⟨ht, hin⟩ := @run_invariant_hist _ _ (step b) BootFits
    (fun past s => Tracks (run Session.step .idle past) s ∧ InBounds s)
    (fun past s i hinv hfit => by
      rw [run_append, run_cons, run_nil]
      exact step_tracks hinv.1 hinv.2 hfit)
    (start cells) [] is ⟨hstart, hempty⟩ hg
  exact ht.safe hin

/-- A board without partitions whose calls do nothing. -/
def bareBoard : Board where
  ptable := []
  nullPtn := ⟨[], 0, 0, false⟩
  omPin := .mmcsd
  devNumberWrite := 0
  productName := none
  serialNo := none
  unsetStatus := 0
  result _ _ := 0
  errString _ _ := ""
  after _ m := m

/-- A packet with a command, terminated as the USB driver does. -/
def commandPacket (s : String) : Packet where
  buffer := ascii s ++ [0]
  size := (ascii s).length
  size_le := by simp

/-- A packet of `n` equal bytes. -/
def dataPacket (n : Nat) (v : UInt8) : Packet where
  buffer := List.replicate n v
  size := n
  size_le := by simp

/-- A download of 2049 zero bytes, which as a boot image has an empty kernel and an
    empty ramdisk, and a `boot` command. -/
theorem run_safe_boot :
    Safe bareBoard
      (run Session.step .idle
        [.packet (commandPacket "download:801"), .packet (dataPacket 2049 0),
          .packet (commandPacket "boot")])
      (run (step bareBoard) (start fun _ => 0)
        [.packet (commandPacket "download:801"), .packet (dataPacket 2049 0),
          .packet (commandPacket "boot")]) :=
  run_safe bareBoard (fun _ => 0)
    ⟨fun _ _ hb => absurd hb (by decide), fun _ hd => absurd hd (by decide +kernel),
      fun _ _ _ _ => by decide +kernel, trivial⟩

/-- A boot image of bytes `0xff`: its header asks for a kernel of 4 GB, and `boot`
    copies it past the end of the transfer buffer. -/
theorem boot_leaves_buffer :
    ¬ ∀ (b : Board) (cells : Mem UInt8) (is : List Input),
      Safe b (run Session.step .idle is) (run (step b) (start cells) is) := by
  intro hall
  have hsafe := hall bareBoard (fun _ => 0xff)
    [.packet (commandPacket "download:801"), .packet (dataPacket 2049 0xff),
      .packet (commandPacket "boot")]
  have hin := hsafe.inBounds
  rw [run_cons, run_cons, run_cons, run_nil] at hin
  have hrun : (step bareBoard (step bareBoard (start fun _ => 0xff)
      (.packet (commandPacket "download:801"))) (.packet (dataPacket 2049 0xff))).running = true := by
    decide +kernel
  have hd : (step bareBoard (step bareBoard (start fun _ => 0xff)
      (.packet (commandPacket "download:801"))) (.packet (dataPacket 2049 0xff))).downloadSize = 0 := by
    decide +kernel
  have hby : pageSize < (step bareBoard (step bareBoard (start fun _ => 0xff)
      (.packet (commandPacket "download:801"))) (.packet (dataPacket 2049 0xff))).downloadBytes := by
    decide +kernel
  have hk : kernelSize (step bareBoard (step bareBoard (start fun _ => 0xff)
      (.packet (commandPacket "download:801"))) (.packet (dataPacket 2049 0xff))).ram.cells =
        0xffffffff := by
    decide +kernel
  generalize step bareBoard (step bareBoard (start fun _ => 0xff)
      (.packet (commandPacket "download:801"))) (.packet (dataPacket 2049 0xff)) = s at *
  rw [step, if_pos hrun, rxHandler_boot hd (by decide)] at hin
  have hlast := hin ⟨addrKernel, kernelSize s.ram.cells⟩ (by rw [(boot_spec hby).2]; simp)
  rw [hk] at hlast
  exact absurd hlast (by decide)

end Uboot.Common.Fastboot
