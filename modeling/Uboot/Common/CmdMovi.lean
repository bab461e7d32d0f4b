/-
  Uboot.Common.CmdMovi

  The raw boot area of common/cmd_movi.c: the table `init_raw_area_table` builds and
  the `movi` command, which turns an image name into an `mmc` command on the blocks
  of the table.  Console output is left out.
-/

import Uboot.Lib.Extent
import Uboot.Lib.Run
import Uboot.LibGeneric.Vsprintf

namespace Uboot.Common.CmdMovi

open Uboot.Lib Uboot.LibGeneric

-- ============================================================================
-- The table
-- ============================================================================

def magicNumberMovi : Nat := 0x24564236

def moviBlksize : Nat := 512

def eFuseSize : Nat := 512

def fwbl1Size : Nat := 8 * 1024

def bl2Size : Nat := 16 * 1024

def partSizeUboot : Nat := 495 * 1024

def partSizeKernel : Nat := 6 * 1024 * 1024

def partSizeRootfs : Nat := 2 * 1024 * 1024

def rawAreaSize : Nat := 16 * 1024 * 1024

/-- `CONFIG_ENV_SIZE` -/
def envSize : Nat := 0x4000

/-- `member_t` -/
structure Member where
  startBlk : Nat
  usedBlk : Nat
  size : Nat
  attr : Nat
  description : String
  deriving DecidableEq, Repr

/-- `raw_area_t` -/
structure RawArea where
  magicNumber : Nat
  startBlk : Nat
  totalBlk : Nat
  nextRawArea : Nat
  description : String
  image : List Member

/-- What `init_raw_area_table` reads of the card's `struct mmc`. -/
structure Mmc where
  name : String
  highCapacity : Bool
  capacity : Nat
  readBlLen : Nat

/-- The first block the boot ROM loads from: an eMMC has no eFuse block. -/
def firstBlk (host : Mmc) : Nat := if host.name = "S5P_MSHC4" then 0 else eFuseSize / moviBlksize

def capacityBlk (host : Mmc) : Nat :=
  if host.highCapacity then host.capacity else u32 (host.capacity * (host.readBlLen / moviBlksize))

/-- `image[0]` -/
def fwbl1 (host : Mmc) : Member := ⟨firstBlk host, fwbl1Size / moviBlksize, fwbl1Size, 0x0, "fwbl1"⟩

/-- `image[1]` -/
def bl2 (host : Mmc) : Member :=
  ⟨(fwbl1 host).startBlk + (fwbl1 host).usedBlk, bl2Size / moviBlksize, bl2Size, 0x3, "bl2"⟩

/-- `image[2]`: the first stages and u-boot combined. -/
def bootloader (host : Mmc) : Member :=
  ⟨firstBlk host, fwbl1Size / moviBlksize + partSizeUboot / moviBlksize + bl2Size / moviBlksize,
    partSizeUboot + fwbl1Size + bl2Size, 0x2, "bootloader"⟩

/-- `image[3]` -/
def environment : Member := ⟨544 * 1024 / moviBlksize, envSize / moviBlksize, envSize, 0x10, "environment"⟩

/-- `image[4]` -/
def kernel : Member :=
  ⟨environment.startBlk + environment.usedBlk, partSizeKernel / moviBlksize, partSizeKernel, 0x4, "kernel"⟩

/-- `image[5]` -/
def ramdisk : Member :=
  ⟨kernel.startBlk + kernel.usedBlk, partSizeRootfs / moviBlksize, partSizeRootfs, 0x8, "ramdisk"⟩

/-- `image[6]`.  What is left of the raw area is counted from the ramdisk on. -/
def recovery : Member :=
  ⟨ramdisk.startBlk + ramdisk.usedBlk, rawAreaSize / moviBlksize - ramdisk.startBlk,
    (rawAreaSize / moviBlksize - ramdisk.startBlk) * moviBlksize, 0x6, "Recovery"⟩

/-- `image[7]`.  Blocks less bytes, as the source has it. -/
def disk (host : Mmc) : Member :=
  ⟨rawAreaSize / moviBlksize, usub (capacityBlk host) rawAreaSize / moviBlksize,
    usub (capacityBlk host) rawAreaSize, 0xff, "disk"⟩

/-- `init_raw_area_table` -/
def initRawAreaTable (host : Mmc) (t : RawArea) : RawArea :=
  if t.magicNumber ≠ magicNumberMovi then
    { magicNumber := magicNumberMovi
      startBlk := 16 * 1024 * 1024 / moviBlksize
      totalBlk := capacityBlk host
      nextRawArea := 0
      description := "initial raw table"
      image := [fwbl1 host, bl2 host, bootloader host, environment, kernel, ramdisk, recovery,
          disk host] ++ (t.image.drop 8).map fun m => { m with startBlk := 0, usedBlk := 0 } }
  else t

-- ============================================================================
-- The command
-- ============================================================================

inductive OmPin
  | emmc441
  | mmcsd
  | other
  deriving DecidableEq

/-- The globals `do_movi` reads besides the table, and the name of device 0. -/
structure Env where
  omPin : OmPin
  fuseByFastboot : Nat
  devNumberWrite : Nat
  mmc0Name : String

/-- The commands run through `run_command`. -/
inductive Command
  | mmcinfo
  | emmcOpen
  | emmcClose
  | mmc (write : Bool) (dev addr startBlk blkCnt : Nat)
  deriving DecidableEq

/-- The first character of `argv[i]`. -/
def argChar (argv : List (List UInt8)) (i : Nat) : UInt8 := (argv.getD i []).headD 0

/-- `simple_strtoul (argv[i], NULL, 16)` -/
def argNum (argv : List (List UInt8)) (i : Nat) : Nat := simpleStrtoul (argv.getD i []) 16

/-- The direction: `argv[1]`. -/
def direction (argv : List (List UInt8)) : Option Bool :=
  match argChar argv 1 with
  | 114 => some false
  | 119 => some true
  | _ => none

/-- The attribute an image is looked for by: `argv[2]`, with the number of arguments
    that goes with it. -/
def attributeOf (argv : List (List UInt8)) : Option Nat :=
  match argChar argv 2 with
  | 102 => if argv.length = 4 then some 0x0 else none
  | 117 => if argv.length = 4 then some 0x2 else none
  | 107 => if argv.length = 4 then some 0x4 else none
  | 82 => if argv.length = 5 then some 0x6 else none
  | 114 => if argv.length = 5 then some 0x8 else none
  | 101 => if argv.length = 4 then some 0x20 else none
  | _ => none

/-- `boot_dev` -/
def bootDev (env : Env) : Nat :=
  if env.omPin = .mmcsd ∧ env.mmc0Name = "S5P_MSHC4" then 1 else 0

/-- The device kernel, ramdisk and recovery are on. -/
def imageDev (env : Env) : Nat :=
  if env.fuseByFastboot = 1 then if env.devNumberWrite ≠ 0 then 1 else 0 else bootDev env

/-- The entry with the attribute. -/
def findImage (t : RawArea) (attr : Nat) : Nat := t.image.findIdx (·.attr = attr)

/-- `image[i]` -/
def RawArea.entry (t : RawArea) (i : Nat) : Member := t.image.getD i ⟨0, 0, 0, 0, ""⟩

/-- The blocks that hold `rfs_size` bytes. -/
def sizeBlkcnt (rfsSize : Nat) : Nat :=
  rfsSize / moviBlksize + if rfsSize % moviBlksize ≠ 0 then 1 else 0

/-- Ramdisk and recovery: the length comes from the command and goes into the table. -/
def moviSized (env : Env) (t : RawArea) (rw : Bool) (attr addr rfsSize : Nat) :
    RawArea × List Command :=
  let i := findImage t attr
  let blkcnt := sizeBlkcnt rfsSize
  ({ t with image := t.image.modify i fun m => { m with usedBlk := blkcnt } },
    [.mmc rw (imageDev env) addr (t.entry i).startBlk blkcnt])

/-- `do_movi` behind the parsing of the image name. -/
def moviImage (env : Env) (t : RawArea) (rw : Bool) (attr : Nat) (argv : List (List UInt8)) :
    RawArea × List Command :=
  let addr := argNum argv 3
  if attr = 0x0 then
    let image := t.entry (findImage t attr)
    (t, [.mmc rw 0 addr image.startBlk image.usedBlk])
  else if attr = 0x2 then
    let image := t.entry (findImage t attr)
    (t, [.mmc rw 1 addr 1 image.usedBlk])
  else if attr = 0x20 then
    let image := t.entry (findImage t 0x2)
    (t, [.emmcOpen, .mmc rw 0 addr 0 image.usedBlk, .emmcClose])
  else if attr = 0x4 then
    let image := t.entry (findImage t attr)
    (t, [.mmc rw (imageDev env) addr image.startBlk image.usedBlk])
  else moviSized env t rw attr addr (argNum argv 4)

/-- `do_movi` -/
def doMovi (env : Env) (t : RawArea) (argv : List (List UInt8)) : RawArea × List Command :=
  if argChar argv 1 = 105 then ({ t with magicNumber := 0 }, [.mmcinfo])
  else
    match direction argv, attributeOf argv with
    | some rw, some attr => moviImage env t rw attr argv
    | _, _ => (t, [])

/-- The blocks written, with their device. -/
def written (cs : List Command) : List (Nat × Extent) :=
  cs.filterMap fun
    | .mmc true dev _ startBlk blkCnt => some (dev, ⟨startBlk, blkCnt⟩)
    | _ => none

-- ============================================================================
-- Areas
-- ============================================================================

/-- The images of the table that have an area of their own. -/
inductive Image
  | fwbl1
  | bootloader
  | environment
  | kernel
  | ramdisk
  | recovery
  | disk
  deriving DecidableEq

/-- The entry of an image. -/
def Image.index : Image → Nat
  | .fwbl1 => 0
  | .bootloader => 2
  | .environment => 3
  | .kernel => 4
  | .ramdisk => 5
  | .recovery => 6
  | .disk => 7

/-- The blocks of an image by the table. -/
def RawArea.area (t : RawArea) (image : Image) : Extent :=
  ⟨(t.entry image.index).startBlk, (t.entry image.index).usedBlk⟩

/-- The image a write command is for. -/
def target (argv : List (List UInt8)) : Option Image :=
  match direction argv, attributeOf argv with
  | some true, some 0x0 => some .fwbl1
  | some true, some 0x2 => some .bootloader
  | some true, some 0x4 => some .kernel
  | some true, some 0x6 => some .recovery
  | some true, some 0x8 => some .ramdisk
  | some true, some 0x20 => some .bootloader
  | _, _ => none

/-- A ramdisk is no larger than its area, a recovery image no larger than what is left of
    the raw area behind its start. -/
def Fits (t : RawArea) (argv : List (List UInt8)) : Prop :=
  (target argv = some .ramdisk → sizeBlkcnt (argNum argv 4) ≤ (t.area .ramdisk).len) ∧
    (target argv = some .recovery →
      (t.area .recovery).start + sizeBlkcnt (argNum argv 4) ≤ rawAreaSize / moviBlksize)

/-- The bootloader image comprises the first stage. -/
def Combined : Image → Image → Prop
  | .fwbl1, .bootloader | .bootloader, .fwbl1 => True
  | _, _ => False

/-- `blocks` are blocks of the image's own area and of no other's.  The bootloader goes to
    block 1 of an SD card or to block 0 of the boot partition of an eMMC. -/
structure Protected (t : RawArea) (image : Image) (blocks : Extent) : Prop where
  own : blocks.cells ⊆ (t.area image).cells ∨
    image = .bootloader ∧ blocks.start ≤ 1 ∧ blocks.len = (t.area .bootloader).len
  others : ∀ other, other ≠ image → ¬ Combined image other →
    Disjoint blocks.cells (t.area other).cells

/-- One `movi` command; what the globals hold may change between commands. -/
def step (t : RawArea) (c : Env × List (List UInt8)) : RawArea := (doMovi c.1 t c.2).1

-- ============================================================================
-- The layout stays
-- ============================================================================

section Layout

variable {host : Mmc} {t t₀ : RawArea} {env : Env} {argv : List (List UInt8)} {rw : Bool}
variable {rest : List Member} {addr size u v : Nat}

/-- The entries of the table, with the lengths last used for ramdisk and recovery. -/
def entries (host : Mmc) (rest : List Member) (u v : Nat) : List Member :=
  [fwbl1 host, bl2 host, bootloader host, environment, kernel, { ramdisk with usedBlk := u },
    { recovery with usedBlk := v }, disk host] ++ rest

/-- The table is as it was built but for these lengths. -/
def Layout (host : Mmc) (rest : List Member) (t : RawArea) : Prop :=
  ∃ u v, t.image = entries host rest u v

theorem layout_init (host : Mmc) (hmagic : t₀.magicNumber ≠ magicNumberMovi) :
    (initRawAreaTable host t₀).image = entries host
      ((t₀.image.drop 8).map fun m => { m with startBlk := 0, usedBlk := 0 })
      ramdisk.usedBlk recovery.usedBlk := by
  rw [initRawAreaTable, if_pos hmagic]
  rfl

/-- Each attribute is found at the entry of its image. -/
theorem findImage_entries (h : t.image = entries host rest u v) :
    findImage t 0x0 = 0 ∧ findImage t 0x2 = 2 ∧ findImage t 0x4 = 4 ∧ findImage t 0x6 = 6 ∧
      findImage t 0x8 = 5 := by
  simp only [findImage, h, entries, List.cons_append]
  refine ⟨?_, ?_, ?_, ?_, ?_⟩ <;>
    simp [List.findIdx_cons, fwbl1, bl2, bootloader, environment, kernel, ramdisk, recovery]

theorem entry_entries (h : t.image = entries host rest u v) :
    t.entry 0 = fwbl1 host ∧ t.entry 2 = bootloader host ∧ t.entry 3 = environment ∧
      t.entry 4 = kernel ∧ t.entry 5 = { ramdisk with usedBlk := u } ∧
      t.entry 6 = { recovery with usedBlk := v } ∧ t.entry 7 = disk host := by
  rw [RawArea.entry, RawArea.entry, RawArea.entry, RawArea.entry, RawArea.entry, RawArea.entry,
    RawArea.entry, h]
  exact ⟨rfl, rfl, rfl, rfl, rfl, rfl, rfl⟩

/-- The areas of a table just built. -/
theorem area_init (host : Mmc) (hmagic : t₀.magicNumber ≠ magicNumberMovi) (image : Image) :
    (initRawAreaTable host t₀).area image = match image with
      | .fwbl1 => ⟨firstBlk host, 16⟩
      | .bootloader => ⟨firstBlk host, 1038⟩
      | .environment => ⟨1088, 32⟩
      | .kernel => ⟨1120, 12288⟩
      | .ramdisk => ⟨13408, 4096⟩
      | .recovery => ⟨17504, 19360⟩
      | .disk => ⟨32768, (disk host).usedBlk⟩ := by
  obtain ⟨h0, h2, h3, h4, h5, h6, h7⟩ := entry_entries (layout_init host hmagic)
  cases image <;> simp only [RawArea.area, Image.index, h0, h2, h3, h4, h5, h6, h7] <;> rfl

theorem firstBlk_le (host : Mmc) : firstBlk host ≤ 1 := by
  rw [firstBlk]
  split <;> decide

theorem moviSized_ramdisk (h : t.image = entries host rest u v) :
    (moviSized env t rw 0x8 addr size).1.image = entries host rest (sizeBlkcnt size) v ∧
      (moviSized env t rw 0x8 addr size).2 = [.mmc rw (imageDev env) addr 13408 (sizeBlkcnt size)] := by
  simp only [moviSized, (findImage_entries h).2.2.2.2, (entry_entries h).2.2.2.2.1, h]
  exact ⟨rfl, rfl⟩

theorem moviSized_recovery (h : t.image = entries host rest u v) :
    (moviSized env t rw 0x6 addr size).1.image = entries host rest u (sizeBlkcnt size) ∧
      (moviSized env t rw 0x6 addr size).2 = [.mmc rw (imageDev env) addr 17504 (sizeBlkcnt size)] := by
  simp only [moviSized, (findImage_entries h).2.2.2.1, (entry_entries h).2.2.2.2.2.1, h]
  exact ⟨rfl, rfl⟩

theorem attributeOf_mem {attr : Nat} (h : attributeOf argv = some attr) :
    attr = 0x0 ∨ attr = 0x2 ∨ attr = 0x4 ∨ attr = 0x6 ∨ attr = 0x8 ∨ attr = 0x20 := by
  rw [attributeOf] at h
  split at h <;> first | (split at h <;> simp_all) | simp_all

/-- What `do_movi` runs for each image, on a table in its layout. -/
theorem moviImage_spec {attr : Nat} (h : t.image = entries host rest u v)
    (hattr : attributeOf argv = some attr) :
    Layout host rest (moviImage env t rw attr argv).1 ∧
      (moviImage env t rw attr argv).2 = match attr with
        | 0x0 => [.mmc rw 0 (argNum argv 3) (firstBlk host) 16]
        | 0x2 => [.mmc rw 1 (argNum argv 3) 1 1038]
        | 0x4 => [.mmc rw (imageDev env) (argNum argv 3) 1120 12288]
        | 0x6 => [.mmc rw (imageDev env) (argNum argv 3) 17504 (sizeBlkcnt (argNum argv 4))]
        | 0x8 => [.mmc rw (imageDev env) (argNum argv 3) 13408 (sizeBlkcnt (argNum argv 4))]
        | _ => [.emmcOpen, .mmc rw 0 (argNum argv 3) 0 1038, .emmcClose] := by
  obtain ⟨hf0, hf2, hf4, -, -⟩ := findImage_entries h
  obtain ⟨h0, h2, -, h4, -, -, -⟩ := entry_entries h
  have hsame : Layout host rest t := ⟨u, v, h⟩
  rcases attributeOf_mem hattr with rfl | rfl | rfl | rfl | rfl | rfl
  · simp only [moviImage, if_true, hf0, h0]
    exact ⟨hsame, rfl⟩
  · simp only [moviImage, hf2, h2]
    exact ⟨hsame, rfl⟩
  · simp only [moviImage, hf4, h4]
    exact ⟨hsame, rfl⟩
  · have hsized := @moviSized_recovery host t env rw rest (argNum argv 3) (argNum argv 4) u v h
    exact ⟨⟨u, _, hsized.1⟩, hsized.2⟩
  · have hsized := @moviSized_ramdisk host t env rw rest (argNum argv 3) (argNum argv 4) u v h
    exact ⟨⟨_, v, hsized.1⟩, hsized.2⟩
  · simp only [moviImage, hf2, h2]
    exact ⟨hsame, rfl⟩

/-- **Step lemma.**  A command changes no more than the two lengths. -/
theorem layout_step (h : Layout host rest t) (c : Env × List (List UInt8)) :
    Layout host rest (step t c) := by
  obtain ⟨u, v, himage⟩ := h
  rw [step, doMovi]
  split
  · exact ⟨u, v, himage⟩
  · split
    · rename_i hattr
      exact (moviImage_spec himage hattr).1
    · exact ⟨u, v, himage⟩

/-- **Run lemma.** -/
theorem layout_run (h : Layout host rest t) (cs : List (Env × List (List UInt8))) :
    Layout host rest (run step t cs) :=
  @run_invariant_all _ _ step (Layout host rest) (fun _ c ht => layout_step ht c) t h cs

theorem direction_not_init {rw : Bool} (h : direction argv = some rw) : argChar argv 1 ≠ 105 := by
  intro hinit
  rw [direction, hinit] at h
  simp at h

theorem doMovi_image {attr : Nat} (hdir : direction argv = some rw)
    (hattr : attributeOf argv = some attr) : doMovi env t argv = moviImage env t rw attr argv := by
  rw [doMovi, if_neg (direction_not_init hdir), hdir, hattr]

/-- Without a target nothing is written. -/
theorem written_of_no_target (h : Layout host rest t) (hnone : target argv = none) :
    written (doMovi env t argv).2 = [] := by
  obtain ⟨u, v, himage⟩ := h
  cases hdir : direction argv with
  | none =>
    rw [doMovi, hdir]
    split <;> rfl
  | some rw =>
    cases hattr : attributeOf argv with
    | none =>
      rw [doMovi, hattr, if_neg (direction_not_init hdir), hdir]
      rfl
    | some attr =>
      rw [target, hdir, hattr] at hnone
      rw [doMovi_image hdir hattr, (moviImage_spec himage hattr).2]
      rcases attributeOf_mem hattr with rfl | rfl | rfl | rfl | rfl | rfl <;>
        cases rw <;> first | rfl | simp at hnone

/-- What a write command writes, by its image. -/
theorem written_of_target {image : Image} (h : Layout host rest t)
    (ht : target argv = some image) {w : Nat × Extent} (hw : w ∈ written (doMovi env t argv).2) :
    match image with
    | .fwbl1 => w.2 = ⟨firstBlk host, 16⟩
    | .bootloader => w.2 = ⟨1, 1038⟩ ∨ w.2 = ⟨0, 1038⟩
    | .kernel => w.2 = ⟨1120, 12288⟩
    | .ramdisk => w.2 = ⟨13408, sizeBlkcnt (argNum argv 4)⟩
    | .recovery => w.2 = ⟨17504, sizeBlkcnt (argNum argv 4)⟩
    | .environment | .disk => False := by
  obtain ⟨u, v, himage⟩ := h
  cases hdir : direction argv with
  | none =>
    rw [target, hdir] at ht
    simp at ht
  | some rw =>
    cases hattr : attributeOf argv with
    | none =>
      rw [target, hdir, hattr] at ht
      cases rw <;> simp at ht
    | some attr =>
      rw [target, hdir, hattr] at ht
      rw [doMovi_image hdir hattr, (moviImage_spec himage hattr).2] at hw
      cases rw with
      | false => simp at ht
      | true =>
        rcases attributeOf_mem hattr with rfl | rfl | rfl | rfl | rfl | rfl <;>
          obtain rfl := Option.some.inj ht <;> obtain rfl := List.mem_singleton.mp hw
        · rfl
        · exact .inl rfl
        · rfl
        · rfl
        · rfl
        · exact .inr rfl

/-- A table no card has filled in yet. -/
def emptyTable : RawArea := ⟨0, 0, 0, 0, "", List.replicate 15 ⟨0, 0, 0, 0, ""⟩⟩

/-- An SD card the board has booted from. -/
def sdCard : Mmc := ⟨"S3C_HSMMC2", true, 0x760000, 512⟩

def sdBoot : Env := ⟨.mmcsd, 0, 0, "S3C_HSMMC2"⟩

/-- A command line. -/
def words (ws : List String) : List (List UInt8) := ws.map ascii

end Layout

end Uboot.Common.CmdMovi
