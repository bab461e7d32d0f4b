/-
  Uboot.Common.CmdMtdparts

  The MTD partition table of common/cmd_mtdparts.c: the parser of the variable
  `mtdparts`, the printer `generate_mtdparts`, and the commands that change the list of
  devices.

  Sizes and offsets are `u32`.  What depends on the flash chips is a parameter: the
  erase blocks of a device, as `get_mtd_device_nm` describes them.  The current
  partition and the variables that name it are left out.
-/

import Uboot.Lib.Run
import Uboot.LibGeneric.Vsprintf

namespace Uboot.Common.CmdMtdparts

open Uboot.Lib Uboot.LibGeneric

-- ============================================================================
-- Data
-- ============================================================================

/-- `MTD_DEV_TYPE` -/
inductive MtdType
  | nor
  | nand
  | onenand
  deriving DecidableEq

/-- `struct mtdids`. -/
structure MtdIds where
  type : MtdType
  num : Nat
  size : Nat
  mtdId : List UInt8
  deriving DecidableEq

/-- `struct part_info`. -/
structure PartInfo where
  name : List UInt8
  autoName : Bool
  size : Nat
  offset : Nat
  maskFlags : Nat
  /-- The definition had a size and an offset.  The source does not keep this, and no
      function reads it. -/
  given : Bool
  deriving DecidableEq

/-- `struct mtd_device`; `num_parts` is the length of the list. -/
structure MtdDevice where
  id : MtdIds
  parts : List PartInfo
  deriving DecidableEq

/-- `struct mtd_erase_region_info`. -/
structure EraseRegion where
  offset : Nat
  erasesize : Nat
  numblocks : Nat

/-- `struct mtd_info`, as far as it is read. -/
structure MtdInfo where
  erasesize : Nat
  eraseregions : List EraseRegion

/-- `get_mtd_device_nm` -/
abbrev Flash := MtdType → Nat → Option MtdInfo

def sizeRemaining : Nat := 0xffffffff
def offsetNotSpecified : Nat := 0xffffffff
def minPartSize : Nat := 4096
def mtdWriteableCmd : Nat := 1
def mtdpartsMaxlen : Nat := 512

-- ============================================================================
-- Sizes as text
-- ============================================================================

/-- `memsize_parse`: the number and the rest of the string. -/
def memsizeParse (ptr : List UInt8) : Nat × List UInt8 :=
  let ret := simpleStrtoul ptr 0
  match strtoulEndp ptr 0 with
  | [] => (ret, [])
  | c :: cs =>
    if c = 71 ∨ c = 103 then (u32 (ret * 1073741824), cs)
    else if c = 77 ∨ c = 109 then (u32 (ret * 1048576), cs)
    else if c = 75 ∨ c = 107 then (u32 (ret * 1024), cs)
    else (ret, c :: cs)

/-- `memsize_format`. -/
def memsizeFormat (size : Nat) : List UInt8 :=
  if size % 1073741824 = 0 then decimal (size / 1073741824) ++ [103]
  else if size % 1048576 = 0 then decimal (size / 1048576) ++ [109]
  else if size % 1024 = 0 then decimal (size / 1024) ++ [107]
  else decimal size

/-- `"0x%08lx@0x%08lx"` -/
def autoPartName (size offset : Nat) : List UInt8 :=
  [48, 120] ++ hex8 size ++ [64, 48, 120] ++ hex8 offset

-- ============================================================================
-- Partitions
-- ============================================================================

/-- `part_validate_eraseblock`. -/
def partValidateEraseblock (flash : Flash) (id : MtdIds) (part : PartInfo) : Bool :=
  match flash id.type id.num with
  | none => false
  | some mtd =>
    if mtd.eraseregions = [] then
      decide (part.offset % mtd.erasesize = 0) && decide (part.size % mtd.erasesize = 0)
    else
      let blocks := mtd.eraseregions.flatMap fun r =>
        (List.range r.numblocks).map fun j => u32 (r.offset + j * r.erasesize)
      -- where `start` is left behind the loops
      let last := mtd.eraseregions.getLast?.map fun r => u32 (r.offset + r.numblocks * r.erasesize)
      decide (part.offset ∈ blocks) &&
        (decide (u32 (part.offset + part.size) ∈ blocks) ||
          decide (some (u32 (part.offset + part.size)) = last))

/-- `part_validate`: the partition with its size, if it is valid. -/
def partValidate (flash : Flash) (id : MtdIds) (part : PartInfo) : Option PartInfo :=
  let part :=
    if part.size = sizeRemaining then { part with size := usub id.size part.offset } else part
  if id.size < part.offset then none
  else if u32 (part.offset + part.size) ≤ part.offset then none
  else if id.size < u32 (part.offset + part.size) then none
  else if partValidateEraseblock flash id part then some part
  else none

/-- `part_sort_add`; `none` for a second partition at offset 0. -/
def partSortAdd : List PartInfo → PartInfo → Option (List PartInfo)
  | [], part => some [part]
  | pi :: ps, part =>
    if part.offset = pi.offset ∧ pi.offset = 0 then none
    else if part.offset ≤ pi.offset then some (part :: pi :: ps)
    else (partSortAdd ps part).map (pi :: ·)

/-- `part_add`. -/
def partAdd (flash : Flash) (dev : MtdDevice) (part : PartInfo) : Option (List PartInfo) :=
  (partValidate flash dev.id part).bind (partSortAdd dev.parts)

/-- The name of a definition, if there is one; `none` for an error. -/
def namePart : List UInt8 → Option (Option (List UInt8) × List UInt8)
  | [] => some (none, [])
  | c :: cs =>
    if c = 40 then
      match cs.dropWhile (· ≠ 41) with
      | [] => none
      | _ :: rest => if cs.takeWhile (· ≠ 41) = [] then none else some (cs.takeWhile (· ≠ 41), rest)
    else some (none, c :: cs)

/-- The option `ro`. -/
def optionPart : List UInt8 → Nat × List UInt8
  | 114 :: 111 :: cs => (mtdWriteableCmd, cs)
  | cs => (0, cs)

/-- What has to follow a definition: the place where the next one starts. -/
def endPart (size : Nat) : List UInt8 → Option (List UInt8)
  | [] => some []
  | c :: cs =>
    if c = 44 then if size = sizeRemaining then none else some cs
    else if c = 59 then some (c :: cs)
    else none

/-- `part_parse`. -/
def partParse (partdef : List UInt8) : Option (PartInfo × List UInt8) :=
  let remaining := partdef.head? = some 45
  let s := if remaining then (sizeRemaining, partdef.tail) else memsizeParse partdef
  if ¬ remaining ∧ s.1 < minPartSize then none
  else
    let o := if s.2.head? = some 64 then memsizeParse s.2.tail else (offsetNotSpecified, s.2)
    match namePart o.2 with
    | none => none
    | some (name, p) =>
      let m := optionPart p
      match endPart s.1 m.2 with
      | none => none
      | some p =>
        some
          ({ name := name.getD (autoPartName s.1 o.1)
             autoName := name.isNone
             size := s.1
             offset := o.1
             maskFlags := m.1
             given := s.1 ≠ sizeRemaining && o.1 ≠ offsetNotSpecified }, p)

-- ============================================================================
-- Devices
-- ============================================================================

/-- `id_find`. -/
def idFind (ids : List MtdIds) (type : MtdType) (num : Nat) : Option MtdIds :=
  ids.find? fun id => id.type = type && id.num = num

/-- `id_find_by_mtd_id`. -/
def idFindByMtdId (ids : List MtdIds) (mtdId : List UInt8) : Option MtdIds :=
  ids.find? fun id => id.mtdId = mtdId

/-- `device_find`. -/
def deviceFind (devices : List MtdDevice) (type : MtdType) (num : Nat) : Option MtdDevice :=
  devices.find? fun dev => dev.id.type = type && dev.id.num = num

/-- The loop over the definitions of a device: the partitions, and where it stops.
    Each pass reads a character at least, so the length of the string is fuel enough. -/
def partsParse (flash : Flash) (id : MtdIds) :
    Nat → List UInt8 → Nat → Option (List PartInfo × List UInt8)
  | 0, _, _ => none
  | fuel + 1, p, offset =>
    if p = [] ∨ p.head? = some 59 then some ([], p)
    else
      match partParse p with
      | none => none
      | some (part, p) =>
        let part := if part.offset = offsetNotSpecified then { part with offset } else part
        match partValidate flash id part with
        | none => none
        | some part =>
          (partsParse flash id fuel p (u32 (part.offset + part.size))).map fun r =>
            (part :: r.1, r.2)

/-- The partitions are moved to the device one by one. -/
def partsSortAdd : List PartInfo → List PartInfo → Option (List PartInfo)
  | ps, [] => some ps
  | ps, part :: parts => (partSortAdd ps part).bind fun ps => partsSortAdd ps parts

/-- `device_parse`: the device and the place where the next one starts. -/
def deviceParse (flash : Flash) (ids : List MtdIds) (devices : List MtdDevice)
    (mtdDev : List UInt8) : Option (MtdDevice × List UInt8) :=
  match mtdDev.dropWhile (· ≠ 58) with
  | [] => none
  | _ :: p =>
    match idFindByMtdId ids (mtdDev.takeWhile (· ≠ 58)) with
    | none => none
    | some id =>
      -- if the device already exists start at the end of the last partition
      let offset :=
        match (deviceFind devices id.type id.num).bind fun dev => dev.parts.getLast? with
        | none => 0
        | some part => u32 (part.offset + part.size)
      match partsParse flash id (p.length + 1) p offset with
      | none => none
      | some (parts, p) =>
        if parts = [] then none
        else (partsSortAdd [] parts).map fun parts => (⟨id, parts⟩, p.tail)

/-- The loop of `parse_mtdparts` over the devices. -/
def devicesParse (flash : Flash) (ids : List MtdIds) :
    Nat → List MtdDevice → List UInt8 → Option (List MtdDevice)
  | 0, _, _ => none
  | fuel + 1, devices, p =>
    if p = [] then some devices
    else
      match deviceParse flash ids devices p with
      | none => none
      | some (dev, p) =>
        if (deviceFind devices dev.id.type dev.id.num).isSome then none
        else devicesParse flash ids fuel (devices ++ [dev]) p

/-- `"mtdparts="` -/
def mtdpartsPrefix : List UInt8 := ascii "mtdparts="

/-- `parse_mtdparts` on the value of the variable: the new list, or `none` for an error,
    which leaves the list empty. -/
def parseMtdparts (flash : Flash) (ids : List MtdIds) (mtdparts : List UInt8) :
    Option (List MtdDevice) :=
  if mtdpartsPrefix.isPrefixOf mtdparts then
    let p := mtdparts.drop mtdpartsPrefix.length
    if p = [] then none else devicesParse flash ids (p.length + 1) [] p
  else none

-- ============================================================================
-- Printing
-- ============================================================================

/-- The offset is printed: the partition does not start where the one before ends. -/
def offsetPrinted (prev : Option PartInfo) (part : PartInfo) : Bool :=
  match prev with
  | none => part.offset ≠ 0
  | some prev => u32 (prev.offset + prev.size) ≠ part.offset

/-- The pieces of text of a partition; `more` if another one follows. -/
def partPieces (prev : Option PartInfo) (part : PartInfo) (more : Bool) : List (List UInt8) :=
  [memsizeFormat part.size] ++
    (if offsetPrinted prev part then [64 :: memsizeFormat part.offset] else []) ++
    (if part.autoName then [] else [40 :: part.name ++ [41]]) ++
    (if part.maskFlags ≠ 0 then [[114, 111]] else []) ++
    if more then [[44]] else []

/-- The pieces of the partitions of a device. -/
def partsPieces : Option PartInfo → List PartInfo → List (List UInt8)
  | _, [] => []
  | prev, part :: parts => partPieces prev part (parts ≠ []) ++ partsPieces (some part) parts

/-- The pieces of all devices. -/
def devicesPieces : List MtdDevice → List (List UInt8)
  | [] => []
  | dev :: devices =>
    [dev.id.mtdId ++ [58]] ++ partsPieces none dev.parts ++
      (if devices ≠ [] then [[59]] else []) ++ devicesPieces devices

/-- The pieces one behind the other, as long as each fits into what is left. -/
def copyPieces : Nat → List (List UInt8) → Option (List UInt8)
  | _, [] => some []
  | maxlen, piece :: pieces =>
    if maxlen < piece.length then none
    else (copyPieces (maxlen - piece.length) pieces).map (piece ++ ·)

/-- `generate_mtdparts`, for the buffer that the commands have for it. -/
def generateMtdparts (devices : List MtdDevice) : Option (List UInt8) :=
  if devices = [] then some []
  else (copyPieces (mtdpartsMaxlen - 1) (devicesPieces devices)).map (mtdpartsPrefix ++ ·)

-- ============================================================================
-- Commands
-- ============================================================================

/-- `mtdids` and `devices`. -/
structure MtdState where
  ids : List MtdIds
  devices : List MtdDevice

/-- What changes the lists. -/
inductive Command
  /-- The variable `mtdids` has changed and is read again; no device is kept. -/
  | mtdids (ids : List MtdIds)
  /-- The variable `mtdparts` has changed and is read again. -/
  | mtdparts (value : List UInt8)
  /-- `mtdparts add`: the device, and the other arguments. -/
  | add (type : MtdType) (num : Nat) (size name : List UInt8) (flags : List UInt8)
  /-- `mtdparts del`: the places of the device and of its partition. -/
  | del (dev part : Nat)
  /-- `mtdparts delall`. -/
  | delall

/-- `mtdparts add`. -/
def doAdd (flash : Flash) (s : MtdState) (type : MtdType) (num : Nat)
    (size name flags : List UInt8) : MtdState :=
  match idFind s.ids type num with
  | none => s
  | some id =>
    -- the length is a `u8`
    let len := id.mtdId.length + 1 + size.length + name.length + 2 +
      if flags.length = 2 then 2 else 0
    if 64 ≤ len % 256 then s
    else
      match deviceParse flash s.ids s.devices
          (id.mtdId ++ [58] ++ size ++ [40] ++ name ++ [41] ++ flags) with
      | none => s
      | some (dev, _) =>
        match deviceFind s.devices dev.id.type dev.id.num, dev.parts with
        | none, _ => { s with devices := s.devices ++ [dev] }
        | some _, [] => s
        | some devTmp, part :: _ =>
          match partAdd flash devTmp part with
          | none => s
          | some parts =>
            { s with
              devices := s.devices.map fun d =>
                if d.id.type = dev.id.type ∧ d.id.num = dev.id.num then { d with parts } else d }

/-- `part_del`. -/
def partDel (devices : List MtdDevice) (dev part : Nat) : List MtdDevice :=
  match devices[dev]? with
  | none => devices
  | some d =>
    if d.parts.length ≤ part then devices
    else if d.parts.length = 1 then devices.eraseIdx dev
    else devices.set dev { d with parts := d.parts.eraseIdx part }

/-- A command. -/
def mtdStep (flash : Flash) (s : MtdState) : Command → MtdState
  | .mtdids ids => ⟨ids, []⟩
  | .mtdparts value => { s with devices := (parseMtdparts flash s.ids value).getD [] }
  | .add type num size name flags => doAdd flash s type num size name flags
  | .del dev part => { s with devices := partDel s.devices dev part }
  | .delall => { s with devices := [] }

end Uboot.Common.CmdMtdparts
