/-
  Uboot.Tools.Mkimage

  The legacy image writer of tools/mkimage.c and tools/default_image.c: the size
  table and the component files of a multi-component image, and the header with
  its two checksums.  Files are their contents; a `write` of a negative count fails.
-/

import Uboot.Lib.Holds
import Uboot.LibGeneric.Crc32
import Uboot.LibGeneric.Vsprintf

namespace Uboot.Tools.Mkimage

open Uboot.Lib Uboot.LibGeneric

-- ============================================================================
-- The header
-- ============================================================================

/-- `IH_MAGIC` -/
def ihMagic : Nat := 0x27051956

/-- `IH_NMLEN` -/
def ihNmlen : Nat := 32

/-- `IH_TYPE_MULTI` -/
def ihTypeMulti : Nat := 4

/-- `IH_TYPE_SCRIPT` -/
def ihTypeScript : Nat := 6

/-- `sizeof (image_header_t)` -/
def imageHeaderSize : Nat := 64

/-- `image_header_t` -/
structure ImageHeader where
  magic : Nat
  hcrc : Nat
  time : Nat
  size : Nat
  load : Nat
  ep : Nat
  dcrc : Nat
  os : UInt8
  arch : UInt8
  type : UInt8
  comp : UInt8
  name : List UInt8
  name_length : name.length = ihNmlen

/-- The header in the file. -/
def ImageHeader.bytes (h : ImageHeader) : List UInt8 :=
  be32 h.magic ++ (be32 h.hcrc ++ (be32 h.time ++ (be32 h.size ++ (be32 h.load ++ (be32 h.ep ++
    (be32 h.dcrc ++ ([h.os, h.arch, h.type, h.comp] ++ h.name)))))))

@[simp] theorem ImageHeader.bytes_length (h : ImageHeader) : h.bytes.length = imageHeaderSize := by
  simp only [bytes, List.length_append, be32_length, h.name_length]
  rfl

/-- `strncpy (hdr->ih_name, name, IH_NMLEN)` -/
def imageSetName (name : List UInt8) : List UInt8 :=
  (cstr name).take ihNmlen ++ List.replicate (ihNmlen - (cstr name).length) 0

theorem imageSetName_length (name : List UInt8) : (imageSetName name).length = ihNmlen := by
  rw [imageSetName, List.length_append, List.length_take, List.length_replicate]
  omega

-- ============================================================================
-- The writer
-- ============================================================================

/-- The parameters of the command line the header is made from. -/
structure Params where
  os : Nat
  arch : Nat
  type : Nat
  comp : Nat
  addr : Nat
  ep : Nat
  imagename : List UInt8
  xflag : Bool

/-- `write (fd, ptr, size)` with an `int` count. -/
def write (bytes : List UInt8) (size : Nat) : Option (List UInt8) :=
  if size < 0x80000000 then some (bytes.take size) else none

/-- `copy_file`.  An empty file cannot be mapped. -/
def copyFile (p : Params) (datafile : List UInt8) (pad : Bool) : Option (List UInt8) :=
  if datafile = [] then none
  else
    let xip := p.xflag ∧
      (u32 datafile.length < imageHeaderSize ∨ ∃ b ∈ datafile.take imageHeaderSize, b ≠ 0xff)
    if xip then none
    else
      let offset := if p.xflag then imageHeaderSize else 0
      let size := usub (u32 datafile.length) offset
      let tail := size % 4
      (write (datafile.drop offset) size).map fun out =>
        if pad ∧ tail ≠ 0 then out ++ List.replicate (4 - tail) 0 else out

/-- The second loop of `main`: every file but the last is padded. -/
def copyFiles (p : Params) : List (List UInt8) → Option (List UInt8)
  | [] => none
  | [file] => copyFile p file false
  | file :: files => do
    let out ← copyFile p file true
    let rest ← copyFiles p files
    return out ++ rest

/-- The first loop of `main`: the sizes, and a zero behind the last. -/
def sizeTable (files : List (List UInt8)) : List UInt8 :=
  files.flatMap (fun file => be32 file.length) ++ be32 0

/-- What `main` writes behind the header. -/
def payload (p : Params) (files : List (List UInt8)) : Option (List UInt8) :=
  if p.type = ihTypeMulti ∨ p.type = ihTypeScript then
    (copyFiles p files).map fun data => sizeTable files ++ data
  else copyFile p (files.headD []) false

/-- `image_set_header` on the mapped file, with the checksum of the header still 0. -/
def headerNoCrc (p : Params) (ptr mtime : Nat) (data : List UInt8) : ImageHeader where
  magic := ihMagic
  hcrc := 0
  time := mtime
  size := data.length
  load := p.addr
  ep := p.ep
  dcrc := (crc32At (ptr + imageHeaderSize) 0 data).toNat
  os := UInt8.ofNat p.os
  arch := UInt8.ofNat p.arch
  type := UInt8.ofNat p.type
  comp := UInt8.ofNat p.comp
  name := imageSetName p.imagename
  name_length := imageSetName_length _

/-- `image_set_header` -/
def imageSetHeader (p : Params) (ptr mtime : Nat) (data : List UInt8) : ImageHeader :=
  let hdr := headerNoCrc p ptr mtime data
  { hdr with hcrc := (crc32At ptr 0 hdr.bytes).toNat }

/-- The file `mkimage` leaves, mapped at `ptr` for its header. -/
def mkimage (p : Params) (ptr mtime : Nat) (files : List (List UInt8)) : Option (List UInt8) :=
  (payload p files).map fun data => (imageSetHeader p ptr mtime data).bytes ++ data

end Uboot.Tools.Mkimage
