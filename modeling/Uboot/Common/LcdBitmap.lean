/-
  Uboot.Common.LcdBitmap

  Drawing a bitmap on the display: `lcd_display_bitmap` of common/lcd.c for images of 8 and 16 bits
  a pixel.

  The image file and the frame buffer are apart from each other.  The pointers into them are 32-bit
  offsets, `bmap` from the first byte of the pixel data and `fb` from `lcd_base`.  What the MCC200
  does for a panel of one bit a pixel is left out: there such an image is refused.
-/

import Uboot.Lib.ByteOrder
import Uboot.Lib.Holds
import Uboot.Lib.Loop
import Uboot.Lib.Ram

namespace Uboot.Common.LcdBitmap

open Uboot.Lib Relation

-- ============================================================================
-- The build, the panel and the image
-- ============================================================================

/-- The controllers that the function has cases for. -/
inductive Controller
  | pxa250
  | mpc823
  | atmelLcd
  | mcc200
  | other
  deriving DecidableEq

/-- The options the function is built with. -/
structure Build where
  controller : Controller
  /-- CONFIG_BMP_16BPP -/
  bmp16bpp : Bool
  /-- CONFIG_ATMEL_LCD_BGR555 -/
  bgr555 : Bool
  /-- CONFIG_SYS_INVERT_COLORS -/
  invertColors : Bool
  /-- CONFIG_SPLASH_SCREEN_ALIGN -/
  splashScreenAlign : Bool
  byteOrder : ByteOrder

/-- NBITS -/
def nbits (bitCode : Nat) : Nat := 2 ^ bitCode

/-- `panel_info`.  The frame buffer leaves at least a line of the address space free: the code is
    there. -/
structure Panel where
  vlCol : Nat
  vlRow : Nat
  vlBpix : Nat
  line_lt : vlCol * nbits vlBpix < 2147483648
  vlRow_lt : vlRow < 4294967296
  room : vlCol * nbits vlBpix / 8 * (vlRow + 1) ≤ 4294967296

/-- `lcd_line_length` -/
def Panel.lineLength (p : Panel) : Nat := p.vlCol * nbits p.vlBpix / 8

/-- The frame buffer. -/
def Panel.frame (p : Panel) : Extent := ⟨0, p.lineLength * p.vlRow⟩

/-- `bmp_header_t` of an image of 8 or 16 bits a pixel. -/
structure BmpHeader where
  signature : UInt8 × UInt8
  width : Nat
  height : Nat
  bitCount : Nat
  width_lt : width < 4294967296
  height_lt : height < 4294967296
  bitCount_eq : bitCount = 8 ∨ bitCount = 16

/-- `bmp_color_table_entry_t` -/
structure ColorTableEntry where
  blue : UInt8
  green : UInt8
  red : UInt8
  deriving Inhabited

/-- What is in memory before the call: the image, the entries around the one that `cmap_base` points
    to, and the frame buffer. -/
structure Contents where
  data : Nat → UInt8
  colorTable : Nat → ColorTableEntry
  cmap : Int → UInt16
  frame : Mem UInt8
  deriving Inhabited

/-- A call, at a position that is not negative. -/
structure Call where
  build : Build
  panel : Panel
  header : BmpHeader
  x : Nat
  y : Nat
  x_lt : x < 2147483648
  y_lt : y < 2147483648

-- ============================================================================
-- The loops
-- ============================================================================

/-- The two loops over an image, of either pixel format: what they store for the pixel that `bmap`
    points to, and how far they move the pointers for a pixel and behind a row. -/
structure Loops where
  width : Nat
  height : Nat
  bytes : Nat
  pixel : Nat → List UInt8
  pixel_length : ∀ a, (pixel a).length = bytes
  taken : Nat
  skip : Nat
  back : Nat

/-- The variables of the loops; between two rows there is no `j`. -/
structure State where
  i : Nat
  j : Option Nat
  bmap : Nat
  fb : Nat
  ram : Ram

namespace Loops

variable (l : Loops)

/-- To the first pixel of a row. -/
def enter (s : State) : State := { s with j := some 0 }

/-- A pixel. -/
def put (s : State) (j : Nat) : State where
  i := s.i
  j := some ((j + 1) % 65536)
  bmap := u32 (s.bmap + l.taken)
  fb := u32 (s.fb + l.bytes)
  ram := s.ram.store s.fb (l.pixel s.bmap)

/-- Behind the last pixel of a row. -/
def leave (s : State) : State where
  i := (s.i + 1) % 65536
  j := none
  bmap := u32 (s.bmap + l.skip)
  fb := usub s.fb l.back
  ram := s.ram

def turn (s : State) : Turn State Ram :=
  match s.j with
  | none => if s.i < l.height then .next (enter s) else .done s.ram
  | some j => if j < l.width then .next (l.put s j) else .next (l.leave s)

end Loops

-- ============================================================================
-- lcd_display_bitmap
-- ============================================================================

/-- `colreg`, as it is entered in the color map -/
def Build.colreg (b : Build) (cte : ColorTableEntry) : UInt16 :=
  let colreg : UInt16 := (cte.red.toUInt16 <<< 8 &&& (0xf800 : UInt16)) |||
    (cte.green.toUInt16 <<< 3 &&& (0x07e0 : UInt16)) ||| (cte.blue.toUInt16 >>> 3 &&& (0x001f : UInt16))
  if b.invertColors then 0xffff - colreg else colreg

/-- The loop that sets the color map: what is in memory around `cmap_base` afterwards.  With an Atmel
    controller or on the MCC200 `cmap_base` is NULL. -/
def Build.setColorMap (b : Build) (s : Contents) : Int → UInt16 :=
  let fill := fun (dir : Int) => (List.range 256).foldl
    (fun m (i : Nat) => Function.update m (dir * i) (b.colreg (s.colorTable i))) s.cmap
  match b.controller with
  | .pxa250 | .other => fill 1
  | .mpc823 => fill (-1)
  | .atmelLcd | .mcc200 => s.cmap

/-- The bytes of a `uint16_t`. -/
def Build.word (b : Build) (v : UInt16) : List UInt8 :=
  [b.byteOrder.byteAt (n := 2) v.toBitVec 0, b.byteOrder.byteAt (n := 2) v.toBitVec 1]

/-- What is stored for the two bytes of a 16-bit pixel. -/
def Build.pixel16 (b : Build) (b0 b1 : UInt8) : List UInt8 :=
  if b.bgr555 then
    [(b0 &&& (0x1f : UInt8)) <<< 2 ||| (b1 &&& (0x03 : UInt8)), (b0 &&& (0xe0 : UInt8)) ||| (b1 &&& (0x7c : UInt8)) >>> 2]
  else [b0, b1]

/-- An extent where the image sticks out of the panel. -/
def clip (pos extent size : Nat) : Nat := if u32 (pos + extent) > size then usub size pos else extent

namespace Call

variable (c : Call) (s : Contents)

/-- `bpix` -/
def bpix : Nat := nbits c.panel.vlBpix

/-- The function returns 1. -/
def Refused : Prop :=
  ¬ (c.header.signature.1 = 0x42 ∧ c.header.signature.2 = 0x4d) ∨
    (c.bpix ≠ 1 ∧ c.bpix ≠ 8 ∧ c.bpix ≠ 16) ∨
    (c.bpix ≠ c.header.bitCount ∧ (c.header.bitCount ≠ 8 ∨ c.bpix ≠ 16))

instance : Decidable c.Refused := inferInstanceAs (Decidable (_ ∨ _ ∨ _))

/-- `padded_line`, a `ushort` -/
def paddedLine : Nat :=
  (if c.header.width % 4 ≠ 0 then c.header.width / 4 * 4 + 4 else c.header.width) % 65536

/-- A coordinate, or `BMP_ALIGN_CENTER` for one. -/
def align (pos extent size : Nat) : Nat :=
  if c.build.splashScreenAlign ∧ pos = 0x7fff then usub size extent / 2 else pos

/-- `x`, aligned -/
def col : Nat := c.align c.x c.header.width c.panel.vlCol

/-- `y`, aligned -/
def row : Nat := c.align c.y c.header.height c.panel.vlRow

/-- `width`, clipped -/
def width : Nat := clip c.col c.header.width c.panel.vlCol

/-- `height`, clipped -/
def height : Nat := clip c.row c.header.height c.panel.vlRow

/-- `fb`, at the first pixel of the lowest row -/
def fb : Nat := u32 (usub (u32 (c.row + c.height)) 1 * c.panel.lineLength + c.col)

/-- A controller that has no code to store an 8-bit pixel on an 8-bit panel. -/
def NoStore : Prop := c.header.bitCount = 8 ∧ c.bpix ≠ 16 ∧ c.build.controller = .other

instance : Decidable c.NoStore := inferInstanceAs (Decidable (_ ∧ _ ∧ _))

/-- What is stored for an 8-bit pixel. -/
def pixel8 (v : UInt8) : List UInt8 :=
  if c.bpix ≠ 16 then
    match c.build.controller with
    | .pxa250 | .atmelLcd => [v]
    | .mpc823 | .mcc200 => [255 - v]
    | .other => []
  else c.build.word (c.build.setColorMap s v.toNat)

theorem pixel8_length (v : UInt8) :
    (c.pixel8 s v).length = if c.bpix ≠ 16 then if c.build.controller = .other then 0 else 1 else 2 := by
  rw [pixel8]
  split
  · cases c.build.controller <;> rfl
  · rfl

/-- `case 8` -/
def loops8 : Loops where
  width := c.width
  height := c.height
  bytes := if c.bpix ≠ 16 then if c.build.controller = .other then 0 else 1 else 2
  pixel a := c.pixel8 s (s.data a)
  pixel_length a := c.pixel8_length s (s.data a)
  taken := if c.bpix ≠ 16 ∧ c.build.controller = .other then 0 else 1
  skip := usub c.width c.paddedLine
  back :=
    let byteWidth := if c.bpix ≠ 16 then c.width else u32 (c.width * 2)
    u32 (byteWidth + c.panel.lineLength)

theorem pixel16_length (b : Build) (b0 b1 : UInt8) : (b.pixel16 b0 b1).length = 2 := by
  rw [Build.pixel16]
  split <;> rfl

/-- `case 16` -/
def loops16 : Loops where
  width := c.width
  height := c.height
  bytes := 2
  pixel a := c.build.pixel16 (s.data a) (s.data (u32 (a + 1)))
  pixel_length _ := pixel16_length c.build _ _
  taken := 2
  skip := u32 (usub c.paddedLine c.width * 2)
  back := u32 (c.width * 2 + c.panel.lineLength)

end Call

/-- What follows the checks: a return, or the loops of a pixel format and then `return (0)`. -/
inductive Begun
  | returns (r : Int)
  | draws (l : Loops)

namespace Call

variable (c : Call) (s : Contents)

/-- `lcd_display_bitmap`, up to its loops -/
def lcdDisplayBitmap : Begun :=
  if c.Refused then .returns 1
  else if c.header.bitCount = 8 then .draws (c.loops8 s)
  else if c.build.bmp16bpp then .draws (c.loops16 s)
  else .returns 0

/-- Where the loops start. -/
def start : State := ⟨0, none, 0, c.fb, ⟨s.frame, []⟩⟩

-- ============================================================================
-- What it should do
-- ============================================================================

/-- The bytes of a row of the image file. -/
def stride : Nat := (c.header.width * (c.header.bitCount / 8) + 3) / 4 * 4

/-- What the panel has for a pixel of the image: the number of a color, the color itself, or a 16-bit
    pixel. -/
def shown (b0 b1 : UInt8) : List UInt8 :=
  if c.header.bitCount = 8 then
    if c.bpix ≠ 16 then
      match c.build.controller with
      | .pxa250 | .atmelLcd | .other => [b0]
      | .mpc823 | .mcc200 => [255 - b0]
    else c.build.word (c.build.colreg (s.colorTable b0.toNat))
  else c.build.pixel16 b0 b1

/-- The pixel of the image in row `r`, from the top, and column `q`. -/
def imagePixel (r q : Nat) : List UInt8 :=
  let a := (c.header.height - 1 - r) * c.stride + q * (c.header.bitCount / 8)
  c.shown s (s.data (u32 a)) (s.data (u32 (a + 1)))

/-- Each pixel of the panel that the image covers shows the image's. -/
def Shows (m : Mem UInt8) : Prop :=
  ∀ r q, r < c.header.height → q < c.header.width → c.row + r < c.panel.vlRow → c.col + q < c.panel.vlCol →
    m.Holds ((c.row + r) * c.panel.lineLength + (c.col + q) * (c.bpix / 8)) (c.imagePixel s r q)

/-- Whatever is in memory, the call writes only inside the frame buffer, and when it returns 0 the
    covered pixels show the image. -/
def Right : Prop :=
  ∀ s, match c.lcdDisplayBitmap s with
    | .returns r => r = 0 → c.Shows s s.frame
    | .draws l =>
      (∀ t, ReflTransGen (Goes l.turn) (c.start s) t → t.ram.WritesIn c.panel.frame) ∧
        ∀ n r, loop l.turn n (c.start s) = some r → c.Shows s r.cells

-- ============================================================================
-- When it does
-- ============================================================================

/-- The columns of the panel that the image covers. -/
def covCols : Nat := min c.header.width (c.panel.vlCol - c.col)

/-- The rows of the panel that the image covers. -/
def covRows : Nat := min c.header.height (c.panel.vlRow - c.row)

/-- The image covers a pixel. -/
def Visible : Prop := 0 < c.covCols ∧ 0 < c.covRows

end Call

/-- The position is on the panel or right behind it, the end of the image is a number of 32 bits, and
    a `ushort` counts to the clipped extent. -/
def Fits (pos extent size : Nat) : Prop :=
  pos ≤ size ∧ pos + extent < 4294967296 ∧ min extent (size - pos) < 65536

namespace Call

variable (c : Call)

def FitsAcross : Prop := Fits c.col c.header.width c.panel.vlCol

def FitsDown : Prop := Fits c.row c.header.height c.panel.vlRow

/-- Twice the covered columns, or twice the padded number of pixels in a row, leads to the next row of
    the file; `padded_line` has only 16 bits. -/
def RowsFollow : Prop :=
  if c.header.bitCount = 8 then u32 (2 * c.covCols) = u32 (c.stride + c.stride % 65536)
  else u32 (2 * ((c.header.width + 3) / 4 * 4 % 65536)) = u32 c.stride

/-- The condition for an image that covers something: the controller keeps its color map where the
    loop looks it up; on a 16-bit panel the image is in the first column; the first row of the file is
    the lowest that is drawn, and the other rows follow one another. -/
structure Placed : Prop where
  colors : c.header.bitCount = 8 → c.bpix = 16 → c.build.controller = .pxa250 ∨ c.build.controller = .other
  column : c.bpix = 16 → c.col = 0
  lowest : u32 ((c.header.height - c.covRows) * c.stride) = 0
  follow : 2 ≤ c.covRows → c.RowsFollow

/-- The condition under which the call is right. -/
def Meets : Prop :=
  if c.Refused then True
  else if c.header.bitCount = 16 ∧ ¬ c.build.bmp16bpp then ¬ c.Visible
  else if c.NoStore then ¬ (c.FitsAcross ∧ c.FitsDown ∧ c.Visible)
  else (c.FitsAcross ∧ c.covCols = 0) ∨ (c.FitsDown ∧ c.covRows = 0) ∨ (c.FitsAcross ∧ c.FitsDown ∧ c.Placed)

end Call

end Uboot.Common.LcdBitmap
