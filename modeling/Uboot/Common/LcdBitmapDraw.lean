/-
  Uboot.Common.LcdBitmapDraw

  What the loops of a call of `lcd_display_bitmap` leave in the frame buffer, where the image is placed
  right.

  An extent that is clipped wrong is longer than a `ushort` counts to.
-/

import Uboot.Common.LcdBitmapLoops

namespace Uboot.Common.LcdBitmap

open Uboot.Lib Relation

-- ============================================================================
-- Clipping
-- ============================================================================

section Clip

variable {pos extent size : Nat}

theorem Fits.clip_eq (h : Fits pos extent size) : clip pos extent size = min extent (size - pos) := by
  obtain ⟨hle, hend, -⟩ := h
  rw [clip, u32_of_lt hend]
  split
  · simp only [usub, u32]
    omega
  · omega

/-- An extent is clipped right, or to more than a `ushort` counts to. -/
theorem clip_lt_iff (hpos : pos < 2147483648) (hextent : extent < 4294967296) (hsize : size < 4294967296) :
    clip pos extent size < 65536 ↔ Fits pos extent size := by
  constructor
  · intro h
    rw [Fits]
    by_cases hover : u32 (pos + extent) > size
    · rw [clip, if_pos hover] at h
      simp only [usub, u32] at h hover
      omega
    · rw [clip, if_neg hover] at h
      simp only [u32] at hover
      omega
  · intro h
    rw [h.clip_eq]
    exact h.2.2

end Clip

-- ============================================================================
-- The sizes of a call
-- ============================================================================

namespace Call

variable (c : Call)

theorem vlCol_lt : c.panel.vlCol < 2147483648 := by
  have hbits : 1 ≤ nbits c.panel.vlBpix := Nat.one_le_two_pow
  exact Nat.lt_of_le_of_lt (Nat.le_mul_of_pos_right _ hbits) c.panel.line_lt

theorem align_lt {pos : Nat} (extent size : Nat) (h : pos < 2147483648) : c.align pos extent size < 2147483648 := by
  rw [align]
  split
  · have := u32_lt (4294967296 + size - extent)
    rw [usub]
    omega
  · exact h

theorem width_lt_iff : c.width < 65536 ↔ c.FitsAcross :=
  clip_lt_iff (c.align_lt _ _ c.x_lt) c.header.width_lt (by have := c.vlCol_lt; omega)

theorem height_lt_iff : c.height < 65536 ↔ c.FitsDown :=
  clip_lt_iff (c.align_lt _ _ c.y_lt) c.header.height_lt c.panel.vlRow_lt

variable {c}

theorem FitsAcross.width_eq (h : c.FitsAcross) : c.width = c.covCols := h.clip_eq

theorem FitsDown.height_eq (h : c.FitsDown) : c.height = c.covRows := h.clip_eq

/-- A pixel of the image is on the panel where its row and its column are covered. -/
theorem covered_iff {r q : Nat} :
    (r < c.header.height ∧ q < c.header.width ∧ c.row + r < c.panel.vlRow ∧ c.col + q < c.panel.vlCol) ↔
      r < c.covRows ∧ q < c.covCols := by
  rw [covRows, covCols]
  omega

theorem shows_iff_covered {s : Contents} {m : Mem UInt8} :
    c.Shows s m ↔ ∀ r < c.covRows, ∀ q < c.covCols,
      m.Holds ((c.row + r) * c.panel.lineLength + (c.col + q) * (c.bpix / 8)) (c.imagePixel s r q) := by
  constructor
  · intro h r hr q hq
    obtain ⟨h₁, h₂, h₃, h₄⟩ := covered_iff.mpr ⟨hr, hq⟩
    exact h r q h₁ h₂ h₃ h₄
  · intro h r q h₁ h₂ h₃ h₄
    obtain ⟨hr, hq⟩ := covered_iff.mp ⟨h₁, h₂, h₃, h₄⟩
    exact h r hr q hq

theorem shows_of_not_visible {s : Contents} {m : Mem UInt8} (h : ¬ c.Visible) : c.Shows s m := by
  rw [shows_iff_covered]
  intro r hr q hq
  exact absurd ⟨by omega, by omega⟩ h

/-- The depths that are not refused. -/
theorem depth_of_not_refused (h : ¬ c.Refused) :
    (c.header.bitCount = 8 ∧ (c.bpix = 8 ∨ c.bpix = 16)) ∨ (c.header.bitCount = 16 ∧ c.bpix = 16) := by
  have hbits := c.header.bitCount_eq
  simp only [Refused, not_or, not_and_or, not_not] at h
  omega

theorem lineLength_eq (h : c.bpix = 8 ∨ c.bpix = 16) : c.panel.lineLength = c.panel.vlCol * (c.bpix / 8) := by
  rw [Panel.lineLength]
  change c.panel.vlCol * c.bpix / 8 = _
  rcases h with h | h <;> rw [h] <;> omega

theorem imagePixel_length {s : Contents} (h : ¬ c.Refused) (r q : Nat) :
    (c.imagePixel s r q).length = c.bpix / 8 := by
  rw [imagePixel, shown]
  obtain ⟨hbits, hbpix | hbpix⟩ | ⟨hbits, hbpix⟩ := depth_of_not_refused h
  · rw [if_pos hbits, if_pos (by omega), hbpix]
    cases c.build.controller <;> rfl
  · rw [if_pos hbits, if_neg (by omega), hbpix]
    rfl
  · rw [if_neg (by omega), pixel16_length, hbpix]

-- ============================================================================
-- The color map
-- ============================================================================

theorem foldl_update_self {dir : Int} {f : Nat → UInt16} {m : Int → UInt16} (hdir : dir ≠ 0) {k n : Nat} (hk : k < n) :
    (List.range n).foldl (fun m (i : Nat) => Function.update m (dir * i) (f i)) m (dir * k) = f k := by
  induction n with
  | zero => exact absurd hk (Nat.not_lt_zero k)
  | succ n ih =>
    rw [List.range_succ, List.foldl_append, List.foldl_cons, List.foldl_nil]
    by_cases hkn : k = n
    · rw [hkn, Function.update_self]
    · have hne : dir * (k : Int) ≠ dir * (n : Int) := fun h => hkn (Int.ofNat.inj (Int.eq_of_mul_eq_mul_left hdir h))
      rw [Function.update_of_ne hne, ih (by omega)]

theorem foldl_update_of_forall_ne {dir x : Int} {f : Nat → UInt16} {m : Int → UInt16} {n : Nat}
    (hx : ∀ i < n, x ≠ dir * i) :
    (List.range n).foldl (fun m (i : Nat) => Function.update m (dir * i) (f i)) m x = m x := by
  induction n with
  | zero => rfl
  | succ n ih =>
    rw [List.range_succ, List.foldl_append, List.foldl_cons, List.foldl_nil,
      Function.update_of_ne (hx n (Nat.lt_succ_self n)), ih fun i hi => hx i (by omega)]

/-- Where the map goes up from `cmap_base`, each color is found in its place. -/
theorem setColorMap_up {b : Build} (h : b.controller = .pxa250 ∨ b.controller = .other) (s : Contents) (v : UInt8) :
    b.setColorMap s v.toNat = b.colreg (s.colorTable v.toNat) := by
  have hfill := foldl_update_self (m := s.cmap) (f := fun i => b.colreg (s.colorTable i)) Int.one_ne_zero v.toNat_lt
  rw [Int.one_mul] at hfill
  rcases h with h | h <;> rw [Build.setColorMap, h] <;> exact hfill

/-- Elsewhere the second color is what was in memory before. -/
theorem setColorMap_not_up {b : Build} (h : ¬ (b.controller = .pxa250 ∨ b.controller = .other)) (s : Contents) :
    b.setColorMap s 1 = s.cmap 1 := by
  rw [Build.setColorMap]
  cases hb : b.controller with
  | pxa250 => exact absurd (.inl hb) h
  | other => exact absurd (.inr hb) h
  | mpc823 => exact foldl_update_of_forall_ne fun i _ => by omega
  | atmelLcd => rfl
  | mcc200 => rfl

theorem word_inj {b : Build} {v w : UInt16} (h : b.word v = b.word w) : v = w := by
  have hbytes := List.cons_eq_cons.mp h
  have hlast := (List.cons_eq_cons.mp hbytes.2).1
  apply UInt16.toBitVec_inj.mp
  refine ByteOrder.word_ext (n := 2) (e := b.byteOrder) fun o ho => ?_
  obtain rfl | rfl : o = 0 ∨ o = 1 := by omega
  · exact hbytes.1
  · exact hlast

-- ============================================================================
-- The loops of a call
-- ============================================================================

variable (c)

theorem starts (s : Contents) : Loops.Starts (c.start s) := ⟨rfl, rfl, rfl, u32_lt _⟩

/-- What the loops store for the two bytes of a pixel. -/
def stored (s : Contents) (b0 b1 : UInt8) : List UInt8 :=
  if c.header.bitCount = 8 then c.pixel8 s b0 else c.build.pixel16 b0 b1

/-- The bytes of the file that the loops go on by, for a row. -/
def rowStep : Nat :=
  if c.header.bitCount = 8 then c.width + usub c.width c.paddedLine else c.width * 2 + u32 (usub c.paddedLine c.width * 2)

/-- The loops of either format, where they store something. -/
structure Draws (s : Contents) (l : Loops) : Prop where
  width : l.width = c.width
  height : l.height = c.height
  bytes : l.bytes = c.bpix / 8
  taken : l.taken = c.header.bitCount / 8
  step : l.width * l.taken + l.skip = c.rowStep
  back : l.back = u32 (l.width * l.bytes + c.panel.lineLength)
  pixel : ∀ a, l.pixel a = c.stored s (s.data a) (s.data (u32 (a + 1)))

variable {c}

theorem draws_loops8 (s : Contents) (hbits : c.header.bitCount = 8) (hbpix : c.bpix = 8 ∨ c.bpix = 16)
    (hstore : ¬ c.NoStore) : c.Draws s (c.loops8 s) := by
  have hother : c.bpix ≠ 16 → c.build.controller ≠ .other := fun h h' => hstore ⟨hbits, h, h'⟩
  have hone : (if c.bpix ≠ 16 ∧ c.build.controller = .other then 0 else 1) = 1 := if_neg fun h => hother h.1 h.2
  have hbytes : (if c.bpix ≠ 16 then if c.build.controller = .other then 0 else 1 else 2) = c.bpix / 8 := by
    rcases hbpix with h | h
    · rw [if_pos (by omega), if_neg (hother (by omega)), h]
    · rw [if_neg (by omega), h]
  refine ⟨rfl, rfl, hbytes, ?_, ?_, ?_, fun a => ?_⟩
  · rw [hbits]
    exact hone
  · rw [rowStep, if_pos hbits]
    change c.width * (if c.bpix ≠ 16 ∧ c.build.controller = .other then 0 else 1) + _ = _
    rw [hone, Nat.mul_one]
    rfl
  · change u32 ((if c.bpix ≠ 16 then c.width else u32 (c.width * 2)) + c.panel.lineLength) =
      u32 (c.width * (if c.bpix ≠ 16 then if c.build.controller = .other then 0 else 1 else 2) + c.panel.lineLength)
    rw [hbytes]
    rcases hbpix with h | h
    · rw [if_pos (by omega), h, Nat.mul_one]
    · rw [if_neg (by omega), h, u32_add_left]
  · rw [stored, if_pos hbits]
    rfl

theorem draws_loops16 (s : Contents) (hbits : c.header.bitCount = 16) (hbpix : c.bpix = 16) :
    c.Draws s (c.loops16 s) := by
  have hnot : c.header.bitCount ≠ 8 := by omega
  refine ⟨rfl, rfl, by rw [hbpix]; rfl, by rw [hbits]; rfl, ?_, rfl, fun a => ?_⟩
  · rw [rowStep, if_neg hnot]
    rfl
  · rw [stored, if_neg hnot]
    rfl

/-- The rows follow one another in the file just when the loops go on by the bytes of a row. -/
theorem rowsFollow_iff (h : c.FitsAcross) : c.RowsFollow ↔ u32 c.rowStep = u32 c.stride := by
  have hwidth := h.width_eq
  have hlt := c.width_lt_iff.mpr h
  have hpadded : c.paddedLine = (c.header.width + 3) / 4 * 4 % 65536 := by
    rw [paddedLine]
    congr 1
    split <;> omega
  rw [RowsFollow, rowStep, hpadded, ← hwidth]
  rcases c.header.bitCount_eq with hbits | hbits
  · have hstride : c.stride = (c.header.width + 3) / 4 * 4 := by rw [stride, hbits, Nat.mul_one]
    rw [if_pos hbits, if_pos hbits, hstride]
    simp only [usub, u32]
    omega
  · have hnot : c.header.bitCount ≠ 8 := by omega
    rw [if_neg hnot, if_neg hnot]
    simp only [usub, u32]
    omega

-- ============================================================================
-- Where the pixels are
-- ============================================================================

section Place

variable {s : Contents} {l : Loops} {m t : Nat}

theorem lineLength_le (c : Call) : c.panel.lineLength ≤ 4294967296 :=
  Nat.le_trans (Nat.le_mul_of_pos_right _ (Nat.succ_pos _)) c.panel.room

theorem Draws.rows_fb (d : c.Draws s l) :
    (l.rows (c.start s) m).fb = u32 (c.fb + m * (4294967296 - c.panel.lineLength)) :=
  Loops.rows_fb (c.starts s) c.lineLength_le d.back

theorem Draws.pixels_bmap (d : c.Draws s l) :
    (l.pixels (l.rows (c.start s) m) t).bmap = u32 (m * c.rowStep + t * (c.header.bitCount / 8)) := by
  have hstart : (c.start s).bmap < 4294967296 := Nat.succ_pos _
  rw [Loops.pixels_bmap (Loops.rows_bmap_lt hstart), Loops.rows_bmap (c.starts s), u32_add_left, d.step, d.taken]

/-- The line with a pixel of a row has room for it. -/
theorem Draws.room (d : c.Draws s l) (hrefused : ¬ c.Refused) (ha : c.FitsAcross) (hd : c.FitsDown) (hm : m < l.height)
    (ht : t ≤ l.width) :
    c.col + t * l.bytes ≤ c.panel.lineLength ∧
      (c.row + (l.height - 1 - m) + 1) * c.panel.lineLength ≤ c.panel.vlRow * c.panel.lineLength := by
  have hdepth := depth_of_not_refused hrefused
  have hline := lineLength_eq (c := c) (by omega)
  have hcols := ha.width_eq
  have hrows := hd.height_eq
  have hacross := ha.1
  have hdown := hd.1
  rw [covCols] at hcols
  rw [covRows] at hrows
  rw [d.width] at ht
  rw [d.height] at hm ⊢
  refine ⟨?_, Nat.mul_le_mul_right _ (by omega)⟩
  have hone : 1 ≤ l.bytes := by rw [d.bytes]; omega
  calc c.col + t * l.bytes ≤ c.col * l.bytes + t * l.bytes := Nat.add_le_add_right (Nat.le_mul_of_pos_right _ hone) _
    _ = (c.col + t) * l.bytes := (Nat.add_mul _ _ _).symm
    _ ≤ c.panel.vlCol * l.bytes := Nat.mul_le_mul_right _ (by omega)
    _ = c.panel.lineLength := by rw [hline, d.bytes]

/-- The pixels are stored in lines, the first row of the file in the lowest. -/
theorem Draws.pixels_fb (d : c.Draws s l) (hrefused : ¬ c.Refused) (ha : c.FitsAcross) (hd : c.FitsDown)
    (hm : m < l.height) (ht : t ≤ l.width) :
    (l.pixels (l.rows (c.start s) m) t).fb =
      (c.row + (l.height - 1 - m)) * c.panel.lineLength + c.col + t * l.bytes := by
  obtain ⟨hline, hframe⟩ := d.room hrefused ha hd hm ht
  have hroom := c.panel.room
  change c.panel.lineLength * (c.panel.vlRow + 1) ≤ 4294967296 at hroom
  rw [Nat.mul_succ, Nat.mul_comm c.panel.lineLength] at hroom
  have hrow := hd.height_eq
  have hvl := c.panel.vlRow_lt
  rw [covRows] at hrow
  have hdown := hd.1
  -- the lines above the lowest, and those that the loops have gone up
  have hlast : usub (u32 (c.row + c.height)) 1 = c.row + (l.height - 1 - m) + m := by
    rw [d.height] at hm ⊢
    rw [u32_of_lt (by omega), usub_of_le (by omega) (by omega)]
    omega
  have hup : m * (4294967296 - c.panel.lineLength) + m * c.panel.lineLength = m * 4294967296 := by
    rw [← Nat.mul_add, Nat.sub_add_cancel c.lineLength_le]
  rw [Nat.succ_mul] at hframe
  have hlt : (c.row + (l.height - 1 - m)) * c.panel.lineLength + c.col + t * l.bytes < 4294967296 := by
    rcases Nat.eq_zero_or_pos c.panel.lineLength with hzero | hpos
    · rw [hzero] at hline ⊢
      omega
    · omega
  rw [Loops.pixels_fb (Loops.rows_fb_lt (u32_lt _)), d.rows_fb, fb, hlast, Nat.add_mul _ m]
  simp only [u32]
  omega

end Place

-- ============================================================================
-- A drawing that is placed right
-- ============================================================================

section Success

variable {s : Contents} {l : Loops}

/-- The memory behind `m` rows and `t` pixels: the pixels so far are where they belong. -/
def Drawn (c : Call) (s : Contents) (l : Loops) (m t : Nat) (r : Ram) : Prop :=
  r.WritesIn c.panel.frame ∧ ∀ m' t', t' < l.width → (m' < m ∨ m' = m ∧ t' < t) →
    r.cells.Holds (l.pixels (l.rows (c.start s) m') t').fb (l.pixel (l.pixels (l.rows (c.start s) m') t').bmap)

theorem Draws.drawn (d : c.Draws s l) (hrefused : ¬ c.Refused) (ha : c.FitsAcross) (hd : c.FitsDown) :
    ∀ m ≤ l.height, Drawn c s l m 0 (l.rows (c.start s) m).ram ∧
      (m < l.height → ∀ t ≤ l.width, Drawn c s l m t (l.pixels (l.rows (c.start s) m) t).ram) := by
  apply Loops.ram_induction
  · refine ⟨fun w hw => absurd hw List.not_mem_nil, fun m' t' _ h => ?_⟩
    omega
  · rintro m hm t ht ⟨hin, hheld⟩
    have hfb := d.pixels_fb hrefused ha hd hm (Nat.le_of_lt ht)
    obtain ⟨hline, hframe⟩ := d.room hrefused ha hd hm (Nat.succ_le_of_lt ht)
    rw [Nat.succ_mul] at hframe hline
    rw [Loops.pixels_succ_ram]
    refine ⟨hin.store fun _ => ?_, fun m' t' ht' hbefore => ?_⟩
    · rw [l.pixel_length]
      simp only [Panel.frame, Extent.stop, Nat.mul_comm c.panel.lineLength]
      omega
    · rw [Ram.store_cells]
      by_cases hlast : m' = m ∧ t' = t
      · rw [hlast.1, hlast.2]
        exact Mem.holds_write _ _ _
      · -- the pixels before are in a lower line, or before this one in its own
        have hfb' := d.pixels_fb hrefused ha hd (show m' < l.height by omega) (Nat.le_of_lt ht')
        have hapart : (l.pixels (l.rows (c.start s) m') t').fb + l.bytes ≤ (l.pixels (l.rows (c.start s) m) t).fb ∨
            (l.pixels (l.rows (c.start s) m) t).fb + l.bytes ≤ (l.pixels (l.rows (c.start s) m') t').fb := by
          rw [hfb, hfb']
          rcases (show m' < m ∨ m' = m ∧ t' < t by omega) with hm' | ⟨rfl, ht''⟩
          · right
            have hlines : (c.row + (l.height - 1 - m) + 1) * c.panel.lineLength ≤
                (c.row + (l.height - 1 - m')) * c.panel.lineLength := Nat.mul_le_mul_right _ (by omega)
            rw [Nat.succ_mul] at hlines
            omega
          · left
            have hbytes : (t' + 1) * l.bytes ≤ t * l.bytes := Nat.mul_le_mul_right _ ht''
            rw [Nat.succ_mul] at hbytes
            omega
        refine (hheld m' t' ht' (by omega)).congr fun x hx₁ hx₂ => Mem.write_outside _ ?_
        rw [l.pixel_length] at hx₂ ⊢
        omega
  · rintro m hm r ⟨hin, hheld⟩
    exact ⟨hin, fun m' t' ht' h => hheld m' t' ht' (by omega)⟩

/-- Every state the loops come to has written inside the frame buffer only. -/
theorem Draws.writesIn (d : c.Draws s l) (hrefused : ¬ c.Refused) (ha : c.FitsAcross) (hd : c.FitsDown) {t : State}
    (h : ReflTransGen (Goes l.turn) (c.start s) t) : t.ram.WritesIn c.panel.frame := by
  have hdrawn := d.drawn hrefused ha hd
  have hwidth : l.width < 65536 := d.width ▸ c.width_lt_iff.mpr ha
  have hheight : l.height < 65536 := d.height ▸ c.height_lt_iff.mpr hd
  cases Loops.at_of_reaches (c.starts s) h with
  | between m hw hm => exact (hdrawn m (hm hheight)).1.1
  | inside m k hw hm hle hk =>
    have hle := hle hheight
    rw [Nat.mod_eq_of_lt (by omega)] at hm
    exact ((hdrawn m hle).2 hm k (hk hwidth)).1

/-- The pixels that the loops store are the image's. -/
theorem stored_eq_shown (hrefused : ¬ c.Refused) (hstore : ¬ c.NoStore)
    (hcolors : c.header.bitCount = 8 → c.bpix = 16 → c.build.controller = .pxa250 ∨ c.build.controller = .other)
    (s : Contents) (b0 b1 : UInt8) : c.stored s b0 b1 = c.shown s b0 b1 := by
  rw [stored, shown]
  obtain ⟨hbits, hbpix | hbpix⟩ | ⟨hbits, hbpix⟩ := depth_of_not_refused hrefused
  · have hnot : c.bpix ≠ 16 := by omega
    rw [if_pos hbits, if_pos hbits, pixel8, if_pos hnot, if_pos hnot]
    cases hb : c.build.controller with
    | other => exact absurd ⟨hbits, hnot, hb⟩ hstore
    | pxa250 => rfl
    | mpc823 => rfl
    | atmelLcd => rfl
    | mcc200 => rfl
  · have hnot : ¬ c.bpix ≠ 16 := by omega
    rw [if_pos hbits, if_pos hbits, pixel8, if_neg hnot, if_neg hnot, setColorMap_up (hcolors hbits hbpix)]
  · have hnot : c.header.bitCount ≠ 8 := by omega
    rw [if_neg hnot, if_neg hnot]

/-- The pixel of row `m` from below that the loops read is the image's. -/
theorem Placed.source (h : c.Placed) (ha : c.FitsAcross) {m : Nat} (hm : m < c.covRows) (q : Nat) :
    u32 (m * c.rowStep + q) = u32 ((c.header.height - 1 - (c.covRows - 1 - m)) * c.stride + q) := by
  have hle : c.covRows ≤ c.header.height := Nat.min_le_left _ _
  have hsplit : c.header.height - 1 - (c.covRows - 1 - m) = c.header.height - c.covRows + m := by omega
  have hlowest := h.lowest
  have hrows : u32 (m * c.rowStep) = u32 (m * c.stride) := by
    rcases Nat.eq_zero_or_pos m with rfl | hpos
    · rw [Nat.zero_mul, Nat.zero_mul]
    · have hstep := (rowsFollow_iff ha).mp (h.follow (by omega))
      rw [u32, u32] at hstep ⊢
      rw [← Nat.mul_mod_mod, hstep, Nat.mul_mod_mod]
  rw [hsplit, Nat.add_mul]
  simp only [u32] at hlowest hrows ⊢
  omega

/-- On a 16-bit panel the first column is at the first byte of the line. -/
theorem col_bytes (hrefused : ¬ c.Refused) (h : c.bpix = 16 → c.col = 0) : c.col * (c.bpix / 8) = c.col := by
  have hdepth := depth_of_not_refused hrefused
  rcases (show c.bpix = 8 ∨ c.bpix = 16 by omega) with hbpix | hbpix
  · rw [hbpix, Nat.mul_one]
  · rw [h hbpix, Nat.zero_mul]

/-- A drawing that is placed right shows the image when it is finished. -/
theorem Draws.shows (d : c.Draws s l) (hrefused : ¬ c.Refused) (hstore : ¬ c.NoStore) (ha : c.FitsAcross)
    (hd : c.FitsDown) (hplaced : c.Placed) : c.Shows s (l.rows (c.start s) l.height).ram.cells := by
  rw [shows_iff_covered]
  intro r hr q hq
  have hrows : l.height = c.covRows := by rw [d.height, hd.height_eq]
  have hcols : l.width = c.covCols := by rw [d.width, ha.width_eq]
  have hm : l.height - 1 - r < l.height := by omega
  have hheld := ((d.drawn hrefused ha hd l.height (Nat.le_refl _)).1.2) (l.height - 1 - r) q (by omega) (.inl hm)
  have hplace : (l.pixels (l.rows (c.start s) (l.height - 1 - r)) q).fb =
      (c.row + r) * c.panel.lineLength + (c.col + q) * (c.bpix / 8) := by
    rw [d.pixels_fb hrefused ha hd hm (by omega), d.bytes, Nat.add_mul c.col, col_bytes hrefused hplaced.column,
      ← Nat.add_assoc, show l.height - 1 - (l.height - 1 - r) = r by omega]
  have hsource := hplaced.source ha (show c.covRows - 1 - r < c.covRows by omega) (q * (c.header.bitCount / 8))
  rw [show c.covRows - 1 - (c.covRows - 1 - r) = r by omega, ← hrows] at hsource
  rw [hplace, d.pixels_bmap, d.pixel, stored_eq_shown hrefused hstore hplaced.colors, hsource, u32_add_left] at hheld
  exact hheld

end Success

end Call

end Uboot.Common.LcdBitmap
