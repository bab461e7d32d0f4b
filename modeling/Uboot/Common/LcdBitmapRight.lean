/-
  Uboot.Common.LcdBitmapRight

  When `lcd_display_bitmap` draws the image, and only that.

  A loop over too long an extent does not end, and leaves the frame buffer if it stores anything.  An
  image that is drawn to its end but not where it belongs, or from the wrong bytes of the file, is told
  from the right one by what memory may hold.
-/

import Uboot.Common.LcdBitmapDraw

namespace Uboot.Common.LcdBitmap

open Uboot.Lib Relation

namespace Call

variable {c : Call} {s : Contents} {l : Loops} {m t : Nat}

-- ============================================================================
-- Loops that leave the frame buffer
-- ============================================================================

/-- The loops write only inside the frame buffer. -/
def StaysIn (c : Call) (s : Contents) (l : Loops) : Prop :=
  ∀ t, ReflTransGen (Goes l.turn) (c.start s) t → t.ram.WritesIn c.panel.frame

theorem frame_lt (c : Call) :
    c.panel.lineLength * c.panel.vlRow < 4294967296 ∧
      c.panel.lineLength * c.panel.vlRow + c.panel.lineLength ≤ 4294967296 := by
  have hroom := c.panel.room
  change c.panel.lineLength * (c.panel.vlRow + 1) ≤ 4294967296 at hroom
  rw [Nat.mul_succ] at hroom
  refine ⟨?_, hroom⟩
  rcases Nat.eq_zero_or_pos c.panel.lineLength with hzero | hpos
  · rw [hzero, Nat.zero_mul]
    decide
  · omega

/-- Where the loops store a pixel. -/
theorem StaysIn.pixel (h : c.StaysIn s l) (hbytes : 0 < l.bytes)
    (hreach : ReflTransGen (Goes l.turn) (c.start s) (l.pixels (l.rows (c.start s) m) t)) (ht : t % 65536 < l.width) :
    (l.pixels (l.rows (c.start s) m) t).fb + l.bytes ≤ c.panel.lineLength * c.panel.vlRow := by
  have hin := h _ (hreach.tail (Loops.goes_put ht))
  rw [Loops.pixels_succ_ram, Ram.writesIn_store, l.pixel_length] at hin
  have hends := Extent.cells_subset_iff.mp hin.2
  omega

/-- A row that does not end. -/
theorem StaysIn.width_lt (h : c.StaysIn s l) (hbytes : 0 < l.bytes) (hheight : 0 < l.height) : l.width < 65536 := by
  by_contra hwide
  have hframe := c.frame_lt.1
  have hfb : c.fb < 4294967296 := u32_lt _
  have henter : Goes l.turn (l.rows (c.start s) 0) (l.pixels (l.rows (c.start s) 0) 0) :=
    Loops.goes_enter (c.starts s) hheight
  have hpixel : ∀ t, u32 (c.fb + t * l.bytes) + l.bytes ≤ c.panel.lineLength * c.panel.vlRow := by
    intro t
    have hreach := (Loops.reaches_pixels (t := t) (.inr (by omega))).head henter
    have hpixel := h.pixel hbytes hreach (Loops.mod_lt_of (.inr (by omega)))
    rw [Loops.pixels_fb (Loops.rows_fb_lt (u32_lt _))] at hpixel
    exact hpixel
  -- each pixel is right behind the last, without an end
  have hall : ∀ t, c.fb + t * l.bytes + l.bytes ≤ c.panel.lineLength * c.panel.vlRow := by
    intro t
    have hin := hpixel t
    induction t with
    | zero =>
      rw [Nat.zero_mul, Nat.add_zero] at hin ⊢
      rwa [u32_of_lt hfb] at hin
    | succ t ih =>
      have hbefore := ih (hpixel t)
      rw [Nat.succ_mul, ← Nat.add_assoc] at hin ⊢
      rwa [u32_of_lt (by omega)] at hin
  have hfar := hall (c.panel.lineLength * c.panel.vlRow)
  have hle := Nat.le_mul_of_pos_right (c.panel.lineLength * c.panel.vlRow) hbytes
  omega

/-- Rows that do not end. -/
theorem StaysIn.height_lt (h : c.StaysIn s l) (d : c.Draws s l) (hbytes : 0 < l.bytes) (hwidth : 0 < l.width)
    (hlt : l.width < 65536) : l.height < 65536 := by
  by_contra htall
  obtain ⟨hframe, hroom⟩ := c.frame_lt
  have hall : ∀ m, u32 (c.fb + m * (4294967296 - c.panel.lineLength)) + l.bytes ≤ c.panel.lineLength * c.panel.vlRow := by
    intro m
    have hreach := (Loops.reaches_rows (m := m) (c.starts s) hlt (.inr (by omega))).tail
      (Loops.goes_enter (c.starts s) (Loops.mod_lt_of (.inr (by omega))))
    have hpixel := h.pixel hbytes hreach hwidth
    rw [Loops.pixels_fb (Loops.rows_fb_lt (u32_lt _)), d.rows_fb, Nat.zero_mul, Nat.add_zero, u32_u32] at hpixel
    exact hpixel
  -- the row above the first line
  have hline : 0 < c.panel.lineLength := by
    by_contra hzero
    have hfirst := hall 0
    rw [Nat.eq_zero_of_not_pos hzero, Nat.zero_mul] at hfirst
    omega
  have habove := hall (c.fb / c.panel.lineLength + 1)
  have hdiv := Nat.div_add_mod c.fb c.panel.lineLength
  have hmod := Nat.mod_lt c.fb hline
  have hup : (c.fb / c.panel.lineLength + 1) * (4294967296 - c.panel.lineLength) +
      (c.panel.lineLength * (c.fb / c.panel.lineLength) + c.panel.lineLength) =
        (c.fb / c.panel.lineLength + 1) * 4294967296 := by
    rw [← Nat.mul_succ, Nat.mul_comm c.panel.lineLength, ← Nat.mul_add, Nat.sub_add_cancel c.lineLength_le]
  have hwrap : u32 (c.fb + (c.fb / c.panel.lineLength + 1) * (4294967296 - c.panel.lineLength)) =
      c.fb % c.panel.lineLength + (4294967296 - c.panel.lineLength) := by
    have hle := c.lineLength_le
    simp only [u32]
    omega
  omega

-- ============================================================================
-- Images in the wrong place
-- ============================================================================

/-- On a 16-bit panel the last byte of the image in its first row is not stored to, if the image is not
    in the first column. -/
theorem Draws.last_byte (d : c.Draws s l) (hrefused : ¬ c.Refused) (ha : c.FitsAcross) (hd : c.FitsDown)
    (hbpix : c.bpix = 16) (hcol : 0 < c.col) (hcols : 0 < c.covCols) :
    (l.rows (c.start s) l.height).ram.cells (c.row * c.panel.lineLength + (c.col + (c.covCols - 1)) * 2 + 1) =
      s.frame (c.row * c.panel.lineLength + (c.col + (c.covCols - 1)) * 2 + 1) := by
  have hwidth : l.width = c.covCols := by rw [d.width, ha.width_eq]
  have hbytes : l.bytes = 2 := by rw [d.bytes, hbpix]
  have hlast : (c.col + (c.covCols - 1)) * 2 + 1 < c.panel.lineLength := by
    rw [lineLength_eq (.inr hbpix), hbpix]
    have := ha.1
    rw [covCols] at hcols ⊢
    omega
  apply Loops.rows_cells_eq
  intro m hm t ht
  rw [d.pixels_fb hrefused ha hd hm (Nat.le_of_lt ht), hbytes]
  -- the row is the first of the image, or below it
  rcases Nat.eq_zero_or_pos (l.height - 1 - m) with hfirst | hbelow
  · rw [hfirst, Nat.add_zero c.row]
    omega
  · have hlines : (c.row + 1) * c.panel.lineLength ≤ (c.row + (l.height - 1 - m)) * c.panel.lineLength :=
      Nat.mul_le_mul_right _ (by omega)
    rw [Nat.succ_mul] at hlines
    omega

/-- A byte of the image that the frame buffer does not have yet. -/
theorem exists_frame_ne (hrefused : ¬ c.Refused) {r q k : Nat} (hr : r < c.covRows) (hq : q < c.covCols)
    (hk : k < c.bpix / 8) : ∃ s, ∀ m, c.Shows s m →
      m ((c.row + r) * c.panel.lineLength + (c.col + q) * (c.bpix / 8) + k) ≠
        s.frame ((c.row + r) * c.panel.lineLength + (c.col + q) * (c.bpix / 8) + k) := by
  have hlen : k < (c.imagePixel default r q).length := by rwa [imagePixel_length hrefused]
  refine ⟨{ (default : Contents) with frame := fun _ => (c.imagePixel default r q)[k] + 1 }, fun m hshows heq => ?_⟩
  have hholds := (shows_iff_covered.mp hshows r hr q hq).getElem hlen
  rw [heq] at hholds
  change (c.imagePixel default r q)[k] + 1 = (c.imagePixel default r q)[k] at hholds
  exact absurd (UInt8.add_eq_left.mp hholds) (by decide)

/-- Image data whose bytes are 0, but for one that is 1; the colors of these are black and red. -/
def marked (a : Nat) : Contents :=
  { (default : Contents) with
    data := fun x => if x = a then 1 else 0
    colorTable := fun i => if i = 1 then ⟨0, 0, 255⟩ else ⟨0, 0, 0⟩ }

theorem marked_self (a : Nat) : (marked a).data a = 1 := if_pos rfl

theorem marked_of_ne {a x : Nat} (h : x ≠ a) : (marked a).data x = 0 := if_neg h

/-- Whatever memory holds, the loops store something, and the image is there when they have ended. -/
def Finishes (c : Call) : Prop :=
  ∀ s, ∃ l, c.Draws s l ∧ c.Shows s (l.rows (c.start s) l.height).ram.cells

section Finishes

variable (h : c.Finishes) (hrefused : ¬ c.Refused) (ha : c.FitsAcross) (hd : c.FitsDown) (hvisible : c.Visible)
include h hrefused ha hd hvisible

theorem Finishes.column (hbpix : c.bpix = 16) : c.col = 0 := by
  by_contra hcol
  have hone : 1 < c.bpix / 8 := by omega
  obtain ⟨s, hs⟩ := exists_frame_ne hrefused hvisible.2 (Nat.sub_lt hvisible.1 Nat.one_pos) hone
  obtain ⟨l, d, hshows⟩ := h s
  have hsame := d.last_byte hrefused ha hd hbpix (Nat.pos_of_ne_zero hcol) hvisible.1
  apply hs _ hshows
  rw [Nat.add_zero, hbpix]
  exact hsame

/-- What is read for a pixel of row `m` from below is the image's pixel. -/
theorem Finishes.pixel_eq {m : Nat} (hm : m < c.covRows) (s : Contents) :
    c.stored s (s.data (u32 (m * c.rowStep))) (s.data (u32 (m * c.rowStep + 1))) =
      c.imagePixel s (c.covRows - 1 - m) 0 := by
  obtain ⟨l, d, hshows⟩ := h s
  have hrows : l.height = c.covRows := by rw [d.height, hd.height_eq]
  have hcols : l.width = c.covCols := by rw [d.width, ha.width_eq]
  have hwidth : 0 < l.width := hcols ▸ hvisible.1
  have hcol := col_bytes hrefused (h.column hrefused ha hd hvisible)
  have hheld := ((d.drawn hrefused ha hd l.height (Nat.le_refl _)).1.2) m 0 hwidth (.inl (hrows ▸ hm))
  have himage := shows_iff_covered.mp hshows (c.covRows - 1 - m) (by omega) 0 hvisible.1
  have hlen := l.pixel_length (u32 (m * c.rowStep))
  rw [d.pixels_fb hrefused ha hd (hrows ▸ hm) (Nat.zero_le _), d.pixels_bmap, Nat.zero_mul, Nat.zero_mul, Nat.add_zero,
    Nat.add_zero, hrows, Mem.Holds, hlen, d.bytes] at hheld
  rw [Nat.add_zero, hcol, hrows, Mem.Holds, imagePixel_length hrefused] at himage
  rw [← himage, hheld, d.pixel, u32_add_left]

omit h ha hd hvisible in
/-- Two pixels of different values are told apart, where the first colors are black and red. -/
theorem shown_ne {s : Contents} (hblack : s.colorTable 0 = ⟨0, 0, 0⟩) (hred : s.colorTable 1 = ⟨0, 0, 255⟩)
    {b0 b1 : UInt8} (h0 : b0 = 0 ∨ b0 = 1) : c.shown s 0 b0 ≠ c.shown s 1 b1 := by
  intro heq
  rw [shown, shown] at heq
  obtain ⟨hbits, hbpix | hbpix⟩ | ⟨hbits, hbpix⟩ := depth_of_not_refused hrefused
  · have hnot : c.bpix ≠ 16 := by omega
    rw [if_pos hbits, if_pos hbits, if_pos hnot, if_pos hnot] at heq
    cases hb : c.build.controller <;> rw [hb] at heq <;> exact absurd heq (by decide)
  · have hnot : ¬ c.bpix ≠ 16 := by omega
    rw [if_pos hbits, if_pos hbits, if_neg hnot, if_neg hnot] at heq
    have hcolor := word_inj heq
    change c.build.colreg (s.colorTable 0) = c.build.colreg (s.colorTable 1) at hcolor
    rw [hblack, hred, Build.colreg, Build.colreg] at hcolor
    cases hinvert : c.build.invertColors <;> rw [hinvert] at hcolor <;> exact absurd hcolor (by decide)
  · have hnot : c.header.bitCount ≠ 8 := by omega
    rw [if_neg hnot, if_neg hnot, Build.pixel16, Build.pixel16] at heq
    cases hbgr : c.build.bgr555 with
    | false =>
      rw [hbgr] at heq
      exact absurd (List.cons_eq_cons.mp heq).1 (by decide)
    | true =>
      rw [hbgr] at heq
      have hfirst := (List.cons_eq_cons.mp heq).1
      -- the third bit of the first byte
      have hbit := congrArg (fun v : UInt8 => v.toBitVec.getLsbD 2) hfirst
      simp only [UInt8.toBitVec_or, UInt8.toBitVec_and b1, BitVec.getLsbD_or, BitVec.getLsbD_and (x := b1.toBitVec)] at hbit
      rw [show (3 : UInt8).toBitVec.getLsbD 2 = false from rfl, Bool.and_false] at hbit
      rcases h0 with rfl | rfl <;> exact absurd hbit (by decide)

/-- The color map is where the loop looks colors up. -/
theorem Finishes.colors (hbits : c.header.bitCount = 8) (hbpix : c.bpix = 16) :
    c.build.controller = .pxa250 ∨ c.build.controller = .other := by
  by_contra hup
  have heq := h.pixel_eq hrefused ha hd hvisible hvisible.2
    { (default : Contents) with data := fun _ => 1, cmap := fun _ => c.build.colreg default + 1 }
  have hnot : ¬ c.bpix ≠ 16 := by omega
  rw [stored, imagePixel, shown, if_pos hbits, if_pos hbits, pixel8, if_neg hnot, if_neg hnot] at heq
  have hcolor := word_inj heq
  rw [show (((1 : UInt8).toNat : Nat) : Int) = 1 from rfl, setColorMap_not_up hup] at hcolor
  exact absurd (UInt16.add_eq_left.mp hcolor) (by decide)

variable (hstore : ¬ c.NoStore)
include hstore

/-- The loops read the image's row where it is. -/
theorem Finishes.source {m : Nat} (hm : m < c.covRows) :
    u32 (m * c.rowStep) = u32 ((c.header.height - 1 - (c.covRows - 1 - m)) * c.stride) := by
  by_contra hne
  have heq := h.pixel_eq hrefused ha hd hvisible hm
    (marked (u32 ((c.header.height - 1 - (c.covRows - 1 - m)) * c.stride)))
  rw [stored_eq_shown hrefused hstore (h.colors hrefused ha hd hvisible), imagePixel, Nat.zero_mul,
    Nat.add_zero (_ * c.stride), marked_of_ne hne, marked_self] at heq
  exact shown_ne hrefused rfl rfl (ite_eq_or_eq _ _ _).symm heq

/-- An image that is there is placed right. -/
theorem Finishes.placed : c.Placed where
  colors := h.colors hrefused ha hd hvisible
  column := h.column hrefused ha hd hvisible
  lowest := by
    have hsource := h.source hrefused ha hd hvisible hstore hvisible.2
    have hle : c.covRows ≤ c.header.height := Nat.min_le_left _ _
    rw [Nat.zero_mul, show c.header.height - 1 - (c.covRows - 1 - 0) = c.header.height - c.covRows by
      have := hvisible.2; omega] at hsource
    exact hsource.symm
  follow := by
    intro htwo
    have hlowest := h.source hrefused ha hd hvisible hstore hvisible.2
    have hnext := h.source hrefused ha hd hvisible hstore htwo
    have hle : c.covRows ≤ c.header.height := Nat.min_le_left _ _
    rw [Nat.zero_mul, show c.header.height - 1 - (c.covRows - 1 - 0) = c.header.height - c.covRows by omega] at hlowest
    rw [Nat.one_mul, show c.header.height - 1 - (c.covRows - 1 - 1) = c.header.height - c.covRows + 1 by omega,
      Nat.succ_mul] at hnext
    rw [rowsFollow_iff ha, hnext]
    simp only [u32] at hlowest ⊢
    omega

end Finishes

-- ============================================================================
-- The calls that are right
-- ============================================================================

theorem right_of_refused (h : c.Refused) : c.Right := by
  intro s
  rw [lcdDisplayBitmap, if_pos h]
  intro hzero
  exact absurd hzero (by decide)

/-- Images that the function returns 0 for without a look at them. -/
theorem right_iff_of_unbuilt (hrefused : ¬ c.Refused) (hbits : c.header.bitCount = 16) (hbuilt : ¬ c.build.bmp16bpp) :
    c.Right ↔ ¬ c.Visible := by
  have hdepth := depth_of_not_refused hrefused
  have hreturns : ∀ s, c.lcdDisplayBitmap s = .returns 0 := by
    intro s
    rw [lcdDisplayBitmap, if_neg hrefused, if_neg (by omega), if_neg hbuilt]
  constructor
  · intro h hvisible
    obtain ⟨s, hs⟩ := exists_frame_ne (k := 0) hrefused hvisible.2 hvisible.1 (by omega)
    have hright := h s
    rw [hreturns] at hright
    exact hs _ (hright rfl) rfl
  · intro h s
    rw [hreturns]
    exact fun _ => shows_of_not_visible h

/-- A call that goes into loops: they stay in the frame buffer, and where they end the image is there. -/
theorem right_iff_loops {f : Contents → Loops} (h : ∀ s, c.lcdDisplayBitmap s = .draws (f s))
    (hw : ∀ s, (f s).width = c.width) (hh : ∀ s, (f s).height = c.height) :
    c.Right ↔ ∀ s, c.StaysIn s (f s) ∧
      (c.FitsDown → c.height = 0 ∨ c.FitsAcross → c.Shows s ((f s).rows (c.start s) (f s).height).ram.cells) := by
  refine forall_congr' fun s => ?_
  rw [h]
  refine and_congr_right fun _ => ?_
  rw [forall_comm]
  have hends (r : Ram) := Loops.loop_eq_some_iff (l := f s) (c.starts s) (r := r)
  rw [hw, hh, c.width_lt_iff, c.height_lt_iff] at hends
  rw [hh]
  constructor
  · intro hshows hd ha
    obtain ⟨n, hn⟩ := (hends _).mpr ⟨hd, ha, rfl⟩
    exact hshows _ n hn
  · intro hshows r n hn
    obtain ⟨hd, ha, rfl⟩ := (hends r).mp ⟨n, hn⟩
    exact hshows hd ha

/-- Images that the loops store nothing for. -/
theorem right_iff_of_noStore (hrefused : ¬ c.Refused) (hstore : c.NoStore) :
    c.Right ↔ ¬ (c.FitsAcross ∧ c.FitsDown ∧ c.Visible) := by
  have hdepth := depth_of_not_refused hrefused
  have hdraws : ∀ s, c.lcdDisplayBitmap s = .draws (c.loops8 s) := by
    intro s
    rw [lcdDisplayBitmap, if_neg hrefused, if_pos hstore.1]
  have hbytes : ∀ s, (c.loops8 s).bytes = 0 := by
    intro s
    change (if c.bpix ≠ 16 then if c.build.controller = .other then 0 else 1 else 2) = 0
    rw [if_pos hstore.2.1, if_pos hstore.2.2]
  have hpixel : ∀ s a, (c.loops8 s).pixel a = [] := fun s a =>
    List.eq_nil_of_length_eq_zero (((c.loops8 s).pixel_length a).trans (hbytes s))
  have huntouched : ∀ s t, ReflTransGen (Goes (c.loops8 s).turn) (c.start s) t →
      t.ram.cells = s.frame ∧ t.ram.WritesIn c.panel.frame := by
    intro s t ht
    apply Loops.reaches_ram_induction (P := fun r => r.cells = s.frame ∧ r.WritesIn c.panel.frame) (c.starts s) _ _ ht
    · exact ⟨rfl, fun w hw => absurd hw List.not_mem_nil⟩
    · rintro r m t ⟨hcells, hin⟩
      rw [hpixel]
      exact ⟨(Mem.write_nil _).trans hcells, hin.store fun hne => absurd rfl hne⟩
  rw [right_iff_loops hdraws (fun _ => rfl) fun _ => rfl]
  constructor
  · rintro h ⟨ha, hd, hvisible⟩
    obtain ⟨s, hs⟩ := exists_frame_ne (k := 0) hrefused hvisible.2 hvisible.1 (by omega)
    have hreach := Loops.reaches_rows (l := c.loops8 s) (c.starts s) (c.width_lt_iff.mpr ha) (.inl (Nat.le_refl _))
    apply hs _ ((h s).2 hd (.inr ha))
    rw [(huntouched s _ hreach).1]
  · refine fun h s => ⟨fun t ht => (huntouched s t ht).2, fun hd hor => shows_of_not_visible fun hvisible => ?_⟩
    rcases hor with hzero | ha
    · rw [hd.height_eq] at hzero
      exact absurd hvisible.2 (by omega)
    · exact h ⟨ha, hd, hvisible⟩

/-- Images that the loops store something for. -/
theorem right_iff_of_draws (hrefused : ¬ c.Refused) (hbuilt : c.header.bitCount = 16 → c.build.bmp16bpp)
    (hstore : ¬ c.NoStore) :
    c.Right ↔ (c.FitsAcross ∧ c.covCols = 0) ∨ (c.FitsDown ∧ c.covRows = 0) ∨ (c.FitsAcross ∧ c.FitsDown ∧ c.Placed) := by
  have hdepth := depth_of_not_refused hrefused
  obtain ⟨f, hdraws, d⟩ : ∃ f : Contents → Loops, (∀ s, c.lcdDisplayBitmap s = .draws (f s)) ∧ ∀ s, c.Draws s (f s) := by
    rcases c.header.bitCount_eq with hbits | hbits
    · refine ⟨c.loops8, fun s => ?_, fun s => draws_loops8 s hbits (by omega) hstore⟩
      rw [lcdDisplayBitmap, if_neg hrefused, if_pos hbits]
    · refine ⟨c.loops16, fun s => ?_, fun s => draws_loops16 s hbits (by omega)⟩
      rw [lcdDisplayBitmap, if_neg hrefused, if_neg (by omega), if_pos (hbuilt hbits)]
  rw [right_iff_loops hdraws (fun s => (d s).width) fun s => (d s).height]
  constructor
  · intro h
    have hin := (h default).1
    have hbytes : 0 < (f default).bytes := by
      rw [(d default).bytes]
      omega
    rcases Nat.eq_zero_or_pos c.height with hzero | hrows
    · have hd : c.FitsDown := c.height_lt_iff.mp (by omega)
      exact .inr (.inl ⟨hd, hd.height_eq ▸ hzero⟩)
    have hwidth := hin.width_lt hbytes ((d default).height ▸ hrows)
    have ha : c.FitsAcross := c.width_lt_iff.mp ((d default).width ▸ hwidth)
    rcases Nat.eq_zero_or_pos c.width with hzero | hcols
    · exact .inl ⟨ha, ha.width_eq ▸ hzero⟩
    have hheight := hin.height_lt (d default) hbytes ((d default).width ▸ hcols) hwidth
    have hd : c.FitsDown := c.height_lt_iff.mp ((d default).height ▸ hheight)
    have hfinishes : c.Finishes := fun s => ⟨f s, d s, (h s).2 hd (.inr ha)⟩
    exact .inr (.inr ⟨ha, hd, hfinishes.placed hrefused ha hd ⟨ha.width_eq ▸ hcols, hd.height_eq ▸ hrows⟩ hstore⟩)
  · have hempty : ∀ s, (f s).width = 0 ∨ (f s).height = 0 → c.StaysIn s (f s) := by
      intro s hzero t ht
      rw [Loops.reaches_ram_eq (c.starts s) hzero ht]
      exact fun w hw => absurd hw List.not_mem_nil
    rintro (⟨ha, hzero⟩ | ⟨hd, hzero⟩ | ⟨ha, hd, hplaced⟩) s
    · have hwidth : (f s).width = 0 := by rw [(d s).width, ha.width_eq, hzero]
      exact ⟨hempty s (.inl hwidth), fun _ _ => shows_of_not_visible fun hvisible => absurd hvisible.1 (by omega)⟩
    · have hheight : (f s).height = 0 := by rw [(d s).height, hd.height_eq, hzero]
      exact ⟨hempty s (.inr hheight), fun _ _ => shows_of_not_visible fun hvisible => absurd hvisible.2 (by omega)⟩
    · exact ⟨fun t ht => (d s).writesIn hrefused ha hd ht, fun _ _ => (d s).shows hrefused hstore ha hd hplaced⟩

/-- **Exactly when the image is drawn, and only that.** -/
theorem right_iff_meets (c : Call) : c.Right ↔ c.Meets := by
  rw [Meets]
  by_cases hrefused : c.Refused
  · rw [if_pos hrefused]
    exact iff_true_intro (right_of_refused hrefused)
  rw [if_neg hrefused]
  by_cases hunbuilt : c.header.bitCount = 16 ∧ ¬ c.build.bmp16bpp
  · rw [if_pos hunbuilt]
    exact right_iff_of_unbuilt hrefused hunbuilt.1 hunbuilt.2
  rw [if_neg hunbuilt]
  by_cases hstore : c.NoStore
  · rw [if_pos hstore]
    exact right_iff_of_noStore hrefused hstore
  · rw [if_neg hstore]
    exact right_iff_of_draws hrefused (fun hbits => by_contra fun h => hunbuilt ⟨hbits, h⟩) hstore

/-- Two rows of three pixels on an 8-bit panel of four columns and two lines. -/
def narrow : Call where
  build := ⟨.pxa250, false, false, false, false, .little⟩
  panel := ⟨4, 2, 3, by decide, by decide, by decide⟩
  header := ⟨(0x42, 0x4d), 3, 2, 8, by decide, by decide, .inl rfl⟩
  x := 0
  y := 0
  x_lt := Nat.succ_pos _
  y_lt := Nat.succ_pos _

/-- The second row of the image is read from two bytes before its place. -/
theorem not_right_narrow : ¬ narrow.Right := by
  have hrefused : ¬ narrow.Refused := by decide
  have hstore : ¬ narrow.NoStore := by decide
  rw [right_iff_of_draws hrefused (fun hbits => absurd hbits (by decide)) hstore]
  rintro (⟨-, h⟩ | ⟨-, h⟩ | ⟨-, -, h⟩)
  · exact absurd h (by decide)
  · exact absurd h (by decide)
  · have hfollow := h.follow (by decide)
    rw [RowsFollow, if_pos (show narrow.header.bitCount = 8 from rfl)] at hfollow
    exact absurd hfollow (by decide)

end Call

end Uboot.Common.LcdBitmap
