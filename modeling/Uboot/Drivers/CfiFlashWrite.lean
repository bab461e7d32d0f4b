/-
  Uboot.Drivers.CfiFlashWrite

  What `write_buff` of drivers/mtd/cfi_flash.c leaves in the flash.

  The flash is written piece by piece, up to the first piece that cannot be: a piece is one word, or the
  words of the destination that lie in one block of the write buffer.  Erased bytes can always be
  written.  A word that cannot be is noticed where it is a piece of its own; in a write buffer only
  where no word of its piece can be written.
-/

import Uboot.Drivers.CfiFlashPieces

namespace Uboot.Drivers.CfiFlash

open Uboot.Lib

-- ============================================================================
-- The destination
-- ============================================================================

/-- A call of `write_buff`: the flash before it, and what is to be written where. -/
structure Request where
  flash : Mem UInt8
  src : Mem UInt8
  addr : Nat
  cnt : Nat

namespace Request

variable (q : Request) {info : FlashInfo} {n a a' k x : Nat}

/-- What the flash is to hold. -/
def target : Mem UInt8 := fun x => if q.addr ≤ x ∧ x < q.addr + q.cnt then q.src (x - q.addr) else q.flash x

/-- The word at `a` has bytes of the destination. -/
def DestWord (n a : Nat) : Prop := n ∣ a ∧ a < q.addr + q.cnt ∧ q.addr < a + n

/-- It has no others. -/
def Whole (n a : Nat) : Prop := q.addr ≤ a ∧ a + n ≤ q.addr + q.cnt

/-- A word of the destination with a zero bit where it is to have a one. -/
def Bad (n a : Nat) : Prop := q.DestWord n a ∧ ¬Good n q.flash q.target a

theorem target_inside {i : Nat} (hi : i < q.cnt) : q.target (q.addr + i) = q.src i := by
  rw [target, if_pos (by omega), Nat.add_sub_cancel_left]

theorem target_outside (h : x < q.addr ∨ q.addr + q.cnt ≤ x) : q.target x = q.flash x := if_neg (by omega)

/-- The source, read from where its bytes are to be. -/
theorem read_src {s : Nat} (ha : q.addr + s = a) (h : a + k ≤ q.addr + q.cnt) : q.src.read s k = q.target.read a k := by
  apply List.map_congr_left
  intro i hi
  have hlt := List.mem_range.mp hi
  rw [← ha, Nat.add_assoc, q.target_inside (by omega)]

/-- The flash, read where it is to stay. -/
theorem read_flash {m : Mem UInt8} (hm : ∀ x, a ≤ x → m x = q.flash x) (h : a + k ≤ q.addr ∨ q.addr + q.cnt ≤ a) :
    m.read a k = q.target.read a k :=
  Mem.read_congr fun x h₁ h₂ => by rw [hm x h₁, q.target_outside (by omega)]

end Request

/-- Words in one block of this size are written together. -/
def FlashInfo.pieceSize (info : FlashInfo) : Nat :=
  if info.useBufferWrite = false ∨ info.bufferSize = 1 then info.width else info.bufferedSize

/-- Two words that are written together. -/
def SamePiece (info : FlashInfo) (q : Request) (a a' : Nat) : Prop :=
  a = a' ∨ q.Whole info.width a ∧ q.Whole info.width a' ∧ a / info.pieceSize = a' / info.pieceSize

/-- A range with all the words that are written together with one of its own, and no others. -/
structure IsPiece (info : FlashInfo) (q : Request) (e : Extent) : Prop where
  len_pos : 0 < e.len
  dvd_start : info.width ∣ e.start
  destWord : ∀ a, info.width ∣ a → a ∈ e.cells → q.DestWord info.width a
  samePiece : ∀ a a', info.width ∣ a → a ∈ e.cells → q.DestWord info.width a' → (SamePiece info q a a' ↔ a' ∈ e.cells)

variable {info : FlashInfo} {q : Request} {wp k : Nat}

/-- A word with other bytes than those of the destination. -/
theorem isPiece_word (hdest : q.DestWord info.width wp) (hwhole : ¬q.Whole info.width wp) :
    IsPiece info q ⟨wp, info.width⟩ := by
  have hpos : 0 < info.width := info.portwidth.bytes_pos
  have honly : ∀ a, info.width ∣ a → a ∈ (Extent.mk wp info.width).cells → a = wp := by
    intro a ha hmem
    rcases Nat.eq_or_lt_of_le hmem.1 with heq | hlt
    · exact heq.symm
    · exact absurd hmem.2 (Nat.not_lt.mpr (add_le_of_dvd hdest.1 ha hlt))
  refine ⟨hpos, hdest.1, fun a ha hmem => honly a ha hmem ▸ hdest, fun a a' ha hmem hdest' => ?_⟩
  obtain rfl := honly a ha hmem
  constructor
  · rintro (rfl | ⟨hself, _⟩)
    · exact hmem
    · exact absurd hself hwhole
  · intro hmem'
    exact .inl (honly a' hdest'.1 hmem').symm

/-- No whole word of the destination before `wp` is in its block. -/
def Fresh (info : FlashInfo) (q : Request) (wp : Nat) : Prop :=
  wp + info.width ≤ q.addr + q.cnt →
    ∀ a, info.width ∣ a → q.Whole info.width a → a < wp → a / info.pieceSize ≠ wp / info.pieceSize

/-- Whole words up to the end of their block, or as many as there are. -/
theorem isPiece_whole (hpos : 0 < k) (hdvd : info.width ∣ wp) (hk : info.width ∣ k) (haddr : q.addr ≤ wp)
    (hend : wp + k ≤ q.addr + q.cnt) (hfresh : Fresh info q wp) (hblock : k ≤ info.pieceSize - wp % info.pieceSize)
    (hlast : info.pieceSize ∣ wp + k ∨ q.addr + q.cnt < wp + k + info.width) : IsPiece info q ⟨wp, k⟩ := by
  have hwidth : 0 < info.width := info.portwidth.bytes_pos
  have hwhole : ∀ a, info.width ∣ a → a ∈ (Extent.mk wp k).cells → q.Whole info.width a := by
    intro a ha hmem
    have hword := add_le_of_dvd ha (Nat.dvd_add hdvd hk) hmem.2
    exact ⟨haddr.trans hmem.1, hword.trans hend⟩
  have hdiv : ∀ a ∈ (Extent.mk wp k).cells, a / info.pieceSize = wp / info.pieceSize :=
    fun a hmem => div_eq_of_sub_mod_le hmem.1 hmem.2 hblock
  refine ⟨hpos, hdvd, fun a ha hmem => ?_, fun a a' ha hmem hdest' => ?_⟩
  · obtain ⟨h₁, h₂⟩ := hwhole a ha hmem
    exact ⟨ha, by omega, by omega⟩
  constructor
  · rintro (rfl | ⟨_, hwhole', hsame⟩)
    · exact hmem
    rw [hdiv a hmem] at hsame
    constructor
    · by_contra hbefore
      have hroom : wp + info.width ≤ q.addr + q.cnt :=
        (add_le_of_dvd hdvd (Nat.dvd_add hdvd hk) (Nat.lt_add_of_pos_right hpos)).trans hend
      exact hfresh hroom a' hdest'.1 hwhole' (Nat.lt_of_not_le hbefore) hsame.symm
    · by_contra hbehind
      have hle : wp + k ≤ a' := Nat.le_of_not_lt hbehind
      rcases hlast with hboundary | hshort
      · have hnext : (wp + k) / info.pieceSize ≤ a' / info.pieceSize := Nat.div_le_div_right hle
        have hsize : 0 < info.pieceSize := by omega
        obtain ⟨j, hj⟩ := hboundary
        rw [hj, Nat.mul_div_cancel_left _ hsize, ← hsame] at hnext
        have := (Nat.div_lt_iff_lt_mul hsize (x := wp) (y := j)).mpr (by rw [Nat.mul_comm, ← hj]; omega)
        omega
      · have := hwhole'.2
        omega
  · intro hmem'
    exact .inr ⟨hwhole a ha hmem, hwhole a' hdest'.1 hmem', by rw [hdiv a hmem, hdiv a' hmem']⟩

-- ============================================================================
-- The run
-- ============================================================================

/-- Where the last word ends. -/
def Request.stop (q : Request) (n : Nat) : Nat := alignUp (q.addr + q.cnt) n

/-- What is left when the words from `wp` on have been written in `m`. -/
structure Outcome (info : FlashInfo) (q : Request) (wp : Nat) (m : Mem UInt8) (w : FlashInfo.Written) : Prop where
  /-- no buffer has words of two blocks -/
  inBlock : ∀ e ∈ w.buffers, 0 < e.len ∧ e.start / info.bufferedSize = (e.stop - 1) / info.bufferedSize
  /-- a piece was not accepted, or all were -/
  result : (w.ret = ERR_NOT_ERASED ∧ ∃ e, IsPiece info q e ∧ ¬Accepts info.width q.flash q.target e) ∨
    w.ret = ERR_OK ∧
      (∃ es, Extent.Chain wp es (q.stop info.width) ∧
        ∀ e ∈ es, IsPiece info q e ∧ Accepts info.width q.flash q.target e) ∧
      w.flash = anded m q.target ⟨wp, q.stop info.width - wp⟩

namespace Outcome

variable {m : Mem UInt8} {r : Mem UInt8 × Int} {w : FlashInfo.Written}

theorem nil : Outcome info q (q.stop info.width) m ⟨m, ERR_OK, []⟩ where
  inBlock := fun _ he => (List.not_mem_nil he).elim
  result := .inr ⟨rfl, ⟨[], rfl, fun _ he => (List.not_mem_nil he).elim⟩, by rw [Nat.sub_self, anded_empty]⟩

/-- One more piece, and what follows if it is accepted. -/
theorem step (rest : Mem UInt8 → FlashInfo.Written) (hpiece : IsPiece info q ⟨wp, k⟩) (hm : ∀ x, wp ≤ x → m x = q.flash x)
    (hwrites : Writes info.width q.target m ⟨wp, k⟩ r)
    (hrest : Outcome info q (wp + k) (anded m q.target ⟨wp, k⟩) (rest (anded m q.target ⟨wp, k⟩))) :
    Outcome info q wp m (if r.2 ≠ ERR_OK then ⟨r.1, r.2, []⟩ else rest r.1) := by
  rw [Writes, accepts_congr hm] at hwrites
  rcases hwrites with ⟨haccepts, rfl⟩ | ⟨haccepts, rfl⟩
  · rw [if_neg (not_not.mpr rfl)]
    refine ⟨hrest.inBlock, hrest.result.imp_right fun hall => ?_⟩
    obtain ⟨hret, ⟨es, hchain, hes⟩, hflash⟩ := hall
    refine ⟨hret, ?_, ?_⟩
    · exact ⟨⟨wp, k⟩ :: es, ⟨rfl, hchain⟩, List.forall_mem_cons.mpr ⟨⟨hpiece, haccepts⟩, hes⟩⟩
    · have hle := hchain.le
      have hlen : k + (q.stop info.width - (wp + k)) = q.stop info.width - wp := by omega
      rw [hflash, anded_anded, hlen]
  · rw [if_pos (show ERR_NOT_ERASED ≠ ERR_OK by decide)]
    exact ⟨fun _ he => (List.not_mem_nil he).elim, .inl ⟨rfl, _, hpiece, haccepts⟩⟩

/-- The last piece. -/
theorem last (hpiece : IsPiece info q ⟨wp, k⟩) (hm : ∀ x, wp ≤ x → m x = q.flash x)
    (hwrites : Writes info.width q.target m ⟨wp, k⟩ r) (hstop : q.stop info.width = wp + k) :
    Outcome info q wp m ⟨r.1, r.2, []⟩ := by
  have hstep := step (fun m' => ⟨m', ERR_OK, []⟩) hpiece hm hwrites (hstop ▸ nil)
  split at hstep
  · exact hstep
  · rename_i hret
    rwa [not_not.mp hret]

theorem buffer {e : Extent} (h : Outcome info q wp m w) (hlen : 0 < e.len)
    (hblock : e.start / info.bufferedSize = (e.stop - 1) / info.bufferedSize) :
    Outcome info q wp m { w with buffers := e :: w.buffers } where
  inBlock := List.forall_mem_cons.mpr ⟨⟨hlen, hblock⟩, h.inBlock⟩
  result := h.result

end Outcome

namespace FlashInfo

variable {init : Nat → info.Word} {m : Mem UInt8} {s cnt : Nat}

/-- The bytes that a word is to have, put together. -/
theorem byteAt_cword_target {o : Nat} (ho : o < info.width) :
    info.byteOrder.byteAt (info.cword init wp (q.target.read wp info.width)) o = q.target (wp + o) := by
  rw [byteAt_cword (Mem.read_length _) ho, List.getD_eq_getElem _ _ (by rwa [Mem.read_length]), Mem.getElem_read]

theorem writes_target (hdvd : info.width ∣ wp) :
    Writes info.width q.target m ⟨wp, info.width⟩
      (info.flashWriteCfiword m wp (info.cword init wp (q.target.read wp info.width))) :=
  writes_cfiword hdvd fun _ => byteAt_cword_target

theorem writeAligned_zero {src : Mem UInt8} : info.writeAligned init src m wp s 0 = ⟨m, ERR_OK, []⟩ := by
  rw [writeAligned, dif_neg (Nat.not_le.mpr info.portwidth.bytes_pos), writeTail, if_pos rfl]
  rfl

/-- The tail: a word with bytes behind the destination, unless the destination ends at a word. -/
theorem writeTail_outcome (hcnt : cnt < info.width) (hdvd : info.width ∣ wp) (hs : q.addr + s = wp)
    (hend : wp + cnt = q.addr + q.cnt) (hm : ∀ x, wp ≤ x → m x = q.flash x) :
    Outcome info q wp m ⟨(info.writeTail init q.src m wp s cnt).1, (info.writeTail init q.src m wp s cnt).2, []⟩ := by
  have hpos : 0 < info.width := info.portwidth.bytes_pos
  rw [writeTail]
  split
  · rename_i hzero
    have hstop : q.stop info.width = wp := alignUp_eq hpos hdvd (by omega) (by omega)
    exact hstop ▸ Outcome.nil
  · have hbytes : q.src.read s cnt ++ m.read (wp + cnt) (info.width - cnt) = q.target.read wp info.width := by
      rw [q.read_src hs (by omega), q.read_flash (fun x hx => hm x (by omega)) (.inr (by omega)), ← Mem.read_add,
        Nat.add_sub_cancel' (by omega)]
    dsimp only
    rw [Nat.min_eq_right (by omega), hbytes]
    have hstop : q.stop info.width = wp + info.width :=
      alignUp_eq hpos (Nat.dvd_add hdvd dvd_rfl) (by omega) (by omega)
    have hpiece : IsPiece info q ⟨wp, info.width⟩ :=
      isPiece_word ⟨hdvd, by omega, by omega⟩ fun hwhole => by
        have := hwhole.2
        omega
    exact Outcome.last hpiece hm (writes_target hdvd) hstop

/-- Behind a range that is programmed the flash is as it was before. -/
theorem anded_behind (hm : ∀ x, wp ≤ x → m x = q.flash x) {x : Nat} (hx : wp + k ≤ x) :
    anded m q.target ⟨wp, k⟩ x = q.flash x := by
  rw [anded_outside (.inr hx)]
  exact hm x (by omega)

theorem fresh_of_dvd (h : info.pieceSize ∣ wp) : Fresh info q wp := by
  intro _ a _ _ hlt hsame
  have hle := Nat.div_mul_le_self wp info.pieceSize
  have heq := Nat.div_mul_cancel h
  have hpos : 0 < info.pieceSize := by
    by_contra hzero
    have hsize : info.pieceSize = 0 := by omega
    rw [hsize, Nat.mul_zero] at heq
    omega
  have := (Nat.div_lt_iff_lt_mul hpos (x := a) (y := wp / info.pieceSize)).mpr (by omega)
  omega

/-- A buffer begins and ends with whole words of one block, and goes to the end of the block or of the words. -/
theorem bufferLen_spec (hbuffer : ¬(info.useBufferWrite = false ∨ info.bufferSize = 1)) (hdvd : info.width ∣ wp)
    (hcnt : info.width ≤ cnt) :
    info.bufferLen wp cnt / info.width * info.width ≤ cnt ∧
      info.bufferLen wp cnt / info.width * info.width ≤ info.bufferedSize - wp % info.bufferedSize ∧
      0 < info.bufferLen wp cnt / info.width * info.width ∧
      (info.bufferedSize ∣ wp + info.bufferLen wp cnt / info.width * info.width ∨
        cnt < info.bufferLen wp cnt / info.width * info.width + info.width) := by
  have hwidth : 0 < info.width := info.portwidth.bytes_pos
  obtain ⟨hpos, hword⟩ := info.bufferSize_ok (Bool.of_not_eq_false fun h => hbuffer (.inl h)) fun h => hbuffer (.inr h)
  change 0 < info.bufferedSize at hpos
  change info.width ∣ info.bufferedSize at hword
  have hmod : wp % info.bufferedSize < info.bufferedSize := Nat.mod_lt _ hpos
  have hroom : info.width ∣ info.bufferedSize - wp % info.bufferedSize :=
    Nat.dvd_sub hword ((Nat.dvd_mod_iff hword).mpr hdvd)
  have hroom_le := Nat.le_of_dvd (by omega) hroom
  rw [bufferLen]
  split
  · have hdiv := Nat.div_add_mod cnt info.width
    have hlt := Nat.mod_lt cnt hwidth
    rw [Nat.mul_comm] at hdiv
    omega
  · rw [Nat.div_mul_cancel hroom]
    refine ⟨by omega, le_rfl, by omega, .inl ?_⟩
    have hdiv := Nat.div_add_mod wp info.bufferedSize
    refine ⟨wp / info.bufferedSize + 1, ?_⟩
    rw [Nat.mul_succ]
    omega

/-- Masked as `write_buff` does it, a number of bytes is that of its whole words. -/
theorem sub_and_bytes (i : Nat) : i - (i &&& (info.portwidth.bytes - 1)) = i / info.width * info.width := by
  have hmask : i &&& (info.portwidth.bytes - 1) = i % info.width := info.portwidth.and_sub_one i
  have hdiv := Nat.div_add_mod i info.width
  rw [Nat.mul_comm] at hdiv
  omega

/-- A word of the loop, where words are pieces. -/
theorem isPiece_alignedWord (hword : info.useBufferWrite = false ∨ info.bufferSize = 1) (hdvd : info.width ∣ wp)
    (haddr : q.addr ≤ wp) (hroom : wp + info.width ≤ q.addr + q.cnt) (hfresh : Fresh info q wp) :
    IsPiece info q ⟨wp, info.width⟩ ∧ Fresh info q (wp + info.width) := by
  have hwidth : 0 < info.width := info.portwidth.bytes_pos
  have hsize : info.pieceSize = info.width := if_pos hword
  have hboundary : info.pieceSize ∣ wp + info.width := by
    rw [hsize]
    exact Nat.dvd_add hdvd dvd_rfl
  have hblock : info.width ≤ info.pieceSize - wp % info.pieceSize := by
    rw [hsize, Nat.mod_eq_zero_of_dvd hdvd, Nat.sub_zero]
  exact ⟨isPiece_whole hwidth hdvd dvd_rfl haddr hroom hfresh hblock (.inl hboundary), fresh_of_dvd hboundary⟩

/-- A buffer of the loop, where the words of a block are. -/
theorem isPiece_buffer (hbuffer : ¬(info.useBufferWrite = false ∨ info.bufferSize = 1)) (hdvd : info.width ∣ wp)
    (hcnt : info.width ≤ cnt) (haddr : q.addr ≤ wp) (hend : wp + cnt = q.addr + q.cnt) (hfresh : Fresh info q wp) :
    IsPiece info q ⟨wp, info.bufferLen wp cnt / info.width * info.width⟩ ∧
      Fresh info q (wp + info.bufferLen wp cnt / info.width * info.width) := by
  have hsize : info.pieceSize = info.bufferedSize := if_neg hbuffer
  obtain ⟨hle, hblock, hpos, hlast⟩ := bufferLen_spec hbuffer hdvd hcnt
  generalize info.bufferLen wp cnt = i at hle hblock hpos hlast
  rw [← hsize] at hblock hlast
  constructor
  · exact isPiece_whole hpos hdvd (Nat.dvd_mul_left _ _) haddr (by omega) hfresh hblock
      (hlast.imp_right fun hshort => by omega)
  · rcases hlast with hboundary | hshort
    · exact fresh_of_dvd hboundary
    · intro hroom
      omega

/-- The loop over the aligned part. -/
theorem writeAligned_outcome (hdvd : info.width ∣ wp) (hs : q.addr + s = wp) (hend : wp + cnt = q.addr + q.cnt)
    (hm : ∀ x, wp ≤ x → m x = q.flash x) (hfresh : Fresh info q wp) :
    Outcome info q wp m (info.writeAligned init q.src m wp s cnt) := by
  have hwidth : 0 < info.width := info.portwidth.bytes_pos
  induction cnt using Nat.strong_induction_on generalizing m wp s with
  | _ cnt ih =>
    rw [writeAligned]
    split
    · rename_i hcnt
      split
      · -- a word
        rename_i hword
        obtain ⟨hpiece, hnext⟩ := isPiece_alignedWord hword hdvd (by omega) (by omega) hfresh
        rw [q.read_src hs (by omega)]
        refine Outcome.step
          (fun m' => info.writeAligned init q.src m' (wp + info.width) (s + info.width) (cnt - info.width))
          hpiece hm (writes_target hdvd) ?_
        exact ih (cnt - info.width) (by omega) (Nat.dvd_add hdvd dvd_rfl) (by omega) (by omega)
          (fun x hx => anded_behind hm hx) hnext
      · -- a buffer
        rename_i hbuffer
        obtain ⟨hpiece, hnext⟩ := isPiece_buffer hbuffer hdvd hcnt (by omega) hend hfresh
        obtain ⟨hle, hblock, hpos, _⟩ := bufferLen_spec hbuffer hdvd hcnt
        simp only [dite_eq_ite, sub_and_bytes, shiftRight_shift]
        generalize info.bufferLen wp cnt = i at hpiece hnext hle hblock hpos
        have hsrc : ∀ x < i / info.width * info.width, q.src (s + x) = q.target (wp + x) := by
          intro x hx
          rw [← hs, Nat.add_assoc, q.target_inside (by omega)]
        have hwrites : Writes info.width q.target m ⟨wp, i / info.width * info.width⟩
            (info.flashWriteCfibuffer m q.src wp s i) := writes_cfibuffer hdvd hsrc
        refine Outcome.step (fun m' =>
          let rest := info.writeAligned init q.src m' (wp + i / info.width * info.width) (s + i / info.width * info.width)
            (cnt - i / info.width * info.width)
          { rest with buffers := ⟨wp, i / info.width * info.width⟩ :: rest.buffers }) hpiece hm hwrites ?_
        apply Outcome.buffer
        · exact ih _ (by omega) (Nat.dvd_add hdvd (Nat.dvd_mul_left _ _)) (by omega) (by omega)
            (fun x hx => anded_behind hm hx) hnext
        · exact hpos
        · have hstop : wp ≤ wp + i / info.width * info.width - 1 ∧
              wp + i / info.width * info.width - 1 < wp + i / info.width * info.width := by omega
          exact (div_eq_of_sub_mod_le hstop.1 hstop.2 hblock).symm
    · rename_i hcnt
      exact writeTail_outcome (by omega) hdvd hs hend hm

/-- The bytes of the head: what is in the flash before and behind those of the source. -/
theorem head_bytes {d j fill : Nat} (ha : wp + d = q.addr) (hj : j ≤ q.cnt) (hfill : fill = 0 ∨ j = q.cnt)
    (hlen : d + j + fill = info.width) :
    q.flash.read wp d ++ q.src.read 0 j ++ q.flash.read (wp + (d + j)) fill = q.target.read wp info.width := by
  have hbefore : q.flash.read wp d = q.target.read wp d := q.read_flash (fun _ _ => rfl) (.inl (Nat.le_of_eq ha))
  have hsrc : q.src.read 0 j = q.target.read (wp + d) j := q.read_src ha.symm (by omega)
  have hbehind : q.flash.read (wp + (d + j)) fill = q.target.read (wp + (d + j)) fill := by
    rcases hfill with rfl | rfl
    · rfl
    · exact q.read_flash (fun _ _ => rfl) (.inr (by omega))
  rw [hbefore, hsrc, hbehind, ← Mem.read_add, ← Mem.read_add, hlen]

/-- A call of `write_buff`. -/
theorem writeBuff_outcome (init : Nat → info.Word) (q : Request) :
    Outcome info q (q.addr - q.addr % info.width) q.flash (info.writeBuff init q.src q.flash q.addr q.cnt) := by
  have hpos : 0 < info.width := info.portwidth.bytes_pos
  have hlt := Nat.mod_lt q.addr hpos
  have hle := Nat.mod_le q.addr info.width
  have hdvd : info.width ∣ q.addr - q.addr % info.width := Nat.dvd_sub_mod q.addr
  have hmask : q.addr &&& (info.portwidth.bytes - 1) = q.addr % info.width := info.portwidth.and_sub_one _
  have haln : q.addr - (q.addr - q.addr % info.width) = q.addr % info.width := by omega
  rw [writeBuff, hmask, haln]
  split
  · rename_i hunaligned
    generalize hwp : q.addr - q.addr % info.width = wp at hdvd haln
    generalize q.addr % info.width = d at hlt hle hunaligned hwp haln
    dsimp only
    generalize hk : min (info.width - d) q.cnt = k
    have hkle : k ≤ q.cnt ∧ k ≤ info.width - d := by omega
    generalize hfill : (if q.cnt - k = 0 then info.width - (d + k) else 0) = fill
    have hlen : d + k + fill = info.width := by
      rw [← hfill]
      split <;> omega
    have hend : fill = 0 ∨ k = q.cnt := by
      by_cases hrest : q.cnt - k = 0
      · exact .inr (by omega)
      · exact .inl (by rw [← hfill, if_neg hrest])
    have hnext : info.width ∣ wp + info.width := Nat.dvd_add hdvd dvd_rfl
    have hpiece : IsPiece info q ⟨wp, info.width⟩ :=
      isPiece_word ⟨hdvd, by omega, by omega⟩ fun hwhole => by
        have := hwhole.1
        omega
    rw [head_bytes (by omega) hkle.1 hend hlen, hlen]
    refine Outcome.step (fun m' => info.writeAligned init q.src m' (wp + info.width) k (q.cnt - k)) hpiece
      (fun _ _ => rfl) (writes_target hdvd) ?_
    by_cases hrest : q.cnt - k = 0
    · have hstop : q.stop info.width = wp + info.width := alignUp_eq hpos hnext (by omega) (by omega)
      rw [hrest, writeAligned_zero, ← hstop]
      exact Outcome.nil
    · refine writeAligned_outcome hnext (by omega) (by omega) (fun _ hx => anded_behind (fun _ _ => rfl) hx) ?_
      intro _ a ha hwhole hbefore
      have hword := add_le_of_dvd ha hnext hbefore
      have := hwhole.1
      omega
  · rename_i haligned
    rw [not_not.mp haligned, Nat.sub_zero] at hdvd ⊢
    exact writeAligned_outcome hdvd rfl rfl (fun _ _ => rfl) fun _ a _ hwhole hbefore =>
      absurd hwhole.1 (Nat.not_le.mpr hbefore)

-- ============================================================================
-- Erased or not
-- ============================================================================

/-- What is left when every piece was accepted. -/
theorem accepted_flash (w : Written)
    (hflash : w.flash = anded q.flash q.target
      ⟨q.addr - q.addr % info.width, q.stop info.width - (q.addr - q.addr % info.width)⟩) :
    (∀ i < q.cnt, w.flash (q.addr + i) = q.flash (q.addr + i) &&& q.src i) ∧
      ∀ x, x < q.addr ∨ q.addr + q.cnt ≤ x → w.flash x = q.flash x := by
  have hstop : q.addr + q.cnt ≤ q.stop info.width := le_alignUp info.portwidth.bytes_pos
  have hstart := Nat.sub_le q.addr (q.addr % info.width)
  rw [hflash]
  constructor
  · intro i hi
    rw [anded_inside (show q.addr - q.addr % info.width ≤ q.addr + i by omega) (by dsimp only [Extent.stop]; omega),
      q.target_inside hi]
  · intro x hx
    rw [anded]
    split
    · rw [q.target_outside hx, UInt8.and_self]
    · rfl

/-- Erased bytes take any value. -/
theorem good_of_erased (h : ∀ i < q.cnt, q.flash (q.addr + i) = 0xff) (a : Nat) :
    Good info.width q.flash q.target a := by
  intro o _
  by_cases hin : q.addr ≤ a + o ∧ a + o < q.addr + q.cnt
  · obtain ⟨i, hi⟩ := Nat.exists_eq_add_of_le hin.1
    rw [hi, h i (by omega)]
    exact UInt8.toBitVec_inj.mp (BitVec.allOnes_and)
  · rw [q.target_outside (by omega), UInt8.and_self]

/-- A piece of words that can be written is accepted. -/
theorem accepts_of_good {e : Extent} (hpiece : IsPiece info q e)
    (h : ∀ a, q.DestWord info.width a → Good info.width q.flash q.target a) :
    Accepts info.width q.flash q.target e := by
  have hmem : e.start ∈ e.cells := ⟨le_rfl, Nat.lt_add_of_pos_right hpiece.len_pos⟩
  exact ⟨e.start, hpiece.dvd_start, hmem, h _ (hpiece.destWord _ hpiece.dvd_start hmem)⟩

/-- Writing to erased flash: every byte of the destination is the source's, every other byte stays, and
    each buffer that is written lies in one block of the write buffer. -/
theorem writeBuff_erased (info : FlashInfo) (init : Nat → info.Word) (q : Request)
    (h : ∀ i < q.cnt, q.flash (q.addr + i) = 0xff) :
    (info.writeBuff init q.src q.flash q.addr q.cnt).ret = 0 ∧
      (∀ i < q.cnt, (info.writeBuff init q.src q.flash q.addr q.cnt).flash (q.addr + i) = q.src i) ∧
      (∀ x, x < q.addr ∨ q.addr + q.cnt ≤ x →
        (info.writeBuff init q.src q.flash q.addr q.cnt).flash x = q.flash x) ∧
      ∀ e ∈ (info.writeBuff init q.src q.flash q.addr q.cnt).buffers,
        0 < e.len ∧ e.start / info.bufferedSize = (e.stop - 1) / info.bufferedSize := by
  obtain ⟨hblock, hresult⟩ := writeBuff_outcome init q
  rcases hresult with ⟨_, e, hpiece, hrejected⟩ | ⟨hret, _, hflash⟩
  · exact absurd (accepts_of_good hpiece fun a _ => good_of_erased h a) hrejected
  · obtain ⟨hinside, houtside⟩ := accepted_flash _ hflash
    refine ⟨hret, fun i hi => ?_, houtside, hblock⟩
    rw [hinside i hi, h i hi]
    exact UInt8.toBitVec_inj.mp (BitVec.allOnes_and)

/-- A flash of bytes with a write buffer of two. -/
def twoBytes : FlashInfo where
  portwidth := .bits8
  chipwidth := .bits8
  bufferSize := 2
  byteOrder := .little
  useBufferWrite := true
  bufferSize_ok := fun _ _ => by decide

theorem writeBuff_erased_three :
    (twoBytes.writeBuff (fun _ => 0) (fun i => .ofNat i) (fun _ => 0xff) 1 3).ret = 0 ∧
      (twoBytes.writeBuff (fun _ => 0) (fun i => .ofNat i) (fun _ => 0xff) 1 3).flash (1 + 2) = 2 :=
  have h := writeBuff_erased twoBytes (fun _ => 0) ⟨fun _ => 0xff, fun i => .ofNat i, 1, 3⟩ fun _ _ => rfl
  ⟨h.1, h.2.1 2 (by decide)⟩

/-- What is not erased is noticed: 0 means that the destination has the source's bytes, and a word that
    cannot be written is an error. -/
def Notices (info : FlashInfo) (init : Nat → info.Word) (q : Request) : Prop :=
  ((info.writeBuff init q.src q.flash q.addr q.cnt).ret = 0 →
      ∀ i < q.cnt, (info.writeBuff init q.src q.flash q.addr q.cnt).flash (q.addr + i) = q.src i) ∧
    ((∃ a, q.Bad info.width a) → (info.writeBuff init q.src q.flash q.addr q.cnt).ret = ERR_NOT_ERASED)

/-- A word of zeros behind an erased one, in one buffer: ones are written to both, and the value is 0. -/
theorem not_notices :
    ¬Notices twoBytes (fun _ => 0) ⟨fun x => if x = 1 then 0 else 0xff, fun _ => 0xff, 0, 2⟩ := by
  rintro ⟨_, h⟩
  have hbad : Request.Bad ⟨fun x => if x = 1 then 0 else 0xff, fun _ => 0xff, 0, 2⟩ twoBytes.width 1 :=
    ⟨⟨one_dvd 1, by decide, by decide⟩, fun hgood => absurd (hgood 0 (by decide)) (by decide)⟩
  have hret := h ⟨1, hbad⟩
  rw [writeBuff, if_neg (by decide), writeAligned, dif_pos (by decide), if_neg (by decide), dif_neg (by decide)] at hret
  have hend : ∀ m : Mem UInt8, (twoBytes.writeAligned (fun _ => 0) (fun _ => 0xff) m 2 2 0).ret = ERR_OK :=
    fun m => congrArg Written.ret writeAligned_zero
  exact absurd ((hend _).symm.trans hret) (by decide)

/-- It is where all the words of one piece cannot be written, or every word can. -/
theorem notices_iff (init : Nat → info.Word) (q : Request) :
    Notices info init q ↔
      ((∃ a, q.Bad info.width a) →
        ∃ a, q.Bad info.width a ∧ ∀ a', q.DestWord info.width a' → SamePiece info q a a' → q.Bad info.width a') := by
  obtain ⟨_, hresult⟩ := writeBuff_outcome init q
  rw [Notices]
  constructor
  · rintro ⟨_, hnotErased⟩ hbad
    rcases hresult with ⟨_, e, hpiece, hrejected⟩ | ⟨hret, _, _⟩
    · have hmem : e.start ∈ e.cells := ⟨le_rfl, Nat.lt_add_of_pos_right hpiece.len_pos⟩
      have hall : ∀ a, info.width ∣ a → a ∈ e.cells → q.Bad info.width a := fun a ha hcell =>
        ⟨hpiece.destWord a ha hcell, fun hgood => hrejected ⟨a, ha, hcell, hgood⟩⟩
      refine ⟨e.start, hall _ hpiece.dvd_start hmem, fun a' hdest hsame => hall a' hdest.1 ?_⟩
      exact (hpiece.samePiece _ a' hpiece.dvd_start hmem hdest).mp hsame
    · rw [hnotErased hbad] at hret
      exact absurd hret (by decide)
  · intro hcond
    by_cases hbad : ∃ a, q.Bad info.width a
    · obtain ⟨a, ha, hall⟩ := hcond hbad
      have hret : (info.writeBuff init q.src q.flash q.addr q.cnt).ret = ERR_NOT_ERASED := by
        rcases hresult with ⟨hret, _⟩ | ⟨_, ⟨es, hchain, hes⟩, _⟩
        · exact hret
        · have hstart : q.addr - q.addr % info.width ≤ a := by
            by_contra hbefore
            have := add_le_of_dvd ha.1.1 (Nat.dvd_sub_mod q.addr) (Nat.lt_of_not_le hbefore)
            have := ha.1.2.2
            omega
          have hstop : q.addr + q.cnt ≤ q.stop info.width := le_alignUp info.portwidth.bytes_pos
          obtain ⟨e, he, hcell⟩ := hchain.mem_cells_iff.mpr ⟨hstart, ha.1.2.1.trans_le hstop⟩
          obtain ⟨hpiece, a', ha', hcell', hgood⟩ := hes e he
          have hdest := hpiece.destWord a' ha' hcell'
          exact absurd hgood (hall a' hdest ((hpiece.samePiece a a' ha.1.1 hcell hdest).mpr hcell')).2
      rw [hret]
      exact ⟨fun hzero => absurd hzero (by decide), fun _ => rfl⟩
    · refine ⟨fun hzero => ?_, fun h => absurd h hbad⟩
      have hgood : ∀ a, q.DestWord info.width a → Good info.width q.flash q.target a := fun a hdest =>
        not_not.mp fun h => hbad ⟨a, hdest, h⟩
      rcases hresult with ⟨_, e, hpiece, hrejected⟩ | ⟨_, _, hflash⟩
      · exact absurd (accepts_of_good hpiece hgood) hrejected
      · intro i hi
        have hdiv := Nat.div_add_mod (q.addr + i) info.width
        have hlt : (q.addr + i) % info.width < info.width := Nat.mod_lt _ info.portwidth.bytes_pos
        have hword := hgood (info.width * ((q.addr + i) / info.width)) ⟨Nat.dvd_mul_right _ _, by omega, by omega⟩
          ((q.addr + i) % info.width) hlt
        rw [(accepted_flash _ hflash).1 i hi]
        rwa [hdiv, q.target_inside hi] at hword

end FlashInfo

end Uboot.Drivers.CfiFlash
