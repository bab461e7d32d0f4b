/-
  Uboot.Drivers.PciEnumerate

  What PCI enumeration is for: every base address register decodes a range of its own in
  the region of the host, a bridge passes on exactly what lies behind it, and the bus
  numbers behind a bridge are a range inside that of the bridge above.

  The ranges a tree of functions asks for, in the order of the scan, are a list of
  requests; laid out with unbounded pointers they say where the wrap of 32 bits
  would come in, and while it does not the source computes that layout.
-/

import Uboot.Drivers.PciAuto
import Mathlib.Tactic.Set

namespace Uboot.Drivers.PciAuto

open Uboot.Lib

-- ============================================================================
-- What is decoded
-- ============================================================================

/-- The number of addresses a register decodes: its address bits, negated. -/
def decodedSize (response : Nat) : Nat :=
  4294967296 - (response &&& if isIo response then 0xfffffffc else 0xfffffff0)

def BarRange.size (b : BarRange) : Nat := decodedSize b.response

/-- The register decodes address `x`. -/
def BarRange.Holds (b : BarRange) (x : Nat) : Prop := ∃ a ∈ b.value, a ≤ x ∧ x < a + b.size

/-- The answer of a register for `2 ^ k` addresses with 32 address bits: memory, prefetchable
    memory or I/O. -/
def Bar32 (response : Nat) : Prop :=
  ∃ k ≤ 31, (4 ≤ k ∧ (response = 4294967296 - 2 ^ k ∨ response = 4294967296 - 2 ^ k + 8)) ∨
    (2 ≤ k ∧ response = 4294967296 - 2 ^ k + 1)

/-- Lower end of a window, as the bridge decodes its registers. -/
def windowLow (s : Space) (regs : Nat × Nat) : Nat :=
  if s = .io then (regs.2 <<< 16) + ((regs.1 &&& 0xf0) <<< 8) else (regs.1 &&& 0xfff0) <<< 16

/-- Last address of a window. -/
def windowHigh (s : Space) (regs : Nat × Nat) : Nat :=
  if s = .io then (regs.2 <<< 16) + ((regs.1 &&& 0xf0) <<< 8) + 0xfff
  else ((regs.1 &&& 0xfff0) <<< 16) + 0xfffff

/-- The bridge's window of a space, where it is programmed, passes address `x` on. -/
def BridgeRegs.Passes (regs : BridgeRegs) (s : Space) (x : Nat) : Prop :=
  ∃ base ∈ regs.base s, ∃ limit ∈ regs.limit s, windowLow s base ≤ x ∧ x ≤ windowHigh s limit

/-- All of the range lies inside the bridge's window of its space. -/
def BarRange.Inside (b : BarRange) (regs : BridgeRegs) : Prop :=
  ∀ x, b.Holds x → regs.Passes b.space x

/-- Nothing of the range lies inside a window of the bridge. -/
def BarRange.Outside (b : BarRange) (regs : BridgeRegs) : Prop :=
  ∀ s, b.space.Shares s → ∀ x, b.Holds x → ¬regs.Passes s x

/-- No address is decoded by both. -/
def BarRange.Apart (b b' : BarRange) : Prop :=
  b.space.Shares b'.space → ∀ x, b.Holds x → ¬b'.Holds x

-- ============================================================================
-- What the scan is to establish
-- ============================================================================

mutual

/-- The ranges of a function and of everything behind it. -/
def Placed.bars : Placed → List BarRange
  | .device bars _ => bars
  | .bridge bars _ bus => bars ++ busBars bus

def busBars : List Placed → List BarRange
  | [] => []
  | p :: ps => p.bars ++ busBars ps

end

mutual

/-- Every bridge passes on what is behind it and nothing else: not its own ranges, and none of
    the `others` of the tree. -/
def Placed.Separated (others : List BarRange) : Placed → Prop
  | .device _ _ => True
  | .bridge bars regs bus =>
    (∀ b ∈ busBars bus, b.Inside regs) ∧ (∀ b ∈ bars ++ others, b.Outside regs) ∧
      busSeparated (bars ++ others) bus

def busSeparated (others : List BarRange) : List Placed → Prop
  | [] => True
  | p :: ps => p.Separated (busBars ps ++ others) ∧ busSeparated (p.bars ++ others) ps

end

/-- The bus numbers used up behind a function, when `low` was used up before. -/
def Placed.last (low : Nat) : Placed → Nat
  | .device _ _ => low
  | .bridge _ regs _ => regs.subordinate

mutual

/-- The bus numbers behind a bridge are a range above `low` up to `high`, the ranges of the
    bridges behind it lie inside that range, and those on one bus follow each other. -/
def Placed.Nested (low high : Nat) : Placed → Prop
  | .device _ _ => True
  | .bridge _ regs bus =>
    low < regs.secondary ∧ regs.secondary ≤ regs.subordinate ∧ regs.subordinate ≤ high ∧
      busNested regs.secondary regs.subordinate bus

def busNested (low high : Nat) : List Placed → Prop
  | [] => True
  | p :: ps => p.Nested low high ∧ busNested (p.last low) high ps

end

/-- What a scan leaves, if no allocation failed. -/
structure Enumerated (region : Space → Option PciRegion) (bus : List Placed) (low high : Nat) :
    Prop where
  aligned : ∀ b ∈ busBars bus, ∀ a ∈ b.value, b.size ∣ a
  apart : (busBars bus).Pairwise BarRange.Apart
  inside : ∀ b ∈ busBars bus, ∃ res ∈ region b.space,
    ∀ x, b.Holds x → res.busStart ≤ x ∧ x < res.busEnd
  separated : busSeparated [] bus
  nested : busNested low high bus

-- ============================================================================
-- Requests
-- ============================================================================

/-- What a scan asks of the regions: a range, the start and the end of a bridge's windows, and
    the bus number of a CardBus bridge, which has no windows. -/
inductive Request where
  | bar (space : Space) (size : Nat)
  | opens
  | closes
  | cardbus
  deriving DecidableEq, Repr

def barRequests (prefetch : Bool) (bars : List Nat) : List Request :=
  (bars.filter (· != 0)).map fun response => .bar (barSpace prefetch response) (decodedSize response)

mutual

def Func.requests (prefetch : Bool) : Func → List Request
  | .device _ cls bars => match cls with
    | .storageIde prgIface =>
      if prgIface &&& 0x05 = 0 then [] else barRequests prefetch (bars.take 6)
    | .bridgeCardbus => [.cardbus]
    | .other => barRequests prefetch (bars.take 6)
  | .bridge _ bars behind =>
    barRequests prefetch (bars.take 2) ++ .opens :: (busRequests prefetch false false behind ++ [.closes])

/-- The requests of the functions on a bus that the scan does not pass over. -/
def busRequests (prefetch firstBus foundMulti : Bool) : List Func → List Request
  | [] => []
  | f :: fs =>
    if passesOver firstBus foundMulti f.header.devfn then
      busRequests prefetch firstBus foundMulti fs
    else
      f.requests prefetch ++ busRequests prefetch firstBus
        (if f.header.devfn % 8 = 0 then f.header.multi else foundMulti) fs

end

mutual

/-- The answers of all base address registers. -/
def Func.responses : Func → List Nat
  | .device _ _ bars => bars
  | .bridge _ bars behind => bars ++ busResponses behind

def busResponses : List Func → List Nat
  | [] => []
  | f :: fs => f.responses ++ busResponses fs

end

/-- Whether a request takes a bus number. -/
def Request.takesBus : Request → Bool
  | .opens => true
  | .cardbus => true
  | _ => false

-- ============================================================================
-- The layout
-- ============================================================================

/-- For each space the address from which on nothing has been given away, without a bound. -/
abbrev Layout := Space → Nat

/-- Every pointer rounded up to the granularity of the windows. -/
def Layout.round (L : Layout) : Layout := fun s => alignUp (L s) (2 ^ s.shift)

def Layout.next (L : Layout) : Request → Layout
  | .bar s n => Function.update L s (alignUp (L s) n + n)
  | .opens => L.round
  | .closes => L.round
  | .cardbus => L

def Layout.run (L : Layout) (rs : List Request) : Layout := rs.foldl Layout.next L

/-- Rounded up at the end of a window, a memory pointer does not run into the other region. -/
def Layout.Clear (region : Space → Option PciRegion) (L : Layout) : Prop :=
  ∀ s s', s ≠ s' → s.Shares s' → ∀ res ∈ region s, ∀ res' ∈ region s',
    L.round s ≤ res'.busStart ∨ res'.busEnd ≤ res.busStart

/-- The 32 bits are wide enough for these requests: a range that passes the source's test fits
    (and an I/O range has at most 64 KiB, the source reading no more off its register), a window
    starts below 4 GiB, and ends before it reaches the other memory region. -/
def Sound (region : Space → Option PciRegion) : List Request → Layout → Prop
  | [], _ => True
  | .bar s n :: rest, L =>
    (s = .io → n ≤ 0x10000) ∧
      ∀ res ∈ region s, u32 (alignUp (L s) n + n - res.busStart) ≤ res.size →
        alignUp (L s) n + n ≤ res.busEnd ∧ Sound region rest (L.next (.bar s n))
  | .opens :: rest, L => (∀ s, L.round s < 4294967296) ∧ Sound region rest L.round
  | .closes :: rest, L => L.Clear region ∧ Sound region rest L.round
  | .cardbus :: rest, L => Sound region rest L

/-- Where the pointers stand before the scan. -/
def startLayout (region : Space → Option PciRegion) : Layout := fun s =>
  match region s with
  | some res => res.busLower
  | none => 0x1000

section Layout

variable {L : Layout} {r : Request} {rs rs' : List Request}

@[simp] theorem run_nil : L.run [] = L := rfl

@[simp] theorem run_cons : L.run (r :: rs) = (L.next r).run rs := rfl

@[simp] theorem run_append : L.run (rs ++ rs') = (L.run rs).run rs' := List.foldl_append

theorem le_round (L : Layout) (s : Space) : L s ≤ L.round s := le_alignUp (Nat.two_pow_pos _)

end Layout

-- ============================================================================
-- Registers
-- ============================================================================

section Registers

variable {s : Space} {x k n response : Nat}

theorem shift_le (s : Space) : s.shift ≤ 20 := by cases s <;> decide

/-- The end of the address space is a multiple of every range. -/
theorem two_pow_dvd_top (hk : k ≤ 32) : 2 ^ k ∣ 4294967296 := Nat.pow_dvd_pow 2 hk

theorem alignUp_le_top (hk : k ≤ 32) (hx : x ≤ 4294967296) : alignUp x (2 ^ k) ≤ 4294967296 :=
  alignUp_le hx (two_pow_dvd_top hk)

/-- Subtracting in 32 bits, up to the end of the address space. -/
theorem usub_u32 {a b : Nat} (hab : b ≤ a) (ha : a ≤ 4294967296) : usub (u32 a) b = u32 (a - b) := by
  rcases Nat.lt_or_eq_of_le ha with hlt | rfl
  · rw [u32_of_lt hlt, usub_of_le hab hlt, u32_of_lt (by omega)]
  · rfl

theorem roundUp_u32 (hpos : 0 < x) (hx : x ≤ 4294967296) (hk : k ≤ 31) :
    roundUp (u32 x) (2 ^ k) = u32 (alignUp x (2 ^ k)) := by
  have hpow : 2 ^ k ≤ 2 ^ 31 := Nat.pow_le_pow_right (by decide) hk
  have hone := Nat.two_pow_pos k
  have hlow : usub (u32 x) 1 = x - 1 := by
    rw [usub_u32 hpos hx, u32_of_lt (by omega)]
  have hmask : usub (2 ^ k) 1 = 2 ^ k - 1 := usub_of_le hone (by omega)
  rw [roundUp, hlow, hmask, pred_or_low_succ hpos]

/-- The fields of the registers, as quotients. -/
theorem and_f000 (x : Nat) : x &&& 0x0000f000 = x / 4096 % 16 * 4096 := @and_field x 4 12

theorem and_ffff0000 (x : Nat) : x &&& 0xffff0000 = x / 65536 % 65536 * 65536 := @and_field x 16 16

theorem and_fff00000 (x : Nat) : x &&& 0xfff00000 = x / 1048576 % 4096 * 1048576 :=
  @and_field x 12 20

theorem and_f0 (x : Nat) : x &&& 0xf0 = x / 16 % 16 * 16 := @and_field x 4 4

theorem and_fff0 (x : Nat) : x &&& 0xfff0 = x / 16 % 4096 * 16 := @and_field x 12 4

theorem windowLow_baseRegs (hx : x < 4294967296) (hs : 2 ^ s.shift ∣ x) :
    windowLow s (baseRegs s x) = x := by
  cases s with
  | io =>
    change 4096 ∣ x at hs
    simp only [windowLow, baseRegs, if_true, and_f000, and_ffff0000, and_f0,
      Nat.shiftRight_eq_div_pow, Nat.shiftLeft_eq]
    omega
  | mem | pref =>
    change 1048576 ∣ x at hs
    simp only [windowLow, baseRegs, reduceCtorEq, if_false, and_fff00000, and_fff0,
      Nat.shiftRight_eq_div_pow, Nat.shiftLeft_eq]
    omega

theorem windowHigh_limitRegs (hpos : 0 < x) (hx : x ≤ 4294967296) (hs : 2 ^ s.shift ∣ x) :
    windowHigh s (limitRegs s (u32 x)) = x - 1 := by
  have hlow : usub (u32 x) 1 = x - 1 := by
    rw [usub_u32 hpos hx, u32_of_lt (by omega)]
  cases s with
  | io =>
    change 4096 ∣ x at hs
    simp only [windowHigh, limitRegs, if_true, hlow, and_f000, and_ffff0000, and_f0,
      Nat.shiftRight_eq_div_pow, Nat.shiftLeft_eq]
    omega
  | mem | pref =>
    change 1048576 ∣ x at hs
    simp only [windowHigh, limitRegs, reduceCtorEq, if_false, hlow, and_fff0,
      Nat.shiftRight_eq_div_pow, Nat.shiftLeft_eq]
    omega

/-- What a register answers as memory, and what the source reads off it. -/
theorem memory_answer (h₁ : 4 ≤ k) (h₂ : k ≤ 31)
    (h : response = 4294967296 - 2 ^ k ∨ response = 4294967296 - 2 ^ k + 8) :
    isIo response = false ∧ isMem64 response = false ∧ decodedSize response = 2 ^ k ∧
      barSize response = 2 ^ k := by
  obtain ⟨j, rfl⟩ : ∃ j, k = j + 4 := ⟨k - 4, by omega⟩
  have hle : 2 ^ j ≤ 2 ^ 27 := Nat.pow_le_pow_right (by decide) (by omega)
  have hpos := Nat.two_pow_pos j
  have hpow : 2 ^ (j + 4) = 16 * 2 ^ j := by
    rw [Nat.pow_add, Nat.mul_comm]
  have hio : isIo response = false := by
    rw [isIo, Nat.and_one_is_mod, bne_eq_false_iff_eq]
    omega
  have hkind : response &&& 0x6 ≠ 0x4 := by
    have hfield : response &&& 0x6 = response / 2 % 4 * 2 := @and_field response 2 1
    omega
  have hmask : response &&& 0xfffffff0 = response / 16 % 268435456 * 16 :=
    @and_field response 28 4
  have hvalue : response &&& 0xfffffff0 = 4294967296 - 2 ^ (j + 4) := by omega
  refine ⟨hio, ?_, ?_, ?_⟩
  · rw [isMem64, hio]
    exact beq_false_of_ne hkind
  · rw [decodedSize, hio, if_neg Bool.false_ne_true, hvalue]
    omega
  · rw [barSize, hio, if_neg Bool.false_ne_true, hvalue, u32]
    omega

/-- What a register answers as I/O; the source reads the size off 16 bits. -/
theorem io_answer (h₁ : 2 ≤ k) (h₂ : k ≤ 31) (h : response = 4294967296 - 2 ^ k + 1) :
    isIo response = true ∧ isMem64 response = false ∧ decodedSize response = 2 ^ k ∧
      (2 ^ k ≤ 0x10000 → barSize response = 2 ^ k) := by
  obtain ⟨j, rfl⟩ : ∃ j, k = j + 2 := ⟨k - 2, by omega⟩
  have hle : 2 ^ j ≤ 2 ^ 29 := Nat.pow_le_pow_right (by decide) (by omega)
  have hpos := Nat.two_pow_pos j
  have hpow : 2 ^ (j + 2) = 4 * 2 ^ j := by
    rw [Nat.pow_add, Nat.mul_comm]
  have hio : isIo response = true := by
    rw [isIo, Nat.and_one_is_mod, bne_iff_ne]
    omega
  have hmask : response &&& 0xfffffffc = response / 4 % 1073741824 * 4 := @and_field response 30 2
  have hvalue : response &&& 0xfffffffc = 4294967296 - 2 ^ (j + 2) := by omega
  refine ⟨hio, ?_, ?_, ?_⟩
  · rw [isMem64, hio]
    rfl
  · rw [decodedSize, hio, if_pos rfl, hvalue]
    omega
  · intro hsmall
    have hlow : (0xffffffff - (response &&& 0xfffffffc)) &&& 0xffff = 2 ^ (j + 2) - 1 := by
      rw [show (0xffff : Nat) = 2 ^ 16 - 1 from rfl, Nat.and_two_pow_sub_one_eq_mod, hvalue]
      omega
    rw [barSize, hio, if_pos rfl, hlow]
    omega

/-- A register of 32 bits in a space of its kind: the source reads off the right size, an I/O
    range above 64 KiB apart. -/
theorem Bar32.answer (h : Bar32 response) (prefetch : Bool)
    (hio : barSpace prefetch response = .io → decodedSize response ≤ 0x10000) :
    ∃ k ≤ 31, decodedSize response = 2 ^ k ∧ barSize response = 2 ^ k ∧
      isMem64 response = false := by
  obtain ⟨k, hk, ⟨hlow, hmem⟩ | ⟨hlow, hans⟩⟩ := h
  · obtain ⟨-, h64, hdec, hsize⟩ := memory_answer hlow hk hmem
    exact ⟨k, hk, hdec, hsize, h64⟩
  · obtain ⟨hkind, h64, hdec, hsize⟩ := io_answer hlow hk hans
    have hspace : barSpace prefetch response = .io := by rw [barSpace, hkind, if_pos rfl]
    have hsmall := hio hspace
    rw [hdec] at hsmall
    exact ⟨k, hk, hdec, hsize hsmall, h64⟩

end Registers

-- ============================================================================
-- One range
-- ============================================================================

/-- The hose allocates from `region` as `L` says, in 32 bits. -/
structure At (region : Space → Option PciRegion) (hose : Hose) (L : Layout) : Prop where
  chosen : ∀ s, hose.region s = (region s).map fun res => { res with busLower := u32 (L s) }
  pos : ∀ s, 0 < L s
  top : ∀ s, L s ≤ 4294967296
  start : ∀ s, ∀ res ∈ region s, res.busStart ≤ L s

/-- The two memory regions have no address in common. -/
def RegionsApart (region : Space → Option PciRegion) : Prop :=
  ∀ s s', s ≠ s' → s.Shares s' → ∀ res ∈ region s, ∀ res' ∈ region s',
    res.busEnd ≤ res'.busStart ∨ res'.busEnd ≤ res.busStart

/-- Regions of 32-bit addresses that do not wrap. -/
def RegionsLow (region : Space → Option PciRegion) : Prop :=
  ∀ s, ∀ res ∈ region s, res.busStart < 4294967296 ∧ res.busEnd ≤ 4294967296

/-- `b` was given a range of its region, aligned to its size, between the pointers. -/
def BarRange.Given (region : Space → Option PciRegion) (L L' : Layout) (b : BarRange) : Prop :=
  ∃ res ∈ region b.space, ∃ a ∈ b.value, b.size ∣ a ∧ res.busStart ≤ a ∧ a + b.size ≤ res.busEnd ∧
    L b.space ≤ a ∧ a + b.size ≤ L' b.space

/-- `b` has a range of its region that is not between the pointers. -/
def BarRange.Elsewhere (region : Space → Option PciRegion) (L L' : Layout) (b : BarRange) : Prop :=
  ∃ res ∈ region b.space, ∃ a ∈ b.value, res.busStart ≤ a ∧ a + b.size ≤ res.busEnd ∧
    (a + b.size ≤ L b.space ∨ L' b.space ≤ a)

/-- The ranges `bars` were given while the pointers went from `L` to `L'`. -/
structure Gives (region : Space → Option PciRegion) (L L' : Layout) (bars : List BarRange) :
    Prop where
  mono : ∀ s, L s ≤ L' s
  given : ∀ b ∈ bars, b.Given region L L'
  apart : bars.Pairwise BarRange.Apart

section Gives

variable {region : Space → Option PciRegion} {L L₁ L₂ L' : Layout} {b b' : BarRange}
  {bars bars' : List BarRange}

theorem BarRange.Given.mono (h : b.Given region L₁ L₂) (hlow : ∀ s, L s ≤ L₁ s)
    (hhigh : ∀ s, L₂ s ≤ L' s) : b.Given region L L' := by
  obtain ⟨res, hres, a, ha, hdvd, hstart, hend, hl, hh⟩ := h
  exact ⟨res, hres, a, ha, hdvd, hstart, hend, Nat.le_trans (hlow _) hl, Nat.le_trans hh (hhigh _)⟩

theorem BarRange.Elsewhere.mono (h : b.Elsewhere region L L') (hlow : ∀ s, L s ≤ L₁ s)
    (hhigh : ∀ s, L₂ s ≤ L' s) : b.Elsewhere region L₁ L₂ := by
  obtain ⟨res, hres, a, ha, hstart, hend, hside⟩ := h
  refine ⟨res, hres, a, ha, hstart, hend, ?_⟩
  rcases hside with hside | hside
  · exact Or.inl (Nat.le_trans hside (hlow _))
  · exact Or.inr (Nat.le_trans (hhigh _) hside)

/-- What was given before is elsewhere. -/
theorem BarRange.Given.before (h : b.Given region L L₁) : b.Elsewhere region L₁ L₂ := by
  obtain ⟨res, hres, a, ha, -, hstart, hend, -, hh⟩ := h
  exact ⟨res, hres, a, ha, hstart, hend, Or.inl hh⟩

/-- What is given afterwards is elsewhere. -/
theorem BarRange.Given.after (h : b.Given region L₁ L₂) : b.Elsewhere region L L₁ := by
  obtain ⟨res, hres, a, ha, -, hstart, hend, hl, -⟩ := h
  exact ⟨res, hres, a, ha, hstart, hend, Or.inr hl⟩

theorem BarRange.Given.holds (h : b.Given region L L') {x : Nat} (hx : b.Holds x) :
    ∃ res ∈ region b.space, res.busStart ≤ x ∧ x < res.busEnd ∧ L b.space ≤ x ∧
      x < L' b.space := by
  obtain ⟨res, hres, a, ha, -, hstart, hend, hl, hh⟩ := h
  obtain ⟨a', ha', hle, hlt⟩ := hx
  obtain rfl : a = a' := Option.mem_unique ha ha'
  exact ⟨res, hres, by omega, by omega, by omega, by omega⟩

theorem BarRange.Elsewhere.holds (h : b.Elsewhere region L L') {x : Nat} (hx : b.Holds x) :
    ∃ res ∈ region b.space, res.busStart ≤ x ∧ x < res.busEnd ∧
      (x < L b.space ∨ L' b.space ≤ x) := by
  obtain ⟨res, hres, a, ha, hstart, hend, hside⟩ := h
  obtain ⟨a', ha', hle, hlt⟩ := hx
  obtain rfl : a = a' := Option.mem_unique ha ha'
  exact ⟨res, hres, by omega, by omega, by omega⟩

theorem BarRange.Given.apart (hregions : RegionsApart region) (h : b.Given region L L₁)
    (h' : b'.Given region L₁ L₂) : b.Apart b' := by
  intro hshares x hx hx'
  obtain ⟨res, hres, hstart, hend, -, hbefore⟩ := h.holds hx
  obtain ⟨res', hres', hstart', hend', hafter, -⟩ := h'.holds hx'
  by_cases hspace : b.space = b'.space
  · rw [hspace] at hbefore
    omega
  · rcases hregions _ _ hspace hshares res hres res' hres' with hsplit | hsplit <;> omega

theorem Gives.nil : Gives region L L [] :=
  ⟨fun _ => Nat.le_refl _, fun _ hb => absurd hb List.not_mem_nil, List.Pairwise.nil⟩

theorem Gives.append (hregions : RegionsApart region) (h : Gives region L L₁ bars)
    (h' : Gives region L₁ L₂ bars') : Gives region L L₂ (bars ++ bars') := by
  refine ⟨fun s => Nat.le_trans (h.mono s) (h'.mono s), ?_, ?_⟩
  · intro b hb
    rcases List.mem_append.mp hb with hb | hb
    · exact (h.given b hb).mono (fun _ => Nat.le_refl _) h'.mono
    · exact (h'.given b hb).mono h.mono (fun _ => Nat.le_refl _)
  · rw [List.pairwise_append]
    exact ⟨h.apart, h'.apart, fun b hb b' hb' => (h.given b hb).apart hregions (h'.given b' hb')⟩

/-- Rounding the pointers up before or after gives nothing away. -/
theorem Gives.widen (h : Gives region L₁ L₂ bars) (hlow : ∀ s, L s ≤ L₁ s)
    (hhigh : ∀ s, L₂ s ≤ L' s) : Gives region L L' bars :=
  ⟨fun s => Nat.le_trans (hlow s) (Nat.le_trans (h.mono s) (hhigh s)),
    fun b hb => (h.given b hb).mono hlow hhigh, h.apart⟩

end Gives

/-- What the allocator does, with the pointer as a number up to the end of the address space. -/
theorem allocate_eq {res : PciRegion} {x k : Nat} (hpos : 0 < x) (htop : x ≤ 4294967296) (hstart : res.busStart ≤ x)
    (hk : k ≤ 31) :
    pciautoRegionAllocate (some { res with busLower := u32 x }) (2 ^ k) =
      if u32 (alignUp x (2 ^ k) + 2 ^ k - res.busStart) ≤ res.size then
        some (u32 (alignUp x (2 ^ k)), { res with busLower := u32 (alignUp x (2 ^ k) + 2 ^ k) })
      else none := by
  have hround := roundUp_u32 hpos htop hk
  have hpow := Nat.two_pow_pos k
  have hup : x ≤ alignUp x (2 ^ k) := le_alignUp hpow
  have hend : alignUp x (2 ^ k) ≤ 4294967296 := alignUp_le_top (by omega) htop
  have hsum : u32 (usub (u32 (alignUp x (2 ^ k))) res.busStart + 2 ^ k) =
      u32 (alignUp x (2 ^ k) + 2 ^ k - res.busStart) := by
    rw [usub_u32 (Nat.le_trans hstart hup) hend]
    simp only [u32]
    omega
  have hnext : u32 (u32 (alignUp x (2 ^ k)) + 2 ^ k) = u32 (alignUp x (2 ^ k) + 2 ^ k) := by
    simp only [u32]
    omega
  rw [pciautoRegionAllocate]
  simp only [hround, hsum, hnext]
  by_cases hfit : u32 (alignUp x (2 ^ k) + 2 ^ k - res.busStart) ≤ res.size
  · rw [if_neg (by omega), if_pos hfit]
  · rw [if_pos (by omega), if_neg hfit]

section Allocate

variable {region : Space → Option PciRegion} {hose : Hose} {L : Layout} {s : Space}
  {res : PciRegion} {k : Nat}

theorem At.allocate (h : At region hose L) (hres : res ∈ region s) (hk : k ≤ 31) :
    pciautoRegionAllocate (hose.region s) (2 ^ k) =
      if u32 (alignUp (L s) (2 ^ k) + 2 ^ k - res.busStart) ≤ res.size then
        some (u32 (alignUp (L s) (2 ^ k)),
          { res with busLower := u32 (alignUp (L s) (2 ^ k) + 2 ^ k) })
      else none := by
  have hregion : hose.region s = some { res with busLower := u32 (L s) } := by
    rw [h.chosen, hres]
    rfl
  rw [hregion]
  exact allocate_eq (h.pos s) (h.top s) (h.start s res hres) hk

/-- The pointer behind a range that fits. -/
theorem At.setRegion (h : At region hose L) (hres : res ∈ region s) {n : Nat}
    (htop : alignUp (L s) n + n ≤ 4294967296) (hn : 0 < n) :
    At region (hose.setRegion s { res with busLower := u32 (alignUp (L s) n + n) })
      (L.next (.bar s n)) := by
  have hup : L s ≤ alignUp (L s) n := le_alignUp hn
  have hpos := h.pos s
  constructor
  · intro s'
    by_cases hs : s' = s
    · subst hs
      rw [hres]
      simp [Hose.setRegion, Layout.next]
    · simp only [Hose.setRegion, Layout.next, Function.update_of_ne hs]
      exact h.chosen s'
  · intro s'
    by_cases hs : s' = s
    · subst hs
      rw [Layout.next, Function.update_self]
      omega
    · rw [Layout.next, Function.update_of_ne hs]
      exact h.pos s'
  · intro s'
    by_cases hs : s' = s
    · subst hs
      rw [Layout.next, Function.update_self]
      exact htop
    · rw [Layout.next, Function.update_of_ne hs]
      exact h.top s'
  · intro s' res' hres'
    have hstart := h.start s' res' hres'
    by_cases hs : s' = s
    · subst hs
      rw [Layout.next, Function.update_self]
      omega
    · rw [Layout.next, Function.update_of_ne hs]
      exact hstart

/-- One range that fits. -/
theorem Gives.one (h : At region hose L) (hres : res ∈ region s) {response : Nat}
    (hdec : decodedSize response = 2 ^ k) (hend : alignUp (L s) (2 ^ k) + 2 ^ k ≤ res.busEnd) :
    Gives region L (L.next (.bar s (2 ^ k)))
      [⟨s, response, some (alignUp (L s) (2 ^ k))⟩] := by
  have hup : L s ≤ alignUp (L s) (2 ^ k) := le_alignUp (Nat.two_pow_pos k)
  refine ⟨?_, ?_, List.pairwise_singleton _ _⟩
  · intro s'
    by_cases hs : s' = s
    · subst hs
      rw [Layout.next, Function.update_self]
      omega
    · rw [Layout.next, Function.update_of_ne hs]
  · intro b hb
    obtain rfl := List.mem_singleton.mp hb
    have hstart := h.start _ res hres
    refine ⟨res, hres, _, rfl, ?_, Nat.le_trans hstart hup, ?_, hup, ?_⟩
    · rw [BarRange.size, hdec]
      exact dvd_alignUp
    · rw [BarRange.size, hdec]
      exact hend
    · rw [BarRange.size, hdec, Layout.next, Function.update_self]

theorem At.prefetch (h : At region hose L) :
    (hose.region .pref).isSome = (region .pref).isSome := by
  rw [h.chosen, Option.isSome_map]

end Allocate

-- ============================================================================
-- The registers of a function
-- ============================================================================

section Setup

variable {region : Space → Option PciRegion} {hose : Hose} {L : Layout} {rest : List Request}
  {response : Nat} {bars : List Nat}

theorem setupBars_zero : setupBars (0 :: bars) false hose = setupBars bars false hose := rfl

theorem setupBars_failed (hr : response ≠ 0)
    (halloc : pciautoRegionAllocate (hose.region (barSpace (hose.region .pref).isSome response))
      (barSize response) = none) :
    ⟨barSpace (hose.region .pref).isSome response, response, none⟩ ∈
      (setupBars (response :: bars) false hose).1 := by
  rw [setupBars, Bool.false_or, beq_false_of_ne hr, if_neg Bool.false_ne_true]
  simp only [halloc]
  exact List.mem_cons_self

theorem setupBars_given (hr : response ≠ 0) {addr : Nat} {res : PciRegion}
    (halloc : pciautoRegionAllocate (hose.region (barSpace (hose.region .pref).isSome response))
      (barSize response) = some (addr, res)) (h64 : isMem64 response = false) :
    setupBars (response :: bars) false hose =
      let s := barSpace (hose.region .pref).isSome response
      let tail := setupBars bars false (hose.setRegion s res)
      (⟨s, response, some addr⟩ :: tail.1, tail.2) := by
  rw [setupBars, Bool.false_or, beq_false_of_ne hr, if_neg Bool.false_ne_true]
  simp only [halloc, h64]

theorem barRequests_zero (prefetch : Bool) :
    barRequests prefetch (0 :: bars) = barRequests prefetch bars := rfl

theorem barRequests_cons (hr : response ≠ 0) (prefetch : Bool) :
    barRequests prefetch (response :: bars) =
      .bar (barSpace prefetch response) (decodedSize response) :: barRequests prefetch bars := by
  have hkept : (response != 0) = true := bne_iff_ne.mpr hr
  rw [barRequests, List.filter_cons, if_pos hkept]
  rfl

/-- The loop over the registers follows the layout, one range after the other. -/
theorem setupBars_spec (hlow : RegionsLow region) (hregions : RegionsApart region)
    (hat : At region hose L) (hbars : ∀ r ∈ bars, r ≠ 0 → Bar32 r)
    (hsound : Sound region (barRequests (region .pref).isSome bars ++ rest) L)
    (hgiven : ∀ b ∈ (setupBars bars false hose).1, b.value.isSome) :
    At region (setupBars bars false hose).2 (L.run (barRequests (region .pref).isSome bars)) ∧
      Gives region L (L.run (barRequests (region .pref).isSome bars))
        (setupBars bars false hose).1 ∧
      Sound region rest (L.run (barRequests (region .pref).isSome bars)) := by
  induction bars generalizing hose L with
  | nil => exact ⟨hat, Gives.nil, hsound⟩
  | cons response bars ih =>
    have hbars' : ∀ r ∈ bars, r ≠ 0 → Bar32 r := fun r hr => hbars r (List.mem_cons_of_mem _ hr)
    by_cases hr : response = 0
    · subst hr
      rw [setupBars_zero] at hgiven ⊢
      rw [barRequests_zero] at hsound ⊢
      exact ih hat hbars' hsound hgiven
    rw [barRequests_cons hr] at hsound ⊢
    have hpref := hat.prefetch
    obtain ⟨hio, hfit⟩ := hsound
    obtain ⟨k, hk, hdec, hsize, h64⟩ :=
      (hbars response List.mem_cons_self hr).answer (region .pref).isSome hio
    rw [hdec] at hfit
    cases hspace : region (barSpace (region .pref).isSome response) with
    | none =>
      -- without a region the allocation fails
      have halloc : pciautoRegionAllocate
          (hose.region (barSpace (hose.region .pref).isSome response)) (barSize response) = none := by
        rw [hpref, hat.chosen, hspace]
        rfl
      exact absurd (hgiven _ (setupBars_failed hr halloc)) Bool.false_ne_true
    | some res =>
      have halloc := hat.allocate hspace hk
      rw [← hsize, ← hpref] at halloc
      by_cases hroom : u32 (alignUp (L (barSpace (region .pref).isSome response)) (2 ^ k) + 2 ^ k
          - res.busStart) ≤ res.size
      · obtain ⟨hend, hrest⟩ := hfit res hspace hroom
        have hpos := Nat.two_pow_pos k
        have htop := Nat.le_trans hend (hlow _ res hspace).2
        have hnext := hat.setRegion hspace htop hpos
        rw [hpref, hsize, if_pos hroom, u32_of_lt (by omega)] at halloc
        have hset : setupBars (response :: bars) false hose = _ :=
          setupBars_given hr (by rw [hpref, hsize]; exact halloc) h64
        rw [hpref] at hset
        simp only [hset] at hgiven ⊢
        obtain ⟨hat', hgives, hsound'⟩ := ih hnext hbars' hrest
          fun b hb => hgiven b (List.mem_cons_of_mem _ hb)
        rw [run_cons, hdec]
        refine ⟨hat', ?_, hsound'⟩
        have hone := Gives.one hat hspace hdec hend
        exact hone.append hregions hgives
      · rw [if_neg (by rw [hpref, hsize]; exact hroom)] at halloc
        exact absurd (hgiven _ (setupBars_failed hr halloc)) Bool.false_ne_true

end Setup

-- ============================================================================
-- The windows of a bridge
-- ============================================================================

section Windows

variable {region : Space → Option PciRegion} {hose hose' : Hose} {L L' : Layout} {s : Space}
  {res : PciRegion} {b : BarRange} {bus command subBus lastBus x : Nat}

theorem round_le_top (h : At region hose L) (s : Space) : L.round s ≤ 4294967296 :=
  alignUp_le_top (Nat.le_trans (shift_le s) (by decide)) (h.top s)

theorem At.congr (h : At region hose L) (heq : hose'.region = hose.region) : At region hose' L :=
  ⟨fun s => by rw [heq, h.chosen], h.pos, h.top, h.start⟩

theorem At.round (h : At region hose L) : At region (alignRegions hose) L.round := by
  refine ⟨?_, fun s => Nat.lt_of_lt_of_le (h.pos s) (le_round L s), round_le_top h,
    fun s res hres => Nat.le_trans (h.start s res hres) (le_round L s)⟩
  intro s
  have hround := roundUp_u32 (h.pos s) (h.top s) (Nat.le_trans (shift_le s) (by decide))
  simp only [alignRegions, h.chosen, Option.map_map]
  congr 1
  funext res
  simp only [Function.comp_apply, pciautoRegionAlign, hround]
  rfl

/-- A bridge whose windows were opened at `L` and closed at `L'`. -/
abbrev bridgeRegs (hose hose' : Hose) (bus command subBus lastBus : Nat) : BridgeRegs :=
  (pciautoPostscanSetupBridge hose' (pciautoPrescanSetupBridge hose bus command subBus).1 lastBus).1

theorem passes_iff (h : At region hose L) (h' : At region hose' L') (hres : res ∈ region s)
    (hopen : L.round s < 4294967296) :
    (bridgeRegs hose hose' bus command subBus lastBus).Passes s x ↔
      L.round s ≤ x ∧ x < L'.round s := by
  have hbase : (bridgeRegs hose hose' bus command subBus lastBus).base s =
      some (baseRegs s (L.round s)) := by
    have hregion := h.round.chosen s
    rw [hres, Option.map_some, u32_of_lt hopen] at hregion
    simp only [bridgeRegs, pciautoPostscanSetupBridge, pciautoPrescanSetupBridge, hregion]
  have hlimit : (bridgeRegs hose hose' bus command subBus lastBus).limit s =
      some (limitRegs s (u32 (L'.round s))) := by
    have hregion := h'.round.chosen s
    rw [hres, Option.map_some] at hregion
    simp only [bridgeRegs, pciautoPostscanSetupBridge, hregion]
  have hpos := h'.round.pos s
  rw [BridgeRegs.Passes, hbase, hlimit]
  simp only [Option.mem_some_iff, exists_eq_left']
  rw [windowLow_baseRegs hopen dvd_alignUp,
    windowHigh_limitRegs hpos (round_le_top h' s) dvd_alignUp]
  omega

/-- Without a region nothing is passed on: the registers are not written, or the window is
    closed. -/
theorem not_passes (h : At region hose L) (h' : At region hose' L') (hres : region s = none) :
    ¬(bridgeRegs hose hose' bus command subBus lastBus).Passes s x := by
  have hregion := h.round.chosen s
  have hregion' := h'.round.chosen s
  rw [hres, Option.map_none] at hregion hregion'
  rintro ⟨base, hbase, limit, hlimit, hlow, hhigh⟩
  cases s with
  | pref =>
    simp only [bridgeRegs, pciautoPostscanSetupBridge, pciautoPrescanSetupBridge, hregion, hregion',
      Option.mem_some_iff] at hbase hlimit
    subst hbase hlimit
    simp [windowLow, windowHigh] at hlow hhigh
    omega
  | mem | io =>
    simp only [bridgeRegs, pciautoPostscanSetupBridge, pciautoPrescanSetupBridge, hregion] at hbase
    exact absurd hbase (Option.not_mem_none _)

/-- What was given while the windows were open lies inside. -/
theorem BarRange.Given.inside (hb : b.Given region L.round L') (h : At region hose L)
    (h' : At region hose' L') (hopen : ∀ s, L.round s < 4294967296) :
    b.Inside (bridgeRegs hose hose' bus command subBus lastBus) := by
  intro x hx
  obtain ⟨res, hres, -, -, hlow, hhigh⟩ := hb.holds hx
  rw [passes_iff h h' hres (hopen _)]
  exact ⟨hlow, Nat.lt_of_lt_of_le hhigh (le_round L' _)⟩

/-- What was given at other times lies outside, also of the other memory window. -/
theorem BarRange.Elsewhere.outside (hb : b.Elsewhere region L.round L'.round)
    (h : At region hose L) (h' : At region hose' L') (hopen : ∀ s, L.round s < 4294967296)
    (hclear : L'.Clear region) :
    b.Outside (bridgeRegs hose hose' bus command subBus lastBus) := by
  intro s hshares x hx hpass
  obtain ⟨res, hres, hstart, hend, hside⟩ := hb.holds hx
  cases hspace : region s with
  | none => exact not_passes h h' hspace hpass
  | some res' =>
    obtain ⟨hlow, hhigh⟩ := (passes_iff h h' hspace (hopen s)).mp hpass
    by_cases hs : s = b.space
    · subst hs
      omega
    · have hbase : res'.busStart ≤ L.round s :=
        Nat.le_trans (h.start s res' hspace) (le_round L s)
      rcases hclear s b.space hs hshares.symm res' hspace res hres with hsplit | hsplit <;> omega

end Windows

-- ============================================================================
-- The scan
-- ============================================================================

section Scan

variable {region : Space → Option PciRegion} {hose : Hose} {L : Layout} {rest : List Request}

theorem setupBars_busno (bars : List Nat) (upper : Bool) (hose : Hose) :
    (setupBars bars upper hose).2.firstBusno = hose.firstBusno ∧
      (setupBars bars upper hose).2.currentBusno = hose.currentBusno := by
  induction bars generalizing upper hose with
  | nil => exact ⟨rfl, rfl⟩
  | cons response bars ih =>
    rw [setupBars]
    split
    · exact ih false hose
    · dsimp only
      split
      · exact ih _ _
      · exact ih false hose

@[simp] theorem setupDevice_firstBusno (hose : Hose) (command : Nat) (bars : List Nat) (n : Nat) :
    (pciautoSetupDevice hose command bars n).2.firstBusno = hose.firstBusno :=
  (setupBars_busno _ _ _).1

@[simp] theorem setupDevice_currentBusno (hose : Hose) (command : Nat) (bars : List Nat) (n : Nat) :
    (pciautoSetupDevice hose command bars n).2.currentBusno = hose.currentBusno :=
  (setupBars_busno _ _ _).2

@[simp] theorem prescan_firstBusno (hose : Hose) (bus command subBus : Nat) :
    (pciautoPrescanSetupBridge hose bus command subBus).2.firstBusno = hose.firstBusno := rfl

@[simp] theorem prescan_currentBusno (hose : Hose) (bus command subBus : Nat) :
    (pciautoPrescanSetupBridge hose bus command subBus).2.currentBusno = hose.currentBusno := rfl

theorem setup_spec (hlow : RegionsLow region) (hregions : RegionsApart region)
    (hat : At region hose L) {bars : List Nat} {barsNum command : Nat}
    (hbars : ∀ r ∈ bars, r ≠ 0 → Bar32 r)
    (hsound : Sound region (barRequests (region .pref).isSome (bars.take barsNum) ++ rest) L)
    (hgiven : ∀ b ∈ (pciautoSetupDevice hose command bars barsNum).1.1, b.value.isSome) :
    At region (pciautoSetupDevice hose command bars barsNum).2
        (L.run (barRequests (region .pref).isSome (bars.take barsNum))) ∧
      Gives region L (L.run (barRequests (region .pref).isSome (bars.take barsNum)))
        (pciautoSetupDevice hose command bars barsNum).1.1 ∧
      Sound region rest (L.run (barRequests (region .pref).isSome (bars.take barsNum))) :=
  setupBars_spec hlow hregions hat (fun r hr => hbars r (List.mem_of_mem_take hr)) hsound hgiven

mutual

theorem configDevice_busno (bus : Nat) (f : Func) (hose : Hose) :
    (pciautoConfigDevice bus f hose).2.1.firstBusno = hose.firstBusno ∧
      hose.currentBusno ≤ (pciautoConfigDevice bus f hose).2.1.currentBusno := by
  cases f with
  | device header cls bars =>
    cases cls with
    | storageIde prgIface =>
      rw [pciautoConfigDevice]
      split
      · exact ⟨rfl, Nat.le_refl _⟩
      · simp only [setupDevice_firstBusno, setupDevice_currentBusno]
        exact ⟨trivial, Nat.le_refl _⟩
    | bridgeCardbus =>
      rw [pciautoConfigDevice]
      simp only [setupDevice_firstBusno, setupDevice_currentBusno]
      exact ⟨trivial, Nat.le_succ _⟩
    | other =>
      rw [pciautoConfigDevice]
      simp only [setupDevice_firstBusno, setupDevice_currentBusno]
      exact ⟨trivial, Nat.le_refl _⟩
  | bridge header bars behind =>
    rw [pciautoConfigDevice]
    set given := pciautoSetupDevice { hose with currentBusno := hose.currentBusno + 1 }
      header.command bars 2 with hgiven
    have hscan := scanBus_busno (hose.currentBusno + 1) behind false (hose.currentBusno + 1)
      (pciautoPrescanSetupBridge given.2 (bus % 256) given.1.2 (hose.currentBusno + 1)).2
    rw [prescan_firstBusno, prescan_currentBusno, hgiven, setupDevice_firstBusno,
      setupDevice_currentBusno] at hscan
    exact ⟨hscan.1, Nat.le_trans (Nat.le_succ _) hscan.2⟩

theorem scanBus_busno (bus : Nat) (fs : List Func) (foundMulti : Bool) (subBus : Nat)
    (hose : Hose) :
    (pciHoseScanBus bus fs foundMulti subBus hose).2.1.firstBusno = hose.firstBusno ∧
      hose.currentBusno ≤ (pciHoseScanBus bus fs foundMulti subBus hose).2.1.currentBusno := by
  cases fs with
  | nil => exact ⟨rfl, Nat.le_refl _⟩
  | cons f fs =>
    rw [pciHoseScanBus]
    split
    · exact scanBus_busno bus fs foundMulti subBus hose
    · have hf := configDevice_busno bus f hose
      have hfs := scanBus_busno bus fs (if f.header.devfn % 8 = 0 then f.header.multi else foundMulti)
        (max subBus (pciautoConfigDevice bus f hose).2.2) (pciautoConfigDevice bus f hose).2.1
      exact ⟨hfs.1.trans hf.1, Nat.le_trans hf.2 hfs.2⟩

end

/-- What one function or one bus leaves: the pointers have followed the layout, and whatever lies
    elsewhere is kept out of its windows. -/
structure Leaves (region : Space → Option PciRegion) (L L' : Layout) (rest : List Request)
    (hose : Hose) (bars : List BarRange) (Separated : List BarRange → Prop) : Prop where
  at_ : At region hose L'
  gives : Gives region L L' bars
  sound : Sound region rest L'
  separated : ∀ others, (∀ b ∈ others, b.Elsewhere region L L') → Separated others

/-- A bridge: its own registers, then the windows opened, the bus behind it, the windows closed. -/
theorem bridge_leaves (hregions : RegionsApart region) {hose₁ hose₂ : Hose} {L L₁ L₂ : Layout}
    {own : List BarRange} {inner : List Placed} {bus command subBus lastBus : Nat}
    (hat : At region hose₁ L₁) (hown : Gives region L L₁ own)
    (hopen : ∀ s, L₁.round s < 4294967296)
    (hinner : Leaves region L₁.round L₂ (.closes :: rest) hose₂ (busBars inner)
      (fun others => busSeparated others inner)) :
    Leaves region L L₂.round rest (alignRegions hose₂) (own ++ busBars inner)
      (fun others => Placed.Separated others
        (.bridge own (bridgeRegs hose₁ hose₂ bus command subBus lastBus) inner)) := by
  obtain ⟨hclear, hsound⟩ := hinner.sound
  refine ⟨hinner.at_.round, hown.append hregions (hinner.gives.widen (le_round L₁) (le_round L₂)),
    hsound, ?_⟩
  intro others hothers
  -- seen from the windows, its own registers and the rest of the tree are elsewhere
  have helse : ∀ b ∈ own ++ others, b.Elsewhere region L₁.round L₂.round := by
    intro b hb
    rcases List.mem_append.mp hb with hb | hb
    · have hbefore : b.Elsewhere region L₁ L₂.round := (hown.given b hb).before
      exact hbefore.mono (le_round L₁) (fun _ => Nat.le_refl _)
    · exact (hothers b hb).mono (fun s => Nat.le_trans (hown.mono s) (le_round L₁ s))
        (fun _ => Nat.le_refl _)
  refine ⟨fun b hb => (hinner.gives.given b hb).inside hat hinner.at_ hopen,
    fun b hb => (helse b hb).outside hat hinner.at_ hopen hclear, ?_⟩
  apply hinner.separated
  intro b hb
  exact (helse b hb).mono (fun _ => Nat.le_refl _) (le_round L₂)

mutual

theorem configDevice_leaves (hlow : RegionsLow region) (hregions : RegionsApart region)
    (f : Func) (bus : Nat) {hose : Hose} {L : Layout} {rest : List Request}
    (hat : At region hose L) (hbars : ∀ r ∈ f.responses, r ≠ 0 → Bar32 r)
    (hbusno : hose.firstBusno ≤ hose.currentBusno)
    (hsound : Sound region (f.requests (region .pref).isSome ++ rest) L)
    (hgiven : ∀ b ∈ (pciautoConfigDevice bus f hose).1.bars, b.value.isSome) :
    Leaves region L (L.run (f.requests (region .pref).isSome)) rest
      (pciautoConfigDevice bus f hose).2.1 (pciautoConfigDevice bus f hose).1.bars
      (fun others => (pciautoConfigDevice bus f hose).1.Separated others) := by
  cases f with
  | device header cls bars =>
    cases cls with
    | storageIde prgIface =>
      rw [Func.requests] at hsound ⊢
      rw [pciautoConfigDevice] at hgiven ⊢
      by_cases hlegacy : prgIface &&& 0x05 = 0
      · simp only [if_pos hlegacy] at hsound hgiven ⊢
        exact ⟨hat, Gives.nil, hsound, fun _ _ => trivial⟩
      · simp only [if_neg hlegacy] at hsound hgiven ⊢
        obtain ⟨hat', hgives, hsound'⟩ := setup_spec hlow hregions hat hbars hsound hgiven
        exact ⟨hat', hgives, hsound', fun _ _ => trivial⟩
    | bridgeCardbus =>
      rw [pciautoConfigDevice]
      exact ⟨hat.congr rfl, Gives.nil, hsound, fun _ _ => trivial⟩
    | other =>
      rw [Func.requests] at hsound ⊢
      rw [pciautoConfigDevice] at hgiven ⊢
      obtain ⟨hat', hgives, hsound'⟩ := setup_spec hlow hregions hat hbars hsound hgiven
      exact ⟨hat', hgives, hsound', fun _ _ => trivial⟩
  | bridge header bars behind =>
    rw [Func.requests] at hsound ⊢
    rw [pciautoConfigDevice] at hgiven ⊢
    dsimp only [Placed.bars] at hgiven ⊢
    set given := pciautoSetupDevice { hose with currentBusno := hose.currentBusno + 1 }
      header.command bars 2 with hgivenDef
    set opened := pciautoPrescanSetupBridge given.2 (bus % 256) given.1.2 (hose.currentBusno + 1)
      with hopened
    set scanned := pciHoseScanBus (hose.currentBusno + 1) behind false (hose.currentBusno + 1)
      opened.2 with hscanned
    rw [List.append_assoc, List.cons_append, List.append_assoc] at hsound
    have hmem {r : Nat} (h : r ∈ bars ∨ r ∈ busResponses behind) :
        r ∈ (Func.bridge header bars behind).responses := List.mem_append.mpr h
    -- its own two registers
    have hat₀ : At region { hose with currentBusno := hose.currentBusno + 1 } L := hat.congr rfl
    obtain ⟨hat₁, hown, hsound₁⟩ := setup_spec hlow hregions hat₀
      (fun r hr => hbars r (hmem (Or.inl hr))) hsound
      (fun b hb => hgiven b (List.mem_append_left _ hb))
    -- the bus behind it
    obtain ⟨hopen, hsound₂⟩ := hsound₁
    have hat₂ : At region opened.2 _ := hat₁.round
    have hfirst : opened.2.firstBusno = hose.firstBusno := setupDevice_firstBusno ..
    have hcurrent : opened.2.currentBusno = hose.currentBusno + 1 := setupDevice_currentBusno ..
    have hbus : (hose.currentBusno + 1 == opened.2.firstBusno) = false :=
      beq_false_of_ne (by omega)
    have hbusno₂ : opened.2.firstBusno ≤ opened.2.currentBusno := by omega
    have hinner := scanBus_leaves hlow hregions behind (hose.currentBusno + 1) hat₂
      (fun r hr => hbars r (hmem (Or.inr hr))) hbusno₂ (by rw [hbus]; exact hsound₂)
      (fun b hb => hgiven b (List.mem_append_right _ hb))
    rw [hbus] at hinner
    simp only [run_append, run_cons, run_nil, Layout.next]
    exact bridge_leaves hregions hat₁ hown hopen hinner

theorem scanBus_leaves (hlow : RegionsLow region) (hregions : RegionsApart region)
    (fs : List Func) (bus : Nat) {foundMulti : Bool} {subBus : Nat} {hose : Hose} {L : Layout}
    {rest : List Request} (hat : At region hose L)
    (hbars : ∀ r ∈ busResponses fs, r ≠ 0 → Bar32 r)
    (hbusno : hose.firstBusno ≤ hose.currentBusno)
    (hsound : Sound region
      (busRequests (region .pref).isSome (bus == hose.firstBusno) foundMulti fs ++ rest) L)
    (hgiven : ∀ b ∈ busBars (pciHoseScanBus bus fs foundMulti subBus hose).1, b.value.isSome) :
    Leaves region L (L.run (busRequests (region .pref).isSome (bus == hose.firstBusno) foundMulti fs))
      rest (pciHoseScanBus bus fs foundMulti subBus hose).2.1
      (busBars (pciHoseScanBus bus fs foundMulti subBus hose).1)
      (fun others => busSeparated others (pciHoseScanBus bus fs foundMulti subBus hose).1) := by
  cases fs with
  | nil => exact ⟨hat, Gives.nil, hsound, fun _ _ => trivial⟩
  | cons f fs =>
    have hmem {r : Nat} (h : r ∈ f.responses ∨ r ∈ busResponses fs) :
        r ∈ busResponses (f :: fs) := List.mem_append.mpr h
    rw [busRequests] at hsound ⊢
    rw [pciHoseScanBus] at hgiven ⊢
    by_cases hpass : passesOver (bus == hose.firstBusno) foundMulti f.header.devfn = true
    · simp only [if_pos hpass] at hsound hgiven ⊢
      exact scanBus_leaves hlow hregions fs bus hat (fun r hr => hbars r (hmem (Or.inr hr))) hbusno
        hsound hgiven
    · simp only [if_neg hpass] at hsound hgiven ⊢
      dsimp only [busBars] at hgiven ⊢
      rw [List.append_assoc] at hsound
      rw [run_append]
      have hf := configDevice_leaves hlow hregions f bus hat (fun r hr => hbars r (hmem (Or.inl hr)))
        hbusno hsound (fun b hb => hgiven b (List.mem_append_left _ hb))
      obtain ⟨hfirst, hcurrent⟩ := configDevice_busno bus f hose
      have hsound' := hf.sound
      rw [← hfirst] at hsound' ⊢
      have hfs := scanBus_leaves hlow hregions fs bus hf.at_
        (fun r hr => hbars r (hmem (Or.inr hr))) (by omega) hsound'
        (fun b hb => hgiven b (List.mem_append_right _ hb))
      refine ⟨hfs.at_, hf.gives.append hregions hfs.gives, hfs.sound, ?_⟩
      intro others hothers
      constructor
      · apply hf.separated
        intro b hb
        rcases List.mem_append.mp hb with hb | hb
        · exact (hfs.gives.given b hb).after
        · exact (hothers b hb).mono (fun _ => Nat.le_refl _) hfs.gives.mono
      · apply hfs.separated
        intro b hb
        rcases List.mem_append.mp hb with hb | hb
        · exact (hf.gives.given b hb).before
        · exact (hothers b hb).mono hf.gives.mono (fun _ => Nat.le_refl _)

end

-- ============================================================================
-- Bus numbers
-- ============================================================================

theorem countP_barRequests (prefetch : Bool) (bars : List Nat) :
    (barRequests prefetch bars).countP Request.takesBus = 0 := by
  rw [List.countP_eq_zero]
  intro r hr
  obtain ⟨response, -, rfl⟩ := List.mem_map.mp hr
  exact Bool.false_ne_true

/-- A bus number that fits its byte. -/
theorem busByte_eq {hose : Hose} {bus : Nat} (hfirst : hose.firstBusno ≤ bus) (hbus : bus ≤ 255) :
    busByte hose bus = bus - hose.firstBusno := by
  rw [busByte, usub_of_le hfirst (by omega)]
  omega

/-- The numbers that one function or one bus takes: up to `highest`, those of its bridges above
    whatever was used up before. -/
structure Numbers (first current : Nat) (requests : List Request) (hose : Hose) (highest : Nat) :
    Prop where
  first : hose.firstBusno = first
  current : hose.currentBusno = current + requests.countP Request.takesBus
  highest : highest ≤ hose.currentBusno

/-- A bridge takes one number itself. -/
theorem countP_bridge (prefetch : Bool) (header : Header) (bars : List Nat) (behind : List Func) :
    ((Func.bridge header bars behind).requests prefetch).countP Request.takesBus =
      (busRequests prefetch false false behind).countP Request.takesBus + 1 := by
  rw [Func.requests, List.countP_append, List.countP_cons, List.countP_append, countP_barRequests,
    Nat.zero_add]
  rfl

/-- The numbers written to a bridge with the bus `subBus` behind it, up to `highest`. -/
theorem bridge_busNumbers {hose₁ hose₂ : Hose} {first bus command subBus highest : Nat}
    (hfirst₁ : hose₁.firstBusno = first) (hfirst₂ : hose₂.firstBusno = first)
    (hsub : first ≤ subBus) (hbus : bus ≤ highest) (hle : subBus ≤ highest)
    (hlast : highest ≤ 255) :
    (bridgeRegs hose₁ hose₂ bus command subBus (max highest bus)).secondary = subBus - first ∧
      (bridgeRegs hose₁ hose₂ bus command subBus (max highest bus)).subordinate =
        highest - first := by
  subst hfirst₁
  constructor
  · exact busByte_eq hsub (by omega)
  · change busByte hose₂ (max highest bus) = _
    rw [Nat.max_eq_left hbus, busByte_eq (by omega) hlast, hfirst₂]

mutual

theorem configDevice_numbers (prefetch : Bool) (f : Func) (bus : Nat) {hose : Hose}
    (hbusno : hose.firstBusno ≤ hose.currentBusno) (hbus : bus ≤ hose.currentBusno)
    (hlast : hose.currentBusno + (f.requests prefetch).countP Request.takesBus ≤ 255) :
    Numbers hose.firstBusno hose.currentBusno (f.requests prefetch)
        (pciautoConfigDevice bus f hose).2.1 (pciautoConfigDevice bus f hose).2.2 ∧
      ∀ low ≤ hose.currentBusno - hose.firstBusno,
        (pciautoConfigDevice bus f hose).1.last low ≤
            (pciautoConfigDevice bus f hose).2.1.currentBusno - hose.firstBusno ∧
          ∀ high ≥ (pciautoConfigDevice bus f hose).2.2 - hose.firstBusno,
            (pciautoConfigDevice bus f hose).1.Nested low high := by
  have hmod : bus % 256 ≤ bus := Nat.mod_le bus 256
  cases f with
  | device header cls bars =>
    have hplain (n : Nat) : Numbers hose.firstBusno hose.currentBusno
        (barRequests prefetch (bars.take n))
        (pciautoSetupDevice hose header.command bars n).2 (bus % 256) :=
      ⟨setupDevice_firstBusno .., by rw [countP_barRequests, setupDevice_currentBusno, Nat.add_zero],
        by rw [setupDevice_currentBusno]; omega⟩
    cases cls with
    | storageIde prgIface =>
      rw [pciautoConfigDevice, Func.requests]
      by_cases hlegacy : prgIface &&& 0x05 = 0
      · simp only [if_pos hlegacy]
        exact ⟨⟨rfl, rfl, by omega⟩, fun low hlow => ⟨hlow, fun _ _ => trivial⟩⟩
      · simp only [if_neg hlegacy]
        refine ⟨hplain 6, fun low hlow => ⟨?_, fun _ _ => trivial⟩⟩
        rw [setupDevice_currentBusno]
        exact hlow
    | bridgeCardbus =>
      rw [pciautoConfigDevice, Func.requests]
      refine ⟨⟨setupDevice_firstBusno .., ?_, ?_⟩, fun low hlow => ⟨?_, fun _ _ => trivial⟩⟩
      · simp only [setupDevice_currentBusno]
        rfl
      · simp only [setupDevice_currentBusno]
        omega
      · simp only [setupDevice_currentBusno, Placed.last]
        omega
    | other =>
      rw [pciautoConfigDevice, Func.requests]
      refine ⟨hplain 6, fun low hlow => ⟨?_, fun _ _ => trivial⟩⟩
      rw [setupDevice_currentBusno]
      exact hlow
  | bridge header bars behind =>
    rw [countP_bridge] at hlast
    rw [pciautoConfigDevice]
    set given := pciautoSetupDevice { hose with currentBusno := hose.currentBusno + 1 }
      header.command bars 2 with hgiven
    set opened := pciautoPrescanSetupBridge given.2 (bus % 256) given.1.2 (hose.currentBusno + 1)
      with hopened
    set scanned := pciHoseScanBus (hose.currentBusno + 1) behind false (hose.currentBusno + 1)
      opened.2 with hscanned
    have hfirst : opened.2.firstBusno = hose.firstBusno := setupDevice_firstBusno ..
    have hcurrent : opened.2.currentBusno = hose.currentBusno + 1 := setupDevice_currentBusno ..
    have hbehind : (hose.currentBusno + 1 == opened.2.firstBusno) = false :=
      beq_false_of_ne (by omega)
    have hscan := scanBus_numbers prefetch behind (hose.currentBusno + 1) false
      (hose.currentBusno + 1) opened.2 (by omega) (by omega) (by omega) (by rw [hbehind]; omega)
    rw [← hscanned, hbehind] at hscan
    rw [hfirst, hcurrent] at hscan
    obtain ⟨⟨hfirst', hcurrent', hhighest⟩, hstep, hnest⟩ := hscan
    have hgivenFirst : given.2.firstBusno = hose.firstBusno := setupDevice_firstBusno ..
    set closed := pciautoPostscanSetupBridge scanned.2.1 opened.1 (max scanned.2.2 (bus % 256))
      with hclosed
    obtain ⟨hsecondary, hsubordinate⟩ :
        closed.1.secondary = hose.currentBusno + 1 - hose.firstBusno ∧
          closed.1.subordinate = scanned.2.2 - hose.firstBusno :=
      bridge_busNumbers hgivenFirst hfirst' (Nat.le_succ_of_le hbusno) (by omega) hstep (by omega)
    refine ⟨⟨hfirst', ?_, Nat.le_refl _⟩, fun low hlow => ⟨?_, fun high hhigh => ?_⟩⟩
    · rw [countP_bridge]
      exact hcurrent'.trans (by omega)
    · refine Nat.le_trans (Nat.le_of_eq hsubordinate) ?_
      exact Nat.sub_le_sub_right hhighest _
    · refine ⟨?_, ?_, ?_, ?_⟩
      · rw [hsecondary]
        exact Nat.lt_of_le_of_lt hlow (by omega)
      · rw [hsecondary, hsubordinate]
        exact Nat.sub_le_sub_right hstep _
      · rw [hsubordinate]
        exact Nat.le_trans (Nat.sub_le_sub_right hhighest _) hhigh
      · rw [hsecondary, hsubordinate]
        exact hnest _ (Nat.le_refl _) _ (Nat.le_refl _)

theorem scanBus_numbers (prefetch : Bool) (fs : List Func) (bus : Nat) (foundMulti : Bool)
    (subBus : Nat) (hose : Hose) (hbusno : hose.firstBusno ≤ hose.currentBusno)
    (hbus : bus ≤ hose.currentBusno) (hsub : subBus ≤ hose.currentBusno)
    (hlast : hose.currentBusno + (busRequests prefetch (bus == hose.firstBusno) foundMulti fs).countP
      Request.takesBus ≤ 255) :
    Numbers hose.firstBusno hose.currentBusno
        (busRequests prefetch (bus == hose.firstBusno) foundMulti fs)
        (pciHoseScanBus bus fs foundMulti subBus hose).2.1
        (pciHoseScanBus bus fs foundMulti subBus hose).2.2 ∧
      subBus ≤ (pciHoseScanBus bus fs foundMulti subBus hose).2.2 ∧
      ∀ low ≤ hose.currentBusno - hose.firstBusno,
        ∀ high ≥ (pciHoseScanBus bus fs foundMulti subBus hose).2.2 - hose.firstBusno,
        busNested low high (pciHoseScanBus bus fs foundMulti subBus hose).1 := by
  cases fs with
  | nil => exact ⟨⟨rfl, rfl, hsub⟩, Nat.le_refl _, fun _ _ _ _ => trivial⟩
  | cons f fs =>
    rw [busRequests] at hlast ⊢
    rw [pciHoseScanBus]
    by_cases hpass : passesOver (bus == hose.firstBusno) foundMulti f.header.devfn = true
    · simp only [if_pos hpass] at hlast ⊢
      exact scanBus_numbers prefetch fs bus foundMulti subBus hose hbusno hbus hsub hlast
    · simp only [if_neg hpass, List.countP_append] at hlast ⊢
      obtain ⟨hf, hown⟩ := configDevice_numbers prefetch f bus hbusno hbus (by omega)
      obtain ⟨hfirst, hcurrent, hhighest⟩ := hf
      have hrest := scanBus_numbers prefetch fs bus
        (if f.header.devfn % 8 = 0 then f.header.multi else foundMulti)
        (max subBus (pciautoConfigDevice bus f hose).2.2) (pciautoConfigDevice bus f hose).2.1
        (by omega) (by omega) (by omega) (by rw [hfirst]; omega)
      rw [hfirst] at hrest
      obtain ⟨⟨hfirst', hcurrent', hhighest'⟩, hstep, hnest⟩ := hrest
      refine ⟨⟨hfirst', ?_, hhighest'⟩, by omega, fun low hlow high hhigh => ?_⟩
      · rw [List.countP_append]
        omega
      · obtain ⟨hlast', hnested⟩ := hown low hlow
        exact ⟨hnested high (by omega), hnest _ hlast' high hhigh⟩

end

end Scan

-- ============================================================================
-- Deciding the conditions
-- ============================================================================

instance (P : Space → Prop) [DecidablePred P] : Decidable (∀ s, P s) :=
  decidable_of_iff (P .mem ∧ P .pref ∧ P .io)
    ⟨fun h s => by cases s <;> simp [h], fun h => ⟨h _, h _, h _⟩⟩

instance (region : Space → Option PciRegion) : Decidable (RegionsLow region) :=
  inferInstanceAs (Decidable (∀ s, ∀ res ∈ region s, _ ∧ _))

instance (region : Space → Option PciRegion) : Decidable (RegionsApart region) :=
  inferInstanceAs (Decidable (∀ s s', s ≠ s' → s.Shares s' → ∀ res ∈ region s,
    ∀ res' ∈ region s', res.busEnd ≤ res'.busStart ∨ res'.busEnd ≤ res.busStart))

instance (response : Nat) : Decidable (Bar32 response) :=
  inferInstanceAs (Decidable (∃ k ≤ 31, _ ∨ _))

instance (region : Space → Option PciRegion) (L : Layout) : Decidable (L.Clear region) :=
  inferInstanceAs (Decidable (∀ s s', s ≠ s' → s.Shares s' → ∀ res ∈ region s,
    ∀ res' ∈ region s', L.round s ≤ res'.busStart ∨ res'.busEnd ≤ res.busStart))

instance Sound.instDecidable (region : Space → Option PciRegion) :
    ∀ rs L, Decidable (Sound region rs L)
  | [], _ => isTrue trivial
  | .bar s n :: rest, L =>
    have := Sound.instDecidable region rest (L.next (.bar s n))
    inferInstanceAs (Decidable (_ ∧ ∀ res ∈ region s, _ → _ ∧ _))
  | .opens :: rest, L =>
    have := Sound.instDecidable region rest L.round
    inferInstanceAs (Decidable (_ ∧ _))
  | .closes :: rest, L =>
    have := Sound.instDecidable region rest L.round
    inferInstanceAs (Decidable (_ ∧ _))
  | .cardbus :: rest, L => Sound.instDecidable region rest L

-- ============================================================================
-- The whole tree
-- ============================================================================

/-- A hose and the functions on its first bus: the chosen regions do not wrap the address space,
    the two for memory are apart, and every register has 32 bits. -/
structure Wired (hose : Hose) (bus : List Func) : Prop where
  low : RegionsLow (scanStart hose).region
  apart : RegionsApart (scanStart hose).region
  bars : ∀ r ∈ busResponses bus, r ≠ 0 → Bar32 r

/-- What the scan of the tree asks for. -/
def scanRequests (hose : Hose) (bus : List Func) : List Request :=
  busRequests ((scanStart hose).region .pref).isSome
    ((scanStart hose).currentBusno == (scanStart hose).firstBusno) false bus

/-- Addresses do not wrap and bus numbers fit their bytes. -/
def WideEnough (hose : Hose) (bus : List Func) : Prop :=
  Sound (scanStart hose).region (scanRequests hose bus) (startLayout (scanStart hose).region) ∧
    (scanStart hose).currentBusno + (scanRequests hose bus).countP Request.takesBus ≤ 255

/-- If no allocation fails, the scan leaves the tree enumerated. -/
def Enumerates (hose : Hose) (bus : List Func) : Prop :=
  (∀ b ∈ busBars (pciHoseScan hose bus).1, b.value.isSome) →
    Enumerated (scanStart hose).region (pciHoseScan hose bus).1
      ((scanStart hose).currentBusno - hose.firstBusno)
      ((pciHoseScan hose bus).2.2 - hose.firstBusno)

instance (hose : Hose) (bus : List Func) : Decidable (WideEnough hose bus) :=
  inferInstanceAs (Decidable (_ ∧ _))

section Whole

variable {hose : Hose} {bus : List Func}

theorem scanStart_region {s : Space} {res : PciRegion} (h : res ∈ (scanStart hose).region s) :
    res.busLower = if res.busStart = 0 then 0x1000 else res.busStart := by
  obtain ⟨old, -, rfl⟩ := Option.map_eq_some_iff.mp h
  rfl

theorem at_start (hlow : RegionsLow (scanStart hose).region) :
    At (scanStart hose).region (scanStart hose) (startLayout (scanStart hose).region) := by
  have hlower : ∀ s, ∀ res ∈ (scanStart hose).region s, 0 < res.busLower ∧
      res.busLower < 4294967296 ∧ res.busStart ≤ res.busLower := by
    intro s res hres
    have hstart := (hlow s res hres).1
    have hlower := scanStart_region hres
    split at hlower <;> omega
  constructor
  · intro s
    cases hregion : (scanStart hose).region s with
    | none => rfl
    | some res =>
      rw [startLayout, hregion, Option.map_some, u32_of_lt (hlower s res hregion).2.1]
  · intro s
    rw [startLayout]
    split
    · rename_i res hres
      exact (hlower s res hres).1
    · decide
  · intro s
    rw [startLayout]
    split
    · rename_i res hres
      exact Nat.le_of_lt (hlower s res hres).2.1
    · decide
  · intro s res hres
    rw [startLayout, hres]
    exact (hlower s res hres).2.2

/-- Where 32 bits are wide enough for the layout and a byte for the bus numbers, every range is
    aligned, its own and inside its region, the windows of a bridge hold what is behind it and
    nothing else, and the bus numbers are nested as the bridges are. -/
theorem scan_enumerates (hwired : Wired hose bus) (hwide : WideEnough hose bus) :
    Enumerates hose bus := by
  intro hgiven
  obtain ⟨hsound, hlast⟩ := hwide
  rw [← List.append_nil (scanRequests hose bus)] at hsound
  have hbusno : (scanStart hose).firstBusno ≤ (scanStart hose).currentBusno := Nat.le_max_left _ _
  have hscan := scanBus_leaves hwired.low hwired.apart bus (scanStart hose).currentBusno
    (at_start hwired.low) hwired.bars hbusno hsound hgiven
  obtain ⟨-, -, hnest⟩ := scanBus_numbers _ bus (scanStart hose).currentBusno false
    (scanStart hose).currentBusno (scanStart hose) hbusno (Nat.le_refl _) (Nat.le_refl _) hlast
  refine ⟨?_, hscan.gives.apart, ?_, ?_, hnest _ (Nat.le_refl _) _ (Nat.le_refl _)⟩
  · intro b hb a ha
    obtain ⟨res, -, a', ha', hdvd, -⟩ := hscan.gives.given b hb
    obtain rfl : a' = a := Option.mem_unique ha' ha
    exact hdvd
  · intro b hb
    obtain ⟨res, hres, -⟩ := hscan.gives.given b hb
    refine ⟨res, hres, fun x hx => ?_⟩
    obtain ⟨res', hres', hstart, hend, -⟩ := (hscan.gives.given b hb).holds hx
    obtain rfl : res = res' := Option.mem_unique hres hres'
    exact ⟨hstart, hend⟩
  · exact hscan.separated [] fun _ hb => absurd hb List.not_mem_nil

end Whole

/-- A bridge with a memory and an I/O register behind it, then a device with a memory register. -/
def bridgeBus : List Func :=
  [.bridge ⟨0x08, false, 0⟩ [] [.device ⟨0x00, false, 0⟩ .other [0xfff00000, 0xffffff01]],
    .device ⟨0x10, false, 0⟩ .other [0xffff0000]]

def bridgeHose : Hose where
  firstBusno := 0
  currentBusno := 0
  regions := [⟨0x80000000, 0x10000000, 0, 0⟩, ⟨0, 0x10000, 1, 0⟩]
  region := fun _ => none

theorem scan_enumerates_bridge :
    Enumerated (scanStart bridgeHose).region (pciHoseScan bridgeHose bridgeBus).1 0 1 :=
  @scan_enumerates bridgeHose bridgeBus
    ⟨by decide +kernel, by decide +kernel, by decide +kernel⟩ (by decide +kernel) (by decide +kernel)

/-- A register for the upper half of the address space, where the region has 256 MiB: the sum that
    is tested wraps to 0. -/
def halfBus : List Func := [.device ⟨0x08, false, 0⟩ .other [0x80000000]]

def lowHose : Hose where
  firstBusno := 0
  currentBusno := 0
  regions := [⟨0, 0x10000000, 0, 0⟩]
  region := fun _ => none

theorem half_not_enumerates : Wired lowHose halfBus ∧ ¬Enumerates lowHose halfBus := by
  refine ⟨⟨by decide +kernel, by decide +kernel, by decide +kernel⟩, fun h => ?_⟩
  have henum := h (by decide +kernel)
  have hbar : (⟨.mem, 0x80000000, some 0x80000000⟩ : BarRange) ∈
    busBars (pciHoseScan lowHose halfBus).1 := by decide +kernel
  obtain ⟨res, hres, hinside⟩ := henum.inside _ hbar
  have hregion : (scanStart lowHose).region .mem = some ⟨0, 0x10000000, 0, 0x1000⟩ := rfl
  obtain rfl := Option.some.inj (hregion.symm.trans hres)
  have hx := hinside 0x80000000 ⟨0x80000000, rfl, Nat.le_refl _, by decide⟩
  exact absurd hx.2 (by decide)

end Uboot.Drivers.PciAuto
