/-
  Uboot.Common.UsbConfig

  `usb_parse_config` of common/usb.c: the descriptors of a configuration, one behind the other in a
  buffer, are copied into `dev->config` of include/usb.h.

  `dev->config` is the memory of the structure, by offsets, and holds what it held before.  A read
  outside the buffer, a write outside the structure and an index outside `if_desc` or `ep_desc` are
  faults.  `le16_to_cpus` does nothing on this board.
-/

import Uboot.Lib.Loop
import Uboot.Lib.Mem

namespace Uboot.Common.UsbConfig

open Uboot.Lib Relation

-- ============================================================================
-- Layout
-- ============================================================================

def usbBufsiz : Nat := 512

def usbMaxinterfaces : Nat := 8

def usbMaxendpoints : Nat := 16

/-- `sizeof(struct usb_config)` -/
def configSize : Nat := 9 + 1 + usbMaxinterfaces * (9 + 3 + usbMaxendpoints * 7)

/-- `config.desc.wTotalLength` -/
def totalLength (config : Mem UInt8) : Nat := rd16 config 2

/-- The offset of `config.no_of_if`. -/
def noOfIf : Nat := 9

/-- The offset of `config.if_desc[ifno]`. -/
def ifDesc (ifno : Nat) : Nat := 10 + ifno * (9 + 3 + usbMaxendpoints * 7)

/-- The offset of `config.if_desc[ifno].no_of_ep`. -/
def noOfEp (ifno : Nat) : Nat := ifDesc ifno + 9

/-- The offset of `config.if_desc[ifno].num_altsetting`. -/
def numAltsetting (ifno : Nat) : Nat := ifDesc ifno + 10

/-- The offset of `config.if_desc[ifno].ep_desc[epno]`. -/
def epDesc (ifno epno : Nat) : Nat := ifDesc ifno + 12 + epno * 7

/-- `USB_DT_CONFIG` -/
def usbDtConfig : UInt8 := 2

/-- `USB_DT_INTERFACE` -/
def usbDtInterface : UInt8 := 4

/-- `USB_DT_ENDPOINT` -/
def usbDtEndpoint : UInt8 := 5

-- ============================================================================
-- Definitions from the source
-- ============================================================================

/-- `ifno` and `curr_if_num`, which are set together. -/
structure Interface where
  ifno : Fin usbMaxinterfaces
  currIfNum : UInt8

/-- The loop of `usb_parse_config`; there is no interface yet where both variables are -1. -/
structure Parse where
  index : Nat
  interface : Option Interface
  config : Mem UInt8

/-- How the function ends. -/
inductive Outcome
  | ret (value : Int) (config : Mem UInt8)
  | fault

/-- `memcpy` of `len` bytes from `buffer[index]` to the offset `off` of `dev->config`. -/
def copyIn (buffer config : Mem UInt8) (off index len : Nat) : Option (Mem UInt8) :=
  if len = 0 then some config
  else if index + len ≤ usbBufsiz ∧ off + len ≤ configSize then some (config.write off (buffer.read index len))
  else none

section Turns

variable (buffer : Mem UInt8)

/-- `head->bLength` -/
def bLength (index : Nat) : Nat := (buffer index).toNat

/-- `head->bDescriptorType` -/
def bDescriptorType (index : Nat) : UInt8 := buffer (index + 1)

/-- `bInterfaceNumber` of the interface descriptor at `index` -/
def bInterfaceNumber (index : Nat) : UInt8 := buffer (index + 2)

/-- A counter of the structure goes up. -/
def increment (config : Mem UInt8) (off : Nat) : Mem UInt8 := config.write off [config off + 1]

/-- To the next descriptor. -/
def Parse.advance (s : Parse) : Turn Parse Outcome := .next { s with index := s.index + bLength buffer s.index }

/-- `case USB_DT_INTERFACE` -/
def parseInterface (s : Parse) : Turn Parse Outcome :=
  if s.index + 2 < usbBufsiz then
    match s.interface with
    | some i =>
      if bInterfaceNumber buffer s.index ≠ i.currIfNum then newInterface
      else { s with config := increment s.config (numAltsetting i.ifno) }.advance buffer
    | none => newInterface
  else .done .fault
where
  /-- A new interface, copy new desc. -/
  newInterface : Turn Parse Outcome :=
    let ifno := (s.config noOfIf).toNat
    let config := increment s.config noOfIf
    if h : ifno < usbMaxinterfaces then
      match copyIn buffer config (ifDesc ifno) s.index (bLength buffer s.index) with
      | none => .done .fault
      | some config =>
        let config := (config.write (noOfEp ifno) [0]).write (numAltsetting ifno) [1]
        { s with interface := some ⟨⟨ifno, h⟩, config (ifDesc ifno + 2)⟩, config }.advance buffer
    else .done .fault

/-- `case USB_DT_ENDPOINT` -/
def parseEndpoint (s : Parse) : Turn Parse Outcome :=
  match s.interface with
  | none => .done .fault
  | some i =>
    let epno := (s.config (noOfEp i.ifno)).toNat
    let config := increment s.config (noOfEp i.ifno)
    if epno < usbMaxendpoints then
      match copyIn buffer config (epDesc i.ifno epno) s.index (bLength buffer s.index) with
      | none => .done .fault
      | some config => { s with config }.advance buffer
    else .done .fault

/-- One turn of the loop. -/
def turn (s : Parse) : Turn Parse Outcome :=
  if s.index + 1 < totalLength s.config then
    if s.index + 1 < usbBufsiz then
      if bDescriptorType buffer s.index = usbDtInterface then parseInterface buffer s
      else if bDescriptorType buffer s.index = usbDtEndpoint then parseEndpoint buffer s
      else if bLength buffer s.index = 0 then .done (.ret 1 s.config)
      else s.advance buffer
    else .done .fault
  else .done (.ret 1 s.config)

/-- The state in front of the loop. -/
def start (config : Mem UInt8) : Parse :=
  let config := (config.write 0 (buffer.read 0 (bLength buffer 0))).write noOfIf [0]
  ⟨(config 0).toNat, none, config⟩

/-- `usb_parse_config`, with at most `n` turns.  The first copy is of at most 255 bytes. -/
def usbParseConfig (config : Mem UInt8) (n : Nat) : Option Outcome :=
  if bDescriptorType buffer 0 ≠ usbDtConfig then some (.ret (-1) config)
  else loop (turn buffer) n (start buffer config)

end Turns

-- ============================================================================
-- Descriptors that fit
-- ============================================================================

/-- What is copied to the offset `off` comes from the buffer and stays in the structure. -/
def CopyFits (off index len : Nat) : Prop := len = 0 ∨ index + len ≤ usbBufsiz ∧ off + len ≤ configSize

/-- A descriptor that has the number of another interface, or is the first. -/
def IsNew (buffer : Mem UInt8) (s : Parse) : Prop :=
  ∀ i, s.interface = some i → bInterfaceNumber buffer s.index ≠ i.currIfNum

/-- The number of an interface is in the buffer.  Of new interfaces there are fewer than 8 so far, and
    the descriptor is copied to its place. -/
def InterfaceFits (buffer : Mem UInt8) (s : Parse) : Prop :=
  s.index + 2 < usbBufsiz ∧ (IsNew buffer s → (s.config noOfIf).toNat < usbMaxinterfaces ∧
    CopyFits (ifDesc (s.config noOfIf).toNat) s.index (bLength buffer s.index))

/-- An endpoint belongs to an interface that has fewer than 16 so far, and is copied to its place. -/
def EndpointFits (buffer : Mem UInt8) (s : Parse) : Prop :=
  ∃ i, s.interface = some i ∧ (s.config (noOfEp i.ifno)).toNat < usbMaxendpoints ∧
    CopyFits (epDesc i.ifno (s.config (noOfEp i.ifno)).toNat) s.index (bLength buffer s.index)

/-- The next descriptor is in the buffer, and an interface or an endpoint has a length and fits. -/
structure DescriptorFits (buffer : Mem UInt8) (s : Parse) : Prop where
  header : s.index + 1 < usbBufsiz
  interface : bDescriptorType buffer s.index = usbDtInterface → bLength buffer s.index ≠ 0 ∧ InterfaceFits buffer s
  endpoint : bDescriptorType buffer s.index = usbDtEndpoint → bLength buffer s.index ≠ 0 ∧ EndpointFits buffer s

/-- The state is one in front of a descriptor. -/
def InConfig (s : Parse) : Prop := s.index + 1 < totalLength s.config

section Loop

variable {buffer config config' : Mem UInt8} {s s' : Parse} {off index len x : Nat}

-- ============================================================================
-- One turn
-- ============================================================================

/-- The loop is at the next descriptor, and the configuration descriptor is as it was. -/
structure Advanced (buffer : Mem UInt8) (s s' : Parse) : Prop where
  index : s'.index = s.index + bLength buffer s.index
  desc : ∀ x < 9, s'.config x = s.config x

theorem Advanced.totalLength (h : Advanced buffer s s') :
    UsbConfig.totalLength s'.config = UsbConfig.totalLength s.config :=
  rd16_congr fun x _ hx => h.desc x (by omega)

theorem increment_low (hx : x < 9) (hoff : 9 ≤ off) : increment config off x = config x :=
  Mem.write_outside _ (.inl (by omega))

theorem copyIn_low (h : copyIn buffer config off index len = some config') (hx : x < 9) (hoff : 9 ≤ off) :
    config' x = config x := by
  rw [copyIn] at h
  split at h
  · rw [← Option.some.inj h]
  · split at h
    · rw [← Option.some.inj h]
      exact Mem.write_outside _ (.inl (by omega))
    · cases h

theorem copyIn_eq_none_iff : copyIn buffer config off index len = none ↔ ¬CopyFits off index len := by
  rw [copyIn, CopyFits]
  split
  · simp [*]
  · split <;> simp [*]

theorem copyIn_fits (h : copyIn buffer config off index len = some config') : CopyFits off index len := by
  by_contra hnot
  rw [copyIn_eq_none_iff.2 hnot] at h
  cases h

/-- A new interface is stored, or the turn is a fault. -/
theorem newInterface_cases (buffer : Mem UInt8) (s : Parse) (P : Prop) (hP : P ↔
    (s.config noOfIf).toNat < usbMaxinterfaces ∧
      CopyFits (ifDesc (s.config noOfIf).toNat) s.index (bLength buffer s.index)) :
    (¬P ∧ parseInterface.newInterface buffer s = .done .fault) ∨
      P ∧ ∃ s', parseInterface.newInterface buffer s = .next s' ∧ Advanced buffer s s' := by
  rw [hP, parseInterface.newInterface]
  dsimp only
  split
  · rename_i hifno
    split
    · rename_i hcopy
      exact .inl ⟨fun h => copyIn_eq_none_iff.1 hcopy h.2, rfl⟩
    · rename_i config hcopy
      refine .inr ⟨⟨hifno, copyIn_fits hcopy⟩, _, rfl, ⟨rfl, fun x hx => ?_⟩⟩
      dsimp only
      rw [Mem.write_outside _ (.inl (by simp only [numAltsetting, ifDesc]; omega)),
        Mem.write_outside _ (.inl (by simp only [noOfEp, ifDesc]; omega)),
        copyIn_low hcopy hx (by simp only [ifDesc]; omega)]
      exact increment_low hx (Nat.le_refl 9)
  · rename_i hifno
    exact .inl ⟨fun h => hifno h.1, rfl⟩

theorem parseInterface_cases (buffer : Mem UInt8) (s : Parse) :
    (¬InterfaceFits buffer s ∧ parseInterface buffer s = .done .fault) ∨
      InterfaceFits buffer s ∧ ∃ s', parseInterface buffer s = .next s' ∧ Advanced buffer s s' := by
  rw [parseInterface]
  split
  · rename_i hnumber
    split
    · rename_i i hi
      split
      · rename_i hne
        have hnew : IsNew buffer s := fun j hj => by rw [hi] at hj; cases hj; exact hne
        exact newInterface_cases buffer s _ ⟨fun h => h.2 hnew, fun h => ⟨hnumber, fun _ => h⟩⟩
      · rename_i heq
        refine .inr ⟨⟨hnumber, fun hnew => absurd (hnew i hi) heq⟩, _, rfl, ⟨rfl, fun x hx => ?_⟩⟩
        exact increment_low hx (by simp only [numAltsetting, ifDesc]; omega)
    · rename_i hnone
      have hnew : IsNew buffer s := fun j hj => by rw [hnone] at hj; cases hj
      exact newInterface_cases buffer s _ ⟨fun h => h.2 hnew, fun h => ⟨hnumber, fun _ => h⟩⟩
  · rename_i hnumber
    exact .inl ⟨fun h => hnumber h.1, rfl⟩

theorem parseEndpoint_cases (buffer : Mem UInt8) (s : Parse) :
    (¬EndpointFits buffer s ∧ parseEndpoint buffer s = .done .fault) ∨
      EndpointFits buffer s ∧ ∃ s', parseEndpoint buffer s = .next s' ∧ Advanced buffer s s' := by
  rw [parseEndpoint]
  split
  · rename_i hnone
    refine .inl ⟨?_, rfl⟩
    rintro ⟨i, hi, -⟩
    rw [hnone] at hi
    cases hi
  · rename_i i hi
    dsimp only
    split
    · rename_i hepno
      split
      · rename_i hcopy
        refine .inl ⟨?_, rfl⟩
        rintro ⟨j, hj, -, hfits⟩
        obtain rfl := Option.some.inj (hi.symm.trans hj)
        exact copyIn_eq_none_iff.1 hcopy hfits
      · rename_i config hcopy
        refine .inr ⟨⟨i, hi, hepno, copyIn_fits hcopy⟩, _, rfl, ⟨rfl, fun x hx => ?_⟩⟩
        dsimp only
        rw [copyIn_low hcopy hx (by simp only [epDesc, ifDesc]; omega)]
        exact increment_low hx (by simp only [noOfEp, ifDesc]; omega)
    · rename_i hepno
      refine .inl ⟨?_, rfl⟩
      rintro ⟨j, hj, hlt, -⟩
      obtain rfl := Option.some.inj (hi.symm.trans hj)
      exact hepno hlt

/-- An interface or an endpoint. -/
def IsStored (buffer : Mem UInt8) (s : Parse) : Prop :=
  bDescriptorType buffer s.index = usbDtInterface ∨ bDescriptorType buffer s.index = usbDtEndpoint

/-- What a turn comes to. -/
inductive Turned (buffer : Mem UInt8) (s : Parse) : Turn Parse Outcome → Prop
  | past : ¬InConfig s → Turned buffer s (.done (.ret 1 s.config))
  | fault : InConfig s → ¬DescriptorFits buffer s → Turned buffer s (.done .fault)
  | unknown : InConfig s → DescriptorFits buffer s → Turned buffer s (.done (.ret 1 s.config))
  | next (t : Parse) : InConfig s → Advanced buffer s t → (bLength buffer s.index = 0 → IsStored buffer s) →
      (bLength buffer s.index ≠ 0 → DescriptorFits buffer s) → Turned buffer s (.next t)

/-- **Turn lemma.** -/
theorem turn_turned (buffer : Mem UInt8) (s : Parse) : Turned buffer s (turn buffer s) := by
  have hdistinct : usbDtInterface ≠ usbDtEndpoint := by decide
  rw [turn]
  split
  · rename_i hin
    split
    · rename_i hheader
      split
      · rename_i hinterface
        obtain ⟨hfits, hturn⟩ | ⟨hfits, s', hturn, hadvanced⟩ := parseInterface_cases buffer s
        · rw [hturn]
          exact .fault hin fun h => hfits (h.interface hinterface).2
        · rw [hturn]
          refine .next s' hin hadvanced (fun _ => .inl hinterface) fun hlen =>
            ⟨hheader, fun _ => ⟨hlen, hfits⟩, fun h => ?_⟩
          exact absurd (hinterface.symm.trans h) hdistinct
      · rename_i hinterface
        split
        · rename_i hendpoint
          obtain ⟨hfits, hturn⟩ | ⟨hfits, s', hturn, hadvanced⟩ := parseEndpoint_cases buffer s
          · rw [hturn]
            exact .fault hin fun h => hfits (h.endpoint hendpoint).2
          · rw [hturn]
            exact .next s' hin hadvanced (fun _ => .inr hendpoint) fun hlen =>
              ⟨hheader, fun h => absurd h hinterface, fun _ => ⟨hlen, hfits⟩⟩
        · rename_i hendpoint
          have hfits : DescriptorFits buffer s :=
            ⟨hheader, fun h => absurd h hinterface, fun h => absurd h hendpoint⟩
          split
          · exact .unknown hin hfits
          · rename_i hlen
            exact .next _ hin ⟨rfl, fun _ _ => rfl⟩ (fun h => absurd h hlen) fun _ => hfits
    · rename_i hheader
      exact .fault hin fun h => hheader h.header
  · rename_i hin
    exact .past hin

-- ============================================================================
-- The loop
-- ============================================================================

/-- The state of a turn that goes on. -/
theorem goes_spec (h : Goes (turn buffer) s s') : InConfig s ∧ Advanced buffer s s' ∧
    (bLength buffer s.index = 0 → IsStored buffer s) ∧ (bLength buffer s.index ≠ 0 → DescriptorFits buffer s) := by
  have hturned := turn_turned buffer s
  rw [h] at hturned
  cases hturned with
  | next _ hin hadvanced hzero hlen => exact ⟨hin, hadvanced, hzero, hlen⟩

/-- A descriptor that fits is no fault. -/
theorem turn_ne_fault (h : InConfig s → DescriptorFits buffer s) : turn buffer s ≠ .done .fault := by
  intro hfault
  have hturned := turn_turned buffer s
  rw [hfault] at hturned
  cases hturned with
  | fault hin hnot => exact hnot (h hin)

/-- Where the loop goes on, a descriptor that fits has a length. -/
theorem DescriptorFits.advances (h : DescriptorFits buffer s) (hgoes : Goes (turn buffer) s s') :
    s'.index ≠ s.index := by
  obtain ⟨-, hadvanced, hzero, -⟩ := goes_spec hgoes
  rw [hadvanced.index]
  intro hsame
  have hlen : bLength buffer s.index = 0 := by omega
  rcases hzero hlen with hinterface | hendpoint
  · exact (h.interface hinterface).1 hlen
  · exact (h.endpoint hendpoint).1 hlen

/-- An interface or an endpoint without a length comes again and again. -/
theorem stuck_of_zero (hin : InConfig s) (hlen : bLength buffer s.index = 0) (hstored : IsStored buffer s)
    (hsafe : ∀ t, ReflTransGen (Goes (turn buffer)) s t → turn buffer t ≠ .done .fault) :
    Stuck (turn buffer) Parse.index s := by
  intro t hreach
  have hsame : t.index = s.index ∧ InConfig t := by
    induction hreach with
    | refl => exact ⟨rfl, hin⟩
    | @tail t u hreach hgoes ih =>
      obtain ⟨-, hadvanced, -⟩ := goes_spec hgoes
      have hindex : u.index = t.index := by rw [hadvanced.index, ih.1, hlen, Nat.add_zero]
      refine ⟨hindex.trans ih.1, ?_⟩
      rw [InConfig, hindex, hadvanced.totalLength]
      exact ih.2
  obtain ⟨hindex, hint⟩ := hsame
  have hsafet := hsafe t hreach
  have hturned := turn_turned buffer t
  generalize hturn : turn buffer t = r at hturned hsafet
  cases hturned with
  | past hnot => exact absurd hint hnot
  | fault => exact absurd rfl hsafet
  | unknown _ hfits =>
    rw [IsStored, ← hindex] at hstored
    rw [← hindex] at hlen
    rcases hstored with hinterface | hendpoint
    · exact absurd hlen (hfits.interface hinterface).1
    · exact absurd hlen (hfits.endpoint hendpoint).1
  | next u _ hadvanced => exact ⟨u, hturn, by rw [hadvanced.index, hindex, hlen, Nat.add_zero]⟩

end Loop

/-- The loop ends without a fault just when every descriptor it comes to fits. -/
theorem loop_safe_iff (buffer : Mem UInt8) (s : Parse) :
    (∃ n value config, loop (turn buffer) n s = some (.ret value config)) ↔
      ∀ t, ReflTransGen (Goes (turn buffer)) s t → InConfig t → DescriptorFits buffer t := by
  have hmono : ∀ s s', Goes (turn buffer) s s' → s.index ≤ s'.index := fun s s' h => by
    rw [(goes_spec h).2.1.index]
    exact Nat.le_add_right _ _
  have hbound : ∀ s s', Goes (turn buffer) s s' → s.index < 65536 := fun s s' h => by
    have hin := (goes_spec h).1
    have hlt := rd16_lt s.config 2
    rw [InConfig, totalLength] at hin
    omega
  have hrule := @exists_loop_good_iff _ _ (turn buffer) s Parse.index (· = .fault) 65536 hmono hbound
  have hret : (∃ n value config, loop (turn buffer) n s = some (.ret value config)) ↔
      ∃ n r, loop (turn buffer) n s = some r ∧ ¬ r = .fault := by
    constructor
    · rintro ⟨n, value, config, h⟩
      exact ⟨n, _, h, Outcome.noConfusion⟩
    · rintro ⟨n, r, h, hr⟩
      cases r with
      | ret value config => exact ⟨n, value, config, h⟩
      | fault => exact absurd rfl hr
  rw [hret, hrule]
  constructor
  · intro h t hreach hin
    have hsafe : ∀ u, ReflTransGen (Goes (turn buffer)) t u → turn buffer u ≠ .done .fault :=
      fun u hu hfault => (h u (hreach.trans hu)).2 _ hfault rfl
    have hturned := turn_turned buffer t
    generalize hturn : turn buffer t = r at hturned
    cases hturned with
    | past hnot => exact absurd hin hnot
    | fault => exact absurd hturn (hsafe t .refl)
    | unknown _ hfits => exact hfits
    | next _ _ _ hzero hlen =>
      by_cases hl : bLength buffer t.index = 0
      · exact absurd (stuck_of_zero hin hl (hzero hl) hsafe) (h t hreach).1
      · exact hlen hl
  · intro h t hreach
    refine ⟨fun hstuck => ?_, fun r hdone hfault => ?_⟩
    · obtain ⟨u, hgoes, hsame⟩ := hstuck t .refl
      exact (h t hreach (goes_spec hgoes).1).advances hgoes hsame
    · subst hfault
      exact turn_ne_fault (h t hreach) hdone

/-- **Configurations.** `usb_parse_config` ends, with no access outside the buffer, the structure and its
    arrays, just when the buffer does not begin with a configuration or every descriptor that the loop
    comes to fits. -/
theorem usbParseConfig_safe_iff (buffer config : Mem UInt8) :
    (∃ n value config', usbParseConfig buffer config n = some (.ret value config')) ↔
      (bDescriptorType buffer 0 = usbDtConfig →
        ∀ s, ReflTransGen (Goes (turn buffer)) (start buffer config) s → InConfig s → DescriptorFits buffer s) := by
  by_cases htype : bDescriptorType buffer 0 = usbDtConfig
  · simp only [usbParseConfig, ne_eq, htype, not_true_eq_false, if_false, forall_const]
    exact loop_safe_iff buffer (start buffer config)
  · refine iff_of_true ⟨0, -1, config, ?_⟩ fun h => absurd h htype
    rw [usbParseConfig, if_pos htype]

/-- A configuration of 16 bytes whose first descriptor is an endpoint. -/
def endpointFirst : Mem UInt8 := fun i => [9, 2, 16, 0, 1, 1, 0, 0x80, 50, 7, 5, 0x81, 2, 0x40, 0, 1].getD i 0

/-- The endpoint is stored in the interface -1. -/
theorem endpointFirst_fault : rd16 endpointFirst 2 ≤ usbBufsiz ∧
    ¬∃ n value config', usbParseConfig endpointFirst (fun _ => 0) n = some (.ret value config') := by
  refine ⟨by decide, ?_⟩
  have htype : bDescriptorType endpointFirst 0 = usbDtConfig := rfl
  simp only [usbParseConfig, ne_eq, htype, not_true_eq_false, if_false]
  rw [loop_safe_iff]
  intro h
  have hin : InConfig (start endpointFirst fun _ => 0) := by
    simp only [InConfig]
    decide
  obtain ⟨-, i, hi, -⟩ := (h _ .refl hin).endpoint (by decide)
  cases hi

end Uboot.Common.UsbConfig
