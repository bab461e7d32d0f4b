/-
  Uboot.Net.Bootp

  The two scanners of DHCP options in net/bootp.c, `DhcpMessageType` and
  `DhcpOptionsProcess`, on a field of options as RFC 2132 builds it.

  A packet is memory with the BOOTP header at 0, and nothing is assumed of what stands behind
  its last byte.  The scanners are not told where that is, so each run also records which
  bytes it has read.  `CONFIG_BOOTP_VENDOREX`, a hook of the board, is left out, and so
  are the messages on the console.
-/

import Uboot.Lib.Extent
import Uboot.Lib.Holds

namespace Uboot.Net.Bootp

open Uboot.Lib

-- ============================================================================
-- Definitions from the source
-- ============================================================================

/-- `BOOTP_VENDOR_MAGIC`. -/
def bootpVendorMagic : Nat := 0x63825363

/-- `sizeof (Bootp_t)`, with an `OPT_SIZE` of 312. -/
def bootpHdrSize : Nat := 548

/-- The offset of `bp_file`. -/
def bpFile : Nat := 108

/-- The offset of `bp_vend`. -/
def bpVend : Nat := 236

/-- `CONFIG_BOOTP_DNS2`, and `CONFIG_CMD_SNTP` with `CONFIG_BOOTP_TIMEOFFSET` or
    `CONFIG_BOOTP_NTPSERVER`. -/
structure Build where
  dns2 : Bool
  timeOffset : Bool
  ntpServer : Bool

/-- The packet, and the variables that options are copied to, addresses as they stand
    in memory. -/
structure Dhcp where
  packet : Mem UInt8
  netOurSubnetMask : Nat
  netTimeOffset : Nat
  netOurGatewayIp : Nat
  netOurDnsIp : Nat
  netOurDns2Ip : Nat
  netOurHostName : Mem UInt8
  netOurRootPath : Mem UInt8
  netNtpServerIp : Nat
  dhcpLeasetime : Nat
  netDhcpServerIp : Nat

/-- `truncate_sz`. -/
def truncateSz (maxlen curlen : Nat) : Nat := if maxlen ≤ curlen then maxlen - 1 else curlen

/-- The option at `popt`: what it changes, and how many bytes of its value are read. -/
def dhcpOption (b : Build) (s : Dhcp) (popt : Nat) : Dhcp × Nat :=
  let m := s.packet
  let oplen := (m (popt + 1)).toNat
  match (m popt).toNat with
  | 1 => ({ s with netOurSubnetMask := rd32 m (popt + 2) }, 4)
  | 2 => if b.timeOffset then ({ s with netTimeOffset := rdBe32 m (popt + 2) }, 4) else (s, 0)
  | 3 => ({ s with netOurGatewayIp := rd32 m (popt + 2) }, 4)
  | 6 =>
    if b.dns2 ∧ 4 < oplen then
      ({ s with netOurDnsIp := rd32 m (popt + 2), netOurDns2Ip := rd32 m (popt + 2 + 4) }, 8)
    else ({ s with netOurDnsIp := rd32 m (popt + 2) }, 4)
  | 12 =>
    let size := truncateSz 32 oplen
    ({ s with netOurHostName := s.netOurHostName.write 0 (m.read (popt + 2) size ++ [0]) }, size)
  | 17 =>
    let size := truncateSz 64 oplen
    ({ s with netOurRootPath := s.netOurRootPath.write 0 (m.read (popt + 2) size ++ [0]) }, size)
  | 42 => if b.ntpServer then ({ s with netNtpServerIp := rd32 m (popt + 2) }, 4) else (s, 0)
  | 51 => ({ s with dhcpLeasetime := rd32 m (popt + 2) }, 4)
  | 54 => ({ s with netDhcpServerIp := rd32 m (popt + 2) }, 4)
  | 67 =>
    let size := truncateSz 128 oplen
    if m bpFile = 0 ∧ 0 < size then
      ({ s with packet := m.write bpFile (m.read (popt + 2) size ++ [0]) }, size)
    else (s, 0)
  | _ => (s, 0)

/-- What a scanner takes for an option: where it starts, its tag, its length and how many bytes
    of its value are read. -/
structure Visit where
  pos : Nat
  tag : UInt8
  len : Nat
  used : Nat
  deriving DecidableEq

/-- The bytes read for an option; the one for the boot file looks at `bp_file` too. -/
def Visit.reads (v : Visit) : List Extent :=
  [⟨v.pos, 1⟩, ⟨v.pos + 1, 1⟩, ⟨v.pos + 2, v.used⟩] ++ if v.tag = 67 then [⟨bpFile, 1⟩] else []

/-- A run of a scanner: the options it has come by, the bytes it has read, and what it
    leaves. -/
structure Scan (α : Type) where
  visits : List Visit
  reads : List Extent
  result : α

/-- One more option in front. -/
def Scan.cons {α : Type} (v : Visit) (reads : List Extent) (r : Scan α) : Scan α :=
  ⟨v :: r.visits, reads ++ r.reads, r.result⟩

/-- The loop of `DhcpOptionsProcess`. -/
def optionsLoop (b : Build) (stop : Nat) : Nat → Dhcp → Nat → Option (Scan Dhcp)
  | 0, _, _ => none
  | fuel + 1, s, popt =>
    if stop ≤ popt then some ⟨[], [], s⟩
    else if s.packet popt = 255 then some ⟨[], [⟨popt, 1⟩], s⟩
    else
      let oplen := (s.packet (popt + 1)).toNat
      let r := dhcpOption b s popt
      let v : Visit := ⟨popt, s.packet popt, oplen, r.2⟩
      (optionsLoop b stop fuel r.1 (popt + (oplen + 2))).map (Scan.cons v v.reads)

/-- `DhcpOptionsProcess` on the options at `popt`. -/
def dhcpOptionsProcess (b : Build) (s : Dhcp) (popt : Nat) : Option (Scan Dhcp) :=
  optionsLoop b (popt + bootpHdrSize) (bootpHdrSize + 1) s popt

/-- The loop of `DhcpMessageType`; no result is -1.  It has no bound: when `fuel` runs out, the
    source is still scanning. -/
def messageTypeLoop (m : Mem UInt8) : Nat → Nat → Option (Scan (Option UInt8))
  | 0, _ => none
  | fuel + 1, popt =>
    if m popt = 255 then some ⟨[], [⟨popt, 1⟩], none⟩
    else
      let oplen := (m (popt + 1)).toNat
      if m popt = 53 then
        some ⟨[⟨popt, 53, oplen, 1⟩], [⟨popt, 1⟩, ⟨popt + 2, 1⟩], some (m (popt + 2))⟩
      else
        (messageTypeLoop m fuel (popt + (oplen + 2))).map
          (Scan.cons ⟨popt, m popt, oplen, 0⟩ [⟨popt, 1⟩, ⟨popt + 1, 1⟩])

/-- `DhcpMessageType`. -/
def dhcpMessageType (m : Mem UInt8) (fuel popt : Nat) : Option (Scan (Option UInt8)) :=
  if rdBe32 m popt ≠ bootpVendorMagic then some ⟨[], [⟨popt, 4⟩], none⟩
  else (messageTypeLoop m fuel (popt + 4)).map fun r => { r with reads := ⟨popt, 4⟩ :: r.reads }

-- ============================================================================
-- Options as RFC 2132 builds them
-- ============================================================================

/-- An option with a value. -/
structure DhcpOption where
  tag : UInt8
  value : List UInt8
  tag_ne : tag ≠ 0 ∧ tag ≠ 255
  short : value.length < 256

/-- What stands in front of the end option. -/
inductive Item
  | pad
  | opt (o : DhcpOption)

def DhcpOption.encode (o : DhcpOption) : List UInt8 := o.tag :: UInt8.ofNat o.value.length :: o.value

def Item.encode : Item → List UInt8
  | .pad => [0]
  | .opt o => o.encode

/-- The field of options. -/
def encode : List Item → List UInt8
  | [] => [255]
  | i :: items => i.encode ++ encode items

/-- The options of a field that stands at `p`, with their places. -/
def optionsFrom (p : Nat) : List Item → List (Nat × DhcpOption)
  | [] => []
  | .pad :: items => optionsFrom (p + 1) items
  | .opt o :: items => (p, o) :: optionsFrom (p + (o.value.length + 2)) items

/-- The places of its pad options. -/
def padsFrom (p : Nat) : List Item → List Nat
  | [] => []
  | .pad :: items => p :: padsFrom (p + 1) items
  | .opt o :: items => padsFrom (p + (o.value.length + 2)) items

/-- The options up to the first one for the message type. -/
def upToType : List (Nat × DhcpOption) → List (Nat × DhcpOption)
  | [] => []
  | q :: qs => if q.2.tag = 53 then [q] else q :: upToType qs

/-- The value of the option for the message type. -/
def messageTypeOf (qs : List (Nat × DhcpOption)) : Option UInt8 :=
  (qs.find? (·.2.tag = 53)).bind (·.2.value.head?)

/-- What an option says, from its own value. -/
def DhcpOption.apply (b : Build) (s : Dhcp) (o : DhcpOption) : Dhcp :=
  let v := listMem o.value
  match o.tag.toNat with
  | 1 => { s with netOurSubnetMask := rd32 v 0 }
  | 2 => if b.timeOffset then { s with netTimeOffset := rdBe32 v 0 } else s
  | 3 => { s with netOurGatewayIp := rd32 v 0 }
  | 6 =>
    if b.dns2 ∧ 4 < o.value.length then { s with netOurDnsIp := rd32 v 0, netOurDns2Ip := rd32 v 4 }
    else { s with netOurDnsIp := rd32 v 0 }
  | 12 => { s with netOurHostName := s.netOurHostName.write 0 (o.value.take 31 ++ [0]) }
  | 17 => { s with netOurRootPath := s.netOurRootPath.write 0 (o.value.take 63 ++ [0]) }
  | 42 => if b.ntpServer then { s with netNtpServerIp := rd32 v 0 } else s
  | 51 => { s with dhcpLeasetime := rd32 v 0 }
  | 54 => { s with netDhcpServerIp := rd32 v 0 }
  | 67 =>
    -- the name that stands in the header goes first
    if s.packet bpFile = 0 ∧ o.value ≠ [] then
      { s with packet := s.packet.write bpFile (o.value.take 127 ++ [0]) }
    else s
  | _ => s

/-- The length that an option which is copied as a whole has at least: an address or a
    32-bit number, or two addresses. -/
def fixedSize (b : Build) (tag : UInt8) (len : Nat) : Nat :=
  match tag.toNat with
  | 1 | 3 | 51 | 54 => 4
  | 2 => if b.timeOffset then 4 else 0
  | 6 => if b.dns2 ∧ 4 < len then 8 else 4
  | 42 => if b.ntpServer then 4 else 0
  | _ => 0

def Visit.key (v : Visit) : Nat × UInt8 × Nat := (v.pos, v.tag, v.len)

def optionKey (q : Nat × DhcpOption) : Nat × UInt8 × Nat := (q.1, q.2.tag, q.2.value.length)

/-- A run has come by these options and no others, has read nothing as the value of an option
    but the value it has, and no byte behind the first `len` bytes. -/
structure Sees {α : Type} (len : Nat) (qs : List (Nat × DhcpOption)) (r : Scan α) : Prop where
  visits : r.visits.map Visit.key = qs.map optionKey
  own : ∀ v ∈ r.visits, v.used ≤ v.len
  inside : ∀ e ∈ r.reads, e.stop ≤ len

/-- Both scanners come to an end on the field at `bp_vend`, behind its cookie, and see what
    it says. -/
structure SeesField (b : Build) (s : Dhcp) (items : List Item) (len : Nat) : Prop where
  messageType : ∃ fuel r, dhcpMessageType s.packet fuel bpVend = some r ∧
    Sees len (upToType (optionsFrom (bpVend + 4) items)) r ∧
    r.result = messageTypeOf (optionsFrom (bpVend + 4) items)
  optionsProcess : ∃ r, dhcpOptionsProcess b s (bpVend + 4) = some r ∧
    Sees len (optionsFrom (bpVend + 4) items) r ∧
    r.result = (optionsFrom (bpVend + 4) items).foldl (fun s q => q.2.apply b s) s

/-- No pad option stands in front of the first option for the message type. -/
def NoPadBeforeType : List Item → Prop
  | [] => True
  | .pad :: _ => False
  | .opt o :: items => o.tag = 53 ∨ NoPadBeforeType items

/-- The fields that are seen as they are: no pad option stands in the first 548 bytes or in
    front of the message type, no option starts behind them, and every value that is copied
    has its size. -/
structure Scannable (b : Build) (items : List Item) : Prop where
  pads : ∀ p ∈ padsFrom (bpVend + 4) items, bpVend + 4 + bootpHdrSize ≤ p
  options : ∀ q ∈ optionsFrom (bpVend + 4) items,
    q.1 < bpVend + 4 + bootpHdrSize ∧ fixedSize b q.2.tag q.2.value.length ≤ q.2.value.length
  typeFirst : NoPadBeforeType items
  typeValue : ∀ q ∈ upToType (optionsFrom (bpVend + 4) items), q.2.tag = 53 → q.2.value ≠ []

-- ============================================================================
-- The field in memory
-- ============================================================================

section Field

variable {b : Build} {s : Dhcp} {m : Mem UInt8} {p : Nat} {o : DhcpOption} {items : List Item}

theorem truncateSz_le (maxlen curlen : Nat) : truncateSz maxlen curlen ≤ curlen := by
  rw [truncateSz]
  split <;> omega

theorem truncateSz_lt {maxlen : Nat} (curlen : Nat) (h : 0 < maxlen) : truncateSz maxlen curlen < maxlen := by
  rw [truncateSz]
  split <;> omega

/-- Only the header is written to. -/
theorem dhcpOption_packet (b : Build) (s : Dhcp) (p : Nat) {x : Nat} (hx : bpVend ≤ x) :
    (dhcpOption b s p).1.packet x = s.packet x := by
  have hsize := truncateSz_lt (s.packet (p + 1)).toNat (show 0 < 128 by decide)
  have hfile : ((s.packet.read (p + 2) (truncateSz 128 (s.packet (p + 1)).toNat)) ++ [0]).length ≤ 128 := by
    rw [List.length_append, Mem.read_length]
    exact hsize
  have hwrite := s.packet.write_outside (a := bpFile) (.inr (Nat.le_trans (Nat.add_le_add_left hfile bpFile) hx))
  simp only [dhcpOption]
  split
  all_goals try (split <;> first | rfl | exact hwrite)
  all_goals rfl

/-- What is read stays inside the value exactly when the value has its size. -/
theorem used_le_iff (b : Build) (s : Dhcp) (p : Nat) :
    (dhcpOption b s p).2 ≤ (s.packet (p + 1)).toNat ↔
      fixedSize b (s.packet p) (s.packet (p + 1)).toNat ≤ (s.packet (p + 1)).toNat := by
  -- a name that is cut to its buffer stays inside the value
  have hname (size : Nat) := truncateSz_le size (s.packet (p + 1)).toNat
  simp only [dhcpOption, fixedSize]
  split
  all_goals simp_all
  all_goals split <;> simp [hname]

/-- An option whose value has its size is taken for what it says. -/
theorem dhcpOption_apply (h : s.packet.Holds p o.encode)
    (hsize : fixedSize b o.tag o.value.length ≤ o.value.length) :
    (dhcpOption b s p).1 = o.apply b s := by
  rw [DhcpOption.encode, Mem.holds_cons, Mem.holds_cons] at h
  obtain ⟨htag, hlen, hvalue⟩ := h
  have hoplen : (s.packet (p + 1)).toNat = o.value.length := by
    rw [hlen, UInt8.toNat_ofNat', Nat.mod_eq_of_lt o.short]
  have hcell {i : Nat} (hi : i < o.value.length) : s.packet (p + 2 + i) = listMem o.value i :=
    hvalue.listMem hi
  have hword (h4 : 4 ≤ o.value.length) : rd32 s.packet (p + 2) = rd32 (listMem o.value) 0 := by
    simp only [rd32, Nat.zero_add, ← hcell (show 0 < _ by omega), ← hcell (show 1 < _ by omega),
      ← hcell (show 2 < _ by omega), ← hcell (show 3 < _ by omega), Nat.add_zero]
  have hword' (h8 : 8 ≤ o.value.length) : rd32 s.packet (p + 2 + 4) = rd32 (listMem o.value) 4 := by
    simp only [rd32, ← hcell (show 4 < _ by omega), ← hcell (show 4 + 1 < _ by omega),
      ← hcell (show 4 + 2 < _ by omega), ← hcell (show 4 + 3 < _ by omega), Nat.add_assoc, Nat.reduceAdd]
  have hlong (h4 : 4 ≤ o.value.length) : rdBe32 s.packet (p + 2) = rdBe32 (listMem o.value) 0 := by
    simp only [rdBe32, Nat.zero_add, ← hcell (show 0 < _ by omega), ← hcell (show 1 < _ by omega),
      ← hcell (show 2 < _ by omega), ← hcell (show 3 < _ by omega), Nat.add_zero]
  have hname (n : Nat) : s.packet.read (p + 2) (truncateSz (n + 1) o.value.length) = o.value.take n := by
    have hall : s.packet.read (p + 2) o.value.length = o.value := hvalue
    rw [truncateSz]
    split
    · rw [Nat.add_sub_cancel, ← Mem.take_read _ (show n ≤ o.value.length by omega), hall]
    · rw [hall, List.take_of_length_le (by omega)]
  have hfull : 0 < truncateSz 128 o.value.length ↔ o.value ≠ [] := by
    rw [truncateSz, ← List.length_pos_iff]
    split <;> omega
  have htwo : 8 ≤ o.value.length → 4 ≤ o.value.length := by omega
  simp only [dhcpOption, DhcpOption.apply, htag, hoplen, hname, hfull]
  simp only [fixedSize] at hsize
  split
  all_goals simp_all
  all_goals split <;> simp_all

theorem length_encode (o : DhcpOption) : o.encode.length = o.value.length + 2 := rfl

/-- The first byte of a field, and what follows. -/
theorem holds_encode_nil (h : m.Holds p (encode [])) : m p = 255 := (Mem.holds_cons.mp h).1

theorem holds_encode_pad (h : m.Holds p (encode (.pad :: items))) :
    m p = 0 ∧ m.Holds (p + 1) (encode items) :=
  Mem.holds_cons.mp h

theorem holds_encode_opt (h : m.Holds p (encode (.opt o :: items))) :
    m p = o.tag ∧ (m (p + 1)).toNat = o.value.length ∧ m.Holds p o.encode ∧
      m.Holds (p + (o.value.length + 2)) (encode items) := by
  rw [encode, Item.encode, Mem.holds_append, length_encode] at h
  refine ⟨(Mem.holds_cons.mp h.1).1, ?_, h.1, h.2⟩
  have hlen := (Mem.holds_cons.mp (Mem.holds_cons.mp h.1).2).1
  rw [hlen, UInt8.toNat_ofNat', Nat.mod_eq_of_lt o.short]

theorem optionsFrom_ge (items : List Item) (p : Nat) : ∀ q ∈ optionsFrom p items, p ≤ q.1 := by
  fun_induction optionsFrom p items with
  | case1 => simp
  | case2 p items ih => exact fun q hq => Nat.le_of_succ_le (ih q hq)
  | case3 p o items ih =>
    refine List.forall_mem_cons.mpr ⟨Nat.le_refl p, fun q hq => ?_⟩
    have := ih q hq
    omega

theorem padsFrom_ge (items : List Item) (p : Nat) : ∀ q ∈ padsFrom p items, p ≤ q := by
  fun_induction padsFrom p items with
  | case1 => simp
  | case2 p items ih => exact List.forall_mem_cons.mpr ⟨Nat.le_refl p, fun q hq => Nat.le_of_succ_le (ih q hq)⟩
  | case3 p o items ih =>
    intro q hq
    have := ih q hq
    omega

theorem encode_pos (items : List Item) : 0 < (encode items).length := by
  rcases items with _ | ⟨_ | o, items⟩ <;> simp [encode, Item.encode, length_encode]

end Field

-- ============================================================================
-- `DhcpOptionsProcess`
-- ============================================================================

section Process

variable {b : Build} {s : Dhcp} {p stop fuel len : Nat} {items : List Item} {r : Scan Dhcp}

/-- Every step goes on by two bytes at least. -/
theorem optionsLoop_ends (b : Build) (stop : Nat) :
    ∀ (fuel : Nat) (s : Dhcp) (p : Nat), stop - p < fuel → ∃ r, optionsLoop b stop fuel s p = some r := by
  intro fuel
  induction fuel with
  | zero => exact fun s p h => absurd h (Nat.not_lt_zero _)
  | succ fuel ih =>
    intro s p h
    rw [optionsLoop]
    split
    · exact ⟨_, rfl⟩
    · split
      · exact ⟨_, rfl⟩
      · dsimp only
        obtain ⟨r, hr⟩ := ih (dhcpOption b s p).1 (p + ((s.packet (p + 1)).toNat + 2)) (by omega)
        exact ⟨_, by rw [hr]; rfl⟩

/-- What one turn of the loop does. -/
theorem optionsLoop_cases (h : optionsLoop b stop fuel s p = some r) :
    (stop ≤ p ∧ r = ⟨[], [], s⟩) ∨
    (p < stop ∧ s.packet p = 255 ∧ r = ⟨[], [⟨p, 1⟩], s⟩) ∨
    (p < stop ∧ s.packet p ≠ 255 ∧ ∃ fuel r',
      optionsLoop b stop fuel (dhcpOption b s p).1 (p + ((s.packet (p + 1)).toNat + 2)) = some r' ∧
      ∃ v : Visit, v = ⟨p, s.packet p, (s.packet (p + 1)).toNat, (dhcpOption b s p).2⟩ ∧ r = r'.cons v v.reads) := by
  cases fuel with
  | zero => cases h
  | succ fuel =>
    rw [optionsLoop] at h
    split at h
    · rename_i hstop
      exact .inl ⟨hstop, (Option.some.inj h).symm⟩
    · rename_i hstop
      split at h
      · rename_i hend
        exact .inr (.inl ⟨by omega, hend, (Option.some.inj h).symm⟩)
      · rename_i hend
        obtain ⟨r', hr', hcons⟩ := Option.map_eq_some_iff.mp h
        exact .inr (.inr ⟨by omega, hend, fuel, r', hr', _, rfl, hcons.symm⟩)

/-- The options that the loop comes by, and what it reads of them. -/
theorem optionsLoop_visits (hp : bpVend ≤ p) (hfield : s.packet.Holds p (encode items))
    (h : optionsLoop b stop fuel s p = some r) :
    (r.visits.map Visit.key = (optionsFrom p items).map optionKey ∧ ∀ v ∈ r.visits, v.used ≤ v.len) ↔
      (∀ q ∈ padsFrom p items, stop ≤ q) ∧
        ∀ q ∈ optionsFrom p items, q.1 < stop ∧ fixedSize b q.2.tag q.2.value.length ≤ q.2.value.length := by
  induction items generalizing fuel s p r with
  | nil =>
    have hend := holds_encode_nil hfield
    obtain ⟨-, rfl⟩ | ⟨-, -, rfl⟩ | ⟨-, hne, -⟩ := optionsLoop_cases h
    · simp [optionsFrom, padsFrom]
    · simp [optionsFrom, padsFrom]
    · exact absurd hend hne
  | cons i items ih =>
    obtain ⟨hstop, rfl⟩ | ⟨hlt, hend, -⟩ | ⟨hlt, hne, fuel, r, hr, v, hv, rfl⟩ := optionsLoop_cases h
    · -- nothing is looked at any more
      have hpads := padsFrom_ge (i :: items) p
      have hopts := optionsFrom_ge (i :: items) p
      simp only [List.map_nil, List.not_mem_nil, false_imp_iff, implies_true, and_true]
      constructor
      · intro hnone
        have hnil := List.map_eq_nil_iff.mp hnone.symm
        rw [hnil]
        exact ⟨fun q hq => Nat.le_trans hstop (hpads q hq), by simp⟩
      · rintro ⟨-, hreach⟩
        rw [eq_comm, List.map_eq_nil_iff, List.eq_nil_iff_forall_not_mem]
        intro q hq
        have h₁ := hopts q hq
        have h₂ := (hreach q hq).1
        omega
    · cases i with
      | pad => exact absurd ((holds_encode_pad hfield).1.symm.trans hend) (by decide)
      | opt o => exact absurd ((holds_encode_opt hfield).1.symm.trans hend) o.tag_ne.2
    · cases i with
      | pad =>
        -- it is taken for an option
        refine iff_of_false (fun hsees => ?_) fun hreach => ?_
        · have hmem : v.key ∈ (optionsFrom p (.pad :: items)).map optionKey := by
            rw [← hsees.1]
            exact List.mem_cons_self
          obtain ⟨q, hq, hkey⟩ := List.mem_map.mp hmem
          have hge : p + 1 ≤ q.1 := optionsFrom_ge items (p + 1) q hq
          have hpos : q.1 = v.pos := congrArg Prod.fst hkey
          rw [hpos, hv] at hge
          exact Nat.not_succ_le_self p hge
        · have hstop := hreach.1 p List.mem_cons_self
          omega
      | opt o =>
        obtain ⟨htag, hlen, ho, hrest⟩ := holds_encode_opt hfield
        have hnext : (dhcpOption b s p).1.packet.Holds (p + (o.value.length + 2)) (encode items) :=
          hrest.congr fun x hx _ => dhcpOption_packet b s p (by omega)
        rw [hlen] at hr
        have hkey : v.key = optionKey (p, o) := by rw [hv, Visit.key, optionKey, htag, hlen]
        have hused : v.used ≤ v.len ↔ fixedSize b o.tag o.value.length ≤ o.value.length := by
          have hiff := used_le_iff b s p
          rw [htag, hlen] at hiff
          rw [hv, hlen]
          exact hiff
        have hih := ih (by omega) hnext hr
        simp only [Scan.cons, optionsFrom, padsFrom, List.map_cons, List.cons.injEq, List.forall_mem_cons,
          hkey, hused, true_and, hlt]
        rw [and_left_comm, hih]
        exact and_left_comm

/-- The bytes read for an option inside a packet. -/
theorem visit_reads_inside {v : Visit} (hp : bpVend ≤ v.pos) (hused : v.used ≤ v.len)
    (hstop : v.pos + (v.len + 2) ≤ len) : ∀ e ∈ v.reads, e.stop ≤ len := by
  intro e he
  rw [Visit.reads, List.mem_append] at he
  rcases he with he | he
  · simp only [List.mem_cons, List.not_mem_nil, or_false] at he
    rcases he with rfl | rfl | rfl <;> simp only [Extent.stop] <;> omega
  · split at he
    · rw [List.mem_singleton.mp he, Extent.stop]
      simp only [bpVend, bpFile] at hp ⊢
      omega
    · cases he

/-- What the loop leaves, and where it has read, when it sees the field as it is. -/
theorem optionsLoop_result (hp : bpVend ≤ p) (hfield : s.packet.Holds p (encode items))
    (hlen : p + (encode items).length ≤ len) (h : optionsLoop b stop fuel s p = some r)
    (hpads : ∀ q ∈ padsFrom p items, stop ≤ q)
    (hopts : ∀ q ∈ optionsFrom p items, q.1 < stop ∧ fixedSize b q.2.tag q.2.value.length ≤ q.2.value.length) :
    (∀ e ∈ r.reads, e.stop ≤ len) ∧ r.result = (optionsFrom p items).foldl (fun s q => q.2.apply b s) s := by
  induction items generalizing fuel s p r with
  | nil =>
    have hend := holds_encode_nil hfield
    obtain ⟨-, rfl⟩ | ⟨-, -, rfl⟩ | ⟨-, hne, -⟩ := optionsLoop_cases h
    · simp [optionsFrom]
    · have hin : p + 1 ≤ len := hlen
      simp [optionsFrom, Extent.stop, hin]
    · exact absurd hend hne
  | cons i items ih =>
    obtain ⟨hstop, rfl⟩ | ⟨hlt, hend, -⟩ | ⟨hlt, hne, fuel, r, hr, v, hv, rfl⟩ := optionsLoop_cases h
    · have hnil : optionsFrom p (i :: items) = [] := by
        rw [List.eq_nil_iff_forall_not_mem]
        intro q hq
        have h₁ := optionsFrom_ge _ _ q hq
        have h₂ := (hopts q hq).1
        omega
      simp [hnil]
    · cases i with
      | pad => exact absurd ((holds_encode_pad hfield).1.symm.trans hend) (by decide)
      | opt o => exact absurd ((holds_encode_opt hfield).1.symm.trans hend) o.tag_ne.2
    · cases i with
      | pad =>
        have hstop := hpads p List.mem_cons_self
        omega
      | opt o =>
        obtain ⟨htag, hoplen, ho, hrest⟩ := holds_encode_opt hfield
        obtain ⟨⟨-, hsize⟩, hopts⟩ := List.forall_mem_cons.mp hopts
        have hnext : (dhcpOption b s p).1.packet.Holds (p + (o.value.length + 2)) (encode items) :=
          hrest.congr fun x hx _ => dhcpOption_packet b s p (by omega)
        rw [encode, Item.encode, List.length_append, length_encode] at hlen
        rw [hoplen] at hr
        have hused := (used_le_iff b s p).mpr (by rw [htag, hoplen]; exact hsize)
        obtain ⟨hreads, hresult⟩ := ih (by omega) hnext (by omega) hr hpads hopts
        rw [dhcpOption_apply ho hsize] at hresult
        refine ⟨?_, hresult⟩
        rw [Scan.cons, List.forall_mem_append]
        refine ⟨visit_reads_inside (by rw [hv]; exact hp) (by rw [hv]; exact hused) ?_, hreads⟩
        rw [hv, hoplen]
        dsimp only
        omega

end Process

-- ============================================================================
-- `DhcpMessageType`
-- ============================================================================

section MessageType

variable {m : Mem UInt8} {p fuel len : Nat} {items : List Item} {r : Scan (Option UInt8)}

/-- What one turn of the loop does. -/
theorem messageTypeLoop_cases (h : messageTypeLoop m fuel p = some r) :
    (m p = 255 ∧ r = ⟨[], [⟨p, 1⟩], none⟩) ∨
    (m p = 53 ∧ r = ⟨[⟨p, 53, (m (p + 1)).toNat, 1⟩], [⟨p, 1⟩, ⟨p + 2, 1⟩], some (m (p + 2))⟩) ∨
    (m p ≠ 255 ∧ m p ≠ 53 ∧ ∃ fuel r', messageTypeLoop m fuel (p + ((m (p + 1)).toNat + 2)) = some r' ∧
      r = r'.cons ⟨p, m p, (m (p + 1)).toNat, 0⟩ [⟨p, 1⟩, ⟨p + 1, 1⟩]) := by
  cases fuel with
  | zero => cases h
  | succ fuel =>
    rw [messageTypeLoop] at h
    split at h
    · rename_i hend
      exact .inl ⟨hend, (Option.some.inj h).symm⟩
    · rename_i hend
      dsimp only at h
      split at h
      · rename_i htype
        exact .inr (.inl ⟨htype, (Option.some.inj h).symm⟩)
      · rename_i htype
        obtain ⟨r', hr', hcons⟩ := Option.map_eq_some_iff.mp h
        exact .inr (.inr ⟨hend, htype, fuel, r', hr', hcons.symm⟩)

theorem upToType_sub {qs : List (Nat × DhcpOption)} : ∀ q ∈ upToType qs, q ∈ qs := by
  fun_induction upToType qs with
  | case1 => simp
  | case2 q qs h => simp
  | case3 q qs h ih =>
    exact List.forall_mem_cons.mpr ⟨List.mem_cons_self, fun x hx => List.mem_cons_of_mem _ (ih x hx)⟩

/-- The options that the loop comes by. -/
theorem messageTypeLoop_visits (hfield : m.Holds p (encode items)) (h : messageTypeLoop m fuel p = some r) :
    (r.visits.map Visit.key = (upToType (optionsFrom p items)).map optionKey ∧ ∀ v ∈ r.visits, v.used ≤ v.len) ↔
      NoPadBeforeType items ∧ ∀ q ∈ upToType (optionsFrom p items), q.2.tag = 53 → q.2.value ≠ [] := by
  induction items generalizing fuel p r with
  | nil =>
    have hend := holds_encode_nil hfield
    obtain ⟨-, rfl⟩ | ⟨htype, -⟩ | ⟨hne, -⟩ := messageTypeLoop_cases h
    · simp [optionsFrom, upToType, NoPadBeforeType]
    · exact absurd (hend.symm.trans htype) (by decide)
    · exact absurd hend hne
  | cons i items ih =>
    cases i with
    | pad =>
      obtain ⟨hpad, -⟩ := holds_encode_pad hfield
      obtain ⟨hend, -⟩ | ⟨htype, -⟩ | ⟨-, -, fuel, r, hr, rfl⟩ := messageTypeLoop_cases h
      · exact absurd (hpad.symm.trans hend) (by decide)
      · exact absurd (hpad.symm.trans htype) (by decide)
      · refine iff_of_false (fun hsees => ?_) fun hfirst => hfirst.1
        have hmem : (p, m p, (m (p + 1)).toNat) ∈ (upToType (optionsFrom p (.pad :: items))).map optionKey := by
          rw [← hsees.1]
          exact List.mem_cons_self
        obtain ⟨q, hq, hkey⟩ := List.mem_map.mp hmem
        have hge : p + 1 ≤ q.1 := optionsFrom_ge items (p + 1) q (upToType_sub q hq)
        have hpos : q.1 = p := congrArg Prod.fst hkey
        omega
    | opt o =>
      obtain ⟨htag, hlen, -, hrest⟩ := holds_encode_opt hfield
      obtain ⟨hend, -⟩ | ⟨htype, rfl⟩ | ⟨-, htype, fuel, r, hr, rfl⟩ := messageTypeLoop_cases h
      · exact absurd (htag.symm.trans hend) o.tag_ne.2
      · have ho : o.tag = 53 := htag.symm.trans htype
        have hpos : 1 ≤ o.value.length ↔ o.value ≠ [] := List.length_pos_iff
        simp [optionsFrom, upToType, ho, NoPadBeforeType, hlen, Visit.key, optionKey, hpos]
      · have ho : o.tag ≠ 53 := fun ho => htype (htag.trans ho)
        rw [hlen] at hr
        have hih := ih hrest hr
        simp only [optionsFrom, upToType, ho, NoPadBeforeType, if_false, Scan.cons, List.map_cons,
          List.cons.injEq, List.forall_mem_cons, Visit.key, optionKey, htag, hlen, Nat.zero_le, true_and,
          false_imp_iff, false_or]
        exact hih

/-- Where the loop comes to an end, and with what. -/
theorem messageTypeLoop_result (hfield : m.Holds p (encode items)) (hlen : p + (encode items).length ≤ len)
    (hfirst : NoPadBeforeType items)
    (hvalue : ∀ q ∈ upToType (optionsFrom p items), q.2.tag = 53 → q.2.value ≠ []) :
    ∃ r, messageTypeLoop m (items.length + 1) p = some r ∧ (∀ e ∈ r.reads, e.stop ≤ len) ∧
      r.result = messageTypeOf (optionsFrom p items) := by
  induction items generalizing p with
  | nil =>
    have hin : p + 1 ≤ len := hlen
    refine ⟨⟨[], [⟨p, 1⟩], none⟩, ?_, ?_, rfl⟩
    · rw [messageTypeLoop, if_pos (holds_encode_nil hfield)]
    · simp [Extent.stop, hin]
  | cons i items ih =>
    cases i with
    | pad => exact hfirst.elim
    | opt o =>
      obtain ⟨htag, hoplen, ho, hrest⟩ := holds_encode_opt hfield
      rw [encode, Item.encode, List.length_append, length_encode] at hlen
      have hend : m p ≠ 255 := htag ▸ o.tag_ne.2
      rw [List.length_cons, messageTypeLoop, if_neg hend]
      dsimp only
      rw [optionsFrom, upToType] at hvalue
      by_cases htype : o.tag = 53
      · rw [if_pos htype] at hvalue
        have hne : o.value ≠ [] := hvalue _ (List.mem_singleton.mpr rfl) htype
        rw [if_pos (htag.trans htype)]
        refine ⟨_, rfl, ?_, ?_⟩
        · have hpos := List.length_pos_iff.mpr hne
          simp only [List.mem_cons, List.not_mem_nil, or_false, forall_eq_or_imp, forall_eq, Extent.stop]
          omega
        · obtain ⟨x, xs, hx⟩ := List.exists_cons_of_ne_nil hne
          have hvalue : m (p + 2) = x := by
            rw [DhcpOption.encode, Mem.holds_cons, Mem.holds_cons, hx, Mem.holds_cons] at ho
            exact ho.2.2.1
          rw [optionsFrom, messageTypeOf, List.find?_cons_of_pos (by simpa using htype), hvalue]
          simp [hx]
      · rw [if_neg htype] at hvalue
        obtain ⟨r, hr, hreads, hresult⟩ := ih hrest (by omega) (hfirst.resolve_left htype)
          (List.forall_mem_cons.mp hvalue).2
        rw [if_neg (fun h => htype (htag.symm.trans h)), hoplen, hr]
        refine ⟨_, rfl, ?_, ?_⟩
        · rw [Scan.cons, List.forall_mem_append]
          refine ⟨?_, hreads⟩
          simp only [List.mem_cons, List.not_mem_nil, or_false, forall_eq_or_imp, forall_eq, Extent.stop]
          omega
        · rw [Scan.cons, hresult, optionsFrom, messageTypeOf, messageTypeOf,
            List.find?_cons_of_neg (by simpa using htype)]

end MessageType

-- ============================================================================
-- Both scanners
-- ============================================================================

/-- **DHCP options.**  Exactly the scannable fields are seen as they are, and then nothing
    behind the packet is read. -/
theorem seesField_iff (b : Build) (s : Dhcp) (items : List Item) (len : Nat)
    (hfield : s.packet.Holds bpVend (be32 bootpVendorMagic ++ encode items))
    (hlen : bpVend + 4 + (encode items).length ≤ len) :
    SeesField b s items len ↔ Scannable b items := by
  obtain ⟨hmagic, hitems⟩ := Mem.holds_append.mp hfield
  rw [be32_length] at hitems
  have hcookie : rdBe32 s.packet bpVend = bootpVendorMagic := rdBe32_be32 hmagic
  have hstart : bpVend ≤ bpVend + 4 := Nat.le_add_right _ _
  constructor
  · rintro ⟨⟨fuel, t, ht, htsees, -⟩, r, hr, hsees, -⟩
    rw [dhcpMessageType, if_neg (not_not_intro hcookie)] at ht
    obtain ⟨t', ht', rfl⟩ := Option.map_eq_some_iff.mp ht
    obtain ⟨hpads, hopts⟩ := (optionsLoop_visits hstart hitems hr).mp ⟨hsees.visits, hsees.own⟩
    obtain ⟨hfirst, hvalue⟩ := (messageTypeLoop_visits hitems ht').mp ⟨htsees.visits, htsees.own⟩
    exact ⟨hpads, hopts, hfirst, hvalue⟩
  · intro hscan
    obtain ⟨t, ht, htreads, htresult⟩ := messageTypeLoop_result hitems hlen hscan.typeFirst hscan.typeValue
    obtain ⟨htvisits, htown⟩ := (messageTypeLoop_visits hitems ht).mpr ⟨hscan.typeFirst, hscan.typeValue⟩
    obtain ⟨r, hr⟩ := optionsLoop_ends b (bpVend + 4 + bootpHdrSize) (bootpHdrSize + 1) s (bpVend + 4) (by omega)
    obtain ⟨hvisits, hown⟩ := (optionsLoop_visits hstart hitems hr).mpr ⟨hscan.pads, hscan.options⟩
    obtain ⟨hreads, hresult⟩ := optionsLoop_result hstart hitems hlen hr hscan.pads hscan.options
    refine ⟨⟨items.length + 1, { t with reads := ⟨bpVend, 4⟩ :: t.reads }, ?_, ⟨htvisits, htown, ?_⟩, htresult⟩,
      r, hr, ⟨hvisits, hown, hreads⟩, hresult⟩
    · rw [dhcpMessageType, if_neg (not_not_intro hcookie), ht]
      rfl
    · refine List.forall_mem_cons.mpr ⟨?_, htreads⟩
      have hpos := encode_pos items
      simp only [Extent.stop]
      omega

/-- An acknowledgement with a subnet mask and a router. -/
def ackItems : List Item :=
  [.opt ⟨53, [5], by decide, by decide⟩, .opt ⟨1, [255, 255, 255, 0], by decide, by decide⟩,
    .opt ⟨3, [192, 168, 1, 1], by decide, by decide⟩]

/-- A packet that ends with its options. -/
def ackPacket (items : List Item) : Dhcp where
  packet := Mem.write (fun _ => 0) bpVend (be32 bootpVendorMagic ++ encode items)
  netOurSubnetMask := 0
  netTimeOffset := 0
  netOurGatewayIp := 0
  netOurDnsIp := 0
  netOurDns2Ip := 0
  netOurHostName := fun _ => 0
  netOurRootPath := fun _ => 0
  netNtpServerIp := 0
  dhcpLeasetime := 0
  netDhcpServerIp := 0

def plainBuild : Build := ⟨false, false, false⟩

theorem seesField_ack : SeesField plainBuild (ackPacket ackItems) ackItems 256 :=
  (seesField_iff plainBuild (ackPacket ackItems) ackItems 256 (Mem.holds_write _ _ _) (by decide)).mpr
    ⟨by decide, by decide, .inl rfl, by decide⟩

/-- With a pad option in front, its zero and the 53 behind it are skipped as an option of 53
    bytes. -/
theorem not_seesField_pad :
    ¬ ∀ (b : Build) (s : Dhcp) (items : List Item) (len : Nat),
      s.packet.Holds bpVend (be32 bootpVendorMagic ++ encode items) →
        bpVend + 4 + (encode items).length ≤ len → SeesField b s items len := by
  intro hall
  have hfield := Mem.holds_write (fun _ => 0) bpVend (be32 bootpVendorMagic ++ encode (.pad :: ackItems))
  obtain ⟨r, hr, hsees, -⟩ :=
    (hall plainBuild (ackPacket (.pad :: ackItems)) _ 257 hfield (by decide)).optionsProcess
  obtain ⟨hpads, -⟩ := (optionsLoop_visits (by decide) (Mem.holds_append.mp hfield).2 hr).mp
    ⟨hsees.visits, hsees.own⟩
  exact absurd (hpads 240 List.mem_cons_self) (by decide)

end Uboot.Net.Bootp
