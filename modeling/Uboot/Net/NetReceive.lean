/-
  Uboot.Net.NetReceive

  What `NetReceive` of net/net.c does with one Ethernet frame, up to the call of
  the UDP handler: the three link-layer encapsulations, the checks of the IP header,
  `NetDefragment` and the pointer and length that `packetHandler` is given.

  ARP, RARP and ICMP hand no datagram on and are left out, as are the build options
  for CDP, netconsole, multicast, the UDP checksum and the API.  A frame is the receive buffer and the number of its bytes that the driver has filled,
  so that a header read behind that number finds what an earlier frame has left there.
-/

import Uboot.Net.Defrag

namespace Uboot.Net.NetReceive

open Uboot.Lib Uboot.Net.Defrag

-- ============================================================================
-- Definitions from the source
-- ============================================================================

def protIp : Nat := 0x0800
def protVlan : Nat := 0x8100

def ipprotoUdp : Nat := 17

/-- `VLAN_NONE`: untagged. -/
def vlanNone : Nat := 4095

/-- `inpkt` and `len`. -/
structure Frame where
  bytes : Mem UInt8
  len : Int
  /-- `len` is an `int`. -/
  len_lt : len < 2147483648

/-- The build and the addresses of this host, the VLAN numbers in host order. -/
structure Host where
  /-- `CONFIG_IP_DEFRAG`. -/
  ipDefrag : Bool
  /-- `NetOurIP`, as it stands in memory. -/
  ourIp : Nat
  ourVlan : Nat
  ourNativeVlan : Nat

/-- `ntohs` of the two bytes at `a`. -/
def ntohs (m : Mem UInt8) (a : Nat) : Nat := 256 * (m a).toNat + (m (a + 1)).toNat

/-- What the link-layer header says. -/
structure Link where
  /-- `(uchar *)ip - inpkt` -/
  ip : Nat
  /-- `x` -/
  prot : Nat
  vlanid : Nat

/-- The three kinds of link-layer header. -/
def link (s : Host) (f : Frame) : Option Link :=
  let x := ntohs f.bytes 12
  if x < 1514 then
    -- an 802 packet: its other protocol field is read whether it has come in or not
    some ⟨22, ntohs f.bytes 20, vlanNone⟩
  else if x ≠ protVlan then some ⟨14, x, vlanNone⟩
  else if f.len < 18 then none
  else if s.ourVlan % 4096 = vlanNone then none
  else some ⟨18, ntohs f.bytes 16, ntohs f.bytes 14 % 4096⟩

/-- `myvlanid` and `mynvlanid`: an unset number is untagged. -/
def vlanNumber (v : Nat) : Nat := if v = 65535 then vlanNone else v

/-- The VLAN of the frame is ours. -/
def vlanMatches (s : Host) (vlanid : Nat) : Prop :=
  vlanNumber s.ourVlan % 4096 ≠ vlanNone →
    (if vlanid = vlanNone then vlanNumber s.ourNativeVlan % 4096 else vlanid) =
      vlanNumber s.ourVlan % 4096

instance (s : Host) (vlanid : Nat) : Decidable (vlanMatches s vlanid) :=
  inferInstanceAs (Decidable (_ → _))

/-- `NetCksum` of `n` words. -/
def netCksum (m : Mem UInt8) (a n : Nat) : Nat :=
  let xsum := ((List.range n).map fun i => rd16 m (a + 2 * i)).sum
  let xsum := xsum % 65536 + xsum / 65536
  let xsum := xsum % 65536 + xsum / 65536
  xsum % 65536

/-- `NetCksumOk`. -/
def netCksumOk (m : Mem UInt8) (a n : Nat) : Bool := (netCksum m a n + 1) / 2 % 32768 = 0

/-- `ntohs(ip->ip_len)`. -/
def Frame.ipLen (f : Frame) (ip : Nat) : Nat := ntohs f.bytes (ip + 2)

/-- The checks of the IP header at `ip`. -/
def ipHeaderOk (s : Host) (f : Frame) (ip : Nat) : Bool :=
  let len := f.len - ip
  let dst := rd32 f.bytes (ip + 16)
  -- `sizeof` makes this comparison unsigned, a negative `len` passes it
  decide (28 ≤ len % 4294967296) &&
  decide ((f.ipLen ip : Int) ≤ len) &&
  decide ((f.bytes ip).toNat / 16 = 4) &&
  decide ((f.bytes ip).toNat % 16 ≤ 5) &&
  netCksumOk f.bytes ip 10 &&
  decide (s.ourIp = 0 ∨ dst = s.ourIp ∨ dst = 0xffffffff)

/-- The IP packet at `ip` for `__NetDefragment`. -/
def Frame.fragment (f : Frame) (ip : Nat) : Fragment where
  ipId := ntohs f.bytes (ip + 4)
  ipOff := ntohs f.bytes (ip + 6)
  header := f.bytes.read ip 20
  body := f.bytes.read (ip + 20) (f.ipLen ip - 20)

/-- `ip_off & (IP_OFFS | IP_FLAGS_MFRAG)` -/
def Frame.isFragment (f : Frame) (ip : Nat) : Bool :=
  ntohs f.bytes (ip + 6) % 16384 ≠ 0

/-- `__NetDefragment` on a packet whose `ip_len` is less than the 20 bytes of its
    header, so that `len` is negative; nothing in `NetReceive` rejects it.  `none`: the
    `memcpy` is reached, which takes the length for a huge one. -/
def shortFragment (b : PktBuff) (ip : Fragment) (len : Int) : Option PktBuff :=
  let stop := 8 * ip.offset8 + len
  -- the comparison with `IP_MAXUDP` is unsigned
  if stop < 0 ∨ ipMaxUdp < stop then some b
  else
    let b := resetStructs b ip
    match findHole b.payload (8 * ip.offset8) 65536 b.firstHole with
    | none => some b
    | some h => if ip.offset8 + len.tdiv 8 ≤ h then some b else none

/-- The buffer an IP packet is in. -/
inductive Buffer
  | inpkt
  | pktBuff
  deriving DecidableEq

/-- The arguments of `(*packetHandler)`: a pointer into one of the two buffers, the
    ports, and the length, which is an `unsigned`. -/
structure Handed where
  buffer : Buffer
  pkt : Nat
  dport : Nat
  sport : Nat
  len : Nat

/-- The UDP case at the end of `NetReceive`, for the IP packet at `ip` in `m`. -/
def handUdp (buffer : Buffer) (m : Mem UInt8) (ip : Nat) : Option Handed :=
  if (m (ip + 9)).toNat = ipprotoUdp then
    some ⟨buffer, ip + 28, ntohs m (ip + 22), ntohs m (ip + 20), usub (ntohs m (ip + 24)) 8⟩
  else none

/-- `pkt_buff`: the header and the bytes behind it. -/
def pktBuffBytes (b : PktBuff) : Mem UInt8 := fun i =>
  if i < 20 then b.header.getD i 0 else b.payload (i - 20)

/-- `NetReceive`.  `none`: memory is lost to the `memcpy` of `shortFragment`. -/
def netReceive (s : Host) (b : PktBuff) (f : Frame) : Option (PktBuff × Option Handed) :=
  if f.len < 14 then some (b, none)
  else
    match link s f with
    | none => some (b, none)
    | some l =>
      if ¬ vlanMatches s l.vlanid ∨ l.prot ≠ protIp ∨ ¬ ipHeaderOk s f l.ip then some (b, none)
      else if ¬ f.isFragment l.ip then some (b, handUdp .inpkt f.bytes l.ip)
      else if ¬ s.ipDefrag then some (b, none)
      else if f.ipLen l.ip < 20 then
        (shortFragment b (f.fragment l.ip) (f.ipLen l.ip - 20)).map (·, none)
      else
        let r := netDefragment b (f.fragment l.ip)
        some (r.2, r.1.bind fun _ => handUdp .pktBuff (pktBuffBytes r.2) 0)

-- ============================================================================
-- What is handed on
-- ============================================================================

/-- The bytes that the pointer and the length describe have been received: in the
    frame, or as part of the datagram that the fragments make. -/
def Received (f : Frame) (b : PktBuff) (d : Handed) : Prop :=
  match d.buffer with
  | .inpkt => (d.pkt + d.len : Int) ≤ f.len
  | .pktBuff => d.pkt + d.len ≤ 20 + b.totalLen

/-- The size of the link-layer header. -/
def linkSize (f : Frame) : Nat :=
  if ntohs f.bytes 12 < 1514 then 22 else if ntohs f.bytes 12 ≠ protVlan then 14 else 18

/-- `udp_len` counts at least its own header and no more than what has been received
    behind the IP header: of the frame, or of the datagram that the fragment completes. -/
def UdpLenFits (b : PktBuff) (f : Frame) : Prop :=
  let ip := linkSize f
  if f.isFragment ip then
    let b' := (netDefragment b (f.fragment ip)).2
    8 ≤ ntohs b'.payload 4 ∧ ntohs b'.payload 4 ≤ b'.totalLen
  else
    8 ≤ ntohs f.bytes (ip + 24) ∧ (ip + 20 + ntohs f.bytes (ip + 24) : Int) ≤ f.len

theorem ntohs_lt (m : Mem UInt8) (a : Nat) : ntohs m a < 65536 := by
  have h0 := (m a).toNat_lt
  have h1 := (m (a + 1)).toNat_lt
  simp only [ntohs]
  omega

theorem link_ip {s : Host} {f : Frame} {l : Link} (h : link s f = some l) :
    l.ip = linkSize f := by
  simp only [link] at h
  unfold linkSize
  split_ifs at h ⊢ <;> rw [← Option.some.inj h]

/-- What the UDP case hands on is `udp_len - 8` bytes behind the UDP header. -/
theorem handUdp_spec {buffer : Buffer} {m : Mem UInt8} {ip : Nat} {d : Handed}
    (h : handUdp buffer m ip = some d) :
    d.buffer = buffer ∧ d.pkt = ip + 28 ∧ d.len = usub (ntohs m (ip + 24)) 8 := by
  unfold handUdp at h
  split at h
  · rw [← Option.some.inj h]
    exact ⟨rfl, rfl, rfl⟩
  · cases h

/-- `total_len` stays a `u16`. -/
theorem netDefragment_totalLen_lt {b : PktBuff} (ip : Fragment) (hb : b.totalLen < 65536) :
    (netDefragment b ip).2.totalLen < 65536 := by
  have hreset : (resetStructs b ip).totalLen < 65536 := by
    unfold resetStructs
    split
    · exact Nat.lt_succ_self 65535
    · exact hb
  unfold netDefragment
  split
  · exact hb
  · next hmax =>
    have hstop : 8 * ip.offset8 + ip.body.length ≤ 16464 := Nat.le_of_not_lt hmax
    dsimp only
    split
    · exact hreset
    · split
      · exact hreset
      · simp only [takeFragment]
        split <;> omega

/-- A call of the handler comes from a whole packet or from the datagram that the
    fragment completes. -/
theorem netReceive_handed {s : Host} {b b' : PktBuff} {f : Frame} {d : Handed}
    (h : netReceive s b f = some (b', some d)) :
    (f.isFragment (linkSize f) = false ∧ handUdp .inpkt f.bytes (linkSize f) = some d) ∨
    (f.isFragment (linkSize f) = true ∧
      b' = (netDefragment b (f.fragment (linkSize f))).2 ∧
      handUdp .pktBuff (pktBuffBytes b') 0 = some d) := by
  unfold netReceive at h
  split at h
  · cases h
  · split at h
    · cases h
    · next l hl =>
      rw [link_ip hl] at h
      split at h
      · cases h
      · split at h
        · next hfrag =>
          obtain ⟨rfl, hd⟩ := Prod.mk.inj (Option.some.inj h)
          exact .inl ⟨by simpa using hfrag, hd⟩
        · next hfrag =>
          split at h
          · cases h
          · split at h
            · obtain ⟨b₁, -, hb₁⟩ := Option.map_eq_some_iff.mp h
              cases hb₁
            · obtain ⟨rfl, hd⟩ := Prod.mk.inj (Option.some.inj h)
              obtain ⟨p, -, hp⟩ := Option.bind_eq_some_iff.mp hd
              exact .inr ⟨by simpa using hfrag, rfl, hp⟩

/-- Of a frame that is accepted, exactly those bytes are received which `udp_len`
    does not overstate: `NetReceive` compares it with nothing. -/
theorem received_iff_udpLenFits {s : Host} {b b' : PktBuff} {f : Frame} {d : Handed}
    (hb : b.totalLen < 65536) (h : netReceive s b f = some (b', some d)) :
    Received f b' d ↔ UdpLenFits b f := by
  have hlen := f.len_lt
  rcases netReceive_handed h with ⟨hfrag, hd⟩ | ⟨hfrag, hb', hd⟩
  · -- the packet stands in the frame
    obtain ⟨hbuf, hpkt, hl⟩ := handUdp_spec hd
    have hu := ntohs_lt f.bytes (linkSize f + 24)
    simp only [Received, UdpLenFits, hbuf, hpkt, hl, hfrag, usub, u32, if_false,
      Bool.false_eq_true]
    omega
  · -- the packet stands in `pkt_buff`, its UDP header at the start of the payload
    obtain ⟨hbuf, hpkt, hl⟩ := handUdp_spec hd
    have htotal := netDefragment_totalLen_lt (f.fragment (linkSize f)) hb
    have hudp : ntohs (pktBuffBytes b') (0 + 24) = ntohs b'.payload 4 := rfl
    have hu := ntohs_lt b'.payload 4
    rw [hudp] at hl
    rw [← hb'] at htotal
    simp only [Received, UdpLenFits, hbuf, hpkt, hl, hfrag, usub, u32, if_true, ← hb']
    omega

-- ============================================================================
-- A frame of 60 bytes
-- ============================================================================

/-- A host without addresses, on a build without reassembly. -/
def bareHost : Host := ⟨false, 0, 65535, 65535⟩

def unusedBuff : PktBuff := ⟨[], 0, fun _ => 0, 0, 0⟩

theorem sixty_lt : (60 : Int) < 2147483648 := by decide

/-- Ethernet, IP and UDP header with nothing behind them but the padding; `hi` and `lo`
    are the bytes of `udp_len`. -/
def headersOnly (hi lo : UInt8) : Frame where
  bytes := fun i => [
    0xff, 0xff, 0xff, 0xff, 0xff, 0xff, 0, 0, 0, 0, 0, 1, 0x08, 0x00,
    0x45, 0, 0, 28, 0, 0, 0, 0, 0x40, 17, 0x7a, 0xd2, 0, 0, 0, 0, 0, 0, 0, 0,
    0, 69, 0, 69, hi, lo, 0, 0].getD i 0
  len := 60
  len_lt := sixty_lt

theorem headersOnly_eight_received :
    Received (headersOnly 0 8) unusedBuff ⟨.inpkt, 42, 69, 69, 0⟩ ↔
      UdpLenFits unusedBuff (headersOnly 0 8) :=
  received_iff_udpLenFits (s := bareHost) (by decide) rfl

/-- The same frame with a `udp_len` of 1024: the handler is told of 1016 bytes. -/
theorem headersOnly_not_received :
    ¬ ∀ (s : Host) (b b' : PktBuff) (f : Frame) (d : Handed),
      b.totalLen < 65536 → netReceive s b f = some (b', some d) → Received f b' d := by
  intro hall
  have h : (42 + 1016 : Int) ≤ 60 :=
    hall bareHost unusedBuff unusedBuff (headersOnly 4 0) ⟨.inpkt, 42, 69, 69, 1016⟩
      (Nat.zero_lt_succ 65535) rfl
  omega

end Uboot.Net.NetReceive
