/-
  Uboot.Net.NetSetIP

  The headers of a UDP datagram that is sent, net/net.c: `NetSetEther`, `NetSetIP` and the
  frame that `NetSendUDPPacket` puts together with them.  What they write passes the
  checks of `NetReceive` on the host it is addressed to.

  `int` arguments are the numbers that fit into their fields.
-/

import Uboot.Net.NetCksum

namespace Uboot.Net.NetReceive

open Uboot.Lib Uboot.Net.Defrag

-- ============================================================================
-- Definitions from the source
-- ============================================================================

/-- An Ethernet address. -/
abbrev EtherAddr := {bs : List UInt8 // bs.length = 6}

/-- `NetOurEther`, `NetOurIP` as it stands in memory, `NetOurVLAN` in host order, and
    `NetIPID`. -/
structure Sender where
  ourEther : EtherAddr
  ourIp : Nat
  ourVlan : Nat
  ipId : Nat

/-- `NetSetEther`: the memory, and the size of the header. -/
def netSetEther (s : Sender) (m : Mem UInt8) (xet : Nat) (addr : EtherAddr) (prot : Nat) :
    Mem UInt8 × Nat :=
  let myvlanid := vlanNumber s.ourVlan
  let m := (m.write xet addr.1).write (xet + 6) s.ourEther.1
  if myvlanid % 4096 = vlanNone then (m.write (xet + 12) (htons prot), 14)
  else (m.write (xet + 12) (htons protVlan ++ htons (myvlanid % 4096) ++ htons prot), 18)

/-- The header in front of its checksum: version and length, type of service, total
    length, `NetIPID++`, "don't fragment", time to live and protocol. -/
def ipHeaderFront (s : Sender) (len : Nat) : List UInt8 :=
  [0x45, 0] ++ htons (28 + len) ++ htons s.ipId ++ htons 0x4000 ++ [255, 17]

/-- The addresses and the UDP header, without a UDP checksum. -/
def ipHeaderBack (s : Sender) (dest dport sport len : Nat) : List UInt8 :=
  le32 s.ourIp ++ le32 dest ++ (htons sport ++ htons dport ++ htons (8 + len) ++ [0, 0])

/-- `NetSetIP`. -/
def netSetIP (s : Sender) (m : Mem UInt8) (xip dest dport sport len : Nat) : Mem UInt8 :=
  let m := if len % 2 = 1 then m.write (xip + 28 + len) [0] else m
  let m := m.write xip (ipHeaderFront s len ++ le16 0 ++ ipHeaderBack s dest dport sport len)
  m.write (xip + 10) (cksumField m xip 10)

/-- What `NetSendUDPPacket` gives to `eth_send`: the buffer, and the length. -/
def udpFrame (s : Sender) (m : Mem UInt8) (ether : EtherAddr) (dest dport sport len : Nat) :
    Mem UInt8 × Nat :=
  let r := netSetEther s m 0 ether protIp
  (netSetIP s r.1 r.2 dest dport sport len, r.2 + 28 + len)

/-- The check of `CONFIG_UDP_CHECKSUM`: the sum over the pseudo header, the UDP header and
    the data, when there is a checksum. -/
def udpCksumOk (m : Mem UInt8) (ip : Nat) : Bool :=
  ntohs m (ip + 26) = 0 ||
    (let udpLen := ntohs m (ip + 24)
     let pseudo := (m (ip + 9)).toNat + udpLen + ntohs m (ip + 12) + ntohs m (ip + 14) +
       ntohs m (ip + 16) + ntohs m (ip + 18)
     let xsum := pseudo + (beWords (m.read (ip + 20) udpLen)).sum
     let xsum := fold16 (fold16 xsum)
     xsum = 0 || xsum = 65535)

-- ============================================================================
-- The header that is written
-- ============================================================================

section Header

variable (s : Sender) (m : Mem UInt8) (xip dest dport sport len : Nat)

@[simp] theorem ipHeaderFront_length : (ipHeaderFront s len).length = 10 := rfl

@[simp] theorem cksumField_length (a n : Nat) : (cksumField m a n).length = 2 := rfl

/-- What stands at `xip` afterwards, with a checksum that is right. -/
theorem netSetIP_holds : ∃ ck : List UInt8, ck.length = 2 ∧
    (netSetIP s m xip dest dport sport len).Holds xip
      (ipHeaderFront s len ++ ck ++ ipHeaderBack s dest dport sport len) ∧
    netCksumOk (netSetIP s m xip dest dport sport len) xip 10 = true := by
  simp only [netSetIP]
  generalize (if len % 2 = 1 then m.write (xip + 28 + len) [0] else m) = m
  have hzero := m.holds_write xip
    (ipHeaderFront s len ++ le16 0 ++ ipHeaderBack s dest dport sport len)
  generalize m.write xip (ipHeaderFront s len ++ le16 0 ++ ipHeaderBack s dest dport sport len) = m
    at hzero
  have hfilled := hzero.write (cksumField m xip 10) rfl
  rw [ipHeaderFront_length] at hfilled
  refine ⟨_, rfl, hfilled, ?_⟩
  -- the checksum covers the addresses, but not the UDP header
  rw [ipHeaderBack, ← List.append_assoc, Mem.holds_append] at hzero hfilled
  have hsum := (sum_leWords_cksumField (n := 10) (by decide) (by simp) hzero.1 (by simp)).1
  rw [netCksumOk_iff (by decide)]
  rw [← hfilled.1] at hsum
  exact hsum

/-- Nothing is written in front of the header. -/
theorem netSetIP_before {x : Nat} (hx : x < xip) : netSetIP s m xip dest dport sport len x = m x := by
  rw [netSetIP, Mem.write_outside _ (.inl (by omega)), Mem.write_outside _ (.inl hx)]
  split
  · exact m.write_outside (.inl (by omega))
  · rfl

end Header

/-- The fields of the header that `NetReceive` looks at. -/
structure HeaderAt (m : Mem UInt8) (ip dest dport sport len : Nat) : Prop where
  version : m ip = 0x45
  ipLen : ntohs m (ip + 2) = 28 + len
  ipOff : ntohs m (ip + 6) = 0x4000
  prot : m (ip + 9) = 17
  dst : rd32 m (ip + 16) = dest
  udpSrc : ntohs m (ip + 20) = sport
  udpDst : ntohs m (ip + 22) = dport
  udpLen : ntohs m (ip + 24) = 8 + len
  udpXsum : ntohs m (ip + 26) = 0
  ipSum : netCksumOk m ip 10 = true

section Received

variable {s : Sender} {m : Mem UInt8} {ip dest dport sport len : Nat}

theorem headerAt_netSetIP (hdest : dest < 4294967296) (hd : dport < 65536) (hs : sport < 65536)
    (hlen : 28 + len < 65536) :
    HeaderAt (netSetIP s m ip dest dport sport len) ip dest dport sport len := by
  obtain ⟨ck, hck, h, hok⟩ := netSetIP_holds s m ip dest dport sport len
  generalize netSetIP s m ip dest dport sport len = m at h hok
  simp only [ipHeaderFront, ipHeaderBack, Mem.holds_append, Mem.holds_cons, List.length_append,
    List.length_cons, List.length_nil, htons_length, le32_length, hck, Nat.add_assoc, Nat.reduceAdd] at h
  obtain ⟨⟨⟨⟨⟨⟨hver, -, -⟩, hlen'⟩, -⟩, hoff⟩, -, hprot, -⟩, -⟩ := h.1
  obtain ⟨⟨-, hdst⟩, ⟨⟨hsrc, hdp⟩, hudp⟩, hx0, hx1, -⟩ := h.2
  exact
    { version := hver
      ipLen := by rw [ntohs_of_holds hlen', Nat.mod_eq_of_lt hlen]
      ipOff := ntohs_of_holds hoff
      prot := hprot
      dst := by rw [rd32_of_holds hdst, Nat.mod_eq_of_lt hdest]
      udpSrc := by rw [ntohs_of_holds hsrc, Nat.mod_eq_of_lt hs]
      udpDst := by rw [ntohs_of_holds hdp, Nat.mod_eq_of_lt hd]
      udpLen := by rw [ntohs_of_holds hudp, Nat.mod_eq_of_lt (by omega)]
      udpXsum := by simp [ntohs, hx0, hx1]
      ipSum := hok }

theorem netSetEther_size (s : Sender) (m : Mem UInt8) (ether : EtherAddr) :
    (netSetEther s m 0 ether protIp).2 = 14 ∨ (netSetEther s m 0 ether protIp).2 = 18 := by
  rw [netSetEther]
  split
  · exact .inl rfl
  · exact .inr rfl

/-- The frame is taken in as what it was sent as. -/
theorem link_udpFrame {h : Host} {f : Frame} {ether : EtherAddr} (hvlan : h.ourVlan = s.ourVlan)
    (hbytes : ∀ x < (netSetEther s m 0 ether protIp).2, f.bytes x = (netSetEther s m 0 ether protIp).1 x)
    (hlen : (netSetEther s m 0 ether protIp).2 ≤ f.len) :
    ∃ vlanid, link h f = some ⟨(netSetEther s m 0 ether protIp).2, protIp, vlanid⟩ ∧
      vlanMatches h vlanid := by
  rw [netSetEther] at hbytes hlen ⊢
  split at hbytes
  · rename_i huntagged
    rw [if_pos huntagged] at hlen ⊢
    have hprot : f.bytes.Holds 12 (htons protIp) :=
      (Mem.holds_write _ _ _).congr fun x _ hx => hbytes x hx
    have hx : ntohs f.bytes 12 = protIp := ntohs_of_holds hprot
    refine ⟨vlanNone, ?_, ?_⟩
    · rw [link, hx]
      rfl
    · intro htagged
      rw [hvlan] at htagged
      exact absurd huntagged htagged
  · rename_i htagged
    rw [if_neg htagged] at hlen ⊢
    have hours : h.ourVlan % 4096 ≠ vlanNone := by
      rw [hvlan]
      intro hnone
      apply htagged
      rw [vlanNumber]
      split
      · rfl
      · exact hnone
    have hall : f.bytes.Holds 12
        (htons protVlan ++ htons (vlanNumber s.ourVlan % 4096) ++ htons protIp) :=
      (Mem.holds_write _ _ _).congr fun x _ hx => hbytes x hx
    rw [Mem.holds_append, Mem.holds_append] at hall
    have htype : ntohs f.bytes 12 = protVlan := ntohs_of_holds hall.1.1
    have htag : ntohs f.bytes 14 = vlanNumber s.ourVlan % 4096 := by
      have htag' : ntohs f.bytes 14 = vlanNumber s.ourVlan % 4096 % 65536 := ntohs_of_holds hall.1.2
      omega
    have hprot : ntohs f.bytes 16 = protIp := ntohs_of_holds hall.2
    refine ⟨vlanNumber s.ourVlan % 4096, ?_, ?_⟩
    · have hshort : ¬ f.len < 18 := Int.not_lt.mpr hlen
      rw [link, htype, htag, hprot, Nat.mod_mod]
      simp [protVlan, hshort, hours]
    · intro _
      rw [if_neg htagged, hvlan]

/-- The checks of the IP header. -/
theorem ipHeaderOk_of_headerAt {h : Host} {f : Frame} (hhdr : HeaderAt f.bytes ip dest dport sport len)
    (hours : h.ourIp = dest ∨ dest = 0xffffffff) (hsize : (ip + 28 + len : Int) ≤ f.len) :
    ipHeaderOk h f ip = true := by
  have hlt := f.len_lt
  have hver : (f.bytes ip).toNat = 0x45 := by
    rw [hhdr.version]
    rfl
  simp only [ipHeaderOk, Frame.ipLen, hver, hhdr.ipLen, hhdr.ipSum, hhdr.dst, Bool.and_eq_true,
    decide_eq_true_eq]
  refine ⟨⟨⟨⟨⟨?_, ?_⟩, ?_⟩, ?_⟩, trivial⟩, ?_⟩
  · omega
  · omega
  · decide
  · decide
  · rcases hours with rfl | rfl
    · exact .inr (.inl rfl)
    · exact .inr (.inr rfl)

/-- What the UDP case makes of the header. -/
theorem handUdp_of_headerAt (hhdr : HeaderAt m ip dest dport sport len) (hlen : 28 + len < 65536) :
    handUdp .inpkt m ip = some ⟨.inpkt, ip + 28, dport, sport, len⟩ := by
  have hprot : (m (ip + 9)).toNat = ipprotoUdp := by
    rw [hhdr.prot]
    rfl
  rw [handUdp, if_pos hprot, hhdr.udpSrc, hhdr.udpDst, hhdr.udpLen, usub_of_le (by omega) (by omega),
    Nat.add_sub_cancel_left]

end Received

/-- **Headers that are accepted.**  Whatever `NetIPID`, `NetOurIP`, the ports and the
    length are, the frame passes the checks of a host in the same VLAN that has the
    address it is sent to, and the handler is called with these ports and this length. -/
theorem netReceive_udpFrame (s : Sender) (h : Host) (b : PktBuff) (m : Mem UInt8) (ether : EtherAddr)
    (dest dport sport len : Nat) (f : Frame) (hdest : dest < 4294967296) (hd : dport < 65536)
    (hs : sport < 65536) (hlen : 28 + len < 65536)
    (hours : h.ourIp = dest ∨ dest = 0xffffffff) (hvlan : h.ourVlan = s.ourVlan)
    (hbytes : f.bytes = (udpFrame s m ether dest dport sport len).1)
    (hsize : (udpFrame s m ether dest dport sport len).2 ≤ f.len) :
    let ip := (netSetEther s m 0 ether protIp).2
    netCksumOk f.bytes ip 10 = true ∧ udpCksumOk f.bytes ip = true ∧
      netReceive h b f = some (b, some ⟨.inpkt, ip + 28, dport, sport, len⟩) := by
  obtain ⟨r, hr⟩ : ∃ r, netSetEther s m 0 ether protIp = r := ⟨_, rfl⟩
  have hsz := netSetEther_size s m ether
  rw [udpFrame, hr] at hbytes hsize
  rw [hr] at hsz ⊢
  dsimp only at hbytes hsize ⊢
  have hhdr : HeaderAt f.bytes r.2 dest dport sport len :=
    hbytes ▸ headerAt_netSetIP hdest hd hs hlen
  obtain ⟨vlanid, hlink, hmatch⟩ := link_udpFrame (s := s) (m := m) (f := f) hvlan
    (fun x hx => by rw [hr] at hx ⊢; rw [hbytes, netSetIP_before _ _ _ _ _ _ _ hx]) (by rw [hr]; omega)
  rw [hr] at hlink
  have hok := ipHeaderOk_of_headerAt (h := h) hhdr hours (by omega)
  have hfrag : f.isFragment r.2 = false := by
    rw [Frame.isFragment, hhdr.ipOff]
    rfl
  refine ⟨hhdr.ipSum, ?_, ?_⟩
  · rw [udpCksumOk, hhdr.udpXsum]
    rfl
  · rw [netReceive, if_neg (by omega), hlink]
    simp only [hmatch, hok, hfrag]
    rw [handUdp_of_headerAt hhdr hlen]
    simp

/-- A board in VLAN 5 asks 192.168.1.1 for the time, with 3 bytes. -/
def vlanSender : Sender := ⟨⟨[2, 0, 0, 0, 0, 1], rfl⟩, 0x0201A8C0, 5, 0xffffffff⟩

def serverEther : EtherAddr := ⟨[2, 0, 0, 0, 0, 9], rfl⟩

theorem netReceive_udpFrame_vlan : netReceive ⟨false, 0x0101A8C0, 5, 65535⟩ ⟨[], 0, fun _ => 0, 0, 0⟩
    ⟨(udpFrame vlanSender (fun _ => 0) serverEther 0x0101A8C0 123 1023 3).1, 60, by decide⟩ =
      some (⟨[], 0, fun _ => 0, 0, 0⟩, some ⟨.inpkt, 46, 123, 1023, 3⟩) :=
  (netReceive_udpFrame vlanSender ⟨false, 0x0101A8C0, 5, 65535⟩ ⟨[], 0, fun _ => 0, 0, 0⟩ (fun _ => 0)
    serverEther 0x0101A8C0 123 1023 3 ⟨_, 60, by decide⟩ (by decide) (by decide) (by decide) (by decide)
    (.inl rfl) rfl rfl (by decide)).2.2

end Uboot.Net.NetReceive
