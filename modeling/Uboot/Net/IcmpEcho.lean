/-
  Uboot.Net.IcmpEcho

  The answer of `NetReceive`, net/net.c, to an ICMP echo request.  It is made in place: the
  link-layer addresses are exchanged in the frame that came in last, the IP and ICMP
  headers are rewritten where the packet stands, which for a reassembled one is the
  buffer of `__NetDefragment`, and the frame is sent with the length of an untagged header and
  the packet.

  The checks in front of it are those of `NetReceive`.
-/

import Uboot.Net.NetSetIP

namespace Uboot.Net.NetReceive

open Uboot.Lib Uboot.Net.Defrag

-- ============================================================================
-- Definitions from the source
-- ============================================================================

def ipprotoIcmp : Nat := 1

def icmpEchoReply : UInt8 := 0

def icmpEchoRequest : UInt8 := 8

/-- `memcpy (&et->et_dest[0], &et->et_src[0], 6)` and the address of this host. -/
def swapEther (ourEther : EtherAddr) (m : Mem UInt8) : Mem UInt8 :=
  (m.copy 0 6 6).write 6 ourEther.1

/-- The changes to the packet of `len` bytes at `ip`. -/
def echoReply (ourIp : Nat) (m : Mem UInt8) (ip : Nat) (len : Int) : Mem UInt8 :=
  let m := m.write (ip + 10) (le16 0)
  let m := m.write (ip + 6) (le16 0)
  let m := m.copy (ip + 16) (ip + 12) 4
  let m := m.write (ip + 12) (le32 ourIp)
  let m := m.write (ip + 10) (cksumField m ip 10)
  let m := m.write (ip + 20) [icmpEchoReply]
  let m := m.write (ip + 22) (le16 0)
  m.write (ip + 22) (cksumField m (ip + 20) ((len - 20) / 2).toNat)

/-- `icmph->type` of an ICMP packet at `ip`. -/
def isEchoRequest (m : Mem UInt8) (ip : Nat) : Bool :=
  (m (ip + 9)).toNat = ipprotoIcmp && m (ip + 20) = icmpEchoRequest

/-- The frame of `n` bytes that `eth_send` is given. -/
def ethSend (m : Mem UInt8) (n : Int) : List UInt8 := m.read 0 n.toNat

/-- `NetReceive`, as far as it answers an echo request: the frame it sends. -/
def netReceiveEcho (s : Host) (ourEther : EtherAddr) (b : PktBuff) (f : Frame) : Option (List UInt8) :=
  if f.len < 14 then none
  else
    match link s f with
    | none => none
    | some l =>
      if ¬ vlanMatches s l.vlanid ∨ l.prot ≠ protIp ∨ ¬ ipHeaderOk s f l.ip then none
      else if ¬ f.isFragment l.ip then
        if isEchoRequest f.bytes l.ip then
          let m := echoReply s.ourIp (swapEther ourEther f.bytes) l.ip (f.ipLen l.ip)
          some (ethSend m (14 + f.ipLen l.ip))
        else none
      else if ¬ s.ipDefrag ∨ f.ipLen l.ip < 20 then none
      else
        let r := netDefragment b (f.fragment l.ip)
        match r.1 with
        | none => none
        | some p =>
          -- the reply is made in `pkt_buff`, `et` still points to the frame
          if isEchoRequest (pktBuffBytes r.2) 0 then some (ethSend (swapEther ourEther f.bytes) (14 + p.len))
          else none

-- ============================================================================
-- An answer
-- ============================================================================

/-- The ICMP message that is answered. -/
def echoMessage (b : PktBuff) (f : Frame) : List UInt8 :=
  let ip := linkSize f
  if f.isFragment ip then
    let r := netDefragment b (f.fragment ip)
    r.2.payload.read 0 r.2.totalLen
  else f.bytes.read (ip + 20) (f.ipLen ip - 20)

/-- The packet `packet` answers the echo request `request` to `src`: a whole IP packet
    with a good header, and in it the request with the type of a reply and a checksum
    that is right over all of the message. -/
structure Answers (src : List UInt8) (request packet : List UInt8) : Prop where
  long : 24 ≤ packet.length
  ipSum : netCksumOk (listMem packet) 0 10 = true
  ipLen : ntohs (listMem packet) 2 = packet.length
  whole : ntohs (listMem packet) 6 % 16384 = 0
  dst : (packet.drop 16).take 4 = src
  type : listMem packet 20 = icmpEchoReply
  data : packet.drop 24 = request.drop 4
  verifies : Verifies (packet.drop 20)

-- ============================================================================
-- The reply in memory
-- ============================================================================

section Reply

variable {m : Mem UInt8} {ip : Nat} (ourIp len : Nat)
variable {front off ttl sum src dst ck rest : List UInt8} {type code : UInt8}

/-- The bytes of the IP header before and after, and of the reply up to its checksum,
    which is taken over the whole words of the message. -/
theorem echoReply_holds (hfront : front.length = 6) (hoff : off.length = 2) (httl : ttl.length = 2)
    (hsum : sum.length = 2) (hsrc : src.length = 4) (hdst : dst.length = 4) (hck : ck.length = 2)
    (h : m.Holds ip (front ++ off ++ ttl ++ sum ++ src ++ dst ++ [type] ++ [code] ++ ck ++ rest)) :
    ∃ m₁ m₂ : Mem UInt8,
      m₁.Holds ip (front ++ le16 0 ++ ttl ++ le16 0 ++ (le32 ourIp ++ src)) ∧
      m₂.Holds (ip + 20) ([icmpEchoReply, code] ++ le16 0 ++ rest) ∧
      (echoReply ourIp m ip len).Holds ip
        (front ++ le16 0 ++ ttl ++ cksumField m₁ ip 10 ++ le32 ourIp ++ src ++
          ([icmpEchoReply, code] ++ cksumField m₂ (ip + 20) ((len - 20 : Int) / 2).toNat ++ rest)) := by
  simp only [echoReply, Mem.copy_eq_write]
  -- the two fields that are cleared, and the destination
  have h₁ := Mem.Holds.write_at (front ++ off ++ ttl) sum
    (src ++ dst ++ [type] ++ [code] ++ ck ++ rest) (le16 0) (x := ip + 10)
    (by simpa using h) (by simp [hfront, hoff, httl]) (by simp [hsum])
  generalize m.write (ip + 10) (le16 0) = m at h₁
  have h₂ := Mem.Holds.write_at front off
    (ttl ++ le16 0 ++ src ++ dst ++ [type] ++ [code] ++ ck ++ rest) (le16 0) (x := ip + 6)
    (by simpa using h₁) (by simp [hfront]) (by simp [hoff])
  generalize m.write (ip + 6) (le16 0) = m at h₂
  have hread : m.read (ip + 12) 4 = src := by
    have hsrc' := Mem.Holds.right (front ++ le16 0 ++ ttl ++ le16 0)
      (src ++ (dst ++ [type] ++ [code] ++ ck ++ rest)) (by simpa using h₂)
    simpa [Mem.Holds, hfront, httl, hsrc] using hsrc'.left
  rw [hread]
  have h₃ := Mem.Holds.write_at (front ++ le16 0 ++ ttl ++ le16 0 ++ src) dst
    ([type] ++ [code] ++ ck ++ rest) src (x := ip + 16)
    (by simpa using h₂) (by simp [hfront, httl, hsrc]) (by rw [hsrc, hdst])
  generalize m.write (ip + 16) src = m at h₃
  have h₄ := Mem.Holds.write_at (front ++ le16 0 ++ ttl ++ le16 0) src
    (src ++ [type] ++ [code] ++ ck ++ rest) (le32 ourIp) (x := ip + 12)
    (by simpa using h₃) (by simp [hfront, httl]) (by simp [hsrc])
  generalize m.write (ip + 12) (le32 ourIp) = m₁ at h₄
  -- the IP header is complete but for its checksum
  have hhead : m₁.Holds ip (front ++ le16 0 ++ ttl ++ le16 0 ++ (le32 ourIp ++ src)) :=
    Mem.Holds.left _ ([type] ++ [code] ++ ck ++ rest) (by simpa using h₄)
  have h₅ := Mem.Holds.write_at (front ++ le16 0 ++ ttl) (le16 0)
    (le32 ourIp ++ src ++ [type] ++ [code] ++ ck ++ rest) (cksumField m₁ ip 10) (x := ip + 10)
    (by simpa using h₄) (by simp [hfront, httl]) (by simp)
  generalize hf₁ : cksumField m₁ ip 10 = f₁ at h₅
  have hf₁len : f₁.length = 2 := by rw [← hf₁, cksumField_length]
  generalize m₁.write (ip + 10) f₁ = m at h₅
  have h₆ := Mem.Holds.write_at (front ++ le16 0 ++ ttl ++ f₁ ++ le32 ourIp ++ src) [type]
    ([code] ++ ck ++ rest) [icmpEchoReply] (x := ip + 20)
    (by simpa using h₅) (by simp [hfront, httl, hsrc, hf₁len]) rfl
  generalize m.write (ip + 20) [icmpEchoReply] = m at h₆
  have h₇ := Mem.Holds.write_at (front ++ le16 0 ++ ttl ++ f₁ ++ le32 ourIp ++ src ++ [icmpEchoReply, code]) ck
    rest (le16 0) (x := ip + 22)
    (by simpa using h₆) (by simp [hfront, httl, hsrc, hf₁len]) (by simp [hck])
  generalize m.write (ip + 22) (le16 0) = m₂ at h₇
  have hbody : m₂.Holds (ip + 20) ([icmpEchoReply, code] ++ le16 0 ++ rest) := by
    have hbody := Mem.Holds.right (front ++ le16 0 ++ ttl ++ f₁ ++ le32 ourIp ++ src)
      ([icmpEchoReply, code] ++ le16 0 ++ rest) (by simpa using h₇)
    simpa [hfront, httl, hsrc, hf₁len] using hbody
  have h₈ := Mem.Holds.write_at (front ++ le16 0 ++ ttl ++ f₁ ++ le32 ourIp ++ src ++ [icmpEchoReply, code]) (le16 0)
    rest (cksumField m₂ (ip + 20) ((len - 20 : Int) / 2).toNat) (x := ip + 22)
    (by simpa using h₇) (by simp [hfront, httl, hsrc, hf₁len]) (by simp)
  exact ⟨m₁, m₂, hhead, hbody, by simpa [hf₁] using h₈⟩

end Reply

-- ============================================================================
-- The reply as an answer
-- ============================================================================

/-- The fields of a packet with a message of at least four bytes. -/
theorem holds_packet (m : Mem UInt8) (ip n : Nat) :
    m.Holds ip (m.read ip 6 ++ m.read (ip + 6) 2 ++ m.read (ip + 8) 2 ++ m.read (ip + 10) 2 ++
      m.read (ip + 12) 4 ++ m.read (ip + 16) 4 ++ [m (ip + 20)] ++ [m (ip + 21)] ++ m.read (ip + 22) 2 ++
      m.read (ip + 24) n) := by
  have hcell (x : Nat) : m.Holds x [m x] := m.holds_read x 1
  simp only [Mem.holds_append, List.length_append, Mem.read_length, List.length_singleton,
    Nat.reduceAdd, Mem.holds_read, hcell, and_self]

/-- A packet with a good header and a message in it. -/
theorem answers_parts {front ttl c₁ our src c₂ rest request : List UInt8} {code : UInt8}
    (hfront : front.length = 6) (httl : ttl.length = 2) (hc₁ : c₁.length = 2) (hour : our.length = 4)
    (hsrc : src.length = 4) (hc₂ : c₂.length = 2) (hdata : request.drop 4 = rest)
    (hlen : 256 * (front[2]).toNat + (front[3]).toNat = 24 + rest.length)
    (hsum : (leWords (front ++ le16 0 ++ ttl ++ c₁ ++ (our ++ src))).sum % 65535 = 0) :
    Answers src request
        (front ++ le16 0 ++ ttl ++ c₁ ++ (our ++ src) ++ ([icmpEchoReply, code] ++ c₂ ++ rest)) ↔
      Verifies ([icmpEchoReply, code] ++ c₂ ++ rest) := by
  have hhead : (front ++ le16 0 ++ ttl ++ c₁ ++ (our ++ src)).length = 20 := by
    simp [hfront, httl, hc₁, hour, hsrc]
  have hmsg : ([icmpEchoReply, code] ++ c₂ ++ rest).length = 4 + rest.length := by
    simp [hc₂]
    omega
  have hlong : (front ++ le16 0 ++ ttl ++ c₁ ++ (our ++ src) ++ ([icmpEchoReply, code] ++ c₂ ++ rest)).length =
      24 + rest.length := by
    rw [List.length_append, hhead, hmsg]
    omega
  have hdrop : (front ++ le16 0 ++ ttl ++ c₁ ++ (our ++ src) ++ ([icmpEchoReply, code] ++ c₂ ++ rest)).drop 20 =
      [icmpEchoReply, code] ++ c₂ ++ rest := List.drop_left' hhead
  refine ⟨fun h => hdrop ▸ h.verifies, fun h => ?_⟩
  have hhold := listMem_holds
    (front ++ le16 0 ++ ttl ++ c₁ ++ (our ++ src) ++ ([icmpEchoReply, code] ++ c₂ ++ rest))
  simp only [Mem.holds_append, List.length_append, hfront, le16_length, httl, hc₁, hour] at hhold
  obtain ⟨⟨⟨⟨⟨hF, hO⟩, -⟩, -⟩, -, hS⟩, ⟨hT, -⟩, -⟩ := hhold
  exact
    { long := by omega
      ipSum := by
        rw [netCksumOk_iff (by decide), listMem_read _ (by omega), List.drop_zero, List.take_left' hhead]
        exact hsum
      ipLen := by
        rw [hlong, ← hlen, ntohs, hF.getElem (i := 2) (by omega), hF.getElem (i := 3) (by omega)]
      whole := by
        have hzero : ntohs _ _ = 0 % 65536 := ntohs_of_holds hO
        rw [hzero]
      dst := by
        rw [← listMem_read _ (by omega), ← hsrc]
        exact hS
      type := by
        have hcell := (Mem.holds_cons.mp hT).1
        simpa [hsrc] using hcell
      data := by
        rw [hdata, ← List.append_assoc]
        exact List.drop_left' (by simp [hfront, httl, hc₁, hour, hsrc, hc₂])
      verifies := hdrop.symm ▸ h }

/-- **The reply to a packet in the frame.**  All of it is right, but for an odd byte that the
    checksum leaves out. -/
theorem answers_echoReply (m : Mem UInt8) (ourIp ip n : Nat) (hlen : ntohs m (ip + 2) = 24 + n) :
    Answers (m.read (ip + 12) 4) (m.read (ip + 20) (4 + n))
        ((echoReply ourIp m ip (24 + n : Nat)).read ip (24 + n)) ↔
      (n % 2 = 1 → (m.read (ip + 24) n).getLast? = some 0) := by
  obtain ⟨m₁, m₂, hhead, hbody, hreply⟩ := echoReply_holds ourIp (24 + n)
    m.read_length m.read_length m.read_length m.read_length m.read_length m.read_length m.read_length
    (holds_packet m ip n)
  have hlt := ntohs_lt m (ip + 2)
  have hwords : (((24 + n : Nat) - 20 : Int) / 2).toNat = (4 + n) / 2 := by omega
  rw [hwords] at hreply
  -- the header with its checksum, and the message with its own
  have hipsum := (sum_leWords_cksumField (n := 10) (by decide) (by simp) hhead (by simp)).1
  have hmsg := verifies_cksumField (n := (4 + n) / 2) (by omega) (by simp) hbody (by simp)
  have hc₁ : (cksumField m₁ ip 10).length = 2 := rfl
  have hc₂ : (cksumField m₂ (ip + 20) ((4 + n) / 2)).length = 2 := rfl
  generalize cksumField m₁ ip 10 = c₁ at hreply hipsum hc₁
  generalize cksumField m₂ (ip + 20) ((4 + n) / 2) = c₂ at hreply hmsg hc₂
  rw [Mem.read_length] at hmsg
  have hpacket : (echoReply ourIp m ip (24 + n : Nat)).read ip (24 + n) =
      m.read ip 6 ++ le16 0 ++ m.read (ip + 8) 2 ++ c₁ ++ (le32 ourIp ++ m.read (ip + 12) 4) ++
        ([icmpEchoReply, m (ip + 21)] ++ c₂ ++ m.read (ip + 24) n) := by
    have hsize := hreply
    rw [Mem.Holds, List.append_assoc _ (le32 ourIp)] at hsize
    rw [← hsize]
    refine congrArg ((echoReply ourIp m ip (24 + n : Nat)).read ip) ?_
    simp [hc₁, hc₂]
    omega
  have hrequest : (m.read (ip + 20) (4 + n)).drop 4 = m.read (ip + 24) n := by
    rw [Mem.drop_read _ (by omega), Nat.add_sub_cancel_left]
  rw [hpacket, ← hmsg]
  have hfield : 256 * ((m.read ip 6)[2]).toNat + ((m.read ip 6)[3]).toNat = 24 + (m.read (ip + 24) n).length := by
    rw [Mem.getElem_read, Mem.getElem_read, Mem.read_length, ← hlen, ntohs]
  exact answers_parts m.read_length m.read_length hc₁ rfl m.read_length hc₂ hrequest hfield hipsum

-- ============================================================================
-- The frame that is sent
-- ============================================================================

section Sent

variable {s : Host} {e : EtherAddr} {b : PktBuff} {f : Frame} {out : List UInt8}

theorem linkSize_cases (f : Frame) : linkSize f = 22 ∨ linkSize f = 14 ∨ linkSize f = 18 := by
  rw [linkSize]
  split
  · exact .inl rfl
  · split
    · exact .inr (.inl rfl)
    · exact .inr (.inr rfl)

theorem getLast?_read (m : Mem UInt8) (a n : Nat) : (m.read a (n + 1)).getLast? = some (m (a + n)) := by
  simp [Mem.read, List.range_succ]

theorem ntohs_listMem (m : Mem UInt8) {a n i : Nat} (h : i + 2 ≤ n) :
    ntohs (listMem (m.read a n)) i = ntohs m (a + i) := by
  rw [ntohs, listMem_of_read m (by omega), listMem_of_read m (by omega), ntohs, Nat.add_assoc]

/-- The fields in front of the fragment offset stay. -/
theorem echoReply_front (ourIp : Nat) (m : Mem UInt8) (len : Int) {ip x : Nat} (hx : x < ip + 6) :
    echoReply ourIp m ip len x = m x := by
  simp only [echoReply]
  rw [Mem.write_outside _ (.inl (by omega)), Mem.write_outside _ (.inl (by omega)),
    Mem.write_outside _ (.inl (by omega)), Mem.write_outside _ (.inl (by omega)),
    Mem.write_outside _ (.inl (by omega)), Mem.copy_outside _ (.inl (by omega)),
    Mem.write_outside _ (.inl (by omega)), Mem.write_outside _ (.inl (by omega))]

/-- A packet that is complete has at least its header. -/
theorem netDefragment_len {b : PktBuff} {ip : Fragment} {p : Packet}
    (h : (netDefragment b ip).1 = some p) : 20 ≤ p.len := by
  unfold netDefragment at h
  split at h
  · cases h
  · dsimp only at h
    split at h
    · cases h
    · split at h
      · cases h
      · simp only [takeFragment, Option.ite_none_right_eq_some, Option.some.injEq] at h
        obtain ⟨-, rfl⟩ := h
        exact Nat.le_add_left 20 _

/-- What is sent, and where the packet stands: in the frame, or in `pkt_buff`. -/
theorem netReceiveEcho_sent (h : netReceiveEcho s e b f = some out) :
    (f.isFragment (linkSize f) = false ∧
      out = ethSend (echoReply s.ourIp (swapEther e f.bytes) (linkSize f) (f.ipLen (linkSize f)))
        (14 + f.ipLen (linkSize f))) ∨
    (f.isFragment (linkSize f) = true ∧
      ∃ n : Nat, 20 ≤ n ∧ out = ethSend (swapEther e f.bytes) (14 + n)) := by
  unfold netReceiveEcho at h
  split at h
  · cases h
  · split at h
    · cases h
    · rename_i l hl
      rw [link_ip hl] at h
      split at h
      · cases h
      · split at h
        · rename_i hfrag
          split at h
          · exact .inl ⟨by simpa using hfrag, (Option.some.inj h).symm⟩
          · cases h
        · rename_i hfrag
          split at h
          · cases h
          · dsimp only at h
            split at h
            · cases h
            · rename_i p hp
              split at h
              · exact .inr ⟨by simpa using hfrag, p.len, netDefragment_len hp, (Option.some.inj h).symm⟩
              · cases h

/-- The addresses of the link layer are the only change in front of the packet. -/
theorem swapEther_behind (e : EtherAddr) (m : Mem UInt8) {x : Nat} (hx : 12 ≤ x) : swapEther e m x = m x := by
  rw [swapEther, Mem.write_outside _ (.inr (by rw [e.2]; omega)), Mem.copy_outside _ (by omega)]

/-- What stands behind the addresses of the link layer in a frame that is sent. -/
theorem drop_ethSend {a n : Nat} (m : Mem UInt8) (h : a ≤ 14 + n) :
    (ethSend m (14 + n)).drop a = m.read a (14 + n - a) := by
  have hn : (14 + n : Int).toNat = 14 + n := by omega
  rw [ethSend, hn, Mem.drop_read _ h, Nat.zero_add]

/-- **Echo replies.**  Of the requests with the eight bytes that they start with, exactly those
    are answered that come in one piece in an untagged frame and do not end in an odd
    byte other than zero. -/
theorem answers_iff (h : netReceiveEcho s e b f = some out) (hlen : 8 ≤ (echoMessage b f).length) :
    Answers (f.bytes.read (linkSize f + 12) 4) (echoMessage b f) (out.drop (linkSize f)) ↔
      f.isFragment (linkSize f) = false ∧ linkSize f = 14 ∧
        ((echoMessage b f).length % 2 = 1 → (echoMessage b f).getLast? = some 0) := by
  rcases netReceiveEcho_sent h with ⟨hfrag, rfl⟩ | ⟨hfrag, n, hn, rfl⟩
  · have hmsg : echoMessage b f = f.bytes.read (linkSize f + 20) (f.ipLen (linkSize f) - 20) := by
      simp [echoMessage, hfrag]
    rw [hmsg] at hlen ⊢
    rw [Mem.read_length] at hlen ⊢
    obtain ⟨n, hn⟩ : ∃ n, f.ipLen (linkSize f) = 24 + n := ⟨f.ipLen (linkSize f) - 24, by omega⟩
    have hlink := linkSize_cases f
    have hfield : ntohs (swapEther e f.bytes) (linkSize f + 2) = 24 + n := by
      rw [← hn, Frame.ipLen, ntohs, ntohs, swapEther_behind _ _ (by omega), swapEther_behind _ _ (by omega)]
    rw [hn, drop_ethSend _ (by omega)]
    by_cases h14 : linkSize f = 14
    · -- the packet begins where an untagged header ends
      have hwhole := answers_echoReply (swapEther e f.bytes) s.ourIp (linkSize f) n hfield
      have hsame (a k : Nat) (ha : 12 ≤ a) : (swapEther e f.bytes).read a k = f.bytes.read a k :=
        Mem.read_congr fun x hx _ => swapEther_behind _ _ (by omega)
      rw [hsame _ _ (by omega), hsame _ _ (by omega), hsame _ _ (by omega)] at hwhole
      have hmsg' : 24 + n - 20 = 4 + n := by omega
      have hpacket : 14 + (24 + n) - linkSize f = 24 + n := by omega
      have hlast : (f.bytes.read (linkSize f + 20) (4 + n)).getLast? = (f.bytes.read (linkSize f + 24) n).getLast? := by
        obtain ⟨k, rfl⟩ : ∃ k, n = k + 1 := ⟨n - 1, by omega⟩
        rw [← Nat.add_assoc, getLast?_read, getLast?_read]
        congr 2
        omega
      have hodd : (4 + n) % 2 = n % 2 := by omega
      rw [hmsg', hpacket, hwhole, hlast, hodd]
      exact ⟨fun hlast => ⟨hfrag, h14, hlast⟩, fun hcond => hcond.2.2⟩
    · -- the frame is cut short
      refine iff_of_false (fun hans => ?_) (by simp [h14])
      have hcut := hans.ipLen
      rw [ntohs_listMem _ (by omega), Mem.read_length, ntohs, echoReply_front _ _ _ (by omega),
        echoReply_front _ _ _ (by omega), ← ntohs, hfield] at hcut
      omega
  · -- the fragment that came in last is sent with its own header
    refine iff_of_false (fun hans => ?_) (by simp [hfrag])
    have hlink := linkSize_cases f
    have hoff := hans.whole
    rw [drop_ethSend _ (by omega), ntohs_listMem _ (by omega), ntohs, swapEther_behind _ _ (by omega),
      swapEther_behind _ _ (by omega), ← ntohs] at hoff
    simp [Frame.isFragment, hoff] at hfrag

end Sent

-- ============================================================================
-- A request of nine bytes and one of ten
-- ============================================================================

/-- An echo request to a host without an address, with the data `ab` or only its `a`. -/
def pingFrame (ipLen ipSum : UInt8) : Frame where
  bytes := fun i => [
    2, 0, 0, 0, 0, 1, 2, 0, 0, 0, 0, 9, 0x08, 0x00,
    0x45, 0, 0, ipLen, 0, 0, 0, 0, 0x40, 1, 0x7a, ipSum, 0, 0, 0, 0, 0, 0, 0, 0,
    8, 0, 0, 0, 0, 7, 0, 1, 0x61, 0x62].getD i 0
  len := 60
  len_lt := sixty_lt

def boardEther : EtherAddr := ⟨[2, 0, 0, 0, 0, 1], by decide⟩

theorem pingFrame_ten_answered : Answers [0, 0, 0, 0] [8, 0, 0, 0, 0, 7, 0, 1, 0x61, 0x62]
    [0x45, 0, 0, 30, 0, 0, 0, 0, 0x40, 1, 0x7a, 0xe0, 0, 0, 0, 0, 0, 0, 0, 0,
      0, 0, 158, 149, 0, 7, 0, 1, 0x61, 0x62] :=
  (answers_iff (s := bareHost) (e := boardEther) (b := unusedBuff) (f := pingFrame 30 0xe0) rfl
    (by decide)).mpr ⟨rfl, rfl, by decide⟩

/-- The checksum of the other one leaves its `a` out. -/
theorem pingFrame_nine_not_answered :
    ¬ ∀ (s : Host) (e : EtherAddr) (b : PktBuff) (f : Frame) (out : List UInt8),
      netReceiveEcho s e b f = some out → 8 ≤ (echoMessage b f).length →
        Answers (f.bytes.read (linkSize f + 12) 4) (echoMessage b f) (out.drop (linkSize f)) := by
  intro hall
  have hans := hall bareHost boardEther unusedBuff (pingFrame 29 0xe1) _ rfl (by decide)
  have hsum : ¬ Verifies [0, 0, 0xff, 0xf7, 0, 7, 0, 1, 0x61] := by decide
  exact hsum hans.verifies

end Uboot.Net.NetReceive
