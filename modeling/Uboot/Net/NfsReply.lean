/-
  Uboot.Net.NfsReply

  `nfs_read_reply` and `nfs_readlink_reply` of net/nfs.c on memory: the packet with whatever
  stands behind it, the `rpc_pkt` on the stack that it is copied to, and
  `nfs_path_buff`.  Where the packet is whole and nothing is overrun, this is what
  `Uboot.Net.Nfs` computes on lists.
-/

import Uboot.Lib.Holds
import Uboot.Net.Nfs

namespace Uboot.Net.NfsReply

open Uboot.Lib Uboot.LibGeneric Uboot.Net.Nfs

-- ============================================================================
-- Definitions from the source
-- ============================================================================

/-- `sizeof (struct rpc_t)`. -/
def rpcSize : Nat := 2048

/-- `sizeof (nfs_path_buff)`. -/
def pathSize : Nat := 2048

/-- `ntohl` of the `i`-th word of a packet at 0. -/
def wordAt (m : Mem UInt8) (i : Nat) : UInt32 := UInt32.ofNat (rdBe32 m (4 * i))

/-- The checks of the id, the reply, the verifier and the accept status and of the NFS
    status. -/
def accepted (rpcId : UInt32) (m : Mem UInt8) : Bool :=
  wordAt m 0 = rpcId && wordAt m 2 = 0 && wordAt m 3 = 0 && wordAt m 5 = 0 && wordAt m 6 = 0

/-- What `nfs_read_reply` leaves and returns, and which bytes, counted from the start of the
    packet, it has stored. -/
structure ReadReply where
  client : Client
  ret : Int
  stored : Extent

/-- `nfs_read_reply`: the header is read whether it has come in or not. -/
def nfsReadReply (c : Client) (m : Mem UInt8) : ReadReply :=
  if wordAt m 0 ≠ c.rpcId then ⟨c, -1, ⟨replySize, 0⟩⟩
  else if accepted c.rpcId m then
    let rlen := wordAt m 24
    ⟨storeBlock c (m.read replySize rlen.toNat) c.offset, int32 rlen, ⟨replySize, rlen.toNat⟩⟩
  else if wordAt m 2 ≠ 0 ∨ wordAt m 5 ≠ 0 then ⟨c, -9999, ⟨replySize, 0⟩⟩
  else ⟨c, int32 (-wordAt m 6), ⟨replySize, 0⟩⟩

/-- `strlen` of the string in `nfs_path_buff`. -/
def pathLen (m : Mem UInt8) (buff : Nat) : Nat := (cstr (m.read buff pathSize)).length

/-- `nfs_readlink_reply` with `nfs_path` at `buff`.  `none`: the packet is longer than
    `rpc_pkt`, which stands on the stack with `stack` in it. -/
def nfsReadlinkReply (rpcId : UInt32) (buff : Nat) (ram : Ram) (stack m : Mem UInt8) (len : Nat) :
    Option (Ram × Int) :=
  if rpcSize < len then none
  else
    let rpc := stack.write 0 (m.read 0 len)
    if ¬ accepted rpcId rpc then some (ram, -1)
    else
      let rlen := (wordAt rpc 7).toNat
      let text := rpc.read 32 rlen
      if rpc 32 ≠ 47 then
        let ram := ram.store (buff + pathLen ram.cells buff) [47, 0]
        let pathlen := pathLen ram.cells buff
        let ram := ram.store (buff + pathlen) text
        some (ram.store (u32 (buff + pathlen + rlen)) [0], 0)
      else
        let ram := ram.store buff text
        some (ram.store (u32 (buff + rlen)) [0], 0)

-- ============================================================================
-- The client on lists
-- ============================================================================

section Lists

variable (c : Client) (pkt : List UInt8)

theorem wordAt_listMem (i : Nat) : wordAt (listMem pkt) i = word pkt i := by
  simp only [wordAt, word, rdBe32, listMem, Nat.add_zero]
  congr 1
  omega

theorem accepted_listMem : accepted c.rpcId (listMem pkt) = nfsAccepted c pkt := by
  simp only [accepted, nfsAccepted, rpcAccepted, replyData, wordAt_listMem]
  rfl

/-- With zeros behind the packet, this is the reply as the state machine takes it. -/
theorem nfsReadReply_listMem :
    Nfs.nfsReadReply c pkt = ((nfsReadReply c (listMem pkt)).client, (nfsReadReply c (listMem pkt)).ret) := by
  have hbytes (n : Nat) : bytesAt pkt replySize n = (listMem pkt).read replySize n := rfl
  simp only [Nfs.nfsReadReply, nfsReadReply, accepted_listMem, wordAt_listMem, replyData, hbytes]
  split_ifs <;> rfl

end Lists

-- ============================================================================
-- Bounds
-- ============================================================================

/-- What is stored is part of the packet of `len` bytes, and `NfsHandler`, which adds a
    positive return value to `nfs_offset`, adds as much as is stored. -/
structure StoresPacket (len : Nat) (r : ReadReply) : Prop where
  inside : ∀ x ∈ r.stored.cells, x < len
  added : r.ret.toNat = r.stored.len

/-- The run comes to an end, has written to the buffer at `buff` only and leaves a string
    in it. -/
def LeavesPath (buff : Nat) (r : Option (Ram × Int)) : Prop :=
  ∃ ram ret, r = some (ram, ret) ∧ ram.WritesIn ⟨buff, pathSize⟩ ∧ ∃ i < pathSize, ram.cells (buff + i) = 0

/-- The data of an accepted reply have come in, and an error number is not taken for a
    length. -/
structure ReadFits (rpcId : UInt32) (m : Mem UInt8) (len : Nat) : Prop where
  data : accepted rpcId m → (wordAt m 24).toNat < 2147483648 ∧
    (wordAt m 24 ≠ 0 → replySize + (wordAt m 24).toNat ≤ len)
  status : wordAt m 0 = rpcId → accepted rpcId m = false → wordAt m 2 = 0 → wordAt m 5 = 0 →
    (wordAt m 6).toNat ≤ 2147483648

/-- The reply has room in `rpc_pkt`, and the new path with its terminator in the buffer, where
    a string of `n` bytes stands. -/
structure ReadlinkFits (rpcId : UInt32) (n : Nat) (rpc : Mem UInt8) (len : Nat) : Prop where
  packet : len ≤ rpcSize
  relative : accepted rpcId rpc → rpc 32 ≠ 47 → n + 1 + (wordAt rpc 7).toNat < pathSize
  absolute : accepted rpcId rpc → rpc 32 = 47 → (wordAt rpc 7).toNat < pathSize

section Read

variable {c : Client} {m : Mem UInt8} {len : Nat}

/-- A word as an `int`, as far as it is positive. -/
theorem int32_toNat (w : UInt32) : (int32 w).toNat = if w.toNat < 2147483648 then w.toNat else 0 := by
  have hlt := w.toNat_lt
  have hval : w.toBitVec.toNat = w.toNat := rfl
  rw [int32, BitVec.toInt_eq_toNat_cond, hval]
  split_ifs <;> omega

theorem int32_neg_toNat_eq_zero (w : UInt32) : (int32 (-w)).toNat = 0 ↔ w.toNat ≤ 2147483648 := by
  have hlt := w.toNat_lt
  rw [int32_toNat, UInt32.toNat_neg, UInt32.size]
  split_ifs <;> omega

theorem accepted_id {rpcId : UInt32} (h : accepted rpcId m = true) : wordAt m 0 = rpcId := by
  simp only [accepted, Bool.and_eq_true, decide_eq_true_eq] at h
  exact h.1.1.1.1

/-- A reply that stores nothing. -/
theorem storesPacket_none (c : Client) (ret : Int) : StoresPacket len ⟨c, ret, ⟨replySize, 0⟩⟩ ↔ ret.toNat = 0 := by
  refine ⟨fun h => h.added, fun h => ⟨fun x hx => ?_, h⟩⟩
  simp only [Extent.mem_cells, Extent.stop] at hx
  omega

theorem storesPacket_iff : StoresPacket len (nfsReadReply c m) ↔ ReadFits c.rpcId m len := by
  unfold nfsReadReply
  split
  · rename_i hid
    rw [storesPacket_none]
    exact iff_of_true rfl ⟨fun hacc => absurd (accepted_id hacc) hid, fun h => absurd h hid⟩
  · rename_i hid
    rw [not_not] at hid
    split
    · -- the data are stored
      rename_i hacc
      dsimp only
      have hne : wordAt m 24 ≠ 0 ↔ (wordAt m 24).toNat ≠ 0 := by rw [Ne, Ne, ← UInt32.toNat_inj]; rfl
      constructor
      · rintro ⟨hinside, hadded⟩
        rw [int32_toNat] at hadded
        refine ⟨fun _ => ⟨?_, fun hpos => ?_⟩, fun _ hrej => absurd hacc (by simp [hrej])⟩
        · by_contra hbig
          rw [if_neg hbig] at hadded
          dsimp only at hadded
          omega
        · rw [hne] at hpos
          have hlast := hinside (replySize + (wordAt m 24).toNat - 1)
          simp only [Extent.mem_cells, Extent.stop] at hlast
          omega
      · rintro ⟨hdata, -⟩
        obtain ⟨hlt, hin⟩ := hdata hacc
        rw [hne] at hin
        refine ⟨fun x hx => ?_, ?_⟩
        · simp only [Extent.mem_cells, Extent.stop] at hx
          omega
        · rw [int32_toNat, if_pos hlt]
    · rename_i hacc
      rw [Bool.not_eq_true] at hacc
      split
      · rename_i hstatus
        rw [storesPacket_none]
        refine iff_of_true rfl ⟨fun h => absurd h (by simp [hacc]), fun _ _ h₂ h₅ => ?_⟩
        exact absurd hstatus (by simp [h₂, h₅])
      · -- the number of an NFS error
        rename_i hstatus
        rw [not_or, not_not, not_not] at hstatus
        rw [storesPacket_none, int32_neg_toNat_eq_zero]
        refine ⟨fun h => ⟨fun hacc' => absurd hacc' (by simp [hacc]), fun _ _ _ _ => h⟩, fun h => ?_⟩
        exact h.status hid hacc hstatus.1 hstatus.2

end Read

section Readlink

variable {rpcId : UInt32} {buff len : Nat} {ram : Ram} {stack m : Mem UInt8} {t : List UInt8}

/-- The string in the buffer, when its terminator is there. -/
theorem cstr_read {w : List UInt8} (h : m.Holds buff (w ++ [0])) (hlen : w.length < pathSize) :
    cstr (m.read buff pathSize) = cstr w := by
  obtain ⟨k, hk⟩ := Nat.exists_eq_add_of_lt hlen
  have hread : m.read buff pathSize = w ++ 0 :: m.read (buff + (w.length + 1)) k := by
    have hall : m.read buff (w.length + 1) = w ++ [0] := by simpa [Mem.Holds] using h
    rw [hk, show w.length + k + 1 = w.length + 1 + k by omega, Mem.read_add, hall, List.append_assoc]
    rfl
  rw [hread, cstr_append_nul]

/-- Its length, also when the terminator stands just behind the buffer. -/
theorem pathLen_of_holds (h : m.Holds buff (t ++ [0])) (ht : 0 ∉ t) (hlen : t.length ≤ pathSize) :
    pathLen m buff = t.length := by
  have hnul : cstr t = t := by
    rw [← cstr_append_nul t [], cstr_append ht]
  rcases Nat.eq_or_lt_of_le hlen with heq | hlt
  · rw [pathLen, ← heq, (Mem.holds_append.mp h).1, hnul]
  · rw [pathLen, cstr_read h hlt, hnul]

theorem holds_store {w bs : List UInt8} (h : ram.cells.Holds buff w) :
    (ram.store (buff + w.length) bs).cells.Holds buff (w ++ bs) := by
  rw [Ram.store_cells, Mem.holds_append]
  exact ⟨h.congr fun x _ hx => Mem.write_outside _ (.inl hx), Mem.holds_write _ _ _⟩

/-- What `strcat (nfs_path, "/")` leaves. -/
theorem holds_slash (h : ram.cells.Holds buff (t ++ [0])) :
    (ram.store (buff + t.length) [47, 0]).cells.Holds buff (t ++ [47] ++ [0]) := by
  rw [List.append_assoc]
  exact holds_store (Mem.holds_append.mp h).1

/-- The text and the terminator behind it, `k` bytes into the buffer. -/
theorem leavesPath_text {k : Nat} {text : List UInt8} (hram : ram.WritesIn ⟨buff, pathSize⟩) (hk : k < pathSize)
    (hbuff : buff + pathSize ≤ 4294967296) :
    LeavesPath buff (some ((ram.store (buff + k) text).store (u32 (buff + k + text.length)) [0], 0)) ↔
      k + text.length < pathSize := by
  constructor
  · rintro ⟨ram', ret, hsome, hin, -⟩
    obtain ⟨rfl, rfl⟩ := Prod.mk.inj (Option.some.inj hsome)
    rw [Ram.writesIn_store, Ram.writesIn_store, Extent.cells_subset_iff, Extent.cells_subset_iff] at hin
    obtain ⟨⟨-, htext⟩, hnul⟩ := hin
    simp only [u32, List.length_singleton, pathSize] at hnul htext hk hbuff ⊢
    omega
  · intro hfits
    have haddr : u32 (buff + k + text.length) = buff + (k + text.length) := by
      rw [u32_of_lt (by omega), Nat.add_assoc]
    refine ⟨_, _, rfl, ?_, k + text.length, hfits, ?_⟩
    · rw [Ram.writesIn_store, Ram.writesIn_store, Extent.cells_subset_iff, Extent.cells_subset_iff, haddr]
      simp only [List.length_singleton]
      exact ⟨⟨hram, by omega⟩, by omega⟩
    · rw [haddr, Ram.store_cells]
      exact Mem.write_inside _ (i := 0) (by simp)

theorem readlink_iff (h : ram.cells.Holds buff (t ++ [0])) (ht : 0 ∉ t) (hlen : t.length < pathSize)
    (hlog : ram.log = []) (hbuff : buff + pathSize ≤ 4294967296) :
    LeavesPath buff (nfsReadlinkReply rpcId buff ram stack m len) ↔
      ReadlinkFits rpcId t.length (stack.write 0 (m.read 0 len)) len := by
  have hzero : ram.cells (buff + t.length) = 0 := (Mem.holds_append.mp h).2.getElem (i := 0) (by simp)
  unfold nfsReadlinkReply
  split
  · rename_i hlong
    refine iff_of_false ?_ fun hfits => absurd hfits.packet (by omega)
    rintro ⟨ram, ret, hnone, -⟩
    cases hnone
  · rename_i hshort
    dsimp only
    generalize stack.write 0 (m.read 0 len) = rpc
    split
    · -- nothing is written
      rename_i hacc
      refine iff_of_true ⟨ram, -1, rfl, ?_, t.length, hlen, hzero⟩
        ⟨by omega, fun h => absurd h hacc, fun h => absurd h hacc⟩
      rw [Ram.WritesIn, hlog]
      exact fun w hw => absurd hw List.not_mem_nil
    · rename_i hacc
      rw [not_not] at hacc
      split
      · -- a slash and the text behind the path
        rename_i hrel
        have hpath : pathLen (ram.store (buff + t.length) [47, 0]).cells buff = t.length + 1 := by
          rw [pathLen_of_holds (holds_slash h) (by simp [ht])
            (by rw [List.length_append]; exact hlen), List.length_append,
            List.length_singleton]
        have hfits : ReadlinkFits rpcId t.length rpc len ↔ t.length + 1 + (wordAt rpc 7).toNat < pathSize :=
          ⟨fun hfits => hfits.relative hacc hrel,
            fun hfits => ⟨by omega, fun _ _ => hfits, fun _ habs => absurd habs hrel⟩⟩
        have hlength := Mem.read_length rpc (a := 32) (n := (wordAt rpc 7).toNat)
        rw [pathLen_of_holds h ht (Nat.le_of_lt hlen), hpath, hfits]
        generalize rpc.read 32 (wordAt rpc 7).toNat = text at hlength
        rw [← hlength]
        by_cases hroom : t.length + 1 < pathSize
        · refine leavesPath_text ?_ hroom hbuff
          rw [Ram.writesIn_store, Ram.WritesIn, hlog, Extent.cells_subset_iff]
          refine ⟨fun w hw => absurd hw List.not_mem_nil, .inr ⟨by omega, ?_⟩⟩
          simp only [List.length_cons, List.length_nil]
          omega
        · -- `strcat` already writes behind the buffer
          refine iff_of_false ?_ (by omega)
          rintro ⟨ram', ret, hsome, hin, -⟩
          obtain ⟨rfl, rfl⟩ := Prod.mk.inj (Option.some.inj hsome)
          rw [Ram.writesIn_store, Ram.writesIn_store, Ram.writesIn_store, Extent.cells_subset_iff] at hin
          have hslash := hin.1.1.2
          simp only [List.length_cons, List.length_nil] at hslash
          omega
      · rename_i habs
        rw [not_not] at habs
        have hfits : ReadlinkFits rpcId t.length rpc len ↔ 0 + (wordAt rpc 7).toNat < pathSize := by
          rw [Nat.zero_add]
          exact ⟨fun hfits => hfits.absolute hacc habs,
            fun hfits => ⟨by omega, fun _ hrel => absurd habs hrel, fun _ _ => hfits⟩⟩
        have hlength := Mem.read_length rpc (a := 32) (n := (wordAt rpc 7).toNat)
        rw [hfits]
        generalize rpc.read 32 (wordAt rpc 7).toNat = text at hlength
        rw [← hlength]
        refine leavesPath_text (k := 0) ?_ (by decide) hbuff
        rw [Ram.WritesIn, hlog]
        exact fun w hw => absurd hw List.not_mem_nil

/-- The string that is left behind `w` and a text. -/
theorem cstr_store_text {w : List UInt8} (text : List UInt8) (h : ram.cells.Holds buff w) (hroom : w.length + text.length < pathSize)
    (hbuff : buff + pathSize ≤ 4294967296) :
    cstr (((ram.store (buff + w.length) text).store (u32 (buff + w.length + text.length)) [0]).cells.read
      buff pathSize) = cstr (w ++ text) := by
  have haddr : u32 (buff + w.length + text.length) = buff + (w ++ text).length := by
    rw [u32_of_lt (by omega), List.length_append, Nat.add_assoc]
  rw [haddr]
  exact cstr_read (holds_store (holds_store h)) (by rw [List.length_append]; exact hroom)

/-- When the lengths fit and there are zeros behind the packet, the string in the buffer is the path of the
    state machine. -/
theorem nfsReadlinkReply_listMem (c : Client) (pkt : List UInt8) (h : ram.cells.Holds buff (c.path ++ [0]))
    (ht : 0 ∉ c.path) (hlen : c.path.length < pathSize) (hbuff : buff + pathSize ≤ 4294967296)
    (hfits : ReadlinkFits c.rpcId c.path.length (listMem pkt) pkt.length) :
    ∃ r, nfsReadlinkReply c.rpcId buff ram (fun _ => 0) (listMem pkt) pkt.length = some r ∧
      Nfs.nfsReadlinkReply c pkt =
        if r.2 = 0 then some { c with path := cstr (r.1.cells.read buff pathSize) } else none := by
  have hrpc : Mem.write (fun _ => 0) 0 ((listMem pkt).read 0 pkt.length) = listMem pkt := by
    have hall : (listMem pkt).read 0 pkt.length = pkt := listMem_holds pkt
    funext x
    rw [hall, Mem.write, if_pos (Nat.zero_le x), Nat.sub_zero, listMem]
  have hbytes (n : Nat) : replyBytes pkt 2 n = (listMem pkt).read 32 n := rfl
  have hcell : pkt.getD 32 0 = listMem pkt 32 := rfl
  have hword : (wordAt (listMem pkt) 7).toNat = (replyData pkt 1).toNat := by rw [wordAt_listMem]; rfl
  simp only [nfsReadlinkReply, Nfs.nfsReadlinkReply, hrpc, ← accepted_listMem, hbytes, hcell, ← hword]
  rw [if_neg (Nat.not_lt.mpr hfits.packet)]
  have htext := Mem.read_length (listMem pkt) (a := 32) (n := (wordAt (listMem pkt) 7).toNat)
  by_cases hacc : accepted c.rpcId (listMem pkt) = true
  · rw [if_neg (not_not_intro hacc), if_pos hacc]
    by_cases hrel : listMem pkt 32 ≠ 47
    · have hroom := hfits.relative hacc hrel
      have hslash := holds_slash h
      have hpath : pathLen (ram.store (buff + c.path.length) [47, 0]).cells buff = (c.path ++ [47]).length :=
        pathLen_of_holds hslash (by simp [ht]) (by rw [List.length_append]; exact hlen)
      rw [if_pos hrel, if_pos hrel, pathLen_of_holds h ht (Nat.le_of_lt hlen), hpath]
      refine ⟨_, rfl, ?_⟩
      have hcstr := cstr_store_text ((listMem pkt).read 32 _) (Mem.holds_append.mp hslash).1
        (by rw [List.length_append, htext]; exact hroom) hbuff
      rw [htext] at hcstr
      rw [if_pos rfl, hcstr, List.append_assoc, List.singleton_append]
    · have hroom := hfits.absolute hacc (not_not.mp hrel)
      rw [if_neg hrel, if_neg hrel]
      refine ⟨_, rfl, ?_⟩
      have hnone : ram.cells.Holds buff [] := rfl
      have hcstr := cstr_store_text ((listMem pkt).read 32 _) hnone
        (by rw [htext]; simpa using hroom) hbuff
      rw [htext] at hcstr
      rw [if_pos rfl]
      exact congrArg (fun p => some { c with path := p }) hcstr.symm
  · rw [if_pos hacc, if_neg hacc]
    exact ⟨_, rfl, rfl⟩

end Readlink

-- ============================================================================
-- Both replies
-- ============================================================================

/-- **Bounds of NFS replies.**  What is asked of both parsers holds exactly when the lengths in the
    packet fit: the data into the packet, the path into its buffer. -/
theorem nfsReplies_iff (c : Client) (m stack : Mem UInt8) (len buff : Nat) (ram : Ram) (t : List UInt8)
    (hpath : ram.cells.Holds buff (t ++ [0])) (ht : 0 ∉ t) (hlen : t.length < pathSize)
    (hlog : ram.log = []) (hbuff : buff + pathSize ≤ 4294967296) :
    (StoresPacket len (nfsReadReply c m) ↔ ReadFits c.rpcId m len) ∧
      (LeavesPath buff (nfsReadlinkReply c.rpcId buff ram stack m len) ↔
        ReadlinkFits c.rpcId t.length (stack.write 0 (m.read 0 len)) len) :=
  ⟨storesPacket_iff, readlink_iff hpath ht hlen hlog hbuff⟩

/-- An accepted reply to the request 0 that announces `rlen` bytes of data, and four bytes. -/
def readReply (rlen : UInt8) : Mem UInt8 := listMem (List.replicate 99 0 ++ [rlen, 1, 2, 3, 4])

def emptyRam : Ram := ⟨fun _ => 0, []⟩

theorem nfsReplies_four : StoresPacket 104 (nfsReadReply bootClient (readReply 4)) ∧
    LeavesPath 4096 (nfsReadlinkReply 0 4096 emptyRam (fun _ => 0) (readReply 4) 104) :=
  have hiff := nfsReplies_iff bootClient (readReply 4) (fun _ => 0) 104 4096 emptyRam [] rfl (by simp) (by decide)
    rfl (by decide)
  ⟨hiff.1.mpr ⟨fun _ => ⟨by decide, fun _ => by decide⟩, fun _ _ _ _ => by decide⟩,
    hiff.2.mpr ⟨by decide, fun _ _ => by decide, fun _ _ => by decide⟩⟩

/-- Five bytes are announced, and one behind the packet is stored. -/
theorem nfsReplies_five_not :
    ¬ ∀ (c : Client) (m stack : Mem UInt8) (len buff : Nat) (ram : Ram) (t : List UInt8),
      ram.cells.Holds buff (t ++ [0]) → 0 ∉ t → t.length < pathSize → ram.log = [] →
        buff + pathSize ≤ 4294967296 → StoresPacket len (nfsReadReply c m) ∧
          LeavesPath buff (nfsReadlinkReply c.rpcId buff ram stack m len) := by
  intro hall
  have hstores := (hall bootClient (readReply 5) (fun _ => 0) 104 4096 emptyRam [] rfl (by simp) (by decide) rfl
    (by decide)).1
  have hstored : (nfsReadReply bootClient (readReply 5)).stored = ⟨100, 5⟩ := by decide
  have hlast := hstores.inside 104 (by rw [hstored]; exact ⟨by decide, by decide⟩)
  exact absurd hlast (Nat.lt_irrefl 104)

end Uboot.Net.NfsReply
