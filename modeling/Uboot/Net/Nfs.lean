/-
  Uboot.Net.Nfs

  The NFS client of net/nfs.c: the request dispatcher `NfsSend`, the five reply
  parsers and the state machine `NfsHandler`, which is called once for every UDP
  datagram that arrives, and `NfsStart`.

  `unsigned long`, `int` and the RPC words are 32 bits wide.  Console output,
  timeouts and the resolution of addresses are left out.  A datagram is the list of
  its bytes; where the source reads on past its end the model reads zeros.

  Two results: which packets with a foreign transaction id leave the client alone,
  and how many symbolic links a server can make the client follow.
-/

import Uboot.Lib.Run
import Uboot.Lib.Ram
import Uboot.LibGeneric.Vsprintf

namespace Uboot.Net.Nfs

open Uboot.Lib Uboot.LibGeneric

-- ============================================================================
-- State
-- ============================================================================

/-- `NfsState`. -/
inductive NfsState
  | prclookupProgMountReq
  | prclookupProgNfsReq
  | mountReq
  | umountReq
  | lookupReq
  | readReq
  | readlinkReq
  deriving DecidableEq, Repr

/-- `NetState`, and what `NfsDownloadState` holds of it. -/
inductive NetState
  | netloopContinue
  | netloopSuccess
  | netloopFail
  deriving DecidableEq, Repr

/-- The body of an RPC call. -/
inductive Call
  | getport (prog vers : Nat)
  | mount (path : List UInt8)
  | umountall
  | lookup (dirfh fname : List UInt8)
  | read (filefh : List UInt8) (offset len : UInt32)
  | readlink (filefh : List UInt8)
  deriving DecidableEq, Repr

/-- A request as `rpc_req` sends it. -/
structure Request where
  id : UInt32
  sport : UInt32
  call : Call
  deriving DecidableEq, Repr

/-- A UDP datagram as the handler receives it. -/
structure Datagram where
  dest : Nat
  data : List UInt8
  deriving DecidableEq, Repr

/-- The globals of the client.  `rpcId` is the id of the outstanding request;
    `path` and `filename` are the strings `nfs_path` and `nfs_filename` point to. -/
structure Client where
  rpcId : UInt32
  fsMounted : Bool
  offset : UInt32
  len : UInt32
  dirfh : List UInt8
  filefh : List UInt8
  downloadState : NetState
  netState : NetState
  mountPort : UInt32
  nfsPort : UInt32
  ourPort : Nat
  state : NfsState
  path : List UInt8
  filename : List UInt8
  loadAddr : Nat
  ram : Ram
  xferSize : Nat
  sent : List Request

-- ============================================================================
-- Definitions from the source: paths and packets
-- ============================================================================

def progPortmap : Nat := 100000
def progNfs : Nat := 100003
def progMount : Nat := 100005

def sunrpcPort : UInt32 := 111

/-- `NFS_FHSIZE`. -/
def nfsFhsize : Nat := 32

/-- `NFS_READ_SIZE`. -/
def nfsReadSize : UInt32 := 1024

def nfserrIsdir : Int := 21
def nfserrInval : Int := 22

/-- `sizeof (rpc_pkt.u.reply)`. -/
def replySize : Nat := 100

/-- `ntohl` of the `i`-th word of a packet. -/
def word (pkt : List UInt8) (i : Nat) : UInt32 :=
  let byte (k : Nat) := (pkt.getD (4 * i + k) 0).toNat
  UInt32.ofNat (256 * (256 * (256 * byte 0 + byte 1) + byte 2) + byte 3)

/-- The value of a word stored in an `int`. -/
def int32 (w : UInt32) : Int := w.toBitVec.toInt

/-- `n` bytes of a packet from index `i` on. -/
def bytesAt (pkt : List UInt8) (i n : Nat) : List UInt8 :=
  (List.range n).map fun k => pkt.getD (i + k) 0

/-- `rpc_pkt.u.reply.data[i]`. -/
def replyData (pkt : List UInt8) (i : Nat) : UInt32 := word pkt (6 + i)

/-- The bytes of `rpc_pkt.u.reply.data + i`. -/
def replyBytes (pkt : List UInt8) (i n : Nat) : List UInt8 := bytesAt pkt (24 + 4 * i) n

/-- `basename`: what follows the last slash.  (Without a slash the source steps in
    front of the string; the callers below always have one.) -/
def basename (path : List UInt8) : List UInt8 := (path.reverse.takeWhile (· ≠ 47)).reverse

/-- `dirname`: what precedes the last slash. -/
def dirname (path : List UInt8) : List UInt8 := (path.reverse.dropWhile (· ≠ 47)).tail.reverse

-- ============================================================================
-- Definitions from the source: requests
-- ============================================================================

/-- `rpc_req`. -/
def rpcReq (c : Client) (prog : Nat) (call : Call) : Client :=
  let id := c.rpcId + 1
  let sport := if prog = progPortmap then sunrpcPort
    else if prog = progMount then c.mountPort else c.nfsPort
  { c with rpcId := id, sent := c.sent ++ [⟨id, sport, call⟩] }

/-- `nfs_umountall_req`: nothing is sent when nothing is mounted. -/
def nfsUmountallReq (c : Client) : Client :=
  if c.mountPort = 0xFFFFFFFF ∨ c.fsMounted = false then c
  else rpcReq c progMount .umountall

def nfsSend (c : Client) : Client :=
  match c.state with
  | .prclookupProgMountReq => rpcReq c progPortmap (.getport progMount 1)
  | .prclookupProgNfsReq => rpcReq c progPortmap (.getport progNfs 2)
  | .mountReq => rpcReq c progMount (.mount c.path)
  | .umountReq => nfsUmountallReq c
  | .lookupReq => rpcReq c progNfs (.lookup c.dirfh c.filename)
  | .readReq => rpcReq c progNfs (.read c.filefh c.offset c.len)
  | .readlinkReq => rpcReq c progNfs (.readlink c.filefh)

-- ============================================================================
-- Definitions from the source: replies
-- ============================================================================

/-- The checks all parsers begin with: transaction id, reply status, verifier and
    accept status. -/
def rpcAccepted (c : Client) (pkt : List UInt8) : Bool :=
  word pkt 0 = c.rpcId && word pkt 2 = 0 && word pkt 3 = 0 && word pkt 5 = 0

/-- The same, and the NFS status word. -/
def nfsAccepted (c : Client) (pkt : List UInt8) : Bool :=
  rpcAccepted c pkt && replyData pkt 0 = 0

/-- `rpc_lookup_reply`; `none` is the return value -1. -/
def rpcLookupReply (c : Client) (prog : Nat) (pkt : List UInt8) : Option Client :=
  if rpcAccepted c pkt then
    some (if prog = progMount then { c with mountPort := replyData pkt 0 }
      else { c with nfsPort := replyData pkt 0 })
  else none

def nfsMountReply (c : Client) (pkt : List UInt8) : Option Client :=
  if nfsAccepted c pkt then
    some { c with fsMounted := true, dirfh := replyBytes pkt 1 nfsFhsize }
  else none

def nfsUmountallReply (c : Client) (pkt : List UInt8) : Option Client :=
  if rpcAccepted c pkt then
    some { c with fsMounted := false, dirfh := List.replicate nfsFhsize 0 }
  else none

def nfsLookupReply (c : Client) (pkt : List UInt8) : Option Client :=
  if nfsAccepted c pkt then some { c with filefh := replyBytes pkt 1 nfsFhsize } else none

/-- `nfs_readlink_reply`: the link text is appended to the path, or replaces it when
    it begins with a slash. -/
def nfsReadlinkReply (c : Client) (pkt : List UInt8) : Option Client :=
  if nfsAccepted c pkt then
    let rlen := (replyData pkt 1).toNat
    let text := replyBytes pkt 2 rlen
    some { c with
      path := if pkt.getD 32 0 ≠ 47 then cstr (c.path ++ 47 :: text) else cstr text }
  else none

/-- `store_block` to RAM. -/
def storeBlock (c : Client) (src : List UInt8) (offset : UInt32) : Client :=
  let newsize := u32 (offset.toNat + src.length)
  { c with
    ram := c.ram.store (u32 (c.loadAddr + offset.toNat)) src
    xferSize := if c.xferSize < newsize then newsize else c.xferSize }

/-- `nfs_read_reply`: the client after the block is stored, and the return value. -/
def nfsReadReply (c : Client) (pkt : List UInt8) : Client × Int :=
  if word pkt 0 ≠ c.rpcId then (c, -1)
  else if nfsAccepted c pkt then
    let rlen := replyData pkt 18
    (storeBlock c (bytesAt pkt replySize rlen.toNat) c.offset, int32 rlen)
  else if word pkt 2 ≠ 0 ∨ word pkt 5 ≠ 0 then (c, -9999)
  else (c, int32 (-replyData pkt 0))

-- ============================================================================
-- Definitions from the source: the state machine
-- ============================================================================

/-- A change of state and the request that belongs to it. -/
def goto (c : Client) (s : NfsState) : Client := nfsSend { c with state := s }

/-- What `NfsHandler` makes of the return value of `nfs_read_reply`. -/
def afterRead (c : Client) (rlen : Int) : Client :=
  if 0 < rlen then nfsSend { c with offset := c.offset + UInt32.ofInt rlen }
  else if rlen = -nfserrIsdir ∨ rlen = -nfserrInval then goto c .readlinkReq
  else if rlen = 0 then goto { c with downloadState := .netloopSuccess } .umountReq
  else goto c .umountReq

def nfsHandler (c : Client) (d : Datagram) : Client :=
  if d.dest ≠ c.ourPort then c
  else
    match c.state with
    -- the results of the two port lookups are not looked at
    | .prclookupProgMountReq =>
      goto ((rpcLookupReply c progMount d.data).getD c) .prclookupProgNfsReq
    | .prclookupProgNfsReq => goto ((rpcLookupReply c progNfs d.data).getD c) .mountReq
    | .mountReq =>
      match nfsMountReply c d.data with
      | none => goto c .umountReq
      | some c => goto c .lookupReq
    | .umountReq =>
      match nfsUmountallReply c d.data with
      | none => { c with netState := .netloopFail }
      | some c => { c with netState := c.downloadState }
    | .lookupReq =>
      match nfsLookupReply c d.data with
      | none => goto c .umountReq
      | some c => goto { c with offset := 0, len := nfsReadSize } .readReq
    | .readlinkReq =>
      match nfsReadlinkReply c d.data with
      | none => goto c .umountReq
      | some c => goto { c with filename := basename c.path, path := dirname c.path } .mountReq
    | .readReq => afterRead (nfsReadReply c d.data).1 (nfsReadReply c d.data).2

/-- Two upper-case hexadecimal digits, `%02lX`. -/
def hex2 (n : Nat) : List UInt8 :=
  let digit (k : Nat) : UInt8 := UInt8.ofNat (if k < 10 then 48 + k else 55 + k)
  [digit (n / 16 % 16), digit (n % 16)]

/-- The path `NfsStart` begins with: the boot file without its server part, or a name
    made of our address. -/
def startPath (bootFile : List UInt8) (ourIP : UInt32) : List UInt8 :=
  if bootFile = [] then
    let ip := ourIP.toNat
    ascii "/nfsroot/" ++ hex2 ip ++ hex2 (ip / 256) ++ hex2 (ip / 65536) ++ hex2 (ip / 16777216) ++
      ascii ".img"
  else if 58 ∈ bootFile then (bootFile.dropWhile (· ≠ 58)).tail
  else bootFile

/-- `NfsStart`, after `NetLoop` has set `NetState` and cleared the transfer size.  The
    other globals of `c` are those of the transfer before. -/
def nfsStart (c : Client) (bootFile : List UInt8) (ourIP : UInt32) : Client :=
  let path := startPath bootFile ourIP
  nfsSend { c with
    downloadState := .netloopFail
    netState := .netloopContinue
    xferSize := 0
    filename := basename path
    path := dirname path
    ourPort := 1000
    state := .prclookupProgMountReq }

-- ============================================================================
-- Requests leave the rest of the client alone
-- ============================================================================

section Requests

variable (c : Client) (prog : Nat) (call : Call) (s : NfsState)

/-- A request changes the transaction id and the packets sent, nothing else. -/
theorem nfsSend_frame : ∃ id sent, nfsSend c = { c with rpcId := id, sent := sent } := by
  unfold nfsSend
  split
  case h_4 =>
    rw [nfsUmountallReq]
    split
    · exact ⟨c.rpcId, c.sent, rfl⟩
    · exact ⟨_, _, rfl⟩
  all_goals exact ⟨_, _, rfl⟩

@[simp] theorem goto_state : (goto c s).state = s := by
  obtain ⟨id, sent, h⟩ := nfsSend_frame { c with state := s }
  rw [goto, h]

@[simp] theorem goto_netState : (goto c s).netState = c.netState := by
  obtain ⟨id, sent, h⟩ := nfsSend_frame { c with state := s }
  rw [goto, h]

@[simp] theorem goto_ourPort : (goto c s).ourPort = c.ourPort := by
  obtain ⟨id, sent, h⟩ := nfsSend_frame { c with state := s }
  rw [goto, h]

/-- Outside the unmount state every request gets a new id. -/
theorem goto_rpcId (h : s ≠ .umountReq) : (goto c s).rpcId = c.rpcId + 1 := by
  cases s
  case umountReq => exact absurd rfl h
  all_goals rfl

end Requests

-- ============================================================================
-- A server
-- ============================================================================

/-- `htonl`, as bytes. -/
def be32 (w : UInt32) : List UInt8 :=
  [UInt8.ofNat (w.toNat / 16777216), UInt8.ofNat (w.toNat / 65536), UInt8.ofNat (w.toNat / 256),
    UInt8.ofNat w.toNat]

/-- An accepted reply to request `id` with the words `data`, sent to the client. -/
def replyTo (id : UInt32) (data : List UInt8) : Datagram where
  dest := 1000
  data := be32 id ++ List.replicate 20 0 ++ data

/-- Success without data: port 0, or a file handle of zeros. -/
def replyOk (id : UInt32) : Datagram := replyTo id (List.replicate 76 0)

/-- `NFSERR_INVAL`, which a server answers to a read of a symbolic link. -/
def replyInval (id : UInt32) : Datagram := replyTo id (be32 22)

/-- The text of a link: `/l`, the path of the link itself. -/
def replyLink (id : UInt32) : Datagram := replyTo id (be32 0 ++ be32 2 ++ [47, 108, 0, 0])

theorem word_be32 (w : UInt32) (bs : List UInt8) : word (be32 w ++ bs) 0 = w := by
  have hw := w.toNat_lt
  apply UInt32.toNat.inj
  simp [word, be32, UInt32.toNat_ofNat']
  omega

section Replies

variable {c : Client} {data : List UInt8}

@[simp] theorem replyTo_word_zero (id : UInt32) : word (replyTo id data).data 0 = id :=
  word_be32 id _

/-- Past the id there are five words of zeros. -/
theorem replyTo_word (id : UInt32) {k : Nat} (h₁ : 1 ≤ k) (h₂ : k ≤ 5) :
    word (replyTo id data).data k = 0 := by
  obtain rfl | rfl | rfl | rfl | rfl : k = 1 ∨ k = 2 ∨ k = 3 ∨ k = 4 ∨ k = 5 := by omega
  all_goals rfl

/-- Then come the data. -/
theorem replyTo_data (id : UInt32) (k : Nat) : replyData (replyTo id data).data k = word data k := by
  have hget (j : Nat) :
      (be32 id ++ List.replicate 20 0 ++ data).getD (4 * (6 + k) + j) 0 = data.getD (4 * k + j) 0 := by
    have hsplit : 4 * (6 + k) + j = (be32 id ++ List.replicate 20 (0 : UInt8)).length + (4 * k + j) := by
      simp [be32]
      omega
    rw [hsplit, List.getD_append_right _ _ _ _ (Nat.le_add_right ..), Nat.add_sub_cancel_left]
  simp only [replyData, word, replyTo, hget]

theorem rpcAccepted_replyTo : rpcAccepted c (replyTo c.rpcId data).data = true := by
  simp [rpcAccepted, replyTo_word]

theorem nfsAccepted_replyTo (h : word data 0 = 0) :
    nfsAccepted c (replyTo c.rpcId data).data = true := by
  simp [nfsAccepted, rpcAccepted_replyTo, replyTo_data, h]

end Replies

/-- The client before its first transfer. -/
def bootClient : Client where
  rpcId := 0
  fsMounted := false
  offset := 0xFFFFFFFF
  len := 0
  dirfh := List.replicate nfsFhsize 0
  filefh := List.replicate nfsFhsize 0
  downloadState := .netloopFail
  netState := .netloopContinue
  mountPort := 0
  nfsPort := 0
  ourPort := 0
  state := .prclookupProgMountReq
  path := []
  filename := []
  loadAddr := 0
  ram := ⟨fun _ => 0, []⟩
  xferSize := 0
  sent := []

-- ============================================================================
-- Packets with a foreign transaction id
-- ============================================================================

/-- What a packet that answers no outstanding request must leave as it is: the state
    machine, the memory, and whether the transfer goes on. -/
structure Undisturbed (c c' : Client) : Prop where
  state : c'.state = c.state
  mountPort : c'.mountPort = c.mountPort
  nfsPort : c'.nfsPort = c.nfsPort
  dirfh : c'.dirfh = c.dirfh
  filefh : c'.filefh = c.filefh
  offset : c'.offset = c.offset
  cells : c'.ram.cells = c.ram.cells
  netState : c'.netState = c.netState

section Foreign

variable {c : Client} {d : Datagram}

/-- No parser accepts a foreign id. -/
theorem rpcAccepted_foreign {pkt : List UInt8} (h : word pkt 0 ≠ c.rpcId) :
    rpcAccepted c pkt = false := by
  simp [rpcAccepted, h]

theorem nfsAccepted_foreign {pkt : List UInt8} (h : word pkt 0 ≠ c.rpcId) :
    nfsAccepted c pkt = false := by
  simp [nfsAccepted, rpcAccepted_foreign h]

/-- The read state takes the error code of a foreign id for a failed read. -/
theorem nfsReadReply_foreign {pkt : List UInt8} (h : word pkt 0 ≠ c.rpcId) :
    nfsReadReply c pkt = (c, -1) := by
  rw [nfsReadReply, if_pos h]

theorem afterRead_foreign : afterRead c (-1) = goto c .umountReq := by
  simp [afterRead, nfserrIsdir, nfserrInval]

/-- Where a packet with a foreign id takes the state machine. -/
def foreignNext : NfsState → NfsState
  | .prclookupProgMountReq => .prclookupProgNfsReq
  | .prclookupProgNfsReq => .mountReq
  | _ => .umountReq

/-- What the handler does with a foreign id: it goes on as if the port lookups had
    been answered, unmounts, or, in the unmount state, gives up. -/
theorem nfsHandler_foreign (hdest : d.dest = c.ourPort) (h : word d.data 0 ≠ c.rpcId) :
    nfsHandler c d =
      if c.state = .umountReq then { c with netState := .netloopFail }
      else goto c (foreignNext c.state) := by
  have hrpc := rpcAccepted_foreign h
  have hnfs := nfsAccepted_foreign h
  rw [nfsHandler, if_neg (not_not.mpr hdest)]
  cases hs : c.state <;>
    simp [rpcLookupReply, nfsMountReply, nfsUmountallReply, nfsLookupReply, nfsReadlinkReply,
      hrpc, hnfs, nfsReadReply_foreign h, afterRead_foreign, foreignNext]

/-- **Transaction isolation.** A packet whose id is not that of the outstanding
    request leaves the client alone exactly when it is sent to another port, or the
    client is unmounting and has failed already. -/
theorem undisturbed_iff (h : word d.data 0 ≠ c.rpcId) :
    Undisturbed c (nfsHandler c d) ↔
      d.dest ≠ c.ourPort ∨ (c.state = .umountReq ∧ c.netState = .netloopFail) := by
  by_cases hdest : d.dest = c.ourPort
  · rw [nfsHandler_foreign hdest h]
    by_cases hs : c.state = .umountReq
    · rw [if_pos hs]
      constructor
      · intro hu
        exact .inr ⟨hs, hu.netState.symm⟩
      · rintro (hne | ⟨-, hfail⟩)
        · exact absurd hdest hne
        · exact ⟨rfl, rfl, rfl, rfl, rfl, rfl, rfl, hfail.symm⟩
    · rw [if_neg hs]
      constructor
      · intro hu
        -- outside the unmount state the machine always moves on
        have hmove : foreignNext c.state = c.state := by simpa using hu.state
        cases hc : c.state <;> simp [hc, foreignNext] at hmove hs
      · rintro (hne | ⟨hs', -⟩)
        · exact absurd hdest hne
        · exact absurd hs' hs
  · have hsame : nfsHandler c d = c := if_pos hdest
    rw [hsame]
    exact ⟨fun _ => .inl hdest, fun _ => ⟨rfl, rfl, rfl, rfl, rfl, rfl, rfl, rfl⟩⟩

end Foreign

/-- A transfer of `/l` that waits for the answer to its first lookup. -/
def linkClient : Client := nfsStart bootClient (ascii "/l") 0

/-- A foreign packet for port 7 is not looked at. -/
theorem undisturbed_port_seven :
    word (replyOk 9).data 0 ≠ linkClient.rpcId ∧
      Undisturbed linkClient (nfsHandler linkClient { replyOk 9 with dest := 7 }) :=
  ⟨by decide, (undisturbed_iff (d := { replyOk 9 with dest := 7 }) (by decide)).mpr (.inl (by decide))⟩

/-- The answer to the first lookup once more: the second lookup counts as answered and
    the client asks to mount. -/
theorem duplicate_lookup_disturbs :
    word (replyOk 1).data 0 ≠ (nfsHandler linkClient (replyOk 1)).rpcId ∧
      ¬ Undisturbed (nfsHandler linkClient (replyOk 1))
        (nfsHandler (nfsHandler linkClient (replyOk 1)) (replyOk 1)) :=
  ⟨by decide, fun h => absurd h.state (by decide)⟩

-- ============================================================================
-- How many links are followed
-- ============================================================================

/-- The packet makes the client take up the text of a link: the read-link state
    accepts it and the mount starts over. -/
def followsLink (c : Client) (d : Datagram) : Bool :=
  c.state = .readlinkReq && (nfsHandler c d).state = .mountReq

/-- The links followed while the packets `ds` arrive. -/
def linksFollowed : Client → List Datagram → Nat
  | _, [] => 0
  | c, d :: ds => (if followsLink c d then 1 else 0) + linksFollowed (nfsHandler c d) ds

theorem linksFollowed_append (c : Client) (ds es : List Datagram) :
    linksFollowed c (ds ++ es) = linksFollowed c ds + linksFollowed (run nfsHandler c ds) es := by
  induction ds generalizing c with
  | nil => simp [linksFollowed]
  | cons d ds ih => simp [linksFollowed, ih, Nat.add_assoc]

/-- The answers `rs` to consecutive requests, the first of them numbered `id`. -/
def serve : UInt32 → List (UInt32 → Datagram) → List Datagram
  | _, [] => []
  | id, r :: rs => r id :: serve (id + 1) rs

/-- From the port lookups to the first read. -/
def openReplies : List (UInt32 → Datagram) := [replyOk, replyOk, replyOk, replyOk]

/-- From one read to the next, over a link to itself. -/
def linkReplies : List (UInt32 → Datagram) := [replyInval, replyLink, replyOk, replyOk]

/-- A server in whose eyes the file is a link to itself, `n` times over. -/
def linkServer (n : Nat) : List (UInt32 → Datagram) :=
  openReplies ++ (List.replicate n linkReplies).flatten

/-- The client waits in state `s` for the answer to request `id`, the transfer going
    on. -/
structure Waiting (c : Client) (s : NfsState) (id : UInt32) : Prop where
  state : c.state = s
  port : c.ourPort = 1000
  rpcId : c.rpcId = id
  netState : c.netState = .netloopContinue

section Rounds

variable {c : Client} {id : UInt32}

theorem waiting_goto {s : NfsState} (hs : s ≠ .umountReq) (hp : c.ourPort = 1000)
    (hid : c.rpcId = id) (hn : c.netState = .netloopContinue) : Waiting (goto c s) s (id + 1) where
  state := goto_state c s
  port := by rw [goto_ourPort, hp]
  rpcId := by rw [goto_rpcId c s hs, hid]
  netState := by rw [goto_netState, hn]

/-- A success moves the machine along its way to the read state. -/
theorem Waiting.ok {s t : NfsState} (h : Waiting c s id)
    (hs : s = .prclookupProgMountReq ∧ t = .prclookupProgNfsReq ∨
      s = .prclookupProgNfsReq ∧ t = .mountReq ∨ s = .mountReq ∧ t = .lookupReq ∨
      s = .lookupReq ∧ t = .readReq) :
    Waiting (nfsHandler c (replyOk id)) t (id + 1) := by
  obtain ⟨hstate, hport, rfl, hnet⟩ := h
  have hrpc : rpcAccepted c (replyOk c.rpcId).data = true := rpcAccepted_replyTo
  have hnfs : nfsAccepted c (replyOk c.rpcId).data = true := nfsAccepted_replyTo rfl
  have hdest : (replyOk c.rpcId).dest = c.ourPort := hport.symm
  rw [nfsHandler, if_neg (not_not.mpr hdest), hstate]
  rcases hs with ⟨rfl, rfl⟩ | ⟨rfl, rfl⟩ | ⟨rfl, rfl⟩ | ⟨rfl, rfl⟩
  · simp only [rpcLookupReply, hrpc]
    exact waiting_goto (by simp) hport rfl hnet
  · simp only [rpcLookupReply, hrpc]
    exact waiting_goto (by simp) hport rfl hnet
  · simp only [nfsMountReply, hnfs]
    exact waiting_goto (by simp) hport rfl hnet
  · simp only [nfsLookupReply, hnfs]
    exact waiting_goto (by simp) hport rfl hnet

theorem afterRead_inval : afterRead c (-nfserrInval) = goto c .readlinkReq := by
  simp [afterRead, nfserrInval]

/-- A read that fails with `NFSERR_INVAL` is taken for a link. -/
theorem Waiting.inval (h : Waiting c .readReq id) :
    Waiting (nfsHandler c (replyInval id)) .readlinkReq (id + 1) := by
  obtain ⟨hstate, hport, rfl, hnet⟩ := h
  have hdest : (replyInval c.rpcId).dest = c.ourPort := hport.symm
  have hcode : nfsReadReply c (replyInval c.rpcId).data = (c, -nfserrInval) := by
    have hdata : replyData (replyInval c.rpcId).data 0 = 22 := by
      rw [replyInval, replyTo_data]
      rfl
    have hzero : word (replyInval c.rpcId).data 2 = 0 ∧ word (replyInval c.rpcId).data 5 = 0 :=
      ⟨replyTo_word _ (by decide) (by decide), replyTo_word _ (by decide) (by decide)⟩
    have hid : word (replyInval c.rpcId).data 0 = c.rpcId := replyTo_word_zero _
    rw [nfsReadReply, if_neg (not_not.mpr hid), nfsAccepted, hdata, hzero.1, hzero.2]
    simp [int32, nfserrInval]
  rw [nfsHandler, if_neg (not_not.mpr hdest), hstate]
  simp only [hcode, afterRead_inval]
  exact waiting_goto (by simp) hport rfl hnet

/-- The text of the link sends the client back to the mount. -/
theorem Waiting.link (h : Waiting c .readlinkReq id) :
    Waiting (nfsHandler c (replyLink id)) .mountReq (id + 1) := by
  obtain ⟨hstate, hport, rfl, hnet⟩ := h
  have hnfs : nfsAccepted c (replyLink c.rpcId).data = true := nfsAccepted_replyTo rfl
  have hdest : (replyLink c.rpcId).dest = c.ourPort := hport.symm
  rw [nfsHandler, if_neg (not_not.mpr hdest), hstate]
  simp only [nfsReadlinkReply, hnfs]
  exact waiting_goto (by simp) hport rfl hnet

/-- One round: the link is followed, and the client reads again. -/
theorem Waiting.linkReplies (h : Waiting c .readReq id) :
    linksFollowed c (serve id linkReplies) = 1 ∧
      Waiting (run nfsHandler c (serve id linkReplies)) .readReq (id + 1 + 1 + 1 + 1) := by
  have h₁ := h.inval
  have h₂ := h₁.link
  have h₃ := h₂.ok (t := .lookupReq) (by simp)
  have h₄ := h₃.ok (t := .readReq) (by simp)
  refine ⟨?_, h₄⟩
  simp [serve, Nfs.linkReplies, linksFollowed, followsLink, h.state, h₁.state, h₂.state, h₃.state]

/-- Any number of rounds. -/
theorem Waiting.linkRounds (h : Waiting c .readReq id) (n : Nat) :
    linksFollowed c (serve id (List.replicate n Nfs.linkReplies).flatten) = n ∧
      ∃ id', Waiting (run nfsHandler c (serve id (List.replicate n Nfs.linkReplies).flatten))
        .readReq id' := by
  induction n generalizing c id with
  | zero => exact ⟨rfl, id, h⟩
  | succ n ih =>
    obtain ⟨hone, hround⟩ := h.linkReplies
    obtain ⟨hrest, hlast⟩ := ih hround
    have hsplit : serve id (List.replicate (n + 1) Nfs.linkReplies).flatten =
        serve id Nfs.linkReplies ++
          serve (id + 1 + 1 + 1 + 1) (List.replicate n Nfs.linkReplies).flatten := rfl
    rw [hsplit, linksFollowed_append, hone, hrest, run_append]
    exact ⟨Nat.add_comm 1 n, hlast⟩

end Rounds

/-- A started client waits for the first port lookup. -/
theorem waiting_nfsStart (c : Client) (bootFile : List UInt8) (ourIP : UInt32) :
    Waiting (nfsStart c bootFile ourIP) .prclookupProgMountReq (c.rpcId + 1) :=
  waiting_goto (c := { c with
    downloadState := .netloopFail
    netState := .netloopContinue
    xferSize := 0
    filename := basename (startPath bootFile ourIP)
    path := dirname (startPath bootFile ourIP)
    ourPort := 1000 }) (by simp) rfl rfl rfl

/-- **Links without end.** Whatever file a transfer starts with, a server can make the
    client follow any number of links, and the transfer still goes on. -/
theorem linksFollowed_linkServer (c : Client) (bootFile : List UInt8) (ourIP : UInt32) (n : Nat) :
    linksFollowed (nfsStart c bootFile ourIP) (serve (c.rpcId + 1) (linkServer n)) = n ∧
      (run nfsHandler (nfsStart c bootFile ourIP)
        (serve (c.rpcId + 1) (linkServer n))).netState = .netloopContinue := by
  have h₀ := waiting_nfsStart c bootFile ourIP
  have h₁ := h₀.ok (t := .prclookupProgNfsReq) (by simp)
  have h₂ := h₁.ok (t := .mountReq) (by simp)
  have h₃ := h₂.ok (t := .lookupReq) (by simp)
  have h₄ := h₃.ok (t := .readReq) (by simp)
  obtain ⟨hcount, id', hlast⟩ := h₄.linkRounds n
  have hopen : linksFollowed (nfsStart c bootFile ourIP) (serve (c.rpcId + 1) openReplies) = 0 := by
    simp [serve, openReplies, linksFollowed, followsLink, h₀.state, h₁.state, h₂.state, h₃.state]
  have hsplit : serve (c.rpcId + 1) (linkServer n) = serve (c.rpcId + 1) openReplies ++
      serve (c.rpcId + 1 + 1 + 1 + 1 + 1) (List.replicate n linkReplies).flatten := rfl
  have hrun : run nfsHandler (nfsStart c bootFile ourIP) (serve (c.rpcId + 1) openReplies) =
      nfsHandler (nfsHandler (nfsHandler (nfsHandler (nfsStart c bootFile ourIP)
        (replyOk (c.rpcId + 1))) (replyOk (c.rpcId + 1 + 1))) (replyOk (c.rpcId + 1 + 1 + 1)))
        (replyOk (c.rpcId + 1 + 1 + 1 + 1)) := by
    simp only [serve, openReplies, run_cons, run_nil]
  rw [hsplit, linksFollowed_append, hopen, run_append, Nat.zero_add, hrun]
  exact ⟨hcount, hlast.netState⟩

/-- The sixteen steps of the notes at the head of the source, `NFS_MAXLINKDEPTH`. -/
def nfsMaxlinkdepth : Nat := 16

/-- **The link bound is never kept.** No start of a transfer bounds the links by
    sixteen. -/
theorem not_link_bound (c : Client) (bootFile : List UInt8) (ourIP : UInt32) :
    ¬ ∀ ds, linksFollowed (nfsStart c bootFile ourIP) ds ≤ nfsMaxlinkdepth := by
  intro h
  have hbound := h (serve (c.rpcId + 1) (linkServer 17))
  rw [(linksFollowed_linkServer c bootFile ourIP 17).1] at hbound
  exact absurd hbound (by decide)

/-- The file `/l`, a link to itself, is followed seventeen times. -/
theorem seventeen_links :
    ¬ linksFollowed linkClient (serve (bootClient.rpcId + 1) (linkServer 17)) ≤ nfsMaxlinkdepth := by
  rw [linkClient, (linksFollowed_linkServer bootClient (ascii "/l") 0 17).1]
  decide

end Uboot.Net.Nfs
