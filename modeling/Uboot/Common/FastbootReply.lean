/-
  Uboot.Common.FastbootReply

  How the replies of `rx_handler` reach the host: `fastboot_tx_status` of
  cpu/arm_cortexa9/s5pc210/fastboot.c leaves a pointer and a flag, and
  `fboot_usb_int_bulkin` sends what the pointer points to when the host next
  asks.  The pointer is to an automatic array of `rx_handler`, which is dead
  once the call has returned.

  The handler's own state is that of `Uboot.Common.Fastboot`.
-/

import Uboot.Common.Fastboot
import Mathlib.Data.List.TakeWhile
import Mathlib.Logic.Function.Basic

namespace Uboot.Common.FastbootReply

open Uboot.Lib Uboot.LibGeneric Uboot.Common.Fastboot

-- ============================================================================
-- State
-- ============================================================================

/-- The bytes `sprintf (response, ..)` leaves in front of the NUL. -/
def text (m : String) : List UInt8 := cstr (ascii m)

/-- What a call of `rx_handler` that waits in `fastboot_tx_status` does when it goes on. -/
inductive Wait
  | reboot
  | boot
  deriving DecidableEq

/-- The handler and the sender.  `response d` are the bytes in the array `response` of a
    call at depth `d`: a call that waits polls, and may be entered again. -/
structure Link where
  globals : Globals
  bulkFifo : Packet
  response : Nat → List UInt8
  replyMsg : Option Nat
  responseFlag : Bool
  waiting : List Wait
  inFifo : List (List UInt8)

/-- `serial_no` as `set_serial_number` sets it. -/
def setSerialNumber : Option String → String
  | none => "SLSI0123"
  | some dieid => String.ofList (dieid.toList.take 30)

/-- The names `fastboot_init` puts into the interface. -/
def fastbootInit (b : Board) (dieid : Option String) : Board :=
  { b with productName := some "smdkc210", serialNo := some (setSerialNumber dieid) }

/-- The error texts of `saveenv_to_ptn` and `parse_env`. -/
def SaveenvTexts (b : Board) : Prop :=
  ∀ c m, b.errString c m ∈ ["Unknown Error", "Internal Error", "No variables set"]

-- ============================================================================
-- Sending
-- ============================================================================

/-- `fastboot_tx_status` on the array of the running call, up to the wait. -/
def Link.txStatus (l : Link) (m : String) : Link :=
  { l with
    response := Function.update l.response l.waiting.length (text m)
    replyMsg := some l.waiting.length
    responseFlag := true }

/-- The handler has gone from its present state to `g` and passed what `g` has sent more. -/
def Link.pass (l : Link) (g : Globals) : Link :=
  (g.sent.drop l.globals.sent.length).foldl Link.txStatus { l with globals := g }

/-- The wait of a synchronous `fastboot_tx_status`. -/
def Link.wait (l : Link) (w : Wait) : Link := { l with waiting := w :: l.waiting }

/-- `boot` on a whole image up to its reply. -/
def bootCopies (s : Globals) : Globals :=
  Fastboot.txStatus { s with ram := copyRamdisk (copyKernel s.ram) (kernelSize s.ram.cells) } "OKAY"

/-- `boot` on a whole image after its reply. -/
def bootJump (b : Board) (s : Globals) : Globals :=
  if hasImageMagic s.ram.cells then
    let s := if s.ram.cells (transferBuffer + 64) ≠ 0 then s.call b .setBootargs else s
    s.call b (.bootm [addrKernel])
  else s.call b (.bootm [addrKernel, addrRamdisk])

/-- The rest of `rx_handler` behind the `boot` command.  The command buffer is the
    driver's, and compared with the commands that follow. -/
def afterBoot (b : Board) (l : Link) : Link :=
  if l.bulkFifo.startsWith "flash:" then l.pass (flash b l.globals l.bulkFifo)
  else if l.bulkFifo.startsWith "oem" then
    l.pass (Fastboot.txStatus (Fastboot.txStatus l.globals "INFOunknown OEM command") "OKAY")
  else l.pass (Fastboot.txStatus l.globals "FAILinvalid boot image")

/-- `rx_handler`.  The `reboot` command, and `boot` on a whole image, wait for their
    reply to be sent before they go on. -/
def rxHandler (b : Board) (l : Link) (p : Packet) : Link :=
  let l := { l with bulkFifo := p }
  let s := l.globals
  if s.downloadSize = 0 ∧ p.startsWith "reboot" then
    (l.pass { reboot s p with running := s.running }).wait .reboot
  else if s.downloadSize = 0 ∧ p.startsWith "boot" ∧ s.downloadBytes ≠ 0 ∧
      pageSize < s.downloadBytes then
    (l.pass (bootCopies s)).wait .boot
  else l.pass (Fastboot.rxHandler b s p)

/-- The innermost waiting call finds the flag cleared. -/
def resume (b : Board) (l : Link) : Link :=
  match l.waiting with
  | [] => l
  | .reboot :: ws => { l with waiting := ws, globals := { l.globals with running := false } }
  | .boot :: ws => afterBoot b { l with waiting := ws, globals := bootJump b l.globals }

/-- `fboot_usb_int_bulkin`: `strlen (reply_msg)` bytes go into the IN FIFO. -/
def usbIntBulkin (b : Board) (l : Link) : Link :=
  match l.replyMsg with
  | none => l
  | some d =>
    if l.responseFlag then
      resume b { l with inFifo := l.inFifo ++ [cstr (l.response d)], responseFlag := false }
    else l

/-- What happens on the link.  `stack` stands for the calls of the driver, which use the
    stack behind the calls that wait. -/
inductive Event
  | packet (p : Packet)
  | inToken
  | stack (bytes : Nat → List UInt8)

def step (b : Board) (l : Link) (e : Event) : Link :=
  if l.globals.running then
    match e with
    | .packet p => rxHandler b l p
    | .inToken => usbIntBulkin b l
    | .stack bytes =>
      { l with response := fun d => if d < l.waiting.length then l.response d else bytes d }
  else l

/-- The link before the first packet. -/
def start (cells : Mem UInt8) : Link where
  globals := Fastboot.start cells
  bulkFifo := ⟨[], 0, Nat.le_refl 0⟩
  response _ := []
  replyMsg := none
  responseFlag := false
  waiting := []
  inFifo := []

-- ============================================================================
-- The handler behind the link
-- ============================================================================

section Handler

variable {b : Board} {l : Link} {g : Globals} {p : Packet}

theorem foldl_txStatus (ms : List String) : ∀ l : Link,
    (ms.foldl Link.txStatus l).globals = l.globals ∧
      (ms.foldl Link.txStatus l).waiting = l.waiting ∧
      (ms.foldl Link.txStatus l).bulkFifo = l.bulkFifo := by
  induction ms with
  | nil => exact fun l => ⟨rfl, rfl, rfl⟩
  | cons m ms ih => exact fun l => ih (l.txStatus m)

/-- Passing messages leaves the handler in the state it has gone to. -/
theorem pass_fields (l : Link) (g : Globals) : (l.pass g).globals = g ∧
    (l.pass g).waiting = l.waiting ∧ (l.pass g).bulkFifo = l.bulkFifo :=
  foldl_txStatus _ { l with globals := g }

theorem bootImage_eq (s : Globals) : bootImage b s = bootJump b (bootCopies s) := rfl

/-- A call that finds its reply sent at once does what the handler does. -/
theorem resume_rxHandler (hwait : l.waiting = []) (p : Packet) :
    (resume b (rxHandler b l p)).globals = Fastboot.rxHandler b l.globals p := by
  rw [rxHandler]
  dsimp only
  split
  · rename_i hreboot
    rw [rxHandler_reboot hreboot.1 hreboot.2]
    simp only [resume, Link.wait, (pass_fields _ _).1]
    rfl
  · split
    · rename_i hboot
      obtain ⟨hd, hb, hbig⟩ := hboot
      have hflash := not_startsWith (w := "flash:") hb (by decide) (by decide)
      have hoem := not_startsWith (w := "oem") hb (by decide) (by decide)
      simp only [resume, Link.wait, afterBoot, (pass_fields _ _).1, (pass_fields _ _).2.2, hflash,
        hoem, Bool.false_eq_true, if_false]
      rw [rxHandler_boot hd hb, boot, if_pos hbig, bootImage_eq]
    · rw [resume, (pass_fields _ _).2.1, hwait]
      exact (pass_fields _ _).1

end Handler

-- ============================================================================
-- What a run promises
-- ============================================================================

/-- The reply that waits to be sent, as it is in the array now. -/
def Link.pending (l : Link) : List (List UInt8) :=
  match l.replyMsg with
  | none => []
  | some d => if l.responseFlag then [cstr (l.response d)] else []

/-- What has been sent and what waits to be sent are the messages passed, in order. -/
structure Delivered (l : Link) : Prop where
  order : l.inFifo ++ l.pending = l.globals.sent.map text
  short : ∀ m ∈ l.inFifo ++ l.pending, m.length ≤ 64

/-- The condition on an event.  While a reply waits to be sent the only packets are data
    of an unfinished download, and the calls of the driver leave the dead array as it is;
    and there is no `oem` command. -/
def Unhurried (l : Link) : Event → Prop
  | .packet p =>
    l.globals.running →
      (l.responseFlag → l.globals.downloadBytes + p.size < l.globals.downloadSize) ∧
        ¬ (l.globals.downloadSize = 0 ∧ p.startsWith "oem")
  | .inToken => True
  | .stack bytes =>
    l.globals.running → l.responseFlag → ∀ d, l.replyMsg = some d → l.waiting.length ≤ d →
      cstr (bytes d) = cstr (l.response d)

-- ============================================================================
-- Every command answers once
-- ============================================================================

section Answers

variable {b : Board} {s s' : Globals} {p : Packet} {m m' : String} {dieid : Option String}

/-- Between `s` and `s'` one message has been passed, and it fits a reply. -/
def Answers (s s' : Globals) : Prop := ∃ m, s'.sent = s.sent ++ [m] ∧ m.length ≤ 64

theorem Answers.of_sent (h : s'.sent = s.sent) (hm : m.length ≤ 64) :
    Answers s (Fastboot.txStatus s' m) := by
  refine ⟨m, ?_, hm⟩
  rw [Fastboot.txStatus, h]

theorem text_length_le (m : String) : (text m).length ≤ m.length := by
  have hcstr := (List.takeWhile_prefix (· ≠ 0) (l := ascii m)).length_le
  rw [ascii, List.length_map, String.length_toList] at hcstr
  exact hcstr

theorem length_ite {c : Prop} [Decidable c] (hm : m.length ≤ 64) (hm' : m'.length ≤ 64) :
    (if c then m else m').length ≤ 64 := by
  split
  · exact hm
  · exact hm'

theorem hex8_length {n : Nat} (hn : n < 4294967296) : (Fastboot.hex8 n).length = 8 := by
  have hdigits : (Nat.toDigits 16 n).length ≤ 8 :=
    (Nat.length_toDigits_le_iff (by decide) (by decide)).mpr hn
  rw [Fastboot.hex8, String.length_ofList, List.length_append, List.length_replicate]
  omega

theorem setSerialNumber_length (dieid : Option String) : (setSerialNumber dieid).length ≤ 30 := by
  cases dieid with
  | none => exact (by decide : "SLSI0123".length ≤ 30)
  | some d =>
    rw [setSerialNumber, String.length_ofList, List.length_take]
    exact Nat.min_le_left ..

theorem answers_getvar : Answers s (getvar (fastbootInit b dieid) s p) := by
  refine .of_sent rfl ?_
  have hserial := setSerialNumber_length dieid
  have hsize := @hex8_length transferBufferSize (by decide)
  have hokay : "OKAY".length = 4 := rfl
  rw [String.length_append, hokay]
  split
  · exact (by decide : 4 + "0.4".length ≤ 64)
  · split
    · exact (by decide : 4 + "smdkc210".length ≤ 64)
    · split
      · simp only [fastbootInit, Option.getD_some]
        omega
      · split
        · omega
        · exact (by decide : 4 + "".length ≤ 64)

theorem answers_erase : Answers s (erase b s p) := by
  have hfail : "FAILfailed to erase partition".length ≤ 64 := by decide
  have hokay : "OKAY".length ≤ 64 := by decide
  rw [erase]
  split
  · exact .of_sent rfl (by decide)
  · dsimp only
    split
    · split
      · exact .of_sent rfl (length_ite hfail hokay)
      · exact .of_sent rfl (length_ite hfail hokay)
    · split
      · split
        · exact .of_sent rfl (length_ite hfail hokay)
        · exact .of_sent rfl (length_ite hfail hokay)
      · split
        · exact .of_sent rfl (length_ite hfail hokay)
        · exact .of_sent rfl (length_ite hfail hokay)
      · exact .of_sent rfl (length_ite hfail hokay)
      · exact .of_sent rfl (length_ite hfail hokay)

theorem answers_download : Answers s (download s p) := by
  rw [download]
  dsimp only
  split
  · exact .of_sent rfl (by decide)
  · split
    · exact .of_sent rfl (by decide)
    · rename_i hsize
      have hmax : transferBufferSize < 4294967296 := by decide
      refine .of_sent rfl ?_
      rw [String.length_append, hex8_length (by omega)]
      decide

theorem writePtn_sent (ptn : PtEntry) (addr size ret : Nat) :
    (writePtn b s ptn addr size ret).1.sent = s.sent := by
  rw [writePtn]
  split <;> rfl

theorem answers_flashBoot : Answers s (flashBoot b s) := by
  rw [flashBoot]
  dsimp only
  split
  · exact .of_sent rfl (by decide)
  · split
    · exact .of_sent (writePtn_sent ..) (by decide)
    · exact .of_sent ((writePtn_sent ..).trans (writePtn_sent ..)) (length_ite (by decide) (by decide))

theorem answers_flashPtn (htexts : SaveenvTexts b) (ptn : PtEntry) : Answers s (flashPtn b s ptn) := by
  rw [flashPtn]
  split
  · exact .of_sent rfl (by decide)
  · split
    · refine .of_sent rfl (length_ite ?_ (by decide))
      have herr : ∀ e ∈ ["Unknown Error", "Internal Error", "No variables set"],
          ("FAIL" ++ e).length ≤ 64 := by decide
      exact herr _ (htexts ..)
    · dsimp only
      split
      · exact .of_sent rfl (length_ite (by decide) (by decide))
      · split
        · exact .of_sent rfl (by decide)
        · exact .of_sent rfl (by decide)
      · exact .of_sent rfl (by decide)
      · exact .of_sent rfl (by decide)

theorem answers_flash (htexts : SaveenvTexts b) : Answers s (flash b s p) := by
  rw [flash]
  split
  · exact .of_sent rfl (by decide)
  · split
    · exact answers_flashBoot
    · split
      · exact .of_sent rfl (by decide)
      · exact answers_flashPtn htexts _

/-- A download that is going on is not complete and fits the buffer. -/
def Loading (s : Globals) : Prop :=
  s.downloadSize ≠ 0 → s.downloadBytes < s.downloadSize ∧ s.downloadSize ≤ transferBufferSize

theorem loading_of_idle (h : s.downloadSize = 0) : Loading s := fun hne => absurd h hne

/-- A data packet answers when it completes the download, and else does not. -/
theorem rxData_answers (hl : Loading s) (hd : s.downloadSize ≠ 0) :
    Loading (rxData s p) ∧
      (s.downloadBytes + p.size < s.downloadSize → (rxData s p).sent = s.sent) ∧
      (¬ s.downloadBytes + p.size < s.downloadSize → Answers s (rxData s p)) := by
  obtain ⟨hlt, hle⟩ := hl hd
  have hmax : transferBufferSize < 4294967296 := by decide
  have hroom : usub s.downloadSize s.downloadBytes = s.downloadSize - s.downloadBytes :=
    usub_of_le (by omega) (by omega)
  have hanswer : (if s.downloadError ≠ 0 then "ERROR" else "OKAY").length ≤ 64 :=
    length_ite (by decide) (by decide)
  rw [rxData]
  split
  case isTrue hzero => exact ⟨hl, fun _ => rfl, fun hfull => absurd hlt (by omega)⟩
  case isFalse hsize =>
    simp only [hroom]
    by_cases hmore : s.downloadBytes + p.size < s.downloadSize
    · have hcount : u32 (s.downloadBytes +
          if p.size < s.downloadSize - s.downloadBytes then p.size
          else s.downloadSize - s.downloadBytes) = s.downloadBytes + p.size := by
        rw [if_pos (by omega), u32_of_lt (by omega)]
      rw [hcount, if_neg (by omega)]
      exact ⟨fun _ => ⟨hmore, hle⟩, fun _ => rfl, fun hfull => absurd hmore hfull⟩
    · have hcount : u32 (s.downloadBytes +
          if p.size < s.downloadSize - s.downloadBytes then p.size
          else s.downloadSize - s.downloadBytes) = s.downloadSize := by
        rw [if_neg (by omega), u32_of_lt (by omega)]
        omega
      rw [hcount, if_pos (Nat.le_refl _)]
      exact ⟨loading_of_idle rfl, fun h => absurd h hmore, fun _ => .of_sent rfl hanswer⟩

theorem loading_download : Loading (download s p) := by
  rw [download]
  dsimp only
  split
  · rename_i hzero
    exact loading_of_idle hzero
  · split
    · exact loading_of_idle rfl
    · rename_i hzero hsize
      exact fun _ => ⟨Nat.pos_of_ne_zero hzero, Nat.le_of_not_lt hsize⟩

variable (dieid) in
/-- A command that does not wait, other than `oem`, answers once. -/
theorem rxHandler_answers (htexts : SaveenvTexts b) (hd : s.downloadSize = 0)
    (hreboot : p.startsWith "reboot" = false)
    (hboot : p.startsWith "boot" → ¬ pageSize < s.downloadBytes)
    (hoem : p.startsWith "oem" = false) :
    Answers s (Fastboot.rxHandler (fastbootInit b dieid) s p) ∧
      Loading (Fastboot.rxHandler (fastbootInit b dieid) s p) := by
  have htexts' : SaveenvTexts (fastbootInit b dieid) := htexts
  rw [Fastboot.rxHandler, if_neg (not_not.mpr hd), if_neg (by simp [hreboot])]
  split
  · exact ⟨answers_getvar, loading_of_idle (keeps_getvar.downloadSize.trans hd)⟩
  split
  · exact ⟨answers_erase, loading_of_idle (keeps_erase.downloadSize.trans hd)⟩
  split
  · exact ⟨answers_download, loading_download⟩
  split
  · rename_i hb
    rw [boot_short (hboot hb)]
    exact ⟨.of_sent rfl (by decide), loading_of_idle hd⟩
  split
  · exact ⟨answers_flash htexts', loading_of_idle (keeps_flash.downloadSize.trans hd)⟩
  rw [if_neg (by simp [hoem])]
  exact ⟨.of_sent rfl (by decide), loading_of_idle hd⟩

end Answers

-- ============================================================================
-- One event
-- ============================================================================

section Event

variable {b : Board} {l : Link} {g : Globals} {p : Packet} {m : String} {dieid : Option String}

/-- What holds of the link between events. -/
structure Ready (l : Link) : Prop extends Delivered l where
  pointer : l.responseFlag → l.replyMsg ≠ none
  loading : Loading l.globals
  waiting : l.waiting = [] ∨
    ∃ w, l.waiting = [w] ∧ l.responseFlag = true ∧ l.replyMsg = some 0 ∧
      l.globals.downloadSize = 0 ∧ (w = .boot → l.bulkFifo.startsWith "boot")

theorem cstr_text (m : String) : cstr (text m) = text m := by
  rw [text, cstr, cstr, List.takeWhile_idem]

theorem pass_none (h : g.sent = l.globals.sent) : l.pass g = { l with globals := g } := by
  rw [Link.pass, h, List.drop_length, List.foldl_nil]

theorem pass_one (h : g.sent = l.globals.sent ++ [m]) :
    l.pass g = ({ l with globals := g } : Link).txStatus m := by
  rw [Link.pass, h, List.drop_left, List.foldl_cons, List.foldl_nil]

theorem pending_txStatus (l : Link) (m : String) : (l.txStatus m).pending = [text m] := by
  simp only [Link.pending, Link.txStatus, Function.update_self, cstr_text, if_true]

/-- A message passed when none waits is delivered behind those sent. -/
theorem Delivered.pass (h : Delivered l) (hflag : l.responseFlag = false)
    (hans : Answers l.globals g) : ∃ m, l.pass g = ({ l with globals := g } : Link).txStatus m ∧
      Delivered (l.pass g) := by
  obtain ⟨m, hsent, hm⟩ := hans
  have hpending : l.pending = [] := by
    rw [Link.pending, hflag]
    split <;> rfl
  have horder := h.order
  have hshort := h.short
  rw [hpending, List.append_nil] at horder hshort
  refine ⟨m, pass_one hsent, ?_⟩
  rw [pass_one hsent]
  constructor
  · rw [pending_txStatus]
    show l.inFifo ++ [text m] = g.sent.map text
    rw [hsent, List.map_append, ← horder, List.map_singleton]
  · rw [pending_txStatus]
    intro x hx
    rcases List.mem_append.mp hx with hx | hx
    · exact hshort x hx
    · rw [List.mem_singleton.mp hx]
      exact Nat.le_trans (text_length_le m) hm

theorem pending_of_not_flag (h : l.responseFlag = false) : l.pending = [] := by
  rw [Link.pending, h]
  split <;> rfl

theorem pending_of_flag {d : Nat} (h : l.responseFlag = true) (hd : l.replyMsg = some d) :
    l.pending = [cstr (l.response d)] := by
  simp only [Link.pending, h, hd, if_true]

theorem Ready.not_waiting (h : Ready l) (hflag : l.responseFlag = false) : l.waiting = [] := by
  rcases h.waiting with hnil | ⟨w, -, hset, -⟩
  · exact hnil
  · rw [hflag] at hset
    exact absurd hset Bool.false_ne_true

/-- A call that answers and returns. -/
theorem Ready.pass (h : Delivered l) (hflag : l.responseFlag = false) (hwait : l.waiting = [])
    (hans : Answers l.globals g) (hload : Loading g) : Ready (l.pass g) := by
  obtain ⟨m, hpass, hdel⟩ := h.pass hflag hans
  rw [hpass] at hdel ⊢
  exact ⟨hdel, fun _ => Option.some_ne_none _, hload, .inl hwait⟩

/-- A call that answers and waits. -/
theorem Ready.pass_wait (h : Delivered l) (hflag : l.responseFlag = false) (hwait : l.waiting = [])
    (hans : Answers l.globals g) (hd : g.downloadSize = 0) (w : Wait)
    (hw : w = .boot → l.bulkFifo.startsWith "boot") : Ready ((l.pass g).wait w) := by
  obtain ⟨m, hpass, hdel⟩ := h.pass hflag hans
  rw [hpass] at hdel ⊢
  refine ⟨⟨hdel.order, hdel.short⟩, fun _ => Option.some_ne_none _, loading_of_idle hd, .inr ?_⟩
  refine ⟨w, ?_, rfl, ?_, hd, hw⟩
  · simp only [Link.wait, Link.txStatus, hwait]
  · simp only [Link.wait, Link.txStatus, hwait, List.length_nil]

theorem ready_packet (htexts : SaveenvTexts b) (h : Ready l) (hrun : l.globals.running)
    (hg : Unhurried l (.packet p)) : Ready (rxHandler (fastbootInit b dieid) l p) := by
  obtain ⟨hquiet, hoem⟩ := hg hrun
  by_cases hd : l.globals.downloadSize = 0
  · -- a command: no reply waits
    have hflag : l.responseFlag = false := by
      rw [← Bool.not_eq_true]
      intro hset
      have hlt := hquiet hset
      omega
    have hwait := h.not_waiting hflag
    have hdel : Delivered { l with bulkFifo := p } := ⟨h.order, h.short⟩
    rw [rxHandler]
    dsimp only
    split
    · have hans : Answers l.globals { reboot l.globals p with running := l.globals.running } :=
        ⟨"OKAY", rfl, by decide⟩
      exact .pass_wait hdel hflag hwait hans hd .reboot (fun hw => Wait.noConfusion hw)
    · rename_i hreboot
      split
      · rename_i hboot
        have hans : Answers l.globals (bootCopies l.globals) := ⟨"OKAY", rfl, by decide⟩
        exact .pass_wait hdel hflag hwait hans hd .boot (fun _ => hboot.2.1)
      · rename_i hboot
        obtain ⟨hans, hload⟩ := rxHandler_answers dieid htexts hd
          (Bool.eq_false_iff.mpr fun hr => hreboot ⟨hd, hr⟩)
          (fun hb hbig => hboot ⟨hd, hb, by omega, hbig⟩)
          (Bool.eq_false_iff.mpr fun ho => hoem ⟨hd, ho⟩)
        exact .pass hdel hflag hwait hans hload
  · obtain ⟨hload, hmore, hlast⟩ := rxData_answers (p := p) h.loading hd
    have hdata : Fastboot.rxHandler (fastbootInit b dieid) l.globals p = rxData l.globals p := by
      rw [Fastboot.rxHandler, if_pos hd]
    rw [rxHandler]
    dsimp only
    rw [if_neg fun hc => hd hc.1, if_neg fun hc => hd hc.1, hdata]
    by_cases hlt : l.globals.downloadBytes + p.size < l.globals.downloadSize
    · -- in the middle of a download nothing is passed
      have hsent := hmore hlt
      rw [@pass_none { l with bulkFifo := p } _ hsent]
      refine ⟨⟨?_, h.short⟩, h.pointer, hload, .inl ?_⟩
      · exact h.order.trans (congrArg (List.map text) hsent.symm)
      · rcases h.waiting with hnil | ⟨w, -, -, -, hidle, -⟩
        · exact hnil
        · exact absurd hidle hd
    · have hflag : l.responseFlag = false := by
        rw [← Bool.not_eq_true]
        exact fun hset => hlt (hquiet hset)
      exact .pass ⟨h.order, h.short⟩ hflag (h.not_waiting hflag) (hlast hlt) hload

/-- What is sent was passed; a call that waited for it goes on. -/
theorem ready_inToken (h : Ready l) : Ready (usbIntBulkin b l) := by
  rw [usbIntBulkin]
  cases hd : l.replyMsg with
  | none => exact h
  | some d =>
    dsimp only
    split
    case isFalse => exact h
    case isTrue hset =>
      have horder := h.order
      have hshort := h.short
      rw [pending_of_flag hset hd] at horder hshort
      have hdel : ∀ (g : Globals) (ws : List Wait), g.sent = l.globals.sent → Delivered
          { l with
            inFifo := l.inFifo ++ [cstr (l.response d)]
            replyMsg := some d
            responseFlag := false
            globals := g
            waiting := ws } := by
        intro g ws hsent
        constructor
        · rw [pending_of_not_flag rfl, List.append_nil]
          exact horder.trans (congrArg (List.map text) hsent.symm)
        · rw [pending_of_not_flag rfl, List.append_nil]
          exact hshort
      rw [resume]
      rcases h.waiting with hnil | ⟨w, hone, -, -, hidle, hw⟩
      · simp only [hnil]
        exact ⟨hdel l.globals [] rfl, fun hc => absurd hc Bool.false_ne_true, h.loading,
          .inl rfl⟩
      · simp only [hone]
        cases w with
        | reboot =>
          dsimp only
          exact ⟨hdel { l.globals with running := false } [] rfl,
            fun hc => absurd hc Bool.false_ne_true, loading_of_idle hidle, .inl rfl⟩
        | boot =>
          dsimp only
          have hsent : (bootJump b l.globals).sent = l.globals.sent := by
            rw [bootJump]
            split
            · dsimp only
              split <;> rfl
            · rfl
          have hsize : (bootJump b l.globals).downloadSize = 0 := by
            rw [bootJump]
            split
            · dsimp only
              split <;> exact hidle
            · exact hidle
          -- the command buffer still holds `boot`
          have hflash := not_startsWith (w := "flash:") (hw rfl) (by decide) (by decide)
          have hoem := not_startsWith (w := "oem") (hw rfl) (by decide) (by decide)
          rw [afterBoot, if_neg (by simp [hflash]), if_neg (by simp [hoem])]
          exact .pass (hdel (bootJump b l.globals) [] hsent) rfl rfl (.of_sent rfl (by decide))
            (loading_of_idle hsize)

/-- The calls of the driver leave the array of a waiting call, and the guard the rest. -/
theorem ready_stack {bytes : Nat → List UInt8} (h : Ready l) (hrun : l.globals.running)
    (hg : Unhurried l (.stack bytes)) :
    Ready { l with response := fun d => if d < l.waiting.length then l.response d else bytes d } := by
  have hpending : ({ l with
      response := fun d => if d < l.waiting.length then l.response d else bytes d } : Link).pending =
        l.pending := by
    cases hd : l.replyMsg with
    | none => simp only [Link.pending, hd]
    | some d =>
      by_cases hset : l.responseFlag = true
      · simp only [Link.pending, hd, hset, if_true]
        by_cases hlt : d < l.waiting.length
        · rw [if_pos hlt]
        · rw [if_neg hlt, hg hrun hset d hd (Nat.le_of_not_lt hlt)]
      · simp only [Link.pending, hd, hset, Bool.false_eq_true, if_false]
  refine ⟨⟨?_, ?_⟩, h.pointer, h.loading, h.waiting⟩
  · rw [hpending]
    exact h.order
  · rw [hpending]
    exact h.short

variable (dieid) in
/-- **Step lemma.** -/
theorem ready_step {e : Event} (htexts : SaveenvTexts b) (h : Ready l) (hg : Unhurried l e) :
    Ready (step (fastbootInit b dieid) l e) := by
  unfold step
  split
  · rename_i hrun
    cases e with
    | packet p => exact ready_packet htexts h hrun hg
    | inToken => exact ready_inToken h
    | stack bytes => exact ready_stack h hrun hg
  · exact h

/-- **Replies.**  In every run whose events meet the condition, each message passed is put
    into the IN FIFO once, in order, as it was when it was passed. -/
theorem run_delivered (b : Board) (dieid : Option String) (cells : Mem UInt8)
    (htexts : SaveenvTexts b) {es : List Event}
    (hg : Guarded (step (fastbootInit b dieid)) Unhurried (start cells) es) :
    Delivered (run (step (fastbootInit b dieid)) (start cells) es) := by
  have hstart : Ready (start cells) :=
    ⟨⟨rfl, fun m hm => absurd hm List.not_mem_nil⟩, fun hc => absurd hc Bool.false_ne_true,
      loading_of_idle rfl, .inl rfl⟩
  have hrun := run_invariant (fun l e hl he => ready_step dieid htexts hl he) hstart hg
  exact hrun.toDelivered

/-- A board whose `saveenv_to_ptn` fails. -/
def savingBoard : Board := { bareBoard with errString := fun _ _ => "Unknown Error" }

/-- A `getvar` command, its reply, a download of one byte and its two replies. -/
def threeReplies : List Event :=
  [.packet (commandPacket "getvar:version"), .inToken, .packet (commandPacket "download:1"),
    .inToken, .packet (dataPacket 1 0), .inToken]

theorem run_delivered_threeReplies :
    Delivered (run (step (fastbootInit savingBoard none)) (start fun _ => 0) threeReplies) := by
  apply run_delivered savingBoard none (fun _ => 0) (fun _ _ => List.mem_cons_self)
  exact ⟨fun _ => ⟨fun hset => absurd hset (by decide), fun ho => absurd ho.2 (by decide)⟩, trivial,
    fun _ => ⟨fun hset => absurd hset (by decide +kernel), fun ho => absurd ho.2 (by decide)⟩, trivial,
    fun _ => ⟨fun hset => absurd hset (by decide +kernel), fun ho => absurd ho.2 (by decide)⟩, trivial,
    trivial⟩

/-- An `oem` command passes two messages, and the first is never sent. -/
theorem oem_not_delivered :
    ¬ Delivered (run (step (fastbootInit savingBoard none)) (start fun _ => 0)
      [.packet (commandPacket "oem"), .inToken, .inToken]) := by
  intro hdel
  have hsent : (run (step (fastbootInit savingBoard none)) (start fun _ => 0)
      [.packet (commandPacket "oem"), .inToken, .inToken]).globals.sent =
        ["INFOunknown OEM command", "OKAY"] := by
    decide +kernel
  have hfifo : (run (step (fastbootInit savingBoard none)) (start fun _ => 0)
      [.packet (commandPacket "oem"), .inToken, .inToken]).inFifo = [text "OKAY"] := by
    decide +kernel
  have hpending : (run (step (fastbootInit savingBoard none)) (start fun _ => 0)
      [.packet (commandPacket "oem"), .inToken, .inToken]).pending = [] := by
    decide +kernel
  have horder := hdel.order
  rw [hsent, hfifo, hpending] at horder
  exact absurd horder (by decide)

end Event

end Uboot.Common.FastbootReply
