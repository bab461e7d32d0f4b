/-
  Uboot.Common.MtdpartsCurrent

  The lists of partitions of common/cmd_mtdparts.c together with the current partition,
  over additions and deletions.

  Devices and partitions are told apart by their addresses.  `current_mtd_dev` is such an
  address, `current_mtd_partnum` is a place in the list of that device: it has to be moved
  when a partition in front of the current one comes or goes.  The variables of the
  environment that name the current partition are left out.
-/

import Uboot.Common.MtdpartsRoundTrip
import Uboot.Lib.Run
import Mathlib.Data.List.InsertIdx

namespace Uboot.Common.MtdpartsCurrent

open Uboot.Lib Uboot.Common.CmdMtdparts

-- ============================================================================
-- Data
-- ============================================================================

/-- A `struct part_info` and its address. -/
structure Part where
  addr : Nat
  info : PartInfo
  deriving DecidableEq

/-- A `struct mtd_device` and its address. -/
structure Device where
  addr : Nat
  id : MtdIds
  numParts : UInt16
  parts : List Part
  deriving DecidableEq

/-- `devices`, `current_mtd_dev` and `current_mtd_partnum`. -/
structure State where
  devices : List Device
  currentMtdDev : Option Nat
  currentMtdPartnum : UInt8
  deriving DecidableEq

/-- `mtd_part_info`. -/
def mtdPartInfo (dev : Device) (partNum : Nat) : Option Part :=
  if dev.numParts.toNat ≤ partNum then none else dev.parts[partNum]?

/-- The device at an address. -/
def State.find (s : State) (addr : Nat) : Option Device := s.devices.find? (·.addr = addr)

/-- The address is that of a device or of a partition. -/
def State.used (s : State) (addr : Nat) : Bool :=
  s.devices.any fun d => d.addr = addr || d.parts.any (·.addr = addr)

/-- `curr_pi`: the current partition, if it is one of `dev`. -/
def State.currPart (s : State) (dev : Device) : Option Part :=
  if s.currentMtdDev = some dev.addr then mtdPartInfo dev s.currentMtdPartnum.toNat else none

/-- What `current_mtd_dev` and `current_mtd_partnum` denote. -/
def State.current (s : State) : Option Part :=
  (s.currentMtdDev.bind s.find).bind fun dev => mtdPartInfo dev s.currentMtdPartnum.toNat

-- ============================================================================
-- Additions
-- ============================================================================

/-- The loop of `part_sort_add`: the place where the partition is put, or `none` for a
    second one at offset 0. -/
def place (part : PartInfo) : List PartInfo → Option Nat
  | [] => some 0
  | pi :: ps =>
    if part.offset = pi.offset ∧ pi.offset = 0 then none
    else if part.offset ≤ pi.offset then some 0
    else (place part ps).map (· + 1)

/-- The device with a partition linked in at place `k`. -/
def Device.link (dev : Device) (k : Nat) (part : Part) : Device :=
  { dev with numParts := dev.numParts + 1, parts := dev.parts.insertIdx k part }

/-- `part_sort_add` on a device that is not current. -/
def Device.partSortAdd (dev : Device) (part : Part) : Option Device :=
  (place part.info (dev.parts.map Part.info)).map fun k => dev.link k part

/-- The list with the device at the address of `dev` replaced by it. -/
def replace (devices : List Device) (dev : Device) : List Device :=
  devices.map fun d => if d.addr = dev.addr then dev else d

/-- `part_sort_add` on a device of the list, once the place is known. -/
def State.link (s : State) (dev : Device) (k : Nat) (part : Part) : State where
  devices := replace s.devices (dev.link k part)
  currentMtdDev := s.currentMtdDev
  currentMtdPartnum :=
    match s.currPart dev, dev.parts[k]? with
    | some curr, some pi =>
      if pi.info.offset ≤ curr.info.offset then s.currentMtdPartnum + 1 else s.currentMtdPartnum
    | _, _ => s.currentMtdPartnum

/-- `part_add`: the device, the place, and the partition as it is put in.  An address in
    use is none that `malloc` returns. -/
def State.accepts (flash : Flash) (s : State) (addr : Nat) (part : Part) :
    Option (Device × Nat × Part) :=
  if s.used part.addr then none
  else
    match s.find addr with
    | none => none
    | some dev =>
      match partValidate flash dev.id part.info with
      | none => none
      | some info =>
        (place info (dev.parts.map Part.info)).map fun k => (dev, k, { part with info })

/-- `device_parse` behind the text: the new device with its partitions, if there are any
    and all are valid. -/
def parsedDevice (flash : Flash) (s : State) (addr : Nat) (id : MtdIds) (parts : List Part) :
    Option Device :=
  if s.used addr ∨ parts = [] ∨ (∃ p ∈ parts, s.used p.addr = true ∨ p.addr = addr) ∨
      ¬ (parts.map Part.addr).Nodup then none
  else
    (parts.mapM fun p => (partValidate flash id p.info).map fun info => { p with info }).bind
      fun parts => parts.foldlM Device.partSortAdd ⟨addr, id, 0, []⟩

/-- `device_add`. -/
def State.deviceAdd (s : State) (dev : Device) : State :=
  if s.devices = [] then ⟨[dev], some dev.addr, 0⟩ else { s with devices := s.devices ++ [dev] }

-- ============================================================================
-- Deletions
-- ============================================================================

/-- `device_del`. -/
def State.deviceDel (s : State) (dev : Device) : State :=
  let devices := s.devices.filter (·.addr ≠ dev.addr)
  if s.currentMtdDev = some dev.addr then
    match devices with
    | [] => ⟨[], none, s.currentMtdPartnum⟩
    | d :: ds => ⟨d :: ds, some d.addr, 0⟩
  else { s with devices }

/-- `part_del` on the partition at place `k` of the device. -/
def State.partDel (s : State) (dev : Device) (k : Nat) (part : Part) : State :=
  if dev.numParts = 1 then s.deviceDel dev
  else
    { devices := replace s.devices
        { dev with numParts := dev.numParts - 1, parts := dev.parts.eraseIdx k }
      currentMtdDev := s.currentMtdDev
      currentMtdPartnum :=
        match s.currPart dev with
        | none => s.currentMtdPartnum
        | some curr =>
          if curr.addr = part.addr then 0
          else if part.info.offset ≤ curr.info.offset then s.currentMtdPartnum - 1
          else s.currentMtdPartnum }

/-- An addition or a deletion. -/
inductive Change
  /-- A partition for the device at an address. -/
  | add (dev : Nat) (part : Part)
  /-- A device that is not in the list, with its first partitions. -/
  | addDevice (addr : Nat) (id : MtdIds) (parts : List Part)
  /-- The partition at a place of the device at an address. -/
  | del (dev k : Nat)

/-- What is deleted: the device, and the partition at place `k`. -/
def State.deletes (s : State) (addr k : Nat) : Option (Device × Part) :=
  (s.find addr).bind fun dev => (dev.parts[k]?).map fun part => (dev, part)

def step (flash : Flash) (s : State) : Change → State
  | .add addr part =>
    match s.accepts flash addr part with
    | none => s
    | some (dev, k, part) => s.link dev k part
  | .addDevice addr id parts =>
    match parsedDevice flash s addr id parts with
    | none => s
    | some dev => s.deviceAdd dev
  | .del addr k =>
    match s.deletes addr k with
    | none => s
    | some (dev, part) => s.partDel dev k part

-- ============================================================================
-- What is wanted
-- ============================================================================

/-- The list of a device is sorted by offset, and `num_parts` is its length. -/
def Device.Listed (dev : Device) : Prop :=
  Sorted (dev.parts.map Part.info) ∧ dev.numParts.toNat = dev.parts.length

/-- The partition that is current remains so, unless it is the one deleted. -/
def Keeps (flash : Flash) (s : State) (c : Change) : Prop :=
  ∀ part, s.current = some part →
    (∀ addr k, c = .del addr k → (s.deletes addr k).map (fun d => (d.1.addr, d.2)) ≠
      s.currentMtdDev.map (·, part)) →
    (step flash s c).current = some part

/-- All lists are as they should be in every state of a run, and every step keeps the
    current partition. -/
def Tracks (flash : Flash) : State → List Change → Prop
  | s, [] => ∀ dev ∈ s.devices, dev.Listed
  | s, c :: cs => (∀ dev ∈ s.devices, dev.Listed) ∧ Keeps flash s c ∧ Tracks flash (step flash s c) cs

/-- Whether a change leaves the current partition where it is found: a new one does not
    come in front of one at place 255 and is not the 65536th of its device, and a deleted
    one does not stand behind the current one at the same offset. -/
def keepsPlace (flash : Flash) (s : State) : Change → Bool
  | .add addr part =>
    match s.accepts flash addr part with
    | none => true
    | some (dev, k, _) =>
      decide (dev.parts.length < 65535) &&
        !(decide (s.currentMtdPartnum = 255) && (s.currPart dev).isSome && decide (k ≤ 255))
  | .addDevice addr id parts =>
    match parsedDevice flash s addr id parts with
    | none => true
    | some dev => decide (dev.parts.length < 65536)
  | .del addr k =>
    match s.deletes addr k with
    | none => true
    | some (dev, part) =>
      !((s.currPart dev).any fun curr =>
        decide (s.currentMtdPartnum.toNat < k) && decide (part.info.offset = curr.info.offset))

-- ============================================================================
-- Where a partition is put
-- ============================================================================

section Place

variable {part : PartInfo} {ps : List PartInfo} {k : Nat}

/-- `part_sort_add` puts the partition in at the place its loop finds. -/
theorem partSortAdd_eq_place (part : PartInfo) (ps : List PartInfo) :
    CmdMtdparts.partSortAdd ps part = (place part ps).map fun k => ps.insertIdx k part := by
  induction ps with
  | nil => rfl
  | cons pi ps ih =>
    rw [CmdMtdparts.partSortAdd, place]
    split_ifs
    · rfl
    · rfl
    · rw [ih]
      cases place part ps <;> rfl

theorem place_le (h : place part ps = some k) : k ≤ ps.length := by
  induction ps generalizing k with
  | nil => exact (Option.some.inj h) ▸ Nat.le_refl _
  | cons pi ps ih =>
    rw [place] at h
    split_ifs at h
    · exact (Option.some.inj h) ▸ Nat.zero_le _
    · obtain ⟨j, hj, rfl⟩ := Option.map_eq_some_iff.mp h
      exact Nat.succ_le_succ (ih hj)

/-- Before the place the offsets are lower. -/
theorem lt_of_lt_place (h : place part ps = some k) {j : Nat} (hj : j < k) {q : PartInfo}
    (hq : ps[j]? = some q) : q.offset < part.offset := by
  induction ps generalizing k j with
  | nil => simp at hq
  | cons pi ps ih =>
    rw [place] at h
    split_ifs at h with hzero hle
    · obtain rfl := Option.some.inj h
      omega
    · obtain ⟨i, hi, rfl⟩ := Option.map_eq_some_iff.mp h
      cases j with
      | zero =>
        obtain rfl := Option.some.inj hq
        omega
      | succ j => exact ih hi (by omega) hq

/-- The partition it is put before has no lower offset. -/
theorem le_of_place (h : place part ps = some k) {q : PartInfo} (hq : ps[k]? = some q) :
    part.offset ≤ q.offset := by
  induction ps generalizing k with
  | nil => simp at hq
  | cons pi ps ih =>
    rw [place] at h
    split_ifs at h with hzero hle
    · obtain rfl := Option.some.inj h
      obtain rfl := Option.some.inj hq
      exact hle
    · obtain ⟨i, hi, rfl⟩ := Option.map_eq_some_iff.mp h
      exact ih hi hq

end Place

/-- What is further on in a sorted list has no lower offset. -/
theorem offset_mono {ps : List Part} (hs : Sorted (ps.map Part.info)) {i j : Nat} (hij : i ≤ j)
    {p q : Part} (hp : ps[i]? = some p) (hq : ps[j]? = some q) : p.info.offset ≤ q.info.offset := by
  rcases Nat.eq_or_lt_of_le hij with rfl | hlt
  · obtain rfl := Option.some.inj (hp.symm.trans hq)
    exact Nat.le_refl _
  · obtain ⟨hj, rfl⟩ := List.getElem?_eq_some_iff.mp hq
    obtain ⟨hi, rfl⟩ := List.getElem?_eq_some_iff.mp hp
    have h := List.pairwise_iff_getElem.mp hs i j (by simpa using hi) (by simpa using hj) hlt
    simpa using h.1

-- ============================================================================
-- Devices
-- ============================================================================

/-- A device is listed right, and its partitions are different ones. -/
structure Device.Ok (dev : Device) : Prop where
  listed : dev.Listed
  nodup : (dev.parts.map Part.addr).Nodup

namespace Device.Ok

variable {dev : Device} {part : Part} {k : Nat}

theorem mtdPartInfo_eq (h : dev.Ok) (n : Nat) : mtdPartInfo dev n = dev.parts[n]? := by
  rw [mtdPartInfo]
  split_ifs with hn
  · exact (List.getElem?_eq_none (h.listed.2 ▸ hn)).symm
  · rfl

/-- A partition is at one place only. -/
theorem place_unique (h : dev.Ok) {i j : Nat} {p q : Part} (hp : dev.parts[i]? = some p)
    (hq : dev.parts[j]? = some q) (hpq : p.addr = q.addr) : i = j := by
  obtain ⟨hi, -⟩ := List.getElem?_eq_some_iff.mp hp
  refine (List.getElem?_inj (by simpa using hi) h.nodup).mp ?_
  rw [List.getElem?_map, List.getElem?_map, hp, hq, Option.map_some, Option.map_some, hpq]

/-- The device with one partition more. -/
theorem link_parts (hk : place part.info (dev.parts.map Part.info) = some k) :
    (dev.link k part).parts.length = dev.parts.length + 1 := by
  have hle := place_le hk
  rw [List.length_map] at hle
  exact List.length_insertIdx_of_le_length hle part

theorem link_sorted (h : Sorted (dev.parts.map Part.info))
    (hk : place part.info (dev.parts.map Part.info) = some k) :
    Sorted ((dev.link k part).parts.map Part.info) := by
  have hadd := partSortAdd_eq_place part.info (dev.parts.map Part.info)
  rw [hk, Option.map_some] at hadd
  rw [Device.link, List.map_insertIdx]
  exact (partSortAdd_spec h hadd).1

theorem link_nodup (h : (dev.parts.map Part.addr).Nodup)
    (hnew : part.addr ∉ dev.parts.map Part.addr)
    (hk : place part.info (dev.parts.map Part.info) = some k) :
    ((dev.link k part).parts.map Part.addr).Nodup := by
  have hle := place_le hk
  rw [List.length_map] at hle
  rw [Device.link, List.map_insertIdx]
  refine (List.perm_insertIdx _ _ (by simpa using hle)).nodup_iff.mpr ?_
  exact List.nodup_cons.mpr ⟨hnew, h⟩

/-- `num_parts` counts one more as long as it does not wrap. -/
theorem link_numParts (h : dev.numParts.toNat = dev.parts.length)
    (hk : place part.info (dev.parts.map Part.info) = some k) :
    (dev.link k part).numParts.toNat = (dev.link k part).parts.length ↔
      dev.parts.length < 65535 := by
  have hlt := dev.numParts.toNat_lt
  rw [link_parts hk, Device.link, UInt16.toNat_add, UInt16.toNat_one, h]
  omega

/-- The device with one partition less. -/
theorem erase (h : dev.Ok) (hk : k < dev.parts.length) :
    Device.Ok { dev with numParts := dev.numParts - 1, parts := dev.parts.eraseIdx k } where
  listed := by
    refine ⟨?_, ?_⟩
    · show Sorted ((dev.parts.eraseIdx k).map Part.info)
      rw [← List.eraseIdx_map]
      exact h.listed.1.sublist (List.eraseIdx_sublist ..)
    · show (dev.numParts - 1).toNat = (dev.parts.eraseIdx k).length
      have hlen := h.listed.2
      have hone : (1 : UInt16) ≤ dev.numParts := by
        rw [UInt16.le_iff_toNat_le, UInt16.toNat_one]
        omega
      rw [UInt16.toNat_sub_of_le _ _ hone, List.length_eraseIdx_of_lt hk, hlen]
      rfl
  nodup := by
    show ((dev.parts.eraseIdx k).map Part.addr).Nodup
    rw [← List.eraseIdx_map]
    exact h.nodup.sublist (List.eraseIdx_sublist ..)

end Device.Ok

-- ============================================================================
-- The list of devices
-- ============================================================================

/-- All devices are as they should be. -/
def State.Inv (s : State) : Prop := ∀ dev ∈ s.devices, dev.Ok

namespace State

variable {s : State} {dev dev' : Device} {addr k : Nat} {part curr : Part}

theorem find_mem (h : s.find addr = some dev) : dev ∈ s.devices := List.mem_of_find?_eq_some h

theorem find_addr (h : s.find addr = some dev) : dev.addr = addr := by
  simpa using List.find?_some h

theorem Inv.find (hs : s.Inv) (h : s.find addr = some dev) : dev.Ok := hs dev (find_mem h)

theorem find_replace (devices : List Device) (dev : Device) (addr : Nat) :
    (replace devices dev).find? (·.addr = addr) =
      (devices.find? (·.addr = addr)).map fun d => if d.addr = dev.addr then dev else d := by
  rw [replace, List.find?_map]
  congr 2
  funext d
  simp only [Function.comp]
  split_ifs with hd
  · rw [hd]
  · rfl

theorem mem_replace {devices : List Device} (h : dev' ∈ replace devices dev) :
    dev' = dev ∨ dev' ∈ devices := by
  obtain ⟨d, hd, rfl⟩ := List.mem_map.mp h
  split_ifs
  · exact .inl rfl
  · exact .inr hd

theorem replaced_mem {devices : List Device} (hd : dev' ∈ devices) (haddr : dev'.addr = dev.addr) :
    dev ∈ replace devices dev :=
  List.mem_map.mpr ⟨dev', hd, if_pos haddr⟩

/-- The current partition is one of the current device. -/
theorem current_of_find (hs : s.Inv) (hd : s.currentMtdDev = some addr)
    (hf : s.find addr = some dev) : s.current = dev.parts[s.currentMtdPartnum.toNat]? := by
  rw [current, hd, Option.bind_some, hf, Option.bind_some, (hs.find hf).mtdPartInfo_eq]

theorem exists_of_current (h : s.current = some curr) :
    ∃ dev, s.currentMtdDev = some dev.addr ∧ s.find dev.addr = some dev := by
  obtain ⟨dev, hdev, -⟩ := Option.bind_eq_some_iff.mp h
  obtain ⟨addr, haddr, hf⟩ := Option.bind_eq_some_iff.mp hdev
  exact ⟨dev, by rw [haddr, find_addr hf], by rw [find_addr hf, hf]⟩

/-- The current partition, seen from its device. -/
theorem currPart_eq_some (hs : s.Inv) (hf : s.find addr = some dev) :
    s.currPart dev = some curr ↔
      s.currentMtdDev = some addr ∧ dev.parts[s.currentMtdPartnum.toNat]? = some curr := by
  rw [currPart, find_addr hf, (hs.find hf).mtdPartInfo_eq]
  simp

/-- A change of another device leaves the current partition alone. -/
theorem current_replace_other {t : State} (dev : Device) (hd : s.currentMtdDev ≠ some dev.addr)
    (hdevices : t.devices = replace s.devices dev) (hdev : t.currentMtdDev = s.currentMtdDev)
    (hnum : t.currentMtdPartnum = s.currentMtdPartnum) : t.current = s.current := by
  rw [current, current, hdev, hnum]
  cases hc : s.currentMtdDev with
  | none => rfl
  | some addr =>
    have hne : addr ≠ dev.addr := fun h => hd (by rw [hc, h])
    rw [Option.bind_some, Option.bind_some, find, find, hdevices, find_replace]
    cases hf : s.devices.find? (·.addr = addr) with
    | none => rfl
    | some d =>
      have hda : d.addr = addr := by simpa using List.find?_some hf
      rw [Option.map_some, if_neg (hda ▸ hne)]

/-- The current partition once its device has been replaced. -/
theorem current_replace_self {t : State} (dev' : Device) (ht : t.Inv) (hd : s.currentMtdDev = some addr)
    (hf : s.find addr = some dev) (hdevices : t.devices = replace s.devices dev')
    (haddr : dev'.addr = dev.addr) (hdev : t.currentMtdDev = s.currentMtdDev) :
    t.current = dev'.parts[t.currentMtdPartnum.toNat]? := by
  refine current_of_find ht (hdev.trans hd) ?_
  rw [find, hdevices, find_replace]
  rw [find] at hf
  rw [hf, Option.map_some, if_pos haddr.symm]

-- ============================================================================
-- A partition more
-- ============================================================================

section Link

variable (hs : s.Inv) (hf : s.find addr = some dev)
  (hk : place part.info (dev.parts.map Part.info) = some k)
include hs hf hk

theorem link_inv (hnew : part.addr ∉ dev.parts.map Part.addr) (hlen : dev.parts.length < 65535) :
    (s.link dev k part).Inv := by
  intro d hd
  rcases mem_replace hd with rfl | hd
  · have hok := hs.find hf
    exact ⟨⟨Device.Ok.link_sorted hok.listed.1 hk, (Device.Ok.link_numParts hok.listed.2 hk).mpr hlen⟩,
      Device.Ok.link_nodup hok.nodup hnew hk⟩
  · exact hs d hd

theorem length_of_link_listed (h : ∀ d ∈ (s.link dev k part).devices, d.Listed) :
    dev.parts.length < 65535 := by
  have hmem : dev.link k part ∈ (s.link dev k part).devices := replaced_mem (find_mem hf) rfl
  exact (Device.Ok.link_numParts (hs.find hf).listed.2 hk).mp (h _ hmem).2

/-- The index moves up just when the partition comes in front of the current one. -/
theorem link_partnum (hcurr : s.currPart dev = some curr) :
    (s.link dev k part).currentMtdPartnum =
      if k ≤ s.currentMtdPartnum.toNat then s.currentMtdPartnum + 1 else s.currentMtdPartnum := by
  obtain ⟨-, hat⟩ := (currPart_eq_some hs hf).mp hcurr
  obtain ⟨hlt, -⟩ := List.getElem?_eq_some_iff.mp hat
  have hsorted := (hs.find hf).listed.1
  simp only [link, hcurr]
  cases hpi : dev.parts[k]? with
  | none =>
    have := List.getElem?_eq_none_iff.mp hpi
    rw [if_neg (by omega)]
  | some pi =>
    have hle : part.info.offset ≤ pi.info.offset :=
      le_of_place hk (by rw [List.getElem?_map, hpi, Option.map_some])
    show (if pi.info.offset ≤ curr.info.offset then _ else _) = _
    by_cases hkn : k ≤ s.currentMtdPartnum.toNat
    · rw [if_pos hkn, if_pos (offset_mono hsorted hkn hpi hat)]
    · have hbefore : curr.info.offset < part.info.offset :=
        lt_of_lt_place hk (Nat.lt_of_not_le hkn) (by rw [List.getElem?_map, hat, Option.map_some])
      rw [if_neg hkn, if_neg (by omega)]

/-- The current partition of the device stays, unless its index wraps. -/
theorem link_current (hnew : part.addr ∉ dev.parts.map Part.addr) (hlen : dev.parts.length < 65535)
    (hcurr : s.currPart dev = some curr) :
    (s.link dev k part).current = some curr ↔ ¬ (s.currentMtdPartnum = 255 ∧ k ≤ 255) := by
  obtain ⟨hd, hat⟩ := (currPart_eq_some hs hf).mp hcurr
  have ht := link_inv hs hf hk hnew hlen
  rw [current_replace_self _ ht hd hf rfl rfl rfl, link_partnum hs hf hk hcurr]
  have hparts : (dev.link k part).parts = dev.parts.insertIdx k part := rfl
  by_cases hkn : k ≤ s.currentMtdPartnum.toNat
  · rw [if_pos hkn]
    have hmoved : (dev.link k part).parts[s.currentMtdPartnum.toNat + 1]? = some curr := by
      rw [hparts, List.getElem?_insertIdx_of_gt (by omega)]
      exact hat
    by_cases hwrap : s.currentMtdPartnum = 255
    · -- the index is 0 again, and the partition is not there
      rw [hwrap] at hkn hmoved
      have hother : (dev.link k part).parts[0]? ≠ some curr := by
        intro h0
        have hok := ht _ (replaced_mem (find_mem hf) rfl)
        have := hok.place_unique h0 hmoved rfl
        simp at this
      have hk255 : k ≤ 255 := hkn
      rw [hwrap]
      exact iff_of_false hother (not_not.mpr ⟨rfl, hk255⟩)
    · have hsucc : (s.currentMtdPartnum + 1).toNat = s.currentMtdPartnum.toNat + 1 := by
        have hlt := s.currentMtdPartnum.toNat_lt
        have hne : s.currentMtdPartnum.toNat ≠ 255 := fun h => hwrap (UInt8.toNat_inj.mp h)
        rw [UInt8.toNat_add, UInt8.toNat_one]
        omega
      rw [hsucc, hmoved]
      simp [hwrap]
  · have hlt : s.currentMtdPartnum.toNat < k := Nat.lt_of_not_le hkn
    rw [if_neg hkn, hparts, List.getElem?_insertIdx_of_lt hlt, hat]
    have hnot : ¬ (s.currentMtdPartnum = 255 ∧ k ≤ 255) := by
      rintro ⟨hwrap, hle⟩
      rw [hwrap] at hlt
      exact absurd hlt (Nat.not_lt.mpr hle)
    simp [hnot]

end Link

-- ============================================================================
-- A partition less
-- ============================================================================

theorem deviceDel_inv (hs : s.Inv) : (s.deviceDel dev).Inv := by
  have hrest : ∀ d ∈ s.devices.filter (·.addr ≠ dev.addr), d.Ok := fun d hd =>
    hs d (List.mem_of_mem_filter hd)
  simp only [deviceDel]
  split_ifs
  · split
    · exact List.forall_mem_nil _
    · rename_i d ds heq
      intro d' hd'
      exact hrest d' (heq ▸ hd')
  · exact hrest

/-- The loss of another device leaves the current partition alone. -/
theorem deviceDel_current (hd : s.currentMtdDev ≠ some dev.addr) :
    (s.deviceDel dev).current = s.current := by
  rw [deviceDel, if_neg hd]
  simp only [current]
  cases hc : s.currentMtdDev with
  | none => rfl
  | some addr =>
    have hne : addr ≠ dev.addr := fun h => hd (by rw [hc, h])
    rw [Option.bind_some, Option.bind_some, find, find, List.find?_filter]
    congr 2
    funext d
    by_cases hda : d.addr = addr
    · simp [hda, hne]
    · simp [hda]

section Erase

variable (hs : s.Inv) (hf : s.find addr = some dev) (hk : dev.parts[k]? = some part)
include hs hf hk

theorem partDel_inv : (s.partDel dev k part).Inv := by
  obtain ⟨hlt, -⟩ := List.getElem?_eq_some_iff.mp hk
  unfold partDel
  split_ifs
  · exact deviceDel_inv hs
  · intro d hd
    rcases mem_replace hd with rfl | hd
    · exact (hs.find hf).erase hlt
    · exact hs d hd

/-- Another partition of the device goes.  The current one stays, unless the other stood
    behind it at the same offset. -/
theorem partDel_current (hcurr : s.currPart dev = some curr) (hne : curr.addr ≠ part.addr) :
    (s.partDel dev k part).current = some curr ↔
      ¬ (s.currentMtdPartnum.toNat < k ∧ part.info.offset = curr.info.offset) := by
  obtain ⟨hd, hat⟩ := (currPart_eq_some hs hf).mp hcurr
  obtain ⟨hklt, -⟩ := List.getElem?_eq_some_iff.mp hk
  obtain ⟨hnlt, -⟩ := List.getElem?_eq_some_iff.mp hat
  have hok := hs.find hf
  have hkn : k ≠ s.currentMtdPartnum.toNat := by
    rintro rfl
    exact hne (congrArg Part.addr (Option.some.inj (hat.symm.trans hk)))
  have hmany : dev.numParts ≠ 1 := by
    intro h1
    have hlen := hok.listed.2
    rw [h1, UInt16.toNat_one] at hlen
    omega
  have ht := partDel_inv hs hf hk
  have herased := ((hs.find hf).erase hklt)
  have hcurrent := current_replace_self { dev with
    numParts := dev.numParts - 1, parts := dev.parts.eraseIdx k } ht hd hf
    (by rw [partDel, if_neg hmany]) rfl (by rw [partDel, if_neg hmany])
  have hnum : (s.partDel dev k part).currentMtdPartnum =
      if part.info.offset ≤ curr.info.offset then s.currentMtdPartnum - 1
      else s.currentMtdPartnum := by
    rw [partDel, if_neg hmany]
    simp only [hcurr, if_neg hne]
  rw [hcurrent, hnum]
  rcases Nat.lt_or_gt_of_ne hkn with hlt | hgt
  · -- in front of the current one: the index follows
    have hle := offset_mono hok.listed.1 (Nat.le_of_lt hlt) hk hat
    have hpred : (s.currentMtdPartnum - 1).toNat = s.currentMtdPartnum.toNat - 1 :=
      UInt8.toNat_sub_of_le _ _ (by rw [UInt8.le_iff_toNat_le, UInt8.toNat_one]; omega)
    rw [if_pos hle, hpred, List.getElem?_eraseIdx_of_ge (by omega),
      Nat.sub_add_cancel (by omega), hat]
    simp [Nat.le_of_lt hlt]
  · -- behind the current one: the index has to stay
    have hle := offset_mono hok.listed.1 (Nat.le_of_lt hgt) hat hk
    have hstay : (dev.parts.eraseIdx k)[s.currentMtdPartnum.toNat]? = some curr := by
      rw [List.getElem?_eraseIdx_of_lt hgt, hat]
    by_cases heq : part.info.offset = curr.info.offset
    · rw [if_pos (Nat.le_of_eq heq)]
      refine iff_of_false (fun hback => ?_) (not_not.mpr ⟨hgt, heq⟩)
      have hsame := herased.place_unique hback hstay rfl
      have hlt := s.currentMtdPartnum.toNat_lt
      rw [UInt8.toNat_sub, UInt8.toNat_one] at hsame
      omega
    · rw [if_neg (by omega), hstay]
      simp [heq]

end Erase

-- ============================================================================
-- A device more
-- ============================================================================

/-- What `device_parse` puts together, before the counter is looked at. -/
structure Parsed (dev : Device) : Prop where
  sorted : Sorted (dev.parts.map Part.info)
  nodup : (dev.parts.map Part.addr).Nodup
  numParts : dev.numParts.toNat = dev.parts.length % 65536

theorem Parsed.listed_iff (h : Parsed dev) : dev.Listed ↔ dev.parts.length < 65536 := by
  constructor
  · intro hl
    exact hl.2 ▸ dev.numParts.toNat_lt
  · intro hlt
    exact ⟨h.sorted, by rw [h.numParts, Nat.mod_eq_of_lt hlt]⟩

theorem Parsed.link (h : Parsed dev) (hnew : part.addr ∉ dev.parts.map Part.addr)
    (hk : place part.info (dev.parts.map Part.info) = some k) : Parsed (dev.link k part) where
  sorted := Device.Ok.link_sorted h.sorted hk
  nodup := Device.Ok.link_nodup h.nodup hnew hk
  numParts := by
    rw [Device.Ok.link_parts hk, Device.link, UInt16.toNat_add, UInt16.toNat_one, h.numParts]
    omega

/-- The loop of `device_parse` over the partitions that have been read. -/
theorem parsed_of_partsAdded {parts : List Part} (h : Parsed dev)
    (hnew : (parts.map Part.addr).Nodup)
    (hdisjoint : ∀ p ∈ parts, p.addr ∉ dev.parts.map Part.addr)
    (hadd : parts.foldlM Device.partSortAdd dev = some dev') : Parsed dev' := by
  induction parts generalizing dev with
  | nil => exact Option.some.inj hadd ▸ h
  | cons part parts ih =>
    obtain ⟨d, hd, hadd⟩ := Option.bind_eq_some_iff.mp hadd
    obtain ⟨k, hk, rfl⟩ := Option.map_eq_some_iff.mp hd
    obtain ⟨hpart, hparts⟩ := List.nodup_cons.mp hnew
    have hle := place_le hk
    rw [List.length_map] at hle
    refine ih (h.link (hdisjoint part (List.mem_cons_self ..)) hk) hparts (fun p hp => ?_) hadd
    -- the addresses are those that were there and that of `part`
    intro hin
    rw [Device.link, List.map_insertIdx, List.mem_insertIdx (by simpa using hle)] at hin
    rcases hin with heq | hin
    · exact hpart (heq ▸ List.mem_map_of_mem hp)
    · exact hdisjoint p (List.mem_cons_of_mem _ hp) hin

theorem validated_addr {flash : Flash} {id : MtdIds} {parts parts' : List Part}
    (h : (parts.mapM fun p =>
      (partValidate flash id p.info).map fun info => { p with info }) = some parts') :
    parts'.map Part.addr = parts.map Part.addr := by
  induction parts generalizing parts' with
  | nil =>
    obtain rfl := Option.some.inj h
    rfl
  | cons p parts ih =>
    rw [List.mapM_cons] at h
    obtain ⟨q, hq, h⟩ := Option.bind_eq_some_iff.mp h
    obtain ⟨qs, hqs, h⟩ := Option.bind_eq_some_iff.mp h
    obtain rfl := Option.some.inj h
    obtain ⟨info, -, rfl⟩ := Option.map_eq_some_iff.mp hq
    rw [List.map_cons, List.map_cons, ih hqs]

theorem parsed_of_parsedDevice {flash : Flash} {id : MtdIds} {parts : List Part}
    (h : parsedDevice flash s addr id parts = some dev) : Parsed dev := by
  rw [parsedDevice] at h
  split_ifs at h with hc
  obtain ⟨parts', hparts, hadd⟩ := Option.bind_eq_some_iff.mp h
  have hnodup : (parts.map Part.addr).Nodup := by
    simp only [not_or, not_not] at hc
    exact hc.2.2.2
  have hempty : Parsed ⟨addr, id, 0, []⟩ := ⟨List.Pairwise.nil, List.nodup_nil, rfl⟩
  exact parsed_of_partsAdded hempty (validated_addr hparts ▸ hnodup) (fun _ _ => List.not_mem_nil)
    hadd

theorem mem_deviceAdd (h : dev' ∈ (s.deviceAdd dev).devices) : dev' = dev ∨ dev' ∈ s.devices := by
  rw [deviceAdd] at h
  split_ifs at h
  · exact .inl (List.mem_singleton.mp h)
  · exact (List.mem_append.mp h).symm.imp_left List.mem_singleton.mp

theorem deviceAdd_mem : dev ∈ (s.deviceAdd dev).devices := by
  rw [deviceAdd]
  split_ifs
  · exact List.mem_singleton_self dev
  · exact List.mem_append_right _ (List.mem_singleton_self dev)

theorem deviceAdd_current (h : s.current = some curr) : (s.deviceAdd dev).current = some curr := by
  obtain ⟨d, hd, hf⟩ := exists_of_current h
  have hne : s.devices ≠ [] := List.ne_nil_of_mem (find_mem hf)
  rw [deviceAdd, if_neg hne, ← h]
  simp only [current, hd, Option.bind_some]
  rw [hf]
  rw [find] at hf
  rw [find, List.find?_append, hf, Option.some_or]

end State

-- ============================================================================
-- One change
-- ============================================================================

section Step

variable {flash : Flash} {s : State} {c : Change}

theorem accepts_some {addr k : Nat} {part part' : Part} {dev : Device}
    (h : s.accepts flash addr part = some (dev, k, part')) :
    s.find addr = some dev ∧ part'.addr ∉ dev.parts.map Part.addr ∧
      place part'.info (dev.parts.map Part.info) = some k := by
  rw [State.accepts] at h
  split_ifs at h with hused
  split at h
  · cases h
  · rename_i d hf
    split at h
    · cases h
    · rename_i info _
      obtain ⟨j, hj, heq⟩ := Option.map_eq_some_iff.mp h
      obtain ⟨rfl, hk⟩ := Prod.mk.inj heq
      obtain ⟨rfl, rfl⟩ := Prod.mk.inj hk
      refine ⟨hf, ?_, hj⟩
      intro hin
      obtain ⟨p, hp, haddr⟩ := List.mem_map.mp hin
      refine hused (List.any_eq_true.mpr ⟨d, State.find_mem hf, ?_⟩)
      simp only [Bool.or_eq_true, List.any_eq_true, decide_eq_true_eq]
      exact .inr ⟨p, hp, haddr⟩

/-- A change that meets the condition leaves all devices as they should be. -/
theorem step_inv (hs : s.Inv) (h : keepsPlace flash s c = true) : (step flash s c).Inv := by
  cases c with
  | add addr part =>
    simp only [step]
    cases ha : s.accepts flash addr part with
    | none => exact hs
    | some r =>
      obtain ⟨dev, k, part'⟩ := r
      obtain ⟨hf, hnew, hk⟩ := accepts_some ha
      simp only [keepsPlace, ha, Bool.and_eq_true, decide_eq_true_eq] at h
      exact State.link_inv hs hf hk hnew h.1
  | addDevice addr id parts =>
    simp only [step]
    cases hp : parsedDevice flash s addr id parts with
    | none => exact hs
    | some dev =>
      have hparsed := State.parsed_of_parsedDevice hp
      simp only [keepsPlace, hp, decide_eq_true_eq] at h
      intro d hd
      rcases State.mem_deviceAdd hd with rfl | hd
      · exact ⟨hparsed.listed_iff.mpr h, hparsed.nodup⟩
      · exact hs d hd
  | del addr k =>
    simp only [step]
    cases hd : s.deletes addr k with
    | none => exact hs
    | some r =>
      obtain ⟨dev, hf, hr⟩ := Option.bind_eq_some_iff.mp hd
      obtain ⟨part, hk, rfl⟩ := Option.map_eq_some_iff.mp hr
      exact State.partDel_inv hs hf hk

theorem listed_of_inv (hs : s.Inv) : ∀ dev ∈ s.devices, dev.Listed := fun dev h => (hs dev h).listed

/-- A partition put in: the counter and the index hold it just under the condition. -/
theorem add_exact (hs : s.Inv) (addr : Nat) (part : Part) :
    ((∀ dev ∈ (step flash s (.add addr part)).devices, dev.Listed) ∧ Keeps flash s (.add addr part)) ↔
      keepsPlace flash s (.add addr part) = true := by
  cases ha : s.accepts flash addr part with
  | none => simpa [step, Keeps, keepsPlace, ha] using listed_of_inv hs
  | some r =>
    obtain ⟨dev, k, part'⟩ := r
    obtain ⟨hf, hnew, hk⟩ := accepts_some ha
    have hstep : step flash s (.add addr part) = s.link dev k part' := by simp only [step, ha]
    have hkeeps : Keeps flash s (.add addr part) ↔
        ∀ curr, s.current = some curr → (s.link dev k part').current = some curr := by
      simp [Keeps, hstep]
    rw [hkeeps, hstep]
    simp only [keepsPlace, ha, Bool.and_eq_true, decide_eq_true_eq, Bool.not_eq_true',
      Bool.and_eq_false_iff, decide_eq_false_iff_not]
    constructor
    · rintro ⟨hlisted, hkeep⟩
      have hlen := State.length_of_link_listed hs hf hk hlisted
      refine ⟨hlen, ?_⟩
      cases hcurr : s.currPart dev with
      | none => simp
      | some curr =>
        obtain ⟨hd, hat⟩ := (State.currPart_eq_some hs hf).mp hcurr
        have hcurrent : s.current = some curr := by rw [State.current_of_find hs hd hf, hat]
        have hno := (State.link_current hs hf hk hnew hlen hcurr).mp (hkeep curr hcurrent)
        by_cases hwrap : s.currentMtdPartnum = 255
        · exact .inr fun hle => hno ⟨hwrap, hle⟩
        · exact .inl (.inl hwrap)
    · rintro ⟨hlen, hno⟩
      refine ⟨listed_of_inv (State.link_inv hs hf hk hnew hlen), fun curr hcurrent => ?_⟩
      by_cases hd : s.currentMtdDev = some dev.addr
      · have haddr := State.find_addr hf
        rw [State.current_of_find hs (haddr ▸ hd) hf] at hcurrent
        have hcurr := (State.currPart_eq_some hs hf).mpr ⟨haddr ▸ hd, hcurrent⟩
        refine (State.link_current hs hf hk hnew hlen hcurr).mpr fun hwrap => ?_
        rcases hno with (hne | hnone) | hle
        · exact hne hwrap.1
        · simp [hcurr] at hnone
        · exact hle hwrap.2
      · have hnone : s.currPart dev = none := if_neg hd
        rw [← hcurrent]
        refine State.current_replace_other (dev.link k part') hd rfl rfl ?_
        simp only [State.link, hnone]

theorem addDevice_exact (hs : s.Inv) (addr : Nat) (id : MtdIds) (parts : List Part) :
    ((∀ dev ∈ (step flash s (.addDevice addr id parts)).devices, dev.Listed) ∧
        Keeps flash s (.addDevice addr id parts)) ↔
      keepsPlace flash s (.addDevice addr id parts) = true := by
  cases hp : parsedDevice flash s addr id parts with
  | none => simpa [step, Keeps, keepsPlace, hp] using listed_of_inv hs
  | some dev =>
    have hparsed := State.parsed_of_parsedDevice hp
    have hstep : step flash s (.addDevice addr id parts) = s.deviceAdd dev := by simp only [step, hp]
    have hkeeps : Keeps flash s (.addDevice addr id parts) := by
      intro curr hcurrent _
      rw [hstep]
      exact State.deviceAdd_current hcurrent
    rw [and_iff_left hkeeps, hstep]
    simp only [keepsPlace, hp, decide_eq_true_eq]
    constructor
    · intro h
      exact hparsed.listed_iff.mp (h dev State.deviceAdd_mem)
    · intro hlt d hd
      rcases State.mem_deviceAdd hd with rfl | hd
      · exact hparsed.listed_iff.mpr hlt
      · exact (hs d hd).listed

/-- A partition taken out: the one that is current is found again just under the condition. -/
theorem del_exact (hs : s.Inv) (addr k : Nat) :
    ((∀ dev ∈ (step flash s (.del addr k)).devices, dev.Listed) ∧ Keeps flash s (.del addr k)) ↔
      keepsPlace flash s (.del addr k) = true := by
  cases hdel : s.deletes addr k with
  | none =>
    have hstep : step flash s (.del addr k) = s := by simp only [step, hdel]
    have hkeeps : Keeps flash s (.del addr k) := by
      intro curr hcurrent _
      rw [hstep, hcurrent]
    rw [and_iff_left hkeeps, hstep]
    exact iff_of_true (listed_of_inv hs) (by simp only [keepsPlace, hdel])
  | some r =>
    obtain ⟨dev, hf, hr⟩ := Option.bind_eq_some_iff.mp hdel
    obtain ⟨part, hk, rfl⟩ := Option.map_eq_some_iff.mp hr
    have haddr := State.find_addr hf
    have hstep : step flash s (.del addr k) = s.partDel dev k part := by simp only [step, hdel]
    rw [hstep, and_iff_right (listed_of_inv (State.partDel_inv hs hf hk))]
    have hkeeps : Keeps flash s (.del addr k) ↔ ∀ curr, s.current = some curr →
        some (dev.addr, part) ≠ s.currentMtdDev.map (·, curr) →
        (s.partDel dev k part).current = some curr := by
      rw [Keeps, hstep]
      constructor
      · intro h curr hcurrent hne
        refine h curr hcurrent fun a j heq => ?_
        obtain ⟨rfl, rfl⟩ := Change.del.inj heq
        rw [hdel]
        exact hne
      · intro h curr hcurrent hne
        have hne' := hne addr k rfl
        rw [hdel] at hne'
        exact h curr hcurrent hne'
    rw [hkeeps]
    simp only [keepsPlace, hdel]
    cases hcurr : s.currPart dev with
    | none =>
      refine iff_of_true (fun curr hcurrent _ => ?_) rfl
      by_cases hd : s.currentMtdDev = some dev.addr
      · rw [State.current_of_find hs (haddr ▸ hd) hf] at hcurrent
        have := (State.currPart_eq_some hs hf).mpr ⟨haddr ▸ hd, hcurrent⟩
        simp [hcurr] at this
      · rw [← hcurrent, State.partDel]
        split_ifs with hone
        · exact State.deviceDel_current hd
        · exact State.current_replace_other { dev with
            numParts := dev.numParts - 1, parts := dev.parts.eraseIdx k } hd rfl rfl
            (by simp only [hcurr])
    | some curr =>
      obtain ⟨hd, hat⟩ := (State.currPart_eq_some hs hf).mp hcurr
      have hcurrent : s.current = some curr := by rw [State.current_of_find hs hd hf, hat]
      by_cases hsame : curr.addr = part.addr
      · -- the current one is deleted
        obtain rfl := (hs.find hf).place_unique hat hk hsame
        obtain rfl := Option.some.inj (hat.symm.trans hk)
        refine iff_of_true (fun c hc hne => ?_) (by simp)
        obtain rfl := Option.some.inj (hcurrent.symm.trans hc)
        exact absurd (by rw [hd, haddr]; rfl) hne
      · have hexact := State.partDel_current hs hf hk hcurr hsame
        have hne : some (dev.addr, part) ≠ s.currentMtdDev.map (·, curr) := by
          rw [hd, Option.map_some]
          intro heq
          exact hsame (congrArg (Part.addr ·.2) (Option.some.inj heq)).symm
        have hall : (∀ c, s.current = some c → some (dev.addr, part) ≠ s.currentMtdDev.map (·, c) →
            (s.partDel dev k part).current = some c) ↔
              (s.partDel dev k part).current = some curr := by
          constructor
          · exact fun h => h curr hcurrent hne
          · intro h c hc _
            obtain rfl := Option.some.inj (hcurrent.symm.trans hc)
            exact h
        rw [hall, hexact, Option.any_some, Bool.not_eq_true', Bool.and_eq_false_iff,
          decide_eq_false_iff_not, decide_eq_false_iff_not, not_and_or]

/-- **Step.** All devices are listed right and the current partition is kept just when the
    change meets the condition. -/
theorem step_exact (hs : s.Inv) :
    ((∀ dev ∈ (step flash s c).devices, dev.Listed) ∧ Keeps flash s c) ↔
      keepsPlace flash s c = true := by
  cases c with
  | add addr part => exact add_exact hs addr part
  | addDevice addr id parts => exact addDevice_exact hs addr id parts
  | del addr k => exact del_exact hs addr k

end Step

-- ============================================================================
-- Runs
-- ============================================================================

theorem Tracks.listed {flash : Flash} {s : State} {cs : List Change} (h : Tracks flash s cs) :
    ∀ dev ∈ s.devices, dev.Listed := by
  cases cs with
  | nil => exact h
  | cons c cs => exact h.1

/-- **Runs of additions and deletions** keep the lists and the current partition just when
    every change meets the condition. -/
theorem tracks_iff {flash : Flash} {s : State} (hs : s.Inv) (cs : List Change) :
    Tracks flash s cs ↔ Guarded (step flash) (fun s c => keepsPlace flash s c = true) s cs := by
  induction cs generalizing s with
  | nil => simpa [Tracks] using listed_of_inv hs
  | cons c cs ih =>
    rw [Tracks, guarded_cons, and_iff_right (listed_of_inv hs)]
    constructor
    · rintro ⟨hkeeps, htracks⟩
      have hc := (step_exact hs).mp ⟨htracks.listed, hkeeps⟩
      exact ⟨hc, (ih (step_inv hs hc)).mp htracks⟩
    · rintro ⟨hc, hcs⟩
      exact ⟨((step_exact hs).mpr hc).2, (ih (step_inv hs hc)).mpr hcs⟩

/-- The one device of a board with 1 MiB of flash. -/
def oneFlash : Flash := fun _ _ => some ⟨0x1000, []⟩

/-- A partition of one erase block. -/
def block (addr offset : Nat) : Part := ⟨addr, ⟨[112], false, 0x1000, offset, 0, true⟩⟩

/-- A device with one partition gets two more at the same offset.  The first is current.
    Once it is deleted the next one is, and the deletion of the one behind that loses it. -/
def sameOffset : List Change :=
  [.addDevice 1 ⟨.nor, 0, 0x100000, []⟩ [block 2 0x1000], .add 1 (block 3 0x1000),
    .add 1 (block 4 0x1000), .del 1 2, .del 1 1]

theorem not_tracks_sameOffset : ¬ Tracks oneFlash ⟨[], none, 0⟩ sameOffset := by
  intro h
  obtain ⟨-, -, -, -, -, -, -, -, -, hkeeps, -⟩ := h
  have hstays := hkeeps (block 4 0x1000) (by decide +kernel) (by rintro _ _ ⟨⟩; decide +kernel)
  exact absurd hstays (by decide +kernel)

/-- A partition comes in front of the current one and goes again. -/
theorem tracks_frontAndBack :
    Tracks oneFlash ⟨[], none, 0⟩
      [.addDevice 1 ⟨.nor, 0, 0x100000, []⟩ [block 2 0x2000], .add 1 (block 3 0x1000), .del 1 0] :=
  (tracks_iff (fun _ h => absurd h List.not_mem_nil) _).mpr (by decide +kernel)

end Uboot.Common.MtdpartsCurrent
