/-
  Uboot.Net.Defrag

  IP reassembly, `__NetDefragment` of net/net.c (the algorithm of RFC 815).

  The packet is put together in a static buffer.  What is missing of it is a list of
  holes, and the descriptor of a hole stands in the buffer itself, in the first eight
  bytes of the hole; a hole is named by its offset in units of eight bytes.  Index 0
  stands for "no hole" in the links, and is the hole at offset 0 as well.
-/

import Uboot.Lib.Mem
import Mathlib.Logic.Function.Basic

namespace Uboot.Net.Defrag

open Uboot.Lib

/-! ## Hole descriptors -/

/-- `h->last_byte`. -/
def lastByte (m : Mem UInt8) (h : Nat) : Nat := rd16 m (8 * h)

/-- `h->next_hole`. -/
def nextHole (m : Mem UInt8) (h : Nat) : Nat := rd16 m (8 * h + 2)

/-- `h->prev_hole`. -/
def prevHole (m : Mem UInt8) (h : Nat) : Nat := rd16 m (8 * h + 4)

def setLastByte (m : Mem UInt8) (h v : Nat) : Mem UInt8 := m.write (8 * h) (le16 v)

def setNextHole (m : Mem UInt8) (h v : Nat) : Mem UInt8 := m.write (8 * h + 2) (le16 v)

def setPrevHole (m : Mem UInt8) (h v : Nat) : Mem UInt8 := m.write (8 * h + 4) (le16 v)

/-- `*newh = *h` -/
def copyHole (m : Mem UInt8) (newh h : Nat) : Mem UInt8 := m.copy (8 * newh) (8 * h) 8

/-! ## `__NetDefragment` -/

/-- `IP_MAXUDP`: 16384 bytes and an NFS reply header of 100, less an IP header. -/
def ipMaxUdp : Nat := 16464

/-- A fragment as `NetReceive` hands it on.  `ip_len` is 20 more than the length of
    `body`, and within the bytes that have come in. -/
structure Fragment where
  ipId : Nat
  ipOff : Nat
  /-- The other fields of the IP header, which are copied only. -/
  header : List UInt8
  body : List UInt8

/-- The static variables of `__NetDefragment`. -/
structure PktBuff where
  /-- The IP header in `pkt_buff`. -/
  header : List UInt8
  ipId : Nat
  /-- The bytes of `pkt_buff` behind it. -/
  payload : Mem UInt8
  firstHole : Nat
  totalLen : Nat

/-- The packet that is returned. -/
structure Packet where
  header : List UInt8
  /-- `localip->ip_len` in host order. -/
  ipLen : Nat
  /-- `*lenp`. -/
  len : Nat
  payload : List UInt8
  deriving DecidableEq

/-- `ip_off & IP_OFFS`. -/
def Fragment.offset8 (ip : Fragment) : Nat := ip.ipOff % 8192

/-- `ip_off & IP_FLAGS_MFRAG`. -/
def Fragment.moreFragments (ip : Fragment) : Bool := ip.ipOff / 8192 % 2 = 1

/-- A new or different packet starts with one hole. -/
def resetStructs (b : PktBuff) (ip : Fragment) : PktBuff :=
  if b.totalLen = 0 ∨ b.ipId ≠ ip.ipId then
    { header := ip.header
      ipId := ip.ipId
      payload := setPrevHole (setNextHole (setLastByte b.payload 0 0xffff) 0 0) 0 0
      firstHole := 0
      totalLen := 0xffff }
  else b

/-- The walk to the first hole that ends at `start` or behind it.  A list with no end
    is walked until the fuel is spent; the source does not return then. -/
def findHole (m : Mem UInt8) (start : Nat) : Nat → Nat → Option Nat
  | 0, _ => none
  | fuel + 1, h =>
    if lastByte m h < start then
      if nextHole m h = 0 then none else findHole m start fuel (nextHole m h)
    else some h

/-- The four ways the hole `h` changes when the `len` bytes from `thisfrag` on are
    there: the buffer, `first_hole` and `done`. -/
def fixHoles (m : Mem UInt8) (firstHole thisfrag len h : Nat) : Mem UInt8 × Nat × Bool :=
  let start := 8 * thisfrag
  if thisfrag ≤ h ∧ lastByte m h ≤ start + len then
    -- complete overlap with the hole: remove it
    if prevHole m h = 0 ∧ nextHole m h = 0 then (m, firstHole, true)
    else if prevHole m h = 0 then (setPrevHole m (nextHole m h) 0, nextHole m h, false)
    else if nextHole m h = 0 then (setNextHole m (prevHole m h) 0, firstHole, false)
    else
      let m := setPrevHole m (nextHole m h) (prevHole m h)
      (setNextHole m (prevHole m h) (nextHole m h), firstHole, false)
  else if lastByte m h ≤ start + len then
    -- overlap with its final part: shorten it
    (setLastByte m h start, firstHole, false)
  else if thisfrag ≤ h then
    -- overlap with its initial part: move it
    let newh := thisfrag + len / 8
    let m := copyHole m newh h
    let m := if nextHole m newh ≠ 0 then setPrevHole m (nextHole m newh) newh else m
    if prevHole m newh ≠ 0 then (setNextHole m (prevHole m newh) newh, firstHole, false)
    else (m, newh, false)
  else
    -- the fragment sits in the middle: split the hole
    let newh := thisfrag + len / 8
    let m := copyHole m newh h
    let m := setLastByte m h start
    let m := setNextHole m h newh
    let m := setPrevHole m newh h
    let m := if nextHole m newh ≠ 0 then setPrevHole m (nextHole m newh) newh else m
    (m, firstHole, false)

/-- What follows once the hole `h` is found and the fragment overlaps with it. -/
def takeFragment (b : PktBuff) (ip : Fragment) (h : Nat) : Option Packet × PktBuff :=
  let start := 8 * ip.offset8
  let len := ip.body.length
  let totalLen := if ip.moreFragments then b.totalLen else start + len
  let m := if ip.moreFragments then b.payload else setLastByte b.payload h (start + len)
  let r := fixHoles m b.firstHole ip.offset8 len h
  let payload := r.1.write start ip.body
  (if r.2.2 then some ⟨b.header, totalLen, totalLen + 20, payload.read 0 totalLen⟩ else none,
    { b with payload, firstHole := r.2.1, totalLen })

/-- `__NetDefragment`. -/
def netDefragment (b : PktBuff) (ip : Fragment) : Option Packet × PktBuff :=
  if ipMaxUdp < 8 * ip.offset8 + ip.body.length then (none, b)
  else
    let b := resetStructs b ip
    match findHole b.payload (8 * ip.offset8) 65536 b.firstHole with
    | none => (none, b)
    | some h =>
      if ip.offset8 + ip.body.length / 8 ≤ h then (none, b) else takeFragment b ip h

/-! ## Reading back descriptors -/

theorem rd16_write (m : Mem UInt8) {a v : Nat} (hv : v < 65536) :
    rd16 (m.write a (le16 v)) a = v := by
  rw [rd16_le16 (v := v) fun i hi => m.write_inside hi, Nat.mod_eq_of_lt hv]

theorem rd16_write_other (m : Mem UInt8) {a k : Nat} {bs : List UInt8}
    (h : k + 2 ≤ a ∨ a + bs.length ≤ k) : rd16 (m.write a bs) k = rd16 m k :=
  rd16_congr fun x h1 h2 => m.write_outside (by omega)

theorem rd16_copy_other (m : Mem UInt8) {dst src n k : Nat} (h : k + 2 ≤ dst ∨ dst + n ≤ k) :
    rd16 (m.copy dst src n) k = rd16 m k :=
  rd16_congr fun x h1 h2 => m.copy_outside (by omega)

theorem rd16_copy (m : Mem UInt8) {dst src n i : Nat} (h : i + 2 ≤ n) :
    rd16 (m.copy dst src n) (dst + i) = rd16 m (src + i) := by
  simp only [rd16]
  rw [m.copy_inside (by omega) (by omega), m.copy_inside (by omega) (by omega)]
  congr 3
  · omega
  · congr 1
    omega

section Fields

variable (m : Mem UInt8) {h v : Nat}

theorem lastByte_setLastByte (hv : v < 65536) :
    lastByte (setLastByte m h v) = Function.update (lastByte m) h v := by
  funext k
  by_cases hk : k = h
  · rw [hk, Function.update_self, lastByte, setLastByte, rd16_write m hv]
  · rw [Function.update_of_ne hk, lastByte, setLastByte,
      rd16_write_other m (by rw [le16_length]; omega), lastByte]

theorem nextHole_setNextHole (hv : v < 65536) :
    nextHole (setNextHole m h v) = Function.update (nextHole m) h v := by
  funext k
  by_cases hk : k = h
  · rw [hk, Function.update_self, nextHole, setNextHole, rd16_write m hv]
  · rw [Function.update_of_ne hk, nextHole, setNextHole,
      rd16_write_other m (by rw [le16_length]; omega), nextHole]

theorem prevHole_setPrevHole (hv : v < 65536) :
    prevHole (setPrevHole m h v) = Function.update (prevHole m) h v := by
  funext k
  by_cases hk : k = h
  · rw [hk, Function.update_self, prevHole, setPrevHole, rd16_write m hv]
  · rw [Function.update_of_ne hk, prevHole, setPrevHole,
      rd16_write_other m (by rw [le16_length]; omega), prevHole]

@[simp] theorem nextHole_setLastByte : nextHole (setLastByte m h v) = nextHole m :=
  funext fun k => rd16_write_other m (by rw [le16_length]; omega)

@[simp] theorem prevHole_setLastByte : prevHole (setLastByte m h v) = prevHole m :=
  funext fun k => rd16_write_other m (by rw [le16_length]; omega)

@[simp] theorem lastByte_setNextHole : lastByte (setNextHole m h v) = lastByte m :=
  funext fun k => rd16_write_other m (by rw [le16_length]; omega)

@[simp] theorem prevHole_setNextHole : prevHole (setNextHole m h v) = prevHole m :=
  funext fun k => rd16_write_other m (by rw [le16_length]; omega)

@[simp] theorem lastByte_setPrevHole : lastByte (setPrevHole m h v) = lastByte m :=
  funext fun k => rd16_write_other m (by rw [le16_length]; omega)

@[simp] theorem nextHole_setPrevHole : nextHole (setPrevHole m h v) = nextHole m :=
  funext fun k => rd16_write_other m (by rw [le16_length]; omega)

/-- A field of a copied descriptor. -/
theorem field_copyHole (newh i : Nat) (hi : i + 2 ≤ 8) :
    (fun k => rd16 (copyHole m newh h) (8 * k + i)) =
      Function.update (fun k => rd16 m (8 * k + i)) newh (rd16 m (8 * h + i)) := by
  funext k
  by_cases hk : k = newh
  · rw [hk, Function.update_self, copyHole, rd16_copy m hi]
  · rw [Function.update_of_ne hk, copyHole, rd16_copy_other m (by omega)]

theorem lastByte_copyHole (newh : Nat) :
    lastByte (copyHole m newh h) = Function.update (lastByte m) newh (lastByte m h) :=
  field_copyHole m newh 0 (by omega)

theorem nextHole_copyHole (newh : Nat) :
    nextHole (copyHole m newh h) = Function.update (nextHole m) newh (nextHole m h) :=
  field_copyHole m newh 2 (by omega)

theorem prevHole_copyHole (newh : Nat) :
    prevHole (copyHole m newh h) = Function.update (prevHole m) newh (prevHole m h) :=
  field_copyHole m newh 4 (by omega)

variable {x : Nat} (hx : x < 8 * h ∨ 8 * h + 8 ≤ x)

include hx

theorem setLastByte_outside : setLastByte m h v x = m x :=
  m.write_outside (by rw [le16_length]; omega)

theorem setNextHole_outside : setNextHole m h v x = m x :=
  m.write_outside (by rw [le16_length]; omega)

theorem setPrevHole_outside : setPrevHole m h v x = m x :=
  m.write_outside (by rw [le16_length]; omega)

theorem copyHole_outside {src : Nat} : copyHole m h src x = m x :=
  m.copy_outside (by omega)

end Fields

end Uboot.Net.Defrag
