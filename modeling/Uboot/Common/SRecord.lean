/-
  Uboot.Common.SRecord

  Motorola S-records: the decoder of common/s_record.c, and the encoder `save_serial` of
  common/cmd_load.c, which writes a range of memory as a list of lines.

  The decoder gets a line as the list of its characters; where it is read behind its
  end, it reads the NUL, which is no digit.  Nobody presses ctrl-C while the encoder
  writes.
-/

import Uboot.Lib.Mem
import Uboot.LibGeneric.Vsprintf

namespace Uboot.Common.SRecord

open Uboot.Lib Uboot.LibGeneric

-- ============================================================================
-- Decoder
-- ============================================================================

def srecStart : Int := 0
def srecData2 : Int := 1
def srecData3 : Int := 2
def srecData4 : Int := 3
def srecCount : Int := 5
def srecEnd4 : Int := 7
def srecEnd3 : Int := 8
def srecEnd2 : Int := 9
def srecEmpty : Int := 10
def srecEBadtype : Int := -1
def srecENosrec : Int := -2
def srecEBadchks : Int := -3

/-- `hex1_bin`; `none` is -1. -/
def hex1Bin (c : UInt8) : Option Nat :=
  if 48 ≤ c ∧ c ≤ 57 then some (c.toNat - 48)
  else if 97 ≤ c ∧ c ≤ 102 then some (c.toNat + 10 - 97)
  else if 65 ≤ c ∧ c ≤ 70 then some (c.toNat + 10 - 65)
  else none

/-- `hex2_bin`. -/
def hex2Bin : List UInt8 → Option Nat
  | a :: b :: _ =>
    match hex1Bin a, hex1Bin b with
    | some i, some j => some (i * 16 + j)
    | _, _ => none
  | _ => none

/-- The record types: the value for it, the size of the address field, and `*count` from the
    length that the record gives. -/
def recordType (v : UInt8) (count : Int) : Option (Int × Nat × Int) :=
  match v.toNat with
  | 48 => some (srecStart, 2, count - 3)
  | 49 => some (srecData2, 2, count - 3)
  | 50 => some (srecData3, 3, count - 4)
  | 51 => some (srecData4, 4, count - 5)
  | 53 => some (srecCount, 2, 0)
  | 55 => some (srecEnd4, 4, count - 5)
  | 56 => some (srecEnd3, 3, count - 4)
  | 57 => some (srecEnd2, 2, count - 3)
  | _ => none

/-- The address field of `k` bytes: the address, the checksum so far and the rest. -/
def readAddr : Nat → List UInt8 → Nat → Nat → Option (Nat × Nat × List UInt8)
  | 0, input, addr, chksum => some (addr, chksum, input)
  | k + 1, input, addr, chksum =>
    match hex2Bin input with
    | none => none
    | some v => readAddr k (input.drop 2) (u32 (addr * 256 + v)) ((chksum + v) % 256)

/-- The data: the bytes, the checksum so far and the rest. -/
def readData : Nat → List UInt8 → Nat → Option (List UInt8 × Nat × List UInt8)
  | 0, input, chksum => some ([], chksum, input)
  | k + 1, input, chksum =>
    match hex2Bin input with
    | none => none
    | some v =>
      (readData k (input.drop 2) ((chksum + v) % 256)).map fun r => (UInt8.ofNat v :: r.1, r.2)

/-- What `srec_decode` returns and stores for a record. -/
structure Srec where
  type : Int
  count : Int
  addr : Nat
  data : List UInt8
  deriving DecidableEq

/-- `srec_decode`.  What it has stored before an error is left out; an `error` is a return
    value without a record. -/
def srecDecode (input : List UInt8) : Except Int Srec :=
  -- skip anything before `S`, and the `S` itself
  match (input.dropWhile (· ≠ 83)).tail with
  | [] => .error srecEmpty
  | v :: input =>
    match hex2Bin input with
    | none => .error srecENosrec
    | some n =>
      match recordType v n with
      | none => .error srecEBadtype
      | some (type, k, count) =>
        match readAddr k (input.drop 2) 0 (n % 256) with
        | none => .error srecENosrec
        | some (addr, chksum, input) =>
          match readData count.toNat input chksum with
          | none => .error srecENosrec
          | some (data, chksum, input) =>
            match hex2Bin input with
            | none => .error srecENosrec
            | some v => if v ≠ 255 - chksum then .error srecEBadchks else .ok ⟨type, count, addr, data⟩

-- ============================================================================
-- Encoder
-- ============================================================================

/-- A digit of `%X`. -/
def hexUpper (d : Nat) : UInt8 := UInt8.ofNat (if d < 10 then 48 + d else 55 + d)

/-- `%02X` of a number below 256. -/
def hexByte (n : Nat) : List UInt8 := [hexUpper (n / 16 % 16), hexUpper (n % 16)]

/-- `%08lX` of a 32-bit number. -/
def hexLong (n : Nat) : List UInt8 :=
  (List.range 8).map fun i => hexUpper (n / 16 ^ (7 - i) % 16)

/-- `SREC3_START` -/
def srec3Start : List UInt8 := ascii "S0030000FC\n"

/-- `SREC3_END` -/
def srec3End : List UInt8 := ascii "S70500000000FA\n"

def srecBytesPerRecord : Nat := 16

/-- `sizeof(record)` -/
def recordSize : Nat := 2 * srecBytesPerRecord + 16

/-- A data record: `data` are the bytes, `checksum` is their sum. -/
def srec3Format (address : Nat) (data : List UInt8) (checksum : Nat) : List UInt8 :=
  let length := 4 + data.length + 1
  let checksum := checksum + length % 256 + length / 256 % 256
  let checksum := checksum + address % 256 + address / 256 % 256 + address / 65536 % 256 +
    address / 16777216 % 256
  [83, 51] ++ hexByte length ++ hexLong address ++ data.flatMap (fun c => hexByte c.toNat) ++
    hexByte (255 - checksum % 256) ++ [10]

/-- The loop of `save_serial`: `count` bytes are left, and those in `data` wait for their
    record. -/
def saveLoop (mem : Mem UInt8) : Nat → Nat → List UInt8 → Nat → List (List UInt8)
  | 0, _, _, _ => []
  | count + 1, address, data, checksum =>
    let c := mem (u32 (address + data.length))
    let checksum := checksum + c.toNat
    let data := data ++ [c]
    if data.length = srecBytesPerRecord ∨ count = 0 then
      srec3Format address data checksum :: saveLoop mem count (u32 (address + data.length)) [] 0
    else saveLoop mem count address data checksum

/-- `save_serial`: the lines. -/
def saveSerial (mem : Mem UInt8) (address count : Nat) : List (List UInt8) :=
  srec3Start :: (saveLoop mem count address [] 0 ++ [srec3End])

-- ============================================================================
-- Digits
-- ============================================================================

theorem hex1Bin_hexUpper {d : Nat} (hd : d < 16) : hex1Bin (hexUpper d) = some d := by
  have hall : ∀ d < 16, hex1Bin (hexUpper d) = some d := by decide
  exact hall d hd

@[simp] theorem hexByte_length (n : Nat) : (hexByte n).length = 2 := rfl

/-- A printed byte is read back. -/
theorem hex2Bin_hexByte {n : Nat} (hn : n < 256) (rest : List UInt8) :
    hex2Bin (hexByte n ++ rest) = some n := by
  have hhigh := hex1Bin_hexUpper (show n / 16 % 16 < 16 by omega)
  have hlow := hex1Bin_hexUpper (show n % 16 < 16 by omega)
  simp only [hexByte, List.cons_append, List.nil_append, hex2Bin, hhigh, hlow]
  congr 1
  omega

/-- An address is printed byte by byte. -/
theorem hexLong_eq (n : Nat) :
    hexLong n = hexByte (n / 16777216 % 256) ++ hexByte (n / 65536 % 256) ++
      hexByte (n / 256 % 256) ++ hexByte (n % 256) := by
  have h0 : n / 16777216 % 256 / 16 % 16 = n / 268435456 % 16 := by omega
  have h1 : n / 16777216 % 256 % 16 = n / 16777216 % 16 := by omega
  have h2 : n / 65536 % 256 / 16 % 16 = n / 1048576 % 16 := by omega
  have h3 : n / 65536 % 256 % 16 = n / 65536 % 16 := by omega
  have h4 : n / 256 % 256 / 16 % 16 = n / 4096 % 16 := by omega
  have h5 : n / 256 % 256 % 16 = n / 256 % 16 := by omega
  have h6 : n % 256 / 16 % 16 = n / 16 % 16 := by omega
  have h7 : n % 256 % 16 = n % 16 := by omega
  simp [hexLong, hexByte, List.range_succ, h0, h1, h2, h3, h4, h5, h6, h7]

theorem readAddr_hexByte {k n addr chksum : Nat} (hn : n < 256) (rest : List UInt8) :
    readAddr (k + 1) (hexByte n ++ rest) addr chksum =
      readAddr k rest (u32 (addr * 256 + n)) ((chksum + n) % 256) := by
  rw [readAddr, hex2Bin_hexByte hn]
  rfl

/-- A printed address is read back. -/
theorem readAddr_hexLong {address : Nat} (ha : address < 4294967296) (chksum : Nat)
    (rest : List UInt8) :
    readAddr 4 (hexLong address ++ rest) 0 chksum =
      some (address, (chksum + (address % 256 + address / 256 % 256 + address / 65536 % 256 +
        address / 16777216 % 256)) % 256, rest) := by
  rw [hexLong_eq]
  simp only [List.append_assoc]
  rw [readAddr_hexByte (Nat.mod_lt _ (by omega)), readAddr_hexByte (Nat.mod_lt _ (by omega)),
    readAddr_hexByte (Nat.mod_lt _ (by omega)), readAddr_hexByte (Nat.mod_lt _ (by omega)), readAddr]
  simp only [u32, Option.some.injEq, Prod.mk.injEq, and_true]
  omega

/-- The sum of the bytes. -/
def byteSum (data : List UInt8) : Nat := (data.map UInt8.toNat).sum

theorem readData_hexByte (data : List UInt8) {chksum : Nat} (hc : chksum < 256) (rest : List UInt8) :
    readData data.length (data.flatMap (fun c => hexByte c.toNat) ++ rest) chksum =
      some (data, (chksum + byteSum data) % 256, rest) := by
  induction data generalizing chksum with
  | nil => simp [readData, byteSum, Nat.mod_eq_of_lt hc]
  | cons c data ih =>
    rw [List.length_cons, readData, List.flatMap_cons, List.append_assoc,
      hex2Bin_hexByte c.toNat_lt]
    have hdrop : (hexByte c.toNat ++ (data.flatMap (fun c => hexByte c.toNat) ++ rest)).drop 2 =
        data.flatMap (fun c => hexByte c.toNat) ++ rest := rfl
    rw [hdrop]
    dsimp only
    rw [ih (Nat.mod_lt _ (by omega))]
    simp only [Option.map_some, UInt8.ofNat_toNat, byteSum, List.map_cons, List.sum_cons,
      Option.some.injEq, Prod.mk.injEq, and_true, true_and]
    omega

-- ============================================================================
-- Records
-- ============================================================================

section Records

variable {address count checksum : Nat} {data : List UInt8} {mem : Mem UInt8}

/-- **A data record is read back**, whatever its carries. -/
theorem srecDecode_format (ha : address < 4294967296) (hlen : data.length ≤ srecBytesPerRecord)
    (hsum : checksum = byteSum data) :
    srecDecode (srec3Format address data checksum) =
      .ok ⟨srecData4, data.length, address, data⟩ := by
  simp only [srecBytesPerRecord] at hlen
  have hcount : (((4 + data.length + 1 : Nat) : Int) - 5).toNat = data.length := by omega
  have hcount' : ((4 + data.length + 1 : Nat) : Int) - 5 = data.length := by omega
  -- the sum of the decoder and the one of the encoder agree modulo 256
  generalize haddr : address % 256 + address / 256 % 256 + address / 65536 % 256 +
    address / 16777216 % 256 = asum
  have hchk : 255 - (checksum + (4 + data.length + 1) % 256 + (4 + data.length + 1) / 256 % 256 +
      address % 256 + address / 256 % 256 + address / 65536 % 256 + address / 16777216 % 256) % 256 =
      255 - (((4 + data.length + 1) % 256 + asum) % 256 + byteSum data) % 256 := by
    rw [← haddr, hsum]
    omega
  have hinput : srec3Format address data checksum =
      83 :: 51 :: (hexByte (4 + data.length + 1) ++ (hexLong address ++
        (data.flatMap (fun c => hexByte c.toNat) ++
          (hexByte (255 - (((4 + data.length + 1) % 256 + asum) % 256 + byteSum data) % 256) ++
            [10])))) := by
    rw [← hchk]
    simp only [srec3Format, List.append_assoc, List.cons_append, List.nil_append]
  have hdrop (n : Nat) (rest : List UInt8) : (hexByte n ++ rest).drop 2 = rest := rfl
  have htype (n : Int) : recordType 51 n = some (srecData4, 4, n - 5) := rfl
  have hskip (rest : List UInt8) : ((83 :: rest).dropWhile (· ≠ 83)).tail = rest := by simp
  rw [hinput, srecDecode, hskip]
  dsimp only
  rw [hex2Bin_hexByte (by omega)]
  dsimp only
  rw [htype, hdrop]
  dsimp only
  rw [readAddr_hexLong ha, haddr]
  dsimp only
  rw [hcount, readData_hexByte data (Nat.mod_lt _ (by omega))]
  dsimp only
  rw [hex2Bin_hexByte (by omega)]
  dsimp only
  rw [if_neg (by simp), hcount']

/-- A record is as long as the buffer, with its NUL, at most. -/
theorem srec3Format_length (hlen : data.length ≤ srecBytesPerRecord) :
    (srec3Format address data checksum).length + 1 ≤ recordSize := by
  have hdata : (data.flatMap fun c => hexByte c.toNat).length = 2 * data.length := by
    clear hlen
    induction data with
    | nil => rfl
    | cons c data ih =>
      rw [List.flatMap_cons, List.length_append, ih, hexByte_length, List.length_cons]
      omega
  simp only [srecBytesPerRecord, recordSize] at hlen ⊢
  simp only [srec3Format, List.length_append, hdata, hexByte_length, hexLong, List.length_map,
    List.length_range, List.length_cons, List.length_nil]
  omega

theorem byteSum_concat (c : UInt8) : byteSum (data ++ [c]) = byteSum data + c.toNat := by
  simp [byteSum]

/-- The records decode to consecutive ranges that cover `count` bytes from `address` on,
    each with the bytes stored there. -/
def Covers (mem : Mem UInt8) : Nat → Nat → List (Except Int Srec) → Prop
  | _, count, [] => count = 0
  | address, count, r :: rs =>
    ∃ n, 0 < n ∧ n ≤ count ∧ r = .ok ⟨srecData4, n, address, mem.read address n⟩ ∧
      Covers mem (address + n) (count - n) rs

/-- The bytes that wait for their record are those from its address on.  Induction on the
    bytes left. -/
theorem saveLoop_covers (hwrap : address + data.length + count ≤ 4294967296)
    (hdata : data = mem.read address data.length) (hlen : data.length < srecBytesPerRecord)
    (hwait : 0 < data.length → 0 < count) :
    Covers mem address (data.length + count)
        ((saveLoop mem count address data (byteSum data)).map srecDecode) ∧
      ∀ line ∈ saveLoop mem count address data (byteSum data), line.length + 1 ≤ recordSize := by
  induction count generalizing address data with
  | zero =>
    have hnil : data.length = 0 := by omega
    rw [saveLoop, hnil]
    exact ⟨rfl, fun _ h => nomatch h⟩
  | succ count ih =>
    have hc : mem (u32 (address + data.length)) = mem (address + data.length) := by
      rw [u32_of_lt (by omega)]
    have hsum := @byteSum_concat data (mem (address + data.length))
    have hread : data ++ [mem (address + data.length)] =
        mem.read address (data ++ [mem (address + data.length)]).length := by
      rw [List.length_append, List.length_singleton, Mem.read_add, ← hdata]
      rfl
    have hlength : (data ++ [mem (address + data.length)]).length = data.length + 1 := by simp
    rw [saveLoop, hc]
    rw [← hsum]
    generalize data ++ [mem (address + data.length)] = data' at hread hlength ⊢
    by_cases hflush : data'.length = srecBytesPerRecord ∨ count = 0
    · rw [if_pos hflush]
      simp only [srecBytesPerRecord] at hlen hflush
      -- the next record starts behind this one
      have hnext : saveLoop mem count (u32 (address + data'.length)) [] 0 =
          saveLoop mem count (address + data'.length) [] 0 := by
        rcases Nat.eq_zero_or_pos count with rfl | hpos
        · rfl
        · rw [u32_of_lt (by omega)]
      obtain ⟨hcov, hbuf⟩ := @ih (address + data'.length) [] (by
        rw [List.length_nil]; omega) rfl (by decide) (fun h => absurd h (Nat.lt_irrefl 0))
      rw [hnext]
      refine ⟨⟨data'.length, by omega, by omega, ?_, ?_⟩, ?_⟩
      · rw [srecDecode_format (by omega) (by simp only [srecBytesPerRecord]; omega) rfl]
        exact congrArg (fun d => Except.ok (Srec.mk srecData4 data'.length address d)) hread
      · have hleft : data.length + (count + 1) - data'.length = ([] : List UInt8).length + count := by
          rw [List.length_nil]
          omega
        rw [hleft]
        exact hcov
      · intro line hline
        rcases List.mem_cons.mp hline with rfl | hline
        · exact srec3Format_length (by simp only [srecBytesPerRecord]; omega)
        · exact hbuf line hline
    · rw [if_neg hflush]
      obtain ⟨hfull, hmore⟩ := not_or.mp hflush
      have hstep := @ih address data' (by omega) hread
        (by simp only [srecBytesPerRecord] at hlen hfull ⊢; omega) (by omega)
      have hleft : data.length + (count + 1) = data'.length + count := by omega
      rw [hleft]
      exact hstep

/-- **The round trip.**  The first line decodes as a start record, the last as an end
    record, those between to ranges that cover the bytes; and each fits the buffer. -/
theorem srecDecode_saveSerial (mem : Mem UInt8) (address count : Nat)
    (hwrap : address + count ≤ 4294967296) :
    (∃ records, (saveSerial mem address count).map srecDecode =
        .ok ⟨srecStart, 0, 0, []⟩ :: (records ++ [.ok ⟨srecEnd4, 0, 0, []⟩]) ∧
      Covers mem address count records) ∧
      ∀ line ∈ saveSerial mem address count, line.length + 1 ≤ recordSize := by
  have hstart : srecDecode srec3Start = .ok ⟨srecStart, 0, 0, []⟩ := by decide
  have hend : srecDecode srec3End = .ok ⟨srecEnd4, 0, 0, []⟩ := by decide
  obtain ⟨hcov, hbuf⟩ := @saveLoop_covers address count [] mem (by
    rw [List.length_nil]; omega) rfl (by decide) (fun h => absurd h (Nat.lt_irrefl 0))
  rw [List.length_nil, Nat.zero_add] at hcov
  refine ⟨⟨_, ?_, hcov⟩, ?_⟩
  · simp only [saveSerial, List.map_cons, List.map_append, hstart, hend, List.map_nil]
    rfl
  · intro line hline
    rcases List.mem_cons.mp hline with rfl | hline
    · decide
    · rcases List.mem_append.mp hline with hline | hline
      · exact hbuf line hline
      · obtain rfl := List.mem_singleton.mp hline
        decide

/-- Twenty bytes up to the end of the address space: a full record and one of four bytes. -/
theorem srecDecode_saveSerial_twenty :
    (∃ records, (saveSerial (fun _ => 0xff) 0xffffffec 20).map srecDecode =
        .ok ⟨srecStart, 0, 0, []⟩ :: (records ++ [.ok ⟨srecEnd4, 0, 0, []⟩]) ∧
      Covers (fun _ => 0xff) 0xffffffec 20 records) ∧
      ∀ line ∈ saveSerial (fun _ => 0xff) 0xffffffec 20, line.length + 1 ≤ recordSize :=
  srecDecode_saveSerial (fun _ => 0xff) 0xffffffec 20 (by decide)

end Records

end Uboot.Common.SRecord
