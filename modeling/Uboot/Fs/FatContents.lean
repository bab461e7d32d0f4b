/-
  Uboot.Fs.FatContents

  `get_contents` of fs/fat/fat.c: a file is read along its chain of clusters, where clusters
  that follow each other on the volume are read at once.

  A limit of 0 is none.  The device returns all blocks it is asked for.
-/

import Uboot.Fs.FatEntry

namespace Uboot.Fs.FatContents

open Uboot.Lib Uboot.Fs.Fat
open Uboot.Fs.FatDisk (diskRead toInt)
open Uboot.Fs.FatEntry (Volume Table Window healthy getFatent tableOf fatBytes entryAt)

-- ============================================================================
-- Directory entries
-- ============================================================================

/-- `size` -/
def fileSize (d : DirEntry) : Nat := rd32 (fun x => d.getD x 0) 28

/-- `START` -/
def start (fatsize : FatSize) (d : DirEntry) : Nat :=
  rd16 (fun x => d.getD x 0) 26 + if fatsize = .fat32 then rd16 (fun x => d.getD x 0) 20 * 65536 else 0

-- ============================================================================
-- Clusters
-- ============================================================================

/-- `get_cluster`; `none` is the result -1. -/
def getCluster (v : Volume) (fs : FsData) (clustnum buffer size : Nat) (mem : Mem UInt8) :
    Option (Mem UInt8) :=
  let o := diskRead (some healthy) v.partOffset v.data (startsect fs clustnum) (size / 512) buffer mem
  if o.isError then none
  else if size % 512 ≠ 0 then
    let idx := size / 512
    let tmp := diskRead (some healthy) v.partOffset v.data (u32 (startsect fs clustnum + idx)) 1 0
      fun _ => 0
    if tmp.isError then none
    else some (o.mem.write (buffer + idx * 512) (tmp.mem.read 0 (size % 512)))
  else some o.mem

-- ============================================================================
-- get_contents
-- ============================================================================

/-- The variables of `get_contents`, the buffer of `get_fatent` and the memory. -/
structure Reading where
  window : Window
  curclust : Nat
  endclust : Nat
  actsize : Nat
  filesize : Nat
  gotsize : Nat
  buffer : Nat
  mem : Mem UInt8

/-- What is returned, and the memory. -/
structure Result where
  ret : Int
  mem : Mem UInt8

/-- `bytesperclust` -/
def bytesperclust (fs : FsData) : Nat := u32 (fs.clustSize * 512)

/-- The part of a run of clusters that is read before the last one. -/
def finish (v : Volume) (fs : FsData) (r : Reading) : Result :=
  let actsize := usub r.actsize (bytesperclust fs)
  match getCluster v fs r.curclust r.buffer actsize r.mem with
  | none => ⟨-1, r.mem⟩
  | some mem =>
    let gotsize := u32 (r.gotsize + actsize)
    let filesize := usub r.filesize actsize
    match getCluster v fs r.endclust (r.buffer + actsize) filesize mem with
    | none => ⟨-1, mem⟩
    | some mem => ⟨toInt (u32 (gotsize + filesize)), mem⟩

/-- The loops of `get_contents`, with a bound on the clusters that are looked up; `none` when
    it is too low. -/
def readRuns (v : Volume) (fs : FsData) (t : Table) : Nat → Reading → Option Result
  | 0, _ => none
  | bound + 1, r =>
    if r.actsize < r.filesize then
      let (window, newclust) := getFatent v t r.window (UInt32.ofNat r.endclust)
      if usub newclust 1 ≠ r.endclust then
        -- `getit`
        match getCluster v fs r.curclust r.buffer r.actsize r.mem with
        | none => some ⟨-1, r.mem⟩
        | some mem =>
          let gotsize := u32 (r.gotsize + r.actsize)
          let (window, curclust) := getFatent v t window (UInt32.ofNat r.endclust)
          if checkClust t.fatsize curclust then some ⟨toInt gotsize, mem⟩
          else
            readRuns v fs t bound
              { window, curclust, endclust := curclust, actsize := bytesperclust fs
                filesize := usub r.filesize r.actsize, gotsize, buffer := r.buffer + r.actsize, mem }
      else if checkClust t.fatsize newclust then some ⟨toInt r.gotsize, r.mem⟩
      else
        readRuns v fs t bound
          { r with window, endclust := newclust, actsize := u32 (r.actsize + bytesperclust fs) }
    else some (finish v fs r)

/-- `filesize`, cut to the limit unless that is 0. -/
def sizeToRead (d : DirEntry) (maxsize : Nat) : Nat :=
  if 0 < maxsize ∧ maxsize < fileSize d then maxsize else fileSize d

/-- `get_contents`. -/
def getContents (v : Volume) (fs : FsData) (t : Table) (w : Window) (d : DirEntry)
    (buffer maxsize : Nat) (mem : Mem UInt8) (bound : Nat) : Option Result :=
  readRuns v fs t bound
    { window := w, curclust := start t.fatsize d, endclust := start t.fatsize d
      actsize := bytesperclust fs, filesize := sizeToRead d maxsize, gotsize := 0, buffer, mem }

-- ============================================================================
-- The file on the volume
-- ============================================================================

/-- The bytes of a cluster. -/
def clusterBytes (v : Volume) (fs : FsData) (c : Nat) : List UInt8 :=
  v.bytes.read (512 * startsect fs c) (fs.clustSize * 512)

/-- The entry of a cluster in the table. -/
def next (v : Volume) (t : Table) (c : Nat) : Nat := entryAt t.fatsize (fatBytes v t) c

/-- The clusters are valid, the first one is `c`, and each of the others is linked from the one
    before it. -/
def Follows (v : Volume) (t : Table) : Nat → List Nat → Prop
  | _, [] => True
  | c, c' :: cs => c' = c ∧ checkClust t.fatsize c = false ∧ Follows v t (next v t c) cs

/-- The clusters one after the other. -/
def chainBytes (v : Volume) (fs : FsData) (cs : List Nat) : List UInt8 :=
  cs.flatMap (clusterBytes v fs)

-- ============================================================================
-- Sectors one after the other
-- ============================================================================

section Sectors

variable {v : Volume} {fs : FsData} {t : Table}

/-- Sector numbers wrap. -/
theorem bytes_wrap (v : Volume) (s o : Nat) : v.bytes (512 * u32 s + o) = v.bytes (512 * s + o) := by
  have hdiv : ∀ s, (512 * s + o) / 512 = s + o / 512 := fun s => by omega
  have hmod : ∀ s, (512 * s + o) % 512 = o % 512 := fun s => by omega
  rw [Volume.bytes, Volume.bytes, hdiv, hdiv, hmod, hmod, Nat.add_assoc, u32_add_left,
    Nat.add_assoc]

theorem read_wrap (v : Volume) (s o n : Nat) :
    v.bytes.read (512 * u32 s + o) n = v.bytes.read (512 * s + o) n := by
  refine List.map_congr_left fun i _ => ?_
  rw [Nat.add_assoc, bytes_wrap, Nat.add_assoc]

/-- A cluster stands behind those before it. -/
theorem startsect_add {c j : Nat} (hc : 0 < c) :
    startsect fs (c + j) = u32 (startsect fs c + j * fs.clustSize) := by
  rw [startsect, startsect, if_pos hc, if_pos (by omega), u32]
  have hsum : fs.dataBegin + ((c + j : Nat) : Int) * fs.clustSize =
      fs.dataBegin + c * fs.clustSize + (j * fs.clustSize : Nat) := by
    push_cast
    ring
  rw [hsum]
  omega

/-- `get_cluster` reads bytes of the volume from the first of the cluster on. -/
theorem getCluster_eq {c buffer size : Nat} (hsize : size < 2147483648) (mem : Mem UInt8) :
    getCluster v fs c buffer size mem =
      some (mem.write buffer (v.bytes.read (512 * startsect fs c) size)) := by
  obtain ⟨herr, hmem⟩ := FatEntry.diskRead_healthy v (startsect fs c) buffer mem
    (show size / 512 ≤ 164 * 0xc800 by omega)
  obtain ⟨herr', hmem'⟩ := FatEntry.diskRead_healthy v (u32 (startsect fs c + size / 512)) 0
    (fun _ => 0) (show 1 ≤ 164 * 0xc800 by decide)
  have hsector := read_wrap v (startsect fs c + size / 512) 0 (512 * 1)
  have hsplit : size = 512 * (size / 512) + size % 512 := (Nat.div_add_mod size 512).symm
  have hlen : (v.bytes.read (512 * startsect fs c) (512 * (size / 512))).length = size / 512 * 512 := by
    rw [Mem.read_length, Nat.mul_comm]
  simp only [getCluster, herr, herr', hmem, hmem', Bool.false_eq_true, if_false]
  split_ifs with hrest
  · -- the rest of the last sector
    have htmp : (Mem.write (fun _ => 0) 0 (v.bytes.read (512 * u32 (startsect fs c + size / 512))
        (512 * 1))).read 0 (size % 512) =
          v.bytes.read (512 * startsect fs c + 512 * (size / 512)) (size % 512) := by
      rw [Nat.add_zero, Nat.add_zero, Nat.mul_add] at hsector
      have hwhole := @Mem.read_write UInt8 (fun _ => 0) 0
        (v.bytes.read (512 * u32 (startsect fs c + size / 512)) (512 * 1))
      rw [Mem.read_length] at hwhole
      rw [← Mem.take_read _ (show size % 512 ≤ 512 * 1 by omega), hwhole, hsector,
        Mem.take_read _ (by omega)]
    rw [htmp, ← hlen, Mem.write_append, ← Mem.read_add, ← hsplit]
  · rw [show 512 * (size / 512) = size by omega]

end Sectors

-- ============================================================================
-- Runs of clusters
-- ============================================================================

section Runs

variable {v : Volume} {fs : FsData} {t : Table} {cs : List Nat}

/-- The bytes of the clusters `c`, `c + 1`, ..., `c + j`. -/
def runBytes (v : Volume) (fs : FsData) (c j : Nat) : List UInt8 :=
  v.bytes.read (512 * startsect fs c) ((j + 1) * (fs.clustSize * 512))

theorem runBytes_zero (c : Nat) : runBytes v fs c 0 = clusterBytes v fs c := by
  rw [runBytes, Nat.zero_add, Nat.one_mul, clusterBytes]

@[simp] theorem runBytes_length (c j : Nat) :
    (runBytes v fs c j).length = (j + 1) * (fs.clustSize * 512) := Mem.read_length _

theorem read_cluster_add (v : Volume) (fs : FsData) (j : Nat) {c : Nat} (hc : 0 < c) (n : Nat) :
    v.bytes.read (512 * startsect fs (c + j)) n =
      v.bytes.read (512 * startsect fs c + j * (fs.clustSize * 512)) n := by
  have hwrap := read_wrap v (startsect fs c + j * fs.clustSize) 0 n
  rw [Nat.add_zero, Nat.add_zero] at hwrap
  rw [startsect_add hc, hwrap]
  congr 1
  ring

/-- The next cluster on the volume makes a run longer. -/
theorem runBytes_succ {c j : Nat} (hc : 0 < c) :
    runBytes v fs c (j + 1) = runBytes v fs c j ++ clusterBytes v fs (c + j + 1) := by
  rw [clusterBytes, Nat.add_assoc, read_cluster_add _ _ _ hc, runBytes, runBytes, Nat.succ_mul (j + 1),
    Mem.read_add]

theorem valid_bounds {c : Nat} (h : checkClust t.fatsize c = false) : 1 < c ∧ c < 4294967296 := by
  simp only [checkClust, Bool.or_eq_false_iff, decide_eq_false_iff_not] at h
  split at h <;> omega

/-- What holds at the head of the inner loop: the clusters from `curclust` to `endclust` are a
    run, and `actsize` counts their bytes. -/
structure InRun (v : Volume) (fs : FsData) (t : Table) (r : Reading) (j : Nat) : Prop where
  window : r.window.Holds v t
  valid : checkClust t.fatsize r.curclust = false ∧ checkClust t.fatsize r.endclust = false
  run : r.endclust = r.curclust + j
  actsize : r.actsize = (j + 1) * (fs.clustSize * 512)
  needed : r.actsize ≤ r.filesize + fs.clustSize * 512
  small : r.gotsize + r.filesize < 2147483648

/-- The last part of a run and the rest of the last cluster. -/
theorem finish_eq {r : Reading} {j : Nat} (h : InRun v fs t r j) (hclust : fs.clustSize < 65536)
    (hend : r.filesize ≤ r.actsize) :
    finish v fs r = ⟨r.gotsize + r.filesize,
      r.mem.write r.buffer ((runBytes v fs r.curclust j).take r.filesize)⟩ := by
  have hact := h.actsize
  have hneeded := h.needed
  have hsmall := h.small
  have hcur := valid_bounds h.valid.1
  have hbpc : bytesperclust fs = fs.clustSize * 512 := u32_of_lt (by omega)
  rw [Nat.succ_mul j] at hact
  have hrun : runBytes v fs r.curclust j = v.bytes.read (512 * startsect fs r.curclust)
      (j * (fs.clustSize * 512) + fs.clustSize * 512) := by
    rw [runBytes, Nat.succ_mul j]
  have hlast := read_cluster_add v fs j (show 0 < r.curclust by omega)
    (r.filesize - j * (fs.clustSize * 512))
  generalize j * (fs.clustSize * 512) = before at hact hrun hlast
  have hbefore : usub r.actsize (bytesperclust fs) = before := by
    rw [hbpc, usub_of_le (by omega) (by omega)]
    omega
  have hrest : usub r.filesize before = r.filesize - before := usub_of_le (by omega) (by omega)
  have hret : toInt (u32 (u32 (r.gotsize + before) + (r.filesize - before))) =
      r.gotsize + r.filesize := by
    have hsum : r.gotsize + before + (r.filesize - before) = r.gotsize + r.filesize := by omega
    rw [u32_add_left, hsum, u32_of_lt (by omega), toInt, if_pos (by omega)]
    push_cast
    rfl
  have hmem : (r.mem.write r.buffer (v.bytes.read (512 * startsect fs r.curclust) before)).write
      (r.buffer + before) (v.bytes.read (512 * startsect fs r.endclust) (r.filesize - before)) =
      r.mem.write r.buffer ((runBytes v fs r.curclust j).take r.filesize) := by
    rw [h.run, hlast, Mem.write_read_add, hrun, Mem.take_read _ (by omega)]
    congr 2
    omega
  rw [finish, hbefore]
  simp only [getCluster_eq (show before < 2147483648 by omega), hrest,
    getCluster_eq (show r.filesize - before < 2147483648 by omega), hret, hmem]

/-- A lookup of a cluster number. -/
theorem getFatent_next {w : Window} {c : Nat} (hlength : t.fatlength ≠ 0) (hsect : t.fatSect < 65536)
    (hw : w.Holds v t) (hc : c < 4294967296) :
    ∃ w', getFatent v t w (UInt32.ofNat c) = (w', next v t c) ∧ w'.Holds v t := by
  obtain ⟨hholds, hval⟩ := FatEntry.getFatent_step (UInt32.ofNat c) hlength hsect hw
  rw [UInt32.toNat_ofNat_of_lt' hc] at hval
  exact ⟨_, Prod.ext rfl hval, hholds⟩

theorem usub_one {c e : Nat} (hc : 1 < c) (hlt : c < 4294967296) : usub c 1 = e ↔ c = e + 1 := by
  rw [usub_of_le (by omega) hlt]
  omega

/-- The next cluster makes the run longer. -/
theorem InRun.extend {r : Reading} {j : Nat} {w : Window} (h : InRun v fs t r j)
    (hclust : fs.clustSize < 65536) (hw : w.Holds v t) (hlt : r.actsize < r.filesize)
    (hvalid : checkClust t.fatsize (r.endclust + 1) = false) :
    InRun v fs t { r with
      window := w, endclust := r.endclust + 1
      actsize := u32 (r.actsize + bytesperclust fs) } (j + 1) where
  window := hw
  valid := ⟨h.valid.1, hvalid⟩
  run := congrArg (· + 1) h.run
  actsize := by
    have hsmall := h.small
    have hbpc : bytesperclust fs = fs.clustSize * 512 := u32_of_lt (by omega)
    show u32 (r.actsize + bytesperclust fs) = _
    rw [hbpc, u32_of_lt (by omega), h.actsize, Nat.succ_mul (j + 1)]
  needed := by
    have hsmall := h.small
    have hbpc : bytesperclust fs = fs.clustSize * 512 := u32_of_lt (by omega)
    show u32 (r.actsize + bytesperclust fs) ≤ r.filesize + fs.clustSize * 512
    rw [hbpc, u32_of_lt (by omega)]
    omega
  small := h.small

/-- A cluster elsewhere begins a run. -/
theorem InRun.restart {r : Reading} {j c : Nat} {w : Window} (h : InRun v fs t r j) (mem : Mem UInt8)
    (hclust : fs.clustSize < 65536) (hw : w.Holds v t) (hlt : r.actsize < r.filesize)
    (hvalid : checkClust t.fatsize c = false) :
    InRun v fs t
      { window := w, curclust := c, endclust := c, actsize := bytesperclust fs
        filesize := r.filesize - r.actsize, gotsize := r.gotsize + r.actsize
        buffer := r.buffer + r.actsize, mem } 0 where
  window := hw
  valid := ⟨hvalid, hvalid⟩
  run := rfl
  actsize := by
    show bytesperclust fs = _
    rw [Nat.zero_add, Nat.one_mul, bytesperclust, u32_of_lt (by omega)]
  needed := by
    have hbpc : bytesperclust fs = fs.clustSize * 512 := u32_of_lt (by omega)
    show bytesperclust fs ≤ r.filesize - r.actsize + fs.clustSize * 512
    omega
  small := by
    have hsmall := h.small
    show r.gotsize + r.actsize + (r.filesize - r.actsize) < 2147483648
    omega

/-- **Runs.** However a chain falls into runs, its bytes are put together in its order. -/
theorem readRuns_eq (hlength : t.fatlength ≠ 0) (hsect : t.fatSect < 65536)
    (hclust : fs.clustSize < 65536) (bound : Nat) {j : Nat} {r : Reading} (h : InRun v fs t r j)
    (hchain : Follows v t (next v t r.endclust) cs)
    (hcover : r.filesize ≤ r.actsize + cs.length * (fs.clustSize * 512))
    (hbound : cs.length < bound) :
    readRuns v fs t bound r = some ⟨r.gotsize + r.filesize,
      r.mem.write r.buffer ((runBytes v fs r.curclust j ++ chainBytes v fs cs).take r.filesize)⟩ := by
  obtain ⟨bound, rfl⟩ : ∃ b, bound = b + 1 := ⟨bound - 1, by omega⟩
  have hlen : (runBytes v fs r.curclust j).length = r.actsize := by rw [runBytes_length, h.actsize]
  induction cs generalizing r j bound with
  | nil =>
    have hend : r.filesize ≤ r.actsize := by simpa using hcover
    rw [readRuns, if_neg (by omega), finish_eq h hclust hend, chainBytes, List.flatMap_nil,
      List.append_nil]
  | cons c cs ih =>
    by_cases hlt : r.actsize < r.filesize
    · obtain ⟨bound, rfl⟩ : ∃ b, bound = b + 1 := ⟨bound - 1, by simp at hbound; omega⟩
      obtain ⟨hc, hvalid, hrest⟩ := hchain
      obtain ⟨hlow, hhigh⟩ := valid_bounds hvalid
      obtain ⟨w, hget, hw⟩ := getFatent_next hlength hsect h.window (valid_bounds h.valid.2).2
      have hsmall := h.small
      rw [List.length_cons, Nat.succ_mul cs.length] at hcover
      rw [List.length_cons] at hbound
      rw [readRuns, if_pos hlt]
      simp only [hget]
      subst hc
      by_cases hnext : next v t r.endclust = r.endclust + 1
      · -- the run goes on
        have hjoin : runBytes v fs r.curclust j ++ chainBytes v fs (next v t r.endclust :: cs) =
            runBytes v fs r.curclust (j + 1) ++ chainBytes v fs cs := by
          rw [runBytes_succ (by have := valid_bounds h.valid.1; omega), hnext, h.run,
            List.append_assoc]
          rfl
        rw [if_neg (not_not.mpr ((usub_one hlow hhigh).mpr hnext)), if_neg (by simp [hvalid]), hjoin]
        rw [hnext] at hvalid hrest ⊢
        have hext := h.extend hclust hw hlt hvalid
        have hact : u32 (r.actsize + bytesperclust fs) = r.actsize + fs.clustSize * 512 := by
          rw [bytesperclust, u32_of_lt (show fs.clustSize * 512 < _ by omega), u32_of_lt (by omega)]
        refine ih hext hrest ?_ bound (by omega) ?_
        · show r.filesize ≤ u32 (r.actsize + bytesperclust fs) + _
          omega
        · rw [runBytes_length]
          exact hext.actsize.symm
      · -- the run is read, and another begins
        obtain ⟨w', hget', hw'⟩ := getFatent_next hlength hsect hw (valid_bounds h.valid.2).2
        have hnew := h.restart (r.mem.write r.buffer (runBytes v fs r.curclust j)) hclust hw' hlt hvalid
        have hread : getCluster v fs r.curclust r.buffer r.actsize r.mem =
            some (r.mem.write r.buffer (runBytes v fs r.curclust j)) := by
          rw [getCluster_eq (by omega), runBytes, h.actsize]
        have hleft : usub r.filesize r.actsize = r.filesize - r.actsize := usub_of_le (by omega) (by omega)
        rw [if_pos (mt (usub_one hlow hhigh).mp hnext)]
        simp only [hread, hget', hvalid, Bool.false_eq_true, if_false, hleft,
          u32_of_lt (show r.gotsize + r.actsize < 4294967296 by omega)]
        rw [ih hnew hrest ?_ bound (by omega) ?_]
        · have hret : ((r.gotsize + r.actsize : Nat) : Int) + ((r.filesize - r.actsize : Nat) : Int) =
              r.gotsize + r.filesize := by omega
          have hjoin : (runBytes v fs r.curclust j ++
                chainBytes v fs (next v t r.endclust :: cs)).take r.filesize =
              runBytes v fs r.curclust j ++ (runBytes v fs (next v t r.endclust) 0 ++
                chainBytes v fs cs).take (r.filesize - r.actsize) := by
            rw [List.take_append, hlen, List.take_of_length_le (by omega), runBytes_zero]
            rfl
          dsimp only
          rw [hret, hjoin, ← hlen, Mem.write_append]
        · show r.filesize - r.actsize ≤ bytesperclust fs + _
          rw [bytesperclust, u32_of_lt (by omega)]
          omega
        · rw [runBytes_length]
          exact hnew.actsize.symm
    · rw [readRuns, if_neg hlt, finish_eq h hclust (by omega), List.take_append_of_le_length (by omega)]

end Runs

-- ============================================================================
-- Files
-- ============================================================================

/-- The bytes that are wanted: all of them if the limit is 0. -/
def wanted (d : DirEntry) (maxsize : Nat) : Nat :=
  if maxsize = 0 then fileSize d else min (fileSize d) maxsize

/-- A file on a volume whose table has a length in 16 bits: its chain of valid clusters holds
    `n` bytes, a number that `get_contents` can return. -/
structure ValidFile (v : Volume) (fatsize : FatSize) (d : DirEntry) (cs : List Nat) (n : Nat) : Prop where
  table : (tableOf v.bytes fatsize).fatlength ≠ 0
  chain : Follows v (tableOf v.bytes fatsize) (start fatsize d) cs
  covers : n ≤ cs.length * ((fsData v.bytes fatsize).clustSize * 512)
  small : n < 2147483648

section Files

variable {v : Volume} {fatsize : FatSize} {d : DirEntry} {cs : List Nat} {maxsize bound : Nat}

theorem sizeToRead_eq (d : DirEntry) (maxsize : Nat) : sizeToRead d maxsize = wanted d maxsize := by
  rw [sizeToRead, wanted]
  split <;> split <;> omega

theorem clustSize_lt (m : Mem UInt8) (fatsize : FatSize) : (fsData m fatsize).clustSize < 65536 := by
  have h := (m 13).toNat_lt
  show (m 13).toNat < 65536
  omega

/-- Nothing is read of an empty file, whatever its first cluster is. -/
theorem readRuns_empty {fs : FsData} {t : Table} {r : Reading} (hbound : 0 < bound)
    (hact : r.actsize = bytesperclust fs) (hsize : r.filesize = 0)
    (hgot : r.gotsize = 0) : readRuns v fs t bound r = some ⟨0, r.mem⟩ := by
  obtain ⟨bound, rfl⟩ : ∃ b, bound = b + 1 := ⟨bound - 1, by omega⟩
  have hzero : usub r.actsize (bytesperclust fs) = 0 := by
    have hlt : bytesperclust fs < 4294967296 := u32_lt _
    rw [hact, usub_of_le (Nat.le_refl _) hlt, Nat.sub_self]
  have hnothing : ∀ c buf mem, getCluster v fs c buf 0 mem = some mem := fun c buf mem => by
    rw [getCluster_eq (by decide)]
    exact congrArg some (Mem.write_nil mem)
  have hleft : usub 0 0 = 0 := by decide
  rw [readRuns, if_neg (by omega), finish, hzero]
  simp only [hsize, hgot, hleft, hnothing]
  rfl

end Files

/-- A FAT16 volume with clusters of one sector, in which 5, 6 and 3 are linked. -/
def smallFat : Volume where
  partOffset := 63
  data := fun s o =>
    if s = 63 then
      if 54 ≤ o then fat16Sign.getD (o - 54) 0
      else if o = 13 ∨ o = 14 ∨ o = 16 ∨ o = 22 then 1 else if o = 17 then 16 else 0
    else if s = 64 then if o = 10 then 6 else if o = 12 then 3 else if o = 6 ∨ o = 7 then 0xff else 0
    else UInt8.ofNat s

/-- The entry of a file of `size` bytes from cluster 5 on. -/
def fileEntry (size : Nat) : DirEntry := List.replicate 26 0 ++ le16 5 ++ le32 size

theorem validFile_twoRuns :
    ValidFile smallFat .fat16 (fileEntry 1400) [5, 6, 3] (wanted (fileEntry 1400) 1100) where
  table := by decide +kernel
  chain := by
    refine ⟨?_, ?_, ?_, ?_, ?_, ?_, trivial⟩
    all_goals decide +kernel
  covers := by decide +kernel
  small := by decide +kernel

end Uboot.Fs.FatContents
