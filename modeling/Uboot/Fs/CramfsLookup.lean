/-
  Uboot.Fs.CramfsLookup

  The inode a path names in a cramfs image, and when `cramfs_resolve` finds it: the names of the
  image are compared as beginnings of the components, and a search that has gone into the wrong
  entry does not come back.
-/

import Uboot.Fs.Cramfs
import Uboot.LibGeneric.Vsprintf

namespace Uboot.Fs.CramfsLookup

open Uboot.Lib Uboot.LibGeneric Uboot.Fs.Cramfs

section Paths

variable (m : Mem UInt8) (begin : Nat)

/-- Where the directory of an inode is. -/
def dirOffset (a : Nat) : Nat := inodeOffset m (begin + a) * 4

def dirSize (a : Nat) : Nat := inodeSize m (begin + a)

-- ============================================================================
-- The inode a path names
-- ============================================================================

/-- The entry with a name. -/
def findName (offset size : Nat) (c : List UInt8) : Option Nat :=
  (entries m begin offset size).find? fun a => nameOf m (begin + a) = c

/-- The inode that is reached over directories with the names of the components. -/
def lookup : List (List UInt8) → Nat → Nat → Option Nat
  | [], _, _ => none
  | c :: cs, offset, size =>
    match findName m begin offset size c with
    | none => none
    | some a =>
      if cs = [] then some a
      else if isDir m (begin + a) then lookup cs (dirOffset m begin a) (dirSize m begin a)
      else none

/-- The directories of an image, with the inodes on the way to them, the last one first. -/
inductive Reached (offset size : Nat) : List Nat → Nat → Nat → Prop
  | root : Reached offset size [] offset size
  | sub {ds off sz a} : Reached offset size ds off sz → a ∈ entries m begin off sz → isDir m (begin + a) →
      Reached offset size (a :: ds) (dirOffset m begin a) (dirSize m begin a)

/-- An image with its root directory at `offset`: the entries have names, a directory that is not
    empty stands behind the superblock, and every inode stands in one directory. -/
structure WellFormed (offset size : Nat) : Prop where
  named : ∀ {ds off sz}, Reached m begin offset size ds off sz → ∀ a ∈ entries m begin off sz, Named m (begin + a)
  behind : ∀ {ds off sz}, Reached m begin offset size ds off sz → sz ≠ 0 → off ≠ 0
  unshared : ∀ {ds off sz ds' off' sz' a}, Reached m begin offset size ds off sz →
    Reached m begin offset size ds' off' sz' → a ∈ entries m begin off sz → a ∈ entries m begin off' sz' →
      ds.head? = ds'.head?

/-- What is returned is right: the inode that is named, or a failure where none is. -/
def Resolves (r named : Option Nat) : Prop :=
  ∃ v, r = some v ∧
    match named with
    | some a => v = a ∧ isFailure v = false
    | none => isFailure v = true

-- ============================================================================
-- The search component by component
-- ============================================================================

/-- `cramfs_resolve` on the components of a path. -/
def walk (raw : Bool) : List (List UInt8) → Nat → Nat → Option Nat
  | [], _, size => if size = 0 then some 0 else none
  | c :: cs, offset, size =>
    match findPrefix m begin offset size c with
    | none => some 0
    | some a =>
      if raw ∧ cs = [] then some a
      else if isDir m (begin + a) then walk raw cs (dirOffset m begin a) (dirSize m begin a)
      else if isReg m (begin + a) then some a
      else some 0

/-- The search behind an entry that has been taken ends with a failure: at an entry that is neither
    a directory nor a file, in an empty directory, or where no name is the beginning of a component. -/
def DeadEnd (raw : Bool) : List (List UInt8) → Nat → Prop
  | [], a => raw = false ∧ ¬isReg m (begin + a) ∧ (isDir m (begin + a) → dirSize m begin a = 0)
  | c :: cs, a =>
    if isDir m (begin + a) then
      match findPrefix m begin (dirOffset m begin a) (dirSize m begin a) c with
      | none => True
      | some a' => DeadEnd raw cs a'
    else ¬isReg m (begin + a)

/-- The condition on a path.  In every directory on the way, the first entry whose name is the
    beginning of the component has the whole component for its name; a component behind a file does
    not follow, and without `raw` a file is named.  Only a path that names nothing may go on from
    another entry, to a dead end. -/
def Fine (raw : Bool) : List (List UInt8) → Nat → Nat → Prop
  | [], _, size => size = 0
  | c :: cs, offset, size =>
    match findPrefix m begin offset size c with
    | none => True
    | some a =>
      if nameOf m (begin + a) = c then
        if cs = [] then raw ∨ isReg m (begin + a)
        else if isDir m (begin + a) then Fine raw cs (dirOffset m begin a) (dirSize m begin a)
        else ¬isReg m (begin + a)
      else lookup m begin (c :: cs) offset size = none ∧ DeadEnd m begin raw cs a

end Paths

section Walk

variable {m : Mem UInt8} {begin offset size off sz off' sz' a a' v : Nat} {ds ds' : List Nat} {raw : Bool}
variable {c : List UInt8} {cs : List (List UInt8)}

theorem getD_head_eq_nil_iff (saved : Option (List UInt8)) :
    (piecesOf slash saved).head?.getD [] = [] ↔ piecesOf slash saved = [] := by
  cases h : piecesOf slash saved with
  | nil => simp
  | cons c cs =>
    have hc : c ∈ piecesOf slash saved := by simp [h]
    have hne : c ≠ [] := piecesOf_ne_nil hc
    simp [hne]

/-- `strtok` hands out the components one by one. -/
theorem cramfsResolve_eq_walk (h : WellFormed m begin offset size) (hr : Reached m begin offset size ds off sz)
    {comps : List (List UInt8)} {filename saved : Option (List UInt8)} (hfilename : filename = comps.head?)
    (hsaved : piecesOf slash saved = comps.tail) :
    cramfsResolve m begin raw off sz filename saved = walk m begin raw comps off sz := by
  induction comps generalizing ds off sz filename saved with
  | nil =>
    subst hfilename
    have hnull := findEntry_null (h.named hr)
    rw [cramfsResolve, walk]
    dsimp only [List.head?_nil]
    by_cases hempty : sz = 0
    · rw [if_pos hempty] at hnull ⊢
      rw [hnull]
    · rw [if_neg hempty] at hnull ⊢
      rw [hnull]
  | cons c cs ih =>
    subst hfilename
    rw [List.tail_cons] at hsaved
    obtain ⟨hfirst, hrest⟩ := strtok_pieces slash none saved
    rw [Option.none_or, hsaved] at hfirst hrest
    have hlast : (strtok slash none saved).1.getD [] = [] ↔ cs = [] := by
      rw [hfirst, ← hsaved]
      exact getD_head_eq_nil_iff saved
    have hfound : findEntry m (begin + off) sz (some c) 0 = match findPrefix m begin off sz c with
      | none => .missing
      | some a => .entry (a - off) := findEntry_some c (h.named hr)
    rw [cramfsResolve, walk]
    dsimp only [List.head?_cons]
    cases ha : findPrefix m begin off sz c with
    | none =>
      rw [ha] at hfound
      rw [hfound]
    | some a =>
      rw [ha] at hfound
      rw [hfound]
      have hmem : a ∈ entries m begin off sz := List.mem_of_find?_eq_some ha
      have hback : off + (a - off) = a := Nat.add_sub_cancel' (le_of_mem_entriesFrom hmem)
      dsimp only
      rw [Nat.add_assoc, hback]
      simp only [hlast]
      split
      · rfl
      · split
        · rename_i hdir
          exact ih (hr.sub hmem hdir) hfirst hrest
        · rfl

-- ============================================================================
-- One inode, one place
-- ============================================================================

/-- `a` stands in the directory that `ds` leads to. -/
def Stands (m : Mem UInt8) (begin offset size : Nat) : List Nat → Prop
  | [] => False
  | a :: ds => ∃ off sz, Reached m begin offset size ds off sz ∧ a ∈ entries m begin off sz

/-- `v` is `a` or stands below it. -/
inductive Below (m : Mem UInt8) (begin : Nat) : Nat → Nat → Prop
  | refl (x : Nat) : Below m begin x x
  | sub {x y z} : isDir m (begin + x) → y ∈ entries m begin (dirOffset m begin x) (dirSize m begin x) →
      Below m begin y z → Below m begin x z

/-- Two ways to one inode are one. -/
theorem stands_unique (h : WellFormed m begin offset size) (hs : Stands m begin offset size (a :: ds))
    (hs' : Stands m begin offset size (a :: ds')) : ds = ds' := by
  obtain ⟨off, sz, hr, ha⟩ := hs
  obtain ⟨off', sz', hr', ha'⟩ := hs'
  induction hr generalizing a ds' off' sz' with
  | root =>
    have hhead := h.unshared .root hr' ha ha'
    cases hr' with
    | root => rfl
    | sub => cases hhead
  | @sub ds off sz d hr hd hdir ih =>
    have hhead := h.unshared (hr.sub hd hdir) hr' ha ha'
    cases hr' with
    | root => cases hhead
    | @sub ds' off' sz' d' hr' hd' hdir' =>
      obtain rfl : d = d' := Option.some.inj hhead
      rw [ih hd off' sz' hr' hd']

/-- What is below an inode stands behind it. -/
theorem Below.stands (hb : Below m begin a v) (hs : Stands m begin offset size (a :: ds)) :
    ∃ ys, Stands m begin offset size (ys ++ a :: ds) ∧ (ys ++ a :: ds).head? = some v := by
  induction hb generalizing ds with
  | refl a => exact ⟨[], hs, rfl⟩
  | @sub a a' v hdir ha' hb ih =>
    obtain ⟨off, sz, hr, ha⟩ := hs
    obtain ⟨ys, hstands, hhead⟩ := @ih (a :: ds) ⟨_, _, hr.sub ha hdir, ha'⟩
    rw [List.append_cons] at hstands hhead
    exact ⟨ys ++ [a'], hstands, hhead⟩

/-- Nothing is below two entries of a directory. -/
theorem below_unique (h : WellFormed m begin offset size) (hs : Stands m begin offset size (a :: ds))
    (hs' : Stands m begin offset size (a' :: ds)) (hb : Below m begin a v) (hb' : Below m begin a' v) : a = a' := by
  obtain ⟨ys, hstands, hhead⟩ := hb.stands hs
  obtain ⟨ys', hstands', hhead'⟩ := hb'.stands hs'
  obtain ⟨rest, hrest⟩ := List.head?_eq_some_iff.1 hhead
  obtain ⟨rest', hrest'⟩ := List.head?_eq_some_iff.1 hhead'
  rw [hrest] at hstands
  rw [hrest'] at hstands'
  have heq : ys ++ a :: ds = ys' ++ a' :: ds := by rw [hrest, hrest', stands_unique h hstands hstands']
  have hlen : ys.length = ys'.length := by
    have hlengths := congrArg List.length heq
    simp only [List.length_append, List.length_cons] at hlengths
    omega
  exact (List.cons.inj (List.append_inj heq hlen).2).1

-- ============================================================================
-- Ends of the search
-- ============================================================================

/-- The search from an entry that has been taken. -/
def walkEntry (m : Mem UInt8) (begin : Nat) (raw : Bool) (cs : List (List UInt8)) (a : Nat) : Option Nat :=
  if raw ∧ cs = [] then some a
  else if isDir m (begin + a) then walk m begin raw cs (dirOffset m begin a) (dirSize m begin a)
  else if isReg m (begin + a) then some a
  else some 0

theorem walk_cons (h : findPrefix m begin off sz c = some a) :
    walk m begin raw (c :: cs) off sz = walkEntry m begin raw cs a := by
  rw [walk, h]
  rfl

theorem walk_cons_none (h : findPrefix m begin off sz c = none) : walk m begin raw (c :: cs) off sz = some 0 := by
  rw [walk, h]

theorem isReg_eq_false (h : isDir m a = true) : isReg m a = false := by
  simp only [isDir, isReg, decide_eq_true_eq, decide_eq_false_iff_not] at h ⊢
  omega

/-- What the search returns stands below the entry it has taken, or is a failure. -/
theorem walkEntry_below (h : walkEntry m begin raw cs a = some v) (hv : v ≠ 0) : Below m begin a v := by
  induction cs generalizing a with
  | nil =>
    rw [walkEntry, walk] at h
    split at h
    · obtain rfl := Option.some.inj h
      exact .refl a
    · split at h
      · split at h
        · exact absurd (Option.some.inj h).symm hv
        · cases h
      · split at h
        · obtain rfl := Option.some.inj h
          exact .refl a
        · exact absurd (Option.some.inj h).symm hv
  | cons c cs ih =>
    rw [walkEntry, if_neg (by simp)] at h
    split at h
    · rename_i hdir
      cases hfind : findPrefix m begin (dirOffset m begin a) (dirSize m begin a) c with
      | none =>
        rw [walk_cons_none hfind] at h
        exact absurd (Option.some.inj h).symm hv
      | some a' =>
        rw [walk_cons hfind] at h
        exact .sub hdir (List.mem_of_find?_eq_some hfind) (ih h)
    · split at h
      · obtain rfl := Option.some.inj h
        exact .refl a
      · exact absurd (Option.some.inj h).symm hv

theorem lookup_below (h : lookup m begin (c :: cs) off sz = some v) :
    ∃ a, findName m begin off sz c = some a ∧ Below m begin a v := by
  induction cs generalizing c off sz with
  | nil =>
    rw [lookup] at h
    cases hfind : findName m begin off sz c with
    | none => simp [hfind] at h
    | some a =>
      rw [hfind] at h
      obtain rfl := Option.some.inj h
      exact ⟨a, rfl, .refl a⟩
  | cons c' cs ih =>
    rw [lookup] at h
    cases hfind : findName m begin off sz c with
    | none => simp [hfind] at h
    | some a =>
      rw [hfind] at h
      dsimp only at h
      rw [if_neg (List.cons_ne_nil _ _)] at h
      split at h
      · rename_i hdir
        obtain ⟨a', hfind', hbelow⟩ := ih h
        exact ⟨a, rfl, .sub hdir (List.mem_of_find?_eq_some hfind') hbelow⟩
      · cases h

/-- No inode is at the offset that stands for a failure. -/
theorem entry_ne_zero (h : WellFormed m begin offset size) (hr : Reached m begin offset size ds off sz)
    (ha : a ∈ entries m begin off sz) : a ≠ 0 := by
  have hle : off ≤ a := le_of_mem_entriesFrom ha
  have hoff : off ≠ 0 := by
    apply h.behind hr
    rintro rfl
    rw [entries, entriesFrom, if_neg (Nat.lt_irrefl 0)] at ha
    exact absurd ha List.not_mem_nil
  omega

/-- The search behind an entry fails at dead ends only. -/
theorem walkEntry_failure_iff (h : WellFormed m begin offset size) (hr : Reached m begin offset size ds off sz)
    (ha : a ∈ entries m begin off sz) : walkEntry m begin raw cs a = some 0 ↔ DeadEnd m begin raw cs a := by
  have hne := entry_ne_zero h hr ha
  induction cs generalizing ds off sz a with
  | nil =>
    rw [walkEntry, walk, DeadEnd]
    by_cases hdir : isDir m (begin + a)
    · have hreg := isReg_eq_false hdir
      cases raw <;> simp [hdir, hreg, hne]
    · cases raw <;> cases isReg m (begin + a) <;> simp [hdir, hne]
  | cons c cs ih =>
    rw [walkEntry, DeadEnd, if_neg (by simp)]
    by_cases hdir : isDir m (begin + a)
    · rw [if_pos hdir, if_pos hdir]
      cases hfind : findPrefix m begin (dirOffset m begin a) (dirSize m begin a) c with
      | none => simp [walk_cons_none hfind]
      | some a' =>
        have ha' := List.mem_of_find?_eq_some hfind
        have hr' := hr.sub ha hdir
        rw [walk_cons hfind]
        exact ih hr' ha' (entry_ne_zero h hr' ha')
    · cases isReg m (begin + a) <;> simp [hdir, hne]

-- ============================================================================
-- Right answers
-- ============================================================================

theorem resolves_named_iff {r : Option Nat} (ha : a ≠ 0) : Resolves r (some a) ↔ r = some a := by
  constructor
  · rintro ⟨v, rfl, rfl, -⟩
    rfl
  · rintro rfl
    exact ⟨a, rfl, rfl, by simpa [isFailure] using ha⟩

theorem resolves_none_iff {r : Option Nat} : Resolves r none ↔ r = some 0 := by
  constructor
  · rintro ⟨v, rfl, hv⟩
    simpa [isFailure] using hv
  · rintro rfl
    exact ⟨0, rfl, rfl⟩

/-- An entry with the whole component for its name is the first such entry. -/
theorem findName_eq (h : findPrefix m begin off sz c = some a) (hname : nameOf m (begin + a) = c) :
    findName m begin off sz c = some a := by
  obtain ⟨-, as, bs, hsplit, hbefore⟩ := List.find?_eq_some_iff_append.1 h
  rw [findName, List.find?_eq_some_iff_append]
  refine ⟨by simpa using hname, as, bs, hsplit, fun x hx => ?_⟩
  have hnot := hbefore x hx
  simp only [Bool.not_eq_true', decide_eq_false_iff_not] at hnot ⊢
  exact fun heq => hnot (heq ▸ List.prefix_rfl)

/-- Without an entry whose name is the beginning of the component none has the component for its name. -/
theorem findName_none (h : findPrefix m begin off sz c = none) : findName m begin off sz c = none := by
  rw [findPrefix, List.find?_eq_none] at h
  rw [findName, List.find?_eq_none]
  intro x hx
  have hnot := h x hx
  simp only [decide_eq_true_eq] at hnot ⊢
  exact fun heq => hnot (heq ▸ List.prefix_rfl)

/-- The step from an entry with the right name, where components follow. -/
theorem lookup_cons (h : findName m begin off sz c = some a) (hcs : cs ≠ []) :
    lookup m begin (c :: cs) off sz =
      if isDir m (begin + a) then lookup m begin cs (dirOffset m begin a) (dirSize m begin a) else none := by
  rw [lookup, h]
  dsimp only
  rw [if_neg hcs]

/-- An entry that has been taken for the beginning of a component does not lead to the inode that is
    named. -/
theorem wrong_entry_iff (h : WellFormed m begin offset size) (hr : Reached m begin offset size ds off sz)
    (ha : findPrefix m begin off sz c = some a) (hname : nameOf m (begin + a) ≠ c) :
    Resolves (walkEntry m begin raw cs a) (lookup m begin (c :: cs) off sz) ↔
      lookup m begin (c :: cs) off sz = none ∧ DeadEnd m begin raw cs a := by
  have hmem : a ∈ entries m begin off sz := List.mem_of_find?_eq_some ha
  rw [← walkEntry_failure_iff h hr hmem]
  cases hlookup : lookup m begin (c :: cs) off sz with
  | none => simp [resolves_none_iff]
  | some t =>
    refine iff_of_false ?_ (by simp)
    rintro ⟨v, hv, rfl, hsuccess⟩
    obtain ⟨e, he, hbelow⟩ := lookup_below hlookup
    have hne : v ≠ 0 := by simpa [isFailure] using hsuccess
    obtain rfl := below_unique h ⟨off, sz, hr, hmem⟩ ⟨off, sz, hr, List.mem_of_find?_eq_some he⟩
      (walkEntry_below hv hne) hbelow
    exact hname (by simpa using List.find?_some he)

theorem walk_resolves_iff (h : WellFormed m begin offset size) (hr : Reached m begin offset size ds off sz)
    (comps : List (List UInt8)) :
    Resolves (walk m begin raw comps off sz) (lookup m begin comps off sz) ↔ Fine m begin raw comps off sz := by
  induction comps generalizing ds off sz with
  | nil =>
    rw [walk, lookup, Fine, resolves_none_iff]
    split <;> simp [*]
  | cons c cs ih =>
    rw [Fine]
    cases hfind : findPrefix m begin off sz c with
    | none =>
      rw [walk_cons_none hfind, lookup, findName_none hfind]
      simp [resolves_none_iff]
    | some a =>
      have hmem : a ∈ entries m begin off sz := List.mem_of_find?_eq_some hfind
      have hne := entry_ne_zero h hr hmem
      rw [walk_cons hfind]
      dsimp only
      by_cases hname : nameOf m (begin + a) = c
      · rw [if_pos hname]
        have hexact := findName_eq hfind hname
        by_cases hcs : cs = []
        · subst hcs
          rw [if_pos rfl, lookup, hexact]
          dsimp only
          rw [if_pos rfl, resolves_named_iff hne, walkEntry, walk]
          by_cases hdir : isDir m (begin + a)
          · have hreg := isReg_eq_false hdir
            cases raw
            · by_cases hempty : dirSize m begin a = 0 <;> simp [hdir, hreg, hempty, Ne.symm hne]
            · simp
          · cases raw <;> cases isReg m (begin + a) <;> simp [hdir, Ne.symm hne]
        · rw [if_neg hcs, lookup_cons hexact hcs, walkEntry, if_neg fun hraw => hcs hraw.2]
          by_cases hdir : isDir m (begin + a)
          · rw [if_pos hdir, if_pos hdir, if_pos hdir]
            exact ih (hr.sub hmem hdir)
          · rw [if_neg hdir, if_neg hdir, if_neg hdir, resolves_none_iff]
            cases isReg m (begin + a) <;> simp [hne]
      · rw [if_neg hname]
        exact wrong_entry_iff h hr hfind hname

end Walk

/-- The components of a path. -/
def components (path : List UInt8) : List (List UInt8) := pieces slash path

theorem resolvePath_eq_walk {m : Mem UInt8} {begin offset size : Nat} (h : WellFormed m begin offset size)
    (raw : Bool) (path : List UInt8) :
    resolvePath m begin raw offset size path = walk m begin raw (components path) offset size := by
  obtain ⟨hfirst, hrest⟩ := strtok_pieces slash (some path) none
  rw [Option.some_or] at hfirst hrest
  exact cramfsResolve_eq_walk h .root hfirst hrest

/-- **Paths.** In a well-formed image every path is resolved to the inode it names, and to a failure
    where it names none, just when its components are met by whole names. -/
theorem resolvePath_resolves_iff {m : Mem UInt8} {begin offset size : Nat} (h : WellFormed m begin offset size)
    (raw : Bool) (path : List UInt8) :
    Resolves (resolvePath m begin raw offset size path) (lookup m begin (components path) offset size) ↔
      Fine m begin raw (components path) offset size := by
  rw [resolvePath_eq_walk h]
  exact walk_resolves_iff h .root (components path)

/-- An image whose root directory holds one file, `foo`. -/
def oneFile : Mem UInt8 :=
  Mem.write (fun _ => 0) 76 ([0x00, 0x80, 0, 0, 0, 0, 0, 0, 0x01, 0, 0, 0] ++ ascii "foo")

theorem entries_oneFile : entries oneFile 0 76 16 = [76] := by
  have hlength : recordLength oneFile 76 = 16 := by decide
  rw [entries, entriesFrom, if_pos (by decide), entriesFrom]
  simp [hlength]

theorem wellFormed_oneFile : WellFormed oneFile 0 76 16 := by
  have honly : ∀ {ds off sz}, Reached oneFile 0 76 16 ds off sz → ds = [] ∧ off = 76 ∧ sz = 16 := by
    intro ds off sz hr
    induction hr with
    | root => exact ⟨rfl, rfl, rfl⟩
    | sub hr ha hdir ih =>
      obtain ⟨-, rfl, rfl⟩ := ih
      rw [entries_oneFile, List.mem_singleton] at ha
      subst ha
      exact absurd hdir (by decide)
  constructor
  · intro ds off sz hr a ha
    obtain ⟨-, rfl, rfl⟩ := honly hr
    rw [entries_oneFile, List.mem_singleton] at ha
    subst ha
    exact ⟨by decide, by decide⟩
  · intro ds off sz hr _
    rw [(honly hr).2.1]
    decide
  · intro ds off sz ds' off' sz' a hr hr' _ _
    rw [(honly hr).1, (honly hr').1]

theorem resolvePath_resolves_foo :
    Resolves (resolvePath oneFile 0 false 76 16 (ascii "/foo")) (lookup oneFile 0 (components (ascii "/foo")) 76 16) ↔
      Fine oneFile 0 false (components (ascii "/foo")) 76 16 :=
  resolvePath_resolves_iff wellFormed_oneFile false (ascii "/foo")

/-- `foobar` is resolved to `foo`. -/
theorem resolvePath_foobar : ¬Resolves (resolvePath oneFile 0 false 76 16 (ascii "foobar"))
    (lookup oneFile 0 (components (ascii "foobar")) 76 16) := by
  have hcomps : components (ascii "foobar") = [ascii "foobar"] := by decide
  have hfind : findPrefix oneFile 0 76 16 (ascii "foobar") = some 76 := by
    rw [findPrefix, entries_oneFile]
    decide
  rw [resolvePath_eq_walk wellFormed_oneFile, hcomps, walk_resolves_iff wellFormed_oneFile .root, Fine, hfind]
  dsimp only
  rw [if_neg (by decide)]
  rintro ⟨-, -, hreg, -⟩
  exact hreg (by decide)

end Uboot.Fs.CramfsLookup
