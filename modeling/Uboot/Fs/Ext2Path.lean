/-
  Uboot.Fs.Ext2Path

  `ext2fs_read_symlink`, `ext2fs_find_file1` and `ext2fs_find_file` of fs/ext2/ext2fs.c: the
  search for a path, and whether it ends.

  The calls of `ext2fs_find_file1` within each other are as many as there are links, which
  `symlinknest` counts; the search goes on for ever in a directory only.
-/

import Uboot.Fs.Ext2Dir

namespace Uboot.Fs.Ext2Path

open Uboot.Lib Uboot.Fs.Ext2 Uboot.Fs.Ext2Dir Relation

-- ============================================================================
-- Links
-- ============================================================================

/-- `ext2fs_read_symlink`: the text up to its terminator. -/
def readSymlink (v : Volume) (g : Globals) (node : Node) : Globals × Option (List UInt8) :=
  match v.inodeOf g node with
  | (g, none) => (g, none)
  | (g, some m) =>
    let malloced := v.e.malloc g.mallocs
    let g := { g with mallocs := g.mallocs + 1 }
    match malloced with
    | none => (g, none)
    | some buf =>
      if m.size ≤ 60 then (g, some ((m.symlink.take m.size).takeWhile (· ≠ 0)))
      else
        let r := ext2fsReadFile v.e v.data g m.inode 0 m.size (by decide) (rd32_lt m 4) ⟨buf, []⟩ 0
        -- -1 is not taken for an error
        if r.ret = some 0 then (r.globals, none)
        else (r.globals, some ((r.ram.cells.read 0 m.size).takeWhile (· ≠ 0)))

-- ============================================================================
-- ext2fs_find_file1
-- ============================================================================

/-- The names in a path. -/
def names (path : List UInt8) : List (List UInt8) := (path.splitOn 47).filter (· ≠ [])

/-- `EXT2_MAX_SYMLINKCNT`. -/
def maxSymlinkcnt : Nat := 8

/-- `ext2fs_find_file1` before it looks for a name: the globals, the names that are left, and the
    node with its type. -/
structure Task where
  globals : Globals
  symlinknest : Nat
  names : List (List UInt8)
  node : Node
  type : FileType

/-- A call; where the path has no name, `*foundtype` stays as it is. -/
def Task.call (g : Globals) (symlinknest : Nat) (foundtype : FileType) (path : List UInt8) (currroot : Node) : Task where
  globals := g
  symlinknest
  names := Ext2Path.names path
  node := currroot
  type := if Ext2Path.names path = [] then foundtype else .directory

/-- What a call returns: 0, or 1 with the node and its type; or it has no meaning. -/
inductive Found
  | notFound
  | found (node : Node) (type : FileType)
  | undefined

/-- How a call ends. -/
structure Outcome where
  globals : Globals
  symlinknest : Nat
  result : Found

/-- `ext2fs_find_file1`; `none` when the bound on calls and turns is too small. -/
def findFile1 (v : Volume) : Nat → Task → Option Outcome
  | 0, _ => none
  | n + 1, t =>
    match t.names with
    | [] => some ⟨t.globals, t.symlinknest, .found t.node t.type⟩
    | name :: rest =>
      if t.type ≠ .directory then some ⟨t.globals, t.symlinknest, .notFound⟩
      else
        match ext2fsIterateDir v n t.globals t.node (some name) with
        | none => none
        | some (g, .notFound _) => some ⟨g, t.symlinknest, .notFound⟩
        | some (g, .undefined) => some ⟨g, t.symlinknest, .undefined⟩
        | some (g, .found node type) =>
          if type ≠ .symlink then findFile1 v n ⟨g, t.symlinknest, rest, node, type⟩
          else if t.symlinknest + 1 = maxSymlinkcnt then some ⟨g, t.symlinknest + 1, .notFound⟩
          else
            match readSymlink v g node with
            | (g, none) => some ⟨g, t.symlinknest + 1, .notFound⟩
            | (g, some text) =>
              let oldnode := if text.head? = some 47 then v.diropen else t.node
              match findFile1 v n (.call g (t.symlinknest + 1) type text oldnode) with
              | none => none
              | some ⟨g, symlinknest, .found node type⟩ => findFile1 v n ⟨g, symlinknest, rest, node, type⟩
              | some o => some o

/-- `ext2fs_find_file`; `path` may be `NULL`. -/
def ext2fsFindFile (v : Volume) (n : Nat) (g : Globals) (path : Option (List UInt8)) (rootnode : Node)
    (expecttype : FileType) : Option Outcome :=
  match path with
  | none => some ⟨g, 0, .notFound⟩
  | some path =>
    (findFile1 v n (.call g 0 .directory path rootnode)).map fun o =>
      match o.result with
      | .found _ type =>
        if (expecttype = .reg ∨ expecttype = .directory) ∧ type ≠ expecttype then { o with result := .notFound }
        else o
      | _ => o

-- ============================================================================
-- Ends
-- ============================================================================

/-- `ext2fs_find_file` ends, not without a meaning, and with no more links counted. -/
def FindEnds (v : Volume) (g : Globals) (path : Option (List UInt8)) (rootnode : Node) (expecttype : FileType) : Prop :=
  ∃ n o, ext2fsFindFile v n g path rootnode expecttype = some o ∧ o.result ≠ .undefined ∧
    o.symlinknest ≤ maxSymlinkcnt

/-- In its directory a task finds the first of its names; `rest` are the others. -/
def Finds (v : Volume) (n : Nat) (t : Task) (g : Globals) (node : Node) (type : FileType)
    (rest : List (List UInt8)) : Prop :=
  ∃ name, t.names = name :: rest ∧ t.type = .directory ∧
    ext2fsIterateDir v n t.globals t.node (some name) = some (g, .found node type)

/-- What it finds is a link, and `t'` looks for the path in it. -/
def Follows (v : Volume) (n : Nat) (t t' : Task) (rest : List (List UInt8)) : Prop :=
  ∃ g node g' text, Finds v n t g node .symlink rest ∧ t.symlinknest + 1 ≠ maxSymlinkcnt ∧
    readSymlink v g node = (g', some text) ∧
    t' = .call g' (t.symlinknest + 1) .symlink text (if text.head? = some 47 then v.diropen else t.node)

/-- The next task: to go on in the node that has been found, to look for the path in a link, or
    to go on behind the link. -/
inductive Leads (v : Volume) (t : Task) : Task → Prop
  | step {n g node type rest} : Finds v n t g node type rest → type ≠ .symlink →
      Leads v t ⟨g, t.symlinknest, rest, node, type⟩
  | follow {n t' rest} : Follows v n t t' rest → Leads v t t'
  | back {n t' rest o node type} : Follows v n t t' rest → findFile1 v n t' = some o →
      o.result = .found node type → Leads v t ⟨o.globals, o.symlinknest, rest, node, type⟩

/-- The directory that a task looks into, if it does, has records that go on to its end. -/
def SearchAdvances (v : Volume) (t : Task) : Prop :=
  ∀ name rest, t.names = name :: rest → t.type = .directory → Advances v t.globals t.node (some name)

-- ============================================================================
-- One call
-- ============================================================================

/-- How a call ends, with a bound of `n` on what it calls. -/
inductive Ran (v : Volume) (n : Nat) (t : Task) : Outcome → Prop
  | found : t.names = [] → Ran v n t ⟨t.globals, t.symlinknest, .found t.node t.type⟩
  | file {name rest} : t.names = name :: rest → t.type ≠ .directory → Ran v n t ⟨t.globals, t.symlinknest, .notFound⟩
  | missed {name rest g lines} : t.names = name :: rest → t.type = .directory →
      ext2fsIterateDir v n t.globals t.node (some name) = some (g, .notFound lines) →
      Ran v n t ⟨g, t.symlinknest, .notFound⟩
  | lost {name rest g} : t.names = name :: rest → t.type = .directory →
      ext2fsIterateDir v n t.globals t.node (some name) = some (g, .undefined) →
      Ran v n t ⟨g, t.symlinknest, .undefined⟩
  | step {g node type rest o} : Finds v n t g node type rest → type ≠ .symlink →
      findFile1 v n ⟨g, t.symlinknest, rest, node, type⟩ = some o → Ran v n t o
  | links {g node rest} : Finds v n t g node .symlink rest → t.symlinknest + 1 = maxSymlinkcnt →
      Ran v n t ⟨g, t.symlinknest + 1, .notFound⟩
  | unread {g node rest g'} : Finds v n t g node .symlink rest → t.symlinknest + 1 ≠ maxSymlinkcnt →
      readSymlink v g node = (g', none) → Ran v n t ⟨g', t.symlinknest + 1, .notFound⟩
  | inner {t' rest o} : Follows v n t t' rest → findFile1 v n t' = some o →
      (∀ node type, o.result ≠ .found node type) → Ran v n t o
  | back {t' rest o node type o'} : Follows v n t t' rest → findFile1 v n t' = some o →
      o.result = .found node type → findFile1 v n ⟨o.globals, o.symlinknest, rest, node, type⟩ = some o' →
      Ran v n t o'

section Calls

variable {v : Volume} {k n : Nat} {t t' : Task} {o : Outcome} {g : Globals} {node : Node} {type : FileType}
  {rest : List (List UInt8)}

/-- A link whose text is read is followed. -/
theorem Finds.follows {g' : Globals} {text : List UInt8} (h : Finds v n t g node .symlink rest)
    (hcount : t.symlinknest + 1 ≠ maxSymlinkcnt) (htext : readSymlink v g node = (g', some text)) :
    ∃ t', Follows v n t t' rest :=
  ⟨_, g, node, g', text, h, hcount, htext, rfl⟩

theorem Follows.symlinknest_eq (h : Follows v n t t' rest) : t'.symlinknest = t.symlinknest + 1 := by
  obtain ⟨g, node, g', text, -, -, -, rfl⟩ := h
  rfl

theorem Follows.symlinknest_lt (h : Follows v n t t' rest) (ht : t.symlinknest < maxSymlinkcnt) :
    t'.symlinknest < maxSymlinkcnt := by
  rw [h.symlinknest_eq]
  obtain ⟨g, node, g', text, -, hcount, -, -⟩ := h
  exact Nat.lt_of_le_of_ne ht hcount

theorem findFile1_finds (h : Finds v n t g node type rest) (htype : type ≠ .symlink) :
    findFile1 v (n + 1) t = findFile1 v n ⟨g, t.symlinknest, rest, node, type⟩ := by
  obtain ⟨name, hnames, hdir, hiterate⟩ := h
  rw [findFile1, hnames]
  dsimp only
  rw [if_neg (not_not.mpr hdir), hiterate]
  dsimp only
  rw [if_pos htype]

theorem findFile1_follows (h : Follows v n t t' rest) :
    findFile1 v (n + 1) t =
      match findFile1 v n t' with
      | none => none
      | some ⟨g, symlinknest, .found node type⟩ => findFile1 v n ⟨g, symlinknest, rest, node, type⟩
      | some o => some o := by
  obtain ⟨g, node, g', text, ⟨name, hnames, hdir, hiterate⟩, hcount, htext, rfl⟩ := h
  rw [findFile1, hnames]
  dsimp only
  rw [if_neg (not_not.mpr hdir), hiterate]
  dsimp only
  rw [if_neg (not_not.mpr rfl), if_neg hcount, htext]

theorem Ran.findFile1_eq (h : Ran v n t o) : findFile1 v (n + 1) t = some o := by
  cases h with
  | found hnames => rw [findFile1, hnames]
  | file hnames hdir =>
    rw [findFile1, hnames]
    dsimp only
    rw [if_pos hdir]
  | missed hnames hdir hiterate | lost hnames hdir hiterate =>
    rw [findFile1, hnames]
    dsimp only
    rw [if_neg (not_not.mpr hdir), hiterate]
  | step hfinds htype hrest => rw [findFile1_finds hfinds htype, hrest]
  | links hfinds hcount =>
    obtain ⟨name, hnames, hdir, hiterate⟩ := hfinds
    rw [findFile1, hnames]
    dsimp only
    rw [if_neg (not_not.mpr hdir), hiterate]
    dsimp only
    rw [if_neg (not_not.mpr rfl), if_pos hcount]
  | unread hfinds hcount htext =>
    obtain ⟨name, hnames, hdir, hiterate⟩ := hfinds
    rw [findFile1, hnames]
    dsimp only
    rw [if_neg (not_not.mpr hdir), hiterate]
    dsimp only
    rw [if_neg (not_not.mpr rfl), if_neg hcount, htext]
  | inner hfollows hinner hfound =>
    rw [findFile1_follows hfollows, hinner]
    obtain ⟨g, symlinknest, result⟩ := o
    cases result with
    | found node type => exact absurd rfl (hfound node type)
    | notFound | undefined => rfl
  | back hfollows hinner hfound hrest =>
    rename_i o' node type
    obtain ⟨g, symlinknest, result⟩ := o'
    dsimp only at hfound
    subst hfound
    rw [findFile1_follows hfollows, hinner]
    exact hrest

theorem Ran.of_findFile1 {o' : Outcome} (h : Ran v n t o) (hrun : findFile1 v (n + 1) t = some o') : Ran v n t o' := by
  obtain rfl := Option.some.inj (h.findFile1_eq.symm.trans hrun)
  exact h

/-- Every call that ends does so in one of these ways. -/
theorem ran_of_findFile1 (h : findFile1 v (n + 1) t = some o) : Ran v n t o := by
  cases hnames : t.names with
  | nil => exact (Ran.found hnames).of_findFile1 h
  | cons name rest =>
    by_cases hdir : t.type = .directory
    · cases hiterate : ext2fsIterateDir v n t.globals t.node (some name) with
      | none =>
        rw [findFile1, hnames] at h
        simp only [hdir, hiterate] at h
        cases h
      | some r =>
        obtain ⟨g, found⟩ := r
        cases found with
        | notFound lines => exact (Ran.missed hnames hdir hiterate).of_findFile1 h
        | undefined => exact (Ran.lost hnames hdir hiterate).of_findFile1 h
        | found node type =>
          have hfinds : Finds v n t g node type rest := ⟨name, hnames, hdir, hiterate⟩
          by_cases htype : type = .symlink
          · subst htype
            by_cases hcount : t.symlinknest + 1 = maxSymlinkcnt
            · exact (Ran.links hfinds hcount).of_findFile1 h
            · cases htext : readSymlink v g node with
              | mk g' text =>
                cases text with
                | none => exact (Ran.unread hfinds hcount htext).of_findFile1 h
                | some text =>
                  obtain ⟨t', hfollows⟩ := hfinds.follows hcount htext
                  rw [findFile1_follows hfollows] at h
                  cases hinner : findFile1 v n t' with
                  | none =>
                    rw [hinner] at h
                    cases h
                  | some inner =>
                    obtain ⟨g'', symlinknest, result⟩ := inner
                    rw [hinner] at h
                    cases result with
                    | found node type => exact .back hfollows hinner rfl h
                    | notFound | undefined =>
                      obtain rfl := Option.some.inj h
                      exact .inner hfollows hinner nofun
          · rw [findFile1_finds hfinds htype] at h
            exact .step hfinds htype h
    · exact (Ran.file hnames hdir).of_findFile1 h

end Calls

-- ============================================================================
-- Bounds
-- ============================================================================

section Bounds

variable {v : Volume} {k n : Nat} {t t' : Task} {o o' : Outcome} {g : Globals} {node : Node} {type : FileType}
  {rest : List (List UInt8)}

theorem Finds.mono (hle : k ≤ n) (h : Finds v k t g node type rest) : Finds v n t g node type rest := by
  obtain ⟨name, hnames, hdir, hiterate⟩ := h
  exact ⟨name, hnames, hdir, iterateDir_mono hle hiterate⟩

theorem Follows.mono (hle : k ≤ n) (h : Follows v k t t' rest) : Follows v n t t' rest := by
  obtain ⟨g, node, g', text, hfinds, h⟩ := h
  exact ⟨g, node, g', text, hfinds.mono hle, h⟩

theorem Ran.mono (hle : k ≤ n) (hself : ∀ t o, findFile1 v k t = some o → findFile1 v n t = some o)
    (h : Ran v k t o) : Ran v n t o := by
  cases h with
  | found hnames => exact .found hnames
  | file hnames hdir => exact .file hnames hdir
  | missed hnames hdir hiterate => exact .missed hnames hdir (iterateDir_mono hle hiterate)
  | lost hnames hdir hiterate => exact .lost hnames hdir (iterateDir_mono hle hiterate)
  | step hfinds htype hrest => exact .step (hfinds.mono hle) htype (hself _ _ hrest)
  | links hfinds hcount => exact .links (hfinds.mono hle) hcount
  | unread hfinds hcount htext => exact .unread (hfinds.mono hle) hcount htext
  | inner hfollows hinner hfound => exact .inner (hfollows.mono hle) (hself _ _ hinner) hfound
  | back hfollows hinner hfound hrest => exact .back (hfollows.mono hle) (hself _ _ hinner) hfound (hself _ _ hrest)

/-- A larger bound does not change how a call ends. -/
theorem findFile1_mono (hle : k ≤ n) (h : findFile1 v k t = some o) : findFile1 v n t = some o := by
  induction k generalizing n t o with
  | zero => cases h
  | succ k ih =>
    obtain ⟨n, rfl⟩ := Nat.exists_eq_add_of_le' (Nat.lt_of_lt_of_le (Nat.succ_pos k) hle)
    exact ((ran_of_findFile1 h).mono (by omega) fun _ _ => ih (by omega)).findFile1_eq

theorem findFile1_unique (h : findFile1 v k t = some o) (h' : findFile1 v n t = some o') : o = o' := by
  have hmax := findFile1_mono (Nat.le_max_left k n) h
  rw [findFile1_mono (Nat.le_max_right k n) h'] at hmax
  exact (Option.some.inj hmax).symm

/-- The links that are counted: the counter does not come to its limit while the search goes on. -/
theorem findFile1_symlinknest (h : findFile1 v n t = some o) (ht : t.symlinknest < maxSymlinkcnt) :
    t.symlinknest ≤ o.symlinknest ∧ o.symlinknest ≤ maxSymlinkcnt ∧
      ∀ node type, o.result = .found node type → o.symlinknest < maxSymlinkcnt := by
  induction n generalizing t o with
  | zero => cases h
  | succ n ih =>
    cases ran_of_findFile1 h with
    | found => exact ⟨Nat.le_refl _, ht.le, fun _ _ _ => ht⟩
    | file | missed | lost => exact ⟨Nat.le_refl _, ht.le, nofun⟩
    | step _ _ hrest =>
      have hnest := ih hrest ht
      exact hnest
    | links | unread => exact ⟨Nat.le_succ _, ht, nofun⟩
    | inner hfollows hinner hfound =>
      obtain ⟨hle, hmax, hgoes⟩ := ih hinner (hfollows.symlinknest_lt ht)
      rw [hfollows.symlinknest_eq] at hle
      exact ⟨Nat.le_of_succ_le hle, hmax, hgoes⟩
    | back hfollows hinner hfound hrest =>
      obtain ⟨hle, -, hgoes⟩ := ih hinner (hfollows.symlinknest_lt ht)
      obtain ⟨hle', hrest⟩ := ih hrest (hgoes _ _ hfound)
      rw [hfollows.symlinknest_eq] at hle
      exact ⟨Nat.le_trans (Nat.le_of_succ_le hle) hle', hrest⟩

end Bounds

-- ============================================================================
-- The search
-- ============================================================================

/-- A task ends, and not without a meaning. -/
def TaskEnds (v : Volume) (t : Task) : Prop := ∃ n o, findFile1 v n t = some o ∧ o.result ≠ .undefined

section Search

variable {v : Volume} {k n : Nat} {t t' : Task} {g : Globals} {node : Node} {type : FileType}
  {rest : List (List UInt8)}

/-- A task that ends has looked through its directory. -/
theorem TaskEnds.searchAdvances (h : TaskEnds v t) : SearchAdvances v t := by
  obtain ⟨n, o, hrun, hresult⟩ := h
  intro name rest hnames hdir
  rw [← iterateEnds_iff]
  have hfound : ∀ {g node type rest'}, Finds v (n - 1) t g node type rest' →
      IterateEnds v t.globals t.node (some name) := by
    rintro g node type rest' ⟨name', hnames', -, hiterate⟩
    obtain ⟨rfl, -⟩ := List.cons.inj (hnames.symm.trans hnames')
    exact ⟨_, _, hiterate, nofun⟩
  cases n with
  | zero => cases hrun
  | succ n =>
    cases ran_of_findFile1 hrun with
    | found hnil => cases hnames.symm.trans hnil
    | file _ hfile => exact absurd hdir hfile
    | missed hnames' _ hiterate =>
      obtain ⟨rfl, -⟩ := List.cons.inj (hnames.symm.trans hnames')
      exact ⟨_, _, hiterate, nofun⟩
    | lost => exact absurd rfl hresult
    | step hfinds | links hfinds | unread hfinds => exact hfound hfinds
    | inner hfollows | back hfollows =>
      obtain ⟨g, node, g', text, hfinds, -⟩ := hfollows
      exact hfound hfinds

/-- What a task finds it finds with the bound that it ends with. -/
theorem Finds.of_run (h : Finds v k t g node type rest) {o : Outcome} (hrun : findFile1 v (n + 1) t = some o) :
    Finds v n t g node type rest := by
  obtain ⟨name, hnames, hdir, hiterate⟩ := h
  refine ⟨name, hnames, hdir, ?_⟩
  cases hiterate' : ext2fsIterateDir v n t.globals t.node (some name) with
  | none =>
    rw [findFile1, hnames] at hrun
    simp only [hdir, hiterate'] at hrun
    cases hrun
  | some r => rw [iterateDir_unique hiterate hiterate']

theorem Follows.of_run (h : Follows v k t t' rest) {o : Outcome} (hrun : findFile1 v (n + 1) t = some o) :
    Follows v n t t' rest := by
  obtain ⟨g, node, g', text, hfinds, h⟩ := h
  exact ⟨g, node, g', text, hfinds.of_run hrun, h⟩

/-- The tasks that it leads to end as well. -/
theorem TaskEnds.leads (h : TaskEnds v t) (hleads : Leads v t t') : TaskEnds v t' := by
  obtain ⟨n, o, hrun, hresult⟩ := h
  cases n with
  | zero => cases hrun
  | succ n =>
    cases hleads with
    | step hfinds htype =>
      rw [findFile1_finds (hfinds.of_run hrun) htype] at hrun
      exact ⟨n, o, hrun, hresult⟩
    | follow hfollows =>
      rw [findFile1_follows (hfollows.of_run hrun)] at hrun
      cases hinner : findFile1 v n t' with
      | none =>
        rw [hinner] at hrun
        cases hrun
      | some inner =>
        refine ⟨n, inner, hinner, fun hundefined => hresult ?_⟩
        obtain ⟨g, symlinknest, result⟩ := inner
        dsimp only at hundefined
        subst hundefined
        rw [hinner] at hrun
        obtain rfl := Option.some.inj hrun
        rfl
    | back hfollows hinner hfound =>
      rename_i t₁ rest₁ o₁ node₁ type₁
      have hfollows := hfollows.of_run hrun
      rw [findFile1_follows hfollows] at hrun
      cases hinner' : findFile1 v n t₁ with
      | none =>
        rw [hinner'] at hrun
        cases hrun
      | some inner =>
        obtain rfl := findFile1_unique hinner hinner'
        obtain ⟨g, symlinknest, result⟩ := o₁
        dsimp only at hfound
        subst hfound
        rw [hinner'] at hrun
        exact ⟨n, o, hrun, hresult⟩

/-- A task ends when it finds a file or a directory and the task in that node ends. -/
theorem Finds.taskEnds (h : Finds v n t g node type rest) (htype : type ≠ .symlink)
    (hrest : TaskEnds v ⟨g, t.symlinknest, rest, node, type⟩) : TaskEnds v t := by
  obtain ⟨k, o, hrun, hresult⟩ := hrest
  have hran := Ran.step (h.mono (Nat.le_max_left n k)) htype (findFile1_mono (Nat.le_max_right n k) hrun)
  exact ⟨_, o, hran.findFile1_eq, hresult⟩

/-- It ends when it finds a link, the task in the link ends, and the one behind it does. -/
theorem Follows.taskEnds (h : Follows v n t t' rest) {o : Outcome} (hinner : findFile1 v n t' = some o)
    (hresult : o.result ≠ .undefined)
    (hrest : ∀ node type, o.result = .found node type → TaskEnds v ⟨o.globals, o.symlinknest, rest, node, type⟩) :
    TaskEnds v t := by
  cases hfound : o.result with
  | undefined => exact absurd hfound hresult
  | notFound => exact ⟨_, o, (Ran.inner h hinner (by rw [hfound]; nofun)).findFile1_eq, hresult⟩
  | found node type =>
    obtain ⟨k, o', hrun, hresult'⟩ := hrest node type hfound
    have hran := Ran.back (h.mono (Nat.le_max_left n k)) (findFile1_mono (Nat.le_max_left n k) hinner) hfound
      (findFile1_mono (Nat.le_max_right n k) hrun)
    exact ⟨_, o', hran.findFile1_eq, hresult'⟩

/-- **The search** for the names that are left ends just when every directory that it looks into has
    records that go on to its end. -/
theorem taskEnds_iff (ht : t.symlinknest < maxSymlinkcnt) :
    TaskEnds v t ↔ ∀ t', ReflTransGen (Leads v) t t' → SearchAdvances v t' := by
  constructor
  · intro h t' hreach
    have hends : TaskEnds v t' := by
      induction hreach with
      | refl => exact h
      | tail _ hleads ih => exact ih.leads hleads
    exact hends.searchAdvances
  · intro h
    -- first by the links that may still be followed, then by the names that are left
    induction hk : maxSymlinkcnt - t.symlinknest using Nat.strongRecOn generalizing t with
    | _ k ihlinks =>
      induction hnames : t.names generalizing t with
      | nil => exact ⟨1, _, (Ran.found hnames).findFile1_eq, nofun⟩
      | cons name rest ihnames =>
        by_cases hdir : t.type = .directory
        · obtain ⟨turns, ⟨g, found⟩, hiterate, hmeaning⟩ := iterateEnds_iff.mpr (h t .refl name rest hnames hdir)
          cases found with
          | undefined => exact absurd rfl hmeaning
          | notFound lines => exact ⟨turns + 1, _, (Ran.missed hnames hdir hiterate).findFile1_eq, nofun⟩
          | found node type =>
            have hfinds : Finds v turns t g node type rest := ⟨name, hnames, hdir, hiterate⟩
            by_cases htype : type = .symlink
            · subst htype
              by_cases hcount : t.symlinknest + 1 = maxSymlinkcnt
              · exact ⟨turns + 1, _, (Ran.links hfinds hcount).findFile1_eq, nofun⟩
              cases htext : readSymlink v g node with
              | mk g' text =>
                cases text with
                | none => exact ⟨turns + 1, _, (Ran.unread hfinds hcount htext).findFile1_eq, nofun⟩
                | some text =>
                  obtain ⟨t', hfollows⟩ := hfinds.follows hcount htext
                  have hnest := hfollows.symlinknest_eq
                  have hlt := hfollows.symlinknest_lt ht
                  obtain ⟨n, o, hinner, hresult⟩ := ihlinks _ (by omega) hlt
                    (fun t'' hreach => h t'' (.head (.follow hfollows) hreach)) rfl
                  have hfollows := hfollows.mono (Nat.le_max_left turns n)
                  have hinner := findFile1_mono (Nat.le_max_right turns n) hinner
                  obtain ⟨hle, -, hgoes⟩ := findFile1_symlinknest hinner hlt
                  refine hfollows.taskEnds hinner hresult fun node type hfound => ?_
                  exact ihlinks (maxSymlinkcnt - o.symlinknest) (by omega) (hgoes node type hfound)
                    (fun t'' hreach => h t'' (.head (.back hfollows hinner hfound) hreach)) rfl
            · refine hfinds.taskEnds htype (ihnames ht (fun t'' hreach => ?_) hk rfl)
              exact h t'' (.head (.step hfinds htype) hreach)
        · exact ⟨1, _, (Ran.file hnames hdir).findFile1_eq, nofun⟩

end Search

-- ============================================================================
-- ext2fs_find_file
-- ============================================================================

/-- Every directory that the search for a path looks into has records that go on to its end. -/
def PathAdvances (v : Volume) (g : Globals) (path : Option (List UInt8)) (rootnode : Node) : Prop :=
  ∀ p, path = some p → ∀ t, ReflTransGen (Leads v) (.call g 0 .directory p rootnode) t → SearchAdvances v t

theorem findEnds_iff {v : Volume} {g : Globals} {path : Option (List UInt8)} {rootnode : Node}
    {expecttype : FileType} : FindEnds v g path rootnode expecttype ↔ PathAdvances v g path rootnode := by
  cases path with
  | none => exact iff_of_true ⟨0, _, rfl, nofun, Nat.zero_le _⟩ nofun
  | some path =>
    have hnest : (Task.call g 0 .directory path rootnode).symlinknest < maxSymlinkcnt := Nat.succ_pos 7
    have htask : FindEnds v g (some path) rootnode expecttype ↔ TaskEnds v (.call g 0 .directory path rootnode) := by
      constructor
      · rintro ⟨n, o, hrun, hresult, -⟩
        obtain ⟨o', hrun', rfl⟩ := Option.map_eq_some_iff.mp hrun
        refine ⟨n, o', hrun', fun hundefined => hresult ?_⟩
        rw [hundefined]
        exact hundefined
      · rintro ⟨n, o, hrun, hresult⟩
        obtain ⟨-, hmax, -⟩ := findFile1_symlinknest hrun hnest
        refine ⟨n, _, Option.map_eq_some_iff.mpr ⟨o, hrun, rfl⟩, ?_⟩
        split
        · split
          · exact ⟨nofun, hmax⟩
          · exact ⟨hresult, hmax⟩
        · exact ⟨hresult, hmax⟩
    rw [htask, taskEnds_iff hnest]
    exact ⟨fun h p hp => by obtain rfl := Option.some.inj hp; exact h, fun h => h path rfl⟩

end Uboot.Fs.Ext2Path
