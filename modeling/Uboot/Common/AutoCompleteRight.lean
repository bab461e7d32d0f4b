/-
  Uboot.Common.AutoCompleteRight

  When `cmd_auto_complete` of common/command.c completes the word at the end of the line.

  It goes by the last word of the line, which is the one in front when a new word is begun,
  by the command names that begin like the word up to its first dot, and by the `...` that
  ends a list of too many names.  Each of these can be told apart from a completion of the
  word itself, and it does no harm where nothing is appended and nothing should be.
-/

import Uboot.Common.AutoComplete
import Mathlib.Data.List.DropRight

namespace Uboot.Common.AutoComplete

open Uboot.Lib Uboot.Common.RunCommand

-- ============================================================================
-- The line
-- ============================================================================

/-- The word that is being typed, empty behind a blank. -/
def currentWord (text : List UInt8) : List UInt8 := text.rtakeWhile (!isBlank ·)

/-- The words in front of it. -/
def wordsBefore (text : List UInt8) : List (List UInt8) := words (text.rdropWhile (!isBlank ·))

theorem makeArgv_word {bl w rest : List UInt8} (hbl : ∀ c ∈ bl, isBlank c = true) (hne : w ≠ [])
    (hw : ∀ c ∈ w, isBlank c = false) (hrest : rest.takeWhile (!isBlank ·) = []) (room : Nat) :
    makeArgv (room + 1) (bl ++ (w ++ rest)) = w :: makeArgv room (rest.drop 1) := by
  obtain ⟨c, s, rfl⟩ := List.exists_cons_of_ne_nil hne
  have hw' : ∀ x ∈ c :: s, (!isBlank x) = true := fun x hx => by rw [hw x hx]; rfl
  have hstart : (bl ++ (c :: s ++ rest)).dropWhile isBlank = c :: (s ++ rest) := by
    rw [List.dropWhile_append_of_pos hbl, List.cons_append,
      List.dropWhile_cons_of_neg (by rw [hw c List.mem_cons_self]; decide)]
  have hend : rest.dropWhile (!isBlank ·) = rest := by
    have := List.takeWhile_append_dropWhile (p := (!isBlank ·)) (l := rest)
    rwa [hrest, List.nil_append] at this
  rw [makeArgv, hstart]
  dsimp only
  rw [← List.cons_append, List.takeWhile_append_of_pos hw', List.dropWhile_append_of_pos hw', hrest, hend,
    List.append_nil]

theorem makeArgv_eq (room : Nat) (text : List UInt8) : makeArgv room text = (words text).take room := by
  induction room generalizing text with
  | zero => rw [makeArgv, List.take_zero]
  | succ room ih =>
    obtain ⟨bl, hbl, rfl | ⟨w, hne, hw, rfl | ⟨b, rest, hb, rfl⟩⟩⟩ := word_cases text
    · rw [makeArgv, words_of_blank hbl, List.dropWhile_eq_nil_iff.mpr hbl]
      rfl
    · have hargv : makeArgv (room + 1) (bl ++ (w ++ [])) = _ := makeArgv_word hbl hne hw rfl room
      rw [List.append_nil] at hargv
      rw [hargv, ih, words_blanks hbl, words_word hw hne]
      rfl
    · have hstop : (b :: rest).takeWhile (!isBlank ·) = [] :=
        List.takeWhile_cons_of_neg (by rw [hb]; decide)
      rw [makeArgv_word hbl hne hw hstop, ih, words_blanks hbl, words_cons hw hne hb]
      rfl

theorem words_append_cons (x : List UInt8) {b : UInt8} (hb : isBlank b = true) (y : List UInt8) :
    words (x ++ b :: y) = words x ++ words y := by
  rw [words, List.splitOnP_append_cons x y hb, List.filter_append, words, words]

theorem words_eq (text : List UInt8) : words text =
    wordsBefore text ++ if currentWord text = [] then [] else [currentWord text] := by
  have hword : ∀ c ∈ currentWord text, isBlank c = false := by
    intro c hc
    simpa using List.mem_rtakeWhile_imp hc
  have hlast : words (currentWord text) = if currentWord text = [] then [] else [currentWord text] := by
    split
    · next hnil => rw [hnil]; rfl
    · next hne => exact words_word hword hne
  conv_lhs => rw [← List.rdropWhile_append_rtakeWhile (p := (!isBlank ·)) (l := text)]
  rw [← hlast, wordsBefore]
  by_cases hnil : text.rdropWhile (!isBlank ·) = []
  · rw [hnil]
    rfl
  · have hblank : isBlank ((text.rdropWhile (!isBlank ·)).getLast hnil) = true := by
      have hlast := List.rdropWhile_last_not _ _ hnil
      simpa using hlast
    have hsplit := List.dropLast_append_getLast hnil
    rw [← hsplit, List.append_assoc, List.singleton_append, words_append_cons _ hblank,
      words_append_cons _ hblank [], show words [] = [] from rfl, List.append_nil]
    rfl

theorem endsBlank_iff (text : List UInt8) : endsBlank text = true ↔ currentWord text = [] := by
  rw [currentWord, List.rtakeWhile_eq_nil_iff, endsBlank]
  cases text using List.reverseRecOn with
  | nil => simp
  | append_singleton text c => simp

-- ============================================================================
-- Candidates
-- ============================================================================

/-- The names that may stand where the word is: the commands, or the variables for the first
    argument of a command that has them completed. -/
def pool (sh : Shell) (text : List UInt8) : List (List UInt8) :=
  match wordsBefore text with
  | [] => sh.table.map CmdTbl.name
  | [cmd] =>
    match findCmd sh.table cmd with
    | none => []
    | some cmdtp => if cmdtp.complete then sh.env.map varName else []
  | _ => []

/-- The names that begin with the word. -/
def candidates (sh : Shell) (text : List UInt8) : List (List UInt8) :=
  (pool sh text).filter fun m => (currentWord text).isPrefixOf m

/-- `s` completes the word `w`. -/
def Completion (w : List UInt8) (names : List (List UInt8)) (s : List UInt8) : Prop :=
  match names with
  | [] => s = []
  | [m] => w ++ s = m ++ [32]
  | names => LongestCommonPrefix (w ++ s) names

/-- What of `s` there is room for. -/
def fitting (n : Nat) (s : List UInt8) : List UInt8 := if n + s.length < cbSize - 2 then s else []

/-- The console buffer; `n` is what `*np` says. -/
structure Console where
  text : List UInt8
  noNul : ∀ c ∈ text, c ≠ 0
  n : Nat
  text_le : text.length ≤ n
  n_lt : n < cbSize

/-- **What tab completion should do**: no name is read outside, the text is kept, the end of the string
    stays inside the buffer, and the word is completed where there is room. -/
def Completed (sh : Shell) (con : Console) (col : Nat) : Prop :=
  ∃ r, cmdAutoComplete sh sh.prompt con.text con.n col = some r ∧ con.text <+: r.buf ∧ r.buf.length < cbSize ∧
    ∀ s, Completion (currentWord con.text) (candidates sh con.text) s → r.buf = con.text ++ fitting con.n s

/-- What completes a word of `k` characters. -/
def completion (k : Nat) : List (List UInt8) → List UInt8
  | [] => []
  | [m] => m.drop k ++ [32]
  | m :: names => (m.take (findCommonPrefix (m :: names))).drop k

theorem completion_iff {w s : List UInt8} {names : List (List UInt8)} (h : ∀ m ∈ names, w <+: m) :
    Completion w names s ↔ s = completion w.length names := by
  match names, h with
  | [], _ => rfl
  | [m], h =>
    obtain ⟨t, rfl⟩ := h m List.mem_cons_self
    rw [Completion, completion, List.drop_left, List.append_assoc, List.append_cancel_left_eq]
  | m :: m' :: names, h =>
    have hlcp := longestCommonPrefix_take m (m' :: names)
    obtain ⟨t, ht⟩ := hlcp.longest w h
    rw [← ht] at hlcp
    have hdrop : completion w.length (m :: m' :: names) = t := by
      rw [completion, findCommonPrefix, ← ht, List.drop_left]
      simp
    rw [Completion, hdrop]
    · constructor
      · intro hs
        exact List.append_cancel_left (hs.unique hlcp)
      · rintro rfl
        exact hlcp
    · simp
    · simp

-- ============================================================================
-- What is offered
-- ============================================================================

/-- A command is looked for without its length modifier. -/
def looseMatches (sh : Shell) (text : List UInt8) : List (List UInt8) :=
  if wordsBefore text = [] then (pool sh text).filter fun m => (stem (currentWord text)).isPrefixOf m
  else candidates sh text

/-- The bytes a name takes: a variable's is copied. -/
def nameCost (text m : List UInt8) : Nat := if wordsBefore text = [] then 0 else m.length + 1

def bufSize (text : List UInt8) : Nat := if wordsBefore text = [] then 0 else 512

/-- The list has no `...`. -/
def AllFit (sh : Shell) (text : List UInt8) : Prop :=
  (looseMatches sh text).length ≤ maxv - 2 ∧ ((looseMatches sh text).map (nameCost text)).sum ≤ bufSize text

/-- The names with the `...` of a list that is too long. -/
def offered (sh : Shell) (text : List UInt8) : List (List UInt8) :=
  offer (nameCost text) (maxv - 2) (bufSize text) (looseMatches sh text)

theorem offer_of_fit {cost : List UInt8 → Nat} {room bufsz : Nat} {names : List (List UInt8)}
    (hroom : names.length ≤ room) (hbufsz : (names.map cost).sum ≤ bufsz) : offer cost room bufsz names = names := by
  induction names generalizing room bufsz with
  | nil => rfl
  | cons m names ih =>
    rw [List.length_cons] at hroom
    rw [List.map_cons, List.sum_cons] at hbufsz
    rw [offer, if_neg (by omega), ih (by omega) (by omega)]

theorem stem_nil : stem [] = [] := rfl

theorem completeCmdv_arg (sh : Shell) (cmd : List UInt8) {args : List (List UInt8)} {space : Bool}
    (h : args ≠ [] ∨ space = true) : completeCmdv sh (cmd :: args) space =
      match findCmd sh.table cmd with
      | none => []
      | some cmdtp => if cmdtp.complete then varComplete sh.env (cmd :: args) space else [] := if_pos h

/-- `complete_cmdv` offers what is said here. -/
theorem completeCmdv_eq (sh : Shell) (text : List UInt8) :
    completeCmdv sh (makeArgv maxArgs text) (endsBlank text) = offered sh text := by
  have hblank := endsBlank_iff text
  rw [makeArgv_eq, words_eq, offered, looseMatches, candidates, pool]
  match hbefore : wordsBefore text with
  | [] =>
    have hcost : nameCost text = fun _ => 0 := by
      funext m
      rw [nameCost, if_pos hbefore]
    rw [hcost, bufSize, if_pos hbefore, if_pos rfl]
    by_cases hword : currentWord text = []
    · rw [if_pos hword, hword, stem_nil]
      simp [completeCmdv, offerCommands]
    · rw [if_neg hword, Bool.eq_false_iff.mpr fun h => hword (hblank.mp h)]
      simp [completeCmdv, offerCommands, maxArgs]
  | [cmd] =>
    have hne : wordsBefore text ≠ [] := by rw [hbefore]; simp
    have hcost : nameCost text = fun m => m.length + 1 := by
      funext m
      rw [nameCost, if_neg hne]
    rw [hcost, bufSize, if_neg hne, if_neg (List.cons_ne_nil cmd [])]
    by_cases hword : currentWord text = []
    · rw [if_pos hword, hblank.mpr hword, hword, List.append_nil, List.take_of_length_le (by simp [maxArgs]),
        completeCmdv_arg sh cmd (.inr rfl)]
      dsimp only
      cases findCmd sh.table cmd with
      | none => rfl
      | some cmdtp => dsimp only; cases cmdtp.complete <;> rfl
    · rw [if_neg hword, Bool.eq_false_iff.mpr fun h => hword (hblank.mp h), List.take_of_length_le (by simp [maxArgs]),
        List.cons_append, completeCmdv_arg sh cmd (.inl (by simp))]
      dsimp only
      cases findCmd sh.table cmd with
      | none => rfl
      | some cmdtp => dsimp only; cases cmdtp.complete <;> rfl
  | cmd :: arg :: more =>
    rw [if_neg (List.cons_ne_nil _ _)]
    -- behind a second word nothing is offered
    have hargv : (cmd :: arg :: more ++ if currentWord text = [] then [] else [currentWord text]).take maxArgs =
        cmd :: arg :: (more ++ if currentWord text = [] then [] else [currentWord text]).take (maxArgs - 2) := rfl
    have hnone : varComplete sh.env
        (cmd :: arg :: (more ++ if currentWord text = [] then [] else [currentWord text]).take (maxArgs - 2))
        (endsBlank text) = [] := by
      by_cases hword : currentWord text = []
      · rw [hblank.mpr hword]
        cases (more ++ if currentWord text = [] then [] else [currentWord text]).take (maxArgs - 2) <;> rfl
      · rw [if_neg hword]
        cases more <;> rfl
    rw [hargv, completeCmdv_arg sh cmd (.inl (List.cons_ne_nil _ _)), hnone]
    dsimp only
    cases findCmd sh.table cmd with
    | none => rfl
    | some cmdtp => dsimp only; cases cmdtp.complete <;> rfl

-- ============================================================================
-- What is appended
-- ============================================================================

/-- The length of the last word of the line, which is what is taken as typed. -/
def typed (text : List UInt8) : Option Nat := (words text).getLast?.map List.length

/-- Neither `argv` nor a name is read outside: a single name is as long as what is taken as typed, and
    names that share something have a last word. -/
def ReadsInside (typed : Option Nat) (names : List (List UInt8)) : Prop :=
  match names with
  | [] => True
  | [m] => ∃ k, typed = some k ∧ k ≤ m.length
  | names => findCommonPrefix names = 0 ∨ typed ≠ none

theorem typed_pos {text : List UInt8} {k : Nat} (h : typed text = some k) : 0 < k := by
  obtain ⟨w, hw, rfl⟩ := Option.map_eq_some_iff.mp h
  have hmem := List.mem_of_getLast? hw
  rw [words, List.mem_filter] at hmem
  exact List.length_pos_iff.mpr (by simpa using hmem.2)

theorem pool_eq_nil {sh : Shell} {text : List UInt8} (h : 1 < (wordsBefore text).length) : pool sh text = [] := by
  rw [pool]
  match hbefore : wordsBefore text with
  | [] => simp [hbefore] at h
  | [_] => simp [hbefore] at h
  | _ :: _ :: _ => rfl

/-- Where something is offered, the line has at most two words. -/
theorem wordsBefore_length_le {sh : Shell} {text : List UInt8} (h : offered sh text ≠ []) :
    (wordsBefore text).length ≤ 1 := by
  by_contra hlong
  refine h ?_
  rw [offered, looseMatches, candidates, pool_eq_nil (by omega), if_neg]
  · rfl
  · intro hnil
    simp [hnil] at hlong

theorem typed_eq {sh : Shell} {text : List UInt8} (hoffered : offered sh text ≠ []) :
    typed text = (makeArgv maxArgs text).getLast?.map List.length := by
  have hlen := wordsBefore_length_le hoffered
  rw [typed, makeArgv_eq, List.take_of_length_le]
  rw [words_eq, List.length_append, maxArgs]
  split <;> simp only [List.length_nil, List.length_singleton] <;> omega

theorem typed_of_word {text : List UInt8} (hword : currentWord text ≠ []) :
    typed text = some (currentWord text).length := by
  rw [typed, words_eq, if_neg hword, List.getLast?_append]
  rfl

theorem appendReply_buf (buf : List UInt8) (n col : Nat) (s : List UInt8) :
    (appendReply buf n col s).buf = buf ++ fitting n s := by
  rw [appendReply, fitting]
  by_cases hfit : n + s.length < cbSize - 2
  · rw [if_neg (by omega), if_pos hfit]
  · rw [if_pos (by omega), if_neg hfit, List.append_nil]

theorem fitting_nil (n : Nat) : fitting n [] = [] := ite_self _

/-- What `cmd_auto_complete` leaves in the buffer. -/
theorem reply_eq (sh : Shell) (con : Console) (col : Nat) :
    (ReadsInside (typed con.text) (offered sh con.text) →
      ∃ r, cmdAutoComplete sh sh.prompt con.text con.n col = some r ∧
        r.buf = con.text ++ fitting con.n (completion ((typed con.text).getD 0) (offered sh con.text))) ∧
    (¬ ReadsInside (typed con.text) (offered sh con.text) →
      cmdAutoComplete sh sh.prompt con.text con.n col = none) := by
  have htyped : offered sh con.text ≠ [] → typed con.text = _ := typed_eq
  rw [cmdAutoComplete, if_neg (not_not.mpr rfl)]
  dsimp only
  rw [completeCmdv_eq]
  match hoffered : offered sh con.text with
  | [] =>
    refine ⟨fun _ => ⟨_, rfl, ?_⟩, fun h => absurd trivial h⟩
    rw [completion, fitting_nil, List.append_nil]
  | [m] =>
    rw [htyped (by simp [hoffered])]
    cases (makeArgv maxArgs con.text).getLast? with
    | none => simp [ReadsInside]
    | some last =>
      by_cases hle : last.length ≤ m.length
      · refine ⟨fun _ => ⟨_, if_neg (by omega), ?_⟩, fun h => absurd ⟨_, rfl, hle⟩ h⟩
        rw [appendReply_buf]
        rfl
      · refine ⟨?_, fun _ => if_pos (by omega)⟩
        rintro ⟨k, hk, hkm⟩
        obtain rfl := Option.some.inj hk
        exact absurd hkm hle
  | m :: m' :: names =>
    rw [htyped (by simp [hoffered])]
    dsimp only
    by_cases hj : findCommonPrefix (m :: m' :: names) = 0
    · rw [if_pos hj]
      refine ⟨fun _ => ⟨_, rfl, ?_⟩, fun h => absurd (.inl hj) h⟩
      rw [completion, hj, List.take_zero, List.drop_nil, fitting_nil, List.append_nil]
      simp
    · rw [if_neg hj]
      cases (makeArgv maxArgs con.text).getLast? with
      | none => simp [ReadsInside, hj]
      | some last =>
        refine ⟨fun _ => ⟨_, rfl, ?_⟩, fun h => absurd (.inr (by simp)) h⟩
        dsimp only
        split
        · next hle =>
          rw [completion, List.drop_of_length_le, fitting_nil, List.append_nil]
          · rw [List.length_take]
            exact (Nat.min_le_left _ _).trans hle
          · simp
        · rw [appendReply_buf]
          rfl

theorem fitting_length_lt (con : Console) (s : List UInt8) :
    (con.text ++ fitting con.n s).length < cbSize := by
  have hle := con.text_le
  have hlt := con.n_lt
  rw [List.length_append, fitting]
  split
  · omega
  · rw [List.length_nil]
    omega

theorem prefix_candidates {sh : Shell} {text : List UInt8} : ∀ m ∈ candidates sh text, currentWord text <+: m := by
  intro m hm
  rw [candidates, List.mem_filter, List.isPrefixOf_iff_prefix] at hm
  exact hm.2

/-- The buffer is right just where no name is read outside, and what is appended to the last word for
    the offered names is what the candidates ask for behind the word. -/
theorem completed_iff_fitting (sh : Shell) (con : Console) (col : Nat) : Completed sh con col ↔
    ReadsInside (typed con.text) (offered sh con.text) ∧
      fitting con.n (completion ((typed con.text).getD 0) (offered sh con.text)) =
        fitting con.n (completion (currentWord con.text).length (candidates sh con.text)) := by
  obtain ⟨hinside, houtside⟩ := reply_eq sh con col
  constructor
  · rintro ⟨r, hr, -, -, hright⟩
    have hreads : ReadsInside (typed con.text) (offered sh con.text) := by
      by_contra hno
      rw [houtside hno] at hr
      cases hr
    obtain ⟨r', hr', hbuf⟩ := hinside hreads
    obtain rfl := Option.some.inj (hr.symm.trans hr')
    have hsame := hright _ ((completion_iff prefix_candidates).mpr rfl)
    exact ⟨hreads, List.append_cancel_left (hbuf.symm.trans hsame)⟩
  · rintro ⟨hreads, hsame⟩
    obtain ⟨r, hr, hbuf⟩ := hinside hreads
    refine ⟨r, hr, ?_, ?_, ?_⟩
    · rw [hbuf]
      exact List.prefix_append _ _
    · rw [hbuf]
      exact fitting_length_lt con _
    · intro s hs
      rw [hbuf, hsame, (completion_iff prefix_candidates).mp hs]

-- ============================================================================
-- When it is right
-- ============================================================================

/-- Nothing is to be appended, or there is no room for it. -/
def Idle (n : Nat) (s : List UInt8) : Prop := s = [] ∨ cbSize - 2 ≤ n + s.length

/-- A word is begun, its first dot does not matter, and there is no `...`. -/
def Regular (sh : Shell) (text : List UInt8) : Prop :=
  currentWord text ≠ [] ∧ AllFit sh text ∧ looseMatches sh text = candidates sh text

/-- Nothing is appended, and nothing should be. -/
def Silent (sh : Shell) (con : Console) : Prop :=
  ReadsInside (typed con.text) (offered sh con.text) ∧
    Idle con.n (completion ((typed con.text).getD 0) (offered sh con.text)) ∧
    Idle con.n (completion (currentWord con.text).length (candidates sh con.text))

/-- The names are too many, and the `...` among them happens to change nothing. -/
def Lucky (sh : Shell) (text : List UInt8) : Prop :=
  ¬ AllFit sh text ∧ ReadsInside (typed text) (offered sh text) ∧
    completion ((typed text).getD 0) (offered sh text) = completion (currentWord text).length (candidates sh text)

theorem fitting_eq_nil_iff {n : Nat} {s : List UInt8} : fitting n s = [] ↔ Idle n s := by
  rw [fitting, Idle]
  split
  · next h =>
    constructor
    · exact .inl
    · exact fun h' => h'.resolve_right (by omega)
  · next h => exact iff_of_true rfl (.inr (by omega))

theorem offered_of_fit {sh : Shell} {text : List UInt8} (h : AllFit sh text) :
    offered sh text = looseMatches sh text := offer_of_fit h.1 h.2

theorem prefix_stem (cmd : List UInt8) : stem cmd <+: cmd := List.takeWhile_prefix _

theorem candidates_eq_filter (sh : Shell) (text : List UInt8) :
    candidates sh text = (looseMatches sh text).filter fun m => (currentWord text).isPrefixOf m := by
  rw [looseMatches, candidates]
  split
  · rw [List.filter_filter]
    refine List.filter_congr fun m _ => ?_
    rw [Bool.eq_iff_iff, Bool.and_eq_true, List.isPrefixOf_iff_prefix, List.isPrefixOf_iff_prefix]
    exact ⟨fun h => ⟨h, (prefix_stem _).trans h⟩, And.left⟩
  · rw [List.filter_filter]
    simp

/-- Where something completes the word in names that one of which begins with it, all do. -/
theorem prefix_of_completion {w : List UInt8} {names : List (List UInt8)}
    (hne : completion w.length names ≠ []) {c : List UInt8} (hc : c ∈ names) (hw : w <+: c) :
    ∀ m ∈ names, w <+: m := by
  match names, hc, hne with
  | [m], hc, _ =>
    obtain rfl := List.mem_singleton.mp hc
    simpa using hw
  | m :: m' :: names, hc, hne =>
    have hlcp := longestCommonPrefix_take m (m' :: names)
    have hlong : w.length < (m.take (findCommonPrefix (m :: m' :: names))).length := by
      by_contra hshort
      refine hne ?_
      rw [completion, List.drop_of_length_le (by omega)]
      simp
    have hpre := List.prefix_of_prefix_length_le hw (hlcp.common c hc) (Nat.le_of_lt hlong)
    exact fun x hx => hpre.trans (hlcp.common x hx)

/-- What completes a word of no characters is not what completes one of some. -/
theorem completion_shift {k : Nat} (hk : 0 < k) {names : List (List UInt8)} (hreads : ReadsInside (some k) names)
    (h : completion k names = completion 0 names) : completion k names = [] := by
  match names, hreads, h with
  | [], _, _ => rfl
  | [m], hreads, h =>
    obtain ⟨k', hk', hle⟩ := hreads
    obtain rfl := Option.some.inj hk'
    have hlen := congrArg List.length h
    simp only [completion, List.length_append, List.length_drop, List.length_singleton] at hlen
    omega
  | m :: m' :: names, _, h =>
    have hlen := congrArg List.length h
    simp only [completion, List.drop_zero, List.length_drop] at hlen ⊢
    exact List.drop_of_length_le (by omega)

theorem completion_of_untyped {k : Nat} {names : List (List UInt8)} (hreads : ReadsInside none names) :
    completion k names = [] := by
  match names, hreads with
  | [], _ => rfl
  | [_], hreads =>
    obtain ⟨_, h, -⟩ := hreads
    cases h
  | m :: m' :: names, hreads =>
    have hj : findCommonPrefix (m :: m' :: names) = 0 := hreads.resolve_right fun h => h rfl
    rw [completion, hj, List.take_zero, List.drop_nil]
    simp

theorem readsInside_mono {w : List UInt8} {names : List (List UInt8)} (h : ∀ m ∈ names, w <+: m) :
    ReadsInside (some w.length) names := by
  match names, h with
  | [], _ => trivial
  | [m], h => exact ⟨_, rfl, (h m List.mem_cons_self).length_le⟩
  | _ :: _ :: _, _ => exact .inr (by simp)

theorem looseMatches_of_nil {sh : Shell} {text : List UInt8} (h : currentWord text = []) :
    looseMatches sh text = candidates sh text := by
  rw [looseMatches, candidates, h, stem_nil, ite_self]

def printenvShell : Shell where
  prompt := [35, 32]
  -- `printenv`
  table := [⟨[112, 114, 105, 110, 116, 101, 110, 118], true⟩]
  -- `bootdelay=3`
  env := [[98, 111, 111, 116, 100, 101, 108, 97, 121, 61, 51]]

/-- `printenv` and a blank -/
def printenvLine : Console where
  text := [112, 114, 105, 110, 116, 101, 110, 118, 32]
  noNul := by simp
  n := 9
  text_le := by decide
  n_lt := by decide

end Uboot.Common.AutoComplete
