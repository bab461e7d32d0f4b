/-
  Uboot.Common.HwconfigSearch

  The substring search of common/hwconfig.c on strings of the documented form: where it stops,
  item by item, and what it is misled by.

  A match is taken for an item when it stands at the place where the search went on, and the
  search goes on behind a match that was no item.  So two matches in a row are an item.
-/

import Uboot.Common.Hwconfig

namespace Uboot.Common.Hwconfig

open Uboot.LibGeneric

/-- A match may end in front of `c`. -/
def Ends (stopch eqch c : UInt8) : Prop := c = stopch ∨ c = eqch ∨ c = 0

instance (stopch eqch c : UInt8) : Decidable (Ends stopch eqch c) := inferInstanceAs (Decidable (_ ∨ _))

/-- The loop of `hwconfig_parse` on a text with `rest` behind it; `b`: a match at the head counts. -/
def search (opt : Name) (stopch eqch : UInt8) (rest : List UInt8) (b : Bool) (text : List UInt8) : Option Nat :=
  match _h : strstr opt.chars text with
  | none => none
  | some i =>
    let fin := i + opt.chars.length
    if ((i = 0 ∧ b) ∨ (i ≠ 0 ∧ text.getD (i - 1) 0 = stopch)) ∧ Ends stopch eqch ((text.drop fin ++ rest).headD 0)
    then some i
    else (search opt stopch eqch rest true (text.drop fin)).map (· + fin)
termination_by text.length
decreasing_by
  have hle := strstr_le _h
  have hpos := opt.length_pos
  rw [List.length_drop]
  omega

section Search

variable {opt : Name} {stopch eqch : UInt8} {rest text : List UInt8} {b : Bool}

theorem search_none (h : strstr opt.chars text = none) : search opt stopch eqch rest b text = none := by
  rw [search]
  split
  · rfl
  · next i hi => cases h.symm.trans hi

theorem search_some {i : Nat} (h : strstr opt.chars text = some i) : search opt stopch eqch rest b text =
    if ((i = 0 ∧ b) ∨ (i ≠ 0 ∧ text.getD (i - 1) 0 = stopch)) ∧
        Ends stopch eqch ((text.drop (i + opt.chars.length) ++ rest).headD 0) then some i
    else (search opt stopch eqch rest true (text.drop (i + opt.chars.length))).map (· + (i + opt.chars.length)) := by
  conv_lhs => rw [search]
  split
  · next hi => cases h.symm.trans hi
  · next j hj =>
    obtain rfl := Option.some.inj (h.symm.trans hj)
    rfl

theorem getD_eq_headD_drop (l : List UInt8) (i : Nat) : l.getD i 0 = (l.drop i).headD 0 := by
  rw [List.getD_eq_getElem?_getD, List.headD_eq_head?_getD, List.head?_drop]

theorem drop_pre {pre text : List UInt8} {i : Nat} (rest : List UInt8) (h : i ≤ text.length) :
    (pre ++ text ++ rest).drop (pre.length + i) = text.drop i ++ rest := by
  rw [List.append_assoc, ← List.drop_drop, List.drop_left, List.drop_append_of_le_length h]

/-- The loop on the whole string is the search in the part up to its limit. -/
theorem hwconfigNext_eq (opt : Name) (stopch eqch : UInt8) (rest : List UInt8) {start maxlen : Nat}
    (text pre : List UInt8) (hstart : start ≤ pre.length) (hlimit : start + maxlen = pre.length + text.length) :
    hwconfigNext (pre ++ text ++ rest) start maxlen opt stopch eqch pre.length =
      (search opt stopch eqch rest true text).map (· + pre.length) := by
  induction hn : text.length using Nat.strong_induction_on generalizing text pre with
  | _ n ih =>
    have hdrop : (pre ++ text ++ rest).drop pre.length = text ++ rest := by
      rw [List.append_assoc, List.drop_left]
    have hpos := opt.length_pos
    rw [hwconfigNext]
    split
    · next h =>
      rw [hdrop] at h
      rw [search_none (strstr_eq_none_of_append fun i hi => by cases h.symm.trans hi)]
      rfl
    · next i h =>
      rw [hdrop] at h
      dsimp only
      by_cases hlen : maxlen < pre.length + i + opt.chars.length - start
      · rw [if_pos hlen, search_none]
        · rfl
        · refine strstr_eq_none_of_append (r := rest) fun j hj => ?_
          obtain rfl := Option.some.inj (h.symm.trans hj)
          omega
      · have hle : i + opt.chars.length ≤ text.length := by omega
        have htext := strstr_of_append h hle
        have hbefore : (pre.length + i = pre.length ∨ (pre ++ text ++ rest).getD (pre.length + i - 1) 0 = stopch) ↔
            ((i = 0 ∧ true = true) ∨ (i ≠ 0 ∧ text.getD (i - 1) 0 = stopch)) := by
          rcases Nat.eq_zero_or_pos i with rfl | hi
          · simp
          · rw [List.append_assoc, show pre.length + i - 1 = pre.length + (i - 1) by omega,
              List.getD_append_right _ _ _ _ (by omega), Nat.add_sub_cancel_left,
              List.getD_append _ _ _ _ (by omega)]
            have h1 : ¬ pre.length + i = pre.length := by omega
            have h2 : i ≠ 0 := by omega
            simp only [h1, h2, false_or, false_and, true_and, ne_eq, not_false_eq_true]
        have hbehind : (pre ++ text ++ rest).getD (pre.length + i + opt.chars.length) 0 =
            (text.drop (i + opt.chars.length) ++ rest).headD 0 := by
          rw [getD_eq_headD_drop, Nat.add_assoc, drop_pre rest hle]
        rw [if_neg hlen, search_some htext, hbehind]
        by_cases hok : ((i = 0 ∧ true = true) ∨ (i ≠ 0 ∧ text.getD (i - 1) 0 = stopch)) ∧
            Ends stopch eqch ((text.drop (i + opt.chars.length) ++ rest).headD 0)
        · rw [if_pos hok, if_pos ⟨hbefore.mpr hok.1, hok.2⟩, Option.map_some, Nat.add_comm]
        · rw [if_neg hok, if_neg fun h => hok ⟨hbefore.mp h.1, h.2⟩]
          -- the loop goes on behind the match
          have hsplit : pre ++ text ++ rest =
              (pre ++ text.take (i + opt.chars.length)) ++ text.drop (i + opt.chars.length) ++ rest := by
            rw [List.append_assoc pre (text.take _), List.take_append_drop]
          have hpre : (pre ++ text.take (i + opt.chars.length)).length = pre.length + i + opt.chars.length := by
            rw [List.length_append, List.length_take]
            omega
          rw [hsplit, ← hpre, ih (text.length - (i + opt.chars.length)) (by omega) _ _ (by omega)
            (by rw [hpre, List.length_drop]; omega) (by rw [List.length_drop]), Option.map_map, hpre]
          congr 1
          funext x
          simp only [Function.comp_apply]
          omega

end Search

-- ============================================================================
-- One atom
-- ============================================================================

/-- Where the search takes a match at the end of `a` for an item, whatever `a` is part of; `b`: a match
    at the head counts. -/
def atomHit (opt : Name) (b : Bool) (a : List UInt8) : Option Nat :=
  match _h : strstr opt.chars a with
  | none => none
  | some i =>
    let fin := i + opt.chars.length
    if fin = a.length then (if i = 0 ∧ b then some 0 else none)
    else (atomHit opt true (a.drop fin)).map (· + fin)
termination_by a.length
decreasing_by
  have hle := strstr_le _h
  have hpos := opt.length_pos
  rw [List.length_drop]
  omega

section Atom

variable {opt : Name} {stopch eqch : UInt8} {rest a : List UInt8} {b : Bool} {i : Nat}

theorem atomHit_none (h : strstr opt.chars a = none) : atomHit opt b a = none := by
  rw [atomHit]
  split
  · rfl
  · next i hi => cases h.symm.trans hi

theorem atomHit_some (h : strstr opt.chars a = some i) : atomHit opt b a =
    if i + opt.chars.length = a.length then (if i = 0 ∧ b then some 0 else none)
    else (atomHit opt true (a.drop (i + opt.chars.length))).map (· + (i + opt.chars.length)) := by
  conv_lhs => rw [atomHit]
  split
  · next hi => cases h.symm.trans hi
  · next j hj =>
    obtain rfl := Option.some.inj (h.symm.trans hj)
    rfl

/-- Such a match ends the atom. -/
theorem atomHit_end (h : atomHit opt b a = some i) : i + opt.chars.length = a.length := by
  induction hn : a.length using Nat.strong_induction_on generalizing a b i with
  | _ n ih =>
    cases hs : strstr opt.chars a with
    | none =>
      rw [atomHit_none hs] at h
      cases h
    | some j =>
      have hle := strstr_le hs
      have hpos := opt.length_pos
      rw [atomHit_some hs] at h
      split at h
      · next hend =>
        split at h
        · next h0 =>
          cases h
          omega
        · cases h
      · obtain ⟨k, hk, rfl⟩ := Option.map_eq_some_iff.mp h
        have hrest := ih (a.drop (j + opt.chars.length)).length (by rw [List.length_drop]; omega) hk rfl
        rw [List.length_drop] at hrest
        omega

/-- Inside an atom a match counts only at its head, and only where the atom ends. -/
theorem match_counts_iff (hfree : ∀ c ∈ a, ¬ Ends stopch eqch c) (hle : i + opt.chars.length ≤ a.length)
    (r : List UInt8) :
    (((i = 0 ∧ b) ∨ (i ≠ 0 ∧ a.getD (i - 1) 0 = stopch)) ∧
      Ends stopch eqch ((a.drop (i + opt.chars.length) ++ r).headD 0)) ↔
    (i = 0 ∧ b) ∧ i + opt.chars.length = a.length ∧ Ends stopch eqch (r.headD 0) := by
  have hpos := opt.length_pos
  have hchar : ∀ j < a.length, ¬ Ends stopch eqch (a.getD j 0) := by
    intro j hj
    rw [List.getD_eq_getElem _ _ hj]
    exact hfree _ (List.getElem_mem hj)
  have hbehind : Ends stopch eqch ((a.drop (i + opt.chars.length) ++ r).headD 0) ↔
      i + opt.chars.length = a.length ∧ Ends stopch eqch (r.headD 0) := by
    by_cases hend : i + opt.chars.length = a.length
    · rw [List.drop_of_length_le (by omega), List.nil_append]
      exact ⟨fun h => ⟨hend, h⟩, And.right⟩
    · have hlt : i + opt.chars.length < a.length := by omega
      have hhead : (a.drop (i + opt.chars.length) ++ r).headD 0 = a.getD (i + opt.chars.length) 0 := by
        rw [← List.drop_append_of_le_length hle, ← getD_eq_headD_drop, List.getD_append _ _ _ _ hlt]
      rw [hhead]
      exact ⟨fun h => absurd h (hchar _ hlt), fun h => absurd h.1 hend⟩
  rw [hbehind]
  constructor
  · rintro ⟨h | h, hends⟩
    · exact ⟨h, hends⟩
    · exact absurd (.inl h.2) (hchar (i - 1) (by omega))
  · rintro ⟨h, hends⟩
    exact ⟨.inl h, hends⟩

/-- An atom without separators at the end of the text. -/
theorem search_last (hfree : ∀ c ∈ a, ¬ Ends stopch eqch c) :
    search opt stopch eqch rest b a = if Ends stopch eqch (rest.headD 0) then atomHit opt b a else none := by
  induction hn : a.length using Nat.strong_induction_on generalizing a b with
  | _ n ih =>
    subst hn
    have hpos := opt.length_pos
    cases hstr : strstr opt.chars a with
    | none => rw [search_none hstr, atomHit_none hstr, ite_self]
    | some i =>
      have hle := strstr_le hstr
      have hcounts := match_counts_iff (b := b) hfree hle rest
      have hgo := ih (a.drop (i + opt.chars.length)).length (by rw [List.length_drop]; omega) (b := true)
        (fun c hc => hfree c (List.mem_of_mem_drop hc)) rfl
      rw [search_some hstr, atomHit_some hstr, hgo]
      by_cases hend : i + opt.chars.length = a.length
      · have hnil : atomHit opt true (a.drop (i + opt.chars.length)) = none := by
          rw [List.drop_of_length_le (by omega)]
          exact atomHit_none (if_neg opt.ne_nil)
        rw [hnil, ite_self, if_pos hend]
        by_cases h0 : i = 0 ∧ b = true
        · by_cases hrest : Ends stopch eqch (rest.headD 0)
          · rw [if_pos (hcounts.mpr ⟨h0, hend, hrest⟩), if_pos h0, if_pos hrest, h0.1]
          · rw [if_neg fun h => hrest (hcounts.mp h).2.2, if_neg hrest]
            rfl
        · rw [if_neg fun h => h0 (hcounts.mp h).1, if_neg h0, ite_self]
          rfl
      · rw [if_neg fun h => hend (hcounts.mp h).2.1, if_neg hend]
        split <;> rfl

/-- An atom without separators in front of one: the search stops in it, or goes on behind. -/
theorem search_atom {s : UInt8} (hfree : ∀ c ∈ a, ¬ Ends stopch eqch c) (hs : s ∉ opt.chars)
    (hends : Ends stopch eqch s) (r : List UInt8) : search opt stopch eqch rest b (a ++ s :: r) =
      match atomHit opt b a with
      | some i => some i
      | none => (search opt stopch eqch rest (s = stopch) r).map (· + (a.length + 1)) := by
  induction hn : a.length using Nat.strong_induction_on generalizing a b with
  | _ n ih =>
    subst hn
    have hpos := opt.length_pos
    cases hstr : strstr opt.chars a with
    | none =>
      rw [atomHit_none hstr]
      have happ := strstr_append_cons hs opt.ne_nil hstr r
      have hdrop : ∀ k, (a ++ s :: r).drop (k + (a.length + 1)) = r.drop k := by
        intro k
        rw [List.append_cons, Nat.add_comm, ← List.drop_drop]
        congr 1
        exact List.drop_left' (by simp)
      cases hr : strstr opt.chars r with
      | none =>
        rw [hr] at happ
        rw [search_none happ, search_none hr]
        rfl
      | some j =>
        rw [hr, Option.map_some] at happ
        have hbefore : (a ++ s :: r).getD (j + (a.length + 1) - 1) 0 = (s :: r).getD j 0 := by
          rw [List.getD_append_right _ _ _ _ (by omega)]
          congr 1
          omega
        have hfin : (a ++ s :: r).drop (j + (a.length + 1) + opt.chars.length) = r.drop (j + opt.chars.length) := by
          rw [← hdrop]
          congr 1
          omega
        rw [search_some happ, search_some hr, hbefore, hfin]
        have hallowed : ((j + (a.length + 1) = 0 ∧ b = true) ∨
            (j + (a.length + 1) ≠ 0 ∧ (s :: r).getD j 0 = stopch)) ↔
            ((j = 0 ∧ decide (s = stopch) = true) ∨ (j ≠ 0 ∧ r.getD (j - 1) 0 = stopch)) := by
          cases j with
          | zero => simp
          | succ j => simp
        by_cases hok : ((j = 0 ∧ decide (s = stopch) = true) ∨ (j ≠ 0 ∧ r.getD (j - 1) 0 = stopch)) ∧
            Ends stopch eqch ((r.drop (j + opt.chars.length) ++ rest).headD 0)
        · rw [if_pos hok, if_pos ⟨hallowed.mpr hok.1, hok.2⟩]
          rfl
        · rw [if_neg hok, if_neg fun h => hok ⟨hallowed.mp h.1, h.2⟩]
          simp only [Option.map_map]
          congr 1
          funext x
          simp only [Function.comp_apply]
          omega
    | some i =>
      have hle := strstr_le hstr
      have hcounts := match_counts_iff (b := b) hfree hle (s :: r ++ rest)
      have hgo := ih (a.drop (i + opt.chars.length)).length (by rw [List.length_drop]; omega) (b := true)
        (fun c hc => hfree c (List.mem_of_mem_drop hc)) rfl
      have hbefore : ((i = 0 ∧ b = true) ∨ (i ≠ 0 ∧ (a ++ s :: r).getD (i - 1) 0 = stopch)) ↔
          ((i = 0 ∧ b = true) ∨ (i ≠ 0 ∧ a.getD (i - 1) 0 = stopch)) := by
        rw [List.getD_append _ _ _ _ (show i - 1 < a.length by omega)]
      rw [search_some (strstr_append hstr _), atomHit_some hstr, List.drop_append_of_le_length hle, hgo,
        List.append_assoc]
      simp only [hbefore]
      rw [List.length_drop]
      by_cases hend : i + opt.chars.length = a.length
      · have hnil : atomHit opt true (a.drop (i + opt.chars.length)) = none := by
          rw [List.drop_of_length_le (by omega)]
          exact atomHit_none (if_neg opt.ne_nil)
        rw [hnil, if_pos hend]
        by_cases h0 : i = 0 ∧ b = true
        · rw [if_pos (hcounts.mpr ⟨h0, hend, hends⟩), if_pos h0, h0.1]
        · rw [if_neg fun h => h0 (hcounts.mp h).1, if_neg h0]
          simp only [Option.map_map]
          congr 1
          funext x
          simp only [Function.comp_apply]
          omega
      · rw [if_neg fun h => hend (hcounts.mp h).2.1, if_neg hend]
        cases atomHit opt true (a.drop (i + opt.chars.length)) with
        | some j => rfl
        | none =>
          simp only [Option.map_map]
          congr 1
          funext x
          simp only [Function.comp_apply]
          omega

end Atom

-- ============================================================================
-- Doubled names
-- ============================================================================

/-- When `a` is cut off behind each occurrence of the name, from the left, a piece other than the first
    one is the name, and it ends `a`. -/
def Doubled (opt : Name) (a : List UInt8) : Prop :=
  match _h : strstr opt.chars a with
  | none => False
  | some i => a.drop (i + opt.chars.length) = opt.chars ∨ Doubled opt (a.drop (i + opt.chars.length))
termination_by a.length
decreasing_by
  have hle := strstr_le _h
  have hpos := opt.length_pos
  rw [List.length_drop]
  omega

section Doubled

variable {opt : Name} {a : List UInt8} {b : Bool} {i : Nat}

theorem doubled_none (h : strstr opt.chars a = none) : ¬ Doubled opt a := by
  rw [Doubled]
  split
  · exact id
  · next i hi => cases h.symm.trans hi

theorem doubled_some (h : strstr opt.chars a = some i) : Doubled opt a ↔
    a.drop (i + opt.chars.length) = opt.chars ∨ Doubled opt (a.drop (i + opt.chars.length)) := by
  conv_lhs => rw [Doubled]
  split
  · next hi => cases h.symm.trans hi
  · next j hj =>
    obtain rfl := Option.some.inj (h.symm.trans hj)
    rfl

/-- The search takes the end of an atom for the item when it is the name itself, or doubled. -/
theorem atomHit_isSome : (atomHit opt b a).isSome ↔ (b ∧ a = opt.chars) ∨ Doubled opt a := by
  induction hn : a.length using Nat.strong_induction_on generalizing a b with
  | _ n ih =>
    subst hn
    have hpos := opt.length_pos
    cases hstr : strstr opt.chars a with
    | none =>
      rw [atomHit_none hstr]
      have hne : a ≠ opt.chars := by
        rintro rfl
        obtain ⟨x, s, hxs⟩ := List.exists_cons_of_ne_nil opt.ne_nil
        rw [hxs, strstr, if_pos (List.prefix_refl _)] at hstr
        cases hstr
      simp [hne, doubled_none hstr]
    | some i =>
      have hle := strstr_le hstr
      rw [atomHit_some hstr, doubled_some hstr]
      by_cases hend : i + opt.chars.length = a.length
      · have hnil : a.drop (i + opt.chars.length) = [] := List.drop_of_length_le (by omega)
        have hno : ¬ Doubled opt [] := doubled_none (if_neg opt.ne_nil)
        have hwhole : i = 0 ↔ a = opt.chars := by
          constructor
          · rintro rfl
            exact ((prefix_strstr hstr).eq_of_length (by rw [List.drop_zero]; omega)).symm
          · rintro rfl
            omega
        rw [if_pos hend, hnil]
        simp only [hno, opt.ne_nil.symm, or_self, or_false, ← hwhole]
        by_cases h0 : i = 0 ∧ b = true
        · simp [h0]
        · rw [if_neg h0]
          simp only [Option.isSome_none, Bool.false_eq_true, false_iff]
          exact fun h => h0 ⟨h.2, h.1⟩
      · have hne : a ≠ opt.chars := by
          rintro rfl
          omega
        rw [if_neg hend, Option.isSome_map, ih _ (by rw [List.length_drop]; omega) rfl]
        simp [hne]

theorem atomHit_name : atomHit opt true opt.chars = some 0 := by
  have h : (atomHit opt true opt.chars).isSome := atomHit_isSome.mpr (.inl ⟨rfl, rfl⟩)
  obtain ⟨i, hi⟩ := Option.isSome_iff_exists.mp h
  have hend := atomHit_end hi
  rw [hi, show i = 0 by omega]

end Doubled

-- ============================================================================
-- One item
-- ============================================================================

section Item

variable {opt : Name} {stopch eqch : UInt8} {rest : List UInt8}

/-- Where the search stops in an item; `closed`: it may stop at the end of it. -/
def itemHit (opt : Name) (it : Item) (closed : Prop) [Decidable closed] : Option Nat :=
  match it.tail with
  | none => if closed then atomHit opt true it.name.chars else none
  | some t =>
    match atomHit opt true it.name.chars with
    | some i => some i
    | none => if closed then (atomHit opt false t).map (· + (it.name.chars.length + 1)) else none

/-- What stands behind a tail does not occur in it. -/
def Item.Free (stopch eqch : UInt8) (it : Item) : Prop := ∀ t ∈ it.tail, ∀ c ∈ t, ¬ Ends stopch eqch c

/-- The characters that separate the items of a level. -/
structure Separators (stopch eqch : UInt8) : Prop where
  ne : stopch ≠ eqch
  stop_ne_zero : stopch ≠ 0
  eq_ne_zero : eqch ≠ 0
  stop : ¬ Plain stopch
  eq : ¬ Plain eqch

theorem Separators.not_ends (h : Separators stopch eqch) (name : Name) : ∀ c ∈ name.chars, ¬ Ends stopch eqch c := by
  rintro c hc (rfl | rfl | rfl)
  · exact h.stop (name.plain _ hc)
  · exact h.eq (name.plain _ hc)
  · exact (name.plain _ hc).2.2.2.2 rfl

/-- At the end of the items the search may stop just when nothing follows. -/
def RestOk (stopch eqch : UInt8) (rest : List UInt8) : Prop := Ends stopch eqch (rest.headD 0) ↔ rest = []

/-- The search in items: it stops in the first one, or goes on with the others. -/
theorem search_items (hsep : Separators stopch eqch) (hrest : RestOk stopch eqch rest) (it : Item)
    (hfree : it.Free stopch eqch) (more : List Item) :
    search opt stopch eqch rest true (levelText stopch eqch (it :: more)) =
      match itemHit opt it (more ≠ [] ∨ rest = []) with
      | some i => some i
      | none => if more = [] then none else
        (search opt stopch eqch rest true (levelText stopch eqch more)).map (· + ((it.text eqch).length + 1)) := by
  have hname := hsep.not_ends it.name
  have hstop : stopch ∉ opt.chars := fun h => hsep.stop (opt.plain _ h)
  have heq : eqch ∉ opt.chars := fun h => hsep.eq (opt.plain _ h)
  rw [RestOk] at hrest
  cases more with
  | nil =>
    cases htail : it.tail with
    | none =>
      have htext : levelText stopch eqch [it] = it.name.chars := by simp [levelText, Item.text, htail]
      rw [htext, search_last hname]
      simp only [itemHit, htail, hrest, ne_eq, not_true_eq_false, false_or, if_true]
      split
      · cases atomHit opt true it.name.chars <;> rfl
      · rfl
    | some t =>
      have htext : levelText stopch eqch [it] = it.name.chars ++ eqch :: t := by simp [levelText, Item.text, htail]
      rw [htext, search_atom hname heq (.inr (.inl rfl)), decide_eq_false hsep.ne.symm,
        search_last (hfree t htail)]
      simp only [itemHit, htail, hrest, ne_eq, not_true_eq_false, false_or, if_true]
      cases atomHit opt true it.name.chars with
      | some i => rfl
      | none =>
        by_cases hclosed : rest = []
        · simp only [if_pos hclosed]
          cases atomHit opt false t <;> rfl
        · simp only [if_neg hclosed]
          rfl
  | cons it' more =>
    have hne : it' :: more ≠ [] := List.cons_ne_nil _ _
    cases htail : it.tail with
    | none =>
      have htext : levelText stopch eqch (it :: it' :: more) =
          it.name.chars ++ stopch :: levelText stopch eqch (it' :: more) := by simp [levelText, Item.text, htail]
      rw [htext, search_atom hname hstop (.inl rfl), decide_eq_true rfl]
      simp [itemHit, htail, Item.text]
    | some t =>
      have htext : levelText stopch eqch (it :: it' :: more) =
          it.name.chars ++ eqch :: (t ++ stopch :: levelText stopch eqch (it' :: more)) := by
        simp [levelText, Item.text, htail]
      rw [htext, search_atom hname heq (.inr (.inl rfl)), decide_eq_false hsep.ne.symm,
        search_atom (hfree t htail) hstop (.inl rfl), decide_eq_true rfl]
      simp only [itemHit, htail, hne, ne_eq, not_false_eq_true, true_or, if_true, if_false]
      cases atomHit opt true it.name.chars with
      | some i => rfl
      | none =>
        cases atomHit opt false t with
        | some i => rfl
        | none =>
          simp only [Option.map_none, Option.map_map]
          congr 1
          funext x
          simp only [Function.comp_apply, Item.text, htail, Option.elim_some, List.length_append, List.length_cons]
          omega

end Item

end Uboot.Common.Hwconfig
