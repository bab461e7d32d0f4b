/-
  Uboot.Common.HwconfigRight

  For which strings of the documented form the four queries of common/hwconfig.c report what
  the string says.

  Three things make them report something else: doubled names, a last sub-option without a
  value in front of another option, and the length of a last value, for which the end of the
  string is used in place of the end of the argument.
-/

import Uboot.Common.HwconfigSearch

namespace Uboot.Common.Hwconfig

open Uboot.LibGeneric

-- ============================================================================
-- One level
-- ============================================================================

/-- The search stops at an item whose name is another one. -/
def Misleads (opt : Name) (it : Item) (closed : Prop) : Prop :=
  (Doubled opt it.name.chars ∧ (it.tail ≠ none ∨ closed)) ∨ ∃ t, it.tail = some t ∧ Doubled opt t ∧ closed

/-- The first item with the name has no tail. -/
def Bare (opt : Name) (items : List Item) : Prop :=
  ∃ it, items.find? (fun it => it.name.chars = opt.chars) = some it ∧ it.tail = none

/-- Where a level is searched right.  `rest` stands behind the level, `first`: the items start it. -/
def SearchRight (opt : Name) (stopch : UInt8) (rest : List UInt8) : Prop → List Item → Prop
  | _, [] => True
  | first, it :: more =>
    let closed := more ≠ [] ∨ rest = []
    -- the item itself is found, and its length is taken up to the right end
    (it.name.chars = opt.chars →
      (it.tail = none → closed) ∧ (it.tail ≠ none → more ≠ [] ∨ (stopch ∉ rest ∧ (first ∨ rest = [])))) ∧
    -- what misleads the search does no harm when the item is there and has no tail
    (it.name.chars ≠ opt.chars → Misleads opt it closed →
      ¬ (Doubled opt it.name.chars ∧ it.tail ≠ none) ∧ Bare opt more) ∧
    (it.name.chars ≠ opt.chars → ¬ Misleads opt it closed → SearchRight opt stopch rest False more)

/-- What `hwconfig_parse` makes of a match at `str`. -/
def tailAt (cfg : List UInt8) (maxlen : Nat) (opt : Name) (stopch eqch : UInt8) (str : Nat) : Option (Nat × Nat) :=
  if cfg.getD (str + opt.chars.length) 0 ≠ eqch then none
  else some (str + opt.chars.length + 1, arglenAt cfg maxlen opt stopch str)

section Level

variable {opt : Name} {stopch eqch : UInt8} {rest : List UInt8}

theorem itemHit_isSome {it : Item} (hname : it.name.chars ≠ opt.chars) (closed : Prop) [Decidable closed] :
    (itemHit opt it closed).isSome ↔ Misleads opt it closed := by
  have hdoubled : (atomHit opt true it.name.chars).isSome ↔ Doubled opt it.name.chars := by
    rw [atomHit_isSome]
    simp [hname]
  have htail : ∀ t, (atomHit opt false t).isSome ↔ Doubled opt t := by
    intro t
    rw [atomHit_isSome]
    simp
  rw [itemHit, Misleads]
  cases ht : it.tail with
  | none =>
    by_cases hc : closed <;> simp [hc, hdoubled]
  | some t =>
    dsimp only
    cases hhit : atomHit opt true it.name.chars with
    | some i => simp [← hdoubled, hhit]
    | none =>
      have hno : ¬ Doubled opt it.name.chars := by simp [← hdoubled, hhit]
      by_cases hc : closed <;> simp [hc, htail, hno]

/-- A match that is taken for an item ends its name or the whole of it. -/
theorem itemHit_end (eqch : UInt8) {it : Item} {closed : Prop} [Decidable closed] {i : Nat}
    (h : itemHit opt it closed = some i) :
    (i + opt.chars.length = it.name.chars.length ∧ (atomHit opt true it.name.chars).isSome) ∨
      (i + opt.chars.length = (it.text eqch).length ∧ it.tail ≠ none ∧ closed ∧
        atomHit opt true it.name.chars = none) := by
  rw [itemHit] at h
  cases ht : it.tail with
  | none =>
    rw [ht] at h
    dsimp only at h
    split at h
    · exact .inl ⟨atomHit_end h, by rw [h]; rfl⟩
    · cases h
  | some t =>
    rw [ht] at h
    dsimp only at h
    cases hhit : atomHit opt true it.name.chars with
    | some j =>
      rw [hhit] at h
      cases h
      exact .inl ⟨atomHit_end hhit, rfl⟩
    | none =>
      rw [hhit] at h
      dsimp only at h
      split at h
      · next hc =>
        obtain ⟨j, hj, rfl⟩ := Option.map_eq_some_iff.mp h
        refine .inr ⟨?_, by simp, hc, rfl⟩
        have := atomHit_end hj
        simp only [Item.text, ht, Option.elim_some, List.length_append, List.length_cons]
        omega
      · cases h

theorem Item.name_le_text (it : Item) (eqch : UInt8) : it.name.chars.length ≤ (it.text eqch).length := by
  rw [Item.text, List.length_append]
  omega

theorem tailOf_gt {items : List Item} {off p n : Nat} (h : tailOf eqch opt off items = some (p, n)) : off < p := by
  induction items generalizing off with
  | nil => cases h
  | cons it more ih =>
    rw [tailOf] at h
    split at h
    · obtain ⟨t, -, ht⟩ := Option.map_eq_some_iff.mp h
      cases ht
      omega
    · have := ih h
      omega

theorem tailOf_eq_none_iff {items : List Item} {off : Nat} : tailOf eqch opt off items = none ↔
    ∀ it, items.find? (fun it => it.name.chars = opt.chars) = some it → it.tail = none := by
  induction items generalizing off with
  | nil => simp [tailOf]
  | cons it more ih =>
    rw [tailOf]
    by_cases hname : it.name.chars = opt.chars
    · rw [if_pos hname, List.find?_cons_of_pos (by simpa using hname)]
      simp
    · rw [if_neg hname, List.find?_cons_of_neg (by simpa using hname)]
      exact ih

theorem bare_iff {items : List Item} {off : Nat} :
    (∃ it ∈ items, it.name.chars = opt.chars) ∧ tailOf eqch opt off items = none ↔ Bare opt items := by
  rw [tailOf_eq_none_iff, Bare]
  constructor
  · rintro ⟨⟨it, hit, hname⟩, hnone⟩
    cases hfind : items.find? (fun it => it.name.chars = opt.chars) with
    | none =>
      have := List.find?_eq_none.mp hfind it hit
      simp [hname] at this
    | some it' => exact ⟨it', rfl, hnone it' hfind⟩
  · rintro ⟨it, hfind, htail⟩
    refine ⟨⟨it, List.mem_of_find?_eq_some hfind, by simpa using List.find?_some hfind⟩, ?_⟩
    intro it' hfind'
    obtain rfl := Option.some.inj (hfind.symm.trans hfind')
    exact htail

/-- The character behind the first `k` of a level. -/
theorem getD_level {pre text : List UInt8} {k : Nat} (h : k ≤ text.length) :
    (pre ++ text ++ rest).getD (pre.length + k) 0 = (text.drop k ++ rest).headD 0 := by
  rw [getD_eq_headD_drop, drop_pre rest h]

theorem stop_not_mem_text (hsep : Separators stopch eqch) {it : Item} (hfree : it.Free stopch eqch) :
    stopch ∉ it.text eqch := by
  rw [Item.text, List.mem_append, not_or]
  refine ⟨fun h => hsep.not_ends it.name _ h (.inl rfl), ?_⟩
  cases ht : it.tail with
  | none => simp
  | some t =>
    rw [Option.elim_some, List.mem_cons, not_or]
    exact ⟨hsep.ne, fun h => hfree t ht _ h (.inl rfl)⟩

theorem levelText_cons (it : Item) {more : List Item} (hmore : more ≠ []) :
    levelText stopch eqch (it :: more) = it.text eqch ++ stopch :: levelText stopch eqch more := by
  obtain ⟨it', more, rfl⟩ := List.exists_cons_of_ne_nil hmore
  rfl

/-- Where the length of a tail is right. -/
theorem arglenAt_iff (hsep : Separators stopch eqch) (hrest : RestOk stopch eqch rest) {it : Item}
    (hfree : it.Free stopch eqch) (hname : it.name.chars = opt.chars) {t : List UInt8} (ht : it.tail = some t)
    (more : List Item) {pre : List UInt8} {start maxlen : Nat} (hstart : start ≤ pre.length)
    (hlimit : start + maxlen = pre.length + (levelText stopch eqch (it :: more)).length) :
    arglenAt (pre ++ levelText stopch eqch (it :: more) ++ rest) maxlen opt stopch pre.length = t.length ↔
      more ≠ [] ∨ (stopch ∉ rest ∧ (start = pre.length ∨ rest = [])) := by
  have hstop := stop_not_mem_text hsep hfree
  have hlen : (it.text eqch).length = opt.chars.length + 1 + t.length := by
    rw [Item.text, ht, Option.elim_some, List.length_append, List.length_cons, hname]
    omega
  have hdrop : (pre ++ levelText stopch eqch (it :: more) ++ rest).drop pre.length =
      levelText stopch eqch (it :: more) ++ rest := by
    rw [List.append_assoc, List.drop_left]
  rw [arglenAt, hdrop]
  by_cases hmore : more = []
  · subst hmore
    rw [show levelText stopch eqch [it] = it.text eqch from rfl] at hlimit ⊢
    rw [strchr_append hstop]
    cases hs : strchr stopch rest with
    | none =>
      have hnot := strchr_eq_none_iff.mp hs
      have hnil : rest = [] ↔ rest.length = 0 := List.length_eq_zero_iff.symm
      simp only [Option.map_none, ne_eq, not_true_eq_false, false_or, hnot, not_false_eq_true, true_and, hnil,
        List.length_append, hlen] at hlimit ⊢
      omega
    | some i =>
      -- the separator that is found stands behind the level
      have hmem : stopch ∈ rest := by
        by_contra hnot
        rw [strchr_eq_none_iff.mpr hnot] at hs
        cases hs
      have hi : i ≠ 0 := by
        rintro rfl
        cases hr : rest with
        | nil => rw [hr] at hmem; cases hmem
        | cons c r =>
          rw [hr, strchr] at hs
          split at hs
          · next hc =>
            rw [RestOk, hr] at hrest
            exact absurd (hrest.mp (.inl hc)) (List.cons_ne_nil _ _)
          · obtain ⟨j, -, hj⟩ := Option.map_eq_some_iff.mp hs
            omega
      simp only [Option.map_some, ne_eq, not_true_eq_false, false_or, hmem, not_true_eq_false, false_and, iff_false,
        hlen]
      omega
  · rw [levelText_cons it hmore, List.append_assoc, List.cons_append, strchr_append_cons hstop]
    simp only [hlen, ne_eq, hmore, not_false_eq_true, true_or, iff_true]
    omega

/-- What `hwconfig_parse` reports of the items at `pre` is what they say. -/
def LevelRight (opt : Name) (stopch eqch : UInt8) (rest : List UInt8) (cfg : List UInt8) (maxlen off : Nat)
    (items : List Item) : Prop :=
  ((search opt stopch eqch rest true (levelText stopch eqch items)).isSome ↔
      ∃ it ∈ items, it.name.chars = opt.chars) ∧
    ((search opt stopch eqch rest true (levelText stopch eqch items)).map (· + off)).bind
      (tailAt cfg maxlen opt stopch eqch) = tailOf eqch opt off items

/-- Behind a name with a tail stands `eqch`. -/
theorem char_behind_name {it : Item} {t : List UInt8} (ht : it.tail = some t) (more : List Item)
    (pre : List UInt8) : (pre ++ levelText stopch eqch (it :: more) ++ rest).getD
      (pre.length + it.name.chars.length) 0 = eqch := by
  obtain ⟨r, hr⟩ : ∃ r, levelText stopch eqch (it :: more) = it.name.chars ++ eqch :: r := by
    by_cases hmore : more = []
    · exact ⟨t, by subst hmore; simp [levelText, Item.text, ht]⟩
    · exact ⟨t ++ stopch :: levelText stopch eqch more, by simp [levelText_cons it hmore, Item.text, ht]⟩
  rw [hr, getD_level (by simp), List.drop_left, List.cons_append]
  rfl

/-- Behind an item, where the search may stop, does not stand `eqch`. -/
theorem char_behind_item (hsep : Separators stopch eqch) (it : Item) {more : List Item}
    (hclosed : more ≠ [] ∨ rest = []) (pre : List UInt8) :
    (pre ++ levelText stopch eqch (it :: more) ++ rest).getD (pre.length + (it.text eqch).length) 0 ≠ eqch := by
  by_cases hmore : more = []
  · obtain rfl := hclosed.resolve_left (fun h => h hmore)
    subst hmore
    rw [show levelText stopch eqch [it] = it.text eqch from rfl, getD_level (Nat.le_refl _),
      List.drop_of_length_le (Nat.le_refl _)]
    exact hsep.eq_ne_zero.symm
  · rw [levelText_cons it hmore, getD_level (by simp), List.drop_left, List.cons_append]
    exact hsep.ne

/-- The item itself: it is found unless it ends the level in front of something, and the length of its
    tail has to be right. -/
theorem levelRight_named (hsep : Separators stopch eqch) (hrest : RestOk stopch eqch rest) {start maxlen : Nat}
    {it : Item} (hit : it.Free stopch eqch) (hname : it.name.chars = opt.chars) (more : List Item)
    (pre : List UInt8) (hstart : start ≤ pre.length)
    (hlimit : start + maxlen = pre.length + (levelText stopch eqch (it :: more)).length) :
    LevelRight opt stopch eqch rest (pre ++ levelText stopch eqch (it :: more) ++ rest) maxlen pre.length
      (it :: more) ↔
    (it.tail = none → more ≠ [] ∨ rest = []) ∧
      (it.tail ≠ none → more ≠ [] ∨ (stopch ∉ rest ∧ (start = pre.length ∨ rest = []))) := by
  have hthere : ∃ it' ∈ it :: more, it'.name.chars = opt.chars := ⟨it, List.mem_cons_self, hname⟩
  have hhit : atomHit opt true it.name.chars = some 0 := by rw [hname, atomHit_name]
  rw [LevelRight, search_items hsep hrest it hit more, tailOf, if_pos hname, itemHit, hhit]
  cases ht : it.tail with
  | none =>
    have htext : it.text eqch = it.name.chars := by simp [Item.text, ht]
    by_cases hclosed : more ≠ [] ∨ rest = []
    · have hchar := char_behind_item hsep it hclosed pre
      rw [htext, hname] at hchar
      have htail : tailAt (pre ++ levelText stopch eqch (it :: more) ++ rest) maxlen opt stopch eqch pre.length =
          none := if_pos hchar
      simp only [if_pos hclosed]
      rw [Option.map_some, Option.bind_some, Nat.zero_add, htail]
      exact iff_of_true ⟨iff_of_true rfl hthere, rfl⟩ ⟨fun _ => hclosed, fun h => absurd rfl h⟩
    · have hnil : more = [] := by
        by_contra h
        exact hclosed (.inl h)
      simp only [if_neg hclosed, if_pos hnil]
      simp [hclosed, hname]
  | some t =>
    have hchar : (pre ++ levelText stopch eqch (it :: more) ++ rest).getD (pre.length + opt.chars.length) 0 =
        eqch := by
      rw [← hname]
      exact char_behind_name ht more pre
    have htail : tailAt (pre ++ levelText stopch eqch (it :: more) ++ rest) maxlen opt stopch eqch pre.length =
        some (pre.length + opt.chars.length + 1,
          arglenAt (pre ++ levelText stopch eqch (it :: more) ++ rest) maxlen opt stopch pre.length) :=
      if_neg fun h => h hchar
    have hlen := arglenAt_iff hsep hrest hit hname ht more hstart hlimit
    dsimp only
    rw [Option.map_some, Option.bind_some, Nat.zero_add, htail, hname, ← hlen]
    constructor
    · rintro ⟨-, h⟩
      obtain ⟨-, h⟩ := Prod.mk.inj (Option.some.inj h)
      exact ⟨fun hnone => absurd hnone (by simp), fun _ => h⟩
    · rintro ⟨-, h⟩
      refine ⟨iff_of_true rfl hthere, ?_⟩
      rw [h (by simp), Option.map_some]

/-- Where the search stops at another item, `eqch` stands behind the match just when the match is in the
    name of an item with a tail. -/
theorem misled_at_iff (hsep : Separators stopch eqch) {it : Item} (hname : it.name.chars ≠ opt.chars)
    {more : List Item} {i : Nat} (hhit : itemHit opt it (more ≠ [] ∨ rest = []) = some i) (pre : List UInt8) :
    (pre ++ levelText stopch eqch (it :: more) ++ rest).getD (i + pre.length + opt.chars.length) 0 = eqch ↔
      Doubled opt it.name.chars ∧ it.tail ≠ none := by
  have hdoubled : (atomHit opt true it.name.chars).isSome ↔ Doubled opt it.name.chars := by
    rw [atomHit_isSome]
    simp [hname]
  rw [Nat.add_right_comm, Nat.add_comm _ pre.length]
  rcases itemHit_end eqch hhit with ⟨hend, hin⟩ | ⟨hend, htail, hclosed, hnone⟩
  · rw [hend]
    cases ht : it.tail with
    | some t => exact iff_of_true (char_behind_name ht more pre) ⟨hdoubled.mp hin, by simp⟩
    | none =>
      have hclosed : more ≠ [] ∨ rest = [] := by
        by_contra hopen
        rw [itemHit, ht] at hhit
        simp [hopen] at hhit
      have hchar := char_behind_item hsep it hclosed pre
      rw [show it.text eqch = it.name.chars by simp [Item.text, ht]] at hchar
      exact iff_of_false hchar fun h => h.2 rfl
  · rw [hend]
    refine iff_of_false (char_behind_item hsep it hclosed pre) fun h => ?_
    have := hdoubled.mpr h.1
    rw [hnone] at this
    cases this

/-- Another item: the search is misled there, or goes on with the others. -/
theorem levelRight_other (rightBehind : Prop) (hsep : Separators stopch eqch)
    (hrest : RestOk stopch eqch rest) {maxlen : Nat}
    {it : Item} (hit : it.Free stopch eqch) (hname : it.name.chars ≠ opt.chars) (more : List Item)
    (pre : List UInt8)
    (hbehind : more ≠ [] → (LevelRight opt stopch eqch rest
      (pre ++ levelText stopch eqch (it :: more) ++ rest) maxlen (pre.length + (it.text eqch).length + 1) more ↔
        rightBehind)) (hnil : more = [] → rightBehind) :
    LevelRight opt stopch eqch rest (pre ++ levelText stopch eqch (it :: more) ++ rest) maxlen pre.length
      (it :: more) ↔
    (Misleads opt it (more ≠ [] ∨ rest = []) → ¬ (Doubled opt it.name.chars ∧ it.tail ≠ none) ∧ Bare opt more) ∧
      (¬ Misleads opt it (more ≠ [] ∨ rest = []) → rightBehind) := by
  have hisSome := itemHit_isSome hname (more ≠ [] ∨ rest = [])
  have hmem : (∃ it' ∈ it :: more, it'.name.chars = opt.chars) ↔ ∃ it' ∈ more, it'.name.chars = opt.chars := by
    simp [hname]
  rw [LevelRight, search_items hsep hrest it hit more, tailOf, if_neg hname, hmem]
  cases hhit : itemHit opt it (more ≠ [] ∨ rest = []) with
  | none =>
    rw [hhit] at hisSome
    have hno : ¬ Misleads opt it (more ≠ [] ∨ rest = []) := by simp [← hisSome]
    simp only [hno, false_implies, true_and, not_false_eq_true, true_implies]
    by_cases hmore : more = []
    · subst hmore
      simp [hnil rfl, tailOf]
    · have hshift : ((· + pre.length) ∘ (· + ((it.text eqch).length + 1)) : ℕ → ℕ) =
          (· + (pre.length + (it.text eqch).length + 1)) := by
        funext x
        simp only [Function.comp_apply]
        omega
      rw [← hbehind hmore, LevelRight, if_neg hmore, Option.isSome_map, Option.map_map, hshift]
  | some i =>
    rw [hhit] at hisSome
    have hyes : Misleads opt it (more ≠ [] ∨ rest = []) := hisSome.mp rfl
    have hdoubled : (atomHit opt true it.name.chars).isSome ↔ Doubled opt it.name.chars := by
      rw [atomHit_isSome]
      simp [hname]
    simp only [hyes, true_implies, not_true_eq_false, false_implies, and_true, Option.isSome_some, true_iff,
      Option.map_some, Option.bind_some]
    rw [tailAt]
    by_cases hchar : (pre ++ levelText stopch eqch (it :: more) ++ rest).getD (i + pre.length + opt.chars.length) 0 =
        eqch
    · -- an argument is reported that starts in front of all the others
      have hwhere := (misled_at_iff hsep hname hhit pre).mp hchar
      rw [if_neg fun h => h hchar]
      refine iff_of_false ?_ fun h => h.1 hwhere
      rintro ⟨-, htail⟩
      have hgt := tailOf_gt htail.symm
      have hle := it.name_le_text eqch
      have hend := itemHit_end eqch hhit
      omega
    · have hwhere : ¬ (Doubled opt it.name.chars ∧ it.tail ≠ none) := fun h =>
        hchar ((misled_at_iff hsep hname hhit pre).mpr h)
      rw [if_pos hchar]
      simp only [hwhere, not_false_eq_true, true_and]
      rw [eq_comm]
      exact bare_iff

/-- **One level.**  The reports on a level are right just where it is searched right. -/
theorem levelRight_iff (opt : Name) (hsep : Separators stopch eqch) (hrest : RestOk stopch eqch rest) {start maxlen : Nat}
    {items : List Item} (hfree : ∀ it ∈ items, it.Free stopch eqch) (pre : List UInt8)
    (hstart : start ≤ pre.length) (hlimit : start + maxlen = pre.length + (levelText stopch eqch items).length) :
    LevelRight opt stopch eqch rest (pre ++ levelText stopch eqch items ++ rest) maxlen pre.length items ↔
      SearchRight opt stopch rest (start = pre.length) items := by
  induction items generalizing pre with
  | nil =>
    have hnone : search opt stopch eqch rest true (levelText stopch eqch []) = none :=
      search_none (if_neg opt.ne_nil)
    simp [LevelRight, SearchRight, hnone, tailOf]
  | cons it more ih =>
    obtain ⟨hit, hmore⟩ := List.forall_mem_cons.mp hfree
    rw [SearchRight]
    by_cases hname : it.name.chars = opt.chars
    · rw [levelRight_named hsep hrest hit hname more pre hstart hlimit]
      simp [hname]
    · rw [levelRight_other (SearchRight opt stopch rest False more) hsep hrest hit hname more pre]
      · simp [hname]
      · intro hne
        have hbehind := ih hmore (pre ++ it.text eqch ++ [stopch]) (by simp; omega) (by
          rw [levelText_cons it hne] at hlimit
          simp only [List.length_append, List.length_cons, List.length_nil] at hlimit ⊢
          omega)
        have htext : pre ++ it.text eqch ++ [stopch] ++ levelText stopch eqch more =
            pre ++ levelText stopch eqch (it :: more) := by
          simp [levelText_cons it hne]
        have hlen : (pre ++ it.text eqch ++ [stopch]).length = pre.length + (it.text eqch).length + 1 := by
          simp [Nat.add_assoc]
        rw [htext, hlen] at hbehind
        rw [hbehind, eq_false (show start ≠ pre.length + (it.text eqch).length + 1 by omega)]
      · rintro rfl
        trivial

end Level

-- ============================================================================
-- The queries
-- ============================================================================

theorem separators_options : Separators 59 58 := ⟨by decide, by decide, by decide, by decide, by decide⟩

theorem separators_subOptions : Separators 44 61 := ⟨by decide, by decide, by decide, by decide, by decide⟩

theorem SubOption.item_free (sub : SubOption) : sub.item.Free 44 61 := by
  intro t ht c hc
  obtain ⟨value, -, rfl⟩ := Option.map_eq_some_iff.mp (show sub.value.map Value.chars = some t from ht)
  have hplain := value.plain c hc
  rintro (rfl | rfl | rfl) <;> revert hplain <;> decide

/-- The text of items keeps out what the items keep out. -/
theorem forall_mem_levelText {stopch eqch : UInt8} {P : UInt8 → Prop} (hstop : P stopch) {items : List Item}
    (h : ∀ it ∈ items, ∀ c ∈ it.text eqch, P c) : ∀ c ∈ levelText stopch eqch items, P c := by
  induction items with
  | nil => simp [levelText]
  | cons it more ih =>
    obtain ⟨hit, hmore⟩ := List.forall_mem_cons.mp h
    by_cases hnil : more = []
    · subst hnil
      exact hit
    · rw [levelText_cons it hnil]
      intro c hc
      rcases List.mem_append.mp hc with hc | hc
      · exact hit c hc
      · rcases List.mem_cons.mp hc with rfl | hc
        · exact hstop
        · exact ih hmore c hc

theorem HwOption.item_free (o : HwOption) : o.item.Free 59 58 := by
  intro t ht
  obtain ⟨subs, -, rfl⟩ := Option.map_eq_some_iff.mp (show o.arg.map argText = some t from ht)
  have hsub : ∀ it ∈ subs.map SubOption.item, ∀ c ∈ it.text 61, ¬ Ends 59 58 c := by
    intro it hit c hc
    obtain ⟨sub, -, rfl⟩ := List.mem_map.mp hit
    have hplain : c = 61 ∨ Plain c := by
      rcases List.mem_append.mp hc with hc | hc
      · exact .inr (sub.name.plain c hc)
      · cases hvalue : sub.value with
        | none => simp [SubOption.item, hvalue] at hc
        | some value =>
          simp only [SubOption.item, hvalue, Option.map_some, Option.elim_some, List.mem_cons] at hc
          exact hc.imp_right (value.plain c)
    rintro (rfl | rfl | rfl) <;> revert hplain <;> decide
  exact forall_mem_levelText (by decide) hsub

/-- The argument of the first option with a name. -/
def optionArg (opt : Name) : List HwOption → Option (List SubOption)
  | [] => none
  | o :: more => if o.name.chars = opt.chars then o.arg else optionArg opt more

/-- **What the queries should report**: presence, where the argument starts, and its length. -/
def ReportsRight (src : Sources) (options : List HwOption) (opt subopt : Name) : Prop :=
  (hwconfig src opt = true ↔ ∃ o ∈ options, o.name.chars = opt.chars) ∧
    hwconfigArg src opt = tailOf 58 opt 0 (options.map HwOption.item) ∧
    (hwconfigSub src opt subopt = true ↔
      ∃ subs, optionArg opt options = some subs ∧ ∃ sub ∈ subs, sub.name.chars = subopt.chars) ∧
    hwconfigSubarg src opt subopt = (tailOf 58 opt 0 (options.map HwOption.item)).bind fun arg =>
      (optionArg opt options).bind fun subs => tailOf 61 subopt arg.1 (subs.map SubOption.item)

/-- The text behind an option. -/
def behind : List HwOption → List UInt8
  | [] => []
  | o :: more => 59 :: hwconfigText (o :: more)

/-- The argument of the first option with a name is searched right. -/
def ArgRight (opt subopt : Name) : List HwOption → Prop
  | [] => True
  | o :: more =>
    if o.name.chars = opt.chars then
      ∀ subs, o.arg = some subs → SearchRight subopt 44 (behind more) True (subs.map SubOption.item)
    else ArgRight opt subopt more

theorem restOk_behind (more : List HwOption) : RestOk 44 61 (behind more) := by
  cases more with
  | nil => exact iff_of_true (.inr (.inr rfl)) rfl
  | cons o more =>
    refine iff_of_false ?_ (List.cons_ne_nil _ _)
    rw [behind, List.headD_cons]
    decide

theorem hwconfigText_cons (o : HwOption) (more : List HwOption) :
    hwconfigText (o :: more) = o.item.text 58 ++ behind more := by
  cases more with
  | nil => rw [behind, List.append_nil]; rfl
  | cons o' more => rfl

/-- Where the argument of an option stands in the string. -/
theorem arg_place {opt : Name} {options : List HwOption} {subs : List SubOption}
    (h : optionArg opt options = some subs) (off : Nat) : ∃ pre more,
      hwconfigText options = pre ++ argText subs ++ behind more ∧
      tailOf 58 opt off (options.map HwOption.item) = some (off + pre.length, (argText subs).length) ∧
      ∀ subopt, ArgRight opt subopt options ↔
        SearchRight subopt 44 (behind more) True (subs.map SubOption.item) := by
  induction options generalizing off with
  | nil => cases h
  | cons o more ih =>
    rw [optionArg] at h
    rw [List.map_cons, tailOf, hwconfigText_cons]
    by_cases hname : o.name.chars = opt.chars
    · rw [if_pos hname] at h
      have htail : o.item.tail = some (argText subs) := by rw [HwOption.item, h, Option.map_some]
      refine ⟨o.name.chars ++ [58], more, ?_, ?_, ?_⟩
      · rw [Item.text, htail]
        simp [HwOption.item]
      · rw [if_pos (show o.item.name.chars = opt.chars from hname), htail]
        simp [HwOption.item, Nat.add_assoc]
      · intro subopt
        rw [ArgRight, if_pos hname, h]
        simp
    · rw [if_neg hname] at h
      obtain ⟨pre, more', htext, htail, hright⟩ := ih h (off + (o.item.text 58).length + 1)
      obtain ⟨o', rest, rfl⟩ : ∃ o' rest, more = o' :: rest := by
        cases more with
        | nil => cases h
        | cons o' rest => exact ⟨o', rest, rfl⟩
      refine ⟨o.item.text 58 ++ 59 :: pre, more', ?_, ?_, ?_⟩
      · rw [behind, htext]
        simp
      · rw [if_neg (show o.item.name.chars ≠ opt.chars from hname), htail]
        simp only [List.length_append, List.length_cons, Option.some.injEq, Prod.mk.injEq, and_true]
        omega
      · intro subopt
        rw [ArgRight, if_neg hname, hright]

theorem tailOf_eq_none {opt : Name} {options : List HwOption} (h : optionArg opt options = none) (off : Nat) :
    tailOf 58 opt off (options.map HwOption.item) = none ∧ ∀ subopt, ArgRight opt subopt options := by
  induction options generalizing off with
  | nil => exact ⟨rfl, fun _ => trivial⟩
  | cons o more ih =>
    rw [optionArg] at h
    by_cases hname : o.name.chars = opt.chars
    · rw [if_pos hname] at h
      constructor
      · rw [List.map_cons, tailOf, if_pos (show o.item.name.chars = opt.chars from hname), HwOption.item, h]
        rfl
      · intro subopt
        rw [ArgRight, if_pos hname, h]
        simp
    · rw [if_neg hname] at h
      obtain ⟨htail, hright⟩ := ih h (off + (o.item.text 58).length + 1)
      constructor
      · rw [List.map_cons, tailOf, if_neg (show o.item.name.chars ≠ opt.chars from hname), htail]
      · intro subopt
        rw [ArgRight, if_neg hname]
        exact hright subopt

/-- `hwconfig_parse` on the items of a level. -/
theorem parse_right_iff (opt : Name) {stopch eqch : UInt8} {rest : List UInt8} (hsep : Separators stopch eqch)
    (hrest : RestOk stopch eqch rest) {items : List Item} (hfree : ∀ it ∈ items, it.Free stopch eqch)
    (pre : List UInt8) :
    (((hwconfigParse (pre ++ levelText stopch eqch items ++ rest) pre.length (levelText stopch eqch items).length opt
        stopch eqch).isSome ↔ ∃ it ∈ items, it.name.chars = opt.chars) ∧
      hwconfigParseArg (pre ++ levelText stopch eqch items ++ rest) pre.length (levelText stopch eqch items).length
        opt stopch eqch = tailOf eqch opt pre.length items) ↔
    SearchRight opt stopch rest True items := by
  have hlevel := levelRight_iff opt hsep hrest hfree pre (Nat.le_refl _) rfl
  rw [eq_true (rfl : pre.length = pre.length)] at hlevel
  rw [← hlevel, LevelRight, hwconfigParse, hwconfigParseArg, hwconfigNext_eq opt stopch eqch rest _ pre
    (Nat.le_refl _) rfl, Option.isSome_map]
  rfl

/-- **The queries** report what the string says just where the string is searched right for the option, and
    its argument for the sub-option. -/
theorem reportsRight_iff {src : Sources} {options : List HwOption} (h : src.string = some (hwconfigText options))
    (opt subopt : Name) : ReportsRight src options opt subopt ↔
      SearchRight opt 59 [] True (options.map HwOption.item) ∧ ArgRight opt subopt options := by
  have hfree : ∀ it ∈ options.map HwOption.item, it.Free 59 58 := by
    intro it hit
    obtain ⟨o, -, rfl⟩ := List.mem_map.mp hit
    exact o.item_free
  have htop := parse_right_iff opt separators_options
    (show RestOk 59 58 [] from iff_of_true (.inr (.inr rfl)) rfl) hfree []
  rw [List.nil_append, List.append_nil] at htop
  have hthere : (∃ it ∈ options.map HwOption.item, it.name.chars = opt.chars) ↔
      ∃ o ∈ options, o.name.chars = opt.chars := by
    simp [HwOption.item]
  rw [hthere] at htop
  have hquery : hwconfig src opt =
      (hwconfigParse (hwconfigText options) 0 (hwconfigText options).length opt 59 58).isSome := by
    rw [hwconfig, h, Option.bind_some]
  have harg : hwconfigArg src opt =
      hwconfigParseArg (hwconfigText options) 0 (hwconfigText options).length opt 59 58 := by
    rw [hwconfigArg, h, Option.bind_some]
  have hsplit : ReportsRight src options opt subopt ↔
      SearchRight opt 59 [] True (options.map HwOption.item) ∧
        ((hwconfigSub src opt subopt = true ↔
          ∃ subs, optionArg opt options = some subs ∧ ∃ sub ∈ subs, sub.name.chars = subopt.chars) ∧
        hwconfigSubarg src opt subopt = (tailOf 58 opt 0 (options.map HwOption.item)).bind fun arg =>
          (optionArg opt options).bind fun subs => tailOf 61 subopt arg.1 (subs.map SubOption.item)) := by
    rw [ReportsRight, hquery, harg, ← htop, and_assoc]
    rfl
  rw [hsplit]
  refine and_congr_right fun hright => ?_
  have hargRight : hwconfigArg src opt = tailOf 58 opt 0 (options.map HwOption.item) := by
    rw [harg]
    exact (htop.mpr hright).2
  rw [hwconfigSub, hwconfigSubarg, h, hargRight]
  cases hoption : optionArg opt options with
  | none =>
    obtain ⟨htail, hsub⟩ := tailOf_eq_none hoption 0
    rw [htail]
    simp [hsub subopt]
  | some subs =>
    obtain ⟨pre, more, htext, htail, hsub⟩ := arg_place hoption 0
    have hfree : ∀ it ∈ subs.map SubOption.item, it.Free 44 61 := by
      intro it hit
      obtain ⟨sub, -, rfl⟩ := List.mem_map.mp hit
      exact sub.item_free
    have hlevel := parse_right_iff subopt separators_subOptions (restOk_behind more) hfree pre
    have hthere : (∃ it ∈ subs.map SubOption.item, it.name.chars = subopt.chars) ↔
        ∃ sub ∈ subs, sub.name.chars = subopt.chars := by
      simp [SubOption.item]
    rw [htail, hsub, ← hlevel, hthere, htext, Nat.zero_add]
    simp only [Option.bind_some, Option.some.injEq, exists_eq_left', argText]

def usb : Name := ⟨[117, 115, 98], by decide, by simp [Plain]⟩

def fast : Name := ⟨[102, 97, 115, 116], by decide, by simp [Plain]⟩

def pci : Name := ⟨[112, 99, 105], by decide, by simp [Plain]⟩

/-- `usb:fast;pci` -/
def usbFast : List HwOption := [⟨usb, some [⟨fast, none⟩]⟩, ⟨pci, none⟩]

/-- In `usb:fast;pci` the sub-option `fast` of `usb` is not found. -/
theorem not_reportsRight_lastSubOption : ¬ ∀ (src : Sources) (options : List HwOption) (opt subopt : Name),
    src.string = some (hwconfigText options) → ReportsRight src options opt subopt := by
  intro h
  have hsub := (h ⟨some (hwconfigText usbFast), none, none⟩ usbFast usb fast rfl).2.2.1.mpr
    ⟨[⟨fast, none⟩], rfl, _, List.mem_cons_self, rfl⟩
  have harg : hwconfigNext (hwconfigText usbFast) 0 (hwconfigText usbFast).length usb 59 58 0 = some 0 := by
    rw [hwconfigNext]
    rfl
  have hnone : hwconfigNext (hwconfigText usbFast) 4 4 fast 44 61 8 = none := by
    rw [hwconfigNext]
    rfl
  have hnext : hwconfigNext (hwconfigText usbFast) 4 4 fast 44 61 4 = none := by
    rw [hwconfigNext]
    exact hnone
  have hquery : hwconfigArg ⟨some (hwconfigText usbFast), none, none⟩ usb = some (4, 4) := by
    change hwconfigParseArg (hwconfigText usbFast) 0 (hwconfigText usbFast).length usb 59 58 = some (4, 4)
    rw [hwconfigParseArg, harg]
    rfl
  rw [hwconfigSub, hquery] at hsub
  change (hwconfigNext (hwconfigText usbFast) 4 4 fast 44 61 4).isSome = true at hsub
  rw [hnext] at hsub
  cases hsub

theorem reportsRight_pci : (Sources.mk none (some (hwconfigText usbFast)) none).string = some (hwconfigText usbFast) ∧
    (ReportsRight ⟨none, some (hwconfigText usbFast), none⟩ usbFast pci fast ↔
      SearchRight pci 59 [] True (usbFast.map HwOption.item) ∧ ArgRight pci fast usbFast) :=
  ⟨rfl, reportsRight_iff rfl pci fast⟩

end Uboot.Common.Hwconfig
