/-
  Uboot.Common.EnvStore

  The environment's bytes as an association list.  `Denotes data vs` says that the
  data begin with the strings of `vs`, the empty string behind them; `setVar` is what
  a call of `_do_setenv` means for such a list.  The search, the deletion and the
  appending of the source are each described once on data cut at the place they
  work at, and the refinement is assembled from the three.
-/

import Uboot.Lib.Run
import Uboot.Common.CmdNvedit
import Mathlib.Data.List.Chain
import Mathlib.Data.List.Nodup
import Mathlib.Data.List.TakeWhile

namespace Uboot.Common

open Uboot.Lib Uboot.LibGeneric

/-! ## The abstract store -/

/-- The data of an environment that holds the variables `vs`, to its double NUL. -/
def encode : List EnvVar → List UInt8
  | [] => [0, 0]
  | v :: vs => packed (v :: vs) ++ [0]

/-- The data are a well-formed environment of distinct variables. -/
def Denotes (data : List UInt8) (vs : List EnvVar) : Prop :=
  (vs.map EnvVar.name).Nodup ∧ ∃ rest, data = encode vs ++ rest

/-- The value of a name. -/
def lookupVar (vs : List EnvVar) (name : List UInt8) : Option (List UInt8) :=
  (vs.find? fun v => v.name.bytes = name).map fun v => v.value.bytes

/-- The names `_do_setenv` treats apart. -/
def sideNames : List (List UInt8) :=
  consoleNames ++ [ascii "serial#", ascii "ethaddr", ascii "baudrate"]

/-- A call with a name that can be set like any other. -/
structure PlainCall extends SetCall where
  noEq : eqSign ∉ name.bytes
  plain : name.bytes ∉ sideNames

/-- The arguments joined by single spaces. -/
def joined (vals : List CStr) : List UInt8 := [32].intercalate (vals.map CStr.bytes)

theorem joined_noNul (vals : List CStr) : 0 ∉ joined vals := by
  induction vals with
  | nil => simp [joined]
  | cons v vals ih =>
    cases vals with
    | nil => simpa [joined] using v.noNul
    | cons w vals =>
      simp only [joined, List.map_cons] at ih
      simp only [joined, List.map_cons, List.intercalate_cons_cons, List.mem_append, not_or]
      exact ⟨⟨v.noNul, by decide⟩, ih⟩

/-- The variable a call defines. -/
def PlainCall.var (call : PlainCall) : EnvVar where
  name := call.name
  value := ⟨joined call.values, joined_noNul call.values⟩
  noEq := call.noEq

/-- What a call does to the variables, in data of `size` bytes: the old binding of
    the name goes, the new one is put behind the others if it fits. -/
def setVar (size : Nat) (vs : List EnvVar) (call : PlainCall) : List EnvVar :=
  let kept := vs.filter fun v => v.name ≠ call.name
  if call.values = [] then kept
  else if (encode (kept ++ [call.var])).length ≤ size then kept ++ [call.var]
  else kept

/-! ## Lists cut at a position -/

theorem envGetChar_at (A R : List UInt8) (x : UInt8) :
    envGetChar (A ++ x :: R) A.length = x := by simp [envGetChar]

theorem set_at (A R : List UInt8) (x y : UInt8) :
    (A ++ x :: R).set A.length y = A ++ y :: R := by simp

theorem poke_append (A R bs : List UInt8) (h : bs.length ≤ R.length) :
    poke (A ++ R) A.length bs = A ++ bs ++ R.drop bs.length := by
  induction bs generalizing A R with
  | nil => simp [poke]
  | cons b bs ih =>
    cases R with
    | nil => simp at h
    | cons x R =>
      have h' := ih (A ++ [b]) R (by simpa using h)
      rw [poke, set_at]
      simpa using h'

/-! ## The strings of the environment -/

theorem EnvVar.text_noNul (v : EnvVar) : 0 ∉ v.text := by
  simp only [EnvVar.text, List.mem_append, List.mem_cons, not_or]
  exact ⟨v.name.noNul, by decide, v.value.noNul⟩

theorem EnvVar.text_ne_nil (v : EnvVar) : v.text ≠ [] := by simp [EnvVar.text]

theorem EnvVar.text_length (v : EnvVar) :
    v.text.length = v.name.bytes.length + 1 + v.value.bytes.length := by
  simp [EnvVar.text]; omega

/-- No two NULs meet. -/
def NoGap (bs : List UInt8) : Prop := bs.IsChain fun a b => a ≠ 0 ∨ b ≠ 0

theorem noGap_of_noNul {bs : List UInt8} (h : 0 ∉ bs) : NoGap bs := by
  apply List.Pairwise.isChain
  apply List.pairwise_iff_forall_sublist.mpr
  intro a b hab
  exact .inl fun e => h (e ▸ hab.subset (by simp))

/-- Two NULs meet only behind the last string. -/
theorem noGap_packed (vs : List EnvVar) : NoGap (packed vs) := by
  induction vs with
  | nil => exact List.isChain_nil
  | cons v vs ih =>
    have htail : NoGap (0 :: packed vs) := by
      apply List.isChain_cons.mpr
      refine ⟨?_, ih⟩
      intro b hb
      cases vs with
      | nil => simp at hb
      | cons w vs =>
        right
        rintro rfl
        apply w.text_noNul
        rw [packed_cons, List.head?_append_of_ne_nil _ w.text_ne_nil] at hb
        exact List.mem_of_mem_head? hb
    rw [packed_cons]
    refine (noGap_of_noNul v.text_noNul).append htail ?_
    intro a ha b _
    left
    rintro rfl
    exact v.text_noNul (List.mem_of_mem_getLast? ha)

/-- The strings without the last NUL. -/
theorem packed_eq_append {vs : List EnvVar} (h : vs ≠ []) :
    ∃ P, P ≠ [] ∧ packed vs = P ++ [0] ∧ NoGap (P ++ [0]) := by
  obtain ⟨ws, v, rfl⟩ := List.eq_nil_or_concat' vs |>.resolve_left h
  have he : packed (ws ++ [v]) = (packed ws ++ v.text) ++ [0] := by simp
  refine ⟨packed ws ++ v.text, ?_, he, he ▸ noGap_packed _⟩
  simp [v.text_ne_nil]

theorem length_le_packed (vs : List EnvVar) : vs.length ≤ (packed vs).length := by
  induction vs with
  | nil => simp
  | cons v vs ih => simp; omega

/-- The data of any list of variables, with a double NUL. -/
theorem encode_append_packed (vs : List EnvVar) (rest : List UInt8) :
    ∃ R, encode vs ++ rest = packed vs ++ 0 :: R := by
  cases vs with
  | nil => exact ⟨0 :: rest, rfl⟩
  | cons v vs => exact ⟨rest, by simp [encode]⟩

theorem encode_of_ne_nil {vs : List EnvVar} (h : vs ≠ []) : encode vs = packed vs ++ [0] := by
  cases vs with
  | nil => exact absurd rfl h
  | cons v vs => rfl

/-! ## The search -/

/-- The name of a `name=value` pair; a string without `=` is its own. -/
def nameOf (s : List UInt8) : List UInt8 := s.takeWhile (· ≠ eqSign)

theorem nameOf_eq {s : List UInt8} (h : eqSign ∉ s) : nameOf s = s := by
  apply List.takeWhile_eq_self_iff.mpr
  intro b hb
  exact decide_eq_true fun e : b = eqSign => h (e ▸ hb)

/-- `envmatch` compares the name of `s` with the name of an entry. -/
theorem envmatch_at (A R s : List UInt8) {name : List UInt8} (h : eqSign ∉ name) :
    envmatch (A ++ name ++ eqSign :: R) s A.length =
      if nameOf s = name then some (A.length + name.length + 1) else none := by
  induction s generalizing A name with
  | nil =>
    cases name with
    | nil =>
      have hc := envGetChar_at A R eqSign
      simp [envmatch, nameOf, hc]
    | cons d name =>
      have hc := envGetChar_at A (name ++ eqSign :: R) d
      have hd : d ≠ eqSign := fun e => h (e ▸ List.mem_cons_self ..)
      simp [envmatch, nameOf, hc, hd]
  | cons c s ih =>
    cases name with
    | nil =>
      have hc := envGetChar_at A R eqSign
      by_cases he : c = eqSign <;> simp [envmatch, nameOf, hc, he]
    | cons d name =>
      have hc := envGetChar_at A (name ++ eqSign :: R) d
      have hd : d ≠ eqSign := fun e => h (e ▸ List.mem_cons_self ..)
      have hn : eqSign ∉ name := fun e => h (List.mem_cons_of_mem _ e)
      by_cases he : c = d
      · -- one character on: the entry's first one joins the part before it
        subst he
        have ih' := ih (A ++ [c]) hn
        have hname : nameOf (c :: s) = c :: nameOf s := by simp [nameOf, hd]
        rw [show A ++ c :: name ++ eqSign :: R = A ++ [c] ++ name ++ eqSign :: R by simp,
          envmatch, if_pos (by simp [envGetChar]), if_neg hd, hname]
        rw [List.length_append, List.length_singleton] at ih'
        rw [ih']
        simp [Nat.add_comm, Nat.add_left_comm]
      · have hne : nameOf (c :: s) ≠ d :: name := by
          intro e
          by_cases hcq : c = eqSign
          · simp [nameOf, hcq] at e
          · simp [nameOf, hcq, he] at e
        simp [envmatch, hc, he, hne]

theorem endOfString_at (A R : List UInt8) {t : List UInt8} (h : 0 ∉ t) :
    endOfString (A ++ t ++ 0 :: R) A.length = A.length + t.length := by
  rw [endOfString, List.append_assoc, List.drop_left, cstr_append h]

/-- One round of the search, at the entry of `v`. -/
theorem findLoop_entry (A R s : List UInt8) (v : EnvVar) (fuel : Nat) :
    findLoop (A ++ v.text ++ 0 :: R) s (fuel + 1) A.length =
      if nameOf s = v.name.bytes then
        some ⟨A.length, A.length + v.text.length, A.length + v.name.bytes.length + 1⟩
      else findLoop (A ++ v.text ++ 0 :: R) s fuel (A ++ v.text ++ [0]).length := by
  have hne : envGetChar (A ++ v.text ++ 0 :: R) A.length ≠ 0 := by
    obtain ⟨c, t, ht⟩ := List.exists_cons_of_ne_nil v.text_ne_nil
    rw [ht, List.append_assoc, List.cons_append, envGetChar_at]
    intro e
    exact v.text_noNul (ht ▸ e ▸ List.mem_cons_self ..)
  have hm : envmatch (A ++ v.text ++ 0 :: R) s A.length =
      if nameOf s = v.name.bytes then some (A.length + v.name.bytes.length + 1) else none := by
    have h := envmatch_at A (v.value.bytes ++ 0 :: R) s v.noEq
    simpa [EnvVar.text] using h
  simp only [findLoop, hne, if_false, endOfString_at A R v.text_noNul, hm]
  by_cases he : nameOf s = v.name.bytes <;> simp [he, Nat.add_assoc]

theorem findLoop_none {A vs rest s} {fuel : Nat} (hf : vs.length < fuel)
    (hno : ∀ v ∈ vs, v.name.bytes ≠ nameOf s) :
    findLoop (A ++ packed vs ++ 0 :: rest) s fuel A.length = none := by
  induction vs generalizing A fuel with
  | nil =>
    obtain ⟨fuel, rfl⟩ := Nat.exists_eq_add_of_lt hf
    simp [findLoop, envGetChar]
  | cons v vs ih =>
    obtain ⟨fuel, rfl⟩ : ∃ f, fuel = f + 1 := ⟨fuel - 1, by omega⟩
    have he : A ++ packed (v :: vs) ++ 0 :: rest =
        A ++ v.text ++ 0 :: (packed vs ++ 0 :: rest) := by simp
    have he' : A ++ v.text ++ 0 :: (packed vs ++ 0 :: rest) =
        (A ++ v.text ++ [0]) ++ packed vs ++ 0 :: rest := by simp
    have hv : nameOf s ≠ v.name.bytes := fun e => hno v (List.mem_cons_self ..) e.symm
    rw [he, findLoop_entry, if_neg hv, he']
    exact ih (by simp at hf; omega) fun w hw => hno w (List.mem_cons_of_mem _ hw)

theorem findLoop_some {A vs v ws rest s} {fuel : Nat} (hf : vs.length < fuel)
    (hno : ∀ u ∈ vs, u.name.bytes ≠ nameOf s) (hv : v.name.bytes = nameOf s) :
    findLoop (A ++ packed (vs ++ v :: ws) ++ rest) s fuel A.length =
      some ⟨A.length + (packed vs).length, A.length + (packed vs).length + v.text.length,
        A.length + (packed vs).length + v.name.bytes.length + 1⟩ := by
  induction vs generalizing A fuel with
  | nil =>
    obtain ⟨fuel, rfl⟩ : ∃ f, fuel = f + 1 := ⟨fuel - 1, by omega⟩
    have he : A ++ packed ([] ++ v :: ws) ++ rest = A ++ v.text ++ 0 :: (packed ws ++ rest) := by
      simp
    rw [he, findLoop_entry, if_pos hv.symm]
    simp
  | cons u vs ih =>
    obtain ⟨fuel, rfl⟩ : ∃ f, fuel = f + 1 := ⟨fuel - 1, by omega⟩
    have he : A ++ packed (u :: vs ++ v :: ws) ++ rest =
        A ++ u.text ++ 0 :: (packed (vs ++ v :: ws) ++ rest) := by simp
    have he' : A ++ u.text ++ 0 :: (packed (vs ++ v :: ws) ++ rest) =
        (A ++ u.text ++ [0]) ++ packed (vs ++ v :: ws) ++ rest := by simp
    have hu : nameOf s ≠ u.name.bytes := fun e => hno u (List.mem_cons_self ..) e.symm
    rw [he, findLoop_entry, if_neg hu, he',
      ih (by simp at hf; omega) fun w hw => hno w (List.mem_cons_of_mem _ hw)]
    simp [Nat.add_assoc, Nat.add_left_comm, Nat.add_comm]

/-- `getenv` is the search of `_do_setenv` on data inside `CONFIG_ENV_SIZE`. -/
theorem getenvLoop_eq {envSize : Nat} {data s : List UInt8} (h : data.length ≤ envSize)
    (fuel i : Nat) :
    getenvLoop envSize data s fuel i =
      (findLoop data s fuel i).map fun f => cstr (data.drop f.oldval) := by
  induction fuel generalizing i with
  | zero => rfl
  | succ fuel ih =>
    rw [getenvLoop, findLoop]
    by_cases hc : envGetChar data i = 0
    · simp [hc]
    · have hi : i < data.length := by
        by_contra hle
        exact hc (List.getD_eq_default _ _ (by omega))
      have hend : endOfString data i ≤ data.length := by
        have hle : (cstr (data.drop i)).length ≤ (data.drop i).length :=
          (List.takeWhile_sublist _).length_le
        rw [List.length_drop] at hle
        rw [endOfString]
        omega
      simp only [hc, if_false, show ¬ envSize < endOfString data i by omega]
      cases envmatch data s i with
      | none => exact ih _
      | some val => rfl

/-! ## The deletion -/

/-- One round of the shift: the byte `p` behind the gap `g :: G` is copied to its
    start; the next byte `q` says whether the loop goes on. -/
theorem shiftLoop_round (A G R : List UInt8) (g p q : UInt8) (fuel : Nat) :
    shiftLoop (fuel + 1) (A ++ g :: G ++ p :: q :: R) A.length (A ++ g :: G).length =
      if p = 0 ∧ q = 0 then (A ++ p :: (G ++ p :: q :: R), A.length)
      else shiftLoop fuel (A ++ p :: (G ++ p :: q :: R)) (A.length + 1)
        ((A ++ g :: G).length + 1) := by
  have hs : (A ++ g :: G ++ p :: q :: R).set A.length p = A ++ p :: (G ++ p :: q :: R) := by simp
  have hq : envGetChar (A ++ p :: (G ++ p :: q :: R)) ((A ++ g :: G).length + 1) = q := by
    have h := envGetChar_at (A ++ p :: G ++ [p]) R q
    simpa [Nat.add_assoc] using h
  rw [shiftLoop, envGetChar_at, hs]
  simp only [envGetChar_at, hq]

/-- The strings `P` behind the gap `G` move down to where the gap began. -/
theorem shiftLoop_spec {A G P T : List UInt8} {fuel : Nat} (hf : P.length < fuel) (hG : G ≠ [])
    (hP : NoGap (P ++ [0])) :
    ∃ X, X ≠ [] ∧
      shiftLoop fuel (A ++ G ++ P ++ 0 :: 0 :: T) A.length (A ++ G).length =
        (A ++ P ++ 0 :: X, A.length + P.length) := by
  obtain ⟨g, G, rfl⟩ := List.exists_cons_of_ne_nil hG
  obtain ⟨fuel, rfl⟩ : ∃ f, fuel = f + 1 := ⟨fuel - 1, by omega⟩
  induction P generalizing A g G fuel with
  | nil =>
    -- the NUL is copied and the next one ends the loop
    refine ⟨G ++ 0 :: 0 :: T, by simp, ?_⟩
    rw [List.append_nil, shiftLoop_round, if_pos ⟨rfl, rfl⟩, List.append_nil, List.length_nil,
      Nat.add_zero]
  | cons p P ih =>
    obtain ⟨q, Q, hq⟩ : ∃ q Q, P ++ [0] = q :: Q := List.exists_cons_of_ne_nil (by simp)
    have hrest : P ++ 0 :: 0 :: T = q :: (Q ++ 0 :: T) := by
      rw [← List.cons_append, ← hq]; simp
    have hgo : ¬ (p = 0 ∧ q = 0) := by
      rw [List.cons_append, hq] at hP
      have h := (List.isChain_cons_cons.mp hP).1
      grind
    have hd : A ++ g :: G ++ p :: P ++ 0 :: 0 :: T = A ++ g :: G ++ p :: q :: (Q ++ 0 :: T) := by
      rw [← hrest]; simp
    have hnext : A ++ p :: (G ++ p :: q :: (Q ++ 0 :: T)) =
        A ++ [p] ++ (G ++ [p]) ++ P ++ 0 :: 0 :: T := by
      rw [← hrest]; simp
    -- the gap moves on by one byte, `p` is the last one of it now
    obtain ⟨g', G', hG'⟩ := List.exists_cons_of_ne_nil (show G ++ [p] ≠ [] by simp)
    have hlen : (A ++ g :: G).length + 1 = (A ++ [p] ++ g' :: G').length := by
      rw [← hG']; simp; omega
    obtain ⟨fuel, rfl⟩ : ∃ f, fuel = f + 1 := ⟨fuel - 1, by simp at hf; omega⟩
    obtain ⟨X, hX, hloop⟩ := ih (A := A ++ [p]) (List.isChain_cons.mp hP).2 g' G' (by simp) fuel
      (by simpa using hf)
    refine ⟨X, hX, ?_⟩
    rw [hd, shiftLoop_round, if_neg hgo, hnext, hG', hlen,
      show A.length + 1 = (A ++ [p]).length by simp, hloop]
    simp [Nat.add_comm, Nat.add_left_comm]

/-- The deletion of an entry leaves the other variables, in their order. -/
theorem deleteVar_spec (vs ws : List EnvVar) (v : EnvVar) (rest : List UInt8) (oldval : Nat) :
    ∃ rest', deleteVar (encode (vs ++ v :: ws) ++ rest)
      ⟨(packed vs).length, (packed vs).length + v.text.length, oldval⟩ =
        encode (vs ++ ws) ++ rest' := by
  have hd : encode (vs ++ v :: ws) ++ rest =
      packed vs ++ (v.text ++ [0]) ++ (packed ws ++ 0 :: rest) := by
    rw [encode_of_ne_nil (by simp)]; simp
  have hnxt : (packed vs).length + v.text.length + 1 =
      (packed vs ++ (v.text ++ [0])).length := by simp; omega
  rw [hd]
  unfold deleteVar
  simp only [hnxt]
  by_cases hws : ws = []
  · subst hws
    rw [packed_nil, List.nil_append, envGetChar_at, if_pos rfl, List.append_nil]
    by_cases hvs : vs = []
    · -- the only entry
      subst hvs
      obtain ⟨c, t, ht⟩ := List.exists_cons_of_ne_nil v.text_ne_nil
      cases t with
      | nil => exact ⟨0 :: rest, by simp [ht, encode]⟩
      | cons d t => exact ⟨t ++ 0 :: 0 :: rest, by simp [ht, encode]⟩
    · -- the last entry: the NUL of the one before is the first of the two
      obtain ⟨P, hP, hPe, _⟩ := packed_eq_append hvs
      have hpos : 0 < (packed vs).length := by rw [hPe]; simp
      obtain ⟨c, t, ht⟩ := List.exists_cons_of_ne_nil v.text_ne_nil
      refine ⟨t ++ 0 :: 0 :: rest, ?_⟩
      rw [if_pos hpos, encode_of_ne_nil hvs, Nat.sub_add_cancel hpos, ht]
      simp
  · -- a middle entry
    obtain ⟨P, hP, hPe, hgap⟩ := packed_eq_append hws
    have hchar : envGetChar (packed vs ++ (v.text ++ [0]) ++ (packed ws ++ 0 :: rest))
        (packed vs ++ (v.text ++ [0])).length ≠ 0 := by
      obtain ⟨w, ws, rfl⟩ := List.exists_cons_of_ne_nil hws
      obtain ⟨c, t, ht⟩ := List.exists_cons_of_ne_nil w.text_ne_nil
      rw [packed_cons, ht, List.cons_append, List.cons_append, envGetChar_at]
      intro e
      exact w.text_noNul (ht ▸ e ▸ List.mem_cons_self ..)
    have hsplit : packed vs ++ (v.text ++ [0]) ++ (packed ws ++ 0 :: rest) =
        packed vs ++ (v.text ++ [0]) ++ P ++ 0 :: 0 :: rest := by rw [hPe]; simp
    obtain ⟨X, hX, hloop⟩ := @shiftLoop_spec (packed vs) (v.text ++ [0]) P rest
      ((packed vs ++ (v.text ++ [0]) ++ (packed ws ++ 0 :: rest)).length + 1)
      (by rw [hPe]; simp; omega) (by simp) hgap
    obtain ⟨x, X, rfl⟩ := List.exists_cons_of_ne_nil hX
    refine ⟨X, ?_⟩
    rw [if_neg hchar, hsplit]
    rw [hsplit] at hloop
    rw [hloop, encode_of_ne_nil (by simp [hws]), packed_append, hPe,
      show (packed vs).length + P.length + 1 = (packed vs ++ P ++ [0]).length by
        simp [Nat.add_assoc],
      show packed vs ++ P ++ 0 :: x :: X = packed vs ++ P ++ [0] ++ x :: X by simp, set_at]
    simp

/-- No data get longer or shorter. -/
theorem deleteVar_length (data : List UInt8) (f : Found) :
    (deleteVar data f).length = data.length := by
  have hshift : ∀ fuel (d : List UInt8) env nxt, (shiftLoop fuel d env nxt).1.length = d.length := by
    intro fuel
    induction fuel with
    | zero => intro d env nxt; rfl
    | succ fuel ih =>
      intro d env nxt
      rw [shiftLoop]
      split
      · simp
      · rw [ih]; simp
  unfold deleteVar
  by_cases h : envGetChar data (f.nxt + 1) = 0
  · by_cases he : 0 < f.env <;> simp [h, he]
  · simp [h, hshift]

/-! ## The appending -/

/-- The search for the double NUL passes the strings `P`. -/
theorem endLoop_spec {A P T : List UInt8} {fuel : Nat} (hf : P.length < fuel)
    (hP : NoGap (P ++ [0])) :
    endLoop (A ++ P ++ 0 :: 0 :: T) fuel A.length = A.length + P.length := by
  induction P generalizing A fuel with
  | nil =>
    obtain ⟨fuel, rfl⟩ : ∃ f, fuel = f + 1 := ⟨fuel - 1, by omega⟩
    have h0 := envGetChar_at A (0 :: T) 0
    have h1 := envGetChar_at (A ++ [0]) T 0
    simp only [List.append_assoc, List.singleton_append, List.length_append,
      List.length_singleton] at h1
    rw [List.append_nil, endLoop, h0, h1]
    simp
  | cons p P ih =>
    obtain ⟨fuel, rfl⟩ : ∃ f, fuel = f + 1 := ⟨fuel - 1, by omega⟩
    obtain ⟨q, Q, hq⟩ : ∃ q Q, P ++ [0] = q :: Q := List.exists_cons_of_ne_nil (by simp)
    have hgo : p ≠ 0 ∨ q ≠ 0 := by
      rw [List.cons_append, hq] at hP
      exact (List.isChain_cons_cons.mp hP).1
    have hrest : P ++ 0 :: 0 :: T = q :: (Q ++ 0 :: T) := by
      rw [← List.cons_append, ← hq]; simp
    have hd : A ++ p :: P ++ 0 :: 0 :: T = A ++ [p] ++ P ++ 0 :: 0 :: T := by simp
    have hp : envGetChar (A ++ [p] ++ P ++ 0 :: 0 :: T) A.length = p := by
      have h := envGetChar_at A (P ++ 0 :: 0 :: T) p
      simpa using h
    have hpq : envGetChar (A ++ [p] ++ P ++ 0 :: 0 :: T) (A.length + 1) = q := by
      have h := envGetChar_at (A ++ [p]) (Q ++ 0 :: T) q
      rwa [← hrest, ← List.append_assoc, List.length_append, List.length_singleton] at h
    rw [hd, endLoop, hp, hpq, if_pos hgo, show A.length + 1 = (A ++ [p]).length by simp,
      ih (by simp at hf; omega) (List.isChain_cons.mp hP).2]
    simp; omega

/-- A new definition goes behind the strings. -/
theorem endOfEnv_encode (vs : List EnvVar) (rest : List UInt8) :
    endOfEnv (encode vs ++ rest) = (packed vs).length := by
  have hend : ∀ P : List UInt8, NoGap (P ++ [0]) → encode vs ++ rest = [] ++ P ++ 0 :: 0 :: rest →
      endOfEnv (encode vs ++ rest) = if 0 < P.length then P.length + 1 else P.length := by
    intro P hgap hd
    have h := @endLoop_spec [] P rest
      (([] ++ P ++ 0 :: 0 :: rest).length + 1)
      (by simp only [List.length_append, List.length_cons]; omega) hgap
    rw [List.length_nil, Nat.zero_add] at h
    rw [hd, ← h]
    rfl
  by_cases hvs : vs = []
  · rw [hend [] (by simp [NoGap]) (by simp [hvs, encode]), hvs]
    rfl
  · obtain ⟨P, hP, hPe, hgap⟩ := packed_eq_append hvs
    rw [hend P hgap (by rw [encode_of_ne_nil hvs, hPe]; simp),
      if_pos (List.length_pos_iff.mpr hP), hPe, List.length_append, List.length_singleton]

/-- The values, each behind `sep` or a blank. -/
def joinedWith : UInt8 → List CStr → List UInt8
  | _, [] => []
  | sep, v :: vals => sep :: v.bytes ++ joinedWith 32 vals

theorem joinedWith_eq (sep : UInt8) {vals : List CStr} (h : vals ≠ []) :
    joinedWith sep vals = sep :: joined vals := by
  induction vals generalizing sep with
  | nil => exact absurd rfl h
  | cons v vals ih =>
    cases vals with
    | nil => simp [joinedWith, joined]
    | cons w vals =>
      rw [joinedWith, ih 32 (by simp)]
      simp [joined, List.intercalate_cons_cons]

theorem joinedWith_length (sep : UInt8) (vals : List CStr) :
    (joinedWith sep vals).length = (vals.map fun v => v.bytes.length + 1).sum := by
  induction vals generalizing sep with
  | nil => rfl
  | cons v vals ih => simp [joinedWith, ih]; omega

/-- The values are written over the NUL behind `B` and on. -/
theorem putValues_spec {B R : List UInt8} {sep x : UInt8} {vals : List CStr}
    (h : (joinedWith sep vals).length ≤ R.length) (hx : vals = [] → x = 0) :
    putValues (B ++ x :: R) B.length sep vals =
      (B ++ joinedWith sep vals ++ 0 :: R.drop (joinedWith sep vals).length,
        (B ++ joinedWith sep vals).length) := by
  induction vals generalizing B R sep x with
  | nil => simp [putValues, joinedWith, hx rfl]
  | cons v vals ih =>
    have hl : (joinedWith sep (v :: vals)).length =
        v.bytes.length + 1 + (joinedWith 32 vals).length := by
      simp only [joinedWith, List.cons_append, List.length_cons, List.length_append]
      omega
    rw [hl] at h
    have hpoke : poke (B ++ sep :: R) (B.length + 1) (v.bytes ++ [0]) =
        (B ++ sep :: v.bytes) ++ 0 :: R.drop (v.bytes.length + 1) := by
      have hp := poke_append (B ++ [sep]) R (v.bytes ++ [0]) (by simp; omega)
      simpa using hp
    have hlen : B.length + 1 + v.bytes.length = (B ++ sep :: v.bytes).length := by simp; omega
    rw [putValues, set_at, hpoke, hlen, ih (by rw [List.length_drop]; omega) fun _ => rfl,
      List.drop_drop, hl]
    simp [joinedWith]

/-- The new definition stands behind what is kept, and two NULs behind it. -/
theorem appendVar_spec {A R : List UInt8} {name : CStr} {vals : List CStr}
    (h : name.bytes.length + 2 + (vals.map fun v => v.bytes.length + 1).sum ≤ R.length) :
    ∃ rest, appendVar (A ++ R) A.length name vals =
      A ++ (name.bytes ++ joinedWith eqSign vals) ++ 0 :: 0 :: rest := by
  rw [← joinedWith_length eqSign] at h
  have hpoke := poke_append A R (name.bytes ++ [0]) (by simp; omega)
  have hB : A ++ (name.bytes ++ [0]) ++ R.drop (name.bytes ++ [0]).length =
      (A ++ name.bytes) ++ 0 :: R.drop (name.bytes.length + 1) := by simp
  have hput := @putValues_spec (A ++ name.bytes) (R.drop (name.bytes.length + 1))
    eqSign 0 vals (by rw [List.length_drop]; omega) fun _ => rfl
  obtain ⟨r, rest, hr⟩ : ∃ r rest, (R.drop (name.bytes.length + 1)).drop
      (joinedWith eqSign vals).length = r :: rest := by
    apply List.exists_cons_of_ne_nil
    intro e
    have hl := congrArg List.length e
    simp at hl
    omega
  refine ⟨rest, ?_⟩
  have hset := set_at (A ++ name.bytes ++ joinedWith eqSign vals ++ [0]) rest r 0
  rw [List.length_append, List.length_singleton] at hset
  rw [appendVar, hpoke, hB, ← List.length_append, hput, hr]
  simp only [List.append_assoc, List.singleton_append] at hset ⊢
  exact hset

theorem poke_length (data bs : List UInt8) (env : Nat) :
    (poke data env bs).length = data.length := by
  induction bs generalizing data env with
  | nil => rfl
  | cons b bs ih => rw [poke, ih, List.length_set]

theorem putValues_length (data : List UInt8) (env : Nat) (sep : UInt8) (vals : List CStr) :
    (putValues data env sep vals).1.length = data.length := by
  induction vals generalizing data env sep with
  | nil => rfl
  | cons v vals ih => rw [putValues, ih, poke_length, List.length_set]

/-- `_do_setenv` never changes the size of the data. -/
theorem doSetenv_length (cfg : EnvConfig) (env : Env) (call : SetCall) :
    (doSetenv cfg env call).2.data.length = env.data.length := by
  have hdel : ∀ f, (deleteFound env.data f).length = env.data.length := by
    rintro (_ | f)
    · rfl
    · exact deleteVar_length env.data f
  have happ : ∀ pos, (appendVar (deleteFound env.data (findVar env.data call.name.bytes)) pos
      call.name call.values).length = env.data.length := by
    intro pos
    simp [appendVar, putValues_length, poke_length, hdel]
  obtain ⟨_, _, h⟩ | ⟨_, _, h⟩ | ⟨_, _, _, h⟩ | ⟨_, _, _, h⟩ := doSetenv_cases cfg env call
  · rw [h]
  · rw [h, envCrcUpdate_data, hdel]
  · rw [h, hdel]
  · rw [h, envCrcUpdate_data, happ]

/-! ## The refinement -/

theorem CStr.ext_iff_bytes {a b : CStr} : a = b ↔ a.bytes = b.bytes := by
  cases a; cases b; simp

/-- A plain name is refused nowhere. -/
theorem refusal_plain (cfg : EnvConfig) (data : List UInt8) (call : PlainCall)
    (found : Option Found) : refusal cfg data call.toSetCall found = none := by
  have hside := call.plain
  simp only [sideNames, List.mem_append, List.mem_cons, List.not_mem_nil, or_false, not_or] at hside
  obtain ⟨hcons, hser, heth, hbaud⟩ := hside
  cases found <;> simp [refusal, call.noEq, hcons, overwriteRefused, baudrateRefused, hser, heth, hbaud]

/-- A name of the list is at one place of it. -/
theorem split_at_name {vs : List EnvVar} {name : CStr} (hnd : (vs.map EnvVar.name).Nodup)
    (h : name ∈ vs.map EnvVar.name) :
    ∃ as v bs, vs = as ++ v :: bs ∧ v.name = name ∧ (∀ u ∈ as, u.name ≠ name) ∧
      ∀ u ∈ bs, u.name ≠ name := by
  obtain ⟨v, hv, rfl⟩ := List.mem_map.mp h
  obtain ⟨as, bs, rfl⟩ := List.append_of_mem hv
  rw [List.map_append, List.map_cons, List.nodup_append, List.nodup_cons] at hnd
  obtain ⟨_, ⟨hbs, _⟩, has⟩ := hnd
  refine ⟨as, v, bs, rfl, rfl, ?_, ?_⟩
  · intro u hu e
    exact has _ (List.mem_map_of_mem hu) _ (List.mem_cons_self ..) e
  · intro u hu e
    exact hbs (e ▸ List.mem_map_of_mem hu)

/-- The search finds the entry of a name, or finds that it has none. -/
theorem findVar_encode {vs : List EnvVar} (rest : List UInt8) {s : List UInt8} :
    (∀ v ∈ vs, v.name.bytes ≠ nameOf s) → findVar (encode vs ++ rest) s = none := by
  intro hno
  obtain ⟨R, hR⟩ := encode_append_packed vs rest
  have hlen := length_le_packed vs
  have h := @findLoop_none [] vs R _
    (([] ++ packed vs ++ 0 :: R).length + 1) (by simp; omega) hno
  rw [findVar, hR]
  exact h

theorem findVar_encode_at {as bs : List EnvVar} {v : EnvVar} (rest : List UInt8) {s : List UInt8}
    (has : ∀ u ∈ as, u.name.bytes ≠ nameOf s) (hv : v.name.bytes = nameOf s) :
    findVar (encode (as ++ v :: bs) ++ rest) s =
      some ⟨(packed as).length, (packed as).length + v.text.length,
        (packed as).length + v.name.bytes.length + 1⟩ := by
  obtain ⟨R, hR⟩ := encode_append_packed (as ++ v :: bs) rest
  have hlen := length_le_packed as
  have h := @findLoop_some [] as v bs (0 :: R) _
    (([] ++ packed (as ++ v :: bs) ++ 0 :: R).length + 1) (by simp; omega) has hv
  rw [List.length_nil, Nat.zero_add] at h
  rw [findVar, hR]
  exact h

/-- Deleting the binding of a name keeps the others in their order. -/
theorem deleteFound_encode {vs : List EnvVar} (hnd : (vs.map EnvVar.name).Nodup)
    (rest : List UInt8) {name : CStr} (hname : eqSign ∉ name.bytes) :
    ∃ rest', deleteFound (encode vs ++ rest) (findVar (encode vs ++ rest) name.bytes) =
      encode (vs.filter fun v => v.name ≠ name) ++ rest' := by
  have hne : ∀ u : EnvVar, u.name ≠ name → u.name.bytes ≠ nameOf name.bytes := by
    intro u hu
    rwa [nameOf_eq hname, ne_eq, ← CStr.ext_iff_bytes]
  by_cases h : name ∈ vs.map EnvVar.name
  · obtain ⟨as, v, bs, rfl, rfl, has, hbs⟩ := split_at_name hnd h
    rw [findVar_encode_at rest (fun u hu => hne u (has u hu)) (nameOf_eq hname).symm]
    have hkept : ((as ++ v :: bs).filter fun u => u.name ≠ v.name) = as ++ bs := by
      rw [List.filter_append, List.filter_cons_of_neg (by simp),
        List.filter_eq_self.mpr (by simpa using has), List.filter_eq_self.mpr (by simpa using hbs)]
    rw [hkept]
    exact deleteVar_spec as bs v rest _
  · have hno : ∀ v ∈ vs, v.name ≠ name := fun v hv e => h (e ▸ List.mem_map_of_mem hv)
    rw [findVar_encode rest fun v hv => hne v (hno v hv),
      List.filter_eq_self.mpr (by simpa using hno)]
    exact ⟨rest, rfl⟩

/-- The size the source compares with the room is the size of the new data. -/
theorem encode_var_length (vs : List EnvVar) (call : PlainCall) (hv : call.values ≠ []) :
    (encode (vs ++ [call.var])).length = (packed vs).length + call.len := by
  have hlen := joinedWith_length eqSign call.values
  rw [joinedWith_eq eqSign hv, List.length_cons] at hlen
  rw [encode_of_ne_nil (by simp), List.length_append, packed_append, List.length_append]
  simp only [packed_cons, packed_nil, List.length_append, List.length_cons, List.length_nil,
    EnvVar.text_length, PlainCall.var, SetCall.len]
  omega

/-- The names that are kept, and the new one, are distinct. -/
theorem nodup_setVar (size : Nat) {vs : List EnvVar} (hnd : (vs.map EnvVar.name).Nodup)
    (call : PlainCall) : ((setVar size vs call).map EnvVar.name).Nodup := by
  have hkept : ((vs.filter fun v => v.name ≠ call.name).map EnvVar.name).Nodup :=
    hnd.sublist ((List.filter_sublist).map _)
  have hnew : (((vs.filter fun v => v.name ≠ call.name) ++ [call.var]).map EnvVar.name).Nodup := by
    rw [List.map_append, List.nodup_append]
    refine ⟨hkept, by simp, ?_⟩
    intro a ha b hb
    obtain ⟨v, hv, rfl⟩ := List.mem_map.mp ha
    have hb' : b = call.name := by simpa [PlainCall.var] using hb
    have hv' : v.name ≠ call.name := by simpa using (List.mem_filter.mp hv).2
    rwa [hb']
  unfold setVar
  simp only
  split
  · exact hkept
  · split
    · exact hnew
    · exact hkept

/-- **One call refines the association list.** -/
theorem denotes_doSetenv (cfg : EnvConfig) {env : Env} {vs : List EnvVar} (h : Denotes env.data vs)
    (call : PlainCall) :
    Denotes (doSetenv cfg env call.toSetCall).2.data (setVar env.data.length vs call) := by
  obtain ⟨hnd, rest, hdata⟩ := h
  refine ⟨nodup_setVar _ hnd call, ?_⟩
  obtain ⟨rest', hdel⟩ := deleteFound_encode hnd rest call.noEq
  rw [← hdata] at hdel
  have hlen : (deleteFound env.data (findVar env.data call.name.bytes)).length =
      env.data.length := by
    cases findVar env.data call.name.bytes with
    | none => rfl
    | some f => exact deleteVar_length _ f
  have hpos : endOfEnv (deleteFound env.data (findVar env.data call.name.bytes)) =
      (packed (vs.filter fun v => v.name ≠ call.name)).length := by
    rw [hdel, endOfEnv_encode]
  obtain ⟨r, hr, _⟩ | ⟨_, hv, hgo⟩ | ⟨_, hv, hover, hgo⟩ | ⟨_, hv, hfit, hgo⟩ :=
    doSetenv_cases cfg env call.toSetCall
  · exact absurd hr (by rw [refusal_plain]; simp)
  · rw [hgo, envCrcUpdate_data, hdel, setVar, if_pos hv]
    exact ⟨rest', rfl⟩
  · have hno := encode_var_length (vs.filter fun v => v.name ≠ call.name) call hv
    rw [hgo, hdel, setVar, if_neg hv, if_neg (by omega)]
    exact ⟨rest', rfl⟩
  · have hno := encode_var_length (vs.filter fun v => v.name ≠ call.name) call hv
    obtain ⟨R, hR⟩ := encode_append_packed (vs.filter fun v => v.name ≠ call.name) rest'
    have hroom : call.len ≤ (0 :: R).length := by
      have hl := congrArg List.length (hdel.trans hR)
      rw [List.length_append] at hl
      omega
    obtain ⟨rest'', happ⟩ := @appendVar_spec (packed (vs.filter fun v => v.name ≠ call.name)) _
      call.name call.values hroom
    rw [hgo, envCrcUpdate_data, hpos, hdel, hR, happ, setVar, if_neg hv, if_pos (by omega),
      encode_of_ne_nil (by simp)]
    exact ⟨rest'', by simp [PlainCall.var, EnvVar.text, joinedWith_eq eqSign hv]⟩

/-- **Lookup reads the association list.** -/
theorem getenv_encode {cfg : EnvConfig} {data : List UInt8} {vs : List EnvVar}
    (h : Denotes data vs) (hsize : data.length ≤ cfg.envSize) (s : CStr) :
    getenv cfg data s.bytes = lookupVar vs (nameOf s.bytes) := by
  obtain ⟨hnd, rest, rfl⟩ := h
  rw [getenv, getenvLoop_eq hsize]
  change (findVar (encode vs ++ rest) s.bytes).map _ = _
  by_cases hmem : ∃ v ∈ vs, v.name.bytes = nameOf s.bytes
  · obtain ⟨v, hv, hvs⟩ := hmem
    obtain ⟨as, u, bs, rfl, hu, has, _⟩ := split_at_name hnd (List.mem_map_of_mem hv)
    have hus : u.name.bytes = nameOf s.bytes := by rw [hu, hvs]
    have has' : ∀ w ∈ as, w.name.bytes ≠ nameOf s.bytes := by
      intro w hw e
      exact has w hw (by rw [CStr.ext_iff_bytes, e, hvs])
    have hfind : (as ++ u :: bs).find? (fun w => w.name.bytes = nameOf s.bytes) = some u := by
      rw [List.find?_append, List.find?_eq_none.mpr (by simpa using has'), Option.none_or,
        List.find?_cons_of_pos (by simpa using hus)]
    rw [findVar_encode_at rest has' hus, lookupVar, hfind, Option.map_some, Option.map_some]
    have hdrop : encode (as ++ u :: bs) ++ rest =
        (packed as ++ u.name.bytes ++ [eqSign]) ++
          (u.value.bytes ++ 0 :: (packed bs ++ 0 :: rest)) := by
      rw [encode_of_ne_nil (by simp)]
      simp [EnvVar.text]
    have hold : (packed as).length + u.name.bytes.length + 1 =
        (packed as ++ u.name.bytes ++ [eqSign]).length := by simp; omega
    rw [hdrop, hold, List.drop_left, cstr_append u.value.noNul]
  · have hno : ∀ v ∈ vs, v.name.bytes ≠ nameOf s.bytes := fun v hv e => hmem ⟨v, hv, e⟩
    rw [findVar_encode rest hno, lookupVar, List.find?_eq_none.mpr (by simpa using hno)]
    rfl

/-- `setenv` of plain names, as a step of the environment. -/
def setStep (cfg : EnvConfig) (env : Env) (call : PlainCall) : Env :=
  (doSetenv cfg env call.toSetCall).2

/-- **The environment is an association list.**  After every sequence of calls the
    data are a well-formed environment that denotes the list the calls make of the
    one at the start, and `getenv` reads that list. -/
theorem setenv_run_refines (cfg : EnvConfig) (env : Env) (vs : List EnvVar)
    (h : Denotes env.data vs) (hsize : env.data.length = cfg.dataSize) (calls : List PlainCall) :
    Denotes (run (setStep cfg) env calls).data (calls.foldl (setVar cfg.dataSize) vs) ∧
    ∀ s : CStr, getenv cfg (run (setStep cfg) env calls).data s.bytes =
      lookupVar (calls.foldl (setVar cfg.dataSize) vs) (nameOf s.bytes) := by
  have hrun : Denotes (run (setStep cfg) env calls).data (calls.foldl (setVar cfg.dataSize) vs) ∧
      (run (setStep cfg) env calls).data.length = cfg.dataSize := by
    induction calls generalizing env vs with
    | nil => exact ⟨h, hsize⟩
    | cons call calls ih =>
      rw [run_cons, List.foldl_cons]
      apply ih
      · rw [← hsize]
        exact denotes_doSetenv cfg h call
      · rw [setStep, doSetenv_length, hsize]
  refine ⟨hrun.1, fun s => getenv_encode hrun.1 ?_ s⟩
  rw [hrun.2, EnvConfig.dataSize]
  exact Nat.sub_le ..

/-- A board with 32 bytes of data. -/
def smallConfig : EnvConfig := { envSize := 36, redund := false, defaultVars := [] }

/-- `setenv a x y` and `setenv b` in an environment with `a` and `b`. -/
theorem setenv_run_refines_two :
    getenv smallConfig
      (run (setStep smallConfig)
        { crc := 0, flags := 0, data := ascii "a=1" ++ 0 :: ascii "b=22" ++ List.replicate 24 0 }
        [⟨⟨CStr.lit "a" zero_notMem_a, [CStr.lit "x", CStr.lit "y"], 0, 0⟩,
            by decide +kernel, by decide +kernel⟩,
          ⟨⟨CStr.lit "b" zero_notMem_b, [], 0, 0⟩, by decide +kernel, by decide +kernel⟩]).data
      (ascii "a") = some (ascii "x y") :=
  ((setenv_run_refines smallConfig _
    [⟨CStr.lit "a" zero_notMem_a, CStr.lit "1", by decide +kernel⟩,
      ⟨CStr.lit "b" zero_notMem_b, CStr.lit "22", by decide +kernel⟩]
    ⟨by decide +kernel, List.replicate 22 0, by decide +kernel⟩ (by decide +kernel) _).2
    (CStr.lit "a" zero_notMem_a)).trans (by decide +kernel)

end Uboot.Common
