/-
  Uboot.Lib.Run

  Runs of a deterministic transition system that reads a list of inputs, and
  the one induction every "holds in every state reached" result is made of:
  an invariant that each step preserves, provided the step meets a guard in
  the state it starts from.

  Nothing here names the boot loader.
-/

import Mathlib.Data.List.Basic

namespace Uboot.Lib

variable {σ ι ο : Type*}

/-- The state reached from `s` after the inputs `is`, in order. -/
def run (step : σ → ι → σ) (s : σ) (is : List ι) : σ := is.foldl step s

@[simp] theorem run_nil (step : σ → ι → σ) (s : σ) : run step s [] = s := rfl

@[simp] theorem run_cons (step : σ → ι → σ) (s : σ) (i : ι) (is : List ι) :
    run step s (i :: is) = run step (step s i) is := rfl

@[simp] theorem run_append (step : σ → ι → σ) (s : σ) (is js : List ι) :
    run step s (is ++ js) = run step (run step s is) js :=
  List.foldl_append ..

/-- Every input of the run meets `guard` in the state it is read in. -/
def Guarded (step : σ → ι → σ) (guard : σ → ι → Prop) : σ → List ι → Prop
  | _, [] => True
  | s, i :: is => guard s i ∧ Guarded step guard (step s i) is

@[simp] theorem guarded_nil (step : σ → ι → σ) (guard : σ → ι → Prop) (s : σ) :
    Guarded step guard s [] := trivial

@[simp] theorem guarded_cons (step : σ → ι → σ) (guard : σ → ι → Prop) (s : σ)
    (i : ι) (is : List ι) :
    Guarded step guard s (i :: is) ↔ guard s i ∧ Guarded step guard (step s i) is :=
  Iff.rfl

/-- A guarded run is a guarded prefix followed by a guarded rest. -/
theorem guarded_append {step : σ → ι → σ} {guard : σ → ι → Prop} {s : σ} {is js : List ι} :
    Guarded step guard s (is ++ js) ↔
      Guarded step guard s is ∧ Guarded step guard (run step s is) js := by
  induction is generalizing s with
  | nil => simp
  | cons i is ih => simp [ih, and_assoc]

/-- A guard on the inputs alone. -/
theorem guarded_of_forall {step : σ → ι → σ} {guard : ι → Prop} {s : σ} {is : List ι}
    (his : ∀ i ∈ is, guard i) : Guarded step (fun _ i => guard i) s is := by
  induction is generalizing s with
  | nil => trivial
  | cons i is ih =>
    obtain ⟨hi, his⟩ := List.forall_mem_cons.mp his
    exact ⟨hi, ih his⟩

instance decidableGuarded (step : σ → ι → σ) (guard : σ → ι → Prop)
    [∀ s i, Decidable (guard s i)] : ∀ s is, Decidable (Guarded step guard s is)
  | _, [] => inferInstanceAs (Decidable True)
  | s, i :: is =>
    have := decidableGuarded step guard (step s i) is
    inferInstanceAs (Decidable (guard s i ∧ Guarded step guard (step s i) is))

/-- **Run rule.** What each guarded step preserves holds after a guarded run. -/
theorem run_invariant {step : σ → ι → σ} {guard : σ → ι → Prop} {inv : σ → Prop}
    (hstep : ∀ s i, inv s → guard s i → inv (step s i)) {s : σ} {is : List ι}
    (hs : inv s) (hg : Guarded step guard s is) : inv (run step s is) := by
  induction is generalizing s with
  | nil => exact hs
  | cons i is ih => exact ih (hstep s i hs hg.1) hg.2

/-- Run rule for what every step preserves. -/
theorem run_invariant_all {step : σ → ι → σ} {inv : σ → Prop} (hstep : ∀ s i, inv s → inv (step s i))
    {s : σ} (hs : inv s) (is : List ι) : inv (run step s is) := by
  induction is generalizing s with
  | nil => exact hs
  | cons i is ih => exact ih (hstep s i hs)

/-- Run rule for a relation between the state and the inputs read so far. -/
theorem run_invariant_hist {step : σ → ι → σ} {guard : σ → ι → Prop}
    {inv : List ι → σ → Prop}
    (hstep : ∀ past s i, inv past s → guard s i → inv (past ++ [i]) (step s i))
    {s : σ} {past is : List ι} (hs : inv past s) (hg : Guarded step guard s is) :
    inv (past ++ is) (run step s is) := by
  induction is generalizing s past with
  | nil => simpa using hs
  | cons i is ih =>
    have h := ih (hstep past s i hs hg.1) hg.2
    simpa using h

/-- Exact run rule.  Where a step from a good state is good just when it meets the guard,
    the states of a run are all good just when the first is and the run is guarded. -/
theorem forall_take_iff_guarded {step : σ → ι → σ} {guard : σ → ι → Prop} {inv good : σ → Prop}
    (hinv : ∀ s i, inv s → good s → inv (step s i))
    (hgood : ∀ s i, inv s → good s → (good (step s i) ↔ guard s i)) {s : σ} (is : List ι)
    (hs : inv s) :
    (∀ k, good (run step s (is.take k))) ↔ good s ∧ Guarded step guard s is := by
  induction is generalizing s with
  | nil => simp
  | cons i is ih =>
    have hsplit : (∀ k, good (run step s ((i :: is).take k))) ↔
        good s ∧ ∀ k, good (run step (step s i) (is.take k)) :=
      ⟨fun h => ⟨h 0, fun k => h (k + 1)⟩, fun h k => by cases k <;> simp [h.1, h.2]⟩
    rw [hsplit]
    refine and_congr_right fun hg => ?_
    rw [ih (hinv s i hs hg), hgood s i hs hg, guarded_cons]

/-! ## Answers -/

/-- What a system that answers each input says over a run. -/
def answers (step : σ → ι → σ × ο) (s : σ) : List ι → List ο
  | [] => []
  | i :: is => (step s i).2 :: answers step (step s i).1 is

/-- The state such a system is in after a run. -/
def after (step : σ → ι → σ × ο) (s : σ) (is : List ι) : σ := run (fun s i => (step s i).1) s is

@[simp] theorem after_nil (step : σ → ι → σ × ο) (s : σ) : after step s [] = s := rfl

@[simp] theorem after_cons (step : σ → ι → σ × ο) (s : σ) (i : ι) (is : List ι) :
    after step s (i :: is) = after step (step s i).1 is := rfl

/-- **Answer rule.** When an invariant is kept by every guarded step and makes its answer right, all
    answers of a guarded run are right. -/
theorem answers_forall₂ {step : σ → ι → σ × ο} {guard : σ → ι → Prop} {inv : σ → Prop}
    {right : ι → ο → Prop} (hinv : ∀ s i, inv s → guard s i → inv (step s i).1)
    (hright : ∀ s i, inv s → guard s i → right i (step s i).2) {s : σ} {is : List ι} (hs : inv s)
    (hg : Guarded (fun s i => (step s i).1) guard s is) : List.Forall₂ right is (answers step s is) := by
  induction is generalizing s with
  | nil => exact .nil
  | cons i is ih => exact .cons (hright s i hs hg.1) (ih (hinv s i hs hg.1) hg.2)

/-- Exact answer rule.  Where every admitted input keeps the invariant and is answered right just
    when it meets `guard`, all answers are right just when all inputs meet it. -/
theorem answers_forall₂_iff {step : σ → ι → σ × ο} {admitted guard : ι → Prop} {inv : σ → Prop}
    {right : ι → ο → Prop} (hinv : ∀ s i, inv s → admitted i → inv (step s i).1)
    (hright : ∀ s i, inv s → admitted i → (right i (step s i).2 ↔ guard i)) {s : σ} {is : List ι}
    (hs : inv s) (his : ∀ i ∈ is, admitted i) :
    List.Forall₂ right is (answers step s is) ↔ ∀ i ∈ is, guard i := by
  induction is generalizing s with
  | nil => simp [answers]
  | cons i is ih =>
    obtain ⟨hi, his⟩ := List.forall_mem_cons.mp his
    rw [answers, List.forall₂_cons, List.forall_mem_cons, hright s i hs hi, ih (hinv s i hs hi) his]

/-- Exact answer rule with a guard on the state: where an answer is right just when its input meets
    the guard, all answers of a run are right just when the run is guarded. -/
theorem answers_forall₂_iff_guarded {step : σ → ι → σ × ο} {guard : σ → ι → Prop} {right : ι → ο → Prop}
    (hright : ∀ s i, right i (step s i).2 ↔ guard s i) (s : σ) (is : List ι) :
    List.Forall₂ right is (answers step s is) ↔ Guarded (fun s i => (step s i).1) guard s is := by
  induction is generalizing s with
  | nil => simp [answers]
  | cons i is ih => rw [answers, List.forall₂_cons, guarded_cons, hright, ih]

/-- **Simulation rule.** Systems that answer alike wherever they are related, and stay
    related, answer alike over every run of admitted inputs. -/
theorem answers_eq {τ : Type*} {step : σ → ι → σ × ο} {step' : τ → ι → τ × ο} {rel : σ → τ → Prop}
    {admitted : ι → Prop}
    (hstep : ∀ s t i, rel s t → admitted i →
      (step s i).2 = (step' t i).2 ∧ rel (step s i).1 (step' t i).1)
    {s : σ} {t : τ} {is : List ι} (h : rel s t) (his : ∀ i ∈ is, admitted i) :
    answers step s is = answers step' t is ∧ rel (after step s is) (after step' t is) := by
  induction is generalizing s t with
  | nil => exact ⟨rfl, h⟩
  | cons i is ih =>
    obtain ⟨hi, his⟩ := List.forall_mem_cons.mp his
    obtain ⟨hout, hrel⟩ := hstep s t i h hi
    obtain ⟨houts, hafter⟩ := ih hrel his
    exact ⟨by rw [answers, answers, hout, houts], hafter⟩

end Uboot.Lib
