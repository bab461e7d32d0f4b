/-
  Uboot.Lib.Returns

  Walks that follow links from place to place, along every link of a place or along one.
  A walk with a bound on its depth ends inside some bound just when no endless chain of links
  starts where it does; among finitely many places that is so just when no place links back
  to itself, be it through others.

  Nothing here names the boot loader.
-/

import Mathlib.Data.Fintype.Card
import Mathlib.Data.Set.Finite.Basic
import Mathlib.Data.Set.Finite.Lattice
import Mathlib.Logic.Relation
import Mathlib.Order.RelClasses

namespace Uboot.Lib

open Relation

variable {α : Type*} {link : α → α → Prop} {a b : α}

/-- No chain of links from `a` is longer than the depth. -/
def Within (link : α → α → Prop) : Nat → α → Prop
  | 0, _ => False
  | depth + 1, a => ∀ b, link a b → Within link depth b

theorem Within.succ {depth : Nat} (h : Within link depth a) : Within link (depth + 1) a := by
  induction depth generalizing a with
  | zero => exact h.elim
  | succ depth ih => exact fun b hb => ih (h b hb)

theorem Within.mono {depth depth' : Nat} (hle : depth ≤ depth') (h : Within link depth a) :
    Within link depth' a := by
  induction hle with
  | refl => exact h
  | step _ ih => exact ih.succ

/-- Where a place has finitely many links, some depth is enough just when every chain of links
    comes to an end. -/
theorem exists_within_iff_acc (hfin : ∀ a, {b | link a b}.Finite) :
    (∃ depth, Within link depth a) ↔ Acc (fun b a => link a b) a := by
  constructor
  · rintro ⟨depth, h⟩
    induction depth generalizing a with
    | zero => exact h.elim
    | succ depth ih => exact ⟨a, fun b hb => ih (h b hb)⟩
  · intro h
    induction h with
    | intro a _ ih =>
      choose depth hdepth using ih
      -- the deepest of the finitely many walks from here
      obtain ⟨bound, hbound⟩ :=
        ((hfin a).dependent_image fun b hb => depth b hb).bddAbove
      refine ⟨bound + 1, fun b hb => (hdepth b hb).mono (hbound ?_)⟩
      exact ⟨b, hb, rfl⟩

/-- No place reached from `a` is reached from itself again. -/
def NoReturn (link : α → α → Prop) (a : α) : Prop :=
  ∀ b, ReflTransGen link a b → ¬ TransGen link b b

theorem not_link_self_of_acc {r : α → α → Prop} (h : Acc r a) : ¬ r a a := by
  induction h with
  | intro a _ ih => exact fun haa => ih a haa haa

theorem acc_of_reaches (h : Acc (fun b a => link a b) a) (hab : ReflTransGen link a b) :
    Acc (fun b a => link a b) b := by
  induction hab with
  | refl => exact h
  | tail _ hlink ih => exact ih.inv hlink

/-- **Pigeonhole.** Among finitely many places the chains of links all end just when none
    returns. -/
theorem acc_iff_noReturn (hfin : {b | ReflTransGen link a b}.Finite) :
    Acc (fun b a => link a b) a ↔ NoReturn link a := by
  constructor
  · intro h b hab hbb
    have hb := acc_transGen_iff.mpr (acc_of_reaches h hab)
    exact not_link_self_of_acc hb (transGen_swap.mpr hbb)
  · intro h
    have : Finite {b // ReflTransGen link a b} := hfin
    let further (c b : {b // ReflTransGen link a b}) : Prop := TransGen link b.1 c.1
    have : IsTrans _ further := ⟨fun _ _ _ hcb hba => hba.trans hcb⟩
    have : Std.Irrefl further := ⟨fun b => h b.1 b.2⟩
    have hwf := Finite.wellFounded_of_trans_of_irrefl further
    have hall : ∀ b : {b // ReflTransGen link a b}, Acc (fun b a => link a b) b.1 := by
      intro b
      induction b using hwf.induction with
      | _ b ih => exact ⟨b.1, fun c hc => ih ⟨c, b.2.tail hc⟩ (.single hc)⟩
    exact hall ⟨a, .refl⟩

end Uboot.Lib
