/-
  Uboot.Lib.Links

  Doubly linked lists in tables: `next` and `prev` map a node to its neighbours, and
  `Links next prev p xs n` says that the nodes `xs` are linked both ways, with `p`
  before the first and `n` behind the last.  The edits a program makes of such a list
  (taking a node out, putting another in its place, putting one in behind it) are
  local: two segments keep their links, and the seam is written anew.

  Nothing here names the boot loader.
-/

import Mathlib.Data.List.Nodup
import Mathlib.Logic.Function.Basic

namespace Uboot.Lib

/-- The nodes `xs` are linked in this order. -/
def Links (next prev : Nat → Nat) : Nat → List Nat → Nat → Prop
  | _, [], _ => True
  | p, x :: xs, n => prev x = p ∧ next x = xs.headD n ∧ Links next prev x xs n

variable {next prev next' prev' : Nat → Nat} {p n v x y : Nat} {xs ys : List Nat}

@[simp] theorem links_nil : Links next prev p [] n := trivial

@[simp] theorem links_cons :
    Links next prev p (x :: xs) n ↔ prev x = p ∧ next x = xs.headD n ∧ Links next prev x xs n :=
  Iff.rfl

/-- Links of a concatenation: both halves and the seam. -/
theorem links_append :
    Links next prev p (xs ++ ys) n ↔
      Links next prev p xs (ys.headD n) ∧ Links next prev (xs.getLastD p) ys n := by
  induction xs generalizing p with
  | nil => simp
  | cons x xs ih =>
    have hhead : (xs ++ ys).headD n = xs.headD (ys.headD n) := by cases xs <;> rfl
    have hlast : (x :: xs).getLastD p = xs.getLastD x := by cases xs <;> rfl
    rw [List.cons_append, links_cons, links_cons, ih, hhead, hlast]
    grind

/-- A segment keeps its links where the tables agree on its nodes. -/
theorem Links.congr (h : Links next prev p xs n) (hn : ∀ a ∈ xs, next' a = next a)
    (hp : ∀ a ∈ xs, prev' a = prev a) : Links next' prev' p xs n := by
  induction xs generalizing p with
  | nil => trivial
  | cons x xs ih =>
    obtain ⟨h1, h2, h3⟩ := h
    refine ⟨?_, ?_, ih h3 (fun a ha => hn a (List.mem_cons_of_mem _ ha))
      (fun a ha => hp a (List.mem_cons_of_mem _ ha))⟩
    · rw [hp x (List.mem_cons_self ..), h1]
    · rw [hn x (List.mem_cons_self ..), h2]

/-- The last of `xs` gets the successor `v`. -/
def relinkNext (next : Nat → Nat) (xs : List Nat) (v : Nat) : Nat → Nat :=
  match xs.getLast? with
  | none => next
  | some z => Function.update next z v

/-- The first of `ys` gets the predecessor `v`. -/
def relinkPrev (prev : Nat → Nat) (ys : List Nat) (v : Nat) : Nat → Nat :=
  match ys.head? with
  | none => prev
  | some z => Function.update prev z v

@[simp] theorem relinkNext_nil : relinkNext next [] v = next := rfl

@[simp] theorem relinkNext_concat {z : Nat} :
    relinkNext next (xs ++ [z]) v = Function.update next z v := by simp [relinkNext]

@[simp] theorem relinkPrev_nil : relinkPrev prev [] v = prev := rfl

@[simp] theorem relinkPrev_cons {z : Nat} :
    relinkPrev prev (z :: ys) v = Function.update prev z v := rfl

theorem relinkNext_other {a : Nat} (h : a ∉ xs) : relinkNext next xs v a = next a := by
  rcases List.eq_nil_or_concat' xs with rfl | ⟨zs, z, rfl⟩
  · rfl
  · rw [relinkNext_concat, Function.update_of_ne]
    rintro rfl
    exact h (by simp)

theorem relinkPrev_other {a : Nat} (h : a ∉ ys) : relinkPrev prev ys v a = prev a := by
  cases ys with
  | nil => rfl
  | cons z zs =>
    rw [relinkPrev_cons, Function.update_of_ne]
    rintro rfl
    exact h (List.mem_cons_self ..)

/-- A segment with a new successor. -/
theorem Links.relinkNext (h : Links next prev p xs n) (hnd : xs.Nodup) :
    Links (relinkNext next xs v) prev p xs v := by
  rcases List.eq_nil_or_concat' xs with rfl | ⟨zs, z, rfl⟩
  · trivial
  · have hz : z ∉ zs := by
      have := List.nodup_append.mp hnd
      intro hz
      exact this.2.2 z hz z (by simp) rfl
    rw [relinkNext_concat]
    rw [links_append] at h ⊢
    refine ⟨h.1.congr (fun a ha => ?_) (fun _ _ => rfl), h.2.1, ?_, trivial⟩
    · rw [Function.update_of_ne]
      rintro rfl
      exact hz ha
    · rw [Function.update_self]
      rfl

/-- A segment with a new predecessor. -/
theorem Links.relinkPrev (h : Links next prev p ys n) (hnd : ys.Nodup) :
    Links next (relinkPrev prev ys v) v ys n := by
  cases ys with
  | nil => trivial
  | cons z zs =>
    rw [relinkPrev_cons]
    refine ⟨Function.update_self .., h.2.1, h.2.2.congr (fun _ _ => rfl) fun a ha => ?_⟩
    rw [Function.update_of_ne]
    rintro rfl
    exact (List.nodup_cons.mp hnd).1 ha

/-- **Taking a node out.** -/
theorem Links.unlink (h : Links next prev p (xs ++ x :: ys) n) (hnd : (xs ++ x :: ys).Nodup) :
    Links (Lib.relinkNext next xs (ys.headD n)) (Lib.relinkPrev prev ys (xs.getLastD p)) p
      (xs ++ ys) n := by
  rw [links_append] at h ⊢
  obtain ⟨hxs, _, _, hys⟩ := h
  obtain ⟨hnx, hnxy, hdis⟩ := List.nodup_append.mp hnd
  obtain ⟨_, hny⟩ := List.nodup_cons.mp hnxy
  constructor
  · refine (hxs.relinkNext hnx).congr (fun _ _ => rfl) fun a ha => relinkPrev_other ?_
    exact fun hay => hdis a ha a (List.mem_cons_of_mem _ hay) rfl
  · refine (hys.relinkPrev hny).congr (fun a ha => relinkNext_other ?_) fun _ _ => rfl
    exact fun hax => hdis a hax a (List.mem_cons_of_mem _ ha) rfl

/-- **Putting `y` in the place of `x`.** -/
theorem Links.replace (h : Links next prev p (xs ++ x :: ys) n) (hnd : (xs ++ x :: ys).Nodup)
    (hyx : y ∉ xs) (hyy : y ∉ ys) :
    Links (Lib.relinkNext (Function.update next y (next x)) xs y)
      (Lib.relinkPrev (Function.update prev y (prev x)) ys y) p (xs ++ y :: ys) n := by
  rw [links_append] at h ⊢
  obtain ⟨hxs, hpx, hnx, hys⟩ := h
  obtain ⟨hndx, hnxy, hdis⟩ := List.nodup_append.mp hnd
  obtain ⟨_, hny⟩ := List.nodup_cons.mp hnxy
  have hother : ∀ a ∈ xs ++ ys, a ≠ y := by
    rintro a ha rfl
    rcases List.mem_append.mp ha with ha | ha
    · exact hyx ha
    · exact hyy ha
  refine ⟨?_, ?_, ?_, ?_⟩
  · have hxs' : Links (Function.update next y (next x)) (Function.update prev y (prev x)) p xs x :=
      hxs.congr (fun a ha => Function.update_of_ne (hother a (by simp [ha])) ..)
        (fun a ha => Function.update_of_ne (hother a (by simp [ha])) ..)
    refine (hxs'.relinkNext hndx).congr (fun _ _ => rfl) fun a ha => relinkPrev_other ?_
    exact fun hay => hdis a ha a (List.mem_cons_of_mem _ hay) rfl
  · rw [relinkPrev_other hyy, Function.update_self, hpx]
  · rw [relinkNext_other hyx, Function.update_self, hnx]
  · have hys' : Links (Function.update next y (next x)) (Function.update prev y (prev x)) x ys n :=
      hys.congr (fun a ha => Function.update_of_ne (hother a (by simp [ha])) ..)
        (fun a ha => Function.update_of_ne (hother a (by simp [ha])) ..)
    refine (hys'.relinkPrev hny).congr (fun a ha => relinkNext_other ?_) fun _ _ => rfl
    exact fun hax => hdis a hax a (List.mem_cons_of_mem _ ha) rfl

/-- **Putting `y` in behind `x`.** -/
theorem Links.insert (h : Links next prev p (xs ++ x :: ys) n) (hnd : (xs ++ x :: ys).Nodup)
    (hyx : y ∉ xs) (hyy : y ∉ ys) (hne : y ≠ x) :
    Links (Function.update (Function.update next y (next x)) x y)
      (Lib.relinkPrev (Function.update prev y x) ys y) p (xs ++ x :: y :: ys) n := by
  rw [links_append] at h ⊢
  obtain ⟨hxs, hpx, hnx, hys⟩ := h
  obtain ⟨_, hnxy, hdis⟩ := List.nodup_append.mp hnd
  obtain ⟨hx, hny⟩ := List.nodup_cons.mp hnxy
  have hxxs : x ∉ xs := fun hx => hdis x hx x (List.mem_cons_self ..) rfl
  have hkeep : ∀ a ∈ xs ++ ys, a ≠ y ∧ a ≠ x := by
    intro a ha
    constructor <;> rintro rfl <;> rcases List.mem_append.mp ha with ha | ha
    · exact hyx ha
    · exact hyy ha
    · exact hxxs ha
    · exact hx ha
  have hnext : ∀ a ∈ xs ++ ys,
      Function.update (Function.update next y (next x)) x y a = next a := by
    intro a ha
    rw [Function.update_of_ne (hkeep a ha).2, Function.update_of_ne (hkeep a ha).1]
  refine ⟨?_, ?_, ?_, ?_, ?_, ?_⟩
  · refine hxs.congr (fun a ha => hnext a (by simp [ha])) fun a ha => ?_
    rw [relinkPrev_other fun hay => hdis a ha a (List.mem_cons_of_mem _ hay) rfl,
      Function.update_of_ne (hkeep a (by simp [ha])).1]
  · rw [relinkPrev_other hx, Function.update_of_ne hne.symm, hpx]
  · rw [Function.update_self]
    rfl
  · rw [relinkPrev_other hyy, Function.update_self]
  · rw [Function.update_of_ne hne, Function.update_self, hnx]
  · have hys' : Links next (Function.update prev y x) x ys n :=
      hys.congr (fun _ _ => rfl) fun a ha => Function.update_of_ne (hkeep a (by simp [ha])).1 ..
    exact (hys'.relinkPrev hny).congr (fun a ha => hnext a (by simp [ha])) fun _ _ => rfl

end Uboot.Lib
