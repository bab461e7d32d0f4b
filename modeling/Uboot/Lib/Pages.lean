/-
  Uboot.Lib.Pages

  A list cut into pages of one size, the last one filled up, and pages stored at places of a
  memory.  Pages that do not overlap are read back as they were stored.  Where lists of every
  content come back, they are read from the places they were stored at.

  Nothing here names the boot loader.
-/

import Mathlib.Data.List.Flatten
import Uboot.Lib.Mem

namespace Uboot.Lib

variable {α : Type*}

/-! ## Cutting -/

/-- The first `k` pages of `n` elements, filled up with `pad`. -/
def pages (n : Nat) (pad : α) : Nat → List α → List (List α)
  | 0, _ => []
  | k + 1, bs => (bs.take n).rightpad n pad :: pages n pad k (bs.drop n)

variable {n k : Nat} {pad : α} {bs : List α}

@[simp] theorem pages_length : (pages n pad k bs).length = k := by
  induction k generalizing bs with
  | zero => rfl
  | succ k ih => rw [pages, List.length_cons, ih]

theorem length_of_mem_pages {page : List α} (h : page ∈ pages n pad k bs) : page.length = n := by
  induction k generalizing bs with
  | zero => cases h
  | succ k ih =>
    obtain rfl | htail := List.mem_cons.mp h
    · simp only [List.rightpad, List.length_append, List.length_replicate, List.length_take]
      omega
    · exact ih htail

/-- Element `a` of page `j`. -/
theorem getElem?_pages {j a : Nat} {page : List α} (hpage : (pages n pad k bs)[j]? = some page)
    (ha : a < n) : page[a]? = some (bs.getD (j * n + a) pad) := by
  induction k generalizing bs j with
  | zero => cases hpage
  | succ k ih =>
    cases j with
    | zero =>
      obtain rfl : (bs.take n).rightpad n pad = page := by simpa only [pages, List.getElem?_cons_zero,
        Option.some.injEq] using hpage
      rw [Nat.zero_mul, Nat.zero_add, List.rightpad, List.getD_eq_getElem?_getD]
      by_cases hin : a < bs.length
      · rw [List.getElem?_append_left (by rw [List.length_take]; omega), List.getElem?_take_of_lt ha,
          List.getElem?_eq_getElem hin, Option.getD_some]
      · rw [List.getElem?_append_right (by rw [List.length_take]; omega),
          List.getElem?_replicate_of_lt (by rw [List.length_take]; omega),
          List.getElem?_eq_none (by omega), Option.getD_none]
    | succ j =>
      rw [pages, List.getElem?_cons_succ] at hpage
      have hdrop := ih hpage
      rw [List.getD_eq_getElem?_getD, List.getElem?_drop] at hdrop
      rw [hdrop, List.getD_eq_getElem?_getD, show n + (j * n + a) = (j + 1) * n + a by
        rw [Nat.succ_mul]; omega]

/-- The pages of a list, one behind another, begin with the list. -/
theorem take_flatten_pages (h : bs.length ≤ k * n) : (pages n pad k bs).flatten.take bs.length = bs := by
  induction k generalizing bs with
  | zero => rw [List.eq_nil_of_length_eq_zero (by omega : bs.length = 0)]; rfl
  | succ k ih =>
    rw [Nat.succ_mul] at h
    have hrest : (pages n pad k (bs.drop n)).flatten.take (bs.drop n).length = bs.drop n :=
      ih (by rw [List.length_drop]; omega)
    rw [pages, List.flatten_cons, List.rightpad, List.append_assoc]
    by_cases hlast : bs.length ≤ n
    · rw [List.take_of_length_le hlast, List.take_left]
    · have hfull : (bs.take n).length = n := by
        rw [List.length_take]
        omega
      rw [hfull, Nat.sub_self, List.replicate_zero, List.nil_append,
        show bs.length = (bs.take n).length + (bs.drop n).length by
          rw [← List.length_append, List.take_append_drop], List.take_length_add_append, hrest,
        List.take_append_drop]

/-! ## Storing -/

/-- The memory after stores of lists at places, in order. -/
def scatter (m : Mem α) (stores : List (Nat × List α)) : Mem α :=
  stores.foldl (fun m store => m.write store.1 store.2) m

/-- The `n` cells at each place. -/
def gather (m : Mem α) (n : Nat) (places : List Nat) : List α := places.flatMap fun a => m.read a n

variable {m : Mem α} {stores : List (Nat × List α)} {x : Nat}

theorem scatter_cons (store : Nat × List α) :
    scatter m (store :: stores) = scatter (m.write store.1 store.2) stores := rfl

theorem scatter_outside (h : ∀ store ∈ stores, x < store.1 ∨ store.1 + store.2.length ≤ x) :
    scatter m stores x = m x := by
  induction stores generalizing m with
  | nil => rfl
  | cons store stores ih =>
    obtain ⟨hstore, hstores⟩ := List.forall_mem_cons.mp h
    rw [scatter_cons, ih hstores, m.write_outside hstore]

/-- A value that is neither there before nor stored at `x` is not there afterwards. -/
theorem scatter_ne {z : α} (hm : m x ≠ z)
    (h : ∀ store ∈ stores, ∀ a, store.2[a]? = some z → store.1 + a ≠ x) : scatter m stores x ≠ z := by
  induction stores generalizing m with
  | nil => exact hm
  | cons store stores ih =>
    obtain ⟨hstore, hstores⟩ := List.forall_mem_cons.mp h
    rw [scatter_cons]
    refine ih ?_ hstores
    by_cases hin : store.1 ≤ x ∧ x < store.1 + store.2.length
    · obtain ⟨a, rfl⟩ := Nat.exists_eq_add_of_le hin.1
      have ha : a < store.2.length := by omega
      rw [m.write_inside ha]
      intro hz
      exact hstore a (by rw [List.getElem?_eq_getElem ha, hz]) rfl
    · rwa [m.write_outside (by omega)]

theorem gather_cons (a : Nat) (places : List Nat) :
    gather m n (a :: places) = m.read a n ++ gather m n places := rfl

@[simp] theorem gather_length (places : List Nat) : (gather m n places).length = places.length * n := by
  induction places with
  | nil => rw [List.length_nil, Nat.zero_mul]; rfl
  | cons a places ih => rw [gather_cons, List.length_append, ih, Mem.read_length, List.length_cons,
      Nat.succ_mul, Nat.add_comm]

/-- The first cell of place `i`. -/
theorem getElem?_gather {places : List Nat} {i a : Nat} (hn : 0 < n) (h : places[i]? = some a) :
    (gather m n places)[i * n]? = some (m a) := by
  induction places generalizing i with
  | nil => cases h
  | cons b places ih =>
    rw [gather_cons]
    cases i with
    | zero =>
      obtain rfl := Option.some.inj h
      rw [Nat.zero_mul, List.getElem?_append_left (by rwa [Mem.read_length]),
        List.getElem?_eq_getElem (by rwa [Mem.read_length]), Mem.getElem_read, Nat.add_zero]
    | succ i =>
      rw [List.getElem?_append_right (by rw [Mem.read_length, Nat.succ_mul]; omega), Mem.read_length,
        Nat.succ_mul, Nat.add_sub_cancel]
      exact ih h

/-- Pages that do not overlap come back. -/
theorem gather_scatter {places : List Nat} {ps : List (List α)}
    (happart : places.Pairwise fun a b => a + n ≤ b) (hlen : places.length = ps.length)
    (hps : ∀ p ∈ ps, p.length = n) : gather (scatter m (places.zip ps)) n places = ps.flatten := by
  induction places generalizing m ps with
  | nil =>
    rw [List.eq_nil_of_length_eq_zero hlen.symm]
    rfl
  | cons a places ih =>
    obtain ⟨p, ps, rfl⟩ := List.exists_cons_of_length_eq_add_one hlen.symm
    obtain ⟨hp, hps⟩ := List.forall_mem_cons.mp hps
    obtain ⟨hfirst, happart⟩ := List.pairwise_cons.mp happart
    have hread : (scatter (m.write a p) (places.zip ps)).read a n = p := by
      rw [← hp]
      refine Eq.trans (Mem.read_congr fun x _ hx => ?_) (m.read_write (a := a))
      -- the other places lie behind this one
      refine scatter_outside fun store hstore => ?_
      have hplace := hfirst store.1 (List.of_mem_zip hstore).1
      omega
    rw [List.zip_cons_cons, scatter_cons, gather_cons, hread,
      ih happart (Nat.succ.inj hlen) hps, List.flatten_cons]

/-- Where the pages of every list come back from some places, they were stored there. -/
theorem places_eq_of_gather {places from_ : List Nat} {z o : α} {len : Nat} (hn : 0 < n) (ho : o ≠ z)
    (hpad : pad ≠ z) (hlen : ∀ i < k, i * n < len) (hplaces : places.length = k)
    (hfrom : from_.length = k)
    (h : ∀ bs : List α, bs.length = len →
      (gather (scatter (fun _ => o) (places.zip (pages n pad k bs))) n from_).take len = bs) :
    from_ = places := by
  refine List.ext_getElem (hfrom.trans hplaces.symm) fun i hi hi' => ?_
  -- a list that differs from `o` at the start of page `i` only
  let bs := (List.replicate len o).set (i * n) z
  have hstart : i * n < len := hlen i (by omega)
  have hbs : bs.length = len := by rw [List.length_set, List.length_replicate]
  have hback : (gather (scatter (fun _ => o) (places.zip (pages n pad k bs))) n from_)[i * n]? = some z := by
    rw [← List.getElem?_take_of_lt hstart, h bs hbs]
    exact List.getElem?_set_self (by rwa [List.length_replicate])
  rw [getElem?_gather hn (List.getElem?_eq_getElem hi)] at hback
  by_contra hne
  refine scatter_ne (x := from_[i]) ho ?_ (Option.some.inj hback)
  intro store hstore a ha
  obtain ⟨j, hj⟩ := List.mem_iff_getElem?.mp hstore
  obtain ⟨hplace, hpage⟩ := List.getElem?_zip_eq_some.mp hj
  have halt : a < n := by
    rw [← length_of_mem_pages (List.mem_of_getElem? hpage)]
    exact (List.getElem?_eq_some_iff.mp ha).1
  rw [getElem?_pages hpage halt, Option.some.injEq, List.getD_eq_getElem?_getD] at ha
  -- the only `z` is the first element of page `i`
  have hij : i * n = j * n + a := by
    by_contra hother
    rw [List.getElem?_set_ne hother, List.getElem?_replicate] at ha
    split at ha
    · exact ho ha
    · exact hpad ha
  obtain rfl : i = j := by
    rcases Nat.lt_trichotomy i j with hlt | heq | hgt
    · have := Nat.mul_le_mul_right n (Nat.succ_le_of_lt hlt)
      rw [Nat.succ_mul] at this
      omega
    · exact heq
    · have := Nat.mul_le_mul_right n (Nat.succ_le_of_lt hgt)
      rw [Nat.succ_mul] at this
      omega
  obtain rfl : a = 0 := by omega
  rw [List.getElem?_eq_getElem hi', Option.some.injEq] at hplace
  rw [← hplace, Nat.add_zero]
  exact fun heq => hne heq.symm

end Uboot.Lib
