/-
  Uboot.Lib.FirstMentions

  What a list mentions, each once and in the order of the first mention, built up as the list is
  read from the front.

  Nothing here names the boot loader.
-/

import Mathlib.Data.List.Nodup

namespace Uboot.Lib

variable {α : Type*} [DecidableEq α] {ms l : List α} {a : α}

/-- `l` has what `ms` mentions, without repetition and in the order of the first mention. -/
structure FirstMentions (ms l : List α) : Prop where
  nodup : l.Nodup
  mem_iff : ∀ a, a ∈ l ↔ a ∈ ms
  ordered : l.Pairwise fun a b => ms.idxOf a < ms.idxOf b

namespace FirstMentions

theorem nil : FirstMentions ([] : List α) [] := ⟨List.nodup_nil, fun _ => Iff.rfl, List.Pairwise.nil⟩

/-- The order of what is mentioned does not change. -/
theorem ordered_append (h : FirstMentions ms l) (ns : List α) :
    l.Pairwise fun a b => (ms ++ ns).idxOf a < (ms ++ ns).idxOf b := by
  refine h.ordered.imp_of_mem fun {a b} ha hb hlt => ?_
  rwa [List.idxOf_append_of_mem ((h.mem_iff a).1 ha), List.idxOf_append_of_mem ((h.mem_iff b).1 hb)]

/-- One more mention of the same. -/
theorem again (h : FirstMentions ms l) (ha : a ∈ l) : FirstMentions (ms ++ [a]) l := by
  refine ⟨h.nodup, fun b => ?_, h.ordered_append [a]⟩
  rw [List.mem_append, List.mem_singleton, ← h.mem_iff]
  exact ⟨.inl, fun hb => hb.elim id fun hba => hba ▸ ha⟩

/-- The first mention of another. -/
theorem first (h : FirstMentions ms l) (ha : a ∉ l) : FirstMentions (ms ++ [a]) (l ++ [a]) := by
  refine ⟨?_, fun b => ?_, ?_⟩
  · rw [List.nodup_append_comm, List.singleton_append, List.nodup_cons]
    exact ⟨ha, h.nodup⟩
  · rw [List.mem_append, List.mem_append, h.mem_iff]
  · rw [List.pairwise_append]
    refine ⟨h.ordered_append [a], List.pairwise_singleton _ _, fun b hb c hc => ?_⟩
    rw [List.mem_singleton] at hc
    have hbm := (h.mem_iff b).1 hb
    have hcm : c ∉ ms := by
      rw [hc, ← h.mem_iff]
      exact ha
    rw [List.idxOf_append_of_mem hbm, List.idxOf_append_of_notMem hcm]
    have hlt := List.idxOf_lt_length_of_mem hbm
    omega

theorem eq_nil_iff (h : FirstMentions ms l) : l = [] ↔ ms = [] := by
  simp only [List.eq_nil_iff_forall_not_mem, h.mem_iff]

end FirstMentions

end Uboot.Lib
