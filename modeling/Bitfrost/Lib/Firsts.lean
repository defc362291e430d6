import Mathlib

/-!
The first element of every key of a list: what a receiver keeps that drops
later copies. It grows at its end, by the elements whose key is new.
-/

namespace Bitfrost.Lib

variable {α κ : Type*} [DecidableEq κ] (key : α → κ)

/-- The elements of the list whose key no earlier element has. -/
def firsts : List α → List α
  | [] => []
  | a :: rest => a :: (firsts rest).filter (key · ≠ key a)

theorem firsts_concat (l : List α) (a : α) :
    firsts key (l ++ [a]) =
      firsts key l ++ if ∀ b ∈ l, key b ≠ key a then [a] else [] := by
  induction l with
  | nil => simp [firsts]
  | cons b l ih =>
    rw [List.cons_append, firsts, ih, firsts, List.filter_append, List.cons_append]
    congr 2
    by_cases hb : key b = key a
    · have hold : ¬ ∀ c ∈ b :: l, key c ≠ key a := fun h => h b List.mem_cons_self hb
      rw [if_neg hold]
      refine List.filter_eq_nil_iff.mpr fun c hc => ?_
      split at hc
      · rw [List.mem_singleton.mp hc, hb]
        simp
      · cases hc
    · have hiff : (∀ c ∈ b :: l, key c ≠ key a) ↔ ∀ c ∈ l, key c ≠ key a := by
        rw [List.forall_mem_cons]
        exact and_iff_right hb
      simp only [hiff]
      split
      · rw [List.filter_cons_of_pos (by simpa using Ne.symm hb), List.filter_nil]
      · rfl

/-- What comes later takes nothing away. -/
theorem firsts_sublist_append (l later : List α) :
    (firsts key l).Sublist (firsts key (l ++ later)) := by
  induction later using List.reverseRecOn with
  | nil => rw [List.append_nil]
  | append_singleton later a ih =>
    rw [← List.append_assoc, firsts_concat]
    exact ih.trans (List.sublist_append_left _ _)

end Bitfrost.Lib
