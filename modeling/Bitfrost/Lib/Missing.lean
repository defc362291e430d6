import Mathlib

/-!
The numbers an increasing sequence jumps over. Sequences are lists with the
latest number first; what is missing grows by the length of the last jump.
-/

namespace Bitfrost.Lib

/-- The numbers strictly between the first and the last of `seqs` that `seqs` does not have. -/
def missing (seqs : List Nat) : Finset Nat :=
  match seqs.getLast?, seqs.head? with
  | some first, some last => (Finset.Ioo first last).filter (· ∉ seqs)
  | _, _ => ∅

@[simp] theorem missing_nil : missing [] = ∅ := rfl

@[simp] theorem missing_singleton (a : Nat) : missing [a] = ∅ := by simp [missing]

theorem mem_missing_cons {a n : Nat} {l : List Nat} (hl : l ≠ []) :
    n ∈ missing (a :: l) ↔ l.getLast hl < n ∧ n < a ∧ n ≠ a ∧ n ∉ l := by
  have hlast : (a :: l).getLast? = some (l.getLast hl) := by
    rw [List.getLast?_cons, List.getLast?_eq_some_getLast hl]
    rfl
  simp only [missing, hlast, List.head?_cons, Finset.mem_filter, Finset.mem_Ioo, List.mem_cons,
    not_or, and_assoc]

theorem getLast_le_of_descending {l : List Nat} (h : l.Pairwise (· > ·)) (hl : l ≠ [])
    {b : Nat} (hb : b ∈ l) : l.getLast hl ≤ b := by
  induction l with
  | nil => exact absurd rfl hl
  | cons a l ih =>
    obtain ⟨hhead, htail⟩ := List.pairwise_cons.mp h
    by_cases hnil : l = []
    · subst hnil
      simp_all
    · rw [List.getLast_cons hnil]
      rcases List.mem_cons.mp hb with rfl | hmem
      · exact (hhead _ (List.getLast_mem hnil)).le
      · exact ih htail hnil hmem

/-- A later number adds exactly the numbers it jumps over. -/
theorem missing_cons {a b : Nat} {l : List Nat} (h : (a :: b :: l).Pairwise (· > ·)) :
    missing (a :: b :: l) = missing (b :: l) ∪ Finset.Ioo b a := by
  obtain ⟨hab, htail⟩ := List.pairwise_cons.mp h
  have hlt : b < a := hab b List.mem_cons_self
  have hfirst := getLast_le_of_descending htail (List.cons_ne_nil b l) List.mem_cons_self
  have hbelow : ∀ n ∈ l, n < b := fun n hn => List.rel_of_pairwise_cons htail hn
  ext n
  rw [Finset.mem_union, Finset.mem_Ioo, mem_missing_cons (List.cons_ne_nil b l), List.mem_cons,
    not_or]
  by_cases hnil : l = []
  · subst hnil
    simp only [List.getLast_singleton, missing_singleton, Finset.notMem_empty, false_or,
      List.not_mem_nil, not_false_eq_true, and_true]
    omega
  · rw [List.getLast_cons hnil] at hfirst ⊢
    rw [mem_missing_cons hnil]
    constructor
    · rintro ⟨hlo, hhi, -, hne, hmem⟩
      rcases Nat.lt_or_gt_of_ne hne with hnb | hbn
      · exact .inl ⟨hlo, hnb, hne, hmem⟩
      · exact .inr ⟨hbn, hhi⟩
    · rintro (⟨hlo, hhi, hne, hmem⟩ | ⟨hlo, hhi⟩)
      · exact ⟨hlo, by omega, by omega, hne, hmem⟩
      · exact ⟨by omega, hhi, by omega, by omega, fun hmem => by have := hbelow n hmem; omega⟩

theorem card_missing_cons {a b : Nat} {l : List Nat} (h : (a :: b :: l).Pairwise (· > ·)) :
    (missing (a :: b :: l)).card = (missing (b :: l)).card + (a - b - 1) := by
  have hbelow : ∀ n ∈ missing (b :: l), n < b := by
    intro n hn
    by_cases hnil : l = []
    · simp [hnil] at hn
    · exact ((mem_missing_cons hnil).mp hn).2.1
  have hdisjoint : Disjoint (missing (b :: l)) (Finset.Ioo b a) := by
    rw [Finset.disjoint_left]
    intro n hn hjump
    exact absurd (hbelow n hn) (Finset.mem_Ioo.mp hjump).1.not_gt
  rw [missing_cons h, Finset.card_union_of_disjoint hdisjoint, Nat.card_Ioo]

end Bitfrost.Lib
