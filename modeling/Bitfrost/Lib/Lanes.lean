import Mathlib

/-!
Lists that are interleavings of lanes. A list sorted strictly by a key is
determined by its projections on the lanes, so every way to interleave the
lanes that respects the key is the same list.
-/

namespace Bitfrost.Lib

variable {α β γ : Type*}

/-- Lists with the same projection on every lane hold the same elements. -/
theorem perm_of_filter_eq [DecidableEq α] [DecidableEq β] (lane : α → β) {l l' : List α}
    (h : ∀ b, l.filter (lane · = b) = l'.filter (lane · = b)) : l.Perm l' := by
  rw [List.perm_iff_count]
  intro a
  have hc : ∀ l : List α, (l.filter (lane · = lane a)).count a = l.count a := fun l =>
    List.count_filter (by simp)
  rw [← hc l, ← hc l', h]

/-- Lists with the same projection on every lane agree on what a single lane has. -/
theorem filter_eq_of_lane [DecidableEq β] (lane : α → β) (p : α → Bool) {l l' : List α}
    (h : ∀ b, l.filter (lane · = b) = l'.filter (lane · = b))
    (hlane : ∀ a ∈ l ++ l', ∀ b ∈ l ++ l', p a → p b → lane a = lane b) :
    l.filter p = l'.filter p := by
  by_cases hnone : ∀ a ∈ l ++ l', p a = false
  · rw [List.filter_eq_nil_iff.mpr fun a ha => by simp [hnone a (List.mem_append_left _ ha)],
      List.filter_eq_nil_iff.mpr fun a ha => by simp [hnone a (List.mem_append_right _ ha)]]
  · push Not at hnone
    obtain ⟨a, ha, hpa⟩ := hnone
    have hsub : ∀ k : List α, (∀ b ∈ k, b ∈ l ++ l') →
        k.filter p = (k.filter (lane · = lane a)).filter p := by
      intro k hk
      rw [List.filter_filter]
      apply List.filter_congr
      intro b hb
      cases hpb : p b with
      | false => simp
      | true => simp [hlane b (hk b hb) a ha hpb (by simpa using hpa)]
    rw [hsub l fun b hb => List.mem_append_left _ hb,
      hsub l' fun b hb => List.mem_append_right _ hb, h]

/-- A relation that only elements of one lane can break holds if it holds on every lane. -/
theorem pairwise_of_filter [DecidableEq β] (lane : α → β) {R : α → α → Prop} {l : List α}
    (hcross : ∀ a b, lane a ≠ lane b → R a b)
    (h : ∀ b, (l.filter (lane · = b)).Pairwise R) : l.Pairwise R := by
  induction l with
  | nil => exact List.Pairwise.nil
  | cons a l ih =>
    refine List.pairwise_cons.mpr ⟨fun b hb => ?_, ih fun c => ?_⟩
    · by_cases hab : lane a = lane b
      · have ha := h (lane a)
        rw [List.filter_cons_of_pos (by simp)] at ha
        exact List.rel_of_pairwise_cons ha (List.mem_filter.mpr ⟨hb, by simp [hab]⟩)
      · exact hcross a b hab
    · exact (h c).sublist ((List.sublist_cons_self a l).filter _)

/-- Tests that hold of the front of a list and fail on the rest of it cut the list there. -/
theorem filter_of_cut {q : α → Bool} {l front rest : List α} (h : front ++ rest = l)
    (hfront : ∀ a ∈ front, q a = true) (hrest : ∀ a ∈ rest, q a = false) :
    l.filter q = front ∧ l.filter (!q ·) = rest := by
  subst h
  rw [List.filter_append, List.filter_append, List.filter_eq_self.mpr hfront,
    List.filter_eq_nil_iff.mpr (by simpa using hrest),
    List.filter_eq_nil_iff.mpr (by simpa using hfront),
    List.filter_eq_self.mpr (by simpa using hrest)]
  exact ⟨List.append_nil _, List.nil_append _⟩

variable [LinearOrder γ] (key : α → γ)

/-- A strictly increasing key tells the elements of the list apart. -/
theorem key_injOn_of_sorted {l : List α} (hs : l.Pairwise fun a b => key a < key b) {a b : α}
    (ha : a ∈ l) (hb : b ∈ l) (h : key a = key b) : a = b := by
  have hnodup : (l.map key).Nodup := List.pairwise_map.mpr (hs.imp fun h => h.ne)
  exact List.inj_on_of_nodup_map hnodup ha hb h

/-- Two strictly sorted arrangements of the same elements are equal. -/
theorem eq_of_perm_of_sorted {l l' : List α} (hs : l.Pairwise fun a b => key a < key b)
    (hs' : l'.Pairwise fun a b => key a < key b) (hp : l.Perm l') : l = l' :=
  hp.eq_of_pairwise (fun _ _ _ _ hab hba => absurd (lt_trans hab hba) (lt_irrefl _)) hs hs'

/-- A strictly sorted list is the merge sort of any arrangement of its elements. -/
theorem eq_mergeSort_of_sorted {l l' : List α} (hs : l.Pairwise fun a b => key a < key b)
    (hp : l.Perm l') : l = l'.mergeSort fun a b => key a ≤ key b := by
  have hm : l.Perm (l'.mergeSort fun a b => key a ≤ key b) :=
    hp.trans (List.mergeSort_perm l' _).symm
  have hsort : (l'.mergeSort fun a b => key a ≤ key b).Pairwise fun a b => key a ≤ key b := by
    have h := @List.pairwise_mergeSort α (fun a b => decide (key a ≤ key b))
      (fun a b c hab hbc => by simp at hab hbc ⊢; exact le_trans hab hbc)
      (fun a b => by simp; exact le_total _ _) l'
    exact h.imp fun h => by simpa using h
  refine hm.eq_of_pairwise ?_ (hs.imp fun h => h.le) hsort
  intro a b ha hb hab hba
  exact key_injOn_of_sorted key hs ha (hm.symm.subset hb) (le_antisymm hab hba)

end Bitfrost.Lib
