import Mathlib

/-!
Ordered maps under a two-part key, and machines whose every operation reads
and writes one cell of such a map. The final content of a cell depends only
on the operations that name its key.
-/

namespace Bitfrost.Lib

open Std

section Order

variable {κ α β : Type} [Ord α] [Ord β]

/-- Compare by `f` first, by `g` on ties: the derived order of a two-field key. -/
def pairCmp (f : κ → α) (g : κ → β) : κ → κ → Ordering := compareLex (compareOn f) (compareOn g)

instance (f : κ → α) (g : κ → β) [TransOrd α] [TransOrd β] : TransCmp (pairCmp f g) :=
  inferInstanceAs (TransCmp (compareLex (compareOn f) (compareOn g)))

theorem lawfulEqCmp_pairCmp [LawfulEqOrd α] [LawfulEqOrd β] [TransOrd α] [TransOrd β]
    {f : κ → α} {g : κ → β} (h : ∀ a b, f a = f b → g a = g b → a = b) :
    LawfulEqCmp (pairCmp f g) where
  compare_self := ReflCmp.compare_self
  eq_of_compare {a b} hab := by
    rw [pairCmp, compareLex_eq_eq] at hab
    exact h a b (LawfulEqCmp.eq_of_compare hab.1) (LawfulEqCmp.eq_of_compare hab.2)

end Order

section Cells

variable {κ ν ι : Type} [DecidableEq κ] {cmp : κ → κ → Ordering} [TransCmp cmp] [LawfulEqCmp cmp]

theorem getElem?_insert_eq (m : ExtTreeMap κ ν cmp) (k a : κ) (v : ν) :
    (m.insert k v)[a]? = if a = k then some v else m[a]? := by
  rw [ExtTreeMap.getElem?_insert]
  by_cases h : a = k
  · subst h
    simp
  · have hne : cmp k a ≠ .eq := fun he => h (LawfulEqCmp.eq_of_compare he).symm
    simp [h, hne]

/-- One operation on the cell its key names; `none` leaves the map alone. -/
def cellStep (key : ι → κ) (act : ι → Option ν → Option ν) (m : ExtTreeMap κ ν cmp) (i : ι) :
    ExtTreeMap κ ν cmp :=
  match act i m[key i]? with
  | some v => m.insert (key i) v
  | none => m

/-- The same operation seen from inside the cell. -/
def cellAct (act : ι → Option ν → Option ν) (c : Option ν) (i : ι) : Option ν :=
  (act i c).or c

theorem cellStep_getElem? (key : ι → κ) (act : ι → Option ν → Option ν)
    (m : ExtTreeMap κ ν cmp) (i : ι) (k : κ) :
    (cellStep key act m i)[k]? = if key i = k then cellAct act m[k]? i else m[k]? := by
  unfold cellStep cellAct
  by_cases hk : key i = k
  · subst hk
    cases act i m[key i]? <;> simp
  · cases act i m[key i]? with
    | none => simp [hk]
    | some v => simp [getElem?_insert_eq, hk, Ne.symm hk]

theorem foldl_cellStep_getElem? (key : ι → κ) (act : ι → Option ν → Option ν)
    (ops : List ι) (m : ExtTreeMap κ ν cmp) (k : κ) :
    (ops.foldl (cellStep key act) m)[k]? =
      (ops.filter (key · = k)).foldl (cellAct act) m[k]? := by
  induction ops generalizing m with
  | nil => rfl
  | cons i ops ih =>
    rw [List.foldl_cons, ih, cellStep_getElem?]
    by_cases hk : key i = k
    · simp [hk]
    · simp [hk]

/-- Two sequences that agree on every key leave the same map. -/
theorem foldl_cellStep_congr (key : ι → κ) (act : ι → Option ν → Option ν)
    (ops ops' : List ι) (m : ExtTreeMap κ ν cmp)
    (h : ∀ k, ops.filter (key · = k) = ops'.filter (key · = k)) :
    ops.foldl (cellStep key act) m = ops'.foldl (cellStep key act) m := by
  apply ExtTreeMap.ext_getElem?
  intro k
  rw [foldl_cellStep_getElem?, foldl_cellStep_getElem?, h k]

end Cells

section Groups

variable {κ ι M : Type} [DecidableEq κ] [AddCommMonoid M]

/-- Summing by key and then over the keys is summing everything. -/
theorem sum_groups (key : ι → κ) (g : ι → M) {keys : List κ} (hkeys : keys.Nodup) {is : List ι}
    (h : ∀ i ∈ is, key i ∈ keys) :
    (keys.map fun k => ((is.filter (key · = k)).map g).sum).sum = (is.map g).sum := by
  induction is with
  | nil => simp
  | cons i is ih =>
    have hsplit : ∀ k, (((i :: is).filter (key · = k)).map g).sum =
        (if key i = k then g i else 0) + ((is.filter (key · = k)).map g).sum := by
      intro k
      by_cases hk : key i = k <;> simp [hk]
    have hone : (keys.map fun k => if key i = k then g i else 0).sum = g i := by
      rw [← List.sum_toFinset _ hkeys, Finset.sum_ite_eq]
      exact if_pos (List.mem_toFinset.mpr (h i (by simp)))
    rw [List.map_congr_left fun k _ => hsplit k, List.sum_map_add, hone,
      ih fun j hj => h j (List.mem_cons_of_mem _ hj), List.map_cons, List.sum_cons]

end Groups

end Bitfrost.Lib
