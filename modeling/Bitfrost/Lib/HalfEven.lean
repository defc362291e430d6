import Mathlib

/-!
Division of integers rounded to the nearest, ties to even (banker's
rounding). `IsHalfEven` says what the result is; it determines the result,
and every algebraic fact about the rounding follows from that.
-/

namespace Bitfrost.Lib

/-- `r` is a nearest integer to `n / d`, the even one when two are equally near. -/
structure IsHalfEven (n d r : ℤ) : Prop where
  near : |2 * (r * d - n)| ≤ d
  tie : |2 * (r * d - n)| = d → Even r

/-- `n / d` rounded half to even. -/
def roundHalfEven (n d : ℤ) : ℤ :=
  if 2 * (n % d) < d ∨ (2 * (n % d) = d ∧ n / d % 2 = 0) then n / d else n / d + 1

theorem roundHalfEven_spec (n : ℤ) {d : ℤ} (hd : 0 < d) : IsHalfEven n d (roundHalfEven n d) := by
  have hdiv : n / d * d + n % d = n := Int.ediv_mul_add_emod n d
  have h0 := Int.emod_nonneg n hd.ne'
  have hlt := Int.emod_lt_of_pos n hd
  unfold roundHalfEven
  split
  · next h =>
    have hval : 2 * (n / d * d - n) = -(2 * (n % d)) := by linarith
    refine ⟨by rw [hval, abs_neg, abs_of_nonneg (by omega)]; omega, ?_⟩
    rw [hval, abs_neg, abs_of_nonneg (by omega)]
    intro htie
    rcases h with h | h
    · omega
    · exact Int.even_iff.mpr h.2
  · next h =>
    have hval : 2 * ((n / d + 1) * d - n) = 2 * (d - n % d) := by linarith
    refine ⟨by rw [hval, abs_of_nonneg (by omega)]; omega, ?_⟩
    rw [hval, abs_of_nonneg (by omega)]
    intro htie
    rw [Int.even_iff]
    omega

theorem IsHalfEven.le {n d r r' : ℤ} (h : IsHalfEven n d r) (h' : IsHalfEven n d r')
    (hd : 0 < d) : r ≤ r' := by
  obtain ⟨hl, hu⟩ := abs_le.mp h.near
  obtain ⟨hl', hu'⟩ := abs_le.mp h'.near
  by_contra hlt
  -- Two different nearest integers are neighbours at a tie, and only one of them is even.
  have hstep : (r' + 1) * d ≤ r * d := Int.mul_le_mul_of_nonneg_right (by omega) hd.le
  have hval : 2 * (r * d - n) = d := by linarith
  have hval' : 2 * (r' * d - n) = -d := by linarith
  have heven := h.tie (by rw [hval, abs_of_pos hd])
  have heven' := h'.tie (by rw [hval', abs_neg, abs_of_pos hd])
  have hnext : r = r' + 1 := Int.eq_of_mul_eq_mul_right hd.ne' (by linarith)
  rw [Int.even_iff] at heven heven'
  omega

theorem IsHalfEven.unique {n d r r' : ℤ} (h : IsHalfEven n d r) (h' : IsHalfEven n d r')
    (hd : 0 < d) : r = r' :=
  le_antisymm (h.le h' hd) (h'.le h hd)

theorem IsHalfEven.eq_round {n d r : ℤ} (h : IsHalfEven n d r) (hd : 0 < d) :
    roundHalfEven n d = r :=
  (roundHalfEven_spec n hd).unique h hd

theorem le_roundHalfEven {n d m : ℤ} (hd : 0 < d) (h : m * d ≤ n) : m ≤ roundHalfEven n d := by
  have hnear := (abs_le.mp (roundHalfEven_spec n hd).near).1
  by_contra hlt
  have hstep : (roundHalfEven n d + 1) * d ≤ m * d :=
    Int.mul_le_mul_of_nonneg_right (by omega) hd.le
  linarith

theorem roundHalfEven_le {n d m : ℤ} (hd : 0 < d) (h : n ≤ m * d) : roundHalfEven n d ≤ m := by
  have hnear := (abs_le.mp (roundHalfEven_spec n hd).near).2
  by_contra hlt
  have hstep : (m + 1) * d ≤ roundHalfEven n d * d :=
    Int.mul_le_mul_of_nonneg_right (by omega) hd.le
  linarith

/-- Around an even total the rounding is symmetric, ties included. -/
theorem roundHalfEven_sub {n d m : ℤ} (hd : 0 < d) (hm : Even m) :
    roundHalfEven (m * d - n) d = m - roundHalfEven n d := by
  have hspec := roundHalfEven_spec n hd
  have hval : 2 * ((m - roundHalfEven n d) * d - (m * d - n)) =
      -(2 * (roundHalfEven n d * d - n)) := by ring
  apply IsHalfEven.eq_round _ hd
  refine ⟨by rw [hval, abs_neg]; exact hspec.near, ?_⟩
  rw [hval, abs_neg]
  intro htie
  exact hm.sub (hspec.tie htie)

/-- The rounded quotient is within one half of the exact one. -/
theorem abs_roundHalfEven_sub_le {K : Type*} [Field K] [LinearOrder K] [IsStrictOrderedRing K]
    (n : ℤ) {d : ℤ} (hd : 0 < d) : |(roundHalfEven n d : K) - n / d| ≤ 1 / 2 := by
  have hdK : (0 : K) < d := by exact_mod_cast hd
  have hnear : |2 * ((roundHalfEven n d : K) * d - n)| ≤ d := by
    exact_mod_cast (roundHalfEven_spec n hd).near
  have hval : (roundHalfEven n d : K) - n / d =
      2 * ((roundHalfEven n d : K) * d - n) / (2 * d) := by
    field_simp
  rw [hval, abs_div, abs_of_pos (by positivity : (0 : K) < 2 * d), div_le_div_iff₀ (by positivity)
    (by norm_num)]
  linarith

end Bitfrost.Lib
