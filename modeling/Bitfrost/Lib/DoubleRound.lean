import Bitfrost.Lib.Binary64
import Bitfrost.Lib.DoubleOps

/-!
Rounding a double to the nearest integer, and the operations that lose
nothing: taking the distance to that integer, and scaling by a power of two.
-/

namespace Bitfrost.Lib.Binary64

open Float.Model Float.Model.UnpackedFloat

variable {x y : Float} {a b : ℚ}

/-! ## Literals -/

/-- A literal is read off its bits. -/
theorem is_literal (m : ℕ) (e : ℤ) (hm : 0 < m) (hx : x.toModel.unpack = .finite .positive m e hm)
    (hfits : m < 2 ^ 53 ∧ -1074 ≤ e ∧ e ≤ 971 ∧ (2 ^ 52 ≤ m ∨ e = -1074)) : Is x (m * 2 ^ e) :=
  ⟨hx ▸ hfits, by rw [hx, valueOf, unit, one_mul]⟩

theorem is_power (e : ℤ) (hx : x.toModel.unpack = .finite .positive (2 ^ 52) (e - 52) (by decide))
    (hlow : -1022 ≤ e) (hhigh : e ≤ 1023) : Is x (2 ^ e) := by
  have h := is_literal (2 ^ 52) (e - 52) (by decide) hx
    ⟨by norm_num, by omega, by omega, .inl le_rfl⟩
  have hvalue : ((2 ^ 52 : ℕ) : ℚ) * 2 ^ (e - 52) = 2 ^ e := by
    rw [show ((2 ^ 52 : ℕ) : ℚ) = 2 ^ (52 : ℤ) by norm_num, ← two_zpow_add, add_sub_cancel]
  rwa [hvalue] at h

theorem is_half : Is 0.5 (1 / 2) := by
  have h : Is 0.5 (2 ^ (-1 : ℤ)) := is_power (-1) rfl (by norm_num) (by norm_num)
  rwa [show (2 : ℚ) ^ (-1 : ℤ) = 1 / 2 by norm_num] at h

theorem is_unit : Is 1.0 1 := is_one

theorem is_zero : Is 0.0 0 := ⟨trivial, rfl⟩

theorem is_allIntegral : Is 4503599627370496.0 (2 ^ (52 : ℤ)) :=
  is_power 52 rfl (by norm_num) (by norm_num)

theorem lt_huge (h : a ≤ 1) : a < 2 ^ (1023 : ℤ) :=
  h.trans_lt (one_lt_zpow₀ (by norm_num) (by norm_num))

/-! ## What is a double -/

theorem Representable.natCast_of_large (h : Representable a) (ha : 2 ^ (52 : ℤ) ≤ a) :
    a = (⌊a⌋₊ : ℚ) := by
  have ha0 : 0 ≤ a := (two_zpow_pos 52).le.trans ha
  obtain ⟨n, hn⟩ := h.onGrid (t := 0) (.inr (by rwa [add_zero, abs_of_nonneg ha0]))
  rw [zpow_zero, mul_one] at hn
  have hn0 : 0 ≤ n := by
    rw [hn] at ha0
    exact_mod_cast ha0
  lift n to ℕ using hn0
  rw [hn, Int.cast_natCast, Nat.floor_natCast]

/-- The distance of a double to an integer next to it is a double. -/
theorem Representable.sub_intCast (h : Representable a) (ha : 0 ≤ a) {k : ℤ}
    (hk : |a - k| < 1) (hsmall : a < 1 / 2 → k = 0) : Representable (a - k) := by
  by_cases hzero : k = 0
  · rw [hzero, Int.cast_zero, sub_zero]
    exact h
  have hhalf : 1 / 2 ≤ a := not_lt.mp fun hlt => hzero (hsmall hlt)
  obtain ⟨n, e, hn, he, rfl⟩ := h
  have hpos := two_zpow_pos e
  have hexp : -53 ≤ e := by
    by_contra hlow
    have hn' : (n : ℚ) < 2 ^ (53 : ℤ) := by exact_mod_cast (abs_lt.mp hn).2
    have hscale := mul_le_mul_of_nonneg_left (two_zpow_le.mpr (by omega : e ≤ -54))
      (two_zpow_pos 53).le
    have hupper := (mul_lt_mul_of_pos_right hn' hpos).trans_le hscale
    norm_num at hupper
    linarith
  rcases le_or_gt 0 e with hint | hfrac
  · -- Two integers less than one apart are the same.
    lift e to ℕ using hint
    rw [zpow_natCast] at hk ⊢
    have hsame : |n * 2 ^ e - k| < 1 := by exact_mod_cast hk
    rw [Int.abs_lt_one_iff] at hsame
    refine ⟨0, 0, by norm_num, by norm_num, ?_⟩
    have : (n : ℚ) * 2 ^ e - k = ((n * 2 ^ e - k : ℤ) : ℚ) := by push_cast; ring
    rw [this, hsame]
    simp
  · refine ⟨n - k * 2 ^ (-e).toNat, e, ?_, he, ?_⟩
    · have hunit : (2 : ℚ) ^ (-e).toNat * 2 ^ e = 1 := by
        rw [← zpow_natCast, Int.toNat_of_nonneg (by omega), ← two_zpow_add, neg_add_cancel,
          zpow_zero]
      have hscale : ((n - k * 2 ^ (-e).toNat : ℤ) : ℚ) = (n * 2 ^ e - k) * 2 ^ (-e).toNat := by
        push_cast
        rw [sub_mul, mul_assoc, mul_comm ((2 : ℚ) ^ e), hunit, mul_one]
      have hlt : |((n - k * 2 ^ (-e).toNat : ℤ) : ℚ)| < 2 ^ 53 := by
        rw [hscale, abs_mul, abs_of_pos (show (0 : ℚ) < 2 ^ (-e).toNat by positivity)]
        calc |(n : ℚ) * 2 ^ e - k| * 2 ^ (-e).toNat < 1 * 2 ^ (-e).toNat :=
              mul_lt_mul_of_pos_right hk (by positivity)
          _ ≤ 2 ^ 53 := by
              rw [one_mul]
              exact pow_le_pow_right₀ (by norm_num) (by omega)
      exact_mod_cast hlt
    · push_cast
      rw [sub_mul, mul_assoc, ← zpow_natCast, Int.toNat_of_nonneg (by omega), ← two_zpow_add,
        neg_add_cancel, zpow_zero, mul_one]

/-- Scaling by a power of two loses nothing while the exponent stays in range. -/
theorem Representable.mul_two_zpow (h : Representable a) (ha : 1 ≤ |a|) {k : ℤ} (hk : -1021 ≤ k) :
    Representable (a * 2 ^ k) := by
  obtain ⟨n, e, hn, he, rfl⟩ := h
  refine ⟨n, e + k, hn, ?_, by rw [two_zpow_add, mul_assoc]⟩
  have hpos := two_zpow_pos e
  rw [abs_mul, abs_of_pos hpos] at ha
  have hn' : |(n : ℚ)| < 2 ^ (53 : ℤ) := by exact_mod_cast hn
  have hone : (2 : ℚ) ^ (0 : ℤ) < 2 ^ (53 + e) := by
    rw [two_zpow_add, zpow_zero]
    exact ha.trans_lt (mul_lt_mul_of_pos_right hn' hpos)
  have := two_zpow_lt.mp hone
  omega

/-! ## `round` -/

theorem abs_sub_floor_half (ha : 0 ≤ a) : |a - (⌊a + 1 / 2⌋₊ : ℚ)| ≤ 1 / 2 := by
  have hlow := Nat.floor_le (add_nonneg ha (by norm_num : (0 : ℚ) ≤ 1 / 2))
  have hhigh := Nat.lt_floor_add_one (a + 1 / 2)
  rw [abs_le]
  constructor <;> linarith

/-- `round` goes to the nearest integer, up from a half. -/
theorem Is.round (hx : Is x a) (ha : 0 ≤ a) : Is (round x) ⌊a + 1 / 2⌋₊ := by
  have habs := hx.abs
  rw [abs_of_nonneg ha] at habs
  rw [Binary64.round, hx.isFinite, Bool.true_and]
  by_cases hlarge : 2 ^ (52 : ℤ) ≤ a
  · have hnat := hx.representable.natCast_of_large hlarge
    rw [if_neg (by rw [decide_eq_true_iff, habs.lt_iff is_allIntegral]; exact hlarge.not_gt)]
    have hfloor : ⌊a + 1 / 2⌋₊ = ⌊a⌋₊ := by
      rw [Nat.floor_eq_iff (by positivity), ← hnat]
      constructor <;> linarith
    rwa [hfloor, ← hnat]
  · rw [if_pos (by rw [decide_eq_true_iff, habs.lt_iff is_allIntegral]; exact not_le.mp hlarge)]
    have hfloor := Nat.floor_le ha
    have hnext := Nat.lt_floor_add_one a
    have hbound : ⌊a⌋₊ < 2 ^ 52 := by
      rw [Nat.floor_lt ha]
      exact_mod_cast not_le.mp hlarge
    have hwhole : Is x.abs.toUInt64.toFloat ⌊a⌋₊ := by
      have htrunc := habs.toUInt64 ha ((not_le.mp hlarge).trans (two_zpow_lt.mpr (by norm_num)))
      have := is_toFloat (n := x.abs.toUInt64) (by rw [htrunc]; omega)
      rwa [htrunc] at this
    have hdist : Is (x.abs - x.abs.toUInt64.toFloat) (a - ⌊a⌋₊) := by
      have hsmall : |a - (⌊a⌋₊ : ℚ)| < 1 := by
        rw [abs_lt]
        constructor <;> linarith
      have hexact := habs.representable.sub_intCast ha (k := ⌊a⌋₊) (by exact_mod_cast hsmall)
        fun hlt => by exact_mod_cast Nat.floor_eq_zero.mpr (hlt.trans (by norm_num))
      exact (habs.sub hwhole).exact_ (lt_huge hsmall.le) (by exact_mod_cast hexact)
    have hsum : Is (x.abs.toUInt64.toFloat + 1.0) (⌊a⌋₊ + 1 : ℕ) := by
      have hcast : ((⌊a⌋₊ + 1 : ℕ) : ℚ) = ⌊a⌋₊ + 1 := by push_cast; ring
      have hadd := hwhole.add is_unit one_ne_zero
      rw [← hcast] at hadd
      refine hadd.exact_ ?_ (representable_natCast (by omega))
      rw [abs_of_nonneg (Nat.cast_nonneg _)]
      calc ((⌊a⌋₊ + 1 : ℕ) : ℚ) ≤ 2 ^ (52 : ℤ) := by exact_mod_cast hbound
        _ < 2 ^ (1023 : ℤ) := two_zpow_lt.mpr (by norm_num)
    rw [if_neg (by rw [hx.lt_iff is_zero]; exact ha.not_gt)]
    by_cases hup : 1 / 2 ≤ a - ⌊a⌋₊
    · rw [if_pos ((is_half.le_iff hdist).mpr hup)]
      have : ⌊a + 1 / 2⌋₊ = ⌊a⌋₊ + 1 := by
        rw [Nat.floor_eq_iff (by positivity)]
        push_cast
        constructor <;> linarith
      rwa [this]
    · rw [if_neg (mt (is_half.le_iff hdist).mp hup)]
      have : ⌊a + 1 / 2⌋₊ = ⌊a⌋₊ := by
        rw [Nat.floor_eq_iff (by positivity)]
        constructor <;> linarith
      rwa [this]

/-- The distance to the rounded double is exact. -/
theorem Is.sub_round (hx : Is x a) (ha : 0 ≤ a) :
    Is (x - Binary64.round x) (a - ⌊a + 1 / 2⌋₊) := by
  have hclose := abs_sub_floor_half ha
  have hexact := hx.representable.sub_intCast ha (k := ⌊a + 1 / 2⌋₊)
    (by exact_mod_cast hclose.trans_lt (by norm_num))
    fun hlt => by exact_mod_cast Nat.floor_eq_zero.mpr (by linarith)
  exact (hx.sub (hx.round ha)).exact_ (lt_huge (hclose.trans (by norm_num)))
    (by exact_mod_cast hexact)

theorem Is.toI64OfNonneg {n : ℕ} (hx : Is x n) (htop : (n : ℚ) < 2 ^ (63 : ℤ)) :
    toI64OfNonneg x = n := by
  have htrunc := hx.toUInt64 (Nat.cast_nonneg n) (htop.trans (two_zpow_lt.mpr (by norm_num)))
  rw [Nat.floor_natCast] at htrunc
  have : n < 2 ^ 63 := by exact_mod_cast htop
  rw [Binary64.toI64OfNonneg, htrunc]
  omega

/-! ## Overflow -/

theorem isFinite_pack_infinity (s : Sign) :
    (Float.Model.pack (.infinity s)).unpack.isFinite = false := by
  cases s <;> rfl

theorem isFinite_pack_notANumber : (Float.Model.pack .notANumber).unpack.isFinite = false := rfl

/-- What is not finite stays so under division. -/
theorem isFinite_div (hx : x.isFinite = false) (hy : Is y b) : (x / y).isFinite = false := by
  show (Float.Model.pack
    (UnpackedFloat.div .binary64 x.toModel.unpack y.toModel.unpack)).unpack.isFinite = false
  have hnot : x.toModel.unpack.isFinite = false := hx
  have hfits := hy.fits
  generalize x.toModel.unpack = u at hnot
  generalize y.toModel.unpack = v at hfits
  cases u with
  | zero s => cases hnot
  | finite s m e hm => cases hnot
  | notANumber =>
    rw [UnpackedFloat.div]
    exact isFinite_pack_notANumber
  | infinity s =>
    cases v with
    | infinity s' => exact hfits.elim
    | notANumber => exact hfits.elim
    | zero s' =>
      rw [UnpackedFloat.div]
      exact isFinite_pack_infinity _
    | finite s' m' e' hm' =>
      rw [UnpackedFloat.div]
      exact isFinite_pack_infinity _

theorem round_of_not_finite (hx : x.isFinite = false) : Binary64.round x = x := by
  rw [Binary64.round, hx, Bool.false_and]
  rfl

end Bitfrost.Lib.Binary64
