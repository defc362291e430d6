import Mathlib

/-!
Rounding to `f64`. Lean's logical model of `Float` keeps a mantissa, an
exponent, and a record of what was cut off; here that record is read as a
rational, and rounding is shown to move a rational by at most half a unit in
the last place and not at all when it is a double already.
-/

namespace Bitfrost.Lib.Binary64

open Float.Model Float.Model.UnpackedFloat

/-! ## What was cut off -/

/-- The rational that a mantissa and an accuracy stand for, up to what matters for rounding. -/
def Near (m : ℕ) (accuracy : Accuracy) (x : ℚ) : Prop :=
  match accuracy with
  | .exact => x = m
  | .inexact .lt => (m : ℚ) < x ∧ x < m + 1 / 2
  | .inexact .eq => x = m + 1 / 2
  | .inexact .gt => (m : ℚ) + 1 / 2 < x ∧ x < m + 1

theorem near_exact (m : ℕ) : Near m .exact m := rfl

theorem Near.floor {m : ℕ} {accuracy : Accuracy} {x : ℚ} (h : Near m accuracy x) :
    (m : ℚ) ≤ x ∧ x < m + 1 := by
  rcases accuracy with _ | (_ | _ | _) <;> simp only [Near] at h <;> constructor <;> linarith

theorem Near.rounded {m : ℕ} {accuracy : Accuracy} {x : ℚ} (h : Near m accuracy x) :
    |(accuracy.roundToNearestEven m : ℚ) - x| ≤ 1 / 2 ∧
      m ≤ accuracy.roundToNearestEven m ∧ accuracy.roundToNearestEven m ≤ m + 1 := by
  have hparity : m % 2 < 2 := Nat.mod_lt m (by decide)
  rcases accuracy with _ | (_ | _ | _) <;> simp only [Near] at h <;>
    simp only [Accuracy.roundToNearestEven, abs_le, Nat.cast_add, Nat.cast_one]
  · rw [h]
    norm_num
  · exact ⟨⟨by linarith, by linarith⟩, by omega, by omega⟩
  · -- A tie goes to the even neighbour, either of which is half a unit away.
    rw [h]
    rcases Nat.mod_two_eq_zero_or_one m with heven | hodd
    · rw [heven]
      norm_num
    · rw [hodd]
      norm_num
  · exact ⟨⟨by linarith, by linarith⟩, by omega, by omega⟩

theorem near_ofMantissaAndAccuracy {m : ℕ} {accuracy : Accuracy} {x : ℚ} (h : Near m accuracy x) :
    Near (ExtendedMantissa.ofMantissaAndAccuracy m accuracy).mantissa
      (ExtendedMantissa.ofMantissaAndAccuracy m accuracy).accuracy x := by
  rcases accuracy with _ | (_ | _ | _) <;> exact h

/-- Shifting by a bit halves, and the two residual bits remember the rest. -/
theorem Near.shiftRightOne {em : ExtendedMantissa} {x : ℚ} (h : Near em.mantissa em.accuracy x) :
    Near em.shiftRightOne.mantissa em.shiftRightOne.accuracy (x / 2) := by
  obtain ⟨m, roundBit, stickyBit⟩ := em
  have hsplit : (m : ℚ) = 2 * (m / 2 : ℕ) + (m % 2 : ℕ) := by
    exact_mod_cast (Nat.div_add_mod m 2).symm
  rcases Nat.mod_two_eq_zero_or_one m with hlast | hlast <;> rw [hlast] at hsplit <;>
    cases roundBit <;> cases stickyBit <;>
    simp only [Near, ExtendedMantissa.shiftRightOne, ExtendedMantissa.accuracy, hlast, bne,
      Nat.reduceBEq, Bool.not_true, Bool.not_false, Bool.or_true, Bool.or_false, Nat.cast_zero,
      Nat.cast_one] at h hsplit ⊢ <;>
    first | (constructor <;> linarith) | linarith

theorem Near.shiftRight {em : ExtendedMantissa} {x : ℚ} (h : Near em.mantissa em.accuracy x)
    (n : ℕ) : Near (em >>> n).mantissa (em >>> n).accuracy (x / 2 ^ n) := by
  induction n with
  | zero =>
    rw [pow_zero, div_one]
    exact h
  | succ n ih =>
    rw [pow_succ, ← div_div]
    exact ih.shiftRightOne

theorem near_accuracyOfFraction (n : ℕ) {d : ℕ} (hd : 0 < d) :
    Near (n / d) (accuracyOfFraction (n % d) d) ((n : ℚ) / d) := by
  have hd' : (0 : ℚ) < d := by exact_mod_cast hd
  have hsplit : (n : ℚ) / d = (n / d : ℕ) + (n % d : ℕ) / d := by
    rw [div_eq_iff hd'.ne', add_mul, div_mul_cancel₀ _ hd'.ne', mul_comm]
    exact_mod_cast (Nat.div_add_mod n d).symm
  have hlt : ((n % d : ℕ) : ℚ) / d < 1 := by
    rw [div_lt_one hd']
    exact_mod_cast Nat.mod_lt n hd
  rw [accuracyOfFraction]
  split
  · next hzero =>
    rw [Near, hsplit, hzero]
    simp
  · next hne =>
    have hpos : (0 : ℚ) < (n % d : ℕ) / d := by
      have : (0 : ℚ) < (n % d : ℕ) := by exact_mod_cast Nat.pos_of_ne_zero hne
      positivity
    have htwice : ∀ {a b : ℕ}, a < b → (a : ℚ) < b := fun h => by exact_mod_cast h
    cases hc : compare (2 * (n % d)) d with
    | lt =>
      have h2 := htwice (compare_lt_iff_lt.mp hc)
      rw [Near, hsplit]
      refine ⟨by linarith, ?_⟩
      rw [add_lt_add_iff_left, div_lt_iff₀ hd']
      push_cast at h2
      linarith
    | eq =>
      have h2 : ((2 * (n % d) : ℕ) : ℚ) = d := by exact_mod_cast compare_eq_iff_eq.mp hc
      rw [Near, hsplit, add_right_inj, div_eq_iff hd'.ne']
      push_cast at h2
      linarith
    | gt =>
      have h2 := htwice (compare_gt_iff_gt.mp hc)
      rw [Near, hsplit]
      refine ⟨?_, by linarith⟩
      rw [add_lt_add_iff_left, lt_div_iff₀ hd']
      push_cast at h2
      linarith

/-! ## Doubles -/

/-- The rationals that a double can have, if they are not too large. -/
def Representable (x : ℚ) : Prop :=
  ∃ (n e : ℤ), |n| < 2 ^ 53 ∧ -1074 ≤ e ∧ x = n * 2 ^ e

/-- A rounded number: 53 bits, all of them used unless the exponent is the least one. -/
def Wide : UnpackedFloat → Prop
  | .zero _ => True
  | .finite _ m e _ => m < 2 ^ 53 ∧ -1074 ≤ e ∧ (2 ^ 52 ≤ m ∨ e = -1074)
  | _ => False

/-- A rounded number that is not too large for a double. -/
def Fits : UnpackedFloat → Prop
  | .zero _ => True
  | .finite _ m e _ => m < 2 ^ 53 ∧ -1074 ≤ e ∧ e ≤ 971 ∧ (2 ^ 52 ≤ m ∨ e = -1074)
  | _ => False

theorem Fits.wide {u : UnpackedFloat} (h : Fits u) : Wide u := by
  cases u with
  | infinity s => exact h.elim
  | notANumber => exact h.elim
  | zero s => trivial
  | finite s m e hm => exact ⟨h.1, h.2.1, h.2.2.2⟩

def unit : Sign → ℚ
  | .negative => -1
  | .positive => 1

def valueOf : UnpackedFloat → ℚ
  | .finite s m e _ => unit s * (m * 2 ^ e)
  | _ => 0

/-- `y` is a double next to `x`: half a unit in the last place away at most, never on the other
side of zero, and `x` itself when that is a double. -/
structure Rounds (x y : ℚ) : Prop where
  close : |y - x| ≤ 2 ^ (-53 : ℤ) * |x| + 2 ^ (-1075 : ℤ)
  sameSign : 0 ≤ x * y
  exact_ : Representable x → y = x

theorem unit_mul_self (s : Sign) : unit s * unit s = 1 := by
  cases s <;> norm_num [unit]

theorem abs_unit (s : Sign) : |unit s| = 1 := by
  cases s <;> norm_num [unit]

theorem Representable.neg {x : ℚ} (h : Representable x) : Representable (-x) := by
  obtain ⟨n, e, hn, he, rfl⟩ := h
  exact ⟨-n, e, by rwa [abs_neg], he, by push_cast; ring⟩

theorem Representable.unit_mul {x : ℚ} (h : Representable x) (s : Sign) :
    Representable (unit s * x) := by
  cases s with
  | positive => simpa [unit] using h
  | negative => simpa [unit] using h.neg

theorem Rounds.unit_mul {x y : ℚ} (h : Rounds x y) (s : Sign) :
    Rounds (unit s * x) (unit s * y) where
  close := by
    rw [← mul_sub, abs_mul, abs_mul, abs_unit, one_mul, one_mul]
    exact h.close
  sameSign := by
    rw [mul_mul_mul_comm, unit_mul_self, one_mul]
    exact h.sameSign
  exact_ hx := by
    have := hx.unit_mul s
    rw [← mul_assoc, unit_mul_self, one_mul] at this
    rw [h.exact_ this]

theorem representable_zero : Representable 0 := ⟨0, 0, by norm_num, by norm_num, by simp⟩

theorem Rounds.nonneg {x y : ℚ} (h : Rounds x y) (hx : 0 ≤ x) : 0 ≤ y := by
  rcases hx.eq_or_lt with rfl | hpos
  · exact (h.exact_ representable_zero).ge
  · exact nonneg_of_mul_nonneg_right h.sameSign hpos

theorem representable_valueOf {u : UnpackedFloat} (h : Fits u) : Representable (valueOf u) := by
  cases u with
  | infinity s => exact h.elim
  | notANumber => exact h.elim
  | zero s => exact representable_zero
  | finite s m e hm =>
    obtain ⟨hbits, hlow, -, -⟩ := h
    refine Representable.unit_mul ⟨m, e, ?_, hlow, rfl⟩ s
    rw [abs_of_nonneg (by positivity)]
    exact_mod_cast hbits

/-! ## Rounding -/

theorem two_zpow_pos (e : ℤ) : (0 : ℚ) < 2 ^ e := zpow_pos (by norm_num) e

theorem two_zpow_add (a b : ℤ) : (2 : ℚ) ^ (a + b) = 2 ^ a * 2 ^ b := zpow_add₀ (by norm_num) a b

theorem two_zpow_le {a b : ℤ} : (2 : ℚ) ^ a ≤ 2 ^ b ↔ a ≤ b := zpow_le_zpow_iff_right₀ (by norm_num)

theorem two_zpow_lt {a b : ℤ} : (2 : ℚ) ^ a < 2 ^ b ↔ a < b := zpow_lt_zpow_iff_right₀ (by norm_num)

/-- A multiple of the unit `2 ^ t`, when it is close enough to another, is that one. -/
theorem grid_unique {a b t : ℤ} (h : |(a : ℚ) * 2 ^ t - b * 2 ^ t| ≤ 2 ^ t / 2) : a = b := by
  have ht := two_zpow_pos t
  rw [← sub_mul, abs_mul, abs_of_pos ht] at h
  have hlt : |(a : ℚ) - b| < 1 := by
    by_contra hge
    have := mul_le_mul_of_nonneg_right (not_lt.mp hge) ht.le
    linarith
  have hint : |a - b| < 1 := by exact_mod_cast hlt
  rw [Int.abs_lt_one_iff] at hint
  omega

/-- From `2 ^ 52` units on, a double is a multiple of the unit. -/
theorem Representable.onGrid {x : ℚ} (h : Representable x) {t : ℤ}
    (hbig : t = -1074 ∨ 2 ^ (52 + t) ≤ |x|) : ∃ n : ℤ, x = n * 2 ^ t := by
  obtain ⟨n, e, hn, he, rfl⟩ := h
  have hle : t ≤ e := by
    rcases hbig with rfl | hbig
    · exact he
    · by_contra hlt
      have hpos := two_zpow_pos e
      rw [abs_mul, abs_of_pos hpos] at hbig
      have hn' : |(n : ℚ)| < 2 ^ (53 : ℤ) := by exact_mod_cast hn
      have hupper : |(n : ℚ)| * 2 ^ e < 2 ^ (53 + e) := by
        rw [two_zpow_add]
        exact mul_lt_mul_of_pos_right hn' hpos
      have hexp := two_zpow_lt.mp (hbig.trans_lt hupper)
      omega
  refine ⟨n * 2 ^ (e - t).toNat, ?_⟩
  push_cast
  rw [mul_assoc, ← zpow_natCast, ← two_zpow_add, Int.toNat_of_nonneg (by omega), sub_add_cancel]

theorem rounds_of_grid {x : ℚ} (hx : 0 ≤ x) {n : ℕ} {t : ℤ}
    (hbig : t = -1074 ∨ 2 ^ (52 + t) ≤ x) (h : |(n : ℚ) * 2 ^ t - x| ≤ 2 ^ t / 2) :
    Rounds x (n * 2 ^ t) where
  close := by
    refine h.trans ?_
    have hhalf : (2 : ℚ) ^ t / 2 = 2 ^ (-1 : ℤ) * 2 ^ t := by norm_num; ring
    have hrest := two_zpow_pos (-1075)
    rw [abs_of_nonneg hx, hhalf]
    rcases hbig with rfl | hbig
    · have : (2 : ℚ) ^ (-1 : ℤ) * 2 ^ (-1074 : ℤ) = 2 ^ (-1075 : ℤ) := by rw [← two_zpow_add]; rfl
      have := two_zpow_pos (-53)
      nlinarith
    · have hscaled := mul_le_mul_of_nonneg_left hbig (two_zpow_pos (-53)).le
      rw [← two_zpow_add, show (-53 : ℤ) + (52 + t) = -1 + t by ring, two_zpow_add] at hscaled
      linarith
  sameSign := mul_nonneg hx (mul_nonneg (Nat.cast_nonneg n) (two_zpow_pos t).le)
  exact_ hrep := by
    rw [← abs_of_nonneg hx] at hbig
    obtain ⟨k, hk⟩ := hrep.onGrid hbig
    rw [hk] at h ⊢
    have : (n : ℤ) = k := grid_unique (by exact_mod_cast h)
    rw [← this]
    push_cast
    rfl

/-- The exponent of the last bit that a double of this size keeps. -/
def lastBit (m : ℕ) (e : ℤ) : ℤ := max (m.log2 + e - 52) (-1074)

theorem targetExponent_eq (m : ℕ) (e : ℤ) :
    Format.binary64.targetExponent (totalExponent m e) = lastBit m e := by
  simp only [Format.targetExponent, totalExponent, lastBit, Format.mantissaBits,
    Format.minExponent]
  norm_num
  ring_nf

/-- A mantissa that fits and stays above the least exponent is not shifted. -/
theorem shiftToTargetExponent_of_fits {m : ℕ} {e : ℤ} (hm : m < 2 ^ 53) (he : -1074 ≤ e) :
    shiftToTargetExponent .binary64 m e .exact = (⟨m, false, false⟩, e) := by
  have hlog : m.log2 ≤ 52 := by
    rcases Nat.eq_zero_or_pos m with rfl | hpos
    · simp
    · have := (Nat.log2_lt hpos.ne').mpr hm
      omega
  have hzero : (lastBit m e - e).toNat = 0 := by
    rw [lastBit]
    omega
  rw [shiftToTargetExponent, targetExponent_eq, shiftToExponent, hzero]
  simp only [Nat.cast_zero, add_zero]
  rfl

/-- The carry of a rounding that fills all 53 bits. -/
theorem shiftToTargetExponent_carry {e : ℤ} (he : -1074 ≤ e) :
    shiftToTargetExponent .binary64 (2 ^ 53) e .exact = (⟨2 ^ 52, false, false⟩, e + 1) := by
  have hone : (lastBit (2 ^ 53) e - e).toNat = 1 := by
    rw [lastBit, Nat.log2_two_pow]
    omega
  rw [shiftToTargetExponent, targetExponent_eq, shiftToExponent, hone]
  rfl

section Round

variable {m : ℕ} {e : ℤ} {accuracy : Accuracy} {x : ℚ}

/-- The mantissa in units of the last bit, with what is left of it. -/
def cut (m : ℕ) (e : ℤ) (accuracy : Accuracy) : ExtendedMantissa :=
  ExtendedMantissa.ofMantissaAndAccuracy m accuracy >>> (lastBit m e - e).toNat

theorem near_cut (hx : Near m accuracy x) (hplace : e ≤ lastBit m e) :
    Near (cut m e accuracy).mantissa (cut m e accuracy).accuracy (x * 2 ^ e / 2 ^ lastBit m e) := by
  have hshift : x * 2 ^ e / 2 ^ lastBit m e = x / 2 ^ (lastBit m e - e).toNat := by
    rw [← zpow_natCast, Int.toNat_of_nonneg (by omega), zpow_sub₀ (by norm_num), div_div_eq_mul_div]
  rw [hshift]
  exact (near_ofMantissaAndAccuracy hx).shiftRight _

/-- Above the least exponent the size of the mantissa is that of the number. -/
theorem lastBit_spec (hx : Near m accuracy x) (hplace : e ≤ lastBit m e) :
    lastBit m e = -1074 ∨ (lastBit m e = m.log2 + e - 52 ∧ 2 ^ (52 + lastBit m e) ≤ x * 2 ^ e) := by
  rcases max_choice ((m.log2 : ℤ) + e - 52) (-1074) with hleft | hright
  · right
    have ht : lastBit m e = m.log2 + e - 52 := hleft
    have hm : m ≠ 0 := by
      rintro rfl
      rw [ht, Nat.log2_zero] at hplace
      omega
    refine ⟨ht, ?_⟩
    have hlog : (2 : ℚ) ^ (m.log2 : ℤ) ≤ x := by
      have : ((2 ^ m.log2 : ℕ) : ℚ) ≤ m := by exact_mod_cast Nat.log2_self_le hm
      rw [zpow_natCast]
      push_cast at this
      exact this.trans hx.floor.1
    rw [ht, show 52 + ((m.log2 : ℤ) + e - 52) = m.log2 + e by ring, two_zpow_add]
    exact mul_le_mul_of_nonneg_right hlog (two_zpow_pos e).le
  · exact .inl hright

theorem cut_lt (hx : Near m accuracy x) (hplace : e ≤ lastBit m e) :
    (cut m e accuracy).mantissa < 2 ^ 53 := by
  have hfloor := (near_cut hx hplace).floor.1
  have hupper : x * 2 ^ e / 2 ^ lastBit m e < 2 ^ (53 : ℤ) := by
    rw [div_lt_iff₀ (two_zpow_pos _), ← two_zpow_add]
    have hm : (m : ℚ) + 1 ≤ 2 ^ ((m.log2 : ℤ) + 1) := by
      have : m + 1 ≤ 2 ^ (m.log2 + 1) := Nat.lt_log2_self
      exact_mod_cast this
    have hexp : (m.log2 : ℤ) + 1 + e ≤ 53 + lastBit m e := by
      rw [lastBit]
      omega
    calc x * 2 ^ e < 2 ^ ((m.log2 : ℤ) + 1) * 2 ^ e :=
          mul_lt_mul_of_pos_right (hx.floor.2.trans_le hm) (two_zpow_pos e)
      _ = 2 ^ ((m.log2 : ℤ) + 1 + e) := (two_zpow_add _ _).symm
      _ ≤ 2 ^ (53 + lastBit m e) := two_zpow_le.mpr hexp
  have := hfloor.trans_lt hupper
  exact_mod_cast this

theorem roundWithAccuracy_eq (s : Sign) (hplace : e ≤ lastBit m e)
    (hle : (cut m e accuracy).roundedMantissa ≤ 2 ^ 53) :
    (roundWithAccuracy .binary64 s m e accuracy = .zero s ∧
        (cut m e accuracy).roundedMantissa = 0) ∨
    (∃ hpos, roundWithAccuracy .binary64 s m e accuracy =
        .finite s (cut m e accuracy).roundedMantissa (lastBit m e) hpos ∧
        (cut m e accuracy).roundedMantissa < 2 ^ 53) ∨
    (roundWithAccuracy .binary64 s m e accuracy =
        .finite s (2 ^ 52) (lastBit m e + 1) (by decide) ∧
        (cut m e accuracy).roundedMantissa = 2 ^ 53) := by
  have hlow : -1074 ≤ lastBit m e := le_max_right _ _
  have hfirst : shiftToTargetExponent .binary64 m e accuracy = (cut m e accuracy, lastBit m e) := by
    rw [shiftToTargetExponent, targetExponent_eq, shiftToExponent, cut]
    congr 1
    omega
  rw [roundWithAccuracy, hfirst]
  dsimp only
  rcases hle.lt_or_eq with hlt | heq
  · rw [shiftToTargetExponent_of_fits hlt hlow]
    by_cases hzero : (cut m e accuracy).roundedMantissa = 0
    · exact .inl ⟨dif_pos hzero, hzero⟩
    · exact .inr (.inl ⟨Nat.pos_of_ne_zero hzero, dif_neg hzero, hlt⟩)
  · rw [heq, shiftToTargetExponent_carry hlow]
    exact .inr (.inr ⟨rfl, rfl⟩)

/-- Rounding gives a rounded number next to the number. -/
theorem roundWithAccuracy_spec (s : Sign) (hx : Near m accuracy x) (hplace : e ≤ lastBit m e) :
    Wide (roundWithAccuracy .binary64 s m e accuracy) ∧
      Rounds (unit s * (x * 2 ^ e)) (valueOf (roundWithAccuracy .binary64 s m e accuracy)) := by
  obtain ⟨hclose, hmin, hmax⟩ := (near_cut hx hplace).rounded
  have hle : (cut m e accuracy).roundedMantissa ≤ 2 ^ 53 := hmax.trans (cut_lt hx hplace)
  have hlow : -1074 ≤ lastBit m e := le_max_right _ _
  have hunit := two_zpow_pos (lastBit m e)
  have hx0 : 0 ≤ x * 2 ^ e :=
    mul_nonneg ((Nat.cast_nonneg m).trans hx.floor.1) (two_zpow_pos e).le
  have hspec := lastBit_spec hx hplace
  have hrounds : Rounds (x * 2 ^ e) ((cut m e accuracy).roundedMantissa * 2 ^ lastBit m e) := by
    refine rounds_of_grid hx0 (hspec.imp_right And.right) ?_
    have hmul := mul_le_mul_of_nonneg_right hclose hunit.le
    rw [← abs_of_pos hunit, ← abs_mul, abs_of_pos hunit, sub_mul,
      div_mul_cancel₀ _ hunit.ne'] at hmul
    rw [div_eq_inv_mul, ← one_div]
    exact hmul
  have hfull : 2 ^ 52 ≤ (cut m e accuracy).roundedMantissa ∨ lastBit m e = -1074 := by
    rcases hspec with hleast | ⟨-, hbig⟩
    · exact .inr hleast
    · left
      refine le_trans ?_ hmin
      rw [two_zpow_add, ← le_div_iff₀ hunit] at hbig
      have := hbig.trans_lt (near_cut hx hplace).floor.2
      have : 2 ^ 52 < (cut m e accuracy).mantissa + 1 := by exact_mod_cast this
      omega
  have hsigned := hrounds.unit_mul s
  rcases roundWithAccuracy_eq s hplace hle with ⟨heq, hzero⟩ | ⟨hpos, heq, hlt⟩ | ⟨heq, hcarry⟩
  · rw [heq]
    rw [hzero, Nat.cast_zero, zero_mul, mul_zero] at hsigned
    exact ⟨trivial, hsigned⟩
  · rw [heq]
    exact ⟨⟨hlt, hlow, hfull⟩, hsigned⟩
  · rw [heq]
    refine ⟨⟨by norm_num, by omega, .inl le_rfl⟩, ?_⟩
    have hvalue : ((2 ^ 53 : ℕ) : ℚ) * 2 ^ lastBit m e =
        ((2 ^ 52 : ℕ) : ℚ) * 2 ^ (lastBit m e + 1) := by
      rw [two_zpow_add]
      push_cast
      ring
    rw [hcarry, hvalue] at hsigned
    exact hsigned

end Round

end Bitfrost.Lib.Binary64
