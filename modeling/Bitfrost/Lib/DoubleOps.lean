import Bitfrost.Lib.Doubles

/-!
The four operations, conversion from integers, and truncation.
-/

namespace Bitfrost.Lib.Binary64

open Float.Model Float.Model.UnpackedFloat

variable {x y : Float} {a b : ℚ}

/-! ## Multiplication and division -/

theorem unit_mul (s s' : Sign) : unit (s * s') = unit s * unit s' := by
  cases s <;> cases s' <;> norm_num [unit]

theorem unit_div (s s' : Sign) : unit (s / s') = unit s * unit s' := by
  cases s <;> cases s' <;> norm_num [unit] <;> rfl

theorem rounds_self (a : ℚ) : Rounds a a := by
  refine ⟨?_, mul_self_nonneg a, fun _ => rfl⟩
  rw [sub_self, abs_zero]
  have := two_zpow_pos (-1075)
  have := two_zpow_pos (-53)
  positivity

/-- The product of two doubles has its last bit in place. -/
theorem mul_place {m m' : ℕ} {e e' : ℤ} (hm : 0 < m) (hm' : 0 < m')
    (hfull : 2 ^ 52 ≤ m ∨ e = -1074) (hfull' : 2 ^ 52 ≤ m' ∨ e' = -1074) :
    e + e' ≤ lastBit (m * m') (e + e') := by
  have hbig : ∀ k : ℕ, 2 ^ 52 ≤ k → k ≤ m * m' → 52 ≤ (m * m').log2 := fun k hk hle =>
    (Nat.le_log2 (Nat.mul_pos hm hm').ne').mpr (hk.trans hle)
  rw [lastBit]
  rcases hfull with hfull | rfl
  · have := hbig m hfull (Nat.le_mul_of_pos_right m hm')
    omega
  · rcases hfull' with hfull' | rfl
    · have := hbig m' hfull' (Nat.le_mul_of_pos_left m' hm)
      omega
    · omega

theorem Is.mul (hx : Is x a) (hy : Is y b) : Result (x * y) (a * b) := by
  have hmul : Wide (UnpackedFloat.mul .binary64 x.toModel.unpack y.toModel.unpack) ∧
      Rounds (a * b) (valueOf (UnpackedFloat.mul .binary64 x.toModel.unpack y.toModel.unpack)) := by
    have hu := hx.fits
    have hv := hy.fits
    rw [← hx.value, ← hy.value]
    generalize x.toModel.unpack = u at hu
    generalize y.toModel.unpack = v at hv
    have hzero : ∀ s : Sign, Wide (.zero s) ∧ Rounds 0 (valueOf (.zero s)) :=
      fun s => ⟨trivial, rounds_self 0⟩
    cases u with
    | infinity s => exact hu.elim
    | notANumber => exact hu.elim
    | zero s =>
      rw [show valueOf (.zero s) = 0 from rfl, zero_mul]
      cases v with
      | infinity s' => exact hv.elim
      | notANumber => exact hv.elim
      | zero s' => exact hzero _
      | finite s' m' e' hm' => exact hzero _
    | finite s m e hm =>
      cases v with
      | infinity s' => exact hv.elim
      | notANumber => exact hv.elim
      | zero s' =>
        rw [show valueOf (.zero s') = 0 from rfl, mul_zero]
        exact hzero _
      | finite s' m' e' hm' =>
        have hvalue : valueOf (.finite s m e hm) * valueOf (.finite s' m' e' hm') =
            unit (s * s') * (((m * m' : ℕ) : ℚ) * 2 ^ (e + e')) := by
          rw [unit_mul, valueOf, valueOf, two_zpow_add]
          push_cast
          ring
        rw [hvalue]
        exact roundWithAccuracy_spec (s * s') (near_exact _)
          (mul_place hm hm' hu.2.2.2 hv.2.2.2)
  exact result_pack hmul.1 hmul.2

/-- Long division brings down enough bits. -/
theorem divCore_spec {m m' : ℕ} (e e' : ℤ) (hm : 0 < m) (hm' : 0 < m') :
    ∃ x : ℚ, Near (divCore .binary64 m e m' e').1 (divCore .binary64 m e m' e').2.2 x ∧
      (divCore .binary64 m e m' e').2.1 ≤
        lastBit (divCore .binary64 m e m' e').1 (divCore .binary64 m e m' e').2.1 ∧
      x * 2 ^ (divCore .binary64 m e m' e').2.1 = m * 2 ^ e / (m' * 2 ^ e') := by
  generalize hdigit : min (e - e')
    (Format.binary64.targetExponent (totalExponent m e - totalExponent m' e')) = digit
  have hcore : divCore .binary64 m e m' e' = (m <<< (e - e' - digit).toNat / m', digit,
      accuracyOfFraction (m <<< (e - e' - digit).toNat % m') m') := by
    rw [← hdigit]
    rfl
  rw [hcore]
  refine ⟨_, near_accuracyOfFraction _ hm', ?_, ?_⟩
  · have htarget : Format.binary64.targetExponent (totalExponent m e - totalExponent m' e') =
        max (m.log2 + e - (m'.log2 + e') - 53) (-1074) := by
      simp only [Format.targetExponent, totalExponent, Format.mantissaBits, Format.minExponent]
      norm_num
      ring_nf
    rw [htarget] at hdigit
    show digit ≤ lastBit (m <<< (e - e' - digit).toNat / m') digit
    rw [lastBit]
    by_cases hleast : digit ≤ -1074
    · omega
    -- Above the least exponent the quotient has at least 53 bits.
    have hlarge : 2 ^ 52 ≤ m <<< (e - e' - digit).toNat / m' := by
      rw [Nat.le_div_iff_mul_le hm', Nat.shiftLeft_eq]
      calc 2 ^ 52 * m' ≤ 2 ^ 52 * 2 ^ (m'.log2 + 1) :=
            Nat.mul_le_mul_left _ Nat.lt_log2_self.le
        _ = 2 ^ (52 + (m'.log2 + 1)) := (Nat.pow_add _ _ _).symm
        _ ≤ 2 ^ (m.log2 + (e - e' - digit).toNat) := Nat.pow_le_pow_right (by decide) (by omega)
        _ = 2 ^ m.log2 * 2 ^ (e - e' - digit).toNat := Nat.pow_add _ _ _
        _ ≤ m * 2 ^ (e - e' - digit).toNat :=
            Nat.mul_le_mul_right _ (Nat.log2_self_le hm.ne')
    have := (Nat.le_log2 (by positivity : 0 < _).ne').mpr hlarge
    omega
  · have hshift : (2 : ℚ) ^ (e - e' - digit).toNat * 2 ^ digit = 2 ^ e / 2 ^ e' := by
      rw [← zpow_natCast, Int.toNat_of_nonneg (by omega), ← two_zpow_add, sub_add_cancel,
        zpow_sub₀ (by norm_num)]
    rw [Nat.shiftLeft_eq]
    push_cast
    rw [div_mul_eq_mul_div, mul_assoc, hshift, mul_div_mul_comm]
    ring

theorem Is.div (hx : Is x a) (hy : Is y b) (hb : b ≠ 0) : Result (x / y) (a / b) := by
  have hdiv : Wide (UnpackedFloat.div .binary64 x.toModel.unpack y.toModel.unpack) ∧
      Rounds (a / b) (valueOf (UnpackedFloat.div .binary64 x.toModel.unpack y.toModel.unpack)) := by
    have hu := hx.fits
    have hv := hy.fits
    rw [← hx.value, ← hy.value]
    rw [← hy.value] at hb
    generalize x.toModel.unpack = u at hu
    generalize y.toModel.unpack = v at hv hb
    cases v with
    | infinity s' => exact hv.elim
    | notANumber => exact hv.elim
    | zero s' => exact absurd rfl hb
    | finite s' m' e' hm' =>
      cases u with
      | infinity s => exact hu.elim
      | notANumber => exact hu.elim
      | zero s =>
        rw [show valueOf (.zero s) = 0 from rfl, zero_div]
        exact ⟨trivial, rounds_self 0⟩
      | finite s m e hm =>
        obtain ⟨q, hnear, hplace, hq⟩ := divCore_spec e e' hm hm'
        have hvalue : valueOf (.finite s m e hm) / valueOf (.finite s' m' e' hm') =
            unit (s / s') * (q * 2 ^ (divCore .binary64 m e m' e').2.1) := by
          rw [hq, unit_div, valueOf, valueOf, mul_div_mul_comm]
          congr 1
          rw [div_eq_iff (by cases s' <;> norm_num [unit]), mul_assoc, unit_mul_self, mul_one]
        rw [hvalue]
        exact roundWithAccuracy_spec (s / s') hnear hplace
  exact result_pack hdiv.1 hdiv.2

/-! ## Addition and subtraction -/

theorem log2_shiftLeft {m : ℕ} (hm : 0 < m) (n : ℕ) : (m <<< n).log2 = m.log2 + n := by
  have hlow := Nat.mul_le_mul_right (2 ^ n) (Nat.log2_self_le hm.ne')
  have hhigh := Nat.mul_lt_mul_of_pos_right (Nat.lt_log2_self (n := m)) (Nat.two_pow_pos n)
  rw [← Nat.pow_add] at hlow hhigh
  rw [Nat.shiftLeft_eq, Nat.log2_eq_iff (by positivity)]
  exact ⟨hlow, by rwa [Nat.add_right_comm]⟩

/-- Bringing the exponent down to `t` keeps the number. -/
theorem shiftLeft_value (m : ℕ) {e t : ℤ} (h : t ≤ e) :
    ((m <<< (e - t).toNat : ℕ) : ℚ) * 2 ^ t = m * 2 ^ e := by
  rw [Nat.shiftLeft_eq]
  push_cast
  rw [mul_assoc, ← zpow_natCast, ← two_zpow_add, Int.toNat_of_nonneg (by omega), sub_add_cancel]

theorem round_spec (s : Sign) {m : ℕ} {e : ℤ} (hm : 0 < m) :
    Wide (UnpackedFloat.round .binary64 s m e) ∧
      Rounds (unit s * (m * 2 ^ e)) (valueOf (UnpackedFloat.round .binary64 s m e)) := by
  have hround : UnpackedFloat.round .binary64 s m e = roundWithAccuracy .binary64 s
      (m <<< (e - lastBit m e).toNat) (e - (e - lastBit m e).toNat) .exact := by
    rw [UnpackedFloat.round, targetExponent_eq]
    rfl
  have hvalue : ((m <<< (e - lastBit m e).toNat : ℕ) : ℚ) * 2 ^ (e - (e - lastBit m e).toNat) =
      m * 2 ^ e := by
    have hexact := shiftLeft_value m (show e - ((e - lastBit m e).toNat : ℤ) ≤ e by omega)
    rwa [sub_sub_cancel, Int.toNat_natCast] at hexact
  rw [hround, ← hvalue]
  refine roundWithAccuracy_spec s (near_exact _) ?_
  rw [lastBit, lastBit, log2_shiftLeft hm]
  omega

theorem normalize_spec (k e : ℤ) (zeroSign : Sign) :
    Wide (UnpackedFloat.normalize .binary64 k e zeroSign) ∧
      Rounds (k * 2 ^ e) (valueOf (UnpackedFloat.normalize .binary64 k e zeroSign)) := by
  rcases lt_trichotomy k 0 with hneg | rfl | hpos
  · have hcast : (((-k).toNat : ℕ) : ℚ) = -k := by
      exact_mod_cast Int.toNat_of_nonneg (by omega : 0 ≤ -k)
    have hround := round_spec .negative (m := (-k).toNat) (e := e) (by omega)
    rw [hcast] at hround
    have hnormalize : UnpackedFloat.normalize .binary64 k e zeroSign =
        UnpackedFloat.round .binary64 .negative (-k).toNat e := by
      rw [UnpackedFloat.normalize, compare_lt_iff_lt.mpr hneg]
    rw [hnormalize, show (k : ℚ) * 2 ^ e = unit .negative * (-k * 2 ^ e) by rw [unit]; ring]
    exact hround
  · have hnormalize : UnpackedFloat.normalize .binary64 0 e zeroSign = .zero zeroSign := by
      rw [UnpackedFloat.normalize, compare_eq_iff_eq.mpr rfl]
    rw [hnormalize, Int.cast_zero, zero_mul]
    exact ⟨trivial, rounds_self 0⟩
  · have hcast : ((k.toNat : ℕ) : ℚ) = k := by
      exact_mod_cast Int.toNat_of_nonneg hpos.le
    have hround := round_spec .positive (m := k.toNat) (e := e) (by omega)
    rw [hcast] at hround
    have hnormalize : UnpackedFloat.normalize .binary64 k e zeroSign =
        UnpackedFloat.round .binary64 .positive k.toNat e := by
      rw [UnpackedFloat.normalize, compare_gt_iff_gt.mpr hpos]
    rw [hnormalize, show (k : ℚ) * 2 ^ e = unit .positive * (k * 2 ^ e) by rw [unit]; ring]
    exact hround

theorem cast_apply (s : Sign) (n : ℕ) : ((s.apply n : ℤ) : ℚ) = unit s * n := by
  cases s <;> simp [Sign.apply, unit]

theorem unit_neg (s : Sign) : unit (-s) = -unit s := by
  cases s <;> norm_num [unit]

theorem Is.sub (hx : Is x a) (hy : Is y b) : Result (x - y) (a - b) := by
  have hsub : Wide (UnpackedFloat.sub .binary64 x.toModel.unpack y.toModel.unpack) ∧
      Rounds (a - b) (valueOf (UnpackedFloat.sub .binary64 x.toModel.unpack y.toModel.unpack)) := by
    have hu := hx.fits
    have hv := hy.fits
    rw [← hx.value, ← hy.value]
    generalize x.toModel.unpack = u at hu
    generalize y.toModel.unpack = v at hv
    cases u with
    | infinity s => exact hu.elim
    | notANumber => exact hu.elim
    | zero s =>
      rw [show valueOf (.zero s) = 0 from rfl, zero_sub]
      cases v with
      | infinity s' => exact hv.elim
      | notANumber => exact hv.elim
      | zero s' =>
        rw [show valueOf (.zero s') = 0 from rfl, neg_zero]
        cases s <;> cases s' <;> exact ⟨trivial, rounds_self 0⟩
      | finite s' m' e' hm' =>
        rw [valueOf, ← neg_mul, ← unit_neg]
        exact ⟨hv.wide, rounds_self _⟩
    | finite s m e hm =>
      cases v with
      | infinity s' => exact hv.elim
      | notANumber => exact hv.elim
      | zero s' =>
        rw [show valueOf (.zero s') = 0 from rfl, sub_zero]
        exact ⟨hu.wide, rounds_self _⟩
      | finite s' m' e' hm' =>
        -- Both mantissas are brought to the smaller exponent.
        have hvalue : valueOf (.finite s m e hm) - valueOf (.finite s' m' e' hm') =
            ((s.apply (m <<< (e - min e e').toNat : ℕ) -
              s'.apply (m' <<< (e' - min e e').toNat : ℕ) : ℤ) : ℚ) * 2 ^ min e e' := by
          rw [Int.cast_sub, cast_apply, cast_apply, sub_mul, mul_assoc, mul_assoc,
            shiftLeft_value m (min_le_left e e'), shiftLeft_value m' (min_le_right e e'),
            valueOf, valueOf]
        rw [hvalue]
        exact normalize_spec _ _ .positive
  exact result_pack hsub.1 hsub.2

/-- Adding to a number that is not zero; the code adds nothing else. -/
theorem Is.add (hx : Is x a) (hy : Is y b) (hb : b ≠ 0) : Result (x + y) (a + b) := by
  have hadd : Wide (UnpackedFloat.add .binary64 x.toModel.unpack y.toModel.unpack) ∧
      Rounds (a + b) (valueOf (UnpackedFloat.add .binary64 x.toModel.unpack y.toModel.unpack)) := by
    have hu := hx.fits
    have hv := hy.fits
    rw [← hy.value] at hb
    rw [← hx.value, ← hy.value]
    generalize x.toModel.unpack = u at hu
    generalize y.toModel.unpack = v at hv hb
    cases v with
    | infinity s' => exact hv.elim
    | notANumber => exact hv.elim
    | zero s' => exact absurd rfl hb
    | finite s' m' e' hm' =>
      cases u with
      | infinity s => exact hu.elim
      | notANumber => exact hu.elim
      | zero s =>
        rw [show valueOf (.zero s) = 0 from rfl, zero_add]
        exact ⟨hv.wide, rounds_self _⟩
      | finite s m e hm =>
        have hvalue : valueOf (.finite s m e hm) + valueOf (.finite s' m' e' hm') =
            ((s.apply (m <<< (e - min e e').toNat : ℕ) +
              s'.apply (m' <<< (e' - min e e').toNat : ℕ) : ℤ) : ℚ) * 2 ^ min e e' := by
          rw [Int.cast_add, cast_apply, cast_apply, add_mul, mul_assoc, mul_assoc,
            shiftLeft_value m (min_le_left e e'), shiftLeft_value m' (min_le_right e e'),
            valueOf, valueOf]
        rw [hvalue]
        exact normalize_spec _ _ .positive
  exact result_pack hadd.1 hadd.2

/-! ## Integers -/

theorem representable_natCast {n : ℕ} (h : n < 2 ^ 53) : Representable n :=
  ⟨n, 0, by rw [abs_of_nonneg (by positivity)]; exact_mod_cast h, by norm_num, by simp⟩

theorem result_toFloat (n : UInt64) : Result n.toFloat n.toNat := by
  have hspec := normalize_spec n.toNat 0 .positive
  rw [zpow_zero, mul_one, Int.cast_natCast] at hspec
  exact result_pack hspec.1 hspec.2

theorem is_toFloat {n : UInt64} (h : n.toNat < 2 ^ 53) : Is n.toFloat n.toNat := by
  refine (result_toFloat n).exact_ ?_ (representable_natCast h)
  rw [abs_of_nonneg (Nat.cast_nonneg _)]
  calc (n.toNat : ℚ) < 2 ^ (53 : ℤ) := by exact_mod_cast h
    _ ≤ 2 ^ (1023 : ℤ) := two_zpow_le.mpr (by norm_num)

theorem is_one : Is (Float.ofBits 0x3FF0000000000000) 1 := by
  have hunpack : (Float.ofBits 0x3FF0000000000000).toModel.unpack =
      .finite .positive (2 ^ 52) (-52) (by decide) := rfl
  refine ⟨?_, ?_⟩
  · rw [hunpack]
    exact ⟨by norm_num, by norm_num, by norm_num, .inl le_rfl⟩
  · rw [hunpack]
    norm_num [valueOf, unit]

/-- The slow path of a numeral: the bits are moved down so that the product rounds. -/
theorem result_ofScientific {n : ℕ} (hn : 0 < n) :
    Result (.ofModel (Float.Model.ofScientific n 0)) n := by
  have hmul : UnpackedFloat.ofScientific .binary64 n 0 =
      roundWithAccuracy .binary64 .positive (n <<< 53) (-53) .exact := by
    rw [UnpackedFloat.ofScientific, dif_neg hn.ne', if_neg (by norm_num), if_neg (by norm_num),
      if_pos le_rfl]
    show roundWithAccuracy .binary64 .positive (n <<< 53 * 1) (-53 + 0) .exact = _
    rw [mul_one, add_zero]
  have hvalue : ((n <<< 53 : ℕ) : ℚ) * 2 ^ (-53 : ℤ) = n := by
    have := shiftLeft_value n (show (-53 : ℤ) ≤ 0 by norm_num)
    rwa [zpow_zero, mul_one] at this
  have hspec := roundWithAccuracy_spec .positive (near_exact (n <<< 53))
    (show (-53 : ℤ) ≤ lastBit (n <<< 53) (-53) by rw [lastBit, log2_shiftLeft hn]; omega)
  rw [hvalue, ← hmul, unit, one_mul] at hspec
  exact result_pack hspec.1 hspec.2

theorem result_ofNat {n : ℕ} (hn : 0 < n) : Result (Float.ofNat n) n := by
  show Result (Float.ofScientific n false 0) n
  by_cases hsmall : n < 2 ^ 53
  · have hnat : n.toUInt64.toNat = n := by
      show n % 2 ^ 64 = n
      omega
    have hfast : Float.ofScientific n false 0 =
        n.toUInt64.toFloat * Float.ofBits 0x3FF0000000000000 := by
      rw [Float.ofScientific, dif_pos ⟨hsmall, by norm_num⟩]
      rfl
    have hmul := (is_toFloat (by rwa [hnat])).mul is_one
    rwa [hnat, mul_one, ← hfast] at hmul
  · have hslow : Float.ofScientific n false 0 = .ofModel (Float.Model.ofScientific n 0) := by
      rw [Float.ofScientific, dif_neg (fun h => hsmall h.1)]
      rfl
    rw [hslow]
    exact result_ofScientific hn

/-- Truncation of a double that is not negative. -/
theorem toInt_eq_floor {u : UnpackedFloat} (h : Fits u) (hu : 0 ≤ valueOf u) (low high : ℤ) :
    (u.toInt low high).toNat = ⌊valueOf u⌋₊ := by
  cases u with
  | infinity s => exact h.elim
  | notANumber => exact h.elim
  | zero s =>
    rw [show valueOf (.zero s) = 0 from rfl, Nat.floor_zero]
    rfl
  | finite s m e hm =>
    have hpos := magnitude_pos hm e
    cases s with
    | negative =>
      rw [valueOf, unit] at hu
      linarith
    | positive =>
      have hnear := (near_ofMantissaAndAccuracy (near_exact (m <<< (e - 0).toNat))).shiftRight
        (0 - (e - (e - 0).toNat)).toNat
      have hvalue : ((m <<< (e - 0).toNat : ℕ) : ℚ) / 2 ^ (0 - (e - (e - 0).toNat)).toNat =
          m * 2 ^ e := by
        rw [div_eq_iff (by positivity), Nat.shiftLeft_eq, mul_assoc, ← zpow_natCast,
          ← two_zpow_add]
        push_cast
        rw [← zpow_natCast]
        congr 2
        omega
      rw [hvalue] at hnear
      show _ = ⌊unit .positive * ((m : ℚ) * 2 ^ e)⌋₊
      rw [unit, one_mul, eq_comm, Nat.floor_eq_iff hpos.le]
      exact hnear.floor

theorem Is.toUInt64 (hx : Is x a) (ha : 0 ≤ a) (htop : a < 2 ^ (64 : ℤ)) :
    x.toUInt64.toNat = ⌊a⌋₊ := by
  have hfloor : ⌊a⌋₊ < UInt64.size := by
    rw [Nat.floor_lt ha]
    exact_mod_cast htop
  have htrunc := toInt_eq_floor hx.fits (by rwa [hx.value]) 0 (UInt64.size - 1)
  rw [hx.value] at htrunc
  show (UInt64.ofNatClamp (x.toModel.unpack.toInt 0 (UInt64.size - 1)).toNat).toNat = _
  rw [htrunc, UInt64.ofNatClamp_eq_ofNat _ hfloor]
  exact Nat.mod_eq_of_lt hfloor

end Bitfrost.Lib.Binary64
