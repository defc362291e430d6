import Bitfrost.Lib.Rounding

/-!
Arithmetic on `Float`. A finite double has a rational value; packing keeps it;
and the operations round the exact result, unless it is too large.
-/

namespace Bitfrost.Lib.Binary64

open Float.Model Float.Model.UnpackedFloat

/-! ## Packing -/

/-- The three fields of a double. -/
abbrev signOf (b : BitVec 64) : BitVec 1 := @unpackSign Format.binary64 b

abbrev exponentOf (b : BitVec 64) : BitVec 11 := @unpackExponent Format.binary64 b

abbrev mantissaOf (b : BitVec 64) : BitVec 52 := @unpackMantissa Format.binary64 b

theorem signOf_packComponents (s : Sign) (exponent : BitVec 11) (mantissa : BitVec 52) :
    signOf (packComponents Format.binary64 s exponent mantissa) = s.toBitVec := by
  apply BitVec.eq_of_getLsbD_eq
  intro i hi
  obtain rfl : i = 0 := by omega
  have : ((s.toBitVec ++ exponent ++ mantissa).getLsbD 63) = s.toBitVec.getLsbD 0 := by
    rw [BitVec.getLsbD_append, BitVec.getLsbD_append]
    rfl
  simpa [unpackSign, packComponents, -BitVec.getLsbD_eq_getElem] using this

theorem ofBitVec_toBitVec (s : Sign) : Sign.ofBitVec s.toBitVec = s := by
  cases s <;> rfl

theorem toNat_implicit_append (mantissa : BitVec 52) :
    (1#1 ++ mantissa).toNat = 2 ^ 52 + mantissa.toNat := by
  rw [BitVec.toNat_append, ← Nat.shiftLeft_add_eq_or_of_lt mantissa.isLt]
  rfl

/-- The biased exponent of a double that fits is neither of the two special ones. -/
theorem biased_bounds {e : ℤ} (hlow : -1074 ≤ e) (hhigh : e ≤ 971) :
    0 < (e + 1023 + 52).toNat ∧ (e + 1023 + 52).toNat + 1 < 2 ^ 11 ∧
      ((e + 1023 + 52).toNat : ℤ) = e + 1075 := by
  omega

theorem unpack_pack_normal (s : Sign) {m : ℕ} {e : ℤ} (hm : 0 < m) (hbits : m < 2 ^ 53)
    (hfull : 2 ^ 52 ≤ m) (hlow : -1074 ≤ e) (hhigh : e ≤ 971) :
    (Float.Model.pack (.finite s m e hm)).unpack = .finite s m e hm := by
  obtain ⟨hpos, htop, hcast⟩ := biased_bounds hlow hhigh
  have hlog : m.log2 + 1 = 53 := by
    rw [(Nat.log2_eq_iff hm.ne').mpr ⟨hfull, hbits⟩]
  have hnat : (BitVec.ofNat 11 (e + 1023 + 52).toNat).toNat = (e + 1023 + 52).toNat := by
    rw [BitVec.toNat_ofNat, Nat.mod_eq_of_lt (by omega)]
  have hzero : BitVec.ofNat 11 (e + 1023 + 52).toNat ≠ 0#11 := by
    intro h
    have := congrArg BitVec.toNat h
    rw [hnat] at this
    simp only [BitVec.toNat_ofNat] at this
    omega
  have hones : BitVec.ofNat 11 (e + 1023 + 52).toNat ≠ -1#11 := by
    intro h
    have := congrArg BitVec.toNat h
    rw [hnat] at this
    have : (-1#11).toNat = 2047 := by decide
    omega
  have hmantissa : (1#1 ++ BitVec.ofNat 52 m).toNat = m := by
    rw [toNat_implicit_append, BitVec.toNat_ofNat]
    omega
  have hpack : UnpackedFloat.pack .binary64 (.finite s m e hm) =
      packComponents .binary64 s (BitVec.ofNat 11 (e + 1023 + 52).toNat) (BitVec.ofNat 52 m) := by
    show (if 2 ^ 11 ≤ (e + 1023 + 52).toNat + 1 then _ else if m.log2 + 1 = 53 then _ else _) = _
    rw [if_neg (by omega), if_pos hlog]
    rfl
  show UnpackedFloat.unpack .binary64 (UnpackedFloat.pack .binary64 (.finite s m e hm)) = _
  rw [hpack, UnpackedFloat.unpack]
  simp only [unpackExponent_packComponents, unpackMantissa_packComponents,
    signOf_packComponents, ofBitVec_toBitVec]
  rw [if_neg hones, if_neg hzero]
  congr 1
  rw [hnat, hcast]
  show e + 1075 - (1023 + 52) = e
  ring

theorem unpack_pack_subnormal (s : Sign) {m : ℕ} (hm : 0 < m) (hbits : m < 2 ^ 52) :
    (Float.Model.pack (.finite s m (-1074) hm)).unpack = .finite s m (-1074) hm := by
  have hlog : m.log2 + 1 ≠ 53 := by
    have := (Nat.log2_lt hm.ne').mpr hbits
    omega
  have hnat : (BitVec.ofNat 52 m).toNat = m := by
    rw [BitVec.toNat_ofNat, Nat.mod_eq_of_lt hbits]
  have hne : BitVec.ofNat 52 m ≠ 0#52 := by
    intro h
    have := congrArg BitVec.toNat h
    rw [hnat] at this
    simp only [BitVec.toNat_ofNat] at this
    omega
  have hpack : UnpackedFloat.pack .binary64 (.finite s m (-1074) hm) =
      packComponents .binary64 s 0#11 (BitVec.ofNat 52 m) := by
    rw [UnpackedFloat.pack]
    exact (if_neg (by decide)).trans (if_neg hlog)
  show UnpackedFloat.unpack .binary64 (UnpackedFloat.pack .binary64 (.finite s m (-1074) hm)) = _
  rw [hpack, UnpackedFloat.unpack]
  simp only [unpackExponent_packComponents, unpackMantissa_packComponents,
    signOf_packComponents, ofBitVec_toBitVec]
  rw [if_neg (by decide), if_pos trivial, dif_neg hne]
  congr 1

/-- Packing keeps what fits. -/
theorem unpack_pack {u : UnpackedFloat} (h : Fits u) : (Float.Model.pack u).unpack = u := by
  cases u with
  | infinity s => exact h.elim
  | notANumber => exact h.elim
  | zero s => cases s <;> rfl
  | finite s m e hm =>
    obtain ⟨hbits, hlow, hhigh, hfull⟩ := h
    by_cases hnormal : 2 ^ 52 ≤ m
    · exact unpack_pack_normal s hm hbits hnormal hlow hhigh
    · obtain rfl := hfull.resolve_left hnormal
      exact unpack_pack_subnormal s hm (not_le.mp hnormal)

/-- A rounded number that does not fit is packed as an infinity. -/
theorem unpack_pack_large {s : Sign} {m : ℕ} {e : ℤ} {hm : 0 < m} (h : 971 < e) :
    (Float.Model.pack (.finite s m e hm)).unpack = .infinity s := by
  have hpack : UnpackedFloat.pack .binary64 (.finite s m e hm) = packedInfinity .binary64 s := by
    show (if 2 ^ 11 ≤ (e + 1023 + 52).toNat + 1 then _ else if m.log2 + 1 = 53 then _ else _) = _
    rw [if_pos (by omega)]
  show UnpackedFloat.unpack .binary64 (UnpackedFloat.pack .binary64 (.finite s m e hm)) = _
  rw [hpack]
  cases s <;> rfl

/-- What unpacking gives fits, unless it is an infinity or not a number. -/
theorem fits_unpack {x : Float.Model} (h : x.isFinite = true) : Fits x.unpack := by
  have hfinite : x.unpack.isFinite = true := h
  generalize hu : x.unpack = u at hfinite
  cases u with
  | infinity s => cases hfinite
  | notANumber => cases hfinite
  | zero s => trivial
  | finite s m e hm =>
    rw [Float.Model.unpack, UnpackedFloat.unpack] at hu
    have hmantissa := (mantissaOf x.toBits.toBitVec).isLt
    have hexponent := (exponentOf x.toBits.toBitVec).isLt
    dsimp only at hu
    split at hu
    · split at hu <;> cases hu
    · next hones =>
      have hbelow : (exponentOf x.toBits.toBitVec).toNat ≠ 2047 :=
        fun h => hones (BitVec.eq_of_toNat_eq h)
      split at hu
      · next hzero =>
        split at hu
        · cases hu
        · cases hu
          rw [hzero]
          refine ⟨?_, ?_, ?_, .inr ?_⟩ <;> norm_num [Format.exponentBias] at hmantissa ⊢
          omega
      · next hzero =>
        have habove : (exponentOf x.toBits.toBitVec).toNat ≠ 0 :=
          fun h => hzero (BitVec.eq_of_toNat_eq h)
        have himplicit := toNat_implicit_append (mantissaOf x.toBits.toBitVec)
        have hshape : (1#1 ++ mantissaOf x.toBits.toBitVec).toNat < 2 ^ 53 ∧
            -1074 ≤ ((exponentOf x.toBits.toBitVec).toNat : ℤ) - (1023 + 52) ∧
            ((exponentOf x.toBits.toBitVec).toNat : ℤ) - (1023 + 52) ≤ 971 ∧
            2 ^ 52 ≤ (1#1 ++ mantissaOf x.toBits.toBitVec).toNat := by
          rw [himplicit]
          norm_num at hmantissa hexponent ⊢
          omega
        cases hu
        exact ⟨hshape.1, hshape.2.1, hshape.2.2.1, .inl hshape.2.2.2⟩

/-! ## Values -/

/-- The value of a finite double. -/
def toRat (x : Float) : ℚ := valueOf x.toModel.unpack

/-- The double is finite and its value is `a`. -/
structure Is (x : Float) (a : ℚ) : Prop where
  fits : Fits x.toModel.unpack
  value : valueOf x.toModel.unpack = a

variable {x y : Float} {a b : ℚ}

theorem is_toRat (h : x.isFinite = true) : Is x (toRat x) := ⟨fits_unpack h, rfl⟩

theorem Is.toRat_eq (h : Is x a) : toRat x = a := h.value

theorem Is.isFinite (h : Is x a) : x.isFinite = true := by
  have hfits := h.fits
  show x.toModel.unpack.isFinite = true
  generalize x.toModel.unpack = u at hfits
  cases u with
  | infinity s => exact hfits.elim
  | notANumber => exact hfits.elim
  | zero s => rfl
  | finite s m e hm => rfl

theorem Is.representable (h : Is x a) : Representable a := h.value ▸ representable_valueOf h.fits

theorem Is.bounded (h : Is x a) : |a| < 2 ^ (1024 : ℤ) := by
  have hfits := h.fits
  rw [← h.value]
  generalize x.toModel.unpack = u at hfits
  have hpos := two_zpow_pos 1024
  cases u with
  | infinity s => exact hfits.elim
  | notANumber => exact hfits.elim
  | zero s => simp [valueOf]
  | finite s m e hm =>
    obtain ⟨hbits, -, hhigh, -⟩ := hfits
    have hm' : (m : ℚ) < 2 ^ (53 : ℤ) := by exact_mod_cast hbits
    rw [valueOf, abs_mul, abs_unit, one_mul, abs_of_pos (by positivity)]
    calc (m : ℚ) * 2 ^ e < 2 ^ (53 : ℤ) * 2 ^ e := mul_lt_mul_of_pos_right hm' (two_zpow_pos e)
      _ = 2 ^ (53 + e) := (two_zpow_add _ _).symm
      _ ≤ 2 ^ (1024 : ℤ) := two_zpow_le.mpr (by omega)

theorem is_pack {u : UnpackedFloat} (h : Fits u) :
    Is (.ofModel (Float.Model.pack u)) (valueOf u) where
  fits := by
    show Fits (Float.Model.pack u).unpack
    rw [unpack_pack h]
    exact h
  value := by
    show valueOf (Float.Model.pack u).unpack = valueOf u
    rw [unpack_pack h]

/-- `x` is what an operation makes of the exact result `a`: a double next to it, or not finite
when it is too large. -/
def Result (x : Float) (a : ℚ) : Prop :=
  (∃ c, Is x c ∧ Rounds a c) ∨ (x.isFinite = false ∧ 2 ^ (1023 : ℤ) ≤ |a|)

theorem Result.of_lt (h : Result x a) (hsize : |a| < 2 ^ (1023 : ℤ)) : ∃ c, Is x c ∧ Rounds a c :=
  h.resolve_right fun hlarge => absurd hsize hlarge.2.not_gt

/-- Of a double, the result is exact. -/
theorem Result.exact_ (h : Result x a) (hsize : |a| < 2 ^ (1023 : ℤ)) (ha : Representable a) :
    Is x a := by
  obtain ⟨c, hc, hrounds⟩ := h.of_lt hsize
  rwa [hrounds.exact_ ha] at hc

theorem large_of_close {bound : ℚ} (h : |b - a| ≤ 1 / 2 * |a| + 1) (hb : 2 * bound ≤ |b|)
    (hbound : 2 ≤ bound) : bound ≤ |a| := by
  have htriangle := abs_sub_abs_le_abs_sub b a
  linarith

theorem result_pack {u : UnpackedFloat} (hu : Wide u) (h : Rounds a (valueOf u)) :
    Result (.ofModel (Float.Model.pack u)) a := by
  cases u with
  | infinity s => exact hu.elim
  | notANumber => exact hu.elim
  | zero s => exact .inl ⟨_, is_pack trivial, h⟩
  | finite s m e hm =>
    obtain ⟨hbits, hlow, hfull⟩ := hu
    rcases le_or_gt e 971 with hle | hgt
    · exact .inl ⟨_, is_pack ⟨hbits, hlow, hle, hfull⟩, h⟩
    · refine .inr ⟨?_, ?_⟩
      · show (Float.Model.pack (.finite s m e hm)).unpack.isFinite = false
        rw [unpack_pack_large hgt]
        rfl
      · -- The value is `2 ^ 1024` at least, and rounding moved it by less than half of that.
        have hm' : (2 : ℚ) ^ (52 : ℤ) ≤ m := by exact_mod_cast hfull.resolve_right (by omega)
        have hvalue : (2 : ℚ) ^ (1024 : ℤ) ≤ |valueOf (.finite s m e hm)| := by
          rw [valueOf, abs_mul, abs_unit, one_mul, abs_of_pos (by positivity)]
          calc (2 : ℚ) ^ (1024 : ℤ) ≤ 2 ^ (52 + e) := two_zpow_le.mpr (by omega)
            _ = 2 ^ (52 : ℤ) * 2 ^ e := two_zpow_add _ _
            _ ≤ m * 2 ^ e := mul_le_mul_of_nonneg_right hm' (two_zpow_pos e).le
        refine large_of_close ?_ ((mul_comm _ _).trans (two_zpow_add 1023 1).symm ▸ hvalue) ?_
        · have hu : (2 : ℚ) ^ (-53 : ℤ) * |a| ≤ 1 / 2 * |a| :=
            mul_le_mul_of_nonneg_right (by norm_num) (abs_nonneg a)
          have hrest : (2 : ℚ) ^ (-1075 : ℤ) ≤ 2 ^ (0 : ℤ) := two_zpow_le.mpr (by norm_num)
          exact h.close.trans (add_le_add hu (by rwa [zpow_zero] at hrest))
        · have : (2 : ℚ) ^ (1 : ℤ) ≤ 2 ^ (1023 : ℤ) := two_zpow_le.mpr (by norm_num)
          rwa [zpow_one] at this

/-! ## Comparison -/

theorem magnitude_pos {m : ℕ} (hm : 0 < m) (e : ℤ) : (0 : ℚ) < m * 2 ^ e :=
  mul_pos (by exact_mod_cast hm) (two_zpow_pos e)

/-- Of doubles that fit, the one with the greater exponent is the greater. -/
theorem magnitude_lt {m m' : ℕ} {e e' : ℤ} (hbits : m < 2 ^ 53) (hlow : -1074 ≤ e)
    (hfull : 2 ^ 52 ≤ m' ∨ e' = -1074) (he : e < e') : (m : ℚ) * 2 ^ e < m' * 2 ^ e' := by
  have hm' : (2 : ℚ) ^ (52 : ℤ) ≤ m' := by exact_mod_cast hfull.resolve_right (by omega)
  have hm : (m : ℚ) < 2 ^ (53 : ℤ) := by exact_mod_cast hbits
  calc (m : ℚ) * 2 ^ e < 2 ^ (53 : ℤ) * 2 ^ e := mul_lt_mul_of_pos_right hm (two_zpow_pos e)
    _ = 2 ^ (53 + e) := (two_zpow_add _ _).symm
    _ ≤ 2 ^ (52 + e') := two_zpow_le.mpr (by omega)
    _ = 2 ^ (52 : ℤ) * 2 ^ e' := two_zpow_add _ _
    _ ≤ m' * 2 ^ e' := mul_le_mul_of_nonneg_right hm' (two_zpow_pos e').le

theorem compare_magnitude {s s' : Sign} {m m' : ℕ} {e e' : ℤ} {hm : 0 < m} {hm' : 0 < m'}
    (h : Fits (.finite s m e hm)) (h' : Fits (.finite s' m' e' hm')) :
    (compare e e').then (compare m m') = compare ((m : ℚ) * 2 ^ e) (m' * 2 ^ e') := by
  obtain ⟨hbits, hlow, -, hfull⟩ := h
  obtain ⟨hbits', hlow', -, hfull'⟩ := h'
  rcases lt_trichotomy e e' with hlt | rfl | hgt
  · rw [compare_lt_iff_lt.mpr hlt, compare_lt_iff_lt.mpr (magnitude_lt hbits hlow hfull' hlt)]
    rfl
  · rw [compare_eq_iff_eq.mpr rfl]
    have hpos := two_zpow_pos e
    rcases lt_trichotomy m m' with hlt | rfl | hgt
    · have hlt' : (m : ℚ) < m' := by exact_mod_cast hlt
      rw [compare_lt_iff_lt.mpr hlt, compare_lt_iff_lt.mpr (mul_lt_mul_of_pos_right hlt' hpos)]
      rfl
    · rw [compare_eq_iff_eq.mpr rfl, compare_eq_iff_eq.mpr rfl]
      rfl
    · have hgt' : (m' : ℚ) < m := by exact_mod_cast hgt
      rw [compare_gt_iff_gt.mpr hgt, compare_gt_iff_gt.mpr (mul_lt_mul_of_pos_right hgt' hpos)]
      rfl
  · rw [compare_gt_iff_gt.mpr hgt, compare_gt_iff_gt.mpr (magnitude_lt hbits' hlow' hfull hgt)]
    rfl

theorem compare_neg (a b : ℚ) : compare (-a) (-b) = (compare a b).swap := by
  rcases lt_trichotomy a b with hlt | rfl | hgt
  · rw [compare_lt_iff_lt.mpr hlt, compare_gt_iff_gt.mpr (neg_lt_neg hlt)]
    rfl
  · rw [compare_eq_iff_eq.mpr rfl, compare_eq_iff_eq.mpr rfl]
    rfl
  · rw [compare_gt_iff_gt.mpr hgt, compare_lt_iff_lt.mpr (neg_lt_neg hgt)]
    rfl

/-- Doubles compare as their values do. -/
theorem compare_of_fits {u v : UnpackedFloat} (hu : Fits u) (hv : Fits v) :
    u.compare v = some (compare (valueOf u) (valueOf v)) := by
  cases u with
  | infinity s => exact hu.elim
  | notANumber => exact hu.elim
  | zero s =>
    cases v with
    | infinity s' => exact hv.elim
    | notANumber => exact hv.elim
    | zero s' => rfl
    | finite s' m' e' hm' =>
      have hpos := magnitude_pos hm' e'
      cases s' with
      | negative => exact congrArg some (compare_gt_iff_gt.mpr (by simpa [valueOf, unit])).symm
      | positive => exact congrArg some (compare_lt_iff_lt.mpr (by simpa [valueOf, unit])).symm
  | finite s m e hm =>
    have hpos := magnitude_pos hm e
    cases v with
    | infinity s' => exact hv.elim
    | notANumber => exact hv.elim
    | zero s' =>
      cases s with
      | negative => exact congrArg some (compare_lt_iff_lt.mpr (by simpa [valueOf, unit])).symm
      | positive => exact congrArg some (compare_gt_iff_gt.mpr (by simpa [valueOf, unit])).symm
    | finite s' m' e' hm' =>
      have hpos' := magnitude_pos hm' e'
      have hmagnitude := compare_magnitude hu hv
      cases s <;> cases s' <;> simp only [valueOf, unit, neg_one_mul, one_mul]
      · rw [compare_neg, ← hmagnitude]
        rfl
      · exact congrArg some (compare_lt_iff_lt.mpr (by linarith)).symm
      · exact congrArg some (compare_gt_iff_gt.mpr (by linarith)).symm
      · rw [← hmagnitude]
        rfl

theorem Is.lt_iff (hx : Is x a) (hy : Is y b) : x < y ↔ a < b := by
  have hcompare := compare_of_fits hx.fits hy.fits
  rw [hx.value, hy.value] at hcompare
  show decide (UnpackedFloat.lt x.toModel.unpack y.toModel.unpack = true) = true ↔ _
  rw [decide_eq_true_iff, UnpackedFloat.lt, hcompare]
  simp [compare_lt_iff_lt]

theorem Is.le_iff (hx : Is x a) (hy : Is y b) : x ≤ y ↔ a ≤ b := by
  have hcompare := compare_of_fits hx.fits hy.fits
  rw [hx.value, hy.value] at hcompare
  show decide (UnpackedFloat.le x.toModel.unpack y.toModel.unpack = true) = true ↔ _
  rw [decide_eq_true_iff, UnpackedFloat.le, hcompare]
  simp [← compare_le_iff_le, Ordering.isLE_iff_ne_gt]

theorem Is.max (hx : Is x a) (hy : Is y b) : Is (max x y) (max a b) := by
  show Is (if x ≤ y then y else x) _
  split
  · next hle =>
    rw [max_eq_right ((hx.le_iff hy).mp hle)]
    exact hy
  · next hle =>
    rw [max_eq_left (not_le.mp (mt (hx.le_iff hy).mpr hle)).le]
    exact hx

theorem Is.abs (hx : Is x a) : Is x.abs |a| := by
  have habs : Fits x.toModel.unpack.abs ∧ valueOf x.toModel.unpack.abs = |a| := by
    have hfits := hx.fits
    rw [← hx.value]
    generalize x.toModel.unpack = u at hfits
    cases u with
    | infinity s => exact hfits.elim
    | notANumber => exact hfits.elim
    | zero s => exact ⟨trivial, by simp [UnpackedFloat.abs, valueOf]⟩
    | finite s m e hm =>
      refine ⟨hfits, ?_⟩
      rw [valueOf, abs_mul, abs_unit, abs_of_pos (magnitude_pos hm e)]
      rfl
  rw [← habs.2]
  exact is_pack habs.1

end Bitfrost.Lib.Binary64
