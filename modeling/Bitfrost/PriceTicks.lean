import Bitfrost.Convert
import Bitfrost.Lib.DoubleRound

/-!
`price_to_ticks` in exact terms. The conversion multiplies and divides in
doubles and forgives eight units of rounding; so it reads a price as a tick
when the two are within five units, refuses it when no tick is within eleven,
and never confuses two ticks.
-/

namespace Bitfrost

open Bitfrost.Lib
open Bitfrost.Lib.Binary64

/-! ## Rounding errors -/

/-- The price is `k` ticks, up to `c` roundings of the larger of the price and a tick. -/
def Within (c value tick k : ℚ) : Prop :=
  |value * 1000000 - k * tick| ≤ c * 2 ^ (-52 : ℤ) * max (value * 1000000) tick

section Errors

variable {N t X T S : ℚ}

theorem Rounds.bounds {x y : ℚ} (h : Rounds x y) (hx : 0 ≤ x) :
    y ≤ x + x / 2 ^ 53 + 1 / 2 ^ 100 ∧ x - x / 2 ^ 53 - 1 / 2 ^ 100 ≤ y := by
  have hclose := h.close
  have htiny : (2 : ℚ) ^ (-1075 : ℤ) ≤ 2 ^ (-100 : ℤ) := two_zpow_le.mpr (by norm_num)
  rw [abs_of_nonneg hx, abs_le] at hclose
  rw [show (2 : ℚ) ^ (-53 : ℤ) * x = x / 2 ^ 53 by rw [zpow_neg, div_eq_inv_mul]; rfl] at hclose
  rw [show (2 : ℚ) ^ (-100 : ℤ) = 1 / 2 ^ 100 by rw [zpow_neg, one_div]; rfl] at htiny
  constructor <;> linarith

/-- Three roundings move the quotient by less than two units. -/
theorem quotient_close (hN : 0 ≤ N) (ht : 1 ≤ t) (hX : Rounds N X) (hT : Rounds t T)
    (hS : Rounds (X / T) S) :
    0 ≤ S ∧ |S * t - N| ≤ 2 * 2 ^ (-52 : ℤ) * max N t := by
  have ht0 : 0 ≤ t := zero_le_one.trans ht
  have hX0 := hX.nonneg hN
  obtain ⟨hTu, hTl⟩ := Rounds.bounds hT ht0
  have hTpos : 0 < T := by linarith
  have hquot := div_nonneg hX0 hTpos.le
  have hS0 := hS.nonneg hquot
  obtain ⟨hXu, hXl⟩ := Rounds.bounds hX hN
  obtain ⟨hSu, hSl⟩ := Rounds.bounds hS hquot
  refine ⟨hS0, ?_⟩
  -- Everything is linear in `S * t` once the quotient is multiplied out.
  have hcancel : X / T * T = X := div_mul_cancel₀ X hTpos.ne'
  have hupper : S * T ≤ X + X / 2 ^ 53 + T / 2 ^ 100 := by
    calc S * T ≤ (X / T + X / T / 2 ^ 53 + 1 / 2 ^ 100) * T :=
          mul_le_mul_of_nonneg_right hSu hTpos.le
      _ = X / T * T + X / T * T / 2 ^ 53 + T / 2 ^ 100 := by ring
      _ = X + X / 2 ^ 53 + T / 2 ^ 100 := by rw [hcancel]
  have hlower : X - X / 2 ^ 53 - T / 2 ^ 100 ≤ S * T := by
    calc X - X / 2 ^ 53 - T / 2 ^ 100 = X / T * T - X / T * T / 2 ^ 53 - T / 2 ^ 100 := by
          rw [hcancel]
      _ = (X / T - X / T / 2 ^ 53 - 1 / 2 ^ 100) * T := by ring
      _ ≤ S * T := mul_le_mul_of_nonneg_right hSl hTpos.le
  have hscaledUp : S * T ≤ S * t + S * t / 2 ^ 53 + S / 2 ^ 100 := by
    have := mul_le_mul_of_nonneg_left hTu hS0
    linarith
  have hscaledDown : S * t - S * t / 2 ^ 53 - S / 2 ^ 100 ≤ S * T := by
    have := mul_le_mul_of_nonneg_left hTl hS0
    linarith
  have hSle : S ≤ S * t := le_mul_of_one_le_right hS0 ht
  have hunit : (2 : ℚ) * 2 ^ (-52 : ℤ) = 4 / 2 ^ 53 := by norm_num
  have hNM := le_max_left N t
  have htM := le_max_right N t
  rw [abs_le, hunit]
  generalize S * t = A at *
  generalize S * T = B at *
  generalize max N t = M at *
  clear hcancel hTpos hquot hSu hSl hS hX hT
  constructor <;> linarith

end Errors

/-! ## The conversion -/

section Conversion

variable {price : Float} {tickMicro : I128} {value S : ℚ}

theorem is_million : Is 1000000.0 1000000 := by
  have h : Is 1000000.0 ((8589934592000000 : ℕ) * 2 ^ (-33 : ℤ)) :=
    is_literal _ _ (by decide) rfl ⟨by norm_num, by norm_num, by norm_num, .inl (by norm_num)⟩
  have hvalue : ((8589934592000000 : ℕ) : ℚ) * 2 ^ (-33 : ℤ) = 1000000 := by norm_num
  rwa [hvalue] at h

theorem is_epsilon : Is f64Epsilon (2 ^ (-52 : ℤ)) :=
  is_power (-52) rfl (by norm_num) (by norm_num)

theorem is_eight : Is 8.0 (2 ^ (3 : ℤ)) := is_power 3 rfl (by norm_num) (by norm_num)

theorem is_top : Is 9223372036854775808.0 (2 ^ (63 : ℤ)) :=
  is_power 63 rfl (by norm_num) (by norm_num)

/-- Scaling by powers of two is exact here, since what is scaled is one at least. -/
theorem is_tolerance {x : Float} {a : ℚ} (hx : Is x a) (ha : 1 ≤ a) :
    Is (f64Epsilon * x * 8.0) (8 * 2 ^ (-52 : ℤ) * a) := by
  have hbound := hx.bounded
  have ha0 : 0 ≤ a := zero_le_one.trans ha
  rw [abs_of_nonneg ha0] at hbound
  have hscaled : ∀ k : ℤ, -1021 ≤ k → k < -1 →
      |a * 2 ^ k| < 2 ^ (1023 : ℤ) ∧ Representable (a * 2 ^ k) := by
    intro k hlow hhigh
    refine ⟨?_, hx.representable.mul_two_zpow (by rw [abs_of_nonneg ha0]; exact ha) hlow⟩
    rw [abs_of_nonneg (mul_nonneg ha0 (two_zpow_pos k).le)]
    calc a * 2 ^ k < 2 ^ (1024 : ℤ) * 2 ^ k := mul_lt_mul_of_pos_right hbound (two_zpow_pos k)
      _ = 2 ^ (1024 + k) := (two_zpow_add _ _).symm
      _ < 2 ^ (1023 : ℤ) := two_zpow_lt.mpr (by omega)
  have hfirst := is_epsilon.mul hx
  rw [mul_comm ((2 : ℚ) ^ (-52 : ℤ))] at hfirst
  obtain ⟨hsize, hexact⟩ := hscaled (-52) (by norm_num) (by norm_num)
  have hsecond := (hfirst.exact_ hsize hexact).mul is_eight
  rw [mul_assoc, ← two_zpow_add] at hsecond
  obtain ⟨hsize', hexact'⟩ := hscaled (-52 + 3) (by norm_num) (by norm_num)
  have hvalue : (8 : ℚ) * 2 ^ (-52 : ℤ) * a = a * 2 ^ (-52 + 3 : ℤ) := by
    rw [two_zpow_add]
    ring
  rw [hvalue]
  exact hsecond.exact_ hsize' hexact'

theorem exists_tick (ht : 0 < tickMicro.toInt) :
    ∃ T, Is (Float.ofInt tickMicro.toInt) T ∧ Rounds tickMicro.toInt T := by
  have htop := tickMicro.bounds.2
  generalize tickMicro.toInt = t at ht htop
  lift t to ℕ using ht.le
  rw [Int.cast_natCast]
  refine (result_ofNat (by omega)).of_lt ?_
  rw [abs_of_nonneg (Nat.cast_nonneg t)]
  calc (t : ℚ) < 2 ^ (127 : ℤ) := by exact_mod_cast htop
    _ ≤ 2 ^ (1023 : ℤ) := two_zpow_le.mpr (by norm_num)

/-- The price in ticks, before it is rounded. -/
def scaledPrice (price : Float) (tickMicro : I128) : Float :=
  price * 1000000.0 / Float.ofInt tickMicro.toInt

/-- The division gives a double next to the price in ticks, unless that is beyond all bounds. -/
theorem scaledPrice_cases (hp : Is price value) (hv : 0 < value) (ht : 0 < tickMicro.toInt) :
    (∃ S, Is (scaledPrice price tickMicro) S ∧ 0 ≤ S ∧
      |S * tickMicro.toInt - value * 1000000| ≤
        2 * 2 ^ (-52 : ℤ) * max (value * 1000000) tickMicro.toInt) ∨
    ((scaledPrice price tickMicro).isFinite = false ∧
      2 ^ 60 * (tickMicro.toInt : ℚ) ≤ value * 1000000) := by
  obtain ⟨T, hT, hTr⟩ := exists_tick ht
  have ht1 : (1 : ℚ) ≤ tickMicro.toInt := by exact_mod_cast ht
  have htop : (tickMicro.toInt : ℚ) < 2 ^ (127 : ℤ) := by exact_mod_cast tickMicro.bounds.2
  have hN : 0 ≤ value * 1000000 := by linarith
  obtain ⟨-, hTl⟩ := Rounds.bounds hTr (zero_le_one.trans ht1)
  have hThalf : (tickMicro.toInt : ℚ) / 2 ≤ T := by linarith
  have hTpos : 0 < T := by linarith
  rcases hp.mul is_million with ⟨X, hX, hXr⟩ | ⟨hlarge, hsize⟩
  · rcases hX.div hT hTpos.ne' with ⟨S, hS, hSr⟩ | ⟨hlarge, hsize⟩
    · obtain ⟨hS0, hclose⟩ := quotient_close hN ht1 hXr hTr hSr
      exact .inl ⟨S, hS, hS0, hclose⟩
    · refine .inr ⟨hlarge, ?_⟩
      have hX0 := hXr.nonneg hN
      obtain ⟨hXu, -⟩ := Rounds.bounds hXr hN
      rw [abs_of_nonneg (div_nonneg hX0 hTpos.le), le_div_iff₀ hTpos] at hsize
      have hscale : (2 : ℚ) ^ (63 : ℤ) * T ≤ X :=
        (mul_le_mul_of_nonneg_right (two_zpow_le.mpr (by norm_num)) hTpos.le).trans hsize
      clear hsize
      norm_num at hscale ⊢
      linarith
  · refine .inr ⟨isFinite_div hlarge hT, ?_⟩
    rw [abs_of_nonneg hN] at hsize
    have hscale : (2 : ℚ) ^ (187 : ℤ) ≤ value * 1000000 :=
      (two_zpow_le.mpr (by norm_num)).trans hsize
    clear hsize
    norm_num at hscale htop ⊢
    linarith

/-- What the conversion decides, given the price in ticks. -/
theorem priceToTicks_exits (symbol : String) (hp : Is price value) (hv : 0 < value)
    (ht : 0 < tickMicro.toInt) (hS : Is (scaledPrice price tickMicro) S) (hS0 : 0 ≤ S) :
    Exits (priceToTicks price tickMicro symbol)
      (fun ticks => ticks.toInt = ⌊S + 1 / 2⌋₊ ∧
        |S - (⌊S + 1 / 2⌋₊ : ℚ)| ≤ 8 * 2 ^ (-52 : ℤ) * max S 1)
      fun reason =>
        (reason = .offTick symbol (display price) ∧
          8 * 2 ^ (-52 : ℤ) * max S 1 < |S - (⌊S + 1 / 2⌋₊ : ℚ)|) ∨
        (reason = .arithmeticOverflow ∧ 2 ^ 63 ≤ ⌊S + 1 / 2⌋₊) := by
  have hround := hS.round hS0
  have hdist := (hS.sub_round hS0).abs
  have htolerance : Is (f64Epsilon * max (scaledPrice price tickMicro).abs 1.0 * 8.0)
      (8 * 2 ^ (-52 : ℤ) * max S 1) := by
    have hmax := hS.abs.max is_unit
    rw [abs_of_nonneg hS0] at hmax
    exact is_tolerance hmax (le_max_right S 1)
  unfold priceToTicks
  refine (exits_rejectIf ?_).bind fun _ _ => (exits_rejectIf ?_).bind fun _ _ =>
    (exits_rejectIf ?_).bind fun _ htol => (exits_rejectIf ?_).bind fun _ hsmall => ?_
  · rintro (hnot | hnonpos | htick)
    · exact absurd hp.isFinite hnot
    · exact absurd ((hp.le_iff is_zero).mp hnonpos) hv.not_ge
    · exact absurd (SInt.toInt_pos.mp ht) (not_lt.mpr htick)
  · exact fun hnot => absurd hround.isFinite hnot
  · exact fun hfar => .inl ⟨rfl, (htolerance.lt_iff hdist).mp hfar⟩
  · intro hlarge
    have := (is_top.le_iff hround).mp hlarge
    exact .inr ⟨rfl, by exact_mod_cast this⟩
  · have hclose := not_lt.mp (mt (htolerance.lt_iff hdist).mpr htol)
    have hbelow := not_le.mp (mt (is_top.le_iff hround).mpr hsmall)
    refine ⟨?_, hclose⟩
    show (SInt.wrap (toI64OfNonneg (Binary64.round (scaledPrice price tickMicro)))).toInt = _
    rw [hround.toI64OfNonneg hbelow]
    refine SInt.toInt_wrap_of_mem (by decide) (by omega) ?_
    exact_mod_cast hbelow

theorem priceToTicks_overflow (symbol : String)
    (h : (scaledPrice price tickMicro).isFinite = false) :
    priceToTicks price tickMicro symbol = .error (.malformedDecimal (display price)) := by
  have hround : (Binary64.round (scaledPrice price tickMicro)).isFinite = false := by
    rw [round_of_not_finite h]
    exact h
  rw [priceToTicks, bind_eq_error]
  by_cases hguard : ¬ price.isFinite ∨ price ≤ 0.0 ∨ tickMicro ≤ 0
  · exact .inl (rejectIf_eq_error.mpr ⟨hguard, rfl⟩)
  · refine .inr ⟨⟨⟩, rejectIf_of_not hguard, bind_eq_error.mpr (.inl ?_)⟩
    exact rejectIf_eq_error.mpr ⟨by rw [← scaledPrice, hround]; decide, rfl⟩

/-! ## In ticks

The bounds on the double carry over to the price, both ways. -/

section Scaled

variable {N t n : ℚ}

theorem scaled_sound (ht : 0 < t) (hclose : |S * t - N| ≤ 2 * 2 ^ (-52 : ℤ) * max N t)
    (hn : |S - n| ≤ 8 * 2 ^ (-52 : ℤ) * max S 1) :
    |N - n * t| ≤ 11 * 2 ^ (-52 : ℤ) * max N t := by
  have hmul := mul_le_mul_of_nonneg_right hn ht.le
  rw [← abs_of_pos ht, ← abs_mul, abs_of_pos ht, mul_assoc, max_mul_of_nonneg _ _ ht.le, one_mul,
    sub_mul] at hmul
  have hNM := le_max_left N t
  have htM := le_max_right N t
  rw [show (2 : ℚ) * 2 ^ (-52 : ℤ) = 2 / 2 ^ 52 by norm_num] at hclose
  rw [show (8 : ℚ) * 2 ^ (-52 : ℤ) = 8 / 2 ^ 52 by norm_num] at hmul
  rw [show (11 : ℚ) * 2 ^ (-52 : ℤ) = 11 / 2 ^ 52 by norm_num]
  rw [abs_le] at hclose hmul ⊢
  have hM : max (S * t) t ≤ max N t + 2 / 2 ^ 52 * max N t := max_le (by linarith) (by linarith)
  constructor <;> linarith

theorem scaled_complete (ht : 0 < t) (hclose : |S * t - N| ≤ 2 * 2 ^ (-52 : ℤ) * max N t)
    (hn : |N - n * t| ≤ 5 * 2 ^ (-52 : ℤ) * max N t) (hbound : n ≤ 2 ^ 46) :
    |S - n| < 1 / 2 ∧ |S - n| ≤ 8 * 2 ^ (-52 : ℤ) * max S 1 := by
  have hntop := mul_le_mul_of_nonneg_right hbound ht.le
  have hNM := le_max_left N t
  have htM := le_max_right N t
  rw [show (2 : ℚ) * 2 ^ (-52 : ℤ) = 2 / 2 ^ 52 by norm_num] at hclose
  rw [show (5 : ℚ) * 2 ^ (-52 : ℤ) = 5 / 2 ^ 52 by norm_num] at hn
  rw [abs_le] at hclose hn
  have hsmall : max N t ≤ 2 ^ 47 * t := by
    rcases max_cases N t with ⟨heq, hle⟩ | ⟨heq, hlt⟩
    · rw [heq] at hn hclose ⊢
      linarith
    · rw [heq]
      linarith
  have hdist : |S * t - n * t| ≤ 7 / 2 ^ 52 * max N t := by
    rw [abs_le]
    constructor <;> linarith
  have hback : max N t ≤ max (S * t) t + 1 / 8 * max (S * t) t := by
    have hleft := le_max_left (S * t) t
    have hright := le_max_right (S * t) t
    rcases max_cases N t with ⟨heq, hle⟩ | ⟨heq, hlt⟩
    · rw [heq] at hclose ⊢
      linarith
    · rw [heq]
      linarith
  rw [← sub_mul, abs_mul, abs_of_pos ht] at hdist
  constructor
  · refine lt_of_mul_lt_mul_right ?_ ht.le
    linarith
  · refine le_of_mul_le_mul_right ?_ ht
    rw [mul_assoc, max_mul_of_nonneg _ _ ht.le, one_mul,
      show (8 : ℚ) * 2 ^ (-52 : ℤ) = 8 / 2 ^ 52 by norm_num]
    linarith

theorem floor_half_of_close {n : ℕ} (h : |S - n| < 1 / 2) : ⌊S + 1 / 2⌋₊ = n := by
  rw [abs_lt] at h
  rw [Nat.floor_eq_iff (by have : (0 : ℚ) ≤ n := Nat.cast_nonneg n; linarith)]
  constructor <;> linarith

end Scaled

/-- How `price_to_ticks` reads a price: the tick it gives is within eleven roundings; every tick
within five is given; below `2 ^ 46` ticks only an off-tick price is refused; and from `2 ^ 50`
ticks on no price is off tick. -/
structure ReadsTicks (price : Float) (tickMicro : I128) (symbol : String) (value : ℚ) : Prop where
  sound : ∀ ticks, priceToTicks price tickMicro symbol = .ok ticks →
    0 ≤ ticks.toInt ∧ Within 11 value tickMicro.toInt ticks.toInt
  complete : ∀ k : ℕ, k ≤ 2 ^ 46 → Within 5 value tickMicro.toInt k →
    ∃ ticks, priceToTicks price tickMicro symbol = .ok ticks ∧ ticks.toInt = k
  refused : value * 1000000 < 2 ^ 46 * (tickMicro.toInt : ℚ) → ∀ reason,
    priceToTicks price tickMicro symbol = .error reason → reason = .offTick symbol (display price)
  blind : 2 ^ 50 * (tickMicro.toInt : ℚ) ≤ value * 1000000 →
    priceToTicks price tickMicro symbol ≠ .error (.offTick symbol (display price))

/-- Below `2 ^ 46` ticks the windows of two ticks do not meet. -/
theorem Within.unique {t : ℚ} (ht : 0 < t) {j k : ℕ} (hj : Within 11 value t j)
    (hk : Within 11 value t k) (hbound : j ≤ 2 ^ 46) : j = k := by
  rw [Within, show (11 : ℚ) * 2 ^ (-52 : ℤ) = 11 / 2 ^ 52 by norm_num] at hj hk
  have hjt := mul_le_mul_of_nonneg_right (show (j : ℚ) ≤ 2 ^ 46 by exact_mod_cast hbound) ht.le
  have hM : max (value * 1000000) t ≤ 2 ^ 47 * t := by
    rw [abs_le] at hj
    rcases max_cases (value * 1000000) t with ⟨heq, hle⟩ | ⟨heq, hlt⟩
    · rw [heq] at hj ⊢
      linarith
    · rw [heq]
      linarith
  have hdist : |((j - k : ℤ) : ℚ)| < 1 := by
    refine lt_of_mul_lt_mul_right ?_ ht.le
    rw [← abs_of_pos ht, ← abs_mul, abs_of_pos ht, one_mul]
    push_cast
    calc |((j : ℚ) - k) * t|
        = |(value * 1000000 - k * t) - (value * 1000000 - j * t)| := by
          congr 1
          ring
      _ ≤ |value * 1000000 - k * t| + |value * 1000000 - j * t| := abs_sub _ _
      _ < t := by linarith
  have hzero : |(j - k : ℤ)| < 1 := by exact_mod_cast hdist
  have := Int.abs_lt_one_iff.mp hzero
  omega

theorem ReadsTicks.of_scaled (symbol : String) (hp : Is price value) (hv : 0 < value)
    (ht : 0 < tickMicro.toInt) (hS : Is (scaledPrice price tickMicro) S) (hS0 : 0 ≤ S)
    (hclose : |S * tickMicro.toInt - value * 1000000| ≤
      2 * 2 ^ (-52 : ℤ) * max (value * 1000000) tickMicro.toInt) :
    ReadsTicks price tickMicro symbol value := by
  have ht' : (0 : ℚ) < tickMicro.toInt := by exact_mod_cast ht
  have hexits := priceToTicks_exits symbol hp hv ht hS hS0
  have hbounds := abs_le.mp (by
    rwa [show (2 : ℚ) * 2 ^ (-52 : ℤ) = 2 / 2 ^ 52 by norm_num] at hclose)
  refine ⟨fun ticks hok => ?_, fun k hk hwithin => ?_, fun hbound reason hreason => ?_,
    fun hbound hoff => ?_⟩
  · obtain ⟨hticks, hn⟩ := hexits.of_ok hok
    rw [hticks]
    refine ⟨by positivity, ?_⟩
    exact scaled_sound ht' hclose hn
  · obtain ⟨hhalf, hnear⟩ := scaled_complete ht' hclose hwithin (by exact_mod_cast hk)
    have hfloor := floor_half_of_close hhalf
    rw [hfloor] at hexits
    cases hresult : priceToTicks price tickMicro symbol with
    | ok ticks => exact ⟨ticks, rfl, (hexits.of_ok hresult).1⟩
    | error reason =>
      rcases hexits.of_error hresult with ⟨-, hfar⟩ | ⟨-, htop⟩
      · exact absurd hnear hfar.not_ge
      · omega
  · rcases hexits.of_error hreason with ⟨rfl, -⟩ | ⟨-, htop⟩
    · rfl
    · exfalso
      have hfloor := Nat.floor_le (by linarith : 0 ≤ S + 1 / 2)
      have htop' : (2 : ℚ) ^ 63 ≤ (⌊S + 1 / 2⌋₊ : ℚ) := by exact_mod_cast htop
      have hS' : (2 : ℚ) ^ 62 ≤ S := by linarith
      have := mul_le_mul_of_nonneg_right hS' ht'.le
      have hM : max (value * 1000000) (tickMicro.toInt : ℚ) ≤ 2 ^ 46 * tickMicro.toInt :=
        max_le hbound.le (by linarith)
      linarith
  · rcases hexits.of_error hoff with ⟨-, hfar⟩ | ⟨hreason, -⟩
    · have hM : max (value * 1000000) (tickMicro.toInt : ℚ) = value * 1000000 :=
        max_eq_left (by linarith)
      rw [hM] at hbounds
      have hS' : (2 : ℚ) ^ 49 ≤ S := by
        refine le_of_mul_le_mul_right ?_ ht'
        linarith
      have hhalf := abs_sub_floor_half hS0
      have hmax := le_max_left S 1
      rw [show (8 : ℚ) * 2 ^ (-52 : ℤ) = 8 / 2 ^ 52 by norm_num] at hfar
      linarith
    · cases hreason

/-- A price whose quotient is not finite is far above all ticks that can be read. -/
theorem ReadsTicks.of_overflow (symbol : String) (ht : 0 < tickMicro.toInt)
    (hlarge : (scaledPrice price tickMicro).isFinite = false)
    (hsize : 2 ^ 60 * (tickMicro.toInt : ℚ) ≤ value * 1000000) :
    ReadsTicks price tickMicro symbol value := by
  have ht' : (0 : ℚ) < tickMicro.toInt := by exact_mod_cast ht
  have herror := priceToTicks_overflow symbol hlarge
  refine ⟨fun ticks hok => ?_, fun k hk hwithin => ?_, fun hbound => ?_, fun _ hoff => ?_⟩
  · rw [herror] at hok
    cases hok
  · exfalso
    rw [Within, show (5 : ℚ) * 2 ^ (-52 : ℤ) = 5 / 2 ^ 52 by norm_num, abs_le] at hwithin
    have hk' := mul_le_mul_of_nonneg_right (show (k : ℚ) ≤ 2 ^ 46 by exact_mod_cast hk) ht'.le
    have hM : max (value * 1000000) (tickMicro.toInt : ℚ) = value * 1000000 :=
      max_eq_left (by linarith)
    rw [hM] at hwithin
    linarith
  · exfalso
    linarith
  · rw [herror] at hoff
    cases hoff

theorem ReadsTicks.of_is (symbol : String) (hp : Is price value) (hv : 0 < value)
    (ht : 0 < tickMicro.toInt) : ReadsTicks price tickMicro symbol value := by
  rcases scaledPrice_cases hp hv ht with ⟨S, hS, hS0, hclose⟩ | ⟨hlarge, hsize⟩
  · exact .of_scaled symbol hp hv ht hS hS0 hclose
  · exact .of_overflow symbol ht hlarge hsize

end Conversion

/-- Every finite positive price is read so, against every positive tick; and the price is next to
one tick at most, so what is read does not depend on the rounding. -/
theorem price_to_ticks_reads (price : Float) (tickMicro : I128) (symbol : String)
    (hfinite : price.isFinite = true) (hpos : 0.0 < price) (ht : 0 < tickMicro.toInt) :
    ReadsTicks price tickMicro symbol (toRat price) ∧
      ∀ j k : ℕ, j ≤ 2 ^ 46 → Within 11 (toRat price) tickMicro.toInt j →
        Within 11 (toRat price) tickMicro.toInt k → j = k :=
  have hp := is_toRat hfinite
  ⟨.of_is symbol hp ((is_zero.lt_iff hp).mp hpos) ht, fun _ _ hbound hj hk =>
    Within.unique (by exact_mod_cast ht) hj hk hbound⟩

theorem is_noisy : Is 0.6350000000000001 ((5719571526760531 : ℕ) * 2 ^ (-53 : ℤ)) :=
  is_literal _ _ (by decide) rfl ⟨by norm_num, by norm_num, by norm_num, .inl (by norm_num)⟩

/-- A price that is one unit off its tick is read as the tick. -/
theorem price_to_ticks_reads_noisy :
    ∃ ticks, priceToTicks 0.6350000000000001 100 "DEM24" = .ok ticks ∧ ticks.toInt = 6350 := by
  have hpos : (0.0 : Float) < 0.6350000000000001 := (is_zero.lt_iff is_noisy).mpr (by norm_num)
  have hreads := (price_to_ticks_reads 0.6350000000000001 100 "DEM24" is_noisy.isFinite hpos
    (by decide)).1
  rw [is_noisy.toRat_eq] at hreads
  refine hreads.complete 6350 (by norm_num) ?_
  have htick : (100 : I128).toInt = 100 := by decide
  rw [Within, htick]
  norm_num

end Bitfrost
