import Bitfrost.Lib.Printing
import Bitfrost.PmWire
import Bitfrost.Wire

/-!
The texts of the generator (`fixtures.rs`) and the boundary that reads them
back. A scaled integer is printed with a point and padded digits; the parser
returns it exactly, unless it was negative with a fraction, where the text is
no number.
-/

namespace Bitfrost

open Bitfrost.Lib
open Bitfrost.Lib.Binary64

/-! ## The texts -/

def formatScaled (value : I128) (decimals : UInt32) : String :=
  let factor : I128 := SInt.wrap (10 ^ decimals.toNat)
  let whole := value / factor
  let fraction := value % factor
  let width := decimals.toNat
  toString whole.toInt ++ "." ++ padded width fraction.toInt

def ticksToPxString (symbol : String) (ticks : I64) : String :=
  if symbol = "BTC-PERP" then formatScaled (ticks.toI128 * 5) 1
  else formatScaled (ticks.toI128 * 5) 2

def lotsToQtyString (symbol : String) (lots : I64) : String :=
  if symbol = "BTC-PERP" then formatScaled lots.toI128 4 else formatScaled lots.toI128 3

def microToFeeString (micro : I128) : String := formatScaled micro 6

/-- `price_ticks as f64 / 10_000.0`. -/
def ticksToPrice (priceTicks : I64) : Float := Float.ofInt priceTicks.toInt / 10000.0

/-! ## Reading them back -/

section Text

variable {value : I128} {decimals : UInt32}

/-- The two halves of the text, as integers. -/
theorem toList_formatScaled (value : I128) (hd : decimals.toNat ≤ 38) :
    (formatScaled value decimals).toList =
      (toString (value.toInt.tdiv (10 ^ decimals.toNat))).toList ++
        '.' :: (padded decimals.toNat (value.toInt.tmod (10 ^ decimals.toNat))).toList := by
  have hpow : (10 : ℤ) ^ decimals.toNat ≤ 10 ^ 38 := pow_le_pow_right₀ (by decide) hd
  have hpos : (0 : ℤ) < 10 ^ decimals.toNat := by positivity
  have hfactor : (SInt.wrap (10 ^ decimals.toNat) : I128).toInt = 10 ^ decimals.toNat :=
    SInt.toInt_wrap_of_mem (by decide) (by norm_num; omega) (by norm_num at hpow ⊢; omega)
  obtain ⟨hdiv, hmod⟩ := SInt.toInt_tdiv_of_pos (a := value) (by decide) (hfactor.symm ▸ hpos)
  rw [hfactor] at hdiv hmod
  simp [formatScaled, hdiv, hmod]

theorem trim_of_no_space {text : List Char} (h : ∀ c ∈ text, isWhitespace c = false) :
    trim text = text := by
  have hfront : ∀ l : List Char, (∀ c ∈ l, isWhitespace c = false) →
      l.dropWhile isWhitespace = l := by
    intro l hl
    cases l with
    | nil => rfl
    | cons c l => rw [List.dropWhile_cons_of_neg (by rw [hl c List.mem_cons_self]; decide)]
  rw [trim, hfront text h, hfront _ fun c hc => h c (List.mem_reverse.mp hc), List.reverse_reverse]

theorem isWhitespace_of_isDigit {c : Char} (h : c.isDigit = true) : isWhitespace c = false := by
  obtain ⟨hlo, hhi⟩ := isDigit_iff.mp h
  simp only [isWhitespace, Bool.or_eq_false_iff, Bool.and_eq_false_iff, decide_eq_false_iff_not]
  omega

theorem trim_formatScaled (value : I128) (hd : decimals.toNat ≤ 38) :
    trim (formatScaled value decimals).toList = (formatScaled value decimals).toList := by
  refine trim_of_no_space fun c hc => ?_
  rw [toList_formatScaled value hd, toList_toString] at hc
  simp only [List.mem_append, List.mem_cons] at hc
  rcases hc with (hsign | hdigit) | rfl | hrest
  · split at hsign
    · rw [List.mem_singleton.mp hsign]
      rfl
    · cases hsign
  · exact isWhitespace_of_isDigit (Nat.isDigit_of_mem_toDigits (by decide) (by decide) hdigit)
  · rfl
  · rcases mem_padded hrest with rfl | hdigit
    · rfl
    · exact isWhitespace_of_isDigit hdigit

/-- The text is a number when nothing stands after the point but digits. -/
def Printable (value : I128) (decimals : UInt32) : Prop :=
  0 ≤ value.toInt ∨ (10 : ℤ) ^ decimals.toNat ∣ value.toInt

theorem Printable.rest_nonneg (h : Printable value decimals) :
    0 ≤ value.toInt.tmod (10 ^ decimals.toNat) ∧
      (value.toInt.tdiv (10 ^ decimals.toNat) < 0 →
        value.toInt.tmod (10 ^ decimals.toNat) = 0) := by
  have hpos : (0 : ℤ) < 10 ^ decimals.toNat := by positivity
  rcases h with hnonneg | hdvd
  · exact ⟨Int.tmod_nonneg _ hnonneg, fun hneg =>
      absurd hneg (Int.tdiv_nonneg hnonneg hpos.le).not_gt⟩
  · have hzero := Int.tmod_eq_zero_of_dvd hdvd
    exact ⟨hzero.ge, fun _ => hzero⟩

/-- The fraction in its field, as a number. -/
theorem numeral_field {width n : Nat} (hn : n < 10 ^ width) :
    (numeral (digitsTo width n) : ℚ) / 10 ^ (digitsTo width n).length = n / 10 ^ width := by
  rw [numeral_digitsTo]
  rcases Nat.eq_zero_or_pos width with rfl | hw
  · obtain rfl : n = 0 := by
      rw [pow_zero] at hn
      omega
    rw [Nat.cast_zero, zero_div, zero_div]
  · rw [length_digitsTo hw hn]

theorem Printable.denotes (h : Printable value decimals) (hd : decimals.toNat ≤ 38) :
    Denotes (formatScaled value decimals) (value.toInt / 10 ^ decimals.toNat) := by
  have hpos : (0 : ℤ) < 10 ^ decimals.toNat := by positivity
  have hsplit := Int.tmod_add_mul_tdiv value.toInt (10 ^ decimals.toNat)
  have hlt := Int.tmod_lt_of_pos value.toInt hpos
  obtain ⟨hrest, hwhole⟩ := h.rest_nonneg
  have htext := toList_formatScaled value hd
  generalize value.toInt.tmod (10 ^ decimals.toNat) = r at *
  generalize value.toInt.tdiv (10 ^ decimals.toNat) = w at *
  lift r to ℕ using hrest
  rw [toList_toString, toList_padded_nat] at htext
  let x : Decimal :=
    { negative := decide (w < 0)
      whole := Nat.toDigits 10 w.natAbs
      frac := digitsTo decimals.toNat r
      whole_digits := fun c hc => Nat.isDigit_of_mem_toDigits (by decide) (by decide) hc
      frac_digits := fun c hc => isDigit_of_mem_digitsTo hc
      nonempty := fun hnil => Nat.toDigits_ne_nil (List.append_eq_nil_iff.mp hnil).1 }
  have hmagnitude : x.magnitude = w.natAbs + r / 10 ^ decimals.toNat := by
    have hnumeral : numeral (Nat.toDigits 10 w.natAbs) = w.natAbs := by
      rw [← digitsTo_zero, numeral_digitsTo]
    rw [Decimal.magnitude, numeral_field (by exact_mod_cast hlt), hnumeral]
  refine ⟨x, ?_, ?_⟩
  · rw [trim_formatScaled value hd]
    exact .inr (by rw [htext, Decimal.sign, List.append_assoc]; simp [x])
  · have hten : (10 : ℚ) ^ decimals.toNat ≠ 0 := by positivity
    rw [Decimal.value, hmagnitude, ← hsplit]
    push_cast
    by_cases hneg : w < 0
    · have habs : ((w.natAbs : ℤ) : ℚ) = -w := by
        exact_mod_cast Int.ofNat_natAbs_of_nonpos hneg.le
      have hr : (r : ℚ) = 0 := by exact_mod_cast hwhole hneg
      rw [if_pos (by simpa [x] using hneg), hr, ← Int.cast_natCast, habs]
      field_simp
      ring
    · have habs : ((w.natAbs : ℤ) : ℚ) = w := by
        exact_mod_cast Int.natAbs_of_nonneg (not_lt.mp hneg)
      rw [if_neg (by simpa [x] using hneg), ← Int.cast_natCast, habs]
      field_simp
      ring

/-- A negative number with a fraction prints a minus after the point. -/
theorem formatScaled_of_not_printable (hd : decimals.toNat ≤ 38)
    (h : ¬ Printable value decimals) :
    ∃ digits, digits ≠ [] ∧ (∀ c ∈ digits, c.isDigit = true) ∧
      (formatScaled value decimals).toList =
        (toString (value.toInt.tdiv (10 ^ decimals.toNat))).toList ++ '.' :: '-' :: digits := by
  rw [Printable, not_or, not_le] at h
  have hneg : value.toInt.tmod (10 ^ decimals.toNat) < 0 := by
    have hle := Int.tmod_nonneg (10 ^ decimals.toNat) (neg_nonneg.mpr h.1.le)
    rw [Int.neg_tmod] at hle
    exact lt_of_le_of_ne (by omega) fun hzero => h.2 (Int.dvd_of_tmod_eq_zero hzero)
  rw [toList_formatScaled value hd, toList_padded_neg _ hneg]
  exact ⟨_, digitsTo_ne_nil _ _, fun c => isDigit_of_mem_digitsTo, rfl⟩

/-- That is no decimal. -/
theorem printable_of_denotes (hd : decimals.toNat ≤ 38) {q : ℚ}
    (h : Denotes (formatScaled value decimals) q) : Printable value decimals := by
  by_contra hnot
  obtain ⟨digits, -, -, htext⟩ := formatScaled_of_not_printable hd hnot
  obtain ⟨x, hx, -⟩ := h
  rw [trim_formatScaled value hd, htext, toList_toString, spells_iff] at hx
  generalize value.toInt.tdiv (10 ^ decimals.toNat) = w at *
  have hdigits : ∀ c ∈ Nat.toDigits 10 w.natAbs, c.isDigit = true := fun c hc =>
    Nat.isDigit_of_mem_toDigits (by decide) (by decide) hc
  have hstrip : (stripMinus (((if w < 0 then ['-'] else []) ++ Nat.toDigits 10 w.natAbs) ++
      '.' :: '-' :: digits)).2 = Nat.toDigits 10 w.natAbs ++ '.' :: '-' :: digits := by
    split
    · rfl
    · rw [List.nil_append, stripMinus_unsigned hdigits (by simp)]
  rw [hstrip, (splitPoint_digits hdigits).2 _] at hx
  have hfrac : '-' :: digits = x.frac := congrArg Prod.snd hx.2
  exact absurd (x.frac_digits '-' (hfrac ▸ List.mem_cons_self)) (by decide)

theorem point_notMem_toString (n : ℤ) : '.' ∉ (toString n).toList := by
  rw [toList_toString, List.mem_append]
  rintro (hsign | hdigit)
  · split at hsign
    · exact absurd (List.mem_singleton.mp hsign) (by decide)
    · cases hsign
  · have := @Nat.isDigit_of_mem_toDigits 10 n.natAbs '.' (by decide) (by decide) hdigit
    exact absurd this (by decide)

theorem point_notMem_padded (width : Nat) (n : ℤ) : '.' ∉ (padded width n).toList := by
  intro hpoint
  rcases mem_padded hpoint with hminus | hdigit
  · exact absurd hminus (by decide)
  · exact absurd hdigit (by decide)

/-- Distinct numbers print distinct texts, the malformed ones included. -/
theorem formatScaled_inj (hd : decimals.toNat ≤ 38) {value' : I128}
    (h : formatScaled value decimals = formatScaled value' decimals) : value = value' := by
  have htext := congrArg String.toList h
  rw [toList_formatScaled value hd, toList_formatScaled value' hd,
    List.append_cons_inj_of_notMem (point_notMem_toString _) (point_notMem_padded _ _)] at htext
  have hwhole := Int.repr_injective (String.toList_inj.mp htext.1)
  have hrest := padded_injective _ (String.toList_inj.mp htext.2.2)
  have hsplit := Int.tmod_add_mul_tdiv value.toInt (10 ^ decimals.toNat)
  have hsplit' := Int.tmod_add_mul_tdiv value'.toInt (10 ^ decimals.toNat)
  rw [hwhole, hrest, hsplit'] at hsplit
  exact SInt.toInt_inj.mp hsplit.symm

theorem parseFixed_formatScaled (value : I128) (hd : decimals.toNat ≤ 38) (scale : UInt32)
    (v : I128) :
    parseFixed (formatScaled value decimals) scale = .ok v ↔ Printable value decimals ∧
      value.toInt * 10 ^ scale.toNat = v.toInt * 10 ^ decimals.toNat ∧
      |v.toInt| ≤ 2 ^ 127 - 1 := by
  have hten : (10 : ℚ) ^ decimals.toNat ≠ 0 := by positivity
  have hscale : (value.toInt : ℚ) / 10 ^ decimals.toNat * 10 ^ scale.toNat = v.toInt ↔
      value.toInt * 10 ^ scale.toNat = v.toInt * 10 ^ decimals.toNat := by
    rw [div_mul_eq_mul_div, div_eq_iff hten]
    norm_cast
  constructor
  · intro h
    obtain ⟨q, hq⟩ := exists_denotes h
    have hprintable := printable_of_denotes hd hq
    rw [(hprintable.denotes hd).parseFixed_eq_ok, hscale] at h
    exact ⟨hprintable, h⟩
  · rintro ⟨hprintable, h⟩
    rwa [(hprintable.denotes hd).parseFixed_eq_ok, hscale]

end Text

/-- Printing and parsing. The parser reads a printed number back at any scale, exactly and only
when that is a whole number the machine holds; a negative number with a fraction prints a minus
after the point, and the parser refuses it; and no two numbers print the same. -/
theorem format_scaled_round_trip (value : I128) (decimals scale : UInt32)
    (hd : decimals.toNat ≤ 38) :
    (∀ v, parseFixed (formatScaled value decimals) scale = .ok v ↔
      (0 ≤ value.toInt ∨ (10 : ℤ) ^ decimals.toNat ∣ value.toInt) ∧
      value.toInt * 10 ^ scale.toNat = v.toInt * 10 ^ decimals.toNat ∧
      |v.toInt| ≤ 2 ^ 127 - 1) ∧
    (¬ (0 ≤ value.toInt ∨ (10 : ℤ) ^ decimals.toNat ∣ value.toInt) →
      ∃ digits, digits ≠ [] ∧ (∀ c ∈ digits, c.isDigit = true) ∧
        (formatScaled value decimals).toList =
          (toString (value.toInt.tdiv (10 ^ decimals.toNat))).toList ++ '.' :: '-' :: digits) ∧
    ∀ value', formatScaled value decimals = formatScaled value' decimals → value = value' :=
  ⟨parseFixed_formatScaled value hd scale, formatScaled_of_not_printable hd,
    fun _ h => formatScaled_inj hd h⟩

theorem format_scaled_round_trip_fee :
    parseFixed (formatScaled 10000 6) 6 = .ok 10000 ∧
      ∀ v, parseFixed (formatScaled (SInt.wrap (-105)) 2) 6 ≠ .ok v := by
  refine ⟨((format_scaled_round_trip 10000 6 6 (by decide)).1 10000).mpr (by decide),
    fun v hv => ?_⟩
  have hread := ((format_scaled_round_trip (SInt.wrap (-105)) 2 6 (by decide)).1 v).mp hv
  exact absurd hread.1 (by decide)

/-- Five hundredths below zero, as no decimal is written. -/
example : formatScaled (SInt.wrap (-5)) 2 = "0.-5" := by decide +kernel

/-! ## HL events -/

section Hl

variable {value : I128} {decimals scale : UInt32} {unit : I128} {n : I64}

/-- A printed count reads as itself when the printer's unit is the instrument's. -/
theorem reads_formatScaled (hd : decimals.toNat ≤ 38) (hu : 0 < unit.toInt) :
    Reads (formatScaled value decimals) scale unit n ↔ 0 < value.toInt ∧
      value.toInt * 10 ^ scale.toNat = n.toInt * unit.toInt * 10 ^ decimals.toNat ∧
      n.toInt * unit.toInt ≤ 2 ^ 127 - 1 := by
  have hten : (10 : ℚ) ^ decimals.toNat ≠ 0 := by positivity
  have hpos : (0 : ℚ) < 10 ^ decimals.toNat := by positivity
  have hscale : (value.toInt : ℚ) / 10 ^ decimals.toNat * 10 ^ scale.toNat =
        (n.toInt * unit.toInt : ℤ) ↔
      value.toInt * 10 ^ scale.toNat = n.toInt * unit.toInt * 10 ^ decimals.toNat := by
    rw [div_mul_eq_mul_div, div_eq_iff hten]
    norm_cast
  have hsign : (0 : ℚ) < (value.toInt : ℚ) / 10 ^ decimals.toNat ↔ 0 < value.toInt := by
    rw [div_pos_iff_of_pos_right hpos, Int.cast_pos]
  have hread : Printable value decimals → (Reads (formatScaled value decimals) scale unit n ↔ _) :=
    fun hprintable => by
      rw [(hprintable.denotes hd).reads_iff hu, hscale, hsign]
  constructor
  · intro h
    obtain ⟨q, hq⟩ := h.exists_denotes
    exact (hread (printable_of_denotes hd hq)).mp h
  · intro h
    exact (hread (.inl h.1.le)).mpr h

end Hl

/-- A standard perpetual, with the units that the generator prints in. -/
structure PrintsIn (spec : InstrumentSpec) : Prop where
  px : ∀ ticks n : I64, Reads (ticksToPxString spec.symbol ticks) 6 spec.tickMicro n ↔
    0 < ticks.toInt ∧ n = ticks
  qty : ∀ lots n : I64, Reads (lotsToQtyString spec.symbol lots) 9 spec.lotQtyE9 n ↔
    0 < lots.toInt ∧ n = lots

theorem toInt_times_five (ticks : I64) : (ticks.toI128 * 5).toInt = ticks.toInt * 5 := by
  have hbounds := ticks.bounds
  have hfive : (5 : I128).toInt = 5 := by decide
  rw [← hfive]
  refine SInt.toInt_mul_of_mem (by decide) ?_ ?_ <;>
    rw [hfive, I64.toInt_toI128] <;> norm_num <;> omega

/-- A printed count in its unit, against the count that is read. -/
theorem reads_units {value : I128} {decimals scale : UInt32} {unit : I128} {count n : I64} {u : ℤ}
    (hd : decimals.toNat ≤ 38) (hu : 0 < unit.toInt) (hvalue : value.toInt = count.toInt * u)
    (hunit : u * 10 ^ scale.toNat = unit.toInt * 10 ^ decimals.toNat) (hu0 : 0 < u)
    (hfits : unit.toInt ≤ 2 ^ 63) :
    Reads (formatScaled value decimals) scale unit n ↔ 0 < count.toInt ∧ n = count := by
  have hpow : (10 : ℤ) ^ decimals.toNat ≠ 0 := by positivity
  have hscaled : value.toInt * 10 ^ scale.toNat =
        n.toInt * unit.toInt * 10 ^ decimals.toNat ↔ n = count := by
    rw [hvalue, mul_assoc, hunit, mul_assoc, ← SInt.toInt_inj, eq_comm]
    exact mul_left_inj' (mul_ne_zero hu.ne' hpow)
  rw [reads_formatScaled hd hu, hscaled, hvalue, mul_pos_iff_of_pos_right hu0]
  refine and_congr_right fun hcount => and_iff_left_of_imp ?_
  rintro rfl
  have hbounds := n.bounds
  calc n.toInt * unit.toInt ≤ 2 ^ 63 * 2 ^ 63 := mul_le_mul (by omega) hfits hu.le (by norm_num)
    _ ≤ 2 ^ 127 - 1 := by norm_num

theorem printsIn_btc : PrintsIn ⟨"BTC-PERP", "BTC-PERP", .hl, .perp, 500000, 100000, 50⟩ :=
  ⟨fun ticks _ => reads_units (by decide) (by decide) (toInt_times_five ticks) (by decide)
    (by decide) (by decide),
  fun _ _ => reads_units (by decide) (by decide) (mul_one _).symm (by decide) (by decide)
    (by decide)⟩

theorem printsIn_eth : PrintsIn ⟨"ETH-PERP", "ETH-PERP", .hl, .perp, 50000, 1000000, 50⟩ :=
  ⟨fun ticks _ => reads_units (by decide) (by decide) (toInt_times_five ticks) (by decide)
    (by decide) (by decide),
  fun _ _ => reads_units (by decide) (by decide) (mul_one _).symm (by decide) (by decide)
    (by decide)⟩

theorem printsIn_of_standard {symbol : String} (h : symbol = "BTC-PERP" ∨ symbol = "ETH-PERP") :
    ∃ spec, InstrumentSource.lookup Registry.standard .hl symbol = some spec ∧
      spec.symbol = symbol ∧ PrintsIn spec := by
  rcases h with rfl | rfl
  · exact ⟨_, by decide, rfl, printsIn_btc⟩
  · exact ⟨_, by decide, rfl, printsIn_eth⟩

/-- A printed fee is read back exactly when it is not negative. -/
theorem fee_round_trip {micro fee : I128} :
    (parseFixed (microToFeeString micro) 6 = .ok fee ∧ 0 ≤ fee) ↔
      0 ≤ micro.toInt ∧ fee = micro := by
  have hbounds := I128.bounds micro
  rw [microToFeeString, parseFixed_formatScaled micro (by decide), ← SInt.toInt_nonneg,
    mul_left_inj' (show (10 : ℤ) ^ (6 : UInt32).toNat ≠ 0 by decide), ← SInt.toInt_inj]
  constructor
  · rintro ⟨⟨-, heq, -⟩, hnonneg⟩
    exact ⟨heq ▸ hnonneg, heq.symm⟩
  · rintro ⟨hnonneg, heq⟩
    rw [heq, abs_of_nonneg hnonneg]
    exact ⟨⟨.inl hnonneg, rfl, by omega⟩, hnonneg⟩

theorem hl_printed {event : HlEvent} {ticks lots : I64} {micro : I128}
    (hsymbol : event.symbol = "BTC-PERP" ∨ event.symbol = "ETH-PERP")
    (hpx : event.px = ticksToPxString event.symbol ticks)
    (hqty : event.qty = lotsToQtyString event.symbol lots)
    (hfee : event.fee = microToFeeString micro) {fill : Fill} :
    event.canonicalize Registry.standard = .ok fill ↔
      0 < ticks.toInt ∧ 0 < lots.toInt ∧ 0 ≤ micro.toInt ∧
      ∃ spec side, InstrumentSource.lookup Registry.standard .hl event.symbol = some spec ∧
        hlSide event.side = .ok side ∧
        fill =
          { venue := .hl, eventId := event.eventId, seq := event.seq, tsMs := event.ts
            account := event.account, instrument := spec.instrument, symbol := event.symbol
            kind := spec.kind, side := side, price := ticks, qty := lots, fee := micro } := by
  obtain ⟨spec, hspec, hname, hprints⟩ := printsIn_of_standard hsymbol
  rw [hl_canonicalize_eq_ok (Registry.wellFormed_of_tryFromSpecs Registry.tryFromSpecs_standard),
    hpx, hqty, hfee, ← hname]
  constructor
  · rintro ⟨spec', side, price, qty, fee, hspec', hside, hprice, hlots, hmicro, hmicro0, hfill⟩
    rw [hname, hspec] at hspec'
    cases hspec'
    obtain ⟨hticks, rfl⟩ := (hprints.px ticks price).mp hprice
    obtain ⟨hlots, rfl⟩ := (hprints.qty lots qty).mp hlots
    obtain ⟨hfee, rfl⟩ := fee_round_trip.mp ⟨hmicro, hmicro0⟩
    exact ⟨hticks, hlots, hfee, spec, side, hname ▸ hspec, hside, hfill⟩
  · rintro ⟨hticks, hlots, hmicro, spec', side, hspec', hside, hfill⟩
    rw [hname, hspec] at hspec'
    cases hspec'
    obtain ⟨hread, hread0⟩ := fee_round_trip.mpr ⟨hmicro, rfl⟩
    exact ⟨spec, side, ticks, lots, micro, hname ▸ hspec, hside,
      (hprints.px ticks ticks).mpr ⟨hticks, rfl⟩, (hprints.qty lots lots).mpr ⟨hlots, rfl⟩,
      hread, hread0, hfill⟩

/-- What the generator prints for a standard perpetual is what the boundary reads: the event is
accepted exactly for positive counts and a fee that is not negative, and then at these counts. -/
theorem hl_round_trip (event : HlEvent) (ticks lots : I64) (micro : I128)
    (hsymbol : event.symbol = "BTC-PERP" ∨ event.symbol = "ETH-PERP")
    (hpx : event.px = ticksToPxString event.symbol ticks)
    (hqty : event.qty = lotsToQtyString event.symbol lots)
    (hfee : event.fee = microToFeeString micro) :
    ((∃ fill, event.canonicalize Registry.standard = .ok fill) ↔
      (event.side = "buy" ∨ event.side = "sell") ∧
        0 < ticks.toInt ∧ 0 < lots.toInt ∧ 0 ≤ micro.toInt) ∧
    ∀ fill, event.canonicalize Registry.standard = .ok fill →
      fill.symbol = event.symbol ∧ hlSide event.side = .ok fill.side ∧
        fill.price = ticks ∧ fill.qty = lots ∧ fill.fee = micro := by
  have hread : ∀ fill, event.canonicalize Registry.standard = .ok fill ↔ _ := fun fill =>
    hl_printed hsymbol hpx hqty hfee
  constructor
  · rw [← hlSide_exists_iff]
    constructor
    · rintro ⟨fill, hfill⟩
      obtain ⟨hticks, hlots, hmicro, -, side, -, hside, -⟩ := (hread fill).mp hfill
      exact ⟨⟨side, hside⟩, hticks, hlots, hmicro⟩
    · rintro ⟨⟨side, hside⟩, hticks, hlots, hmicro⟩
      obtain ⟨spec, hspec, -⟩ := printsIn_of_standard hsymbol
      exact ⟨_, (hread _).mpr ⟨hticks, hlots, hmicro, spec, side, hspec, hside, rfl⟩⟩
  · intro fill hfill
    obtain ⟨-, -, -, spec, side, -, hside, rfl⟩ := (hread fill).mp hfill
    exact ⟨rfl, hside, rfl, rfl, rfl⟩

theorem hl_round_trip_eth :
    let event : HlEvent := ⟨1, "e", 1000, "alice", "ETH-PERP", "sell",
      ticksToPxString "ETH-PERP" 68001, lotsToQtyString "ETH-PERP" 7, microToFeeString 105⟩
    ∃ fill, event.canonicalize Registry.standard = .ok fill ∧
      fill.price = 68001 ∧ fill.qty = 7 ∧ fill.fee = 105 := by
  intro event
  obtain ⟨haccepted, hread⟩ := hl_round_trip event 68001 7 105 (.inr rfl) rfl rfl rfl
  obtain ⟨fill, hfill⟩ := haccepted.mpr ⟨.inr rfl, by decide⟩
  exact ⟨fill, hfill, (hread fill hfill).2.2⟩

/-! ## PM events -/

theorem is_tenThousand : Is 10000.0 10000 := by
  have h : Is 10000.0 ((5497558138880000 : ℕ) * 2 ^ (-39 : ℤ)) :=
    is_literal _ _ (by decide) rfl ⟨by norm_num, by norm_num, by norm_num, .inl (by norm_num)⟩
  have hvalue : ((5497558138880000 : ℕ) : ℚ) * 2 ^ (-39 : ℤ) = 10000 := by norm_num
  rwa [hvalue] at h

/-- Two roundings after the division the price is still next to its tick. -/
theorem ticksToPrice_near {k : I64} (hk : 0 < k.toInt) :
    ∃ value, Is (ticksToPrice k) value ∧ 0 < value ∧ Within 5 value 100 k.toInt := by
  have hbounds := k.bounds
  have hsmall : ∀ q : ℚ, 0 ≤ q → q ≤ 2 ^ 64 → |q| < 2 ^ (1023 : ℤ) := by
    intro q hq hle
    rw [abs_of_nonneg hq]
    calc q ≤ 2 ^ (64 : ℤ) := by exact_mod_cast hle
      _ < 2 ^ (1023 : ℤ) := two_zpow_lt.mpr (by norm_num)
  rw [ticksToPrice]
  generalize k.toInt = n at hk hbounds
  lift n to ℕ using hk.le
  have hn : (0 : ℚ) < n := by exact_mod_cast hk
  have htop : (n : ℚ) ≤ 2 ^ 63 := by exact_mod_cast hbounds.2.le
  obtain ⟨T, hT, hTr⟩ := (result_ofNat (by exact_mod_cast hk)).of_lt
    (hsmall n hn.le (htop.trans (by norm_num)))
  obtain ⟨hTu, hTl⟩ := Rounds.bounds hTr hn.le
  have hn1 : (1 : ℚ) ≤ n := by exact_mod_cast hk
  have hTpos : 0 < T := by linarith
  have hquot : 0 ≤ T / 10000 := by positivity
  have hTtop : T / 10000 ≤ 2 ^ 64 := by linarith
  obtain ⟨value, hvalue, hr⟩ := (hT.div is_tenThousand (by norm_num)).of_lt
    (hsmall _ hquot hTtop)
  obtain ⟨hu, hl⟩ := Rounds.bounds hr hquot
  refine ⟨value, hvalue, by linarith, ?_⟩
  have hmax := le_max_left (value * 1000000) 100
  rw [Within, show (5 : ℚ) * 2 ^ (-52 : ℤ) = 5 / 2 ^ 52 by norm_num, abs_le, Int.cast_natCast]
  constructor <;> linarith

theorem pm_of_standard {market : String}
    (h : market = "FED-CUT-SEP" ∨ market = "CPI-ABOVE-AUG") :
    InstrumentSource.lookup Registry.standard .pm market =
      some ⟨market, market, .pm, .binary, 100, 1000000000, 100⟩ := by
  rcases h with rfl | rfl
  · decide
  · decide

/-- A price that was made from a number of ticks is read as that number. -/
theorem pm_printed {event : PmEvent} {k : I64} (hk : 0 < k.toInt)
    (hmarket : event.market = "FED-CUT-SEP" ∨ event.market = "CPI-ABOVE-AUG")
    (hprice : event.price = ticksToPrice k) :
    let spec : InstrumentSpec := ⟨event.market, event.market, .pm, .binary, 100, 1000000000, 100⟩
    ((∃ fill, event.canonicalize Registry.standard = .ok fill) ↔ PmAdmits spec event k.toInt) ∧
      ∀ fill, event.canonicalize Registry.standard = .ok fill →
        PmExact spec event k.toInt fill := by
  intro spec
  have hw := Registry.wellFormed_of_tryFromSpecs Registry.tryFromSpecs_standard
  have hl := pm_of_standard hmarket
  obtain ⟨value, hvalue, hpos, hwithin⟩ := ticksToPrice_near hk
  rw [← hprice] at hvalue
  generalize k.toInt = n at hk hwithin
  lift n to ℕ using hk.le
  have hnear : Within 5 value (100 : I128).toInt n := by
    have htick : (100 : I128).toInt = 100 := by decide
    rw [htick]
    exact_mod_cast hwithin
  refine ⟨pm_accepted_iff hw hl hvalue hpos hnear, fun fill hfill => ?_⟩
  obtain ⟨j, -, -, hexact, hunique⟩ := pm_read hw hl hvalue hpos hfill
  rw [hunique n (hnear.mono (by norm_num) (by decide))]
  exact hexact

/-- A PM event whose price was made from a number of ticks is accepted exactly for an admissible
number, and then at that number: as the YES trade at it, or the opposite one at its complement. -/
theorem pm_round_trip (event : PmEvent) (k : I64) (hk : 0 < k.toInt)
    (hmarket : event.market = "FED-CUT-SEP" ∨ event.market = "CPI-ABOVE-AUG")
    (hprice : event.price = ticksToPrice k) :
    ((∃ fill, event.canonicalize Registry.standard = .ok fill) ↔
      (event.action = "BUY" ∨ event.action = "SELL") ∧
        (event.outcome = "YES" ∨ event.outcome = "NO") ∧
        100 ≤ k.toInt ∧ k.toInt ≤ 9900 ∧ 0 < event.size.toInt ∧ 0 ≤ event.feeBps.toInt ∧
        k.toInt * event.size.toInt * 100 * event.feeBps.toInt + 5000 ≤ 2 ^ 127 - 1) ∧
    ∀ fill, event.canonicalize Registry.standard = .ok fill →
      fill.symbol = event.market ∧ fill.qty = event.size ∧
        fill.fee.toInt =
          (k.toInt * event.size.toInt * 100 * event.feeBps.toInt + 5000) / 10000 ∧
        ∃ action, pmAction event.action = .ok action ∧
          (event.outcome = "YES" ∧ fill.side = action ∧ fill.price = k ∨
            event.outcome = "NO" ∧ fill.side = action.flip ∧
              fill.price.toInt = 10000 - k.toInt) := by
  obtain ⟨haccepted, hread⟩ := pm_printed hk hmarket hprice
  refine ⟨haccepted.trans ⟨fun h => ?_, fun h => ?_⟩, fun fill hfill => ?_⟩
  · exact ⟨h.action, h.outcome, h.window.1, h.window.2, h.size_pos, h.rate_nonneg, h.fee_fits⟩
  · obtain ⟨haction, houtcome, hlo, hhi, hsize, hrate, hfits⟩ := h
    exact ⟨⟨hlo, hhi⟩, haction, houtcome, hsize, hrate, hfits⟩
  · obtain ⟨-, ⟨hsymbol, -, -⟩, ⟨action, haction, htraded⟩, hqty, hfee⟩ := hread fill hfill
    refine ⟨hsymbol, hqty, hfee, action, haction, htraded.imp ?_ ?_⟩
    · rintro ⟨hyes, hside, hvalue⟩
      exact ⟨hyes, hside, SInt.toInt_inj.mp hvalue⟩
    · rintro ⟨hno, hside, hvalue⟩
      exact ⟨hno, hside, hvalue⟩

theorem pm_round_trip_no :
    let event : PmEvent :=
      ⟨7, "p", 1000, "bob", "CPI-ABOVE-AUG", "NO", "BUY", ticksToPrice 3000, 2, 30⟩
    ∃ fill, event.canonicalize Registry.standard = .ok fill ∧
      fill.side = .sell ∧ fill.price.toInt = 7000 ∧ fill.fee.toInt = 1800 := by
  intro event
  obtain ⟨haccepted, hread⟩ := pm_round_trip event 3000 (by decide) (.inr rfl) rfl
  obtain ⟨fill, hfill⟩ := haccepted.mpr (by decide)
  obtain ⟨-, -, hfee, action, haction, ⟨hyes, -⟩ | ⟨-, hside, hprice⟩⟩ := hread fill hfill
  · exact absurd hyes (by decide)
  · obtain rfl := Except.ok.inj haction
    exact ⟨fill, hfill, hside, hprice, hfee⟩

end Bitfrost
