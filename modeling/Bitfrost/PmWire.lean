import Bitfrost.Admission
import Bitfrost.Construction
import Bitfrost.PriceTicks

/-!
The numbers of a PM event. The float price is read as a tick of the contract,
a NO trade becomes the opposite YES trade, and the fee is the rate on the
notional, rounded to the nearest micro-dollar.
-/

namespace Bitfrost

open Bitfrost.Lib
open Bitfrost.Lib.Binary64

/-! ## What is admitted, and as what -/

/-- The notional of the event at `k` ticks, in micro-dollars. -/
def PmEvent.notionalAt (self : PmEvent) (spec : InstrumentSpec) (k : ℤ) : ℤ :=
  k * self.size.toInt * spec.microPerTickLot.toInt

/-- What an event at `k` ticks must satisfy. -/
structure PmAdmits (spec : InstrumentSpec) (event : PmEvent) (k : ℤ) : Prop where
  window : Registry.full spec / 100 ≤ k ∧ k ≤ Registry.full spec - Registry.full spec / 100
  action : event.action = "BUY" ∨ event.action = "SELL"
  outcome : event.outcome = "YES" ∨ event.outcome = "NO"
  size_pos : 0 < event.size.toInt
  rate_nonneg : 0 ≤ event.feeBps.toInt
  fee_fits : event.notionalAt spec k * event.feeBps.toInt + 5000 ≤ 2 ^ 127 - 1

/-- The fill of an event at `k` ticks. -/
structure PmExact (spec : InstrumentSpec) (event : PmEvent) (k : ℤ) (fill : Fill) : Prop where
  source : fill.venue = .pm ∧ fill.eventId = event.id ∧ fill.seq = event.sequence ∧
    fill.tsMs = event.timestampMs ∧ fill.account = event.user
  contract : fill.symbol = event.market ∧ fill.instrument = spec.instrument ∧ fill.kind = .binary
  traded : ∃ action, pmAction event.action = .ok action ∧
    (event.outcome = "YES" ∧ fill.side = action ∧ fill.price.toInt = k ∨
      event.outcome = "NO" ∧ fill.side = action.flip ∧
        fill.price.toInt = Registry.full spec - k)
  qty : fill.qty = event.size
  fee : fill.fee.toInt = (event.notionalAt spec k * event.feeBps.toInt + 5000) / 10000

/-- The fee is the nearest whole number of micro-dollars, halves up. -/
theorem PmExact.fee_close {spec : InstrumentSpec} {event : PmEvent} {k : ℤ} {fill : Fill}
    (h : PmExact spec event k fill) :
    -5000 < 10000 * fill.fee.toInt - event.notionalAt spec k * event.feeBps.toInt ∧
      10000 * fill.fee.toInt - event.notionalAt spec k * event.feeBps.toInt ≤ 5000 := by
  rw [h.fee]
  omega

section Pm

variable {registry : Registry} {spec : InstrumentSpec} {event : PmEvent} {fill : Fill}
  {toTicks : Float → I128 → String → Except RejectReason I64}

theorem pmAction_exists_iff (text : String) :
    (∃ action, pmAction text = .ok action) ↔ text = "BUY" ∨ text = "SELL" := by
  unfold pmAction
  split <;> simp_all

/-- In the window the notional is that of less than one dollar a contract. -/
theorem PmAdmits.notional_bounds (hs : Registry.Sound spec) (hk : spec.kind = .binary) {k : ℤ}
    (h : PmAdmits spec event k) :
    0 ≤ k * event.size.toInt ∧ k * event.size.toInt < 2 ^ 83 ∧
      0 ≤ event.notionalAt spec k ∧ event.notionalAt spec k < 2 ^ 83 := by
  obtain ⟨-, -, hpay, hpos⟩ := hs.binary hk
  obtain ⟨hlo, hhi⟩ := h.window
  have hk0 : 0 ≤ k := by omega
  have hsize := h.size_pos
  have htop := event.size.bounds.2
  have hscale : 1 ≤ spec.microPerTickLot.toInt := hs.scale_pos
  have hkle : k * spec.microPerTickLot.toInt ≤ 1000000 := by
    rw [← hpay]
    exact mul_le_mul_of_nonneg_right (by omega) hs.scale_pos.le
  have hkscale : 0 ≤ k * spec.microPerTickLot.toInt := mul_nonneg hk0 hs.scale_pos.le
  have hunits : 0 ≤ k * event.size.toInt := mul_nonneg hk0 hsize.le
  have hnotional : event.notionalAt spec k < 2 ^ 83 := by
    calc event.notionalAt spec k = k * spec.microPerTickLot.toInt * event.size.toInt := by
          rw [PmEvent.notionalAt]
          ring
      _ ≤ 1000000 * event.size.toInt := mul_le_mul_of_nonneg_right hkle hsize.le
      _ < 2 ^ 83 := by omega
  have hle : k * event.size.toInt ≤ event.notionalAt spec k :=
    le_mul_of_one_le_right hunits hscale
  exact ⟨hunits, by omega, hunits.trans hle, hnotional⟩

/-- What the two checked products of the fee give. -/
theorem notional_eq {raw : I64} {notional scaled : I128}
    (hnotional : (raw.toI128.checkedMul event.size.toI128).bind
      (·.checkedMul spec.microPerTickLot) = some notional)
    (hscaled : (notional.checkedMul event.feeBps.toI128).bind (·.checkedAdd 5000) = some scaled) :
    notional.toInt = event.notionalAt spec raw.toInt ∧
      scaled.toInt = event.notionalAt spec raw.toInt * event.feeBps.toInt + 5000 := by
  obtain ⟨mid, hmid, hlast⟩ := Option.bind_eq_some_iff.mp hnotional
  obtain ⟨mid', hmid', hlast'⟩ := Option.bind_eq_some_iff.mp hscaled
  have hvalue : notional.toInt = event.notionalAt spec raw.toInt := by
    rw [SInt.tryFrom_eq_some.mp hlast, SInt.tryFrom_eq_some.mp hmid]
    rfl
  refine ⟨hvalue, ?_⟩
  rw [SInt.tryFrom_eq_some.mp hlast', SInt.tryFrom_eq_some.mp hmid', hvalue]
  rfl

theorem exists_notional (hs : Registry.Sound spec) (hk : spec.kind = .binary) {raw : I64}
    (h : PmAdmits spec event raw.toInt) : ∃ notional scaled,
      (raw.toI128.checkedMul event.size.toI128).bind (·.checkedMul spec.microPerTickLot) =
        some notional ∧
      (notional.checkedMul event.feeBps.toI128).bind (·.checkedAdd 5000) = some scaled := by
  obtain ⟨hunits0, hunits, hnotional0, hnotional⟩ := h.notional_bounds hs hk
  have hrate := h.rate_nonneg
  have hfits := h.fee_fits
  have hproduct : 0 ≤ event.notionalAt spec raw.toInt * event.feeBps.toInt :=
    mul_nonneg hnotional0 hrate
  obtain ⟨units, hu, huv⟩ := SInt.exists_tryFrom (w := 128)
    (z := raw.toInt * event.size.toInt) (by norm_num; omega) (by norm_num; omega)
  obtain ⟨notional, hn, hnv⟩ := SInt.exists_tryFrom (w := 128)
    (z := event.notionalAt spec raw.toInt) (by norm_num; omega) (by norm_num; omega)
  obtain ⟨product, hp, hpv⟩ := SInt.exists_tryFrom (w := 128)
    (z := event.notionalAt spec raw.toInt * event.feeBps.toInt) (by norm_num; omega)
    (by norm_num at hfits ⊢; omega)
  obtain ⟨scaled, hsc, -⟩ := SInt.exists_tryFrom (w := 128)
    (z := event.notionalAt spec raw.toInt * event.feeBps.toInt + 5000) (by norm_num; omega)
    (by norm_num at hfits ⊢; omega)
  refine ⟨notional, scaled, Option.bind_eq_some_iff.mpr ⟨units, hu, ?_⟩,
    Option.bind_eq_some_iff.mpr ⟨product, ?_, ?_⟩⟩
  · show SInt.tryFrom (units.toInt * spec.microPerTickLot.toInt) = some notional
    rw [huv]
    exact hn
  · show SInt.tryFrom (notional.toInt * event.feeBps.toInt) = some product
    rw [hnv]
    exact hp
  · show SInt.tryFrom (product.toInt + 5000) = some scaled
    rw [hpv]
    exact hsc

theorem foldOutcome_eq_ok {outcome : String} {action side : Side} {full raw price : I64} :
    foldOutcome outcome action full raw = .ok (side, price) ↔
      outcome = "YES" ∧ side = action ∧ price = raw ∨
        outcome = "NO" ∧ side = action.flip ∧ price = full - raw := by
  unfold foldOutcome
  split <;> simp_all [eq_comm]

/-- What an accepted event was, whatever read its price. -/
theorem pm_exact (hw : registry.WellFormed)
    (hl : InstrumentSource.lookup registry .pm event.market = some spec)
    (h : event.canonicalizeWith toTicks registry = .ok fill) :
    ∃ raw, toTicks event.price spec.tickMicro event.market = .ok raw ∧
      PmAdmits spec event raw.toInt ∧ PmExact spec event raw.toInt fill := by
  obtain ⟨-, -, hs⟩ := hw.named hl
  have hk := hw.kind_of_pm hl
  obtain ⟨full, hfull⟩ := PositionKeeper.exists_full hs hk
  obtain ⟨hfullv, hlo, hhi⟩ := PositionKeeper.window_eq hs hk hfull
  obtain ⟨-, -, -, hpos⟩ := hs.binary hk
  have htop := full.bounds.2
  simp only [PmEvent.canonicalizeWith, Registry.resolveSpec_of_wellFormed hw, bind_eq_ok,
    rejectIf_eq_ok, okOr_eq_ok, not_le, not_lt, not_or] at h
  obtain ⟨spec', hspec', action, haction, -, hsize, -, hrate, raw, hraw, full', hfull', -,
    ⟨hge, hle⟩, notional, hnotional, scaled, hscaled, ⟨side, price⟩, hfold, hok⟩ := h
  rw [hl] at hspec'
  cases hspec'
  rw [hfull] at hfull'
  cases hfull'
  obtain ⟨-, hvalue⟩ := notional_eq hnotional hscaled
  rw [← SInt.toInt_le, hlo] at hge
  rw [← SInt.toInt_le, hhi] at hle
  have hfold := foldOutcome_eq_ok.mp hfold
  have hadmits : PmAdmits spec event raw.toInt := by
    refine ⟨⟨hge, hle⟩, (pmAction_exists_iff _).mp ⟨action, haction⟩,
      hfold.imp And.left And.left, SInt.toInt_pos.mpr hsize, SInt.toInt_nonneg.mpr hrate, ?_⟩
    rw [← hvalue]
    have := I128.bounds scaled
    omega
  obtain ⟨-, -, hnotional0, -⟩ := hadmits.notional_bounds hs hk
  refine ⟨raw, hraw, hadmits, ?_⟩
  cases hok
  refine ⟨⟨rfl, rfl, rfl, rfl, rfl⟩, ⟨rfl, rfl, hk⟩, ⟨action, haction, ?_⟩, rfl, ?_⟩
  · rcases hfold with ⟨hyes, hside, rfl⟩ | ⟨hno, hside, rfl⟩
    · exact .inl ⟨hyes, hside, rfl⟩
    · refine .inr ⟨hno, hside, ?_⟩
      rw [← hfullv]
      exact SInt.toInt_sub_of_mem (by decide) (by norm_num; omega) (by norm_num; omega)
  · have hscaled0 : 0 ≤ scaled.toInt := by
      rw [hvalue]
      have := mul_nonneg hnotional0 hadmits.rate_nonneg
      omega
    rw [← hvalue]
    exact SInt.toInt_div_of_nonneg (by decide) hscaled0 (by decide)

theorem pm_accepted (hw : registry.WellFormed)
    (hl : InstrumentSource.lookup registry .pm event.market = some spec) {raw : I64}
    (hraw : toTicks event.price spec.tickMicro event.market = .ok raw)
    (hadmits : PmAdmits spec event raw.toInt) :
    ∃ fill, event.canonicalizeWith toTicks registry = .ok fill := by
  obtain ⟨-, -, hs⟩ := hw.named hl
  have hk := hw.kind_of_pm hl
  obtain ⟨full, hfull⟩ := PositionKeeper.exists_full hs hk
  obtain ⟨-, hlo, hhi⟩ := PositionKeeper.window_eq hs hk hfull
  obtain ⟨action, haction⟩ := (pmAction_exists_iff _).mpr hadmits.action
  obtain ⟨notional, scaled, hnotional, hscaled⟩ := exists_notional hs hk hadmits
  obtain ⟨side, price, hfold⟩ : ∃ side price,
      foldOutcome event.outcome action full raw = .ok (side, price) := by
    rcases hadmits.outcome with hyes | hno
    · exact ⟨_, _, foldOutcome_eq_ok.mpr (.inl ⟨hyes, rfl, rfl⟩)⟩
    · exact ⟨_, _, foldOutcome_eq_ok.mpr (.inr ⟨hno, rfl, rfl⟩)⟩
  simp only [PmEvent.canonicalizeWith, Registry.resolveSpec_of_wellFormed hw, bind_eq_ok,
    rejectIf_eq_ok, okOr_eq_ok, not_le, not_lt, not_or]
  refine ⟨_, spec, hl, action, haction, ⟨⟩, SInt.toInt_pos.mp hadmits.size_pos, ⟨⟩,
    SInt.toInt_nonneg.mp hadmits.rate_nonneg, raw, hraw, full, hfull, ⟨⟩, ⟨?_, ?_⟩, notional,
    hnotional, scaled, hscaled, (side, price), hfold, rfl⟩
  · rw [← SInt.toInt_le, hlo]
    exact hadmits.window.1
  · rw [← SInt.toInt_le, hhi]
    exact hadmits.window.2

theorem PmAdmits.tick_le {k : ℕ} (h : PmAdmits spec event k) (hs : Registry.Sound spec)
    (hk : spec.kind = .binary) : k ≤ 2 ^ 46 := by
  obtain ⟨-, -, hpay, -⟩ := hs.binary hk
  obtain ⟨-, hhi⟩ := h.window
  have hscale : 1 ≤ spec.microPerTickLot.toInt := hs.scale_pos
  have hk0 : (0 : ℤ) ≤ k := Int.natCast_nonneg k
  have hfull : Registry.full spec ≤ 1000000 := by
    by_cases hneg : Registry.full spec < 0
    · omega
    · rw [← hpay]
      exact le_mul_of_one_le_right (not_lt.mp hneg) hscale
  omega

/-- An accepted event was admissible at the one tick next to its price. -/
theorem pm_read (hw : registry.WellFormed)
    (hl : InstrumentSource.lookup registry .pm event.market = some spec) {value : ℚ}
    (hp : Is event.price value) (hv : 0 < value) (h : event.canonicalize registry = .ok fill) :
    ∃ k : ℕ, Within 11 value spec.tickMicro.toInt k ∧ PmAdmits spec event k ∧
      PmExact spec event k fill ∧ ∀ j : ℕ, Within 11 value spec.tickMicro.toInt j → j = k := by
  obtain ⟨-, -, hs⟩ := hw.named hl
  have htick := hs.tick_pos
  obtain ⟨raw, hraw, hadmits, hexact⟩ := pm_exact hw hl h
  obtain ⟨hnonneg, hwithin⟩ := (ReadsTicks.of_is event.market hp hv htick).sound raw hraw
  obtain ⟨k, hk⟩ := Int.eq_ofNat_of_zero_le hnonneg
  rw [hk] at hwithin hadmits hexact
  have hwithin : Within 11 value spec.tickMicro.toInt k := by exact_mod_cast hwithin
  refine ⟨k, hwithin, hadmits, hexact, fun j hj => ?_⟩
  exact (Within.unique (by exact_mod_cast htick) hwithin hj
    (hadmits.tick_le hs (hw.kind_of_pm hl))).symm

theorem Within.mono {c c' value t : ℚ} {k : ℕ} (h : Within c value t k) (hc : c ≤ c')
    (ht : 0 < t) : Within c' value t k := by
  refine le_trans h (mul_le_mul_of_nonneg_right ?_ (ht.le.trans (le_max_right _ _)))
  exact mul_le_mul_of_nonneg_right hc (two_zpow_pos _).le

/-- Near a tick the event is accepted exactly when it is admissible there. -/
theorem pm_accepted_iff (hw : registry.WellFormed)
    (hl : InstrumentSource.lookup registry .pm event.market = some spec) {value : ℚ}
    (hp : Is event.price value) (hv : 0 < value) {k : ℕ}
    (hwithin : Within 5 value spec.tickMicro.toInt k) :
    (∃ fill, event.canonicalize registry = .ok fill) ↔ PmAdmits spec event k := by
  obtain ⟨-, -, hs⟩ := hw.named hl
  have htick := hs.tick_pos
  constructor
  · rintro ⟨fill, hfill⟩
    obtain ⟨j, -, hadmits, -, hunique⟩ := pm_read hw hl hp hv hfill
    rw [hunique k (hwithin.mono (by norm_num) (by exact_mod_cast htick))]
    exact hadmits
  · intro hadmits
    obtain ⟨raw, hraw, hvalue⟩ := (ReadsTicks.of_is event.market hp hv htick).complete k
      (hadmits.tick_le hs (hw.kind_of_pm hl)) hwithin
    rw [← hvalue] at hadmits
    exact pm_accepted hw hl hraw hadmits

end Pm

/-- The float price of a PM event enters as the one tick next to it. Within five roundings of a
tick the event is accepted exactly when it is admissible there; and an accepted event is the fill
of an admissible tick within eleven, the only one, its fee rounded to the nearest micro-dollar. -/
theorem pm_prices_exact {specs : List InstrumentSpec} {registry : Registry}
    (h : Registry.tryFromSpecs specs = .ok registry) (event : PmEvent) {spec : InstrumentSpec}
    (hl : InstrumentSource.lookup registry .pm event.market = some spec)
    (hfinite : event.price.isFinite = true) (hpos : 0.0 < event.price) :
    (∀ k : ℕ, Within 5 (toRat event.price) spec.tickMicro.toInt k →
      ((∃ fill, event.canonicalize registry = .ok fill) ↔ PmAdmits spec event k)) ∧
    ∀ fill, event.canonicalize registry = .ok fill →
      ∃ k : ℕ, Within 11 (toRat event.price) spec.tickMicro.toInt k ∧ PmAdmits spec event k ∧
        PmExact spec event k fill ∧
        (∀ j : ℕ, Within 11 (toRat event.price) spec.tickMicro.toInt j → j = k) ∧
        -5000 < 10000 * fill.fee.toInt - event.notionalAt spec k * event.feeBps.toInt ∧
        10000 * fill.fee.toInt - event.notionalAt spec k * event.feeBps.toInt ≤ 5000 := by
  have hw := Registry.wellFormed_of_tryFromSpecs h
  have hp := is_toRat hfinite
  have hv := (is_zero.lt_iff hp).mp hpos
  refine ⟨fun k hwithin => pm_accepted_iff hw hl hp hv hwithin, fun fill hfill => ?_⟩
  obtain ⟨k, hwithin, hadmits, hexact, hunique⟩ := pm_read hw hl hp hv hfill
  exact ⟨k, hwithin, hadmits, hexact, hunique, hexact.fee_close⟩

/-- 400 contracts sold at a price one unit off 6350 ticks, at 20 basis points. -/
theorem pm_prices_exact_noisy :
    let event : PmEvent :=
      ⟨7, "p", 1000, "bob", "FED-CUT-SEP", "YES", "SELL", 0.6350000000000001, 400, 20⟩
    ∃ fill, event.canonicalize Registry.standard = .ok fill ∧
      fill.price.toInt = 6350 ∧ fill.fee.toInt = 508000 := by
  intro event
  have hl : InstrumentSource.lookup Registry.standard .pm event.market =
      some ⟨"FED-CUT-SEP", "FED-CUT-SEP", .pm, .binary, 100, 1000000000, 100⟩ := by
    decide
  have hadmits : PmAdmits ⟨"FED-CUT-SEP", "FED-CUT-SEP", .pm, .binary, 100, 1000000000, 100⟩
      event (6350 : ℕ) :=
    ⟨by decide, .inr rfl, .inl rfl, by decide, by decide, by decide⟩
  have hvalue : toRat event.price = (5719571526760531 : ℕ) * 2 ^ (-53 : ℤ) := is_noisy.toRat_eq
  have hpos : 0.0 < event.price := (is_zero.lt_iff is_noisy).mpr (by norm_num)
  have htick : (100 : I128).toInt = 100 := by decide
  have hwithin : Within 5 (toRat event.price) (100 : I128).toInt (6350 : ℕ) := by
    rw [hvalue, Within, htick]
    norm_num
  obtain ⟨hnear, hread⟩ :=
    pm_prices_exact Registry.tryFromSpecs_standard event hl is_noisy.isFinite hpos
  obtain ⟨fill, hfill⟩ := (hnear 6350 hwithin).mpr hadmits
  obtain ⟨k, -, -, hexact, hunique, -⟩ := hread fill hfill
  obtain rfl := hunique 6350 (hwithin.mono (by norm_num) (by rw [htick]; norm_num))
  refine ⟨fill, hfill, ?_, hexact.fee⟩
  obtain ⟨-, -, ⟨-, -, hprice⟩ | ⟨hno, -⟩⟩ := hexact.traded
  · exact hprice
  · exact absurd hno (by decide)

end Bitfrost
