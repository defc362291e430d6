import Bitfrost.Construction
import Bitfrost.Decimals

/-!
The numbers of an HL event. The fill carries the numbers of its three texts
without rounding: the price in ticks, the quantity in lots, the fee in
micro-dollars.
-/

namespace Bitfrost

open Bitfrost.Lib

/-! ## What a text denotes -/

/-- The text is a decimal, up to the spaces around it, and this is its number. -/
def Denotes (text : String) (q : ℚ) : Prop :=
  ∃ x : Decimal, x.Spells (trim text.toList) ∧ x.value = q

section Parse

variable {text : String} {q : ℚ} {scale : UInt32} {v : I128}

theorem Denotes.parseFixed_eq_ok (h : Denotes text q) :
    parseFixed text scale = .ok v ↔ q * 10 ^ scale.toNat = v.toInt ∧ |v.toInt| ≤ 2 ^ 127 - 1 := by
  obtain ⟨x, hx, rfl⟩ := h
  exact parseFixed_spelled_eq_ok hx v

theorem exists_denotes (h : parseFixed text scale = .ok v) : ∃ q, Denotes text q := by
  obtain ⟨x, hx⟩ := spelled_of_ok h
  exact ⟨x.value, x, hx, rfl⟩

end Parse

/-! ## Whole units -/

/-- The scaled number is a whole number of units; the machine holds it, and their count. -/
def InUnits (q : ℚ) (scale : Nat) (unit : ℤ) : Prop :=
  ∃ n : ℤ, q * 10 ^ scale = n ∧ n ≤ 2 ^ 127 - 1 ∧ unit ∣ n ∧ n / unit ≤ 2 ^ 63 - 1

/-- The remainder test and the narrow quotient, read as one equation. -/
theorem units_iff {v unit : I128} {n : I64} (hv : 0 < v.toInt) (hu : 0 < unit.toInt) :
    (v % unit = 0 ∧ (SInt.tryFrom (v / unit).toInt : Option I64) = some n) ↔
      n.toInt * unit.toInt = v.toInt := by
  rw [SInt.tryFrom_eq_some, ← SInt.toInt_eq_zero,
    SInt.toInt_mod_of_nonneg (by decide) hv.le hu, SInt.toInt_div_of_nonneg (by decide) hv.le hu]
  constructor
  · rintro ⟨hmod, hdiv⟩
    rw [hdiv]
    exact Int.ediv_mul_cancel (Int.dvd_of_emod_eq_zero hmod)
  · intro h
    rw [← h]
    exact ⟨Int.mul_emod_left _ _, (Int.mul_ediv_cancel _ hu.ne').symm⟩

/-- What the price and the quantity go through: a positive decimal, in whole units, counted. -/
def Reads (text : String) (scale : UInt32) (unit : I128) (n : I64) : Prop :=
  ∃ v, parseFixed text scale = .ok v ∧ 0 < v ∧ v % unit = 0 ∧
    (SInt.tryFrom (v / unit).toInt : Option I64) = some n

section Reads

variable {text : String} {q : ℚ} {scale : UInt32} {unit : I128} {n : I64}

theorem scaled_pos {v : ℤ} {k : Nat} (h : q * 10 ^ k = v) : 0 < v ↔ 0 < q := by
  have hpow : (0 : ℚ) < 10 ^ k := by positivity
  rw [← Int.cast_pos (R := ℚ), ← h, mul_pos_iff_of_pos_right hpow]

theorem scaled_nonneg {v : ℤ} {k : Nat} (h : q * 10 ^ k = v) : 0 ≤ v ↔ 0 ≤ q := by
  have hpow : (0 : ℚ) < 10 ^ k := by positivity
  rw [← Int.cast_nonneg_iff (R := ℚ), ← h, mul_nonneg_iff_of_pos_right hpow]

/-- The count of units is exact. -/
theorem Denotes.reads_iff (h : Denotes text q) (hu : 0 < unit.toInt) :
    Reads text scale unit n ↔ 0 < q ∧ q * 10 ^ scale.toNat = (n.toInt * unit.toInt : ℤ) ∧
      n.toInt * unit.toInt ≤ 2 ^ 127 - 1 := by
  constructor
  · rintro ⟨v, hparse, hpos, hunits⟩
    obtain ⟨hscaled, hfits⟩ := h.parseFixed_eq_ok.mp hparse
    have hv := SInt.toInt_pos.mpr hpos
    rw [(units_iff hv hu).mp hunits]
    exact ⟨(scaled_pos hscaled).mp hv, hscaled, (le_abs_self _).trans hfits⟩
  · rintro ⟨hq, hscaled, hfits⟩
    have hpos := (scaled_pos hscaled).mpr hq
    obtain ⟨v, -, hv⟩ := SInt.exists_tryFrom (w := 128) (z := n.toInt * unit.toInt)
      (by norm_num; omega) (by norm_num at hfits ⊢; omega)
    rw [← hv] at hscaled hfits hpos
    refine ⟨v, h.parseFixed_eq_ok.mpr ⟨hscaled, ?_⟩, SInt.toInt_pos.mp hpos,
      (units_iff hpos hu).mpr hv.symm⟩
    rwa [abs_of_pos hpos]

theorem Denotes.exists_reads_iff (h : Denotes text q) (hu : 0 < unit.toInt) :
    (∃ n, Reads text scale unit n) ↔ 0 < q ∧ InUnits q scale.toNat unit.toInt := by
  simp only [h.reads_iff hu]
  constructor
  · rintro ⟨n, hq, hscaled, hfits⟩
    have hn := n.bounds.2
    refine ⟨hq, _, hscaled, hfits, Dvd.intro_left _ rfl, ?_⟩
    rw [Int.mul_ediv_cancel _ hu.ne']
    omega
  · rintro ⟨hq, v, hscaled, hfits, ⟨count, rfl⟩, hcount⟩
    rw [Int.mul_ediv_cancel_left _ hu.ne'] at hcount
    have hpos := (scaled_pos hscaled).mpr hq
    have hcount0 : 0 < count := (pos_iff_pos_of_mul_pos hpos).mp hu
    obtain ⟨n, -, hn⟩ := SInt.exists_tryFrom (w := 64) (z := count)
      (by norm_num; omega) (by norm_num; omega)
    refine ⟨n, hq, ?_⟩
    rw [hn, mul_comm count]
    exact ⟨hscaled, hfits⟩

end Reads

/-! ## `canonicalize` -/

/-- The event is well formed on the wire, and its numbers fit the instrument. -/
structure HlAccepts (spec : InstrumentSpec) (event : HlEvent) (px qty fee : ℚ) : Prop where
  side : event.side = "buy" ∨ event.side = "sell"
  px_denotes : Denotes event.px px
  qty_denotes : Denotes event.qty qty
  fee_denotes : Denotes event.fee fee
  px_pos : 0 < px
  qty_pos : 0 < qty
  fee_nonneg : 0 ≤ fee
  px_ticks : InUnits px 6 spec.tickMicro.toInt
  qty_lots : InUnits qty 9 spec.lotQtyE9.toInt
  fee_micro : ∃ n : ℤ, fee * 10 ^ 6 = n ∧ n ≤ 2 ^ 127 - 1

/-- The fill carries these numbers, and its notional is their product in micro-dollars. -/
structure HlExact (spec : InstrumentSpec) (fill : Fill) (px qty fee : ℚ) : Prop where
  px_ticks : (fill.price.toInt * spec.tickMicro.toInt : ℚ) = px * 10 ^ 6
  qty_lots : (fill.qty.toInt * spec.lotQtyE9.toInt : ℚ) = qty * 10 ^ 9
  fee_micro : (fill.fee.toInt : ℚ) = fee * 10 ^ 6
  value : (fill.price.toInt * fill.qty.toInt * spec.microPerTickLot.toInt : ℚ) =
    px * qty * 10 ^ 6
  notional : ∀ v, PositionKeeper.notional fill.price fill.qty spec.microPerTickLot = .ok v →
    (v.toInt : ℚ) = px * qty * 10 ^ 6

/-- Two texts for one number. -/
def SameNumber (text text' : String) : Prop := ∃ q, Denotes text q ∧ Denotes text' q

theorem hlSide_exists_iff (text : String) :
    (∃ side, hlSide text = .ok side) ↔ text = "buy" ∨ text = "sell" := by
  unfold hlSide
  split <;> simp_all

section Hl

variable {registry : Registry} {event : HlEvent} {fill : Fill}

/-- `canonicalize` past the guards that a built registry makes dead. -/
theorem hl_canonicalize_eq_ok (hw : registry.WellFormed) :
    event.canonicalize registry = .ok fill ↔
      ∃ spec side price qty fee,
        InstrumentSource.lookup registry .hl event.symbol = some spec ∧
        hlSide event.side = .ok side ∧ Reads event.px 6 spec.tickMicro price ∧
        Reads event.qty 9 spec.lotQtyE9 qty ∧ parseFixed event.fee 6 = .ok fee ∧ 0 ≤ fee ∧
        fill =
          { venue := .hl, eventId := event.eventId, seq := event.seq, tsMs := event.ts
            account := event.account, instrument := spec.instrument, symbol := event.symbol
            kind := spec.kind, side := side, price := price, qty := qty, fee := fee } := by
  simp only [HlEvent.canonicalize, Registry.resolveSpec_of_wellFormed hw, bind_eq_ok,
    rejectIf_eq_ok, okOr_eq_ok, not_le, not_lt, not_not, Reads]
  constructor
  · rintro ⟨spec, hspec, side, hside, px, hpx, -, hpx0, -, hpxmod, price, hprice, qty9, hqty9, -,
      hqty0, -, hqtymod, qty, hqty, fee, hfee, -, hfee0, hok⟩
    exact ⟨spec, side, price, qty, fee, hspec, hside, ⟨px, hpx, hpx0, hpxmod, hprice⟩,
      ⟨qty9, hqty9, hqty0, hqtymod, hqty⟩, hfee, hfee0, (Except.ok.inj hok).symm⟩
  · rintro ⟨spec, side, price, qty, fee, hspec, hside, ⟨px, hpx, hpx0, hpxmod, hprice⟩,
      ⟨qty9, hqty9, hqty0, hqtymod, hqty⟩, hfee, hfee0, rfl⟩
    exact ⟨spec, hspec, side, hside, px, hpx, ⟨⟩, hpx0, ⟨⟩, hpxmod, price, hprice, qty9, hqty9,
      ⟨⟩, hqty0, ⟨⟩, hqtymod, qty, hqty, fee, hfee, ⟨⟩, hfee0, rfl⟩

theorem Denotes.fee_iff {text : String} {q : ℚ} (h : Denotes text q) :
    (∃ fee, parseFixed text 6 = .ok fee ∧ 0 ≤ fee) ↔
      0 ≤ q ∧ ∃ n : ℤ, q * 10 ^ 6 = n ∧ n ≤ 2 ^ 127 - 1 := by
  constructor
  · rintro ⟨fee, hfee, hnonneg⟩
    obtain ⟨hscaled, hfits⟩ := h.parseFixed_eq_ok.mp hfee
    exact ⟨(scaled_nonneg hscaled).mp (SInt.toInt_nonneg.mpr hnonneg), fee.toInt, hscaled,
      (le_abs_self _).trans hfits⟩
  · rintro ⟨hq, n, hscaled, hfits⟩
    have hn := (scaled_nonneg hscaled).mpr hq
    obtain ⟨fee, -, hfee⟩ := SInt.exists_tryFrom (w := 128) (z := n) (by norm_num; omega)
      (by norm_num at hfits ⊢; omega)
    rw [← hfee] at hscaled hfits hn
    refine ⟨fee, h.parseFixed_eq_ok.mpr ⟨hscaled, ?_⟩, SInt.toInt_nonneg.mp hn⟩
    rwa [abs_of_nonneg hn]

theorem Reads.exists_denotes {text : String} {scale : UInt32} {unit : I128} {n : I64}
    (h : Reads text scale unit n) : ∃ q, Denotes text q := by
  obtain ⟨v, hparse, -⟩ := h
  exact Bitfrost.exists_denotes hparse

theorem hl_accepted_iff (hw : registry.WellFormed) :
    (∃ fill, event.canonicalize registry = .ok fill) ↔
      ∃ spec px qty fee, InstrumentSource.lookup registry .hl event.symbol = some spec ∧
        HlAccepts spec event px qty fee := by
  simp only [hl_canonicalize_eq_ok hw]
  constructor
  · rintro ⟨-, spec, side, price, lots, micro, hspec, hside, hprice, hlots, hmicro, hnonneg, -⟩
    obtain ⟨-, -, hs⟩ := hw.named hspec
    obtain ⟨px, hpx⟩ := hprice.exists_denotes
    obtain ⟨qty, hqty⟩ := hlots.exists_denotes
    obtain ⟨fee, hfee⟩ := exists_denotes hmicro
    obtain ⟨hpx0, hticks⟩ := (hpx.exists_reads_iff hs.tick_pos).mp ⟨price, hprice⟩
    obtain ⟨hqty0, hunits⟩ := (hqty.exists_reads_iff hs.lot_pos).mp ⟨lots, hlots⟩
    obtain ⟨hfee0, hfits⟩ := hfee.fee_iff.mp ⟨micro, hmicro, hnonneg⟩
    exact ⟨spec, px, qty, fee, hspec, (hlSide_exists_iff _).mp ⟨side, hside⟩, hpx, hqty, hfee,
      hpx0, hqty0, hfee0, hticks, hunits, hfits⟩
  · rintro ⟨spec, px, qty, fee, hspec, h⟩
    obtain ⟨-, -, hs⟩ := hw.named hspec
    obtain ⟨side, hside⟩ := (hlSide_exists_iff _).mpr h.side
    obtain ⟨price, hprice⟩ : ∃ price, Reads event.px 6 spec.tickMicro price :=
      (h.px_denotes.exists_reads_iff hs.tick_pos).mpr ⟨h.px_pos, h.px_ticks⟩
    obtain ⟨lots, hlots⟩ : ∃ lots, Reads event.qty 9 spec.lotQtyE9 lots :=
      (h.qty_denotes.exists_reads_iff hs.lot_pos).mpr ⟨h.qty_pos, h.qty_lots⟩
    obtain ⟨micro, hmicro, hnonneg⟩ := h.fee_denotes.fee_iff.mpr ⟨h.fee_nonneg, h.fee_micro⟩
    exact ⟨_, spec, side, price, lots, micro, hspec, hside, hprice, hlots, hmicro, hnonneg, rfl⟩

theorem hl_exact (hw : registry.WellFormed) (h : event.canonicalize registry = .ok fill)
    {spec : InstrumentSpec} {px qty fee : ℚ}
    (hspec : InstrumentSource.lookup registry .hl event.symbol = some spec)
    (hpx : Denotes event.px px) (hqty : Denotes event.qty qty) (hfee : Denotes event.fee fee) :
    HlExact spec fill px qty fee := by
  obtain ⟨spec', side, price, lots, micro, hspec', -, hprice, hlots, hmicro, -, rfl⟩ :=
    (hl_canonicalize_eq_ok hw).mp h
  rw [hspec] at hspec'
  cases hspec'
  obtain ⟨-, -, hs⟩ := hw.named hspec
  obtain ⟨-, hticks, -⟩ := (hpx.reads_iff hs.tick_pos).mp hprice
  obtain ⟨-, hunits, -⟩ := (hqty.reads_iff hs.lot_pos).mp hlots
  obtain ⟨hscaled, -⟩ := hfee.parseFixed_eq_ok.mp hmicro
  push_cast at hticks hunits
  have hvalue : (price.toInt * lots.toInt * spec.microPerTickLot.toInt : ℚ) =
      px * qty * 10 ^ 6 := by
    -- The scale is the tick times the lot over 10^9.
    have hscale : (spec.microPerTickLot.toInt * 1000000000 : ℚ) =
        spec.tickMicro.toInt * spec.lotQtyE9.toInt := by
      exact_mod_cast hs.scale_eq
    have hproduct : (price.toInt * lots.toInt * spec.microPerTickLot.toInt : ℚ) * 1000000000 =
        px * qty * 10 ^ 6 * 1000000000 := by
      calc (price.toInt * lots.toInt * spec.microPerTickLot.toInt : ℚ) * 1000000000
          = (price.toInt * lots.toInt : ℚ) * (spec.microPerTickLot.toInt * 1000000000) := by ring
        _ = (price.toInt * spec.tickMicro.toInt : ℚ) * (lots.toInt * spec.lotQtyE9.toInt) := by
            rw [hscale]
            ring
        _ = (px * 10 ^ 6) * (qty * 10 ^ 9) := by
            rw [← hticks, ← hunits]
        _ = px * qty * 10 ^ 6 * 1000000000 := by ring
    exact mul_right_cancel₀ (by norm_num) hproduct
  refine ⟨hticks.symm, hunits.symm, hscaled.symm, hvalue, fun v hv => ?_⟩
  obtain ⟨mid, hmid, hlast⟩ := Option.bind_eq_some_iff.mp (okOr_eq_ok.mp hv)
  rw [SInt.tryFrom_eq_some.mp hlast, SInt.tryFrom_eq_some.mp hmid, ← hvalue]
  push_cast
  rfl

theorem SameNumber.parseFixed_iff {text text' : String} (h : SameNumber text text')
    {scale : UInt32} {v : I128} :
    parseFixed text scale = .ok v ↔ parseFixed text' scale = .ok v := by
  obtain ⟨q, hq, hq'⟩ := h
  rw [hq.parseFixed_eq_ok, hq'.parseFixed_eq_ok]

theorem hl_respelled (hw : registry.WellFormed) (h : event.canonicalize registry = .ok fill)
    {px qty fee : String} (hpx : SameNumber event.px px) (hqty : SameNumber event.qty qty)
    (hfee : SameNumber event.fee fee) :
    HlEvent.canonicalize { event with px := px, qty := qty, fee := fee } registry = .ok fill := by
  simp only [hl_canonicalize_eq_ok hw, Reads, ← hpx.parseFixed_iff, ← hqty.parseFixed_iff,
    ← hfee.parseFixed_iff] at h ⊢
  exact h

/-- The decimals of an HL event enter exactly: what is accepted, and the numbers it becomes. -/
theorem hl_decimals_exact {specs : List InstrumentSpec} {registry : Registry}
    (h : Registry.tryFromSpecs specs = .ok registry) (event : HlEvent) :
    ((∃ fill, event.canonicalize registry = .ok fill) ↔
      ∃ spec px qty fee, InstrumentSource.lookup registry .hl event.symbol = some spec ∧
        HlAccepts spec event px qty fee) ∧
    ∀ fill, event.canonicalize registry = .ok fill →
      (∀ spec px qty fee, InstrumentSource.lookup registry .hl event.symbol = some spec →
        Denotes event.px px → Denotes event.qty qty → Denotes event.fee fee →
        HlExact spec fill px qty fee) ∧
      ∀ px qty fee, SameNumber event.px px → SameNumber event.qty qty →
        SameNumber event.fee fee →
        HlEvent.canonicalize { event with px := px, qty := qty, fee := fee } registry =
          .ok fill := by
  have hw := Registry.wellFormed_of_tryFromSpecs h
  refine ⟨hl_accepted_iff hw, fun fill hfill => ⟨?_, ?_⟩⟩
  · intro spec px qty fee hspec hpx hqty hfee
    exact hl_exact hw hfill hspec hpx hqty hfee
  · intro px qty fee hpx hqty hfee
    exact hl_respelled hw hfill hpx hqty hfee

theorem hl_decimals_exact_standard :
    let event : HlEvent := ⟨1, "e", 1000, "alice", "BTC-PERP", "buy", " 100.0", "0.002", "-0"⟩
    let fill : Fill := ⟨.hl, "e", 1, 1000, "alice", "BTC-PERP", "BTC-PERP", .perp, .buy, 200, 20, 0⟩
    event.canonicalize Registry.standard = .ok fill ∧
    (∃ spec px qty fee,
      InstrumentSource.lookup Registry.standard .hl event.symbol = some spec ∧
        HlAccepts spec event px qty fee ∧ HlExact spec fill px qty fee) := by
  intro event fill
  have hfill : event.canonicalize Registry.standard = .ok fill := by decide +kernel
  obtain ⟨haccepted, hexact⟩ := hl_decimals_exact Registry.tryFromSpecs_standard event
  obtain ⟨spec, px, qty, fee, hspec, hacc⟩ := haccepted.mp ⟨fill, hfill⟩
  exact ⟨hfill, spec, px, qty, fee, hspec, hacc, (hexact fill hfill).1 spec px qty fee hspec
    hacc.px_denotes hacc.qty_denotes hacc.fee_denotes⟩

end Hl

end Bitfrost
