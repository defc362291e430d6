import Bitfrost.Lib.Keyed
import Bitfrost.Types

/-!
The instrument registry (`instrument.rs`): `tryFromSpecs` validates the list
of specs one at a time, threading the map of symbols and the map of canonical
instruments. A registry that was built carries, for every symbol it resolves,
a spec whose economics are derived and checked.
-/

namespace Bitfrost

open Bitfrost.Lib
open Std (ExtTreeMap LawfulEqCmp TransCmp)

/-- The order of `(Venue, String)` keys. -/
abbrev venueStringCmp : Venue × String → Venue × String → Ordering := pairCmp Prod.fst Prod.snd

instance : TransCmp venueStringCmp := inferInstanceAs (TransCmp (pairCmp Prod.fst Prod.snd))

instance : LawfulEqCmp venueStringCmp := lawfulEqCmp_pairCmp fun _ _ => Prod.ext

structure Registry where
  bySymbol : ExtTreeMap (Venue × String) InstrumentSpec venueStringCmp

inductive RegistryError
  | duplicateSymbol (symbol : String)
  | invalidSpec (symbol : String)
  | arithmeticOverflow (symbol : String)
  | inconsistentInstrument (instrument : String)
deriving DecidableEq

namespace Registry

/-- The two maps the construction loop threads. -/
structure Builder where
  bySymbol : ExtTreeMap (Venue × String) InstrumentSpec venueStringCmp
  byInstrument : ExtTreeMap InstrumentId InstrumentSpec compare

/-- The `match (spec.venue, spec.kind)` of the loop. -/
def checkKind (spec : InstrumentSpec) : Except RegistryError Unit :=
  match spec.venue, spec.kind with
  | .hl, .perp => .ok ()
  | .pm, .binary =>
    rejectIf (spec.lotQtyE9 ≠ 1000000000 ∨ (1000000 : I128) % spec.tickMicro ≠ 0 ∨
      (1000000 : I128) / spec.tickMicro % 100 ≠ 0) (.invalidSpec spec.symbol)
  | _, _ => .error (.invalidSpec spec.symbol)

/-- The consistency check against the first spec seen for the instrument. -/
def checkInstrument (byInstrument : ExtTreeMap InstrumentId InstrumentSpec compare)
    (spec : InstrumentSpec) :
    Except RegistryError (ExtTreeMap InstrumentId InstrumentSpec compare) :=
  match byInstrument[spec.instrument]? with
  | some existing =>
    if existing.kind ≠ spec.kind ∨ existing.tickMicro ≠ spec.tickMicro ∨
        existing.lotQtyE9 ≠ spec.lotQtyE9 ∨ existing.microPerTickLot ≠ spec.microPerTickLot then
      .error (.inconsistentInstrument spec.instrument)
    else .ok byInstrument
  | none => .ok (byInstrument.insert spec.instrument spec)

/-- One turn of the construction loop. -/
def addSpec (b : Builder) (spec : InstrumentSpec) : Except RegistryError Builder := do
  rejectIf (spec.tickMicro ≤ 0 ∨ spec.lotQtyE9 ≤ 0) (.invalidSpec spec.symbol)
  checkKind spec
  let product ← okOr (spec.tickMicro.checkedMul spec.lotQtyE9) (.arithmeticOverflow spec.symbol)
  rejectIf (product % 1000000000 ≠ 0) (.invalidSpec spec.symbol)
  let spec := { spec with microPerTickLot := product / 1000000000 }
  rejectIf (spec.microPerTickLot ≤ 0) (.invalidSpec spec.symbol)
  let key := (spec.venue, spec.symbol)
  rejectIf (key ∈ b.bySymbol) (.duplicateSymbol spec.symbol)
  let byInstrument ← checkInstrument b.byInstrument spec
  .ok ⟨b.bySymbol.insert key spec, byInstrument⟩

def tryFromSpecs (specs : List InstrumentSpec) : Except RegistryError Registry := do
  let b ← specs.foldlM addSpec ⟨∅, ∅⟩
  .ok ⟨b.bySymbol⟩

instance : InstrumentSource Registry where
  lookup self venue symbol := self.bySymbol[(venue, symbol)]?

/-- The four instruments of `Registry::standard`. -/
def standardSpecs : List InstrumentSpec :=
  [⟨"BTC-PERP", "BTC-PERP", .hl, .perp, 500000, 100000, 0⟩,
   ⟨"ETH-PERP", "ETH-PERP", .hl, .perp, 50000, 1000000, 0⟩,
   ⟨"FED-CUT-SEP", "FED-CUT-SEP", .pm, .binary, 100, 1000000000, 0⟩,
   ⟨"CPI-ABOVE-AUG", "CPI-ABOVE-AUG", .pm, .binary, 100, 1000000000, 0⟩]

def standard : Registry := (tryFromSpecs standardSpecs).toOption.getD ⟨∅⟩

theorem tryFromSpecs_standard : tryFromSpecs standardSpecs = .ok standard := by
  have h : (tryFromSpecs standardSpecs).toOption.isSome := by decide
  unfold standard
  cases hr : tryFromSpecs standardSpecs with
  | ok registry => rfl
  | error e =>
    rw [hr] at h
    cases h

/-! ## What construction guarantees -/

/-- The venue and the kind of a spec agree, and a binary pays one dollar in whole hundreds
of ticks. -/
def Shaped (spec : InstrumentSpec) : Prop :=
  spec.venue = .hl ∧ spec.kind = .perp ∨
  spec.venue = .pm ∧ spec.kind = .binary ∧ spec.lotQtyE9.toInt = 1000000000 ∧
    spec.tickMicro.toInt ∣ 1000000 ∧ 100 ∣ 1000000 / spec.tickMicro.toInt

/-- A spec as the construction stores it. -/
structure Sound (spec : InstrumentSpec) : Prop where
  tick_pos : 0 < spec.tickMicro.toInt
  lot_pos : 0 < spec.lotQtyE9.toInt
  scale_pos : 0 < spec.microPerTickLot.toInt
  shaped : Shaped spec
  scale_eq : spec.microPerTickLot.toInt * 1000000000 = spec.tickMicro.toInt * spec.lotQtyE9.toInt

/-- Two specs price their contracts alike. -/
structure SameEconomics (a b : InstrumentSpec) : Prop where
  kind : a.kind = b.kind
  tick : a.tickMicro = b.tickMicro
  lot : a.lotQtyE9 = b.lotQtyE9
  scale : a.microPerTickLot = b.microPerTickLot

theorem SameEconomics.refl (a : InstrumentSpec) : SameEconomics a a := ⟨rfl, rfl, rfl, rfl⟩

theorem SameEconomics.symm {a b : InstrumentSpec} (h : SameEconomics a b) : SameEconomics b a :=
  ⟨h.kind.symm, h.tick.symm, h.lot.symm, h.scale.symm⟩

theorem SameEconomics.trans {a b c : InstrumentSpec} (h : SameEconomics a b)
    (h' : SameEconomics b c) : SameEconomics a c :=
  ⟨h.kind.trans h'.kind, h.tick.trans h'.tick, h.lot.trans h'.lot, h.scale.trans h'.scale⟩

theorem checkKind_eq_ok {spec : InstrumentSpec} (ht : 0 < spec.tickMicro.toInt) :
    checkKind spec = .ok () ↔ Shaped spec := by
  have hmod := SInt.toInt_mod_of_nonneg (a := (1000000 : I128)) (by decide) (by decide) ht
  have hdiv := SInt.toInt_div_of_nonneg (a := (1000000 : I128)) (by decide) (by decide) ht
  have hpos : 0 ≤ ((1000000 : I128) / spec.tickMicro).toInt := by
    rw [hdiv]
    exact Int.ediv_nonneg (by decide) ht.le
  have hhundred := SInt.toInt_mod_of_nonneg (a := (1000000 : I128) / spec.tickMicro)
    (b := 100) (by decide) hpos (by decide)
  unfold checkKind Shaped
  rcases hv : spec.venue with _ | _ <;> rcases hk : spec.kind with _ | _
  · simp
  · simp
  · simp
  · simp only [rejectIf_eq_ok, not_or, not_not, ← SInt.toInt_inj, hmod, hhundred, hdiv]
    simp only [reduceCtorEq, true_and, false_and, false_or, Int.dvd_iff_emod_eq_zero]
    rfl

theorem checkInstrument_eq_ok {m m' : ExtTreeMap InstrumentId InstrumentSpec compare}
    {spec : InstrumentSpec} :
    checkInstrument m spec = .ok m' ↔
      (∃ existing, m[spec.instrument]? = some existing ∧ SameEconomics existing spec ∧ m' = m) ∨
      (m[spec.instrument]? = none ∧ m' = m.insert spec.instrument spec) := by
  unfold checkInstrument
  cases hm : m[spec.instrument]? with
  | none => simp [eq_comm]
  | some existing =>
    simp only [Option.some.injEq, exists_eq_left', reduceCtorEq, false_and, or_false]
    constructor
    · intro h
      split at h
      · cases h
      · next hc =>
        simp only [not_or, not_not] at hc
        obtain ⟨hk, ht, hl, hs⟩ := hc
        exact ⟨⟨hk, ht, hl, hs⟩, (Except.ok.inj h).symm⟩
    · rintro ⟨⟨hk, ht, hl, hs⟩, rfl⟩
      simp [hk, ht, hl, hs]

/-- The map of instruments afterwards: the spec's instrument has a first spec that prices alike,
and no other entry appears, changes or goes. -/
theorem checkInstrument_recorded {m m' : ExtTreeMap InstrumentId InstrumentSpec compare}
    {spec : InstrumentSpec} (h : checkInstrument m spec = .ok m') :
    (∃ first, m'[spec.instrument]? = some first ∧ SameEconomics first spec) ∧
      (∀ {instrument : InstrumentId} {first : InstrumentSpec},
        m[instrument]? = some first → m'[instrument]? = some first) ∧
      ∀ {instrument : InstrumentId} {first : InstrumentSpec},
        m'[instrument]? = some first →
        m[instrument]? = some first ∨ instrument = spec.instrument ∧ first = spec := by
  rcases checkInstrument_eq_ok.mp h with ⟨first, hfirst, hsame, rfl⟩ | ⟨hnone, rfl⟩
  · exact ⟨⟨first, hfirst, hsame⟩, id, .inl⟩
  · refine ⟨⟨spec, ?_, SameEconomics.refl spec⟩, ?_, ?_⟩
    · rw [getElem?_insert_eq, if_pos rfl]
    · intro instrument first hfirst
      rw [getElem?_insert_eq, if_neg, hfirst]
      rintro rfl
      rw [hnone] at hfirst
      cases hfirst
    · intro instrument first hfirst
      rw [getElem?_insert_eq] at hfirst
      split at hfirst
      · next hi => exact .inr ⟨hi, (Option.some.inj hfirst).symm⟩
      · exact .inl hfirst

/-- What the loop asks of a spec by itself. -/
structure Acceptable (spec : InstrumentSpec) : Prop where
  tick_pos : 0 < spec.tickMicro.toInt
  lot_pos : 0 < spec.lotQtyE9.toInt
  shaped : Shaped spec
  fits : spec.tickMicro.toInt * spec.lotQtyE9.toInt < 2 ^ 127
  whole : 1000000000 ∣ spec.tickMicro.toInt * spec.lotQtyE9.toInt

/-- A spec as the loop stores it: the scale is derived, whatever the caller supplied. -/
def stored (spec : InstrumentSpec) : InstrumentSpec :=
  { spec with
    microPerTickLot := SInt.wrap (spec.tickMicro.toInt * spec.lotQtyE9.toInt / 1000000000) }

theorem Acceptable.scale {spec : InstrumentSpec} (h : Acceptable spec) :
    (stored spec).microPerTickLot.toInt =
        spec.tickMicro.toInt * spec.lotQtyE9.toInt / 1000000000 ∧
      1 ≤ (stored spec).microPerTickLot.toInt := by
  have hpos := mul_pos h.tick_pos h.lot_pos
  have hone : 0 < spec.tickMicro.toInt * spec.lotQtyE9.toInt / 1000000000 :=
    Int.ediv_pos_of_pos_of_dvd hpos (by decide) h.whole
  have hle := Int.ediv_le_self 1000000000 hpos.le
  have hval := SInt.toInt_wrap_of_mem (w := 128)
    (z := spec.tickMicro.toInt * spec.lotQtyE9.toInt / 1000000000) (by decide)
    (by norm_num; omega) (by have := h.fits; norm_num at this ⊢; omega)
  rw [stored, hval]
  exact ⟨rfl, hone⟩

theorem Acceptable.sound {spec : InstrumentSpec} (h : Acceptable spec) : Sound (stored spec) where
  tick_pos := h.tick_pos
  lot_pos := h.lot_pos
  scale_pos := h.scale.2
  shaped := h.shaped
  scale_eq := by
    rw [h.scale.1]
    exact Int.ediv_mul_cancel h.whole

/-- The product the loop computes, when it fits, is whole exactly when its remainder is zero. -/
theorem scale_of_product {spec : InstrumentSpec} {product : I128} (ht : 0 < spec.tickMicro.toInt)
    (hl : 0 < spec.lotQtyE9.toInt)
    (hval : product.toInt = spec.tickMicro.toInt * spec.lotQtyE9.toInt) :
    (product % 1000000000 = 0 ↔ 1000000000 ∣ spec.tickMicro.toInt * spec.lotQtyE9.toInt) ∧
      product / 1000000000 = (stored spec).microPerTickLot := by
  have hpos : 0 ≤ product.toInt := by
    rw [hval]
    exact (mul_pos ht hl).le
  have hmod := SInt.toInt_mod_of_nonneg (b := (1000000000 : I128)) (by decide) hpos (by decide)
  have hdiv := SInt.toInt_div_of_nonneg (b := (1000000000 : I128)) (by decide) hpos (by decide)
  have hunit : (1000000000 : I128).toInt = 1000000000 := by decide
  rw [hunit] at hmod hdiv
  constructor
  · rw [← SInt.toInt_eq_zero, hmod, hval, Int.dvd_iff_emod_eq_zero]
  · rw [← SInt.wrap_toInt (product / 1000000000) (by decide), hdiv, hval, stored]

/-- What one turn of the loop accepts, and what it adds. -/
theorem addSpec_eq_ok {b b' : Builder} {spec : InstrumentSpec} :
    addSpec b spec = .ok b' ↔
      Acceptable spec ∧ (spec.venue, spec.symbol) ∉ b.bySymbol ∧
      b'.bySymbol = b.bySymbol.insert (spec.venue, spec.symbol) (stored spec) ∧
      checkInstrument b.byInstrument (stored spec) = .ok b'.byInstrument := by
  simp only [addSpec, bind_eq_ok, rejectIf_eq_ok, okOr_eq_ok, not_or, not_le, not_not]
  constructor
  · rintro ⟨-, ⟨ht, hl⟩, _, hkind, product, hprod, -, hdvd, -, hscale, -, hnew, byInstrument,
      hinst, hb⟩
    rw [← SInt.toInt_pos] at ht hl
    have hval : product.toInt = spec.tickMicro.toInt * spec.lotQtyE9.toInt :=
      SInt.tryFrom_eq_some.mp hprod
    obtain ⟨hwhole, hstored⟩ := scale_of_product ht hl hval
    rw [hstored] at hinst hb
    cases hb
    refine ⟨⟨ht, hl, (checkKind_eq_ok ht).mp hkind, ?_, hwhole.mp hdvd⟩, hnew, rfl, hinst⟩
    rw [← hval]
    exact (I128.bounds product).2
  · rintro ⟨h, hnew, hsym, hinst⟩
    obtain ⟨product, hprod, hval⟩ := SInt.exists_tryFrom (w := 128)
      (z := spec.tickMicro.toInt * spec.lotQtyE9.toInt)
      (by have := mul_pos h.tick_pos h.lot_pos; norm_num; omega)
      (by have := h.fits; norm_num at this ⊢; omega)
    obtain ⟨hwhole, hstored⟩ := scale_of_product h.tick_pos h.lot_pos hval
    refine ⟨⟨⟩, ⟨SInt.toInt_pos.mp h.tick_pos, SInt.toInt_pos.mp h.lot_pos⟩, ⟨⟩,
      (checkKind_eq_ok h.tick_pos).mpr h.shaped, product, hprod, ⟨⟩, hwhole.mpr h.whole, ⟨⟩, ?_,
      ⟨⟩, hnew, b'.byInstrument, ?_, ?_⟩
    · rw [hstored, ← SInt.toInt_pos]
      exact h.scale.2
    · rw [hstored]
      exact hinst
    · rw [hstored]
      show Except.ok (Builder.mk (b.bySymbol.insert _ (stored spec)) _) = _
      rw [← hsym]

/-- The maps of the loop: every symbol holds a sound spec of its own name, whose economics are
those recorded for its instrument. -/
structure Builder.Consistent (b : Builder) : Prop where
  named : ∀ {venue : Venue} {symbol : String} {spec : InstrumentSpec},
    b.bySymbol[(venue, symbol)]? = some spec →
    spec.venue = venue ∧ spec.symbol = symbol ∧ Sound spec
  recorded : ∀ {key : Venue × String} {spec : InstrumentSpec}, b.bySymbol[key]? = some spec →
    ∃ first, b.byInstrument[spec.instrument]? = some first ∧ SameEconomics first spec

theorem Builder.Consistent.addSpec {b b' : Builder} {spec : InstrumentSpec} (hb : b.Consistent)
    (h : Registry.addSpec b spec = .ok b') : b'.Consistent := by
  obtain ⟨hacc, -, hsym, hinst⟩ := addSpec_eq_ok.mp h
  obtain ⟨hrecorded, hkept, -⟩ := checkInstrument_recorded hinst
  constructor
  · intro venue symbol found hfound
    rw [hsym, getElem?_insert_eq] at hfound
    split at hfound
    · next hkey =>
      cases hfound
      cases hkey
      exact ⟨rfl, rfl, hacc.sound⟩
    · exact hb.named hfound
  · intro key found hfound
    rw [hsym, getElem?_insert_eq] at hfound
    split at hfound
    · cases hfound
      exact hrecorded
    · obtain ⟨first, hfirst, hsame⟩ := hb.recorded hfound
      exact ⟨first, hkept hfirst, hsame⟩

theorem Builder.Consistent.foldlM {b b' : Builder} {specs : List InstrumentSpec}
    (hb : b.Consistent) (h : specs.foldlM Registry.addSpec b = .ok b') : b'.Consistent := by
  induction specs generalizing b with
  | nil =>
    cases h
    exact hb
  | cons spec specs ih =>
    rw [List.foldlM_cons, bind_eq_ok] at h
    obtain ⟨mid, hmid, hrest⟩ := h
    exact ih (hb.addSpec hmid) hrest

/-- What every registry that was built satisfies. -/
structure WellFormed (registry : Registry) : Prop where
  named : ∀ {venue symbol spec}, InstrumentSource.lookup registry venue symbol = some spec →
    spec.venue = venue ∧ spec.symbol = symbol ∧ Sound spec
  economics : ∀ {venue venue' symbol symbol' spec spec'},
    InstrumentSource.lookup registry venue symbol = some spec →
    InstrumentSource.lookup registry venue' symbol' = some spec' →
    spec.instrument = spec'.instrument → SameEconomics spec spec'

theorem wellFormed_of_tryFromSpecs {specs : List InstrumentSpec} {registry : Registry}
    (h : tryFromSpecs specs = .ok registry) : registry.WellFormed := by
  unfold tryFromSpecs at h
  rw [bind_eq_ok] at h
  obtain ⟨b, hb, hok⟩ := h
  cases hok
  have hempty : Builder.Consistent ⟨∅, ∅⟩ := by
    constructor <;> intros <;> simp_all
  have hcons := hempty.foldlM hb
  refine ⟨hcons.named, ?_⟩
  intro venue venue' symbol symbol' spec spec' hs hs' hi
  obtain ⟨first, hfirst, hsame⟩ := hcons.recorded hs
  obtain ⟨first', hfirst', hsame'⟩ := hcons.recorded hs'
  rw [hi, hfirst'] at hfirst
  cases hfirst
  exact hsame.symm.trans hsame'

/-- The contracts of `instrument` are worth `scale` micro-dollars per tick and lot. -/
def Scales (registry : Registry) (instrument : InstrumentId) (scale : Int) : Prop :=
  ∃ venue symbol spec, InstrumentSource.lookup registry venue symbol = some spec ∧
    spec.instrument = instrument ∧ spec.microPerTickLot.toInt = scale

variable {registry : Registry} {spec spec' : InstrumentSpec} {venue venue' : Venue}
  {symbol symbol' : String}

theorem WellFormed.scales_unique (hw : registry.WellFormed) {instrument : InstrumentId}
    {scale scale' : Int} (h : registry.Scales instrument scale)
    (h' : registry.Scales instrument scale') : scale = scale' := by
  obtain ⟨venue, symbol, spec, hs, hi, rfl⟩ := h
  obtain ⟨venue', symbol', spec', hs', hi', rfl⟩ := h'
  rw [(hw.economics hs hs' (hi.trans hi'.symm)).scale]

theorem WellFormed.scales_pos (hw : registry.WellFormed) {instrument : InstrumentId}
    {scale : Int} (h : registry.Scales instrument scale) : 0 < scale := by
  obtain ⟨venue, symbol, spec, hs, -, rfl⟩ := h
  exact (hw.named hs).2.2.scale_pos

/-- No instrument is reachable from both venues: its kind determines its venue. -/
theorem WellFormed.venue_eq (hw : registry.WellFormed)
    (h : InstrumentSource.lookup registry venue symbol = some spec)
    (h' : InstrumentSource.lookup registry venue' symbol' = some spec')
    (hi : spec.instrument = spec'.instrument) : venue = venue' := by
  obtain ⟨rfl, -, hs⟩ := hw.named h
  obtain ⟨rfl, -, hs'⟩ := hw.named h'
  have hkind := (hw.economics h h' hi).kind
  rcases hs.shaped with ⟨hv, hk⟩ | ⟨hv, hk, -⟩ <;>
    rcases hs'.shaped with ⟨hv', hk'⟩ | ⟨hv', hk', -⟩ <;> simp_all

theorem WellFormed.kind_of_pm (hw : registry.WellFormed)
    (h : InstrumentSource.lookup registry .pm symbol = some spec) : spec.kind = .binary := by
  obtain ⟨hvenue, -, hs⟩ := hw.named h
  rcases hs.shaped with ⟨hhl, -⟩ | ⟨-, hk, -⟩
  · rw [hvenue] at hhl
    cases hhl
  · exact hk

/-- The payout of a binary in ticks. -/
def full (spec : InstrumentSpec) : Int := 1000000 / spec.tickMicro.toInt

/-- One contract of a binary pays exactly one dollar, an even number of ticks. -/
theorem Sound.binary (h : Sound spec) (hk : spec.kind = .binary) :
    spec.tickMicro.toInt ∣ 1000000 ∧ 100 ∣ full spec ∧
      full spec * spec.microPerTickLot.toInt = 1000000 ∧ 100 ≤ full spec := by
  rcases h.shaped with ⟨-, hperp⟩ | ⟨-, -, hlot, hdvd, hhundred⟩
  · rw [hk] at hperp
    cases hperp
  · have hscale : spec.microPerTickLot.toInt = spec.tickMicro.toInt := by
      have := h.scale_eq
      rw [hlot] at this
      omega
    have hpay : full spec * spec.microPerTickLot.toInt = 1000000 := by
      rw [full, hscale]
      exact Int.ediv_mul_cancel hdvd
    have hpos : 0 < full spec := by
      by_contra hle
      have := mul_nonpos_of_nonpos_of_nonneg (not_lt.mp hle) h.scale_pos.le
      omega
    exact ⟨hdvd, hhundred, hpay, Int.le_of_dvd hpos hhundred⟩

end Registry

end Bitfrost
