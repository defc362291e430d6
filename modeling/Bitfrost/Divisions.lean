import Bitfrost.Ledger

/-!
The half-even division and its two calls in `transition`. The division
rounds to the nearest, ties to even, and fails only when doubling the
remainder overflows; on a keeper that ran, neither call fails, because the
cost of an open position stays between one tick and the largest price a lot.
-/

namespace Bitfrost

open Bitfrost.Lib

namespace PositionKeeper

/-! ## The division -/

/-- The result is the half-even quotient and nothing else is; there is none only when doubling
the remainder overflows. -/
structure DividesHalfEven (n d : I128) : Prop where
  rounds : ∀ r, divRoundHalfEven n d = .ok r → IsHalfEven n.toInt d.toInt r.toInt
  unique : ∀ r, divRoundHalfEven n d = .ok r →
    ∀ r', IsHalfEven n.toInt d.toInt r' → r' = r.toInt
  fails : ∀ e, divRoundHalfEven n d = .error e → 2 ^ 127 - 1 < 2 * (n.toInt % d.toInt)

theorem dividesHalfEven {n d : I128} (hn : 0 ≤ n.toInt) (hd : 0 < d.toInt) :
    DividesHalfEven n d := by
  have hexits := divRoundHalfEven_exits hn hd
  have hspec := roundHalfEven_spec n.toInt hd
  refine ⟨?_, ?_, ?_⟩
  · intro r h
    rw [hexits.of_ok h]
    exact hspec
  · intro r h r' hr'
    rw [hexits.of_ok h]
    exact hr'.unique hspec hd
  · intro e h
    have hover := (hexits.of_error h).2
    omega

/-! ## The calls of `transition` -/

/-- What `transition` has done when it chooses its branch. -/
structure Entered (keeper : PositionKeeper Registry) (fill : Fill) (spec : InstrumentSpec)
    (signedFillQty : I64) : Prop where
  found : InstrumentSource.lookup keeper.instruments fill.venue fill.symbol = some spec
  fill_valid : validateFill fill spec = .ok ()
  position_valid : validatePosition (keeper.standing (keyOf fill)) = .ok ()
  signed : signedBy fill.side fill.qty = .ok signedFillQty

/-- The fill opens or adds to its position. -/
def Adds (before : Position) (signedFillQty : I64) : Prop :=
  before.netQty = 0 ∨ before.netQty.signum = signedFillQty.signum

instance (before : Position) (signedFillQty : I64) : Decidable (Adds before signedFillQty) :=
  inferInstanceAs (Decidable (_ ∨ _))

/-- The legs of the branch that `transition` takes. -/
def branchLegs (before : Position) (fill : Fill) (spec : InstrumentSpec) (signedFillQty : I64) :
    Except RejectReason Legs :=
  if Adds before signedFillQty then openLegs before fill spec signedFillQty
  else closeLegs before fill spec signedFillQty

/-- What a closing fill can overflow besides the division: the size of the position, the proceeds,
the product that a partial close allocates, the cost of what reopens. -/
def ClosingOverflows (before : Position) (fill : Fill) (spec : InstrumentSpec) : Prop :=
  let closed := min |before.netQty.toInt| fill.qty.toInt
  2 ^ 63 ≤ |before.netQty.toInt| ∨
    2 ^ 127 ≤ fill.price.toInt * closed * spec.microPerTickLot.toInt ∨
    (closed < |before.netQty.toInt| ∧ 2 ^ 127 ≤ before.openCost.toInt * closed) ∨
    2 ^ 127 ≤ fill.price.toInt * (fill.qty.toInt - closed) * spec.microPerTickLot.toInt

section Closing

variable {before : Position} {fill : Fill} {spec : InstrumentSpec}
  {signedFillQty oldAbs closedQty remaining : I64} {allocated delta : I128}

/-- The share of a partial close is divided out; only its product can overflow. -/
theorem allocatedCost_overflow {cost : I128} (hc : 0 ≤ cost.toInt) (hk : 0 < closedQty.toInt)
    (hle : closedQty.toInt ≤ oldAbs.toInt) :
    Exits (allocatedCost cost closedQty oldAbs) (fun a => 0 ≤ a.toInt)
      (OverflowsIf (closedQty.toInt < oldAbs.toInt ∧
        2 ^ 127 ≤ cost.toInt * closedQty.toInt)) := by
  by_cases hall : closedQty = oldAbs
  · rw [allocatedCost, if_pos hall]
    exact hc
  · have hlt : closedQty.toInt < oldAbs.toInt :=
      lt_of_le_of_ne hle (mt SInt.toInt_inj.mp hall)
    refine (allocatedCost_exits hc hk.le (hk.trans hlt)).mono (fun a ha => ?_)
      (OverflowsIf.mono fun h => ⟨hlt, h⟩)
    rw [ha, if_neg hlt.ne]
    exact Book.fair_halfEven.nonneg hk.le hlt hc

/-- After the allocation only the cost of what reopens can overflow. -/
theorem afterClose_overflow (hf : fill.Proper) (hs : 0 < spec.microPerTickLot.toInt)
    (hsigned : signedFillQty.toInt = fill.signedQty) (hcost : 0 ≤ before.openCost.toInt)
    (hop : Opposes before.netQty.toInt fill.signedQty)
    (hold : oldAbs.toInt = |before.netQty.toInt|)
    (hk : closedQty.toInt = min |before.netQty.toInt| fill.qty.toInt)
    (halloc : 0 ≤ allocated.toInt)
    (hrem : remaining.toInt = fill.qty.toInt - closedQty.toInt) :
    Exits (afterClose before fill spec signedFillQty oldAbs closedQty allocated delta remaining)
      (fun _ => True)
      (OverflowsIf (2 ^ 127 ≤
        fill.price.toInt * (fill.qty.toInt - closedQty.toInt) * spec.microPerTickLot.toInt)) := by
  have habs := hf.abs_signedQty
  unfold afterClose
  by_cases hpart : closedQty < oldAbs
  · have hlt : closedQty.toInt < oldAbs.toInt := SInt.toInt_lt.mpr hpart
    have hbound := abs_le.mp (hop.abs_add_of_lt (by omega)).le
    have hqty := abs_nonneg fill.signedQty
    have hold' := oldAbs.bounds.2
    have hcost' := before.openCost.bounds.2
    have halloc' := allocated.bounds.2
    rw [if_pos hpart]
    refine Exits.bind (exits_i64 fun h => absurd h (by rw [hsigned]; omega)) fun newQty _ => ?_
    exact Exits.bind (exits_i128 fun h => absurd h (by omega)) fun newCost _ => trivial
  · rw [if_neg hpart]
    by_cases hzero : remaining = 0
    · rw [if_pos hzero]
      trivial
    · have hrem0 : 0 ≤ remaining.toInt := by
        rw [hrem, hk]
        exact sub_nonneg.mpr (min_le_right _ _)
      rw [if_neg hzero, ← hrem]
      refine Exits.bind ((signedBy_exits hrem0).mono (fun _ => id) fun _ h => h.elim)
        fun newQty _ => ?_
      exact Exits.bind (notional_exits hf.price_pos.le hrem0 hs) fun newCost _ => trivial

/-- A closing fill that fails has overflowed a check of its own, not the division. -/
theorem closeLegs_overflow (hf : fill.Proper) (hs : 0 < spec.microPerTickLot.toInt)
    (hsigned : signedFillQty.toInt = fill.signedQty) (hcost : 0 ≤ before.openCost.toInt)
    (hop : Opposes before.netQty.toInt fill.signedQty) :
    Exits (closeLegs before fill spec signedFillQty) (fun _ => True)
      (OverflowsIf (ClosingOverflows before fill spec)) := by
  have hnet0 := abs_pos.mpr hop.net_ne_zero
  unfold closeLegs ClosingOverflows
  refine Exits.bind ((checkedAbs_exits _).mono (fun _ => id) (OverflowsIf.mono .inl))
    fun oldAbs hold => ?_
  dsimp only
  generalize hmin : min oldAbs fill.qty = closedQty
  have hk : closedQty.toInt = min |before.netQty.toInt| fill.qty.toInt := by
    rw [← hmin, SInt.toInt_min, hold]
  have hk0 : 0 < closedQty.toInt := hk ▸ lt_min hnet0 hf.qty_pos
  have hkold : closedQty.toInt ≤ oldAbs.toInt := by
    rw [hk, hold]
    exact min_le_left _ _
  rw [← hk]
  refine Exits.bind ((notional_exits hf.price_pos.le hk0.le hs).mono (fun _ => id)
    (OverflowsIf.mono fun h => .inr (.inl h))) fun exitNotional hexit => ?_
  have hexit0 : 0 ≤ exitNotional.toInt :=
    hexit ▸ mul_nonneg (mul_nonneg hf.price_pos.le hk0.le) hs.le
  refine Exits.bind ((allocatedCost_overflow hcost hk0 hkold).mono (fun _ => id)
    (OverflowsIf.mono fun h => .inr (.inr (.inl (hold ▸ h))))) fun allocated halloc => ?_
  refine Exits.bind ((realizedDelta_exits hop.net_ne_zero hexit0 halloc).mono (fun _ => id)
    fun _ h => h.elim) fun delta _ => ?_
  have hqty := fill.qty.bounds.2
  have hkqty : closedQty.toInt ≤ fill.qty.toInt := hk ▸ min_le_right _ _
  refine Exits.bind (exits_i64 fun h => absurd h (by omega)) fun remaining hrem => ?_
  exact (afterClose_overflow hf hs hsigned hcost hop hold hk halloc hrem).mono (fun _ => id)
    (OverflowsIf.mono fun h => .inr (.inr (.inr h)))

end Closing

/-! ## They never fail -/

/-- A fill that gets past the guards gets its share of the cost and its average from the division
whenever it comes to one; what fails instead is another check. -/
structure DivisionsSucceed (before : Position) (fill : Fill) (spec : InstrumentSpec)
    (signedFillQty : I64) : Prop where
  allocation : ¬ Adds before signedFillQty → ∀ oldAbs numerator,
    checkedAbs before.netQty = .ok oldAbs → min oldAbs fill.qty ≠ oldAbs →
    before.openCost.checkedMul (min oldAbs fill.qty).toI128 = some numerator →
    ∃ cost, divRoundHalfEven numerator oldAbs.toI128 = .ok cost ∧
      allocatedCost before.openCost (min oldAbs fill.qty) oldAbs = .ok cost
  closing : ¬ Adds before signedFillQty → ∀ reason,
    closeLegs before fill spec signedFillQty = .error reason →
    reason = .arithmeticOverflow ∧ ClosingOverflows before fill spec
  average : ∀ legs, branchLegs before fill spec signedFillQty = .ok legs → legs.newQty ≠ 0 →
    ∀ newAbs, checkedAbs legs.newQty = .ok newAbs →
    ∃ denominator rounded price, newAbs.toI128.checkedMul spec.microPerTickLot = some denominator ∧
      divRoundHalfEven legs.newCost denominator = .ok rounded ∧
      SInt.tryFrom rounded.toInt = some price ∧ averageOf legs spec = .ok (some price)
  averaging : ∀ legs, branchLegs before fill spec signedFillQty = .ok legs →
    ∀ reason, averageOf legs spec = .error reason → checkedAbs legs.newQty = .error reason

/-- A fill that gets past the guards and fails has failed on its legs, its size, its profit or its
fees. -/
def FailsElsewhere (keeper : PositionKeeper Registry) (fill : Fill) (spec : InstrumentSpec)
    (signedFillQty : I64) : Prop :=
  let before := keeper.standing (keyOf fill)
  ∀ reason, (keeper.apply fill).1 = .error reason →
    branchLegs before fill spec signedFillQty = .error reason ∨
      ∃ legs, branchLegs before fill spec signedFillQty = .ok legs ∧
        (checkedAbs legs.newQty = .error reason ∨
          before.realizedPnl.checkedAdd legs.realizedDelta = none ∨
          before.fees.checkedAdd fill.fee = none)

section Booked

variable {registry : Registry} {journal : Journal} {keeper : PositionKeeper Registry} {fill : Fill}
  {spec : InstrumentSpec} {before : Position} {signedFillQty : I64}

/-- What the run guarantees to a fill that gets past the guards. -/
theorem Booked.entered (hw : registry.WellFormed) (hb : Booked registry journal keeper)
    (h : Entered keeper fill spec signedFillQty) :
    fill.Proper ∧ 0 < spec.microPerTickLot.toInt ∧
      (keeper.standing (keyOf fill)).Healthy spec.microPerTickLot.toInt ∧
      signedFillQty.toInt = fill.signedQty := by
  have hl := h.found
  rw [hb.source] at hl
  obtain ⟨hf, hscales⟩ := scales_of_validated hl h.fill_valid
  exact ⟨hf, hw.scales_pos hscales, hb.healthy (keyOf fill) _ hscales,
    (signedBy_exits hf.qty_pos.le).of_ok h.signed⟩

/-- A fill that does not add is against an open position. -/
theorem opposes_of_not_adds (hsigned : signedFillQty.toInt = fill.signedQty)
    (h : ¬ Adds before signedFillQty) : Opposes before.netQty.toInt fill.signedQty := by
  refine (opens_or_opposes _ _).resolve_left fun ho => h ?_
  rw [Opens, ← hsigned] at ho
  exact ho.imp SInt.toInt_eq_zero.mp fun hsign => by rw [SInt.signum, SInt.signum, hsign]

theorem divides_allocation (hf : fill.Proper) (hcost : 0 ≤ before.openCost.toInt)
    (hop : Opposes before.netQty.toInt fill.signedQty) {oldAbs : I64} {numerator : I128}
    (hold : checkedAbs before.netQty = .ok oldAbs) (hpart : min oldAbs fill.qty ≠ oldAbs)
    (hnum : before.openCost.checkedMul (min oldAbs fill.qty).toI128 = some numerator) :
    ∃ cost, divRoundHalfEven numerator oldAbs.toI128 = .ok cost ∧
      allocatedCost before.openCost (min oldAbs fill.qty) oldAbs = .ok cost := by
  have hold' : oldAbs.toInt = |before.netQty.toInt| := (checkedAbs_exits _).of_ok hold
  have hpos : 0 < oldAbs.toInt := hold' ▸ abs_pos.mpr hop.net_ne_zero
  have hclosed : 0 < (min oldAbs fill.qty).toInt := by
    rw [SInt.toInt_min]
    exact lt_min hpos hf.qty_pos
  have hle : (min oldAbs fill.qty).toInt ≤ oldAbs.toInt := by
    rw [SInt.toInt_min]
    exact min_le_left _ _
  have hallocated : allocatedCost before.openCost (min oldAbs fill.qty) oldAbs =
      divRoundHalfEven numerator oldAbs.toI128 := by
    rw [allocatedCost, if_neg hpart, hnum]
    rfl
  cases hdiv : divRoundHalfEven numerator oldAbs.toI128 with
  | ok cost => exact ⟨cost, rfl, hallocated.trans hdiv⟩
  | error reason =>
    -- The product fits, and the allocation has nothing else to overflow.
    have hover := ((allocatedCost_overflow hcost hclosed hle).of_error (hallocated.trans hdiv)).2.2
    have hvalue := SInt.tryFrom_eq_some.mp hnum
    have htop := numerator.bounds.2
    rw [I64.toInt_toI128] at hvalue
    omega

/-- Legs whose lots cost between one tick and the largest price have an average. -/
theorem divides_average {legs : Legs} (hs : 0 < spec.microPerTickLot.toInt)
    (hlower : spec.microPerTickLot.toInt * |legs.newQty.toInt| ≤ legs.newCost.toInt)
    (hupper : legs.newCost.toInt ≤
      maxI64 * spec.microPerTickLot.toInt * |legs.newQty.toInt|)
    (hopen : legs.newQty ≠ 0) {newAbs : I64} (habs : checkedAbs legs.newQty = .ok newAbs) :
    ∃ denominator rounded price, newAbs.toI128.checkedMul spec.microPerTickLot = some denominator ∧
      divRoundHalfEven legs.newCost denominator = .ok rounded ∧
      SInt.tryFrom rounded.toInt = some price ∧ averageOf legs spec = .ok (some price) := by
  have hqty : newAbs.toInt = |legs.newQty.toInt| := (checkedAbs_exits _).of_ok habs
  rw [← hqty] at hlower hupper
  have hpos : 0 < newAbs.toInt := hqty ▸ abs_pos.mpr (mt SInt.toInt_eq_zero.mp hopen)
  have hexits := averageEntryPrice_exits hpos hs hlower hupper
  cases havg : averageEntryPrice legs.newCost newAbs spec.microPerTickLot with
  | error reason => exact (hexits.of_error havg).elim
  | ok price =>
    have hsteps := havg
    simp only [averageEntryPrice, bind_eq_ok, okOr_eq_ok] at hsteps
    obtain ⟨denominator, hden, rounded, hdiv, hnarrow⟩ := hsteps
    refine ⟨denominator, rounded, price, hden, hdiv, hnarrow, ?_⟩
    rw [averageOf, if_neg hopen, habs, ok_bind, havg, ok_bind]

theorem Booked.divisionsSucceed (hw : registry.WellFormed) (hb : Booked registry journal keeper)
    (h : Entered keeper fill spec signedFillQty) :
    DivisionsSucceed (keeper.standing (keyOf fill)) fill spec signedFillQty := by
  obtain ⟨hf, hs, hhealthy, hsigned⟩ := hb.entered hw h
  have hcost := hhealthy.cost_nonneg hs
  have hwithin : ∀ legs, branchLegs (keeper.standing (keyOf fill)) fill spec signedFillQty =
      .ok legs → _ := fun legs hlegs =>
    ((legs_exits hf hs hsigned hcost).of_ok hlegs).within (hhealthy.step_within hf hs)
  refine ⟨?_, ?_, ?_, ?_⟩
  · intro hadds oldAbs numerator hold hpart hnum
    exact divides_allocation hf hcost (opposes_of_not_adds hsigned hadds) hold hpart hnum
  · intro hadds reason hfail
    exact (closeLegs_overflow hf hs hsigned hcost (opposes_of_not_adds hsigned hadds)).of_error
      hfail
  · intro legs hlegs hopen newAbs habs
    exact divides_average hs (hwithin legs hlegs).1 (hwithin legs hlegs).2 hopen habs
  · intro legs hlegs reason hfail
    by_cases hopen : legs.newQty = 0
    · rw [averageOf, if_pos hopen] at hfail
      cases hfail
    · cases habs : checkedAbs legs.newQty with
      | error other =>
        rw [averageOf, if_neg hopen, habs] at hfail
        cases hfail
        rfl
      | ok newAbs =>
        obtain ⟨-, -, price, -, -, -, hprice⟩ :=
          divides_average hs (hwithin legs hlegs).1 (hwithin legs hlegs).2 hopen habs
        rw [hprice] at hfail
        cases hfail

theorem Entered.deltaOf_eq (h : Entered keeper fill spec signedFillQty) :
    deltaOf keeper.instruments fill keeper.positions[keyOf fill]? =
      transition (keyOf fill) (keeper.standing (keyOf fill)) fill spec := by
  rw [deltaOf, h.found, okOr, ok_bind, h.fill_valid, ok_bind]
  rfl

/-- Past the guards `transition` goes on with its legs. -/
theorem Entered.transition_eq (h : Entered keeper fill spec signedFillQty) :
    transition (keyOf fill) (keeper.standing (keyOf fill)) fill spec = (do
      let before := keeper.standing (keyOf fill)
      let legs ← branchLegs before fill spec signedFillQty
      let avgEntryPrice ← averageOf legs spec
      let realizedPnl ← okOr (before.realizedPnl.checkedAdd legs.realizedDelta) .arithmeticOverflow
      let fees ← okOr (before.fees.checkedAdd fill.fee) .arithmeticOverflow
      let after : Position := ⟨legs.newQty, avgEntryPrice, legs.newCost, realizedPnl, fees⟩
      validatePosition after
      .ok ⟨keyOf fill, before, after, legs.closedQty, legs.openedQty, legs.realizedDelta,
        fill.fee⟩) := by
  rw [transition, h.position_valid, ok_bind, h.signed, ok_bind]
  rfl

theorem validatePosition_ne_overflow (position : Position) :
    validatePosition position ≠ .error .arithmeticOverflow := by
  unfold validatePosition
  split
  · simp
  · split <;> simp

theorem Booked.failsElsewhere (hw : registry.WellFormed) (hb : Booked registry journal keeper)
    (h : Entered keeper fill spec signedFillQty) :
    FailsElsewhere keeper fill spec signedFillQty := by
  intro reason hfail
  obtain ⟨hf, hs, hhealthy, -⟩ := hb.entered hw h
  rcases apply_eq keeper fill with ⟨delta, -, heq⟩ | ⟨other, hdelta, heq⟩
  · rw [heq] at hfail
    cases hfail
  rw [heq] at hfail
  cases hfail
  rw [h.deltaOf_eq] at hdelta
  have hoverflow := ((transition_exits (keyOf fill) hf hs hhealthy).of_error hdelta).1
  rw [h.transition_eq] at hdelta
  dsimp only at hdelta
  cases hlegs : branchLegs (keeper.standing (keyOf fill)) fill spec signedFillQty with
  | error failed =>
    rw [hlegs] at hdelta
    cases hdelta
    exact .inl rfl
  | ok legs =>
    refine .inr ⟨legs, rfl, ?_⟩
    rw [hlegs, ok_bind] at hdelta
    cases havg : averageOf legs spec with
    | error failed =>
      rw [havg] at hdelta
      cases hdelta
      exact .inl ((hb.divisionsSucceed hw h).averaging legs hlegs _ havg)
    | ok avg =>
      rw [havg, ok_bind] at hdelta
      cases hreal : (keeper.standing (keyOf fill)).realizedPnl.checkedAdd legs.realizedDelta with
      | none => exact .inr (.inl rfl)
      | some realizedPnl =>
        cases hfees : (keeper.standing (keyOf fill)).fees.checkedAdd fill.fee with
        | none => exact .inr (.inr rfl)
        | some fees =>
          -- The closing check has no overflow to report.
          rw [hreal, hfees, okOr, okOr, ok_bind, ok_bind, bind_eq_error, hoverflow] at hdelta
          rcases hdelta with hinvalid | ⟨-, -, hok⟩
          · exact absurd hinvalid (validatePosition_ne_overflow _)
          · cases hok

end Booked

/-- The half-even division is correct, and its errors do not happen inside a keeper. -/
theorem div_round_half_even_exact {specs : List InstrumentSpec} {registry : Registry}
    (h : Registry.tryFromSpecs specs = .ok registry) :
    (∀ n d : I128, 0 ≤ n.toInt → 0 < d.toInt → DividesHalfEven n d) ∧
      ∀ fills fill spec signedFillQty, Entered (after registry fills) fill spec signedFillQty →
        DivisionsSucceed ((after registry fills).standing (keyOf fill)) fill spec signedFillQty ∧
          FailsElsewhere (after registry fills) fill spec signedFillQty :=
  have hw := Registry.wellFormed_of_tryFromSpecs h
  ⟨fun _ _ hn hd => dividesHalfEven hn hd,
    fun fills _ _ _ hentered => ⟨(booked_after hw fills).divisionsSucceed hw hentered,
      (booked_after hw fills).failsElsewhere hw hentered⟩⟩

deriving instance DecidableEq for Legs

/-- A short of seven lots, two of them bought back. -/
theorem div_round_half_even_exact_rounding :
    let keeper := after Registry.standard [perpFill "a" .sell 1 1, perpFill "a" .sell 2 6]
    let before := keeper.standing ⟨"a", "BTC-PERP"⟩
    let fill := perpFill "a" .buy 5 2
    let spec : InstrumentSpec := ⟨"BTC-PERP", "BTC-PERP", .hl, .perp, 500000, 100000, 50⟩
    IsHalfEven (1300 : I128).toInt (7 : I128).toInt (186 : I128).toInt ∧
      before.netQty = SInt.wrap (-7) ∧ allocatedCost before.openCost (min 7 2) 7 = .ok 186 ∧
      closeLegs before fill spec 2 = .ok ⟨SInt.wrap (-5), 464, 2, 0, SInt.wrap (-314)⟩ ∧
      averageOf ⟨SInt.wrap (-5), 464, 2, 0, SInt.wrap (-314)⟩ spec = .ok (some 2) := by
  intro keeper before fill spec
  obtain ⟨hdivides, hcalls⟩ := div_round_half_even_exact Registry.tryFromSpecs_standard
  have hentered : Entered keeper fill spec 2 := ⟨by decide, by decide, by decide, by decide⟩
  have hsucceed := (hcalls [perpFill "a" .sell 1 1, perpFill "a" .sell 2 6] fill spec 2 hentered).1
  have hlegs : closeLegs before fill spec 2 =
      .ok ⟨SInt.wrap (-5), 464, 2, 0, SInt.wrap (-314)⟩ := by decide
  obtain ⟨cost, hdiv, hcost⟩ := hsucceed.allocation (by decide) 7 1300 (by decide) (by decide)
    (by decide)
  obtain ⟨denominator, rounded, price, hden, hround, hnarrow, hprice⟩ :=
    hsucceed.average _ ((if_neg (by decide)).trans hlegs) (by decide) 5 (by decide)
  have hcost' : cost = 186 :=
    SInt.toInt_inj.mp (((hdivides 1300 7 (by decide) (by decide)).unique cost hdiv 186
      ((hdivides 1300 7 (by decide) (by decide)).rounds 186 (by decide))).symm)
  have hprice' : price = 2 := by
    obtain rfl : denominator = 250 := Option.some.inj (hden.symm.trans (by decide))
    obtain rfl : rounded = 2 := Except.ok.inj (hround.symm.trans (by decide))
    exact Option.some.inj (hnarrow.symm.trans (by decide))
  exact ⟨(hdivides 1300 7 (by decide) (by decide)).rounds 186 (by decide), by decide,
    hcost' ▸ hcost, hlegs, hprice' ▸ hprice⟩

end PositionKeeper

end Bitfrost
