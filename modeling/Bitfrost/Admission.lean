import Bitfrost.Convert
import Bitfrost.Ledger

/-!
What the ingester admits, the keeper can book. A fill that canonicalized
against a registry passes the keeper's own validation, so the only error left
is an overflow; and none happens while the totals of a key stay within the
machine integers.
-/

namespace Bitfrost

open Bitfrost.Lib

/-- The fill came out of a canonicalization against the registry, with whatever conversion of
prices to ticks. -/
def Canonical (toTicks : Float → I128 → String → Except RejectReason I64) (registry : Registry)
    (fill : Fill) : Prop :=
  (∃ event : HlEvent, event.canonicalize registry = .ok fill) ∨
  (∃ event : PmEvent, event.canonicalizeWith toTicks registry = .ok fill)

namespace PositionKeeper

section Window

variable {spec : InstrumentSpec} {full : I64}

/-- The price window both validators compute for a binary. -/
theorem window_eq (hs : Registry.Sound spec) (hk : spec.kind = .binary)
    (h : SInt.tryFrom ((1000000 : I128) / spec.tickMicro).toInt = some full) :
    full.toInt = Registry.full spec ∧ (full / 100).toInt = Registry.full spec / 100 ∧
      (full - full / 100).toInt = Registry.full spec - Registry.full spec / 100 := by
  obtain ⟨-, -, -, hpos⟩ := hs.binary hk
  have hfull : full.toInt = Registry.full spec := by
    rw [SInt.tryFrom_eq_some.mp h]
    exact SInt.toInt_div_of_nonneg (by decide) (by decide) hs.tick_pos
  have hlo : (full / 100).toInt = Registry.full spec / 100 := by
    rw [SInt.toInt_div_of_nonneg (by decide) (by omega) (by decide), hfull]
    rfl
  have htop := full.bounds.2
  refine ⟨hfull, hlo, ?_⟩
  rw [SInt.toInt_sub_of_mem (by decide), hfull, hlo]
  · norm_num
    omega
  · norm_num
    omega

/-- The full price of a sound binary is a 64-bit number of ticks. -/
theorem exists_full (hs : Registry.Sound spec) (hk : spec.kind = .binary) :
    ∃ full : I64, SInt.tryFrom ((1000000 : I128) / spec.tickMicro).toInt = some full := by
  obtain ⟨-, -, hpay, hpos⟩ := hs.binary hk
  have hdiv : ((1000000 : I128) / spec.tickMicro).toInt = Registry.full spec :=
    SInt.toInt_div_of_nonneg (by decide) (by decide) hs.tick_pos
  have hle : Registry.full spec ≤ 1000000 := by
    rw [← hpay]
    exact le_mul_of_one_le_right (by omega) hs.scale_pos
  obtain ⟨full, hfull, -⟩ := SInt.exists_tryFrom (w := 64) (z := Registry.full spec)
    (by norm_num; omega) (by norm_num; omega)
  exact ⟨full, hdiv ▸ hfull⟩

end Window

/-- On a sound spec the keeper rejects only what is not the spec's, not proper, or out of the
price window. -/
theorem validateFill_ok {fill : Fill} {spec : InstrumentSpec} (hs : Registry.Sound spec)
    (hv : fill.venue = spec.venue) (hk : fill.kind = spec.kind)
    (hi : fill.instrument = spec.instrument) (hf : fill.Proper)
    (hwindow : spec.kind = .binary → Registry.full spec / 100 ≤ fill.price.toInt ∧
      fill.price.toInt ≤ Registry.full spec - Registry.full spec / 100) :
    validateFill fill spec = .ok () := by
  have hfills := And.intro (SInt.toInt_pos.mp hf.price_pos)
    (And.intro (SInt.toInt_pos.mp hf.qty_pos) (SInt.toInt_nonneg.mp hf.fee_nonneg))
  have hspec := And.intro (SInt.toInt_pos.mp hs.tick_pos)
    (And.intro (SInt.toInt_pos.mp hs.lot_pos) (SInt.toInt_pos.mp hs.scale_pos))
  simp only [validateFill, bind_eq_ok, rejectIf_eq_ok, not_or, not_not, not_le, not_lt]
  refine ⟨⟨⟩, ⟨hv, hk, hi⟩, ⟨⟩, hfills, ⟨⟩, hspec, ?_⟩
  by_cases hbin : spec.kind = .binary
  · obtain ⟨hdvd, -⟩ := hs.binary hbin
    obtain ⟨full, hfull⟩ := exists_full hs hbin
    obtain ⟨-, hlo, hhi⟩ := window_eq hs hbin hfull
    obtain ⟨hge, hle⟩ := hwindow hbin
    have hmod : (1000000 : I128) % spec.tickMicro = 0 := by
      rw [← SInt.toInt_eq_zero,
        SInt.toInt_mod_of_nonneg (by decide) (by decide) hs.tick_pos]
      exact Int.emod_eq_zero_of_dvd hdvd
    rw [if_pos hbin]
    simp only [bind_eq_ok, rejectIf_eq_ok, okOr_eq_ok, not_or, not_not, not_lt]
    refine ⟨⟨⟩, hmod, full, hfull, ?_, ?_⟩
    · rwa [← SInt.toInt_le, hlo]
    · rwa [← SInt.toInt_le, hhi]
  · rw [if_neg hbin]

/-! ## Canonical fills -/

variable {toTicks : Float → I128 → String → Except RejectReason I64} {registry : Registry}
  {fill : Fill}

/-- A positive number that a positive unit divides is a positive number of units. -/
theorem toInt_div_pos {a b : I128} (ha : 0 < a) (hb : 0 < b.toInt) (hmod : a % b = 0) :
    0 < (a / b).toInt := by
  have ha' := SInt.toInt_pos.mpr ha
  rw [← SInt.toInt_eq_zero, SInt.toInt_mod_of_nonneg (by decide) ha'.le hb] at hmod
  rw [SInt.toInt_div_of_nonneg (by decide) ha'.le hb]
  exact Int.ediv_pos_of_pos_of_dvd ha' hb.le (Int.dvd_of_emod_eq_zero hmod)

theorem resolveSpec_eq_ok {venue : Venue} {symbol : String} {spec : InstrumentSpec}
    (h : resolveSpec registry venue symbol = .ok spec) :
    InstrumentSource.lookup registry venue symbol = some spec := by
  simp only [resolveSpec, bind_eq_ok, okOr_eq_ok] at h
  obtain ⟨found, hfound, -, -, -, -, hok⟩ := h
  cases hok
  exact hfound

theorem validated_of_hl (hw : registry.WellFormed) {event : HlEvent}
    (h : event.canonicalize registry = .ok fill) :
    ∃ spec, InstrumentSource.lookup registry fill.venue fill.symbol = some spec ∧
      validateFill fill spec = .ok () := by
  simp only [HlEvent.canonicalize, bind_eq_ok, rejectIf_eq_ok, okOr_eq_ok, not_le, not_lt,
    not_not] at h
  obtain ⟨spec, hspec, side, -, px, -, -, hpx, -, hpxmod, price, hprice, qty9, -, -, hqty9, -,
    hqtymod, qty, hqty, fee, -, -, hfee, hok⟩ := h
  have hl := resolveSpec_eq_ok hspec
  obtain ⟨hv, -, hs⟩ := hw.named hl
  have hkind : spec.kind ≠ .binary := by
    rcases hs.shaped with ⟨-, hk⟩ | ⟨hpm, -⟩
    · rw [hk]
      decide
    · rw [hv] at hpm
      cases hpm
  cases hok
  refine ⟨spec, hl, validateFill_ok hs hv.symm rfl rfl ⟨?_, ?_, SInt.toInt_nonneg.mpr hfee⟩
    fun hk => absurd hk hkind⟩
  · rw [SInt.tryFrom_eq_some.mp hprice]
    exact toInt_div_pos hpx hs.tick_pos hpxmod
  · rw [SInt.tryFrom_eq_some.mp hqty]
    exact toInt_div_pos hqty9 hs.lot_pos hqtymod

theorem validated_of_pm (hw : registry.WellFormed) {event : PmEvent}
    (h : event.canonicalizeWith toTicks registry = .ok fill) :
    ∃ spec, InstrumentSource.lookup registry fill.venue fill.symbol = some spec ∧
      validateFill fill spec = .ok () := by
  simp only [PmEvent.canonicalizeWith, bind_eq_ok, rejectIf_eq_ok, okOr_eq_ok, not_le, not_lt,
    not_or] at h
  obtain ⟨spec, hspec, action, -, -, hsize, -, hbps, raw, -, full, hfull, -, ⟨hge, hle⟩,
    notional, hnotional, scaled, hscaled, ⟨side, price⟩, hfold, hok⟩ := h
  have hl := resolveSpec_eq_ok hspec
  obtain ⟨hv, -, hs⟩ := hw.named hl
  have hkind : spec.kind = .binary := by
    rcases hs.shaped with ⟨hhl, -⟩ | ⟨-, hk, -⟩
    · rw [hv] at hhl
      cases hhl
    · exact hk
  obtain ⟨-, -, -, hpos⟩ := hs.binary hkind
  obtain ⟨hfullv, hlo, hhi⟩ := window_eq hs hkind hfull
  rw [← SInt.toInt_le, hlo] at hge
  rw [← SInt.toInt_le, hhi] at hle
  -- Both outcomes leave the price in the window: it is symmetric around half the payout.
  have hprice : Registry.full spec / 100 ≤ price.toInt ∧
      price.toInt ≤ Registry.full spec - Registry.full spec / 100 := by
    unfold foldOutcome at hfold
    split at hfold
    · cases hfold
      exact ⟨hge, hle⟩
    · cases hfold
      have htop := full.bounds.2
      rw [SInt.toInt_sub_of_mem (by decide) (by norm_num; omega) (by norm_num; omega), hfullv]
      omega
    · cases hfold
  have hnotional0 : 0 ≤ notional.toInt := by
    obtain ⟨mid, hmid, hval⟩ := Option.bind_eq_some_iff.mp hnotional
    rw [SInt.tryFrom_eq_some.mp hval, SInt.tryFrom_eq_some.mp hmid]
    exact mul_nonneg (mul_nonneg (by simp only [I64.toInt_toI128]; omega)
      (SInt.toInt_pos.mpr hsize).le) hs.scale_pos.le
  have hscaled0 : 0 ≤ scaled.toInt := by
    obtain ⟨mid, hmid, hval⟩ := Option.bind_eq_some_iff.mp hscaled
    rw [SInt.tryFrom_eq_some.mp hval, SInt.tryFrom_eq_some.mp hmid]
    exact add_nonneg (mul_nonneg hnotional0 (SInt.toInt_nonneg.mpr hbps)) (by decide)
  have hfee : 0 ≤ (scaled / 10000).toInt := by
    rw [SInt.toInt_div_of_nonneg (by decide) hscaled0 (by decide)]
    exact Int.ediv_nonneg hscaled0 (by decide)
  have hprice0 : 0 < price.toInt := by omega
  cases hok
  exact ⟨spec, hl, validateFill_ok hs hv.symm rfl rfl
    ⟨hprice0, SInt.toInt_pos.mpr hsize, hfee⟩ fun _ => hprice⟩

/-- The two validators agree. -/
theorem validated_of_canonical (hw : registry.WellFormed)
    (h : Canonical toTicks registry fill) :
    ∃ spec, InstrumentSource.lookup registry fill.venue fill.symbol = some spec ∧
      validateFill fill spec = .ok () := by
  rcases h with ⟨event, he⟩ | ⟨event, he⟩
  · exact validated_of_hl hw he
  · exact validated_of_pm hw he

/-! ## Booking them -/

/-- The keeper fails a canonical fill only on a step that does not fit. -/
theorem apply_exits {journal : Journal} {keeper : PositionKeeper Registry}
    (hw : registry.WellFormed) (hb : Booked registry journal keeper)
    (hc : Canonical toTicks registry fill) :
    Exits (keeper.apply fill).1 (fun _ => fill.Proper)
      (OverflowsIf (¬ (Fits (keeper.standing (keyOf fill)).book (tradeIn registry fill) ∧
        (keeper.standing (keyOf fill)).fees.toInt + fill.fee.toInt < 2 ^ 127))) := by
  obtain ⟨spec, hl, hv⟩ := validated_of_canonical hw hc
  obtain ⟨hf, hscales⟩ := scales_of_validated hl hv
  have hscale : scaleOf registry fill = spec.microPerTickLot.toInt := by rw [scaleOf, hl]
  have hdelta : deltaOf keeper.instruments fill keeper.positions[keyOf fill]? =
      transition (keyOf fill) (keeper.standing (keyOf fill)) fill spec := by
    rw [hb.source, deltaOf, hl, okOr]
    simp only [bind, Except.bind, hv]
    rfl
  have hexits := transition_exits (keyOf fill) hf (hw.scales_pos hscales)
    (hb.healthy (keyOf fill) _ hscales)
  rw [← hdelta, ← hscale] at hexits
  rcases apply_eq keeper fill with ⟨delta, -, heq⟩ | ⟨reason, hd, heq⟩
  · rw [heq]
    exact hf
  · rw [heq]
    exact hexits.of_error hd

theorem proper_of_canonical (hw : registry.WellFormed) (hc : Canonical toTicks registry fill) :
    fill.Proper := by
  obtain ⟨spec, -, hv⟩ := validated_of_canonical hw hc
  exact (validateFill_proper hv).2.2

/-- The total of a quantity over the fills of a key. -/
def totalFor (key : PositionKey) (value : Fill → ℤ) (fills : List Fill) : ℤ :=
  ((fills.filter (keyOf · = key)).map value).sum

/-- For every key: the quantities traded fit 64 bits; their product with the value traded, and
the fees, fit 128. -/
def Envelope (registry : Registry) (fills : List Fill) : Prop :=
  ∀ key, totalFor key (·.qty.toInt) fills ≤ 2 ^ 63 - 1 ∧
    totalFor key (notionalOf registry) fills * totalFor key (·.qty.toInt) fills ≤ 2 ^ 127 - 1 ∧
    totalFor key (·.fee.toInt) fills ≤ 2 ^ 127 - 1

theorem totalFor_concat (value : Fill → ℤ) (fills : List Fill) (fill : Fill) :
    totalFor (keyOf fill) value (fills ++ [fill]) =
      totalFor (keyOf fill) value fills + value fill := by
  simp [totalFor]

theorem applied_journal_sublist (fills : List Fill) :
    (applied (journal registry fills)).Sublist fills := by
  have h : ∀ journal : Journal, (applied journal).Sublist (journal.map Prod.fst) := by
    intro journal
    induction journal with
    | nil => exact List.Sublist.refl _
    | cons entry journal ih =>
      obtain ⟨fill, reply⟩ := entry
      cases reply with
      | ok delta => exact ih.cons_cons fill
      | error reason => exact ih.cons fill
  have hall := h (journal registry fills)
  rwa [journal, trace_map_fst] at hall

/-- What was applied to a key totals no more than what was given for it. -/
theorem sum_appliedTo_le (registry : Registry) {fills : List Fill} {value : Fill → ℤ}
    (h : ∀ fill ∈ fills, 0 ≤ value fill) (key : PositionKey) :
    ((appliedTo key (journal registry fills)).map value).sum ≤ totalFor key value fills := by
  apply List.Sublist.sum_le_sum (((applied_journal_sublist fills).filter _).map _)
  intro v hv
  obtain ⟨fill, hf, rfl⟩ := List.mem_map.mp hv
  exact h fill (List.mem_of_mem_filter hf)

theorem value_tradeIn {fill : Fill} (hf : fill.Proper) :
    (tradeIn registry fill).value = notionalOf registry fill := by
  rw [Trade.value, tradeIn, Fill.trade, hf.abs_signedQty, notionalOf]
  simp only [Int.cast_id]
  ring

theorem turnover_tradeIn {fills : List Fill} (h : ∀ fill ∈ fills, fill.Proper) :
    Book.turnover (fills.map (tradeIn registry)) = (fills.map (notionalOf registry)).sum := by
  rw [Book.turnover, List.map_map]
  congr 1
  exact List.map_congr_left fun fill hf => value_tradeIn (h fill hf)

theorem notionalOf_nonneg (hw : registry.WellFormed) (hf : fill.Proper) :
    0 ≤ notionalOf registry fill := by
  have hscale : 0 ≤ scaleOf registry fill := by
    unfold scaleOf
    split
    · next spec hl => exact (hw.named hl).2.2.scale_pos.le
    · exact le_rfl
  exact mul_nonneg (mul_nonneg hf.price_pos.le hf.qty_pos.le) hscale

theorem totalFor_le {value : Fill → ℤ} {fills : List Fill} (h : ∀ g ∈ fills, 0 ≤ value g)
    (key : PositionKey) :
    0 ≤ totalFor key value fills ∧ totalFor key value fills ≤ (fills.map value).sum := by
  constructor
  · apply List.sum_nonneg
    intro v hv
    obtain ⟨g, hg, rfl⟩ := List.mem_map.mp hv
    exact h g (List.mem_of_mem_filter hg)
  · apply List.Sublist.sum_le_sum (List.filter_sublist.map _)
    intro v hv
    obtain ⟨g, hg, rfl⟩ := List.mem_map.mp hv
    exact h g hg

/-- Totals over all keys that fit keep every key in the envelope. -/
theorem envelope_of_totals (hw : registry.WellFormed) {fills : List Fill}
    (hproper : ∀ g ∈ fills, g.Proper)
    (hqty : (fills.map fun g => g.qty.toInt).sum ≤ 2 ^ 63 - 1)
    (hshare : (fills.map (notionalOf registry)).sum * (fills.map fun g => g.qty.toInt).sum ≤
      2 ^ 127 - 1)
    (hfees : (fills.map fun g => g.fee.toInt).sum ≤ 2 ^ 127 - 1) : Envelope registry fills := by
  intro key
  obtain ⟨hq0, hq⟩ := totalFor_le (fun g hg => (hproper g hg).qty_pos.le) key
  obtain ⟨hn0, hn⟩ := totalFor_le (fun g hg => notionalOf_nonneg hw (hproper g hg)) key
  obtain ⟨-, hf⟩ := totalFor_le (fun g hg => (hproper g hg).fee_nonneg) key
  exact ⟨hq.trans hqty, (mul_le_mul hn hq hq0 (hn0.trans hn)).trans hshare, hf.trans hfees⟩

theorem unit_nonneg (hw : registry.WellFormed) (hf : fill.Proper) :
    0 ≤ (tradeIn registry fill).unit := by
  have hv := notionalOf_nonneg hw hf
  rw [notionalOf, mul_right_comm] at hv
  exact nonneg_of_mul_nonneg_left hv hf.qty_pos

theorem units_nonneg (hw : registry.WellFormed) (fills : List Fill) (key : PositionKey) :
    ∀ t ∈ (appliedTo key (journal registry fills)).map (tradeIn registry), 0 ≤ t.unit := by
  intro t ht
  obtain ⟨g, hg, rfl⟩ := List.mem_map.mp ht
  exact unit_nonneg hw ((booked_after hw fills).of_mem hg).1

/-! ## Totals bound positions -/

section Totals

variable {fills : List Fill} (hw : registry.WellFormed) (hproper : ∀ g ∈ fills, g.Proper)
  (key : PositionKey)

include hw hproper

theorem abs_net_le_total : |((after registry fills).standing key).netQty.toInt| ≤
    totalFor key (·.qty.toInt) fills := by
  have hb := booked_after hw fills
  have hqty := sum_appliedTo_le registry (fun g hg => (hproper g hg).qty_pos.le) key
  rw [hb.net]
  refine (abs_netOf_le _ _).trans (le_of_eq_of_le ?_ hqty)
  congr 1
  exact List.map_congr_left fun g hg => (hb.of_mem hg).1.abs_signedQty

theorem turnover_le_total :
    Book.turnover ((appliedTo key (journal registry fills)).map (tradeIn registry)) ≤
      totalFor key (notionalOf registry) fills := by
  rw [turnover_tradeIn fun g hg => ((booked_after hw fills).of_mem hg).1]
  exact sum_appliedTo_le registry (fun g hg => notionalOf_nonneg hw (hproper g hg)) key

theorem cost_le_total : 0 ≤ ((after registry fills).standing key).book.cost ∧
    ((after registry fills).standing key).book.cost ≤ totalFor key (notionalOf registry) fills := by
  have hunits := units_nonneg hw fills key
  rw [(booked_after hw fills).book key]
  exact ⟨(Book.run_cost_le Book.fair_halfEven _ hunits).1,
    (Book.run_cost_le_turnover Book.fair_halfEven _ hunits).trans
      (turnover_le_total hw hproper key)⟩

theorem fees_le_total : ((after registry fills).standing key).fees.toInt ≤
    totalFor key (·.fee.toInt) fills := by
  rw [(booked_after hw fills).fees]
  exact sum_appliedTo_le registry (fun g hg => (hproper g hg).fee_nonneg) key

end Totals

/-- One more proper fill moves the realized profit no further than what was traded. -/
theorem abs_step_realized_le (hw : registry.WellFormed) {earlier : List Fill}
    (hproper : ∀ g ∈ earlier, g.Proper) (hf : fill.Proper) :
    |(Book.step Book.halfEven ((after registry earlier).standing (keyOf fill)).book
        (tradeIn registry fill)).realized| ≤
      totalFor (keyOf fill) (notionalOf registry) earlier + notionalOf registry fill := by
  have hturn := turnover_le_total hw hproper (keyOf fill)
  have hunits := units_nonneg hw earlier (keyOf fill)
  rw [(booked_after hw earlier).book]
  generalize (appliedTo (keyOf fill) (journal registry earlier)).map (tradeIn registry) = trades
    at hturn hunits ⊢
  have hreal := Book.abs_run_realized_le Book.fair_halfEven (trades ++ [tradeIn registry fill])
    fun t ht => by
      rcases List.mem_append.mp ht with ht | ht
      · exact hunits t ht
      · rw [List.mem_singleton.mp ht]
        exact unit_nonneg hw hf
  rw [Book.run_concat, Book.turnover_concat, value_tradeIn hf] at hreal
  omega

/-- Within the envelope every step fits. -/
theorem fits_of_envelope (hw : registry.WellFormed) {earlier : List Fill}
    (hproper : ∀ g ∈ earlier, g.Proper) (hf : fill.Proper)
    (henv : Envelope registry (earlier ++ [fill])) :
    Fits ((after registry earlier).standing (keyOf fill)).book (tradeIn registry fill) ∧
      ((after registry earlier).standing (keyOf fill)).fees.toInt + fill.fee.toInt < 2 ^ 127 := by
  obtain ⟨hQ, hNQ, hfees⟩ := henv (keyOf fill)
  rw [totalFor_concat] at hQ hfees
  rw [totalFor_concat, totalFor_concat] at hNQ
  have hnet := abs_net_le_total hw hproper (keyOf fill)
  obtain ⟨hcost0, hcost⟩ := cost_le_total hw hproper (keyOf fill)
  have hpaid := fees_le_total hw hproper (keyOf fill)
  have hreal := abs_step_realized_le hw hproper hf
  have hq := hf.qty_pos
  have hv := notionalOf_nonneg hw hf
  have hQ0 : 0 ≤ totalFor (keyOf fill) (·.qty.toInt) earlier := (abs_nonneg _).trans hnet
  have hN0 : 0 ≤ totalFor (keyOf fill) (notionalOf registry) earlier + notionalOf registry fill :=
    add_nonneg (hcost0.trans hcost) hv
  have hvalue : |(tradeIn registry fill).qty| * (tradeIn registry fill).unit =
      notionalOf registry fill := value_tradeIn hf
  have habs : |(tradeIn registry fill).qty| = fill.qty.toInt := hf.abs_signedQty
  -- The value traded is at most the product bound, because at least one lot was traded.
  have htotal : totalFor (keyOf fill) (notionalOf registry) earlier + notionalOf registry fill <
      2 ^ 127 := by
    have hone := le_mul_of_one_le_right hN0
      (show 1 ≤ totalFor (keyOf fill) (·.qty.toInt) earlier + fill.qty.toInt by omega)
    omega
  refine ⟨⟨?_, ?_, ?_, ?_⟩, ?_⟩
  · rw [habs]
    exact lt_of_le_of_lt (add_le_add_left hnet _) (by omega)
  · rw [hvalue]
    omega
  · rw [habs]
    have hshare := mul_le_mul (hcost.trans (le_add_of_nonneg_right hv))
      (show fill.qty.toInt ≤ totalFor (keyOf fill) (·.qty.toInt) earlier + fill.qty.toInt by omega)
      hq.le hN0
    omega
  · omega
  · omega

/-- Every apply of canonical fills books them or overflows, and none overflows while the totals
of each key so far stay in the envelope. -/
theorem canonical_fills_book {specs : List InstrumentSpec}
    (h : Registry.tryFromSpecs specs = .ok registry) {fills : List Fill}
    (hc : ∀ fill ∈ fills, Canonical toTicks registry fill) :
    (∀ entry ∈ journal registry fills,
      (∃ delta, entry.2 = .ok delta) ∨ entry.2 = .error .arithmeticOverflow) ∧
    (∀ earlier fill, earlier ++ [fill] <+: fills → Envelope registry (earlier ++ [fill]) →
      ∃ delta, ((after registry earlier).apply fill).1 = .ok delta) := by
  have hw := Registry.wellFormed_of_tryFromSpecs h
  constructor
  · induction fills using List.reverseRecOn with
    | nil => intro entry he; cases he
    | append_singleton fills fill ih =>
      intro entry he
      rw [journal, trace_concat] at he
      rcases List.mem_append.mp he with he | he
      · exact ih (fun g hg => hc g (List.mem_append_left _ hg)) entry he
      · have hexits := apply_exits hw (booked_after hw fills) (hc fill (by simp))
        rw [List.mem_singleton.mp he]
        cases hr : ((after registry fills).apply fill).1 with
        | ok delta => exact .inl ⟨delta, hr⟩
        | error reason => exact .inr (hr.trans (by rw [(hexits.of_error hr).1]))
  · intro earlier fill hpre henv
    have hfill : Canonical toTicks registry fill := hc fill (hpre.subset (by simp))
    have hproper : ∀ g ∈ earlier, g.Proper := fun g hg =>
      proper_of_canonical hw (hc g (hpre.subset (List.mem_append_left _ hg)))
    have hexits := apply_exits hw (booked_after hw earlier) hfill
    cases hr : ((after registry earlier).apply fill).1 with
    | ok delta => exact ⟨delta, rfl⟩
    | error reason =>
      have hfits := fits_of_envelope hw hproper (proper_of_canonical hw hfill) henv
      exact absurd hfits (hexits.of_error hr).2

/-- A perpetual fill and a NO sale, from the wire. -/
def wireFills : List Fill :=
  [{ venue := .hl, eventId := "h1", seq := 1, tsMs := 5, account := "a", instrument := "BTC-PERP"
     symbol := "BTC-PERP", kind := .perp, side := .sell, price := 80000, qty := 300
     fee := 1250000 },
   { venue := .pm, eventId := "p1", seq := 1, tsMs := 6, account := "a"
     instrument := "FED-CUT-SEP", symbol := "FED-CUT-SEP", kind := .binary, side := .buy
     price := 5800, qty := 10, fee := 8400 }]

theorem wireFills_canonical :
    ∀ fill ∈ wireFills, Canonical priceToTicks Registry.standard fill := by
  intro fill hf
  simp only [wireFills, List.mem_cons, List.not_mem_nil, or_false] at hf
  rcases hf with rfl | rfl
  · refine .inl ⟨⟨1, "h1", 5, "a", "BTC-PERP", "sell", "40000", "0.03", "1.25"⟩, ?_⟩
    decide
  · refine .inr ⟨⟨1, "p1", 6, "a", "FED-CUT-SEP", "NO", "SELL", 0.42, 10, 20⟩, ?_⟩
    decide

theorem wireFills_book :
    (∀ entry ∈ journal Registry.standard wireFills,
      (∃ delta, entry.2 = .ok delta) ∨ entry.2 = .error .arithmeticOverflow) ∧
    (∀ earlier fill, earlier ++ [fill] <+: wireFills →
      Envelope Registry.standard (earlier ++ [fill]) →
      ∃ delta, ((after Registry.standard earlier).apply fill).1 = .ok delta) ∧
    Envelope Registry.standard wireFills := by
  obtain ⟨hreply, hok⟩ :=
    canonical_fills_book Registry.tryFromSpecs_standard wireFills_canonical
  have hw := Registry.wellFormed_of_tryFromSpecs Registry.tryFromSpecs_standard
  exact ⟨hreply, hok, envelope_of_totals hw
    (fun g hg => proper_of_canonical hw (wireFills_canonical g hg)) (by decide) (by decide)
    (by decide)⟩

end PositionKeeper

end Bitfrost
