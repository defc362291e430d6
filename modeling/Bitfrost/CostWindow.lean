import Bitfrost.Ledger

/-!
The cost basis of an open position stays between the lowest and the highest
price of the fills that built it, and so does the rounded average, however
often the position was reduced on the way.
-/

namespace Bitfrost.PositionKeeper

open Bitfrost.Lib

/-- The prices of the fills that opened or added to the position since it was last flat or
last crossed zero. -/
def entryPrices (fills : List Fill) : Set ℤ :=
  {p | ∃ fill ∈ entries Fill.signedQty fills, fill.price.toInt = p}

theorem exists_entryPrices_bounds {fills : List Fill} (h : netOf Fill.signedQty fills ≠ 0) :
    ∃ lo hi, IsLeast (entryPrices fills) lo ∧ IsGreatest (entryPrices fills) hi := by
  have hne : (entries Fill.signedQty fills).toFinset.Nonempty :=
    List.toFinset_nonempty_iff _ |>.mpr (entries_ne_nil h)
  obtain ⟨f, hf, hmin⟩ := Finset.exists_min_image _ (fun fill => fill.price.toInt) hne
  obtain ⟨g, hg, hmax⟩ := Finset.exists_max_image _ (fun fill => fill.price.toInt) hne
  simp only [List.mem_toFinset] at hf hg hmin hmax
  refine ⟨f.price.toInt, g.price.toInt, ⟨⟨f, hf, rfl⟩, ?_⟩, ⟨⟨g, hg, rfl⟩, ?_⟩⟩
  · rintro _ ⟨fill, hfill, rfl⟩
    exact hmin fill hfill
  · rintro _ ⟨fill, hfill, rfl⟩
    exact hmax fill hfill

variable {registry : Registry} {journal : Journal} {keeper : PositionKeeper Registry}
  {key : PositionKey} {scale : ℤ}

/-- On one key every fill trades at the scale of the key's instrument. -/
theorem Booked.tradeIn_eq (hw : registry.WellFormed) (h : Booked registry journal keeper)
    (hs : registry.Scales key.instrument scale) {fill : Fill}
    (hf : fill ∈ appliedTo key journal) : tradeIn registry fill = fill.trade scale := by
  obtain ⟨-, -, hs'⟩ := h.of_mem hf
  rw [tradeIn, hw.scales_unique hs' hs]

theorem Booked.book_eq (hw : registry.WellFormed) (h : Booked registry journal keeper)
    (hs : registry.Scales key.instrument scale) :
    (keeper.standing key).book =
      Book.run Book.halfEven ((appliedTo key journal).map (Fill.trade scale)) := by
  rw [h.book key, List.map_congr_left fun fill hf => h.tradeIn_eq hw hs hf]

theorem Booked.within (hw : registry.WellFormed) (h : Booked registry journal keeper)
    (hs : registry.Scales key.instrument scale) {lo hi : ℤ}
    (hlo : lo ∈ lowerBounds (entryPrices (appliedTo key journal)))
    (hhi : hi ∈ upperBounds (entryPrices (appliedTo key journal))) :
    (keeper.standing key).book.Within (lo * scale) (hi * scale) := by
  have hpos := (hw.scales_pos hs).le
  rw [h.book_eq hw hs]
  apply Book.run_within Book.fair_halfEven
  intro t ht
  rw [entries_map] at ht
  obtain ⟨fill, hfill, rfl⟩ := List.mem_map.mp ht
  exact ⟨mul_le_mul_of_nonneg_right (hlo ⟨fill, hfill, rfl⟩) hpos,
    mul_le_mul_of_nonneg_right (hhi ⟨fill, hfill, rfl⟩) hpos⟩

/-- Cost and average of an open position lie between the least and the greatest price of the
fills that built it, at the scale of its instrument. -/
def InEntryWindow (registry : Registry) (key : PositionKey) (fills : List Fill)
    (position : Position) : Prop :=
  ∃ scale pMin pMax price,
    registry.Scales key.instrument scale ∧
    IsLeast (entryPrices fills) pMin ∧ IsGreatest (entryPrices fills) pMax ∧
    pMin * scale * |position.netQty.toInt| ≤ position.openCost.toInt ∧
    position.openCost.toInt ≤ pMax * scale * |position.netQty.toInt| ∧
    position.avgEntryPrice = some price ∧ pMin ≤ price.toInt ∧ price.toInt ≤ pMax

/-- Whatever partial closes happened in between, cost and average of an open position stay
within the prices that built it. -/
theorem cost_within_entry_prices {specs : List InstrumentSpec}
    (h : Registry.tryFromSpecs specs = .ok registry) (fills : List Fill) (key : PositionKey)
    (hopen : ((after registry fills).standing key).netQty ≠ 0) :
    InEntryWindow registry key (appliedTo key (PositionKeeper.journal registry fills))
      ((after registry fills).standing key) := by
  have hw := Registry.wellFormed_of_tryFromSpecs h
  have hb := booked_after hw fills
  generalize hk : after registry fills = keeper at *
  have hnet := mt SInt.toInt_eq_zero.mp hopen
  obtain ⟨fill, hfill⟩ := hb.exists_of_open hnet
  obtain ⟨-, -, hs⟩ := hb.of_mem hfill
  generalize scaleOf registry fill = scale at hs
  have hscale := hw.scales_pos hs
  have hn := abs_pos.mpr hnet
  obtain ⟨lo, hi, hlo, hhi⟩ := exists_entryPrices_bounds (by rwa [← hb.net key])
  obtain ⟨hl, hu⟩ := hb.within hw hs hlo.2 hhi.2
  simp only [Int.cast_id] at hl hu
  obtain ⟨price, hprice, hval⟩ := (hb.healthy key _ hs).averaged.open_ hnet
  refine ⟨scale, lo, hi, price, hs, hlo, hhi, hl, hu, hprice, ?_, ?_⟩
  · rw [hval]
    refine le_roundHalfEven (mul_pos hn hscale) ?_
    calc lo * (|(keeper.standing key).netQty.toInt| * scale)
        = lo * scale * |(keeper.standing key).netQty.toInt| := by ring
      _ ≤ _ := hl
  · rw [hval]
    refine roundHalfEven_le (mul_pos hn hscale) ?_
    calc (keeper.standing key).openCost.toInt
        ≤ hi * scale * |(keeper.standing key).netQty.toInt| := hu
      _ = hi * (|(keeper.standing key).netQty.toInt| * scale) := by ring

/-- Half-even closes in between: nine lots bought at two prices, reduced twice. -/
theorem cost_within_entry_prices_reduced :
    let fills := [perpFill "a" .buy 100 4, perpFill "a" .buy 101 5, perpFill "a" .sell 300 2,
      perpFill "a" .sell 1 3]
    InEntryWindow Registry.standard ⟨"a", "BTC-PERP"⟩
      (appliedTo ⟨"a", "BTC-PERP"⟩ (PositionKeeper.journal Registry.standard fills))
      ((after Registry.standard fills).standing ⟨"a", "BTC-PERP"⟩) :=
  cost_within_entry_prices Registry.tryFromSpecs_standard _ _ (by decide)

end Bitfrost.PositionKeeper
