import Bitfrost.CostWindow

/-!
Trading NO is trading YES on the other side at the complementary price. On a
binary instrument a sequence of fills and its mirror leave complementary
positions with the same profit, rounding included, because a contract pays an
even number of micro-dollars and an even number of ticks.
-/

namespace Bitfrost

open Bitfrost.Lib

/-- The same trade in the other outcome, as `foldOutcome` folds it. -/
def Fill.mirror (full : Ticks) (self : Fill) : Fill :=
  { self with side := self.side.flip, price := full - self.price }

namespace PositionKeeper

/-- Complementary positions: opposite quantities, costs that add up to the payout, averages
that add up to the full price, and the same profit and fees. -/
structure Mirrored (full : Ticks) (p p' : Position) : Prop where
  net : p'.netQty.toInt = -p.netQty.toInt
  realized : p'.realizedPnl = p.realizedPnl
  fees : p'.fees = p.fees
  cost : p'.openCost.toInt = 1000000 * |p.netQty.toInt| - p.openCost.toInt
  average_flat : p.netQty = 0 → p.avgEntryPrice = none ∧ p'.avgEntryPrice = none
  average_open : p.netQty ≠ 0 → ∃ price price', p.avgEntryPrice = some price ∧
    p'.avgEntryPrice = some price' ∧ price'.toInt = full.toInt - price.toInt

/-- Deltas that close and open the same and realize the same. -/
structure MirroredDelta (d d' : PositionDelta) : Prop where
  closed : d'.closedQty = d.closedQty
  opened : d'.openedQty = d.openedQty
  realized : d'.realizedPnlDelta = d.realizedPnlDelta

theorem flip_sign (side : Side) : side.flip.sign = -side.sign := by
  cases side <;> rfl

theorem mirror_signedQty (full : Ticks) (fill : Fill) :
    (fill.mirror full).signedQty = -fill.signedQty := by
  rw [Fill.signedQty, Fill.mirror, flip_sign, Fill.signedQty, neg_mul]

theorem closedBy_neg (net qty : ℤ) : closedBy (-net) (-qty) = closedBy net qty := by
  rcases opens_or_opposes net qty with ho | hop
  · rw [closedBy, closedBy, if_pos ho, if_pos ho.neg]
  · rw [closedBy, closedBy, if_neg hop.not_opens, if_neg hop.neg.not_opens, abs_neg, abs_neg]

section Binary

variable {registry : Registry} {venue : Venue} {symbol : String} {spec : InstrumentSpec}
  {full : Ticks} {key : PositionKey}

theorem mirror_price (hs : Registry.Sound spec) (hk : spec.kind = .binary)
    (hfull : full.toInt = Registry.full spec) {fill : Fill} (hf : fill.Proper) :
    (fill.mirror full).price.toInt = full.toInt - fill.price.toInt := by
  obtain ⟨-, -, -, hpos⟩ := hs.binary hk
  have hp := hf.price_pos
  have htop := fill.price.bounds.2
  have htop' := full.bounds.2
  exact SInt.toInt_sub_of_mem (by decide) (by norm_num; omega) (by norm_num; omega)

theorem mirror_trade (hs : Registry.Sound spec) (hk : spec.kind = .binary)
    (hfull : full.toInt = Registry.full spec) {fill : Fill} (hf : fill.Proper) :
    (fill.mirror full).trade spec.microPerTickLot.toInt =
      Book.mirrorTrade 1000000 (fill.trade spec.microPerTickLot.toInt) := by
  obtain ⟨-, -, hpay, -⟩ := hs.binary hk
  rw [Fill.trade, mirror_signedQty, mirror_price hs hk hfull hf, hfull, sub_mul, hpay]
  rfl

/-- The positions that a list of fills and its mirror leave are complementary. -/
theorem mirrored_of_booked (hw : registry.WellFormed) (hs : Registry.Sound spec)
    (hscale : registry.Scales key.instrument spec.microPerTickLot.toInt)
    (hk : spec.kind = .binary) (hfull : full.toInt = Registry.full spec)
    {journal journal' : Journal} {keeper keeper' : PositionKeeper Registry}
    (hb : Booked registry journal keeper) (hb' : Booked registry journal' keeper')
    (happlied : appliedTo key journal' = (appliedTo key journal).map (Fill.mirror full)) :
    Mirrored full (keeper.standing key) (keeper'.standing key) := by
  obtain ⟨-, hhundred, hpay, -⟩ := hs.binary hk
  have hbook : (keeper'.standing key).book = (keeper.standing key).book.mirror 1000000 := by
    have htrades : (appliedTo key journal').map (Fill.trade spec.microPerTickLot.toInt) =
        ((appliedTo key journal).map (Fill.trade spec.microPerTickLot.toInt)).map
          (Book.mirrorTrade 1000000) := by
      rw [happlied, List.map_map, List.map_map]
      exact List.map_congr_left fun fill hf => mirror_trade hs hk hfull (hb.of_mem hf).1
    rw [hb'.book_eq hw hscale, hb.book_eq hw hscale, htrades,
      Book.run_mirror (Book.symmetric_halfEven (by decide))]
  have hnet : (keeper'.standing key).netQty.toInt = -(keeper.standing key).netQty.toInt :=
    congrArg Book.net hbook
  have hcost : (keeper'.standing key).openCost.toInt =
      1000000 * |(keeper.standing key).netQty.toInt| - (keeper.standing key).openCost.toInt :=
    congrArg Book.cost hbook
  refine ⟨hnet, SInt.toInt_inj.mp (congrArg Book.realized hbook), ?_, hcost, ?_, ?_⟩
  · rw [← SInt.toInt_inj, hb'.fees, hb.fees, happlied, List.map_map]
    rfl
  · intro hflat
    have hzero := SInt.toInt_eq_zero.mpr hflat
    exact ⟨hb.average_flat hzero, hb'.average_flat (by rw [hnet, hzero, neg_zero])⟩
  · intro hopen
    have hn := mt SInt.toInt_eq_zero.mp hopen
    obtain ⟨price, hprice, hval⟩ := (hb.healthy key _ hscale).averaged.open_ hn
    obtain ⟨price', hprice', hval'⟩ :=
      (hb'.healthy key _ hscale).averaged.open_ (by rw [hnet]; exact neg_ne_zero.mpr hn)
    refine ⟨price, price', hprice, hprice', ?_⟩
    have heven : Even full.toInt := by
      rw [hfull, Int.even_iff]
      omega
    have htotal : 1000000 * |(keeper.standing key).netQty.toInt| =
        full.toInt * (|(keeper.standing key).netQty.toInt| * spec.microPerTickLot.toInt) := by
      rw [hfull, ← hpay]
      ring
    rw [hval', hval, hcost, hnet, abs_neg, htotal,
      roundHalfEven_sub (mul_pos (abs_pos.mpr hn) hs.scale_pos) heven]

/-- A sequence of fills and its mirror, both applied without error, leave complementary
positions after every prefix, and every pair of deltas closes, opens and realizes the same. -/
theorem mirror_exact {specs : List InstrumentSpec}
    (h : Registry.tryFromSpecs specs = .ok registry)
    (hl : InstrumentSource.lookup registry venue symbol = some spec) (hk : spec.kind = .binary)
    (hfull : full.toInt = Registry.full spec) (hinst : key.instrument = spec.instrument)
    {fills : List Fill} (hkey : ∀ fill ∈ fills, keyOf fill = key)
    (hall : AllApplied (journal registry fills))
    (hall' : AllApplied (journal registry (fills.map (Fill.mirror full)))) :
    (∀ earlier, earlier <+: fills →
      Mirrored full ((after registry earlier).standing key)
        ((after registry (earlier.map (Fill.mirror full))).standing key)) ∧
    (∀ earlier fill, earlier ++ [fill] <+: fills → ∃ d d',
      ((after registry earlier).apply fill).1 = .ok d ∧
      ((after registry (earlier.map (Fill.mirror full))).apply (fill.mirror full)).1 = .ok d' ∧
      MirroredDelta d d') := by
  have hw := Registry.wellFormed_of_tryFromSpecs h
  have hs := (hw.named hl).2.2
  have hscale : registry.Scales key.instrument spec.microPerTickLot.toInt :=
    ⟨venue, symbol, spec, hl, hinst.symm, rfl⟩
  have hearlier : ∀ earlier, earlier <+: fills →
      Mirrored full ((after registry earlier).standing key)
        ((after registry (earlier.map (Fill.mirror full))).standing key) := by
    intro earlier hpre
    have hkey' : ∀ fill ∈ earlier, keyOf fill = key := fun fill hf => hkey fill (hpre.subset hf)
    have hmirrorKey : ∀ fill ∈ earlier.map (Fill.mirror full), keyOf fill = key := by
      intro fill hf
      obtain ⟨g, hg, rfl⟩ := List.mem_map.mp hf
      exact hkey' g hg
    apply mirrored_of_booked hw hs hscale hk hfull (booked_after hw _) (booked_after hw _)
    rw [appliedTo_of_allApplied (hall.of_prefix hpre) hkey',
      appliedTo_of_allApplied (hall'.of_prefix (hpre.map _)) hmirrorKey]
  refine ⟨hearlier, ?_⟩
  intro earlier fill hpre
  have hfill : keyOf fill = key := hkey fill (hpre.subset (by simp))
  have hpre' : (earlier ++ [fill]).map (Fill.mirror full) =
      earlier.map (Fill.mirror full) ++ [fill.mirror full] := by simp
  obtain ⟨d, hd⟩ := (hall.of_prefix hpre).apply_ok
  obtain ⟨d', hd'⟩ := (hpre' ▸ hall'.of_prefix (hpre.map (Fill.mirror full))).apply_ok
  have hbefore := hearlier earlier ((List.prefix_append _ _).trans hpre)
  have hafter := hearlier _ hpre
  obtain ⟨hdelta, hstored⟩ := (booked_after hw earlier).delta_of_apply hw hd
  obtain ⟨hdelta', hstored'⟩ := (booked_after hw _).delta_of_apply hw hd'
  have hfill' : keyOf (fill.mirror full) = key := hfill
  rw [hfill] at hdelta hstored
  rw [hfill'] at hdelta' hstored'
  rw [after, hpre', exec_concat, after, exec_concat] at hafter
  have hclosed : d'.closedQty = d.closedQty := by
    rw [← SInt.toInt_inj, hdelta'.closed, hdelta.closed, hbefore.net, mirror_signedQty,
      closedBy_neg]
  refine ⟨d, d', hd, hd', hclosed, ?_, ?_⟩
  · rw [← SInt.toInt_inj, hdelta'.opened, hdelta.opened, hbefore.net, mirror_signedQty,
      closedBy_neg]
    rfl
  · rw [← SInt.toInt_inj, hdelta'.realized, hdelta.realized, hbefore.realized, ← hstored,
      ← hstored']
    rw [show (((after registry (earlier.map (Fill.mirror full))).apply
      (fill.mirror full)).2.standing key).realizedPnl = _ from hafter.realized]
    rfl

end Binary

/-- A trade of one account in a standard binary. -/
def binaryFill (side : Side) (price : Ticks) (qty : Lots) : Fill :=
  { venue := .pm, eventId := "e", seq := 0, tsMs := 0, account := "a"
    instrument := "FED-CUT-SEP", symbol := "FED-CUT-SEP", kind := .binary, side := side
    price := price, qty := qty, fee := 1 }

theorem fed_listed : InstrumentSource.lookup Registry.standard .pm "FED-CUT-SEP" =
    some ⟨"FED-CUT-SEP", "FED-CUT-SEP", .pm, .binary, 100, 1000000000, 100⟩ := by
  decide

theorem mirror_exact_crossing :
    let fills := [binaryFill .buy 3001 3, binaryFill .buy 4000 4, binaryFill .sell 5000 2,
      binaryFill .sell 5100 9]
    (∀ earlier, earlier <+: fills →
      Mirrored 10000 ((after Registry.standard earlier).standing ⟨"a", "FED-CUT-SEP"⟩)
        ((after Registry.standard (earlier.map (Fill.mirror 10000))).standing
          ⟨"a", "FED-CUT-SEP"⟩)) ∧
    (∀ earlier fill, earlier ++ [fill] <+: fills → ∃ d d',
      ((after Registry.standard earlier).apply fill).1 = .ok d ∧
      ((after Registry.standard (earlier.map (Fill.mirror 10000))).apply
        (fill.mirror 10000)).1 = .ok d' ∧ MirroredDelta d d') :=
  mirror_exact Registry.tryFromSpecs_standard fed_listed rfl (by decide) rfl (by decide)
    (by decide) (by decide)

end PositionKeeper

end Bitfrost
