import Bitfrost.Ledger

/-!
The keeper against exact accounting. The reference keeper runs the same
algorithm over the rationals, where a partial close releases exactly its
share of the cost. Each partial close of the machine moves it at most half a
micro-dollar away, and the distance is repaid when the position is flat or
crosses zero.
-/

namespace Bitfrost

open Bitfrost.Lib

/-- A position with exact money. -/
structure Reference where
  netQty : ℤ
  openCost : ℚ
  realizedPnl : ℚ
  fees : ℤ

namespace Reference

def flat : Reference := ⟨0, 0, 0, 0⟩

/-- `transition` over the rationals: no rounding, no overflow. -/
def apply (registry : Registry) (self : Reference) (fill : Fill) : Reference :=
  let scale : ℚ := PositionKeeper.scaleOf registry fill
  let price : ℚ := fill.price.toInt
  let oldQty := self.netQty
  let fillQty := fill.qty.toInt
  let signedFillQty := fill.signedQty
  let fees := self.fees + fill.fee.toInt
  if oldQty = 0 ∨ oldQty.sign = signedFillQty.sign then
    { netQty := oldQty + signedFillQty
      openCost := self.openCost + price * fillQty * scale
      realizedPnl := self.realizedPnl
      fees := fees }
  else
    let oldAbs := |oldQty|
    let closedQty := min oldAbs fillQty
    let exitNotional := price * closedQty * scale
    let allocatedCost :=
      if closedQty = oldAbs then self.openCost else self.openCost * closedQty / oldAbs
    let realizedDelta :=
      if 0 < oldQty then exitNotional - allocatedCost else allocatedCost - exitNotional
    let remainingFill := fillQty - closedQty
    if closedQty < oldAbs then
      { netQty := oldQty + signedFillQty
        openCost := self.openCost - allocatedCost
        realizedPnl := self.realizedPnl + realizedDelta
        fees := fees }
    else
      { netQty := fill.side.sign * remainingFill
        openCost := price * remainingFill * scale
        realizedPnl := self.realizedPnl + realizedDelta
        fees := fees }

def run (registry : Registry) (fills : List Fill) : Reference :=
  fills.foldl (apply registry) flat

def book (self : Reference) : Book ℚ := ⟨self.netQty, self.openCost, self.realizedPnl⟩

variable {registry : Registry}

theorem apply_fees (self : Reference) (fill : Fill) :
    (apply registry self fill).fees = self.fees + fill.fee.toInt := by
  unfold apply
  dsimp only
  split
  · rfl
  · split <;> rfl

/-- The sign form of the profit of a close. -/
theorem signed_delta {net : ℤ} (h : net ≠ 0) (exit cost : ℚ) :
    (if 0 < net then exit - cost else cost - exit) = net.sign * (exit - cost) := by
  by_cases hpos : 0 < net
  · rw [if_pos hpos, Int.sign_eq_one_of_pos hpos]
    simp
  · rw [if_neg hpos, Int.sign_eq_neg_one_of_neg (by omega)]
    push_cast
    ring

theorem apply_book (self : Reference) {fill : Fill} (hf : fill.Proper) :
    (apply registry self fill).book =
      Book.step Book.exact self.book
        (Book.castTrade (PositionKeeper.tradeIn registry fill)) := by
  have habs := hf.abs_signedQty
  have hvalue : (fill.price.toInt : ℚ) * fill.qty.toInt * PositionKeeper.scaleOf registry fill =
      (|fill.signedQty| : ℤ) *
        ((fill.price.toInt * PositionKeeper.scaleOf registry fill : ℤ) : ℚ) := by
    rw [habs]
    push_cast
    ring
  rcases opens_or_opposes self.netQty fill.signedQty with ho | hop
  · have hcond : self.netQty = 0 ∨ self.netQty.sign = fill.signedQty.sign := ho
    rw [apply, if_pos hcond]
    refine Eq.trans ?_ (Book.step_of_opens Book.exact ho).symm
    apply Book.ext
    · rfl
    · simp only [book, hvalue]
      rfl
    · rfl
  · have hcond : ¬ (self.netQty = 0 ∨ self.netQty.sign = fill.signedQty.sign) := hop.not_opens
    rw [apply, if_neg hcond]
    dsimp only
    rw [signed_delta hop.net_ne_zero]
    rcases lt_or_ge |fill.signedQty| |self.netQty| with hlt | hle
    · refine Eq.trans ?_ (Book.step_of_lt Book.exact hop hlt).symm
      rw [habs] at hlt
      rw [min_eq_right hlt.le, if_pos hlt, if_neg hlt.ne]
      apply Book.ext
      · rfl
      · simp only [book, Book.castTrade, PositionKeeper.tradeIn, Fill.trade, habs, Book.exact]
      · simp only [book, Book.castTrade, PositionKeeper.tradeIn, Fill.trade, habs, Book.exact]
        push_cast
        ring
    · refine Eq.trans ?_ (Book.step_of_le Book.exact hop hle).symm
      have hrest := hop.abs_add_of_le hle
      have hqty := hop.qty_eq
      rw [habs] at hle hqty
      rw [min_eq_left hle, if_neg (lt_irrefl _), if_pos rfl]
      have hflip : fill.side.sign = -self.netQty.sign :=
        Int.eq_of_mul_eq_mul_right hf.qty_pos.ne' (by rw [Fill.signedQty] at hqty; linarith)
      apply Book.ext
      · show fill.side.sign * (fill.qty.toInt - |self.netQty|) = self.netQty + fill.signedQty
        rw [hqty, hflip]
        linarith [Int.sign_mul_abs self.netQty]
      · simp only [book, Book.castTrade, PositionKeeper.tradeIn, Fill.trade, hrest, habs]
        push_cast
        ring
      · simp only [book, Book.castTrade, PositionKeeper.tradeIn, Fill.trade]
        push_cast
        ring

theorem run_book (registry : Registry) {fills : List Fill} (h : ∀ fill ∈ fills, fill.Proper) :
    (run registry fills).book =
      Book.run Book.exact ((fills.map (PositionKeeper.tradeIn registry)).map Book.castTrade) := by
  induction fills using List.reverseRecOn with
  | nil => rfl
  | append_singleton fills fill ih =>
    have hfills : ∀ g ∈ fills, g.Proper := fun g hg => h g (List.mem_append_left _ hg)
    rw [run, List.foldl_concat, apply_book _ (h fill (by simp)), ← run, ih hfills]
    simp

theorem run_fees (fills : List Fill) :
    (run registry fills).fees = (fills.map fun fill => fill.fee.toInt).sum := by
  induction fills using List.reverseRecOn with
  | nil => rfl
  | append_singleton fills fill ih =>
    rw [run, List.foldl_concat, apply_fees, ← run, ih]
    simp

end Reference

namespace PositionKeeper

/-- The last fill took the position from one side of zero to the other. -/
def JustCrossed (fills : List Fill) : Prop :=
  ∃ earlier last, fills = earlier ++ [last] ∧
    netOf Fill.signedQty earlier * netOf Fill.signedQty fills < 0

theorem partialCloses_of_crossed {fills : List Fill} (h : JustCrossed fills) :
    partialCloses Fill.signedQty fills = 0 := by
  obtain ⟨earlier, last, rfl, hcross⟩ := h
  rw [netOf_concat] at hcross
  have hsign : ¬ (netOf Fill.signedQty earlier + last.signedQty).sign =
      (netOf Fill.signedQty earlier).sign := by
    intro hs
    rcases mul_neg_iff.mp hcross with ⟨hpos, hneg⟩ | ⟨hneg, hpos⟩
    · rw [Int.sign_eq_one_of_pos hpos, Int.sign_eq_neg_one_of_neg hneg] at hs
      cases hs
    · rw [Int.sign_eq_one_of_pos hpos, Int.sign_eq_neg_one_of_neg hneg] at hs
      cases hs
  rcases opens_or_opposes (netOf Fill.signedQty earlier) last.signedQty with ho | hop
  · rcases ho with hflat | hsame
    · rw [hflat, zero_mul] at hcross
      exact absurd hcross (lt_irrefl 0)
    · exact absurd ((Opens.sign_add (.inr hsame)).trans hsame.symm) hsign
  · rcases lt_or_ge |last.signedQty| |netOf Fill.signedQty earlier| with hlt | hle
    · exact absurd (hop.sign_add_of_lt hlt) hsign
    · exact partialCloses_of_le hop hle

/-- The position agrees with the reference up to half a micro-dollar for every partial close
since it was last flat or last crossed zero. -/
structure Tracks (fills : List Fill) (position : Position) (reference : Reference) : Prop where
  net : position.netQty.toInt = reference.netQty
  fees : position.fees.toInt = reference.fees
  cost : |(position.openCost.toInt : ℚ) - reference.openCost| ≤
    partialCloses Fill.signedQty fills / 2
  realized : |(position.realizedPnl.toInt : ℚ) - reference.realizedPnl| ≤
    partialCloses Fill.signedQty fills / 2
  exact_when : position.netQty = 0 ∨ JustCrossed fills →
    (position.openCost.toInt : ℚ) = reference.openCost ∧
      (position.realizedPnl.toInt : ℚ) = reference.realizedPnl

/-- After any run the position of any key tracks the exact accounting of the fills applied to
it. -/
theorem tracks_reference {specs : List InstrumentSpec} {registry : Registry}
    (h : Registry.tryFromSpecs specs = .ok registry) (fills : List Fill) (key : PositionKey) :
    Tracks (appliedTo key (journal registry fills)) ((after registry fills).standing key)
      (Reference.run registry (appliedTo key (journal registry fills))) := by
  have hw := Registry.wellFormed_of_tryFromSpecs h
  have hb := booked_after hw fills
  generalize hfs : appliedTo key (journal registry fills) = fs
  generalize hp : (after registry fills).standing key = p
  have hbook := hfs ▸ hp ▸ hb.book key
  have hnet : p.netQty.toInt = netOf Fill.signedQty fs := hfs ▸ hp ▸ hb.net key
  have hproper : ∀ fill ∈ fs, fill.Proper := fun fill hf => (hb.of_mem (hfs ▸ hf)).1
  have href := Reference.run_book registry hproper
  have hcloses : partialCloses Trade.qty (fs.map (tradeIn registry)) =
      partialCloses Fill.signedQty fs := partialCloses_map _ _ _
  have hcost := Book.run_cost_near (K := ℚ) Book.near_halfEven (fs.map (tradeIn registry))
  have hreal := Book.run_realized_near (K := ℚ) Book.near_halfEven (fs.map (tradeIn registry))
  rw [← href, ← hbook, hcloses, mul_one_div] at hcost hreal
  refine ⟨?_, ?_, hcost, hreal, fun hzero => ?_⟩
  · have hnet' := congrArg Book.net href
    rw [Book.run_net_cast Book.halfEven, ← hbook] at hnet'
    exact hnet'.symm
  · rw [Reference.run_fees, ← hfs, ← hp]
    exact hb.fees key
  · have hnone : partialCloses Fill.signedQty fs = 0 := by
      rcases hzero with hflat | hcross
      · rw [← SInt.toInt_eq_zero, hnet] at hflat
        exact partialCloses_flat hflat
      · exact partialCloses_of_crossed hcross
    rw [hnone, Nat.cast_zero, zero_div] at hcost hreal
    exact ⟨sub_eq_zero.mp (abs_eq_zero.mp (le_antisymm hcost (abs_nonneg _))),
      sub_eq_zero.mp (abs_eq_zero.mp (le_antisymm hreal (abs_nonneg _)))⟩

/-- Three reductions of an odd cost, each of which rounds. -/
theorem tracks_reference_rounding :
    let fills := [perpFill "a" .buy 1 1, perpFill "a" .buy 2 6, perpFill "a" .sell 5 2,
      perpFill "a" .sell 5 1, perpFill "a" .sell 5 3]
    appliedTo ⟨"a", "BTC-PERP"⟩ (journal Registry.standard fills) = fills ∧
    Tracks (appliedTo ⟨"a", "BTC-PERP"⟩ (journal Registry.standard fills))
      ((after Registry.standard fills).standing ⟨"a", "BTC-PERP"⟩)
      (Reference.run Registry.standard
        (appliedTo ⟨"a", "BTC-PERP"⟩ (journal Registry.standard fills))) :=
  ⟨by decide, tracks_reference Registry.tryFromSpecs_standard _ _⟩

end PositionKeeper

end Bitfrost
