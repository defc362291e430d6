import Bitfrost.Keeper
import Bitfrost.Lib.CostRules

/-!
What `transition` does, in integers: the position moves as a cost-basis book
under the half-even rule, and the only error that is left is an overflow, on
a step that does not fit the machine integers.
-/

namespace Bitfrost

open Bitfrost.Lib

/-- `i64::MAX`. -/
def maxI64 : ℤ := 2 ^ 63 - 1

/-- The position as a book. -/
def Position.book (self : Position) : Book ℤ :=
  ⟨self.netQty.toInt, self.openCost.toInt, self.realizedPnl.toInt⟩

def Side.sign : Side → ℤ
  | .buy => 1
  | .sell => -1

def Fill.signedQty (self : Fill) : ℤ := self.side.sign * self.qty.toInt

/-- The fill as a trade, at `scale` micro-dollars per tick and lot. -/
def Fill.trade (scale : ℤ) (self : Fill) : Trade ℤ := ⟨self.signedQty, self.price.toInt * scale⟩

/-- What `validateFill` asks of the numbers of a fill. -/
structure Fill.Proper (fill : Fill) : Prop where
  price_pos : 0 < fill.price.toInt
  qty_pos : 0 < fill.qty.toInt
  fee_nonneg : 0 ≤ fill.fee.toInt

theorem Fill.Proper.abs_signedQty {fill : Fill} (h : fill.Proper) :
    |fill.signedQty| = fill.qty.toInt := by
  unfold Fill.signedQty
  cases fill.side with
  | buy => rw [Side.sign, one_mul, abs_of_pos h.qty_pos]
  | sell => rw [Side.sign, neg_one_mul, abs_neg, abs_of_pos h.qty_pos]

namespace PositionKeeper

/-- The error is an overflow, and it happens only under `c`. -/
def OverflowsIf (c : Prop) (e : RejectReason) : Prop := e = .arithmeticOverflow ∧ c

theorem OverflowsIf.mono {c c' : Prop} (h : c → c') (e : RejectReason) (he : OverflowsIf c e) :
    OverflowsIf c' e := ⟨he.1, h he.2⟩

/-! ## Arithmetic -/

theorem checkedAbs_exits (value : I64) :
    Exits (checkedAbs value) (fun a => a.toInt = |value.toInt|)
      (OverflowsIf (2 ^ 63 ≤ |value.toInt|)) :=
  exits_i64 fun h => ⟨rfl, h.resolve_left (by have := abs_nonneg value.toInt; omega)⟩

theorem notional_exits {price : Ticks} {qty : I64} {scale : I128} (hp : 0 ≤ price.toInt)
    (hq : 0 ≤ qty.toInt) (hs : 0 < scale.toInt) :
    Exits (notional price qty scale) (fun v => v.toInt = price.toInt * qty.toInt * scale.toInt)
      (OverflowsIf (2 ^ 127 ≤ price.toInt * qty.toInt * scale.toInt)) := by
  have h0 : 0 ≤ price.toInt * qty.toInt := mul_nonneg hp hq
  have hle : price.toInt * qty.toInt ≤ price.toInt * qty.toInt * scale.toInt :=
    le_mul_of_one_le_right h0 hs
  unfold notional
  rw [okOr_bind]
  refine Exits.bind (exits_i128 fun h => ⟨rfl, ?_⟩) fun v hv => ?_
  · simp only [I64.toInt_toI128] at h
    omega
  · simp only [I64.toInt_toI128] at hv
    rw [← hv] at h0 hle ⊢
    exact exits_i128 fun h => ⟨rfl, by omega⟩

/-- Half-even division; it fails only when doubling the remainder does. -/
theorem divRoundHalfEven_exits {n d : I128} (hn : 0 ≤ n.toInt) (hd : 0 < d.toInt) :
    Exits (divRoundHalfEven n d) (fun r => r.toInt = roundHalfEven n.toInt d.toInt)
      (OverflowsIf (2 ^ 127 ≤ 2 * (n.toInt % d.toInt))) := by
  have hquo := SInt.toInt_div_of_nonneg (by decide) hn hd
  have hrem := SInt.toInt_mod_of_nonneg (by decide) hn hd
  have hq0 : 0 ≤ (n / d).toInt := hquo ▸ Int.ediv_nonneg hn hd.le
  have hr0 := Int.emod_nonneg n.toInt hd.ne'
  have hpar : ((n / d) % 2).toInt = n.toInt / d.toInt % 2 := by
    rw [SInt.toInt_mod_of_nonneg (by decide) hq0 (by decide), hquo]
    rfl
  unfold divRoundHalfEven
  refine Exits.bind (P := fun _ => True) ?_ fun _ _ => ?_
  · refine (exits_rejectIf ?_).mono (fun _ _ => trivial) fun _ => id
    rw [← SInt.toInt_lt, ← SInt.toInt_le]
    rintro (h | h)
    · exact absurd hn h.not_ge
    · exact absurd hd h.not_gt
  refine Exits.bind (exits_i128 fun h => ⟨rfl, ?_⟩) fun doubled hdbl => ?_
  · have htwo : (2 : I128).toInt = 2 := rfl
    rw [hrem, htwo] at h
    omega
  have hdbl' : doubled.toInt = 2 * (n.toInt % d.toInt) := by
    rw [hdbl, hrem, mul_comm]
    rfl
  have hcond : (doubled < d ∨ (doubled = d ∧ n / d % 2 = 0)) ↔
      2 * (n.toInt % d.toInt) < d.toInt ∨
        (2 * (n.toInt % d.toInt) = d.toInt ∧ n.toInt / d.toInt % 2 = 0) := by
    rw [← SInt.toInt_lt, ← SInt.toInt_inj, ← SInt.toInt_inj, hdbl', hpar]
    rfl
  by_cases hc : 2 * (n.toInt % d.toInt) < d.toInt ∨
      (2 * (n.toInt % d.toInt) = d.toInt ∧ n.toInt / d.toInt % 2 = 0)
  · rw [if_pos (hcond.mpr hc), exits_ok, roundHalfEven, if_pos hc, hquo]
  · rw [if_neg (mt hcond.mp hc), roundHalfEven, if_neg hc]
    refine (exits_i128 ?_).mono (fun r hr => by rw [hr, hquo]; rfl) fun _ => id
    have hone : (1 : I128).toInt = 1 := rfl
    -- Rounding up needs a remainder, hence a divisor above one, so the quotient has room.
    have hlt := Int.emod_lt_of_pos n.toInt hd
    have hdiv := Int.ediv_mul_add_emod n.toInt d.toInt
    have htop := n.upper
    rw [hquo, hone]
    rw [hquo] at hq0
    intro h
    have hone' : 2 ≤ d.toInt := by omega
    have := mul_le_mul_of_nonneg_left hone' hq0
    norm_num at htop
    omega

/-- The average of a position whose cost per lot is between one tick and `i64::MAX` ticks. -/
theorem averageEntryPrice_exits {cost scale : I128} {qty : I64} (hq : 0 < qty.toInt)
    (hs : 0 < scale.toInt) (hlo : scale.toInt * qty.toInt ≤ cost.toInt)
    (hhi : cost.toInt ≤ maxI64 * scale.toInt * qty.toInt) :
    Exits (averageEntryPrice cost qty scale)
      (fun a => a.toInt = roundHalfEven cost.toInt (qty.toInt * scale.toInt))
      (fun _ => False) := by
  have hd : 0 < qty.toInt * scale.toInt := mul_pos hq hs
  have hle : qty.toInt * scale.toInt ≤ cost.toInt := by rwa [mul_comm]
  have htop := cost.bounds.2
  unfold averageEntryPrice
  refine Exits.bind (exits_i128 ?_) fun d hdv => ?_
  · simp only [I64.toInt_toI128]
    omega
  rw [I64.toInt_toI128] at hdv
  rw [← hdv] at hd hle ⊢
  have hdiv := Int.ediv_mul_add_emod cost.toInt d.toInt
  have hrem := Int.emod_lt_of_pos cost.toInt hd
  have hquo : d.toInt ≤ cost.toInt / d.toInt * d.toInt :=
    le_mul_of_one_le_left hd.le ((Int.le_ediv_iff_mul_le hd).mpr (by omega))
  refine Exits.bind ((divRoundHalfEven_exits (hd.le.trans hle) hd).mono (fun _ => id) ?_)
    fun r hr => ?_
  · rintro e ⟨-, he⟩
    omega
  · rw [← hr]
    refine exits_i64 ?_
    have hup : r.toInt ≤ maxI64 :=
      hr ▸ roundHalfEven_le hd (by rw [hdv, mul_comm qty.toInt, ← mul_assoc]; exact hhi)
    have hdown : 0 ≤ r.toInt := hr ▸ le_roundHalfEven hd (by omega)
    unfold maxI64 at hup
    omega

/-! ## The legs -/

/-- The units a trade closes of a position. -/
def closedBy (net qty : ℤ) : ℤ := if Opens net qty then 0 else min |net| |qty|

/-- The legs are those of the cost-basis step. -/
structure LegsOf (b : Book ℤ) (t : Trade ℤ) (legs : Legs) : Prop where
  net : legs.newQty.toInt = b.net + t.qty
  cost : legs.newCost.toInt = (Book.step Book.halfEven b t).cost
  realized : legs.realizedDelta.toInt = (Book.step Book.halfEven b t).realized - b.realized
  closed : legs.closedQty.toInt = closedBy b.net t.qty
  opened : legs.openedQty.toInt = |t.qty| - closedBy b.net t.qty

/-- Everything the step computes fits: the new quantity in 64 bits; the new cost, the product
that allocates cost and the new profit in 128. -/
structure Fits (b : Book ℤ) (t : Trade ℤ) : Prop where
  net : |b.net| + |t.qty| < 2 ^ 63
  cost : b.cost + |t.qty| * t.unit < 2 ^ 127
  share : b.cost * |t.qty| < 2 ^ 127
  realized : |(Book.step Book.halfEven b t).realized| < 2 ^ 127

section Legs

variable {before : Position} {fill : Fill} {spec : InstrumentSpec} {signedFillQty : I64}

theorem signedBy_exits {side : Side} {qty : I64} (hq : 0 ≤ qty.toInt) :
    Exits (signedBy side qty) (fun s => s.toInt = side.sign * qty.toInt) (fun _ => False) := by
  have htop := qty.bounds.2
  cases side with
  | buy => exact (one_mul _).symm
  | sell =>
    have hneg : Exits (signedBy .sell qty) (fun s => s.toInt = -qty.toInt) (fun _ => False) :=
      exits_i64 (by omega)
    exact hneg.mono (fun s hs => by rw [hs, Side.sign, neg_one_mul]) fun _ => id

theorem openLegs_exits (hf : fill.Proper) (hs : 0 < spec.microPerTickLot.toInt)
    (hsigned : signedFillQty.toInt = fill.signedQty) (hcost : 0 ≤ before.openCost.toInt)
    (ho : Opens before.netQty.toInt fill.signedQty) :
    Exits (openLegs before fill spec signedFillQty)
      (LegsOf before.book (fill.trade spec.microPerTickLot.toInt))
      (OverflowsIf (¬ Fits before.book (fill.trade spec.microPerTickLot.toInt))) := by
  have habs := hf.abs_signedQty
  have hvalue : fill.price.toInt * fill.qty.toInt * spec.microPerTickLot.toInt =
      |fill.signedQty| * (fill.price.toInt * spec.microPerTickLot.toInt) := by
    rw [habs]
    ring
  have hpos : 0 ≤ fill.price.toInt * fill.qty.toInt * spec.microPerTickLot.toInt :=
    mul_nonneg (mul_nonneg hf.price_pos.le hf.qty_pos.le) hs.le
  unfold openLegs
  refine Exits.bind (exits_i64 fun h => ⟨rfl, fun hfits => ?_⟩) fun newQty hnew => ?_
  · have hsum := hfits.net
    simp only [Position.book, Fill.trade] at hsum
    rw [hsigned] at h
    have := abs_le.mp (abs_add_le before.netQty.toInt fill.signedQty)
    omega
  refine Exits.bind ((notional_exits hf.price_pos.le hf.qty_pos.le hs).mono (fun _ => id)
    (OverflowsIf.mono fun h hfits => ?_)) fun addedCost hadded => ?_
  · have hsum := hfits.cost
    simp only [Position.book, Fill.trade] at hsum
    omega
  refine Exits.bind (exits_i128 fun h => ⟨rfl, fun hfits => ?_⟩) fun newCost hnewCost => ?_
  · have hsum := hfits.cost
    simp only [Position.book, Fill.trade] at hsum
    omega
  have hstep : Book.step Book.halfEven before.book (fill.trade spec.microPerTickLot.toInt) =
      ⟨before.netQty.toInt + fill.signedQty,
        before.openCost.toInt + |fill.signedQty| * (fill.price.toInt * spec.microPerTickLot.toInt),
        before.realizedPnl.toInt⟩ := by
    exact Book.step_of_opens Book.halfEven ho
  refine ⟨by rw [hnew, hsigned]; rfl, by rw [hnewCost, hadded, hvalue, hstep], ?_, ?_, ?_⟩
  · rw [hstep]
    exact (sub_self _).symm
  · exact (if_pos ho).symm
  · rw [closedBy, if_pos (by exact ho), sub_zero]
    exact habs.symm

/-- Cost allocation; the division itself cannot fail. -/
theorem allocatedCost_exits {cost : I128} {closed oldAbs : I64} (hc : 0 ≤ cost.toInt)
    (hk : 0 ≤ closed.toInt) (hn : 0 < oldAbs.toInt) :
    Exits (allocatedCost cost closed oldAbs)
      (fun a => a.toInt = if closed.toInt = oldAbs.toInt then cost.toInt
        else Book.halfEven cost.toInt closed.toInt oldAbs.toInt)
      (OverflowsIf (2 ^ 127 ≤ cost.toInt * closed.toInt)) := by
  have hnum : 0 ≤ cost.toInt * closed.toInt := mul_nonneg hc hk
  unfold allocatedCost
  by_cases hall : closed = oldAbs
  · rw [if_pos hall, exits_ok, if_pos (congrArg SInt.toInt hall)]
  · rw [if_neg hall, if_neg (mt SInt.toInt_inj.mp hall)]
    refine Exits.bind (exits_i128 fun h => ⟨rfl, ?_⟩) fun numerator hval => ?_
    · rw [I64.toInt_toI128] at h
      omega
    rw [I64.toInt_toI128] at hval
    rw [← hval] at hnum ⊢
    refine (divRoundHalfEven_exits hnum (by exact hn)).mono (fun r hr => ?_)
      (OverflowsIf.mono fun h => ?_)
    · rw [hr, hval]
      rfl
    · have hrem := Int.emod_lt_of_pos numerator.toInt hn
      have htop := oldAbs.bounds.2
      rw [I64.toInt_toI128] at h
      omega

/-- Profit of a close whose proceeds and cost both fit. -/
theorem realizedDelta_exits {oldQty : I64} {exitNotional allocated : I128}
    (hold : oldQty.toInt ≠ 0) (hexit : 0 ≤ exitNotional.toInt) (halloc : 0 ≤ allocated.toInt) :
    Exits (realizedDelta oldQty exitNotional allocated)
      (fun d => d.toInt = oldQty.toInt.sign * (exitNotional.toInt - allocated.toInt))
      (fun _ => False) := by
  have htop := exitNotional.bounds.2
  have htop' := allocated.bounds.2
  unfold realizedDelta
  by_cases hpos : 0 < oldQty.toInt
  · rw [if_pos (SInt.toInt_lt.mp hpos), Int.sign_eq_one_of_pos hpos]
    exact (exits_i128 (by omega)).mono (fun d hd => by rw [hd, one_mul]) fun _ => id
  · rw [if_neg (mt SInt.toInt_lt.mpr hpos), Int.sign_eq_neg_one_of_neg (by omega)]
    exact (exits_i128 (by omega)).mono (fun d hd => by rw [hd]; ring) fun _ => id

section Close

variable {oldAbs closedQty remaining : I64} {allocated delta : I128}

/-- A partial close. -/
theorem afterClose_exits_lt (hop : Opposes before.netQty.toInt fill.signedQty)
    (hlt : |fill.signedQty| < |before.netQty.toInt|)
    (hsigned : signedFillQty.toInt = fill.signedQty) (hcost : 0 ≤ before.openCost.toInt)
    (hold : oldAbs.toInt = |before.netQty.toInt|) (hk : closedQty.toInt = |fill.signedQty|)
    (halloc : allocated.toInt =
      Book.halfEven before.openCost.toInt |fill.signedQty| |before.netQty.toInt|)
    (hdelta : delta.toInt = before.netQty.toInt.sign *
      (fill.price.toInt * closedQty.toInt * spec.microPerTickLot.toInt - allocated.toInt)) :
    Exits (afterClose before fill spec signedFillQty oldAbs closedQty allocated delta remaining)
      (LegsOf before.book (fill.trade spec.microPerTickLot.toInt)) (fun _ => False) := by
  have hstep : Book.step Book.halfEven before.book (fill.trade spec.microPerTickLot.toInt) =
      ⟨before.netQty.toInt + fill.signedQty, before.openCost.toInt - allocated.toInt,
        before.realizedPnl.toInt + before.netQty.toInt.sign *
          (|fill.signedQty| * (fill.price.toInt * spec.microPerTickLot.toInt)
            - allocated.toInt)⟩ := by
    rw [halloc]
    exact Book.step_of_lt Book.halfEven hop hlt
  have hclosed : closedBy before.netQty.toInt fill.signedQty = |fill.signedQty| := by
    rw [closedBy, if_neg hop.not_opens, min_eq_right hlt.le]
  have hbound := abs_le.mp (hop.abs_add_of_lt hlt).le
  have holdTop := oldAbs.bounds.2
  have hs0 := abs_nonneg fill.signedQty
  have halloc0 : 0 ≤ allocated.toInt := halloc ▸ Book.fair_halfEven.nonneg hs0 hlt hcost
  have hc := before.openCost.bounds.2
  have ha := allocated.bounds.2
  unfold afterClose
  rw [if_pos (SInt.toInt_lt.mp (by omega))]
  refine Exits.bind (exits_i64 (by rw [hsigned]; omega)) fun newQty hnewQty => ?_
  refine Exits.bind (exits_i128 (by omega)) fun newCost hnewCost => ?_
  refine ⟨by rw [hnewQty, hsigned]; rfl, by rw [hnewCost, hstep], ?_, hk.trans hclosed.symm, ?_⟩
  · rw [hdelta, hstep, hk]
    simp only [Position.book]
    ring
  · show 0 = |fill.signedQty| - closedBy before.netQty.toInt fill.signedQty
    rw [hclosed, sub_self]

/-- A full close; what is left of the fill reopens on its own side. -/
theorem afterClose_exits_le (hf : fill.Proper) (hs : 0 < spec.microPerTickLot.toInt)
    (hop : Opposes before.netQty.toInt fill.signedQty)
    (hle : |before.netQty.toInt| ≤ |fill.signedQty|) (hcost : 0 ≤ before.openCost.toInt)
    (hold : oldAbs.toInt = |before.netQty.toInt|) (hk : closedQty.toInt = |before.netQty.toInt|)
    (hrem : remaining.toInt = fill.qty.toInt - closedQty.toInt)
    (hdelta : delta.toInt = before.netQty.toInt.sign *
      (fill.price.toInt * closedQty.toInt * spec.microPerTickLot.toInt
        - before.openCost.toInt)) :
    Exits (afterClose before fill spec signedFillQty oldAbs closedQty allocated delta remaining)
      (LegsOf before.book (fill.trade spec.microPerTickLot.toInt))
      (OverflowsIf (¬ Fits before.book (fill.trade spec.microPerTickLot.toInt))) := by
  have habs := hf.abs_signedQty
  have hstep : Book.step Book.halfEven before.book (fill.trade spec.microPerTickLot.toInt) =
      ⟨before.netQty.toInt + fill.signedQty,
        |before.netQty.toInt + fill.signedQty| * (fill.price.toInt * spec.microPerTickLot.toInt),
        before.realizedPnl.toInt + before.netQty.toInt.sign *
          (|before.netQty.toInt| * (fill.price.toInt * spec.microPerTickLot.toInt)
            - before.openCost.toInt)⟩ := by
    exact Book.step_of_le Book.halfEven hop hle
  have hclosed : closedBy before.netQty.toInt fill.signedQty = closedQty.toInt := by
    rw [closedBy, if_neg hop.not_opens, min_eq_left hle, hk]
  have hprofit : delta.toInt =
      (Book.step Book.halfEven before.book (fill.trade spec.microPerTickLot.toInt)).realized -
        before.book.realized := by
    rw [hdelta, hstep, hk]
    simp only [Position.book]
    ring
  have hopened : |fill.signedQty| - closedBy before.netQty.toInt fill.signedQty =
      remaining.toInt := by
    rw [hclosed, habs, hrem]
  have hrest : |before.netQty.toInt + fill.signedQty| = remaining.toInt := by
    rw [hop.abs_add_of_le hle, habs, hrem, hk]
  unfold afterClose
  rw [if_neg (mt SInt.toInt_lt.mpr (by omega))]
  by_cases hzero : remaining = 0
  · rw [if_pos hzero]
    have hflat : before.netQty.toInt + fill.signedQty = 0 := by
      rw [← abs_eq_zero, hrest, hzero]
      rfl
    refine ⟨hflat.symm, ?_, hprofit, hclosed.symm, ?_⟩
    · rw [hstep, hflat, abs_zero, zero_mul]
      rfl
    · exact (hopened.trans (by rw [hzero])).symm
  · rw [if_neg hzero]
    have hrem0 : 0 ≤ remaining.toInt := hrest ▸ abs_nonneg _
    refine Exits.bind ((signedBy_exits hrem0).mono (fun _ => id) fun _ h => h.elim)
      fun newQty hnewQty => ?_
    refine Exits.bind ((notional_exits hf.price_pos.le hrem0 hs).mono (fun _ => id)
      (OverflowsIf.mono fun h hfits => ?_)) fun newCost hnewCost => ?_
    · have hsum := hfits.cost
      simp only [Position.book, Fill.trade, habs] at hsum
      have hk0 := abs_nonneg before.netQty.toInt
      have hless := mul_le_mul_of_nonneg_left (show remaining.toInt ≤ fill.qty.toInt by omega)
        (mul_pos hf.price_pos hs).le
      linarith
    refine ⟨?_, ?_, hprofit, hclosed.symm, hopened.symm⟩
    · -- The fill's side is opposite to the position's, so its rest has the sign of the sum.
      have hsign := hop.qty_eq
      have hn := Int.sign_mul_abs before.netQty.toInt
      rw [habs] at hsign
      rw [hnewQty]
      show _ = before.netQty.toInt + fill.signedQty
      unfold Fill.signedQty at hsign ⊢
      have hflip : fill.side.sign = -before.netQty.toInt.sign :=
        Int.eq_of_mul_eq_mul_right hf.qty_pos.ne' (by linarith)
      rw [hrem, hk, hflip]
      linarith
    · rw [hnewCost, hstep, hrest]
      simp only
      ring

end Close

theorem closeLegs_exits (hf : fill.Proper) (hs : 0 < spec.microPerTickLot.toInt)
    (hsigned : signedFillQty.toInt = fill.signedQty) (hcost : 0 ≤ before.openCost.toInt)
    (hop : Opposes before.netQty.toInt fill.signedQty) :
    Exits (closeLegs before fill spec signedFillQty)
      (LegsOf before.book (fill.trade spec.microPerTickLot.toInt))
      (OverflowsIf (¬ Fits before.book (fill.trade spec.microPerTickLot.toInt))) := by
  have habs := hf.abs_signedQty
  have hnet0 := abs_pos.mpr hop.net_ne_zero
  have hqty := hf.qty_pos
  unfold closeLegs
  refine Exits.bind ((checkedAbs_exits _).mono (fun _ => id) (OverflowsIf.mono fun h hfits => ?_))
    fun oldAbs hold => ?_
  · have hsum := hfits.net
    simp only [Position.book, Fill.trade] at hsum
    have := abs_nonneg fill.signedQty
    omega
  dsimp only
  generalize hmin : min oldAbs fill.qty = closedQty
  have hk : closedQty.toInt = min |before.netQty.toInt| fill.qty.toInt := by
    rw [← hmin, SInt.toInt_min, hold]
  have hk0 : 0 < closedQty.toInt := hk ▸ lt_min hnet0 hqty
  have hkq : closedQty.toInt ≤ fill.qty.toInt := hk ▸ min_le_right _ _
  refine Exits.bind ((notional_exits hf.price_pos.le hk0.le hs).mono (fun _ => id)
    (OverflowsIf.mono fun h hfits => ?_)) fun exitNotional hexit => ?_
  · have hsum := hfits.cost
    simp only [Position.book, Fill.trade, habs] at hsum
    have hle := mul_le_mul_of_nonneg_left hkq (mul_pos hf.price_pos hs).le
    linarith
  refine Exits.bind ((allocatedCost_exits hcost hk0.le (hold ▸ hnet0)).mono
    (fun _ => id) (OverflowsIf.mono fun h hfits => ?_)) fun allocated halloc => ?_
  · have hshare := hfits.share
    simp only [Position.book, Fill.trade, habs] at hshare
    have hle := mul_le_mul_of_nonneg_left hkq hcost
    linarith
  have halloc0 : 0 ≤ allocated.toInt := by
    rw [halloc, hold]
    split
    · exact hcost
    · next hne =>
      have hlt := lt_of_le_of_ne (hk ▸ min_le_left _ _) hne
      exact Book.fair_halfEven.nonneg hk0.le hlt hcost
  have hexit0 : 0 ≤ exitNotional.toInt :=
    hexit ▸ mul_nonneg (mul_nonneg hf.price_pos.le hk0.le) hs.le
  refine Exits.bind ((realizedDelta_exits hop.net_ne_zero hexit0 halloc0).mono (fun _ => id)
    fun _ h => h.elim) fun delta hdelta => ?_
  rw [hexit] at hdelta
  have htop := fill.qty.bounds.2
  refine Exits.bind (exits_i64 (by omega)) fun remaining hrem => ?_
  rcases lt_or_ge fill.qty.toInt |before.netQty.toInt| with hlt | hle
  · rw [min_eq_right hlt.le] at hk
    rw [if_neg (by omega), hk, hold, ← habs] at halloc
    exact (afterClose_exits_lt hop (habs ▸ hlt) hsigned hcost hold (hk.trans habs.symm) halloc
      hdelta).mono (fun _ => id) fun _ h => h.elim
  · rw [min_eq_left hle] at hk
    rw [if_pos (by omega)] at halloc
    exact afterClose_exits_le hf hs hop (habs ▸ hle) hcost hold hk hrem (halloc ▸ hdelta)

end Legs

end PositionKeeper

/-! ## `transition` -/

/-- A flat position has no average; an open one has the half-even average of its cost. -/
structure Position.Averaged (scale : ℤ) (position : Position) : Prop where
  flat : position.netQty.toInt = 0 → position.avgEntryPrice = none
  open_ : position.netQty.toInt ≠ 0 → ∃ price, position.avgEntryPrice = some price ∧
    price.toInt =
      roundHalfEven position.openCost.toInt (|position.netQty.toInt| * scale)

/-- A position as the keeper stores it: every open lot costs at least one tick and at most the
largest price, and the average is that of the cost. -/
structure Position.Healthy (scale : ℤ) (position : Position) : Prop where
  within : position.book.Within scale (maxI64 * scale)
  averaged : position.Averaged scale
  fees_nonneg : 0 ≤ position.fees.toInt

theorem Position.healthy_default (scale : ℤ) : (default : Position).Healthy scale where
  within := ⟨(mul_zero scale).le, (mul_zero (maxI64 * scale)).ge⟩
  averaged := ⟨fun _ => rfl, fun h => absurd rfl h⟩
  fees_nonneg := le_rfl

theorem Position.Healthy.cost_nonneg {scale : ℤ} {position : Position} (hs : 0 < scale)
    (h : position.Healthy scale) : 0 ≤ position.openCost.toInt :=
  (mul_nonneg hs.le (abs_nonneg _)).trans h.within.lower

/-- An open position has a positive average no greater than the largest price. -/
theorem Position.Healthy.average_pos {scale : ℤ} {position : Position} (hs : 0 < scale)
    (h : position.Healthy scale) (hnet : position.netQty.toInt ≠ 0) :
    0 < position.openCost.toInt ∧
      ∃ price, position.avgEntryPrice = some price ∧ 0 < price.toInt := by
  have hn := abs_pos.mpr hnet
  have hlo : scale * |position.netQty.toInt| ≤ position.openCost.toInt := h.within.lower
  obtain ⟨price, hprice, hval⟩ := h.averaged.open_ hnet
  refine ⟨(mul_pos hs hn).trans_le hlo, price, hprice, ?_⟩
  rw [hval]
  exact le_roundHalfEven (mul_pos hn hs) (by linarith)

theorem Position.Healthy.validated {scale : ℤ} {position : Position} (hs : 0 < scale)
    (h : position.Healthy scale) : PositionKeeper.validatePosition position = .ok () := by
  have hfees : ¬ position.fees < 0 := (SInt.toInt_le.mp h.fees_nonneg).not_gt
  unfold PositionKeeper.validatePosition
  rw [if_neg hfees]
  by_cases hnet : position.netQty = 0
  · have hn : position.netQty.toInt = 0 := congrArg SInt.toInt hnet
    have hlo := h.within.lower
    have hhi := h.within.upper
    simp only [Position.book, hn, abs_zero, Int.cast_zero, mul_zero] at hlo hhi
    have hcost : position.openCost = 0 := SInt.toInt_inj.mp (le_antisymm hhi hlo)
    rw [if_pos hnet, rejectIf_eq_ok, hcost, h.averaged.flat hn]
    simp
  · obtain ⟨hcost, price, hprice, hpos⟩ := h.average_pos hs (mt SInt.toInt_eq_zero.mp hnet)
    rw [if_neg hnet, rejectIf_eq_ok, hprice]
    simp only [Option.all_some, decide_eq_true_eq, not_or, not_le]
    exact ⟨hcost, hpos⟩

/-- The prices of proper fills keep the cost in the range of a healthy position. -/
theorem Position.Healthy.step_within {before : Position} {fill : Fill} {spec : InstrumentSpec}
    (hb : before.Healthy spec.microPerTickLot.toInt) (hf : fill.Proper)
    (hs : 0 < spec.microPerTickLot.toInt) :
    (Book.step Book.halfEven before.book (fill.trade spec.microPerTickLot.toInt)).Within
      spec.microPerTickLot.toInt (maxI64 * spec.microPerTickLot.toInt) := by
  have hlo : spec.microPerTickLot.toInt ≤ fill.price.toInt * spec.microPerTickLot.toInt :=
    le_mul_of_one_le_left hs.le hf.price_pos
  have hhi : fill.price.toInt * spec.microPerTickLot.toInt ≤
      maxI64 * spec.microPerTickLot.toInt := by
    have htop := fill.price.bounds.2
    exact mul_le_mul_of_nonneg_right (by unfold maxI64; omega) hs.le
  exact hb.within.step_of_unit (t := fill.trade spec.microPerTickLot.toInt)
    Book.fair_halfEven hlo hhi

namespace PositionKeeper

theorem averageOf_exits {legs : Legs} {spec : InstrumentSpec}
    (hs : 0 < spec.microPerTickLot.toInt)
    (hlo : spec.microPerTickLot.toInt * |legs.newQty.toInt| ≤ legs.newCost.toInt)
    (hhi : legs.newCost.toInt ≤
      maxI64 * spec.microPerTickLot.toInt * |legs.newQty.toInt|) :
    Exits (averageOf legs spec)
      (fun avg => (legs.newQty.toInt = 0 → avg = none) ∧
        (legs.newQty.toInt ≠ 0 → ∃ price, avg = some price ∧ price.toInt =
          roundHalfEven legs.newCost.toInt (|legs.newQty.toInt| * spec.microPerTickLot.toInt)))
      (OverflowsIf (2 ^ 63 ≤ |legs.newQty.toInt|)) := by
  unfold averageOf
  by_cases hflat : legs.newQty = 0
  · have hn : legs.newQty.toInt = 0 := congrArg SInt.toInt hflat
    rw [if_pos hflat]
    exact ⟨fun _ => rfl, fun h => absurd hn h⟩
  · have hn : legs.newQty.toInt ≠ 0 := mt SInt.toInt_eq_zero.mp hflat
    rw [if_neg hflat]
    refine Exits.bind (checkedAbs_exits _) fun newAbs hnew => ?_
    rw [← hnew] at hlo hhi ⊢
    refine Exits.bind ((averageEntryPrice_exits (hnew ▸ abs_pos.mpr hn) hs hlo hhi).mono
      (fun _ => id) fun _ h => h.elim) fun price hprice => ?_
    exact ⟨fun h => absurd h hn, fun _ => ⟨price, rfl, hprice⟩⟩

/-- Whichever branch runs, its legs are those of the cost-basis step. -/
theorem legs_exits {before : Position} {fill : Fill} {spec : InstrumentSpec}
    {signedFillQty : I64} (hf : fill.Proper) (hs : 0 < spec.microPerTickLot.toInt)
    (hsigned : signedFillQty.toInt = fill.signedQty) (hcost : 0 ≤ before.openCost.toInt) :
    Exits (if before.netQty = 0 ∨ before.netQty.signum = signedFillQty.signum then
        openLegs before fill spec signedFillQty
      else closeLegs before fill spec signedFillQty)
      (LegsOf before.book (fill.trade spec.microPerTickLot.toInt))
      (OverflowsIf (¬ Fits before.book (fill.trade spec.microPerTickLot.toInt))) := by
  have hcond : (before.netQty = 0 ∨ before.netQty.signum = signedFillQty.signum) ↔
      Opens before.netQty.toInt fill.signedQty := by
    rw [Opens, ← SInt.toInt_inj, SInt.signum, SInt.signum, hsigned]
    rfl
  rcases opens_or_opposes before.netQty.toInt fill.signedQty with ho | hop
  · rw [if_pos (hcond.mpr ho)]
    exact openLegs_exits hf hs hsigned hcost ho
  · rw [if_neg (mt hcond.mp hop.not_opens)]
    exact closeLegs_exits hf hs hsigned hcost hop

/-- The legs leave every lot at a cost within the bounds of the step. -/
theorem LegsOf.within {b : Book ℤ} {t : Trade ℤ} {legs : Legs} {lo hi : ℤ} (h : LegsOf b t legs)
    (hw : (Book.step Book.halfEven b t).Within lo hi) :
    lo * |legs.newQty.toInt| ≤ legs.newCost.toInt ∧
      legs.newCost.toInt ≤ hi * |legs.newQty.toInt| := by
  have hlower := hw.lower
  have hupper := hw.upper
  rw [Book.step_net, ← h.net, ← h.cost] at hlower hupper
  exact ⟨hlower, hupper⟩

/-- The delta of a fill that was booked. -/
structure DeltaOf (scale : ℤ) (key : PositionKey) (before : Position) (fill : Fill)
    (delta : PositionDelta) : Prop where
  key_eq : delta.key = key
  before_eq : delta.before = before
  book : delta.after.book = Book.step Book.halfEven before.book (fill.trade scale)
  fees : delta.after.fees.toInt = before.fees.toInt + fill.fee.toInt
  healthy : delta.after.Healthy scale
  closed : delta.closedQty.toInt = closedBy before.netQty.toInt fill.signedQty
  opened : delta.openedQty.toInt =
    fill.qty.toInt - closedBy before.netQty.toInt fill.signedQty
  realized : delta.realizedPnlDelta.toInt =
    delta.after.realizedPnl.toInt - before.realizedPnl.toInt
  fee : delta.feeDelta = fill.fee

/-- On a healthy position a proper fill moves the book by one cost-basis step, unless the step
does not fit. -/
theorem transition_exits (key : PositionKey) {before : Position} {fill : Fill}
    {spec : InstrumentSpec} (hf : fill.Proper) (hs : 0 < spec.microPerTickLot.toInt)
    (hb : before.Healthy spec.microPerTickLot.toInt) :
    Exits (transition key before fill spec)
      (DeltaOf spec.microPerTickLot.toInt key before fill)
      (OverflowsIf (¬ (Fits before.book (fill.trade spec.microPerTickLot.toInt) ∧
        before.fees.toInt + fill.fee.toInt < 2 ^ 127))) := by
  have hcost := hb.cost_nonneg hs
  unfold transition
  refine Exits.bind (P := fun _ => True) ?_ fun _ _ => ?_
  · rw [hb.validated hs]
    trivial
  refine Exits.bind ((signedBy_exits hf.qty_pos.le).mono (fun _ => id) fun _ h => h.elim)
    fun signedFillQty hsigned => ?_
  refine Exits.bind ((legs_exits hf hs hsigned hcost).mono (fun _ => id)
    (OverflowsIf.mono fun h hfits => h hfits.1)) fun legs hlegs => ?_
  have hwithin := hb.step_within hf hs
  have hnet := (Book.step_net Book.halfEven before.book
    (fill.trade spec.microPerTickLot.toInt)).trans hlegs.net.symm
  obtain ⟨hlower, hupper⟩ := hlegs.within hwithin
  refine Exits.bind ((averageOf_exits hs hlower hupper).mono (fun _ => id)
    (OverflowsIf.mono fun h hfits => ?_)) fun avg havg => ?_
  · have hsum := hfits.1.net
    have htri := abs_add_le before.book.net (fill.trade spec.microPerTickLot.toInt).qty
    rw [hlegs.net] at h
    omega
  refine Exits.bind (exits_i128 fun h => ⟨rfl, fun hfits => ?_⟩) fun realizedPnl hreal => ?_
  · have hsum := abs_lt.mp hfits.1.realized
    rw [hlegs.realized] at h
    simp only [Position.book] at h hsum
    omega
  refine Exits.bind (exits_i128 fun h => ⟨rfl, fun hfits => ?_⟩) fun fees hfees => ?_
  · have := hb.fees_nonneg
    have := hf.fee_nonneg
    omega
  have hbook : (⟨legs.newQty.toInt, legs.newCost.toInt, realizedPnl.toInt⟩ : Book ℤ) =
      Book.step Book.halfEven before.book (fill.trade spec.microPerTickLot.toInt) := by
    apply Book.ext
    · exact hnet.symm
    · exact hlegs.cost
    · rw [hreal, hlegs.realized]
      simp only [Position.book]
      ring
  have hhealthy : Position.Healthy spec.microPerTickLot.toInt
      ⟨legs.newQty, avg, legs.newCost, realizedPnl, fees⟩ := by
    refine ⟨?_, ⟨havg.1, havg.2⟩, ?_⟩
    · rw [Position.book, hbook]
      exact hwithin
    · rw [hfees]
      exact add_nonneg hb.fees_nonneg hf.fee_nonneg
  refine Exits.bind (P := fun _ => True) ?_ fun _ _ => ?_
  · rw [hhealthy.validated hs]
    trivial
  · exact ⟨rfl, rfl, hbook, hfees, hhealthy, hlegs.closed,
      by rw [← hf.abs_signedQty]; exact hlegs.opened, by rw [hreal]; ring, rfl⟩

end PositionKeeper

end Bitfrost
