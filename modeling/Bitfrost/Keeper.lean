import Bitfrost.Registry

/-!
The position keeper (`position_keeper`): `apply` resolves and validates a
fill, runs `transition` on the position of its key, and stores the result.
Every arithmetic step is checked; a fill that fails changes nothing.
-/

namespace Bitfrost

open Bitfrost.Lib
open Std (ExtTreeMap LawfulEqCmp TransCmp)

/-- The derived order of position keys. -/
abbrev positionKeyCmp : PositionKey → PositionKey → Ordering :=
  pairCmp PositionKey.account PositionKey.instrument

instance : TransCmp positionKeyCmp :=
  inferInstanceAs (TransCmp (pairCmp PositionKey.account PositionKey.instrument))

instance : LawfulEqCmp positionKeyCmp :=
  lawfulEqCmp_pairCmp fun a b h h' => by cases a; cases b; simp_all

structure PositionKeeper (S : Type) where
  instruments : S
  positions : ExtTreeMap PositionKey Position positionKeyCmp

namespace PositionKeeper

/-! ## Arithmetic -/

def checkedAbs (value : I64) : Except RejectReason I64 := okOr value.checkedAbs .arithmeticOverflow

def divRoundHalfEven (numerator denominator : I128) : Except RejectReason I128 := do
  rejectIf (numerator < 0 ∨ denominator ≤ 0) .arithmeticOverflow
  let quotient := numerator / denominator
  let remainder := numerator % denominator
  let doubled ← okOr (remainder.checkedMul 2) .arithmeticOverflow
  if doubled < denominator ∨ (doubled = denominator ∧ quotient % 2 = 0) then .ok quotient
  else okOr (quotient.checkedAdd 1) .arithmeticOverflow

def averageEntryPrice (openCost : I128) (qty : I64) (microPerTickLot : I128) :
    Except RejectReason Ticks := do
  let denominator ← okOr (qty.toI128.checkedMul microPerTickLot) .arithmeticOverflow
  let rounded ← divRoundHalfEven openCost denominator
  okOr (SInt.tryFrom rounded.toInt) .arithmeticOverflow

def notional (price : Ticks) (qty : I64) (microPerTickLot : I128) : Except RejectReason I128 :=
  okOr ((price.toI128.checkedMul qty.toI128).bind (·.checkedMul microPerTickLot))
    .arithmeticOverflow

/-! ## Validation -/

def validatePosition (position : Position) : Except RejectReason Unit :=
  if position.fees < 0 then .error (.invalidPosition "negative fees")
  else if position.netQty = 0 then
    rejectIf (position.openCost ≠ 0 ∨ position.avgEntryPrice.isSome)
      (.invalidPosition "flat position has open cost")
  else
    rejectIf (position.openCost ≤ 0 ∨ position.avgEntryPrice.all (· ≤ 0))
      (.invalidPosition "open position has invalid cost")

def validateFill (fill : Fill) (spec : InstrumentSpec) : Except RejectReason Unit := do
  rejectIf (fill.venue ≠ spec.venue ∨ fill.kind ≠ spec.kind ∨ fill.instrument ≠ spec.instrument)
    (.invalidFill fill.symbol)
  rejectIf (fill.price ≤ 0 ∨ fill.qty ≤ 0 ∨ fill.fee < 0) (.invalidFill fill.eventId)
  rejectIf (spec.tickMicro ≤ 0 ∨ spec.lotQtyE9 ≤ 0 ∨ spec.microPerTickLot ≤ 0)
    (.invalidFill spec.symbol)
  if spec.kind = .binary then
    rejectIf ((1000000 : I128) % spec.tickMicro ≠ 0) (.invalidFill spec.symbol)
    let full : I64 ← okOr (SInt.tryFrom ((1000000 : I128) / spec.tickMicro).toInt)
      .arithmeticOverflow
    let lo := full / 100
    let hi := full - lo
    rejectIf (fill.price < lo ∨ hi < fill.price) (.priceOutOfRange fill.symbol fill.price)
  else .ok ()

/-! ## `transition` -/

/-- What a fill does to a position before the checks that close `transition`. -/
structure Legs where
  newQty : I64
  newCost : I128
  closedQty : I64
  openedQty : I64
  realizedDelta : I128

/-- `qty` signed by the side of the fill. -/
def signedBy (side : Side) (qty : I64) : Except RejectReason I64 :=
  match side with
  | .buy => .ok qty
  | .sell => okOr qty.checkedNeg .arithmeticOverflow

/-- The branch that opens or adds. -/
def openLegs (before : Position) (fill : Fill) (spec : InstrumentSpec) (signedFillQty : I64) :
    Except RejectReason Legs := do
  let newQty ← okOr (before.netQty.checkedAdd signedFillQty) .arithmeticOverflow
  let addedCost ← notional fill.price fill.qty spec.microPerTickLot
  let newCost ← okOr (before.openCost.checkedAdd addedCost) .arithmeticOverflow
  .ok ⟨newQty, newCost, 0, fill.qty, 0⟩

/-- The part of the open cost that closing `closedQty` of `oldAbs` releases. -/
def allocatedCost (openCost : I128) (closedQty oldAbs : I64) : Except RejectReason I128 :=
  if closedQty = oldAbs then .ok openCost
  else do
    let numerator ← okOr (openCost.checkedMul closedQty.toI128) .arithmeticOverflow
    divRoundHalfEven numerator oldAbs.toI128

/-- The profit of closing: what came in less what it cost, by the side that is closed. -/
def realizedDelta (oldQty : I64) (exitNotional allocatedCost : I128) : Except RejectReason I128 :=
  if 0 < oldQty then okOr (exitNotional.checkedSub allocatedCost) .arithmeticOverflow
  else okOr (allocatedCost.checkedSub exitNotional) .arithmeticOverflow

/-- The end of the closing branch: the position shrinks, or is flat, or reopens on the side of
the fill. -/
def afterClose (before : Position) (fill : Fill) (spec : InstrumentSpec) (signedFillQty : I64)
    (oldAbs closedQty : I64) (allocatedCost realizedDelta : I128) (remainingFill : I64) :
    Except RejectReason Legs :=
  if closedQty < oldAbs then do
    let newQty ← okOr (before.netQty.checkedAdd signedFillQty) .arithmeticOverflow
    let newCost ← okOr (before.openCost.checkedSub allocatedCost) .arithmeticOverflow
    .ok ⟨newQty, newCost, closedQty, 0, realizedDelta⟩
  else if remainingFill = 0 then .ok ⟨0, 0, closedQty, 0, realizedDelta⟩
  else do
    let newQty ← signedBy fill.side remainingFill
    let newCost ← notional fill.price remainingFill spec.microPerTickLot
    .ok ⟨newQty, newCost, closedQty, remainingFill, realizedDelta⟩

/-- The branch that closes, in part, in full, or through zero. -/
def closeLegs (before : Position) (fill : Fill) (spec : InstrumentSpec) (signedFillQty : I64) :
    Except RejectReason Legs := do
  let oldAbs ← checkedAbs before.netQty
  let closedQty := min oldAbs fill.qty
  let exitNotional ← notional fill.price closedQty spec.microPerTickLot
  let allocatedCost ← allocatedCost before.openCost closedQty oldAbs
  let realizedDelta ← realizedDelta before.netQty exitNotional allocatedCost
  let remainingFill ← okOr (fill.qty.checkedSub closedQty) .arithmeticOverflow
  afterClose before fill spec signedFillQty oldAbs closedQty allocatedCost realizedDelta
    remainingFill

def averageOf (legs : Legs) (spec : InstrumentSpec) : Except RejectReason (Option Ticks) :=
  if legs.newQty = 0 then .ok none
  else do
    let newAbs ← checkedAbs legs.newQty
    let price ← averageEntryPrice legs.newCost newAbs spec.microPerTickLot
    .ok (some price)

def transition (key : PositionKey) (before : Position) (fill : Fill) (spec : InstrumentSpec) :
    Except RejectReason PositionDelta := do
  validatePosition before
  let signedFillQty ← signedBy fill.side fill.qty
  let legs ←
    (if before.netQty = 0 ∨ before.netQty.signum = signedFillQty.signum then
      openLegs before fill spec signedFillQty
    else closeLegs before fill spec signedFillQty)
  let avgEntryPrice ← averageOf legs spec
  let realizedPnl ← okOr (before.realizedPnl.checkedAdd legs.realizedDelta) .arithmeticOverflow
  let fees ← okOr (before.fees.checkedAdd fill.fee) .arithmeticOverflow
  let after : Position := ⟨legs.newQty, avgEntryPrice, legs.newCost, realizedPnl, fees⟩
  validatePosition after
  .ok ⟨key, before, after, legs.closedQty, legs.openedQty, legs.realizedDelta, fill.fee⟩

/-! ## `apply` -/

variable {S : Type} [InstrumentSource S]

def new (instruments : S) : PositionKeeper S := ⟨instruments, ∅⟩

def keyOf (fill : Fill) : PositionKey := ⟨fill.account, fill.instrument⟩

/-- The delta of a fill against the position of its key, if there is one. -/
def deltaOf (instruments : S) (fill : Fill) (position : Option Position) :
    Except RejectReason PositionDelta := do
  let spec ← okOr (InstrumentSource.lookup instruments fill.venue fill.symbol)
    (.unknownSymbol fill.symbol)
  validateFill fill spec
  transition (keyOf fill) (position.getD default) fill spec

def apply (self : PositionKeeper S) (fill : Fill) :
    Except RejectReason PositionDelta × PositionKeeper S :=
  match deltaOf self.instruments fill self.positions[keyOf fill]? with
  | .ok delta =>
    (.ok delta, { self with positions := self.positions.insert (keyOf fill) delta.after })
  | .error reason => (.error reason, self)

/-- `position()`: none when the key was never touched. -/
def position (self : PositionKeeper S) (key : PositionKey) : Option Position := self.positions[key]?

/-- The position a fill of the key would start from: flat when it was never touched. -/
def standing (self : PositionKeeper S) (key : PositionKey) : Position :=
  (self.position key).getD default

end PositionKeeper

end Bitfrost
