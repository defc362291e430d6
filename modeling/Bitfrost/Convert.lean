import Bitfrost.Lib.Binary64
import Bitfrost.Types

/-!
Boundary events to canonical fills (`convert.rs`): the decimal parser, the
conversion of a float price to ticks, and `canonicalize` for the two venues.
-/

namespace Bitfrost

open Bitfrost.Lib

/-! ## `parse_fixed` -/

/-- Unicode `White_Space`, which `str::trim` strips. -/
def isWhitespace (c : Char) : Bool :=
  let n := c.toNat
  (0x09 ≤ n && n ≤ 0x0D) || n = 0x20 || n = 0x85 || n = 0xA0 || n = 0x1680 ||
    (0x2000 ≤ n && n ≤ 0x200A) || n = 0x2028 || n = 0x2029 || n = 0x202F || n = 0x205F || n = 0x3000

def trim (s : List Char) : List Char :=
  ((s.dropWhile isWhitespace).reverse.dropWhile isWhitespace).reverse

def isAsciiDigit (c : Char) : Bool := '0' ≤ c && c ≤ '9'

/-- `strip_prefix('-')`: whether there was a sign, and the rest. -/
def stripMinus : List Char → Bool × List Char
  | '-' :: body => (true, body)
  | body => (false, body)

/-- `split_once('.')`, with an empty fraction when there is no point. -/
def splitPoint : List Char → List Char × List Char
  | [] => ([], [])
  | c :: body =>
    if c = '.' then ([], body)
    else
      let (intPart, fracPart) := splitPoint body
      (c :: intPart, fracPart)

/-- One turn of the digit loop. -/
def pushDigit (value : I128) (digit : Char) : Option I128 := do
  let value ← value.checkedMul 10
  value.checkedAdd (SInt.wrap (digit.toNat - '0'.toNat))

/-- `n` turns of the padding loop. -/
def padZeros : Nat → I128 → Option I128
  | 0, value => some value
  | n + 1, value => do padZeros n (← value.checkedMul 10)

def parseFixed (s : String) (scale : UInt32) : Except RejectReason I128 := do
  let malformed := RejectReason.malformedDecimal s
  let t := trim s.toList
  rejectIf (t = []) malformed
  let (neg, body) := stripMinus t
  let (intPart, fracPart) := splitPoint body
  rejectIf (intPart = [] ∧ fracPart = []) malformed
  rejectIf (¬ intPart.all isAsciiDigit ∨ ¬ fracPart.all isAsciiDigit) malformed
  let scale := scale.toNat
  -- The digits are ASCII here, so characters and bytes count alike.
  rejectIf (scale < fracPart.length ∧ ¬ (fracPart.drop scale).all (· = '0')) malformed
  let fracPart := fracPart.take scale
  let value ← okOr ((intPart ++ fracPart).foldlM pushDigit 0) malformed
  let value ← okOr (padZeros (scale - fracPart.length) value) malformed
  if neg then okOr value.checkedNeg malformed else .ok value

/-! ## `price_to_ticks` -/

/-- `f64::EPSILON`. -/
def f64Epsilon : Float := Float.ofBits 0x3CB0000000000000

def priceToTicks (price : Float) (tickMicro : I128) (symbol : String) :
    Except RejectReason I64 := do
  rejectIf (¬ price.isFinite ∨ price ≤ 0.0 ∨ tickMicro ≤ 0)
    (.malformedDecimal (Binary64.display price))
  let scaled := price * 1000000.0 / Float.ofInt tickMicro.toInt
  let ticks := Binary64.round scaled
  rejectIf (¬ ticks.isFinite) (.malformedDecimal (Binary64.display price))
  let tolerance := f64Epsilon * max scaled.abs 1.0 * 8.0
  rejectIf (tolerance < (scaled - ticks).abs) (.offTick symbol (Binary64.display price))
  rejectIf (9223372036854775808.0 ≤ ticks) .arithmeticOverflow
  .ok (SInt.wrap (Binary64.toI64OfNonneg ticks))

/-! ## `Canonicalize` -/

variable {S : Type} [InstrumentSource S]

/-- The spec guards both venues open with. -/
def resolveSpec (instruments : S) (venue : Venue) (symbol : String) :
    Except RejectReason InstrumentSpec := do
  let spec ← okOr (InstrumentSource.lookup instruments venue symbol) (.unknownSymbol symbol)
  rejectIf (spec.venue ≠ venue) (.unknownSymbol symbol)
  rejectIf (spec.tickMicro ≤ 0 ∨ spec.lotQtyE9 ≤ 0 ∨ spec.microPerTickLot ≤ 0) (.invalidFill symbol)
  .ok spec

def hlSide : String → Except RejectReason Side
  | "buy" => .ok .buy
  | "sell" => .ok .sell
  | other => .error (.unknownSide other)

def HlEvent.canonicalize (self : HlEvent) (instruments : S) : Except RejectReason Fill := do
  let spec ← resolveSpec instruments .hl self.symbol
  let side ← hlSide self.side
  let pxMicro ← parseFixed self.px 6
  rejectIf (pxMicro ≤ 0) (.malformedDecimal self.px)
  rejectIf (pxMicro % spec.tickMicro ≠ 0) (.offTick self.symbol self.px)
  let price ← okOr (SInt.tryFrom (pxMicro / spec.tickMicro).toInt) .arithmeticOverflow
  let qtyE9 ← parseFixed self.qty 9
  rejectIf (qtyE9 ≤ 0) (.invalidQuantity self.qty)
  rejectIf (qtyE9 % spec.lotQtyE9 ≠ 0) (.offLot self.symbol self.qty)
  let qty ← okOr (SInt.tryFrom (qtyE9 / spec.lotQtyE9).toInt) .arithmeticOverflow
  let feeMicro ← parseFixed self.fee 6
  rejectIf (feeMicro < 0) (.malformedDecimal self.fee)
  .ok
    { venue := .hl, eventId := self.eventId, seq := self.seq, tsMs := self.ts
      account := self.account, instrument := spec.instrument, symbol := self.symbol
      kind := spec.kind, side := side, price := price, qty := qty, fee := feeMicro }

def pmAction : String → Except RejectReason Side
  | "BUY" => .ok .buy
  | "SELL" => .ok .sell
  | other => .error (.unknownSide other)

/-- A NO trade is the opposite YES trade at the complementary price. -/
def foldOutcome (outcome : String) (action : Side) (full rawTicks : I64) :
    Except RejectReason (Side × Ticks) :=
  match outcome with
  | "YES" => .ok (action, rawTicks)
  | "NO" => .ok (action.flip, full - rawTicks)
  | other => .error (.unknownOutcome other)

/-- `PmEvent::canonicalize`, given the conversion of the price. -/
def PmEvent.canonicalizeWith (toTicks : Float → I128 → String → Except RejectReason I64)
    (self : PmEvent) (instruments : S) : Except RejectReason Fill := do
  let spec ← resolveSpec instruments .pm self.market
  let action ← pmAction self.action
  rejectIf (self.size ≤ 0) (.invalidQuantity (toString self.size.toInt))
  rejectIf (self.feeBps < 0) (.invalidFee (toString self.feeBps.toInt))
  let rawTicks ← toTicks self.price spec.tickMicro self.market
  let full : I64 ← okOr (SInt.tryFrom ((1000000 : I128) / spec.tickMicro).toInt) .arithmeticOverflow
  let lo := full / 100
  let hi := full - lo
  rejectIf (rawTicks < lo ∨ hi < rawTicks) (.priceOutOfRange self.market rawTicks)
  let notionalMicro ← okOr
    ((rawTicks.toI128.checkedMul self.size.toI128).bind (·.checkedMul spec.microPerTickLot))
    .arithmeticOverflow
  let scaledFee ← okOr
    ((notionalMicro.checkedMul self.feeBps.toI128).bind (·.checkedAdd 5000)) .arithmeticOverflow
  let feeMicro := scaledFee / 10000
  let (side, price) ← foldOutcome self.outcome action full rawTicks
  .ok
    { venue := .pm, eventId := self.id, seq := self.sequence, tsMs := self.timestampMs
      account := self.user, instrument := spec.instrument, symbol := self.market
      kind := spec.kind, side := side, price := price, qty := self.size, fee := feeMicro }

def PmEvent.canonicalize (self : PmEvent) (instruments : S) : Except RejectReason Fill :=
  self.canonicalizeWith priceToTicks instruments

def RawEvent.canonicalize (self : RawEvent) (instruments : S) : Except RejectReason Fill :=
  match self with
  | .hl event => event.canonicalize instruments
  | .pm event => event.canonicalize instruments

/-- A canonical fill keeps the venue, the id and the sequence number of its event. -/
theorem RawEvent.canonicalize_identity {self : RawEvent} {instruments : S} {fill : Fill}
    (h : self.canonicalize instruments = .ok fill) :
    fill.venue = self.venue ∧ fill.eventId = self.eventId ∧ fill.seq = self.seq := by
  cases self with
  | hl event =>
    simp only [RawEvent.canonicalize, HlEvent.canonicalize, bind_eq_ok] at h
    obtain ⟨_, -, _, -, _, -, _, -, _, -, _, -, _, -, _, -, _, -, _, -, _, -, _, -, hok⟩ := h
    cases hok
    exact ⟨rfl, rfl, rfl⟩
  | pm event =>
    simp only [RawEvent.canonicalize, PmEvent.canonicalize, PmEvent.canonicalizeWith,
      bind_eq_ok] at h
    obtain ⟨_, -, _, -, _, -, _, -, _, -, _, -, _, -, _, -, _, -, _, -, hok⟩ := h
    cases hok
    exact ⟨rfl, rfl, rfl⟩

end Bitfrost
