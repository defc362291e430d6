import Bitfrost.Lib.Checked

/-!
The shared shapes of the pipeline (`crates/types`): instruments, boundary
events, canonical fills, positions, and the vocabulary of the ingester and
the sequencer. Integers keep the width the source gives them; `usize` is a
64-bit word.
-/

namespace Bitfrost

open Bitfrost.Lib

/-! ## Fixed-point money (`fixed.rs`) -/

abbrev Ticks := I64
abbrev Lots := I64
abbrev Micro := I128

/-! ## Instruments (`instrument.rs`) -/

inductive Venue
  | hl
  | pm
deriving DecidableEq, Repr

/-- `venue as usize`: the lane of the venue and its merge priority. -/
def Venue.index : Venue → Nat
  | .hl => 0
  | .pm => 1

theorem Venue.index_injective : Function.Injective Venue.index := by
  intro a b h
  cases a <;> cases b <;> first | rfl | simp [Venue.index] at h

instance : LinearOrder Venue := LinearOrder.lift' Venue.index Venue.index_injective

instance instTransOrdVenue : Std.TransOrd Venue := inferInstance

instance : Std.LawfulEqOrd Venue where
  compare_self := Std.ReflCmp.compare_self
  eq_of_compare := compare_eq_iff_eq.mp

/-- The lanes in array order. -/
def Venue.all : List Venue := [.hl, .pm]

inductive Kind
  | perp
  | binary
deriving DecidableEq, Repr

abbrev InstrumentId := String

structure InstrumentSpec where
  instrument : InstrumentId
  symbol : String
  venue : Venue
  kind : Kind
  tickMicro : I128
  lotQtyE9 : I128
  microPerTickLot : I128
deriving DecidableEq

class InstrumentSource (S : Type) where
  lookup : S → Venue → String → Option InstrumentSpec

/-! ## Boundary events (`boundary.rs`, `stream.rs`)

The derived `==` is the source's `PartialEq`: prices compare as floats. -/

structure HlEvent where
  seq : UInt64
  eventId : String
  ts : UInt64
  account : String
  symbol : String
  side : String
  px : String
  qty : String
  fee : String
deriving BEq

structure PmEvent where
  sequence : UInt64
  id : String
  timestampMs : UInt64
  user : String
  market : String
  outcome : String
  action : String
  price : Float
  size : I64
  feeBps : I64
deriving BEq

inductive RawEvent
  | hl (event : HlEvent)
  | pm (event : PmEvent)
deriving BEq

namespace RawEvent

def venue : RawEvent → Venue
  | .hl _ => .hl
  | .pm _ => .pm

def seq : RawEvent → UInt64
  | .hl event => event.seq
  | .pm event => event.sequence

def eventId : RawEvent → String
  | .hl event => event.eventId
  | .pm event => event.id

end RawEvent

structure RawLine where
  venue : Venue
  text : String
  parsed : Except String RawEvent

/-! ## Canonical fills (`canonical.rs`) -/

inductive Side
  | buy
  | sell
deriving DecidableEq, Repr

def Side.flip : Side → Side
  | .buy => .sell
  | .sell => .buy

structure Fill where
  venue : Venue
  eventId : String
  seq : UInt64
  tsMs : UInt64
  account : String
  instrument : InstrumentId
  symbol : String
  kind : Kind
  side : Side
  price : Ticks
  qty : Lots
  fee : Micro
deriving DecidableEq

inductive RejectReason
  | unknownSymbol (symbol : String)
  | offTick (symbol raw : String)
  | offLot (symbol raw : String)
  | priceOutOfRange (symbol : String) (ticks : I64)
  | malformedDecimal (raw : String)
  | unknownSide (side : String)
  | unknownOutcome (outcome : String)
  | invalidQuantity (raw : String)
  | invalidFee (raw : String)
  | invalidFill (what : String)
  | invalidPosition (what : String)
  | arithmeticOverflow
deriving DecidableEq

/-! ## Positions (`position.rs`) -/

structure PositionKey where
  account : String
  instrument : InstrumentId
deriving DecidableEq

structure Position where
  netQty : Lots
  avgEntryPrice : Option Ticks
  openCost : Micro
  realizedPnl : Micro
  fees : Micro
deriving DecidableEq

instance : Inhabited Position := ⟨⟨0, none, 0, 0, 0⟩⟩

structure PositionDelta where
  key : PositionKey
  before : Position
  after : Position
  closedQty : Lots
  openedQty : Lots
  realizedPnlDelta : Micro
  feeDelta : Micro
deriving DecidableEq

/-! ## The tape (`sequencer.rs` of `types`) -/

structure SequencedFill where
  globalSeq : UInt64
  recvTs : UInt64
  fill : Fill
deriving DecidableEq

inductive SequencerError
  | sealed (venue : Venue)
  | venueMismatch (lane fill : Venue)
  | recvTsWalkback (venue : Venue) (frontier recvTs : UInt64)
  | seqWalkback (venue : Venue) (lastSeq seq : UInt64)
deriving DecidableEq

/-! ## Ingest vocabulary (`ingest.rs`) -/

inductive DeadLetterReason
  | malformed (error : String)
  | rejected (reason : RejectReason)
  | byzantine
  | outOfOrder (error : SequencerError)
deriving DecidableEq

inductive IngestOutcome
  | accepted
  | duplicate
  | deadLettered (reason : DeadLetterReason)
deriving DecidableEq

structure DeadLetter where
  venue : Venue
  eventId : String
  reason : DeadLetterReason
  text : Option String
deriving DecidableEq

inductive AlertKind
  | byzantineDuplicate
deriving DecidableEq

structure Alert where
  venue : Venue
  eventId : String
  kind : AlertKind
deriving DecidableEq

structure IngestStats where
  accepted : UInt64
  duplicates : UInt64
  byzantine : UInt64
  deadLettered : UInt64
  outOfOrder : UInt64
  gaps : UInt64
deriving DecidableEq

instance : Inhabited IngestStats := ⟨⟨0, 0, 0, 0, 0, 0⟩⟩

end Bitfrost
