import Bitfrost.Lib.Checked
import Bitfrost.Lib.Binary64
import Bitfrost.Lib.Decimal
import Bitfrost.Lib.Keyed
import Bitfrost.Lib.Run
import Bitfrost.Lib.Replay
import Bitfrost.Lib.Lanes
import Bitfrost.Lib.Missing
import Bitfrost.Lib.CostBasis
import Bitfrost.Lib.CostRules
import Bitfrost.Types
import Bitfrost.Registry
import Bitfrost.Convert
import Bitfrost.Decimals
import Bitfrost.DecimalBytes
import Bitfrost.Keeper
import Bitfrost.Transition
import Bitfrost.Ledger
import Bitfrost.Deltas
import Bitfrost.Divisions
import Bitfrost.CostWindow
import Bitfrost.Reference
import Bitfrost.Mirror
import Bitfrost.Admission
import Bitfrost.Construction
import Bitfrost.Wire
import Bitfrost.Sequencer
import Bitfrost.Tape
import Bitfrost.Schedule
import Bitfrost.Ingester
import Bitfrost.Classify
import Bitfrost.Conservation
import Bitfrost.Gaps
import Bitfrost.Isolation
import Bitfrost.Release
import Bitfrost.Pipeline
import Bitfrost.Publication
import Bitfrost.Rebuild
import Bitfrost.Recoding
import Bitfrost.Redelivery
import Bitfrost.Lib.Shards
import Bitfrost.Shards
import Bitfrost.Lib.Rounding
import Bitfrost.Outcomes
import Bitfrost.Lib.Doubles
import Bitfrost.Lib.DoubleOps
import Bitfrost.Lib.DoubleRound
import Bitfrost.PriceTicks
import Bitfrost.PmWire
import Bitfrost.Lib.Printing
import Bitfrost.Encode
import Bitfrost.Lib.Firsts
import Bitfrost.Producer
import Bitfrost.Lib.Lines
import Bitfrost.Stream
