import TradeWire.OrderEntry.Side
import TradeWire.Walk
import TradeWire.Proofs.Arrival
import TradeWire.Proofs.Lawful
import TradeWire.Proofs.FeedLaws
import TradeWire.Proofs.OrderEntryLaws
import TradeWire.Proofs.CrossLaws
import TradeWire.Proofs.RoundTrip
import TradeWire.Proofs.Dispatching
import TradeWire.Proofs.Threshold
import TradeWire.Proofs.Resumption
import TradeWire.Proofs.Capacity
import TradeWire.Proofs.Stream
import TradeWire.Proofs.Coverage
import TradeWire.Proofs.Reach
import TradeWire.Proofs.Verdict
import TradeWire.Proofs.Reuse
import TradeWire.Proofs.Announcement
import TradeWire.Proofs.Visibility
import TradeWire.Proofs.Boundaries
import TradeWire.Proofs.Conservation
import TradeWire.Proofs.Positions
import TradeWire.Proofs.Script
import TradeWire.Proofs.FeedGrammar
import TradeWire.Proofs.Listening
import TradeWire.Proofs.Logging
import TradeWire.Proofs.CrossPositions
import TradeWire.Proofs.Room
import TradeWire.Proofs.Shift
import TradeWire.Proofs.Widths
import TradeWire.Proofs.Stopping
import TradeWire.Proofs.Standstill
import TradeWire.Proofs.Corruption
import TradeWire.Proofs.Building
import TradeWire.Proofs.Setters
import TradeWire.Proofs.Progress
import TradeWire.Proofs.IndexSets
import TradeWire.Proofs.Weights
