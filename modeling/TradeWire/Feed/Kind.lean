import TradeWire.Feed.SystemEvent
import TradeWire.Feed.Orders
/-!
# The feed — the messages of the family

The five kinds of message, and the record that belongs to each.
-/

namespace TradeWire

namespace Feed

/-- **The messages of the feed.** -/
inductive Kind where
  | systemEvent
  | addOrder
  | orderExecuted
  | orderCancel
  | deleteOrder
  deriving DecidableEq, Repr

namespace Kind

/-- Every kind. -/
def all : List Kind := [systemEvent, addOrder, orderExecuted, orderCancel, deleteOrder]

/-- The records of a kind. -/
def Record : Kind → Type
  | systemEvent => SystemEvent
  | addOrder => AddOrder
  | orderExecuted => OrderExecuted
  | orderCancel => OrderCancel
  | deleteOrder => DeleteOrder

instance decEqRecord : (k : Kind) → DecidableEq k.Record
  | systemEvent => inferInstanceAs (DecidableEq SystemEvent)
  | addOrder => inferInstanceAs (DecidableEq AddOrder)
  | orderExecuted => inferInstanceAs (DecidableEq OrderExecuted)
  | orderCancel => inferInstanceAs (DecidableEq OrderCancel)
  | deleteOrder => inferInstanceAs (DecidableEq DeleteOrder)

instance message : (k : Kind) → Message .big k.Record
  | systemEvent => inferInstanceAs (Message .big SystemEvent)
  | addOrder => inferInstanceAs (Message .big AddOrder)
  | orderExecuted => inferInstanceAs (Message .big OrderExecuted)
  | orderCancel => inferInstanceAs (Message .big OrderCancel)
  | deleteOrder => inferInstanceAs (Message .big DeleteOrder)

end Kind

end Feed

end TradeWire
