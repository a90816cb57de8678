import TradeWire.OrderEntry.Session
import TradeWire.OrderEntry.CancelOrder
import TradeWire.OrderEntry.NewOrderCross
/-!
# Order entry — the messages of the family

The five kinds of message, and the record that belongs to each.
-/

namespace TradeWire

namespace OrderEntry

/-- **The messages of order entry.** -/
inductive Kind where
  | loginRequest
  | logoutRequest
  | clientHeartbeat
  | cancelOrder
  | newOrderCross
  deriving DecidableEq, Repr

namespace Kind

/-- Every kind. -/
def all : List Kind := [loginRequest, logoutRequest, clientHeartbeat, cancelOrder, newOrderCross]

/-- The records of a kind. -/
def Record : Kind → Type
  | loginRequest => LoginRequest
  | logoutRequest => LogoutRequest
  | clientHeartbeat => ClientHeartbeat
  | cancelOrder => CancelOrder
  | newOrderCross => NewOrderCross

/-- The indices of the optional fields a kind of message has. -/
def optionalIndices : Kind → List Nat
  | loginRequest | logoutRequest | clientHeartbeat => []
  | cancelOrder => [CancelOrder.clearingFirmIndex]
  | newOrderCross => [NewOrderCross.symbolIndex, NewOrderCross.capacityIndex,
      NewOrderCross.clearingFirmIndex, CrossGroup.accountIndex]

instance decEqRecord : (k : Kind) → DecidableEq k.Record
  | loginRequest => inferInstanceAs (DecidableEq LoginRequest)
  | logoutRequest => inferInstanceAs (DecidableEq LogoutRequest)
  | clientHeartbeat => inferInstanceAs (DecidableEq ClientHeartbeat)
  | cancelOrder => inferInstanceAs (DecidableEq CancelOrder)
  | newOrderCross => inferInstanceAs (DecidableEq NewOrderCross)

instance message : (k : Kind) → Message .little k.Record
  | loginRequest => inferInstanceAs (Message .little LoginRequest)
  | logoutRequest => inferInstanceAs (Message .little LogoutRequest)
  | clientHeartbeat => inferInstanceAs (Message .little ClientHeartbeat)
  | cancelOrder => inferInstanceAs (Message .little CancelOrder)
  | newOrderCross => inferInstanceAs (Message .little NewOrderCross)

end Kind

end OrderEntry

end TradeWire
