import TradeWire.Message
import TradeWire.Feed.Tag
/-!
# The feed — the life of an order

An order is added to the book, traded against, reduced, and taken off.
Each message names the order and says when it happened.
-/

namespace TradeWire

namespace Feed

/-! ## An order arrives -/

/-- **An order was added to the book.** -/
@[ext]
structure AddOrder where
  timestamp : UInt32 := 0
  orderId : UInt64 := 0
  side : UInt8 := 0
  shares : UInt32 := 0
  symbol : Octets 8 := .zero 8
  price : UInt32 := 0
  deriving DecidableEq

namespace AddOrder

/-- The tag of an added order. -/
def typeByte : UInt8 := 'A'.toUInt8

/-- The bytes of every added order. -/
def size : Nat := tagSize + 4 + 8 + 1 + 4 + 8 + 4

instance : Message .big AddOrder where
  type := typeByte
  name := "AddOrder"
  blank := {}
  encodedLen _ := size
  fields? r := some [
    Field.bytes .big typeByte,
    Field.bytes .big r.timestamp,
    Field.bytes .big r.orderId,
    Field.bytes .big r.side,
    Field.bytes .big r.shares,
    Field.bytes .big r.symbol,
    Field.bytes .big r.price]
  refill r := do
    tag typeByte
    let r := { r with timestamp := ← Decoder.field }
    let r := { r with orderId := ← Decoder.field }
    let r := { r with side := ← Decoder.field }
    let r := { r with shares := ← Decoder.field }
    let r := { r with symbol := ← Decoder.field }
    let r := { r with price := ← Decoder.field }
    pure r
  Encodable _ := True
  canonical r := r

end AddOrder

/-! ## An order is traded against -/

/-- **Shares of an order were traded.** -/
@[ext]
structure OrderExecuted where
  timestamp : UInt32 := 0
  orderId : UInt64 := 0
  executedShares : UInt32 := 0
  matchNumber : UInt64 := 0
  deriving DecidableEq

namespace OrderExecuted

/-- The tag of a trade. -/
def typeByte : UInt8 := 'E'.toUInt8

/-- The bytes of every trade. -/
def size : Nat := tagSize + 4 + 8 + 4 + 8

instance : Message .big OrderExecuted where
  type := typeByte
  name := "OrderExecuted"
  blank := {}
  encodedLen _ := size
  fields? r := some [
    Field.bytes .big typeByte,
    Field.bytes .big r.timestamp,
    Field.bytes .big r.orderId,
    Field.bytes .big r.executedShares,
    Field.bytes .big r.matchNumber]
  refill r := do
    tag typeByte
    let r := { r with timestamp := ← Decoder.field }
    let r := { r with orderId := ← Decoder.field }
    let r := { r with executedShares := ← Decoder.field }
    let r := { r with matchNumber := ← Decoder.field }
    pure r
  Encodable _ := True
  canonical r := r

end OrderExecuted

/-! ## An order shrinks, or leaves -/

/-- **Shares of an order were taken back.** -/
@[ext]
structure OrderCancel where
  timestamp : UInt32 := 0
  orderId : UInt64 := 0
  cancelledShares : UInt32 := 0
  deriving DecidableEq

namespace OrderCancel

/-- The tag of a reduction. -/
def typeByte : UInt8 := 'X'.toUInt8

/-- The bytes of every reduction. -/
def size : Nat := tagSize + 4 + 8 + 4

instance : Message .big OrderCancel where
  type := typeByte
  name := "OrderCancel"
  blank := {}
  encodedLen _ := size
  fields? r := some [
    Field.bytes .big typeByte,
    Field.bytes .big r.timestamp,
    Field.bytes .big r.orderId,
    Field.bytes .big r.cancelledShares]
  refill r := do
    tag typeByte
    let r := { r with timestamp := ← Decoder.field }
    let r := { r with orderId := ← Decoder.field }
    let r := { r with cancelledShares := ← Decoder.field }
    pure r
  Encodable _ := True
  canonical r := r

end OrderCancel

/-- **An order was taken off the book.** -/
@[ext]
structure DeleteOrder where
  timestamp : UInt32 := 0
  orderId : UInt64 := 0
  deriving DecidableEq

namespace DeleteOrder

/-- The tag of a removal. -/
def typeByte : UInt8 := 'D'.toUInt8

/-- The bytes of every removal. -/
def size : Nat := tagSize + 4 + 8

instance : Message .big DeleteOrder where
  type := typeByte
  name := "DeleteOrder"
  blank := {}
  encodedLen _ := size
  fields? r := some [
    Field.bytes .big typeByte,
    Field.bytes .big r.timestamp,
    Field.bytes .big r.orderId]
  refill r := do
    tag typeByte
    let r := { r with timestamp := ← Decoder.field }
    let r := { r with orderId := ← Decoder.field }
    pure r
  Encodable _ := True
  canonical r := r

end DeleteOrder

end Feed

end TradeWire
