import TradeWire.Message
import TradeWire.Feed.Tag
/-!
# The feed — events of the system

What happens to the market as a whole: the day begins, trading opens,
trading closes. The event is a code the record keeps as it came.
-/

namespace TradeWire

namespace Feed

/-- **Something happened to the market as a whole.** -/
@[ext]
structure SystemEvent where
  timestamp : UInt32 := 0
  eventCode : UInt8 := 0
  deriving DecidableEq

namespace SystemEvent

/-- The tag of a system event. -/
def typeByte : UInt8 := 'S'.toUInt8

/-- The bytes of every system event. -/
def size : Nat := tagSize + 4 + 1

instance : Message .big SystemEvent where
  type := typeByte
  name := "SystemEvent"
  blank := {}
  encodedLen _ := size
  fields? r := some [
    Field.bytes .big typeByte,
    Field.bytes .big r.timestamp,
    Field.bytes .big r.eventCode]
  refill r := do
    tag typeByte
    let r := { r with timestamp := ← Decoder.field }
    let r := { r with eventCode := ← Decoder.field }
    pure r
  Encodable _ := True
  canonical r := r

end SystemEvent

end Feed

end TradeWire
