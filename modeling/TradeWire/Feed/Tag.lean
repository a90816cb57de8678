import TradeWire.Decoder
/-!
# The feed — tags

A feed message is one tag byte and its fields, all of fixed size and in
big-endian order. The tag alone decides how long the message is.
-/

namespace TradeWire

namespace Feed

/-- The bytes of a tag. -/
def tagSize : Nat := 1

/-- The tag of a message of this type. -/
def tag (type : UInt8) : Decoder .big Unit := do
  let found ← Decoder.field
  Decoder.require (found = type)

/-- The tag of the message that begins here. -/
def peekType : Decoder .big UInt8 := Decoder.field

end Feed

end TradeWire
