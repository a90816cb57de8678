import TradeWire.Fault
/-!
# Order entry — sides

The side of an order is a character on the wire. Records keep the byte
as it came, so a side no one knows travels unharmed; `Side` is for those
who need to tell them apart.
-/

namespace TradeWire

namespace OrderEntry

/-- **Which side of the market an order is on.** -/
inductive Side where
  | buy
  | sell
  | sellShort
  | sellShortExempt
  deriving DecidableEq, Repr

namespace Side

/-- The character of a side. -/
def toByte : Side → UInt8
  | buy => '1'.toUInt8
  | sell => '2'.toUInt8
  | sellShort => '5'.toUInt8
  | sellShortExempt => '6'.toUInt8

/-- The side of a character. -/
def ofByte (byte : UInt8) : Except Fault Side :=
  if byte = buy.toByte then .ok buy
  else if byte = sell.toByte then .ok sell
  else if byte = sellShort.toByte then .ok sellShort
  else if byte = sellShortExempt.toByte then .ok sellShortExempt
  else .error .badValue

end Side

end OrderEntry

end TradeWire
