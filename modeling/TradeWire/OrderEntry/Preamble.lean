import TradeWire.Decoder
/-!
# Order entry — the preamble

Every order-entry message begins with ten bytes: a marker, the length of
what follows the marker, the type, and the header its record keeps. The
length is the message's own account of itself, and `framed` holds the
message to it once all of it has been read.
-/

namespace TradeWire

namespace OrderEntry

/-- The two bytes every message starts with, as a number. -/
def startOfMessage : UInt16 := 0xBABA

/-- The bytes before a message's own fields. -/
def preambleSize : Nat := 10

/-- The bytes of a message that its length does not count: the marker. -/
def markerSize : Nat := 2

/-- **What a record keeps of its preamble.** -/
@[ext]
structure Header where
  matchingUnit : UInt8 := 0
  sequenceNumber : UInt32 := 0
  deriving DecidableEq

/-! ## Writing -/

/-- The preamble of a message of this type and total length, unless the
length does not fit the two bytes it has.

This is the last check a message makes. Whether its optional fields are
defined and its legs can be counted is checked in front of it, and it is
made before the marker is put, so no message is refused behind its first
byte. That is why the fields can be given all together or not at all, and
be put in a second step. -/
def Header.fields? (header : Header) (type : UInt8) (total : Nat) : Option (List Bytes) :=
  if markerSize ≤ total ∧ total - markerSize < UInt16.size then
    some [
      Field.bytes .little startOfMessage,
      Field.bytes .little (UInt16.ofNat (total - markerSize)),
      Field.bytes .little type,
      Field.bytes .little header.matchingUnit,
      Field.bytes .little header.sequenceNumber]
  else none

/-! ## Reading -/

/-- The marker. -/
def marker : Decoder .little Unit := do
  let found : UInt16 ← Decoder.field
  Decoder.require (found = startOfMessage)

/-- The preamble of a message of this type: the length it announces, and
the header. -/
def preamble (type : UInt8) : Decoder .little (UInt16 × Header) := do
  marker
  let length ← Decoder.field
  let found : UInt8 ← Decoder.field
  Decoder.require (found = type)
  let matchingUnit ← Decoder.field
  let sequenceNumber ← Decoder.field
  pure (length, { matchingUnit, sequenceNumber })

/-- **A whole message of this type,** given how to read what follows the
preamble. A message that is not as long as it announces is rejected, but
only behind its last byte. -/
def framed {α : Type} (type : UInt8) (body : Header → Decoder .little α) : Decoder .little α := do
  let ((length, value), taken) ← Decoder.measured do
    let (length, header) ← preamble type
    let value ← body header
    pure (length, value)
  Decoder.require (taken = markerSize + length.toNat)
  pure value

/-- The type of the message that begins here. -/
def peekType : Decoder .little UInt8 := do
  marker
  let _length : UInt16 ← Decoder.field
  Decoder.field

/-- The bytes a message takes by its own account: the marker, and the
length at the third and fourth bytes. -/
def declaredSize (bytes : Bytes) : Nat :=
  markerSize + ByteOrder.little.load ((bytes.drop markerSize).take 2)

end OrderEntry

end TradeWire
