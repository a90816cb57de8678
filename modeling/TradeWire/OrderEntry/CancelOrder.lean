import TradeWire.Message
import TradeWire.Presence
import TradeWire.OrderEntry.Preamble
/-!
# Order entry — cancelling an order

The order is named by the identifier its client gave it. The clearing
firm is the one optional field, and stands last.
-/

namespace TradeWire

-- Sums start from the zero of `Nat` itself, whatever algebra is in scope.
attribute [local instance (high)] Zero.ofOfNat0

namespace OrderEntry

/-- **A client's request to cancel an order.** -/
@[ext]
structure CancelOrder where
  header : Header := {}
  origClOrdId : Octets 20 := .zero 20
  presence : Presence .w8 := .empty
  clearingFirm : Octets 4 := .zero 4
  deriving DecidableEq

namespace CancelOrder

/-- The byte that announces a cancellation. -/
def typeByte : UInt8 := 0x39

/-- The bytes of a cancellation without optional fields. -/
def minSize : Nat := preambleSize + 20 + 1

/-! ## Optional fields -/

/-- The index of the clearing firm. -/
def clearingFirmIndex : Nat := 0

/-- The optional fields a cancellation has. -/
def defined : Presence .w8 := .ofList [clearingFirmIndex]

/-- The bytes an optional field takes, by its index. -/
def optionalSize : Nat → Nat
  | 0 => 4
  | _ => 0

/-- The record with a clearing firm. -/
def setClearingFirm (r : CancelOrder) (value : Octets 4) : CancelOrder :=
  { r with clearingFirm := value, presence := r.presence.insert clearingFirmIndex }

/-! ## On the wire -/

/-- The bytes a record takes, also one that cannot be written. -/
def encodedLen (r : CancelOrder) : Nat :=
  minSize + (r.presence.toList.map optionalSize).sum

/-- The fields of a record, unless it claims one that is not defined. -/
def fields? (r : CancelOrder) : Option (List Bytes) := do
  guard (r.presence.Within defined)
  let preamble ← r.header.fields? typeByte r.encodedLen
  let optional :=
    if r.presence.contains clearingFirmIndex then [Field.bytes .little r.clearingFirm] else []
  some (preamble ++ [
    Field.bytes .little r.origClOrdId,
    Field.bytes .little r.presence] ++ optional)

/-- Reads a cancellation over a record. -/
def refill (r : CancelOrder) : Decoder .little CancelOrder :=
  framed typeByte fun header => do
    let r := { r with header }
    let r := { r with origClOrdId := ← Decoder.field }
    let r := { r with presence := ← Decoder.field }
    Decoder.require (r.presence.Within defined)
    let r := { r with
      clearingFirm := ← Decoder.fieldIf (r.presence.contains clearingFirmIndex) }
    pure r

instance : Message .little CancelOrder where
  type := typeByte
  name := "CancelOrder"
  blank := {}
  encodedLen := encodedLen
  fields? := fields?
  refill := refill
  Encodable r := r.presence.Within defined
  canonical r :=
    if r.presence.contains clearingFirmIndex then r else { r with clearingFirm := .zero 4 }

end CancelOrder

end OrderEntry

end TradeWire
