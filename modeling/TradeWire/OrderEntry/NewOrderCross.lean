import TradeWire.Message
import TradeWire.OrderEntry.Preamble
import TradeWire.OrderEntry.CrossGroup
/-!
# Order entry — crossing orders

A cross carries fixed fields, up to three optional ones in the order of
their indices, a count, and as many legs. Reading checks that all the
legs fit before it takes the first, so a cross cut short in its legs is
left at its first leg, wherever the cut. Writing has no such check: it
stops in the leg that no longer fits.
-/

namespace TradeWire

-- Sums start from the zero of `Nat` itself, whatever algebra is in scope.
attribute [local instance (high)] Zero.ofOfNat0

namespace OrderEntry

/-- **A request to cross orders with one another.** -/
@[ext]
structure NewOrderCross where
  header : Header := {}
  crossId : Octets 20 := .zero 20
  crossType : UInt8 := 0
  crossPrioritization : UInt8 := 0
  price : UInt64 := 0
  orderQty : UInt32 := 0
  presence : Presence .w16 := .empty
  symbol : Octets 8 := .zero 8
  capacity : UInt8 := 0
  clearingFirm : Octets 4 := .zero 4
  groups : List CrossGroup := []
  deriving DecidableEq

namespace NewOrderCross

/-- The byte that announces a cross. -/
def typeByte : UInt8 := 0x41

/-- The bytes of a cross without optional fields and legs. -/
def minSize : Nat := preambleSize + 20 + 1 + 1 + 8 + 4 + 2 + 1

/-- The most legs a cross can have: its count is one byte. -/
def maxGroupCount : Nat := 255

/-! ## Optional fields -/

/-- The index of the symbol. -/
def symbolIndex : Nat := 0

/-- The index of the capacity. -/
def capacityIndex : Nat := 1

/-- The index of the clearing firm. -/
def clearingFirmIndex : Nat := 2

/-- The optional fields a cross has, those of its legs included. -/
def defined : Presence .w16 :=
  .ofList [symbolIndex, capacityIndex, clearingFirmIndex, CrossGroup.accountIndex]

/-- The bytes an optional field of the cross itself takes, by its index.
The accounts take none here: each leg counts its own. -/
def optionalSize : Nat → Nat
  | 0 => 8
  | 1 => 1
  | 2 => 4
  | _ => 0

/-! ## Building a record -/

/-- The record with a symbol. -/
def setSymbol (r : NewOrderCross) (value : Octets 8) : NewOrderCross :=
  { r with symbol := value, presence := r.presence.insert symbolIndex }

/-- The record with a capacity. -/
def setCapacity (r : NewOrderCross) (value : UInt8) : NewOrderCross :=
  { r with capacity := value, presence := r.presence.insert capacityIndex }

/-- The record with a clearing firm. -/
def setClearingFirm (r : NewOrderCross) (value : Octets 4) : NewOrderCross :=
  { r with clearingFirm := value, presence := r.presence.insert clearingFirmIndex }

/-- The record with its legs' accounts shown. -/
def includeAccounts (r : NewOrderCross) : NewOrderCross :=
  { r with presence := r.presence.insert CrossGroup.accountIndex }

/-- The record with more legs behind those it has. -/
def appendGroups (r : NewOrderCross) (groups : List CrossGroup) : NewOrderCross :=
  { r with groups := r.groups ++ groups }

/-- The record with its first `n` legs. -/
def truncateGroups (r : NewOrderCross) (n : Nat) : NewOrderCross :=
  { r with groups := r.groups.take n }

/-! ## Writing -/

/-- The bytes a record takes, also one that cannot be written. -/
def encodedLen (r : NewOrderCross) : Nat :=
  minSize + (r.presence.toList.map optionalSize).sum +
    r.groups.length * CrossGroup.size r.presence

/-- The optional fields of the cross itself, those that are present. -/
def optionalFields (r : NewOrderCross) : List Bytes :=
  (if r.presence.contains symbolIndex then [Field.bytes .little r.symbol] else []) ++
  (if r.presence.contains capacityIndex then [Field.bytes .little r.capacity] else []) ++
  (if r.presence.contains clearingFirmIndex then [Field.bytes .little r.clearingFirm] else [])

/-- The fields of a record, unless it claims an optional field that is
not defined or has more legs than can be counted. -/
def fields? (r : NewOrderCross) : Option (List Bytes) := do
  guard (r.presence.Within defined)
  guard (r.groups.length ≤ maxGroupCount)
  let preamble ← r.header.fields? typeByte r.encodedLen
  some (preamble ++ [
    Field.bytes .little r.crossId,
    Field.bytes .little r.crossType,
    Field.bytes .little r.crossPrioritization,
    Field.bytes .little r.price,
    Field.bytes .little r.orderQty,
    Field.bytes .little r.presence] ++
    r.optionalFields ++
    [Field.bytes .little (UInt8.ofNat r.groups.length)] ++
    r.groups.flatMap (CrossGroup.fields r.presence))

/-! ## Reading -/

/-- Reads what stands before the legs over a record: the record now, and
how many legs are to come. -/
def refillHead (r : NewOrderCross) (header : Header) :
    Decoder .little (NewOrderCross × UInt8) := do
  let r := { r with header }
  let r := { r with crossId := ← Decoder.field }
  let r := { r with crossType := ← Decoder.field }
  let r := { r with crossPrioritization := ← Decoder.field }
  let r := { r with price := ← Decoder.field }
  let r := { r with orderQty := ← Decoder.field }
  let r := { r with presence := ← Decoder.field }
  Decoder.require (r.presence.Within defined)
  let r := { r with symbol := ← Decoder.fieldIf (r.presence.contains symbolIndex) }
  let r := { r with capacity := ← Decoder.fieldIf (r.presence.contains capacityIndex) }
  let r := { r with clearingFirm := ← Decoder.fieldIf (r.presence.contains clearingFirmIndex) }
  let count ← Decoder.field
  pure (r, count)

/-- Reads this many legs over those of a record. -/
def refillGroups (r : NewOrderCross) (count : UInt8) : Decoder .little NewOrderCross := do
  let groups ← Decoder.repeated count.toNat (CrossGroup.decoder r.presence)
  pure { r with groups }

/-- Reads a cross over a record. -/
def refill (r : NewOrderCross) : Decoder .little NewOrderCross :=
  framed typeByte fun header => do
    let (r, count) ← r.refillHead header
    Decoder.ensure (count.toNat * CrossGroup.size r.presence)
    r.refillGroups count

instance : Message .little NewOrderCross where
  type := typeByte
  name := "NewOrderCross"
  blank := {}
  encodedLen := encodedLen
  fields? := fields?
  refill := refill
  Encodable r := r.presence.Within defined ∧ r.groups.length ≤ maxGroupCount
  canonical r := { r with
    symbol := if r.presence.contains symbolIndex then r.symbol else .zero 8
    capacity := if r.presence.contains capacityIndex then r.capacity else 0
    clearingFirm := if r.presence.contains clearingFirmIndex then r.clearingFirm else .zero 4
    groups := r.groups.map (CrossGroup.canonical r.presence) }

end NewOrderCross

end OrderEntry

end TradeWire
